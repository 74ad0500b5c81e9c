/-
  Gsim/PatternCompare.lean
  ========================
  **A comparison with a concatenation, taken apart** (`checkPattern2`,
  `src/patternDetect.cpp`).

  `cat(l, r) == c` becomes `l == c1 & r == c2`, and so does `l << n | r == c`; `c1` and
  `c2` are cut out of `c` by `BITS_mpz`.  The conjunction holds of one pair of operands
  at most, so it can only be right if the comparison does too: the cut constants put
  together again must give `c`, and where the operands overlap `c` must have no ones
  (`checkPattern2_preserves_iff`).  For `cat` the left cut starts one bit too high, so
  that only constants without a left part survive it.
-/
import Gsim.PatternTree

namespace Gsim.PatternDetect

open Gsim.ExpTree Gsim.TwosComplement Gsim.FirrtlSemantics
open Gsim.ConstantNode hiding ENode

/-! ## 1. The rewriting -/

/-- The conversion of an `int`. -/
def size_t (x : Int) : Nat := (x % 2 ^ 64).toNat

/-- `rop = op[high_bit:low_bit]`, with the arithmetic of `size_t`. -/
def BITS_mpz (op : Int) (high_bit low_bit : Nat) : Int :=
  Int.land (Int.tdiv op (2 ^ low_bit)) (2 ^ size_t (high_bit - low_bit + 1) - 1)

def stripShl : ENode Op → ENode Op
  | .op (.OP_SHL _) _ _ (c :: _) => c
  | e => e

def stripPad : ENode Op → ENode Op
  | .op (.OP_PAD _) _ _ (c :: _) => c
  | e => e

/-- `lsignal == constant1` and `rsignal == constant2`, under what was the root. -/
def conjunction (width : Int) (sign : Bool) (lsignal rsignal : ENode Op)
    (constant1 constant2 : Int) : ENode Op :=
  .op .OP_AND width sign
    [.op .OP_EQ 1 false [lsignal, allocIntEnode lsignal.width constant1],
      .op .OP_EQ 1 false [rsignal, allocIntEnode rsignal.width constant2]]

/-- `checkPattern2` on the root; `none` leaves the tree alone. -/
def rewriteRoot : ENode Op → Option (ENode Op)
  | .op .OP_EQ width sign [.op catOp _ _ [c0, c1], .op (.OP_INT constant) _ _ _] =>
    let lsignal := stripShl c0
    let rsignal := stripPad c1
    let lwidth := lsignal.width
    let rwidth := rsignal.width
    match catOp with
    | .OP_CAT =>
      some <| conjunction width sign lsignal rsignal
        (BITS_mpz constant (size_t (lwidth + rwidth)) (size_t (rwidth + 1)))
        (BITS_mpz constant (size_t (rwidth - 1)) 0)
    | .OP_OR =>
      match c0 with
      | .op (.OP_SHL values0) shlWidth _ _ =>
        -- `uint16_t shift`
        let shift := values0 % 2 ^ 16
        some <| conjunction width sign lsignal rsignal
          (BITS_mpz constant (size_t (shlWidth - 1)) shift)
          (BITS_mpz constant (size_t (rwidth - 1)) 0)
      | _ => none
    | _ => none
  | _ => none

def checkPattern2 (node : Member) : Option Member :=
  if node.isArray ∨ node.type ≠ .others then none
  else
    match node.assignTree with
    | [tree] =>
      (rewriteRoot tree.root).map fun root => { node with assignTree := [{ tree with root := root }] }
    | _ => none

/-! ## 2. The comparisons that match -/

/-- A comparison up to its operands: `cat` or `or`, the operands' types, the shift and the pad
    around them, and the constant. -/
structure Comparison where
  cat : Bool
  sign : Bool
  lwidth : Nat
  rwidth : Nat
  shl : Option Nat
  pad : Option Nat
  constant : Nat
  constantWidth : Nat

namespace Comparison

variable (C : Comparison)

def shift : Nat := C.shl.getD 0

def leftWidth : Nat := C.lwidth + C.shift

def rightWidth : Nat := max C.rwidth (C.pad.getD 0)

def width : Nat := if C.cat then C.leftWidth + C.rightWidth else max C.leftWidth C.rightWidth

/-- The `or` has a shifted operand, the constant has its width, and the widths are `int`s. -/
structure Formed : Prop where
  shifted : C.cat = false → C.shl ≠ none
  constant_lt : C.constant < 2 ^ C.constantWidth
  width_lt : C.width < 2 ^ 31

def left (l : ENode Op) : ENode Op :=
  match C.shl with
  | none => l
  | some n => .op (.OP_SHL n) C.leftWidth C.sign [l]

def right (r : ENode Op) : ENode Op :=
  match C.pad with
  | none => r
  | some n => .op (.OP_PAD n) C.rightWidth C.sign [r]

/-- The comparison of two operands. -/
def build (l r : ENode Op) : ENode Op :=
  .op .OP_EQ 1 false
    [.op (if C.cat then .OP_CAT else .OP_OR) C.width false [C.left l, C.right r],
      .op (.OP_INT C.constant) C.constantWidth false []]

/-- The operands have their types, and nothing more is stripped off them. -/
structure Operands (l r : ENode Op) : Prop where
  lwidth : l.width = C.lwidth
  rwidth : r.width = C.rwidth
  lsign : ENodeSign l = C.sign
  rsign : ENodeSign r = C.sign
  bare_left : C.shl = none → stripShl l = l
  bare_right : C.pad = none → stripPad r = r

/-- Two operand values that their types hold. -/
def InRange (a b : Int) : Prop := Fits C.sign C.lwidth a ∧ Fits C.sign C.rwidth b

instance (a b : Int) : Decidable (C.InRange a b) :=
  inferInstanceAs (Decidable (Fits C.sign C.lwidth a ∧ Fits C.sign C.rwidth b))

/-- The value that is compared with the constant. -/
def joined (a b : Int) : Int :=
  if C.cat then a * 2 ^ C.shift % 2 ^ C.leftWidth * 2 ^ C.rightWidth + b % 2 ^ C.rightWidth
  else Int.lor (a * 2 ^ C.shift % 2 ^ C.width) (b % 2 ^ C.width)

/-- What the left operand is compared with: the cut begins at `rwidth + 1` for `cat`, and at a
    shift of sixteen bits for `or`. -/
def constant1 : Nat :=
  if C.cat then C.constant / 2 ^ (C.rwidth + 1) % 2 ^ C.lwidth
  else C.constant / 2 ^ (C.shift % 2 ^ 16) % 2 ^ C.lwidth

def constant2 : Nat := C.constant % 2 ^ C.rwidth

/-- The bits of an operand that hold its magnitude. -/
def magnitude (w : Nat) : Nat := if C.sign then w - 1 else w

/-- The cut constants give the constant again, and of the bits where both operands have a say
    none is set. -/
def Rejoins : Prop :=
  if C.cat then C.constant1 * 2 ^ (C.shift + C.rightWidth) + C.constant2 = C.constant
  else C.constant1 * 2 ^ C.shift ||| C.constant2 = C.constant ∧
    C.constant % 2 ^ min (C.magnitude C.rwidth) (C.shift + C.magnitude C.lwidth) < 2 ^ C.shift

/-- No operands give the constant. -/
def Unattained : Prop := ∀ a b, C.InRange a b → C.joined a b ≠ C.constant

/-- Where both cut constants are values of their operands they rejoin; where one is not (its
    top bit is the sign of a signed operand) the constant is not attained at all. -/
def Sound : Prop :=
  if C.InRange C.constant1 C.constant2 then C.Rejoins else C.Unattained

/-- The rewriting keeps the value, whatever the operands are. -/
def Preserved : Prop :=
  ∀ (other : OtherSemantics) (ρ : Nat → List Int → Int) (l r : ENode Op), C.Operands l r →
    C.InRange (valueOf other ρ l) (valueOf other ρ r) →
    ∀ root, rewriteRoot (C.build l r) = some root →
      valueOf other ρ root = valueOf other ρ (C.build l r)

/-! ## 3. Both sides evaluated -/

variable {C} {other : OtherSemantics} {ρ : Nat → List Int → Int} {l r : ENode Op}

theorem BITS_mpz_nat (c high low k : Nat) (hk : k < 2 ^ 64)
    (h : ((high : Int) - low + 1) % 2 ^ 64 = k) :
    BITS_mpz c high low = (c / 2 ^ low % 2 ^ k : Nat) := by
  have bits : size_t ((high : Int) - low + 1) = k := by
    unfold size_t
    omega
  have quotient : Int.tdiv (c : Int) (2 ^ low) = (c : Int) / 2 ^ low :=
    Int.tdiv_eq_ediv_of_nonneg (Int.natCast_nonneg c)
  rw [BITS_mpz, bits, quotient, land_mask]
  push_cast
  rfl

theorem joined_range (C : Comparison) (a b : Int) : 0 ≤ C.joined a b ∧ C.joined a b < 2 ^ C.width := by
  unfold joined width
  split
  · have low := emod_range b C.rightWidth
    have high := emod_range (a * 2 ^ C.shift) C.leftWidth
    have pos := two_pow_pos C.rightWidth
    rw [pow_add]
    constructor
    · exact add_nonneg (mul_nonneg high.1 pos.le) low.1
    · have step : (a * 2 ^ C.shift % 2 ^ C.leftWidth + 1) * 2 ^ C.rightWidth ≤
          2 ^ C.leftWidth * 2 ^ C.rightWidth :=
        mul_le_mul_of_nonneg_right high.2 pos.le
      rw [add_mul, one_mul] at step
      exact lt_of_lt_of_le (by omega) step
  · rw [← Int.bitwise_or]
    exact bitwise_range _ rfl _ _ _ (emod_range _ _) (emod_range _ _)

theorem left_width (hl : C.Operands l r) : ENodeWidth (C.left l) = C.leftWidth := by
  unfold left leftWidth shift
  cases C.shl with
  | none => simp [ENodeWidth, hl.lwidth]
  | some n => rfl

theorem right_width (hl : C.Operands l r) : ENodeWidth (C.right r) = C.rightWidth := by
  unfold right rightWidth
  cases C.pad with
  | none => simp [ENodeWidth, hl.rwidth]
  | some n => rfl

/-- The shift keeps every bit of its operand. -/
theorem valueOf_left (hfit : Fits C.sign C.lwidth (valueOf other ρ l)) :
    valueOf other ρ (C.left l) = valueOf other ρ l * 2 ^ C.shift := by
  unfold left
  cases hshl : C.shl with
  | none => simp [shift, hshl]
  | some n =>
    have hshift : C.shift = n := by simp [shift, hshl]
    have hwidth : C.leftWidth = C.lwidth + n := by rw [leftWidth, hshift]
    rw [valueOf_one (fun x => .expr1Int1 .OP_SHL x n) fun _ => rfl, hshift, hwidth]
    exact wrap_of_fits (fits_mul_two_pow hfit (le_refl n))

theorem valueOf_right (hfit : Fits C.sign C.rwidth (valueOf other ρ r)) :
    valueOf other ρ (C.right r) = valueOf other ρ r := by
  unfold right
  cases C.pad with
  | none => rfl
  | some n =>
    rw [valueOf_one (fun x => .expr1Int1 .OP_PAD x n) fun _ => rfl]
    exact wrap_of_fits (hfit.mono (le_max_left _ _))

/-- The comparison asks whether the joined operands are the constant. -/
theorem valueOf_build (hC : C.Formed) (hl : C.Operands l r)
    (hfit : C.InRange (valueOf other ρ l) (valueOf other ρ r)) :
    valueOf other ρ (C.build l r) =
      truth (C.joined (valueOf other ρ l) (valueOf other ρ r) = C.constant) := by
  have hjoined : Fits false C.width (C.joined (valueOf other ρ l) (valueOf other ρ r)) :=
    fits_unsigned.mpr (joined_range C _ _)
  have hconstant : wrap false C.constantWidth C.constant = C.constant := by
    apply wrap_of_fits
    exact fits_unsigned.mpr ⟨Int.natCast_nonneg _, by exact_mod_cast hC.constant_lt⟩
  have houter : valueOf other ρ
      (.op (if C.cat then .OP_CAT else .OP_OR) C.width false [C.left l, C.right r]) =
      C.joined (valueOf other ρ l) (valueOf other ρ r) := by
    by_cases hcat : C.cat
    · rw [if_pos hcat, valueOf_two (.expr2 .OP_CAT · ·) fun _ _ => rfl, valueOf_left hfit.1,
        valueOf_right hfit.2, left_width hl, right_width hl]
      rw [joined, if_pos hcat] at hjoined ⊢
      exact wrap_of_fits hjoined
    · rw [if_neg hcat, valueOf_two (.expr2 .OP_OR · ·) fun _ _ => rfl, valueOf_left hfit.1,
        valueOf_right hfit.2, left_width hl, right_width hl]
      rw [joined, if_neg hcat, width, if_neg hcat] at hjoined ⊢
      exact wrap_of_fits hjoined
  rw [build, valueOf_eq, houter, valueOf_int]
  simp only [Int.toNat_natCast, hconstant]

theorem stripShl_left (hl : C.Operands l r) : stripShl (C.left l) = l := by
  cases hshl : C.shl with
  | none =>
    have hleft : C.left l = l := by simp [left, hshl]
    rw [hleft, hl.bare_left hshl]
  | some n => simp [left, hshl, stripShl]

theorem stripPad_right (hl : C.Operands l r) : stripPad (C.right r) = r := by
  cases hpad : C.pad with
  | none =>
    have hright : C.right r = r := by simp [right, hpad]
    rw [hright, hl.bare_right hpad]
  | some n => simp [right, hpad, stripPad]

/-- The low cut, for either operator. -/
theorem cut_right (C : Comparison) (h : C.rwidth < 2 ^ 31) :
    BITS_mpz C.constant (size_t ((C.rwidth : Int) - 1)) 0 = (C.constant2 : Int) := by
  rw [BITS_mpz_nat C.constant _ 0 C.rwidth (by omega) (by unfold size_t; omega), pow_zero,
    Nat.div_one, constant2]

/-- The two constants as `BITS_mpz` cuts them; the left one is cut to its width once more where
    it is used. -/
theorem rewriteRoot_build (hC : C.Formed) (hl : C.Operands l r) :
    ∃ c1 : Nat, c1 % 2 ^ C.lwidth = C.constant1 ∧
      rewriteRoot (C.build l r) = some (conjunction 1 false l r c1 C.constant2) := by
  have hrange := hC.width_lt
  unfold width leftWidth rightWidth at hrange
  by_cases hcat : C.cat
  · rw [if_pos hcat] at hrange
    have hr : C.rwidth < 2 ^ 31 := by omega
    refine ⟨C.constant / 2 ^ (C.rwidth + 1) % 2 ^ C.lwidth, ?_, ?_⟩
    · rw [Nat.mod_mod, constant1, if_pos hcat]
    · have hcut : BITS_mpz C.constant (size_t ((C.lwidth : Int) + C.rwidth))
          (size_t ((C.rwidth : Int) + 1)) =
          ((C.constant / 2 ^ (C.rwidth + 1) % 2 ^ C.lwidth : Nat) : Int) := by
        have hlow : size_t ((C.rwidth : Int) + 1) = C.rwidth + 1 := by
          unfold size_t
          omega
        rw [hlow]
        exact BITS_mpz_nat C.constant _ _ C.lwidth (by omega) (by unfold size_t; omega)
      rw [build, if_pos hcat]
      simp only [rewriteRoot, stripShl_left hl, stripPad_right hl, hl.lwidth, hl.rwidth, hcut,
        cut_right C hr]
  · rw [if_neg hcat] at hrange
    have hr : C.rwidth < 2 ^ 31 := by omega
    obtain ⟨n, hn⟩ := Option.ne_none_iff_exists'.mp (hC.shifted (by simpa using hcat))
    have hshift : C.shift = n := by simp [shift, hn]
    have hleft : C.left l = .op (.OP_SHL n) C.leftWidth C.sign [l] := by simp [left, hn]
    have hstrip := stripShl_left hl
    rw [hshift] at hrange
    refine ⟨C.constant / 2 ^ (n % 2 ^ 16) % 2 ^ (C.lwidth + n - n % 2 ^ 16), ?_, ?_⟩
    · rw [Nat.mod_mod_of_dvd _ (pow_dvd_pow 2 (by omega)), constant1, if_neg hcat, hshift]
    · have hcut : BITS_mpz C.constant (size_t ((C.leftWidth : Int) - 1)) (n % 2 ^ 16) =
          ((C.constant / 2 ^ (n % 2 ^ 16) % 2 ^ (C.lwidth + n - n % 2 ^ 16) : Nat) : Int) := by
        apply BITS_mpz_nat
        · omega
        · rw [leftWidth, hshift]
          unfold size_t
          omega
      rw [build, if_neg hcat, hleft]
      rw [hleft] at hstrip
      simp only [rewriteRoot, hstrip, stripPad_right hl, hl.rwidth, hcut, cut_right C hr]

/-- What the pass makes of the comparison asks for the two constants. -/
theorem valueOf_conjunction (hl : C.Operands l r) {c1 : Nat} (hc1 : c1 % 2 ^ C.lwidth = C.constant1) :
    valueOf other ρ (conjunction 1 false l r c1 C.constant2) =
      truth (valueOf other ρ l = C.constant1 ∧ valueOf other ρ r = C.constant2) := by
  have hleft : wrap false C.lwidth c1 = C.constant1 := by
    rw [← hc1]
    simp [wrap]
  have hright : wrap false C.rwidth C.constant2 = C.constant2 := by
    apply wrap_of_fits
    have hlt : C.constant2 < 2 ^ C.rwidth := Nat.mod_lt _ (Nat.two_pow_pos _)
    exact fits_unsigned.mpr ⟨Int.natCast_nonneg _, by exact_mod_cast hlt⟩
  have hpos : ∀ n : Nat, decide ((n : Int) < 0) = false := by
    intro n
    simp
  rw [conjunction, valueOf_and_eq, allocIntEnode, allocIntEnode, valueOf_int, valueOf_int, hl.lwidth,
    hl.rwidth, hpos, hpos]
  simp only [Int.toNat_natCast, hleft, hright]

theorem truth_congr {p q : Prop} [Decidable p] [Decidable q] (h : p ↔ q) : truth p = truth q := by
  simp only [truth, h]

theorem truth_inj {p q : Prop} [Decidable p] [Decidable q] (h : truth p = truth q) : p ↔ q := by
  by_cases hp : p <;> by_cases hq : q <;> simp [truth, hp, hq] at h ⊢

/-- **Preservation, without the trees**: the joined operands are the constant exactly at the two
    cut constants. -/
theorem preserved_iff_exact (hC : C.Formed) :
    C.Preserved ↔ ∀ a b, C.InRange a b →
      (C.joined a b = C.constant ↔ a = C.constant1 ∧ b = C.constant2) := by
  constructor
  · intro h a b hab
    -- two references may take any two values
    have hl : C.Operands (.ref 0 C.lwidth C.sign []) (.ref 1 C.rwidth C.sign []) :=
      ⟨rfl, rfl, rfl, rfl, fun _ => rfl, fun _ => rfl⟩
    obtain ⟨c1, hc1, hroot⟩ := rewriteRoot_build hC hl
    have heq := h (fun _ _ _ _ => 0) (fun node _ => if node = 0 then a else b) _ _ hl hab _ hroot
    have hbuild := valueOf_build hC hl (show C.InRange (valueOf (fun _ _ _ _ => 0) (fun node _ => if node = 0 then a else b)
      (.ref 0 C.lwidth C.sign [])) (valueOf (fun _ _ _ _ => 0) (fun node _ => if node = 0 then a else b)
      (.ref 1 C.rwidth C.sign [])) from hab)
    rw [valueOf_conjunction hl hc1, hbuild] at heq
    exact (truth_inj heq).symm
  · intro h other ρ l r hl hab root hroot
    obtain ⟨c1, hc1, hroot'⟩ := rewriteRoot_build hC hl
    obtain rfl := Option.some.inj (hroot.symm.trans hroot')
    rw [valueOf_conjunction hl hc1, valueOf_build hC hl hab]
    exact truth_congr (h _ _ hab).symm

end Comparison

/-! ## 4. Bits of an `or` -/

/-- The two parts of an `or` are determined where no bit is set that both could have. -/
theorem or_unique {a a' b b' n p q c : Nat} (ha : a < 2 ^ p) (ha' : a' < 2 ^ p) (hb : b < 2 ^ q)
    (hb' : b' < 2 ^ q) (h : a * 2 ^ n ||| b = c) (h' : a' * 2 ^ n ||| b' = c)
    (hover : c % 2 ^ min q (n + p) < 2 ^ n) : a = a' ∧ b = b' := by
  have hbit : ∀ i, ((n ≤ i ∧ a.testBit (i - n)) ∨ b.testBit i) ↔ c.testBit i := by
    intro i
    rw [← h, Nat.testBit_or, Nat.testBit_mul_two_pow]
    simp
  have hbit' : ∀ i, ((n ≤ i ∧ a'.testBit (i - n)) ∨ b'.testBit i) ↔ c.testBit i := by
    intro i
    rw [← h', Nat.testBit_or, Nat.testBit_mul_two_pow]
    simp
  have hzero : ∀ i, n ≤ i → i < q → i < n + p → ¬ c.testBit i := by
    intro i hi hq hp hset
    have hlow : (c % 2 ^ min q (n + p)).testBit i := by
      rw [Nat.testBit_mod_two_pow]
      simp [hq, hp, hset]
    have hle : 2 ^ i ≤ c % 2 ^ min q (n + p) := Nat.ge_two_pow_of_testBit hlow
    have hmono : 2 ^ n ≤ 2 ^ i := Nat.pow_le_pow_right (by decide) hi
    omega
  have hout : ∀ {x k : Nat}, x < 2 ^ k → ∀ i, k ≤ i → ¬ x.testBit i := by
    intro x k hx i hi
    rw [Nat.testBit_lt_two_pow (lt_of_lt_of_le hx (Nat.pow_le_pow_right (by decide) hi))]
    exact Bool.false_ne_true
  constructor
  · apply Nat.eq_of_testBit_eq
    intro j
    apply Bool.eq_iff_iff.mpr
    have hi := hbit (j + n)
    have hi' := hbit' (j + n)
    rw [Nat.add_sub_cancel] at hi hi'
    by_cases hj : p ≤ j
    · exact iff_of_false (hout ha j hj) (hout ha' j hj)
    · by_cases hq : j + n < q
      · have hc := hzero (j + n) (Nat.le_add_left n j) hq (by omega)
        exact iff_of_false (fun x => hc (hi.mp (.inl ⟨Nat.le_add_left n j, x⟩)))
          (fun x => hc (hi'.mp (.inl ⟨Nat.le_add_left n j, x⟩)))
      · have hn := hout hb (j + n) (by omega)
        have hn' := hout hb' (j + n) (by omega)
        have hle : n ≤ j + n := Nat.le_add_left n j
        simp only [hle, true_and, hn, hn', Bool.false_eq_true, or_false] at hi hi'
        exact hi.trans hi'.symm
  · apply Nat.eq_of_testBit_eq
    intro i
    apply Bool.eq_iff_iff.mpr
    have hi := hbit i
    have hi' := hbit' i
    by_cases hn : n ≤ i
    · by_cases hq : q ≤ i
      · exact iff_of_false (hout hb i hq) (hout hb' i hq)
      · by_cases hp : i < n + p
        · have hc := hzero i hn (by omega) hp
          exact iff_of_false (fun x => hc (hi.mp (.inr x))) (fun x => hc (hi'.mp (.inr x)))
        · have ho := hout ha (i - n) (by omega)
          have ho' := hout ha' (i - n) (by omega)
          simp only [ho, ho', Bool.false_eq_true, and_false, false_or] at hi hi'
          exact hi.trans hi'.symm
    · simp only [hn, false_and, false_or] at hi hi'
      exact hi.trans hi'.symm

/-- Where one is set there is a second way to write the number. -/
theorem or_not_unique {a b n p q c : Nat} (ha : a < 2 ^ p) (hb : b < 2 ^ q)
    (h : a * 2 ^ n ||| b = c) (hover : 2 ^ n ≤ c % 2 ^ min q (n + p)) :
    ∃ a' b', a' < 2 ^ p ∧ b' < 2 ^ q ∧ a' ≠ a ∧ a' * 2 ^ n ||| b' = c := by
  obtain ⟨i, hi, hset⟩ := Nat.exists_ge_and_testBit_of_ge_two_pow hover
  rw [Nat.testBit_mod_two_pow] at hset
  obtain ⟨hlt, hset⟩ : i < min q (n + p) ∧ c.testBit i = true := by simpa using hset
  have hbit : (2 ^ (i - n)).testBit (i - n) = true := Nat.testBit_two_pow_self
  refine ⟨a ^^^ 2 ^ (i - n), b ||| 2 ^ i, ?_, ?_, ?_, ?_⟩
  · exact Nat.xor_lt_two_pow ha (Nat.pow_lt_pow_right (by decide) (by omega))
  · exact Nat.or_lt_two_pow hb (Nat.pow_lt_pow_right (by decide) (by omega))
  · intro heq
    have hself := congrArg (Nat.testBit · (i - n)) heq
    simp at hself
  · apply Nat.eq_of_testBit_eq
    intro t
    by_cases ht : i = t
    · subst ht
      simp [hset]
    · have hne : n ≤ t → i - n ≠ t - n := by omega
      rw [← h, Nat.testBit_or, Nat.testBit_or, Nat.testBit_or, Nat.testBit_mul_two_pow,
        Nat.testBit_mul_two_pow, Nat.testBit_xor, Nat.testBit_two_pow, Nat.testBit_two_pow]
      by_cases hn : n ≤ t
      · simp [hn, hne hn, ht]
      · simp [hn, ht]

namespace Comparison

variable {C : Comparison}

/-! ## 5. `cat` -/

/-- Two values of one type that agree in some bits above it are equal. -/
theorem eq_of_emod_eq {sign : Bool} {w W : Nat} {a b : Int} (ha : Fits sign w a)
    (hb : Fits sign w b) (hw : w ≤ W) (h : a % 2 ^ W = b % 2 ^ W) : a = b := by
  have hdvd : (2 : Int) ^ w ∣ a - b := by
    have hW : (2 : Int) ^ W ∣ a - b := Int.ModEq.dvd (Int.ModEq.symm h)
    exact (two_pow_dvd.mpr hw).trans hW
  rw [← wrap_of_fits ha]
  exact (wrap_eq_iff hb).mpr hdvd

theorem joined_cat (hcat : C.cat = true) (a b : Int) :
    C.joined a b = a * 2 ^ C.shift % 2 ^ C.leftWidth * 2 ^ C.rightWidth + b % 2 ^ C.rightWidth :=
  if_pos hcat

theorem constant1_lt (C : Comparison) : C.constant1 < 2 ^ C.lwidth := by
  unfold constant1
  split <;> exact Nat.mod_lt _ (Nat.two_pow_pos _)

theorem constant2_lt (C : Comparison) : C.constant2 < 2 ^ C.rwidth :=
  Nat.mod_lt _ (Nat.two_pow_pos _)

theorem constant2_lt_right (C : Comparison) : C.constant2 < 2 ^ C.rightWidth :=
  lt_of_lt_of_le C.constant2_lt (Nat.pow_le_pow_right (by decide) (le_max_left _ _))

theorem shifted_lt {a : Nat} (h : a < 2 ^ C.lwidth) : a * 2 ^ C.shift < 2 ^ C.leftWidth := by
  rw [leftWidth, pow_add]
  exact Nat.mul_lt_mul_of_pos_right h (Nat.two_pow_pos _)

/-- The two constants, joined. -/
theorem joined_cat_constants (hcat : C.cat = true) :
    C.joined C.constant1 C.constant2 =
      (C.constant1 * 2 ^ (C.shift + C.rightWidth) + C.constant2 : Nat) := by
  have hleft : ((C.constant1 : Int) * 2 ^ C.shift) % 2 ^ C.leftWidth = C.constant1 * 2 ^ C.shift := by
    exact_mod_cast Nat.mod_eq_of_lt (shifted_lt C.constant1_lt)
  have hright : (C.constant2 : Int) % 2 ^ C.rightWidth = C.constant2 := by
    exact_mod_cast Nat.mod_eq_of_lt C.constant2_lt_right
  rw [joined_cat hcat, hleft, hright, pow_add]
  push_cast
  ring

/-- A concatenation determines its operands. -/
theorem joined_cat_inj (hcat : C.cat = true) {a b a' b' : Int} (h : C.InRange a b)
    (h' : C.InRange a' b') (heq : C.joined a b = C.joined a' b') : a = a' ∧ b = b' := by
  rw [joined_cat hcat, joined_cat hcat] at heq
  have hpos := two_pow_pos C.rightWidth
  have hlow := emod_range b C.rightWidth
  have hlow' := emod_range b' C.rightWidth
  have hb : b % 2 ^ C.rightWidth = b' % 2 ^ C.rightWidth := by
    have hmod := congrArg (· % (2 : Int) ^ C.rightWidth) heq
    simpa [Int.add_emod] using hmod
  rw [hb, add_left_inj] at heq
  have ha := Int.eq_of_mul_eq_mul_right hpos.ne' heq
  refine ⟨?_, eq_of_emod_eq h.2 h'.2 (le_max_left _ _) hb⟩
  -- both shifted operands are values of the wider type
  have hshift := eq_of_emod_eq (W := C.leftWidth) (fits_mul_two_pow h.1 (le_refl C.shift))
    (fits_mul_two_pow h'.1 (le_refl C.shift)) (le_refl _) ha
  exact Int.eq_of_mul_eq_mul_right (two_pow_pos C.shift).ne' hshift

/-! ## 6. `or` -/

theorem fits_natCast {w n : Nat} : Fits C.sign w n ↔ n < 2 ^ C.magnitude w := by
  unfold magnitude
  cases C.sign with
  | false =>
    rw [fits_unsigned, if_neg Bool.false_ne_true]
    constructor
    · intro h
      exact_mod_cast h.2
    · intro h
      exact ⟨Int.natCast_nonneg n, by exact_mod_cast h⟩
  | true =>
    rw [fits_signed, if_pos rfl]
    have hpos := two_pow_pos w
    have hcast : (((2 : Nat) ^ w : Nat) : Int) = 2 ^ w := by push_cast; rfl
    cases w with
    | zero =>
      simp only [pow_zero] at hpos ⊢
      omega
    | succ w =>
      rw [Nat.add_sub_cancel]
      rw [pow_succ] at hcast hpos ⊢
      have hhalf : (((2 : Nat) ^ w : Nat) : Int) = 2 ^ w := by push_cast; rfl
      omega

theorem magnitude_le (w : Nat) : C.magnitude w ≤ w := by
  unfold magnitude
  split
  · exact Nat.sub_le w 1
  · exact le_refl w

theorem joined_or (hor : C.cat = false) (a b : Int) :
    C.joined a b = Int.lor (a * 2 ^ C.shift % 2 ^ C.width) (b % 2 ^ C.width) := by
  rw [joined, hor]
  rfl

theorem width_or (hor : C.cat = false) : C.leftWidth ≤ C.width ∧ C.rwidth ≤ C.width := by
  rw [width, hor]
  exact ⟨le_max_left _ _, (le_max_left _ _).trans (le_max_right _ _)⟩

theorem shifted_lt_width (hor : C.cat = false) {a : Nat} (ha : a < 2 ^ C.magnitude C.lwidth) :
    a * 2 ^ C.shift < 2 ^ C.width := by
  have hlt : a < 2 ^ C.lwidth :=
    lt_of_lt_of_le ha (Nat.pow_le_pow_right (by decide) (magnitude_le _))
  exact lt_of_lt_of_le (shifted_lt hlt) (Nat.pow_le_pow_right (by decide) (width_or hor).1)

theorem right_lt_width (hor : C.cat = false) {b : Nat} (hb : b < 2 ^ C.magnitude C.rwidth) :
    b < 2 ^ C.width :=
  lt_of_lt_of_le hb
    (Nat.pow_le_pow_right (by decide) ((magnitude_le _).trans (width_or hor).2))

/-- Operands that are not negative. -/
theorem joined_or_nat (hor : C.cat = false) {a b : Nat} (ha : a < 2 ^ C.magnitude C.lwidth)
    (hb : b < 2 ^ C.magnitude C.rwidth) :
    C.joined a b = (a * 2 ^ C.shift ||| b : Nat) := by
  have hleft : ((a : Int) * 2 ^ C.shift) % 2 ^ C.width = (a * 2 ^ C.shift : Nat) := by
    exact_mod_cast Nat.mod_eq_of_lt (shifted_lt_width hor ha)
  have hright : (b : Int) % 2 ^ C.width = b := by
    exact_mod_cast Nat.mod_eq_of_lt (right_lt_width hor hb)
  rw [joined_or hor, hleft, hright]
  rfl

theorem le_lor {a b : Int} (ha : 0 ≤ a) (hb : 0 ≤ b) : a ≤ Int.lor a b ∧ b ≤ Int.lor a b := by
  obtain ⟨m, rfl⟩ := Int.eq_ofNat_of_zero_le ha
  obtain ⟨n, rfl⟩ := Int.eq_ofNat_of_zero_le hb
  show (m : Int) ≤ ((m ||| n : Nat) : Int) ∧ (n : Int) ≤ ((m ||| n : Nat) : Int)
  exact ⟨by exact_mod_cast Nat.left_le_or, by exact_mod_cast Nat.right_le_or⟩

/-- A negative operand sets the top bit. -/
theorem top_of_neg {w W : Nat} {v : Int} (hv : Fits C.sign w v) (hw : w ≤ W) (hneg : v < 0) :
    2 ^ W ≤ 2 * (v % 2 ^ W) := by
  have hfits := hv.mono hw
  cases hsign : C.sign with
  | false =>
    rw [hsign, fits_unsigned] at hv
    omega
  | true =>
    rw [hsign, fits_signed] at hfits
    have hrange := emod_range v W
    obtain ⟨k, hk⟩ : (2 : Int) ^ W ∣ v - v % 2 ^ W := Int.dvd_self_sub_emod
    have hpos := two_pow_pos W
    have hk : v % 2 ^ W = v - 2 ^ W * k := by omega
    have hneg' : k ≤ -1 := by nlinarith
    nlinarith

/-- The magnitude of a signed word leaves its top bit clear. -/
theorem mul_lt_half (hsign : C.sign = true) {w k W m : Nat} (hm : m < 2 ^ C.magnitude w)
    (hW : w + k ≤ W + 1) : m * 2 ^ k < 2 ^ W := by
  unfold magnitude at hm
  rw [if_pos hsign] at hm
  cases w with
  | zero =>
    have hzero : m = 0 := by simpa using hm
    rw [hzero, Nat.zero_mul]
    exact Nat.two_pow_pos W
  | succ w =>
    rw [Nat.add_sub_cancel] at hm
    have hlt : m * 2 ^ k < 2 ^ w * 2 ^ k := Nat.mul_lt_mul_of_pos_right hm (Nat.two_pow_pos k)
    rw [← pow_add] at hlt
    exact lt_of_lt_of_le hlt (Nat.pow_le_pow_right (by decide) (by omega))

/-- Two constants that fit leave the top bit clear, so neither operand is negative. -/
theorem nonneg_of_joined (hor : C.cat = false) {a b : Int} {m n : Nat} (hab : C.InRange a b)
    (hm : m < 2 ^ C.magnitude C.lwidth) (hn : n < 2 ^ C.magnitude C.rwidth)
    (h : C.joined a b = (m * 2 ^ C.shift ||| n : Nat)) : 0 ≤ a ∧ 0 ≤ b := by
  have hleft := (width_or hor).1
  have hright := (width_or hor).2
  rw [leftWidth] at hleft
  rw [joined_or hor] at h
  have hle := le_lor (emod_range (a * 2 ^ C.shift) C.width).1 (emod_range b C.width).1
  rw [h] at hle
  have hclear : ∀ x : Int, x ≤ (m * 2 ^ C.shift ||| n : Nat) → 2 ^ C.width ≤ 2 * x →
      C.sign = true → False := by
    intro x hx htop hsign
    cases hW : C.width with
    | zero =>
      have hzero : m * 2 ^ C.shift ||| n < 2 ^ 0 := by
        have hl := shifted_lt_width hor hm
        have hr := right_lt_width hor hn
        rw [hW] at hl hr
        exact Nat.or_lt_two_pow hl hr
      rw [hW] at htop
      omega
    | succ W =>
      rw [hW] at hleft hright htop
      have hr := mul_lt_half (k := 0) hsign hn hright
      rw [pow_zero, Nat.mul_one] at hr
      have hlt : m * 2 ^ C.shift ||| n < 2 ^ W := Nat.or_lt_two_pow (mul_lt_half hsign hm hleft) hr
      have hcast : ((m * 2 ^ C.shift ||| n : Nat) : Int) < 2 ^ W := by exact_mod_cast hlt
      rw [pow_succ] at htop
      omega
  have hsigned : ∀ {w : Nat} {v : Int}, Fits C.sign w v → v < 0 → C.sign = true := by
    intro w v hv hneg
    by_contra hsign
    rw [Bool.not_eq_true] at hsign
    rw [hsign, fits_unsigned] at hv
    omega
  constructor
  · by_contra hneg
    have hneg : a < 0 := by omega
    have hshifted : a * 2 ^ C.shift < 0 := mul_neg_of_neg_of_pos hneg (two_pow_pos _)
    exact hclear _ hle.1 (top_of_neg (fits_mul_two_pow hab.1 (le_refl C.shift)) hleft hshifted)
      (hsigned hab.1 hneg)
  · by_contra hneg
    have hneg : b < 0 := by omega
    exact hclear _ hle.2 (top_of_neg hab.2 hright hneg) (hsigned hab.2 hneg)

/-! ## 7. When the pass is right -/

theorem rejoins_cat (hcat : C.cat = true) (hfit : C.InRange C.constant1 C.constant2) :
    (∀ a b, C.InRange a b → (C.joined a b = C.constant ↔ a = C.constant1 ∧ b = C.constant2)) ↔
      C.Rejoins := by
  rw [Rejoins, if_pos hcat]
  constructor
  · intro h
    have heq := (h _ _ hfit).mpr ⟨rfl, rfl⟩
    rw [joined_cat_constants hcat] at heq
    exact_mod_cast heq
  · intro h a b hab
    have heq : C.joined C.constant1 C.constant2 = C.constant := by
      rw [joined_cat_constants hcat, h]
    constructor
    · intro hjoined
      exact joined_cat_inj hcat hab hfit (hjoined.trans heq.symm)
    · rintro ⟨rfl, rfl⟩
      exact heq

theorem rejoins_or (hor : C.cat = false) (hfit : C.InRange C.constant1 C.constant2) :
    (∀ a b, C.InRange a b → (C.joined a b = C.constant ↔ a = C.constant1 ∧ b = C.constant2)) ↔
      C.Rejoins := by
  have hm := fits_natCast.mp hfit.1
  have hn := fits_natCast.mp hfit.2
  have hconst := joined_or_nat hor hm hn
  rw [Rejoins, hor, if_neg Bool.false_ne_true]
  constructor
  · intro h
    have heq : C.constant1 * 2 ^ C.shift ||| C.constant2 = C.constant := by
      have hjoined := (h _ _ hfit).mpr ⟨rfl, rfl⟩
      rw [hconst] at hjoined
      exact_mod_cast hjoined
    refine ⟨heq, ?_⟩
    by_contra hover
    obtain ⟨a, b, ha, hb, hne, hab⟩ := or_not_unique hm hn heq (not_lt.mp hover)
    have hjoined : C.joined a b = C.constant := by rw [joined_or_nat hor ha hb, hab]
    have hsame := (h a b ⟨fits_natCast.mpr ha, fits_natCast.mpr hb⟩).mp hjoined
    exact hne (by exact_mod_cast hsame.1)
  · rintro ⟨heq, hover⟩ a b hab
    constructor
    · intro hjoined
      rw [← heq] at hjoined
      obtain ⟨ha, hb⟩ := nonneg_of_joined hor hab hm hn hjoined
      obtain ⟨m, rfl⟩ := Int.eq_ofNat_of_zero_le ha
      obtain ⟨n, rfl⟩ := Int.eq_ofNat_of_zero_le hb
      have hm' := fits_natCast.mp hab.1
      have hn' := fits_natCast.mp hab.2
      have hor' : m * 2 ^ C.shift ||| n = C.constant := by
        have hnat := (joined_or_nat hor hm' hn').symm.trans hjoined
        rw [heq] at hnat
        exact_mod_cast hnat
      obtain ⟨h1, h2⟩ := or_unique hm' hm hn' hn hor' heq hover
      exact ⟨by rw [h1], by rw [h2]⟩
    · rintro ⟨rfl, rfl⟩
      rw [hconst, heq]

/-- **Exactly when the conjunction has the value of the comparison.** -/
theorem preserved_iff (hC : C.Formed) : C.Preserved ↔ C.Sound := by
  rw [preserved_iff_exact hC, Sound]
  by_cases hfit : C.InRange C.constant1 C.constant2
  · rw [if_pos hfit]
    cases hcat : C.cat with
    | true => exact rejoins_cat hcat hfit
    | false => exact rejoins_or hcat hfit
  · rw [if_neg hfit]
    constructor
    · intro h a b hab hjoined
      obtain ⟨rfl, rfl⟩ := (h a b hab).mp hjoined
      exact hfit hab
    · intro h a b hab
      refine iff_of_false (h a b hab) ?_
      rintro ⟨rfl, rfl⟩
      exact hfit hab

/-- Unsigned constants always fit. -/
theorem inRange_unsigned (hsign : C.sign = false) : C.InRange C.constant1 C.constant2 := by
  have hmag : ∀ w, C.magnitude w = w := by
    intro w
    rw [magnitude, if_neg (by rw [hsign]; exact Bool.false_ne_true)]
  constructor
  · rw [fits_natCast, hmag]
    exact C.constant1_lt
  · rw [fits_natCast, hmag]
    exact C.constant2_lt

/-- A plain `cat` of unsigned operands survives only constants that leave the left one zero. -/
theorem sound_plain_cat (hcat : C.cat = true) (hsign : C.sign = false) (hshl : C.shl = none)
    (hpad : C.pad = none) : C.Sound ↔ C.constant < 2 ^ C.rwidth := by
  have hshift : C.shift = 0 := by simp [shift, hshl]
  have hright : C.rightWidth = C.rwidth := by simp [rightWidth, hpad]
  rw [Sound, if_pos (inRange_unsigned hsign), Rejoins, if_pos hcat, hshift, hright, Nat.zero_add]
  have hsplit := Nat.div_add_mod C.constant (2 ^ C.rwidth)
  have hpos := Nat.two_pow_pos C.rwidth
  have hhalf : C.constant1 ≤ C.constant / 2 ^ C.rwidth / 2 := by
    rw [constant1, if_pos hcat, pow_succ, ← Nat.div_div_eq_div_mul]
    exact Nat.mod_le _ _
  rw [constant2, Nat.mul_comm]
  constructor
  · intro h
    have hcut : 2 ^ C.rwidth * C.constant1 = 2 ^ C.rwidth * (C.constant / 2 ^ C.rwidth) := by omega
    have heq := Nat.eq_of_mul_eq_mul_left hpos hcut
    have hzero : C.constant / 2 ^ C.rwidth = 0 := by omega
    exact (Nat.div_eq_zero_iff_lt hpos).mp hzero
  · intro h
    have hzero : C.constant / 2 ^ C.rwidth = 0 := Nat.div_eq_of_lt h
    have hone : C.constant1 = 0 := by omega
    rw [hone, Nat.mul_zero, Nat.zero_add]
    exact Nat.mod_eq_of_lt h

end Comparison

/-! ## 8. The nodes that match -/

def IntWidth (e : ENode Op) : Prop := 0 ≤ e.width ∧ e.width < 2 ^ 31

/-- The type that `inferWidth` gives the nodes of a comparison.  `usedBits` leaves it alone: the
    operands of a comparison are used in full. -/
def Inferred : ENode Op → Prop
  | .op .OP_EQ width sign [a, b] => width = 1 ∧ sign = false ∧ ENodeSign a = ENodeSign b
  | .op .OP_CAT width sign [a, b] =>
    width = a.width + b.width ∧ sign = false ∧ ENodeSign a = ENodeSign b
  | .op .OP_OR width sign [a, b] =>
    width = max a.width b.width ∧ sign = false ∧ ENodeSign a = ENodeSign b
  | .op (.OP_SHL n) width sign children =>
    ∃ a, children = [a] ∧ IntWidth a ∧ width = a.width + n ∧ sign = ENodeSign a
  | .op (.OP_PAD n) width sign children =>
    ∃ a, children = [a] ∧ IntWidth a ∧ width = max a.width n ∧ sign = ENodeSign a
  | .op (.OP_INT strVal) width sign children => children = [] ∧ Fits sign width.toNat strVal
  | _ => True

/-- The root, its children and theirs are typed. -/
structure TypedComparison (root : ENode Op) : Prop where
  self : Inferred root ∧ IntWidth root
  child : ∀ e ∈ root.child, Inferred e ∧ IntWidth e
  grandchild : ∀ e ∈ root.child, ∀ e' ∈ e.child, Inferred e' ∧ IntWidth e'

/-- The left child `c0` is the operand `l`, shifted or not. -/
structure LeftOf (c0 : ENode Op) (shl : Option Nat) (l : ENode Op) (lwidth : Nat) : Prop where
  width : l.width = lwidth
  sign : ENodeSign l = ENodeSign c0
  bare : shl = none → stripShl l = l
  outer : c0.width = (lwidth + shl.getD 0 : Nat)
  shifted : ∀ n w s ch, c0 = .op (.OP_SHL n) w s ch → shl ≠ none
  eq : c0 = match shl with
    | none => l
    | some n => .op (.OP_SHL n) (lwidth + n : Nat) (ENodeSign c0) [l]

/-- The right child `c1` is the operand `r`, padded or not. -/
structure RightOf (c1 : ENode Op) (pad : Option Nat) (r : ENode Op) (rwidth : Nat) : Prop where
  width : r.width = rwidth
  sign : ENodeSign r = ENodeSign c1
  bare : pad = none → stripPad r = r
  outer : c1.width = (max rwidth (pad.getD 0) : Nat)
  eq : c1 = match pad with
    | none => r
    | some n => .op (.OP_PAD n) (max rwidth n : Nat) (ENodeSign c1) [r]

theorem exists_left {c0 : ENode Op} (h : Inferred c0) (hw : IntWidth c0) :
    ∃ shl l lwidth, LeftOf c0 shl l lwidth := by
  have hbare : stripShl c0 = c0 → (∀ n w s ch, c0 ≠ .op (.OP_SHL n) w s ch) →
      ∃ shl l lwidth, LeftOf c0 shl l lwidth := by
    intro hstrip hno
    have hcast : (c0.width.toNat : Int) = c0.width := Int.toNat_of_nonneg hw.1
    exact ⟨none, c0, c0.width.toNat, hcast.symm, rfl, fun _ => hstrip, hcast.symm,
      fun n w s ch heq => absurd heq (hno n w s ch), rfl⟩
  cases c0 with
  | null | ref => exact hbare rfl (fun _ _ _ _ => nofun)
  | op o width sign children =>
    cases o with
    | OP_SHL n =>
      obtain ⟨a, rfl, ha, rfl, rfl⟩ := h
      have hcast : (a.width.toNat : Int) = a.width := Int.toNat_of_nonneg ha.1
      have hwidth : a.width + n = ((a.width.toNat + n : Nat) : Int) := by push_cast; rw [hcast]
      refine ⟨some n, a, a.width.toNat, hcast.symm, rfl, nofun, hwidth, fun _ _ _ _ _ => nofun, ?_⟩
      simp only [← hwidth]
      rfl
    | _ => exact hbare rfl (fun _ _ _ _ => nofun)

theorem exists_right {c1 : ENode Op} (h : Inferred c1) (hw : IntWidth c1) :
    ∃ pad r rwidth, RightOf c1 pad r rwidth := by
  have hbare : stripPad c1 = c1 → ∃ pad r rwidth, RightOf c1 pad r rwidth := by
    intro hstrip
    have hcast : (c1.width.toNat : Int) = c1.width := Int.toNat_of_nonneg hw.1
    have hmax : max c1.width.toNat ((none : Option Nat).getD 0) = c1.width.toNat := Nat.max_zero _
    exact ⟨none, c1, c1.width.toNat, hcast.symm, rfl, fun _ => hstrip, by rw [hmax, hcast], rfl⟩
  cases c1 with
  | null | ref => exact hbare rfl
  | op o width sign children =>
    cases o with
    | OP_PAD n =>
      obtain ⟨a, rfl, ha, rfl, rfl⟩ := h
      have hcast : (a.width.toNat : Int) = a.width := Int.toNat_of_nonneg ha.1
      have hwidth : max a.width n = ((max a.width.toNat n : Nat) : Int) := by push_cast; rw [hcast]
      refine ⟨some n, a, a.width.toNat, hcast.symm, rfl, nofun, hwidth, ?_⟩
      simp only [← hwidth]
      rfl
    | _ => exact hbare rfl

/-- What the pass rewrites is a comparison of some shape. -/
theorem exists_comparison {e root : ENode Op} (typed : TypedComparison e)
    (h : rewriteRoot e = some root) :
    ∃ (C : Comparison) (l r : ENode Op), C.Formed ∧ C.Operands l r ∧ e = C.build l r := by
  unfold rewriteRoot at h
  split at h
  · next width sign catOp cw cs c0 c1 constant iw is ch =>
    have hcatmem : ENode.op catOp cw cs [c0, c1] ∈
        (ENode.op Op.OP_EQ width sign [.op catOp cw cs [c0, c1], .op (.OP_INT constant) iw is ch]).child :=
      List.mem_cons_self
    have hcat := typed.child _ hcatmem
    have hint := typed.child _ (List.mem_cons_of_mem _ List.mem_cons_self)
    have h0 := typed.grandchild _ hcatmem c0 List.mem_cons_self
    have h1 := typed.grandchild _ hcatmem c1 (List.mem_cons_of_mem _ List.mem_cons_self)
    obtain ⟨rfl, rfl, hsigns⟩ := typed.self.1
    obtain ⟨shl, l, lwidth, hl⟩ := exists_left h0.1 h0.2
    obtain ⟨pad, r, rwidth, hr⟩ := exists_right h1.1 h1.2
    have hop : catOp = .OP_CAT ∨ catOp = .OP_OR ∧ shl ≠ none := by
      dsimp only at h
      split at h
      · exact .inl rfl
      · split at h
        · exact .inr ⟨rfl, hl.shifted _ _ _ _ rfl⟩
        · cases h
      · cases h
    -- the constant is unsigned because the concatenation is
    obtain ⟨rfl, hfits⟩ := hint.1
    have htype : cw = (if catOp = .OP_CAT then c0.width + c1.width else max c0.width c1.width) ∧
        cs = false ∧ ENodeSign c0 = ENodeSign c1 := by
      rcases hop with rfl | ⟨rfl, -⟩
      · exact hcat.1
      · exact hcat.1
    obtain ⟨hcw, rfl, hs⟩ := htype
    obtain rfl : false = is := hsigns
    rw [fits_unsigned] at hfits
    obtain ⟨c, rfl⟩ := Int.eq_ofNat_of_zero_le hfits.1
    have hiw : (iw.toNat : Int) = iw := Int.toNat_of_nonneg hint.2.1
    let C : Comparison := ⟨decide (catOp = .OP_CAT), ENodeSign c0, lwidth, rwidth, shl, pad, c, iw.toNat⟩
    have hwidth : cw = C.width := by
      rw [hcw, hl.outer, hr.outer]
      rcases hop with rfl | ⟨rfl, -⟩
      · exact (Nat.cast_add _ _).symm
      · exact (Nat.cast_max _ _).symm
    have hop' : (if C.cat then Op.OP_CAT else Op.OP_OR) = catOp := by
      rcases hop with rfl | ⟨rfl, -⟩ <;> rfl
    have hleft : C.left l = c0 := by
      rw [hl.eq]
      cases shl with
      | none => rfl
      | some n => rfl
    have hright : C.right r = c1 := by
      rw [hr.eq, ← hs]
      cases pad with
      | none => rfl
      | some n => rfl
    refine ⟨C, l, r, ⟨?_, ?_, ?_⟩, ⟨hl.width, hr.width, hl.sign, hr.sign.trans hs.symm, hl.bare,
      hr.bare⟩, ?_⟩
    · intro hcatFalse
      rcases hop with rfl | ⟨-, hshl⟩
      · cases hcatFalse
      · exact hshl
    · exact_mod_cast hfits.2
    · have hlt := hcat.2.2
      change cw < 2 ^ 31 at hlt
      rw [hwidth] at hlt
      exact_mod_cast hlt
    · rw [Comparison.build, hop', hleft, hright, ← hwidth]
      show _ = ENode.op Op.OP_EQ 1 false
        [.op catOp cw false [c0, c1], .op (.OP_INT c) (iw.toNat : Int) false []]
      rw [hiw]
  · cases h

/-- **When a rewritten node keeps its value.**  Every node that `checkPattern2` rewrites is a
    comparison of some shape, and for the operands of that shape the conjunction has the value of
    the comparison exactly when the constant is `Sound`. -/
theorem checkPattern2_preserves_iff {node node' : Member}
    (typed : ∀ tree ∈ node.assignTree, TypedComparison tree.root)
    (hit : checkPattern2 node = some node') :
    ∃ (C : Comparison) (tree : ETree Op) (l r root : ENode Op),
      C.Formed ∧ C.Operands l r ∧ node.assignTree = [tree] ∧ tree.root = C.build l r ∧
      rewriteRoot (C.build l r) = some root ∧
      node' = { node with assignTree := [{ tree with root := root }] } ∧
      (C.Preserved ↔ C.Sound) := by
  unfold checkPattern2 at hit
  split at hit
  · cases hit
  · split at hit
    · next tree htree =>
      obtain ⟨root, hroot, rfl⟩ := Option.map_eq_some_iff.mp hit
      have ht : TypedComparison tree.root := typed tree (by rw [htree]; exact List.mem_cons_self)
      obtain ⟨C, l, r, hC, hl, heq⟩ := exists_comparison ht hroot
      rw [heq] at hroot
      exact ⟨C, tree, l, r, root, hC, hl, htree, heq, hroot, rfl, C.preserved_iff hC⟩
    · cases hit

/-- `cat(x, y) == 4` over two words of two bits. -/
def splitCompare : Member where
  isArray := false
  type := .others
  width := 1
  sign := false
  assignTree := [⟨.op .OP_EQ 1 false
    [.op .OP_CAT 4 false [.ref 0 2 false [], .ref 1 2 false []], .op (.OP_INT 4) 3 false []],
    some (.ref 2 1 false [])⟩]
  resetTree := none
  next := []
  status := .VALID_NODE

theorem splitCompare_described :
    ∃ (node' : Member) (C : Comparison) (tree : ETree Op) (l r root : ENode Op),
      C.Formed ∧ C.Operands l r ∧ splitCompare.assignTree = [tree] ∧ tree.root = C.build l r ∧
      rewriteRoot (C.build l r) = some root ∧
      node' = { splitCompare with assignTree := [{ tree with root := root }] } ∧
      (C.Preserved ↔ C.Sound) := by
  have typed : ∀ tree ∈ splitCompare.assignTree, TypedComparison tree.root := by
    intro tree htree
    obtain rfl := List.mem_singleton.mp htree
    refine ⟨⟨⟨rfl, rfl, rfl⟩, by decide, by decide⟩, ?_, ?_⟩
    · rintro e (_ | ⟨_, _ | ⟨_, he⟩⟩)
      · exact ⟨⟨rfl, rfl, rfl⟩, by decide, by decide⟩
      · exact ⟨⟨rfl, by decide⟩, by decide, by decide⟩
      · cases he
    · rintro e (_ | ⟨_, _ | ⟨_, he⟩⟩) e' he'
      · rcases he' with _ | ⟨_, _ | ⟨_, he'⟩⟩
        · exact ⟨trivial, by decide, by decide⟩
        · exact ⟨trivial, by decide, by decide⟩
        · cases he'
      · cases he'
      · cases he
  exact ⟨_, checkPattern2_preserves_iff typed rfl⟩

/-- With `x = 1` and `y = 0` the comparison holds; what it becomes asks for `x == 0`. -/
theorem splitCompare_lost :
    ∃ (tree : ETree Op) (root : ENode Op) (ρ : Nat → List Int → Int),
      splitCompare.assignTree = [tree] ∧
      checkPattern2 splitCompare =
        some { splitCompare with assignTree := [{ tree with root := root }] } ∧
      Fits false 2 (ρ 0 []) ∧ Fits false 2 (ρ 1 []) ∧
      valueOf (fun _ _ _ _ => 0) ρ tree.root = 1 ∧ valueOf (fun _ _ _ _ => 0) ρ root = 0 :=
  ⟨_, _, fun node _ => if node = 0 then 1 else 0, rfl, rfl, by decide, by decide, by decide, by decide⟩

end Gsim.PatternDetect
