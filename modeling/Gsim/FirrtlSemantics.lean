/-
  Gsim/FirrtlSemantics.lean
  =========================
  **What the primitive operators of FIRRTL mean.**

  This is the specification the constant folder is measured against; none of it
  is read off `constantNode.cpp`.  An operand is a `Word`: a width, a sign and a
  value of that range.  Arithmetic acts on values, everything named after bits
  (`cat`, `not`, the reductions, `head`, `tail`, `bits`) on the bit pattern of
  the value at the operand's width (`Word.pattern`).  A quotient or remainder by
  zero is left open by FIRRTL, so `firrtl` is partial there and nowhere else.

  `bits_noshift` is gsim's own: the extracted bits, left in place.

  `firrtl_fits` says that the type rules of `inferWidth` are wide enough: the
  value of every admissible application fits the inferred width and sign.
-/
import Gsim.ConstantNode

namespace Gsim.FirrtlSemantics

open Gsim.TwosComplement Gsim.ConstantNode

/-- A typed value. -/
structure Word where
  width : Nat
  sign : Bool
  value : Int
deriving DecidableEq, Repr

def Word.type (a : Word) : Nat × Bool := (a.width, a.sign)

/-- The value lies in the range of its type. -/
def Word.WellTyped (a : Word) : Prop := Fits a.sign a.width a.value

/-- The bits of the value, read as an unsigned number. -/
def Word.pattern (a : Word) : Int := a.value % 2 ^ a.width

def truth (p : Prop) [Decidable p] : Int := if p then 1 else 0

/-! ## The operators -/

def OpExpr2.firrtl (op : OpExpr2) (a b : Word) : Option Int :=
  let width := max a.width b.width
  match op with
  | .OP_ADD => some (a.value + b.value)
  | .OP_SUB => some (wrap a.sign (width + 1) (a.value - b.value))
  | .OP_MUL => some (a.value * b.value)
  | .OP_DIV => if b.value = 0 then none else some (Int.tdiv a.value b.value)
  | .OP_REM => if b.value = 0 then none else some (Int.tmod a.value b.value)
  | .OP_LT => some (truth (a.value < b.value))
  | .OP_LEQ => some (truth (a.value ≤ b.value))
  | .OP_GT => some (truth (b.value < a.value))
  | .OP_GEQ => some (truth (b.value ≤ a.value))
  | .OP_EQ => some (truth (a.value = b.value))
  | .OP_NEQ => some (truth (a.value ≠ b.value))
  | .OP_DSHL => some (a.value * 2 ^ b.value.toNat)
  | .OP_DSHR => some (a.value / 2 ^ b.value.toNat)
  -- the narrower operand is extended to the result's width by its own sign
  | .OP_AND => some (Int.land (a.value % 2 ^ width) (b.value % 2 ^ width))
  | .OP_OR => some (Int.lor (a.value % 2 ^ width) (b.value % 2 ^ width))
  | .OP_XOR => some (Int.xor (a.value % 2 ^ width) (b.value % 2 ^ width))
  | .OP_CAT => some (a.pattern * 2 ^ b.width + b.pattern)

def OpExpr1.firrtl (op : OpExpr1) (a : Word) : Int :=
  match op with
  | .OP_ASUINT => a.pattern
  | .OP_ASSINT => wrap true a.width a.value
  | .OP_ASCLOCK | .OP_ASASYNCRESET => a.pattern
  | .OP_CVT => a.value
  | .OP_NEG => -a.value
  | .OP_NOT => 2 ^ a.width - 1 - a.pattern
  | .OP_ANDR => truth (a.pattern = 2 ^ a.width - 1)
  | .OP_ORR => truth (a.pattern ≠ 0)
  | .OP_XORR => (ones a.width a.value % 2 : Nat)

def OpExpr1Int1.firrtl (op : OpExpr1Int1) (a : Word) (n : Nat) : Int :=
  match op with
  | .OP_PAD => a.value
  | .OP_SHL => a.value * 2 ^ n
  | .OP_SHR => wrap a.sign (a.width - n) (a.value / 2 ^ n)
  | .OP_HEAD => a.pattern / 2 ^ (a.width - n)
  | .OP_TAIL => a.pattern % 2 ^ (a.width - n)

def OpExpr1Int2.firrtl (op : OpExpr1Int2) (a : Word) (hi lo : Nat) : Int :=
  match op with
  | .OP_BITS => a.pattern / 2 ^ lo % 2 ^ (hi - lo + 1)
  | .OP_BITS_NOSHIFT => 2 ^ lo * (a.pattern / 2 ^ lo % 2 ^ (hi - lo + 1))

def firrtl : Application Word → Option Int
  | .expr1 op a => some (OpExpr1.firrtl op a)
  | .expr1Int1 op a n => some (OpExpr1Int1.firrtl op a n)
  | .expr1Int2 op a hi lo => some (OpExpr1Int2.firrtl op a hi lo)
  | .expr2 op a b => OpExpr2.firrtl op a b
  | .mux c a b => some (if c.value ≠ 0 then a.value else b.value)

/-- The operand types and integer arguments FIRRTL admits. -/
def Admissible : Application Word → Prop
  | .expr1 .OP_ASCLOCK a | .expr1 .OP_ASASYNCRESET a => a.width = 1
  | .expr1 _ _ => True
  | .expr1Int1 .OP_HEAD a n | .expr1Int1 .OP_TAIL a n => n ≤ a.width
  | .expr1Int1 _ _ _ => True
  | .expr1Int2 _ a hi lo => lo ≤ hi ∧ hi < a.width
  -- `1 << w1` is an `int`
  | .expr2 .OP_DSHL _ b => b.sign = false ∧ b.width < 31
  | .expr2 .OP_DSHR _ b => b.sign = false
  | .expr2 _ a b => a.sign = b.sign
  | .mux c a b => c.sign = false ∧ c.width = 1 ∧ a.sign = b.sign

/-! ## The inferred type holds the value -/

theorem Word.pattern_range (a : Word) : 0 ≤ a.pattern ∧ a.pattern < 2 ^ a.width :=
  emod_range a.value a.width

theorem fits_truth (p : Prop) [Decidable p] : Fits false 1 (truth p) := by
  unfold truth
  split <;> decide

theorem fits_add {sign : Bool} {w : Nat} {a b : Int} (ha : Fits sign w a) (hb : Fits sign w b) :
    Fits sign (w + 1) (a + b) := by
  have double : (2 : Int) ^ (w + 1) = 2 ^ w * 2 := pow_succ 2 w
  cases sign with
  | false =>
    rw [fits_unsigned] at ha hb ⊢
    omega
  | true =>
    rw [fits_signed] at ha hb ⊢
    omega

theorem fits_mul {sign : Bool} {w0 w1 : Nat} {a b : Int} (ha : Fits sign w0 a)
    (hb : Fits sign w1 b) : Fits sign (w0 + w1) (a * b) := by
  have pos0 := two_pow_pos w0
  have pos1 := two_pow_pos w1
  cases sign with
  | false =>
    rw [fits_unsigned] at ha hb ⊢
    rw [pow_add]
    exact ⟨mul_nonneg ha.1 hb.1, mul_lt_mul'' ha.2 hb.2 ha.1 hb.1⟩
  | true =>
    rw [fits_signed] at ha hb ⊢
    rw [pow_add]
    have absA : |2 * a| ≤ 2 ^ w0 := abs_le.mpr ⟨ha.1, ha.2.le⟩
    have absB : |2 * b| ≤ 2 ^ w1 := abs_le.mpr ⟨hb.1, hb.2.le⟩
    have prod : |2 * a * (2 * b)| ≤ 2 ^ w0 * 2 ^ w1 := by
      rw [abs_mul]
      exact mul_le_mul absA absB (abs_nonneg _) pos0.le
    have four : 2 * a * (2 * b) = 4 * (a * b) := by ring
    rw [four, abs_le] at prod
    have pos := mul_pos pos0 pos1
    omega

theorem fits_mul_two_pow {sign : Bool} {w k n : Nat} {a : Int} (ha : Fits sign w a) (h : k ≤ n) :
    Fits sign (w + n) (a * 2 ^ k) := by
  apply Fits.mono (Nat.add_le_add_left h w)
  have pos := two_pow_pos k
  cases sign with
  | false =>
    rw [fits_unsigned] at ha ⊢
    rw [pow_add]
    exact ⟨mul_nonneg ha.1 pos.le, mul_lt_mul_of_pos_right ha.2 pos⟩
  | true =>
    rw [fits_signed] at ha ⊢
    rw [pow_add, ← mul_assoc, ← neg_mul]
    exact ⟨mul_le_mul_of_nonneg_right ha.1 pos.le, mul_lt_mul_of_pos_right ha.2 pos⟩

/-- A number between `0` and a word is a word. -/
theorem fits_between {sign : Bool} {w : Nat} {a q : Int} (ha : Fits sign w a)
    (pos : 0 ≤ a → 0 ≤ q ∧ q ≤ a) (neg : a < 0 → a ≤ q ∧ q ≤ 0) : Fits sign w q := by
  have wide := two_pow_pos w
  rcases le_or_gt 0 a with h | h
  · have := pos h
    cases sign with
    | false =>
      rw [fits_unsigned] at ha ⊢
      omega
    | true =>
      rw [fits_signed] at ha ⊢
      omega
  · have := neg h
    cases sign with
    | false =>
      rw [fits_unsigned] at ha
      omega
    | true =>
      rw [fits_signed] at ha ⊢
      omega

theorem fits_ediv {sign : Bool} {w : Nat} {a : Int} (ha : Fits sign w a) (k : Nat) :
    Fits sign w (a / 2 ^ k) := by
  have pos := two_pow_pos k
  apply fits_between ha
  · intro h
    exact ⟨Int.ediv_nonneg h pos.le, Int.ediv_le_self _ h⟩
  · intro h
    have lower : a ≤ a / 2 ^ k := by
      rw [Int.le_ediv_iff_mul_le pos]
      nlinarith
    exact ⟨lower, (Int.ediv_neg_of_neg_of_pos h pos).le⟩

theorem fits_tdiv {sign : Bool} {w0 w1 : Nat} {a b : Int} (ha : Fits sign w0 a)
    (hb : Fits sign w1 b) : Fits sign (w0 + sign.toNat) (Int.tdiv a b) := by
  have size : (Int.tdiv a b).natAbs ≤ a.natAbs := Int.natAbs_tdiv_le_natAbs a b
  cases sign with
  | false =>
    rw [fits_unsigned] at ha hb
    have nonneg := Int.tdiv_nonneg ha.1 hb.1
    refine fits_unsigned.mpr ⟨nonneg, ?_⟩
    show Int.tdiv a b < 2 ^ w0
    omega
  | true =>
    rw [fits_signed] at ha ⊢
    have double : (2 : Int) ^ (w0 + true.toNat) = 2 ^ w0 * 2 := pow_succ 2 w0
    have pos := two_pow_pos w0
    omega

theorem fits_tmod {sign : Bool} {w0 w1 : Nat} {a b : Int} (ha : Fits sign w0 a)
    (hb : Fits sign w1 b) (ne : b ≠ 0) : Fits sign (min w0 w1) (Int.tmod a b) := by
  have small : (Int.tmod a b).natAbs < b.natAbs := by
    rw [Int.natAbs_tmod]
    exact Nat.mod_lt _ (Int.natAbs_pos.mpr ne)
  have below : (Int.tmod a b).natAbs ≤ a.natAbs := by
    rw [Int.natAbs_tmod]
    exact Nat.mod_le _ _
  -- the remainder has the sign of the dividend
  have pos : 0 ≤ a → 0 ≤ Int.tmod a b := Int.tmod_nonneg b
  have neg : a < 0 → Int.tmod a b ≤ 0 := by
    intro h
    have := Int.tmod_nonneg (a := -a) b (by omega)
    rw [Int.neg_tmod] at this
    omega
  have fit0 : Fits sign w0 (Int.tmod a b) := by
    apply fits_between ha
    · intro h
      have := pos h
      omega
    · intro h
      have := neg h
      omega
  have fit1 : Fits sign w1 (Int.tmod a b) := by
    cases sign with
    | false =>
      rw [fits_unsigned] at ha hb ⊢
      have := pos ha.1
      omega
    | true =>
      rw [fits_signed] at hb ⊢
      omega
  rcases min_choice w0 w1 with h | h
  · rwa [h]
  · rwa [h]

theorem fits_pattern_div (a : Word) {n : Nat} (h : n ≤ a.width) :
    Fits false n (a.pattern / 2 ^ (a.width - n)) := by
  have range := a.pattern_range
  have pos := two_pow_pos (a.width - n)
  refine fits_unsigned.mpr ⟨Int.ediv_nonneg range.1 pos.le, ?_⟩
  rw [Int.ediv_lt_iff_lt_mul pos, ← pow_add, Nat.add_sub_cancel' h]
  exact range.2

theorem fits_cat {w0 w1 : Nat} {a b : Int} (ha : Fits false w0 a) (hb : Fits false w1 b) :
    Fits false (w0 + w1) (a * 2 ^ w1 + b) := by
  rw [fits_unsigned] at ha hb ⊢
  have pos := two_pow_pos w1
  have step : (a + 1) * 2 ^ w1 ≤ 2 ^ w0 * 2 ^ w1 :=
    mul_le_mul_of_nonneg_right (by omega) pos.le
  rw [pow_add]
  refine ⟨add_nonneg (mul_nonneg ha.1 pos.le) hb.1, ?_⟩
  rw [add_mul, one_mul] at step
  omega

theorem fits_bitwise (f : Bool → Bool → Bool) (hf : f false false = false) (w : Nat) (a b : Int) :
    Fits false w (Int.bitwise f (a % 2 ^ w) (b % 2 ^ w)) :=
  fits_unsigned.mpr (bitwise_range f hf w _ _ (emod_range a w) (emod_range b w))

theorem fits_neg {sign : Bool} {w : Nat} {a : Int} (ha : Fits sign w a) :
    Fits true (w + 1) (-a) := by
  have double : (2 : Int) ^ (w + 1) = 2 ^ w * 2 := pow_succ 2 w
  have pos := two_pow_pos w
  rw [fits_signed]
  cases sign with
  | false =>
    rw [fits_unsigned] at ha
    omega
  | true =>
    rw [fits_signed] at ha
    omega

theorem fits_cvt {sign : Bool} {w : Nat} {a : Int} (ha : Fits sign w a) :
    Fits true (w + (!sign).toNat) a := by
  cases sign with
  | false =>
    have double : (2 : Int) ^ (w + 1) = 2 ^ w * 2 := pow_succ 2 w
    rw [fits_unsigned] at ha
    refine fits_signed.mpr ?_
    show -2 ^ (w + 1) ≤ 2 * a ∧ 2 * a < 2 ^ (w + 1)
    omega
  | true => exact ha

theorem expr2_fits (op : OpExpr2) (a b : Word) (ha : a.WellTyped) (hb : b.WellTyped)
    (adm : Admissible (.expr2 op a b)) {width : Nat} {sign : Bool}
    (inferred : op.inferWidth a.width a.sign b.width b.sign = some (width, sign)) {x : Int}
    (hx : OpExpr2.firrtl op a b = some x) : Fits sign width x := by
  obtain ⟨w0, s0, v0⟩ := a
  obtain ⟨w1, s1, v1⟩ := b
  simp only [Word.WellTyped] at ha hb
  cases op with
  | OP_DSHL =>
    obtain ⟨rfl, small⟩ : s1 = false ∧ w1 < 31 := adm
    simp only [OpExpr2.inferWidth, if_true, Option.some.injEq, Prod.mk.injEq] at inferred
    obtain ⟨rfl, rfl⟩ := inferred
    simp only [OpExpr2.firrtl, Option.some.injEq] at hx
    subst hx
    rw [fits_unsigned] at hb
    have shift : v1.toNat ≤ 2 ^ w1 - 1 := by
      have : (v1.toNat : Int) < ((2 ^ w1 : Nat) : Int) := by
        rw [Int.toNat_of_nonneg hb.1]
        exact_mod_cast hb.2
      have := Int.ofNat_lt.mp this
      omega
    rw [Nat.add_sub_assoc (Nat.one_le_two_pow)]
    exact fits_mul_two_pow ha shift
  | OP_DSHR =>
    simp only [OpExpr2.inferWidth, Option.some.injEq, Prod.mk.injEq] at inferred
    obtain ⟨rfl, rfl⟩ := inferred
    simp only [OpExpr2.firrtl, Option.some.injEq] at hx
    subst hx
    exact fits_ediv ha _
  | OP_ADD =>
    obtain rfl : s0 = s1 := adm
    rw [OpExpr2.inferWidth, if_pos rfl, Option.some.injEq, Prod.mk.injEq] at inferred
    obtain ⟨rfl, rfl⟩ := inferred
    cases hx
    exact fits_add (ha.mono (le_max_left _ _)) (hb.mono (le_max_right _ _))
  | OP_SUB =>
    obtain rfl : s0 = s1 := adm
    rw [OpExpr2.inferWidth, if_pos rfl, Option.some.injEq, Prod.mk.injEq] at inferred
    obtain ⟨rfl, rfl⟩ := inferred
    cases hx
    exact fits_wrap _ _ _
  | OP_MUL =>
    obtain rfl : s0 = s1 := adm
    rw [OpExpr2.inferWidth, if_pos rfl, Option.some.injEq, Prod.mk.injEq] at inferred
    obtain ⟨rfl, rfl⟩ := inferred
    cases hx
    exact fits_mul ha hb
  | OP_DIV =>
    obtain rfl : s0 = s1 := adm
    rw [OpExpr2.inferWidth, if_pos rfl, Option.some.injEq, Prod.mk.injEq] at inferred
    obtain ⟨rfl, rfl⟩ := inferred
    by_cases zero : v1 = 0
    · simp [OpExpr2.firrtl, zero] at hx
    · simp only [OpExpr2.firrtl, if_neg zero, Option.some.injEq] at hx
      rw [← hx]
      exact fits_tdiv ha hb
  | OP_REM =>
    obtain rfl : s0 = s1 := adm
    rw [OpExpr2.inferWidth, if_pos rfl, Option.some.injEq, Prod.mk.injEq] at inferred
    obtain ⟨rfl, rfl⟩ := inferred
    by_cases zero : v1 = 0
    · simp [OpExpr2.firrtl, zero] at hx
    · simp only [OpExpr2.firrtl, if_neg zero, Option.some.injEq] at hx
      rw [← hx]
      exact fits_tmod ha hb zero
  | OP_LT | OP_LEQ | OP_GT | OP_GEQ | OP_EQ | OP_NEQ =>
    obtain rfl : s0 = s1 := adm
    rw [OpExpr2.inferWidth, if_pos rfl, Option.some.injEq, Prod.mk.injEq] at inferred
    obtain ⟨rfl, rfl⟩ := inferred
    cases hx
    exact fits_truth _
  | OP_AND =>
    obtain rfl : s0 = s1 := adm
    rw [OpExpr2.inferWidth, if_pos rfl, Option.some.injEq, Prod.mk.injEq] at inferred
    obtain ⟨rfl, rfl⟩ := inferred
    cases hx
    rw [← Int.bitwise_and]
    exact fits_bitwise _ rfl _ _ _
  | OP_OR =>
    obtain rfl : s0 = s1 := adm
    rw [OpExpr2.inferWidth, if_pos rfl, Option.some.injEq, Prod.mk.injEq] at inferred
    obtain ⟨rfl, rfl⟩ := inferred
    cases hx
    rw [← Int.bitwise_or]
    exact fits_bitwise _ rfl _ _ _
  | OP_XOR =>
    obtain rfl : s0 = s1 := adm
    rw [OpExpr2.inferWidth, if_pos rfl, Option.some.injEq, Prod.mk.injEq] at inferred
    obtain ⟨rfl, rfl⟩ := inferred
    cases hx
    rw [← Int.bitwise_xor]
    exact fits_bitwise _ rfl _ _ _
  | OP_CAT =>
    obtain rfl : s0 = s1 := adm
    rw [OpExpr2.inferWidth, if_pos rfl, Option.some.injEq, Prod.mk.injEq] at inferred
    obtain ⟨rfl, rfl⟩ := inferred
    cases hx
    exact fits_cat (fits_unsigned.mpr (emod_range _ _)) (fits_unsigned.mpr (emod_range _ _))

theorem expr1_fits (op : OpExpr1) (a : Word) (ha : a.WellTyped) (adm : Admissible (.expr1 op a)) :
    Fits (op.inferWidth a.width a.sign).2 (op.inferWidth a.width a.sign).1
      (OpExpr1.firrtl op a) := by
  have pattern := fits_unsigned.mpr a.pattern_range
  cases op with
  | OP_ASUINT => exact pattern
  | OP_ASSINT => exact fits_wrap _ _ _
  | OP_ASCLOCK =>
    have one : a.width = 1 := adm
    rwa [one] at pattern
  | OP_ASASYNCRESET =>
    have one : a.width = 1 := adm
    rwa [one] at pattern
  | OP_CVT => exact fits_cvt ha
  | OP_NEG => exact fits_neg ha
  | OP_NOT =>
    rw [fits_unsigned] at pattern
    apply fits_unsigned.mpr
    show 0 ≤ 2 ^ a.width - 1 - a.pattern ∧ 2 ^ a.width - 1 - a.pattern < 2 ^ a.width
    omega
  | OP_ANDR => exact fits_truth _
  | OP_ORR => exact fits_truth _
  | OP_XORR =>
    apply fits_unsigned.mpr
    show (0 : Int) ≤ (ones a.width a.value % 2 : Nat) ∧ ((ones a.width a.value % 2 : Nat) : Int) < 2 ^ 1
    omega

theorem expr1Int1_fits (op : OpExpr1Int1) (a : Word) (n : Nat) (ha : a.WellTyped)
    (adm : Admissible (.expr1Int1 op a n)) :
    Fits (op.inferWidth a.width a.sign n).2 (op.inferWidth a.width a.sign n).1
      (OpExpr1Int1.firrtl op a n) := by
  cases op with
  | OP_PAD => exact ha.mono (le_max_left _ _)
  | OP_SHL => exact fits_mul_two_pow ha (le_refl n)
  | OP_SHR => exact fits_wrap _ _ _
  | OP_HEAD => exact fits_pattern_div a adm
  | OP_TAIL =>
    have le : n ≤ a.width := adm
    simp only [OpExpr1Int1.inferWidth, if_neg (not_lt.mpr le)]
    exact fits_unsigned.mpr (emod_range _ _)

theorem expr1Int2_fits (op : OpExpr1Int2) (a : Word) (hi lo : Nat)
    (adm : Admissible (.expr1Int2 op a hi lo)) :
    Fits (op.inferWidth hi lo).2 (op.inferWidth hi lo).1 (OpExpr1Int2.firrtl op a hi lo) := by
  have field := fits_unsigned.mpr (emod_range (a.pattern / 2 ^ lo) (hi - lo + 1))
  cases op with
  | OP_BITS => exact field
  | OP_BITS_NOSHIFT =>
    have order : lo ≤ hi := adm.1
    have width : hi + 1 = hi - lo + 1 + lo := by omega
    show Fits false (hi + 1) (2 ^ lo * (a.pattern / 2 ^ lo % 2 ^ (hi - lo + 1)))
    rw [width, mul_comm]
    exact fits_mul_two_pow field (le_refl lo)

/-- The value of an admissible application lies in the range of its inferred type. -/
theorem firrtl_fits (a : Application Word) (typed : ∀ w ∈ a.children, w.WellTyped)
    (adm : Admissible a) {width : Nat} {sign : Bool}
    (inferred : (a.map Word.type).inferWidth = some (width, sign)) {x : Int}
    (hx : firrtl a = some x) : Fits sign width x := by
  cases a with
  | expr1 op a =>
    have fits := expr1_fits op a (typed a (by simp [Application.children])) adm
    have type : op.inferWidth a.width a.sign = (width, sign) := Option.some.inj inferred
    cases hx
    rwa [type] at fits
  | expr1Int1 op a n =>
    have fits := expr1Int1_fits op a n (typed a (by simp [Application.children])) adm
    have type : op.inferWidth a.width a.sign n = (width, sign) := Option.some.inj inferred
    cases hx
    rwa [type] at fits
  | expr1Int2 op a hi lo =>
    have fits := expr1Int2_fits op a hi lo adm
    have type : op.inferWidth hi lo = (width, sign) := Option.some.inj inferred
    cases hx
    rwa [type] at fits
  | expr2 op a b =>
    exact expr2_fits op a b (typed a (by simp [Application.children]))
      (typed b (by simp [Application.children])) adm inferred hx
  | mux c a b =>
    have ha := typed a (by simp [Application.children])
    have hb := typed b (by simp [Application.children])
    have same : a.sign = b.sign := adm.2.2
    cases inferred
    cases hx
    split
    · exact ha.mono (le_max_left _ _)
    · have wide := hb.mono (le_max_right a.width b.width)
      rwa [← same] at wide

end Gsim.FirrtlSemantics
