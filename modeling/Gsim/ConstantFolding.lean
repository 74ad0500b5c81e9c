/-
  Gsim/ConstantFolding.lean
  =========================
  **When constant folding computes the FIRRTL value.**

  A `Site` is an operator application of a tree as `computeConstant` meets it:
  its operands carry both their meaning and the record `consEMap` holds for
  them.  The record's width may be smaller than the operand's (`Operand.cons_le`):
  an unsigned `pad` and a `mux` hand their child's record on.

  `Site.Exact` is the contract: folding does not abort, it folds whenever every
  operand is constant, and every constant it produces has the value and range of
  the FIRRTL result.  Every proof below goes through one fact: after
  `updateConsVal` the constant is right exactly when `2^width` divides the
  difference of the computed and the intended number (`exactAt_set`).
-/
import Gsim.FirrtlSemantics

namespace Gsim.ConstantFolding

open Gsim.TwosComplement Gsim.OpFuncs Gsim.ConstantNode Gsim.FirrtlSemantics

/-! ## Operands and sites -/

/-- A child of a node: what it means, and what `consEMap` records for it. -/
structure Operand extends Child where
  value : Int
  cons_le : cons.width ≤ width
  fits : Fits sign cons.width value
  constant : cons.isConstant = true → cons.consVal = value
  width_lt : width < 2 ^ 31

namespace Operand

def toWord (o : Operand) : Word := ⟨o.width, o.sign, o.value⟩

theorem wellTyped (o : Operand) : o.toWord.WellTyped := o.fits.mono o.cons_le

theorem consWidth_le (o : Operand) : o.consWidth ≤ o.width := o.cons_le

theorem consVal_eq (o : Operand) (h : o.isConstant = true) : o.consVal = o.value := o.constant h

theorem fits_consWidth (o : Operand) : Fits o.sign o.consWidth o.value := o.fits

theorem fits_width (o : Operand) : Fits o.sign o.width o.value := o.wellTyped

end Operand

/-- An admissible operator application with the type `inferWidth` gives it. -/
structure Site where
  app : Application Operand
  width : Nat
  sign : Bool
  inferred : (app.map fun o => o.toChild.type).inferWidth = some (width, sign)
  width_lt : width < 2 ^ 31
  admissible : Admissible (app.map Operand.toWord)

/-- A constant of the right range that has the value, where FIRRTL defines one. -/
def FoldsTo (width : Nat) (sign : Bool) (x : Option Int) (info : ValInfo) : Prop :=
  Fits sign width info.consVal ∧ ∀ y ∈ x, info.consVal = y

def ExactAt (width : Nat) (sign : Bool) (allConstant : Prop) (x : Option Int)
    (result : Option ValInfo) : Prop :=
  ∃ info, result = some info ∧ (allConstant → info.isConstant = true) ∧
    (info.isConstant = true → FoldsTo width sign x info)

namespace Site

def computeConstant (s : Site) : Option ValInfo :=
  (s.app.map Operand.toChild).computeConstant s.width s.sign

def firrtl (s : Site) : Option Int := FirrtlSemantics.firrtl (s.app.map Operand.toWord)

def AllConstant (s : Site) : Prop := ∀ o ∈ s.app.children, o.isConstant = true

/-- Folding does not abort, folds constants to a constant, and only to the right one. -/
def Exact (s : Site) : Prop :=
  ExactAt s.width s.sign s.AllConstant s.firrtl s.computeConstant

end Site

/-! ## One folded constant -/

theorem set_new {width : Nat} (small : width < 2 ^ 31) (sign : Bool) (v : Int) :
    (ValInfo.new width sign).set v = ⟨.VAL_CONSTANT, wrap sign width v, width, sign⟩ := by
  have wide : width < 2 ^ 64 := small.trans (by decide)
  unfold ValInfo.set ValInfo.updateConsVal ValInfo.new
  simp only [allOnes_eq, land_mask]
  cases sign with
  | false => rfl
  | true =>
    simp only [if_true]
    rw [s_asSInt_of_unsigned wide (emod_range v width)]
    congr 1
    apply Eq.symm
    have range := emod_range v width
    split
    · apply (wrap_eq_iff (fits_signed.mpr (by omega))).mpr
      exact Int.dvd_self_sub_emod
    · apply (wrap_eq_iff (fits_signed.mpr (by omega))).mpr
      have : v - (v % 2 ^ width - 2 ^ width) = v - v % 2 ^ width + 2 ^ width := by ring
      rw [this]
      exact dvd_add Int.dvd_self_sub_emod (dvd_refl _)

section ExactAt

variable {width : Nat} {sign : Bool} {allConstant : Prop}

theorem not_exactAt_none (x : Option Int) : ¬ ExactAt width sign allConstant x none := by
  rintro ⟨_, absurd, -⟩
  cases absurd

/-- The folded constant is right exactly when the two numbers agree modulo `2^width`. -/
theorem exactAt_set (small : width < 2 ^ 31) {v y : Int} (fits : Fits sign width y) :
    ExactAt width sign allConstant (some y) (some ((ValInfo.new width sign).set v)) ↔
      (2 : Int) ^ width ∣ v - y := by
  rw [set_new small, ← wrap_eq_iff fits]
  constructor
  · rintro ⟨info, eq, -, folds⟩
    cases eq
    exact (folds rfl).2 y rfl
  · intro eq
    refine ⟨_, rfl, fun _ => rfl, fun _ => ⟨fits_wrap _ _ _, ?_⟩⟩
    intro z hz
    cases hz
    exact eq

/-- Where FIRRTL leaves the value open, the range is all there is to meet. -/
theorem exactAt_set_none (small : width < 2 ^ 31) (v : Int) :
    ExactAt width sign allConstant none (some ((ValInfo.new width sign).set v)) := by
  rw [set_new small]
  refine ⟨_, rfl, fun _ => rfl, fun _ => ⟨fits_wrap _ _ _, ?_⟩⟩
  intro z hz
  cases hz

/-- A fresh record says nothing. -/
theorem exactAt_new (x : Option Int) (open_ : ¬ allConstant) :
    ExactAt width sign allConstant x (some (.new width sign)) :=
  ⟨_, rfl, fun all => absurd all open_, fun h => by simp [ValInfo.isConstant, ValInfo.new] at h⟩

theorem exactAt_fallback (small : width < 2 ^ 31) (open_ : ¬ allConstant) {y : Int}
    (fits : Fits sign width y) {guard : Bool} {v : Int} (h : guard = true → v = y) :
    ExactAt width sign allConstant (some y)
      (some (if guard then (ValInfo.new width sign).set v else .new width sign)) := by
  cases guard with
  | false => exact exactAt_new _ open_
  | true =>
    rw [if_pos rfl, exactAt_set small fits, h rfl, sub_self]
    exact dvd_zero _

/-- Two words agree modulo `2^width` only when they are equal. -/
theorem dvd_sub_iff_eq {a b : Int} (ha : Fits sign width a) (hb : Fits sign width b) :
    (2 : Int) ^ width ∣ a - b ↔ a = b := by
  rw [← wrap_eq_iff hb, wrap_of_fits ha]

end ExactAt

/-! ## Two operands -/

section Expr2

variable {width : Nat} {sign : Bool} (small : width < 2 ^ 31) (o0 o1 : Operand)
include small

theorem consBoth_exactAt {y v : Int} (fits : Fits sign width y) {folded : Option Int}
    (hf : o0.isConstant = true → o1.isConstant = true → folded = some v) {other : ValInfo}
    (ho : ¬ (o0.isConstant = true ∧ o1.isConstant = true) →
      ExactAt width sign (o0.isConstant = true ∧ o1.isConstant = true) (some y) (some other)) :
    ExactAt width sign (o0.isConstant = true ∧ o1.isConstant = true) (some y)
        (consBoth (.new width sign) o0.toChild o1.toChild folded other) ↔
      (o0.isConstant = true ∧ o1.isConstant = true → (2 : Int) ^ width ∣ v - y) := by
  unfold consBoth
  by_cases both : o0.isConstant = true ∧ o1.isConstant = true
  · rw [if_pos (by simp [both.1, both.2]), hf both.1 both.2, Option.map_some,
      exactAt_set small fits]
    exact ⟨fun h _ => h, fun h => h both⟩
  · rw [if_neg (by simpa using both)]
    exact iff_of_true (ho both) (fun h => absurd h both)

/-- The functions that fold two constants and have no other case. -/
theorem consExpr2_exactAt (op : Int → Nat → Int → Nat → Option Int) {y v : Int}
    (fits : Fits sign width y)
    (hop : op o0.value o0.consWidth o1.value o1.consWidth = some v) :
    ExactAt width sign (o0.isConstant = true ∧ o1.isConstant = true) (some y)
        (consExpr2 width sign o0.toChild o1.toChild op) ↔
      (o0.isConstant = true ∧ o1.isConstant = true → (2 : Int) ^ width ∣ v - y) := by
  apply consBoth_exactAt small o0 o1 fits
  · intro h0 h1
    rw [o0.consVal_eq h0, o1.consVal_eq h1, hop]
  · exact fun open_ => exactAt_new _ open_

/-- ... and whose number is the FIRRTL value itself. -/
theorem consExpr2_exact (op : Int → Nat → Int → Nat → Option Int) {y : Int}
    (fits : Fits sign width y)
    (hop : op o0.value o0.consWidth o1.value o1.consWidth = some y) :
    ExactAt width sign (o0.isConstant = true ∧ o1.isConstant = true) (some y)
      (consExpr2 width sign o0.toChild o1.toChild op) := by
  rw [consExpr2_exactAt small o0 o1 op fits hop, sub_self]
  exact fun _ => dvd_zero _

/-- The same for a function with a fallback that answers without both constants. -/
theorem consBoth_exact {y : Int} (fits : Fits sign width y) {folded : Option Int}
    (hf : o0.isConstant = true → o1.isConstant = true → folded = some y) {guard : Bool} {v : Int}
    (hg : guard = true → v = y) :
    ExactAt width sign (o0.isConstant = true ∧ o1.isConstant = true) (some y)
      (consBoth (.new width sign) o0.toChild o1.toChild folded
        (if guard then (ValInfo.new width sign).set v else .new width sign)) := by
  rw [consBoth_exactAt small o0 o1 fits hf (fun open_ => exactAt_fallback small open_ fits hg),
    sub_self]
  exact fun _ => dvd_zero _

omit small in
/-- An operation that aborts is exact only where it is not reached. -/
theorem consExpr2_abort (op : Int → Nat → Int → Nat → Option Int) (x : Option Int)
    (hop : op o0.value o0.consWidth o1.value o1.consWidth = none) :
    ExactAt width sign (o0.isConstant = true ∧ o1.isConstant = true) x
        (consExpr2 width sign o0.toChild o1.toChild op) ↔
      ¬ (o0.isConstant = true ∧ o1.isConstant = true) := by
  unfold consExpr2 consBoth
  by_cases both : o0.isConstant = true ∧ o1.isConstant = true
  · rw [if_pos (by simp [both.1, both.2]), o0.consVal_eq both.1, o1.consVal_eq both.2, hop]
    exact iff_of_false (not_exactAt_none x) (fun h => h both)
  · rw [if_neg (by simpa using both)]
    exact iff_of_true (exactAt_new x both) both

end Expr2

/-! ## Shift amounts -/

/-- A word of at most `2^31` bits shifted by more than that is all sign. -/
theorem ediv_of_wide {v : Int} {k : Nat} (hv : -2 ^ k ≤ v ∧ v < 2 ^ k) :
    v / 2 ^ k = if v < 0 then -1 else 0 := by
  have pos := two_pow_pos k
  split
  · rename_i neg
    have shifted : (v + 2 ^ k) / 2 ^ k = 0 := Int.ediv_eq_zero_of_lt (by omega) (by omega)
    rw [Int.add_ediv_of_dvd_right (dvd_refl _), Int.ediv_self (ne_of_gt pos)] at shifted
    omega
  · exact Int.ediv_eq_zero_of_lt (by omega) hv.2

theorem ediv_eq_sign_iff {v : Int} {k : Nat} :
    v / 2 ^ k = (if v < 0 then -1 else 0) ↔ -2 ^ k ≤ v ∧ v < 2 ^ k := by
  have pos := two_pow_pos k
  refine ⟨fun eq => ?_, ediv_of_wide⟩
  have split := Int.mul_ediv_add_emod v (2 ^ k)
  have range := emod_range v k
  by_cases neg : v < 0
  · rw [eq, if_pos neg] at split
    omega
  · rw [eq, if_neg neg] at split
    omega

theorem Fits.wide {sign : Bool} {w k : Nat} {v : Int} (fits : Fits sign w v) (h : w ≤ k) :
    -2 ^ k ≤ v ∧ v < 2 ^ k := by
  have le := two_pow_le h
  have bounds := fits.bounds
  omega

/-- `s_dshr` keeps the low 32 bits of its amount; an amount with bit 31 set becomes a huge
    one. -/
theorem s_dshrCount_eq {v : Int} (nonneg : 0 ≤ v) :
    s_dshrCount v =
      if v % 2 ^ 32 < 2 ^ 31 then (v % 2 ^ 32).toNat else (v % 2 ^ 32).toNat + (2 ^ 64 - 2 ^ 32) := by
  obtain ⟨n, rfl⟩ := Int.eq_ofNat_of_zero_le nonneg
  unfold s_dshrCount mpz_get_ui
  rw [Int.natAbs_natCast, Int.bmod_def]
  split <;> split <;> omega

section Shifts

variable (o0 o1 : Operand)

theorem u_dshl_eq (unsigned : o1.sign = false) (small : o1.width < 31) :
    u_dshl o0.value o0.consWidth o1.value o1.consWidth = o0.value * 2 ^ o1.value.toNat := by
  have fits := o1.fits_width
  rw [unsigned, fits_unsigned] at fits
  have le : (2 : Int) ^ o1.width ≤ 2 ^ 31 := two_pow_le small.le
  rw [u_dshl, mpz_mul_2exp, mpz_get_ui_of_lt fits.1 (by omega)]

/-- An unsigned dynamic right shift goes wrong when the amount does not fit an
    `unsigned long` and its low 64 bits shift too little. -/
theorem u_dshr_eq_iff (unsigned0 : o0.sign = false) (unsigned1 : o1.sign = false) :
    u_dshr o0.value o0.consWidth o1.value o1.consWidth = o0.value / 2 ^ o1.value.toNat ↔
      o1.value < 2 ^ 64 ∨ o0.value < 2 ^ (o1.value % 2 ^ 64).toNat := by
  have fits0 := o0.fits_width
  have fits1 := o1.fits_width
  rw [unsigned0] at fits0
  rw [unsigned1, fits_unsigned] at fits1
  have nonneg := (fits_unsigned.mp fits0).1
  rw [u_dshr, mpz_tdiv_q_2exp_of_nonneg nonneg]
  by_cases word : o1.value < 2 ^ 64
  · rw [mpz_get_ui_of_lt fits1.1 word]
    exact iff_of_true rfl (.inl word)
  · have low : mpz_get_ui o1.value = (o1.value % 2 ^ 64).toNat := by
      unfold mpz_get_ui
      omega
    have width := o0.width_lt
    have far : o0.value / 2 ^ o1.value.toNat = 0 := by
      rw [ediv_of_wide (Fits.wide fits0 (by omega)), if_neg (by omega)]
    rw [low, far]
    have sign := ediv_eq_sign_iff (v := o0.value) (k := (o1.value % 2 ^ 64).toNat)
    rw [if_neg (by omega)] at sign
    rw [sign]
    have pos := two_pow_pos (o1.value % 2 ^ 64).toNat
    constructor
    · exact fun h => .inr h.2
    · rintro (h | h)
      · exact absurd h word
      · exact ⟨by omega, h⟩

theorem s_dshr_eq (v0 : Int) (w0 : Nat) (v1 : Int) (w1 : Nat) :
    s_dshr v0 w0 v1 w1 = v0 / 2 ^ s_dshrCount v1 := by
  unfold s_dshr
  split
  · exact mpz_fdiv_q_2exp_eq _ _
  · exact mpz_tdiv_q_2exp_of_nonneg (by omega) _

/-- The signed one goes wrong when the amount leaves an `int` and what is left of it shifts
    too little. -/
theorem s_dshr_eq_iff (unsigned1 : o1.sign = false) :
    s_dshr o0.value o0.consWidth o1.value o1.consWidth = o0.value / 2 ^ o1.value.toNat ↔
      o1.value < 2 ^ 31 ∨ 2 ^ 31 ≤ o1.value % 2 ^ 32 ∨
        (-2 ^ (o1.value % 2 ^ 32).toNat ≤ o0.value ∧ o0.value < 2 ^ (o1.value % 2 ^ 32).toNat) := by
  have fits1 := o1.fits_width
  rw [unsigned1, fits_unsigned] at fits1
  have width := o0.width_lt
  rw [s_dshr_eq, s_dshrCount_eq fits1.1]
  by_cases word : o1.value < 2 ^ 31
  · have low : o1.value % 2 ^ 32 = o1.value := Int.emod_eq_of_lt fits1.1 (by omega)
    rw [low, if_pos word]
    exact iff_of_true rfl (.inl word)
  · have far : o0.value / 2 ^ o1.value.toNat = if o0.value < 0 then -1 else 0 :=
      ediv_of_wide (Fits.wide o0.fits_width (by omega))
    by_cases high : 2 ^ 31 ≤ o1.value % 2 ^ 32
    · rw [if_neg (not_lt.mpr high), far, ediv_of_wide (Fits.wide o0.fits_width (by omega))]
      exact iff_of_true rfl (.inr (.inl high))
    · rw [if_pos (not_le.mp high), far, ediv_eq_sign_iff]
      constructor
      · exact fun h => .inr (.inr h)
      · rintro (h | h | h)
        · exact absurd h word
        · exact absurd h high
        · exact h

end Shifts

/-! ## Binary operators -/

theorem ofCond_eq_truth (p : Prop) [Decidable p] : ofCond (decide p) = truth p := by
  unfold ofCond truth
  by_cases h : p
  · simp [h]
  · simp [h]

/-- Masking the result is masking the operands. -/
theorem dvd_bitwise_sub (f : Bool → Bool → Bool) (hf : f false false = false) (w : Nat) (a b : Int) :
    (2 : Int) ^ w ∣ Int.bitwise f a b - Int.bitwise f (a % 2 ^ w) (b % 2 ^ w) := by
  rw [← bitwise_emod f hf w a b]
  exact Int.dvd_self_sub_emod

theorem dvd_us_sub (sign : Bool) (a b : Int) (w : Nat) :
    (2 : Int) ^ w ∣ us_sub a b w - wrap sign w (a - b) := by
  have cong := dvd_wrap_sub sign w (a - b)
  unfold us_sub mpz_mul_2exp
  split
  · rename_i zero
    rwa [zero, sub_zero] at cong ⊢
  · have : 1 * 2 ^ w - b + a - wrap sign w (a - b) = a - b - wrap sign w (a - b) + 2 ^ w := by ring
    rw [this]
    exact dvd_add cong (dvd_refl _)

/-- Two's complement patterns of words that are not negative are the words. -/
theorem Operand.pattern_of_nonneg (o : Operand) (nonneg : 0 ≤ o.value) :
    o.toWord.pattern = o.value :=
  Int.emod_eq_of_lt nonneg o.fits_width.bounds.2

theorem Operand.lt_of_nonneg (o : Operand) (nonneg : 0 ≤ o.value) :
    0 ≤ o.value ∧ o.value < 2 ^ o.consWidth :=
  ⟨nonneg, o.fits_consWidth.bounds.2⟩

/-- A constant above the other operand's range differs from it. -/
theorem ne_of_outOfBound (o : Operand) {v : Int} (h : mpzOutOfBound v o.width = true) :
    v ≠ o.value := by
  have bounds := o.fits_width.bounds
  simp only [mpzOutOfBound, allOnes_eq, decide_eq_true_eq] at h
  omega

/-- What the folded number of a binary operator has to satisfy to be right. -/
def Expr2When (op : OpExpr2) (o0 o1 : Operand) : Prop :=
  match op with
  | .OP_DSHL => o0.sign = false
  | .OP_DSHR =>
    if o0.sign then
      o1.value < 2 ^ 31 ∨ 2 ^ 31 ≤ o1.value % 2 ^ 32 ∨
        (-2 ^ (o1.value % 2 ^ 32).toNat ≤ o0.value ∧ o0.value < 2 ^ (o1.value % 2 ^ 32).toNat)
    else o1.value < 2 ^ 64 ∨ o0.value < 2 ^ (o1.value % 2 ^ 64).toNat
  | .OP_CAT => 0 ≤ o0.value ∧ 0 ≤ o1.value ∧ (o0.value = 0 ∨ o1.consWidth = o1.width)
  | _ => True

section Binary

variable {width : Nat} (small : width < 2 ^ 31) (o0 o1 : Operand)
include small

theorem consAdd_exact {sign : Bool} (fits : Fits sign width (o0.value + o1.value)) :
    ExactAt width sign (o0.isConstant = true ∧ o1.isConstant = true)
      (some (o0.value + o1.value)) (consAdd width sign o0.toChild o1.toChild) :=
  consExpr2_exact small o0 o1 _ fits rfl

theorem consMul_exact {sign : Bool} (fits : Fits sign width (o0.value * o1.value)) :
    ExactAt width sign (o0.isConstant = true ∧ o1.isConstant = true)
      (some (o0.value * o1.value)) (consMul width sign o0.toChild o1.toChild) :=
  consExpr2_exact small o0 o1 _ fits rfl

/-- A comparison that folds two constants and nothing else. -/
theorem consCompare_exact (wide : 0 < width) (rel : Int → Int → Prop) [DecidableRel rel] :
    ExactAt width false (o0.isConstant = true ∧ o1.isConstant = true)
      (some (truth (rel o0.value o1.value)))
      (consExpr2 width false o0.toChild o1.toChild
        fun v0 _ v1 _ => some (ofCond (decide (rel v0 v1)))) :=
  consExpr2_exact small o0 o1 _ ((fits_truth _).mono wide) (congrArg some (ofCond_eq_truth _))

theorem consLt_exact (wide : 0 < width) :
    ExactAt width false (o0.isConstant = true ∧ o1.isConstant = true)
      (some (truth (o0.value < o1.value))) (consLt width false o0.toChild o1.toChild) := by
  apply consBoth_exact small o0 o1 ((fits_truth _).mono wide)
  · intro h0 h1
    rw [us_lt, ofCond_eq_truth, o0.consVal_eq h0, o1.consVal_eq h1]
  · intro guard
    simp only [Bool.and_eq_true, Bool.not_eq_true', beq_iff_eq] at guard
    obtain ⟨unsigned, constant, zero⟩ := guard
    have nonneg := o0.fits_width
    rw [unsigned, fits_unsigned] at nonneg
    rw [o1.consVal_eq constant] at zero
    rw [truth, if_neg (by omega)]

theorem consEq_exact (wide : 0 < width) :
    ExactAt width false (o0.isConstant = true ∧ o1.isConstant = true)
      (some (truth (o0.value = o1.value))) (consEq width false o0.toChild o1.toChild) := by
  apply consBoth_exact small o0 o1 ((fits_truth _).mono wide)
  · intro h0 h1
    rw [us_eq, ofCond_eq_truth, o0.consVal_eq h0, o1.consVal_eq h1]
  · intro guard
    simp only [Bool.or_eq_true, Bool.and_eq_true] at guard
    have ne : o0.value ≠ o1.value := by
      rcases guard with ⟨constant, far⟩ | ⟨constant, far⟩
      · rw [o0.consVal_eq constant] at far
        exact ne_of_outOfBound o1 far
      · rw [o1.consVal_eq constant] at far
        exact (ne_of_outOfBound o0 far).symm
    rw [truth, if_neg ne]

theorem consAnd_exact :
    ExactAt width false (o0.isConstant = true ∧ o1.isConstant = true)
      (some (Int.land (o0.value % 2 ^ width) (o1.value % 2 ^ width)))
      (consAnd width false o0.toChild o1.toChild) := by
  have fits := fits_bitwise and rfl width o0.value o1.value
  rw [Int.bitwise_and] at fits
  apply (consBoth_exactAt small o0 o1 (v := Int.land o0.value o1.value) fits _ _).mpr
  · intro _
    rw [← Int.bitwise_and]
    exact dvd_bitwise_sub and rfl width _ _
  · intro h0 h1
    rw [o0.consVal_eq h0, o1.consVal_eq h1]
    rfl
  · intro open_
    apply exactAt_fallback small open_ fits
    intro guard
    simp only [Bool.or_eq_true, Bool.and_eq_true, beq_iff_eq] at guard
    rcases guard with ⟨constant, zero⟩ | ⟨constant, zero⟩
    · rw [o0.consVal_eq constant] at zero
      rw [zero, Int.zero_emod, zero_land]
    · rw [o1.consVal_eq constant] at zero
      rw [zero, Int.zero_emod, land_zero]

theorem consOr_exact :
    ExactAt width false (o0.isConstant = true ∧ o1.isConstant = true)
      (some (Int.lor (o0.value % 2 ^ width) (o1.value % 2 ^ width)))
      (consOr width false o0.toChild o1.toChild) := by
  have fits := fits_bitwise or rfl width o0.value o1.value
  rw [Int.bitwise_or] at fits
  have full : (2 ^ width - 1 : Int) % 2 ^ width = 2 ^ width - 1 :=
    Int.emod_eq_of_lt (ones_range width).1 (ones_range width).2
  apply (consBoth_exactAt small o0 o1 (v := Int.lor o0.value o1.value) fits _ _).mpr
  · intro _
    rw [← Int.bitwise_or]
    exact dvd_bitwise_sub or rfl width _ _
  · intro h0 h1
    rw [o0.consVal_eq h0, o1.consVal_eq h1]
    rfl
  · intro open_
    apply exactAt_fallback small open_ fits
    intro guard
    simp only [Bool.or_eq_true, Bool.and_eq_true, beq_iff_eq, allOnes_eq] at guard
    rw [allOnes_eq]
    rcases guard with ⟨constant, mask⟩ | ⟨constant, mask⟩
    · rw [o0.consVal_eq constant] at mask
      rw [mask, full, ones_lor width _ (emod_range _ _)]
    · rw [o1.consVal_eq constant] at mask
      rw [mask, full, lor_ones width _ (emod_range _ _)]

theorem consXor_exact :
    ExactAt width false (o0.isConstant = true ∧ o1.isConstant = true)
      (some (Int.xor (o0.value % 2 ^ width) (o1.value % 2 ^ width)))
      (consXor width false o0.toChild o1.toChild) := by
  have fits := fits_bitwise xor rfl width o0.value o1.value
  rw [Int.bitwise_xor] at fits
  apply (consExpr2_exactAt small o0 o1 _ fits rfl).mpr
  intro _
  show _ ∣ Int.xor o0.value o1.value - _
  rw [← Int.bitwise_xor]
  exact dvd_bitwise_sub xor rfl width _ _

theorem consSub_exact (sign : Bool) :
    ExactAt width sign (o0.isConstant = true ∧ o1.isConstant = true)
      (some (wrap sign width (o0.value - o1.value))) (consSub width sign o0.toChild o1.toChild) := by
  apply (consExpr2_exactAt small o0 o1 _ (fits_wrap sign width _) rfl).mpr
  exact fun _ => dvd_us_sub sign _ _ width

/-- A quotient or remainder: open at a zero divisor, where the destination stays zero. -/
theorem consQuotient_exact {sign : Bool} (op : Int → Nat → Int → Nat → Option Int) {y : Int}
    (fits : o1.value ≠ 0 → Fits sign width y)
    (hop : op o0.value o0.consWidth o1.value o1.consWidth = some (if o1.value = 0 then 0 else y)) :
    ExactAt width sign (o0.isConstant = true ∧ o1.isConstant = true)
      (if o1.value = 0 then none else some y) (consExpr2 width sign o0.toChild o1.toChild op) := by
  by_cases zero : o1.value = 0
  · rw [if_pos zero]
    unfold consExpr2 consBoth
    by_cases both : o0.isConstant = true ∧ o1.isConstant = true
    · rw [if_pos (by simp [both.1, both.2]), o0.consVal_eq both.1, o1.consVal_eq both.2, hop]
      exact exactAt_set_none small _
    · rw [if_neg (by simpa using both)]
      exact exactAt_new _ both
  · rw [if_neg zero] at hop ⊢
    exact consExpr2_exact small o0 o1 op (fits zero) hop

theorem consDIv_exact {sign : Bool}
    (fits : o1.value ≠ 0 → Fits sign width (Int.tdiv o0.value o1.value)) :
    ExactAt width sign (o0.isConstant = true ∧ o1.isConstant = true)
      (if o1.value = 0 then none else some (Int.tdiv o0.value o1.value))
      (consDIv width sign o0.toChild o1.toChild) :=
  consQuotient_exact small o0 o1 _ fits rfl

theorem consRem_exact {sign : Bool}
    (fits : o1.value ≠ 0 → Fits sign width (Int.tmod o0.value o1.value)) :
    ExactAt width sign (o0.isConstant = true ∧ o1.isConstant = true)
      (if o1.value = 0 then none else some (Int.tmod o0.value o1.value))
      (consRem width sign o0.toChild o1.toChild) :=
  consQuotient_exact small o0 o1 _ fits rfl

/-- `cat` shifts by the width in the second operand's record and refuses negative operands. -/
theorem consCat_exact_iff (hw : width = o0.width + o1.width) :
    ExactAt width false (o0.isConstant = true ∧ o1.isConstant = true)
        (some (o0.toWord.pattern * 2 ^ o1.width + o1.toWord.pattern))
        (consCat width false o0.toChild o1.toChild) ↔
      (o0.isConstant = true ∧ o1.isConstant = true →
        0 ≤ o0.value ∧ 0 ≤ o1.value ∧ (o0.value = 0 ∨ o1.consWidth = o1.width)) := by
  by_cases nonneg : 0 ≤ o0.value ∧ 0 ≤ o1.value
  · have cat : u_cat o0.value o0.consWidth o1.value o1.consWidth =
        some (o0.value * 2 ^ o1.consWidth + o1.value) := by
      rw [u_cat, if_pos nonneg, mpz_mul_2exp, lor_shifted _ _ _ (o1.lt_of_nonneg nonneg.2)]
    have pattern0 := o0.pattern_of_nonneg nonneg.1
    have pattern1 := o1.pattern_of_nonneg nonneg.2
    have range0 := fits_unsigned.mpr o0.toWord.pattern_range
    have range1 := fits_unsigned.mpr o1.toWord.pattern_range
    rw [pattern0] at range0 ⊢
    rw [pattern1] at range1 ⊢
    have fits : Fits false width (o0.value * 2 ^ o1.width + o1.value) := by
      rw [hw]
      exact fits_cat range0 range1
    have fitsCode : Fits false width (o0.value * 2 ^ o1.consWidth + o1.value) := by
      apply Fits.mono _ (fits_cat range0 (fits_unsigned.mpr (o1.lt_of_nonneg nonneg.2)))
      have := o1.consWidth_le
      show o0.width + o1.consWidth ≤ width
      omega
    apply (consExpr2_exactAt small o0 o1 _ fits cat).trans
    apply imp_congr_right
    intro _
    rw [dvd_sub_iff_eq fitsCode fits]
    constructor
    · intro eq
      refine ⟨nonneg.1, nonneg.2, ?_⟩
      by_cases zero : o0.value = 0
      · exact .inl zero
      · have pow := mul_left_cancel₀ zero (add_right_cancel eq)
        exact .inr (Nat.pow_right_injective (le_refl 2) (by exact_mod_cast pow))
    · rintro ⟨-, -, zero | same⟩
      · rw [zero, zero_mul, zero_mul]
      · rw [same]
  · have cat : u_cat o0.value o0.consWidth o1.value o1.consWidth = none := by
      rw [u_cat, if_neg nonneg]
    apply (consExpr2_abort o0 o1 _ _ cat).trans
    constructor
    · exact fun open_ both => absurd both open_
    · exact fun all both => nonneg ⟨(all both).1, (all both).2.1⟩

theorem consDshl_exact_iff (unsigned : o1.sign = false)
    (amount : o1.width < 31) (fits : Fits o0.sign width (o0.value * 2 ^ o1.value.toNat)) :
    ExactAt width o0.sign (o0.isConstant = true ∧ o1.isConstant = true)
        (some (o0.value * 2 ^ o1.value.toNat)) (consDshl width o0.sign o0.toChild o1.toChild) ↔
      (o0.isConstant = true ∧ o1.isConstant = true → o0.sign = false) := by
  cases h : o0.sign with
  | false =>
    rw [h] at fits
    refine iff_of_true ?_ (fun _ => rfl)
    apply consExpr2_exact small o0 o1 _ fits
    exact congrArg some (u_dshl_eq o0 o1 unsigned amount)
  | true =>
    apply (consExpr2_abort o0 o1 _ _ rfl).trans
    simp

theorem consDshr_exact_iff (hw : width = o0.width) (unsigned : o1.sign = false) :
    ExactAt width o0.sign (o0.isConstant = true ∧ o1.isConstant = true)
        (some (o0.value / 2 ^ o1.value.toNat)) (consDshr width o0.sign o0.toChild o1.toChild) ↔
      (o0.isConstant = true ∧ o1.isConstant = true → Expr2When .OP_DSHR o0 o1) := by
  subst hw
  have fits : ∀ k : Nat, Fits o0.sign o0.width (o0.value / 2 ^ k) := fits_ediv o0.fits_width
  apply (consExpr2_exactAt small o0 o1 _ (fits _) rfl).trans
  apply imp_congr_right
  intro _
  simp only [Expr2When]
  cases h : o0.sign with
  | false =>
    have nonneg := o0.fits_width
    rw [h, fits_unsigned] at nonneg
    rw [if_neg (by decide), if_neg (by decide), ← u_dshr_eq_iff o0 o1 h unsigned]
    apply dvd_sub_iff_eq _ (fits _)
    rw [u_dshr, mpz_tdiv_q_2exp_of_nonneg nonneg.1]
    exact fits _
  | true =>
    rw [if_pos rfl, if_pos rfl, ← s_dshr_eq_iff o0 o1 unsigned]
    apply dvd_sub_iff_eq _ (fits _)
    rw [s_dshr_eq]
    exact fits _

end Binary

/-- Folding a binary operator of positive width. -/
theorem expr2_exact_iff (op : OpExpr2) (o0 o1 : Operand) {width : Nat} {sign : Bool}
    (inferred : op.inferWidth o0.width o0.sign o1.width o1.sign = some (width, sign))
    (small : width < 2 ^ 31) (adm : Admissible (.expr2 op o0.toWord o1.toWord))
    (wide : 0 < width) :
    ExactAt width sign (o0.isConstant = true ∧ o1.isConstant = true)
        (OpExpr2.firrtl op o0.toWord o1.toWord) (op.cons width sign o0.toChild o1.toChild) ↔
      (o0.isConstant = true ∧ o1.isConstant = true → Expr2When op o0 o1) := by
  have fits : ∀ x, OpExpr2.firrtl op o0.toWord o1.toWord = some x → Fits sign width x :=
    fun x hx => expr2_fits op _ _ o0.wellTyped o1.wellTyped adm inferred hx
  cases op with
  | OP_DSHL =>
    obtain ⟨unsigned, amount⟩ : o1.sign = false ∧ o1.width < 31 := adm
    rw [OpExpr2.inferWidth, if_pos unsigned] at inferred
    cases inferred
    exact consDshl_exact_iff small o0 o1 unsigned amount (fits _ rfl)
  | OP_DSHR =>
    cases inferred
    exact consDshr_exact_iff small o0 o1 rfl adm
  | OP_CAT =>
    rw [OpExpr2.inferWidth, if_pos (show o0.sign = o1.sign from adm)] at inferred
    cases inferred
    exact consCat_exact_iff small o0 o1 rfl
  | OP_ADD =>
    rw [OpExpr2.inferWidth, if_pos (show o0.sign = o1.sign from adm)] at inferred
    cases inferred
    exact iff_of_true (consAdd_exact small o0 o1 (fits _ rfl)) (fun _ => trivial)
  | OP_MUL =>
    rw [OpExpr2.inferWidth, if_pos (show o0.sign = o1.sign from adm)] at inferred
    cases inferred
    exact iff_of_true (consMul_exact small o0 o1 (fits _ rfl)) (fun _ => trivial)
  | OP_SUB =>
    rw [OpExpr2.inferWidth, if_pos (show o0.sign = o1.sign from adm)] at inferred
    cases inferred
    exact iff_of_true (consSub_exact small o0 o1 _) (fun _ => trivial)
  | OP_DIV =>
    rw [OpExpr2.inferWidth, if_pos (show o0.sign = o1.sign from adm)] at inferred
    cases inferred
    exact iff_of_true (consDIv_exact small o0 o1 fun ne => fits _ (if_neg ne)) (fun _ => trivial)
  | OP_REM =>
    rw [OpExpr2.inferWidth, if_pos (show o0.sign = o1.sign from adm)] at inferred
    cases inferred
    exact iff_of_true (consRem_exact small o0 o1 fun ne => fits _ (if_neg ne)) (fun _ => trivial)
  | OP_LT =>
    rw [OpExpr2.inferWidth, if_pos (show o0.sign = o1.sign from adm)] at inferred
    cases inferred
    exact iff_of_true (consLt_exact small o0 o1 wide) (fun _ => trivial)
  | OP_EQ =>
    rw [OpExpr2.inferWidth, if_pos (show o0.sign = o1.sign from adm)] at inferred
    cases inferred
    exact iff_of_true (consEq_exact small o0 o1 wide) (fun _ => trivial)
  | OP_LEQ =>
    rw [OpExpr2.inferWidth, if_pos (show o0.sign = o1.sign from adm)] at inferred
    cases inferred
    exact iff_of_true (consCompare_exact small o0 o1 wide (· ≤ ·)) (fun _ => trivial)
  | OP_GT =>
    rw [OpExpr2.inferWidth, if_pos (show o0.sign = o1.sign from adm)] at inferred
    cases inferred
    exact iff_of_true (consCompare_exact small o0 o1 wide (· > ·)) (fun _ => trivial)
  | OP_GEQ =>
    rw [OpExpr2.inferWidth, if_pos (show o0.sign = o1.sign from adm)] at inferred
    cases inferred
    exact iff_of_true (consCompare_exact small o0 o1 wide (· ≥ ·)) (fun _ => trivial)
  | OP_NEQ =>
    rw [OpExpr2.inferWidth, if_pos (show o0.sign = o1.sign from adm)] at inferred
    cases inferred
    exact iff_of_true (consCompare_exact small o0 o1 wide (· ≠ ·)) (fun _ => trivial)
  | OP_AND =>
    rw [OpExpr2.inferWidth, if_pos (show o0.sign = o1.sign from adm)] at inferred
    cases inferred
    exact iff_of_true (consAnd_exact small o0 o1) (fun _ => trivial)
  | OP_OR =>
    rw [OpExpr2.inferWidth, if_pos (show o0.sign = o1.sign from adm)] at inferred
    cases inferred
    exact iff_of_true (consOr_exact small o0 o1) (fun _ => trivial)
  | OP_XOR =>
    rw [OpExpr2.inferWidth, if_pos (show o0.sign = o1.sign from adm)] at inferred
    cases inferred
    exact iff_of_true (consXor_exact small o0 o1) (fun _ => trivial)

end Gsim.ConstantFolding
