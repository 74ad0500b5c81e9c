/-
  Gsim/ConstantFoldingUnary.lean
  ==============================
  **Folding the operators of one operand, and multiplexers.**

  Each section computes the number a `cons*` function hands to `updateConsVal`
  and compares it with the FIRRTL value modulo `2^width`.  What goes wrong does
  so for one of two reasons: the width in the child's record is not the child's
  width, or the operation treats a negative number as if it were its bit pattern.
-/
import Gsim.ConstantFolding

namespace Gsim.ConstantFolding

open Gsim.TwosComplement Gsim.OpFuncs Gsim.ConstantNode Gsim.FirrtlSemantics

/-! ## One operand -/

section Expr1

variable {width : Nat} {sign : Bool} (small : width < 2 ^ 31) (o : Operand)
include small

theorem consOne_exactAt {y v : Int} (fits : Fits sign width y) {folded : Option Int}
    (hf : o.isConstant = true → folded = some v) {other : ValInfo}
    (ho : ¬ o.isConstant = true →
      ExactAt width sign (o.isConstant = true) (some y) (some other)) :
    ExactAt width sign (o.isConstant = true) (some y)
        (consOne (.new width sign) o.toChild folded other) ↔
      (o.isConstant = true → (2 : Int) ^ width ∣ v - y) := by
  unfold consOne
  by_cases constant : o.isConstant = true
  · rw [if_pos constant, hf constant, Option.map_some, exactAt_set small fits]
    exact ⟨fun h _ => h, fun h => h constant⟩
  · rw [if_neg constant]
    exact iff_of_true (ho constant) (fun h => absurd h constant)

theorem consExpr1_exactAt (op : Int → Nat → Option Int) {y v : Int} (fits : Fits sign width y)
    (hop : op o.value o.consWidth = some v) :
    ExactAt width sign (o.isConstant = true) (some y) (consExpr1 width sign o.toChild op) ↔
      (o.isConstant = true → (2 : Int) ^ width ∣ v - y) := by
  apply consOne_exactAt small o fits
  · intro h
    rw [o.consVal_eq h, hop]
  · exact fun open_ => exactAt_new _ open_

/-- The number is congruent to the FIRRTL value under a condition that does not look at the
    record's status. -/
theorem consExpr1_exact_iff (op : Int → Nat → Option Int) {y v : Int} (fits : Fits sign width y)
    (hop : op o.value o.consWidth = some v) {p : Prop} (hp : (2 : Int) ^ width ∣ v - y ↔ p) :
    ExactAt width sign (o.isConstant = true) (some y) (consExpr1 width sign o.toChild op) ↔
      (o.isConstant = true → p) := by
  rw [consExpr1_exactAt small o op fits hop, hp]

omit small in
theorem consExpr1_abort (op : Int → Nat → Option Int) (x : Option Int)
    (hop : op o.value o.consWidth = none) :
    ExactAt width sign (o.isConstant = true) x (consExpr1 width sign o.toChild op) ↔
      ¬ o.isConstant = true := by
  unfold consExpr1 consOne
  by_cases constant : o.isConstant = true
  · rw [if_pos constant, o.consVal_eq constant, hop]
    exact iff_of_false (not_exactAt_none x) (fun h => h constant)
  · rw [if_neg constant]
    exact iff_of_true (exactAt_new x constant) constant

end Expr1

/-! ## Unary operators -/

/-- What the folded number of a unary operator has to satisfy to be right. -/
def Expr1When (op : OpExpr1) (o : Operand) : Prop :=
  match op with
  | .OP_ASUINT => 0 ≤ o.value ∨ o.consWidth = o.width
  | .OP_ASSINT => o.sign = true ∨ o.consWidth = o.width ∨ 2 * o.value < 2 ^ o.consWidth
  | .OP_NOT => o.consWidth = o.width
  | .OP_ANDR =>
    if o.sign then o.value ≠ -1 ∧ (o.consWidth = 0 → o.width = 0)
    else o.consWidth = o.width ∨ o.value ≠ 2 ^ o.consWidth - 1
  | .OP_XORR => 0 ≤ o.value ∨ ones o.width o.value % 2 = 1
  | _ => True

section Unary

variable (o : Operand)

theorem two_pow_dvd_consWidth : (2 : Int) ^ o.width ∣ 2 ^ o.consWidth ↔ o.consWidth = o.width := by
  rw [two_pow_dvd]
  exact ⟨fun h => Nat.le_antisymm o.consWidth_le h, fun h => h.ge⟩

theorem Operand.consWidth_lt : o.consWidth < 2 ^ 64 :=
  (o.consWidth_le.trans_lt o.width_lt).trans (by decide)

theorem asUInt_dvd_iff :
    (2 : Int) ^ o.width ∣ u_asUInt o.value o.consWidth - o.toWord.pattern ↔
      0 ≤ o.value ∨ o.consWidth = o.width := by
  have low : (2 : Int) ^ o.width ∣ o.value - o.toWord.pattern := Int.dvd_self_sub_emod
  unfold u_asUInt mpz_mul_2exp
  by_cases neg : o.value < 0
  · have split : 1 * 2 ^ o.consWidth + o.value - o.toWord.pattern =
        2 ^ o.consWidth + (o.value - o.toWord.pattern) := by ring
    rw [if_pos neg, split, dvd_add_left low, two_pow_dvd_consWidth]
    constructor
    · exact .inr
    · exact fun h => h.resolve_left (not_le.mpr neg)
  · rw [if_neg neg]
    exact iff_of_true low (.inl (not_lt.mp neg))

theorem asSInt_dvd_iff :
    (2 : Int) ^ o.width ∣ s_asSInt o.value o.consWidth - wrap true o.width o.value ↔
      o.sign = true ∨ o.consWidth = o.width ∨ 2 * o.value < 2 ^ o.consWidth := by
  have low := dvd_wrap_sub true o.width o.value
  have fits := o.fits_consWidth
  cases h : o.sign with
  | true =>
    rw [h] at fits
    rw [s_asSInt_of_signed o.consWidth_lt fits]
    exact iff_of_true low (.inl rfl)
  | false =>
    rw [h, fits_unsigned] at fits
    rw [s_asSInt_of_unsigned o.consWidth_lt fits]
    by_cases half : 2 * o.value < 2 ^ o.consWidth
    · rw [if_pos half]
      exact iff_of_true low (.inr (.inr half))
    · have split : o.value - 2 ^ o.consWidth - wrap true o.width o.value =
          o.value - wrap true o.width o.value - 2 ^ o.consWidth := by ring
      rw [if_neg half, split, dvd_sub_right low, two_pow_dvd_consWidth]
      constructor
      · exact fun h => .inr (.inl h)
      · rintro (h | h | h)
        · cases h
        · exact h
        · exact absurd h half

/-- Flipping the bits of the record's width leaves those above it as they were. -/
theorem not_dvd_iff :
    (2 : Int) ^ o.width ∣ u_not o.value o.consWidth - (2 ^ o.width - 1 - o.toWord.pattern) ↔
      o.consWidth = o.width := by
  have low : (2 : Int) ^ o.width ∣ o.value - o.toWord.pattern := Int.dvd_self_sub_emod
  have bounds := o.fits_consWidth.bounds
  -- above the record's width the value is all sign
  have sign := ediv_of_wide (v := o.value) (k := o.consWidth) (by omega)
  have cut := Int.mul_ediv_add_emod o.value (2 ^ o.consWidth)
  rw [u_not, allOnes_eq, xor_mask]
  by_cases neg : o.value < 0
  · rw [sign, if_pos neg] at cut ⊢
    have split : 2 ^ o.consWidth * -1 + (2 ^ o.consWidth - 1 - o.value % 2 ^ o.consWidth) -
        (2 ^ o.width - 1 - o.toWord.pattern) =
        -2 ^ o.consWidth - (2 ^ o.width + (o.value - o.toWord.pattern)) := by
      linarith
    rw [split, dvd_sub_left (dvd_add (dvd_refl _) low), dvd_neg, two_pow_dvd_consWidth]
  · rw [sign, if_neg neg] at cut ⊢
    have split : 2 ^ o.consWidth * 0 + (2 ^ o.consWidth - 1 - o.value % 2 ^ o.consWidth) -
        (2 ^ o.width - 1 - o.toWord.pattern) =
        2 ^ o.consWidth - (2 ^ o.width + (o.value - o.toWord.pattern)) := by
      linarith
    rw [split, dvd_sub_left (dvd_add (dvd_refl _) low), two_pow_dvd_consWidth]

theorem Operand.pattern_of_neg (neg : o.value < 0) : o.toWord.pattern = o.value + 2 ^ o.width := by
  have bounds := o.fits_width.bounds
  have shifted : (o.value + 2 ^ o.width) % 2 ^ o.width = o.value + 2 ^ o.width :=
    Int.emod_eq_of_lt (by omega) (by omega)
  rw [Int.add_emod_right] at shifted
  exact shifted

/-- A signed word is all ones when it is `-1`, or has no bits. -/
theorem Operand.allOnes_signed_iff (signed : o.sign = true) :
    o.toWord.pattern = 2 ^ o.width - 1 ↔ o.value = -1 ∨ o.width = 0 := by
  have fits := o.fits_width
  rw [signed] at fits
  by_cases empty : o.width = 0
  · rw [empty] at fits ⊢
    have range := o.toWord.pattern_range
    rw [show o.toWord.width = 0 from empty, pow_zero] at range
    exact iff_of_true (by rw [pow_zero]; omega) (.inr rfl)
  · rw [fits_signed] at fits
    have two : (2 : Int) ^ 1 ≤ 2 ^ o.width := two_pow_le (Nat.one_le_iff_ne_zero.mpr empty)
    by_cases neg : o.value < 0
    · rw [o.pattern_of_neg neg]
      constructor
      · exact fun h => .inl (by omega)
      · rintro (h | h)
        · omega
        · exact absurd h empty
    · rw [o.pattern_of_nonneg (not_lt.mp neg)]
      exact iff_of_false (by omega) (by omega)

theorem Operand.allOnes_unsigned_iff (unsigned : o.sign = false) :
    o.toWord.pattern = 2 ^ o.width - 1 ↔ o.value = 2 ^ o.consWidth - 1 ∧ o.consWidth = o.width := by
  have fits := o.fits_consWidth
  rw [unsigned, fits_unsigned] at fits
  rw [o.pattern_of_nonneg fits.1]
  constructor
  · intro full
    have le : (2 : Int) ^ o.width ≤ 2 ^ o.consWidth := by omega
    have same : o.consWidth = o.width :=
      Nat.le_antisymm o.consWidth_le ((pow_le_pow_iff_right₀ (by decide)).mp le)
    rw [same]
    exact ⟨full, rfl⟩
  · rintro ⟨full, same⟩
    rw [full, same]

/-- `u_andr` compares with the mask of the record's width, which a signed value never is
    unless it has no bits. -/
theorem andr_eq_iff :
    u_andr o.value o.consWidth = truth (o.toWord.pattern = 2 ^ o.width - 1) ↔
      Expr1When .OP_ANDR o := by
  have fits := o.fits_consWidth
  have truth_iff : ∀ p q : Prop, [Decidable p] → [Decidable q] → (truth p = truth q ↔ (p ↔ q)) := by
    intro p q _ _
    unfold truth
    by_cases hp : p
    · by_cases hq : q
      · simp [hp, hq]
      · simp [hp, hq]
    · by_cases hq : q
      · simp [hp, hq]
      · simp [hp, hq]
  rw [u_andr, ofCond_eq_truth, truth_iff, allOnes_eq, Expr1When]
  cases h : o.sign with
  | false =>
    rw [o.allOnes_unsigned_iff h, if_neg (by decide)]
    constructor
    · intro iff
      by_cases full : o.value = 2 ^ o.consWidth - 1
      · exact .inl (iff.mp full.symm).2
      · exact .inr full
    · rintro (same | part)
      · exact ⟨fun full => ⟨full.symm, same⟩, fun full => full.1.symm⟩
      · exact ⟨fun full => absurd full.symm part, fun full => absurd full.1 part⟩
  | true =>
    rw [h, fits_signed] at fits
    have mask : (2 : Int) ^ o.consWidth - 1 = o.value ↔ o.consWidth = 0 := by
      constructor
      · intro full
        by_contra some_
        have two : (2 : Int) ^ 1 ≤ 2 ^ o.consWidth := two_pow_le (Nat.one_le_iff_ne_zero.mpr some_)
        omega
      · intro none_
        rw [none_, pow_zero] at fits ⊢
        omega
    have width := o.consWidth_le
    rw [o.allOnes_signed_iff h, if_pos rfl, mask]
    constructor
    · intro iff
      constructor
      · intro ones
        have none_ := iff.mpr (.inl ones)
        rw [none_, pow_zero] at fits
        omega
      · intro none_
        rcases iff.mp none_ with ones | none'
        · rw [none_, pow_zero] at fits
          omega
        · exact none'
    · rintro ⟨ones, none_⟩
      constructor
      · exact fun h => .inr (none_ h)
      · rintro (h | h)
        · exact absurd h ones
        · omega

theorem orr_eq : u_orr o.value o.consWidth = truth (o.toWord.pattern ≠ 0) := by
  have zero : o.toWord.pattern = 0 ↔ o.value = 0 := by
    rcases lt_or_ge o.value 0 with neg | nonneg
    · have bounds := o.fits_width.bounds
      rw [o.pattern_of_neg neg]
      omega
    · rw [o.pattern_of_nonneg nonneg]
  unfold u_orr truth
  by_cases h : o.value = 0
  · rw [if_pos h, if_neg (fun ne => ne (zero.mpr h))]
  · rw [if_neg h, if_pos (fun none_ => h (zero.mp none_))]

/-- The population count of a negative number is the odd number `2^64 - 1`. -/
theorem xorr_eq_iff :
    u_xorr o.value o.consWidth = ((ones o.width o.value % 2 : Nat) : Int) ↔
      Expr1When .OP_XORR o := by
  unfold u_xorr
  rw [Expr1When, Nat.cast_inj]
  rcases lt_or_ge o.value 0 with neg | nonneg
  · rw [mpz_popcount, if_pos neg]
    constructor
    · exact fun h => .inr h.symm
    · rintro (h | h)
      · exact absurd h (not_le.mpr neg)
      · exact h.symm
  · rw [mpz_popcount_of_fits ⟨nonneg, o.fits_width.bounds.2⟩]
    exact iff_of_true rfl (.inl nonneg)

end Unary

/-- Folding a unary operator of positive width. -/
theorem expr1_exact_iff (op : OpExpr1) (o : Operand)
    (small : (op.inferWidth o.width o.sign).1 < 2 ^ 31) (adm : Admissible (.expr1 op o.toWord)) :
    ExactAt (op.inferWidth o.width o.sign).1 (op.inferWidth o.width o.sign).2
        (o.isConstant = true) (some (OpExpr1.firrtl op o.toWord))
        (op.cons (op.inferWidth o.width o.sign).1 (op.inferWidth o.width o.sign).2 o.toChild) ↔
      (o.isConstant = true → Expr1When op o) := by
  have fits := expr1_fits op _ o.wellTyped adm
  have same : ∀ (w : Nat) (v y : Int), v = y → ((2 : Int) ^ w ∣ v - y ↔ True) := by
    intro w v y eq
    rw [eq, sub_self]
    exact iff_of_true (dvd_zero _) trivial
  cases op with
  | OP_ASUINT =>
    show ExactAt _ _ _ _ (consAsUInt _ _ _) ↔ _
    exact consExpr1_exact_iff small o _ fits (by rfl) (asUInt_dvd_iff o)
  | OP_ASSINT =>
    show ExactAt _ _ _ _ (consAsSInt _ _ _) ↔ _
    exact consExpr1_exact_iff small o _ fits (by rfl) (asSInt_dvd_iff o)
  | OP_ASCLOCK =>
    show ExactAt _ _ _ _ (consAsClock _ _ _) ↔ _
    have one : o.width = 1 := adm
    refine consExpr1_exact_iff small o _ fits (by rfl) (iff_of_true ?_ trivial)
    show (2 : Int) ^ 1 ∣ o.value - o.value % 2 ^ o.width
    rw [one]
    exact Int.dvd_self_sub_emod
  | OP_ASASYNCRESET =>
    show ExactAt _ _ _ _ (consAsAsyncReset _ _ _) ↔ _
    have one : o.width = 1 := adm
    refine consExpr1_exact_iff small o _ fits (by rfl) (iff_of_true ?_ trivial)
    show (2 : Int) ^ 1 ∣ o.value - o.value % 2 ^ o.width
    rw [one]
    exact Int.dvd_self_sub_emod
  | OP_CVT =>
    show ExactAt _ _ _ _ (consCvt _ _ _) ↔ _
    exact consExpr1_exact_iff small o _ fits (by rfl) (same _ _ _ rfl)
  | OP_NEG =>
    show ExactAt _ _ _ _ (consNeg _ _ _) ↔ _
    exact consExpr1_exact_iff small o _ fits (by rfl) (same _ _ _ (zero_sub _))
  | OP_NOT =>
    show ExactAt _ _ _ _ (consNot _ _ _) ↔ _
    exact consExpr1_exact_iff small o _ fits (by rfl) (not_dvd_iff o)
  | OP_ANDR =>
    show ExactAt _ _ _ _ (consAndr _ _ _) ↔ _
    apply consExpr1_exact_iff small o _ fits (by rfl)
    rw [← andr_eq_iff]
    apply dvd_sub_iff_eq _ fits
    rw [u_andr, ofCond_eq_truth]
    exact fits_truth _
  | OP_ORR =>
    show ExactAt _ _ _ _ (consOrr _ _ _) ↔ _
    exact consExpr1_exact_iff small o _ fits (by rfl) (same _ _ _ (orr_eq o))
  | OP_XORR =>
    show ExactAt _ _ _ _ (consXorr _ _ _) ↔ _
    apply consExpr1_exact_iff small o _ fits (by rfl)
    rw [← xorr_eq_iff]
    apply dvd_sub_iff_eq _ fits
    show Fits false 1 ((mpz_popcount o.value % 2 : Nat) : Int)
    apply fits_unsigned.mpr
    omega

/-! ## Operators with integer arguments -/

/-- What the folded number has to satisfy to be right, at a positive width. -/
def Expr1Int1When (op : OpExpr1Int1) (o : Operand) (n : Nat) : Prop :=
  match op with
  | .OP_PAD => True
  | .OP_SHL => o.sign = false
  | .OP_SHR => 0 ≤ o.value
  | .OP_HEAD => 0 ≤ o.value ∨ (2 : Int) ^ (o.width - n) ∣ o.value
  | .OP_TAIL => 0 ≤ o.value ∨ o.width - n ≤ o.consWidth

section IntArguments

variable (o : Operand)

/-- Handing the child's record on keeps its value. -/
theorem exactAt_child {width : Nat} (h : o.width ≤ width) :
    ExactAt width o.sign (o.isConstant = true) (some o.value) (some o.cons) := by
  refine ⟨o.cons, rfl, fun constant => constant, fun constant => ?_⟩
  have eq : o.cons.consVal = o.value := o.constant constant
  refine ⟨?_, fun y hy => ?_⟩
  · rw [eq]
    exact o.fits_width.mono h
  · cases hy
    exact eq

/-- Sign extension of a signed word leaves it as it is. -/
theorem s_pad_eq {c : Nat} {v : Int} (fits : Fits true c v) (n : Nat) : s_pad v c n = v := by
  unfold s_pad mpz_mul_2exp
  split
  · rfl
  · rename_i ext
    have neg : v < 0 := by omega
    have bounds := fits.bounds
    rw [allOnes_eq]
    exact lor_sign_extension _ _ _ (ones_range _).1 (by omega)

theorem fits_signed_shift {w n : Nat} {v : Int} (fits : Fits true w v) (h : n < w) :
    Fits true (w - n) (v / 2 ^ n) := by
  obtain ⟨k, rfl⟩ : ∃ k, w = n + (k + 1) := ⟨w - n - 1, by omega⟩
  have pos := two_pow_pos n
  have split : (2 : Int) ^ (n + (k + 1)) = 2 * (2 ^ k * 2 ^ n) := by ring
  rw [fits_signed, split] at fits
  have lower : -2 ^ k ≤ v / 2 ^ n := by
    rw [Int.le_ediv_iff_mul_le pos, neg_mul]
    omega
  have upper : v / 2 ^ n < 2 ^ k := by
    rw [Int.ediv_lt_iff_lt_mul pos]
    omega
  rw [Nat.add_sub_cancel_left, fits_signed, pow_succ]
  omega

theorem consPad_exact (n : Nat) (small : max o.width n < 2 ^ 31) :
    ExactAt (max o.width n) o.sign (o.isConstant = true) (some o.value)
      (consPad (max o.width n) o.sign o.toChild n) := by
  have fits := o.fits_width.mono (le_max_left o.width n)
  have record := o.fits_consWidth
  unfold consPad
  cases h : o.sign with
  | false =>
    have child := exactAt_child o (le_max_left o.width n)
    rw [h] at child
    exact child
  | true =>
    rw [h] at fits record
    by_cases narrow : max o.width n ≤ o.consWidth
    · have child := exactAt_child o (le_max_left o.width n)
      rw [h] at child
      rw [if_pos (by simpa using narrow)]
      exact child
    · rw [if_neg (by simpa using narrow)]
      apply (consExpr1_exactAt small o _ fits (by rfl)).mpr
      intro _
      rw [if_pos rfl, s_pad_eq record, sub_self]
      exact dvd_zero _

theorem consShl_exact_iff (n : Nat) (small : o.width + n < 2 ^ 31) :
    ExactAt (o.width + n) o.sign (o.isConstant = true) (some (o.value * 2 ^ n))
        (consShl (o.width + n) o.sign o.toChild n) ↔
      (o.isConstant = true → o.sign = false) := by
  have fits := fits_mul_two_pow o.fits_width (le_refl n)
  cases h : o.sign with
  | false =>
    rw [h] at fits
    refine iff_of_true ?_ (fun _ => rfl)
    apply (consExpr1_exactAt small o _ fits (by rfl)).mpr
    intro _
    rw [u_shl, mpz_mul_2exp, sub_self]
    exact dvd_zero _
  | true =>
    apply (consExpr1_abort o _ _ rfl).trans
    simp

/-- `s_shr` shifts its destination, still zero, when the source is negative. -/
theorem consShr_exact_iff (n : Nat) (small : o.width - n < 2 ^ 31) (wide : 0 < o.width - n) :
    ExactAt (o.width - n) o.sign (o.isConstant = true)
        (some (wrap o.sign (o.width - n) (o.value / 2 ^ n)))
        (consShr (o.width - n) o.sign o.toChild n) ↔
      (o.isConstant = true → 0 ≤ o.value) := by
  have fits := fits_wrap o.sign (o.width - n) (o.value / 2 ^ n)
  have low := dvd_wrap_sub o.sign (o.width - n) (o.value / 2 ^ n)
  by_cases nonneg : 0 ≤ o.value
  · refine iff_of_true ?_ (fun _ => nonneg)
    apply (consExpr1_exactAt small o _ fits (by rfl)).mpr
    intro _
    cases h : o.sign with
    | false =>
      rw [h] at low
      rw [if_neg (by decide), u_shr, mpz_tdiv_q_2exp_of_nonneg nonneg]
      exact low
    | true =>
      rw [h] at low
      rw [if_pos rfl, s_shr, if_neg (not_lt.mpr nonneg), mpz_tdiv_q_2exp_of_nonneg nonneg]
      exact low
  · have signed : o.sign = true := by
      have range := o.fits_width
      cases h : o.sign with
      | false =>
        rw [h, fits_unsigned] at range
        exact absurd range.1 nonneg
      | true => rfl
    apply (consExpr1_exactAt small o _ fits (by rfl)).trans
    apply imp_congr_right
    intro _
    refine iff_of_false ?_ nonneg
    have range := o.fits_width
    rw [signed] at range fits
    have shifted := fits_signed_shift range (show n < o.width by omega)
    have neg : o.value / 2 ^ n < 0 :=
      Int.ediv_neg_of_neg_of_pos (not_le.mp nonneg) (two_pow_pos n)
    rw [signed, if_pos rfl, s_shr, if_pos (not_le.mp nonneg), mpz_fdiv_q_2exp_eq, Int.zero_ediv,
      dvd_sub_iff_eq (Fits.zero true _) fits, wrap_of_fits shifted]
    omega

/-- Modulo the kept width, the bits above a position are those of the value itself. -/
theorem pattern_ediv_dvd {l m : Nat} (h : m + l ≤ o.width) :
    (2 : Int) ^ m ∣ o.value / 2 ^ l - o.toWord.pattern / 2 ^ l := by
  have pos := two_pow_pos l
  rcases lt_or_ge o.value 0 with neg | nonneg
  · have split : (2 : Int) ^ o.width = 2 ^ l * 2 ^ (o.width - l) := two_pow_split (by omega)
    rw [o.pattern_of_neg neg, split, Int.add_mul_ediv_left _ _ (ne_of_gt pos), sub_add_cancel_left,
      dvd_neg, two_pow_dvd]
    omega
  · rw [o.pattern_of_nonneg nonneg, sub_self]
    exact dvd_zero _

theorem consHead_exact_iff (n : Nat) (le : n ≤ o.width) (wide : 0 < n) (small : n < 2 ^ 31) :
    ExactAt n false (o.isConstant = true) (some (o.toWord.pattern / 2 ^ (o.width - n)))
        (consHead n false o.toChild (o.width - n)) ↔
      (o.isConstant = true → 0 ≤ o.value ∨ (2 : Int) ^ (o.width - n) ∣ o.value) := by
  have fits : Fits false n (o.toWord.pattern / 2 ^ (o.width - n)) := fits_pattern_div o.toWord le
  have arg : ((o.width : Int) - n).toNat = o.width - n := by omega
  have low := pattern_ediv_dvd o (show n + (o.width - n) ≤ o.width by omega)
  rw [consHead, if_pos (by omega), arg]
  refine consExpr1_exact_iff small o _ fits (by rfl) ?_
  show (2 : Int) ^ n ∣ mpz_tdiv_q_2exp o.value (o.width - n) - _ ↔ _
  rw [mpz_tdiv_q_2exp, Int.tdiv_eq_ediv]
  by_cases round : 0 ≤ o.value ∨ (2 : Int) ^ (o.width - n) ∣ o.value
  · rw [if_pos round, add_zero]
    exact iff_of_true low round
  · -- truncation is one above the floor
    rw [if_neg round, Int.sign_eq_one_of_pos (two_pow_pos _), add_sub_right_comm,
      dvd_add_right low]
    refine iff_of_false (fun one => ?_) round
    have := two_pow_dvd.mp (show (2 : Int) ^ n ∣ 2 ^ 0 from one)
    omega

theorem consTail_exact_iff (n : Nat) (wide : 0 < o.width - n) (small : o.width - n < 2 ^ 31) :
    ExactAt (o.width - n) false (o.isConstant = true)
        (some (o.toWord.pattern % 2 ^ (o.width - n)))
        (consTail (o.width - n) false o.toChild (o.width - n)) ↔
      (o.isConstant = true → 0 ≤ o.value ∨ o.width - n ≤ o.consWidth) := by
  have fits := fits_unsigned.mpr (emod_range o.toWord.pattern (o.width - n))
  have arg : (min ((o.width - n : Nat) : Int) ((o.width : Int) - n)).toNat = o.width - n := by omega
  have low : (2 : Int) ^ (o.width - n) ∣ o.value - o.toWord.pattern % 2 ^ (o.width - n) := by
    have cut : o.toWord.pattern % 2 ^ (o.width - n) = o.value % 2 ^ (o.width - n) :=
      Int.emod_emod_of_dvd _ (two_pow_dvd.mpr (Nat.sub_le _ _))
    rw [cut]
    exact Int.dvd_self_sub_emod
  rw [consTail, arg]
  refine consExpr1_exact_iff small o _ fits (by rfl) ?_
  rw [u_tail, allOnes_eq, mask_land, mask_land]
  by_cases neg : o.value < 0
  · have split : mpz_mul_2exp 1 o.consWidth + o.value - o.toWord.pattern % 2 ^ (o.width - n) =
        2 ^ o.consWidth + (o.value - o.toWord.pattern % 2 ^ (o.width - n)) := by
      rw [mpz_mul_2exp]
      ring
    rw [if_neg (ne_of_lt neg), if_pos neg, dvd_emod_sub_iff, split, dvd_add_left low, two_pow_dvd]
    constructor
    · exact .inr
    · exact fun h => h.resolve_left (not_le.mpr neg)
  · refine iff_of_true ?_ (.inl (not_lt.mp neg))
    rw [if_neg neg]
    split
    · exact low
    · exact dvd_emod_sub_iff.mpr low

/-- The bits `hi..lo` of the number `u_bits` starts from. -/
theorem u_bits_eq (hi lo : Nat) :
    u_bits o.value o.consWidth hi lo =
      (if o.value < 0 then 2 ^ o.consWidth + o.value else o.value) / 2 ^ lo % 2 ^ (hi - lo + 1) := by
  have bounds := o.fits_consWidth.bounds
  rw [u_bits, allOnes_eq, land_mask, mpz_mul_2exp, one_mul, mpz_tdiv_q_2exp_of_nonneg]
  split <;> omega

theorem u_bits_noshift_eq (hi lo : Nat) :
    u_bits_noshift o.value o.consWidth hi lo =
      2 ^ lo * ((if o.value < 0 then 2 ^ o.consWidth + o.value else o.value) / 2 ^ lo %
        2 ^ (hi - lo + 1)) := by
  rw [u_bits_noshift, allOnes_eq, mpz_mul_2exp, one_mul]
  exact land_shifted_mask _ _ _

/-- Above the record's width a negative value is extended by zeros, not by its sign. -/
theorem field_eq_iff {hi lo : Nat} (order : lo ≤ hi) (inside : hi < o.width) :
    (if o.value < 0 then 2 ^ o.consWidth + o.value else o.value) / 2 ^ lo % 2 ^ (hi - lo + 1) =
        o.toWord.pattern / 2 ^ lo % 2 ^ (hi - lo + 1) ↔
      0 ≤ o.value ∨ hi < o.consWidth := by
  have low := pattern_ediv_dvd o (show hi - lo + 1 + lo ≤ o.width by omega)
  have pos := two_pow_pos lo
  have bounds := o.fits_consWidth.bounds
  rw [← dvd_sub_iff_eq (fits_unsigned.mpr (emod_range _ _)) (fits_unsigned.mpr (emod_range _ _)),
    dvd_emod_sub_iff, ← dvd_neg, neg_sub, dvd_emod_sub_iff, ← dvd_neg, neg_sub]
  by_cases neg : o.value < 0
  · rw [if_pos neg, or_iff_right (not_le.mpr neg)]
    by_cases above : o.consWidth ≤ lo
    · -- nothing of the record is left, while the value is all sign
      have wide := two_pow_le above
      have zero : (2 ^ o.consWidth + o.value) / 2 ^ lo = 0 :=
        Int.ediv_eq_zero_of_lt (by omega) (by omega)
      have minus : o.value / 2 ^ lo = -1 := by
        rw [ediv_of_wide (by omega), if_pos neg]
      refine iff_of_false (fun dvd => ?_) (by omega)
      rw [zero] at dvd
      rw [minus] at low
      have one : (2 : Int) ^ (hi - lo + 1) ∣ 2 ^ 0 := by
        have sum := dvd_sub dvd low
        rwa [sub_sub_sub_cancel_right] at sum
      have := two_pow_dvd.mp one
      omega
    · have split : (2 : Int) ^ o.consWidth = 2 ^ lo * 2 ^ (o.consWidth - lo) :=
        two_pow_split (by omega)
      rw [split, add_comm (2 ^ lo * _) o.value, Int.add_mul_ediv_left _ _ (ne_of_gt pos),
        add_sub_right_comm, dvd_add_right low, two_pow_dvd]
      omega
  · rw [if_neg neg]
    exact iff_of_true low (.inl (not_lt.mp neg))

/-- The bits above the record's width are zero exactly when the value is not negative. -/
theorem field_eq_zero_iff {hi lo : Nat} (order : lo ≤ hi) (inside : hi < o.width)
    (above : o.consWidth ≤ lo) :
    0 = o.toWord.pattern / 2 ^ lo % 2 ^ (hi - lo + 1) ↔ 0 ≤ o.value := by
  have bounds := o.fits_consWidth.bounds
  have wide := two_pow_le above
  have zero : (if o.value < 0 then 2 ^ o.consWidth + o.value else o.value) / 2 ^ lo = 0 := by
    apply Int.ediv_eq_zero_of_lt
    · split <;> omega
    · split <;> omega
  have field := field_eq_iff o order inside
  rw [zero, Int.zero_emod, or_iff_left (by omega)] at field
  exact field

/-- A field extraction; without a constant it still answers zero above the record's width. -/
theorem consField_exact_iff {width hi lo : Nat} (small : width < 2 ^ 31) {y v : Int}
    (fitsY : Fits false width y) (fitsV : Fits false width v) (inside : lo < o.width)
    (field : v = y ↔ 0 ≤ o.value ∨ hi < o.consWidth)
    (zero : o.consWidth ≤ lo → (0 = y ↔ 0 ≤ o.value)) {folded : Option Int}
    (hf : o.isConstant = true → folded = some v) :
    ExactAt width false (o.isConstant = true) (some y)
        (consOne (.new width false) o.toChild folded
          (if decide (o.width ≤ lo) || decide (o.consWidth ≤ lo) then (ValInfo.new width false).set 0
            else .new width false)) ↔
      (o.isConstant = true → 0 ≤ o.value ∨ hi < o.consWidth) ∧
        (¬ o.isConstant = true → 0 ≤ o.value ∨ lo < o.consWidth) := by
  unfold consOne
  by_cases constant : o.isConstant = true
  · rw [if_pos constant, hf constant, Option.map_some, exactAt_set small fitsY,
      dvd_sub_iff_eq fitsV fitsY, field]
    exact ⟨fun h => ⟨fun _ => h, fun open_ => absurd constant open_⟩, fun h => h.1 constant⟩
  · rw [if_neg constant, decide_eq_false (not_le.mpr inside), Bool.false_or]
    have only : ∀ q : Prop, (o.isConstant = true → 0 ≤ o.value ∨ hi < o.consWidth) ∧
        (¬ o.isConstant = true → q) ↔ q :=
      fun q => ⟨fun h => h.2 constant, fun h => ⟨fun c => absurd c constant, fun _ => h⟩⟩
    rw [only]
    by_cases above : o.consWidth ≤ lo
    · rw [if_pos (decide_eq_true above), exactAt_set small fitsY,
        dvd_sub_iff_eq (Fits.zero false width) fitsY, zero above, or_iff_left (not_lt.mpr above)]
    · rw [if_neg (by simpa using above)]
      exact iff_of_true (exactAt_new _ constant) (.inr (not_le.mp above))

theorem expr1Int2_exact_iff (op : OpExpr1Int2) (hi lo : Nat)
    (small : (op.inferWidth hi lo).1 < 2 ^ 31) (adm : Admissible (.expr1Int2 op o.toWord hi lo)) :
    ExactAt (op.inferWidth hi lo).1 (op.inferWidth hi lo).2 (o.isConstant = true)
        (some (OpExpr1Int2.firrtl op o.toWord hi lo))
        (op.cons (op.inferWidth hi lo).1 (op.inferWidth hi lo).2 o.toChild hi lo) ↔
      (o.isConstant = true → 0 ≤ o.value ∨ hi < o.consWidth) ∧
        (¬ o.isConstant = true → 0 ≤ o.value ∨ lo < o.consWidth) := by
  obtain ⟨order, inside⟩ : lo ≤ hi ∧ hi < o.width := adm
  have fits := expr1Int2_fits op o.toWord hi lo ⟨order, inside⟩
  have field := field_eq_iff o order inside
  have zero := fun above => field_eq_zero_iff o order inside above
  cases op with
  | OP_BITS =>
    apply consField_exact_iff o small fits _ (by omega) field zero
    · intro h
      rw [o.consVal_eq h]
      exact congrArg some (u_bits_eq o hi lo)
    · exact fits_unsigned.mpr (emod_range _ _)
  | OP_BITS_NOSHIFT =>
    have pos := two_pow_pos lo
    have width : hi + 1 = hi - lo + 1 + lo := by omega
    have shifted : ∀ x y : Int, 2 ^ lo * x = 2 ^ lo * y ↔ x = y := fun x y =>
      mul_right_inj' (ne_of_gt pos)
    apply consField_exact_iff o small fits _ (by omega) ((shifted _ _).trans field)
    · intro above
      have scaled := shifted 0 (o.toWord.pattern / 2 ^ lo % 2 ^ (hi - lo + 1))
      rw [mul_zero] at scaled
      exact scaled.trans (zero above)
    · intro h
      rw [o.consVal_eq h]
      exact congrArg some (u_bits_noshift_eq o hi lo)
    · show Fits false (hi + 1) _
      rw [width, mul_comm]
      exact fits_mul_two_pow (fits_unsigned.mpr (emod_range _ _)) (le_refl lo)

theorem expr1Int1_exact_iff (op : OpExpr1Int1) (n : Nat)
    (small : (op.inferWidth o.width o.sign n).1 < 2 ^ 31)
    (adm : Admissible (.expr1Int1 op o.toWord n)) (wide : 0 < (op.inferWidth o.width o.sign n).1) :
    ExactAt (op.inferWidth o.width o.sign n).1 (op.inferWidth o.width o.sign n).2
        (o.isConstant = true) (some (OpExpr1Int1.firrtl op o.toWord n))
        (op.cons (op.inferWidth o.width o.sign n).1 (op.inferWidth o.width o.sign n).2 o.toChild n) ↔
      (o.isConstant = true → Expr1Int1When op o n) := by
  cases op with
  | OP_PAD => exact iff_of_true (consPad_exact o n small) (fun _ => trivial)
  | OP_SHL => exact consShl_exact_iff o n small
  | OP_SHR => exact consShr_exact_iff o n small wide
  | OP_HEAD => exact consHead_exact_iff o n adm wide small
  | OP_TAIL =>
    have le : n ≤ o.width := adm
    have type : OpExpr1Int1.OP_TAIL.inferWidth o.width o.sign n = (o.width - n, false) :=
      if_neg (not_lt.mpr le)
    rw [type] at small wide ⊢
    exact consTail_exact_iff o n wide small

end IntArguments

/-! ## Multiplexers -/

/-- A multiplexer hands a record on; it never computes a number. -/
theorem mux_exact (c a b : Operand) (same : a.sign = b.sign) :
    ExactAt (max a.width b.width) a.sign
      (c.isConstant = true ∧ a.isConstant = true ∧ b.isConstant = true)
      (some (if c.value ≠ 0 then a.value else b.value))
      (consMux (max a.width b.width) a.sign c.toChild a.toChild b.toChild) := by
  have left := exactAt_child a (le_max_left a.width b.width)
  have right := exactAt_child b (le_max_right a.width b.width)
  rw [← same] at right
  have weaken : ∀ {p q : Prop} {x r}, (q → p) → ExactAt (max a.width b.width) a.sign p x r →
      ExactAt (max a.width b.width) a.sign q x r :=
    fun h ⟨info, eq, all, folds⟩ => ⟨info, eq, fun hq => all (h hq), folds⟩
  unfold consMux
  by_cases constant : c.isConstant = true
  · rw [if_pos constant, c.consVal_eq constant]
    by_cases zero : c.value = 0
    · rw [if_pos zero, if_neg (fun ne => ne zero)]
      exact weaken (fun h => h.2.2) right
    · rw [if_neg zero, if_pos zero]
      exact weaken (fun h => h.2.1) left
  · rw [if_neg constant]
    by_cases equal : (a.isConstant && (b.isConstant && a.consVal == b.consVal)) = true
    · rw [if_pos equal]
      simp only [Bool.and_eq_true, beq_iff_eq] at equal
      obtain ⟨ca, cb, eq⟩ := equal
      rw [a.consVal_eq ca, b.consVal_eq cb] at eq
      rw [← eq, ite_self]
      exact weaken (fun h => h.2.1) left
    · rw [if_neg equal]
      exact exactAt_new _ (fun h => constant h.1)

end Gsim.ConstantFolding
