/-
  Gsim/InstsDivShift.lean
  =======================
  **Division, remainder and dynamic right shift in the generated code**
  (`instsDIv`, `instsRem`, `instsDshr` of `instsGenerator.cpp`) against constant
  folding (`consDIv`, `consRem`, `consDshr`).

  The text of an operand is represented by the C++ value it evaluates to, in
  whatever type its own expression has.  Division is guarded by the macro `gdiv`.
  The remainder has no such guard, and the shift none against amounts that reach the
  width of the promoted operand.  `usedBits` may have narrowed the node: the folder
  cuts its constant to the width, the text of a quotient or a remainder is not cut.
-/
import Gsim.CppInteger
import Gsim.ConstantNode

namespace Gsim.InstsGenerator

open CppInteger OpFuncs ConstantNode

/-! ## 1. Types and literals of the generated code (`common.h`, `util.cpp`) -/

def widthBits (width : Nat) : Nat :=
  if width ≤ 8 then 8
  else if width ≤ 16 then 16
  else if width ≤ 32 then 32
  else if width ≤ 64 then 64
  else (width + 63) / 64 * 64

/-- `uint8_t` .. `uint64_t`, then `unsigned _BitInt` of a multiple of 64 bits. -/
def widthUType (width : Nat) : CType := ⟨widthBits width, false, decide (64 < width)⟩

/-- The type of a hexadecimal literal, or of `UINT_CONCATn` for more than 16 digits. -/
def literalType (v : Nat) : CType :=
  if v < 2 ^ 31 then int
  else if v < 2 ^ 32 then ⟨32, false, false⟩
  else if v < 2 ^ 63 then ⟨64, true, false⟩
  else if v < 2 ^ 64 then ⟨64, false, false⟩
  else ⟨(v.log2 / 64 + 1) * 64, false, true⟩

def literal (v : Nat) : CVal := ⟨literalType v, v⟩

/-- `upperCast(width1, width2, false)` in front of an expression. -/
def upperCast (width1 width2 : Nat) (e : CExpr) : CExpr :=
  if widthBits width2 < widthBits width1 then .cast (widthUType width1) e else e

/-- `bitMask`. -/
def bitMask (width : Nat) : CExpr :=
  if width ≤ 64 then .value (literal (2 ^ width - 1))
  else if width % 64 = 0 then .sub (.cast (widthUType width) (.value (literal 0))) (.value (literal 1))
  else .sub (.shl (.cast (widthUType width) (.value (literal 1))) (.value (literal width)))
    (.value (literal 1))

/-- `#define gdiv(a, b) ((b) == 0 ? 0 : (a) / (b))` -/
def gdiv (a b : CExpr) : CExpr := .cond (.eq b (.value (literal 0))) (.value (literal 0)) (.div a b)

/-! ## 2. The three operators -/

/-- An unsigned operand: the width of the `ENode`, the width and status of its `valInfo`, and
    the value of its text.  The text of a constant is its literal. -/
structure Operand where
  width : Nat
  infoWidth : Nat
  constant : Bool
  value : CVal
  width_lt : width < 2 ^ 31
  infoWidth_le : infoWidth ≤ width
  holds : value.Holds
  value_lt : value.val < 2 ^ infoWidth
  literal_eq : constant = true → value = literal value.val.toNat

inductive Op where
  | div
  | rem
  | dshr
deriving DecidableEq, Repr

/-- `inferWidth`. -/
def Op.inferWidth (op : Op) (o0 o1 : Operand) : Nat :=
  match op with
  | .div => o0.width
  | .rem => min o0.width o1.width
  | .dshr => o0.width

section Insts

variable (width : Nat) (o0 o1 : Operand)

def instsDIv : CExpr :=
  if o0.constant && o1.constant then
    .value (literal (us_div 0 o0.value.val o0.infoWidth o1.value.val o1.infoWidth).toNat)
  else gdiv (upperCast width o0.infoWidth (.value o0.value)) (.value o1.value)

def instsRem : CExpr :=
  if o0.constant && o1.constant then
    .value (literal (us_rem 0 o0.value.val o0.infoWidth o1.value.val o1.infoWidth).toNat)
  else .rem (upperCast width o0.infoWidth (.value o0.value)) (.value o1.value)

def instsDshr : CExpr :=
  if o0.constant && o1.constant then
    .value (literal (u_dshr o0.value.val o0.infoWidth o1.value.val o1.infoWidth).toNat)
  else if o1.constant && o1.value.val == 0 then
    if width = o0.infoWidth then .value o0.value else .and (.value o0.value) (bitMask width)
  else .and (.shr (.cast (widthUType o0.infoWidth) (.value o0.value)) (.value o1.value))
    (bitMask width)

end Insts

/-- `ENode::compute`: an expression of width zero is the constant zero. -/
def compute (op : Op) (width : Nat) (o0 o1 : Operand) : CExpr :=
  if width = 0 then .value (literal 0)
  else
    match op with
    | .div => instsDIv width o0 o1
    | .rem => instsRem width o0 o1
    | .dshr => instsDshr width o0 o1

/-- The operand as a constant. -/
def Operand.toChild (o : Operand) : Child :=
  ⟨o.width, false, ⟨.VAL_CONSTANT, o.value.val, o.infoWidth, false⟩⟩

/-- `ENode::computeConstant` when both operands are constants. -/
def computeConstant (op : Op) (width : Nat) (o0 o1 : Operand) : Option ValInfo :=
  if width = 0 then some ((ValInfo.new 0 false).set 0)
  else
    match op with
    | .div => consDIv width false o0.toChild o1.toChild
    | .rem => consRem width false o0.toChild o1.toChild
    | .dshr => consDshr width false o0.toChild o1.toChild

/-- The generated expression has a value, and it is the folded constant. -/
def Agrees (op : Op) (width : Nat) (o0 o1 : Operand) : Prop :=
  ∃ v info, (compute op width o0 o1).eval = some v ∧ computeConstant op width o0 o1 = some info ∧
    v.val = info.consVal

/-- The width at which the shifted operand's promoted type ends. -/
def promotedBits (width : Nat) : Nat := (widthUType width).promote.bits

/-! ## 3. Facts about types and masks -/

theorem le_widthBits (width : Nat) : width ≤ widthBits width := by
  unfold widthBits
  repeat' split
  all_goals omega

theorem widthUType_limit (width : Nat) : (widthUType width).limit = 2 ^ widthBits width := rfl

theorem two_pow_le_limit {w width : Nat} (h : w ≤ width) :
    (2 : Int) ^ w ≤ (widthUType width).limit := by
  rw [widthUType_limit]
  exact pow_le_pow_right₀ (by decide) (h.trans (le_widthBits width))

theorem literal_holds (v : Nat) : (literal v).Holds := by
  refine ⟨Int.natCast_nonneg v, ?_⟩
  show (v : Int) < (literalType v).limit
  unfold literalType CType.limit
  repeat' split
  all_goals simp only [int, Bool.false_eq_true] at *
  all_goals try omega
  -- a value of more than 64 bits takes as many words as its bits need
  have hlog : v < 2 ^ ((v.log2 / 64 + 1) * 64) := by
    apply Nat.lt_log2_self.trans_le
    apply Nat.pow_le_pow_right (by decide)
    omega
  exact_mod_cast hlog

theorem promotedBits_lt {width : Nat} (h : width < 2 ^ 31) : promotedBits width < 2 ^ 64 := by
  unfold promotedBits CType.promote widthUType widthBits
  repeat' split
  all_goals simp only [int] at *
  all_goals omega

/-- A cast to a type that is wide enough changes nothing. -/
theorem eval_cast {t : CType} {v : CVal} (hv : v.Holds) (hlt : v.val < t.limit) :
    (CExpr.cast t (.value v)).eval = some ⟨t, v.val⟩ := by
  simp only [CExpr.eval, Option.map_some, CType.convert_of_lt hv.nonneg hlt]

/-- An operand is only cast to a wider type. -/
theorem eval_upperCast (width : Nat) (o : Operand) :
    ∃ t, (upperCast width o.infoWidth (.value o.value)).eval = some ⟨t, o.value.val⟩ ∧
      o.value.val < t.limit := by
  unfold upperCast
  split
  · next hwider =>
    have hlt : o.value.val < (widthUType width).limit := by
      rw [widthUType_limit]
      apply o.value_lt.trans_le
      exact pow_le_pow_right₀ (by decide) ((le_widthBits _).trans hwider.le)
    exact ⟨_, eval_cast o.holds hlt, hlt⟩
  · exact ⟨_, rfl, o.holds.lt⟩

theorem widthUType_promote {width : Nat} (h : 64 < width) :
    (widthUType width).promote = widthUType width := by
  simp [CType.promote, widthUType, h]

theorem literal_promote {v : Nat} (h : v < 2 ^ 31) : (literal v).type.promote = int := by
  rw [literal, literalType, if_pos h]
  rfl

theorem usual_wide {width : Nat} (h : 64 < width) : CType.usual (widthUType width) int =
    widthUType width := by
  have hbits : 64 < widthBits width := h.trans_le (le_widthBits width)
  have hrank : int.rank ≤ (widthUType width).rank := by
    show 65 ≤ 2 * widthBits width + _
    omega
  have hdiff : ¬ (widthUType width).signed = int.signed := by
    simp [widthUType, int]
  rw [CType.usual, if_neg hdiff, if_neg (by simp [widthUType]), CType.mixed, if_pos hrank]

/-- Subtracting one from a wide unsigned value. -/
theorem eval_sub_one {width : Nat} {e : CExpr} {v : Int} (h : 64 < width)
    (he : e.eval = some ⟨widthUType width, v⟩) (h0 : 0 ≤ v) (hlt : v < 2 ^ widthBits width) :
    (CExpr.sub e (.value (literal 1))).eval =
      some ⟨widthUType width, (v - 1) % 2 ^ widthBits width⟩ := by
  have hone : (widthUType width).convert (literal 1).val = 1 := by
    apply CType.convert_of_lt (by decide)
    rw [widthUType_limit]
    exact one_lt_pow₀ (by decide) (by have := le_widthBits width; omega)
  have hv : (widthUType width).convert v = v := CType.convert_of_lt h0 hlt
  simp only [CExpr.eval, he, Option.bind_some, CExpr.arith, widthUType_promote h,
    literal_promote (show 1 < 2 ^ 31 by decide), usual_wide h, hone, hv]
  rfl

theorem eval_bitMask (width : Nat) :
    ∃ t, (bitMask width).eval = some ⟨t, 2 ^ width - 1⟩ ∧ (2 : Int) ^ width - 1 < t.limit := by
  have hpos : (0 : Int) < 2 ^ width := pow_pos (by decide) width
  unfold bitMask
  split
  · have hcast : ((2 ^ width - 1 : Nat) : Int) = 2 ^ width - 1 := by
      rw [Nat.cast_sub Nat.one_le_two_pow]
      push_cast
      rfl
    have hholds := (literal_holds (2 ^ width - 1)).lt
    refine ⟨literalType (2 ^ width - 1), ?_, ?_⟩
    · rw [← hcast]
      rfl
    · rw [← hcast]
      exact hholds
  · next hwide =>
    have hwide : 64 < width := by omega
    have hle := le_widthBits width
    have hbound : (2 : Int) ^ width ≤ 2 ^ widthBits width := pow_le_pow_right₀ (by decide) hle
    split
    · next hmul =>
      -- `(type)0 - 1` wraps around
      have hbits : widthBits width = width := by
        unfold widthBits
        repeat' split
        all_goals omega
      have hzero : (CExpr.cast (widthUType width) (.value (literal 0))).eval =
          some ⟨widthUType width, 0⟩ := by
        apply eval_cast (literal_holds 0)
        rw [widthUType_limit]
        exact pow_pos (by decide) _
      refine ⟨widthUType width, ?_, ?_⟩
      · rw [eval_sub_one hwide hzero (le_refl 0) (pow_pos (by decide) _), hbits]
        have hwrap : ((0 : Int) - 1) = (2 ^ width - 1) + 2 ^ width * (-1) := by omega
        rw [hwrap, Int.add_mul_emod_self_left, Int.emod_eq_of_lt (by omega) (by omega)]
      · rw [widthUType_limit]
        omega
    · next hmul =>
      have hlt : width < widthBits width := by
        unfold widthBits
        repeat' split
        all_goals omega
      have hone : (CExpr.cast (widthUType width) (.value (literal 1))).eval =
          some ⟨widthUType width, 1⟩ := by
        apply eval_cast (literal_holds 1)
        rw [widthUType_limit]
        exact one_lt_pow₀ (by decide) (by omega)
      have hstrict : (2 : Int) ^ width < 2 ^ widthBits width :=
        pow_lt_pow_right₀ (by decide) hlt
      have hshl : (CExpr.shl (.cast (widthUType width) (.value (literal 1)))
          (.value (literal width))).eval = some ⟨widthUType width, 2 ^ width⟩ := by
        simp only [CExpr.eval] at hone ⊢
        rw [hone]
        simp only [Option.bind_some, CExpr.shift, widthUType_promote hwide]
        rw [if_pos]
        · rw [show (literal width).val.toNat = width from rfl, one_mul]
          exact CExpr.result_of_lt hpos.le hstrict
        · exact ⟨Int.natCast_nonneg _, Int.ofNat_lt.mpr hlt⟩
      refine ⟨widthUType width, ?_, ?_⟩
      · rw [eval_sub_one hwide hshl hpos.le hstrict, Int.emod_eq_of_lt (by omega) (by omega)]
      · rw [widthUType_limit]
        omega

/-! ## 4. What the folder computes -/

section Agreement

variable (op : Op) (o0 o1 : Operand)

/-- The quotient, the remainder or the shifted value, read as a number. -/
def folded : Int :=
  match op with
  | .div => if o1.value.val = 0 then 0 else o0.value.val / o1.value.val
  | .rem => if o1.value.val = 0 then 0 else o0.value.val % o1.value.val
  | .dshr => o0.value.val / 2 ^ mpz_get_ui o1.value.val

variable {o0} in
theorem Operand.value_lt_width : o0.value.val < 2 ^ o0.width :=
  o0.value_lt.trans_le (pow_le_pow_right₀ (by decide) o0.infoWidth_le)

theorem folded_nonneg : 0 ≤ folded op o0 o1 := by
  have h0 := o0.holds.nonneg
  have h1 := o1.holds.nonneg
  cases op with
  | div =>
    simp only [folded]
    split
    · exact le_refl 0
    · exact Int.ediv_nonneg h0 h1
  | rem =>
    simp only [folded]
    split
    · exact le_refl 0
    · next hne => exact Int.emod_nonneg _ hne
  | dshr => exact Int.ediv_nonneg h0 (pow_nonneg (by decide) _)

theorem us_div_eq : us_div 0 o0.value.val o0.infoWidth o1.value.val o1.infoWidth =
    folded .div o0 o1 := by
  simp only [us_div, folded]
  split
  · rfl
  · exact Int.tdiv_eq_ediv_of_nonneg o0.holds.nonneg

theorem us_rem_eq : us_rem 0 o0.value.val o0.infoWidth o1.value.val o1.infoWidth =
    folded .rem o0 o1 := by
  simp only [us_rem, folded]
  split
  · rfl
  · exact Int.tmod_eq_emod_of_nonneg o0.holds.nonneg

theorem u_dshr_eq : u_dshr o0.value.val o0.infoWidth o1.value.val o1.infoWidth =
    folded .dshr o0 o1 :=
  Int.tdiv_eq_ediv_of_nonneg o0.holds.nonneg

/-- Folding both operands: the value is cut to the width. -/
theorem set_folded (width : Nat) :
    ((ValInfo.new width false).set (folded op o0 o1)).consVal = folded op o0 o1 % 2 ^ width := by
  show Int.land (folded op o0 o1) (allOnes width) = _
  rw [allOnes_eq]
  exact TwosComplement.land_mask _ _

theorem computeConstant_eq (width : Nat) :
    ∃ info, computeConstant op width o0 o1 = some info ∧
      info.consVal = folded op o0 o1 % 2 ^ width := by
  unfold computeConstant
  split
  · next hzero =>
    refine ⟨_, rfl, ?_⟩
    rw [hzero, pow_zero, Int.emod_one]
    exact TwosComplement.land_ones 0 0 ⟨le_refl 0, by decide⟩
  · cases op with
    | div =>
      refine ⟨_, rfl, ?_⟩
      rw [← set_folded .div o0 o1, ← us_div_eq]
      rfl
    | rem =>
      refine ⟨_, rfl, ?_⟩
      rw [← set_folded .rem o0 o1, ← us_rem_eq]
      rfl
    | dshr =>
      refine ⟨_, rfl, ?_⟩
      rw [← set_folded .dshr o0 o1, ← u_dshr_eq]
      rfl

theorem agrees_iff (width : Nat) : Agrees op width o0 o1 ↔
    ∃ v, (compute op width o0 o1).eval = some v ∧ v.val = folded op o0 o1 % 2 ^ width := by
  obtain ⟨info, hinfo, hval⟩ := computeConstant_eq op o0 o1 width
  constructor
  · rintro ⟨v, info', hv, hinfo', heq⟩
    rw [hinfo] at hinfo'
    cases hinfo'
    exact ⟨v, hv, heq.trans hval⟩
  · rintro ⟨v, hv, heq⟩
    exact ⟨v, info, hv, hinfo, heq.trans hval.symm⟩

/-- The value has no more bits than the node. -/
def Fits (width : Nat) : Prop := folded op o0 o1 < 2 ^ width

theorem fits_iff (width : Nat) :
    Fits op o0 o1 width ↔ folded op o0 o1 = folded op o0 o1 % 2 ^ width := by
  constructor
  · exact fun fits => (Int.emod_eq_of_lt (folded_nonneg op o0 o1) fits).symm
  · intro same
    rw [Fits, same]
    exact Int.emod_lt_of_pos _ (pow_pos (by decide) width)

/-- At the width that `inferWidth` gives every value fits: only a narrowed node cuts one. -/
theorem fits_inferWidth : Fits op o0 o1 (op.inferWidth o0 o1) := by
  have h0 := o0.holds.nonneg
  have h1 := o1.holds.nonneg
  have hlt0 := o0.value_lt_width
  have hlt1 := o1.value_lt_width
  cases op with
  | div =>
    simp only [Fits, folded, Op.inferWidth]
    split
    · exact pow_pos (by decide) _
    · exact (Int.ediv_le_self _ h0).trans_lt hlt0
  | rem =>
    simp only [Fits, folded, Op.inferWidth]
    split
    · exact pow_pos (by decide) _
    · next hne =>
      have hpos : 0 < o1.value.val := lt_of_le_of_ne h1 (Ne.symm hne)
      rcases min_choice o0.width o1.width with hmin | hmin
      · rw [hmin]
        exact (emod_le_left h0 h1).trans_lt hlt0
      · rw [hmin]
        exact (Int.emod_lt_of_pos _ hpos).trans hlt1
  | dshr => exact (Int.ediv_le_self _ h0).trans_lt hlt0

/-! ## 5. What the generated code computes -/

/-- The folded value as a literal. -/
theorem literal_folded : (literal (folded op o0 o1).toNat).val = folded op o0 o1 :=
  Int.toNat_of_nonneg (folded_nonneg op o0 o1)

/-- An expression that is defined under a condition, and has one value then. -/
theorem exists_eval_iff {e : CExpr} {defined : Prop} {f m : Int}
    (value : defined → ∃ v, e.eval = some v ∧ v.val = f) (undefined : ¬ defined → e.eval = none) :
    (∃ v, e.eval = some v ∧ v.val = m) ↔ defined ∧ f = m := by
  by_cases def_ : defined
  · obtain ⟨v, hv, hf⟩ := value def_
    rw [and_iff_right def_]
    constructor
    · rintro ⟨v', hv', hm⟩
      rw [hv] at hv'
      cases hv'
      exact hf.symm.trans hm
    · exact fun same => ⟨v, hv, hf.trans same⟩
  · refine iff_of_false ?_ fun both => def_ both.1
    rintro ⟨v, hv, -⟩
    rw [undefined def_] at hv
    cases hv

theorem instsDIv_eval (width : Nat) : ∃ v, (instsDIv width o0 o1).eval = some v ∧
    v.val = folded .div o0 o1 := by
  unfold instsDIv
  split
  · rw [us_div_eq]
    exact ⟨_, rfl, literal_folded .div o0 o1⟩
  obtain ⟨t, ht, hlt⟩ := eval_upperCast width o0
  have ha : CVal.Holds ⟨t, o0.value.val⟩ := ⟨o0.holds.nonneg, hlt⟩
  have hzero : ∀ s : CType, s.convert 0 = 0 := by
    intro s
    exact CType.convert_of_lt (le_refl 0) (pow_pos (by decide) _)
  have hcond : (CExpr.eq (.value o1.value) (.value (literal 0))).eval =
      some ⟨bool, if o1.value.val = 0 then 1 else 0⟩ := by
    simp only [CExpr.eval, Option.bind_some, o1.holds.convert_left]
    rw [show (literal 0).val = 0 from rfl, hzero]
  have hvalue : (CExpr.value o1.value).eval = some o1.value := rfl
  by_cases h0 : o1.value.val = 0
  · rw [if_pos h0] at hcond
    refine ⟨_, CExpr.eval_cond hcond (literal_holds 0) rfl, ?_⟩
    simp only [folded, h0, if_true]
    rfl
  · rw [if_neg h0] at hcond
    have hdiv := CExpr.eval_div ht hvalue ha o1.holds h0
    have hq : CVal.Holds ⟨CType.usual t.promote o1.value.type.promote,
        o0.value.val / o1.value.val⟩ := by
      refine ⟨Int.ediv_nonneg o0.holds.nonneg o1.holds.nonneg, ?_⟩
      have hlimit := t.limit_le_promote.trans
        (CType.limit_le_usual t.promote o1.value.type.promote).1
      exact ((Int.ediv_le_self _ o0.holds.nonneg).trans_lt hlt).trans_le hlimit
    refine ⟨_, CExpr.eval_cond hcond hq hdiv, ?_⟩
    simp only [folded, h0, if_false]

theorem instsRem_eval (width : Nat) (defined : (o0.constant && o1.constant) = true ∨ o1.value.val ≠ 0) :
    ∃ v, (instsRem width o0 o1).eval = some v ∧ v.val = folded .rem o0 o1 := by
  unfold instsRem
  split
  · rw [us_rem_eq]
    exact ⟨_, rfl, literal_folded .rem o0 o1⟩
  next hconst =>
  rcases defined with hboth | h0
  · exact absurd hboth hconst
  obtain ⟨t, ht, hlt⟩ := eval_upperCast width o0
  have hvalue : (CExpr.value o1.value).eval = some o1.value := rfl
  refine ⟨_, CExpr.eval_rem ht hvalue ⟨o0.holds.nonneg, hlt⟩ o1.holds h0, ?_⟩
  simp only [folded, h0, if_false]

theorem instsRem_undefined (width : Nat)
    (undefined : ¬ ((o0.constant && o1.constant) = true ∨ o1.value.val ≠ 0)) :
    (instsRem width o0 o1).eval = none := by
  rw [not_or, not_not] at undefined
  obtain ⟨hconst, h0⟩ := undefined
  rw [instsRem, if_neg hconst]
  obtain ⟨t, ht, -⟩ := eval_upperCast width o0
  exact CExpr.eval_rem_zero ht rfl o1.holds h0

/-- The mask at the end of a shift cuts the value to the width. -/
theorem eval_masked (width : Nat) {e : CExpr} {v : CVal} (he : e.eval = some v) (hv : v.Holds) :
    ∃ t, (CExpr.and e (bitMask width)).eval = some ⟨t, v.val % 2 ^ width⟩ := by
  obtain ⟨t, ht, hmask⟩ := eval_bitMask width
  have hpos : (0 : Int) < 2 ^ width := pow_pos (by decide) width
  have hm : CVal.Holds ⟨t, 2 ^ width - 1⟩ := ⟨by show (0 : Int) ≤ 2 ^ width - 1; omega, hmask⟩
  exact ⟨_, CExpr.eval_and_mask he ht hv hm rfl⟩

theorem promotedBits_pos (width : Nat) : 0 < promotedBits width := by
  unfold promotedBits CType.promote widthUType widthBits int
  repeat' split
  all_goals simp
  all_goals omega

theorem instsDshr_eval (width : Nat) (hconst : ¬ (o0.constant && o1.constant) = true)
    (amount : o1.value.val < promotedBits o0.infoWidth) :
    ∃ v, (instsDshr width o0 o1).eval = some v ∧ v.val = folded .dshr o0 o1 % 2 ^ width := by
  have hword := promotedBits_lt (o0.infoWidth_le.trans_lt o0.width_lt)
  have hui : mpz_get_ui o1.value.val = o1.value.val.toNat :=
    mpz_get_ui_of_lt o1.holds.nonneg (amount.trans (by exact_mod_cast hword))
  have hfold : folded .dshr o0 o1 = o0.value.val / 2 ^ o1.value.val.toNat := by
    simp only [folded, hui]
  rw [instsDshr, if_neg hconst]
  split
  · -- a shift by the constant zero
    next hzero =>
    have h0 : o1.value.val = 0 := by
      simp only [Bool.and_eq_true, beq_iff_eq] at hzero
      exact hzero.2
    have hsame : folded .dshr o0 o1 = o0.value.val := by
      rw [hfold, h0]
      exact Int.ediv_one _
    rw [hsame]
    split
    · next hwidth =>
      refine ⟨_, rfl, ?_⟩
      rw [hwidth]
      exact (Int.emod_eq_of_lt o0.holds.nonneg o0.value_lt).symm
    · have hvalue : (CExpr.value o0.value).eval = some o0.value := rfl
      obtain ⟨t, ht⟩ := eval_masked width hvalue o0.holds
      exact ⟨_, ht, rfl⟩
  · have hlt := o0.value_lt.trans_le (two_pow_le_limit (le_refl o0.infoWidth))
    have hcast := eval_cast o0.holds hlt
    have hvalue : (CExpr.value o1.value).eval = some o1.value := rfl
    have hshr := CExpr.eval_shr hcast hvalue ⟨o0.holds.nonneg, hlt⟩ o1.holds amount
    have hres : CVal.Holds ⟨(widthUType o0.infoWidth).promote, folded .dshr o0 o1⟩ := by
      refine ⟨folded_nonneg .dshr o0 o1, ?_⟩
      rw [hfold]
      exact ((Int.ediv_le_self _ o0.holds.nonneg).trans_lt hlt).trans_le (CType.limit_le_promote _)
    rw [← hfold] at hshr
    obtain ⟨t, ht⟩ := eval_masked width hshr hres
    exact ⟨_, ht, rfl⟩

theorem instsDshr_undefined (width : Nat) (hconst : ¬ (o0.constant && o1.constant) = true)
    (amount : ¬ o1.value.val < promotedBits o0.infoWidth) : (instsDshr width o0 o1).eval = none := by
  have nonzero : ¬ (o1.constant && o1.value.val == 0) = true := by
    intro hzero
    simp only [Bool.and_eq_true, beq_iff_eq] at hzero
    apply amount
    rw [hzero.2]
    exact_mod_cast promotedBits_pos o0.infoWidth
  have hcast := eval_cast o0.holds (o0.value_lt.trans_le (two_pow_le_limit (le_refl o0.infoWidth)))
  have hnone := CExpr.eval_shr_wide hcast (r := .value o1.value) rfl (not_lt.mp amount)
  rw [instsDshr, if_neg hconst, if_neg nonzero]
  simp only [CExpr.eval] at hnone ⊢
  rw [hnone]
  rfl

/-- The operands on which an operator has a defined value. -/
def Defined : Prop :=
  match op with
  | .div => True
  | .rem => o1.value.val ≠ 0
  | .dshr => o1.value.val < promotedBits o0.infoWidth

end Agreement


/-- **The generated code agrees with the folder** exactly where C++ defines the operation (division
    everywhere, the remainder off a zero divisor, the shift below the width of the promoted operand)
    and the quotient or remainder fits the node, since only the text of a shift ends with a mask.
    Constant operands are folded by the generator, without a mask, and a node of width zero is never
    computed. -/
theorem compute_agrees_iff (op : Op) (width : Nat) (o0 o1 : Operand) :
    Agrees op width o0 o1 ↔ width = 0 ∨
      if o0.constant && o1.constant then Fits op o0 o1 width
      else Defined op o0 o1 ∧ (op = .dshr ∨ Fits op o0 o1 width) := by
  rw [agrees_iff]
  unfold compute
  split
  · next hzero =>
    refine iff_of_true ⟨_, rfl, ?_⟩ (.inl hzero)
    rw [hzero, pow_zero, Int.emod_one]
    rfl
  next hwidth =>
  rw [or_iff_right hwidth]
  cases op with
  | div =>
    have value : True → ∃ v, (instsDIv width o0 o1).eval = some v ∧ v.val = folded .div o0 o1 :=
      fun _ => instsDIv_eval o0 o1 width
    show (∃ v, (instsDIv width o0 o1).eval = some v ∧ _) ↔ _
    rw [exists_eval_iff value fun undefined => absurd trivial undefined, ← fits_iff]
    split <;> simp [Defined]
  | rem =>
    show (∃ v, (instsRem width o0 o1).eval = some v ∧ _) ↔ _
    rw [exists_eval_iff (instsRem_eval o0 o1 width) (instsRem_undefined o0 o1 width), ← fits_iff]
    split
    · next hconst => simp [hconst]
    · next hconst => simp [hconst, Defined]
  | dshr =>
    show (∃ v, (instsDshr width o0 o1).eval = some v ∧ _) ↔ _
    split
    · next hconst =>
      have value : True → ∃ v, (instsDshr width o0 o1).eval = some v ∧ v.val = folded .dshr o0 o1 := by
        intro _
        rw [instsDshr, if_pos hconst, u_dshr_eq]
        exact ⟨_, rfl, literal_folded .dshr o0 o1⟩
      rw [exists_eval_iff value fun undefined => absurd trivial undefined, ← fits_iff]
      exact and_iff_right trivial
    · next hconst =>
      rw [exists_eval_iff (instsDshr_eval o0 o1 width hconst) (instsDshr_undefined o0 o1 width hconst)]
      simp [Defined]

/-- A variable of the node's own type. -/
def nodeVariable (width : Nat) (v : Nat) (hw : width < 2 ^ 31) (hv : v < 2 ^ width) : Operand where
  width := width
  infoWidth := width
  constant := false
  value := ⟨widthUType width, v⟩
  width_lt := hw
  infoWidth_le := le_refl _
  holds := by
    have hlt : (v : Int) < 2 ^ width := by exact_mod_cast hv
    exact ⟨Int.natCast_nonneg v, hlt.trans_le (two_pow_le_limit (le_refl width))⟩
  value_lt := by
    show (v : Int) < 2 ^ width
    exact_mod_cast hv
  literal_eq h := by cases h

/-- A zero divisor traps, a shift of an 8-bit value by 32 has no value, and a quotient of 8 bits is
    not cut to the 4 bits that are used of it. -/
theorem compute_disagrees :
    ¬ Agrees .rem 8 (nodeVariable 8 7 (by decide) (by decide)) (nodeVariable 8 0 (by decide) (by decide)) ∧
    ¬ Agrees .dshr 8 (nodeVariable 8 7 (by decide) (by decide)) (nodeVariable 6 32 (by decide) (by decide)) ∧
    ¬ Agrees .div 4 (nodeVariable 8 200 (by decide) (by decide)) (nodeVariable 8 1 (by decide) (by decide)) := by
  refine ⟨?_, ?_, ?_⟩
  · rintro ⟨v, info, hv, -⟩
    have hnone : (compute .rem 8 (nodeVariable 8 7 (by decide) (by decide))
      (nodeVariable 8 0 (by decide) (by decide))).eval = none := by decide
    rw [hnone] at hv
    cases hv
  · rintro ⟨v, info, hv, -⟩
    have hnone : (compute .dshr 8 (nodeVariable 8 7 (by decide) (by decide))
      (nodeVariable 6 32 (by decide) (by decide))).eval = none := by decide
    rw [hnone] at hv
    cases hv
  · rintro ⟨v, info, hv, hinfo, same⟩
    have runs : ((compute .div 4 (nodeVariable 8 200 (by decide) (by decide))
      (nodeVariable 8 1 (by decide) (by decide))).eval.map CVal.val) = some 200 := by decide
    have folds : ((computeConstant .div 4 (nodeVariable 8 200 (by decide) (by decide))
      (nodeVariable 8 1 (by decide) (by decide))).map ValInfo.consVal) = some 8 := by decide
    rw [hv, Option.map_some] at runs
    rw [hinfo, Option.map_some, ← same] at folds
    exact absurd (runs.symm.trans folds) (by decide)

end Gsim.InstsGenerator
