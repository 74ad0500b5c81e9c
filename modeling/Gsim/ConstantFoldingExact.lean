/-
  Gsim/ConstantFoldingExact.lean
  ==============================
  **Which operator applications fold to their FIRRTL value.**

  The two theorems at the end of the sections below state, over every operator,
  every operand width and every operand value, exactly when `computeConstant`
  meets its contract: for unsigned operands it misses only in five operators, for
  signed ones in thirteen.  Each comes with the smallest tree on which it misses.
-/
import Gsim.ConstantFoldingUnary

namespace Gsim.ConstantFolding

open Gsim.TwosComplement Gsim.OpFuncs Gsim.ConstantNode Gsim.FirrtlSemantics

/-! ## Sites -/

/-- When folding a site of positive width is exact. -/
def ExactWhen : Application Operand → Prop
  | .expr1 op o => o.isConstant = true → Expr1When op o
  | .expr1Int1 op o n => o.isConstant = true → Expr1Int1When op o n
  | .expr1Int2 _ o hi lo =>
    (o.isConstant = true → 0 ≤ o.value ∨ hi < o.consWidth) ∧
      (¬ o.isConstant = true → 0 ≤ o.value ∨ lo < o.consWidth)
  | .expr2 op o0 o1 => o0.isConstant = true ∧ o1.isConstant = true → Expr2When op o0 o1
  | .mux _ _ _ => True

namespace Site

/-- A node without bits folds to zero, which is the only value it can have. -/
theorem exact_of_width_zero (s : Site) (empty : s.width = 0) : s.Exact := by
  unfold Exact computeConstant Application.computeConstant
  rw [if_pos empty]
  cases hx : s.firrtl with
  | none => exact exactAt_set_none s.width_lt 0
  | some y =>
    have typed : ∀ w ∈ (s.app.map Operand.toWord).children, w.WellTyped := by
      intro w hw
      cases happ : s.app with
      | expr1 _ o | expr1Int1 _ o _ | expr1Int2 _ o _ _ =>
        rw [happ] at hw
        cases List.mem_singleton.mp hw
        exact o.wellTyped
      | expr2 _ o0 o1 =>
        rw [happ] at hw
        rcases List.mem_cons.mp hw with rfl | hw
        · exact o0.wellTyped
        · cases List.mem_singleton.mp hw
          exact o1.wellTyped
      | mux c a b =>
        rw [happ] at hw
        rcases List.mem_cons.mp hw with rfl | hw
        · exact c.wellTyped
        · rcases List.mem_cons.mp hw with rfl | hw
          · exact a.wellTyped
          · cases List.mem_singleton.mp hw
            exact b.wellTyped
    have inferred : ((s.app.map Operand.toWord).map Word.type).inferWidth =
        some (s.width, s.sign) := by
      rw [← s.inferred]
      cases s.app <;> rfl
    have fits := firrtl_fits _ typed s.admissible inferred hx
    rw [exactAt_set s.width_lt fits]
    rw [empty] at fits
    rw [fits.eq_zero, sub_zero]
    exact dvd_zero _

theorem exact_iff (s : Site) (wide : 0 < s.width) : s.Exact ↔ ExactWhen s.app := by
  obtain ⟨app, width, sign, inferred, small, adm⟩ := s
  have positive : ¬ width = 0 := Nat.pos_iff_ne_zero.mp wide
  unfold Exact computeConstant Application.computeConstant
  simp only [if_neg positive, AllConstant]
  cases app with
  | expr1 op o =>
    have type : op.inferWidth o.width o.sign = (width, sign) := Option.some.inj inferred
    have core := expr1_exact_iff op o (by rw [type]; exact small) adm
    rw [type] at core
    simp only [Application.children, List.mem_singleton, forall_eq]
    exact core
  | expr1Int1 op o n =>
    have type : op.inferWidth o.width o.sign n = (width, sign) := Option.some.inj inferred
    have core := expr1Int1_exact_iff o op n (by rw [type]; exact small) adm
      (by rw [type]; exact wide)
    rw [type] at core
    simp only [Application.children, List.mem_singleton, forall_eq]
    exact core
  | expr1Int2 op o hi lo =>
    have type : op.inferWidth hi lo = (width, sign) := Option.some.inj inferred
    have core := expr1Int2_exact_iff o op hi lo (by rw [type]; exact small) adm
    rw [type] at core
    simp only [Application.children, List.mem_singleton, forall_eq]
    exact core
  | expr2 op o0 o1 =>
    have core := expr2_exact_iff op o0 o1 inferred small adm wide
    simp only [Application.children, List.mem_cons, forall_eq_or_imp, List.not_mem_nil,
      false_imp_iff, implies_true, and_true]
    exact core
  | mux c a b =>
    have type : (max a.width b.width, a.sign) = (width, sign) := Option.some.inj inferred
    cases type
    have core := mux_exact c a b adm.2.2
    simp only [Application.children, List.mem_cons, forall_eq_or_imp, List.not_mem_nil,
      false_imp_iff, implies_true, and_true]
    exact iff_of_true core trivial

end Site

/-! ## Unsigned operands -/

/-- A site whose operands are all unsigned. -/
structure UnsignedSite extends Site where
  unsigned : ∀ o ∈ app.children, o.sign = false

/-- Five operators read the width in their child's record, or only 64 bits of a shift
    amount; every other one is exact on every operand. -/
def UnsignedExactWhen : Application Operand → Prop
  | .expr1 .OP_NOT o => o.consWidth = o.width
  | .expr1 .OP_ANDR o => o.consWidth = o.width ∨ o.value ≠ 2 ^ o.consWidth - 1
  | .expr1 .OP_ASSINT o => o.consWidth = o.width ∨ 2 * o.value < 2 ^ o.consWidth
  | .expr2 .OP_DSHR o0 o1 => o1.value < 2 ^ 64 ∨ o0.value < 2 ^ (o1.value % 2 ^ 64).toNat
  | .expr2 .OP_CAT o0 o1 => o0.value = 0 ∨ o1.consWidth = o1.width
  | _ => True

namespace UnsignedSite

variable (s : UnsignedSite)

theorem nonneg {o : Operand} (ho : o ∈ s.app.children) : 0 ≤ o.value := by
  have fits := o.fits_width
  rw [s.unsigned o ho, fits_unsigned] at fits
  exact fits.1

theorem expr1When_iff (op : OpExpr1) (o : Operand) (unsigned : o.sign = false)
    (nonneg : 0 ≤ o.value) : Expr1When op o ↔ UnsignedExactWhen (.expr1 op o) := by
  cases op with
  | OP_ASUINT | OP_XORR => exact iff_of_true (.inl nonneg) trivial
  | OP_ASSINT =>
    rw [Expr1When, unsigned, or_iff_right (by decide)]
    exact Iff.rfl
  | OP_ANDR =>
    rw [Expr1When, unsigned, if_neg (by decide)]
    exact Iff.rfl
  | OP_NOT | OP_ASCLOCK | OP_ASASYNCRESET | OP_CVT | OP_NEG | OP_ORR => exact Iff.rfl

theorem expr2When_iff (op : OpExpr2) (o0 o1 : Operand) (unsigned : o0.sign = false)
    (nonneg0 : 0 ≤ o0.value) (nonneg1 : 0 ≤ o1.value) :
    Expr2When op o0 o1 ↔ UnsignedExactWhen (.expr2 op o0 o1) := by
  cases op with
  | OP_DSHL => exact iff_of_true unsigned trivial
  | OP_DSHR =>
    rw [Expr2When, unsigned, if_neg (by decide)]
    exact Iff.rfl
  | OP_CAT => exact ⟨fun h => h.2.2, fun h => ⟨nonneg0, nonneg1, h⟩⟩
  | OP_ADD | OP_SUB | OP_MUL | OP_DIV | OP_REM | OP_LT | OP_LEQ | OP_GT | OP_GEQ | OP_EQ | OP_NEQ
  | OP_AND | OP_OR | OP_XOR => exact Iff.rfl

/-- On unsigned operands the general condition is the short one. -/
theorem exactWhen_iff : ExactWhen s.app ↔ (s.AllConstant → UnsignedExactWhen s.app) := by
  have nonneg := fun o (ho : o ∈ s.app.children) => s.nonneg ho
  have unsigned := s.unsigned
  unfold Site.AllConstant
  cases happ : s.app with
  | expr1 op o =>
    simp only [happ, Application.children, List.mem_singleton, forall_eq] at nonneg unsigned ⊢
    exact imp_congr_right fun _ => expr1When_iff op o unsigned nonneg
  | expr1Int1 op o n =>
    simp only [happ, Application.children, List.mem_singleton, forall_eq] at nonneg unsigned ⊢
    refine iff_of_true (fun _ => ?_) (fun _ => trivial)
    cases op with
    | OP_PAD => trivial
    | OP_SHL => exact unsigned
    | OP_SHR => exact nonneg
    | OP_HEAD | OP_TAIL => exact .inl nonneg
  | expr1Int2 op o hi lo =>
    simp only [happ, Application.children, List.mem_singleton, forall_eq] at nonneg
    exact iff_of_true ⟨fun _ => .inl nonneg, fun _ => .inl nonneg⟩ (fun _ => trivial)
  | expr2 op o0 o1 =>
    simp only [happ, Application.children, List.mem_cons, forall_eq_or_imp, List.not_mem_nil,
      false_imp_iff, implies_true, and_true] at nonneg unsigned ⊢
    exact imp_congr_right fun _ => expr2When_iff op o0 o1 unsigned.1 nonneg.1 nonneg.2
  | mux c a b => exact iff_of_true trivial (fun _ => trivial)

/-- At width zero the short condition holds by itself. -/
theorem unsignedExactWhen_of_width_zero (empty : s.width = 0) : UnsignedExactWhen s.app := by
  have nonneg := fun o (ho : o ∈ s.app.children) => s.nonneg ho
  have inferred := s.inferred
  rw [empty] at inferred
  cases happ : s.app with
  | expr1 op o =>
    rw [happ] at inferred
    have width : (op.inferWidth o.width o.sign).1 = 0 :=
      congrArg Prod.fst (Option.some.inj inferred)
    have record := o.consWidth_le
    cases op with
    | OP_NOT =>
      have none_ : o.width = 0 := width
      show o.consWidth = o.width
      omega
    | OP_ASSINT =>
      have none_ : o.width = 0 := width
      exact .inl (show o.consWidth = o.width by omega)
    | OP_ANDR => cases width
    | OP_ASUINT | OP_ASCLOCK | OP_ASASYNCRESET | OP_CVT | OP_NEG | OP_ORR | OP_XORR => trivial
  | expr1Int1 op o n => trivial
  | expr1Int2 op o hi lo => trivial
  | expr2 op o0 o1 =>
    rw [happ] at inferred
    have inferred2 : op.inferWidth o0.width o0.sign o1.width o1.sign = some (0, s.sign) := inferred
    cases op with
    | OP_DSHR =>
      have none_ : o0.width = 0 := congrArg Prod.fst (Option.some.inj inferred2)
      have fits := o0.fits_width
      rw [none_] at fits
      right
      rw [fits.eq_zero]
      exact two_pow_pos _
    | OP_CAT =>
      simp only [OpExpr2.inferWidth] at inferred2
      split at inferred2
      · have none_ : o0.width + o1.width = 0 := congrArg Prod.fst (Option.some.inj inferred2)
        have record := o1.consWidth_le
        exact .inr (by omega)
      · cases inferred2
    | OP_ADD | OP_SUB | OP_MUL | OP_DIV | OP_REM | OP_LT | OP_LEQ | OP_GT | OP_GEQ | OP_EQ
    | OP_NEQ | OP_DSHL | OP_AND | OP_OR | OP_XOR => trivial
  | mux c a b => trivial

end UnsignedSite

/-- Constant folding of an operator on unsigned operands is exact if and only if the node is
    not one of the five above in the case named there. -/
theorem unsigned_folding_exact_iff (s : UnsignedSite) :
    s.Exact ↔ (s.AllConstant → UnsignedExactWhen s.app) := by
  rcases Nat.eq_zero_or_pos s.width with empty | wide
  · exact iff_of_true (s.exact_of_width_zero empty)
      (fun _ => s.unsignedExactWhen_of_width_zero empty)
  · rw [s.exact_iff wide, s.exactWhen_iff]

/-- `pad(UInt<4>(5), 8)` as the folder records it: a value of width 8 in a record of width 4. -/
def padded : Operand where
  width := 8
  sign := false
  cons := ⟨.VAL_CONSTANT, 5, 4, false⟩
  value := 5
  cons_le := by decide
  fits := by decide
  constant := fun _ => rfl
  width_lt := by decide

/-- `not(pad(UInt<4>(5), 8))`. -/
def notPadded : UnsignedSite where
  app := .expr1 .OP_NOT padded
  width := 8
  sign := false
  inferred := rfl
  width_lt := by decide
  admissible := trivial
  unsigned := by simp [Application.children, padded]

/-- Folding the tree reaches that record, and its negation is 10 where FIRRTL has 250. -/
theorem notPadded_not_exact :
    (ENode.expr1Int1 .OP_PAD (.int 4 false 5) 8 : ENode Empty).compute nofun =
        some padded.toChild ∧
      notPadded.computeConstant = some ⟨.VAL_CONSTANT, 10, 8, false⟩ ∧
      notPadded.firrtl = some 250 ∧ ¬ notPadded.Exact := by
  have result : notPadded.computeConstant = some ⟨.VAL_CONSTANT, 10, 8, false⟩ := by decide
  have value : notPadded.firrtl = some 250 := by decide
  refine ⟨by decide, result, value, ?_⟩
  rintro ⟨info, eq, -, folds⟩
  rw [result] at eq
  cases eq
  have wrong := (folds rfl).2 250 value
  exact absurd wrong (by decide)

/-! ## Signed operands -/

/-- The operands FIRRTL allows to be signed are: all but a shift amount and a condition. -/
def SignedOperands : Application Operand → Prop
  | .expr1 _ o | .expr1Int1 _ o _ | .expr1Int2 _ o _ _ => o.sign = true
  | .expr2 _ o0 _ => o0.sign = true
  | .mux _ a _ => a.sign = true

structure SignedSite extends Site where
  signed : SignedOperands app

/-- When folding signed constants is exact.  `shl` and `dshl` are not written for them,
    `s_shr` loses a negative source, `cat` asserts against one, the reductions and bit
    extractions take the sign for granted or extend it with zeros. -/
def SignedExactWhen : Application Operand → Prop
  | .expr1 .OP_ASUINT o => 0 ≤ o.value ∨ o.consWidth = o.width
  | .expr1 .OP_NOT o => o.consWidth = o.width
  | .expr1 .OP_ANDR o => o.value ≠ -1 ∧ (o.consWidth = 0 → o.width = 0)
  | .expr1 .OP_XORR o => 0 ≤ o.value ∨ ones o.width o.value % 2 = 1
  | .expr1Int1 .OP_SHL o n => o.width + n = 0
  | .expr1Int1 .OP_SHR o n => 0 ≤ o.value ∨ o.width ≤ n
  | .expr1Int1 .OP_HEAD o n => 0 ≤ o.value ∨ n = 0 ∨ (2 : Int) ^ (o.width - n) ∣ o.value
  | .expr1Int1 .OP_TAIL o n => 0 ≤ o.value ∨ o.width - n ≤ o.consWidth
  | .expr1Int2 _ o hi _ => 0 ≤ o.value ∨ hi < o.consWidth
  | .expr2 .OP_DSHL o0 o1 => o0.width = 0 ∧ o1.width = 0
  | .expr2 .OP_DSHR o0 o1 =>
    o1.value < 2 ^ 31 ∨ 2 ^ 31 ≤ o1.value % 2 ^ 32 ∨
      (-2 ^ (o1.value % 2 ^ 32).toNat ≤ o0.value ∧ o0.value < 2 ^ (o1.value % 2 ^ 32).toNat)
  | .expr2 .OP_CAT o0 o1 => 0 ≤ o0.value ∧ 0 ≤ o1.value ∧ (o0.value = 0 ∨ o1.consWidth = o1.width)
  | _ => True

/-- When an answer given without constants is exact: only a field extraction gives one that
    a sign can spoil. -/
def SignedOpenWhen : Application Operand → Prop
  | .expr1Int2 _ o _ lo => 0 ≤ o.value ∨ lo < o.consWidth
  | _ => True

namespace SignedSite

variable (s : SignedSite)

theorem expr1When_iff (op : OpExpr1) (o : Operand) (signed : o.sign = true) :
    Expr1When op o ↔ SignedExactWhen (.expr1 op o) := by
  cases op with
  | OP_ASSINT => exact iff_of_true (.inl signed) trivial
  | OP_ANDR =>
    rw [Expr1When, signed, if_pos rfl]
    exact Iff.rfl
  | OP_ASUINT | OP_NOT | OP_XORR | OP_ASCLOCK | OP_ASASYNCRESET | OP_CVT | OP_NEG | OP_ORR =>
    exact Iff.rfl

theorem expr1Int1When_iff (op : OpExpr1Int1) (o : Operand) (n : Nat) (signed : o.sign = true)
    (wide : 0 < (op.inferWidth o.width o.sign n).1) :
    Expr1Int1When op o n ↔ SignedExactWhen (.expr1Int1 op o n) := by
  cases op with
  | OP_PAD | OP_TAIL => exact Iff.rfl
  | OP_SHL =>
    have some_ : 0 < o.width + n := wide
    refine iff_of_false (fun h => ?_) (Nat.pos_iff_ne_zero.mp some_)
    rw [Expr1Int1When, signed] at h
    cases h
  | OP_SHR =>
    have some_ : 0 < o.width - n := wide
    exact ⟨.inl, fun h => h.resolve_right (by omega)⟩
  | OP_HEAD =>
    have some_ : 0 < n := wide
    exact or_congr_right (or_iff_right (Nat.pos_iff_ne_zero.mp some_)).symm

theorem expr2When_iff (op : OpExpr2) (o0 o1 : Operand) (signed : o0.sign = true)
    (shift : op = .OP_DSHL → o0.width + 2 ^ o1.width - 1 ≠ 0) :
    Expr2When op o0 o1 ↔ SignedExactWhen (.expr2 op o0 o1) := by
  cases op with
  | OP_DSHL =>
    refine iff_of_false (fun h => ?_) (fun h => shift rfl ?_)
    · rw [Expr2When, signed] at h
      cases h
    · rw [h.1, h.2]
      rfl
  | OP_DSHR =>
    rw [Expr2When, signed, if_pos rfl]
    exact Iff.rfl
  | OP_CAT => exact Iff.rfl
  | OP_ADD | OP_SUB | OP_MUL | OP_DIV | OP_REM | OP_LT | OP_LEQ | OP_GT | OP_GEQ | OP_EQ | OP_NEQ
  | OP_AND | OP_OR | OP_XOR => exact Iff.rfl

/-- On signed operands and at a positive width the general condition is the one above. -/
theorem exactWhen_iff (wide : 0 < s.width) :
    ExactWhen s.app ↔
      (s.AllConstant → SignedExactWhen s.app) ∧ (¬ s.AllConstant → SignedOpenWhen s.app) := by
  have signed := s.signed
  have inferred := s.inferred
  unfold Site.AllConstant
  cases happ : s.app with
  | expr1 op o =>
    rw [happ] at signed
    simp only [Application.children, List.mem_singleton, forall_eq]
    refine Iff.trans ?_ (and_iff_left (fun _ => trivial)).symm
    exact imp_congr_right fun _ => expr1When_iff op o signed
  | expr1Int1 op o n =>
    rw [happ] at signed inferred
    have width : (op.inferWidth o.width o.sign n).1 = s.width :=
      congrArg Prod.fst (Option.some.inj inferred)
    simp only [Application.children, List.mem_singleton, forall_eq]
    refine Iff.trans ?_ (and_iff_left (fun _ => trivial)).symm
    exact imp_congr_right fun _ => expr1Int1When_iff op o n signed (width ▸ wide)
  | expr1Int2 op o hi lo =>
    simp only [Application.children, List.mem_singleton, forall_eq]
    exact Iff.rfl
  | expr2 op o0 o1 =>
    rw [happ] at signed inferred
    simp only [Application.children, List.mem_cons, forall_eq_or_imp, List.not_mem_nil,
      false_imp_iff, implies_true, and_true]
    refine Iff.trans ?_ (and_iff_left (fun _ => trivial)).symm
    refine imp_congr_right fun _ => expr2When_iff op o0 o1 signed fun shift zero => ?_
    subst shift
    simp only [Application.map, Application.inferWidth, OpExpr2.inferWidth, Child.type] at inferred
    split at inferred
    · have width := congrArg Prod.fst (Option.some.inj inferred)
      simp only at width
      omega
    · cases inferred
  | mux c a b => exact iff_of_true trivial ⟨fun _ => trivial, fun _ => trivial⟩

theorem when_of_width_zero (empty : s.width = 0) :
    SignedExactWhen s.app ∧ SignedOpenWhen s.app := by
  have inferred := s.inferred
  have admissible := s.admissible
  rw [empty] at inferred
  cases happ : s.app with
  | expr1 op o =>
    rw [happ] at inferred
    have width : (op.inferWidth o.width o.sign).1 = 0 :=
      congrArg Prod.fst (Option.some.inj inferred)
    have record := o.consWidth_le
    refine ⟨?_, trivial⟩
    cases op with
    | OP_NOT =>
      have none_ : o.width = 0 := width
      show o.consWidth = o.width
      omega
    | OP_ASUINT =>
      have none_ : o.width = 0 := width
      exact .inr (show o.consWidth = o.width by omega)
    | OP_ANDR | OP_XORR => cases width
    | OP_ASSINT | OP_ASCLOCK | OP_ASASYNCRESET | OP_CVT | OP_NEG | OP_ORR => trivial
  | expr1Int1 op o n =>
    rw [happ] at inferred admissible
    have width : (op.inferWidth o.width o.sign n).1 = 0 :=
      congrArg Prod.fst (Option.some.inj inferred)
    refine ⟨?_, trivial⟩
    cases op with
    | OP_PAD => trivial
    | OP_SHL => exact width
    | OP_SHR =>
      have none_ : o.width - n = 0 := width
      exact .inr (by omega)
    | OP_HEAD => exact .inr (.inl width)
    | OP_TAIL =>
      have le : n ≤ o.width := admissible
      rw [OpExpr1Int1.inferWidth, if_neg (not_lt.mpr le)] at width
      have none_ : o.width - n = 0 := width
      exact .inr (by omega)
  | expr1Int2 op o hi lo =>
    rw [happ] at inferred
    have width : (op.inferWidth hi lo).1 = 0 := congrArg Prod.fst (Option.some.inj inferred)
    cases op with
    | OP_BITS | OP_BITS_NOSHIFT => cases width
  | expr2 op o0 o1 =>
    rw [happ] at inferred
    have inferred2 : op.inferWidth o0.width o0.sign o1.width o1.sign = some (0, s.sign) := inferred
    refine ⟨?_, trivial⟩
    cases op with
    | OP_DSHL =>
      simp only [OpExpr2.inferWidth] at inferred2
      split at inferred2
      · have none_ : o0.width + 2 ^ o1.width - 1 = 0 := congrArg Prod.fst (Option.some.inj inferred2)
        have pos := Nat.one_le_two_pow (n := o1.width)
        have one : 2 ^ o1.width = 2 ^ 0 := by omega
        exact ⟨by omega, Nat.pow_right_injective (le_refl 2) one⟩
      · cases inferred2
    | OP_DSHR =>
      have none_ : o0.width = 0 := congrArg Prod.fst (Option.some.inj inferred2)
      have fits := o0.fits_width
      rw [none_] at fits
      have pos := two_pow_pos (o1.value % 2 ^ 32).toNat
      right
      right
      rw [fits.eq_zero]
      omega
    | OP_CAT =>
      simp only [OpExpr2.inferWidth] at inferred2
      split at inferred2
      · have none_ : o0.width + o1.width = 0 := congrArg Prod.fst (Option.some.inj inferred2)
        have fits0 := o0.fits_width
        have fits1 := o1.fits_width
        have record := o1.consWidth_le
        rw [show o0.width = 0 by omega] at fits0
        rw [show o1.width = 0 by omega] at fits1
        exact ⟨fits0.eq_zero.ge, fits1.eq_zero.ge, .inl fits0.eq_zero⟩
      · cases inferred2
    | OP_ADD | OP_SUB | OP_MUL | OP_DIV | OP_REM | OP_LT | OP_LEQ | OP_GT | OP_GEQ | OP_EQ
    | OP_NEQ | OP_AND | OP_OR | OP_XOR => trivial
  | mux c a b => exact ⟨trivial, trivial⟩

end SignedSite

/-- Constant folding of an operator on signed operands does not abort and is exact if and
    only if its operands meet the conditions above. -/
theorem signed_folding_exact_iff (s : SignedSite) :
    s.Exact ↔
      (s.AllConstant → SignedExactWhen s.app) ∧ (¬ s.AllConstant → SignedOpenWhen s.app) := by
  rcases Nat.eq_zero_or_pos s.width with empty | wide
  · have when_ := s.when_of_width_zero empty
    exact iff_of_true (s.exact_of_width_zero empty) ⟨fun _ => when_.1, fun _ => when_.2⟩
  · rw [s.exact_iff wide, s.exactWhen_iff wide]

/-- The literal `SInt<4>(-3)`. -/
def minusThree : Operand where
  width := 4
  sign := true
  cons := ⟨.VAL_CONSTANT, -3, 4, true⟩
  value := -3
  cons_le := by decide
  fits := by decide
  constant := fun _ => rfl
  width_lt := by decide

/-- `shr(SInt<4>(-3), 1)`. -/
def shrMinusThree : SignedSite where
  app := .expr1Int1 .OP_SHR minusThree 1
  width := 3
  sign := true
  inferred := rfl
  width_lt := by decide
  admissible := trivial
  signed := rfl

/-- Folding the literal gives that record, and the shift is 0 where FIRRTL has -2. -/
theorem shrMinusThree_not_exact :
    (ENode.int 4 true (-3) : ENode Empty).compute nofun = some minusThree.toChild ∧
      shrMinusThree.computeConstant = some ⟨.VAL_CONSTANT, 0, 3, true⟩ ∧
      shrMinusThree.firrtl = some (-2) ∧ ¬ shrMinusThree.Exact := by
  have result : shrMinusThree.computeConstant = some ⟨.VAL_CONSTANT, 0, 3, true⟩ := by decide
  have value : shrMinusThree.firrtl = some (-2) := by decide
  refine ⟨by decide +kernel, result, value, ?_⟩
  rintro ⟨info, eq, -, folds⟩
  rw [result] at eq
  cases eq
  have wrong := (folds rfl).2 (-2) value
  exact absurd wrong (by decide)

end Gsim.ConstantFolding
