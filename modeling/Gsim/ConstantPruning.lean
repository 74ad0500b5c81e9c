/-
  Gsim/ConstantPruning.lean
  =========================
  **Pruning a tree by the constants recorded of its nodes** (`ExpTree::removeConstant`
  in `constantNode.cpp`).

  The worklist of the code holds a node with the slot it stands in.  A rule that
  removes a node puts another into the slot and looks at the slot again; no other
  slot is touched, so the walk is the recursion below.

  Two rules take care that what comes into the slot has the width of the node that
  leaves it: `or` pads and `and` compares.  `Keeps` says where the others do too, and
  where the sign stays.
-/
import Gsim.ConstantTree

namespace Gsim.ConstantPruning

open Gsim.TwosComplement Gsim.ConstantNode Gsim.ConstantRecords Gsim.FirrtlSemantics
open Gsim.ConstantTree

/-! ## What the rules read -/

def enodeConstant (e : ENode) : Bool := e.cons.any fun info => info.status = .VAL_CONSTANT

/-- `consEMap[enode]->consVal` -/
def consVal (e : ENode) : Int := (e.cons.map fun info => info.consVal).getD 0

def isConsZero (e : ENode) : Bool := enodeConstant e && consVal e == 0

def isConsNoZero (e : ENode) : Bool := enodeConstant e && consVal e != 0

def recordedInvalid (e : ENode) : Bool := e.cons.any fun info => info.status = .VAL_INVALID

/-- The child that `whenChildInvalid` returns; an absent child has no record. -/
inductive Staying where
  | child1
  | child2
deriving DecidableEq, Repr

def whenChildInvalid (op : SelectOp) (c1 c2 : ENode) : Option Staying :=
  if op = .OP_WHEN && (c1.cons.isSome && c2.cons.isSome) then
    if recordedInvalid c1 then some .child2
    else if recordedInvalid c2 then some .child1
    else none
  else none

/-- `c` is recorded as all ones at the width that both children have. -/
def isAllOnes (c other : ENode) : Bool :=
  enodeConstant c && (c.type.1 == other.type.1 && consVal c == OpFuncs.allOnes c.type.1)

/-! ## The walk -/

/-- A node recorded as constant becomes the literal; its width stays. -/
def foldHead (h : Head) (keep : ENode) : ENode :=
  match h.cons with
  | none => keep
  | some info =>
    if info.status = .VAL_CONSTANT then .int { h with sign := info.sign } info.consVal else keep

/-- `values` is a vector of `int`s. -/
def foldIndex (c0 : ENode) : ENode :=
  if enodeConstant c0 then .indexInt (wrap true 32 (OpFuncs.mpz_get_ui (consVal c0))) else .index c0

/-- `c` in the slot of an `or`, under an `OP_PAD` where it is narrower. -/
def padTo (h : Head) (c pruned : ENode) : ENode :=
  if c.type.1 < h.width then .expr1Int1 ⟨h.width, false, none⟩ .OP_PAD pruned h.width else pruned

mutual

def removeConstant : ENode → ENode
  | .null => .null
  | .ref h nodePtr child => foldHead h (.ref h nodePtr (removeAll child))
  | .index c0 => foldIndex (removeConstant c0)
  | .indexInt values0 => .indexInt values0
  | .int h strVal => foldHead h (.int h strVal)
  | .invalid h => foldHead h (.invalid h)
  | .select h op c0 c1 c2 => foldHead h <|
    if enodeConstant c0 then
      if consVal c0 = 0 then removeConstant c2 else removeConstant c1
    else match whenChildInvalid op c1 c2 with
      | some .child2 => removeConstant c2
      | some .child1 => removeConstant c1
      | none =>
        if h.width == 1 && (isConsNoZero c1 && isConsZero c2) then removeConstant c0
        else .select h op (removeConstant c0) (removeConstant c1) (removeConstant c2)
  | .expr1 h op c0 => foldHead h (.expr1 h op (removeConstant c0))
  | .expr1Int1 h op c0 n => foldHead h (.expr1Int1 h op (removeConstant c0) n)
  | .expr1Int2 h op c0 hi lo => foldHead h (.expr1Int2 h op (removeConstant c0) hi lo)
  | .expr2 h op c0 c1 => foldHead h <|
    if op = .OP_OR && (isConsZero c0 || isConsZero c1) then
      if isConsZero c0 then padTo h c1 (removeConstant c1) else padTo h c0 (removeConstant c0)
    else if op = .OP_AND && isAllOnes c0 c1 then removeConstant c1
    else if op = .OP_AND && isAllOnes c1 c0 then removeConstant c0
    else .expr2 h op (removeConstant c0) (removeConstant c1)
  | .other h op values child => foldHead h (.other h op values (removeAll child))

def removeAll : List ENode → List ENode
  | [] => []
  | e :: es => removeConstant e :: removeAll es

end

/-- An expression tree: what is computed, and where it goes. -/
structure ETree where
  root : ENode
  lvalue : Option ENode

/-- `ExpTree::removeConstant`; a root that is gone leaves no tree. -/
def ETree.removeConstant (tree : ETree) : ETree :=
  ⟨ConstantPruning.removeConstant tree.root, tree.lvalue.map ConstantPruning.removeConstant⟩

/-! ## Where the rules keep width and sign -/

/-- A recorded constant has the sign of its node; a `when` has no type that anything reads,
    and its constant fits its width. -/
def foldKeeps (h : Head) (folded : Record → Prop) (keep : Prop) : Prop :=
  match h.cons with
  | none => keep
  | some info => if info.status = .VAL_CONSTANT then folded info else keep

def sameSign (h : Head) (info : Record) : Prop := info.sign = h.sign

/-- A child that comes into the slot of a `mux` has its type. -/
def typeKept (h : Head) (op : SelectOp) (c : ENode) : Prop := op = .OP_MUX → c.type = h.type

/-- The operand left of an `or` is unsigned, and no wider than it. -/
def padKeeps (h : Head) (c : ENode) : Prop :=
  h.sign = false ∧ c.type.2 = false ∧ c.type.1 ≤ h.width

/-- The operand left of an `and` is unsigned, and as wide as it. -/
def maskKeeps (h : Head) (c : ENode) : Prop := h.sign = false ∧ c.type = h.type

/-- `true` and `false` as the branches of an unsigned bit, under a condition that is one. -/
def bitKeeps (h : Head) (op : SelectOp) (c0 c1 : ENode) : Prop :=
  c0.type = (1, false) ∧ consVal c1 = 1 ∧ typeKept h op c0

mutual

/-- On its walk `removeConstant` keeps width and sign at every rule it applies. -/
def Keeps : ENode → Prop
  | .null | .indexInt _ => True
  | .int h _ | .invalid h => foldKeeps h (sameSign h) True
  | .ref h _ child | .other h _ _ child => foldKeeps h (sameSign h) (AllKeep child)
  | .index c0 => Keeps c0
  | .select h op c0 c1 c2 =>
    foldKeeps h (fun info => if op = .OP_MUX then sameSign h info else Fits info.sign h.width info.consVal) <|
      if enodeConstant c0 then
        if consVal c0 = 0 then typeKept h op c2 ∧ Keeps c2 else typeKept h op c1 ∧ Keeps c1
      else match whenChildInvalid op c1 c2 with
        | some .child2 => Keeps c2
        | some .child1 => Keeps c1
        | none =>
          if h.width == 1 && (isConsNoZero c1 && isConsZero c2) then bitKeeps h op c0 c1 ∧ Keeps c0
          else Keeps c0 ∧ Keeps c1 ∧ Keeps c2
  | .expr1 h _ c0 | .expr1Int1 h _ c0 _ | .expr1Int2 h _ c0 _ _ => foldKeeps h (sameSign h) (Keeps c0)
  | .expr2 h op c0 c1 => foldKeeps h (sameSign h) <|
    if op = .OP_OR && (isConsZero c0 || isConsZero c1) then
      if isConsZero c0 then padKeeps h c1 ∧ Keeps c1 else padKeeps h c0 ∧ Keeps c0
    else if op = .OP_AND && isAllOnes c0 c1 then maskKeeps h c1 ∧ Keeps c1
    else if op = .OP_AND && isAllOnes c1 c0 then maskKeeps h c0 ∧ Keeps c0
    else Keeps c0 ∧ Keeps c1

def AllKeep : List ENode → Prop
  | [] => True
  | e :: es => Keeps e ∧ AllKeep es

end

def ETree.Keeps (tree : ETree) : Prop :=
  ConstantPruning.Keeps tree.root ∧ ∀ lvalue ∈ tree.lvalue, ConstantPruning.Keeps lvalue

/-! ## Lists of children -/

theorem removeAll_eq_map (es : List ENode) : removeAll es = es.map removeConstant := by
  induction es with
  | nil => rfl
  | cons e es ih => rw [removeAll, ih, List.map_cons]

theorem allKeep_iff {es : List ENode} : AllKeep es ↔ ∀ e ∈ es, Keeps e := by
  induction es with
  | nil => simp [AllKeep]
  | cons e es ih => rw [AllKeep, ih, List.forall_mem_cons]

section Walk

variable {sem : OtherSemantics} {ρ : Nat → List Int → Int}

/-- The values of the tree that the walk leaves; only `OP_INVALID` is open in it. -/
abbrev Takes' (sem : OtherSemantics) (ρ : Nat → List Int → Int) (e : ENode) (r : Option Int) : Prop :=
  e.Takes sem ENode.IsInvalid ρ r

/-- The values of the tree with its records. -/
abbrev TakesRecorded (sem : OtherSemantics) (ρ : Nat → List Int → Int) (e : ENode) (r : Option Int) : Prop :=
  e.Takes sem ENode.Invalid ρ r

theorem takesAll_removeAll {es : List ENode} {vs : List Int}
    (h : ∀ e ∈ es, ∀ v, Takes' sem ρ (removeConstant e) (some v) → TakesRecorded sem ρ e (some v))
    (takes : TakesAll sem ENode.IsInvalid ρ (removeAll es) vs) : TakesAll sem ENode.Invalid ρ es vs := by
  induction es generalizing vs with
  | nil => exact takes
  | cons e es ih =>
    obtain ⟨v, hv, vs', hvs, rfl⟩ := takes
    exact ⟨v, h e List.mem_cons_self v hv, vs', ih (fun e' he => h e' (List.mem_cons_of_mem _ he)) hvs, rfl⟩

theorem word_congr {e e' : ENode} (h : e'.type = e.type) (v : Int) : e'.word v = e.word v := by
  rw [ENode.word, ENode.word, h]

theorem zipWith_word {es : List ENode} (h : ∀ e ∈ es, (removeConstant e).type = e.type) (vs : List Int) :
    List.zipWith ENode.word (removeAll es) vs = List.zipWith ENode.word es vs := by
  induction es generalizing vs with
  | nil => rfl
  | cons e es ih =>
    cases vs with
    | nil => rfl
    | cons v vs =>
      rw [removeAll, List.zipWith_cons_cons, List.zipWith_cons_cons, word_congr (h e List.mem_cons_self),
        ih fun e' he => h e' (List.mem_cons_of_mem _ he)]

/-! ## What the records say -/

theorem takes_of_enodeConstant {e : ENode} (consistent : e.Consistent sem ρ)
    (h : enodeConstant e = true) : TakesRecorded sem ρ e (some (consVal e)) := by
  have present : e ≠ .null := by
    rintro rfl
    cases h
  unfold enodeConstant at h
  unfold consVal
  cases hc : e.cons with
  | none =>
    rw [hc] at h
    cases h
  | some info =>
    rw [hc] at h
    exact consistent.self present info hc (of_decide_eq_true h)

theorem takes_zero {e : ENode} (consistent : e.Consistent sem ρ) (h : isConsZero e = true) :
    TakesRecorded sem ρ e (some 0) := by
  obtain ⟨hconst, hzero⟩ := (Bool.and_eq_true _ _).mp h
  rw [← eq_of_beq hzero]
  exact takes_of_enodeConstant consistent hconst

theorem invalid_of_recordedInvalid {e : ENode} (h : recordedInvalid e = true) : e.Invalid := by
  unfold recordedInvalid at h
  cases hc : e.cons with
  | none =>
    rw [hc] at h
    cases h
  | some info =>
    rw [hc] at h
    exact .inr ⟨info, hc, of_decide_eq_true h⟩

/-! ## Expressions -/

/-- `x` may stand for the expression `e`. -/
structure Kept (sem : OtherSemantics) (ρ : Nat → List Int → Int) (e x : ENode) : Prop where
  takes : ∀ r, Takes' sem ρ x r → TakesRecorded sem ρ e r
  type : x.type = e.type
  shape : x.Expression
  /-- What is still recorded as constant is that literal. -/
  literal : enodeConstant x = true → Takes' sem ρ x (some (consVal x))

/-- `x` may stand for the index `e`. -/
structure IndexKept (sem : OtherSemantics) (ρ : Nat → List Int → Int) (e x : ENode) : Prop where
  takes : ∀ r, Takes' sem ρ x r → TakesRecorded sem ρ e r
  shape : x.Index

theorem enodeConstant_eq_false {e : ENode} {h : Head} (head : e.head? = some h)
    (open_ : ∀ info, h.cons = some info → info.status ≠ .VAL_CONSTANT) : enodeConstant e = false := by
  have hcons : e.cons = h.cons := by rw [ENode.cons, head, Option.bind_some]
  unfold enodeConstant
  rw [hcons]
  cases hc : h.cons with
  | none => rfl
  | some info => exact decide_eq_false (open_ info hc)

theorem kept_foldHead {e keep : ENode} {h : Head} {P : Prop} (head : e.head? = some h)
    (expression : e.Expression) (holds : e.RecordHolds sem ρ) (keeps : foldKeeps h (sameSign h) P)
    (kept : (∀ info, h.cons = some info → info.status ≠ .VAL_CONSTANT) → P → Kept sem ρ e keep) :
    Kept sem ρ e (foldHead h keep) := by
  have hcons : e.cons = h.cons := by rw [ENode.cons, head, Option.bind_some]
  have htype : e.type = (h.width, h.sign) := by
    rw [ENode.type, head]
    rfl
  cases hc : h.cons with
  | none =>
    simp only [foldKeeps, foldHead, hc] at keeps ⊢
    exact kept (fun _ hi => nomatch hc.symm.trans hi) keeps
  | some info =>
    by_cases hs : info.status = .VAL_CONSTANT
    · simp only [foldKeeps, foldHead, hc, if_pos hs] at keeps ⊢
      have htakes := holds info (hcons.trans hc) hs
      obtain ⟨v, hv, fits⟩ := expression.fits htakes
      obtain rfl := Option.some.inj hv
      rw [htype] at fits
      have hsign : info.sign = h.sign := keeps
      have same : (⟨h.width, info.sign, some info⟩ : Head) = h := by rw [hsign, ← hc]
      rw [same]
      refine ⟨?_, htype.symm, trivial, fun _ => ?_⟩
      · rintro r rfl
        rw [fit_of_fits fits]
        exact htakes
      · have hval : consVal (.int h info.consVal) = info.consVal := by
          simp only [consVal, ENode.cons, ENode.head?, Option.bind_some, hc, Option.map_some, Option.getD_some]
        rw [hval]
        exact congrArg some (fit_of_fits fits).symm
    · simp only [foldKeeps, foldHead, hc, if_neg hs] at keeps ⊢
      exact kept (fun _ hi => Option.some.inj (hc.symm.trans hi) ▸ hs) keeps

/-- What comes into the slot of a `mux`. -/
theorem kept_branch {h : Head} {c0 c1 c2 c x : ENode} (typed : typeKept h .OP_MUX c)
    (expression : c.Expression) (kept : Kept sem ρ c x)
    (pick : ∀ v, TakesRecorded sem ρ c (some v) → ∃ v0, TakesRecorded sem ρ c0 (some v0) ∧
      (v0 ≠ 0 → TakesRecorded sem ρ c1 (some v)) ∧ (v0 = 0 → TakesRecorded sem ρ c2 (some v))) :
    Kept sem ρ (.select h .OP_MUX c0 c1 c2) x := by
  have htype : c.type = h.type := typed rfl
  refine ⟨?_, kept.type.trans htype, kept.shape, kept.literal⟩
  intro r hr
  obtain ⟨v, rfl, fits⟩ := expression.fits (kept.takes r hr)
  rw [htype] at fits
  obtain ⟨v0, hv0, h1, h2⟩ := pick v (kept.takes _ hr)
  exact ⟨v0, hv0, v, h1, h2, congrArg some (fit_of_fits fits).symm⟩

theorem wellTyped_word {c : ENode} {v : Int} (unsigned : c.type.2 = false) (fits : Fits false c.type.1 v) :
    (c.word v).WellTyped := by
  have hfits : Fits c.type.2 c.type.1 v := by
    rw [unsigned]
    exact fits
  exact hfits

theorem firrtl_or_zero {a b : Word} (ha : a.value = 0) (unsigned : b.sign = false)
    (typed : b.WellTyped) : OpExpr2.firrtl .OP_OR a b = some b.value ∧ OpExpr2.firrtl .OP_OR b a = some b.value := by
  unfold Word.WellTyped at typed
  rw [unsigned, fits_unsigned] at typed
  have wide : ∀ w, b.width ≤ w → b.value % 2 ^ w = b.value := fun w hw =>
    Int.emod_eq_of_lt typed.1 (typed.2.trans_le (two_pow_le hw))
  constructor
  · simp only [OpExpr2.firrtl, ha, Int.zero_emod, zero_lor, wide _ (le_max_right _ _)]
  · simp only [OpExpr2.firrtl, ha, Int.zero_emod, lor_zero, wide _ (le_max_left _ _)]

theorem firrtl_and_ones {a b : Word} (ha : a.value = 2 ^ a.width - 1) (same : a.width = b.width)
    (unsigned : b.sign = false) (typed : b.WellTyped) :
    OpExpr2.firrtl .OP_AND a b = some b.value ∧ OpExpr2.firrtl .OP_AND b a = some b.value := by
  unfold Word.WellTyped at typed
  rw [unsigned, fits_unsigned] at typed
  have hones : (2 ^ a.width - 1 : Int) % 2 ^ a.width = 2 ^ a.width - 1 := by
    have := ones_range a.width
    exact Int.emod_eq_of_lt this.1 this.2
  have hb : b.value % 2 ^ a.width = b.value := by
    rw [same]
    exact Int.emod_eq_of_lt typed.1 typed.2
  constructor
  · simp only [OpExpr2.firrtl, ha, ← same, max_self, hones, hb, mask_land]
  · simp only [OpExpr2.firrtl, ha, ← same, max_self, hones, hb, land_mask]

/-- `c` alone for an `or` with zero. -/
theorem kept_padTo {h : Head} {e c x : ENode} (htype : e.type = h.type) (keeps : padKeeps h c)
    (expression : c.Expression) (kept : Kept sem ρ c x)
    (takes : ∀ v, TakesRecorded sem ρ c (some v) → Fits false c.type.1 v →
      TakesRecorded sem ρ e (some (h.fit v))) :
    Kept sem ρ e (padTo h c x) := by
  obtain ⟨hsign, hunsigned, hle⟩ := keeps
  have hfits : ∀ r, TakesRecorded sem ρ c r → ∃ v, r = some v ∧ Fits false c.type.1 v ∧ h.fit v = v := by
    intro r hr
    obtain ⟨v, rfl, fits⟩ := expression.fits hr
    rw [hunsigned] at fits
    refine ⟨v, rfl, fits, fit_of_fits ?_⟩
    rw [hsign]
    exact fits.mono hle
  unfold padTo
  split
  · refine ⟨?_, ?_, kept.shape, fun h => nomatch h⟩
    · rintro r ⟨v, hv, rfl⟩
      obtain ⟨w, hw, fits, hfit⟩ := hfits _ (kept.takes _ hv)
      obtain rfl := Option.some.inj hw
      have hpad : ({ width := h.width, sign := false, cons := none } : Head).fit v = h.fit v := by
        rw [Head.fit, Head.fit, hsign]
      have hvalue : OpExpr1Int1.firrtl .OP_PAD (x.word v) h.width = v := rfl
      rw [hvalue, hpad]
      exact takes v (kept.takes _ hv) fits
    · rw [htype, Head.type, hsign]
      rfl
  · refine ⟨?_, ?_, kept.shape, kept.literal⟩
    · intro r hr
      obtain ⟨v, rfl, fits, hfit⟩ := hfits r (kept.takes r hr)
      rw [← hfit]
      exact takes v (kept.takes _ hr) fits
    · rw [kept.type, htype, Head.type, hsign]
      exact Prod.ext (le_antisymm hle (not_lt.mp ‹_›)) hunsigned

/-- `c` alone for an `and` with all ones. -/
theorem kept_mask {e c x : ENode} {h : Head} (htype : e.type = h.type) (keeps : maskKeeps h c)
    (expression : c.Expression) (kept : Kept sem ρ c x)
    (takes : ∀ v, TakesRecorded sem ρ c (some v) → Fits false c.type.1 v →
      TakesRecorded sem ρ e (some (h.fit v))) : Kept sem ρ e x := by
  obtain ⟨hsign, hc⟩ := keeps
  refine ⟨?_, kept.type.trans (hc.trans htype.symm), kept.shape, kept.literal⟩
  intro r hr
  obtain ⟨v, rfl, fits⟩ := expression.fits (kept.takes r hr)
  have hfit : h.fit v = v := by
    rw [hc] at fits
    exact fit_of_fits fits
  rw [← hfit]
  apply takes v (kept.takes _ hr)
  rw [hc, Head.type, hsign] at fits
  rw [hc]
  exact fits

theorem takes_expr2 {h : Head} {op : OpExpr2} {c0 c1 : ENode} {v0 v1 v : Int}
    (h0 : TakesRecorded sem ρ c0 (some v0)) (h1 : TakesRecorded sem ρ c1 (some v1))
    (hv : OpExpr2.firrtl op (c0.word v0) (c1.word v1) = some v) :
    TakesRecorded sem ρ (.expr2 h op c0 c1) (some (h.fit v)) :=
  ⟨v0, h0, v1, h1, v, fun _ hx => Option.some.inj (hv.symm.trans hx), rfl⟩

theorem kept_expr2 {h : Head} {op : OpExpr2} {c0 c1 : ENode}
    (open_ : ∀ info, h.cons = some info → info.status ≠ .VAL_CONSTANT)
    (k0 : Kept sem ρ c0 (removeConstant c0)) (k1 : Kept sem ρ c1 (removeConstant c1)) :
    Kept sem ρ (.expr2 h op c0 c1) (.expr2 h op (removeConstant c0) (removeConstant c1)) := by
  refine ⟨?_, rfl, ⟨k0.shape, k1.shape⟩, fun hc => nomatch (enodeConstant_eq_false rfl open_).symm.trans hc⟩
  rintro r ⟨v0, hv0, v1, hv1, v, hv, rfl⟩
  rw [word_congr k0.type, word_congr k1.type] at hv
  exact ⟨v0, k0.takes _ hv0, v1, k1.takes _ hv1, v, hv, rfl⟩

theorem isAllOnes_spec {c other : ENode} (h : isAllOnes c other = true) :
    enodeConstant c = true ∧ c.type.1 = other.type.1 ∧ consVal c = 2 ^ c.type.1 - 1 := by
  obtain ⟨hconst, h⟩ := (Bool.and_eq_true _ _).mp h
  obtain ⟨hwidth, hones⟩ := (Bool.and_eq_true _ _).mp h
  have hval : consVal c = OpFuncs.allOnes c.type.1 := eq_of_beq hones
  exact ⟨hconst, eq_of_beq hwidth, hval.trans (OpFuncs.allOnes_eq _)⟩

theorem bit_cases {v : Int} (fits : Fits false 1 v) : v = 0 ∨ v = 1 := by
  rw [fits_unsigned] at fits
  omega

theorem foldIndex_value {v i : Int} (hi : i = wrap true 32 (OpFuncs.mpz_get_ui v)) (hv : 0 ≤ v)
    (hlt : v < 2 ^ 31) : i = v := by
  rw [hi, OpFuncs.mpz_get_ui_of_lt hv (by omega), Int.toNat_of_nonneg hv]
  apply wrap_of_fits
  rw [fits_signed]
  omega

/-- The walk through an expression keeps its values, its type and its shape. -/
theorem kept_removeConstant (e : ENode) (consistent : e.Consistent sem ρ) (keeps : Keeps e) :
    (e.Expression → Kept sem ρ e (removeConstant e)) ∧ (e.Index → IndexKept sem ρ e (removeConstant e)) := by
  induction e using ENode.induct with
  | null | invalid _ => exact ⟨False.elim, False.elim⟩
  | indexInt values0 => exact ⟨False.elim, fun _ => ⟨fun _ h => h, trivial⟩⟩
  | index c0 ih =>
    refine ⟨False.elim, fun shape => ?_⟩
    have kept := (ih consistent.2 keeps).1 shape
    simp only [removeConstant, foldIndex]
    split
    · rename_i hconst
      refine ⟨?_, trivial⟩
      rintro r rfl
      exact ⟨_, kept.takes _ (kept.literal hconst), _, foldIndex_value rfl, rfl⟩
    · refine ⟨?_, kept.shape⟩
      rintro r ⟨v, hv, i, hi, rfl⟩
      exact ⟨v, kept.takes _ hv, i, hi, rfl⟩
  | int head strVal =>
    refine ⟨fun shape => ?_, False.elim⟩
    exact kept_foldHead rfl shape consistent keeps fun open_ _ =>
      ⟨fun _ hr => hr, rfl, trivial, fun hc => nomatch (enodeConstant_eq_false rfl open_).symm.trans hc⟩
  | ref head nodePtr child ih =>
    refine ⟨fun shape => ?_, False.elim⟩
    apply kept_foldHead rfl shape consistent.1 keeps
    intro open_ hk
    have hchild : ∀ e ∈ child, IndexKept sem ρ e (removeConstant e) := fun e he =>
      (ih e he (allOf_iff.mp consistent.2 e he) (allKeep_iff.mp hk e he)).2 (indices_iff.mp shape e he)
    refine ⟨?_, rfl, ?_, fun hc => nomatch (enodeConstant_eq_false rfl open_).symm.trans hc⟩
    · rintro r ⟨vs, hvs, rfl⟩
      exact ⟨vs, takesAll_removeAll (fun e he v => (hchild e he).takes _) hvs, rfl⟩
    · apply indices_iff.mpr
      rw [removeAll_eq_map]
      exact List.forall_mem_map.mpr fun e he => (hchild e he).shape
  | other head op values child ih =>
    refine ⟨fun shape => ?_, False.elim⟩
    apply kept_foldHead rfl shape consistent.1 keeps
    intro open_ hk
    have hchild : ∀ e ∈ child, Kept sem ρ e (removeConstant e) := fun e he =>
      (ih e he (allOf_iff.mp consistent.2 e he) (allKeep_iff.mp hk e he)).1 (expressions_iff.mp shape e he)
    refine ⟨?_, rfl, ?_, fun hc => nomatch (enodeConstant_eq_false rfl open_).symm.trans hc⟩
    · rintro r ⟨vs, hvs, rfl⟩
      rw [zipWith_word fun e he => (hchild e he).type]
      exact ⟨vs, takesAll_removeAll (fun e he v => (hchild e he).takes _) hvs, rfl⟩
    · apply expressions_iff.mpr
      rw [removeAll_eq_map]
      exact List.forall_mem_map.mpr fun e he => (hchild e he).shape
  | expr1 head op c0 ih =>
    refine ⟨fun shape => ?_, False.elim⟩
    apply kept_foldHead rfl shape consistent.1 keeps
    intro open_ hk
    have kept := (ih consistent.2 hk).1 shape
    refine ⟨?_, rfl, kept.shape, fun hc => nomatch (enodeConstant_eq_false rfl open_).symm.trans hc⟩
    rintro r ⟨v0, hv0, rfl⟩
    rw [word_congr kept.type]
    exact ⟨v0, kept.takes _ hv0, rfl⟩
  | expr1Int1 head op c0 n ih =>
    refine ⟨fun shape => ?_, False.elim⟩
    apply kept_foldHead rfl shape consistent.1 keeps
    intro open_ hk
    have kept := (ih consistent.2 hk).1 shape
    refine ⟨?_, rfl, kept.shape, fun hc => nomatch (enodeConstant_eq_false rfl open_).symm.trans hc⟩
    rintro r ⟨v0, hv0, rfl⟩
    rw [word_congr kept.type]
    exact ⟨v0, kept.takes _ hv0, rfl⟩
  | expr1Int2 head op c0 hi lo ih =>
    refine ⟨fun shape => ?_, False.elim⟩
    apply kept_foldHead rfl shape consistent.1 keeps
    intro open_ hk
    have kept := (ih consistent.2 hk).1 shape
    refine ⟨?_, rfl, kept.shape, fun hc => nomatch (enodeConstant_eq_false rfl open_).symm.trans hc⟩
    rintro r ⟨v0, hv0, rfl⟩
    rw [word_congr kept.type]
    exact ⟨v0, kept.takes _ hv0, rfl⟩
  | expr2 head op c0 c1 ih0 ih1 =>
    refine ⟨fun shape => ?_, False.elim⟩
    apply kept_foldHead rfl shape consistent.1 keeps
    intro open_ hk
    obtain ⟨-, cons0, cons1⟩ := consistent
    by_cases hor : (op = .OP_OR && (isConsZero c0 || isConsZero c1)) = true
    · simp only [if_pos hor] at hk ⊢
      obtain ⟨hop, hzero⟩ := (Bool.and_eq_true _ _).mp hor
      obtain rfl := of_decide_eq_true hop
      split at hk
      · rename_i h0
        simp only [if_pos h0]
        apply kept_padTo rfl hk.1 shape.2 ((ih1 cons1 hk.2).1 shape.2)
        intro v hv fits
        exact takes_expr2 (takes_zero cons0 h0) hv (firrtl_or_zero rfl hk.1.2.1 (wellTyped_word hk.1.2.1 fits)).1
      · rename_i h0
        simp only [if_neg h0]
        have h1 : isConsZero c1 = true := ((Bool.or_eq_true _ _).mp hzero).resolve_left h0
        apply kept_padTo rfl hk.1 shape.1 ((ih0 cons0 hk.2).1 shape.1)
        intro v hv fits
        exact takes_expr2 hv (takes_zero cons1 h1) (firrtl_or_zero rfl hk.1.2.1 (wellTyped_word hk.1.2.1 fits)).2
    · simp only [if_neg hor] at hk ⊢
      by_cases hand0 : (op = .OP_AND && isAllOnes c0 c1) = true
      · simp only [if_pos hand0] at hk ⊢
        obtain ⟨hop, hones⟩ := (Bool.and_eq_true _ _).mp hand0
        obtain rfl := of_decide_eq_true hop
        obtain ⟨hconst, hwidth, hval⟩ := isAllOnes_spec hones
        apply kept_mask rfl hk.1 shape.2 ((ih1 cons1 hk.2).1 shape.2)
        intro v hv fits
        have hsign : c1.type.2 = false := (congrArg Prod.snd hk.1.2).trans hk.1.1
        exact takes_expr2 (takes_of_enodeConstant cons0 hconst) hv
          (firrtl_and_ones hval hwidth hsign (wellTyped_word hsign fits)).1
      · simp only [if_neg hand0] at hk ⊢
        by_cases hand1 : (op = .OP_AND && isAllOnes c1 c0) = true
        · simp only [if_pos hand1] at hk ⊢
          obtain ⟨hop, hones⟩ := (Bool.and_eq_true _ _).mp hand1
          obtain rfl := of_decide_eq_true hop
          obtain ⟨hconst, hwidth, hval⟩ := isAllOnes_spec hones
          apply kept_mask rfl hk.1 shape.1 ((ih0 cons0 hk.2).1 shape.1)
          intro v hv fits
          have hsign : c0.type.2 = false := (congrArg Prod.snd hk.1.2).trans hk.1.1
          exact takes_expr2 hv (takes_of_enodeConstant cons1 hconst)
            (firrtl_and_ones hval hwidth hsign (wellTyped_word hsign fits)).2
        · simp only [if_neg hand1] at hk ⊢
          exact kept_expr2 open_ ((ih0 cons0 hk.1).1 shape.1) ((ih1 cons1 hk.2).1 shape.2)
  | select head op c0 c1 c2 ih0 ih1 ih2 =>
    refine ⟨fun shape => ?_, False.elim⟩
    cases op with
    | OP_WHEN => exact shape.elim
    | OP_MUX =>
      have keeps' : foldKeeps head (sameSign head) _ := keeps
      apply kept_foldHead rfl shape consistent.1 keeps'
      intro open_ hk
      obtain ⟨-, cons0, cons1, cons2⟩ := consistent
      obtain ⟨shape0, shape1, shape2⟩ := shape
      have hinvalid : whenChildInvalid .OP_MUX c1 c2 = none := rfl
      by_cases hconst : enodeConstant c0 = true
      · have h0 := takes_of_enodeConstant cons0 hconst
        by_cases hz : consVal c0 = 0
        · simp only [if_pos hconst, if_pos hz] at hk ⊢
          apply kept_branch hk.1 shape2 ((ih2 cons2 hk.2).1 shape2)
          intro v hv
          exact ⟨_, h0, fun hn => absurd hz hn, fun _ => hv⟩
        · simp only [if_pos hconst, if_neg hz] at hk ⊢
          apply kept_branch hk.1 shape1 ((ih1 cons1 hk.2).1 shape1)
          intro v hv
          exact ⟨_, h0, fun _ => hv, fun hn => absurd hn hz⟩
      · simp only [if_neg hconst, hinvalid] at hk ⊢
        split at hk
        · rename_i hbit
          simp only [if_pos hbit]
          obtain ⟨-, hbit⟩ := (Bool.and_eq_true _ _).mp hbit
          obtain ⟨h1, h2⟩ := (Bool.and_eq_true _ _).mp hbit
          obtain ⟨⟨htype, hone, htyped⟩, hk⟩ := hk
          apply kept_branch htyped shape0 ((ih0 cons0 hk).1 shape0)
          intro v hv
          obtain ⟨v', hv', fits⟩ := shape0.fits hv
          obtain rfl := Option.some.inj hv'
          rw [htype] at fits
          refine ⟨v, hv, fun hn => ?_, fun hz => hz ▸ takes_zero cons2 h2⟩
          obtain rfl : v = 1 := (bit_cases fits).resolve_left hn
          rw [← hone]
          exact takes_of_enodeConstant cons1 ((Bool.and_eq_true _ _).mp h1).1
        · rename_i hbit
          simp only [if_neg hbit]
          have k0 := (ih0 cons0 hk.1).1 shape0
          have k1 := (ih1 cons1 hk.2.1).1 shape1
          have k2 := (ih2 cons2 hk.2.2).1 shape2
          refine ⟨?_, rfl, ⟨k0.shape, k1.shape, k2.shape⟩,
            fun hc => nomatch (enodeConstant_eq_false rfl open_).symm.trans hc⟩
          rintro r ⟨v0, hv0, v, h1, h2, rfl⟩
          exact ⟨v0, k0.takes _ hv0, v, fun hn => k1.takes _ (h1 hn), fun hz => k2.takes _ (h2 hz), rfl⟩

/-! ## Statements -/

/-- `x` may stand for the statement `e`. -/
structure StatementKept (sem : OtherSemantics) (ρ : Nat → List Int → Int) (e x : ENode) : Prop where
  gives : ∀ r, x.Gives sem ENode.IsInvalid ρ r → e.Gives sem ENode.Invalid ρ r
  shape : x.Statement

theorem Kept.statement {e x : ENode} (kept : Kept sem ρ e x) : StatementKept sem ρ e x where
  gives r hr := .inr (kept.takes r (hr.resolve_left kept.shape.not_isInvalid))
  shape := kept.shape.statement

/-- What a `when` becomes, once it is not recorded as constant. -/
theorem statementKept_foldHead {h : Head} {c0 c1 c2 keep : ENode} {P : Prop}
    (holds : (ENode.select h .OP_WHEN c0 c1 c2).RecordHolds sem ρ)
    (keeps : foldKeeps h (fun info => Fits info.sign h.width info.consVal) P)
    (kept : P → StatementKept sem ρ (.select h .OP_WHEN c0 c1 c2) keep) :
    StatementKept sem ρ (.select h .OP_WHEN c0 c1 c2) (foldHead h keep) := by
  cases hc : h.cons with
  | none =>
    simp only [foldKeeps, foldHead, hc] at keeps ⊢
    exact kept keeps
  | some info =>
    by_cases hs : info.status = .VAL_CONSTANT
    · simp only [foldKeeps, foldHead, hc, if_pos hs] at keeps ⊢
      refine ⟨?_, trivial⟩
      rintro r (hr | rfl)
      · exact hr.elim
      · right
        rw [fit_of_fits keeps]
        exact holds info hc hs
    · simp only [foldKeeps, foldHead, hc, if_neg hs] at keeps ⊢
      exact kept keeps

/-- A branch comes into the slot of its `when`. -/
theorem statementKept_branch {h : Head} {c0 c1 c2 c x : ENode} (kept : StatementKept sem ρ c x)
    (pick : ∀ r, c.Gives sem ENode.Invalid ρ r → ∃ v0, TakesRecorded sem ρ c0 (some v0) ∧
      (v0 ≠ 0 → c1.Gives sem ENode.Invalid ρ r) ∧ (v0 = 0 → c2.Gives sem ENode.Invalid ρ r)) :
    StatementKept sem ρ (.select h .OP_WHEN c0 c1 c2) x where
  gives r hr := .inr (pick r (kept.gives r hr))
  shape := kept.shape

theorem whenChildInvalid_spec {c1 c2 : ENode} {staying : Staying}
    (h : whenChildInvalid .OP_WHEN c1 c2 = some staying) :
    match staying with
    | .child1 => c2.Invalid
    | .child2 => c1.Invalid := by
  unfold whenChildInvalid at h
  split at h
  · split at h
    · obtain rfl := Option.some.inj h
      exact invalid_of_recordedInvalid ‹_›
    · split at h
      · obtain rfl := Option.some.inj h
        exact invalid_of_recordedInvalid ‹_›
      · cases h
  · cases h

/-- The walk through a statement gives no outcome that the statement does not have. -/
theorem statementKept_removeConstant {e : ENode} (shape : e.Statement) (consistent : e.Consistent sem ρ)
    (keeps : Keeps e) : StatementKept sem ρ e (removeConstant e) := by
  induction e using ENode.induct with
  | null => exact ⟨fun _ hr => .inr (hr.resolve_left id), trivial⟩
  | invalid head =>
    refine ⟨fun _ _ => .inl (.inl trivial), ?_⟩
    simp only [removeConstant, foldHead]
    split
    · trivial
    · split <;> trivial
  | select head op c0 c1 c2 ih0 ih1 ih2 =>
    cases op with
    | OP_MUX => exact ((kept_removeConstant _ consistent keeps).1 shape).statement
    | OP_WHEN =>
      have keeps' : foldKeeps head (fun info => Fits info.sign head.width info.consVal) _ := keeps
      obtain ⟨holds, cons0, cons1, cons2⟩ := consistent
      obtain ⟨shape0, shape1, shape2⟩ := shape
      apply statementKept_foldHead holds keeps'
      intro hk
      by_cases hconst : enodeConstant c0 = true
      · have h0 := takes_of_enodeConstant cons0 hconst
        by_cases hz : consVal c0 = 0
        · simp only [if_pos hconst, if_pos hz] at hk ⊢
          apply statementKept_branch (ih2 shape2 cons2 hk.2)
          intro r hr
          exact ⟨_, h0, fun hn => absurd hz hn, fun _ => hr⟩
        · simp only [if_pos hconst, if_neg hz] at hk ⊢
          apply statementKept_branch (ih1 shape1 cons1 hk.2)
          intro r hr
          exact ⟨_, h0, fun _ => hr, fun hn => absurd hn hz⟩
      · simp only [if_neg hconst] at hk ⊢
        obtain ⟨v0, hv0⟩ : ∃ v, TakesRecorded sem ρ c0 (some v) := c0.takes_exists (.inl shape0)
        cases hstaying : whenChildInvalid .OP_WHEN c1 c2 with
        | some staying =>
          have hinvalid := whenChildInvalid_spec hstaying
          cases staying with
          | child1 =>
            simp only [hstaying] at hk ⊢
            apply statementKept_branch (ih1 shape1 cons1 hk)
            intro r hr
            exact ⟨v0, hv0, fun _ => hr, fun _ => .inl hinvalid⟩
          | child2 =>
            simp only [hstaying] at hk ⊢
            apply statementKept_branch (ih2 shape2 cons2 hk)
            intro r hr
            exact ⟨v0, hv0, fun _ => .inl hinvalid, fun _ => hr⟩
        | none =>
          simp only [hstaying] at hk ⊢
          split at hk
          · rename_i hbit
            simp only [if_pos hbit]
            obtain ⟨-, hbit⟩ := (Bool.and_eq_true _ _).mp hbit
            obtain ⟨h1, h2⟩ := (Bool.and_eq_true _ _).mp hbit
            obtain ⟨⟨htype, hone, -⟩, hk⟩ := hk
            have kept0 := (kept_removeConstant c0 cons0 hk).1 shape0
            refine ⟨fun r hr => .inr ?_, kept0.statement.shape⟩
            have hr' := kept0.takes r (hr.resolve_left kept0.shape.not_isInvalid)
            obtain ⟨v, rfl, fits⟩ := shape0.fits hr'
            rw [htype] at fits
            refine ⟨v, hr', fun hn => .inr ?_, fun hz => .inr (hz ▸ takes_zero cons2 h2)⟩
            obtain rfl : v = 1 := (bit_cases fits).resolve_left hn
            rw [← hone]
            exact takes_of_enodeConstant cons1 ((Bool.and_eq_true _ _).mp h1).1
          · rename_i hbit
            simp only [if_neg hbit]
            have k0 := (kept_removeConstant c0 cons0 hk.1).1 shape0
            have k1 := ih1 shape1 cons1 hk.2.1
            have k2 := ih2 shape2 cons2 hk.2.2
            refine ⟨fun r hr => .inr ?_, k0.shape, k1.shape, k2.shape⟩
            obtain ⟨v, hv, h1, h2⟩ := hr.resolve_left id
            exact ⟨v, k0.takes _ hv, fun hn => k1.gives r (h1 hn), fun hz => k2.gives r (h2 hz)⟩
  | _ => exact ((kept_removeConstant _ consistent keeps).1 shape).statement

/-! ## Trees -/

/-- An lvalue is a reference, and only its indices are in `consEMap`. -/
def LValue (e : ENode) : Prop :=
  ∃ h nodePtr child, e = .ref h nodePtr child ∧ h.cons = none ∧ Indices child

structure ETree.Shaped (tree : ETree) : Prop where
  root : tree.root.Statement
  lvalue : ∀ e ∈ tree.lvalue, LValue e

def ETree.Consistent (sem : OtherSemantics) (ρ : Nat → List Int → Int) (tree : ETree) : Prop :=
  tree.root.Consistent sem ρ ∧ ∀ e ∈ tree.lvalue, e.Consistent sem ρ

/-- The reference `x` goes where `e` goes. -/
def SamePlace (sem : OtherSemantics) (ρ : Nat → List Int → Int) (e x : ENode) : Prop :=
  ∃ h nodePtr child child', e = .ref h nodePtr child ∧ x = .ref h nodePtr child' ∧
    ∀ vs, TakesAll sem ENode.IsInvalid ρ child' vs → TakesAll sem ENode.Invalid ρ child vs

theorem samePlace_removeConstant {e : ENode} (shape : LValue e) (consistent : e.Consistent sem ρ)
    (keeps : Keeps e) : SamePlace sem ρ e (removeConstant e) := by
  obtain ⟨h, nodePtr, child, rfl, hc, shape⟩ := shape
  refine ⟨h, nodePtr, child, removeAll child, rfl, ?_, fun vs hvs => ?_⟩
  · simp only [removeConstant, foldHead, hc]
  · simp only [Keeps, foldKeeps, hc] at keeps
    apply takesAll_removeAll _ hvs
    intro e he v
    exact ((kept_removeConstant e (allOf_iff.mp consistent.2 e he) (allKeep_iff.mp keeps e he)).2
      (indices_iff.mp shape e he)).takes _

end Walk

/-- Where its rules keep width and sign, pruning leaves a tree with an outcome, and only with
outcomes of the original; an expression keeps its type; and no `mux` has an absent branch. -/
theorem ETree.removeConstant_preserves (tree : ETree) (shaped : tree.Shaped) (keeps : tree.Keeps)
    (sem : OtherSemantics) (ρ : Nat → List Int → Int) (consistent : tree.Consistent sem ρ) :
    (∀ r, tree.removeConstant.root.Gives sem ENode.IsInvalid ρ r → tree.root.Gives sem ENode.Invalid ρ r) ∧
    (∃ r, tree.removeConstant.root.Takes sem ENode.IsInvalid ρ r) ∧
    (tree.root.Expression →
      tree.removeConstant.root.Expression ∧ tree.removeConstant.root.type = tree.root.type) ∧
    tree.removeConstant.root.All ENode.BranchesPresent ∧
    ∀ e ∈ tree.lvalue, SamePlace sem ρ e (ConstantPruning.removeConstant e) := by
  have kept := statementKept_removeConstant shaped.root consistent.1 keeps.1
  refine ⟨kept.gives, kept.shape.takes_exists, fun shape => ?_, kept.shape.branchesPresent, fun e he => ?_⟩
  · have kept' := (kept_removeConstant _ consistent.1 keeps.1).1 shape
    exact ⟨kept'.shape, kept'.type⟩
  · exact samePlace_removeConstant (shaped.lvalue e he) (consistent.2 e he) (keeps.2 e he)

/-! ### A narrow branch under a concatenation, and a signed bit -/

def bit (nodePtr : Nat) : ENode := .ref ⟨1, false, some (.new 1 false)⟩ nodePtr []

def word (nodePtr width : Nat) : ENode := .ref ⟨width, false, some (.new width false)⟩ nodePtr []

def constantRecord (width : Nat) (sign : Bool) (v : Int) : Record :=
  { Record.new width sign with status := .VAL_CONSTANT, consVal := v, sameConstant := true, assignmentCons := v }

def literal (width : Nat) (sign : Bool) (v : Int) : ENode :=
  .int ⟨width, sign, some (constantRecord width sign v)⟩ v

/-- `cat(a, mux(UInt<1>(1), b, c))` with `b` two and `c` four bits wide. -/
def narrowCat : ETree where
  root := .expr2 ⟨5, false, some (.new 5 false)⟩ .OP_CAT (bit 0)
    (.select ⟨4, false, some (.new 4 false)⟩ .OP_MUX (literal 1 false 1) (word 1 2) (word 2 4))
  lvalue := none

/-- `mux(a, SInt<1>(-1), SInt<1>(0))` -/
def signedBit : ETree where
  root := .select ⟨1, true, some (.new 1 true)⟩ .OP_MUX (bit 0) (literal 1 true (-1)) (literal 1 true 0)
  lvalue := none

/-- Every node is one. -/
def ones : Nat → List Int → Int := fun _ _ => 1

theorem fit_one (w : Nat) (cons : Option Record) : ({ width := w + 1, sign := false, cons } : Head).fit 1 = 1 := by
  have double : (2 : Int) ^ (w + 1) = 2 ^ w * 2 := pow_succ 2 w
  have pos := two_pow_pos w
  have fits : Fits false (w + 1) 1 := by
    rw [fits_unsigned]
    omega
  exact fit_of_fits fits

theorem takes_word {sem : OtherSemantics} {any : ENode → Prop} {nodePtr w : Nat} {r : Option Int} :
    (word nodePtr (w + 1)).Takes sem any ones r ↔ r = some 1 := by
  constructor
  · rintro ⟨vs, -, rfl⟩
    exact congrArg some (fit_one w _)
  · rintro rfl
    exact ⟨[], rfl, congrArg some (fit_one w _).symm⟩

theorem recordHolds_word (sem : OtherSemantics) (nodePtr w : Nat) :
    (word nodePtr w).RecordHolds sem ones := by
  rintro info hi hs
  obtain rfl := Option.some.inj hi
  cases hs

theorem removeConstant_narrows :
    (narrowCat.Shaped ∧ ∀ sem, narrowCat.Consistent sem ones ∧
      narrowCat.removeConstant.root.Takes sem ENode.IsInvalid ones (some 5) ∧
      ¬ narrowCat.root.Gives sem ENode.Invalid ones (some 5)) ∧
    signedBit.Shaped ∧ (∀ sem, signedBit.Consistent sem ones) ∧
    signedBit.removeConstant.root.type ≠ signedBit.root.type := by
  have noLvalue : ∀ {P : ENode → Prop}, ∀ e ∈ (none : Option ENode), P e := fun e he => nomatch he
  have holds : ∀ {sem : OtherSemantics} {w sign v}, wrap sign w v = v →
      (literal w sign v).RecordHolds sem ones := by
    rintro sem w sign v h info hi -
    obtain rfl := Option.some.inj hi
    exact congrArg some h.symm
  have open_ : ∀ {sem : OtherSemantics} {e : ENode} {w sign}, e.cons = some (.new w sign) →
      e.RecordHolds sem ones := by
    rintro sem e w sign h info hi hs
    obtain rfl := Option.some.inj (h.symm.trans hi)
    cases hs
  refine ⟨⟨⟨⟨trivial, trivial, trivial, trivial⟩, noLvalue⟩, fun sem => ⟨?_, ?_, ?_⟩⟩,
    ⟨⟨trivial, trivial, trivial⟩, noLvalue⟩, fun sem => ?_, by decide⟩
  · exact ⟨⟨open_ rfl, ⟨open_ rfl, trivial⟩, open_ rfl, holds rfl, ⟨open_ rfl, trivial⟩, open_ rfl, trivial⟩, noLvalue⟩
  · exact ⟨1, takes_word.mpr rfl, 1, takes_word.mpr rfl, 5, fun x hx => Option.some.inj hx, rfl⟩
  · rintro ((h | ⟨info, hi, hs⟩) | ⟨v0, h0, v1, ⟨vc, hc, vb, hb, -, hv1⟩, v, hv, h⟩)
    · exact h
    · obtain rfl := Option.some.inj hi
      cases hs
    · obtain rfl := Option.some.inj (takes_word.mp h0)
      have hvc : vc = 1 := Option.some.inj hc
      obtain rfl := Option.some.inj (takes_word.mp (hb (by omega)))
      obtain rfl := Option.some.inj hv1
      obtain rfl : v = 17 := hv 17 rfl
      exact absurd h (by decide)
  · exact ⟨⟨open_ rfl, ⟨open_ rfl, trivial⟩, holds rfl, holds rfl⟩, noLvalue⟩

/-- `mux(UInt<1>(1), a, b)`, both four bits wide. -/
def evenMux : ETree where
  root := .select ⟨4, false, some (.new 4 false)⟩ .OP_MUX (literal 1 false 1) (word 1 4) (word 2 4)
  lvalue := none

theorem evenMux_preserved :
    evenMux.Keeps ∧ evenMux.removeConstant.root.type = (4, false) ∧
    evenMux.root.Gives (fun _ _ _ _ _ => 0) ENode.Invalid ones (some 1) := by
  have noLvalue : ∀ {P : ENode → Prop}, ∀ e ∈ (none : Option ENode), P e := fun e he => nomatch he
  have shaped : evenMux.Shaped := ⟨⟨trivial, trivial, trivial⟩, noLvalue⟩
  have keeps : evenMux.Keeps := ⟨⟨fun _ => rfl, trivial⟩, noLvalue⟩
  have consistent : evenMux.Consistent (fun _ _ _ _ _ => 0) ones := by
    refine ⟨⟨?_, ?_, ⟨recordHolds_word _ 1 4, trivial⟩, recordHolds_word _ 2 4, trivial⟩, noLvalue⟩
    · rintro info hi hs
      obtain rfl := Option.some.inj hi
      cases hs
    · rintro info hi -
      obtain rfl := Option.some.inj hi
      rfl
  obtain ⟨gives, -, expression, -⟩ :=
    evenMux.removeConstant_preserves shaped keeps (fun _ _ _ _ _ => 0) ones consistent
  exact ⟨keeps, (expression ⟨trivial, trivial, trivial⟩).2, gives (some 1) (.inr (takes_word.mpr rfl))⟩

end Gsim.ConstantPruning
