/-
  Gsim/ConstantTree.lean
  ======================
  **Expression trees with what `consEMap` holds of their nodes** (`ExpTree.h`,
  `constantNode.cpp`), and the values they may take.

  A node's meaning is FIRRTL's, from the widths and signs that its children carry,
  at the node's own width and sign.  What prints, reads a memory or calls out is a
  parameter.  Where a tree computes a whole array, the value is that of one of its
  elements, the same throughout, so that arrays need no case of their own.

  A tree may take several values: an invalid branch may take any, and so may a
  quotient by zero and an index that no array has.  `none` is no value at all, the
  outcome of an absent branch.
-/
import Gsim.ConstantRecords
import Gsim.FirrtlSemantics

namespace Gsim.ConstantTree

open Gsim.TwosComplement Gsim.ConstantNode Gsim.ConstantRecords Gsim.FirrtlSemantics

/-! ## Nodes -/

inductive SelectOp where
  | OP_MUX
  | OP_WHEN
deriving DecidableEq, Repr

/-- The operators that are no expressions of FIRRTL. -/
inductive OtherOp where
  | OP_PRINTF
  | OP_ASSERT
  | OP_EXIT
  | OP_GROUP
  | OP_READ_MEM (memoryNode : Nat)
  | OP_WRITE_MEM (memoryNode : Nat)
  | OP_INFER_MEM (memoryNode : Nat)
  | OP_RESET
  | OP_SEXT
  | OP_EXT_FUNC (name : String)
deriving DecidableEq, Repr

/-- The type of a node and its entry in `consEMap`. -/
structure Head where
  width : Nat
  sign : Bool
  cons : Option Record
deriving DecidableEq, Repr

/-- `null` is a null child pointer.  The two index nodes have no width, and `consIndex` and
    `consIndexInt` never record them as anything. -/
inductive ENode where
  | null
  | ref (h : Head) (nodePtr : Nat) (child : List ENode)
  | index (c0 : ENode)
  | indexInt (values0 : Int)
  | int (h : Head) (strVal : Int)
  | invalid (h : Head)
  | select (h : Head) (op : SelectOp) (c0 c1 c2 : ENode)
  | expr1 (h : Head) (op : OpExpr1) (c0 : ENode)
  | expr1Int1 (h : Head) (op : OpExpr1Int1) (c0 : ENode) (n : Nat)
  | expr1Int2 (h : Head) (op : OpExpr1Int2) (c0 : ENode) (hi lo : Nat)
  | expr2 (h : Head) (op : OpExpr2) (c0 c1 : ENode)
  | other (h : Head) (op : OtherOp) (values : List Int) (child : List ENode)

namespace Head

def type (h : Head) : Nat × Bool := (h.width, h.sign)

end Head

namespace ENode

def head? : ENode → Option Head
  | .null | .index _ | .indexInt _ => none
  | .ref h _ _ | .int h _ | .invalid h | .select h _ _ _ _ | .expr1 h _ _ | .expr1Int1 h _ _ _
  | .expr1Int2 h _ _ _ _ | .expr2 h _ _ _ | .other h _ _ _ => some h

def type (e : ENode) : Nat × Bool := (e.head?.map Head.type).getD (0, false)

/-- The entry of `consEMap`. -/
def cons (e : ENode) : Option Record := e.head?.bind Head.cons

/-- `consEMap` has the node, with this status. -/
def Recorded (e : ENode) (status : ValStatus) : Prop := ∃ info, e.cons = some info ∧ info.status = status

end ENode

/-! ## Induction -/

@[elab_as_elim]
theorem ENode.induct {motive : ENode → Prop} (null : motive .null)
    (ref : ∀ h nodePtr child, (∀ e ∈ child, motive e) → motive (.ref h nodePtr child))
    (index : ∀ c0, motive c0 → motive (.index c0))
    (indexInt : ∀ values0, motive (.indexInt values0))
    (int : ∀ h strVal, motive (.int h strVal))
    (invalid : ∀ h, motive (.invalid h))
    (select : ∀ h op c0 c1 c2, motive c0 → motive c1 → motive c2 → motive (.select h op c0 c1 c2))
    (expr1 : ∀ h op c0, motive c0 → motive (.expr1 h op c0))
    (expr1Int1 : ∀ h op c0 n, motive c0 → motive (.expr1Int1 h op c0 n))
    (expr1Int2 : ∀ h op c0 hi lo, motive c0 → motive (.expr1Int2 h op c0 hi lo))
    (expr2 : ∀ h op c0 c1, motive c0 → motive c1 → motive (.expr2 h op c0 c1))
    (other : ∀ h op values child, (∀ e ∈ child, motive e) → motive (.other h op values child))
    (e : ENode) : motive e := by
  refine @ENode.rec motive (fun es => ∀ e ∈ es, motive e) null ref index indexInt int invalid select
    expr1 expr1Int1 expr1Int2 expr2 other ?_ ?_ e
  · intro e he
    cases he
  · intro head tail hhead htail
    exact List.forall_mem_cons.mpr ⟨hhead, htail⟩

/-! ## Values -/

/-- A value at a node's width and sign. -/
def Head.fit (h : Head) (v : Int) : Int := wrap h.sign h.width v

/-- What the operators that FIRRTL does not give make of their operands, at their own width
    and sign. -/
abbrev OtherSemantics := OtherOp → List Int → Nat → Bool → List Word → Int

/-- What a parent sees of a child. -/
def ENode.word (e : ENode) (v : Int) : Word := ⟨e.type.1, e.type.2, v⟩

/-- What FIRRTL leaves open may be anything. -/
def Results (result : Option Int) (v : Int) : Prop := ∀ x, result = some x → v = x

section Takes

variable (sem : OtherSemantics) (any : ENode → Prop) (ρ : Nat → List Int → Int)

mutual

/-- The tree may take the value `r` when the references have the values `ρ` and the branches
    of `any` may take any value. -/
def ENode.Takes : ENode → Option Int → Prop
  | .null, r => r = none
  | .ref h nodePtr child, r => ∃ vs, TakesAll child vs ∧ r = some (h.fit (ρ nodePtr vs))
  | .index c0, r => ∃ v, c0.Takes (some v) ∧ ∃ i, (0 ≤ v → v < 2 ^ 31 → i = v) ∧ r = some i
  | .indexInt values0, r => r = some values0
  | .int h strVal, r => r = some (h.fit strVal)
  | .invalid h, r => ∃ v, r = some (h.fit v)
  | .select h .OP_MUX c0 c1 c2, r =>
    ∃ v0, c0.Takes (some v0) ∧
      ∃ v, (v0 ≠ 0 → c1.Takes (some v)) ∧ (v0 = 0 → c2.Takes (some v)) ∧ r = some (h.fit v)
  | .select _ .OP_WHEN c0 c1 c2, r =>
    ∃ v0, c0.Takes (some v0) ∧
      (v0 ≠ 0 → any c1 ∨ c1.Takes r) ∧ (v0 = 0 → any c2 ∨ c2.Takes r)
  | .expr1 h op c0, r =>
    ∃ v0, c0.Takes (some v0) ∧ r = some (h.fit (OpExpr1.firrtl op (c0.word v0)))
  | .expr1Int1 h op c0 n, r =>
    ∃ v0, c0.Takes (some v0) ∧ r = some (h.fit (OpExpr1Int1.firrtl op (c0.word v0) n))
  | .expr1Int2 h op c0 hi lo, r =>
    ∃ v0, c0.Takes (some v0) ∧ r = some (h.fit (OpExpr1Int2.firrtl op (c0.word v0) hi lo))
  | .expr2 h op c0 c1, r =>
    ∃ v0, c0.Takes (some v0) ∧ ∃ v1, c1.Takes (some v1) ∧
      ∃ v, Results (OpExpr2.firrtl op (c0.word v0) (c1.word v1)) v ∧ r = some (h.fit v)
  | .other h op values child, r =>
    ∃ vs, TakesAll child vs ∧
      r = some (h.fit (sem op values h.width h.sign (List.zipWith ENode.word child vs)))

def TakesAll : List ENode → List Int → Prop
  | [], vs => vs = []
  | e :: es, vs => ∃ v, e.Takes (some v) ∧ ∃ vs', TakesAll es vs' ∧ vs = v :: vs'

end

/-- The tree as a branch or a root. -/
def ENode.Gives (e : ENode) (r : Option Int) : Prop := any e ∨ e.Takes sem any ρ r

end Takes

/-- `OP_INVALID` itself. -/
def ENode.IsInvalid : ENode → Prop
  | .invalid _ => True
  | _ => False

/-- Invalid, or recorded as invalid. -/
def ENode.Invalid (e : ENode) : Prop := e.IsInvalid ∨ e.Recorded .VAL_INVALID

/-! ## Shapes -/

mutual

/-- No child is absent, nothing in it is a `when` or `OP_INVALID`, and the indices stand under
    references. -/
def ENode.Expression : ENode → Prop
  | .null | .invalid _ | .index _ | .indexInt _ | .select _ .OP_WHEN _ _ _ => False
  | .int _ _ => True
  | .ref _ _ child => Indices child
  | .expr1 _ _ c0 | .expr1Int1 _ _ c0 _ | .expr1Int2 _ _ c0 _ _ => c0.Expression
  | .expr2 _ _ c0 c1 => c0.Expression ∧ c1.Expression
  | .select _ .OP_MUX c0 c1 c2 => c0.Expression ∧ c1.Expression ∧ c2.Expression
  | .other _ _ _ child => Expressions child

def Expressions : List ENode → Prop
  | [] => True
  | e :: es => e.Expression ∧ Expressions es

def ENode.Index : ENode → Prop
  | .indexInt _ => True
  | .index c0 => c0.Expression
  | _ => False

def Indices : List ENode → Prop
  | [] => True
  | e :: es => e.Index ∧ Indices es

end

/-- What is assigned: absent branches and `OP_INVALID` stand under `when`s only. -/
def ENode.Statement : ENode → Prop
  | .null | .invalid _ => True
  | .select _ .OP_WHEN c0 c1 c2 => c0.Expression ∧ c1.Statement ∧ c2.Statement
  | e => e.Expression

mutual

/-- `p` holds of every node of the tree. -/
def ENode.All (p : ENode → Prop) : ENode → Prop
  | .null => True
  | .ref h nodePtr child => p (.ref h nodePtr child) ∧ AllOf p child
  | .index c0 => p (.index c0) ∧ c0.All p
  | .indexInt values0 => p (.indexInt values0)
  | .int h strVal => p (.int h strVal)
  | .invalid h => p (.invalid h)
  | .select h op c0 c1 c2 => p (.select h op c0 c1 c2) ∧ c0.All p ∧ c1.All p ∧ c2.All p
  | .expr1 h op c0 => p (.expr1 h op c0) ∧ c0.All p
  | .expr1Int1 h op c0 n => p (.expr1Int1 h op c0 n) ∧ c0.All p
  | .expr1Int2 h op c0 hi lo => p (.expr1Int2 h op c0 hi lo) ∧ c0.All p
  | .expr2 h op c0 c1 => p (.expr2 h op c0 c1) ∧ c0.All p ∧ c1.All p
  | .other h op values child => p (.other h op values child) ∧ AllOf p child

def AllOf (p : ENode → Prop) : List ENode → Prop
  | [] => True
  | e :: es => e.All p ∧ AllOf p es

end

theorem allOf_iff {p : ENode → Prop} {es : List ENode} : AllOf p es ↔ ∀ e ∈ es, e.All p := by
  induction es with
  | nil => simp [AllOf]
  | cons e es ih => rw [AllOf, ih, List.forall_mem_cons]

theorem expressions_iff {es : List ENode} : Expressions es ↔ ∀ e ∈ es, e.Expression := by
  induction es with
  | nil => simp [Expressions]
  | cons e es ih => rw [Expressions, ih, List.forall_mem_cons]

theorem indices_iff {es : List ENode} : Indices es ↔ ∀ e ∈ es, e.Index := by
  induction es with
  | nil => simp [Indices]
  | cons e es ih => rw [Indices, ih, List.forall_mem_cons]

/-- The node itself. -/
theorem ENode.All.self {p : ENode → Prop} {e : ENode} (h : e.All p) (present : e ≠ .null) : p e := by
  cases e <;> first | exact absurd rfl present | exact h | exact h.1

theorem ENode.Expression.present {e : ENode} (h : e.Expression) : e ≠ .null := by
  rintro rfl
  exact h

theorem ENode.Expression.statement {e : ENode} (h : e.Expression) : e.Statement := by
  cases e with
  | select head op c0 c1 c2 =>
    cases op with
    | OP_MUX => exact h
    | OP_WHEN => exact h.elim
  | null => trivial
  | invalid head => trivial
  | _ => exact h

theorem ENode.Expression.not_isInvalid {e : ENode} (h : e.Expression) : ¬ e.IsInvalid := by
  cases e <;> first | exact id | exact fun _ => h

/-- Every branch of a `mux` is there. -/
def ENode.BranchesPresent : ENode → Prop
  | .select _ .OP_MUX _ c1 c2 => c1 ≠ .null ∧ c2 ≠ .null
  | _ => True

theorem ENode.Expression.branchesPresent (e : ENode) (h : e.Expression ∨ e.Index) :
    e.All ENode.BranchesPresent := by
  induction e using ENode.induct with
  | null | invalid _ => exact (h.elim id id).elim
  | indexInt _ | int _ _ => trivial
  | index c0 ih => exact ⟨trivial, ih (.inl (h.resolve_left id))⟩
  | expr1 _ _ c0 ih | expr1Int1 _ _ c0 _ ih | expr1Int2 _ _ c0 _ _ ih =>
    exact ⟨trivial, ih (.inl (h.resolve_right id))⟩
  | expr2 head op c0 c1 ih0 ih1 =>
    have hc : c0.Expression ∧ c1.Expression := h.resolve_right id
    exact ⟨trivial, ih0 (.inl hc.1), ih1 (.inl hc.2)⟩
  | ref head nodePtr child ih =>
    exact ⟨trivial, allOf_iff.mpr fun e he => ih e he (.inr (indices_iff.mp (h.resolve_right id) e he))⟩
  | other head op values child ih =>
    exact ⟨trivial, allOf_iff.mpr fun e he => ih e he (.inl (expressions_iff.mp (h.resolve_right id) e he))⟩
  | select head op c0 c1 c2 ih0 ih1 ih2 =>
    cases op with
    | OP_WHEN => exact (h.elim id id).elim
    | OP_MUX =>
      have hc : c0.Expression ∧ c1.Expression ∧ c2.Expression := h.resolve_right id
      exact ⟨⟨hc.2.1.present, hc.2.2.present⟩, ih0 (.inl hc.1), ih1 (.inl hc.2.1), ih2 (.inl hc.2.2)⟩

theorem ENode.Statement.branchesPresent {e : ENode} (h : e.Statement) : e.All ENode.BranchesPresent := by
  induction e using ENode.induct with
  | null | invalid _ => trivial
  | select head op c0 c1 c2 ih0 ih1 ih2 =>
    cases op with
    | OP_MUX => exact ENode.Expression.branchesPresent _ (.inl h)
    | OP_WHEN =>
      exact ⟨trivial, ENode.Expression.branchesPresent c0 (.inl h.1), ih1 h.2.1, ih2 h.2.2⟩
  | _ => exact ENode.Expression.branchesPresent _ (.inl h)

/-! ## Taking values -/

section Takes

variable {sem : OtherSemantics} {any : ENode → Prop} {ρ : Nat → List Int → Int}

theorem fits_fit (h : Head) (v : Int) : Fits h.sign h.width (h.fit v) := fits_wrap _ _ _

theorem fit_of_fits {h : Head} {v : Int} (fits : Fits h.sign h.width v) : h.fit v = v :=
  wrap_of_fits fits

/-- The values of an expression are of its type. -/
theorem ENode.Expression.fits {e : ENode} (h : e.Expression) {r : Option Int}
    (takes : e.Takes sem any ρ r) : ∃ v, r = some v ∧ Fits e.type.2 e.type.1 v := by
  cases e with
  | null | invalid _ | index _ | indexInt _ => exact h.elim
  | select head op c0 c1 c2 =>
    cases op with
    | OP_WHEN => exact h.elim
    | OP_MUX =>
      obtain ⟨v0, -, v, -, -, rfl⟩ := takes
      exact ⟨_, rfl, fits_fit head v⟩
  | int head strVal => exact ⟨_, takes, fits_fit head _⟩
  | expr2 head op c0 c1 =>
    obtain ⟨v0, -, v1, -, v, -, rfl⟩ := takes
    exact ⟨_, rfl, fits_fit head v⟩
  | ref head | expr1 head | expr1Int1 head | expr1Int2 head | other head =>
    obtain ⟨v0, -, rfl⟩ := takes
    exact ⟨_, rfl, fits_fit head _⟩

theorem results_exists (result : Option Int) : ∃ v, Results result v := by
  cases result with
  | none => exact ⟨0, fun _ h => nomatch h⟩
  | some x => exact ⟨x, fun _ h => Option.some.inj h⟩

theorem takesAll_exists {es : List ENode} (h : ∀ e ∈ es, ∃ v, e.Takes sem any ρ (some v)) :
    ∃ vs, TakesAll sem any ρ es vs := by
  induction es with
  | nil => exact ⟨[], rfl⟩
  | cons e es ih =>
    obtain ⟨v, hv⟩ := h e List.mem_cons_self
    obtain ⟨vs, hvs⟩ := ih fun e' he => h e' (List.mem_cons_of_mem _ he)
    exact ⟨v :: vs, v, hv, vs, hvs, rfl⟩

/-- Expressions and indices have a value. -/
theorem ENode.takes_exists (e : ENode) (h : e.Expression ∨ e.Index) :
    ∃ v, e.Takes sem any ρ (some v) := by
  induction e using ENode.induct with
  | null | invalid _ => exact (h.elim id id).elim
  | indexInt values0 => exact ⟨values0, rfl⟩
  | int head strVal => exact ⟨_, rfl⟩
  | index c0 ih =>
    obtain ⟨v, hv⟩ := ih (.inl (h.resolve_left id))
    exact ⟨v, v, hv, v, fun _ _ => rfl, rfl⟩
  | ref head nodePtr child ih =>
    obtain ⟨vs, hvs⟩ := takesAll_exists fun e he => ih e he (.inr (indices_iff.mp (h.resolve_right id) e he))
    exact ⟨_, vs, hvs, rfl⟩
  | other head op values child ih =>
    obtain ⟨vs, hvs⟩ := takesAll_exists fun e he => ih e he (.inl (expressions_iff.mp (h.resolve_right id) e he))
    exact ⟨_, vs, hvs, rfl⟩
  | expr1 head op c0 ih =>
    obtain ⟨v, hv⟩ := ih (.inl (h.resolve_right id))
    exact ⟨_, v, hv, rfl⟩
  | expr1Int1 head op c0 n ih =>
    obtain ⟨v, hv⟩ := ih (.inl (h.resolve_right id))
    exact ⟨_, v, hv, rfl⟩
  | expr1Int2 head op c0 hi lo ih =>
    obtain ⟨v, hv⟩ := ih (.inl (h.resolve_right id))
    exact ⟨_, v, hv, rfl⟩
  | expr2 head op c0 c1 ih0 ih1 =>
    have hc : c0.Expression ∧ c1.Expression := h.resolve_right id
    obtain ⟨v0, hv0⟩ := ih0 (.inl hc.1)
    obtain ⟨v1, hv1⟩ := ih1 (.inl hc.2)
    obtain ⟨v, hv⟩ := results_exists (OpExpr2.firrtl op (c0.word v0) (c1.word v1))
    exact ⟨_, v0, hv0, v1, hv1, v, hv, rfl⟩
  | select head op c0 c1 c2 ih0 ih1 ih2 =>
    cases op with
    | OP_WHEN => exact (h.elim id id).elim
    | OP_MUX =>
      have hc : c0.Expression ∧ c1.Expression ∧ c2.Expression := h.resolve_right id
      obtain ⟨v0, hv0⟩ := ih0 (.inl hc.1)
      obtain ⟨v1, hv1⟩ := ih1 (.inl hc.2.1)
      obtain ⟨v2, hv2⟩ := ih2 (.inl hc.2.2)
      by_cases hz : v0 = 0
      · exact ⟨_, v0, hv0, v2, fun hn => absurd hz hn, fun _ => hv2, rfl⟩
      · exact ⟨_, v0, hv0, v1, fun _ => hv1, fun hn => absurd hn hz, rfl⟩

/-- A statement has an outcome, if only that nothing is assigned. -/
theorem ENode.Statement.takes_exists {e : ENode} (h : e.Statement) : ∃ r, e.Takes sem any ρ r := by
  induction e using ENode.induct with
  | null => exact ⟨none, rfl⟩
  | invalid head => exact ⟨_, 0, rfl⟩
  | select head op c0 c1 c2 ih0 ih1 ih2 =>
    cases op with
    | OP_MUX =>
      obtain ⟨v, hv⟩ := ENode.takes_exists _ (.inl h)
      exact ⟨_, hv⟩
    | OP_WHEN =>
      obtain ⟨v0, hv0⟩ := c0.takes_exists (.inl h.1)
      obtain ⟨r1, hr1⟩ := ih1 h.2.1
      obtain ⟨r2, hr2⟩ := ih2 h.2.2
      by_cases hz : v0 = 0
      · exact ⟨r2, v0, hv0, fun hn => absurd hz hn, fun _ => .inr hr2⟩
      · exact ⟨r1, v0, hv0, fun _ => .inr hr1, fun hn => absurd hn hz⟩
  | _ =>
    obtain ⟨v, hv⟩ := ENode.takes_exists _ (.inl h)
    exact ⟨_, hv⟩

end Takes

/-! ## Records that hold -/

/-- What is recorded as constant is a value the node may take. -/
def ENode.RecordHolds (sem : OtherSemantics) (ρ : Nat → List Int → Int) (e : ENode) : Prop :=
  ∀ info, e.cons = some info → info.status = .VAL_CONSTANT →
    e.Takes sem ENode.Invalid ρ (some info.consVal)

/-- The values of the nodes agree with the constants that `consEMap` has of the tree. -/
def ENode.Consistent (sem : OtherSemantics) (ρ : Nat → List Int → Int) (e : ENode) : Prop :=
  e.All (ENode.RecordHolds sem ρ)

end Gsim.ConstantTree
