/-
  Gsim/PatternTree.lean
  =====================
  **The trees that `patternDetect` looks at** (`src/patternDetect.cpp`).

  The pass runs behind `constantAnalysis`: an integer has been printed in base 10 by
  then, so `strVal` is a number.  The operators that the two patterns name have
  FIRRTL's meaning, at the width and sign of their own node; an integer is cut to its
  width (`valInfo::setConstantByStr`).  What any other operator computes is a
  parameter.
-/
import Gsim.ExpTree
import Gsim.FirrtlSemantics

namespace Gsim.PatternDetect

open Gsim.ExpTree Gsim.TwosComplement Gsim.FirrtlSemantics
open Gsim.ConstantNode hiding ENode

/-- `opType` with `values` and `strVal`. -/
inductive Op where
  | OP_INT (strVal : Int)
  | OP_EQ
  | OP_AND
  | OP_OR
  | OP_CAT
  | OP_DSHL
  | OP_SHL (values0 : Nat)
  | OP_PAD (values0 : Nat)
  | OP_BITS (values0 values1 : Nat)
  | other (opType : Nat) (values : List Int)
deriving DecidableEq, Repr

/-- `allocIntEnode`: the sign is read off the printed number. -/
def allocIntEnode (width : Int) (val : Int) : ENode Op :=
  .op (.OP_INT val) width (decide (val < 0)) []

def ENodeWidth (e : ENode Op) : Nat := e.width.toNat

def ENodeSign : ENode Op → Bool
  | .null => false
  | .ref _ _ sign _ | .op _ _ sign _ => sign

/-! ## Nodes -/

inductive NodeStatus where
  | VALID_NODE
  | DEAD_NODE
  | CONSTANT_NODE
  | REPLICATION_NODE
  | SPLITTED_NODE
  | EMPTY_REG
deriving DecidableEq, Repr

/-- What `patternDetect` reads of a `Node`; `next` is the set of its consumers. -/
structure Member where
  isArray : Bool
  type : NodeType
  width : Nat
  sign : Bool
  assignTree : List (ETree Op)
  resetTree : Option (ETree Op)
  next : List Nat
  status : NodeStatus

/-! ## Values -/

/-- A child as FIRRTL's operators see it. -/
def operand : Option Value → Word
  | none => ⟨0, false, 0⟩
  | some v => ⟨v.width.toNat, v.sign, v.val []⟩

def Op.application : Op → List Word → Option (Application Word)
  | .OP_EQ, [a, b] => some (.expr2 .OP_EQ a b)
  | .OP_AND, [a, b] => some (.expr2 .OP_AND a b)
  | .OP_OR, [a, b] => some (.expr2 .OP_OR a b)
  | .OP_CAT, [a, b] => some (.expr2 .OP_CAT a b)
  | .OP_DSHL, [a, b] => some (.expr2 .OP_DSHL a b)
  | .OP_SHL n, [a] => some (.expr1Int1 .OP_SHL a n)
  | .OP_PAD n, [a] => some (.expr1Int1 .OP_PAD a n)
  | .OP_BITS hi lo, [a] => some (.expr1Int2 .OP_BITS a hi lo)
  | _, _ => none

/-- What the operators that no pattern names make of their operands. -/
abbrev OtherSemantics := Op → Nat → Bool → List Word → Int

/-- The value of an operator at its own width and sign. -/
def denote (other : OtherSemantics) : Semantics Op := fun op width sign children _ =>
  let words := children.map operand
  wrap sign width.toNat <|
    match op with
    | .OP_INT strVal => strVal
    | op =>
      match op.application words with
      | some app => (firrtl app).getD 0
      | none => other op width.toNat sign words

/-- The value of a tree that is no array. -/
def valueOf (other : OtherSemantics) (ρ : Nat → List Int → Int) (e : ENode Op) : Int :=
  (operand (e.eval (denote other) ρ)).value

section Values

variable {other : OtherSemantics} {ρ : Nat → List Int → Int}

/-- What a parent sees of a child. -/
theorem operand_eval (e : ENode Op) :
    operand (e.eval (denote other) ρ) = ⟨ENodeWidth e, ENodeSign e, valueOf other ρ e⟩ := by
  cases e <;> rfl

theorem valueOf_op (op : Op) (width : Int) (sign : Bool) (children : List (ENode Op)) :
    valueOf other ρ (.op op width sign children) =
      denote other op width sign (evalList (denote other) ρ children) [] := rfl

@[simp]
theorem valueOf_int (strVal : Int) (width : Int) (sign : Bool) (children : List (ENode Op)) :
    valueOf other ρ (.op (.OP_INT strVal) width sign children) = wrap sign width.toNat strVal := rfl

/-- The operators of FIRRTL over one child. -/
theorem valueOf_one {op : Op} {width : Int} {sign : Bool} {a : ENode Op}
    (app : Word → Application Word) (h : ∀ x, op.application [x] = some (app x)) :
    valueOf other ρ (.op op width sign [a]) =
      wrap sign width.toNat
        ((firrtl (app ⟨ENodeWidth a, ENodeSign a, valueOf other ρ a⟩)).getD 0) := by
  have words : (evalList (denote other) ρ [a]).map operand =
      [⟨ENodeWidth a, ENodeSign a, valueOf other ρ a⟩] := by
    rw [evalList_eq_map, List.map_map, List.map_singleton, Function.comp_apply, operand_eval]
  rw [valueOf_op, denote, words]
  simp only [h]
  rintro strVal rfl
  cases h ⟨0, false, 0⟩

/-- The operators of FIRRTL over two children. -/
theorem valueOf_two {op : Op} {width : Int} {sign : Bool} {a b : ENode Op}
    (app : Word → Word → Application Word) (h : ∀ x y, op.application [x, y] = some (app x y)) :
    valueOf other ρ (.op op width sign [a, b]) =
      wrap sign width.toNat
        ((firrtl (app ⟨ENodeWidth a, ENodeSign a, valueOf other ρ a⟩
          ⟨ENodeWidth b, ENodeSign b, valueOf other ρ b⟩)).getD 0) := by
  have words : (evalList (denote other) ρ [a, b]).map operand =
      [⟨ENodeWidth a, ENodeSign a, valueOf other ρ a⟩,
        ⟨ENodeWidth b, ENodeSign b, valueOf other ρ b⟩] := by
    rw [evalList_eq_map, List.map_map, List.map_cons, List.map_singleton, Function.comp_apply,
      Function.comp_apply, operand_eval, operand_eval]
  rw [valueOf_op, denote, words]
  simp only [h]
  rintro strVal rfl
  cases h ⟨0, false, 0⟩ ⟨0, false, 0⟩

theorem wrap_truth (p : Prop) [Decidable p] : wrap false 1 (truth p) = truth p :=
  wrap_of_fits (fits_truth p)

@[simp]
theorem valueOf_eq (a b : ENode Op) :
    valueOf other ρ (.op .OP_EQ 1 false [a, b]) = truth (valueOf other ρ a = valueOf other ρ b) := by
  rw [valueOf_two (.expr2 .OP_EQ · ·) fun _ _ => rfl]
  exact wrap_truth _

theorem truth_land (p q : Prop) [Decidable p] [Decidable q] :
    Int.land (truth p) (truth q) = truth (p ∧ q) := by
  by_cases hp : p <;> by_cases hq : q <;> simp [truth, hp, hq] <;> decide

/-- A conjunction of two comparisons. -/
theorem valueOf_and_eq (a b c d : ENode Op) :
    valueOf other ρ (.op .OP_AND 1 false [.op .OP_EQ 1 false [a, b], .op .OP_EQ 1 false [c, d]]) =
      truth (valueOf other ρ a = valueOf other ρ b ∧ valueOf other ρ c = valueOf other ρ d) := by
  have small : ∀ (p : Prop) [Decidable p], truth p % 2 ^ 1 = truth p := by
    intro p _
    by_cases hp : p <;> simp [truth, hp]
  rw [valueOf_two (.expr2 .OP_AND · ·) fun _ _ => rfl, valueOf_eq, valueOf_eq]
  show wrap false 1 (Int.land (truth _ % 2 ^ 1) (truth _ % 2 ^ 1)) = _
  rw [small, small, truth_land]
  exact wrap_truth _

end Values

end Gsim.PatternDetect
