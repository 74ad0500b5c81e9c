/-
  Gsim/ExpTree.lean
  =================
  **Expression trees** (`ENode` and `ExpTree` in `ExpTree.h`).

  A leaf refers to a node of the graph, with one child per index into it; an inner
  node is an operator.  What an operator computes from its children is a parameter:
  it sees their widths and signs as the generated code does, so a pass that keeps a
  tree's value for every such parameter keeps it for the real one.
-/
import Mathlib

namespace Gsim.ExpTree

/-- The kinds of nodes; `special` ones print or assert. -/
inductive NodeType where
  | regSrc
  | regDst
  | special
  | inp
  | out
  | memory
  | reader
  | writer
  | readwriter
  | infer
  | others
  | regReset
  | extIn
  | extOut
  | ext
deriving DecidableEq, Repr

/-- `null` stands for a null child pointer. -/
inductive ENode (Op : Type) where
  | null
  | ref (node : Nat) (width : Int) (sign : Bool) (index : List (ENode Op))
  | op (op : Op) (width : Int) (sign : Bool) (children : List (ENode Op))

/-- The root computes the value, the lvalue says where it goes. -/
structure ETree (Op : Type) where
  root : ENode Op
  lvalue : Option (ENode Op)

variable {Op : Type}

namespace ENode

@[elab_as_elim]
theorem induct {motive : ENode Op → Prop} (null : motive .null)
    (ref : ∀ node width sign index, (∀ e ∈ index, motive e) → motive (.ref node width sign index))
    (op : ∀ o width sign children, (∀ e ∈ children, motive e) → motive (.op o width sign children))
    (e : ENode Op) : motive e := by
  refine @ENode.rec Op motive (fun es => ∀ e ∈ es, motive e) null ?_ ?_ ?_ ?_ e
  · intro node width sign index ih
    exact ref node width sign index ih
  · intro o width sign children ih
    exact op o width sign children ih
  · intro e h
    cases h
  · intro head tail hhead htail e h
    rcases List.mem_cons.mp h with rfl | h
    · exact hhead
    · exact htail e h

def getNode : ENode Op → Option Nat
  | .ref node _ _ _ => some node
  | _ => none

def child : ENode Op → List (ENode Op)
  | .null => []
  | .ref _ _ _ index => index
  | .op _ _ _ children => children

def setWidth (width : Int) : ENode Op → ENode Op
  | .null => .null
  | .ref node _ sign index => .ref node width sign index
  | .op o _ sign children => .op o width sign children

def addChildren (more : List (ENode Op)) : ENode Op → ENode Op
  | .null => .null
  | .ref node width sign index => .ref node width sign (index ++ more)
  | .op o width sign children => .op o width sign (children ++ more)

def width : ENode Op → Int
  | .null => 0
  | .ref _ width _ _ => width
  | .op _ width _ _ => width

end ENode

/-! ## References -/

mutual

/-- The nodes that a tree refers to (`getENodeRelyNodes`). -/
def ENode.refs : ENode Op → List Nat
  | .null => []
  | .ref node _ _ index => node :: refsList index
  | .op _ _ _ children => refsList children

def refsList : List (ENode Op) → List Nat
  | [] => []
  | e :: es => e.refs ++ refsList es

end

theorem mem_refsList {es : List (ENode Op)} {n : Nat} :
    n ∈ refsList es ↔ ∃ e ∈ es, n ∈ e.refs := by
  induction es with
  | nil => simp [refsList]
  | cons e es ih => simp [refsList, ih]

/-- The nodes in the root and in the indices of the lvalue. -/
def ETree.refs (tree : ETree Op) : List Nat :=
  tree.root.refs ++ refsList (tree.lvalue.elim [] ENode.child)

/-! ## Evaluation -/

/-- What a tree evaluates to: a value for each index into it, at a width and sign. -/
structure Value where
  width : Int
  sign : Bool
  val : List Int → Int

/-- The value of an index. -/
def indexOf : Option Value → Int
  | none => 0
  | some v => v.val []

/-- What an operator makes of its children, at its own width and sign. -/
abbrev Semantics (Op : Type) := Op → Int → Bool → List (Option Value) → List Int → Int

mutual

def ENode.eval (sem : Semantics Op) (ρ : Nat → List Int → Int) : ENode Op → Option Value
  | .null => none
  | .ref node width sign index =>
    some ⟨width, sign, fun more => ρ node ((evalList sem ρ index).map indexOf ++ more)⟩
  | .op o width sign children =>
    some ⟨width, sign, sem o width sign (evalList sem ρ children)⟩

def evalList (sem : Semantics Op) (ρ : Nat → List Int → Int) :
    List (ENode Op) → List (Option Value)
  | [] => []
  | e :: es => e.eval sem ρ :: evalList sem ρ es

end

section Evaluation

variable {sem : Semantics Op} {ρ ρ' : Nat → List Int → Int}

theorem evalList_eq_map (es : List (ENode Op)) :
    evalList sem ρ es = es.map (ENode.eval sem ρ) := by
  induction es with
  | nil => rfl
  | cons e es ih => rw [evalList, ih, List.map_cons]

theorem evalList_append (es es' : List (ENode Op)) :
    evalList sem ρ (es ++ es') = evalList sem ρ es ++ evalList sem ρ es' := by
  rw [evalList_eq_map, evalList_eq_map, evalList_eq_map, List.map_append]

/-- A tree depends on the nodes it refers to. -/
theorem ENode.eval_congr (e : ENode Op) (h : ∀ n ∈ e.refs, ρ n = ρ' n) :
    e.eval sem ρ = e.eval sem ρ' := by
  induction e using ENode.induct with
  | null => rfl
  | ref node width sign index ih =>
    have same : ρ node = ρ' node := h node (List.mem_cons_self)
    have children : evalList sem ρ index = evalList sem ρ' index := by
      rw [evalList_eq_map, evalList_eq_map]
      refine List.map_congr_left fun e he => ih e he fun n hn => h n ?_
      exact List.mem_cons_of_mem _ (mem_refsList.mpr ⟨e, he, hn⟩)
    rw [ENode.eval, ENode.eval, same, children]
  | op o width sign children ih =>
    have children : evalList sem ρ children = evalList sem ρ' children := by
      rw [evalList_eq_map, evalList_eq_map]
      exact List.map_congr_left fun e he => ih e he fun n hn => h n (mem_refsList.mpr ⟨e, he, hn⟩)
    rw [ENode.eval, ENode.eval, children]

theorem evalList_congr {es : List (ENode Op)} (h : ∀ n ∈ refsList es, ρ n = ρ' n) :
    evalList sem ρ es = evalList sem ρ' es := by
  rw [evalList_eq_map, evalList_eq_map]
  exact List.map_congr_left fun e he =>
    e.eval_congr fun n hn => h n (mem_refsList.mpr ⟨e, he, hn⟩)

end Evaluation

/-- What an assignment needs: the value of its root and those of the indices of its lvalue. -/
def ETree.eval (sem : Semantics Op) (ρ : Nat → List Int → Int) (tree : ETree Op) :
    Option Value × List (Option Value) :=
  (tree.root.eval sem ρ, evalList sem ρ (tree.lvalue.elim [] ENode.child))

theorem ETree.eval_congr {sem : Semantics Op} {ρ ρ' : Nat → List Int → Int} (tree : ETree Op)
    (h : ∀ n ∈ tree.refs, ρ n = ρ' n) : tree.eval sem ρ = tree.eval sem ρ' := by
  unfold ETree.eval
  rw [tree.root.eval_congr fun n hn => h n (List.mem_append_left _ hn),
    evalList_congr fun n hn => h n (List.mem_append_right _ hn)]

end Gsim.ExpTree
