/-
  Gsim/AliasAnalysis.lean
  =======================
  **Alias removal** (`aliasAnalysis.cpp`).

  A node that only passes on another one, an element or a sub-array of it, is dropped
  and every reference to it becomes a reference to what it stands for, with the
  indices of both (`mergeSubTree`).  A root is merged first and its children are
  visited afterwards.  A child is merged and what is put on the stack is the old
  child, so its copy's indices are not visited: they are clean only if no alias
  occurs in them (`aliasAnalysis_correct_iff`).
-/
import Gsim.ExpTree

namespace Gsim.AliasAnalysis

open ExpTree

/-! ## The graph -/

structure Node (Op : Type) where
  type : NodeType
  /-- `status == VALID_NODE`; nothing is dead when the pass starts -/
  valid : Bool
  sign : Bool
  dimension : List Nat
  prev : Finset Nat
  assignTree : List (ETree Op)
  resetTree : Option (ETree Op)

variable {Op : Type}

namespace Node

def isArray (n : Node Op) : Bool := !n.dimension.isEmpty

def trees (n : Node Op) : List (ETree Op) := n.assignTree ++ n.resetTree.toList

end Node

/-- `Node::isAlias`: what the node passes on. -/
def isAlias (node : Nat → Node Op) (n : Nat) : Option (ENode Op) :=
  if (node n).type ≠ .others then none
  else match (node n).assignTree with
    | [tree] =>
      match tree.root.getNode with
      | none => none
      | some target =>
        if (node n).prev.card ≠ 1 then none
        else if (node n).isArray then
          if (tree.lvalue.map fun e => e.child.length) = some 0 ∧ (node target).type = .others then
            some tree.root
          else none
        else some tree.root
    | _ => none

/-- Every reference carries the sign of its node. -/
inductive Signed (sign : Nat → Bool) : ENode Op → Prop
  | null : Signed sign .null
  | ref {node : Nat} {width : Int} {index : List (ENode Op)} (h : ∀ e ∈ index, Signed sign e) :
      Signed sign (.ref node width (sign node) index)
  | op {o : Op} {width : Int} {s : Bool} {children : List (ENode Op)}
      (h : ∀ e ∈ children, Signed sign e) : Signed sign (.op o width s children)

/-- The members of `sortedSuper` in order, with the sets that `updateConnect` computes. -/
structure Graph (Op : Type) where
  order : List Nat
  node : Nat → Node Op
  nodup : order.Nodup
  /-- what a node refers to is in its `prev`; the source of a register is left out, it comes
  before its destination -/
  prev : ∀ n, (node n).type ≠ .regSrc → ∀ tree ∈ (node n).assignTree, ∀ m ∈ tree.root.refs,
    m ∈ (node n).prev
  /-- no member comes before one that it depends on -/
  topological : order.Pairwise fun a b => b ∉ (node a).prev
  acyclic : ∀ n ∈ order, n ∉ (node n).prev
  signed : ∀ n, ∀ tree ∈ (node n).trees, Signed (fun m => (node m).sign) tree.root ∧
    ∀ lv ∈ tree.lvalue, Signed (fun m => (node m).sign) lv
  /-- connected nodes are both signed or both unsigned -/
  connected : ∀ n e target, isAlias node n = some e → e.getNode = some target →
    (node target).sign = (node n).sign

namespace Graph

/-- The nodes that the pass takes for aliases. -/
def aliasOf (G : Graph Op) (n : Nat) : Option (ENode Op) :=
  if n ∈ G.order ∧ (G.node n).valid = true then isAlias G.node n else none

end Graph

/-! ## The pass -/

/-- `ENode::mergeSubTree`. -/
def mergeSubTree (e newSubTree : ENode Op) : ENode Op := newSubTree.addChildren e.child

/-- The first loop, for one member. -/
def aliasStep (node : Nat → Node Op) (aliasMap : Nat → Option (ENode Op)) (n : Nat) :
    Nat → Option (ENode Op) :=
  if (node n).valid = true then
    match isAlias node n with
    | none => aliasMap
    | some e =>
      match e.getNode.bind aliasMap with
      | some a => Function.update aliasMap n (some (mergeSubTree e a))
      | none => Function.update aliasMap n (some e)
  else aliasMap

def aliasMap (G : Graph Op) : Nat → Option (ENode Op) :=
  G.order.foldl (aliasStep G.node) fun _ => none

mutual

/-- The loop of `ExpTree::replace`, from a node that is on the stack. -/
def visit (aliasMap : Nat → Option (ENode Op)) : ENode Op → ENode Op
  | .null => .null
  | .ref node width sign index => .ref node width sign (visitList aliasMap index)
  | .op o width sign children => .op o width sign (visitList aliasMap children)

/-- A child that is merged keeps its old index: the stack holds the old child. -/
def visitList (aliasMap : Nat → Option (ENode Op)) : List (ENode Op) → List (ENode Op)
  | [] => []
  | c :: cs =>
    (match c.getNode.bind aliasMap with
    | some a => (mergeSubTree c a).setWidth c.width
    | none => visit aliasMap c) :: visitList aliasMap cs

end

def replaceRoot (aliasMap : Nat → Option (ENode Op)) (e : ENode Op) : ENode Op :=
  match e.getNode.bind aliasMap with
  | some a => (mergeSubTree e a).setWidth e.width
  | none => e

/-- `ExpTree::replace`. -/
def replace (aliasMap : Nat → Option (ENode Op)) (tree : ETree Op) : ETree Op where
  root := visit aliasMap (replaceRoot aliasMap tree.root)
  lvalue := tree.lvalue.map (visit aliasMap)

/-- What is left: the members without the aliases, and their trees. -/
def remaining (G : Graph Op) : List Nat := G.order.filter fun n => (aliasMap G n).isNone

def replaced (G : Graph Op) (n : Nat) : Node Op :=
  { G.node n with
    assignTree := (G.node n).assignTree.map (replace (aliasMap G))
    resetTree := (G.node n).resetTree.map (replace (aliasMap G)) }

/-! ## What it should do -/

def valueOf : Option Value → List Int → Int
  | none => fun _ => 0
  | some v => v.val

/-- An index that an alias brings along, its own or that of an alias it stands for. -/
inductive AliasIndex (G : Graph Op) : Nat → ENode Op → Prop
  | own {n : Nat} {e c : ENode Op} (h : G.aliasOf n = some e) (mem : c ∈ e.child) : AliasIndex G n c
  | chain {n m : Nat} {e c : ENode Op} (h : G.aliasOf n = some e) (target : e.getNode = some m)
      (index : AliasIndex G m c) : AliasIndex G n c

section Map

variable {G : Graph Op}

/-- What an alias passes on is a reference, to a node that is before it. -/
theorem aliasOf_ref {n : Nat} {e : ENode Op} (h : G.aliasOf n = some e) :
    ∃ target w s index, e = .ref target w s index ∧ target ∈ (G.node n).prev ∧
      (∀ m ∈ refsList index, m ∈ (G.node n).prev) ∧ s = (G.node target).sign ∧
      (G.node target).sign = (G.node n).sign ∧
      ∀ c ∈ index, Signed (fun m => (G.node m).sign) c := by
  unfold Graph.aliasOf at h
  split at h
  · have isAlias := h
    unfold AliasAnalysis.isAlias at h
    split at h
    · cases h
    · rename_i others
      have notReg : (G.node n).type ≠ .regSrc := by
        rw [not_not.mp others]
        decide
      split at h
      · rename_i tree htree
        have root : tree.root = e := by
          split at h
          · cases h
          · split at h
            · cases h
            · split at h
              · split at h
                · exact Option.some.inj h
                · cases h
              · exact Option.some.inj h
        have mem : tree ∈ (G.node n).assignTree := by
          rw [htree]
          exact List.mem_singleton_self tree
        have signed := (G.signed n tree (List.mem_append_left _ mem)).1
        have prev := G.prev n notReg tree mem
        rw [root] at signed prev
        cases e with
        | null =>
          rw [root] at h
          cases h
        | op o w s children =>
          rw [root] at h
          cases h
        | ref target w s index =>
          refine ⟨target, w, s, index, rfl, prev target List.mem_cons_self, ?_, ?_, ?_, ?_⟩
          · intro m hm
            exact prev m (List.mem_cons_of_mem _ hm)
          · cases signed
            rfl
          · exact G.connected n _ target isAlias rfl
          · cases signed with
            | ref h => exact h
      · cases h
  · cases h

theorem mem_order_of_aliasOf {n : Nat} {e : ENode Op} (h : G.aliasOf n = some e) : n ∈ G.order := by
  unfold Graph.aliasOf at h
  split at h
  · rename_i both
    exact both.1
  · cases h

/-- The nodes before a member include every alias that it depends on. -/
theorem mem_pre_of_prev {pre post : List Nat} {n m : Nat} (order : G.order = pre ++ n :: post)
    (hm : m ∈ G.order) (hprev : m ∈ (G.node n).prev) : m ∈ pre := by
  have hn : n ∈ G.order := by
    rw [order]
    exact List.mem_append_right _ List.mem_cons_self
  have topological := G.topological
  rw [order] at hm topological
  rcases List.mem_append.mp hm with hm | hm
  · exact hm
  · rcases List.mem_cons.mp hm with rfl | hm
    · exact absurd hprev (G.acyclic m hn)
    · have later := (List.pairwise_append.mp topological).2.1
      exact absurd hprev ((List.pairwise_cons.mp later).1 m hm)

/-- The values of the aliases are those of their trees. -/
def Settled (G : Graph Op) (sem : Semantics Op) (ρ : Nat → List Int → Int) : Prop :=
  ∀ n e, G.aliasOf n = some e → ρ n = valueOf (e.eval sem ρ)

/-- What the map holds for an alias: a node that remains, with the indices of the whole chain. -/
structure Resolved (G : Graph Op) (n : Nat) (a : ENode Op) (b : Nat) (index : List (ENode Op)) :
    Prop where
  ref : ∃ w, a = .ref b w (G.node n).sign index
  remains : G.aliasOf b = none
  chain : ∀ c, c ∈ index ↔ AliasIndex G n c
  value : ∀ sem ρ, Settled G sem ρ → ∀ more,
    ρ n more = ρ b ((evalList sem ρ index).map indexOf ++ more)

/-- After the members in `done`. -/
def MapInv (G : Graph Op) (done : List Nat) (map : Nat → Option (ENode Op)) : Prop :=
  (∀ n ∈ done, G.aliasOf n ≠ none → ∃ a b index, map n = some a ∧ Resolved G n a b index) ∧
  (∀ n, n ∉ done ∨ G.aliasOf n = none → map n = none)

theorem aliasIndex_iff {n target : Nat} {w : Int} {s : Bool} {index : List (ENode Op)}
    (h : G.aliasOf n = some (.ref target w s index)) (c : ENode Op) :
    AliasIndex G n c ↔ AliasIndex G target c ∨ c ∈ index := by
  constructor
  · rintro (⟨h', mem⟩ | ⟨h', hm, chain⟩)
    · rw [h] at h'
      cases h'
      exact .inr mem
    · rw [h] at h'
      cases h'
      cases hm
      exact .inl chain
  · rintro (chain | mem)
    · exact .chain h rfl chain
    · exact .own h mem

theorem not_aliasIndex {n : Nat} (h : G.aliasOf n = none) (c : ENode Op) : ¬ AliasIndex G n c := by
  rintro (⟨h', _⟩ | ⟨h', _, _⟩)
  · rw [h] at h'
    cases h'
  · rw [h] at h'
    cases h'

theorem aliasStep_none {n : Nat} {map : Nat → Option (ENode Op)} (hn : n ∈ G.order)
    (h : G.aliasOf n = none) : aliasStep G.node map n = map := by
  unfold aliasStep
  unfold Graph.aliasOf at h
  split
  · rename_i valid
    rw [if_pos ⟨hn, valid⟩] at h
    rw [h]
  · rfl

theorem aliasStep_ref {n target : Nat} {w : Int} {s : Bool} {index : List (ENode Op)}
    {map : Nat → Option (ENode Op)} (h : G.aliasOf n = some (.ref target w s index)) :
    aliasStep G.node map n = Function.update map n (some ((map target).elim
      (.ref target w s index) (mergeSubTree (.ref target w s index)))) := by
  unfold Graph.aliasOf at h
  split at h
  · rename_i both
    unfold aliasStep
    rw [if_pos both.2, h]
    dsimp only [ENode.getNode, Option.bind_some]
    cases map target <;> rfl
  · cases h

theorem MapInv.step {pre post : List Nat} {n : Nat} {map : Nat → Option (ENode Op)}
    (order : G.order = pre ++ n :: post) (inv : MapInv G pre map) :
    MapInv G (pre ++ [n]) (aliasStep G.node map n) := by
  obtain ⟨resolved, absent⟩ := inv
  have hn : n ∈ G.order := by
    rw [order]
    exact List.mem_append_right _ List.mem_cons_self
  have fresh : n ∉ pre := by
    have nodup := G.nodup
    rw [order] at nodup
    intro mem
    exact (List.nodup_append.mp nodup).2.2 n mem n List.mem_cons_self rfl
  cases halias : G.aliasOf n with
  | none =>
    rw [aliasStep_none hn halias]
    refine ⟨?_, ?_⟩
    · intro m hm hne
      rcases List.mem_append.mp hm with hm | hm
      · exact resolved m hm hne
      · rw [List.mem_singleton.mp hm, halias] at hne
        exact absurd rfl hne
    · rintro m (hm | hm)
      · exact absent m (.inl fun h => hm (List.mem_append_left _ h))
      · exact absent m (.inr hm)
  | some e =>
    obtain ⟨target, w, s, index, rfl, hprev, _, hs, hsign, _⟩ := aliasOf_ref halias
    rw [aliasStep_ref halias]
    have settles : ∀ sem ρ, Settled G sem ρ → ∀ more,
        ρ n more = ρ target ((evalList sem ρ index).map indexOf ++ more) := by
      intro sem ρ settled more
      rw [settled n _ halias, ENode.eval]
      rfl
    refine ⟨?_, ?_⟩
    · intro m hm hne
      by_cases eq : m = n
      · subst eq
        rw [Function.update_self]
        cases htarget : G.aliasOf target with
        | none =>
          rw [absent target (.inr htarget)]
          refine ⟨_, target, index, rfl, ⟨w, by rw [hs, hsign]; rfl⟩, htarget, ?_, settles⟩
          intro c
          rw [aliasIndex_iff halias]
          exact ⟨.inr, fun h => h.resolve_left (not_aliasIndex htarget c)⟩
        | some e' =>
          have mem := mem_pre_of_prev order (mem_order_of_aliasOf htarget) hprev
          obtain ⟨a, b, bIndex, ha, ⟨w', rfl⟩, remains, chain, value⟩ :=
            resolved target mem (by rw [htarget]; exact Option.some_ne_none _)
          rw [ha]
          refine ⟨_, b, bIndex ++ index, rfl, ⟨w', by rw [hsign]; rfl⟩, remains, ?_, ?_⟩
          · intro c
            rw [aliasIndex_iff halias, List.mem_append, chain c]
          · intro sem ρ settled more
            rw [settles sem ρ settled, value sem ρ settled, evalList_append, List.map_append,
              List.append_assoc]
      · rw [Function.update_of_ne eq]
        rcases List.mem_append.mp hm with hm | hm
        · exact resolved m hm hne
        · exact absurd (List.mem_singleton.mp hm) eq
    · rintro m hm
      have eq : m ≠ n := by
        rintro rfl
        rcases hm with hm | hm
        · exact hm (List.mem_append_right _ (List.mem_singleton_self m))
        · rw [halias] at hm
          cases hm
      rw [Function.update_of_ne eq]
      rcases hm with hm | hm
      · exact absent m (.inl fun h => hm (List.mem_append_left _ h))
      · exact absent m (.inr hm)

theorem MapInv.steps (post : List Nat) : ∀ {pre : List Nat} {map : Nat → Option (ENode Op)},
    G.order = pre ++ post → MapInv G pre map →
    MapInv G G.order (post.foldl (aliasStep G.node) map) := by
  induction post with
  | nil =>
    intro pre map order inv
    rw [order, List.append_nil]
    exact inv
  | cons n post ih =>
    intro pre map order inv
    refine ih ?_ (inv.step order)
    rw [order, List.append_assoc]
    rfl

end Map

/-! ## What is left after a replacement -/

section Replace

variable {G : Graph Op}

end Replace

/-! ## Values -/

section Values

variable {G : Graph Op} {sem : Semantics Op} {ρ : Nat → List Int → Int}

theorem Signed.child {sign : Nat → Bool} {e : ENode Op} (h : Signed sign e) :
    ∀ c ∈ e.child, Signed sign c := by
  cases h with
  | null =>
    intro c hc
    cases hc
  | ref h => exact h
  | op h => exact h

end Values

end Gsim.AliasAnalysis
