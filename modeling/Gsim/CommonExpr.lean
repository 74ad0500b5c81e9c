/-
  Gsim/CommonExpr.lean
  ====================
  **Common-expression merging** (`commonExpr.cpp`).

  Candidates are put into buckets by a hash of their trees, and a node is merged into
  an earlier one of its bucket when their trees are equal up to merged nodes.  The
  loop that merges runs over all members, and a member that is no candidate has its
  id for a key: when two candidates hash to that id, it is compared like them.  So
  merging is sound as long as equal trees meet in a bucket for candidates of one
  width and sign only (`commonExpr_sound`), and an output can disappear otherwise
  (`output_merged`).
-/
import Gsim.ExpTree

namespace Gsim.CommonExpr

open ExpTree

/-! ## Nodes -/

/-- `opType`, `values` and `strVal` of an `ENode` without a node.  `memoryNode` is left out: memory
accesses stand in the trees of ports only (`visitChirrtlPort`), and no port is a candidate. -/
structure EOp where
  opType : Nat
  values : List Int
  strVal : String
deriving DecidableEq, Repr

/-- `OP_INT` among the operators. -/
def OP_INT : Nat := 42

def MAX_COMMON_NEXT : Nat := 5

def BASIC_WIDTH : Int := 256

structure Node where
  id : Nat
  /-- the super node's type is `SUPER_VALID` -/
  superValid : Bool
  /-- `status == VALID_NODE` -/
  valid : Bool
  type : NodeType
  isArray : Bool
  prevSize : Nat
  nextSize : Nat
  width : Int
  sign : Bool
  assignTree : List (ETree EOp)

/-- The members of `sortedSuper` in order. -/
structure Graph where
  order : List Nat
  node : Nat → Node
  nodup : order.Nodup

/-- The nodes that the pass means to merge. -/
def Node.candidate (n : Node) : Bool :=
  n.superValid && n.valid && decide (n.type = .others) && !n.isArray && decide (n.prevSize ≠ 0)

/-! ## Keys -/

section Keys

variable (node : Nat → Node) (exprKeyCache : Nat → UInt64)

/-- `ENode::keyHash`; `opType * width` is an `int`. -/
def enodeKey : ENode EOp → UInt64
  | .null => 0
  | .ref n _ _ _ => if exprKeyCache n = 0 then UInt64.ofNat (node n).id else exprKeyCache n
  | .op o width _ _ => UInt64.ofInt (o.opType * width)

mutual

/-- `ExpTree::keyHash`; the stack gives the last child first. -/
def hash (ret : UInt64) (e : ENode EOp) : UInt64 :=
  match e with
  | .null => ret
  | .ref n w s index => hashChildren (ret * 123 + enodeKey node exprKeyCache (.ref n w s index)) index
  | .op o w s children =>
    hashChildren (ret * 123 + enodeKey node exprKeyCache (.op o w s children)) children

def hashChildren (ret : UInt64) (es : List (ENode EOp)) : UInt64 :=
  match es with
  | [] => ret
  | e :: es => hash (hashChildren ret es) e

end

/-- `Node::keyHash`. -/
def nodeKey (n : Nat) : UInt64 :=
  (node n).assignTree.foldl (fun ret tree => ret + hash node exprKeyCache 0 tree.root) 0

end Keys

structure KeyState where
  exprKeyCache : Nat → UInt64
  exprId : UInt64 → List Nat

def keyStep (node : Nat → Node) (st : KeyState) (n : Nat) : KeyState :=
  if (node n).superValid && !(node n).valid then st
  else
    let cache := Function.update st.exprKeyCache n (UInt64.ofNat (node n).id)
    if (node n).candidate then
      let key := nodeKey node cache n
      { exprKeyCache := Function.update cache n key
        exprId := Function.update st.exprId key (st.exprId key ++ [n]) }
    else { st with exprKeyCache := cache }

def keys (G : Graph) : KeyState := G.order.foldl (keyStep G.node) ⟨fun _ => 0, fun _ => []⟩

/-! ## Matching -/

/-- Equal operators; only a constant's text counts. -/
def sameOp (o o' : EOp) : Bool :=
  decide (o.opType = o'.opType) && (decide (o.opType ≠ OP_INT) || decide (o.strVal = o'.strVal)) &&
    decide (o.values = o'.values)

mutual

/-- `checkTreeEq`, with the test for the nodes referred to as a parameter. -/
def checkTreeEq (same : Nat → Nat → Bool) : ENode EOp → ENode EOp → Bool
  | .null, .null => true
  | .ref n w s index, .ref n' w' s' index' =>
    decide (w = w') && decide (s = s') && same n n' && checkListEq same index index'
  | .op o w s children, .op o' w' s' children' =>
    sameOp o o' && decide (w = w') && decide (s = s') && checkListEq same children children'
  | _, _ => false

def checkListEq (same : Nat → Nat → Bool) : List (ENode EOp) → List (ENode EOp) → Bool
  | [], [] => true
  | e :: es, e' :: es' => checkTreeEq same e e' && checkListEq same es es'
  | _, _ => false

end

/-- `checkNodeEq`. -/
def checkNodeEq (node : Nat → Node) (same : Nat → Nat → Bool) (a b : Nat) : Bool :=
  checkListEq same ((node a).assignTree.map ETree.root) ((node b).assignTree.map ETree.root)

/-- The same node, or nodes with one `realValue`. -/
def sameNode (realValue : Nat → Option Nat) (n n' : Nat) : Bool :=
  decide (n = n') || (decide (realValue n ≠ none) && decide (realValue n = realValue n'))

structure MatchState where
  realValue : Nat → Option Nat
  uniqueNodes : Nat → Option (List Nat)
  key2UniqueNodes : UInt64 → List Nat

/-- One round of the inner loop, which goes on after a match. -/
def tryUnique (node : Nat → Node) (n : Nat) (st : MatchState) (unique : Nat) : MatchState :=
  match st.uniqueNodes unique with
  | none => st
  | some group =>
    if checkNodeEq node (sameNode st.realValue) n unique then
      { st with
        uniqueNodes := Function.update st.uniqueNodes unique (some (group ++ [n]))
        realValue := Function.update st.realValue n (some unique) }
    else st

/-- The node stands for itself. -/
def MatchState.addUnique (st : MatchState) (n : Nat) : MatchState :=
  { st with
    realValue := Function.update st.realValue n (some n)
    uniqueNodes := Function.update st.uniqueNodes n (some [n]) }

def matchStep (G : Graph) (K : KeyState) (st : MatchState) (n : Nat) : MatchState :=
  let key := K.exprKeyCache n
  if (K.exprId key).length ≤ 1 then st.addUnique n
  else
    let st := (st.key2UniqueNodes key).foldl (tryUnique G.node n) st
    if st.realValue n = none then
      { st.addUnique n with
        key2UniqueNodes :=
          Function.update st.key2UniqueNodes key (st.key2UniqueNodes key ++ [n]) }
    else st

def matched (G : Graph) : MatchState :=
  G.order.foldl (matchStep G (keys G)) ⟨fun _ => none, fun _ => none, fun _ => []⟩

def mergeCond (node : Nat → Node) (group : List Nat) : Bool :=
  decide (MAX_COMMON_NEXT ≤ group.length) ||
    (group.head?.any fun n => decide (BASIC_WIDTH < (node n).width)) ||
    group.any fun n => decide (1 < (node n).nextSize)

/-- The nodes that are marked `DEAD_NODE`. -/
def markedDead (G : Graph) : List Nat :=
  G.order.flatMap fun unique =>
    let group := ((matched G).uniqueNodes unique).getD []
    if mergeCond G.node group then group.tail else []

/-! ## Runs -/

/-- What an operator computes; texts other than those of constants are only printed. -/
def semOf (f : Nat → List Int → String → Int → Bool → List (Option Value) → List Int → Int) :
    Semantics EOp :=
  fun o => f o.opType o.values (if o.opType = OP_INT then o.strVal else "")

/-- The values of all nodes in all cycles: a candidate executes its trees on its old value, all
other nodes are left open. -/
structure Run (G : Graph) where
  f : Nat → Nat → List Int → String → Int → Bool → List (Option Value) → List Int → Int
  exec : Int → Bool → (List Int → Int) → List (Option Value) → List Int → Int
  start : List Int → Int
  val : Nat → Nat → List Int → Int
  zero : ∀ n ∈ G.order, (G.node n).candidate →
    val 0 n = exec (G.node n).width (G.node n).sign start
      ((G.node n).assignTree.map fun tree => tree.root.eval (semOf (f 0)) (val 0))
  succ : ∀ t, ∀ n ∈ G.order, (G.node n).candidate →
    val (t + 1) n = exec (G.node n).width (G.node n).sign (val t n)
      ((G.node n).assignTree.map fun tree => tree.root.eval (semOf (f (t + 1))) (val (t + 1)))

/-- Nodes with one `realValue` have one value, and only ordinary nodes disappear. -/
structure Sound (G : Graph) : Prop where
  values : ∀ a b u, (matched G).realValue a = some u → (matched G).realValue b = some u →
    ∀ (R : Run G) (t : Nat), R.val t a = R.val t b
  dead : ∀ n ∈ markedDead G, (G.node n).type = .others ∧ (G.node n).isArray = false

/-! ## When merging is sound -/

/-- Members of a bucket that is compared. -/
def Meet (G : Graph) (a b : Nat) : Prop :=
  a ∈ G.order ∧ b ∈ G.order ∧ (keys G).exprKeyCache a = (keys G).exprKeyCache b ∧
    1 < ((keys G).exprId ((keys G).exprKeyCache a)).length

open Classical in
/-- A relation as a test. -/
noncomputable def test (R : Nat → Nat → Prop) (n n' : Nat) : Bool := decide (R n n')

theorem test_iff {R : Nat → Nat → Prop} {n n' : Nat} : test R n n' = true ↔ R n n' := by
  simp [test]

/-- A way to identify nodes that goes with the trees. -/
structure Closed (G : Graph) (R : Nat → Nat → Prop) : Prop where
  equivalence : Equivalence R
  merges : ∀ a b, Meet G a b → checkNodeEq G.node (test R) a b → R a b

/-- Nodes with equal trees, up to nodes with equal trees. -/
def Twin (G : Graph) (a b : Nat) : Prop := ∀ R, Closed G R → R a b

/-- Only candidates of one width and sign are twins. -/
def TwinsMergeable (G : Graph) : Prop :=
  ∀ a b, a ≠ b → Twin G a b → a ∈ G.order ∧ b ∈ G.order ∧ (G.node a).candidate ∧
    (G.node b).candidate ∧ (G.node a).width = (G.node b).width ∧
    (G.node a).sign = (G.node b).sign

/-! ## Equal trees -/

section Trees

variable {same same' : Nat → Nat → Bool}

theorem checkListEq_map {es es' : List (ENode EOp)} :
    checkListEq same es es' = true ↔ List.Forall₂ (fun e e' => checkTreeEq same e e' = true) es es' := by
  induction es generalizing es' with
  | nil => cases es' <;> simp [checkListEq]
  | cons e es ih => cases es' <;> simp [checkListEq, ih]

theorem forall₂_imp_of_mem {α β : Type} {R S : α → β → Prop} {as : List α} {bs : List β}
    (h : List.Forall₂ R as bs) (imp : ∀ a ∈ as, ∀ b, R a b → S a b) : List.Forall₂ S as bs := by
  induction h with
  | nil => exact .nil
  | cons hab _ ih =>
    refine .cons (imp _ List.mem_cons_self _ hab) (ih fun a ha => ?_)
    exact imp a (List.mem_cons_of_mem _ ha)

theorem checkTreeEq_mono (h : ∀ n n', same n n' = true → same' n n' = true) (e : ENode EOp) :
    ∀ e', checkTreeEq same e e' = true → checkTreeEq same' e e' = true := by
  induction e using ENode.induct with
  | null =>
    intro e' he
    cases e' with
    | null => rfl
    | ref | op => cases he
  | ref n w s index ih =>
    intro e' he
    cases e' with
    | null | op => cases he
    | ref n' w' s' index' =>
      simp only [checkTreeEq, Bool.and_eq_true, checkListEq_map] at he ⊢
      refine ⟨⟨he.1.1, h n n' he.1.2⟩, ?_⟩
      exact forall₂_imp_of_mem he.2 ih
  | op o w s children ih =>
    intro e' he
    cases e' with
    | null | ref => cases he
    | op o' w' s' children' =>
      simp only [checkTreeEq, Bool.and_eq_true, checkListEq_map] at he ⊢
      refine ⟨he.1, ?_⟩
      exact forall₂_imp_of_mem he.2 ih

theorem checkNodeEq_mono (h : ∀ n n', same n n' = true → same' n n' = true) {node : Nat → Node}
    {a b : Nat} (he : checkNodeEq node same a b = true) : checkNodeEq node same' a b = true := by
  unfold checkNodeEq at he ⊢
  rw [checkListEq_map] at he ⊢
  exact he.imp fun e e' hee => checkTreeEq_mono h e e' hee

theorem sameOp_sem {o o' : EOp} (h : sameOp o o' = true)
    (f : Nat → List Int → String → Int → Bool → List (Option Value) → List Int → Int) :
    semOf f o = semOf f o' := by
  simp only [sameOp, Bool.and_eq_true, Bool.or_eq_true, decide_eq_true_eq] at h
  obtain ⟨⟨type, text⟩, values⟩ := h
  unfold semOf
  rw [← type, values]
  split
  · rename_i int
    rcases text with ne | text
    · exact absurd int ne
    · rw [text]
  · rfl

/-- Equal trees have equal values when the nodes that are taken for equal have. -/
theorem checkTreeEq_eval {f : Nat → List Int → String → Int → Bool → List (Option Value) → List Int → Int}
    {ρ : Nat → List Int → Int} (h : ∀ n n', same n n' = true → ρ n = ρ n') (e : ENode EOp) :
    ∀ e', checkTreeEq same e e' = true → e.eval (semOf f) ρ = e'.eval (semOf f) ρ := by
  have lists : ∀ es : List (ENode EOp), (∀ e ∈ es, ∀ e', checkTreeEq same e e' = true →
      e.eval (semOf f) ρ = e'.eval (semOf f) ρ) → ∀ es', checkListEq same es es' = true →
      evalList (semOf f) ρ es = evalList (semOf f) ρ es' := by
    intro es ih es' he
    rw [evalList_eq_map, evalList_eq_map, ← List.forall₂_eq_eq_eq, List.forall₂_map_left_iff,
      List.forall₂_map_right_iff]
    exact forall₂_imp_of_mem (checkListEq_map.mp he) ih
  induction e using ENode.induct with
  | null =>
    intro e' he
    cases e' with
    | null => rfl
    | ref | op => cases he
  | ref n w s index ih =>
    intro e' he
    cases e' with
    | null | op => cases he
    | ref n' w' s' index' =>
      simp only [checkTreeEq, Bool.and_eq_true, decide_eq_true_eq] at he
      obtain ⟨⟨⟨rfl, rfl⟩, hn⟩, he⟩ := he
      rw [ENode.eval, ENode.eval, h n n' hn, lists index ih index' he]
  | op o w s children ih =>
    intro e' he
    cases e' with
    | null | ref => cases he
    | op o' w' s' children' =>
      simp only [checkTreeEq, Bool.and_eq_true, decide_eq_true_eq] at he
      obtain ⟨⟨⟨ho, rfl⟩, rfl⟩, he⟩ := he
      rw [ENode.eval, ENode.eval, sameOp_sem ho f, lists children ih children' he]

theorem checkNodeEq_eval {f : Nat → List Int → String → Int → Bool → List (Option Value) → List Int → Int}
    {ρ : Nat → List Int → Int} (h : ∀ n n', same n n' = true → ρ n = ρ n') {node : Nat → Node}
    {a b : Nat} (he : checkNodeEq node same a b = true) :
    ((node a).assignTree.map fun tree => tree.root.eval (semOf f) ρ) =
      (node b).assignTree.map fun tree => tree.root.eval (semOf f) ρ := by
  unfold checkNodeEq at he
  rw [checkListEq_map, List.forall₂_map_left_iff, List.forall₂_map_right_iff] at he
  rw [← List.forall₂_eq_eq_eq, List.forall₂_map_left_iff, List.forall₂_map_right_iff]
  exact he.imp fun tree tree' eq => checkTreeEq_eval h tree.root tree'.root eq

end Trees

/-! ## Twins -/

section Twins

variable {G : Graph}

theorem twin_equivalence : Equivalence (Twin G) where
  refl a _ closed := closed.equivalence.refl a
  symm h R closed := closed.equivalence.symm (h R closed)
  trans h h' R closed := closed.equivalence.trans (h R closed) (h' R closed)

theorem twin_closed : Closed G (Twin G) := by
  refine ⟨twin_equivalence, fun a b meet he R closed => closed.merges a b meet ?_⟩
  refine checkNodeEq_mono (fun n n' h => test_iff.mpr ?_) he
  have twin : Twin G n n' := test_iff.mp h
  exact twin R closed

/-- Twins have the same value in every cycle: that they are equal goes with the trees. -/
theorem Twin.values (mergeable : TwinsMergeable G) (R : Run G) {a b : Nat} (h : Twin G a b) :
    ∀ t, R.val t a = R.val t b := by
  have closed : Closed G fun a b => Twin G a b ∧ ∀ t, R.val t a = R.val t b := by
    refine ⟨⟨?_, ?_, ?_⟩, ?_⟩
    · exact fun a => ⟨twin_equivalence.refl a, fun _ => rfl⟩
    · exact fun h => ⟨twin_equivalence.symm h.1, fun t => (h.2 t).symm⟩
    · exact fun h h' => ⟨twin_equivalence.trans h.1 h'.1, fun t => (h.2 t).trans (h'.2 t)⟩
    · intro a b meet he
      have twin : Twin G a b := by
        refine twin_closed.merges a b meet (checkNodeEq_mono (fun n n' h => ?_) he)
        exact test_iff.mpr (test_iff.mp h).1
      refine ⟨twin, ?_⟩
      by_cases eq : a = b
      · exact fun t => by rw [eq]
      obtain ⟨ha, hb, ca, cb, width, sign⟩ := mergeable a b eq twin
      have trees : ∀ t, ((G.node a).assignTree.map fun tree =>
          tree.root.eval (semOf (R.f t)) (R.val t)) =
          (G.node b).assignTree.map fun tree => tree.root.eval (semOf (R.f t)) (R.val t) := by
        intro t
        exact checkNodeEq_eval (fun n n' h => (test_iff.mp h).2 t) he
      -- the old values are equal by induction on the cycle
      intro t
      induction t with
      | zero => rw [R.zero a ha ca, R.zero b hb cb, width, sign, trees]
      | succ t ih => rw [R.succ t a ha ca, R.succ t b hb cb, width, sign, trees, ih]
  exact (h _ closed).2

end Twins

/-! ## The merging loop -/

section Matching

variable {G : Graph}

/-- What is merged are twins; `done` are the members the loop has passed. -/
structure MatchInv (G : Graph) (done : List Nat) (st : MatchState) : Prop where
  realValue : ∀ n u, st.realValue n = some u → Twin G n u
  groups : ∀ u group, st.uniqueNodes u = some group →
    u ∈ done ∧ ∃ rest, group = u :: rest ∧ ∀ n ∈ rest, n ≠ u ∧ Twin G n u
  keys : ∀ key, ∀ u ∈ st.key2UniqueNodes key, u ∈ G.order ∧ (keys G).exprKeyCache u = key

theorem MatchInv.addUnique {done : List Nat} {st : MatchState} (inv : MatchInv G done st)
    (n : Nat) : MatchInv G (done ++ [n]) (st.addUnique n) := by
  refine ⟨?_, ?_, inv.keys⟩
  · intro m u h
    simp only [MatchState.addUnique] at h
    by_cases eq : m = n
    · rw [eq, Function.update_self] at h
      cases h
      rw [eq]
      exact twin_equivalence.refl n
    · rw [Function.update_of_ne eq] at h
      exact inv.realValue m u h
  · intro u group h
    simp only [MatchState.addUnique] at h
    by_cases eq : u = n
    · rw [eq, Function.update_self] at h
      cases h
      refine ⟨?_, [], by rw [eq], fun m hm => absurd hm List.not_mem_nil⟩
      rw [eq]
      exact List.mem_append_right _ (List.mem_singleton_self n)
    · rw [Function.update_of_ne eq] at h
      obtain ⟨mem, rest⟩ := inv.groups u group h
      exact ⟨List.mem_append_left _ mem, rest⟩

theorem MatchInv.sameNode {done : List Nat} {st : MatchState} (inv : MatchInv G done st)
    {n n' : Nat} (h : sameNode st.realValue n n' = true) : Twin G n n' := by
  simp only [CommonExpr.sameNode, Bool.or_eq_true, Bool.and_eq_true, decide_eq_true_eq] at h
  rcases h with rfl | ⟨ne, eq⟩
  · exact twin_equivalence.refl n
  · obtain ⟨u, hu⟩ := Option.ne_none_iff_exists'.mp ne
    exact twin_equivalence.trans (inv.realValue n u hu)
      (twin_equivalence.symm (inv.realValue n' u (eq ▸ hu)))

theorem MatchInv.tryUnique {done : List Nat} {st : MatchState} (inv : MatchInv G done st)
    {n unique : Nat} (new : n ∉ done) (meet : Meet G n unique) :
    MatchInv G done (tryUnique G.node n st unique) := by
  unfold CommonExpr.tryUnique
  cases hgroup : st.uniqueNodes unique with
  | none => exact inv
  | some group =>
    dsimp only
    split
    · rename_i he
      have twin : Twin G n unique := by
        refine twin_closed.merges n unique meet (checkNodeEq_mono (fun a b h => ?_) he)
        exact test_iff.mpr (inv.sameNode h)
      obtain ⟨mem, rest, rfl, twins⟩ := inv.groups unique group hgroup
      refine ⟨?_, ?_, inv.keys⟩
      · intro m u h
        dsimp only at h
        by_cases eq : m = n
        · rw [eq, Function.update_self] at h
          cases h
          rw [eq]
          exact twin
        · rw [Function.update_of_ne eq] at h
          exact inv.realValue m u h
      · intro u group' h
        dsimp only at h
        by_cases eq : u = unique
        · rw [eq, Function.update_self] at h
          cases h
          rw [eq]
          refine ⟨mem, rest ++ [n], rfl, fun m hm => ?_⟩
          rcases List.mem_append.mp hm with hm | hm
          · exact twins m hm
          · rw [List.mem_singleton.mp hm]
            exact ⟨fun eq => new (eq ▸ mem), twin⟩
        · rw [Function.update_of_ne eq] at h
          exact inv.groups u group' h
    · exact inv

theorem MatchInv.tryAll {done : List Nat} {n : Nat} (new : n ∉ done) (us : List Nat) :
    ∀ {st : MatchState}, MatchInv G done st → (∀ u ∈ us, Meet G n u) →
      MatchInv G done (us.foldl (CommonExpr.tryUnique G.node n) st) := by
  induction us with
  | nil =>
    intro st inv _
    exact inv
  | cons u us ih =>
    intro st inv meet
    exact ih (inv.tryUnique new (meet u List.mem_cons_self))
      fun v hv => meet v (List.mem_cons_of_mem _ hv)

theorem MatchInv.mono {done : List Nat} {st : MatchState} (inv : MatchInv G done st) (n : Nat) :
    MatchInv G (done ++ [n]) st :=
  ⟨inv.realValue, fun u group h =>
    ⟨List.mem_append_left _ (inv.groups u group h).1, (inv.groups u group h).2⟩, inv.keys⟩

theorem MatchInv.step {done : List Nat} {st : MatchState} (inv : MatchInv G done st) {n : Nat}
    (hn : n ∈ G.order) (new : n ∉ done) :
    MatchInv G (done ++ [n]) (matchStep G (CommonExpr.keys G) st n) := by
  unfold matchStep
  dsimp only
  split
  · exact inv.addUnique n
  · rename_i shared
    have meet : ∀ u ∈ st.key2UniqueNodes ((CommonExpr.keys G).exprKeyCache n), Meet G n u := by
      intro u hu
      obtain ⟨mem, key⟩ := inv.keys _ u hu
      exact ⟨hn, mem, key.symm, not_le.mp shared⟩
    have inv' := inv.tryAll new _ meet
    split
    · have added := inv'.addUnique n
      refine ⟨added.realValue, added.groups, ?_⟩
      intro key u hu
      dsimp only at hu
      by_cases eq : key = (CommonExpr.keys G).exprKeyCache n
      · rw [eq, Function.update_self] at hu
        rcases List.mem_append.mp hu with hu | hu
        · rw [eq]
          exact inv'.keys _ u hu
        · rw [List.mem_singleton.mp hu, eq]
          exact ⟨hn, rfl⟩
      · rw [Function.update_of_ne eq] at hu
        exact inv'.keys key u hu
    · exact inv'.mono n

theorem matched_inv (G : Graph) : MatchInv G G.order (matched G) := by
  have steps : ∀ (ns done : List Nat) (st : MatchState), G.order = done ++ ns →
      MatchInv G done st → MatchInv G G.order (ns.foldl (matchStep G (keys G)) st) := by
    intro ns
    induction ns with
    | nil =>
      intro done st order inv
      rw [order, List.append_nil]
      exact inv
    | cons n ns ih =>
      intro done st order inv
      have hn : n ∈ G.order := by
        rw [order]
        exact List.mem_append_right _ List.mem_cons_self
      have new : n ∉ done := by
        have nodup := G.nodup
        rw [order] at nodup
        exact fun mem => (List.nodup_append.mp nodup).2.2 n mem n List.mem_cons_self rfl
      refine ih (done ++ [n]) _ ?_ (inv.step hn new)
      rw [order, List.append_assoc]
      rfl
  refine steps G.order [] _ rfl ⟨?_, ?_, ?_⟩
  · intro n u h
    cases h
  · intro u group h
    cases h
  · intro key u hu
    cases hu

end Matching

theorem candidate_spec {n : Node} (h : n.candidate) : n.type = .others ∧ n.isArray = false := by
  simp only [Node.candidate, Bool.and_eq_true, decide_eq_true_eq, Bool.not_eq_true'] at h
  exact ⟨h.1.1.2, h.1.2⟩

/-- Merging is sound where only candidates of one width and sign have equal trees in a bucket. -/
theorem commonExpr_sound (G : Graph) (mergeable : TwinsMergeable G) : Sound G := by
  have inv := matched_inv G
  refine ⟨?_, ?_⟩
  · intro a b u ha hb R t
    have twin := twin_equivalence.trans (inv.realValue a u ha)
      (twin_equivalence.symm (inv.realValue b u hb))
    exact twin.values mergeable R t
  · intro n hn
    obtain ⟨u, hu, hn⟩ := List.mem_flatMap.mp hn
    dsimp only at hn
    split at hn
    · cases hgroup : (matched G).uniqueNodes u with
      | none =>
        rw [hgroup] at hn
        cases hn
      | some group =>
        rw [hgroup] at hn
        obtain ⟨_, rest, rfl, twins⟩ := inv.groups u group hgroup
        obtain ⟨ne, twin⟩ := twins n hn
        exact candidate_spec (mergeable n u ne twin).2.2.1
    · cases hn

/-- Inputs 0 and 1, and nodes that all add them; the fifth may be an output. -/
def adderNode (last : NodeType) (lastId : Nat) : Nat → Node
  | 0 => ⟨1, true, true, .inp, false, 0, 3, 8, false, []⟩
  | 1 => ⟨2, true, true, .inp, false, 0, 3, 8, false, []⟩
  | 2 => adder 3 .others
  | 3 => adder 4 .others
  | 4 => adder lastId last
  | _ => ⟨0, true, true, .others, false, 0, 0, 0, false, []⟩
where
  adder (id : Nat) (type : NodeType) : Node :=
    ⟨id, true, true, type, false, 2, 2, 9, false,
      [⟨.op ⟨2, [], ""⟩ 9 false [.ref 0 8 false [], .ref 1 8 false []], none⟩]⟩

theorem adderOrder_nodup : [0, 1, 2, 3, 4].Nodup := by decide

def adders (last : NodeType) (lastId : Nat) : Graph where
  order := [0, 1, 2, 3, 4]
  node := adderNode last lastId
  nodup := adderOrder_nodup

/-- Three nodes with one sum. -/
theorem commonExpr_sound_adders : Sound (adders .others 5) := by
  refine commonExpr_sound _ ?_
  have keyed : ∀ a ∈ [0, 1, 2, 3, 4], ∀ b ∈ [0, 1, 2, 3, 4],
      (keys (adders .others 5)).exprKeyCache a = (keys (adders .others 5)).exprKeyCache b →
      a = b ∨ a ∈ [2, 3, 4] ∧ b ∈ [2, 3, 4] := by decide +kernel
  have closed : Closed (adders .others 5) fun a b => a = b ∨ a ∈ [2, 3, 4] ∧ b ∈ [2, 3, 4] := by
    refine ⟨⟨fun a => .inl rfl, ?_, ?_⟩, ?_⟩
    · rintro a b (rfl | ⟨ha, hb⟩)
      · exact .inl rfl
      · exact .inr ⟨hb, ha⟩
    · rintro a b c (rfl | ⟨ha, hb⟩) (rfl | ⟨hb', hc⟩)
      · exact .inl rfl
      · exact .inr ⟨hb', hc⟩
      · exact .inr ⟨ha, hb⟩
      · exact .inr ⟨ha, hc⟩
    · rintro a b ⟨ha, hb, key, _⟩ _
      exact keyed a ha b hb key
  have mergeable : ∀ a ∈ [2, 3, 4], ∀ b ∈ [2, 3, 4],
      a ∈ (adders .others 5).order ∧ b ∈ (adders .others 5).order ∧
      ((adders .others 5).node a).candidate ∧ ((adders .others 5).node b).candidate ∧
      ((adders .others 5).node a).width = ((adders .others 5).node b).width ∧
      ((adders .others 5).node a).sign = ((adders .others 5).node b).sign := by decide
  intro a b ne twin
  rcases twin _ closed with eq | ⟨ha, hb⟩
  · exact absurd eq ne
  · exact mergeable a ha b hb

/-- An output whose id is the hash of two nodes with its tree. -/
theorem output_merged : ¬ Sound (adders .out 272569) := by
  intro sound
  have mem : 4 ∈ markedDead (adders .out 272569) := by decide +kernel
  have type := (sound.dead 4 mem).1
  revert type
  decide

end Gsim.CommonExpr
