/-
  Gsim/MergeGraph.lean
  ====================
  **The graph that super nodes are merged in** (`graph.cpp`, `Node.cpp`).

  A super node has a vector of member nodes; the edges between super nodes are those
  between members of different ones.  `reconnectSuper` computes the relation sets
  anew, `removeEmptySuper` drops super nodes that lost their members.  Super nodes
  and nodes are named by their ids.
-/
import Gsim.ExpTree
import Gsim.SuperLinks

namespace Gsim.MergeNodes

open GraphContraction SuperLinks ExpTree

inductive SuperType where
  | valid
  | extmod
  | asyncReset
  | uintReset
  | updateReg
deriving DecidableEq, Repr

structure Node (Op : Type) where
  isArray : Bool
  assignTree : List (ETree Op)
  prev : List Nat
  next : List Nat
  depPrev : List Nat
  depNext : List Nat

structure SuperGraph (Op : Type) where
  node : Nat → Node Op
  superType : Nat → SuperType
  /-- The position of a super node when the nodes were last ordered. -/
  order : Nat → Nat
  sortedSuper : List Nat
  member : Nat → List Nat
  /-- The super node of a node. -/
  super : Nat → Nat
  links : Links Nat

variable {Op : Type}

namespace SuperGraph

def constructSuperConnect (G : SuperGraph Op) (L : Links Nat) (m : Nat) : Links Nat :=
  let this := G.super m
  let L := (G.node m).prev.foldl (fun L n =>
    if G.super n = this then L else L.connectPrev this (G.super n)) L
  let L := (G.node m).next.foldl (fun L n =>
    if G.super n = this then L else L.connectNext this (G.super n)) L
  let L := (G.node m).depPrev.foldl (fun L n =>
    if G.super n = this then L else L.connectDepPrev this (G.super n)) L
  (G.node m).depNext.foldl (fun L n =>
    if G.super n = this then L else L.connectDepNext this (G.super n)) L

def reconnectSuper (G : SuperGraph Op) : SuperGraph Op :=
  let cleared := G.sortedSuper.foldl (fun L super => L.clearRelation super) G.links
  { G with links := G.sortedSuper.foldl (fun L super =>
      (G.member super).foldl G.constructSuperConnect L) cleared }

/-- `removeEmptySuper` drops it. -/
def removable (G : SuperGraph Op) (super : Nat) : Bool :=
  (G.superType super == .valid || G.superType super == .updateReg) && (G.member super).isEmpty

def removeEmptySuper (G : SuperGraph Op) : SuperGraph Op :=
  { G with sortedSuper := G.sortedSuper.filter fun super => !G.removable super }

/-- The positions of the super nodes become their orders. -/
def orderAllNodes (G : SuperGraph Op) : SuperGraph Op :=
  { G with order := fun super =>
      if super ∈ G.sortedSuper then G.sortedSuper.idxOf super else G.order super }

/-! ## The edges -/

/-- A value goes from `n` to `m`. -/
def Edge (G : SuperGraph Op) (n m : Nat) : Prop := n ∈ (G.node m).prev ∨ m ∈ (G.node n).next

/-- `n` has to come before `m`. -/
def Dep (G : SuperGraph Op) (n m : Nat) : Prop :=
  G.Edge n m ∨ n ∈ (G.node m).depPrev ∨ m ∈ (G.node n).depNext

/-- The edges between super nodes. -/
def SuperEdge (G : SuperGraph Op) : Nat → Nat → Prop := QuotientEdge G.super G.Edge

def SuperDep (G : SuperGraph Op) : Nat → Nat → Prop := QuotientEdge G.super G.Dep

theorem SuperEdge.dep {G : SuperGraph Op} {p x : Nat} (h : G.SuperEdge p x) : G.SuperDep p x := by
  obtain ⟨u, v, edge, hu, hv, ne⟩ := h
  exact ⟨u, v, .inl edge, hu, hv, ne⟩

theorem SuperDep.ne {G : SuperGraph Op} {p x : Nat} (h : G.SuperDep p x) : p ≠ x := by
  obtain ⟨u, v, edge, hu, hv, ne⟩ := h
  exact ne

/-! ## Well-formed graphs -/

/-- The nodes are distributed over the super nodes in `alive`; the others have lost
their members and wait to be removed. -/
structure Partitioned (G : SuperGraph Op) (nodes : List Nat) (alive : Nat → Prop) : Prop where
  closed : ∀ n m, G.Dep n m → n ∈ nodes ∧ m ∈ nodes
  superAlive : ∀ n ∈ nodes, alive (G.super n)
  member : ∀ x ∈ G.sortedSuper, ∀ n, n ∈ G.member x ↔ n ∈ nodes ∧ G.super n = x
  memberNodup : ∀ x ∈ G.sortedSuper, (G.member x).Nodup
  sorted : ∀ x, alive x → x ∈ G.sortedSuper
  dead : ∀ x ∈ G.sortedSuper, ¬ alive x → G.removable x = true
  nodup : G.sortedSuper.Nodup

/-- The relation sets of the super nodes in `alive` are those their members induce. -/
structure Connected (G : SuperGraph Op) (alive : Nat → Prop) : Prop where
  nodup : G.links.Nodup
  shows : G.links.Shows alive G.SuperEdge G.SuperDep

/-- The super nodes are listed by ascending order, along the edges. -/
structure Forward (G : SuperGraph Op) : Prop where
  ascending : G.sortedSuper.Pairwise fun a b => G.order a < G.order b
  forward : ∀ p x, G.SuperDep p x → G.order p < G.order x

variable {G : SuperGraph Op} {nodes : List Nat} {alive : Nat → Prop}

theorem Partitioned.superDep_alive (h : G.Partitioned nodes alive) {p x : Nat}
    (dep : G.SuperDep p x) : alive p ∧ alive x := by
  obtain ⟨u, v, edge, hu, hv, -⟩ := dep
  obtain ⟨hn, hm⟩ := h.closed u v edge
  exact ⟨hu ▸ h.superAlive u hn, hv ▸ h.superAlive v hm⟩

theorem Forward.order_inj (h : G.Forward) {a b : Nat} (ha : a ∈ G.sortedSuper)
    (hb : b ∈ G.sortedSuper) (eq : G.order a = G.order b) : a = b := by
  have nodup : (G.sortedSuper.map G.order).Nodup :=
    (List.pairwise_map.mpr h.ascending).imp ne_of_lt
  exact List.inj_on_of_nodup_map nodup ha hb eq

/-- The members of all super nodes are the nodes, each once. -/
theorem Partitioned.perm (h : G.Partitioned nodes alive) (nodup : nodes.Nodup) :
    (G.sortedSuper.flatMap G.member).Perm nodes := by
  have flat : (G.sortedSuper.flatMap G.member).Nodup := by
    refine List.nodup_flatMap.mpr ⟨h.memberNodup, ?_⟩
    refine h.nodup.imp_of_mem ?_
    intro x y hx hy ne n hnx hny
    have inX := ((h.member x hx n).mp hnx).2
    have inY := ((h.member y hy n).mp hny).2
    exact ne (inX.symm.trans inY)
  refine (List.perm_ext_iff_of_nodup flat nodup).mpr ?_
  intro n
  rw [List.mem_flatMap]
  constructor
  · rintro ⟨x, hx, hn⟩
    exact ((h.member x hx n).mp hn).1
  · intro hn
    have hx := h.sorted _ (h.superAlive n hn)
    exact ⟨G.super n, hx, (h.member _ hx n).mpr ⟨hn, rfl⟩⟩

theorem Forward.acyclic (h : G.Forward) : Acyclic G.SuperDep := by
  have up : ∀ a b, Relation.TransGen G.SuperDep a b → G.order a < G.order b := by
    intro a b path
    induction path with
    | single dep => exact h.forward _ _ dep
    | tail _ dep ih => exact ih.trans (h.forward _ _ dep)
  intro x cycle
  exact lt_irrefl _ (up x x cycle)

/-- No super node comes before one it depends on. -/
theorem Forward.topological (h : G.Forward) : G.sortedSuper.Pairwise fun a b => ¬ G.SuperDep b a :=
  h.ascending.imp fun lt dep => (h.forward _ _ dep).not_gt lt

/-! ## Removing super nodes -/

theorem removable_eq_false {x n : Nat} (mem : n ∈ G.member x) : G.removable x = false := by
  unfold removable
  cases eq : G.member x with
  | nil => exact absurd (eq ▸ mem) List.not_mem_nil
  | cons m ms => simp

theorem mem_removeEmptySuper {x : Nat} :
    x ∈ G.removeEmptySuper.sortedSuper ↔ x ∈ G.sortedSuper ∧ G.removable x = false := by
  simp [removeEmptySuper]

/-- After the removal every super node left is alive. -/
theorem Partitioned.removeEmptySuper (h : G.Partitioned nodes alive) :
    G.removeEmptySuper.Partitioned nodes (· ∈ G.removeEmptySuper.sortedSuper) where
  closed := h.closed
  superAlive := by
    intro n hn
    have hx := h.sorted _ (h.superAlive n hn)
    exact mem_removeEmptySuper.mpr ⟨hx, removable_eq_false ((h.member _ hx n).mpr ⟨hn, rfl⟩)⟩
  member x hx := h.member x (mem_removeEmptySuper.mp hx).1
  memberNodup x hx := h.memberNodup x (mem_removeEmptySuper.mp hx).1
  sorted _ hx := hx
  dead x hx out := absurd hx out
  nodup := h.nodup.filter _

theorem Partitioned.alive_of_mem (h : G.Partitioned nodes alive) {x : Nat}
    (hx : x ∈ G.removeEmptySuper.sortedSuper) : alive x := by
  obtain ⟨mem, kept⟩ := mem_removeEmptySuper.mp hx
  by_contra out
  rw [h.dead x mem out] at kept
  cases kept

theorem Connected.removeEmptySuper (h : G.Connected alive) (part : G.Partitioned nodes alive) :
    G.removeEmptySuper.Connected (· ∈ G.removeEmptySuper.sortedSuper) where
  nodup := h.nodup
  shows :=
    { prev := fun x p hx => h.shows.prev x p (part.alive_of_mem hx)
      next := fun x n hx => h.shows.next x n (part.alive_of_mem hx)
      depPrev := fun x p hx => h.shows.depPrev x p (part.alive_of_mem hx)
      depNext := fun x n hx => h.shows.depNext x n (part.alive_of_mem hx) }

theorem Forward.removeEmptySuper (h : G.Forward) : G.removeEmptySuper.Forward where
  ascending := h.ascending.filter _
  forward := h.forward

/-! ## Computing the relation sets -/

section Reconnect

/-- The edges that one loop of `constructSuperConnect` adds. -/
theorem foldl_connect_adds {step : Links Nat → Nat → Links Nat} {E D : Nat → Nat → Nat → Prop}
    (G : SuperGraph Op) (m : Nat) (l : List Nat)
    (h : ∀ n L, Links.Adds (E n) (D n) L (step L n)) (L : Links Nat) :
    Links.Adds (fun p x => ∃ n ∈ l, G.super n ≠ G.super m ∧ E n p x)
      (fun p x => ∃ n ∈ l, G.super n ≠ G.super m ∧ D n p x) L
      (l.foldl (fun L n => if G.super n = G.super m then L else step L n) L) := by
  refine Links.Adds.foldl l ?_ L
  intro n _ L
  by_cases same : G.super n = G.super m
  · rw [if_pos same]
    exact Links.Adds.refl (fun _ _ h => h.1 same) (fun _ _ h => h.1 same) L
  · rw [if_neg same]
    exact (h n L).congr (fun p x => by simp [same]) fun p x => by simp [same]

/-- The edges of the node `m` to other super nodes. -/
def EdgeAt (G : SuperGraph Op) (m p x : Nat) : Prop :=
  (∃ n ∈ (G.node m).prev, G.super n ≠ G.super m ∧ p = G.super n ∧ x = G.super m) ∨
    ∃ n ∈ (G.node m).next, G.super n ≠ G.super m ∧ p = G.super m ∧ x = G.super n

def DepAt (G : SuperGraph Op) (m p x : Nat) : Prop :=
  G.EdgeAt m p x ∨
    (∃ n ∈ (G.node m).depPrev, G.super n ≠ G.super m ∧ p = G.super n ∧ x = G.super m) ∨
    ∃ n ∈ (G.node m).depNext, G.super n ≠ G.super m ∧ p = G.super m ∧ x = G.super n

theorem constructSuperConnect_adds (G : SuperGraph Op) (L : Links Nat) (m : Nat) :
    Links.Adds (G.EdgeAt m) (G.DepAt m) L (G.constructSuperConnect L m) := by
  unfold constructSuperConnect
  dsimp only
  have prev := fun L => foldl_connect_adds G m (G.node m).prev
    (fun n L => L.connectPrev_adds (G.super m) (G.super n)) L
  have next := fun L => foldl_connect_adds G m (G.node m).next
    (fun n L => L.connectPrev_adds (G.super n) (G.super m)) L
  have depPrev := fun L => foldl_connect_adds G m (G.node m).depPrev
    (fun n L => L.connectDepPrev_adds (G.super m) (G.super n)) L
  have depNext := fun L => foldl_connect_adds G m (G.node m).depNext
    (fun n L => L.connectDepPrev_adds (G.super n) (G.super m)) L
  refine ((((prev L).trans (next _)).trans (depPrev _)).trans (depNext _)).congr ?_ ?_
  · intro p x
    simp only [and_false, exists_const, or_false, EdgeAt]
  · intro p x
    simp only [EdgeAt, DepAt, or_assoc]

theorem foldl_clearRelation (l : List Nat) (L : Links Nat) :
    (L.Nodup → (l.foldl (fun L super => L.clearRelation super) L).Nodup) ∧
    ∀ x ∈ l, (l.foldl (fun L super => L.clearRelation super) L).prev x = [] ∧
      (l.foldl (fun L super => L.clearRelation super) L).next x = [] ∧
      (l.foldl (fun L super => L.clearRelation super) L).depPrev x = [] ∧
      (l.foldl (fun L super => L.clearRelation super) L).depNext x = [] := by
  induction l using List.reverseRecOn with
  | nil => exact ⟨id, by simp⟩
  | append_singleton l y ih =>
    rw [List.foldl_append, List.foldl_cons, List.foldl_nil]
    refine ⟨fun nodup => (ih.1 nodup).clearRelation y, ?_⟩
    intro x hx
    by_cases eq : x = y
    · subst eq
      simp [Links.clearRelation]
    · have mem : x ∈ l := by simpa [eq] using hx
      simpa [Links.clearRelation, Function.update_of_ne eq] using ih.2 x mem

theorem edgeAt_iff (part : G.Partitioned nodes alive) (p x : Nat) :
    (∃ super ∈ G.sortedSuper, ∃ m ∈ G.member super, G.EdgeAt m p x) ↔ G.SuperEdge p x := by
  constructor
  · rintro ⟨-, -, m, -, ⟨n, hn, ne, rfl, rfl⟩ | ⟨n, hn, ne, rfl, rfl⟩⟩
    · exact ⟨n, m, .inl hn, rfl, rfl, ne⟩
    · exact ⟨m, n, .inr hn, rfl, rfl, ne.symm⟩
  · rintro ⟨n, m, edge, rfl, rfl, ne⟩
    obtain ⟨hn, hm⟩ := part.closed n m (.inl edge)
    rcases edge with edge | edge
    · have hx := part.sorted _ (part.superAlive m hm)
      exact ⟨_, hx, m, (part.member _ hx m).mpr ⟨hm, rfl⟩, .inl ⟨n, edge, ne, rfl, rfl⟩⟩
    · have hx := part.sorted _ (part.superAlive n hn)
      exact ⟨_, hx, n, (part.member _ hx n).mpr ⟨hn, rfl⟩, .inr ⟨m, edge, ne.symm, rfl, rfl⟩⟩

theorem depAt_iff (part : G.Partitioned nodes alive) (p x : Nat) :
    (∃ super ∈ G.sortedSuper, ∃ m ∈ G.member super, G.DepAt m p x) ↔ G.SuperDep p x := by
  constructor
  · rintro ⟨super, hs, m, hm, edge | ⟨n, hn, ne, rfl, rfl⟩ | ⟨n, hn, ne, rfl, rfl⟩⟩
    · exact ((edgeAt_iff part p x).mp ⟨super, hs, m, hm, edge⟩).dep
    · exact ⟨n, m, .inr (.inl hn), rfl, rfl, ne⟩
    · exact ⟨m, n, .inr (.inr hn), rfl, rfl, ne.symm⟩
  · rintro ⟨n, m, dep, rfl, rfl, ne⟩
    obtain ⟨hn, hm⟩ := part.closed n m dep
    rcases dep with edge | dep | dep
    · obtain ⟨super, hs, k, hk, edge⟩ := (edgeAt_iff part _ _).mpr ⟨n, m, edge, rfl, rfl, ne⟩
      exact ⟨super, hs, k, hk, .inl edge⟩
    · have hx := part.sorted _ (part.superAlive m hm)
      exact ⟨_, hx, m, (part.member _ hx m).mpr ⟨hm, rfl⟩, .inr (.inl ⟨n, dep, ne, rfl, rfl⟩)⟩
    · have hx := part.sorted _ (part.superAlive n hn)
      exact ⟨_, hx, n, (part.member _ hx n).mpr ⟨hn, rfl⟩,
        .inr (.inr ⟨m, dep, ne.symm, rfl, rfl⟩)⟩

/-- `reconnectSuper` computes the sets that the members induce. -/
theorem reconnectSuper_connected (part : G.Partitioned nodes alive) (nodup : G.links.Nodup) :
    G.reconnectSuper.Connected (· ∈ G.sortedSuper) := by
  obtain ⟨clearNodup, cleared⟩ := foldl_clearRelation G.sortedSuper G.links
  have inner : ∀ super ∈ G.sortedSuper, ∀ L, Links.Adds
      (fun p x => ∃ m ∈ G.member super, G.EdgeAt m p x)
      (fun p x => ∃ m ∈ G.member super, G.DepAt m p x) L
      ((G.member super).foldl G.constructSuperConnect L) := by
    intro super _ L
    exact Links.Adds.foldl _ (fun m _ L => G.constructSuperConnect_adds L m) L
  have adds := (Links.Adds.foldl G.sortedSuper inner
    (G.sortedSuper.foldl (fun L super => L.clearRelation super) G.links)).congr
    (edgeAt_iff part) (depAt_iff part)
  refine ⟨adds.nodup (clearNodup nodup), ?_, ?_, ?_, ?_⟩
  · intro x p hx
    refine (adds.prev x p).trans ?_
    rw [(cleared x hx).1]
    exact or_iff_right List.not_mem_nil
  · intro x n hx
    refine (adds.next x n).trans ?_
    rw [(cleared x hx).2.1]
    exact or_iff_right List.not_mem_nil
  · intro x p hx
    refine (adds.depPrev x p).trans ?_
    rw [(cleared x hx).2.2.1]
    exact or_iff_right List.not_mem_nil
  · intro x n hx
    refine (adds.depNext x n).trans ?_
    rw [(cleared x hx).2.2.2]
    exact or_iff_right List.not_mem_nil

end Reconnect

end SuperGraph

end Gsim.MergeNodes
