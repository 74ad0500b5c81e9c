/-
  Gsim/MergeSublings.lean
  =======================
  **Merging super nodes with the same predecessors** (`mergeSublings` in
  `mergeNodes.cpp`).

  The relation sets are not touched while super nodes are merged, so every test
  compares the sets of the start.  That is sound: all members of a group have the
  same predecessors, so an edge into a group is an edge into each of its members, and
  the group takes the place of its first member.
-/
import Gsim.MergeChains
import Gsim.SortedContainers

namespace Gsim.MergeNodes

open GraphContraction SuperLinks SortedContainers

variable {Op : Type}

namespace SuperGraph

def maxSublings : Nat := 30

/-- The sum of the addresses of a set of super nodes, in 64 bits. -/
def prevHash (addr : Nat → UInt64) (prev : List Nat) : UInt64 :=
  prev.foldl (fun ret p => ret + addr p) (UInt64.ofNat prev.length * 7)

/-- `==` of two sets. -/
def sameSet (l l' : List Nat) : Bool := l.all (· ∈ l') && l'.all (· ∈ l)

def prevEq (L : Links Nat) (super1 super2 : Nat) : Bool :=
  sameSet (L.prev super1) (L.prev super2) && sameSet (L.depPrev super1) (L.depPrev super2)

/-- `uniquePrev.insert(super)`; the set is ordered by address. -/
def insertUnique (addr : Nat → UInt64) (super : Nat) (uniquePrev : List Nat) : List Nat :=
  uniquePrev.orderedInsert (fun a b => addr a ≤ addr b) super

/-- One super node of a bucket: merge it into one with the same predecessors, or
replace that one when it has grown too large. -/
def sublingStep (addr : Nat → UInt64) (st : SuperGraph Op × List Nat) (super : Nat) :
    SuperGraph Op × List Nat :=
  match st.2.find? fun checkSuper => prevEq st.1.links checkSuper super with
  | some checkSuper =>
    if (st.1.member checkSuper).length < maxSublings then
      (st.1.moveMembers super checkSuper (st.1.member checkSuper ++ st.1.member super), st.2)
    else (st.1, insertUnique addr super (st.2.erase checkSuper))
  | none => (st.1, insertUnique addr super st.2)

/-- The super nodes with predecessors by the hash of these. -/
def sublingBuckets (addr : Nat → UInt64) (G : SuperGraph Op) : List (Nat × List Nat) :=
  groupPush ((G.sortedSuper.filter fun super =>
    (G.links.prev super).length ≠ 0 ∧ G.superType super = .valid).map fun super =>
      ((prevHash addr (G.links.prev super)).toNat, super))

def mergeSublings (addr : Nat → UInt64) (G : SuperGraph Op) : SuperGraph Op :=
  let merged := (G.sublingBuckets addr).foldl (fun G bucket =>
    (bucket.2.foldl (sublingStep addr) (G, [])).1) G
  merged.removeEmptySuper.reconnectSuper

theorem sameSet_iff {l l' : List Nat} : sameSet l l' = true ↔ ∀ x, x ∈ l ↔ x ∈ l' := by
  simp only [sameSet, Bool.and_eq_true, List.all_eq_true, decide_eq_true_eq]
  exact ⟨fun h x => ⟨h.1 x, h.2 x⟩, fun h => ⟨fun x => (h x).mp, fun x => (h x).mpr⟩⟩

/-! ## Groups -/

/-- Every super node `x` of the start now belongs to `root x`, and `R` relates the two. -/
structure Grouped (R : Nat → Nat → Prop) (start G : SuperGraph Op) (nodes : List Nat)
    (alive : Nat → Prop) (root : Nat → Nat) : Prop where
  part : G.Partitioned nodes alive
  node : G.node = start.node
  superType : G.superType = start.superType
  order : G.order = start.order
  sortedSuper : G.sortedSuper = start.sortedSuper
  links : G.links = start.links
  super : ∀ n ∈ nodes, G.super n = root (start.super n)
  mem : ∀ x ∈ start.sortedSuper, root x ∈ start.sortedSuper
  rel : ∀ x, R (root x) x

section Groups

variable {R : Nat → Nat → Prop} {start G : SuperGraph Op} {nodes : List Nat} {alive : Nat → Prop}
  {root : Nat → Nat}

theorem Grouped.refl (refl : ∀ x, R x x) (part : start.Partitioned nodes alive) :
    Grouped R start start nodes alive id :=
  ⟨part, rfl, rfl, rfl, rfl, rfl, fun _ _ => rfl, fun _ h => h, refl⟩

theorem Grouped.merge (h : Grouped R start G nodes alive root) {s t : Nat} {members : List Nat}
    (hs : alive s) (ht : alive t) (ne : t ≠ s) (valid : start.superType s = .valid)
    (perm : members.Perm (G.member s ++ G.member t))
    (trans : ∀ a b c, R a b → R b c → R a c) (rel : R t s) :
    Grouped R start (G.moveMembers s t members) nodes (fun x => alive x ∧ x ≠ s)
      (redirect root t s) where
  part := h.part.moveMembers hs ht ne (h.superType ▸ valid) perm
  node := h.node
  superType := h.superType
  order := h.order
  sortedSuper := h.sortedSuper
  links := h.links
  super := by
    intro n hn
    rw [moveMembers_super h.part hs hn, h.super n hn]
    rfl
  mem := by
    intro x hx
    unfold redirect
    split
    · exact h.sortedSuper ▸ h.part.sorted t ht
    · exact h.mem x hx
  rel := by
    intro x
    have old := h.rel x
    unfold redirect
    split
    · rename_i eq
      rw [eq] at old
      exact trans _ _ _ rel old
    · exact old

/-- An edge between two groups comes from an edge between two of their members. -/
theorem Grouped.superDep (h : Grouped R start G nodes alive root) {p x : Nat}
    (dep : G.SuperDep p x) : ∃ y z, start.SuperDep y z ∧ p = root y ∧ x = root z := by
  obtain ⟨u, v, edge, rfl, rfl, ne⟩ := dep
  obtain ⟨hu, hv⟩ := h.part.closed u v edge
  rw [h.super u hu, h.super v hv] at ne ⊢
  refine ⟨start.super u, start.super v, ?_, rfl, rfl⟩
  refine ⟨u, v, ?_, rfl, rfl, fun eq => ne (congrArg root eq)⟩
  simpa only [Dep, Edge, h.node] using edge

/-- The bucket is being worked off: those kept for comparison come before the rest. -/
structure Working (start : SuperGraph Op) (alive : Nat → Prop) (unique todo : List Nat) : Prop where
  todoAlive : ∀ x ∈ todo, alive x
  uniqueAlive : ∀ c ∈ unique, alive c
  valid : ∀ x ∈ todo, start.superType x = .valid
  ascending : todo.Pairwise fun a b => start.order a < start.order b
  before : ∀ c ∈ unique, ∀ x ∈ todo, start.order c < start.order x

theorem mem_insertUnique {addr : Nat → UInt64} {x c : Nat} {unique : List Nat} :
    c ∈ insertUnique addr x unique ↔ c = x ∨ c ∈ unique := List.mem_orderedInsert _

/-- The super node is kept for comparison. -/
theorem Working.keep {unique unique' todo : List Nat} {s : Nat} {addr : Nat → UInt64}
    (h : Working start alive unique (s :: todo)) (sub : ∀ c ∈ unique', c ∈ unique) :
    Working start alive (insertUnique addr s unique') todo := by
  obtain ⟨later, ascending⟩ := List.pairwise_cons.mp h.ascending
  refine ⟨?_, ?_, ?_, ascending, ?_⟩
  · exact fun x hx => h.todoAlive x (List.mem_cons_of_mem _ hx)
  · intro c hc
    rcases mem_insertUnique.mp hc with rfl | old
    · exact h.todoAlive c List.mem_cons_self
    · exact h.uniqueAlive c (sub c old)
  · exact fun x hx => h.valid x (List.mem_cons_of_mem _ hx)
  · intro c hc x hx
    rcases mem_insertUnique.mp hc with rfl | old
    · exact later x hx
    · exact h.before c (sub c old) x (List.mem_cons_of_mem _ hx)

/-- The super node is dissolved. -/
theorem Working.drop {unique todo : List Nat} {s : Nat}
    (h : Working start alive unique (s :: todo)) :
    Working start (fun x => alive x ∧ x ≠ s) unique todo := by
  obtain ⟨later, ascending⟩ := List.pairwise_cons.mp h.ascending
  refine ⟨?_, ?_, ?_, ascending, ?_⟩
  · intro x hx
    refine ⟨h.todoAlive x (List.mem_cons_of_mem _ hx), ?_⟩
    rintro rfl
    exact lt_irrefl _ (later x hx)
  · intro c hc
    refine ⟨h.uniqueAlive c hc, ?_⟩
    rintro rfl
    exact lt_irrefl _ (h.before c hc c List.mem_cons_self)
  · exact fun x hx => h.valid x (List.mem_cons_of_mem _ hx)
  · exact fun c hc x hx => h.before c hc x (List.mem_cons_of_mem _ hx)

/-- `a` comes no later than `b` and has the same predecessors. -/
def Subling (start : SuperGraph Op) (a b : Nat) : Prop :=
  start.order a ≤ start.order b ∧ ∀ p, p ∈ start.links.depPrev a ↔ p ∈ start.links.depPrev b

theorem Subling.trans {a b c : Nat} (h : Subling start a b) (h' : Subling start b c) :
    Subling start a c :=
  ⟨h.1.trans h'.1, fun p => (h.2 p).trans (h'.2 p)⟩

theorem Grouped.sublingStep (addr : Nat → UInt64) {unique todo : List Nat} {s : Nat}
    (h : Grouped (Subling start) start G nodes alive root) (work : Working start alive unique (s :: todo)) :
    ∃ alive' root', Grouped (Subling start) start (sublingStep addr (G, unique) s).1 nodes alive' root' ∧
      Working start alive' (sublingStep addr (G, unique) s).2 todo ∧ After alive s alive' := by
  unfold SuperGraph.sublingStep
  dsimp only
  split
  · rename_i t found
    have mem := List.mem_of_find?_eq_some found
    have eq := List.find?_some found
    split
    · have lt := work.before t mem s List.mem_cons_self
      have ne : t ≠ s := by
        rintro rfl
        exact lt_irrefl _ lt
      rw [prevEq, Bool.and_eq_true, sameSet_iff, sameSet_iff, h.links] at eq
      exact ⟨_, _, h.merge (work.todoAlive s List.mem_cons_self) (work.uniqueAlive t mem) ne
        (work.valid s List.mem_cons_self) List.perm_append_comm
        (fun _ _ _ => Subling.trans) ⟨lt.le, eq.2⟩,
        work.drop,
        .drop alive s⟩
    · exact ⟨alive, root, h, work.keep fun c hc => List.mem_of_mem_erase hc, .refl alive s⟩
  · exact ⟨alive, root, h, work.keep fun c hc => hc, .refl alive s⟩

/-- A whole bucket. -/
theorem Grouped.bucket (addr : Nat → UInt64) (todo : List Nat) {unique : List Nat}
    (h : Grouped (Subling start) start G nodes alive root)
    (work : Working start alive unique todo) :
    ∃ alive' root', Grouped (Subling start) start (todo.foldl (SuperGraph.sublingStep addr) (G, unique)).1 nodes
      alive' root' ∧ ∀ x, x ∉ todo → (alive' x ↔ alive x) := by
  induction todo generalizing G alive root unique with
  | nil => exact ⟨alive, root, h, fun _ _ => Iff.rfl⟩
  | cons s todo ih =>
    obtain ⟨alive₁, root₁, h₁, work₁, after⟩ := h.sublingStep addr work
    obtain ⟨alive', root', h', rest⟩ := ih h₁ work₁
    refine ⟨alive', root', h', ?_⟩
    intro x hx
    have ne : x ≠ s := fun eq => hx (eq ▸ List.mem_cons_self)
    exact (rest x fun mem => hx (List.mem_cons_of_mem _ mem)).trans (after x ne)

/-- All buckets, no super node being in two of them. -/
theorem Grouped.buckets (addr : Nat → UInt64) (buckets : List (Nat × List Nat))
    (h : Grouped (Subling start) start G nodes alive root)
    (work : ∀ b ∈ buckets, Working start alive [] b.2)
    (disjoint : buckets.Pairwise fun a b => ∀ x ∈ b.2, x ∉ a.2) :
    ∃ alive' root', Grouped (Subling start) start (buckets.foldl (fun G bucket =>
      (bucket.2.foldl (SuperGraph.sublingStep addr) (G, [])).1) G) nodes alive' root' := by
  induction buckets generalizing G alive root with
  | nil => exact ⟨alive, root, h⟩
  | cons b buckets ih =>
    obtain ⟨apart, disjoint⟩ := List.pairwise_cons.mp disjoint
    obtain ⟨alive', root', h', rest⟩ := h.bucket addr b.2 (work b List.mem_cons_self)
    refine ih h' ?_ disjoint
    intro c hc
    have old := work c (List.mem_cons_of_mem _ hc)
    exact ⟨fun x hx => (rest x (apart c hc x hx)).mpr (old.todoAlive x hx), by simp, old.valid,
      old.ascending, by simp⟩

end Groups

variable {G : SuperGraph Op} {nodes : List Nat}

/-- A bucket holds the candidates with one hash, in the order of the super nodes. -/
theorem mem_sublingBuckets {addr : Nat → UInt64} {b : Nat × List Nat}
    (hb : b ∈ G.sublingBuckets addr) :
    b.2 = (G.sortedSuper.filter fun super =>
      (G.links.prev super).length ≠ 0 ∧ G.superType super = .valid).filter fun super =>
        (prevHash addr (G.links.prev super)).toNat = b.1 := by
  have eq := (mem_groupPush.mp (show (b.1, b.2) ∈ G.sublingBuckets addr from hb)).1
  rw [eq, List.filter_map, List.map_map]
  exact List.map_id' _

theorem sublingBuckets_disjoint (addr : Nat → UInt64) :
    (G.sublingBuckets addr).Pairwise fun a b => ∀ x ∈ b.2, x ∉ a.2 := by
  refine (groupPush_pairwise _).imp_of_mem ?_
  intro a b ha hb lt x hx hx'
  rw [mem_sublingBuckets hb, List.mem_filter, decide_eq_true_eq] at hx
  rw [mem_sublingBuckets ha, List.mem_filter, decide_eq_true_eq] at hx'
  exact lt.ne (hx'.2.symm.trans hx.2)

theorem sublingBuckets_working (h : G.Sweep nodes (· ∈ G.sortedSuper)) {addr : Nat → UInt64}
    {b : Nat × List Nat} (hb : b ∈ G.sublingBuckets addr) :
    Working G (· ∈ G.sortedSuper) [] b.2 := by
  have eq := mem_sublingBuckets hb
  have sub : b.2.Sublist G.sortedSuper := by
    rw [eq]
    exact List.filter_sublist.trans List.filter_sublist
  refine ⟨fun x hx => sub.subset hx, by simp, ?_, h.forward.ascending.sublist sub, by simp⟩
  intro x hx
  rw [eq] at hx
  have candidate := (List.mem_filter.mp (List.mem_filter.mp hx).1).2
  exact (of_decide_eq_true candidate).2

/-- Edges between groups go up in the order. -/
theorem Grouped.forward {start G : SuperGraph Op} {alive : Nat → Prop} {root : Nat → Nat}
    (h : Grouped (Subling start) start G nodes alive root)
    (sweep : start.Sweep nodes (· ∈ start.sortedSuper)) {p x : Nat} (dep : G.SuperDep p x) :
    start.order p < start.order x := by
  obtain ⟨y, z, old, rfl, rfl⟩ := h.superDep dep
  -- the edge leads to every member of the group, so to the first one
  have mem := (sweep.part.superDep_alive old).2
  have into : y ∈ start.links.depPrev (root z) := by
    rw [(h.rel z).2]
    exact (sweep.conn.shows.depPrev _ _ mem).mpr old
  have first := (sweep.conn.shows.depPrev _ _ (h.mem _ mem)).mp into
  exact (h.rel y).1.trans_lt (sweep.forward.forward _ _ first)

theorem Sweep.mergeSublings (h : G.Sweep nodes (· ∈ G.sortedSuper)) (addr : Nat → UInt64) :
    (G.mergeSublings addr).Sweep nodes (· ∈ (G.mergeSublings addr).sortedSuper) := by
  obtain ⟨alive', root', grouped⟩ := (Grouped.refl (fun x => ⟨le_refl _, fun _ => Iff.rfl⟩) h.part).buckets addr (G.sublingBuckets addr)
    (fun b hb => sublingBuckets_working h hb) (sublingBuckets_disjoint addr)
  have links : G.links.Nodup := h.conn.nodup
  unfold SuperGraph.mergeSublings
  dsimp only
  generalize List.foldl _ G (G.sublingBuckets addr) = merged at grouped ⊢
  have part := grouped.part.removeEmptySuper
  refine ⟨⟨part.closed, part.superAlive, part.member, part.memberNodup, part.sorted, part.dead,
    part.nodup⟩, ?_, ⟨?_, ?_⟩⟩
  · refine reconnectSuper_connected part ?_
    rw [← grouped.links] at links
    exact links
  · have ascending := h.forward.ascending
    rw [← grouped.sortedSuper, ← grouped.order] at ascending
    exact ascending.filter _
  · intro p x dep
    have up := grouped.forward h (show merged.SuperDep p x from dep)
    rw [← grouped.order] at up
    exact up

end SuperGraph

end Gsim.MergeNodes
