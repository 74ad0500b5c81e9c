/-
  Gsim/StmtTreeSound.lean
  =======================
  **The generated statement tree computes what the members compute in order.**

  A `SuperNode` carries what the graph builder guarantees of its members.  In the
  order that `reorderMember` returns every member follows the members it depends on,
  and executing the statement tree ends in the state of executing the members'
  assignment trees one after the other, as long as no two write ports of one memory
  write to one address.
-/
import Gsim.StmtTreeSuper

namespace Gsim.StmtTree

open GuardedStatements

/-! ## Well-formed super nodes -/

def rvalues : Tree Rvalue ENode → List Rvalue
  | .absent => []
  | .leaf r => [r]
  | .when _ t f => rvalues t ++ rvalues f

/-- The nodes that the conditions of a tree rely on. -/
def condNodes : Tree Rvalue ENode → List NodeId
  | .absent => []
  | .leaf _ => []
  | .when c t f => c.relyNodes ++ (condNodes t ++ condNodes f)

namespace Node

/-- The leaves a node may have: a write port writes, through its own address, and does
nothing else. -/
def Allows (n : Node) : Rvalue → Prop
  | .invalid => True
  | .expr _ => n.type ≠ .writer
  | .readMem m _ => (n.type = .reader ∨ n.type = .readWriter) ∧ n.memory = some m
  | .writeMem m addr _ => (n.type = .writer ∧ n.port = some (m, addr)) ∨ n.type = .readWriter

/-- The register also updates its next value `d` when its asynchronous reset arrives. -/
structure UpdatesDst (n : Node) (d : NodeId) : Prop where
  regSrc : n.type = .regSrc
  asyReset : n.asyReset = true
  split : n.dstSplit = true
  dst : n.dst = some d

/-- The next value of a register belongs to it: the register has one update tree, which
reads the next value outside its conditions, and no other member reads or updates it. -/
structure KeepsNext (member : List Node) (n : Node) (d : NodeId) : Prop where
  single : n.assignTree.length = 1
  ne : d ≠ n.id
  reads : d ∈ n.relyNodes
  cond : ∀ tree ∈ n.assignTree, d ∉ condNodes tree.root
  unread : ∀ m ∈ member, m ≠ n → d ∉ m.relyNodes
  only : ∀ m ∈ member, m.UpdatesDst d → m = n
  noPort : ∀ m ∈ member, m.id = d → m.type ≠ .writer

end Node

/-- What the graph builder guarantees of the members of a super node. -/
structure WellFormed (member : List Node) : Prop where
  nodup : (member.map Node.id).Nodup
  allows : ∀ n ∈ member, ∀ tree ∈ n.assignTree, ∀ r ∈ rvalues tree.root, n.Allows r
  scalar : ∀ n ∈ member, n.isArray = false → ∀ tree ∈ n.assignTree, tree.index = []
  next : ∀ n ∈ member, ∀ d, n.UpdatesDst d → n.KeepsNext member d

structure SuperNode where
  member : List Node
  wellFormed : WellFormed member

theorem WellFormed.perm {member order : List Node} (wf : WellFormed member)
    (perm : order.Perm member) : WellFormed order where
  nodup := ((perm.map Node.id).nodup_iff).mpr wf.nodup
  allows n hn := wf.allows n (perm.mem_iff.mp hn)
  scalar n hn := wf.scalar n (perm.mem_iff.mp hn)
  next n hn d updates := by
    have keeps := wf.next n (perm.mem_iff.mp hn) d updates
    exact { keeps with
      unread := fun m hm => keeps.unread m (perm.mem_iff.mp hm)
      only := fun m hm => keeps.only m (perm.mem_iff.mp hm)
      noPort := fun m hm => keeps.noPort m (perm.mem_iff.mp hm) }

/-! ## The items of a tree -/

theorem act_mem_treeOf {lval : Lvalue} {root : Tree Rvalue ENode} {a : Leaf}
    (h : Item.act a ∈ (treeOf lval root).items) : a.lval = lval ∧ a.rval ∈ rvalues root := by
  induction root with
  | absent => cases h
  | leaf r =>
    simp only [treeOf, Tree.items, List.mem_singleton, Item.act.injEq] at h
    subst h
    exact ⟨rfl, List.mem_singleton_self _⟩
  | «when» c t f iht ihf =>
    simp only [treeOf, Tree.items, List.mem_cons, List.mem_append, reduceCtorEq, false_or] at h
    rcases h with h | h
    · exact ⟨(iht h).1, List.mem_append_left _ (iht h).2⟩
    · exact ⟨(ihf h).1, List.mem_append_right _ (ihf h).2⟩

theorem test_mem_treeOf {lval : Lvalue} {root : Tree Rvalue ENode} {c : ENode}
    (h : Item.test c ∈ (treeOf lval root).items) : c.relyNodes ⊆ condNodes root := by
  induction root with
  | absent => cases h
  | leaf r => simp [treeOf, Tree.items] at h
  | «when» c' t f iht ihf =>
    simp only [treeOf, Tree.items, List.mem_cons, List.mem_append, Item.test.injEq] at h
    intro v hv
    rcases h with rfl | h | h
    · exact List.mem_append_left _ hv
    · exact List.mem_append_right _ (List.mem_append_left _ (iht h hv))
    · exact List.mem_append_right _ (List.mem_append_right _ (ihf h hv))

theorem condNodes_subset (root : Tree Rvalue ENode) : condNodes root ⊆ rootRelyNodes root := by
  induction root with
  | absent => exact List.Subset.refl _
  | leaf r => exact List.nil_subset _
  | «when» c t f iht ihf =>
    intro v hv
    simp only [condNodes, rootRelyNodes, List.mem_append] at hv ⊢
    exact hv.imp id (Or.imp (fun h => iht h) (fun h => ihf h))

theorem rvalue_relyNodes_subset {root : Tree Rvalue ENode} {r : Rvalue} (h : r ∈ rvalues root) :
    r.relyNodes ⊆ rootRelyNodes root := by
  induction root with
  | absent => cases h
  | leaf r' =>
    rw [List.mem_singleton.mp h]
    exact List.Subset.refl _
  | «when» c t f iht ihf =>
    intro v hv
    rcases List.mem_append.mp h with h | h
    · exact List.mem_append_right _ (List.mem_append_left _ (iht h hv))
    · exact List.mem_append_right _ (List.mem_append_right _ (ihf h hv))

namespace Node

/-- Where a tree of a node comes from. -/
theorem trees_spec {n : Node} {t : Guarded} (ht : t ∈ n.trees) :
    ∃ tree ∈ n.assignTree, ∃ lval : Lvalue, t = treeOf lval tree.root ∧ lval.index = tree.index ∧
      lval.isArray = n.isArray ∧ (lval.node = n.id ∨ n.UpdatesDst lval.node) := by
  obtain ⟨tree, mem, ht⟩ := List.mem_flatMap.mp ht
  refine ⟨tree, mem, ?_⟩
  rcases List.mem_cons.mp ht with rfl | ht
  · exact ⟨n.lval tree, rfl, rfl, rfl, .inl rfl⟩
  · cases hd : n.dst with
    | none =>
      rw [hd] at ht
      cases ht
    | some d =>
      rw [hd] at ht
      simp only at ht
      split at ht
      · rename_i cond
        simp only [Bool.and_eq_true, beq_iff_eq] at cond
        rw [List.mem_singleton.mp ht]
        exact ⟨_, rfl, rfl, rfl, .inr ⟨cond.1.1.1, cond.1.1.2, cond.1.2, hd⟩⟩
      · cases ht

variable {member : List Node} {n : Node} {t : Guarded}

theorem rely_subset (ht : t ∈ n.trees) {x : Item Leaf ENode} (hx : x ∈ t.items) :
    rely x ⊆ n.relyNodes := by
  obtain ⟨tree, mem, lval, rfl, index, -, -⟩ := trees_spec ht
  intro v hv
  refine List.mem_flatMap.mpr ⟨tree, mem, ?_⟩
  cases x with
  | test c => exact List.mem_append_left _ (condNodes_subset _ (test_mem_treeOf hx hv))
  | act a =>
    obtain ⟨eq, rval⟩ := act_mem_treeOf hx
    rcases List.mem_append.mp hv with hv | hv
    · exact List.mem_append_left _ (rvalue_relyNodes_subset rval hv)
    · rw [eq, index] at hv
      exact List.mem_append_right _ hv

theorem assigns (ht : t ∈ n.trees) {a : Leaf} (ha : Item.act a ∈ t.items) :
    a.lval.node = n.id ∨ n.UpdatesDst a.lval.node := by
  obtain ⟨tree, mem, lval, rfl, -, -, node⟩ := trees_spec ht
  rw [(act_mem_treeOf ha).1]
  exact node

theorem allows_of_mem (wf : WellFormed member) (hn : n ∈ member) (ht : t ∈ n.trees) {a : Leaf}
    (ha : Item.act a ∈ t.items) : n.Allows a.rval := by
  obtain ⟨tree, mem, lval, rfl, -, -, -⟩ := trees_spec ht
  exact wf.allows n hn tree mem _ (act_mem_treeOf ha).2

theorem scalar_of_mem (wf : WellFormed member) (hn : n ∈ member) (ht : t ∈ n.trees) {a : Leaf}
    (ha : Item.act a ∈ t.items) (scalar : a.lval.isArray = false) : a.lval.index = [] := by
  obtain ⟨tree, mem, lval, rfl, index, isArray, -⟩ := trees_spec ht
  rw [(act_mem_treeOf ha).1] at scalar ⊢
  rw [index]
  exact wf.scalar n hn (isArray ▸ scalar) tree mem

/-- Of two trees of a register that keeps its next value, the first is the register's. -/
theorem assigns_first (wf : WellFormed member) (hn : n ∈ member) {t' : Guarded} {d : NodeId}
    (updates : n.UpdatesDst d) (order : [t, t'].Sublist n.trees) {a : Leaf}
    (ha : Item.act a ∈ t.items) : a.lval.node = n.id := by
  have keeps := wf.next n hn d updates
  obtain ⟨tree, single⟩ := List.length_eq_one_iff.mp keeps.single
  have trees : n.trees = n.treesOf tree := by
    rw [Node.trees, single, List.flatMap_cons, List.flatMap_nil, List.append_nil]
  have own : t = treeOf (n.lval tree) tree.root := by
    rw [trees, treesOf] at order
    rcases List.sublist_cons_iff.mp order with none | ⟨r, eq, rest⟩
    · -- the trees behind the first are at most one
      exfalso
      have short := none.length_le
      rw [updates.dst] at short
      simp only [List.length_cons, List.length_nil] at short
      split at short <;> simp at short
    · exact (List.cons.inj eq).1
  rw [own] at ha
  rw [(act_mem_treeOf ha).1]
  rfl

end Node

/-! ## Dependencies cover the clashes -/

section Static

variable {order : List Node}

/-- The first node does not depend on the second. -/
def NoDep (order : List Node) (n p : Node) : Prop := n.depPrev order p = false

theorem not_mem_relyNodes {m n : Node} (left : NoDep order m n) (right : NoDep order n m) :
    m.id ∉ n.relyNodes := by
  intro h
  by_cases src : n.type = .regSrc
  · have : m.depPrev order n = true := by simp [Node.depPrev, src, h]
    rw [left] at this
    cases this
  · have : n.depPrev order m = true := by simp [Node.depPrev, src, h]
    rw [right] at this
    cases this

theorem NoDep.register {n p : Node} (h : NoDep order n p) (src : p.type = .regSrc) :
    n.id ∉ p.relyNodes := by
  intro mem
  have : n.depPrev order p = true := by simp [Node.depPrev, src, mem]
  rw [h] at this
  cases this

theorem NoDep.memory {n p : Node} (h : NoDep order n p) (writer : n.type = .writer)
    (reader : p.type = .reader) {m : MemId} (hn : n.memory = some m) : p.memory ≠ some m := by
  intro hp
  have : n.depPrev order p = true := by simp [Node.depPrev, writer, reader, hn, hp]
  rw [h] at this
  cases this

/-- Two members without a dependency between them do not clash, memory writes apart. -/
theorem apart_of_noDep (wf : WellFormed order) (noRW : ∀ n ∈ order, n.type ≠ .readWriter)
    {m n : Node} (hm : m ∈ order) (hn : n ∈ order) (ne : m ≠ n) (back : NoDep order m n)
    (forth : NoDep order n m) {t t' : Guarded} (ht : t ∈ m.trees) (ht' : t' ∈ n.trees)
    {x y : Item Leaf ENode} (hx : x ∈ t.items) (hy : y ∈ t'.items) : Apart x y where
  right := by
    rintro a rfl mem
    have reads := Node.rely_subset ht' hy mem
    rcases Node.assigns ht hx with node | updates
    · rw [node] at reads
      exact not_mem_relyNodes back forth reads
    · exact (wf.next m hm _ updates).unread n hn ne.symm reads
  left := by
    rintro b rfl mem
    have reads := Node.rely_subset ht hx mem
    rcases Node.assigns ht' hy with node | updates
    · rw [node] at reads
      exact not_mem_relyNodes forth back reads
    · exact (wf.next n hn _ updates).unread m hm ne reads
  write := by
    rintro a b rfl rfl eq
    rcases Node.assigns ht hx with node | updates <;> rcases Node.assigns ht' hy with node' | updates'
    · exact ne (List.inj_on_of_nodup_map wf.nodup hm hn (node ▸ node' ▸ eq))
    · have := (wf.next n hn _ updates').reads
      rw [← eq, node] at this
      exact back.register updates'.regSrc this
    · have := (wf.next m hm _ updates).reads
      rw [eq, node'] at this
      exact forth.register updates.regSrc this
    · rw [eq] at updates
      exact ne ((wf.next n hn _ updates').only m hm updates)
  writeRead := by
    rintro a b k addr data addr' rfl rfl write read
    have allow := Node.allows_of_mem wf hm ht hx
    have allow' := Node.allows_of_mem wf hn ht' hy
    rw [write] at allow
    rw [read] at allow'
    have writer := allow.resolve_right (noRW m hm)
    have reader := allow'.1.resolve_right (noRW n hn)
    exact back.memory writer.1 reader (by simp [Node.memory, writer.2]) allow'.2
  readWrite := by
    rintro a b k addr data addr' rfl rfl write read
    have allow := Node.allows_of_mem wf hm ht hx
    have allow' := Node.allows_of_mem wf hn ht' hy
    rw [write] at allow'
    rw [read] at allow
    have writer := allow'.resolve_right (noRW n hn)
    have reader := allow.1.resolve_right (noRW m hm)
    exact forth.memory writer.1 reader (by simp [Node.memory, writer.2]) allow.2

/-! ## The trees in order -/

/-- The trees of the members in order, with their owners. -/
def keys (order : List Node) : List (Node × Guarded) :=
  order.flatMap fun n => n.trees.map fun t => (n, t)

theorem mem_keys {k : Node × Guarded} (h : k ∈ keys order) : k.1 ∈ order ∧ k.2 ∈ k.1.trees := by
  obtain ⟨n, hn, h⟩ := List.mem_flatMap.mp h
  obtain ⟨t, ht, rfl⟩ := List.mem_map.mp h
  exact ⟨hn, ht⟩

/-- An order in which every member follows the members it depends on. -/
structure Topological (order : List Node) : Prop where
  self : ∀ n ∈ order, NoDep order n n
  forward : order.Pairwise (NoDep order)

theorem keys_pairwise (topo : Topological order) (nodup : order.Nodup) :
    (keys order).Pairwise fun k k' =>
      NoDep order k.1 k'.1 ∧ (k.1 = k'.1 → [k.2, k'.2].Sublist k.1.trees) := by
  refine List.pairwise_flatMap.mpr ⟨?_, ?_⟩
  · intro n hn
    rw [List.pairwise_map, List.pairwise_iff_forall_sublist]
    intro t t' order'
    exact ⟨topo.self n hn, fun _ => order'⟩
  · have distinct : order.Pairwise fun m n => NoDep order m n ∧ m ≠ n :=
      topo.forward.and nodup
    refine distinct.imp ?_
    rintro m n ⟨noDep, ne⟩ k hk k' hk'
    obtain ⟨t, -, rfl⟩ := List.mem_map.mp hk
    obtain ⟨t', -, rfl⟩ := List.mem_map.mp hk'
    exact ⟨noDep, fun eq => absurd eq ne⟩

theorem WellFormed.nodup_members (wf : WellFormed order) : order.Nodup := wf.nodup.of_map _

variable (wf : WellFormed order) (noRW : ∀ n ∈ order, n.type ≠ .readWriter)
  (topo : Topological order)
include wf noRW topo

/-- A tree joins the history of the trees before it, under any limit behind the paths
of its owner and of the members its owner depends on. -/
theorem joins_of_keys {K₁ K₂ : List (Node × Guarded)} {n : Node} {t : Guarded}
    (split : keys order = K₁ ++ (n, t) :: K₂) {hist : List Entry} (hk : hist.map Entry.key = K₁)
    {path : List ℕ} (limit : Rooted path)
    (behind : ∀ h ∈ hist, (h.owner = n ∨ n.depPrev order h.owner = true) → h.path ≤ path) :
    Joins hist path t := by
  have pairs := keys_pairwise topo wf.nodup_members
  rw [split, List.pairwise_append] at pairs
  obtain ⟨before, -, across⟩ := pairs
  obtain ⟨hn, ht⟩ : n ∈ order ∧ t ∈ n.trees :=
    mem_keys (k := (n, t)) (by rw [split]; simp)
  have entry : ∀ h ∈ hist, h.owner ∈ order ∧ h.tree ∈ h.owner.trees ∧ NoDep order h.owner n ∧
      (h.owner = n → [h.tree, t].Sublist h.owner.trees) := by
    intro h mem
    have key : h.key ∈ K₁ := hk ▸ List.mem_map_of_mem mem
    obtain ⟨ho, htree⟩ := mem_keys (k := h.key) (by rw [split]; exact List.mem_append_left _ key)
    obtain ⟨noDep, sub⟩ := across h.key key (n, t) List.mem_cons_self
    exact ⟨ho, htree, noDep, sub⟩
  have self := topo.self n hn
  -- the node that `t` assigns to is not read by a tree that comes after an assignment to it
  refine ⟨limit, ?_, ?_, fun a ha => Node.scalar_of_mem wf hn ht ha, ?_, ?_⟩
  · intro h mem late x hx y hy
    obtain ⟨ho, htree, back, -⟩ := entry h mem
    have ne : h.owner ≠ n := fun eq => late (behind h mem (.inl eq))
    have forth : NoDep order n h.owner := by
      by_contra dep
      exact late (behind h mem (.inr (by simpa [NoDep] using dep)))
    exact apart_of_noDep wf noRW ho hn ne back forth htree ht hx hy
  · intro a c ha hc mem
    rcases Node.assigns ht ha with node | updates
    · rw [node] at mem
      exact not_mem_relyNodes self self (Node.rely_subset ht hc mem)
    · obtain ⟨tree, mem', lval, rfl, -⟩ := Node.trees_spec ht
      exact (wf.next n hn _ updates).cond tree mem' (test_mem_treeOf hc mem)
  · rw [← hk, List.pairwise_map] at before
    refine List.Pairwise.imp_of_mem ?_ before
    rintro h h' mem mem' ⟨noDep, sub⟩ a b y ha hb replaces hy reads
    obtain ⟨ho, htree, back, -⟩ := entry h mem
    obtain ⟨ho', htree', back', -⟩ := entry h' mem'
    have reads' := Node.rely_subset htree' hy reads
    rcases Node.assigns htree hb with node | updates
    · rw [replaces.node] at node
      rcases Node.assigns ht ha with node' | updates'
      · -- both are trees of `n`
        obtain rfl : h.owner = n := List.inj_on_of_nodup_map wf.nodup ho hn (node ▸ node')
        rw [node'] at reads'
        exact not_mem_relyNodes noDep back' reads'
      · have := (wf.next n hn _ updates').reads
        rw [node] at this
        exact back.register updates'.regSrc this
    · have same : h'.owner = h.owner := by
        by_contra ne
        rw [replaces.node] at updates
        exact (wf.next h.owner ho _ updates).unread h'.owner ho' ne reads'
      have first := Node.assigns_first wf ho updates (sub same.symm) hb
      exact (wf.next h.owner ho _ updates).ne first
  · intro h mem a b ha hb replaces reads
    obtain ⟨ho, htree, back, sub⟩ := entry h mem
    have reads' := Node.rely_subset ht ha reads
    rcases Node.assigns ht ha with node | updates
    · rw [node] at reads'
      exact not_mem_relyNodes self self reads'
    · rcases Node.assigns htree hb with node' | updates'
      · rw [replaces.node] at node'
        have := (wf.next n hn _ updates).reads
        rw [node'] at this
        exact back.register updates.regSrc this
      · rw [replaces.node] at updates'
        have same := (wf.next n hn _ updates).only h.owner ho updates'
        have first := Node.assigns_first wf ho updates' (sub same) hb
        rw [replaces.node, same] at first
        exact (wf.next n hn _ updates).ne first

/-! ## All members -/

omit wf noRW topo in
@[simp] theorem keys_append (pre post : List Node) : keys (pre ++ post) = keys pre ++ keys post :=
  List.flatMap_append

omit wf noRW topo in
@[simp] theorem keys_cons (n : Node) (post : List Node) :
    keys (n :: post) = n.trees.map (fun t => (n, t)) ++ keys post :=
  List.flatMap_cons

omit wf noRW topo in
theorem mergeMember_path (st : Block × (NodeId → List ℕ)) (n : Node) :
    (mergeMember order st n).2 = Function.update st.2 n.id
      (n.trees.foldl (mergeExpTree (prevOrderPath order st.2 n)) (st.1, [])).2 :=
  rfl

section Merging

variable {V : Type} {I : Interp V} {init : State V}

theorem Invariant.foldTrees {pre post : List Node} {n : Node} (split : order = pre ++ n :: post)
    {prevPath : List ℕ} (rootedPrev : Rooted prevPath) (rest done : List Guarded)
    (trees : n.trees = done ++ rest) {hist : List Entry} {S : Block} (nodePath : List ℕ)
    (hk : hist.map Entry.key = keys pre ++ done.map fun t => (n, t))
    (inv : Invariant I init hist S) (rooted : Rooted nodePath)
    (own : ∀ h ∈ hist, h.owner = n → h.path ≤ nodePath)
    (dep : ∀ h ∈ hist, n.depPrev order h.owner = true → h.path ≤ prevPath) :
    ∃ hist', hist'.map Entry.key = keys (pre ++ [n]) ∧
      Invariant I init hist' (rest.foldl (mergeExpTree prevPath) (S, nodePath)).1 ∧
      Rooted (rest.foldl (mergeExpTree prevPath) (S, nodePath)).2 ∧
      (∀ h ∈ hist', h ∈ hist ∨ h.owner = n) ∧
      ∀ h ∈ hist', h.owner = n → h.path ≤ (rest.foldl (mergeExpTree prevPath) (S, nodePath)).2 := by
  induction rest generalizing done hist S nodePath with
  | nil =>
    rw [List.append_nil] at trees
    refine ⟨hist, ?_, inv, rooted, fun h mem => .inl mem, own⟩
    rw [hk, keys_append, keys_cons, trees]
    simp [keys]
  | cons t rest ih =>
    obtain ⟨root, len, longer, rooted'⟩ := root_addDepthPath rooted
    obtain ⟨lePrev, leNode⟩ := le_maxPath prevPath nodePath
    have merges := merge_merges t S ((maxPath prevPath nodePath).drop 1) 1 (addDepthPath nodePath 0 0)
    obtain ⟨lePath, -⟩ := merges.path_le len
    have keysSplit : keys order = (keys pre ++ done.map fun t => (n, t)) ++
        (n, t) :: (rest.map (fun t => (n, t)) ++ keys post) := by
      rw [split, keys_append, keys_cons, trees]
      simp
    have joins := joins_of_keys wf noRW topo keysSplit hk (rootedPrev.maxPath rooted) (by
      rintro h mem (eq | isDep)
      · exact (own h mem eq).trans leNode
      · exact (dep h mem isDep).trans lePrev)
    have inv' : Invariant I init (hist ++ [⟨n, t, (mergeExpTree prevPath (S, nodePath) t).2⟩])
        (mergeExpTree prevPath (S, nodePath) t).1 := inv.merge joins merges root len
    have self : n.depPrev order n = true → False := by
      intro isDep
      have := topo.self n (by rw [split]; simp)
      rw [this] at isDep
      cases isDep
    obtain ⟨hist', hk', final, rootedFinal, old, bound⟩ := ih (done ++ [t])
      (by rw [trees]; simp) _
      (by rw [List.map_append, hk]; simp [Entry.key]) inv'
      ((merges.headD (le_refl 1) len).trans rooted')
      (by
        intro h mem eq
        rcases List.mem_append.mp mem with mem | mem
        · exact ((own h mem eq).trans longer).trans lePath
        · rw [List.mem_singleton.mp mem]
          exact le_refl _)
      (by
        intro h mem isDep
        rcases List.mem_append.mp mem with mem | mem
        · exact dep h mem isDep
        · rw [List.mem_singleton.mp mem] at isDep
          exact (self isDep).elim)
    refine ⟨hist', hk', final, rootedFinal, ?_, bound⟩
    intro h mem
    rcases old h mem with mem | eq
    · rcases List.mem_append.mp mem with mem | mem
      · exact .inl mem
      · rw [List.mem_singleton.mp mem]
        exact .inr rfl
    · exact .inr eq

theorem Invariant.foldMembers (pre rest : List Node) (split : order = pre ++ rest)
    (st : Block × (NodeId → List ℕ)) {hist : List Entry} (hk : hist.map Entry.key = keys pre)
    (inv : Invariant I init hist st.1) (rooted : ∀ id, Rooted (st.2 id))
    (recorded : ∀ h ∈ hist, h.path ≤ st.2 h.owner.id) :
    ∃ hist', hist'.map Entry.key = keys order ∧
      Invariant I init hist' (rest.foldl (mergeMember order) st).1 := by
  induction rest generalizing pre st hist with
  | nil =>
    rw [List.append_nil] at split
    exact ⟨hist, split ▸ hk, inv⟩
  | cons n rest ih =>
    have owners : ∀ h ∈ hist, h.owner ∈ pre := by
      intro h mem
      have key : h.key ∈ keys pre := hk ▸ List.mem_map_of_mem mem
      exact (mem_keys key).1
    have ids := wf.nodup
    rw [split, List.map_append, List.map_cons, List.nodup_append] at ids
    have other : ∀ m ∈ pre, m.id ≠ n.id := fun m hm =>
      ids.2.2 m.id (List.mem_map_of_mem hm) n.id List.mem_cons_self
    have rootedPrev : Rooted (prevOrderPath order st.2 n) := by
      refine Rooted.foldl_mergePath ?_ rfl
      intro p hp
      obtain ⟨m, -, rfl⟩ := List.mem_map.mp hp
      exact rooted m.id
    obtain ⟨hist', hk', inv', rooted', old, bound⟩ := Invariant.foldTrees wf noRW topo split
      rootedPrev n.trees [] rfl [] (by rw [hk]; simp) inv rfl
      (fun h mem eq => absurd (congrArg Node.id eq) (other _ (owners h mem)))
      (by
        intro h mem isDep
        refine (recorded h mem).trans ((le_foldl_mergePath _ _).2 _ ?_)
        refine List.mem_map.mpr ⟨h.owner, List.mem_filter.mpr ⟨?_, isDep⟩, rfl⟩
        rw [split]
        exact List.mem_append_left _ (owners h mem))
    have split' : order = pre ++ [n] ++ rest := by rw [split]; simp
    apply ih (pre ++ [n]) split' (mergeMember order st n) hk' inv'
    · intro id
      rw [mergeMember_path]
      by_cases eq : id = n.id
      · subst eq
        rw [Function.update_self]
        exact rooted'
      · rw [Function.update_of_ne eq]
        exact rooted id
    · intro h mem
      rw [mergeMember_path]
      by_cases eq : h.owner = n
      · rw [eq, Function.update_self]
        exact bound h mem eq
      · rcases old h mem with mem | eq'
        · rw [Function.update_of_ne (other _ (owners h mem))]
          exact recorded h mem
        · exact absurd eq' eq

variable (I init) in
theorem generateStmtTree_invariant : ∃ hist : List Entry, hist.map Entry.key = keys order ∧
    Invariant I init hist (generateStmtTree order) := by
  have start : Invariant I init [] [] := by
    refine ⟨?_, trivial, trivial, fun _ => rfl⟩
    intro p x hx
    rw [beyond_empty] at hx
    cases hx
  exact Invariant.foldMembers wf noRW topo [] order rfl ([], fun _ => []) rfl start (fun _ => rfl)
    fun h mem => absurd mem List.not_mem_nil

end Merging

end Static

end Gsim.StmtTree
