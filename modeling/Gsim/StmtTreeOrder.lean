/-
  Gsim/StmtTreeOrder.lean
  =======================
  **From the reordered members to the statement tree.**

  `reorderMember` is Kahn's algorithm over the ranks of the members; when its assertion
  holds, the order is topological.  Both the statement tree and the members in order
  keep the accesses to a memory in place (`PortOrder`), so both track the buffered
  execution, and they end in the same state.
-/
import Gsim.StmtTreeSound

namespace Gsim.StmtTree

open GuardedStatements

/-! ## The order of the members -/

section Reorder

variable {member : List Node}

theorem mem_depNextRanks {u v : ℕ} :
    v ∈ depNextRanks member u ↔ ∃ p n, member[u]? = some p ∧ member[v]? = some n ∧
      n.depPrev member p = true := by
  rw [depNextRanks, List.mem_filter, List.mem_range]
  cases hu : member[u]? with
  | none => simp
  | some p =>
    cases hv : member[v]? with
    | none => simp
    | some n =>
      have lt := (List.getElem?_eq_some_iff.mp hv).1
      simp [lt]

theorem depNextRanks_isGraph : Kahn.IsGraph member.length (depNextRanks member) where
  bounded _ _ _ hv := List.mem_range.mp (List.mem_filter.mp hv).1
  nodup _ _ := List.nodup_range.filter _

theorem nodePrev_counted (v : ℕ) (_ : v < member.length) :
    nodePrev member v = Kahn.missing member.length (depNextRanks member) [] v := by
  have nodup : ((List.range member.length).filter fun u =>
      (depNextRanks member u).contains v).Nodup := List.nodup_range.filter _
  rw [nodePrev, Kahn.missing, ← List.toFinset_card_of_nodup nodup]
  congr 1
  ext u
  simp

/-- The ranks in the order in which they are placed. -/
def rankOrder (member : List Node) : List ℕ :=
  (Kahn.run (depNextRanks member) (Kahn.Queue.priority fun u v => u < v) member.length
    (Kahn.start member.length (nodePrev member) ())).order

theorem reorderMember_eq_some {order : List Node} (h : reorderMember member = some order) :
    (rankOrder member).Perm (List.range member.length) ∧
      order = (rankOrder member).filterMap fun v => member[v]? := by
  change (if (rankOrder member).length = member.length then
    some ((rankOrder member).filterMap fun v => member[v]?) else none) = some order at h
  split at h
  · rename_i full
    refine ⟨?_, (Option.some.inj h).symm⟩
    have start : Kahn.Inv member.length (depNextRanks member) []
        (Kahn.start member.length (nodePrev member) ()) := Kahn.Inv.start nodePrev_counted ()
    have inv := start.run (q := Kahn.Queue.priority fun u v => u < v) depNextRanks_isGraph
      member.length
    have sub : rankOrder member ⊆ List.range member.length := fun v hv =>
      List.mem_range.mpr (inv.bounded v (List.mem_append_left _ hv))
    refine ((List.nodup_append.mp inv.nodup).1.subperm sub).perm_of_length_le ?_
    rw [List.length_range]
    exact full.symm.le
  · cases h

theorem filterMap_range_getElem? (l : List Node) :
    (List.range l.length).filterMap (fun v => l[v]?) = l := by
  induction l with
  | nil => rfl
  | cons x l ih =>
    rw [List.length_cons, List.range_succ_eq_map, List.filterMap_cons, List.filterMap_map]
    simp only [List.getElem?_cons_zero, Function.comp_def, Nat.succ_eq_add_one,
      List.getElem?_cons_succ, ih]

theorem reorderMember_perm {order : List Node} (h : reorderMember member = some order) :
    order.Perm member := by
  obtain ⟨perm, rfl⟩ := reorderMember_eq_some h
  have := perm.filterMap fun v => member[v]?
  rwa [filterMap_range_getElem?] at this

theorem depPrev_perm {order : List Node} (perm : order.Perm member) (n p : Node) :
    n.depPrev order p = n.depPrev member p := by
  have any : ∀ f : Node → Bool, order.any f = member.any f := by
    intro f
    rw [Bool.eq_iff_iff, List.any_eq_true, List.any_eq_true]
    simp only [perm.mem_iff]
  simp only [Node.depPrev, any]

theorem rankOrder_sorted (perm : (rankOrder member).Perm (List.range member.length)) {u v : ℕ}
    (edge : v ∈ depNextRanks member u) : (rankOrder member).idxOf u < (rankOrder member).idxOf v := by
  obtain ⟨p, n, hu, hv, -⟩ := mem_depNextRanks.mp edge
  refine Kahn.run_sorted depNextRanks_isGraph nodePrev_counted ()
    (List.getElem?_eq_some_iff.mp hu).1 edge ?_
  exact perm.mem_iff.mpr (List.mem_range.mpr (List.getElem?_eq_some_iff.mp hv).1)

theorem reorderMember_topological {order : List Node} (h : reorderMember member = some order) :
    Topological order := by
  obtain ⟨perm, eq⟩ := reorderMember_eq_some h
  have perm' := reorderMember_perm h
  have noDep : ∀ {u v : ℕ} {n p : Node}, member[v]? = some n → member[u]? = some p →
      (rankOrder member).idxOf v ≤ (rankOrder member).idxOf u → NoDep order n p := by
    intro u v n p hn hp le
    rw [NoDep, depPrev_perm perm']
    by_contra dep
    rw [Bool.not_eq_false] at dep
    have := rankOrder_sorted perm (mem_depNextRanks.mpr ⟨p, n, hp, hn, dep⟩)
    omega
  constructor
  · intro n hn
    rw [eq] at hn
    obtain ⟨v, -, hv⟩ := List.mem_filterMap.mp hn
    exact noDep hv hv (le_refl _)
  · rw [eq, List.pairwise_filterMap, ← eq]
    have nodup : (rankOrder member).Nodup := perm.nodup_iff.mpr List.nodup_range
    rw [List.pairwise_iff_getElem]
    intro i j hi hj lt n hn p hp
    refine noDep hn hp ?_
    rw [nodup.idxOf_getElem, nodup.idxOf_getElem]
    exact lt.le

/-- A member follows the members it depends on. -/
theorem Topological.mem_before {pre post : List Node} {n p : Node}
    (topo : Topological (pre ++ n :: post)) (hp : p ∈ pre ++ n :: post)
    (dep : n.depPrev (pre ++ n :: post) p = true) : p ∈ pre := by
  rcases List.mem_append.mp hp with hp | hp
  · exact hp
  · exfalso
    have noDep : NoDep (pre ++ n :: post) n p := by
      rcases List.mem_cons.mp hp with rfl | hp
      · exact topo.self p (by simp)
      · exact (List.pairwise_cons.mp (List.pairwise_append.mp topo.forward).2.1).1 p hp
    rw [noDep] at dep
    cases dep

end Reorder

/-! ## Memory accesses stay in place -/

section Ports

variable {order : List Node}

/-- The memory and address of a write port. -/
def writePort (order : List Node) (w : NodeId) : Option (MemId × ENode) :=
  (order.find? fun n => n.id == w && n.type == .writer).bind Node.port

theorem writePort_of_mem (wf : WellFormed order) {n : Node} (hn : n ∈ order)
    (writer : n.type = .writer) : writePort order n.id = n.port := by
  have found : order.find? (fun m => m.id == n.id && m.type == .writer) = some n := by
    cases hf : order.find? (fun m => m.id == n.id && m.type == .writer) with
    | none =>
      have := List.find?_eq_none.mp hf n hn
      simp [writer] at this
    | some m =>
      have hm := List.find?_some hf
      simp only [Bool.and_eq_true, beq_iff_eq] at hm
      rw [List.inj_on_of_nodup_map wf.nodup (List.mem_of_find?_eq_some hf) hn hm.1]
  rw [writePort, found]
  rfl

theorem writePort_eq_none {w : NodeId} (h : ∀ n ∈ order, n.id = w → n.type ≠ .writer) :
    writePort order w = none := by
  have none : order.find? (fun m => m.id == w && m.type == .writer) = none := by
    rw [List.find?_eq_none]
    intro n hn hit
    simp only [Bool.and_eq_true, beq_iff_eq] at hit
    exact h n hn hit.1 hit.2
  rw [writePort, none]
  rfl

variable (wf : WellFormed order) (noRW : ∀ n ∈ order, n.type ≠ .readWriter)
include wf noRW

theorem fitsPort {n : Node} (hn : n ∈ order) {t : Guarded} (ht : t ∈ n.trees) {a : Leaf}
    (ha : Item.act a ∈ t.items) : FitsPort (writePort order) a := by
  have allow := Node.allows_of_mem wf hn ht ha
  -- the node assigned to is no write port, unless the leaf is a write
  have noPort : n.type ≠ .writer → writePort order a.lval.node = none := by
    intro other
    apply writePort_eq_none
    intro m hm id
    rcases Node.assigns ht ha with node | updates
    · rw [List.inj_on_of_nodup_map wf.nodup hm hn (id.trans node)]
      exact other
    · exact (wf.next n hn _ updates).noPort m hm id
  unfold FitsPort
  cases hr : a.rval with
  | invalid => trivial
  | expr e =>
    rw [hr] at allow
    exact noPort allow
  | readMem m addr =>
    rw [hr] at allow
    refine noPort fun writer => ?_
    have := allow.1.resolve_right (noRW n hn)
    rw [this] at writer
    cases writer
  | writeMem m addr data =>
    rw [hr] at allow
    obtain ⟨writer, port⟩ := allow.resolve_right (noRW n hn)
    have node : a.lval.node = n.id := by
      refine (Node.assigns ht ha).resolve_right fun updates => ?_
      have := updates.regSrc
      rw [writer] at this
      cases this
    simp only [node]
    rw [writePort_of_mem wf hn writer, port]

theorem portOrder_of_noDep {m n : Node} (hm : m ∈ order) (hn : n ∈ order) (noDep : NoDep order m n)
    {t t' : Guarded} (ht : t ∈ m.trees) (ht' : t' ∈ n.trees) {x y : Item Leaf ENode}
    (hx : x ∈ t.items) (hy : y ∈ t'.items) : PortOrder x y := by
  rintro a b k addr data rfl rfl write
  have allow := Node.allows_of_mem wf hm ht hx
  rw [write] at allow
  obtain ⟨writer, port⟩ := allow.resolve_right (noRW m hm)
  constructor
  · intro mem
    have reads : b.lval.node ∈ m.relyNodes := by
      refine Node.rely_subset ht hx (List.mem_append_left _ ?_)
      rw [write]
      exact List.mem_append_left _ mem
    rcases Node.assigns ht' hy with node | updates
    · rw [node] at reads
      have : m.depPrev order n = true := by simp [Node.depPrev, writer, reads]
      rw [noDep] at this
      cases this
    · refine (wf.next n hn _ updates).unread m hm ?_ reads
      rintro rfl
      have := updates.regSrc
      rw [writer] at this
      cases this
  · intro addr' read
    have allow' := Node.allows_of_mem wf hn ht' hy
    rw [read] at allow'
    exact noDep.memory writer (allow'.1.resolve_right (noRW n hn)) (by simp [Node.memory, port])
      allow'.2

omit wf noRW in
theorem portOrder_of_apart {x y : Item Leaf ENode} (apart : Apart x y) : PortOrder x y := by
  rintro a b k addr data rfl rfl write
  constructor
  · intro mem
    refine apart.left b rfl (List.mem_append_left _ ?_)
    rw [write]
    exact List.mem_append_left _ mem
  · intro addr' read
    exact apart.writeRead a b k addr data addr' rfl rfl write read

end Ports

/-! ## The theorem -/

section Final

variable {V : Type} (I : Interp V) {order : List Node}

/-- The memory writes of the members in order, each with its port. -/
def memoryWrites (order : List Node) (s : State V) : WriteLog :=
  ((order.flatMap Node.trees).foldl (fun st t => t.exec (logged I) st) (s, [])).2

/-- No two write ports of one memory write to one address. -/
def NoCollision (order : List Node) (s : State V) : Prop :=
  ∀ w w' m α, (w, m, α) ∈ memoryWrites I order s → (w', m, α) ∈ memoryWrites I order s → w = w'

/-- The members in order as one block. -/
def memberBlock (order : List Node) : Block := (order.flatMap Node.trees).flatMap Tree.toBlock

theorem exec_flatMap_toBlock {σ : Type} (M : Meaning Leaf ENode σ) (ts : List Guarded) (s : σ) :
    exec M (ts.flatMap Tree.toBlock) s = ts.foldl (fun s t => t.exec M s) s := by
  induction ts generalizing s with
  | nil => rfl
  | cons t ts ih => rw [List.flatMap_cons, exec_append, Tree.exec_toBlock, ih, List.foldl_cons]

theorem mem_items_flatMap_toBlock {ts : List Guarded} {x : Item Leaf ENode}
    (h : x ∈ items (ts.flatMap Tree.toBlock)) : ∃ t ∈ ts, x ∈ t.items := by
  induction ts with
  | nil => cases h
  | cons t ts ih =>
    rw [List.flatMap_cons, items_append, Tree.items_toBlock] at h
    rcases List.mem_append.mp h with h | h
    · exact ⟨t, List.mem_cons_self, h⟩
    · obtain ⟨t', mem, h⟩ := ih h
      exact ⟨t', List.mem_cons_of_mem _ mem, h⟩

theorem ordered_flatMap_toBlock {r : Item Leaf ENode → Item Leaf ENode → Prop}
    (tests : ∀ c y, r (.test c) y) {ts : List Guarded}
    (pairs : ts.Pairwise fun t t' => ∀ x ∈ t.items, ∀ y ∈ t'.items, r x y) :
    Ordered r (ts.flatMap Tree.toBlock) := by
  induction ts with
  | nil => trivial
  | cons t ts ih =>
    rw [List.pairwise_cons] at pairs
    rw [List.flatMap_cons]
    refine ordered_append.mpr ⟨ordered_toBlock fun c _ y _ => tests c y, ?_, ih pairs.2⟩
    intro x hx y hy
    rw [Tree.items_toBlock] at hx
    obtain ⟨t', mem, hy⟩ := mem_items_flatMap_toBlock hy
    exact pairs.1 t' mem x hx y hy

theorem keys_map_snd (order : List Node) : (keys order).map Prod.snd = order.flatMap Node.trees := by
  simp [keys, List.map_flatMap, Function.comp_def]

theorem generateStmtTree_eq_execMembers (wf : WellFormed order)
    (noRW : ∀ n ∈ order, n.type ≠ .readWriter) (topo : Topological order) (s : State V)
    (apart : NoCollision I order s) :
    exec (meaning I) (generateStmtTree order) s = execMembers I order s := by
  obtain ⟨hist, hk, inv⟩ := generateStmtTree_invariant wf noRW topo I s
  have trees : hist.map Entry.tree = order.flatMap Node.trees := by
    rw [← keys_map_snd, ← hk, List.map_map]
    rfl
  have owner : ∀ h ∈ hist, h.owner ∈ order ∧ h.tree ∈ h.owner.trees := by
    intro h mem
    have key : h.key ∈ keys order := hk ▸ List.mem_map_of_mem mem
    exact mem_keys key
  have pairs := keys_pairwise topo wf.nodup_members
  -- both blocks leave the accesses to a memory in place
  have treeOrder : Ordered PortOrder (generateStmtTree order) := by
    refine inv.ordered.imp fun x y before => ?_
    rintro a b m addr data rfl rfl write
    rcases before a rfl with apart | ⟨h, h', sub, hx, hy⟩
    · exact portOrder_of_apart apart a b m addr data rfl rfl write
    · rw [← hk, List.pairwise_map] at pairs
      have noDep := (List.pairwise_iff_forall_sublist.mp pairs sub).1
      obtain ⟨ho, ht⟩ := owner h (sub.subset List.mem_cons_self)
      obtain ⟨ho', ht'⟩ := owner h' (sub.subset (List.mem_cons_of_mem _ List.mem_cons_self))
      exact portOrder_of_noDep wf noRW ho ho' noDep ht ht' hx hy a b m addr data rfl rfl write
  have memberOrder : Ordered PortOrder (memberBlock order) := by
    refine ordered_flatMap_toBlock (fun c y a b m addr data hx => (nomatch hx)) ?_
    rw [← keys_map_snd, List.pairwise_map]
    refine List.Pairwise.imp_of_mem ?_ pairs
    rintro k k' hk hk' ⟨noDep, -⟩ x hx y hy
    obtain ⟨ho, ht⟩ := mem_keys hk
    obtain ⟨ho', ht'⟩ := mem_keys hk'
    exact portOrder_of_noDep wf noRW ho ho' noDep ht ht' hx hy
  have treeFits : ∀ a, Item.act a ∈ items (generateStmtTree order) →
      FitsPort (writePort order) a := by
    intro a ha
    obtain ⟨h, mem, ha, -⟩ := inv.covers [] _ ha
    exact fitsPort wf noRW (owner h mem).1 (owner h mem).2 ha
  have memberFits : ∀ a, Item.act a ∈ items (memberBlock order) → FitsPort (writePort order) a := by
    intro a ha
    obtain ⟨t, ht, ha⟩ := mem_items_flatMap_toBlock ha
    obtain ⟨n, hn, ht⟩ := List.mem_flatMap.mp ht
    exact fitsPort wf noRW hn ht ha
  have calm : ∀ a, Calm (writePort order) (fun n => ((s.node n, none) : Content V)) a :=
    fun a w m addr _ some => by cases some
  have start : Tracks I s (writePort order) (s, []) fun n => (s.node n, none) := Tracks.start
  have tree := start.exec treeFits treeOrder fun a _ => calm a
  have members := start.exec memberFits memberOrder fun a _ => calm a
  have same : exec (buffered I s).meaning (generateStmtTree order) =
      exec (buffered I s).meaning (memberBlock order) := by
    funext s'
    rw [inv.exec, memberBlock, exec_flatMap_toBlock, ← trees, List.foldl_map]
  rw [← same] at members
  have agree := members.agree tree (by
    rw [memberBlock, exec_flatMap_toBlock]
    exact apart)
  rw [exec_logged_fst, exec_logged_fst] at agree
  rw [← agree, memberBlock, exec_flatMap_toBlock]
  rfl

end Final

/-- A reordered super node without read-write ports: every member follows the members
it depends on, and unless two write ports collide the statement tree ends in the state
of the members' assignment trees one after the other. -/
theorem generateStmtTree_preserves {V : Type} (I : Interp V) (super : SuperNode)
    (noRW : ∀ n ∈ super.member, n.type ≠ .readWriter) {order : List Node}
    (reordered : reorderMember super.member = some order) :
    order.Perm super.member ∧
      (∀ pre n post, order = pre ++ n :: post →
        ∀ p ∈ super.member, n.depPrev super.member p = true → p ∈ pre) ∧
      ∀ s : State V, NoCollision I order s →
        exec (meaning I) (generateStmtTree order) s = execMembers I order s := by
  have perm := reorderMember_perm reordered
  have topo := reorderMember_topological reordered
  refine ⟨perm, ?_, ?_⟩
  · rintro pre n post rfl p hp dep
    rw [← depPrev_perm perm] at dep
    exact topo.mem_before (perm.mem_iff.mpr hp) dep
  · exact generateStmtTree_eq_execMembers I (super.wellFormed.perm perm)
      (fun n hn => noRW n (perm.mem_iff.mp hn)) topo

/-! ### Two write ports -/

/-- Literals by their text, references by their node. -/
def literals : Interp ℕ where
  apply op _ _ str _ node _ :=
    if op = .int then fun _ => if str = "1" then 1 else if str = "2" then 2 else 0
    else node.getD fun _ => 0
  index d := d []
  truth d := d [] != 0

def lit (text : String) : ENode := .mk .int 2 false text [] none .nil

def ref (n : NodeId) : ENode := .mk .empty 1 false "" [] (some n) .nil

def plainNode (id : NodeId) (type : NodeType) (port : Option (MemId × ENode)) (cond : NodeId)
    (value : Rvalue) : Node :=
  ⟨id, type, false, port, none, false, none, false, [⟨.when (ref cond) (.leaf value) .absent, []⟩]⟩

/-- `when (en2) a = 1`, `when (en1) mem[0] = 1`, `when (en2) mem[addr] = 2`. -/
def twoPortMembers (addr : String) : List Node :=
  [plainNode 0 .other none 11 (.expr (lit "1")),
    plainNode 1 .writer (some (0, lit "0")) 10 (.writeMem 0 (lit "0") (lit "1")),
    plainNode 2 .writer (some (0, lit addr)) 11 (.writeMem 0 (lit addr) (lit "2"))]

def twoPorts (addr : String) : SuperNode where
  member := twoPortMembers addr
  wellFormed := by
    refine ⟨by simp [twoPortMembers, plainNode], ?_, ?_, ?_⟩
    · simp [twoPortMembers, plainNode, rvalues, Node.Allows]
    · simp [twoPortMembers, plainNode]
    · intro n hn d updates
      have := updates.regSrc
      simp only [twoPortMembers, List.mem_cons, List.not_mem_nil, or_false] at hn
      rcases hn with rfl | rfl | rfl <;> cases this

def enabled : State ℕ := ⟨fun n _ => if n = 10 ∨ n = 11 then 1 else 0, fun _ _ _ => 0⟩

theorem generateStmtTree_preserves_twoPorts :
    reorderMember (twoPorts "1").member = some (twoPortMembers "1") ∧
      exec (meaning literals) (generateStmtTree (twoPortMembers "1")) enabled =
        execMembers literals (twoPortMembers "1") enabled := by
  have reordered : reorderMember (twoPorts "1").member = some (twoPortMembers "1") := rfl
  refine ⟨reordered, ?_⟩
  refine (generateStmtTree_preserves literals (twoPorts "1") ?_ reordered).2.2 enabled ?_
  · simp [twoPorts, twoPortMembers, plainNode]
  · have log : memoryWrites literals (twoPortMembers "1") enabled = [(1, 0, 0), (2, 0, 1)] := by
      decide +kernel
    intro w w' m α h h'
    rw [log] at h h'
    simp only [List.mem_cons, Prod.mk.injEq, List.not_mem_nil, or_false] at h h'
    rcases h with ⟨rfl, -, rfl⟩ | ⟨rfl, -, rfl⟩
    · rcases h' with ⟨rfl, -⟩ | ⟨-, -, differ⟩
      · rfl
      · cases differ
    · rcases h' with ⟨-, -, differ⟩ | ⟨rfl, -⟩
      · cases differ
      · rfl

/-- On a collision the statement tree leaves the write of the first port. -/
theorem twoPorts_collide :
    reorderMember (twoPorts "0").member = some (twoPortMembers "0") ∧
      exec (meaning literals) (generateStmtTree (twoPortMembers "0")) enabled ≠
        execMembers literals (twoPortMembers "0") enabled := by
  refine ⟨rfl, fun same => ?_⟩
  have first : (exec (meaning literals) (generateStmtTree (twoPortMembers "0")) enabled).mem 0 0 [] =
      1 := by decide +kernel
  have second : (execMembers literals (twoPortMembers "0") enabled).mem 0 0 [] = 2 := by
    decide +kernel
  rw [same, second] at first
  cases first

end Gsim.StmtTree
