/-
  Gsim/StmtTreeSuper.lean
  =======================
  **The statement tree of a super node is its members in order.**

  A history lists the trees merged so far, each with its owner and the path recorded
  for it.  Every item of the block lies before the recorded path of a tree it comes
  from, so what lies after the limit of a new tree comes from members it does not
  depend on, and the tree may be merged (`Invariant.merge`).  The dependency edges of
  `Node::updateConnect` and `Node::updateDep` cover every clash between two members
  (`apart_of_noDep`) but that of two write ports of one memory.
-/
import Gsim.StmtTreeBuffer

namespace Gsim.StmtTree

open GuardedStatements

/-! ## Items that may change places -/

def rely : Item Leaf ENode → List NodeId
  | .act a => a.relyNodes
  | .test c => c.relyNodes

/-- Neither item assigns to a node the other reads or assigns to, and they are not a
read and a write of one memory. -/
structure Apart (x y : Item Leaf ENode) : Prop where
  right : ∀ a, x = .act a → a.lval.node ∉ rely y
  left : ∀ b, y = .act b → b.lval.node ∉ rely x
  write : ∀ a b, x = .act a → y = .act b → a.lval.node ≠ b.lval.node
  writeRead : ∀ a b m addr data addr', x = .act a → y = .act b →
    a.rval = .writeMem m addr data → b.rval ≠ .readMem m addr'
  readWrite : ∀ a b m addr data addr', x = .act a → y = .act b →
    b.rval = .writeMem m addr data → a.rval ≠ .readMem m addr'

theorem Apart.symm {x y : Item Leaf ENode} (h : Apart x y) : Apart y x where
  right a ha := h.left a ha
  left b hb := h.right b hb
  write a b ha hb eq := h.write b a hb ha eq.symm
  writeRead a b m addr data addr' ha hb := h.readWrite b a m addr data addr' hb ha
  readWrite a b m addr data addr' ha hb := h.writeRead b a m addr data addr' hb ha

theorem Apart.independent {V : Type} (I : Interp V) (init : State V) {x y : Item Leaf ENode}
    (h : Apart x y) : (buffered I init).Independent x y where
  read_right v writes reads := by
    cases x with
    | test c => exact writes
    | act a =>
      obtain rfl : a.lval.node = v := writes
      cases y with
      | test c => exact h.right a rfl reads
      | act b => exact h.right a rfl reads
  read_left v writes reads := by
    cases y with
    | test c => exact writes
    | act b =>
      obtain rfl : b.lval.node = v := writes
      cases x with
      | test c => exact h.left b rfl reads
      | act a => exact h.left b rfl reads
  write v left right := by
    cases x with
    | test c => exact left
    | act a =>
      cases y with
      | test c => exact right
      | act b =>
        obtain rfl : a.lval.node = v := left
        exact h.write a b rfl rfl (Eq.symm right)

/-! ## Histories -/

structure Entry where
  owner : Node
  tree : Guarded
  path : List ℕ

def Entry.key (h : Entry) : Node × Guarded := (h.owner, h.tree)

/-- An assignment is executed before another item: they may change places, or its tree
was merged earlier. -/
def Before (hist : List Entry) (x y : Item Leaf ENode) : Prop :=
  ∀ a, x = .act a → Apart x y ∨
    ∃ h h', [h, h'].Sublist hist ∧ x ∈ h.tree.items ∧ y ∈ h'.tree.items

section Invariant

variable {V : Type} (I : Interp V) (init : State V)

structure Invariant (hist : List Entry) (S : Block) : Prop where
  covers : ∀ p x, x ∈ beyond p S → ∃ h ∈ hist, x ∈ h.tree.items ∧ ¬ h.path ≤ 0 :: p
  steady : Steady (Touches (buffered I init)) S
  ordered : Ordered (Before hist) S
  exec : ∀ s, exec (buffered I init).meaning S s =
    hist.foldl (fun s h => h.tree.exec (buffered I init).meaning s) s

/-- What a tree needs of the history when its limit is `path`. -/
structure Joins (hist : List Entry) (path : List ℕ) (t : Guarded) : Prop where
  limit : path.headD 0 = 0
  clear : ∀ h ∈ hist, ¬ h.path ≤ path → ∀ x ∈ h.tree.items, ∀ y ∈ t.items, Apart x y
  own : ∀ a c, Item.act a ∈ t.items → Item.test c ∈ t.items → a.lval.node ∉ c.relyNodes
  scalar : ∀ a, Item.act a ∈ t.items → a.lval.isArray = false → a.lval.index = []
  unread : hist.Pairwise fun h h' => ∀ a b y, Item.act a ∈ t.items →
    Item.act b ∈ h.tree.items → Replaces a b → y ∈ h'.tree.items → a.lval.node ∉ rely y
  fresh : ∀ h ∈ hist, ∀ a b, Item.act a ∈ t.items → Item.act b ∈ h.tree.items →
    Replaces a b → a.lval.node ∉ a.relyNodes

variable {I init}

theorem not_reads {x : Item Leaf ENode} {v : NodeId} (h : v ∉ rely x) :
    ¬ (buffered I init).Reads x v := by
  cases x with
  | act a => exact h
  | test c => exact h

theorem Invariant.admissible {hist : List Entry} {S : Block} (inv : Invariant I init hist S)
    {path : List ℕ} {t : Guarded} (joins : Joins hist path t) :
    Admissible (buffered I init) t S (path.drop 1) ∧
      ∀ y ∈ beyond (path.drop 1) S, ∀ x ∈ t.items, Apart y x := by
  have head : path ≤ 0 :: path.drop 1 := by
    have limit := joins.limit
    cases path with
    | nil => exact path_nil_le _
    | cons k p =>
      simp only [List.headD_cons] at limit
      subst limit
      exact le_refl _
  have free : ∀ y ∈ beyond (path.drop 1) S, ∀ x ∈ t.items, Apart y x := by
    intro y hy x hx
    obtain ⟨h, mem, hy, later⟩ := inv.covers _ y hy
    exact joins.clear h mem (fun le => later (le.trans head)) y hy x hx
  refine ⟨⟨inv.steady, fun y hy x hx => (free y hy x hx).independent I init, ?_, ?_, ?_⟩, free⟩
  · intro a ha b replaces
    exact ⟨replaces.valid, joins.scalar a ha replaces.scalar⟩
  · refine inv.ordered.imp ?_
    rintro x y before a b ha rfl replaces
    apply not_reads
    rcases before b rfl with apart | ⟨h, h', order, hx, hy⟩
    · rw [← replaces.node]
      exact apart.right b rfl
    · exact List.pairwise_iff_forall_sublist.mp joins.unread order a b y ha hx replaces hy
  · intro a b ha hb replaces
    obtain ⟨h, mem, hb, -⟩ := inv.covers [] _ hb
    exact joins.fresh h mem a b ha hb replaces

/-- Merging a tree extends the history by it. -/
theorem Invariant.merge {hist : List Entry} {S S' : Block} (inv : Invariant I init hist S)
    {path nodePath path' : List ℕ} {n : Node} {t : Guarded} (joins : Joins hist path t)
    (merges : Merges t S (path.drop 1) 1 nodePath S' path') (root : [0] ≤ nodePath)
    (len : 1 ≤ nodePath.length) : Invariant I init (hist ++ [⟨n, t, path'⟩]) S' := by
  obtain ⟨adm, free⟩ := inv.admissible joins
  have longer : hist.Sublist (hist ++ [⟨n, t, path'⟩]) := List.sublist_append_left _ _
  refine ⟨?_, merges.steady (buffered_fits I init) inv.steady joins.own, ?_, ?_⟩
  · intro p x hx
    rcases merges.covers (l := [0]) rfl root len hx with hx | ⟨hx, later⟩
    · obtain ⟨h, mem, hx, later⟩ := inv.covers p x hx
      exact ⟨h, List.mem_append_left _ mem, hx, later⟩
    · exact ⟨_, List.mem_append_right _ (List.mem_singleton_self _), hx, later⟩
  · have kept : Ordered (Before (hist ++ [⟨n, t, path'⟩])) S := by
      refine inv.ordered.imp fun x y before a ha => (before a ha).imp id ?_
      rintro ⟨h, h', order, hx, hy⟩
      exact ⟨h, h', order.trans longer, hx, hy⟩
    refine merges.ordered kept ?_ ?_ ?_
    · intro x hx y hy a ha
      obtain ⟨h, mem, hx, -⟩ := inv.covers [] x hx
      refine .inr ⟨h, ⟨n, t, path'⟩, ?_, hx, hy⟩
      exact List.Sublist.append (List.singleton_sublist.mpr mem) (List.Sublist.refl [_])
    · intro x hx y hy a ha
      exact .inl (free y hy x hx).symm
    · intro c _ y _ a ha
      cases ha
  · intro s
    rw [merges.exec (buffered_fits I init) adm, inv.exec, List.foldl_append]
    rfl

end Invariant

/-! ## Merged paths -/

theorem le_mergePath (p q : List ℕ) : p ≤ mergePath p q ∧ q ≤ mergePath p q := by
  fun_induction mergePath p q with
  | case1 p => exact ⟨le_refl _, path_nil_le _⟩
  | case2 x q => exact ⟨path_nil_le _, le_refl _⟩
  | case3 y p x q le ih =>
    refine ⟨path_cons_le.mpr ?_, path_cons_le.mpr (.inr ⟨rfl, ih.2⟩)⟩
    rcases Nat.lt_or_eq_of_le le with lt | eq
    · exact .inl lt
    · exact .inr ⟨eq, ih.1⟩
  | case4 y p x q gt => exact ⟨le_refl _, path_cons_le.mpr (.inl (Nat.lt_of_not_le gt))⟩

theorem le_foldl_mergePath (paths : List (List ℕ)) (acc : List ℕ) :
    acc ≤ paths.foldl mergePath acc ∧ ∀ p ∈ paths, p ≤ paths.foldl mergePath acc := by
  induction paths generalizing acc with
  | nil => exact ⟨le_refl _, fun _ h => absurd h List.not_mem_nil⟩
  | cons q paths ih =>
    obtain ⟨base, rest⟩ := ih (mergePath acc q)
    refine ⟨(le_mergePath acc q).1.trans base, ?_⟩
    intro p hp
    rcases List.mem_cons.mp hp with rfl | hp
    · exact (le_mergePath acc p).2.trans base
    · exact rest p hp

theorem le_maxPath (p q : List ℕ) : p ≤ maxPath p q ∧ q ≤ maxPath p q := by
  have first : (isFirst p q = true → q ≤ p) ∧ (isFirst p q = false → p ≤ q) := by
    fun_induction isFirst p q with
    | case1 q => exact ⟨fun h => (nomatch h), fun _ => path_nil_le _⟩
    | case2 x p => exact ⟨fun _ => path_nil_le _, fun h => (nomatch h)⟩
    | case3 x p y q lt => exact ⟨fun _ => path_cons_le.mpr (.inl lt), fun h => (nomatch h)⟩
    | case4 x p y q _ lt => exact ⟨fun h => (nomatch h), fun _ => path_cons_le.mpr (.inl lt)⟩
    | case5 x p y q ge le ih =>
      obtain rfl : x = y := by omega
      exact ⟨fun h => path_cons_le.mpr (.inr ⟨rfl, ih.1 h⟩),
        fun h => path_cons_le.mpr (.inr ⟨rfl, ih.2 h⟩)⟩
  unfold maxPath
  split
  · rename_i h
    exact ⟨le_refl _, first.1 h⟩
  · rename_i h
    exact ⟨first.2 (by simpa using h), le_refl _⟩

/-! ### The first entry of every path is the root's -/

def Rooted (path : List ℕ) : Prop := path.headD 0 = 0

theorem Rooted.mergePath {p q : List ℕ} (hp : Rooted p) (hq : Rooted q) :
    Rooted (StmtTree.mergePath p q) := by
  cases q with
  | nil => cases p <;> exact hp
  | cons x q =>
    cases p with
    | nil => exact hq
    | cons y p =>
      unfold StmtTree.mergePath
      split
      · exact hq
      · exact hp

theorem Rooted.foldl_mergePath {paths : List (List ℕ)} (h : ∀ p ∈ paths, Rooted p) {acc : List ℕ}
    (hacc : Rooted acc) : Rooted (paths.foldl StmtTree.mergePath acc) := by
  induction paths generalizing acc with
  | nil => exact hacc
  | cons q paths ih =>
    exact ih (fun p hp => h p (List.mem_cons_of_mem _ hp)) (hacc.mergePath (h q List.mem_cons_self))

theorem Rooted.maxPath {p q : List ℕ} (hp : Rooted p) (hq : Rooted q) :
    Rooted (StmtTree.maxPath p q) := by
  unfold StmtTree.maxPath
  split
  · exact hp
  · exact hq

theorem addDepthPath_headD {path : List ℕ} {depth : ℕ} (pos : 1 ≤ depth) (len : depth ≤ path.length)
    (i : ℕ) : (addDepthPath path depth i).headD 0 = path.headD 0 := by
  obtain ⟨depth, rfl⟩ := Nat.exists_eq_add_of_le' pos
  cases path with
  | nil => exact absurd len (by simp)
  | cons x path =>
    rw [addDepthPath_cons]
    rfl

theorem addSubPath_headD {path : List ℕ} {depth : ℕ} (pos : 1 ≤ depth) (len : depth ≤ path.length)
    (subPath : List ℕ) : (addSubPath path depth subPath).headD 0 = path.headD 0 := by
  induction subPath generalizing path depth with
  | nil => rfl
  | cons x subPath ih =>
    rw [addSubPath, ih (by omega) (length_addDepthPath len x), addDepthPath_headD pos len]

theorem Merges.headD {t : Guarded} {S S' : Block} {limit path path' : List ℕ} {depth : ℕ}
    (h : Merges t S limit depth path S' path') (pos : 1 ≤ depth) (len : depth ≤ path.length) :
    path'.headD 0 = path.headD 0 := by
  induction h with
  | absent => rfl
  | leaf => exact addDepthPath_headD pos len _
  | shared _ _ onFalse onTrue ihf iht =>
    have len₀ := length_addDepthPath len
    obtain ⟨-, len₁⟩ := onFalse.path_le (len₀ _)
    rw [iht (by omega) len₁, ihf (by omega) (len₀ _), addDepthPath_headD pos len]
  | append => exact addSubPath_headD pos len _

theorem root_addDepthPath {path : List ℕ} (rooted : Rooted path) :
    [0] ≤ addDepthPath path 0 0 ∧ 1 ≤ (addDepthPath path 0 0).length ∧
      path ≤ addDepthPath path 0 0 ∧ Rooted (addDepthPath path 0 0) := by
  refine ⟨addDepthPath_covers (l := []) (path_nil_le path) (Nat.zero_le _) 0,
    length_addDepthPath (Nat.zero_le _) 0, le_addDepthPath (Nat.zero_le _) 0, ?_⟩
  cases path with
  | nil => rfl
  | cons x path =>
    have : x = 0 := rooted
    subst this
    rfl

end Gsim.StmtTree
