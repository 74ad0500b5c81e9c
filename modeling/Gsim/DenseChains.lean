/-
  Gsim/DenseChains.lean
  =====================
  **Merged chains are paths.**

  The degrees in the merge loop look at the lists of a group's root only.  That is
  enough: whatever is merged into a root takes in all its predecessors, so that the
  in-degree of a root is one only as long as it is alone, and the next SCC of a
  chain is always put behind its last one (`ChainPaths`).  A group is therefore a
  path; edges enter it at its first SCC and leave it from its last, and the
  renumbered SCCs are the quotient (`coarsen_chains`).
-/
import Gsim.DenseCoarsen

namespace Gsim

open SortedContainers GraphContraction

/-- The SCCs of a group, ascending. -/
def groupOf (sccs : List MtDenseScc) (find : ℕ → ℕ) (root : ℕ) : List ℕ :=
  (List.range sccs.length).filter fun x => find x = root

/-- The groups while chains are merged. -/
structure ChainPaths (sccs : List MtDenseScc) (find : ℕ → ℕ) : Prop where
  path : ∀ r, (groupOf sccs find r).IsChain fun a b => b ∈ succSccsOf sccs a
  uniform : ∀ x, workerZeroOnlyOf sccs (find x) = workerZeroOnlyOf sccs x
  entered : ∀ x y, y < x → find y = find x → ∀ p ∈ predSccsOf sccs x, find p = find x

section Chains

variable {sccs : List MtDenseScc} {find : ℕ → ℕ}

theorem mem_groupOf {x r : ℕ} : x ∈ groupOf sccs find r ↔ x < sccs.length ∧ find x = r := by
  simp [groupOf]

theorem groupOf_pairwise (r : ℕ) : (groupOf sccs find r).Pairwise (· < ·) :=
  List.pairwise_lt_range.filter _

theorem ChainPaths.initial (sccs : List MtDenseScc) : ChainPaths sccs id := by
  refine ⟨?_, fun _ => rfl, ?_⟩
  · intro r
    have sub : groupOf sccs id r = [r] ∨ groupOf sccs id r = [] := by
      by_cases hr : r < sccs.length
      · left
        refine eq_of_pairwise_lt (groupOf_pairwise r) (List.pairwise_singleton _ r) fun x => ?_
        rw [mem_groupOf, List.mem_singleton]
        constructor
        · exact fun hx => hx.2
        · rintro rfl
          exact ⟨hr, rfl⟩
      · right
        refine List.eq_nil_iff_forall_not_mem.mpr fun x hx => ?_
        obtain ⟨lt, rfl⟩ := mem_groupOf.mp hx
        exact hr lt
    rcases sub with eq | eq
    · rw [eq]
      exact List.isChain_singleton r
    · rw [eq]
      exact List.isChain_nil
  · intro x y lt same
    exact absurd same lt.ne

/-! ## One merge -/

section Merge

variable {i r : ℕ} (inv : ChainMergeInv sccs find) (h : ChainPaths sccs find)
  (merge : ChainMerge sccs find i r)
include inv h merge

/-- A root with in-degree one is alone in its group. -/
theorem ChainMerge.alone {x : ℕ} (hx : find x = r) : x = r := by
  by_contra ne
  have lt : x < r := lt_of_le_of_ne (hx ▸ inv.le x) ne
  have inner := h.entered r x lt (hx.trans merge.target.symm)
  have none : ((predSccsOf sccs r).map find).filter (· ≠ r) = [] := by
    refine List.filter_eq_nil_iff.mpr fun y hy => ?_
    obtain ⟨p, hp, rfl⟩ := List.mem_map.mp hy
    simp [inner p hp, merge.target]
  have single := merge.single
  rw [effInDeg, none] at single
  cases single

theorem ChainMerge.step : r ∈ succSccsOf sccs i := by
  obtain ⟨s, hs, eq⟩ := merge.edge
  exact merge.alone inv h eq ▸ hs

/-- All edges into `r` come from the two groups. -/
theorem ChainMerge.preds (dag : SccDag sccs) {p : ℕ} (hp : p ∈ predSccsOf sccs r) :
    find p = i ∨ find p = r := by
  obtain ⟨only, eq⟩ := List.length_eq_one_iff.mp merge.single
  have all : ∀ q ∈ predSccsOf sccs r, find q ≠ r → find q = only := by
    intro q hq ne
    have mem : find q ∈ sortUnique (((predSccsOf sccs r).map find).filter (· ≠ r)) := by
      rw [mem_sortUnique, List.mem_filter]
      exact ⟨List.mem_map.mpr ⟨q, hq, rfl⟩, by simpa using ne⟩
    rw [eq] at mem
    exact List.mem_singleton.mp mem
  by_cases own : find p = r
  · exact .inr own
  · have hi : i ∈ predSccsOf sccs r := (dag.mirrored i r).mpr (merge.step inv h)
    have ne : find i ≠ r := by
      rw [merge.root]
      exact merge.lt.ne
    exact .inl ((all p hp own).trans ((all i hi ne).symm.trans merge.root))

theorem ChainMerge.groupOf_eq :
    groupOf sccs (redirect find r i) r = groupOf sccs find i ++ [r] := by
  refine eq_of_pairwise_lt (groupOf_pairwise r) ?_ fun x => ?_
  · refine List.pairwise_append.mpr ⟨groupOf_pairwise i, List.pairwise_singleton _ r, ?_⟩
    intro x hx y hy
    cases List.mem_singleton.mp hy
    obtain ⟨-, eq⟩ := mem_groupOf.mp hx
    exact (eq ▸ inv.le x).trans_lt merge.lt
  · rw [mem_groupOf, List.mem_append, mem_groupOf, List.mem_singleton]
    unfold redirect
    by_cases own : find x = i
    · rw [if_pos own]
      constructor
      · rintro ⟨lt, -⟩
        exact .inl ⟨lt, own⟩
      · rintro (⟨lt, -⟩ | rfl)
        · exact ⟨lt, rfl⟩
        · exact ⟨merge.bound, rfl⟩
    · rw [if_neg own]
      constructor
      · rintro ⟨-, eq⟩
        exact .inr (merge.alone inv h eq)
      · rintro (⟨-, eq⟩ | rfl)
        · exact absurd eq own
        · exact ⟨merge.bound, merge.target⟩

omit inv h merge in
theorem ChainMerge.groupOf_of_ne {k : ℕ} (ne : k ≠ r) (ne' : k ≠ i) :
    groupOf sccs (redirect find r i) k = groupOf sccs find k := by
  unfold groupOf
  refine List.filter_congr fun x _ => ?_
  unfold redirect
  by_cases own : find x = i
  · rw [if_pos own, own]
    simp [ne.symm, ne'.symm]
  · rw [if_neg own]

omit inv h in
theorem ChainMerge.groupOf_old : groupOf sccs (redirect find r i) i = [] := by
  refine List.eq_nil_iff_forall_not_mem.mpr fun x hx => ?_
  obtain ⟨-, eq⟩ := mem_groupOf.mp hx
  unfold redirect at eq
  by_cases own : find x = i
  · rw [if_pos own] at eq
    exact merge.lt.ne' eq
  · rw [if_neg own] at eq
    exact own eq

/-- `r` is put behind the path that ends in `i`. -/
theorem ChainPaths.merged_path (k : ℕ) :
    (groupOf sccs (redirect find r i) k).IsChain fun a b => b ∈ succSccsOf sccs a := by
  by_cases new : k = r
  · subst new
    rw [merge.groupOf_eq inv h]
    refine (h.path i).append (List.isChain_singleton k) ?_
    intro x hx y hy
    cases hy
    have mem := List.mem_of_getLast? hx
    obtain ⟨lt, eq⟩ := mem_groupOf.mp mem
    have hi : i ∈ groupOf sccs find i := mem_groupOf.mpr ⟨merge.lt.trans merge.bound, merge.root⟩
    have last : i ≤ x := by
      obtain ⟨front, split⟩ := List.getLast?_eq_some_iff.mp hx
      have sorted : (groupOf sccs find i).Pairwise (· < ·) := groupOf_pairwise i
      rw [split] at hi sorted
      rcases List.mem_append.mp hi with before | same
      · exact ((List.pairwise_append.mp sorted).2.2 i before x (by simp)).le
      · exact (List.mem_singleton.mp same).le
    have top : x = i := le_antisymm (eq ▸ inv.le x) last
    rw [top]
    exact merge.step inv h
  · by_cases old : k = i
    · rw [old, merge.groupOf_old]
      exact List.isChain_nil
    · rw [ChainMerge.groupOf_of_ne new old]
      exact h.path k

/-- Nothing enters the merged group but at its first SCC. -/
theorem ChainPaths.merged_entered (dag : SccDag sccs) {x y : ℕ} (lt : y < x)
    (same : redirect find r i y = redirect find r i x) {p : ℕ} (hp : p ∈ predSccsOf sccs x) :
    redirect find r i p = redirect find r i x := by
  unfold redirect at same ⊢
  by_cases inI : find x = i
  · rw [if_pos inI] at same ⊢
    have group : find y = i := by
      by_contra ne
      rw [if_neg ne] at same
      have eq := merge.alone inv h same
      have le := inv.le x
      rw [inI] at le
      exact absurd merge.lt (by omega)
    rw [if_pos ((h.entered x y lt (group.trans inI.symm) p hp).trans inI)]
  · rw [if_neg inI] at same ⊢
    by_cases inR : find x = r
    · have eq := merge.alone inv h inR
      subst eq
      rw [inR]
      rcases merge.preds inv h dag hp with own | own
      · rw [if_pos own]
      · rw [own, if_neg merge.lt.ne']
    · have group : find y = find x := by
        by_cases own : find y = i
        · rw [if_pos own] at same
          exact absurd same.symm inR
        · rwa [if_neg own] at same
      have inner := h.entered x y lt group p hp
      rw [inner, if_neg inI]

end Merge

variable (dag : SccDag sccs)
include dag

theorem ChainPaths.step (inv : ChainMergeInv sccs find) (h : ChainPaths sccs find) (i : ℕ) :
    ChainPaths sccs (chainMergeStep sccs find i) := by
  rcases chainMergeStep_cases dag inv i with same | ⟨r, step, merge⟩
  · rw [same]
    exact h
  · rw [step]
    refine ⟨h.merged_path inv merge, ?_, fun x y lt same p hp =>
      h.merged_entered inv merge dag lt same hp⟩
    intro x
    unfold redirect
    split
    · rename_i own
      rw [← merge.marks, ← own, h.uniform]
    · exact h.uniform x

/-- What holds at the start and of every turn holds in the end. -/
theorem chainRoot_induct {P : (ℕ → ℕ) → Prop} (start : P id)
    (step : ∀ find i, ChainMergeInv sccs find → P find → P (chainMergeStep sccs find i)) :
    P (chainRoot sccs) := by
  have steps : ∀ (is : List ℕ) (find : ℕ → ℕ), ChainMergeInv sccs find → P find →
      ChainMergeInv sccs (is.foldl (chainMergeStep sccs) find) ∧
        P (is.foldl (chainMergeStep sccs) find) := by
    intro is
    induction is with
    | nil => exact fun find inv h => ⟨inv, h⟩
    | cons i is ih => exact fun find inv h => ih _ (inv.step dag i) (step find i inv h)
  have passes : ∀ (k : ℕ) (find : ℕ → ℕ), ChainMergeInv sccs find → P find →
      P ((chainPass sccs)^[k] find) := by
    intro k
    induction k with
    | zero => exact fun find _ h => h
    | succ k ih =>
      intro find inv h
      obtain ⟨inv', h'⟩ := steps (List.range sccs.length) find inv h
      exact ih _ inv' h'
  exact passes sccs.length id (ChainMergeInv.initial sccs) start

theorem chainRoot_paths : ChainPaths sccs (chainRoot sccs) :=
  chainRoot_induct dag (ChainPaths.initial sccs) fun _ i inv h => h.step dag inv i

/-! ## The quotient -/

theorem chainMembers_eq (i : ℕ) :
    chainMembers sccs (chainOf sccs i) = groupOf sccs (chainRoot sccs) (chainRoot sccs i) := by
  unfold chainMembers groupOf
  refine List.filter_congr fun j hj => ?_
  have eq := chainOf_eq_iff dag (j := i) (List.mem_range.mp hj)
  simp [eq]

omit dag in
/-- Every new id is that of an SCC, its root. -/
theorem exists_chainOf {k : ℕ} (hk : k < (chainRoots sccs).length) :
    ∃ i < sccs.length, chainOf sccs i = k := by
  have root := mem_chainRoots.mp (List.getElem_mem hk)
  refine ⟨(chainRoots sccs)[k], root.1, ?_⟩
  rw [chainOf, root.2]
  have nodup : (chainRoots sccs).Nodup := chainRoots_pairwise.imp fun lt => lt.ne
  exact nodup.idxOf_getElem k hk

omit dag in
/-- Without a merge the ids stay. -/
theorem chainOf_of_full (full : ¬ (chainRoots sccs).length < sccs.length) {i : ℕ}
    (hi : i < sccs.length) : chainRoot sccs i = i ∧ chainOf sccs i = i := by
  have all : chainRoots sccs = List.range sccs.length := by
    refine (List.filter_sublist).eq_of_length_le ?_
    rw [List.length_range]
    exact not_lt.mp full
  have root : chainRoot sccs i = i := by
    have mem : i ∈ chainRoots sccs := by
      rw [all]
      exact List.mem_range.mpr hi
    exact (mem_chainRoots.mp mem).2
  refine ⟨root, ?_⟩
  have place := List.nodup_range.idxOf_getElem i ((List.length_range (n := sccs.length)).symm ▸ hi)
  rw [List.getElem_range] at place
  rw [chainOf, root, all, place]

omit dag in
theorem coarsen_length : (coarsen sccs).length = (chainRoots sccs).length := by
  unfold coarsen
  split
  · rw [List.length_map, List.length_range]
  · rename_i full
    have le : (chainRoots sccs).length ≤ sccs.length := by
      refine (List.length_filter_le _ _).trans ?_
      rw [List.length_range]
    omega

omit dag in
theorem mem_chainMembers {i k : ℕ} : i ∈ chainMembers sccs k ↔ i < sccs.length ∧ chainOf sccs i = k := by
  simp [chainMembers]

theorem chainMembers_path (k : ℕ) :
    (chainMembers sccs k).IsChain fun a b => b ∈ succSccsOf sccs a := by
  by_cases empty : chainMembers sccs k = []
  · rw [empty]
    exact List.isChain_nil
  · obtain ⟨i, hi⟩ := List.exists_mem_of_ne_nil _ empty
    obtain ⟨-, rfl⟩ := mem_chainMembers.mp hi
    rw [chainMembers_eq dag]
    exact (chainRoot_paths dag).path _

/-- An edge between groups leaves from the last SCC of the one and enters the first of the
    other. -/
theorem chain_edge {i s : ℕ} (hs : s ∈ succSccsOf sccs i) (apart : chainOf sccs s ≠ chainOf sccs i) :
    (∀ j ∈ chainMembers sccs (chainOf sccs i), j ≤ i) ∧
      ∀ j ∈ chainMembers sccs (chainOf sccs s), s ≤ j := by
  obtain ⟨lt, bound⟩ := dag.climbs i s hs
  have ne : chainRoot sccs s ≠ chainRoot sccs i := fun eq => apart (by rw [chainOf, chainOf, eq])
  have inv := chainRoot_inv dag
  constructor
  · intro j hj
    obtain ⟨hj, same⟩ := mem_chainMembers.mp hj
    have root : chainRoot sccs i = i := (inv.inner i s hs).resolve_right ne
    calc j ≤ chainRoot sccs j := inv.le j
      _ = i := ((chainOf_eq_iff dag hj).mp same).trans root
  · intro j hj
    obtain ⟨hj, same⟩ := mem_chainMembers.mp hj
    by_contra before
    refine ne (((chainRoot_paths dag).entered s j (not_le.mp before)
      ((chainOf_eq_iff dag hj).mp same) i ((dag.mirrored i s).mpr hs)).symm)

theorem workerZeroOnlyOf_mergeChain {i : ℕ} (hi : i < sccs.length) :
    (mergeChain sccs (chainOf sccs i)).workerZeroOnly = workerZeroOnlyOf sccs i := by
  have uniform : ∀ j ∈ chainMembers sccs (chainOf sccs i),
      workerZeroOnlyOf sccs j = workerZeroOnlyOf sccs i := by
    intro j hj
    obtain ⟨hj, same⟩ := mem_chainMembers.mp hj
    have paths := chainRoot_paths dag
    rw [← paths.uniform j, (chainOf_eq_iff dag hj).mp same, paths.uniform]
  have mem : i ∈ chainMembers sccs (chainOf sccs i) := mem_chainMembers.mpr ⟨hi, rfl⟩
  unfold mergeChain
  obtain ⟨front, last, split⟩ : ∃ front last, chainMembers sccs (chainOf sccs i) = front ++ [last] :=
    ⟨_, _, (List.dropLast_append_getLast (List.ne_nil_of_mem mem)).symm⟩
  rw [split] at uniform ⊢
  simp only [List.map_append, List.map_cons, List.map_nil, List.getLastD_concat]
  exact uniform last (by simp)

theorem mem_succSccsOf_coarsen {k l : ℕ} :
    l ∈ succSccsOf (coarsen sccs) k ↔
      k ≠ l ∧ ∃ i < sccs.length, ∃ s ∈ succSccsOf sccs i, chainOf sccs i = k ∧ chainOf sccs s = l := by
  have edges : (k, l) ∈ chainEdges sccs ↔
      k ≠ l ∧ ∃ i < sccs.length, ∃ s ∈ succSccsOf sccs i, chainOf sccs i = k ∧ chainOf sccs s = l := by
    rw [mem_chainEdges]
    constructor
    · rintro ⟨i, hi, s, hs, ne, rfl, rfl⟩
      exact ⟨fun eq => ne ((chainOf_eq_iff dag hi).mp eq).symm, i, hi, s, hs, rfl, rfl⟩
    · rintro ⟨ne, i, hi, s, hs, rfl, rfl⟩
      exact ⟨i, hi, s, hs, fun eq => ne ((chainOf_eq_iff dag hi).mpr eq.symm), rfl, rfl⟩
  rw [← edges]
  unfold coarsen
  split
  · by_cases hk : k < (chainRoots sccs).length
    · rw [succSccsOf, getD_map_mergeChain hk]
      exact mem_succSet
    · rw [succSccsOf, List.getD_eq_default _ _ (by simpa using hk)]
      refine ⟨fun h => absurd h List.not_mem_nil, fun edge => ?_⟩
      obtain ⟨lt, bound⟩ := chainEdges_climb dag edge
      omega
  · rename_i full
    rw [edges]
    constructor
    · intro hl
      obtain ⟨lt, bound⟩ := dag.climbs k l hl
      exact ⟨lt.ne, k, lt.trans bound, l, hl, (chainOf_of_full full (lt.trans bound)).2,
        (chainOf_of_full full bound).2⟩
    · rintro ⟨-, i, hi, s, hs, rfl, rfl⟩
      rw [(chainOf_of_full full hi).2, (chainOf_of_full full (dag.climbs i s hs).2).2]
      exact hs

theorem mem_predSccsOf_coarsen {k l : ℕ} :
    k ∈ predSccsOf (coarsen sccs) l ↔ l ∈ succSccsOf (coarsen sccs) k := by
  unfold coarsen
  split
  · by_cases hl : l < (chainRoots sccs).length
    · rw [predSccsOf, getD_map_mergeChain hl]
      refine mem_predSet.trans ?_
      by_cases hk : k < (chainRoots sccs).length
      · rw [succSccsOf, getD_map_mergeChain hk]
        exact mem_succSet.symm
      · rw [succSccsOf, List.getD_eq_default _ _ (by simpa using hk)]
        refine ⟨fun edge => ?_, fun h => absurd h List.not_mem_nil⟩
        obtain ⟨lt, bound⟩ := chainEdges_climb dag edge
        omega
    · rw [predSccsOf, List.getD_eq_default _ _ (by simpa using hl)]
      refine ⟨fun h => absurd h List.not_mem_nil, fun h => ?_⟩
      by_cases hk : k < (chainRoots sccs).length
      · rw [succSccsOf, getD_map_mergeChain hk] at h
        exact absurd (chainEdges_climb dag (mem_succSet.mp h)).2 hl
      · rw [succSccsOf, List.getD_eq_default _ _ (by simpa using hk)] at h
        cases h
  · exact dag.mirrored k l

theorem mem_cppIdsOf_coarsen {k u : ℕ} :
    u ∈ cppIdsOf (coarsen sccs) k ↔ ∃ i ∈ chainMembers sccs k, u ∈ cppIdsOf sccs i := by
  have members : (∃ i ∈ chainMembers sccs k, u ∈ cppIdsOf sccs i) ↔
      ∃ i < sccs.length, chainOf sccs i = k ∧ u ∈ cppIdsOf sccs i := by
    simp only [mem_chainMembers, and_assoc]
  rw [members]
  unfold coarsen
  split
  · by_cases hk : k < (chainRoots sccs).length
    · rw [cppIdsOf, getD_map_mergeChain hk]
      exact mem_mergeChain
    · rw [cppIdsOf, List.getD_eq_default _ _ (by simpa using hk)]
      refine ⟨fun h => absurd h List.not_mem_nil, ?_⟩
      rintro ⟨i, hi, rfl, -⟩
      exact absurd (chainOf_lt dag hi) hk
  · rename_i full
    constructor
    · intro hu
      have lt := mem_cppIdsOf_lt hu
      exact ⟨k, lt, (chainOf_of_full full lt).2, hu⟩
    · rintro ⟨i, hi, rfl, hu⟩
      rwa [(chainOf_of_full full hi).2]

end Chains

/-- The SCCs after coarsening. -/
structure Coarsened (sccs : List MtDenseScc) : Prop where
  /-- the loop ends: after at most as many passes as SCCs, one more changes nothing -/
  ends : ∃ k ≤ sccs.length, chainRoot sccs = (chainPass sccs)^[k] id ∧
    chainPass sccs (chainRoot sccs) = chainRoot sccs
  onto : ∀ k < (coarsen sccs).length, chainMembers sccs k ≠ []
  bounded : ∀ i < sccs.length, chainOf sccs i < (coarsen sccs).length
  /-- groups are paths -/
  path : ∀ k, (chainMembers sccs k).IsChain fun a b => b ∈ succSccsOf sccs a
  marks : ∀ i < sccs.length,
    workerZeroOnlyOf (coarsen sccs) (chainOf sccs i) = workerZeroOnlyOf sccs i
  cppIds : ∀ k u, u ∈ cppIdsOf (coarsen sccs) k ↔ ∃ i ∈ chainMembers sccs k, u ∈ cppIdsOf sccs i
  /-- edges leave a group from its last SCC -/
  leaves : ∀ i, ∀ s ∈ succSccsOf sccs i, chainOf sccs s ≠ chainOf sccs i →
    ∀ j ∈ chainMembers sccs (chainOf sccs i), j ≤ i
  /-- and enter it at its first -/
  enters : ∀ i, ∀ s ∈ succSccsOf sccs i, chainOf sccs s ≠ chainOf sccs i →
    ∀ j ∈ chainMembers sccs (chainOf sccs s), s ≤ j
  /-- the edges are those of the quotient -/
  succs : ∀ k l, l ∈ succSccsOf (coarsen sccs) k ↔
    k ≠ l ∧ ∃ i < sccs.length, ∃ s ∈ succSccsOf sccs i, chainOf sccs i = k ∧ chainOf sccs s = l
  preds : ∀ k l, k ∈ predSccsOf (coarsen sccs) l ↔ l ∈ succSccsOf (coarsen sccs) k
  /-- the new ids are in topological order, so that the quotient has no cycle -/
  climbs : ∀ k, ∀ l ∈ succSccsOf (coarsen sccs) k, k < l ∧ l < (coarsen sccs).length
  acyclic : Acyclic fun k l => l ∈ succSccsOf (coarsen sccs) k

/-- **Chain coarsening is sound.** -/
theorem coarsen_sound {sccs : List MtDenseScc} (dag : SccDag sccs) : Coarsened sccs := by
  have climbs : ∀ k, ∀ l ∈ succSccsOf (coarsen sccs) k, k < l ∧ l < (coarsen sccs).length := by
    intro k l hl
    rw [coarsen_length]
    obtain ⟨ne, i, hi, s, hs, rfl, rfl⟩ := (mem_succSccsOf_coarsen dag).mp hl
    refine chainEdges_climb dag (mem_chainEdges.mpr ⟨i, hi, s, hs, ?_, rfl, rfl⟩)
    exact fun eq => ne ((chainOf_eq_iff dag hi).mpr eq.symm)
  have path : ∀ k l, Relation.TransGen (fun k l => l ∈ succSccsOf (coarsen sccs) k) k l → k < l := by
    intro k l path
    induction path with
    | single edge => exact (climbs _ _ edge).1
    | tail _ edge ih => exact ih.trans (climbs _ _ edge).1
  refine
    { ends := ⟨sccs.length, le_refl _, rfl, chainRoot_fixed dag⟩
      onto := ?_
      bounded := ?_
      path := chainMembers_path dag
      marks := ?_
      cppIds := fun k u => mem_cppIdsOf_coarsen dag
      leaves := fun i s hs apart => (chain_edge dag hs apart).1
      enters := fun i s hs apart => (chain_edge dag hs apart).2
      succs := fun k l => mem_succSccsOf_coarsen dag
      preds := fun k l => mem_predSccsOf_coarsen dag
      climbs := climbs
      acyclic := fun k cycle => (path k k cycle).false }
  · intro k hk
    rw [coarsen_length] at hk
    obtain ⟨i, hi, eq⟩ := exists_chainOf hk
    exact List.ne_nil_of_mem (mem_chainMembers.mpr ⟨hi, eq⟩)
  · intro i hi
    rw [coarsen_length]
    exact chainOf_lt dag hi
  · intro i hi
    have marks := workerZeroOnlyOf_mergeChain dag hi
    unfold workerZeroOnlyOf coarsen at *
    split
    · rw [getD_map_mergeChain (chainOf_lt dag hi)]
      exact marks
    · rename_i full
      rw [(chainOf_of_full full hi).2]

/-- A chain of two SCCs behind a fork. -/
def forkedChain : List MtDenseScc :=
  [{ cppIds := [0], succSccs := [1, 2] }, { cppIds := [1], predSccs := [0], succSccs := [3] },
    { cppIds := [2], predSccs := [0] }, { cppIds := [3], predSccs := [1] }]

theorem forkedChain_dag : SccDag forkedChain :=
  SccDag.ofLists (by decide) (by decide) (by decide)

theorem coarsen_sound_forkedChain : SccDag forkedChain ∧ Coarsened forkedChain :=
  ⟨forkedChain_dag, coarsen_sound forkedChain_dag⟩

end Gsim
