/-
  Gsim/DenseCoarsen.lean
  ======================
  **Merging chains of SCCs** (the coarsening of `buildMtDenseSchedule`).

  An SCC with one successor is merged into it when it is the only predecessor and
  both carry the same worker-zero mark.  A merged SCC therefore has all its
  successors in its own group; only the root of a group, which is its largest
  member, has edges to other groups (`ChainMergeInv`).  So numbering the roots in
  ascending order keeps the edges climbing, and `SccsOf` survives.
-/
import Gsim.DenseSccs

namespace Gsim

open SortedContainers GraphContraction

section Coarsen

variable (sccs : List MtDenseScc)

/-! ## The merge loop -/

/-- The groups of the successors of a root, its own apart. -/
def effSuccs (find : ℕ → ℕ) (root : ℕ) : List ℕ :=
  ((succSccsOf sccs root).map find).filter (· ≠ root)

def effOutDeg (find : ℕ → ℕ) (root : ℕ) : ℕ := (sortUnique (effSuccs sccs find root)).length

def effInDeg (find : ℕ → ℕ) (root : ℕ) : ℕ :=
  (sortUnique (((predSccsOf sccs root).map find).filter (· ≠ root))).length

def workerZeroOnlyOf (sccId : ℕ) : Bool := (sccs.getD sccId {}).workerZeroOnly

/-- One turn of `for (int i = 0; i < n; i++)`. -/
def chainMergeStep (find : ℕ → ℕ) (i : ℕ) : ℕ → ℕ :=
  if find i ≠ i then find
  else if effOutDeg sccs find i ≠ 1 then find
  else
    match (effSuccs sccs find i).head? with
    | none => find
    | some succ =>
      if find succ ≠ succ then find
      else if effInDeg sccs find succ ≠ 1 then find
      else if workerZeroOnlyOf sccs i ≠ workerZeroOnlyOf sccs succ then find
      else redirect find succ i

def chainPass (find : ℕ → ℕ) : ℕ → ℕ := (List.range sccs.length).foldl (chainMergeStep sccs) find

/-- `while (changed)`.  A pass that changes something merges a root, so there are at most as
    many passes as SCCs. -/
def chainRoot : ℕ → ℕ := (chainPass sccs)^[sccs.length] id

/-! ## Renumbering -/

/-- The roots, in the order of their new ids. -/
def chainRoots : List ℕ := (List.range sccs.length).filter fun i => chainRoot sccs i = i

/-- `remap[find(i)]`. -/
def chainOf (i : ℕ) : ℕ := (chainRoots sccs).idxOf (chainRoot sccs i)

def chainMembers (newId : ℕ) : List ℕ :=
  (List.range sccs.length).filter fun i => chainOf sccs i = newId

def chainEdges : List (ℕ × ℕ) :=
  (List.range sccs.length).flatMap fun i =>
    (succSccsOf sccs i).filterMap fun succ =>
      if chainRoot sccs succ = chainRoot sccs i then none
      else some (chainOf sccs i, chainOf sccs succ)

/-- The SCC that takes the place of a chain. -/
def mergeChain (newId : ℕ) : MtDenseScc :=
  let members := (chainMembers sccs newId).map fun i => sccs.getD i {}
  { cppIds := (members.flatMap (·.cppIds)).insertionSort (· ≤ ·)
    predSccs := predSet (chainEdges sccs) newId
    succSccs := succSet (chainEdges sccs) newId
    staticCost := (members.map (·.staticCost)).sum
    memberNodeCost := (members.map (·.memberNodeCost)).sum
    workerZeroOnly := (members.map (·.workerZeroOnly)).getLastD false }

def coarsen : List MtDenseScc :=
  if (chainRoots sccs).length < sccs.length then
    (List.range (chainRoots sccs).length).map (mergeChain sccs)
  else sccs

end Coarsen

/-! ## What one turn can do -/

/-- The groups while chains are merged.  A merged SCC has no edge out of its group. -/
structure ChainMergeInv (sccs : List MtDenseScc) (find : ℕ → ℕ) : Prop where
  idem : ∀ x, find (find x) = find x
  le : ∀ x, x ≤ find x
  lt : ∀ x < sccs.length, find x < sccs.length
  inner : ∀ x, ∀ s ∈ succSccsOf sccs x, find x = x ∨ find s = find x

theorem ChainMergeInv.initial (sccs : List MtDenseScc) : ChainMergeInv sccs id :=
  ⟨fun _ => rfl, fun _ => le_refl _, fun _ h => h, fun _ _ _ => .inl rfl⟩

/-- What is known when the group of `i` is merged into that of `r`. -/
structure ChainMerge (sccs : List MtDenseScc) (find : ℕ → ℕ) (i r : ℕ) : Prop where
  root : find i = i
  target : find r = r
  lt : i < r
  bound : r < sccs.length
  succs : ∀ s ∈ succSccsOf sccs i, find s = i ∨ find s = r
  edge : ∃ s ∈ succSccsOf sccs i, find s = r
  single : effInDeg sccs find r = 1
  marks : workerZeroOnlyOf sccs i = workerZeroOnlyOf sccs r

section Chains

variable {sccs : List MtDenseScc} (h : SccDag sccs) {find : ℕ → ℕ}

theorem mem_effSuccs {root r : ℕ} :
    r ∈ effSuccs sccs find root ↔ r ≠ root ∧ ∃ s ∈ succSccsOf sccs root, find s = r := by
  simp [effSuccs, and_comm]

include h in
/-- A turn does nothing, or merges a root into the one group that it leads to. -/
theorem chainMergeStep_cases (inv : ChainMergeInv sccs find) (i : ℕ) :
    chainMergeStep sccs find i = find ∨
      ∃ r, chainMergeStep sccs find i = redirect find r i ∧ ChainMerge sccs find i r := by
  unfold chainMergeStep
  split
  · exact .inl rfl
  rename_i root
  split
  · exact .inl rfl
  rename_i single
  cases top : (effSuccs sccs find i).head? with
  | none => exact .inl rfl
  | some r =>
    simp only
    split
    · exact .inl rfl
    split
    · exact .inl rfl
    rename_i target
    split
    · exact .inl rfl
    rename_i marks
    have hr := List.mem_of_head? top
    obtain ⟨ne, s, hs, eq⟩ := mem_effSuccs.mp hr
    obtain ⟨lt, bound⟩ := h.climbs i s hs
    refine .inr ⟨r, rfl, not_not.mp root, ?_, ?_, ?_, ?_, ⟨s, hs, eq⟩, not_not.mp target,
      not_not.mp marks⟩
    · rw [← eq, inv.idem]
    · exact lt.trans_le (eq ▸ inv.le s)
    · exact eq ▸ inv.lt s bound
    · intro t ht
      obtain ⟨only, hsingle⟩ := List.length_eq_one_iff.mp (not_not.mp single)
      have all : ∀ x ∈ effSuccs sccs find i, x = only := by
        intro x hx
        rw [← mem_sortUnique, hsingle] at hx
        exact List.mem_singleton.mp hx
      by_cases own : find t = i
      · exact .inl own
      · exact .inr ((all _ (mem_effSuccs.mpr ⟨own, t, ht, rfl⟩)).trans (all r hr).symm)

include h in
theorem ChainMergeInv.step (inv : ChainMergeInv sccs find) (i : ℕ) : ChainMergeInv sccs (chainMergeStep sccs find i) := by
  rcases chainMergeStep_cases h inv i with same | ⟨r, step, merge⟩
  · rw [same]
    exact inv
  · rw [step]
    refine ⟨redirect_idem inv.idem merge.target merge.lt.ne', ?_, ?_, ?_⟩
    · intro x
      unfold redirect
      split
      · rename_i eq
        exact ((inv.le x).trans eq.le).trans merge.lt.le
      · exact inv.le x
    · intro x hx
      unfold redirect
      split
      · exact merge.bound
      · exact inv.lt x hx
    · intro x s hs
      unfold redirect
      by_cases own : find x = i
      · right
        rw [if_pos own]
        rcases inv.inner x s hs with root | same
        · have eq : x = i := root.symm.trans own
          subst eq
          rcases merge.succs s hs with eq | eq
          · rw [if_pos eq]
          · rw [eq, if_neg merge.lt.ne']
        · rw [if_pos (same.trans own)]
      · rw [if_neg own]
        rcases inv.inner x s hs with root | same
        · exact .inl root
        · exact .inr (by rw [if_neg (same ▸ own), same])

/-! ## The loop -/

/-- The number of groups. -/
def rootCount (sccs : List MtDenseScc) (find : ℕ → ℕ) : ℕ :=
  ((Finset.range sccs.length).filter fun x => find x = x).card

include h in
theorem chainMergeStep_rootCount (inv : ChainMergeInv sccs find) {i : ℕ} (hi : i < sccs.length) :
    chainMergeStep sccs find i = find ∨
      rootCount sccs (chainMergeStep sccs find i) < rootCount sccs find := by
  rcases chainMergeStep_cases h inv i with same | ⟨r, step, merge⟩
  · exact .inl same
  · refine .inr (Finset.card_lt_card ⟨?_, ?_⟩)
    · intro x hx
      rw [step, Finset.mem_filter] at hx
      refine Finset.mem_filter.mpr ⟨hx.1, ?_⟩
      have fixed := hx.2
      unfold redirect at fixed
      by_cases own : find x = i
      · rw [if_pos own] at fixed
        rw [← fixed]
        exact merge.target
      · rwa [if_neg own] at fixed
    · intro sub
      have mem := sub (Finset.mem_filter.mpr ⟨Finset.mem_range.mpr hi, merge.root⟩)
      rw [step, Finset.mem_filter] at mem
      have fixed := mem.2
      unfold redirect at fixed
      rw [if_pos merge.root] at fixed
      exact merge.lt.ne' fixed

include h in
theorem ChainMergeInv.steps (inv : ChainMergeInv sccs find) {is : List ℕ} (his : ∀ i ∈ is, i < sccs.length) :
    ChainMergeInv sccs (is.foldl (chainMergeStep sccs) find) ∧
      (is.foldl (chainMergeStep sccs) find = find ∨
        rootCount sccs (is.foldl (chainMergeStep sccs) find) < rootCount sccs find) := by
  induction is generalizing find with
  | nil => exact ⟨inv, .inl rfl⟩
  | cons i is ih =>
    rw [List.foldl_cons]
    obtain ⟨inv', rest⟩ := ih (inv.step h i) fun j hj => his j (List.mem_cons_of_mem _ hj)
    refine ⟨inv', ?_⟩
    rcases chainMergeStep_rootCount h inv (his i List.mem_cons_self) with same | fewer
    · rw [same] at rest ⊢
      exact rest
    · rcases rest with same | fewer'
      · rw [same]
        exact .inr fewer
      · exact .inr (fewer'.trans fewer)

include h in
theorem ChainMergeInv.pass (inv : ChainMergeInv sccs find) :
    ChainMergeInv sccs (chainPass sccs find) ∧ (chainPass sccs find = find ∨
      rootCount sccs (chainPass sccs find) < rootCount sccs find) :=
  inv.steps h fun _ hi => List.mem_range.mp hi

include h in
theorem ChainMergeInv.passes (inv : ChainMergeInv sccs find) (k : ℕ) :
    ChainMergeInv sccs ((chainPass sccs)^[k] find) ∧
      (rootCount sccs find ≤ k →
        chainPass sccs ((chainPass sccs)^[k] find) = (chainPass sccs)^[k] find) := by
  induction k generalizing find with
  | zero =>
    refine ⟨inv, fun none => ?_⟩
    rcases (inv.pass h).2 with same | fewer
    · exact same
    · exact absurd (fewer.trans_le none) (Nat.not_lt_zero _)
  | succ k ih =>
    rw [Function.iterate_succ_apply]
    obtain ⟨next, change⟩ := inv.pass h
    obtain ⟨inv', fixed⟩ := ih next
    refine ⟨inv', fun enough => ?_⟩
    rcases change with same | fewer
    · rw [same, Function.iterate_fixed same, same]
    · exact fixed (by omega)

include h in
/-- The loop has ended: another pass would change nothing. -/
theorem chainRoot_fixed : chainPass sccs (chainRoot sccs) = chainRoot sccs := by
  refine ((ChainMergeInv.initial sccs).passes h _).2 ?_
  exact (Finset.card_filter_le _ _).trans (Finset.card_range _).le

include h in
theorem chainRoot_inv : ChainMergeInv sccs (chainRoot sccs) :=
  ((ChainMergeInv.initial sccs).passes h _).1

/-! ## The renumbered SCCs -/

theorem mem_chainRoots {r : ℕ} : r ∈ chainRoots sccs ↔ r < sccs.length ∧ chainRoot sccs r = r := by
  simp [chainRoots]

theorem chainRoots_pairwise : (chainRoots sccs).Pairwise (· < ·) :=
  List.pairwise_lt_range.filter _

include h in
theorem chainRoot_mem {i : ℕ} (hi : i < sccs.length) : chainRoot sccs i ∈ chainRoots sccs :=
  mem_chainRoots.mpr ⟨(chainRoot_inv h).lt i hi, (chainRoot_inv h).idem i⟩

include h in
theorem chainOf_lt {i : ℕ} (hi : i < sccs.length) : chainOf sccs i < (chainRoots sccs).length :=
  List.idxOf_lt_length_of_mem (chainRoot_mem h hi)

include h in
theorem chainOf_eq_iff {i j : ℕ} (hi : i < sccs.length) :
    chainOf sccs i = chainOf sccs j ↔ chainRoot sccs i = chainRoot sccs j :=
  List.idxOf_inj (chainRoot_mem h hi)

theorem mem_chainEdges {a b : ℕ} :
    (a, b) ∈ chainEdges sccs ↔ ∃ i < sccs.length, ∃ s ∈ succSccsOf sccs i,
      chainRoot sccs s ≠ chainRoot sccs i ∧ chainOf sccs i = a ∧ chainOf sccs s = b := by
  unfold chainEdges
  simp only [List.mem_flatMap, List.mem_range, List.mem_filterMap]
  constructor
  · rintro ⟨i, hi, s, hs, made⟩
    split at made
    · cases made
    · rename_i ne
      cases made
      exact ⟨i, hi, s, hs, ne, rfl, rfl⟩
  · rintro ⟨i, hi, s, hs, ne, rfl, rfl⟩
    exact ⟨i, hi, s, hs, if_neg ne⟩

include h in
/-- An edge that leaves a group starts in its root, its largest member. -/
theorem chainEdges_climb {a b : ℕ} (edge : (a, b) ∈ chainEdges sccs) :
    a < b ∧ b < (chainRoots sccs).length := by
  obtain ⟨i, hi, s, hs, ne, rfl, rfl⟩ := mem_chainEdges.mp edge
  obtain ⟨lt, bound⟩ := h.climbs i s hs
  have inv := chainRoot_inv h
  refine ⟨?_, chainOf_lt h bound⟩
  have root : chainRoot sccs i = i := (inv.inner i s hs).resolve_right ne
  refine (idxOf_lt_idxOf_iff chainRoots_pairwise (chainRoot_mem h hi) (chainRoot_mem h bound)).mpr ?_
  calc chainRoot sccs i = i := root
    _ < s := lt
    _ ≤ chainRoot sccs s := inv.le s

theorem getD_map_mergeChain {k : ℕ} (hk : k < (chainRoots sccs).length) :
    ((List.range (chainRoots sccs).length).map (mergeChain sccs)).getD k {} = mergeChain sccs k := by
  simp [List.getD_eq_getElem?_getD, hk]

theorem mem_mergeChain {k u : ℕ} :
    u ∈ (mergeChain sccs k).cppIds ↔
      ∃ i < sccs.length, chainOf sccs i = k ∧ u ∈ cppIdsOf sccs i := by
  unfold mergeChain
  rw [(List.perm_insertionSort _ _).mem_iff]
  simp only [List.mem_flatMap, List.mem_map, chainMembers, List.mem_filter, List.mem_range,
    decide_eq_true_eq]
  constructor
  · rintro ⟨_, ⟨i, ⟨hi, eq⟩, rfl⟩, hu⟩
    exact ⟨i, hi, eq, hu⟩
  · rintro ⟨i, hi, eq, hu⟩
    exact ⟨_, ⟨i, ⟨hi, eq⟩, rfl⟩, hu⟩

variable {n : ℕ} {succ : ℕ → List ℕ} (sound : SccsOf n succ sccs)
include sound

theorem mergeChain_nodup (k : ℕ) : (mergeChain sccs k).cppIds.Nodup := by
  refine (List.perm_insertionSort _ _).nodup_iff.mpr ?_
  rw [List.flatMap_map, List.nodup_flatMap]
  refine ⟨?_, (List.nodup_range.filter _).imp ?_⟩
  · intro i hi
    exact sound.nodup i (List.mem_range.mp (List.mem_of_mem_filter hi))
  · intro i j ne u hi hj
    exact ne (sound.eq_of_mem hi hj)

theorem coarsen_sccsOf : SccsOf n succ (coarsen sccs) := by
  unfold coarsen
  split
  · have length : ((List.range (chainRoots sccs).length).map (mergeChain sccs)).length =
        (chainRoots sccs).length := by simp
    have mem : ∀ k u, u ∈ cppIdsOf ((List.range (chainRoots sccs).length).map (mergeChain sccs)) k ↔
        ((sccIdx sccs u).map (chainOf sccs)) = some k := by
      intro k u
      rw [Option.map_eq_some_iff]
      constructor
      · intro hu
        have hk := mem_cppIdsOf_lt hu
        rw [length] at hk
        rw [cppIdsOf, getD_map_mergeChain hk] at hu
        obtain ⟨i, -, eq, hu⟩ := mem_mergeChain.mp hu
        exact ⟨i, sound.sccIdx_eq_some.mpr hu, eq⟩
      · rintro ⟨i, hi, rfl⟩
        have hu := sound.sccIdx_eq_some.mp hi
        have lt := mem_cppIdsOf_lt hu
        rw [cppIdsOf, getD_map_mergeChain (chainOf_lt sound.dag lt)]
        exact mem_mergeChain.mpr ⟨i, lt, rfl, hu⟩
    refine SccsOf.ofEdges (fun u => (sccIdx sccs u).map (chainOf sccs)) (chainEdges sccs) mem
      ?_ ?_ ?_ ?_ ?_ ?_ ?_
    · intro u
      rw [sound.mem_iff]
      constructor
      · rintro ⟨i, hu⟩
        exact ⟨chainOf sccs i, by rw [sound.sccIdx_eq_some.mpr hu, Option.map_some]⟩
      · rintro ⟨k, hk⟩
        obtain ⟨i, hi, -⟩ := Option.map_eq_some_iff.mp hk
        exact ⟨i, sound.sccIdx_eq_some.mp hi⟩
    · intro k hk
      rw [length] at hk
      rw [cppIdsOf, getD_map_mergeChain hk]
      exact mergeChain_nodup sound k
    · intro k hk
      rw [length] at hk
      rw [cppIdsOf, getD_map_mergeChain hk]
      exact List.pairwise_insertionSort _ _
    · intro k hk
      rw [length] at hk
      rw [succSccsOf, getD_map_mergeChain hk]
      rfl
    · intro k hk
      rw [length] at hk
      rw [predSccsOf, getD_map_mergeChain hk]
      rfl
    · intro a b edge
      rw [length]
      exact chainEdges_climb sound.dag edge
    · intro a b u v ne ha hb edge
      obtain ⟨i, hi, rfl⟩ := Option.map_eq_some_iff.mp ha
      obtain ⟨j, hj, rfl⟩ := Option.map_eq_some_iff.mp hb
      have hu := sound.sccIdx_eq_some.mp hi
      have lt := mem_cppIdsOf_lt hu
      have apart : chainRoot sccs i ≠ chainRoot sccs j := fun eq => ne ((chainOf_eq_iff sound.dag lt).mpr eq)
      have step : j ∈ succSccsOf sccs i :=
        sound.edges i j u v (fun eq => ne (by rw [eq])) hu (sound.sccIdx_eq_some.mp hj) edge
      exact mem_chainEdges.mpr ⟨i, lt, j, step, apart.symm, rfl, rfl⟩
  · exact sound

end Chains

end Gsim
