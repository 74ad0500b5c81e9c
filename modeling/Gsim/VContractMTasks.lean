/-
  Gsim/VContractMTasks.lean
  =========================
  **The MTasks that come out of a contraction.**

  `Grouped` says how a list of MTasks is filled from a map that sends each SCC to
  its MTask; everything the rest of the code generator relies on (`MTasksOf`)
  follows as soon as the map climbs along SCC edges.  For the contraction the map
  numbers the groups in the order of Kahn's algorithm, which places all of them
  because their graph is acyclic.
-/
import Gsim.VContractLoop

namespace Gsim

open SortedContainers GraphContraction Relation

/-! ## Edges between groups of SCCs -/

theorem mem_crossEdges {sccs : List MtDenseScc} {groupOf : ℕ → Option ℕ} {i j : ℕ} :
    (i, j) ∈ crossEdges sccs groupOf ↔
      ∃ u v, u < sccs.length ∧ v < sccs.length ∧ v ∈ succSccsOf sccs u ∧
        groupOf u = some i ∧ groupOf v = some j ∧ j ≠ i := by
  unfold crossEdges
  simp only [List.mem_flatMap, List.mem_range, List.mem_filterMap]
  constructor
  · rintro ⟨u, hu, v, hv, made⟩
    split at made
    · rename_i fm tm hfm htm
      split at made
      · rename_i ok
        cases made
        exact ⟨u, v, hu, ok.1, hv, hfm, htm, ok.2⟩
      · cases made
    · cases made
  · rintro ⟨u, v, hu, lt, hv, hi, hj, ne⟩
    refine ⟨u, hu, v, hv, ?_⟩
    rw [hi, hj]
    simp [lt, ne]

theorem mem_succSet {edges : List (ℕ × ℕ)} {i j : ℕ} : j ∈ succSet edges i ↔ (i, j) ∈ edges := by
  simp [succSet]

theorem mem_predSet {edges : List (ℕ × ℕ)} {i j : ℕ} : i ∈ predSet edges j ↔ (i, j) ∈ edges := by
  simp [predSet]

/-! ## Filling MTasks -/

/-- `sccIds` of the MTask with the given id. -/
def sccIdsOf (mtasks : List MtDenseMTask) (mtaskId : ℕ) : List ℕ := (mtasks.getD mtaskId {}).sccIds

theorem flatMap_sccIdsOf (mtasks : List MtDenseMTask) :
    mtasks.flatMap (·.sccIds) = (List.range mtasks.length).flatMap (sccIdsOf mtasks) := by
  have self : mtasks = (List.range mtasks.length).map fun m => mtasks.getD m {} := by
    apply List.ext_getElem
    · simp
    · intro i h1 h2
      simp [List.getD_eq_getElem?_getD, List.getElem?_eq_getElem h1]
  conv_lhs => rw [self]
  rw [List.flatMap_map]
  rfl

/-- The MTasks are filled from `groupOf`. -/
structure Grouped (S : SccSchedule) (groupOf : ℕ → Option ℕ) (mtasks : List MtDenseMTask) : Prop where
  total : ∀ s < S.realN, ∃ m < mtasks.length, groupOf s = some m
  sccIds : ∀ m < mtasks.length, sccIdsOf mtasks m =
    S.topoSccOrder.filter fun s => groupOf s = some m
  nonempty : ∀ m < mtasks.length, sccIdsOf mtasks m ≠ []
  preds : ∀ m < mtasks.length, predsOf mtasks m = predSet (crossEdges S.sccs groupOf) m
  succs : ∀ m < mtasks.length, succsOf mtasks m = succSet (crossEdges S.sccs groupOf) m
  climbs : ∀ i j, (i, j) ∈ crossEdges S.sccs groupOf → i < j

/-- A partition of the SCCs into MTasks with ascending ids and exactly the edges between them. -/
structure MTasksOf (S : SccSchedule) (mtasks : List MtDenseMTask) : Prop where
  partition : (mtasks.flatMap (·.sccIds)).Perm (List.range S.realN)
  nonempty : ∀ mt ∈ mtasks, mt.sccIds ≠ []
  forward : ∀ j, ∀ i ∈ predsOf mtasks j, i < j
  mirrored : ∀ i j, i ∈ predsOf mtasks j ↔ j ∈ succsOf mtasks i
  edges : ∀ i j, j ∈ succsOf mtasks i ↔
    i ≠ j ∧ ∃ u ∈ sccIdsOf mtasks i, ∃ v ∈ sccIdsOf mtasks j, v ∈ succSccsOf S.sccs u

/-- What the executors need. -/
def MTasksOf.graph {S : SccSchedule} {mtasks : List MtDenseMTask} (h : MTasksOf S mtasks) :
    MTaskGraph :=
  ⟨mtasks, h.forward, h.mirrored⟩

namespace Grouped

variable {S : SccSchedule} {groupOf : ℕ → Option ℕ} {mtasks : List MtDenseMTask}
  (h : Grouped S groupOf mtasks)
include h

theorem mem_sccIdsOf {m s : ℕ} :
    s ∈ sccIdsOf mtasks m ↔ s < S.realN ∧ m < mtasks.length ∧ groupOf s = some m := by
  by_cases hm : m < mtasks.length
  · rw [h.sccIds m hm, List.mem_filter, S.complete.mem_iff, List.mem_range, decide_eq_true_eq]
    simp [hm, SccSchedule.realN]
  · have none : sccIdsOf mtasks m = [] := by
      unfold sccIdsOf
      rw [List.getD_eq_default _ _ (not_lt.mp hm)]
    rw [none]
    simp [hm]

theorem partition : (mtasks.flatMap (·.sccIds)).Perm (List.range S.realN) := by
  rw [flatMap_sccIdsOf]
  refine (List.perm_ext_iff_of_nodup ?_ List.nodup_range).mpr ?_
  · rw [List.nodup_flatMap]
    constructor
    · intro m hm
      rw [h.sccIds m (List.mem_range.mp hm)]
      exact (S.complete.nodup_iff.mpr List.nodup_range).filter _
    · refine List.nodup_range.imp ?_
      intro m m' ne s hs hs'
      have eq := (h.mem_sccIdsOf.mp hs).2.2.symm.trans (h.mem_sccIdsOf.mp hs').2.2
      exact ne (Option.some.inj eq)
  · intro s
    rw [List.mem_flatMap, List.mem_range]
    constructor
    · rintro ⟨m, -, hs⟩
      exact (h.mem_sccIdsOf.mp hs).1
    · intro hs
      obtain ⟨m, hm, eq⟩ := h.total s hs
      exact ⟨m, List.mem_range.mpr hm, h.mem_sccIdsOf.mpr ⟨hs, hm, eq⟩⟩

theorem mem_predsOf {i j : ℕ} :
    i ∈ predsOf mtasks j ↔ (i, j) ∈ crossEdges S.sccs groupOf := by
  by_cases hj : j < mtasks.length
  · rw [h.preds j hj, mem_predSet]
  · have none : predsOf mtasks j = [] := by
      unfold predsOf
      rw [List.getD_eq_default _ _ (not_lt.mp hj)]
    rw [none]
    constructor
    · intro mem
      cases mem
    · intro mem
      obtain ⟨u, v, -, hv, -, -, eq, -⟩ := mem_crossEdges.mp mem
      obtain ⟨m, hm, eq'⟩ := h.total v hv
      cases eq.symm.trans eq'
      exact absurd hm hj

theorem mem_succsOf {i j : ℕ} :
    j ∈ succsOf mtasks i ↔ (i, j) ∈ crossEdges S.sccs groupOf := by
  by_cases hi : i < mtasks.length
  · rw [h.succs i hi, mem_succSet]
  · have none : succsOf mtasks i = [] := by
      unfold succsOf
      rw [List.getD_eq_default _ _ (not_lt.mp hi)]
    rw [none]
    constructor
    · intro mem
      cases mem
    · intro mem
      obtain ⟨u, v, hu, -, -, eq, -, -⟩ := mem_crossEdges.mp mem
      obtain ⟨m, hm, eq'⟩ := h.total u hu
      cases eq.symm.trans eq'
      exact absurd hm hi

theorem mtasksOf : MTasksOf S mtasks where
  partition := h.partition
  nonempty := by
    intro mt hmt
    obtain ⟨m, hm, rfl⟩ := List.getElem_of_mem hmt
    have := h.nonempty m hm
    unfold sccIdsOf at this
    rwa [List.getD_eq_getElem _ _ hm] at this
  forward j i hi := h.climbs i j (h.mem_predsOf.mp hi)
  mirrored i j := by rw [h.mem_predsOf, h.mem_succsOf]
  edges i j := by
    rw [h.mem_succsOf, mem_crossEdges]
    constructor
    · rintro ⟨u, v, hu, hv, edge, hi, hj, ne⟩
      obtain ⟨m, hm, eq⟩ := h.total u hu
      obtain ⟨m', hm', eq'⟩ := h.total v hv
      cases hi.symm.trans eq
      cases hj.symm.trans eq'
      exact ⟨ne.symm, u, h.mem_sccIdsOf.mpr ⟨hu, hm, hi⟩, v, h.mem_sccIdsOf.mpr ⟨hv, hm', hj⟩, edge⟩
    · rintro ⟨ne, u, hu, v, hv, edge⟩
      obtain ⟨hu, -, hi⟩ := h.mem_sccIdsOf.mp hu
      obtain ⟨hv, -, hj⟩ := h.mem_sccIdsOf.mp hv
      exact ⟨u, v, hu, hv, edge, hi, hj, ne.symm⟩

end Grouped

/-! ## The roots and their indices -/

section Roots

variable (S : SccSchedule) (find : ℕ → ℕ)

theorem foldl_roots (l roots : List ℕ) (nodup : roots.Nodup) :
    (l.foldl (fun roots scc => if find scc ∈ roots then roots else roots ++ [find scc]) roots).Nodup ∧
      ∀ r, r ∈ l.foldl (fun roots scc => if find scc ∈ roots then roots else roots ++ [find scc]) roots ↔
        r ∈ roots ∨ ∃ scc ∈ l, find scc = r := by
  induction l generalizing roots with
  | nil => exact ⟨nodup, by simp⟩
  | cons scc l ih =>
    rw [List.foldl_cons]
    by_cases known : find scc ∈ roots
    · rw [if_pos known]
      obtain ⟨nodup', mem⟩ := ih roots nodup
      refine ⟨nodup', fun r => ?_⟩
      rw [mem]
      constructor
      · rintro (h | ⟨x, hx, eq⟩)
        · exact .inl h
        · exact .inr ⟨x, List.mem_cons_of_mem _ hx, eq⟩
      · rintro (h | ⟨x, hx, rfl⟩)
        · exact .inl h
        · rcases List.mem_cons.mp hx with rfl | hx
          · exact .inl known
          · exact .inr ⟨x, hx, rfl⟩
    · rw [if_neg known]
      have nodup1 : (roots ++ [find scc]).Nodup :=
        List.Nodup.append nodup (List.nodup_singleton _) (List.disjoint_singleton.mpr known)
      obtain ⟨nodup', mem⟩ := ih _ nodup1
      refine ⟨nodup', fun r => ?_⟩
      rw [mem, List.mem_append, List.mem_singleton]
      constructor
      · rintro ((h | rfl) | ⟨x, hx, eq⟩)
        · exact .inl h
        · exact .inr ⟨scc, List.mem_cons_self, rfl⟩
        · exact .inr ⟨x, List.mem_cons_of_mem _ hx, eq⟩
      · rintro (h | ⟨x, hx, rfl⟩)
        · exact .inl (.inl h)
        · rcases List.mem_cons.mp hx with rfl | hx
          · exact .inl (.inr rfl)
          · exact .inr ⟨x, hx, rfl⟩

theorem rootsOf_nodup : (rootsOf S find).Nodup := (foldl_roots find _ [] List.nodup_nil).1

theorem mem_rootsOf {r : ℕ} : r ∈ rootsOf S find ↔ ∃ x < S.realN, find x = r := by
  unfold rootsOf
  rw [(foldl_roots find _ [] List.nodup_nil).2]
  simp

variable {S find}

theorem find_mem_rootsOf {x : ℕ} (hx : x < S.realN) : find x ∈ rootsOf S find :=
  (mem_rootsOf S find).mpr ⟨x, hx, rfl⟩

theorem rootIdx_lt {x : ℕ} (hx : x < S.realN) : rootIdx S find x < (rootsOf S find).length :=
  List.idxOf_lt_length_of_mem (find_mem_rootsOf hx)

theorem getD_rootIdx {x : ℕ} (hx : x < S.realN) :
    (rootsOf S find).getD (rootIdx S find x) 0 = find x := by
  rw [List.getD_eq_getElem _ _ (rootIdx_lt hx)]
  exact List.getElem_idxOf _

theorem rootIdx_eq_iff {x y : ℕ} (hx : x < S.realN) (hy : y < S.realN) :
    rootIdx S find x = rootIdx S find y ↔ find x = find y := by
  constructor
  · intro eq
    have at_x : (rootsOf S find).getD (rootIdx S find x) 0 = find x := getD_rootIdx hx
    rw [← at_x, eq, getD_rootIdx hy]
  · intro eq
    unfold rootIdx
    rw [eq]

theorem mem_rootEdges {i j : ℕ} :
    (i, j) ∈ rootEdges S find ↔ ∃ u v, S.Edge u v ∧ rootIdx S find u = i ∧
      rootIdx S find v = j ∧ i ≠ j := by
  unfold rootEdges
  rw [mem_crossEdges]
  constructor
  · rintro ⟨u, v, hu, hv, edge, hi, hj, ne⟩
    cases hi
    cases hj
    refine ⟨u, v, List.mem_filter.mpr ⟨edge, ?_⟩, rfl, rfl, ne.symm⟩
    simp only [decide_eq_true_eq]
    exact ⟨fun eq => ne (by rw [eq]), hv⟩
  · rintro ⟨u, v, edge, rfl, rfl, ne⟩
    obtain ⟨lt, hv⟩ := S.edge_lt edge
    exact ⟨u, v, lt.trans hv, hv, List.mem_of_mem_filter edge, rfl, rfl, ne.symm⟩

end Roots

/-! ## Kahn's algorithm on the roots -/

section RootOrder

variable {S : SccSchedule} {find : ℕ → ℕ}

theorem rootEdges_isGraph :
    Kahn.IsGraph (rootsOf S find).length (succSet (rootEdges S find)) where
  bounded i _ j hj := by
    obtain ⟨u, v, edge, -, rfl, -⟩ := mem_rootEdges.mp (mem_succSet.mp hj)
    exact rootIdx_lt (S.edge_lt edge).2
  nodup _ _ := sortUnique_nodup _

theorem rootEdges_counted (j : ℕ) (_ : j < (rootsOf S find).length) :
    (predSet (rootEdges S find) j).length =
      Kahn.missing (rootsOf S find).length (succSet (rootEdges S find)) [] j := by
  refine Kahn.length_eq_missing (sortUnique_nodup _) fun i => ?_
  rw [mem_predSet, mem_succSet]
  refine ⟨fun edge => ⟨?_, edge⟩, fun h => h.2⟩
  obtain ⟨u, v, uv, rfl, -, -⟩ := mem_rootEdges.mp edge
  obtain ⟨lt, hv⟩ := S.edge_lt uv
  exact rootIdx_lt (lt.trans hv)

theorem rootEdges_acyclic (acyclic : Acyclic (QuotientEdge find S.Edge)) :
    Acyclic fun i j => i < (rootsOf S find).length ∧ j ∈ succSet (rootEdges S find) i := by
  intro i cycle
  refine acyclic ((rootsOf S find).getD i 0) (TransGen.lift (fun i => (rootsOf S find).getD i 0) ?_
    i i cycle)
  rintro i j ⟨-, edge⟩
  obtain ⟨u, v, uv, rfl, rfl, ne⟩ := mem_rootEdges.mp (mem_succSet.mp edge)
  obtain ⟨lt, hv⟩ := S.edge_lt uv
  have hu := lt.trans hv
  refine ⟨u, v, uv, (getD_rootIdx hu).symm, (getD_rootIdx hv).symm, ?_⟩
  intro eq
  have eq : (rootsOf S find).getD (rootIdx S find u) 0 =
    (rootsOf S find).getD (rootIdx S find v) 0 := eq
  rw [getD_rootIdx hu, getD_rootIdx hv] at eq
  exact ne ((rootIdx_eq_iff hu hv).mpr eq)

variable (acyclic : Acyclic (QuotientEdge find S.Edge))
include acyclic

/-- Every group is placed. -/
theorem rootOrder_perm : (rootOrder S find).Perm (List.range (rootsOf S find).length) :=
  Kahn.run_perm rootEdges_isGraph rootEdges_counted () (rootEdges_acyclic acyclic)

theorem mem_rootOrder {x : ℕ} (hx : x < S.realN) : rootIdx S find x ∈ rootOrder S find :=
  (rootOrder_perm acyclic).mem_iff.mpr (List.mem_range.mpr (rootIdx_lt hx))

theorem rootOrder_length : (rootOrder S find).length = (rootsOf S find).length := by
  rw [(rootOrder_perm acyclic).length_eq, List.length_range]

theorem rootOrder_sorted {i j : ℕ} (edge : (i, j) ∈ rootEdges S find) :
    (rootOrder S find).idxOf i < (rootOrder S find).idxOf j := by
  obtain ⟨u, v, uv, rfl, rfl, -⟩ := mem_rootEdges.mp edge
  obtain ⟨lt, hv⟩ := S.edge_lt uv
  exact Kahn.run_sorted rootEdges_isGraph rootEdges_counted () (rootIdx_lt (lt.trans hv))
    (mem_succSet.mpr edge) (mem_rootOrder acyclic hv)

/-! ## Materialisation -/

omit acyclic in
theorem sccToMTask_eq {x : ℕ} (hx : x < S.realN) :
    sccToMTask S find x = some ((rootOrder S find).idxOf (rootIdx S find x)) :=
  if_pos (S.complete.mem_iff.mpr (List.mem_range.mpr hx))

theorem sccToMTask_lt {x : ℕ} (hx : x < S.realN) :
    (rootOrder S find).idxOf (rootIdx S find x) < (rootsOf S find).length := by
  rw [← rootOrder_length acyclic]
  exact List.idxOf_lt_length_of_mem (mem_rootOrder acyclic hx)

/-- Two SCCs share an MTask exactly when they share a group. -/
theorem sccToMTask_eq_iff {x y : ℕ} (hx : x < S.realN) (hy : y < S.realN) :
    sccToMTask S find x = sccToMTask S find y ↔ find x = find y := by
  rw [sccToMTask_eq hx, sccToMTask_eq hy, Option.some.injEq,
    List.idxOf_inj (mem_rootOrder acyclic hx), rootIdx_eq_iff hx hy]

/-- Every id is taken by some SCC. -/
theorem exists_scc_of_mtask {m : ℕ} (hm : m < (rootsOf S find).length) :
    ∃ x < S.realN, sccToMTask S find x = some m := by
  have hm : m < (rootOrder S find).length := by rwa [rootOrder_length acyclic]
  have lt := List.mem_range.mp ((rootOrder_perm acyclic).mem_iff.mp (List.getElem_mem hm))
  obtain ⟨x, hx, eq⟩ := (mem_rootsOf S find).mp (List.getElem_mem lt)
  have index : rootIdx S find x = (rootOrder S find)[m] := by
    unfold rootIdx
    rw [eq]
    exact (rootsOf_nodup S find).idxOf_getElem _ _
  have nodup : (rootOrder S find).Nodup :=
    (rootOrder_perm acyclic).nodup_iff.mpr List.nodup_range
  refine ⟨x, hx, ?_⟩
  rw [sccToMTask_eq hx, index, nodup.idxOf_getElem]

/-- The `Assert` does not fire. -/
theorem materialize_eq : materialize S find =
    some ((List.range (rootsOf S find).length).map fun mi =>
      mtaskOfSccs S (crossEdges S.sccs (sccToMTask S find)) mi
        (S.topoSccOrder.filter fun s => sccToMTask S find s = some mi)) :=
  if_pos (rootOrder_length acyclic)

theorem materialize_grouped {mtasks : List MtDenseMTask} (h : materialize S find = some mtasks) :
    Grouped S (sccToMTask S find) mtasks := by
  rw [materialize_eq acyclic] at h
  cases h
  have getD : ∀ m, m < (rootsOf S find).length →
      ((List.range (rootsOf S find).length).map fun mi =>
        mtaskOfSccs S (crossEdges S.sccs (sccToMTask S find)) mi
          (S.topoSccOrder.filter fun s => sccToMTask S find s = some mi)).getD m {} =
      mtaskOfSccs S (crossEdges S.sccs (sccToMTask S find)) m
        (S.topoSccOrder.filter fun s => sccToMTask S find s = some m) := by
    intro m hm
    simp [List.getD_eq_getElem?_getD, hm]
  refine ⟨?_, ?_, ?_, ?_, ?_, ?_⟩
  · intro s hs
    simp only [List.length_map, List.length_range]
    exact ⟨_, sccToMTask_lt acyclic hs, sccToMTask_eq hs⟩
  · intro m hm
    simp only [List.length_map, List.length_range] at hm
    rw [sccIdsOf, getD m hm]
    rfl
  · intro m hm
    simp only [List.length_map, List.length_range] at hm
    rw [sccIdsOf, getD m hm]
    obtain ⟨x, hx, eq⟩ := exists_scc_of_mtask acyclic hm
    apply List.ne_nil_of_mem (a := x)
    refine List.mem_filter.mpr ⟨S.complete.mem_iff.mpr (List.mem_range.mpr hx), ?_⟩
    rwa [decide_eq_true_eq]
  · intro m hm
    simp only [List.length_map, List.length_range] at hm
    rw [predsOf, getD m hm]
    rfl
  · intro m hm
    simp only [List.length_map, List.length_range] at hm
    rw [succsOf, getD m hm]
    rfl
  · intro i j edge
    obtain ⟨u, v, hu, hv, uv, hi, hj, ne⟩ := mem_crossEdges.mp edge
    rw [sccToMTask_eq hu] at hi
    rw [sccToMTask_eq hv] at hj
    cases hi
    cases hj
    apply rootOrder_sorted acyclic
    refine mem_crossEdges.mpr ⟨u, v, hu, hv, uv, rfl, rfl, ?_⟩
    exact fun eq => ne (by rw [eq])

end RootOrder

/-! ## The contraction as a whole -/

/-- SCCs of one MTask agree on the worker-zero mark, and only a single SCC may cost more than
    the cap. -/
structure Bounded (S : SccSchedule) (cap : ℕ) (mtasks : List MtDenseMTask) : Prop where
  unmixed : ∀ mt ∈ mtasks, ∀ s ∈ mt.sccIds, (S.scc s).workerZeroOnly = mt.workerZeroOnly
  capped : ∀ mt ∈ mtasks, (cap : Int) < mt.schedCost → ∃ s, mt.sccIds = [s]

section Bounded

variable {S : SccSchedule} {cap : ℕ} {g : Groups} (inv : GroupsInv S cap g)
include inv

/-- The members of an MTask are the members of one group. -/
theorem mem_group {m s t : ℕ} (hs : s ∈ S.topoSccOrder.filter fun x => sccToMTask S g.find x = some m) :
    t ∈ S.topoSccOrder.filter (fun x => sccToMTask S g.find x = some m) ↔
      t < S.realN ∧ g.find t = g.find s := by
  simp only [List.mem_filter, S.complete.mem_iff, List.mem_range, decide_eq_true_eq] at hs ⊢
  obtain ⟨lt, eq⟩ := hs
  refine and_congr_right fun ht => ?_
  rw [← eq]
  exact sccToMTask_eq_iff inv.acyclic ht lt

theorem materialize_bounded {mtasks : List MtDenseMTask} (h : materialize S g.find = some mtasks) :
    Bounded S cap mtasks := by
  have ids := (materialize_grouped inv.acyclic h).mtasksOf.nonempty
  rw [materialize_eq inv.acyclic] at h
  cases h
  refine ⟨?_, ?_⟩
  · intro mt hmt s hs
    obtain ⟨m, -, rfl⟩ := List.mem_map.mp hmt
    have lt : ∀ t ∈ S.topoSccOrder.filter (fun x => sccToMTask S g.find x = some m),
        (S.scc t).workerZeroOnly = (S.scc s).workerZeroOnly := by
      intro t ht
      obtain ⟨lt, same⟩ := (mem_group inv hs).mp ht
      obtain ⟨lt', -⟩ := (mem_group inv hs).mp hs
      rw [← inv.w0 t lt, ← inv.w0 s lt', same]
    show (S.scc s).workerZeroOnly = List.any _ _
    cases mark : (S.scc s).workerZeroOnly with
    | true => exact (List.any_eq_true.mpr ⟨s, hs, mark⟩).symm
    | false =>
      refine (List.any_eq_false.mpr fun t ht => ?_).symm
      rw [lt t ht, mark]
      decide
  · intro mt hmt expensive
    have some_ := ids mt hmt
    obtain ⟨m, -, rfl⟩ := List.mem_map.mp hmt
    have nodup : (S.topoSccOrder.filter fun x => sccToMTask S g.find x = some m).Nodup :=
      (S.complete.nodup_iff.mpr List.nodup_range).filter _
    obtain ⟨s, hs⟩ := List.exists_mem_of_ne_nil _ some_
    obtain ⟨lt, -⟩ := (mem_group inv hs).mp hs
    -- what the MTask costs is what its group was accounted for
    have cost : ((S.topoSccOrder.filter fun x => sccToMTask S g.find x = some m).map S.sc).sum =
        g.gcost (g.find s) := by
      rw [inv.cost _ (inv.range s lt) (inv.idem s), ← List.sum_toFinset _ nodup]
      refine Finset.sum_congr ?_ fun _ _ => rfl
      ext t
      rw [List.mem_toFinset, mem_group inv hs, Finset.mem_filter, Finset.mem_range]
    have expensive : cap < g.gcost (g.find s) := by
      have sum : (mtaskOfSccs S (crossEdges S.sccs (sccToMTask S g.find)) m
          (S.topoSccOrder.filter fun x => sccToMTask S g.find x = some m)).schedCost =
          ((g.gcost (g.find s) : ℕ) : Int) := by
        rw [← cost]
        simp [mtaskOfSccs, Function.comp_def]
      rw [sum] at expensive
      exact_mod_cast expensive
    refine ⟨s, ?_⟩
    have alone : ∀ t ∈ S.topoSccOrder.filter (fun x => sccToMTask S g.find x = some m), t = s := by
      intro t ht
      by_contra ne
      obtain ⟨lt', same⟩ := (mem_group inv hs).mp ht
      have le := inv.capped t lt' s lt ne same
      rw [same] at le
      omega
    refine List.perm_singleton.mp ((List.perm_ext_iff_of_nodup nodup (List.nodup_singleton s)).mpr ?_)
    intro t
    rw [List.mem_singleton]
    exact ⟨alone t, fun eq => eq ▸ hs⟩

end Bounded

/-- **Contraction.**  For every order of candidates and every scoring: the graph of the groups is
    acyclic after every turn, so materialisation succeeds wherever the loop stops, with a
    partition of the SCCs into bounded MTasks of ascending ids and exactly the edges between
    them; and the loop does stop. -/
theorem mtBuildDenseMTasksVerilatorContract_sound {κ : Type} (S : SccSchedule) (threadCount : ℕ)
    (k : VContractKnobs) (scoring : Scoring κ) :
    (∀ picks, Acyclic ((contractionAfter S threadCount k scoring picks).groups.Dep S) ∧
      ∃ mtasks, mtBuildDenseMTasksVerilatorContract S threadCount k scoring picks = some mtasks ∧
        MTasksOf S mtasks ∧ Bounded S (k.perMTaskCap S.totalCost (max 1 threadCount)) mtasks) ∧
    ∀ pick : ℕ → ℕ, ∃ turns, (contractionAfter S threadCount k scoring
      ((List.range turns).map pick)).finished (vcontractParams S threadCount k scoring) = true := by
  have start : MergeInv (vcontractParams S threadCount k scoring) S
      (MergeState.initial (vcontractParams S threadCount k scoring) S) := MergeInv.initial rfl
  refine ⟨?_, fun pick => mergeLoop_ends rfl start pick⟩
  intro picks
  have inv : MergeInv (vcontractParams S threadCount k scoring) S
    (contractionAfter S threadCount k scoring picks) := start.loop rfl picks
  refine ⟨inv.groups.acyclic, ?_⟩
  have made := materialize_eq inv.groups.acyclic
  unfold mtBuildDenseMTasksVerilatorContract
  by_cases empty : S.realN = 0
  · -- no SCC: the early return agrees with the general case
    rw [if_pos empty]
    refine ⟨[], rfl, ⟨?_, ?_, ?_, ?_, ?_⟩, ⟨?_, ?_⟩⟩ <;> simp [empty, predsOf, succsOf, sccIdsOf]
  · rw [if_neg empty]
    exact ⟨_, made, (materialize_grouped inv.groups.acyclic made).mtasksOf,
      materialize_bounded inv.groups made⟩

end Gsim
