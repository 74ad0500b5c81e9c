/-
  Gsim/DenseSccExact.lean
  =======================
  **The SCCs of the task graph are its strongly connected components.**

  `DenseSccs` says what the later stages of `buildMtDenseSchedule` rely on; here is
  what the two passes compute, for any edges, self-loops and repetitions included:
  the groups are the classes of mutual reachability, their numbers climb, and the
  edges of the condensation are the images of the edges between groups.  With the
  filter on, every edge climbs in the rank of the dependencies, so that no cycle is
  left.
-/
import Gsim.KosarajuExact
import Gsim.DenseSccs

namespace Gsim

open SortedContainers GraphContraction Kosaraju Relation

/-- The condensation of a relation on the numbers below `n`. -/
structure Condenses (n : ℕ) (edge : ℕ → ℕ → Prop) (sccs : List MtDenseScc) : Prop where
  partition : (sccs.flatMap (·.cppIds)).Perm (List.range n)
  same : ∀ u < n, ∀ v < n, (∃ i, u ∈ cppIdsOf sccs i ∧ v ∈ cppIdsOf sccs i) ↔
    ReflTransGen edge u v ∧ ReflTransGen edge v u
  climbs : ∀ i j u v, u ∈ cppIdsOf sccs i → v ∈ cppIdsOf sccs j → edge u v → i ≠ j → i < j
  succs : ∀ i j, j ∈ succSccsOf sccs i ↔
    i ≠ j ∧ ∃ u ∈ cppIdsOf sccs i, ∃ v ∈ cppIdsOf sccs j, edge u v
  preds : ∀ i j, i ∈ predSccsOf sccs j ↔
    i ≠ j ∧ ∃ u ∈ cppIdsOf sccs i, ∃ v ∈ cppIdsOf sccs j, edge u v
  succsOnce : ∀ i, (succSccsOf sccs i).Nodup
  predsOnce : ∀ i, (predSccsOf sccs i).Nodup

namespace CppIdGraph

variable (G : CppIdGraph) {forwardActivationOnly : Bool}

/-- A dependency, or an activation that the filter lets through. -/
def Edge (forwardActivationOnly : Bool) (u v : ℕ) : Prop :=
  u < G.superId ∧ v < G.superId ∧
    (v ∈ G.dependency u ∨ v ∈ G.activationEdges forwardActivationOnly u)

theorem mem_succCppIds {u v : ℕ} (hu : u < G.superId) :
    v ∈ G.succCppIds forwardActivationOnly u ↔ G.Edge forwardActivationOnly u v ∧ v ≠ u := by
  rw [succCppIds, mem_addEdges, List.mem_append, Edge]
  constructor
  · rintro ⟨mem, lt, ne⟩
    exact ⟨⟨hu, lt, mem⟩, ne⟩
  · rintro ⟨⟨-, lt, mem⟩, ne⟩
    exact ⟨mem, lt, ne⟩

/-- Self-loops make no difference to who reaches whom. -/
theorem reaches_succCppIds {u v : ℕ} (hu : u < G.superId) :
    Reaches (G.succCppIds forwardActivationOnly) u v ↔
      ReflTransGen (G.Edge forwardActivationOnly) u v := by
  constructor
  · intro path
    have bounded : ∀ u < G.superId, ∀ v ∈ G.succCppIds forwardActivationOnly u, v < G.superId :=
      fun _ _ _ hv => G.succCppIds_lt hv
    induction path with
    | refl => exact .refl
    | tail head edge ih => exact ih.tail ((G.mem_succCppIds (Reaches.lt bounded head hu)).mp edge).1
  · intro path
    induction path with
    | refl => exact .refl
    | @tail x y _ edge ih =>
      by_cases loop : y = x
      · exact loop ▸ ih
      · exact ih.tail ((G.mem_succCppIds edge.1).mpr ⟨edge, loop⟩)

theorem sccGroups_exact :
    (G.sccGroups forwardActivationOnly).Exact (G.succCppIds forwardActivationOnly) :=
  components_exact (fun _ _ => G.mem_predCppIds) fun _ _ _ hv => G.succCppIds_lt hv

theorem taskSccs_same {u v : ℕ} (hu : u < G.superId) :
    (∃ i, u ∈ cppIdsOf (G.taskSccs forwardActivationOnly) i ∧
      v ∈ cppIdsOf (G.taskSccs forwardActivationOnly) i) ↔
      Mutual (G.succCppIds forwardActivationOnly) u v := by
  obtain ⟨k, hk⟩ := (@sccGroups_inv G forwardActivationOnly).2 u hu
  rw [← G.sccGroups_exact u k hk v]
  constructor
  · rintro ⟨i, hi, hj⟩
    rw [G.mem_cppIdsOf_taskSccs] at hi hj
    cases hk.symm.trans hi
    exact hj
  · intro same
    exact ⟨k, G.mem_cppIdsOf_taskSccs.mpr hk, G.mem_cppIdsOf_taskSccs.mpr same⟩

/-- The edges between SCCs are the images of the edges that leave an SCC. -/
theorem mem_sccEdges_iff {i j : ℕ} :
    (i, j) ∈ G.sccEdges forwardActivationOnly ↔
      i ≠ j ∧ ∃ u ∈ cppIdsOf (G.taskSccs forwardActivationOnly) i,
        ∃ v ∈ cppIdsOf (G.taskSccs forwardActivationOnly) j, G.Edge forwardActivationOnly u v := by
  rw [mem_sccEdges]
  constructor
  · rintro ⟨u, v, hu, hv, hi, hj, ne⟩
    exact ⟨ne, u, G.mem_cppIdsOf_taskSccs.mpr hi, v, G.mem_cppIdsOf_taskSccs.mpr hj,
      ((G.mem_succCppIds hu).mp hv).1⟩
  · rintro ⟨ne, u, hi, v, hj, edge⟩
    rw [G.mem_cppIdsOf_taskSccs] at hi hj
    refine ⟨u, v, edge.1, (G.mem_succCppIds edge.1).mpr ⟨edge, ?_⟩, hi, hj, ne⟩
    rintro rfl
    exact ne (Option.some.inj (hi.symm.trans hj))

theorem mem_succSccsOf_taskSccs {i j : ℕ} :
    j ∈ succSccsOf (G.taskSccs forwardActivationOnly) i ↔
      (i, j) ∈ G.sccEdges forwardActivationOnly := by
  by_cases hi : i < (G.taskSccs forwardActivationOnly).length
  · rw [succSccsOf, G.taskSccs_getD hi]
    exact mem_succSet
  · rw [succSccsOf, List.getD_eq_default _ _ (not_lt.mp hi)]
    refine ⟨fun h => absurd h List.not_mem_nil, fun edge => ?_⟩
    obtain ⟨-, u, hu, -⟩ := G.mem_sccEdges_iff.mp edge
    exact absurd (mem_cppIdsOf_lt hu) hi

theorem taskSccs_condenses :
    Condenses G.superId (G.Edge forwardActivationOnly) (G.taskSccs forwardActivationOnly) := by
  have sccs := @taskSccs_sccsOf G forwardActivationOnly
  have succs : ∀ i j, j ∈ succSccsOf (G.taskSccs forwardActivationOnly) i ↔
      i ≠ j ∧ ∃ u ∈ cppIdsOf (G.taskSccs forwardActivationOnly) i,
        ∃ v ∈ cppIdsOf (G.taskSccs forwardActivationOnly) j, G.Edge forwardActivationOnly u v :=
    fun i j => G.mem_succSccsOf_taskSccs.trans G.mem_sccEdges_iff
  refine ⟨G.taskSccs_partition, ?_, ?_, succs, ?_, sccs.succNodup, sccs.predNodup⟩
  · intro u hu v hv
    rw [G.taskSccs_same hu, Mutual, G.reaches_succCppIds hu, G.reaches_succCppIds hv]
  · intro i j u v hu hv edge ne
    exact G.sccEdges_climb (G.mem_sccEdges_iff.mpr ⟨ne, u, hu, v, hv, edge⟩)
  · intro i j
    rw [sccs.mirrored, succs]

/-! ## The forward-activation filter -/

section Filter

variable (acyclic : Acyclic fun u v => u < G.superId ∧ v ∈ G.depSuccs u)
include acyclic

theorem depTopoRank_lt {u v : ℕ} (edge : G.Edge true u v) (ne : v ≠ u) :
    G.depTopoRank u < G.depTopoRank v := by
  obtain ⟨hu, hv, dependency | activation⟩ := edge
  · refine Kahn.run_sorted G.depSuccs_isGraph G.depInDegree_counted () hu ?_ ?_
    · exact G.mem_addEdges.mpr ⟨dependency, hv, ne⟩
    · exact (G.depOrder_perm acyclic).mem_iff.mpr (List.mem_range.mpr hv)
  · simpa using (List.mem_filter.mp activation).2

theorem depTopoRank_le {u v : ℕ} (path : ReflTransGen (G.Edge true) u v) :
    u = v ∨ G.depTopoRank u < G.depTopoRank v := by
  induction path with
  | refl => exact .inl rfl
  | @tail x y _ edge ih =>
    by_cases loop : y = x
    · exact loop ▸ ih
    · have lt := G.depTopoRank_lt acyclic edge loop
      rcases ih with rfl | le
      · exact .inr lt
      · exact .inr (le.trans lt)

/-- No two tasks are left on a cycle. -/
theorem taskSccs_singleton {scc : MtDenseScc} (mem : scc ∈ G.taskSccs true) :
    ∃ cppId, scc.cppIds = [cppId] := by
  obtain ⟨i, hi, rfl⟩ := List.getElem_of_mem mem
  have sccs := @taskSccs_sccsOf G true
  have getD : cppIdsOf (G.taskSccs true) i = ((G.taskSccs true)[i]).cppIds := by
    rw [cppIdsOf, List.getD_eq_getElem _ _ hi]
  have hi' := hi
  rw [taskSccs_length] at hi'
  obtain ⟨u, hu⟩ : ∃ u, u ∈ cppIdsOf (G.taskSccs true) i := by
    have nonempty := (@sccGroups_inv G true).1.nonempty _ (List.getElem_mem hi')
    obtain ⟨u, hu⟩ := List.exists_mem_of_ne_nil _ nonempty
    refine ⟨u, ?_⟩
    rw [cppIdsOf, G.taskSccs_getD hi, List.getD_eq_getElem _ _ hi']
    exact (List.perm_insertionSort _ _).mem_iff.mpr hu
  have only : ∀ v ∈ cppIdsOf (G.taskSccs true) i, v = u := by
    intro v hv
    have ltU := sccs.mem_iff.mpr ⟨i, hu⟩
    have ltV := sccs.mem_iff.mpr ⟨i, hv⟩
    obtain ⟨forth, back⟩ := (G.taskSccs_condenses.same u ltU v ltV).mp ⟨i, hu, hv⟩
    rcases G.depTopoRank_le acyclic forth with eq | lt
    · exact eq.symm
    · rcases G.depTopoRank_le acyclic back with eq | lt'
      · exact eq
      · exact absurd (lt.trans lt') (lt_irrefl _)
  refine ⟨u, ?_⟩
  rw [← getD]
  refine List.perm_singleton.mp
    ((List.perm_ext_iff_of_nodup (sccs.nodup i hi) (List.nodup_singleton u)).mpr fun v => ?_)
  rw [List.mem_singleton]
  exact ⟨only v, fun eq => eq ▸ hu⟩

end Filter

/-- **SCC condensation is exact.**  With the filter on and acyclic dependencies the `Assert` on
    the ranks holds and every SCC is a single task. -/
theorem taskSccs_exact (forwardActivationOnly : Bool) :
    Condenses G.superId (G.Edge forwardActivationOnly) (G.taskSccs forwardActivationOnly) ∧
      (Acyclic (fun u v => u < G.superId ∧ v ∈ G.depSuccs u) →
        G.depOrder.length = G.superId ∧
          ∀ scc ∈ G.taskSccs true, ∃ cppId, scc.cppIds = [cppId]) := by
  refine ⟨G.taskSccs_condenses, fun acyclic => ⟨?_, fun scc => G.taskSccs_singleton acyclic⟩⟩
  rw [(G.depOrder_perm acyclic).length_eq, List.length_range]

/-- Three tasks in a row, with a self-loop, a repeated edge and an activation of the next cycle. -/
def loopback : CppIdGraph where
  superId := 3
  dependency u := if u = 0 then [1, 1, 0] else if u = 1 then [2] else []
  activation u := if u = 2 then [0] else []
  worker0Only _ := false
  estimatedCost _ := 1
  memberCount _ := 1

theorem loopback_acyclic :
    Acyclic fun u v => u < loopback.superId ∧ v ∈ loopback.depSuccs u := by
  have climbs : ∀ u v, v ∈ loopback.depSuccs u → u < v := by
    intro u v edge
    obtain ⟨mem, -, ne⟩ := loopback.mem_addEdges.mp edge
    by_cases h0 : u = 0
    · omega
    · by_cases h1 : u = 1
      · have two : v = 2 := by simpa [loopback, h1] using mem
        omega
      · simp [loopback, h0, h1] at mem
  have path : ∀ u v, TransGen (fun u v => u < loopback.superId ∧ v ∈ loopback.depSuccs u) u v →
      u < v := by
    intro u v path
    induction path with
    | single edge => exact climbs _ _ edge.2
    | tail _ edge ih => exact ih.trans (climbs _ _ edge.2)
  exact fun u cycle => (path u u cycle).false

theorem taskSccs_exact_loopback :
    Condenses 3 (loopback.Edge false) (loopback.taskSccs false) ∧
      loopback.depOrder.length = 3 ∧
        ∀ scc ∈ loopback.taskSccs true, ∃ cppId, scc.cppIds = [cppId] :=
  ⟨(loopback.taskSccs_exact false).1, (loopback.taskSccs_exact true).2 loopback_acyclic⟩

end CppIdGraph

end Gsim
