/-
  Gsim/DenseSccs.lean
  ===================
  **From tasks to SCCs** (the first half of `buildMtDenseSchedule` in
  `cppEmitterDenseSchedule.cpp`).

  The supers of a design, numbered by `cppId`, are the tasks.  Dependency edges
  come first; activation edges are added to them, all or only those that climb in
  a topological order of the dependencies.  Kosaraju's algorithm then groups the
  tasks.  What the later stages rely on is `SccsOf`: the groups are a partition,
  their tasks are sorted, and every edge between groups climbs.
-/
import Gsim.VContractMTasks
import Gsim.Kosaraju

namespace Gsim

open SortedContainers GraphContraction

/-- What `buildMtDenseSchedule` reads of the supers. -/
structure CppIdGraph where
  superId : ℕ
  /-- the `cppId`s of `super->next` and `super->depNext` -/
  dependency : ℕ → List ℕ
  /-- `nextActiveId` and `nextNeedActivate` of the members -/
  activation : ℕ → List ℕ
  /-- `hasWorker0OnlyReasonDense(serialReasons)` -/
  worker0Only : ℕ → Bool
  /-- `mtTaskEstimatedCost` -/
  estimatedCost : ℕ → Int
  /-- `member.size()` -/
  memberCount : ℕ → ℕ

namespace CppIdGraph

variable (G : CppIdGraph) (forwardActivationOnly : Bool)

/-! ## Edges -/

/-- What `mtDenseAddEdge` keeps of a list of targets. -/
def addEdges (fromCppId : ℕ) (targets : List ℕ) : List ℕ :=
  sortUnique (targets.filter fun toCppId => toCppId < G.superId ∧ toCppId ≠ fromCppId)

/-- `succSets` after the dependency edges. -/
def depSuccs (cppId : ℕ) : List ℕ := G.addEdges cppId (G.dependency cppId)

def depInDegree (cppId : ℕ) : ℕ :=
  ((List.range G.superId).filter fun u => cppId ∈ G.depSuccs u).length

/-- The order in which `readyQueue` is worked off. -/
def depOrder : List ℕ :=
  (Kahn.run G.depSuccs Kahn.Queue.fifo G.superId (Kahn.start G.superId G.depInDegree ())).order

def depTopoRank (cppId : ℕ) : ℕ := G.depOrder.idxOf cppId

/-- The activation edges that are added. -/
def activationEdges (cppId : ℕ) : List ℕ :=
  if forwardActivationOnly then
    (G.activation cppId).filter fun toCppId => ¬ G.depTopoRank cppId ≥ G.depTopoRank toCppId
  else G.activation cppId

def succCppIds (cppId : ℕ) : List ℕ :=
  G.addEdges cppId (G.dependency cppId ++ G.activationEdges forwardActivationOnly cppId)

def predCppIds (cppId : ℕ) : List ℕ :=
  (List.range G.superId).filter fun u => cppId ∈ G.succCppIds forwardActivationOnly u

/-! ## SCCs -/

def sccGroups : Kosaraju.Groups :=
  Kosaraju.components (G.predCppIds forwardActivationOnly) G.superId
    (Kosaraju.finishOrder (G.succCppIds forwardActivationOnly) G.superId).reverse

def sccOf (cppId : ℕ) : Option ℕ := (G.sccGroups forwardActivationOnly).ids cppId

/-- Pairs of different SCCs with a task edge from one to the other. -/
def sccEdges : List (ℕ × ℕ) :=
  (List.range G.superId).flatMap fun frm =>
    (G.succCppIds forwardActivationOnly frm).filterMap fun target =>
      match G.sccOf forwardActivationOnly frm, G.sccOf forwardActivationOnly target with
      | some fromScc, some toScc => if fromScc = toScc then none else some (fromScc, toScc)
      | _, _ => none

/-- The SCC that collects the given tasks. -/
def sccOfTasks (sccId : ℕ) (cppIds : List ℕ) : MtDenseScc where
  cppIds := cppIds.insertionSort (· ≤ ·)
  predSccs := predSet (G.sccEdges forwardActivationOnly) sccId
  succSccs := succSet (G.sccEdges forwardActivationOnly) sccId
  staticCost := (cppIds.map G.estimatedCost).sum
  memberNodeCost := (cppIds.map fun u => (G.memberCount u : Int)).sum
  workerZeroOnly := cppIds.any G.worker0Only

/-- `schedule.sccs` before coarsening. -/
def taskSccs : List MtDenseScc :=
  (G.sccGroups forwardActivationOnly).comps.mapIdx (G.sccOfTasks forwardActivationOnly)

def cycleSccCount : ℕ :=
  (G.sccGroups forwardActivationOnly).comps.countP fun cppIds => 1 < cppIds.length

end CppIdGraph

/-- The tasks of a design: dependency edges go forward in `cppId` order. -/
structure DenseTaskGraph extends CppIdGraph where
  forward : ∀ u < superId, ∀ v ∈ dependency u, v < superId → u < v

/-! ## What the later stages rely on -/

def cppIdsOf (sccs : List MtDenseScc) (sccId : ℕ) : List ℕ := (sccs.getD sccId {}).cppIds

def predSccsOf (sccs : List MtDenseScc) (sccId : ℕ) : List ℕ := (sccs.getD sccId {}).predSccs

/-- Mirrored edges between SCCs whose ids are in topological order. -/
structure SccDag (sccs : List MtDenseScc) : Prop where
  climbs : ∀ i, ∀ j ∈ succSccsOf sccs i, i < j ∧ j < sccs.length
  mirrored : ∀ i j, i ∈ predSccsOf sccs j ↔ j ∈ succSccsOf sccs i

/-- It is enough to look at the SCCs that there are. -/
theorem SccDag.ofLists {sccs : List MtDenseScc}
    (climbs : ∀ i < sccs.length, ∀ j ∈ succSccsOf sccs i, i < j ∧ j < sccs.length)
    (preds : ∀ j < sccs.length, ∀ i ∈ predSccsOf sccs j, i < sccs.length ∧ j ∈ succSccsOf sccs i)
    (succs : ∀ i < sccs.length, ∀ j ∈ succSccsOf sccs i, i ∈ predSccsOf sccs j) : SccDag sccs := by
  have succ_lt : ∀ i j, j ∈ succSccsOf sccs i → i < sccs.length := by
    intro i j hj
    by_contra ge
    rw [succSccsOf, List.getD_eq_default _ _ (not_lt.mp ge)] at hj
    cases hj
  have pred_lt : ∀ i j, i ∈ predSccsOf sccs j → j < sccs.length := by
    intro i j hi
    by_contra ge
    rw [predSccsOf, List.getD_eq_default _ _ (not_lt.mp ge)] at hi
    cases hi
  refine ⟨fun i j hj => climbs i (succ_lt i j hj) j hj, fun i j => ⟨fun hi => ?_, fun hj => ?_⟩⟩
  · exact (preds j (pred_lt i j hi) i hi).2
  · exact succs i (succ_lt i j hj) j hj

/-- A partition of the tasks into sorted SCCs with climbing edges between them. -/
structure SccsOf (n : ℕ) (succ : ℕ → List ℕ) (sccs : List MtDenseScc) : Prop where
  partition : (sccs.flatMap (·.cppIds)).Perm (List.range n)
  sorted : ∀ i, (cppIdsOf sccs i).Pairwise (· ≤ ·)
  climbs : ∀ i, ∀ j ∈ succSccsOf sccs i, i < j ∧ j < sccs.length
  mirrored : ∀ i j, i ∈ predSccsOf sccs j ↔ j ∈ succSccsOf sccs i
  succNodup : ∀ i, (succSccsOf sccs i).Nodup
  predNodup : ∀ i, (predSccsOf sccs i).Nodup
  edges : ∀ i j u v, i ≠ j → u ∈ cppIdsOf sccs i → v ∈ cppIdsOf sccs j → v ∈ succ u →
    j ∈ succSccsOf sccs i

theorem SccsOf.dag {n : ℕ} {succ : ℕ → List ℕ} {sccs : List MtDenseScc} (h : SccsOf n succ sccs) :
    SccDag sccs :=
  ⟨h.climbs, h.mirrored⟩

theorem mem_cppIdsOf_lt {sccs : List MtDenseScc} {i u : ℕ} (h : u ∈ cppIdsOf sccs i) :
    i < sccs.length := by
  by_contra ge
  rw [cppIdsOf, List.getD_eq_default _ _ (not_lt.mp ge)] at h
  cases h

/-- The SCCs one by one. -/
theorem flatMap_cppIdsOf (sccs : List MtDenseScc) :
    sccs.flatMap (·.cppIds) = (List.range sccs.length).flatMap (cppIdsOf sccs) := by
  have self : sccs = (List.range sccs.length).map fun i => sccs.getD i {} := by
    apply List.ext_getElem
    · simp
    · intro i h1 h2
      simp [List.getD_eq_getElem?_getD, List.getElem?_eq_getElem h1]
  conv_lhs => rw [self]
  rw [List.flatMap_map]
  rfl

/-- SCCs filled from a map that numbers the tasks and a list of climbing edges. -/
theorem SccsOf.ofEdges {n : ℕ} {succ : ℕ → List ℕ} {sccs : List MtDenseScc}
    (idOf : ℕ → Option ℕ) (edges : List (ℕ × ℕ)) (mem : ∀ i u, u ∈ cppIdsOf sccs i ↔ idOf u = some i)
    (total : ∀ u, u < n ↔ ∃ i, idOf u = some i)
    (nodup : ∀ i < sccs.length, (cppIdsOf sccs i).Nodup)
    (sorted : ∀ i < sccs.length, (cppIdsOf sccs i).Pairwise (· ≤ ·))
    (succs : ∀ i < sccs.length, succSccsOf sccs i = succSet edges i)
    (preds : ∀ i < sccs.length, predSccsOf sccs i = predSet edges i)
    (climbs : ∀ i j, (i, j) ∈ edges → i < j ∧ j < sccs.length)
    (complete : ∀ i j u v, i ≠ j → idOf u = some i → idOf v = some j → v ∈ succ u →
      (i, j) ∈ edges) : SccsOf n succ sccs := by
  have mem_succs : ∀ i j, j ∈ succSccsOf sccs i ↔ (i, j) ∈ edges := by
    intro i j
    by_cases hi : i < sccs.length
    · rw [succs i hi, mem_succSet]
    · rw [succSccsOf, List.getD_eq_default _ _ (not_lt.mp hi)]
      refine ⟨fun h => absurd h List.not_mem_nil, fun h => ?_⟩
      obtain ⟨lt, hj⟩ := climbs i j h
      exact absurd (lt.trans hj) hi
  have mem_preds : ∀ i j, i ∈ predSccsOf sccs j ↔ (i, j) ∈ edges := by
    intro i j
    by_cases hj : j < sccs.length
    · rw [preds j hj, mem_predSet]
    · rw [predSccsOf, List.getD_eq_default _ _ (not_lt.mp hj)]
      exact ⟨fun h => absurd h List.not_mem_nil, fun h => absurd (climbs i j h).2 hj⟩
  refine ⟨?_, ?_, ?_, ?_, ?_, ?_, ?_⟩
  · rw [flatMap_cppIdsOf]
    refine (List.perm_ext_iff_of_nodup ?_ List.nodup_range).mpr fun u => ?_
    · rw [List.nodup_flatMap]
      refine ⟨fun i hi => nodup i (List.mem_range.mp hi), List.nodup_range.imp ?_⟩
      intro i j ne u hu hu'
      exact ne (Option.some.inj (((mem i u).mp hu).symm.trans ((mem j u).mp hu')))
    · rw [List.mem_flatMap, List.mem_range, total]
      constructor
      · rintro ⟨i, -, hu⟩
        exact ⟨i, (mem i u).mp hu⟩
      · rintro ⟨i, hi⟩
        have hu := (mem i u).mpr hi
        exact ⟨i, List.mem_range.mpr (mem_cppIdsOf_lt hu), hu⟩
  · intro i
    by_cases hi : i < sccs.length
    · exact sorted i hi
    · rw [cppIdsOf, List.getD_eq_default _ _ (not_lt.mp hi)]
      exact List.Pairwise.nil
  · exact fun i j h => climbs i j ((mem_succs i j).mp h)
  · exact fun i j => (mem_preds i j).trans (mem_succs i j).symm
  · intro i
    by_cases hi : i < sccs.length
    · rw [succs i hi]
      exact sortUnique_nodup _
    · rw [succSccsOf, List.getD_eq_default _ _ (not_lt.mp hi)]
      exact List.nodup_nil
  · intro i
    by_cases hi : i < sccs.length
    · rw [preds i hi]
      exact sortUnique_nodup _
    · rw [predSccsOf, List.getD_eq_default _ _ (not_lt.mp hi)]
      exact List.nodup_nil
  · intro i j u v ne hu hv edge
    exact (mem_succs i j).mpr (complete i j u v ne ((mem i u).mp hu) ((mem j v).mp hv) edge)

/-- The SCC that a task is in. -/
def sccIdx (sccs : List MtDenseScc) (u : ℕ) : Option ℕ :=
  (List.range sccs.length).find? fun i => u ∈ cppIdsOf sccs i

section Partition

variable {n : ℕ} {succ : ℕ → List ℕ} {sccs : List MtDenseScc} (h : SccsOf n succ sccs)
include h

theorem SccsOf.nodup (i : ℕ) (hi : i < sccs.length) : (cppIdsOf sccs i).Nodup := by
  have nodup := h.partition.nodup_iff.mpr List.nodup_range
  rw [flatMap_cppIdsOf, List.nodup_flatMap] at nodup
  exact nodup.1 i (List.mem_range.mpr hi)

/-- A task is in one SCC only. -/
theorem SccsOf.eq_of_mem {i j u : ℕ} (hi : u ∈ cppIdsOf sccs i) (hj : u ∈ cppIdsOf sccs j) :
    i = j := by
  have nodup := h.partition.nodup_iff.mpr List.nodup_range
  rw [flatMap_cppIdsOf, List.nodup_flatMap] at nodup
  by_contra ne
  have symm : Std.Symm (Function.onFun List.Disjoint (cppIdsOf sccs)) :=
    ⟨fun _ _ disjoint _ hx hy => disjoint hy hx⟩
  exact nodup.2.forall (List.mem_range.mpr (mem_cppIdsOf_lt hi))
    (List.mem_range.mpr (mem_cppIdsOf_lt hj)) ne hi hj

theorem SccsOf.mem_iff {u : ℕ} : u < n ↔ ∃ i, u ∈ cppIdsOf sccs i := by
  rw [← List.mem_range, ← h.partition.mem_iff, flatMap_cppIdsOf, List.mem_flatMap]
  constructor
  · rintro ⟨i, -, hu⟩
    exact ⟨i, hu⟩
  · rintro ⟨i, hu⟩
    exact ⟨i, List.mem_range.mpr (mem_cppIdsOf_lt hu), hu⟩

theorem SccsOf.sccIdx_eq_some {i u : ℕ} : sccIdx sccs u = some i ↔ u ∈ cppIdsOf sccs i := by
  constructor
  · intro eq
    simpa using List.find?_some eq
  · intro hu
    cases found : sccIdx sccs u with
    | none =>
      rw [sccIdx, List.find?_eq_none] at found
      exact absurd (by simpa using hu) (found i (List.mem_range.mpr (mem_cppIdsOf_lt hu)))
    | some j =>
      have hj : u ∈ cppIdsOf sccs j := by simpa using List.find?_some found
      rw [h.eq_of_mem hu hj]

end Partition

/-! ## The dependency order -/

namespace CppIdGraph

variable (G : CppIdGraph) {forwardActivationOnly : Bool}

theorem mem_addEdges {u v : ℕ} {targets : List ℕ} :
    v ∈ G.addEdges u targets ↔ v ∈ targets ∧ v < G.superId ∧ v ≠ u := by
  simp [addEdges]

theorem succCppIds_lt {u v : ℕ} (h : v ∈ G.succCppIds forwardActivationOnly u) : v < G.superId :=
  (G.mem_addEdges.mp h).2.1

theorem mem_predCppIds {u v : ℕ} :
    u ∈ G.predCppIds forwardActivationOnly v ↔
      u < G.superId ∧ v ∈ G.succCppIds forwardActivationOnly u := by
  simp [predCppIds]

theorem depSuccs_isGraph : Kahn.IsGraph G.superId G.depSuccs := by
  refine ⟨?_, ?_⟩
  · intro u _ v hv
    exact (G.mem_addEdges.mp hv).2.1
  · intro u _
    exact sortUnique_nodup _

theorem depInDegree_counted (v : ℕ) (_ : v < G.superId) :
    G.depInDegree v = Kahn.missing G.superId G.depSuccs [] v := by
  refine Kahn.length_eq_missing (List.nodup_range.filter _) fun u => ?_
  simp

/-- The `Assert` on the rank counter: the queue reaches every task. -/
theorem depOrder_perm (acyclic : Acyclic fun u v => u < G.superId ∧ v ∈ G.depSuccs u) :
    G.depOrder.Perm (List.range G.superId) :=
  Kahn.run_perm G.depSuccs_isGraph G.depInDegree_counted () acyclic

/-! ## The SCCs of a task graph -/

theorem mem_sccEdges {i j : ℕ} :
    (i, j) ∈ G.sccEdges forwardActivationOnly ↔
      ∃ u v, u < G.superId ∧ v ∈ G.succCppIds forwardActivationOnly u ∧
        G.sccOf forwardActivationOnly u = some i ∧ G.sccOf forwardActivationOnly v = some j ∧
        i ≠ j := by
  unfold sccEdges
  simp only [List.mem_flatMap, List.mem_range, List.mem_filterMap]
  constructor
  · rintro ⟨u, hu, v, hv, made⟩
    split at made
    · rename_i a b ha hb
      split at made
      · cases made
      · rename_i ne
        cases made
        exact ⟨u, v, hu, hv, ha, hb, ne⟩
    · cases made
  · rintro ⟨u, v, hu, hv, hi, hj, ne⟩
    refine ⟨u, hu, v, hv, ?_⟩
    rw [hi, hj]
    simp [ne]

theorem predCppIds_bounded (u : ℕ) (_ : u < G.superId) :
    ∀ p ∈ G.predCppIds forwardActivationOnly u, p < G.superId :=
  fun _ hp => (G.mem_predCppIds.mp hp).1

theorem finishOrder_complete :
    (Kosaraju.finishOrder (G.succCppIds forwardActivationOnly) G.superId).reverse.Perm
      (List.range G.superId) :=
  (List.reverse_perm _).trans (Kosaraju.finishOrder_perm fun _ _ _ hv => G.succCppIds_lt hv)

theorem sccGroups_inv :
    (G.sccGroups forwardActivationOnly).Inv G.superId (G.predCppIds forwardActivationOnly) ∧
      ∀ u < G.superId, ∃ i, G.sccOf forwardActivationOnly u = some i :=
  Kosaraju.components_inv G.predCppIds_bounded G.finishOrder_complete

/-- SCC ids climb along the edges between SCCs. -/
theorem sccEdges_climb {i j : ℕ} (h : (i, j) ∈ G.sccEdges forwardActivationOnly) : i < j := by
  obtain ⟨u, v, hu, hv, hi, hj, ne⟩ := G.mem_sccEdges.mp h
  obtain ⟨i', le, hi'⟩ := Kosaraju.components_forward G.predCppIds_bounded G.finishOrder_complete hj
    (G.mem_predCppIds.mpr ⟨hu, hv⟩)
  cases hi.symm.trans hi'
  exact lt_of_le_of_ne le ne

/-- The groups, each sorted, are the SCCs. -/
theorem taskSccs_partition :
    ((G.taskSccs forwardActivationOnly).flatMap (·.cppIds)).Perm (List.range G.superId) := by
  have cppIds : (G.taskSccs forwardActivationOnly).map (·.cppIds) =
      (G.sccGroups forwardActivationOnly).comps.map (·.insertionSort (· ≤ ·)) := by
    apply List.ext_getElem
    · simp [taskSccs]
    · intro i h1 h2
      simp [taskSccs, sccOfTasks]
  rw [List.flatMap_def, cppIds, ← List.flatMap_def]
  refine (List.Perm.flatMap_left _ fun c _ => List.perm_insertionSort _ c).trans ?_
  rw [List.flatMap_id']
  exact Kosaraju.components_partition G.predCppIds_bounded G.finishOrder_complete

theorem taskSccs_length : (G.taskSccs forwardActivationOnly).length =
    (G.sccGroups forwardActivationOnly).comps.length := by
  simp [taskSccs]

theorem taskSccs_getD {i : ℕ} (hi : i < (G.taskSccs forwardActivationOnly).length) :
    (G.taskSccs forwardActivationOnly).getD i {} = G.sccOfTasks forwardActivationOnly i
      ((G.sccGroups forwardActivationOnly).comps.getD i []) := by
  have hi' := hi
  rw [taskSccs_length] at hi'
  rw [List.getD_eq_getElem _ _ hi, List.getD_eq_getElem _ _ hi']
  simp [taskSccs]

theorem mem_cppIdsOf_taskSccs {i u : ℕ} :
    u ∈ cppIdsOf (G.taskSccs forwardActivationOnly) i ↔
      G.sccOf forwardActivationOnly u = some i := by
  rw [sccOf, G.sccGroups_inv.1.mem]
  by_cases hi : i < (G.taskSccs forwardActivationOnly).length
  · rw [cppIdsOf, G.taskSccs_getD hi]
    exact (List.perm_insertionSort _ _).mem_iff
  · have hi' := hi
    rw [taskSccs_length] at hi'
    rw [cppIdsOf, List.getD_eq_default _ _ (not_lt.mp hi), List.getD_eq_default _ _ (not_lt.mp hi')]

theorem taskSccs_sccsOf :
    SccsOf G.superId (G.succCppIds forwardActivationOnly) (G.taskSccs forwardActivationOnly) := by
  obtain ⟨inv, total⟩ := @sccGroups_inv G forwardActivationOnly
  refine SccsOf.ofEdges (G.sccOf forwardActivationOnly) (G.sccEdges forwardActivationOnly)
    (fun i u => G.mem_cppIdsOf_taskSccs) ?_ ?_ ?_ ?_ ?_ ?_ ?_
  · intro u
    refine ⟨total u, ?_⟩
    rintro ⟨i, hi⟩
    exact inv.bounded u i hi
  · intro i hi
    rw [cppIdsOf, G.taskSccs_getD hi]
    refine (List.perm_insertionSort _ _).nodup_iff.mpr (inv.nodup _ ?_)
    rw [taskSccs_length] at hi
    rw [List.getD_eq_getElem _ _ hi]
    exact List.getElem_mem hi
  · intro i hi
    rw [cppIdsOf, G.taskSccs_getD hi]
    exact List.pairwise_insertionSort _ _
  · intro i hi
    rw [succSccsOf, G.taskSccs_getD hi]
    rfl
  · intro i hi
    rw [predSccsOf, G.taskSccs_getD hi]
    rfl
  · intro i j h
    refine ⟨G.sccEdges_climb h, ?_⟩
    obtain ⟨u, v, -, -, -, hj, -⟩ := G.mem_sccEdges.mp h
    rw [taskSccs_length]
    exact inv.lt hj
  · intro i j u v ne hi hj edge
    exact G.mem_sccEdges.mpr ⟨u, v, inv.bounded u i hi, edge, hi, hj, ne⟩

end CppIdGraph

namespace DenseTaskGraph

variable (G : DenseTaskGraph) {forwardActivationOnly : Bool}

/-- Dependencies are never dropped. -/
theorem mem_succCppIds_of_dependency {u v : ℕ} (hu : u < G.superId) (hv : v < G.superId)
    (h : v ∈ G.dependency u) : v ∈ G.succCppIds forwardActivationOnly u :=
  G.mem_addEdges.mpr ⟨List.mem_append_left _ h, hv, (G.forward u hu v h hv).ne'⟩

theorem depSuccs_acyclic : Acyclic fun u v => u < G.superId ∧ v ∈ G.depSuccs u := by
  have climbs : ∀ u v, Relation.TransGen (fun u v => u < G.superId ∧ v ∈ G.depSuccs u) u v →
      u < v := by
    intro u v path
    induction path with
    | single edge =>
      obtain ⟨mem, lt, -⟩ := G.mem_addEdges.mp edge.2
      exact G.forward u edge.1 _ mem lt
    | tail _ edge ih =>
      obtain ⟨mem, lt, -⟩ := G.mem_addEdges.mp edge.2
      exact ih.trans (G.forward _ edge.1 _ mem lt)
  exact fun u cycle => (climbs u u cycle).false

end DenseTaskGraph

end Gsim
