/-
  Gsim/DenseRun.lean
  ==================
  **The dense executor evaluates the design** (`buildMtDenseSchedule`,
  `genDenseExecutor`: from the dependencies of the supers to the memory after a cycle).

  `DenseMemory` compares the pool with the serial path, MTask by MTask.  Here the
  MTasks are those of the schedule: their bodies are the evaluations of their supers,
  and dependencies between supers become dependencies between MTasks, whichever way
  the MTasks are formed and numbered.  The serial path in turn agrees with evaluating
  the supers in `cppId` order, as the single-threaded simulator does.
-/
import Gsim.DenseMemory
import Gsim.ListScheduling
import Gsim.StrictExecutor
import Gsim.LookaheadExecutor

namespace Gsim

open Relation CommutingTraces

variable {Loc V : Type} [DecidableEq Loc]

/-! ### Supers and their dependencies -/

/-- The code that the supers are compiled to. -/
structure SuperCode (Loc V : Type) where
  /-- `resetAllDense` and the copies of the reset signals -/
  prologue : (Loc → V) → Loc → V
  /-- the accesses of `genSuperEval`, by `cppId` -/
  superEval : ℕ → List (Access Loc V)

/-- All supers in `cppId` order. -/
def SuperCode.fullCycle (supers : SuperCode Loc V) (superId : ℕ) (m : Loc → V) : Loc → V :=
  exec Access.run ((List.range superId).flatMap supers.superEval) (supers.prologue m)

/-- The code of the MTasks of a schedule. -/
def MtDenseSchedule.code (sched : MtDenseSchedule) (supers : SuperCode Loc V) : DenseCode Loc V where
  prologue := supers.prologue
  body m := (stepDenseMTask sched.sccs (sched.mtasks.getD m {})).flatMap supers.superEval

namespace DenseTaskGraph

variable (G : DenseTaskGraph)

/-- A dependency between supers. -/
def DependsOn (u v : ℕ) : Prop := u < G.superId ∧ v < G.superId ∧ v ∈ G.dependency u

/-- Accesses of different supers that are not apart are ordered by dependencies. -/
def RaceFree (supers : SuperCode Loc V) : Prop :=
  ∀ u < G.superId, ∀ v < G.superId, u ≠ v → ∀ a ∈ supers.superEval u, ∀ b ∈ supers.superEval v,
    a.Apart b ∨ TransGen G.DependsOn u v ∨ TransGen G.DependsOn v u

variable {G}

theorem lt_of_path {u v : ℕ} (h : TransGen G.DependsOn u v) : u < v := by
  induction h with
  | single edge => exact G.forward u edge.1 _ edge.2.2 edge.2.1
  | tail _ edge ih => exact ih.trans (G.forward _ edge.1 _ edge.2.2 edge.2.1)

/-- An order of the supers that respects single dependencies respects paths of them. -/
theorem linearises_of_pairwise {order : List ℕ} (perm : order.Perm (List.range G.superId))
    (sorted : order.Pairwise fun u v => u ∉ G.dependency v) :
    Linearises (TransGen G.DependsOn) order := by
  have mem : ∀ {u}, u < G.superId → u ∈ order := fun hu => perm.mem_iff.mpr (List.mem_range.mpr hu)
  have edge : ∀ u v, G.DependsOn u v → order.idxOf u < order.idxOf v := by
    rintro u v ⟨hu, hv, dep⟩
    exact idxOf_lt_of_pairwise (R := fun a b => b ∈ G.dependency a) sorted (mem hu) (mem hv)
      (G.forward u hu v dep hv).ne dep
  have path : ∀ u v, TransGen G.DependsOn u v → order.idxOf u < order.idxOf v := by
    intro u v h
    induction h with
    | single h => exact edge u _ h
    | tail _ h ih => exact ih.trans (edge _ _ h)
  have nodup : order.Nodup := perm.nodup_iff.mpr List.nodup_range
  refine List.pairwise_iff_getElem.mpr fun i j hi hj lt before => ?_
  have back := path _ _ before
  rw [nodup.idxOf_getElem, nodup.idxOf_getElem] at back
  exact lt.not_gt back

/-- Such an order evaluates the supers as `cppId` order does. -/
theorem exec_order {supers : SuperCode Loc V} (race : G.RaceFree supers) {order : List ℕ}
    (perm : order.Perm (List.range G.superId))
    (sorted : order.Pairwise fun u v => u ∉ G.dependency v) (m : Loc → V) :
    exec Access.run (order.flatMap supers.superEval) m =
      exec Access.run ((List.range G.superId).flatMap supers.superEval) m := by
  rw [exec_flatMap, exec_flatMap]
  refine exec_eq_of_linearises perm (linearises_of_pairwise perm sorted) ?_ ?_ m
  · refine List.pairwise_lt_range.imp fun lt path => ?_
    exact lt.not_gt (lt_of_path path)
  · intro u hu v hv unordered unordered'
    have hu := List.mem_range.mp (perm.mem_iff.mp hu)
    have hv := List.mem_range.mp (perm.mem_iff.mp hv)
    by_cases same : u = v
    · rw [same]
    · refine exec_commute fun a ha b hb => ?_
      rcases race u hu v hv same a ha b hb with apart | before | after
      · exact apart
      · exact absurd before unordered
      · exact absurd after unordered'

end DenseTaskGraph

/-! ### From supers to MTasks -/

namespace Grouped

variable {S : SccSchedule} {groupOf : ℕ → Option ℕ} {mtasks : List MtDenseMTask}
  (g : Grouped S groupOf mtasks)
include g

/-- The MTasks as the list scheduler takes them. -/
theorem exists_dag : ∃ dag : MTaskDag, dag.mtasks = mtasks := by
  refine ⟨⟨g.mtasksOf.graph, fun m => ?_, fun m => ?_⟩, rfl⟩
  · show (predsOf mtasks m).Nodup
    by_cases hm : m < mtasks.length
    · rw [g.preds m hm]
      exact SortedContainers.sortUnique_nodup _
    · rw [predsOf, List.getD_eq_default _ _ (not_lt.mp hm)]
      exact List.nodup_nil
  · show (succsOf mtasks m).Nodup
    by_cases hm : m < mtasks.length
    · rw [g.succs m hm]
      exact SortedContainers.sortUnique_nodup _
    · rw [succsOf, List.getD_eq_default _ _ (not_lt.mp hm)]
      exact List.nodup_nil

theorem mem_stepDenseMTask {m u : ℕ} : u ∈ stepDenseMTask S.sccs (mtasks.getD m {}) ↔
    ∃ i, i < S.realN ∧ m < mtasks.length ∧ groupOf i = some m ∧ u ∈ cppIdsOf S.sccs i := by
  constructor
  · intro hu
    obtain ⟨i, hi, hu⟩ := List.mem_flatMap.mp hu
    obtain ⟨lt, hm, eq⟩ := g.mem_sccIdsOf.mp hi
    exact ⟨i, lt, hm, eq, hu⟩
  · rintro ⟨i, lt, hm, eq, hu⟩
    exact List.mem_flatMap.mpr ⟨i, g.mem_sccIdsOf.mpr ⟨lt, hm, eq⟩, hu⟩

variable {n : ℕ} {succ : ℕ → List ℕ} (h : SccsOf n succ S.sccs)
include h

/-- Every task is in one MTask. -/
theorem exists_mtask {u : ℕ} (hu : u < n) :
    ∃ m < mtasks.length, u ∈ stepDenseMTask S.sccs (mtasks.getD m {}) := by
  obtain ⟨i, hi⟩ := h.mem_iff.mp hu
  obtain ⟨m, hm, eq⟩ := g.total i (mem_cppIdsOf_lt hi)
  exact ⟨m, hm, g.mem_stepDenseMTask.mpr ⟨i, mem_cppIdsOf_lt hi, hm, eq, hi⟩⟩

theorem mtask_unique {m m' u : ℕ} (hu : u ∈ stepDenseMTask S.sccs (mtasks.getD m {}))
    (hu' : u ∈ stepDenseMTask S.sccs (mtasks.getD m' {})) : m = m' := by
  obtain ⟨i, -, -, eq, hi⟩ := g.mem_stepDenseMTask.mp hu
  obtain ⟨j, -, -, eq', hj⟩ := g.mem_stepDenseMTask.mp hu'
  rw [h.eq_of_mem hi hj] at eq
  exact Option.some.inj (eq.symm.trans eq')

/-- An edge between tasks is inside one MTask or an edge between MTasks. -/
theorem mtask_edge {m m' u v : ℕ} (hu : u ∈ stepDenseMTask S.sccs (mtasks.getD m {}))
    (hv : v ∈ stepDenseMTask S.sccs (mtasks.getD m' {})) (edge : v ∈ succ u) :
    m = m' ∨ m' ∈ succsOf mtasks m := by
  by_cases same : m = m'
  · exact Or.inl same
  obtain ⟨i, iN, hm, eq, hi⟩ := g.mem_stepDenseMTask.mp hu
  obtain ⟨j, jN, hm', eq', hj⟩ := g.mem_stepDenseMTask.mp hv
  have apart : i ≠ j := by
    rintro rfl
    exact same (Option.some.inj (eq.symm.trans eq'))
  refine Or.inr ((g.mtasksOf.edges m m').mpr ⟨same, i, g.mem_sccIdsOf.mpr ⟨iN, hm, eq⟩, j,
    g.mem_sccIdsOf.mpr ⟨jN, hm', eq'⟩, h.edges i j u v apart hi hj edge⟩)

end Grouped

/-- A list of MTasks that differs from another one in the ids only. -/
theorem Isomorphism.stepDenseMTask {mtasks mtasks' : List MtDenseMTask} {newId : ℕ → ℕ}
    (iso : Isomorphism mtasks mtasks' newId) (sccs : List MtDenseScc) {m : ℕ}
    (hm : m < mtasks.length) :
    Gsim.stepDenseMTask sccs (mtasks'.getD (newId m) {}) =
      Gsim.stepDenseMTask sccs (mtasks.getD m {}) := by
  have same : (mtasks'.getD (newId m) {}).sccIds = (mtasks.getD m {}).sccIds := by
    have eq := congrArg MtDenseMTask.sccIds (iso.mtask m hm)
    exact eq
  rw [Gsim.stepDenseMTask, Gsim.stepDenseMTask, same]

theorem Isomorphism.refl (mtasks : List MtDenseMTask) : Isomorphism mtasks mtasks id :=
  ⟨rfl, Set.bijOn_id _, fun _ _ => rfl, fun _ _ => by simp, fun _ _ => by simp⟩

/-- Renumbered or not: the MTasks are a forward graph again. -/
theorem MTaskDag.orderMTasks_dag (dag : MTaskDag) (k : DenseKnobs) :
    ∃ dag' : MTaskDag, ∃ newId, dag'.mtasks = (orderMTasks k dag.mtasks).1 ∧
      Isomorphism dag.mtasks (orderMTasks k dag.mtasks).1 newId := by
  have kept : ∃ dag' : MTaskDag, ∃ newId, dag'.mtasks = dag.mtasks ∧
      Isomorphism dag.mtasks dag.mtasks newId := ⟨dag, id, rfl, .refl _⟩
  unfold orderMTasks
  simp only
  split
  · split
    · have o := dag.scheduleOrder_orderOf (max 1 k.threadCount) k.ccdExtra
      obtain ⟨dag', eq⟩ := o.isomorphism.toDag fun a b => dag.scheduleOrder_climbs _ _
      exact ⟨dag', _, eq, o.isomorphism⟩
    · exact kept
  · exact kept

/-- The MTasks of a schedule hold the supers of a design, once each, and the dependencies
between them. -/
structure HoldsSupers (G : DenseTaskGraph) (sched : MtDenseSchedule) (dag : MTaskDag) : Prop where
  mtasks_eq : dag.mtasks = sched.mtasks
  home : ∀ u < G.superId, ∃ m, u ∈ stepDenseMTask sched.sccs (sched.mtasks.getD m {})
  bounded : ∀ m, ∀ u ∈ stepDenseMTask sched.sccs (sched.mtasks.getD m {}), u < G.superId
  edge : ∀ u v m m', G.DependsOn u v → u ∈ stepDenseMTask sched.sccs (sched.mtasks.getD m {}) →
    v ∈ stepDenseMTask sched.sccs (sched.mtasks.getD m' {}) → m = m' ∨ dag.Dep m m'
  unique : ∀ u m m', u ∈ stepDenseMTask sched.sccs (sched.mtasks.getD m {}) →
    u ∈ stepDenseMTask sched.sccs (sched.mtasks.getD m' {}) → m = m'
  perm : sched.evalOrder.Perm (List.range G.superId)
  sorted : sched.evalOrder.Pairwise fun u v => u ∉ G.dependency v

theorem stepDenseMTask_lt {sccs : List MtDenseScc} {mtasks : List MtDenseMTask} {m u : ℕ}
    (h : u ∈ stepDenseMTask sccs (mtasks.getD m {})) : m < mtasks.length := by
  by_contra ge
  rw [List.getD_eq_default _ _ (not_lt.mp ge)] at h
  cases h

/-- The schedule is built, and holds the supers. -/
theorem DenseTaskGraph.exists_schedule (G : DenseTaskGraph) (k : DenseKnobs) :
    ∃ sched dag, buildMtDenseSchedule G k = some sched ∧ HoldsSupers G sched dag := by
  have h := G.denseSccs_sccsOf k.forwardActivationOnly
  have layered := G.sccSchedule_layered k.forwardActivationOnly
  obtain ⟨mtasks, groupOf, built, g⟩ := buildMTasks_grouped layered (max 1 k.threadCount) k.builder
  obtain ⟨order, o, eval, -, climbs⟩ := orderMTasks_order g k
  obtain ⟨dag₀, rfl⟩ := g.exists_dag
  obtain ⟨dag, newId, eq, iso⟩ := dag₀.orderMTasks_dag k
  have ranked : ¬ (k.forwardActivationOnly ∧ G.depOrder.length ≠ G.superId) := by
    rintro ⟨-, ne⟩
    exact ne (by rw [(G.depOrder_perm G.depSuccs_acyclic).length_eq, List.length_range])
  refine ⟨⟨(G.sccSchedule k.forwardActivationOnly).sccs,
    (G.sccSchedule k.forwardActivationOnly).topoSccOrder, (orderMTasks k dag₀.mtasks).1,
    (orderMTasks k dag₀.mtasks).2, fallbackReason G k⟩, dag, ?_, ?_⟩
  · unfold buildMtDenseSchedule
    simp only [built, if_neg ranked]
    exact if_pos fun m _ s hs => climbs m s hs
  -- an MTask of the schedule is the new id of one that was built
  have old : ∀ {m u}, u ∈ stepDenseMTask (G.sccSchedule k.forwardActivationOnly).sccs
      ((orderMTasks k dag₀.mtasks).1.getD m {}) → ∃ m₀ < dag₀.mtasks.length, newId m₀ = m ∧
        u ∈ stepDenseMTask (G.sccSchedule k.forwardActivationOnly).sccs (dag₀.mtasks.getD m₀ {}) := by
    intro m u hu
    obtain ⟨m₀, hm₀, rfl⟩ := iso.exists_old (stepDenseMTask_lt hu)
    rw [iso.stepDenseMTask _ hm₀] at hu
    exact ⟨m₀, hm₀, rfl, hu⟩
  refine ⟨eq, fun u hu => ?_, fun m u hu => ?_, ?_, ?_, ?_, ?_⟩
  · obtain ⟨m, hm, mem⟩ := g.exists_mtask h hu
    exact ⟨newId m, by rwa [iso.stepDenseMTask _ hm]⟩
  · obtain ⟨m₀, -, -, hu⟩ := old hu
    obtain ⟨i, -, -, -, hi⟩ := g.mem_stepDenseMTask.mp hu
    exact h.mem_iff.mpr ⟨i, hi⟩
  · rintro u v m m' ⟨hu, hv, dep⟩ hm hm'
    obtain ⟨a, ha, rfl, mem⟩ := old hm
    obtain ⟨b, hb, rfl, mem'⟩ := old hm'
    rcases g.mtask_edge h mem mem' (G.mem_succCppIds_of_dependency hu hv dep) with same | edge
    · exact Or.inl (congrArg newId same)
    · refine Or.inr (dag.dep_iff_succ.mpr ?_)
      rw [eq]
      exact (iso.mem_succs_iff ha hb).mpr edge
  · intro u m m' hm hm'
    obtain ⟨a, -, rfl, mem⟩ := old hm
    obtain ⟨b, -, rfl, mem'⟩ := old hm'
    exact congrArg newId (g.mtask_unique h mem mem')
  · show ((orderMTasks k dag₀.mtasks).1.flatMap _).Perm _
    rw [eval]
    exact g.tasksOf_perm h o.perm
  · show ((orderMTasks k dag₀.mtasks).1.flatMap _).Pairwise _
    rw [eval]
    exact g.tasksOf_pairwise h layered G.dependency
      (fun u v hu hv edge => ⟨G.forward u hu v edge hv, G.mem_succCppIds_of_dependency hu hv edge⟩)
      o.nodup o.sorted

/-- The schedule carries a worker for each of its MTasks. -/
theorem DenseTaskGraph.exists_assignment (G : DenseTaskGraph) (k : DenseKnobs)
    {sched : MtDenseSchedule} (built : buildMtDenseSchedule G k = some sched) :
    ∃ A : Assignment sched.mtasks.length (max 1 k.threadCount),
      A.owners = sched.mtaskThreadAssign := by
  have layered := G.sccSchedule_layered k.forwardActivationOnly
  obtain ⟨mtasks, groupOf, builtMTasks, g⟩ :=
    buildMTasks_grouped layered (max 1 k.threadCount) k.builder
  obtain ⟨dag, rfl⟩ := g.exists_dag
  unfold buildMtDenseSchedule at built
  simp only [builtMTasks] at built
  obtain ⟨-, fails⟩ | ⟨-, built⟩ := ite_eq_iff.mp built
  · cases fails
  obtain ⟨-, built⟩ | ⟨-, fails⟩ := ite_eq_iff.mp built
  · cases built
    exact ⟨dag.assignment k, rfl⟩
  · cases fails

namespace HoldsSupers

variable {G : DenseTaskGraph} {sched : MtDenseSchedule} {dag : MTaskDag}
  (h : HoldsSupers G sched dag) {supers : SuperCode Loc V}
include h

/-- A path between supers passes through MTasks along their edges. -/
theorem path {u v m m' : ℕ} (dep : TransGen G.DependsOn u v)
    (hu : u ∈ stepDenseMTask sched.sccs (sched.mtasks.getD m {}))
    (hv : v ∈ stepDenseMTask sched.sccs (sched.mtasks.getD m' {})) :
    ReflTransGen dag.Dep m m' := by
  induction dep generalizing m' with
  | single edge =>
    rcases h.edge u _ m m' edge hu hv with rfl | dep
    · exact ReflTransGen.refl
    · exact ReflTransGen.single dep
  | tail _ edge ih =>
    obtain ⟨m₁, hw⟩ := h.home _ edge.1
    rcases h.edge _ _ m₁ m' edge hw hv with rfl | dep
    · exact ih hw
    · exact (ih hw).tail dep

omit [DecidableEq Loc] in
theorem raceFree (race : G.RaceFree supers) (nMTasks : ℕ) :
    RaceFree (sched.code supers) dag.Dep nMTasks := by
  intro m _ m' _ ne a ha b hb
  obtain ⟨u, hu, ha⟩ := List.mem_flatMap.mp ha
  obtain ⟨v, hv, hb⟩ := List.mem_flatMap.mp hb
  have other : u ≠ v := by
    rintro rfl
    exact ne (h.unique u m m' hu hv)
  rcases race u (h.bounded m u hu) v (h.bounded m' v hv) other a ha b hb with
    apart | before | after
  · exact Or.inl apart
  · rcases reflTransGen_iff_eq_or_transGen.mp (h.path before hu hv) with same | dep
    · exact absurd same.symm ne
    · exact Or.inr (Or.inl dep)
  · rcases reflTransGen_iff_eq_or_transGen.mp (h.path after hv hu) with same | dep
    · exact absurd same ne
    · exact Or.inr (Or.inr dep)

/-- The serial path of the executor evaluates the supers as `cppId` order does. -/
theorem serialCycle_eq (race : G.RaceFree supers) :
    serialCycle (sched.code supers) dag.size = supers.fullCycle G.superId := by
  funext m
  have order : (List.range dag.size).flatMap (sched.code supers).body =
      sched.evalOrder.flatMap supers.superEval := by
    have self : sched.mtasks.flatMap (stepDenseMTask sched.sccs) =
        tasksOf sched.sccs sched.mtasks (List.range sched.mtasks.length) :=
      flatMap_stepDenseMTask sched.sccs
    rw [MtDenseSchedule.evalOrder, self, tasksOf, List.flatMap_assoc, MTaskGraph.size, h.mtasks_eq]
    rfl
  rw [serialCycle, order, DenseTaskGraph.exec_order race h.perm h.sorted]
  rfl

end HoldsSupers

/-- **The dense executor evaluates the design.**  For every graph of supers, all settings and
every assignment of the MTasks to workers, under either protocol: the schedule and the dispatch
are built, and in every interleaving of the accesses the memory after each cycle is the one
after evaluating all supers in `cppId` order, cycle by cycle; no pool cycle gets stuck or goes
on for ever. -/
theorem denseExecutor_evaluates_design (G : DenseTaskGraph) (k : DenseKnobs)
    (supers : SuperCode Loc V) (race : G.RaceFree supers) :
    ∃ sched, buildMtDenseSchedule G k = some sched ∧
      ∀ threadCount, ∀ A : Assignment sched.mtasks.length threadCount,
        (∃ layout, mtBuildDenseOwnerReadyLayout (strictRuntimeSuccs sched.mtasks A.owners) A.owners
            threadCount = some layout ∧
          RunsSerially strictProgram (strictDispatch layout A.owners threadCount)
            (sched.code supers) (supers.fullCycle G.superId)) ∧
        ∀ window, ∃ D, lookaheadDispatch sched.mtasks A.owners threadCount = some D ∧
          RunsSerially (lookaheadProgram window) D (sched.code supers)
            (supers.fullCycle G.superId) := by
  obtain ⟨⟨sccs, topo, mtasks, assign, reason⟩, dag, built, holds⟩ := G.exists_schedule k
  obtain rfl : dag.mtasks = mtasks := holds.mtasks_eq
  refine ⟨_, built, fun threadCount (A : Assignment dag.size threadCount) => ⟨?_, fun window => ?_⟩⟩
  · obtain ⟨layout, slot, layoutBuilt, facts⟩ :=
      mtBuildDenseOwnerReadyLayout_eq_some (strictRuntimeSuccs_ok dag.toMTaskGraph A)
    have hok : DispatchOk (strictDispatch layout A.owners threadCount) :=
      dispatchOk_ofLayout (strictRuntimeSuccs_ok dag.toMTaskGraph A) facts _
    have size : (strictDispatch layout A.owners threadCount).nMTasks = dag.size := A.length_eq
    refine ⟨layout, layoutBuilt, ?_⟩
    rw [← holds.serialCycle_eq race, ← size]
    exact runsSerially hok (fun _ target => strictContract _ target)
      (fun _ _ dep => dag.dep_lt dep)
      (fun _ _ dep => strict_covers_dep dag.toMTaskGraph A facts hok dep) (holds.raceFree race _)
  · obtain ⟨D, dispatch, size, -, locals, hok, covers⟩ := lookaheadDispatch_spec dag.toMTaskGraph A
    refine ⟨D, dispatch, ?_⟩
    rw [← holds.serialCycle_eq race, ← size]
    exact runsSerially hok (lookaheadContracts window locals) (fun _ _ dep => dag.dep_lt dep)
      covers (holds.raceFree race _)

/-- An assignment that reads one location. -/
def fanOutAccess {n : ℕ} (target source : Fin n) (f : ℕ → ℕ) : Access (Fin n) ℕ where
  target := target
  reads := {source}
  value m := f (m source)
  footprint m m' same := by rw [same source rfl]

/-- One super that feeds two others. -/
def fanOutGraph : CppIdGraph where
  superId := 3
  dependency u := if u = 0 then [1, 2] else []
  activation u := if u = 0 then [1, 2] else []
  worker0Only _ := false
  estimatedCost _ := 1
  memberCount _ := 1

theorem fanOutGraph_forward : ∀ u < fanOutGraph.superId, ∀ v ∈ fanOutGraph.dependency u,
    v < fanOutGraph.superId → u < v := by
  decide

def fanOut : DenseTaskGraph := ⟨fanOutGraph, fanOutGraph_forward⟩

/-- Location 0 is the input, super `u` computes location `u + 1`. -/
def fanOutCode : SuperCode (Fin 4) ℕ where
  prologue := id
  superEval u :=
    match u with
    | 0 => [fanOutAccess 1 0 (· + 1)]
    | 1 => [fanOutAccess 2 1 (· * 2)]
    | 2 => [fanOutAccess 3 1 (· + 3)]
    | _ => []

theorem fanOut_raceFree : fanOut.RaceFree fanOutCode := by
  have first : ∀ v, v < 3 → v ≠ 0 → TransGen fanOut.DependsOn 0 v := by
    intro v hv ne
    refine TransGen.single ⟨by decide, hv, ?_⟩
    interval_cases v <;> simp_all [fanOut, fanOutGraph]
  intro u hu v hv ne a ha b hb
  by_cases hu0 : u = 0
  · rw [hu0]
    exact Or.inr (Or.inl (first v hv fun eq => ne (hu0.trans eq.symm)))
  by_cases hv0 : v = 0
  · rw [hv0]
    exact Or.inr (Or.inr (first u hu hu0))
  refine Or.inl ?_
  change u < 3 at hu
  change v < 3 at hv
  interval_cases u <;> interval_cases v <;>
    simp_all [fanOutCode, fanOutAccess, Access.Apart]

/-- The design on two threads, with the workers that the list scheduler chose. -/
theorem denseExecutor_evaluates_fanOut :
    ∃ sched, buildMtDenseSchedule fanOut pinnedKnobs = some sched ∧
      ∃ A : Assignment sched.mtasks.length 2, A.owners = sched.mtaskThreadAssign ∧
        (∃ layout, mtBuildDenseOwnerReadyLayout (strictRuntimeSuccs sched.mtasks A.owners) A.owners
            2 = some layout ∧
          RunsSerially strictProgram (strictDispatch layout A.owners 2)
            (sched.code fanOutCode) (fanOutCode.fullCycle fanOut.superId)) ∧
        ∀ window, ∃ D, lookaheadDispatch sched.mtasks A.owners 2 = some D ∧
          RunsSerially (lookaheadProgram window) D (sched.code fanOutCode)
            (fanOutCode.fullCycle fanOut.superId) := by
  obtain ⟨sched, built, runs⟩ :=
    denseExecutor_evaluates_design fanOut pinnedKnobs fanOutCode fanOut_raceFree
  obtain ⟨A, owners⟩ := fanOut.exists_assignment pinnedKnobs built
  exact ⟨sched, built, A, owners, runs 2 A⟩

example : (fanOutCode.fullCycle fanOut.superId ![5, 0, 0, 0]) = ![5, 6, 12, 9] := by decide

end Gsim
