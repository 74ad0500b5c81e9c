/-
  Gsim/ListScheduling.lean
  ========================
  **The list scheduler is sound** (`mtBuildDenseScheduleOrder` and the renumbering by
  its order, `cppEmitterDenseSchedule.cpp`).

  Whatever the costs, every MTask becomes ready and is taken once, after all its
  predecessors, so the code that appends unscheduled MTasks is dead; the worker taken
  is always one the MTask may run on.  Renumbering by the order then gives the same
  graph under other ids, with ids that climb along the edges.
-/
import Gsim.DenseSerial

namespace Gsim

open GraphContraction

/-- A forward MTask graph whose lists name every edge once. -/
structure MTaskDag extends MTaskGraph where
  predNodup : ∀ m, (predsOf mtasks m).Nodup
  succNodup : ∀ m, (succsOf mtasks m).Nodup

def workerZeroOnlyAt (mtasks : List MtDenseMTask) (m : ℕ) : Bool := (mtasks.getD m {}).workerZeroOnly

/-- The loop of `mtBuildDenseScheduleOrder`, before it looks for unscheduled MTasks. -/
def scheduleLoop (mtasks : List MtDenseMTask) (threadCount ccdExtra : ℕ) :
    Kahn.State ListSchedule :=
  Kahn.run (succsOf mtasks) (listQueue mtasks threadCount ccdExtra) mtasks.length
    (Kahn.start mtasks.length (fun i => (predsOf mtasks i).length)
      ⟨fun _ => -1, fun _ => 0, fun _ => 0⟩)

theorem mtBuildDenseScheduleOrder_eq (mtasks : List MtDenseMTask) (threadCount ccdExtra : ℕ) :
    mtBuildDenseScheduleOrder mtasks threadCount ccdExtra =
      (fun i => if i ∈ (scheduleLoop mtasks threadCount ccdExtra).order then
          (scheduleLoop mtasks threadCount ccdExtra).queue.outAssign i else 0,
        (scheduleLoop mtasks threadCount ccdExtra).order ++ (List.range mtasks.length).filter
          (· ∉ (scheduleLoop mtasks threadCount ccdExtra).order)) := rfl

/-! ## Workers -/

section Workers

variable {mtasks : List MtDenseMTask} {threadCount ccdExtra : ℕ}

theorem bestPlacement_worker {s : ListSchedule} {ready : List ℕ} {p : Placement}
    (h : bestPlacement mtasks threadCount ccdExtra s ready = some p) :
    p.worker ∈ workersFor mtasks threadCount p.mtaskId := by
  have mem := bestPlacement_mem mtasks threadCount ccdExtra h
  simp only [placements, List.mem_flatMap, List.mem_map, Prod.exists] at mem
  obtain ⟨mtaskId, readyIndex, -, worker, hworker, rfl⟩ := mem
  exact hworker

/-- Every scheduled MTask has a worker that may run it. -/
def Staffed (mtasks : List MtDenseMTask) (threadCount : ℕ) (st : Kahn.State ListSchedule) : Prop :=
  ∀ m ∈ st.order, ∃ worker ∈ workersFor mtasks threadCount m, st.queue.outAssign m = worker

theorem foldl_release_queue (pending : List ℕ) (st : Kahn.State ListSchedule) :
    (pending.foldl Kahn.release st).queue = st.queue := by
  induction pending generalizing st with
  | nil => rfl
  | cons v pending ih =>
    rw [List.foldl_cons, ih]
    rfl

theorem Staffed.step {st : Kahn.State ListSchedule} (h : Staffed mtasks threadCount st) :
    Staffed mtasks threadCount
      (Kahn.step (succsOf mtasks) (listQueue mtasks threadCount ccdExtra) st) := by
  unfold Kahn.step
  cases best : bestPlacement mtasks threadCount ccdExtra st.queue st.ready with
  | none =>
    simp only [listQueue, best]
    exact h
  | some p =>
    simp only [listQueue, best]
    intro m hm
    rw [Kahn.foldl_release_order] at hm
    rw [foldl_release_queue]
    dsimp only at hm ⊢
    by_cases eq : m = p.mtaskId
    · subst eq
      exact ⟨p.worker, bestPlacement_worker best, Function.update_self _ _ _⟩
    · have old : m ∈ st.order := by simpa [eq] using hm
      obtain ⟨worker, mem, assigned⟩ := h m old
      exact ⟨worker, mem, (Function.update_of_ne eq _ _).trans assigned⟩

theorem Staffed.run {st : Kahn.State ListSchedule} (h : Staffed mtasks threadCount st) (rounds : ℕ) :
    Staffed mtasks threadCount
      (Kahn.run (succsOf mtasks) (listQueue mtasks threadCount ccdExtra) rounds st) := by
  induction rounds generalizing st with
  | zero => exact h
  | succ rounds ih => exact ih h.step

theorem scheduleLoop_staffed (mtasks : List MtDenseMTask) (threadCount ccdExtra : ℕ) :
    Staffed mtasks threadCount (scheduleLoop mtasks threadCount ccdExtra) := by
  apply Staffed.run
  intro m hm
  cases hm

/-- The workers that may run an MTask. -/
theorem mem_workersFor {m worker : ℕ} (h : worker ∈ workersFor mtasks threadCount m) :
    worker < max 1 threadCount ∧ (workerZeroOnlyAt mtasks m = true → worker = 0) ∧
      (1 < threadCount → workerZeroOnlyAt mtasks m = false → worker ≠ 0) := by
  unfold workersFor at h
  unfold workerZeroOnlyAt
  split at h
  · rename_i only
    simp_all
  · rename_i free
    split at h
    · rw [List.mem_range'_1] at h
      exact ⟨by omega, fun only => absurd only free, fun _ _ => by omega⟩
    · rename_i single
      rw [List.mem_singleton] at h
      exact ⟨by omega, fun _ => h, fun many => absurd many single⟩

end Workers

/-! ## The order -/

namespace MTaskDag

variable (G : MTaskDag) (threadCount ccdExtra : ℕ)

theorem succ_lt_size {a b : ℕ} (h : b ∈ succsOf G.mtasks a) : b < G.mtasks.length :=
  G.dep_lt_size ((G.mirrored a b).mpr h)

theorem succs_isGraph : Kahn.IsGraph G.mtasks.length (succsOf G.mtasks) where
  bounded _ _ _ hv := G.succ_lt_size hv
  nodup u _ := G.succNodup u

theorem preds_counted (j : ℕ) (_ : j < G.mtasks.length) :
    (predsOf G.mtasks j).length = Kahn.missing G.mtasks.length (succsOf G.mtasks) [] j := by
  refine Kahn.length_eq_missing (G.predNodup j) fun i => ?_
  rw [G.mirrored]
  constructor
  · intro edge
    exact ⟨(G.dep_lt ((G.mirrored i j).mpr edge)).trans (G.succ_lt_size edge), edge⟩
  · exact fun edge => edge.2

theorem acyclic : Acyclic fun i j => i < G.mtasks.length ∧ j ∈ succsOf G.mtasks i := by
  have climbs : ∀ i j,
      Relation.TransGen (fun i j => i < G.mtasks.length ∧ j ∈ succsOf G.mtasks i) i j → i < j := by
    intro i j path
    induction path with
    | single edge => exact G.dep_lt ((G.mirrored _ _).mpr edge.2)
    | tail _ edge ih => exact ih.trans (G.dep_lt ((G.mirrored _ _).mpr edge.2))
  exact fun i cycle => (climbs i i cycle).false

/-- Every MTask is taken from the ready list once. -/
theorem scheduleLoop_perm :
    (scheduleLoop G.mtasks threadCount ccdExtra).order.Perm (List.range G.mtasks.length) :=
  Kahn.run_perm G.succs_isGraph G.preds_counted _ G.acyclic

theorem scheduleOrder_eq : (mtBuildDenseScheduleOrder G.mtasks threadCount ccdExtra).2 =
    (scheduleLoop G.mtasks threadCount ccdExtra).order := by
  have rest : (List.range G.mtasks.length).filter
      (· ∉ (scheduleLoop G.mtasks threadCount ccdExtra).order) = [] := by
    refine List.filter_eq_nil_iff.mpr fun i hi => ?_
    simpa using (G.scheduleLoop_perm threadCount ccdExtra).mem_iff.mpr hi
  rw [mtBuildDenseScheduleOrder_eq]
  dsimp only
  rw [rest, List.append_nil]

theorem scheduleOrder_orderOf :
    OrderOf G.mtasks (mtBuildDenseScheduleOrder G.mtasks threadCount ccdExtra).2 := by
  rw [scheduleOrder_eq]
  exact ⟨G.scheduleLoop_perm threadCount ccdExtra,
    Kahn.run_pairwise G.succs_isGraph G.preds_counted _⟩

end MTaskDag

/-! ## Renumbering -/

/-- `newId` carries the MTasks and their edges over to the second list. -/
structure Isomorphism (mtasks mtasks' : List MtDenseMTask) (newId : ℕ → ℕ) : Prop where
  length_eq : mtasks'.length = mtasks.length
  bijOn : Set.BijOn newId (Set.Iio mtasks.length) (Set.Iio mtasks.length)
  mtask : ∀ m < mtasks.length,
    { mtasks'.getD (newId m) {} with predMTasks := [], succMTasks := [] } =
      { mtasks.getD m {} with predMTasks := [], succMTasks := [] }
  preds : ∀ m < mtasks.length, (predsOf mtasks' (newId m)).Perm ((predsOf mtasks m).map newId)
  succs : ∀ m < mtasks.length, (succsOf mtasks' (newId m)).Perm ((succsOf mtasks m).map newId)

theorem OrderOf.mem_iff {mtasks : List MtDenseMTask} {order : List ℕ} (o : OrderOf mtasks order)
    {m : ℕ} : m ∈ order ↔ m < mtasks.length := by
  rw [o.perm.mem_iff, List.mem_range]

theorem OrderOf.length_eq {mtasks : List MtDenseMTask} {order : List ℕ} (o : OrderOf mtasks order) :
    order.length = mtasks.length := by
  rw [o.perm.length_eq, List.length_range]

/-- Renumbering changes nothing but the ids. -/
theorem OrderOf.isomorphism {mtasks : List MtDenseMTask} {order : List ℕ}
    (o : OrderOf mtasks order) : Isomorphism mtasks (renumber mtasks order) (order.idxOf ·) := by
  have place : ∀ m < mtasks.length, ∃ h : order.idxOf m < order.length, order[order.idxOf m] = m :=
    fun m hm => ⟨List.idxOf_lt_length_of_mem (o.mem_iff.mpr hm), List.getElem_idxOf _⟩
  refine ⟨?_, ⟨?_, ?_, ?_⟩, ?_, ?_, ?_⟩
  · rw [renumber, List.length_map, o.length_eq]
  · intro m hm
    rw [Set.mem_Iio, ← o.length_eq]
    exact List.idxOf_lt_length_of_mem (o.mem_iff.mpr hm)
  · intro a ha b _ eq
    exact (List.idxOf_inj (o.mem_iff.mpr ha)).mp eq
  · intro i hi
    have hi : i < order.length := by rwa [o.length_eq]
    exact ⟨order[i], o.mem_iff.mp (List.getElem_mem hi), o.nodup.idxOf_getElem i hi⟩
  · intro m hm
    obtain ⟨h, eq⟩ := place m hm
    rw [renumber_getD h, eq]
  · intro m hm
    obtain ⟨h, eq⟩ := place m hm
    rw [predsOf, renumber_getD h, eq]
    exact List.perm_insertionSort _ _
  · intro m hm
    obtain ⟨h, eq⟩ := place m hm
    rw [succsOf, renumber_getD h, eq]
    exact List.perm_insertionSort _ _

namespace Isomorphism

variable {G : MTaskDag} {mtasks' : List MtDenseMTask} {newId : ℕ → ℕ}
  (iso : Isomorphism G.mtasks mtasks' newId)
include iso

theorem newId_inj {a b : ℕ} (ha : a < G.mtasks.length) (hb : b < G.mtasks.length)
    (h : newId a = newId b) : a = b := iso.bijOn.injOn ha hb h

/-- An id of the new list is the new id of an MTask. -/
theorem exists_old {i : ℕ} (hi : i < mtasks'.length) :
    ∃ m < G.mtasks.length, newId m = i := by
  rw [iso.length_eq] at hi
  exact iso.bijOn.surjOn hi

theorem exists_old_of_pred {p i : ℕ} (h : p ∈ predsOf mtasks' i) :
    ∃ a b, a < G.mtasks.length ∧ b < G.mtasks.length ∧ newId a = p ∧ newId b = i ∧
      a ∈ predsOf G.mtasks b := by
  have hi : i < mtasks'.length := by
    by_contra ge
    rw [predsOf, List.getD_eq_default _ _ (not_lt.mp ge)] at h
    cases h
  obtain ⟨b, hb, rfl⟩ := iso.exists_old hi
  obtain ⟨a, ha, rfl⟩ := List.mem_map.mp ((iso.preds b hb).mem_iff.mp h)
  exact ⟨a, b, (G.dep_lt ha).trans hb, hb, rfl, rfl, ha⟩

theorem exists_old_of_succ {i s : ℕ} (h : s ∈ succsOf mtasks' i) :
    ∃ a b, a < G.mtasks.length ∧ b < G.mtasks.length ∧ newId a = i ∧ newId b = s ∧
      b ∈ succsOf G.mtasks a := by
  have hi : i < mtasks'.length := by
    by_contra ge
    rw [succsOf, List.getD_eq_default _ _ (not_lt.mp ge)] at h
    cases h
  obtain ⟨a, ha, rfl⟩ := iso.exists_old hi
  obtain ⟨b, hb, rfl⟩ := List.mem_map.mp ((iso.succs a ha).mem_iff.mp h)
  exact ⟨a, b, ha, G.succ_lt_size hb, rfl, rfl, hb⟩

/-- Edges go over to edges, and no others. -/
theorem mem_preds_iff {a b : ℕ} (ha : a < G.mtasks.length) (hb : b < G.mtasks.length) :
    newId a ∈ predsOf mtasks' (newId b) ↔ a ∈ predsOf G.mtasks b := by
  rw [(iso.preds b hb).mem_iff, List.mem_map]
  constructor
  · rintro ⟨a', ha', eq⟩
    rwa [← iso.newId_inj ((G.dep_lt ha').trans hb) ha eq]
  · exact fun h => ⟨a, h, rfl⟩

theorem mem_succs_iff {a b : ℕ} (ha : a < G.mtasks.length) (hb : b < G.mtasks.length) :
    newId b ∈ succsOf mtasks' (newId a) ↔ b ∈ succsOf G.mtasks a := by
  rw [(iso.succs a ha).mem_iff, List.mem_map]
  constructor
  · rintro ⟨b', hb', eq⟩
    rwa [← iso.newId_inj (G.succ_lt_size hb') hb eq]
  · exact fun h => ⟨b, h, rfl⟩

/-- If the new ids climb along the edges, the new list is again such a graph. -/
theorem toDag (climbs : ∀ a b, G.Dep a b → newId a < newId b) :
    ∃ G' : MTaskDag, G'.mtasks = mtasks' := by
  refine ⟨⟨⟨mtasks', ?_, ?_⟩, ?_, ?_⟩, rfl⟩
  · intro i p hp
    obtain ⟨a, b, -, -, rfl, rfl, edge⟩ := iso.exists_old_of_pred hp
    exact climbs a b edge
  · intro p s
    constructor
    · intro h
      obtain ⟨a, b, ha, hb, rfl, rfl, edge⟩ := iso.exists_old_of_pred h
      exact (iso.mem_succs_iff ha hb).mpr ((G.mirrored a b).mp edge)
    · intro h
      obtain ⟨a, b, ha, hb, rfl, rfl, edge⟩ := iso.exists_old_of_succ h
      exact (iso.mem_preds_iff ha hb).mpr ((G.mirrored a b).mpr edge)
  · intro i
    by_cases hi : i < mtasks'.length
    · obtain ⟨b, hb, rfl⟩ := iso.exists_old hi
      refine (iso.preds b hb).nodup_iff.mpr ((G.predNodup b).map_on ?_)
      exact fun a ha a' ha' eq =>
        iso.newId_inj ((G.dep_lt ha).trans hb) ((G.dep_lt ha').trans hb) eq
    · rw [predsOf, List.getD_eq_default _ _ (not_lt.mp hi)]
      exact List.nodup_nil
  · intro i
    by_cases hi : i < mtasks'.length
    · obtain ⟨a, ha, rfl⟩ := iso.exists_old hi
      refine (iso.succs a ha).nodup_iff.mpr ((G.succNodup a).map_on ?_)
      exact fun b hb b' hb' eq => iso.newId_inj (G.succ_lt_size hb) (G.succ_lt_size hb') eq
    · rw [succsOf, List.getD_eq_default _ _ (not_lt.mp hi)]
      exact List.nodup_nil

end Isomorphism

/-- What the list scheduler promises about its order and its workers. -/
structure ListScheduled (mtasks : List MtDenseMTask) (threadCount : ℕ) (assign : ℕ → Int)
    (order : List ℕ) : Prop where
  once : order.Perm (List.range mtasks.length)
  topological : ∀ a b, a ∈ predsOf mtasks b → order.idxOf a < order.idxOf b
  worker : ∀ m < mtasks.length, 0 ≤ assign m ∧ assign m < max 1 threadCount
  workerZero : ∀ m < mtasks.length, workerZeroOnlyAt mtasks m = true → assign m = 0
  reserved : 1 < threadCount → ∀ m < mtasks.length, workerZeroOnlyAt mtasks m = false →
    assign m ≠ 0

theorem MTaskDag.scheduleOrder_climbs (G : MTaskDag) (threadCount ccdExtra : ℕ) {a b : ℕ}
    (h : G.Dep a b) :
    (mtBuildDenseScheduleOrder G.mtasks threadCount ccdExtra).2.idxOf a <
      (mtBuildDenseScheduleOrder G.mtasks threadCount ccdExtra).2.idxOf b := by
  have o := G.scheduleOrder_orderOf threadCount ccdExtra
  have hb : b < G.mtasks.length := G.dep_lt_size h
  exact idxOf_lt_of_pairwise (R := fun a b => b ∈ succsOf G.mtasks a) o.sorted
    (o.mem_iff.mpr ((G.dep_lt h).trans hb)) (o.mem_iff.mpr hb) (G.dep_lt h).ne
    ((G.mirrored a b).mp h)

theorem MTaskDag.listScheduled (G : MTaskDag) (threadCount ccdExtra : ℕ) :
    ListScheduled G.mtasks threadCount
      (mtBuildDenseScheduleOrder G.mtasks threadCount ccdExtra).1
      (mtBuildDenseScheduleOrder G.mtasks threadCount ccdExtra).2 := by
  have staffed : ∀ m < G.mtasks.length, ∃ worker ∈ workersFor G.mtasks threadCount m,
      (mtBuildDenseScheduleOrder G.mtasks threadCount ccdExtra).1 m = worker := by
    intro m hm
    have mem : m ∈ (scheduleLoop G.mtasks threadCount ccdExtra).order :=
      (G.scheduleLoop_perm threadCount ccdExtra).mem_iff.mpr (List.mem_range.mpr hm)
    obtain ⟨worker, hworker, eq⟩ := scheduleLoop_staffed G.mtasks threadCount ccdExtra m mem
    exact ⟨worker, hworker, (if_pos mem).trans eq⟩
  refine ⟨(G.scheduleOrder_orderOf threadCount ccdExtra).perm, ?_, ?_, ?_, ?_⟩
  · exact fun a b h => G.scheduleOrder_climbs threadCount ccdExtra h
  · intro m hm
    obtain ⟨worker, hworker, eq⟩ := staffed m hm
    have lt := (mem_workersFor hworker).1
    rw [eq]
    omega
  · intro m hm only
    obtain ⟨worker, hworker, eq⟩ := staffed m hm
    rw [eq, (mem_workersFor hworker).2.1 only]
    rfl
  · intro many m hm free
    obtain ⟨worker, hworker, eq⟩ := staffed m hm
    have ne := (mem_workersFor hworker).2.2 many free
    rw [eq]
    exact_mod_cast ne

/-- `buildMtDenseSchedule` renumbers by the order and takes the workers along. -/
theorem MTaskDag.orderMTasks_scheduled (G : MTaskDag) (k : DenseKnobs) (on : k.schedOrder = true)
    (many : 1 < G.size) :
    (orderMTasks k G.mtasks).1 = renumber G.mtasks
      (mtBuildDenseScheduleOrder G.mtasks (max 1 k.threadCount) k.ccdExtra).2 ∧
    ∀ m < G.size, assignAt (orderMTasks k G.mtasks).2
        ((mtBuildDenseScheduleOrder G.mtasks (max 1 k.threadCount) k.ccdExtra).2.idxOf m) =
      (mtBuildDenseScheduleOrder G.mtasks (max 1 k.threadCount) k.ccdExtra).1 m := by
  have o := G.scheduleOrder_orderOf (max 1 k.threadCount) k.ccdExtra
  have sched := G.listScheduled (max 1 k.threadCount) k.ccdExtra
  unfold orderMTasks
  dsimp only
  rw [if_pos ⟨on, many⟩, if_pos o.length_eq]
  refine ⟨rfl, fun m hm => ?_⟩
  have place : (mtBuildDenseScheduleOrder G.mtasks (max 1 k.threadCount) k.ccdExtra).2.idxOf m <
      (mtBuildDenseScheduleOrder G.mtasks (max 1 k.threadCount) k.ccdExtra).2.length :=
    List.idxOf_lt_length_of_mem (o.mem_iff.mpr hm)
  rw [assignAt, List.getD_eq_getElem _ _ (by rwa [List.length_map]), List.getElem_map,
    List.getElem_idxOf]
  split
  · rename_i only
    exact (sched.workerZero m hm only).symm
  · rfl

/-- Every MTask of the schedule has a worker, list scheduled or taken in turn. -/
theorem MTaskDag.orderMTasks_workers (G : MTaskDag) (k : DenseKnobs) :
    (orderMTasks k G.mtasks).2.length = (orderMTasks k G.mtasks).1.length ∧
    ∀ worker ∈ (orderMTasks k G.mtasks).2, 0 ≤ worker ∧ worker < ((max 1 k.threadCount : ℕ) : Int) := by
  have threads : 0 < max 1 k.threadCount := lt_max_of_lt_left one_pos
  have zero : (0 : Int) ≤ 0 ∧ (0 : Int) < ((max 1 k.threadCount : ℕ) : Int) :=
    ⟨le_rfl, Int.natCast_pos.mpr threads⟩
  have inTurn : ∀ worker ∈ G.mtasks.mapIdx fun i m =>
      if m.workerZeroOnly then (0 : Int) else ((i % max 1 k.threadCount : ℕ) : Int),
      0 ≤ worker ∧ worker < ((max 1 k.threadCount : ℕ) : Int) := by
    intro worker mem
    obtain ⟨i, hi, rfl⟩ := List.mem_mapIdx.mp mem
    by_cases only : G.mtasks[i].workerZeroOnly = true
    · rw [if_pos only]
      exact zero
    · rw [if_neg only]
      exact ⟨Int.natCast_nonneg _, Int.ofNat_lt.mpr (Nat.mod_lt i threads)⟩
  have o := G.scheduleOrder_orderOf (max 1 k.threadCount) k.ccdExtra
  have sched := G.listScheduled (max 1 k.threadCount) k.ccdExtra
  unfold orderMTasks
  dsimp only
  by_cases on : k.schedOrder = true ∧ G.mtasks.length > 1
  · rw [if_pos on, if_pos o.length_eq]
    refine ⟨by rw [List.length_map, renumber, List.length_map], fun worker mem => ?_⟩
    obtain ⟨oldId, member, rfl⟩ := List.mem_map.mp mem
    by_cases only : (G.mtasks.getD oldId {}).workerZeroOnly = true
    · rw [if_pos only]
      exact zero
    · rw [if_neg only]
      have range := sched.worker oldId (o.mem_iff.mp member)
      rwa [max_eq_right (le_max_left 1 k.threadCount)] at range
  · rw [if_neg on]
    exact ⟨List.length_mapIdx, inTurn⟩

/-- The workers of the schedule. -/
def MTaskDag.assignment (G : MTaskDag) (k : DenseKnobs) :
    Assignment (orderMTasks k G.mtasks).1.length (max 1 k.threadCount) where
  owners := (orderMTasks k G.mtasks).2
  threads_pos := lt_max_of_lt_left one_pos
  length_eq := (G.orderMTasks_workers k).1
  inRange mtaskId lt := by
    rw [← (G.orderMTasks_workers k).1] at lt
    rw [assignAt, List.getD_eq_getElem _ _ lt]
    exact (G.orderMTasks_workers k).2 _ (List.getElem_mem lt)

/-- **List scheduling.**  The loop takes every MTask, in a topological order and on a
    worker that may run it; renumbering by that order is an isomorphism onto a forward
    graph, and `buildMtDenseSchedule` installs it with the workers carried along. -/
theorem mtBuildDenseScheduleOrder_sound (G : MTaskDag) (threadCount ccdExtra : ℕ) :
    (scheduleLoop G.mtasks threadCount ccdExtra).order.length = G.size ∧
    ListScheduled G.mtasks threadCount
      (mtBuildDenseScheduleOrder G.mtasks threadCount ccdExtra).1
      (mtBuildDenseScheduleOrder G.mtasks threadCount ccdExtra).2 ∧
    Isomorphism G.mtasks
      (renumber G.mtasks (mtBuildDenseScheduleOrder G.mtasks threadCount ccdExtra).2)
      ((mtBuildDenseScheduleOrder G.mtasks threadCount ccdExtra).2.idxOf ·) ∧
    (∃ G' : MTaskDag, G'.mtasks =
      renumber G.mtasks (mtBuildDenseScheduleOrder G.mtasks threadCount ccdExtra).2) ∧
    ∀ k : DenseKnobs, k.schedOrder = true → 1 < G.size →
      (orderMTasks k G.mtasks).1 = renumber G.mtasks
        (mtBuildDenseScheduleOrder G.mtasks (max 1 k.threadCount) k.ccdExtra).2 ∧
      ∀ m < G.size, assignAt (orderMTasks k G.mtasks).2
          ((mtBuildDenseScheduleOrder G.mtasks (max 1 k.threadCount) k.ccdExtra).2.idxOf m) =
        (mtBuildDenseScheduleOrder G.mtasks (max 1 k.threadCount) k.ccdExtra).1 m := by
  have o := G.scheduleOrder_orderOf threadCount ccdExtra
  refine ⟨?_, G.listScheduled threadCount ccdExtra, o.isomorphism, ?_, ?_⟩
  · rw [(G.scheduleLoop_perm threadCount ccdExtra).length_eq, List.length_range]
    rfl
  · exact o.isomorphism.toDag fun a b h => G.scheduleOrder_climbs threadCount ccdExtra h
  · intro k on many
    exact G.orderMTasks_scheduled k on many

/-- Two MTasks that only worker zero may run, and one that waits for the first of them. -/
def pinnedMTasks : List MtDenseMTask :=
  [{ succMTasks := [1, 2], staticCost := 3, workerZeroOnly := true },
    { predMTasks := [0], staticCost := 1 },
    { predMTasks := [0], staticCost := 7, workerZeroOnly := true }]

theorem pinnedMTasks_preds (m : ℕ) :
    predsOf pinnedMTasks m = if m = 1 ∨ m = 2 then [0] else [] := by
  rcases m with _ | _ | _ | m <;> simp [predsOf, pinnedMTasks]

theorem pinnedMTasks_succs (m : ℕ) : succsOf pinnedMTasks m = if m = 0 then [1, 2] else [] := by
  rcases m with _ | _ | _ | m <;> simp [succsOf, pinnedMTasks]

theorem pinnedMTasks_forward (m p : ℕ) (h : p ∈ predsOf pinnedMTasks m) : p < m := by
  rw [pinnedMTasks_preds] at h
  split at h
  · rw [List.mem_singleton] at h
    omega
  · cases h

theorem pinnedMTasks_mirrored (a b : ℕ) :
    a ∈ predsOf pinnedMTasks b ↔ b ∈ succsOf pinnedMTasks a := by
  rw [pinnedMTasks_preds, pinnedMTasks_succs]
  by_cases hb : b = 1 ∨ b = 2 <;> by_cases ha : a = 0 <;> simp [ha, hb]

theorem pinnedMTasks_predNodup (m : ℕ) : (predsOf pinnedMTasks m).Nodup := by
  rw [pinnedMTasks_preds]
  split <;> simp

theorem pinnedMTasks_succNodup (m : ℕ) : (succsOf pinnedMTasks m).Nodup := by
  rw [pinnedMTasks_succs]
  split <;> simp

def pinnedDag : MTaskDag :=
  ⟨⟨pinnedMTasks, pinnedMTasks_forward, pinnedMTasks_mirrored⟩, pinnedMTasks_predNodup,
    pinnedMTasks_succNodup⟩

def pinnedKnobs : DenseKnobs where
  forwardActivationOnly := false
  codegenEnabled := true
  threadCount := 2
  builder := .chunks true
  schedOrder := true
  ccdExtra := 0

theorem mtBuildDenseScheduleOrder_sound_pinned :
    (mtBuildDenseScheduleOrder pinnedMTasks 2 0).2 = [0, 2, 1] ∧
    ∀ m < 3, assignAt (orderMTasks pinnedKnobs pinnedMTasks).2
        ((mtBuildDenseScheduleOrder pinnedMTasks 2 0).2.idxOf m) =
      (mtBuildDenseScheduleOrder pinnedMTasks 2 0).1 m :=
  ⟨by decide, ((mtBuildDenseScheduleOrder_sound pinnedDag 2 0).2.2.2.2 pinnedKnobs rfl
    (by decide)).2⟩

end Gsim
