/-
  Gsim/DenseSchedule.lean
  =======================
  **The dense schedule** (`buildMtDenseSchedule` of `cppEmitterDenseSchedule.cpp`).

  The coarsened SCCs are layered, a worker-zero SCC always in a layer of its own;
  the layers one after another are `topoSccOrder`.  MTasks are cut from this order
  or come out of the contraction, and may be renumbered by a list scheduler.  The
  dense executor runs the MTasks in the order of their ids, each with its SCCs in
  `sccIds` order: every task comes after the tasks that it depends on, whichever
  way the MTasks were formed.

  The searches over `MAXMT` and `POLICY=auto` end with one of the contractions
  that they tried, so they are covered by arbitrary knobs.  The counters of the
  report are left out; the records of the layers are in `DenseLayers`.
-/
import Gsim.DenseCoarsen

namespace Gsim

open SortedContainers GraphContraction

/-! ## Layers -/

/-- `cppIds.front()`. -/
def firstCppId (sccs : List MtDenseScc) (sccId : ℕ) : ℕ := (cppIdsOf sccs sccId).headD 0

/-- The next layer: the first worker-zero SCC that is ready, or else all that are ready. -/
def layerQueue (sccs : List MtDenseScc) : Kahn.Queue Unit where
  pop _ ready :=
    if ready = [] then none
    else
      match (ready.insertionSort (· ≤ ·)).find? (workerZeroOnlyOf sccs) with
      | some worker0Scc => some ([worker0Scc], ready.erase worker0Scc, ())
      | none =>
        some ((ready.insertionSort (· ≤ ·)).insertionSort
          (fun lhs rhs => firstCppId sccs lhs ≤ firstCppId sccs rhs), [], ())
  pop_none _ ready h := by
    by_contra waiting
    rw [if_neg waiting] at h
    split at h <;> cases h
  pop_some _ ready batch rest _ h := by
    by_cases empty : ready = []
    · rw [if_pos empty] at h
      cases h
    · rw [if_neg empty] at h
      split at h
      · rename_i worker0Scc found
        cases h
        refine ⟨List.cons_ne_nil _ _, List.perm_cons_erase ?_⟩
        exact (List.perm_insertionSort _ _).mem_iff.mp (List.mem_of_find?_eq_some found)
      · cases h
        have perm := ((List.perm_insertionSort (fun lhs rhs => firstCppId sccs lhs ≤
          firstCppId sccs rhs) _).trans (List.perm_insertionSort (· ≤ ·) ready)).symm
        refine ⟨?_, by rwa [List.append_nil]⟩
        intro none
        rw [none] at perm
        exact empty perm.eq_nil

def topoSccOrder (sccs : List MtDenseScc) : List ℕ :=
  (Kahn.run (succSccsOf sccs) (layerQueue sccs) sccs.length
    (Kahn.start sccs.length (fun i => (predSccsOf sccs i).length) ())).order

/-! ## Cutting the order into MTasks -/

section Chunks

variable (S : SccSchedule) (preserveWorkerZeroOnlyBoundary : Bool)

def maxSccsPerMTask : ℕ := 30

/-- Whether the MTask that is being filled is closed before the next SCC. -/
def closesMTask (current : List ℕ) (sccId : ℕ) : Bool :=
  current ≠ [] ∧ (current.length ≥ maxSccsPerMTask ∨
    (preserveWorkerZeroOnlyBoundary ∧
      (current.any fun s => (S.scc s).workerZeroOnly) ≠ (S.scc sccId).workerZeroOnly))

/-- `flushCurrent`. -/
def flushCurrent (mtasks : List (List ℕ)) (current : List ℕ) : List (List ℕ) :=
  if current = [] then mtasks else mtasks ++ [current]

/-- One turn over `topoSccOrder`: the closed MTasks and the one that is being filled. -/
def fillMTask (acc : List (List ℕ) × List ℕ) (sccId : ℕ) : List (List ℕ) × List ℕ :=
  if closesMTask S preserveWorkerZeroOnlyBoundary acc.2 sccId then
    (flushCurrent acc.1 acc.2, [sccId])
  else (acc.1, acc.2 ++ [sccId])

def fillMTasks (order : List ℕ) : List (List ℕ) :=
  let final := order.foldl (fillMTask S preserveWorkerZeroOnlyBoundary) ([], [])
  flushCurrent final.1 final.2

/-- The `sccIds` of the MTasks. -/
def chunkSccIds : List (List ℕ) := fillMTasks S preserveWorkerZeroOnlyBoundary S.topoSccOrder

def chunkOf (sccId : ℕ) : Option ℕ :=
  (chunkSccIds S preserveWorkerZeroOnlyBoundary).findIdx? (sccId ∈ ·)

def mtBuildDenseMTasks : List MtDenseMTask :=
  (chunkSccIds S preserveWorkerZeroOnlyBoundary).mapIdx fun mtaskId sccIds =>
    { mtaskOfSccs S (crossEdges S.sccs (chunkOf S preserveWorkerZeroOnlyBoundary)) mtaskId sccIds with
      schedCost := 0 }

end Chunks

/-! ## List scheduling -/

/-- What the list scheduler has decided. -/
structure ListSchedule where
  outAssign : ℕ → Int
  completion : ℕ → Int
  busyUntil : ℕ → Int

/-- A ready MTask (by its place in `ready`) on a worker that could run it. -/
structure Placement where
  readyIndex : ℕ
  mtaskId : ℕ
  worker : ℕ
  timeBegin : Int

section ScheduleOrder

variable (mtasks : List MtDenseMTask) (threadCount ccdExtra : ℕ)

def costOf (mtaskId : ℕ) : Int :=
  let m := mtasks.getD mtaskId {}
  if m.schedCost > 0 then m.schedCost else m.staticCost

/-- The longest path to the end. -/
def priority : ℕ → Int :=
  (List.range mtasks.length).foldr (fun i priority => Function.update priority i
    (costOf mtasks i + ((succsOf mtasks i).map priority).foldl max 0)) fun _ => 0

def ccdSize : ℕ := 8

/-- When `pred` is over, seen from `worker`: a token to another worker takes time, more so to
    another CCD. -/
def predEnd (s : ListSchedule) (worker : ℕ) (pred : ℕ) : Int :=
  let predWorker := s.outAssign pred
  if predWorker ≥ 0 ∧ predWorker ≠ worker then
    s.completion pred + (costOf mtasks pred * 30).tdiv 100 +
      if ccdExtra > 0 ∧ predWorker.toNat / ccdSize ≠ worker / ccdSize then
        (costOf mtasks pred * ccdExtra).tdiv 100
      else 0
  else s.completion pred

def timeBegin (s : ListSchedule) (mtaskId worker : ℕ) : Int :=
  ((predsOf mtasks mtaskId).map (predEnd mtasks ccdExtra s worker)).foldl max (s.busyUntil worker)

/-- Worker zero is kept for the MTasks that only it may run. -/
def workersFor (mtaskId : ℕ) : List ℕ :=
  if (mtasks.getD mtaskId {}).workerZeroOnly then [0]
  else if threadCount > 1 then List.range' 1 (threadCount - 1)
  else [0]

def placements (s : ListSchedule) (ready : List ℕ) : List Placement :=
  ready.zipIdx.flatMap fun (mtaskId, readyIndex) =>
    (workersFor mtasks threadCount mtaskId).map fun worker =>
      ⟨readyIndex, mtaskId, worker, timeBegin mtasks ccdExtra s mtaskId worker⟩

/-- Earlier; on a tie the longer path to the end, then the smaller id. -/
def betterPlacement (p best : Placement) : Bool :=
  p.timeBegin < best.timeBegin ∨
    (p.timeBegin = best.timeBegin ∧ priority mtasks p.mtaskId > priority mtasks best.mtaskId) ∨
    (p.timeBegin = best.timeBegin ∧ priority mtasks p.mtaskId = priority mtasks best.mtaskId ∧
      p.mtaskId < best.mtaskId)

def bestPlacement (s : ListSchedule) (ready : List ℕ) : Option Placement :=
  match placements mtasks threadCount ccdExtra s ready with
  | [] => none
  | p :: ps => some (ps.foldl (fun best p => if betterPlacement mtasks p best then p else best) p)

/-- `ready[i] = ready.back(); ready.pop_back();`. -/
def swapRemove (ready : List ℕ) (i : ℕ) : List ℕ := (ready.set i (ready.getLastD 0)).dropLast

def ListSchedule.place (s : ListSchedule) (p : Placement) : ListSchedule :=
  let finish := p.timeBegin + max 1 (costOf mtasks p.mtaskId)
  { outAssign := Function.update s.outAssign p.mtaskId p.worker
    completion := Function.update s.completion p.mtaskId finish
    busyUntil := Function.update s.busyUntil p.worker finish }

/-! ### The scheduler takes one ready MTask at a time -/

theorem foldl_choose_mem {α : Type*} (better : α → α → Bool) (x : α) (xs : List α) :
    xs.foldl (fun best y => if better y best then y else best) x ∈ x :: xs := by
  induction xs generalizing x with
  | nil => exact List.mem_singleton_self x
  | cons y ys ih =>
    rw [List.foldl_cons]
    rcases List.mem_cons.mp (ih (if better y x then y else x)) with h | h
    · rw [h]
      split
      · exact List.mem_cons_of_mem _ List.mem_cons_self
      · exact List.mem_cons_self
    · exact List.mem_cons_of_mem _ (List.mem_cons_of_mem _ h)

theorem bestPlacement_mem {s : ListSchedule} {ready : List ℕ} {p : Placement}
    (h : bestPlacement mtasks threadCount ccdExtra s ready = some p) :
    p ∈ placements mtasks threadCount ccdExtra s ready := by
  unfold bestPlacement at h
  split at h
  · cases h
  · rename_i q ps eq
    cases h
    rw [eq]
    exact foldl_choose_mem _ q ps

theorem bestPlacement_ready {s : ListSchedule} {ready : List ℕ} {p : Placement}
    (h : bestPlacement mtasks threadCount ccdExtra s ready = some p) :
    ready[p.readyIndex]? = some p.mtaskId := by
  have mem := bestPlacement_mem mtasks threadCount ccdExtra h
  simp only [placements, List.mem_flatMap, List.mem_map, Prod.exists] at mem
  obtain ⟨mtaskId, readyIndex, place, worker, -, rfl⟩ := mem
  exact List.mem_zipIdx_iff_getElem?.mp place

theorem workersFor_ne_nil (mtaskId : ℕ) : workersFor mtasks threadCount mtaskId ≠ [] := by
  unfold workersFor
  split
  · exact List.cons_ne_nil _ _
  · split
    · simp
      omega
    · exact List.cons_ne_nil _ _

theorem bestPlacement_none {s : ListSchedule} {ready : List ℕ}
    (h : bestPlacement mtasks threadCount ccdExtra s ready = none) : ready = [] := by
  unfold bestPlacement at h
  split at h
  · rename_i none
    cases ready with
    | nil => rfl
    | cons mtaskId ready =>
      simp [placements, workersFor_ne_nil] at none
  · cases h

theorem swapRemove_perm {ready : List ℕ} {i x : ℕ} (h : ready[i]? = some x) :
    ready.Perm ([x] ++ swapRemove ready i) := by
  obtain ⟨lt, rfl⟩ := List.getElem?_eq_some_iff.mp h
  have nonempty : ready ≠ [] := List.ne_nil_of_length_pos (by omega)
  obtain ⟨front, last, rfl⟩ : ∃ front last, ready = front ++ [last] :=
    ⟨_, _, (List.dropLast_append_getLast nonempty).symm⟩
  unfold swapRemove
  rw [List.getLastD_concat]
  rcases lt_or_eq_of_le (Nat.le_of_lt_succ (by simpa using lt)) with inner | rfl
  · rw [List.set_append_left _ _ inner, List.dropLast_concat, List.getElem_append_left inner]
    calc (front ++ [last]).Perm (last :: front) := List.perm_append_singleton last front
      _ |>.Perm (last :: front[i] :: front.eraseIdx i) :=
        (List.getElem_cons_eraseIdx_perm inner).symm.cons last
      _ |>.Perm (front[i] :: last :: front.eraseIdx i) := List.Perm.swap ..
      _ |>.Perm (front[i] :: front.set i last) := (List.set_perm_cons_eraseIdx inner last).symm.cons _
  · simp [List.set_append_right]

/-- The queue of the list scheduler. -/
def listQueue : Kahn.Queue ListSchedule where
  pop s ready :=
    match bestPlacement mtasks threadCount ccdExtra s ready with
    | none => none
    | some p => some ([p.mtaskId], swapRemove ready p.readyIndex, s.place mtasks p)
  pop_none s ready h := by
    cases best : bestPlacement mtasks threadCount ccdExtra s ready with
    | none => exact bestPlacement_none mtasks threadCount ccdExtra best
    | some p =>
      rw [best] at h
      cases h
  pop_some s ready batch rest s' h := by
    cases best : bestPlacement mtasks threadCount ccdExtra s ready with
    | none =>
      rw [best] at h
      cases h
    | some p =>
      rw [best] at h
      cases h
      exact ⟨List.cons_ne_nil _ _, swapRemove_perm (bestPlacement_ready _ _ _ best)⟩

/-- The assignment and the order of `mtBuildDenseScheduleOrder`. -/
def mtBuildDenseScheduleOrder : (ℕ → Int) × List ℕ :=
  let final := Kahn.run (succsOf mtasks) (listQueue mtasks threadCount ccdExtra) mtasks.length
    (Kahn.start mtasks.length (fun i => (predsOf mtasks i).length)
      ⟨fun _ => -1, fun _ => 0, fun _ => 0⟩)
  -- an MTask that was never ready would come last, on worker zero
  (fun i => if i ∈ final.order then final.queue.outAssign i else 0,
    final.order ++ (List.range mtasks.length).filter (· ∉ final.order))

/-- The MTasks under the ids of their places in `order`. -/
def renumber (order : List ℕ) : List MtDenseMTask :=
  order.map fun oldId =>
    let m := mtasks.getD oldId {}
    { m with
      predMTasks := (m.predMTasks.map fun p => order.idxOf p).insertionSort (· ≤ ·)
      succMTasks := (m.succMTasks.map fun s => order.idxOf s).insertionSort (· ≤ ·) }

end ScheduleOrder

/-! ## The whole function -/

/-- How MTasks are formed. -/
inductive MTaskBuilder where
  /-- `GSIM_MT_DENSE_VCONTRACT`: the contraction, with the candidates popped in any order -/
  | contract (k : VContractKnobs) (edgeCpWithout : Bool) (picks : List ℕ)
  /-- cutting the order into pieces of at most 30 SCCs -/
  | chunks (preserveWorkerZeroOnlyBoundary : Bool)

/-- The environment of `buildMtDenseSchedule`. -/
structure DenseKnobs where
  codegenEnabled : Bool
  /-- `GSIM_MT_DENSE_FORWARD_ACTIVATION_ONLY` -/
  forwardActivationOnly : Bool
  /-- `GSIM_THREADS` -/
  threadCount : ℕ
  builder : MTaskBuilder
  /-- `GSIM_MT_DENSE_SCHED_ORDER` -/
  schedOrder : Bool
  /-- `GSIM_MT_DENSE_PACK_CCD_AFFINITY` -/
  ccdExtra : ℕ

inductive FallbackReason where
  | none
  | codegenDisabled
  | cycleScc
  | sccTopologyIncomplete
deriving Repr, DecidableEq

structure MtDenseSchedule where
  sccs : List MtDenseScc
  topoSccOrder : List ℕ
  mtasks : List MtDenseMTask
  mtaskThreadAssign : List Int
  fallbackReason : FallbackReason

def MtDenseSchedule.valid (sched : MtDenseSchedule) : Bool := sched.fallbackReason = .none

/-- The body of `stepDenseMTask`: the tasks of an MTask, SCC by SCC. -/
def stepDenseMTask (sccs : List MtDenseScc) (mtask : MtDenseMTask) : List ℕ :=
  mtask.sccIds.flatMap (cppIdsOf sccs)

/-- The tasks in the order in which the MTasks, by ascending id, evaluate them. -/
def MtDenseSchedule.evalOrder (sched : MtDenseSchedule) : List ℕ :=
  sched.mtasks.flatMap (stepDenseMTask sched.sccs)

/-! ### The layered SCCs -/

/-- No SCC comes before one that it has an edge from. -/
def Layered (S : SccSchedule) : Prop :=
  S.topoSccOrder.Pairwise fun a b => a ∉ succSccsOf S.sccs b

/-- Mirrored edges between SCCs without a cycle. -/
structure SccGraph (sccs : List MtDenseScc) : Prop where
  bounded : ∀ i, ∀ j ∈ succSccsOf sccs i, j < sccs.length
  mirrored : ∀ i j, i ∈ predSccsOf sccs j ↔ j ∈ succSccsOf sccs i
  succNodup : ∀ i, (succSccsOf sccs i).Nodup
  predNodup : ∀ i, (predSccsOf sccs i).Nodup
  acyclic : Acyclic fun i j => j ∈ succSccsOf sccs i

theorem SccsOf.sccGraph {n : ℕ} {succ : ℕ → List ℕ} {sccs : List MtDenseScc}
    (h : SccsOf n succ sccs) : SccGraph sccs := by
  have climbs : ∀ i j, Relation.TransGen (fun i j => j ∈ succSccsOf sccs i) i j → i < j := by
    intro i j path
    induction path with
    | single edge => exact (h.climbs i _ edge).1
    | tail _ edge ih => exact ih.trans (h.climbs _ _ edge).1
  exact ⟨fun i j hj => (h.climbs i j hj).2, h.mirrored, h.succNodup, h.predNodup,
    fun i cycle => (climbs i i cycle).false⟩

theorem succSccsOf_lt {sccs : List MtDenseScc} {i j : ℕ} (hj : j ∈ succSccsOf sccs i) :
    i < sccs.length := by
  by_contra ge
  rw [succSccsOf, List.getD_eq_default _ _ (not_lt.mp ge)] at hj
  cases hj

section Layers

variable {sccs : List MtDenseScc} (h : SccGraph sccs)
include h

theorem SccGraph.isGraph : Kahn.IsGraph sccs.length (succSccsOf sccs) :=
  ⟨fun i _ j hj => h.bounded i j hj, fun i _ => h.succNodup i⟩

theorem SccGraph.counted (j : ℕ) (_ : j < sccs.length) :
    (predSccsOf sccs j).length = Kahn.missing sccs.length (succSccsOf sccs) [] j := by
  refine Kahn.length_eq_missing (h.predNodup j) fun i => ?_
  rw [h.mirrored]
  exact ⟨fun edge => ⟨succSccsOf_lt edge, edge⟩, fun edge => edge.2⟩

theorem topoSccOrder_perm : (topoSccOrder sccs).Perm (List.range sccs.length) := by
  refine Kahn.run_perm h.isGraph h.counted () ?_
  exact h.acyclic.mono fun _ _ edge => edge.2

theorem topoSccOrder_layered : (topoSccOrder sccs).Pairwise fun a b => a ∉ succSccsOf sccs b :=
  Kahn.run_pairwise h.isGraph h.counted ()

end Layers

namespace DenseTaskGraph

variable (G : DenseTaskGraph) (forwardActivationOnly : Bool)

/-- `schedule.sccs`. -/
def denseSccs : List MtDenseScc := coarsen (G.taskSccs forwardActivationOnly)

theorem denseSccs_sccsOf : SccsOf G.superId (G.succCppIds forwardActivationOnly)
    (G.denseSccs forwardActivationOnly) :=
  coarsen_sccsOf G.taskSccs_sccsOf

/-- What the MTask builders receive. -/
def sccSchedule : SccSchedule where
  sccs := G.denseSccs forwardActivationOnly
  topoSccOrder := Gsim.topoSccOrder (G.denseSccs forwardActivationOnly)
  forward u v hv _ := ((G.denseSccs_sccsOf forwardActivationOnly).climbs u v hv).1.le
  complete := topoSccOrder_perm (G.denseSccs_sccsOf forwardActivationOnly).sccGraph

theorem sccSchedule_layered : Layered (G.sccSchedule forwardActivationOnly) :=
  topoSccOrder_layered (G.denseSccs_sccsOf forwardActivationOnly).sccGraph

end DenseTaskGraph

/-- `none` is a failed `Assert`. -/
def buildMTasks (S : SccSchedule) (threadCount : ℕ) : MTaskBuilder → Option (List MtDenseMTask)
  | .contract k edgeCpWithout picks =>
    mtBuildDenseMTasksVerilatorContract S threadCount k (CriticalPaths.scoring S edgeCpWithout) picks
  | .chunks preserveWorkerZeroOnlyBoundary =>
    some (mtBuildDenseMTasks S preserveWorkerZeroOnlyBoundary)

/-- The MTasks under their final ids, with their workers. -/
def orderMTasks (k : DenseKnobs) (mtasks : List MtDenseMTask) : List MtDenseMTask × List Int :=
  let threadCount := max 1 k.threadCount
  if k.schedOrder ∧ mtasks.length > 1 then
    let (assign, order) := mtBuildDenseScheduleOrder mtasks threadCount k.ccdExtra
    if order.length = mtasks.length then
      (renumber mtasks order, order.map fun oldId =>
        if (mtasks.getD oldId {}).workerZeroOnly then 0 else assign oldId)
    else (mtasks, mtasks.mapIdx fun i m => if m.workerZeroOnly then 0 else (i % threadCount : ℕ))
  else (mtasks, mtasks.mapIdx fun i m => if m.workerZeroOnly then 0 else (i % threadCount : ℕ))

/-- The checks at the end. -/
def fallbackReason (G : DenseTaskGraph) (k : DenseKnobs) : FallbackReason :=
  let S := G.sccSchedule k.forwardActivationOnly
  if ¬ k.codegenEnabled then .codegenDisabled
  else if G.cycleSccCount k.forwardActivationOnly ≠ 0 then .cycleScc
  else if S.topoSccOrder.length ≠ S.sccs.length then .sccTopologyIncomplete
  else .none

/-- `none` is a failed `Assert`. -/
def buildMtDenseSchedule (G : DenseTaskGraph) (k : DenseKnobs) : Option MtDenseSchedule :=
  let S := G.sccSchedule k.forwardActivationOnly
  if k.forwardActivationOnly ∧ G.depOrder.length ≠ G.superId then none
  else
    match buildMTasks S (max 1 k.threadCount) k.builder with
    | none => none
    | some mtasks =>
      let (mtasks, mtaskThreadAssign) := orderMTasks k mtasks
      if ∀ mi < mtasks.length, ∀ s ∈ succsOf mtasks mi, mi < s then
        some ⟨S.sccs, S.topoSccOrder, mtasks, mtaskThreadAssign, fallbackReason G k⟩
      else none

end Gsim
