/-
  Gsim/PureBatchRun.lean
  ======================
  **Running a batch of pure tasks** (`mtRunPureBatch` and the shards it calls, which
  `cppEmitterMtRunners.cpp` generates; `translateInst` and `genMtTaskHelper` in
  `cppEmitterEmitCore.cpp`).

  The workers get slices of the batch.  Each has a copy of the active word and a list of
  activations of its own, and the copies and lists are merged when all are done.  The
  scan runs the flagged tasks one after the other on the word and the flags themselves.

  Lines are taken from the generated code by what they do to the nodes, and a step of a
  worker is one line.
-/
import Gsim.ActiveSinks
import Gsim.DisjointThreads
import Gsim.PureBatches
import Gsim.TaskPool

namespace Gsim.PureBatches

open ObsElision (Action InstInfo Reads)
open BranchStreams (Inst)
open ActiveMasks FlagBytes DisjointThreads

/-! ## Lines -/

/-- The nodes and the values that a task has saved of them. -/
structure LineState (V : Type) where
  env : ℕ → V
  old : ℕ → Option V

/-- The flag word of the running task after an activation. -/
def ownFlag (alwaysActive : Finset ℕ) (flags : BitVec 8) : Activation → BitVec 8
  | .next activeId curId cond => ownFlagNext alwaysActive activeId curId cond flags
  | .uncond activeId curId => ownFlagUncond alwaysActive activeId curId flags
  | .all => 0xff

namespace EmitGraph

variable {V Out : Type} (G : EmitGraph V Out)

/-- `updateNeedActivate` -/
def nextNeedActivate (n : ℕ) : Finset ℕ := (G.node n).nextActiveId.filter fun id => id ∉ G.alwaysActive

/-- What a line does to the nodes; a print is not seen in them. -/
def runAction (a : Action V Out) (st : LineState V) : LineState V :=
  match a with
  | .assign n value => { st with env := Function.update st.env n (value.eval st.env) }
  | .print _ _ => st
  | .assignBeg n =>
    if (G.node n).isLocal || (G.node n).isArray || (G.node n).type = .writer then st
    else { st with old := Function.update st.old n (some (st.env n)) }
  | .assignEnd _ => st

section Activations

variable [DecidableEq V]

/-- The `activateNext` or `activateUncondNext` of a line in the code of a task. -/
def activation (cppId : ℕ) (a : Action V Out) (st : LineState V) : Option Activation :=
  match a with
  | .assignEnd n =>
    if (G.node n).isLocal || decide (G.nextNeedActivate n = ∅) then none
    else if (G.node n).isArray || (G.node n).type = .writer then
      some (.uncond (G.node n).nextActiveId cppId)
    else if (G.node n).isAsyncReset then
      if (st.old n).any G.isTrue || decide (st.old n ≠ some (st.env n)) then some .all else none
    else some (.next (G.node n).nextActiveId cppId (decide (st.old n ≠ some (st.env n))))
  | _ => none

/-- A line under the branches that are open. -/
def runLine (st : LineState V × List Bool) (inst : InstInfo V Out) : LineState V × List Bool :=
  BranchStreams.step (fun c st => c.eval st.env) G.runAction st inst

def lineActivation (cppId : ℕ) (st : LineState V × List Bool) : InstInfo V Out → Option Activation
  | .act a => if st.2.all id then G.activation cppId a st.1 else none
  | _ => none

/-! ## The scan -/

/-- The lines of `mtTaskN` for a `SUPER_VALID`; the other kinds are in no batch. -/
def lines (cppId : ℕ) : List (InstInfo V Out) := ((G.cppId2Super cppId).map SuperNode.insts).getD []

/-- The nodes, the flag word and where other activations go. -/
@[ext]
structure TaskState (V σ : Type) where
  env : ℕ → V
  flag : BitVec 8
  active : σ

variable {σ : Type} (sink : Sink σ)

def activate (flag : BitVec 8) (active : σ) : Option Activation → BitVec 8 × σ
  | none => (flag, active)
  | some e => (ownFlag G.alwaysActive flag e, sink.activate G.alwaysActive active e)

/-- Lines of a task, one after the other. -/
def runLines (cppId : ℕ) :
    List (InstInfo V Out) → LineState V × List Bool → BitVec 8 → σ → TaskState V σ
  | [], st, flag, active => ⟨st.1.env, flag, active⟩
  | inst :: insts, st, flag, active =>
    let (flag, active) := G.activate sink flag active (G.lineActivation cppId st inst)
    runLines cppId insts (G.runLine st inst) flag active

/-- `mtTaskN` -/
def mtTask (cppId : ℕ) (s : TaskState V σ) : TaskState V σ :=
  G.runLines sink cppId (G.lines cppId) (⟨s.env, fun _ => none⟩, []) s.flag s.active

/-- A task of the scan, under its flag. -/
def scanTask (s : TaskState V σ) (cppId : ℕ) : TaskState V σ :=
  if s.flag.getLsbD (cppId % 8) then G.mtTask sink cppId s else s

/-- The flagged tasks in the order of their ids. -/
def scan (ids : List ℕ) (s : TaskState V σ) : TaskState V σ := ids.foldl (G.scanTask sink) s

/-! ## Shards -/

/-- The tasks that the `switch` of a shard has a case for. -/
def dispatched (tasks : TaskMap) (cppId : ℕ) : Bool := (tasks cppId).any fun task => task.taskKind = .pureCompute

/-- The ids that `mtRunPureBatchWorkerShard` and `mtRunPureBatchDirectShard` go through. -/
def shardIds (chunkBegin chunkEnd shard : ℕ) : List ℕ :=
  let shardBegin := shard * 256
  let shardEnd := min G.superId (shardBegin + 256)
  if chunkEnd ≤ shardBegin ∨ shardEnd ≤ chunkBegin then []
  else
    let localBegin := max chunkBegin shardBegin
    List.range' localBegin (min chunkEnd shardEnd - localBegin)

def mtPureBatchShardCount : ℕ := (G.superId + 256 - 1) / 256

/-- `mtRunPureBatchWorkerRange`; a shard that does not exist has no case. -/
def rangeIds (chunkBegin chunkEnd : ℕ) : List ℕ :=
  if chunkEnd ≤ chunkBegin then []
  else
    let firstShard := chunkBegin / 256
    let lastShard := (chunkEnd - 1) / 256
    (List.range' firstShard (lastShard + 1 - firstShard)).flatMap fun shard =>
      if shard < G.mtPureBatchShardCount then G.shardIds chunkBegin chunkEnd shard else []

/-! ## Workers -/

/-- A task that has been started. -/
structure TaskRun (V : Type) where
  pc : ℕ
  stack : List Bool
  old : ℕ → Option V

def TaskRun.start : TaskRun V := ⟨0, [], fun _ => none⟩

/-- The next line of a task. -/
def stepTask (cppId : ℕ) (run : TaskRun V) (env : ℕ → V) :
    Option (TaskRun V × (ℕ → V) × Option Activation) :=
  match (G.lines cppId)[run.pc]? with
  | none => none
  | some inst =>
    let st := (⟨env, run.old⟩, run.stack)
    let after := G.runLine st inst
    some (⟨run.pc + 1, after.2, after.1.old⟩, after.1.env, G.lineActivation cppId st inst)

structure Worker (V σ : Type) where
  todo : List ℕ
  cur : Option (ℕ × TaskRun V)
  flag : BitVec 8
  active : σ

/-- The next step of a worker: a line of its task, or the return from it, or the next id. -/
def stepWorker (tasks : TaskMap) (w : Worker V σ) (env : ℕ → V) : Option (Worker V σ × (ℕ → V)) :=
  match w.cur with
  | some (cppId, run) =>
    match G.stepTask cppId run env with
    | none => some ({ w with cur := none }, env)
    | some (run, env, e) =>
      let (flag, active) := G.activate sink w.flag w.active e
      some (⟨w.todo, some (cppId, run), flag, active⟩, env)
  | none =>
    match w.todo with
    | [] => none
    | cppId :: todo =>
      if dispatched tasks cppId && w.flag.getLsbD (cppId % 8) then
        some (⟨todo, some (cppId, .start), w.flag, w.active⟩, env)
      else some (⟨todo, none, w.flag, w.active⟩, env)

structure Pool (V σ : Type) where
  worker : ℕ → Worker V σ
  env : ℕ → V

/-- Some worker takes a step. -/
def PoolStep (tasks : TaskMap) (workerCount : ℕ) (p p' : Pool V σ) : Prop :=
  ∃ k, k < workerCount ∧ ∃ w env, G.stepWorker sink tasks (p.worker k) p.env = some (w, env) ∧
    p' = ⟨Function.update p.worker k w, env⟩

/-- The workers have gone through their ids. -/
def Pool.Joined (workerCount : ℕ) (p : Pool V σ) : Prop :=
  ∀ k, k < workerCount → (p.worker k).cur = none ∧ (p.worker k).todo = []

def Pool.start (chunk : ℕ → List ℕ) (activeWord : BitVec 8) (active : σ) (env : ℕ → V) : Pool V σ :=
  ⟨fun k => ⟨chunk k, none, activeWord, active⟩, env⟩

/-! ## The dispatcher -/

/-- What `mtRunPureBatch` makes of `mtConfiguredWorkerCount`. -/
def effectiveWorkerCount (taskCount : ℕ) (configured minBatchTasks : ℤ) : ℕ :=
  let workerCount : ℤ := if taskCount < minBatchTasks then 1 else configured
  let workerCount : ℤ := if taskCount < workerCount then taskCount else workerCount
  if workerCount < 2 then 1 else workerCount.toNat

/-- The ids of a worker. -/
def chunkIds (batch : ℕ × ℕ) (workerCount k : ℕ) : List ℕ :=
  let taskCount := batch.2 - batch.1
  G.rangeIds (batch.1 + TaskPool.cut taskCount workerCount k)
    (batch.1 + TaskPool.cut taskCount workerCount (k + 1))

/-- The workers before they are posted: the flags are copied and the lists cleared. -/
def startBatch (batch : ℕ × ℕ) (workerCount : ℕ) (activeWord : BitVec 8) (env : ℕ → V) :
    Pool V ActivationDelta :=
  .start (G.chunkIds batch workerCount) activeWord .init env

/-- The merge when all have joined. -/
def mergeWorkers (workerCount : ℕ) (p : Pool V ActivationDelta) (activeWord : BitVec 8)
    (activeFlags : ℕ → BitVec 8) : TaskState V (ℕ → BitVec 8) where
  env := p.env
  flag := (List.range workerCount).foldl (fun word k => word ||| (p.worker k).flag) activeWord
  active := (List.range workerCount).foldl
    (fun flags k => (p.worker k).active.mergeInto (activeFlagNum G.superId) flags) activeFlags

/-- A task of `mtRunPureBatchDirectShard`. -/
def directTask (tasks : TaskMap) (s : TaskState V (ℕ → BitVec 8)) (cppId : ℕ) :
    TaskState V (ℕ → BitVec 8) :=
  if dispatched tasks cppId then G.scanTask (directSink (activeFlagNum G.superId)) s cppId else s

/-- `s'` is a result of `mtRunPureBatch` for some interleaving of the workers.  A batch without
tasks has no ids either, so it has no branch of its own. -/
def RunsPureBatch (tasks : TaskMap) (batch : ℕ × ℕ) (configured minBatchTasks : ℤ)
    (s s' : TaskState V (ℕ → BitVec 8)) : Prop :=
  let workerCount := effectiveWorkerCount (batch.2 - batch.1) configured minBatchTasks
  if workerCount = 1 then s' = (G.rangeIds batch.1 batch.2).foldl (G.directTask tasks) s
  else ∃ p, Relation.ReflTransGen (G.PoolStep (deltaSink (activeFlagNum G.superId)) tasks workerCount)
      (G.startBatch batch workerCount s.flag s.env) p ∧
    p.Joined workerCount ∧ s' = G.mergeWorkers workerCount p s.flag s.active

end Activations

end EmitGraph

end Gsim.PureBatches
