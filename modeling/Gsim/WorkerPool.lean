/-
  Gsim/WorkerPool.lean
  ====================
  **The worker pool** (`mtWorkerPoolPost`, `mtWorkerPoolWaitForDone`,
  `mtWorkerPoolLoop`, `startMtWorkerPool` and `stopMtWorkerPool` in
  `cppEmitterMtRunners.cpp`).

  The payload is plain data.  A post publishes it by counting the generation up, and
  the main thread writes it again only after the join.  Each atomic access and each
  read of a payload field is a step of its own, so a worker that fell behind would
  read the next post's fields.  It cannot: a worker is at most one generation behind,
  and then it has not acknowledged (`workerPool_join`).  That is also why one bit of
  the generation is enough for the per-worker flags.
-/
import Mathlib

namespace Gsim

open Relation

/-! ## Payload -/

/-- The fields of a post; `rest` holds those that only some kinds of job read. -/
structure PoolPayload (ρ : Type) where
  currentWorkerCount : Int
  chunks : Nat → Int × Int
  jobKind : Nat
  rest : ρ

/-- A job as a worker runs it. -/
structure PoolJob (ρ : Type) where
  chunkBegin : Int
  chunkEnd : Int
  jobKind : Nat
  rest : ρ

namespace PoolPayload

variable {ρ : Type}

def job (p : PoolPayload ρ) (worker : Nat) : PoolJob ρ :=
  ⟨(p.chunks worker).1, (p.chunks worker).2, p.jobKind, p.rest⟩

/-- What a worker has to do for a post: run its job, or skip it. -/
def answer (worker : Nat) (p : PoolPayload ρ) : Option (PoolJob ρ) :=
  if (worker : Int) < p.currentWorkerCount then some (p.job worker) else none

end PoolPayload

/-! ## Workers -/

inductive PoolPc where
  | entry
  | publish
  | stopCheck
  | generationLoad
  | stopRecheck
  | workerCount
  | chunkBegin
  | chunkEnd (chunkBegin : Int)
  | jobKind (chunkBegin chunkEnd : Int)
  | job (chunkBegin chunkEnd : Int) (jobKind : Nat)
  | acknowledge
  | returned

structure PoolWorker (ρ : Type) where
  seenGeneration : UInt64
  pc : PoolPc
  /-- the jobs that it has run, with `none` for a generation that it skipped -/
  answers : List (Option (PoolJob ρ))

/-- What a step of a worker does to the shared counters. -/
inductive PoolEffect where
  | none
  | ready
  | done

/-- One step of `mtWorkerPoolLoop`. -/
def workerStep {ρ : Type} (worker : Nat) (stop : Bool) (generation : UInt64)
    (payload : PoolPayload ρ) (w : PoolWorker ρ) : PoolWorker ρ × PoolEffect :=
  match w.pc with
  | .entry => ({ w with seenGeneration := generation, pc := .publish }, .none)
  | .publish => ({ w with pc := .stopCheck }, .ready)
  | .stopCheck => ({ w with pc := if stop then .returned else .generationLoad }, .none)
  | .generationLoad =>
    if generation = w.seenGeneration then ({ w with pc := .stopCheck }, .none)
    else ({ w with seenGeneration := generation, pc := .stopRecheck }, .none)
  | .stopRecheck => ({ w with pc := if stop then .returned else .workerCount }, .none)
  | .workerCount =>
    if payload.currentWorkerCount ≤ worker then
      ({ w with pc := .acknowledge, answers := w.answers ++ [none] }, .none)
    else ({ w with pc := .chunkBegin }, .none)
  | .chunkBegin => ({ w with pc := .chunkEnd (payload.chunks worker).1 }, .none)
  | .chunkEnd b => ({ w with pc := .jobKind b (payload.chunks worker).2 }, .none)
  | .jobKind b e => ({ w with pc := .job b e payload.jobKind }, .none)
  | .job b e kind =>
    ({ w with pc := .acknowledge, answers := w.answers ++ [some ⟨b, e, kind, payload.rest⟩] },
      .none)
  | .acknowledge => ({ w with pc := .stopCheck }, .done)
  | .returned => (w, .none)

/-! ## The pool -/

/-- Where the main thread stands.  Between `post` and `waitForDone` it runs its own share. -/
inductive PoolMain where
  | starting
  | idle
  | posting
  | posted
  | waiting (expectedParity : UInt8) (worker : Nat)
  | stopping
  | joining
  | stopped

/-- `static_cast<uint8_t>(generation & 1)`. -/
def generationParity (generation : UInt64) : UInt8 := (generation &&& 1).toUInt8

structure PoolState (ρ : Type) where
  generation : UInt64
  doneCount : Nat
  doneFlags : Nat → UInt8
  readyCount : Nat
  stop : Bool
  payload : PoolPayload ρ
  main : PoolMain
  workers : Nat → PoolWorker ρ
  /-- the payloads that have been posted -/
  posts : List (PoolPayload ρ)

namespace PoolState

variable {ρ : Type}

/-- As `startMtWorkerPool` leaves it before the threads run. -/
def initial (payload : PoolPayload ρ) : PoolState ρ where
  generation := 0
  doneCount := 0
  doneFlags _ := 0
  readyCount := 0
  stop := false
  payload := payload
  main := .starting
  workers _ := ⟨0, .entry, []⟩
  posts := []

def perform (flagJoin : Bool) (s : PoolState ρ) (worker : Nat) : PoolState ρ :=
  let step := workerStep worker s.stop s.generation s.payload (s.workers worker)
  let s := { s with workers := Function.update s.workers worker step.1 }
  match step.2 with
  | .none => s
  | .ready => { s with readyCount := s.readyCount + 1 }
  | .done =>
    if flagJoin then
      { s with doneFlags :=
          Function.update s.doneFlags (worker - 1) (generationParity step.1.seenGeneration) }
    else { s with doneCount := s.doneCount + 1 }

end PoolState

/-- A step of one thread.  The pool has `threadCount` background workers, numbered from 1. -/
inductive PoolStep {ρ : Type} (threadCount : Nat) (flagJoin : Bool) (s : PoolState ρ) :
    PoolState ρ → Prop
  | work (worker : Nat) (first : 1 ≤ worker) (last : worker ≤ threadCount) :
      PoolStep threadCount flagJoin s (s.perform flagJoin worker)
  | started (h : s.main = .starting) (ready : threadCount ≤ s.readyCount) :
      PoolStep threadCount flagJoin s { s with main := .idle }
  | write (payload : PoolPayload ρ) (h : s.main = .idle) :
      PoolStep threadCount flagJoin s { s with payload := payload }
  | clear (h : s.main = .idle) :
      PoolStep threadCount flagJoin s
        { s with main := .posting, doneCount := if flagJoin then s.doneCount else 0 }
  | post (h : s.main = .posting) :
      PoolStep threadCount flagJoin s
        { s with main := .posted, generation := s.generation + 1, posts := s.posts ++ [s.payload] }
  | wait (h : s.main = .posted) :
      PoolStep threadCount flagJoin s
        { s with main := .waiting (generationParity s.generation) 0 }
  | flag (parity : UInt8) (worker : Nat) (h : s.main = .waiting parity worker)
      (join : flagJoin = true) (lt : worker < threadCount) :
      PoolStep threadCount flagJoin s
        { s with main := .waiting parity (if s.doneFlags worker = parity then worker + 1 else 0) }
  | allDone (parity : UInt8) (worker : Nat) (h : s.main = .waiting parity worker)
      (join : flagJoin = true) (le : threadCount ≤ worker) :
      PoolStep threadCount flagJoin s { s with main := .idle }
  | counted (parity : UInt8) (worker : Nat) (h : s.main = .waiting parity worker)
      (join : flagJoin = false) (le : threadCount ≤ s.doneCount) :
      PoolStep threadCount flagJoin s { s with main := .idle }
  | stop (h : s.main = .idle) :
      PoolStep threadCount flagJoin s { s with main := .stopping, stop := true }
  | wake (h : s.main = .stopping) :
      PoolStep threadCount flagJoin s
        { s with main := .joining, generation := s.generation + 1 }
  | joined (h : s.main = .joining)
      (all : ∀ worker, 1 ≤ worker → worker ≤ threadCount → (s.workers worker).pc = .returned) :
      PoolStep threadCount flagJoin s { s with main := .stopped }

/-- Between a post and the return of `mtWorkerPoolWaitForDone`. -/
def PoolMain.busy : PoolMain → Prop
  | .posted | .waiting _ _ => True
  | _ => False

/-- Every worker answers the posts in order, each once and with the post's own payload; the join
returns only when all have answered, and it can always return. -/
structure PoolJoins {ρ : Type} (threadCount : Nat) (flagJoin : Bool) (s : PoolState ρ) : Prop where
  once : ∀ worker, 1 ≤ worker → worker ≤ threadCount →
    (s.workers worker).answers <+: s.posts.map (PoolPayload.answer worker)
  joined : s.main = .idle → ∀ worker, 1 ≤ worker → worker ≤ threadCount →
    (s.workers worker).answers = s.posts.map (PoolPayload.answer worker)
  returns : s.main.busy → ∃ s', ReflTransGen (PoolStep threadCount flagJoin) s s' ∧
    s'.main = .idle ∧ s'.posts = s.posts

/-! ## Where a worker stands -/

section Workers

variable {ρ : Type}

/-- It has acknowledged the last post. -/
structure WorkerDone (generation : UInt64) (posts : List (PoolPayload ρ)) (worker : Nat)
    (w : PoolWorker ρ) : Prop where
  seen : w.seenGeneration = generation
  spins : w.pc = .stopCheck ∨ w.pc = .generationLoad
  answers : w.answers = posts.map (PoolPayload.answer worker)

/-- It has the last post, `payload`, still to acknowledge. -/
def WorkerPending (generation : UInt64) (payload : PoolPayload ρ)
    (earlier : List (PoolPayload ρ)) (worker : Nat) (w : PoolWorker ρ) : Prop :=
  let answered := w.answers = earlier.map (PoolPayload.answer worker)
  let active := (worker : Int) < payload.currentWorkerCount
  match w.pc with
  | .stopCheck | .generationLoad => w.seenGeneration + 1 = generation ∧ answered
  | .stopRecheck | .workerCount => w.seenGeneration = generation ∧ answered
  | .chunkBegin => w.seenGeneration = generation ∧ answered ∧ active
  | .chunkEnd b => w.seenGeneration = generation ∧ answered ∧ active ∧
      b = (payload.job worker).chunkBegin
  | .jobKind b e => w.seenGeneration = generation ∧ answered ∧ active ∧
      b = (payload.job worker).chunkBegin ∧ e = (payload.job worker).chunkEnd
  | .job b e kind => w.seenGeneration = generation ∧ answered ∧ active ∧
      b = (payload.job worker).chunkBegin ∧ e = (payload.job worker).chunkEnd ∧ kind = payload.jobKind
  | .acknowledge => w.seenGeneration = generation ∧
      w.answers = (earlier ++ [payload]).map (PoolPayload.answer worker)
  | _ => False

/-- How far a pending worker is from its acknowledgement. -/
def PoolPc.distance : PoolPc → Nat
  | .stopCheck => 9
  | .generationLoad => 8
  | .stopRecheck => 7
  | .workerCount => 6
  | .chunkBegin => 5
  | .chunkEnd _ => 4
  | .jobKind _ _ => 3
  | .job _ _ _ => 2
  | .acknowledge => 1
  | _ => 0

variable {generation : UInt64} {payload : PoolPayload ρ} {posts earlier : List (PoolPayload ρ)}
  {worker : Nat} {w : PoolWorker ρ}

theorem WorkerDone.step (payload : PoolPayload ρ) (h : WorkerDone generation posts worker w) :
    (workerStep worker false generation payload w).2 = .none ∧
      WorkerDone generation posts worker (workerStep worker false generation payload w).1 := by
  obtain ⟨seen, spins, answers⟩ := h
  rcases spins with hpc | hpc
  · simp only [workerStep, hpc]
    exact ⟨trivial, seen, .inr rfl, answers⟩
  · simp only [workerStep, hpc, seen, if_true]
    exact ⟨trivial, rfl, .inl rfl, answers⟩

/-- A pending worker comes closer to its acknowledgement with every step. -/
theorem WorkerPending.step (h : WorkerPending generation payload earlier worker w) :
    ((workerStep worker false generation payload w).2 = .none ∧
      WorkerPending generation payload earlier worker
        (workerStep worker false generation payload w).1 ∧
      (workerStep worker false generation payload w).1.pc.distance < w.pc.distance) ∨
    ((workerStep worker false generation payload w).2 = .done ∧
      WorkerDone generation (earlier ++ [payload]) worker
        (workerStep worker false generation payload w).1) := by
  obtain ⟨seen, pc, answers⟩ := w
  cases pc with
  | entry => exact h.elim
  | publish => exact h.elim
  | returned => exact h.elim
  | stopCheck => exact .inl ⟨rfl, h, by simp [workerStep, PoolPc.distance]⟩
  | generationLoad =>
    obtain ⟨behind, answered⟩ := h
    have new : generation ≠ seen := by
      rintro rfl
      simp at behind
    simp only [workerStep, if_neg new]
    exact .inl ⟨trivial, ⟨rfl, answered⟩, by simp [PoolPc.distance]⟩
  | stopRecheck => exact .inl ⟨rfl, h, by simp [workerStep, PoolPc.distance]⟩
  | workerCount =>
    obtain ⟨same, answered⟩ := h
    by_cases skips : payload.currentWorkerCount ≤ worker
    · simp only [workerStep, if_pos skips]
      refine .inl ⟨trivial, ⟨same, ?_⟩, by simp [PoolPc.distance]⟩
      have none : PoolPayload.answer worker payload = none := if_neg (not_lt.mpr skips)
      simp only [List.map_append, List.map_cons, List.map_nil, none]
      rw [← answered]
    · simp only [workerStep, if_neg skips]
      exact .inl ⟨trivial, ⟨same, answered, not_le.mp skips⟩, by simp [PoolPc.distance]⟩
  | chunkBegin =>
    obtain ⟨same, answered, active⟩ := h
    exact .inl ⟨rfl, ⟨same, answered, active, rfl⟩, by simp [workerStep, PoolPc.distance]⟩
  | chunkEnd b =>
    obtain ⟨same, answered, active, hb⟩ := h
    exact .inl ⟨rfl, ⟨same, answered, active, hb, rfl⟩, by simp [workerStep, PoolPc.distance]⟩
  | jobKind b e =>
    obtain ⟨same, answered, active, hb, he⟩ := h
    exact .inl ⟨rfl, ⟨same, answered, active, hb, he, rfl⟩, by simp [workerStep, PoolPc.distance]⟩
  | job b e kind =>
    obtain ⟨same, answered, active, rfl, rfl, rfl⟩ := h
    refine .inl ⟨rfl, ⟨same, ?_⟩, by simp [workerStep, PoolPc.distance]⟩
    have runs : PoolPayload.answer worker payload = some (payload.job worker) := if_pos active
    simp only [workerStep, List.map_append, List.map_cons, List.map_nil, runs]
    rw [← answered]
    rfl
  | acknowledge =>
    obtain ⟨same, answered⟩ := h
    exact .inr ⟨rfl, same, .inl rfl, answered⟩

/-- A post puts every worker that is done one generation behind. -/
theorem WorkerDone.behind (h : WorkerDone generation posts worker w) :
    WorkerPending (generation + 1) payload posts worker w := by
  obtain ⟨seen, spins, answers⟩ := h
  unfold WorkerPending
  rcases spins with hpc | hpc
  · simp only [hpc]
    exact ⟨by rw [seen], answers⟩
  · simp only [hpc]
    exact ⟨by rw [seen], answers⟩

theorem WorkerPending.answers_isPrefix (h : WorkerPending generation payload earlier worker w) :
    w.answers <+: (earlier ++ [payload]).map (PoolPayload.answer worker) := by
  have early : w.answers = earlier.map (PoolPayload.answer worker) →
      w.answers <+: (earlier ++ [payload]).map (PoolPayload.answer worker) := by
    intro eq
    rw [eq, List.map_append]
    exact List.prefix_append _ _
  unfold WorkerPending at h
  split at h
  · exact early h.2
  · exact early h.2
  · exact early h.2
  · exact early h.2
  · exact early h.2.1
  · exact early h.2.1
  · exact early h.2.1
  · exact early h.2.1
  · rw [h.2]
  · exact h.elim

/-- A waking worker sees one bit of the generation change. -/
theorem generationParity_succ (generation : UInt64) :
    generationParity (generation + 1) ≠ generationParity generation := by
  unfold generationParity
  intro eq
  have nat := congrArg UInt8.toNat eq
  simp only [UInt64.toNat_toUInt8, UInt64.toNat_and, UInt64.toNat_add, UInt64.toNat_one,
    Nat.and_one_is_mod] at nat
  omega

end Workers

/-! ## The invariant -/

section Invariant

variable {ρ : Type} {threadCount : Nat} {flagJoin : Bool}

/-- While `startMtWorkerPool` waits, the workers in `up` have published that they are ready. -/
structure PoolStarting (threadCount : Nat) (s : PoolState ρ) (up : Finset Nat) : Prop where
  stop : s.stop = false
  posts : s.posts = []
  sub : up ⊆ Finset.Icc 1 threadCount
  done : ∀ worker ∈ up, WorkerDone s.generation s.posts worker (s.workers worker)
  entering : ∀ worker ∈ Finset.Icc 1 threadCount, worker ∉ up →
    (s.workers worker).answers = [] ∧ ((s.workers worker).pc = .entry ∨
      (s.workers worker).pc = .publish ∧ (s.workers worker).seenGeneration = s.generation)
  flags : ∀ worker ∈ Finset.Icc 1 threadCount,
    s.doneFlags (worker - 1) = generationParity s.generation
  ready : s.readyCount = up.card

/-- Between two jobs. -/
structure PoolQuiet (threadCount : Nat) (flagJoin : Bool) (s : PoolState ρ) : Prop where
  stop : s.stop = false
  done : ∀ worker ∈ Finset.Icc 1 threadCount,
    WorkerDone s.generation s.posts worker (s.workers worker)
  flags : flagJoin = true → ∀ worker ∈ Finset.Icc 1 threadCount,
    s.doneFlags (worker - 1) = generationParity s.generation

/-- During a job, with those in `acked` done. -/
structure PoolWorking (threadCount : Nat) (flagJoin : Bool) (s : PoolState ρ)
    (earlier : List (PoolPayload ρ)) (acked : Finset Nat) : Prop where
  stop : s.stop = false
  posts : s.posts = earlier ++ [s.payload]
  sub : acked ⊆ Finset.Icc 1 threadCount
  done : ∀ worker ∈ acked, WorkerDone s.generation s.posts worker (s.workers worker)
  pending : ∀ worker ∈ Finset.Icc 1 threadCount, worker ∉ acked →
    WorkerPending s.generation s.payload earlier worker (s.workers worker)
  flags : flagJoin = true → ∀ worker ∈ Finset.Icc 1 threadCount,
    (s.doneFlags (worker - 1) = generationParity s.generation ↔ worker ∈ acked)
  count : flagJoin = false → s.doneCount = acked.card
  scanned : flagJoin = true → ∀ parity i, s.main = .waiting parity i →
    parity = generationParity s.generation ∧ ∀ j < i, j + 1 ∈ acked

/-- No worker takes the generation that wakes it for the end for a post. -/
structure PoolHalting (threadCount : Nat) (s : PoolState ρ) : Prop where
  stop : s.stop = true
  answers : ∀ worker ∈ Finset.Icc 1 threadCount,
    (s.workers worker).answers = s.posts.map (PoolPayload.answer worker)
  pc : ∀ worker ∈ Finset.Icc 1 threadCount, (s.workers worker).pc = .stopCheck ∨
    (s.workers worker).pc = .generationLoad ∨ (s.workers worker).pc = .stopRecheck ∨
    (s.workers worker).pc = .returned

def WorkerPoolInv (threadCount : Nat) (flagJoin : Bool) (s : PoolState ρ) : Prop :=
  match s.main with
  | .starting => ∃ up, PoolStarting threadCount s up
  | .idle => PoolQuiet threadCount flagJoin s
  | .posting => PoolQuiet threadCount flagJoin s ∧ (flagJoin = false → s.doneCount = 0)
  | .posted | .waiting _ _ => ∃ earlier acked, PoolWorking threadCount flagJoin s earlier acked
  | .stopping | .joining | .stopped => PoolHalting threadCount s

theorem WorkerPoolInv.initial (payload : PoolPayload ρ) :
    WorkerPoolInv threadCount flagJoin (PoolState.initial payload) := by
  refine ⟨∅, rfl, rfl, Finset.empty_subset _, ?_, ?_, ?_, rfl⟩
  · intro worker h
    exact absurd h (Finset.notMem_empty _)
  · intro worker _ _
    exact ⟨rfl, .inl rfl⟩
  · intro worker _
    simp [PoolState.initial, generationParity]

/-! ## Steps of the workers -/

variable {s : PoolState ρ} {worker : Nat}

/-- A step without an effect on the shared counters. -/
theorem PoolState.perform_none
    (h : (workerStep worker s.stop s.generation s.payload (s.workers worker)).2 = .none) :
    s.perform flagJoin worker =
      { s with
        workers := Function.update s.workers worker
          (workerStep worker s.stop s.generation s.payload (s.workers worker)).1 } := by
  unfold PoolState.perform
  simp only [h]

theorem PoolState.perform_main (flagJoin : Bool) (s : PoolState ρ) (worker : Nat) :
    (s.perform flagJoin worker).main = s.main := by
  unfold PoolState.perform
  dsimp only
  split
  · rfl
  · rfl
  · split <;> rfl

theorem PoolState.perform_posts (flagJoin : Bool) (s : PoolState ρ) (worker : Nat) :
    (s.perform flagJoin worker).posts = s.posts := by
  unfold PoolState.perform
  dsimp only
  split
  · rfl
  · rfl
  · split <;> rfl

theorem PoolQuiet.work (inv : PoolQuiet threadCount flagJoin s)
    (hw : worker ∈ Finset.Icc 1 threadCount) :
    PoolQuiet threadCount flagJoin (s.perform flagJoin worker) ∧
      (s.perform flagJoin worker).doneCount = s.doneCount := by
  have step := (inv.done worker hw).step s.payload
  rw [← inv.stop] at step
  rw [PoolState.perform_none step.1]
  refine ⟨⟨inv.stop, ?_, inv.flags⟩, rfl⟩
  intro other hother
  by_cases eq : other = worker
  · subst eq
    simp only [Function.update_self]
    exact step.2
  · simp only [Function.update_of_ne eq]
    exact inv.done other hother

theorem PoolHalting.work (inv : PoolHalting threadCount s)
    (hw : worker ∈ Finset.Icc 1 threadCount) :
    PoolHalting threadCount (s.perform flagJoin worker) := by
  have step : (workerStep worker s.stop s.generation s.payload (s.workers worker)).2 = .none ∧
      (workerStep worker s.stop s.generation s.payload (s.workers worker)).1.answers =
        (s.workers worker).answers ∧
      ((workerStep worker s.stop s.generation s.payload (s.workers worker)).1.pc = .stopCheck ∨
        (workerStep worker s.stop s.generation s.payload (s.workers worker)).1.pc =
          .generationLoad ∨
        (workerStep worker s.stop s.generation s.payload (s.workers worker)).1.pc = .stopRecheck ∨
        (workerStep worker s.stop s.generation s.payload (s.workers worker)).1.pc = .returned) := by
    rw [inv.stop]
    rcases inv.pc worker hw with hpc | hpc | hpc | hpc
    · simp [workerStep, hpc]
    · simp only [workerStep, hpc]
      split
      · simp
      · simp
    · simp [workerStep, hpc]
    · simp [workerStep, hpc]
  obtain ⟨none, answers, pc⟩ := step
  rw [PoolState.perform_none none]
  refine ⟨inv.stop, ?_, ?_⟩
  · intro other hother
    by_cases eq : other = worker
    · subst eq
      simp only [Function.update_self]
      rw [answers]
      exact inv.answers other hother
    · simp only [Function.update_of_ne eq]
      exact inv.answers other hother
  · intro other hother
    by_cases eq : other = worker
    · subst eq
      simp only [Function.update_self]
      exact pc
    · simp only [Function.update_of_ne eq]
      exact inv.pc other hother

theorem PoolStarting.work {up : Finset Nat} (inv : PoolStarting threadCount s up)
    (hw : worker ∈ Finset.Icc 1 threadCount) :
    ∃ up, PoolStarting threadCount (s.perform flagJoin worker) up := by
  by_cases mem : worker ∈ up
  · have step := (inv.done worker mem).step s.payload
    rw [← inv.stop] at step
    rw [PoolState.perform_none step.1]
    refine ⟨up, inv.stop, inv.posts, inv.sub, ?_, ?_, inv.flags, inv.ready⟩
    · intro other hother
      by_cases eq : other = worker
      · subst eq
        simp only [Function.update_self]
        exact step.2
      · simp only [Function.update_of_ne eq]
        exact inv.done other hother
    · intro other hother out
      have eq : other ≠ worker := fun eq => out (eq ▸ mem)
      simp only [Function.update_of_ne eq]
      exact inv.entering other hother out
  · obtain ⟨answers, hpc | ⟨hpc, seen⟩⟩ := inv.entering worker hw mem
    · -- the baseline generation is captured
      have none : (workerStep worker s.stop s.generation s.payload (s.workers worker)).2 =
          .none := by
        simp [workerStep, hpc]
      rw [PoolState.perform_none none]
      refine ⟨up, inv.stop, inv.posts, inv.sub, ?_, ?_, inv.flags, inv.ready⟩
      · intro other hother
        have eq : other ≠ worker := fun eq => mem (eq ▸ hother)
        simp only [Function.update_of_ne eq]
        exact inv.done other hother
      · intro other hother out
        by_cases eq : other = worker
        · subst eq
          simp only [Function.update_self, workerStep, hpc]
          exact ⟨answers, .inr ⟨trivial, trivial⟩⟩
        · simp only [Function.update_of_ne eq]
          exact inv.entering other hother out
    · -- and published
      have eq : s.perform flagJoin worker =
          { s with
            workers := Function.update s.workers worker { s.workers worker with pc := .stopCheck }
            readyCount := s.readyCount + 1 } := by
        simp [PoolState.perform, workerStep, hpc]
      rw [eq]
      refine ⟨insert worker up, inv.stop, inv.posts, ?_, ?_, ?_, inv.flags, ?_⟩
      · exact Finset.insert_subset hw inv.sub
      · intro other hother
        by_cases eq : other = worker
        · subst eq
          simp only [Function.update_self]
          exact ⟨seen, .inl rfl, by rw [answers, inv.posts]; rfl⟩
        · simp only [Function.update_of_ne eq]
          exact inv.done other ((Finset.mem_insert.mp hother).resolve_left eq)
      · intro other hother out
        have eq : other ≠ worker := fun eq => out (eq ▸ Finset.mem_insert_self _ _)
        simp only [Function.update_of_ne eq]
        exact inv.entering other hother fun h => out (Finset.mem_insert_of_mem h)
      · rw [Finset.card_insert_of_notMem mem, inv.ready]

/-- A worker that is done spins; another one comes closer, or acknowledges. -/
theorem PoolWorking.work {earlier : List (PoolPayload ρ)} {acked : Finset Nat}
    (inv : PoolWorking threadCount flagJoin s earlier acked)
    (hw : worker ∈ Finset.Icc 1 threadCount) :
    (PoolWorking threadCount flagJoin (s.perform flagJoin worker) earlier acked ∧
      (worker ∉ acked →
        ((s.perform flagJoin worker).workers worker).pc.distance <
          (s.workers worker).pc.distance)) ∨
    (worker ∉ acked ∧
      PoolWorking threadCount flagJoin (s.perform flagJoin worker) earlier
        (insert worker acked)) := by
  by_cases mem : worker ∈ acked
  · have step := (inv.done worker mem).step s.payload
    rw [← inv.stop] at step
    rw [PoolState.perform_none step.1]
    refine .inl ⟨⟨inv.stop, inv.posts, inv.sub, ?_, ?_, inv.flags, inv.count, inv.scanned⟩,
      fun out => absurd mem out⟩
    · intro other hother
      by_cases eq : other = worker
      · subst eq
        simp only [Function.update_self]
        exact step.2
      · simp only [Function.update_of_ne eq]
        exact inv.done other hother
    · intro other hother out
      have eq : other ≠ worker := fun eq => out (eq ▸ mem)
      simp only [Function.update_of_ne eq]
      exact inv.pending other hother out
  · have step := (inv.pending worker hw mem).step
    rw [← inv.stop] at step
    rcases step with ⟨none, pending, closer⟩ | ⟨done, isDone⟩
    · rw [PoolState.perform_none none]
      refine .inl ⟨⟨inv.stop, inv.posts, inv.sub, ?_, ?_, inv.flags, inv.count, inv.scanned⟩,
        fun _ => ?_⟩
      · intro other hother
        have eq : other ≠ worker := fun eq => mem (eq ▸ hother)
        simp only [Function.update_of_ne eq]
        exact inv.done other hother
      · intro other hother out
        by_cases eq : other = worker
        · subst eq
          simp only [Function.update_self]
          exact pending
        · simp only [Function.update_of_ne eq]
          exact inv.pending other hother out
      · simp only [Function.update_self]
        exact closer
    · refine .inr ⟨mem, ?_⟩
      rw [← inv.posts] at isDone
      have kept : (s.perform flagJoin worker).stop = s.stop ∧
          (s.perform flagJoin worker).payload = s.payload ∧
          (s.perform flagJoin worker).generation = s.generation ∧
          (s.perform flagJoin worker).workers = Function.update s.workers worker
            (workerStep worker s.stop s.generation s.payload (s.workers worker)).1 := by
        unfold PoolState.perform
        simp only [done]
        split <;> exact ⟨rfl, rfl, rfl, rfl⟩
      obtain ⟨stop, payload, generation, workers⟩ := kept
      have posts := PoolState.perform_posts flagJoin s worker
      have main := PoolState.perform_main flagJoin s worker
      refine ⟨by rw [stop, inv.stop], by rw [posts, payload, inv.posts],
        Finset.insert_subset hw inv.sub, ?_, ?_, ?_, ?_, ?_⟩
      · intro other hother
        rw [workers, generation, posts]
        by_cases eq : other = worker
        · subst eq
          rw [Function.update_self]
          exact isDone
        · rw [Function.update_of_ne eq]
          exact inv.done other ((Finset.mem_insert.mp hother).resolve_left eq)
      · intro other hother out
        have eq : other ≠ worker := fun eq => out (eq ▸ Finset.mem_insert_self _ _)
        rw [workers, generation, payload, Function.update_of_ne eq]
        exact inv.pending other hother fun h => out (Finset.mem_insert_of_mem h)
      · intro join other hother
        rw [generation]
        have flags : (s.perform flagJoin worker).doneFlags =
            Function.update s.doneFlags (worker - 1) (generationParity s.generation) := by
          unfold PoolState.perform
          simp only [done, join, if_true]
          rw [isDone.seen]
        rw [flags]
        by_cases eq : other = worker
        · subst eq
          simp
        · have ne : other - 1 ≠ worker - 1 := by
            have := (Finset.mem_Icc.mp hother).1
            have := (Finset.mem_Icc.mp hw).1
            omega
          rw [Function.update_of_ne ne, inv.flags join other hother, Finset.mem_insert]
          exact ⟨.inr, fun h => h.resolve_left eq⟩
      · intro join
        have count : (s.perform flagJoin worker).doneCount = s.doneCount + 1 := by
          unfold PoolState.perform
          simp [done, join]
        rw [count, inv.count join, Finset.card_insert_of_notMem mem]
      · intro join parity i waiting
        rw [main] at waiting
        obtain ⟨eq, scanned⟩ := inv.scanned join parity i waiting
        rw [generation]
        exact ⟨eq, fun j hj => Finset.mem_insert_of_mem (scanned j hj)⟩

/-! ## Steps of the main thread -/

theorem PoolQuiet.post (inv : PoolQuiet threadCount flagJoin s)
    (count : flagJoin = false → s.doneCount = 0) :
    PoolWorking threadCount flagJoin
      { s with main := .posted, generation := s.generation + 1, posts := s.posts ++ [s.payload] }
      s.posts ∅ := by
  refine ⟨inv.stop, rfl, Finset.empty_subset _, ?_, ?_, ?_, ?_, ?_⟩
  · intro worker h
    exact absurd h (Finset.notMem_empty _)
  · intro worker hw _
    exact (inv.done worker hw).behind
  · intro join worker hw
    have ne : s.doneFlags (worker - 1) ≠ generationParity (s.generation + 1) := by
      rw [inv.flags join worker hw]
      exact (generationParity_succ s.generation).symm
    exact ⟨fun h => absurd h ne, fun h => absurd h (Finset.notMem_empty _)⟩
  · intro join
    exact count join
  · intro _ _ _ h
    cases h

theorem PoolWorking.quiet {earlier : List (PoolPayload ρ)} {acked : Finset Nat}
    (inv : PoolWorking threadCount flagJoin s earlier acked)
    (all : Finset.Icc 1 threadCount ⊆ acked) :
    PoolQuiet threadCount flagJoin { s with main := .idle } := by
  refine ⟨inv.stop, ?_, ?_⟩
  · intro worker hw
    exact inv.done worker (all hw)
  · intro join worker hw
    exact (inv.flags join worker hw).mpr (all hw)

/-- As many as the pool has. -/
theorem all_workers_of_card {acked : Finset Nat} (sub : acked ⊆ Finset.Icc 1 threadCount)
    (card : threadCount ≤ acked.card) : Finset.Icc 1 threadCount ⊆ acked := by
  have eq : acked = Finset.Icc 1 threadCount := by
    refine Finset.eq_of_subset_of_card_le sub ?_
    rwa [Nat.card_Icc, Nat.add_sub_cancel]
  rw [eq]

theorem PoolQuiet.halting (inv : PoolQuiet threadCount flagJoin s) :
    PoolHalting threadCount { s with main := .stopping, stop := true } := by
  refine ⟨rfl, ?_, ?_⟩
  · intro worker hw
    exact (inv.done worker hw).answers
  · intro worker hw
    rcases (inv.done worker hw).spins with h | h
    · exact .inl h
    · exact .inr (.inl h)

theorem WorkerPoolInv.step {s' : PoolState ρ} (inv : WorkerPoolInv threadCount flagJoin s)
    (h : PoolStep threadCount flagJoin s s') : WorkerPoolInv threadCount flagJoin s' := by
  cases h with
  | work worker first last =>
    have hw : worker ∈ Finset.Icc 1 threadCount := Finset.mem_Icc.mpr ⟨first, last⟩
    unfold WorkerPoolInv at inv ⊢
    rw [PoolState.perform_main]
    cases hmain : s.main with
    | starting =>
      rw [hmain] at inv
      obtain ⟨up, inv⟩ := inv
      exact inv.work hw
    | idle =>
      rw [hmain] at inv
      exact (PoolQuiet.work inv hw).1
    | posting =>
      rw [hmain] at inv
      obtain ⟨quiet, count⟩ := PoolQuiet.work inv.1 hw
      exact ⟨quiet, fun join => by rw [count]; exact inv.2 join⟩
    | posted =>
      rw [hmain] at inv
      obtain ⟨earlier, acked, inv⟩ := inv
      rcases inv.work hw with ⟨inv, _⟩ | ⟨_, inv⟩
      · exact ⟨earlier, acked, inv⟩
      · exact ⟨earlier, _, inv⟩
    | waiting parity i =>
      rw [hmain] at inv
      obtain ⟨earlier, acked, inv⟩ := inv
      rcases inv.work hw with ⟨inv, _⟩ | ⟨_, inv⟩
      · exact ⟨earlier, acked, inv⟩
      · exact ⟨earlier, _, inv⟩
    | stopping =>
      rw [hmain] at inv
      exact PoolHalting.work inv hw
    | joining =>
      rw [hmain] at inv
      exact PoolHalting.work inv hw
    | stopped =>
      rw [hmain] at inv
      exact PoolHalting.work inv hw
  | started h ready =>
    unfold WorkerPoolInv at inv
    rw [h] at inv
    obtain ⟨up, inv⟩ := inv
    have all := all_workers_of_card inv.sub (by rw [← inv.ready]; exact ready)
    exact ⟨inv.stop, fun worker hw => inv.done worker (all hw), fun _ => inv.flags⟩
  | write payload h =>
    unfold WorkerPoolInv at inv ⊢
    rw [h] at inv
    simp only [h]
    exact ⟨inv.stop, inv.done, inv.flags⟩
  | clear h =>
    unfold WorkerPoolInv at inv
    rw [h] at inv
    refine ⟨⟨inv.stop, inv.done, inv.flags⟩, ?_⟩
    rintro rfl
    rfl
  | post h =>
    unfold WorkerPoolInv at inv
    rw [h] at inv
    exact ⟨s.posts, ∅, inv.1.post inv.2⟩
  | wait h =>
    unfold WorkerPoolInv at inv
    rw [h] at inv
    obtain ⟨earlier, acked, inv⟩ := inv
    refine ⟨earlier, acked, inv.stop, inv.posts, inv.sub, inv.done, inv.pending, inv.flags,
      inv.count, ?_⟩
    intro _ parity i eq
    cases eq
    exact ⟨rfl, fun j hj => absurd hj (Nat.not_lt_zero j)⟩
  | flag parity i h join lt =>
    unfold WorkerPoolInv at inv
    rw [h] at inv
    obtain ⟨earlier, acked, inv⟩ := inv
    refine ⟨earlier, acked, inv.stop, inv.posts, inv.sub, inv.done, inv.pending, inv.flags,
      inv.count, ?_⟩
    intro _ parity' i' eq
    obtain ⟨eqParity, scanned⟩ := inv.scanned join parity i h
    injection eq with eqP eqI
    subst eqP
    refine ⟨eqParity, fun j hj => ?_⟩
    rw [← eqI] at hj
    split at hj
    · rename_i set
      rcases Nat.lt_succ_iff_lt_or_eq.mp hj with hj | rfl
      · exact scanned j hj
      · rw [eqParity] at set
        exact (inv.flags join (j + 1) (Finset.mem_Icc.mpr ⟨by omega, by omega⟩)).mp set
    · exact absurd hj (Nat.not_lt_zero j)
  | allDone parity i h join le =>
    unfold WorkerPoolInv at inv
    rw [h] at inv
    obtain ⟨earlier, acked, inv⟩ := inv
    refine inv.quiet fun worker hw => ?_
    obtain ⟨first, last⟩ := Finset.mem_Icc.mp hw
    have mem := (inv.scanned join parity i h).2 (worker - 1) (by omega)
    rwa [Nat.sub_add_cancel first] at mem
  | counted parity i h join le =>
    unfold WorkerPoolInv at inv
    rw [h] at inv
    obtain ⟨earlier, acked, inv⟩ := inv
    refine inv.quiet (all_workers_of_card inv.sub ?_)
    rw [← inv.count join]
    exact le
  | stop h =>
    unfold WorkerPoolInv at inv
    rw [h] at inv
    exact PoolQuiet.halting inv
  | wake h =>
    unfold WorkerPoolInv at inv
    rw [h] at inv
    exact ⟨inv.stop, inv.answers, inv.pc⟩
  | joined h all =>
    unfold WorkerPoolInv at inv
    rw [h] at inv
    exact ⟨inv.stop, inv.answers, inv.pc⟩

/-! ## The join returns -/

/-- A pending worker reaches its acknowledgement on its own. -/
theorem PoolWorking.acknowledges {earlier : List (PoolPayload ρ)} {acked : Finset Nat}
    (hw : worker ∈ Finset.Icc 1 threadCount) (out : worker ∉ acked) (distance : Nat) :
    ∀ s : PoolState ρ, (s.workers worker).pc.distance ≤ distance →
      PoolWorking threadCount flagJoin s earlier acked →
      ∃ s', ReflTransGen (PoolStep threadCount flagJoin) s s' ∧
        PoolWorking threadCount flagJoin s' earlier (insert worker acked) ∧
        s'.main = s.main ∧ s'.posts = s.posts := by
  obtain ⟨first, last⟩ := Finset.mem_Icc.mp hw
  induction distance with
  | zero =>
    intro s le inv
    rcases inv.work hw with ⟨_, closer⟩ | ⟨_, inv⟩
    · have := closer out
      omega
    · exact ⟨_, .single (.work worker first last), inv, PoolState.perform_main _ _ _,
        PoolState.perform_posts _ _ _⟩
  | succ distance ih =>
    intro s le inv
    rcases inv.work hw with ⟨inv, closer⟩ | ⟨_, inv⟩
    · have lt := closer out
      obtain ⟨s', run, inv, main, posts⟩ := ih (s.perform flagJoin worker) (by omega) inv
      exact ⟨s', .head (.work worker first last) run, inv, main.trans (PoolState.perform_main _ _ _),
        posts.trans (PoolState.perform_posts _ _ _)⟩
    · exact ⟨_, .single (.work worker first last), inv, PoolState.perform_main _ _ _,
        PoolState.perform_posts _ _ _⟩

theorem PoolWorking.all_acknowledge {earlier : List (PoolPayload ρ)} (missing : Nat) :
    ∀ (s : PoolState ρ) (acked : Finset Nat), threadCount ≤ acked.card + missing →
      PoolWorking threadCount flagJoin s earlier acked →
      ∃ s', ReflTransGen (PoolStep threadCount flagJoin) s s' ∧
        PoolWorking threadCount flagJoin s' earlier (Finset.Icc 1 threadCount) ∧
        s'.main = s.main ∧ s'.posts = s.posts := by
  induction missing with
  | zero =>
    intro s acked card inv
    have eq := inv.sub.antisymm (all_workers_of_card inv.sub card)
    exact ⟨s, .refl, eq ▸ inv, rfl, rfl⟩
  | succ missing ih =>
    intro s acked card inv
    by_cases all : Finset.Icc 1 threadCount ⊆ acked
    · exact ⟨s, .refl, inv.sub.antisymm all ▸ inv, rfl, rfl⟩
    · obtain ⟨worker, hw, out⟩ := Finset.not_subset.mp all
      obtain ⟨s₁, run₁, inv₁, main₁, posts₁⟩ := PoolWorking.acknowledges hw out _ s le_rfl inv
      obtain ⟨s₂, run₂, inv₂, main₂, posts₂⟩ := ih s₁ (insert worker acked)
        (by rw [Finset.card_insert_of_notMem out]; omega) inv₁
      exact ⟨s₂, run₁.trans run₂, inv₂, main₂.trans main₁, posts₂.trans posts₁⟩

/-- With all flags set, the scan runs through. -/
theorem scan_returns (join : flagJoin = true) (parity : UInt8) (left : Nat) :
    ∀ (s : PoolState ρ) (i : Nat), s.main = .waiting parity i → threadCount ≤ i + left →
      (∀ j < threadCount, s.doneFlags j = parity) →
      ∃ s', ReflTransGen (PoolStep threadCount flagJoin) s s' ∧ s'.main = .idle ∧
        s'.posts = s.posts := by
  induction left with
  | zero =>
    intro s i h le _
    exact ⟨_, .single (.allDone parity i h join le), rfl, rfl⟩
  | succ left ih =>
    intro s i h le flags
    by_cases lt : i < threadCount
    · have step : PoolStep threadCount flagJoin s _ := .flag parity i h join lt
      rw [if_pos (flags i lt)] at step
      obtain ⟨s', run, main, posts⟩ := ih { s with main := .waiting parity (i + 1) } (i + 1) rfl
        (by omega) flags
      exact ⟨s', .head step run, main, posts⟩
    · exact ⟨_, .single (.allDone parity i h join (by omega)), rfl, rfl⟩

/-- Once all have acknowledged. -/
theorem PoolWorking.returns {earlier : List (PoolPayload ρ)} {parity : UInt8} {i : Nat}
    (inv : PoolWorking threadCount flagJoin s earlier (Finset.Icc 1 threadCount))
    (h : s.main = .waiting parity i) :
    ∃ s', ReflTransGen (PoolStep threadCount flagJoin) s s' ∧ s'.main = .idle ∧
      s'.posts = s.posts := by
  cases join : flagJoin with
  | true =>
    subst join
    refine scan_returns rfl parity threadCount s i h (by omega) ?_
    intro j lt
    rw [(inv.scanned rfl parity i h).1]
    have hj : j + 1 ∈ Finset.Icc 1 threadCount := Finset.mem_Icc.mpr ⟨by omega, by omega⟩
    exact (inv.flags rfl (j + 1) hj).mpr hj
  | false =>
    subst join
    refine ⟨_, .single (.counted parity i h rfl ?_), rfl, rfl⟩
    rw [inv.count rfl, Nat.card_Icc, Nat.add_sub_cancel]

theorem WorkerPoolInv.returns (inv : WorkerPoolInv threadCount flagJoin s) (busy : s.main.busy) :
    ∃ s', ReflTransGen (PoolStep threadCount flagJoin) s s' ∧ s'.main = .idle ∧
      s'.posts = s.posts := by
  have waits : ∃ s₁ earlier acked parity i, ReflTransGen (PoolStep threadCount flagJoin) s s₁ ∧
      PoolWorking threadCount flagJoin s₁ earlier acked ∧ s₁.main = .waiting parity i ∧
      s₁.posts = s.posts := by
    cases hmain : s.main with
    | posted =>
      have step : PoolStep threadCount flagJoin s
          { s with main := .waiting (generationParity s.generation) 0 } := .wait hmain
      obtain ⟨earlier, acked, inv⟩ := inv.step step
      exact ⟨_, earlier, acked, _, _, .single step, inv, rfl, rfl⟩
    | waiting parity i =>
      unfold WorkerPoolInv at inv
      rw [hmain] at inv
      obtain ⟨earlier, acked, inv⟩ := inv
      exact ⟨s, earlier, acked, parity, i, .refl, inv, hmain, rfl⟩
    | starting | idle | posting | stopping | joining | stopped =>
      rw [hmain] at busy
      exact busy.elim
  obtain ⟨s₁, earlier, acked, parity, i, run₁, inv₁, main₁, posts₁⟩ := waits
  obtain ⟨s₂, run₂, inv₂, main₂, posts₂⟩ := inv₁.all_acknowledge threadCount s₁ acked (by omega)
  obtain ⟨s₃, run₃, main₃, posts₃⟩ := inv₂.returns (main₂.trans main₁)
  exact ⟨s₃, (run₁.trans run₂).trans run₃, main₃, (posts₃.trans posts₂).trans posts₁⟩

theorem WorkerPoolInv.answers_isPrefix (inv : WorkerPoolInv threadCount flagJoin s)
    (hw : worker ∈ Finset.Icc 1 threadCount) :
    (s.workers worker).answers <+: s.posts.map (PoolPayload.answer worker) := by
  unfold WorkerPoolInv at inv
  split at inv
  · obtain ⟨up, inv⟩ := inv
    by_cases mem : worker ∈ up
    · rw [(inv.done worker mem).answers]
    · rw [(inv.entering worker hw mem).1]
      exact List.nil_prefix
  · rw [(inv.done worker hw).answers]
  · rw [(inv.1.done worker hw).answers]
  · obtain ⟨earlier, acked, inv⟩ := inv
    by_cases mem : worker ∈ acked
    · rw [(inv.done worker mem).answers]
    · rw [inv.posts]
      exact (inv.pending worker hw mem).answers_isPrefix
  · obtain ⟨earlier, acked, inv⟩ := inv
    by_cases mem : worker ∈ acked
    · rw [(inv.done worker mem).answers]
    · rw [inv.posts]
      exact (inv.pending worker hw mem).answers_isPrefix
  · rw [inv.answers worker hw]
  · rw [inv.answers worker hw]
  · rw [inv.answers worker hw]

end Invariant

/-- For every pool size, both joins, any posts and any interleaving. -/
theorem workerPool_join {ρ : Type} (threadCount : Nat) (flagJoin : Bool) (payload : PoolPayload ρ)
    (s : PoolState ρ) (run : ReflTransGen (PoolStep threadCount flagJoin) (.initial payload) s) :
    PoolJoins threadCount flagJoin s := by
  have inv : WorkerPoolInv threadCount flagJoin s := by
    induction run with
    | refl => exact .initial payload
    | tail _ step ih => exact ih.step step
  refine ⟨?_, ?_, inv.returns⟩
  · intro worker first last
    exact inv.answers_isPrefix (Finset.mem_Icc.mpr ⟨first, last⟩)
  · intro main worker first last
    unfold WorkerPoolInv at inv
    rw [main] at inv
    exact (inv.done worker (Finset.mem_Icc.mpr ⟨first, last⟩)).answers

/-- Both workers of a pool come up and a job for the first is posted: from there the join returns,
after the first has run its job and the second has skipped. -/
theorem workerPool_join_firstPost : ∃ s : PoolState Unit,
    ReflTransGen (PoolStep 2 true) (.initial ⟨2, fun _ => (3, 5), 7, ()⟩) s ∧ s.main = .idle ∧
      (s.workers 1).answers = [some ⟨3, 5, 7, ()⟩] ∧ (s.workers 2).answers = [none] ∧
      PoolJoins 2 true s := by
  let payload : PoolPayload Unit := ⟨2, fun _ => (3, 5), 7, ()⟩
  let up := ((((PoolState.initial payload).perform true 1).perform true 1).perform true 2).perform
    true 2
  have comeUp : ReflTransGen (PoolStep 2 true) (.initial payload) up :=
    (((ReflTransGen.single (.work 1 le_rfl one_le_two)).tail (.work 1 le_rfl one_le_two)).tail
      (.work 2 one_le_two le_rfl)).tail (.work 2 one_le_two le_rfl)
  have started : PoolStep 2 true up { up with main := .idle } := .started rfl le_rfl
  have clear : PoolStep 2 true { up with main := .idle } { up with main := .posting } := .clear rfl
  let posted : PoolState Unit := { up with main := .posted, generation := 1, posts := [payload] }
  have post : PoolStep 2 true { up with main := .posting } posted := .post rfl
  have run := ((comeUp.tail started).tail clear).tail post
  -- the rest of the run is the theorem's own
  obtain ⟨s, join, idle, posts⟩ := (workerPool_join 2 true payload posted run).returns trivial
  have joins := workerPool_join 2 true payload s (run.trans join)
  refine ⟨s, run.trans join, idle, ?_, ?_, joins⟩
  · rw [joins.joined idle 1 le_rfl one_le_two, posts]
    rfl
  · rw [joins.joined idle 2 one_le_two le_rfl, posts]
    rfl

end Gsim
