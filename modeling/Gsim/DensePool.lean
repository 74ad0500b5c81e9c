/-
  Gsim/DensePool.lean
  ===================
  **The dense executor on the worker pool** (`stepDense` over `mtWorkerPoolPost`,
  `mtWorkerPoolLoop` and `mtWorkerPoolWaitForDone`).

  `DenseMemory` starts all workers in one step and joins them in another one.  Here
  the post, the wakening, the reads of the payload, the acknowledgements and the join
  take the steps of `WorkerPool`, and a worker runs `stepDenseThreadWorker` only while
  it stands in its job; the main thread runs the share of worker 0 between the post
  and the wait.  Each run of this machine is a run of the one of `DenseMemory`
  (`DensePoolReachable.exec`): no worker is in its job outside a cycle, and the join
  returns only when all shares have returned.  The join can always return
  (`DensePoolInv.returns`).
-/
import Gsim.DenseRun
import Gsim.WorkerPool

namespace Gsim

open Relation

variable {ρ W Loc V : Type} [DecidableEq Loc]

/-! ### The machine -/

/-- `mtWorkerPoolJobKind` of a dense cycle. -/
def denseJobKind : Nat := 7

def PoolPc.inJob : PoolPc → Prop
  | .job _ _ _ => True
  | _ => False

structure DensePool (ρ W Loc V : Type) where
  pool : PoolState ρ
  exec : MemState W Loc V

section Machine

variable (threads : ℕ) (flagJoin : Bool) (P : WorkerProgram W) (D : DenseDispatch)
  (code : DenseCode Loc V)

inductive DensePoolStep (s : DensePool ρ W Loc V) : DensePool ρ W Loc V → Prop
  /-- `mtWorkerPoolLoop` around the job -/
  | loop (worker : ℕ) (first : 1 ≤ worker) (last : worker ≤ threads)
      (outside : ¬ (s.pool.workers worker).pc.inJob) :
      DensePoolStep s ⟨s.pool.perform flagJoin worker, s.exec⟩
  /-- inside the job -/
  | lane (worker : ℕ) (first : 1 ≤ worker) (last : worker ≤ threads) (b e : Int)
      (job : (s.pool.workers worker).pc = .job b e denseJobKind) (exec : MemState W Loc V)
      (step : LaneStep P D code worker s.exec exec) : DensePoolStep s ⟨s.pool, exec⟩
  /-- `stepDenseThreadWorker(worker)` returns -/
  | done (worker : ℕ) (first : 1 ≤ worker) (last : worker ≤ threads) (b e : Int)
      (job : (s.pool.workers worker).pc = .job b e denseJobKind)
      (returned : P.returned (D.table worker) (s.exec.control.workers worker) = true) :
      DensePoolStep s ⟨s.pool.perform flagJoin worker, s.exec⟩
  /-- `stepDenseThreadWorker(0)` -/
  | own (h : s.pool.main = .posted) (exec : MemState W Loc V)
      (step : LaneStep P D code 0 s.exec exec) : DensePoolStep s ⟨s.pool, exec⟩
  | started (h : s.pool.main = .starting) (ready : threads ≤ s.pool.readyCount) :
      DensePoolStep s ⟨{ s.pool with main := .idle }, s.exec⟩
  /-- the pool path of `stepDense` up to the post -/
  | enter (h : s.pool.main = .idle) (out : s.exec.control.inPool = false) (payload : PoolPayload ρ)
      (kind : payload.jobKind = denseJobKind) (count : payload.currentWorkerCount = D.threadCount)
      (several : 1 < D.threadCount) (enough : D.threadCount ≤ threads + 1) :
      DensePoolStep s ⟨{ s.pool with payload := payload }, s.exec.enter P D code⟩
  | clear (h : s.pool.main = .idle) (cycle : s.exec.control.inPool = true) :
      DensePoolStep s ⟨{ s.pool with
        main := .posting, doneCount := if flagJoin then s.pool.doneCount else 0 }, s.exec⟩
  | post (h : s.pool.main = .posting) :
      DensePoolStep s ⟨{ s.pool with
        main := .posted, generation := s.pool.generation + 1,
        posts := s.pool.posts ++ [s.pool.payload] }, s.exec⟩
  /-- the own share has returned -/
  | wait (h : s.pool.main = .posted)
      (returned : P.returned (D.table 0) (s.exec.control.workers 0) = true) :
      DensePoolStep s
        ⟨{ s.pool with main := .waiting (generationParity s.pool.generation) 0 }, s.exec⟩
  | flag (parity : UInt8) (worker : ℕ) (h : s.pool.main = .waiting parity worker)
      (join : flagJoin = true) (lt : worker < threads) :
      DensePoolStep s ⟨{ s.pool with
        main := .waiting parity (if s.pool.doneFlags worker = parity then worker + 1 else 0) },
        s.exec⟩
  | allDone (parity : UInt8) (worker : ℕ) (h : s.pool.main = .waiting parity worker)
      (join : flagJoin = true) (le : threads ≤ worker) :
      DensePoolStep s ⟨{ s.pool with main := .idle }, s.exec.join⟩
  | counted (parity : UInt8) (worker : ℕ) (h : s.pool.main = .waiting parity worker)
      (join : flagJoin = false) (le : threads ≤ s.pool.doneCount) :
      DensePoolStep s ⟨{ s.pool with main := .idle }, s.exec.join⟩
  /-- the serial path of `stepDense` -/
  | serial (h : s.pool.main = .idle) (out : s.exec.control.inPool = false) :
      DensePoolStep s ⟨s.pool, s.exec.serial D code⟩
  | poke (f : (Loc → V) → Loc → V) (h : s.pool.main = .idle)
      (out : s.exec.control.inPool = false) : DensePoolStep s ⟨s.pool, s.exec.poke f⟩
  | stop (h : s.pool.main = .idle) (out : s.exec.control.inPool = false) :
      DensePoolStep s ⟨{ s.pool with main := .stopping, stop := true }, s.exec⟩
  | wake (h : s.pool.main = .stopping) :
      DensePoolStep s
        ⟨{ s.pool with main := .joining, generation := s.pool.generation + 1 }, s.exec⟩
  | joined (h : s.pool.main = .joining)
      (all : ∀ worker, 1 ≤ worker → worker ≤ threads →
        (s.pool.workers worker).pc = .returned) :
      DensePoolStep s ⟨{ s.pool with main := .stopped }, s.exec⟩

/-- The states of all runs from a given memory, with the threads just created. -/
def DensePoolReachable (m₀ : Loc → V) (s : DensePool ρ W Loc V) : Prop :=
  ∃ s₀ : DensePool ρ W Loc V, (∃ payload, s₀.pool = .initial payload) ∧
    InitialState s₀.exec.control ∧ s₀.exec.mem = m₀ ∧ s₀.exec.history = [] ∧
      ReflTransGen (DensePoolStep threads flagJoin P D code) s₀ s

end Machine

/-- **What the executor on the pool is for**: between cycles the memory is that of serial cycles,
and a cycle on the pool can always be brought to its end. -/
structure PoolRunsSerially (ρ : Type) (threads : ℕ) (flagJoin : Bool) (P : WorkerProgram W)
    (D : DenseDispatch) (code : DenseCode Loc V) (cycle : (Loc → V) → Loc → V) : Prop where
  memory : ∀ m₀ (s : DensePool ρ W Loc V), DensePoolReachable threads flagJoin P D code m₀ s →
    s.exec.control.inPool = false → s.exec.mem = replay cycle s.exec.history m₀
  returns : ∀ m₀ (s : DensePool ρ W Loc V), DensePoolReachable threads flagJoin P D code m₀ s →
    s.exec.control.inPool = true →
      ∃ s', ReflTransGen (DensePoolStep threads flagJoin P D code) s s' ∧ s'.pool.main = .idle ∧
        s'.exec.control.inPool = false ∧ s'.exec.history = s.exec.history ++ [.cycle]

/-! ### Workers in their job -/

section Job

variable {threads : ℕ} {flagJoin : Bool} {s : PoolState ρ} {worker : ℕ}

theorem PoolState.perform_workers (flagJoin : Bool) (s : PoolState ρ) (worker : ℕ) :
    (s.perform flagJoin worker).workers = Function.update s.workers worker
      (workerStep worker s.stop s.generation s.payload (s.workers worker)).1 := by
  unfold PoolState.perform
  dsimp only
  split
  · rfl
  · rfl
  · split <;> rfl

theorem PoolState.perform_payload (flagJoin : Bool) (s : PoolState ρ) (worker : ℕ) :
    (s.perform flagJoin worker).payload = s.payload := by
  unfold PoolState.perform
  dsimp only
  split
  · rfl
  · rfl
  · split <;> rfl

theorem WorkerDone.not_inJob {generation : UInt64} {posts : List (PoolPayload ρ)}
    {w : PoolWorker ρ} (h : WorkerDone generation posts worker w) : ¬ w.pc.inJob := by
  rcases h.spins with hpc | hpc
  · rw [hpc]
    exact id
  · rw [hpc]
    exact id

/-- A worker is in its job only between a post and its own acknowledgement. -/
theorem WorkerPoolInv.of_inJob (inv : WorkerPoolInv threads flagJoin s)
    (hw : worker ∈ Finset.Icc 1 threads) (inJob : (s.workers worker).pc.inJob) :
    s.main.busy ∧ ∃ earlier acked, PoolWorking threads flagJoin s earlier acked ∧
      worker ∉ acked := by
  have working : (∃ earlier acked, PoolWorking threads flagJoin s earlier acked) →
      ∃ earlier acked, PoolWorking threads flagJoin s earlier acked ∧ worker ∉ acked := by
    rintro ⟨earlier, acked, inv⟩
    exact ⟨earlier, acked, inv, fun mem => (inv.done worker mem).not_inJob inJob⟩
  have halting : ¬ PoolHalting threads s := by
    intro inv
    rcases inv.pc worker hw with hpc | hpc | hpc | hpc
    all_goals
      rw [hpc] at inJob
      exact inJob
  unfold WorkerPoolInv at inv
  cases hmain : s.main with
  | starting =>
    rw [hmain] at inv
    obtain ⟨up, inv⟩ := inv
    by_cases mem : worker ∈ up
    · exact absurd inJob (inv.done worker mem).not_inJob
    · rcases inv.entering worker hw mem with ⟨-, hpc | ⟨hpc, -⟩⟩
      all_goals
        rw [hpc] at inJob
        exact inJob.elim
  | idle =>
    rw [hmain] at inv
    exact absurd inJob (inv.done worker hw).not_inJob
  | posting =>
    rw [hmain] at inv
    exact absurd inJob (inv.1.done worker hw).not_inJob
  | posted =>
    rw [hmain] at inv
    exact ⟨trivial, working inv⟩
  | waiting parity i =>
    rw [hmain] at inv
    exact ⟨trivial, working inv⟩
  | stopping | joining | stopped =>
    rw [hmain] at inv
    exact absurd inv halting

/-- What a worker in its job has read. -/
theorem PoolWorking.job_eq {earlier : List (PoolPayload ρ)} {acked : Finset ℕ}
    (inv : PoolWorking threads flagJoin s earlier acked) (hw : worker ∈ Finset.Icc 1 threads)
    (out : worker ∉ acked) {b e : Int} {kind : ℕ} (job : (s.workers worker).pc = .job b e kind) :
    (s.workers worker).answers.length < s.posts.length ∧
      (worker : Int) < s.payload.currentWorkerCount ∧ kind = s.payload.jobKind := by
  have pending := inv.pending worker hw out
  unfold WorkerPending at pending
  rw [job] at pending
  obtain ⟨-, answered, active, -, -, kindEq⟩ := pending
  refine ⟨?_, active, kindEq⟩
  rw [answered, inv.posts, List.length_map, List.length_append]
  exact Nat.lt_succ_self _

/-- Outside its job, a worker that takes part answers nothing. -/
theorem workerStep_answers {stop : Bool} {generation : UInt64} {payload : PoolPayload ρ}
    {w : PoolWorker ρ} (outside : ¬ w.pc.inJob)
    (active : (worker : Int) < payload.currentWorkerCount) :
    (workerStep worker stop generation payload w).1.answers = w.answers := by
  obtain ⟨seen, pc, answers⟩ := w
  cases pc with
  | job b e kind => exact absurd trivial outside
  | workerCount =>
    show (if _ then (_, _) else (_, _) : PoolWorker ρ × PoolEffect).1.answers = answers
    rw [if_neg (not_le.mpr active)]
  | generationLoad =>
    by_cases same : generation = seen
    · simp only [workerStep, if_pos same]
    · simp only [workerStep, if_neg same]
  | entry | publish | stopCheck | stopRecheck | chunkBegin | chunkEnd | jobKind | acknowledge
  | returned => rfl

end Job

/-! ### Invariant -/

section Invariant

variable {threads : ℕ} {flagJoin : Bool} {P : WorkerProgram W} {D : DenseDispatch}
  {code : DenseCode Loc V} {m₀ : Loc → V} {s s' : DensePool ρ W Loc V}

/-- The main thread is inside `stepDense`. -/
def PoolMain.inCycle : PoolMain → Prop
  | .posting | .posted | .waiting _ _ => True
  | _ => False

/-- In every state of a run. -/
structure DensePoolInv (threads : ℕ) (flagJoin : Bool) (P : WorkerProgram W) (D : DenseDispatch)
    (s : DensePool ρ W Loc V) : Prop where
  pool : WorkerPoolInv threads flagJoin s.pool
  entered : s.pool.main.inCycle → s.exec.control.inPool = true
  inside : s.exec.control.inPool = true → s.pool.main = .idle ∨ s.pool.main.inCycle
  payload : s.exec.control.inPool = true → s.pool.payload.jobKind = denseJobKind ∧
    s.pool.payload.currentWorkerCount = D.threadCount ∧ 0 < D.threadCount ∧
      D.threadCount ≤ threads + 1
  own : ∀ parity i, s.pool.main = .waiting parity i →
    P.returned (D.table 0) (s.exec.control.workers 0) = true
  /-- a worker that has answered the post has run its share -/
  lanes : s.pool.main.busy → ∀ worker, 1 ≤ worker → worker ≤ threads → worker < D.threadCount →
    (s.pool.workers worker).answers.length = s.pool.posts.length →
      P.returned (D.table worker) (s.exec.control.workers worker) = true

theorem PoolMain.busy.inCycle {main : PoolMain} (h : main.busy) : main.inCycle := by
  cases main with
  | posted | waiting => trivial
  | starting | idle | posting | stopping | joining | stopped => exact h.elim

/-- The pool takes a step of its own, or none. -/
theorem DensePoolStep.pool (h : DensePoolStep threads flagJoin P D code s s') :
    s'.pool = s.pool ∨ PoolStep threads flagJoin s.pool s'.pool := by
  cases h with
  | loop worker first last outside => exact Or.inr (.work worker first last)
  | lane => exact Or.inl rfl
  | done worker first last b e job returned => exact Or.inr (.work worker first last)
  | own => exact Or.inl rfl
  | started h ready => exact Or.inr (.started h ready)
  | enter h out payload => exact Or.inr (.write payload h)
  | clear h cycle => exact Or.inr (.clear h)
  | post h => exact Or.inr (.post h)
  | wait h returned => exact Or.inr (.wait h)
  | flag parity worker h join lt => exact Or.inr (.flag parity worker h join lt)
  | allDone parity worker h join le => exact Or.inr (.allDone parity worker h join le)
  | counted parity worker h join le => exact Or.inr (.counted parity worker h join le)
  | serial => exact Or.inl rfl
  | poke => exact Or.inl rfl
  | stop h out => exact Or.inr (.stop h)
  | wake h => exact Or.inr (.wake h)
  | joined h all => exact Or.inr (.joined h all)

theorem DensePoolInv.workerPool (inv : DensePoolInv threads flagJoin P D s)
    (h : DensePoolStep threads flagJoin P D code s s') :
    WorkerPoolInv threads flagJoin s'.pool := by
  rcases h.pool with same | step
  · rw [same]
    exact inv.pool
  · exact inv.pool.step step

omit [DecidableEq Loc] in
/-- Outside `stepDense`. -/
theorem DensePoolInv.outside (workerPool : WorkerPoolInv threads flagJoin s.pool)
    (out : s.exec.control.inPool = false) (main : ¬ s.pool.main.inCycle) :
    DensePoolInv threads flagJoin P D s where
  pool := workerPool
  entered cycle := absurd cycle main
  inside inPool := by cases out.symm.trans inPool
  payload inPool := by cases out.symm.trans inPool
  own parity i waiting := by
    rw [waiting] at main
    exact absurd trivial main
  lanes busy := absurd busy.inCycle main

omit [DecidableEq Loc] in
/-- The main thread is in no phase of `stepDense`: there is no cycle. -/
theorem DensePoolInv.inPool_eq_false (inv : DensePoolInv threads flagJoin P D s)
    (main : s.pool.main ≠ .idle) (cycle : ¬ s.pool.main.inCycle) :
    s.exec.control.inPool = false := by
  refine Bool.eq_false_iff.mpr fun inPool => ?_
  rcases inv.inside inPool with idle | inCycle
  · exact main idle
  · exact cycle inCycle

/-- A step of one share leaves the other ones alone. -/
theorem LaneStep.frame {t : ℕ} {m m' : MemState W Loc V} (h : LaneStep P D code t m m') :
    m'.control.inPool = m.control.inPool ∧ m'.history = m.history ∧
      ∀ u, u ≠ t → m'.control.workers u = m.control.workers u := by
  cases h with
  | work w a ht step complete =>
    refine ⟨perform_inPool _ _ _ _, rfl, fun u ne => ?_⟩
    rw [perform_workers]
    exact Function.update_of_ne ne _ _
  | access => exact ⟨rfl, rfl, fun _ _ => rfl⟩

/-- The share of worker `t` goes on. -/
theorem DensePoolInv.laneStep (inv : DensePoolInv threads flagJoin P D s) {t : ℕ}
    {exec : MemState W Loc V} (step : LaneStep P D code t s.exec exec)
    (main : t = 0 → ∀ parity i, s.pool.main ≠ .waiting parity i)
    (answers : t ≠ 0 → (s.pool.workers t).answers.length < s.pool.posts.length) :
    DensePoolInv threads flagJoin P D ⟨s.pool, exec⟩ := by
  obtain ⟨inPool, -, others⟩ := step.frame
  refine ⟨inv.pool, fun cycle => ?_, fun inside => ?_, fun inside => ?_, ?_, ?_⟩
  · show exec.control.inPool = true
    rw [inPool]
    exact inv.entered cycle
  · exact inv.inside (inPool ▸ inside)
  · exact inv.payload (inPool ▸ inside)
  · intro parity i waiting
    show P.returned (D.table 0) (exec.control.workers 0) = true
    rw [others 0 fun eq => main eq.symm parity i waiting]
    exact inv.own parity i waiting
  · intro busy worker first last part answered
    have ne : worker ≠ t := by
      rintro rfl
      exact (answers (Nat.pos_iff_ne_zero.mp first)).ne answered
    show P.returned (D.table worker) (exec.control.workers worker) = true
    rw [others worker ne]
    exact inv.lanes busy worker first last part answered

omit [DecidableEq Loc] in
/-- A worker of the pool takes a step of its loop. -/
theorem DensePoolInv.perform (inv : DensePoolInv threads flagJoin P D s) {worker : ℕ}
    (workerPool : WorkerPoolInv threads flagJoin (s.pool.perform flagJoin worker))
    (answers : s.pool.main.busy → worker < D.threadCount →
      ((s.pool.workers worker).answers.length = s.pool.posts.length →
        P.returned (D.table worker) (s.exec.control.workers worker) = true) →
      (workerStep worker s.pool.stop s.pool.generation s.pool.payload
        (s.pool.workers worker)).1.answers.length = s.pool.posts.length →
        P.returned (D.table worker) (s.exec.control.workers worker) = true) :
    DensePoolInv threads flagJoin P D ⟨s.pool.perform flagJoin worker, s.exec⟩ := by
  have main := PoolState.perform_main flagJoin s.pool worker
  refine ⟨workerPool, ?_, ?_, ?_, ?_, ?_⟩
  · rw [main]
    exact inv.entered
  · rw [main]
    exact inv.inside
  · rw [PoolState.perform_payload]
    exact inv.payload
  · rw [main]
    exact inv.own
  · rw [main, PoolState.perform_posts, PoolState.perform_workers]
    intro busy other first last part
    have before := inv.lanes busy other first last part
    by_cases same : other = worker
    · subst same
      rw [Function.update_self]
      exact answers busy part before
    · rw [Function.update_of_ne same]
      exact before

theorem DensePoolInv.step (inv : DensePoolInv threads flagJoin P D s)
    (h : DensePoolStep threads flagJoin P D code s s') : DensePoolInv threads flagJoin P D s' := by
  have workerPool := inv.workerPool h
  cases h with
  | loop worker first last outside =>
    refine inv.perform workerPool fun busy part before => ?_
    obtain ⟨-, count, -⟩ := inv.payload (inv.entered busy.inCycle)
    rw [workerStep_answers outside (by rw [count]; exact_mod_cast part)]
    exact before
  | lane worker first last b e job exec step =>
    have hw := Finset.mem_Icc.mpr ⟨first, last⟩
    obtain ⟨-, earlier, acked, working, out⟩ := inv.pool.of_inJob hw (by rw [job]; trivial)
    refine inv.laneStep step (fun eq => absurd eq (Nat.pos_iff_ne_zero.mp first)) fun _ => ?_
    exact (working.job_eq hw out job).1
  | done worker first last b e job returned =>
    exact inv.perform workerPool fun _ _ _ _ => returned
  | own h exec step =>
    refine inv.laneStep step (fun _ parity i waiting => ?_) fun ne => absurd rfl ne
    cases h.symm.trans waiting
  | started h ready =>
    refine DensePoolInv.outside workerPool ?_ id
    exact inv.inPool_eq_false (by rw [h]; simp) (by rw [h]; exact id)
  | enter h out payload kind count several enough =>
    refine ⟨workerPool, fun _ => rfl, fun _ => Or.inl h, fun _ => ?_, ?_, ?_⟩
    · exact ⟨kind, count, Nat.zero_lt_of_lt several, enough⟩
    · intro parity i waiting
      cases h.symm.trans waiting
    · intro busy
      change s.pool.main.busy at busy
      rw [h] at busy
      exact busy.elim
  | clear h cycle =>
    refine ⟨workerPool, fun _ => cycle, fun _ => Or.inr trivial, inv.payload, ?_, False.elim⟩
    intro parity i waiting
    cases waiting
  | post h =>
    have inPool : s.exec.control.inPool = true := inv.entered (by rw [h]; trivial)
    have quiet := inv.pool
    unfold WorkerPoolInv at quiet
    rw [h] at quiet
    refine ⟨workerPool, fun _ => inPool, fun _ => Or.inr trivial, inv.payload, ?_, ?_⟩
    · intro parity i waiting
      cases waiting
    intro _ worker first last _ answered
    -- nobody has answered the new post
    change (s.pool.workers worker).answers.length = (s.pool.posts ++ [s.pool.payload]).length
      at answered
    rw [(quiet.1.done worker (Finset.mem_Icc.mpr ⟨first, last⟩)).answers, List.length_map,
      List.length_append] at answered
    exact absurd answered (Nat.lt_succ_self _).ne
  | wait h returned =>
    have cycle : s.pool.main.inCycle := by rw [h]; trivial
    refine ⟨workerPool, fun _ => inv.entered cycle, fun _ => Or.inr trivial, inv.payload,
      fun _ _ _ => returned, fun _ => inv.lanes ?_⟩
    rw [h]
    trivial
  | flag parity worker h join lt =>
    have cycle : s.pool.main.inCycle := by rw [h]; trivial
    refine ⟨workerPool, fun _ => inv.entered cycle, fun _ => Or.inr trivial, inv.payload,
      fun _ _ _ => inv.own parity worker h, fun _ => inv.lanes ?_⟩
    rw [h]
    trivial
  | allDone parity worker h join le => exact DensePoolInv.outside workerPool rfl id
  | counted parity worker h join le => exact DensePoolInv.outside workerPool rfl id
  | serial h out => exact DensePoolInv.outside workerPool out (by rw [h]; exact id)
  | poke f h out => exact DensePoolInv.outside workerPool out (by rw [h]; exact id)
  | stop h out => exact DensePoolInv.outside workerPool out id
  | wake h =>
    refine DensePoolInv.outside workerPool ?_ id
    exact inv.inPool_eq_false (by rw [h]; simp) (by rw [h]; exact id)
  | joined h all =>
    refine DensePoolInv.outside workerPool ?_ id
    exact inv.inPool_eq_false (by rw [h]; simp) (by rw [h]; exact id)

/-! ### Refinement -/

omit [DecidableEq Loc] in
/-- When the join returns, all shares have returned. -/
theorem DensePoolInv.returned (inv : DensePoolInv threads flagJoin P D s) {parity : UInt8} {i : ℕ}
    (h : s.pool.main = .waiting parity i)
    (quiet : PoolQuiet threads flagJoin { s.pool with main := .idle }) (t : ℕ)
    (ht : t < D.threadCount) : P.returned (D.table t) (s.exec.control.workers t) = true := by
  have busy : s.pool.main.busy := by rw [h]; trivial
  obtain ⟨-, -, -, enough⟩ := inv.payload (inv.entered busy.inCycle)
  rcases Nat.eq_zero_or_pos t with rfl | first
  · exact inv.own parity i h
  · have last : t ≤ threads := by omega
    refine inv.lanes busy t first last ht ?_
    have done := (quiet.done t (Finset.mem_Icc.mpr ⟨first, last⟩)).answers
    have length := congrArg List.length done
    rw [List.length_map] at length
    exact length

/-- The executor takes a step of its own, or none. -/
theorem DensePoolInv.memStep (inv : DensePoolInv threads flagJoin P D s)
    (h : DensePoolStep threads flagJoin P D code s s') :
    s'.exec = s.exec ∨ MemStep P D code s.exec s'.exec := by
  have workerPool := inv.workerPool h
  cases h with
  | lane worker first last b e job exec step =>
    have hw := Finset.mem_Icc.mpr ⟨first, last⟩
    obtain ⟨busy, -⟩ := inv.pool.of_inJob hw (by rw [job]; trivial)
    exact Or.inr (.pool exec (step.memPoolStep (inv.entered busy.inCycle)))
  | own h exec step =>
    have inPool := inv.entered (by rw [h]; trivial)
    exact Or.inr (.pool exec (step.memPoolStep inPool))
  | enter h out payload => exact Or.inr (.enter out)
  | allDone parity worker h join le =>
    have inPool := inv.entered (by rw [h]; trivial)
    exact Or.inr (.join inPool (inv.returned h workerPool))
  | counted parity worker h join le =>
    have inPool := inv.entered (by rw [h]; trivial)
    exact Or.inr (.join inPool (inv.returned h workerPool))
  | serial h out => exact Or.inr (.serial out)
  | poke f h out => exact Or.inr (.poke f out)
  | loop | done | started | clear | post | wait | flag | stop | wake | joined => exact Or.inl rfl

theorem DensePoolReachable.inv (h : DensePoolReachable threads flagJoin P D code m₀ s) :
    DensePoolInv threads flagJoin P D s := by
  obtain ⟨s₀, ⟨payload, start⟩, init, -, -, run⟩ := h
  induction run with
  | refl =>
    refine DensePoolInv.outside ?_ init.2.1 ?_
    · rw [start]
      exact .initial payload
    · rw [start]
      exact id
  | tail _ step ih => exact ih.step step

/-- **Refinement**: on the pool, the executor runs as if all workers were started in one step
and joined in another one. -/
theorem DensePoolReachable.exec (h : DensePoolReachable threads flagJoin P D code m₀ s) :
    MemReachable P D code m₀ s.exec := by
  obtain ⟨s₀, start, init, mem, history, run⟩ := h
  refine ⟨s₀.exec, init, mem, history, ?_⟩
  induction run with
  | refl => exact ReflTransGen.refl
  | tail before step ih =>
    have reach : DensePoolReachable threads flagJoin P D code m₀ _ :=
      ⟨s₀, start, init, mem, history, before⟩
    rcases reach.inv.memStep step with same | step
    · rw [same]
      exact ih
    · exact ih.tail step

theorem DensePoolReachable.trans (h : DensePoolReachable threads flagJoin P D code m₀ s)
    (run : ReflTransGen (DensePoolStep threads flagJoin P D code) s s') :
    DensePoolReachable threads flagJoin P D code m₀ s' := by
  obtain ⟨s₀, start, init, mem, history, before⟩ := h
  exact ⟨s₀, start, init, mem, history, before.trans run⟩

end Invariant

/-! ### A cycle comes to its end -/

section Progress

variable {threads : ℕ} {flagJoin : Bool}

/-- How far the workers that have not acknowledged are from doing so. -/
def PoolState.distances (threads : ℕ) (acked : Finset ℕ) (s : PoolState ρ) : ℕ :=
  ∑ worker ∈ Finset.Icc 1 threads \ acked, (s.workers worker).pc.distance

theorem WorkerPending.distance_pos {generation : UInt64} {payload : PoolPayload ρ}
    {earlier : List (PoolPayload ρ)} {worker : ℕ} {w : PoolWorker ρ}
    (h : WorkerPending generation payload earlier worker w) : 0 < w.pc.distance := by
  obtain ⟨seen, pc, answers⟩ := w
  cases pc with
  | entry | publish | returned => exact h.elim
  | stopCheck | generationLoad | stopRecheck | workerCount | chunkBegin | chunkEnd | jobKind | job
  | acknowledge => simp [PoolPc.distance]

/-- A step of a worker that has not acknowledged brings the pool closer to the join. -/
theorem PoolWorking.closer {s : PoolState ρ} {earlier : List (PoolPayload ρ)} {acked : Finset ℕ}
    {worker : ℕ} (inv : PoolWorking threads flagJoin s earlier acked)
    (hw : worker ∈ Finset.Icc 1 threads) (out : worker ∉ acked) :
    ∃ acked', PoolWorking threads flagJoin (s.perform flagJoin worker) earlier acked' ∧
      (s.perform flagJoin worker).distances threads acked' < s.distances threads acked := by
  have here : worker ∈ Finset.Icc 1 threads \ acked := Finset.mem_sdiff.mpr ⟨hw, out⟩
  have others : ∀ u, u ≠ worker →
      ((s.perform flagJoin worker).workers u).pc.distance = (s.workers u).pc.distance := by
    intro u ne
    rw [PoolState.perform_workers, Function.update_of_ne ne]
  rcases inv.work hw with ⟨after, closer⟩ | ⟨-, after⟩
  · refine ⟨acked, after, Finset.sum_lt_sum (fun u _ => ?_) ⟨worker, here, closer out⟩⟩
    by_cases same : u = worker
    · rw [same]
      exact (closer out).le
    · exact (others u same).le
  · refine ⟨insert worker acked, after, ?_⟩
    have rest : Finset.Icc 1 threads \ insert worker acked =
        (Finset.Icc 1 threads \ acked).erase worker := by
      rw [Finset.sdiff_insert]
    rw [PoolState.distances, PoolState.distances, rest, ← Finset.sum_erase_add _ _ here]
    have eq := Finset.sum_congr (rfl : (Finset.Icc 1 threads \ acked).erase worker = _)
      fun u hu => others u (Finset.ne_of_mem_erase hu)
    rw [eq]
    exact Nat.lt_add_of_pos_right (inv.pending worker hw out).distance_pos

theorem PoolWorking.wait {s : PoolState ρ} {earlier : List (PoolPayload ρ)} {acked : Finset ℕ}
    (inv : PoolWorking threads flagJoin s earlier acked) :
    PoolWorking threads flagJoin
      { s with main := .waiting (generationParity s.generation) 0 } earlier acked := by
  refine ⟨inv.stop, inv.posts, inv.sub, inv.done, inv.pending, inv.flags, inv.count, ?_⟩
  intro _ parity i eq
  cases eq
  exact ⟨rfl, fun j hj => absurd hj (Nat.not_lt_zero j)⟩

/-- Before the wait, the own share is left. -/
def PoolMain.stage : PoolMain → ℕ
  | .posted => 1
  | _ => 0

variable {M : Type} [Preorder M] {P : WorkerProgram W} {D : DenseDispatch} {code : DenseCode Loc V}
  {pre : ℕ → ℕ → ℕ → Prop} {hok : DispatchOk D}
  {C : ∀ t target, WorkerContract M P (D.table t) target (pre t)}

/-- If a share has not returned, then one that has not returned can go on. -/
theorem BodyInv.exists_lane {m : MemState W Loc V} (body : BodyInv hok pre code m)
    (pool : PoolInv hok C m.control) (inPool : m.control.inPool = true) {t : ℕ}
    (ht : t < D.threadCount) (unreturned : P.returned (D.table t) (m.control.workers t) ≠ true) :
    ∃ u < D.threadCount, P.returned (D.table u) (m.control.workers u) ≠ true ∧
      ∃ m', LaneStep P D code u m m' := by
  by_cases all : ∀ k, k < D.nMTasks → Executed P D m.control k
  · refine ⟨t, ht, unreturned, ?_⟩
    have finished : ∀ p, p < (D.table t).length →
        P.status (m.control.workers t) p = .storing [] := by
      intro p hp
      have entry := List.getElem?_eq_getElem hp
      exact (statusOf_entry entry).symm.trans (all _ (table_eq_some entry).1)
    have steps : P.step (D.table t) (targetOf m.control.cycles) m.control.ready
        (m.control.workers t) ≠ none := by
      intro none
      exact unreturned ((C t _).stuck_returned (pool.workers t) none finished)
    obtain ⟨⟨w, a⟩, step⟩ := Option.ne_none_iff_exists'.mp steps
    exact body.exists_laneStep pool ⟨inPool, ht, w, a, step, rfl⟩
  · push Not at all
    obtain ⟨k, next⟩ := exists_nextUnexecuted all
    obtain ⟨c, work⟩ := pool.enabled inPool next
    refine ⟨D.owner k, work.2.1, fun returned => next.2.1 ?_, body.exists_laneStep pool work⟩
    -- what a share that has returned owns is executed
    have place := (List.getElem?_eq_some_iff.mp (table_position hok next.1)).1
    have status := (C _ _).returned_ok (pool.workers _) returned _ place
    unfold Executed DenseState.statusOf
    rw [if_pos next.1]
    exact status

/-- The distances and the own share, then the measure of the shares. -/
def closeness (C : ∀ t target, WorkerContract M P (D.table t) target (pre t))
    (code : DenseCode Loc V) (threads : ℕ) (acked : Finset ℕ) (s : DensePool ρ W Loc V) :
    ℕ ×ₗ ((Fin D.threadCount → M) ×ₗ ℕ) :=
  toLex (s.pool.distances threads acked + s.pool.main.stage, runMeasure C code s.exec)

variable {m₀ : Loc → V} {s : DensePool ρ W Loc V} {earlier : List (PoolPayload ρ)}
  {acked : Finset ℕ}

omit [DecidableEq Loc] in
/-- A share of worker `u` that has not returned is one that somebody runs. -/
theorem DensePoolInv.runs (inv : DensePoolInv threads flagJoin P D s)
    (working : PoolWorking threads flagJoin s.pool earlier acked) (busy : s.pool.main.busy) {u : ℕ}
    (hu : u < D.threadCount)
    (unreturned : P.returned (D.table u) (s.exec.control.workers u) ≠ true) :
    (u = 0 ∧ s.pool.main = .posted) ∨ (u ∈ Finset.Icc 1 threads ∧ u ∉ acked) := by
  obtain ⟨-, -, -, enough⟩ := inv.payload (inv.entered busy.inCycle)
  rcases Nat.eq_zero_or_pos u with rfl | first
  · refine Or.inl ⟨rfl, ?_⟩
    cases main : s.pool.main with
    | posted => rfl
    | waiting parity i => exact absurd (inv.own parity i main) unreturned
    | starting | idle | posting | stopping | joining | stopped =>
      rw [main] at busy
      exact busy.elim
  · have last : u ≤ threads := by omega
    refine Or.inr ⟨Finset.mem_Icc.mpr ⟨first, last⟩, fun mem => unreturned ?_⟩
    refine inv.lanes busy u first last hu ?_
    rw [(working.done u mem).answers, List.length_map]

theorem PoolPc.inJob.exists_eq {pc : PoolPc} (h : pc.inJob) : ∃ b e kind, pc = .job b e kind := by
  cases pc with
  | job b e kind => exact ⟨b, e, kind, rfl⟩
  | entry | publish | stopCheck | generationLoad | stopRecheck | workerCount | chunkBegin | chunkEnd
  | jobKind | acknowledge | returned => exact h.elim

/-- As long as somebody has not acknowledged or the own share is left, some step brings the cycle
closer to its end. -/
theorem DensePoolInv.exists_closer (inv : DensePoolInv threads flagJoin P D s)
    (body : BodyInv hok pre code s.exec) (pool : PoolInv hok C s.exec.control)
    (working : PoolWorking threads flagJoin s.pool earlier acked) (busy : s.pool.main.busy)
    (left : Finset.Icc 1 threads ⊆ acked → s.pool.main = .posted) :
    ∃ s' acked', DensePoolStep threads flagJoin P D code s s' ∧ s'.pool.main.busy ∧
      PoolWorking threads flagJoin s'.pool earlier acked' ∧
        s'.exec.history = s.exec.history ∧
          closeness C code threads acked' s' < closeness C code threads acked s := by
  have inPool := inv.entered busy.inCycle
  obtain ⟨kindEq, count, some_, enough⟩ := inv.payload inPool
  -- a step of the pool
  have performs : ∀ worker, worker ∈ Finset.Icc 1 threads → worker ∉ acked →
      DensePoolStep threads flagJoin P D code s ⟨s.pool.perform flagJoin worker, s.exec⟩ →
      ∃ s' acked', DensePoolStep threads flagJoin P D code s s' ∧ s'.pool.main.busy ∧
        PoolWorking threads flagJoin s'.pool earlier acked' ∧
          s'.exec.history = s.exec.history ∧
            closeness C code threads acked' s' < closeness C code threads acked s := by
    intro worker hw out step
    obtain ⟨acked', after, closer⟩ := working.closer hw out
    have main := PoolState.perform_main flagJoin s.pool worker
    refine ⟨_, acked', step, by rw [main]; exact busy, after, rfl, ?_⟩
    refine Prod.Lex.toLex_lt_toLex.mpr (Or.inl ?_)
    show (s.pool.perform flagJoin worker).distances threads acked' + _ < _
    rw [main]
    exact Nat.add_lt_add_right closer _
  -- a step of a share
  have shares : ∀ u exec, LaneStep P D code u s.exec exec →
      DensePoolStep threads flagJoin P D code s ⟨s.pool, exec⟩ →
      ∃ s' acked', DensePoolStep threads flagJoin P D code s s' ∧ s'.pool.main.busy ∧
        PoolWorking threads flagJoin s'.pool earlier acked' ∧
          s'.exec.history = s.exec.history ∧
            closeness C code threads acked' s' < closeness C code threads acked s := by
    intro u exec lane step
    refine ⟨_, acked, step, busy, working, lane.frame.2.1, ?_⟩
    exact Prod.Lex.toLex_lt_toLex.mpr (Or.inr ⟨rfl, (lane.memPoolStep inPool).measure_lt pool⟩)
  by_cases approaching : ∃ worker ∈ Finset.Icc 1 threads, worker ∉ acked ∧
      ¬ (s.pool.workers worker).pc.inJob
  · obtain ⟨worker, hw, out, outside⟩ := approaching
    obtain ⟨first, last⟩ := Finset.mem_Icc.mp hw
    exact performs worker hw out (.loop worker first last outside)
  push Not at approaching
  have inJobs : ∀ u, u ∈ Finset.Icc 1 threads → u ∉ acked →
      u < D.threadCount ∧ ∃ b e, (s.pool.workers u).pc = .job b e denseJobKind := by
    intro u hu out
    obtain ⟨b, e, kind, job⟩ := (approaching u hu out).exists_eq
    obtain ⟨-, active, same⟩ := working.job_eq hu out job
    rw [count] at active
    rw [same, kindEq] at job
    exact ⟨by exact_mod_cast active, b, e, job⟩
  -- everyone who is left runs a share
  obtain ⟨t, ht, who⟩ : ∃ t < D.threadCount, (t = 0 ∧ s.pool.main = .posted) ∨
      (t ∈ Finset.Icc 1 threads ∧ t ∉ acked) := by
    by_cases all : Finset.Icc 1 threads ⊆ acked
    · exact ⟨0, some_, Or.inl ⟨rfl, left all⟩⟩
    · obtain ⟨t, ht, out⟩ := Finset.not_subset.mp all
      exact ⟨t, (inJobs t ht out).1, Or.inr ⟨ht, out⟩⟩
  by_cases returned : P.returned (D.table t) (s.exec.control.workers t) = true
  · rcases who with ⟨rfl, posted⟩ | ⟨mem, out⟩
    · refine ⟨_, acked, .wait posted returned, trivial, working.wait, rfl, ?_⟩
      refine Prod.Lex.toLex_lt_toLex.mpr (Or.inl ?_)
      show s.pool.distances threads acked + 0 < s.pool.distances threads acked + s.pool.main.stage
      rw [posted]
      exact Nat.lt_succ_self _
    · obtain ⟨first, last⟩ := Finset.mem_Icc.mp mem
      obtain ⟨-, b, e, job⟩ := inJobs t mem out
      exact performs t mem out (.done t first last b e job returned)
  · obtain ⟨u, hu, unreturned, exec, lane⟩ := body.exists_lane pool inPool ht returned
    rcases inv.runs working busy hu unreturned with ⟨rfl, posted⟩ | ⟨mem, out⟩
    · exact shares 0 exec lane (.own posted exec lane)
    · obtain ⟨first, last⟩ := Finset.mem_Icc.mp mem
      obtain ⟨-, b, e, job⟩ := inJobs u mem out
      exact shares u exec lane (.lane u first last b e job exec lane)

/-- Once all have acknowledged, the join returns. -/
theorem DensePoolInv.joins (left : ℕ) : ∀ (s : DensePool ρ W Loc V) (parity : UInt8) (i : ℕ),
    PoolWorking threads flagJoin s.pool earlier (Finset.Icc 1 threads) →
    s.pool.main = .waiting parity i → threads ≤ i + left →
      ∃ s', ReflTransGen (DensePoolStep threads flagJoin P D code) s s' ∧ s'.pool.main = .idle ∧
        s'.exec = s.exec.join := by
  cases join : flagJoin with
  | false =>
    intro s parity i working main _
    refine ⟨_, .single (.counted parity i main rfl ?_), rfl, rfl⟩
    rw [working.count rfl, Nat.card_Icc, Nat.add_sub_cancel]
  | true =>
    induction left with
    | zero =>
      intro s parity i working main le
      exact ⟨_, .single (.allDone parity i main rfl le), rfl, rfl⟩
    | succ left ih =>
      intro s parity i working main le
      by_cases lt : i < threads
      · have set : s.pool.doneFlags i = parity := by
          have mem : i + 1 ∈ Finset.Icc 1 threads := Finset.mem_Icc.mpr ⟨by omega, by omega⟩
          rw [(working.scanned rfl parity i main).1]
          exact (working.flags rfl (i + 1) mem).mpr mem
        have step : DensePoolStep threads true P D code s _ := .flag parity i main rfl lt
        rw [if_pos set] at step
        have scans : PoolWorking threads true { s.pool with main := .waiting parity (i + 1) } earlier
            (Finset.Icc 1 threads) := by
          refine ⟨working.stop, working.posts, working.sub, working.done, working.pending,
            working.flags, working.count, ?_⟩
          intro _ parity' j eq
          cases eq
          exact ⟨(working.scanned rfl parity i main).1,
            fun k hk => Finset.mem_Icc.mpr ⟨by omega, by omega⟩⟩
        obtain ⟨s', run, idle, exec⟩ := ih ⟨_, s.exec⟩ parity (i + 1) scans rfl (by omega)
        exact ⟨s', .head step run, idle, exec⟩
      · exact ⟨_, .single (.allDone parity i main rfl (by omega)), rfl, rfl⟩

section Run

variable (hok C) {dep : ℕ → ℕ → Prop} (climbs : ∀ a b, dep a b → a < b)
  (covers : ∀ a b, dep a b → TransGen (tokenTables hok pre).Covers a b)
  (race : RaceFree code dep D.nMTasks) [WellFoundedLT M]
include hok C climbs covers race

/-- From the post on. -/
theorem DensePoolReachable.finishes (reach : DensePoolReachable threads flagJoin P D code m₀ s)
    (working : PoolWorking threads flagJoin s.pool earlier acked) (busy : s.pool.main.busy) :
    ∃ s', ReflTransGen (DensePoolStep threads flagJoin P D code) s s' ∧ s'.pool.main = .idle ∧
      s'.exec.control.inPool = false ∧ s'.exec.history = s.exec.history ++ [.cycle] := by
  generalize measure : closeness C code threads acked s = μ
  induction μ using WellFoundedLT.induction generalizing s acked with
  | _ μ ih =>
    have inv := reach.inv
    have inPool := inv.entered busy.inCycle
    by_cases left : Finset.Icc 1 threads ⊆ acked → s.pool.main = .posted
    · obtain ⟨s₁, acked₁, step, busy₁, working₁, history, closer⟩ :=
        inv.exists_closer ((reach.exec.inv hok C climbs covers race).body inPool)
          ((reach.exec.control.inv hok C).pool inPool) working busy left
      obtain ⟨s', run, idle, out, done⟩ :=
        ih _ (measure ▸ closer) (reach.trans (.single step)) working₁ busy₁ rfl
      exact ⟨s', .head step run, idle, out, by rw [done, history]⟩
    · push Not at left
      obtain ⟨all, own⟩ := left
      obtain rfl : acked = Finset.Icc 1 threads := working.sub.antisymm all
      cases main : s.pool.main with
      | posted => exact absurd main own
      | waiting parity i =>
        have joined : ∃ s', ReflTransGen (DensePoolStep threads flagJoin P D code) s s' ∧
            s'.pool.main = .idle ∧ s'.exec = s.exec.join :=
          DensePoolInv.joins threads s parity i working main (by omega)
        obtain ⟨s', run, idle, exec⟩ := joined
        exact ⟨s', run, idle, by rw [exec]; rfl, by rw [exec]; rfl⟩
      | starting | idle | posting | stopping | joining | stopped =>
        rw [main] at busy
        exact busy.elim

theorem DensePoolReachable.returns (reach : DensePoolReachable threads flagJoin P D code m₀ s)
    (inPool : s.exec.control.inPool = true) :
    ∃ s', ReflTransGen (DensePoolStep threads flagJoin P D code) s s' ∧ s'.pool.main = .idle ∧
      s'.exec.control.inPool = false ∧ s'.exec.history = s.exec.history ++ [.cycle] := by
  have finishes : ∀ {s : DensePool ρ W Loc V}, DensePoolReachable threads flagJoin P D code m₀ s →
      s.pool.main.busy →
      ∃ s', ReflTransGen (DensePoolStep threads flagJoin P D code) s s' ∧ s'.pool.main = .idle ∧
        s'.exec.control.inPool = false ∧ s'.exec.history = s.exec.history ++ [.cycle] := by
    intro s reach busy
    have inv := reach.inv.pool
    unfold WorkerPoolInv at inv
    cases main : s.pool.main with
    | posted | waiting parity i =>
      rw [main] at inv
      obtain ⟨earlier, acked, working⟩ := inv
      exact reach.finishes hok C climbs covers race working busy
    | starting | idle | posting | stopping | joining | stopped =>
      rw [main] at busy
      exact busy.elim
  have posts : ∀ {s : DensePool ρ W Loc V}, DensePoolReachable threads flagJoin P D code m₀ s →
      s.pool.main = .posting →
      ∃ s', ReflTransGen (DensePoolStep threads flagJoin P D code) s s' ∧ s'.pool.main = .idle ∧
        s'.exec.control.inPool = false ∧ s'.exec.history = s.exec.history ++ [.cycle] := by
    intro s reach main
    have step : DensePoolStep threads flagJoin P D code s _ := .post main
    obtain ⟨s', run, rest⟩ := finishes (reach.trans (.single step)) trivial
    exact ⟨s', .head step run, rest⟩
  rcases reach.inv.inside inPool with idle | cycle
  · have step : DensePoolStep threads flagJoin P D code s _ := .clear idle inPool
    obtain ⟨s', run, rest⟩ := posts (reach.trans (.single step)) rfl
    exact ⟨s', .head step run, rest⟩
  · cases main : s.pool.main with
    | posting => exact posts reach main
    | posted => exact finishes reach (by rw [main]; trivial)
    | waiting parity i => exact finishes reach (by rw [main]; trivial)
    | starting | idle | stopping | joining | stopped =>
      rw [main] at cycle
      exact cycle.elim

/-- **The dense executor on the worker pool runs serially**, for worker programs that meet their
contract. -/
theorem poolRunsSerially :
    PoolRunsSerially ρ threads flagJoin P D code (serialCycle code D.nMTasks) where
  memory _ _ reach idle := (runsSerially hok C climbs covers race).memory _ _ reach.exec idle
  returns _ _ reach inPool := reach.returns hok C climbs covers race inPool

end Run

end Progress

namespace HoldsSupers

variable {G : DenseTaskGraph} {sched : MtDenseSchedule} {dag : MTaskDag}
  (h : HoldsSupers G sched dag) {supers : SuperCode Loc V} (race : G.RaceFree supers)
  {threadCount : ℕ} (A : Assignment sched.mtasks.length threadCount) (ρ : Type) (threads : ℕ)
  (flagJoin : Bool)
include h race

theorem strict_on_pool : ∃ layout, mtBuildDenseOwnerReadyLayout
    (strictRuntimeSuccs sched.mtasks A.owners) A.owners threadCount = some layout ∧
      PoolRunsSerially ρ threads flagJoin strictProgram
        (strictDispatch layout A.owners threadCount) (sched.code supers)
        (supers.fullCycle G.superId) := by
  obtain ⟨sccs, topo, mtasks, assign, reason⟩ := sched
  obtain rfl : dag.mtasks = mtasks := h.mtasks_eq
  obtain ⟨layout, slot, layoutBuilt, facts⟩ :=
    mtBuildDenseOwnerReadyLayout_eq_some (strictRuntimeSuccs_ok dag.toMTaskGraph A)
  have hok : DispatchOk (strictDispatch layout A.owners threadCount) :=
    dispatchOk_ofLayout (strictRuntimeSuccs_ok dag.toMTaskGraph A) facts _
  have size : (strictDispatch layout A.owners threadCount).nMTasks = dag.size := A.length_eq
  refine ⟨layout, layoutBuilt, ?_⟩
  rw [← h.serialCycle_eq race, ← size]
  exact poolRunsSerially hok (fun _ target => strictContract _ target)
    (fun _ _ dep => dag.dep_lt dep)
    (fun _ _ dep => strict_covers_dep dag.toMTaskGraph A facts hok dep) (h.raceFree race _)

theorem lookahead_on_pool (window : ℕ) : ∃ D,
    lookaheadDispatch sched.mtasks A.owners threadCount = some D ∧
      PoolRunsSerially ρ threads flagJoin (lookaheadProgram window) D (sched.code supers)
        (supers.fullCycle G.superId) := by
  obtain ⟨sccs, topo, mtasks, assign, reason⟩ := sched
  obtain rfl : dag.mtasks = mtasks := h.mtasks_eq
  obtain ⟨D, dispatch, size, -, locals, hok, covers⟩ := lookaheadDispatch_spec dag.toMTaskGraph A
  refine ⟨D, dispatch, ?_⟩
  rw [← h.serialCycle_eq race, ← size]
  exact poolRunsSerially hok (lookaheadContracts window locals) (fun _ _ dep => dag.dep_lt dep)
    covers (h.raceFree race _)

end HoldsSupers

/-- **The simulator with the dense executor on its worker pool evaluates the design**, for pools of
any size, both joins and both protocols. -/
theorem denseExecutor_on_pool (ρ : Type) (G : DenseTaskGraph) (k : DenseKnobs)
    (supers : SuperCode Loc V) (race : G.RaceFree supers) (threads : ℕ) (flagJoin : Bool) :
    ∃ sched, buildMtDenseSchedule G k = some sched ∧
      ∀ threadCount, ∀ A : Assignment sched.mtasks.length threadCount,
        (∃ layout, mtBuildDenseOwnerReadyLayout (strictRuntimeSuccs sched.mtasks A.owners) A.owners
            threadCount = some layout ∧
          PoolRunsSerially ρ threads flagJoin strictProgram
            (strictDispatch layout A.owners threadCount) (sched.code supers)
            (supers.fullCycle G.superId)) ∧
        ∀ window, ∃ D, lookaheadDispatch sched.mtasks A.owners threadCount = some D ∧
          PoolRunsSerially ρ threads flagJoin (lookaheadProgram window) D (sched.code supers)
            (supers.fullCycle G.superId) := by
  obtain ⟨sched, dag, built, holds⟩ := G.exists_schedule k
  refine ⟨sched, built, fun threadCount A => ⟨?_, fun window => ?_⟩⟩
  · exact holds.strict_on_pool race A ρ threads flagJoin
  · exact holds.lookahead_on_pool race A ρ threads flagJoin window

/-- Three background workers and the flag join; the schedule has two threads. -/
theorem denseExecutor_on_pool_fanOut :
    ∃ sched, buildMtDenseSchedule fanOut pinnedKnobs = some sched ∧
      ∃ A : Assignment sched.mtasks.length 2, A.owners = sched.mtaskThreadAssign ∧
        (∃ layout, mtBuildDenseOwnerReadyLayout (strictRuntimeSuccs sched.mtasks A.owners) A.owners
            2 = some layout ∧
          PoolRunsSerially Unit 3 true strictProgram (strictDispatch layout A.owners 2)
            (sched.code fanOutCode) (fanOutCode.fullCycle fanOut.superId)) ∧
        ∀ window, ∃ D, lookaheadDispatch sched.mtasks A.owners 2 = some D ∧
          PoolRunsSerially Unit 3 true (lookaheadProgram window) D (sched.code fanOutCode)
            (fanOutCode.fullCycle fanOut.superId) := by
  obtain ⟨sched, built, runs⟩ :=
    denseExecutor_on_pool Unit fanOut pinnedKnobs fanOutCode fanOut_raceFree 3 true
  obtain ⟨A, owners⟩ := fanOut.exists_assignment pinnedKnobs built
  exact ⟨sched, built, A, owners, runs 2 A⟩

end Gsim
