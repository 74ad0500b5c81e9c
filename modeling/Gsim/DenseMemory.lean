/-
  Gsim/DenseMemory.lean
  =====================
  **The dense executor and the memory of the design** (`stepDense` and the
  `stepDenseMTask` bodies of `cppEmitterDenseExec.cpp`).

  `DenseExecutor` follows the tokens.  Here the bodies of the MTasks run as well:
  between the start and the finish of an MTask its accesses are performed one by one,
  in any interleaving with the accesses of the MTasks that run on other workers.  The
  serial path performs all bodies by ascending id.

  If accesses of different MTasks that are not apart belong to MTasks that are ordered
  by dependencies, then every cycle leaves the memory as the serial path would, and
  every pool cycle comes to its end (`runsSerially`).
-/
import Gsim.DenseExecutorFacts
import Gsim.CommutingTraces

namespace Gsim

open Relation TokenProtocol CommutingTraces

variable {W Loc V : Type} [DecidableEq Loc]

/-! ### The machine -/

/-- The code of one cycle. -/
structure DenseCode (Loc V : Type) where
  /-- `resetAllDense` and the copies of the reset signals -/
  prologue : (Loc → V) → Loc → V
  /-- the accesses of `stepDenseMTask` -/
  body : ℕ → List (Access Loc V)

/-- What happens to the memory between two cycles or by a cycle. -/
inductive MemTurn (Loc V : Type) where
  | cycle
  | poke (f : (Loc → V) → Loc → V)

structure MemState (W Loc V : Type) where
  control : DenseState W
  mem : Loc → V
  /-- how many accesses of its body each MTask has performed in this pool cycle -/
  performed : ℕ → ℕ
  /-- all of them, oldest first, as MTask and place in its body -/
  log : List (ℕ × ℕ)
  /-- the memory at the start of the pool cycle -/
  entered : Loc → V
  history : List (MemTurn Loc V)

/-- The serial path of `stepDense`. -/
def serialCycle (code : DenseCode Loc V) (nMTasks : ℕ) (m : Loc → V) : Loc → V :=
  exec Access.run ((List.range nMTasks).flatMap code.body) (code.prologue m)

/-- The next access of an MTask. -/
def MemState.access (s : MemState W Loc V) (m : ℕ) (a : Access Loc V) : MemState W Loc V :=
  { s with
    mem := a.run s.mem
    performed := Function.update s.performed m (s.performed m + 1)
    log := s.log ++ [(m, s.performed m)] }

/-- The pool path of `stepDense` up to `mtWorkerPoolPost`. -/
def MemState.enter (P : WorkerProgram W) (D : DenseDispatch) (code : DenseCode Loc V)
    (s : MemState W Loc V) : MemState W Loc V :=
  { s with
    control := enterPool P D s.control
    mem := code.prologue s.mem
    performed := fun _ => 0
    log := []
    entered := code.prologue s.mem }

/-- After `mtWorkerPoolWaitForDone`. -/
def MemState.join (s : MemState W Loc V) : MemState W Loc V :=
  { s with
    control := { s.control with inPool := false, cycles := s.control.cycles + 1 }
    history := s.history ++ [.cycle] }

/-- A call of `stepDense` that takes the serial path. -/
def MemState.serial (D : DenseDispatch) (code : DenseCode Loc V) (s : MemState W Loc V) :
    MemState W Loc V :=
  { s with
    control := { s.control with tokensPrimed := false, cycles := s.control.cycles + 1, trace := [] }
    mem := serialCycle code D.nMTasks s.mem
    history := s.history ++ [.cycle] }

/-- The setters of the inputs. -/
def MemState.poke (f : (Loc → V) → Loc → V) (s : MemState W Loc V) : MemState W Loc V :=
  { s with mem := f s.mem, history := s.history ++ [.poke f] }

section Machine

variable (P : WorkerProgram W) (D : DenseDispatch) (code : DenseCode Loc V)

/-- A step of the workers in the pool. -/
inductive MemPoolStep (s : MemState W Loc V) : MemState W Loc V → Prop
  /-- a step of the worker program; a body is finished when all its accesses are done -/
  | work (t : ℕ) (w : W) (a : Action) (pool : s.control.inPool = true) (ht : t < D.threadCount)
      (step : P.step (D.table t) (targetOf s.control.cycles) s.control.ready (s.control.workers t) =
        some (w, a))
      (complete : ∀ m, a = .finish m → s.performed m = (code.body m).length) :
      MemPoolStep s { s with control := s.control.perform t w a }
  /-- an access of an MTask that runs -/
  | access (m : ℕ) (a : Access Loc V) (pool : s.control.inPool = true)
      (running : s.control.statusOf P D m = .running)
      (next : (code.body m)[s.performed m]? = some a) :
      MemPoolStep s (s.access m a)

/-- The same for one worker: `stepDenseThreadWorker(t)` goes on. -/
inductive LaneStep (t : ℕ) (s : MemState W Loc V) : MemState W Loc V → Prop
  | work (w : W) (a : Action) (ht : t < D.threadCount)
      (step : P.step (D.table t) (targetOf s.control.cycles) s.control.ready (s.control.workers t) =
        some (w, a))
      (complete : ∀ m, a = .finish m → s.performed m = (code.body m).length) :
      LaneStep t s { s with control := s.control.perform t w a }
  | access (m : ℕ) (a : Access Loc V) (owner : D.owner m = t)
      (running : s.control.statusOf P D m = .running)
      (next : (code.body m)[s.performed m]? = some a) :
      LaneStep t s (s.access m a)

inductive MemStep (s : MemState W Loc V) : MemState W Loc V → Prop
  | enter (idle : s.control.inPool = false) : MemStep s (s.enter P D code)
  | pool (s' : MemState W Loc V) (step : MemPoolStep P D code s s') : MemStep s s'
  | join (pool : s.control.inPool = true)
      (returned : ∀ t, t < D.threadCount → P.returned (D.table t) (s.control.workers t) = true) :
      MemStep s s.join
  | serial (idle : s.control.inPool = false) : MemStep s (s.serial D code)
  /-- between two cycles -/
  | poke (f : (Loc → V) → Loc → V) (idle : s.control.inPool = false) : MemStep s (s.poke f)

/-- The states of all runs from a given memory. -/
def MemReachable (m₀ : Loc → V) (s : MemState W Loc V) : Prop :=
  ∃ s₀ : MemState W Loc V, InitialState s₀.control ∧ s₀.mem = m₀ ∧ s₀.history = [] ∧
    ReflTransGen (MemStep P D code) s₀ s

end Machine

/-- The memory after some turns, for a given cycle function. -/
def replay (cycle : (Loc → V) → Loc → V) (history : List (MemTurn Loc V)) (m : Loc → V) : Loc → V :=
  history.foldl (fun m turn => match turn with
    | .cycle => cycle m
    | .poke f => f m) m

omit [DecidableEq Loc] in
theorem replay_append (cycle : (Loc → V) → Loc → V) (history : List (MemTurn Loc V))
    (turn : MemTurn Loc V) (m : Loc → V) :
    replay cycle (history ++ [turn]) m = replay cycle [turn] (replay cycle history m) :=
  List.foldl_append

/-- **What the dense executor is for**: between cycles the memory is that of serial cycles, a
pool cycle that cannot go on joins, and no pool cycle goes on for ever. -/
structure RunsSerially (P : WorkerProgram W) (D : DenseDispatch) (code : DenseCode Loc V)
    (cycle : (Loc → V) → Loc → V) : Prop where
  memory : ∀ m₀ s, MemReachable P D code m₀ s → s.control.inPool = false →
    s.mem = replay cycle s.history m₀
  joins : ∀ m₀ s, MemReachable P D code m₀ s → s.control.inPool = true →
    (∀ s', ¬ MemPoolStep P D code s s') →
      ∀ t < D.threadCount, P.returned (D.table t) (s.control.workers t) = true
  ends : ∀ m₀ (run : ℕ → MemState W Loc V), MemReachable P D code m₀ (run 0) →
    ¬ ∀ i, MemPoolStep P D code (run i) (run (i + 1))

/-! ### The order of the accesses -/

/-- The first access has to come before the second one. -/
def Precedes (dep : ℕ → ℕ → Prop) (x y : ℕ × ℕ) : Prop :=
  (x.1 = y.1 ∧ x.2 < y.2) ∨ TransGen dep x.1 y.1

/-- An access, if there is one. -/
def runAny (a : Option (Access Loc V)) (m : Loc → V) : Loc → V := a.elim m fun a => a.run m

/-- An access by its place. -/
def performAt (code : DenseCode Loc V) (x : ℕ × ℕ) : (Loc → V) → Loc → V :=
  runAny (code.body x.1)[x.2]?

/-- The accesses of the serial path. -/
def serialLog (code : DenseCode Loc V) (nMTasks : ℕ) : List (ℕ × ℕ) :=
  (List.range nMTasks).flatMap fun m => (List.range (code.body m).length).map (Prod.mk m)

section Order

variable {code : DenseCode Loc V}

omit [DecidableEq Loc] in
theorem mem_serialLog {nMTasks : ℕ} {x : ℕ × ℕ} :
    x ∈ serialLog code nMTasks ↔ x.1 < nMTasks ∧ x.2 < (code.body x.1).length := by
  obtain ⟨m, i⟩ := x
  simp [serialLog]

omit [DecidableEq Loc] in
theorem serialLog_sorted (nMTasks : ℕ) :
    (serialLog code nMTasks).Pairwise fun x y => x.1 < y.1 ∨ (x.1 = y.1 ∧ x.2 < y.2) := by
  refine List.pairwise_flatMap.mpr ⟨fun m _ => ?_, ?_⟩
  · refine List.pairwise_map.mpr (List.pairwise_lt_range.imp fun lt => ?_)
    exact Or.inr ⟨rfl, lt⟩
  · refine List.pairwise_lt_range.imp fun lt x hx y hy => ?_
    obtain ⟨i, -, rfl⟩ := List.mem_map.mp hx
    obtain ⟨j, -, rfl⟩ := List.mem_map.mp hy
    exact Or.inl lt

omit [DecidableEq Loc] in
theorem serialLog_nodup (nMTasks : ℕ) : (serialLog code nMTasks).Nodup := by
  refine (serialLog_sorted nMTasks).imp ?_
  rintro x y (lt | ⟨-, lt⟩) rfl
  · exact lt.false
  · exact lt.false

omit [DecidableEq Loc] in
/-- Ascending ids respect the dependencies. -/
theorem serialLog_linearises {dep : ℕ → ℕ → Prop} (climbs : ∀ a b, dep a b → a < b) (nMTasks : ℕ) :
    Linearises (Precedes dep) (serialLog code nMTasks) := by
  have path : ∀ a b, TransGen dep a b → a < b := by
    intro a b h
    induction h with
    | single edge => exact climbs a _ edge
    | tail _ edge ih => exact ih.trans (climbs _ _ edge)
  refine (serialLog_sorted nMTasks).imp ?_
  rintro x y (lt | ⟨eq, lt⟩) (⟨eq', lt'⟩ | before)
  · exact lt.ne eq'.symm
  · exact lt.not_gt (path _ _ before)
  · exact lt.not_gt lt'
  · exact (path _ _ before).ne eq.symm

theorem exec_serialLog (nMTasks : ℕ) (m : Loc → V) :
    exec (performAt code) (serialLog code nMTasks) m =
      exec Access.run ((List.range nMTasks).flatMap code.body) m := by
  have one : ∀ k, exec (performAt code) ((List.range (code.body k).length).map (Prod.mk k)) =
      exec Access.run (code.body k) := by
    intro k
    funext m
    have self : (code.body k).map some =
        (List.range (code.body k).length).map fun i => (code.body k)[i]? := by
      refine List.ext_getElem (by simp) fun i h₁ h₂ => ?_
      simp
    have access : exec Access.run (code.body k) m = exec runAny ((code.body k).map some) m := by
      rw [exec_map]
      rfl
    rw [access, self, exec_map, exec_map]
    rfl
  rw [serialLog, exec_flatMap, exec_flatMap]
  exact exec_congr (fun k _ => one k) m

/-- Accesses of different MTasks that are not apart belong to ordered MTasks. -/
def RaceFree (code : DenseCode Loc V) (dep : ℕ → ℕ → Prop) (nMTasks : ℕ) : Prop :=
  ∀ m < nMTasks, ∀ m' < nMTasks, m ≠ m' → ∀ a ∈ code.body m, ∀ b ∈ code.body m',
    a.Apart b ∨ TransGen dep m m' ∨ TransGen dep m' m

/-- **Any order of the accesses that respects the dependencies** ends like the serial path. -/
theorem exec_log {dep : ℕ → ℕ → Prop} (climbs : ∀ a b, dep a b → a < b) {nMTasks : ℕ}
    (race : RaceFree code dep nMTasks) {log : List (ℕ × ℕ)} (nodup : log.Nodup)
    (all : ∀ x, x ∈ log ↔ x.1 < nMTasks ∧ x.2 < (code.body x.1).length)
    (order : Linearises (Precedes dep) log) (m : Loc → V) :
    exec (performAt code) log m = exec Access.run ((List.range nMTasks).flatMap code.body) m := by
  have perm : log.Perm (serialLog code nMTasks) :=
    (List.perm_ext_iff_of_nodup nodup (serialLog_nodup nMTasks)).mpr fun x =>
      (all x).trans mem_serialLog.symm
  rw [← exec_serialLog]
  refine exec_eq_of_linearises perm order (serialLog_linearises climbs nMTasks) ?_ m
  intro x hx y hy unordered unordered'
  obtain ⟨hx, hxi⟩ := (all x).mp hx
  obtain ⟨hy, hyi⟩ := (all y).mp hy
  have runs : ∀ {z : ℕ × ℕ} (hz : z.2 < (code.body z.1).length),
      performAt code z = ((code.body z.1)[z.2]).run := by
    intro z hz
    rw [performAt, List.getElem?_eq_getElem hz]
    rfl
  by_cases same : x.1 = y.1
  · -- one MTask: the places differ only if they are ordered
    have place : x.2 = y.2 := by
      rcases Nat.lt_trichotomy x.2 y.2 with lt | eq | lt
      · exact absurd (Or.inl ⟨same, lt⟩) unordered
      · exact eq
      · exact absurd (Or.inl ⟨same.symm, lt⟩) unordered'
    rw [Prod.ext same place]
  · rw [runs hxi, runs hyi]
    rcases race x.1 hx y.1 hy same _ (List.getElem_mem hxi) _ (List.getElem_mem hyi) with
      apart | before | after
    · exact apart.commute
    · exact absurd (Or.inr before) unordered
    · exact absurd (Or.inr after) unordered'

omit [DecidableEq Loc] in
/-- More dependencies, fewer orders. -/
theorem linearises_mono {dep dep' : ℕ → ℕ → Prop} (sub : ∀ a b, dep a b → TransGen dep' a b)
    {log : List (ℕ × ℕ)} (h : Linearises (Precedes dep') log) : Linearises (Precedes dep) log :=
  List.Pairwise.imp (fun not before => not (before.imp_right (TransGen.closed sub _ _))) h

end Order

/-! ### Invariants -/

section Invariant

variable {M : Type} [Preorder M] {P : WorkerProgram W} {D : DenseDispatch} {code : DenseCode Loc V}
  {pre : ℕ → ℕ → ℕ → Prop} {m₀ : Loc → V} {s s' : MemState W Loc V}

/-- The workers of a step behave as in `DenseExecutor`. -/
theorem MemPoolStep.control (h : MemPoolStep P D code s s') :
    s'.control = s.control ∨ ∃ t, WorkStep P D t s.control s'.control := by
  cases h with
  | work t w a pool ht step complete => exact Or.inr ⟨t, pool, ht, w, a, step, rfl⟩
  | access => exact Or.inl rfl

theorem MemStep.control (h : MemStep P D code s s') :
    ReflTransGen (DenseStep P D) s.control s'.control := by
  cases h with
  | enter idle => exact ReflTransGen.single (.enter idle)
  | pool s' step =>
    rcases step.control with same | ⟨t, work⟩
    · rw [same]
    · exact ReflTransGen.single (.work t _ work)
  | join pool returned => exact ReflTransGen.single (.join pool returned)
  | serial idle => exact ReflTransGen.single (.serial idle)
  | poke => exact ReflTransGen.refl

theorem MemReachable.control (h : MemReachable P D code m₀ s) : Reachable P D s.control := by
  obtain ⟨s₀, init, -, -, run⟩ := h
  refine ⟨s₀.control, init, ?_⟩
  induction run with
  | refl => exact ReflTransGen.refl
  | tail _ step ih => exact ih.trans step.control

theorem MemPoolStep.from_inPool (h : MemPoolStep P D code s s') : s.control.inPool = true := by
  cases h with
  | work t w a pool => exact pool
  | access m a pool => exact pool

theorem MemPoolStep.inPool (h : MemPoolStep P D code s s') : s'.control.inPool = true := by
  cases h with
  | work t w a pool ht step complete => rw [perform_inPool, pool]
  | access m a pool => exact pool

theorem mem_trace_perform {c : DenseState W} {t : ℕ} {w : W} {a : Action} {e : Event ℕ}
    (h : e ∈ c.trace) : e ∈ (c.perform t w a).trace := by
  cases a with
  | load => exact h
  | start m => exact List.mem_append_left _ h
  | finish m => exact List.mem_append_left _ h
  | store slot => exact h

/-- A finish in the trace is an old one or that of the step. -/
theorem finish_mem_perform {c : DenseState W} {t : ℕ} {w : W} {a : Action} {m : ℕ}
    (h : .finish m ∈ (c.perform t w a).trace) : .finish m ∈ c.trace ∨ a = .finish m := by
  cases a with
  | load => exact Or.inl h
  | store slot => exact Or.inl h
  | start m' =>
    rcases List.mem_append.mp h with old | new
    · exact Or.inl old
    · cases List.mem_singleton.mp new
  | finish m' =>
    rcases List.mem_append.mp h with old | new
    · exact Or.inl old
    · cases List.mem_singleton.mp new
      exact Or.inr rfl

/-- During a pool cycle: what has been performed of the bodies, and in which order. -/
structure BodyInv (hok : DispatchOk D) (pre : ℕ → ℕ → ℕ → Prop) (code : DenseCode Loc V)
    (s : MemState W Loc V) : Prop where
  mem_eq : s.mem = exec (performAt code) s.log s.entered
  log_iff : ∀ x, x ∈ s.log ↔ x.2 < s.performed x.1
  bound : ∀ m, s.performed m ≤ (code.body m).length
  nodup : s.log.Nodup
  order : Linearises (Precedes (tokenTables hok pre).Covers) s.log
  started : ∀ m, 0 < s.performed m → .start m ∈ s.control.trace
  finished : ∀ m, .finish m ∈ s.control.trace → s.performed m = (code.body m).length

variable {hok : DispatchOk D} {C : ∀ t target, WorkerContract M P (D.table t) target (pre t)}

omit [DecidableEq Loc] in
/-- An MTask that runs has started and has not finished. -/
theorem PoolInv.of_running (h : PoolInv hok C s.control) {m : ℕ}
    (running : s.control.statusOf P D m = .running) :
    .start m ∈ s.control.trace ∧ .finish m ∉ s.control.trace := by
  constructor
  · refine (h.tokens.start_iff m).mpr fun idle => ?_
    cases running.symm.trans idle
  · intro fin
    obtain ⟨rest, storing⟩ := (h.tokens.finish_iff m).mp fin
    cases running.symm.trans storing

theorem BodyInv.work (h : BodyInv hok pre code s) {t : ℕ} {w : W} {a : Action}
    (complete : ∀ m, a = .finish m → s.performed m = (code.body m).length) :
    BodyInv hok pre code { s with control := s.control.perform t w a } where
  mem_eq := h.mem_eq
  log_iff := h.log_iff
  bound := h.bound
  nodup := h.nodup
  order := h.order
  started m some_ := mem_trace_perform (h.started m some_)
  finished m fin := by
    rcases finish_mem_perform fin with old | new
    · exact h.finished m old
    · exact complete m new

/-- An access goes last: the MTasks that rely on its own have not started. -/
theorem BodyInv.access (h : BodyInv hok pre code s) (pool : PoolInv hok C s.control) {m : ℕ}
    {a : Access Loc V} (running : s.control.statusOf P D m = .running)
    (next : (code.body m)[s.performed m]? = some a) :
    BodyInv hok pre code (s.access m a) := by
  obtain ⟨started, unfinished⟩ := pool.of_running running
  have inside : s.performed m < (code.body m).length := (List.getElem?_eq_some_iff.mp next).1
  refine ⟨?_, ?_, ?_, ?_, ?_, ?_, ?_⟩
  · show a.run s.mem = exec (performAt code) (s.log ++ [(m, s.performed m)]) s.entered
    rw [exec_append, ← h.mem_eq, exec_cons, exec_nil, performAt, next]
    rfl
  · intro (m', i)
    show (m', i) ∈ s.log ++ [(m, s.performed m)] ↔
      i < Function.update s.performed m (s.performed m + 1) m'
    rw [List.mem_append, h.log_iff, List.mem_singleton]
    by_cases same : m' = m
    · subst same
      rw [Function.update_self, Nat.lt_succ_iff_lt_or_eq]
      simp
    · rw [Function.update_of_ne same]
      simp [same]
  · intro m'
    show Function.update s.performed m (s.performed m + 1) m' ≤ _
    by_cases same : m' = m
    · subst same
      rw [Function.update_self]
      exact inside
    · rw [Function.update_of_ne same]
      exact h.bound m'
  · refine List.nodup_append.mpr ⟨h.nodup, List.nodup_singleton _, ?_⟩
    rintro x hx y hy rfl
    rw [List.mem_singleton.mp hy, h.log_iff] at hx
    exact hx.false
  · refine h.order.append fun y hy => ?_
    have hy := (h.log_iff y).mp hy
    rintro (⟨same, lt⟩ | relies)
    · change m = y.1 at same
      rw [← same] at hy
      exact lt.not_gt hy
    · -- a started MTask finds everything that it relies on finished
      have begun := h.started y.1 (Nat.zero_lt_of_lt hy)
      exact unfinished (pool.tokens.finished_of_covers begun relies)
  · intro m' some_
    change 0 < Function.update s.performed m (s.performed m + 1) m' at some_
    by_cases same : m' = m
    · rw [same]
      exact started
    · rw [Function.update_of_ne same] at some_
      exact h.started m' some_
  · intro m' fin
    show Function.update s.performed m (s.performed m + 1) m' = _
    by_cases same : m' = m
    · rw [same] at fin
      exact absurd fin unfinished
    · rw [Function.update_of_ne same]
      exact h.finished m' fin

/-- All workers have returned: the bodies are done. -/
theorem BodyInv.joined (h : BodyInv hok pre code s) (pool : PoolInv hok C s.control)
    (returned : ∀ t, t < D.threadCount → P.returned (D.table t) (s.control.workers t) = true)
    {dep : ℕ → ℕ → Prop} (climbs : ∀ a b, dep a b → a < b)
    (covers : ∀ a b, dep a b → TransGen (tokenTables hok pre).Covers a b)
    (race : RaceFree code dep D.nMTasks) :
    s.mem = exec Access.run ((List.range D.nMTasks).flatMap code.body) s.entered := by
  rw [h.mem_eq]
  refine exec_log climbs race h.nodup (fun x => ?_) (linearises_mono covers h.order) _
  rw [h.log_iff]
  by_cases hx : x.1 < D.nMTasks
  · have fin := (pool.tokens.finish_iff x.1).mpr ⟨[], pool.executed_of_returned returned hx⟩
    rw [h.finished x.1 fin]
    exact (and_iff_right hx).symm
  · have idle : s.control.statusOf P D x.1 = .idle := if_neg hx
    have none : s.performed x.1 = 0 := by
      by_contra ne
      exact (pool.tokens.start_iff x.1).mp (h.started x.1 (Nat.pos_of_ne_zero ne)) idle
    rw [none]
    exact ⟨fun lt => absurd lt (Nat.not_lt_zero _), fun both => absurd both.1 hx⟩

/-- In every state of a run. -/
structure MemInv (hok : DispatchOk D) (pre : ℕ → ℕ → ℕ → Prop) (code : DenseCode Loc V)
    (m₀ : Loc → V) (s : MemState W Loc V) : Prop where
  idle : s.control.inPool = false → s.mem = replay (serialCycle code D.nMTasks) s.history m₀
  entered : s.control.inPool = true →
    s.entered = code.prologue (replay (serialCycle code D.nMTasks) s.history m₀)
  body : s.control.inPool = true → BodyInv hok pre code s

theorem BodyInv.enter (hok : DispatchOk D) (pre : ℕ → ℕ → ℕ → Prop) (s : MemState W Loc V) :
    BodyInv hok pre code (s.enter P D code) where
  mem_eq := rfl
  log_iff _ := ⟨fun mem => absurd mem List.not_mem_nil, fun lt => absurd lt (Nat.not_lt_zero _)⟩
  bound _ := Nat.zero_le _
  nodup := List.nodup_nil
  order := List.Pairwise.nil
  started _ some_ := absurd some_ (Nat.lt_irrefl 0)
  finished _ fin := absurd fin List.not_mem_nil

theorem MemInv.step (h : MemInv hok pre code m₀ s) (exec_ : ExecInv hok C s.control)
    {dep : ℕ → ℕ → Prop} (climbs : ∀ a b, dep a b → a < b)
    (covers : ∀ a b, dep a b → TransGen (tokenTables hok pre).Covers a b)
    (race : RaceFree code dep D.nMTasks) (step : MemStep P D code s s') :
    MemInv hok pre code m₀ s' := by
  cases step with
  | enter idle =>
    refine ⟨fun out => Bool.noConfusion out, fun _ => ?_, fun _ => BodyInv.enter hok pre s⟩
    exact congrArg code.prologue (h.idle idle)
  | pool s' step =>
    refine ⟨fun out => ?_, fun _ => ?_, fun _ => ?_⟩
    · rw [step.inPool] at out
      cases out
    · cases step with
      | work t w a pool => exact h.entered pool
      | access m a pool => exact h.entered pool
    · cases step with
      | work t w a pool _ _ complete => exact (h.body pool).work complete
      | access m a pool running next => exact (h.body pool).access (exec_.pool pool) running next
  | join pool returned =>
    refine ⟨fun _ => ?_, fun out => Bool.noConfusion out, fun out => Bool.noConfusion out⟩
    show s.mem = replay _ (s.history ++ [.cycle]) m₀
    rw [replay_append, (h.body pool).joined (exec_.pool pool) returned climbs covers race,
      h.entered pool]
    rfl
  | serial idle =>
    refine ⟨fun _ => ?_, fun out => ?_, fun out => ?_⟩
    · show serialCycle code D.nMTasks s.mem = replay _ (s.history ++ [.cycle]) m₀
      rw [replay_append, h.idle idle]
      rfl
    · cases idle.symm.trans out
    · cases idle.symm.trans out
  | poke f idle =>
    refine ⟨fun _ => ?_, fun out => ?_, fun out => ?_⟩
    · show f s.mem = replay _ (s.history ++ [.poke f]) m₀
      rw [replay_append, h.idle idle]
      rfl
    · cases idle.symm.trans out
    · cases idle.symm.trans out

theorem MemReachable.inv (h : MemReachable P D code m₀ s) (hok : DispatchOk D)
    (C : ∀ t target, WorkerContract M P (D.table t) target (pre t)) {dep : ℕ → ℕ → Prop}
    (climbs : ∀ a b, dep a b → a < b)
    (covers : ∀ a b, dep a b → TransGen (tokenTables hok pre).Covers a b)
    (race : RaceFree code dep D.nMTasks) : MemInv hok pre code m₀ s := by
  obtain ⟨s₀, init, mem, history, run⟩ := h
  induction run with
  | refl =>
    refine ⟨fun _ => ?_, fun out => ?_, fun out => ?_⟩
    · rw [mem, history]
      rfl
    · cases init.2.1.symm.trans out
    · cases init.2.1.symm.trans out
  | tail before step ih =>
    have reach : MemReachable P D code m₀ _ := ⟨s₀, init, mem, history, before⟩
    exact ih.step (reach.control.inv hok C) climbs covers race step

/-! ### A pool cycle comes to its end -/

/-- A worker whose program can step goes on, if only by an access of its body. -/
theorem BodyInv.exists_laneStep (h : BodyInv hok pre code s) (pool : PoolInv hok C s.control)
    {t : ℕ} {c : DenseState W} (work : WorkStep P D t s.control c) :
    ∃ s', LaneStep P D code t s s' := by
  obtain ⟨-, ht, w, a, step, rfl⟩ := work
  by_cases complete : ∀ m, a = .finish m → s.performed m = (code.body m).length
  · exact ⟨_, .work w a ht step complete⟩
  push Not at complete
  obtain ⟨m, rfl, unfinished⟩ := complete
  obtain ⟨-, -, move⟩ := (C t _).step_ok (pool.workers t) step
  cases move with
  | finish p e he running _ =>
    have inside := lt_of_le_of_ne (h.bound e.fn) unfinished
    exact ⟨_, .access e.fn _ (table_eq_some he).2.1 ((statusOf_entry he).trans running)
      (List.getElem?_eq_getElem inside)⟩

theorem LaneStep.memPoolStep {t : ℕ} (pool : s.control.inPool = true)
    (h : LaneStep P D code t s s') : MemPoolStep P D code s s' := by
  cases h with
  | work w a ht step complete => exact .work t w a pool ht step complete
  | access m a _ running next => exact .access m a pool running next

/-- If no step is left, then no worker waits for its own body. -/
theorem BodyInv.no_work (h : BodyInv hok pre code s) (pool : PoolInv hok C s.control)
    (stuck : ∀ s', ¬ MemPoolStep P D code s s') (t : ℕ) (c : DenseState W) :
    ¬ WorkStep P D t s.control c := by
  intro work
  obtain ⟨s', step⟩ := h.exists_laneStep pool work
  exact stuck s' (step.memPoolStep work.1)

/-- The accesses that are left. -/
def accessesLeft (D : DenseDispatch) (code : DenseCode Loc V) (s : MemState W Loc V) : ℕ :=
  ∑ m ∈ Finset.range D.nMTasks, ((code.body m).length - s.performed m)

theorem accessesLeft_access {m : ℕ} {a : Access Loc V}
    (running : s.control.statusOf P D m = .running)
    (next : (code.body m)[s.performed m]? = some a) :
    accessesLeft D code (s.access m a) < accessesLeft D code s := by
  have hm : m < D.nMTasks := by
    by_contra ge
    cases running.symm.trans (if_neg ge)
  have inside : s.performed m < (code.body m).length := (List.getElem?_eq_some_iff.mp next).1
  have here : (s.access m a).performed m = s.performed m + 1 := Function.update_self ..
  refine Finset.sum_lt_sum (fun k _ => ?_) ⟨m, Finset.mem_range.mpr hm, ?_⟩
  · by_cases same : k = m
    · rw [same, here]
      exact Nat.sub_le_sub_left (Nat.le_succ _) _
    · have there : (s.access m a).performed k = s.performed k := Function.update_of_ne same ..
      rw [there]
  · rw [here]
    exact Nat.sub_succ_lt_self _ _ inside

/-- The measures of the workers, then the accesses that are left. -/
def runMeasure (C : ∀ t target, WorkerContract M P (D.table t) target (pre t))
    (code : DenseCode Loc V) (s : MemState W Loc V) : (Fin D.threadCount → M) ×ₗ ℕ :=
  toLex (poolMeasure C s.control, accessesLeft D code s)

theorem MemPoolStep.measure_lt (pool : PoolInv hok C s.control) (step : MemPoolStep P D code s s') :
    runMeasure C code s' < runMeasure C code s := by
  refine Prod.Lex.toLex_lt_toLex.mpr ?_
  cases step with
  | work t w a inPool ht step _ =>
    exact Or.inl (pool.measure_lt ⟨inPool, ht, w, a, step, rfl⟩)
  | access m a _ running next => exact Or.inr ⟨rfl, accessesLeft_access running next⟩

/-- **The dense executor runs serially**, for worker programs that meet their contract and code
whose conflicting accesses are ordered by dependencies. -/
theorem runsSerially [WellFoundedLT M] (hok : DispatchOk D)
    (C : ∀ t target, WorkerContract M P (D.table t) target (pre t)) {dep : ℕ → ℕ → Prop}
    (climbs : ∀ a b, dep a b → a < b)
    (covers : ∀ a b, dep a b → TransGen (tokenTables hok pre).Covers a b)
    (race : RaceFree code dep D.nMTasks) :
    RunsSerially P D code (serialCycle code D.nMTasks) where
  memory _ _ reach idle := (reach.inv hok C climbs covers race).idle idle
  joins _ _ reach inPool stuck := by
    have pool := (reach.control.inv hok C).pool inPool
    have body := (reach.inv hok C climbs covers race).body inPool
    exact (pool.stuck inPool (body.no_work pool stuck)).2
  ends m₀ run reach steps := by
    have inv : ∀ i, PoolInv hok C (run i).control := by
      intro i
      induction i with
      | zero => exact (reach.control.inv hok C).pool (steps 0).from_inPool
      | succ i ih =>
        rcases (steps i).control with same | ⟨t, work⟩
        · rw [same]
          exact ih
        · exact ih.work work
    have descends : ∀ i, runMeasure C code (run (i + 1)) < runMeasure C code (run i) :=
      fun i => (steps i).measure_lt (inv i)
    exact (RelEmbedding.natGT _ descends).not_wellFounded wellFounded_lt

end Invariant

end Gsim
