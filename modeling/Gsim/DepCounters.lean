/-
  Gsim/DepCounters.lean
  =====================
  **Dependency counters** (the counter path of `emitFixedDenseThreadWorker` and
  `stepDense` in `cppEmitterDenseExec.cpp`).

  A counter goes up to its dependency count in an even cycle and back down to zero
  in an odd one, and is never reset: an MTask waits for the end that the parity of
  `cycles` stands for.  The serial fallback advances `cycles` and leaves the
  counters alone.  So they mean what they should as long as the pool path is taken
  after an even number of serial calls only (`inPhase_noConfusion`); the owner-ready
  tokens are rephased after a serial call, the counters are not
  (`serial_then_pool_confuses`).
-/
import Gsim.DenseExecutor

namespace Gsim

open Relation

/-! ## Tables -/

/-- `kDenseMTaskSuccList`, the owners, the generator switch that leaves empty waits out, and
what `initMtProfile` reads from the environment. -/
structure CounterTables where
  runtimeSuccs : List (List Nat)
  assignment : List Int
  threadCount : Nat
  staticEmptyElide : Bool
  configuredWorkerCount : Nat
  workerPoolEnabled : Bool
  length_eq : assignment.length = runtimeSuccs.length
  owned : ∀ m < runtimeSuccs.length,
    0 ≤ assignAt assignment m ∧ assignAt assignment m < threadCount
  nodup : ∀ m, (succsAt runtimeSuccs m).Nodup
  /-- MTask ids are `int`s -/
  few : runtimeSuccs.length < 2 ^ 31

namespace CounterTables

variable (T : CounterTables)

def nMTasks : Nat := T.runtimeSuccs.length

/-- `pred` is counted by `m`. -/
def Counted (pred m : Nat) : Prop := m ∈ succsAt T.runtimeSuccs pred

instance (pred m : Nat) : Decidable (T.Counted pred m) :=
  inferInstanceAs (Decidable (m ∈ succsAt T.runtimeSuccs pred))

/-- `denseRuntimeDepCounts`. -/
def depCount (m : Nat) : Nat := ((List.range T.nMTasks).filter fun pred => T.Counted pred m).length

/-- `evenCycle ? kDenseMTaskDepCount[m] : 0u`. -/
def target (evenCycle : Bool) (m : Nat) : UInt32 :=
  if evenCycle then UInt32.ofNat (T.depCount m) else 0

def skipDenseWait (m : Nat) : Bool := T.staticEmptyElide ∧ T.depCount m = 0

def table (t : Nat) : List Nat := workerMTasks T.assignment t

end CounterTables

/-! ## Workers -/

inductive CounterPc where
  | waiting
  | body
  | signalling (succs : List Nat)
deriving DecidableEq, Repr

/-- The MTasks that a worker has left, and where it stands in the first. -/
structure CounterWorker where
  todo : List Nat
  pc : CounterPc
deriving DecidableEq, Repr

inductive CounterAct where
  | start (mtaskId : Nat)
  | finish (mtaskId : Nat)
  | signal (mtaskId succ : Nat)
  | next
deriving DecidableEq, Repr

/-- One step of the unrolled loop; `none` is a spin, or the end of the case. -/
def counterStep (T : CounterTables) (evenCycle : Bool) (depsDone : Nat → UInt32)
    (w : CounterWorker) : Option (CounterWorker × CounterAct) :=
  match w.todo, w.pc with
  | [], _ => none
  | m :: _, .waiting =>
    if T.skipDenseWait m ∨ depsDone m = T.target evenCycle m then
      some ({ w with pc := .body }, .start m)
    else none
  | m :: _, .body => some ({ w with pc := .signalling (succsAt T.runtimeSuccs m) }, .finish m)
  | m :: _, .signalling (succ :: succs) =>
    some ({ w with pc := .signalling succs }, .signal m succ)
  | _ :: rest, .signalling [] => some ({ todo := rest, pc := .waiting }, .next)

/-! ## Runs -/

structure CounterState where
  cycles : Nat
  workerPoolThreadCount : Nat
  depsDone : Nat → UInt32
  inPool : Bool
  workers : Nat → CounterWorker
  /-- the signals of the current pool cycle, from an MTask to a successor -/
  signals : List (Nat × Nat)
  /-- how many calls have taken the serial fallback -/
  serialCalls : Nat

namespace CounterState

def evenCycle (s : CounterState) : Bool := s.cycles % 2 = 0

/-- `fetch_add` in even cycles, `fetch_sub` in odd ones. -/
def perform (s : CounterState) (t : Nat) (w : CounterWorker) (a : CounterAct) : CounterState :=
  let s := { s with workers := Function.update s.workers t w }
  match a with
  | .signal m succ =>
    { s with
      depsDone := Function.update s.depsDone succ
        (if s.evenCycle then s.depsDone succ + 1 else s.depsDone succ - 1)
      signals := (m, succ) :: s.signals }
  | _ => s

/-- As constructed; without `GSIM_MT_LAZY_WORKER_POOL` the pool is then started at once. -/
def initial : CounterState where
  cycles := 0
  workerPoolThreadCount := 0
  depsDone _ := 0
  inPool := false
  workers _ := ⟨[], .waiting⟩
  signals := []
  serialCalls := 0

/-- There are threads already when the count is not zero. -/
def startMtWorkerPool (T : CounterTables) (s : CounterState) : CounterState :=
  if T.workerPoolEnabled = false ∨ T.configuredWorkerCount ≤ 1 ∨ s.workerPoolThreadCount ≠ 0 then s
  else { s with workerPoolThreadCount := T.configuredWorkerCount - 1 }

/-- The condition under which `stepDense` posts to the pool. -/
def usesPool (T : CounterTables) (s : CounterState) : Prop :=
  T.configuredWorkerCount = T.threadCount ∧ T.workerPoolEnabled = true ∧
    T.configuredWorkerCount ≤ s.workerPoolThreadCount + 1

def enterPool (T : CounterTables) (s : CounterState) : CounterState :=
  { s with inPool := true, workers := fun t => ⟨T.table t, .waiting⟩, signals := [] }

end CounterState

/-- A step of `stepDense`, or a call of `startMtWorkerPool` between two calls of it. -/
inductive CounterStep (T : CounterTables) (s : CounterState) : CounterState → Prop
  | start (hpool : s.inPool = false) : CounterStep T s (s.startMtWorkerPool T)
  | enter (hpool : s.inPool = false) (huses : s.usesPool T) : CounterStep T s (s.enterPool T)
  | work (t : Nat) (w : CounterWorker) (a : CounterAct) (hpool : s.inPool = true)
      (ht : t < T.threadCount)
      (h : counterStep T s.evenCycle s.depsDone (s.workers t) = some (w, a)) :
      CounterStep T s (s.perform t w a)
  | join (hpool : s.inPool = true) (hret : ∀ t, t < T.threadCount → (s.workers t).todo = []) :
      CounterStep T s { s with inPool := false, cycles := s.cycles + 1 }
  | serial (hpool : s.inPool = false) (huses : ¬ s.usesPool T) :
      CounterStep T s { s with cycles := s.cycles + 1, serialCalls := s.serialCalls + 1 }

/-- An MTask that starts has been signalled by all it counts, and no counter leaves its range. -/
structure NoConfusion (T : CounterTables) (s : CounterState) : Prop where
  signalled : ∀ t w m, s.inPool = true → t < T.threadCount →
    counterStep T s.evenCycle s.depsDone (s.workers t) = some (w, .start m) →
    ∀ pred, T.Counted pred m → (pred, m) ∈ s.signals
  inRange : ∀ m, (s.depsDone m).toNat ≤ T.depCount m

/-- A step that takes the pool path after an even number of serial calls only. -/
def InPhaseStep (T : CounterTables) (s s' : CounterState) : Prop :=
  CounterStep T s s' ∧ (s.inPool = false → s'.inPool = true → s.serialCalls % 2 = 0)

/-! ## The invariant -/

/-- Whether `pred`, in the worker's table, has passed its signal to `m`. -/
def CounterWorker.past (w : CounterWorker) (pred m : Nat) : Prop :=
  pred ∉ w.todo ∨ ∃ rest succs, w.todo = pred :: rest ∧ w.pc = .signalling succs ∧ m ∉ succs

/-- How many signals have reached `m`. -/
def received (signals : List (Nat × Nat)) (m : Nat) : Nat := (signals.filter (·.2 = m)).length

/-- During a pool cycle. -/
structure CounterPoolInv (T : CounterTables) (s : CounterState) : Prop where
  todo : ∀ t, (s.workers t).todo <:+ T.table t
  succs : ∀ t m rest succs, (s.workers t).todo = m :: rest → (s.workers t).pc = .signalling succs →
    succs <:+ succsAt T.runtimeSuccs m
  nodup : s.signals.Nodup
  sent : ∀ t, ∀ pred ∈ T.table t, ∀ m, (pred, m) ∈ s.signals ↔
    T.Counted pred m ∧ (s.workers t).past pred m
  counted : ∀ pred m, (pred, m) ∈ s.signals → T.Counted pred m
  counter : ∀ m, (s.depsDone m).toNat =
    if s.evenCycle then received s.signals m else T.depCount m - received s.signals m

/-- Between calls the counters are all at the end where the last pool cycle left them. -/
structure CounterInv (T : CounterTables) (s : CounterState) : Prop where
  idle : s.inPool = false → ∀ m, (s.depsDone m).toNat =
    if (s.cycles + s.serialCalls) % 2 = 0 then 0 else T.depCount m
  pool : s.inPool = true → s.serialCalls % 2 = 0 ∧ CounterPoolInv T s

section Invariant

variable {T : CounterTables} {s : CounterState}

theorem CounterTables.counted_lt {pred m : Nat} (h : T.Counted pred m) : pred < T.nMTasks :=
  lt_length_of_edge h

theorem CounterTables.mem_table {t m : Nat} : m ∈ T.table t ↔
    m < T.nMTasks ∧ assignAt T.assignment m = t := by
  unfold CounterTables.table CounterTables.nMTasks
  rw [mem_workerMTasks, T.length_eq]

/-- Every MTask is in the table of its owner. -/
theorem CounterTables.exists_owner {m : Nat} (hm : m < T.nMTasks) :
    ∃ t < T.threadCount, m ∈ T.table t := by
  obtain ⟨nonneg, lt⟩ := T.owned m hm
  refine ⟨(assignAt T.assignment m).toNat, by omega, T.mem_table.mpr ⟨hm, by omega⟩⟩

theorem CounterTables.depCount_lt (m : Nat) : T.depCount m < 2 ^ 32 := by
  have le : T.depCount m ≤ T.nMTasks := by
    have := List.length_filter_le (fun pred => decide (T.Counted pred m)) (List.range T.nMTasks)
    rwa [List.length_range] at this
  have few := T.few
  unfold CounterTables.nMTasks at le
  omega

/-- The MTasks that have signalled `m`. -/
theorem received_subperm {signals : List (Nat × Nat)} (nodup : signals.Nodup)
    (counted : ∀ pred m, (pred, m) ∈ signals → T.Counted pred m) (m : Nat) :
    List.Subperm ((signals.filter (·.2 = m)).map Prod.fst)
      ((List.range T.nMTasks).filter fun pred => T.Counted pred m) := by
  refine List.Nodup.subperm ?_ ?_
  · refine (nodup.filter _).map_on ?_
    rintro ⟨a, b⟩ ha ⟨a', b'⟩ ha' eq
    simp only [List.mem_filter, decide_eq_true_eq] at ha ha'
    have eq : a = a' := eq
    rw [eq, ha.2, ha'.2]
  · intro pred hpred
    obtain ⟨⟨a, b⟩, hab, rfl⟩ := List.mem_map.mp hpred
    obtain ⟨mem, eq⟩ := List.mem_filter.mp hab
    have eq : b = m := by simpa using eq
    subst eq
    have counted := counted a b mem
    exact List.mem_filter.mpr ⟨List.mem_range.mpr (T.counted_lt counted), by simpa using counted⟩

theorem received_le {signals : List (Nat × Nat)} (nodup : signals.Nodup)
    (counted : ∀ pred m, (pred, m) ∈ signals → T.Counted pred m) (m : Nat) :
    received signals m ≤ T.depCount m := by
  have := (received_subperm nodup counted m).length_le
  rwa [List.length_map] at this

/-- As many signals as dependencies: all of them. -/
theorem signalled_of_received (inv : CounterPoolInv T s) {m : Nat}
    (all : T.depCount m ≤ received s.signals m) {pred : Nat} (h : T.Counted pred m) :
    (pred, m) ∈ s.signals := by
  have perm := (received_subperm inv.nodup inv.counted m).perm_of_length_le (by rw [List.length_map]; exact all)
  have mem : pred ∈ (s.signals.filter (·.2 = m)).map Prod.fst := by
    rw [perm.mem_iff, List.mem_filter, List.mem_range]
    exact ⟨T.counted_lt h, by simpa using h⟩
  obtain ⟨⟨a, b⟩, hab, rfl⟩ := List.mem_map.mp mem
  obtain ⟨mem, eq⟩ := List.mem_filter.mp hab
  have eq : b = m := by simpa using eq
  exact eq ▸ mem

/-- A worker that starts an MTask stands at its wait. -/
theorem counterStep_start {evenCycle : Bool} {depsDone : Nat → UInt32} {w w' : CounterWorker}
    {m : Nat} (h : counterStep T evenCycle depsDone w = some (w', .start m)) :
    T.skipDenseWait m = true ∨ depsDone m = T.target evenCycle m := by
  unfold counterStep at h
  split at h
  · cases h
  · split at h
    · rename_i pass
      cases h
      exact pass
    · cases h
  all_goals cases h

theorem CounterPoolInv.noConfusion (inv : CounterPoolInv T s) : NoConfusion T s := by
  refine ⟨?_, ?_⟩
  · intro t w m _ _ hstep pred counted
    refine signalled_of_received inv ?_ counted
    have small := T.depCount_lt m
    have counter := inv.counter m
    rcases counterStep_start hstep with skip | pass
    · have none : T.depCount m = 0 := by
        have : T.staticEmptyElide ∧ T.depCount m = 0 := by
          simpa [CounterTables.skipDenseWait] using skip
        exact this.2
      omega
    · rw [pass] at counter
      have le := received_le inv.nodup inv.counted m
      unfold CounterTables.target at counter
      by_cases even : s.evenCycle = true
      · rw [if_pos even, if_pos even, UInt32.toNat_ofNat_of_lt' small] at counter
        exact counter.le
      · rw [if_neg even, if_neg even] at counter
        have zero : (0 : UInt32).toNat = 0 := rfl
        omega
  · intro m
    have le := received_le inv.nodup inv.counted m
    rw [inv.counter m]
    split
    · exact le
    · exact Nat.sub_le _ _

/-! ## Steps of a worker -/

theorem counterStep_cases {evenCycle : Bool} {depsDone : Nat → UInt32} {w w' : CounterWorker}
    {a : CounterAct} (h : counterStep T evenCycle depsDone w = some (w', a)) :
    ∃ m rest, w.todo = m :: rest ∧
      ((w.pc = .waiting ∧ w' = { w with pc := .body } ∧ a = .start m) ∨
        (w.pc = .body ∧ w' = { w with pc := .signalling (succsAt T.runtimeSuccs m) } ∧
          a = .finish m) ∨
        (∃ succ succs, w.pc = .signalling (succ :: succs) ∧
          w' = { w with pc := .signalling succs } ∧ a = .signal m succ) ∨
        (w.pc = .signalling [] ∧ w' = ⟨rest, .waiting⟩ ∧ a = .next)) := by
  unfold counterStep at h
  split at h
  · cases h
  · rename_i m rest htodo hpc
    split at h
    · cases h
      exact ⟨m, rest, htodo, .inl ⟨hpc, rfl, rfl⟩⟩
    · cases h
  · rename_i m rest htodo hpc
    cases h
    exact ⟨m, rest, htodo, .inr (.inl ⟨hpc, rfl, rfl⟩)⟩
  · rename_i m rest succ succs htodo hpc
    cases h
    exact ⟨m, rest, htodo, .inr (.inr (.inl ⟨succ, succs, hpc, rfl, rfl⟩))⟩
  · rename_i m rest htodo hpc
    cases h
    exact ⟨m, rest, htodo, .inr (.inr (.inr ⟨hpc, rfl, rfl⟩))⟩

/-- An MTask that the worker has still to signal for is not past it. -/
theorem CounterWorker.past_iff {w : CounterWorker} {m : Nat} {rest : List Nat}
    (htodo : w.todo = m :: rest) (fresh : m ∉ rest) {pred succ : Nat} :
    w.past pred succ ↔ pred ∉ w.todo ∨
      (pred = m ∧ ∃ succs, w.pc = .signalling succs ∧ succ ∉ succs) := by
  unfold CounterWorker.past
  refine or_congr Iff.rfl ?_
  constructor
  · rintro ⟨rest', succs, eq, hpc, h⟩
    rw [htodo] at eq
    exact ⟨(List.cons.inj eq).1.symm, succs, hpc, h⟩
  · rintro ⟨rfl, succs, hpc, h⟩
    exact ⟨rest, succs, htodo, hpc, h⟩

/-- Work that sends no signal. -/
theorem CounterPoolInv.quiet {t : Nat} {w : CounterWorker} (inv : CounterPoolInv T s)
    (todo : w.todo <:+ T.table t)
    (succs : ∀ m rest succs, w.todo = m :: rest → w.pc = .signalling succs →
      succs <:+ succsAt T.runtimeSuccs m)
    (same : ∀ pred ∈ T.table t, ∀ m, T.Counted pred m →
      (w.past pred m ↔ (s.workers t).past pred m)) :
    CounterPoolInv T { s with workers := Function.update s.workers t w } := by
  refine ⟨?_, ?_, inv.nodup, ?_, inv.counted, inv.counter⟩
  · intro t'
    by_cases eq : t' = t
    · subst eq
      simpa using todo
    · simpa [eq] using inv.todo t'
  · intro t'
    by_cases eq : t' = t
    · subst eq
      simpa using succs
    · simpa [eq] using inv.succs t'
  · intro t' pred hpred m
    by_cases eq : t' = t
    · subst eq
      simp only [Function.update_self]
      rw [inv.sent t' pred hpred m]
      exact and_congr_right fun counted => (same pred hpred m counted).symm
    · simpa [eq] using inv.sent t' pred hpred m

theorem CounterTables.table_unique {t t' m : Nat} (h : m ∈ T.table t) (h' : m ∈ T.table t') :
    t = t' := by
  have eq := (T.mem_table.mp h).2.symm.trans (T.mem_table.mp h').2
  exact_mod_cast eq

theorem received_cons (signals : List (Nat × Nat)) (m succ m' : Nat) :
    received ((m, succ) :: signals) m' = received signals m' + if succ = m' then 1 else 0 := by
  unfold received
  by_cases eq : succ = m' <;> simp [eq]

/-- The signal of `m` to its next successor. -/
theorem CounterPoolInv.signal {t m succ : Nat} {rest succs : List Nat} (inv : CounterPoolInv T s)
    (htodo : (s.workers t).todo = m :: rest)
    (hpc : (s.workers t).pc = .signalling (succ :: succs)) :
    CounterPoolInv T (s.perform t { s.workers t with pc := .signalling succs } (.signal m succ)) := by
  have nodupTable : (T.table t).Nodup := workerMTasks_nodup T.assignment t
  have suffix := inv.todo t
  have nodupTodo : (m :: rest).Nodup := by
    rw [← htodo]
    exact nodupTable.sublist suffix.sublist
  have memTable : m ∈ T.table t := suffix.subset (by rw [htodo]; exact List.mem_cons_self)
  have sufSuccs := inv.succs t m rest _ htodo hpc
  have nodupSuccs : (succ :: succs).Nodup := (T.nodup m).sublist sufSuccs.sublist
  have counted : T.Counted m succ := sufSuccs.subset List.mem_cons_self
  have mem_todo : ∀ x, x ∈ (s.workers t).todo ↔ x = m ∨ x ∈ rest := by
    intro x
    rw [htodo, List.mem_cons]
  have fresh : (m, succ) ∉ s.signals := by
    rw [inv.sent t m memTable succ, CounterWorker.past_iff htodo (List.nodup_cons.mp nodupTodo).1]
    rintro ⟨-, absent | ⟨-, succs', eq, absent⟩⟩
    · exact absent ((mem_todo m).mpr (.inl rfl))
    · rw [hpc] at eq
      cases eq
      exact absent List.mem_cons_self
  -- the counters, in either direction
  have next : CounterPoolInv T
      { s with
        workers := Function.update s.workers t { s.workers t with pc := .signalling succs }
        depsDone := Function.update s.depsDone succ
          (if s.evenCycle then s.depsDone succ + 1 else s.depsDone succ - 1)
        signals := (m, succ) :: s.signals } := by
    have nodup' : ((m, succ) :: s.signals).Nodup := List.nodup_cons.mpr ⟨fresh, inv.nodup⟩
    have counted' : ∀ pred m', (pred, m') ∈ (m, succ) :: s.signals → T.Counted pred m' := by
      intro pred m' mem
      rcases List.mem_cons.mp mem with eq | mem
      · cases eq
        exact counted
      · exact inv.counted pred m' mem
    refine ⟨?_, ?_, nodup', ?_, counted', ?_⟩
    · intro t'
      by_cases eq : t' = t
      · subst eq
        simpa using inv.todo t'
      · simpa [eq] using inv.todo t'
    · intro t' m' rest' succs' htodo' hpc'
      by_cases eq : t' = t
      · subst eq
        simp only [Function.update_self] at htodo' hpc'
        cases hpc'
        rw [htodo] at htodo'
        cases htodo'
        exact (List.suffix_cons succ succs).trans sufSuccs
      · simp only [Function.update_of_ne eq] at htodo' hpc'
        exact inv.succs t' m' rest' succs' htodo' hpc'
    · intro t' pred hpred m'
      rw [List.mem_cons]
      by_cases eq : t' = t
      · subst eq
        simp only [Function.update_self]
        rw [inv.sent t' pred hpred m',
          CounterWorker.past_iff htodo (List.nodup_cons.mp nodupTodo).1,
          CounterWorker.past_iff (w := { s.workers t' with pc := .signalling succs }) htodo
            (List.nodup_cons.mp nodupTodo).1, hpc]
        constructor
        · rintro (same | ⟨hc, out | ⟨rfl, succs', same, absent⟩⟩)
          · cases same
            exact ⟨counted, .inr ⟨rfl, succs, rfl, (List.nodup_cons.mp nodupSuccs).1⟩⟩
          · exact ⟨hc, .inl out⟩
          · cases same
            exact ⟨hc, .inr ⟨rfl, succs, rfl, fun mem => absent (List.mem_cons_of_mem _ mem)⟩⟩
        · rintro ⟨hc, out | ⟨rfl, succs', same, absent⟩⟩
          · exact .inr ⟨hc, .inl out⟩
          · cases same
            by_cases same : m' = succ
            · exact .inl (by rw [same])
            · refine .inr ⟨hc, .inr ⟨rfl, _, rfl, ?_⟩⟩
              rintro mem
              rcases List.mem_cons.mp mem with eq | mem
              · exact same eq
              · exact absent mem
      · simp only [Function.update_of_ne eq]
        rw [inv.sent t' pred hpred m']
        refine ⟨?_, fun h => .inr h⟩
        rintro (same | h)
        · cases same
          exact absurd (T.table_unique hpred memTable) eq
        · exact h
    · intro m'
      have small := T.depCount_lt m'
      have counter := inv.counter m'
      have more := received_le nodup' counted' m'
      have le := received_le inv.nodup inv.counted m'
      by_cases same : succ = m'
      · subst same
        rw [received_cons, if_pos rfl] at more ⊢
        simp only [Function.update_self, CounterState.evenCycle] at counter ⊢
        by_cases even : s.cycles % 2 = 0
        · simp only [even, decide_true, if_true] at counter ⊢
          rw [UInt32.toNat_add, counter]
          have one : (1 : UInt32).toNat = 1 := rfl
          omega
        · simp only [even, decide_false, Bool.false_eq_true, if_false] at counter ⊢
          rw [UInt32.toNat_sub, counter]
          have one : (1 : UInt32).toNat = 1 := rfl
          omega
      · rw [received_cons, if_neg same, Nat.add_zero]
        simp only [Function.update_of_ne (Ne.symm same)]
        exact counter
  exact next

theorem CounterPoolInv.work {t : Nat} {w : CounterWorker} {a : CounterAct}
    (inv : CounterPoolInv T s)
    (h : counterStep T s.evenCycle s.depsDone (s.workers t) = some (w, a)) :
    CounterPoolInv T (s.perform t w a) := by
  obtain ⟨m, rest, htodo, cases⟩ := counterStep_cases h
  have suffix := inv.todo t
  have nodupTodo : (m :: rest).Nodup := by
    rw [← htodo]
    exact (workerMTasks_nodup T.assignment t).sublist suffix.sublist
  have fresh := (List.nodup_cons.mp nodupTodo).1
  rcases cases with ⟨hpc, rfl, rfl⟩ | ⟨hpc, rfl, rfl⟩ | ⟨succ, succs, hpc, rfl, rfl⟩ |
    ⟨hpc, rfl, rfl⟩
  · -- the wait ends
    refine inv.quiet suffix (fun _ _ _ _ eq => by cases eq) ?_
    intro pred _ m' _
    rw [CounterWorker.past_iff htodo fresh,
      CounterWorker.past_iff (w := { s.workers t with pc := .body }) htodo fresh, hpc]
    simp
  · -- the body ends; nothing is signalled yet
    refine inv.quiet suffix ?_ ?_
    · intro m' rest' succs eq eq'
      cases eq'
      rw [htodo] at eq
      cases eq
      exact List.suffix_refl _
    · intro pred _ m' counted
      rw [CounterWorker.past_iff htodo fresh, CounterWorker.past_iff
        (w := { s.workers t with pc := .signalling (succsAt T.runtimeSuccs m) }) htodo fresh, hpc]
      refine or_congr Iff.rfl ⟨?_, ?_⟩
      · rintro ⟨rfl, succs, eq, absent⟩
        cases eq
        exact absurd counted absent
      · rintro ⟨rfl, succs, eq, absent⟩
        cases eq
  · exact inv.signal htodo hpc
  · -- the MTask leaves the list with all its signals sent
    refine inv.quiet ?_ (fun _ _ _ _ eq => by cases eq) ?_
    · rw [htodo] at suffix
      exact (List.suffix_cons m rest).trans suffix
    · intro pred _ m' _
      rw [CounterWorker.past_iff htodo fresh, hpc, htodo]
      constructor
      · rintro (out | ⟨_, _, _, eq, _⟩)
        · by_cases same : pred = m
          · exact .inr ⟨same, [], rfl, List.not_mem_nil⟩
          · refine .inl ?_
            rw [List.mem_cons]
            rintro (eq | mem)
            · exact same eq
            · exact out mem
        · cases eq
      · rintro (out | ⟨rfl, _⟩)
        · exact .inl fun mem => out (List.mem_cons_of_mem _ mem)
        · exact .inl fresh

/-! ## Calls -/

theorem CounterInv.initial : CounterInv T CounterState.initial := by
  refine ⟨fun _ m => ?_, fun h => by cases h⟩
  rfl

/-- The counters stand where a cycle of this parity starts. -/
theorem CounterPoolInv.enter (inv : CounterInv T s) (hpool : s.inPool = false)
    (even : s.serialCalls % 2 = 0) : CounterPoolInv T (s.enterPool T) := by
  refine ⟨fun t => List.suffix_refl _, fun _ _ _ _ _ eq => (by cases eq), List.nodup_nil, ?_,
    fun _ _ mem => (by cases mem), ?_⟩
  · intro t pred hpred m
    refine ⟨fun mem => (by cases mem), ?_⟩
    rintro ⟨-, out | ⟨_, _, _, eq, _⟩⟩
    · exact absurd hpred out
    · cases eq
  · intro m
    have idle := inv.idle hpool m
    have parity : (s.cycles + s.serialCalls) % 2 = 0 ↔ s.cycles % 2 = 0 := by omega
    have none : received (s.enterPool T).signals m = 0 := rfl
    rw [none]
    by_cases hc : s.cycles % 2 = 0
    · simpa [CounterState.enterPool, CounterState.evenCycle, parity, hc] using idle
    · simpa [CounterState.enterPool, CounterState.evenCycle, parity, hc] using idle

/-- Once all workers have returned, every counter is at the other end. -/
theorem CounterPoolInv.join (inv : CounterPoolInv T s)
    (hret : ∀ t, t < T.threadCount → (s.workers t).todo = []) (m : Nat) :
    (s.depsDone m).toNat = if s.evenCycle then T.depCount m else 0 := by
  have all : received s.signals m = T.depCount m := by
    refine le_antisymm (received_le inv.nodup inv.counted m) ?_
    have sub : ((List.range T.nMTasks).filter fun pred => T.Counted pred m) ⊆
        (s.signals.filter (·.2 = m)).map Prod.fst := by
      intro pred hpred
      obtain ⟨lt, counted⟩ := List.mem_filter.mp hpred
      have counted : T.Counted pred m := by simpa using counted
      obtain ⟨t, ht, htable⟩ := T.exists_owner (T.counted_lt counted)
      have sent := (inv.sent t pred htable m).mpr
        ⟨counted, .inl (by rw [hret t ht]; exact List.not_mem_nil)⟩
      exact List.mem_map.mpr ⟨(pred, m), List.mem_filter.mpr ⟨sent, by simp⟩, rfl⟩
    have nodup : ((List.range T.nMTasks).filter fun pred => T.Counted pred m).Nodup :=
      List.nodup_range.filter _
    have := (nodup.subperm sub).length_le
    rwa [List.length_map] at this
  rw [inv.counter m, all, Nat.sub_self]

/-- One step of `stepDense`. -/
theorem CounterInv.step {s' : CounterState} (inv : CounterInv T s) (h : InPhaseStep T s s') :
    CounterInv T s' := by
  obtain ⟨step, inPhase⟩ := h
  cases step with
  | start hpool =>
    have kept : (s.startMtWorkerPool T).inPool = s.inPool ∧
        (s.startMtWorkerPool T).depsDone = s.depsDone ∧ (s.startMtWorkerPool T).cycles = s.cycles ∧
        (s.startMtWorkerPool T).serialCalls = s.serialCalls := by
      unfold CounterState.startMtWorkerPool
      split <;> exact ⟨rfl, rfl, rfl, rfl⟩
    obtain ⟨pool, deps, cycles, calls⟩ := kept
    refine ⟨fun _ m => ?_, fun h => ?_⟩
    · rw [deps, cycles, calls]
      exact inv.idle hpool m
    · rw [pool, hpool] at h
      cases h
  | enter hpool huses =>
    have even := inPhase hpool rfl
    exact ⟨fun h => (by cases h), fun _ => ⟨even, .enter inv hpool even⟩⟩
  | work t w a hpool ht h =>
    obtain ⟨even, pool⟩ := inv.pool hpool
    have kept : (s.perform t w a).inPool = true ∧ (s.perform t w a).serialCalls = s.serialCalls := by
      cases a <;> exact ⟨hpool, rfl⟩
    refine ⟨fun h => ?_, fun _ => ⟨by rw [kept.2]; exact even, ?_⟩⟩
    · rw [kept.1] at h
      cases h
    · exact pool.work h
  | join hpool hret =>
    obtain ⟨even, pool⟩ := inv.pool hpool
    refine ⟨fun _ m => ?_, fun h => by cases h⟩
    have counter := pool.join hret m
    by_cases hc : s.cycles % 2 = 0
    · have odd : ¬ (s.cycles + 1 + s.serialCalls) % 2 = 0 := by omega
      rw [if_neg odd]
      simpa [CounterState.evenCycle, hc] using counter
    · have back : (s.cycles + 1 + s.serialCalls) % 2 = 0 := by omega
      rw [if_pos back]
      simpa [CounterState.evenCycle, hc] using counter
  | serial hpool huses =>
    refine ⟨fun _ m => ?_, fun h => by rw [hpool] at h; cases h⟩
    have idle := inv.idle hpool m
    have parity : (s.cycles + 1 + (s.serialCalls + 1)) % 2 = (s.cycles + s.serialCalls) % 2 := by
      omega
    rw [parity]
    exact idle

theorem CounterInv.noConfusion (inv : CounterInv T s) : NoConfusion T s := by
  by_cases hpool : s.inPool = true
  · exact (inv.pool hpool).2.noConfusion
  · refine ⟨fun _ _ _ h => absurd h hpool, fun m => ?_⟩
    rw [inv.idle (by simpa using hpool) m]
    split
    · exact Nat.zero_le _
    · exact le_rfl

end Invariant

/-- In every run whose pool calls each come after an even number of serial calls, no MTask
starts before its predecessors have signalled and no counter leaves its range. -/
theorem inPhase_noConfusion (T : CounterTables) (s : CounterState)
    (run : ReflTransGen (InPhaseStep T) .initial s) : NoConfusion T s := by
  refine CounterInv.noConfusion ?_
  induction run with
  | refl => exact .initial
  | tail _ step ih => exact ih.step step

/-- Two workers with an MTask each, the second of which waits for the first. -/
def chainTables : CounterTables where
  runtimeSuccs := [[1], []]
  assignment := [0, 1]
  threadCount := 2
  staticEmptyElide := false
  configuredWorkerCount := 2
  workerPoolEnabled := true
  length_eq := rfl
  owned := by decide
  nodup m := by
    match m with
    | 0 => decide
    | 1 => decide
    | _ + 2 => exact List.nodup_nil
  few := by decide

/-- A step of a worker is in phase. -/
theorem InPhaseStep.work {T : CounterTables} {s : CounterState} (t : Nat) (w : CounterWorker)
    (a : CounterAct) (hpool : s.inPool = true) (ht : t < T.threadCount)
    (h : counterStep T s.evenCycle s.depsDone (s.workers t) = some (w, a)) :
    InPhaseStep T s (s.perform t w a) :=
  ⟨.work t w a hpool ht h, fun outside => absurd hpool (by rw [outside]; exact Bool.false_ne_true)⟩

/-- Two serial calls, the start of the pool, a whole cycle on it and the begin of the next, an odd
one. -/
theorem inPhase_noConfusion_chain : ∃ s, ReflTransGen (InPhaseStep chainTables) .initial s ∧
    s.serialCalls = 2 ∧ s.cycles = 3 ∧ s.inPool = true ∧ s.depsDone 1 = 1 ∧
      NoConfusion chainTables s := by
  let called : CounterState := { CounterState.initial with cycles := 2, serialCalls := 2 }
  let started := called.startMtWorkerPool chainTables
  have pooled : ReflTransGen (InPhaseStep chainTables) .initial (started.enterPool chainTables) := by
    have unstarted : ∀ s : CounterState, s.workerPoolThreadCount = 0 → ¬ s.usesPool chainTables := by
      rintro s none ⟨-, -, enough⟩
      rw [none] at enough
      exact absurd enough (by decide)
    have first : InPhaseStep chainTables .initial
        { CounterState.initial with cycles := 1, serialCalls := 1 } :=
      ⟨.serial rfl (unstarted _ rfl), fun _ pool => absurd pool Bool.false_ne_true⟩
    have second : InPhaseStep chainTables
        { CounterState.initial with cycles := 1, serialCalls := 1 } called :=
      ⟨.serial rfl (unstarted _ rfl), fun _ pool => absurd pool Bool.false_ne_true⟩
    have start : InPhaseStep chainTables called started :=
      ⟨.start rfl, fun _ pool => absurd pool Bool.false_ne_true⟩
    have enter : InPhaseStep chainTables started (started.enterPool chainTables) :=
      ⟨.enter rfl ⟨rfl, rfl, by decide⟩, fun _ _ => by decide⟩
    exact (((ReflTransGen.single first).tail second).tail start).tail enter
  -- the first worker passes its signal, then the second may go on
  let signalled := (((started.enterPool chainTables).perform 0 ⟨[0], .body⟩ (.start 0)).perform 0
    ⟨[0], .signalling [1]⟩ (.finish 0)).perform 0 ⟨[0], .signalling []⟩ (.signal 0 1)
  have firstWorker : ReflTransGen (InPhaseStep chainTables) (started.enterPool chainTables)
      (signalled.perform 0 ⟨[], .waiting⟩ .next) :=
    (((ReflTransGen.single (.work 0 _ _ rfl (by decide) (by decide))).tail
      (.work 0 _ _ rfl (by decide) (by decide))).tail (.work 0 _ _ rfl (by decide) (by decide))).tail
      (.work 0 _ _ rfl (by decide) (by decide))
  let finished := (((signalled.perform 0 ⟨[], .waiting⟩ .next).perform 1 ⟨[1], .body⟩
    (.start 1)).perform 1 ⟨[1], .signalling []⟩ (.finish 1)).perform 1 ⟨[], .waiting⟩ .next
  have secondWorker : ReflTransGen (InPhaseStep chainTables)
      (signalled.perform 0 ⟨[], .waiting⟩ .next) finished :=
    ((ReflTransGen.single (.work 1 _ _ rfl (by decide) (by decide))).tail
      (.work 1 _ _ rfl (by decide) (by decide))).tail (.work 1 _ _ rfl (by decide) (by decide))
  have join : InPhaseStep chainTables finished { finished with inPool := false, cycles := 3 } := by
    refine ⟨.join rfl fun t ht => ?_, fun outside => absurd outside (by decide)⟩
    change t < 2 at ht
    interval_cases t <;> rfl
  have again : InPhaseStep chainTables { finished with inPool := false, cycles := 3 }
      ({ finished with inPool := false, cycles := 3 }.enterPool chainTables) :=
    ⟨.enter rfl ⟨rfl, rfl, by decide⟩, fun _ _ => by decide⟩
  have run := (((pooled.trans firstWorker).trans secondWorker).tail join).tail again
  exact ⟨_, run, by decide, by decide, by decide, by decide, inPhase_noConfusion chainTables _ run⟩

/-- A pool that is started after one serial call: the first pool cycle is odd, its counters are
at zero, and the second MTask need not wait. -/
theorem serial_then_pool_confuses :
    ∃ s, ReflTransGen (CounterStep chainTables) .initial s ∧ ¬ NoConfusion chainTables s := by
  let s₁ : CounterState := { CounterState.initial with cycles := 1, serialCalls := 1 }
  let s₂ := s₁.startMtWorkerPool chainTables
  have serial : CounterStep chainTables .initial s₁ := by
    refine .serial rfl ?_
    rintro ⟨_, _, enough⟩
    revert enough
    decide
  have start : CounterStep chainTables s₁ s₂ := .start rfl
  have enter : CounterStep chainTables s₂ (s₂.enterPool chainTables) :=
    .enter rfl ⟨rfl, rfl, by decide⟩
  refine ⟨_, ((ReflTransGen.single serial).tail start).tail enter, fun ok => ?_⟩
  have signalled := ok.signalled 1 ⟨[1], .body⟩ 1 rfl (by decide) (by decide) 0 (by decide)
  cases signalled

end Gsim
