/-
  Gsim/TaskPool.lean
  ==================
  **Threads that pull their tasks from a shared supply.**

  A thread takes the next task in one atomic access, works on it alone, stores the result
  in the task's own cell and comes back; at some point the supply tells it to leave.  As
  long as nobody is told to leave while tasks are pending, it does not matter how the
  threads interleave: every task is taken once, and its cell ends up with its result
  (`Inv.finished`).  Every step makes the pool smaller (`Step.measure_lt`).

  The other way of sharing is to give every thread its slice of a list beforehand; the
  slices put together are the list (`flatMap_slices`).
-/
import Mathlib

namespace Gsim.TaskPool

/-! ## Even slices -/

section Slices

variable {α : Type}

/-- Where slice `w` of `k` begins, in a list of `n`. -/
def cut (n k w : Nat) : Nat := n * w / k

def slice (l : List α) (lo hi : Nat) : List α := (l.take hi).drop lo

theorem cut_le_cut_succ (n k w : Nat) : cut n k w ≤ cut n k (w + 1) := by
  apply Nat.div_le_div_right
  exact Nat.mul_le_mul_left n (Nat.le_succ w)

theorem flatMap_slices_upTo (l : List α) (n k m : Nat) :
    (List.range m).flatMap (fun w => slice l (cut n k w) (cut n k (w + 1))) =
      (l.take (cut n k m)).drop (cut n k 0) := by
  induction m with
  | zero => simp
  | succ m ih =>
    have zero : cut n k 0 = 0 := by simp [cut]
    have split : l.take (cut n k (m + 1)) =
        l.take (cut n k m) ++ (l.take (cut n k (m + 1))).drop (cut n k m) := by
      have := (List.take_append_drop (cut n k m) (l.take (cut n k (m + 1)))).symm
      rwa [List.take_take, Nat.min_eq_left (cut_le_cut_succ n k m)] at this
    rw [List.range_succ, List.flatMap_append, ih, zero, List.drop_zero, List.drop_zero]
    conv_rhs => rw [split]
    simp [slice]

/-- The slices are the list, whatever its length and the number of slices. -/
theorem flatMap_slices (l : List α) {k : Nat} (some_ : 0 < k) :
    (List.range k).flatMap (fun w => slice l (cut l.length k w) (cut l.length k (w + 1))) = l := by
  have last : cut l.length k k = l.length := Nat.mul_div_cancel _ some_
  have first : cut l.length k 0 = 0 := by simp [cut]
  rw [flatMap_slices_upTo, last, first, List.take_length, List.drop_zero]

/-- Lists of one length are equal once all their slices are. -/
theorem eq_of_slices_eq {a b : List α} (length : a.length = b.length) {k : Nat} (some_ : 0 < k)
    (same : ∀ w, w < k → slice a (cut a.length k w) (cut a.length k (w + 1)) =
      slice b (cut a.length k w) (cut a.length k (w + 1))) : a = b := by
  rw [← flatMap_slices a some_, ← flatMap_slices b some_, ← length]
  apply List.flatMap_congr
  intro w hw
  exact same w (List.mem_range.mp hw)

end Slices

/-! ## Pulling -/

/-- Where one thread is. -/
inductive Phase (τ : Type) where
  | idle
  | busy (task : τ)
  | left

/-- A shared supply.  `take` is `none` while a thread has to wait; otherwise it hands out a task,
    or tells the thread to leave. -/
structure Supply (σ τ : Type) where
  take : σ → Option (Option τ × σ)
  pending : σ → List τ
  pending_task : ∀ {s t s'}, take s = some (some t, s') → pending s = t :: pending s'
  pending_leave : ∀ {s s'}, take s = some (none, s') → pending s = [] ∧ pending s' = []

structure State (σ τ κ ρ : Type) where
  supply : σ
  phase : Nat → Phase τ
  /-- who took which task, in that order -/
  taken : List (Nat × τ)
  cells : κ → Option ρ

section Pool

variable {σ τ κ ρ : Type} [DecidableEq κ] (S : Supply σ τ) (cell : τ → κ) (work : τ → ρ)
  (threads : Nat)

/-- All threads are about to ask for their first task. -/
def State.initial (supply : σ) : State σ τ κ ρ := ⟨supply, fun _ => .idle, [], fun _ => none⟩

inductive Step (s : State σ τ κ ρ) : State σ τ κ ρ → Prop
  | take {w : Nat} {t : τ} {supply : σ} (thread : w < threads) (idle : s.phase w = .idle)
      (took : S.take s.supply = some (some t, supply)) :
      Step s { s with
        supply := supply, phase := Function.update s.phase w (.busy t),
        taken := s.taken ++ [(w, t)] }
  | leave {w : Nat} {supply : σ} (thread : w < threads) (idle : s.phase w = .idle)
      (told : S.take s.supply = some (none, supply)) :
      Step s { s with supply := supply, phase := Function.update s.phase w .left }
  | finish {w : Nat} {t : τ} (thread : w < threads) (busy : s.phase w = .busy t) :
      Step s { s with
        phase := Function.update s.phase w .idle,
        cells := Function.update s.cells (cell t) (some (work t)) }

/-- The threads have all left. -/
def State.Over (s : State σ τ κ ρ) : Prop := ∀ w, w < threads → s.phase w = .left

/-! ## What every step keeps -/

structure Inv (tasks : List τ) (s : State σ τ κ ρ) : Prop where
  /-- the tasks are taken in the order of the supply -/
  taken : s.taken.map Prod.snd ++ S.pending s.supply = tasks
  thread : ∀ e ∈ s.taken, e.1 < threads
  busy : ∀ w t, s.phase w = .busy t → (w, t) ∈ s.taken
  /-- a task that was taken is worked on, or its cell is filled -/
  settled : ∀ e ∈ s.taken, s.phase e.1 = .busy e.2 ∨ s.cells (cell e.2) = some (work e.2)
  left : ∀ w, s.phase w = .left → S.pending s.supply = []

variable {S cell work threads} {tasks : List τ} {s s' : State σ τ κ ρ}

omit [DecidableEq κ] in
theorem Inv.initial (supply : σ) :
    Inv S cell work threads (S.pending supply) (State.initial supply) where
  taken := rfl
  thread e he := absurd he List.not_mem_nil
  busy w t h := by cases h
  settled e he := absurd he List.not_mem_nil
  left w h := by cases h

omit [DecidableEq κ] in
theorem Inv.mem_tasks (inv : Inv S cell work threads tasks s) {e : Nat × τ} (he : e ∈ s.taken) :
    e.2 ∈ tasks := by
  rw [← inv.taken]
  exact List.mem_append_left _ (List.mem_map_of_mem he)

omit [DecidableEq κ] in
theorem Inv.take (inv : Inv S cell work threads tasks s) {w : Nat} {t : τ} {supply : σ}
    (thread : w < threads) (idle : s.phase w = .idle)
    (took : S.take s.supply = some (some t, supply)) :
    Inv S cell work threads tasks { s with
      supply := supply, phase := Function.update s.phase w (.busy t),
      taken := s.taken ++ [(w, t)] } := by
  have next := S.pending_task took
  refine ⟨?_, ?_, ?_, ?_, ?_⟩
  · rw [← inv.taken, next]
    simp
  · intro e he
    rcases List.mem_append.mp he with old | new
    · exact inv.thread e old
    · cases List.mem_singleton.mp new
      exact thread
  · intro w' t' h
    dsimp only at h
    by_cases same : w' = w
    · subst same
      rw [Function.update_self] at h
      cases h
      exact List.mem_append_right _ (List.mem_singleton_self _)
    · rw [Function.update_of_ne same] at h
      exact List.mem_append_left _ (inv.busy w' t' h)
  · intro e he
    dsimp only
    rcases List.mem_append.mp he with old | new
    · by_cases same : e.1 = w
      · -- the thread was idle, so what it took before is finished
        refine .inr ((inv.settled e old).resolve_left ?_)
        rw [same, idle]
        exact fun h => nomatch h
      · rw [Function.update_of_ne same]
        exact inv.settled e old
    · cases List.mem_singleton.mp new
      exact .inl (Function.update_self _ _ _)
  · intro w' h
    dsimp only at h
    by_cases same : w' = w
    · rw [same, Function.update_self] at h
      cases h
    · rw [Function.update_of_ne same] at h
      have none_ := inv.left w' h
      rw [next] at none_
      cases none_

omit [DecidableEq κ] in
theorem Inv.leave (inv : Inv S cell work threads tasks s) {w : Nat} {supply : σ}
    (idle : s.phase w = .idle) (told : S.take s.supply = some (none, supply)) :
    Inv S cell work threads tasks
      { s with supply := supply, phase := Function.update s.phase w .left } := by
  obtain ⟨before, after⟩ := S.pending_leave told
  refine ⟨?_, inv.thread, ?_, ?_, fun _ _ => after⟩
  · rw [← inv.taken, before, after]
  · intro w' t' h
    dsimp only at h
    by_cases same : w' = w
    · rw [same, Function.update_self] at h
      cases h
    · rw [Function.update_of_ne same] at h
      exact inv.busy w' t' h
  · intro e he
    dsimp only
    by_cases same : e.1 = w
    · refine .inr ((inv.settled e he).resolve_left ?_)
      rw [same, idle]
      exact fun h => nomatch h
    · rw [Function.update_of_ne same]
      exact inv.settled e he

theorem Inv.finish (inv : Inv S cell work threads tasks s) (apart : (tasks.map cell).Nodup) {w : Nat}
    {t : τ} (busy : s.phase w = .busy t) :
    Inv S cell work threads tasks { s with
      phase := Function.update s.phase w .idle,
      cells := Function.update s.cells (cell t) (some (work t)) } := by
  have mem : t ∈ tasks := inv.mem_tasks (inv.busy w t busy)
  refine ⟨inv.taken, inv.thread, ?_, ?_, ?_⟩
  · intro w' t' h
    dsimp only at h
    by_cases same : w' = w
    · rw [same, Function.update_self] at h
      cases h
    · rw [Function.update_of_ne same] at h
      exact inv.busy w' t' h
  · intro e he
    dsimp only
    by_cases own : cell e.2 = cell t
    · have same : e.2 = t := List.inj_on_of_nodup_map apart (inv.mem_tasks he) mem own
      rw [same, Function.update_self]
      exact .inr rfl
    · rw [Function.update_of_ne own]
      rcases inv.settled e he with working | filled
      · refine .inl ?_
        have other : e.1 ≠ w := by
          intro same
          rw [same, busy] at working
          cases working
          exact own rfl
        rw [Function.update_of_ne other]
        exact working
      · exact .inr filled
  · intro w' h
    dsimp only at h
    by_cases same : w' = w
    · rw [same, Function.update_self] at h
      cases h
    · rw [Function.update_of_ne same] at h
      exact inv.left w' h

/-- One step. -/
theorem Inv.step (inv : Inv S cell work threads tasks s) (apart : (tasks.map cell).Nodup)
    (h : Step S cell work threads s s') : Inv S cell work threads tasks s' := by
  cases h with
  | take thread idle took => exact inv.take thread idle took
  | leave thread idle told => exact inv.leave idle told
  | finish thread busy => exact inv.finish apart busy

/-- Any run. -/
theorem Inv.run (inv : Inv S cell work threads tasks s) (apart : (tasks.map cell).Nodup)
    (h : Relation.ReflTransGen (Step S cell work threads) s s') :
    Inv S cell work threads tasks s' := by
  induction h with
  | refl => exact inv
  | tail _ step ih => exact ih.step apart step

omit [DecidableEq κ] in
/-- Once everybody has left, every task was taken once and its cell holds its result. -/
theorem Inv.finished (inv : Inv S cell work threads tasks s) (some_ : 0 < threads)
    (gone : s.Over threads) :
    s.taken.map Prod.snd = tasks ∧ ∀ t ∈ tasks, s.cells (cell t) = some (work t) := by
  have all : s.taken.map Prod.snd = tasks := by
    rw [← inv.taken, inv.left 0 (gone 0 some_), List.append_nil]
  refine ⟨all, ?_⟩
  intro t ht
  rw [← all] at ht
  obtain ⟨e, he, rfl⟩ := List.mem_map.mp ht
  refine (inv.settled e he).resolve_left ?_
  rw [gone e.1 (inv.thread e he)]
  exact fun h => nomatch h

/-! ## The pool comes to an end -/

def Phase.weight : Phase τ → Nat
  | .idle => 1
  | .busy _ => 2
  | .left => 0

variable (S threads) in
def State.measure (s : State σ τ κ ρ) : Nat :=
  2 * (S.pending s.supply).length + ∑ w ∈ Finset.range threads, (s.phase w).weight

theorem sum_update (weight : Phase τ → Nat) (phase : Nat → Phase τ) {w : Nat} (thread : w < threads)
    (p : Phase τ) :
    (∑ v ∈ Finset.range threads, weight (Function.update phase w p v)) + weight (phase w) =
      (∑ v ∈ Finset.range threads, weight (phase v)) + weight p := by
  have mem : w ∈ Finset.range threads := Finset.mem_range.mpr thread
  have others : ∑ v ∈ (Finset.range threads).erase w, weight (Function.update phase w p v) =
      ∑ v ∈ (Finset.range threads).erase w, weight (phase v) := by
    apply Finset.sum_congr rfl
    intro v hv
    rw [Function.update_of_ne (Finset.ne_of_mem_erase hv)]
  rw [← Finset.add_sum_erase _ _ mem, ← Finset.add_sum_erase _ (fun v => weight (phase v)) mem,
    others, Function.update_self]
  omega

theorem Step.measure_lt (h : Step S cell work threads s s') :
    s'.measure S threads < s.measure S threads := by
  cases h with
  | @take w t supply thread idle took =>
    have sum := sum_update Phase.weight s.phase thread (.busy t)
    have length := congrArg List.length (S.pending_task took)
    rw [idle] at sum
    simp only [Phase.weight, List.length_cons, State.measure] at sum length ⊢
    omega
  | @leave w supply thread idle told =>
    have sum := sum_update Phase.weight s.phase thread .left
    obtain ⟨before, after⟩ := S.pending_leave told
    rw [idle] at sum
    simp only [Phase.weight, State.measure, before, after] at sum ⊢
    omega
  | @finish w t thread busy =>
    have sum := sum_update Phase.weight s.phase thread .idle
    rw [busy] at sum
    simp only [Phase.weight, State.measure] at sum ⊢
    omega

/-- No run goes on forever. -/
theorem no_infinite_run (run : Nat → State σ τ κ ρ) :
    ¬ ∀ i, Step S cell work threads (run i) (run (i + 1)) := by
  intro steps
  have smaller : ∀ i, (run i).measure S threads + i ≤ (run 0).measure S threads := by
    intro i
    induction i with
    | zero => exact le_refl _
    | succ i ih =>
      have := (steps i).measure_lt
      omega
  have := smaller ((run 0).measure S threads + 1)
  omega

/-- A pool that is stuck is over, unless the supply makes a thread wait. -/
theorem step_or_over (ready : S.take s.supply ≠ none) :
    s.Over threads ∨ ∃ s', Step S cell work threads s s' := by
  by_cases gone : s.Over threads
  · exact .inl gone
  · refine .inr ?_
    unfold State.Over at gone
    push Not at gone
    obtain ⟨w, thread, here⟩ := gone
    cases phase : s.phase w with
    | idle =>
      obtain ⟨⟨task, supply⟩, took⟩ := Option.ne_none_iff_exists'.mp ready
      cases task with
      | some t => exact ⟨_, .take thread phase took⟩
      | none => exact ⟨_, .leave thread phase took⟩
    | busy t => exact ⟨_, .finish thread phase⟩
    | left => exact absurd phase here

/-- Where nobody ever waits, the pool can always be run to its end. -/
theorem exists_run_over (ready : ∀ supply, S.take supply ≠ none) (s : State σ τ κ ρ) :
    ∃ s', Relation.ReflTransGen (Step S cell work threads) s s' ∧ s'.Over threads := by
  induction size : s.measure S threads using Nat.strong_induction_on generalizing s with
  | _ n ih =>
    have go : s.Over threads ∨ ∃ s', Step S cell work threads s s' := step_or_over (ready s.supply)
    rcases go with gone | ⟨next, step⟩
    · exact ⟨s, .refl, gone⟩
    · obtain ⟨s', run, gone⟩ := ih _ (size ▸ step.measure_lt) next rfl
      exact ⟨s', run.head step, gone⟩

/-! ## As many exits as threads -/

/-- `exits` counts how many threads the supply will still tell to leave; it makes a thread wait only
    when it has nothing left. -/
structure Exits (S : Supply σ τ) (exits : σ → Nat) : Prop where
  task : ∀ {supply t supply'}, S.take supply = some (some t, supply') → exits supply' = exits supply
  leave : ∀ {supply supply'}, S.take supply = some (none, supply') → exits supply = exits supply' + 1
  wait : ∀ {supply}, S.take supply = none → exits supply = 0

def Phase.present : Phase τ → Nat
  | .left => 0
  | _ => 1

variable (threads) in
/-- The number of threads that have not left. -/
def State.present (s : State σ τ κ ρ) : Nat := ∑ w ∈ Finset.range threads, (s.phase w).present

omit [DecidableEq κ] in
theorem present_initial (supply : σ) :
    (State.initial supply : State σ τ κ ρ).present threads = threads := by
  simp [State.present, State.initial, Phase.present]

omit [DecidableEq κ] in
theorem over_iff_present : s.Over threads ↔ s.present threads = 0 := by
  unfold State.Over State.present
  rw [Finset.sum_eq_zero_iff]
  refine forall_congr' fun w => ?_
  rw [Finset.mem_range]
  refine imp_congr_right fun _ => ?_
  cases s.phase w <;> simp [Phase.present]

/-- Every thread that has not left has its exit waiting. -/
theorem Exits.step {exits : σ → Nat} (ex : Exits S exits)
    (same : exits s.supply = s.present threads) (h : Step S cell work threads s s') :
    exits s'.supply = s'.present threads := by
  cases h with
  | @take w t supply thread idle took =>
    have sum := sum_update Phase.present s.phase thread (.busy t)
    have kept := ex.task took
    rw [idle] at sum
    simp only [Phase.present, State.present] at sum same ⊢
    omega
  | @leave w supply thread idle told =>
    have sum := sum_update Phase.present s.phase thread .left
    have fewer := ex.leave told
    rw [idle] at sum
    simp only [Phase.present, State.present] at sum same ⊢
    omega
  | @finish w t thread busy =>
    have sum := sum_update Phase.present s.phase thread .idle
    rw [busy] at sum
    simp only [Phase.present, State.present] at sum same ⊢
    omega

theorem Exits.run {exits : σ → Nat} (ex : Exits S exits) (same : exits s.supply = s.present threads)
    (h : Relation.ReflTransGen (Step S cell work threads) s s') :
    exits s'.supply = s'.present threads := by
  induction h with
  | refl => exact same
  | tail _ step ih => exact ex.step ih step

/-- So nobody waits in vain. -/
theorem Exits.step_or_over {exits : σ → Nat} (ex : Exits S exits)
    (same : exits s.supply = s.present threads) :
    s.Over threads ∨ ∃ s', Step S cell work threads s s' := by
  by_cases waits : S.take s.supply = none
  · refine .inl (over_iff_present.mpr ?_)
    rw [← same, ex.wait waits]
  · exact TaskPool.step_or_over waits

end Pool

end Gsim.TaskPool
