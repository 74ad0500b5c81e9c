/-
  Gsim/TokenProtocol.lean
  =======================
  **Single-writer tokens**, over arbitrary types of tasks and slots.

  Tasks synchronise through slots.  A task may start when every slot it waits
  for is tagged and its local prerequisites have been executed; when its body
  has finished it tags its own slots, one at a time.  Every slot has one storer.

  `Covers y x` is the ordering that a start of `x` can rely on directly: `y` is a
  local prerequisite of `x`, or `x` waits for a slot whose storer is `y` or has
  `y` as a local prerequisite.  The main result is that a start relies on all of
  `TransGen Covers` (`Inv.order`), whatever the interleaving.
-/
import Mathlib.Logic.Relation
import Mathlib.Data.List.Basic
import Mathlib.Tactic.Common

namespace TokenProtocol

open Relation

/-! ### States and steps -/

/-- Where a task stands.  `storing []` is a task that has been executed. -/
inductive Status (Slot : Type) where
  | idle
  | running
  | storing (rest : List Slot)
deriving DecidableEq, Repr

inductive Event (Task : Type) where
  | start (x : Task)
  | finish (x : Task)
deriving DecidableEq, Repr

structure Tables (Task Slot : Type) where
  waits : Task → List Slot
  stores : Task → List Slot
  localPre : Task → Task → Prop
  storer_unique : ∀ slot x y, slot ∈ stores x → slot ∈ stores y → x = y

structure State (Task Slot : Type) where
  status : Task → Status Slot
  tagged : Slot → Prop
  trace : List (Event Task)

variable {Task Slot : Type} {T : Tables Task Slot} {s s' : State Task Slot}

inductive Step [DecidableEq Task] (T : Tables Task Slot) (s : State Task Slot) : State Task Slot → Prop
  | stutter : Step T s s
  | start (x : Task) (hidle : s.status x = .idle) (hwaits : ∀ slot ∈ T.waits x, s.tagged slot)
      (hlocal : ∀ y, T.localPre y x → s.status y = .storing []) :
      Step T s { status := Function.update s.status x .running, tagged := s.tagged,
                 trace := s.trace ++ [.start x] }
  | finish (x : Task) (hrun : s.status x = .running) :
      Step T s { status := Function.update s.status x (.storing (T.stores x)), tagged := s.tagged,
                 trace := s.trace ++ [.finish x] }
  | store (x : Task) (slot : Slot) (rest : List Slot) (hst : s.status x = .storing (slot :: rest)) :
      Step T s { status := Function.update s.status x (.storing rest),
                 tagged := fun slot' => slot' = slot ∨ s.tagged slot', trace := s.trace }

/-- An executed task stays executed. -/
theorem Step.executed [DecidableEq Task] (h : Step T s s') {x : Task}
    (hx : s.status x = .storing []) : s'.status x = .storing [] := by
  cases h with
  | stutter => exact hx
  | start y hidle _ _ =>
    have hne : x ≠ y := fun heq => by simp [← heq, hx] at hidle
    exact (Function.update_of_ne hne ..).trans hx
  | finish y hrun =>
    have hne : x ≠ y := fun heq => by simp [← heq, hx] at hrun
    exact (Function.update_of_ne hne ..).trans hx
  | store y slot rest hst =>
    have hne : x ≠ y := fun heq => by simp [← heq, hx] at hst
    exact (Function.update_of_ne hne ..).trans hx

/-- What a start of `x` can rely on directly. -/
def Tables.Covers (T : Tables Task Slot) (y x : Task) : Prop :=
  T.localPre y x ∨ ∃ slot ∈ T.waits x, ∃ z, slot ∈ T.stores z ∧ (y = z ∨ T.localPre y z)

/-- Every start in the trace comes after the finish of all it relies on. -/
def Ordered (T : Tables Task Slot) (trace : List (Event Task)) : Prop :=
  ∀ pre x post, trace = pre ++ .start x :: post → ∀ y, TransGen T.Covers y x → .finish y ∈ pre

/-! ### Splitting a trace that grew by one event -/

theorem append_singleton_split {α : Type} {l pre post : List α} {e x : α}
    (h : l ++ [e] = pre ++ x :: post) :
    (l = pre ∧ e = x) ∨ ∃ post', l = pre ++ x :: post' := by
  rcases List.append_eq_append_iff.mp h with ⟨mid, rfl, hmid⟩ | ⟨mid, rfl, hmid⟩
  · cases mid with
    | nil => exact Or.inl ⟨(List.append_nil l).symm, (List.cons.inj hmid).1⟩
    | cons m mid => simp at hmid
  · cases mid with
    | nil => exact Or.inl ⟨List.append_nil pre, (List.cons.inj hmid).1.symm⟩
    | cons m mid =>
      obtain ⟨rfl, -⟩ := List.cons.inj hmid
      exact Or.inr ⟨mid, rfl⟩

theorem Ordered.append {trace : List (Event Task)} (h : Ordered T trace) {e : Event Task}
    (hnew : ∀ x, e = .start x → ∀ y, TransGen T.Covers y x → .finish y ∈ trace) :
    Ordered T (trace ++ [e]) := by
  intro pre x post heq y hy
  rcases append_singleton_split heq with ⟨rfl, he⟩ | ⟨post', hl⟩
  · exact hnew x he y hy
  · exact h pre x post' hl y hy

/-! ### The invariant -/

structure Inv (T : Tables Task Slot) (s : State Task Slot) : Prop where
  start_iff : ∀ x, .start x ∈ s.trace ↔ s.status x ≠ .idle
  finish_iff : ∀ x, .finish x ∈ s.trace ↔ ∃ rest, s.status x = .storing rest
  nodup : s.trace.Nodup
  /-- a tagged slot has a finished storer -/
  storer_finished : ∀ slot x, slot ∈ T.stores x → s.tagged slot → .finish x ∈ s.trace
  rest_subset : ∀ x rest, s.status x = .storing rest → ∀ slot ∈ rest, slot ∈ T.stores x
  /-- what is not left to store is tagged -/
  stored : ∀ x rest, s.status x = .storing rest → ∀ slot ∈ T.stores x, slot ∈ rest ∨ s.tagged slot
  order : Ordered T s.trace

namespace Inv

theorem init {s : State Task Slot} (hidle : ∀ x, s.status x = .idle) (htrace : s.trace = [])
    (htagged : ∀ slot x, slot ∈ T.stores x → ¬ s.tagged slot) : Inv T s where
  start_iff x := by simp [htrace, hidle]
  finish_iff x := by simp [htrace, hidle]
  nodup := by simp [htrace]
  storer_finished slot x hx ht := absurd ht (htagged slot x hx)
  rest_subset x rest hx := by simp [hidle] at hx
  stored x rest hx := by simp [hidle] at hx
  order pre x post heq := by simp [htrace] at heq

theorem started_of_finished (h : Inv T s) {x : Task} (hx : .finish x ∈ s.trace) :
    .start x ∈ s.trace := by
  obtain ⟨rest, hrest⟩ := (h.finish_iff x).mp hx
  refine (h.start_iff x).mpr ?_
  simp [hrest]

/-- All that a started task relies on has finished. -/
theorem finished_of_covers (h : Inv T s) {x y : Task} (hx : .start x ∈ s.trace)
    (hy : TransGen T.Covers y x) : .finish y ∈ s.trace := by
  obtain ⟨pre, post, heq⟩ := List.append_of_mem hx
  have hmem := h.order pre x post heq y hy
  rw [heq]
  exact List.mem_append_left _ hmem

/-- The guards of a start give the finish of everything the task relies on. -/
theorem guards_cover (h : Inv T s) {x : Task} (hwaits : ∀ slot ∈ T.waits x, s.tagged slot)
    (hlocal : ∀ y, T.localPre y x → s.status y = .storing []) {y : Task}
    (hy : TransGen T.Covers y x) : .finish y ∈ s.trace := by
  -- one edge first: the path to its source then comes from the order invariant
  have hedge : ∀ z, T.Covers z x → .finish z ∈ s.trace := by
    rintro z (hpre | ⟨slot, hslot, w, hw, hzw⟩)
    · exact (h.finish_iff z).mpr ⟨[], hlocal z hpre⟩
    · have hfin := h.storer_finished slot w hw (hwaits slot hslot)
      rcases hzw with rfl | hpre
      · exact hfin
      · exact h.finished_of_covers (h.started_of_finished hfin) (TransGen.single (Or.inl hpre))
  rcases TransGen.tail'_iff.mp hy with ⟨z, hyz, hzx⟩
  have hz := hedge z hzx
  rcases reflTransGen_iff_eq_or_transGen.mp hyz with rfl | hyz'
  · exact hz
  · exact h.finished_of_covers (h.started_of_finished hz) hyz'

theorem step [DecidableEq Task] (h : Inv T s) (hstep : Step T s s') : Inv T s' := by
  cases hstep with
  | stutter => exact h
  | start x hidle hwaits hlocal =>
    have hnew : .start x ∉ s.trace := fun hin => (h.start_iff x).mp hin hidle
    refine ⟨fun z => ?_, fun z => ?_, ?_, ?_, ?_, ?_, ?_⟩
    · by_cases hz : z = x
      · subst hz
        simp
      · simp [h.start_iff, hz]
    · by_cases hz : z = x
      · subst hz
        simp [h.finish_iff, hidle]
      · simp [Function.update_of_ne hz, h.finish_iff]
    · simpa [List.nodup_append] using ⟨h.nodup, fun e he => fun heq => hnew (heq ▸ he)⟩
    · intro slot z hz ht
      exact List.mem_append_left _ (h.storer_finished slot z hz ht)
    · intro z rest hz
      by_cases hzx : z = x
      · subst hzx
        simp at hz
      · exact h.rest_subset z rest (by simpa [Function.update_of_ne hzx] using hz)
    · intro z rest hz
      by_cases hzx : z = x
      · subst hzx
        simp at hz
      · exact h.stored z rest (by simpa [Function.update_of_ne hzx] using hz)
    · refine h.order.append fun z hz y hy => ?_
      cases hz
      exact h.guards_cover hwaits hlocal hy
  | finish x hrun =>
    have hnew : .finish x ∉ s.trace := fun hin => by
      obtain ⟨rest, hrest⟩ := (h.finish_iff x).mp hin
      rw [hrun] at hrest
      cases hrest
    refine ⟨fun z => ?_, fun z => ?_, ?_, ?_, ?_, ?_, ?_⟩
    · by_cases hz : z = x
      · subst hz
        simp [h.start_iff, hrun]
      · simp [Function.update_of_ne hz, h.start_iff]
    · by_cases hz : z = x
      · subst hz
        simp
      · simp [h.finish_iff, hz]
    · simpa [List.nodup_append] using ⟨h.nodup, fun e he => fun heq => hnew (heq ▸ he)⟩
    · intro slot z hz ht
      exact List.mem_append_left _ (h.storer_finished slot z hz ht)
    · intro z rest hz
      by_cases hzx : z = x
      · subst hzx
        simp only [Function.update_self, Status.storing.injEq] at hz
        exact fun slot hslot => hz ▸ hslot
      · exact h.rest_subset z rest (by simpa [Function.update_of_ne hzx] using hz)
    · intro z rest hz slot hslot
      by_cases hzx : z = x
      · subst hzx
        simp only [Function.update_self, Status.storing.injEq] at hz
        exact Or.inl (hz ▸ hslot)
      · exact h.stored z rest (by simpa [Function.update_of_ne hzx] using hz) slot hslot
    · refine h.order.append fun z hz => ?_
      cases hz
  | store x slot rest hst =>
    refine ⟨fun z => ?_, fun z => ?_, h.nodup, ?_, ?_, ?_, h.order⟩
    · by_cases hz : z = x
      · subst hz
        simp [h.start_iff, hst]
      · simp [Function.update_of_ne hz, h.start_iff]
    · by_cases hz : z = x
      · subst hz
        simp [h.finish_iff, hst]
      · simp [Function.update_of_ne hz, h.finish_iff]
    · rintro slot' z hz (rfl | ht)
      · -- the slot just tagged has `x` as its only storer
        have hx := h.rest_subset x _ hst slot' (List.mem_cons_self ..)
        rw [T.storer_unique slot' z x hz hx]
        exact (h.finish_iff x).mpr ⟨_, hst⟩
      · exact h.storer_finished slot' z hz ht
    · intro z rest' hz
      by_cases hzx : z = x
      · subst hzx
        simp only [Function.update_self, Status.storing.injEq] at hz
        exact fun slot' hslot' =>
          h.rest_subset z _ hst slot' (List.mem_cons_of_mem _ (hz ▸ hslot'))
      · exact h.rest_subset z rest' (by simpa [Function.update_of_ne hzx] using hz)
    · intro z rest' hz slot' hslot'
      by_cases hzx : z = x
      · subst hzx
        simp only [Function.update_self, Status.storing.injEq] at hz
        rcases h.stored z _ hst slot' hslot' with hin | ht
        · rcases List.mem_cons.mp hin with rfl | hin
          · exact Or.inr (Or.inl rfl)
          · exact Or.inl (hz ▸ hin)
        · exact Or.inr (Or.inr ht)
      · rcases h.stored z rest' (by simpa [Function.update_of_ne hzx] using hz) slot' hslot'
          with hin | ht
        · exact Or.inl hin
        · exact Or.inr (Or.inr ht)

/-- Executed storers have tagged all their slots. -/
theorem tagged_of_executed (h : Inv T s) {x : Task} (hx : s.status x = .storing []) {slot : Slot}
    (hslot : slot ∈ T.stores x) : s.tagged slot := by
  rcases h.stored x [] hx slot hslot with hin | ht
  · cases hin
  · exact ht

/-- An executed task has one start and one finish in the trace. -/
theorem count_of_executed [DecidableEq Task] (h : Inv T s) {x : Task} (hx : s.status x = .storing []) :
    s.trace.count (.start x) = 1 ∧ s.trace.count (.finish x) = 1 := by
  have hfin : .finish x ∈ s.trace := (h.finish_iff x).mpr ⟨_, hx⟩
  exact ⟨h.nodup.count.trans (if_pos (h.started_of_finished hfin)),
    h.nodup.count.trans (if_pos hfin)⟩

end Inv

end TokenProtocol
