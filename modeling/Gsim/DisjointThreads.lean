/-
  Gsim/DisjointThreads.lean
  =========================
  **Threads that share a store without meeting in it.**

  Each thread has a state of its own and takes its steps on the shared store.  It writes
  to the places it owns and looks at no others than its footprint, and nobody else owns a
  place of that footprint.  Then no thread notices that it is not alone: at any time of
  any interleaving every thread is where it would be alone, and sees in its footprint what
  it would see alone (`Follows.reachable`).  So the interleavings in which all threads
  finish end alike (`final_unique`).
-/
import Mathlib.Logic.Function.Basic
import Mathlib.Logic.Relation
import Mathlib.Data.Set.Basic
import Mathlib.Tactic

namespace DisjointThreads

variable {ι ν V L : Type*}

/-- Stores that hold the same at the places of a set. -/
def AgreeOn (S : Set ν) (v w : ν → V) : Prop := ∀ x ∈ S, v x = w x

theorem AgreeOn.refl (S : Set ν) (v : ν → V) : AgreeOn S v v := fun _ _ => rfl

theorem AgreeOn.symm {S : Set ν} {v w : ν → V} (h : AgreeOn S v w) : AgreeOn S w v :=
  fun x hx => (h x hx).symm

theorem AgreeOn.trans {S : Set ν} {u v w : ν → V} (h : AgreeOn S u v) (h' : AgreeOn S v w) :
    AgreeOn S u w := fun x hx => (h x hx).trans (h' x hx)

/-- The threads: what each owns and looks at, and its next step, if there is one. -/
structure Threads (ι ν V L : Type*) where
  own : ι → Set ν
  foot : ι → Set ν
  act : ι → L × (ν → V) → Option (L × (ν → V))
  own_subset : ∀ i, own i ⊆ foot i
  /-- Nothing changes that the thread does not own. -/
  frame : ∀ {i l v l' v'}, act i (l, v) = some (l', v') → ∀ x, x ∉ own i → v' x = v x
  /-- The rest of the store has no influence. -/
  determined : ∀ {i l v w l' v'}, AgreeOn (foot i) v w → act i (l, v) = some (l', v') →
    ∃ w', act i (l, w) = some (l', w') ∧ AgreeOn (foot i) v' w'
  apart : ∀ {i j}, i ≠ j → ∀ x, x ∈ own i → x ∉ foot j

structure State (ι ν V L : Type*) where
  loc : ι → L
  val : ν → V

namespace Threads

variable (T : Threads ι ν V L)

/-- A thread alone. -/
def Solo (i : ι) (s s' : L × (ν → V)) : Prop := T.act i s = some s'

section Alone

variable {T}

theorem Solo.rightUnique (i : ι) : Relator.RightUnique (T.Solo i) := by
  intro a b c hb hc
  exact Option.some.inj (hb.symm.trans hc)

/-- A thread that has finished in the company of others has finished alone. -/
theorem stuck_of_agree {i : ι} {l : L} {v w : ν → V} (h : AgreeOn (T.foot i) v w)
    (hnone : T.act i (l, v) = none) : T.act i (l, w) = none := by
  by_contra hsome
  obtain ⟨⟨l', w'⟩, hact⟩ := Option.ne_none_iff_exists'.mp hsome
  obtain ⟨v', hv, -⟩ := T.determined h.symm hact
  rw [hnone] at hv
  cases hv

theorem eq_of_stuck {i : ι} {a b c : L × (ν → V)} (hb : Relation.ReflTransGen (T.Solo i) a b)
    (hc : Relation.ReflTransGen (T.Solo i) a c) (hb' : T.act i b = none) (hc' : T.act i c = none) :
    b = c := by
  have hstuck : ∀ {x y}, T.act i x = none → Relation.ReflTransGen (T.Solo i) x y → x = y := by
    intro x y hx hxy
    rcases Relation.ReflTransGen.cases_head hxy with rfl | ⟨z, hz, -⟩
    · rfl
    · rw [Solo, hx] at hz
      cases hz
  rcases Relation.ReflTransGen.total_of_right_unique (Solo.rightUnique i) hb hc with h | h
  · exact hstuck hb' h
  · exact (hstuck hc' h).symm

end Alone

section Running

variable [DecidableEq ι]

/-- Some thread takes a step. -/
def Step (s s' : State ι ν V L) : Prop :=
  ∃ i l v, T.act i (s.loc i, s.val) = some (l, v) ∧ s' = ⟨Function.update s.loc i l, v⟩

abbrev Reachable (s s' : State ι ν V L) : Prop := Relation.ReflTransGen T.Step s s'

/-- All threads have finished. -/
def Final (s : State ι ν V L) : Prop := ∀ i, T.act i (s.loc i, s.val) = none

/-- Every thread is where it would be alone. -/
structure Follows (start s : State ι ν V L) : Prop where
  solo : ∀ i, ∃ v, Relation.ReflTransGen (T.Solo i) (start.loc i, start.val) (s.loc i, v) ∧
    AgreeOn (T.foot i) s.val v
  rest : ∀ x, (∀ i, x ∉ T.own i) → s.val x = start.val x

variable {T} {start s s' : State ι ν V L}

omit [DecidableEq ι] in
theorem Follows.refl (s : State ι ν V L) : T.Follows s s where
  solo _ := ⟨s.val, .refl, .refl _ _⟩
  rest _ _ := rfl

/-- A step moves one thread on and is out of the sight of the others. -/
theorem Follows.step (h : T.Follows start s) (hstep : T.Step s s') : T.Follows start s' := by
  obtain ⟨i, l, v, hact, rfl⟩ := hstep
  refine ⟨fun j => ?_, fun x hx => (T.frame hact x (hx i)).trans (h.rest x hx)⟩
  obtain ⟨w, hrun, hagree⟩ := h.solo j
  by_cases hij : i = j
  · subst hij
    obtain ⟨w', hact', hagree'⟩ := T.determined hagree hact
    refine ⟨w', ?_, hagree'⟩
    simp only [Function.update_self]
    exact hrun.tail hact'
  · refine ⟨w, ?_, fun x hx => ?_⟩
    · simp only [Function.update_of_ne (Ne.symm hij)]
      exact hrun
    · have hx' : x ∉ T.own i := fun howned => T.apart hij x howned hx
      exact (T.frame hact x hx').trans (hagree x hx)

theorem Follows.reachable (h : T.Reachable start s) : T.Follows start s := by
  induction h with
  | refl => exact .refl start
  | tail _ hstep ih => exact ih.step hstep

/-- Where all threads have finished does not depend on the interleaving. -/
theorem final_unique {s₁ s₂ : State ι ν V L} (h₁ : T.Reachable start s₁) (h₂ : T.Reachable start s₂)
    (hf₁ : T.Final s₁) (hf₂ : T.Final s₂) : s₁ = s₂ := by
  have hfollows₁ := Follows.reachable h₁
  have hfollows₂ := Follows.reachable h₂
  have hthread : ∀ i, s₁.loc i = s₂.loc i ∧ AgreeOn (T.foot i) s₁.val s₂.val := by
    intro i
    obtain ⟨v, hrun₁, hv⟩ := hfollows₁.solo i
    obtain ⟨w, hrun₂, hw⟩ := hfollows₂.solo i
    have heq := eq_of_stuck hrun₁ hrun₂ (stuck_of_agree hv (hf₁ i)) (stuck_of_agree hw (hf₂ i))
    obtain ⟨hloc, rfl⟩ := Prod.mk.inj heq
    exact ⟨hloc, hv.trans hw.symm⟩
  obtain ⟨loc₁, val₁⟩ := s₁
  obtain ⟨loc₂, val₂⟩ := s₂
  obtain rfl : loc₁ = loc₂ := funext fun i => (hthread i).1
  congr 1
  funext x
  by_cases hx : ∃ i, x ∈ T.own i
  · obtain ⟨i, hi⟩ := hx
    exact (hthread i).2 x (T.own_subset i hi)
  · have hnone : ∀ i, x ∉ T.own i := fun i hi => hx ⟨i, hi⟩
    exact (hfollows₁.rest x hnone).trans (hfollows₂.rest x hnone).symm

end Running

end Threads

end DisjointThreads
