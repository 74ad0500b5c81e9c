/-
  Gsim/CommutingTraces.lean
  =========================
  **Two orders of the same actions.**

  Actions change a state; a word performs some of them one after another.  Two words with
  the same actions end in the same state if every two actions that do not commute stand
  in the same order in both (`exec_eq_of_perm`).  Orders usually come from a relation that
  both words respect; it is then enough that actions which it leaves unordered commute
  (`exec_eq_of_linearises`).

  Accesses to a memory with named locations are the actions in mind: two of them commute
  when neither overwrites what the other reads or writes (`Access.Apart.commute`).
-/
import Mathlib.Logic.Function.Basic
import Mathlib.Data.List.Basic
import Mathlib.Data.Set.Basic
import Mathlib.Tactic.Common

namespace CommutingTraces

variable {ι σ : Type*}

/-! ### Words -/

/-- The actions of a word, one after another. -/
def exec (act : ι → σ → σ) (w : List ι) (s : σ) : σ := w.foldl (fun s i => act i s) s

section Words

variable {act : ι → σ → σ}

@[simp] theorem exec_nil (s : σ) : exec act [] s = s := rfl

@[simp] theorem exec_cons (i : ι) (w : List ι) (s : σ) :
    exec act (i :: w) s = exec act w (act i s) := rfl

theorem exec_append (u v : List ι) (s : σ) : exec act (u ++ v) s = exec act v (exec act u s) :=
  List.foldl_append

theorem exec_map {κ : Type*} (f : κ → ι) (w : List κ) (s : σ) :
    exec act (w.map f) s = exec (fun k => act (f k)) w s :=
  List.foldl_map

theorem exec_flatMap {κ : Type*} (f : κ → List ι) (w : List κ) (s : σ) :
    exec act (w.flatMap f) s = exec (fun k => exec act (f k)) w s := by
  induction w generalizing s with
  | nil => rfl
  | cons k w ih => rw [List.flatMap_cons, exec_append, ih, exec_cons]

theorem exec_congr {act' : ι → σ → σ} {w : List ι} (h : ∀ i ∈ w, act i = act' i) (s : σ) :
    exec act w s = exec act' w s := by
  induction w generalizing s with
  | nil => rfl
  | cons i w ih =>
    rw [exec_cons, exec_cons, h i List.mem_cons_self]
    exact ih (fun j hj => h j (List.mem_cons_of_mem i hj)) _

/-- A map that commutes with all actions of a word can go before or after the word. -/
theorem exec_comm {f : σ → σ} {w : List ι} (h : ∀ i ∈ w, Function.Commute f (act i)) :
    Function.Commute f (exec act w) := by
  induction w with
  | nil => exact Function.Commute.id_right
  | cons i w ih =>
    intro s
    have here := h i List.mem_cons_self s
    have rest := ih (fun j hj => h j (List.mem_cons_of_mem i hj)) (act i s)
    rw [exec_cons, exec_cons, rest, here]

/-- **Reordering.**  Only actions that commute change places. -/
theorem exec_eq_of_perm {u v : List ι} (perm : u.Perm v)
    (agree : ∀ i j, [i, j].Sublist u → [j, i].Sublist v → Function.Commute (act i) (act j)) (s : σ) :
    exec act u s = exec act v s := by
  induction v generalizing u s with
  | nil => rw [perm.eq_nil]
  | cons a v ih =>
    -- the first action of `v` moves to the front of `u`
    obtain ⟨p, q, rfl⟩ := List.append_of_mem (perm.mem_iff.mpr List.mem_cons_self)
    have rest : (p ++ q).Perm v := (List.perm_middle.symm.trans perm).cons_inv
    have passes : ∀ i ∈ p, Function.Commute (act a) (act i) := by
      intro i hi
      have before : [i, a].Sublist (p ++ a :: q) :=
        (List.singleton_sublist.mpr hi).append (List.singleton_sublist.mpr List.mem_cons_self)
      have after : [a, i].Sublist (a :: v) :=
        (List.singleton_sublist.mpr (rest.mem_iff.mp (List.mem_append_left q hi))).cons_cons a
      exact (agree i a before after).symm
    calc exec act (p ++ a :: q) s = exec act q (act a (exec act p s)) := by
          rw [exec_append, exec_cons]
      _ = exec act (p ++ q) (act a s) := by
          rw [exec_comm passes s, exec_append]
      _ = exec act (a :: v) s := by
          rw [exec_cons]
          refine ih rest (fun i j hu hv => agree i j ?_ (hv.cons a)) _
          exact hu.trans ((List.sublist_cons_self a q).append_left p)

/-- No action stands before one that has to come first. -/
def Linearises (R : ι → ι → Prop) (w : List ι) : Prop := w.Pairwise fun i j => ¬ R j i

/-- **Two linearisations** of a relation agree if actions that it leaves unordered commute. -/
theorem exec_eq_of_linearises {R : ι → ι → Prop} {u v : List ι} (perm : u.Perm v)
    (hu : Linearises R u) (hv : Linearises R v)
    (race : ∀ i ∈ u, ∀ j ∈ u, ¬ R i j → ¬ R j i → Function.Commute (act i) (act j)) (s : σ) :
    exec act u s = exec act v s := by
  refine exec_eq_of_perm perm (fun i j hij hji => ?_) s
  have not_ji : ¬ R j i := List.pairwise_pair.mp (hu.sublist hij)
  have not_ij : ¬ R i j := List.pairwise_pair.mp (hv.sublist hji)
  exact race i (hij.subset (by simp)) j (hij.subset (by simp)) not_ij not_ji

theorem Linearises.append {R : ι → ι → Prop} {w : List ι} (h : Linearises R w) {i : ι}
    (last : ∀ j ∈ w, ¬ R i j) : Linearises R (w ++ [i]) := by
  refine List.pairwise_append.mpr ⟨h, List.pairwise_singleton _ _, fun j hj k hk => ?_⟩
  rw [List.mem_singleton.mp hk]
  exact last j hj

end Words

/-! ### Accesses to a memory -/

/-- An assignment to a location, whose value depends on some locations only. -/
structure Access (Loc V : Type*) where
  target : Loc
  reads : Set Loc
  value : (Loc → V) → V
  footprint : ∀ m m', (∀ x ∈ reads, m x = m' x) → value m = value m'

namespace Access

variable {Loc V : Type*} [DecidableEq Loc]

def run (a : Access Loc V) (m : Loc → V) : Loc → V := Function.update m a.target (a.value m)

/-- Neither access overwrites what the other one reads or writes. -/
def Apart (a b : Access Loc V) : Prop :=
  a.target ≠ b.target ∧ a.target ∉ b.reads ∧ b.target ∉ a.reads

omit [DecidableEq Loc] in
theorem Apart.symm {a b : Access Loc V} (h : a.Apart b) : b.Apart a := ⟨h.1.symm, h.2.2, h.2.1⟩

/-- What an access computes does not change under one that is apart from it. -/
theorem Apart.value_run {a b : Access Loc V} (h : a.Apart b) (m : Loc → V) :
    a.value (b.run m) = a.value m := by
  refine a.footprint _ _ fun x hx => Function.update_of_ne ?_ _ _
  rintro rfl
  exact h.2.2 hx

theorem Apart.commute {a b : Access Loc V} (h : a.Apart b) : Function.Commute a.run b.run := by
  intro m
  show Function.update (b.run m) a.target (a.value (b.run m)) =
    Function.update (a.run m) b.target (b.value (a.run m))
  rw [h.value_run, h.symm.value_run]
  exact Function.update_comm h.1.symm _ _ _

end Access

/-- Two words of accesses commute if their accesses are pairwise apart. -/
theorem exec_commute {Loc V : Type*} [DecidableEq Loc] {u v : List (Access Loc V)}
    (h : ∀ a ∈ u, ∀ b ∈ v, a.Apart b) :
    Function.Commute (exec Access.run u) (exec Access.run v) :=
  exec_comm fun b hb => (exec_comm fun a ha => (h a ha b hb).symm.commute).symm

end CommutingTraces
