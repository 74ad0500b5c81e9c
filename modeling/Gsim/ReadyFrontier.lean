/-
  Gsim/ReadyFrontier.lean
  =======================
  **Working off a graph by counting predecessors**, over an arbitrary type.

  A vertex waits once all its predecessors are done; one that is done tells its
  successors, which count.  Where the waiting vertices are kept and which comes next
  is left open: the rules say what placing a vertex (`place`) and telling one
  successor (`tell`) keep, and waiting vertices may be rearranged (`perm`).
-/
import Mathlib.Data.Fintype.Basic
import Mathlib.Logic.Relation
import Mathlib.Tactic

namespace ReadyFrontier

open Relation

variable {α : Type*} [DecidableEq α]

/-- Predecessor and successor sets that mirror each other. -/
structure IsGraph (V : List α) (preds succs : α → List α) : Prop where
  predNodup : ∀ v ∈ V, (preds v).Nodup
  succNodup : ∀ u ∈ V, (succs u).Nodup
  mirrored : ∀ u ∈ V, ∀ v, v ∈ succs u ↔ v ∈ V ∧ u ∈ preds v
  predMem : ∀ v ∈ V, ∀ u ∈ preds v, u ∈ V

/-- How many predecessors are done. -/
def told (preds : α → List α) (done : List α) (v : α) : ℕ :=
  ((preds v).filter fun u => u ∈ done).length

theorem told_le (preds : α → List α) (done : List α) (v : α) :
    told preds done v ≤ (preds v).length := List.length_filter_le _ _

theorem told_eq_length_iff {preds : α → List α} {done : List α} {v : α} :
    told preds done v = (preds v).length ↔ ∀ u ∈ preds v, u ∈ done := by
  unfold told
  rw [List.length_filter_eq_length_iff]
  simp

theorem told_append {preds : α → List α} {done : List α} {u v : α} (nodup : (preds v).Nodup)
    (fresh : u ∉ done) :
    told preds (done ++ [u]) v = told preds done v + if u ∈ preds v then 1 else 0 := by
  unfold told
  revert nodup
  induction preds v with
  | nil => simp
  | cons w ws ih =>
    intro nodup
    obtain ⟨out, nodup⟩ := List.nodup_cons.mp nodup
    have ih := ih nodup
    by_cases eq : w = u
    · subst eq
      rw [if_neg out] at ih
      rw [List.filter_cons_of_pos (by simp), List.filter_cons_of_neg (by simpa using fresh),
        if_pos List.mem_cons_self, List.length_cons, ih]
    · have mem : u ∈ w :: ws ↔ u ∈ ws := by simp [Ne.symm eq]
      by_cases hw : w ∈ done
      · rw [List.filter_cons_of_pos (by simp [hw]), List.filter_cons_of_pos (by simp [hw]),
          List.length_cons, List.length_cons, ih, if_congr mem rfl rfl]
        omega
      · rw [List.filter_cons_of_neg (by simp [hw, eq]), List.filter_cons_of_neg (by simp [hw]), ih,
          if_congr mem rfl rfl]

/-- The state while the vertex placed last has still to tell `pending`. -/
structure Inv (V : List α) (preds : α → List α) (done pending waiting : List α) (times : α → ℕ) :
    Prop where
  nodup : (done ++ waiting).Nodup
  sub : ∀ v ∈ done ++ waiting, v ∈ V
  counter : ∀ v ∈ V, times v + pending.count v = told preds done v
  ready : ∀ v ∈ V, v ∈ done ++ waiting ↔ times v = (preds v).length
  sorted : ∀ v ∈ done, ∀ u ∈ preds v, u ∈ done ∧ done.idxOf u < done.idxOf v

variable {V : List α} {preds succs : α → List α} {done pending waiting : List α} {times : α → ℕ}

namespace Inv

/-- Everything that waits has its predecessors done. -/
theorem preds_done (h : Inv V preds done pending waiting times) {v : α}
    (hv : v ∈ done ++ waiting) : ∀ u ∈ preds v, u ∈ done := by
  have counter := h.counter v (h.sub v hv)
  have le := told_le preds done v
  rw [(h.ready v (h.sub v hv)).mp hv] at counter
  exact told_eq_length_iff.mp (by omega)

theorem perm {waiting' : List α} (h : Inv V preds done pending waiting times)
    (p : waiting.Perm waiting') : Inv V preds done pending waiting' times := by
  have q : (done ++ waiting).Perm (done ++ waiting') := p.append_left done
  refine ⟨q.nodup_iff.mp h.nodup, fun v hv => h.sub v (q.mem_iff.mpr hv), h.counter, ?_, h.sorted⟩
  intro v hv
  rw [← h.ready v hv]
  exact q.mem_iff.symm

/-- At the start the vertices without predecessors wait. -/
theorem start (nodup : waiting.Nodup) (roots : ∀ v, v ∈ waiting ↔ v ∈ V ∧ preds v = []) :
    Inv V preds [] [] waiting fun _ => 0 where
  nodup := nodup
  sub v hv := ((roots v).mp hv).1
  counter v _ := by simp [told]
  ready := by
    intro v hv
    rw [List.nil_append, roots, and_iff_right hv, ← List.length_eq_zero_iff]
    exact eq_comm
  sorted v hv := absurd hv List.not_mem_nil

/-- A waiting vertex is placed; its successors are still to be told. -/
theorem place (graph : IsGraph V preds succs) (h : Inv V preds done [] waiting times) {u : α}
    {rest : List α} (split : waiting.Perm (u :: rest)) (tell : pending.Perm (succs u)) :
    Inv V preds (done ++ [u]) pending rest times := by
  have q : (done ++ waiting).Perm (done ++ [u] ++ rest) := by
    rw [List.append_assoc]
    exact split.append_left done
  have nodup := q.nodup_iff.mp h.nodup
  have uV : u ∈ V := h.sub u (q.mem_iff.mpr (by simp))
  have fresh : u ∉ done := by
    have := (List.nodup_append.mp (List.nodup_append.mp nodup).1).2.2
    exact fun mem => this u mem u (List.mem_singleton_self u) rfl
  have uPreds := h.preds_done (q.mem_iff.mpr (by simp : u ∈ done ++ [u] ++ rest))
  refine ⟨nodup, fun v hv => h.sub v (q.mem_iff.mpr hv), ?_, ?_, ?_⟩
  · intro v hv
    have counter := h.counter v hv
    have count : pending.count v = if u ∈ preds v then 1 else 0 := by
      rw [tell.count_eq]
      by_cases mem : u ∈ preds v
      · rw [if_pos mem]
        exact List.count_eq_one_of_mem (graph.succNodup u uV) ((graph.mirrored u uV v).mpr ⟨hv, mem⟩)
      · rw [if_neg mem]
        exact List.count_eq_zero_of_not_mem fun out => mem ((graph.mirrored u uV v).mp out).2
    rw [told_append (graph.predNodup v hv) fresh, count, ← counter, List.count_nil, Nat.add_zero]
  · intro v hv
    rw [← h.ready v hv]
    exact q.mem_iff.symm
  · intro v hv w hw
    rcases List.mem_append.mp hv with old | new
    · obtain ⟨mem, lt⟩ := h.sorted v old w hw
      refine ⟨List.mem_append_left _ mem, ?_⟩
      rw [List.idxOf_append_of_mem mem, List.idxOf_append_of_mem old]
      exact lt
    · rw [List.mem_singleton] at new
      subst new
      have mem := uPreds w hw
      refine ⟨List.mem_append_left _ mem, ?_⟩
      rw [List.idxOf_append_of_mem mem, List.idxOf_append_of_notMem fresh]
      exact (List.idxOf_lt_length_of_mem mem).trans_le (Nat.le_add_right _ _)

section Tell

variable {v : α} (h : Inv V preds done (v :: pending) waiting times) (hv : v ∈ V)
include h hv

/-- One that is still to be told does not wait yet. -/
theorem not_mem_of_pending : v ∉ done ++ waiting := by
  have counter := h.counter v hv
  have le := told_le preds done v
  rw [List.count_cons_self] at counter
  rw [h.ready v hv]
  omega

theorem counter_tell (w : α) (hw : w ∈ V) :
    Function.update times v (times v + 1) w + pending.count w = told preds done w := by
  have counter := h.counter w hw
  by_cases eq : w = v
  · subst eq
    rw [Function.update_self]
    rw [List.count_cons_self] at counter
    omega
  · rw [Function.update_of_ne eq]
    rw [List.count_cons_of_ne (Ne.symm eq)] at counter
    exact counter

/-- A successor is told and has all its predecessors done: it waits from now on. -/
theorem tell_ready (last : times v + 1 = (preds v).length) :
    Inv V preds done pending (v :: waiting) (Function.update times v (times v + 1)) := by
  have absent := h.not_mem_of_pending hv
  have q : (done ++ v :: waiting).Perm (v :: (done ++ waiting)) := List.perm_middle
  refine ⟨q.nodup_iff.mpr (List.nodup_cons.mpr ⟨absent, h.nodup⟩), ?_, h.counter_tell hv, ?_,
    h.sorted⟩
  · intro w hw
    rcases List.mem_cons.mp (q.mem_iff.mp hw) with rfl | old
    · exact hv
    · exact h.sub w old
  · intro w hw
    rw [q.mem_iff, List.mem_cons]
    by_cases eq : w = v
    · subst eq
      rw [Function.update_self]
      simp [last]
    · rw [Function.update_of_ne eq, ← h.ready w hw]
      simp [eq]

/-- A successor is told that has other predecessors left. -/
theorem tell_early (early : times v + 1 ≠ (preds v).length) :
    Inv V preds done pending waiting (Function.update times v (times v + 1)) := by
  have absent := h.not_mem_of_pending hv
  refine ⟨h.nodup, h.sub, h.counter_tell hv, ?_, h.sorted⟩
  intro w hw
  by_cases eq : w = v
  · subst eq
    rw [Function.update_self]
    exact ⟨fun mem => absurd mem absent, fun eq => absurd eq early⟩
  · rw [Function.update_of_ne eq, ← h.ready w hw]

end Tell

theorem length_le (h : Inv V preds done pending waiting times) :
    done.length + waiting.length ≤ V.length := by
  have := (h.nodup.subperm h.sub).length_le
  rwa [List.length_append] at this

/-- On an acyclic graph nothing is left over. -/
theorem complete (graph : IsGraph V preds succs) (h : Inv V preds done [] [] times)
    (nodup : V.Nodup) (acyclic : ∀ x, ¬ TransGen (fun u v => v ∈ V ∧ u ∈ preds v) x x) :
    done.Perm V := by
  have doneNodup : done.Nodup := by simpa using h.nodup
  refine (List.perm_ext_iff_of_nodup doneNodup nodup).mpr fun v => ?_
  refine ⟨fun hv => h.sub v (by simpa using hv), fun hv => ?_⟩
  by_contra left
  -- among the vertices left over there is one without a predecessor left over
  have trans : IsTrans {x // x ∈ V} fun i j => TransGen (fun u v => v ∈ V ∧ u ∈ preds v) i.1 j.1 :=
    ⟨fun _ _ _ p q => p.trans q⟩
  have irrefl : Std.Irrefl fun i j : {x // x ∈ V} =>
      TransGen (fun u v => v ∈ V ∧ u ∈ preds v) i.1 j.1 := ⟨fun i => acyclic i.1⟩
  have wf := Finite.wellFounded_of_trans_of_irrefl fun i j : {x // x ∈ V} =>
    TransGen (fun u v => v ∈ V ∧ u ∈ preds v) i.1 j.1
  obtain ⟨⟨y, hy⟩, yLeft, least⟩ := wf.has_min {i : {x // x ∈ V} | i.1 ∉ done} ⟨⟨v, hv⟩, left⟩
  have allDone : ∀ u ∈ preds y, u ∈ done := by
    intro u hu
    by_contra uLeft
    exact least ⟨u, graph.predMem y hy u hu⟩ uLeft (TransGen.single ⟨hy, hu⟩)
  have counter := h.counter y hy
  rw [told_eq_length_iff.mpr allDone, List.count_nil, Nat.add_zero] at counter
  have := (h.ready y hy).mpr counter
  exact yLeft (by simpa using this)

end Inv

/-! ## When a vertex becomes ready -/

/-- The number of vertices that are done when `v` becomes ready. -/
def readyAt (preds : α → List α) (done : List α) (v : α) : ℕ :=
  ((preds v).map fun u => done.idxOf u + 1).foldr max 0

theorem lt_readyAt {u v : α} (h : u ∈ preds v) : done.idxOf u < readyAt preds done v := by
  unfold readyAt
  revert h
  induction preds v with
  | nil => exact fun h => absurd h List.not_mem_nil
  | cons w ws ih =>
    intro h
    rw [List.map_cons, List.foldr_cons]
    rcases List.mem_cons.mp h with rfl | h
    · exact Nat.lt_of_lt_of_le (Nat.lt_succ_self _) (le_max_left _ _)
    · exact (ih h).trans_le (le_max_right _ _)

theorem readyAt_le {v : α} {k : ℕ} (h : ∀ u ∈ preds v, done.idxOf u < k) :
    readyAt preds done v ≤ k := by
  unfold readyAt
  revert h
  induction preds v with
  | nil => exact fun _ => Nat.zero_le _
  | cons w ws ih =>
    intro h
    rw [List.map_cons, List.foldr_cons]
    exact max_le (h w List.mem_cons_self) (ih fun u hu => h u (List.mem_cons_of_mem _ hu))

/-- Ready vertices by the moment they become ready, the others after them. -/
def rank (preds : α → List α) (done : List α) (order : α → ℕ) (v : α) : ℕ :=
  if ∀ u ∈ preds v, u ∈ done then readyAt preds done v else done.length + 1 + order v

theorem readyAt_le_length {v : α} (h : ∀ u ∈ preds v, u ∈ done) :
    readyAt preds done v ≤ done.length :=
  readyAt_le fun u hu => List.idxOf_lt_length_of_mem (h u hu)

/-- Vertices with the same last predecessor become ready together. -/
theorem rank_eq_of_last {order : α → ℕ} {c v : α} (hc : c ∈ preds v)
    (last : ∀ u ∈ preds v, u ∈ done ∧ done.idxOf u ≤ done.idxOf c) :
    rank preds done order v = done.idxOf c + 1 := by
  unfold rank
  rw [if_pos fun u hu => (last u hu).1]
  refine le_antisymm (readyAt_le fun u hu => ?_) (lt_readyAt hc)
  exact Nat.lt_succ_of_le (last u hu).2

/-- The rank goes up along every edge. -/
theorem Inv.rank_lt (h : Inv V preds done pending waiting times) {order : α → ℕ} {u v : α}
    (edge : u ∈ preds v) (up : order u < order v) :
    rank preds done order u < rank preds done order v := by
  unfold rank
  by_cases hv : ∀ w ∈ preds v, w ∈ done
  · have hu := hv u edge
    have before := h.sorted u hu
    rw [if_pos hv, if_pos fun w hw => (before w hw).1]
    exact (readyAt_le fun w hw => (before w hw).2).trans_lt (lt_readyAt edge)
  · rw [if_neg hv]
    by_cases hu : ∀ w ∈ preds u, w ∈ done
    · rw [if_pos hu]
      have := readyAt_le_length hu
      omega
    · rw [if_neg hu]
      omega

end ReadyFrontier
