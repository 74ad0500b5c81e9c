/-
  Gsim/GraphContraction.lean
  ==========================
  **Contracting a graph**, over an arbitrary type.

  A map `root` sends every vertex to the representative of its group; there is a
  `QuotientEdge` between two groups when there is an edge between two of their
  members.  Merging the groups of `a` and `b` redirects one
  representative to the other.  If the quotient was acyclic, it stays so as long
  as `a` and `b` do not reach each other other than by edges that become
  internal (`acyclic_merge`).
-/
import Mathlib.Logic.Relation
import Mathlib.Data.Fintype.Basic
import Mathlib.Order.WellFounded
import Mathlib.Tactic

namespace GraphContraction

open Relation

variable {α : Type*}

def Acyclic (R : α → α → Prop) : Prop := ∀ x, ¬ TransGen R x x

theorem Acyclic.mono {R S : α → α → Prop} (acyclic : Acyclic S) (sub : ∀ x y, R x y → S x y) :
    Acyclic R := by
  intro x cycle
  exact acyclic x (TransGen.mono sub _ _ cycle)

/-- Edges between different groups. -/
def QuotientEdge (root : α → α) (E : α → α → Prop) (r s : α) : Prop :=
  ∃ u v, E u v ∧ root u = r ∧ root v = s ∧ r ≠ s

/-- The relation without one edge. -/
def Without (R : α → α → Prop) (a b x y : α) : Prop := R x y ∧ ¬ (x = a ∧ y = b)

theorem Without.of_ne {R : α → α → Prop} {a b x y : α} (h : R x y) (ne : x ≠ a) :
    Without R a b x y :=
  ⟨h, fun eq => ne eq.1⟩

/-! ### Merging two vertices -/

/-- Equal once `a` and `b` are one vertex. -/
def Same (a b u v : α) : Prop := u = v ∨ ((u = a ∨ u = b) ∧ (v = a ∨ v = b))

namespace Same

variable {a b u v w : α}

theorem symm (h : Same a b u v) : Same a b v u := by
  rcases h with rfl | ⟨hu, hv⟩
  · exact .inl rfl
  · exact .inr ⟨hv, hu⟩

theorem trans (h : Same a b u v) (h' : Same a b v w) : Same a b u w := by
  rcases h with rfl | ⟨hu, hv⟩
  · exact h'
  · rcases h' with rfl | ⟨-, hw⟩
    · exact .inr ⟨hu, hv⟩
    · exact .inr ⟨hu, hw⟩

end Same

section Merge

variable {R R' : α → α → Prop} {a b : α}

/-- Neither of the two vertices reaches itself or the other. -/
def Apart (R : α → α → Prop) (a b : α) : Prop :=
  ∀ p q, (p = a ∨ p = b) → (q = a ∨ q = b) → ¬ TransGen R p q

/-- A path after the merge is a path before it, or two of them that meet in the merged vertex. -/
theorem lift_path (edges : ∀ x y, R' x y → ∃ u v, R u v ∧ Same a b u x ∧ Same a b v y)
    (apart : Apart R a b) {x y : α} (path : TransGen R' x y) :
    ∃ u v, Same a b u x ∧ Same a b v y ∧
      (TransGen R u v ∨
        ∃ p q, (p = a ∨ p = b) ∧ (q = a ∨ q = b) ∧ TransGen R u p ∧ TransGen R q v) := by
  induction path with
  | single edge =>
    obtain ⟨u, v, huv, hu, hv⟩ := edges _ _ edge
    exact ⟨u, v, hu, hv, .inl (TransGen.single huv)⟩
  | tail _ edge ih =>
    obtain ⟨u, v, hu, hv, lifted⟩ := ih
    obtain ⟨v', w, hvw, hv', hw⟩ := edges _ _ edge
    rcases hv.trans hv'.symm with rfl | ⟨onV, onV'⟩
    · refine ⟨u, w, hu, hw, ?_⟩
      rcases lifted with direct | ⟨p, q, onP, onQ, left, right⟩
      · exact .inl (direct.tail hvw)
      · exact .inr ⟨p, q, onP, onQ, left, right.tail hvw⟩
    · rcases lifted with direct | ⟨p, q, onP, onQ, left, right⟩
      · exact ⟨u, w, hu, hw, .inr ⟨v, v', onV, onV', direct, TransGen.single hvw⟩⟩
      · exact absurd right (apart q v onQ onV)

theorem acyclic_merge (edges : ∀ x y, R' x y → ∃ u v, R u v ∧ Same a b u x ∧ Same a b v y)
    (acyclic : Acyclic R) (apart : Apart R a b) : Acyclic R' := by
  intro x cycle
  obtain ⟨u, v, hu, hv, lifted⟩ := lift_path edges apart cycle
  rcases hu.trans hv.symm with rfl | ⟨onU, onV⟩
  · rcases lifted with direct | ⟨p, q, onP, onQ, left, right⟩
    · exact acyclic _ direct
    · exact apart q p onQ onP (right.trans left)
  · rcases lifted with direct | ⟨p, q, onP, onQ, left, right⟩
    · exact apart u v onU onV direct
    · exact apart u p onU onP left

end Merge

/-! ### Redirecting one representative to another -/

section Redirect

variable [DecidableEq α]

def redirect (root : α → α) (a b : α) : α → α := fun x => if root x = b then a else root x

theorem redirect_idem {root : α → α} (idem : ∀ x, root (root x) = root x) {a b : α}
    (rootA : root a = a) (ne : a ≠ b) (x : α) :
    redirect root a b (redirect root a b x) = redirect root a b x := by
  unfold redirect
  by_cases h : root x = b
  · simp [h, rootA, ne]
  · simp [h, idem]

theorem same_redirect (root : α → α) (a b x : α) : Same a b (root x) (redirect root a b x) := by
  unfold redirect
  by_cases h : root x = b
  · rw [if_pos h, h]
    exact .inr ⟨.inr rfl, .inl rfl⟩
  · rw [if_neg h]
    exact .inl rfl

/-- An edge between groups after the merge was one before it, and not one between `a` and `b`. -/
theorem quotientEdge_redirect {root : α → α} {E : α → α → Prop} {a b x y : α}
    (h : QuotientEdge (redirect root a b) E x y) :
    ∃ u v, Without (QuotientEdge root E) a b u v ∧ Same a b u x ∧ Same a b v y := by
  obtain ⟨u, v, edge, rfl, rfl, ne⟩ := h
  refine ⟨root u, root v, ⟨⟨u, v, edge, rfl, rfl, ?_⟩, ?_⟩, same_redirect .., same_redirect ..⟩
  · intro eq
    exact ne (by simp [redirect, eq])
  · rintro ⟨hu, hv⟩
    refine ne ?_
    unfold redirect
    by_cases hb : a = b <;> simp [hu, hv, hb]

/-- Merging two groups that do not reach each other otherwise keeps the quotient acyclic. -/
theorem acyclic_redirect {root : α → α} {E : α → α → Prop} {a b : α}
    (acyclic : Acyclic (QuotientEdge root E))
    (forth : ¬ TransGen (Without (QuotientEdge root E) a b) a b)
    (back : ¬ TransGen (Without (QuotientEdge root E) a b) b a) :
    Acyclic (QuotientEdge (redirect root a b) E) := by
  have sub : Acyclic (Without (QuotientEdge root E) a b) := acyclic.mono fun _ _ h => h.1
  refine acyclic_merge (fun x y h => quotientEdge_redirect h) sub ?_
  rintro p q (rfl | rfl) (rfl | rfl)
  · exact sub _
  · exact forth
  · exact back
  · exact sub _

end Redirect

/-! ### Acyclic relations on an initial segment -/

/-- In an acyclic finite graph every non-empty set has a member without predecessor in it. -/
theorem exists_source {n : ℕ} {R : ℕ → ℕ → Prop} (acyclic : Acyclic R) {S : ℕ → Prop}
    (bounded : ∀ x, S x → x < n) {x : ℕ} (hx : S x) :
    ∃ y, S y ∧ ∀ z, S z → ¬ R z y := by
  have trans : IsTrans (Fin n) fun i j => TransGen R i j := ⟨fun _ _ _ h h' => h.trans h'⟩
  have irrefl : Std.Irrefl fun i j : Fin n => TransGen R i j := ⟨fun i => acyclic i⟩
  have wf := Finite.wellFounded_of_trans_of_irrefl fun i j : Fin n => TransGen R i j
  obtain ⟨y, hy, least⟩ := wf.has_min {i : Fin n | S i} ⟨⟨x, bounded x hx⟩, hx⟩
  refine ⟨y, hy, ?_⟩
  intro z hz edge
  exact least ⟨z, bounded z hz⟩ hz (TransGen.single edge)

end GraphContraction
