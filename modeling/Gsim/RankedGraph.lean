/-
  Gsim/RankedGraph.lean
  =====================
  **Relations that climb a rank**, over an arbitrary type.

  A rank `r : α → ℕ` that every edge of a relation strictly increases is the
  usual certificate of acyclicity.  Two facts about such relations are used
  throughout the development:

    * a path climbs the rank, so it cannot return to its start
      (`rank_lt_of_transGen`);
    * an edge may be dropped when it is short-cut by a path through a third
      vertex, even if the edges of that path are dropped in their turn
      (`transGen_of_shortcut`): the span of the dropped edge is what decreases.
-/
import Mathlib.Logic.Relation
import Mathlib.Order.Nat

namespace RankedGraph

open Relation

variable {α : Type*} {R : α → α → Prop} {rank : α → ℕ}

/-! ### Paths climb the rank -/

theorem rank_lt_of_transGen (hR : ∀ a b, R a b → rank a < rank b) {a b : α}
    (h : TransGen R a b) : rank a < rank b := by
  induction h with
  | single hab => exact hR _ _ hab
  | tail _ hbc ih => exact lt_trans ih (hR _ _ hbc)

/-- A property of single edges that is closed under composition holds of paths. -/
theorem transGen_of_edges {S : α → α → Prop} {a b : α} (h : TransGen R a b)
    (hedge : ∀ x y, R x y → TransGen S x y) : TransGen S a b := by
  induction h with
  | single hab => exact hedge _ _ hab
  | tail _ hbc ih => exact ih.trans (hedge _ _ hbc)

/-- On a path, every edge lies between the ranks of the end points. -/
theorem transGen_bounded (hR : ∀ a b, R a b → rank a < rank b) {a b : α}
    (h : TransGen R a b) :
    TransGen (fun x y => R x y ∧ rank a ≤ rank x ∧ rank y ≤ rank b) a b := by
  induction h with
  | single hab => exact TransGen.single ⟨hab, le_refl _, le_refl _⟩
  | @tail c d hac hcd ih =>
    have hlt : rank c < rank d := hR _ _ hcd
    refine TransGen.tail (TransGen.mono ?_ _ _ ih) ⟨hcd, (rank_lt_of_transGen hR hac).le, le_refl _⟩
    intro x y hxy
    exact ⟨hxy.1, hxy.2.1, le_trans hxy.2.2 hlt.le⟩

/-! ### Dropping short-cut edges -/

/-- `kept` and `fixed` together reach everything that `full` and `fixed` reach,
    provided each edge of `full` is either kept or replaced by an edge and a
    path of the *original* relation.  The replacement may itself consist of
    dropped edges: they span less. -/
theorem transGen_of_shortcut {full kept fixed : α → α → Prop}
    (hrank : ∀ a b, full a b ∨ fixed a b → rank a < rank b)
    (hdrop : ∀ a b, full a b → kept a b ∨
      ∃ c, (full a c ∨ fixed a c) ∧ TransGen (fun x y => full x y ∨ fixed x y) c b)
    {a b : α} (h : TransGen (fun x y => full x y ∨ fixed x y) a b) :
    TransGen (fun x y => kept x y ∨ fixed x y) a b := by
  have hedge : ∀ n x y, rank y - rank x ≤ n → (full x y ∨ fixed x y) →
      TransGen (fun x y => kept x y ∨ fixed x y) x y := by
    intro n
    induction n with
    | zero =>
      intro x y hn hxy
      have hlt := hrank x y hxy
      omega
    | succ n ih =>
      intro x y hn hxy
      rcases hxy with hfull | hfixed
      · rcases hdrop x y hfull with hkept | ⟨c, hxc, hcy⟩
        · exact TransGen.single (Or.inl hkept)
        · have hxc' := hrank x c hxc
          have hcy' := rank_lt_of_transGen hrank hcy
          -- both halves of the detour are strictly shorter than the edge
          refine (ih x c (by omega) hxc).trans ?_
          refine transGen_of_edges (transGen_bounded hrank hcy) ?_
          intro u v huv
          exact ih u v (by omega) huv.1
      · exact TransGen.single (Or.inr hfixed)
  exact transGen_of_edges h fun x y hxy => hedge _ x y (le_refl _) hxy

/-- Reachability is unchanged by dropping short-cut edges. -/
theorem transGen_shortcut_iff {full kept fixed : α → α → Prop}
    (hrank : ∀ a b, full a b ∨ fixed a b → rank a < rank b)
    (hsub : ∀ a b, kept a b → full a b)
    (hdrop : ∀ a b, full a b → kept a b ∨
      ∃ c, (full a c ∨ fixed a c) ∧ TransGen (fun x y => full x y ∨ fixed x y) c b)
    (a b : α) :
    TransGen (fun x y => kept x y ∨ fixed x y) a b ↔
      TransGen (fun x y => full x y ∨ fixed x y) a b := by
  constructor
  · intro h
    exact TransGen.mono (fun x y hxy => Or.imp (hsub x y) id hxy) _ _ h
  · exact transGen_of_shortcut hrank hdrop

end RankedGraph
