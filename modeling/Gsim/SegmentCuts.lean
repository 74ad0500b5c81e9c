/-
  Gsim/SegmentCuts.lean
  =====================
  **Cutting a line into segments at least cost.**

  A division of the positions from `a` to `n` is the list of the ends of its
  segments; it costs the sum over the segments.  The dynamic program keeps, for every
  position, the least cost found so far and the start of the last segment that gave
  it.  Once every allowed segment has been relaxed, each into its end before any out
  of it, the chain of starts from `n` is a division of least cost (`Relaxed.optimal`).

  For edges that go forward, the edges that leave a segment are counted by one sweep
  (`leaving_succ`), and summed over a division they are the edges that it cuts
  (`cost_leaving`).
-/
import Mathlib.Algebra.Order.Monoid.WithTop
import Mathlib.Data.Finset.Prod
import Mathlib.Tactic

namespace SegmentCuts

variable {M : Type*}

/-! ## Divisions -/

section Divisions

/-- The segments that end at the listed positions lead from `a` to `n` and are all allowed. -/
def Divides (ok : ℕ → ℕ → Prop) : ℕ → List ℕ → ℕ → Prop
  | a, [], n => a = n
  | a, c :: cuts, n => a ≤ c ∧ ok a c ∧ Divides ok c cuts n

variable {ok : ℕ → ℕ → Prop}

theorem Divides.le {a n : ℕ} {cuts : List ℕ} (h : Divides ok a cuts n) : a ≤ n ∧ ∀ c ∈ cuts, a ≤ c ∧ c ≤ n := by
  induction cuts generalizing a with
  | nil => exact ⟨le_of_eq h, by simp⟩
  | cons c cuts ih =>
    obtain ⟨le, -, rest⟩ := h
    obtain ⟨le', inside⟩ := ih rest
    refine ⟨le.trans le', fun d hd => ?_⟩
    rcases List.mem_cons.mp hd with rfl | hd
    · exact ⟨le, le'⟩
    · exact ⟨le.trans (inside d hd).1, (inside d hd).2⟩

theorem Divides.append {a m n : ℕ} {cuts cuts' : List ℕ} (h : Divides ok a cuts m)
    (h' : Divides ok m cuts' n) : Divides ok a (cuts ++ cuts') n := by
  induction cuts generalizing a with
  | nil =>
    obtain rfl : a = m := h
    exact h'
  | cons c cuts ih =>
    obtain ⟨le, allowed, rest⟩ := h
    exact ⟨le, allowed, ih rest⟩

/-- An ascending list that ends at `n` is a division. -/
theorem divides_of_sorted {a n : ℕ} {cuts : List ℕ} (sorted : cuts.Pairwise (· < ·)) (last : n ∈ cuts)
    (inside : ∀ c ∈ cuts, a ≤ c ∧ c ≤ n) : Divides (fun _ _ => True) a cuts n := by
  induction cuts generalizing a with
  | nil => exact absurd last List.not_mem_nil
  | cons c cuts ih =>
    obtain ⟨above, sorted'⟩ := List.pairwise_cons.mp sorted
    refine ⟨(inside c List.mem_cons_self).1, trivial, ?_⟩
    rcases List.mem_cons.mp last with rfl | last
    · cases cuts with
      | nil => rfl
      | cons d cuts =>
        have := above d List.mem_cons_self
        have := (inside d (List.mem_cons_of_mem _ List.mem_cons_self)).2
        omega
    · exact ih sorted' last fun d hd => ⟨(above d hd).le, (inside d (List.mem_cons_of_mem _ hd)).2⟩

end Divisions

section Costs

variable [AddCommMonoid M]

def cost (w : ℕ → ℕ → M) : ℕ → List ℕ → M
  | _, [] => 0
  | a, c :: cuts => w a c + cost w c cuts

variable {ok : ℕ → ℕ → Prop} {w : ℕ → ℕ → M}

theorem cost_append {a m : ℕ} {cuts cuts' : List ℕ} (h : Divides ok a cuts m) :
    cost w a (cuts ++ cuts') = cost w a cuts + cost w m cuts' := by
  induction cuts generalizing a with
  | nil =>
    obtain rfl : a = m := h
    rw [List.nil_append, cost, zero_add]
  | cons c cuts ih =>
    obtain ⟨-, -, rest⟩ := h
    rw [List.cons_append, cost, cost, ih rest, add_assoc]

theorem cost_map {N : Type*} [AddCommMonoid N] (f : M →+ N) (w : ℕ → ℕ → M) (a : ℕ) (cuts : List ℕ) :
    cost (fun i j => f (w i j)) a cuts = f (cost w a cuts) := by
  induction cuts generalizing a with
  | nil => rw [cost, cost, map_zero]
  | cons c cuts ih => rw [cost, cost, ih, map_add]

end Costs

/-! ## The dynamic program -/

section Program

variable [AddCommMonoid M] [LinearOrder M]

/-- `T` holds the least costs found so far, `b` the start of the last segment. -/
structure Table (M : Type*) where
  T : ℕ → WithTop M
  b : ℕ → ℤ

def Table.init : Table M where
  T := fun j => if j = 0 then 0 else ⊤
  b := fun _ => -1

/-- The segment from `i` to `j` has the cost `newT` at its end. -/
def Table.relax (t : Table M) (i j : ℕ) (newT : WithTop M) : Table M :=
  if t.T j > newT then { T := Function.update t.T j newT, b := Function.update t.b j i } else t

/-- The starts of the last segments, from `idx` down to the first one. -/
def backtrace (b : ℕ → ℤ) : ℕ → ℕ → List ℕ
  | 0, _ => []
  | fuel + 1, idx =>
      if b idx > 0 then (b idx).toNat :: backtrace b fuel (b idx).toNat else []

/-- What the table says when the segments in `done` have been relaxed. -/
structure Relaxed (w : ℕ → ℕ → M) (done : ℕ → ℕ → Prop) (t : Table M) : Prop where
  zero : t.T 0 = 0
  le : ∀ i j, done i j → t.T j ≤ t.T i + w i j
  attained : ∀ j, 0 < j → t.T j ≠ ⊤ → ∃ i, i < j ∧ done i j ∧ t.b j = i ∧ t.T j = t.T i + w i j

variable {w : ℕ → ℕ → M} {done : ℕ → ℕ → Prop} {t : Table M}

theorem relaxed_init : Relaxed w (fun _ _ => False) (Table.init : Table M) where
  zero := rfl
  le := fun _ _ h => h.elim
  attained := fun _ hj finite => absurd (if_neg (Nat.ne_of_gt hj)) finite

theorem Relaxed.congr (h : Relaxed w done t) {done' : ℕ → ℕ → Prop} (same : ∀ i j, done i j ↔ done' i j) :
    Relaxed w done' t := by
  have eq : done = done' := by
    funext i j
    exact propext (same i j)
  exact eq ▸ h

/-- One more segment, into a position that none has left yet. -/
theorem Relaxed.relax (h : Relaxed w done t) {i j : ℕ} (lt : i < j) (unused : ∀ k, ¬ done j k) :
    Relaxed w (fun a c => done a c ∨ a = i ∧ c = j) (t.relax i j (t.T i + w i j)) := by
  have source : i ≠ j := Nat.ne_of_lt lt
  rw [Table.relax]
  split
  · rename_i less
    refine ⟨?_, ?_, ?_⟩ <;> dsimp only
    · rw [Function.update_of_ne (by omega)]
      exact h.zero
    · rintro a c (old | ⟨rfl, rfl⟩)
      · have ne : a ≠ j := by
          rintro rfl
          exact unused c old
        rw [Function.update_of_ne ne]
        by_cases hc : c = j
        · subst hc
          rw [Function.update_self]
          exact (le_of_lt less).trans (h.le a c old)
        · rw [Function.update_of_ne hc]
          exact h.le a c old
      · rw [Function.update_self, Function.update_of_ne source]
    · intro k hk finite
      by_cases same : k = j
      · subst same
        refine ⟨i, lt, .inr ⟨rfl, rfl⟩, Function.update_self _ _ _, ?_⟩
        rw [Function.update_self, Function.update_of_ne source]
      · rw [Function.update_of_ne same] at finite
        obtain ⟨a, ha, old, start, eq⟩ := h.attained k hk finite
        have ne : a ≠ j := by
          rintro rfl
          exact unused k old
        refine ⟨a, ha, .inl old, (Function.update_of_ne same _ _).trans start, ?_⟩
        rw [Function.update_of_ne same, Function.update_of_ne ne, eq]
  · rename_i notLess
    refine ⟨h.zero, ?_, ?_⟩
    · rintro a c (old | ⟨rfl, rfl⟩)
      · exact h.le a c old
      · exact not_lt.mp notLess
    · intro k hk finite
      obtain ⟨a, ha, old, rest⟩ := h.attained k hk finite
      exact ⟨a, ha, .inl old, rest⟩

variable [IsOrderedAddMonoid M] {ok : ℕ → ℕ → Prop} {n : ℕ}

/-- No division is cheaper than what the table says. -/
theorem Relaxed.le_cost (h : Relaxed w done t) (empty : ∀ a, 0 ≤ w a a)
    (all : ∀ a c, a < c → c ≤ n → ok a c → done a c) {a : ℕ} {cuts : List ℕ} (div : Divides ok a cuts n) :
    t.T n ≤ t.T a + cost w a cuts := by
  induction cuts generalizing a with
  | nil =>
    obtain rfl : a = n := div
    simp [cost]
  | cons c cuts ih =>
    obtain ⟨le, allowed, rest⟩ := div
    have step : t.T c ≤ t.T a + w a c := by
      rcases Nat.eq_or_lt_of_le le with rfl | lt
      · exact le_add_of_nonneg_right (WithTop.coe_nonneg.mpr (empty a))
      · exact h.le a c (all a c lt (rest.le).1 allowed)
    calc t.T n ≤ t.T c + cost w c cuts := ih rest
      _ ≤ t.T a + w a c + cost w c cuts := by gcongr
      _ = t.T a + cost w a (c :: cuts) := by rw [cost, WithTop.coe_add, add_assoc]

omit [IsOrderedAddMonoid M] in
/-- The chain of starts from `j` is a division up to `j` at the cost in the table. -/
theorem Relaxed.backtrace (h : Relaxed w done t) (finite : ∀ j ≤ n, t.T j ≠ ⊤)
    (allowed : ∀ a c, done a c → ok a c) {j fuel : ℕ} (pos : 0 < j) (hj : j ≤ n) (enough : j ≤ fuel) :
    Divides ok 0 ((SegmentCuts.backtrace t.b fuel j).reverse ++ [j]) j ∧
      t.T j = cost w 0 ((SegmentCuts.backtrace t.b fuel j).reverse ++ [j]) := by
  induction fuel generalizing j with
  | zero => omega
  | succ fuel ih =>
    obtain ⟨i, hi, mem, start, eq⟩ := h.attained j pos (finite j hj)
    rw [SegmentCuts.backtrace, start]
    split
    · rename_i more
      obtain ⟨div, value⟩ := ih (j := i) (by omega) (by omega) (by omega)
      rw [Int.toNat_natCast, List.reverse_cons]
      refine ⟨div.append ⟨hi.le, allowed i j mem, rfl⟩, ?_⟩
      rw [cost_append div, eq, value, WithTop.coe_add, cost, cost, add_zero]
    · obtain rfl : i = 0 := by omega
      rw [List.reverse_nil, List.nil_append]
      refine ⟨⟨hi.le, allowed 0 j mem, rfl⟩, ?_⟩
      rw [eq, h.zero, zero_add, cost, cost, add_zero]

omit [IsOrderedAddMonoid M] in
/-- The chain of starts descends. -/
theorem Relaxed.backtrace_descends (h : Relaxed w done t) (finite : ∀ j ≤ n, t.T j ≠ ⊤) (fuel : ℕ)
    {j : ℕ} (pos : 0 < j) (hj : j ≤ n) :
    (∀ c ∈ SegmentCuts.backtrace t.b fuel j, c < j) ∧ (SegmentCuts.backtrace t.b fuel j).Pairwise (· > ·) := by
  induction fuel generalizing j with
  | zero => exact ⟨by simp [SegmentCuts.backtrace], List.Pairwise.nil⟩
  | succ fuel ih =>
    obtain ⟨i, hi, -, start, -⟩ := h.attained j pos (finite j hj)
    rw [SegmentCuts.backtrace, start]
    split
    · obtain ⟨below, sorted⟩ := ih (j := i) (by omega) (by omega)
      rw [Int.toNat_natCast]
      refine ⟨List.forall_mem_cons.mpr ⟨hi, fun c hc => (below c hc).trans hi⟩, ?_⟩
      exact List.pairwise_cons.mpr ⟨below, sorted⟩
    · exact ⟨by simp, List.Pairwise.nil⟩

/-- The backtraced division is allowed and no other one costs less. -/
theorem Relaxed.optimal (h : Relaxed w done t) (empty : ∀ a, 0 ≤ w a a) (pos : 0 < n)
    (done_iff : ∀ a c, done a c ↔ a < c ∧ c ≤ n ∧ ok a c) (finite : ∀ j ≤ n, t.T j ≠ ⊤) :
    Divides ok 0 ((SegmentCuts.backtrace t.b n n).reverse ++ [n]) n ∧
      ∀ cuts, Divides ok 0 cuts n →
        cost w 0 ((SegmentCuts.backtrace t.b n n).reverse ++ [n]) ≤ cost w 0 cuts := by
  have allowed : ∀ a c, done a c → ok a c := fun a c d => ((done_iff a c).mp d).2.2
  obtain ⟨div, value⟩ := h.backtrace finite allowed pos le_rfl le_rfl
  refine ⟨div, fun cuts other => ?_⟩
  have least := h.le_cost empty (fun a c lt le allowed => (done_iff a c).mpr ⟨lt, le, allowed⟩) other
  rw [value, h.zero, zero_add] at least
  exact WithTop.coe_le_coe.mp least

end Program

/-! ## The edges that a division cuts -/

section Edges

open Finset

variable (E : ℕ → ℕ → Prop) [DecidableRel E] (n : ℕ)

/-- The number of edges out of the positions from `i` to `j` that end at `j` or later. -/
def leaving (i j : ℕ) : ℕ := #{e ∈ range n ×ˢ range n | (i ≤ e.1 ∧ e.1 < j) ∧ j ≤ e.2 ∧ E e.1 e.2}

/-- A cut lies between the two positions. -/
def Apart (cuts : List ℕ) (u v : ℕ) : Prop := ∃ c ∈ cuts, min u v < c ∧ c ≤ max u v

instance (cuts : List ℕ) (u v : ℕ) : Decidable (Apart cuts u v) :=
  inferInstanceAs (Decidable (∃ c ∈ cuts, _))

/-- The number of edges between different segments. -/
def cutEdges (cuts : List ℕ) : ℕ := #{e ∈ range n ×ˢ range n | E e.1 e.2 ∧ Apart cuts e.1 e.2}

variable {E n}

theorem leaving_self (i : ℕ) : leaving E n i i = 0 := by
  rw [leaving, card_eq_zero, filter_eq_empty_iff]
  rintro e - ⟨between, -⟩
  omega

/-- One more position: its own edges leave, and those that come from the segment no longer do. -/
theorem leaving_succ (forward : ∀ u v, E u v → u < v) {i j : ℕ} (le : i ≤ j) (lt : j < n) :
    leaving E n i (j + 1) + #{u ∈ range n | i ≤ u ∧ E u j} = leaving E n i j + #{v ∈ range n | E j v} := by
  have out : leaving E n i (j + 1) =
      #{e ∈ range n ×ˢ range n | (i ≤ e.1 ∧ e.1 < j) ∧ j < e.2 ∧ E e.1 e.2} + #{v ∈ range n | E j v} := by
    have own : #{v ∈ range n | E j v} = #(({v ∈ range n | E j v}).map ⟨fun v => (j, v), Prod.mk_right_injective j⟩) :=
      (card_map _).symm
    rw [leaving, own, ← card_union_of_disjoint]
    · congr 1
      ext ⟨u, v⟩
      simp only [mem_filter, mem_product, mem_range, mem_union, mem_map, Function.Embedding.coeFn_mk,
        Prod.mk.injEq]
      constructor
      · rintro ⟨⟨hu, hv⟩, between, after, edge⟩
        by_cases same : u = j
        · subst same
          exact .inr ⟨v, ⟨hv, edge⟩, rfl, rfl⟩
        · exact .inl ⟨⟨hu, hv⟩, by omega, after, edge⟩
      · rintro (⟨inside, between, after, edge⟩ | ⟨v', ⟨hv, edge⟩, rfl, rfl⟩)
        · exact ⟨inside, by omega, after, edge⟩
        · exact ⟨⟨lt, hv⟩, by omega, forward _ _ edge, edge⟩
    · rw [Finset.disjoint_left]
      rintro ⟨u, v⟩ mem mem'
      simp only [mem_filter, mem_map, Function.Embedding.coeFn_mk, Prod.mk.injEq] at mem mem'
      omega
  have into : leaving E n i j =
      #{e ∈ range n ×ˢ range n | (i ≤ e.1 ∧ e.1 < j) ∧ j < e.2 ∧ E e.1 e.2} +
        #{u ∈ range n | i ≤ u ∧ E u j} := by
    have own : #{u ∈ range n | i ≤ u ∧ E u j} =
        #(({u ∈ range n | i ≤ u ∧ E u j}).map ⟨fun u => (u, j), Prod.mk_left_injective j⟩) :=
      (card_map _).symm
    rw [leaving, own, ← card_union_of_disjoint]
    · congr 1
      ext ⟨u, v⟩
      simp only [mem_filter, mem_product, mem_range, mem_union, mem_map, Function.Embedding.coeFn_mk,
        Prod.mk.injEq]
      constructor
      · rintro ⟨⟨hu, hv⟩, between, after, edge⟩
        by_cases same : v = j
        · subst same
          exact .inr ⟨u, ⟨hu, between.1, edge⟩, rfl, rfl⟩
        · exact .inl ⟨⟨hu, hv⟩, between, by omega, edge⟩
      · rintro (⟨inside, between, after, edge⟩ | ⟨u', ⟨hu, above, edge⟩, rfl, rfl⟩)
        · exact ⟨inside, between, after.le, edge⟩
        · exact ⟨⟨hu, lt⟩, ⟨above, forward _ _ edge⟩, le_rfl, edge⟩
    · rw [Finset.disjoint_left]
      rintro ⟨u, v⟩ mem mem'
      simp only [mem_filter, mem_map, Function.Embedding.coeFn_mk, Prod.mk.injEq] at mem mem'
      omega
  omega

theorem apart_iff {cuts : List ℕ} {u v : ℕ} (lt : u < v) : Apart cuts u v ↔ ∃ c ∈ cuts, u < c ∧ c ≤ v := by
  rw [Apart, min_eq_left lt.le, max_eq_right lt.le]

/-- Summed over the segments, the edges that leave are the edges that are cut. -/
theorem cost_leaving (forward : ∀ u v, E u v → u < v) {ok : ℕ → ℕ → Prop} {cuts : List ℕ}
    (div : Divides ok 0 cuts n) : cost (leaving E n) 0 cuts = cutEdges E n cuts := by
  suffices general : ∀ (cuts : List ℕ) (a : ℕ), Divides ok a cuts n → cost (leaving E n) a cuts =
      #{e ∈ range n ×ˢ range n | a ≤ e.1 ∧ E e.1 e.2 ∧ Apart cuts e.1 e.2} by
    simpa [cutEdges] using general cuts 0 div
  intro cuts
  induction cuts with
  | nil =>
    intro a _
    simp [cost, Apart]
  | cons c cuts ih =>
    rintro a ⟨le, -, rest⟩
    have later : ∀ d ∈ cuts, c ≤ d := fun d hd => (rest.le.2 d hd).1
    rw [cost, ih c rest, leaving, ← card_union_of_disjoint]
    · congr 1
      ext ⟨u, v⟩
      simp only [mem_filter, mem_product, mem_union]
      constructor
      · rintro (⟨inside, between, after, edge⟩ | ⟨inside, above, edge, apart⟩)
        · exact ⟨inside, between.1, edge, (apart_iff (forward u v edge)).mpr ⟨c, List.mem_cons_self, between.2, after⟩⟩
        · obtain ⟨d, hd, cut⟩ := (apart_iff (forward u v edge)).mp apart
          exact ⟨inside, le.trans above, edge, (apart_iff (forward u v edge)).mpr ⟨d, List.mem_cons_of_mem _ hd, cut⟩⟩
      · rintro ⟨inside, above, edge, apart⟩
        obtain ⟨d, hd, cut⟩ := (apart_iff (forward u v edge)).mp apart
        by_cases first : u < c
        · refine .inl ⟨inside, ⟨above, first⟩, ?_, edge⟩
          rcases List.mem_cons.mp hd with rfl | hd
          · exact cut.2
          · exact (later d hd).trans cut.2
        · have hd : d ∈ cuts := by
            rcases List.mem_cons.mp hd with rfl | hd
            · exact absurd cut.1 first
            · exact hd
          exact .inr ⟨inside, not_lt.mp first, edge, (apart_iff (forward u v edge)).mpr ⟨d, hd, cut⟩⟩
    · rw [Finset.disjoint_left]
      rintro ⟨u, v⟩ mem mem'
      simp only [mem_filter] at mem mem'
      omega

variable (E n) in
/-- The edges out of the positions below `j`. -/
def edgesBelow (j : ℕ) : ℕ := #{e ∈ range n ×ˢ range n | e.1 < j ∧ E e.1 e.2}

theorem edgesBelow_mono {i j : ℕ} (le : i ≤ j) : edgesBelow E n i ≤ edgesBelow E n j := by
  apply card_le_card
  apply monotone_filter_right
  rintro e - ⟨below, edge⟩
  exact ⟨below.trans_le le, edge⟩

/-- The edges that leave a segment begin in it. -/
theorem edgesBelow_add_leaving {i j : ℕ} (le : i ≤ j) :
    edgesBelow E n i + leaving E n i j ≤ edgesBelow E n j := by
  rw [edgesBelow, leaving, ← card_union_of_disjoint]
  · apply card_le_card
    intro e mem
    simp only [mem_union, mem_filter] at mem ⊢
    rcases mem with ⟨inside, below, edge⟩ | ⟨inside, ⟨-, below⟩, -, edge⟩
    · exact ⟨inside, below.trans_le le, edge⟩
    · exact ⟨inside, below, edge⟩
  · rw [Finset.disjoint_left]
    intro e mem mem'
    simp only [mem_filter] at mem mem'
    exact absurd mem.2.1 (not_lt.mpr mem'.2.1.1)

theorem edgesBelow_succ {j : ℕ} (lt : j < n) :
    edgesBelow E n (j + 1) = edgesBelow E n j + #{v ∈ range n | E j v} := by
  have own : #{v ∈ range n | E j v} =
      #(({v ∈ range n | E j v}).map ⟨fun v => (j, v), Prod.mk_right_injective j⟩) := (card_map _).symm
  rw [edgesBelow, edgesBelow, own, ← card_union_of_disjoint]
  · congr 1
    ext ⟨u, v⟩
    simp only [mem_filter, mem_product, mem_range, mem_union, mem_map, Function.Embedding.coeFn_mk,
      Prod.mk.injEq]
    constructor
    · rintro ⟨inside, below, edge⟩
      rcases Nat.lt_succ_iff_lt_or_eq.mp below with below | rfl
      · exact .inl ⟨inside, below, edge⟩
      · exact .inr ⟨v, ⟨inside.2, edge⟩, rfl, rfl⟩
    · rintro (⟨inside, below, edge⟩ | ⟨v', ⟨hv, edge⟩, rfl, rfl⟩)
      · exact ⟨inside, below.trans (Nat.lt_succ_self j), edge⟩
      · exact ⟨⟨lt, hv⟩, Nat.lt_succ_self _, edge⟩
  · rw [Finset.disjoint_left]
    rintro ⟨u, v⟩ mem mem'
    simp only [mem_filter, mem_map, Function.Embedding.coeFn_mk, Prod.mk.injEq] at mem mem'
    obtain ⟨v', -, rfl, -⟩ := mem'
    exact absurd mem.2.1 (lt_irrefl _)

/-- So an entry of the table is no more than the edges out of the positions before it. -/
theorem Relaxed.le_edgesBelow {done : ℕ → ℕ → Prop} {t : Table ℤ}
    (h : Relaxed (fun i j => (leaving E n i j : ℤ)) done t) {j : ℕ} (finite : t.T j ≠ ⊤) :
    t.T j ≤ ((edgesBelow E n j : ℤ) : WithTop ℤ) := by
  induction j using Nat.strong_induction_on with
  | _ j ih =>
    rcases Nat.eq_zero_or_pos j with rfl | pos
    · rw [h.zero]
      exact WithTop.coe_le_coe.mpr (Int.natCast_nonneg _)
    · obtain ⟨i, lt, -, -, eq⟩ := h.attained j pos finite
      rw [eq] at finite ⊢
      have below := ih i lt (WithTop.add_ne_top.mp finite).1
      have sum := edgesBelow_add_leaving (E := E) (n := n) lt.le
      calc t.T i + ((leaving E n i j : ℤ) : WithTop ℤ)
          ≤ ((edgesBelow E n i : ℤ) : WithTop ℤ) + ((leaving E n i j : ℤ) : WithTop ℤ) := by gcongr
        _ = ((edgesBelow E n i + leaving E n i j : ℤ) : WithTop ℤ) := (WithTop.coe_add _ _).symm
        _ ≤ ((edgesBelow E n j : ℤ) : WithTop ℤ) := WithTop.coe_le_coe.mpr (by exact_mod_cast sum)

end Edges

end SegmentCuts
