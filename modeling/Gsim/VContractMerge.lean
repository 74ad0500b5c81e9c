/-
  Gsim/VContractMerge.lean
  ========================
  **What a merge keeps.**

  `gS` and `gP` are not the quotient graph: absorbed groups leave their old ids
  behind in the lists of their neighbours.  Two facts tie them to it:

    * `Fresh`: every quotient edge has an entry that is itself a root, on both
      sides (so nothing is lost when the stale ones are compacted away);
    * `soundS`, `soundP`: an entry of a live list, stale or not, stands for a
      quotient edge or for the group itself.

  The first makes a negative answer of the search trustworthy, the second makes
  an edge candidate a real edge.
-/
import Gsim.VContractSearch

namespace Gsim

open SortedContainers GraphContraction Relation

/-! ## Sorted vectors -/

theorem mem_relInsert {v : List ℕ} {x y : ℕ} : y ∈ relInsert v x ↔ y = x ∨ y ∈ v := by
  unfold relInsert
  split
  · rename_i mem
    constructor
    · exact .inr
    · rintro (rfl | h)
      · exact mem
      · exact h
  · simp

theorem relInsert_pairwise {v : List ℕ} (h : v.Pairwise (· < ·)) (x : ℕ) :
    (relInsert v x).Pairwise (· < ·) := by
  unfold relInsert
  split
  · exact h
  · rename_i absent
    have le : (v.orderedInsert (· ≤ ·) x).Pairwise (· ≤ ·) :=
      List.Pairwise.orderedInsert x v (h.imp fun hab => hab.le)
    have nodup : (v.orderedInsert (· ≤ ·) x).Nodup := by
      rw [(List.perm_orderedInsert _ x v).nodup_iff]
      exact List.nodup_cons.mpr ⟨absent, h.imp fun hab => hab.ne⟩
    exact le.imp₂ (fun _ _ hab hne => lt_of_le_of_ne hab hne) nodup

theorem relErase_pairwise {v : List ℕ} (h : v.Pairwise (· < ·)) (x : ℕ) :
    (relErase v x).Pairwise (· < ·) :=
  h.sublist List.erase_sublist

theorem mem_relErase_of_ne {v : List ℕ} {x y : ℕ} (ne : y ≠ x) : y ∈ relErase v x ↔ y ∈ v :=
  List.mem_erase_of_ne ne

/-- Putting an erased entry back restores the vector. -/
theorem relInsert_relErase {v : List ℕ} (h : v.Pairwise (· < ·)) {x : ℕ} (mem : x ∈ v) :
    relInsert (relErase v x) x = v := by
  refine eq_of_pairwise_lt (relInsert_pairwise (relErase_pairwise h x) x) h ?_
  intro y
  rw [mem_relInsert]
  by_cases eq : y = x
  · simp [eq, mem]
  · rw [mem_relErase_of_ne eq]
    simp [eq]

theorem mem_relUnionInto {dst src : List ℕ} {y : ℕ} :
    y ∈ relUnionInto dst src ↔ y ∈ dst ∨ y ∈ src := by
  simp [relUnionInto]

theorem mem_relInsertEach {rel : ℕ → List ℕ} {xs : List ℕ} {a x y : ℕ} :
    y ∈ relInsertEach rel xs a x ↔ y ∈ rel x ∨ (x ∈ xs ∧ y = a) := by
  unfold relInsertEach
  induction xs generalizing rel with
  | nil => simp
  | cons z xs ih =>
    rw [List.foldl_cons, ih]
    by_cases eq : x = z
    · subst eq
      rw [Function.update_self, mem_relInsert]
      simp only [List.mem_cons, true_or, true_and]
      tauto
    · rw [Function.update_of_ne eq]
      simp [eq]

theorem relInsertEach_pairwise {rel : ℕ → List ℕ} (h : ∀ x, (rel x).Pairwise (· < ·))
    (xs : List ℕ) (a x : ℕ) : (relInsertEach rel xs a x).Pairwise (· < ·) := by
  unfold relInsertEach
  induction xs generalizing rel with
  | nil => exact h x
  | cons z xs ih =>
    rw [List.foldl_cons]
    apply ih
    intro w
    by_cases eq : w = z
    · rw [eq, Function.update_self]
      exact relInsert_pairwise (h z) a
    · rw [Function.update_of_ne eq]
      exact h w

/-! ## The lists after a merge -/

/-- How one of the two tables comes out of a merge: the survivor takes over the neighbours of
    `b`, and is entered at those that have `b` on the other side. -/
structure MergedRel (find : ℕ → ℕ) (a b : ℕ) (rel mirror rel' : ℕ → List ℕ) : Prop where
  self : ∀ y, y ≠ a → y ≠ b → (y ∈ rel' a ↔ y ∈ rel a ∨ ∃ s ∈ rel b, find s = y)
  other : ∀ r y, r ≠ a → (y ∈ rel' r ↔ y ∈ rel r ∨ (y = a ∧ ∃ p ∈ mirror b, find p = r))

theorem redirect_ne {find : ℕ → ℕ} {a b : ℕ} (ne : a ≠ b) (x : ℕ) : redirect find a b x ≠ b := by
  unfold redirect
  split
  · exact ne
  · assumption

theorem redirect_find {find : ℕ → ℕ} (idem : ∀ x, find (find x) = find x) {a b : ℕ} (x : ℕ) :
    redirect find a b (find x) = redirect find a b x := by
  unfold redirect
  rw [idem]

theorem redirect_fixed {find : ℕ → ℕ} {a b r : ℕ} (ha : find a = a) (ne : a ≠ b)
    (h : redirect find a b r = r) : find r = r := by
  unfold redirect at h
  split at h
  · rename_i eq
    subst h
    exact absurd (ha.symm.trans eq) ne
  · exact h

theorem mem_handed {find : ℕ → ℕ} {v : List ℕ} {a y : ℕ} :
    y ∈ sortUnique ((v.map find).filter (· ≠ a)) ↔ y ≠ a ∧ ∃ s ∈ v, find s = y := by
  simp only [mem_sortUnique, List.mem_filter, List.mem_map, decide_eq_true_eq]
  exact and_comm

/-- `b` is no root any more, so nothing is entered in its own list. -/
theorem mem_absorbed {find : ℕ → ℕ} {a b : ℕ} (ne : a ≠ b) (rel : ℕ → List ℕ) (v : List ℕ)
    {p : ℕ} :
    p ∈ relInsertEach rel (sortUnique ((v.map (redirect find a b)).filter (· ≠ a))) a b ↔
      p ∈ rel b := by
  rw [mem_relInsertEach, mem_handed]
  constructor
  · rintro (mem | ⟨⟨-, s, -, eq⟩, -⟩)
    · exact mem
    · exact absurd eq (redirect_ne ne s)
  · exact .inl

theorem Groups.merge_gS (g : Groups) {a b : ℕ} (ne : a ≠ b) :
    MergedRel (redirect g.find a b) a b g.gS g.gP (g.merge a b).gS := by
  constructor
  · intro y ya yb
    simp only [Groups.merge, Function.update_self]
    rw [mem_relErase_of_ne yb, mem_relErase_of_ne ya, mem_relInsertEach, Function.update_self,
      mem_relUnionInto, mem_handed]
    simp [ya]
  · intro r y ra
    simp only [Groups.merge]
    rw [Function.update_of_ne ra, mem_relInsertEach, Function.update_of_ne ra, mem_handed]
    simp only [mem_absorbed ne, ra, ne_eq, not_false_eq_true, true_and]
    tauto

theorem Groups.merge_gP (g : Groups) {a b : ℕ} (ne : a ≠ b) :
    MergedRel (redirect g.find a b) a b g.gP g.gS (g.merge a b).gP := by
  constructor
  · intro y ya yb
    simp only [Groups.merge, Function.update_self]
    rw [mem_relErase_of_ne yb, mem_relErase_of_ne ya, mem_relUnionInto]
    refine or_congr ?_ ?_
    · rw [mem_relInsertEach]
      simp [ya]
    · rw [mem_handed]
      simp only [mem_absorbed ne, ya, ne_eq, not_false_eq_true, true_and]
  · intro r y ra
    simp only [Groups.merge]
    rw [Function.update_of_ne ra, Function.update_of_ne ra, mem_relInsertEach, mem_handed]
    simp only [ra, ne_eq, not_false_eq_true, true_and]
    tauto

section Merged

variable {find : ℕ → ℕ} {a b : ℕ} {rel mirror rel' : ℕ → List ℕ} {R R' : ℕ → ℕ → Prop}

/-- Entries of live lists stand for edges, or for the group itself. -/
def Sound (find : ℕ → ℕ) (R : ℕ → ℕ → Prop) (rel : ℕ → List ℕ) : Prop :=
  ∀ r, find r = r → ∀ s ∈ rel r, find s = r ∨ R r (find s)

variable (idem : ∀ x, find (find x) = find x) (hb : find b = b) (ha : find a = a) (ne : a ≠ b)
include idem hb ha ne

theorem Sound.merged (merged : MergedRel (redirect find a b) a b rel mirror rel')
    (lift : ∀ r s, R r s → redirect find a b r ≠ redirect find a b s →
      R' (redirect find a b r) (redirect find a b s))
    (sound : Sound find R rel) (soundMirror : Sound find (fun s r => R r s) mirror) :
    Sound (redirect find a b) R' rel' := by
  have fixA : redirect find a b a = a := by
    unfold redirect
    rw [if_neg (by rw [ha]; exact ne), ha]
  have toA : redirect find a b b = a := if_pos hb
  have idem' := redirect_idem idem ha ne
  -- an old edge out of `r` is kept, or has become internal
  have keep : ∀ r s, R r (find s) →
      redirect find a b s = redirect find a b r ∨ R' (redirect find a b r) (redirect find a b s) := by
    intro r s edge
    by_cases eq : redirect find a b r = redirect find a b (find s)
    · exact .inl ((redirect_find idem s).symm.trans eq.symm)
    · right
      have := lift _ _ edge eq
      rwa [redirect_find idem] at this
  intro r fixR y hy
  have rootR := redirect_fixed ha ne fixR
  have old : y ∈ rel r → redirect find a b y = r ∨ R' r (redirect find a b y) := by
    intro mem
    rcases sound r rootR y mem with eq | edge
    · left
      rw [← redirect_find idem, eq, fixR]
    · have := keep r y edge
      rwa [fixR] at this
  by_cases ra : r = a
  · subst ra
    by_cases ya : y = r
    · exact .inl (ya ▸ fixA)
    by_cases yb : y = b
    · exact .inl (yb ▸ toA)
    rcases (merged.self y ya yb).mp hy with mem | ⟨s, mem, rfl⟩
    · exact old mem
    · rcases sound b hb s mem with eq | edge
      · refine absurd ?_ ya
        rw [← redirect_find idem, eq, toA]
      · have := keep b s edge
        rw [toA] at this
        rwa [idem']
  · rcases (merged.other r y ra).mp hy with mem | ⟨rfl, p, mem, rfl⟩
    · exact old mem
    · rcases soundMirror b hb p mem with eq | edge
      · refine absurd ?_ ra
        rw [← redirect_find idem, eq, toA]
      · right
        have := lift _ _ edge (by
          rw [redirect_find idem, toA]
          exact ra)
        rw [redirect_find idem, toA] at this
        rwa [fixA]

omit idem in
theorem fresh_merged (merged : MergedRel (redirect find a b) a b rel mirror rel')
    (fresh : ∀ r s, R r s → s ∈ rel r ∧ r ∈ mirror s) {r s : ℕ} (rs : r ≠ s)
    (edge : ∃ p q, R p q ∧ find p = p ∧ find q = q ∧
      redirect find a b p = r ∧ redirect find a b q = s) : s ∈ rel' r := by
  obtain ⟨p, q, edge, hp, hq, rfl, rfl⟩ := edge
  obtain ⟨qp, pq⟩ := fresh p q edge
  have toA : redirect find a b b = a := if_pos hb
  have stays : ∀ {x}, find x = x → x ≠ b → redirect find a b x = x := by
    intro x hx xb
    unfold redirect
    rw [hx, if_neg xb]
  by_cases pb : p = b
  · subst pb
    have q' : redirect find a p q ≠ p := redirect_ne ne q
    rw [toA] at rs ⊢
    exact (merged.self _ (Ne.symm rs) q').mpr (.inr ⟨q, qp, rfl⟩)
  · rw [stays hp pb] at rs ⊢
    by_cases qb : q = b
    · subst qb
      rw [toA] at rs ⊢
      exact (merged.other p a rs).mpr (.inr ⟨rfl, p, pq, stays hp pb⟩)
    · rw [stays hq qb] at rs ⊢
      by_cases pa : p = a
      · subst pa
        exact (merged.self q (Ne.symm rs) qb).mpr (.inl qp)
      · exact (merged.other p q pa).mpr (.inl qp)

end Merged

/-! ## The invariant of the groups -/

/-- Dependencies between groups. -/
def Groups.Dep (S : SccSchedule) (g : Groups) : ℕ → ℕ → Prop := QuotientEdge g.find S.Edge

/-- Each edge has live entries on both sides. -/
def Fresh (g : Groups) (E : ℕ → ℕ → Prop) : Prop := ∀ r s, E r s → s ∈ g.gS r ∧ r ∈ g.gP s

/-- Everything but freshness, which fails for one edge while that edge is being tried. -/
structure GroupsCore (S : SccSchedule) (cap : ℕ) (g : Groups) : Prop where
  idem : ∀ x, g.find (g.find x) = g.find x
  range : ∀ x < S.realN, g.find x < S.realN
  sortedS : ∀ x, (g.gS x).Pairwise (· < ·)
  sortedP : ∀ x, (g.gP x).Pairwise (· < ·)
  soundS : Sound g.find (g.Dep S) g.gS
  soundP : Sound g.find (fun s r => g.Dep S r s) g.gP
  acyclic : Acyclic (g.Dep S)
  w0 : ∀ x < S.realN, g.gw0 (g.find x) = (S.scc x).workerZeroOnly
  cost : ∀ r < S.realN, g.find r = r →
    g.gcost r = ∑ x ∈ (Finset.range S.realN).filter (fun x => g.find x = r), S.sc x
  capped : ∀ x < S.realN, ∀ y < S.realN, x ≠ y → g.find x = g.find y → g.gcost (g.find x) ≤ cap

structure GroupsInv (S : SccSchedule) (cap : ℕ) (g : Groups) : Prop extends
    GroupsCore S cap g where
  fresh : Fresh g (g.Dep S)

section GroupsInv

variable {S : SccSchedule} {cap : ℕ} {g : Groups}

theorem Groups.Dep.roots (idem : ∀ x, g.find (g.find x) = g.find x) {r s : ℕ} (h : g.Dep S r s) :
    g.find r = r ∧ g.find s = s := by
  obtain ⟨u, v, -, rfl, rfl, -⟩ := h
  exact ⟨idem u, idem v⟩

theorem covers_of_fresh (core : GroupsCore S cap g) {E : ℕ → ℕ → Prop} (sub : ∀ x y, E x y → g.Dep S x y)
    (fresh : Fresh g E) : Covers g E := by
  intro x y edge
  obtain ⟨-, rootY⟩ := (sub x y edge).roots core.idem
  obtain ⟨-, -, -, -, -, ne⟩ := sub x y edge
  exact ⟨ne.symm, y, (fresh x y edge).1, rootY⟩

/-- Forward SCC edges make the initial graph acyclic. -/
theorem SccSchedule.edge_lt (S : SccSchedule) {u v : ℕ} (h : S.Edge u v) : u < v ∧ v < S.realN := by
  have h := List.mem_filter.mp h
  simp only [decide_eq_true_eq] at h
  obtain ⟨mem, ne, lt⟩ := h
  exact ⟨lt_of_le_of_ne (S.forward u v mem lt) ne.symm, lt⟩

theorem GroupsInv.initial (S : SccSchedule) (cap : ℕ) : GroupsInv S cap (Groups.initial S) where
  idem _ := rfl
  range _ h := h
  sortedS _ := sortUnique_pairwise _
  sortedP _ := sortUnique_pairwise _
  soundS := by
    intro r _ s hs
    simp only [Groups.initial, mem_sortUnique] at hs
    right
    exact ⟨r, s, hs, rfl, rfl, (S.edge_lt hs).1.ne⟩
  soundP := by
    intro s _ r hr
    simp only [Groups.initial, mem_sortUnique, List.mem_flatMap, List.mem_map, List.mem_filter,
      decide_eq_true_eq] at hr
    obtain ⟨u, -, v, ⟨edge, rfl⟩, rfl⟩ := hr
    right
    exact ⟨u, v, edge, rfl, rfl, (S.edge_lt edge).1.ne⟩
  acyclic := by
    intro x cycle
    have climbs : ∀ r s, (Groups.initial S).Dep S r s → r < s := by
      rintro r s ⟨u, v, edge, rfl, rfl, -⟩
      exact (S.edge_lt edge).1
    have lt : ∀ y, TransGen ((Groups.initial S).Dep S) x y → x < y := by
      intro y path
      induction path with
      | single edge => exact climbs _ _ edge
      | tail _ edge ih => exact ih.trans (climbs _ _ edge)
    exact lt_irrefl x (lt x cycle)
  w0 _ _ := rfl
  cost r hr _ := by
    have only : (Finset.range S.realN).filter (fun x => (Groups.initial S).find x = r) = {r} := by
      ext x
      rw [Finset.mem_filter, Finset.mem_range, Finset.mem_singleton]
      constructor
      · exact fun h => h.2
      · rintro rfl
        exact ⟨hr, rfl⟩
    rw [only, Finset.sum_singleton]
    rfl
  capped x _ y _ ne eq := absurd eq ne
  fresh := by
    rintro r s ⟨u, v, edge, rfl, rfl, -⟩
    have hu : u < S.realN := (S.edge_lt edge).1.trans (S.edge_lt edge).2
    refine ⟨mem_sortUnique.mpr edge, ?_⟩
    simp only [Groups.initial, id_eq, mem_sortUnique, List.mem_flatMap, List.mem_map,
      List.mem_filter, decide_eq_true_eq, List.mem_range]
    exact ⟨u, hu, v, ⟨edge, rfl⟩, rfl⟩

/-- An edge between groups stays one, or becomes internal. -/
theorem Groups.Dep.merge (core : GroupsCore S cap g) {a b r s : ℕ} (edge : g.Dep S r s)
    (ne : redirect g.find a b r ≠ redirect g.find a b s) :
    (g.merge a b).Dep S (redirect g.find a b r) (redirect g.find a b s) := by
  obtain ⟨u, v, edge, rfl, rfl, -⟩ := edge
  refine ⟨u, v, edge, ?_, ?_, ne⟩
  · exact (redirect_find core.idem u).symm
  · exact (redirect_find core.idem v).symm

section Merge

variable {a b : ℕ}

theorem merge_range (core : GroupsCore S cap g) (inA : a < S.realN) {x : ℕ} (hx : x < S.realN) :
    (g.merge a b).find x < S.realN := by
  show redirect g.find a b x < S.realN
  unfold redirect
  split
  · exact inA
  · exact core.range x hx

theorem merge_w0 (core : GroupsCore S cap g) (same : g.gw0 a = g.gw0 b) {x : ℕ}
    (hx : x < S.realN) :
    (g.merge a b).gw0 ((g.merge a b).find x) = (S.scc x).workerZeroOnly := by
  show g.gw0 (redirect g.find a b x) = _
  unfold redirect
  split
  · rename_i eq
    rw [same, ← eq]
    exact core.w0 x hx
  · exact core.w0 x hx

theorem redirect_eq_iff {x r : ℕ} (hr : r ≠ a) (hb : r ≠ b) :
    redirect g.find a b x = r ↔ g.find x = r := by
  unfold redirect
  split
  · rename_i eq
    rw [eq]
    exact ⟨fun h => absurd h.symm hr, fun h => absurd h.symm hb⟩
  · exact Iff.rfl

theorem redirect_eq_self_iff {x : ℕ} :
    redirect g.find a b x = a ↔ g.find x = a ∨ g.find x = b := by
  unfold redirect
  split
  · rename_i eq
    simp [eq]
  · rename_i neq
    simp [neq]

theorem merge_cost (core : GroupsCore S cap g) (rootA : g.find a = a) (rootB : g.find b = b)
    (ne : a ≠ b) (inB : b < S.realN) {r : ℕ} (hr : r < S.realN) (root : (g.merge a b).find r = r) :
    (g.merge a b).gcost r =
      ∑ x ∈ (Finset.range S.realN).filter (fun x => (g.merge a b).find x = r), S.sc x := by
  have rb : r ≠ b := fun eq => redirect_ne ne r (root.trans eq)
  have rootR : g.find r = r := redirect_fixed rootA ne root
  show Function.update g.gcost a (g.gcost a + g.gcost b) r =
    ∑ x ∈ (Finset.range S.realN).filter (fun x => redirect g.find a b x = r), S.sc x
  by_cases ra : r = a
  · subst ra
    have split : (Finset.range S.realN).filter (fun x => redirect g.find r b x = r) =
        (Finset.range S.realN).filter (fun x => g.find x = r) ∪
          (Finset.range S.realN).filter (fun x => g.find x = b) := by
      ext x
      simp only [Finset.mem_filter, Finset.mem_union,
        redirect_eq_self_iff]
      tauto
    have disjoint : Disjoint ((Finset.range S.realN).filter (fun x => g.find x = r))
        ((Finset.range S.realN).filter (fun x => g.find x = b)) := by
      rw [Finset.disjoint_filter]
      exact fun x _ hr hb => ne (hr.symm.trans hb)
    rw [split, Finset.sum_union disjoint, Function.update_self, core.cost r hr rootR,
      core.cost b inB rootB]
  · have same : (Finset.range S.realN).filter (fun x => redirect g.find a b x = r) =
        (Finset.range S.realN).filter (fun x => g.find x = r) := by
      ext x
      simp only [Finset.mem_filter, redirect_eq_iff ra rb]
    rw [same, Function.update_of_ne ra, core.cost r hr rootR]

theorem merge_capped (core : GroupsCore S cap g) (ne : a ≠ b)
    (fits : g.gcost a + g.gcost b ≤ cap) {x y : ℕ} (hx : x < S.realN) (hy : y < S.realN)
    (xy : x ≠ y) (eq : (g.merge a b).find x = (g.merge a b).find y) :
    (g.merge a b).gcost ((g.merge a b).find x) ≤ cap := by
  have eq : redirect g.find a b x = redirect g.find a b y := eq
  show Function.update g.gcost a (g.gcost a + g.gcost b) (redirect g.find a b x) ≤ cap
  by_cases ra : redirect g.find a b x = a
  · rw [ra, Function.update_self]
    exact fits
  · have rb : redirect g.find a b x ≠ b := redirect_ne ne x
    have hx' : g.find x = redirect g.find a b x :=
      (redirect_eq_iff ra rb).mp rfl
    have hy' : g.find y = redirect g.find a b x :=
      (redirect_eq_iff ra rb).mp eq.symm
    rw [Function.update_of_ne ra, ← hx']
    exact core.capped x hx y hy xy (hx'.trans hy'.symm)

theorem merge_sortedS (core : GroupsCore S cap g) (x : ℕ) :
    ((g.merge a b).gS x).Pairwise (· < ·) := by
  have taken : ∀ v y, (Function.update g.gS a (relUnionInto (g.gS a) v) y).Pairwise (· < ·) := by
    intro v y
    by_cases eq : y = a
    · rw [eq, Function.update_self]
      exact sortUnique_pairwise _
    · rw [Function.update_of_ne eq]
      exact core.sortedS y
  simp only [Groups.merge]
  by_cases eq : x = a
  · rw [eq, Function.update_self]
    exact relErase_pairwise (relErase_pairwise (relInsertEach_pairwise (taken _) _ _ _) _) _
  · rw [Function.update_of_ne eq]
    exact relInsertEach_pairwise (taken _) _ _ _

theorem merge_sortedP (core : GroupsCore S cap g) (x : ℕ) :
    ((g.merge a b).gP x).Pairwise (· < ·) := by
  simp only [Groups.merge]
  by_cases eq : x = a
  · rw [eq, Function.update_self, Function.update_self]
    exact relErase_pairwise (relErase_pairwise (sortUnique_pairwise _) _) _
  · rw [Function.update_of_ne eq, Function.update_of_ne eq]
    exact relInsertEach_pairwise core.sortedP _ _ _

/-- Merging two different groups that no path connects, other than the edge being internalised. -/
theorem GroupsCore.merge (core : GroupsCore S cap g) (rootA : g.find a = a) (rootB : g.find b = b)
    (ne : a ≠ b) (inA : a < S.realN) (inB : b < S.realN) (fresh : Fresh g (Without (g.Dep S) a b)) (same : g.gw0 a = g.gw0 b)
    (fits : g.gcost a + g.gcost b ≤ cap)
    (forth : ¬ TransGen (Without (g.Dep S) a b) a b)
    (back : ¬ TransGen (Without (g.Dep S) a b) b a) : GroupsInv S cap (g.merge a b) := by
  have lift : ∀ r s, g.Dep S r s → redirect g.find a b r ≠ redirect g.find a b s →
      (g.merge a b).Dep S (redirect g.find a b r) (redirect g.find a b s) :=
    fun r s edge h => edge.merge core h
  have mergedS := g.merge_gS ne
  have mergedP := g.merge_gP ne
  have old : ∀ r s, (g.merge a b).Dep S r s → r ≠ s ∧ ∃ p q, Without (g.Dep S) a b p q ∧
      g.find p = p ∧ g.find q = q ∧ redirect g.find a b p = r ∧ redirect g.find a b q = s := by
    rintro r s ⟨u, v, edge, rfl, rfl, rs⟩
    have rs : redirect g.find a b u ≠ redirect g.find a b v := rs
    refine ⟨rs, g.find u, g.find v, ⟨⟨u, v, edge, rfl, rfl, ?_⟩, ?_⟩, core.idem u, core.idem v,
      redirect_find core.idem u, redirect_find core.idem v⟩
    · intro eq
      exact rs (by rw [← redirect_find core.idem u, eq, redirect_find core.idem])
    · rintro ⟨hu, hv⟩
      refine rs ?_
      rw [← redirect_find core.idem u, ← redirect_find core.idem v, hu, hv]
      unfold redirect
      rw [rootA, rootB, if_neg ne, if_pos rfl]
  refine ⟨⟨redirect_idem core.idem rootA ne, ?_, ?_, ?_, ?_, ?_, ?_, ?_, ?_, ?_⟩, ?_⟩
  · exact fun x hx => merge_range core inA hx
  · exact fun x => merge_sortedS core x
  · exact fun x => merge_sortedP core x
  · exact Sound.merged core.idem rootB rootA ne mergedS lift core.soundS core.soundP
  · exact Sound.merged core.idem rootB rootA ne mergedP
      (fun r s edge h => lift s r edge (Ne.symm h)) core.soundP core.soundS
  · exact acyclic_redirect core.acyclic forth back
  · exact fun x hx => merge_w0 core same hx
  · exact fun r hr root => merge_cost core rootA rootB ne inB hr root
  · exact fun x hx y hy xy eq => merge_capped core ne fits hx hy xy eq
  · intro r s edge
    obtain ⟨rs, p, q, pq, rootP, rootQ, hp, hq⟩ := old r s edge
    constructor
    · exact fresh_merged rootB rootA ne mergedS fresh rs ⟨p, q, pq, rootP, rootQ, hp, hq⟩
    · exact fresh_merged rootB rootA ne mergedP (R := fun s r => Without (g.Dep S) a b r s)
        (fun s r h => (fresh r s h).symm) (Ne.symm rs) ⟨q, p, pq, rootQ, rootP, hq, hp⟩

end Merge

/-- Compaction drops nothing that counts. -/
theorem GroupsInv.compact (inv : GroupsInv S cap g) : GroupsInv S cap g.compact where
  idem := inv.idem
  range := inv.range
  sortedS x := by
    simp only [Groups.compact]
    split
    · exact (inv.sortedS x).filter _
    · exact inv.sortedS x
  sortedP x := by
    simp only [Groups.compact]
    split
    · exact (inv.sortedP x).filter _
    · exact inv.sortedP x
  soundS := by
    intro r root s hs
    have root : g.find r = r := root
    simp only [Groups.compact, root, if_true] at hs
    exact inv.soundS r root s (List.mem_of_mem_filter hs)
  soundP := by
    intro s root r hr
    have root : g.find s = s := root
    simp only [Groups.compact, root, if_true] at hr
    exact inv.soundP s root r (List.mem_of_mem_filter hr)
  acyclic := inv.acyclic
  w0 := inv.w0
  cost := inv.cost
  capped := inv.capped
  fresh := by
    intro r s edge
    obtain ⟨rootR, rootS⟩ := Groups.Dep.roots (g := g) inv.idem edge
    obtain ⟨hs, hr⟩ := inv.fresh r s edge
    simp only [Groups.compact, rootR, rootS, if_true]
    exact ⟨List.mem_filter.mpr ⟨hs, by simp [rootS]⟩, List.mem_filter.mpr ⟨hr, by simp [rootR]⟩⟩

end GroupsInv

end Gsim
