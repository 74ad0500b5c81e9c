/-
  Gsim/SortedContainers.lean
  ==========================
  **Ordered containers as lists**: sorting with removal of duplicates, and the
  ordered multi-map that collects values under a key.

  A `std::map` iterated in key order whose values are vectors grown with
  `push_back` is modelled by an association list with strictly increasing keys.
  `mem_groupPush` says what one entry of it holds: the values pushed under its
  key, in the order in which they were pushed.
-/
import Mathlib

namespace SortedContainers

variable {α κ : Type*} [LinearOrder α] [LinearOrder κ]

/-! ### `std::sort` followed by `std::unique` -/

def sortUnique (l : List α) : List α := (l.insertionSort (· ≤ ·)).dedup

@[simp] theorem mem_sortUnique {a : α} {l : List α} : a ∈ sortUnique l ↔ a ∈ l := by
  simp only [sortUnique, List.mem_dedup]
  exact (List.perm_insertionSort _ l).mem_iff

theorem sortUnique_nodup (l : List α) : (sortUnique l).Nodup := List.nodup_dedup _

theorem sortUnique_pairwise (l : List α) : (sortUnique l).Pairwise (· < ·) := by
  have hle : (sortUnique l).Pairwise (· ≤ ·) :=
    (List.pairwise_insertionSort (· ≤ ·) l).sublist (List.dedup_sublist _)
  refine hle.imp₂ (fun a b hab hne => lt_of_le_of_ne hab hne) ?_
  exact sortUnique_nodup l

/-- A strictly increasing list is determined by its members. -/
theorem eq_of_pairwise_lt {l l' : List α} (h : l.Pairwise (· < ·)) (h' : l'.Pairwise (· < ·))
    (hmem : ∀ a, a ∈ l ↔ a ∈ l') : l = l' := by
  have hperm : l.Perm l' := by
    refine (List.perm_ext_iff_of_nodup ?_ ?_).mpr hmem
    · exact h.imp fun hab => ne_of_lt hab
    · exact h'.imp fun hab => ne_of_lt hab
  exact hperm.eq_of_pairwise (fun a b _ _ hab hba => absurd hab (lt_asymm hba)) h h'

/-! ### The ordered map from keys to vectors -/

/-- `m[k].push_back(v)` on a map kept in key order. -/
def pushAt (k : κ) (v : α) : List (κ × List α) → List (κ × List α)
  | [] => [(k, [v])]
  | (k', vs) :: rest =>
      if k < k' then (k, [v]) :: (k', vs) :: rest
      else if k = k' then (k', vs ++ [v]) :: rest
      else (k', vs) :: pushAt k v rest

/-- The map after pushing a list of key-value pairs from left to right. -/
def groupPush (pushes : List (κ × α)) : List (κ × List α) :=
  pushes.foldl (fun m p => pushAt p.1 p.2 m) []

omit [LinearOrder α] in
theorem mem_pushAt_key {k k' : κ} {v : α} {vs : List α} {m : List (κ × List α)}
    (h : (k', vs) ∈ pushAt k v m) : k' = k ∨ ∃ ws, (k', ws) ∈ m := by
  induction m with
  | nil =>
    simp only [pushAt, List.mem_singleton, Prod.mk.injEq] at h
    exact Or.inl h.1
  | cons hd rest ih =>
    obtain ⟨k₁, ws⟩ := hd
    simp only [pushAt] at h
    split at h
    · rcases List.mem_cons.mp h with h | h
      · exact Or.inl (Prod.mk.inj h).1
      · exact Or.inr ⟨vs, h⟩
    · split at h
      · rcases List.mem_cons.mp h with h | h
        · exact Or.inr ⟨ws, by simp [(Prod.mk.inj h).1]⟩
        · exact Or.inr ⟨vs, List.mem_cons_of_mem _ h⟩
      · rcases List.mem_cons.mp h with h | h
        · exact Or.inr ⟨ws, by simp [(Prod.mk.inj h).1]⟩
        · rcases ih h with h | ⟨us, hus⟩
          · exact Or.inl h
          · exact Or.inr ⟨us, List.mem_cons_of_mem _ hus⟩

omit [LinearOrder α] in
theorem pushAt_pairwise (k : κ) (v : α) {m : List (κ × List α)}
    (h : m.Pairwise fun p q => p.1 < q.1) :
    (pushAt k v m).Pairwise fun p q => p.1 < q.1 := by
  induction m with
  | nil => simp [pushAt]
  | cons hd rest ih =>
    obtain ⟨k₁, ws⟩ := hd
    obtain ⟨hhd, hrest⟩ := List.pairwise_cons.mp h
    simp only [pushAt]
    split
    · rename_i hlt
      refine List.pairwise_cons.mpr ⟨?_, h⟩
      intro p hp
      rcases List.mem_cons.mp hp with rfl | hp
      · exact hlt
      · exact lt_trans hlt (hhd p hp)
    · split
      · exact List.pairwise_cons.mpr ⟨hhd, hrest⟩
      · rename_i hnlt hne
        refine List.pairwise_cons.mpr ⟨?_, ih hrest⟩
        rintro ⟨k', vs⟩ hp
        rcases mem_pushAt_key hp with rfl | ⟨us, hus⟩
        · exact lt_of_le_of_ne (not_lt.mp hnlt) (fun he => hne he.symm)
        · exact hhd (k', us) hus

/-- Lookup in the association list. -/
def lookupD (m : List (κ × List α)) (k : κ) : List α :=
  match m.find? (fun p => decide (p.1 = k)) with
  | some p => p.2
  | none => []

omit [LinearOrder α] in
theorem lookupD_cons (p : κ × List α) (m : List (κ × List α)) (k : κ) :
    lookupD (p :: m) k = if p.1 = k then p.2 else lookupD m k := by
  unfold lookupD
  rw [List.find?_cons]
  by_cases h : p.1 = k
  · simp [h]
  · simp [h]

omit [LinearOrder α] in
theorem lookupD_eq_nil_of_lt {m : List (κ × List α)} {k : κ}
    (h : ∀ p ∈ m, k < p.1) : lookupD m k = [] := by
  induction m with
  | nil => rfl
  | cons p m ih =>
    rw [lookupD_cons, if_neg (ne_of_gt (h p List.mem_cons_self))]
    exact ih fun q hq => h q (List.mem_cons_of_mem _ hq)

omit [LinearOrder α] in
theorem lookupD_pushAt (k : κ) (v : α) {m : List (κ × List α)}
    (h : m.Pairwise fun p q => p.1 < q.1) (k' : κ) :
    lookupD (pushAt k v m) k' = if k' = k then lookupD m k ++ [v] else lookupD m k' := by
  induction m with
  | nil =>
    simp only [pushAt, lookupD_cons]
    by_cases hk : k = k'
    · simp [hk, lookupD]
    · simp [hk, Ne.symm hk]
  | cons hd rest ih =>
    obtain ⟨k₁, ws⟩ := hd
    obtain ⟨hhd, hrest⟩ := List.pairwise_cons.mp h
    simp only [pushAt]
    split
    · rename_i hlt
      have hnone : lookupD ((k₁, ws) :: rest) k = [] := by
        refine lookupD_eq_nil_of_lt fun p hp => ?_
        rcases List.mem_cons.mp hp with rfl | hp
        · exact hlt
        · exact lt_trans hlt (hhd p hp)
      rw [lookupD_cons, hnone]
      by_cases hk : k = k'
      · simp [hk]
      · simp [hk, Ne.symm hk]
    · split
      · rename_i _ heq
        subst heq
        simp only [lookupD_cons]
        by_cases hk : k = k'
        · simp [hk]
        · simp [hk, Ne.symm hk]
      · rename_i _ hne
        simp only [lookupD_cons, ih hrest]
        by_cases hk₁ : k₁ = k'
        · have hkk : k' ≠ k := fun he => hne (he ▸ hk₁.symm)
          simp [hk₁, hkk]
        · simp [hk₁, Ne.symm hne]

/-! ### `std::map` as an association list in key order -/

section OrderedMap

variable {β : Type*}

def mapFind (k : κ) (m : List (κ × β)) : Option β :=
  (m.find? fun p => decide (p.1 = k)).map Prod.snd

def mapErase (k : κ) (m : List (κ × β)) : List (κ × β) := m.filter fun p => decide (p.1 ≠ k)

/-- `m[k] = v` -/
def mapAssign (k : κ) (v : β) : List (κ × β) → List (κ × β)
  | [] => [(k, v)]
  | (k', v') :: rest =>
      if k < k' then (k, v) :: (k', v') :: rest
      else if k = k' then (k, v) :: rest
      else (k', v') :: mapAssign k v rest

theorem mem_of_mapFind {k : κ} {v : β} {m : List (κ × β)} (found : mapFind k m = some v) :
    (k, v) ∈ m := by
  obtain ⟨p, hp, rfl⟩ := Option.map_eq_some_iff.mp found
  have key : p.1 = k := by simpa using List.find?_some hp
  rw [← key]
  exact List.mem_of_find?_eq_some hp

theorem ne_of_mapFind_none {k : κ} {m : List (κ × β)} (absent : mapFind k m = none) :
    ∀ p ∈ m, p.1 ≠ k := by
  intro p hp
  simpa using List.find?_eq_none.mp (Option.map_eq_none_iff.mp absent) p hp

theorem eq_of_mem_of_key {m : List (κ × β)} (sorted : m.Pairwise fun p q => p.1 < q.1) {p q : κ × β}
    (hp : p ∈ m) (hq : q ∈ m) (key : p.1 = q.1) : p = q := by
  have distinct : m.Pairwise fun p q => p.1 ≠ q.1 := sorted.imp ne_of_lt
  have : Std.Symm fun p q : κ × β => p.1 ≠ q.1 := ⟨fun _ _ ne => ne.symm⟩
  by_contra ne
  exact distinct.forall hp hq ne key

theorem mem_mapErase {k : κ} {p : κ × β} {m : List (κ × β)} :
    p ∈ mapErase k m ↔ p ∈ m ∧ p.1 ≠ k := by
  simp [mapErase]

theorem mapErase_pairwise (k : κ) {m : List (κ × β)} (sorted : m.Pairwise fun p q => p.1 < q.1) :
    (mapErase k m).Pairwise fun p q => p.1 < q.1 := sorted.filter _

theorem mem_mapAssign {k : κ} {v : β} {m : List (κ × β)} (sorted : m.Pairwise fun p q => p.1 < q.1)
    {p : κ × β} : p ∈ mapAssign k v m ↔ p = (k, v) ∨ p ∈ m ∧ p.1 ≠ k := by
  induction m with
  | nil => simp [mapAssign]
  | cons hd rest ih =>
    obtain ⟨k', v'⟩ := hd
    obtain ⟨above, sorted'⟩ := List.pairwise_cons.mp sorted
    simp only [mapAssign]
    split
    · rename_i lt
      have other : ∀ q ∈ (k', v') :: rest, q.1 ≠ k := by
        intro q hq
        rcases List.mem_cons.mp hq with rfl | hq
        · exact ne_of_gt lt
        · exact ne_of_gt (lt_trans lt (above q hq))
      rw [List.mem_cons]
      exact or_congr_right ⟨fun h => ⟨h, other p h⟩, And.left⟩
    · split
      · rename_i _ eq
        subst eq
        have other : ∀ q ∈ rest, q.1 ≠ k := fun q hq => ne_of_gt (above q hq)
        rw [List.mem_cons, List.mem_cons]
        refine or_congr_right ⟨fun h => ⟨.inr h, other p h⟩, ?_⟩
        rintro ⟨rfl | h, ne⟩
        · exact absurd rfl ne
        · exact h
      · rename_i _ ne
        rw [List.mem_cons, ih sorted', List.mem_cons]
        constructor
        · rintro (rfl | rfl | ⟨h, ne'⟩)
          · exact .inr ⟨.inl rfl, Ne.symm ne⟩
          · exact .inl rfl
          · exact .inr ⟨.inr h, ne'⟩
        · rintro (rfl | ⟨rfl | h, ne'⟩)
          · exact .inr (.inl rfl)
          · exact .inl rfl
          · exact .inr (.inr ⟨h, ne'⟩)

theorem mapAssign_pairwise (k : κ) (v : β) {m : List (κ × β)}
    (sorted : m.Pairwise fun p q => p.1 < q.1) :
    (mapAssign k v m).Pairwise fun p q => p.1 < q.1 := by
  induction m with
  | nil => simp [mapAssign]
  | cons hd rest ih =>
    obtain ⟨k', v'⟩ := hd
    obtain ⟨above, sorted'⟩ := List.pairwise_cons.mp sorted
    simp only [mapAssign]
    split
    · rename_i lt
      refine List.pairwise_cons.mpr ⟨fun q hq => ?_, sorted⟩
      rcases List.mem_cons.mp hq with rfl | hq
      · exact lt
      · exact lt_trans lt (above q hq)
    · split
      · rename_i _ eq
        subst eq
        exact List.pairwise_cons.mpr ⟨above, sorted'⟩
      · rename_i nlt ne
        refine List.pairwise_cons.mpr ⟨fun q hq => ?_, ih sorted'⟩
        rcases (mem_mapAssign sorted').mp hq with rfl | ⟨hq, -⟩
        · exact lt_of_le_of_ne (not_lt.mp nlt) (Ne.symm ne)
        · exact above q hq

end OrderedMap

/-! ### What the map holds after a sequence of pushes -/

omit [LinearOrder α] in
theorem foldl_pushAt_spec (pushes : List (κ × α)) {m : List (κ × List α)}
    (h : m.Pairwise fun p q => p.1 < q.1) :
    (pushes.foldl (fun m p => pushAt p.1 p.2 m) m).Pairwise (fun p q => p.1 < q.1) ∧
      ∀ k, lookupD (pushes.foldl (fun m p => pushAt p.1 p.2 m) m) k =
        lookupD m k ++ (pushes.filter fun p => p.1 = k).map Prod.snd := by
  induction pushes generalizing m with
  | nil => exact ⟨h, by simp⟩
  | cons p pushes ih =>
    obtain ⟨hsorted, hlook⟩ := ih (pushAt_pairwise p.1 p.2 h)
    refine ⟨hsorted, fun k => ?_⟩
    rw [List.foldl_cons, hlook, lookupD_pushAt p.1 p.2 h]
    by_cases hk : p.1 = k
    · simp [hk]
    · simp [hk, Ne.symm hk]

omit [LinearOrder α] in
theorem groupPush_pairwise (pushes : List (κ × α)) :
    (groupPush pushes).Pairwise fun p q => p.1 < q.1 :=
  (foldl_pushAt_spec pushes List.Pairwise.nil).1

omit [LinearOrder α] in
theorem lookupD_of_mem {m : List (κ × List α)} (h : m.Pairwise fun p q => p.1 < q.1)
    {k : κ} {vs : List α} (hmem : (k, vs) ∈ m) : lookupD m k = vs := by
  induction m with
  | nil => cases hmem
  | cons p m ih =>
    obtain ⟨hhd, htl⟩ := List.pairwise_cons.mp h
    rw [lookupD_cons]
    rcases List.mem_cons.mp hmem with rfl | hmem
    · simp
    · rw [if_neg (ne_of_lt (hhd _ hmem)), ih htl hmem]

omit [LinearOrder α] in
theorem pushAt_ne_nil {k : κ} {v : α} {m : List (κ × List α)} (h : ∀ p ∈ m, p.2 ≠ []) :
    ∀ p ∈ pushAt k v m, p.2 ≠ [] := by
  induction m with
  | nil => simp [pushAt]
  | cons hd rest ih =>
    obtain ⟨k₁, ws⟩ := hd
    have hhd : ws ≠ [] := h (k₁, ws) List.mem_cons_self
    have hrest : ∀ p ∈ rest, p.2 ≠ [] := fun p hp => h p (List.mem_cons_of_mem _ hp)
    intro p hp
    simp only [pushAt] at hp
    split at hp
    · rcases List.mem_cons.mp hp with rfl | hp
      · simp
      · exact h p hp
    · split at hp
      · rcases List.mem_cons.mp hp with rfl | hp
        · simp
        · exact hrest p hp
      · rcases List.mem_cons.mp hp with rfl | hp
        · exact hhd
        · exact ih hrest p hp

omit [LinearOrder α] in
theorem groupPush_ne_nil (pushes : List (κ × α)) : ∀ p ∈ groupPush pushes, p.2 ≠ [] := by
  have hgen : ∀ (pushes : List (κ × α)) (m : List (κ × List α)), (∀ p ∈ m, p.2 ≠ []) →
      ∀ p ∈ pushes.foldl (fun m p => pushAt p.1 p.2 m) m, p.2 ≠ [] := by
    intro pushes
    induction pushes with
    | nil => intro m hm; exact hm
    | cons q pushes ih => intro m hm; exact ih _ (pushAt_ne_nil hm)
  exact hgen pushes [] (by simp)

omit [LinearOrder α] in
/-- The entry under a key holds the values pushed there, in push order, and an
    entry exists exactly for the keys that received a value. -/
theorem mem_groupPush {pushes : List (κ × α)} {k : κ} {vs : List α} :
    (k, vs) ∈ groupPush pushes ↔
      vs = (pushes.filter fun p => p.1 = k).map Prod.snd ∧ vs ≠ [] := by
  obtain ⟨hsorted, hlook⟩ := foldl_pushAt_spec pushes (m := ([] : List (κ × List α))) List.Pairwise.nil
  have hlook' : lookupD (groupPush pushes) k = (pushes.filter fun p => p.1 = k).map Prod.snd := by
    have h := hlook k
    simpa [groupPush, lookupD] using h
  constructor
  · intro hmem
    have h := lookupD_of_mem hsorted hmem
    exact ⟨h.symm.trans hlook', groupPush_ne_nil pushes _ hmem⟩
  · rintro ⟨rfl, hne⟩
    rw [← hlook'] at hne ⊢
    unfold lookupD at hne ⊢
    rcases hfind : (groupPush pushes).find? (fun p => decide (p.1 = k)) with _ | p
    · rw [hfind] at hne
      exact absurd rfl hne
    · rw [hfind]
      have hk := List.find?_some hfind
      simp only [decide_eq_true_eq] at hk
      have hp := List.mem_of_find?_eq_some hfind
      subst hk
      exact hp

omit [LinearOrder α] in
theorem pushAt_length_sum (k : κ) (v : α) (m : List (κ × List α)) :
    ((pushAt k v m).map fun p => p.2.length).sum = (m.map fun p => p.2.length).sum + 1 := by
  induction m with
  | nil => simp [pushAt]
  | cons hd rest ih =>
    obtain ⟨k₁, ws⟩ := hd
    simp only [pushAt]
    split
    · simp only [List.map_cons, List.sum_cons, List.length_cons, List.length_nil]
      omega
    · split
      · simp only [List.map_cons, List.sum_cons, List.length_append, List.length_cons,
          List.length_nil]
        omega
      · simp only [List.map_cons, List.sum_cons, ih]
        omega

omit [LinearOrder α] in
/-- Nothing that was pushed is lost or counted twice. -/
theorem groupPush_length_sum (pushes : List (κ × α)) :
    ((groupPush pushes).map fun p => p.2.length).sum = pushes.length := by
  have hgen : ∀ (pushes : List (κ × α)) (m : List (κ × List α)),
      ((pushes.foldl (fun m p => pushAt p.1 p.2 m) m).map fun p => p.2.length).sum =
        (m.map fun p => p.2.length).sum + pushes.length := by
    intro pushes
    induction pushes with
    | nil => intro m; simp
    | cons q pushes ih =>
      intro m
      rw [List.foldl_cons, ih, pushAt_length_sum, List.length_cons]
      omega
  simpa [groupPush] using hgen pushes []

/-! ### Fibres over an initial segment -/

theorem sum_indicator_range (k n : ℕ) :
    ((List.range n).map fun m => if m = k then 1 else 0).sum = if k < n then 1 else 0 := by
  induction n with
  | zero => simp
  | succ n ih =>
    rw [List.range_succ, List.map_append, List.sum_append, ih]
    rcases lt_trichotomy k n with h | rfl | h
    · simp [h, Nat.lt_succ_of_lt h, ne_of_gt h]
    · simp
    · simp [Nat.not_lt.mpr h.le, Nat.not_lt.mpr (Nat.succ_le_of_lt h), ne_of_lt h]

/-- Sorting the members of a list into the fibres of a bounded function counts
    each of them once. -/
theorem sum_fibre_length {β : Type*} (f : β → ℕ) (l : List β) (n : ℕ)
    (h : ∀ x ∈ l, f x < n) :
    ((List.range n).map fun m => (l.filter fun x => decide (f x = m)).length).sum = l.length := by
  induction l with
  | nil => simp
  | cons x l ih =>
    have hx := h x List.mem_cons_self
    have hsplit : ((List.range n).map fun m =>
        ((x :: l).filter fun x => decide (f x = m)).length) =
        (List.range n).map fun m => (if m = f x then 1 else 0) +
          (l.filter fun x => decide (f x = m)).length := by
      refine List.map_congr_left fun m _ => ?_
      rw [List.filter_cons]
      by_cases hm : f x = m
      · simp [hm, Nat.add_comm]
      · simp [hm, Ne.symm hm]
    rw [hsplit, List.sum_map_add, sum_indicator_range, if_pos hx, ih fun y hy => h y (List.mem_cons_of_mem _ hy),
      List.length_cons, Nat.add_comm]

/-! ### Positions in a sorted list -/

theorem idxOf_lt_idxOf_iff {α : Type*} [LinearOrder α] {l : List α} (hl : l.Pairwise (· < ·))
    {x y : α} (hx : x ∈ l) (hy : y ∈ l) : l.idxOf x < l.idxOf y ↔ x < y := by
  induction l with
  | nil => cases hx
  | cons h t ih =>
    obtain ⟨hhead, htail⟩ := List.pairwise_cons.mp hl
    by_cases hxh : h = x
    · subst hxh
      rcases List.mem_cons.mp hy with rfl | hy
      · simp
      · have hlt := hhead y hy
        simp [List.idxOf_cons_ne _ hlt.ne, hlt]
    · have hx' : x ∈ t := (List.mem_cons.mp hx).resolve_left (Ne.symm hxh)
      by_cases hyh : h = y
      · subst hyh
        simp [(hhead x hx').le]
      · have hy' : y ∈ t := (List.mem_cons.mp hy).resolve_left (Ne.symm hyh)
        rw [List.idxOf_cons_ne _ hxh, List.idxOf_cons_ne _ hyh, Nat.succ_lt_succ_iff]
        exact ih htail hx' hy'

end SortedContainers
