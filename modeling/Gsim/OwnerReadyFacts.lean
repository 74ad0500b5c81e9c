/-
  Gsim/OwnerReadyFacts.lean
  =========================
  **What the owner-ready layout guarantees.**

  On every forward, cross-owner runtime graph the layout is built without a
  failing `Assert` (`mtBuildDenseOwnerReadyLayout_eq_some`); its slots tell the
  groups apart, and the wait and store lists of an MTask are the slots of the
  groups that end in it and of the groups it publishes.  `LayoutFacts` collects
  what the executor proofs use.
-/
import Gsim.OwnerReadyLayout

namespace Gsim

open SortedContainers

/-- The runtime graphs the layout is made for: one owner in range per MTask, and
    strictly ascending successor lists of forward cross-owner edges. -/
structure RuntimeGraphOk (runtimeSuccs : List (List Nat)) (assignment : List Int)
    (threadCount : Nat) : Prop where
  threads : 0 < threadCount
  length_eq : assignment.length = runtimeSuccs.length
  owners : ∀ m, m < runtimeSuccs.length →
    0 ≤ assignAt assignment m ∧ assignAt assignment m < threadCount
  forward : ∀ a b, Edge runtimeSuccs a b → a < b ∧ b < runtimeSuccs.length
  ascending : ∀ a, (succsAt runtimeSuccs a).Pairwise (· < ·)
  cross : ∀ a b, Edge runtimeSuccs a b → assignAt assignment a ≠ assignAt assignment b

/-! ### Ordinals -/

/-- The number of earlier MTasks of the same owner. -/
def ownerRank (assignment : List Int) (mtaskId : Nat) : Nat :=
  ((List.range mtaskId).filter fun m =>
    decide (assignAt assignment m = assignAt assignment mtaskId)).length

theorem ordinal_inner (assignment : List Int) (owner : Int) (ordinal : Nat → Int) (k : Nat) :
    (∀ m, ((List.range k).foldl (ordinalStep assignment owner) (ordinal, 0)).1 m =
      if m < k ∧ assignAt assignment m = owner then (ownerRank assignment m : Int)
      else ordinal m) ∧
    ((List.range k).foldl (ordinalStep assignment owner) (ordinal, 0)).2 =
      (((List.range k).filter fun m => decide (assignAt assignment m = owner)).length : Int) := by
  induction k with
  | zero => exact ⟨by simp, by simp⟩
  | succ k ih =>
    rw [List.range_succ, List.foldl_append, List.foldl_cons, List.foldl_nil, List.filter_append]
    generalize (List.range k).foldl (ordinalStep assignment owner) (ordinal, 0) = st at ih ⊢
    obtain ⟨hord, hcount⟩ := ih
    have hlt : ∀ m, m ≠ k → (m < k + 1 ↔ m < k) := fun m hm => by omega
    unfold ordinalStep
    by_cases hk : assignAt assignment k = owner
    · simp only [if_pos hk]
      refine ⟨fun m => ?_, ?_⟩
      · by_cases hm : m = k
        · subst hm
          rw [Function.update_self, hcount]
          simp [hk, ownerRank]
        · rw [Function.update_of_ne hm, hord]
          simp [hlt m hm]
      · simp [hcount, hk]
    · simp only [if_neg hk]
      refine ⟨fun m => ?_, ?_⟩
      · rw [hord]
        by_cases hm : m = k
        · subst hm
          simp [hk]
        · simp [hlt m hm]
      · simp [hcount, hk]

theorem ownerOrdinals_eq (assignment : List Int) (threadCount n m : Nat) (hm : m < n)
    (howner : 0 ≤ assignAt assignment m ∧ assignAt assignment m < threadCount) :
    ownerOrdinals assignment threadCount n m = ownerRank assignment m := by
  have hgen : ∀ t, ((List.range t).foldl (fun ordinal (owner : Nat) =>
      ((List.range n).foldl (ordinalStep assignment owner) (ordinal, 0)).1) (fun _ => -1)) m =
      if assignAt assignment m < t then (ownerRank assignment m : Int) else -1 := by
    intro t
    induction t with
    | zero => simp [howner.1]
    | succ t ih =>
      rw [List.range_succ, List.foldl_append, List.foldl_cons, List.foldl_nil,
        (ordinal_inner assignment t _ n).1 m, ih]
      by_cases ht : assignAt assignment m = t
      · simp [hm, ht]
      · have hlt : assignAt assignment m < ((t + 1 : Nat) : Int) ↔ assignAt assignment m < t := by
          push_cast
          omega
        simp only [ht, and_false, if_false, hlt]
  unfold ownerOrdinals
  rw [hgen, if_pos howner.2]

theorem ownerRank_lt (assignment : List Int) {a b : Nat} (hab : a < b)
    (howner : assignAt assignment a = assignAt assignment b) :
    ownerRank assignment a < ownerRank assignment b := by
  obtain ⟨d, rfl⟩ : ∃ d, b = a + 1 + d := ⟨b - (a + 1), by omega⟩
  unfold ownerRank
  rw [List.range_add, List.filter_append, List.length_append, List.range_succ,
    List.filter_append, List.length_append, ← howner]
  simp
  omega

/-! ### Groups -/

variable {runtimeSuccs : List (List Nat)} {assignment : List Int} {threadCount : Nat}

theorem mem_edgePushes {d s : Nat} {o : Int} :
    (toLex (d, o), s) ∈ edgePushes runtimeSuccs assignment ↔
      Edge runtimeSuccs s d ∧ assignAt assignment s = o := by
  unfold edgePushes
  simp only [List.mem_flatMap, List.mem_range, List.mem_map, Prod.mk.injEq,
    EmbeddingLike.apply_eq_iff_eq]
  constructor
  · rintro ⟨s', -, d', hd', ⟨rfl, rfl⟩, rfl⟩
    exact ⟨hd', rfl⟩
  · rintro ⟨hedge, rfl⟩
    exact ⟨s, lt_length_of_edge hedge, d, hedge, ⟨rfl, rfl⟩, rfl⟩

/-- The sources pushed for one destination and producer owner. -/
def groupSources (runtimeSuccs : List (List Nat)) (assignment : List Int) (d : Nat) (o : Int) :
    List Nat :=
  ((edgePushes runtimeSuccs assignment).filter fun p => p.1 = toLex (d, o)).map Prod.snd

theorem mem_groupSources {d s : Nat} {o : Int} :
    s ∈ groupSources runtimeSuccs assignment d o ↔
      Edge runtimeSuccs s d ∧ assignAt assignment s = o := by
  unfold groupSources
  rw [List.mem_map]
  constructor
  · rintro ⟨⟨k, s'⟩, hmem, rfl⟩
    obtain ⟨hin, hk⟩ := List.mem_filter.mp hmem
    simp only [decide_eq_true_eq] at hk
    rw [hk] at hin
    exact mem_edgePushes.mp hin
  · intro h
    exact ⟨(toLex (d, o), s), List.mem_filter.mpr ⟨mem_edgePushes.mpr h, by simp⟩, rfl⟩

theorem groupSources_pairwise (hok : RuntimeGraphOk runtimeSuccs assignment threadCount)
    (d : Nat) (o : Int) :
    (groupSources runtimeSuccs assignment d o).Pairwise (· < ·) := by
  unfold groupSources edgePushes
  rw [List.filter_flatMap, List.map_flatMap, List.pairwise_flatMap]
  have hfst : ∀ a x, x ∈ (((succsAt runtimeSuccs a).map fun destination =>
      (toLex (destination, assignAt assignment a), a)).filter
        fun p => p.1 = toLex (d, o)).map Prod.snd → x = a := by
    intro a x hx
    simp only [List.mem_map, List.mem_filter] at hx
    obtain ⟨p, ⟨⟨d', -, rfl⟩, -⟩, rfl⟩ := hx
    rfl
  refine ⟨fun a _ => ?_, ?_⟩
  · -- the destination occurs once among the successors of `a`
    rw [List.pairwise_map]
    have hkeys : ((succsAt runtimeSuccs a).map fun destination =>
        (toLex (destination, assignAt assignment a), a)).Pairwise fun p q => p.1 ≠ q.1 := by
      rw [List.pairwise_map]
      refine (hok.ascending a).imp fun hlt heq => ?_
      have := (Prod.mk.inj (toLex.injective heq)).1
      omega
    refine (hkeys.filter _).imp_of_mem ?_
    intro p q hp hq hne
    have hp' := (List.mem_filter.mp hp).2
    have hq' := (List.mem_filter.mp hq).2
    simp only [decide_eq_true_eq] at hp' hq'
    exact absurd (hp'.trans hq'.symm) hne
  · refine (List.pairwise_lt_range).imp ?_
    intro a b hab x hx y hy
    rw [hfst a x hx, hfst b y hy]
    exact hab

/-- The fields of a group, from the edges it collects. -/
theorem mem_ownerReadyGroups {g : OwnerReadyGroup}
    (hg : g ∈ ownerReadyGroups runtimeSuccs assignment) :
    g.sources = groupSources runtimeSuccs assignment g.destination g.producerOwner ∧
      g.sources ≠ [] ∧ g.lastSource = g.sources.getLastD 0 ∧
      g.consumerOwner = assignAt assignment g.destination := by
  unfold ownerReadyGroups at hg
  obtain ⟨i, hi, rfl⟩ := List.mem_mapIdx.mp hg
  have hentry : (groupPush (edgePushes runtimeSuccs assignment))[i] ∈
      groupPush (edgePushes runtimeSuccs assignment) := List.getElem_mem hi
  generalize (groupPush (edgePushes runtimeSuccs assignment))[i] = entry at hentry ⊢
  obtain ⟨k, vs⟩ := entry
  obtain ⟨hvs, hne⟩ := mem_groupPush.mp hentry
  exact ⟨hvs, hne, rfl, rfl⟩

theorem getElem?_ownerReadyGroups {g : OwnerReadyGroup} {i : Nat}
    (h : (ownerReadyGroups runtimeSuccs assignment)[i]? = some g) : g.logicalToken = i := by
  unfold ownerReadyGroups at h
  rw [List.getElem?_mapIdx] at h
  obtain ⟨entry, -, rfl⟩ := Option.map_eq_some_iff.mp h
  rfl

theorem ownerReadyGroups_getElem?_token {g : OwnerReadyGroup}
    (hg : g ∈ ownerReadyGroups runtimeSuccs assignment) :
    (ownerReadyGroups runtimeSuccs assignment)[g.logicalToken]? = some g := by
  obtain ⟨i, hi⟩ := List.mem_iff_getElem?.mp hg
  rw [getElem?_ownerReadyGroups hi]
  exact hi

/-- Different groups have different (destination, producer owner) keys. -/
theorem ownerReadyGroups_inj {g g' : OwnerReadyGroup}
    (hg : g ∈ ownerReadyGroups runtimeSuccs assignment)
    (hg' : g' ∈ ownerReadyGroups runtimeSuccs assignment)
    (hd : g.destination = g'.destination) (ho : g.producerOwner = g'.producerOwner) : g = g' := by
  have hsorted : (ownerReadyGroups runtimeSuccs assignment).Pairwise fun g g' =>
      toLex (g.destination, g.producerOwner) < toLex (g'.destination, g'.producerOwner) := by
    unfold ownerReadyGroups
    rw [List.mapIdx_eq_zipIdx_map, List.pairwise_map]
    have hkeys := groupPush_pairwise (edgePushes runtimeSuccs assignment)
    rw [← List.zipIdx_map_fst 0 (groupPush (edgePushes runtimeSuccs assignment)),
      List.pairwise_map] at hkeys
    exact hkeys
  obtain ⟨i, hi, rfl⟩ := List.getElem_of_mem hg
  obtain ⟨j, hj, rfl⟩ := List.getElem_of_mem hg'
  have hpw := List.pairwise_iff_getElem.mp hsorted
  rcases lt_trichotomy i j with hlt | rfl | hgt
  · have := hpw i j hi hj hlt
    rw [hd, ho] at this
    exact absurd this (lt_irrefl _)
  · rfl
  · have := hpw j i hj hi hgt
    rw [hd, ho] at this
    exact absurd this (lt_irrefl _)

/-- There is a group for the producer owner of every edge into a destination. -/
theorem exists_group (assignment : List Int) {s d : Nat} (h : Edge runtimeSuccs s d) :
    ∃ g ∈ ownerReadyGroups runtimeSuccs assignment,
      g.destination = d ∧ g.producerOwner = assignAt assignment s ∧ s ∈ g.sources := by
  have hmem : s ∈ groupSources runtimeSuccs assignment d (assignAt assignment s) :=
    mem_groupSources.mpr ⟨h, rfl⟩
  have hentry : (toLex (d, assignAt assignment s),
      groupSources runtimeSuccs assignment d (assignAt assignment s)) ∈
        groupPush (edgePushes runtimeSuccs assignment) :=
    mem_groupPush.mpr ⟨rfl, List.ne_nil_of_mem hmem⟩
  obtain ⟨i, hi, heq⟩ := List.getElem_of_mem hentry
  refine ⟨_, List.mem_mapIdx.mpr ⟨i, hi, rfl⟩, ?_⟩
  simp only [heq, ofLex_toLex, true_and]
  exact hmem

/-- The last source is a source, and no source of the group is larger. -/
theorem group_lastSource (hok : RuntimeGraphOk runtimeSuccs assignment threadCount)
    {g : OwnerReadyGroup} (hg : g ∈ ownerReadyGroups runtimeSuccs assignment) :
    g.lastSource ∈ g.sources ∧ ∀ s ∈ g.sources, s ≤ g.lastSource := by
  obtain ⟨hsrc, hne, hlast, -⟩ := mem_ownerReadyGroups hg
  have hpw := groupSources_pairwise hok g.destination g.producerOwner
  rw [← hsrc] at hpw
  have hget : g.lastSource = g.sources.getLast hne := by
    rw [hlast, List.getLastD_eq_getLast?, List.getLast?_eq_some_getLast hne]
    rfl
  refine ⟨hget ▸ List.getLast_mem hne, fun s hs => ?_⟩
  rw [hget]
  have hpw' : (g.sources.dropLast ++ [g.sources.getLast hne]).Pairwise (· < ·) := by
    rw [List.dropLast_append_getLast hne]
    exact hpw
  rw [← List.dropLast_append_getLast hne] at hs
  rcases List.mem_append.mp hs with hs | hs
  · exact ((List.pairwise_append.mp hpw').2.2 s hs _ (by simp)).le
  · exact (List.mem_singleton.mp hs).le

theorem group_sources_iff {g : OwnerReadyGroup}
    (hg : g ∈ ownerReadyGroups runtimeSuccs assignment) {s : Nat} :
    s ∈ g.sources ↔ Edge runtimeSuccs s g.destination ∧ assignAt assignment s = g.producerOwner := by
  rw [(mem_ownerReadyGroups hg).1, mem_groupSources]

/-! ### Slots -/

theorem alignCacheLine_spec (slot : Nat) :
    alignCacheLine slot % 64 = 0 ∧ slot ≤ alignCacheLine slot := by
  unfold alignCacheLine
  omega

theorem foldlM_allocGroup {groups : List OwnerReadyGroup} {pair : ℤ ×ₗ ℤ} {ids : List Nat}
    (hnodup : ids.Nodup) (next : Nat) (slot : Nat → Option Nat)
    (hnone : ∀ id ∈ ids, slot id = none)
    (hpair : ∀ id ∈ ids, (groups[id]?.any fun group =>
      decide (toLex (group.producerOwner, group.consumerOwner) = pair)) = true) :
    ∃ slot', ids.foldlM (allocGroup groups pair) (next, slot) = some (next + ids.length, slot') ∧
      (∀ id, id ∉ ids → slot' id = slot id) ∧
      (∀ id ∈ ids, ∃ s, slot' id = some s ∧ next ≤ s ∧ s < next + ids.length) ∧
      (∀ id ∈ ids, ∀ id' ∈ ids, slot' id = slot' id' → id = id') := by
  induction ids generalizing next slot with
  | nil => exact ⟨slot, rfl, by simp, by simp, by simp⟩
  | cons id ids ih =>
    obtain ⟨hid, hnodup⟩ := List.nodup_cons.mp hnodup
    have hstep : allocGroup groups pair (next, slot) id =
        some (next + 1, Function.update slot id (some next)) := by
      unfold allocGroup
      rw [Assert_bind (by simp [hnone id List.mem_cons_self]),
        Assert_bind (hpair id List.mem_cons_self)]
      rfl
    obtain ⟨slot', hrun, hframe, hrange, hinj⟩ := ih hnodup (next + 1)
      (Function.update slot id (some next))
      (fun id' hid' => by
        have hne : id' ≠ id := fun he => hid (he ▸ hid')
        rw [Function.update_of_ne hne]
        exact hnone id' (List.mem_cons_of_mem _ hid'))
      (fun id' hid' => hpair id' (List.mem_cons_of_mem _ hid'))
    have hself : slot' id = some next := by
      rw [hframe id hid, Function.update_self]
    refine ⟨slot', ?_, ?_, ?_, ?_⟩
    · rw [List.foldlM_cons, hstep]
      simp only [Option.bind_eq_bind, Option.bind_some, hrun, List.length_cons]
      rw [Nat.add_right_comm, Nat.add_assoc]
    · intro id' hid'
      rw [List.mem_cons, not_or] at hid'
      rw [hframe id' hid'.2, Function.update_of_ne hid'.1]
    · intro id' hid'
      rcases List.mem_cons.mp hid' with rfl | hid'
      · exact ⟨next, hself, le_refl _, by simp⟩
      · obtain ⟨s, hs, hlo, hhi⟩ := hrange id' hid'
        exact ⟨s, hs, by omega, by rw [List.length_cons]; omega⟩
    · have hnew : ∀ id' ∈ ids, slot' id' ≠ some next := by
        intro id' hid' he
        obtain ⟨s, hs, hlo, -⟩ := hrange id' hid'
        rw [hs] at he
        have := Option.some.inj he
        omega
      intro x hx y hy he
      rcases List.mem_cons.mp hx with rfl | hx'
      · rcases List.mem_cons.mp hy with rfl | hy'
        · rfl
        · exact absurd (he.symm.trans hself) (hnew y hy')
      · rcases List.mem_cons.mp hy with rfl | hy'
        · exact absurd (he.trans hself) (hnew x hx')
        · exact hinj x hx' y hy' he

/-- The pair of owners a group belongs to. -/
def ownerPair (group : OwnerReadyGroup) : ℤ ×ₗ ℤ :=
  toLex (group.producerOwner, group.consumerOwner)

/-- What the bank loop has established once the groups in `done` have slots. -/
structure AllocInv (groups : List OwnerReadyGroup) (done : List Nat) (st : SlotAlloc) : Prop where
  aligned : st.nextSlot % 64 = 0
  some_iff : ∀ id, (st.slot id).isSome = true ↔ id ∈ done
  below : ∀ id s, st.slot id = some s → s < st.nextSlot
  inj : ∀ id id' s, st.slot id = some s → st.slot id' = some s → id = id'
  lines : ∀ id id' s s', st.slot id = some s → st.slot id' = some s' → s / 64 = s' / 64 →
    groups[id]?.map ownerPair = groups[id']?.map ownerPair
  ranges_below : ∀ r ∈ st.bankRanges, r.2 ≤ st.nextSlot
  ranges : st.bankRanges.Pairwise fun lhs rhs => lhs.2 ≤ rhs.1 ∨ rhs.2 ≤ lhs.1

theorem allocBank_inv {groups : List OwnerReadyGroup} {done : List Nat} {st : SlotAlloc}
    (h : AllocInv groups done st) {pair : ℤ ×ₗ ℤ} {ids : List Nat} (hne : ids ≠ [])
    (hcross : (ofLex pair).1 ≠ (ofLex pair).2) (hnodup : ids.Nodup)
    (hdisj : ∀ id ∈ ids, id ∉ done) (hpair : ∀ id ∈ ids, groups[id]?.map ownerPair = some pair) :
    ∃ st', allocBank groups st (pair, ids) = some st' ∧ AllocInv groups (done ++ ids) st' := by
  have hbegin := alignCacheLine_spec st.nextSlot
  have hnone : ∀ id ∈ ids, st.slot id = none := by
    intro id hid
    by_contra hsome
    exact hdisj id hid ((h.some_iff id).mp (Option.isSome_iff_ne_none.mpr hsome))
  have hpair' : ∀ id ∈ ids, (groups[id]?.any fun group =>
      decide (toLex (group.producerOwner, group.consumerOwner) = pair)) = true := by
    intro id hid
    obtain ⟨g, hg, hgp⟩ := Option.map_eq_some_iff.mp (hpair id hid)
    rw [hg]
    simpa [ownerPair] using hgp
  obtain ⟨slot', hrun, hframe, hrange, hinj⟩ := foldlM_allocGroup hnodup
    (alignCacheLine st.nextSlot) st.slot hnone hpair'
  have hend := alignCacheLine_spec (alignCacheLine st.nextSlot + ids.length)
  have hlen : 0 < ids.length := List.length_pos_iff.mpr hne
  refine ⟨⟨alignCacheLine (alignCacheLine st.nextSlot + ids.length), slot',
    st.bankRanges ++ [(alignCacheLine st.nextSlot,
      alignCacheLine (alignCacheLine st.nextSlot + ids.length))]⟩, ?_, ?_⟩
  · unfold allocBank
    rw [Assert_bind (by simpa using hcross), Assert_bind (by simpa using hbegin.1)]
    simp only [hrun, Option.bind_eq_bind, Option.bind_some]
    rw [← Option.bind_eq_bind, Assert_bind (by simp; omega), Assert_bind]
    · rfl
    · rw [List.all_eq_true]
      intro id hid
      obtain ⟨s, hs, hlo, hhi⟩ := hrange id hid
      simp [hs]
      omega
  · -- a slot of an earlier bank lies below this one, a new slot inside it
    have hold : ∀ id s, id ∉ ids → slot' id = some s → s < st.nextSlot := by
      intro id s hid hs
      rw [hframe id hid] at hs
      exact h.below id s hs
    have hnew : ∀ id s, id ∈ ids → slot' id = some s → alignCacheLine st.nextSlot ≤ s ∧
        s < alignCacheLine st.nextSlot + ids.length := by
      intro id s hid hs
      obtain ⟨s', hs', hlo, hhi⟩ := hrange id hid
      rw [hs] at hs'
      obtain rfl := Option.some.inj hs'
      exact ⟨hlo, hhi⟩
    have haligned := h.aligned
    refine ⟨hend.1, ?_, ?_, ?_, ?_, ?_, ?_⟩
    · intro id
      by_cases hid : id ∈ ids
      · obtain ⟨s, hs, -, -⟩ := hrange id hid
        simp [hs, hid]
      · simp only [hframe id hid, h.some_iff, List.mem_append, hid, or_false]
    · intro id s hs
      by_cases hid : id ∈ ids
      · have := hnew id s hid hs
        simp only
        omega
      · have := hold id s hid hs
        simp only
        omega
    · intro id id' s hs hs'
      simp only at hs hs'
      by_cases hid : id ∈ ids
      · by_cases hid' : id' ∈ ids
        · exact hinj id hid id' hid' (hs.trans hs'.symm)
        · have h1 := hnew id s hid hs
          have h2 := hold id' s hid' hs'
          omega
      · by_cases hid' : id' ∈ ids
        · have h1 := hold id s hid hs
          have h2 := hnew id' s hid' hs'
          omega
        · rw [hframe id hid] at hs
          rw [hframe id' hid'] at hs'
          exact h.inj id id' s hs hs'
    · intro id id' s s' hs hs' hline
      simp only at hs hs'
      by_cases hid : id ∈ ids
      · by_cases hid' : id' ∈ ids
        · rw [hpair id hid, hpair id' hid']
        · have h1 := hnew id s hid hs
          have h2 := hold id' s' hid' hs'
          omega
      · by_cases hid' : id' ∈ ids
        · have h1 := hold id s hid hs
          have h2 := hnew id' s' hid' hs'
          omega
        · rw [hframe id hid] at hs
          rw [hframe id' hid'] at hs'
          exact h.lines id id' s s' hs hs' hline
    · intro r hr
      rcases List.mem_append.mp hr with hr | hr
      · have := h.ranges_below r hr
        simp only
        omega
      · rw [List.mem_singleton.mp hr]
    · rw [List.pairwise_append]
      refine ⟨h.ranges, List.pairwise_singleton _ _, ?_⟩
      intro r hr r' hr'
      rw [List.mem_singleton.mp hr']
      have := h.ranges_below r hr
      left
      simp only
      omega

theorem foldlM_allocBank {groups : List OwnerReadyGroup}
    (banks : List ((ℤ ×ₗ ℤ) × List Nat)) {done : List Nat} {st : SlotAlloc}
    (h : AllocInv groups done st)
    (hbank : ∀ b ∈ banks, b.2 ≠ [] ∧ (ofLex b.1).1 ≠ (ofLex b.1).2 ∧ b.2.Nodup ∧
      (∀ id ∈ b.2, id ∉ done) ∧ ∀ id ∈ b.2, groups[id]?.map ownerPair = some b.1)
    (hkeys : banks.Pairwise fun b b' => b.1 < b'.1) :
    ∃ st', banks.foldlM (allocBank groups) st = some st' ∧
      AllocInv groups (done ++ banks.flatMap Prod.snd) st' := by
  induction banks generalizing done st with
  | nil => exact ⟨st, rfl, by simpa using h⟩
  | cons b banks ih =>
    obtain ⟨hne, hcross, hnodup, hdisj, hpair⟩ := hbank b List.mem_cons_self
    obtain ⟨hlt, hkeys⟩ := List.pairwise_cons.mp hkeys
    obtain ⟨st₁, hrun, hinv⟩ := allocBank_inv h hne hcross hnodup hdisj hpair
    obtain ⟨st', hrest, hinv'⟩ := ih hinv (fun b' hb' => by
      obtain ⟨hne', hcross', hnodup', hdisj', hpair'⟩ := hbank b' (List.mem_cons_of_mem _ hb')
      refine ⟨hne', hcross', hnodup', fun id hid => ?_, hpair'⟩
      rw [List.mem_append, not_or]
      refine ⟨hdisj' id hid, fun hin => ?_⟩
      -- one group cannot be in the banks of two owner pairs
      have he := (hpair id hin).symm.trans (hpair' id hid)
      have := hlt b' hb'
      rw [Option.some.inj he] at this
      exact lt_irrefl _ this) hkeys
    refine ⟨st', ?_, ?_⟩
    · rw [List.foldlM_cons, hrun]
      exact hrest
    · simpa using hinv'

theorem group_cross (hok : RuntimeGraphOk runtimeSuccs assignment threadCount)
    {g : OwnerReadyGroup} (hg : g ∈ ownerReadyGroups runtimeSuccs assignment) :
    g.producerOwner ≠ g.consumerOwner := by
  obtain ⟨hlast, -⟩ := group_lastSource hok hg
  obtain ⟨hedge, howner⟩ := (group_sources_iff hg).mp hlast
  rw [(mem_ownerReadyGroups hg).2.2.2, ← howner]
  exact hok.cross _ _ hedge

theorem ownerReadyGroups_tokens (runtimeSuccs : List (List Nat)) (assignment : List Int) :
    (ownerReadyGroups runtimeSuccs assignment).map (·.logicalToken) =
      List.range (ownerReadyGroups runtimeSuccs assignment).length := by
  refine List.ext_getElem (by simp) fun i h1 h2 => ?_
  simp only [List.getElem_map, List.getElem_range]
  exact getElem?_ownerReadyGroups (List.getElem?_eq_getElem (by simpa using h1))

/-- The bank loop succeeds and gives every group its slot. -/
theorem allocSlots_spec (hok : RuntimeGraphOk runtimeSuccs assignment threadCount) :
    ∃ alloc, allocSlots (ownerReadyGroups runtimeSuccs assignment) = some alloc ∧
      ∃ done, AllocInv (ownerReadyGroups runtimeSuccs assignment) done alloc ∧
        ∀ g ∈ ownerReadyGroups runtimeSuccs assignment, g.logicalToken ∈ done := by
  have hinit : AllocInv (ownerReadyGroups runtimeSuccs assignment) []
      { nextSlot := 0, slot := fun _ => none, bankRanges := [] } := by
    refine ⟨rfl, by simp, by simp, by simp, by simp, by simp, List.Pairwise.nil⟩
  have hmem : ∀ b ∈ groupsByOwnerPair (ownerReadyGroups runtimeSuccs assignment), ∀ id ∈ b.2,
      ∃ g ∈ ownerReadyGroups runtimeSuccs assignment, g.logicalToken = id ∧ ownerPair g = b.1 := by
    rintro ⟨k, ids⟩ hb id hid
    obtain ⟨hids, -⟩ := mem_groupPush.mp hb
    simp only [hids, List.mem_map, List.mem_filter, decide_eq_true_eq] at hid
    obtain ⟨p, ⟨⟨g, hg, rfl⟩, hk⟩, rfl⟩ := hid
    exact ⟨g, hg, rfl, hk⟩
  obtain ⟨alloc, hrun, hinv⟩ := foldlM_allocBank
    (groupsByOwnerPair (ownerReadyGroups runtimeSuccs assignment)) hinit (by
      intro b hb
      have hne := groupPush_ne_nil _ b hb
      have hpair : ∀ id ∈ b.2,
          (ownerReadyGroups runtimeSuccs assignment)[id]?.map ownerPair = some b.1 := by
        intro id hid
        obtain ⟨g, hg, rfl, hgp⟩ := hmem b hb id hid
        rw [ownerReadyGroups_getElem?_token hg, Option.map_some, hgp]
      refine ⟨hne, ?_, ?_, by simp, hpair⟩
      · obtain ⟨id, hid⟩ := List.exists_mem_of_ne_nil _ hne
        obtain ⟨g, hg, -, hgp⟩ := hmem b hb id hid
        rw [← hgp]
        exact group_cross hok hg
      · obtain ⟨k, vs⟩ := b
        obtain ⟨hids, -⟩ := mem_groupPush.mp hb
        rw [hids, List.filter_map, List.map_map]
        have hnodup : ((ownerReadyGroups runtimeSuccs assignment).map
            (·.logicalToken)).Nodup := by
          rw [ownerReadyGroups_tokens]
          exact List.nodup_range
        exact hnodup.sublist (List.filter_sublist.map _))
    (groupPush_pairwise _)
  refine ⟨alloc, hrun, _, hinv, fun g hg => ?_⟩
  simp only [List.nil_append, List.mem_flatMap]
  have hin : g.logicalToken ∈ (((ownerReadyGroups runtimeSuccs assignment).map fun group =>
      (toLex (group.producerOwner, group.consumerOwner), group.logicalToken)).filter
        fun p => p.1 = ownerPair g).map Prod.snd := by
    refine List.mem_map.mpr ⟨(ownerPair g, g.logicalToken), List.mem_filter.mpr ⟨?_, by simp⟩, rfl⟩
    exact List.mem_map.mpr ⟨g, hg, rfl⟩
  exact ⟨(ownerPair g, _), mem_groupPush.mpr ⟨rfl, List.ne_nil_of_mem hin⟩, hin⟩

/-! ### No Assert fires -/

theorem edgeAsserts_ok (hok : RuntimeGraphOk runtimeSuccs assignment threadCount) (source : Nat) :
    edgeAsserts assignment runtimeSuccs.length source (succsAt runtimeSuccs source) = true := by
  unfold edgeAsserts
  simp only [Bool.and_eq_true, List.all_eq_true, decide_eq_true_eq]
  refine ⟨fun d hd => ?_, hok.ascending source⟩
  have hfwd := hok.forward source d hd
  exact ⟨⟨hfwd.2, hfwd.1⟩, hok.cross source d hd⟩

theorem groupAsserts_ok (hok : RuntimeGraphOk runtimeSuccs assignment threadCount)
    {g : OwnerReadyGroup} (hg : g ∈ ownerReadyGroups runtimeSuccs assignment) :
    groupAsserts assignment (ownerOrdinals assignment threadCount runtimeSuccs.length) g = true := by
  obtain ⟨hsrc, hne, -, -⟩ := mem_ownerReadyGroups hg
  obtain ⟨hlast, hmax⟩ := group_lastSource hok hg
  have howner : ∀ s ∈ g.sources, assignAt assignment s = g.producerOwner := fun s hs =>
    ((group_sources_iff hg).mp hs).2
  have hord : ∀ s ∈ g.sources, ownerOrdinals assignment threadCount runtimeSuccs.length s =
      ownerRank assignment s := by
    intro s hs
    have hlt := lt_length_of_edge ((group_sources_iff hg).mp hs).1
    exact ownerOrdinals_eq _ _ _ _ hlt (hok.owners s hlt)
  unfold groupAsserts
  simp only [Bool.and_eq_true, List.all_eq_true, decide_eq_true_eq, Bool.not_eq_true',
    List.isEmpty_eq_false_iff]
  refine ⟨⟨⟨⟨hne, howner⟩, ?_⟩, howner _ hlast⟩, ?_⟩
  · -- sources ascend and share an owner, so their ordinals ascend
    refine List.Pairwise.isChain (List.pairwise_cons.mpr ⟨?_, ?_⟩)
    · intro x hx
      obtain ⟨s, hs, rfl⟩ := List.mem_map.mp hx
      rw [hord s hs]
      omega
    · rw [List.pairwise_map]
      have hpw := groupSources_pairwise hok g.destination g.producerOwner
      rw [← hsrc] at hpw
      refine hpw.imp_of_mem fun {a b} ha hb hab => ?_
      rw [hord a ha, hord b hb]
      exact_mod_cast ownerRank_lt assignment hab ((howner a ha).trans (howner b hb).symm)
  · intro s hs
    rw [hord s hs, hord _ hlast]
    rcases Nat.lt_or_eq_of_le (hmax s hs) with hlt | heq
    · exact_mod_cast (ownerRank_lt assignment hlt
        ((howner s hs).trans (howner _ hlast).symm)).le
    · rw [heq]

theorem edgePushes_length (runtimeSuccs : List (List Nat)) (assignment : List Int) :
    (edgePushes runtimeSuccs assignment).length = (runtimeSuccs.map List.length).sum := by
  unfold edgePushes
  rw [List.length_flatMap]
  congr 1
  refine List.ext_getElem (by simp) fun i h1 h2 => ?_
  have hi : i < runtimeSuccs.length := by simpa using h2
  simp [succsAt, hi]

theorem ownerReadyGroups_length_sum (runtimeSuccs : List (List Nat)) (assignment : List Int) :
    ((ownerReadyGroups runtimeSuccs assignment).map fun g => g.sources.length).sum =
      (runtimeSuccs.map List.length).sum := by
  rw [← edgePushes_length runtimeSuccs assignment, ← groupPush_length_sum]
  congr 1
  unfold ownerReadyGroups
  refine List.ext_getElem (by simp) fun i h1 h2 => ?_
  simp

theorem succsAt_slotsFor (n : Nat) (groups : List OwnerReadyGroup) (slot : Nat → Option Nat)
    (select : OwnerReadyGroup → Nat) (hsel : ∀ g ∈ groups, select g < n) (m s : Nat) :
    s ∈ succsAt ((List.range n).map (slotsFor groups slot select)) m ↔
      ∃ g ∈ groups, select g = m ∧ slot g.logicalToken = some s := by
  rw [succsAt_map_range]
  by_cases hm : m < n
  · rw [if_pos hm]
    unfold slotsFor
    rw [(List.perm_insertionSort _ _).mem_iff, List.mem_filterMap]
    simp only [List.mem_filter, decide_eq_true_eq, and_assoc]
  · rw [if_neg hm]
    constructor
    · intro h
      cases h
    · rintro ⟨g, hg, rfl, -⟩
      exact absurd (hsel g hg) hm

theorem slotsFor_length_sum (n : Nat) (groups : List OwnerReadyGroup) (slot : Nat → Option Nat)
    (select : OwnerReadyGroup → Nat) (hsel : ∀ g ∈ groups, select g < n)
    (hslot : ∀ g ∈ groups, (slot g.logicalToken).isSome = true) :
    (((List.range n).map (slotsFor groups slot select)).map List.length).sum = groups.length := by
  rw [List.map_map, ← sum_fibre_length select groups n hsel]
  congr 1
  refine List.map_congr_left fun m _ => ?_
  simp only [Function.comp_apply, slotsFor]
  rw [(List.perm_insertionSort _ _).length_eq, List.length_filterMap_eq_countP,
    List.countP_eq_length]
  intro g hg
  exact hslot g (List.mem_filter.mp hg).1

/-- The facts about a layout the executors rely on: `slot` tells the groups
    apart, and the lists of an MTask are the slots it waits for and publishes. -/
structure LayoutFacts (runtimeSuccs : List (List Nat)) (assignment : List Int)
    (layout : MtDenseOwnerReadyLayout) (slot : OwnerReadyGroup → Nat) : Prop where
  slot_inj : ∀ g ∈ ownerReadyGroups runtimeSuccs assignment,
    ∀ g' ∈ ownerReadyGroups runtimeSuccs assignment, slot g = slot g' → g = g'
  slot_line : ∀ g ∈ ownerReadyGroups runtimeSuccs assignment,
    ∀ g' ∈ ownerReadyGroups runtimeSuccs assignment, slot g / 64 = slot g' / 64 →
      ownerPair g = ownerPair g'
  mem_waits : ∀ d s, s ∈ succsAt layout.waitSlotsByMTask d ↔
    ∃ g ∈ ownerReadyGroups runtimeSuccs assignment, g.destination = d ∧ slot g = s
  mem_stores : ∀ m s, s ∈ succsAt layout.storeSlotsByMTask m ↔
    ∃ g ∈ ownerReadyGroups runtimeSuccs assignment, g.lastSource = m ∧ slot g = s
  provenance : layout.tokenProvenanceByLogicalToken =
    (ownerReadyGroups runtimeSuccs assignment).map fun g =>
      { readySlot := slot g, producerMTask := g.lastSource, producerOwner := g.producerOwner,
        consumerMTask := g.destination, consumerOwner := g.consumerOwner }
  sources : layout.sourceMTasksByLogicalToken =
    (ownerReadyGroups runtimeSuccs assignment).map (·.sources)

/-- **The layout is always built.**  On a forward cross-owner runtime graph no
    `Assert` fails. -/
theorem mtBuildDenseOwnerReadyLayout_eq_some
    (hok : RuntimeGraphOk runtimeSuccs assignment threadCount) :
    ∃ layout slot, mtBuildDenseOwnerReadyLayout runtimeSuccs assignment threadCount = some layout ∧
      LayoutFacts runtimeSuccs assignment layout slot := by
  obtain ⟨alloc, hrun, done, hinv, hdone⟩ := allocSlots_spec hok
  have hsome : ∀ g ∈ ownerReadyGroups runtimeSuccs assignment,
      ∃ s, alloc.slot g.logicalToken = some s := fun g hg =>
    Option.isSome_iff_exists.mp ((hinv.some_iff _).mpr (hdone g hg))
  have hlast : ∀ g ∈ ownerReadyGroups runtimeSuccs assignment,
      g.lastSource < runtimeSuccs.length ∧ g.destination < runtimeSuccs.length ∧
        assignAt assignment g.lastSource = g.producerOwner := by
    intro g hg
    obtain ⟨hedge, howner⟩ := (group_sources_iff hg).mp (group_lastSource hok hg).1
    exact ⟨lt_length_of_edge hedge, (hok.forward _ _ hedge).2, howner⟩
  have hinj : ∀ g ∈ ownerReadyGroups runtimeSuccs assignment,
      ∀ g' ∈ ownerReadyGroups runtimeSuccs assignment,
        alloc.slot g.logicalToken = alloc.slot g'.logicalToken → g = g' := by
    intro g hg g' hg' he
    obtain ⟨s, hs⟩ := hsome g hg
    have htok := hinv.inj _ _ s hs (he ▸ hs)
    have h1 := ownerReadyGroups_getElem?_token hg
    rw [htok, ownerReadyGroups_getElem?_token hg'] at h1
    exact (Option.some.inj h1).symm
  have hround : ∀ g ∈ ownerReadyGroups runtimeSuccs assignment, ∀ s,
      alloc.slot g.logicalToken = some s →
        tokenBySlot (ownerReadyGroups runtimeSuccs assignment) alloc.slot s =
          some g.logicalToken := by
    intro g hg s hs
    unfold tokenBySlot
    rcases hfind : (ownerReadyGroups runtimeSuccs assignment).find?
      (fun group => decide (alloc.slot group.logicalToken = some s)) with _ | g'
    · have := List.find?_eq_none.mp hfind g hg
      simp [hs] at this
    · have hp := List.find?_some hfind
      simp only [decide_eq_true_eq] at hp
      rw [hfind, hinj g' (List.mem_of_find?_eq_some hfind) g hg (hp.trans hs.symm)]
      rfl
  have htokens : ∀ g ∈ ownerReadyGroups runtimeSuccs assignment,
      tokenAsserts assignment runtimeSuccs.length threadCount alloc.nextSlot
        (ownerReadyGroups runtimeSuccs assignment) alloc.slot g = true := by
    intro g hg
    obtain ⟨s, hs⟩ := hsome g hg
    obtain ⟨hl, hd, howner⟩ := hlast g hg
    have hcons := (mem_ownerReadyGroups hg).2.2.2
    have hlt := (List.getElem?_eq_some_iff.mp (ownerReadyGroups_getElem?_token hg)).1
    have ho := hok.owners _ hl
    have hc := hok.owners _ hd
    rw [howner] at ho
    rw [← hcons] at hc
    unfold tokenAsserts
    simp only [hs, Option.any_some, Bool.and_eq_true, decide_eq_true_eq]
    exact ⟨⟨⟨⟨⟨⟨⟨⟨⟨hlt, hinv.below _ _ hs, hround g hg s hs⟩, hl⟩, hd⟩, ho.1⟩, ho.2⟩, hc.1⟩, hc.2⟩,
      howner⟩, hcons.symm⟩
  have hslotSome : ∀ g ∈ ownerReadyGroups runtimeSuccs assignment,
      (alloc.slot g.logicalToken).isSome = true := fun g hg =>
    Option.isSome_iff_exists.mpr (hsome g hg)
  refine ⟨layoutOf runtimeSuccs (ownerReadyGroups runtimeSuccs assignment) alloc,
    fun g => (alloc.slot g.logicalToken).getD 0, ?_, ?_⟩
  · unfold mtBuildDenseOwnerReadyLayout
    simp only
    rw [Assert_bind (by simpa using hok.threads), Assert_bind (by simpa using hok.length_eq),
      Assert_bind (by simpa using hok.owners), Assert_bind, Assert_bind, Assert_bind,
      Assert_bind (by simpa using ownerReadyGroups_length_sum runtimeSuccs assignment)]
    · rw [hrun]
      simp only [Option.bind_eq_bind, Option.bind_some]
      rw [← Option.bind_eq_bind, Assert_bind (by simpa using hinv.ranges), Assert_bind,
        Assert_bind (List.all_eq_true.mpr htokens), Assert_bind, Assert_bind]
      · rfl
      · have haligned := hinv.aligned
        refine decide_eq_true ?_
        simp only [layoutOf]
        split
        · rfl
        · exact haligned
      · rw [Bool.and_eq_true]
        exact ⟨decide_eq_true (slotsFor_length_sum _ _ _ _ (fun g hg => (hlast g hg).2.1) hslotSome),
          decide_eq_true (slotsFor_length_sum _ _ _ _ (fun g hg => (hlast g hg).1) hslotSome)⟩
      · rw [decide_eq_true_eq]
        have hnodup : (ownerReadyGroups runtimeSuccs assignment).Nodup := by
          refine List.Nodup.of_map (·.logicalToken) ?_
          rw [ownerReadyGroups_tokens]
          exact List.nodup_range
        exact hnodup.map_on fun g hg g' hg' he => hinj g hg g' hg' he
    · exact List.all_eq_true.mpr fun g hg => groupAsserts_ok hok hg
    · exact List.all_eq_true.mpr fun source _ => edgeAsserts_ok hok source
    · refine List.all_eq_true.mpr fun m hm => ?_
      have hm' := List.mem_range.mp hm
      rw [ownerOrdinals_eq _ _ _ _ hm' (hok.owners m hm')]
      simp
  · have hget : ∀ g ∈ ownerReadyGroups runtimeSuccs assignment, ∀ s,
        (alloc.slot g.logicalToken).getD 0 = s ↔ alloc.slot g.logicalToken = some s := by
      intro g hg s
      obtain ⟨s', hs'⟩ := hsome g hg
      simp [hs']
    refine ⟨?_, ?_, ?_, ?_, rfl, rfl⟩
    · intro g hg g' hg' he
      exact hinj g hg g' hg' (((hget g hg _).mp he).trans ((hget g' hg' _).mp rfl).symm)
    · intro g hg g' hg' hline
      have h := hinv.lines _ _ _ _ ((hget g hg _).mp rfl) ((hget g' hg' _).mp rfl) hline
      rw [ownerReadyGroups_getElem?_token hg, ownerReadyGroups_getElem?_token hg'] at h
      exact Option.some.inj h
    · intro d s
      rw [show (layoutOf runtimeSuccs (ownerReadyGroups runtimeSuccs assignment)
          alloc).waitSlotsByMTask = (List.range runtimeSuccs.length).map
            (slotsFor (ownerReadyGroups runtimeSuccs assignment) alloc.slot (·.destination)) from rfl,
        succsAt_slotsFor _ _ _ _ (fun g hg => (hlast g hg).2.1)]
      constructor
      · rintro ⟨g, hg, hd, hs⟩
        exact ⟨g, hg, hd, (hget g hg s).mpr hs⟩
      · rintro ⟨g, hg, hd, hs⟩
        exact ⟨g, hg, hd, (hget g hg s).mp hs⟩
    · intro m s
      rw [show (layoutOf runtimeSuccs (ownerReadyGroups runtimeSuccs assignment)
          alloc).storeSlotsByMTask = (List.range runtimeSuccs.length).map
            (slotsFor (ownerReadyGroups runtimeSuccs assignment) alloc.slot (·.lastSource)) from rfl,
        succsAt_slotsFor _ _ _ _ (fun g hg => (hlast g hg).1)]
      constructor
      · rintro ⟨g, hg, hd, hs⟩
        exact ⟨g, hg, hd, (hget g hg s).mpr hs⟩
      · rintro ⟨g, hg, hd, hs⟩
        exact ⟨g, hg, hd, (hget g hg s).mp hs⟩

end Gsim
