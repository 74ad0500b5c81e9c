/-
  Gsim/ActiveMasks.lean
  =====================
  **Activation masks** (`activeSet2bitMap` and `updateActiveStr` of
  `cppEmitterUtil.cpp`).

  A super activates others by setting their flags, eight to a word.  The ids to
  activate are packed into masks: those after the current id in its own word go
  into a local mask, all others into a map from word indices.  When a second word of
  an aligned group of eight comes up the group becomes one 64-bit entry.

  `activeSet2bitMap_spec` says which flags the masks stand for, and
  `flag_applyFlags` that the emitted statement sets them, whatever its width and
  whether it masks, shifts or assigns unconditionally.
-/
import Gsim.FlagBytes
import Gsim.SortedContainers
import Mathlib.Data.Finset.Sort

namespace Gsim.ActiveMasks

open FlagBytes SortedContainers

/-! ## From ids to masks -/

/-- `ActiveType`; `unique` is the only bit of the mask, or `-1`. -/
structure ActiveType where
  mask : BitVec 64
  comment : String
  unique : ℤ
deriving Repr

/-- Word and bit of an id, with `ACTIVE_WIDTH` of 8. -/
def setIdxMask (cppId : ℕ) : ℕ × BitVec 64 := (cppId / 8, 1#64 <<< (cppId % 8))

/-- The group that is being merged. -/
structure Group where
  newMask : BitVec 64
  newComment : String
  /-- `findType == 2` -/
  merged : Bool
  bitMapInfo : List (ℕ × ActiveType)

/-- Take the entry of one word over into the group. -/
def Group.merge (beg : ℕ) (group : Group) (newId : ℕ) : Group :=
  match mapFind newId group.bitMapInfo with
  | none => group
  | some entry =>
    { newMask := group.newMask ||| entry.mask <<< ((newId - beg) * 8)
      newComment := group.newComment ++ " " ++ entry.comment
      merged := true
      bitMapInfo := mapErase newId group.bitMapInfo }

/-- An id that is not in the local mask. -/
def addId (bitMapInfo : List (ℕ × ActiveType)) (id : ℕ) : List (ℕ × ActiveType) :=
  let (bitMapId, bitMapMask) := setIdxMask id
  let beg := bitMapId - bitMapId % 8
  match mapFind bitMapId bitMapInfo with
  | some entry =>
    mapAssign bitMapId
      { mask := entry.mask ||| bitMapMask, comment := entry.comment ++ " " ++ toString id, unique := -1 }
      bitMapInfo
  | none =>
    let group := (List.range' beg 8).foldl (Group.merge beg)
      { newMask := bitMapMask <<< ((bitMapId - beg) * 8), newComment := toString id, merged := false, bitMapInfo }
    if group.merged then
      mapAssign beg { mask := group.newMask, comment := group.newComment, unique := -1 } group.bitMapInfo
    else
      mapAssign bitMapId { mask := bitMapMask, comment := toString id, unique := id % 8 } group.bitMapInfo

/-- The ids that go into the local mask. -/
def inOwnWord (curId : ℤ) (id : ℕ) : Bool :=
  0 ≤ curId ∧ curId < id ∧ ((id / 8 : ℕ) : ℤ) = curId / 8

section Masks

variable (alwaysActive : Finset ℕ) (curId : ℤ)

/-- One round of the loop; the local mask and the map. -/
def activateId (masks : ActiveType × List (ℕ × ActiveType)) (id : ℕ) :
    ActiveType × List (ℕ × ActiveType) :=
  let (cur, bitMapInfo) := masks
  if id ∈ alwaysActive then masks
  else if inOwnWord curId id then
    ({ mask := cur.mask ||| (setIdxMask id).2
       comment := cur.comment ++ toString id ++ " "
       unique := if cur.mask = 0 then id % 8 else -1 }, bitMapInfo)
  else (cur, addId bitMapInfo id)

def activeSet2bitMap (activeId : Finset ℕ) : ActiveType × List (ℕ × ActiveType) :=
  activeId.sort.foldl (activateId alwaysActive curId) ({ mask := 0, comment := "", unique := 0 }, [])

end Masks

/-! ## From masks to statements -/

/-- The right-hand side of an update. -/
inductive Value where
  | const (mask : BitVec 64)
  /-- `cond << bit` -/
  | shifted (bit : ℕ)
  /-- `-(uint<width>_t)cond & mask` -/
  | masked (width : ℕ) (mask : BitVec 64)
deriving DecidableEq, Repr

/-- Operands narrower than `int` are promoted to it. -/
def Value.eval (cond : Bool) : Value → BitVec 64
  | .const mask => mask
  | .shifted bit => (((BitVec.ofBool cond).setWidth 32) <<< bit).signExtend 64
  | .masked width mask =>
    if width < 32 then (-((BitVec.ofBool cond).setWidth 32) &&& mask.setWidth 32).signExtend 64
    else (-((BitVec.ofBool cond).setWidth width) &&& mask.setWidth width).setWidth 64

inductive ActiveUpdate where
  /-- `*(uint<width>_t *) &activeFlags[idx] |= value` -/
  | flags (width idx : ℕ) (value : Value)
  /-- `nextActive.orWord(idx, value)` -/
  | orWord (idx : ℕ) (value : Value)
deriving DecidableEq, Repr

/-- The narrowest type for a mask. -/
def maskWidth (mask : BitVec 64) : ℕ :=
  if mask.toNat ≤ 0xff then 8
  else if mask.toNat ≤ 0xffff then 16
  else if mask.toNat ≤ 0xffffffff then 32
  else 64

/-- `updateActiveStr` without a condition. -/
def updateActiveStr (buffered : Bool) (idx : ℕ) (mask : BitVec 64) : ActiveUpdate :=
  if buffered then .orWord idx (.const mask) else .flags (maskWidth mask) idx (.const mask)

/-- `updateActiveStr` with a condition. -/
def updateActiveStrCond (buffered : Bool) (idx : ℕ) (mask : BitVec 64) (uniqueId : ℤ) : ActiveUpdate :=
  if buffered then
    if 0 ≤ uniqueId then .orWord idx (.shifted uniqueId.toNat)
    else .orWord idx (.masked (maskWidth mask) mask)
  else if mask.toNat ≤ 0xff ∧ 0 ≤ uniqueId then .flags 8 idx (.shifted uniqueId.toNat)
  else .flags (maskWidth mask) idx (.masked (maskWidth mask) mask)

/-! ## What the masks stand for -/

/-- The flags of a map. -/
def coversMap (bitMapInfo : List (ℕ × ActiveType)) (n : ℕ) : Bool :=
  bitMapInfo.any fun entry => covers entry.1 entry.2.mask n

/-- A single bit is known by its place. -/
def ActiveType.Unique (active : ActiveType) : Prop :=
  0 ≤ active.unique → active.unique < 8 ∧ active.mask = 1#64 <<< active.unique.toNat

/-- Entries off the start of a group are single words. -/
structure MapInv (bitMapInfo : List (ℕ × ActiveType)) : Prop where
  sorted : bitMapInfo.Pairwise fun a b => a.1 < b.1
  small : ∀ entry ∈ bitMapInfo, entry.1 % 8 ≠ 0 → ∀ i, 8 ≤ i → entry.2.mask.getLsbD i = false
  unique : ∀ entry ∈ bitMapInfo, entry.2.Unique
  nonzero : ∀ entry ∈ bitMapInfo, entry.2.mask ≠ 0

theorem getLsbD_one_shiftLeft {bit : ℕ} (lt : bit < 64) (i : ℕ) :
    (1#64 <<< bit).getLsbD i = decide (i = bit) := by
  rw [BitVec.getLsbD_shiftLeft, BitVec.getLsbD_one]
  by_cases eq : i = bit
  · subst eq
    simp [lt]
  · rw [decide_eq_false eq]
    by_cases less : i < bit
    · simp [less]
    · rw [decide_eq_false (by omega : ¬ i - bit = 0)]
      simp

theorem covers_setIdxMask (id n : ℕ) :
    covers (setIdxMask id).1 (setIdxMask id).2 n = decide (n = id) := by
  rw [covers, setIdxMask, getLsbD_one_shiftLeft (by omega)]
  by_cases eq : n = id
  · subst eq
    rw [decide_eq_true (by omega : 8 * (n / 8) ≤ n), decide_eq_true (by omega : n - 8 * (n / 8) = n % 8),
      decide_eq_true rfl]
    rfl
  · rw [decide_eq_false eq]
    by_cases above : 8 * (id / 8) ≤ n
    · rw [decide_eq_false (by omega : ¬ n - 8 * (id / 8) = id % 8), Bool.and_false]
    · rw [decide_eq_false above, Bool.false_and]

theorem setIdxMask_small (id : ℕ) {i : ℕ} (le : 8 ≤ i) : (setIdxMask id).2.getLsbD i = false := by
  rw [setIdxMask, getLsbD_one_shiftLeft (by omega), decide_eq_false (by omega)]

theorem coversMap_iff {bitMapInfo : List (ℕ × ActiveType)} {n : ℕ} :
    coversMap bitMapInfo n = true ↔ ∃ entry ∈ bitMapInfo, covers entry.1 entry.2.mask n = true :=
  List.any_eq_true

section Map

variable {bitMapInfo : List (ℕ × ActiveType)}

theorem coversMap_mapAssign (sorted : bitMapInfo.Pairwise fun a b => a.1 < b.1) (k : ℕ)
    (active : ActiveType) (n : ℕ) :
    coversMap (mapAssign k active bitMapInfo) n =
      (covers k active.mask n || coversMap (mapErase k bitMapInfo) n) := by
  rw [Bool.eq_iff_iff, Bool.or_eq_true, coversMap_iff, coversMap_iff]
  constructor
  · rintro ⟨entry, mem, on⟩
    rcases (mem_mapAssign sorted).mp mem with rfl | kept
    · exact .inl on
    · exact .inr ⟨entry, mem_mapErase.mpr kept, on⟩
  · rintro (on | ⟨entry, mem, on⟩)
    · exact ⟨(k, active), (mem_mapAssign sorted).mpr (.inl rfl), on⟩
    · exact ⟨entry, (mem_mapAssign sorted).mpr (.inr (mem_mapErase.mp mem)), on⟩

theorem coversMap_of_mapFind (sorted : bitMapInfo.Pairwise fun a b => a.1 < b.1) {k : ℕ}
    {active : ActiveType} (found : mapFind k bitMapInfo = some active) (n : ℕ) :
    coversMap bitMapInfo n = (covers k active.mask n || coversMap (mapErase k bitMapInfo) n) := by
  have there := mem_of_mapFind found
  rw [Bool.eq_iff_iff, Bool.or_eq_true, coversMap_iff, coversMap_iff]
  constructor
  · rintro ⟨entry, mem, on⟩
    by_cases key : entry.1 = k
    · have same := eq_of_mem_of_key sorted mem there key
      subst same
      exact .inl on
    · exact .inr ⟨entry, mem_mapErase.mpr ⟨mem, key⟩, on⟩
  · rintro (on | ⟨entry, mem, on⟩)
    · exact ⟨(k, active), there, on⟩
    · exact ⟨entry, (mem_mapErase.mp mem).1, on⟩

theorem mapErase_of_absent {k : ℕ} (absent : ∀ entry ∈ bitMapInfo, entry.1 ≠ k) :
    mapErase k bitMapInfo = bitMapInfo := by
  apply List.filter_eq_self.mpr
  simpa using absent

theorem MapInv.mapErase (inv : MapInv bitMapInfo) (k : ℕ) : MapInv (mapErase k bitMapInfo) where
  sorted := mapErase_pairwise k inv.sorted
  small := fun entry mem => inv.small entry (mem_mapErase.mp mem).1
  unique := fun entry mem => inv.unique entry (mem_mapErase.mp mem).1
  nonzero := fun entry mem => inv.nonzero entry (mem_mapErase.mp mem).1

theorem MapInv.mapAssign (inv : MapInv bitMapInfo) {k : ℕ} {active : ActiveType}
    (small : k % 8 ≠ 0 → ∀ i, 8 ≤ i → active.mask.getLsbD i = false) (unique : active.Unique)
    (nonzero : active.mask ≠ 0) : MapInv (mapAssign k active bitMapInfo) where
  sorted := mapAssign_pairwise k active inv.sorted
  small := by
    intro entry mem
    rcases (mem_mapAssign inv.sorted).mp mem with rfl | kept
    · exact small
    · exact inv.small entry kept.1
  unique := by
    intro entry mem
    rcases (mem_mapAssign inv.sorted).mp mem with rfl | kept
    · exact unique
    · exact inv.unique entry kept.1
  nonzero := by
    intro entry mem
    rcases (mem_mapAssign inv.sorted).mp mem with rfl | kept
    · exact nonzero
    · exact inv.nonzero entry kept.1

theorem ne_zero_of_covers {idx n : ℕ} {mask : BitVec 64} (on : covers idx mask n = true) : mask ≠ 0 := by
  rintro rfl
  rw [covers_zero] at on
  cases on

end Map

/-! ### Merging a group -/

section Group

variable {beg : ℕ} {group : Group}

/-- The flags of the group and of the entries outside of it. -/
def Group.covers (beg : ℕ) (group : Group) (n : ℕ) : Bool :=
  FlagBytes.covers beg group.newMask n || coversMap group.bitMapInfo n

theorem Group.merge_of_merged_false (newId : ℕ) (none : (group.merge beg newId).merged = false) :
    group.merge beg newId = group := by
  unfold Group.merge at none ⊢
  cases found : mapFind newId group.bitMapInfo with
  | none => rfl
  | some entry =>
    rw [found] at none
    cases none

theorem Group.covers_merge {n : ℕ} (newId : ℕ) (on : FlagBytes.covers beg group.newMask n = true) :
    FlagBytes.covers beg (group.merge beg newId).newMask n = true := by
  unfold Group.merge
  cases mapFind newId group.bitMapInfo with
  | none => exact on
  | some entry =>
    simp only
    rw [covers_or, on]
    rfl

theorem Group.covers_foldl_merge {newIds : List ℕ} {n : ℕ}
    (on : FlagBytes.covers beg group.newMask n = true) :
    FlagBytes.covers beg (newIds.foldl (Group.merge beg) group).newMask n = true := by
  induction newIds generalizing group with
  | nil => exact on
  | cons newId newIds ih => exact ih (Group.covers_merge newId on)

theorem Group.merged_of_merged (newId : ℕ) (already : group.merged = true) :
    (group.merge beg newId).merged = true := by
  unfold Group.merge
  cases mapFind newId group.bitMapInfo with
  | none => exact already
  | some entry => rfl

/-- One word of the group. -/
theorem Group.merge_spec (inv : MapInv group.bitMapInfo) (aligned : beg % 8 = 0) {newId : ℕ}
    (lower : beg ≤ newId) (upper : newId < beg + 8) :
    MapInv (group.merge beg newId).bitMapInfo ∧
    (∀ entry ∈ (group.merge beg newId).bitMapInfo, entry ∈ group.bitMapInfo ∧ entry.1 ≠ newId) ∧
    ∀ n, (group.merge beg newId).covers beg n = group.covers beg n := by
  unfold Group.merge
  cases found : mapFind newId group.bitMapInfo with
  | none =>
    exact ⟨inv, fun entry mem => ⟨mem, ne_of_mapFind_none found entry mem⟩, fun _ => rfl⟩
  | some active =>
    refine ⟨inv.mapErase newId, fun entry mem => mem_mapErase.mp mem, fun n => ?_⟩
    have small : newId = beg ∨ ∀ i, 8 ≤ i → active.mask.getLsbD i = false := by
      by_cases first : newId = beg
      · exact .inl first
      · exact .inr (inv.small _ (mem_of_mapFind found) (by simp only; omega))
    rw [Group.covers, Group.covers, covers_or, covers_shiftLeft lower upper small,
      coversMap_of_mapFind inv.sorted found, Bool.or_assoc]

theorem Group.foldl_merge_spec {newIds : List ℕ} (inv : MapInv group.bitMapInfo)
    (aligned : beg % 8 = 0) (inside : ∀ newId ∈ newIds, beg ≤ newId ∧ newId < beg + 8) :
    MapInv (newIds.foldl (Group.merge beg) group).bitMapInfo ∧
    (∀ entry ∈ (newIds.foldl (Group.merge beg) group).bitMapInfo,
      entry ∈ group.bitMapInfo ∧ entry.1 ∉ newIds) ∧
    ∀ n, (newIds.foldl (Group.merge beg) group).covers beg n = group.covers beg n := by
  induction newIds generalizing group with
  | nil => exact ⟨inv, fun entry mem => ⟨mem, List.not_mem_nil⟩, fun _ => rfl⟩
  | cons newId newIds ih =>
    obtain ⟨lower, upper⟩ := inside newId List.mem_cons_self
    obtain ⟨inv', gone, same⟩ := Group.merge_spec inv aligned lower upper
    obtain ⟨inv'', gone', same'⟩ := ih inv' fun other mem => inside other (List.mem_cons_of_mem _ mem)
    refine ⟨inv'', fun entry mem => ?_, fun n => (same' n).trans (same n)⟩
    obtain ⟨there, other⟩ := gone' entry mem
    obtain ⟨there', ne⟩ := gone entry there
    exact ⟨there', by simp [ne, other]⟩

theorem Group.foldl_merge_merged {newIds : List ℕ} (already : group.merged = true) :
    (newIds.foldl (Group.merge beg) group).merged = true := by
  induction newIds generalizing group with
  | nil => exact already
  | cons newId newIds ih => exact ih (Group.merged_of_merged newId already)

/-- No entry was found, and nothing has changed. -/
theorem Group.foldl_merge_of_merged_false {newIds : List ℕ}
    (none : (newIds.foldl (Group.merge beg) group).merged = false) :
    newIds.foldl (Group.merge beg) group = group := by
  induction newIds generalizing group with
  | nil => rfl
  | cons newId newIds ih =>
    have first : (group.merge beg newId).merged = false := by
      by_contra on
      rw [List.foldl_cons, Group.foldl_merge_merged (by simpa using on)] at none
      cases none
    have same := Group.merge_of_merged_false newId first
    rw [List.foldl_cons, same] at none ⊢
    exact ih none

end Group

/-! ### The loop over the ids -/

theorem addId_spec {bitMapInfo : List (ℕ × ActiveType)} (inv : MapInv bitMapInfo) (id : ℕ) :
    MapInv (addId bitMapInfo id) ∧
    ∀ n, coversMap (addId bitMapInfo id) n = (coversMap bitMapInfo n || decide (n = id)) := by
  have bit := covers_setIdxMask id
  have smallBit : ∀ i, 8 ≤ i → (setIdxMask id).2.getLsbD i = false := fun i => setIdxMask_small id
  have word : (setIdxMask id).1 = id / 8 := rfl
  unfold addId
  simp only
  cases found : mapFind (setIdxMask id).1 bitMapInfo with
  | some entry =>
    have on : covers (setIdxMask id).1 (entry.mask ||| (setIdxMask id).2) id = true := by
      rw [covers_or, bit, decide_eq_true rfl, Bool.or_true]
    constructor
    · refine inv.mapAssign (fun off i hi => ?_) (fun pos => absurd pos (by simp)) (ne_zero_of_covers on)
      rw [BitVec.getLsbD_or, inv.small _ (mem_of_mapFind found) off i hi, smallBit i hi]
      rfl
    · intro n
      rw [coversMap_mapAssign inv.sorted, covers_or, bit, coversMap_of_mapFind inv.sorted found,
        Bool.or_right_comm]
  | none =>
    have absent := ne_of_mapFind_none found
    generalize hbeg : (setIdxMask id).1 - (setIdxMask id).1 % 8 = beg
    have aligned : beg % 8 = 0 := by omega
    have lower : beg ≤ (setIdxMask id).1 := by omega
    have upper : (setIdxMask id).1 < beg + 8 := by omega
    simp only
    generalize hstart : (Group.mk ((setIdxMask id).2 <<< (((setIdxMask id).1 - beg) * 8)) (toString id)
      false bitMapInfo) = start
    have inside : ∀ newId ∈ List.range' beg 8, beg ≤ newId ∧ newId < beg + 8 := by
      intro newId mem
      simpa [List.mem_range'_1] using mem
    have invStart : MapInv start.bitMapInfo := by rw [← hstart]; exact inv
    obtain ⟨inv', gone, same⟩ := Group.foldl_merge_spec invStart aligned inside
    have coversStart : ∀ n, start.covers beg n = (decide (n = id) || coversMap bitMapInfo n) := by
      intro n
      rw [← hstart, Group.covers, covers_shiftLeft lower upper (.inr smallBit), bit]
    by_cases merged : ((List.range' beg 8).foldl (Group.merge beg) start).merged = true
    · rw [if_pos merged]
      constructor
      · have on : covers beg start.newMask id = true := by
          rw [← hstart, covers_shiftLeft lower upper (.inr smallBit), bit, decide_eq_true rfl]
        exact inv'.mapAssign (fun off => absurd aligned off) (fun pos => absurd pos (by simp))
          (ne_zero_of_covers (Group.covers_foldl_merge on))
      · intro n
        have fresh : ∀ entry ∈ ((List.range' beg 8).foldl (Group.merge beg) start).bitMapInfo,
            entry.1 ≠ beg := by
          intro entry mem key
          apply (gone entry mem).2
          simp [List.mem_range'_1, key]
        rw [coversMap_mapAssign inv'.sorted, mapErase_of_absent fresh, ← Group.covers, same n,
          coversStart n, Bool.or_comm]
    · have unchanged := Group.foldl_merge_of_merged_false (by simpa using merged)
      rw [if_neg merged, unchanged, ← hstart]
      constructor
      · have on : covers (setIdxMask id).1 (setIdxMask id).2 id = true := by
          rw [bit, decide_eq_true rfl]
        refine inv.mapAssign (fun _ => smallBit) (fun _ => ⟨?_, ?_⟩) (ne_zero_of_covers on)
        · simp only
          omega
        · rfl
      · intro n
        rw [coversMap_mapAssign inv.sorted, mapErase_of_absent absent, bit, Bool.or_comm]

section Masks

variable {alwaysActive : Finset ℕ} {curId : ℤ}

/-- The masks after some ids stand for exactly these. -/
structure MasksInv (alwaysActive : Finset ℕ) (curId : ℤ) (ids : List ℕ)
    (masks : ActiveType × List (ℕ × ActiveType)) : Prop where
  cur : ∀ i, masks.1.mask.getLsbD i =
    ids.any fun id => decide (id ∉ alwaysActive) && inOwnWord curId id && decide (i = id % 8)
  map : MapInv masks.2
  others : ∀ n, coversMap masks.2 n =
    ids.any fun id => decide (id ∉ alwaysActive) && !inOwnWord curId id && decide (n = id)

theorem MasksInv.activateId {ids : List ℕ} {masks : ActiveType × List (ℕ × ActiveType)}
    (inv : MasksInv alwaysActive curId ids masks) (id : ℕ) :
    MasksInv alwaysActive curId (ids ++ [id]) (activateId alwaysActive curId masks id) := by
  obtain ⟨cur, bitMapInfo⟩ := masks
  unfold ActiveMasks.activateId
  simp only
  split
  · rename_i always
    refine ⟨fun i => ?_, inv.map, fun n => ?_⟩
    · simp [inv.cur i, always]
    · simp [inv.others n, always]
  · rename_i sometimes
    split
    · rename_i own
      refine ⟨fun i => ?_, inv.map, fun n => ?_⟩
      · have bit := getLsbD_one_shiftLeft (by omega : id % 8 < 64) i
        rw [BitVec.getLsbD_or, inv.cur i, setIdxMask, bit, List.any_append]
        simp [sometimes, own]
      · simp [inv.others n, own]
    · rename_i other
      obtain ⟨map, covers⟩ := addId_spec inv.map id
      refine ⟨fun i => ?_, map, fun n => ?_⟩
      · simp [inv.cur i, other]
      · rw [covers n, inv.others n, List.any_append]
        simp [sometimes, other]

theorem MasksInv.foldl {ids done : List ℕ} {masks : ActiveType × List (ℕ × ActiveType)}
    (inv : MasksInv alwaysActive curId done masks) :
    MasksInv alwaysActive curId (done ++ ids) (ids.foldl (ActiveMasks.activateId alwaysActive curId) masks) := by
  induction ids generalizing done masks with
  | nil => rwa [List.append_nil]
  | cons id ids ih =>
    have next := ih (inv.activateId id)
    rwa [List.append_assoc, List.singleton_append] at next

theorem activeSet2bitMap_spec (alwaysActive : Finset ℕ) (curId : ℤ) (activeId : Finset ℕ) :
    MasksInv alwaysActive curId activeId.sort (activeSet2bitMap alwaysActive curId activeId) := by
  have start : MasksInv alwaysActive curId []
      ({ mask := 0, comment := "", unique := 0 }, ([] : List (ℕ × ActiveType))) := by
    refine ⟨by simp, ⟨List.Pairwise.nil, by simp, by simp, by simp⟩, by simp [coversMap]⟩
  exact start.foldl

end Masks

/-! ## What the statements set -/

/-- A mask under a condition. -/
def gated (cond : Bool) (mask : BitVec 64) : BitVec 64 := if cond then mask else 0

theorem covers_gated (cond : Bool) (idx : ℕ) (mask : BitVec 64) (n : ℕ) :
    covers idx (gated cond mask) n = (cond && covers idx mask n) := by
  cases cond with
  | false => exact covers_zero idx n
  | true => rfl

theorem lt_maskWidth (mask : BitVec 64) : mask.toNat < 2 ^ maskWidth mask := by
  have bound := mask.isLt
  unfold maskWidth
  split
  · omega
  · split
    · omega
    · split
      · omega
      · exact bound

theorem maskWidth_mem (mask : BitVec 64) : maskWidth mask ∈ [8, 16, 32, 64] := by
  unfold maskWidth
  split
  · simp
  · split
    · simp
    · split <;> simp

theorem eval_shifted (cond : Bool) {bit : ℕ} (lt : bit < 8) :
    (Value.shifted bit).eval cond = gated cond (1#64 <<< bit) := by
  interval_cases bit <;> cases cond <;> decide

theorem setWidth_setWidth_of_lt {width : ℕ} {mask : BitVec 64} (lt : mask.toNat < 2 ^ width) :
    (mask.setWidth width).setWidth 64 = mask := by
  apply BitVec.eq_of_toNat_eq
  rw [BitVec.toNat_setWidth, BitVec.toNat_setWidth, Nat.mod_eq_of_lt lt, Nat.mod_eq_of_lt mask.isLt]

/-- `-(uint<w>_t)cond` -/
theorem neg_cond (cond : Bool) (w : ℕ) :
    -((BitVec.ofBool cond).setWidth w) = if cond then BitVec.allOnes w else 0#w := by
  cases cond with
  | false => simp
  | true =>
    rw [if_pos rfl, ← BitVec.neg_one_eq_allOnes]
    congr 1
    apply BitVec.eq_of_toNat_eq
    simp [BitVec.toNat_setWidth]

theorem eval_masked (cond : Bool) {width : ℕ} (known : width ∈ [8, 16, 32, 64]) {mask : BitVec 64}
    (lt : mask.toNat < 2 ^ width) : (Value.masked width mask).eval cond = gated cond mask := by
  simp only [List.mem_cons, List.not_mem_nil, or_false] at known
  simp only [Value.eval, gated]
  by_cases narrow : width < 32
  · have small : mask.toNat < 2 ^ 16 := lt.trans_le (Nat.pow_le_pow_right (by decide) (by omega))
    rw [if_pos narrow, neg_cond]
    cases cond with
    | false => simp
    | true =>
      -- an `int` below `2 ^ 16` has no sign
      have sign : (mask.setWidth 32).msb = false := by
        rw [BitVec.msb_eq_false_iff_two_mul_lt, BitVec.toNat_setWidth]
        omega
      rw [if_pos rfl, if_pos rfl, BitVec.allOnes_and, BitVec.signExtend_eq_setWidth_of_msb_false sign,
        setWidth_setWidth_of_lt (by omega)]
  · rw [if_neg narrow, neg_cond]
    cases cond with
    | false => simp
    | true => rw [if_pos rfl, if_pos rfl, BitVec.allOnes_and, setWidth_setWidth_of_lt lt]

/-- The statement for a mask: where it writes, and what it computes. -/
def ActiveUpdate.Sets (buffered : Bool) (idx : ℕ) (mask : BitVec 64) (cond : Bool)
    (update : ActiveUpdate) : Prop :=
  ∃ value : Value, value.eval cond = gated cond mask ∧
    if buffered then update = .orWord idx value
    else ∃ width ∈ [8, 16, 32, 64], mask.toNat < 2 ^ width ∧ width ≤ maskWidth mask ∧
      update = .flags width idx value

theorem sets_updateActiveStr (buffered : Bool) (idx : ℕ) (mask : BitVec 64) :
    (updateActiveStr buffered idx mask).Sets buffered idx mask true := by
  refine ⟨.const mask, rfl, ?_⟩
  unfold updateActiveStr
  cases buffered with
  | true => exact rfl
  | false => exact ⟨maskWidth mask, maskWidth_mem mask, lt_maskWidth mask, le_rfl, rfl⟩

theorem sets_updateActiveStrCond (buffered : Bool) (idx : ℕ) {active : ActiveType}
    (unique : active.Unique) (cond : Bool) :
    (updateActiveStrCond buffered idx active.mask active.unique).Sets buffered idx active.mask cond := by
  have masked := eval_masked cond (maskWidth_mem active.mask) (lt_maskWidth active.mask)
  unfold updateActiveStrCond
  by_cases single : 0 ≤ active.unique
  · obtain ⟨lt, mask⟩ := unique single
    have bit : active.unique.toNat < 8 := by omega
    have shifted := eval_shifted cond bit
    have small : active.mask.toNat ≤ 0xff := by
      have pow : 2 ^ active.unique.toNat ≤ 2 ^ 7 := Nat.pow_le_pow_right (by decide) (by omega)
      rw [mask, BitVec.toNat_shiftLeft, BitVec.toNat_ofNat, Nat.shiftLeft_eq]
      omega
    rw [← mask] at shifted
    refine ⟨.shifted active.unique.toNat, shifted, ?_⟩
    cases buffered with
    | true => simp [single]
    | false =>
      have byte : maskWidth active.mask = 8 := if_pos small
      refine ⟨8, by simp, by omega, byte.ge, ?_⟩
      simp [single, small]
  · refine ⟨.masked (maskWidth active.mask) active.mask, masked, ?_⟩
    cases buffered with
    | true => simp [single]
    | false =>
      refine ⟨maskWidth active.mask, maskWidth_mem _, lt_maskWidth _, le_rfl, ?_⟩
      simp [single]

/-- The statement on the flags themselves. -/
def ActiveUpdate.applyFlags (cond : Bool) (activeFlags : ℕ → BitVec 8) : ActiveUpdate → ℕ → BitVec 8
  | .flags width idx value => orAt activeFlags idx (width / 8) (value.eval cond)
  | .orWord _ _ => activeFlags

theorem flag_applyFlags {idx : ℕ} {mask : BitVec 64} {cond : Bool} {update : ActiveUpdate}
    (sets : update.Sets false idx mask cond) (activeFlags : ℕ → BitVec 8) (n : ℕ) :
    flag (update.applyFlags cond activeFlags) n = (flag activeFlags n || cond && covers idx mask n) := by
  obtain ⟨value, eval, width, known, lt, -, rfl⟩ := sets
  simp only [List.mem_cons, List.not_mem_nil, or_false] at known
  rw [ActiveUpdate.applyFlags, flag_orAt _ _ (by omega), eval, covers_gated]
  by_cases inside : n < 8 * (idx + width / 8)
  · rw [decide_eq_true inside, Bool.true_and]
  · have past : mask.getLsbD (n - 8 * idx) = false := by
      rw [← BitVec.testBit_toNat]
      refine Nat.testBit_lt_two_pow (lt.trans_le (Nat.pow_le_pow_right (by decide) ?_))
      omega
    rw [covers, past, Bool.and_false, Bool.and_false, Bool.and_false]

end Gsim.ActiveMasks
