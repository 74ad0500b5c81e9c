/-
  Gsim/ActiveSinks.lean
  =====================
  **Where activations go** (`activateNext` and the structures `ActiveBuffer` and
  `ActivationDelta` that `cppEmitterEmitCore.cpp` generates).

  The generated code sets flags directly, or through a buffer of words that
  remembers which words it touched, or through a list of entries; buffer and list
  are merged into the flags later.  All three are sinks for the same statements.
  `Sink.Lawful` says what one statement does to the flags that a sink stands for,
  `Sink.Lawful.run` what a run does, and the sinks are compared by their flags.
-/
import Gsim.ActiveMasks

namespace Gsim.ActiveMasks

open FlagBytes SortedContainers

/-! ## Activations -/

/-- What the running model activates. -/
inductive Activation where
  /-- `activateNext`, with the value of the condition -/
  | next (activeId : Finset ℕ) (curId : ℤ) (cond : Bool)
  /-- `activateUncondNext`, and interface inputs and reset functions with `curId` of `-1` -/
  | uncond (activeId : Finset ℕ) (curId : ℤ)
  /-- `activateAll` -/
  | all

/-- Whether every statement has the condition, instead of an `if` around all of them. -/
def opt (masks : ActiveType × List (ℕ × ActiveType)) : Bool :=
  (if masks.1.mask ≠ 0 then 1 else 0) + masks.2.length ≤ 3

section Activation

variable (alwaysActive : Finset ℕ)

/-- The statements that are executed, with the condition they see. -/
def Activation.updates (buffered : Bool) : Activation → List (ActiveUpdate × Bool)
  | .next activeId curId cond =>
    let masks := activeSet2bitMap alwaysActive curId activeId
    if opt masks then
      masks.2.map fun entry => (updateActiveStrCond buffered entry.1 entry.2.mask entry.2.unique, cond)
    else if cond then masks.2.map fun entry => (updateActiveStr buffered entry.1 entry.2.mask, true)
    else []
  | .uncond activeId curId =>
    (activeSet2bitMap alwaysActive curId activeId).2.map fun entry =>
      (updateActiveStr buffered entry.1 entry.2.mask, true)
  | .all => []

/-- The flag word of the current super after the local mask of `activateNext`. -/
def ownFlagNext (activeId : Finset ℕ) (curId : ℤ) (cond : Bool) (flags : BitVec 8) : BitVec 8 :=
  let masks := activeSet2bitMap alwaysActive curId activeId
  if masks.1.mask ≠ 0 then
    if opt masks then flags ||| ((Value.masked 8 masks.1.mask).eval cond).setWidth 8
    else if cond then flags ||| masks.1.mask.setWidth 8
    else flags
  else flags

/-- The flag word after the local mask of `activateUncondNext`. -/
def ownFlagUncond (activeId : Finset ℕ) (curId : ℤ) (flags : BitVec 8) : BitVec 8 :=
  let masks := activeSet2bitMap alwaysActive curId activeId
  if masks.1.mask ≠ 0 then flags ||| masks.1.mask.setWidth 8 else flags

/-- The ids in the map. -/
def outsideOwnWord (activeId : Finset ℕ) (curId : ℤ) (n : ℕ) : Bool :=
  decide (n ∈ activeId) && decide (n ∉ alwaysActive) && !inOwnWord curId n

/-- The flags that an activation is for. -/
def Activation.sets (activeWords : ℕ) : Activation → ℕ → Bool
  | .next activeId curId cond, n => cond && outsideOwnWord alwaysActive activeId curId n
  | .uncond activeId curId, n => outsideOwnWord alwaysActive activeId curId n
  | .all, n => decide (n < 8 * activeWords)

end Activation

/-- `activeFlagNum`, rounded up so that the last group is whole. -/
def activeFlagNum (superId : ℕ) : ℕ := ((superId + 7) / 8 + 7) / 8 * 8

/-- All ids are ids of supers. -/
def Activation.Within (superId : ℕ) : Activation → Prop
  | .next activeId _ _ | .uncond activeId _ => ∀ id ∈ activeId, id < superId
  | .all => True

/-! ## The sinks -/

/-- Something that takes the statements. -/
structure Sink (σ : Type) where
  buffered : Bool
  update : Bool → σ → ActiveUpdate → σ
  activateAll : σ → σ

section Run

variable {σ : Type} (sink : Sink σ) (alwaysActive : Finset ℕ)

def Sink.activate (state : σ) : Activation → σ
  | .all => sink.activateAll state
  | activation =>
    (activation.updates alwaysActive sink.buffered).foldl
      (fun state statement => sink.update statement.2 state statement.1) state

def Sink.run (state : σ) (activations : List Activation) : σ :=
  activations.foldl (sink.activate alwaysActive) state

end Run

section Sinks

variable (activeWords : ℕ)

/-- `activeFlags` itself. -/
def directSink : Sink (ℕ → BitVec 8) where
  buffered := false
  update := fun cond flags update => update.applyFlags cond flags
  activateAll := fun flags w => if w < activeWords then 0xff else flags w

structure ActiveBuffer where
  words : ℕ → BitVec 8
  /-- the first `touchedCount` elements of `touchedWords` -/
  touchedWords : List ℕ
  allActive : Bool

namespace ActiveBuffer

/-- The constructor. -/
def init : ActiveBuffer := { words := fun _ => 0, touchedWords := [], allActive := false }

def clear (buffer : ActiveBuffer) : ActiveBuffer :=
  if buffer.allActive then
    { words := fun w => if w < activeWords then 0 else buffer.words w, touchedWords := [], allActive := false }
  else
    { words := fun w => if w ∈ buffer.touchedWords then 0 else buffer.words w
      touchedWords := []
      allActive := false }

/-- One round of the loop of `orWord`. -/
def orByte (idx : ℕ) (mask : BitVec 64) (buffer : ActiveBuffer) (i : ℕ) : ActiveBuffer :=
  let value := byte mask i
  if value = 0 then buffer
  else
    let wordIdx := idx + i
    { touchedWords :=
        if buffer.allActive = false ∧ buffer.words wordIdx = 0 then buffer.touchedWords ++ [wordIdx]
        else buffer.touchedWords
      words := Function.update buffer.words wordIdx (buffer.words wordIdx ||| value)
      allActive := buffer.allActive }

def orWord (buffer : ActiveBuffer) (idx : ℕ) (mask : BitVec 64) : ActiveBuffer :=
  (List.range (min 8 (activeWords - idx))).foldl (orByte idx mask) buffer

def activateAll (buffer : ActiveBuffer) : ActiveBuffer :=
  { words := fun w => if w < activeWords then 0xff else buffer.words w, touchedWords := [], allActive := true }

def mergeFrom (buffer : ActiveBuffer) (activeFlags : ℕ → BitVec 8) : ℕ → BitVec 8 :=
  if buffer.allActive then fun w =>
    if w < activeWords then activeFlags w ||| buffer.words w else activeFlags w
  else
    buffer.touchedWords.foldl
      (fun flags wordIdx => Function.update flags wordIdx (flags wordIdx ||| buffer.words wordIdx)) activeFlags

end ActiveBuffer

def bufferSink : Sink ActiveBuffer where
  buffered := true
  update := fun cond buffer update =>
    match update with
    | .orWord idx value => buffer.orWord activeWords idx (value.eval cond)
    | .flags _ _ _ => buffer
  activateAll := ActiveBuffer.activateAll activeWords

structure ActivationDelta where
  /-- `idx` and `mask` of the entries, the mask being the value of one word -/
  entries : List (ℕ × BitVec 64)
  allActive : Bool

namespace ActivationDelta

def init : ActivationDelta := { entries := [], allActive := false }

def clear (_ : ActivationDelta) : ActivationDelta := { entries := [], allActive := false }

/-- One round of the loop of `orWord`. -/
def orByte (idx : ℕ) (mask : BitVec 64) (delta : ActivationDelta) (i : ℕ) : ActivationDelta :=
  let value := byte mask i
  if value = 0 then delta
  else { delta with entries := delta.entries ++ [(idx + i, value.setWidth 64)] }

def orWord (delta : ActivationDelta) (idx : ℕ) (mask : BitVec 64) : ActivationDelta :=
  (List.range (min 8 (activeWords - idx))).foldl (orByte idx mask) delta

def activateAll (delta : ActivationDelta) : ActivationDelta := { delta with allActive := true }

def mergeInto (delta : ActivationDelta) (activeFlags : ℕ → BitVec 8) : ℕ → BitVec 8 :=
  if delta.allActive then fun w => if w < activeWords then 0xff else activeFlags w
  else
    delta.entries.foldl
      (fun flags entry => Function.update flags entry.1 (flags entry.1 ||| entry.2.setWidth 8)) activeFlags

end ActivationDelta

def deltaSink : Sink ActivationDelta where
  buffered := true
  update := fun cond delta update =>
    match update with
    | .orWord idx value => delta.orWord activeWords idx (value.eval cond)
    | .flags _ _ _ => delta
  activateAll := ActivationDelta.activateAll

end Sinks

/-! ## What a run sets -/

/-- What the statements do to the flags that a sink stands for. -/
structure Sink.Lawful {σ : Type} (sink : Sink σ) (activeWords : ℕ) (Inv : σ → Prop)
    (stands : σ → ℕ → Bool) : Prop where
  update : ∀ {state idx mask cond update}, Inv state → update.Sets sink.buffered idx mask cond →
    (∀ n, covers idx mask n = true → n < 8 * activeWords) →
    Inv (sink.update cond state update) ∧
      ∀ n, stands (sink.update cond state update) n = (stands state n || cond && covers idx mask n)
  activateAll : ∀ {state}, Inv state → Inv (sink.activateAll state) ∧
    ∀ n, stands (sink.activateAll state) n = (stands state n || decide (n < 8 * activeWords))

theorem le_activeFlagNum (superId : ℕ) : superId ≤ 8 * activeFlagNum superId := by
  unfold activeFlagNum
  omega

section Lawful

variable {σ : Type} {sink : Sink σ} {activeWords : ℕ} {Inv : σ → Prop} {stands : σ → ℕ → Bool}

/-- The statements of a map, one for each entry. -/
theorem Sink.Lawful.updates (lawful : sink.Lawful activeWords Inv stands)
    {statement : ℕ × ActiveType → ActiveUpdate} {cond : Bool} {bitMapInfo : List (ℕ × ActiveType)}
    (sets : ∀ entry ∈ bitMapInfo, (statement entry).Sets sink.buffered entry.1 entry.2.mask cond)
    (within : ∀ n, coversMap bitMapInfo n = true → n < 8 * activeWords) {state : σ} (inv : Inv state) :
    let after := (bitMapInfo.map fun entry => (statement entry, cond)).foldl
      (fun state statement => sink.update statement.2 state statement.1) state
    Inv after ∧ ∀ n, stands after n = (stands state n || cond && coversMap bitMapInfo n) := by
  induction bitMapInfo generalizing state with
  | nil => exact ⟨inv, by simp [coversMap]⟩
  | cons entry bitMapInfo ih =>
    have here : ∀ n, covers entry.1 entry.2.mask n = true → n < 8 * activeWords := by
      intro n on
      exact within n (coversMap_iff.mpr ⟨entry, List.mem_cons_self, on⟩)
    have rest : ∀ n, coversMap bitMapInfo n = true → n < 8 * activeWords := by
      intro n on
      obtain ⟨other, mem, on⟩ := coversMap_iff.mp on
      exact within n (coversMap_iff.mpr ⟨other, List.mem_cons_of_mem _ mem, on⟩)
    obtain ⟨inv', one⟩ := lawful.update inv (sets entry List.mem_cons_self) here
    obtain ⟨inv'', all⟩ := ih (fun other mem => sets other (List.mem_cons_of_mem _ mem)) rest inv'
    refine ⟨inv'', fun n => ?_⟩
    have split : coversMap (entry :: bitMapInfo) n =
      (covers entry.1 entry.2.mask n || coversMap bitMapInfo n) := rfl
    rw [split, Bool.and_or_distrib_left, ← Bool.or_assoc, ← one n]
    exact all n

theorem coversMap_activeSet2bitMap (alwaysActive activeId : Finset ℕ) (curId : ℤ) (n : ℕ) :
    coversMap (activeSet2bitMap alwaysActive curId activeId).2 n =
      outsideOwnWord alwaysActive activeId curId n := by
  rw [(activeSet2bitMap_spec alwaysActive curId activeId).others n, Bool.eq_iff_iff, outsideOwnWord]
  simp only [List.any_eq_true, Finset.mem_sort, Bool.and_eq_true, decide_eq_true_eq]
  constructor
  · rintro ⟨id, mem, ⟨sometimes, other⟩, rfl⟩
    exact ⟨⟨mem, sometimes⟩, other⟩
  · rintro ⟨⟨mem, sometimes⟩, other⟩
    exact ⟨n, mem, ⟨sometimes, other⟩, rfl⟩

/-- The map of a set of supers fits into the flags. -/
theorem lt_of_outsideOwnWord {superId : ℕ} {alwaysActive activeId : Finset ℕ} {curId : ℤ}
    (within : ∀ id ∈ activeId, id < superId) {n : ℕ}
    (on : outsideOwnWord alwaysActive activeId curId n = true) : n < 8 * activeFlagNum superId := by
  simp only [outsideOwnWord, Bool.and_eq_true, decide_eq_true_eq] at on
  exact (within n on.1.1).trans_le (le_activeFlagNum superId)

variable (alwaysActive : Finset ℕ)

theorem Sink.Lawful.activate {superId : ℕ} (lawful : sink.Lawful (activeFlagNum superId) Inv stands)
    {state : σ} (inv : Inv state) {activation : Activation} (within : activation.Within superId) :
    Inv (sink.activate alwaysActive state activation) ∧
    ∀ n, stands (sink.activate alwaysActive state activation) n =
      (stands state n || activation.sets alwaysActive (activeFlagNum superId) n) := by
  cases activation with
  | all => exact lawful.activateAll inv
  | uncond activeId curId =>
    have fits : ∀ n, coversMap (activeSet2bitMap alwaysActive curId activeId).2 n = true →
        n < 8 * activeFlagNum superId := by
      intro n on
      rw [coversMap_activeSet2bitMap] at on
      exact lt_of_outsideOwnWord within on
    obtain ⟨inv', all⟩ := lawful.updates (fun _ _ => sets_updateActiveStr sink.buffered _ _) fits inv
    refine ⟨inv', fun n => (all n).trans ?_⟩
    rw [Bool.true_and, coversMap_activeSet2bitMap]
    rfl
  | next activeId curId cond =>
    have fits : ∀ n, coversMap (activeSet2bitMap alwaysActive curId activeId).2 n = true →
        n < 8 * activeFlagNum superId := by
      intro n on
      rw [coversMap_activeSet2bitMap] at on
      exact lt_of_outsideOwnWord within on
    have unique := (activeSet2bitMap_spec alwaysActive curId activeId).map.unique
    simp only [Sink.activate, Activation.updates, Activation.sets]
    split
    · obtain ⟨inv', all⟩ := lawful.updates
        (fun entry mem => sets_updateActiveStrCond sink.buffered entry.1 (unique entry mem) cond) fits inv
      refine ⟨inv', fun n => (all n).trans ?_⟩
      rw [coversMap_activeSet2bitMap]
    · cases cond with
      | false => exact ⟨inv, by simp⟩
      | true =>
        obtain ⟨inv', all⟩ := lawful.updates (fun _ _ => sets_updateActiveStr sink.buffered _ _) fits inv
        refine ⟨inv', fun n => (all n).trans ?_⟩
        rw [coversMap_activeSet2bitMap]

theorem Sink.Lawful.run {superId : ℕ} (lawful : sink.Lawful (activeFlagNum superId) Inv stands)
    {state : σ} (inv : Inv state) {activations : List Activation}
    (within : ∀ activation ∈ activations, activation.Within superId) :
    Inv (sink.run alwaysActive state activations) ∧
    ∀ n, stands (sink.run alwaysActive state activations) n =
      (stands state n || activations.any fun activation =>
        activation.sets alwaysActive (activeFlagNum superId) n) := by
  induction activations generalizing state with
  | nil => exact ⟨inv, by simp [Sink.run]⟩
  | cons activation activations ih =>
    obtain ⟨inv', one⟩ := lawful.activate alwaysActive inv (within activation List.mem_cons_self)
    obtain ⟨inv'', all⟩ := ih inv' fun other mem => within other (List.mem_cons_of_mem _ mem)
    refine ⟨inv'', fun n => ?_⟩
    rw [List.any_cons, ← Bool.or_assoc, ← one n]
    exact all n

end Lawful

/-! ## The three sinks stand for the same flags -/

section Laws

variable {activeWords : ℕ}

theorem flag_ones {activeFlags : ℕ → BitVec 8} (n : ℕ) :
    flag (fun w => if w < activeWords then 0xff else activeFlags w) n =
      (flag activeFlags n || decide (n < 8 * activeWords)) := by
  rw [flag, flag]
  by_cases lt : n / 8 < activeWords
  · have one : (0xff#8).getLsbD (n % 8) = true := by
      have bit : n % 8 < 8 := Nat.mod_lt n (by decide)
      interval_cases n % 8 <;> rfl
    rw [if_pos lt, decide_eq_true (by omega : n < 8 * activeWords), Bool.or_true]
    exact one
  · rw [if_neg lt, decide_eq_false (by omega : ¬ n < 8 * activeWords), Bool.or_false]

theorem directSink_lawful :
    (directSink activeWords).Lawful activeWords (fun _ => True) flag where
  update := by
    intro state idx mask cond update _ sets _
    exact ⟨trivial, flag_applyFlags sets state⟩
  activateAll := fun _ => ⟨trivial, flag_ones⟩

/-- The loop of `orWord`, given what one round does. -/
theorem foldl_orByte {σ : Type} {Inv : σ → Prop} {stands : σ → ℕ → Bool} {orByte : σ → ℕ → σ} {idx : ℕ}
    {mask : BitVec 64}
    (round : ∀ state i, Inv state → idx + i < activeWords → Inv (orByte state i) ∧
      ∀ n, stands (orByte state i) n =
        (stands state n || decide (n / 8 = idx + i) && covers idx mask n))
    {state : σ} (inv : Inv state) {rounds : ℕ} (inside : idx + rounds ≤ activeWords ∨ rounds = 0) :
    Inv ((List.range rounds).foldl orByte state) ∧
      ∀ n, stands ((List.range rounds).foldl orByte state) n =
        (stands state n || decide (idx ≤ n / 8 ∧ n / 8 < idx + rounds) && covers idx mask n) := by
  induction rounds with
  | zero =>
    refine ⟨inv, fun n => ?_⟩
    rw [decide_eq_false (by omega : ¬ (idx ≤ n / 8 ∧ n / 8 < idx + 0)), Bool.false_and, Bool.or_false]
    rfl
  | succ rounds ih =>
    obtain ⟨inv', before⟩ := ih (by omega)
    obtain ⟨inv'', here⟩ := round _ rounds inv' (by omega)
    rw [List.range_succ, List.foldl_append]
    refine ⟨inv'', fun n => (here n).trans ?_⟩
    rw [before n, Bool.or_assoc, ← Bool.and_or_distrib_right]
    congr 2
    by_cases last : n / 8 = idx + rounds
    · simp [last]
    · rw [decide_eq_false last, Bool.or_false]
      apply decide_eq_decide.mpr
      omega

/-- All rounds together, when the mask fits. -/
theorem foldl_orWord {σ : Type} (Inv : σ → Prop) (stands : σ → ℕ → Bool) (orByte : σ → ℕ → σ) {idx : ℕ}
    {mask : BitVec 64}
    (round : ∀ state i, Inv state → idx + i < activeWords → Inv (orByte state i) ∧
      ∀ n, stands (orByte state i) n =
        (stands state n || decide (n / 8 = idx + i) && covers idx mask n))
    {state : σ} (inv : Inv state) (fits : ∀ n, covers idx mask n = true → n < 8 * activeWords) :
    Inv ((List.range (min 8 (activeWords - idx))).foldl orByte state) ∧
      ∀ n, stands ((List.range (min 8 (activeWords - idx))).foldl orByte state) n =
        (stands state n || covers idx mask n) := by
  obtain ⟨inv', all⟩ := foldl_orByte round inv
    (by omega : idx + min 8 (activeWords - idx) ≤ activeWords ∨ min 8 (activeWords - idx) = 0)
  refine ⟨inv', fun n => (all n).trans ?_⟩
  congr 1
  cases on : covers idx mask n with
  | false => rw [Bool.and_false]
  | true =>
    have below := fits n on
    have bits : 8 * idx ≤ n ∧ n - 8 * idx < 64 := by
      rw [covers, Bool.and_eq_true, decide_eq_true_eq] at on
      refine ⟨on.1, ?_⟩
      by_contra past
      rw [BitVec.getLsbD_of_ge _ _ (by omega)] at on
      cases on.2
    rw [Bool.and_true]
    apply decide_eq_true
    omega

theorem flag_update (bytes : ℕ → BitVec 8) (w : ℕ) (value : BitVec 8) (n : ℕ) :
    flag (Function.update bytes w (bytes w ||| value)) n =
      (flag bytes n || decide (n / 8 = w) && value.getLsbD (n % 8)) := by
  unfold flag
  by_cases here : n / 8 = w
  · subst here
    simp
  · simp [here]

/-- The flags of one byte of a mask. -/
theorem covers_byte {idx i n : ℕ} (mask : BitVec 64) :
    (decide (n / 8 = idx + i) && (byte mask i).getLsbD (n % 8)) =
      (decide (n / 8 = idx + i) && covers idx mask n) := by
  by_cases here : n / 8 = idx + i
  · have place : n / 8 - idx = i := by omega
    rw [← getLsbD_byte_sub mask (by omega : 8 * idx ≤ n), place]
  · rw [decide_eq_false here, Bool.false_and, Bool.false_and]

theorem fits_gated {idx : ℕ} {mask : BitVec 64}
    (fits : ∀ n, covers idx mask n = true → n < 8 * activeWords) (cond : Bool) (n : ℕ)
    (on : covers idx (gated cond mask) n = true) : n < 8 * activeWords := by
  rw [covers_gated, Bool.and_eq_true] at on
  exact fits n on.2

/-! ### The buffer -/

/-- The words that are not zero are the ones touched. -/
structure ActiveBuffer.Inv (activeWords : ℕ) (buffer : ActiveBuffer) : Prop where
  inside : ∀ w, buffer.words w ≠ 0 → w < activeWords
  touched : buffer.allActive = false → ∀ w, w ∈ buffer.touchedWords ↔ buffer.words w ≠ 0
  bounded : ∀ w ∈ buffer.touchedWords, w < activeWords
  nodup : buffer.touchedWords.Nodup

theorem ActiveBuffer.inv_init (activeWords : ℕ) : ActiveBuffer.init.Inv activeWords :=
  ⟨by simp [init], by simp [init], by simp [init], by simp [init]⟩

theorem ActiveBuffer.Inv.clear_eq {buffer : ActiveBuffer} (inv : buffer.Inv activeWords) :
    buffer.clear activeWords = init := by
  unfold ActiveBuffer.clear
  cases all : buffer.allActive with
  | true =>
    rw [if_pos rfl]
    unfold init
    congr 1
    funext w
    split
    · rfl
    · rename_i outside
      by_contra nonzero
      exact outside (inv.inside w nonzero)
  | false =>
    rw [if_neg Bool.false_ne_true]
    unfold init
    congr 1
    funext w
    split
    · rfl
    · rename_i untouched
      by_contra nonzero
      exact untouched ((inv.touched all w).mpr nonzero)

theorem or_ne_zero {a b : BitVec 8} (ne : b ≠ 0) : a ||| b ≠ 0 := by
  intro zero
  exact ne (BitVec.or_eq_zero_iff.mp zero).2

theorem ActiveBuffer.Inv.orByte {idx : ℕ} {mask : BitVec 64} {buffer : ActiveBuffer}
    (inv : buffer.Inv activeWords) {i : ℕ} (inside : idx + i < activeWords) :
    (buffer.orByte idx mask i).Inv activeWords ∧
    ∀ n, flag (buffer.orByte idx mask i).words n =
      (flag buffer.words n || decide (n / 8 = idx + i) && covers idx mask n) := by
  unfold ActiveBuffer.orByte
  simp only
  split
  · rename_i zero
    refine ⟨inv, fun n => ?_⟩
    rw [← covers_byte, zero]
    simp
  · rename_i nonzero
    constructor
    · have words : ∀ w, Function.update buffer.words (idx + i)
          (buffer.words (idx + i) ||| byte mask i) w ≠ 0 ↔ w = idx + i ∨ buffer.words w ≠ 0 := by
        intro w
        by_cases here : w = idx + i
        · subst here
          simpa using or_ne_zero nonzero
        · simp [here]
      refine ⟨fun w on => ?_, fun some w => ?_, fun w mem => ?_, ?_⟩
      · rcases (words w).mp on with rfl | on
        · exact inside
        · exact inv.inside w on
      · simp only at some
        rw [words w]
        split
        · rw [List.mem_append, List.mem_singleton, inv.touched some w, or_comm]
        · rename_i known
          have there : buffer.words (idx + i) ≠ 0 := fun zero => known ⟨some, zero⟩
          rw [inv.touched some w]
          constructor
          · exact .inr
          · rintro (rfl | on)
            · exact there
            · exact on
      · simp only at mem
        split at mem
        · rcases List.mem_append.mp mem with mem | last
          · exact inv.bounded w mem
          · rw [List.mem_singleton.mp last]
            exact inside
        · exact inv.bounded w mem
      · simp only
        split
        · rename_i fresh
          refine inv.nodup.append (List.nodup_singleton _) ?_
          intro w mem last
          rw [List.mem_singleton.mp last, inv.touched fresh.1] at mem
          exact mem fresh.2
        · exact inv.nodup
    · intro n
      rw [flag_update, covers_byte]

theorem bufferSink_lawful :
    (bufferSink activeWords).Lawful activeWords (ActiveBuffer.Inv activeWords) fun buffer =>
      flag buffer.words where
  update := by
    intro buffer idx mask cond update inv sets fits
    obtain ⟨value, eval, rfl⟩ := sets
    simp only [bufferSink, eval]
    obtain ⟨inv', all⟩ := foldl_orWord (ActiveBuffer.Inv activeWords) (fun buffer => flag buffer.words)
      (ActiveBuffer.orByte idx (gated cond mask)) (fun _ _ inv inside => inv.orByte inside) inv
      (fits_gated fits cond)
    refine ⟨inv', fun n => (all n).trans ?_⟩
    rw [covers_gated]
  activateAll := by
    intro buffer inv
    refine ⟨⟨fun w on => ?_, fun none => ?_, by simp [bufferSink, ActiveBuffer.activateAll],
      List.nodup_nil⟩, flag_ones⟩
    · by_contra outside
      simp only [bufferSink, ActiveBuffer.activateAll, if_neg outside] at on
      exact outside (inv.inside w on)
    · cases none

theorem ActiveBuffer.flag_mergeTouched {words activeFlags : ℕ → BitVec 8} {touched : List ℕ} (n : ℕ) :
    flag (touched.foldl (fun flags w => Function.update flags w (flags w ||| words w)) activeFlags) n =
      (flag activeFlags n || decide (n / 8 ∈ touched) && flag words n) := by
  induction touched generalizing activeFlags with
  | nil => simp
  | cons w touched ih =>
    rw [List.foldl_cons, ih, flag_update, Bool.or_assoc]
    congr 1
    by_cases here : n / 8 = w
    · subst here
      simp [flag]
    · simp [here]

theorem ActiveBuffer.Inv.flag_mergeFrom {buffer : ActiveBuffer} (inv : buffer.Inv activeWords)
    (activeFlags : ℕ → BitVec 8) (n : ℕ) :
    flag (buffer.mergeFrom activeWords activeFlags) n = (flag activeFlags n || flag buffer.words n) := by
  have zero : ∀ {w}, buffer.words w = 0 → w = n / 8 → flag buffer.words n = false := by
    intro w zero here
    subst here
    simp [flag, zero]
  unfold ActiveBuffer.mergeFrom
  cases all : buffer.allActive with
  | true =>
    rw [if_pos rfl, flag]
    split
    · rw [BitVec.getLsbD_or]
      rfl
    · rename_i outside
      have off : buffer.words (n / 8) = 0 := by
        by_contra nonzero
        exact outside (inv.inside _ nonzero)
      rw [zero off rfl, Bool.or_false]
      rfl
  | false =>
    rw [if_neg Bool.false_ne_true, ActiveBuffer.flag_mergeTouched]
    congr 1
    by_cases touched : n / 8 ∈ buffer.touchedWords
    · rw [decide_eq_true touched, Bool.true_and]
    · have off : buffer.words (n / 8) = 0 := by
        by_contra nonzero
        exact touched ((inv.touched all _).mpr nonzero)
      rw [zero off rfl, Bool.and_false]

/-! ### The list of entries -/

def ActivationDelta.Inv (activeWords : ℕ) (delta : ActivationDelta) : Prop :=
  ∀ entry ∈ delta.entries, entry.1 < activeWords

/-- The flags of the entries. -/
def entryFlags (entries : List (ℕ × BitVec 64)) (n : ℕ) : Bool :=
  entries.any fun entry => decide (n / 8 = entry.1) && entry.2.getLsbD (n % 8)

def ActivationDelta.stands (activeWords : ℕ) (delta : ActivationDelta) (n : ℕ) : Bool :=
  delta.allActive && decide (n < 8 * activeWords) || entryFlags delta.entries n

theorem ActivationDelta.inv_init (activeWords : ℕ) : ActivationDelta.init.Inv activeWords := by
  intro entry mem
  cases mem

theorem ActivationDelta.Inv.lt_of_entryFlags {delta : ActivationDelta} (inv : delta.Inv activeWords) {n : ℕ}
    (on : entryFlags delta.entries n = true) : n < 8 * activeWords := by
  obtain ⟨entry, mem, on⟩ := List.any_eq_true.mp on
  rw [Bool.and_eq_true, decide_eq_true_eq] at on
  have inside := inv entry mem
  omega

theorem ActivationDelta.Inv.orByte {idx : ℕ} {mask : BitVec 64} {delta : ActivationDelta}
    (inv : delta.Inv activeWords) {i : ℕ} (inside : idx + i < activeWords) :
    (delta.orByte idx mask i).Inv activeWords ∧
    ∀ n, (delta.orByte idx mask i).stands activeWords n =
      (delta.stands activeWords n || decide (n / 8 = idx + i) && covers idx mask n) := by
  unfold ActivationDelta.orByte
  simp only
  split
  · rename_i zero
    refine ⟨inv, fun n => ?_⟩
    rw [← covers_byte, zero]
    simp
  · constructor
    · intro entry mem
      rcases List.mem_append.mp mem with mem | last
      · exact inv entry mem
      · rw [List.mem_singleton.mp last]
        exact inside
    · intro n
      have low : ((byte mask i).setWidth 64).getLsbD (n % 8) = (byte mask i).getLsbD (n % 8) := by
        rw [BitVec.getLsbD_setWidth, decide_eq_true (by omega : n % 8 < 64), Bool.true_and]
      simp only [ActivationDelta.stands, entryFlags]
      rw [List.any_append, List.any_cons, List.any_nil, Bool.or_false, low, covers_byte, Bool.or_assoc]

theorem deltaSink_lawful :
    (deltaSink activeWords).Lawful activeWords (ActivationDelta.Inv activeWords)
      (ActivationDelta.stands activeWords) where
  update := by
    intro delta idx mask cond update inv sets fits
    obtain ⟨value, eval, rfl⟩ := sets
    simp only [deltaSink, eval]
    obtain ⟨inv', all⟩ := foldl_orWord (ActivationDelta.Inv activeWords)
      (ActivationDelta.stands activeWords) (ActivationDelta.orByte idx (gated cond mask))
      (fun _ _ inv inside => ActivationDelta.Inv.orByte inv inside) inv (fits_gated fits cond)
    refine ⟨inv', fun n => (all n).trans ?_⟩
    rw [covers_gated]
  activateAll := by
    intro delta inv
    refine ⟨inv, fun n => ?_⟩
    simp only [deltaSink, ActivationDelta.activateAll, ActivationDelta.stands]
    cases on : entryFlags delta.entries n with
    | false => cases delta.allActive <;> simp
    | true => simp [inv.lt_of_entryFlags on]

theorem ActivationDelta.flag_mergeEntries {entries : List (ℕ × BitVec 64)} {activeFlags : ℕ → BitVec 8}
    (n : ℕ) :
    flag (entries.foldl
        (fun flags entry => Function.update flags entry.1 (flags entry.1 ||| entry.2.setWidth 8)) activeFlags) n =
      (flag activeFlags n || entryFlags entries n) := by
  induction entries generalizing activeFlags with
  | nil => simp [entryFlags]
  | cons entry entries ih =>
    have low : (entry.2.setWidth 8).getLsbD (n % 8) = entry.2.getLsbD (n % 8) := by
      rw [BitVec.getLsbD_setWidth, decide_eq_true (by omega : n % 8 < 8), Bool.true_and]
    rw [List.foldl_cons, ih, flag_update, low, Bool.or_assoc]
    rfl

theorem ActivationDelta.Inv.flag_mergeInto {delta : ActivationDelta} (inv : delta.Inv activeWords)
    (activeFlags : ℕ → BitVec 8) (n : ℕ) :
    flag (delta.mergeInto activeWords activeFlags) n =
      (flag activeFlags n || delta.stands activeWords n) := by
  unfold ActivationDelta.mergeInto ActivationDelta.stands
  cases delta.allActive with
  | true =>
    rw [if_pos rfl, flag_ones, Bool.true_and]
    cases on : entryFlags delta.entries n with
    | false => rw [Bool.or_false]
    | true => simp [inv.lt_of_entryFlags on]
  | false =>
    rw [if_neg Bool.false_ne_true, ActivationDelta.flag_mergeEntries]
    rfl

end Laws

/-! ## The local mask -/

section Own

variable (alwaysActive activeId : Finset ℕ) (curId : ℤ)

/-- The ids in the local mask, by their bit. -/
def insideOwnWord (i : ℕ) : Bool :=
  decide (∃ id ∈ activeId, id ∉ alwaysActive ∧ inOwnWord curId id = true ∧ id % 8 = i)

theorem getLsbD_ownMask (i : ℕ) :
    (activeSet2bitMap alwaysActive curId activeId).1.mask.getLsbD i =
      insideOwnWord alwaysActive activeId curId i := by
  rw [(activeSet2bitMap_spec alwaysActive curId activeId).cur i, Bool.eq_iff_iff, insideOwnWord]
  simp only [List.any_eq_true, Finset.mem_sort, Bool.and_eq_true, decide_eq_true_eq, and_assoc]
  constructor
  · rintro ⟨id, mem, sometimes, own, rfl⟩
    exact ⟨id, mem, sometimes, own, rfl⟩
  · rintro ⟨id, mem, sometimes, own, rfl⟩
    exact ⟨id, mem, sometimes, own, rfl⟩

theorem ownMask_lt : (activeSet2bitMap alwaysActive curId activeId).1.mask.toNat < 2 ^ 8 := by
  apply Nat.lt_pow_two_of_testBit
  intro i high
  rw [BitVec.testBit_toNat, getLsbD_ownMask]
  apply decide_eq_false
  rintro ⟨id, -, -, -, rfl⟩
  omega

theorem getLsbD_or_ownMask (flags : BitVec 8) {i : ℕ} (lt : i < 8) :
    (flags ||| (activeSet2bitMap alwaysActive curId activeId).1.mask.setWidth 8).getLsbD i =
      (flags.getLsbD i || insideOwnWord alwaysActive activeId curId i) := by
  rw [BitVec.getLsbD_or, BitVec.getLsbD_setWidth, decide_eq_true lt, Bool.true_and, getLsbD_ownMask]

theorem insideOwnWord_of_zero (zero : (activeSet2bitMap alwaysActive curId activeId).1.mask = 0) (i : ℕ) :
    insideOwnWord alwaysActive activeId curId i = false := by
  rw [← getLsbD_ownMask, zero]
  simp

theorem getLsbD_ownFlagUncond (flags : BitVec 8) {i : ℕ} (lt : i < 8) :
    (ownFlagUncond alwaysActive activeId curId flags).getLsbD i =
      (flags.getLsbD i || insideOwnWord alwaysActive activeId curId i) := by
  unfold ownFlagUncond
  simp only
  split
  · exact getLsbD_or_ownMask alwaysActive activeId curId flags lt
  · rename_i zero
    rw [insideOwnWord_of_zero _ _ _ (not_not.mp zero), Bool.or_false]

theorem getLsbD_ownFlagNext (cond : Bool) (flags : BitVec 8) {i : ℕ} (lt : i < 8) :
    (ownFlagNext alwaysActive activeId curId cond flags).getLsbD i =
      (flags.getLsbD i || cond && insideOwnWord alwaysActive activeId curId i) := by
  unfold ownFlagNext
  simp only
  split
  · have eval := eval_masked cond (by simp : 8 ∈ [8, 16, 32, 64]) (ownMask_lt alwaysActive activeId curId)
    have own := getLsbD_or_ownMask alwaysActive activeId curId flags lt
    rw [eval]
    cases cond with
    | true =>
      rw [Bool.true_and]
      split
      · exact own
      · exact own
    | false =>
      split
      · simp [gated]
      · simp
  · rename_i zero
    rw [insideOwnWord_of_zero _ _ _ (not_not.mp zero), Bool.and_false, Bool.or_false]

end Own

/-! ## Activations are exact -/

/-- The wide accesses stay inside of `activeFlags`. -/
theorem inside_of_within {superId : ℕ} {alwaysActive activeId : Finset ℕ} {curId : ℤ}
    (within : ∀ id ∈ activeId, id < superId) {entry : ℕ × ActiveType}
    (mem : entry ∈ (activeSet2bitMap alwaysActive curId activeId).2) {update : ActiveUpdate} {cond : Bool}
    (sets : update.Sets false entry.1 entry.2.mask cond) :
    ∃ width idx value, update = .flags width idx value ∧ idx + width / 8 ≤ activeFlagNum superId := by
  have map := (activeSet2bitMap_spec alwaysActive curId activeId).map
  obtain ⟨value, -, width, known, -, narrow, rfl⟩ := sets
  refine ⟨width, entry.1, value, rfl, ?_⟩
  -- the entry has a flag, so its word is one of the flags' words
  obtain ⟨i, bit⟩ : ∃ i, entry.2.mask.getLsbD i = true := by
    by_contra none
    apply map.nonzero entry mem
    apply BitVec.eq_of_getLsbD_eq
    intro i _
    simpa using fun on => none ⟨i, on⟩
  have on : covers entry.1 entry.2.mask (8 * entry.1 + i) = true := by
    rw [covers, decide_eq_true (by omega), Nat.add_sub_cancel_left, bit]
    rfl
  have below := lt_of_outsideOwnWord within
    ((coversMap_activeSet2bitMap alwaysActive activeId curId _).symm.trans
      (coversMap_iff.mpr ⟨entry, mem, on⟩))
  have groups : activeFlagNum superId % 8 = 0 := Nat.mul_mod_left _ _
  simp only [List.mem_cons, List.not_mem_nil, or_false] at known
  by_cases start : entry.1 % 8 = 0
  · omega
  · have small : entry.2.mask.toNat < 2 ^ 8 := by
      apply Nat.lt_pow_two_of_testBit
      intro j high
      rw [BitVec.testBit_toNat]
      exact map.small entry mem start j high
    have byte : maskWidth entry.2.mask = 8 := if_pos (by omega)
    omega

theorem updates_inside {superId : ℕ} {alwaysActive : Finset ℕ} {activation : Activation}
    (within : activation.Within superId) :
    ∀ statement ∈ activation.updates alwaysActive false, ∃ width idx value,
      statement.1 = .flags width idx value ∧ idx + width / 8 ≤ activeFlagNum superId := by
  intro statement mem
  cases activation with
  | all => cases mem
  | uncond activeId curId =>
    obtain ⟨entry, there, rfl⟩ := List.mem_map.mp mem
    exact inside_of_within within there (sets_updateActiveStr false _ _)
  | next activeId curId cond =>
    have unique := (activeSet2bitMap_spec alwaysActive curId activeId).map.unique
    simp only [Activation.updates] at mem
    split at mem
    · obtain ⟨entry, there, rfl⟩ := List.mem_map.mp mem
      exact inside_of_within within there (sets_updateActiveStrCond false _ (unique entry there) cond)
    · split at mem
      · obtain ⟨entry, there, rfl⟩ := List.mem_map.mp mem
        exact inside_of_within within there (sets_updateActiveStr false _ _)
      · cases mem

/-- One activation sets the flags of its ids that are not always active, and no others. -/
structure MasksExact (superId : ℕ) (alwaysActive activeId : Finset ℕ) (curId : ℤ) : Prop where
  next : ∀ cond activeFlags n,
    flag ((directSink (activeFlagNum superId)).activate alwaysActive activeFlags (.next activeId curId cond)) n =
      (flag activeFlags n || cond && outsideOwnWord alwaysActive activeId curId n)
  ownNext : ∀ cond flags i, i < 8 → (ownFlagNext alwaysActive activeId curId cond flags).getLsbD i =
    (flags.getLsbD i || cond && insideOwnWord alwaysActive activeId curId i)
  uncond : ∀ activeFlags n,
    flag ((directSink (activeFlagNum superId)).activate alwaysActive activeFlags (.uncond activeId curId)) n =
      (flag activeFlags n || outsideOwnWord alwaysActive activeId curId n)
  ownUncond : ∀ flags i, i < 8 → (ownFlagUncond alwaysActive activeId curId flags).getLsbD i =
    (flags.getLsbD i || insideOwnWord alwaysActive activeId curId i)
  inside : ∀ cond, ∀ statement ∈ (Activation.next activeId curId cond).updates alwaysActive false ++
    (Activation.uncond activeId curId).updates alwaysActive false, ∃ width idx value,
      statement.1 = .flags width idx value ∧ idx + width / 8 ≤ activeFlagNum superId

/-- The buffer, or the list, after earlier activations, a `clear`, the given ones and a merge. -/
structure SinksAgree (superId : ℕ) (alwaysActive : Finset ℕ) (before activations : List Activation) :
    Prop where
  buffer : ∀ activeFlags,
    ((bufferSink (activeFlagNum superId)).run alwaysActive
      (((bufferSink (activeFlagNum superId)).run alwaysActive ActiveBuffer.init before).clear
        (activeFlagNum superId)) activations).mergeFrom (activeFlagNum superId) activeFlags =
      (directSink (activeFlagNum superId)).run alwaysActive activeFlags activations
  delta : ∀ activeFlags,
    ((deltaSink (activeFlagNum superId)).run alwaysActive
      ((deltaSink (activeFlagNum superId)).run alwaysActive ActivationDelta.init before).clear
        activations).mergeInto (activeFlagNum superId) activeFlags =
      (directSink (activeFlagNum superId)).run alwaysActive activeFlags activations

theorem masksExact_of_within {superId : ℕ} (alwaysActive : Finset ℕ) {activeId : Finset ℕ} (curId : ℤ)
    (within : ∀ id ∈ activeId, id < superId) : MasksExact superId alwaysActive activeId curId where
  next := by
    intro cond activeFlags
    have within' : (Activation.next activeId curId cond).Within superId := within
    exact (directSink_lawful.activate alwaysActive trivial within').2
  ownNext := fun cond flags i => getLsbD_ownFlagNext alwaysActive activeId curId cond flags
  uncond := by
    intro activeFlags
    have within' : (Activation.uncond activeId curId).Within superId := within
    exact (directSink_lawful.activate alwaysActive trivial within').2
  ownUncond := fun flags i => getLsbD_ownFlagUncond alwaysActive activeId curId flags
  inside := by
    intro cond statement mem
    rcases List.mem_append.mp mem with mem | mem
    · have within' : (Activation.next activeId curId cond).Within superId := within
      exact updates_inside within' statement mem
    · have within' : (Activation.uncond activeId curId).Within superId := within
      exact updates_inside within' statement mem

theorem sinksAgree_of_within {superId : ℕ} (alwaysActive : Finset ℕ) {before activations : List Activation}
    (within : ∀ activation ∈ before ++ activations, activation.Within superId) :
    SinksAgree superId alwaysActive before activations := by
  have withinBefore : ∀ activation ∈ before, activation.Within superId :=
    fun activation mem => within activation (List.mem_append_left _ mem)
  have withinAfter : ∀ activation ∈ activations, activation.Within superId :=
    fun activation mem => within activation (List.mem_append_right _ mem)
  have direct : ∀ activeFlags n,
      flag ((directSink (activeFlagNum superId)).run alwaysActive activeFlags activations) n =
        (flag activeFlags n || activations.any fun activation =>
          activation.sets alwaysActive (activeFlagNum superId) n) :=
    fun activeFlags => (directSink_lawful.run alwaysActive trivial withinAfter).2
  constructor
  · intro activeFlags
    have empty := ActiveBuffer.inv_init (activeFlagNum superId)
    have cleared := (bufferSink_lawful.run alwaysActive empty withinBefore).1.clear_eq
    obtain ⟨inv, stands⟩ := bufferSink_lawful.run alwaysActive empty withinAfter
    apply ext_flag
    intro n
    rw [cleared, inv.flag_mergeFrom, stands n, direct activeFlags n]
    simp [ActiveBuffer.init, flag]
  · intro activeFlags
    have empty := ActivationDelta.inv_init (activeFlagNum superId)
    obtain ⟨inv, stands⟩ := deltaSink_lawful.run alwaysActive empty withinAfter
    apply ext_flag
    intro n
    rw [ActivationDelta.clear, ← ActivationDelta.init, inv.flag_mergeInto, stands n, direct activeFlags n]
    simp [ActivationDelta.init, ActivationDelta.stands, entryFlags]

/-- Masks stand for the set they were made from, and the flags, the buffer and the list of entries
    take them alike. -/
theorem activationMasks_exact (superId : ℕ) (alwaysActive : Finset ℕ) :
    (∀ (activeId : Finset ℕ) (curId : ℤ), (∀ id ∈ activeId, id < superId) →
      MasksExact superId alwaysActive activeId curId) ∧
    ∀ before activations : List Activation,
      (∀ activation ∈ before ++ activations, activation.Within superId) →
        SinksAgree superId alwaysActive before activations :=
  ⟨fun _ curId within => masksExact_of_within alwaysActive curId within,
    fun _ _ within => sinksAgree_of_within alwaysActive within⟩

/-- Two ids in the own word, of which one is always active, and a group over three words. -/
theorem activationMasks_exact_group :
    MasksExact 32 {5} {3, 5, 9, 17, 30} 1 ∧
    SinksAgree 32 {5} [.all] [.next {3, 5, 9, 17, 30} 1 true, .uncond {9} (-1)] := by
  obtain ⟨masks, sinks⟩ := activationMasks_exact 32 {5}
  refine ⟨masks {3, 5, 9, 17, 30} 1 (by decide), sinks _ _ ?_⟩
  intro activation mem
  simp only [List.cons_append, List.nil_append, List.mem_cons, List.not_mem_nil, or_false] at mem
  rcases mem with rfl | rfl | rfl
  · trivial
  · simp [Activation.Within]
  · simp [Activation.Within]

end Gsim.ActiveMasks
