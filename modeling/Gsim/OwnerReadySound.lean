/-
  Gsim/OwnerReadySound.lean
  =========================
  **The owner-ready layout, as a whole.**

  What `mtBuildDenseOwnerReadyLayout` returns is stated here in terms of the runtime
  edges alone: one token per (producer owner, consumer), its slot stored once and
  waited for once, banks on cache lines of their own, and every edge covered.  The
  function refuses edges inside a worker, so it is only total on graphs without them.
-/
import Gsim.OwnerReadyFacts

namespace Gsim

/-- A layout read off the runtime edges. -/
structure LayoutSound (runtimeSuccs : List (List Nat)) (assignment : List Int)
    (layout : MtDenseOwnerReadyLayout) : Prop where
  /-- one token for every (producer owner, consumer) with an edge, and no other -/
  token_iff : ∀ owner consumer,
    (∃ source, Edge runtimeSuccs source consumer ∧ assignAt assignment source = owner) ↔
      ∃ t ∈ layout.tokenProvenanceByLogicalToken, t.producerOwner = owner ∧ t.consumerMTask = consumer
  token_unique : ∀ t ∈ layout.tokenProvenanceByLogicalToken,
    ∀ t' ∈ layout.tokenProvenanceByLogicalToken, t.producerOwner = t'.producerOwner →
      t.consumerMTask = t'.consumerMTask → t = t'
  /-- every token has its own slot -/
  slots : (layout.tokenProvenanceByLogicalToken.map (·.readySlot)).Nodup
  consumerOwner : ∀ t ∈ layout.tokenProvenanceByLogicalToken,
    t.consumerOwner = assignAt assignment t.consumerMTask
  /-- the publisher is the source with the highest id -/
  producer : ∀ t ∈ layout.tokenProvenanceByLogicalToken,
    Edge runtimeSuccs t.producerMTask t.consumerMTask ∧
      assignAt assignment t.producerMTask = t.producerOwner ∧
      ∀ source, Edge runtimeSuccs source t.consumerMTask →
        assignAt assignment source = t.producerOwner → source ≤ t.producerMTask
  /-- one MTask stores into a slot, once -/
  stored : ∀ t ∈ layout.tokenProvenanceByLogicalToken, ∀ m,
    (succsAt layout.storeSlotsByMTask m).count t.readySlot = if m = t.producerMTask then 1 else 0
  /-- one MTask waits for a slot, once -/
  waited : ∀ t ∈ layout.tokenProvenanceByLogicalToken, ∀ m,
    (succsAt layout.waitSlotsByMTask m).count t.readySlot = if m = t.consumerMTask then 1 else 0
  /-- nothing is stored or waited for that is not the slot of a token -/
  onlyTokens : ∀ m slot, slot ∈ succsAt layout.storeSlotsByMTask m ∨
      slot ∈ succsAt layout.waitSlotsByMTask m →
    ∃ t ∈ layout.tokenProvenanceByLogicalToken, t.readySlot = slot
  lines : ∀ t ∈ layout.tokenProvenanceByLogicalToken,
    ∀ t' ∈ layout.tokenProvenanceByLogicalToken, t.readySlot / 64 = t'.readySlot / 64 →
      t.producerOwner = t'.producerOwner ∧ t.consumerOwner = t'.consumerOwner
  /-- an edge is covered by one of the slots its target waits for -/
  covered : ∀ source destination, Edge runtimeSuccs source destination →
    ∃! slot, slot ∈ succsAt layout.waitSlotsByMTask destination ∧
      ∃ i : Nat, layout.tokenProvenanceByLogicalToken[i]?.map (·.readySlot) = some slot ∧
        ∃ sources, layout.sourceMTasksByLogicalToken[i]? = some sources ∧ source ∈ sources

section Sound

variable {runtimeSuccs : List (List Nat)} {assignment : List Int} {threadCount : Nat}
  {layout : MtDenseOwnerReadyLayout}

/-- A layout that is returned has passed the check of `uniqueSlots`. -/
theorem mtBuildDenseOwnerReadyLayout_inv
    (h : mtBuildDenseOwnerReadyLayout runtimeSuccs assignment threadCount = some layout) :
    ∃ alloc : SlotAlloc,
      ((ownerReadyGroups runtimeSuccs assignment).map
        fun group => alloc.slot group.logicalToken).Nodup ∧
      layout = layoutOf runtimeSuccs (ownerReadyGroups runtimeSuccs assignment) alloc := by
  simp only [mtBuildDenseOwnerReadyLayout, Option.bind_eq_bind, Option.bind_eq_some_iff] at h
  obtain ⟨-, -, -, -, -, -, -, -, -, -, -, -, -, -, alloc, -, -, -, u, unique, -, -, -, -, -, -, eq⟩ := h
  exact ⟨alloc, of_decide_eq_true (Assert_eq_some.mp unique), (Option.some.inj eq).symm⟩

theorem slotsFor_nodup {groups : List OwnerReadyGroup} {slot : Nat → Option Nat}
    (h : (groups.map fun group => slot group.logicalToken).Nodup)
    (select : OwnerReadyGroup → Nat) (m : Nat) : (slotsFor groups slot select m).Nodup := by
  unfold slotsFor
  refine (List.perm_insertionSort _ _).nodup_iff.mpr ?_
  refine List.Pairwise.filterMap _ ?_ ((List.pairwise_map.mp h).filter _)
  intro g g' ne s hs s' hs' eq
  subst eq
  exact ne (hs.trans hs'.symm)

theorem succsAt_nodup {n : Nat} {groups : List OwnerReadyGroup} {slot : Nat → Option Nat}
    (h : (groups.map fun group => slot group.logicalToken).Nodup)
    (select : OwnerReadyGroup → Nat) (m : Nat) :
    (succsAt ((List.range n).map (slotsFor groups slot select)) m).Nodup := by
  rw [succsAt_map_range]
  split
  · exact slotsFor_nodup h select m
  · exact List.nodup_nil

/-- In lists without duplicates that hold a slot exactly at the MTask `select g`. -/
theorem count_slot {lists : List (List Nat)} {groups : List OwnerReadyGroup}
    {slot : OwnerReadyGroup → Nat} (select : OwnerReadyGroup → Nat)
    (nodup : ∀ m, (succsAt lists m).Nodup)
    (mem : ∀ m s, s ∈ succsAt lists m ↔ ∃ g ∈ groups, select g = m ∧ slot g = s)
    (inj : ∀ g ∈ groups, ∀ g' ∈ groups, slot g = slot g' → g = g') {g : OwnerReadyGroup}
    (hg : g ∈ groups) (m : Nat) :
    (succsAt lists m).count (slot g) = if m = select g then 1 else 0 := by
  split
  · rename_i eq
    exact List.count_eq_one_of_mem (nodup m) ((mem m _).mpr ⟨g, hg, eq.symm, rfl⟩)
  · rename_i ne
    refine List.count_eq_zero_of_not_mem fun h => ?_
    obtain ⟨g', hg', rfl, eq⟩ := (mem m _).mp h
    exact ne (congrArg select (inj g' hg' g hg eq))

theorem LayoutFacts.sound {slot : OwnerReadyGroup → Nat}
    (hok : RuntimeGraphOk runtimeSuccs assignment threadCount)
    (built : mtBuildDenseOwnerReadyLayout runtimeSuccs assignment threadCount = some layout)
    (facts : LayoutFacts runtimeSuccs assignment layout slot) :
    LayoutSound runtimeSuccs assignment layout := by
  obtain ⟨alloc, unique, rfl⟩ := mtBuildDenseOwnerReadyLayout_inv built
  have waitsNodup := succsAt_nodup (n := runtimeSuccs.length) unique (·.destination)
  have storesNodup := succsAt_nodup (n := runtimeSuccs.length) unique (·.lastSource)
  have groupsNodup : (ownerReadyGroups runtimeSuccs assignment).Nodup :=
    List.Nodup.of_map _ unique
  generalize layoutEq : layoutOf runtimeSuccs (ownerReadyGroups runtimeSuccs assignment) alloc =
    layout at facts
  have mem : ∀ t, t ∈ layout.tokenProvenanceByLogicalToken ↔
      ∃ g ∈ ownerReadyGroups runtimeSuccs assignment,
        (⟨slot g, g.lastSource, g.producerOwner, g.destination, g.consumerOwner⟩ :
          MtDenseOwnerReadyTokenProvenance) = t := by
    intro t
    rw [facts.provenance, List.mem_map]
  refine ⟨?_, ?_, ?_, ?_, ?_, ?_, ?_, ?_, ?_, ?_⟩
  · intro owner consumer
    constructor
    · rintro ⟨source, edge, rfl⟩
      obtain ⟨g, hg, dest, producer, -⟩ := exists_group assignment edge
      exact ⟨_, (mem _).mpr ⟨g, hg, rfl⟩, producer, dest⟩
    · rintro ⟨t, ht, rfl, rfl⟩
      obtain ⟨g, hg, rfl⟩ := (mem t).mp ht
      exact ⟨g.lastSource, (group_sources_iff hg).mp (group_lastSource hok hg).1⟩
  · intro t ht t' ht' owner consumer
    obtain ⟨g, hg, rfl⟩ := (mem t).mp ht
    obtain ⟨g', hg', rfl⟩ := (mem t').mp ht'
    rw [ownerReadyGroups_inj hg hg' consumer owner]
  · rw [facts.provenance, List.map_map]
    exact groupsNodup.map_on fun g hg g' hg' eq => facts.slot_inj g hg g' hg' eq
  · intro t ht
    obtain ⟨g, hg, rfl⟩ := (mem t).mp ht
    exact (mem_ownerReadyGroups hg).2.2.2
  · intro t ht
    obtain ⟨g, hg, rfl⟩ := (mem t).mp ht
    obtain ⟨last, highest⟩ := group_lastSource hok hg
    obtain ⟨edge, owner⟩ := (group_sources_iff hg).mp last
    refine ⟨edge, owner, fun source edge' owner' => ?_⟩
    exact highest source ((group_sources_iff hg).mpr ⟨edge', owner'⟩)
  · intro t ht m
    obtain ⟨g, hg, rfl⟩ := (mem t).mp ht
    refine count_slot (·.lastSource) ?_ facts.mem_stores facts.slot_inj hg m
    exact fun m => layoutEq ▸ storesNodup m
  · intro t ht m
    obtain ⟨g, hg, rfl⟩ := (mem t).mp ht
    refine count_slot (·.destination) ?_ facts.mem_waits facts.slot_inj hg m
    exact fun m => layoutEq ▸ waitsNodup m
  · rintro m s (stored | waited)
    · obtain ⟨g, hg, -, rfl⟩ := (facts.mem_stores m s).mp stored
      exact ⟨_, (mem _).mpr ⟨g, hg, rfl⟩, rfl⟩
    · obtain ⟨g, hg, -, rfl⟩ := (facts.mem_waits m s).mp waited
      exact ⟨_, (mem _).mpr ⟨g, hg, rfl⟩, rfl⟩
  · intro t ht t' ht' line
    obtain ⟨g, hg, rfl⟩ := (mem t).mp ht
    obtain ⟨g', hg', rfl⟩ := (mem t').mp ht'
    have pair := facts.slot_line g hg g' hg' line
    exact Prod.mk.inj (toLex.injective pair)
  · intro source destination edge
    obtain ⟨g, hg, dest, -, inSources⟩ := exists_group assignment edge
    have place := ownerReadyGroups_getElem?_token hg
    refine ⟨slot g, ⟨(facts.mem_waits _ _).mpr ⟨g, hg, dest, rfl⟩, g.logicalToken, ?_, g.sources,
      ?_, inSources⟩, ?_⟩
    · rw [facts.provenance, List.getElem?_map, place]
      rfl
    · rw [facts.sources, List.getElem?_map, place]
      rfl
    · -- another slot of the target belongs to another group, with other sources
      rintro s ⟨waits, i, atSlot, sources, atSources, inSources'⟩
      rw [facts.provenance, List.getElem?_map] at atSlot
      rw [facts.sources, List.getElem?_map] at atSources
      cases found : (ownerReadyGroups runtimeSuccs assignment)[i]? with
      | none =>
        rw [found] at atSources
        cases atSources
      | some g' =>
        rw [found] at atSlot atSources
        cases atSources
        have slotEq : slot g' = s := Option.some.inj atSlot
        have hg' := List.mem_of_getElem? found
        obtain ⟨w, hw, wDest, wSlot⟩ := (facts.mem_waits _ _).mp waits
        cases facts.slot_inj g' hg' w hw (slotEq.trans wSlot.symm)
        obtain ⟨-, owner⟩ := (group_sources_iff hg).mp inSources
        obtain ⟨-, owner'⟩ := (group_sources_iff hg').mp inSources'
        rw [← slotEq, ownerReadyGroups_inj hg' hg (wDest.trans dest.symm) (owner'.symm.trans owner)]

end Sound

/-- An edge inside a worker fails the assertion of the loop over the edges. -/
theorem mtBuildDenseOwnerReadyLayout_eq_none {runtimeSuccs : List (List Nat)} {assignment : List Int}
    {threadCount source destination : Nat} (edge : Edge runtimeSuccs source destination)
    (same : assignAt assignment source = assignAt assignment destination) :
    mtBuildDenseOwnerReadyLayout runtimeSuccs assignment threadCount = none := by
  refine Option.eq_none_iff_forall_ne_some.mpr fun layout built => ?_
  unfold mtBuildDenseOwnerReadyLayout at built
  simp only [Option.bind_eq_bind, Option.bind_eq_some_iff, Assert_eq_some] at built
  obtain ⟨-, -, -, -, -, -, -, -, -, edges, -⟩ := built
  have checked := List.all_eq_true.mp edges source (List.mem_range.mpr (lt_length_of_edge edge))
  obtain ⟨each, -⟩ := (Bool.and_eq_true _ _).mp checked
  have refused := List.all_eq_true.mp each destination edge
  rw [Bool.and_eq_true, decide_eq_true_eq] at refused
  exact refused.2 same

/-- **The layout is well formed.**  On a runtime graph whose edges go forward and cross
    workers no `Assert` fails, and the layout is the one the edges ask for; an edge inside
    a worker is refused. -/
theorem mtBuildDenseOwnerReadyLayout_sound (runtimeSuccs : List (List Nat)) (assignment : List Int)
    (threadCount : Nat) :
    (RuntimeGraphOk runtimeSuccs assignment threadCount →
      ∃ layout, mtBuildDenseOwnerReadyLayout runtimeSuccs assignment threadCount = some layout ∧
        LayoutSound runtimeSuccs assignment layout) ∧
    ∀ source destination, Edge runtimeSuccs source destination →
      assignAt assignment source = assignAt assignment destination →
      mtBuildDenseOwnerReadyLayout runtimeSuccs assignment threadCount = none := by
  refine ⟨fun hok => ?_, fun _ _ edge same => mtBuildDenseOwnerReadyLayout_eq_none edge same⟩
  obtain ⟨layout, slot, built, facts⟩ := mtBuildDenseOwnerReadyLayout_eq_some hok
  exact ⟨layout, built, facts.sound hok built⟩

/-- Two MTasks of worker 0 feed one of worker 1, which feeds back. -/
def crossing : List (List Nat) := [[2], [2], [3], []]

theorem crossing_edge {a b : Nat} (h : Edge crossing a b) :
    (a < 2 ∧ b = 2) ∨ (a = 2 ∧ b = 3) := by
  unfold Edge succsAt crossing at h
  rcases a with _ | _ | _ | a <;> simp at h <;> omega

theorem crossing_ok : RuntimeGraphOk crossing [0, 0, 1, 0] 2 where
  threads := by decide
  length_eq := rfl
  owners := by decide
  forward a b h := by
    have := crossing_edge h
    exact ⟨by omega, by simp only [crossing, List.length_cons, List.length_nil]; omega⟩
  ascending a := by
    unfold succsAt crossing
    rcases a with _ | _ | _ | _ | a <;> simp
  cross a b h := by
    rcases crossing_edge h with ⟨lt, rfl⟩ | ⟨rfl, rfl⟩
    · interval_cases a <;> decide
    · decide

theorem mtBuildDenseOwnerReadyLayout_sound_crossing :
    RuntimeGraphOk crossing [0, 0, 1, 0] 2 ∧
      ∃ layout, mtBuildDenseOwnerReadyLayout crossing [0, 0, 1, 0] 2 = some layout ∧
        LayoutSound crossing [0, 0, 1, 0] layout :=
  ⟨crossing_ok, (mtBuildDenseOwnerReadyLayout_sound _ _ _).1 crossing_ok⟩

/-- The runtime graph of two dependent MTasks that one worker runs, built with
    `xthreadDepsOnly` off: an `Assert` fails. -/
theorem sameWorker_refused :
    mtBuildDenseRuntimeSuccs [{ succMTasks := [1] }, { predMTasks := [0] }] [0, 0] false =
        [[1], []] ∧
      mtBuildDenseOwnerReadyLayout [[1], []] [0, 0] 1 = none := by decide

end Gsim
