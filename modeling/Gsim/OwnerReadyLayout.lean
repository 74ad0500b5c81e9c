/-
  Gsim/OwnerReadyLayout.lean
  ==========================
  **The owner-ready token layout** (`mtBuildDenseOwnerReadyLayout` of
  `cppEmitterDenseSchedule.cpp`).

  One token stands for all reduced edges from one producer owner to one
  destination MTask; the last source of the group publishes it.  The function
  groups the edges by (destination, producer owner), numbers the groups, lays
  them out in cache-line aligned banks, one bank per (producer, consumer) owner
  pair, and finally builds the wait and store lists of every MTask.

  An `Assert` that fails ends the generator, so the model is in `Option`: `none`
  is a failed `Assert`.
-/
import Gsim.RuntimeSuccs
import Mathlib.Data.Prod.Lex

namespace Gsim

open SortedContainers

/-- `Assert(cond, …)`: the generator stops when the condition is false. -/
def Assert (cond : Bool) : Option Unit := if cond then some () else none

@[simp] theorem Assert_eq_some {cond : Bool} {u : Unit} : Assert cond = some u ↔ cond = true := by
  unfold Assert
  split <;> simp_all

theorem Assert_bind {α : Type} {cond : Bool} (h : cond = true) (f : Unit → Option α) :
    (Assert cond >>= f) = f () := by
  rw [h]
  rfl

/-! ### Data -/

/-- `MtDenseOwnerReadyTokenProvenance`. -/
structure MtDenseOwnerReadyTokenProvenance where
  readySlot : Nat
  producerMTask : Nat
  producerOwner : Int
  consumerMTask : Nat
  consumerOwner : Int
deriving Repr, DecidableEq

/-- `MtDenseOwnerReadyLayout`. -/
structure MtDenseOwnerReadyLayout where
  edgeCount : Nat
  tokenCount : Nat
  physicalSlotCount : Nat
  pairBankCount : Nat
  tokenProvenanceByLogicalToken : List MtDenseOwnerReadyTokenProvenance
  sourceMTasksByLogicalToken : List (List Nat)
  logicalTokenByPhysicalSlot : List (Option Nat)
  waitSlotsByMTask : List (List Nat)
  storeSlotsByMTask : List (List Nat)
deriving Repr, DecidableEq

/-- The local `struct Group`; its slot is kept in `SlotAlloc`. -/
structure OwnerReadyGroup where
  destination : Nat
  producerOwner : Int
  consumerOwner : Int
  lastSource : Nat
  logicalToken : Nat
  sources : List Nat
deriving Repr, DecidableEq

/-! ### Fixed owner order -/

/-- One step of the inner loop: number the MTasks of `owner` upwards. -/
def ordinalStep (assignment : List Int) (owner : Int) (st : (Nat → Int) × Int) (mtaskId : Nat) :
    (Nat → Int) × Int :=
  if assignAt assignment mtaskId = owner then
    (Function.update st.1 mtaskId st.2, st.2 + 1)
  else st

/-- `ownerOrdinal`: the position of an MTask among the MTasks of its owner. -/
def ownerOrdinals (assignment : List Int) (threadCount nMTasks : Nat) : Nat → Int :=
  (List.range threadCount).foldl (fun ordinal (owner : Nat) =>
    ((List.range nMTasks).foldl (ordinalStep assignment owner) (ordinal, 0)).1) (fun _ => -1)

/-! ### Groups -/

/-- The edges in the order in which the loop pushes their sources, under the key
    (destination, producer owner). -/
def edgePushes (runtimeSuccs : List (List Nat)) (assignment : List Int) :
    List ((ℕ ×ₗ ℤ) × Nat) :=
  (List.range runtimeSuccs.length).flatMap fun source =>
    (succsAt runtimeSuccs source).map fun destination =>
      (toLex (destination, assignAt assignment source), source)

/-- The groups in the key order of `sourcesByDestinationOwner`. -/
def ownerReadyGroups (runtimeSuccs : List (List Nat)) (assignment : List Int) :
    List OwnerReadyGroup :=
  (groupPush (edgePushes runtimeSuccs assignment)).mapIdx fun logicalToken entry =>
    { destination := (ofLex entry.1).1
      producerOwner := (ofLex entry.1).2
      consumerOwner := assignAt assignment (ofLex entry.1).1
      lastSource := entry.2.getLastD 0
      logicalToken := logicalToken
      sources := entry.2 }

/-- `groupsByOwnerPair`. -/
def groupsByOwnerPair (groups : List OwnerReadyGroup) : List ((ℤ ×ₗ ℤ) × List Nat) :=
  groupPush (groups.map fun group =>
    (toLex (group.producerOwner, group.consumerOwner), group.logicalToken))

/-! ### Slots -/

def alignCacheLine (slot : Nat) : Nat := (slot + 63) / 64 * 64

/-- `nextSlot`, the slots given out so far, and `bankRanges`. -/
structure SlotAlloc where
  nextSlot : Nat
  slot : Nat → Option Nat
  bankRanges : List (Nat × Nat)

/-- Give the next slot to one group of a bank. -/
def allocGroup (groups : List OwnerReadyGroup) (pair : ℤ ×ₗ ℤ)
    (st : Nat × (Nat → Option Nat)) (groupId : Nat) : Option (Nat × (Nat → Option Nat)) := do
  Assert (st.2 groupId).isNone
  Assert (groups[groupId]?.any fun group =>
    decide (toLex (group.producerOwner, group.consumerOwner) = pair))
  return (st.1 + 1, Function.update st.2 groupId (some st.1))

/-- Lay out one bank of groups on its own cache lines. -/
def allocBank (groups : List OwnerReadyGroup) (st : SlotAlloc) (bank : (ℤ ×ₗ ℤ) × List Nat) :
    Option SlotAlloc := do
  Assert (decide ((ofLex bank.1).1 ≠ (ofLex bank.1).2))
  let bankBegin := alignCacheLine st.nextSlot
  Assert (decide (bankBegin % 64 = 0))
  let filled ← bank.2.foldlM (allocGroup groups bank.1) (bankBegin, st.slot)
  let bankEnd := alignCacheLine filled.1
  Assert (decide (bankEnd % 64 = 0) && decide (bankBegin < bankEnd))
  Assert (bank.2.all fun groupId =>
    (filled.2 groupId).any fun slot => decide (bankBegin ≤ slot) && decide (slot + 1 ≤ bankEnd))
  return { nextSlot := bankEnd, slot := filled.2,
           bankRanges := st.bankRanges ++ [(bankBegin, bankEnd)] }

def allocSlots (groups : List OwnerReadyGroup) : Option SlotAlloc :=
  (groupsByOwnerPair groups).foldlM (allocBank groups)
    { nextSlot := 0, slot := fun _ => none, bankRanges := [] }

/-- Slots pushed for the groups that select an MTask, sorted. -/
def slotsFor (groups : List OwnerReadyGroup) (slot : Nat → Option Nat)
    (select : OwnerReadyGroup → Nat) (mtaskId : Nat) : List Nat :=
  ((groups.filter fun group => decide (select group = mtaskId)).filterMap
    fun group => slot group.logicalToken).insertionSort (· ≤ ·)

/-- `logicalTokenByPhysicalSlot` after the loop over the groups. -/
def tokenBySlot (groups : List OwnerReadyGroup) (slot : Nat → Option Nat) (physical : Nat) :
    Option Nat :=
  (groups.find? fun group => decide (slot group.logicalToken = some physical)).map
    (·.logicalToken)

/-- The record built from the groups and their slots. -/
def layoutOf (runtimeSuccs : List (List Nat)) (groups : List OwnerReadyGroup)
    (alloc : SlotAlloc) : MtDenseOwnerReadyLayout :=
  let physicalSlotCount := if alloc.nextSlot = 0 then 64 else alloc.nextSlot
  { edgeCount := (runtimeSuccs.map List.length).sum
    tokenCount := groups.length
    physicalSlotCount := physicalSlotCount
    pairBankCount := (groupsByOwnerPair groups).length
    tokenProvenanceByLogicalToken := groups.map fun group =>
      { readySlot := (alloc.slot group.logicalToken).getD 0
        producerMTask := group.lastSource
        producerOwner := group.producerOwner
        consumerMTask := group.destination
        consumerOwner := group.consumerOwner }
    sourceMTasksByLogicalToken := groups.map (·.sources)
    logicalTokenByPhysicalSlot :=
      (List.range physicalSlotCount).map (tokenBySlot groups alloc.slot)
    waitSlotsByMTask := (List.range runtimeSuccs.length).map
      (slotsFor groups alloc.slot (·.destination))
    storeSlotsByMTask := (List.range runtimeSuccs.length).map
      (slotsFor groups alloc.slot (·.lastSource)) }

/-! ### The Asserts -/

/-- Checks of the loop over the successors of one source. -/
def edgeAsserts (assignment : List Int) (nMTasks source : Nat) (succs : List Nat) : Bool :=
  (succs.all fun destination =>
    decide (destination < nMTasks) && decide (source < destination) &&
      decide (assignAt assignment source ≠ assignAt assignment destination)) &&
  decide (succs.Pairwise (· < ·))

/-- Checks of one group against the fixed owner order. -/
def groupAsserts (assignment : List Int) (ordinal : Nat → Int) (group : OwnerReadyGroup) : Bool :=
  !group.sources.isEmpty &&
  (group.sources.all fun source =>
    decide (assignAt assignment source = group.producerOwner)) &&
  decide ((-1 :: group.sources.map ordinal).IsChain (· < ·)) &&
  decide (assignAt assignment group.lastSource = group.producerOwner) &&
  (group.sources.all fun source => decide (ordinal source ≤ ordinal group.lastSource))

/-- Checks of one logical token. -/
def tokenAsserts (assignment : List Int) (nMTasks threadCount nextSlot : Nat)
    (groups : List OwnerReadyGroup) (slot : Nat → Option Nat) (group : OwnerReadyGroup) : Bool :=
  decide (group.logicalToken < groups.length) &&
  ((slot group.logicalToken).any fun physical =>
    decide (physical < nextSlot) &&
      decide (tokenBySlot groups slot physical = some group.logicalToken)) &&
  decide (group.lastSource < nMTasks) && decide (group.destination < nMTasks) &&
  decide (0 ≤ group.producerOwner) && decide (group.producerOwner < threadCount) &&
  decide (0 ≤ group.consumerOwner) && decide (group.consumerOwner < threadCount) &&
  decide (assignAt assignment group.lastSource = group.producerOwner) &&
  decide (assignAt assignment group.destination = group.consumerOwner)

/-- `mtBuildDenseOwnerReadyLayout`. -/
def mtBuildDenseOwnerReadyLayout (runtimeSuccs : List (List Nat)) (assignment : List Int)
    (threadCount : Nat) : Option MtDenseOwnerReadyLayout := do
  let nMTasks := runtimeSuccs.length
  Assert (decide (0 < threadCount))
  Assert (decide (assignment.length = nMTasks))
  Assert ((List.range nMTasks).all fun mtaskId =>
    decide (0 ≤ assignAt assignment mtaskId) && decide (assignAt assignment mtaskId < threadCount))
  let ordinal := ownerOrdinals assignment threadCount nMTasks
  Assert ((List.range nMTasks).all fun mtaskId => decide (0 ≤ ordinal mtaskId))
  Assert ((List.range nMTasks).all fun source =>
    edgeAsserts assignment nMTasks source (succsAt runtimeSuccs source))
  let groups := ownerReadyGroups runtimeSuccs assignment
  Assert (groups.all (groupAsserts assignment ordinal))
  -- every edge lands in exactly one group
  Assert (decide ((groups.map fun group => group.sources.length).sum =
    (runtimeSuccs.map List.length).sum))
  let alloc ← allocSlots groups
  Assert (decide (alloc.bankRanges.Pairwise fun lhs rhs => lhs.2 ≤ rhs.1 ∨ rhs.2 ≤ lhs.1))
  -- `uniqueSlots` never sees a slot twice
  Assert (decide (groups.map fun group => alloc.slot group.logicalToken).Nodup)
  Assert (groups.all
    (tokenAsserts assignment nMTasks threadCount alloc.nextSlot groups alloc.slot))
  let layout := layoutOf runtimeSuccs groups alloc
  Assert (decide ((layout.waitSlotsByMTask.map List.length).sum = layout.tokenCount) &&
    decide ((layout.storeSlotsByMTask.map List.length).sum = layout.tokenCount))
  Assert (decide (layout.physicalSlotCount % 64 = 0))
  return layout

end Gsim
