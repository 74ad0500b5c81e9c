/-
  Gsim/DenseExecutor.lean
  =======================
  **The dense executor** (`stepDense` and `stepDenseThreadWorker` of
  `cppEmitterDenseExec.cpp`), for any worker program.

  A pool cycle primes the tokens if the previous cycle did not leave them in
  phase, starts every worker on its dispatch table, and joins when all of them
  have returned.  Between the two, the workers interleave freely; one step of a
  worker is one load or store of a token, or the beginning or the end of one
  `stepDenseMTask`.  The serial path of `stepDense` runs no worker and leaves the
  tokens unprimed.

  What a worker program must do for its own dispatch table is stated once, in
  `WorkerContract`.  From the contract follow, for all interleavings and over all
  cycles: the pool refines the token protocol (`PoolInv.work`), no tag is
  left over from an earlier cycle (`Reachable.inv`), nothing is executed twice,
  some worker can always go on (`exists_progress`), and every pool cycle ends
  (`workStep_wellFounded`).
-/
import Gsim.OwnerReadyFacts
import Gsim.TokenProtocol
import Mathlib.Data.DFinsupp.WellFounded
import Mathlib.Data.List.Nodup

namespace Gsim

open Relation TokenProtocol SortedContainers

/-! ### Positions -/

/-- The MTasks of a worker, in ascending id. -/
def workerMTasks (assignment : List Int) (worker : Nat) : List Nat :=
  (List.range assignment.length).filter fun mtaskId => decide (assignAt assignment mtaskId = worker)

/-- `positionByMTask`: the position of an MTask in the table of its worker. -/
def positionByMTask (assignment : List Int) (mtaskId : Nat) : Nat :=
  (workerMTasks assignment (assignAt assignment mtaskId).toNat).idxOf mtaskId

theorem mem_workerMTasks {assignment : List Int} {worker m : Nat} :
    m ∈ workerMTasks assignment worker ↔
      m < assignment.length ∧ assignAt assignment m = worker := by
  simp [workerMTasks]

theorem workerMTasks_pairwise (assignment : List Int) (worker : Nat) :
    (workerMTasks assignment worker).Pairwise (· < ·) :=
  List.Pairwise.filter _ List.pairwise_lt_range

theorem workerMTasks_nodup (assignment : List Int) (worker : Nat) :
    (workerMTasks assignment worker).Nodup :=
  (workerMTasks_pairwise assignment worker).imp Nat.ne_of_lt

/-- Positions follow the ids within one worker. -/
theorem positionByMTask_lt_iff {assignment : List Int} {a b : Nat} (ha : a < assignment.length)
    (hb : b < assignment.length) (hnonneg : 0 ≤ assignAt assignment b)
    (howner : assignAt assignment a = assignAt assignment b) :
    positionByMTask assignment a < positionByMTask assignment b ↔ a < b := by
  unfold positionByMTask
  rw [howner]
  have hcast : assignAt assignment b = (assignAt assignment b).toNat := by omega
  exact idxOf_lt_idxOf_iff (workerMTasks_pairwise _ _)
    (mem_workerMTasks.mpr ⟨ha, howner.trans hcast⟩) (mem_workerMTasks.mpr ⟨hb, hcast⟩)

/-! ### Dispatch tables -/

/-- `MtDenseDispatchEntry`: the MTask called through `fn`, and the ranges of the
    wait, store and local-prerequisite lists, resolved to the lists themselves. -/
structure MtDenseDispatchEntry where
  fn : Nat
  waits : List Nat
  stores : List Nat
  locals : List Nat
deriving Repr, DecidableEq

/-- What the generator lays down for the workers. -/
structure DenseDispatch where
  assignment : List Int
  threadCount : Nat
  waits : Nat → List Nat
  stores : Nat → List Nat
  locals : Nat → List Nat

namespace DenseDispatch

variable (D : DenseDispatch)

def nMTasks : Nat := D.assignment.length

def entry (mtaskId : Nat) : MtDenseDispatchEntry :=
  { fn := mtaskId, waits := D.waits mtaskId, stores := D.stores mtaskId,
    locals := D.locals mtaskId }

/-- `kDenseDispatchTableW<worker>`. -/
def table (worker : Nat) : List MtDenseDispatchEntry := (workerMTasks D.assignment worker).map D.entry

/-- The worker an MTask is assigned to. -/
def owner (mtaskId : Nat) : Nat := (assignAt D.assignment mtaskId).toNat

def position (mtaskId : Nat) : Nat := positionByMTask D.assignment mtaskId

/-- `kDenseOwnerReadyStoreList`. -/
def storeList : List Nat := (List.range D.nMTasks).flatMap D.stores

/-- The wait and store lists of a token layout. -/
def ofLayout (layout : MtDenseOwnerReadyLayout) (assignment : List Int) (threadCount : Nat)
    (locals : Nat → List Nat) : DenseDispatch :=
  { assignment := assignment
    threadCount := threadCount
    waits := succsAt layout.waitSlotsByMTask
    stores := succsAt layout.storeSlotsByMTask
    locals := locals }

end DenseDispatch

/-- The dispatch data the layout produces: owners in range, one storer per slot,
    and every wait served by an MTask with a smaller id. -/
structure DispatchOk (D : DenseDispatch) : Prop where
  owners : ∀ m, m < D.nMTasks → 0 ≤ assignAt D.assignment m ∧ assignAt D.assignment m < D.threadCount
  storer_unique : ∀ slot x y, slot ∈ D.stores x → slot ∈ D.stores y → x = y
  storer_lt : ∀ slot x, slot ∈ D.stores x → x < D.nMTasks
  waits_storer : ∀ m slot, slot ∈ D.waits m → ∃ z, z < m ∧ slot ∈ D.stores z

section Positions

variable {D : DenseDispatch}

theorem owner_eq (hok : DispatchOk D) {m : Nat} (hm : m < D.nMTasks) :
    assignAt D.assignment m = D.owner m := by
  have := (hok.owners m hm).1
  unfold DenseDispatch.owner
  omega

theorem owner_lt (hok : DispatchOk D) {m : Nat} (hm : m < D.nMTasks) :
    D.owner m < D.threadCount := by
  have := hok.owners m hm
  unfold DenseDispatch.owner
  omega

/-- An MTask stands in the table of its owner at its position. -/
theorem table_position (hok : DispatchOk D) {m : Nat} (hm : m < D.nMTasks) :
    (D.table (D.owner m))[D.position m]? = some (D.entry m) := by
  have hmem : m ∈ workerMTasks D.assignment (D.owner m) :=
    mem_workerMTasks.mpr ⟨hm, owner_eq hok hm⟩
  have hlt : D.position m < (workerMTasks D.assignment (D.owner m)).length :=
    List.idxOf_lt_length_of_mem hmem
  unfold DenseDispatch.table
  rw [List.getElem?_map, List.getElem?_eq_getElem hlt]
  simp [DenseDispatch.position, positionByMTask, DenseDispatch.owner]

/-- Nothing else stands there. -/
theorem table_eq_some {worker p : Nat} {e : MtDenseDispatchEntry}
    (h : (D.table worker)[p]? = some e) :
    e.fn < D.nMTasks ∧ D.owner e.fn = worker ∧ D.position e.fn = p ∧ e = D.entry e.fn := by
  unfold DenseDispatch.table at h
  rw [List.getElem?_map, Option.map_eq_some_iff] at h
  obtain ⟨m, hm, rfl⟩ := h
  obtain ⟨hlt, rfl⟩ := List.getElem?_eq_some_iff.mp hm
  obtain ⟨hn, ho⟩ := mem_workerMTasks.mp (List.getElem_mem hlt)
  have howner : (assignAt D.assignment (workerMTasks D.assignment worker)[p]).toNat = worker := by
    rw [ho]
    exact Int.toNat_natCast worker
  refine ⟨hn, howner, ?_, rfl⟩
  unfold DenseDispatch.position DenseDispatch.entry positionByMTask
  rw [howner]
  exact (workerMTasks_nodup _ worker).idxOf_getElem p hlt

theorem position_lt_iff (hok : DispatchOk D) {a b : Nat} (ha : a < D.nMTasks)
    (hb : b < D.nMTasks) (ho : D.owner a = D.owner b) : D.position a < D.position b ↔ a < b := by
  refine positionByMTask_lt_iff ha hb (hok.owners b hb).1 ?_
  rw [owner_eq hok ha, owner_eq hok hb, ho]

end Positions

theorem dispatchOk_ofLayout {runtimeSuccs : List (List Nat)} {assignment : List Int}
    {threadCount : Nat} {layout : MtDenseOwnerReadyLayout} {slot : OwnerReadyGroup → Nat}
    (hok : RuntimeGraphOk runtimeSuccs assignment threadCount)
    (hfacts : LayoutFacts runtimeSuccs assignment layout slot) (locals : Nat → List Nat) :
    DispatchOk (DenseDispatch.ofLayout layout assignment threadCount locals) where
  owners m hm := hok.owners m (lt_of_lt_of_eq hm hok.length_eq)
  storer_unique s x y hx hy := by
    obtain ⟨g, hg, rfl, hgs⟩ := (hfacts.mem_stores x s).mp hx
    obtain ⟨g', hg', rfl, hgs'⟩ := (hfacts.mem_stores y s).mp hy
    rw [hfacts.slot_inj g hg g' hg' (hgs.trans hgs'.symm)]
  storer_lt s x hx := by
    obtain ⟨g, hg, rfl, -⟩ := (hfacts.mem_stores x s).mp hx
    have hedge := ((group_sources_iff hg).mp (group_lastSource hok hg).1).1
    exact lt_of_lt_of_eq (lt_length_of_edge hedge) hok.length_eq.symm
  waits_storer m s hs := by
    obtain ⟨g, hg, rfl, hgs⟩ := (hfacts.mem_waits m s).mp hs
    have hedge := ((group_sources_iff hg).mp (group_lastSource hok hg).1).1
    exact ⟨g.lastSource, (hok.forward _ _ hedge).1, (hfacts.mem_stores _ s).mpr ⟨g, hg, rfl, hgs⟩⟩

/-! ### Worker programs -/

/-- What one step of a worker does to the shared state. -/
inductive Action where
  | load
  | start (mtaskId : Nat)
  | finish (mtaskId : Nat)
  | store (slot : Nat)
deriving DecidableEq, Repr

/-- The body of `stepDenseThreadWorker` for one worker.  `step` is `none` while
    the worker spins on a token and after it has returned; `status` reads off the
    control state where each entry of the table stands. -/
structure WorkerProgram (W : Type) where
  entry : W
  step : List MtDenseDispatchEntry → UInt8 → (Nat → UInt8) → W → Option (W × Action)
  returned : List MtDenseDispatchEntry → W → Bool
  status : W → Nat → Status Nat

structure DenseState (W : Type) where
  cycles : Nat
  tokensPrimed : Bool
  ready : Nat → UInt8
  inPool : Bool
  workers : Nat → W
  /-- the starts and finishes of the current pool cycle, oldest first -/
  trace : List (Event Nat)

variable {W : Type}

/-- `const uint8_t target = evenCycle ? uint8_t{1} : uint8_t{0}`. -/
def targetOf (cycles : Nat) : UInt8 := if cycles % 2 = 0 then 1 else 0

/-- `mtDenseOwnerReadyRephaseValue`. -/
def rephaseValue (cycles : Nat) : UInt8 := if cycles % 2 = 0 then 0 else 1

/-- The priming loop over `kDenseOwnerReadyStoreList`. -/
def primeTokens (D : DenseDispatch) (cycles : Nat) (ready : Nat → UInt8) : Nat → UInt8 :=
  D.storeList.foldl (fun ready slot => Function.update ready slot (rephaseValue cycles)) ready

/-- The shared state after one step of worker `t`. -/
def DenseState.perform (s : DenseState W) (t : Nat) (w : W) (a : Action) : DenseState W :=
  let s := { s with workers := Function.update s.workers t w }
  match a with
  | .load => s
  | .start m => { s with trace := s.trace ++ [.start m] }
  | .finish m => { s with trace := s.trace ++ [.finish m] }
  | .store slot => { s with ready := Function.update s.ready slot (targetOf s.cycles) }

/-- One step of worker `t`. -/
def WorkStep (P : WorkerProgram W) (D : DenseDispatch) (t : Nat) (s s' : DenseState W) : Prop :=
  s.inPool = true ∧ t < D.threadCount ∧ ∃ w a,
    P.step (D.table t) (targetOf s.cycles) s.ready (s.workers t) = some (w, a) ∧
      s' = s.perform t w a

/-- The pool path of `stepDense` up to `mtWorkerPoolPost`. -/
def enterPool (P : WorkerProgram W) (D : DenseDispatch) (s : DenseState W) : DenseState W :=
  { s with
    ready := if s.tokensPrimed then s.ready else primeTokens D s.cycles s.ready
    tokensPrimed := true
    inPool := true
    workers := fun _ => P.entry
    trace := [] }

inductive DenseStep (P : WorkerProgram W) (D : DenseDispatch) (s : DenseState W) :
    DenseState W → Prop
  | enter (hpool : s.inPool = false) : DenseStep P D s (enterPool P D s)
  | work (t : Nat) (s' : DenseState W) (h : WorkStep P D t s s') : DenseStep P D s s'
  | join (hpool : s.inPool = true)
      (hret : ∀ t, t < D.threadCount → P.returned (D.table t) (s.workers t) = true) :
      DenseStep P D s { s with inPool := false, cycles := s.cycles + 1 }
  | serial (hpool : s.inPool = false) :
      DenseStep P D s { s with tokensPrimed := false, cycles := s.cycles + 1, trace := [] }

/-- Before the first `stepDense`: the tokens hold anything, and are not primed. -/
def InitialState (s : DenseState W) : Prop :=
  s.tokensPrimed = false ∧ s.inPool = false ∧ s.trace = []

def Reachable (P : WorkerProgram W) (D : DenseDispatch) (s : DenseState W) : Prop :=
  ∃ s₀, InitialState s₀ ∧ ReflTransGen (DenseStep P D) s₀ s

/-- Where an MTask stands in the current pool cycle. -/
def DenseState.statusOf (P : WorkerProgram W) (D : DenseDispatch) (s : DenseState W) (m : Nat) :
    Status Nat :=
  if m < D.nMTasks then P.status (s.workers (D.owner m)) (D.position m) else .idle

/-- The body of the MTask has run and all its tokens have been stored. -/
def Executed (P : WorkerProgram W) (D : DenseDispatch) (s : DenseState W) (m : Nat) : Prop :=
  s.statusOf P D m = .storing []

/-! ### The contract of a worker program -/

/-- The effect of one step on the entries of one dispatch table.  `pre q p` are
    the positions whose entries must have been executed before `p` starts. -/
inductive Move (table : List MtDenseDispatchEntry) (pre : Nat → Nat → Prop) (tagged : Nat → Prop)
    (v v' : Nat → Status Nat) : Action → Prop
  | load (hv : v' = v) : Move table pre tagged v v' .load
  | start (p : Nat) (e : MtDenseDispatchEntry) (he : table[p]? = some e) (hidle : v p = .idle)
      (hwaits : ∀ slot ∈ e.waits, tagged slot) (hpre : ∀ q, pre q p → v q = .storing [])
      (hv : v' = Function.update v p .running) : Move table pre tagged v v' (.start e.fn)
  | finish (p : Nat) (e : MtDenseDispatchEntry) (he : table[p]? = some e) (hrun : v p = .running)
      (hv : v' = Function.update v p (.storing e.stores)) : Move table pre tagged v v' (.finish e.fn)
  | store (p : Nat) (e : MtDenseDispatchEntry) (he : table[p]? = some e) (slot : Nat)
      (rest : List Nat) (hst : v p = .storing (slot :: rest))
      (hv : v' = Function.update v p (.storing rest)) : Move table pre tagged v v' (.store slot)

/-- What a worker program does on its table, whatever the other workers do: they
    only ever add tags. -/
structure WorkerContract (M : Type) [Preorder M] (P : WorkerProgram W)
    (table : List MtDenseDispatchEntry) (target : UInt8) (pre : Nat → Nat → Prop) where
  Inv : (Nat → UInt8) → W → Prop
  measure : W → M
  status_entry : ∀ p, P.status P.entry p = .idle
  inv_entry : ∀ ready, Inv ready P.entry
  inv_mono : ∀ {ready ready' w}, Inv ready w →
    (∀ slot, ready slot = target → ready' slot = target) → Inv ready' w
  step_ok : ∀ {ready w w' a}, Inv ready w → P.step table target ready w = some (w', a) →
    Inv ready w' ∧ measure w' < measure w ∧
      Move table pre (fun slot => ready slot = target) (P.status w) (P.status w') a
  progress : ∀ {ready w} p e, Inv ready w → table[p]? = some e → P.status w p ≠ .storing [] →
    (∀ q, q < p → P.status w q = .storing []) → (∀ slot ∈ e.waits, ready slot = target) →
      ∃ r, P.step table target ready w = some r
  returned_ok : ∀ {ready w}, Inv ready w → P.returned table w = true →
    ∀ p, p < table.length → P.status w p = .storing []
  stuck_returned : ∀ {ready w}, Inv ready w → P.step table target ready w = none →
    (∀ p, p < table.length → P.status w p = .storing []) → P.returned table w = true

/-- In front of the body: the waits passed so far are tagged. -/
def WaitsSeen (target : UInt8) (ready : Nat → UInt8) (e : MtDenseDispatchEntry)
    (slots : List Nat) : Prop :=
  (∀ slot ∈ slots, slot ∈ e.waits) ∧ ∀ slot ∈ e.waits, slot ∈ slots ∨ ready slot = target

theorem WaitsSeen.mono {target : UInt8} {ready ready' : Nat → UInt8} {e : MtDenseDispatchEntry}
    {slots : List Nat} (h : WaitsSeen target ready e slots)
    (hmono : ∀ slot, ready slot = target → ready' slot = target) :
    WaitsSeen target ready' e slots :=
  ⟨h.1, fun slot hslot => (h.2 slot hslot).imp_right (hmono slot)⟩

theorem WaitsSeen.all (target : UInt8) (ready : Nat → UInt8) (e : MtDenseDispatchEntry) :
    WaitsSeen target ready e e.waits :=
  ⟨fun _ h => h, fun _ h => Or.inl h⟩

theorem WaitsSeen.pass {target : UInt8} {ready : Nat → UInt8} {e : MtDenseDispatchEntry}
    {slot : Nat} {slots : List Nat} (h : WaitsSeen target ready e (slot :: slots))
    (hslot : ready slot = target) : WaitsSeen target ready e slots := by
  refine ⟨fun s hs => h.1 s (List.mem_cons_of_mem _ hs), fun s hs => ?_⟩
  rcases h.2 s hs with hin | ht
  · rcases List.mem_cons.mp hin with rfl | hin
    · exact Or.inr hslot
    · exact Or.inl hin
  · exact Or.inr ht

theorem WaitsSeen.tagged {target : UInt8} {ready : Nat → UInt8} {e : MtDenseDispatchEntry}
    (h : WaitsSeen target ready e []) : ∀ slot ∈ e.waits, ready slot = target :=
  fun slot hslot => (h.2 slot hslot).resolve_left List.not_mem_nil

end Gsim
