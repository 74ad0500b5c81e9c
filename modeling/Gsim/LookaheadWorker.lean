/-
  Gsim/LookaheadWorker.lean
  =========================
  **Bounded lookahead** (the inline prefix of `stepDenseThreadWorker` and
  `stepDenseLookaheadTail`).

  A worker runs its table in order as long as the next entry is ready.  At the
  first entry that is not, it enters the tail: the head of the table if it is
  ready, else the first entry of the window that is ready, else it blocks on the
  head.  Entries run ahead of the head leave a done bit, which is cleared when the
  head passes it.

  The worker meets its contract with the local-prerequisite lists of the entries
  as what must have been executed before an entry starts (`lookaheadContract`).
-/
import Gsim.DenseExecutor

namespace Gsim

open TokenProtocol

/-! ### Done bits -/

/-- `(mtDenseDoneBits[j >> 6] & (uint64_t{1} << (j & 63))) != 0`. -/
def doneBit (bits : Nat → BitVec 64) (j : Nat) : Bool :=
  bits (j >>> 6) &&& (1#64 <<< (j &&& 63)) != 0#64

def setDoneBit (bits : Nat → BitVec 64) (j : Nat) : Nat → BitVec 64 :=
  Function.update bits (j >>> 6) (bits (j >>> 6) ||| (1#64 <<< (j &&& 63)))

def clearDoneBit (bits : Nat → BitVec 64) (j : Nat) : Nat → BitVec 64 :=
  Function.update bits (j >>> 6) (bits (j >>> 6) &&& ~~~(1#64 <<< (j &&& 63)))

theorem and_one_shiftLeft_ne_zero (x : BitVec 64) {i : Nat} (hi : i < 64) :
    (x &&& (1#64 <<< i) != 0#64) = x.getLsbD i := by
  rw [show 1#64 <<< i = BitVec.twoPow 64 i from rfl, BitVec.and_twoPow]
  cases h : x.getLsbD i with
  | false => simp
  | true =>
    have hne : BitVec.twoPow 64 i ≠ 0#64 := by
      intro heq
      have hbit := congrArg (fun y => y.getLsbD i) heq
      simp [hi] at hbit
    simpa using hne

theorem doneBit_eq (bits : Nat → BitVec 64) (j : Nat) :
    doneBit bits j = (bits (j / 64)).getLsbD (j % 64) := by
  unfold doneBit
  rw [Nat.shiftRight_eq_div_pow, show j &&& 63 = j % 64 from Nat.and_two_pow_sub_one_eq_mod j 6]
  exact and_one_shiftLeft_ne_zero _ (Nat.mod_lt _ (by decide))

theorem word_eq_iff (j k : Nat) : (k / 64 = j / 64 ∧ k % 64 = j % 64) ↔ k = j := by omega

@[simp] theorem doneBit_zero (j : Nat) : doneBit (fun _ => 0#64) j = false := by
  rw [doneBit_eq]
  simp

theorem doneBit_update (bits : Nat → BitVec 64) (j k : Nat) (word : BitVec 64) :
    doneBit (Function.update bits (j >>> 6) word) k =
      if k / 64 = j / 64 then word.getLsbD (k % 64) else doneBit bits k := by
  rw [doneBit_eq, doneBit_eq, show j >>> 6 = j / 64 from Nat.shiftRight_eq_div_pow j 6]
  by_cases hword : k / 64 = j / 64
  · rw [if_pos hword, hword, Function.update_self]
  · rw [if_neg hword, Function.update_of_ne hword]

theorem doneBit_setDoneBit (bits : Nat → BitVec 64) (j k : Nat) :
    doneBit (setDoneBit bits j) k = (decide (k = j) || doneBit bits k) := by
  have hj : j % 64 < 64 := Nat.mod_lt _ (by decide)
  unfold setDoneBit
  rw [doneBit_update]
  have hiff := word_eq_iff j k
  by_cases hword : k / 64 = j / 64
  · rw [if_pos hword, doneBit_eq, hword, Nat.shiftRight_eq_div_pow,
      show j &&& 63 = j % 64 from Nat.and_two_pow_sub_one_eq_mod j 6]
    by_cases hbit : k % 64 = j % 64
    · simp [hiff.mp ⟨hword, hbit⟩, hj]
    · have hne : k ≠ j := fun h => hbit (hiff.mpr h).2
      simp [hne, BitVec.getLsbD_one]
      omega
  · have hne : k ≠ j := fun h => hword (hiff.mpr h).1
    simp [hword, hne]

theorem doneBit_clearDoneBit (bits : Nat → BitVec 64) (j k : Nat) :
    doneBit (clearDoneBit bits j) k = (!decide (k = j) && doneBit bits k) := by
  have hk : k % 64 < 64 := Nat.mod_lt _ (by decide)
  unfold clearDoneBit
  rw [doneBit_update]
  have hiff := word_eq_iff j k
  by_cases hword : k / 64 = j / 64
  · rw [if_pos hword, doneBit_eq, hword, Nat.shiftRight_eq_div_pow,
      show j &&& 63 = j % 64 from Nat.and_two_pow_sub_one_eq_mod j 6]
    by_cases hbit : k % 64 = j % 64
    · simp [hiff.mp ⟨hword, hbit⟩, hbit ▸ hk]
    · have hne : k ≠ j := fun h => hbit (hiff.mpr h).2
      simp [hne, hk]
      omega
  · have hne : k ≠ j := fun h => hword (hiff.mpr h).1
    simp [hword, hne]

/-! ### The worker -/

/-- Where a `stepDenseMTask` is called from. -/
inductive Site where
  | inline
  | head
  | candidate (j : Nat)
deriving DecidableEq, Repr

inductive LookaheadPc where
  | inlineTop
  | inlineLoad (slots : List Nat) (inlineReady : Bool)
  | tailTop
  | headLoad (slots : List Nat) (entryReady : Bool)
  | scan (j : Nat)
  | scanLoad (j : Nat) (slots : List Nat)
  | block (slots : List Nat)
  | body (site : Site)
  | publish (site : Site) (slots : List Nat)
deriving DecidableEq, Repr

/-- The locals of one worker; `head` is the table position of the inline prefix
    until the tail is entered. -/
structure LookaheadWorker where
  head : Nat
  doneBits : Nat → BitVec 64
  anyOutOfOrder : Bool
  pc : LookaheadPc

/-- The loop that moves the head over done entries and clears their bits. -/
def skipDone (count : Nat) (anyOutOfOrder : Bool) :
    Nat → Nat → (Nat → BitVec 64) → Nat × (Nat → BitVec 64)
  | 0, head, bits => (head, bits)
  | fuel + 1, head, bits =>
    if decide (head < count) && anyOutOfOrder && doneBit bits head then
      skipDone count anyOutOfOrder fuel (head + 1) (clearDoneBit bits head)
    else (head, bits)

/-- `mtDenseScanEnd`, in 32-bit arithmetic. -/
def scanEnd (window count head : Nat) : Nat := min ((head + 1 + window) % 2 ^ 32) count

namespace LookaheadWorker

variable (w : LookaheadWorker)

/-- Executed ahead of the head. -/
def done (j : Nat) : Bool := w.anyOutOfOrder && doneBit w.doneBits j

/-- Executed: behind the head or ahead of it. -/
def past (p : Nat) : Bool := decide (p < w.head) || w.done p

def siteAt : Site → Nat
  | .inline => w.head
  | .head => w.head
  | .candidate j => j

end LookaheadWorker

/-- One step; `none` is a spin on the head, or the return. -/
def lookaheadStep (window : Nat) (table : List MtDenseDispatchEntry) (target : UInt8)
    (ready : Nat → UInt8) (w : LookaheadWorker) : Option (LookaheadWorker × Action) :=
  match w.pc with
  -- inline prefix: every wait is loaded, in order
  | .inlineTop =>
    (table[w.head]?).map fun e => ({ w with pc := .inlineLoad e.waits true }, .load)
  | .inlineLoad (slot :: slots) r =>
    some ({ w with pc := .inlineLoad slots (r && decide (ready slot = target)) }, .load)
  | .inlineLoad [] true =>
    (table[w.head]?).map fun e => ({ w with pc := .body .inline }, .start e.fn)
  | .inlineLoad [] false => some ({ w with pc := .tailTop }, .load)
  -- tail: the head first
  | .tailTop =>
    (table[w.head]?).map fun e => ({ w with pc := .headLoad e.waits true }, .load)
  | .headLoad (slot :: slots) r =>
    some ({ w with pc := .headLoad slots (r && decide (ready slot = target)) }, .load)
  | .headLoad [] true =>
    (table[w.head]?).map fun e => ({ w with pc := .body .head }, .start e.fn)
  | .headLoad [] false => some ({ w with pc := .scan (w.head + 1) }, .load)
  -- then the window
  | .scan j =>
    if j < scanEnd window table.length w.head then
      (table[j]?).map fun c =>
        if w.done j then ({ w with pc := .scan (j + 1) }, .load)
        else if c.locals.all w.past then ({ w with pc := .scanLoad j c.waits }, .load)
        else ({ w with pc := .scan (j + 1) }, .load)
    else (table[w.head]?).map fun e => ({ w with pc := .block e.waits }, .load)
  | .scanLoad j (slot :: slots) =>
    if ready slot = target then some ({ w with pc := .scanLoad j slots }, .load)
    else some ({ w with pc := .scan (j + 1) }, .load)
  | .scanLoad j [] =>
    (table[j]?).map fun c => ({ w with pc := .body (.candidate j) }, .start c.fn)
  -- then block on the head
  | .block (slot :: slots) =>
    if ready slot = target then some ({ w with pc := .block slots }, .load) else none
  | .block [] =>
    (table[w.head]?).map fun e => ({ w with pc := .body .head }, .start e.fn)
  | .body site =>
    (table[w.siteAt site]?).map fun e => ({ w with pc := .publish site e.stores }, .finish e.fn)
  | .publish site (slot :: slots) => some ({ w with pc := .publish site slots }, .store slot)
  | .publish .inline [] => some ({ w with head := w.head + 1, pc := .inlineTop }, .load)
  | .publish .head [] =>
    let next := skipDone table.length w.anyOutOfOrder table.length (w.head + 1) w.doneBits
    some ({ w with head := next.1, doneBits := next.2, pc := .tailTop }, .load)
  | .publish (.candidate j) [] =>
    some ({ w with doneBits := setDoneBit w.doneBits j, anyOutOfOrder := true, pc := .tailTop },
      .load)

/-- The call under way. -/
def LookaheadPc.active : LookaheadPc → Option (Site × Status Nat)
  | .body site => some (site, .running)
  | .publish site slots => some (site, .storing slots)
  | _ => none

def LookaheadWorker.status (w : LookaheadWorker) (p : Nat) : Status Nat :=
  let settled := if w.past p then .storing [] else .idle
  match w.pc.active with
  | some (site, st) => if p = w.siteAt site then st else settled
  | none => settled

/-- The worker stands at the top of one of its loops, past the table. -/
def lookaheadReturned (table : List MtDenseDispatchEntry) (w : LookaheadWorker) : Bool :=
  decide (table.length ≤ w.head) && (decide (w.pc = .inlineTop) || decide (w.pc = .tailTop))

def lookaheadProgram (window : Nat) : WorkerProgram LookaheadWorker where
  entry := { head := 0, doneBits := fun _ => 0#64, anyOutOfOrder := false, pc := .inlineTop }
  step := lookaheadStep window
  returned := lookaheadReturned
  status := LookaheadWorker.status

/-! ### Moving the head -/

/-- The head stops at the first entry that is not done, and nothing changes in
    which entries count as executed. -/
theorem skipDone_spec (count : Nat) (any : Bool) (fuel head : Nat) (bits : Nat → BitVec 64)
    (hfuel : count ≤ head + fuel) (head' : Nat) (bits' : Nat → BitVec 64)
    (heq : skipDone count any fuel head bits = (head', bits')) :
    (head' < count → (any && doneBit bits' head') = false) ∧
      (∀ p, (p < head' ∨ (any && doneBit bits' p) = true) ↔
        (p < head ∨ (any && doneBit bits p) = true)) ∧
      ((∀ j, doneBit bits j = false) → ∀ j, doneBit bits' j = false) := by
  induction fuel generalizing head bits with
  | zero =>
    obtain ⟨rfl, rfl⟩ := Prod.mk.inj heq
    exact ⟨fun h => absurd h (by omega), fun p => Iff.rfl, fun h => h⟩
  | succ fuel ih =>
    unfold skipDone at heq
    split at heq
    case isTrue hcond =>
      simp only [Bool.and_eq_true, decide_eq_true_eq] at hcond
      obtain ⟨⟨-, rfl⟩, hbit⟩ := hcond
      obtain ⟨hstop, hpast, hclean⟩ := ih (head + 1) (clearDoneBit bits head) (by omega) heq
      refine ⟨hstop, fun p => ?_, fun hzero => ?_⟩
      · rw [hpast p, doneBit_clearDoneBit]
        by_cases hp : p = head
        · subst hp
          simp [hbit]
        · have hlt : p < head + 1 ↔ p < head := by omega
          simp [hp, hlt]
      · rw [hzero head] at hbit
        cases hbit
    case isFalse hcond =>
      obtain ⟨rfl, rfl⟩ := Prod.mk.inj heq
      refine ⟨fun hlt => ?_, fun p => Iff.rfl, fun h => h⟩
      by_contra htrue
      exact hcond (by simpa [hlt] using htrue)

/-! ### Invariant and measure -/

/-- A call is made for an entry that has not been executed. -/
def SiteOk (table : List MtDenseDispatchEntry) (w : LookaheadWorker) : Site → Prop
  | .inline => w.anyOutOfOrder = false ∧ w.head < table.length
  | .head => w.head < table.length
  | .candidate j => w.head < j ∧ j < table.length ∧ w.done j = false

/-- What the control state stands for. -/
def PcOk (table : List MtDenseDispatchEntry) (target : UInt8) (ready : Nat → UInt8)
    (w : LookaheadWorker) : LookaheadPc → Prop
  | .inlineTop => w.anyOutOfOrder = false
  | .inlineLoad slots r => w.anyOutOfOrder = false ∧
      ∃ e, table[w.head]? = some e ∧ (r = true → WaitsSeen target ready e slots)
  | .tailTop => True
  | .headLoad slots r => ∃ e, table[w.head]? = some e ∧ (r = true → WaitsSeen target ready e slots)
  | .scan j => w.head < j ∧ w.head < table.length
  | .scanLoad j slots => w.head < j ∧ w.head < table.length ∧ w.done j = false ∧
      ∃ c, table[j]? = some c ∧ (∀ q ∈ c.locals, w.past q = true) ∧ WaitsSeen target ready c slots
  | .block slots => ∃ e, table[w.head]? = some e ∧ WaitsSeen target ready e slots
  | .body site => SiteOk table w site
  | .publish site _ => SiteOk table w site

structure LookaheadInv (table : List MtDenseDispatchEntry) (target : UInt8) (ready : Nat → UInt8)
    (w : LookaheadWorker) : Prop where
  clean : w.anyOutOfOrder = false → ∀ j, doneBit w.doneBits j = false
  undone : w.head < table.length → w.done w.head = false
  pc_ok : PcOk table target ready w w.pc

/-- The progress of the control state within one round. -/
def LookaheadPc.rank (count : Nat) : LookaheadPc → ℕ ×ₗ ℕ ×ₗ ℕ
  | .inlineTop => toLex (8, toLex (0, 0))
  | .inlineLoad slots _ => toLex (7, toLex (0, slots.length))
  | .tailTop => toLex (6, toLex (0, 0))
  | .headLoad slots _ => toLex (5, toLex (0, slots.length))
  | .scan j => toLex (4, toLex (2 * (count - j) + 1, 0))
  | .scanLoad j slots => toLex (4, toLex (2 * (count - j), slots.length))
  | .block slots => toLex (3, toLex (0, slots.length))
  | .body _ => toLex (2, toLex (0, 0))
  | .publish _ slots => toLex (1, toLex (0, slots.length))

def LookaheadWorker.remaining (w : LookaheadWorker) (count : Nat) : Nat :=
  ((Finset.range count).filter fun p => w.past p = false).card

/-- Entries not yet executed, then the control state. -/
def lookaheadMeasure (table : List MtDenseDispatchEntry) (w : LookaheadWorker) :
    ℕ ×ₗ ℕ ×ₗ ℕ ×ₗ ℕ :=
  toLex (w.remaining table.length, w.pc.rank table.length)

/-- The local prerequisites of a table. -/
def localPrereq (table : List MtDenseDispatchEntry) (q p : Nat) : Prop :=
  ∃ e, table[p]? = some e ∧ q ∈ e.locals

section Steps

variable {table : List MtDenseDispatchEntry} {target : UInt8} {ready : Nat → UInt8}
  {w w' : LookaheadWorker}

theorem SiteOk.not_past {site : Site} (hsite : SiteOk table w site)
    (hinv : LookaheadInv table target ready w) : w.past (w.siteAt site) = false := by
  have hhead : w.head < table.length → w.past w.head = false := fun h => by
    simp [LookaheadWorker.past, hinv.undone h]
  cases site with
  | inline => exact hhead hsite.2
  | head => exact hhead hsite
  | candidate j =>
    obtain ⟨hlt, -, hdone⟩ := hsite
    have hge : ¬ j < w.head := by omega
    simp [LookaheadWorker.siteAt, LookaheadWorker.past, hge, hdone]

theorem SiteOk.lt_length {site : Site} (hsite : SiteOk table w site) :
    w.siteAt site < table.length := by
  cases site with
  | inline => exact hsite.2
  | head => exact hsite
  | candidate j => exact hsite.2.1

theorem status_inactive (h : w.pc.active = none) (p : Nat) :
    w.status p = if w.past p then .storing [] else .idle := by
  unfold LookaheadWorker.status
  rw [h]

theorem status_active {site : Site} {st : Status Nat} (h : w.pc.active = some (site, st)) (p : Nat) :
    w.status p =
      if p = w.siteAt site then st else if w.past p then .storing [] else .idle := by
  unfold LookaheadWorker.status
  rw [h]

/-- What one step has to give. -/
def StepOk (table : List MtDenseDispatchEntry) (target : UInt8) (ready : Nat → UInt8)
    (w w' : LookaheadWorker) (a : Action) : Prop :=
  LookaheadInv table target ready w' ∧ lookaheadMeasure table w' < lookaheadMeasure table w ∧
    Move table (localPrereq table) (fun slot => ready slot = target) w.status w'.status a

theorem lookaheadMeasure_pc {pc : LookaheadPc}
    (h : pc.rank table.length < w.pc.rank table.length) :
    lookaheadMeasure table { w with pc := pc } < lookaheadMeasure table w :=
  Prod.Lex.toLex_lt_toLex.mpr (Or.inr ⟨rfl, h⟩)

/-- A load that only moves the control state. -/
theorem stepOk_load {pc : LookaheadPc} (hinv : LookaheadInv table target ready w)
    (hact : w.pc.active = none) (hact' : pc.active = none)
    (hpc : PcOk table target ready w pc) (hrank : pc.rank table.length < w.pc.rank table.length) :
    StepOk table target ready w { w with pc := pc } .load := by
  refine ⟨⟨hinv.clean, hinv.undone, hpc⟩, lookaheadMeasure_pc hrank, Move.load ?_⟩
  funext p
  rw [status_inactive hact, status_inactive hact']
  rfl

/-- The beginning of a call. -/
theorem stepOk_start (site : Site) {e : MtDenseDispatchEntry}
    (hinv : LookaheadInv table target ready w) (hact : w.pc.active = none)
    (hsite : SiteOk table w site) (he : table[w.siteAt site]? = some e)
    (hwaits : WaitsSeen target ready e []) (hlocal : ∀ q ∈ e.locals, w.past q = true)
    (hrank : (LookaheadPc.body site).rank table.length < w.pc.rank table.length) :
    StepOk table target ready w { w with pc := .body site } (.start e.fn) := by
  refine ⟨⟨hinv.clean, hinv.undone, hsite⟩, lookaheadMeasure_pc hrank,
    Move.start (w.siteAt site) e he ?_ hwaits.tagged ?_ ?_⟩
  · rw [status_inactive hact, hsite.not_past hinv]
    rfl
  · rintro q ⟨e', he', hq⟩
    obtain rfl : e = e' := Option.some.inj (he.symm.trans he')
    rw [status_inactive hact, hlocal q hq]
    rfl
  · funext p
    have hact' : (LookaheadPc.body site).active = some (site, .running) := rfl
    rw [status_active hact']
    by_cases hp : p = w.siteAt site
    · subst hp
      rw [Function.update_self]
      exact if_pos rfl
    · rw [Function.update_of_ne hp, status_inactive hact]
      exact if_neg hp

/-- The status of the entry that is being run moves on. -/
theorem status_advance {site : Site} {st st' : Status Nat} {pc : LookaheadPc}
    (hact : w.pc.active = some (site, st)) (hact' : pc.active = some (site, st')) :
    LookaheadWorker.status { w with pc := pc } = Function.update w.status (w.siteAt site) st' := by
  funext p
  rw [status_active (w := { w with pc := pc }) hact']
  by_cases hp : p = w.siteAt site
  · subst hp
    rw [Function.update_self]
    exact if_pos rfl
  · rw [Function.update_of_ne hp, status_active hact, if_neg hp]
    exact if_neg hp

/-- The end of a call: its entry counts as executed from now on. -/
theorem stepOk_settle (site : Site) (hinv : LookaheadInv table target ready w)
    (hact : w.pc.active = some (site, .storing [])) (hsite : SiteOk table w site)
    (hinv' : LookaheadInv table target ready w') (hact' : w'.pc.active = none)
    (hpast : ∀ p, w'.past p = true ↔ p = w.siteAt site ∨ w.past p = true) :
    StepOk table target ready w w' .load := by
  refine ⟨hinv', Prod.Lex.toLex_lt_toLex.mpr (Or.inl ?_), Move.load ?_⟩
  · show w'.remaining table.length < w.remaining table.length
    unfold LookaheadWorker.remaining
    refine Finset.card_lt_card (Finset.ssubset_iff_of_subset ?_ |>.mpr ⟨w.siteAt site, ?_, ?_⟩)
    · intro p hp
      obtain ⟨hrange, hnot⟩ := Finset.mem_filter.mp hp
      refine Finset.mem_filter.mpr ⟨hrange, ?_⟩
      by_contra hp
      rw [(hpast p).mpr (Or.inr (Bool.eq_true_of_not_eq_false hp))] at hnot
      cases hnot
    · exact Finset.mem_filter.mpr
        ⟨Finset.mem_range.mpr hsite.lt_length, hsite.not_past hinv⟩
    · intro hmem
      have hnot := (Finset.mem_filter.mp hmem).2
      rw [(hpast _).mpr (Or.inl rfl)] at hnot
      cases hnot
  · funext p
    rw [status_inactive hact', status_active hact]
    have hp := hpast p
    by_cases heq : p = w.siteAt site
    · rw [if_pos heq, if_pos (hp.mpr (Or.inl heq))]
    · simp only [heq, false_or, if_false] at hp ⊢
      simp only [hp]

theorem WaitsSeen.load {e : MtDenseDispatchEntry} {slot : Nat} {slots : List Nat} {r : Bool}
    (h : r = true → WaitsSeen target ready e (slot :: slots)) :
    (r && decide (ready slot = target)) = true → WaitsSeen target ready e slots := by
  intro hr
  obtain ⟨hr, hslot⟩ := Bool.and_eq_true_iff.mp hr
  exact (h hr).pass (of_decide_eq_true hslot)

theorem past_of_lt_head {q : Nat} (h : q < w.head) : w.past q = true := by
  simp [LookaheadWorker.past, h]

theorem lookaheadStep_ok {window : Nat} {a : Action}
    (hlocals : ∀ (p : Nat) e, table[p]? = some e → ∀ q ∈ e.locals, q < p)
    (hinv : LookaheadInv table target ready w)
    (hstep : lookaheadStep window table target ready w = some (w', a)) :
    StepOk table target ready w w' a := by
  have hpc := hinv.pc_ok
  have hheadLocal : ∀ e, table[w.head]? = some e → ∀ q ∈ e.locals, w.past q = true :=
    fun e he q hq => past_of_lt_head (hlocals _ e he q hq)
  have hlt : ∀ {p : Nat} {e}, table[p]? = some e → p < table.length :=
    fun h => (List.getElem?_eq_some_iff.mp h).1
  unfold lookaheadStep at hstep
  split at hstep
  case h_1 heq =>
    rw [heq] at hpc
    obtain ⟨e, he, hres⟩ := Option.map_eq_some_iff.mp hstep
    obtain ⟨rfl, rfl⟩ := Prod.mk.inj hres
    refine stepOk_load hinv (by rw [heq]; rfl) rfl ⟨hpc, e, he, fun _ => WaitsSeen.all ..⟩ ?_
    simp [heq, LookaheadPc.rank, Prod.Lex.toLex_lt_toLex]
  case h_2 slot slots r heq =>
    rw [heq] at hpc
    obtain ⟨hany, e, he, hseen⟩ := hpc
    obtain ⟨rfl, rfl⟩ := Prod.mk.inj (Option.some.inj hstep)
    refine stepOk_load hinv (by rw [heq]; rfl) rfl ⟨hany, e, he, WaitsSeen.load hseen⟩ ?_
    simp [heq, LookaheadPc.rank, Prod.Lex.toLex_lt_toLex]
  case h_3 heq =>
    rw [heq] at hpc
    obtain ⟨hany, e, he, hseen⟩ := hpc
    obtain ⟨e', he', hres⟩ := Option.map_eq_some_iff.mp hstep
    obtain rfl : e = e' := Option.some.inj (he.symm.trans he')
    obtain ⟨rfl, rfl⟩ := Prod.mk.inj hres
    refine stepOk_start .inline hinv (by rw [heq]; rfl) ⟨hany, hlt he⟩ he (hseen rfl) (hheadLocal e he) ?_
    simp [heq, LookaheadPc.rank, Prod.Lex.toLex_lt_toLex]
  case h_4 heq =>
    obtain ⟨rfl, rfl⟩ := Prod.mk.inj (Option.some.inj hstep)
    refine stepOk_load hinv (by rw [heq]; rfl) rfl trivial ?_
    simp [heq, LookaheadPc.rank, Prod.Lex.toLex_lt_toLex]
  case h_5 heq =>
    obtain ⟨e, he, hres⟩ := Option.map_eq_some_iff.mp hstep
    obtain ⟨rfl, rfl⟩ := Prod.mk.inj hres
    refine stepOk_load hinv (by rw [heq]; rfl) rfl ⟨e, he, fun _ => WaitsSeen.all ..⟩ ?_
    simp [heq, LookaheadPc.rank, Prod.Lex.toLex_lt_toLex]
  case h_6 slot slots r heq =>
    rw [heq] at hpc
    obtain ⟨e, he, hseen⟩ := hpc
    obtain ⟨rfl, rfl⟩ := Prod.mk.inj (Option.some.inj hstep)
    refine stepOk_load hinv (by rw [heq]; rfl) rfl ⟨e, he, WaitsSeen.load hseen⟩ ?_
    simp [heq, LookaheadPc.rank, Prod.Lex.toLex_lt_toLex]
  case h_7 heq =>
    rw [heq] at hpc
    obtain ⟨e, he, hseen⟩ := hpc
    obtain ⟨e', he', hres⟩ := Option.map_eq_some_iff.mp hstep
    obtain rfl : e = e' := Option.some.inj (he.symm.trans he')
    obtain ⟨rfl, rfl⟩ := Prod.mk.inj hres
    refine stepOk_start .head hinv (by rw [heq]; rfl) (hlt he) he (hseen rfl) (hheadLocal e he) ?_
    simp [heq, LookaheadPc.rank, Prod.Lex.toLex_lt_toLex]
  case h_8 heq =>
    rw [heq] at hpc
    obtain ⟨e, he, -⟩ := hpc
    obtain ⟨rfl, rfl⟩ := Prod.mk.inj (Option.some.inj hstep)
    refine stepOk_load hinv (by rw [heq]; rfl) rfl ⟨Nat.lt_succ_self _, hlt he⟩ ?_
    simp [heq, LookaheadPc.rank, Prod.Lex.toLex_lt_toLex]
  case h_9 j heq =>
    rw [heq] at hpc
    obtain ⟨hj, hhead⟩ := hpc
    have hact : w.pc.active = none := by rw [heq]; rfl
    split at hstep
    case isTrue hscan =>
      have hjlt : j < table.length := lt_of_lt_of_le hscan (min_le_right _ _)
      have hnext : StepOk table target ready w { w with pc := .scan (j + 1) } .load := by
        refine stepOk_load hinv hact rfl ⟨by omega, hhead⟩ ?_
        simp [heq, LookaheadPc.rank, Prod.Lex.toLex_lt_toLex]
        omega
      obtain ⟨c, hc, hres⟩ := Option.map_eq_some_iff.mp hstep
      split at hres
      case isTrue =>
        obtain ⟨rfl, rfl⟩ := Prod.mk.inj hres
        exact hnext
      case isFalse hdone =>
        split at hres
        case isTrue hlocal =>
          obtain ⟨rfl, rfl⟩ := Prod.mk.inj hres
          refine stepOk_load hinv hact rfl ⟨hj, hhead, by simpa using hdone, c, hc,
            List.all_eq_true.mp hlocal, WaitsSeen.all ..⟩ ?_
          simp [heq, LookaheadPc.rank, Prod.Lex.toLex_lt_toLex]
        case isFalse =>
          obtain ⟨rfl, rfl⟩ := Prod.mk.inj hres
          exact hnext
    case isFalse =>
      obtain ⟨e, he, hres⟩ := Option.map_eq_some_iff.mp hstep
      obtain ⟨rfl, rfl⟩ := Prod.mk.inj hres
      refine stepOk_load hinv hact rfl ⟨e, he, WaitsSeen.all ..⟩ ?_
      simp [heq, LookaheadPc.rank, Prod.Lex.toLex_lt_toLex]
  case h_10 j slot slots heq =>
    rw [heq] at hpc
    obtain ⟨hj, hhead, hdone, c, hc, hlocal, hseen⟩ := hpc
    have hact : w.pc.active = none := by rw [heq]; rfl
    split at hstep
    case isTrue hready =>
      obtain ⟨rfl, rfl⟩ := Prod.mk.inj (Option.some.inj hstep)
      refine stepOk_load hinv hact rfl ⟨hj, hhead, hdone, c, hc, hlocal, hseen.pass hready⟩ ?_
      simp [heq, LookaheadPc.rank, Prod.Lex.toLex_lt_toLex]
    case isFalse =>
      obtain ⟨rfl, rfl⟩ := Prod.mk.inj (Option.some.inj hstep)
      have hjlt := hlt hc
      refine stepOk_load hinv hact rfl ⟨by omega, hhead⟩ ?_
      simp [heq, LookaheadPc.rank, Prod.Lex.toLex_lt_toLex]
      omega
  case h_11 j heq =>
    rw [heq] at hpc
    obtain ⟨hj, hhead, hdone, c, hc, hlocal, hseen⟩ := hpc
    obtain ⟨c', hc', hres⟩ := Option.map_eq_some_iff.mp hstep
    obtain rfl : c = c' := Option.some.inj (hc.symm.trans hc')
    obtain ⟨rfl, rfl⟩ := Prod.mk.inj hres
    refine stepOk_start (.candidate j) hinv (by rw [heq]; rfl) ⟨hj, hlt hc, hdone⟩ hc hseen
      hlocal ?_
    simp [heq, LookaheadPc.rank, Prod.Lex.toLex_lt_toLex]
  case h_12 slot slots heq =>
    rw [heq] at hpc
    obtain ⟨e, he, hseen⟩ := hpc
    split at hstep
    case isTrue hready =>
      obtain ⟨rfl, rfl⟩ := Prod.mk.inj (Option.some.inj hstep)
      refine stepOk_load hinv (by rw [heq]; rfl) rfl ⟨e, he, hseen.pass hready⟩ ?_
      simp [heq, LookaheadPc.rank, Prod.Lex.toLex_lt_toLex]
    case isFalse => cases hstep
  case h_13 heq =>
    rw [heq] at hpc
    obtain ⟨e, he, hseen⟩ := hpc
    obtain ⟨e', he', hres⟩ := Option.map_eq_some_iff.mp hstep
    obtain rfl : e = e' := Option.some.inj (he.symm.trans he')
    obtain ⟨rfl, rfl⟩ := Prod.mk.inj hres
    refine stepOk_start .head hinv (by rw [heq]; rfl) (hlt he) he hseen (hheadLocal e he) ?_
    simp [heq, LookaheadPc.rank, Prod.Lex.toLex_lt_toLex]
  case h_14 site heq =>
    rw [heq] at hpc
    obtain ⟨e, he, hres⟩ := Option.map_eq_some_iff.mp hstep
    obtain ⟨rfl, rfl⟩ := Prod.mk.inj hres
    have hact : w.pc.active = some (site, .running) := by rw [heq]; rfl
    refine ⟨⟨hinv.clean, hinv.undone, hpc⟩, lookaheadMeasure_pc ?_,
      Move.finish _ e he ?_ (status_advance hact rfl)⟩
    · simp [heq, LookaheadPc.rank, Prod.Lex.toLex_lt_toLex]
    · rw [status_active hact, if_pos rfl]
  case h_15 site slot slots heq =>
    rw [heq] at hpc
    obtain ⟨rfl, rfl⟩ := Prod.mk.inj (Option.some.inj hstep)
    have hact : w.pc.active = some (site, .storing (slot :: slots)) := by rw [heq]; rfl
    have hsite : SiteOk table w site := hpc
    refine ⟨⟨hinv.clean, hinv.undone, hpc⟩, lookaheadMeasure_pc ?_,
      Move.store _ _ (List.getElem?_eq_getElem hsite.lt_length) slot slots ?_
        (status_advance hact rfl)⟩
    · simp [heq, LookaheadPc.rank, Prod.Lex.toLex_lt_toLex]
    · rw [status_active hact, if_pos rfl]
  case h_16 heq =>
    rw [heq] at hpc
    obtain ⟨rfl, rfl⟩ := Prod.mk.inj (Option.some.inj hstep)
    have hsite : SiteOk table w .inline := hpc
    refine stepOk_settle .inline hinv (by rw [heq]; rfl) hsite
      ⟨hinv.clean, fun _ => ?_, hsite.1⟩ rfl fun p => ?_
    · simp [LookaheadWorker.done, hsite.1]
    · simp [LookaheadWorker.past, LookaheadWorker.done, LookaheadWorker.siteAt, hsite.1]
      omega
  case h_17 heq =>
    rw [heq] at hpc
    obtain ⟨rfl, rfl⟩ := Prod.mk.inj (Option.some.inj hstep)
    obtain ⟨hstop, hpast, hclean⟩ := skipDone_spec table.length w.anyOutOfOrder table.length
      (w.head + 1) w.doneBits (by omega) _ _ rfl
    refine stepOk_settle .head hinv (by rw [heq]; rfl) hpc
      ⟨fun hany => hclean (hinv.clean hany), hstop, trivial⟩ rfl fun p => ?_
    have hiff := hpast p
    simp only [LookaheadWorker.past, LookaheadWorker.done, LookaheadWorker.siteAt, Bool.or_eq_true,
      decide_eq_true_eq]
    rw [hiff, Nat.lt_succ_iff_lt_or_eq, or_comm (a := p < w.head), or_assoc]
  case h_18 j heq =>
    rw [heq] at hpc
    obtain ⟨rfl, rfl⟩ := Prod.mk.inj (Option.some.inj hstep)
    have hsite : SiteOk table w (.candidate j) := hpc
    -- before the first out-of-order entry all bits are clear
    have hdone : ∀ p, w.done p = doneBit w.doneBits p := by
      intro p
      cases hany : w.anyOutOfOrder with
      | false => simp [LookaheadWorker.done, hany, hinv.clean hany p]
      | true => simp [LookaheadWorker.done, hany]
    refine stepOk_settle (.candidate j) hinv (by rw [heq]; rfl) hsite
      ⟨fun hany => Bool.noConfusion hany, fun hhead => ?_, trivial⟩ rfl fun p => ?_
    · have hund := hinv.undone hhead
      rw [hdone] at hund
      have hne : w.head ≠ j := by
        have := hsite.1
        omega
      simp [LookaheadWorker.done, doneBit_setDoneBit, hund, hne]
    · simp only [LookaheadWorker.past, hdone]
      simp [LookaheadWorker.done, LookaheadWorker.siteAt, doneBit_setDoneBit]
      tauto

/-! ### The contract -/

/-- A worker that cannot step has returned, or spins on a token of its head. -/
theorem lookaheadStep_eq_none {window : Nat} (hinv : LookaheadInv table target ready w)
    (h : lookaheadStep window table target ready w = none) :
    lookaheadReturned table w = true ∨
      ∃ slot slots, w.pc = .block (slot :: slots) ∧ ready slot ≠ target := by
  have hpc := hinv.pc_ok
  unfold lookaheadStep at h
  split at h
  case h_1 heq =>
    have hlen := List.getElem?_eq_none_iff.mp (Option.map_eq_none_iff.mp h)
    exact Or.inl (by simp [lookaheadReturned, heq, hlen])
  case h_5 heq =>
    have hlen := List.getElem?_eq_none_iff.mp (Option.map_eq_none_iff.mp h)
    exact Or.inl (by simp [lookaheadReturned, heq, hlen])
  case h_12 slot slots heq =>
    split at h
    case isTrue => cases h
    case isFalse hready => exact Or.inr ⟨slot, slots, heq, hready⟩
  case h_3 heq =>
    rw [heq] at hpc
    obtain ⟨-, e, he, -⟩ := hpc
    simp [he] at h
  case h_7 heq =>
    rw [heq] at hpc
    obtain ⟨e, he, -⟩ := hpc
    simp [he] at h
  case h_9 j heq =>
    rw [heq] at hpc
    obtain ⟨-, hhead⟩ := hpc
    split at h
    case isTrue hscan =>
      have hjlt : j < table.length := lt_of_lt_of_le hscan (min_le_right _ _)
      simp [List.getElem?_eq_getElem hjlt] at h
    case isFalse => simp [List.getElem?_eq_getElem hhead] at h
  case h_10 =>
    split at h
    · cases h
    · cases h
  case h_11 j heq =>
    rw [heq] at hpc
    obtain ⟨-, -, -, c, hc, -⟩ := hpc
    simp [hc] at h
  case h_13 heq =>
    rw [heq] at hpc
    obtain ⟨e, he, -⟩ := hpc
    simp [he] at h
  case h_14 site heq =>
    rw [heq] at hpc
    have hsite : SiteOk table w site := hpc
    simp [List.getElem?_eq_getElem hsite.lt_length] at h
  all_goals cases h

/-- While the worker blocks, its head has not been executed. -/
theorem status_block {slots : List Nat} (hinv : LookaheadInv table target ready w)
    (h : w.pc = .block slots) : w.status w.head = .idle := by
  have hpc := hinv.pc_ok
  rw [h] at hpc
  obtain ⟨e, he, -⟩ := hpc
  have hund := hinv.undone (List.getElem?_eq_some_iff.mp he).1
  rw [status_inactive (by rw [h]; rfl)]
  simp [LookaheadWorker.past, hund]

/-- A worker that has returned has executed its whole table. -/
theorem status_returned (hret : lookaheadReturned table w = true) (p : Nat)
    (hp : p < table.length) : w.status p = .storing [] := by
  simp only [lookaheadReturned, Bool.and_eq_true, Bool.or_eq_true, decide_eq_true_eq] at hret
  have hact : w.pc.active = none := by
    rcases hret.2 with h | h
    · rw [h]
      rfl
    · rw [h]
      rfl
  rw [status_inactive hact, past_of_lt_head (by omega)]
  rfl

theorem PcOk.mono {ready' : Nat → UInt8} {pc : LookaheadPc} (h : PcOk table target ready w pc)
    (hmono : ∀ slot, ready slot = target → ready' slot = target) :
    PcOk table target ready' w pc := by
  cases pc with
  | inlineTop => exact h
  | inlineLoad slots r =>
    obtain ⟨hany, e, he, hseen⟩ := h
    exact ⟨hany, e, he, fun hr => (hseen hr).mono hmono⟩
  | tailTop => exact h
  | headLoad slots r =>
    obtain ⟨e, he, hseen⟩ := h
    exact ⟨e, he, fun hr => (hseen hr).mono hmono⟩
  | scan j => exact h
  | scanLoad j slots =>
    obtain ⟨hj, hhead, hdone, c, hc, hlocal, hseen⟩ := h
    exact ⟨hj, hhead, hdone, c, hc, hlocal, hseen.mono hmono⟩
  | block slots =>
    obtain ⟨e, he, hseen⟩ := h
    exact ⟨e, he, hseen.mono hmono⟩
  | body site => exact h
  | publish site slots => exact h

theorem lookaheadStep_progress {window p : Nat} {e : MtDenseDispatchEntry}
    (hinv : LookaheadInv table target ready w) (he : table[p]? = some e)
    (hnot : w.status p ≠ .storing []) (hearlier : ∀ q, q < p → w.status q = .storing [])
    (hwaits : ∀ slot ∈ e.waits, ready slot = target) :
    ∃ r, lookaheadStep window table target ready w = some r := by
  have hplt := (List.getElem?_eq_some_iff.mp he).1
  by_contra hstuck
  rcases lookaheadStep_eq_none hinv (Option.eq_none_iff_forall_ne_some.mpr fun r hr =>
    hstuck ⟨r, hr⟩) with hret | ⟨slot, slots, hpc, hready⟩
  · exact hnot (status_returned hret p hplt)
  · have hidle := status_block hinv hpc
    have hle : p ≤ w.head := by
      by_contra hgt
      rw [hearlier w.head (by omega)] at hidle
      cases hidle
    rcases Nat.eq_or_lt_of_le hle with heq | hlt
    · have hok := hinv.pc_ok
      rw [hpc] at hok
      obtain ⟨e', he', hseen⟩ := hok
      rw [← heq, he] at he'
      cases he'
      exact hready (hwaits slot (hseen.1 slot List.mem_cons_self))
    · refine hnot ?_
      rw [status_inactive (by rw [hpc]; rfl), past_of_lt_head hlt]
      rfl

/-- The lookahead worker meets the worker contract on every table whose local
    prerequisites come before their entries. -/
def lookaheadContract (window : Nat) (table : List MtDenseDispatchEntry)
    (hlocals : ∀ (p : Nat) e, table[p]? = some e → ∀ q ∈ e.locals, q < p) (target : UInt8) :
    WorkerContract (ℕ ×ₗ ℕ ×ₗ ℕ ×ₗ ℕ) (lookaheadProgram window) table target (localPrereq table) where
  Inv := LookaheadInv table target
  measure := lookaheadMeasure table
  status_entry p := by
    show LookaheadWorker.status (lookaheadProgram window).entry p = .idle
    rw [status_inactive rfl]
    simp [LookaheadWorker.past, LookaheadWorker.done, lookaheadProgram]
  inv_entry ready := ⟨fun _ => doneBit_zero, fun _ => rfl, rfl⟩
  inv_mono h hmono := ⟨h.clean, h.undone, h.pc_ok.mono hmono⟩
  step_ok := lookaheadStep_ok hlocals
  progress _ _ := lookaheadStep_progress
  returned_ok _ hret := status_returned hret
  stuck_returned hinv hstep hall := by
    rcases lookaheadStep_eq_none hinv hstep with hret | ⟨slot, slots, hpc, -⟩
    · exact hret
    · have hok := hinv.pc_ok
      rw [hpc] at hok
      obtain ⟨e, he, -⟩ := hok
      have hexec := (status_block hinv hpc).symm.trans (hall _ (List.getElem?_eq_some_iff.mp he).1)
      cases hexec

end Steps

end Gsim
