/-
  Gsim/StrictExecutor.lean
  ========================
  **Strict order** (the strict loop of `emitFixedDenseThreadWorker`).

  A worker runs its MTasks in ascending id.  Before an MTask it spins on each of
  its wait slots in turn, after it it stores each of its store slots.  The tokens
  are laid out on the cross-worker edges, transitively reduced over the workers'
  program order, so program order itself is what covers the dropped edges.
-/
import Gsim.DenseExecutorFacts

namespace Gsim

open Relation TokenProtocol

/-! ### The worker -/

inductive StrictPc where
  | top
  | waiting (slots : List Nat)
  | body
  | storing (slots : List Nat)
deriving DecidableEq, Repr

structure StrictWorker where
  head : Nat
  pc : StrictPc
deriving DecidableEq, Repr

/-- One step of the unrolled loop; `none` is a spin, or the end of the case. -/
def strictStep (table : List MtDenseDispatchEntry) (target : UInt8) (ready : Nat → UInt8)
    (w : StrictWorker) : Option (StrictWorker × Action) :=
  match table[w.head]? with
  | none => none
  | some e =>
    match w.pc with
    | .top => some ({ w with pc := .waiting e.waits }, .load)
    | .waiting [] => some ({ w with pc := .body }, .start e.fn)
    | .waiting (slot :: slots) =>
      if ready slot = target then some ({ w with pc := .waiting slots }, .load) else none
    | .body => some ({ w with pc := .storing e.stores }, .finish e.fn)
    | .storing (slot :: slots) => some ({ w with pc := .storing slots }, .store slot)
    | .storing [] => some ({ head := w.head + 1, pc := .top }, .load)

def StrictPc.status : StrictPc → Status Nat
  | .top => .idle
  | .waiting _ => .idle
  | .body => .running
  | .storing slots => .storing slots

def StrictWorker.status (w : StrictWorker) (p : Nat) : Status Nat :=
  if p < w.head then .storing [] else if p = w.head then w.pc.status else .idle

def strictProgram : WorkerProgram StrictWorker where
  entry := { head := 0, pc := .top }
  step := strictStep
  returned table w := decide (table.length ≤ w.head)
  status := StrictWorker.status

/-! ### It meets its contract -/

def StrictInv (table : List MtDenseDispatchEntry) (target : UInt8) (ready : Nat → UInt8)
    (w : StrictWorker) : Prop :=
  ∀ slots e, w.pc = .waiting slots → table[w.head]? = some e → WaitsSeen target ready e slots

/-- Remaining entries, then the phase, then the slots of the phase. -/
def strictMeasure (table : List MtDenseDispatchEntry) (w : StrictWorker) : ℕ ×ₗ ℕ ×ₗ ℕ :=
  toLex (table.length - w.head, toLex (match w.pc with
    | .top => (3, 0)
    | .waiting slots => (2, slots.length)
    | .body => (1, 0)
    | .storing slots => (0, slots.length)))

theorem StrictWorker.status_pc (w : StrictWorker) (pc : StrictPc) :
    StrictWorker.status { w with pc := pc } = Function.update w.status w.head pc.status := by
  funext p
  by_cases hp : p = w.head
  · subst hp
    simp [StrictWorker.status]
  · rw [Function.update_of_ne hp]
    simp [StrictWorker.status, hp]

theorem StrictWorker.status_head (w : StrictWorker) : w.status w.head = w.pc.status := by
  simp [StrictWorker.status]

theorem StrictWorker.status_pc_same {w : StrictWorker} {pc : StrictPc}
    (h : pc.status = w.pc.status) : StrictWorker.status { w with pc := pc } = w.status := by
  rw [StrictWorker.status_pc, h, ← StrictWorker.status_head, Function.update_eq_self]

theorem StrictWorker.status_next {w : StrictWorker} (h : w.pc = .storing []) :
    StrictWorker.status { head := w.head + 1, pc := .top } = w.status := by
  funext p
  rcases lt_trichotomy p w.head with hlt | rfl | hgt
  · simp [StrictWorker.status, hlt, Nat.lt_succ_of_lt hlt]
  · simp [StrictWorker.status, h, StrictPc.status]
  · have h1 : ¬ p < w.head + 1 := by omega
    have h2 : ¬ p < w.head := by omega
    have h3 : p ≠ w.head := by omega
    simp [StrictWorker.status, StrictPc.status, h1, h2, h3]

theorem strictStep_ok {table : List MtDenseDispatchEntry} {target : UInt8} {ready : Nat → UInt8}
    {w w' : StrictWorker} {a : Action} (hinv : StrictInv table target ready w)
    (hstep : strictStep table target ready w = some (w', a)) :
    StrictInv table target ready w' ∧ strictMeasure table w' < strictMeasure table w ∧
      Move table (· < ·) (fun slot => ready slot = target) w.status w'.status a := by
  unfold strictStep at hstep
  rcases he : table[w.head]? with _ | e
  · simp [he] at hstep
  simp only [he] at hstep
  have hlt := (List.getElem?_eq_some_iff.mp he).1
  have hkeep : ∀ pc, (∀ slots, pc = .waiting slots → WaitsSeen target ready e slots) →
      StrictInv table target ready { w with pc := pc } := by
    intro pc hpc slots e' hslots he'
    obtain rfl : e = e' := Option.some.inj (he.symm.trans he')
    exact hpc slots hslots
  have hstatus := w.status_head
  split at hstep
  case h_1 htop =>
    obtain ⟨rfl, rfl⟩ := Prod.mk.inj (Option.some.inj hstep)
    refine ⟨hkeep _ ?_, ?_, Move.load (StrictWorker.status_pc_same (by rw [htop]; rfl))⟩
    · rintro slots ⟨⟩
      exact WaitsSeen.all target ready e
    · simp [strictMeasure, htop, Prod.Lex.toLex_lt_toLex]
  case h_2 hwait =>
    obtain ⟨rfl, rfl⟩ := Prod.mk.inj (Option.some.inj hstep)
    refine ⟨hkeep _ (fun slots h => by cases h), ?_, ?_⟩
    · simp [strictMeasure, hwait, Prod.Lex.toLex_lt_toLex]
    · refine Move.start w.head e he ?_ (hinv [] e hwait he).tagged ?_ (w.status_pc .body)
      · rw [hstatus, hwait]
        rfl
      · intro q hq
        simp [StrictWorker.status, hq]
  case h_3 slot slots hwait =>
    split at hstep
    case isFalse => cases hstep
    case isTrue hready =>
      obtain ⟨rfl, rfl⟩ := Prod.mk.inj (Option.some.inj hstep)
      refine ⟨hkeep _ ?_, ?_, Move.load (StrictWorker.status_pc_same (by rw [hwait]; rfl))⟩
      · rintro slots' ⟨⟩
        exact (hinv _ e hwait he).pass hready
      · simp [strictMeasure, hwait, Prod.Lex.toLex_lt_toLex]
  case h_4 hbody =>
    obtain ⟨rfl, rfl⟩ := Prod.mk.inj (Option.some.inj hstep)
    refine ⟨hkeep _ (fun slots h => by cases h), ?_, ?_⟩
    · simp [strictMeasure, hbody, Prod.Lex.toLex_lt_toLex]
    · refine Move.finish w.head e he ?_ (w.status_pc (.storing e.stores))
      rw [hstatus, hbody]
      rfl
  case h_5 slot slots hst =>
    obtain ⟨rfl, rfl⟩ := Prod.mk.inj (Option.some.inj hstep)
    refine ⟨hkeep _ (fun slots h => by cases h), ?_, ?_⟩
    · simp [strictMeasure, hst, Prod.Lex.toLex_lt_toLex]
    · refine Move.store w.head e he slot slots ?_ (w.status_pc (.storing slots))
      rw [hstatus, hst]
      rfl
  case h_6 hst =>
    obtain ⟨rfl, rfl⟩ := Prod.mk.inj (Option.some.inj hstep)
    refine ⟨fun slots e' h => by simp at h, ?_, Move.load (StrictWorker.status_next hst)⟩
    refine Prod.Lex.toLex_lt_toLex.mpr (Or.inl ?_)
    show table.length - (w.head + 1) < table.length - w.head
    omega

/-- A worker that cannot step has passed its table, or spins on a token of the
    entry it stands at. -/
theorem strictStep_eq_none {table : List MtDenseDispatchEntry} {target : UInt8}
    {ready : Nat → UInt8} {w : StrictWorker} (h : strictStep table target ready w = none) :
    table.length ≤ w.head ∨ ∃ slot slots, w.pc = .waiting (slot :: slots) ∧ ready slot ≠ target := by
  unfold strictStep at h
  rcases he : table[w.head]? with _ | e
  · exact Or.inl (List.getElem?_eq_none_iff.mp he)
  · simp only [he] at h
    split at h
    case h_3 slot slots hwait =>
      split at h
      case isTrue => cases h
      case isFalse hready => exact Or.inr ⟨slot, slots, hwait, hready⟩
    all_goals cases h

theorem strictStep_progress {table : List MtDenseDispatchEntry} {target : UInt8}
    {ready : Nat → UInt8} {w : StrictWorker} {p : Nat} {e : MtDenseDispatchEntry}
    (hinv : StrictInv table target ready w) (he : table[p]? = some e)
    (hnot : w.status p ≠ .storing []) (hearlier : ∀ q, q < p → w.status q = .storing [])
    (hwaits : ∀ slot ∈ e.waits, ready slot = target) :
    ∃ r, strictStep table target ready w = some r := by
  have hge : w.head ≤ p := by
    by_contra hlt
    refine hnot ?_
    unfold StrictWorker.status
    rw [if_pos (by omega)]
  have hplt := (List.getElem?_eq_some_iff.mp he).1
  by_contra hstuck
  rcases strictStep_eq_none (Option.eq_none_iff_forall_ne_some.mpr fun r hr => hstuck ⟨r, hr⟩)
    with hlen | ⟨slot, slots, hpc, hready⟩
  · omega
  · rcases Nat.eq_or_lt_of_le hge with heq | hlt
    · rw [← heq] at he
      exact hready (hwaits slot ((hinv _ e hpc he).1 slot List.mem_cons_self))
    · have hidle := hearlier w.head hlt
      rw [StrictWorker.status_head, hpc] at hidle
      cases hidle

/-- The strict loop meets the worker contract, with program order as its local
    prerequisites. -/
def strictContract (table : List MtDenseDispatchEntry) (target : UInt8) :
    WorkerContract (ℕ ×ₗ ℕ ×ₗ ℕ) strictProgram table target (· < ·) where
  Inv := StrictInv table target
  measure := strictMeasure table
  status_entry p := by
    show StrictWorker.status { head := 0, pc := .top } p = .idle
    unfold StrictWorker.status
    rw [if_neg (Nat.not_lt_zero p)]
    split <;> rfl
  inv_entry ready slots e h := by cases h
  inv_mono h hmono slots e hpc he := (h slots e hpc he).mono hmono
  step_ok := strictStep_ok
  progress _ _ := strictStep_progress
  returned_ok hinv hret p hp := by
    have hlen := of_decide_eq_true hret
    show StrictWorker.status _ p = _
    unfold StrictWorker.status
    rw [if_pos (by omega)]
  stuck_returned hinv hstep hall := by
    refine decide_eq_true ?_
    rcases strictStep_eq_none hstep with hlen | ⟨slot, slots, hpc, -⟩
    · exact hlen
    · by_contra hlt
      have hexec := hall _ (Nat.lt_of_not_le hlt)
      change StrictWorker.status _ _ = _ at hexec
      rw [StrictWorker.status_head, hpc] at hexec
      cases hexec

/-! ### The dispatch -/

/-- The cross-worker successors, reduced over the injected worker chains. -/
def strictRuntimeSuccs (mtasks : List MtDenseMTask) (assignment : List Int) : List (List Nat) :=
  (mtReduceDenseRuntimeSuccsTransitive (mtBuildDenseRuntimeSuccs mtasks assignment true)
    assignment true).1

variable {threadCount : Nat} (G : MTaskGraph) (A : Assignment G.size threadCount)

theorem strictRuntimeSuccs_ok :
    RuntimeGraphOk (strictRuntimeSuccs G.mtasks A.owners) A.owners threadCount := by
  have hlen : (strictRuntimeSuccs G.mtasks A.owners).length = G.size := by
    unfold strictRuntimeSuccs
    rw [length_mtReduceDenseRuntimeSuccsTransitive, length_mtBuildDenseRuntimeSuccs]
    rfl
  have hsub : ∀ a, (succsAt (strictRuntimeSuccs G.mtasks A.owners) a).Sublist
      (succsAt (mtBuildDenseRuntimeSuccs G.mtasks A.owners true) a) :=
    mtReduceDenseRuntimeSuccsTransitive_sublist _ _ _
  have hedge : ∀ a b, Edge (strictRuntimeSuccs G.mtasks A.owners) a b →
      Edge (mtBuildDenseRuntimeSuccs G.mtasks A.owners true) a b := fun a b h => (hsub a).subset h
  refine ⟨A.threads_pos, by rw [hlen, A.length_eq], ?_, ?_, ?_, ?_⟩
  · intro m hm
    exact A.inRange m (hlen ▸ hm)
  · intro a b hab
    obtain ⟨hsucc, -, hb, -⟩ := (edge_mtBuildDenseRuntimeSuccs _ _ _ _ _).mp (hedge a b hab)
    rw [hlen]
    exact ⟨G.dep_lt (G.dep_iff_succ.mpr hsucc), hb⟩
  · intro a
    exact (pairwise_mtBuildDenseRuntimeSuccs G.mtasks A.owners true a).sublist (hsub a)
  · intro a b hab heq
    obtain ⟨-, ha, hb, hnot⟩ := (edge_mtBuildDenseRuntimeSuccs _ _ _ _ _).mp (hedge a b hab)
    exact hnot ⟨rfl, (A.inRange a ha).1, (A.inRange b hb).1, heq⟩

/-- The dispatch of the strict loop; it reads no local prerequisites. -/
def strictDispatch (layout : MtDenseOwnerReadyLayout) (assignment : List Int) (threadCount : Nat) :
    DenseDispatch :=
  DenseDispatch.ofLayout layout assignment threadCount fun _ => []

/-- Program order on one worker is a local prerequisite. -/
theorem strict_localPre {D : DenseDispatch} (hok : DispatchOk D) {a b : Nat} (hab : a < b)
    (hb : b < D.nMTasks) (howner : assignAt D.assignment a = assignAt D.assignment b) :
    (tokenTables hok fun _ => (· < ·)).localPre a b := by
  have ha : a < D.nMTasks := lt_trans hab hb
  have ho : D.owner a = D.owner b := by
    unfold DenseDispatch.owner
    rw [howner]
  exact ⟨ha, ho, (position_lt_iff hok ha hb ho).mpr hab⟩

/-- Every original dependency is covered: by program order on one worker, else by a
    path of tokens and program order. -/
theorem strict_covers_dep {layout : MtDenseOwnerReadyLayout} {slot : OwnerReadyGroup → Nat}
    (hfacts : LayoutFacts (strictRuntimeSuccs G.mtasks A.owners) A.owners layout slot)
    (hok : DispatchOk (strictDispatch layout A.owners threadCount)) {p m : Nat} (hdep : G.Dep p m) :
    TransGen (tokenTables hok fun _ => (· < ·)).Covers p m := by
  have hsize : (strictDispatch layout A.owners threadCount).nMTasks = G.size := A.length_eq
  have hm := G.dep_lt_size hdep
  by_cases howner : assignAt A.owners p = assignAt A.owners m
  · exact TransGen.single (Or.inl (strict_localPre hok (G.dep_lt hdep) (hm.trans_eq hsize.symm) howner))
  · -- the edge survives `mtBuildDenseRuntimeSuccs`; its reduction keeps a path
    have hedge : Edge (mtBuildDenseRuntimeSuccs G.mtasks A.owners true) p m :=
      (edge_mtBuildDenseRuntimeSuccs _ _ _ _ _).mpr ⟨G.dep_iff_succ.mp hdep,
        lt_trans (G.dep_lt hdep) hm, hm, fun h => howner h.2.2.2⟩
    have hpath := (reduced_transGen_iff (mtBuildDenseRuntimeSuccs G.mtasks A.owners true) A.owners
      true p m).mpr (TransGen.single (Or.inl hedge))
    refine TransGen.mono ?_ _ _ hpath
    rintro x y (hxy | ⟨-, hlt, hy, -, heq, -⟩)
    · refine covers_of_edge (strictRuntimeSuccs_ok G A) hfacts (fun g hg a ha hlt => ?_) hxy
      have hlast := (group_sources_iff hg).mp (group_lastSource (strictRuntimeSuccs_ok G A) hg).1
      refine strict_localPre hok hlt ?_ (((group_sources_iff hg).mp ha).2.trans hlast.2.symm)
      exact lt_of_lt_of_eq (lt_length_of_edge hlast.1) (strictRuntimeSuccs_ok G A).length_eq.symm
    · rw [length_mtBuildDenseRuntimeSuccs] at hy
      exact Or.inl (strict_localPre hok hlt (hy.trans_eq hsize.symm) heq.symm)

/-- **Strict order is safe.**  The layout is built, and in every state of every
    cycle of every interleaving, each start of an MTask in the trace of the cycle
    comes after the completion of all its `predMTasks`. -/
theorem strictExecutor_predMTasks_completed :
    ∃ layout, mtBuildDenseOwnerReadyLayout (strictRuntimeSuccs G.mtasks A.owners) A.owners
        threadCount = some layout ∧
      ∀ s, Reachable strictProgram (strictDispatch layout A.owners threadCount) s →
        ∀ before m after, s.trace = before ++ .start m :: after →
          ∀ p, G.Dep p m → .finish p ∈ before := by
  obtain ⟨layout, slot, hbuild, hfacts⟩ :=
    mtBuildDenseOwnerReadyLayout_eq_some (strictRuntimeSuccs_ok G A)
  refine ⟨layout, hbuild, fun s hreach before m after htrace p hdep => ?_⟩
  have hok : DispatchOk (strictDispatch layout A.owners threadCount) :=
    dispatchOk_ofLayout (strictRuntimeSuccs_ok G A) hfacts _
  have hinv := hreach.inv hok fun t target => strictContract _ target
  exact hinv.ordered before m after htrace p (strict_covers_dep G A hfacts hok hdep)

end Gsim
