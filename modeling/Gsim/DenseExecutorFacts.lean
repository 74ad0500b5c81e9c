/-
  Gsim/DenseExecutorFacts.lean
  ============================
  **Dense executor: what every worker program that meets its contract gives.**

  The pool of workers refines the token protocol: `abs` reads an abstract state
  off a concrete one, and each step of a worker is a step of the protocol
  (`PoolInv.work`).  The protocol's invariant then holds in every reachable state
  of every cycle, and the minimal MTask that has not been executed shows that
  some worker can go on.
-/
import Gsim.DenseExecutor

namespace Gsim

open Relation TokenProtocol

variable {W M : Type} [Preorder M] {P : WorkerProgram W} {D : DenseDispatch}
  {pre : Nat → Nat → Nat → Prop}

/-! ### Refinement -/

/-- The token protocol of a dispatch: a local prerequisite is an MTask of the same
    worker at a position required by `pre`. -/
def tokenTables (hok : DispatchOk D) (pre : Nat → Nat → Nat → Prop) : Tables Nat Nat where
  waits := D.waits
  stores := D.stores
  localPre y x := y < D.nMTasks ∧ D.owner y = D.owner x ∧
    pre (D.owner x) (D.position y) (D.position x)
  storer_unique := hok.storer_unique

/-- The abstract state. -/
def abs (P : WorkerProgram W) (D : DenseDispatch) (s : DenseState W) : State Nat Nat where
  status := s.statusOf P D
  tagged slot := s.ready slot = targetOf s.cycles
  trace := s.trace

theorem targetOf_succ_ne (cycles : Nat) : targetOf (cycles + 1) ≠ targetOf cycles := by
  unfold targetOf
  rcases Nat.mod_two_eq_zero_or_one cycles with h | h
  · simp [h, Nat.add_mod]
  · simp [h, Nat.add_mod]

theorem rephaseValue_ne (cycles : Nat) : rephaseValue cycles ≠ targetOf cycles := by
  unfold rephaseValue targetOf
  split <;> decide

theorem foldl_update_eq (slots : List Nat) (slot : Nat) (v : UInt8) (ready : Nat → UInt8) :
    slots.foldl (fun ready slot => Function.update ready slot v) ready slot =
      if slot ∈ slots then v else ready slot := by
  induction slots generalizing ready with
  | nil => simp
  | cons a slots ih =>
    rw [List.foldl_cons, ih]
    by_cases ha : slot = a
    · subst ha
      simp
    · simp [ha]

/-- Priming takes every slot in use out of the phase of the cycle. -/
theorem primeTokens_ne (hok : DispatchOk D) {slot x : Nat} (h : slot ∈ D.stores x) (cycles : Nat)
    (ready : Nat → UInt8) : primeTokens D cycles ready slot ≠ targetOf cycles := by
  have hmem : slot ∈ D.storeList :=
    List.mem_flatMap.mpr ⟨x, List.mem_range.mpr (hok.storer_lt slot x h), h⟩
  unfold primeTokens
  rw [foldl_update_eq, if_pos hmem]
  exact rephaseValue_ne cycles

@[simp] theorem perform_cycles (s : DenseState W) (t : Nat) (w : W) (a : Action) :
    (s.perform t w a).cycles = s.cycles := by cases a <;> rfl

@[simp] theorem perform_inPool (s : DenseState W) (t : Nat) (w : W) (a : Action) :
    (s.perform t w a).inPool = s.inPool := by cases a <;> rfl

@[simp] theorem perform_tokensPrimed (s : DenseState W) (t : Nat) (w : W) (a : Action) :
    (s.perform t w a).tokensPrimed = s.tokensPrimed := by cases a <;> rfl

@[simp] theorem perform_workers (s : DenseState W) (t : Nat) (w : W) (a : Action) :
    (s.perform t w a).workers = Function.update s.workers t w := by cases a <;> rfl

/-- Steps only add tags. -/
theorem perform_ready_mono (s : DenseState W) (t : Nat) (w : W) (a : Action) (slot : Nat)
    (h : s.ready slot = targetOf s.cycles) : (s.perform t w a).ready slot = targetOf s.cycles := by
  cases a with
  | load => exact h
  | start m => exact h
  | finish m => exact h
  | store slot' =>
    by_cases hs : slot = slot'
    · subst hs
      exact Function.update_self ..
    · exact (Function.update_of_ne hs ..).trans h

/-- A step that leaves the table of its worker alone leaves the abstract status alone. -/
theorem statusOf_perform_same {s : DenseState W} {t : Nat} {w : W} {a : Action}
    (hv : P.status w = P.status (s.workers t)) :
    (s.perform t w a).statusOf P D = s.statusOf P D := by
  funext m
  unfold DenseState.statusOf
  rw [perform_workers]
  by_cases ht : D.owner m = t
  · subst ht
    rw [Function.update_self, hv]
  · rw [Function.update_of_ne ht]

/-- A step that updates one entry of the table updates one MTask. -/
theorem statusOf_perform_update {s : DenseState W} {t p : Nat} {w : W} {a : Action}
    {e : MtDenseDispatchEntry} {st : Status Nat} (hok : DispatchOk D)
    (he : (D.table t)[p]? = some e)
    (hv : P.status w = Function.update (P.status (s.workers t)) p st) :
    (s.perform t w a).statusOf P D = Function.update (s.statusOf P D) e.fn st := by
  obtain ⟨hn, ho, hp, -⟩ := table_eq_some he
  funext m
  unfold DenseState.statusOf
  rw [perform_workers]
  by_cases hm : m = e.fn
  · subst hm
    rw [Function.update_self, if_pos hn, ho, Function.update_self, hv, hp, Function.update_self]
  · rw [Function.update_of_ne hm]
    by_cases hmn : m < D.nMTasks
    · rw [if_pos hmn, if_pos hmn]
      by_cases ht : D.owner m = t
      · -- another MTask of the same worker stands at another position
        have hne : D.position m ≠ p := by
          intro heq
          have hget := table_position hok hmn
          rw [ht, heq, he] at hget
          exact hm (by rw [Option.some.inj hget]; rfl)
        rw [ht, Function.update_self, hv, Function.update_of_ne hne]
      · rw [Function.update_of_ne ht]
    · rw [if_neg hmn, if_neg hmn]

/-- The status a worker reports for an entry is that of its MTask. -/
theorem statusOf_entry {s : DenseState W} {t p : Nat} {e : MtDenseDispatchEntry}
    (he : (D.table t)[p]? = some e) :
    s.statusOf P D e.fn = P.status (s.workers t) p := by
  obtain ⟨hn, ho, hp, -⟩ := table_eq_some he
  unfold DenseState.statusOf
  rw [if_pos hn, ho, hp]

/-- **A move of a worker is a step of the token protocol.** -/
theorem abs_perform {s : DenseState W} {t : Nat} {w : W} {a : Action} (hok : DispatchOk D)
    (hmove : Move (D.table t) (pre t) (fun slot => s.ready slot = targetOf s.cycles)
      (P.status (s.workers t)) (P.status w) a) :
    Step (tokenTables hok pre) (abs P D s) (abs P D (s.perform t w a)) := by
  cases hmove with
  | load hv =>
    have habs : abs P D (s.perform t w .load) = abs P D s := by
      unfold abs
      rw [statusOf_perform_same hv]
      rfl
    rw [habs]
    exact Step.stutter
  | start p e he hidle hwaits hpre hv =>
    obtain ⟨hn, ho, hp, hent⟩ := table_eq_some he
    have habs : abs P D (s.perform t w (.start e.fn)) =
        { status := Function.update (abs P D s).status e.fn .running, tagged := (abs P D s).tagged,
          trace := (abs P D s).trace ++ [.start e.fn] } := by
      unfold abs
      rw [statusOf_perform_update hok he hv]
      rfl
    rw [habs]
    refine Step.start e.fn ?_ ?_ ?_
    · exact (statusOf_entry he).trans hidle
    · intro slot hslot
      refine hwaits slot ?_
      rw [hent]
      exact hslot
    · rintro y ⟨hy, hyo, hypre⟩
      rw [ho] at hyo
      rw [ho, hp] at hypre
      have hexec := hpre _ hypre
      show s.statusOf P D y = _
      unfold DenseState.statusOf
      rw [if_pos hy, hyo, hexec]
  | finish p e he hrun hv =>
    obtain ⟨-, -, -, hent⟩ := table_eq_some he
    have hstores : e.stores = D.stores e.fn := congrArg MtDenseDispatchEntry.stores hent
    have habs : abs P D (s.perform t w (.finish e.fn)) =
        { status := Function.update (abs P D s).status e.fn
            (.storing ((tokenTables hok pre).stores e.fn)),
          tagged := (abs P D s).tagged, trace := (abs P D s).trace ++ [.finish e.fn] } := by
      unfold abs
      rw [statusOf_perform_update hok he hv, hstores]
      rfl
    rw [habs]
    exact Step.finish e.fn ((statusOf_entry he).trans hrun)
  | store p e he slot rest hst hv =>
    have habs : abs P D (s.perform t w (.store slot)) =
        { status := Function.update (abs P D s).status e.fn (.storing rest),
          tagged := fun slot' => slot' = slot ∨ (abs P D s).tagged slot',
          trace := (abs P D s).trace } := by
      unfold abs
      rw [statusOf_perform_update hok he hv]
      congr 1
      funext slot'
      by_cases hs : slot' = slot
      · subst hs
        simp [DenseState.perform]
      · simp [DenseState.perform, hs]
    rw [habs]
    exact Step.store e.fn slot rest ((statusOf_entry he).trans hst)

/-- **Edges of a layout are covered.**  One token serves a group of edges: its
    publisher is the last source, and the other sources must be local
    prerequisites of the publisher. -/
theorem covers_of_edge {runtimeSuccs : List (List Nat)} {assignment : List Int} {threadCount : Nat}
    {layout : MtDenseOwnerReadyLayout} {slot : OwnerReadyGroup → Nat} {locals : Nat → List Nat}
    (hgraph : RuntimeGraphOk runtimeSuccs assignment threadCount)
    (hfacts : LayoutFacts runtimeSuccs assignment layout slot)
    {hok : DispatchOk (DenseDispatch.ofLayout layout assignment threadCount locals)}
    (hsib : ∀ g ∈ ownerReadyGroups runtimeSuccs assignment, ∀ a ∈ g.sources, a < g.lastSource →
      (tokenTables hok pre).localPre a g.lastSource)
    {a b : Nat} (hab : Edge runtimeSuccs a b) : (tokenTables hok pre).Covers a b := by
  obtain ⟨g, hg, rfl, -, ha⟩ := exists_group assignment hab
  refine Or.inr ⟨slot g, (hfacts.mem_waits _ _).mpr ⟨g, hg, rfl, rfl⟩, g.lastSource,
    (hfacts.mem_stores _ _).mpr ⟨g, hg, rfl, rfl⟩, ?_⟩
  rcases Nat.eq_or_lt_of_le ((group_lastSource hgraph hg).2 a ha) with heq | hlt
  · exact Or.inl heq
  · exact Or.inr (hsib g hg a ha hlt)

/-! ### Invariants over cycles -/

section Contract

variable (hok : DispatchOk D)
  (C : ∀ t target, WorkerContract M P (D.table t) target (pre t))

/-- During a pool cycle. -/
structure PoolInv (s : DenseState W) : Prop where
  primed : s.tokensPrimed = true
  workers : ∀ t, (C t (targetOf s.cycles)).Inv s.ready (s.workers t)
  tokens : TokenProtocol.Inv (tokenTables hok pre) (abs P D s)

/-- In every state: the trace is ordered and without repetition, a pool cycle keeps
    its invariant, and primed tokens are out of the phase of the next cycle. -/
structure ExecInv (s : DenseState W) : Prop where
  ordered : Ordered (tokenTables hok pre) s.trace
  nodup : s.trace.Nodup
  pool : s.inPool = true → PoolInv hok C s
  fresh : s.inPool = false → s.tokensPrimed = true →
    ∀ slot x, slot ∈ D.stores x → s.ready slot ≠ targetOf s.cycles

variable {hok C} {s s' : DenseState W}

theorem PoolInv.work (h : PoolInv hok C s) {t : Nat} (hstep : WorkStep P D t s s') :
    PoolInv hok C s' := by
  obtain ⟨-, -, w, a, hrun, rfl⟩ := hstep
  obtain ⟨hinv, -, hmove⟩ := (C t _).step_ok (h.workers t) hrun
  refine ⟨by rw [perform_tokensPrimed]; exact h.primed, fun u => ?_, ?_⟩
  · rw [perform_cycles, perform_workers]
    have hmono : ∀ slot, s.ready slot = targetOf s.cycles →
        (s.perform t w a).ready slot = targetOf s.cycles := perform_ready_mono s t w a
    refine (C u _).inv_mono ?_ hmono
    by_cases hu : u = t
    · subst hu
      rw [Function.update_self]
      exact hinv
    · rw [Function.update_of_ne hu]
      exact h.workers u
  · exact h.tokens.step (abs_perform hok hmove)

/-- All workers have returned: everything has been executed. -/
theorem PoolInv.executed_of_returned (h : PoolInv hok C s)
    (hret : ∀ t, t < D.threadCount → P.returned (D.table t) (s.workers t) = true) {m : Nat}
    (hm : m < D.nMTasks) : Executed P D s m := by
  have hlt := (List.getElem?_eq_some_iff.mp (table_position hok hm)).1
  unfold Executed DenseState.statusOf
  rw [if_pos hm]
  exact (C _ _).returned_ok (h.workers _) (hret _ (owner_lt hok hm)) _ hlt

theorem ExecInv.step (h : ExecInv hok C s) (hstep : DenseStep P D s s') : ExecInv hok C s' := by
  cases hstep with
  | enter hpool =>
    refine ⟨?_, List.nodup_nil, fun _ => ⟨rfl, fun t => (C t _).inv_entry _, ?_⟩, ?_⟩
    · intro l x post heq
      simp [enterPool] at heq
    · refine TokenProtocol.Inv.init (fun m => ?_) rfl fun slot x hx => ?_
      · show (enterPool P D s).statusOf P D m = _
        unfold DenseState.statusOf
        split
        · exact (C (D.owner m) 0).status_entry _
        · rfl
      · show (if s.tokensPrimed then s.ready else primeTokens D s.cycles s.ready) slot
          ≠ targetOf s.cycles
        split
        case isTrue hprimed => exact h.fresh hpool hprimed slot x hx
        case isFalse => exact primeTokens_ne hok hx _ _
    · intro hfalse
      simp [enterPool] at hfalse
  | work t s' hwork =>
    have hinv := (h.pool hwork.1).work hwork
    refine ⟨hinv.tokens.order, hinv.tokens.nodup, fun _ => hinv, fun hfalse => ?_⟩
    obtain ⟨hpool, -, w, a, -, rfl⟩ := hwork
    rw [perform_inPool, hpool] at hfalse
    cases hfalse
  | join hpool hret =>
    refine ⟨h.ordered, h.nodup, fun hfalse => Bool.noConfusion hfalse, fun _ _ slot x hx => ?_⟩
    -- every slot in use carries the tag of the cycle that ends
    have hinv := h.pool hpool
    have hx' := hinv.executed_of_returned hret (hok.storer_lt slot x hx)
    have htag : s.ready slot = targetOf s.cycles := hinv.tokens.tagged_of_executed hx' hx
    show s.ready slot ≠ targetOf (s.cycles + 1)
    rw [htag]
    exact (targetOf_succ_ne s.cycles).symm
  | serial hpool =>
    refine ⟨fun l x post heq => ?_, List.nodup_nil, fun hfalse => ?_, fun _ hfalse => ?_⟩
    · simp at heq
    · rw [hpool] at hfalse
      cases hfalse
    · cases hfalse

theorem Reachable.inv (hr : Reachable P D s) (hok : DispatchOk D)
    (C : ∀ t target, WorkerContract M P (D.table t) target (pre t)) : ExecInv hok C s := by
  obtain ⟨s₀, ⟨hprimed, hpool, htrace⟩, hrun⟩ := hr
  induction hrun with
  | refl =>
    refine ⟨fun l x post heq => ?_, by simp [htrace], fun h => ?_, fun _ h => ?_⟩
    · simp [htrace] at heq
    · rw [hpool] at h
      cases h
    · rw [hprimed] at h
      cases h
  | tail _ hstep ih => exact ih.step hstep

/-! ### Progress -/

theorem PoolInv.executed_work (h : PoolInv hok C s) {t : Nat} (hstep : WorkStep P D t s s')
    {m : Nat} (hm : Executed P D s m) : Executed P D s' m := by
  obtain ⟨-, -, w, a, hrun, rfl⟩ := hstep
  obtain ⟨-, -, hmove⟩ := (C t _).step_ok (h.workers t) hrun
  exact (abs_perform hok hmove).executed hm

/-- All MTasks with a smaller id have been executed, and `m` has not. -/
def NextUnexecuted (P : WorkerProgram W) (D : DenseDispatch) (s : DenseState W) (m : Nat) : Prop :=
  m < D.nMTasks ∧ ¬ Executed P D s m ∧ ∀ k, k < m → Executed P D s k

theorem exists_nextUnexecuted (h : ∃ m, m < D.nMTasks ∧ ¬ Executed P D s m) :
    ∃ m, NextUnexecuted P D s m := by
  classical
  refine ⟨Nat.find h, (Nat.find_spec h).1, (Nat.find_spec h).2, fun k hk => ?_⟩
  by_contra hnot
  exact Nat.find_min h hk ⟨lt_trans hk (Nat.find_spec h).1, hnot⟩

/-- The tokens of the smallest MTask that has not been executed are all there. -/
theorem PoolInv.waits_tagged (h : PoolInv hok C s) {m : Nat} (hm : NextUnexecuted P D s m) :
    ∀ slot ∈ D.waits m, s.ready slot = targetOf s.cycles := by
  intro slot hslot
  obtain ⟨z, hzm, hz⟩ := hok.waits_storer m slot hslot
  exact h.tokens.tagged_of_executed (hm.2.2 z hzm) hz

/-- Its worker has executed every earlier entry of its table. -/
theorem NextUnexecuted.earlier (hok : DispatchOk D) {m : Nat} (hm : NextUnexecuted P D s m)
    {q : Nat} (hq : q < D.position m) :
    P.status (s.workers (D.owner m)) q = .storing [] := by
  have hlt := (List.getElem?_eq_some_iff.mp (table_position hok hm.1)).1
  obtain ⟨e, he⟩ : ∃ e, (D.table (D.owner m))[q]? = some e :=
    ⟨_, List.getElem?_eq_getElem (lt_trans hq hlt)⟩
  obtain ⟨hn, ho, hp, -⟩ := table_eq_some he
  have hexec := hm.2.2 e.fn ((position_lt_iff hok hn hm.1 ho).mp (by rw [hp]; exact hq))
  exact (statusOf_entry he).symm.trans hexec

theorem PoolInv.enabled (h : PoolInv hok C s) (hpool : s.inPool = true) {m : Nat}
    (hm : NextUnexecuted P D s m) : ∃ s', WorkStep P D (D.owner m) s s' := by
  have hstatus : P.status (s.workers (D.owner m)) (D.position m) ≠ .storing [] := by
    intro heq
    refine hm.2.1 ?_
    unfold Executed DenseState.statusOf
    rw [if_pos hm.1, heq]
  obtain ⟨⟨w, a⟩, hrun⟩ := (C _ _).progress (D.position m) (D.entry m) (h.workers (D.owner m))
    (table_position hok hm.1) hstatus (fun q hq => hm.earlier hok hq) (h.waits_tagged hm)
  exact ⟨_, hpool, owner_lt hok hm.1, w, a, hrun, rfl⟩

/-- **Solo progress.**  The worker of the smallest MTask that has not been executed
    executes it by its own steps, without any other worker moving. -/
theorem PoolInv.solo [WellFoundedLT M] (h : PoolInv hok C s) (hpool : s.inPool = true) {m : Nat}
    (hm : NextUnexecuted P D s m) :
    ∃ s', ReflTransGen (WorkStep P D (D.owner m)) s s' ∧ Executed P D s' m := by
  -- induction on the measure of that worker; the other MTasks below `m` stay executed
  generalize hμ : (C (D.owner m) (targetOf s.cycles)).measure (s.workers (D.owner m)) = μ
  induction μ using WellFoundedLT.induction generalizing s with
  | _ μ ih =>
    obtain ⟨s₁, hstep⟩ := h.enabled hpool hm
    have h₁ := h.work hstep
    by_cases hexec : Executed P D s₁ m
    · exact ⟨s₁, ReflTransGen.single hstep, hexec⟩
    · have hm₁ : NextUnexecuted P D s₁ m :=
        ⟨hm.1, hexec, fun k hk => h.executed_work hstep (hm.2.2 k hk)⟩
      obtain ⟨-, -, w, a, hrun, heq⟩ := id hstep
      have hlt := ((C _ _).step_ok (h.workers (D.owner m)) hrun).2.1
      have hpool₁ : s₁.inPool = true := by
        rw [heq, perform_inPool]
        exact hpool
      obtain ⟨s', hsolo, hdone⟩ := ih _ (hμ ▸ hlt) h₁ hpool₁ hm₁ (by
        rw [heq, perform_cycles, perform_workers, Function.update_self])
      exact ⟨s', ReflTransGen.head hstep hsolo, hdone⟩

/-! ### Termination -/

/-- The measures of all workers. -/
def poolMeasure (C : ∀ t target, WorkerContract M P (D.table t) target (pre t))
    (s : DenseState W) : Fin D.threadCount → M :=
  fun t => (C t (targetOf s.cycles)).measure (s.workers t)

theorem PoolInv.measure_lt (h : PoolInv hok C s) {t : Nat} (hstep : WorkStep P D t s s') :
    poolMeasure C s' < poolMeasure C s := by
  obtain ⟨-, ht, w, a, hrun, rfl⟩ := hstep
  have hlt := ((C t _).step_ok (h.workers t) hrun).2.1
  refine Pi.lt_def.mpr ⟨fun u => ?_, ⟨t, ht⟩, ?_⟩
  · unfold poolMeasure
    rw [perform_cycles, perform_workers]
    by_cases hu : (u : Nat) = t
    · rw [hu, Function.update_self]
      exact hlt.le
    · rw [Function.update_of_ne hu]
  · unfold poolMeasure
    rw [perform_cycles, perform_workers, Function.update_self]
    exact hlt

/-- **A pool cycle ends.**  The workers cannot step for ever. -/
theorem no_infinite_work [WellFoundedLT M]
    (C : ∀ t target, WorkerContract M P (D.table t) target (pre t)) (hok : DispatchOk D)
    (run : Nat → DenseState W) (hr : Reachable P D (run 0)) :
    ¬ ∀ i, ∃ t, WorkStep P D t (run i) (run (i + 1)) := by
  intro hrun
  have hinv : ∀ i, PoolInv hok C (run i) := by
    intro i
    induction i with
    | zero =>
      obtain ⟨t, hstep⟩ := hrun 0
      exact (hr.inv hok C).pool hstep.1
    | succ i ih =>
      obtain ⟨t, hstep⟩ := hrun i
      exact ih.work hstep
  have hdesc : ∀ i, poolMeasure C (run (i + 1)) < poolMeasure C (run i) := by
    intro i
    obtain ⟨t, hstep⟩ := hrun i
    exact (hinv i).measure_lt hstep
  exact (RelEmbedding.natGT _ hdesc).not_wellFounded wellFounded_lt

/-- **A pool cycle that stops has executed everything**, and joins. -/
theorem PoolInv.stuck (h : PoolInv hok C s) (hpool : s.inPool = true)
    (hstuck : ∀ t s', ¬ WorkStep P D t s s') :
    (∀ m, m < D.nMTasks → Executed P D s m) ∧
      ∀ t, t < D.threadCount → P.returned (D.table t) (s.workers t) = true := by
  have hall : ∀ m, m < D.nMTasks → Executed P D s m := by
    by_contra hnot
    push Not at hnot
    obtain ⟨m, hm⟩ := exists_nextUnexecuted hnot
    obtain ⟨s', hstep⟩ := h.enabled hpool hm
    exact hstuck _ s' hstep
  refine ⟨hall, fun t ht => (C t _).stuck_returned (h.workers t) ?_ fun p hp => ?_⟩
  · by_contra hne
    obtain ⟨⟨w, a⟩, hrun⟩ := Option.ne_none_iff_exists'.mp hne
    exact hstuck t _ ⟨hpool, ht, w, a, hrun, rfl⟩
  · have he := List.getElem?_eq_getElem hp
    exact (statusOf_entry he).symm.trans (hall _ (table_eq_some he).1)

end Contract

end Gsim
