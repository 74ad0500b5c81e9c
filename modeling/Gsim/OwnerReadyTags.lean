/-
  Gsim/OwnerReadyTags.lean
  ========================
  **One-bit tags over many cycles.**

  The tag a cycle stores and waits for is the parity of `cycles`; a serial cycle
  advances the parity and touches no token.  `mtDenseOwnerReadyTokensPrimed` says
  whether the last cycle left the tokens behind in phase.  Whatever the pattern of
  pool and serial cycles and the first value of `cycles`: a pool cycle starts with
  the opposite tag in every slot in use, ends with its own tag in each of them,
  and a tag that a wait accepts was stored in the same cycle.
-/
import Gsim.LookaheadExecutor

namespace Gsim

open Relation TokenProtocol

section Tags

variable {W M : Type} [Preorder M] {P : WorkerProgram W} {D : DenseDispatch}
  {pre : Nat → Nat → Nat → Prop} {s s' : DenseState W}

/-- The other of the two tags. -/
def oppositeTag (tag : UInt8) : UInt8 := 1 - tag

theorem oppositeTag_targetOf (cycles : Nat) : oppositeTag (targetOf cycles) = rephaseValue cycles := by
  unfold targetOf rephaseValue
  split <;> rfl

theorem targetOf_eq_opposite_succ (cycles : Nat) :
    targetOf cycles = oppositeTag (targetOf (cycles + 1)) := by
  unfold targetOf
  rcases Nat.mod_two_eq_zero_or_one cycles with h | h
  · have hsucc : (cycles + 1) % 2 ≠ 0 := by omega
    rw [if_pos h, if_neg hsucc]
    rfl
  · have hsucc : (cycles + 1) % 2 = 0 := by omega
    have hne : cycles % 2 ≠ 0 := by omega
    rw [if_neg hne, if_pos hsucc]
    rfl

/-- Between cycles, primed tokens hold the opposite of the next target. -/
def PrimedOpposite (D : DenseDispatch) (s : DenseState W) : Prop :=
  s.inPool = false → s.tokensPrimed = true →
    ∀ slot ∈ D.storeList, s.ready slot = oppositeTag (targetOf s.cycles)

theorem mem_storeList (hok : DispatchOk D) {slot : Nat} :
    slot ∈ D.storeList ↔ ∃ x, slot ∈ D.stores x := by
  constructor
  · intro hslot
    obtain ⟨x, -, hx⟩ := List.mem_flatMap.mp hslot
    exact ⟨x, hx⟩
  · rintro ⟨x, hx⟩
    exact List.mem_flatMap.mpr ⟨x, List.mem_range.mpr (hok.storer_lt slot x hx), hx⟩

/-- A pool cycle that has returned leaves its own tag everywhere. -/
theorem PoolInv.tagged_of_returned {hok : DispatchOk D}
    {C : ∀ t target, WorkerContract M P (D.table t) target (pre t)} (h : PoolInv hok C s)
    (hret : ∀ t, t < D.threadCount → P.returned (D.table t) (s.workers t) = true) :
    ∀ slot ∈ D.storeList, s.ready slot = targetOf s.cycles := by
  intro slot hslot
  obtain ⟨x, hx⟩ := (mem_storeList hok).mp hslot
  have hexec := h.executed_of_returned hret (hok.storer_lt slot x hx)
  exact h.tokens.tagged_of_executed hexec hx

/-- Every step of the executor ends in phase: only `join` leaves the tokens primed. -/
theorem ExecInv.primedOpposite_step {hok : DispatchOk D}
    {C : ∀ t target, WorkerContract M P (D.table t) target (pre t)} (h : ExecInv hok C s)
    (hstep : DenseStep P D s s') : PrimedOpposite D s' := by
  cases hstep with
  | enter hpool =>
    intro hfalse
    cases hfalse
  | work t s' hwork =>
    intro hfalse
    obtain ⟨hpool, -, w, a, -, rfl⟩ := hwork
    rw [perform_inPool, hpool] at hfalse
    cases hfalse
  | join hpool hret =>
    intro _ _ slot hslot
    have htag := (h.pool hpool).tagged_of_returned hret slot hslot
    exact htag.trans (targetOf_eq_opposite_succ s.cycles)
  | serial hpool =>
    intro _ hprimed
    cases hprimed

theorem Reachable.primedOpposite (hr : Reachable P D s) (hok : DispatchOk D)
    (C : ∀ t target, WorkerContract M P (D.table t) target (pre t)) : PrimedOpposite D s := by
  obtain ⟨s₀, hinit, hrun⟩ := hr
  cases hrun with
  | refl =>
    intro _ hprimed
    rw [hinit.1] at hprimed
    cases hprimed
  | @tail b _ hab hstep =>
    have hreach : Reachable P D b := ⟨s₀, hinit, hab⟩
    exact (hreach.inv hok C).primedOpposite_step hstep

/-- Posting the pool, whether the tokens had to be primed or not. -/
theorem PrimedOpposite.enterPool (hphase : PrimedOpposite D s) (hpool : s.inPool = false) :
    ∀ slot ∈ D.storeList, (Gsim.enterPool P D s).ready slot = oppositeTag (targetOf s.cycles) := by
  intro slot hslot
  show (if s.tokensPrimed then s.ready else primeTokens D s.cycles s.ready) slot = _
  cases hprimed : s.tokensPrimed with
  | true => exact hphase hpool hprimed slot hslot
  | false =>
    show primeTokens D s.cycles s.ready slot = _
    unfold primeTokens
    rw [foldl_update_eq, if_pos hslot, oppositeTag_targetOf]

/-- What the tags of the slots in use promise in one state. -/
structure TagsInPhase (P : WorkerProgram W) (D : DenseDispatch) (s : DenseState W) : Prop where
  /-- a pool cycle that starts here starts with the opposite tag everywhere -/
  starts : s.inPool = false → ∀ slot ∈ D.storeList,
    (enterPool P D s).ready slot = oppositeTag (targetOf s.cycles)
  /-- a pool cycle that ends here leaves its tag everywhere -/
  ends : s.inPool = true →
    (∀ t, t < D.threadCount → P.returned (D.table t) (s.workers t) = true) →
    ∀ slot ∈ D.storeList, s.ready slot = targetOf s.cycles
  /-- a wait that passes waits for a slot in use whose storer has finished in this cycle -/
  waits : s.inPool = true → ∀ m, ∀ slot ∈ D.waits m, s.ready slot = targetOf s.cycles →
    slot ∈ D.storeList ∧ ∃ x, slot ∈ D.stores x ∧ .finish x ∈ s.trace

theorem Reachable.tagsInPhase (hr : Reachable P D s) (hok : DispatchOk D)
    (C : ∀ t target, WorkerContract M P (D.table t) target (pre t)) : TagsInPhase P D s where
  starts hpool := (hr.primedOpposite hok C).enterPool hpool
  ends hpool hret := ((hr.inv hok C).pool hpool).tagged_of_returned hret
  waits hpool m slot hslot htag := by
    obtain ⟨x, -, hx⟩ := hok.waits_storer m slot hslot
    refine ⟨(mem_storeList hok).mpr ⟨x, hx⟩, x, hx, ?_⟩
    exact ((hr.inv hok C).pool hpool).tokens.storer_finished slot x hx htag

end Tags

/-- **Tags never confuse cycles**, under either protocol: in every state that any sequence of
    pool and serial cycles reaches, from any first value of `cycles`. -/
theorem denseExecutor_tags_in_phase {threadCount : Nat} (G : MTaskGraph)
    (A : Assignment G.size threadCount) (window : Nat) :
    (∃ layout, mtBuildDenseOwnerReadyLayout (strictRuntimeSuccs G.mtasks A.owners) A.owners
        threadCount = some layout ∧
      ∀ s, Reachable strictProgram (strictDispatch layout A.owners threadCount) s →
        TagsInPhase strictProgram (strictDispatch layout A.owners threadCount) s) ∧
    ∃ D, lookaheadDispatch G.mtasks A.owners threadCount = some D ∧
      ∀ s, Reachable (lookaheadProgram window) D s → TagsInPhase (lookaheadProgram window) D s := by
  constructor
  · obtain ⟨layout, slot, hbuild, hfacts⟩ :=
      mtBuildDenseOwnerReadyLayout_eq_some (strictRuntimeSuccs_ok G A)
    have hok : DispatchOk (strictDispatch layout A.owners threadCount) :=
      dispatchOk_ofLayout (strictRuntimeSuccs_ok G A) hfacts _
    refine ⟨layout, hbuild, fun s hreach => ?_⟩
    exact hreach.tagsInPhase hok fun t target => strictContract _ target
  · obtain ⟨D, hdispatch, -, -, hlocals, hok, -⟩ := lookaheadDispatch_spec G A
    refine ⟨D, hdispatch, fun s hreach => ?_⟩
    exact hreach.tagsInPhase hok (lookaheadContracts window hlocals)

end Gsim
