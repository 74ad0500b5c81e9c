/-
  Gsim/LookaheadExecutor.lean
  ===========================
  **The lookahead tables** (`genDenseExecutor`), and what they give the executor.

  The tokens are laid out on the cross-worker edges of the transitive reduction of
  the whole MTask DAG, without worker chains.  What program order no longer
  covers is written down as local prerequisites: the same-worker predecessors of
  the reduction, and for the publisher of a token the other sources it stands for.

  The last section states the absence of deadlock for both protocols.
-/
import Gsim.LookaheadWorker
import Gsim.StrictExecutor

namespace Gsim

open Relation TokenProtocol SortedContainers

/-! ### Tables -/

/-- `denseLookaheadDagOnlySuccs`. -/
def lookaheadDagOnlySuccs (mtasks : List MtDenseMTask) (assignment : List Int) : List (List Nat) :=
  (mtReduceDenseRuntimeSuccsTransitive (mtBuildDenseRuntimeSuccs mtasks assignment false)
    assignment false).1

/-- `denseLookaheadCrossWorkerSuccs`. -/
def lookaheadCrossWorkerSuccs (dagSuccs : List (List Nat)) (assignment : List Int) :
    List (List Nat) :=
  (List.range dagSuccs.length).map fun pred =>
    (succsAt dagSuccs pred).filter fun succ =>
      decide (assignAt assignment pred ≠ assignAt assignment succ)

/-- `sameWorkerPredsByMTask`, as positions. -/
def sameWorkerPreds (dagSuccs : List (List Nat)) (assignment : List Int) (mtaskId : Nat) :
    List Nat :=
  ((List.range dagSuccs.length).filter fun pred =>
    decide (mtaskId ∈ succsAt dagSuccs pred) &&
      decide (assignAt assignment pred = assignAt assignment mtaskId)).map
    (positionByMTask assignment)

/-- The tokens of a layout with their sources. -/
def tokensOf (layout : MtDenseOwnerReadyLayout) :
    List (MtDenseOwnerReadyTokenProvenance × List Nat) :=
  layout.tokenProvenanceByLogicalToken.zip layout.sourceMTasksByLogicalToken

/-- `publisherSiblingsByMTask`, as positions. -/
def publisherSiblings (layout : MtDenseOwnerReadyLayout) (assignment : List Int) (mtaskId : Nat) :
    List Nat :=
  (tokensOf layout).flatMap fun token =>
    if token.1.producerMTask = mtaskId then
      (token.2.filter fun source => decide (source ≠ mtaskId)).map (positionByMTask assignment)
    else []

/-- The slice of `kDenseLookaheadLocalPrereqs` of one MTask. -/
def lookaheadLocalPrereqs (dagSuccs : List (List Nat)) (layout : MtDenseOwnerReadyLayout)
    (assignment : List Int) (mtaskId : Nat) : List Nat :=
  sortUnique (sameWorkerPreds dagSuccs assignment mtaskId ++
    publisherSiblings layout assignment mtaskId)

/-- The Asserts on the edges of the reduction. -/
def lookaheadEdgeAsserts (dagSuccs : List (List Nat)) (assignment : List Int) : Bool :=
  (List.range dagSuccs.length).all fun pred => (succsAt dagSuccs pred).all fun succ =>
    decide (pred < succ) && decide (succ < dagSuccs.length) &&
      (decide (assignAt assignment pred ≠ assignAt assignment succ) ||
        decide (positionByMTask assignment pred < positionByMTask assignment succ))

/-- The Asserts on the sources of the tokens. -/
def lookaheadTokenAsserts (layout : MtDenseOwnerReadyLayout) (assignment : List Int) : Bool :=
  (tokensOf layout).all fun token =>
    decide (token.2.getLast? = some token.1.producerMTask) &&
      token.2.all fun source => decide (source = token.1.producerMTask) ||
        (decide (assignAt assignment source = token.1.producerOwner) &&
          decide (positionByMTask assignment source <
            positionByMTask assignment token.1.producerMTask))

/-- The dispatch the generator lays down for the lookahead executor. -/
def lookaheadDispatch (mtasks : List MtDenseMTask) (assignment : List Int) (threadCount : Nat) :
    Option DenseDispatch := do
  let dagSuccs := lookaheadDagOnlySuccs mtasks assignment
  let layout ← mtBuildDenseOwnerReadyLayout (lookaheadCrossWorkerSuccs dagSuccs assignment)
    assignment threadCount
  Assert (lookaheadEdgeAsserts dagSuccs assignment)
  Assert (lookaheadTokenAsserts layout assignment)
  Assert ((List.range dagSuccs.length).all fun mtaskId =>
    (lookaheadLocalPrereqs dagSuccs layout assignment mtaskId).all fun position =>
      decide (position < positionByMTask assignment mtaskId))
  return DenseDispatch.ofLayout layout assignment threadCount
    (lookaheadLocalPrereqs dagSuccs layout assignment)

/-! ### The tables are built -/

section Tables

variable {threadCount : Nat} (G : MTaskGraph) (A : Assignment G.size threadCount)

theorem length_lookaheadDagOnlySuccs :
    (lookaheadDagOnlySuccs G.mtasks A.owners).length = G.size := by
  unfold lookaheadDagOnlySuccs
  rw [length_mtReduceDenseRuntimeSuccsTransitive, length_mtBuildDenseRuntimeSuccs]
  rfl

theorem edge_lookaheadDagOnlySuccs {a b : Nat}
    (h : Edge (lookaheadDagOnlySuccs G.mtasks A.owners) a b) : a < b ∧ b < G.size := by
  have hedge := (mtReduceDenseRuntimeSuccsTransitive_sublist _ _ _ a).subset h
  obtain ⟨hsucc, -, hb, -⟩ := (edge_mtBuildDenseRuntimeSuccs _ _ _ _ _).mp hedge
  exact ⟨G.dep_lt (G.dep_iff_succ.mpr hsucc), hb⟩

theorem edge_lookaheadCrossWorkerSuccs (dagSuccs : List (List Nat)) (assignment : List Int)
    (a b : Nat) : Edge (lookaheadCrossWorkerSuccs dagSuccs assignment) a b ↔
      Edge dagSuccs a b ∧ assignAt assignment a ≠ assignAt assignment b := by
  unfold Edge lookaheadCrossWorkerSuccs
  rw [succsAt_map_range]
  by_cases ha : a < dagSuccs.length
  · simp [if_pos ha]
  · simp [succsAt_eq_nil (Nat.le_of_not_lt ha)]

theorem lookaheadCrossWorkerSuccs_ok :
    RuntimeGraphOk (lookaheadCrossWorkerSuccs (lookaheadDagOnlySuccs G.mtasks A.owners) A.owners)
      A.owners threadCount := by
  have hlen : (lookaheadCrossWorkerSuccs (lookaheadDagOnlySuccs G.mtasks A.owners)
      A.owners).length = G.size := by
    unfold lookaheadCrossWorkerSuccs
    rw [List.length_map, List.length_range, length_lookaheadDagOnlySuccs]
  refine ⟨A.threads_pos, by rw [hlen, A.length_eq], ?_, ?_, ?_, ?_⟩
  · intro m hm
    exact A.inRange m (hlen ▸ hm)
  · intro a b hab
    rw [hlen]
    exact edge_lookaheadDagOnlySuccs G A ((edge_lookaheadCrossWorkerSuccs _ _ _ _).mp hab).1
  · intro a
    unfold lookaheadCrossWorkerSuccs
    rw [succsAt_map_range]
    split
    · refine List.Pairwise.filter _ ?_
      exact (pairwise_mtBuildDenseRuntimeSuccs G.mtasks A.owners false a).sublist
        (mtReduceDenseRuntimeSuccsTransitive_sublist _ _ _ a)
    · exact List.Pairwise.nil
  · intro a b hab
    exact ((edge_lookaheadCrossWorkerSuccs _ _ _ _).mp hab).2

theorem mem_sameWorkerPreds {dagSuccs : List (List Nat)} {assignment : List Int} {m q : Nat} :
    q ∈ sameWorkerPreds dagSuccs assignment m ↔ ∃ pred, Edge dagSuccs pred m ∧
      assignAt assignment pred = assignAt assignment m ∧ positionByMTask assignment pred = q := by
  unfold sameWorkerPreds
  simp only [List.mem_map, List.mem_filter, List.mem_range, Bool.and_eq_true, decide_eq_true_eq]
  constructor
  · rintro ⟨pred, ⟨-, hedge, howner⟩, hq⟩
    exact ⟨pred, hedge, howner, hq⟩
  · rintro ⟨pred, hedge, howner, hq⟩
    exact ⟨pred, ⟨lt_length_of_edge hedge, hedge, howner⟩, hq⟩

/-- The tokens are the groups of the layout. -/
theorem tokensOf_eq {runtimeSuccs : List (List Nat)} {assignment : List Int}
    {layout : MtDenseOwnerReadyLayout} {slot : OwnerReadyGroup → Nat}
    (hfacts : LayoutFacts runtimeSuccs assignment layout slot) :
    tokensOf layout = (ownerReadyGroups runtimeSuccs assignment).map fun g =>
      ({ readySlot := slot g, producerMTask := g.lastSource, producerOwner := g.producerOwner,
         consumerMTask := g.destination, consumerOwner := g.consumerOwner }, g.sources) := by
  unfold tokensOf
  rw [hfacts.provenance, hfacts.sources, List.zip_map']

theorem mem_publisherSiblings {runtimeSuccs : List (List Nat)} {assignment : List Int}
    {layout : MtDenseOwnerReadyLayout} {slot : OwnerReadyGroup → Nat}
    (hfacts : LayoutFacts runtimeSuccs assignment layout slot) {m q : Nat} :
    q ∈ publisherSiblings layout assignment m ↔
      ∃ g ∈ ownerReadyGroups runtimeSuccs assignment, g.lastSource = m ∧
        ∃ source ∈ g.sources, source ≠ m ∧ positionByMTask assignment source = q := by
  unfold publisherSiblings
  rw [tokensOf_eq hfacts]
  simp only [List.mem_flatMap, List.mem_map]
  constructor
  · rintro ⟨token, ⟨g, hg, rfl⟩, hq⟩
    split at hq
    case isTrue hlast =>
      simp only [List.mem_map, List.mem_filter, decide_eq_true_eq] at hq
      obtain ⟨source, ⟨hs, hne⟩, hq⟩ := hq
      exact ⟨g, hg, hlast, source, hs, hne, hq⟩
    case isFalse => cases hq
  · rintro ⟨g, hg, hlast, source, hs, hne, hq⟩
    refine ⟨_, ⟨g, hg, rfl⟩, ?_⟩
    rw [if_pos hlast]
    simp only [List.mem_map, List.mem_filter, decide_eq_true_eq]
    exact ⟨source, ⟨hs, hne⟩, hq⟩

/-- The sources of a group come before its publisher on their worker. -/
theorem group_position_lt {runtimeSuccs : List (List Nat)} {assignment : List Int}
    (hok : RuntimeGraphOk runtimeSuccs assignment threadCount) {g : OwnerReadyGroup}
    (hg : g ∈ ownerReadyGroups runtimeSuccs assignment) {source : Nat} (hs : source ∈ g.sources)
    (hne : source ≠ g.lastSource) :
    positionByMTask assignment source < positionByMTask assignment g.lastSource := by
  obtain ⟨hlast, hmax⟩ := group_lastSource hok hg
  obtain ⟨hedge, howner⟩ := (group_sources_iff hg).mp hs
  obtain ⟨hedge', howner'⟩ := (group_sources_iff hg).mp hlast
  have hlt := lt_length_of_edge hedge
  have hlt' := lt_length_of_edge hedge'
  refine (positionByMTask_lt_iff (hlt.trans_eq hok.length_eq.symm)
    (hlt'.trans_eq hok.length_eq.symm) (hok.owners _ hlt').1 (howner.trans howner'.symm)).mpr ?_
  exact lt_of_le_of_ne (hmax source hs) hne

theorem lookaheadLocalPrereqs_lt {layout : MtDenseOwnerReadyLayout} {slot : OwnerReadyGroup → Nat}
    (hfacts : LayoutFacts (lookaheadCrossWorkerSuccs (lookaheadDagOnlySuccs G.mtasks A.owners)
      A.owners) A.owners layout slot) {m q : Nat}
    (hq : q ∈ lookaheadLocalPrereqs (lookaheadDagOnlySuccs G.mtasks A.owners) layout A.owners m) :
    q < positionByMTask A.owners m := by
  unfold lookaheadLocalPrereqs at hq
  rw [mem_sortUnique, List.mem_append] at hq
  rcases hq with hq | hq
  · obtain ⟨pred, hedge, howner, rfl⟩ := mem_sameWorkerPreds.mp hq
    obtain ⟨hlt, hm⟩ := edge_lookaheadDagOnlySuccs G A hedge
    refine (positionByMTask_lt_iff ?_ ?_ (A.inRange m hm).1 howner).mpr hlt
    · exact (lt_trans hlt hm).trans_eq A.length_eq.symm
    · exact hm.trans_eq A.length_eq.symm
  · obtain ⟨g, hg, rfl, source, hs, hne, rfl⟩ := (mem_publisherSiblings hfacts).mp hq
    exact group_position_lt (lookaheadCrossWorkerSuccs_ok G A) hg hs hne

/-- **The lookahead tables are always built.** -/
theorem lookaheadDispatch_eq_some :
    ∃ layout slot, LayoutFacts (lookaheadCrossWorkerSuccs (lookaheadDagOnlySuccs G.mtasks A.owners)
        A.owners) A.owners layout slot ∧
      lookaheadDispatch G.mtasks A.owners threadCount =
        some (DenseDispatch.ofLayout layout A.owners threadCount
          (lookaheadLocalPrereqs (lookaheadDagOnlySuccs G.mtasks A.owners) layout A.owners)) := by
  have hgraph := lookaheadCrossWorkerSuccs_ok G A
  obtain ⟨layout, slot, hbuild, hfacts⟩ := mtBuildDenseOwnerReadyLayout_eq_some hgraph
  refine ⟨layout, slot, hfacts, ?_⟩
  unfold lookaheadDispatch
  simp only [hbuild, Option.bind_eq_bind, Option.bind_some]
  simp only [← Option.bind_eq_bind]
  rw [Assert_bind, Assert_bind, Assert_bind]
  · rfl
  · refine List.all_eq_true.mpr fun m _ => List.all_eq_true.mpr fun q hq => ?_
    exact decide_eq_true (lookaheadLocalPrereqs_lt G A hfacts hq)
  · unfold lookaheadTokenAsserts
    rw [tokensOf_eq hfacts, List.all_eq_true]
    intro token htoken
    obtain ⟨g, hg, rfl⟩ := List.mem_map.mp htoken
    obtain ⟨-, hne, hlast, -⟩ := mem_ownerReadyGroups hg
    rw [Bool.and_eq_true, decide_eq_true_eq, List.all_eq_true]
    refine ⟨?_, fun source hs => ?_⟩
    · rw [List.getLast?_eq_some_getLast hne, hlast, List.getLastD_eq_getLast?,
        List.getLast?_eq_some_getLast hne]
      rfl
    · by_cases heq : source = g.lastSource
      · simp [heq]
      · simp [heq, ((group_sources_iff hg).mp hs).2, group_position_lt hgraph hg hs heq]
  · unfold lookaheadEdgeAsserts
    refine List.all_eq_true.mpr fun pred _ => List.all_eq_true.mpr fun succ hsucc => ?_
    obtain ⟨hlt, hm⟩ := edge_lookaheadDagOnlySuccs G A hsucc
    rw [Bool.and_eq_true, Bool.and_eq_true, Bool.or_eq_true, decide_eq_true_eq, decide_eq_true_eq,
      decide_eq_true_eq, decide_eq_true_eq, length_lookaheadDagOnlySuccs]
    refine ⟨⟨hlt, hm⟩, ?_⟩
    by_cases howner : assignAt A.owners pred = assignAt A.owners succ
    · refine Or.inr ((positionByMTask_lt_iff ?_ ?_ (A.inRange succ hm).1 howner).mpr hlt)
      · exact (lt_trans hlt hm).trans_eq A.length_eq.symm
      · exact hm.trans_eq A.length_eq.symm
    · exact Or.inl howner

/-! ### Safety -/

/-- The local prerequisites of worker `t`. -/
def lookaheadPre (D : DenseDispatch) (t : Nat) : Nat → Nat → Prop := localPrereq (D.table t)

/-- The contract of every worker of a dispatch. -/
def lookaheadContracts (window : Nat) {D : DenseDispatch}
    (hlocals : ∀ t (p : Nat) e, (D.table t)[p]? = some e → ∀ q ∈ e.locals, q < p) (t : Nat)
    (target : UInt8) :
    WorkerContract (ℕ ×ₗ ℕ ×ₗ ℕ ×ₗ ℕ) (lookaheadProgram window) (D.table t) target
      (lookaheadPre D t) :=
  lookaheadContract window (D.table t) (hlocals t) target

/-- A position in the local-prerequisite list is a local prerequisite. -/
theorem lookahead_localPre {D : DenseDispatch} (hok : DispatchOk D) {a b : Nat}
    (ha : a < D.nMTasks) (hb : b < D.nMTasks)
    (howner : assignAt D.assignment a = assignAt D.assignment b)
    (hmem : positionByMTask D.assignment a ∈ D.locals b) :
    (tokenTables hok (lookaheadPre D)).localPre a b := by
  have ho : D.owner a = D.owner b := by
    unfold DenseDispatch.owner
    rw [howner]
  exact ⟨ha, ho, D.entry b, table_position hok hb, hmem⟩

/-- Every original dependency is covered by a path of tokens and local prerequisites. -/
theorem lookahead_covers_dep {layout : MtDenseOwnerReadyLayout} {slot : OwnerReadyGroup → Nat}
    (hfacts : LayoutFacts (lookaheadCrossWorkerSuccs (lookaheadDagOnlySuccs G.mtasks A.owners)
      A.owners) A.owners layout slot) {locals : Nat → List Nat}
    (hlocals : locals = lookaheadLocalPrereqs (lookaheadDagOnlySuccs G.mtasks A.owners) layout
      A.owners)
    (hok : DispatchOk (DenseDispatch.ofLayout layout A.owners threadCount locals)) {p m : Nat}
    (hdep : G.Dep p m) :
    TransGen (tokenTables hok (lookaheadPre
      (DenseDispatch.ofLayout layout A.owners threadCount locals))).Covers p m := by
  have hgraph := lookaheadCrossWorkerSuccs_ok G A
  have hm := G.dep_lt_size hdep
  have hedge : Edge (mtBuildDenseRuntimeSuccs G.mtasks A.owners false) p m :=
    (edge_mtBuildDenseRuntimeSuccs _ _ _ _ _).mpr
      ⟨G.dep_iff_succ.mp hdep, lt_trans (G.dep_lt hdep) hm, hm, fun h => Bool.noConfusion h.1⟩
  have hpath := (reduced_transGen_iff (mtBuildDenseRuntimeSuccs G.mtasks A.owners false) A.owners
    false p m).mpr (TransGen.single (Or.inl hedge))
  refine TransGen.mono ?_ _ _ hpath
  rintro x y (hxy | ⟨hfalse, -⟩)
  · obtain ⟨hlt, hy⟩ := edge_lookaheadDagOnlySuccs G A hxy
    by_cases howner : assignAt A.owners x = assignAt A.owners y
    · refine Or.inl (lookahead_localPre hok ((lt_trans hlt hy).trans_eq A.length_eq.symm)
        (hy.trans_eq A.length_eq.symm) howner ?_)
      show _ ∈ locals y
      rw [hlocals]
      unfold lookaheadLocalPrereqs
      rw [mem_sortUnique, List.mem_append]
      exact Or.inl (mem_sameWorkerPreds.mpr ⟨x, hxy, howner, rfl⟩)
    · refine covers_of_edge hgraph hfacts (fun g hg a ha hlast => ?_)
        ((edge_lookaheadCrossWorkerSuccs _ _ _ _).mpr ⟨hxy, howner⟩)
      -- the publisher runs after the other sources of its token
      obtain ⟨haedge, haowner⟩ := (group_sources_iff hg).mp ha
      obtain ⟨hledge, hlowner⟩ := (group_sources_iff hg).mp (group_lastSource hgraph hg).1
      refine lookahead_localPre hok ((lt_length_of_edge haedge).trans_eq hgraph.length_eq.symm)
        ((lt_length_of_edge hledge).trans_eq hgraph.length_eq.symm)
        (haowner.trans hlowner.symm) ?_
      show _ ∈ locals g.lastSource
      rw [hlocals]
      unfold lookaheadLocalPrereqs
      rw [mem_sortUnique, List.mem_append]
      exact Or.inr ((mem_publisherSiblings hfacts).mpr ⟨g, hg, rfl, a, ha, hlast.ne, rfl⟩)
  · cases hfalse

/-- The dispatch, with what the executor proofs need. -/
theorem lookaheadDispatch_spec :
    ∃ D, lookaheadDispatch G.mtasks A.owners threadCount = some D ∧ D.nMTasks = G.size ∧
      D.threadCount = threadCount ∧
      (∀ t (p : Nat) e, (D.table t)[p]? = some e → ∀ q ∈ e.locals, q < p) ∧
      ∃ hok : DispatchOk D, ∀ p m, G.Dep p m →
        TransGen (tokenTables hok (lookaheadPre D)).Covers p m := by
  obtain ⟨layout, slot, hfacts, hdispatch⟩ := lookaheadDispatch_eq_some G A
  refine ⟨_, hdispatch, A.length_eq, rfl, fun t p e he q hq => ?_,
    dispatchOk_ofLayout (lookaheadCrossWorkerSuccs_ok G A) hfacts _, fun p m hdep => ?_⟩
  · obtain ⟨-, -, hp, hent⟩ := table_eq_some he
    rw [hent] at hq
    rw [← hp]
    exact lookaheadLocalPrereqs_lt G A hfacts hq
  · exact lookahead_covers_dep G A hfacts rfl _ hdep

/-- **Bounded lookahead is safe and complete.**  For every window the tables are
    built, and in every state of every cycle of every interleaving: each start in
    the trace comes after the completion of all `predMTasks`; no MTask starts
    twice; when all workers have returned every MTask has started and finished
    exactly once; a pool cycle in which no worker can step has all workers
    returned; and no pool cycle goes on for ever. -/
theorem lookaheadExecutor_exactly_once (window : Nat) :
    ∃ D, lookaheadDispatch G.mtasks A.owners threadCount = some D ∧
      ∀ s, Reachable (lookaheadProgram window) D s →
        (∀ before m after, s.trace = before ++ .start m :: after →
          ∀ p, G.Dep p m → .finish p ∈ before) ∧
        (∀ m, s.trace.count (.start m) ≤ 1) ∧
        (s.inPool = true →
          (∀ t, t < threadCount → (lookaheadProgram window).returned (D.table t) (s.workers t)) →
          ∀ m, m < G.size → s.trace.count (.start m) = 1 ∧ s.trace.count (.finish m) = 1) ∧
        (s.inPool = true → (∀ t s', ¬ WorkStep (lookaheadProgram window) D t s s') →
          ∀ t, t < threadCount → (lookaheadProgram window).returned (D.table t) (s.workers t)) ∧
        (∀ run : Nat → DenseState LookaheadWorker, run 0 = s →
          ¬ ∀ i, ∃ t, WorkStep (lookaheadProgram window) D t (run i) (run (i + 1))) := by
  obtain ⟨D, hdispatch, hsize, hthreads, hlocals, hok, hcovers⟩ := lookaheadDispatch_spec G A
  refine ⟨D, hdispatch, fun s hreach => ?_⟩
  have hinv := hreach.inv hok (lookaheadContracts window hlocals)
  refine ⟨?_, ?_, ?_, ?_, ?_⟩
  · intro before m after htrace p hdep
    exact hinv.ordered before m after htrace p (hcovers p m hdep)
  · intro m
    exact List.nodup_iff_count_le_one.mp hinv.nodup _
  · intro hpool hret m hm
    have hpinv := hinv.pool hpool
    exact hpinv.tokens.count_of_executed
      (hpinv.executed_of_returned (by rw [hthreads]; exact hret) (hsize ▸ hm))
  · intro hpool hstuck t ht
    exact ((hinv.pool hpool).stuck hpool hstuck).2 t (by rw [hthreads]; exact ht)
  · rintro run rfl
    exact no_infinite_work (lookaheadContracts window hlocals) hok run hreach

/-! ### No deadlock -/

/-- Some MTask that has not been executed has all its tokens, follows only executed
    MTasks on its worker, and is executed by that worker on its own. -/
def CanGoOn {W : Type} (P : WorkerProgram W) (D : DenseDispatch) (s : DenseState W) : Prop :=
  ∃ m, m < D.nMTasks ∧ ¬ Executed P D s m ∧
    (∀ slot ∈ D.waits m, s.ready slot = targetOf s.cycles) ∧
    (∀ k, k < m → D.owner k = D.owner m → Executed P D s k) ∧
    ∃ s', ReflTransGen (WorkStep P D (D.owner m)) s s' ∧ Executed P D s' m

theorem PoolInv.canGoOn {W M : Type} [Preorder M] [WellFoundedLT M] {P : WorkerProgram W}
    {D : DenseDispatch} {pre : Nat → Nat → Nat → Prop} {hok : DispatchOk D}
    {C : ∀ t target, WorkerContract M P (D.table t) target (pre t)} {s : DenseState W}
    (h : PoolInv hok C s) (hpool : s.inPool = true)
    (hnot : ∃ m, m < D.nMTasks ∧ ¬ Executed P D s m) : CanGoOn P D s := by
  obtain ⟨m, hm⟩ := exists_nextUnexecuted hnot
  exact ⟨m, hm.1, hm.2.1, h.waits_tagged hm, fun k hk _ => hm.2.2 k hk, h.solo hpool hm⟩

/-- **No deadlock**, under either protocol: in every reachable state of a pool cycle
    in which some MTask has not been executed, some worker can go on and execute
    its next MTask. -/
theorem denseExecutor_no_deadlock (window : Nat) :
    (∃ layout, mtBuildDenseOwnerReadyLayout (strictRuntimeSuccs G.mtasks A.owners) A.owners
        threadCount = some layout ∧
      ∀ s, Reachable strictProgram (strictDispatch layout A.owners threadCount) s →
        s.inPool = true →
        (∃ m, m < G.size ∧
          ¬ Executed strictProgram (strictDispatch layout A.owners threadCount) s m) →
        CanGoOn strictProgram (strictDispatch layout A.owners threadCount) s) ∧
    ∃ D, lookaheadDispatch G.mtasks A.owners threadCount = some D ∧
      ∀ s, Reachable (lookaheadProgram window) D s → s.inPool = true →
        (∃ m, m < G.size ∧ ¬ Executed (lookaheadProgram window) D s m) →
        CanGoOn (lookaheadProgram window) D s := by
  constructor
  · obtain ⟨layout, slot, hbuild, hfacts⟩ :=
      mtBuildDenseOwnerReadyLayout_eq_some (strictRuntimeSuccs_ok G A)
    refine ⟨layout, hbuild, fun s hreach hpool hnot => ?_⟩
    have hok : DispatchOk (strictDispatch layout A.owners threadCount) :=
      dispatchOk_ofLayout (strictRuntimeSuccs_ok G A) hfacts _
    have hinv := hreach.inv hok fun t target => strictContract _ target
    have hsize : (strictDispatch layout A.owners threadCount).nMTasks = G.size := A.length_eq
    exact (hinv.pool hpool).canGoOn hpool (by rw [hsize]; exact hnot)
  · obtain ⟨D, hdispatch, hsize, -, hlocals, hok, -⟩ := lookaheadDispatch_spec G A
    refine ⟨D, hdispatch, fun s hreach hpool hnot => ?_⟩
    have hinv := hreach.inv hok (lookaheadContracts window hlocals)
    exact (hinv.pool hpool).canGoOn hpool (by rw [hsize]; exact hnot)

end Tables

end Gsim
