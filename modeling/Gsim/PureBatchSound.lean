/-
  Gsim/PureBatchSound.lean
  ========================
  **The tasks of a batch are threads that do not meet.**

  A task of a batch writes its members and looks at no others than these and the members
  of super nodes that it has an edge with, so the tasks of a batch do not meet in the
  nodes (`batchThreads`).  None of them activates another one, so all copies of the
  active word tell alike which tasks are flagged (`getLsbD_ownFlags`).  A pool of
  workers, whatever it does with activations, therefore follows the threads of the flagged
  tasks (`Simulates.pool`), and the scan is a pool with one worker (`scan_alone`).
-/
import Gsim.PureBatchRun

namespace Gsim.PureBatches

open ObsElision (Action InstInfo Reads)
open BranchStreams (Inst)
open ActiveMasks FlagBytes DisjointThreads

namespace EmitGraph

variable {V Out : Type} (G : EmitGraph V Out)

/-! ## The graph describes its lines -/

/-- The nodes that a line mentions as values. -/
def lineReads : InstInfo V Out → List ℕ
  | .ifBeg c => c.reads
  | .act a => a.reads
  | _ => []

/-- What `updateConnect`, `updateDep`, `constructSuperConnect` and the instruction generator leave. -/
structure Described : Prop where
  /-- A node belongs to one super node. -/
  member_unique : ∀ i j s t, G.cppId2Super i = some s → G.cppId2Super j = some t →
    ∀ n ∈ s.member, n ∈ t.member → i = j
  /-- A node that is referred to comes before, -/
  prev : ∀ i s, G.cppId2Super i = some s → ∀ n ∈ s.member, (G.node n).type ≠ .regSrc →
    ∀ p ∈ (G.node n).relies, ∀ j t, G.cppId2Super j = some t → p ∈ t.member → j ≠ i → (j : ℤ) ∈ s.prev
  /-- and after a register that is updated from it. -/
  depNext : ∀ i s, G.cppId2Super i = some s → ∀ n ∈ s.member, (G.node n).type = .regSrc →
    ∀ p ∈ (G.node n).relies, ∀ j t, G.cppId2Super j = some t → p ∈ t.member → j ≠ i → (j : ℤ) ∈ s.depNext
  activeIds : ∀ i s, G.cppId2Super i = some s → ∀ n ∈ s.member,
    ∀ id ∈ (G.node n).nextActiveId, id < G.superId
  /-- The lines of a pure task act on its members, -/
  owned : ∀ i s, G.cppId2Super i = some s → G.Pure s → ∀ a, .act a ∈ s.insts → a.node ∈ s.member
  /-- and mention what the trees of the members refer to. -/
  named : ∀ i s, G.cppId2Super i = some s → G.Pure s → ∀ inst ∈ s.insts, ∀ p ∈ lineReads inst,
    p ∈ s.member ∨ ∃ n ∈ s.member, p ∈ (G.node n).relies

/-- The members of a task. -/
def owns (cppId : ℕ) : Set ℕ := {n | ∃ s, G.cppId2Super cppId = some s ∧ n ∈ s.member}

/-- The members, and what they refer to. -/
def footprint (cppId : ℕ) : Set ℕ :=
  {p | ∃ s, G.cppId2Super cppId = some s ∧ (p ∈ s.member ∨ ∃ n ∈ s.member, p ∈ (G.node n).relies)}

/-- A task that is pure. -/
def PureTask (cppId : ℕ) : Prop := ∃ s, G.cppId2Super cppId = some s ∧ G.Pure s

/-! ## One line -/

section Line

variable {G} (described : G.Described) {cppId : ℕ} (pure : G.PureTask cppId)
include described pure

theorem owned_of_mem {a : Action V Out} (h : .act a ∈ G.lines cppId) : a.node ∈ G.owns cppId := by
  obtain ⟨s, hs, hpure⟩ := pure
  rw [lines, hs] at h
  exact ⟨s, hs, described.owned cppId s hs hpure a h⟩

theorem named_of_mem {inst : InstInfo V Out} (h : inst ∈ G.lines cppId) :
    ∀ p ∈ lineReads inst, p ∈ G.footprint cppId := by
  obtain ⟨s, hs, hpure⟩ := pure
  rw [lines, hs] at h
  exact fun p hp => ⟨s, hs, described.named cppId s hs hpure inst h p hp⟩

omit described pure in
theorem owns_subset (cppId : ℕ) : G.owns cppId ⊆ G.footprint cppId :=
  fun _ ⟨s, hs, hn⟩ => ⟨s, hs, .inl hn⟩

/-- A line writes to nothing but members. -/
theorem runLine_frame {inst : InstInfo V Out} (h : inst ∈ G.lines cppId) (st : LineState V × List Bool)
    {x : ℕ} (hx : x ∉ G.owns cppId) : (G.runLine st inst).1.env x = st.1.env x := by
  cases inst with
  | ifBeg c => rfl
  | ifElse =>
    obtain ⟨st, stack⟩ := st
    cases stack <;> rfl
  | ifEnd => rfl
  | act a =>
    have hnode := owned_of_mem described pure h
    simp only [runLine, BranchStreams.step]
    split
    · cases a with
      | assign n value =>
        apply Function.update_of_ne
        rintro rfl
        exact hx hnode
      | print n text => rfl
      | assignBeg n =>
        simp only [runAction]
        split <;> rfl
      | assignEnd n => rfl
    · rfl

variable [DecidableEq V]

/-- A line does alike on nodes that look alike to the task. -/
theorem runLine_agree {inst : InstInfo V Out} (h : inst ∈ G.lines cppId) {env env' : ℕ → V}
    (hagree : AgreeOn (G.footprint cppId) env env') (old : ℕ → Option V) (stack : List Bool) :
    (G.runLine (⟨env, old⟩, stack) inst).2 = (G.runLine (⟨env', old⟩, stack) inst).2 ∧
    (G.runLine (⟨env, old⟩, stack) inst).1.old = (G.runLine (⟨env', old⟩, stack) inst).1.old ∧
    AgreeOn (G.footprint cppId) (G.runLine (⟨env, old⟩, stack) inst).1.env
      (G.runLine (⟨env', old⟩, stack) inst).1.env ∧
    G.lineActivation cppId (⟨env, old⟩, stack) inst = G.lineActivation cppId (⟨env', old⟩, stack) inst := by
  have hreads : ∀ p ∈ lineReads inst, env p = env' p :=
    fun p hp => hagree p (named_of_mem described pure h p hp)
  cases inst with
  | ifBeg c =>
    have hcond := c.only env env' hreads
    refine ⟨?_, rfl, hagree, rfl⟩
    simp only [runLine, BranchStreams.step, hcond]
  | ifElse =>
    cases stack with
    | nil => exact ⟨rfl, rfl, hagree, rfl⟩
    | cons b stack => exact ⟨rfl, rfl, hagree, rfl⟩
  | ifEnd => exact ⟨rfl, rfl, hagree, rfl⟩
  | act a =>
    have hnode : env a.node = env' a.node :=
      hagree _ (owns_subset cppId (owned_of_mem described pure h))
    simp only [runLine, BranchStreams.step, lineActivation]
    cases stack.all id with
    | false => exact ⟨rfl, rfl, hagree, rfl⟩
    | true =>
      cases a with
      | assign n value =>
        have hvalue := value.only env env' hreads
        refine ⟨rfl, rfl, fun x hx => ?_, rfl⟩
        simp only [if_true, runAction, hvalue]
        by_cases hxn : x = n
        · rw [hxn, Function.update_self, Function.update_self]
        · rw [Function.update_of_ne hxn, Function.update_of_ne hxn]
          exact hagree x hx
      | print n text => exact ⟨rfl, rfl, hagree, rfl⟩
      | assignBeg n =>
        simp only [Action.node] at hnode
        simp only [if_true, runAction, activation, and_true, true_and]
        split
        · exact ⟨rfl, hagree⟩
        · exact ⟨by rw [hnode], hagree⟩
      | assignEnd n =>
        simp only [Action.node] at hnode
        refine ⟨rfl, rfl, hagree, ?_⟩
        simp only [if_true, activation, hnode]

end Line

/-! ## The threads of a batch -/

/-- The tasks of a batch, which are pure and have no edges among them. -/
structure PureBatch (batch : ℕ × ℕ) : Prop where
  oneWord : ∀ t, batch.1 ≤ t → t < batch.2 → t / 8 = batch.1 / 8
  pure : ∀ t, batch.1 ≤ t → t < batch.2 → G.PureTask t
  apart : ∀ t u, batch.1 ≤ t → t < batch.2 → batch.1 ≤ u → u < batch.2 → t ≠ u → G.mtTasksHaveEdge t u = false

theorem isBatch_pure {batch : ℕ × ℕ} (h : G.IsBatch G.buildMtTaskInfoMap batch) : G.PureBatch batch where
  oneWord := h.oneWord
  apart := h.apart
  pure t ht ht' := by
    have henter := h.enters t ht ht'
    unfold mtTaskCanEnterPureBatch buildMtTaskInfoMap at henter
    cases hs : G.cppId2Super t with
    | none => simp [hs] at henter
    | some s =>
      refine ⟨s, hs, ?_⟩
      by_cases hid : t < G.superId
      · simp only [hs, if_pos hid, Option.map_some, Bool.and_eq_true, decide_eq_true_eq] at henter
        exact henter.1
      · simp [hid] at henter

abbrev TaskLoc (V : Type) := TaskRun V × List Activation

section Batch

variable {G} {batch : ℕ × ℕ} (described : G.Described) (pureBatch : G.PureBatch batch)

/-- No task of a batch looks at what another one owns. -/
theorem PureBatch.not_mem_footprint (described : G.Described) (pureBatch : G.PureBatch batch) {t u : ℕ}
    (ht : batch.1 ≤ t) (ht' : t < batch.2) (hu : batch.1 ≤ u) (hu' : u < batch.2) (hne : t ≠ u) {x : ℕ}
    (hx : x ∈ G.owns t) : x ∉ G.footprint u := by
  obtain ⟨s, hs, hmem⟩ := hx
  rintro ⟨r, hr, hforeign | ⟨n, hn, hrely⟩⟩
  · exact hne (described.member_unique t u s r hs hr x hmem hforeign)
  · have hnone := pureBatch.apart u t hu hu' ht ht' (Ne.symm hne)
    unfold mtTasksHaveEdge at hnone
    rw [hs, hr] at hnone
    simp only [Bool.or_eq_false_iff] at hnone
    by_cases htype : (G.node n).type = .regSrc
    · have hlink := described.depNext u r hr n hn htype x hrely t s hs hmem hne
      have hhas : hasCppId r.depNext t = true := List.any_eq_true.mpr ⟨t, hlink, by simp⟩
      simp [hhas] at hnone
    · have hlink := described.prev u r hr n hn htype x hrely t s hs hmem hne
      have hhas : hasCppId r.prev t = true := List.any_eq_true.mpr ⟨t, hlink, by simp⟩
      simp [hhas] at hnone

/-- No task of a batch activates another one. -/
theorem PureBatch.not_activates (pureBatch : G.PureBatch batch) {t u : ℕ}
    (ht : batch.1 ≤ t) (ht' : t < batch.2) (hu : batch.1 ≤ u) (hu' : u < batch.2) (hne : t ≠ u)
    {s : SuperNode V Out} (hs : G.cppId2Super t = some s) {n : ℕ} (hn : n ∈ s.member) :
    u ∉ (G.node n).nextActiveId := by
  intro hactive
  obtain ⟨r, hr, -⟩ := pureBatch.pure u hu hu'
  have hnone := pureBatch.apart t u ht ht' hu hu' hne
  have hhas : G.activates s u = true := List.any_eq_true.mpr ⟨n, hn, by simpa using hactive⟩
  unfold mtTasksHaveEdge at hnone
  rw [hs, hr] at hnone
  simp [hhas] at hnone

variable [DecidableEq V]

/-- A step of a task, with all it has activated so far. -/
def actTask (G : EmitGraph V Out) (batch : ℕ × ℕ) (t : ℕ) (s : TaskLoc V × (ℕ → V)) :
    Option (TaskLoc V × (ℕ → V)) :=
  if batch.1 ≤ t ∧ t < batch.2 then
    (G.stepTask t s.1.1 s.2).map fun r => ((r.1, s.1.2 ++ r.2.2.toList), r.2.1)
  else none

theorem stepTask_eq_some {t : ℕ} {run run' : TaskRun V} {env env' : ℕ → V} {e : Option Activation} :
    G.stepTask t run env = some (run', env', e) ↔ ∃ inst, (G.lines t)[run.pc]? = some inst ∧
      run' = ⟨run.pc + 1, (G.runLine (⟨env, run.old⟩, run.stack) inst).2,
        (G.runLine (⟨env, run.old⟩, run.stack) inst).1.old⟩ ∧
      env' = (G.runLine (⟨env, run.old⟩, run.stack) inst).1.env ∧
      e = G.lineActivation t (⟨env, run.old⟩, run.stack) inst := by
  unfold stepTask
  cases (G.lines t)[run.pc]? with
  | none => simp
  | some inst =>
    simp only [Option.some.injEq, Prod.mk.injEq, exists_eq_left']
    constructor
    · rintro ⟨rfl, rfl, rfl⟩
      exact ⟨rfl, rfl, rfl⟩
    · rintro ⟨rfl, rfl, rfl⟩
      exact ⟨rfl, rfl, rfl⟩

theorem stepTask_eq_none {t : ℕ} {run : TaskRun V} {env : ℕ → V} :
    G.stepTask t run env = none ↔ (G.lines t)[run.pc]? = none := by
  unfold stepTask
  cases (G.lines t)[run.pc]? with
  | none => simp
  | some inst => simp

theorem actTask_eq_some {t : ℕ} {l l' : TaskLoc V} {env env' : ℕ → V} :
    actTask G batch t (l, env) = some (l', env') ↔ (batch.1 ≤ t ∧ t < batch.2) ∧
      ∃ e, G.stepTask t l.1 env = some (l'.1, env', e) ∧ l'.2 = l.2 ++ e.toList := by
  unfold actTask
  by_cases hin : batch.1 ≤ t ∧ t < batch.2
  · rw [if_pos hin]
    simp only [Option.map_eq_some_iff, Prod.mk.injEq, Prod.exists]
    constructor
    · rintro ⟨run, env'', e, hstep, rfl, rfl⟩
      exact ⟨hin, e, hstep, rfl⟩
    · rintro ⟨-, e, hstep, hacts⟩
      exact ⟨l'.1, env', e, hstep, by rw [← hacts], rfl⟩
  · rw [if_neg hin]
    simp [hin]

/-- The tasks of a batch as threads that do not meet. -/
def batchThreads : Threads ℕ ℕ V (TaskLoc V) where
  own t := {n | (batch.1 ≤ t ∧ t < batch.2) ∧ n ∈ G.owns t}
  foot t := {n | (batch.1 ≤ t ∧ t < batch.2) ∧ n ∈ G.footprint t}
  act := actTask G batch
  own_subset t _ hn := ⟨hn.1, owns_subset t hn.2⟩
  frame := by
    intro t l v l' v' hact x hx
    obtain ⟨hin, e, hstep, -⟩ := actTask_eq_some.mp hact
    obtain ⟨inst, hline, -, rfl, -⟩ := stepTask_eq_some.mp hstep
    apply runLine_frame described (pureBatch.pure t hin.1 hin.2) (List.mem_of_getElem? hline)
    exact fun hown => hx ⟨hin, hown⟩
  determined := by
    intro t l v w l' v' hagree hact
    obtain ⟨hin, e, hstep, hacts⟩ := actTask_eq_some.mp hact
    obtain ⟨inst, hline, hrun, rfl, rfl⟩ := stepTask_eq_some.mp hstep
    have hfoot : AgreeOn (G.footprint t) v w := fun x hx => hagree x ⟨hin, hx⟩
    obtain ⟨hstack, hold, henv, hactive⟩ := runLine_agree described (pureBatch.pure t hin.1 hin.2)
      (List.mem_of_getElem? hline) hfoot l.1.old l.1.stack
    refine ⟨(G.runLine (⟨w, l.1.old⟩, l.1.stack) inst).1.env, ?_, fun x hx => henv x hx.2⟩
    apply actTask_eq_some.mpr
    refine ⟨hin, G.lineActivation t (⟨w, l.1.old⟩, l.1.stack) inst, ?_, by rw [← hactive]; exact hacts⟩
    apply stepTask_eq_some.mpr
    exact ⟨inst, hline, by rw [hrun, hstack, hold], rfl, rfl⟩
  apart := by
    rintro t u hne x ⟨ht, hown⟩ ⟨hu, hfoot⟩
    exact pureBatch.not_mem_footprint described ht.1 ht.2 hu.1 hu.2 hne hown hfoot

end Batch

/-! ## What tasks activate -/

/-- An activation of the code of a task that is pure. -/
def ActivationOf (t : ℕ) (e : Activation) : Prop :=
  ∃ s, G.cppId2Super t = some s ∧ ∃ n ∈ s.member,
    (∃ cond, e = .next (G.node n).nextActiveId t cond) ∨ e = .uncond (G.node n).nextActiveId t

/-- The bits of the flag word that an activation sets. -/
def setsOwn (i : ℕ) : Activation → Bool
  | .next activeId curId cond => cond && insideOwnWord G.alwaysActive activeId curId i
  | .uncond activeId curId => insideOwnWord G.alwaysActive activeId curId i
  | .all => true

variable {G}

theorem getLsbD_ownFlag (flags : BitVec 8) (e : Activation) {i : ℕ} (hi : i < 8) :
    (ownFlag G.alwaysActive flags e).getLsbD i = (flags.getLsbD i || G.setsOwn i e) := by
  cases e with
  | next activeId curId cond => exact getLsbD_ownFlagNext _ activeId curId cond flags hi
  | uncond activeId curId => exact getLsbD_ownFlagUncond _ activeId curId flags hi
  | all =>
    have hones : (0xff#8).getLsbD i = true := by interval_cases i <;> rfl
    rw [setsOwn, Bool.or_true]
    exact hones

/-- The flag word after a list of activations. -/
def ownFlags (G : EmitGraph V Out) (flags : BitVec 8) (acts : List Activation) : BitVec 8 :=
  acts.foldl (ownFlag G.alwaysActive) flags

theorem getLsbD_ownFlags (flags : BitVec 8) (acts : List Activation) {i : ℕ} (hi : i < 8) :
    (G.ownFlags flags acts).getLsbD i = (flags.getLsbD i || acts.any (G.setsOwn i)) := by
  induction acts generalizing flags with
  | nil => simp [ownFlags]
  | cons e acts ih =>
    rw [ownFlags, List.foldl_cons, ← ownFlags, ih, getLsbD_ownFlag flags e hi, List.any_cons, Bool.or_assoc]

/-- Within a batch the flags of the tasks stay as they are. -/
theorem PureBatch.not_setsOwn {batch : ℕ × ℕ} (pureBatch : G.PureBatch batch) {t u : ℕ}
    (ht : batch.1 ≤ t) (ht' : t < batch.2) (hu : batch.1 ≤ u) (hu' : u < batch.2) {e : Activation}
    (he : G.ActivationOf t e) : G.setsOwn (u % 8) e = false := by
  obtain ⟨s, hs, n, hn, hcase⟩ := he
  have hinside : insideOwnWord G.alwaysActive (G.node n).nextActiveId t (u % 8) = false := by
    apply decide_eq_false
    rintro ⟨id, hid, -, hword, hbit⟩
    simp only [inOwnWord, decide_eq_true_eq] at hword
    have hsame : t / 8 = u / 8 := (pureBatch.oneWord t ht ht').trans (pureBatch.oneWord u hu hu').symm
    obtain rfl : id = u := by omega
    exact pureBatch.not_activates ht ht' hu hu' (by omega) hs hn hid
  rcases hcase with ⟨cond, rfl⟩ | rfl
  · rw [setsOwn, hinside, Bool.and_false]
  · exact hinside

theorem getLsbD_ownFlags_batch {batch : ℕ × ℕ} (pureBatch : G.PureBatch batch) (flags : BitVec 8)
    {acts : List Activation} (hacts : ∀ e ∈ acts, ∃ t, batch.1 ≤ t ∧ t < batch.2 ∧ G.ActivationOf t e)
    {u : ℕ} (hu : batch.1 ≤ u) (hu' : u < batch.2) :
    (G.ownFlags flags acts).getLsbD (u % 8) = flags.getLsbD (u % 8) := by
  have hnone : acts.any (G.setsOwn (u % 8)) = false := by
    apply List.any_eq_false.mpr
    intro e he
    obtain ⟨t, ht, ht', hof⟩ := hacts e he
    simp [pureBatch.not_setsOwn ht ht' hu hu' hof]
  rw [getLsbD_ownFlags flags acts (Nat.mod_lt u (by decide)), hnone, Bool.or_false]

theorem activationOf_lineActivation [DecidableEq V] (described : G.Described) {t : ℕ} (pure : G.PureTask t)
    {inst : InstInfo V Out} (hline : inst ∈ G.lines t) {st : LineState V × List Bool} {e : Activation}
    (he : G.lineActivation t st inst = some e) : G.ActivationOf t e := by
  cases inst with
  | ifBeg c => cases he
  | ifElse => cases he
  | ifEnd => cases he
  | act a =>
    obtain ⟨s, hs, hn⟩ := owned_of_mem described pure hline
    have hsync : (G.node a.node).isAsyncReset = false := by
      obtain ⟨s', hs', hpure⟩ := pure
      obtain rfl : s = s' := Option.some.inj (hs.symm.trans hs')
      exact hpure.not_asyncReset G hn
    simp only [lineActivation] at he
    split at he
    · cases a with
      | assign n value => cases he
      | print n text => cases he
      | assignBeg n => cases he
      | assignEnd n =>
        simp only [Action.node] at hn hsync
        refine ⟨s, hs, n, hn, ?_⟩
        simp only [activation, hsync] at he
        split at he
        · cases he
        · split at he
          · exact .inr (Option.some.inj he).symm
          · exact .inl ⟨_, (Option.some.inj he).symm⟩
    · cases he

theorem ActivationOf.within {t : ℕ} {e : Activation} (described : G.Described) (he : G.ActivationOf t e) :
    e.Within G.superId := by
  obtain ⟨s, hs, n, hn, ⟨cond, rfl⟩ | rfl⟩ := he
  · exact described.activeIds t s hs n hn
  · exact described.activeIds t s hs n hn

/-! ## Pools follow the threads -/

section Simulation

variable {σ : Type} (sink : Sink σ) (batch : ℕ × ℕ) (activeWord : BitVec 8) (active : σ)

/-- Where a task begins: the flagged ones at their first line, all others behind the last. -/
def startLoc (G : EmitGraph V Out) (batch : ℕ × ℕ) (activeWord : BitVec 8) (t : ℕ) : TaskLoc V :=
  if (batch.1 ≤ t ∧ t < batch.2) ∧ activeWord.getLsbD (t % 8) = true then (.start, [])
  else (⟨(G.lines t).length, [], fun _ => none⟩, [])

/-- What the tasks of a chunk have activated. -/
def chunkActs (chunk : List ℕ) (loc : ℕ → TaskLoc V) : List Activation := chunk.flatMap fun t => (loc t).2

/-- A worker in its chunk: the tasks that are done, the one that runs and those to come. -/
structure WorkerSim (G : EmitGraph V Out) (sink : Sink σ) (batch : ℕ × ℕ) (activeWord : BitVec 8) (active : σ)
    (chunk : List ℕ) (w : Worker V σ) (loc : ℕ → TaskLoc V) : Prop where
  split : ∃ before, chunk = before ++ (w.cur.map Prod.fst).toList ++ w.todo ∧
    ∀ t ∈ before, (G.lines t)[(loc t).1.pc]? = none
  cur : ∀ t run, w.cur = some (t, run) → (loc t).1 = run
  todo : ∀ t ∈ w.todo, loc t = startLoc G batch activeWord t
  flag : w.flag = G.ownFlags activeWord (chunkActs chunk loc)
  active : w.active = sink.run G.alwaysActive active (chunkActs chunk loc)

/-- The pool and the threads of the tasks. -/
structure Simulates (G : EmitGraph V Out) (sink : Sink σ) (batch : ℕ × ℕ) (activeWord : BitVec 8) (active : σ)
    (chunk : ℕ → List ℕ) (workerCount : ℕ) (p : Pool V σ) (a : State ℕ ℕ V (TaskLoc V)) : Prop where
  env : p.env = a.val
  workers : ∀ k, k < workerCount → WorkerSim G sink batch activeWord active (chunk k) (p.worker k) a.loc
  acts : ∀ t, batch.1 ≤ t → t < batch.2 → ∀ e ∈ (a.loc t).2, G.ActivationOf t e

variable {sink batch activeWord active}

theorem startLoc_acts (t : ℕ) : (startLoc G batch activeWord t).2 = [] := by
  unfold startLoc
  split <;> rfl

theorem chunkActs_append (chunk chunk' : List ℕ) (loc : ℕ → TaskLoc V) :
    chunkActs (chunk ++ chunk') loc = chunkActs chunk loc ++ chunkActs chunk' loc := List.flatMap_append

theorem chunkActs_congr {chunk : List ℕ} {loc loc' : ℕ → TaskLoc V} (h : ∀ t ∈ chunk, loc' t = loc t) :
    chunkActs chunk loc' = chunkActs chunk loc :=
  List.flatMap_congr fun t ht => by rw [h t ht]

theorem chunkActs_start {chunk : List ℕ} {loc : ℕ → TaskLoc V}
    (h : ∀ t ∈ chunk, loc t = startLoc G batch activeWord t) : chunkActs chunk loc = [] := by
  apply List.flatMap_eq_nil_iff.mpr
  intro t ht
  rw [h t ht]
  exact startLoc_acts t

theorem activate_eq (flag : BitVec 8) (active : σ) (e : Option Activation) :
    G.activate sink flag active e =
      (G.ownFlags flag e.toList, sink.run G.alwaysActive active e.toList) := by
  cases e <;> rfl

theorem ownFlags_append (flag : BitVec 8) (acts acts' : List Activation) :
    G.ownFlags flag (acts ++ acts') = G.ownFlags (G.ownFlags flag acts) acts' := List.foldl_append

theorem run_append (active : σ) (acts acts' : List Activation) :
    sink.run G.alwaysActive active (acts ++ acts') =
      sink.run G.alwaysActive (sink.run G.alwaysActive active acts) acts' := List.foldl_append

namespace WorkerSim

variable {chunk : List ℕ} {w : Worker V σ} {loc loc' : ℕ → TaskLoc V}

theorem start (chunk : List ℕ) (loc : ℕ → TaskLoc V)
    (h : ∀ t ∈ chunk, loc t = startLoc G batch activeWord t) :
    WorkerSim G sink batch activeWord active chunk ⟨chunk, none, activeWord, active⟩ loc where
  split := ⟨[], rfl, fun t ht => absurd ht List.not_mem_nil⟩
  cur t run hcur := by cases hcur
  todo := h
  flag := by rw [chunkActs_start h]; rfl
  active := by rw [chunkActs_start h]; rfl

theorem mem_of_todo (h : WorkerSim G sink batch activeWord active chunk w loc) {t : ℕ} (ht : t ∈ w.todo) :
    t ∈ chunk := by
  obtain ⟨before, heq, -⟩ := h.split
  rw [heq]
  exact List.mem_append_right _ ht

theorem mem_of_cur (h : WorkerSim G sink batch activeWord active chunk w loc) {t : ℕ} {run : TaskRun V}
    (ht : w.cur = some (t, run)) : t ∈ chunk := by
  obtain ⟨before, heq, -⟩ := h.split
  rw [heq, ht]
  simp

/-- Tasks of other chunks do not matter. -/
theorem congr (h : WorkerSim G sink batch activeWord active chunk w loc) (hloc : ∀ t ∈ chunk, loc' t = loc t) :
    WorkerSim G sink batch activeWord active chunk w loc' where
  split := by
    obtain ⟨before, heq, hdone⟩ := h.split
    refine ⟨before, heq, fun t ht => ?_⟩
    rw [hloc t (by rw [heq]; simp [ht])]
    exact hdone t ht
  cur t run hcur := by
    rw [hloc t (h.mem_of_cur hcur)]
    exact h.cur t run hcur
  todo t ht := by
    rw [hloc t (h.mem_of_todo ht)]
    exact h.todo t ht
  flag := by
    rw [chunkActs_congr hloc]
    exact h.flag
  active := by
    rw [chunkActs_congr hloc]
    exact h.active

/-- The running task returns. -/
theorem ret (h : WorkerSim G sink batch activeWord active chunk w loc) {t : ℕ} {run : TaskRun V}
    (hcur : w.cur = some (t, run)) (hend : (G.lines t)[run.pc]? = none) :
    WorkerSim G sink batch activeWord active chunk { w with cur := none } loc where
  split := by
    obtain ⟨before, heq, hdone⟩ := h.split
    refine ⟨before ++ [t], ?_, fun u hu => ?_⟩
    · rw [heq, hcur]
      simp
    · rcases List.mem_append.mp hu with hu | hu
      · exact hdone u hu
      · rw [List.mem_singleton.mp hu, h.cur t run hcur]
        exact hend
  cur u run' hcur' := by cases hcur'
  todo := h.todo
  flag := h.flag
  active := h.active

/-- The running task runs a line. -/
theorem line (h : WorkerSim G sink batch activeWord active chunk w loc) (hnodup : chunk.Nodup) {t : ℕ}
    {run run' : TaskRun V} (hcur : w.cur = some (t, run)) (e : Option Activation) :
    WorkerSim G sink batch activeWord active chunk
      ⟨w.todo, some (t, run'), (G.activate sink w.flag w.active e).1, (G.activate sink w.flag w.active e).2⟩
      (Function.update loc t (run', (loc t).2 ++ e.toList)) := by
  obtain ⟨before, heq, hdone⟩ := h.split
  rw [hcur, Option.map_some, Option.toList_some] at heq
  have hbefore : t ∉ before := by
    rw [heq, List.append_assoc] at hnodup
    exact fun hmem => (List.nodup_append.mp hnodup).2.2 t hmem t (by simp) rfl
  have htodo : t ∉ w.todo := by
    rw [heq] at hnodup
    exact fun hmem => (List.nodup_append.mp hnodup).2.2 t (by simp) t hmem rfl
  have hother : ∀ {u}, u ≠ t → Function.update loc t (run', (loc t).2 ++ e.toList) u = loc u :=
    fun hu => Function.update_of_ne hu _ _
  have hstart : ∀ u ∈ w.todo, Function.update loc t (run', (loc t).2 ++ e.toList) u =
      startLoc G batch activeWord u := by
    intro u hu
    rw [hother (fun heq => htodo (heq ▸ hu))]
    exact h.todo u hu
  have hacts : chunkActs chunk (Function.update loc t (run', (loc t).2 ++ e.toList)) =
      chunkActs chunk loc ++ e.toList := by
    rw [heq, chunkActs_append, chunkActs_append, chunkActs_append, chunkActs_append,
      chunkActs_start hstart, chunkActs_start h.todo,
      chunkActs_congr fun u hu => hother fun heq => hbefore (heq ▸ hu)]
    simp [chunkActs]
  refine ⟨⟨before, heq, fun u hu => ?_⟩, fun u run'' hcur' => ?_, hstart, ?_, ?_⟩
  · rw [hother fun heq => hbefore (heq ▸ hu)]
    exact hdone u hu
  · obtain ⟨rfl, rfl⟩ := Prod.mk.inj (Option.some.inj hcur')
    rw [Function.update_self]
  · rw [hacts, ownFlags_append, ← h.flag, activate_eq]
  · rw [hacts, run_append, ← h.active, activate_eq]

/-- The next task is started, -/
theorem enter (h : WorkerSim G sink batch activeWord active chunk w loc) (hcur : w.cur = none) {t : ℕ}
    {todo : List ℕ} (htodo : w.todo = t :: todo)
    (hflagged : (batch.1 ≤ t ∧ t < batch.2) ∧ activeWord.getLsbD (t % 8) = true) :
    WorkerSim G sink batch activeWord active chunk ⟨todo, some (t, .start), w.flag, w.active⟩ loc where
  split := by
    obtain ⟨before, heq, hdone⟩ := h.split
    refine ⟨before, ?_, hdone⟩
    rw [heq, hcur, htodo]
    simp
  cur u run hcur' := by
    obtain ⟨rfl, rfl⟩ := Prod.mk.inj (Option.some.inj hcur')
    rw [h.todo t (by simp [htodo]), startLoc, if_pos hflagged]
  todo u hu := h.todo u (by simp [htodo, hu])
  flag := h.flag
  active := h.active

/-- or left out. -/
theorem skip (h : WorkerSim G sink batch activeWord active chunk w loc) (hcur : w.cur = none) {t : ℕ}
    {todo : List ℕ} (htodo : w.todo = t :: todo)
    (hunflagged : ¬ ((batch.1 ≤ t ∧ t < batch.2) ∧ activeWord.getLsbD (t % 8) = true)) :
    WorkerSim G sink batch activeWord active chunk ⟨todo, none, w.flag, w.active⟩ loc where
  split := by
    obtain ⟨before, heq, hdone⟩ := h.split
    refine ⟨before ++ [t], ?_, fun u hu => ?_⟩
    · rw [heq, hcur, htodo]
      simp
    · rcases List.mem_append.mp hu with hu | hu
      · exact hdone u hu
      · rw [List.mem_singleton.mp hu, h.todo t (by simp [htodo]), startLoc, if_neg hunflagged]
        simp
  cur u run hcur' := by cases hcur'
  todo u hu := h.todo u (by simp [htodo, hu])
  flag := h.flag
  active := h.active

end WorkerSim

/-! ### A pool -/

variable [DecidableEq V] {tasks : TaskMap} {chunk : ℕ → List ℕ} {workerCount : ℕ}
  {p p' : Pool V σ} {a : State ℕ ℕ V (TaskLoc V)}

/-- Chunks that together are the batch, once each. -/
structure Chunks (batch : ℕ × ℕ) (tasks : TaskMap) (chunk : ℕ → List ℕ) (workerCount : ℕ) : Prop where
  some : 0 < workerCount
  all : (List.range workerCount).flatMap chunk = List.range' batch.1 (batch.2 - batch.1)
  dispatched : ∀ t, batch.1 ≤ t → t < batch.2 → dispatched tasks t = true

theorem Chunks.nodup (h : Chunks batch tasks chunk workerCount) :
    ((List.range workerCount).flatMap chunk).Nodup := by
  rw [h.all]
  exact List.nodup_range'

theorem Chunks.inside (h : Chunks batch tasks chunk workerCount) {k : ℕ} (hk : k < workerCount) {t : ℕ}
    (ht : t ∈ chunk k) : batch.1 ≤ t ∧ t < batch.2 := by
  have hmem : t ∈ (List.range workerCount).flatMap chunk :=
    List.mem_flatMap.mpr ⟨k, List.mem_range.mpr hk, ht⟩
  rw [h.all] at hmem
  obtain ⟨hle, hlt⟩ := List.mem_range'_1.mp hmem
  omega

theorem Chunks.apart (h : Chunks batch tasks chunk workerCount) {k j : ℕ} (hk : k < workerCount)
    (hj : j < workerCount) (hne : k ≠ j) {t : ℕ} (ht : t ∈ chunk k) : t ∉ chunk j := by
  have hpairs := (List.nodup_flatMap.mp h.nodup).2
  rcases Nat.lt_or_gt_of_ne hne with hlt | hlt
  · exact fun hj' => List.pairwise_iff_getElem.mp hpairs k j (by simpa) (by simpa) hlt (by simpa using ht)
      (by simpa using hj')
  · exact fun hj' => List.pairwise_iff_getElem.mp hpairs j k (by simpa) (by simpa) hlt (by simpa using hj')
      (by simpa using ht)

/-- The threads of a batch that is about to run. -/
def startState (G : EmitGraph V Out) (batch : ℕ × ℕ) (activeWord : BitVec 8) (env : ℕ → V) :
    State ℕ ℕ V (TaskLoc V) := ⟨startLoc G batch activeWord, env⟩

variable (described : G.Described) (pureBatch : G.PureBatch batch)

omit [DecidableEq V] in
theorem Simulates.start (env : ℕ → V) :
    Simulates G sink batch activeWord active chunk workerCount (Pool.start chunk activeWord active env)
      (startState G batch activeWord env) where
  env := rfl
  workers k _ := .start (chunk k) _ fun _ _ => rfl
  acts t _ _ e he := by
    rw [startState, startLoc_acts] at he
    exact absurd he List.not_mem_nil

omit [DecidableEq V] in
/-- One worker steps on while the threads stand still. -/
theorem Simulates.idle (h : Simulates G sink batch activeWord active chunk workerCount p a) {k : ℕ}
    {w : Worker V σ} (hw : WorkerSim G sink batch activeWord active (chunk k) w a.loc) :
    Simulates G sink batch activeWord active chunk workerCount ⟨Function.update p.worker k w, p.env⟩ a where
  env := h.env
  acts := h.acts
  workers j hj := by
    by_cases hjk : j = k
    · subst hjk
      simp only [Function.update_self]
      exact hw
    · simp only [Function.update_of_ne hjk]
      exact h.workers j hj

include described pureBatch in
/-- A step of the pool is a step of a thread or none. -/
theorem Simulates.step (chunks : Chunks batch tasks chunk workerCount)
    (h : Simulates G sink batch activeWord active chunk workerCount p a)
    (hstep : G.PoolStep sink tasks workerCount p p') :
    ∃ a', (batchThreads described pureBatch).Reachable a a' ∧
      Simulates G sink batch activeWord active chunk workerCount p' a' := by
  obtain ⟨k, hk, w, env, hworker, rfl⟩ := hstep
  have hsim := h.workers k hk
  unfold stepWorker at hworker
  cases hcur : (p.worker k).cur with
  | some task =>
    obtain ⟨t, run⟩ := task
    have hin := chunks.inside hk (hsim.mem_of_cur hcur)
    simp only [hcur] at hworker
    cases hline : G.stepTask t run p.env with
    | none =>
      simp only [hline, Option.some.injEq, Prod.mk.injEq] at hworker
      obtain ⟨rfl, rfl⟩ := hworker
      exact ⟨a, .refl, h.idle (hsim.ret hcur (stepTask_eq_none.mp hline))⟩
    | some r =>
      obtain ⟨run', env', e⟩ := r
      simp only [hline, Option.some.injEq, Prod.mk.injEq] at hworker
      obtain ⟨rfl, rfl⟩ := hworker
      have hrun : (a.loc t).1 = run := hsim.cur t run hcur
      have hact : actTask G batch t (a.loc t, a.val) = some ((run', (a.loc t).2 ++ e.toList), env') := by
        apply actTask_eq_some.mpr
        exact ⟨hin, e, by rw [hrun, ← h.env]; exact hline, rfl⟩
      refine ⟨⟨Function.update a.loc t (run', (a.loc t).2 ++ e.toList), env'⟩,
        .single ⟨t, _, env', hact, rfl⟩, rfl, fun j hj => ?_, fun u hu hu' e' he' => ?_⟩
      · by_cases hjk : j = k
        · subst hjk
          simp only [Function.update_self]
          exact hsim.line ((List.nodup_flatMap.mp chunks.nodup).1 j (List.mem_range.mpr hj)) hcur e
        · simp only [Function.update_of_ne hjk]
          apply (h.workers j hj).congr
          intro u hu
          apply Function.update_of_ne
          rintro rfl
          exact chunks.apart hj hk hjk hu (hsim.mem_of_cur hcur)
      · by_cases hut : u = t
        · subst hut
          simp only [Function.update_self] at he'
          rcases List.mem_append.mp he' with hold | hnew
          · exact h.acts u hu hu' e' hold
          · obtain ⟨inst, hinst, -, -, he⟩ := stepTask_eq_some.mp hline
            rw [Option.mem_toList, he] at hnew
            exact activationOf_lineActivation described (pureBatch.pure u hu hu')
              (List.mem_of_getElem? hinst) hnew
        · simp only [Function.update_of_ne hut] at he'
          exact h.acts u hu hu' e' he'
  | none =>
    simp only [hcur] at hworker
    cases htodo : (p.worker k).todo with
    | nil =>
      rw [htodo] at hworker
      cases hworker
    | cons t todo =>
      have hmem : t ∈ (p.worker k).todo := by simp [htodo]
      have hin := chunks.inside hk (hsim.mem_of_todo hmem)
      have hbit : (p.worker k).flag.getLsbD (t % 8) = activeWord.getLsbD (t % 8) := by
        rw [hsim.flag]
        apply getLsbD_ownFlags_batch pureBatch activeWord _ hin.1 hin.2
        intro e he
        obtain ⟨u, hu, heu⟩ := List.mem_flatMap.mp he
        have hinu := chunks.inside hk hu
        exact ⟨u, hinu.1, hinu.2, h.acts u hinu.1 hinu.2 e heu⟩
      rw [htodo] at hworker
      simp only [chunks.dispatched t hin.1 hin.2, Bool.true_and, hbit] at hworker
      refine ⟨a, .refl, ?_⟩
      split at hworker
      · rename_i hflag
        obtain ⟨rfl, rfl⟩ := Prod.mk.inj (Option.some.inj hworker)
        exact h.idle (hsim.enter hcur htodo ⟨hin, hflag⟩)
      · rename_i hflag
        obtain ⟨rfl, rfl⟩ := Prod.mk.inj (Option.some.inj hworker)
        exact h.idle (hsim.skip hcur htodo fun hflagged => hflag hflagged.2)

include described pureBatch in
theorem Simulates.pool (chunks : Chunks batch tasks chunk workerCount) (env : ℕ → V)
    (h : Relation.ReflTransGen (G.PoolStep sink tasks workerCount) (Pool.start chunk activeWord active env) p) :
    ∃ a, (batchThreads described pureBatch).Reachable (startState G batch activeWord env) a ∧
      Simulates G sink batch activeWord active chunk workerCount p a := by
  induction h with
  | refl => exact ⟨_, .refl, .start env⟩
  | tail _ hstep ih =>
    obtain ⟨a, hrun, hsim⟩ := ih
    obtain ⟨a', hrun', hsim'⟩ := hsim.step described pureBatch chunks hstep
    exact ⟨a', hrun.trans hrun', hsim'⟩

include described pureBatch in
/-- When the workers have joined, all tasks are at their ends. -/
theorem Simulates.final (chunks : Chunks batch tasks chunk workerCount)
    (h : Simulates G sink batch activeWord active chunk workerCount p a) (hjoined : p.Joined workerCount) :
    (batchThreads described pureBatch).Final a := by
  intro t
  change actTask G batch t (a.loc t, a.val) = none
  by_cases hin : batch.1 ≤ t ∧ t < batch.2
  · have hmem : t ∈ (List.range workerCount).flatMap chunk := by
      rw [chunks.all]
      exact List.mem_range'_1.mpr (by omega)
    obtain ⟨k, hk, ht⟩ := List.mem_flatMap.mp hmem
    have hk' := List.mem_range.mp hk
    obtain ⟨before, heq, hdone⟩ := (h.workers k hk').split
    obtain ⟨hcur, htodo⟩ := hjoined k hk'
    rw [hcur, htodo] at heq
    have hbefore : t ∈ before := by
      rw [heq] at ht
      simpa using ht
    rw [actTask, if_pos hin, stepTask_eq_none.mpr (hdone t hbefore)]
    rfl
  · exact if_neg hin

end Simulation

/-! ## The scan is a pool of one -/

section Alone

variable [DecidableEq V] {σ : Type} {sink : Sink σ} {tasks : TaskMap}

/-- A worker without others. -/
abbrev Alone (G : EmitGraph V Out) (sink : Sink σ) (tasks : TaskMap) :
    Worker V σ × (ℕ → V) → Worker V σ × (ℕ → V) → Prop :=
  Relation.ReflTransGen fun s s' => G.stepWorker sink tasks s.1 s.2 = some s'

theorem Alone.pool {s s' : Worker V σ × (ℕ → V)} (h : Alone G sink tasks s s') {p : Pool V σ}
    (hworker : p.worker 0 = s.1) (henv : p.env = s.2) :
    ∃ p', Relation.ReflTransGen (G.PoolStep sink tasks 1) p p' ∧ p'.worker 0 = s'.1 ∧ p'.env = s'.2 := by
  induction h with
  | refl => exact ⟨p, .refl, hworker, henv⟩
  | @tail _ after _ hstep ih =>
    obtain ⟨p', hrun, hworker', henv'⟩ := ih
    refine ⟨⟨Function.update p'.worker 0 after.1, after.2⟩, hrun.tail ?_, ?_, rfl⟩
    · refine ⟨0, Nat.one_pos, after.1, after.2, ?_, rfl⟩
      rw [hworker', henv']
      exact hstep
    · simp only [Function.update_self]

/-- The lines of a task from some place on. -/
theorem runLines_alone (t : ℕ) (todo : List ℕ) (rest : List (InstInfo V Out)) (pc : ℕ)
    (hrest : (G.lines t).drop pc = rest) (st : LineState V × List Bool) (flag : BitVec 8) (active : σ) :
    let s := G.runLines sink t rest st flag active
    Alone G sink tasks (⟨todo, some (t, ⟨pc, st.2, st.1.old⟩), flag, active⟩, st.1.env)
      (⟨todo, none, s.flag, s.active⟩, s.env) := by
  induction rest generalizing pc st flag active with
  | nil =>
    apply Relation.ReflTransGen.single
    have hend : (G.lines t)[pc]? = none := by
      rw [← List.head?_drop, hrest]
      rfl
    have hnone : G.stepTask t ⟨pc, st.2, st.1.old⟩ st.1.env = none := stepTask_eq_none.mpr hend
    simp only [stepWorker, hnone]
    rfl
  | cons inst rest ih =>
    have hline : (G.lines t)[pc]? = some inst := by
      rw [← List.head?_drop, hrest]
      rfl
    have hrest' : (G.lines t).drop (pc + 1) = rest := by
      rw [← List.tail_drop, hrest]
      rfl
    have hstep : G.stepTask t ⟨pc, st.2, st.1.old⟩ st.1.env =
        some (⟨pc + 1, (G.runLine st inst).2, (G.runLine st inst).1.old⟩, (G.runLine st inst).1.env,
          G.lineActivation t st inst) := stepTask_eq_some.mpr ⟨inst, hline, rfl, rfl, rfl⟩
    apply Relation.ReflTransGen.head _ (ih (pc + 1) hrest' (G.runLine st inst) _ _)
    simp only [stepWorker, hstep]
    rfl

theorem scan_alone (ids : List ℕ) (hall : ∀ t ∈ ids, dispatched tasks t = true) (s : TaskState V σ) :
    let s' := G.scan sink ids s
    Alone G sink tasks (⟨ids, none, s.flag, s.active⟩, s.env) (⟨[], none, s'.flag, s'.active⟩, s'.env) := by
  induction ids generalizing s with
  | nil => exact .refl
  | cons t ids ih =>
    have hrest := ih (fun u hu => hall u (List.mem_cons_of_mem _ hu)) (G.scanTask sink s t)
    have hdispatched := hall t List.mem_cons_self
    refine Relation.ReflTransGen.trans ?_ hrest
    unfold scanTask
    by_cases hflag : s.flag.getLsbD (t % 8) = true
    · rw [if_pos hflag]
      refine Relation.ReflTransGen.head ?_ (runLines_alone t ids (G.lines t) 0 rfl (⟨s.env, fun _ => none⟩, [])
        s.flag s.active)
      simp only [stepWorker, hdispatched, hflag]
      rfl
    · rw [if_neg hflag]
      apply Relation.ReflTransGen.single
      simp only [stepWorker, hdispatched, hflag]
      rfl

end Alone

end EmitGraph

end Gsim.PureBatches
