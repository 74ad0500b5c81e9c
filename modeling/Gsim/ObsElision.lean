/-
  Gsim/ObsElision.lean
  ====================
  **Observability elision** (`mtDenseObservabilityDroppableSet` and
  `mtDenseObservabilitySpansBalanced` of `cppEmitterUtil.cpp`, the span elision in
  `genSuperEval` of `cppEmitterEmitCore.cpp`).

  Nodes that are named like counters and probes are dropped when all their consumers
  are dropped and they activate only super nodes of which nothing else is left but
  prints.  Where the markers of a super node are balanced, the lines whose innermost
  span belongs to a dropped node are not emitted.

  The elision cannot be observed (`elision_unobservable`) when
    * a span that is left out holds nothing but assignments of dropped nodes, and no
      span that is kept stands in a branch that is left out (`SpansClean`): the scan
      looks at the innermost span only, so an `if` in the span of a dropped node would
      be lost also where it guards another node;
    * no dropped node activates a super node with a print (`TargetsSilent`).
  Both follow for the graphs that reach the emitter (`Pruned`): what the last
  `removeDeadNodes` leaves without consumers is only what `replicationOpt` makes after it.

  Values and texts are arbitrary; a line is an action on the nodes.  The dump of all
  nodes under `ENABLE_LOG` is left out, and so are the reset functions that are called
  around a super node.
-/
import Gsim.BranchStreams

namespace Gsim.ObsElision

open BranchStreams

/-! ## The graph -/

inductive NodeType where
  | invalid
  | regSrc
  | regDst
  | special
  | inp
  | out
  | memory
  | reader
  | writer
  | readwriter
  | infer
  | others
  | regReset
  | extIn
  | extOut
  | ext
deriving DecidableEq, Repr

inductive NodeStatus where
  | valid
  | dead
  | constant
  | replication
  | splitted
  | emptyReg
deriving DecidableEq, Repr

inductive AsReset where
  | empty
  | async
  | uint
  | all
deriving DecidableEq, Repr

structure Node where
  name : List Char
  status : NodeStatus
  type : NodeType
  isArray : Bool
  hasParent : Bool
  inAggr : Bool
  isClock : Bool
  asReset : AsReset
  hasMember : Bool
  next : List ℕ
  depNext : List ℕ
  nextActiveId : List ℕ

namespace Node

def isReset (n : Node) : Bool := n.asReset ≠ .empty

def isAsyncReset (n : Node) : Bool := n.asReset = .async || n.asReset = .all

def isExt (n : Node) : Bool := n.type = .ext || n.type = .extIn || n.type = .extOut

def isLocal (n : Node) : Bool :=
  n.status = .valid && n.type = .others && n.nextActiveId.isEmpty && !n.isArray && !n.isReset

end Node

/-- A value computed from the nodes that are read. -/
structure Reads (V α : Type) where
  reads : List ℕ
  eval : (ℕ → V) → α
  only : ∀ env env', (∀ n ∈ reads, env n = env' n) → eval env = eval env'

/-- What a line of `SUPER_INFO_STR` does, and the two markers. -/
inductive Action (V Out : Type) where
  | assign (node : ℕ) (value : Reads V V)
  /-- A print, an assertion or a stop. -/
  | print (node : ℕ) (text : Reads V Out)
  | assignBeg (node : ℕ)
  | assignEnd (node : ℕ)

variable {V Out : Type}

namespace Action

def node : Action V Out → ℕ
  | assign n _ => n
  | print n _ => n
  | assignBeg n => n
  | assignEnd n => n

def isPrint : Action V Out → Bool
  | print _ _ => true
  | _ => false

def reads : Action V Out → List ℕ
  | assign _ value => value.reads
  | print _ text => text.reads
  | _ => []

end Action

abbrev InstInfo (V Out : Type) := Inst (Reads V Bool) (Action V Out)

structure SuperNode (V Out : Type) where
  member : List ℕ
  /-- `SUPER_EXTMOD` -/
  extmod : Bool
  insts : List (InstInfo V Out)

structure EmitGraph (V Out : Type) where
  node : ℕ → Node
  superId : ℕ
  cppId2Super : ℕ → Option (SuperNode V Out)
  /-- `GSIM_MT_DENSE_ELIDE_OBSERVABILITY` -/
  elideObservability : Bool
  /-- A value as a condition. -/
  isTrue : V → Bool

/-! ## The dropped nodes -/

def contains (name : List Char) (text : String) : Bool := name.tails.any fun rest => text.toList.isPrefixOf rest

def mtDenseObservabilityNameClassified (name : List Char) : Bool :=
  if "logEndpoint__DOT__".toList.isPrefixOf name then true
  else if contains name "perfCtrl" || contains name "perfEvents" || contains name "PerfCtf" ||
      contains name "perf_" then true
  else if contains name "debugModule" || contains name "dtm" || contains name "DTM" ||
      contains name "jtag" || contains name "JTAG" then false
  else contains name "debug_" || contains name "Debug"

namespace EmitGraph

variable (G : EmitGraph V Out)

def alwaysActive (cppId : ℕ) : Bool := (G.cppId2Super cppId).any (·.extmod)

/-- `updateNeedActivate` -/
def nextNeedActivate (n : ℕ) : List ℕ := (G.node n).nextActiveId.filter (!G.alwaysActive ·)

def isCandidate (n : ℕ) : Bool :=
  let node := G.node n
  node.status = .valid && node.type = .others &&
    !(node.isArray || node.hasParent || node.inAggr || node.isClock || node.isReset || node.isExt) &&
    !node.hasMember && mtDenseObservabilityNameClassified node.name

def candidates : List ℕ :=
  (List.range G.superId).flatMap fun cppId =>
    match G.cppId2Super cppId with
    | none => []
    | some super => super.member.filter G.isCandidate

def fullyDroppableSuper (built : List ℕ) (super : SuperNode V Out) : Bool :=
  super.member.all fun m => (G.node m).type = .special || m ∈ built

/-- A target of an activation that has to stay. -/
def targetAlive (built : List ℕ) (target : ℕ) : Bool :=
  match G.cppId2Super target with
  | none => true
  | some super => !G.fullyDroppableSuper built super

def isAlive (built : List ℕ) (n : ℕ) : Bool :=
  (G.node n).next.any (· ∉ built) || (G.node n).depNext.any (· ∉ built) ||
    (G.node n).nextActiveId.any (G.targetAlive built) || (G.nextNeedActivate n).any (G.targetAlive built)

def dropStep (built : List ℕ) (n : ℕ) : List ℕ :=
  if n ∈ built then built else if G.isAlive built n then built else n :: built

def sweep (built : List ℕ) : List ℕ := G.candidates.foldl G.dropStep built

/-- The `while (changed)` loop. -/
def sweeps : ℕ → List ℕ → List ℕ
  | 0, built => built
  | fuel + 1, built => if G.sweep built = built then built else sweeps fuel (G.sweep built)

def mtDenseObservabilityDroppableSet : List ℕ :=
  if G.elideObservability then G.sweeps (G.candidates.length + 1) [] else []

/-! ## The elision -/

def mtDenseObservabilitySpansBalanced : List ℕ → List (InstInfo V Out) → Bool
  | stack, [] => stack.isEmpty
  | stack, .act (.assignBeg n) :: insts => mtDenseObservabilitySpansBalanced (n :: stack) insts
  | [], .act (.assignEnd _) :: _ => false
  | top :: stack, .act (.assignEnd n) :: insts =>
      if top = n then mtDenseObservabilitySpansBalanced stack insts else false
  | stack, _ :: insts => mtDenseObservabilitySpansBalanced stack insts

/-- The loop over the lines with `frameStack`; a line is kept or not. -/
def markSpans (droppable : List ℕ) : List ℕ → List (InstInfo V Out) → List (InstInfo V Out × Bool)
  | _, [] => []
  | frameStack, .act (.assignBeg n) :: insts =>
      (.act (.assignBeg n), n ∉ droppable) :: markSpans droppable (n :: frameStack) insts
  | frameStack, .act (.assignEnd n) :: insts =>
      (.act (.assignEnd n), n ∉ droppable) :: markSpans droppable frameStack.tail insts
  | frameStack, inst :: insts =>
      (inst, frameStack.head?.all (· ∉ droppable)) :: markSpans droppable frameStack insts

/-- The lines of a super node; an external one saves and compares its outputs around them. -/
def stream (super : SuperNode V Out) : List (InstInfo V Out) :=
  if super.extmod then
    let extOuts := super.member.tail.filter fun n => (G.nextNeedActivate n).isEmpty = false
    extOuts.map (fun n => .act (.assignBeg n)) ++ super.insts ++ extOuts.map fun n => .act (.assignEnd n)
  else super.insts

/-- Where `genSuperEval` leaves lines out. -/
def elides (super : SuperNode V Out) : Bool :=
  !super.extmod && G.elideObservability && mtDenseObservabilitySpansBalanced [] super.insts &&
    !G.mtDenseObservabilityDroppableSet.isEmpty

def emitted (super : SuperNode V Out) : List (InstInfo V Out × Bool) :=
  if G.elides super then markSpans G.mtDenseObservabilityDroppableSet [] super.insts
  else (G.stream super).map fun inst => (inst, true)

/-! ## The set is closed -/

/-- Its consumers and all that it activates are dropped too, prints apart. -/
structure Droppable (built : List ℕ) (n : ℕ) : Prop where
  candidate : G.isCandidate n = true
  consumers : ∀ m, m ∈ (G.node n).next ∨ m ∈ (G.node n).depNext → m ∈ built
  targets : ∀ target ∈ (G.node n).nextActiveId, G.targetAlive built target = false

variable {G}

theorem Droppable.mono {built built' : List ℕ} {n : ℕ} (h : G.Droppable built n) (sub : built ⊆ built') :
    G.Droppable built' n where
  candidate := h.candidate
  consumers m hm := sub (h.consumers m hm)
  targets target mem := by
    have := h.targets target mem
    unfold targetAlive at this ⊢
    split at this
    · cases this
    · simp only [Bool.not_eq_false', fullyDroppableSuper, List.all_eq_true, Bool.or_eq_true, decide_eq_true_eq] at this ⊢
      exact fun m hm => (this m hm).imp_right fun h => sub h

theorem droppable_of_not_alive {built : List ℕ} {n : ℕ} (candidate : G.isCandidate n = true)
    (dead : G.isAlive built n = false) : G.Droppable built n := by
  simp only [isAlive, Bool.or_eq_false_iff, List.any_eq_false] at dead
  obtain ⟨⟨⟨next, depNext⟩, targets⟩, -⟩ := dead
  refine ⟨candidate, ?_, fun target mem => by simpa using targets target mem⟩
  rintro m (hm | hm)
  · simpa using next m hm
  · simpa using depNext m hm

theorem subset_dropStep (built : List ℕ) (n : ℕ) : built ⊆ G.dropStep built n := by
  unfold dropStep
  split
  · exact List.Subset.refl _
  · split
    · exact List.Subset.refl _
    · exact List.subset_cons_self _ _

theorem dropStep_droppable {built : List ℕ} {n : ℕ} (candidate : G.isCandidate n = true)
    (h : ∀ m ∈ built, G.Droppable built m) : ∀ m ∈ G.dropStep built n, G.Droppable (G.dropStep built n) m := by
  have sub := subset_dropStep (G := G) built n
  intro m hm
  by_cases old : m ∈ built
  · exact (h m old).mono sub
  · -- only a dead node is added
    have new : m = n ∧ G.isAlive built n = false := by
      unfold dropStep at hm
      split at hm
      · exact absurd hm old
      · split at hm
        · exact absurd hm old
        · rename_i dead
          rcases List.mem_cons.mp hm with rfl | hm
          · exact ⟨rfl, by simpa using dead⟩
          · exact absurd hm old
    obtain ⟨rfl, dead⟩ := new
    exact (droppable_of_not_alive candidate dead).mono sub

theorem isCandidate_of_mem {n : ℕ} (mem : n ∈ G.candidates) : G.isCandidate n = true := by
  obtain ⟨cppId, -, mem⟩ := List.mem_flatMap.mp mem
  split at mem
  · exact absurd mem List.not_mem_nil
  · exact (List.mem_filter.mp mem).2

theorem sweep_droppable {built : List ℕ} (h : ∀ m ∈ built, G.Droppable built m) :
    ∀ m ∈ G.sweep built, G.Droppable (G.sweep built) m := by
  have general : ∀ l : List ℕ, (∀ n ∈ l, G.isCandidate n = true) → ∀ built : List ℕ,
      (∀ m ∈ built, G.Droppable built m) →
        ∀ m ∈ l.foldl G.dropStep built, G.Droppable (l.foldl G.dropStep built) m := by
    intro l
    induction l with
    | nil => exact fun _ built h => h
    | cons n l ih =>
      intro all built h
      rw [List.foldl_cons]
      exact ih (fun k hk => all k (List.mem_cons_of_mem _ hk)) _ (dropStep_droppable (all n List.mem_cons_self) h)
  exact general G.candidates (fun n hn => isCandidate_of_mem hn) built h

theorem sweeps_droppable (fuel : ℕ) {built : List ℕ} (h : ∀ m ∈ built, G.Droppable built m) :
    ∀ m ∈ G.sweeps fuel built, G.Droppable (G.sweeps fuel built) m := by
  induction fuel generalizing built with
  | zero => exact h
  | succ fuel ih =>
    rw [sweeps]
    split
    · exact h
    · exact ih (sweep_droppable h)

theorem dropStep_spec (built : List ℕ) {n : ℕ} (candidate : n ∈ G.candidates) (distinct : built.Nodup)
    (sub : built ⊆ G.candidates) :
    built <:+ G.dropStep built n ∧ (G.dropStep built n).Nodup ∧ G.dropStep built n ⊆ G.candidates := by
  unfold dropStep
  split
  · exact ⟨List.suffix_rfl, distinct, sub⟩
  · rename_i new
    split
    · exact ⟨List.suffix_rfl, distinct, sub⟩
    · exact ⟨List.suffix_cons n built, List.nodup_cons.mpr ⟨new, distinct⟩, List.cons_subset.mpr ⟨candidate, sub⟩⟩

theorem sweep_spec {built : List ℕ} (distinct : built.Nodup) (sub : built ⊆ G.candidates) :
    built <:+ G.sweep built ∧ (G.sweep built).Nodup ∧ G.sweep built ⊆ G.candidates := by
  have general : ∀ l : List ℕ, l ⊆ G.candidates → ∀ built : List ℕ, built.Nodup → built ⊆ G.candidates →
      built <:+ l.foldl G.dropStep built ∧ (l.foldl G.dropStep built).Nodup ∧
        l.foldl G.dropStep built ⊆ G.candidates := by
    intro l
    induction l with
    | nil => exact fun _ built distinct sub => ⟨List.suffix_rfl, distinct, sub⟩
    | cons n l ih =>
      intro all built distinct sub
      obtain ⟨candidate, rest⟩ := List.cons_subset.mp all
      obtain ⟨grown, distinct', sub'⟩ := dropStep_spec built candidate distinct sub
      obtain ⟨grown', final⟩ := ih rest _ distinct' sub'
      exact ⟨grown.trans grown', final⟩
  exact general G.candidates (List.Subset.refl _) built distinct sub

theorem sweep_sweeps (fuel : ℕ) {built : List ℕ} (distinct : built.Nodup) (sub : built ⊆ G.candidates)
    (enough : G.candidates.length < fuel + built.length) : G.sweep (G.sweeps fuel built) = G.sweeps fuel built := by
  induction fuel generalizing built with
  | zero =>
    have := (distinct.subperm sub).length_le
    omega
  | succ fuel ih =>
    rw [sweeps]
    split
    · rename_i stable
      exact stable
    · rename_i changed
      obtain ⟨grown, distinct', sub'⟩ := sweep_spec distinct sub
      refine ih distinct' sub' ?_
      have more : built.length ≠ (G.sweep built).length := fun same => changed (grown.eq_of_length same).symm
      have := grown.length_le
      omega

/-- The loop ends because nothing changes any more. -/
theorem sweep_droppableSet (on : G.elideObservability = true) :
    G.sweep G.mtDenseObservabilityDroppableSet = G.mtDenseObservabilityDroppableSet := by
  rw [mtDenseObservabilityDroppableSet, if_pos on]
  exact sweep_sweeps _ List.nodup_nil (List.nil_subset _) (by simp)

/-- Every node of the set is droppable with respect to the set. -/
theorem droppableSet_droppable {n : ℕ} (mem : n ∈ G.mtDenseObservabilityDroppableSet) :
    G.Droppable G.mtDenseObservabilityDroppableSet n := by
  unfold mtDenseObservabilityDroppableSet at mem ⊢
  split at mem
  · rename_i on
    rw [if_pos on]
    exact sweeps_droppable _ (fun m hm => absurd hm List.not_mem_nil) n mem
  · exact absurd mem List.not_mem_nil

end EmitGraph

/-! ## Runs -/

/-- What can be seen of a run. -/
inductive Entry (V Out : Type) where
  | wrote (node : ℕ) (value : V)
  | printed (node : ℕ) (text : Out)
  | activated (node : ℕ)

def Entry.node : Entry V Out → ℕ
  | wrote n _ => n
  | printed n _ => n
  | activated n => n

def Entry.isPrint : Entry V Out → Bool
  | printed _ _ => true
  | _ => false

structure State (V Out : Type) where
  env : ℕ → V
  /-- The values saved at the beginning of the spans. -/
  old : ℕ → V
  active : ℕ → Bool
  log : List (Entry V Out)

inductive Event (V : Type) where
  /-- An input is set. -/
  | poke (node : ℕ) (value : V)
  /-- A super node is reached; without activation it is always evaluated. -/
  | visit (cppId : ℕ) (emitActivation : Bool)

namespace EmitGraph

variable (G : EmitGraph V Out)

def activate (n : ℕ) (ids : ℕ → Bool) (st : State V Out) : State V Out :=
  { st with active := fun id => st.active id || ids id, log := st.log ++ [.activated n] }

section Execution

variable [DecidableEq V]

/-- The C++ that `translateInst` emits for a line. -/
def runAction (emitActivation : Bool) (a : Action V Out) (st : State V Out) : State V Out :=
  match a with
  | .assign n value =>
    { st with env := Function.update st.env n (value.eval st.env), log := st.log ++ [.wrote n (value.eval st.env)] }
  | .print n text => { st with log := st.log ++ [.printed n (text.eval st.env)] }
  | .assignBeg n =>
    if (G.node n).isLocal || (G.node n).isArray || (G.node n).type = .writer then st
    else { st with old := Function.update st.old n (st.env n) }
  | .assignEnd n =>
    if (G.node n).isLocal || (G.nextNeedActivate n).isEmpty || !emitActivation then st
    else if (G.node n).isArray || (G.node n).type = .writer then activate n (· ∈ G.nextNeedActivate n) st
    else if (G.node n).isAsyncReset then
      if G.isTrue (st.old n) || st.env n ≠ st.old n then activate n (fun _ => true) st else st
    else if st.env n ≠ st.old n then activate n (· ∈ G.nextNeedActivate n) st
    else st

def runStream (emitActivation : Bool) (insts : List (InstInfo V Out)) (st : State V Out) : State V Out :=
  (exec (fun c st => c.eval st.env) (G.runAction emitActivation) insts (st, [])).1

/-- One event, with the lines that were emitted for the super nodes. -/
def runEvent (lines : SuperNode V Out → List (InstInfo V Out)) (st : State V Out) : Event V → State V Out
  | .poke n value =>
    if (G.node n).type = .inp ∧ st.env n ≠ value then
      activate n (· ∈ G.nextNeedActivate n)
        { st with env := Function.update st.env n value, log := st.log ++ [.wrote n value] }
    else st
  | .visit cppId emitActivation =>
    match G.cppId2Super cppId with
    | none => st
    | some super =>
      if emitActivation then
        if super.extmod || st.active cppId then
          G.runStream true (lines super) { st with active := Function.update st.active cppId false }
        else st
      else G.runStream false (lines super) st

def runEvents (lines : SuperNode V Out → List (InstInfo V Out)) (events : List (Event V)) (st : State V Out) :
    State V Out := events.foldl (G.runEvent lines) st

end Execution

/-! ## What is to hold -/

/-- `m` consumes the value of `n`.  The edges are those of `NODE_OTHERS`: a register takes its next
    value over without one, and so does the call of an external module its inputs. -/
def Feeds (n m : ℕ) : Prop :=
  (G.node n).type = .others → n = m ∨ m ∈ (G.node n).next ∨ m ∈ (G.node n).depNext

/-- Whatever a line reads, itself or in the conditions it stands under, feeds its node. -/
def Fed : List (Reads V Bool) → List (InstInfo V Out) → Prop
  | _, [] => True
  | conds, .ifBeg c :: insts => Fed (c :: conds) insts
  | conds, .ifElse :: insts => Fed conds insts
  | conds, .ifEnd :: insts => Fed conds.tail insts
  | conds, .act a :: insts =>
      ((∀ n ∈ a.reads, G.Feeds n a.node) ∧ ∀ c ∈ conds, ∀ n ∈ c.reads, G.Feeds n a.node) ∧ Fed conds insts

/-- The edges and members of the graph are those of its lines, and the branches are paired. -/
structure Described : Prop where
  owned : ∀ cppId super, G.cppId2Super cppId = some super → ∀ a, .act a ∈ G.stream super → a.node ∈ super.member
  fed : ∀ cppId super, G.cppId2Super cppId = some super → G.Fed [] (G.stream super)
  special : ∀ cppId super, G.cppId2Super cppId = some super →
    ∀ n text, .act (.print n text) ∈ G.stream super → (G.node n).type = .special
  paired : ∀ cppId super, G.cppId2Super cppId = some super →
    Clean (fun _ => False) [] ((G.stream super).map fun inst => (inst, true))

/-- A line that acts on a dropped node only. -/
def Hidden (a : Action V Out) : Prop := a.node ∈ G.mtDenseObservabilityDroppableSet ∧ a.isPrint = false

/-- A print, or an entry of a node outside the set. -/
def seen (e : Entry V Out) : Bool := e.isPrint || e.node ∉ G.mtDenseObservabilityDroppableSet

/-- The super node holds a node outside the set. -/
def Needed (cppId : ℕ) : Prop :=
  ∃ super, G.cppId2Super cppId = some super ∧ ∃ m ∈ super.member, m ∉ G.mtDenseObservabilityDroppableSet

/-- A span that is left out holds only assignments of dropped nodes, and branches are left out as a whole. -/
def SpansClean : Prop :=
  ∀ cppId super, G.cppId2Super cppId = some super → G.elides super →
    Clean G.Hidden [] (G.emitted super)

/-- No dropped node activates a super node with a print. -/
def TargetsSilent : Prop :=
  ∀ n ∈ G.mtDenseObservabilityDroppableSet, ∀ target ∈ (G.node n).nextActiveId,
    ∀ super, G.cppId2Super target = some super → ∀ m ∈ super.member, (G.node m).type ≠ .special

/-- What `removeDeadNodes` and `replicationOpt` leave.  A node without consumers is a copy that was
    made for a node that was replicated itself; that node stood alone, so the lines of its super node
    are those of copies, which have no conditions, and the markers of two copies are not balanced. -/
structure Pruned : Prop where
  lines : ∀ cppId super, G.cppId2Super cppId = some super → G.elides super →
    (∃ m ∈ super.member, m ∈ G.mtDenseObservabilityDroppableSet) →
      ∃ n, ∀ i ∈ super.insts, ∃ a : Action V Out, i = .act a ∧ a.node = n ∧ a.isPrint = false
  targets : ∀ n ∈ G.mtDenseObservabilityDroppableSet, (G.node n).nextActiveId = []

/-- The elision cannot be observed. -/
structure Unobservable [DecidableEq V] : Prop where
  /-- The set holds the consumers of its nodes. -/
  closed : ∀ n ∈ G.mtDenseObservabilityDroppableSet, ∀ m, m ∈ (G.node n).next ∨ m ∈ (G.node n).depNext →
    m ∈ G.mtDenseObservabilityDroppableSet
  /-- What is emitted stands under the conditions it had. -/
  guards : ∀ cppId super, G.cppId2Super cppId = some super →
    guarded [] (kept (G.emitted super)) =
      ((guarded [] (marked (G.emitted super))).filter (·.2.2)).map fun p => (p.1, p.2.1)
  /-- In every run the nodes outside the set have the same values, -/
  values : ∀ events st, ∀ n ∉ G.mtDenseObservabilityDroppableSet,
    (G.runEvents G.stream events st).env n = (G.runEvents (fun super => kept (G.emitted super)) events st).env n
  /-- all that is printed, and what they write and activate, is the same in the same order, -/
  trace : ∀ events st,
    (G.runEvents G.stream events st).log.filter G.seen =
      (G.runEvents (fun super => kept (G.emitted super)) events st).log.filter G.seen
  /-- and the super nodes that hold one are due at the same times. -/
  due : ∀ events st cppId, G.Needed cppId →
    (G.runEvents G.stream events st).active cppId =
      (G.runEvents (fun super => kept (G.emitted super)) events st).active cppId

variable {G}

/-! ## The simulation -/

theorem Feeds.not_mem {n m : ℕ} (feeds : G.Feeds n m) (out : m ∉ G.mtDenseObservabilityDroppableSet) :
    n ∉ G.mtDenseObservabilityDroppableSet := by
  intro mem
  have dropped := droppableSet_droppable mem
  have others : (G.node n).type = .others := by
    have candidate := dropped.candidate
    simp only [isCandidate, Bool.and_eq_true, decide_eq_true_eq] at candidate
    exact candidate.1.1.1.2
  rcases feeds others with rfl | consumer
  · exact out mem
  · exact out (dropped.consumers m consumer)

/-- The lines that are not hidden are those of the other nodes: a print is a node of its own. -/
theorem Described.not_mem_of_not_hidden (described : G.Described) {cppId : ℕ} {super : SuperNode V Out}
    (found : G.cppId2Super cppId = some super) (a : Action V Out) (mem : .act a ∈ G.stream super)
    (shown : ¬ G.Hidden a) : a.node ∉ G.mtDenseObservabilityDroppableSet := by
  intro dropped
  cases isPrint : a.isPrint with
  | false => exact shown ⟨dropped, isPrint⟩
  | true =>
    cases a with
    | print n text =>
      have special := described.special cppId super found n text mem
      have candidate := (droppableSet_droppable dropped).candidate
      simp [isCandidate, Action.node, special] at candidate
    | assign n value => cases isPrint
    | assignBeg n => cases isPrint
    | assignEnd n => cases isPrint

theorem plain_of_fed {conds : List (Reads V Bool)} {insts : List (InstInfo V Out)} (fed : G.Fed conds insts)
    (outside : ∀ a, .act a ∈ insts → ¬ G.Hidden a → a.node ∉ G.mtDenseObservabilityDroppableSet) :
    Plain G.Hidden (fun c => ∀ n ∈ c.reads, n ∉ G.mtDenseObservabilityDroppableSet) conds insts := by
  induction insts generalizing conds with
  | nil => trivial
  | cons i insts ih =>
    have outside' : ∀ a, .act a ∈ insts → ¬ G.Hidden a → a.node ∉ G.mtDenseObservabilityDroppableSet :=
      fun a mem => outside a (List.mem_cons_of_mem _ mem)
    cases i with
    | ifBeg c => exact ih fed outside'
    | ifElse => exact ih fed outside'
    | ifEnd => exact ih fed outside'
    | act a =>
      refine ⟨fun shown c hc n hn => ?_, ih fed.2 outside'⟩
      exact (fed.1.2 c hc n hn).not_mem (outside a List.mem_cons_self shown)

theorem reads_of_fed {conds : List (Reads V Bool)} {insts : List (InstInfo V Out)} (fed : G.Fed conds insts)
    {a : Action V Out} (mem : .act a ∈ insts) : ∀ n ∈ a.reads, G.Feeds n a.node := by
  induction insts generalizing conds with
  | nil => exact absurd mem List.not_mem_nil
  | cons i insts ih =>
    rcases List.mem_cons.mp mem with rfl | later
    · exact fed.1.1
    · cases i with
      | ifBeg c => exact ih fed later
      | ifElse => exact ih fed later
      | ifEnd => exact ih fed later
      | act b => exact ih fed.2 later

theorem map_fst_markSpans (droppable frameStack : List ℕ) (insts : List (InstInfo V Out)) :
    (markSpans droppable frameStack insts).map (·.1) = insts := by
  fun_induction markSpans droppable frameStack insts with
  | case1 => rfl
  | case2 _ _ _ ih => rw [List.map_cons, ih]
  | case3 _ _ _ ih => rw [List.map_cons, ih]
  | case4 _ _ _ _ _ ih => rw [List.map_cons, ih]

theorem map_fst_emitted (super : SuperNode V Out) : (G.emitted super).map (·.1) = G.stream super := by
  rw [emitted]
  split
  · rename_i elides
    have noExt : super.extmod = false := by
      simp only [EmitGraph.elides, Bool.and_eq_true, Bool.not_eq_true'] at elides
      exact elides.1.1.1
    rw [map_fst_markSpans, stream, noExt]
    rfl
  · rw [List.map_map]
    exact List.map_id _

/-- The states differ in the dropped nodes only. -/
structure Agree (G : EmitGraph V Out) (st st' : State V Out) : Prop where
  env : ∀ n ∉ G.mtDenseObservabilityDroppableSet, st.env n = st'.env n
  old : ∀ n ∉ G.mtDenseObservabilityDroppableSet, st.old n = st'.old n
  active : ∀ cppId, G.Needed cppId → st.active cppId = st'.active cppId
  log : st.log.filter G.seen = st'.log.filter G.seen

theorem Agree.refl (st : State V Out) : G.Agree st st := ⟨fun _ _ => rfl, fun _ _ => rfl, fun _ _ => rfl, rfl⟩

theorem Agree.symm {st st' : State V Out} (h : G.Agree st st') : G.Agree st' st :=
  ⟨fun n hn => (h.env n hn).symm, fun n hn => (h.old n hn).symm, fun id hid => (h.active id hid).symm, h.log.symm⟩

theorem Agree.trans {st st' st'' : State V Out} (h : G.Agree st st') (h' : G.Agree st' st'') : G.Agree st st'' :=
  ⟨fun n hn => (h.env n hn).trans (h'.env n hn), fun n hn => (h.old n hn).trans (h'.old n hn),
    fun id hid => (h.active id hid).trans (h'.active id hid), h.log.trans h'.log⟩

/-- A dropped node activates no super node that is needed. -/
theorem TargetsSilent.not_needed (silent : G.TargetsSilent) {n target : ℕ}
    (mem : n ∈ G.mtDenseObservabilityDroppableSet) (activates : target ∈ G.nextNeedActivate n) : ¬ G.Needed target := by
  rintro ⟨super, found, m, hm, out⟩
  have active : target ∈ (G.node n).nextActiveId := (List.mem_filter.mp activates).1
  have dead := (droppableSet_droppable mem).targets target active
  simp only [targetAlive, found, Bool.not_eq_false', fullyDroppableSuper, List.all_eq_true, Bool.or_eq_true,
    decide_eq_true_eq] at dead
  rcases dead m hm with special | dropped
  · exact silent n mem target active super found m hm special
  · exact out dropped

theorem filter_append_hidden {log : List (Entry V Out)} {e : Entry V Out} (unseen : G.seen e = false) :
    (log ++ [e]).filter G.seen = log.filter G.seen := by
  simp [List.filter_append, unseen]

theorem agree_activate {st : State V Out} {n : ℕ} {ids : ℕ → Bool} (mem : n ∈ G.mtDenseObservabilityDroppableSet)
    (unneeded : ∀ cppId, ids cppId = true → ¬ G.Needed cppId) : G.Agree (activate n ids st) st := by
  have unseen : G.seen (.activated n) = false := by simp [seen, Entry.isPrint, Entry.node, mem]
  refine ⟨fun _ _ => rfl, fun _ _ => rfl, fun cppId needed => ?_, filter_append_hidden unseen⟩
  have off : ids cppId = false := by
    by_contra on
    exact unneeded cppId (by simpa using on) needed
  simp [activate, off]

theorem filter_append_congr {log log' : List (Entry V Out)} (same : log.filter G.seen = log'.filter G.seen)
    (e : Entry V Out) : (log ++ [e]).filter G.seen = (log' ++ [e]).filter G.seen := by
  rw [List.filter_append, List.filter_append, same]

theorem Agree.activate {st st' : State V Out} (h : G.Agree st st') (n : ℕ) (ids : ℕ → Bool) :
    G.Agree (activate n ids st) (activate n ids st') where
  env := h.env
  old := h.old
  active cppId needed := congrArg (· || ids cppId) (h.active cppId needed)
  log := filter_append_congr h.log _

theorem Agree.eval {α : Type} {st st' : State V Out} (h : G.Agree st st') {e : Reads V α}
    (out : ∀ n ∈ e.reads, n ∉ G.mtDenseObservabilityDroppableSet) : e.eval st.env = e.eval st'.env :=
  e.only _ _ fun n hn => h.env n (out n hn)

theorem Agree.clear {st st' : State V Out} (h : G.Agree st st') (cppId : ℕ) :
    G.Agree { st with active := Function.update st.active cppId false }
      { st' with active := Function.update st'.active cppId false } where
  env := h.env
  old := h.old
  active id needed := by
    simp only [Function.update_apply]
    split
    · rfl
    · exact h.active id needed
  log := h.log

theorem agree_clear {cppId : ℕ} (unneeded : ¬ G.Needed cppId) (st : State V Out) :
    G.Agree { st with active := Function.update st.active cppId false } st where
  env _ _ := rfl
  old _ _ := rfl
  active id needed := Function.update_of_ne (by rintro rfl; exact unneeded needed) _ _
  log := rfl

theorem emitted_clean (described : G.Described) (clean : G.SpansClean) {cppId : ℕ} {super : SuperNode V Out}
    (found : G.cppId2Super cppId = some super) :
    Clean G.Hidden [] (G.emitted super) := by
  by_cases elides : G.elides super = true
  · exact clean cppId super found elides
  · rw [emitted, if_neg elides]
    exact (described.paired cppId super found).all

theorem mem_of_mem_kept {i : InstInfo V Out} {super : SuperNode V Out} (mem : i ∈ kept (G.emitted super)) :
    i ∈ G.stream super := by
  rw [← map_fst_emitted]
  obtain ⟨p, hp, rfl⟩ := List.mem_map.mp mem
  exact List.mem_map_of_mem (List.mem_filter.mp hp).1

theorem Described.hidden_of_not_needed (described : G.Described) {cppId : ℕ} {super : SuperNode V Out}
    (found : G.cppId2Super cppId = some super) (unneeded : ¬ G.Needed cppId) {a : Action V Out}
    (mem : .act a ∈ G.stream super) : G.Hidden a := by
  by_contra shown
  exact unneeded ⟨super, found, a.node, described.owned cppId super found a mem,
    described.not_mem_of_not_hidden found a mem shown⟩

/-! ## Graphs that reach the emitter -/

theorem markSpans_eq_of_not_mem {droppable frameStack : List ℕ} {insts : List (InstInfo V Out)}
    (out : ∀ a, .act a ∈ insts → a.node ∉ droppable) (frames : ∀ n ∈ frameStack, n ∉ droppable) :
    markSpans droppable frameStack insts = insts.map fun inst => (inst, true) := by
  fun_induction markSpans droppable frameStack insts with
  | case1 => rfl
  | case2 frameStack n insts ih =>
    have here : n ∉ droppable := out _ List.mem_cons_self
    rw [List.map_cons, ih (fun a mem => out a (List.mem_cons_of_mem _ mem))
      (List.forall_mem_cons.mpr ⟨here, frames⟩), decide_eq_true here]
  | case3 frameStack n insts ih =>
    have here : n ∉ droppable := out _ List.mem_cons_self
    rw [List.map_cons, ih (fun a mem => out a (List.mem_cons_of_mem _ mem))
      (fun m hm => frames m (List.mem_of_mem_tail hm)), decide_eq_true here]
  | case4 frameStack i insts _ _ ih =>
    have top : frameStack.head?.all (· ∉ droppable) = true := by
      cases frameStack with
      | nil => rfl
      | cons n frameStack => exact decide_eq_true (frames n List.mem_cons_self)
    rw [List.map_cons, ih (fun a mem => out a (List.mem_cons_of_mem _ mem)) frames, top]

/-- If all markers are of one node, nothing is left out unless that node is dropped. -/
theorem mem_of_mem_markSpans {droppable frameStack : List ℕ} {insts : List (InstInfo V Out)} {n : ℕ}
    (one : ∀ a, .act a ∈ insts → a.node = n) (frames : ∀ m ∈ frameStack, m = n)
    {p : InstInfo V Out × Bool} (mem : p ∈ markSpans droppable frameStack insts) (left : p.2 = false) :
    n ∈ droppable := by
  fun_induction markSpans droppable frameStack insts with
  | case1 => cases mem
  | case2 frameStack m insts ih =>
    have here : m = n := one _ List.mem_cons_self
    rcases List.mem_cons.mp mem with rfl | mem
    · exact here ▸ by simpa using left
    · exact ih (fun a later => one a (List.mem_cons_of_mem _ later))
        (List.forall_mem_cons.mpr ⟨here, frames⟩) mem
  | case3 frameStack m insts ih =>
    have here : m = n := one _ List.mem_cons_self
    rcases List.mem_cons.mp mem with rfl | mem
    · exact here ▸ by simpa using left
    · exact ih (fun a later => one a (List.mem_cons_of_mem _ later))
        (fun k hk => frames k (List.mem_of_mem_tail hk)) mem
  | case4 frameStack i insts _ _ ih =>
    rcases List.mem_cons.mp mem with rfl | mem
    · cases frameStack with
      | nil => cases left
      | cons m frameStack => exact frames m List.mem_cons_self ▸ by simpa using left
    · exact ih (fun a later => one a (List.mem_cons_of_mem _ later)) frames mem

theorem clean_of_acts {hidden : Action V Out → Prop} (insts : List (InstInfo V Out × Bool))
    (acts : ∀ p ∈ insts, ∃ a, p.1 = .act a ∧ (p.2 = false → hidden a)) : Clean hidden [] insts := by
  induction insts with
  | nil => trivial
  | cons p insts ih =>
    obtain ⟨i, k⟩ := p
    obtain ⟨⟨a, rfl, left⟩, later⟩ := List.forall_mem_cons.mp acts
    exact ⟨fun _ b hb => absurd hb List.not_mem_nil, left, ih later⟩

theorem Pruned.spansClean (pruned : G.Pruned) (described : G.Described) : G.SpansClean := by
  intro cppId super found elides
  have noExt : super.extmod = false := by
    simp only [EmitGraph.elides, Bool.and_eq_true, Bool.not_eq_true'] at elides
    exact elides.1.1.1
  have same : G.stream super = super.insts := by
    rw [stream, noExt]
    rfl
  have owned := described.owned cppId super found
  have paired := described.paired cppId super found
  rw [same] at owned paired
  rw [emitted, if_pos elides]
  by_cases holds : ∃ m ∈ super.member, m ∈ G.mtDenseObservabilityDroppableSet
  · obtain ⟨n, lines⟩ := pruned.lines cppId super found elides holds
    have one : ∀ a, .act a ∈ super.insts → a.node = n := by
      intro a mem
      obtain ⟨a', eq, hn, -⟩ := lines _ mem
      cases eq
      exact hn
    apply clean_of_acts
    intro p mem
    have inside : p.1 ∈ super.insts := by
      have fst := List.mem_map_of_mem (f := (·.1)) mem
      rwa [map_fst_markSpans] at fst
    obtain ⟨a, eq, hn, notPrint⟩ := lines _ inside
    refine ⟨a, eq, fun left => ⟨?_, notPrint⟩⟩
    rw [hn]
    exact mem_of_mem_markSpans one (fun m hm => absurd hm List.not_mem_nil) mem left
  · have out : ∀ a, .act a ∈ super.insts → a.node ∉ G.mtDenseObservabilityDroppableSet :=
      fun a mem dropped => holds ⟨a.node, owned a mem, dropped⟩
    rw [markSpans_eq_of_not_mem out fun m hm => absurd hm List.not_mem_nil]
    exact paired.all

theorem Pruned.targetsSilent (pruned : G.Pruned) : G.TargetsSilent := by
  intro n mem target activates
  rw [pruned.targets n mem] at activates
  cases activates

/-! ## The simulation of a run -/

variable [DecidableEq V]

/-- A line of a dropped node changes nothing else. -/
theorem agree_runAction (silent : G.TargetsSilent) (emitActivation : Bool) {a : Action V Out}
    (hidden : G.Hidden a) (st : State V Out) : G.Agree (G.runAction emitActivation a st) st := by
  obtain ⟨mem, notPrint⟩ := hidden
  cases a with
  | assign n value =>
    have unseen : G.seen (.wrote n (value.eval st.env)) = false := by
      have dropped : n ∈ G.mtDenseObservabilityDroppableSet := mem
      simp [seen, Entry.isPrint, Entry.node, dropped]
    refine ⟨fun m hm => Function.update_of_ne ?_ _ _, fun _ _ => rfl, fun _ _ => rfl, filter_append_hidden unseen⟩
    rintro rfl
    exact hm mem
  | print n text => cases notPrint
  | assignBeg n =>
    simp only [runAction]
    split
    · exact Agree.refl st
    · refine ⟨fun _ _ => rfl, fun m hm => Function.update_of_ne ?_ _ _, fun _ _ => rfl, rfl⟩
      rintro rfl
      exact hm mem
  | assignEnd n =>
    have dropped : n ∈ G.mtDenseObservabilityDroppableSet := mem
    have targets : G.Agree (activate n (· ∈ G.nextNeedActivate n) st) st :=
      agree_activate dropped fun cppId on => silent.not_needed dropped (by simpa using on)
    have noReset : (G.node n).isAsyncReset = false := by
      have candidate := (droppableSet_droppable dropped).candidate
      have empty : (G.node n).asReset = .empty := by
        by_contra ne
        simp [isCandidate, Node.isReset, ne] at candidate
      simp [Node.isAsyncReset, empty]
    simp only [runAction, noReset]
    split
    · exact Agree.refl st
    · split
      · exact targets
      · split
        · rename_i impossible
          cases impossible
        · split
          · exact targets
          · exact Agree.refl st

/-- A line of another node does the same on both sides. -/
theorem Agree.runAction {st st' : State V Out} (h : G.Agree st st') (emitActivation : Bool) {a : Action V Out}
    (out : a.node ∉ G.mtDenseObservabilityDroppableSet)
    (reads : ∀ n ∈ a.reads, n ∉ G.mtDenseObservabilityDroppableSet) :
    G.Agree (G.runAction emitActivation a st) (G.runAction emitActivation a st') := by
  cases a with
  | assign n value =>
    have same := h.eval reads
    refine ⟨fun m hm => ?_, h.old, h.active, ?_⟩
    · simp only [EmitGraph.runAction, same, Function.update_apply]
      split
      · rfl
      · exact h.env m hm
    · simp only [EmitGraph.runAction, same]
      exact filter_append_congr h.log _
  | print n text =>
    refine ⟨h.env, h.old, h.active, ?_⟩
    simp only [EmitGraph.runAction, h.eval reads]
    exact filter_append_congr h.log _
  | assignBeg n =>
    have here : st.env n = st'.env n := h.env n out
    simp only [EmitGraph.runAction]
    split
    · exact h
    · refine ⟨h.env, fun m hm => ?_, h.active, h.log⟩
      simp only [here, Function.update_apply]
      split
      · rfl
      · exact h.old m hm
  | assignEnd n =>
    have here : st.env n = st'.env n := h.env n out
    have saved : st.old n = st'.old n := h.old n out
    simp only [EmitGraph.runAction, here, saved]
    split
    · exact h
    · split
      · exact h.activate _ _
      · split
        · split
          · exact h.activate _ _
          · exact h
        · split
          · exact h.activate _ _
          · exact h

theorem Agree.runStream (silent : G.TargetsSilent) (emitActivation : Bool) {insts : List (InstInfo V Out × Bool)}
    (fed : G.Fed [] (insts.map (·.1)))
    (outside : ∀ a, .act a ∈ insts.map (·.1) → ¬ G.Hidden a → a.node ∉ G.mtDenseObservabilityDroppableSet)
    (clean : Clean G.Hidden [] insts) {st st' : State V Out} (h : G.Agree st st') :
    G.Agree (G.runStream emitActivation (insts.map (·.1)) st) (G.runStream emitActivation (kept insts) st') := by
  refine exec_kept insts (fun a hidden s s' rel => ?_) (fun a mem shown s s' rel => ?_) (fun c isPlain s s' rel => ?_)
    Stacks.nil clean (plain_of_fed fed outside) h
  · have quiet := agree_runAction silent emitActivation hidden
    exact ⟨(quiet s).trans rel, rel.trans (quiet s').symm⟩
  · have out := outside a mem shown
    exact rel.runAction emitActivation out fun n hn => (reads_of_fed fed mem n hn).not_mem out
  · exact rel.eval isPlain

/-- A super node of dropped nodes does nothing else, whatever is emitted of it. -/
theorem agree_runStream (silent : G.TargetsSilent) (emitActivation : Bool) {insts : List (InstInfo V Out)}
    (hidden : ∀ a, .act a ∈ insts → G.Hidden a) (st : State V Out) :
    G.Agree (G.runStream emitActivation insts st) st := by
  refine exec_invariant (P := fun s => G.Agree s st) insts (fun a mem s rel => ?_) (Agree.refl st)
  exact (agree_runAction silent emitActivation (hidden a mem) s).trans rel

/-- One event keeps the agreement. -/
theorem Agree.runEvent (described : G.Described) (clean : G.SpansClean) (silent : G.TargetsSilent)
    {st st' : State V Out} (h : G.Agree st st') (event : Event V) :
    G.Agree (G.runEvent G.stream st event) (G.runEvent (fun super => kept (G.emitted super)) st' event) := by
  cases event with
  | poke n value =>
    by_cases input : (G.node n).type = .inp
    · have out : n ∉ G.mtDenseObservabilityDroppableSet := by
        intro mem
        have := (droppableSet_droppable mem).candidate
        simp [isCandidate, input] at this
      simp only [EmitGraph.runEvent, input, h.env n out, true_and]
      split
      · have poked : G.Agree
            { st with env := Function.update st.env n value, log := st.log ++ [.wrote n value] }
            { st' with env := Function.update st'.env n value, log := st'.log ++ [.wrote n value] } := by
          refine ⟨fun m hm => ?_, h.old, h.active, filter_append_congr h.log _⟩
          simp only [Function.update_apply]
          split
          · rfl
          · exact h.env m hm
        exact poked.activate n _
      · exact h
    · simp only [EmitGraph.runEvent, input, false_and, if_false]
      exact h
  | visit cppId emitActivation =>
    simp only [EmitGraph.runEvent]
    split
    · exact h
    · rename_i super found
      have fed : G.Fed [] ((G.emitted super).map (·.1)) := by
        rw [map_fst_emitted]
        exact described.fed cppId super found
      have outside : ∀ a, .act a ∈ (G.emitted super).map (·.1) → ¬ G.Hidden a →
          a.node ∉ G.mtDenseObservabilityDroppableSet := by
        rw [map_fst_emitted]
        exact described.not_mem_of_not_hidden found
      have both : ∀ {s s'}, G.Agree s s' → G.Agree (G.runStream emitActivation (G.stream super) s)
          (G.runStream emitActivation (kept (G.emitted super)) s') := by
        intro s s' rel
        rw [← map_fst_emitted]
        exact rel.runStream silent emitActivation fed outside (emitted_clean described clean found)
      cases emitActivation with
      | false => exact both h
      | true =>
        simp only [if_true]
        by_cases needed : G.Needed cppId
        · rw [h.active cppId needed]
          split
          · exact both (h.clear cppId)
          · exact h
        · -- the two sides may come here at different times
          have left : ∀ s : State V Out, G.Agree (if super.extmod || s.active cppId then
              G.runStream true (G.stream super) { s with active := Function.update s.active cppId false } else s) s := by
            intro s
            split
            · exact (agree_runStream silent true (fun a mem => described.hidden_of_not_needed found needed mem) _).trans
                (agree_clear needed s)
            · exact Agree.refl s
          have right : ∀ s : State V Out, G.Agree (if super.extmod || s.active cppId then
              G.runStream true (kept (G.emitted super))
                { s with active := Function.update s.active cppId false } else s) s := by
            intro s
            split
            · exact (agree_runStream silent true
                (fun a mem => described.hidden_of_not_needed found needed (mem_of_mem_kept mem)) _).trans
                (agree_clear needed s)
            · exact Agree.refl s
          exact (left st).trans (h.trans (right st').symm)

theorem Agree.runEvents (described : G.Described) (clean : G.SpansClean) (silent : G.TargetsSilent)
    (events : List (Event V)) {st st' : State V Out} (h : G.Agree st st') :
    G.Agree (G.runEvents G.stream events st) (G.runEvents (fun super => kept (G.emitted super)) events st') := by
  induction events generalizing st st' with
  | nil => exact h
  | cons event events ih => exact ih (h.runEvent described clean silent event)

/-- **The elision is unobservable** where the spans are clean and the targets silent. -/
theorem elision_unobservable (described : G.Described) (clean : G.SpansClean) (silent : G.TargetsSilent) :
    G.Unobservable where
  closed _ mem m consumer := (droppableSet_droppable mem).consumers m consumer
  guards _ super found := guarded_kept (G.emitted super) [] (emitted_clean described clean found)
  values events st := ((Agree.refl st).runEvents described clean silent events).env
  trace events st := ((Agree.refl st).runEvents described clean silent events).log
  due events st := ((Agree.refl st).runEvents described clean silent events).active

end EmitGraph

/-! ### A probe and a guarded register -/

def Reads.const {α : Type} (value : α) : Reads V α where
  reads := []
  eval _ := value
  only _ _ _ := rfl

def Reads.value (n : ℕ) : Reads V V where
  reads := [n]
  eval env := env n
  only _ _ same := same n (List.mem_singleton_self n)

/-- Node 0 is the probe, a copy without consumers.  Nodes 1 and 2 are the next value and the value of
    a register, node 3 is an input that the probe and the register read, and node 4 the output. -/
def probeNode (n : ℕ) : Node where
  name := if n = 0 then "debug_x$DUP_1".toList else []
  status := .valid
  type := if n = 0 then .others else if n = 1 then .regDst else if n = 2 then .regSrc
    else if n = 3 then .inp else .out
  isArray := false
  hasParent := false
  inAggr := false
  isClock := false
  asReset := .empty
  hasMember := false
  next := if n = 2 then [4] else if n = 3 then [0, 1] else []
  depNext := if n = 2 then [1, 4] else if n = 3 then [0, 1] else []
  nextActiveId := if n = 1 then [1] else if n = 3 then [0, 2] else []

def superOf (member : List ℕ) (insts : List (InstInfo Bool Unit)) : SuperNode Bool Unit := ⟨member, false, insts⟩

/-- The register is set under a condition. -/
def guardedSet : List (InstInfo Bool Unit) :=
  [.ifBeg (.value 3), .act (.assignBeg 1), .act (.assign 1 (.const true)), .act (.assignEnd 1), .ifEnd]

/-- It takes its next value and is put out; the markers of the two are not balanced. -/
def registerSuper : SuperNode Bool Unit :=
  superOf [2, 4] [.act (.assignBeg 4), .act (.assignBeg 2), .act (.assign 2 (.value 1)),
    .act (.assign 4 (.value 2)), .act (.assignEnd 4), .act (.assignEnd 2)]

def probeGraph (supers : List (SuperNode Bool Unit)) : EmitGraph Bool Unit where
  node := probeNode
  superId := supers.length
  cppId2Super cppId := supers[cppId]?
  elideObservability := true
  isTrue := id

/-- The probe in a super node of its own, as `replicationOpt` leaves it. -/
def apartSupers : List (SuperNode Bool Unit) :=
  [superOf [1] guardedSet, registerSuper,
    superOf [0] [.act (.assignBeg 0), .act (.assign 0 (.value 3)), .act (.assignEnd 0)]]

/-- The probe beside the register; its markers stand around all lines of the sequence. -/
def besideSupers : List (SuperNode Bool Unit) :=
  [superOf [0, 1] ([.act (.assignBeg 0), .act (.assign 0 (.value 3))] ++ guardedSet ++ [.act (.assignEnd 0)]),
    registerSuper]

theorem droppableSet_apart : (probeGraph apartSupers).mtDenseObservabilityDroppableSet = [0] := by
  rfl

theorem droppableSet_beside : (probeGraph besideSupers).mtDenseObservabilityDroppableSet = [0] := by
  rfl

/-- The edges and members are those of the lines of one super node. -/
structure SuperDescribed (supers : List (SuperNode Bool Unit)) (super : SuperNode Bool Unit) : Prop where
  noExt : super.extmod = false
  owned : ∀ a : Action Bool Unit, .act a ∈ super.insts → a.node ∈ super.member
  fed : (probeGraph supers).Fed [] super.insts
  silent : ∀ n text, .act (.print n text) ∉ super.insts
  paired : Clean (fun _ : Action Bool Unit => False) [] (super.insts.map fun inst => (inst, true))

theorem probeGraph_described {supers : List (SuperNode Bool Unit)}
    (each : ∀ super ∈ supers, SuperDescribed supers super) : (probeGraph supers).Described := by
  have stream : ∀ super ∈ supers, (probeGraph supers).stream super = super.insts := by
    intro super mem
    rw [EmitGraph.stream, (each super mem).noExt]
    rfl
  have mem : ∀ {cppId super}, (probeGraph supers).cppId2Super cppId = some super → super ∈ supers :=
    fun found => List.mem_of_getElem? found
  refine ⟨?_, ?_, ?_, ?_⟩
  · intro cppId super found
    rw [stream super (mem found)]
    exact (each super (mem found)).owned
  · intro cppId super found
    rw [stream super (mem found)]
    exact (each super (mem found)).fed
  · intro cppId super found n text print
    rw [stream super (mem found)] at print
    exact absurd print ((each super (mem found)).silent n text)
  · intro cppId super found
    rw [stream super (mem found)]
    exact (each super (mem found)).paired

theorem feeds_probeGraph (supers : List (SuperNode Bool Unit)) {n m : ℕ} (pos : n ≠ 0) :
    (probeGraph supers).Feeds n m := by
  intro others
  simp only [probeGraph, probeNode, if_neg pos] at others
  split at others
  · cases others
  · split at others
    · cases others
    · split at others <;> cases others

theorem registerSuper_described (supers : List (SuperNode Bool Unit)) :
    SuperDescribed supers registerSuper where
  noExt := rfl
  owned := by simp [registerSuper, superOf, Action.node]
  fed := by simp [registerSuper, superOf, EmitGraph.Fed, Action.reads, Reads.value, feeds_probeGraph]
  silent := by simp [registerSuper, superOf]
  paired := by simp [registerSuper, superOf, Clean]

theorem apart_described : (probeGraph apartSupers).Described := by
  apply probeGraph_described
  intro super mem
  simp only [apartSupers, List.mem_cons, List.not_mem_nil, or_false] at mem
  rcases mem with rfl | rfl | rfl
  · refine ⟨rfl, ?_, ?_, ?_, ?_⟩
    · simp [superOf, guardedSet, Action.node]
    · simp [superOf, guardedSet, EmitGraph.Fed, Action.reads, Reads.value, Reads.const, feeds_probeGraph]
    · simp [superOf, guardedSet]
    · simp [superOf, guardedSet, Clean]
  · exact registerSuper_described _
  · refine ⟨rfl, ?_, ?_, ?_, ?_⟩
    · simp [superOf, Action.node]
    · simp [superOf, EmitGraph.Fed, Action.reads, Reads.value, feeds_probeGraph]
    · simp [superOf]
    · simp [superOf, Clean]

theorem apart_pruned : (probeGraph apartSupers).Pruned where
  lines cppId super found _ holds := by
    rw [droppableSet_apart] at holds
    have mem : super ∈ apartSupers := List.mem_of_getElem? found
    refine ⟨0, ?_⟩
    simp only [apartSupers, registerSuper, superOf, List.mem_cons, List.not_mem_nil, or_false] at mem
    rcases mem with rfl | rfl | rfl
    · simp at holds
    · simp at holds
    · simp [Action.node, Action.isPrint]
  targets n mem := by
    rw [droppableSet_apart, List.mem_singleton] at mem
    subst mem
    rfl

/-- The copy of the probe is left out unseen. -/
theorem elision_unobservable_apart : (probeGraph apartSupers).Unobservable :=
  EmitGraph.elision_unobservable apart_described (apart_pruned.spansClean apart_described)
    apart_pruned.targetsSilent

theorem beside_described : (probeGraph besideSupers).Described := by
  apply probeGraph_described
  intro super mem
  simp only [besideSupers, List.mem_cons, List.not_mem_nil, or_false] at mem
  rcases mem with rfl | rfl
  · refine ⟨rfl, ?_, ?_, ?_, ?_⟩
    · simp [superOf, guardedSet, Action.node]
    · simp [superOf, guardedSet, EmitGraph.Fed, Action.reads, Reads.value, Reads.const, feeds_probeGraph]
    · simp [superOf, guardedSet]
    · simp [superOf, guardedSet, Clean]
  · exact registerSuper_described _

def allFalse : State Bool Unit where
  env _ := false
  old _ := false
  active _ := false
  log := []

/-- Beside the register, the condition of the register is lost with the probe. -/
theorem not_unobservable_beside :
    (probeGraph besideSupers).Described ∧ ¬ (probeGraph besideSupers).Unobservable := by
  refine ⟨beside_described, fun unobservable => ?_⟩
  have same := unobservable.values [.visit 0 false] allFalse 1 (by rw [droppableSet_beside]; decide)
  exact absurd same (by decide +kernel)

end Gsim.ObsElision
