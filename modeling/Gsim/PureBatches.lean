/-
  Gsim/PureBatches.lean
  =====================
  **Batches of pure tasks** (`classifyMtTask`, `mtTasksHaveEdge` and
  `mtTaskCanJoinPureBatch` in `cppEmitterMtAnalysis.cpp`, `planMtPureBatches` in
  `cppEmitterMtPlan.cpp`).

  A super node is a task.  It is pure when nothing in it writes state, touches a memory,
  resets, prints or indexes an array.  Pure tasks that stand next to each other in one
  word of flags may run at the same time if there is no edge between any two of them,
  whether of values, of order or of activation.  Both planners cut the tasks into such
  batches (`planMtPureBatches_isBatch`).
-/
import Gsim.MergeGraph
import Gsim.ObsElision

namespace Gsim.PureBatches

open ObsElision (NodeType NodeStatus AsReset InstInfo Reads)
open MergeNodes (SuperType)

/-! ## The graph at emission -/

inductive OPType where
  | OP_EMPTY | OP_MUX
  | OP_ADD | OP_SUB | OP_MUL | OP_DIV | OP_REM | OP_LT | OP_LEQ | OP_GT | OP_GEQ | OP_EQ | OP_NEQ
  | OP_DSHL | OP_DSHR | OP_AND | OP_OR | OP_XOR | OP_CAT
  | OP_ASUINT | OP_ASSINT | OP_ASCLOCK | OP_ASASYNCRESET | OP_CVT | OP_NEG | OP_NOT
  | OP_ANDR | OP_ORR | OP_XORR
  | OP_PAD | OP_SHL | OP_SHR | OP_HEAD | OP_TAIL
  | OP_BITS | OP_BITS_NOSHIFT
  | OP_INDEX_INT | OP_INDEX
  | OP_WHEN
  | OP_PRINTF | OP_ASSERT | OP_EXIT
  | OP_INT
  | OP_GROUP
  | OP_READ_MEM | OP_WRITE_MEM | OP_INFER_MEM
  | OP_INVALID | OP_RESET
  | OP_SEXT
  | OP_EXT_FUNC
  | OP_STMT_SEQ | OP_STMT_WHEN | OP_STMT_NODE

/-- `null` stands for a null child pointer. -/
inductive ENode where
  | null
  | mk (nodePtr : Option ℕ) (opType : OPType) (child : List ENode)

mutual
/-- The expression nodes below and including this one. -/
def ENode.visited : ENode → List (Option ℕ × OPType)
  | .null => []
  | .mk nodePtr opType child => (nodePtr, opType) :: visitedAll child

def visitedAll : List ENode → List (Option ℕ × OPType)
  | [] => []
  | e :: es => e.visited ++ visitedAll es
end

/-- The nodes that a tree refers to, as `getENodeRelyNodes` collects them. -/
def ENode.relies (e : ENode) : List ℕ := e.visited.filterMap Prod.fst

structure ExpTree where
  root : ENode
  lval : ENode

/-- `getRelyNodes`: the root, and the indices of the left-hand side. -/
def ExpTree.relies (tree : ExpTree) : List ℕ :=
  tree.root.relies ++
    match tree.lval with
    | .null => []
    | .mk _ _ child => child.flatMap ENode.relies

/-- `ResetType` -/
inductive ResetType where
  | uncertain
  | asyreset
  | uintreset
  | zeroReset
deriving DecidableEq, Repr

structure Node where
  type : NodeType
  status : NodeStatus
  /-- `dimension.size() != 0` -/
  isArray : Bool
  asReset : AsReset
  reset : ResetType
  regNext : Option ℕ
  assignTree : List ExpTree
  resetTree : Option ExpTree
  nextActiveId : Finset ℕ

namespace Node

def isReset (n : Node) : Bool := n.asReset ≠ .empty

def isAsyncReset (n : Node) : Bool := n.asReset = .async || n.asReset = .all

def isExt (n : Node) : Bool := n.type = .ext || n.type = .extIn || n.type = .extOut

def isLocal (n : Node) : Bool :=
  n.status = .valid && n.type = .others && !decide n.nextActiveId.Nonempty && !n.isArray && !n.isReset

/-- The nodes that its assignments refer to. -/
def relies (n : Node) : List ℕ := n.assignTree.flatMap ExpTree.relies

end Node

/-- The neighbours are given by their `cppId`, which is `-1` for a super node that is not emitted. -/
structure SuperNode (V Out : Type) where
  superType : SuperType
  member : List ℕ
  resetNode : Option ℕ
  prev : List ℤ
  next : List ℤ
  depPrev : List ℤ
  depNext : List ℤ
  insts : List (InstInfo V Out)

structure EmitGraph (V Out : Type) where
  node : ℕ → Node
  superId : ℕ
  cppId2Super : ℕ → Option (SuperNode V Out)
  /-- A value as a condition. -/
  isTrue : V → Bool

/-! ## Classifying tasks -/

/-- What `visitMtENode` makes of an operator. -/
inductive OpKind where
  | leaf
  | compute
  | index
  | readMem
  | writeMem
  | reset
  | special
  | external
  | unknown
deriving DecidableEq, Repr

def OPType.kind : OPType → OpKind
  | .OP_EMPTY | .OP_INT | .OP_INDEX_INT => .leaf
  | .OP_INDEX => .index
  | .OP_READ_MEM => .readMem
  | .OP_WRITE_MEM | .OP_INFER_MEM => .writeMem
  | .OP_RESET => .reset
  | .OP_PRINTF | .OP_ASSERT | .OP_EXIT => .special
  | .OP_EXT_FUNC => .external
  | .OP_INVALID => .unknown
  | _ => .compute

structure MtBoundaryInfo where
  hasStateUpdate : Bool
  hasMemoryWrite : Bool
  hasMemoryRead : Bool
  hasReset : Bool
  hasAsyncReset : Bool
  hasActivateAllPath : Bool
  hasExternal : Bool
  hasSpecial : Bool
  hasUnknownNode : Bool
  hasUnknownOp : Bool
  hasArrayOrDynamicIndex : Bool

inductive TaskKind where
  | pureCompute
  | serial
deriving DecidableEq, Repr

structure MtTaskInfo where
  boundary : MtBoundaryInfo
  taskKind : TaskKind
  serialReasons : List String
  candidateCost : ℤ
  hasCandidateCost : Bool

def superTypeName : SuperType → String
  | .valid => "SUPER_VALID"
  | .extmod => "SUPER_EXTMOD"
  | .asyncReset => "SUPER_ASYNC_RESET"
  | .uintReset => "SUPER_UINT_RESET"
  | .updateReg => "SUPER_UPDATE_REG"

namespace EmitGraph

variable {V Out : Type} (G : EmitGraph V Out)

def nodeHasStateUpdate (n : Node) : Bool :=
  n.type = .regDst || n.type = .regReset ||
    (n.type = .regSrc && n.regNext.any fun next => (G.node next).status = .valid)

/-- The expression nodes of a member's assignments and reset. -/
def visitedOf (n : Node) : List (Option ℕ × OPType) :=
  (n.assignTree ++ n.resetTree.toList).flatMap fun tree => tree.root.visited ++ tree.lval.visited

/-- The kind of an expression node that is no reference. -/
def opKind (e : Option ℕ × OPType) : Option OpKind := if e.1.isSome then none else some e.2.kind

def collectMtBoundaryInfo (super : SuperNode V Out) : MtBoundaryInfo × ℤ :=
  let members := super.member.map G.node
  let enodes := members.flatMap visitedOf
  let has (kind : OpKind) : Bool := enodes.any fun e => opKind e = some kind
  let hasAsyncReset := super.superType = .asyncReset ||
    members.any (fun n => n.isAsyncReset || n.reset = .asyreset) ||
    super.resetNode.any fun r => (G.node r).isAsyncReset || (G.node r).reset = .asyreset
  ({ hasStateUpdate := super.superType = .updateReg || members.any G.nodeHasStateUpdate
     hasMemoryWrite := has .writeMem || members.any fun n => n.type = .writer || n.type = .readwriter
     hasMemoryRead := has .readMem || members.any fun n => n.type = .reader || n.type = .readwriter
     hasReset := super.superType = .asyncReset || super.superType = .uintReset || has .reset ||
       (members.any fun n => n.isReset || n.type = .regReset) || super.resetNode.isSome
     hasAsyncReset := hasAsyncReset
     hasActivateAllPath := hasAsyncReset
     hasExternal := super.superType = .extmod || has .external || members.any Node.isExt
     hasSpecial := has .special || members.any fun n => n.type = .special
     hasUnknownNode := (members.any fun n => n.type = .invalid || n.type = .infer || n.type = .memory) ||
       enodes.any fun e => e.1.any fun r => (G.node r).type = .invalid || (G.node r).type = .infer
     hasUnknownOp := has .unknown
     hasArrayOrDynamicIndex := has .index || members.any Node.isArray ||
       enodes.any fun e => e.1.any fun r => (G.node r).isArray },
   enodes.countP fun e => decide (opKind e ≠ none ∧ opKind e ≠ some .leaf ∧ opKind e ≠ some .unknown))

/-- The reasons that apply, in the order in which they are added. -/
def serialReasons (super : SuperNode V Out) (info : MtBoundaryInfo) : List String :=
  [(decide (super.superType ≠ .valid), "super_type_" ++ superTypeName super.superType),
    (info.hasStateUpdate, "state_update"), (info.hasMemoryWrite, "memory_write"),
    (info.hasMemoryRead, "memory_read_unsupported"), (info.hasReset, "reset"),
    (info.hasAsyncReset, "async_reset"), (info.hasActivateAllPath, "activate_all_path"),
    (info.hasExternal, "external"), (info.hasSpecial, "special"), (info.hasUnknownNode, "unknown_node"),
    (info.hasUnknownOp, "unknown_op"),
    (info.hasArrayOrDynamicIndex, "array_or_dynamic_index")].filterMap fun reason =>
      if reason.1 then some reason.2 else none

def classifyMtTask (super : SuperNode V Out) : MtTaskInfo :=
  let (boundary, candidateCost) := G.collectMtBoundaryInfo super
  let serialReasons := serialReasons super boundary
  if serialReasons.isEmpty then
    { boundary, taskKind := .pureCompute, serialReasons, candidateCost := max 1 candidateCost
      hasCandidateCost := true }
  else { boundary, taskKind := .serial, serialReasons, candidateCost := 0, hasCandidateCost := false }

/-- The map of all tasks. -/
def buildMtTaskInfoMap (cppId : ℕ) : Option MtTaskInfo :=
  if cppId < G.superId then (G.cppId2Super cppId).map G.classifyMtTask else none

/-- A super node that is classified as pure. -/
def Pure (super : SuperNode V Out) : Prop := (G.classifyMtTask super).taskKind = .pureCompute

theorem Pure.serialReasons_eq {super : SuperNode V Out} (h : G.Pure super) :
    serialReasons super (G.collectMtBoundaryInfo super).1 = [] := by
  unfold Pure classifyMtTask at h
  simp only at h
  split at h
  · rename_i hempty
    exact List.isEmpty_iff.mp hempty
  · cases h

/-- None of the reasons applies to a pure task; in particular it can activate all others by no path. -/
theorem Pure.not_asyncReset {super : SuperNode V Out} (h : G.Pure super) {n : ℕ} (hn : n ∈ super.member) :
    (G.node n).isAsyncReset = false := by
  have hnone := h.serialReasons_eq
  have hasync : (G.collectMtBoundaryInfo super).1.hasAsyncReset = false := by
    cases hcase : (G.collectMtBoundaryInfo super).1.hasAsyncReset with
    | false => rfl
    | true =>
      have hreason : "async_reset" ∈ serialReasons super (G.collectMtBoundaryInfo super).1 := by
        apply List.mem_filterMap.mpr
        exact ⟨(true, "async_reset"), by simp [hcase], rfl⟩
      rw [hnone] at hreason
      cases hreason
  simp only [collectMtBoundaryInfo, Bool.or_eq_false_iff, List.any_eq_false, List.mem_map] at hasync
  have hmember := hasync.1.2 (G.node n) ⟨n, hn, rfl⟩
  simp only [Bool.or_eq_true, not_or, Bool.not_eq_true] at hmember
  exact hmember.1

end EmitGraph

/-! ## Edges -/

abbrev TaskMap := ℕ → Option MtTaskInfo

def hasCppId (supers : List ℤ) (cppId : ℕ) : Bool := supers.any (· = cppId)

namespace EmitGraph

variable {V Out : Type} (G : EmitGraph V Out)

def isAlwaysActive (cppId : ℕ) : Bool := (G.cppId2Super cppId).any (·.superType = .extmod)

def alwaysActive : Finset ℕ := (Finset.range G.superId).filter fun cppId => G.isAlwaysActive cppId

/-- Some member of the first activates the second. -/
def activates (super : SuperNode V Out) (cppId : ℕ) : Bool :=
  super.member.any fun n => cppId ∈ (G.node n).nextActiveId

def mtTasksHaveEdge (lhsId rhsId : ℕ) : Bool :=
  match G.cppId2Super lhsId, G.cppId2Super rhsId with
  | some lhs, some rhs =>
    hasCppId lhs.prev rhsId || hasCppId lhs.next rhsId || hasCppId lhs.depPrev rhsId ||
      hasCppId lhs.depNext rhsId || hasCppId rhs.prev lhsId || hasCppId rhs.next lhsId ||
      hasCppId rhs.depPrev lhsId || hasCppId rhs.depNext lhsId ||
      G.activates lhs rhsId || G.activates rhs lhsId
  | _, _ => false

variable (tasks : TaskMap)

def mtTaskCanEnterPureBatch (cppId : ℕ) : Bool :=
  match tasks cppId with
  | none => false
  | some task => task.taskKind = .pureCompute && !G.isAlwaysActive cppId

def mtTaskCanJoinPureBatch (batch : List ℕ) (cppId : ℕ) : Bool :=
  G.mtTaskCanEnterPureBatch tasks cppId && batch.all fun existing => !G.mtTasksHaveEdge existing cppId

/-! ## The planners -/

def mtTaskEstimatedCost (cppId : ℕ) : ℤ :=
  match tasks cppId with
  | none => 1
  | some task => if task.hasCandidateCost ∧ 0 < task.candidateCost then task.candidateCost else 1

def mtBatchEstimatedCost (beginCppId endCppId : ℕ) : ℤ :=
  ((List.range' beginCppId (endCppId - beginCppId)).map (mtTaskEstimatedCost tasks)).sum

/-- No task of the word is always active. -/
def mtActiveWordIsWhole (beginCppId : ℕ) : Bool :=
  (List.range 8).all fun j => !(decide (beginCppId + j < G.superId) && G.isAlwaysActive (beginCppId + j))

structure MtPureBatchPlan where
  batches : List (ℕ × ℕ)
  segmentCount : ℕ

/-- The loop that takes the next task into the batch; the end of the batch. -/
def growBatch (wordEnd : ℕ) (batch : List ℕ) (batchEnd : ℕ) : ℕ :=
  if _h : batchEnd < wordEnd then
    if G.mtTaskCanJoinPureBatch tasks batch batchEnd then
      growBatch wordEnd (batch ++ [batchEnd]) (batchEnd + 1)
    else batchEnd
  else batchEnd
termination_by wordEnd - batchEnd

/-- The end of the word, and of the tasks. -/
def wordLimit (cppId : ℕ) : ℕ := min G.superId ((cppId / 8 + 1) * 8)

/-- `planMtPureBatchesLegacy` from a task on.  `batchEnd / ACTIVE_WIDTH == id` ends at the word. -/
def planLegacyFrom (idx : ℕ) (plan : MtPureBatchPlan) : MtPureBatchPlan :=
  if _h : idx < G.superId then
    if !G.mtActiveWordIsWhole idx || !G.mtTaskCanEnterPureBatch tasks idx then
      planLegacyFrom (idx + 1) plan
    else
      let plan := { plan with segmentCount := plan.segmentCount + 1 }
      let batchEnd := G.growBatch tasks (G.wordLimit idx) [idx] (idx + 1)
      if _h : 1 < batchEnd - idx then
        planLegacyFrom batchEnd { plan with batches := plan.batches ++ [(idx, batchEnd)] }
      else planLegacyFrom (idx + 1) plan
  else plan
termination_by G.superId - idx

def planMtPureBatchesLegacy : MtPureBatchPlan := G.planLegacyFrom tasks 0 ⟨[], 0⟩

/-- One word of `planMtPureBatchesActiveFrequency`. -/
def planWord (threshold : ℤ) (wordEnd idx : ℕ) (plan : MtPureBatchPlan) : MtPureBatchPlan :=
  if _h : idx < wordEnd then
    if !G.mtTaskCanEnterPureBatch tasks idx then planWord threshold wordEnd (idx + 1) plan
    else
      let plan := { plan with segmentCount := plan.segmentCount + 1 }
      let batchEnd := G.growBatch tasks wordEnd [] idx
      let plan := if 1 < batchEnd - idx ∧ threshold ≤ mtBatchEstimatedCost tasks idx batchEnd then
          { plan with batches := plan.batches ++ [(idx, batchEnd)] }
        else plan
      planWord threshold wordEnd (max batchEnd (idx + 1)) plan
  else plan
termination_by wordEnd - idx

def planMtPureBatchesActiveFrequency (threshold : ℤ) : MtPureBatchPlan :=
  (List.range ((G.superId + 7) / 8)).foldl (fun plan word =>
    if G.mtActiveWordIsWhole (word * 8) then
      G.planWord tasks threshold (min G.superId (word * 8 + 8)) (word * 8) plan
    else plan) ⟨[], 0⟩

/-- `MtBatchFormationMode` -/
inductive BatchFormationMode where
  | legacy
  | activeFrequency
  | coarse
deriving DecidableEq, Repr

/-- `threshold` is `MtActiveFrequencyCostThreshold`. -/
def planMtPureBatches (mode : BatchFormationMode) (threshold : ℤ) : MtPureBatchPlan :=
  if mode = .activeFrequency ∨ mode = .coarse then G.planMtPureBatchesActiveFrequency tasks threshold
  else G.planMtPureBatchesLegacy tasks

/-! ## Every batch is one -/

/-- Tasks of one word, no two with an edge. -/
structure IsBatch (batch : ℕ × ℕ) : Prop where
  inside : batch.2 ≤ G.superId
  oneWord : ∀ i, batch.1 ≤ i → i < batch.2 → i / 8 = batch.1 / 8
  enters : ∀ i, batch.1 ≤ i → i < batch.2 → G.mtTaskCanEnterPureBatch tasks i = true
  apart : ∀ i j, batch.1 ≤ i → i < batch.2 → batch.1 ≤ j → j < batch.2 → i ≠ j →
    G.mtTasksHaveEdge i j = false

variable {G tasks}

theorem mtTasksHaveEdge_comm (i j : ℕ) : G.mtTasksHaveEdge i j = G.mtTasksHaveEdge j i := by
  unfold mtTasksHaveEdge
  cases G.cppId2Super i with
  | none => cases G.cppId2Super j <;> rfl
  | some lhs =>
    cases G.cppId2Super j with
    | none => rfl
    | some rhs =>
      rw [Bool.eq_iff_iff]
      simp only [Bool.or_eq_true]
      tauto

/-- A task that joins a batch leaves it one. -/
theorem IsBatch.join {b e : ℕ} (h : G.IsBatch tasks (b, e)) (hbe : b ≤ e) (hinside : e < G.superId)
    (hword : e / 8 = b / 8)
    (hjoin : G.mtTaskCanJoinPureBatch tasks (List.range' b (e - b)) e = true) :
    G.IsBatch tasks (b, e + 1) := by
  obtain ⟨henter, hall⟩ := Bool.and_eq_true_iff.mp hjoin
  have hnew : ∀ i, b ≤ i → i < e → G.mtTasksHaveEdge i e = false := by
    intro i hi hie
    have hmem : i ∈ List.range' b (e - b) := List.mem_range'_1.mpr ⟨hi, by omega⟩
    simpa using List.all_eq_true.mp hall i hmem
  refine ⟨hinside, fun i hi hie => ?_, fun i hi hie => ?_, fun i j hi hie hj hje hij => ?_⟩
  · rcases Nat.lt_succ_iff_lt_or_eq.mp hie with hlt | rfl
    · exact h.oneWord i hi hlt
    · exact hword
  · rcases Nat.lt_succ_iff_lt_or_eq.mp hie with hlt | rfl
    · exact h.enters i hi hlt
    · exact henter
  · rcases Nat.lt_succ_iff_lt_or_eq.mp hie with hlt | rfl
    · rcases Nat.lt_succ_iff_lt_or_eq.mp hje with hlt' | rfl
      · exact h.apart i j hi hlt hj hlt' hij
      · exact hnew i hi hlt
    · rcases Nat.lt_succ_iff_lt_or_eq.mp hje with hlt' | rfl
      · rw [mtTasksHaveEdge_comm]
        exact hnew j hj hlt'
      · exact absurd rfl hij

theorem IsBatch.empty {b : ℕ} (h : b ≤ G.superId) : G.IsBatch tasks (b, b) := by
  constructor
  · exact h
  · intro i hi hib
    exact absurd hib (Nat.not_lt.mpr hi)
  · intro i hi hib
    exact absurd hib (Nat.not_lt.mpr hi)
  · intro i _ hi hib
    exact absurd hib (Nat.not_lt.mpr hi)

/-- A batch that grows within its word. -/
theorem growBatch_isBatch {wordEnd b : ℕ} (hinside : wordEnd ≤ G.superId)
    (hword : ∀ i, b ≤ i → i < wordEnd → i / 8 = b / 8) (e : ℕ) (hbe : b ≤ e)
    (h : G.IsBatch tasks (b, e)) :
    G.IsBatch tasks (b, G.growBatch tasks wordEnd (List.range' b (e - b)) e) := by
  induction hfuel : wordEnd - e generalizing e with
  | zero =>
    rw [growBatch, dif_neg (by omega)]
    exact h
  | succ fuel ih =>
    rw [growBatch, dif_pos (by omega)]
    split
    · rename_i hjoin
      have hlonger : List.range' b (e - b) ++ [e] = List.range' b (e + 1 - b) := by
        rw [Nat.sub_add_comm hbe, List.range'_1_concat, Nat.add_sub_cancel' hbe]
      rw [hlonger]
      apply ih (e + 1) (by omega) _ (by omega)
      exact h.join hbe (by omega) (hword e hbe (by omega)) hjoin
    · exact h

/-- All batches of a plan are batches. -/
def Sound (G : EmitGraph V Out) (tasks : TaskMap) (plan : MtPureBatchPlan) : Prop :=
  ∀ batch ∈ plan.batches, G.IsBatch tasks batch

theorem Sound.push {plan : MtPureBatchPlan} (h : G.Sound tasks plan) {batch : ℕ × ℕ}
    (hbatch : G.IsBatch tasks batch) (segmentCount : ℕ) :
    G.Sound tasks ⟨plan.batches ++ [batch], segmentCount⟩ := by
  intro b hb
  rcases List.mem_append.mp hb with hb | hb
  · exact h b hb
  · rw [List.mem_singleton.mp hb]
    exact hbatch

theorem wordLimit_word {idx i : ℕ} (hi : idx ≤ i) (hlimit : i < G.wordLimit idx) : i / 8 = idx / 8 := by
  have hend : i < (idx / 8 + 1) * 8 := lt_of_lt_of_le hlimit (Nat.min_le_right _ _)
  omega

theorem planLegacyFrom_sound (idx : ℕ) {plan : MtPureBatchPlan} (h : G.Sound tasks plan) :
    G.Sound tasks (G.planLegacyFrom tasks idx plan) := by
  induction hfuel : G.superId - idx using Nat.strong_induction_on generalizing idx plan with
  | _ fuel ih =>
    rw [planLegacyFrom]
    split
    · rename_i hidx
      split
      · exact ih _ (by omega) (idx + 1) h rfl
      · rename_i henters
        simp only
        split
        · apply ih _ (by omega) _ _ rfl
          apply h.push
          have henter : G.mtTaskCanEnterPureBatch tasks idx = true := by
            simp only [Bool.or_eq_true, Bool.not_eq_true', not_or, Bool.not_eq_false] at henters
            exact henters.2
          have hone : G.IsBatch tasks (idx, idx + 1) := by
            apply (IsBatch.empty hidx.le).join le_rfl hidx rfl
            simpa [mtTaskCanJoinPureBatch] using henter
          have hgrown := growBatch_isBatch (Nat.min_le_left _ _) (fun i => wordLimit_word) (idx + 1)
            (Nat.le_succ idx) hone
          rw [Nat.add_sub_cancel_left] at hgrown
          exact hgrown
        · exact ih _ (by omega) (idx + 1) h rfl
    · exact h

theorem planWord_sound {threshold : ℤ} {wordEnd word : ℕ} (hinside : wordEnd ≤ G.superId)
    (hword : wordEnd ≤ word * 8 + 8) (idx : ℕ) (hidx : word * 8 ≤ idx) {plan : MtPureBatchPlan}
    (h : G.Sound tasks plan) : G.Sound tasks (G.planWord tasks threshold wordEnd idx plan) := by
  induction hfuel : wordEnd - idx using Nat.strong_induction_on generalizing idx plan with
  | _ fuel ih =>
    rw [planWord]
    split
    · rename_i hlt
      split
      · exact ih _ (by omega) (idx + 1) (by omega) h rfl
      · simp only
        apply ih _ (by omega) _ (by omega) _ rfl
        split
        · apply h.push
          have hempty : G.IsBatch tasks (idx, idx) := IsBatch.empty (by omega)
          have hgrown := growBatch_isBatch (b := idx) hinside (fun i hi hi' => by omega) idx le_rfl hempty
          rw [Nat.sub_self] at hgrown
          exact hgrown
        · exact h
    · exact h

theorem planMtPureBatchesActiveFrequency_sound (threshold : ℤ) :
    G.Sound tasks (G.planMtPureBatchesActiveFrequency tasks threshold) := by
  have hwords : ∀ (words : List ℕ) (plan : MtPureBatchPlan), G.Sound tasks plan →
      G.Sound tasks (words.foldl (fun plan word =>
        if G.mtActiveWordIsWhole (word * 8) then
          G.planWord tasks threshold (min G.superId (word * 8 + 8)) (word * 8) plan
        else plan) plan) := by
    intro words
    induction words with
    | nil => exact fun _ h => h
    | cons word words ih =>
      intro plan h
      rw [List.foldl_cons]
      apply ih
      split
      · exact planWord_sound (Nat.min_le_left _ _) (Nat.min_le_right _ _) _ le_rfl h
      · exact h
  exact hwords _ _ fun batch hbatch => absurd hbatch List.not_mem_nil

/-- Both modes make batches, whatever the tasks are said to be. -/
theorem planMtPureBatches_isBatch (mode : BatchFormationMode) (threshold : ℤ) :
    G.Sound tasks (G.planMtPureBatches tasks mode threshold) := by
  unfold planMtPureBatches
  split
  · exact planMtPureBatchesActiveFrequency_sound threshold
  · exact planLegacyFrom_sound 0 fun batch hbatch => absurd hbatch List.not_mem_nil

end EmitGraph

end Gsim.PureBatches
