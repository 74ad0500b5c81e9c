/-
  Gsim/ActivityScan.lean
  ======================
  **The activity-driven step** (`updateActivate` of `Node.cpp`, `genActivate` of
  `cppEmitter.cpp`, `genInterfaceInput`, `translateInst` and `activateNext` of
  `cppEmitterEmitCore.cpp`).

  A step goes through the super nodes by their `cppId` and evaluates the flagged ones;
  a node whose value changes flags the super nodes that read it.  The flags are kept in
  words of eight: a word without an always-active super node is copied into `oldFlag` and
  cleared before its super nodes are looked at, and activations of later ones of the same
  word go into the copy.

  Nodes are evaluated as their assignments say; what the operators, the accesses to a
  memory and the external modules compute is left open.  Designs have no resets and no
  read-write ports.
-/
import Gsim.ActiveSinks
import Gsim.ChangeDriven
import Gsim.ExpTree

namespace Gsim.ActivityScan

open ExpTree ActiveMasks FlagBytes ChangeDriven

variable {Op : Type}

/-! ## The graph at emission -/

structure Node (Op : Type) where
  type : NodeType
  isArray : Bool
  next : List ℕ
  assignTree : List (ETree Op)
  /-- `getSrc` of the next value of a register -/
  src : ℕ
  /-- the memory of a port, the external module of one of its outputs -/
  parent : ℕ
  /-- the ports of a memory -/
  member : List ℕ

structure SuperNode where
  /-- `superType == SUPER_EXTMOD` -/
  isExtmod : Bool
  member : List ℕ

/-- The super nodes that have a `cppId`, in this order. -/
structure Emitted (Op : Type) where
  node : ℕ → Node Op
  cppId2Super : List SuperNode

namespace Emitted

variable (G : Emitted Op)

def superId : ℕ := G.cppId2Super.length

/-- `super->member` -/
def members (cppId : ℕ) : List ℕ := (G.cppId2Super[cppId]?.map SuperNode.member).getD []

def isAlwaysActive (cppId : ℕ) : Bool := G.cppId2Super[cppId]?.any SuperNode.isExtmod

def alwaysActive : Finset ℕ := (Finset.range G.superId).filter fun cppId => G.isAlwaysActive cppId

/-- `node->super->cppId`, which is `-1` for a node outside of these super nodes. -/
def cppIdOf (n : ℕ) : Option ℕ := G.cppId2Super.findIdx? fun super => n ∈ super.member

def findIndex (cppId n : ℕ) : ℕ := (G.members cppId).idxOf n

/-- The super node that `updateActivate` inserts for a successor. -/
def activated (n nextNode : ℕ) : Option ℕ :=
  match G.cppIdOf nextNode with
  | none => none
  | some cppId =>
    if G.cppIdOf n = some cppId then
      if G.findIndex cppId nextNode ≤ G.findIndex cppId n then some cppId else none
    else some cppId

/-- `updateActivate` -/
def nextActiveId (n : ℕ) : Finset ℕ :=
  ((G.node n).next.filterMap (G.activated n)).toFinset ∪
    match (G.node n).type with
    | .regDst => (G.cppIdOf (G.node n).src).toFinset
    | .writer =>
      ((G.node (G.node n).parent).member.filterMap fun port =>
        if (G.node port).type = .reader then G.cppIdOf port else none).toFinset
    | _ => ∅

/-- `updateNeedActivate` -/
def nextNeedActivate (n : ℕ) : Finset ℕ := (G.nextActiveId n).filter fun id => id ∉ G.alwaysActive

end Emitted

/-! ## Evaluation -/

/-- What a model keeps between its steps. -/
inductive Place where
  | node (n : ℕ) (index : List ℤ)
  | mem (memory : ℕ) (addr : ℤ) (index : List ℤ)
  | ext (module : ℕ) (index : List ℤ)
deriving DecidableEq

abbrev State := Place → ℤ

/-- What an assignment sees: its root and the indices of its lvalue. -/
abbrev TreeValue := Option ExpTree.Value × List (Option ExpTree.Value)

/-- What the model computes with; trees of a read port see its memory. -/
structure Interp (Op : Type) where
  sem : Option (ℤ → List ℤ → ℤ) → Semantics Op
  /-- what the last assignment to an element gives it, if there is one -/
  assign : ℕ → List TreeValue → List ℤ → Option ℤ
  /-- what a port writes to the entries of its memory -/
  write : ℕ → List TreeValue → ℤ → List ℤ → Option ℤ
  extStep : ℕ → (List ℤ → ℤ) → List TreeValue → List ℤ → ℤ
  extOut : ℕ → (List ℤ → ℤ) → List TreeValue → List ℤ → ℤ

namespace Emitted

variable (G : Emitted Op) (I : Interp Op)

/-- The value of a node, for each index into it. -/
def value (s : State) (n : ℕ) : List ℤ → ℤ := fun index => s (.node n index)

def memory (s : State) (m : ℕ) : ℤ → List ℤ → ℤ := fun addr index => s (.mem m addr index)

def treeValues (mem : Option (ℤ → List ℤ → ℤ)) (n : ℕ) (s : State) : List TreeValue :=
  (G.node n).assignTree.map (ETree.eval (I.sem mem) (value s))

/-- Assignments to a node; one that is not an array has no other index than `[]`. -/
def assigns (n : ℕ) (val : List ℤ → Option ℤ) : Place → Option ℤ
  | .node m index => if m = n ∧ ((G.node n).isArray = true ∨ index = []) then val index else none
  | _ => none

/-- What the execution of one member writes. -/
def act (n : ℕ) (s : State) : Place → Option ℤ :=
  match (G.node n).type with
  | .inp | .special | .memory => fun _ => none
  | .reader =>
    G.assigns n (I.assign n (G.treeValues I (some (memory s (G.node n).parent)) n s))
  | .writer => fun
    | .mem m addr index =>
      if m = (G.node n).parent then I.write n (G.treeValues I none n s) addr index else none
    | _ => none
  | .ext => fun
    | .ext m index =>
      if m = n then some (I.extStep n (fun i => s (.ext n i)) (G.treeValues I none n s) index) else none
    | _ => none
  | .extOut =>
    G.assigns n fun index =>
      some (I.extOut n (fun i => s (.ext (G.node n).parent i)) (G.treeValues I none n s) index)
  | _ => G.assigns n (I.assign n (G.treeValues I none n s))

def runMember (s : State) (n : ℕ) : State := overlay (G.act I n s) s

/-- The members of a super node in order. -/
def runSuper (cppId : ℕ) (s : State) : State := (G.members cppId).foldl (G.runMember I) s

/-- All super nodes in order. -/
def fullStep (s : State) : State := (List.range G.superId).foldl (fun s cppId => G.runSuper I cppId s) s

/-! ## The scan -/

/-- No super node of the word is always active. -/
def prevActiveWhole (cppId : ℕ) : Bool :=
  (List.range 8).all fun j => !G.isAlwaysActive (cppId / 8 * 8 + j)

/-- The values, `oldFlag` and `activeFlags`. -/
structure Scan where
  env : State
  oldFlag : BitVec 8
  activeFlags : ℕ → BitVec 8

def sink : Sink (ℕ → BitVec 8) := directSink (activeFlagNum G.superId)

/-- `activateNext` or `activateUncondNext` at the end of an assignment. -/
def activation (cppId n : ℕ) (old new : State) : Option Activation :=
  if G.nextNeedActivate n = ∅ then none
  else if (G.node n).isArray = true ∨ (G.node n).type = .writer then
    some (.uncond (G.nextActiveId n) cppId)
  else some (.next (G.nextActiveId n) cppId (decide (new (.node n []) ≠ old (.node n []))))

/-- The local mask of an activation. -/
def ownFlag (flags : BitVec 8) : Activation → BitVec 8
  | .next activeId curId cond => ownFlagNext G.alwaysActive activeId curId cond flags
  | .uncond activeId curId => ownFlagUncond G.alwaysActive activeId curId flags
  | .all => 0xff

/-- An activation in the code of a super node, whose word is named `oldFlag` or `activeFlags[id]`. -/
def activate (cppId : ℕ) (st : Scan) : Option Activation → Scan
  | none => st
  | some e =>
    if G.prevActiveWhole cppId then
      { st with
        oldFlag := G.ownFlag st.oldFlag e
        activeFlags := G.sink.activate G.alwaysActive st.activeFlags e }
    else
      { st with
        activeFlags := G.sink.activate G.alwaysActive
          (Function.update st.activeFlags (cppId / 8) (G.ownFlag (st.activeFlags (cppId / 8)) e)) e }

/-- A member and the activation behind it.  A local variable stands in no other super node and is
assigned before it is read, so it is kept with the other nodes. -/
def evalMember (cppId : ℕ) (st : Scan) (n : ℕ) : Scan :=
  let env := G.runMember I st.env n
  G.activate cppId { st with env } (G.activation cppId n st.env env)

/-- `genSuperEval` -/
def evalSuper (cppId : ℕ) (st : Scan) : Scan := (G.members cppId).foldl (G.evalMember I cppId) st

/-- The lines in front of the first super node of a word.  A word without flags is skipped in the
code; here none of its super nodes is evaluated. -/
def openWord (cppId : ℕ) (st : Scan) : Scan :=
  if cppId % 8 = 0 ∧ G.prevActiveWhole cppId = true then
    { st with
      oldFlag := st.activeFlags (cppId / 8)
      activeFlags := Function.update st.activeFlags (cppId / 8) 0 }
  else st

/-- The guard of `genNodeStepStart`. -/
def admits (cppId : ℕ) (st : Scan) : Bool :=
  G.isAlwaysActive cppId ||
    (if G.prevActiveWhole cppId then st.oldFlag else st.activeFlags (cppId / 8)).getLsbD (cppId % 8)

def scanSuper (st : Scan) (cppId : ℕ) : Scan :=
  let st := G.openWord cppId st
  if G.admits cppId st then G.evalSuper I cppId st else st

/-- `step` -/
def step (st : Scan) : Scan := (List.range G.superId).foldl (G.scanSuper I) st

/-- `set_` of an input -/
def setInput (st : Scan) (input : ℕ × ℤ) : Scan :=
  if st.env (.node input.1 []) ≠ input.2 then
    { st with
      env := Function.update st.env (.node input.1 []) input.2
      activeFlags := G.sink.activate G.alwaysActive st.activeFlags
        (.uncond ((G.node input.1).next.filterMap G.cppIdOf).toFinset (-1)) }
  else st

/-- Steps, each with the inputs that are set before it. -/
def scanRun (steps : List (List (ℕ × ℤ))) (st : Scan) : Scan :=
  steps.foldl (fun st inputs => G.step I (inputs.foldl G.setInput st)) st

/-! ## The model that evaluates everything -/

def setAll (inputs : List (ℕ × ℤ)) (s : State) : State :=
  inputs.foldl (fun s input => Function.update s (.node input.1 []) input.2) s

def fullRun (steps : List (List (ℕ × ℤ))) (s : State) : State :=
  steps.foldl (fun s inputs => G.fullStep I (setAll inputs s)) s

end Emitted

/-! ## Designs -/

/-- What the passes before the emission guarantee. -/
structure Design (Op : Type) extends Emitted Op where
  /-- a node is a member of one super node -/
  nodup : (cppId2Super.flatMap SuperNode.member).Nodup
  /-- `updateConnect` -/
  connect : ∀ super ∈ cppId2Super, ∀ n ∈ super.member, (node n).type ≠ .regSrc →
    ∀ tree ∈ (node n).assignTree, ∀ p ∈ tree.refs, n ∈ (node p).next
  /-- `addUpdateTree` -/
  update : ∀ super ∈ cppId2Super, ∀ n ∈ super.member, (node n).type = .regSrc →
    ∀ tree ∈ (node n).assignTree, ∀ p ∈ tree.refs, (node p).type = .regDst ∧ (node p).src = n
  /-- a memory knows its ports -/
  port : ∀ super ∈ cppId2Super, ∀ n ∈ super.member, (node n).type = .reader →
    n ∈ (node (node n).parent).member
  /-- `constructSuperNode` -/
  extmod : ∀ super ∈ cppId2Super, ∀ n ∈ super.member,
    (node n).type = .ext ∨ (node n).type = .extOut → super.isExtmod = true
  noReadwriter : ∀ super ∈ cppId2Super, ∀ n ∈ super.member, (node n).type ≠ .readwriter

end Gsim.ActivityScan
