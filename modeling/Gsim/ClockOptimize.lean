/-
  Gsim/ClockOptimize.lean
  =======================
  **Clock analysis** (`src/clockOptimize.cpp`).

  Every clock node gets a `clockVal`: the source clock it comes from, a gating
  expression, or a mark that it is constant or invalid.  The values are heap
  objects; `clockMap` records a pointer for each node, references return the
  recorded pointer, and `OP_AND` and `OP_MUX`/`OP_WHEN` write through the pointer
  that their last operand returned.  The heap is explicit here, and `stores` keeps
  every such write together with what `clockMap` held when it happened.

  Left out: the rewriting of the clock nodes' own trees in the second loop (nothing
  reads them afterwards), and the printed warnings.
-/
import Mathlib.Logic.Function.Basic

namespace Gsim.ClockOptimize

/-! ## 1. Expressions -/

/-- One-bit expression trees.  `cast` is one of `OP_ASUINT`, `OP_ASSINT`, `OP_ASCLOCK` and
    `OP_ASASYNCRESET`, `mux` is `OP_MUX` or `OP_WHEN`, `null` the absent branch of a when, and
    `other` any operator that `clockCompute` refuses. -/
inductive ENode where
  | zeroWidth
  | node (n : Nat)
  | cast (e : ENode)
  | bits (hi lo : Nat) (e : ENode)
  | invalid
  | int (v : Nat)
  | eq (a b : ENode)
  | or (a b : ENode)
  | and (a b : ENode)
  | not (a : ENode)
  | mux (cond a b : ENode)
  | null
  | other (k : Nat)
  deriving DecidableEq, Repr

/-- The values of the signals and of the opaque expressions in one cycle. -/
structure Cycle where
  signal : Nat → Bool
  other : Nat → Bool

def ENode.eval (σ : Cycle) : ENode → Bool
  | .zeroWidth => false
  | .node n => σ.signal n
  | .cast e => e.eval σ
  | .bits hi lo e => hi == 0 && lo == 0 && e.eval σ
  | .invalid => false
  | .int v => v != 0
  | .eq a b => a.eval σ == b.eval σ
  | .or a b => a.eval σ || b.eval σ
  | .and a b => a.eval σ && b.eval σ
  | .not a => !a.eval σ
  | .mux cond a b => if cond.eval σ then a.eval σ else b.eval σ
  | .null => false
  | .other k => σ.other k

/-! ## 2. Values and the heap -/

/-- `class clockVal`. -/
structure ClockVal where
  node : Option Nat := none
  isConstant : Bool := false
  isInvalid : Bool := false
  gateENode : Option ENode := none
  deriving DecidableEq, Repr

def ClockVal.ofNode (n : Nat) : ClockVal := { node := some n }
def ClockVal.constant : ClockVal := { isConstant := true }
def ClockVal.invalid : ClockVal := { isInvalid := true }
def ClockVal.enable (gate : ENode) : ClockVal := { gateENode := some gate }

/-- A write through a pointer: what `clockMap` held, the object, and whether the write changed it. -/
structure Store where
  clockMap : Nat → Option Nat
  addr : Nat
  changes : Bool

/-- The objects below `free` are allocated. -/
structure ClockState where
  heap : Nat → ClockVal
  free : Nat
  clockMap : Nat → Option Nat
  stores : List Store

def ClockState.empty : ClockState where
  heap _ := {}
  free := 0
  clockMap _ := none
  stores := []

/-- `new clockVal(..)`. -/
def ClockState.alloc (s : ClockState) (v : ClockVal) : Nat × ClockState :=
  (s.free, { s with heap := Function.update s.heap s.free v, free := s.free + 1 })

/-- `clockMap[n] = a`. -/
def ClockState.record (s : ClockState) (n a : Nat) : ClockState :=
  { s with clockMap := Function.update s.clockMap n (some a) }

/-- `p->node = node`. -/
def ClockState.setNode (s : ClockState) (a : Nat) (node : Option Nat) : ClockState :=
  { s with
    heap := Function.update s.heap a { s.heap a with node }
    stores := s.stores ++ [⟨s.clockMap, a, (s.heap a).node != node⟩] }

/-- `p->gateENode = gate`.  The expression stored is a new one, or the condition of the
    mux that is being computed: never the one that is there already. -/
def ClockState.setGate (s : ClockState) (a : Nat) (gate : ENode) : ClockState :=
  { s with
    heap := Function.update s.heap a { s.heap a with gateENode := some gate }
    stores := s.stores ++ [⟨s.clockMap, a, true⟩] }

/-! ## 3. The network -/

/-- The node types that the pass tells apart. -/
inductive NodeType where
  | inp
  | regSrc
  | regDst
  | reader
  | writer
  | readwriter
  | ext
  | others
  deriving DecidableEq, Repr

/-- What the pass reads of a `Node`: `assignTree` as the list of roots. -/
structure ClockNode where
  type : NodeType
  isClock : Bool := false
  isArray : Bool := false
  assignTree : List ENode := []
  clock : Option Nat := none

/-- `allSignals` in the order of the names. -/
structure Network where
  nodes : Nat → ClockNode
  allSignals : List Nat

/-- A computation that returns a pointer; `none` is a failed assertion or an endless recursion. -/
def Compute : Type := ClockState → Option (Nat × ClockState)

/-- What a mux accepts as an operand. -/
def Network.muxOperand (N : Network) (v : ClockVal) : Bool :=
  v.isConstant || v.isInvalid || v.node.any fun n => (N.nodes n).type == .inp

/-- The end of `OP_AND`: operands at `a` and `b`. -/
def andClock (a b : Nat) (s : ClockState) : Option (Nat × ClockState) :=
  if (s.heap a).node.isSome ∧ (s.heap b).gateENode.isSome then
    some (b, s.setNode b (s.heap a).node)
  else if (s.heap a).gateENode.isSome ∧ (s.heap b).node.isSome then
    -- `ret->gateENode = ret->gateENode`
    some (b, s)
  else none

/-- `cond` and the gate of the operand it selects. -/
def gateUnder (cond : ENode) (v : ClockVal) : Option ENode :=
  if v.isConstant then none
  else
    match v.gateENode with
    | some gate => some (.and cond gate)
    | none => some cond

/-- The end of `OP_MUX`: operands at `a` and `b`, neither of them invalid. -/
def muxGate (cond : ENode) (a b : Nat) (s : ClockState) : Nat × ClockState :=
  match gateUnder cond (s.heap a), gateUnder (.not cond) (s.heap b) with
  | none, none => s.alloc .constant
  | none, some second => (b, s.setGate b second)
  | some first, none => (b, s.setGate b first)
  | some first, some second => (b, s.setGate b (.or first second))

/-- `ENode::clockCompute`; `node` is `Node::clockCompute`. -/
def ENode.clockCompute (N : Network) (node : Nat → Compute) : ENode → Compute
  | .zeroWidth, s => some (s.alloc .constant)
  | .node n, s =>
    match s.clockMap n with
    | some a => some (a, s)
    | none => node n s
  | .cast e, s => e.clockCompute N node s
  | .bits hi lo e, s => if hi = 0 ∧ lo = 0 then e.clockCompute N node s else none
  | .invalid, s => some (s.alloc .invalid)
  | .int _, s => some (s.alloc .constant)
  | .eq _ _, s => some (s.alloc .constant)
  | .or x y, s => some (s.alloc (.enable (.or x y)))
  | .and x y, s =>
    (x.clockCompute N node s).bind fun (a, s) =>
    (y.clockCompute N node s).bind fun (b, s) =>
      andClock a b s
  | .mux cond x y, s =>
    (x.clockCompute N node s).bind fun (a, s) =>
    if N.muxOperand (s.heap a) then
      (y.clockCompute N node s).bind fun (b, s) =>
      if N.muxOperand (s.heap b) then
        if (s.heap b).isInvalid then some (a, s)
        else if (s.heap a).isInvalid then some (b, s)
        else some (muxGate cond a b s)
      else none
    else none
  | .not _, _ | .null, _ | .other _, _ => none

/-- A node whose value is itself. -/
def ClockNode.isSource (n : ClockNode) : Bool := n.type == .inp || n.type == .regSrc

/-- `Node::clockCompute`, with a bound on the depth of the recursion. -/
def Network.clockCompute (N : Network) : Nat → Nat → Compute
  | 0, _, _ => none
  | fuel + 1, n, s =>
    match s.clockMap n with
    | some a => some (a, s)
    | none =>
      if (N.nodes n).isSource then
        let (a, s) := s.alloc (.ofNode n)
        some (a, s.record n a)
      else
        match (N.nodes n).assignTree with
        | [] =>
          let (a, s) := s.alloc .constant
          some (a, s.record n a)
        | [root] =>
          (root.clockCompute N (N.clockCompute fuel) s).map fun (a, s) => (a, s.record n a)
        | _ => none

/-! ## 4. The pass -/

/-- What the second loop makes of a register or a memory write port. -/
inductive Gating where
  | gated (cond : ENode)
  | always
  | never
  deriving DecidableEq, Repr

def Gating.holds (σ : Cycle) : Gating → Bool
  | .gated cond => cond.eval σ
  | .always => true
  | .never => false

def ClockVal.gating (v : ClockVal) : Gating :=
  match v.gateENode with
  | some gate => .gated gate
  | none => if v.node.isSome then .always else .never

end Gsim.ClockOptimize
