/-
  Gsim/ConstantMemory.lean
  ========================
  **Which memories are constants** (`graph::constantMemory` in
  `constantNode.cpp`).

  A memory whose write ports are all recorded as writing one value is replaced by
  that value, ports and all, and the readers' users are computed again; this goes
  on in rounds until a round leaves nothing to compute again.  The candidate value
  `val` is one variable for the whole run: each memory starts from what the ones
  before it left there, and a memory with no write port never overwrites it.

  `none` is a failed `Assert`, a `TODO()` or the null record of a node that
  `consMap` does not have.  `recomputeAllNodes` is a parameter: what it does to the
  records between two rounds matters to none of the results, so they hold for any.
  It receives the nodes waiting as a set, since `computeOrder` and not the moment
  of insertion decides who comes out first.
-/
import Gsim.ConstantRecords
import Mathlib.Data.Finset.Basic
import Mathlib.Data.List.Perm.Basic

namespace Gsim.ConstantMemory

open Gsim.ConstantRecords

/-! ## The ports of a memory -/

structure Port (ν : Type) where
  id : ν
  type : NodeType
  width : Nat
  sign : Bool
  next : List ν
deriving DecidableEq, Repr

structure Memory (ν : Type) where
  id : ν
  width : Nat
  sign : Bool
  member : List (Port ν)
deriving DecidableEq, Repr

/-- What the judgement of a memory reads of one of its ports. -/
structure PortRecord where
  type : NodeType
  /-- `status == CONSTANT_NODE` -/
  constant : Bool
  info : Option Record
deriving DecidableEq, Repr

def PortRecord.writePort (r : PortRecord) : Bool :=
  r.type == .NODE_WRITER || r.type == .NODE_READWRITER

/-- The variables of the loop over `mem->member`. -/
structure Scan where
  isConstant : Bool
  isFirst : Bool
  val : Int
deriving DecidableEq, Repr

structure Store (ν : Type) where
  consMap : ν → Option Record
  constant : ν → Bool
  recomputeQueue : Finset ν

variable {ν : Type} [DecidableEq ν]

namespace Store

end Store

omit [DecidableEq ν] in
/-- The records of the memory's own ports. -/
def Memory.own (mem : Memory ν) (st : Store ν) : List PortRecord :=
  mem.member.map fun port => ⟨port.type, st.constant port.id, st.consMap port.id⟩

/-! ## Rounds -/

/-- One judgement: what the memory's own ports said, and the value it was replaced by. -/
structure Decision (ν : Type) where
  mem : ν
  own : List PortRecord
  verdict : Option Int
deriving DecidableEq, Repr

/-- `decisions` is kept for the statements below; the code only counts them in `num`. -/
structure State (ν : Type) where
  store : Store ν
  val : Int
  num : Nat
  decisions : List (Decision ν)

omit [DecidableEq ν] in
/-- `mpz_init(val)` leaves zero. -/
def State.start (st : Store ν) : State ν := ⟨st, 0, 0, []⟩

/-- What the loop decides: the value that replaces the memory, if any. -/
def Scan.verdict (scan : Scan) : Option Int := if scan.isConstant then some scan.val else none

omit [DecidableEq ν] in
/-- The nodes a replacement turns into constants. -/
def Memory.ids (mem : Memory ν) : List ν := mem.member.map Port.id ++ [mem.id]

omit [DecidableEq ν] in
def Memory.writes (mem : Memory ν) (v : Int) : List (ν × Record) :=
  mem.member.map (fun port => (port.id, (Record.new port.width port.sign).setConstant v)) ++
    [(mem.id, (Record.new mem.width mem.sign).setConstant v)]

/-- The users of the readers. -/
def Memory.users (mem : Memory ν) : Finset ν :=
  ((mem.member.filter fun port => port.type = .NODE_READER).flatMap Port.next).toFinset

def applyWrites (writes : List (ν × Record)) (consMap : ν → Option Record) : ν → Option Record :=
  writes.foldl (fun f w => Function.update f w.1 (some w.2)) consMap

/-- The store after the memory was replaced by `v`. -/
def Store.replaced (st : Store ν) (mem : Memory ν) (v : Int) : Store ν where
  consMap := applyWrites (mem.writes v) st.consMap
  constant n := st.constant n || decide (n ∈ mem.ids)
  recomputeQueue := st.recomputeQueue ∪ mem.users

end Gsim.ConstantMemory
