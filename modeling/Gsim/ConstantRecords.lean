/-
  Gsim/ConstantRecords.lean
  =========================
  **What constant propagation records of a node** (`valInfo.h`, `Node.h`,
  `constantNode.cpp`).

  `ConstantNode` folds one expression and keeps of a `valInfo` what the operators
  read.  The passes over whole nodes read three more fields of it: whether every
  assignment writes one value (`sameConstant`), that value (`assignmentCons`) and
  whether the record comes from a single tree (`directUpdate`).
-/
import Gsim.ConstantNode

namespace Gsim.ConstantRecords

open Gsim.ConstantNode

inductive NodeType where
  | NODE_INVALID
  | NODE_REG_SRC
  | NODE_REG_DST
  | NODE_SPECIAL
  | NODE_INP
  | NODE_OUT
  | NODE_MEMORY
  | NODE_READER
  | NODE_WRITER
  | NODE_READWRITER
  | NODE_INFER
  | NODE_OTHERS
  | NODE_REG_RESET
  | NODE_EXT_IN
  | NODE_EXT_OUT
  | NODE_EXT
deriving DecidableEq, Repr

/-- A `valInfo` as the passes over nodes see it. -/
structure Record extends ValInfo where
  sameConstant : Bool
  assignmentCons : Int
  directUpdate : Bool
deriving DecidableEq, Repr

namespace Record

/-- The constructor `valInfo(width, sign)`. -/
def new (width : Nat) (sign : Bool) : Record :=
  { ValInfo.new width sign with sameConstant := false, assignmentCons := 0, directUpdate := true }

/-- Mask the value, then `setConsStr`: a constant is also what every assignment writes. -/
def updateConsVal (info : Record) : Record :=
  { info.toValInfo.updateConsVal with
    sameConstant := true
    assignmentCons := info.toValInfo.updateConsVal.consVal
    directUpdate := info.directUpdate }

/-- `setConstantByStr`, the number already read from its digits. -/
def setConstant (info : Record) (v : Int) : Record := updateConsVal { info with consVal := v }

@[simp] theorem status_updateConsVal (info : Record) :
    info.updateConsVal.status = .VAL_CONSTANT := rfl

@[simp] theorem sameConstant_updateConsVal (info : Record) :
    info.updateConsVal.sameConstant = true := rfl

@[simp] theorem assignmentCons_updateConsVal (info : Record) :
    info.updateConsVal.assignmentCons = info.updateConsVal.consVal := rfl

end Record

end Gsim.ConstantRecords
