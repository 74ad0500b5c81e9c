/-
  Gsim/ConstantNode.lean
  ======================
  **Constant propagation through one expression** (`constantNode.cpp`,
  `valInfo.h`, `inferWidth.cpp`).

  `ENode::computeConstant` folds an expression bottom up.  A node sees a child
  through two records that need not agree: the `ENode` itself, whose width and
  sign come from `inferWidth`, and the `valInfo` that `consEMap` holds for it.
  `consPad` on an unsigned child and `consMux` hand the child's `valInfo` on
  unchanged, so its width can be smaller than the node's (`Child`).

  `none` is a failed `Assert` or a `TODO()`.  The printed constant (`valStr`),
  `assignmentCons`, `sameConstant` and the array members are read by no `cons*`
  function below and are left out.  `values[0]` of `head` and `tail` is what
  `updateHeadTail` leaves there, the child's width minus the FIRRTL argument.
-/
import Gsim.OpFuncs

namespace Gsim.ConstantNode

open Gsim.OpFuncs

/-! ## Values -/

inductive ValStatus where
  | VAL_EMPTY
  | VAL_VALID
  | VAL_CONSTANT
  | VAL_FINISH
  | VAL_INVALID
  | VAL_EXT
deriving DecidableEq, Repr

structure ValInfo where
  status : ValStatus
  consVal : Int
  width : Nat
  sign : Bool
deriving DecidableEq, Repr

namespace ValInfo

/-- The constructor `valInfo(width, sign)`. -/
def new (width : Nat) (sign : Bool) : ValInfo := ⟨.VAL_VALID, 0, width, sign⟩

def updateConsVal (info : ValInfo) : ValInfo :=
  let masked := Int.land info.consVal (allOnes info.width)
  { info with
    consVal := if info.sign then s_asSInt masked info.width else masked
    status := .VAL_CONSTANT }

/-- Write `consVal`, then `updateConsVal`. -/
def set (info : ValInfo) (v : Int) : ValInfo := updateConsVal { info with consVal := v }

def isConstant (info : ValInfo) : Bool := info.status = .VAL_CONSTANT

end ValInfo

/-- A child as its parent sees it: `getChild(i)` with `consEMap[getChild(i)]`. -/
structure Child where
  width : Nat
  sign : Bool
  cons : ValInfo
deriving DecidableEq, Repr

namespace Child

def type (c : Child) : Nat × Bool := (c.width, c.sign)

def isConstant (c : Child) : Bool := c.cons.isConstant

def consVal (c : Child) : Int := c.cons.consVal

def consWidth (c : Child) : Nat := c.cons.width

end Child

/-- `if (sign) TODO();` before an operation. -/
def todoIf (sign : Bool) (v : Int) : Option Int := if sign then none else some v

def mpzOutOfBound (val : Int) (width : Nat) : Bool := allOnes width < val

/-! ## The `cons*` functions -/

/-- The common body over two children: fold when both are constant, else keep `other`. -/
def consBoth (ret : ValInfo) (c0 c1 : Child) (folded : Option Int) (other : ValInfo) :
    Option ValInfo :=
  if c0.isConstant && c1.isConstant then folded.map ret.set else some other

/-- The common body over one child. -/
def consOne (ret : ValInfo) (c0 : Child) (folded : Option Int) (other : ValInfo) : Option ValInfo :=
  if c0.isConstant then folded.map ret.set else some other

section Expr2

variable (width : Nat) (sign : Bool) (c0 c1 : Child)

/-- `consBoth` without a second chance: `op` reads values and `valInfo` widths. -/
def consExpr2 (op : Int → Nat → Int → Nat → Option Int) : Option ValInfo :=
  consBoth (.new width sign) c0 c1 (op c0.consVal c0.consWidth c1.consVal c1.consWidth)
    (.new width sign)

def consAdd := consExpr2 width sign c0 c1 fun v0 w0 v1 w1 => some (us_add v0 w0 v1 w1)

def consSub := consExpr2 width sign c0 c1 fun v0 _ v1 _ => some (us_sub v0 v1 width)

def consMul := consExpr2 width sign c0 c1 fun v0 w0 v1 w1 => some (us_mul v0 w0 v1 w1)

def consDIv := consExpr2 width sign c0 c1 fun v0 w0 v1 w1 => some (us_div 0 v0 w0 v1 w1)

def consRem := consExpr2 width sign c0 c1 fun v0 w0 v1 w1 => some (us_rem 0 v0 w0 v1 w1)

/-- Nothing unsigned is below zero, constant or not. -/
def consLt : Option ValInfo :=
  let ret := ValInfo.new width sign
  consBoth ret c0 c1 (some (us_lt c0.consVal c0.consWidth c1.consVal c1.consWidth))
    (if !c0.sign && (c1.isConstant && c1.consVal == 0) then ret.set 0 else ret)

def consLeq := consExpr2 width sign c0 c1 fun v0 w0 v1 w1 => some (us_leq v0 w0 v1 w1)

def consGt := consExpr2 width sign c0 c1 fun v0 w0 v1 w1 => some (us_gt v0 w0 v1 w1)

def consGeq := consExpr2 width sign c0 c1 fun v0 w0 v1 w1 => some (us_geq v0 w0 v1 w1)

/-- A constant above the other side's range is not equal to it. -/
def consEq : Option ValInfo :=
  let ret := ValInfo.new width sign
  consBoth ret c0 c1 (some (us_eq c0.consVal c0.consWidth c1.consVal c1.consWidth))
    (if c0.isConstant && mpzOutOfBound c0.consVal c1.width ||
        c1.isConstant && mpzOutOfBound c1.consVal c0.width then ret.set 0
      else ret)

def consNeq := consExpr2 width sign c0 c1 fun v0 w0 v1 w1 => some (us_neq v0 w0 v1 w1)

def consDshl := consExpr2 width sign c0 c1 fun v0 w0 v1 w1 => todoIf sign (u_dshl v0 w0 v1 w1)

def consDshr := consExpr2 width sign c0 c1 fun v0 w0 v1 w1 =>
  some ((if sign then s_dshr else u_dshr) v0 w0 v1 w1)

def consAnd : Option ValInfo :=
  let ret := ValInfo.new width sign
  consBoth ret c0 c1 (todoIf sign (u_and c0.consVal c0.consWidth c1.consVal c1.consWidth))
    (if c0.isConstant && c0.consVal == 0 || c1.isConstant && c1.consVal == 0 then ret.set 0
      else ret)

def consOr : Option ValInfo :=
  let ret := ValInfo.new width sign
  let mask := allOnes width
  consBoth ret c0 c1 (todoIf sign (u_ior c0.consVal c0.consWidth c1.consVal c1.consWidth))
    (if c0.isConstant && c0.consVal == mask || c1.isConstant && c1.consVal == mask then ret.set mask
      else ret)

def consXor := consExpr2 width sign c0 c1 fun v0 w0 v1 w1 => todoIf sign (u_xor v0 w0 v1 w1)

def consCat := consExpr2 width sign c0 c1 fun v0 w0 v1 w1 =>
  (todoIf sign 0).bind fun _ => u_cat v0 w0 v1 w1

end Expr2

section Expr1

variable (width : Nat) (sign : Bool) (c0 : Child)

def consExpr1 (op : Int → Nat → Option Int) : Option ValInfo :=
  consOne (.new width sign) c0 (op c0.consVal c0.consWidth) (.new width sign)

def consAsUInt := consExpr1 width sign c0 fun v w => todoIf sign (u_asUInt v w)

def consAsSInt := consExpr1 width sign c0 fun v w => todoIf (!sign) (s_asSInt v w)

def consAsClock := consExpr1 width sign c0 fun v w => todoIf sign (u_asClock v w)

def consAsAsyncReset := consExpr1 width sign c0 fun v w => todoIf sign (u_asAsyncReset v w)

def consCvt := consExpr1 width sign c0 fun v w => some ((if sign then s_cvt else u_cvt) v w)

def consNeg := consExpr1 width sign c0 fun v w => todoIf (!sign) (s_neg v w)

def consNot := consExpr1 width sign c0 fun v w => todoIf sign (u_not v w)

def consAndr := consExpr1 width sign c0 fun v w => todoIf sign (u_andr v w)

def consOrr := consExpr1 width sign c0 fun v w => todoIf sign (u_orr v w)

def consXorr := consExpr1 width sign c0 fun v w => todoIf sign (u_xorr v w)

end Expr1

section Expr1Int

variable (width : Nat) (sign : Bool) (c0 : Child)

/-- An unsigned child's `valInfo` is handed on, whatever its width. -/
def consPad (values0 : Nat) : Option ValInfo :=
  if !sign || decide (width ≤ c0.consWidth) then some c0.cons
  else consExpr1 width sign c0 fun v w => some ((if sign then s_pad else u_pad) v w values0)

def consShl (values0 : Nat) := consExpr1 width sign c0 fun v w => todoIf sign (u_shl v w values0)

def consShr (values0 : Nat) := consExpr1 width sign c0 fun v w =>
  some ((if sign then s_shr 0 else u_shr) v w values0)

/-- Truncates the `values[0]` least significant bits. -/
def consHead (values0 : Int) : Option ValInfo :=
  if 0 ≤ values0 then
    consExpr1 width sign c0 fun v w => todoIf sign (u_head v w values0.toNat)
  else none

/-- Keeps the `min width values[0]` least significant bits. -/
def consTail (values0 : Int) : Option ValInfo :=
  consExpr1 width sign c0 fun v w => todoIf sign (u_tail v w (min (width : Int) values0).toNat)

def consBits (hi lo : Nat) : Option ValInfo :=
  let ret := ValInfo.new width sign
  consOne ret c0 (some (u_bits c0.consVal c0.consWidth hi lo))
    (if decide (c0.width ≤ lo) || decide (c0.consWidth ≤ lo) then ret.set 0 else ret)

def consBitsNoShift (hi lo : Nat) : Option ValInfo :=
  let ret := ValInfo.new width sign
  consOne ret c0 (some (u_bits_noshift c0.consVal c0.consWidth hi lo))
    (if decide (c0.width ≤ lo) || decide (c0.consWidth ≤ lo) then ret.set 0 else ret)

end Expr1Int

def consMux (width : Nat) (sign : Bool) (c0 c1 c2 : Child) : Option ValInfo :=
  if c0.isConstant then
    if c0.consVal = 0 then some c2.cons else some c1.cons
  else if c1.isConstant && (c2.isConstant && c1.consVal == c2.consVal) then some c1.cons
  else some (.new width sign)

/-- A literal; a leading minus makes it signed. -/
def consInt (width : Nat) (sign : Bool) (value : Int) : ValInfo :=
  (ValInfo.new width (sign || decide (value < 0))).set value

/-! ## Operators -/

inductive OpExpr1 where
  | OP_ASUINT | OP_ASSINT | OP_ASCLOCK | OP_ASASYNCRESET | OP_CVT | OP_NEG | OP_NOT
  | OP_ANDR | OP_ORR | OP_XORR
deriving DecidableEq, Repr

inductive OpExpr1Int1 where
  | OP_PAD | OP_SHL | OP_SHR | OP_HEAD | OP_TAIL
deriving DecidableEq, Repr

inductive OpExpr1Int2 where
  | OP_BITS | OP_BITS_NOSHIFT
deriving DecidableEq, Repr

inductive OpExpr2 where
  | OP_ADD | OP_SUB | OP_MUL | OP_DIV | OP_REM | OP_LT | OP_LEQ | OP_GT | OP_GEQ | OP_EQ | OP_NEQ
  | OP_DSHL | OP_DSHR | OP_AND | OP_OR | OP_XOR | OP_CAT
deriving DecidableEq, Repr

/-- The width and sign that `inferWidth` gives a node; `none` is a failed `Assert` on its
    children's signs. -/
def OpExpr2.inferWidth (op : OpExpr2) (w0 : Nat) (s0 : Bool) (w1 : Nat) (s1 : Bool) :
    Option (Nat × Bool) :=
  match op with
  | OP_ADD | OP_SUB => if s0 = s1 then some (max w0 w1 + 1, s0) else none
  | OP_MUL => if s0 = s1 then some (w0 + w1, s0) else none
  | OP_CAT => if s0 = s1 then some (w0 + w1, false) else none
  | OP_DIV => if s0 = s1 then some (w0 + s0.toNat, s0) else none
  | OP_REM => if s0 = s1 then some (min w0 w1, s0) else none
  | OP_LT | OP_LEQ | OP_GT | OP_GEQ | OP_EQ | OP_NEQ => if s0 = s1 then some (1, false) else none
  | OP_DSHL => if s1 = false then some (w0 + 2 ^ w1 - 1, s0) else none
  | OP_DSHR => some (w0, s0)
  | OP_AND | OP_OR | OP_XOR => if s0 = s1 then some (max w0 w1, false) else none

def OpExpr1.inferWidth (op : OpExpr1) (w0 : Nat) (s0 : Bool) : Nat × Bool :=
  match op with
  | OP_ASUINT => (w0, false)
  | OP_ASSINT => (w0, true)
  | OP_ASCLOCK | OP_ASASYNCRESET => (1, false)
  | OP_CVT => (w0 + (!s0).toNat, true)
  | OP_NEG => (w0 + 1, true)
  | OP_NOT => (w0, false)
  | OP_ANDR | OP_ORR | OP_XORR => (1, false)

def OpExpr1Int1.inferWidth (op : OpExpr1Int1) (w0 : Nat) (s0 : Bool) (n : Nat) : Nat × Bool :=
  match op with
  | OP_PAD => (max w0 n, s0)
  | OP_SHL => (w0 + n, s0)
  | OP_SHR => (w0 - n, s0)
  | OP_HEAD => (n, false)
  | OP_TAIL => if w0 < n then (0, false) else (w0 - n, false)

def OpExpr1Int2.inferWidth (op : OpExpr1Int2) (hi lo : Nat) : Nat × Bool :=
  match op with
  | OP_BITS => (hi - lo + 1, false)
  | OP_BITS_NOSHIFT => (hi + 1, false)

/-- The `switch` of `computeConstant`. -/
def OpExpr2.cons (op : OpExpr2) (width : Nat) (sign : Bool) (c0 c1 : Child) : Option ValInfo :=
  match op with
  | OP_ADD => consAdd width sign c0 c1
  | OP_SUB => consSub width sign c0 c1
  | OP_MUL => consMul width sign c0 c1
  | OP_DIV => consDIv width sign c0 c1
  | OP_REM => consRem width sign c0 c1
  | OP_LT => consLt width sign c0 c1
  | OP_LEQ => consLeq width sign c0 c1
  | OP_GT => consGt width sign c0 c1
  | OP_GEQ => consGeq width sign c0 c1
  | OP_EQ => consEq width sign c0 c1
  | OP_NEQ => consNeq width sign c0 c1
  | OP_DSHL => consDshl width sign c0 c1
  | OP_DSHR => consDshr width sign c0 c1
  | OP_AND => consAnd width sign c0 c1
  | OP_OR => consOr width sign c0 c1
  | OP_XOR => consXor width sign c0 c1
  | OP_CAT => consCat width sign c0 c1

def OpExpr1.cons (op : OpExpr1) (width : Nat) (sign : Bool) (c0 : Child) : Option ValInfo :=
  match op with
  | OP_ASUINT => consAsUInt width sign c0
  | OP_ASSINT => consAsSInt width sign c0
  | OP_ASCLOCK => consAsClock width sign c0
  | OP_ASASYNCRESET => consAsAsyncReset width sign c0
  | OP_CVT => consCvt width sign c0
  | OP_NEG => consNeg width sign c0
  | OP_NOT => consNot width sign c0
  | OP_ANDR => consAndr width sign c0
  | OP_ORR => consOrr width sign c0
  | OP_XORR => consXorr width sign c0

/-- `updateHeadTail` has replaced the argument `n` of `head` and `tail` by `w0 - n`. -/
def OpExpr1Int1.cons (op : OpExpr1Int1) (width : Nat) (sign : Bool) (c0 : Child) (n : Nat) :
    Option ValInfo :=
  match op with
  | OP_PAD => consPad width sign c0 n
  | OP_SHL => consShl width sign c0 n
  | OP_SHR => consShr width sign c0 n
  | OP_HEAD => consHead width sign c0 (c0.width - n)
  | OP_TAIL => consTail width sign c0 (c0.width - n)

def OpExpr1Int2.cons (op : OpExpr1Int2) (width : Nat) (sign : Bool) (c0 : Child) (hi lo : Nat) :
    Option ValInfo :=
  match op with
  | OP_BITS => consBits width sign c0 hi lo
  | OP_BITS_NOSHIFT => consBitsNoShift width sign c0 hi lo

/-! ## Applications -/

/-- An operator with its children and the integers of `values`.  The children are of any
    type: records of `consEMap`, operands with their meaning, or whole subtrees. -/
inductive Application (α : Type) where
  | expr1 (op : OpExpr1) (c0 : α)
  | expr1Int1 (op : OpExpr1Int1) (c0 : α) (n : Nat)
  | expr1Int2 (op : OpExpr1Int2) (c0 : α) (hi lo : Nat)
  | expr2 (op : OpExpr2) (c0 c1 : α)
  | mux (c0 c1 c2 : α)
deriving Repr

namespace Application

def children {α : Type} : Application α → List α
  | expr1 _ c0 | expr1Int1 _ c0 _ | expr1Int2 _ c0 _ _ => [c0]
  | expr2 _ c0 c1 => [c0, c1]
  | mux c0 c1 c2 => [c0, c1, c2]

def map {α β : Type} (f : α → β) : Application α → Application β
  | expr1 op c0 => expr1 op (f c0)
  | expr1Int1 op c0 n => expr1Int1 op (f c0) n
  | expr1Int2 op c0 hi lo => expr1Int2 op (f c0) hi lo
  | expr2 op c0 c1 => expr2 op (f c0) (f c1)
  | mux c0 c1 c2 => mux (f c0) (f c1) (f c2)

/-- `inferWidth` of the node, from the widths and signs of its children. -/
def inferWidth : Application (Nat × Bool) → Option (Nat × Bool)
  | expr1 op (w0, s0) => some (op.inferWidth w0 s0)
  | expr1Int1 op (w0, s0) n => some (op.inferWidth w0 s0 n)
  | expr1Int2 op _ hi lo => some (op.inferWidth hi lo)
  | expr2 op (w0, s0) (w1, s1) => op.inferWidth w0 s0 w1 s1
  | mux _ (w1, s1) (w2, _) => some (max w1 w2, s1)

def cons (width : Nat) (sign : Bool) : Application Child → Option ValInfo
  | expr1 op c0 => op.cons width sign c0
  | expr1Int1 op c0 n => op.cons width sign c0 n
  | expr1Int2 op c0 hi lo => op.cons width sign c0 hi lo
  | expr2 op c0 c1 => op.cons width sign c0 c1
  | mux c0 c1 c2 => consMux width sign c0 c1 c2

/-- `computeConstant` at a node whose children are in `consEMap`: a node of width zero is
    the constant zero, whatever its operator. -/
def computeConstant (width : Nat) (sign : Bool) (a : Application Child) : Option ValInfo :=
  if width = 0 then some ((ValInfo.new width sign).set 0) else a.cons width sign

end Application

/-! ## Trees -/

/-- An expression tree over nodes `ν` of the graph. -/
inductive ENode (ν : Type) where
  | node (nodePtr : ν)
  | int (width : Nat) (sign : Bool) (value : Int)
  | expr1 (op : OpExpr1) (c0 : ENode ν)
  | expr1Int1 (op : OpExpr1Int1) (c0 : ENode ν) (n : Nat)
  | expr1Int2 (op : OpExpr1Int2) (c0 : ENode ν) (hi lo : Nat)
  | expr2 (op : OpExpr2) (c0 c1 : ENode ν)
  | mux (c0 c1 c2 : ENode ν)
deriving Repr

/-- A node's record once its children have theirs. -/
def Application.compute (a : Application Child) : Option Child := do
  let (width, sign) ← (a.map Child.type).inferWidth
  let cons ← a.computeConstant width sign
  some ⟨width, sign, cons⟩

/-- `inferWidth` and `computeConstant` over a whole tree.  `consMap` holds the width, sign
    and value of the nodes; a reference gets a copy at the node's own width. -/
def ENode.compute {ν : Type} (consMap : ν → Child) : ENode ν → Option Child
  | .node nodePtr =>
    let c := consMap nodePtr
    some { c with cons := { c.cons with width := c.width } }
  | .int width sign value =>
    if width = 0 then some ⟨width, sign, (ValInfo.new width sign).set 0⟩
    else some ⟨width, sign || decide (value < 0), consInt width sign value⟩
  | .expr1 op e0 => do
    (Application.expr1 op (← e0.compute consMap)).compute
  | .expr1Int1 op e0 n => do
    (Application.expr1Int1 op (← e0.compute consMap) n).compute
  | .expr1Int2 op e0 hi lo => do
    (Application.expr1Int2 op (← e0.compute consMap) hi lo).compute
  | .expr2 op e0 e1 => do
    (Application.expr2 op (← e0.compute consMap) (← e1.compute consMap)).compute
  | .mux e0 e1 e2 => do
    (Application.mux (← e0.compute consMap) (← e1.compute consMap) (← e2.compute consMap)).compute

end Gsim.ConstantNode
