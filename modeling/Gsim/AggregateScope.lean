import Gsim.AggregateType
/-
  Gsim/AggregateScope.lean
  ========================
  **What declarations enter, and what references find** (`visitPort`, `visitWireDef`, `visitRegDef`,
  `visitChirrtlMemory`, `visitChirrtlMemPort`, `visitNode`, `visitReference`).

  A declaration enters its leaves and its bundles by name, and a reference finds them by the
  name that its fields spell.  Ports, wires and registers flatten a type of their own; the port
  of a memory and a node copy what is there already, under names with another front.  A node
  goes through the bundles inside of the one that it copies, and these are kept by a bundle of
  a flattened type, but not by one of a memory's port.
-/

namespace Gsim.AggregateScope

open Gsim.ConstantRecords (NodeType)
open Gsim.AggregateType

/-! ## Names -/

structure Config where
  sep_module : String
  sep_aggr : String
deriving DecidableEq, Repr

/-- The maps of the front end, over the nodes allocated so far. -/
structure Scope where
  heap : Heap
  allSignals : String → Option Nat
  allAggr : String → Option AggrParentNode
  moduleInstances : String → Bool
  memoryMap : String → Option (List Nat × List AggrParentNode)

namespace Scope

/-- `addSignal`: a name may be taken only once. -/
def addSignal (s : String) (n : Nat) (scope : Scope) : Option Scope :=
  if scope.allSignals s = none ∧ scope.allAggr s = none then
    some { scope with allSignals := Function.update scope.allSignals s (some n) }
  else none

def addAggr (s : String) (n : AggrParentNode) (scope : Scope) : Option Scope :=
  if scope.allSignals s = none ∧ scope.allAggr s = none then
    some { scope with allAggr := Function.update scope.allAggr s (some n) }
  else none

def addMember (scope : Scope) (entry : Nat × Bool) : Option Scope := do
  let node ← scope.heap[entry.1]?
  scope.addSignal node.name entry.1

def addParent (scope : Scope) (aggr : AggrParentNode) : Option Scope :=
  scope.addAggr aggr.name aggr

/-- A new node, entered by its name. -/
def enter (node : Node) (scope : Scope) : Option Scope :=
  { scope with heap := scope.heap ++ [node] }.addSignal node.name scope.heap.length

end Scope

/-- `prefixTrace` is empty for the ports of the top module. -/
def prefixName (ch : String) : Option String → String → String
  | none, name => name
  | some top, name => top ++ ch ++ name

def replacePrefix (oldPrefix newPrefix str : String) : Option String :=
  if oldPrefix.toList.isPrefixOf str.toList then
    some (newPrefix ++ String.ofList (str.toList.drop oldPrefix.length))
  else none

/-! ## Expressions -/

section Expressions

variable {E : Type}

/-- An index as `visitExpr` returns it: a literal, or any other expression. -/
inductive VisitedExpr (E : Type) where
  | OP_INT (strVal : Int)
  | other (e : E)

inductive RefChild (E : Type) where
  | P_REF_DOT (name : String)
  | P_REF_IDX_INT (name : Int)
  | P_REF_IDX_EXPR (expr : VisitedExpr E)

structure PRef (E : Type) where
  name : String
  child : List (RefChild E)

/-- The operations other than the multiplexer have no aggregate for an operand or a result. -/
inductive PExpr (E : Type) where
  | P_REF (ref : PRef E)
  | P_EXPR_MUX (cond left right : PExpr E)
  | other (e : E)

inductive IndexNode (E : Type) where
  | OP_INDEX_INT (value : Int)
  | OP_INDEX (e : E)

/-- A node with its index children, a multiplexer, or another expression. -/
inductive ENode (E : Type) where
  | ref (nodePtr : Nat) (child : List (IndexNode E))
  | OP_MUX (cond left right : ENode E)
  | expr (e : E)

inductive ASTExpTree (E : Type) where
  | normal (expRoot : ENode E)
  | aggr (anyParent : AggrParentNode) (aggrForest : List (ENode E × Bool))

def ENode.getDim (heap : Heap) : ENode E → Option (List Int)
  | .ref nodePtr child => heap[nodePtr]?.map fun node => node.dimension.drop child.length
  | .OP_MUX _ left _ => left.getDim heap
  | .expr _ => some []

def ASTExpTree.forest : ASTExpTree E → List (ENode E × Bool)
  | .normal _ => []
  | .aggr _ aggrForest => aggrForest

/-- `getExpRoot()->getNode()`. -/
def ASTExpTree.getNode : ASTExpTree E → Option Nat
  | .normal (.ref nodePtr _) => some nodePtr
  | _ => none

def allocIndex : VisitedExpr E → IndexNode E
  | .OP_INT strVal => .OP_INDEX_INT strVal
  | .other e => .OP_INDEX e

/-- The child that a step of the reference adds; a field adds none. -/
def RefChild.index : RefChild E → Option (IndexNode E)
  | .P_REF_DOT _ => none
  | .P_REF_IDX_INT name => some (.OP_INDEX_INT name)
  | .P_REF_IDX_EXPR expr => some (allocIndex expr)

section Visit

variable (cfg : Config)

/-- The separator behind an instance is that of modules. -/
def RefChild.extendName (moduleInstances : String → Bool) (name : String) : RefChild E → String
  | .P_REF_DOT field => name ++ (if moduleInstances name then cfg.sep_module else cfg.sep_aggr) ++ field
  | _ => name

def visitReference (scope : Scope) (top : Option String) (expr : PRef E) : Option (ASTExpTree E) :=
  let name := expr.child.foldl (RefChild.extendName cfg scope.moduleInstances)
    (prefixName cfg.sep_module top expr.name)
  let child := expr.child.filterMap RefChild.index
  match scope.allAggr name with
  | some parent => some (.aggr parent (parent.member.map fun entry => (.ref entry.1 child, entry.2)))
  | none => (scope.allSignals name).map fun node => .normal (.ref node child)

/-- A tree without a partner on the right is an Assert of `getAggr`. -/
def muxMembers (cond : ENode E) :
    List (ENode E × Bool) → List (ENode E × Bool) → Option (List (ENode E × Bool))
  | [], _ => some []
  | _ :: _, [] => none
  | left :: lefts, right :: rights => do
    let rest ← muxMembers cond lefts rights
    some ((.OP_MUX cond left.1 right.1, false) :: rest)

/-- The forest is `dupEmpty` of the left one: the same parent, and no flags. -/
def visitMux : ASTExpTree E → ASTExpTree E → ASTExpTree E → Option (ASTExpTree E)
  | .normal cond, .normal left, .normal right => some (.normal (.OP_MUX cond left right))
  | .normal cond, .aggr anyParent aggrForest, right =>
    (muxMembers cond aggrForest right.forest).map (.aggr anyParent)
  | _, _, _ => none

def visitExpr (scope : Scope) (top : Option String) : PExpr E → Option (ASTExpTree E)
  | .P_REF ref => visitReference cfg scope top ref
  | .P_EXPR_MUX cond left right => do
    visitMux (← visitExpr scope top cond) (← visitExpr scope top left) (← visitExpr scope top right)
  | .other e => some (.normal (.expr e))

end Visit

end Expressions

/-! ## Declarations -/

inductive MemPort where
  | P_READ
  | P_WRITE
  | P_INFER
  | P_READWRITER
deriving DecidableEq, Repr

/-- What the front end visits before a connection. -/
inductive Decl (E : Type) where
  | port (type : NodeType) (top : Option String) (name : String) (ptype : PType)
  | wire (top : Option String) (name : String) (ptype : PType)
  | reg (top : Option String) (name : String) (ptype : PType) (clock : PExpr E)
    (reset : Option (PExpr E × PExpr E))
  | mem (top : Option String) (name : String) (ptype : PType)
  | memPort (type : MemPort) (top : Option String) (name extra : String) (addr clock : PExpr E)
  | node (top : Option String) (name : String) (expr : PExpr E)
  -- a port of a clock gate, or the node of an external module, a condition or a statement
  | single (type : NodeType) (top : Option String) (name : String) (width : Int) (isClock : Bool)
  | inst (top : Option String) (name : String)

section Declare

variable {E : Type} (cfg : Config)

/-- `visitPort`, and the entries that `visitTopPorts` makes of what it returns. -/
def visitPort (type : NodeType) (top : Option String) (name : String) (ptype : PType) (scope : Scope) :
    Option Scope := do
  let root := prefixName cfg.sep_module top name
  let (info, heap) := visitType cfg.sep_aggr ptype root type scope.heap
  let (info, heap) :=
    if info.isAggr then (info, heap)
    else
      let (node, heap) := allocNode type root info heap
      (info.add node false, heap)
  let scope ← info.aggrMember.foldlM Scope.addMember { scope with heap }
  info.aggrParent.foldlM Scope.addParent scope

def visitWireDef (top : Option String) (name : String) (ptype : PType) (scope : Scope) : Option Scope := do
  let root := prefixName cfg.sep_module top name
  let (info, heap) := visitType cfg.sep_aggr ptype root .NODE_OTHERS scope.heap
  let scope ← info.aggrMember.foldlM Scope.addMember { scope with heap }
  let scope ← info.aggrParent.foldlM Scope.addParent scope
  if info.isAggr then some scope
  else
    let (node, heap) := allocNode .NODE_OTHERS root info scope.heap
    { scope with heap }.addSignal root node

/-- A register has a second node for its next value. -/
def addRegMember (scope : Scope) (entry : Nat × Bool) : Option Scope := do
  let src ← scope.heap[entry.1]?
  let scope ← scope.addSignal src.name entry.1
  scope.enter { src with type := .NODE_REG_DST, name := src.name ++ "$NEXT" }

/-- A reset has a condition that is no aggregate and a value for each member. -/
def visitReset (info : TypeInfo) (top : Option String) (scope : Scope) :
    Option (PExpr E × PExpr E) → Option Unit
  | none => some ()
  | some (cond, val) => do
    let .normal _ ← visitExpr cfg scope top cond | none
    match ← visitExpr cfg scope top val with
    | .normal _ => guard (!info.isAggr || info.aggrMember.isEmpty)
    | .aggr _ aggrForest => guard (info.isAggr && info.aggrMember.length ≤ aggrForest.length)

def visitRegDef (top : Option String) (name : String) (ptype : PType) (clock : PExpr E)
    (reset : Option (PExpr E × PExpr E)) (scope : Scope) : Option Scope := do
  let clkExp ← visitExpr cfg scope top clock
  let _ ← clkExp.getNode
  let root := prefixName cfg.sep_module top name
  let (info, heap) := visitType cfg.sep_aggr ptype root .NODE_REG_SRC scope.heap
  let (info, heap) :=
    if info.isAggr then (info, heap)
    else
      let (src, heap) := allocNode .NODE_REG_SRC root info heap
      (info.add src false, heap)
  let scope ← info.aggrMember.foldlM addRegMember { scope with heap }
  let scope ← info.aggrParent.foldlM Scope.addParent scope
  visitReset cfg info top scope reset
  some scope

/-- The outermost vector of a memory is its depth; the name is entered like that of an instance. -/
def visitChirrtlMemory (top : Option String) (name : String) (ptype : PType) (scope : Scope) :
    Option Scope :=
  let root := prefixName cfg.sep_module top name
  let (type, heap) := visitType cfg.sep_aggr ptype root .NODE_INVALID scope.heap
  let moduleInstances := Function.update scope.moduleInstances root true
  match type.dimension with
  | [] => none
  | _ :: dimension =>
    if type.isAggr then
      let heap := type.aggrMember.foldl (fun heap entry => heap.modify entry.1 fun node =>
        { node with type := .NODE_MEMORY, dimension := node.dimension.tail }) heap
      let memory := (type.aggrMember.map Prod.fst, type.aggrParent)
      some { scope with
        heap, moduleInstances, memoryMap := Function.update scope.memoryMap root (some memory) }
    else
      let (memNode, heap) := allocNode .NODE_MEMORY root { type with dimension } heap
      some { scope with
        heap, moduleInstances, memoryMap := Function.update scope.memoryMap root (some ([memNode], [])) }

section Copy

variable (rename : String → Option String)

/-- For each of the nodes a new one under its new name. -/
def copyMembers (make : String → Node → Node) : List Nat → Scope → Option (List Nat × Scope)
  | [], scope => some ([], scope)
  | ptr :: ptrs, scope => do
    let node ← scope.heap[ptr]?
    let name ← rename node.name
    let entered ← scope.enter (make name node)
    let (copies, scope') ← copyMembers make ptrs entered
    some (scope.heap.length :: copies, scope')

def copyMember (scope : Scope) (entry : Nat × Bool) : Option (Nat × Bool) := do
  let node ← scope.heap[entry.1]?
  let name ← rename node.name
  let copy ← scope.allSignals name
  some (copy, entry.2)

def getCopy (scope : Scope) (aggr : AggrParentNode) : Option AggrParentNode := do
  let name ← rename aggr.name
  scope.allAggr name

/-- The bundle of the new names, over nodes and bundles that are entered already. -/
def copyParent (linked : Bool) (scope : Scope) (aggr : AggrParentNode) : Option AggrParentNode := do
  let name ← rename aggr.name
  let member ← aggr.member.mapM (copyMember rename scope)
  let parent ← (if linked then aggr.parent.mapM (getCopy rename scope) else some [])
  some ⟨name, member, parent⟩

def copyParents (linked : Bool) : List AggrParentNode → Scope → Option (List AggrParentNode × Scope)
  | [], scope => some ([], scope)
  | aggr :: aggrs, scope => do
    let copy ← copyParent rename linked scope aggr
    let entered ← scope.addParent copy
    let (copies, scope') ← copyParents linked aggrs entered
    some (copy :: copies, scope')

end Copy

def visitChirrtlPort (port : MemPort) (name : String) (node : Node) : Node :=
  let type : NodeType := match port with
    | .P_READ => .NODE_READER
    | .P_WRITE => .NODE_WRITER
    | .P_INFER => .NODE_INFER
    | .P_READWRITER => .NODE_READWRITER
  ⟨type, name, -1, false, false, .UNCERTAIN, node.dimension⟩

/-- The new bundles do not get to know those inside of them. -/
def visitChirrtlMemPort (port : MemPort) (top : Option String) (name extra : String) (addr clock : PExpr E)
    (scope : Scope) : Option Scope := do
  let .normal _ ← visitExpr cfg scope top addr | none
  let clkExp ← visitExpr cfg scope top clock
  let clockNode ← clkExp.getNode
  let node ← scope.heap[clockNode]?
  guard (node.dimension = [])
  let memName := prefixName cfg.sep_module top extra
  let memory ← scope.memoryMap memName
  let rename := fun s => (replacePrefix memName "" s).map (prefixName cfg.sep_module top name ++ ·)
  let (_, scope) ← copyMembers rename (visitChirrtlPort port) memory.1 scope
  let (_, scope) ← copyParents rename false memory.2 scope
  some scope

def allocNodeFromAggr (root : String) (parent : AggrParentNode) (scope : Scope) :
    Option (AggrParentNode × Scope) := do
  let rename := replacePrefix parent.name root
  let (nodes, scope) ← copyMembers rename (fun name member => { member with type := .NODE_OTHERS, name })
    (parent.member.map Prod.fst) scope
  let (aggrs, scope) ← copyParents rename true parent.parent scope
  some (⟨root, List.zipWith (fun node entry => (node, entry.2)) nodes parent.member, aggrs⟩, scope)

/-- Each member takes the dimensions of its tree. -/
def setDims : List (Nat × Bool) → List (ENode E × Bool) → Heap → Option Heap
  | entry :: entries, tree :: trees, heap => do
    let dims ← tree.1.getDim heap
    setDims entries trees (heap.modify entry.1 fun node => { node with dimension := dims })
  | _, _, heap => some heap

def visitNode (top : Option String) (name : String) (expr : PExpr E) (scope : Scope) : Option Scope := do
  let exp ← visitExpr cfg scope top expr
  let root := prefixName cfg.sep_module top name
  match exp with
  | .aggr anyParent aggrForest =>
    let (aggrNode, scope) ← allocNodeFromAggr root anyParent scope
    guard (aggrNode.member.length = aggrForest.length)
    let heap ← setDims aggrNode.member aggrForest scope.heap
    { scope with heap }.addParent aggrNode
  | .normal expRoot =>
    let dims ← expRoot.getDim scope.heap
    scope.enter ⟨.NODE_OTHERS, root, -1, false, false, .UNCERTAIN, dims⟩

/-- Of an instance only its name in `moduleInstances`; what its module declares follows it. -/
def visitInst (top : Option String) (name : String) (scope : Scope) : Scope :=
  { scope with
    moduleInstances := Function.update scope.moduleInstances (prefixName cfg.sep_module top name) true }

def visitDecl (scope : Scope) : Decl E → Option Scope
  | .port type top name ptype => visitPort cfg type top name ptype scope
  | .wire top name ptype => visitWireDef cfg top name ptype scope
  | .reg top name ptype clock reset => visitRegDef cfg top name ptype clock reset scope
  | .mem top name ptype => visitChirrtlMemory cfg top name ptype scope
  | .memPort type top name extra addr clock => visitChirrtlMemPort cfg type top name extra addr clock scope
  | .node top name expr => visitNode cfg top name expr scope
  | .single type top name width isClock =>
    scope.enter ⟨type, prefixName cfg.sep_module top name, width, false, isClock, .UNCERTAIN, []⟩
  | .inst top name => some (visitInst cfg top name scope)

end Declare

/-! ## What entering leaves alone -/

/-- Later declarations allocate behind what is there and take other names. -/
structure Extends (a b : Scope) : Prop where
  heap : a.heap <+: b.heap
  signals : ∀ s n, a.allSignals s = some n → b.allSignals s = some n
  aggrs : ∀ s e, a.allAggr s = some e → b.allAggr s = some e
  apart : ∀ s n, a.allSignals s = some n → a.allAggr s = none → b.allAggr s = none

/-- Only a memory and an instance change the other two maps. -/
structure Enters (a b : Scope) : Prop extends Extends a b where
  instances : b.moduleInstances = a.moduleInstances
  memory : b.memoryMap = a.memoryMap

theorem Extends.getElem {a b : Scope} (h : Extends a b) {ptr : Nat} {node : Node}
    (here : a.heap[ptr]? = some node) : b.heap[ptr]? = some node := by
  obtain ⟨tail, eq⟩ := h.heap
  obtain ⟨bound, -⟩ := List.getElem?_eq_some_iff.mp here
  rw [← eq, List.getElem?_append_left bound]
  exact here

namespace Enters

theorem refl (a : Scope) : Enters a a :=
  ⟨⟨List.prefix_refl _, fun _ _ h => h, fun _ _ h => h, fun _ _ _ h => h⟩, rfl, rfl⟩

theorem trans {a b c : Scope} (first : Enters a b) (second : Enters b c) : Enters a c where
  heap := first.heap.trans second.heap
  signals s n h := second.signals s n (first.signals s n h)
  aggrs s e h := second.aggrs s e (first.aggrs s e h)
  apart s n h free := second.apart s n (first.signals s n h) (first.apart s n h free)
  instances := second.instances.trans first.instances
  memory := second.memory.trans first.memory

theorem allocated {a : Scope} {heap : Heap} (h : a.heap <+: heap) : Enters a { a with heap } :=
  ⟨⟨h, fun _ _ h => h, fun _ _ h => h, fun _ _ _ h => h⟩, rfl, rfl⟩

end Enters

/-- The signal has its name for itself. -/
def Named (s : String) (n : Nat) (scope : Scope) : Prop :=
  scope.allSignals s = some n ∧ scope.allAggr s = none

theorem Named.extends' {a b : Scope} {s : String} {n : Nat} (h : Named s n a) (ext : Extends a b) :
    Named s n b :=
  ⟨ext.signals s n h.1, ext.apart s n h.1 h.2⟩

theorem addSignal_spec {a b : Scope} {s : String} {n : Nat} (h : a.addSignal s n = some b) :
    Enters a b ∧ b.heap = a.heap ∧ Named s n b := by
  rw [Scope.addSignal] at h
  obtain ⟨⟨noSignal, noAggr⟩, h⟩ | ⟨-, h⟩ := ite_eq_iff.mp h
  · cases h
    refine ⟨⟨⟨List.prefix_refl _, ?_, fun _ _ h => h, fun _ _ _ h => h⟩, rfl, rfl⟩, rfl,
      Function.update_self _ _ _, noAggr⟩
    intro s' n' h'
    have ne : s' ≠ s := by
      rintro rfl
      exact nomatch noSignal.symm.trans h'
    exact (Function.update_of_ne ne _ _).trans h'
  · cases h

theorem addParent_spec {a b : Scope} {e : AggrParentNode} (h : a.addParent e = some b) :
    Enters a b ∧ b.heap = a.heap ∧ b.allAggr e.name = some e := by
  rw [Scope.addParent, Scope.addAggr] at h
  obtain ⟨⟨noSignal, noAggr⟩, h⟩ | ⟨-, h⟩ := ite_eq_iff.mp h
  · cases h
    refine ⟨⟨⟨List.prefix_refl _, fun _ _ h => h, ?_, ?_⟩, rfl, rfl⟩, rfl, Function.update_self _ _ _⟩
    · intro s' e' h'
      have ne : s' ≠ e.name := by
        rintro rfl
        exact nomatch noAggr.symm.trans h'
      exact (Function.update_of_ne ne _ _).trans h'
    · intro s' n' h' free
      have ne : s' ≠ e.name := by
        rintro rfl
        exact nomatch noSignal.symm.trans h'
      exact (Function.update_of_ne ne _ _).trans free
  · cases h

theorem enter_spec {a b : Scope} {node : Node} (h : a.enter node = some b) :
    Enters a b ∧ b.heap = a.heap ++ [node] ∧ Named node.name a.heap.length b := by
  obtain ⟨enters, heap, named⟩ := addSignal_spec h
  exact ⟨(Enters.allocated (List.prefix_append _ _)).trans enters, heap, named⟩

/-- A loop that enters something stable for each of its items. -/
theorem foldlM_enters {α : Type} {f : Scope → α → Option Scope} {P : α → Scope → Prop}
    (step : ∀ a b x, f a x = some b → Enters a b ∧ P x b)
    (stable : ∀ a b x, P x a → Extends a b → P x b) :
    ∀ (xs : List α) {a b : Scope}, xs.foldlM f a = some b → Enters a b ∧ ∀ x ∈ xs, P x b
  | [], a, b, h => by
    obtain rfl : a = b := Option.some.inj h
    exact ⟨Enters.refl a, fun _ hx => absurd hx List.not_mem_nil⟩
  | x :: xs, a, b, h => by
    rw [List.foldlM_cons] at h
    obtain ⟨c, hc, h⟩ := Option.bind_eq_some_iff.mp h
    obtain ⟨first, here⟩ := step a c x hc
    obtain ⟨second, there⟩ := foldlM_enters step stable xs h
    refine ⟨first.trans second, ?_⟩
    intro y hy
    rcases List.mem_cons.mp hy with rfl | hy
    · exact stable c b y here second.toExtends
    · exact there y hy

theorem addParents_spec {a b : Scope} {entries : List AggrParentNode}
    (run : entries.foldlM Scope.addParent a = some b) :
    Enters a b ∧ ∀ entry ∈ entries, b.allAggr entry.name = some entry :=
  foldlM_enters (P := fun entry b => b.allAggr entry.name = some entry)
    (fun _ _ _ h => ⟨(addParent_spec h).1, (addParent_spec h).2.2⟩) (fun _ _ _ h ext => ext.aggrs _ _ h) _ run

/-! ## What is entered of a type -/

/-- How much of a type a declaration enters: every bundle with those inside of it, every bundle on its
    own, or the outermost bundle only. -/
inductive Inner where
  | linked
  | entered
  | absent
deriving DecidableEq, Repr

/-- A node that copies a bundle finds the others through it. -/
def Inner.copied : Inner → Inner
  | .linked => .linked
  | _ => .absent

/-- The entries of the bundles inside of the outermost one. -/
def innerEntries (sep : String) (linked : Bool) : PType → String → Nat → List AggrParentNode
  | .P_AG_FIELDS fields, top, base => fieldEntries sep linked fields top base
  | .P_AG_ARRAY type _, top, base => innerEntries sep linked type top base
  | _, _, _ => []

/-- What the entry of a bundle knows of those inside of it. -/
def Inner.parents (inner : Inner) (sep : String) (type : PType) (top : String) (base : Nat) :
    List AggrParentNode :=
  if inner = .linked then innerEntries sep true type top base else []

def Inner.outermost (inner : Inner) (sep : String) (type : PType) (top : String) (base : Nat) :
    AggrParentNode :=
  ⟨top, members base (leaves type), inner.parents sep type top base⟩

def Inner.entries (inner : Inner) (sep : String) (type : PType) (top : String) (base : Nat) :
    List AggrParentNode :=
  match inner with
  | .linked => AggregateType.entries sep true type top base
  | .entered => AggregateType.entries sep false type top base
  | .absent => if type.isAggregate then [Inner.outermost .absent sep type top base] else []

/-- The outermost bundle comes last. -/
theorem entries_eq (sep : String) (linked : Bool) : ∀ (type : PType) (top : String) (base : Nat),
    type.isAggregate = true → entries sep linked type top base =
      innerEntries sep linked type top base ++ [⟨top, members base (leaves type),
        if linked then innerEntries sep linked type top base else []⟩]
  | .P_AG_FIELDS _, _, _, _ => rfl
  | .P_AG_ARRAY type extra, top, base, agg => by
    rw [entries, innerEntries, leaves, members_within]
    exact entries_eq sep linked type top base agg

theorem Inner.outermost_mem (inner : Inner) {sep : String} {type : PType} (top : String) (base : Nat)
    (agg : type.isAggregate = true) : inner.outermost sep type top base ∈ inner.entries sep type top base := by
  cases inner with
  | linked =>
    rw [Inner.entries, entries_eq sep true type top base agg]
    exact List.mem_append_right _ (List.mem_singleton_self _)
  | entered =>
    rw [Inner.entries, entries_eq sep false type top base agg]
    exact List.mem_append_right _ (List.mem_singleton_self _)
  | absent =>
    rw [Inner.entries, if_pos agg]
    exact List.mem_singleton_self _

theorem Inner.entries_ground (inner : Inner) {sep : String} {type : PType} (top : String) (base : Nat)
    (agg : type.isAggregate = false) : inner.entries sep type top base = [] := by
  cases inner with
  | linked => exact AggregateType.entries_ground agg top base
  | entered => exact AggregateType.entries_ground agg top base
  | absent => exact if_neg (by rw [agg]; exact Bool.false_ne_true)

/-- The nodes of the leaves, one after another, as far as references care. -/
def Lies (sep root : String) (base : Nat) (ls : List Leaf) (heap : Heap) : Prop :=
  ∀ i l, ls[i]? = some l → ∃ node, heap[base + i]? = some node ∧ node.name = pathName sep root l.path ∧
    node.dimension = l.dims

theorem Lies.extends' {sep root : String} {base : Nat} {ls : List Leaf} {a b : Scope}
    (h : Lies sep root base ls a.heap) (ext : Extends a b) : Lies sep root base ls b.heap := by
  intro i l hl
  obtain ⟨node, here, rest⟩ := h i l hl
  exact ⟨node, ext.getElem here, rest⟩

theorem Lies.one {sep root : String} {base : Nat} {l : Leaf} {heap : Heap} {node : Node}
    (here : heap[base]? = some node) (name : node.name = pathName sep root l.path)
    (dims : node.dimension = l.dims) : Lies sep root base [l] heap := by
  intro i l' hl
  rw [List.getElem?_singleton] at hl
  obtain ⟨rfl, hl⟩ | ⟨-, hl⟩ := ite_eq_iff.mp hl
  · obtain rfl := Option.some.inj hl
    exact ⟨node, here, name, dims⟩
  · cases hl

/-- The nodes that are made of the leaves in their order. -/
theorem Lies.made {sep root : String} {f : Leaf → Node} (before : Heap) (ls : List Leaf)
    (name : ∀ l, (f l).name = pathName sep root l.path) (dims : ∀ l, (f l).dimension = l.dims) :
    Lies sep root before.length ls (before ++ ls.map f) := by
  intro i l hl
  refine ⟨f l, ?_, name l, dims l⟩
  rw [List.getElem?_append_right (Nat.le_add_right _ _), Nat.add_sub_cancel_left, List.getElem?_map, hl]
  rfl

theorem Lies.nodes {sep root : String} {parentType : NodeType} (before : Heap) (ls : List Leaf) :
    Lies sep root before.length ls (before ++ ls.map (Leaf.node sep root parentType)) :=
  Lies.made before ls (fun _ => rfl) (fun _ => rfl)

/-- What a declaration entered: the root of its names, the type, and how much of it. -/
structure Entered where
  root : String
  type : PType
  inner : Inner

/-- The leaves and the bundles are found under the names of their paths. -/
structure Registered (cfg : Config) (x : Entered) (scope : Scope) : Prop where
  found : ∃ base, Lies cfg.sep_aggr x.root base (leaves x.type) scope.heap ∧
    (∀ i l, (leaves x.type)[i]? = some l → Named (pathName cfg.sep_aggr x.root l.path) (base + i) scope) ∧
    ∀ entry ∈ x.inner.entries cfg.sep_aggr x.type x.root base, scope.allAggr entry.name = some entry

theorem Registered.extends' {cfg : Config} {x : Entered} {a b : Scope} (h : Registered cfg x a)
    (ext : Extends a b) : Registered cfg x b := by
  obtain ⟨base, lies, signals, aggrs⟩ := h.found
  refine ⟨base, lies.extends' ext, ?_, ?_⟩
  · exact fun i l hl => (signals i l hl).extends' ext
  · exact fun entry he => ext.aggrs _ _ (aggrs entry he)

/-- The one node of a type without bundles. -/
theorem Registered.ground {cfg : Config} {root : String} {type : PType} {inner : Inner} {scope : Scope}
    {base : Nat} {l : Leaf} {node : Node} (agg : type.isAggregate = false) (hleaf : leaves type = [l])
    (path : l.path = []) (here : scope.heap[base]? = some node) (name : node.name = root)
    (dims : node.dimension = l.dims) (named : Named root base scope) :
    Registered cfg ⟨root, type, inner⟩ scope := by
  refine ⟨base, ?_, ?_, ?_⟩
  · rw [hleaf]
    refine Lies.one here ?_ dims
    rw [name, path]
    rfl
  · intro i l' hl
    rw [hleaf, List.getElem?_singleton] at hl
    obtain ⟨rfl, hl⟩ | ⟨-, hl⟩ := ite_eq_iff.mp hl
    · obtain rfl := Option.some.inj hl
      rw [path]
      exact named
    · cases hl
  · intro entry he
    rw [inner.entries_ground root base agg] at he
    cases he

/-! ## Ports, wires and registers -/

theorem members_getElem (base : Nat) (ls : List Leaf) (i : Nat) :
    (members base ls)[i]? = ls[i]?.map fun l => (base + i, l.flipped) := by
  induction ls generalizing base i with
  | nil => rfl
  | cons l ls ih =>
    cases i with
    | zero => rfl
    | succ i =>
      rw [members, List.getElem?_cons_succ, List.getElem?_cons_succ, ih, Nat.add_right_comm, Nat.add_assoc]

/-- A loop over the members that enters each of them under its name. -/
def EntersMember (f : Scope → Nat × Bool → Option Scope) : Prop :=
  ∀ a b entry, f a entry = some b → Enters a b ∧
    ∃ node, b.heap[entry.1]? = some node ∧ Named node.name entry.1 b

theorem addMember_enters : EntersMember Scope.addMember := by
  intro a b entry h
  obtain ⟨node, here, h⟩ := Option.bind_eq_some_iff.mp h
  obtain ⟨enters, -, named⟩ := addSignal_spec h
  exact ⟨enters, node, enters.getElem here, named⟩

theorem addRegMember_enters : EntersMember addRegMember := by
  intro a b entry h
  obtain ⟨src, here, h⟩ := Option.bind_eq_some_iff.mp h
  obtain ⟨mid, first, second⟩ := Option.bind_eq_some_iff.mp h
  obtain ⟨enters, -, named⟩ := addSignal_spec first
  obtain ⟨enters', -, -⟩ := enter_spec second
  exact ⟨enters.trans enters', src, (enters.trans enters').getElem here, named.extends' enters'.toExtends⟩

/-- Entering leaves that lie one after another gives each of them its name. -/
theorem addMembers_spec {sep root : String} {base : Nat} {f : Scope → Nat × Bool → Option Scope}
    {a b : Scope} {ls : List Leaf} (step : EntersMember f) (lies : Lies sep root base ls a.heap)
    (run : (members base ls).foldlM f a = some b) :
    Enters a b ∧ ∀ i l, ls[i]? = some l → Named (pathName sep root l.path) (base + i) b := by
  obtain ⟨enters, each⟩ := foldlM_enters (P := fun (entry : Nat × Bool) b =>
    ∃ node, b.heap[entry.1]? = some node ∧ Named node.name entry.1 b)
    (fun a b entry => step a b entry) (fun _ _ _ ⟨node, here, named⟩ ext => ⟨node, ext.getElem here, named.extends' ext⟩) _ run
  refine ⟨enters, ?_⟩
  intro i l hl
  have entry : (members base ls)[i]? = some (base + i, l.flipped) := by
    rw [members_getElem, hl]
    rfl
  obtain ⟨node, here, named⟩ := each _ (List.mem_of_getElem? entry)
  obtain ⟨node', there, name, -⟩ := lies.extends' enters.toExtends i l hl
  obtain rfl : node = node' := Option.some.inj (here.symm.trans there)
  rw [name] at named
  exact named

section Declared

variable {cfg : Config} {top : Option String} {name : String} {ptype : PType} {a b : Scope}

/-- The entries of an aggregate. -/
theorem registered_aggregate {root : String} {parentType : NodeType} {r : TypeInfo × Heap}
    {f : Scope → Nat × Bool → Option Scope} {mid : Scope} (step : EntersMember f)
    (visited : Visited cfg.sep_aggr ptype root parentType a.heap r) (agg : ptype.isAggregate = true)
    (members : r.1.aggrMember.foldlM f { a with heap := r.2 } = some mid)
    (parents : r.1.aggrParent.foldlM Scope.addParent mid = some b) :
    Enters a b ∧ Registered cfg ⟨root, ptype, .linked⟩ b := by
  obtain ⟨info, heap⟩ := r
  obtain ⟨rfl, hmember⟩ := visited.aggregate agg
  rw [show info.aggrMember = _ from hmember] at members
  rw [show info.aggrParent = _ from visited.parents] at parents
  have lies : Lies cfg.sep_aggr root a.heap.length (leaves ptype)
      (a.heap ++ (leaves ptype).map (Leaf.node cfg.sep_aggr root parentType)) := Lies.nodes _ _
  obtain ⟨enters, signals⟩ := addMembers_spec step lies members
  obtain ⟨enters', aggrs⟩ := addParents_spec parents
  have fresh : Enters a { a with heap := a.heap ++ (leaves ptype).map (Leaf.node cfg.sep_aggr root parentType) } :=
    Enters.allocated (List.prefix_append _ _)
  refine ⟨(fresh.trans enters).trans enters', a.heap.length, ?_, ?_, aggrs⟩
  · exact Lies.extends' lies (enters.trans enters').toExtends
  · exact fun i l hl => (signals i l hl).extends' enters'.toExtends

/-- The node that is made of a type without bundles, entered as the only member. -/
theorem registered_single {root : String} {parentType : NodeType} {r : TypeInfo × Heap}
    {f : Scope → Nat × Bool → Option Scope} {mid : Scope} (step : EntersMember f)
    (visited : Visited cfg.sep_aggr ptype root parentType a.heap r) (agg : ptype.isAggregate = false)
    (members : (r.1.add a.heap.length false).aggrMember.foldlM f
      { a with heap := a.heap ++ [r.1.leaf.node cfg.sep_aggr root parentType] } = some mid)
    (parents : r.1.aggrParent.foldlM Scope.addParent mid = some b) :
    Enters a b ∧ Registered cfg ⟨root, ptype, .linked⟩ b := by
  obtain ⟨info, heap⟩ := r
  obtain ⟨-, hmember, hleaf⟩ := visited.ground agg
  have one : (info.add a.heap.length false).aggrMember = AggregateType.members a.heap.length [info.leaf] := by
    show info.aggrMember ++ _ = _
    rw [show info.aggrMember = [] from hmember]
    rfl
  rw [one] at members
  have lies : Lies cfg.sep_aggr root a.heap.length [info.leaf]
      (a.heap ++ [info.leaf].map (Leaf.node cfg.sep_aggr root parentType)) := Lies.nodes _ _
  obtain ⟨enters, signals⟩ := addMembers_spec step lies members
  obtain ⟨enters', -⟩ := addParents_spec parents
  have fresh : Enters a { a with heap := a.heap ++ [info.leaf.node cfg.sep_aggr root parentType] } :=
    Enters.allocated (List.prefix_append _ _)
  obtain ⟨node, here, name, dims⟩ := Lies.extends' lies (enters.trans enters').toExtends 0 info.leaf rfl
  exact ⟨(fresh.trans enters).trans enters', .ground agg hleaf rfl here name dims
    ((signals 0 info.leaf rfl).extends' enters'.toExtends)⟩

theorem visitPort_spec {type : NodeType} (run : visitPort cfg type top name ptype a = some b) :
    Enters a b ∧ Registered cfg ⟨prefixName cfg.sep_module top name, ptype, .linked⟩ b := by
  have visited := visitType_visited cfg.sep_aggr ptype (prefixName cfg.sep_module top name) type a.heap
  have isAggr := visited.isAggr
  rw [visitPort] at run
  generalize visitType cfg.sep_aggr ptype (prefixName cfg.sep_module top name) type a.heap = r
    at run visited isAggr
  obtain ⟨info, heap⟩ := r
  cases agg : ptype.isAggregate with
  | true =>
    simp only [isAggr.trans agg, if_true] at run
    obtain ⟨mid, members, parents⟩ := Option.bind_eq_some_iff.mp run
    exact registered_aggregate addMember_enters visited agg members parents
  | false =>
    obtain ⟨rfl, -, -⟩ := visited.ground agg
    simp only [isAggr.trans agg, Bool.false_eq_true, if_false, allocNode] at run
    obtain ⟨mid, members, parents⟩ := Option.bind_eq_some_iff.mp run
    exact registered_single addMember_enters visited agg members parents

theorem visitWireDef_spec (run : visitWireDef cfg top name ptype a = some b) :
    Enters a b ∧ Registered cfg ⟨prefixName cfg.sep_module top name, ptype, .linked⟩ b := by
  have visited := visitType_visited cfg.sep_aggr ptype (prefixName cfg.sep_module top name) .NODE_OTHERS
    a.heap
  have isAggr := visited.isAggr
  rw [visitWireDef] at run
  generalize visitType cfg.sep_aggr ptype (prefixName cfg.sep_module top name) .NODE_OTHERS a.heap = r
    at run visited isAggr
  obtain ⟨info, heap⟩ := r
  obtain ⟨mid, members, later⟩ := Option.bind_eq_some_iff.mp run
  obtain ⟨last, parents, made⟩ := Option.bind_eq_some_iff.mp later
  clear run later
  cases agg : ptype.isAggregate with
  | true =>
    simp only [isAggr.trans agg, if_true] at made
    obtain rfl := Option.some.inj made
    exact registered_aggregate addMember_enters visited agg members parents
  | false =>
    obtain ⟨rfl, hmember, hleaf⟩ := visited.ground agg
    simp only [isAggr.trans agg, Bool.false_eq_true, if_false] at made
    have parent : info.aggrParent = [] := visited.parents.trans (entries_ground agg _ _)
    rw [show info.aggrMember = [] from hmember] at members
    rw [parent] at parents
    obtain rfl := Option.some.inj members
    obtain rfl := Option.some.inj parents
    obtain ⟨enters, same, named⟩ := addSignal_spec made
    have last : b.heap[a.heap.length]? = some (info.leaf.node cfg.sep_aggr
        (prefixName cfg.sep_module top name) .NODE_OTHERS) := by
      rw [same]
      exact List.getElem?_concat_length
    exact ⟨(Enters.allocated (List.prefix_append _ _)).trans enters,
      .ground agg hleaf rfl last rfl rfl named⟩

theorem visitRegDef_spec {E : Type} {clock : PExpr E} {reset : Option (PExpr E × PExpr E)}
    (run : visitRegDef cfg top name ptype clock reset a = some b) :
    Enters a b ∧ Registered cfg ⟨prefixName cfg.sep_module top name, ptype, .linked⟩ b := by
  have visited := visitType_visited cfg.sep_aggr ptype (prefixName cfg.sep_module top name) .NODE_REG_SRC
    a.heap
  have isAggr := visited.isAggr
  rw [visitRegDef] at run
  obtain ⟨clkExp, -, run⟩ := Option.bind_eq_some_iff.mp run
  obtain ⟨clockNode, -, run⟩ := Option.bind_eq_some_iff.mp run
  dsimp only at run
  generalize visitType cfg.sep_aggr ptype (prefixName cfg.sep_module top name) .NODE_REG_SRC a.heap = r
    at run visited isAggr
  obtain ⟨info, heap⟩ := r
  cases agg : ptype.isAggregate with
  | true =>
    simp only [isAggr.trans agg, if_true] at run
    obtain ⟨mid, members, run⟩ := Option.bind_eq_some_iff.mp run
    obtain ⟨last, parents, run⟩ := Option.bind_eq_some_iff.mp run
    obtain ⟨-, -, run⟩ := Option.bind_eq_some_iff.mp run
    obtain rfl := Option.some.inj run
    exact registered_aggregate addRegMember_enters visited agg members parents
  | false =>
    obtain ⟨rfl, -, -⟩ := visited.ground agg
    simp only [isAggr.trans agg, Bool.false_eq_true, if_false, allocNode] at run
    obtain ⟨mid, members, run⟩ := Option.bind_eq_some_iff.mp run
    obtain ⟨last, parents, run⟩ := Option.bind_eq_some_iff.mp run
    obtain ⟨-, -, run⟩ := Option.bind_eq_some_iff.mp run
    obtain rfl := Option.some.inj run
    exact registered_single addRegMember_enters visited agg members parents

end Declared

/-! ## Copies under other names -/

/-- The front of a name is replaced. -/
def Renames (rename : String → Option String) (old new : String) : Prop :=
  ∀ t, rename (old ++ t) = some (new ++ t)

theorem Renames.below {rename : String → Option String} {old new : String} (h : Renames rename old new)
    (sep name : String) : Renames rename (old ++ sep ++ name) (new ++ sep ++ name) := by
  intro t
  have there := h (sep ++ name ++ t)
  simp only [← String.append_assoc] at there
  exact there

theorem Renames.path {rename : String → Option String} {old new : String} (h : Renames rename old new)
    (sep : String) (path : List String) : rename (pathName sep old path) = some (pathName sep new path) := by
  induction path generalizing old new with
  | nil =>
    have whole := h ""
    rwa [String.append_empty, String.append_empty] at whole
  | cons f path ih => exact ih (h.below sep f)

theorem replacePrefix_renames (old new : String) : Renames (replacePrefix old new) old new := by
  intro t
  have front : old.toList.isPrefixOf (old ++ t).toList = true := by
    rw [String.toList_append]
    exact List.isPrefixOf_iff_prefix.mpr (List.prefix_append _ _)
  rw [replacePrefix, if_pos front, String.toList_append, ← String.length_toList, List.drop_left,
    String.ofList_toList]

theorem members_ptrs (base : Nat) (ls : List Leaf) :
    (members base ls).map Prod.fst = List.range' base ls.length := by
  induction ls generalizing base with
  | nil => rfl
  | cons l ls ih =>
    rw [members, List.map_cons, ih]
    rfl

section Copies

variable {rename : String → Option String} {sep old new : String} {a b : Scope}

theorem copyMembers_enters {make : String → Node → Node} : ∀ (ptrs : List Nat) {a b : Scope} {copies : List Nat},
    copyMembers rename make ptrs a = some (copies, b) → Enters a b
  | [], a, b, copies, run => by
    obtain ⟨-, rfl⟩ := Prod.mk.inj (Option.some.inj run)
    exact Enters.refl a
  | ptr :: ptrs, a, b, copies, run => by
    obtain ⟨node, -, run⟩ := Option.bind_eq_some_iff.mp run
    obtain ⟨name, -, run⟩ := Option.bind_eq_some_iff.mp run
    obtain ⟨mid, entered, run⟩ := Option.bind_eq_some_iff.mp run
    obtain ⟨⟨rest, last⟩, later, run⟩ := Option.bind_eq_some_iff.mp run
    obtain ⟨-, rfl⟩ := Prod.mk.inj (Option.some.inj run)
    exact (enter_spec entered).1.trans (copyMembers_enters ptrs later)

/-- One new node for each leaf, at the end of the heap and in their order. -/
theorem copyMembers_spec {make : String → Node → Node} (renames : Renames rename old new)
    (named : ∀ s node, (make s node).name = s) : ∀ (ls : List Leaf) {base : Nat} {a b : Scope} {ptrs : List Nat},
    (∀ i l, ls[i]? = some l → ∃ node, a.heap[base + i]? = some node ∧ node.name = pathName sep old l.path) →
    copyMembers rename make (List.range' base ls.length) a = some (ptrs, b) →
    ptrs = List.range' a.heap.length ls.length ∧
      ∃ nodes, b.heap = a.heap ++ nodes ∧ nodes.length = ls.length ∧
        ∀ i l, ls[i]? = some l → Named (pathName sep new l.path) (a.heap.length + i) b ∧
          ∀ node, a.heap[base + i]? = some node → nodes[i]? = some (make (pathName sep new l.path) node)
  | [], _, a, b, ptrs, _, run => by
    obtain ⟨rfl, rfl⟩ := Prod.mk.inj (Option.some.inj run)
    exact ⟨rfl, [], (List.append_nil _).symm, rfl, fun _ _ h => by cases h⟩
  | l :: ls, base, a, b, ptrs, names, run => by
    obtain ⟨node, here, name⟩ := names 0 l rfl
    rw [List.length_cons, List.range'_succ, copyMembers] at run
    obtain ⟨node', here', run⟩ := Option.bind_eq_some_iff.mp run
    obtain rfl : node = node' := Option.some.inj (here.symm.trans here')
    obtain ⟨copy, renamed, run⟩ := Option.bind_eq_some_iff.mp run
    rw [name, renames.path sep l.path] at renamed
    obtain rfl := Option.some.inj renamed
    obtain ⟨mid, entered, run⟩ := Option.bind_eq_some_iff.mp run
    obtain ⟨⟨copies, last⟩, later, run⟩ := Option.bind_eq_some_iff.mp run
    obtain ⟨rfl, rfl⟩ := Prod.mk.inj (Option.some.inj run)
    obtain ⟨first, heap, self⟩ := enter_spec entered
    have length : mid.heap.length = a.heap.length + 1 := by
      rw [heap, List.length_append, List.length_singleton]
    have rest : ∀ i l, ls[i]? = some l → ∃ node, mid.heap[base + 1 + i]? = some node ∧
        node.name = pathName sep old l.path := by
      intro i l hl
      obtain ⟨node, there, name⟩ := names (i + 1) l hl
      rw [← Nat.add_assoc, Nat.add_right_comm] at there
      exact ⟨node, first.getElem there, name⟩
    have second := copyMembers_enters _ later
    obtain ⟨rfl, nodes, heap', count, each⟩ := copyMembers_spec renames named ls rest later
    rw [named] at self
    refine ⟨?_, make (pathName sep new l.path) node :: nodes, ?_, ?_, ?_⟩
    · rw [List.length_cons, List.range'_succ, length]
    · rw [heap', heap, List.append_assoc, List.singleton_append]
    · rw [List.length_cons, List.length_cons, count]
    · intro i l' hl
      cases i with
      | zero =>
        obtain rfl := Option.some.inj hl
        refine ⟨self.extends' second.toExtends, ?_⟩
        intro node' there
        obtain rfl : node = node' := Option.some.inj (here.symm.trans there)
        rfl
      | succ i =>
        obtain ⟨mine, copied⟩ := each i l' hl
        rw [length, Nat.add_right_comm, Nat.add_assoc] at mine
        refine ⟨mine, ?_⟩
        intro node' there
        rw [← Nat.add_assoc, Nat.add_right_comm] at there
        exact copied node' (first.getElem there)

/-- The leaves are there under their old names and their new ones. -/
def Copied (sep old new : String) (base base' : Nat) (ls : List Leaf) (scope : Scope) : Prop :=
  ∀ i l, ls[i]? = some l → (∃ node, scope.heap[base + i]? = some node ∧ node.name = pathName sep old l.path) ∧
    scope.allSignals (pathName sep new l.path) = some (base' + i)

theorem Copied.extends' {base base' : Nat} {ls : List Leaf} (h : Copied sep old new base base' ls a)
    (ext : Extends a b) : Copied sep old new base base' ls b := by
  intro i l hl
  obtain ⟨⟨node, here, name⟩, signal⟩ := h i l hl
  exact ⟨⟨node, ext.getElem here, name⟩, ext.signals _ _ signal⟩

theorem Copied.front {base base' : Nat} {ls ls' : List Leaf}
    (h : Copied sep old new base base' (ls ++ ls') a) : Copied sep old new base base' ls a := by
  intro i l hl
  apply h i l
  rw [List.getElem?_append_left (List.getElem?_eq_some_iff.mp hl).1]
  exact hl

theorem Copied.behind {base base' : Nat} {ls ls' : List Leaf}
    (h : Copied sep old new base base' (ls ++ ls') a) :
    Copied sep old new (base + ls.length) (base' + ls.length) ls' a := by
  intro i l hl
  rw [Nat.add_assoc, Nat.add_assoc]
  apply h (ls.length + i) l
  rw [List.getElem?_append_right (Nat.le_add_right _ _), Nat.add_sub_cancel_left]
  exact hl

theorem Copied.below {base base' : Nat} {flip : Bool} {name : String} {ls : List Leaf}
    (h : Copied sep old new base base' (ls.map (Leaf.below flip name)) a) :
    Copied sep (old ++ sep ++ name) (new ++ sep ++ name) base base' ls a := by
  intro i l hl
  apply h i (l.below flip name)
  rw [List.getElem?_map, hl]
  rfl

theorem Copied.within {base base' : Nat} {num : Int} {ls : List Leaf}
    (h : Copied sep old new base base' (ls.map (Leaf.within num)) a) :
    Copied sep old new base base' ls a := by
  intro i l hl
  apply h i (l.within num)
  rw [List.getElem?_map, hl]
  rfl

theorem mapM_forall₂ {α β : Type} {f : α → Option β} {as : List α} {bs : List β}
    (h : List.Forall₂ (fun a b => f a = some b) as bs) : as.mapM f = some bs := by
  induction h with
  | nil => rfl
  | cons head tail ih =>
    rw [List.mapM_cons, head, ih]
    rfl

theorem copyMember_members (renames : Renames rename old new) : ∀ {base base' : Nat} (ls : List Leaf),
    Copied sep old new base base' ls a →
    List.Forall₂ (fun entry copy => copyMember rename a entry = some copy) (members base ls) (members base' ls)
  | _, _, [], _ => .nil
  | base, base', l :: ls, copied => by
    obtain ⟨⟨node, here, name⟩, signal⟩ := copied 0 l rfl
    have rest : Copied sep old new base base' ([l] ++ ls) a := copied
    refine .cons ?_ (copyMember_members renames ls rest.behind)
    rw [copyMember, show a.heap[base]? = some node from here]
    show (rename node.name).bind _ = _
    rw [name, renames.path sep l.path]
    show (a.allSignals _).bind _ = _
    rw [show a.allSignals _ = some base' from signal]
    rfl

/-- Entries of the same bundles are copies of one another. -/
theorem getCopy_forall₂ {base base' : Nat} {entries copies : List AggrParentNode} {bs : List Bundle}
    (renames : Renames rename old new) (lists : List.Forall₂ (Lists sep old base) entries bs)
    (lists' : List.Forall₂ (Lists sep new base') copies bs)
    (entered : ∀ copy ∈ copies, a.allAggr copy.name = some copy) :
    List.Forall₂ (fun entry copy => getCopy rename a entry = some copy) entries copies := by
  induction lists generalizing copies with
  | nil =>
    cases lists'
    exact .nil
  | cons head tail ih =>
    cases lists' with
    | @cons copy _ copies _ head' tail' =>
      refine .cons ?_ (ih tail' fun copy' mem => entered copy' (List.mem_cons_of_mem _ mem))
      have here := entered copy List.mem_cons_self
      rw [head'.1] at here
      rw [getCopy, head.1, renames.path sep]
      exact here

theorem copyParents_enters {linked : Bool} : ∀ (aggrs : List AggrParentNode) {a b : Scope}
    {copies : List AggrParentNode}, copyParents rename linked aggrs a = some (copies, b) →
    Enters a b ∧ b.heap = a.heap ∧ ∀ copy ∈ copies, b.allAggr copy.name = some copy
  | [], a, b, copies, run => by
    obtain ⟨rfl, rfl⟩ := Prod.mk.inj (Option.some.inj run)
    exact ⟨Enters.refl a, rfl, fun _ h => absurd h List.not_mem_nil⟩
  | aggr :: aggrs, a, b, copies, run => by
    obtain ⟨copy, -, run⟩ := Option.bind_eq_some_iff.mp run
    obtain ⟨mid, entered, run⟩ := Option.bind_eq_some_iff.mp run
    obtain ⟨⟨rest, last⟩, later, run⟩ := Option.bind_eq_some_iff.mp run
    obtain ⟨rfl, rfl⟩ := Prod.mk.inj (Option.some.inj run)
    obtain ⟨first, heap, here⟩ := addParent_spec entered
    obtain ⟨second, heap', there⟩ := copyParents_enters aggrs later
    refine ⟨first.trans second, heap'.trans heap, ?_⟩
    intro other mem
    rcases List.mem_cons.mp mem with rfl | mem
    · exact second.aggrs _ _ here
    · exact there other mem

theorem copyParents_append {linked : Bool} {later : List AggrParentNode} : ∀ (aggrs : List AggrParentNode)
    {a b : Scope} {copies : List AggrParentNode},
    copyParents rename linked (aggrs ++ later) a = some (copies, b) →
    ∃ first second mid, copyParents rename linked aggrs a = some (first, mid) ∧
      copyParents rename linked later mid = some (second, b) ∧ copies = first ++ second
  | [], a, b, copies, run => ⟨[], copies, a, rfl, run, rfl⟩
  | aggr :: aggrs, a, b, copies, run => by
    obtain ⟨copy, made, run⟩ := Option.bind_eq_some_iff.mp run
    obtain ⟨entered, add, run⟩ := Option.bind_eq_some_iff.mp run
    obtain ⟨⟨rest, last⟩, more, run⟩ := Option.bind_eq_some_iff.mp run
    obtain ⟨rfl, rfl⟩ := Prod.mk.inj (Option.some.inj run)
    obtain ⟨first, second, mid, here, there, rfl⟩ := copyParents_append aggrs more
    refine ⟨copy :: first, second, mid, ?_, there, rfl⟩
    rw [copyParents, made]
    show (a.addParent copy).bind _ = _
    rw [add]
    show (copyParents rename linked aggrs entered).bind _ = _
    rw [here]
    rfl

theorem copyParent_eq {linked : Bool} {aggr : AggrParentNode} {name : String} {member : List (Nat × Bool)}
    {parent : List AggrParentNode} (named : rename aggr.name = some name)
    (members : aggr.member.mapM (copyMember rename a) = some member)
    (parents : (if linked then aggr.parent.mapM (getCopy rename a) else some []) = some parent) :
    copyParent rename linked a aggr = some ⟨name, member, parent⟩ := by
  rw [copyParent, named]
  show (aggr.member.mapM (copyMember rename a)).bind _ = _
  rw [members]
  show (if linked then aggr.parent.mapM (getCopy rename a) else some []).bind _ = _
  rw [parents]
  rfl

mutual

/-- The bundles of a flattened type are copied one by one, those inside of a bundle before it. -/
theorem copyEntries_spec (linked : Bool) : ∀ (type : PType) {old new : String} {base base' : Nat} {a b : Scope}
    {copies : List AggrParentNode}, Renames rename old new → Copied sep old new base base' (leaves type) a →
    copyParents rename linked (entries sep true type old base) a = some (copies, b) →
    copies = entries sep linked type new base'
  | .P_Clock, _, _, _, _, _, _, _, _, _, run => (Prod.mk.inj (Option.some.inj run)).1.symm
  | .P_INT_TYPE _ _, _, _, _, _, _, _, _, _, _, run => (Prod.mk.inj (Option.some.inj run)).1.symm
  | .P_RESET, _, _, _, _, _, _, _, _, _, run => (Prod.mk.inj (Option.some.inj run)).1.symm
  | .P_ASYRESET, _, _, _, _, _, _, _, _, _, run => (Prod.mk.inj (Option.some.inj run)).1.symm
  | .P_AG_FIELDS fields, old, new, base, base', a, b, copies, renames, copied, run => by
    obtain ⟨first, second, mid, inner, outer, rfl⟩ := copyParents_append _ run
    obtain rfl := copyFieldEntries_spec linked fields renames copied inner
    obtain ⟨enters, -, entered⟩ := copyParents_enters _ inner
    obtain ⟨copy, made, outer⟩ := Option.bind_eq_some_iff.mp outer
    obtain ⟨last, -, outer⟩ := Option.bind_eq_some_iff.mp outer
    obtain ⟨rfl, -⟩ := Prod.mk.inj (Option.some.inj outer)
    have members := mapM_forall₂ (copyMember_members renames _ (copied.extends' enters.toExtends))
    have parents : (if linked then (fieldEntries sep true fields old base).mapM (getCopy rename mid)
        else some []) = some (if linked then fieldEntries sep linked fields new base' else []) := by
      cases linked with
      | true =>
        exact mapM_forall₂ (getCopy_forall₂ renames (fieldEntries_lists sep true fields old base)
          (fieldEntries_lists sep true fields new base') entered)
      | false => rfl
    rw [copyParent_eq (renames.path sep []) members parents] at made
    obtain rfl := Option.some.inj made
    rfl
  | .P_AG_ARRAY type _, _, _, _, _, _, _, _, renames, copied, run =>
    copyEntries_spec linked type renames copied.within run

theorem copyFieldEntries_spec (linked : Bool) : ∀ (fields : PFields) {old new : String} {base base' : Nat}
    {a b : Scope} {copies : List AggrParentNode}, Renames rename old new →
    Copied sep old new base base' (fieldLeaves fields) a →
    copyParents rename linked (fieldEntries sep true fields old base) a = some (copies, b) →
    copies = fieldEntries sep linked fields new base'
  | .nil, _, _, _, _, _, _, _, _, _, run => (Prod.mk.inj (Option.some.inj run)).1.symm
  | .cons (.mk flip name type) rest, old, new, base, base', a, b, copies, renames, copied, run => by
    obtain ⟨first, second, mid, here, there, rfl⟩ := copyParents_append _ run
    obtain ⟨enters, -, -⟩ := copyParents_enters _ here
    rw [fieldLeaves] at copied
    have later := copied.behind.extends' enters.toExtends
    rw [List.length_map] at later
    rw [fieldEntries, copyEntries_spec linked type (renames.below sep name) copied.front.below here,
      copyFieldEntries_spec linked rest renames later there]

end

/-- The same for the bundles that the outermost one keeps. -/
theorem copyInner_spec : ∀ (type : PType) {base base' : Nat} {copies : List AggrParentNode},
    Renames rename old new → Copied sep old new base base' (leaves type) a →
    copyParents rename true (innerEntries sep true type old base) a = some (copies, b) →
    copies = innerEntries sep true type new base'
  | .P_Clock, _, _, _, _, _, run => (Prod.mk.inj (Option.some.inj run)).1.symm
  | .P_INT_TYPE _ _, _, _, _, _, _, run => (Prod.mk.inj (Option.some.inj run)).1.symm
  | .P_RESET, _, _, _, _, _, run => (Prod.mk.inj (Option.some.inj run)).1.symm
  | .P_ASYRESET, _, _, _, _, _, run => (Prod.mk.inj (Option.some.inj run)).1.symm
  | .P_AG_FIELDS fields, _, _, _, renames, copied, run => copyFieldEntries_spec true fields renames copied run
  | .P_AG_ARRAY type _, _, _, _, renames, copied, run => copyInner_spec type renames copied.within run

end Copies

/-! ## Memories and their ports -/

/-- The nodes and the bundles of a memory, under its own name and not entered. -/
structure MemRegistered (cfg : Config) (s : String) (type : PType) (scope : Scope) : Prop where
  found : ∃ base, Lies cfg.sep_aggr s base (leaves type) scope.heap ∧ scope.memoryMap s =
    some (List.range' base (leaves type).length, entries cfg.sep_aggr true type s base)

theorem MemRegistered.extends' {cfg : Config} {s : String} {type : PType} {a b : Scope}
    (h : MemRegistered cfg s type a) (ext : Extends a b) (same : b.memoryMap s = a.memoryMap s) :
    MemRegistered cfg s type b := by
  obtain ⟨base, lies, memory⟩ := h.found
  exact ⟨base, lies.extends' ext, same.trans memory⟩

section Memory

variable {E : Type} {cfg : Config} {top : Option String} {name : String} {type : PType} {a b : Scope}

/-- A memory takes its name among the instances and its place among the memories, and no other. -/
structure Stores (cfg : Config) (root : String) (type : PType) (a b : Scope) : Prop
    extends Extends a b where
  instances : b.moduleInstances = Function.update a.moduleInstances root true
  others : ∀ s, s ≠ root → b.memoryMap s = a.memoryMap s
  registered : MemRegistered cfg root type b

theorem visitChirrtlMemory_spec {extra : Int}
    (run : visitChirrtlMemory cfg top name (.P_AG_ARRAY type extra) a = some b) :
    Stores cfg (prefixName cfg.sep_module top name) type a b := by
  have visited := visitType_visited cfg.sep_aggr (.P_AG_ARRAY type extra)
    (prefixName cfg.sep_module top name) .NODE_INVALID a.heap
  have isAggr := visited.isAggr
  simp only [visitChirrtlMemory] at run
  generalize prefixName cfg.sep_module top name = root at run visited isAggr ⊢
  generalize visitType cfg.sep_aggr (.P_AG_ARRAY type extra) root .NODE_INVALID a.heap = r
    at run visited isAggr
  obtain ⟨info, heap⟩ := r
  cases depth : info.dimension with
  | nil => simp only [depth, reduceCtorEq] at run
  | cons num dimension =>
    simp only [depth] at run
    cases agg : type.isAggregate with
    | true =>
      obtain ⟨rfl, hmember⟩ := visited.aggregate agg
      have length : ((leaves (.P_AG_ARRAY type extra)).map (Leaf.node cfg.sep_aggr root .NODE_INVALID)).length =
          (leaves (.P_AG_ARRAY type extra)).length := List.length_map _
      have changed := modify_members (fun node => { node with
        type := NodeType.NODE_MEMORY, dimension := node.dimension.tail }) a.heap _ _ length
      rw [← hmember] at changed
      rw [if_pos (isAggr.trans agg), changed] at run
      obtain rfl := Option.some.inj run
      refine ⟨⟨List.prefix_append _ _, fun _ _ h => h, fun _ _ h => h, fun _ _ _ h => h⟩, rfl,
        fun s ne => Function.update_of_ne ne _ _, a.heap.length, ?_, ?_⟩
      · show Lies _ _ _ _ (a.heap ++ _)
        rw [leaves, List.map_map, List.map_map]
        exact Lies.made _ _ (fun _ => rfl) (fun _ => rfl)
      · refine (Function.update_self _ _ _).trans ?_
        rw [hmember, members_ptrs, visited.parents, leaves, List.length_map]
        rfl
    | false =>
      obtain ⟨rfl, -, hleaf⟩ := visited.ground agg
      rw [if_neg (by rw [isAggr.trans agg]; exact Bool.false_ne_true)] at run
      obtain rfl := Option.some.inj run
      obtain ⟨l, one⟩ : ∃ l, leaves type = [l] := by
        rw [leaves] at hleaf
        exact List.length_eq_one_iff.mp ((List.length_map _).symm.trans (congrArg List.length hleaf))
      have whole : l.within extra = info.leaf := by
        rw [leaves, one] at hleaf
        exact List.singleton_inj.mp hleaf
      have rest : dimension = l.dims := by
        have dims := congrArg Leaf.dims whole
        rw [show info.leaf.dims = num :: dimension from depth] at dims
        exact (List.tail_eq_of_cons_eq dims).symm
      refine ⟨⟨List.prefix_append _ _, fun _ _ h => h, fun _ _ h => h, fun _ _ _ h => h⟩, rfl,
        fun s ne => Function.update_of_ne ne _ _, a.heap.length, ?_, ?_⟩
      · rw [one]
        refine Lies.one List.getElem?_concat_length ?_ rest
        rw [show l.path = [] from congrArg Leaf.path whole]
        rfl
      · refine (Function.update_self _ _ _).trans ?_
        rw [one, entries_ground agg]
        rfl

theorem visitChirrtlMemPort_enters {port : MemPort} {extra : String} {addr clock : PExpr E}
    (run : visitChirrtlMemPort cfg port top name extra addr clock a = some b) : Enters a b := by
  obtain ⟨addrExp, -, run⟩ := Option.bind_eq_some_iff.mp run
  cases addrExp with
  | aggr parent forest => cases run
  | normal addrRoot =>
    obtain ⟨clkExp, -, run⟩ := Option.bind_eq_some_iff.mp run
    obtain ⟨clockNode, -, run⟩ := Option.bind_eq_some_iff.mp run
    obtain ⟨node, -, run⟩ := Option.bind_eq_some_iff.mp run
    obtain ⟨-, -, run⟩ := Option.bind_eq_some_iff.mp run
    obtain ⟨found, -, run⟩ := Option.bind_eq_some_iff.mp run
    obtain ⟨⟨nodes, mid⟩, members, run⟩ := Option.bind_eq_some_iff.mp run
    obtain ⟨⟨copies, last⟩, parents, run⟩ := Option.bind_eq_some_iff.mp run
    obtain rfl := Option.some.inj run
    exact (copyMembers_enters _ members).trans (copyParents_enters _ parents).1

/-- The ports of a memory are entered with all their bundles. -/
theorem visitChirrtlMemPort_spec {port : MemPort} {extra : String} {addr clock : PExpr E}
    (memory : MemRegistered cfg (prefixName cfg.sep_module top extra) type a)
    (run : visitChirrtlMemPort cfg port top name extra addr clock a = some b) :
    Enters a b ∧ Registered cfg ⟨prefixName cfg.sep_module top name, type, .entered⟩ b := by
  obtain ⟨base, lies, map⟩ := memory.found
  obtain ⟨addrExp, -, run⟩ := Option.bind_eq_some_iff.mp run
  cases addrExp with
  | aggr parent forest => cases run
  | normal addrRoot =>
    obtain ⟨clkExp, -, run⟩ := Option.bind_eq_some_iff.mp run
    obtain ⟨clockNode, -, run⟩ := Option.bind_eq_some_iff.mp run
    obtain ⟨node, -, run⟩ := Option.bind_eq_some_iff.mp run
    obtain ⟨-, -, run⟩ := Option.bind_eq_some_iff.mp run
    obtain ⟨found, hfound, run⟩ := Option.bind_eq_some_iff.mp run
    rw [map] at hfound
    obtain rfl := Option.some.inj hfound
    obtain ⟨⟨nodes, mid⟩, members, run⟩ := Option.bind_eq_some_iff.mp run
    obtain ⟨⟨copies, last⟩, parents, run⟩ := Option.bind_eq_some_iff.mp run
    obtain rfl := Option.some.inj run
    have renames : Renames (fun s => (replacePrefix (prefixName cfg.sep_module top extra) "" s).map
        (prefixName cfg.sep_module top name ++ ·)) (prefixName cfg.sep_module top extra)
        (prefixName cfg.sep_module top name) := by
      intro t
      simp only [replacePrefix_renames _ "" t, String.empty_append, Option.map_some]
    have names : ∀ i l, (leaves type)[i]? = some l → ∃ node, a.heap[base + i]? = some node ∧
        node.name = pathName cfg.sep_aggr (prefixName cfg.sep_module top extra) l.path := by
      intro i l hl
      obtain ⟨node, here, name, -⟩ := lies i l hl
      exact ⟨node, here, name⟩
    have enters := copyMembers_enters _ members
    obtain ⟨-, made, heap, -, each⟩ := copyMembers_spec renames (fun _ _ => rfl) (leaves type)
      names members
    have copied : Copied cfg.sep_aggr (prefixName cfg.sep_module top extra)
        (prefixName cfg.sep_module top name) base a.heap.length (leaves type) mid := by
      intro i l hl
      obtain ⟨node, here, name⟩ := names i l hl
      exact ⟨⟨node, enters.getElem here, name⟩, (each i l hl).1.1⟩
    obtain rfl := copyEntries_spec false type renames copied parents
    obtain ⟨enters', heap', aggrs⟩ := copyParents_enters _ parents
    refine ⟨enters.trans enters', a.heap.length, ?_, ?_, aggrs⟩
    · intro i l hl
      obtain ⟨node, here, -, dims⟩ := lies i l hl
      have copy := (each i l hl).2 node here
      refine ⟨visitChirrtlPort port (pathName cfg.sep_aggr (prefixName cfg.sep_module top name) l.path) node,
        ?_, rfl, dims⟩
      rw [heap', heap, List.getElem?_append_right (Nat.le_add_right _ _), Nat.add_sub_cancel_left]
      exact copy
    · exact fun i l hl => (each i l hl).1.extends' enters'.toExtends

end Memory

end Gsim.AggregateScope
