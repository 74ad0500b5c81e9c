/-
  Gsim/StmtTree.lean
  ==================
  **The statement tree of a super node** (`src/StmtTree.cpp`).

  The members of a super node are reordered along their dependencies
  (`SuperNode::reorderMember`); then every assignment tree is merged into one
  statement tree (`StmtTree::mergeExpTree`): whens over equal conditions are shared,
  and an assignment goes to the earliest place that the *paths* of the members it
  depends on leave open.  What an operator computes is a parameter (`Interp`): nothing
  here depends on it.
-/
import Gsim.GuardedLanguage
import Gsim.Kahn

namespace Gsim.StmtTree

open GuardedStatements

abbrev NodeId := ℕ
abbrev MemId := ℕ

/-! ## Expressions -/

/-- `enum OPType`, without the conditionals, the memory accesses and `OP_INVALID`,
which are no expressions here. -/
inductive OPType
  | empty | mux | add | sub | mul | div | rem | lt | leq | gt | geq | eq | neq | dshl | dshr
  | and | or | xor | cat | asUInt | asSInt | asClock | asAsyncReset | cvt | neg | not | andr
  | orr | xorr | pad | shl | shr | head | tail | bits | bitsNoShift | indexInt | index | printf
  | assert | exit | int | group | sext | extFunc
  deriving DecidableEq

mutual
/-- An expression node; `nodePtr` is the node it refers to, if any. -/
inductive ENode
  | mk (opType : OPType) (width : ℤ) (sign : Bool) (strVal : String) (values : List ℤ)
      (nodePtr : Option NodeId) (child : Children)

/-- The children of an expression node, some of which may be null. -/
inductive Children
  | nil
  | null (rest : Children)
  | cons (e : ENode) (rest : Children)
end

mutual
def checkCondENodeSame : ENode → ENode → Bool
  | .mk op₁ w₁ s₁ str₁ v₁ n₁ c₁, .mk op₂ w₂ s₂ str₂ v₂ n₂ c₂ =>
    op₁ == op₂ && w₁ == w₂ && s₁ == s₂ && (op₁ != .int || str₁ == str₂) && v₁ == v₂ &&
      n₁ == n₂ && checkChildrenSame c₁ c₂

def checkChildrenSame : Children → Children → Bool
  | .nil, .nil => true
  | .null r₁, .null r₂ => checkChildrenSame r₁ r₂
  | .cons e₁ r₁, .cons e₂ r₂ => checkCondENodeSame e₁ e₂ && checkChildrenSame r₁ r₂
  | _, _ => false
end

mutual
def ENode.relyNodes : ENode → List NodeId
  | .mk _ _ _ _ _ n c => n.toList ++ c.relyNodes

def Children.relyNodes : Children → List NodeId
  | .nil => []
  | .null r => r.relyNodes
  | .cons e r => e.relyNodes ++ r.relyNodes
end

def ENode.nodePtr : ENode → Option NodeId
  | .mk _ _ _ _ _ n _ => n

def ENode.childless : ENode → Bool
  | .mk _ _ _ _ _ _ .nil => true
  | _ => false

/-- What the operators mean.  A value may be an array: it has an entry for each index. -/
structure Interp (V : Type) where
  apply : OPType → ℤ → Bool → String → List ℤ → Option (List ℕ → V) →
    List (Option (List ℕ → V)) → List ℕ → V
  index : (List ℕ → V) → ℕ
  truth : (List ℕ → V) → Bool

mutual
def ENode.eval {V : Type} (I : Interp V) (s : NodeId → List ℕ → V) : ENode → List ℕ → V
  | .mk op w sg str v n c =>
    -- only a literal has a text
    I.apply op w sg (if op = .int then str else "") v (n.map s) (c.eval I s)

def Children.eval {V : Type} (I : Interp V) (s : NodeId → List ℕ → V) :
    Children → List (Option (List ℕ → V))
  | .nil => []
  | .null r => none :: r.eval I s
  | .cons e r => some (e.eval I s) :: r.eval I s
end

/-! ## Assignments -/

/-- The right-hand side at a leaf of an assignment tree. -/
inductive Rvalue
  | invalid
  | expr (e : ENode)
  | readMem (mem : MemId) (addr : ENode)
  | writeMem (mem : MemId) (addr data : ENode)

def Rvalue.relyNodes : Rvalue → List NodeId
  | .invalid => []
  | .expr e => e.relyNodes
  | .readMem _ addr => addr.relyNodes
  | .writeMem _ addr data => addr.relyNodes ++ data.relyNodes

def Rvalue.isInvalid : Rvalue → Bool
  | .invalid => true
  | _ => false

structure Lvalue where
  node : NodeId
  isArray : Bool
  index : List ENode

/-- `ExpTree(enode, lvalue)` with an unconditional root. -/
structure Leaf where
  lval : Lvalue
  rval : Rvalue

abbrev Block := List (Stmt Leaf ENode)
abbrev Guarded := Tree Leaf ENode

/-- An assignment tree: the `OP_WHEN` and `OP_RESET` nodes at the top of its root and
the index expressions of its left-hand side. -/
structure ExpTree where
  root : Tree Rvalue ENode
  index : List ENode

def treeOf (lval : Lvalue) : Tree Rvalue ENode → Guarded
  | .absent => .absent
  | .leaf r => .leaf ⟨lval, r⟩
  | .when c t f => .when c (treeOf lval t) (treeOf lval f)

def rootRelyNodes : Tree Rvalue ENode → List NodeId
  | .absent => []
  | .leaf r => r.relyNodes
  | .when c t f => c.relyNodes ++ (rootRelyNodes t ++ rootRelyNodes f)

/-- `ExpTree::getRelyNodes`. -/
def ExpTree.relyNodes (tree : ExpTree) : List NodeId :=
  rootRelyNodes tree.root ++ tree.index.flatMap ENode.relyNodes

/-! ## Nodes -/

inductive NodeType
  | regSrc
  | reader
  | writer
  | readWriter
  | other
  deriving DecidableEq

structure Node where
  id : NodeId
  type : NodeType
  isArray : Bool
  /-- the memory and the address of a memory port -/
  port : Option (MemId × ENode)
  /-- the condition and the value of `resetTree`, and whether the reset is asynchronous -/
  resetTree : Option (ENode × ENode)
  asyReset : Bool
  /-- `getDst()` of a register -/
  dst : Option NodeId
  /-- `regSplit && getDst()->status == VALID_NODE` -/
  dstSplit : Bool
  assignTree : List ExpTree

namespace Node

def relyNodes (n : Node) : List NodeId := n.assignTree.flatMap ExpTree.relyNodes

def memory (n : Node) : Option MemId := n.port.map Prod.fst

def resetCondNodes (n : Node) : List NodeId :=
  if n.asyReset then (n.resetTree.map fun r => r.1.relyNodes).getD [] else []

def resetValNodes (n : Node) : List NodeId := (n.resetTree.map fun r => r.2.relyNodes).getD []

/-- `next`: the nodes whose assignment trees read this one (`Node::updateConnect`). -/
def isNext (n m : Node) : Bool := m.type != .regSrc && m.relyNodes.contains n.id

/-- `p ∈ depPrev(n)`, as `Node::updateConnect` and `Node::updateDep` build it for the
members of a super node: a node follows the nodes it reads and a write port the read
ports of its memory; the source of a register goes before the nodes it reads.  Of the edges
that asynchronous resets add, those of registers among the members are counted; one whose
source is in another super node may add more between two members. -/
def depPrev (member : List Node) (n p : Node) : Bool :=
  (n.type != .regSrc && n.relyNodes.contains p.id) ||
  (p.type == .regSrc && p.relyNodes.contains n.id) ||
  (p.type == .reader && n.type == .writer && p.memory.isSome && p.memory == n.memory) ||
  (p.type == .regSrc && p.resetCondNodes.contains n.id) ||
  (member.any fun r => r.type == .regSrc && r.resetCondNodes.contains p.id &&
    (r.isNext n || r.dst == some n.id)) ||
  (p.type == .regSrc && n.type == .regSrc && p.resetValNodes.contains n.id) ||
  (n.type == .regSrc && p.type != .regSrc && n.resetValNodes.contains p.id)

/-- The lvalue of the node's own trees. -/
def lval (n : Node) (tree : ExpTree) : Lvalue := ⟨n.id, n.isArray, tree.index⟩

/-- The root is the register's next value itself. -/
def isPlainDst (d : NodeId) (tree : ExpTree) : Bool :=
  match tree.root with
  | .leaf (.expr e) => e.nodePtr == some d && e.childless
  | _ => false

/-- The tree, and for a split register with asynchronous reset the same tree for the
next value. -/
def treesOf (n : Node) (tree : ExpTree) : List Guarded :=
  treeOf (n.lval tree) tree.root ::
    match n.dst with
    | some d =>
      if n.type == .regSrc && n.asyReset && n.dstSplit && !isPlainDst d tree then
        [treeOf { n.lval tree with node := d } tree.root]
      else []
    | none => []

/-- The trees of the node in the order in which they are merged. -/
def trees (n : Node) : List Guarded := n.assignTree.flatMap n.treesOf

end Node

/-! ## Paths -/

def addDepthPath (path : List ℕ) (depth nodeIdx : ℕ) : List ℕ :=
  if path.length ≤ depth then path ++ [nodeIdx]
  else if path.getD depth 0 < nodeIdx then path.take depth ++ [nodeIdx]
  else path

def isFirst : List ℕ → List ℕ → Bool
  | [], _ => false
  | _ :: _, [] => true
  | x :: p, y :: q => if y < x then true else if x < y then false else isFirst p q

def maxPath (path₁ path₂ : List ℕ) : List ℕ := if isFirst path₁ path₂ then path₁ else path₂

/-- The merge of one predecessor's path in `prevOrderPath`: larger entries are taken
over until one is smaller. -/
def mergePath : List ℕ → List ℕ → List ℕ
  | prevPath, [] => prevPath
  | [], x :: path => x :: path
  | y :: prevPath, x :: path =>
    if y ≤ x then x :: mergePath prevPath path else y :: prevPath

/-- `member` is in rank order already. -/
def prevOrderPath (member : List Node) (allPath : NodeId → List ℕ) (n : Node) : List ℕ :=
  ((member.filter fun p => n.depPrev member p).map fun p => allPath p.id).foldl mergePath []

/-! ## Merging one tree -/

/-- The loop that erases the assignments to `n`: the child that moves into the place
of an erased one is skipped. -/
def eraseAssigned (n : NodeId) : Block → Block
  | [] => []
  | [.node a] => if a.lval.node = n then [] else [.node a]
  | .node a :: x :: S =>
    if a.lval.node = n then x :: eraseAssigned n S else .node a :: eraseAssigned n (x :: S)
  | x :: S => x :: eraseAssigned n S

/-- `Avoid xxx = yyy; ... ... xxx = zzz;` -/
def dedupe (a : Leaf) (S : Block) : Block :=
  if !a.lval.isArray && !a.rval.isInvalid then eraseAssigned a.lval.node S else S

/-- The earliest assignment or sequence takes the new assignment; otherwise it is
appended. -/
def place (a : Leaf) : Block → Block × ℕ
  | [] => ([.node a], 0)
  | .node b :: S => (.seq [b, a] :: S, 0)
  | .seq as :: S => (.seq (as ++ [a]) :: S, 0)
  | .when c t f :: S => (.when c t f :: (place a S).1, (place a S).2 + 1)

/-- An unconditional assignment, with the rest of the limiting path; the index of the
child that took it. -/
def insertLeaf (S : Block) (limit : List ℕ) (a : Leaf) : Block × ℕ :=
  let S := dedupe a S
  let start := min S.length (limit.headD 0)
  (S.take start ++ (place a (S.drop start)).1, start + (place a (S.drop start)).2)

/-- The first when over the same condition that is not before `start`. -/
def findWhen (c : ENode) (start : ℕ) : ℕ → Block → Option (ℕ × ENode × Block × Block)
  | _, [] => none
  | i, .when c' t f :: S =>
    if checkCondENodeSame c c' && start ≤ i then some (i, c', t, f) else findWhen c start (i + 1) S
  | i, _ :: S => findWhen c start (i + 1) S

/-- `generateWhenTree` below its root: every new sequence gets its first child, so the
indices are zero. -/
def generatePath : ℕ → Guarded → List ℕ → List ℕ
  | _, .absent, subPath => subPath
  | depth, .leaf _, subPath => addDepthPath subPath depth 0
  | depth, .when _ t f, subPath =>
    generatePath (depth + 1) t (generatePath (depth + 1) f (addDepthPath subPath depth 0))

/-- The path that `generateWhenTree` returns for a when over `t` and `f` appended
behind `childNum` children; the root itself adds no entry. -/
def whenTreePath (childNum : ℕ) (t f : Guarded) : List ℕ :=
  generatePath 2 t (generatePath 2 f (addDepthPath [] 0 childNum))

def addSubPath (nodePath : List ℕ) (depth : ℕ) : List ℕ → List ℕ
  | [] => nodePath
  | x :: subPath => addSubPath (addDepthPath nodePath depth x) (depth + 1) subPath

/-- The loop of `mergeExpTree` on one sequence.  `limit` is the limiting path from the
depth of the sequence's children on, empty when nothing limits any more.  The else
branch is taken from the stack first. -/
def merge : Guarded → Block → List ℕ → ℕ → List ℕ → Block × List ℕ
  | .absent, S, _, _, nodePath => (S, nodePath)
  | .leaf a, S, limit, depth, nodePath =>
    ((insertLeaf S limit a).1, addDepthPath nodePath depth (insertLeaf S limit a).2)
  | .when c t f, S, limit, depth, nodePath =>
    match findWhen c (limit.headD 0) 0 S with
    | some (i, c', T, F) =>
      let nextLimit := if limit.headD 0 < i then [] else limit.tail
      let (F', nodePath) := merge f F nextLimit (depth + 1) (addDepthPath nodePath depth i)
      let (T', nodePath) := merge t T nextLimit (depth + 1) nodePath
      (S.set i (.when c' T' F'), nodePath)
    | none =>
      (S ++ [.when c t.toBlock f.toBlock],
        addSubPath nodePath depth (whenTreePath S.length t f))

def mergeExpTree (prevPath : List ℕ) (st : Block × List ℕ) (tree : Guarded) : Block × List ℕ :=
  merge tree st.1 ((maxPath prevPath st.2).drop 1) 1 (addDepthPath st.2 0 0)

/-! ## The super node -/

/-- One member in the loop of `generateStmtTree`. -/
def mergeMember (member : List Node) (st : Block × (NodeId → List ℕ)) (n : Node) :
    Block × (NodeId → List ℕ) :=
  let merged := n.trees.foldl (mergeExpTree (prevOrderPath member st.2 n)) (st.1, [])
  (merged.1, Function.update st.2 n.id merged.2)

def generateStmtTree (member : List Node) : Block :=
  (member.foldl (mergeMember member) ([], fun _ => [])).1

/-- The successors of the member of rank `u` among the members, by rank. -/
def depNextRanks (member : List Node) (u : ℕ) : List ℕ :=
  (List.range member.length).filter fun v =>
    match member[u]?, member[v]? with
    | some p, some n => n.depPrev member p
    | _, _ => false

/-- `nodePrev`: the number of predecessors in the super node. -/
def nodePrev (member : List Node) (v : ℕ) : ℕ :=
  ((List.range member.length).filter fun u => (depNextRanks member u).contains v).length

/-- Topological reorder with the frontier kept sorted by rank; `none` is the failed
assertion. -/
def reorderMember (member : List Node) : Option (List Node) :=
  let st := Kahn.run (depNextRanks member) (Kahn.Queue.priority fun u v => u < v) member.length
    (Kahn.start member.length (nodePrev member) ())
  if st.order.length = member.length then some (st.order.filterMap fun v => member[v]?) else none

/-! ## Execution -/

structure State (V : Type) where
  node : NodeId → List ℕ → V
  mem : MemId → ℕ → List ℕ → V

/-- An assignment to the entry or subarray at `index`. -/
def store {V : Type} (old : List ℕ → V) (index : List ℕ) (value : List ℕ → V) : List ℕ → V :=
  fun ix => if index <+: ix then value (ix.drop index.length) else old ix

section Execution

variable {V : Type} (I : Interp V)

def Lvalue.place (lval : Lvalue) (s : NodeId → List ℕ → V) : List ℕ :=
  lval.index.map fun e => I.index (e.eval I s)

def runLeaf (a : Leaf) (s : State V) : State V :=
  let set value :=
    { s with node := Function.update s.node a.lval.node
              (store (s.node a.lval.node) (a.lval.place I s.node) value) }
  match a.rval with
  | .invalid => s
  | .expr e => set (e.eval I s.node)
  | .readMem m addr => set (s.mem m (I.index (addr.eval I s.node)))
  | .writeMem m addr data =>
    let α := I.index (addr.eval I s.node)
    { s with mem := Function.update s.mem m (Function.update (s.mem m) α
              (store (s.mem m α) (a.lval.place I s.node) (data.eval I s.node))) }

def meaning : Meaning Leaf ENode (State V) where
  run := runLeaf I
  holds c s := I.truth (c.eval I s.node)

/-- The members' assignment trees, one after the other. -/
def execMembers (member : List Node) (s : State V) : State V :=
  (member.flatMap Node.trees).foldl (fun s t => t.exec (meaning I) s) s

end Execution

end Gsim.StmtTree
