import Gsim.AggregateRefs
/-
  Gsim/AggregateConnect.lean
  ==========================
  **The connection of two aggregates** (`visitConnect`).

  A connection goes through the leaves of both sides by position and turns around where
  the flag says so.  Both sides have the leaves of one type, so that each leaf meets the
  leaf of its own path.
-/

namespace Gsim.AggregateConnect

open Gsim.ConstantRecords (NodeType)
open Gsim.AggregateType
open Gsim.AggregateScope
open Gsim.AggregateRefs

/-! ## Connections -/

section Connections

variable {E : Type}

/-- `ExpTree(root, lvalue)`. -/
structure ExpTree (E : Type) where
  root : ENode E
  lval : ENode E

/-- A tree handed to a node: to `addArrayVal` of an array, or as its `valTree`, where the trees
    before it may be cleared. -/
inductive Effect (E : Type) where
  | addArrayVal (node : Nat) (val : ExpTree E)
  | valTree (node : Nat) (val : ExpTree E) (clearsAssignTree : Bool)

def store (heap : Heap) (node : Nat) (val : ExpTree E) (clears : Bool) : Option (Effect E) := do
  let n ← heap[node]?
  some (if n.dimension = [] then .valTree node val clears else .addArrayVal node val)

/-- One leaf of the left side with its flag and the same of the right; an expression without a node
    on the assigned side is a `TODO`. -/
def connectMember (heap : Heap) (ref : ENode E × Bool) (exp : ENode E) : Option (Effect E) :=
  if ref.2 then
    match exp with
    | .ref node _ => store heap node ⟨ref.1, exp⟩ false
    | _ => none
  else
    match ref.1 with
    | .ref node _ => store heap node ⟨exp, ref.1⟩ false
    | _ => none

def connectMembers (heap : Heap) : List (ENode E × Bool) → List (ENode E × Bool) → Option (List (Effect E))
  | [], _ => some []
  | _ :: _, [] => none
  | ref :: refs, exp :: exps => do
    let effect ← connectMember heap ref exp.1
    let effects ← connectMembers heap refs exps
    some (effect :: effects)

/-- `visitConnect` for a right side that is not `invalid`. -/
def visitConnect (heap : Heap) : ASTExpTree E → ASTExpTree E → Option (List (Effect E))
  | .aggr _ refs, .aggr _ exps => connectMembers heap refs exps
  | .normal (.ref node child), .normal exp => do
    let effect ← store heap node ⟨exp, .ref node child⟩ true
    some [effect]
  | _, _ => none

end Connections

/-! ## What a connection does -/

section Connect

variable {E : Type}

def Denotes (sep : String) (heap : Heap) (side : Side E) (l : Leaf) (entry : ENode E × Bool) : Prop :=
  ∃ ptr node, entry = (.ref ptr side.idx, l.flipped) ∧ side.IsLeaf sep heap l ptr node

/-- The tree is handed to the node, through `addArrayVal` exactly if it is an array. -/
def Effect.Hands (effect : Effect E) (ptr : Nat) (node : Node) (val : ExpTree E) : Prop :=
  if node.dimension = [] then ∃ clears, effect = .valTree ptr val clears else effect = .addArrayVal ptr val

/-- The leaf of the left side takes that of the right side, or the other way round if it is flipped. -/
def Connects (sep : String) (heap : Heap) (left right : Side E) (l : Leaf) (effect : Effect E) : Prop :=
  ∃ p n q m, left.IsLeaf sep heap l p n ∧ right.IsLeaf sep heap l q m ∧
    if l.flipped then effect.Hands q m ⟨.ref p left.idx, .ref q right.idx⟩
    else effect.Hands p n ⟨.ref q right.idx, .ref p left.idx⟩

theorem store_spec {heap : Heap} {ptr : Nat} {node : Node} (here : heap[ptr]? = some node)
    (val : ExpTree E) (clears : Bool) :
    ∃ effect, store heap ptr val clears = some effect ∧ effect.Hands ptr node val := by
  unfold store Effect.Hands
  rw [here]
  by_cases array : node.dimension = []
  · exact ⟨_, rfl, by rw [if_pos array, if_pos array]; exact ⟨clears, rfl⟩⟩
  · exact ⟨_, rfl, by rw [if_neg array, if_neg array]⟩

theorem connectMember_spec {sep : String} {heap : Heap} {left right : Side E} {l : Leaf}
    {ref exp : ENode E × Bool} (hl : Denotes sep heap left l ref) (hr : Denotes sep heap right l exp) :
    ∃ effect, connectMember heap ref exp.1 = some effect ∧ Connects sep heap left right l effect := by
  obtain ⟨p, n, rfl, leafL⟩ := hl
  obtain ⟨q, m, rfl, leafR⟩ := hr
  cases flag : l.flipped with
  | true =>
    obtain ⟨effect, stored, hands⟩ := store_spec leafR.1 ⟨.ref p left.idx, .ref q right.idx⟩ false
    refine ⟨effect, stored, p, n, q, m, leafL, leafR, ?_⟩
    rw [flag]
    exact hands
  | false =>
    obtain ⟨effect, stored, hands⟩ := store_spec leafL.1 ⟨.ref q right.idx, .ref p left.idx⟩ false
    refine ⟨effect, stored, p, n, q, m, leafL, leafR, ?_⟩
    rw [flag]
    exact hands

theorem connectMembers_spec {sep : String} {heap : Heap} {left right : Side E} {ls : List Leaf}
    {refs exps : List (ENode E × Bool)} (hl : List.Forall₂ (Denotes sep heap left) ls refs)
    (hr : List.Forall₂ (Denotes sep heap right) ls exps) :
    ∃ effects, connectMembers heap refs exps = some effects ∧
      List.Forall₂ (Connects sep heap left right) ls effects := by
  induction hl generalizing exps with
  | nil => exact ⟨[], rfl, .nil⟩
  | cons first rest ih =>
    cases hr with
    | cons first' rest' =>
      obtain ⟨effect, made, connects⟩ := connectMember_spec first first'
      obtain ⟨effects, mades, all⟩ := ih rest'
      refine ⟨effect :: effects, ?_, .cons connects all⟩
      rw [connectMembers, made, mades]
      rfl

/-- A reference to a part of what has been declared. -/
def Refers (cfg : Config) (env : Env) (scope : Scope) (top : Option String) (expr : PRef E) (side : Side E)
    (part : PType) : Prop :=
  ∃ x ∈ env.signals, RefersTo cfg scope top expr x side part

theorem denotes_members {sep : String} {heap : Heap} {side : Side E} {base : Nat} {ls : List Leaf}
    (each : ∀ i l, ls[i]? = some l → ∃ node, side.IsLeaf sep heap l (base + i) node) :
    List.Forall₂ (Denotes sep heap side) ls
      ((members base ls).map fun entry => (.ref entry.1 side.idx, entry.2)) := by
  rw [List.forall₂_map_right_iff]
  apply members_forall₂
  intro i l hl
  obtain ⟨node, isLeaf⟩ := each i l hl
  exact ⟨_, node, rfl, isLeaf⟩

theorem connect_spec {cfg : Config} {scope : Scope} {env : Env} (good : env.Good cfg scope)
    (apart : env.Apart cfg scope) {top top' : Option String} {expr expr' : PRef E} {left right : Side E}
    {part : PType} (hl : Refers cfg env scope top expr left part)
    (hr : Refers cfg env scope top' expr' right part) :
    ∃ ref exp effects, visitReference cfg scope top expr = some ref ∧
      visitReference cfg scope top' expr' = some exp ∧ visitConnect scope.heap ref exp = some effects ∧
      List.Forall₂ (Connects cfg.sep_aggr scope.heap left right) (leaves part) effects := by
  obtain ⟨x, memL, refersL⟩ := hl
  obtain ⟨y, memR, refersR⟩ := hr
  cases agg : part.isAggregate with
  | true =>
    obtain ⟨base, href, eachL⟩ := reference_aggregate refersL (good.signals x memL) (apart x memL) agg
    obtain ⟨base', hexp, eachR⟩ := reference_aggregate refersR (good.signals y memR) (apart y memR) agg
    obtain ⟨effects, made, connects⟩ := connectMembers_spec (denotes_members eachL) (denotes_members eachR)
    exact ⟨_, _, effects, href, hexp, made, connects⟩
  | false =>
    obtain ⟨l, p, n, one, -, even, href, leafL⟩ :=
      reference_ground refersL (good.signals x memL) (apart x memL) agg
    obtain ⟨l', q, m, one', -, -, hexp, leafR⟩ :=
      reference_ground refersR (good.signals y memR) (apart y memR) agg
    obtain rfl : l = l' := List.singleton_inj.mp (one.symm.trans one')
    obtain ⟨effect, stored, hands⟩ := store_spec leafL.1 ⟨.ref q right.idx, .ref p left.idx⟩ true
    refine ⟨_, _, [effect], href, hexp, ?_, ?_⟩
    · rw [visitConnect, stored]
      rfl
    · rw [one]
      refine .cons ⟨p, n, q, m, leafL, leafR, ?_⟩ .nil
      rw [even]
      exact hands

end Connect

/-! ## Names that cannot clash

With the standard separators and the identifiers of the lexer, which have no `$`, the name
of a path with fields is no instance's name.  What is left is that a declaration and an
instance of one module have different names. -/

/-- The separators that are set when no option changes them. -/
def standard : Config := ⟨"$", "$$"⟩

def Identifier (s : String) : Prop := s.toList ≠ [] ∧ '$' ∉ s.toList

/-- A path of module instances. -/
inductive ModuleName : String → Prop where
  | outer {s : String} (id : Identifier s) : ModuleName s
  | inner {t s : String} (outer : ModuleName t) (id : Identifier s) : ModuleName (t ++ "$" ++ s)

/-- Not both are separators. -/
def Adjacent (a b : Char) : Prop := ¬ (a = '$' ∧ b = '$')

theorem Identifier.ne {s : String} (id : Identifier s) {a : Char} (ha : a ∈ s.toList) : a ≠ '$' := by
  rintro rfl
  exact id.2 ha

theorem Identifier.adjacent {s : String} (id : Identifier s) : s.toList.IsChain Adjacent := by
  apply List.isChain_iff_forall_rel_of_append_cons_cons.mpr
  intro a b front behind eq both
  refine id.ne ?_ both.1
  rw [eq]
  exact List.mem_append_right _ List.mem_cons_self

theorem ModuleName.adjacent {s : String} (h : ModuleName s) :
    s.toList.IsChain Adjacent ∧ ∀ a ∈ s.toList.getLast?, a ≠ '$' := by
  induction h with
  | outer id => exact ⟨id.adjacent, fun a ha => id.ne (List.mem_of_getLast? ha)⟩
  | @inner t s outer id ih =>
    have chars : (t ++ "$" ++ s).toList = t.toList ++ '$' :: s.toList := by
      rw [String.toList_append, String.toList_append, List.append_assoc]
      rfl
    rw [chars]
    refine ⟨List.isChain_append.mpr ⟨ih.1, List.isChain_cons.mpr ⟨?_, id.adjacent⟩, ?_⟩, ?_⟩
    · exact fun b hb both => id.ne (List.mem_of_head? hb) both.2
    · exact fun a ha b _ both => ih.2 a ha both.1
    · intro a ha
      rw [List.getLast?_append_of_ne_nil _ (List.cons_ne_nil _ _), List.getLast?_cons_of_ne_nil id.1] at ha
      exact id.ne (List.mem_of_getLast? ha)

theorem pathName_prefix (sep top : String) (path : List String) :
    ∃ rest, pathName sep top path = top ++ rest := by
  induction path generalizing top with
  | nil => exact ⟨"", (String.append_empty).symm⟩
  | cons f path ih =>
    obtain ⟨rest, eq⟩ := ih (top ++ sep ++ f)
    refine ⟨sep ++ f ++ rest, ?_⟩
    show pathName sep (top ++ sep ++ f) path = _
    rw [eq, String.append_assoc, String.append_assoc, String.append_assoc]

theorem not_moduleName_pathName (root f : String) (path : List String) :
    ¬ ModuleName (pathName "$$" root (f :: path)) := by
  intro h
  obtain ⟨rest, eq⟩ := pathName_prefix "$$" (root ++ "$$" ++ f) path
  have chars : (root ++ "$$" ++ f ++ rest).toList = root.toList ++ '$' :: '$' :: (f ++ rest).toList := by
    rw [String.toList_append, String.toList_append, String.toList_append, String.toList_append,
      List.append_assoc, List.append_assoc]
    rfl
  have chain := h.adjacent.1
  rw [show pathName "$$" root (f :: path) = _ from eq, chars] at chain
  exact (List.isChain_append_cons_cons.mp chain).2.1 ⟨rfl, rfl⟩

/-- Instances and memories are named by paths of identifiers. -/
def Proper {E : Type} (d : Decl E) : Prop := ∀ s, taken standard d = some s → ModuleName s

theorem elaborated_instances {E : Type} {cfg : Config} {start scope : Scope} {decls : List (Decl E)} {env : Env}
    (h : Elaborated cfg start decls scope env) (s : String) : scope.moduleInstances s = true ↔
      start.moduleInstances s = true ∨ ∃ d ∈ decls, taken cfg d = some s := by
  induction h with
  | nil => rw [or_iff_left (fun ⟨_, mem, _⟩ => absurd mem List.not_mem_nil)]
  | @snoc decls d scope scope' env env' before run declares ih =>
    rw [(declares.instances run).2 s, ih, or_assoc]
    refine or_congr_right ⟨?_, ?_⟩
    · rintro (⟨d', mem, h⟩ | h)
      · exact ⟨d', List.mem_append_left _ mem, h⟩
      · exact ⟨d, List.mem_append_right _ (List.mem_singleton_self _), h⟩
    · rintro ⟨d', mem, h⟩
      rcases List.mem_append.mp mem with mem | mem
      · exact .inl ⟨d', mem, h⟩
      · obtain rfl := List.mem_singleton.mp mem
        exact .inr h

/-- In a design from nothing it is enough that no declaration is named as an instance or a memory. -/
theorem apart_standard {E : Type} {start scope : Scope} {decls : List (Decl E)} {env : Env}
    (h : Elaborated standard start decls scope env) (noInst : ∀ s, start.moduleInstances s = false)
    (proper : ∀ d ∈ decls, Proper d)
    (roots : ∀ x ∈ env.signals, ∀ d ∈ decls, taken standard d ≠ some x.root) : env.Apart standard scope := by
  intro x mem b _
  rw [Bool.eq_false_iff]
  intro inst
  rcases (elaborated_instances h _).mp inst with inst | ⟨d, hd, named⟩
  · rw [noInst] at inst
    cases inst
  · cases path : b.path with
    | nil =>
      rw [path] at named
      exact roots x mem d hd named
    | cons f path' =>
      rw [path] at named
      exact not_moduleName_pathName x.root f path' (proper d hd _ named)

/-! ## The whole -/

/-- An entry lists the leaves of its bundle in order: each with the parity of the flips below the
    bundle, and a pointer to the node of the whole path with all the vectors on it. -/
def Listed (sep top : String) (heap : Heap) (b : Bundle) (entry : AggrParentNode) : Prop :=
  entry.name = pathName sep top b.path ∧
    List.Forall₂ (fun l (member : Nat × Bool) => member.2 = l.flipped ∧
      ∃ node, heap[member.1]? = some node ∧ node.name = pathName sep top (b.path ++ l.path) ∧
        node.dimension = b.dims ++ l.dims) b.leaves entry.member

/-- What `visitType` makes of an aggregate: a node for each ground path, and the list of each bundle. -/
structure Flattened (sep : String) (type : PType) (top : String) (parentType : NodeType) (heap : Heap)
    (r : TypeInfo × Heap) : Prop where
  nodes : r.2 = heap ++ (leaves type).map (Leaf.node sep top parentType)
  aggrMember : Listed sep top r.2 ⟨[], 0, [], 0, leaves type⟩ ⟨top, r.1.aggrMember, r.1.aggrParent⟩
  aggrParent : List.Forall₂ (Listed sep top r.2) (bundles type) r.1.aggrParent

/-- Where the node of a leaf of a bundle is. -/
theorem segment_node {sep root : String} {parentType : NodeType} {before : Heap} {ls : List Leaf}
    {b : Bundle} (segment : Segment ls b) {i : Nat} {l : Leaf} (hl : b.leaves[i]? = some l) :
    (before ++ ls.map (Leaf.node sep root parentType))[before.length + b.offset + i]? =
      some ((b.place l).node sep root parentType) := by
  obtain ⟨front, after, eq, length⟩ := segment
  have inside : i < (b.leaves.map b.place).length := by
    rw [List.length_map]
    exact (List.getElem?_eq_some_iff.mp hl).1
  have place : ls[b.offset + i]? = some (b.place l) := by
    rw [eq, List.append_assoc, ← length, List.getElem?_append_right (Nat.le_add_right _ _),
      Nat.add_sub_cancel_left, List.getElem?_append_left inside, List.getElem?_map, hl]
    rfl
  rw [Nat.add_assoc, List.getElem?_append_right (Nat.le_add_right _ _), Nat.add_sub_cancel_left,
    List.getElem?_map, place]
  rfl

theorem listed_of_segment {sep top : String} {parentType : NodeType} {heap : Heap} {ls : List Leaf}
    {b : Bundle} {entry : AggrParentNode} (segment : Segment ls b)
    (lists : Lists sep top heap.length entry b) :
    Listed sep top (heap ++ ls.map (Leaf.node sep top parentType)) b entry := by
  obtain ⟨name, member⟩ := lists
  refine ⟨name, ?_⟩
  rw [member]
  apply members_forall₂
  intro i l hl
  exact ⟨rfl, (b.place l).node sep top parentType, segment_node segment hl, rfl, rfl⟩

theorem visitType_flattened (sep : String) (type : PType) (top : String) (parentType : NodeType)
    (heap : Heap) (agg : type.isAggregate = true) :
    Flattened sep type top parentType heap (visitType sep type top parentType heap) := by
  have visited := visitType_visited sep type top parentType heap
  obtain ⟨nodes, member⟩ := visited.aggregate agg
  have whole : Segment (leaves type) ⟨[], 0, [], 0, leaves type⟩ := by
    refine ⟨[], [], ?_, rfl⟩
    rw [place_whole, List.append_nil, List.nil_append]
  refine ⟨nodes, ?_, ?_⟩
  · rw [nodes]
    exact listed_of_segment whole ⟨rfl, member⟩
  · rw [nodes, visited.parents]
    have lists := (entries_lists sep true type top heap.length).flip
    have each := (List.forall₂_and_left _ _).mpr ⟨bundles_segment type, lists⟩
    exact each.imp fun b entry h => listed_of_segment h.1 h.2

/-- Flattening follows the structure of the type, and two references to one type are connected
    leaf by leaf, an unflipped leaf from the right side to the left one. -/
theorem flattening_structural (cfg : Config) :
    (∀ type top parentType heap, type.isAggregate = true →
      Flattened cfg.sep_aggr type top parentType heap
        (visitType cfg.sep_aggr type top parentType heap)) ∧
    ∀ {E : Type} (start scope : Scope) (decls : List (Decl E)) (env : Env),
      Elaborated cfg start decls scope env → env.Apart cfg scope →
      ∀ (top top' : Option String) (expr expr' : PRef E) (left right : Side E) (part : PType),
        Refers cfg env scope top expr left part → Refers cfg env scope top' expr' right part →
        ∃ ref exp effects, visitReference cfg scope top expr = some ref ∧
          visitReference cfg scope top' expr' = some exp ∧
          visitConnect scope.heap ref exp = some effects ∧
          List.Forall₂ (Connects cfg.sep_aggr scope.heap left right) (leaves part) effects := by
  refine ⟨visitType_flattened cfg.sep_aggr, ?_⟩
  intro E start scope decls env elaborated apart top top' expr expr' left right part hl hr
  exact connect_spec (elaborated.good apart) apart hl hr

/-! ## A plain and a flipped field -/

def emptyScope : Scope := ⟨[], fun _ => none, fun _ => none, fun _ => false, fun _ => none⟩

/-- `{a : UInt<1>, flip b : UInt<2>[3]}`. -/
def handshake : PType :=
  .P_AG_FIELDS (.cons (.mk false "a" (.P_INT_TYPE 1 false))
    (.cons (.mk true "b" (.P_AG_ARRAY (.P_INT_TYPE 2 false) 3)) .nil))

/-- A port, a memory with a port, a node that selects between the two, and a register. -/
def handshakes : List (Decl Unit) :=
  [.wire (some "t") "clk" .P_Clock, .port .NODE_OTHERS (some "t") "x" handshake,
   .mem (some "t") "m" (.P_AG_ARRAY handshake 4),
   .memPort .P_READ (some "t") "p" "m" (.other ()) (.P_REF ⟨"clk", []⟩),
   .node (some "t") "n" (.P_EXPR_MUX (.other ()) (.P_REF ⟨"x", []⟩) (.P_REF ⟨"p", []⟩)),
   .reg (some "t") "y" handshake (.P_REF ⟨"clk", []⟩) none]

/-- They are accepted, and five of them have a name for a connection. -/
theorem handshakes_elaborated : ∃ scope env, Elaborated standard emptyScope handshakes scope env ∧
    env.signals = [⟨"t$y", handshake, .linked⟩, ⟨"t$n", handshake, .linked⟩, ⟨"t$p", handshake, .entered⟩,
      ⟨"t$x", handshake, .linked⟩, ⟨"t$clk", .P_Clock, .linked⟩] := by
  have accepted : (handshakes.foldlM (visitDecl standard) emptyScope).isSome = true := by decide +kernel
  obtain ⟨scope, run⟩ := Option.isSome_iff_exists.mp accepted
  clear accepted
  simp only [handshakes, List.foldlM_cons] at run
  obtain ⟨_, clk, run⟩ := Option.bind_eq_some_iff.mp run
  obtain ⟨_, x, run⟩ := Option.bind_eq_some_iff.mp run
  obtain ⟨_, m, run⟩ := Option.bind_eq_some_iff.mp run
  obtain ⟨_, p, run⟩ := Option.bind_eq_some_iff.mp run
  obtain ⟨_, n, run⟩ := Option.bind_eq_some_iff.mp run
  obtain ⟨_, y, -⟩ := Option.bind_eq_some_iff.mp run
  have ports := (((Elaborated.nil.snoc clk .wire).snoc x .port).snoc m .mem).snoc p (.memPort rfl)
  have node := ports.snoc n (.node (.mux (.ref (List.mem_cons_of_mem _ List.mem_cons_self) (RefersTo.name rfl))))
  exact ⟨_, _, node.snoc y .reg, rfl⟩

/-- The register takes the value of the node. -/
theorem flattening_structural_handshakes : ∃ scope env, Elaborated standard emptyScope handshakes scope env ∧
    ∃ ref exp effects, visitReference standard scope (some "t") (⟨"y", []⟩ : PRef Unit) = some ref ∧
      visitReference standard scope (some "t") (⟨"n", []⟩ : PRef Unit) = some exp ∧
      visitConnect scope.heap ref exp = some effects ∧
      List.Forall₂ (Connects "$$" scope.heap ⟨"t$y", [], [], []⟩ ⟨"t$n", [], [], []⟩)
        (leaves handshake) effects := by
  obtain ⟨scope, env, elaborated, signals⟩ := handshakes_elaborated
  have apart : env.Apart standard scope := by
    apply apart_standard elaborated (fun _ => rfl)
    · intro d mem s named
      have memory : ∀ d ∈ handshakes, taken standard d = none ∨ taken standard d = some ("t" ++ "$" ++ "m") := by
        decide
      rcases memory d mem with none | some
      · rw [none] at named
        cases named
      · obtain rfl := Option.some.inj (some.symm.trans named)
        exact .inner (.outer ⟨by decide, by decide⟩) ⟨by decide, by decide⟩
    · rw [signals]
      decide
  have left : (⟨"t$y", handshake, .linked⟩ : Entered) ∈ env.signals := by
    rw [signals]
    exact List.mem_cons_self
  have right : (⟨"t$n", handshake, .linked⟩ : Entered) ∈ env.signals := by
    rw [signals]
    exact List.mem_cons_of_mem _ List.mem_cons_self
  exact ⟨scope, env, elaborated, (flattening_structural standard).2 emptyScope scope handshakes env elaborated
    apart _ _ _ _ _ _ handshake ⟨_, left, RefersTo.name rfl⟩ ⟨_, right, RefersTo.name rfl⟩⟩

/-- A memory's port of a type with a bundle inside, and a node that copies it. -/
def copies : List (Decl Unit) :=
  [.wire (some "t") "clk" .P_Clock,
   .mem (some "t") "m" (.P_AG_ARRAY (.P_AG_FIELDS (.cons (.mk false "c" handshake) .nil)) 4),
   .memPort .P_READ (some "t") "p" "m" (.other ()) (.P_REF ⟨"clk", []⟩),
   .node (some "t") "n" (.P_REF ⟨"p", []⟩)]

/-- The bundle inside is found below the port, but not below the node. -/
example : (copies.foldlM (visitDecl standard) emptyScope).any (fun scope =>
    (visitReference standard scope (some "t") (⟨"p", [.P_REF_DOT "c"]⟩ : PRef Unit)).isSome &&
    (visitReference standard scope (some "t") (⟨"n", [.P_REF_DOT "c"]⟩ : PRef Unit)).isNone) = true := by
  decide +kernel

/-- The node that an effect is on. -/
def Effect.node {E : Type} : Effect E → Nat
  | .addArrayVal node _ => node
  | .valTree node _ _ => node

def wires : List (Decl Unit) := [.wire (some "t") "x" handshake, .wire (some "t") "y" handshake]

/-- It is the plain leaf of the left side that takes the value from the right, not the flipped one. -/
theorem not_toLeft_iff_flipped : ∃ scope parent forest exp effects,
    wires.foldlM (visitDecl standard) emptyScope = some scope ∧
    visitReference standard scope (some "t") (⟨"x", []⟩ : PRef Unit) = some (.aggr parent forest) ∧
    visitReference standard scope (some "t") (⟨"y", []⟩ : PRef Unit) = some exp ∧
    visitConnect scope.heap (.aggr parent forest) exp = some effects ∧
    ¬ List.Forall₂ (fun l effect => l.flipped = true ↔ effect.node ∈ parent.member.map Prod.fst)
      (leaves handshake) effects := by
  refine ⟨_, _, _, _, _, rfl, rfl, rfl, rfl, ?_⟩
  intro all
  have first := (List.forall₂_cons.mp all).1
  exact absurd (first.mpr (by decide)) (by decide)

end Gsim.AggregateConnect
