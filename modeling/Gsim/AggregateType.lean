import Mathlib.Data.List.Forall2
import Mathlib.Logic.Function.Iterate
import Gsim.ConstantRecords
/-
  Gsim/AggregateType.lean
  =======================
  **Flattening an aggregate type** (`visitType`).

  A type becomes one node for each of its ground paths.  The nodes are shared: every
  bundle on the way keeps a list of pointers to the leaves below it, with a flag for
  each, and a vector further out changes the dimensions of the same nodes later.  The
  flags are copied where a list is made, so that each bundle counts the flips below
  itself and no others.
-/

namespace Gsim.AggregateType

open Gsim.ConstantRecords (NodeType)

/-! ## Types and nodes -/

inductive ResetType where
  | UNCERTAIN
  | ASYRESET
  | UINTRESET
  | ZERO_RESET
deriving DecidableEq, Repr

mutual

/-- The syntax tree of a type.  The size of a vector is what `p_stoi` makes of its `extra`. -/
inductive PType where
  | P_Clock
  | P_INT_TYPE (width : Int) (sign : Bool)
  | P_RESET
  | P_ASYRESET
  | P_AG_FIELDS (fields : PFields)
  | P_AG_ARRAY (type : PType) (extra : Int)

/-- `P_FIELD` or `P_FLIP_FIELD`. -/
inductive PField where
  | mk (flip : Bool) (name : String) (type : PType)

inductive PFields where
  | nil
  | cons (field : PField) (rest : PFields)

end

/-- What the flattening writes of a `Node`. -/
structure Node where
  type : NodeType
  name : String
  width : Int
  sign : Bool
  isClock : Bool
  reset : ResetType
  dimension : List Int
deriving DecidableEq, Repr

/-- A `Node *` is an index of the heap. -/
abbrev Heap := List Node

/-- The leaves below a bundle, each with its flag, and the bundles inside of it. -/
structure AggrParentNode where
  name : String
  member : List (Nat × Bool)
  parent : List AggrParentNode

structure TypeInfo where
  width : Int
  sign : Bool
  clock : Bool
  reset : ResetType
  dimension : List Int
  aggrMember : List (Nat × Bool)
  aggrParent : List AggrParentNode

namespace TypeInfo

def new : TypeInfo :=
  { width := 0, sign := false, clock := false, reset := .UNCERTAIN, dimension := [],
    aggrMember := [], aggrParent := [] }

def isAggr (info : TypeInfo) : Bool := !info.aggrParent.isEmpty

def add (info : TypeInfo) (node : Nat) (isFlip : Bool) : TypeInfo :=
  { info with aggrMember := info.aggrMember ++ [(node, isFlip)] }

def mergeInto (info other : TypeInfo) : TypeInfo :=
  { info with
    aggrMember := info.aggrMember ++ other.aggrMember
    aggrParent := info.aggrParent ++ other.aggrParent }

/-- `addDim`: the members are changed where they are. -/
def addDim (info : TypeInfo) (num : Int) (heap : Heap) : TypeInfo × Heap :=
  if info.isAggr then
    ({ info with dimension := num :: info.dimension },
      info.aggrMember.foldl (fun heap entry =>
        heap.modify entry.1 fun node => { node with dimension := num :: node.dimension }) heap)
  else ({ info with dimension := num :: info.dimension }, heap)

def newParent (info : TypeInfo) (name : String) : TypeInfo :=
  { info with aggrParent := info.aggrParent ++ [⟨name, info.aggrMember, info.aggrParent⟩] }

def flip (info : TypeInfo) : TypeInfo :=
  { info with aggrMember := info.aggrMember.map fun entry => (entry.1, !entry.2) }

end TypeInfo

/-- `MOD_EXT_FLIP`. -/
def MOD_EXT_FLIP : NodeType → NodeType
  | .NODE_INP => .NODE_OUT
  | .NODE_OUT => .NODE_INP
  | .NODE_EXT_IN => .NODE_EXT_OUT
  | .NODE_EXT_OUT => .NODE_EXT_IN
  | type => type

/-- `allocNode`, then `updateInfo`. -/
def allocNode (type : NodeType) (name : String) (info : TypeInfo) (heap : Heap) : Nat × Heap :=
  (heap.length, heap ++ [⟨type, name, info.width, info.sign, info.clock, info.reset, info.dimension⟩])

/-! ## The visit -/

section Visit

-- `SEP_AGGR`
variable (sep : String)

mutual

/-- `top` is the top of `prefixTrace`. -/
def visitType : PType → String → NodeType → Heap → TypeInfo × Heap
  | .P_Clock, _, _, heap => ({ TypeInfo.new with width := 1, clock := true, reset := .UINTRESET }, heap)
  | .P_INT_TYPE width sign, _, _, heap => ({ TypeInfo.new with width, sign, reset := .UINTRESET }, heap)
  | .P_RESET, _, _, heap => ({ TypeInfo.new with width := 1 }, heap)
  | .P_ASYRESET, _, _, heap => ({ TypeInfo.new with width := 1, reset := .ASYRESET }, heap)
  | .P_AG_FIELDS fields, top, parentType, heap =>
    let (info, heap) := visitFields fields top parentType TypeInfo.new heap
    (info.newParent top, heap)
  | .P_AG_ARRAY type extra, top, parentType, heap =>
    let (info, heap) := visitType type top parentType heap
    info.addDim extra heap

def visitField : PField → String → NodeType → Heap → TypeInfo × Heap
  | .mk flip name type, top, parentType, heap =>
    let fieldType := if flip then MOD_EXT_FLIP parentType else parentType
    let (info, heap) := visitType type (top ++ sep ++ name) fieldType heap
    (if flip then info.flip else info, heap)

def visitFields : PFields → String → NodeType → TypeInfo → Heap → TypeInfo × Heap
  | .nil, _, _, info, heap => (info, heap)
  | .cons field rest, top, parentType, info, heap =>
    let (fieldInfo, heap) := visitField field top parentType heap
    match field with
    | .mk flip name _ =>
      let curType := if flip then MOD_EXT_FLIP parentType else parentType
      if fieldInfo.isAggr then visitFields rest top parentType (info.mergeInto fieldInfo) heap
      else
        let (fieldNode, heap) := allocNode curType (top ++ sep ++ name) fieldInfo heap
        visitFields rest top parentType (info.add fieldNode flip) heap

end

end Visit

/-! ## The ground paths of a type -/

/-- A ground path with the flips and the vectors on it, and what its ground type says. -/
structure Leaf where
  path : List String
  flips : Nat
  dims : List Int
  width : Int
  sign : Bool
  isClock : Bool
  reset : ResetType
deriving DecidableEq, Repr

/-- A bundle inside of the type: where it is, where its leaves start, and these leaves. -/
structure Bundle where
  path : List String
  flips : Nat
  dims : List Int
  offset : Nat
  leaves : List Leaf
deriving DecidableEq, Repr

namespace Leaf

/-- Odd parity: the leaf is written the other way round. -/
def flipped (l : Leaf) : Bool := l.flips % 2 = 1

def below (flip : Bool) (name : String) (l : Leaf) : Leaf :=
  { l with path := name :: l.path, flips := l.flips + flip.toNat }

def within (num : Int) (l : Leaf) : Leaf := { l with dims := num :: l.dims }

end Leaf

namespace Bundle

def below (flip : Bool) (name : String) (b : Bundle) : Bundle :=
  { b with path := name :: b.path, flips := b.flips + flip.toNat }

def within (num : Int) (b : Bundle) : Bundle := { b with dims := num :: b.dims }

/-- Behind `count` leaves of other fields. -/
def later (count : Nat) (b : Bundle) : Bundle := { b with offset := count + b.offset }

/-- The same leaf as seen from outside of the bundle. -/
def place (b : Bundle) (l : Leaf) : Leaf :=
  { l with path := b.path ++ l.path, flips := b.flips + l.flips, dims := b.dims ++ l.dims }

end Bundle

mutual

/-- The ground paths in the order of their declaration. -/
def leaves : PType → List Leaf
  | .P_Clock => [⟨[], 0, [], 1, false, true, .UINTRESET⟩]
  | .P_INT_TYPE width sign => [⟨[], 0, [], width, sign, false, .UINTRESET⟩]
  | .P_RESET => [⟨[], 0, [], 1, false, false, .UNCERTAIN⟩]
  | .P_ASYRESET => [⟨[], 0, [], 1, false, false, .ASYRESET⟩]
  | .P_AG_FIELDS fields => fieldLeaves fields
  | .P_AG_ARRAY type extra => (leaves type).map (Leaf.within extra)

def fieldLeaves : PFields → List Leaf
  | .nil => []
  | .cons (.mk flip name type) rest => (leaves type).map (Leaf.below flip name) ++ fieldLeaves rest

end

mutual

/-- The bundles, the inner ones before the outer ones. -/
def bundles : PType → List Bundle
  | .P_AG_FIELDS fields => fieldBundles fields ++ [⟨[], 0, [], 0, fieldLeaves fields⟩]
  | .P_AG_ARRAY type extra => (bundles type).map (Bundle.within extra)
  | _ => []

def fieldBundles : PFields → List Bundle
  | .nil => []
  | .cons (.mk flip name type) rest =>
    (bundles type).map (Bundle.below flip name) ++
      (fieldBundles rest).map (Bundle.later (leaves type).length)

end

/-- Whether there is a bundle in it: a vector of a ground type is an array, not an aggregate. -/
def PType.isAggregate : PType → Bool
  | .P_AG_FIELDS _ => true
  | .P_AG_ARRAY type _ => type.isAggregate
  | _ => false

def pathName (sep top : String) (path : List String) : String :=
  path.foldl (fun name field => name ++ sep ++ field) top

def TypeInfo.leaf (info : TypeInfo) : Leaf :=
  ⟨[], 0, info.dimension, info.width, info.sign, info.clock, info.reset⟩

/-- The node that a leaf should have. -/
def Leaf.node (sep top : String) (parentType : NodeType) (l : Leaf) : Node :=
  ⟨MOD_EXT_FLIP^[l.flips] parentType, pathName sep top l.path, l.width, l.sign, l.isClock, l.reset, l.dims⟩

/-- The pointers and flags of consecutive leaves, from `base` on. -/
def members : Nat → List Leaf → List (Nat × Bool)
  | _, [] => []
  | base, l :: ls => (base, l.flipped) :: members (base + 1) ls

mutual

/-- The entries of the bundles, the inner ones before the outer ones; `linked` if an entry knows those
    inside of its bundle. -/
def entries (sep : String) (linked : Bool) : PType → String → Nat → List AggrParentNode
  | .P_AG_FIELDS fields, top, base =>
    let inner := fieldEntries sep linked fields top base
    inner ++ [⟨top, members base (fieldLeaves fields), if linked then inner else []⟩]
  | .P_AG_ARRAY type _, top, base => entries sep linked type top base
  | _, _, _ => []

def fieldEntries (sep : String) (linked : Bool) : PFields → String → Nat → List AggrParentNode
  | .nil, _, _ => []
  | .cons (.mk _ name type) rest, top, base =>
    entries sep linked type (top ++ sep ++ name) base ++
      fieldEntries sep linked rest top (base + (leaves type).length)

end

/-- An entry lists the leaves of its bundle, with the flips below that bundle. -/
def Lists (sep top : String) (base : Nat) (entry : AggrParentNode) (b : Bundle) : Prop :=
  entry.name = pathName sep top b.path ∧ entry.member = members (base + b.offset) b.leaves

/-! ## What the visit makes of a type -/

theorem members_append (base : Nat) (ls ls' : List Leaf) :
    members base (ls ++ ls') = members base ls ++ members (base + ls.length) ls' := by
  induction ls generalizing base with
  | nil => rfl
  | cons l ls ih =>
    rw [List.cons_append, members, members, List.cons_append, ih, List.length_cons,
      Nat.add_right_comm, Nat.add_assoc]

theorem members_within (base : Nat) (num : Int) (ls : List Leaf) :
    members base (ls.map (Leaf.within num)) = members base ls := by
  induction ls generalizing base with
  | nil => rfl
  | cons l ls ih =>
    rw [List.map_cons, members, members, ih]
    rfl

theorem flipped_below (name : String) (l : Leaf) :
    (l.below true name).flipped = !l.flipped ∧ (l.below false name).flipped = l.flipped := by
  refine ⟨?_, rfl⟩
  show decide ((l.flips + 1) % 2 = 1) = !decide (l.flips % 2 = 1)
  rcases Nat.mod_two_eq_zero_or_one l.flips with even | odd
  · rw [Nat.succ_mod_two_eq_one_iff.mpr even, even]
    rfl
  · rw [Nat.succ_mod_two_eq_zero_iff.mpr odd, odd]
    rfl

/-- Flipping the flags of a field is counting one flip more. -/
theorem members_below (base : Nat) (flip : Bool) (name : String) (ls : List Leaf) :
    members base (ls.map (Leaf.below flip name)) =
      if flip then (members base ls).map fun entry => (entry.1, !entry.2) else members base ls := by
  induction ls generalizing base with
  | nil => cases flip <;> rfl
  | cons l ls ih =>
    rw [List.map_cons, members, members, ih]
    cases flip with
    | true =>
      rw [(flipped_below name l).1]
      rfl
    | false => rfl

theorem node_below (sep top : String) (parentType : NodeType) (flip : Bool) (name : String) (l : Leaf) :
    (l.below flip name).node sep top parentType =
      l.node sep (top ++ sep ++ name) (if flip then MOD_EXT_FLIP parentType else parentType) := by
  cases flip with
  | true =>
    show Node.mk (MOD_EXT_FLIP^[l.flips + 1] parentType) _ _ _ _ _ _ = _
    rw [Function.iterate_succ_apply]
    rfl
  | false => rfl

theorem lists_below {sep top : String} {base : Nat} {entry : AggrParentNode} {b : Bundle}
    (flip : Bool) {name : String} (h : Lists sep (top ++ sep ++ name) base entry b) :
    Lists sep top base entry (b.below flip name) := h

theorem lists_within {sep top : String} {base : Nat} {entry : AggrParentNode} {b : Bundle} (num : Int)
    (h : Lists sep top base entry b) : Lists sep top base entry (b.within num) := h

theorem lists_later {sep top : String} {base count : Nat} {entry : AggrParentNode} {b : Bundle}
    (h : Lists sep top (base + count) entry b) : Lists sep top base entry (b.later count) := by
  obtain ⟨name, member⟩ := h
  refine ⟨name, ?_⟩
  rw [member, Nat.add_assoc]
  rfl

/-- A change of every member reaches exactly the nodes that were made last. -/
theorem modify_members (f : Node → Node) (heap : Heap) (nodes : List Node) (ls : List Leaf)
    (length : nodes.length = ls.length) :
    (members heap.length ls).foldl (fun heap entry => heap.modify entry.1 f) (heap ++ nodes) =
      heap ++ nodes.map f := by
  induction ls generalizing heap nodes with
  | nil =>
    obtain rfl := List.length_eq_zero_iff.mp length
    rfl
  | cons l ls ih =>
    cases nodes with
    | nil => cases length
    | cons node nodes =>
      have here : (heap ++ node :: nodes).modify heap.length f = (heap ++ [f node]) ++ nodes := by
        rw [List.modify_eq_take_drop, List.take_left, List.drop_left, List.append_assoc]
        rfl
      rw [members, List.foldl_cons, here]
      have next := ih (heap ++ [f node]) nodes (Nat.succ.inj length)
      rw [List.length_append, List.length_singleton] at next
      rw [next, List.map_cons, List.append_assoc]
      rfl

/-- What the visit of a type leaves behind. -/
structure Visited (sep : String) (type : PType) (top : String) (parentType : NodeType) (heap : Heap)
    (r : TypeInfo × Heap) : Prop where
  aggregate : type.isAggregate = true → r.2 = heap ++ (leaves type).map (Leaf.node sep top parentType) ∧
    r.1.aggrMember = members heap.length (leaves type)
  ground : type.isAggregate = false → r.2 = heap ∧ r.1.aggrMember = [] ∧ leaves type = [r.1.leaf]
  parents : r.1.aggrParent = entries sep true type top heap.length

/-- What the visit of some fields adds to what the fields before them left. -/
structure VisitedFields (sep : String) (fields : PFields) (top : String) (parentType : NodeType)
    (info : TypeInfo) (heap : Heap) (r : TypeInfo × Heap) : Prop where
  nodes : r.2 = heap ++ (fieldLeaves fields).map (Leaf.node sep top parentType)
  aggrMember : r.1.aggrMember = info.aggrMember ++ members heap.length (fieldLeaves fields)
  aggrParent : r.1.aggrParent = info.aggrParent ++ fieldEntries sep true fields top heap.length

theorem isAggregate_eq : ∀ type : PType, type.isAggregate = !(bundles type).isEmpty
  | .P_Clock => rfl
  | .P_INT_TYPE _ _ => rfl
  | .P_RESET => rfl
  | .P_ASYRESET => rfl
  | .P_AG_FIELDS fields => by
    rw [bundles]
    cases fieldBundles fields <;> rfl
  | .P_AG_ARRAY type _ => by
    rw [PType.isAggregate, isAggregate_eq type, bundles, List.isEmpty_map]

theorem forall₂_isEmpty {α β : Type} {R : α → β → Prop} {as : List α} {bs : List β}
    (h : List.Forall₂ R as bs) : as.isEmpty = bs.isEmpty := by
  cases h with
  | nil => rfl
  | cons => rfl

mutual

theorem entries_lists (sep : String) (linked : Bool) : ∀ (type : PType) (top : String) (base : Nat),
    List.Forall₂ (Lists sep top base) (entries sep linked type top base) (bundles type)
  | .P_Clock, _, _ => .nil
  | .P_INT_TYPE _ _, _, _ => .nil
  | .P_RESET, _, _ => .nil
  | .P_ASYRESET, _, _ => .nil
  | .P_AG_FIELDS fields, top, base =>
    List.rel_append (fieldEntries_lists sep linked fields top base) (.cons ⟨rfl, rfl⟩ .nil)
  | .P_AG_ARRAY type extra, top, base => by
    rw [entries, bundles, List.forall₂_map_right_iff]
    exact (entries_lists sep linked type top base).imp fun _ _ lists => lists_within extra lists

theorem fieldEntries_lists (sep : String) (linked : Bool) : ∀ (fields : PFields) (top : String) (base : Nat),
    List.Forall₂ (Lists sep top base) (fieldEntries sep linked fields top base) (fieldBundles fields)
  | .nil, _, _ => .nil
  | .cons (.mk flip name type) rest, top, base => by
    rw [fieldEntries, fieldBundles]
    apply List.rel_append
    · rw [List.forall₂_map_right_iff]
      exact (entries_lists sep linked type _ base).imp fun _ _ lists => lists_below flip lists
    · rw [List.forall₂_map_right_iff]
      exact (fieldEntries_lists sep linked rest top _).imp fun _ _ => lists_later

end

/-- Without bundles there are no entries. -/
theorem entries_ground {sep : String} {linked : Bool} {type : PType} (agg : type.isAggregate = false)
    (top : String) (base : Nat) : entries sep linked type top base = [] := by
  have none : bundles type = [] := by
    rw [isAggregate_eq] at agg
    exact List.isEmpty_iff.mp (by simpa using agg)
  have lists := entries_lists sep linked type top base
  rw [none] at lists
  exact List.forall₂_nil_right_iff.mp lists

theorem Visited.isAggr {sep top : String} {type : PType} {parentType : NodeType} {heap : Heap}
    {r : TypeInfo × Heap} (h : Visited sep type top parentType heap r) :
    r.1.isAggr = type.isAggregate := by
  rw [TypeInfo.isAggr, isAggregate_eq, h.parents, forall₂_isEmpty (entries_lists sep true type top _)]

section Visits

variable {sep top : String} {type : PType} {parentType : NodeType} {heap : Heap}

/-- A vector of the type: the dimension comes in front of those that are there. -/
theorem Visited.array {r : TypeInfo × Heap} (extra : Int)
    (h : Visited sep type top parentType heap r) :
    Visited sep (.P_AG_ARRAY type extra) top parentType heap (r.1.addDim extra r.2) := by
  obtain ⟨info, heap'⟩ := r
  have parents : info.aggrParent = entries sep true (.P_AG_ARRAY type extra) top heap.length := h.parents
  cases agg : type.isAggregate with
  | true =>
    obtain ⟨rfl, hmember⟩ := h.aggregate agg
    have some : info.isAggr = true := h.isAggr.trans agg
    have length : ((leaves type).map (Leaf.node sep top parentType)).length = (leaves type).length :=
      List.length_map _
    have changed := modify_members (fun node => { node with dimension := extra :: node.dimension }) heap _ _
      length
    rw [← hmember] at changed
    rw [TypeInfo.addDim, if_pos some]
    refine ⟨fun _ => ⟨?_, ?_⟩, fun other => ?_, parents⟩
    · rw [leaves, changed, List.map_map, List.map_map]
      rfl
    · rw [leaves, members_within]
      exact hmember
    · rw [PType.isAggregate, agg] at other
      cases other
  | false =>
    obtain ⟨rfl, hmember, hleaf⟩ := h.ground agg
    have none : ¬ info.isAggr = true := by
      rw [h.isAggr.trans agg]
      exact Bool.false_ne_true
    rw [TypeInfo.addDim, if_neg none]
    refine ⟨fun other => ?_, fun _ => ⟨rfl, hmember, ?_⟩, parents⟩
    · rw [PType.isAggregate, agg] at other
      cases other
    · rw [leaves, hleaf]
      rfl

/-- The field comes behind the fields before it, its flip on every leaf below. -/
theorem VisitedFields.cons {flip : Bool} {name : String} {rest : PFields} {info : TypeInfo}
    {field : TypeInfo × Heap}
    (here : Visited sep type (top ++ sep ++ name) (if flip then MOD_EXT_FLIP parentType else parentType)
      heap field)
    (visited : ∀ info heap, VisitedFields sep rest top parentType info heap
      (visitFields sep rest top parentType info heap)) :
    VisitedFields sep (.cons (.mk flip name type) rest) top parentType info heap
      (let fieldInfo := if flip then field.1.flip else field.1
       if fieldInfo.isAggr then visitFields sep rest top parentType (info.mergeInto fieldInfo) field.2
       else
         let (fieldNode, heap) := allocNode (if flip then MOD_EXT_FLIP parentType else parentType)
           (top ++ sep ++ name) fieldInfo field.2
         visitFields sep rest top parentType (info.add fieldNode flip) heap) := by
  obtain ⟨found, heap'⟩ := field
  have names : ∀ ls : List Leaf, (ls.map (Leaf.below flip name)).map (Leaf.node sep top parentType) =
      ls.map (Leaf.node sep (top ++ sep ++ name)
        (if flip then MOD_EXT_FLIP parentType else parentType)) := by
    intro ls
    rw [List.map_map]
    exact List.map_congr_left fun l _ => node_below sep top parentType flip name l
  have parents : (if flip then found.flip else found).aggrParent = found.aggrParent := by
    cases flip <;> rfl
  have isAggr : (if flip then found.flip else found).isAggr = type.isAggregate := by
    rw [TypeInfo.isAggr, parents]
    exact here.isAggr
  cases agg : type.isAggregate with
  | true =>
    obtain ⟨rfl, hmember⟩ := here.aggregate agg
    have member : (if flip then found.flip else found).aggrMember =
        members heap.length ((leaves type).map (Leaf.below flip name)) := by
      rw [members_below, ← hmember]
      cases flip <;> rfl
    simp only [isAggr, agg, if_true]
    obtain ⟨nodes, aggrMember, aggrParent⟩ := visited
      (info.mergeInto (if flip then found.flip else found)) (heap ++ _)
    rw [List.length_append, List.length_map] at aggrMember aggrParent
    refine ⟨?_, ?_, ?_⟩
    · rw [nodes, fieldLeaves, List.map_append, names, List.append_assoc]
    · rw [aggrMember, fieldLeaves, members_append, List.length_map]
      show info.aggrMember ++ _ ++ _ = _
      rw [member, List.append_assoc]
    · rw [aggrParent, fieldEntries]
      show info.aggrParent ++ _ ++ _ = _
      rw [parents, show found.aggrParent = _ from here.parents, List.append_assoc]
  | false =>
    obtain ⟨rfl, hmember, hleaf⟩ := here.ground agg
    obtain ⟨fieldNode, made, flag⟩ : ∃ node : Node, node =
        (found.leaf.below flip name).node sep top parentType ∧
          (found.leaf.below flip name).flipped = flip := by
      refine ⟨_, rfl, ?_⟩
      cases flip <;> rfl
    have alloc : allocNode (if flip then MOD_EXT_FLIP parentType else parentType) (top ++ sep ++ name)
        (if flip then found.flip else found) heap' = (heap'.length, heap' ++ [fieldNode]) := by
      rw [made]
      cases flip <;> rfl
    simp only [isAggr, agg, Bool.false_eq_true, if_false, alloc]
    obtain ⟨nodes, aggrMember, aggrParent⟩ := visited (info.add heap'.length flip)
      (heap' ++ [fieldNode])
    rw [List.length_append, List.length_singleton] at aggrMember aggrParent
    refine ⟨?_, ?_, ?_⟩
    · rw [nodes, fieldLeaves, hleaf, made, List.append_assoc]
      rfl
    · rw [aggrMember, fieldLeaves, hleaf, List.map_singleton, List.singleton_append, members, flag]
      show info.aggrMember ++ [_] ++ _ = _
      rw [List.append_assoc]
      rfl
    · rw [aggrParent, fieldEntries, entries_ground agg, List.nil_append, hleaf]
      rfl

end Visits

mutual

theorem visitType_visited (sep : String) : ∀ (type : PType) (top : String) (parentType : NodeType)
    (heap : Heap), Visited sep type top parentType heap (visitType sep type top parentType heap)
  | .P_Clock, _, _, _ => ⟨(fun h => by cases h), fun _ => ⟨rfl, rfl, rfl⟩, rfl⟩
  | .P_INT_TYPE _ _, _, _, _ => ⟨(fun h => by cases h), fun _ => ⟨rfl, rfl, rfl⟩, rfl⟩
  | .P_RESET, _, _, _ => ⟨(fun h => by cases h), fun _ => ⟨rfl, rfl, rfl⟩, rfl⟩
  | .P_ASYRESET, _, _, _ => ⟨(fun h => by cases h), fun _ => ⟨rfl, rfl, rfl⟩, rfl⟩
  | .P_AG_FIELDS fields, top, parentType, heap => by
    obtain ⟨nodes, aggrMember, aggrParent⟩ :=
      visitFields_visited sep fields top parentType TypeInfo.new heap
    refine ⟨fun _ => ⟨nodes, aggrMember⟩, fun h => (by cases h), ?_⟩
    show (visitFields sep fields top parentType TypeInfo.new heap).1.aggrParent ++ [_] = _
    rw [aggrMember, aggrParent]
    rfl
  | .P_AG_ARRAY type extra, top, parentType, heap =>
    (visitType_visited sep type top parentType heap).array extra

theorem visitFields_visited (sep : String) : ∀ (fields : PFields) (top : String) (parentType : NodeType)
    (info : TypeInfo) (heap : Heap), VisitedFields sep fields top parentType info heap
      (visitFields sep fields top parentType info heap)
  | .nil, _, _, _, heap => ⟨(List.append_nil heap).symm, (List.append_nil _).symm,
      (List.append_nil _).symm⟩
  | .cons (.mk _ _ type) rest, top, parentType, _, heap =>
    VisitedFields.cons (visitType_visited sep type _ _ heap) (visitFields_visited sep rest top parentType)

end

/-! ## Where the leaves of a bundle are -/

theorem place_whole (ls whole : List Leaf) : ls.map (Bundle.place ⟨[], 0, [], 0, whole⟩) = ls := by
  apply List.map_id''
  intro l
  show { l with path := l.path, flips := 0 + l.flips, dims := l.dims } = l
  rw [Nat.zero_add]

theorem place_below (b : Bundle) (flip : Bool) (name : String) (ls : List Leaf) :
    ls.map (b.below flip name).place = (ls.map b.place).map (Leaf.below flip name) := by
  rw [List.map_map]
  apply List.map_congr_left
  intro l _
  show { l with path := name :: b.path ++ l.path, flips := b.flips + flip.toNat + l.flips,
                dims := b.dims ++ l.dims } =
    { l with path := name :: (b.path ++ l.path), flips := b.flips + l.flips + flip.toNat,
             dims := b.dims ++ l.dims }
  rw [Nat.add_right_comm]
  rfl

/-- The leaves of a bundle are consecutive among those of the type. -/
def Segment (ls : List Leaf) (b : Bundle) : Prop :=
  ∃ front behind, ls = front ++ b.leaves.map b.place ++ behind ∧ front.length = b.offset

mutual

theorem bundles_segment : ∀ (type : PType), ∀ b ∈ bundles type, Segment (leaves type) b
  | .P_Clock, _, h => by cases h
  | .P_INT_TYPE _ _, _, h => by cases h
  | .P_RESET, _, h => by cases h
  | .P_ASYRESET, _, h => by cases h
  | .P_AG_FIELDS fields, b, h => by
    rw [bundles, List.mem_append] at h
    rcases h with h | h
    · exact fieldBundles_segment fields b h
    · obtain rfl := List.mem_singleton.mp h
      refine ⟨[], [], ?_, rfl⟩
      rw [place_whole, leaves, List.append_nil, List.nil_append]
  | .P_AG_ARRAY type extra, _, h => by
    rw [bundles] at h
    obtain ⟨b, hb, rfl⟩ := List.mem_map.mp h
    obtain ⟨front, behind, eq, length⟩ := bundles_segment type b hb
    refine ⟨front.map (Leaf.within extra), behind.map (Leaf.within extra), ?_, ?_⟩
    · rw [leaves, eq, List.map_append, List.map_append, List.map_map]
      rfl
    · rw [List.length_map]
      exact length

theorem fieldBundles_segment : ∀ (fields : PFields), ∀ b ∈ fieldBundles fields,
    Segment (fieldLeaves fields) b
  | .nil, _, h => by cases h
  | .cons (.mk flip name type) rest, _, h => by
    rw [fieldBundles, List.mem_append] at h
    rcases h with h | h
    · obtain ⟨b, hb, rfl⟩ := List.mem_map.mp h
      obtain ⟨front, behind, eq, length⟩ := bundles_segment type b hb
      refine ⟨front.map (Leaf.below flip name), behind.map (Leaf.below flip name) ++ fieldLeaves rest,
        ?_, ?_⟩
      · show _ = _ ++ b.leaves.map (b.below flip name).place ++ _
        rw [fieldLeaves, eq, List.map_append, List.map_append, place_below, List.append_assoc,
          List.append_assoc]
      · rw [List.length_map]
        exact length
    · obtain ⟨b, hb, rfl⟩ := List.mem_map.mp h
      obtain ⟨front, behind, eq, length⟩ := fieldBundles_segment rest b hb
      refine ⟨(leaves type).map (Leaf.below flip name) ++ front, behind, ?_, ?_⟩
      · show _ = _ ++ b.leaves.map b.place ++ _
        rw [fieldLeaves, eq, List.append_assoc, List.append_assoc, List.append_assoc]
      · show _ = (leaves type).length + b.offset
        rw [List.length_append, List.length_map, length]

end

end Gsim.AggregateType
