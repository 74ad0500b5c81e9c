/-
  Gsim/InferComponent.lean
  ========================
  **Components of expression trees** (`ENode::inferComponent` and
  `constructRootFromComponent` in `splitNodes.cpp`).

  Bits are moved by `cat`, `bits`, `head`, `tail`, `shl`, `shr` and `pad`; below any
  other operator the component is a gap of the operator's width.  At this stage the
  parameter of `head` is the number of bits below the field and that of `tail` the
  number of bits that stay (`updateHeadTail`).

  `tree_sound` carries two facts up the tree: the widths add up wherever a component
  is used, and the elements are fields of the value where it is used as it is.  What the
  first loop of `graph::splitNodes` records of the nodes is carried through it
  (`inferMembers_recorded`).
-/
import Gsim.InferWidth
import Gsim.SplitNode

namespace Gsim.InferComponent

open Gsim.BitSlice Gsim.ExpTree Gsim.SplitNode Gsim.TwosComplement
open Gsim.InferWidth (Op OPType Everywhere EverywhereAll)

/-- The nodes of the graph, `componentMap` and `splittedNodesSet`. -/
structure Tables where
  width : Nat → Int
  isArray : Nat → Bool
  sign : Nat → Bool
  componentMap : Nat → Option NodeComponent
  splittedNodesSet : Nat → Option (List Nat)

/-! ## The source -/

def single (e : NodeElement) : NodeComponent := (NodeComponent.mk [] [] 0).addElementAll e

def spaceComp (width : Int) : NodeComponent := single (.space (width - 1) 0)

def isInt (c : NodeComponent) : Bool :=
  match c.elements with
  | [e] => e.eleType = .ELE_INT
  | _ => false

/-- The other operand, widened in front. -/
def besideInt (other : NodeComponent) (width : Int) : NodeComponent :=
  let ret := if width > other.width then
      other.dup.addfrontElement ⟨.ELE_EMPTY, 0, 0, width - other.width - 1, 0, false⟩
    else other.dup
  ret.invalidateAll

def mergeMux (comp1 comp2 : NodeComponent) (width : Int) : NodeComponent :=
  let ret := if isInt comp1 then besideInt comp2 comp1.width
    else if isInt comp2 then besideInt comp1 comp2.width
    else if comp1.assignSegEq comp2 then comp1.dup.invalidateAll
    else spaceComp width
  ret.invalidateDirectAsWhole

def merge2 (comp1 comp2 : NodeComponent) : Option NodeComponent := do
  let ret ← (NodeComponent.mk [] [] 0).merge comp1.dup
  ret.merge comp2.dup

/-- The `switch`; a null child is followed everywhere but in a `when`. -/
def Op.component (o : Op) (width : Int) (sign : Bool) (child : List (Option NodeComponent)) :
    Option NodeComponent :=
  match o.opType, o.values, child with
  | .expr2 .OP_AND, _, some c0 :: some c1 :: _ | .expr2 .OP_OR, _, some c0 :: some c1 :: _
  | .expr2 .OP_XOR, _, some c0 :: some c1 :: _ => some (mergeMux c0 c1 width)
  | .expr2 .OP_AND, _, _ | .expr2 .OP_OR, _, _ | .expr2 .OP_XOR, _, _ => none
  | .expr2 .OP_CAT, _, some c0 :: some c1 :: _ => merge2 c0 c1
  | .expr2 .OP_CAT, _, _ => none
  | .expr1 .OP_NOT, _, some c0 :: _ => some c0.dup.invalidateAll
  | .expr1 .OP_NOT, _, _ => none
  | .expr1Int2 .OP_BITS, hi :: lo :: _, some c0 :: _ => c0.getbits hi lo
  | .expr1Int2 .OP_BITS, _, _ => none
  | .OP_INT, _, _ => (NodeElement.int o.strVal (width - 1) 0 sign).map single
  | .expr1Int1 .OP_HEAD, n :: _, some c0 :: _ => c0.getbits (c0.width - 1) n
  | .expr1Int1 .OP_TAIL, n :: _, some c0 :: _ => c0.getbits (n - 1) 0
  | .expr1Int1 .OP_SHL, n :: _, some c0 :: _ =>
    (NodeElement.int 0 (n - 1) 0 false).map c0.dup.addElementAll
  | .expr1Int1 .OP_SHR, n :: _, some c0 :: _ => c0.getbits (c0.width - 1) n
  | .expr1Int1 .OP_PAD, n :: _, some c0 :: _ => c0.getbits (n - 1) 0
  | .expr1Int1 _, _, _ => none
  | .OP_WHEN, _, _ :: none :: none :: _ => some (spaceComp width)
  | .OP_WHEN, _, _ :: none :: some c2 :: _ => some c2.dup.invalidateAll
  | .OP_WHEN, _, _ :: some c1 :: none :: _ => some c1.dup.invalidateAll
  | .OP_WHEN, _, _ :: some c1 :: some c2 :: _ | .OP_MUX, _, _ :: some c1 :: some c2 :: _ =>
    some (mergeMux c1 c2 width)
  | .OP_WHEN, _, _ | .OP_MUX, _, _ => none
  | _, _, _ => if child.all Option.isSome then some (spaceComp width) else none

section Infer

variable (t : Tables)

mutual

/-- `none` inside for a null child. -/
def inferComponent : ENode Op → Option (Option NodeComponent)
  | .null => some none
  | .ref node width _ index => do
    let _ ← inferChildren index
    if t.isArray node || t.sign node then some (some (spaceComp (t.width node)))
    else do
      let known ← t.componentMap node
      let ret ← known.getbits (width - 1) 0
      let ret := if ret.fullValid then ret else single (.ofNode node (width - 1) 0)
      let direct := match t.splittedNodesSet node with
        | some members => members.map fun m => NodeElement.ofNode m (t.width m - 1) 0
        | none => [.ofNode node (width - 1) 0]
      some (some { ret with directElements := direct })
  | .op o width sign child => do
    let child ← inferChildren child
    (Op.component o width sign child).map some

def inferChildren : List (ENode Op) → Option (List (Option NodeComponent))
  | [] => some []
  | e :: es => do
    let c ← inferComponent e
    let cs ← inferChildren es
    some (c :: cs)

end

end Infer

/-- One element of the new root, with its top bit at `hiBit`. -/
def elementRoot (t : Tables) (hiBit : Int) (element : NodeElement) : ENode Op :=
  let node (type : OPType) (values : List Int) (width : Int) (child : List (ENode Op)) : ENode Op :=
    .op ⟨type, values, 0, 0⟩ width false child
  match element.eleType with
  | .ELE_NODE =>
    let whole : ENode Op := .ref element.node (t.width element.node) false []
    let top := t.width element.node - 1
    let (enode, validHi, validLo) :=
      if hiBit > element.hi then
        (node (.expr1Int1 .OP_SHL) [hiBit - element.hi] (top + (hiBit - element.hi) + 1) [whole],
          top + (hiBit - element.hi), hiBit - element.hi)
      else if hiBit < element.hi then
        (node (.expr1Int1 .OP_SHR) [element.hi - hiBit] (top - (element.hi - hiBit) + 1) [whole],
          top - (element.hi - hiBit), 0)
      else (whole, top, 0)
    if validHi - validLo > element.hi - element.lo ∨ validHi > hiBit then
      node (.expr1Int2 .OP_BITS_NOSHIFT) [hiBit, hiBit - (element.hi - element.lo)] (hiBit + 1)
        [enode]
    else enode
  | _ =>
    let realVal := if hiBit > element.hi then element.val * 2 ^ (hiBit - element.hi).toNat
      else if hiBit < element.hi then Int.tdiv element.val (2 ^ (element.hi - hiBit).toNat)
      else element.val
    .op ⟨.OP_INT, [], realVal, 0⟩ (hiBit + 1) (realVal < 0) []

def constructFrom (t : Tables) : Int → ENode Op → List NodeElement → ENode Op
  | _, newRoot, [] => newRoot
  | hiBit, newRoot, element :: rest =>
    let enode := elementRoot t hiBit element
    let newRoot := match newRoot with
      | .null => enode
      | newRoot =>
        .op ⟨.expr2 .OP_OR, [], 0, 0⟩ (max newRoot.width enode.width) false [newRoot, enode]
    constructFrom t (hiBit - (element.hi - element.lo + 1)) newRoot rest

def constructRootFromComponent (t : Tables) (comp : NodeComponent) : ENode Op :=
  constructFrom t (comp.width - 1) .null comp.directElements

/-- What the first loop of `graph::splitNodes` reads of a node. -/
structure Member where
  node : Nat
  regSrc : Bool
  assignTree : List (ETree Op)
  resetTree : Option (ETree Op)

section Nodes

variable (t : Tables)

/-- `tree->getRoot()->inferComponent(this)` -/
def rootComponent (tree : ETree Op) : Option NodeComponent := do
  let comp ← inferComponent t tree.root
  comp

/-- The tree that the component of a node is that of. -/
def Member.source (m : Member) : Option (ETree Op) :=
  match m.assignTree with
  | [tree] => if t.isArray m.node || t.sign m.node || t.width m.node == 0 then none else some tree
  | _ => none

/-- `Node::inferComponent` before any node is split. -/
def Member.inferComponent (m : Member) : Option NodeComponent := do
  let _ ← m.resetTree.mapM (rootComponent t)
  match m.source t with
  | some tree => do
    let ret ← rootComponent t tree
    ret.mergeNeighbor
  | none => do
    for tree in m.assignTree do
      let _ ← rootComponent t tree
      let _ ← inferChildren t (tree.lvalue.elim [] ENode.child)
    some (spaceComp (t.width m.node))

/-- The component that the loop gives a node. -/
def Member.component (m : Member) : Option NodeComponent :=
  if m.regSrc then some (spaceComp (t.width m.node)) else m.inferComponent t

def Tables.record (node : Nat) (comp : NodeComponent) : Tables :=
  { t with componentMap := Function.update t.componentMap node (some comp) }

/-- One turn of the loop; `none` is a failed `Assert`. -/
def inferMember (m : Member) : Option Tables := do
  let comp ← m.component t
  if t.width m.node = comp.width then some (t.record m.node comp) else none

/-- The loop over the members in order. -/
def inferMembers (members : List Member) : Option Tables := members.foldlM inferMember t

end Nodes

/-! ## The values of trees -/

section Values

/-- The bits of an operand, as an unsigned number. -/
structure Bits where
  width : Int
  sign : Bool
  val : Int

/-- The number they stand for: above its width a signed operand repeats its sign. -/
def Bits.reading (b : Bits) : Int := if b.sign then b.val.bmod (2 ^ b.width.toNat) else b.val

/-- What the operators that move no bits make of their children. -/
abbrev OtherSemantics := Op → Int → Bool → List (Option Bits) → Int

variable (sem : OtherSemantics)

def Op.value (o : Op) (width : Int) (sign : Bool) (child : List (Option Bits)) : Int :=
  match o.opType, o.values, child with
  | .OP_INT, _, _ => o.strVal
  | .expr2 .OP_CAT, _, [some a, some b] => a.val * 2 ^ b.width.toNat + b.val
  | .expr2 .OP_OR, _, [some a, some b] => Int.lor a.val b.val
  | .expr1Int2 .OP_BITS, [hi, lo], [some a] => slice a.reading lo.toNat (hi - lo + 1).toNat
  | .expr1Int2 .OP_BITS_NOSHIFT, [hi, lo], [some a] =>
    slice a.reading lo.toNat (hi - lo + 1).toNat * 2 ^ lo.toNat
  | .expr1Int1 .OP_HEAD, [n], [some a] | .expr1Int1 .OP_SHR, [n], [some a] =>
    a.reading / 2 ^ n.toNat
  | .expr1Int1 .OP_TAIL, [n], [some a] => a.reading % 2 ^ n.toNat
  | .expr1Int1 .OP_SHL, [n], [some a] => a.reading * 2 ^ n.toNat
  | .expr1Int1 .OP_PAD, [_], [some a] => a.reading
  | _, _, _ => sem o width sign child

variable (ρ : Nat → List Int → Int)

mutual

/-- Every node has the bits of its width. -/
def valueOf : ENode Op → Option Bits
  | .null => none
  | .ref node width sign index =>
    some ⟨width, sign, slice (ρ node ((valuesOf index).map fun b => b.elim 0 Bits.val)) 0
      width.toNat⟩
  | .op o width sign child =>
    some ⟨width, sign, slice (Op.value sem o width sign (valuesOf child)) 0 width.toNat⟩

def valuesOf : List (ENode Op) → List (Option Bits)
  | [] => []
  | e :: es => valueOf e :: valuesOf es

end

def nodeValue (t : Tables) (node : Nat) : Int := slice (ρ node []) 0 (t.width node).toNat

end Values

/-! ## The trees at this stage -/

def signOf : ENode Op → Bool
  | .null => false
  | .ref _ _ sign _ => sign
  | .op _ _ sign _ => sign

/-- The children whose components are used: as they are, or for their cuts alone. -/
def passes : OPType → List (Option Bool)
  | .expr2 .OP_CAT => [some true, some true]
  | .expr2 .OP_AND | .expr2 .OP_OR | .expr2 .OP_XOR => [some false, some false]
  | .expr1 .OP_NOT => [some false]
  | .expr1Int2 .OP_BITS | .expr1Int1 _ => [some true]
  | .OP_WHEN | .OP_MUX => [none, some false, some false]
  | _ => []

section Reached

variable (P : Bool → ENode Op → Prop)

mutual

/-- `P` at all nodes that take part in the component; `exact` while it is used as it is. -/
def Reached : Bool → ENode Op → Prop
  | _, .null => True
  | exact, .ref node width sign index => P exact (.ref node width sign index)
  | exact, .op o width sign child =>
    P exact (.op o width sign child) ∧ ReachedAll exact (passes o.opType) child

def ReachedAll : Bool → List (Option Bool) → List (ENode Op) → Prop
  | exact, some as :: more, e :: es => Reached (exact && as) e ∧ ReachedAll exact more es
  | exact, none :: more, _ :: es => ReachedAll exact more es
  | _, _, _ => True

end

end Reached

/-- The widths that the inference of widths leaves. -/
def Sized (t : Tables) : ENode Op → Prop
  | .null => True
  | .ref node width _ index =>
    width = t.width node ∧ 0 ≤ width ∧ (t.isArray node = false → index = [])
  | .op o width _ child =>
    0 ≤ width ∧ match o.opType, o.values, child with
    | .expr2 .OP_CAT, _, [a, b] => width = a.width + b.width
    | .expr2 .OP_AND, _, [a, b] | .expr2 .OP_OR, _, [a, b] | .expr2 .OP_XOR, _, [a, b]
    | .OP_WHEN, _, [_, a, b] | .OP_MUX, _, [_, a, b] => width = max a.width b.width
    | .expr1 .OP_NOT, _, [a] => width = a.width
    | .expr1Int2 .OP_BITS, [hi, lo], [_] => 0 ≤ lo ∧ width = hi - lo + 1
    | .expr1Int1 .OP_HEAD, [n], [a] => 0 ≤ n ∧ width = a.width - n
    | .expr1Int1 .OP_TAIL, [n], [a] => n ≤ a.width ∧ width = n
    | .expr1Int1 .OP_SHL, [n], [a] => 0 ≤ n ∧ width = a.width + n
    | .expr1Int1 .OP_SHR, [n], [a] => 0 ≤ n ∧ width = max (a.width - n) 0
    | .expr1Int1 .OP_PAD, [n], [a] => width = max a.width n
    | type, _, _ => passes type = []

/-- Shifts out no more than there is, does not cut with a `pad`, and extends and cuts unsigned
    numbers only. -/
def Within (exact : Bool) : ENode Op → Prop
  | .op o _ sign child =>
    match o.opType, o.values, child with
    | .OP_INT, _, _ => exact = true → sign = false
    | .expr1Int1 .OP_SHR, [n], [a] => n ≤ a.width
    | .expr1Int1 .OP_PAD, [n], [a] => a.width ≤ n ∧ (exact = true → a.width = n ∨ signOf a = false)
    | .expr1Int2 .OP_BITS, [hi, _], [a] => exact = true → hi < a.width ∨ signOf a = false
    | _, _, _ => True
  | _ => True

/-- A split node before its own component is known. -/
def unknown : NodeElement := ⟨.ELE_SPACE, 0, 0, -1, -1, false⟩

/-- What is recorded of a node denotes its value, and its pieces make up its width. -/
structure Recorded (t : Tables) (ρ : Nat → List Int → Int) : Prop where
  component : ∀ node known, t.componentMap node = some known →
    (known.elements = [unknown] ∧ known.width = 1) ∨
      (AllWf known.elements ∧ (sizes known.elements : Int) = known.width ∧
        known.width = t.width node ∧ Denotes (nodeValue ρ t) known (nodeValue ρ t node))
  splitted : ∀ node members, t.splittedNodesSet node = some members →
    (∀ m ∈ members, 0 ≤ t.width m) ∧ (members.map t.width).sum = t.width node

/-- The invariant of the components. -/
structure Good (t : Tables) (ρ : Nat → List Int → Int) (exact : Bool) (c : NodeComponent)
    (b : Bits) : Prop where
  wf : c.Wf t.width
  width : c.width = b.width
  denotes : exact = true → Denotes (nodeValue ρ t) c b.val

section Proofs

variable {t : Tables} {ρ : Nat → List Int → Int} {sem : OtherSemantics} {exact : Bool}

/-! ## Bits -/

theorem reading_slice {b : Bits} {lo n : Nat} (h : lo + n ≤ b.width.toNat ∨ b.sign = false) :
    slice b.reading lo n = slice b.val lo n := by
  unfold Bits.reading
  split
  · rename_i signed
    have inside : lo + n ≤ b.width.toNat := h.resolve_right (by simp [signed])
    have same : b.val.bmod (2 ^ b.width.toNat) % 2 ^ b.width.toNat = b.val % 2 ^ b.width.toNat := by
      have cast : ((2 ^ b.width.toNat : Nat) : Int) = 2 ^ b.width.toNat := by push_cast; rfl
      rw [← cast]
      exact Int.bmod_emod
    rw [← slice_emod _ inside, same, slice_emod _ inside]
  · rfl

theorem valueOf_spec {e : ENode Op} {b : Bits} (h : valueOf sem ρ e = some b) :
    b.width = e.width ∧ b.sign = signOf e ∧ 0 ≤ b.val ∧ b.val < 2 ^ b.width.toNat := by
  cases e with
  | null => cases h
  | ref node width sign index =>
    cases h
    exact ⟨rfl, rfl, slice_nonneg _ _ _, slice_lt _ _ _⟩
  | op o width sign child =>
    cases h
    exact ⟨rfl, rfl, slice_nonneg _ _ _, slice_lt _ _ _⟩

/-! ## Gaps -/

/-- No origin is known. -/
def Gaps (es : List NodeElement) : Prop := ∀ e ∈ es, e.eleType = .ELE_SPACE

theorem denotes_of_gaps {ν : Nat → Int} {c : NodeComponent} {v : Int} (gaps : Gaps c.elements)
    (range : 0 ≤ v ∧ v < 2 ^ sizes c.elements) : Denotes ν c v := by
  refine ⟨fun e he type => ?_, range, ?_⟩
  · rw [gaps e he] at type
    cases type
  · apply (placed_of_forall gaps).imp
    intro e _ place _ space known
    rcases known with type | type
    · rw [space] at type
      cases type
    · rw [space] at type
      cases type

theorem good_of_gaps {c : NodeComponent} {b : Bits} (wf : c.Wf t.width) (width : c.width = b.width)
    (gaps : Gaps c.elements) (range : 0 ≤ b.val ∧ b.val < 2 ^ b.width.toNat) :
    Good t ρ exact c b := by
  refine ⟨wf, width, fun _ => denotes_of_gaps gaps ?_⟩
  have size : sizes c.elements = b.width.toNat := by
    rw [← width, ← wf.elementsWidth]
    rfl
  rwa [size]

theorem invalid_width (es : List NodeElement) :
    sizes (es.map fun e => { e with eleType := .ELE_SPACE, hi := e.hi - e.lo, lo := 0, node := 0 }) =
      sizes es := by
  induction es with
  | nil => rfl
  | cons e es ih =>
    rw [List.map_cons, sizes_cons, sizes_cons, ih]
    congr 1
    simp only [NodeElement.size, NodeElement.width]
    omega

theorem invalid_spec {es : List NodeElement} (wide : ∀ e ∈ es, 0 ≤ e.width) :
    AllWf (es.map fun e =>
        { e with eleType := .ELE_SPACE, hi := e.hi - e.lo, lo := 0, node := 0 }) ∧
      Gaps (es.map fun e =>
        { e with eleType := .ELE_SPACE, hi := e.hi - e.lo, lo := 0, node := 0 }) := by
  constructor
  · intro f hf
    obtain ⟨e, he, rfl⟩ := List.mem_map.mp hf
    refine ⟨?_, nofun, nofun, nofun⟩
    have := wide e he
    simp only [NodeElement.width] at this ⊢
    omega
  · intro f hf
    obtain ⟨e, he, rfl⟩ := List.mem_map.mp hf
    rfl

theorem invalidateAll_wf {c : NodeComponent} (h : c.Wf t.width) : c.invalidateAll.Wf t.width := by
  refine ⟨(invalid_spec fun e he => (h.elements e he).1).1, ?_, h.direct, h.directWidth, h.inside⟩
  show ((sizes (c.elements.map _) : Nat) : Int) = c.width
  rw [invalid_width, h.elementsWidth]

theorem invalidateAll_gaps {c : NodeComponent} (h : c.Wf t.width) :
    Gaps c.invalidateAll.elements :=
  (invalid_spec fun e he => (h.elements e he).1).2

theorem space_wf {width : Int} (h : 0 ≤ width) :
    (NodeElement.space (width - 1) 0).Wf ∧ ((NodeElement.space (width - 1) 0).size : Int) = width := by
  have total : (NodeElement.space (width - 1) 0).width = width := by
    simp only [NodeElement.space, NodeElement.width]
    omega
  refine ⟨⟨by rw [total]; exact h, by rintro ⟨⟩, by rintro ⟨⟩, by rintro ⟨⟩⟩, ?_⟩
  rw [NodeElement.size, total]
  exact Int.toNat_of_nonneg h

/-- One element in both lists. -/
theorem single_wf {e : NodeElement} (wf : e.Wf) (inside : e.Inside t.width) :
    (single e).Wf t.width := by
  have size := wf.size
  refine ⟨?_, ?_, ?_, ?_, ?_⟩
  · simpa [single, NodeComponent.addElementAll, AllWf] using wf
  · simp [single, NodeComponent.addElementAll, size]
  · simpa [single, NodeComponent.addElementAll, AllWf] using wf
  · simp [single, NodeComponent.addElementAll, size]
  · simpa [single, NodeComponent.addElementAll] using inside

theorem spaceComp_wf {width : Int} (h : 0 ≤ width) :
    (spaceComp width).Wf t.width ∧ (spaceComp width).width = width := by
  refine ⟨single_wf (space_wf h).1 ⟨nofun, fun _ => rfl⟩, ?_⟩
  simp only [spaceComp, single, NodeComponent.addElementAll, NodeElement.space, NodeElement.width]
  omega

theorem spaceComp_gaps (width : Int) : Gaps (spaceComp width).elements := by
  simp [spaceComp, single, NodeComponent.addElementAll, Gaps, NodeElement.space]

theorem whole_wf {c : NodeComponent} (wf : AllWf c.elements)
    (width : (sizes c.elements : Int) = c.width) : c.invalidateDirectAsWhole.Wf t.width := by
  have nonneg : 0 ≤ c.width := by omega
  refine ⟨wf, width, ?_, ?_, ?_⟩
  · simpa [NodeComponent.invalidateDirectAsWhole, AllWf] using (space_wf nonneg).1
  · simpa [NodeComponent.invalidateDirectAsWhole] using (space_wf nonneg).2
  · simp [NodeComponent.invalidateDirectAsWhole, NodeElement.Inside, NodeElement.space]

theorem besideInt_spec {other : NodeComponent} (h : other.Wf t.width) (width : Int) :
    AllWf (besideInt other width).elements ∧ Gaps (besideInt other width).elements ∧
      (sizes (besideInt other width).elements : Int) = (besideInt other width).width ∧
      (besideInt other width).width = max width other.width := by
  have wide : ∀ e ∈ other.elements, 0 ≤ e.width := fun e he => (h.elements e he).1
  unfold besideInt
  rw [h.dup_eq]
  split
  · rename_i wider
    have front : ∀ e ∈ (⟨.ELE_EMPTY, 0, 0, width - other.width - 1, 0, false⟩ : NodeElement) ::
        other.elements, 0 ≤ e.width := by
      apply List.forall_mem_cons.mpr ⟨_, wide⟩
      simp only [NodeElement.width]
      omega
    refine ⟨(invalid_spec front).1, (invalid_spec front).2, ?_, ?_⟩
    · dsimp only [NodeComponent.invalidateAll, NodeComponent.addfrontElement]
      rw [invalid_width, sizes_cons]
      push_cast
      rw [h.elementsWidth]
      simp only [NodeElement.size, NodeElement.width]
      omega
    · dsimp only [NodeComponent.invalidateAll, NodeComponent.addfrontElement, NodeElement.width]
      omega
  · refine ⟨(invalid_spec wide).1, (invalid_spec wide).2, ?_, ?_⟩
    · show ((sizes (other.elements.map _) : Nat) : Int) = other.width
      rw [invalid_width, h.elementsWidth]
    · show other.width = _
      omega

theorem mergeMux_spec {c1 c2 : NodeComponent} (h1 : c1.Wf t.width) (h2 : c2.Wf t.width)
    {width : Int} (hw : width = max c1.width c2.width) :
    (mergeMux c1 c2 width).Wf t.width ∧ Gaps (mergeMux c1 c2 width).elements ∧
      (mergeMux c1 c2 width).width = width := by
  have nonneg : 0 ≤ c1.width := by
    have := h1.elementsWidth
    omega
  unfold mergeMux
  split
  · obtain ⟨wf, gaps, sum, total⟩ := besideInt_spec h2 c1.width
    exact ⟨whole_wf wf sum, gaps, total.trans hw.symm⟩
  · split
    · obtain ⟨wf, gaps, sum, total⟩ := besideInt_spec h1 c2.width
      exact ⟨whole_wf wf sum, gaps, total.trans (by omega)⟩
    · split
      · rename_i same
        have widths : c2.width = c1.width := (of_decide_eq_true same).1
        have wf := invalidateAll_wf h1
        rw [h1.dup_eq]
        refine ⟨whole_wf wf.elements wf.elementsWidth, invalidateAll_gaps h1, ?_⟩
        show c1.width = width
        omega
      · obtain ⟨wf, total⟩ := spaceComp_wf (t := t) (by omega : 0 ≤ width)
        exact ⟨whole_wf wf.elements wf.elementsWidth, spaceComp_gaps width, total⟩

theorem space_good {v width : Int} {sign : Bool} (nonneg : 0 ≤ width) :
    Good t ρ exact (spaceComp width) ⟨width, sign, slice v 0 width.toNat⟩ := by
  obtain ⟨wf, total⟩ := spaceComp_wf (t := t) nonneg
  exact good_of_gaps wf total (spaceComp_gaps width) ⟨slice_nonneg _ _ _, slice_lt _ _ _⟩

/-! ## Leaves -/

theorem int_good {strVal width : Int} {sign : Bool} (nonneg : 0 ≤ width)
    (unsigned : exact = true → sign = false) {c : NodeComponent}
    (h : (NodeElement.int strVal (width - 1) 0 sign).map single = some c) :
    Good t ρ exact c ⟨width, sign, slice strVal 0 width.toNat⟩ := by
  have total : NodeElement.width ⟨.ELE_INT, 0, strVal, width - 1, 0, sign⟩ = width := by
    simp only [NodeElement.width]
    omega
  obtain ⟨f, hf, hwidth, bottom, type, -, hsign, hval⟩ :=
    updateWidth_spec (e := ⟨.ELE_INT, 0, strVal, width - 1, 0, sign⟩) (by rw [total]; exact nonneg)
  have sized : NodeElement.size ⟨.ELE_INT, 0, strVal, width - 1, 0, sign⟩ = width.toNat := by
    rw [NodeElement.size, total]
  have width_f : f.width = width := hwidth.trans total
  have size_f : f.size = width.toNat := congrArg Int.toNat width_f
  obtain rfl : single f = c := by simpa [NodeElement.int, hf] using h
  have wf : f.Wf := by
    refine ⟨by omega, ?_, fun _ => bottom, ?_⟩
    · rw [type]
      rintro ⟨⟩
    · rw [type]
      rintro ⟨⟩
  have inside : f.Inside t.width := by
    rw [NodeElement.Inside, type]
    exact ⟨by rintro ⟨⟩, by rintro ⟨⟩⟩
  refine ⟨single_wf wf inside, ?_, fun used => ?_⟩
  · simp [single, NodeComponent.addElementAll, width_f]
  · have val : f.val = slice strVal 0 width.toNat := by
      rw [hval (unsigned used) (.inr rfl), sized]
      rfl
    have plain : f.Plain := by
      intro _
      rw [val, size_f]
      exact ⟨hsign.trans (unsigned used), slice_nonneg _ _ _, slice_lt _ _ _⟩
    refine ⟨?_, ?_, ?_, trivial⟩
    · simpa [single, NodeComponent.addElementAll, AllPlain] using plain
    · simp only [single, NodeComponent.addElementAll, List.nil_append, sizes_cons, sizes_nil,
        Nat.add_zero, size_f]
      exact ⟨slice_nonneg _ _ _, slice_lt _ _ _⟩
    · intro _
      simp only [NodeElement.value, type, val, sizes_nil]

theorem ofNode_wf {node : Nat} (h : 0 ≤ t.width node) :
    (NodeElement.ofNode node (t.width node - 1) 0).Wf ∧
      (NodeElement.ofNode node (t.width node - 1) 0).width = t.width node ∧
      (NodeElement.ofNode node (t.width node - 1) 0).Inside t.width := by
  have total : (NodeElement.ofNode node (t.width node - 1) 0).width = t.width node := by
    simp only [NodeElement.ofNode, NodeElement.width]
    omega
  refine ⟨⟨by rw [total]; exact h, fun _ => le_refl 0, by rintro ⟨⟩, by rintro ⟨⟩⟩, total, fun _ => ?_, by rintro ⟨⟩⟩
  exact Int.sub_one_lt_of_le (le_refl _)

theorem members_wf {members : List Nat} (h : ∀ m ∈ members, 0 ≤ t.width m) :
    AllWf (members.map fun m => NodeElement.ofNode m (t.width m - 1) 0) ∧
      (sizes (members.map fun m => NodeElement.ofNode m (t.width m - 1) 0) : Int) =
        (members.map t.width).sum ∧
      ∀ e ∈ members.map fun m => NodeElement.ofNode m (t.width m - 1) 0, e.Inside t.width := by
  have each : ∀ e ∈ members.map fun m => NodeElement.ofNode m (t.width m - 1) 0,
      e.Wf ∧ e.Inside t.width := by
    intro e he
    obtain ⟨m, hm, rfl⟩ := List.mem_map.mp he
    obtain ⟨wf, -, inside⟩ := ofNode_wf (h m hm)
    exact ⟨wf, inside⟩
  have wf : AllWf (members.map fun m => NodeElement.ofNode m (t.width m - 1) 0) :=
    fun e he => (each e he).1
  refine ⟨wf, ?_, fun e he => (each e he).2⟩
  rw [← totalWidth_eq wf, totalWidth, List.map_map]
  congr 1
  apply List.map_congr_left
  intro m hm
  exact (ofNode_wf (h m hm)).2.1

/-- The place of a split node stays open until its component is known. -/
theorem unknown_invalid {width : Int} (nonneg : 0 ≤ width) {known d : NodeComponent}
    (elements : known.elements = [unknown]) (one : known.width = 1)
    (h : known.getbits (width - 1) 0 = some d) : d.fullValid = false := by
  simp only [NodeComponent.getbits, elements, one, Option.bind_eq_bind, Option.bind_eq_some_iff,
    Option.some.injEq] at h
  obtain ⟨out, hout, direct, -, rfl⟩ := h
  by_cases wide : 1 ≤ width - 1
  · obtain ⟨z, hz, -⟩ := zero_spec (width - 1 - max 0 1) (by omega)
    rw [selectBits, if_pos wide, hz] at hout
    obtain rfl : z :: [⟨.ELE_SPACE, 0, 0, 0, 0, false⟩] = out := by
      simpa [selectFrom, unknown, NodeElement.width, NodeElement.getBits] using hout
    simp [NodeComponent.fullValid]
  · rw [selectBits, if_neg wide] at hout
    by_cases empty : width = 0
    · subst empty
      obtain rfl : [] = out := by
        simpa [selectFrom, unknown, NodeElement.width] using hout
      rfl
    · obtain rfl : width = 1 := by omega
      obtain rfl : [⟨.ELE_SPACE, 0, 0, 0, 0, false⟩] = out := by
        simpa [selectFrom, unknown, NodeElement.width, NodeElement.getBits] using hout
      rfl

theorem nodeValue_range (t : Tables) (ρ : Nat → List Int → Int) (node : Nat) :
    0 ≤ nodeValue ρ t node ∧ nodeValue ρ t node < 2 ^ (t.width node).toNat :=
  ⟨slice_nonneg _ _ _, slice_lt _ _ _⟩

/-- What is selected from the record of a node is valid only where the record denotes its value. -/
theorem selected_denotes (recorded : Recorded t ρ) {node : Nat} {known ret : NodeComponent}
    (nonneg : 0 ≤ t.width node) (hknown : t.componentMap node = some known)
    (hret : known.getbits (t.width node - 1) 0 = some ret) (valid : ret.fullValid = true) :
    AllWf ret.elements ∧ (sizes ret.elements : Int) = ret.width ∧ ret.width = t.width node ∧
      Denotes (nodeValue ρ t) ret (nodeValue ρ t node) := by
  rcases recorded.component node known hknown with ⟨open', one⟩ | ⟨wf, sum, total, denotes⟩
  · rw [unknown_invalid nonneg open' one hret] at valid
    cases valid
  · have all : t.width node - 1 = ((0 : Nat) : Int) + ((t.width node).toNat : Int) - 1 := by
      omega
    obtain ⟨out, hout, wfOut, sumOut, plainOut, agrees⟩ :=
      select_denotes wf denotes.plain denotes.range denotes.agrees 0 (t.width node).toNat
    simp only [NodeComponent.getbits, Option.bind_eq_bind, Option.bind_eq_some_iff,
      Option.some.injEq] at hret
    obtain ⟨elements, helements, direct, -, rfl⟩ := hret
    rw [← sum, all] at helements
    obtain rfl : out = elements := Option.some_inj.mp (hout.symm.trans helements)
    have range := nodeValue_range t ρ node
    rw [slice_whole range.1 range.2] at agrees
    have width : totalWidth out = t.width node := by
      rw [totalWidth_eq wfOut, sumOut]
      exact Int.toNat_of_nonneg nonneg
    refine ⟨wfOut, ?_, width, plainOut, ?_, agrees⟩
    · show (sizes out : Int) = totalWidth out
      rw [totalWidth_eq wfOut]
    · show _ ∧ _ < 2 ^ sizes out
      rw [sumOut]
      exact range

/-- The node itself as a component. -/
theorem itself_denotes {node : Nat} (nonneg : 0 ≤ t.width node) :
    AllWf (single (.ofNode node (t.width node - 1) 0)).elements ∧
      (sizes (single (.ofNode node (t.width node - 1) 0)).elements : Int) =
        (single (.ofNode node (t.width node - 1) 0)).width ∧
      (single (.ofNode node (t.width node - 1) 0)).width = t.width node ∧
      Denotes (nodeValue ρ t) (single (.ofNode node (t.width node - 1) 0)) (nodeValue ρ t node) := by
  obtain ⟨wf, total, inside⟩ := ofNode_wf nonneg
  have size : (NodeElement.ofNode node (t.width node - 1) 0).size = (t.width node).toNat :=
    congrArg Int.toNat total
  have each := single_wf wf inside
  refine ⟨each.elements, each.elementsWidth, ?_, ?_, ?_, ?_, trivial⟩
  · simp [single, NodeComponent.addElementAll, total]
  · simp [single, NodeComponent.addElementAll, AllPlain, NodeElement.Plain, NodeElement.ofNode]
  · simp only [single, NodeComponent.addElementAll, List.nil_append, sizes_cons, sizes_nil,
      Nat.add_zero, size]
    exact nodeValue_range t ρ node
  · intro _
    rfl

/-- The direct elements are the pieces of a split node, or the node. -/
theorem direct_spec (recorded : Recorded t ρ) {node : Nat} (nonneg : 0 ≤ t.width node)
    {direct : List NodeElement} (h : direct = (match t.splittedNodesSet node with
      | some members => members.map fun m => NodeElement.ofNode m (t.width m - 1) 0
      | none => [.ofNode node (t.width node - 1) 0])) :
    AllWf direct ∧ (sizes direct : Int) = t.width node ∧ ∀ e ∈ direct, e.Inside t.width := by
  subst h
  split
  · next members hmembers =>
    obtain ⟨wide, add⟩ := recorded.splitted node members hmembers
    obtain ⟨wf, sum, inside⟩ := members_wf wide
    exact ⟨wf, sum.trans add, inside⟩
  · obtain ⟨wf, total, inside⟩ := ofNode_wf nonneg
    refine ⟨?_, ?_, ?_⟩
    · simpa [AllWf] using wf
    · simp only [sizes_cons, sizes_nil, Nat.add_zero, wf.size, total]
    · simpa using inside

theorem ref_good (recorded : Recorded t ρ) {node : Nat} {width : Int} {sign : Bool}
    {index : List (ENode Op)} (sized : Sized t (.ref node width sign index)) {c : NodeComponent}
    (h : inferComponent t (.ref node width sign index) = some (some c)) :
    ∃ b, valueOf sem ρ (.ref node width sign index) = some b ∧ Good t ρ exact c b := by
  refine ⟨_, rfl, ?_⟩
  obtain ⟨hwidth, nonneg, flat⟩ := sized
  rw [inferComponent, Option.bind_eq_bind, Option.bind_eq_some_iff] at h
  obtain ⟨_, -, h⟩ := h
  split at h
  · obtain rfl : spaceComp (t.width node) = c := by simpa using h
    rw [← hwidth]
    exact space_good nonneg
  · rename_i plain
    have scalar : t.isArray node = false := by
      cases array : t.isArray node with
      | false => rfl
      | true => simp [array] at plain
    obtain rfl : index = [] := flat scalar
    subst hwidth
    simp only [Option.bind_eq_bind, Option.bind_eq_some_iff, Option.some.injEq] at h
    obtain ⟨known, hknown, ret, hret, rfl⟩ := h
    -- Whatever is recorded, the elements denote the value of the node.
    have whole : ∀ used : NodeComponent,
        used = (if ret.fullValid = true then ret
          else single (.ofNode node (t.width node - 1) 0)) →
        AllWf used.elements ∧ (sizes used.elements : Int) = used.width ∧
          used.width = t.width node ∧ Denotes (nodeValue ρ t) used (nodeValue ρ t node) := by
      rintro used rfl
      by_cases valid : ret.fullValid = true
      · rw [if_pos valid]
        exact selected_denotes recorded nonneg hknown hret valid
      · rw [if_neg valid]
        exact itself_denotes nonneg
    obtain ⟨wf, sum, total, denotes⟩ := whole _ rfl
    obtain ⟨wfDirect, sumDirect, inside⟩ := direct_spec recorded nonneg rfl
    refine ⟨⟨wf, sum, wfDirect, sumDirect.trans total.symm, inside⟩, total, fun _ => ?_⟩
    exact ⟨denotes.plain, denotes.range, denotes.agrees⟩

/-! ## Operators -/

theorem Good.nonneg {c : NodeComponent} {b : Bits} (g : Good t ρ exact c b) : 0 ≤ b.width := by
  have sum := g.wf.elementsWidth
  have width := g.width
  omega

theorem Good.range {c : NodeComponent} {b : Bits} (g : Good t ρ exact c b) (used : exact = true) :
    0 ≤ b.val ∧ b.val < 2 ^ b.width.toNat := by
  have size : sizes c.elements = b.width.toNat := by
    rw [← g.width, ← g.wf.elementsWidth]
    rfl
  rw [← size]
  exact (g.denotes used).range

theorem getbits_good {c0 d : NodeComponent} {a b : Bits} (g : Good t ρ exact c0 a) {hi lo : Int}
    (hlo : 0 ≤ lo) (nonneg : 0 ≤ b.width) (width : b.width = hi - lo + 1)
    (h : c0.getbits hi lo = some d)
    (val : exact = true → b.val = slice a.val lo.toNat b.width.toNat) : Good t ρ exact d b := by
  obtain ⟨d', hd, wf, total, denotes⟩ := g.wf.getbits_spec lo.toNat b.width.toNat
  have bottom : (lo.toNat : Int) = lo := Int.toNat_of_nonneg hlo
  have count : (b.width.toNat : Int) = b.width := Int.toNat_of_nonneg nonneg
  have top : (lo.toNat : Int) + b.width.toNat - 1 = hi := by omega
  rw [top, bottom] at hd
  obtain rfl : d' = d := Option.some_inj.mp (hd.symm.trans h)
  refine ⟨wf, total.trans count, fun used => ?_⟩
  rw [val used]
  exact denotes _ _ (g.denotes used)

theorem merge2_good {c0 c1 d : NodeComponent} {a0 a1 b : Bits} (g0 : Good t ρ exact c0 a0)
    (g1 : Good t ρ exact c1 a1) (width : b.width = a0.width + a1.width)
    (h : merge2 c0 c1 = some d)
    (val : exact = true → b.val = a0.val * 2 ^ a1.width.toNat + a1.val) : Good t ρ exact d b := by
  have empty : (NodeComponent.mk [] [] 0).Wf t.width := ⟨allWf_nil, rfl, allWf_nil, rfl, nofun⟩
  have none_denotes : Denotes (nodeValue ρ t) (NodeComponent.mk [] [] 0) 0 :=
    ⟨nofun, ⟨le_refl 0, one_pos⟩, trivial⟩
  obtain ⟨d0, hd0, wf0, total0, denotes0⟩ := empty.merge_spec g0.wf
  obtain ⟨d1, hd1, wf1, total1, denotes1⟩ := wf0.merge_spec g1.wf
  have run : merge2 c0 c1 = some d1 := by
    rw [merge2, g0.wf.dup_eq, g1.wf.dup_eq, hd0]
    exact hd1
  obtain rfl : d1 = d := Option.some_inj.mp (run.symm.trans h)
  refine ⟨wf1, ?_, fun used => ?_⟩
  · rw [total1, total0, g0.width, g1.width, width]
    exact congrArg (· + a1.width) (zero_add a0.width)
  · have first := denotes0 _ _ _ none_denotes (g0.denotes used)
    rw [zero_mul, zero_add] at first
    have both := denotes1 _ _ _ first (g1.denotes used)
    rwa [g1.width, ← val used] at both

theorem shl_good {c0 d : NodeComponent} {a b : Bits} (g : Good t ρ exact c0 a) {n : Int}
    (hn : 0 ≤ n) (width : b.width = a.width + n)
    (h : (NodeElement.int 0 (n - 1) 0 false).map c0.dup.addElementAll = some d)
    (val : exact = true → b.val = a.val * 2 ^ n.toNat) : Good t ρ exact d b := by
  obtain ⟨z, hz, wf, type, unsigned, zero, size⟩ := zero_spec (n - 1) (by omega)
  rw [hz, g.wf.dup_eq] at h
  obtain rfl : c0.addElementAll z = d := by simpa using h
  have count : z.size = n.toNat := by omega
  have total : (z.size : Int) = n := by omega
  have behind : ∀ es : List NodeElement, sizes (es ++ [z]) = sizes es + z.size := fun es => by simp
  refine ⟨⟨?_, ?_, ?_, ?_, ?_⟩, ?_, fun used => ⟨?_, ?_, ?_⟩⟩
  · exact List.forall_mem_append.mpr ⟨g.wf.elements, by simpa using wf⟩
  · show (sizes (c0.elements ++ [z]) : Int) = c0.width + z.width
    rw [behind, ← g.wf.elementsWidth, ← wf.size]
    push_cast
    rfl
  · exact List.forall_mem_append.mpr ⟨g.wf.direct, by simpa using wf⟩
  · show (sizes (c0.directElements ++ [z]) : Int) = c0.width + z.width
    rw [behind, ← g.wf.directWidth, ← wf.size]
    push_cast
    rfl
  · apply List.forall_mem_append.mpr ⟨g.wf.inside, _⟩
    intro e he
    obtain rfl := List.mem_singleton.mp he
    rw [NodeElement.Inside, type]
    exact ⟨by rintro ⟨⟩, by rintro ⟨⟩⟩
  · show c0.width + z.width = b.width
    rw [g.width, width, ← wf.size, total]
  · apply List.forall_mem_append.mpr ⟨(g.denotes used).plain, _⟩
    intro e he
    obtain rfl := List.mem_singleton.mp he
    intro _
    rw [zero]
    exact ⟨unsigned, le_refl 0, pow_pos two_pos _⟩
  · show 0 ≤ b.val ∧ b.val < 2 ^ sizes (c0.elements ++ [z])
    have range := cat_range (g.denotes used).range (b := 0) (n := z.size)
      ⟨le_refl 0, pow_pos two_pos _⟩
    rw [val used, behind, ← count]
    simpa using range
  · have below : sizes [z] = n.toNat := by
      rw [sizes_cons, sizes_nil, count]
      rfl
    apply agrees_append.mpr
    rw [val used, below, Int.mul_ediv_cancel _ (pow_ne_zero _ two_ne_zero)]
    refine ⟨(g.denotes used).agrees, fun _ => ?_, trivial⟩
    rw [NodeElement.value, type, zero, sizes_nil, count, slice_bottom, slice_bottom,
      Int.mul_emod_left, Int.zero_emod]

/-! ## Trees -/

/-- A tree whose component denotes its value. -/
def Sound (t : Tables) (ρ : Nat → List Int → Int) (sem : OtherSemantics) (e : ENode Op) : Prop :=
  ∀ exact, Reached (fun _ => Sized t) exact e → Reached Within exact e →
    ∀ c, inferComponent t e = some (some c) → ∃ b, valueOf sem ρ e = some b ∧ Good t ρ exact c b

/-- One operand. -/
theorem children_one {a : ENode Op} {cs : List (Option NodeComponent)}
    (h : inferChildren t [a] = some cs) : ∃ c, cs = [c] ∧ inferComponent t a = some c := by
  simp only [inferChildren, Option.bind_eq_bind, Option.bind_eq_some_iff, Option.bind_some,
    Option.some.injEq] at h
  obtain ⟨c, hc, rfl⟩ := h
  exact ⟨c, rfl, hc⟩

/-- Two operands. -/
theorem children_two {a b : ENode Op} {cs : List (Option NodeComponent)}
    (h : inferChildren t [a, b] = some cs) :
    ∃ c d, cs = [c, d] ∧ inferComponent t a = some c ∧ inferComponent t b = some d := by
  simp only [inferChildren, Option.bind_eq_bind, Option.bind_eq_some_iff, Option.bind_some,
    Option.some.injEq] at h
  obtain ⟨c, hc, ds, ⟨d, hd, rfl⟩, rfl⟩ := h
  exact ⟨c, d, rfl, hc, hd⟩

/-- A condition and two branches. -/
theorem children_three {e a b : ENode Op} {cs : List (Option NodeComponent)}
    (h : inferChildren t [e, a, b] = some cs) :
    ∃ k c d, cs = [k, c, d] ∧ inferComponent t a = some c ∧ inferComponent t b = some d := by
  rw [inferChildren, Option.bind_eq_bind, Option.bind_eq_some_iff] at h
  obtain ⟨k, -, h⟩ := h
  simp only [Option.bind_eq_bind, Option.bind_eq_some_iff, Option.some.injEq] at h
  obtain ⟨ds, hds, rfl⟩ := h
  obtain ⟨c, d, rfl, hc, hd⟩ := children_two hds
  exact ⟨k, c, d, rfl, hc, hd⟩

/-- The operators that hide their operands. -/
theorem component_hidden {o : Op} {width : Int} {sign : Bool} {cs : List (Option NodeComponent)}
    {c : NodeComponent} (hidden : passes o.opType = []) (h : Op.component o width sign cs = some c) :
    c = spaceComp width ∨ o.opType = .OP_INT ∧
      (NodeElement.int o.strVal (width - 1) 0 sign).map single = some c := by
  obtain ⟨opType, values, strVal, memoryNode⟩ := o
  unfold Op.component at h
  dsimp only at hidden h
  split at h
  all_goals try cases hidden
  · exact .inr ⟨rfl, h⟩
  · split at h
    · exact .inl (Option.some_inj.mp h).symm
    · cases h

theorem infer_null {e : ENode Op} (h : inferComponent t e = some none) : e = .null := by
  cases e with
  | null => rfl
  | ref node width sign index =>
    simp only [inferComponent, Option.bind_eq_bind, Option.bind_eq_some_iff] at h
    obtain ⟨_, -, h⟩ := h
    split at h
    · cases h
    · simp only [Option.bind_eq_some_iff] at h
      obtain ⟨_, _, _, _, h⟩ := h
      cases h
  | op o width sign child =>
    rw [inferComponent, Option.bind_eq_bind, Option.bind_eq_some_iff] at h
    obtain ⟨_, -, h⟩ := h
    obtain ⟨_, _, h⟩ := Option.map_eq_some_iff.mp h
    cases h

/-- A child with its component, at a place where the component is used. -/
structure Inferred (t : Tables) (exact : Bool) (e : ENode Op) (c : Option NodeComponent) : Prop where
  component : inferComponent t e = some c
  sized : Reached (fun _ => Sized t) exact e
  within : Reached Within exact e

/-- What an operator makes of its children. -/
def Op.bits (sem : OtherSemantics) (ρ : Nat → List Int → Int) (o : Op) (width : Int) (sign : Bool)
    (child : List (ENode Op)) : Bits :=
  ⟨width, sign, slice (Op.value sem o width sign (valuesOf sem ρ child)) 0 width.toNat⟩

section Operators

variable {a b : ENode Op} {ca cb : Option NodeComponent} {c c0 : NodeComponent} {o : Op} {width : Int}
  {sign : Bool} {values : List Int} {strVal : Int} {memoryNode : Nat}

theorem Inferred.good (oa : Inferred t exact a (some c0)) (ih : Sound t ρ sem a) :
    ∃ b, valueOf sem ρ a = some b ∧ Good t ρ exact c0 b ∧ b.width = a.width ∧ c0.width = a.width := by
  obtain ⟨b0, hb0, good⟩ := ih exact oa.sized oa.within c0 oa.component
  have width0 := (valueOf_spec hb0).1
  exact ⟨b0, hb0, good, width0, good.width.trans width0⟩

theorem operand_one {as used : Bool} {cs : List (Option NodeComponent)} (hused : (exact && as) = used)
    (hcs : inferChildren t [a] = some cs)
    (sized : ReachedAll (fun _ => Sized t) exact [some as] [a])
    (within : ReachedAll Within exact [some as] [a]) : ∃ ca, cs = [ca] ∧ Inferred t used a ca := by
  subst hused
  obtain ⟨ca, rfl, ha⟩ := children_one hcs
  exact ⟨ca, rfl, ha, sized.1, within.1⟩

theorem operand_two {as used : Bool} {cs : List (Option NodeComponent)} (hused : (exact && as) = used)
    (hcs : inferChildren t [a, b] = some cs)
    (sized : ReachedAll (fun _ => Sized t) exact [some as, some as] [a, b])
    (within : ReachedAll Within exact [some as, some as] [a, b]) :
    ∃ ca cb, cs = [ca, cb] ∧ Inferred t used a ca ∧ Inferred t used b cb := by
  subst hused
  obtain ⟨ca, cb, rfl, ha, hb⟩ := children_two hcs
  exact ⟨ca, cb, rfl, ⟨ha, sized.1, within.1⟩, ⟨hb, sized.2.1, within.2.1⟩⟩

theorem operand_three {e : ENode Op} {as used : Bool} {cs : List (Option NodeComponent)}
    (hused : (exact && as) = used) (hcs : inferChildren t [e, a, b] = some cs)
    (sized : ReachedAll (fun _ => Sized t) exact [none, some as, some as] [e, a, b])
    (within : ReachedAll Within exact [none, some as, some as] [e, a, b]) :
    ∃ k ca cb, cs = [k, ca, cb] ∧ Inferred t used a ca ∧ Inferred t used b cb := by
  subst hused
  obtain ⟨k, ca, cb, rfl, ha, hb⟩ := children_three hcs
  exact ⟨k, ca, cb, rfl, ⟨ha, sized.1, within.1⟩, ⟨hb, sized.2.1, within.2.1⟩⟩

/-- A field of the operand, at the width of the node. -/
theorem field_sound (ih : Sound t ρ sem a) (oa : Inferred t exact a (some c0)) {hi lo : Int}
    (h : c0.getbits hi lo = some c) (hlo : 0 ≤ lo) (nonneg : 0 ≤ width)
    (hwidth : width = hi - lo + 1) (inside : exact = true → hi < a.width ∨ signOf a = false)
    (val : ∀ b0 : Bits, slice (Op.value sem o width sign [some b0]) 0 width.toNat =
      slice b0.reading lo.toNat width.toNat) :
    Good t ρ exact c (Op.bits sem ρ o width sign [a]) := by
  obtain ⟨b0, hb0, good, width0, -⟩ := oa.good ih
  obtain ⟨-, sign0, -⟩ := valueOf_spec hb0
  apply getbits_good good hlo nonneg hwidth h
  intro used
  show slice (Op.value sem o width sign [valueOf sem ρ a]) 0 width.toNat = _
  rw [hb0, val b0]
  apply reading_slice
  rw [width0, sign0]
  have bound := good.nonneg
  rcases inside used with lt | unsigned
  · exact .inl (by omega)
  · exact .inr unsigned

/-- The bits from a place on. -/
theorem top_sound (ih : Sound t ρ sem a) (oa : Inferred t exact a (some c0)) {n : Int}
    (h : c0.getbits (c0.width - 1) n = some c) (bottom : 0 ≤ n) (nonneg : 0 ≤ width)
    (hwidth : width = a.width - n)
    (val : ∀ b0 : Bits, Op.value sem o width sign [some b0] = b0.reading / 2 ^ n.toNat) :
    Good t ρ exact c (Op.bits sem ρ o width sign [a]) := by
  obtain ⟨_, -, -, -, top⟩ := oa.good ih
  apply field_sound ih oa h bottom nonneg (by omega) (fun _ => .inl (by omega))
  intro b0
  rw [val, slice_ediv, add_zero]

theorem merged_sound {v : Int} {c1 : NodeComponent} (iha : Sound t ρ sem a) (ihb : Sound t ρ sem b)
    (oa : Inferred t false a (some c0)) (ob : Inferred t false b (some c1))
    (hwidth : width = max a.width b.width) :
    Good t ρ exact (mergeMux c0 c1 width) ⟨width, sign, slice v 0 width.toNat⟩ := by
  obtain ⟨_, -, good0, -, width0⟩ := oa.good iha
  obtain ⟨_, -, good1, -, width1⟩ := ob.good ihb
  have max_width : width = max c0.width c1.width := by rw [width0, width1, hwidth]
  obtain ⟨wf, gaps, total⟩ := mergeMux_spec good0.wf good1.wf max_width
  exact good_of_gaps wf total gaps ⟨slice_nonneg _ _ _, slice_lt _ _ _⟩

/-- The cuts of one operand. -/
theorem invalid_sound {v : Int} (ih : Sound t ρ sem a) (oa : Inferred t false a (some c0))
    (hwidth : width = a.width) :
    Good t ρ exact c0.dup.invalidateAll ⟨width, sign, slice v 0 width.toNat⟩ := by
  obtain ⟨_, -, good, -, width0⟩ := oa.good ih
  rw [good.wf.dup_eq]
  apply good_of_gaps (invalidateAll_wf good.wf) _ (invalidateAll_gaps good.wf)
    ⟨slice_nonneg _ _ _, slice_lt _ _ _⟩
  exact width0.trans hwidth.symm

theorem cat_sound (iha : Sound t ρ sem a) (ihb : Sound t ρ sem b) (oa : Inferred t exact a ca)
    (ob : Inferred t exact b cb) (hwidth : width = a.width + b.width)
    (h : Op.component ⟨.expr2 .OP_CAT, values, strVal, memoryNode⟩ width sign [ca, cb] = some c) :
    Good t ρ exact c (Op.bits sem ρ ⟨.expr2 .OP_CAT, values, strVal, memoryNode⟩ width sign [a, b]) := by
  cases ca with
  | none => cases h
  | some c0 =>
    cases cb with
    | none => cases h
    | some c1 =>
      obtain ⟨b0, hb0, good0, width0, -⟩ := oa.good iha
      obtain ⟨b1, hb1, good1, width1, -⟩ := ob.good ihb
      apply merge2_good good0 good1 _ h
      · intro used
        have range := cat_range (good0.range used) (good1.range used)
        have nonneg0 := good0.nonneg
        have nonneg1 := good1.nonneg
        have count : width.toNat = b0.width.toNat + b1.width.toNat := by omega
        rw [Op.bits, valuesOf, valuesOf, valuesOf, hb0, hb1]
        show slice (b0.val * 2 ^ b1.width.toNat + b1.val) 0 width.toNat = _
        rw [count]
        exact slice_whole range.1 range.2
      · rw [width0, width1]
        exact hwidth

/-- `and`, `or` and `xor` merge the cuts of two operands. -/
theorem bitwise_sound {op : ConstantNode.OpExpr2} (hop : op = .OP_AND ∨ op = .OP_OR ∨ op = .OP_XOR)
    (iha : Sound t ρ sem a) (ihb : Sound t ρ sem b) (oa : Inferred t false a ca)
    (ob : Inferred t false b cb) (hwidth : width = max a.width b.width)
    (h : Op.component ⟨.expr2 op, values, strVal, memoryNode⟩ width sign [ca, cb] = some c) :
    Good t ρ exact c (Op.bits sem ρ ⟨.expr2 op, values, strVal, memoryNode⟩ width sign [a, b]) := by
  obtain ⟨c0, c1, rfl, rfl, rfl⟩ :
      ∃ c0 c1, ca = some c0 ∧ cb = some c1 ∧ mergeMux c0 c1 width = c := by
    rcases hop with rfl | rfl | rfl
    all_goals
      cases ca with
      | none => cases h
      | some c0 =>
        cases cb with
        | none => cases h
        | some c1 => exact ⟨c0, c1, rfl, rfl, Option.some.inj h⟩
  exact merged_sound iha ihb oa ob hwidth

theorem mux_sound {k : Option NodeComponent} {e : ENode Op} (iha : Sound t ρ sem a)
    (ihb : Sound t ρ sem b) (oa : Inferred t false a ca) (ob : Inferred t false b cb)
    (hwidth : width = max a.width b.width)
    (h : Op.component ⟨.OP_MUX, values, strVal, memoryNode⟩ width sign [k, ca, cb] = some c) :
    Good t ρ exact c (Op.bits sem ρ ⟨.OP_MUX, values, strVal, memoryNode⟩ width sign [e, a, b]) := by
  cases ca with
  | none => cases h
  | some c0 =>
    cases cb with
    | none => cases h
    | some c1 =>
      cases h
      exact merged_sound iha ihb oa ob hwidth

/-- A `when` without a branch has the cuts of the other one. -/
theorem when_sound {k : Option NodeComponent} {e : ENode Op} (iha : Sound t ρ sem a)
    (ihb : Sound t ρ sem b) (oa : Inferred t false a ca) (ob : Inferred t false b cb)
    (nonneg : 0 ≤ width) (hwidth : width = max a.width b.width)
    (h : Op.component ⟨.OP_WHEN, values, strVal, memoryNode⟩ width sign [k, ca, cb] = some c) :
    Good t ρ exact c (Op.bits sem ρ ⟨.OP_WHEN, values, strVal, memoryNode⟩ width sign [e, a, b]) := by
  cases ca with
  | none =>
    obtain rfl := infer_null oa.component
    cases cb with
    | none =>
      cases h
      exact space_good nonneg
    | some c1 =>
      cases h
      obtain ⟨b1, -, good, width1, -⟩ := ob.good ihb
      have wide : 0 ≤ b.width := width1 ▸ good.nonneg
      exact invalid_sound ihb ob (hwidth.trans (max_eq_right wide))
  | some c0 =>
    cases cb with
    | none =>
      obtain rfl := infer_null ob.component
      cases h
      obtain ⟨b0, -, good, width0, -⟩ := oa.good iha
      have wide : 0 ≤ a.width := width0 ▸ good.nonneg
      exact invalid_sound iha oa (hwidth.trans (max_eq_left wide))
    | some c1 =>
      cases h
      exact merged_sound iha ihb oa ob hwidth

theorem not_sound (ih : Sound t ρ sem a) (oa : Inferred t false a ca) (hwidth : width = a.width)
    (h : Op.component ⟨.expr1 .OP_NOT, values, strVal, memoryNode⟩ width sign [ca] = some c) :
    Good t ρ exact c (Op.bits sem ρ ⟨.expr1 .OP_NOT, values, strVal, memoryNode⟩ width sign [a]) := by
  cases ca with
  | none => cases h
  | some c0 =>
    cases h
    exact invalid_sound ih oa hwidth

theorem bits_sound {hi lo : Int} (ih : Sound t ρ sem a) (oa : Inferred t exact a ca) (bottom : 0 ≤ lo)
    (nonneg : 0 ≤ width) (hwidth : width = hi - lo + 1)
    (inside : exact = true → hi < a.width ∨ signOf a = false)
    (h : Op.component ⟨.expr1Int2 .OP_BITS, [hi, lo], strVal, memoryNode⟩ width sign [ca] = some c) :
    Good t ρ exact c
      (Op.bits sem ρ ⟨.expr1Int2 .OP_BITS, [hi, lo], strVal, memoryNode⟩ width sign [a]) := by
  cases ca with
  | none => cases h
  | some c0 =>
    apply field_sound ih oa h bottom nonneg hwidth inside
    intro b0
    show slice (slice b0.reading lo.toNat (hi - lo + 1).toNat) 0 width.toNat = _
    rw [← hwidth, slice_field]

/-- `head` and `shr`, which take the bits from a place on. -/
theorem headShr_sound {op : ConstantNode.OpExpr1Int1} {n : Int} (hop : op = .OP_HEAD ∨ op = .OP_SHR)
    (ih : Sound t ρ sem a) (oa : Inferred t exact a ca) (bottom : 0 ≤ n) (nonneg : 0 ≤ width)
    (hwidth : width = a.width - n)
    (h : Op.component ⟨.expr1Int1 op, [n], strVal, memoryNode⟩ width sign [ca] = some c) :
    Good t ρ exact c (Op.bits sem ρ ⟨.expr1Int1 op, [n], strVal, memoryNode⟩ width sign [a]) := by
  rcases hop with rfl | rfl
  all_goals
    cases ca with
    | none => cases h
    | some c0 => exact top_sound ih oa h bottom nonneg hwidth fun _ => rfl

theorem tail_sound {n : Int} (ih : Sound t ρ sem a) (oa : Inferred t exact a ca) (nonneg : 0 ≤ width)
    (inside : n ≤ a.width) (hwidth : width = n)
    (h : Op.component ⟨.expr1Int1 .OP_TAIL, [n], strVal, memoryNode⟩ width sign [ca] = some c) :
    Good t ρ exact c
      (Op.bits sem ρ ⟨.expr1Int1 .OP_TAIL, [n], strVal, memoryNode⟩ width sign [a]) := by
  cases ca with
  | none => cases h
  | some c0 =>
    apply field_sound ih oa h (le_refl 0) nonneg (by omega) (fun _ => .inl (by omega))
    intro b0
    show slice (b0.reading % 2 ^ n.toNat) 0 width.toNat = _
    rw [hwidth]
    exact slice_emod _ (by omega)

theorem shl_sound {n : Int} (ih : Sound t ρ sem a) (oa : Inferred t exact a ca) (count : 0 ≤ n)
    (hwidth : width = a.width + n)
    (h : Op.component ⟨.expr1Int1 .OP_SHL, [n], strVal, memoryNode⟩ width sign [ca] = some c) :
    Good t ρ exact c
      (Op.bits sem ρ ⟨.expr1Int1 .OP_SHL, [n], strVal, memoryNode⟩ width sign [a]) := by
  cases ca with
  | none => cases h
  | some c0 =>
    obtain ⟨b0, hb0, good, width0, -⟩ := oa.good ih
    have wide := good.nonneg
    have total : width = b0.width + n := by rw [hwidth, width0]
    apply shl_good good count total h
    intro used
    have range := good.range used
    have split : width.toNat = b0.width.toNat + n.toNat := by omega
    rw [Op.bits, valuesOf, valuesOf, hb0]
    show slice (b0.reading * 2 ^ n.toNat) 0 width.toNat = _
    rw [split, slice_shiftLeft, reading_slice (.inl (by omega)), slice_whole range.1 range.2]

theorem pad_sound {n : Int} (ih : Sound t ρ sem a) (oa : Inferred t exact a ca) (nonneg : 0 ≤ width)
    (wider : a.width ≤ n) (unsigned : exact = true → a.width = n ∨ signOf a = false)
    (hwidth : width = max a.width n)
    (h : Op.component ⟨.expr1Int1 .OP_PAD, [n], strVal, memoryNode⟩ width sign [ca] = some c) :
    Good t ρ exact c
      (Op.bits sem ρ ⟨.expr1Int1 .OP_PAD, [n], strVal, memoryNode⟩ width sign [a]) := by
  cases ca with
  | none => cases h
  | some c0 =>
    apply field_sound ih oa h (le_refl 0) nonneg (by omega)
    · intro used
      exact (unsigned used).imp_left fun whole => by omega
    · exact fun b0 => rfl

theorem op_sound {child : List (ENode Op)} (ih : ∀ e ∈ child, Sound t ρ sem e) :
    Sound t ρ sem (.op o width sign child) := by
  intro exact sized within c h
  refine ⟨Op.bits sem ρ o width sign child, rfl, ?_⟩
  obtain ⟨opType, values, strVal, memoryNode⟩ := o
  rw [inferComponent, Option.bind_eq_bind, Option.bind_eq_some_iff] at h
  obtain ⟨cs, hcs, run⟩ := h
  obtain ⟨c', h, same⟩ := Option.map_eq_some_iff.mp run
  obtain rfl : c' = c := Option.some_inj.mp same
  clear run same
  rw [Reached] at sized within
  obtain ⟨⟨nonneg, node⟩, sized⟩ := sized
  obtain ⟨safe, within⟩ := within
  dsimp only at node
  split at node
  · obtain ⟨ca, cb, rfl, oa, ob⟩ := operand_two (Bool.and_true exact) hcs sized within
    exact cat_sound (ih _ (by simp)) (ih _ (by simp)) oa ob node h
  · obtain ⟨ca, cb, rfl, oa, ob⟩ := operand_two (Bool.and_false exact) hcs sized within
    exact bitwise_sound (.inl rfl) (ih _ (by simp)) (ih _ (by simp)) oa ob node h
  · obtain ⟨ca, cb, rfl, oa, ob⟩ := operand_two (Bool.and_false exact) hcs sized within
    exact bitwise_sound (.inr (.inl rfl)) (ih _ (by simp)) (ih _ (by simp)) oa ob node h
  · obtain ⟨ca, cb, rfl, oa, ob⟩ := operand_two (Bool.and_false exact) hcs sized within
    exact bitwise_sound (.inr (.inr rfl)) (ih _ (by simp)) (ih _ (by simp)) oa ob node h
  · obtain ⟨k, ca, cb, rfl, oa, ob⟩ := operand_three (Bool.and_false exact) hcs sized within
    exact when_sound (ih _ (by simp)) (ih _ (by simp)) oa ob nonneg node h
  · obtain ⟨k, ca, cb, rfl, oa, ob⟩ := operand_three (Bool.and_false exact) hcs sized within
    exact mux_sound (ih _ (by simp)) (ih _ (by simp)) oa ob node h
  · obtain ⟨ca, rfl, oa⟩ := operand_one (Bool.and_false exact) hcs sized within
    exact not_sound (ih _ (by simp)) oa node h
  · obtain ⟨ca, rfl, oa⟩ := operand_one (Bool.and_true exact) hcs sized within
    exact bits_sound (ih _ (by simp)) oa node.1 nonneg node.2 safe h
  · obtain ⟨ca, rfl, oa⟩ := operand_one (Bool.and_true exact) hcs sized within
    exact headShr_sound (.inl rfl) (ih _ (by simp)) oa node.1 nonneg node.2 h
  · obtain ⟨ca, rfl, oa⟩ := operand_one (Bool.and_true exact) hcs sized within
    exact tail_sound (ih _ (by simp)) oa nonneg node.1 node.2 h
  · obtain ⟨ca, rfl, oa⟩ := operand_one (Bool.and_true exact) hcs sized within
    exact shl_sound (ih _ (by simp)) oa node.1 node.2 h
  · rename_i n a
    obtain ⟨ca, rfl, oa⟩ := operand_one (Bool.and_true exact) hcs sized within
    have inside : n ≤ a.width := safe
    have hwidth : width = a.width - n := node.2.trans (max_eq_left (by omega))
    exact headShr_sound (.inr rfl) (ih _ (by simp)) oa node.1 nonneg hwidth h
  · obtain ⟨ca, rfl, oa⟩ := operand_one (Bool.and_true exact) hcs sized within
    exact pad_sound (ih _ (by simp)) oa nonneg safe.1 safe.2 node h
  · rcases component_hidden node h with rfl | ⟨rfl, literal⟩
    · exact space_good nonneg
    · exact int_good nonneg safe literal

end Operators

theorem tree_sound (recorded : Recorded t ρ) (e : ENode Op) : Sound t ρ sem e := by
  induction e using ENode.induct with
  | null =>
    intro exact sized within c h
    cases h
  | ref node width sign index =>
    intro exact sized within c h
    exact ref_good recorded sized h
  | op o width sign child ih => exact op_sound ih

/-! ## Rebuilding -/

/-- A tree of value `v`. -/
def Evaluates (sem : OtherSemantics) (ρ : Nat → List Int → Int) (e : ENode Op) (v : Int) : Prop :=
  ∃ b, valueOf sem ρ e = some b ∧ b.val = v

theorem not_evaluates {e : ENode Op} {b : Bits} {v : Int} (value : valueOf sem ρ e = some b)
    (h : b.val ≠ v) : ¬ Evaluates sem ρ e v := by
  rintro ⟨b', hb', rfl⟩
  obtain rfl := Option.some.inj (value.symm.trans hb')
  exact h rfl

theorem evaluates_op {o : Op} {width : Int} {sign : Bool} {child : List (ENode Op)} {v : Int}
    (val : Op.value sem o width sign (valuesOf sem ρ child) = v)
    (range : 0 ≤ v ∧ v < 2 ^ width.toNat) : Evaluates sem ρ (.op o width sign child) v := by
  refine ⟨_, rfl, ?_⟩
  show slice (Op.value sem o width sign (valuesOf sem ρ child)) 0 width.toNat = v
  rw [val, slice_whole range.1 range.2]

/-- The node, moved to where the top of its field belongs, and the field cut out of it. -/
theorem masked_evaluates {enode : ENode Op} {N v : Int} {size place : Nat}
    (h : Evaluates sem ρ enode N) (unsigned : signOf enode = false)
    (field : slice N place size = v) {hi lo : Int} (hhi : hi = (place + size : Nat) - 1)
    (hlo : lo = place) :
    Evaluates sem ρ
      (.op ⟨.expr1Int2 .OP_BITS_NOSHIFT, [hi, lo], 0, 0⟩ (hi + 1) false [enode])
      (v * 2 ^ place) := by
  obtain ⟨b, hb, rfl⟩ := h
  have plain : b.reading = b.val := by
    rw [Bits.reading, (valueOf_spec hb).2.1, unsigned]
    rfl
  have count : (hi - lo + 1).toNat = size := by omega
  have bottom : lo.toNat = place := by omega
  have total : (hi + 1).toNat = size + place := by omega
  apply evaluates_op
  · rw [valuesOf, valuesOf, hb]
    show slice b.reading lo.toNat (hi - lo + 1).toNat * 2 ^ lo.toNat = _
    rw [plain, count, bottom, field]
  · rw [total, ← field]
    exact shifted_range ⟨slice_nonneg _ _ _, slice_lt _ _ _⟩

/-- The field `[hi, lo]` of a node, with its top bit moved to `hiBit`. -/
theorem node_evaluates {node : Nat} {val hi lo hiBit : Int} {sign : Bool} {k : Nat}
    (wide : 0 ≤ hi - lo + 1) (base : 0 ≤ lo) (inside : hi < t.width node)
    (place : hiBit = (k + (hi - lo + 1).toNat : Nat) - 1) :
    Evaluates sem ρ (elementRoot t hiBit ⟨.ELE_NODE, node, val, hi, lo, sign⟩)
      (slice (nodeValue ρ t node) lo.toNat (hi - lo + 1).toNat * 2 ^ k) := by
  have range : 0 ≤ nodeValue ρ t node ∧ nodeValue ρ t node < 2 ^ (t.width node).toNat :=
    ⟨slice_nonneg _ _ _, slice_lt _ _ _⟩
  have whole : Evaluates sem ρ (.ref node (t.width node) false []) (nodeValue ρ t node) :=
    ⟨_, rfl, rfl⟩
  have operand : valuesOf sem ρ [.ref node (t.width node) false []] =
      [some ⟨t.width node, false, nodeValue ρ t node⟩] := rfl
  -- Without a mask the field ends with the node.
  have rest : ¬ t.width node - 1 > hi →
      slice (nodeValue ρ t node) lo.toNat (hi - lo + 1).toNat =
        nodeValue ρ t node / 2 ^ lo.toNat := by
    intro top
    apply slice_top range.1
    have total : lo.toNat + (hi - lo + 1).toNat = (t.width node).toNat := by omega
    rw [total]
    exact range.2
  unfold elementRoot
  dsimp only
  rcases lt_trichotomy hi hiBit with up | rfl | down
  · have shifted : Evaluates sem ρ
        (.op ⟨.expr1Int1 .OP_SHL, [hiBit - hi], 0, 0⟩ (t.width node - 1 + (hiBit - hi) + 1) false
          [.ref node (t.width node) false []])
        (nodeValue ρ t node * 2 ^ (hiBit - hi).toNat) := by
      apply evaluates_op
      · rw [operand]
        rfl
      · have total : (t.width node - 1 + (hiBit - hi) + 1).toNat =
            (t.width node).toNat + (hiBit - hi).toNat := by omega
        rw [total]
        exact shifted_range range
    rw [if_pos up]
    dsimp only
    split
    · apply masked_evaluates shifted rfl _ place (by omega)
      have moved : k = (hiBit - hi).toNat + lo.toNat := by omega
      rw [moved, slice_of_shiftLeft]
    · have bottom : lo = 0 := by omega
      have moved : (hiBit - hi).toNat = k := by omega
      rw [rest (by omega), bottom, ← moved]
      simpa using shifted
  · rw [if_neg (lt_irrefl hi), if_neg (lt_irrefl hi)]
    dsimp only
    split
    · apply masked_evaluates whole rfl _ place (by omega)
      have same : k = lo.toNat := by omega
      rw [same]
    · have bottom : lo = 0 := by omega
      have last : k = 0 := by omega
      rw [rest (by omega), bottom, last]
      simpa using whole
  · have field : nodeValue ρ t node / 2 ^ (hi - hiBit).toNat =
        slice (nodeValue ρ t node) (hi - hiBit).toNat (t.width node - 1 - (hi - hiBit) + 1).toNat := by
      symm
      apply slice_top range.1
      have total : (hi - hiBit).toNat + (t.width node - 1 - (hi - hiBit) + 1).toNat =
          (t.width node).toNat := by omega
      rw [total]
      exact range.2
    have shifted : Evaluates sem ρ
        (.op ⟨.expr1Int1 .OP_SHR, [hi - hiBit], 0, 0⟩ (t.width node - 1 - (hi - hiBit) + 1) false
          [.ref node (t.width node) false []])
        (nodeValue ρ t node / 2 ^ (hi - hiBit).toNat) := by
      apply evaluates_op
      · rw [operand]
        rfl
      · rw [field]
        exact ⟨slice_nonneg _ _ _, slice_lt _ _ _⟩
    rw [if_neg (not_lt_of_gt down), if_pos down]
    dsimp only
    split
    · apply masked_evaluates shifted rfl _ place (by omega)
      have moved : (hi - hiBit).toNat + k = lo.toNat := by omega
      rw [slice_ediv, moved]
    · have last : k = 0 := by omega
      have moved : (hi - hiBit).toNat = lo.toNat := by omega
      rw [rest (by omega), last, pow_zero, mul_one, ← moved]
      exact shifted

/-- A constant, shifted to its place. -/
theorem const_evaluates {e : NodeElement} (wf : e.Wf) (inside : e.Inside t.width)
    (other : e.eleType ≠ .ELE_NODE) {hiBit : Int} {k : Nat} (place : hiBit = (k + e.size : Nat) - 1) :
    Evaluates sem ρ (elementRoot t hiBit e) (e.value (nodeValue ρ t) * 2 ^ k) := by
  obtain ⟨wide, -, intLo, notEmpty⟩ := wf
  obtain ⟨-, spaceVal⟩ := inside
  obtain ⟨type, node, val, hi, lo, sign⟩ := e
  have size : NodeElement.size ⟨type, node, val, hi, lo, sign⟩ = (hi - lo + 1).toNat := rfl
  rw [size] at place
  have total : (hiBit + 1).toNat = (hi - lo + 1).toNat + k := by omega
  cases type with
  | ELE_NODE => exact absurd rfl other
  | ELE_EMPTY => exact absurd rfl notEmpty
  | ELE_SPACE =>
    obtain rfl : val = 0 := spaceVal rfl
    refine ⟨_, rfl, ?_⟩
    have zero : (if hiBit > hi then (0 : Int) * 2 ^ (hiBit - hi).toNat
        else if hiBit < hi then Int.tdiv 0 (2 ^ (hi - hiBit).toNat) else 0) = 0 := by
      simp
    show slice (if hiBit > hi then (0 : Int) * 2 ^ (hiBit - hi).toNat
        else if hiBit < hi then Int.tdiv 0 (2 ^ (hi - hiBit).toNat) else 0) 0 _ = 0 * 2 ^ k
    rw [zero, zero_mul, slice_bottom, Int.zero_emod]
  | ELE_INT =>
    obtain rfl : lo = 0 := intLo rfl
    simp only [NodeElement.width] at wide
    refine ⟨_, rfl, ?_⟩
    have moved : (if hiBit > hi then val * 2 ^ (hiBit - hi).toNat
        else if hiBit < hi then Int.tdiv val (2 ^ (hi - hiBit).toNat) else val) = val * 2 ^ k := by
      have down : ¬ hiBit < hi := by omega
      rw [if_neg down]
      split
      · have count : (hiBit - hi).toNat = k := by omega
        rw [count]
      · have last : k = 0 := by omega
        rw [last, pow_zero, mul_one]
    show slice (if hiBit > hi then val * 2 ^ (hiBit - hi).toNat
        else if hiBit < hi then Int.tdiv val (2 ^ (hi - hiBit).toNat) else val) 0
          (hiBit + 1).toNat = slice val 0 (hi - 0 + 1).toNat * 2 ^ k
    rw [moved, total, slice_shiftLeft]

theorem elementRoot_evaluates {e : NodeElement} (wf : e.Wf) (inside : e.Inside t.width) {hiBit : Int}
    {k : Nat} (place : hiBit = (k + e.size : Nat) - 1) :
    Evaluates sem ρ (elementRoot t hiBit e) (e.value (nodeValue ρ t) * 2 ^ k) := by
  by_cases node : e.eleType = .ELE_NODE
  · obtain ⟨type, n, val, hi, lo, sign⟩ := e
    obtain rfl : type = .ELE_NODE := node
    exact node_evaluates wf.1 (wf.2.1 rfl) (inside.1 rfl) place
  · exact const_evaluates wf inside node place

theorem or_evaluates {a b : ENode Op} {v w : Int} {n : Nat} (ha : Evaluates sem ρ a (v * 2 ^ n))
    (hb : Evaluates sem ρ b w) (low : 0 ≤ w ∧ w < 2 ^ n) :
    Evaluates sem ρ (.op ⟨.expr2 .OP_OR, [], 0, 0⟩ (max a.width b.width) false [a, b])
      (v * 2 ^ n + w) := by
  obtain ⟨x, hx, hv⟩ := ha
  obtain ⟨y, hy, rfl⟩ := hb
  obtain ⟨widthX, -, rangeX⟩ := valueOf_spec hx
  obtain ⟨widthY, -, rangeY⟩ := valueOf_spec hy
  have joined : Int.lor x.val y.val = v * 2 ^ n + y.val := by
    rw [hv, lor_shifted _ _ _ low]
  apply evaluates_op
  · rw [valuesOf, valuesOf, valuesOf, hx, hy]
    exact joined
  · have wideX : (2 : Int) ^ x.width.toNat ≤ 2 ^ (max a.width b.width).toNat :=
      two_pow_le (by omega)
    have wideY : (2 : Int) ^ y.width.toNat ≤ 2 ^ (max a.width b.width).toNat :=
      two_pow_le (by omega)
    rw [← joined, ← Int.bitwise_or]
    exact bitwise_range _ rfl _ _ _ ⟨rangeX.1, lt_of_lt_of_le rangeX.2 wideX⟩
      ⟨rangeY.1, lt_of_lt_of_le rangeY.2 wideY⟩

/-- The elements so far are in place above those to come. -/
theorem constructFrom_evaluates {es : List NodeElement} (wf : AllWf es)
    (inside : ∀ e ∈ es, e.Inside t.width) {root : ENode Op} {v : Int}
    (h : Evaluates sem ρ root (v * 2 ^ sizes es)) :
    Evaluates sem ρ (constructFrom t (sizes es - 1) root es)
      (v * 2 ^ sizes es + concat (nodeValue ρ t) es) := by
  induction es generalizing root v with
  | nil =>
    rw [constructFrom, concat, add_zero]
    exact h
  | cons e es ih =>
    have wfHead := wf e List.mem_cons_self
    have size : (e.size : Int) = e.hi - e.lo + 1 := wfHead.size
    have place : (sizes (e :: es) : Int) - 1 = (sizes es + e.size : Nat) - 1 := by
      rw [sizes_cons, Nat.add_comm]
    have here : Evaluates sem ρ (elementRoot t (sizes (e :: es) - 1) e)
        (e.value (nodeValue ρ t) * 2 ^ sizes es) :=
      elementRoot_evaluates wfHead (inside e List.mem_cons_self) place
    have low := shifted_range (n := sizes es) (value_range (nodeValue ρ t) e)
    rw [sizes_cons] at h
    have joined := or_evaluates h here low
    have next : (sizes (e :: es) : Int) - 1 - (e.hi - e.lo + 1) = sizes es - 1 := by
      rw [sizes_cons]
      push_cast
      omega
    have rest := ih (fun f hf => wf f (List.mem_cons_of_mem _ hf))
      (fun f hf => inside f (List.mem_cons_of_mem _ hf)) (v := v * 2 ^ e.size + e.value (nodeValue ρ t))
      (by rwa [add_mul, mul_assoc, ← pow_add])
    have total : v * 2 ^ sizes (e :: es) + concat (nodeValue ρ t) (e :: es) =
        (v * 2 ^ e.size + e.value (nodeValue ρ t)) * 2 ^ sizes es + concat (nodeValue ρ t) es := by
      rw [concat, sizes_cons, pow_add]
      ring
    rw [total]
    cases root with
    | null =>
      obtain ⟨b, hb, -⟩ := h
      cases hb
    | ref node width sign index =>
      rw [constructFrom, next]
      · exact rest
      · rintro ⟨⟩
    | op o width sign child =>
      rw [constructFrom, next]
      · exact rest
      · rintro ⟨⟩

theorem construct_evaluates {c : NodeComponent} (wf : c.Wf t.width) (some' : c.directElements ≠ []) :
    Evaluates sem ρ (constructRootFromComponent t c)
      (concat (nodeValue ρ t) c.directElements) := by
  obtain ⟨elements, direct, width⟩ := c
  cases direct with
  | nil => exact absurd rfl some'
  | cons e es =>
    have wfHead := wf.direct e List.mem_cons_self
    have size : (e.size : Int) = e.hi - e.lo + 1 := wfHead.size
    have total : width = sizes (e :: es) := wf.directWidth.symm
    have place : (sizes (e :: es) : Int) - 1 = (sizes es + e.size : Nat) - 1 := by
      rw [sizes_cons, Nat.add_comm]
    have first : Evaluates sem ρ (elementRoot t (sizes (e :: es) - 1) e)
        (e.value (nodeValue ρ t) * 2 ^ sizes es) :=
      elementRoot_evaluates wfHead (wf.inside e List.mem_cons_self) place
    have next : (sizes (e :: es) : Int) - 1 - (e.hi - e.lo + 1) = sizes es - 1 := by
      rw [sizes_cons]
      push_cast
      omega
    show Evaluates sem ρ (constructFrom t (width - 1) .null (e :: es)) _
    rw [constructFrom, total, next]
    exact constructFrom_evaluates (fun f hf => wf.direct f (List.mem_cons_of_mem _ hf))
      (fun f hf => wf.inside f (List.mem_cons_of_mem _ hf)) first

/-! ## Recording -/

/-- The node has the value of the tree that its component is taken from, and its width. -/
structure Assigned (t : Tables) (ρ : Nat → List Int → Int) (sem : OtherSemantics) (m : Member) : Prop where
  nonneg : 0 ≤ t.width m.node
  tree : m.regSrc = false → ∀ tree, m.source t = some tree →
    Reached (fun _ => Sized t) true tree.root ∧ Reached Within true tree.root ∧
      tree.root.width = t.width m.node ∧ Evaluates sem ρ tree.root (nodeValue ρ t m.node)

theorem Recorded.record (recorded : Recorded t ρ) {node : Nat} {comp : NodeComponent}
    (wf : comp.Wf t.width) (width : comp.width = t.width node)
    (denotes : Denotes (nodeValue ρ t) comp (nodeValue ρ t node)) : Recorded (t.record node comp) ρ where
  component other known h := by
    by_cases same : other = node
    · subst same
      obtain rfl : comp = known := by simpa [Tables.record] using h
      exact .inr ⟨wf.elements, wf.elementsWidth, width, denotes⟩
    · exact recorded.component other known (by simpa [Tables.record, same] using h)
  splitted := recorded.splitted

/-- What is asked of a node does not depend on the record. -/
theorem Assigned.record {m : Member} (assigned : Assigned t ρ sem m) (node : Nat) (comp : NodeComponent) :
    Assigned (t.record node comp) ρ sem m where
  nonneg := assigned.nonneg
  tree := assigned.tree

theorem space_denotes {node : Nat} (h : 0 ≤ t.width node) :
    (spaceComp (t.width node)).Wf t.width ∧ (spaceComp (t.width node)).width = t.width node ∧
      Denotes (nodeValue ρ t) (spaceComp (t.width node)) (nodeValue ρ t node) := by
  have good : Good t ρ true (spaceComp (t.width node)) ⟨t.width node, false, nodeValue ρ t node⟩ :=
    space_good h
  exact ⟨good.wf, good.width, good.denotes rfl⟩

theorem component_denotes (recorded : Recorded t ρ) {m : Member} (assigned : Assigned t ρ sem m)
    {comp : NodeComponent} (h : m.component t = some comp) :
    comp.Wf t.width ∧ comp.width = t.width m.node ∧
      Denotes (nodeValue ρ t) comp (nodeValue ρ t m.node) := by
  rw [Member.component] at h
  split at h
  · obtain rfl := Option.some.inj h
    exact space_denotes assigned.nonneg
  · next other =>
    obtain ⟨_, -, h⟩ := Option.bind_eq_some_iff.mp h
    split at h
    · next tree source =>
      obtain ⟨sized, within, width, b, hb, value⟩ := assigned.tree (by simpa using other) tree source
      obtain ⟨ret, hret, h⟩ := Option.bind_eq_some_iff.mp h
      obtain ⟨c, hc, hsome⟩ := Option.bind_eq_some_iff.mp hret
      obtain rfl : c = some ret := hsome
      obtain ⟨b', hb', good⟩ := tree_sound recorded tree.root true sized within ret hc
      obtain rfl : b = b' := Option.some.inj (hb.symm.trans hb')
      obtain ⟨d, hd, wf, same, denotes⟩ := good.wf.mergeNeighbor_spec
      obtain rfl : d = comp := Option.some.inj (hd.symm.trans h)
      refine ⟨wf, ?_, value ▸ denotes _ _ (good.denotes rfl)⟩
      rw [same, good.width, (valueOf_spec hb).1, width]
    · obtain ⟨_, -, h⟩ := Option.bind_eq_some_iff.mp h
      obtain rfl := Option.some.inj h
      exact space_denotes assigned.nonneg

/-- A turn of the loop passes its `Assert` and keeps what is recorded right. -/
theorem inferMember_recorded (recorded : Recorded t ρ) {m : Member} (assigned : Assigned t ρ sem m)
    {comp : NodeComponent} (h : m.component t = some comp) :
    inferMember t m = some (t.record m.node comp) ∧ Recorded (t.record m.node comp) ρ := by
  obtain ⟨wf, width, denotes⟩ := component_denotes recorded assigned h
  refine ⟨?_, recorded.record wf width denotes⟩
  rw [inferMember, h]
  exact if_pos width.symm

/-- What the loop records of the nodes denotes their values. -/
theorem inferMembers_recorded {members : List Member} {t' : Tables} (recorded : Recorded t ρ)
    (assigned : ∀ m ∈ members, Assigned t ρ sem m) (h : inferMembers t members = some t') :
    Recorded t' ρ := by
  induction members generalizing t with
  | nil =>
    obtain rfl := Option.some.inj h
    exact recorded
  | cons m members ih =>
    obtain ⟨next, hnext, h⟩ := Option.bind_eq_some_iff.mp h
    obtain ⟨comp, hcomp, -⟩ := Option.bind_eq_some_iff.mp hnext
    obtain ⟨turn, recorded⟩ :=
      inferMember_recorded recorded (assigned m List.mem_cons_self) hcomp
    obtain rfl := Option.some.inj (turn.symm.trans hnext)
    exact ih recorded (fun m' hm' => (assigned m' (List.mem_cons_of_mem m hm')).record m.node comp) h

/-- Within the bounds of its operators a tree is what its component says, and the operations
    on components keep to what they denote. -/
theorem inferComponent_denotes (t : Tables) (ρ : Nat → List Int → Int) (sem : OtherSemantics)
    (recorded : Recorded t ρ) (tree : ENode Op) (sized : Reached (fun _ => Sized t) true tree)
    (within : Reached Within true tree) :
    (∀ c, inferComponent t tree = some (some c) →
      c.Wf t.width ∧ c.width = tree.width ∧ totalWidth c.elements = tree.width ∧
        (c.fullValid = true → Evaluates sem ρ tree (concat (nodeValue ρ t) c.elements))) ∧
    ∀ c : NodeComponent, c.Wf t.width →
      c.dup = c ∧
      (∀ lo n : Nat, ∃ d, c.getbits (lo + n - 1) lo = some d ∧ d.Wf t.width ∧ d.width = n ∧
        ∀ ν v, Denotes ν c v → Denotes ν d (slice v lo n)) ∧
      (∀ c' : NodeComponent, c'.Wf t.width →
        ∃ d, c.merge c' = some d ∧ d.Wf t.width ∧ d.width = c.width + c'.width ∧
          ∀ ν v w, Denotes ν c v → Denotes ν c' w → Denotes ν d (v * 2 ^ c'.width.toNat + w)) ∧
      (∃ d, c.mergeNeighbor = some d ∧ d.Wf t.width ∧ d.width = c.width ∧
        ∀ ν v, Denotes ν c v → Denotes ν d v) ∧
      (c.directElements ≠ [] → Evaluates sem ρ (constructRootFromComponent t c)
        (concat (nodeValue ρ t) c.directElements)) := by
  refine ⟨fun c h => ?_, fun c wf => ?_⟩
  · obtain ⟨b, hb, good⟩ := tree_sound recorded tree true sized within c h
    have width : c.width = tree.width := good.width.trans (valueOf_spec hb).1
    refine ⟨good.wf, width, ?_, fun valid => ⟨b, hb, ?_⟩⟩
    · rw [totalWidth_eq good.wf.elements, good.wf.elementsWidth, width]
    · exact ((good.denotes rfl).concat_eq good.wf.elements valid).symm
  · exact ⟨wf.dup_eq, wf.getbits_spec, fun c' wf' => wf.merge_spec wf', wf.mergeNeighbor_spec,
      construct_evaluates wf⟩

end Proofs

/-! ## A graph of six nodes -/

/-- Three inputs of four bits, of which node 1 is signed.  Nodes 3 and 4 become the halves of node 2. -/
def inputs : Tables where
  width node := if node = 3 ∨ node = 4 then 2 else 4
  isArray _ := false
  sign node := node = 1
  componentMap _ := none
  splittedNodesSet _ := none

def select (node : Nat) (hi lo : Int) : ENode Op :=
  .op ⟨.expr1Int2 .OP_BITS, [hi, lo], 0, 0⟩ (hi - lo + 1) false [.ref node 4 false []]

/-- `cat(bits(x, 3, 2), bits(x, 1, 0))`, assigned to node 5. -/
def rejoined : ENode Op := .op ⟨.expr2 .OP_CAT, [], 0, 0⟩ 4 false [select 0 3 2, select 0 1 0]

def members : List Member :=
  [⟨0, false, [], none⟩, ⟨1, false, [], none⟩, ⟨2, false, [], none⟩, ⟨5, false, [⟨rejoined, none⟩], none⟩]

/-- The loop finds that node 5 is `x` again. -/
def visited : Tables :=
  (((inputs.record 0 (spaceComp 4)).record 1 (spaceComp 4)).record 2 (spaceComp 4)).record 5
    (single (.ofNode 0 3 0))

theorem inferMembers_visited : inferMembers inputs members = some visited := rfl

theorem select_sized {hi lo : Int} (hlo : 0 ≤ lo) (h : lo ≤ hi + 1) :
    Reached (fun _ => Sized inputs) true (select 0 hi lo) :=
  ⟨⟨by omega, hlo, rfl⟩, ⟨rfl, by decide, fun _ => rfl⟩, trivial⟩

theorem rejoined_sized : Reached (fun _ => Sized inputs) true rejoined :=
  ⟨⟨by decide, rfl⟩, select_sized (by decide) (by decide), select_sized (by decide) (by decide), trivial⟩

theorem rejoined_within : Reached Within true rejoined :=
  ⟨trivial, ⟨fun _ => .inr rfl, trivial, trivial⟩, ⟨fun _ => .inr rfl, trivial, trivial⟩, trivial⟩

theorem visited_recorded {ρ : Nat → List Int → Int} (sem : OtherSemantics)
    (value : Evaluates sem ρ rejoined (nodeValue ρ inputs 5)) : Recorded visited ρ := by
  have empty : Recorded inputs ρ := by
    constructor
    · intro node known h
      cases h
    · intro node members h
      cases h
  have input : ∀ node : Nat, 0 ≤ inputs.width node →
      Assigned inputs ρ sem ⟨node, false, [], none⟩ :=
    fun node nonneg => ⟨nonneg, fun _ _ h => by cases h⟩
  have assigned : ∀ m ∈ members, Assigned inputs ρ sem m := by
    intro m hm
    simp only [members, List.mem_cons, List.not_mem_nil, or_false] at hm
    rcases hm with rfl | rfl | rfl | rfl
    · exact input 0 (by decide)
    · exact input 1 (by decide)
    · exact input 2 (by decide)
    · refine ⟨by decide, fun _ tree htree => ?_⟩
      obtain rfl := Option.some.inj htree
      exact ⟨rejoined_sized, rejoined_within, rfl, value⟩
  exact inferMembers_recorded empty assigned inferMembers_visited

/-- After node 2 is split. -/
def halved : Tables :=
  { visited with splittedNodesSet := fun node => if node = 2 then some [3, 4] else none }

/-- `cat` of node 5 and node 2. -/
def paired : ENode Op := .op ⟨.expr2 .OP_CAT, [], 0, 0⟩ 8 false [.ref 5 4 false [], .ref 2 4 false []]

/-- `x` is 6 and node 2 is 9. -/
def sixAndNine : Nat → List Int → Int := fun node _ =>
  match node with
  | 2 => 9
  | 3 => 2
  | 4 => 1
  | _ => 6

theorem halved_recorded : Recorded halved sixAndNine where
  component := (visited_recorded (fun _ _ _ _ => 0) ⟨_, rfl, by decide⟩).component
  splitted node members h := by
    rcases ite_eq_iff.mp h with ⟨rfl, h⟩ | ⟨-, h⟩
    · obtain rfl := Option.some.inj h
      decide
    · cases h

/-- The component is `x` beside node 2, and the tree rebuilt from it reads node 5 and the halves. -/
theorem paired_denotes :
    ∃ c d, inferComponent halved paired = some (some c) ∧ c.width = 8 ∧
      Evaluates (fun _ _ _ _ => 0) sixAndNine paired (concat (nodeValue sixAndNine halved) c.elements) ∧
      c.mergeNeighbor = some d ∧ d.width = c.width ∧
      Evaluates (fun _ _ _ _ => 0) sixAndNine (constructRootFromComponent halved c) 105 := by
  obtain ⟨tree, operations⟩ := inferComponent_denotes halved sixAndNine (fun _ _ _ _ => 0) halved_recorded paired
    ⟨⟨by decide, rfl⟩, ⟨rfl, by decide, fun _ => rfl⟩, ⟨rfl, by decide, fun _ => rfl⟩, trivial⟩
    ⟨trivial, trivial, trivial, trivial⟩
  obtain ⟨wf, width, -, value⟩ := tree _ rfl
  obtain ⟨-, -, -, ⟨d, hd, -, same, -⟩, rebuilt⟩ := operations _ wf
  exact ⟨_, d, rfl, width, value rfl, hd, same, rebuilt (fun h => by cases h)⟩

/-- `cat(z, shr(x, 6))` with `z` node 2. -/
def shiftedOut : ENode Op :=
  .op ⟨.expr2 .OP_CAT, [], 0, 0⟩ 4 false
    [.ref 2 4 false [], .op ⟨.expr1Int1 .OP_SHR, [6], 0, 0⟩ 0 false [.ref 0 4 false []]]

/-- `bits(pad(y, 8), 7, 6)` -/
def extended : ENode Op :=
  .op ⟨.expr1Int2 .OP_BITS, [7, 6], 0, 0⟩ 2 false
    [.op ⟨.expr1Int1 .OP_PAD, [8], 0, 0⟩ 8 true [.ref 1 4 true []]]

/-- `bits(SInt<4>(-3), 3, 2)` -/
def signedLiteral : ENode Op :=
  .op ⟨.expr1Int2 .OP_BITS, [3, 2], 0, 0⟩ 2 false [.op ⟨.OP_INT, [], -3, 0⟩ 4 true []]

/-- All elements are valid, yet one component has two bits too few and the others the wrong value. -/
theorem inferComponent_misses :
    Recorded visited (fun _ _ => 8) ∧
    (Reached (fun _ => Sized visited) true shiftedOut ∧
      ∃ c, inferComponent visited shiftedOut = some (some c) ∧ c.fullValid = true ∧ c.width = 2) ∧
    ∀ tree ∈ [extended, signedLiteral], Reached (fun _ => Sized visited) true tree ∧
      ∃ c, inferComponent visited tree = some (some c) ∧ c.fullValid = true ∧
        ¬ Evaluates (fun _ _ _ _ => 0) (fun _ _ => 8) tree
          (concat (nodeValue (fun _ _ => 8) visited) c.elements) := by
  refine ⟨visited_recorded (fun _ _ _ _ => 0) ⟨_, rfl, by decide⟩, ⟨?_, _, rfl, rfl, rfl⟩, ?_⟩
  · exact ⟨⟨by decide, rfl⟩, ⟨rfl, by decide, fun _ => rfl⟩,
      ⟨⟨by decide, by decide, by decide⟩, ⟨rfl, by decide, fun _ => rfl⟩, trivial⟩, trivial⟩
  · intro tree htree
    rcases List.mem_pair.mp htree with rfl | rfl
    · exact ⟨⟨⟨by decide, by decide, by decide⟩,
        ⟨⟨by decide, by decide⟩, ⟨rfl, by decide, fun _ => rfl⟩, trivial⟩, trivial⟩,
        _, rfl, rfl, not_evaluates rfl (by decide)⟩
    · exact ⟨⟨⟨by decide, by decide, by decide⟩, ⟨⟨by decide, rfl⟩, trivial⟩, trivial⟩,
        _, rfl, rfl, not_evaluates rfl (by decide +kernel)⟩

end Gsim.InferComponent
