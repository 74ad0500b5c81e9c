/-
  Gsim/SplitNode.lean
  ===================
  **Values cut into ranges of node bits and constants** (`NodeElement` and
  `NodeComponent` in `splitNode.h`).

  A component lists its elements from the top bit down.  What they denote is their
  concatenation, `concat`; `Agrees` says of an element of which the origin is known
  that it is the field of a value at its place, so that it also speaks of components
  with a gap.  The sets `referNodes` feed the choice of the cuts and denote nothing;
  they are left out.

  The operations act on the denotation as their names say (`getbits_spec`,
  `merge_spec`, `mergeNeighbor_spec`, `dup_eq`), on every component whose two lists
  add up to its width.
-/
import Gsim.BitSlice
import Gsim.OpFuncs
import Gsim.TwosComplement

namespace Gsim.SplitNode

open Gsim.BitSlice Gsim.OpFuncs Gsim.TwosComplement

inductive ElementType where
  | ELE_EMPTY
  | ELE_NODE
  | ELE_INT
  | ELE_SPACE
deriving DecidableEq, Repr

/-- `node` is read in an `ELE_NODE`, `val` and `sign` in an `ELE_INT`. -/
structure NodeElement where
  eleType : ElementType
  node : Nat
  val : Int
  hi : Int
  lo : Int
  sign : Bool
deriving DecidableEq, Repr

namespace NodeElement

def width (e : NodeElement) : Int := e.hi - e.lo + 1

def ofNode (node : Nat) (hi lo : Int) : NodeElement := ⟨.ELE_NODE, node, 0, hi, lo, false⟩

def space (hi lo : Int) : NodeElement := ⟨.ELE_SPACE, 0, 0, hi, lo, false⟩

/-- The count of a shift is unsigned: below zero it is beyond any memory. -/
def updateWidth (e : NodeElement) : Option NodeElement :=
  if 0 ≤ e.width then
    let shifted := if e.lo ≠ 0 then Int.tdiv e.val (2 ^ e.lo.toNat) else e.val
    let masked := Int.land shifted (2 ^ e.width.toNat - 1)
    let val := if e.sign then s_asSInt masked e.width.toNat else masked
    some { e with val := val, hi := e.hi - e.lo, lo := 0 }
  else none

/-- The constructor of a constant. -/
def int (val : Int) (hi lo : Int) (sign : Bool) : Option NodeElement :=
  updateWidth ⟨.ELE_INT, 0, val, hi, lo, sign⟩

/-- Select `[hi, lo]`; `none` is the failed `Assert`. -/
def getBits (e : NodeElement) (hi lo : Int) : Option NodeElement :=
  if hi ≤ e.width then
    match e.eleType with
    | .ELE_NODE => some { e with hi := hi + e.lo, lo := lo + e.lo }
    | .ELE_INT => updateWidth { e with hi := hi, lo := lo }
    | _ => some { e with hi := hi, lo := lo }
  else none

end NodeElement

def compMergable (ele1 ele2 : NodeElement) : Bool :=
  if ele1.eleType ≠ ele2.eleType then false
  else if ele1.eleType = .ELE_NODE then ele1.node = ele2.node ∧ ele1.lo = ele2.hi + 1
  else ele1.eleType ≠ .ELE_SPACE

def NodeElement.merge (e ele : NodeElement) : Option NodeElement :=
  match e.eleType with
  | .ELE_NODE => some { e with lo := ele.lo }
  | .ELE_INT =>
    if 0 ≤ ele.hi - e.lo + 1 then
      NodeElement.updateWidth
        { e with
          val := e.val * 2 ^ (ele.hi - e.lo + 1).toNat + ele.val
          hi := e.hi + (ele.hi + 1) }
    else none
  | _ => some e

structure NodeComponent where
  elements : List NodeElement
  directElements : List NodeElement
  width : Int
deriving Repr

/-- One list after the other, with the ends fused where they continue each other. -/
def mergeElements (front back : List NodeElement) : Option (List NodeElement) :=
  match front.getLast?, back with
  | some last, first :: rest =>
    if compMergable last first then do
      let fused ← last.merge first
      some (front.dropLast ++ fused :: rest)
    else some (front ++ first :: rest)
  | _, _ => some (front ++ back)

def mergeNeighborFrom : List NodeElement → List NodeElement → Option (List NodeElement)
  | newElements, [] => some newElements
  | newElements, e :: rest => do
    let newElements ← mergeElements newElements [e]
    mergeNeighborFrom newElements rest

def totalWidth (es : List NodeElement) : Int := (es.map NodeElement.width).sum

/-- The loop of `getElementBits` and `getDirectBits`; `w` is the place above the next element. -/
def selectFrom (hi lo : Int) : Int → Bool → List NodeElement → Option (List NodeElement)
  | _, _, [] => some []
  | w, start, e :: rest =>
    let bottom := w - e.width
    if start ∨ (w > hi ∧ bottom ≤ hi) then do
      let selected ← e.getBits (min hi (w - 1) - bottom) (max lo bottom - bottom)
      if bottom ≤ lo then some [selected]
      else do
        let more ← selectFrom hi lo bottom true rest
        some (selected :: more)
    else selectFrom hi lo bottom false rest

def selectBits (width : Int) (es : List NodeElement) (hi lo : Int) : Option (List NodeElement) :=
  if width ≤ hi then do
    let zero ← NodeElement.int 0 (hi - max lo width) 0 false
    if max lo (width - 1) < width then do
      let rest ← selectFrom (max lo (width - 1)) lo width false es
      some (zero :: rest)
    else some [zero]
  else selectFrom hi lo width false es

namespace NodeComponent

def addElementAll (c : NodeComponent) (e : NodeElement) : NodeComponent :=
  { c with
    elements := c.elements ++ [e]
    directElements := c.directElements ++ [e]
    width := c.width + e.width }

def addfrontElement (c : NodeComponent) (e : NodeElement) : NodeComponent :=
  { c with elements := e :: c.elements, width := c.width + e.width }

def merge (c node : NodeComponent) : Option NodeComponent := do
  let elements ← mergeElements c.elements node.elements
  let directElements ← mergeElements c.directElements node.directElements
  some ⟨elements, directElements, c.width + node.width⟩

/-- The width is added up again. -/
def dup (c : NodeComponent) : NodeComponent :=
  ⟨c.elements, c.directElements, totalWidth c.elements⟩

def getbits (c : NodeComponent) (hi lo : Int) : Option NodeComponent := do
  let elements ← selectBits c.width c.elements hi lo
  let directElements ← selectBits c.width c.directElements hi lo
  some ⟨elements, directElements, totalWidth elements⟩

def mergeNeighbor (c : NodeComponent) : Option NodeComponent := do
  let elements ← mergeNeighborFrom [] c.elements
  let directElements ← mergeNeighborFrom [] c.directElements
  some { c with elements := elements, directElements := directElements }

def assignSegEq (c comp : NodeComponent) : Bool :=
  comp.width = c.width ∧
    comp.elements.map (fun e => e.hi - e.lo) = c.elements.map (fun e => e.hi - e.lo)

def invalidateAll (c : NodeComponent) : NodeComponent :=
  { c with elements := c.elements.map fun e =>
      { e with eleType := .ELE_SPACE, hi := e.hi - e.lo, lo := 0, node := 0 } }

def invalidateDirectAsWhole (c : NodeComponent) : NodeComponent :=
  { c with directElements := [.space (c.width - 1) 0] }

def fullValid (c : NodeComponent) : Bool :=
  !c.elements.isEmpty && c.elements.all fun e => e.eleType ≠ .ELE_SPACE

end NodeComponent

/-! ## What they denote -/

def NodeElement.size (e : NodeElement) : Nat := e.width.toNat

def sizes (es : List NodeElement) : Nat := (es.map NodeElement.size).sum

@[simp] theorem sizes_nil : sizes [] = 0 := rfl

@[simp] theorem sizes_cons (e : NodeElement) (es : List NodeElement) :
    sizes (e :: es) = e.size + sizes es := rfl

@[simp] theorem sizes_append (es fs : List NodeElement) :
    sizes (es ++ fs) = sizes es + sizes fs := by
  simp [sizes]

/-- The origin of the bits is known. -/
def NodeElement.Known (e : NodeElement) : Prop := e.eleType = .ELE_NODE ∨ e.eleType = .ELE_INT

instance (e : NodeElement) : Decidable e.Known := inferInstanceAs (Decidable (_ ∨ _))

/-- The bits of an element, when the nodes have the values `ρ`. -/
def NodeElement.value (ρ : Nat → Int) (e : NodeElement) : Int :=
  match e.eleType with
  | .ELE_NODE => slice (ρ e.node) e.lo.toNat e.size
  | .ELE_INT => slice e.val 0 e.size
  | _ => 0

def concat (ρ : Nat → Int) : List NodeElement → Int
  | [] => 0
  | e :: es => e.value ρ * 2 ^ sizes es + concat ρ es

/-- Each element has `P` at the place of its lowest bit. -/
def Placed (P : NodeElement → Nat → Prop) : List NodeElement → Prop
  | [] => True
  | e :: es => P e (sizes es) ∧ Placed P es

/-- An element of a known origin is the field of `v` at its place. -/
def FieldOf (ρ : Nat → Int) (v : Int) (e : NodeElement) (place : Nat) : Prop :=
  e.Known → e.value ρ = slice v place e.size

def Agrees (ρ : Nat → Int) (es : List NodeElement) (v : Int) : Prop := Placed (FieldOf ρ v) es

/-- No width is negative; constants start at bit zero and never are cut off below it. -/
def NodeElement.Wf (e : NodeElement) : Prop :=
  0 ≤ e.width ∧ (e.eleType = .ELE_NODE → 0 ≤ e.lo) ∧ (e.eleType = .ELE_INT → e.lo = 0) ∧
    e.eleType ≠ .ELE_EMPTY

/-- A constant is an unsigned number of its width. -/
def NodeElement.Plain (e : NodeElement) : Prop :=
  e.eleType = .ELE_INT → e.sign = false ∧ 0 ≤ e.val ∧ e.val < 2 ^ e.size

def AllWf (es : List NodeElement) : Prop := ∀ e ∈ es, e.Wf

def AllPlain (es : List NodeElement) : Prop := ∀ e ∈ es, e.Plain

theorem allWf_nil : AllWf [] := nofun

theorem NodeElement.Wf.size {e : NodeElement} (h : e.Wf) : (e.size : Int) = e.width :=
  Int.toNat_of_nonneg h.1

theorem totalWidth_eq {es : List NodeElement} (h : AllWf es) : totalWidth es = sizes es := by
  induction es with
  | nil => rfl
  | cons e es ih =>
    have tail := ih fun f hf => h f (List.mem_cons_of_mem _ hf)
    have head := (h e List.mem_cons_self).size
    simp only [totalWidth, List.map_cons, List.sum_cons, sizes_cons] at tail ⊢
    push_cast
    omega

theorem value_range (ρ : Nat → Int) (e : NodeElement) :
    0 ≤ e.value ρ ∧ e.value ρ < 2 ^ e.size := by
  unfold NodeElement.value
  split
  · exact ⟨slice_nonneg _ _ _, slice_lt _ _ _⟩
  · exact ⟨slice_nonneg _ _ _, slice_lt _ _ _⟩
  · exact ⟨le_refl 0, pow_pos two_pos _⟩

/-- Where every origin is known, the concatenation is the value. -/
theorem concat_of_agrees {ρ : Nat → Int} {es : List NodeElement} {v : Int}
    (known : ∀ e ∈ es, e.Known) (h : Agrees ρ es v) : concat ρ es = slice v 0 (sizes es) := by
  induction es with
  | nil => exact (slice_empty v 0).symm
  | cons e es ih =>
    have head := h.1 (known e List.mem_cons_self)
    have tail := ih (fun f hf => known f (List.mem_cons_of_mem _ hf)) h.2
    rw [concat, head, tail, sizes_cons, slice_add, Nat.zero_add]

theorem Placed.imp {P Q : NodeElement → Nat → Prop} {es : List NodeElement}
    (h : ∀ e ∈ es, ∀ place, place + e.size ≤ sizes es → P e place → Q e place)
    (hp : Placed P es) : Placed Q es := by
  induction es with
  | nil => trivial
  | cons e es ih =>
    refine ⟨h e List.mem_cons_self _ (by rw [sizes_cons, Nat.add_comm]) hp.1, ?_⟩
    apply ih _ hp.2
    intro f hf place le
    apply h f (List.mem_cons_of_mem _ hf)
    rw [sizes_cons]
    omega

theorem placed_append {P : NodeElement → Nat → Prop} {es fs : List NodeElement} :
    Placed P (es ++ fs) ↔ Placed (fun e place => P e (sizes fs + place)) es ∧ Placed P fs := by
  induction es with
  | nil => simp [Placed]
  | cons e es ih =>
    rw [List.cons_append, Placed, Placed, ih, sizes_append, Nat.add_comm (sizes fs), and_assoc]

theorem agrees_congr {ρ : Nat → Int} {es : List NodeElement} {v w : Int} {n : Nat}
    (h : Agrees ρ es v) (le : sizes es ≤ n) (same : slice v 0 n = slice w 0 n) : Agrees ρ es w := by
  apply h.imp
  intro e _ place bound field hknown
  have fv := slice_slice v (a := 0) (n := n) (b := place) (m := e.size) (by omega)
  have fw := slice_slice w (a := 0) (n := n) (b := place) (m := e.size) (by omega)
  rw [Nat.zero_add] at fv fw
  rw [field hknown, ← fv, same, fw]

theorem agrees_append {ρ : Nat → Int} {es fs : List NodeElement} {v : Int} :
    Agrees ρ (es ++ fs) v ↔ Agrees ρ es (v / 2 ^ sizes fs) ∧ Agrees ρ fs v := by
  have shifted : (fun e place => FieldOf ρ v e (sizes fs + place)) =
      FieldOf ρ (v / 2 ^ sizes fs) := by
    funext e place
    rw [FieldOf, FieldOf, slice_ediv]
  rw [Agrees, placed_append, shifted]
  rfl

/-! ## Elements -/

theorem updateWidth_spec {e : NodeElement} (hwidth : 0 ≤ e.width) :
    ∃ f, e.updateWidth = some f ∧ f.width = e.width ∧ f.lo = 0 ∧ f.eleType = e.eleType ∧
      f.node = e.node ∧ f.sign = e.sign ∧
      (e.sign = false → 0 ≤ e.val ∨ e.lo = 0 → f.val = slice e.val e.lo.toNat e.size) := by
  unfold NodeElement.updateWidth
  rw [if_pos hwidth]
  refine ⟨_, rfl, ?_, rfl, rfl, rfl, rfl, ?_⟩
  · simp only [NodeElement.width]
    omega
  · intro unsigned nonneg
    have shifted : (if e.lo ≠ 0 then Int.tdiv e.val (2 ^ e.lo.toNat) else e.val) =
        e.val / 2 ^ e.lo.toNat := by
      split
      · rename_i bottom
        exact Int.tdiv_eq_ediv_of_nonneg (nonneg.resolve_right bottom)
      · rename_i zero
        have bottom : e.lo = 0 := not_not.mp zero
        simp [bottom]
    simp only [unsigned, shifted, land_mask]
    rfl

theorem getBits_spec {e : NodeElement} (wf : e.Wf) (hi lo : Int) (hlo : 0 ≤ lo)
    (order : lo ≤ hi + 1) (inside : hi < e.width) :
    ∃ f, e.getBits hi lo = some f ∧ f.Wf ∧ f.width = hi - lo + 1 ∧ f.eleType = e.eleType ∧
      f.node = e.node ∧ (e.eleType = .ELE_NODE → f.hi ≤ e.hi) ∧
      (e.eleType = .ELE_SPACE → f.val = e.val) ∧
      (e.Plain → f.Plain ∧ ∀ ρ, f.value ρ = slice (e.value ρ) lo.toNat f.size) := by
  obtain ⟨wide, nodeLo, intLo, notEmpty⟩ := wf
  obtain ⟨eleType, node, val, top, bottom, sign⟩ := e
  simp only [NodeElement.getBits, if_pos inside.le]
  cases eleType with
  | ELE_NODE =>
    have base : 0 ≤ bottom := nodeLo rfl
    simp only [NodeElement.width] at wide inside
    refine ⟨_, rfl, ⟨?_, ?_, nofun, nofun⟩, ?_, rfl, rfl, ?_, nofun,
      fun _ => ⟨nofun, fun ρ => ?_⟩⟩
    · simp only [NodeElement.width]
      omega
    · intro _
      show 0 ≤ lo + bottom
      omega
    · simp only [NodeElement.width]
      omega
    · intro _
      show hi + bottom ≤ top
      omega
    · simp only [NodeElement.value, NodeElement.size, NodeElement.width]
      rw [slice_slice _ (by omega)]
      congr 1
      omega
  | ELE_INT =>
    have count : 0 ≤ hi - lo + 1 := by omega
    obtain ⟨f, hf, width, zero, type, hnode, hsign, hval⟩ :=
      updateWidth_spec (e := ⟨.ELE_INT, node, val, hi, lo, sign⟩) count
    refine ⟨f, hf, ⟨width.symm ▸ count, ?_, fun _ => zero, ?_⟩, width, type, hnode, nofun, nofun, ?_⟩
    · rw [type]
      nofun
    · rw [type]
      nofun
    · intro plain
      obtain ⟨unsigned, nonneg, lt⟩ := plain rfl
      have size : f.size = (hi - lo + 1).toNat := congrArg Int.toNat width
      have cut : f.val = slice val lo.toNat f.size := by
        rw [hval unsigned (.inl nonneg), size]
        rfl
      have range : 0 ≤ f.val ∧ f.val < 2 ^ f.size := by
        rw [cut]
        exact ⟨slice_nonneg _ _ _, slice_lt _ _ _⟩
      refine ⟨fun _ => ⟨hsign.trans unsigned, range⟩, fun ρ => ?_⟩
      simp only [NodeElement.value, type]
      rw [slice_whole range.1 range.2, slice_whole nonneg lt, cut]
  | ELE_EMPTY => exact absurd rfl notEmpty
  | ELE_SPACE =>
    refine ⟨_, rfl, ⟨?_, nofun, nofun, nofun⟩, rfl, rfl, rfl, nofun, fun _ => rfl,
      fun _ => ⟨nofun, fun ρ => ?_⟩⟩
    · simp only [NodeElement.width]
      omega
    · simp [NodeElement.value, slice]

/-- `f` is the field of `e` from its bit `b` on. -/
structure Cut (e f : NodeElement) (b : Nat) : Prop where
  wf : f.Wf
  inside : b + f.size ≤ e.size
  type : f.eleType = e.eleType
  node : f.node = e.node
  top : e.eleType = .ELE_NODE → f.hi ≤ e.hi
  plain : e.Plain → f.Plain
  value : e.Plain → ∀ ρ, f.value ρ = slice (e.value ρ) b f.size
  space : e.eleType = .ELE_SPACE → f.val = e.val

theorem getBits_cut {e : NodeElement} (wf : e.Wf) (b n : Nat) (h : b + n ≤ e.size) (hi lo : Int)
    (hhi : hi = b + n - 1) (hlo : lo = b) :
    ∃ f, e.getBits hi lo = some f ∧ Cut e f b ∧ f.size = n := by
  subst hhi hlo
  have size := wf.size
  obtain ⟨f, hf, hwf, width, type, node, top, space, values⟩ :=
    getBits_spec wf (b + n - 1) b (by omega) (by omega) (by omega)
  have count : f.size = n := by
    rw [NodeElement.size, width]
    omega
  refine ⟨f, hf, ⟨hwf, by omega, type, node, top, fun p => (values p).1, ?_, space⟩, count⟩
  intro p ρ
  have value := (values p).2 ρ
  rwa [Int.toNat_natCast] at value

/-! ## Selection -/

/-- Every element of `out` is a field of one of `es`, in its place relative to bit `lo`. -/
def Cuts (es out : List NodeElement) (lo : Nat) : Prop :=
  ∀ P Q : NodeElement → Nat → Prop,
    (∀ e ∈ es, ∀ f b place place', Cut e f b → place' + lo = place + b → P e place → Q f place') →
    Placed P es → Placed Q out

theorem Cuts.tail {e : NodeElement} {es out : List NodeElement} {lo : Nat} (h : Cuts es out lo) :
    Cuts (e :: es) out lo := by
  intro P Q closed placed
  exact h P Q (fun f hf => closed f (List.mem_cons_of_mem _ hf)) placed.2

theorem Cuts.single {e f : NodeElement} {es : List NodeElement} {lo b : Nat} (cut : Cut e f b)
    (h : lo = sizes es + b) : Cuts (e :: es) [f] lo := by
  intro P Q closed placed
  refine ⟨?_, trivial⟩
  exact closed e List.mem_cons_self f b (sizes es) 0 cut (by omega) placed.1

theorem Cuts.cons {e f : NodeElement} {es out : List NodeElement} {lo : Nat} (cut : Cut e f 0)
    (size : sizes out + lo = sizes es) (h : Cuts es out lo) : Cuts (e :: es) (f :: out) lo := by
  intro P Q closed placed
  refine ⟨?_, h.tail P Q closed placed⟩
  exact closed e List.mem_cons_self f 0 (sizes es) (sizes out) cut (by omega) placed.1

/-- Below the element in which the range starts, all is taken down to `lo`. -/
theorem selectFrom_started {es : List NodeElement} (wf : AllWf es) (hi : Int) (lo : Nat)
    (hlo : lo < sizes es) (hhi : (sizes es : Int) ≤ hi + 1) :
    ∃ out, selectFrom hi lo (sizes es) true es = some out ∧ AllWf out ∧
      sizes out + lo = sizes es ∧ Cuts es out lo := by
  induction es with
  | nil => exact absurd hlo (Nat.not_lt_zero lo)
  | cons e es ih =>
    have wfHead := wf e List.mem_cons_self
    have size := wfHead.size
    rw [sizes_cons] at hlo hhi ⊢
    push_cast at hhi ⊢
    have bottom : (e.size : Int) + sizes es - e.width = sizes es := by omega
    have top : min hi ((e.size : Int) + sizes es - 1) - sizes es = e.size - 1 := by omega
    simp only [selectFrom, true_or, if_true, bottom, top]
    by_cases last : sizes es ≤ lo
    · obtain ⟨b, rfl⟩ := Nat.exists_eq_add_of_le last
      obtain ⟨f, hf, cut, count⟩ := getBits_cut wfHead b (e.size - b) (by omega)
        (e.size - 1) (max ((sizes es + b : Nat) : Int) (sizes es) - sizes es)
        (by omega) (by omega)
      rw [hf]
      refine ⟨[f], ?_, ?_, ?_, .single cut rfl⟩
      · simp
      · simpa [AllWf] using cut.wf
      · simp only [sizes_cons, sizes_nil]
        omega
    · obtain ⟨f, hf, cut, count⟩ := getBits_cut wfHead 0 e.size (by omega)
        (e.size - 1) (max (lo : Int) (sizes es) - sizes es) (by omega) (by omega)
      obtain ⟨out, hout, wfOut, sum, cuts⟩ :=
        ih (fun f hf => wf f (List.mem_cons_of_mem _ hf)) (by omega) (by omega)
      have more : ¬ (sizes es : Int) ≤ lo := by omega
      rw [hf, hout]
      refine ⟨f :: out, ?_, ?_, ?_, .cons cut sum cuts⟩
      · simp [more]
      · exact List.forall_mem_cons.mpr ⟨cut.wf, wfOut⟩
      · rw [sizes_cons]
        omega

theorem selectFrom_spec {es : List NodeElement} (wf : AllWf es) (lo n : Nat)
    (h : lo + n ≤ sizes es) :
    ∃ out, selectFrom (lo + n - 1) lo (sizes es) false es = some out ∧ AllWf out ∧
      sizes out = n ∧ Cuts es out lo := by
  induction es with
  | nil =>
    have none : n = 0 := by
      rw [sizes_nil] at h
      omega
    exact ⟨[], rfl, nofun, none.symm, fun _ _ _ _ => trivial⟩
  | cons e es ih =>
    have wfHead := wf e List.mem_cons_self
    have wfTail : AllWf es := fun f hf => wf f (List.mem_cons_of_mem _ hf)
    have size := wfHead.size
    rw [sizes_cons] at h ⊢
    push_cast
    have bottom : (e.size : Int) + sizes es - e.width = sizes es := by omega
    have top : min ((lo : Int) + n - 1) ((e.size : Int) + sizes es - 1) - sizes es =
        lo + n - 1 - sizes es := by omega
    simp only [selectFrom, bottom, top]
    by_cases here : sizes es < lo + n
    · have start : false = true ∨ ((e.size : Int) + sizes es > lo + n - 1 ∧
          (sizes es : Int) ≤ lo + n - 1) := .inr ⟨by omega, by omega⟩
      rw [if_pos start]
      by_cases last : sizes es ≤ lo
      · obtain ⟨b, rfl⟩ := Nat.exists_eq_add_of_le last
        obtain ⟨f, hf, cut, count⟩ := getBits_cut wfHead b n (by omega)
          (((sizes es + b : Nat) : Int) + n - 1 - sizes es)
          (max ((sizes es + b : Nat) : Int) (sizes es) - sizes es) (by omega) (by omega)
        rw [hf]
        refine ⟨[f], ?_, ?_, ?_, .single cut rfl⟩
        · simp
        · simpa [AllWf] using cut.wf
        · simp only [sizes_cons, sizes_nil]
          omega
      · obtain ⟨f, hf, cut, count⟩ := getBits_cut wfHead 0 (lo + n - sizes es)
          (by omega) (lo + n - 1 - sizes es) (max (lo : Int) (sizes es) - sizes es)
          (by omega) (by omega)
        obtain ⟨out, hout, wfOut, sum, cuts⟩ :=
          selectFrom_started wfTail (lo + n - 1) lo (by omega) (by omega)
        have more : ¬ (sizes es : Int) ≤ lo := by omega
        rw [hf, hout]
        refine ⟨f :: out, ?_, ?_, ?_, .cons cut sum cuts⟩
        · simp [more]
        · exact List.forall_mem_cons.mpr ⟨cut.wf, wfOut⟩
        · rw [sizes_cons]
          omega
    · have later : ¬ (false = true ∨ ((e.size : Int) + sizes es > lo + n - 1 ∧
          (sizes es : Int) ≤ lo + n - 1)) := by
        rintro (h | h)
        · cases h
        · omega
      rw [if_neg later]
      obtain ⟨out, hout, wfOut, count, cuts⟩ := ih wfTail (by omega)
      exact ⟨out, hout, wfOut, count, cuts.tail⟩

/-- A constant zero above `es`. -/
structure ZeroFill (W lo : Nat) (z : NodeElement) (place : Nat) : Prop where
  wf : z.Wf
  type : z.eleType = .ELE_INT
  sign : z.sign = false
  val : z.val = 0
  above : W ≤ place + lo

theorem zero_spec (hi : Int) (h : -1 ≤ hi) :
    ∃ z, NodeElement.int 0 hi 0 false = some z ∧ z.Wf ∧ z.eleType = .ELE_INT ∧ z.sign = false ∧
      z.val = 0 ∧ (z.size : Int) = hi + 1 := by
  obtain ⟨z, hz, width, zero, type, -, sign, val⟩ :=
    updateWidth_spec (e := ⟨.ELE_INT, 0, 0, hi, 0, false⟩) (by simp only [NodeElement.width]; omega)
  have width : z.width = hi + 1 := by
    rw [width]
    simp only [NodeElement.width]
    omega
  refine ⟨z, hz, ⟨by omega, ?_, fun _ => zero, ?_⟩, type, sign, ?_, ?_⟩
  · rw [type]
    nofun
  · rw [type]
    nofun
  · rw [val rfl (.inr rfl)]
    simp [slice]
  · rw [NodeElement.size, width]
    omega

/-- `getElementBits`: fields of the elements, and zeros above them. -/
theorem selectBits_spec {es : List NodeElement} (wf : AllWf es) (lo n : Nat) :
    ∃ out, selectBits (sizes es) es (lo + n - 1) lo = some out ∧ AllWf out ∧ sizes out = n ∧
      ∀ P Q : NodeElement → Nat → Prop,
        (∀ e ∈ es, ∀ f b place place', Cut e f b → place' + lo = place + b → P e place →
          Q f place') →
        (∀ z place, ZeroFill (sizes es) lo z place → Q z place) → Placed P es → Placed Q out := by
  unfold selectBits
  by_cases above : (sizes es : Int) ≤ lo + n - 1
  · rw [if_pos above]
    obtain ⟨z, hz, wfZ, type, sign, val, count⟩ :=
      zero_spec ((lo : Int) + n - 1 - max (lo : Int) (sizes es)) (by omega)
    rw [hz]
    by_cases inside : lo < sizes es
    · have top : max (lo : Int) ((sizes es : Int) - 1) = lo + (sizes es - lo : Nat) - 1 := by omega
      obtain ⟨out, hout, wfOut, sum, cuts⟩ :=
        selectFrom_spec wf lo (sizes es - lo) (by omega)
      have taken : (lo : Int) + (sizes es - lo : Nat) - 1 < sizes es := by omega
      simp only [top, if_pos taken, hout, Option.bind_eq_bind, Option.bind_some]
      refine ⟨z :: out, rfl, ?_, ?_, ?_⟩
      · exact List.forall_mem_cons.mpr ⟨wfZ, wfOut⟩
      · rw [sizes_cons]
        omega
      · intro P Q closed zeros placed
        exact ⟨zeros z _ ⟨wfZ, type, sign, val, by omega⟩, cuts P Q closed placed⟩
    · have skipped : ¬ max (lo : Int) ((sizes es : Int) - 1) < sizes es := by omega
      simp only [if_neg skipped, Option.bind_eq_bind, Option.bind_some]
      refine ⟨[z], rfl, ?_, ?_, ?_⟩
      · simpa [AllWf] using wfZ
      · simp only [sizes_cons, sizes_nil]
        omega
      · intro P Q _ zeros _
        exact ⟨zeros z _ ⟨wfZ, type, sign, val, by simp only [sizes_nil]; omega⟩, trivial⟩
  · rw [if_neg above]
    obtain ⟨out, hout, wfOut, sum, cuts⟩ := selectFrom_spec wf lo n (by omega)
    exact ⟨out, hout, wfOut, sum, fun P Q closed _ placed => cuts P Q closed placed⟩

theorem placed_of_forall {P : NodeElement → Prop} {es : List NodeElement} (h : ∀ e ∈ es, P e) :
    Placed (fun e _ => P e) es := by
  induction es with
  | nil => trivial
  | cons e es ih =>
    exact ⟨h e List.mem_cons_self, ih fun f hf => h f (List.mem_cons_of_mem _ hf)⟩

theorem forall_of_placed {P : NodeElement → Prop} {es : List NodeElement}
    (h : Placed (fun e _ => P e) es) : ∀ e ∈ es, P e := by
  induction es with
  | nil => nofun
  | cons e es ih => exact List.forall_mem_cons.mpr ⟨h.1, ih h.2⟩

/-- Bit selection, with zeros above the top. -/
theorem select_denotes {ρ : Nat → Int} {es : List NodeElement} (wf : AllWf es) (plain : AllPlain es)
    {v : Int} (range : 0 ≤ v ∧ v < 2 ^ sizes es) (agrees : Agrees ρ es v) (lo n : Nat) :
    ∃ out, selectBits (sizes es) es (lo + n - 1) lo = some out ∧ AllWf out ∧ sizes out = n ∧
      AllPlain out ∧ Agrees ρ out (slice v lo n) := by
  obtain ⟨out, hout, wfOut, sum, fields⟩ := selectBits_spec wf lo n
  refine ⟨out, hout, wfOut, sum, ?_, ?_⟩
  · apply forall_of_placed
    apply fields (fun e _ => e.Plain) _ _ _ (placed_of_forall plain)
    · intro e _ f b place place' cut _ he
      exact cut.plain he
    · intro z place zero _
      rw [zero.val]
      exact ⟨zero.sign, le_refl 0, pow_pos two_pos _⟩
  · have shifted : Agrees ρ out (v / 2 ^ lo) := by
      apply fields (FieldOf ρ v) _ _ _ agrees
      · intro e he f b place place' cut where' field known
        have origin : e.Known := by
          rw [NodeElement.Known, ← cut.type]
          exact known
        rw [cut.value (plain e he), field origin, slice_slice _ cut.inside, slice_ediv]
        congr 1
        omega
      · intro z place zero known
        have high : v < 2 ^ (lo + place) :=
          lt_of_lt_of_le range.2 (two_pow_le (by have := zero.above; omega))
        rw [slice_ediv, slice_above range.1 high, NodeElement.value, zero.type, zero.val]
        simp [slice]
    apply agrees_congr shifted (le_of_eq sum)
    rw [slice_bottom, slice_bottom, slice, Int.emod_emod_of_dvd _ (dvd_refl _)]

/-! ## Fusing -/

/-- `f` is `e1` followed by `e2`. -/
structure Fused (e1 e2 f : NodeElement) : Prop where
  wf : f.Wf
  size : f.size = e1.size + e2.size
  type1 : f.eleType = e1.eleType
  type2 : f.eleType = e2.eleType
  node : f.node = e1.node
  top : f.eleType = .ELE_NODE → f.hi = e1.hi
  notSpace : f.eleType ≠ .ELE_SPACE
  plain : e1.Plain → e2.Plain → f.Plain
  value : e1.Plain → e2.Plain → ∀ ρ, f.value ρ = e1.value ρ * 2 ^ e2.size + e2.value ρ

theorem merge_nodes (node : Nat) (v1 v2 : Int) (sign1 sign2 : Bool) {hi1 hi2 lo2 : Int}
    (order1 : hi2 ≤ hi1) (order2 : lo2 ≤ hi2 + 1) (base : 0 ≤ lo2) :
    Fused ⟨.ELE_NODE, node, v1, hi1, hi2 + 1, sign1⟩ ⟨.ELE_NODE, node, v2, hi2, lo2, sign2⟩
      ⟨.ELE_NODE, node, v1, hi1, lo2, sign1⟩ := by
  have sum : (hi1 - lo2 + 1).toNat = (hi1 - (hi2 + 1) + 1).toNat + (hi2 - lo2 + 1).toNat := by omega
  have place : (hi2 + 1).toNat = lo2.toNat + (hi2 - lo2 + 1).toNat := by omega
  refine ⟨⟨?_, fun _ => base, nofun, nofun⟩, sum, rfl, rfl, rfl, fun _ => rfl, nofun,
    fun _ _ => nofun, ?_⟩
  · simp only [NodeElement.width]
    omega
  · intro _ _ ρ
    simp only [NodeElement.value, NodeElement.size, NodeElement.width]
    rw [sum, slice_add, place]

theorem merge_ints (node1 node2 : Nat) {v1 v2 hi1 hi2 : Int} (sign1 sign2 : Bool)
    (wide1 : -1 ≤ hi1) (wide2 : -1 ≤ hi2) :
    ∃ f, NodeElement.merge ⟨.ELE_INT, node1, v1, hi1, 0, sign1⟩
        ⟨.ELE_INT, node2, v2, hi2, 0, sign2⟩ = some f ∧
      Fused ⟨.ELE_INT, node1, v1, hi1, 0, sign1⟩ ⟨.ELE_INT, node2, v2, hi2, 0, sign2⟩ f := by
  have count : 0 ≤ hi2 - 0 + 1 := by omega
  obtain ⟨f, hf, width, bottom, type, node, sign, val⟩ := updateWidth_spec
    (e := ⟨.ELE_INT, node1, v1 * 2 ^ (hi2 - 0 + 1).toNat + v2, hi1 + (hi2 + 1), 0, sign1⟩)
    (by simp only [NodeElement.width]; omega)
  have sum : f.size = (hi1 - 0 + 1).toNat + (hi2 - 0 + 1).toNat := by
    rw [NodeElement.size, width]
    simp only [NodeElement.width]
    omega
  have cut : NodeElement.Plain ⟨.ELE_INT, node1, v1, hi1, 0, sign1⟩ →
      NodeElement.Plain ⟨.ELE_INT, node2, v2, hi2, 0, sign2⟩ →
      f.sign = false ∧ f.val = v1 * 2 ^ (hi2 - 0 + 1).toNat + v2 ∧ 0 ≤ f.val ∧ f.val < 2 ^ f.size := by
    intro plain1 plain2
    obtain ⟨unsigned, range1⟩ := plain1 rfl
    obtain ⟨-, range2⟩ := plain2 rfl
    have range := cat_range range1 range2
    have size : NodeElement.size
        ⟨.ELE_INT, node1, v1 * 2 ^ (hi2 - 0 + 1).toNat + v2, hi1 + (hi2 + 1), 0, sign1⟩ =
        (hi1 - 0 + 1).toNat + (hi2 - 0 + 1).toNat := by
      simp only [NodeElement.size, NodeElement.width]
      omega
    have whole : f.val = v1 * 2 ^ (hi2 - 0 + 1).toNat + v2 := by
      rw [val unsigned (.inl range.1), size]
      exact slice_whole range.1 range.2
    refine ⟨sign.trans unsigned, whole, ?_⟩
    rw [whole, sum]
    exact range
  refine ⟨f, ?_, ⟨?_, ?_, fun _ => bottom, ?_⟩, sum, type, type, node, ?_, ?_, ?_, ?_⟩
  · simp only [NodeElement.merge, if_pos count]
    exact hf
  · rw [width]
    simp only [NodeElement.width]
    omega
  · rw [type]
    nofun
  · rw [type]
    nofun
  · rw [type]
    nofun
  · rw [type]
    nofun
  · intro plain1 plain2 _
    obtain ⟨unsigned, -, range⟩ := cut plain1 plain2
    exact ⟨unsigned, range⟩
  · intro plain1 plain2 ρ
    obtain ⟨-, whole, range⟩ := cut plain1 plain2
    obtain ⟨-, range1⟩ := plain1 rfl
    obtain ⟨-, range2⟩ := plain2 rfl
    simp only [NodeElement.value, type]
    rw [slice_whole range.1 range.2, slice_whole range1.1 range1.2,
      slice_whole range2.1 range2.2, whole]
    rfl

theorem merge_fused {e1 e2 : NodeElement} (wf1 : e1.Wf) (wf2 : e2.Wf)
    (h : compMergable e1 e2 = true) : ∃ f, e1.merge e2 = some f ∧ Fused e1 e2 f := by
  obtain ⟨wide1, -, intLo1, notEmpty1⟩ := wf1
  obtain ⟨wide2, nodeLo2, intLo2, -⟩ := wf2
  unfold compMergable at h
  split at h
  · cases h
  · rename_i sameType
    obtain ⟨type1, node1, v1, hi1, lo1, sign1⟩ := e1
    obtain ⟨type2, node2, v2, hi2, lo2, sign2⟩ := e2
    obtain rfl : type1 = type2 := not_not.mp sameType
    simp only [NodeElement.width] at wide1 wide2
    cases type1 with
    | ELE_NODE =>
      obtain ⟨rfl, rfl⟩ : node1 = node2 ∧ lo1 = hi2 + 1 := by simpa using h
      have base : 0 ≤ lo2 := nodeLo2 rfl
      exact ⟨_, rfl, merge_nodes node1 v1 v2 sign1 sign2 (by omega) (by omega) base⟩
    | ELE_INT =>
      obtain rfl : lo1 = 0 := intLo1 rfl
      obtain rfl : lo2 = 0 := intLo2 rfl
      exact merge_ints node1 node2 sign1 sign2 (by omega) (by omega)
    | ELE_EMPTY => exact absurd rfl notEmpty1
    | ELE_SPACE => simp at h

/-- `merge` puts one list behind the other; at most their ends are fused. -/
theorem mergeElements_spec {front back : List NodeElement} (wf1 : AllWf front) (wf2 : AllWf back) :
    ∃ out, mergeElements front back = some out ∧ AllWf out ∧
      sizes out = sizes front + sizes back ∧
      ∀ P : NodeElement → Nat → Prop,
        (∀ e1 e2 f place, Fused e1 e2 f → P e1 (e2.size + place) → P e2 place → P f place) →
        Placed P (front ++ back) → Placed P out := by
  have apart : AllWf (front ++ back) := fun e he => (List.mem_append.mp he).elim (wf1 e) (wf2 e)
  unfold mergeElements
  split
  · rename_i last first rest hlast
    obtain ⟨init, rfl⟩ := List.getLast?_eq_some_iff.mp hlast
    split
    · rename_i mergable
      have wfLast := wf1 last (by simp)
      have wfFirst := wf2 first (by simp)
      obtain ⟨f, hf, fused⟩ := merge_fused wfLast wfFirst mergable
      have shape : (init ++ [last]).dropLast = init := by simp
      rw [hf, shape]
      refine ⟨init ++ f :: rest, rfl, ?_, ?_, ?_⟩
      · intro e he
        rcases List.mem_append.mp he with he | he
        · exact wf1 e (by simp [he])
        · rcases List.mem_cons.mp he with rfl | he
          · exact fused.wf
          · exact wf2 e (List.mem_cons_of_mem _ he)
      · simp only [sizes_append, sizes_cons, sizes_nil, fused.size]
        omega
      · intro P closed placed
        rw [List.append_assoc, placed_append] at placed
        rw [placed_append]
        obtain ⟨onFront, onLast, onFirst, onRest⟩ := placed
        refine ⟨?_, closed _ _ _ _ fused onLast onFirst, onRest⟩
        simp only [List.singleton_append, sizes_cons] at onFront
        simpa only [sizes_cons, fused.size, Nat.add_assoc] using onFront
    · exact ⟨_, rfl, apart, sizes_append _ _, fun _ _ placed => placed⟩
  · exact ⟨_, rfl, apart, sizes_append _ _, fun _ _ placed => placed⟩

theorem mergeNeighborFrom_spec {acc es : List NodeElement} (wf1 : AllWf acc) (wf2 : AllWf es) :
    ∃ out, mergeNeighborFrom acc es = some out ∧ AllWf out ∧ sizes out = sizes acc + sizes es ∧
      ∀ P : NodeElement → Nat → Prop,
        (∀ e1 e2 f place, Fused e1 e2 f → P e1 (e2.size + place) → P e2 place → P f place) →
        Placed P (acc ++ es) → Placed P out := by
  induction es generalizing acc with
  | nil =>
    refine ⟨acc, rfl, wf1, rfl, fun P _ placed => ?_⟩
    rwa [List.append_nil] at placed
  | cons e es ih =>
    have wfHead : AllWf [e] := by simpa [AllWf] using wf2 e List.mem_cons_self
    obtain ⟨next, hnext, wfNext, sumNext, keeps⟩ := mergeElements_spec wf1 wfHead
    obtain ⟨out, hout, wfOut, sum, keepsRest⟩ :=
      ih wfNext fun f hf => wf2 f (List.mem_cons_of_mem _ hf)
    refine ⟨out, ?_, wfOut, ?_, fun P closed placed => ?_⟩
    · rw [mergeNeighborFrom, hnext]
      exact hout
    · rw [sum, sumNext]
      simp only [sizes_cons, sizes_nil]
      omega
    · apply keepsRest P closed
      rw [← List.singleton_append, ← List.append_assoc, placed_append] at placed
      rw [placed_append]
      refine ⟨?_, placed.2⟩
      apply keeps _ _ placed.1
      intro e1 e2 f place fused p1 p2
      refine closed e1 e2 f _ fused ?_ p2
      rwa [← Nat.add_assoc, Nat.add_comm (sizes es), Nat.add_assoc] at p1

/-- A predicate that two fields of `v` hand on to their concatenation. -/
theorem fieldOf_fused {ρ : Nat → Int} {v : Int} {e1 e2 f : NodeElement} {place : Nat}
    (fused : Fused e1 e2 f) (h1 : e1.Plain ∧ FieldOf ρ v e1 (e2.size + place))
    (h2 : e2.Plain ∧ FieldOf ρ v e2 place) : f.Plain ∧ FieldOf ρ v f place := by
  refine ⟨fused.plain h1.1 h2.1, fun known => ?_⟩
  have known1 : e1.Known := by
    rw [NodeElement.Known, ← fused.type1]
    exact known
  have known2 : e2.Known := by
    rw [NodeElement.Known, ← fused.type2]
    exact known
  rw [fused.value h1.1 h2.1, fused.size, slice_add, h1.2 known1, h2.2 known2,
    Nat.add_comm place]

theorem placed_and {P Q : NodeElement → Nat → Prop} {es : List NodeElement} :
    Placed (fun e place => P e place ∧ Q e place) es ↔ Placed P es ∧ Placed Q es := by
  induction es with
  | nil => simp [Placed]
  | cons e es ih =>
    simp only [Placed, ih]
    tauto

theorem mergeElements_denotes {ρ : Nat → Int} {front back : List NodeElement} (wf1 : AllWf front)
    (wf2 : AllWf back) (plain1 : AllPlain front) (plain2 : AllPlain back) {v : Int}
    (agrees : Agrees ρ (front ++ back) v) :
    ∃ out, mergeElements front back = some out ∧ AllWf out ∧
      sizes out = sizes front + sizes back ∧ AllPlain out ∧ Agrees ρ out v := by
  obtain ⟨out, hout, wfOut, sum, keeps⟩ := mergeElements_spec wf1 wf2
  have plain : AllPlain (front ++ back) :=
    fun e he => (List.mem_append.mp he).elim (plain1 e) (plain2 e)
  have both := keeps (fun e place => e.Plain ∧ FieldOf ρ v e place)
    (fun _ _ _ _ => fieldOf_fused) (placed_and.mpr ⟨placed_of_forall plain, agrees⟩)
  obtain ⟨plainOut, agreesOut⟩ := placed_and.mp both
  exact ⟨out, hout, wfOut, sum, forall_of_placed plainOut, agreesOut⟩

theorem mergeNeighbor_denotes {ρ : Nat → Int} {es : List NodeElement} (wf : AllWf es)
    (plain : AllPlain es) {v : Int} (agrees : Agrees ρ es v) :
    ∃ out, mergeNeighborFrom [] es = some out ∧ AllWf out ∧ sizes out = sizes es ∧
      AllPlain out ∧ Agrees ρ out v := by
  obtain ⟨out, hout, wfOut, sum, keeps⟩ := mergeNeighborFrom_spec allWf_nil wf
  have both := keeps (fun e place => e.Plain ∧ FieldOf ρ v e place)
    (fun _ _ _ _ => fieldOf_fused) (placed_and.mpr ⟨placed_of_forall plain, agrees⟩)
  obtain ⟨plainOut, agreesOut⟩ := placed_and.mp both
  rw [sizes_nil, Nat.zero_add] at sum
  exact ⟨out, hout, wfOut, sum, forall_of_placed plainOut, agreesOut⟩

/-! ## Components -/

/-- A node is cut inside its width, and a gap has no value. -/
def NodeElement.Inside (limit : Nat → Int) (e : NodeElement) : Prop :=
  (e.eleType = .ELE_NODE → e.hi < limit e.node) ∧ (e.eleType = .ELE_SPACE → e.val = 0)

/-- Both lists add up to the width. -/
structure NodeComponent.Wf (limit : Nat → Int) (c : NodeComponent) : Prop where
  elements : AllWf c.elements
  elementsWidth : (sizes c.elements : Int) = c.width
  direct : AllWf c.directElements
  directWidth : (sizes c.directElements : Int) = c.width
  inside : ∀ e ∈ c.directElements, e.Inside limit

/-- The elements of a known origin are the fields of `v`. -/
structure Denotes (ρ : Nat → Int) (c : NodeComponent) (v : Int) : Prop where
  plain : AllPlain c.elements
  range : 0 ≤ v ∧ v < 2 ^ sizes c.elements
  agrees : Agrees ρ c.elements v

variable {limit : Nat → Int}

theorem Cut.inside_node {e f : NodeElement} {b : Nat} (cut : Cut e f b) (h : e.Inside limit) :
    f.Inside limit := by
  refine ⟨fun node => ?_, fun space => ?_⟩
  · have type : e.eleType = .ELE_NODE := cut.type ▸ node
    rw [cut.node]
    exact lt_of_le_of_lt (cut.top type) (h.1 type)
  · have type : e.eleType = .ELE_SPACE := cut.type ▸ space
    rw [cut.space type]
    exact h.2 type

theorem selectBits_inside {es out : List NodeElement} (wf : AllWf es) {lo n : Nat}
    (inside : ∀ e ∈ es, e.Inside limit)
    (h : selectBits (sizes es) es (lo + n - 1) lo = some out) : ∀ e ∈ out, e.Inside limit := by
  obtain ⟨out', hout, -, -, fields⟩ := selectBits_spec wf lo n
  obtain rfl : out' = out := Option.some_inj.mp (hout.symm.trans h)
  apply forall_of_placed
  apply fields (fun e _ => e.Inside limit) _ _ _ (placed_of_forall inside)
  · intro e _ f b place place' cut _ he
    exact cut.inside_node he
  · intro z place zero
    rw [NodeElement.Inside, zero.type]
    exact ⟨nofun, nofun⟩

theorem fused_inside {e1 e2 f : NodeElement} (fused : Fused e1 e2 f)
    (h1 : e1.Inside limit) (_ : e2.Inside limit) : f.Inside limit := by
  refine ⟨fun node => ?_, fun space => absurd space fused.notSpace⟩
  rw [fused.top node, fused.node]
  exact h1.1 (fused.type1 ▸ node)

/-- `dup` copies. -/
theorem NodeComponent.Wf.dup_eq {c : NodeComponent} (h : c.Wf limit) : c.dup = c := by
  rw [NodeComponent.dup, totalWidth_eq h.elements, h.elementsWidth]

/-- `getbits` selects bits. -/
theorem NodeComponent.Wf.getbits_spec {c : NodeComponent} (h : c.Wf limit) (lo n : Nat) :
    ∃ d, c.getbits (lo + n - 1) lo = some d ∧ d.Wf limit ∧ d.width = n ∧
      ∀ ρ v, Denotes ρ c v → Denotes ρ d (slice v lo n) := by
  obtain ⟨elements, helements, wf, sum, -⟩ := selectBits_spec h.elements lo n
  obtain ⟨direct, hdirect, wfDirect, sumDirect, -⟩ := selectBits_spec h.direct lo n
  have inside := selectBits_inside h.direct h.inside hdirect
  have width : totalWidth elements = n := by rw [totalWidth_eq wf, sum]
  have taken := helements
  rw [h.elementsWidth] at helements
  rw [h.directWidth] at hdirect
  refine ⟨⟨elements, direct, totalWidth elements⟩, ?_, ?_, width, fun ρ v denotes => ?_⟩
  · simp only [NodeComponent.getbits, helements, hdirect, Option.bind_eq_bind, Option.bind_some]
  · exact ⟨wf, by rw [sum, width], wfDirect, by rw [sumDirect, width], inside⟩
  · obtain ⟨out, hout, -, sumOut, plain, agrees⟩ :=
      select_denotes h.elements denotes.plain denotes.range denotes.agrees lo n
    obtain rfl : out = elements := Option.some_inj.mp (hout.symm.trans taken)
    refine ⟨plain, ?_, agrees⟩
    show 0 ≤ slice v lo n ∧ slice v lo n < 2 ^ sizes out
    rw [sumOut]
    exact ⟨slice_nonneg _ _ _, slice_lt _ _ _⟩

/-- `merge` concatenates. -/
theorem NodeComponent.Wf.merge_spec {c node : NodeComponent} (h : c.Wf limit)
    (hnode : node.Wf limit) :
    ∃ d, c.merge node = some d ∧ d.Wf limit ∧ d.width = c.width + node.width ∧
      ∀ ρ v w, Denotes ρ c v → Denotes ρ node w →
        Denotes ρ d (v * 2 ^ node.width.toNat + w) := by
  obtain ⟨elements, helements, wf, sum, -⟩ := mergeElements_spec h.elements hnode.elements
  obtain ⟨direct, hdirect, wfDirect, sumDirect, keeps⟩ :=
    mergeElements_spec h.direct hnode.direct
  have below : sizes node.elements = node.width.toNat := by
    rw [← hnode.elementsWidth]
    rfl
  refine ⟨⟨elements, direct, c.width + node.width⟩, ?_, ?_, rfl, fun ρ v w hv hw => ?_⟩
  · simp only [NodeComponent.merge, helements, hdirect, Option.bind_eq_bind, Option.bind_some]
  · refine ⟨wf, ?_, wfDirect, ?_, ?_⟩
    · show (sizes elements : Int) = c.width + node.width
      rw [sum, ← h.elementsWidth, ← hnode.elementsWidth]
      push_cast
      rfl
    · show (sizes direct : Int) = c.width + node.width
      rw [sumDirect, ← h.directWidth, ← hnode.directWidth]
      push_cast
      rfl
    · apply forall_of_placed
      apply keeps (fun e _ => e.Inside limit) fun _ _ _ _ => fused_inside
      apply placed_of_forall
      intro e he
      exact (List.mem_append.mp he).elim (h.inside e) (hnode.inside e)
  · have apart : Agrees ρ (c.elements ++ node.elements) (v * 2 ^ node.width.toNat + w) := by
      rw [← below]
      refine agrees_append.mpr ⟨?_, ?_⟩
      · rw [cat_ediv hw.range.1 hw.range.2]
        exact hv.agrees
      · apply agrees_congr hw.agrees (le_refl _)
        exact (slice_cat_low v w (by omega)).symm
    obtain ⟨out, hout, -, -, plain, agrees⟩ :=
      mergeElements_denotes h.elements hnode.elements hv.plain hw.plain apart
    obtain rfl : out = elements := Option.some_inj.mp (hout.symm.trans helements)
    refine ⟨plain, ?_, agrees⟩
    show 0 ≤ _ ∧ _ < 2 ^ sizes out
    rw [sum, ← below]
    exact cat_range hv.range hw.range

/-- `mergeNeighbor` changes nothing but the cuts. -/
theorem NodeComponent.Wf.mergeNeighbor_spec {c : NodeComponent} (h : c.Wf limit) :
    ∃ d, c.mergeNeighbor = some d ∧ d.Wf limit ∧ d.width = c.width ∧
      ∀ ρ v, Denotes ρ c v → Denotes ρ d v := by
  obtain ⟨elements, helements, wf, sum, -⟩ := mergeNeighborFrom_spec allWf_nil h.elements
  obtain ⟨direct, hdirect, wfDirect, sumDirect, keeps⟩ :=
    mergeNeighborFrom_spec allWf_nil h.direct
  rw [sizes_nil, Nat.zero_add] at sum sumDirect
  refine ⟨⟨elements, direct, c.width⟩, ?_, ?_, rfl, fun ρ v hv => ?_⟩
  · simp only [NodeComponent.mergeNeighbor, helements, hdirect, Option.bind_eq_bind,
      Option.bind_some]
  · refine ⟨wf, ?_, wfDirect, ?_, ?_⟩
    · show (sizes elements : Int) = c.width
      rw [sum, h.elementsWidth]
    · show (sizes direct : Int) = c.width
      rw [sumDirect, h.directWidth]
    · apply forall_of_placed
      apply keeps (fun e _ => e.Inside limit) fun _ _ _ _ => fused_inside
      exact placed_of_forall h.inside
  · obtain ⟨out, hout, -, -, plain, agrees⟩ :=
      mergeNeighbor_denotes h.elements hv.plain hv.agrees
    obtain rfl : out = elements := Option.some_inj.mp (hout.symm.trans helements)
    refine ⟨plain, ?_, agrees⟩
    show 0 ≤ v ∧ v < 2 ^ sizes out
    rw [sum]
    exact hv.range

/-- A component without a gap is its value. -/
theorem Denotes.concat_eq {ρ : Nat → Int} {c : NodeComponent} {v : Int} (h : Denotes ρ c v)
    (wf : AllWf c.elements) (valid : c.fullValid = true) : concat ρ c.elements = v := by
  have known : ∀ e ∈ c.elements, e.Known := by
    intro e he
    have parts : c.elements.isEmpty = false ∧ ∀ e ∈ c.elements, e.eleType ≠ .ELE_SPACE := by
      simpa [NodeComponent.fullValid] using valid
    have notSpace := parts.2 e he
    have notEmpty := (wf e he).2.2.2
    cases type : e.eleType with
    | ELE_NODE => exact .inl type
    | ELE_INT => exact .inr type
    | ELE_SPACE => exact absurd type notSpace
    | ELE_EMPTY => exact absurd type notEmpty
  rw [concat_of_agrees known h.agrees, slice_whole h.range.1 h.range.2]

end Gsim.SplitNode
