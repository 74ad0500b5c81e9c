/-
  Gsim/AssignmentFolding.lean
  ===========================
  **Folding the assignments of one node** (`graph::constantAnalysis` in
  `constantNode.cpp`, `fillEmptyWhen` in `splitArray.cpp`).

  A node has its assignments in order, and the last one to assign decides.  The loop
  goes by what `consEMap` has of the roots: it drops a tree that is recorded as empty,
  moves a constant or an invalid one into the absent branches of the next tree, and
  prunes the others.

  Nothing looks at a record again after a tree has been filled, so that a tree is
  dropped as empty with the constant that was moved into it.  `FoldKeeps` rules that
  out, and asks of the pruned trees what `Keeps` asks.
-/
import Gsim.ConstantPruning

namespace Gsim.AssignmentFolding

open Gsim.TwosComplement Gsim.ConstantNode Gsim.ConstantRecords Gsim.ConstantTree
open Gsim.ConstantPruning

/-! ## What is recorded of a tree -/

def emptyRecord : Record := { Record.new 0 false with status := .VAL_EMPTY }

def statusIs (status : ValStatus) (c : Option Record) : Bool := c.any fun info => info.status = status

/-- A branch that assigns nothing. -/
def absent (c : Option Record) : Bool := c.isNone || statusIs .VAL_EMPTY c

def sameConstant (c : Option Record) : Bool := c.any fun info => info.sameConstant

def assignmentCons (c : Option Record) : Int := (c.map fun info => info.assignmentCons).getD 0

/-- The record of a `when`, from those of its children; an absent child has none. -/
def consWhen (type : NodeType) (width : Nat) (sign : Bool) (c0 : Record) (c1 c2 : Option Record) : Record :=
  let ret := Record.new width sign
  let same (c : Option Record) : Record :=
    if sameConstant c then { ret with sameConstant := true, assignmentCons := assignmentCons c } else ret
  if c0.status = .VAL_CONSTANT then
    if c0.consVal = 0 then c2.getD emptyRecord else c1.getD emptyRecord
  else if statusIs .VAL_CONSTANT c1 && (statusIs .VAL_CONSTANT c2 &&
      c1.map (fun info => info.consVal) == c2.map (fun info => info.consVal)) then c1.getD emptyRecord
  else if statusIs .VAL_INVALID c1 && type == .NODE_OTHERS then c2.getD emptyRecord
  else if statusIs .VAL_INVALID c2 && type == .NODE_OTHERS then c1.getD emptyRecord
  else if absent c1 && absent c2 then { ret with status := .VAL_EMPTY }
  else if absent c1 then same c2
  else if absent c2 then same c1
  else if sameConstant c1 && (sameConstant c2 && assignmentCons c1 == assignmentCons c2) then same c1
  else ret

/-- `info` is what `ENode::computeConstant` records of the tree.  Of an expression it matters
    that it is never empty, and that a constant is of the recorded type. -/
def Computed (type : NodeType) : ENode → Record → Prop
  | .null, _ => False
  | .select h .OP_WHEN c0 c1 c2, info => ∃ info0, c0.cons = some info0 ∧
    info = consWhen type h.width h.sign info0 c1.cons c2.cons ∧
    (c1 = .null ∨ ∃ info1, c1.cons = some info1 ∧ Computed type c1 info1) ∧
    (c2 = .null ∨ ∃ info2, c2.cons = some info2 ∧ Computed type c2 info2)
  | _, info => info.status ≠ .VAL_EMPTY ∧
    (info.status = .VAL_CONSTANT → Fits info.sign info.width info.consVal)

/-- The tree whose record becomes that of the node: the last one that assigns, or the last. -/
def lastAssigning (infos : List Record) : Option Nat :=
  infos.zipIdx.foldl (fun ret (info, i) =>
    if (info.status ≠ .VAL_INVALID ∧ info.status ≠ .VAL_EMPTY) ∨ (i + 1 = infos.length ∧ ret = none) then some i
    else ret) none

/-- What feeds an external module is not folded away. -/
def promote (feedsExt : Bool) (info : Record) : Record :=
  if feedsExt && (info.status == .VAL_INVALID || (info.status == .VAL_EMPTY || info.status == .VAL_VALID)) then
    { info with status := .VAL_EXT }
  else info

structure NodeRecords where
  /-- `status == CONSTANT_NODE` -/
  constant : Bool
  /-- The entries of `consEMap` for the roots: promoting the node's record changes its tree's too. -/
  roots : List Record

/-- `Node::computeConstant` for a node with assignments, as far as the loop below reads it. -/
def computeConstant (type : NodeType) (feedsExt : Bool) (infos : List Record) : NodeRecords :=
  match lastAssigning infos with
  | none => ⟨false, infos⟩
  | some i =>
    let ret := promote feedsExt (infos.getD i emptyRecord)
    ⟨ret.status == .VAL_CONSTANT ||
        type == .NODE_OTHERS && (ret.status == .VAL_INVALID || ret.status == .VAL_EMPTY),
      infos.modify i (promote feedsExt)⟩

/-! ## The loop -/

/-- An absent branch of a `when` becomes a copy. -/
def fillChild (oldENode : ENode) (op : SelectOp) (c filled : ENode) : ENode :=
  match op, c with
  | .OP_WHEN, .null => oldENode
  | _, _ => filled

mutual

def fillEmptyENodeWhen (oldENode : ENode) : ENode → ENode
  | .null => .null
  | .ref h nodePtr child => .ref h nodePtr (fillAll oldENode child)
  | .index c0 => .index (fillEmptyENodeWhen oldENode c0)
  | .indexInt values0 => .indexInt values0
  | .int h strVal => .int h strVal
  | .invalid h => .invalid h
  | .select h op c0 c1 c2 => .select h op (fillEmptyENodeWhen oldENode c0)
      (fillChild oldENode op c1 (fillEmptyENodeWhen oldENode c1))
      (fillChild oldENode op c2 (fillEmptyENodeWhen oldENode c2))
  | .expr1 h op c0 => .expr1 h op (fillEmptyENodeWhen oldENode c0)
  | .expr1Int1 h op c0 n => .expr1Int1 h op (fillEmptyENodeWhen oldENode c0) n
  | .expr1Int2 h op c0 hi lo => .expr1Int2 h op (fillEmptyENodeWhen oldENode c0) hi lo
  | .expr2 h op c0 c1 => .expr2 h op (fillEmptyENodeWhen oldENode c0) (fillEmptyENodeWhen oldENode c1)
  | .other h op values child => .other h op values (fillAll oldENode child)

def fillAll (oldENode : ENode) : List ENode → List ENode
  | [] => []
  | e :: es => fillEmptyENodeWhen oldENode e :: fillAll oldENode es

end

def fillEmptyWhen (newTree : ETree) (oldNode : ENode) : ETree :=
  { newTree with root := fillEmptyENodeWhen oldNode newTree.root }

/-- What a constant or an invalid tree leaves behind: `allocIntEnode`, or a new `OP_INVALID`. -/
def filler (info : Record) : ENode :=
  if info.status = .VAL_CONSTANT then
    .int ⟨info.width, info.sign || decide (info.consVal < 0), none⟩ info.consVal
  else .invalid ⟨0, false, none⟩

/-- `moved` is what the tree before left for this one. -/
def foldTrees : Option ENode → List ETree → List ETree
  | _, [] => []
  | moved, tree :: rest =>
    let tree := moved.elim tree (fillEmptyWhen tree)
    let cons := tree.root.cons
    if statusIs .VAL_EMPTY cons then foldTrees none rest
    else if !rest.isEmpty && (statusIs .VAL_INVALID cons || statusIs .VAL_CONSTANT cons) then
      foldTrees (some (filler (cons.getD emptyRecord))) rest
    else tree.removeConstant :: foldTrees none rest

def isNull : ENode → Bool
  | .null => true
  | _ => false

/-- The loop over `assignTree`, and the trees whose root is left. -/
def foldAssignments (assignTree : List ETree) : List ETree :=
  (foldTrees none assignTree).filter fun tree => !isNull tree.root

/-! ## Executing the assignments -/

/-- The assignments in order take the node from `v` to `v'`. -/
def Runs (sem : OtherSemantics) (any : ENode → Prop) (ρ : Nat → List Int → Int) :
    List ETree → Int → Int → Prop
  | [], v, v' => v' = v
  | tree :: rest, v, v' => ∃ r, tree.root.Gives sem any ρ r ∧ Runs sem any ρ rest (r.getD v) v'

/-- No tree is dropped as empty right after a constant was moved into it, and the trees that
    are pruned keep width and sign. -/
def FoldKeeps : Bool → List ETree → Prop
  | _, [] => True
  | constantMoved, tree :: rest =>
    let cons := tree.root.cons
    if statusIs .VAL_EMPTY cons then constantMoved = false ∧ FoldKeeps false rest
    else if !rest.isEmpty && (statusIs .VAL_INVALID cons || statusIs .VAL_CONSTANT cons) then
      FoldKeeps (statusIs .VAL_CONSTANT cons) rest
    else Keeps tree.root ∧ FoldKeeps false rest

/-! ## Records of the roots -/

/-- The root has its own record, or that record promoted. -/
def RootCached (type : NodeType) (root : ENode) : Prop :=
  ∃ info, Computed type root info ∧
    (root.cons = some info ∨ root.cons = some { info with status := .VAL_EXT })

theorem promote_cases (feedsExt : Bool) (info : Record) :
    promote feedsExt info = info ∨ promote feedsExt info = { info with status := .VAL_EXT } := by
  unfold promote
  split
  · exact .inr rfl
  · exact .inl rfl

/-- The record of the node that a root has in `consEMap`. -/
def RootRecord (info root : Record) : Prop := root = info ∨ root = { info with status := .VAL_EXT }

theorem forall₂_modify (feedsExt : Bool) (i : Nat) (infos : List Record) :
    List.Forall₂ RootRecord infos (infos.modify i (promote feedsExt)) := by
  induction infos generalizing i with
  | nil =>
    rw [List.modify_nil]
    exact .nil
  | cons info infos ih =>
    cases i with
    | zero => exact .cons (promote_cases feedsExt info) (List.forall₂_same.mpr fun _ _ => .inl rfl)
    | succ i => exact .cons (.inl rfl) (ih i)

theorem roots_cases (type : NodeType) (feedsExt : Bool) (infos : List Record) :
    List.Forall₂ RootRecord infos (computeConstant type feedsExt infos).roots := by
  unfold computeConstant
  split
  · exact List.forall₂_same.mpr fun _ _ => .inl rfl
  · exact forall₂_modify feedsExt _ infos

/-- The trees of a node as the loop finds them: every root has what `Node::computeConstant`
    left of its record. -/
structure Member where
  type : NodeType
  feedsExt : Bool
  assignTree : List ETree
  infos : List Record
  computed : List.Forall₂ (fun tree info => Computed type tree.root info) assignTree infos
  cached : List.Forall₂ (fun tree root => tree.root.cons = some root) assignTree
    (computeConstant type feedsExt infos).roots

theorem Member.rootCached (m : Member) : ∀ tree ∈ m.assignTree, RootCached m.type tree.root := by
  have all : ∀ {trees : List ETree} {infos roots : List Record},
      List.Forall₂ (fun tree info => Computed m.type tree.root info) trees infos →
      List.Forall₂ RootRecord infos roots →
      List.Forall₂ (fun tree root => tree.root.cons = some root) trees roots →
      ∀ tree ∈ trees, RootCached m.type tree.root := by
    intro trees infos roots computed records cached
    induction computed generalizing roots with
    | nil => exact fun _ h => nomatch h
    | @cons tree info _ _ hcomputed _ ih =>
      cases records with
      | cons hrecord records =>
        cases cached with
        | cons hcached cached =>
          intro t ht
          rcases List.mem_cons.mp ht with rfl | ht
          · refine ⟨info, hcomputed, ?_⟩
            rw [hcached]
            exact hrecord.imp (congrArg some) (congrArg some)
          · exact ih records cached t ht
  exact all m.computed (roots_cases _ _ _) m.cached

/-! ## What a recorded status says -/

section Status

variable {sem : OtherSemantics} {ρ : Nat → List Int → Int} {type : NodeType}

theorem statusIs_some {status : ValStatus} {c : Option Record} (h : statusIs status c = true) :
    ∃ info, c = some info ∧ info.status = status := by
  cases c with
  | none => cases h
  | some info => exact ⟨info, rfl, of_decide_eq_true h⟩

theorem takes_of_record {e : ENode} {info : Record} (consistent : e.Consistent sem ρ)
    (hc : e.cons = some info) (hs : info.status = .VAL_CONSTANT) :
    e.Takes sem ENode.Invalid ρ (some info.consVal) := by
  have present : e ≠ .null := by
    rintro rfl
    cases hc
  exact consistent.self present info hc hs

theorem absent_of_getD {c : Option Record} (h : (c.getD emptyRecord).status = .VAL_EMPTY) :
    absent c = true := by
  cases c with
  | none => rfl
  | some info => exact decide_eq_true h

theorem some_of_getD {c : Option Record} (h : (c.getD emptyRecord).status = .VAL_CONSTANT) :
    ∃ info, c = some info ∧ c.getD emptyRecord = info := by
  cases c with
  | none => cases h
  | some info => exact ⟨info, rfl, rfl⟩

section ConsWhen

variable {width : Nat} {sign : Bool} {c0 : Record} {c1 c2 : Option Record}

/-- The record of a `when`: that of one of its branches, an empty one, or one that says nothing. -/
theorem consWhen_cases {r : Record} (h : consWhen type width sign c0 c1 c2 = r) :
    (c0.status = .VAL_CONSTANT ∧ c0.consVal = 0 ∧ c2.getD emptyRecord = r) ∨
    (c0.status = .VAL_CONSTANT ∧ c0.consVal ≠ 0 ∧ c1.getD emptyRecord = r) ∨
    (statusIs .VAL_CONSTANT c1 = true ∧ c1.getD emptyRecord = r) ∨
    (statusIs .VAL_INVALID c1 = true ∧ c2.getD emptyRecord = r) ∨
    (statusIs .VAL_INVALID c2 = true ∧ c1.getD emptyRecord = r) ∨
    (absent c1 = true ∧ absent c2 = true ∧ r.status = .VAL_EMPTY) ∨ r.status = .VAL_VALID := by
  have sameOf : ∀ {c : Option Record}, (if sameConstant c = true then
      { Record.new width sign with sameConstant := true, assignmentCons := assignmentCons c }
      else Record.new width sign) = r → r.status = .VAL_VALID := by
    intro c hc
    obtain ⟨-, rfl⟩ | ⟨-, rfl⟩ := ite_eq_iff.mp hc <;> rfl
  obtain ⟨hc, h⟩ | ⟨-, h⟩ := ite_eq_iff.mp h
  · obtain ⟨zero, h⟩ | ⟨ne, h⟩ := ite_eq_iff.mp h
    · exact .inl ⟨hc, zero, h⟩
    · exact .inr (.inl ⟨hc, ne, h⟩)
  right; right
  obtain ⟨hc, h⟩ | ⟨-, h⟩ := ite_eq_iff.mp h
  · exact .inl ⟨((Bool.and_eq_true _ _).mp hc).1, h⟩
  right
  obtain ⟨hc, h⟩ | ⟨-, h⟩ := ite_eq_iff.mp h
  · exact .inl ⟨((Bool.and_eq_true _ _).mp hc).1, h⟩
  right
  obtain ⟨hc, h⟩ | ⟨-, h⟩ := ite_eq_iff.mp h
  · exact .inl ⟨((Bool.and_eq_true _ _).mp hc).1, h⟩
  right
  obtain ⟨hc, rfl⟩ | ⟨-, h⟩ := ite_eq_iff.mp h
  · obtain ⟨h1, h2⟩ := (Bool.and_eq_true _ _).mp hc
    exact .inl ⟨h1, h2, rfl⟩
  right
  obtain ⟨-, h⟩ | ⟨-, h⟩ := ite_eq_iff.mp h
  · exact sameOf h
  obtain ⟨-, h⟩ | ⟨-, h⟩ := ite_eq_iff.mp h
  · exact sameOf h
  obtain ⟨-, h⟩ | ⟨-, rfl⟩ := ite_eq_iff.mp h
  · exact sameOf h
  · rfl

/-- How a `when` comes to be recorded as empty. -/
theorem consWhen_empty (h : (consWhen type width sign c0 c1 c2).status = .VAL_EMPTY) :
    (c0.status = .VAL_CONSTANT ∧ c0.consVal = 0 ∧ absent c2 = true) ∨
    (c0.status = .VAL_CONSTANT ∧ c0.consVal ≠ 0 ∧ absent c1 = true) ∨
    ((statusIs .VAL_INVALID c1 = true ∨ absent c1 = true) ∧
      (statusIs .VAL_INVALID c2 = true ∨ absent c2 = true)) := by
  rcases consWhen_cases (Eq.refl (consWhen type width sign c0 c1 c2)) with
    ⟨hc, zero, hr⟩ | ⟨hc, ne, hr⟩ | ⟨hc, hr⟩ | ⟨hc, hr⟩ | ⟨hc, hr⟩ | ⟨h1, h2, -⟩ | hr
  · rw [← hr] at h
    exact .inl ⟨hc, zero, absent_of_getD h⟩
  · rw [← hr] at h
    exact .inr (.inl ⟨hc, ne, absent_of_getD h⟩)
  · obtain ⟨info, rfl, hs⟩ := statusIs_some hc
    rw [← hr] at h
    exact nomatch hs.symm.trans h
  · rw [← hr] at h
    exact .inr (.inr ⟨.inl hc, .inr (absent_of_getD h)⟩)
  · rw [← hr] at h
    exact .inr (.inr ⟨.inr (absent_of_getD h), .inl hc⟩)
  · exact .inr (.inr ⟨.inr h1, .inr h2⟩)
  · exact nomatch hr.symm.trans h

/-- A `when` recorded as constant has the record of one of its branches. -/
theorem consWhen_constant {info : Record} (hi : consWhen type width sign c0 c1 c2 = info)
    (h : info.status = .VAL_CONSTANT) : c1 = some info ∨ c2 = some info := by
  have handed : ∀ {c : Option Record}, c.getD emptyRecord = info → c = some info := by
    intro c hc
    obtain ⟨i, rfl, hi⟩ := some_of_getD ((congrArg (fun r : Record => r.status) hc).trans h)
    exact congrArg some (hi.symm.trans hc)
  rcases consWhen_cases hi with
    ⟨-, -, hr⟩ | ⟨-, -, hr⟩ | ⟨-, hr⟩ | ⟨-, hr⟩ | ⟨-, hr⟩ | ⟨-, -, hr⟩ | hr
  · exact .inr (handed hr)
  · exact .inl (handed hr)
  · exact .inl (handed hr)
  · exact .inr (handed hr)
  · exact .inl (handed hr)
  · exact nomatch hr.symm.trans h
  · exact nomatch hr.symm.trans h

end ConsWhen

/-- A tree recorded as empty may assign nothing. -/
theorem Computed.gives_none {e : ENode} {info : Record} (computed : Computed type e info)
    (shape : e.Statement) (consistent : e.Consistent sem ρ) (empty : info.status = .VAL_EMPTY) :
    e.Gives sem ENode.Invalid ρ none := by
  induction e using ENode.induct generalizing info with
  | null => exact computed.elim
  | invalid h => exact .inl (.inl trivial)
  | select h op c0 c1 c2 ih0 ih1 ih2 =>
    cases op with
    | OP_MUX => exact absurd empty computed.1
    | OP_WHEN =>
      obtain ⟨info0, hc0, rfl, computed1, computed2⟩ := computed
      obtain ⟨-, cons0, cons1, cons2⟩ := consistent
      obtain ⟨shape0, shape1, shape2⟩ := shape
      -- a branch that is absent or recorded as empty
      have branch1 : absent c1.cons = true → c1.Gives sem ENode.Invalid ρ none := by
        intro hab
        rcases computed1 with rfl | ⟨info1, hc1, computed1⟩
        · exact .inr rfl
        · rw [hc1] at hab
          exact ih1 computed1 shape1 cons1 (of_decide_eq_true hab)
      have branch2 : absent c2.cons = true → c2.Gives sem ENode.Invalid ρ none := by
        intro hab
        rcases computed2 with rfl | ⟨info2, hc2, computed2⟩
        · exact .inr rfl
        · rw [hc2] at hab
          exact ih2 computed2 shape2 cons2 (of_decide_eq_true hab)
      have open1 : statusIs .VAL_INVALID c1.cons = true ∨ absent c1.cons = true →
          c1.Gives sem ENode.Invalid ρ none := fun h => h.elim (fun h => .inl (.inr (statusIs_some h))) branch1
      have open2 : statusIs .VAL_INVALID c2.cons = true ∨ absent c2.cons = true →
          c2.Gives sem ENode.Invalid ρ none := fun h => h.elim (fun h => .inl (.inr (statusIs_some h))) branch2
      right
      rcases consWhen_empty empty with ⟨hs, hz, h2⟩ | ⟨hs, hn, h1⟩ | ⟨h1, h2⟩
      · have h0 := takes_of_record cons0 hc0 hs
        exact ⟨_, h0, fun hn => absurd hz hn, fun _ => branch2 h2⟩
      · have h0 := takes_of_record cons0 hc0 hs
        exact ⟨_, h0, fun _ => branch1 h1, fun hz => absurd hz hn⟩
      · obtain ⟨v0, hv0⟩ : ∃ v, c0.Takes sem ENode.Invalid ρ (some v) := c0.takes_exists (.inl shape0)
        exact ⟨v0, hv0, fun _ => open1 h1, fun _ => open2 h2⟩
  | _ => exact absurd empty computed.1

/-- A recorded constant is of the recorded type. -/
theorem Computed.fits {e : ENode} {info : Record} (computed : Computed type e info)
    (constant : info.status = .VAL_CONSTANT) : Fits info.sign info.width info.consVal := by
  induction e using ENode.induct generalizing info with
  | null => exact computed.elim
  | select h op c0 c1 c2 ih0 ih1 ih2 =>
    cases op with
    | OP_MUX => exact computed.2 constant
    | OP_WHEN =>
      obtain ⟨info0, -, hi, computed1, computed2⟩ := computed
      rcases consWhen_constant hi.symm constant with h1 | h2
      · rcases computed1 with rfl | ⟨info1, hc1, computed1⟩
        · cases h1
        · obtain rfl := Option.some.inj (hc1.symm.trans h1)
          exact ih1 computed1 constant
      · rcases computed2 with rfl | ⟨info2, hc2, computed2⟩
        · cases h2
        · obtain rfl := Option.some.inj (hc2.symm.trans h2)
          exact ih2 computed2 constant
  | _ => exact computed.2 constant

theorem RootCached.computed {root : ENode} {status : ValStatus} (cached : RootCached type root)
    (h : statusIs status root.cons = true) (promoted : status ≠ .VAL_EXT) :
    ∃ info, root.cons = some info ∧ info.status = status ∧ Computed type root info := by
  obtain ⟨info, hc, hs⟩ := statusIs_some h
  obtain ⟨info', computed, hroot | hroot⟩ := cached
  · obtain rfl := Option.some.inj (hc.symm.trans hroot)
    exact ⟨info, hc, hs, computed⟩
  · obtain rfl := Option.some.inj (hc.symm.trans hroot)
    exact absurd hs.symm promoted

end Status

/-! ## Filling -/

section Fill

variable {sem : OtherSemantics} {ρ : Nat → List Int → Int} {oldENode : ENode}

theorem fillAll_eq_map (es : List ENode) : fillAll oldENode es = es.map (fillEmptyENodeWhen oldENode) := by
  induction es with
  | nil => rfl
  | cons e es ih => rw [fillAll, ih, List.map_cons]

theorem fillAll_of_forall {es : List ENode} (h : ∀ e ∈ es, fillEmptyENodeWhen oldENode e = e) :
    fillAll oldENode es = es := by
  calc fillAll oldENode es = es.map (fillEmptyENodeWhen oldENode) := fillAll_eq_map es
    _ = es.map id := List.map_congr_left h
    _ = es := List.map_id es

/-- There is no `when` in an expression. -/
theorem fill_expression (e : ENode) (h : e.Expression ∨ e.Index) : fillEmptyENodeWhen oldENode e = e := by
  induction e using ENode.induct with
  | null | invalid _ | indexInt _ | int _ _ => rfl
  | index c0 ih => exact congrArg ENode.index (ih (.inl (h.resolve_left id)))
  | expr1 head op c0 ih => exact congrArg (ENode.expr1 head op) (ih (.inl (h.resolve_right id)))
  | expr1Int1 head op c0 n ih =>
    exact congrArg (fun c => ENode.expr1Int1 head op c n) (ih (.inl (h.resolve_right id)))
  | expr1Int2 head op c0 hi lo ih =>
    exact congrArg (fun c => ENode.expr1Int2 head op c hi lo) (ih (.inl (h.resolve_right id)))
  | expr2 head op c0 c1 ih0 ih1 =>
    have hc : c0.Expression ∧ c1.Expression := h.resolve_right id
    exact congrArg₂ (ENode.expr2 head op) (ih0 (.inl hc.1)) (ih1 (.inl hc.2))
  | ref head nodePtr child ih =>
    exact congrArg (ENode.ref head nodePtr)
      (fillAll_of_forall fun e he => ih e he (.inr (indices_iff.mp (h.resolve_right id) e he)))
  | other head op values child ih =>
    exact congrArg (ENode.other head op values)
      (fillAll_of_forall fun e he => ih e he (.inl (expressions_iff.mp (h.resolve_right id) e he)))
  | select head op c0 c1 c2 ih0 ih1 ih2 =>
    cases op with
    | OP_WHEN => exact (h.elim id id).elim
    | OP_MUX =>
      have hc : c0.Expression ∧ c1.Expression ∧ c2.Expression := h.resolve_right id
      have h1 : fillChild oldENode .OP_MUX c1 (fillEmptyENodeWhen oldENode c1) = c1 := ih1 (.inl hc.2.1)
      have h2 : fillChild oldENode .OP_MUX c2 (fillEmptyENodeWhen oldENode c2) = c2 := ih2 (.inl hc.2.2)
      rw [fillEmptyENodeWhen, ih0 (.inl hc.1), h1, h2]

theorem cons_fill (e : ENode) : (fillEmptyENodeWhen oldENode e).cons = e.cons := by
  cases e <;> rfl

theorem isInvalid_fill (e : ENode) : (fillEmptyENodeWhen oldENode e).IsInvalid ↔ e.IsInvalid := by
  cases e <;> exact Iff.rfl

/-- A child of a `when`, filled. -/
abbrev branch (oldENode c : ENode) : ENode := fillChild oldENode .OP_WHEN c (fillEmptyENodeWhen oldENode c)

theorem branch_null : branch oldENode .null = oldENode := rfl

theorem branch_of_ne {c : ENode} (h : c ≠ .null) : branch oldENode c = fillEmptyENodeWhen oldENode c := by
  cases c <;> first | exact absurd rfl h | rfl

/-- A filler has no record, like the absent child whose place it takes. -/
theorem cons_branch (unrecorded : oldENode.cons = none) (c : ENode) : (branch oldENode c).cons = c.cons := by
  by_cases h : c = .null
  · rw [h, branch_null, unrecorded]
    rfl
  · rw [branch_of_ne h, cons_fill]

theorem fill_when (h : Head) {c0 : ENode} (c1 c2 : ENode) (shape0 : c0.Expression) :
    fillEmptyENodeWhen oldENode (.select h .OP_WHEN c0 c1 c2) =
      .select h .OP_WHEN c0 (branch oldENode c1) (branch oldENode c2) := by
  rw [fillEmptyENodeWhen, fill_expression c0 (.inl shape0)]

theorem fill_statement {e : ENode} (shape : e.Statement) (old : oldENode.Statement) :
    (fillEmptyENodeWhen oldENode e).Statement := by
  induction e using ENode.induct with
  | null | invalid _ => trivial
  | select head op c0 c1 c2 ih0 ih1 ih2 =>
    cases op with
    | OP_MUX =>
      rw [fill_expression _ (.inl shape)]
      exact shape
    | OP_WHEN =>
      have filled : ∀ c : ENode, (fillEmptyENodeWhen oldENode c).Statement → (branch oldENode c).Statement := by
        intro c hc
        by_cases h : c = .null
        · rw [h, branch_null]
          exact old
        · rw [branch_of_ne h]
          exact hc
      rw [fill_when head c1 c2 shape.1]
      exact ⟨shape.1, filled c1 (ih1 shape.2.1), filled c2 (ih2 shape.2.2)⟩
  | _ =>
    rw [fill_expression _ (.inl shape)]
    exact shape

theorem invalid_fill {e : ENode} (h : e.Invalid) : (fillEmptyENodeWhen oldENode e).Invalid := by
  refine h.imp (isInvalid_fill e).mpr ?_
  rintro ⟨info, hc, hs⟩
  exact ⟨info, (cons_fill e).trans hc, hs⟩

/-- What the tree assigns, it still assigns. -/
theorem takes_fill {e : ENode} (shape : e.Statement) {v : Int}
    (takes : e.Takes sem ENode.Invalid ρ (some v)) :
    (fillEmptyENodeWhen oldENode e).Takes sem ENode.Invalid ρ (some v) := by
  induction e using ENode.induct with
  | null | invalid _ => exact takes
  | select head op c0 c1 c2 ih0 ih1 ih2 =>
    cases op with
    | OP_MUX =>
      rw [fill_expression _ (.inl shape)]
      exact takes
    | OP_WHEN =>
      obtain ⟨shape0, shape1, shape2⟩ := shape
      have filled : ∀ c : ENode, (c.Takes sem ENode.Invalid ρ (some v) →
          (fillEmptyENodeWhen oldENode c).Takes sem ENode.Invalid ρ (some v)) →
          c.Gives sem ENode.Invalid ρ (some v) → (branch oldENode c).Gives sem ENode.Invalid ρ (some v) := by
        intro c hc gives
        have present : c ≠ .null := by
          rintro rfl
          exact gives.elim (fun h => h.elim id fun ⟨_, h, _⟩ => nomatch h) fun h => nomatch h
        rw [branch_of_ne present]
        exact gives.imp invalid_fill hc
      rw [fill_when head c1 c2 shape0]
      obtain ⟨v0, hv0, h1, h2⟩ := takes
      exact ⟨v0, hv0, fun hn => filled c1 (ih1 shape1) (h1 hn), fun hz => filled c2 (ih2 shape2) (h2 hz)⟩
  | _ =>
    rw [fill_expression _ (.inl shape)]
    exact takes

theorem consistent_fill {e : ENode} (shape : e.Statement) (consistent : e.Consistent sem ρ)
    (old : oldENode.Consistent sem ρ) : (fillEmptyENodeWhen oldENode e).Consistent sem ρ := by
  induction e using ENode.induct with
  | null | invalid _ => exact consistent
  | select head op c0 c1 c2 ih0 ih1 ih2 =>
    cases op with
    | OP_MUX =>
      rw [fill_expression _ (.inl shape)]
      exact consistent
    | OP_WHEN =>
      have shape' := shape
      obtain ⟨shape0, shape1, shape2⟩ := shape
      obtain ⟨holds, cons0, cons1, cons2⟩ := consistent
      have filled : ∀ c : ENode, (fillEmptyENodeWhen oldENode c).Consistent sem ρ →
          (branch oldENode c).Consistent sem ρ := by
        intro c hc
        by_cases h : c = .null
        · rw [h, branch_null]
          exact old
        · rw [branch_of_ne h]
          exact hc
      have self : (fillEmptyENodeWhen oldENode (.select head .OP_WHEN c0 c1 c2)).RecordHolds sem ρ :=
        fun info hi hs => takes_fill shape' (holds info ((cons_fill _).symm.trans hi) hs)
      rw [fill_when head c1 c2 shape0] at self ⊢
      exact ⟨self, cons0, filled c1 (ih1 shape1 cons1), filled c2 (ih2 shape2 cons2)⟩
  | _ =>
    rw [fill_expression _ (.inl shape)]
    exact consistent

theorem foldKeeps_mono {h : Head} {folded : Record → Prop} {P Q : Prop} (imp : P → Q)
    (keeps : foldKeeps h folded P) : foldKeeps h folded Q := by
  cases hc : h.cons with
  | none =>
    simp only [foldKeeps, hc] at keeps ⊢
    exact imp keeps
  | some info =>
    simp only [foldKeeps, hc] at keeps ⊢
    split
    · rename_i hs
      rwa [if_pos hs] at keeps
    · rename_i hs
      rw [if_neg hs] at keeps
      exact imp keeps

section Records

variable (unrecorded : oldENode.cons = none)
include unrecorded

theorem consVal_branch (c : ENode) : consVal (branch oldENode c) = consVal c := by
  rw [consVal, consVal, cons_branch unrecorded]

theorem isConsZero_branch (c : ENode) : isConsZero (branch oldENode c) = isConsZero c := by
  rw [isConsZero, isConsZero, enodeConstant, enodeConstant, consVal_branch unrecorded, cons_branch unrecorded]

theorem isConsNoZero_branch (c : ENode) : isConsNoZero (branch oldENode c) = isConsNoZero c := by
  rw [isConsNoZero, isConsNoZero, enodeConstant, enodeConstant, consVal_branch unrecorded,
    cons_branch unrecorded]

theorem whenChildInvalid_branch (c1 c2 : ENode) :
    whenChildInvalid .OP_WHEN (branch oldENode c1) (branch oldENode c2) = whenChildInvalid .OP_WHEN c1 c2 := by
  rw [whenChildInvalid, whenChildInvalid, recordedInvalid, recordedInvalid, recordedInvalid, recordedInvalid,
    cons_branch unrecorded, cons_branch unrecorded]

end Records

/-- The rules read records, and those have not changed. -/
theorem keeps_fill {e : ENode} (shape : e.Statement) (keeps : Keeps e) (old : Keeps oldENode)
    (unrecorded : oldENode.cons = none) : Keeps (fillEmptyENodeWhen oldENode e) := by
  induction e using ENode.induct with
  | null | invalid _ => exact keeps
  | select head op c0 c1 c2 ih0 ih1 ih2 =>
    cases op with
    | OP_MUX =>
      rw [fill_expression _ (.inl shape)]
      exact keeps
    | OP_WHEN =>
      obtain ⟨shape0, shape1, shape2⟩ := shape
      have filled : ∀ c : ENode, (Keeps c → Keeps (fillEmptyENodeWhen oldENode c)) → Keeps c →
          Keeps (branch oldENode c) := by
        intro c hc h
        by_cases hnull : c = .null
        · rw [hnull, branch_null]
          exact old
        · rw [branch_of_ne hnull]
          exact hc h
      rw [fill_when head c1 c2 shape0]
      apply foldKeeps_mono _ keeps
      intro hk
      simp only [whenChildInvalid_branch unrecorded, isConsNoZero_branch unrecorded,
        isConsZero_branch unrecorded, bitKeeps, consVal_branch unrecorded]
      by_cases hconst : enodeConstant c0 = true
      · simp only [if_pos hconst] at hk ⊢
        split
        · rename_i hz
          rw [if_pos hz] at hk
          exact ⟨(fun h => nomatch h), filled c2 (ih2 shape2) hk.2⟩
        · rename_i hn
          rw [if_neg hn] at hk
          exact ⟨(fun h => nomatch h), filled c1 (ih1 shape1) hk.2⟩
      · simp only [if_neg hconst] at hk ⊢
        cases hstaying : whenChildInvalid .OP_WHEN c1 c2 with
        | some staying =>
          cases staying with
          | child1 =>
            simp only [hstaying] at hk ⊢
            exact filled c1 (ih1 shape1) hk
          | child2 =>
            simp only [hstaying] at hk ⊢
            exact filled c2 (ih2 shape2) hk
        | none =>
          simp only [hstaying] at hk ⊢
          split
          · rename_i hbit
            rw [if_pos hbit] at hk
            exact hk
          · rename_i hbit
            rw [if_neg hbit] at hk
            exact ⟨hk.1, filled c1 (ih1 shape1) hk.2.1, filled c2 (ih2 shape2) hk.2.2⟩
  | _ =>
    rw [fill_expression _ (.inl shape)]
    exact keeps

/-- The outcome `z` from `v` is one of `e` after one of what `e` was filled with. -/
def Explained (sem : OtherSemantics) (ρ : Nat → List Int → Int) (oldENode e : ENode) (v : Int)
    (z : Option Int) : Prop :=
  ∃ x, oldENode.Gives sem ENode.Invalid ρ x ∧
    ∃ y, e.Gives sem ENode.Invalid ρ y ∧ z.getD v = y.getD (x.getD v)

/-- An invalid tree may leave any value, so also that one. -/
theorem explained_of_invalid {e : ENode} (old : oldENode.Statement) (h : e.Invalid) (v : Int)
    (z : Option Int) : Explained sem ρ oldENode e v z := by
  obtain ⟨x, hx⟩ : ∃ x, oldENode.Takes sem ENode.Invalid ρ x := old.takes_exists
  exact ⟨x, .inr hx, some (z.getD v), .inl h, rfl⟩

theorem explained_of_expression {e : ENode} (old : oldENode.Statement) (h : e.Expression) (v : Int)
    {z : Option Int} (gives : (fillEmptyENodeWhen oldENode e).Gives sem ENode.Invalid ρ z) :
    Explained sem ρ oldENode e v z := by
  rw [fill_expression e (.inl h)] at gives
  rcases gives with hinv | takes
  · exact explained_of_invalid old hinv v z
  · obtain ⟨x, hx⟩ : ∃ x, oldENode.Takes sem ENode.Invalid ρ x := old.takes_exists
    obtain ⟨w, rfl, -⟩ := h.fits takes
    exact ⟨x, .inr hx, some w, .inr takes, rfl⟩

theorem explained_fill {e : ENode} (shape : e.Statement) (present : e ≠ .null) (old : oldENode.Statement)
    (v : Int) {z : Option Int} (gives : (fillEmptyENodeWhen oldENode e).Gives sem ENode.Invalid ρ z) :
    Explained sem ρ oldENode e v z := by
  induction e using ENode.induct with
  | null => exact absurd rfl present
  | invalid head => exact explained_of_invalid (e := .invalid head) old (.inl trivial) v z
  | select head op c0 c1 c2 ih0 ih1 ih2 =>
    cases op with
    | OP_MUX => exact explained_of_expression old shape v gives
    | OP_WHEN =>
      obtain ⟨shape0, shape1, shape2⟩ := shape
      have filled : ∀ c : ENode,
          (c ≠ .null → (fillEmptyENodeWhen oldENode c).Gives sem ENode.Invalid ρ z →
            Explained sem ρ oldENode c v z) →
          (branch oldENode c).Gives sem ENode.Invalid ρ z → Explained sem ρ oldENode c v z := by
        intro c hc hb
        by_cases h : c = .null
        · rw [h, branch_null] at hb
          rw [h]
          exact ⟨z, hb, none, .inr rfl, rfl⟩
        · rw [branch_of_ne h] at hb
          exact hc h hb
      rcases gives with (hinv | ⟨info, hi, hs⟩) | takes
      · exact hinv.elim
      · exact explained_of_invalid old (.inr ⟨info, (cons_fill _).symm.trans hi, hs⟩) v z
      · rw [fill_when head c1 c2 shape0] at takes
        obtain ⟨v0, hv0, h1, h2⟩ := takes
        by_cases hz : v0 = 0
        · obtain ⟨x, hx, y, hy, heq⟩ := filled c2 (ih2 shape2) (h2 hz)
          exact ⟨x, hx, y, .inr ⟨v0, hv0, fun hn => absurd hz hn, fun _ => hy⟩, heq⟩
        · obtain ⟨x, hx, y, hy, heq⟩ := filled c1 (ih1 shape1) (h1 hz)
          exact ⟨x, hx, y, .inr ⟨v0, hv0, fun _ => hy, fun hn => absurd hn hz⟩, heq⟩
  | _ => exact explained_of_expression old shape v gives

end Fill

/-! ## Fillers -/

section Filler

variable {sem : OtherSemantics} {ρ : Nat → List Int → Int}

theorem filler_statement (info : Record) : (filler info).Statement := by
  unfold filler
  split <;> trivial

theorem filler_unrecorded (info : Record) : (filler info).cons = none := by
  unfold filler
  split <;> rfl

theorem filler_consistent (info : Record) : (filler info).Consistent sem ρ := by
  have unrecorded := filler_unrecorded info
  unfold filler at unrecorded ⊢
  split
  · exact fun _ hi => nomatch hi
  · exact fun _ hi => nomatch hi

theorem filler_keeps (info : Record) : Keeps (filler info) := by
  unfold filler
  split <;> trivial

/-- A constant leaves its value. -/
theorem filler_value {info : Record} (constant : info.status = .VAL_CONSTANT)
    (fits : Fits info.sign info.width info.consVal) {x : Option Int}
    (gives : (filler info).Gives sem ENode.Invalid ρ x) : x = some info.consVal := by
  rw [filler, if_pos constant] at gives
  have hsign : (info.sign || decide (info.consVal < 0)) = info.sign := by
    cases hs : info.sign with
    | true => rfl
    | false =>
      rw [hs, fits_unsigned] at fits
      exact decide_eq_false (not_lt.mpr fits.1)
  rcases gives with (hinv | ⟨_, hi, _⟩) | takes
  · exact hinv.elim
  · cases hi
  · have hvalue : x = some (wrap (info.sign || decide (info.consVal < 0)) info.width info.consVal) := takes
    rw [hvalue, hsign, wrap_of_fits fits]

theorem filler_invalid {info : Record} (h : info.status ≠ .VAL_CONSTANT) (x : Option Int) :
    (filler info).Gives sem ENode.Invalid ρ x := by
  rw [filler, if_neg h]
  exact .inl (.inl trivial)

end Filler

/-! ## The loop keeps the last assignment -/

section Loop

variable {sem : OtherSemantics} {ρ : Nat → List Int → Int} {type : NodeType}

/-- What the tree before left: nothing, or the filler of its record. -/
def Moved (moved : Option ENode) (constantMoved : Bool) : Prop :=
  match moved with
  | none => constantMoved = false
  | some old => ∃ info : Record, old = filler info ∧ (constantMoved = false → info.status ≠ .VAL_CONSTANT)

theorem moved_none : Moved none false := rfl

/-- The value `w` that the node has once what was moved has been assigned. -/
def Carried (sem : OtherSemantics) (ρ : Nat → List Int → Int) (moved : Option ENode) (v w : Int) : Prop :=
  match moved with
  | none => w = v
  | some old => ∃ x, old.Gives sem ENode.Invalid ρ x ∧ w = x.getD v

theorem carried_exists (moved : Option ENode) {constantMoved : Bool} (hm : Moved moved constantMoved) (v : Int) :
    ∃ w, Carried sem ρ moved v w := by
  cases moved with
  | none => exact ⟨v, rfl⟩
  | some old =>
    obtain ⟨info, rfl, -⟩ := hm
    obtain ⟨x, hx⟩ : ∃ x, (filler info).Takes sem ENode.Invalid ρ x := (filler_statement info).takes_exists
    exact ⟨x.getD v, x, .inr hx, rfl⟩

/-- Without a constant nothing need have been assigned. -/
theorem carried_self {moved : Option ENode} (hm : Moved moved false) (v : Int) : Carried sem ρ moved v v := by
  cases moved with
  | none => rfl
  | some old =>
    obtain ⟨info, rfl, hinvalid⟩ := hm
    exact ⟨none, filler_invalid (hinvalid rfl) none, rfl⟩

/-- What the loop relies on for one tree. -/
structure TreeReady (sem : OtherSemantics) (ρ : Nat → List Int → Int) (type : NodeType) (tree : ETree) : Prop where
  shape : tree.root.Statement
  consistent : tree.root.Consistent sem ρ
  cached : RootCached type tree.root

theorem TreeReady.present {tree : ETree} (ready : TreeReady sem ρ type tree) : tree.root ≠ .null := by
  intro h
  obtain ⟨info, computed, -⟩ := ready.cached
  rw [h] at computed
  exact computed

/-- The tree as the loop sees it, once something was moved into it. -/
theorem cons_moved (moved : Option ENode) (tree : ETree) :
    (moved.elim tree (fillEmptyWhen tree)).root.cons = tree.root.cons := by
  cases moved with
  | none => rfl
  | some old => exact cons_fill tree.root

/-- A tree that is kept: what it leaves, after what was moved into it and pruned. -/
theorem pruned_explained {moved : Option ENode} {constantMoved : Bool} (hm : Moved moved constantMoved)
    {tree : ETree} (ready : TreeReady sem ρ type tree) (keeps : Keeps tree.root) (v : Int) {z : Option Int}
    (gives : (moved.elim tree (fillEmptyWhen tree)).removeConstant.root.Gives sem ENode.IsInvalid ρ z) :
    ∃ w, Carried sem ρ moved v w ∧ ∃ y, tree.root.Gives sem ENode.Invalid ρ y ∧ z.getD v = y.getD w := by
  cases moved with
  | none =>
    have kept := statementKept_removeConstant ready.shape ready.consistent keeps
    exact ⟨v, rfl, z, kept.gives z gives, rfl⟩
  | some old =>
    obtain ⟨info, rfl, -⟩ := hm
    have kept := statementKept_removeConstant (fill_statement ready.shape (filler_statement info))
      (consistent_fill ready.shape ready.consistent (filler_consistent info))
      (keeps_fill ready.shape keeps (filler_keeps info) (filler_unrecorded info))
    obtain ⟨x, hx, y, hy, heq⟩ := explained_fill ready.shape ready.present (filler_statement info) v
      (kept.gives z gives)
    exact ⟨x.getD v, ⟨x, hx, rfl⟩, y, hy, heq⟩

theorem runs_foldTrees {trees : List ETree} (ready : ∀ tree ∈ trees, TreeReady sem ρ type tree)
    {moved : Option ENode} {constantMoved : Bool} (hm : Moved moved constantMoved)
    (hnext : trees ≠ [] ∨ moved = none) (keeps : FoldKeeps constantMoved trees) {v v' : Int}
    (runs : Runs sem ENode.IsInvalid ρ (foldTrees moved trees) v v') :
    ∃ w, Carried sem ρ moved v w ∧ Runs sem ENode.Invalid ρ trees w v' := by
  induction trees generalizing moved constantMoved v with
  | nil =>
    obtain rfl := hnext.resolve_left (absurd rfl)
    exact ⟨v, rfl, runs⟩
  | cons tree rest ih =>
    have hready := ready tree List.mem_cons_self
    have hrest : ∀ t ∈ rest, TreeReady sem ρ type t := fun t ht => ready t (List.mem_cons_of_mem _ ht)
    simp only [foldTrees, cons_moved] at runs
    simp only [FoldKeeps] at keeps
    by_cases hempty : statusIs .VAL_EMPTY tree.root.cons = true
    · simp only [if_pos hempty] at runs keeps
      obtain ⟨rfl, keeps⟩ := keeps
      obtain ⟨w, rfl, hruns⟩ := ih hrest moved_none (.inr rfl) keeps runs
      obtain ⟨info, -, hs, computed⟩ := hready.cached.computed hempty (by decide)
      exact ⟨w, carried_self hm w, none, computed.gives_none hready.shape hready.consistent hs, hruns⟩
    · simp only [if_neg hempty] at runs keeps
      by_cases hmove : (!rest.isEmpty && (statusIs .VAL_INVALID tree.root.cons ||
          statusIs .VAL_CONSTANT tree.root.cons)) = true
      · simp only [if_pos hmove] at runs keeps
        obtain ⟨hmore, hstatus⟩ := (Bool.and_eq_true _ _).mp hmove
        have hmore' : rest ≠ [] := by
          rintro rfl
          cases hmore
        obtain ⟨w, hw⟩ : ∃ w, Carried sem ρ moved v w := carried_exists moved hm v
        by_cases hconst : statusIs .VAL_CONSTANT tree.root.cons = true
        · obtain ⟨info, hc, hs, computed⟩ := hready.cached.computed hconst (by decide)
          rw [hc, Option.getD_some] at runs
          have hmoved : Moved (some (filler info)) true := ⟨info, rfl, fun h => nomatch h⟩
          obtain ⟨w', ⟨x, hx, rfl⟩, hruns⟩ := ih hrest hmoved (.inl hmore') (hconst ▸ keeps) runs
          rw [filler_value hs (computed.fits hs) hx] at hruns
          exact ⟨w, hw, some info.consVal, .inr (takes_of_record hready.consistent hc hs), hruns⟩
        · have hinvalid := ((Bool.or_eq_true _ _).mp hstatus).resolve_right hconst
          obtain ⟨info, hc, hs, -⟩ := hready.cached.computed hinvalid (by decide)
          have hnot : info.status ≠ .VAL_CONSTANT := fun h => nomatch hs.symm.trans h
          have hmoved : Moved (some (filler info)) false := ⟨info, rfl, fun _ => hnot⟩
          rw [hc, Option.getD_some] at runs
          obtain ⟨w', -, hruns⟩ := ih hrest hmoved (.inl hmore') (Bool.eq_false_iff.mpr hconst ▸ keeps) runs
          exact ⟨w, hw, some w', .inl (.inr ⟨info, hc, hs⟩), hruns⟩
      · simp only [if_neg hmove] at runs keeps
        obtain ⟨z, hz, runs⟩ := runs
        obtain ⟨w', rfl, hruns⟩ := ih hrest moved_none (.inr rfl) keeps.2 runs
        obtain ⟨w, hw, y, hy, heq⟩ := pruned_explained hm hready keeps.1 v hz
        exact ⟨w, hw, y, hy, heq ▸ hruns⟩

/-- A tree whose root is gone assigns nothing. -/
theorem runs_filter {trees : List ETree} {v v' : Int} :
    Runs sem ENode.IsInvalid ρ (trees.filter fun tree => !isNull tree.root) v v' ↔
      Runs sem ENode.IsInvalid ρ trees v v' := by
  induction trees generalizing v with
  | nil => exact Iff.rfl
  | cons tree rest ih =>
    by_cases h : tree.root = .null
    · have hnull : (!isNull tree.root) = false := by rw [h]; rfl
      rw [List.filter_cons_of_neg (by rw [hnull]; exact Bool.false_ne_true), ih]
      constructor
      · intro hruns
        refine ⟨none, ?_, hruns⟩
        rw [h]
        exact .inr rfl
      · rintro ⟨r, hr, hruns⟩
        rw [h] at hr
        obtain rfl : r = none := hr.resolve_left id
        exact hruns
    · have hsome : (!isNull tree.root) = true := by
        cases hroot : tree.root <;> first | exact absurd hroot h | rfl
      rw [List.filter_cons_of_pos (p := fun tree : ETree => !isNull tree.root) hsome]
      simp only [Runs, ih]

theorem foldTrees_statement {trees : List ETree} (ready : ∀ tree ∈ trees, TreeReady sem ρ type tree)
    {moved : Option ENode} {constantMoved : Bool} (hm : Moved moved constantMoved)
    (keeps : FoldKeeps constantMoved trees) : ∀ tree ∈ foldTrees moved trees, tree.root.Statement := by
  induction trees generalizing moved constantMoved with
  | nil => exact fun _ h => nomatch h
  | cons tree rest ih =>
    have hready := ready tree List.mem_cons_self
    have hrest : ∀ t ∈ rest, TreeReady sem ρ type t := fun t ht => ready t (List.mem_cons_of_mem _ ht)
    simp only [foldTrees, cons_moved]
    simp only [FoldKeeps] at keeps
    by_cases hempty : statusIs .VAL_EMPTY tree.root.cons = true
    · simp only [if_pos hempty] at keeps ⊢
      exact ih hrest moved_none keeps.2
    · simp only [if_neg hempty] at keeps ⊢
      by_cases hmove : (!rest.isEmpty && (statusIs .VAL_INVALID tree.root.cons ||
          statusIs .VAL_CONSTANT tree.root.cons)) = true
      · simp only [if_pos hmove] at keeps ⊢
        obtain ⟨-, hstatus⟩ := (Bool.and_eq_true _ _).mp hmove
        obtain ⟨info, hc⟩ : ∃ info, tree.root.cons = some info := by
          rcases (Bool.or_eq_true _ _).mp hstatus with h | h
          · exact (statusIs_some h).imp fun _ h => h.1
          · exact (statusIs_some h).imp fun _ h => h.1
        rw [hc, Option.getD_some]
        apply ih hrest _ keeps
        refine ⟨info, rfl, fun hnot hs => ?_⟩
        rw [hc] at hnot
        exact absurd hs (of_decide_eq_false hnot)
      · simp only [if_neg hmove] at keeps ⊢
        intro t ht
        rcases List.mem_cons.mp ht with rfl | ht
        · cases moved with
          | none => exact (statementKept_removeConstant hready.shape hready.consistent keeps.1).shape
          | some old =>
            obtain ⟨info, rfl, -⟩ := hm
            exact (statementKept_removeConstant (fill_statement hready.shape (filler_statement info))
              (consistent_fill hready.shape hready.consistent (filler_consistent info))
              (keeps_fill hready.shape keeps.1 (filler_keeps info) (filler_unrecorded info))).shape
        · exact ih hrest moved_none keeps.2 t ht

theorem runs_exists {trees : List ETree} (h : ∀ tree ∈ trees, tree.root.Statement) (v : Int) :
    ∃ v', Runs sem ENode.IsInvalid ρ trees v v' := by
  induction trees generalizing v with
  | nil => exact ⟨v, rfl⟩
  | cons tree rest ih =>
    obtain ⟨r, hr⟩ : ∃ r, tree.root.Takes sem ENode.IsInvalid ρ r := (h tree List.mem_cons_self).takes_exists
    obtain ⟨v', hv'⟩ := ih (fun t ht => h t (List.mem_cons_of_mem _ ht)) (r.getD v)
    exact ⟨v', r, .inr hr, hv'⟩

end Loop

/-- Where no constant is dropped with the tree it was moved into, and pruning keeps width and
sign, the folded list takes the node from any value to one that the list takes it to. -/
theorem Member.foldAssignments_lastConnect (m : Member)
    (shape : ∀ tree ∈ m.assignTree, tree.root.Statement) (keeps : FoldKeeps false m.assignTree)
    (sem : OtherSemantics) (ρ : Nat → List Int → Int)
    (consistent : ∀ tree ∈ m.assignTree, tree.root.Consistent sem ρ) (v : Int) :
    (∀ v', Runs sem ENode.IsInvalid ρ (foldAssignments m.assignTree) v v' →
      Runs sem ENode.Invalid ρ m.assignTree v v') ∧
    ∃ v', Runs sem ENode.IsInvalid ρ (foldAssignments m.assignTree) v v' := by
  have ready : ∀ tree ∈ m.assignTree, TreeReady sem ρ m.type tree :=
    fun tree ht => ⟨shape tree ht, consistent tree ht, m.rootCached tree ht⟩
  constructor
  · intro v' hruns
    obtain ⟨w, rfl, h⟩ := runs_foldTrees ready moved_none (.inr rfl) keeps (runs_filter.mp hruns)
    exact h
  · obtain ⟨v', hruns⟩ : ∃ v', Runs sem ENode.IsInvalid ρ (foldTrees none m.assignTree) v v' :=
      runs_exists (foldTrees_statement ready moved_none keeps) v
    exact ⟨v', runs_filter.mpr hruns⟩

/-! ### A constant moved into a tree that is dropped -/

def knownBit (nodePtr : Nat) (v : Int) : ENode := .ref ⟨1, false, some (constantRecord 1 false v)⟩ nodePtr []

/-- `when cond : n <= value`, or with an `else`. -/
def whenTree (record : Record) (cond value other : ENode) : ETree :=
  ⟨.select ⟨4, false, some record⟩ .OP_WHEN cond value other, none⟩

def five : ENode := literal 4 false 5

/-- `when inner : n <= x`, whose other branch is absent. -/
def innerWhen (inner : Nat) : ENode := (whenTree (.new 4 false) (bit inner) (word 3 4) .null).root

/-- `when outer : when inner : n <= x`.  With two absent branches it stays a tree of its own. -/
def nestedWhen (record : Record) (outer : ENode) (inner : Nat) : ETree :=
  whenTree record outer (innerWhen inner) .null

/-- The assignments `n <= 5`, `when a : n <= 5`, `when b : when b2 : n <= x` with `b` known to be zero and
`when d : when d2 : n <= x`.  The first two are one tree with equal branches, of which the literal is left. -/
def defaulted : List ETree :=
  [⟨five, none⟩, nestedWhen emptyRecord (knownBit 1 0) 4, nestedWhen (.new 4 false) (bit 2) 5]

theorem five_computed {type : NodeType} : Computed type five (constantRecord 4 false 5) :=
  ⟨fun h => (by cases h), fun _ => fits_unsigned.mpr (by decide)⟩

theorem innerWhen_computed {type : NodeType} {inner : Nat} :
    Computed type (innerWhen inner) (.new 4 false) :=
  ⟨_, rfl, rfl, .inr ⟨_, rfl, fun h => (by cases h), fun h => (by cases h)⟩, .inl rfl⟩

theorem nestedWhen_computed {type : NodeType} {outer : ENode} {info record : Record} {inner : Nat}
    (hcons : outer.cons = some info)
    (hrecord : record = consWhen type 4 false info (some (.new 4 false)) none) :
    Computed type (nestedWhen record outer inner).root record :=
  ⟨info, hcons, hrecord, .inr ⟨_, rfl, innerWhen_computed⟩, .inl rfl⟩

def defaultedMember : Member where
  type := .NODE_OTHERS
  feedsExt := false
  assignTree := defaulted
  infos := [constantRecord 4 false 5, emptyRecord, .new 4 false]
  computed := .cons five_computed (.cons (nestedWhen_computed rfl rfl) (.cons (nestedWhen_computed rfl rfl) .nil))
  cached := .cons rfl (.cons rfl (.cons rfl .nil))

/-- Every node is zero. -/
def zeros : Nat → List Int → Int := fun _ _ => 0

theorem takes_five {sem : OtherSemantics} {any : ENode → Prop} {ρ : Nat → List Int → Int} {r : Option Int} :
    five.Takes sem any ρ r ↔ r = some 5 := Iff.rfl

theorem takes_zeros {sem : OtherSemantics} {any : ENode → Prop} {h : Head} {nodePtr : Nat} {r : Option Int} :
    (ENode.ref h nodePtr []).Takes sem any zeros r ↔ r = some 0 := by
  have hzero : h.fit 0 = 0 := fit_of_fits (Fits.zero _ _)
  constructor
  · rintro ⟨vs, -, rfl⟩
    exact congrArg some hzero
  · rintro rfl
    exact ⟨[], rfl, congrArg some hzero.symm⟩

theorem open_record {sem : OtherSemantics} {ρ : Nat → List Int → Int} {e : ENode} {info : Record}
    (hc : e.cons = some info) (hs : info.status ≠ .VAL_CONSTANT) : e.RecordHolds sem ρ := by
  intro info' hi hs'
  obtain rfl := Option.some.inj (hc.symm.trans hi)
  exact absurd hs' hs

theorem five_holds (sem : OtherSemantics) (ρ : Nat → List Int → Int) : five.RecordHolds sem ρ := by
  intro info hi _
  obtain rfl := Option.some.inj hi
  exact takes_five.mpr rfl

theorem bit_consistent (sem : OtherSemantics) (nodePtr : Nat) : (bit nodePtr).Consistent sem zeros :=
  ⟨open_record rfl (fun h => by cases h), trivial⟩

theorem innerWhen_consistent (sem : OtherSemantics) (inner : Nat) : (innerWhen inner).Consistent sem zeros :=
  ⟨open_record rfl (fun h => by cases h), bit_consistent sem inner,
    ⟨open_record rfl (fun h => by cases h), trivial⟩, trivial⟩

theorem defaulted_consistent (sem : OtherSemantics) :
    ∀ tree ∈ defaulted, tree.root.Consistent sem zeros := by
  have known : (knownBit 1 0).Consistent sem zeros := by
    refine ⟨?_, trivial⟩
    intro info hi _
    obtain rfl := Option.some.inj hi
    exact takes_zeros.mpr rfl
  intro tree ht
  simp only [defaulted, List.mem_cons, List.not_mem_nil, or_false] at ht
  rcases ht with rfl | rfl | rfl
  · exact five_holds sem zeros
  · exact ⟨open_record rfl (fun h => by cases h), known, innerWhen_consistent sem 4, trivial⟩
  · exact ⟨open_record rfl (fun h => by cases h), bit_consistent sem 2, innerWhen_consistent sem 5, trivial⟩

theorem defaulted_statement : ∀ tree ∈ defaulted, tree.root.Statement := by
  intro tree ht
  simp only [defaulted, List.mem_cons, List.not_mem_nil, or_false] at ht
  rcases ht with rfl | rfl | rfl
  · exact trivial
  · exact ⟨trivial, ⟨trivial, trivial, trivial⟩, trivial⟩
  · exact ⟨trivial, ⟨trivial, trivial, trivial⟩, trivial⟩

theorem not_invalid_five : ¬ five.Invalid := by
  rintro (h | ⟨info, hi, hs⟩)
  · exact h
  · obtain rfl := Option.some.inj hi
    cases hs

/-- With every node zero a `when` does what its other branch does. -/
theorem gives_other {sem : OtherSemantics} {record : Record} {h : Head} {nodePtr : Nat} {c1 c2 : ENode}
    {r : Option Int} (valid : record.status ≠ .VAL_INVALID)
    (gives : (whenTree record (.ref h nodePtr []) c1 c2).root.Gives sem ENode.Invalid zeros r) :
    c2.Gives sem ENode.Invalid zeros r := by
  rcases gives with (hinv | ⟨info, hi, hs⟩) | ⟨v0, h0, -, h2⟩
  · exact hinv.elim
  · obtain rfl := Option.some.inj hi
    exact absurd hs valid
  · exact h2 (Option.some.inj (takes_zeros.mp h0))

theorem gives_null {sem : OtherSemantics} {ρ : Nat → List Int → Int} {r : Option Int}
    (gives : ENode.null.Gives sem ENode.Invalid ρ r) : r = none :=
  gives.resolve_left fun h => h.elim id fun ⟨_, hi, _⟩ => nomatch hi

/-- With `a`, `b` and `d` zero the list assigns five, and what is left of it assigns nothing. -/
theorem foldAssignments_drops :
    (computeConstant .NODE_OTHERS false defaultedMember.infos).constant = false ∧
    (∀ tree ∈ defaultedMember.assignTree, tree.root.Statement) ∧
    ∀ sem, (∀ tree ∈ defaultedMember.assignTree, tree.root.Consistent sem zeros) ∧
      Runs sem ENode.IsInvalid zeros (foldAssignments defaultedMember.assignTree) 0 0 ∧
      ¬ Runs sem ENode.Invalid zeros defaultedMember.assignTree 0 0 := by
  refine ⟨rfl, defaulted_statement, fun sem => ⟨defaulted_consistent sem, ?_, ?_⟩⟩
  · refine ⟨none, .inr ⟨0, takes_zeros.mpr rfl, fun h => absurd rfl h, fun _ => .inr rfl⟩, rfl⟩
  · rintro ⟨r0, hr0, r1, hr1, r2, hr2, h⟩
    obtain rfl := takes_five.mp (hr0.resolve_left not_invalid_five)
    obtain rfl := gives_null (gives_other (by decide) hr1)
    obtain rfl := gives_null (gives_other (by decide) hr2)
    have hfive : (0 : Int) = 5 := h
    exact absurd hfive (by decide)

/-- The same without the assignment under `b`: the constant goes into the absent branches under `d`. -/
def filledMember : Member where
  type := .NODE_OTHERS
  feedsExt := false
  assignTree := [⟨five, none⟩, nestedWhen (.new 4 false) (bit 2) 5]
  infos := [constantRecord 4 false 5, .new 4 false]
  computed := .cons five_computed (.cons (nestedWhen_computed rfl rfl) .nil)
  cached := .cons rfl (.cons rfl .nil)

theorem filledMember_defaulted : ∀ tree ∈ filledMember.assignTree, tree ∈ defaulted := by
  intro tree ht
  simp only [filledMember, List.mem_cons, List.not_mem_nil, or_false] at ht
  rcases ht with rfl | rfl
  · exact List.mem_cons_self
  · exact List.mem_cons_of_mem _ (List.mem_cons_of_mem _ List.mem_cons_self)

theorem filledMember_lastConnect :
    FoldKeeps false filledMember.assignTree ∧
    Runs (fun _ _ _ _ _ => 0) ENode.Invalid zeros filledMember.assignTree 0 5 := by
  have keeps : FoldKeeps false filledMember.assignTree :=
    ⟨⟨trivial, ⟨trivial, trivial, trivial⟩, trivial⟩, trivial⟩
  apply And.intro keeps
  apply (filledMember.foldAssignments_lastConnect
    (fun tree ht => defaulted_statement tree (filledMember_defaulted tree ht)) keeps (fun _ _ _ _ _ => 0) zeros
    (fun tree ht => defaulted_consistent _ tree (filledMember_defaulted tree ht)) 0).1
  refine ⟨some 5, .inr ⟨0, takes_zeros.mpr rfl, fun h => absurd rfl h, fun _ => .inr ?_⟩, rfl⟩
  exact rfl

end Gsim.AssignmentFolding
