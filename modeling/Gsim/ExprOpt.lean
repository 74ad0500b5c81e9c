/-
  Gsim/ExprOpt.lean
  =================
  **Simplification of one tree** (`ExpTree::treeOpt` and `subTreeEq`, `src/exprOpt.cpp`;
  `checkENodeEq`, `src/commonExpr.cpp`).

  A `mux` or `when` whose branches are taken for equal is replaced by the first, a
  conversion to an asynchronous reset by its operand, and so is a conversion that
  changes neither width nor sign.  The loop visits a tree from the root; what it has not
  visited yet is unchanged, so that branches are compared as they were.

  Two absent branches count as equal and then their children are asked for
  (`subTreeEq_eq_none_iff`), and what a memory or a function is called is never compared
  (`SameNames`).
-/
import Gsim.ExpTree
import Gsim.TwosComplement

namespace Gsim.ExprOpt

open Gsim.ExpTree Gsim.TwosComplement Relation

/-! ## 1. Trees -/

inductive OPType where
  | OP_WHEN
  | OP_MUX
  | OP_ASASYNCRESET
  | OP_ASSINT
  | OP_ASUINT
  | OP_INT
  | other (n : Nat)
deriving DecidableEq, Repr

/-- The fields of an `ENode` that is no reference. -/
structure Op where
  opType : OPType
  values : List Int
  strVal : String
  memoryNode : Option Nat
deriving DecidableEq, Repr

def sign : ENode Op → Bool
  | .null => false
  | .ref _ _ s _ | .op _ _ s _ => s

/-- What the loop does with a node is decided by its operator. -/
inductive View where
  | select (c0 c1 c2 : ENode Op)
  | async (c0 : ENode Op)
  | cast (c0 : ENode Op)
  | plain

def view (o : Op) (children : List (ENode Op)) : View :=
  match o.opType, children with
  | .OP_WHEN, [c0, c1, c2] => .select c0 c1 c2
  | .OP_MUX, [c0, c1, c2] => .select c0 c1 c2
  | .OP_ASASYNCRESET, [c0] => .async c0
  | .OP_ASSINT, [c0] => .cast c0
  | .OP_ASUINT, [c0] => .cast c0
  | _, _ => .plain

/-! ## 2. The comparison of subtrees -/

section Compare

-- `realValue` of a node is null until `commonExpr` sets it
variable (realValue : Nat → Option Nat)

/-- The same node, or two that stand for the same. -/
def sameNode (n m : Nat) : Bool :=
  n == m || (realValue n).isSome && realValue n == realValue m

def checkENodeEq : ENode Op → ENode Op → Bool
  | .null, .null => true
  | .ref n w s index, .ref n' w' s' index' =>
    w == w' && s == s' && index.length == index'.length && sameNode realValue n n'
  | .op o w s children, .op o' w' s' children' =>
    o.opType == o'.opType && w == w' && s == s' && children.length == children'.length &&
      (o.opType != .OP_INT || o.strVal == o'.strVal) && o.values == o'.values
  | _, _ => false

mutual

/-- `none`: the children of a null pointer are asked for. -/
def subTreeEq : ENode Op → ENode Op → Option Bool
  | .null, b => if checkENodeEq realValue .null b then none else some false
  | .ref n w s index, b =>
    if checkENodeEq realValue (.ref n w s index) b then childrenEq index b.child else some false
  | .op o w s children, b =>
    if checkENodeEq realValue (.op o w s children) b then childrenEq children b.child else some false

def childrenEq : List (ENode Op) → List (ENode Op) → Option Bool
  | [], _ => some true
  | _ :: _, [] => some true
  | a :: as, b :: bs =>
    match subTreeEq a b with
    | some true => childrenEq as bs
    | r => r

end

/-! ## 3. The loop -/

/-- The children as they were put back, unless one of them was not. -/
def collect : List (Option (ENode Op)) → Option (List (ENode Op))
  | [] => some []
  | none :: _ => none
  | some e :: es => (collect es).map (e :: ·)

/-- What becomes of a node, with what becomes of each of its children. -/
def optNode (o : Op) (width : Int) (s : Bool) (children : List (ENode Op))
    (results : List (Option (ENode Op))) : Option (ENode Op) :=
  match view o children with
  | .select _ c1 c2 =>
    match subTreeEq realValue c1 c2 with
    | none => none
    | some true => results.getD 1 none
    | some false => (collect results).map (.op o width s)
  | .async _ => results.getD 0 none
  | .cast c0 =>
    if sign c0 = s ∧ c0.width = width then results.getD 0 none
    else some (.op o width s children)
  | .plain => (collect results).map (.op o width s)

mutual

/-- `ExpTree::treeOpt`; `none` where a null pointer is read. -/
def treeOpt : ENode Op → Option (ENode Op)
  | .null => some .null
  | .ref node width s index => (collect (treeOpts index)).map (.ref node width s)
  | .op o width s children => optNode realValue o width s children (treeOpts children)

def treeOpts : List (ENode Op) → List (Option (ENode Op))
  | [] => []
  | e :: es => treeOpt e :: treeOpts es

end

theorem treeOpts_eq_map (es : List (ENode Op)) : treeOpts realValue es = es.map (treeOpt realValue) := by
  induction es with
  | nil => rfl
  | cons e es ih => rw [treeOpts, ih, List.map_cons]

/-- What the loop goes on with when a node is popped; an absent child is passed over. -/
def nexts : ENode Op → List (ENode Op)
  | .null => []
  | .ref _ _ _ index => index
  | .op o width s children =>
    match view o children with
    | .select _ c1 c2 => if subTreeEq realValue c1 c2 = some true then [c1] else children
    | .async c0 => [c0]
    | .cast c0 => if sign c0 = s ∧ c0.width = width then [c0] else []
    | .plain => children

/-- The loop on the tree `t` looks at `e`. -/
def Visited (t e : ENode Op) : Prop := ReflTransGen (fun e c => c ∈ nexts realValue e) t e

/-! ## 4. Assignments -/

end Compare

/-- The value of a branch at the type of the node above. -/
def Value.retype (width : Int) (s : Bool) (v : Value) : Value :=
  ⟨width, s, fun more => wrap s width.toNat (v.val more)⟩

/-- The bits of a value, read at another type. -/
def Value.recast (width : Int) (s : Bool) (v : Value) : Value :=
  ⟨width, s, fun more => wrap s width.toNat (v.val more % 2 ^ v.width.toNat)⟩

/-- What a node makes of what its children yield; an absent branch yields nothing. -/
def combine (sem : Semantics Op) (o : Op) (width : Int) (s : Bool)
    (values : List (Option Value)) : Option Value :=
  match o.opType, values with
  | .OP_WHEN, [c, a, b] => (if indexOf c ≠ 0 then a else b).map (Value.retype width s)
  | .OP_MUX, [c, a, b] => (if indexOf c ≠ 0 then a else b).map (Value.retype width s)
  | .OP_ASASYNCRESET, [a] => a.map (Value.recast width s)
  | .OP_ASSINT, [a] => a.map (Value.recast width s)
  | .OP_ASUINT, [a] => a.map (Value.recast width s)
  | _, values => some ⟨width, s, fun more => wrap s width.toNat (sem o width s values more)⟩

mutual

/-- The value that the tree assigns in a state, or none. -/
def perform (sem : Semantics Op) (ρ : Nat → List Int → Int) : ENode Op → Option Value
  | .null => none
  | .ref node width s index =>
    some ⟨width, s, fun more => wrap s width.toNat (ρ node ((performs sem ρ index).map indexOf ++ more))⟩
  | .op o width s children => combine sem o width s (performs sem ρ children)

def performs (sem : Semantics Op) (ρ : Nat → List Int → Int) : List (ENode Op) → List (Option Value)
  | [] => []
  | e :: es => perform sem ρ e :: performs sem ρ es

end

theorem performs_eq_map (sem : Semantics Op) (ρ : Nat → List Int → Int) (es : List (ENode Op)) :
    performs sem ρ es = es.map (perform sem ρ) := by
  induction es with
  | nil => rfl
  | cons e es ih => rw [performs, ih, List.map_cons]

/-! ## 5. When the comparison is sound, and when it is safe -/

section Sound

variable {realValue : Nat → Option Nat}

/-- Nodes that stand for the same have the same value. -/
def Respects (realValue : Nat → Option Nat) (ρ : Nat → List Int → Int) : Prop :=
  ∀ n m, sameNode realValue n m = true → ρ n = ρ m

mutual

/-- Operators at the same position have the same memory and the same text. -/
def SameNames : ENode Op → ENode Op → Prop
  | .op o _ _ children, .op o' _ _ children' =>
    o.strVal = o'.strVal ∧ o.memoryNode = o'.memoryNode ∧ SameNamesOf children children'
  | .ref _ _ _ index, .ref _ _ _ index' => SameNamesOf index index'
  | _, _ => True

def SameNamesOf : List (ENode Op) → List (ENode Op) → Prop
  | a :: as, b :: bs => SameNames a b ∧ SameNamesOf as bs
  | _, _ => True

end

/-- Walking down two trees side by side, one gets to a position where both are absent before any
    difference is found. -/
inductive AbsentTogether (realValue : Nat → Option Nat) : ENode Op → ENode Op → Prop
  | here : AbsentTogether realValue .null .null
  | deeper {a b x y : ENode Op} {i : Nat} (present : a ≠ .null)
      (same : checkENodeEq realValue a b = true) (ha : a.child[i]? = some x)
      (hb : b.child[i]? = some y)
      (before : ∀ j < i, ∀ x' y', a.child[j]? = some x' → b.child[j]? = some y' →
        subTreeEq realValue x' y' = some true)
      (rest : AbsentTogether realValue x y) : AbsentTogether realValue a b

theorem subTreeEq_of_present {a : ENode Op} (h : a ≠ .null) (b : ENode Op) :
    subTreeEq realValue a b =
      if checkENodeEq realValue a b then childrenEq realValue a.child b.child else some false := by
  cases a with
  | null => exact absurd rfl h
  | ref | op => rw [subTreeEq]; rfl

theorem checkENodeEq_null {b : ENode Op} (h : checkENodeEq realValue .null b = true) : b = .null := by
  cases b with
  | null => rfl
  | ref | op => cases h

theorem childrenEq_eq_none_iff {as bs : List (ENode Op)} :
    childrenEq realValue as bs = none ↔ ∃ (i : Nat) (x y : ENode Op), as[i]? = some x ∧ bs[i]? = some y ∧
      subTreeEq realValue x y = none ∧ ∀ j < i, ∀ x' y', as[j]? = some x' → bs[j]? = some y' →
        subTreeEq realValue x' y' = some true := by
  induction as generalizing bs with
  | nil => simp [childrenEq]
  | cons a as ih =>
    cases bs with
    | nil => simp [childrenEq]
    | cons b bs =>
      rw [childrenEq]
      constructor
      · intro h
        split at h
        · next heq =>
          obtain ⟨i, x, y, hx, hy, hnone, hbefore⟩ := ih.mp h
          refine ⟨i + 1, x, y, hx, hy, hnone, ?_⟩
          rintro (_ | j) hj x' y' hx' hy'
          · obtain rfl := Option.some.inj hx'
            obtain rfl := Option.some.inj hy'
            exact heq
          · exact hbefore j (Nat.lt_of_succ_lt_succ hj) x' y' hx' hy'
        · exact ⟨0, a, b, rfl, rfl, h, fun j hj => absurd hj (Nat.not_lt_zero j)⟩
      · rintro ⟨_ | i, x, y, hx, hy, hnone, hbefore⟩
        · obtain rfl := Option.some.inj hx
          obtain rfl := Option.some.inj hy
          simp only [hnone]
        · simp only [hbefore 0 (Nat.succ_pos i) a b rfl rfl]
          refine ih.mpr ⟨i, x, y, hx, hy, hnone, fun j hj x' y' hx' hy' => ?_⟩
          exact hbefore (j + 1) (Nat.succ_lt_succ hj) x' y' hx' hy'

/-- **When a null pointer is read.** -/
theorem subTreeEq_eq_none_iff {a b : ENode Op} :
    subTreeEq realValue a b = none ↔ AbsentTogether realValue a b := by
  constructor
  · intro h
    induction a using ENode.induct generalizing b with
    | null =>
      rw [subTreeEq] at h
      split at h
      · next heq =>
        rw [checkENodeEq_null heq]
        exact .here
      · cases h
    | ref node width s index ih =>
      rw [subTreeEq_of_present (a := .ref node width s index) nofun] at h
      split at h
      · next heq =>
        obtain ⟨i, x, y, hx, hy, hnone, hbefore⟩ := childrenEq_eq_none_iff.mp h
        exact .deeper nofun heq hx hy hbefore (ih x (List.mem_of_getElem? hx) hnone)
      · cases h
    | op o width s children ih =>
      rw [subTreeEq_of_present (a := .op o width s children) nofun] at h
      split at h
      · next heq =>
        obtain ⟨i, x, y, hx, hy, hnone, hbefore⟩ := childrenEq_eq_none_iff.mp h
        exact .deeper nofun heq hx hy hbefore (ih x (List.mem_of_getElem? hx) hnone)
      · cases h
  · intro h
    induction h with
    | here => rfl
    | deeper present same ha hb before _ ih =>
      rw [subTreeEq_of_present present, if_pos same]
      exact childrenEq_eq_none_iff.mpr ⟨_, _, _, ha, hb, ih, before⟩

theorem childrenEq_performs {sem : Semantics Op} {ρ : Nat → List Int → Int}
    {as : List (ENode Op)} (ih : ∀ a ∈ as, ∀ b, subTreeEq realValue a b = some true →
      SameNames a b → perform sem ρ a = perform sem ρ b) :
    ∀ {bs : List (ENode Op)}, as.length = bs.length → childrenEq realValue as bs = some true →
      SameNamesOf as bs → performs sem ρ as = performs sem ρ bs := by
  induction as with
  | nil =>
    intro bs hlen _ _
    rw [List.length_eq_zero_iff.mp hlen.symm]
  | cons a as ihas =>
    intro bs hlen h hnames
    obtain ⟨iha, ihtail⟩ := List.forall_mem_cons.mp ih
    cases bs with
    | nil => cases hlen
    | cons b bs =>
      rw [childrenEq] at h
      split at h
      · next heq =>
        rw [performs, performs, iha b heq hnames.1,
          ihas ihtail (Nat.succ.inj hlen) h hnames.2]
      · next r hr => exact absurd h hr

/-- **Subtrees that are taken for equal have equal values**, if they also read the same memories
    and call the same functions. -/
theorem subTreeEq_sound {sem : Semantics Op} {ρ : Nat → List Int → Int} (hρ : Respects realValue ρ)
    {a b : ENode Op} (h : subTreeEq realValue a b = some true) (hnames : SameNames a b) :
    perform sem ρ a = perform sem ρ b := by
  induction a using ENode.induct generalizing b with
  | null =>
    rw [subTreeEq] at h
    split at h <;> cases h
  | ref node width s index ih =>
    rw [subTreeEq_of_present (a := .ref node width s index) (by rintro ⟨⟩)] at h
    split at h
    · next heq =>
      cases b with
      | null | op => cases heq
      | ref node' width' s' index' =>
        simp only [checkENodeEq, Bool.and_eq_true, beq_iff_eq] at heq
        obtain ⟨⟨⟨rfl, rfl⟩, hlen⟩, hnode⟩ := heq
        rw [perform, perform, hρ _ _ hnode,
          childrenEq_performs (fun e he b hb hn => ih e he hb hn) hlen h hnames]
    · cases h
  | op o width s children ih =>
    rw [subTreeEq_of_present (a := .op o width s children) (by rintro ⟨⟩)] at h
    split at h
    · next heq =>
      cases b with
      | null | ref => cases heq
      | op o' width' s' children' =>
        simp only [checkENodeEq, Bool.and_eq_true, beq_iff_eq] at heq
        obtain ⟨⟨⟨⟨⟨htype, rfl⟩, rfl⟩, hlen⟩, -⟩, hvalues⟩ := heq
        obtain ⟨hstr, hmem, hchildren⟩ := hnames
        have hop : o = o' := by
          cases o
          cases o'
          simp only [Op.mk.injEq]
          exact ⟨htype, hvalues, hstr, hmem⟩
        rw [perform, perform, hop,
          childrenEq_performs (fun e he b hb hn => ih e he hb hn) hlen h hchildren]
    · cases h

theorem subTreeEq_type {a b : ENode Op} (h : subTreeEq realValue a b = some true) :
    a ≠ .null ∧ b ≠ .null ∧ a.width = b.width := by
  have present : a ≠ .null := by
    rintro rfl
    rw [subTreeEq] at h
    split at h <;> cases h
  rw [subTreeEq_of_present present] at h
  split at h
  · next heq =>
    cases a with
    | null => exact absurd rfl present
    | ref =>
      cases b with
      | null | op => cases heq
      | ref =>
        simp only [checkENodeEq, Bool.and_eq_true, beq_iff_eq] at heq
        exact ⟨by rintro ⟨⟩, by rintro ⟨⟩, heq.1.1.1⟩
    | op =>
      cases b with
      | null | ref => cases heq
      | op =>
        simp only [checkENodeEq, Bool.and_eq_true, beq_iff_eq] at heq
        exact ⟨by rintro ⟨⟩, by rintro ⟨⟩, heq.1.1.1.1.2⟩
  · cases h

/-! ## 6. Conditions on a tree -/

/-- The type that `inferWidth` gives a `mux`, a `when` and an asynchronous reset. -/
def TypedAt : ENode Op → Prop
  | .op o width s children =>
    match view o children with
    | .select _ c1 c2 => c1 ≠ .null → c2 ≠ .null → width = max c1.width c2.width ∧ s = sign c1
    | .async c0 => width = 1 ∧ s = false ∧ c0.width = 1
    | _ => True
  | _ => True

def Typed (t : ENode Op) : Prop :=
  ∀ e, ReflTransGen (fun e c => c ∈ e.child) t e → TypedAt e

/-- The branches are not compared down to a position where both are absent. -/
def SafeAt (realValue : Nat → Option Nat) : ENode Op → Prop
  | .op o _ _ children =>
    match view o children with
    | .select _ c1 c2 => ¬ AbsentTogether realValue c1 c2
    | _ => True
  | _ => True

/-- Branches that are taken for equal read the same memories and call the same functions, and
    what is made an asynchronous reset is unsigned. -/
def FaithfulAt (realValue : Nat → Option Nat) : ENode Op → Prop
  | .op o _ _ children =>
    match view o children with
    | .select _ c1 c2 => subTreeEq realValue c1 c2 = some true → SameNames c1 c2
    | .async c0 => sign c0 = false
    | _ => True
  | _ => True

def Safe (realValue : Nat → Option Nat) (t : ENode Op) : Prop :=
  ∀ e, Visited realValue t e → SafeAt realValue e

def Faithful (realValue : Nat → Option Nat) (t : ENode Op) : Prop :=
  ∀ e, Visited realValue t e → FaithfulAt realValue e

/-- The loop ends without reading a null pointer, and its result assigns what the tree assigned. -/
def Preserved (realValue : Nat → Option Nat) (t : ENode Op) : Prop :=
  ∃ t', treeOpt realValue t = some t' ∧ ∀ (sem : Semantics Op) (ρ : Nat → List Int → Int),
    Respects realValue ρ → perform sem ρ t' = perform sem ρ t

theorem view_select {o : Op} {children : List (ENode Op)} {c0 c1 c2 : ENode Op}
    (h : view o children = .select c0 c1 c2) :
    children = [c0, c1, c2] ∧ (o.opType = .OP_WHEN ∨ o.opType = .OP_MUX) := by
  unfold view at h
  split at h
  · next htype =>
    cases h
    exact ⟨rfl, .inl htype⟩
  · next htype =>
    cases h
    exact ⟨rfl, .inr htype⟩
  all_goals cases h

theorem view_async {o : Op} {children : List (ENode Op)} {c0 : ENode Op}
    (h : view o children = .async c0) : children = [c0] ∧ o.opType = .OP_ASASYNCRESET := by
  unfold view at h
  split at h
  · cases h
  · cases h
  · next htype =>
    cases h
    exact ⟨rfl, htype⟩
  all_goals cases h

theorem view_cast {o : Op} {children : List (ENode Op)} {c0 : ENode Op}
    (h : view o children = .cast c0) :
    children = [c0] ∧ (o.opType = .OP_ASSINT ∨ o.opType = .OP_ASUINT) := by
  unfold view at h
  split at h
  · cases h
  · cases h
  · cases h
  · next htype =>
    cases h
    exact ⟨rfl, .inl htype⟩
  · next htype =>
    cases h
    exact ⟨rfl, .inr htype⟩
  · cases h

/-! ## 7. Values at their types -/

theorem perform_type {sem : Semantics Op} {ρ : Nat → List Int → Int} {e : ENode Op} {v : Value}
    (h : perform sem ρ e = some v) :
    v.width = e.width ∧ v.sign = sign e ∧ ∀ more, Fits v.sign v.width.toNat (v.val more) := by
  have hmap : ∀ {width : Int} {s : Bool} {f : Value → Value} {r : Option Value},
      (∀ x, (f x).width = width ∧ (f x).sign = s ∧ ∀ more, Fits s width.toNat ((f x).val more)) →
      r.map f = some v →
      v.width = width ∧ v.sign = s ∧ ∀ more, Fits v.sign v.width.toNat (v.val more) := by
    intro width s f r hf hr
    obtain ⟨x, -, rfl⟩ := Option.map_eq_some_iff.mp hr
    obtain ⟨hw, hs, hfits⟩ := hf x
    exact ⟨hw, hs, fun more => by rw [hw, hs]; exact hfits more⟩
  cases e with
  | null => cases h
  | ref node width s index =>
    rw [perform] at h
    obtain rfl := Option.some.inj h
    exact ⟨rfl, rfl, fun more => fits_wrap _ _ _⟩
  | op o width s children =>
    rw [perform] at h
    unfold combine at h
    split at h
    · exact hmap (fun x => ⟨rfl, rfl, fun more => fits_wrap _ _ _⟩) h
    · exact hmap (fun x => ⟨rfl, rfl, fun more => fits_wrap _ _ _⟩) h
    · exact hmap (fun x => ⟨rfl, rfl, fun more => fits_wrap _ _ _⟩) h
    · exact hmap (fun x => ⟨rfl, rfl, fun more => fits_wrap _ _ _⟩) h
    · exact hmap (fun x => ⟨rfl, rfl, fun more => fits_wrap _ _ _⟩) h
    · obtain rfl := Option.some.inj h
      exact ⟨rfl, rfl, fun more => fits_wrap _ _ _⟩

/-- At its own type a value is unchanged. -/
theorem map_retype {sem : Semantics Op} {ρ : Nat → List Int → Int} (e : ENode Op) :
    (perform sem ρ e).map (Value.retype e.width (sign e)) = perform sem ρ e := by
  cases h : perform sem ρ e with
  | none => rfl
  | some v =>
    obtain ⟨hw, hs, hfits⟩ := perform_type h
    rw [Option.map_some, Value.retype, ← hw, ← hs]
    congr 2
    funext more
    exact wrap_of_fits (hfits more)

theorem map_recast {sem : Semantics Op} {ρ : Nat → List Int → Int} (e : ENode Op) :
    (perform sem ρ e).map (Value.recast e.width (sign e)) = perform sem ρ e := by
  cases h : perform sem ρ e with
  | none => rfl
  | some v =>
    obtain ⟨hw, hs, hfits⟩ := perform_type h
    rw [Option.map_some, Value.recast, ← hw, ← hs]
    congr 2
    funext more
    rw [wrap_eq_iff (hfits more), dvd_emod_sub_iff, sub_self]
    exact dvd_zero _

/-! ## 8. The loop -/

theorem collect_performs {es : List (ENode Op)} (h : ∀ e ∈ es, Preserved realValue e) :
    ∃ es', collect (treeOpts realValue es) = some es' ∧
      ∀ (sem : Semantics Op) (ρ : Nat → List Int → Int), Respects realValue ρ →
        performs sem ρ es' = performs sem ρ es := by
  induction es with
  | nil => exact ⟨[], rfl, fun _ _ _ => rfl⟩
  | cons e es ih =>
    obtain ⟨he, hes⟩ := List.forall_mem_cons.mp h
    obtain ⟨e', hopt, heq⟩ := he
    obtain ⟨es', hcollect, heqs⟩ := ih hes
    refine ⟨e' :: es', ?_, ?_⟩
    · rw [treeOpts, hopt, collect, hcollect]
      rfl
    · intro sem ρ hρ
      rw [performs, performs, heq sem ρ hρ, heqs sem ρ hρ]

/-- A node whose children are put back keeps its value if they do. -/
theorem preserved_children {o : Op} {width : Int} {s : Bool} {children : List (ENode Op)}
    (hopt : treeOpt realValue (.op o width s children) =
      (collect (treeOpts realValue children)).map (.op o width s))
    (h : ∀ e ∈ children, Preserved realValue e) : Preserved realValue (.op o width s children) := by
  obtain ⟨es, hcollect, heq⟩ := collect_performs h
  refine ⟨.op o width s es, by rw [hopt, hcollect]; rfl, fun sem ρ hρ => ?_⟩
  rw [perform, perform, heq sem ρ hρ]

theorem Safe.next {t c : ENode Op} (h : Safe realValue t) (hc : c ∈ nexts realValue t) :
    Safe realValue c := fun e he => h e (ReflTransGen.head hc he)

theorem Faithful.next {t c : ENode Op} (h : Faithful realValue t) (hc : c ∈ nexts realValue t) :
    Faithful realValue c := fun e he => h e (ReflTransGen.head hc he)

theorem typed_of_children {t : ENode Op} (h : TypedAt t) (hc : ∀ c ∈ t.child, Typed c) : Typed t := by
  intro e he
  rcases he.cases_head with rfl | ⟨c, hmem, hce⟩
  · exact h
  · exact hc c hmem e hce

theorem faithful_of_nexts {t : ENode Op} (h : FaithfulAt realValue t)
    (hc : ∀ c ∈ nexts realValue t, Faithful realValue c) : Faithful realValue t := by
  intro e he
  rcases he.cases_head with rfl | ⟨c, hmem, hce⟩
  · exact h
  · exact hc c hmem e hce

theorem Typed.child {t c : ENode Op} (h : Typed t) (hc : c ∈ t.child) : Typed c :=
  fun e he => h e (ReflTransGen.head hc he)

/-- A `mux` or `when` with branches that are taken for equal. -/
theorem preserved_select {o : Op} {width : Int} {s : Bool} {c0 c1 c2 : ENode Op}
    (hview : view o [c0, c1, c2] = .select c0 c1 c2)
    (htype : TypedAt (.op o width s [c0, c1, c2]))
    (hfaithful : FaithfulAt realValue (.op o width s [c0, c1, c2]))
    (heq : subTreeEq realValue c1 c2 = some true) (h : Preserved realValue c1) :
    Preserved realValue (.op o width s [c0, c1, c2]) := by
  obtain ⟨c1', hopt, hvalue⟩ := h
  obtain ⟨hp1, hp2, hwidths⟩ := subTreeEq_type heq
  simp only [TypedAt, hview] at htype
  obtain ⟨rfl, rfl⟩ := htype hp1 hp2
  simp only [FaithfulAt, hview] at hfaithful
  have hnames := hfaithful heq
  refine ⟨c1', ?_, fun sem ρ hρ => ?_⟩
  · rw [treeOpt, optNode, hview]
    simp only [heq, treeOpts_eq_map]
    exact hopt
  · have hsame : perform sem ρ c1 = perform sem ρ c2 := subTreeEq_sound hρ heq hnames
    have hbranch : ∀ p : Prop, [Decidable p] →
        (if p then perform sem ρ c1 else perform sem ρ c2) = perform sem ρ c1 := by
      intro p _
      split
      · rfl
      · exact hsame.symm
    rw [hvalue sem ρ hρ, perform, performs_eq_map, ← hwidths, max_self]
    obtain ⟨-, hop | hop⟩ := view_select hview
    · simp only [combine, hop, List.map_cons, List.map_nil, hbranch]
      exact (map_retype c1).symm
    · simp only [combine, hop, List.map_cons, List.map_nil, hbranch]
      exact (map_retype c1).symm

/-- **Simplification is sound** where it is safe and faithful. -/
theorem preserved_of_safe {t : ENode Op} (typed : Typed t) (safe : Safe realValue t)
    (faithful : Faithful realValue t) : Preserved realValue t := by
  induction t using ENode.induct with
  | null => exact ⟨.null, rfl, fun _ _ _ => rfl⟩
  | ref node width s index ih =>
    have hindex : ∀ e ∈ index, Preserved realValue e :=
      fun e he => ih e he (typed.child he) (safe.next he) (faithful.next he)
    obtain ⟨es, hcollect, heq⟩ := collect_performs hindex
    refine ⟨.ref node width s es, by rw [treeOpt, hcollect]; rfl, fun sem ρ hρ => ?_⟩
    rw [perform, perform, heq sem ρ hρ]
  | op o width s children ih =>
    have hself := typed _ .refl
    have hsafe := safe _ .refl
    have hfaithful := faithful _ .refl
    have hnext : ∀ c ∈ children, c ∈ nexts realValue (.op o width s children) →
        Preserved realValue c :=
      fun c hc hn => ih c hc (typed.child hc) (safe.next hn) (faithful.next hn)
    cases hview : view o children with
    | select c0 c1 c2 =>
      obtain ⟨rfl, -⟩ := view_select hview
      cases heq : subTreeEq realValue c1 c2 with
      | none =>
        simp only [SafeAt, hview] at hsafe
        exact absurd (subTreeEq_eq_none_iff.mp heq) hsafe
      | some b =>
        cases b with
        | true =>
          apply preserved_select hview hself hfaithful heq
          apply hnext c1 (by simp)
          simp only [nexts, hview, heq, if_true, List.mem_singleton]
        | false =>
          apply preserved_children
          · rw [treeOpt, optNode, hview]
            simp only [heq]
          · intro c hc
            apply hnext c hc
            simp only [nexts, hview, heq]
            exact hc
    | async c0 =>
      obtain ⟨rfl, hop⟩ := view_async hview
      simp only [TypedAt, hview] at hself
      simp only [FaithfulAt, hview] at hfaithful
      obtain ⟨rfl, rfl, hwidth⟩ := hself
      have hc : c0 ∈ nexts realValue (.op o 1 false [c0]) := by
        simp only [nexts, hview, List.mem_singleton]
      obtain ⟨c0', hopt, hvalue⟩ := hnext c0 List.mem_cons_self hc
      refine ⟨c0', ?_, fun sem ρ hρ => ?_⟩
      · rw [treeOpt, optNode, hview]
        simp only [treeOpts_eq_map]
        exact hopt
      · have hcast : (perform sem ρ c0).map (Value.recast c0.width (sign c0)) = perform sem ρ c0 :=
          map_recast c0
        rw [hwidth, hfaithful] at hcast
        rw [hvalue sem ρ hρ, perform, performs_eq_map]
        simp only [combine, hop, List.map_cons, List.map_nil]
        exact hcast.symm
    | cast c0 =>
      obtain ⟨rfl, hop⟩ := view_cast hview
      by_cases hsame : sign c0 = s ∧ c0.width = width
      · have hc : c0 ∈ nexts realValue (.op o width s [c0]) := by
          simp only [nexts, hview, if_pos hsame, List.mem_singleton]
        obtain ⟨c0', hopt, hvalue⟩ := hnext c0 List.mem_cons_self hc
        obtain ⟨rfl, rfl⟩ := hsame
        refine ⟨c0', ?_, fun sem ρ hρ => ?_⟩
        · rw [treeOpt, optNode, hview]
          simp only [treeOpts_eq_map, and_self, if_true]
          exact hopt
        · rw [hvalue sem ρ hρ, perform, performs_eq_map]
          rcases hop with hop | hop
          · simp only [combine, hop, List.map_cons, List.map_nil]
            exact (map_recast c0).symm
          · simp only [combine, hop, List.map_cons, List.map_nil]
            exact (map_recast c0).symm
      · refine ⟨.op o width s [c0], ?_, fun _ _ _ => rfl⟩
        rw [treeOpt, optNode, hview]
        simp only [if_neg hsame]
    | plain =>
      apply preserved_children
      · rw [treeOpt, optNode, hview]
      · intro c hc
        apply hnext c hc
        simp only [nexts, hview]
        exact hc

theorem collect_isSome_iff {es : List (ENode Op)} :
    (∃ es', collect (treeOpts realValue es) = some es') ↔
      ∀ c ∈ es, ∃ c', treeOpt realValue c = some c' := by
  induction es with
  | nil => exact ⟨fun _ => List.forall_mem_nil _, fun _ => ⟨[], rfl⟩⟩
  | cons e es ih =>
    rw [List.forall_mem_cons, ← ih, treeOpts]
    cases treeOpt realValue e with
    | none => simp [collect]
    | some e' => simp [collect]

theorem map_collect_isSome_iff {es : List (ENode Op)} (f : List (ENode Op) → ENode Op) :
    (∃ t', (collect (treeOpts realValue es)).map f = some t') ↔
      ∀ c ∈ es, ∃ c', treeOpt realValue c = some c' := by
  rw [← collect_isSome_iff]
  cases collect (treeOpts realValue es) <;> simp

/-- A node is dealt with if no null pointer is read at it and what the loop goes on with is. -/
theorem treeOpt_isSome_iff {t : ENode Op} :
    (∃ t', treeOpt realValue t = some t') ↔
      SafeAt realValue t ∧ ∀ c ∈ nexts realValue t, ∃ c', treeOpt realValue c = some c' := by
  cases t with
  | null => exact ⟨fun _ => ⟨trivial, List.forall_mem_nil _⟩, fun _ => ⟨.null, rfl⟩⟩
  | ref node width s index =>
    rw [treeOpt, map_collect_isSome_iff]
    exact ⟨fun h => ⟨trivial, h⟩, And.right⟩
  | op o width s children =>
    rw [treeOpt, optNode]
    cases hview : view o children with
    | select c0 c1 c2 =>
      obtain ⟨rfl, -⟩ := view_select hview
      simp only [SafeAt, hview, ← subTreeEq_eq_none_iff, nexts]
      cases heq : subTreeEq realValue c1 c2 with
      | none => simp
      | some b =>
        cases b with
        | true => simp [treeOpts_eq_map]
        | false =>
          rw [map_collect_isSome_iff]
          simp
    | async c0 =>
      obtain ⟨rfl, -⟩ := view_async hview
      simp [SafeAt, hview, nexts, treeOpts_eq_map]
    | cast c0 =>
      obtain ⟨rfl, -⟩ := view_cast hview
      simp only [SafeAt, hview, nexts, treeOpts_eq_map]
      by_cases hsame : sign c0 = s ∧ c0.width = width
      · simp [hsame]
      · simp [hsame]
    | plain =>
      simp only [SafeAt, hview, nexts]
      rw [map_collect_isSome_iff]
      exact ⟨fun h => ⟨trivial, h⟩, And.right⟩

theorem child_of_next {t c : ENode Op} (h : c ∈ nexts realValue t) : c ∈ t.child := by
  cases t with
  | null => cases h
  | ref node width s index => exact h
  | op o width s children =>
    rw [nexts] at h
    cases hview : view o children with
    | select c0 c1 c2 =>
      obtain ⟨rfl, -⟩ := view_select hview
      simp only [hview] at h
      split at h
      · obtain rfl := List.mem_singleton.mp h
        exact List.mem_cons_of_mem _ List.mem_cons_self
      · exact h
    | async c0 =>
      obtain ⟨rfl, -⟩ := view_async hview
      simp only [hview] at h
      exact h
    | cast c0 =>
      obtain ⟨rfl, -⟩ := view_cast hview
      simp only [hview] at h
      split at h
      · exact h
      · cases h
    | plain =>
      simp only [hview] at h
      exact h

/-- **The loop ends, and asks no absent subtree for its children, exactly on safe trees.** -/
theorem treeOpt_isSome_iff_safe {t : ENode Op} :
    (∃ t', treeOpt realValue t = some t') ↔ Safe realValue t := by
  constructor
  · rintro ⟨t', h⟩ e he
    induction he using ReflTransGen.head_induction_on generalizing t' with
    | refl => exact (treeOpt_isSome_iff.mp ⟨t', h⟩).1
    | head hc _ ih =>
      obtain ⟨c', hc'⟩ := (treeOpt_isSome_iff.mp ⟨t', h⟩).2 _ hc
      exact ih c' hc'
  · intro safe
    induction t using ENode.induct with
    | null => exact ⟨.null, rfl⟩
    | ref node width s index ih =>
      exact treeOpt_isSome_iff.mpr
        ⟨safe _ .refl, fun c hc => ih c (child_of_next hc) (safe.next hc)⟩
    | op o width s children ih =>
      exact treeOpt_isSome_iff.mpr
        ⟨safe _ .refl, fun c hc => ih c (child_of_next hc) (safe.next hc)⟩

/-- **When simplification is safe and sound.**  The loop ends without asking an absent subtree for
    its children exactly on safe trees.  Where the tree is also faithful its result makes the same
    assignment in every state, and whatever was taken for equal on the way is equal in every
    state. -/
theorem treeOpt_safe_iff_and_sound {t : ENode Op} (typed : Typed t) :
    ((∃ t', treeOpt realValue t = some t') ↔ Safe realValue t) ∧
    (Safe realValue t → Faithful realValue t → Preserved realValue t ∧
      ∀ o width s c0 c1 c2 children, Visited realValue t (.op o width s children) →
        view o children = .select c0 c1 c2 → subTreeEq realValue c1 c2 = some true →
        ∀ (sem : Semantics Op) (ρ : Nat → List Int → Int), Respects realValue ρ →
          perform sem ρ c1 = perform sem ρ c2) := by
  refine ⟨treeOpt_isSome_iff_safe, fun safe faithful => ?_⟩
  refine ⟨preserved_of_safe typed safe faithful, ?_⟩
  intro o width s c0 c1 c2 children hvisited hview heq sem ρ hρ
  have hnames := faithful _ hvisited
  simp only [FaithfulAt, hview] at hnames
  exact subTreeEq_sound hρ heq (hnames heq)

end Sound

/-! ## 9. Trees -/

theorem typed_ref (node : Nat) (width : Int) (s : Bool) : Typed (.ref node width s []) :=
  typed_of_children trivial (List.forall_mem_nil _)

theorem faithful_ref (node : Nat) (width : Int) (s : Bool) :
    Faithful realValue (.ref node width s []) :=
  faithful_of_nexts trivial (List.forall_mem_nil _)

/-- Both branches join node 1 and the reset that node 2 is made into. -/
def sameBranches : ENode Op :=
  let branch := .op ⟨.other 1, [], "", none⟩ 5 false
    [.ref 1 4 false [], .op ⟨.OP_ASASYNCRESET, [], "", none⟩ 1 false [.ref 2 1 false []]]
  .op ⟨.OP_MUX, [], "", none⟩ 5 false [.ref 0 1 false [], branch, branch]

theorem sameBranches_typed : Typed sameBranches := by
  have hreset : Typed (.op ⟨.OP_ASASYNCRESET, [], "", none⟩ 1 false [.ref 2 1 false []]) :=
    typed_of_children ⟨rfl, rfl, rfl⟩ (List.forall_mem_singleton.mpr (typed_ref 2 1 false))
  have hbranch : Typed (.op ⟨.other 1, [], "", none⟩ 5 false
      [.ref 1 4 false [], .op ⟨.OP_ASASYNCRESET, [], "", none⟩ 1 false [.ref 2 1 false []]]) :=
    typed_of_children trivial
      (List.forall_mem_cons.mpr ⟨typed_ref 1 4 false, List.forall_mem_singleton.mpr hreset⟩)
  exact typed_of_children (fun _ _ => ⟨rfl, rfl⟩) (List.forall_mem_cons.mpr ⟨typed_ref 0 1 false,
    List.forall_mem_cons.mpr ⟨hbranch, List.forall_mem_singleton.mpr hbranch⟩⟩)

theorem sameBranches_faithful : Faithful (fun _ => none) sameBranches := by
  have hreset : Faithful (fun _ => none)
      (.op ⟨.OP_ASASYNCRESET, [], "", none⟩ 1 false [.ref 2 1 false []]) :=
    faithful_of_nexts rfl (List.forall_mem_singleton.mpr (faithful_ref 2 1 false))
  have hbranch : Faithful (fun _ => none) (.op ⟨.other 1, [], "", none⟩ 5 false
      [.ref 1 4 false [], .op ⟨.OP_ASASYNCRESET, [], "", none⟩ 1 false [.ref 2 1 false []]]) :=
    faithful_of_nexts trivial
      (List.forall_mem_cons.mpr ⟨faithful_ref 1 4 false, List.forall_mem_singleton.mpr hreset⟩)
  have names : FaithfulAt (fun _ => none) sameBranches :=
    fun _ => ⟨rfl, rfl, trivial, ⟨rfl, rfl, trivial, trivial⟩, trivial⟩
  exact faithful_of_nexts names (List.forall_mem_singleton.mpr hbranch)

/-- Both branches assign node 2 where node 1 holds. -/
def twinWhens : ENode Op :=
  let branch := .op ⟨.OP_WHEN, [], "", none⟩ 4 false [.ref 1 1 false [], .ref 2 4 false [], .null]
  .op ⟨.OP_WHEN, [], "", none⟩ 4 false [.ref 0 1 false [], branch, branch]

theorem twinWhens_typed : Typed twinWhens := by
  have hbranch : Typed (.op ⟨.OP_WHEN, [], "", none⟩ 4 false
      [.ref 1 1 false [], .ref 2 4 false [], .null]) := by
    apply typed_of_children (fun _ h => absurd rfl h)
    exact List.forall_mem_cons.mpr ⟨typed_ref 1 1 false, List.forall_mem_cons.mpr
      ⟨typed_ref 2 4 false, List.forall_mem_singleton.mpr
        (typed_of_children trivial (List.forall_mem_nil _))⟩⟩
  exact typed_of_children (fun _ _ => ⟨rfl, rfl⟩) (List.forall_mem_cons.mpr ⟨typed_ref 0 1 false,
    List.forall_mem_cons.mpr ⟨hbranch, List.forall_mem_singleton.mpr hbranch⟩⟩)

/-- The first tree loses its `mux` and its reset and keeps its value, the second is not safe. -/
theorem sameBranches_sound :
    treeOpt (fun _ => none) sameBranches =
        some (.op ⟨.other 1, [], "", none⟩ 5 false [.ref 1 4 false [], .ref 2 1 false []]) ∧
      Preserved (fun _ => none) sameBranches ∧ ¬ Safe (fun _ => none) twinWhens := by
  have opt : treeOpt (fun _ => none) sameBranches =
      some (.op ⟨.other 1, [], "", none⟩ 5 false [.ref 1 4 false [], .ref 2 1 false []]) := rfl
  obtain ⟨safe, sound⟩ := @treeOpt_safe_iff_and_sound (fun _ => none) _ sameBranches_typed
  refine ⟨opt, (sound (safe.mp ⟨_, opt⟩) sameBranches_faithful).1, fun safe' => ?_⟩
  obtain ⟨t', fails⟩ := (treeOpt_safe_iff_and_sound twinWhens_typed).1.mpr safe'
  cases fails

/-- The one bit of a signed node, made a reset, read as an unsigned number and padded. -/
def paddedReset : ENode Op :=
  .op ⟨.other 0, [], "", none⟩ 4 false
    [.op ⟨.OP_ASUINT, [], "", none⟩ 1 false
      [.op ⟨.OP_ASASYNCRESET, [], "", none⟩ 1 false [.ref 0 1 true []]]]

theorem paddedReset_typed : Typed paddedReset := by
  have hreset : Typed (.op ⟨.OP_ASASYNCRESET, [], "", none⟩ 1 false [.ref 0 1 true []]) :=
    typed_of_children ⟨rfl, rfl, rfl⟩ (List.forall_mem_singleton.mpr (typed_ref 0 1 true))
  exact typed_of_children trivial (List.forall_mem_singleton.mpr
    (typed_of_children trivial (List.forall_mem_singleton.mpr hreset)))

/-- One address of two memories. -/
def twoMemories : ENode Op :=
  .op ⟨.OP_MUX, [], "", none⟩ 4 false
    [.ref 0 1 false [], .op ⟨.other 0, [], "", some 0⟩ 4 false [.ref 1 4 false []],
      .op ⟨.other 0, [], "", some 1⟩ 4 false [.ref 1 4 false []]]

/-- A padding that looks at the operand's value. -/
def padding : Semantics Op := fun _ _ _ values more =>
  ((values[0]?.join).map fun v => v.val more).getD 0

/-- The first tree becomes the padding of a signed bit: 15 instead of 1.  The second asks a null
    pointer for its children; the third becomes a read of one of its memories, whatever node 0 is. -/
theorem not_preserved :
    Typed paddedReset ∧ ¬ Preserved (fun _ => none) paddedReset ∧
      treeOpt (fun _ => none) twinWhens = none ∧ ¬ Preserved (fun _ => none) twoMemories := by
  refine ⟨paddedReset_typed, ?_, rfl, ?_⟩
  · rintro ⟨t', hopt, h⟩
    have hpad : treeOpt (fun _ => none) paddedReset =
        some (.op ⟨.other 0, [], "", none⟩ 4 false [.ref 0 1 true []]) := rfl
    obtain rfl := Option.some.inj (hpad.symm.trans hopt)
    have heq := h padding (fun _ _ => -1) (fun _ _ _ => rfl)
    have hval := congrArg (fun v : Option Value => indexOf v) heq
    revert hval
    decide
  · rintro ⟨t', hopt, h⟩
    have hread : treeOpt (fun _ => none) twoMemories =
        some (.op ⟨.other 0, [], "", some 0⟩ 4 false [.ref 1 4 false []]) := rfl
    obtain rfl := Option.some.inj (hread.symm.trans hopt)
    -- every read yields the number of its memory
    have heq := h (fun o _ _ _ _ => (o.memoryNode.getD 0 : Nat)) (fun _ _ => 0) (fun _ _ _ => rfl)
    have hval := congrArg (fun v : Option Value => indexOf v) heq
    revert hval
    decide

end Gsim.ExprOpt
