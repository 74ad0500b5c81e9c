/-
  Gsim/WhenLowering.lean
  ======================
  **From connects to assignment trees** (`visitConnect`, `whenConnect`, `growWhenTrace`
  and `saveWhenTree` of `AST2Graph.cpp`), for one node that is not an array.

  The statements of a module are visited in order.  A connect outside of any `when`
  sets the node's `valTree`; one inside grows that tree along the trace of the open
  `when`s, and when the tree has another `when` where it should grow, the tree so far
  goes to `assignTree` and the new branch stays empty.  At the end of an outermost
  `when` the tree is filled up, put aside, or kept.

  None of this looks at what is connected, except whether it is `invalid`; so the
  leaves are any type.  What the trees are for is `lastConnect`.
-/
import Mathlib.Data.List.Basic
import Mathlib.Tactic

namespace Gsim.WhenLowering

variable {C L : Type}

/-! ## Trees -/

/-- The `ENode`s that are built here; `null` is a branch that is not there. -/
inductive WhenTree (C L : Type) where
  | null
  | leaf (l : L)
  | when (cond : C) (t f : WhenTree C L)
deriving DecidableEq, Repr

/-- The open `when`s, outermost first, with the branch that is being visited. -/
abbrev Trace (C : Type) := List (Bool × C)

namespace WhenTree

variable [DecidableEq C]

/-- `getDeepestWhen`: how many `when`s of the trace the tree follows. -/
def matched : WhenTree C L → Trace C → ℕ
  | .when c t f, (branch, cond) :: trace =>
    if c = cond then matched (if branch then t else f) trace + 1 else 0
  | _, _ => 0

/-- The subtree the trace leads to. -/
def follow : WhenTree C L → Trace C → WhenTree C L
  | .when _ t f, (branch, _) :: trace => follow (if branch then t else f) trace
  | tree, _ => tree

/-- Put a tree where the trace leads to. -/
def set : WhenTree C L → Trace C → WhenTree C L → WhenTree C L
  | .when c t f, (branch, _) :: trace, x =>
    if branch then .when c (set t trace x) f else .when c t (set f trace x)
  | _, _, x => x

/-- Whether there is a `when` at the root. -/
def isWhen : WhenTree C L → Bool
  | .when .. => true
  | _ => false

def isNull : WhenTree C L → Bool
  | .null => true
  | _ => false

/-- `countEmptyWhen`. -/
def countEmptyWhen : WhenTree C L → ℕ
  | .when _ t f => t.isNull.toNat + f.isNull.toNat + t.countEmptyWhen + f.countEmptyWhen
  | _ => 0

/-- `fillEmptyWhen`. -/
def fillEmptyWhen : WhenTree C L → WhenTree C L → WhenTree C L
  | .when c t f, old =>
    .when c (if t.isNull then old else t.fillEmptyWhen old) (if f.isNull then old else f.fillEmptyWhen old)
  | tree, _ => tree

end WhenTree

/-- The new `when`s; `childRoot` goes to the branches that are not visited. -/
def newWhens (childRoot : WhenTree C L) : Trace C → WhenTree C L
  | [] => .null
  | (true, c) :: trace => .when c (newWhens childRoot trace) childRoot
  | (false, c) :: trace => .when c childRoot (newWhens childRoot trace)

/-! ## The trees of a node -/

structure NodeTrees (C L : Type) where
  assignTree : List (WhenTree C L) := []
  valTree : Option (WhenTree C L) := none
deriving DecidableEq, Repr

section Lowering

variable [DecidableEq C] (isInvalid : L → Bool)

/-- The trace starts where the node was declared. -/
def growWhenTrace (n : NodeTrees C L) (trace : Trace C) : NodeTrees C L :=
  match n.valTree with
  | none => { n with valTree := some (newWhens .null trace) }
  | some valTree =>
    let maxDepth := valTree.matched trace
    if maxDepth = trace.length then n
    else
      let oldRoot := valTree.follow (trace.take maxDepth)
      if oldRoot.isWhen then
        -- at depth 0 the old tree is moved and not copied, with the same result
        { assignTree := n.assignTree ++ [valTree]
          valTree := some (valTree.set (trace.take maxDepth) (newWhens .null (trace.drop maxDepth))) }
      else
        { n with
          valTree := some (valTree.set (trace.take maxDepth) (newWhens oldRoot (trace.drop maxDepth))) }

def whenConnect (n : NodeTrees C L) (trace : Trace C) (rvalue : L) : NodeTrees C L :=
  let grown := growWhenTrace n trace
  { grown with valTree := grown.valTree.map fun tree => tree.set trace (.leaf rvalue) }

/-- The statement a connect comes from: one of the node itself, one of an aggregate it is a
    field of, or a `<-`. -/
inductive Source where
  | ground
  | aggregate
  | fields
deriving DecidableEq, Repr

/-- A connect outside of any `when` (`visitConnect`, and `visitPartialConnect` for a `<-`).
    Only a connect of the node itself clears the trees before. -/
def visitConnect (n : NodeTrees C L) (source : Source) (rvalue : L) : NodeTrees C L :=
  match source with
  | .fields => { n with valTree := some (.leaf rvalue) }
  | .aggregate =>
    if isInvalid rvalue then
      if n.valTree.isSome then n else { n with valTree := some (.leaf rvalue) }
    else { n with valTree := some (.leaf rvalue) }
  | .ground =>
    if isInvalid rvalue && n.valTree.isSome then n
    else
      { assignTree := if isInvalid rvalue then n.assignTree else []
        valTree := some (.leaf rvalue) }

def invalidRoot : WhenTree C L → Bool
  | .leaf l => isInvalid l
  | _ => false

def saveWhenTree (n : NodeTrees C L) : NodeTrees C L :=
  match n.valTree with
  | none => n
  | some valTree =>
    match n.assignTree.getLast? with
    | some last =>
      if valTree.countEmptyWhen = 1 then
        { assignTree := n.assignTree.dropLast ++ [valTree.fillEmptyWhen last], valTree := none }
      else if valTree.countEmptyWhen ≠ 0 then
        { assignTree := n.assignTree ++ [valTree], valTree := none }
      else if invalidRoot isInvalid valTree then n
      else { n with assignTree := [] }
    | none =>
      if valTree.countEmptyWhen ≠ 0 then { assignTree := [valTree], valTree := none } else n

/-! ## Statements -/

/-- The statements that concern the node.  An instance is one of a module that has
    statements. -/
inductive Body (C L : Type) where
  | nil
  | connect (source : Source) (rvalue : L) (rest : Body C L)
  | inst (rest : Body C L)
  | when (cond : C) (t f rest : Body C L)
deriving DecidableEq, Repr

/-- The trees, and whether the node is in `stmtsNodes`. -/
structure Visit (C L : Type) where
  node : NodeTrees C L
  touched : Bool

/-- `visitWhenConnect` asserts that no aggregate is made invalid, and `visitWhenStmt` does not
    know a `<-`. -/
def allowedInWhen (source : Source) (rvalue : L) : Bool :=
  match source with
  | .ground => true
  | .aggregate => !isInvalid rvalue
  | .fields => false

/-- `visitWhenStmts`. -/
def visitWhenStmts (whenDepth : ℕ) (whenTrace : Trace C) :
    Body C L → Visit C L → Option (Visit C L)
  | .nil, v => some v
  | .connect source rvalue rest, v =>
    if allowedInWhen isInvalid source rvalue then
      visitWhenStmts whenDepth whenTrace rest
        ⟨whenConnect v.node (whenTrace.drop whenDepth) rvalue, true⟩
    else none
  -- the statements of the module clear `stmtsNodes`
  | .inst rest, v => visitWhenStmts whenDepth whenTrace rest { v with touched := false }
  | .when cond t f rest, v =>
    (visitWhenStmts whenDepth (whenTrace ++ [(true, cond)]) t v).bind fun v =>
      (visitWhenStmts whenDepth (whenTrace ++ [(false, cond)]) f v).bind fun v =>
        visitWhenStmts whenDepth whenTrace rest v

/-- The end of an outermost `when`. -/
def endWhen (v : Visit C L) : NodeTrees C L :=
  if v.touched then saveWhenTree isInvalid v.node else v.node

/-- `visitStmts`; the trace is not empty where the module is instantiated inside of a `when`. -/
def visitStmts (whenTrace : Trace C) : Body C L → NodeTrees C L → Option (NodeTrees C L)
  | .nil, n => some n
  | .connect source rvalue rest, n =>
    visitStmts whenTrace rest (visitConnect isInvalid n source rvalue)
  | .inst rest, n => visitStmts whenTrace rest n
  | .when cond t f rest, n =>
    (visitWhenStmts isInvalid whenTrace.length (whenTrace ++ [(true, cond)]) t ⟨n, false⟩).bind fun v =>
      (visitWhenStmts isInvalid whenTrace.length (whenTrace ++ [(false, cond)]) f v).bind fun v =>
        visitStmts whenTrace rest (endWhen isInvalid v)

/-- The trees of a node that is declared inside the given `when`s of its module, from the rest
    of that block: nothing outside of the block refers to the node.  The module is instantiated
    inside of `instTrace`, and `cleared` says whether an instance follows the block before the
    outermost `when` ends. -/
def lower (instTrace declared : Trace C) (block : Body C L) (cleared : Bool) :
    Option (List (WhenTree C L)) :=
  let trees :=
    if declared = [] then visitStmts isInvalid instTrace block {}
    else
      (visitWhenStmts isInvalid (instTrace ++ declared).length (instTrace ++ declared) block
        ⟨{}, false⟩).map fun v => endWhen isInvalid { v with touched := v.touched && !cleared }
  trees.map fun n => n.assignTree ++ n.valTree.toList

end Lowering

/-! ## Meaning -/

/-- What a tree assigns. -/
def WhenTree.eval (ρ : C → Bool) : WhenTree C L → Option L
  | .null => none
  | .leaf l => some l
  | .when c t f => if ρ c then t.eval ρ else f.eval ρ

/-- The trees are executed in order; a later assignment replaces an earlier one. -/
def run (ρ : C → Bool) (trees : List (WhenTree C L)) : Option L :=
  trees.foldl (fun assigned tree => (tree.eval ρ).or assigned) none

/-- The last connect whose conditions hold, after what was connected before. -/
def lastConnect (ρ : C → Bool) : Body C L → Option L → Option L
  | .nil, before => before
  | .connect _ rvalue rest, _ => lastConnect ρ rest (some rvalue)
  | .inst rest, before => lastConnect ρ rest before
  | .when cond t f rest, before =>
    lastConnect ρ rest (if ρ cond then lastConnect ρ t before else lastConnect ρ f before)

/-- All conditions of the trace hold. -/
def holds (ρ : C → Bool) (trace : Trace C) : Bool := trace.all fun p => ρ p.2 == p.1

/-- An invalid connect stands for any value. -/
def Implements (isInvalid : L → Bool) (connected assigned : Option L) : Prop :=
  match connected with
  | none => assigned = none
  | some l => isInvalid l = true ∨ assigned = some l

/-! ## One connect inside of `when`s -/

section Grow

variable [DecidableEq C] {ρ : C → Bool}

/-- Every `when` of the trace is in the tree. -/
def Follows (tree : WhenTree C L) (trace : Trace C) : Prop := tree.matched trace = trace.length

theorem follows_cons {tree : WhenTree C L} {branch : Bool} {c : C} {trace : Trace C} :
    Follows tree ((branch, c) :: trace) ↔
      ∃ t f, tree = .when c t f ∧ Follows (if branch then t else f) trace := by
  unfold Follows
  cases tree with
  | null => simp [WhenTree.matched]
  | leaf l => simp [WhenTree.matched]
  | when c' t f =>
    by_cases eq : c' = c
    · subst eq
      simp [WhenTree.matched]
    · simp [WhenTree.matched, eq]

omit [DecidableEq C] in
theorem holds_cons {branch : Bool} {c : C} {trace : Trace C} :
    holds ρ ((branch, c) :: trace) = (ρ c == branch && holds ρ trace) := rfl

omit [DecidableEq C] in
theorem holds_append (trace trace' : Trace C) :
    holds ρ (trace ++ trace') = (holds ρ trace && holds ρ trace') := by
  simp [holds]

/-- The tree follows the matched part of the trace. -/
theorem follows_take (tree : WhenTree C L) (trace : Trace C) :
    Follows tree (trace.take (tree.matched trace)) := by
  induction trace generalizing tree with
  | nil => cases tree <;> rfl
  | cons p trace ih =>
    obtain ⟨branch, c⟩ := p
    cases tree with
    | null => rfl
    | leaf l => rfl
    | when c' t f =>
      by_cases eq : c' = c
      · subst eq
        simp only [WhenTree.matched, if_true, List.take_succ_cons]
        exact follows_cons.mpr ⟨t, f, rfl, ih _⟩
      · simp only [WhenTree.matched, if_neg eq, List.take_zero]
        rfl

/-- What was put at the end of the trace counts exactly when the trace holds. -/
theorem eval_set {tree : WhenTree C L} {trace : Trace C} (h : Follows tree trace)
    (x : WhenTree C L) :
    (tree.set trace x).eval ρ = if holds ρ trace then x.eval ρ else tree.eval ρ := by
  induction trace generalizing tree with
  | nil => cases tree <;> rfl
  | cons p trace ih =>
    obtain ⟨branch, c⟩ := p
    obtain ⟨t, f, rfl, follows⟩ := follows_cons.mp h
    have inner := ih follows
    rw [holds_cons]
    cases branch with
    | true =>
      simp only [if_true] at inner
      simp only [WhenTree.set, if_true, WhenTree.eval, inner]
      cases ρ c <;> simp
    | false =>
      simp only [Bool.false_eq_true, if_false] at inner
      simp only [WhenTree.set, Bool.false_eq_true, if_false, WhenTree.eval, inner]
      cases ρ c <;> simp

theorem eval_follow {tree : WhenTree C L} {trace : Trace C} (h : Follows tree trace)
    (active : holds ρ trace = true) : (tree.follow trace).eval ρ = tree.eval ρ := by
  induction trace generalizing tree with
  | nil => cases tree <;> rfl
  | cons p trace ih =>
    obtain ⟨branch, c⟩ := p
    obtain ⟨t, f, rfl, follows⟩ := follows_cons.mp h
    rw [holds_cons, Bool.and_eq_true] at active
    have inner := ih follows active.2
    have branchEq : ρ c = branch := by simpa using active.1
    simp only [WhenTree.follow, inner, WhenTree.eval, branchEq]
    cases branch <;> rfl

/-- The empty branch is where the trace leads to. -/
theorem follows_newWhens (childRoot : WhenTree C L) (trace : Trace C) :
    Follows (newWhens childRoot trace) trace := by
  induction trace with
  | nil => rfl
  | cons p trace ih =>
    obtain ⟨branch, c⟩ := p
    cases branch with
    | true => exact follows_cons.mpr ⟨_, _, rfl, ih⟩
    | false => exact follows_cons.mpr ⟨_, _, rfl, ih⟩

omit [DecidableEq C] in
theorem eval_newWhens (childRoot : WhenTree C L) {trace : Trace C} (inactive : holds ρ trace = false) :
    (newWhens childRoot trace).eval ρ = childRoot.eval ρ := by
  induction trace with
  | nil => cases inactive
  | cons p trace ih =>
    obtain ⟨branch, c⟩ := p
    rw [holds_cons] at inactive
    cases branch with
    | true =>
      simp only [newWhens, WhenTree.eval]
      cases val : ρ c with
      | true => exact ih (by simpa [val] using inactive)
      | false => rfl
    | false =>
      simp only [newWhens, WhenTree.eval]
      cases val : ρ c with
      | true => rfl
      | false => exact ih (by simpa [val] using inactive)

theorem follows_set {tree x : WhenTree C L} {trace trace' : Trace C} (h : Follows tree trace)
    (h' : Follows x trace') : Follows (tree.set trace x) (trace ++ trace') := by
  induction trace generalizing tree with
  | nil => cases tree <;> exact h'
  | cons p trace ih =>
    obtain ⟨branch, c⟩ := p
    obtain ⟨t, f, rfl, follows⟩ := follows_cons.mp h
    cases branch with
    | true => exact follows_cons.mpr ⟨_, _, rfl, ih follows⟩
    | false => exact follows_cons.mpr ⟨_, _, rfl, ih follows⟩

/-- The tree with the new `when`s in place, and the right-hand side at their end. -/
theorem eval_grown {valTree childRoot : WhenTree C L} {trace : Trace C} (l : L) :
    let k := valTree.matched trace
    let grown := valTree.set (trace.take k) (newWhens childRoot (trace.drop k))
    (grown.set trace (.leaf l)).eval ρ = if holds ρ trace then some l
      else if holds ρ (trace.take k) then childRoot.eval ρ else valTree.eval ρ := by
  intro k grown
  have follows : Follows grown trace := by
    have both := follows_set (follows_take valTree trace) (follows_newWhens childRoot (trace.drop k))
    rwa [List.take_append_drop] at both
  rw [eval_set follows]
  by_cases active : holds ρ trace = true
  · rw [if_pos active, if_pos active]
    rfl
  · rw [if_neg active, if_neg active, eval_set (follows_take valTree trace)]
    by_cases above : holds ρ (trace.take k) = true
    · rw [if_pos above, if_pos above]
      apply eval_newWhens
      rw [← List.take_append_drop k trace, holds_append, above] at active
      simpa using active
    · rw [if_neg above, if_neg above]

omit [DecidableEq C] in
theorem run_concat (trees : List (WhenTree C L)) (tree : WhenTree C L) :
    run ρ (trees ++ [tree]) = (tree.eval ρ).or (run ρ trees) := by
  simp [run]

/-- All trees of the node. -/
def NodeTrees.trees (n : NodeTrees C L) : List (WhenTree C L) := n.assignTree ++ n.valTree.toList

omit [DecidableEq C] in
theorem run_trees {n : NodeTrees C L} {valTree : WhenTree C L} (h : n.valTree = some valTree) :
    run ρ n.trees = (valTree.eval ρ).or (run ρ n.assignTree) := by
  rw [NodeTrees.trees, h]
  exact run_concat _ _

/-- A connect counts exactly when the trace holds, and changes nothing otherwise. -/
theorem run_whenConnect (n : NodeTrees C L) (trace : Trace C) (l : L) :
    run ρ (whenConnect n trace l).trees = if holds ρ trace then some l else run ρ n.trees := by
  unfold whenConnect growWhenTrace
  cases val : n.valTree with
  | none =>
    have trees : n.trees = n.assignTree := by simp [NodeTrees.trees, val]
    rw [run_trees rfl, eval_set (follows_newWhens .null trace), trees]
    cases active : holds ρ trace with
    | true => rfl
    | false => simp [eval_newWhens _ active, WhenTree.eval]
  | some valTree =>
    have before := run_trees (ρ := ρ) val
    dsimp only
    split
    · rename_i full
      rw [run_trees (by rw [val]; rfl), eval_set full]
      cases active : holds ρ trace with
      | true => rfl
      | false => exact before.symm
    · split
      · rw [run_trees rfl, run_concat, eval_grown, before]
        cases holds ρ trace with
        | true => rfl
        | false =>
          cases holds ρ (trace.take (valTree.matched trace)) with
          | true => simp [WhenTree.eval]
          | false => cases valTree.eval ρ <;> rfl
      · rw [run_trees rfl, eval_grown, before]
        cases active : holds ρ trace with
        | true => rfl
        | false =>
          cases above : holds ρ (trace.take (valTree.matched trace)) with
          | true => simp [eval_follow (follows_take valTree trace) above]
          | false => simp

end Grow

/-! ## The end of a `when` -/

section Save

variable {ρ : C → Bool} {isInvalid : L → Bool}

theorem eval_fillChild (t old : WhenTree C L) :
    (if t.isNull then old else t.fillEmptyWhen old).eval ρ = (t.eval ρ).or (old.eval ρ) := by
  induction t with
  | null => rfl
  | leaf l => rfl
  | when c t f iht ihf =>
    show ((WhenTree.when c t f).fillEmptyWhen old).eval ρ = _
    simp only [WhenTree.fillEmptyWhen, WhenTree.eval, iht, ihf]
    cases ρ c <;> rfl

/-- The old tree is executed where the new one assigns nothing. -/
theorem eval_fillEmptyWhen {t : WhenTree C L} (rooted : t ≠ .null) (old : WhenTree C L) :
    (t.fillEmptyWhen old).eval ρ = (t.eval ρ).or (old.eval ρ) := by
  have child := eval_fillChild (ρ := ρ) t old
  cases t with
  | null => exact absurd rfl rooted
  | leaf l => exact child
  | when c t f => exact child

/-- A tree without empty branches always assigns. -/
theorem eval_of_full {t : WhenTree C L} (rooted : t ≠ .null) (full : t.countEmptyWhen = 0) :
    ∃ l, t.eval ρ = some l := by
  induction t with
  | null => exact absurd rfl rooted
  | leaf l => exact ⟨l, rfl⟩
  | when c t f iht ihf =>
    simp only [WhenTree.countEmptyWhen] at full
    have there : ∀ {x : WhenTree C L}, x.isNull.toNat = 0 → x ≠ .null := by
      rintro x h rfl
      cases h
    cases val : ρ c with
    | true =>
      simp only [WhenTree.eval, val, if_true]
      exact iht (there (by omega)) (by omega)
    | false =>
      simp only [WhenTree.eval, val, Bool.false_eq_true, if_false]
      exact ihf (there (by omega)) (by omega)

/-- No tree is just an empty branch. -/
def NodeTrees.Rooted (n : NodeTrees C L) : Prop := n.valTree ≠ some .null

theorem run_saveWhenTree {n : NodeTrees C L} (rooted : n.Rooted) :
    run ρ (saveWhenTree isInvalid n).trees = run ρ n.trees := by
  unfold saveWhenTree
  cases val : n.valTree with
  | none => rfl
  | some valTree =>
    have root : valTree ≠ .null := fun eq => rooted (eq ▸ val)
    rw [run_trees val]
    dsimp only
    cases last : n.assignTree.getLast? with
    | none =>
      have empty : n.assignTree = [] := List.getLast?_eq_none_iff.mp last
      dsimp only
      split
      · simp [NodeTrees.trees, run, empty]
      · exact run_trees val
    | some old =>
      have split_ : n.assignTree = n.assignTree.dropLast ++ [old] :=
        (List.dropLast_append_getLast? old last).symm
      dsimp only
      split
      · -- the one empty branch takes the old tree in
        show run ρ (_ ++ [_] ++ []) = _
        rw [List.append_nil, run_concat, eval_fillEmptyWhen root]
        conv_rhs => rw [split_, run_concat]
        cases valTree.eval ρ <;> rfl
      · split
        · show run ρ (_ ++ [_] ++ []) = _
          rw [List.append_nil, run_concat]
        · rename_i notOne full
          split
          · exact run_trees val
          · obtain ⟨l, assigned⟩ := eval_of_full (ρ := ρ) root (not_not.mp full)
            rw [run_trees rfl, assigned]
            rfl

theorem set_ne_null [DecidableEq C] (tree : WhenTree C L) (trace : Trace C) {x : WhenTree C L}
    (hx : x ≠ .null) : tree.set trace x ≠ .null := by
  cases tree with
  | null => exact hx
  | leaf l => exact hx
  | when c t f =>
    cases trace with
    | nil => exact hx
    | cons p trace =>
      obtain ⟨branch, c'⟩ := p
      cases branch <;> simp [WhenTree.set]

theorem rooted_whenConnect [DecidableEq C] (n : NodeTrees C L) (trace : Trace C) (l : L) :
    (whenConnect n trace l).Rooted := by
  intro null
  obtain ⟨tree, -, eq⟩ := Option.map_eq_some_iff.mp null
  exact set_ne_null tree trace (by simp) eq

theorem rooted_visitConnect {n : NodeTrees C L} (rooted : n.Rooted) (source : Source) (l : L) :
    (visitConnect isInvalid n source l).Rooted := by
  cases source with
  | fields => simp [visitConnect, NodeTrees.Rooted]
  | aggregate =>
    simp only [visitConnect]
    split
    · split
      · exact rooted
      · simp [NodeTrees.Rooted]
    · simp [NodeTrees.Rooted]
  | ground =>
    simp only [visitConnect]
    split
    · exact rooted
    · simp [NodeTrees.Rooted]

theorem rooted_saveWhenTree {n : NodeTrees C L} (rooted : n.Rooted) :
    (saveWhenTree isInvalid n).Rooted := by
  unfold saveWhenTree
  split
  · exact rooted
  · split <;> split <;> (try split) <;> (try split) <;>
      first | exact rooted | simp_all [NodeTrees.Rooted]

end Save

/-! ## Whole bodies -/

section Bodies

variable [DecidableEq C] {isInvalid : L → Bool}

/-- What was connected changes as `f` says, and the trees change with it. -/
def Lowers (isInvalid : L → Bool) (f : (C → Bool) → Option L → Option L) (n n' : NodeTrees C L) : Prop :=
  n.Rooted → n'.Rooted ∧ ∀ ρ connected,
    Implements isInvalid connected (run ρ n.trees) → Implements isInvalid (f ρ connected) (run ρ n'.trees)

omit [DecidableEq C] in
theorem Lowers.trans {f g : (C → Bool) → Option L → Option L} {n n' n'' : NodeTrees C L}
    (first : Lowers isInvalid f n n') (second : Lowers isInvalid g n' n'') :
    Lowers isInvalid (fun ρ connected => g ρ (f ρ connected)) n n'' := by
  intro rooted
  obtain ⟨rooted', implements⟩ := first rooted
  obtain ⟨rooted'', implements'⟩ := second rooted'
  exact ⟨rooted'', fun ρ connected h => implements' ρ _ (implements ρ connected h)⟩

omit [DecidableEq C] in
theorem Lowers.congr {f g : (C → Bool) → Option L → Option L} {n n' : NodeTrees C L}
    (h : Lowers isInvalid f n n') (eq : ∀ ρ connected, f ρ connected = g ρ connected) :
    Lowers isInvalid g n n' := by
  have fg : f = g := funext fun ρ => funext fun connected => eq ρ connected
  exact fg ▸ h

theorem lowers_whenConnect (n : NodeTrees C L) (trace : Trace C) (l : L) :
    Lowers isInvalid (fun ρ connected => if holds ρ trace then some l else connected) n
      (whenConnect n trace l) := by
  intro _
  refine ⟨rooted_whenConnect n trace l, fun ρ connected h => ?_⟩
  dsimp only
  rw [run_whenConnect]
  cases holds ρ trace with
  | true => exact Or.inr rfl
  | false => exact h

omit [DecidableEq C] in
theorem run_leaf (ρ : C → Bool) {n : NodeTrees C L} {l : L} (h : n.valTree = some (.leaf l)) :
    run ρ n.trees = some l := by
  rw [run_trees h]
  rfl

omit [DecidableEq C] in
theorem lowers_visitConnect (n : NodeTrees C L) (source : Source) (l : L) :
    Lowers isInvalid (fun _ _ => some l) n (visitConnect isInvalid n source l) := by
  intro rooted
  refine ⟨rooted_visitConnect rooted source l, fun ρ connected _ => ?_⟩
  cases invalid : isInvalid l with
  | true => exact Or.inl invalid
  | false =>
    refine Or.inr (run_leaf ρ ?_)
    cases source <;> simp [visitConnect, invalid]

omit [DecidableEq C] in
theorem lowers_endWhen (v : Visit C L) :
    Lowers isInvalid (fun _ connected => connected) v.node (endWhen isInvalid v) := by
  intro rooted
  unfold endWhen
  split
  · refine ⟨rooted_saveWhenTree rooted, fun ρ connected h => ?_⟩
    rwa [run_saveWhenTree rooted]
  · exact ⟨rooted, fun ρ connected h => h⟩

/-- Every connect inside of a `when` is one that `visitWhenStmts` allows. -/
def Body.Allowed (isInvalid : L → Bool) (inWhen : Bool) : Body C L → Prop
  | .nil => True
  | .connect source rvalue rest =>
    (inWhen = true → allowedInWhen isInvalid source rvalue = true) ∧ rest.Allowed isInvalid inWhen
  | .inst rest => rest.Allowed isInvalid inWhen
  | .when _ t f rest =>
    t.Allowed isInvalid true ∧ f.Allowed isInvalid true ∧ rest.Allowed isInvalid inWhen

/-- A block connects as it does alone, where the `when`s around it hold. -/
theorem visitWhenStmts_lowers {whenDepth : ℕ} {whenTrace : Trace C} (depth : whenDepth ≤ whenTrace.length)
    {body : Body C L} (allowed : body.Allowed isInvalid true) (v : Visit C L) :
    ∃ v', visitWhenStmts isInvalid whenDepth whenTrace body v = some v' ∧
      Lowers isInvalid (fun ρ connected =>
        if holds ρ (whenTrace.drop whenDepth) then lastConnect ρ body connected else connected)
        v.node v'.node := by
  induction body generalizing whenTrace v with
  | nil =>
    refine ⟨v, rfl, fun rooted => ⟨rooted, fun ρ connected h => ?_⟩⟩
    simpa [lastConnect] using h
  | connect source rvalue rest ih =>
    obtain ⟨ok, allowed⟩ := allowed
    obtain ⟨v', visited, lowers⟩ :=
      ih depth allowed ⟨whenConnect v.node (whenTrace.drop whenDepth) rvalue, true⟩
    refine ⟨v', ?_, ((lowers_whenConnect v.node _ rvalue).trans lowers).congr fun ρ connected => ?_⟩
    · rw [visitWhenStmts, if_pos (ok rfl)]
      exact visited
    · cases holds ρ (whenTrace.drop whenDepth) <;> rfl
  | inst rest ih =>
    obtain ⟨v', visited, lowers⟩ := ih depth allowed { v with touched := false }
    exact ⟨v', visited, lowers⟩
  | when cond t f rest iht ihf ih =>
    obtain ⟨allowedT, allowedF, allowed⟩ := allowed
    have deeper : ∀ branch, whenDepth ≤ (whenTrace ++ [(branch, cond)]).length := by
      intro branch
      rw [List.length_append]
      omega
    have inner : ∀ ρ branch, holds ρ ((whenTrace ++ [(branch, cond)]).drop whenDepth) =
        (holds ρ (whenTrace.drop whenDepth) && ρ cond == branch) := by
      intro ρ branch
      rw [List.drop_append_of_le_length depth, holds_append]
      simp [holds]
    obtain ⟨v₁, visited₁, lowers₁⟩ := iht (deeper true) allowedT v
    obtain ⟨v₂, visited₂, lowers₂⟩ := ihf (deeper false) allowedF v₁
    obtain ⟨v', visited, lowers⟩ := ih depth allowed v₂
    refine ⟨v', ?_, ((lowers₁.trans lowers₂).trans lowers).congr fun ρ connected => ?_⟩
    · rw [visitWhenStmts, visited₁, Option.bind_some, visited₂, Option.bind_some, visited]
    · simp only [inner]
      cases holds ρ (whenTrace.drop whenDepth) with
      | false => rfl
      | true => cases val : ρ cond <;> simp [lastConnect, val]

theorem visitStmts_lowers (whenTrace : Trace C) {body : Body C L} (allowed : body.Allowed isInvalid false)
    (n : NodeTrees C L) :
    ∃ n', visitStmts isInvalid whenTrace body n = some n' ∧
      Lowers isInvalid (fun ρ connected => lastConnect ρ body connected) n n' := by
  induction body generalizing n with
  | nil => exact ⟨n, rfl, fun rooted => ⟨rooted, fun ρ connected h => h⟩⟩
  | connect source rvalue rest ih =>
    obtain ⟨n', visited, lowers⟩ := ih allowed.2 (visitConnect isInvalid n source rvalue)
    exact ⟨n', visited, (lowers_visitConnect n source rvalue).trans lowers⟩
  | inst rest ih => exact ih allowed n
  | when cond t f rest _ _ ih =>
    obtain ⟨allowedT, allowedF, allowed⟩ := allowed
    have deeper : ∀ branch, whenTrace.length ≤ (whenTrace ++ [(branch, cond)]).length := by
      intro branch
      rw [List.length_append]
      omega
    obtain ⟨v₁, visited₁, lowers₁⟩ := visitWhenStmts_lowers (deeper true) allowedT ⟨n, false⟩
    obtain ⟨v₂, visited₂, lowers₂⟩ := visitWhenStmts_lowers (deeper false) allowedF v₁
    obtain ⟨n', visited, lowers⟩ := ih allowed (endWhen isInvalid v₂)
    refine ⟨n', ?_, (((lowers₁.trans lowers₂).trans (lowers_endWhen v₂)).trans lowers).congr
      fun ρ connected => ?_⟩
    · rw [visitStmts, visited₁, Option.bind_some, visited₂, Option.bind_some, visited]
    · cases val : ρ cond <;> simp [lastConnect, holds, val]

/-- Executed in order, the trees of a node give the last connect whose `when`s, from the
    node's declaration on, all hold, and assign nothing where there is none. -/
theorem lower_lastConnect (isInvalid : L → Bool) (instTrace declared : Trace C) {block : Body C L}
    (cleared : Bool) (allowed : block.Allowed isInvalid (!declared.isEmpty)) :
    ∃ trees, lower isInvalid instTrace declared block cleared = some trees ∧
      ∀ ρ, Implements isInvalid (lastConnect ρ block none) (run ρ trees) := by
  have rooted : NodeTrees.Rooted (C := C) (L := L) {} := nofun
  by_cases top : declared = []
  · subst top
    obtain ⟨n, visited, lowers⟩ := visitStmts_lowers instTrace allowed {}
    refine ⟨n.trees, by simp [lower, visited, NodeTrees.trees], fun ρ => ?_⟩
    exact (lowers rooted).2 ρ none rfl
  · have inWhen : (!declared.isEmpty) = true := by simpa using top
    rw [inWhen] at allowed
    obtain ⟨v, visited, lowers⟩ :=
      visitWhenStmts_lowers (le_refl (instTrace ++ declared).length) allowed ⟨{}, false⟩
    have saved := lowers.trans (lowers_endWhen { v with touched := v.touched && !cleared })
    refine ⟨(endWhen isInvalid { v with touched := v.touched && !cleared }).trees, ?_, fun ρ => ?_⟩
    · simp only [lower, if_neg top, visited, Option.map_some, NodeTrees.trees]
    have implements := (saved rooted).2 ρ none rfl
    simpa [holds] using implements

/-- The second inner `when` does not fit into the tree of the first, and takes it in at the end. -/
def spilling : Body ℕ ℕ :=
  .connect .ground 1 (.when 0
    (.when 1 (.connect .ground 2 .nil) .nil (.when 2 .nil (.connect .ground 3 .nil) .nil)) .nil .nil)

theorem lower_spilling :
    lower (fun _ => false) [] [] spilling false =
        some [.when 0 (.when 2 (.when 0 (.when 1 (.leaf 2) (.leaf 1)) (.leaf 1)) (.leaf 3)) (.leaf 1)] ∧
      ∃ trees, lower (fun _ => false) [] [] spilling false = some trees ∧
        ∀ ρ, Implements (fun _ => false) (lastConnect ρ spilling none) (run ρ trees) :=
  ⟨by decide, lower_lastConnect (fun _ => false) [] [] false (by simp [spilling, Body.Allowed, allowedInWhen])⟩

/-- The `when`s around the declaration do not guard the assignment. -/
theorem lower_unguarded :
    let block : Body ℕ ℕ := .connect .ground 1 .nil
    let off : ℕ → Bool := fun _ => false
    ∃ trees, lower (fun _ => false) [] [(true, 0)] block false = some trees ∧
      ¬ Implements (fun _ => false) (if holds off [(true, 0)] then lastConnect off block none else none)
        (run off trees) := by
  intro block off
  refine ⟨[.leaf 1], by decide, fun implements => ?_⟩
  cases implements

end Bodies

end Gsim.WhenLowering
