import Gsim.ResetChunks
import Gsim.StmtTreeMerge
/-
  Gsim/ResetStreams.lean
  ======================
  **The streams of reset supers** (`mergeResetAll`, `generateStmtTree`, `StmtNode::compute`).

  A reset super has one tree for each of its registers: `OP_RESET` with the condition and
  the value, and no third child.  So the statement tree has no `else` branch, and an `else`
  branch that is empty is not printed; what is printed is assignments under `if`s, and
  the marks around them.  These streams are cut into chunks without a difference.
-/

namespace Gsim.ResetStreams

open GuardedStatements Gsim.StmtTree Gsim.ResetChunks

/-! ## `StmtNode::compute` -/

/-- What an assignment prints: nothing if its value is invalid or it assigns itself, a line of its
    own, or an assignment that is marked. -/
inductive Printed (S : Type) where
  | nothing
  | finish (s : S)
  | assign (s : S)

section Compute

variable {S : Type} (print : Leaf → Printed S)

/-- The marks of a set of nodes; `assign_insts[0]` and `assign_insts[1]` hold the same nodes. -/
def marks (assign : List NodeId) : List (Inst ENode S) := assign.map fun _ => .mark

def computeLeaf (a : Leaf) (assign : List NodeId) : List (Inst ENode S) × List NodeId :=
  match print a with
  | .nothing => ([], assign)
  | .finish s => ([.str s], assign)
  | .assign s => ([.str s], assign.insert a.lval.node)

def computeSeq : List Leaf → List NodeId → List (Inst ENode S) × List NodeId
  | [], assign => ([], assign)
  | a :: as, assign =>
    let (insts, assign) := computeLeaf print a assign
    let (rest, assign) := computeSeq as assign
    (insts ++ rest, assign)

mutual

/-- Marks that both branches have are left to the sequence around (`extractCommonInstInfo`). -/
def computeStmt : Stmt Leaf ENode → List NodeId → List (Inst ENode S) × List NodeId
  | .node a, assign => computeLeaf print a assign
  | .seq as, assign => computeSeq print as assign
  | .when c t f, assign =>
    let (branchIf, assignIf) := computeBlock t []
    let (branchElse, assignElse) := computeBlock f []
    let onlyIf := marks (assignIf.filter fun n => !assignElse.contains n)
    let onlyElse := marks (assignElse.filter fun n => !assignIf.contains n)
    -- `Don't emit empty else block`
    let other := if f.isEmpty then [] else .els :: (onlyElse ++ branchElse ++ onlyElse)
    (.cond c :: (onlyIf ++ branchIf ++ onlyIf) ++ other ++ [.dedent],
      assign ∪ assignIf.filter fun n => assignElse.contains n)

def computeBlock : Block → List NodeId → List (Inst ENode S) × List NodeId
  | [], assign => ([], assign)
  | x :: stmts, assign =>
    let (insts, assign) := computeStmt x assign
    let (rest, assign) := computeBlock stmts assign
    (insts ++ rest, assign)

end

/-- The outermost sequence prints its marks in front and behind. -/
def compute (root : Block) : List (Inst ENode S) :=
  let (insts, assign) := computeBlock print root []
  marks assign ++ insts ++ marks assign

end Compute

/-! ## Reset supers -/

/-- A `NODE_REG_RESET` of `mergeResetAll`, with the two children of the `OP_RESET` that is its tree. -/
structure ResetReg where
  lval : Lvalue
  resetCond : ENode
  resetVal : Rvalue

def ResetReg.tree (n : ResetReg) : Guarded := .when n.resetCond (.leaf ⟨n.lval, n.resetVal⟩) .absent

/-- `generateStmtTree` for a super of `allReset`. -/
def resetStmtTree (member : List ResetReg) : Block :=
  member.foldl (fun root n => (mergeExpTree [] (root, []) n.tree).1) []

/-! ## Streams are bracketed -/

section Bracketed

variable {S : Type}

/-- What is opened in the part of a stream is closed there. -/
def Closed (insts : List (Inst ENode S)) : Prop :=
  ∀ branches rest, wellBracketed branches (insts ++ rest) = wellBracketed branches rest

theorem Closed.nil : Closed ([] : List (Inst ENode S)) := fun _ _ => rfl

theorem Closed.append {xs ys : List (Inst ENode S)} (hx : Closed xs) (hy : Closed ys) :
    Closed (xs ++ ys) := by
  intro branches rest
  rw [List.append_assoc, hx, hy]

theorem wellBracketed_str (branches : List Bool) (s : S) (rest : List (Inst ENode S)) :
    wellBracketed branches (.str s :: rest) = wellBracketed branches rest := by
  cases branches with
  | nil => rfl
  | cons b branches => cases b <;> rfl

theorem wellBracketed_mark (branches : List Bool) (rest : List (Inst ENode S)) :
    wellBracketed branches (.mark :: rest) = wellBracketed branches rest := by
  cases branches with
  | nil => rfl
  | cons b branches => cases b <;> rfl

theorem closed_str (s : S) : Closed [Inst.str (C := ENode) s] := fun branches rest =>
  wellBracketed_str branches s rest

theorem closed_marks (assign : List NodeId) : Closed (marks assign : List (Inst ENode S)) := by
  induction assign with
  | nil => exact Closed.nil
  | cons n assign ih =>
    intro branches rest
    show wellBracketed branches (.mark :: (marks assign ++ rest)) = _
    rw [wellBracketed_mark]
    exact ih branches rest

variable (print : Leaf → Printed S)

theorem closed_computeLeaf (a : Leaf) (assign : List NodeId) : Closed (computeLeaf print a assign).1 := by
  rw [computeLeaf]
  cases print a with
  | nothing => exact Closed.nil
  | finish s => exact closed_str s
  | assign s => exact closed_str s

theorem closed_computeSeq (as : List Leaf) (assign : List NodeId) :
    Closed (computeSeq print as assign).1 := by
  induction as generalizing assign with
  | nil => exact Closed.nil
  | cons a as ih => exact (closed_computeLeaf print a assign).append (ih _)

/-- A when closes what it opens, with an `else` branch or without one. -/
theorem closed_when (c : ENode) {taken other : List (Inst ENode S)} (hTaken : Closed taken)
    (hOther : other = [] ∨ ∃ inner, other = .els :: inner ∧ Closed inner) :
    Closed (.cond c :: taken ++ other ++ [.dedent]) := by
  intro branches rest
  have front : wellBracketed branches (.cond c :: taken ++ other ++ [.dedent] ++ rest) =
      wellBracketed (false :: branches) (other ++ .dedent :: rest) := by
    rw [List.append_assoc, List.append_assoc, List.cons_append, wellBracketed, hTaken]
    rfl
  rw [front]
  rcases hOther with rfl | ⟨inner, rfl, hInner⟩
  · rfl
  · rw [List.cons_append, wellBracketed, hInner]
    rfl

theorem closed_computeBlock (root : Block) : ∀ assign, Closed (computeBlock print root assign).1 := by
  induction root using block_induction with
  | nil => exact fun _ => Closed.nil
  | node a stmts ih => exact fun assign => (closed_computeLeaf print a assign).append (ih _)
  | seq as stmts ih => exact fun assign => (closed_computeSeq print as assign).append (ih _)
  | when c t f stmts ihIf ihElse ih =>
    intro assign
    refine Closed.append (closed_when c ?_ ?_) (ih _)
    · exact ((closed_marks _).append (ihIf [])).append (closed_marks _)
    · cases f with
      | nil => exact .inl rfl
      | cons x f => exact .inr ⟨_, rfl, ((closed_marks _).append (ihElse [])).append (closed_marks _)⟩

theorem wellBracketed_compute (root : Block) : wellBracketed [] (compute print root) = true := by
  have closed : Closed (compute print root) :=
    ((closed_marks _).append (closed_computeBlock print root [])).append (closed_marks _)
  have whole := closed [] []
  rw [List.append_nil] at whole
  rw [whole]
  rfl

end Bracketed

/-! ## Trees without `else` -/

mutual

def StmtNoElse : Stmt Leaf ENode → Prop
  | .node _ => True
  | .seq _ => True
  | .when _ t f => NoElse t ∧ f = []

/-- No when of the block has a second branch. -/
def NoElse : Block → Prop
  | [] => True
  | x :: stmts => StmtNoElse x ∧ NoElse stmts

end

def TreeNoElse : Guarded → Prop
  | .absent => True
  | .leaf _ => True
  | .when _ t f => TreeNoElse t ∧ f = .absent

theorem noElse_iff (root : Block) : NoElse root ↔ ∀ x ∈ root, StmtNoElse x := by
  induction root with
  | nil => exact ⟨fun _ _ hx => absurd hx List.not_mem_nil, fun _ => trivial⟩
  | cons x root ih =>
    rw [NoElse, ih]
    exact List.forall_mem_cons.symm

theorem NoElse.append {stmts stmts' : Block} (h : NoElse stmts) (h' : NoElse stmts') :
    NoElse (stmts ++ stmts') := by
  rw [noElse_iff] at h h' ⊢
  intro x hx
  rcases List.mem_append.mp hx with hx | hx
  · exact h x hx
  · exact h' x hx

theorem NoElse.subset {stmts stmts' : Block} (h : NoElse stmts) (sub : stmts' ⊆ stmts) : NoElse stmts' := by
  rw [noElse_iff] at h ⊢
  exact fun x hx => h x (sub hx)

theorem TreeNoElse.toBlock {tree : Guarded} (h : TreeNoElse tree) : NoElse tree.toBlock := by
  induction tree with
  | absent => trivial
  | leaf a => exact ⟨trivial, trivial⟩
  | «when» c t f iht ihf =>
    obtain ⟨taken, rfl⟩ := h
    exact ⟨⟨iht taken, rfl⟩, trivial⟩

theorem eraseAssigned_subset (n : NodeId) (stmts : Block) : eraseAssigned n stmts ⊆ stmts := by
  fun_induction eraseAssigned n stmts with
  | case1 => exact List.Subset.refl _
  | case2 => exact List.nil_subset _
  | case3 => exact List.Subset.refl _
  | case4 a x stmts here ih => exact List.Subset.trans (List.cons_subset_cons x ih) (List.subset_cons_self _ _)
  | case5 a x stmts other ih => exact List.cons_subset_cons _ ih
  | case6 x stmts _ _ ih => exact List.cons_subset_cons _ ih

theorem noElse_place (a : Leaf) {stmts : Block} (h : NoElse stmts) : NoElse (place a stmts).1 := by
  fun_induction place a stmts with
  | case1 => exact ⟨trivial, trivial⟩
  | case2 b stmts => exact ⟨trivial, h.2⟩
  | case3 as stmts => exact ⟨trivial, h.2⟩
  | case4 c t f stmts ih => exact ⟨h.1, ih h.2⟩

theorem noElse_insertLeaf (a : Leaf) (limit : List ℕ) {stmts : Block} (h : NoElse stmts) :
    NoElse (insertLeaf stmts limit a).1 := by
  have deduped : NoElse (dedupe a stmts) := by
    rw [dedupe]
    split
    · exact h.subset (eraseAssigned_subset _ _)
    · exact h
  exact (deduped.subset (List.take_subset _ _)).append
    (noElse_place a (deduped.subset (List.drop_subset _ _)))

theorem findWhen_mem {c c' : ENode} {start k i : ℕ} {stmts T F : Block}
    (found : findWhen c start k stmts = some (i, c', T, F)) : .when c' T F ∈ stmts := by
  fun_induction findWhen c start k stmts with
  | case1 => cases found
  | case2 k d t f stmts here =>
    cases found
    exact List.mem_cons_self
  | case3 k d t f stmts other ih => exact List.mem_cons_of_mem _ (ih found)
  | case4 k x stmts _ ih => exact List.mem_cons_of_mem _ (ih found)

theorem NoElse.set {stmts : Block} (h : NoElse stmts) (i : ℕ) {x : Stmt Leaf ENode} (hx : StmtNoElse x) :
    NoElse (stmts.set i x) := by
  rw [noElse_iff] at h ⊢
  intro y hy
  rcases List.mem_or_eq_of_mem_set hy with hy | rfl
  · exact h y hy
  · exact hx

theorem noElse_merge {tree : Guarded} (hTree : TreeNoElse tree) {stmts : Block} (h : NoElse stmts)
    (limit : List ℕ) (depth : ℕ) (nodePath : List ℕ) :
    NoElse (merge tree stmts limit depth nodePath).1 := by
  induction tree generalizing stmts limit depth nodePath with
  | absent => exact h
  | leaf a => exact noElse_insertLeaf a limit h
  | «when» c t f iht ihf =>
    obtain ⟨taken, rfl⟩ := hTree
    rw [merge]
    split
    · rename_i i c' T F found
      have inside : StmtNoElse (.when c' T F) := (noElse_iff _).mp h _ (findWhen_mem found)
      obtain ⟨hT, rfl⟩ := inside
      exact h.set i ⟨iht taken hT _ _ _, rfl⟩
    · exact h.append ⟨⟨taken.toBlock, rfl⟩, trivial⟩

theorem noElse_resetStmtTree (member : List ResetReg) : NoElse (resetStmtTree member) := by
  have step : ∀ root : Block, NoElse root → ∀ n : ResetReg, NoElse (mergeExpTree [] (root, []) n.tree).1 := by
    intro root h n
    have tree : TreeNoElse n.tree := ⟨trivial, rfl⟩
    exact noElse_merge tree h _ _ _
  exact List.foldlRecOn member _ trivial fun root h n _ => step root h n

/-! ## Streams without `ELSE` -/

section Streams

variable {S : Type} (print : Leaf → Printed S)

theorem els_notMem_marks (assign : List NodeId) : .els ∉ (marks assign : List (Inst ENode S)) := by
  intro mem
  obtain ⟨n, -, eq⟩ := List.mem_map.mp mem
  cases eq

theorem els_notMem_computeLeaf (a : Leaf) (assign : List NodeId) :
    .els ∉ (computeLeaf print a assign).1 := by
  rw [computeLeaf]
  cases print a with
  | nothing => exact List.not_mem_nil
  | finish s => simp
  | assign s => simp

theorem els_notMem_computeSeq (as : List Leaf) (assign : List NodeId) :
    .els ∉ (computeSeq print as assign).1 := by
  induction as generalizing assign with
  | nil => exact List.not_mem_nil
  | cons a as ih => exact List.not_mem_append (els_notMem_computeLeaf print a assign) (ih _)

theorem els_notMem_computeBlock {root : Block} (h : NoElse root) :
    ∀ assign, .els ∉ (computeBlock print root assign).1 := by
  induction root using block_induction with
  | nil => exact fun _ => List.not_mem_nil
  | node a stmts ih =>
    exact fun assign => List.not_mem_append (els_notMem_computeLeaf print a assign) (ih h.2 _)
  | seq as stmts ih =>
    exact fun assign => List.not_mem_append (els_notMem_computeSeq print as assign) (ih h.2 _)
  | when c t f stmts ihIf ihElse ih =>
    intro assign
    obtain ⟨⟨hIf, rfl⟩, later⟩ := h
    apply List.not_mem_append _ (ih later _)
    have inside : .els ∉ (computeBlock print t []).1 := ihIf hIf []
    simp [els_notMem_marks, inside]

theorem els_notMem_compute {root : Block} (h : NoElse root) : .els ∉ compute print root :=
  List.not_mem_append (List.not_mem_append (els_notMem_marks _) (els_notMem_computeBlock print h []))
    (els_notMem_marks _)

end Streams

/-- Without `ELSE` no `else` branch is ever open. -/
theorem outsideElse_of_notMem {C S : Type} (chunkSize : ℕ) {insts : List (Inst C S)} (plain : .els ∉ insts)
    {branches : List Bool} (none : ∀ b ∈ branches, b = false) (emittedInChunk : ℕ) :
    outsideElse chunkSize emittedInChunk branches insts = true := by
  induction insts generalizing branches emittedInChunk with
  | nil => rfl
  | cons inst insts ih =>
    have later : .els ∉ insts := fun mem => plain (List.mem_cons_of_mem _ mem)
    have none' : ∀ b ∈ inst.elses branches, b = false := by
      cases inst with
      | cond c => exact List.forall_mem_cons.mpr ⟨rfl, none⟩
      | els => exact absurd List.mem_cons_self plain
      | dedent => exact fun b hb => none b (List.mem_of_mem_tail hb)
      | str s => exact none
      | mark => exact none
    rw [outsideElse]
    split
    · rw [Bool.and_eq_true, Bool.not_eq_true', List.any_eq_false]
      exact ⟨fun b hb => by simp [none b hb], ih later none' _⟩
    · exact ih later none' _

/-- Cutting into chunks changes neither what a stream without `ELSE` executes nor its braces, and
    the stream of a reset super is such a one. -/
theorem resetChunks_runsAlike {C S : Type} (emitActivation : Bool) (chunkSize : ℕ) (reset : C) :
    (∀ insts : List (Inst C S), wellBracketed [] insts = true → .els ∉ insts →
      RunsAlike emitActivation chunkSize reset insts) ∧
    ∀ (print : Leaf → Printed S) (member : List ResetReg),
      wellBracketed [] (compute print (resetStmtTree member)) = true ∧
        .els ∉ compute print (resetStmtTree member) := by
  refine ⟨?_, ?_⟩
  · intro insts bracketed plain
    exact runsAlike_of_outsideElse bracketed
      (outsideElse_of_notMem chunkSize plain (fun _ hb => absurd hb List.not_mem_nil) 0)
  · exact fun print member =>
      ⟨wellBracketed_compute print _, els_notMem_compute print (noElse_resetStmtTree member)⟩

/-- Two registers under one reset: the second statement and the marks behind the third start chunks
    of their own. -/
theorem resetChunks_runsAlike_twoRegisters :
    RunsAlike false 2 "reset" [Inst.mark, .cond "reset", .mark, .str "a = 0;", .str "b = 0;",
      .str "a$NEXT = 0;", .mark, .dedent, .mark] :=
  (resetChunks_runsAlike false 2 "reset").1
    [.mark, .cond "reset", .mark, .str "a = 0;", .str "b = 0;", .str "a$NEXT = 0;", .mark, .dedent, .mark]
    (by decide) (by decide)

end Gsim.ResetStreams
