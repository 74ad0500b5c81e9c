/-
  Gsim/ChangeBrackets.lean
  ========================
  **Change detection around the assignments of a super node**
  (`extractCommonInstInfo` and `StmtNode::compute` in `instsGenerator.cpp`,
  `InstInfo` in `Node.h`).

  An assignment to a node that others wait for stands between two markers:
  `ASSIGN_BEG` saves the value, `ASSIGN_END` compares it.  A statement does not write
  its markers itself.  It adds them to the collector of its block, and a `when` hands
  on to the block around it what both of its branches have collected, keeps in each
  branch what is left and not collected outside already, and writes that at the
  beginning and at the end of the branch.

  A node assigned under two conditions that have no block with both in common gets a
  pair for each.  No single pair encloses its assignments then; what holds of every
  path is that each assignment lies within a pair and that a node with a new value is
  noticed by one of its pairs (`compute_brackets`).
-/
import Gsim.ConstantNode
import Gsim.SortedContainers

namespace Gsim.ChangeBrackets

open Gsim.ConstantNode SortedContainers

/-! ## Statements and instructions -/

/-- The instructions of a super node.  `node` of a plain instruction is the node whose assignment
it is; the code does not keep it, the statements below need it. -/
inductive InstInfo (ν : Type) where
  | SUPER_INFO_IF (inst : String)
  | SUPER_INFO_ELSE
  | SUPER_INFO_DEDENT
  | SUPER_INFO_STR (inst : String) (node : Option ν)
  | SUPER_INFO_ASSIGN_BEG (node : ν)
  | SUPER_INFO_ASSIGN_END (node : ν)
deriving DecidableEq, Repr

/-- An `OP_STMT_NODE` with what computing its two sides gave. -/
structure NodeStmt (ν : Type) where
  belong : Option ν
  /-- `node->type == NODE_SPECIAL` -/
  special : Bool
  /-- `isSubArray(linfo->valStr, node)`, and the copy that is then emitted -/
  subArray : Option String
  lvalStr : String
  status : ValStatus
  opNum : Int
  valStr : String
deriving DecidableEq, Repr

/-- A statement; the branches of a `when` are sequences. -/
inductive StmtNode (ν : Type) where
  | OP_STMT_SEQ (child : List (StmtNode ν))
  | OP_STMT_WHEN (cond : String) (ifChild elseChild : List (StmtNode ν))
  | OP_STMT_NODE (stmt : NodeStmt ν)

variable {ν : Type}

/-! ## Collecting the markers -/

section Collecting

variable [LinearOrder ν]

/-- `set_intersection` into the outer set, then both branches less the outer set. -/
def extractCommonInstInfo (s1 s2 common : List ν) : List ν × List ν × List ν :=
  let common := sortUnique (common ++ s1.filter (· ∈ s2))
  (s1.filter (· ∉ common), s2.filter (· ∉ common), common)

/-- `assign_insts`: the nodes of the `ASSIGN_BEG`s and of the `ASSIGN_END`s, by name. -/
structure Collector (ν : Type) where
  begs : List ν
  ends : List ν
deriving DecidableEq, Repr

def Collector.empty : Collector ν := ⟨[], []⟩

/-- `emplace` of both markers, if the statement belongs to a node. -/
def Collector.mark (assign : Collector ν) : Option ν → Collector ν
  | none => assign
  | some n => ⟨sortUnique (n :: assign.begs), sortUnique (n :: assign.ends)⟩

def begs (s : List ν) : List (InstInfo ν) := s.map .SUPER_INFO_ASSIGN_BEG

def ends (s : List ν) : List (InstInfo ν) := s.map .SUPER_INFO_ASSIGN_END

def computeNode (stmt : NodeStmt ν) (assign : Collector ν) : List (InstInfo ν) × Collector ν :=
  if stmt.status = .VAL_FINISH ∨ stmt.special then
    ([.SUPER_INFO_STR stmt.valStr none], assign)
  else if stmt.status = .VAL_INVALID then ([], assign)
  else if 0 ≤ stmt.opNum then
    if stmt.valStr ≠ stmt.lvalStr then
      let inst := stmt.subArray.getD (stmt.lvalStr ++ " = " ++ stmt.valStr ++ ";")
      ([.SUPER_INFO_STR inst stmt.belong], assign.mark stmt.belong)
    else ([], assign)
  else ([.SUPER_INFO_STR stmt.valStr stmt.belong], assign.mark stmt.belong)

mutual
/-- `StmtNode::compute` with a collector: what it appends to `insts`, and the collector after. -/
def StmtNode.compute : StmtNode ν → Collector ν → List (InstInfo ν) × Collector ν
  | .OP_STMT_SEQ child, assign => computeSeq child assign
  | .OP_STMT_WHEN cond ifChild elseChild, assign =>
    let (ifInsts, ifAssign) := computeSeq ifChild .empty
    let (elseInsts, elseAssign) := computeSeq elseChild .empty
    let (ifBegs, elseBegs, commonBegs) :=
      extractCommonInstInfo ifAssign.begs elseAssign.begs assign.begs
    let (ifEnds, elseEnds, commonEnds) :=
      extractCommonInstInfo ifAssign.ends elseAssign.ends assign.ends
    (.SUPER_INFO_IF ("if " ++ cond ++ " \x7b") :: (begs ifBegs ++ ifInsts ++ ends ifEnds) ++
        (if elseChild.isEmpty then []
          else .SUPER_INFO_ELSE :: (begs elseBegs ++ elseInsts ++ ends elseEnds)) ++
        [.SUPER_INFO_DEDENT],
      ⟨commonBegs, commonEnds⟩)
  | .OP_STMT_NODE stmt, assign => computeNode stmt assign

def computeSeq : List (StmtNode ν) → Collector ν → List (InstInfo ν) × Collector ν
  | [], assign => ([], assign)
  | stmt :: child, assign =>
    let (insts, assign) := stmt.compute assign
    let (rest, assign) := computeSeq child assign
    (insts ++ rest, assign)
end

/-- The sequence at the root, which has no collector to add to: the markers go to the place
`marker` and to the end. -/
def computeRoot (child : List (StmtNode ν)) (insts : List (InstInfo ν)) : List (InstInfo ν) :=
  let marker := if 0 < insts.length then insts.length - 1 else 0
  let (new, assign) := computeSeq child .empty
  let insts := insts ++ new
  insts.take marker ++ begs assign.begs ++ insts.drop marker ++ ends assign.ends

/-- `StmtTree::compute` for a super node, whose `insts` are empty before. -/
def StmtTree.compute (root : List (StmtNode ν)) : List (InstInfo ν) := computeRoot root []

end Collecting

/-! ## Paths -/

/-- A block by the branches around it, the innermost first: the place of the `if`, and whether it
is the branch of the condition. -/
abbrev Block := List (ℕ × Bool)

/-- An instruction that was executed, and the block it stands in. -/
structure Event (ν : Type) where
  block : Block
  inst : InstInfo ν
deriving DecidableEq, Repr

/-- An open branch, and whether the path takes it. -/
abbrev Open := (ℕ × Bool) × Bool

/-- The instructions that are executed on the path where the `if` at place `p` goes `path p`. -/
def trace (path : ℕ → Bool) : ℕ → List Open → List (InstInfo ν) → List (Event ν)
  | _, _, [] => []
  | p, stack, .SUPER_INFO_IF _ :: rest => trace path (p + 1) (((p, true), path p) :: stack) rest
  | p, stack, .SUPER_INFO_ELSE :: rest =>
    match stack with
    | [] => trace path (p + 1) [] rest
    | ((q, branch), taken) :: stack => trace path (p + 1) (((q, !branch), !taken) :: stack) rest
  | p, stack, .SUPER_INFO_DEDENT :: rest => trace path (p + 1) stack.tail rest
  | p, stack, inst :: rest =>
    if stack.all Prod.snd then ⟨stack.map Prod.fst, inst⟩ :: trace path (p + 1) stack rest
    else trace path (p + 1) stack rest

/-- The node that an instruction assigns. -/
def InstInfo.assigns : InstInfo ν → Option ν
  | .SUPER_INFO_STR _ node => node
  | _ => none

/-! ## Balanced instruction lists -/

/-- Every `if` of the list is closed in it, so it leaves the open branches as they were. -/
structure Balanced (insts : List (InstInfo ν)) : Prop where
  append : ∀ path p stack rest, trace path p stack (insts ++ rest) =
    trace path p stack insts ++ trace path (p + insts.length) stack rest
  dead : ∀ path p (stack : List Open), stack.all Prod.snd = false → trace path p stack insts = []

theorem Balanced.nil : Balanced ([] : List (InstInfo ν)) where
  append _ _ _ _ := rfl
  dead _ _ _ _ := rfl

theorem Balanced.join {a b : List (InstInfo ν)} (ha : Balanced a) (hb : Balanced b) :
    Balanced (a ++ b) where
  append path p stack rest := by
    rw [List.append_assoc, ha.append, hb.append, ha.append _ _ _ b, List.append_assoc,
      List.length_append, Nat.add_assoc]
  dead path p stack h := by
    rw [ha.append, ha.dead path p stack h, hb.dead path _ stack h]
    rfl

/-- An instruction that opens and closes nothing. -/
def InstInfo.flat : InstInfo ν → Bool
  | .SUPER_INFO_IF _ => false
  | .SUPER_INFO_ELSE => false
  | .SUPER_INFO_DEDENT => false
  | _ => true

theorem trace_flat {inst : InstInfo ν} (h : inst.flat = true) (path : ℕ → Bool) (p : ℕ)
    (stack : List Open) (rest : List (InstInfo ν)) :
    trace path p stack (inst :: rest) =
      if stack.all Prod.snd then ⟨stack.map Prod.fst, inst⟩ :: trace path (p + 1) stack rest
      else trace path (p + 1) stack rest := by
  cases inst <;> first | rfl | cases h

theorem Balanced.flat {inst : InstInfo ν} (h : inst.flat = true) : Balanced [inst] where
  append path p stack rest := by
    rw [List.singleton_append, trace_flat h, trace_flat h]
    split <;> rfl
  dead path p stack hs := by
    rw [trace_flat h, hs]
    rfl

theorem Balanced.flats {insts : List (InstInfo ν)} (h : ∀ inst ∈ insts, inst.flat = true) :
    Balanced insts := by
  induction insts with
  | nil => exact .nil
  | cons inst rest ih =>
    have hfirst : Balanced [inst] := .flat (h inst List.mem_cons_self)
    exact hfirst.join (ih fun i hi => h i (List.mem_cons_of_mem _ hi))

theorem trace_flats {insts : List (InstInfo ν)} (h : ∀ inst ∈ insts, inst.flat = true)
    (path : ℕ → Bool) (p : ℕ) {stack : List Open} (taken : stack.all Prod.snd = true) :
    trace path p stack insts = insts.map fun inst => ⟨stack.map Prod.fst, inst⟩ := by
  induction insts generalizing p with
  | nil => rfl
  | cons inst rest ih =>
    rw [trace_flat (h inst List.mem_cons_self), if_pos taken,
      ih (fun i hi => h i (List.mem_cons_of_mem _ hi))]
    rfl

theorem flat_begs (s : List ν) : ∀ inst ∈ begs s, inst.flat = true := by
  intro inst h
  obtain ⟨n, -, rfl⟩ := List.mem_map.mp h
  rfl

theorem flat_ends (s : List ν) : ∀ inst ∈ ends s, inst.flat = true := by
  intro inst h
  obtain ⟨n, -, rfl⟩ := List.mem_map.mp h
  rfl

/-- A `when` with its two branches; without children the second is omitted. -/
def whenInsts (cond : String) (a b : List (InstInfo ν)) (omitted : Bool) : List (InstInfo ν) :=
  .SUPER_INFO_IF cond :: a ++ (if omitted then [] else .SUPER_INFO_ELSE :: b) ++
    [.SUPER_INFO_DEDENT]

/-- A path goes through one of the branches. -/
theorem trace_when {a b : List (InstInfo ν)} (ha : Balanced a) (hb : Balanced b) (cond : String)
    (omitted : Bool) (path : ℕ → Bool) (p : ℕ) (stack : List Open) (rest : List (InstInfo ν)) :
    trace path p stack (whenInsts cond a b omitted ++ rest) =
      trace path (p + 1) (((p, true), path p) :: stack) a ++
      (if omitted then [] else
        trace path (p + 1 + a.length + 1) (((p, false), !path p) :: stack) b) ++
      trace path (p + (whenInsts cond a b omitted).length) stack rest := by
  simp only [whenInsts, List.cons_append, List.append_assoc, trace]
  rw [ha.append]
  cases omitted with
  | true =>
    simp only [if_true, List.nil_append, List.length_cons, List.length_append, trace,
      List.tail_cons]
    congr 2
    simp
    omega
  | false =>
    simp only [Bool.false_eq_true, if_false, List.cons_append, List.nil_append, trace,
      Bool.not_true, List.length_cons, List.length_append]
    rw [hb.append]
    simp only [trace, List.tail_cons]
    congr 3
    simp
    omega

theorem trace_whenInsts {a b : List (InstInfo ν)} (ha : Balanced a) (hb : Balanced b)
    (cond : String) (omitted : Bool) (path : ℕ → Bool) (p : ℕ) (stack : List Open) :
    trace path p stack (whenInsts cond a b omitted) =
      trace path (p + 1) (((p, true), path p) :: stack) a ++
      (if omitted then [] else
        trace path (p + 1 + a.length + 1) (((p, false), !path p) :: stack) b) := by
  have h := trace_when ha hb cond omitted path p stack []
  rwa [List.append_nil, trace, List.append_nil] at h

theorem Balanced.whenInsts {a b : List (InstInfo ν)} (ha : Balanced a) (hb : Balanced b)
    (cond : String) (omitted : Bool) : Balanced (whenInsts cond a b omitted) where
  append path p stack rest := by
    rw [trace_when ha hb, trace_whenInsts ha hb]
  dead path p stack h := by
    rw [trace_whenInsts ha hb, ha.dead _ _ _ (by simp [h]), hb.dead _ _ _ (by simp [h])]
    simp

/-! ## Brackets on a path -/

section Events

variable [LinearOrder ν] {V : Type}

/-- The values of the nodes after some events; what an assignment gives is left open. -/
def exec (new : String → (ν → V) → V) (ev : List (Event ν)) (s : ν → V) : ν → V :=
  ev.foldl (fun s e =>
    match e.inst with
    | .SUPER_INFO_STR inst (some n) => Function.update s n (new inst s)
    | _ => s) s

variable (new : String → (ν → V) → V)

def beg (b : Block) (n : ν) : Event ν := ⟨b, .SUPER_INFO_ASSIGN_BEG n⟩

def fin (b : Block) (n : ν) : Event ν := ⟨b, .SUPER_INFO_ASSIGN_END n⟩

/-- Some pair of the node saves one value and compares it with another. -/
def Detected (ev : List (Event ν)) (s : ν → V) (n : ν) : Prop :=
  ∃ l₁ b l₂ l₃, ev = l₁ ++ beg b n :: (l₂ ++ fin b n :: l₃) ∧ beg b n ∉ l₂ ∧
    exec new l₁ s n ≠ exec new (l₁ ++ l₂) s n

/-- The events of a piece of a block, whose nodes in `out` are bracketed further out. -/
structure Wrapped (base : Block) (out : List ν) (ev : List (Event ν)) : Prop where
  inside : ∀ e ∈ ev, base <:+ e.block
  covered : ∀ l₁ e l₂ n, ev = l₁ ++ e :: l₂ → e.inst.assigns = some n →
    n ∈ out ∨ ∃ b, b <:+ e.block ∧ beg b n ∈ l₁ ∧ fin b n ∈ l₂
  paired : ∀ l₁ b n l₂, ev = l₁ ++ beg b n :: l₂ →
    ∃ l₃ l₄, l₂ = l₃ ++ fin b n :: l₄ ∧ beg b n ∉ l₃
  detects : ∀ s n, exec new ev s n ≠ s n → n ∈ out ∨ Detected new ev s n

/-- Between the markers of its block: they have not been written yet. -/
structure Tidy (base : Block) (out : List ν) (ev : List (Event ν)) : Prop
    extends Wrapped new base out ev where
  own : ∀ n, beg base n ∉ ev

variable {new} {base : Block} {out out' : List ν} {ev ev' : List (Event ν)}

@[simp] theorem exec_append (s : ν → V) :
    exec new (ev ++ ev') s = exec new ev' (exec new ev s) := List.foldl_append

@[simp] theorem exec_cons_beg (b : Block) (n : ν) (s : ν → V) :
    exec new (beg b n :: ev) s = exec new ev s := rfl

@[simp] theorem exec_cons_fin (b : Block) (n : ν) (s : ν → V) :
    exec new (fin b n :: ev) s = exec new ev s := rfl

theorem exec_begs (b : Block) (l : List ν) (s : ν → V) :
    exec new (l.map (beg b)) s = s := by
  induction l with
  | nil => rfl
  | cons n l ih => exact ih

theorem exec_fins (b : Block) (l : List ν) (s : ν → V) :
    exec new (l.map (fin b)) s = s := by
  induction l with
  | nil => rfl
  | cons n l ih => exact ih

/-- An element of a joined list stands in one of the two. -/
theorem split_append {α : Type} {a b l₁ l₂ : List α} {e : α} (h : a ++ b = l₁ ++ e :: l₂) :
    (∃ m, a = l₁ ++ e :: m ∧ l₂ = m ++ b) ∨ ∃ m, b = m ++ e :: l₂ ∧ l₁ = a ++ m := by
  rcases List.append_eq_append_iff.mp h with ⟨m, rfl, hb⟩ | ⟨m, ha, hm⟩
  · exact .inr ⟨m, hb, rfl⟩
  · cases m with
    | nil => exact .inr ⟨[], by simpa using hm.symm, by simpa using ha.symm⟩
    | cons x m =>
      obtain ⟨rfl, rfl⟩ := List.cons.inj hm
      exact .inl ⟨m, ha, rfl⟩

theorem Detected.append_left {s : ν → V} {n : ν} (h : Detected new ev s n) :
    Detected new (ev ++ ev') s n := by
  obtain ⟨l₁, b, l₂, l₃, rfl, hb, hne⟩ := h
  exact ⟨l₁, b, l₂, l₃ ++ ev', by simp, hb, hne⟩

theorem Detected.append_right {s : ν → V} {n : ν} (h : Detected new ev' (exec new ev s) n) :
    Detected new (ev ++ ev') s n := by
  obtain ⟨l₁, b, l₂, l₃, rfl, hb, hne⟩ := h
  refine ⟨ev ++ l₁, b, l₂, l₃, by simp, hb, ?_⟩
  simpa using hne

theorem Wrapped.mono (h : Wrapped new base out ev) (hout : out ⊆ out') :
    Wrapped new base out' ev where
  inside := h.inside
  covered l₁ e l₂ n hev hn := (h.covered l₁ e l₂ n hev hn).imp_left fun hn => hout hn
  paired := h.paired
  detects s n hne := (h.detects s n hne).imp_left fun hn => hout hn

theorem Wrapped.append (h : Wrapped new base out ev) (h' : Wrapped new base out ev') :
    Wrapped new base out (ev ++ ev') where
  inside := List.forall_mem_append.mpr ⟨h.inside, h'.inside⟩
  covered l₁ e l₂ n hev hn := by
    rcases split_append hev with ⟨m, rfl, rfl⟩ | ⟨m, rfl, rfl⟩
    · rcases h.covered l₁ e m n rfl hn with hout | ⟨b, hb, hbeg, hfin⟩
      · exact .inl hout
      · exact .inr ⟨b, hb, hbeg, List.mem_append_left _ hfin⟩
    · rcases h'.covered m e l₂ n rfl hn with hout | ⟨b, hb, hbeg, hfin⟩
      · exact .inl hout
      · exact .inr ⟨b, hb, List.mem_append_right _ hbeg, hfin⟩
  paired l₁ b n l₂ hev := by
    rcases split_append hev with ⟨m, rfl, rfl⟩ | ⟨m, rfl, rfl⟩
    · obtain ⟨l₃, l₄, rfl, hb⟩ := h.paired l₁ b n m rfl
      exact ⟨l₃, l₄ ++ ev', by simp, hb⟩
    · exact h'.paired m b n l₂ rfl
  detects s n hne := by
    rw [exec_append] at hne
    by_cases hsame : exec new ev s n = s n
    · rw [← hsame] at hne
      exact (h'.detects _ n hne).imp_right Detected.append_right
    · exact (h.detects s n hsame).imp_right Detected.append_left

theorem Tidy.mono (h : Tidy new base out ev) (hout : out ⊆ out') : Tidy new base out' ev :=
  ⟨h.toWrapped.mono hout, h.own⟩

theorem Tidy.append (h : Tidy new base out ev) (h' : Tidy new base out ev') :
    Tidy new base out (ev ++ ev') where
  toWrapped := h.toWrapped.append h'.toWrapped
  own n hn := (List.mem_append.mp hn).elim (h.own n) (h'.own n)

theorem Tidy.nil : Tidy new base out ([] : List (Event ν)) where
  inside e he := absurd he List.not_mem_nil
  covered l₁ e l₂ n hev := by simp at hev
  paired l₁ b n l₂ hev := by simp at hev
  detects s n hne := absurd rfl hne
  own n := List.not_mem_nil

/-- One plain instruction, its node in the collector. -/
theorem Tidy.plain {inst : String} {node : Option ν} (h : ∀ n, node = some n → n ∈ out) :
    Tidy new base out [⟨base, .SUPER_INFO_STR inst node⟩] where
  inside e he := by
    obtain rfl := List.mem_singleton.mp he
    exact List.suffix_refl _
  covered l₁ e l₂ n hev hn := by
    have he : e ∈ [(⟨base, .SUPER_INFO_STR inst node⟩ : Event ν)] := by rw [hev]; simp
    obtain rfl := List.mem_singleton.mp he
    exact .inl (h n hn)
  paired l₁ b n l₂ hev := by
    have he : beg b n ∈ [(⟨base, .SUPER_INFO_STR inst node⟩ : Event ν)] := by rw [hev]; simp
    simp [beg] at he
  detects s n hne := by
    cases node with
    | none => exact absurd rfl hne
    | some m =>
      by_cases hm : n = m
      · exact .inl (hm ▸ h m rfl)
      · exact absurd (Function.update_of_ne hm _ _) hne
  own n hn := by simp [beg] at hn

/-- The markers written around a block take its nodes off the list. -/
theorem Tidy.wrap {s : List ν} (hs : s.Nodup) (h : Tidy new base (s ++ out) ev) :
    Wrapped new base out (s.map (beg base) ++ ev ++ s.map (fin base)) where
  inside := by
    intro e he
    simp only [List.mem_append, List.mem_map] at he
    rcases he with (⟨n, -, rfl⟩ | he) | ⟨n, -, rfl⟩
    · exact List.suffix_refl _
    · exact h.inside e he
    · exact List.suffix_refl _
  covered l₁ e l₂ n hev hn := by
    rcases split_append hev with ⟨m, hm, rfl⟩ | ⟨m, hm, rfl⟩
    · rcases split_append hm with ⟨m', hm', rfl⟩ | ⟨m', rfl, rfl⟩
      · have he : e ∈ s.map (beg base) := by rw [hm']; simp
        obtain ⟨k, -, rfl⟩ := List.mem_map.mp he
        simp [beg, InstInfo.assigns] at hn
      · rcases h.covered m' e m n rfl hn with hout | ⟨b, hb, hbeg, hfin⟩
        · rcases List.mem_append.mp hout with hns | hno
          · refine .inr ⟨base, h.inside e (by simp), ?_, ?_⟩
            · exact List.mem_append_left _ (List.mem_map_of_mem hns)
            · exact List.mem_append_right _ (List.mem_map_of_mem hns)
          · exact .inl hno
        · exact .inr ⟨b, hb, List.mem_append_right _ hbeg, List.mem_append_left _ hfin⟩
    · have he : e ∈ s.map (fin base) := by rw [hm]; simp
      obtain ⟨k, -, rfl⟩ := List.mem_map.mp he
      simp [fin, InstInfo.assigns] at hn
  paired l₁ b n l₂ hev := by
    rcases split_append hev with ⟨m, hm, rfl⟩ | ⟨m, hm, rfl⟩
    · rcases split_append hm with ⟨m', hm', rfl⟩ | ⟨m', rfl, rfl⟩
      · -- a marker at the beginning: its end stands at the end of the block
        have he : beg b n ∈ s.map (beg base) := by rw [hm']; simp
        obtain ⟨k, hk, hbn⟩ := List.mem_map.mp he
        obtain ⟨rfl, rfl⟩ : base = b ∧ k = n := by simpa [beg] using hbn
        obtain ⟨s₁, s₂, rfl⟩ := List.append_of_mem hk
        refine ⟨m' ++ ev ++ s₁.map (fin base), s₂.map (fin base), by simp, ?_⟩
        intro hmem
        simp only [List.mem_append] at hmem
        rcases hmem with (hmem | hmem) | hmem
        · have hnodup : (l₁ ++ beg base k :: m').Nodup := by
            rw [← hm']
            exact hs.map fun x y hxy => by simpa [beg] using hxy
          exact (List.nodup_cons.mp (List.nodup_append.mp hnodup).2.1).1 hmem
        · exact h.own k hmem
        · obtain ⟨j, -, hj⟩ := List.mem_map.mp hmem
          simp [beg, fin] at hj
      · obtain ⟨l₃, l₄, rfl, hb⟩ := h.paired m' b n m rfl
        exact ⟨l₃, l₄ ++ s.map (fin base), by simp, hb⟩
    · have he : beg b n ∈ s.map (fin base) := by rw [hm]; simp
      obtain ⟨k, -, hk⟩ := List.mem_map.mp he
      simp [beg, fin] at hk
  detects s' n hne := by
    rw [exec_append, exec_append, exec_begs, exec_fins] at hne
    rcases h.detects s' n hne with hout | hdet
    · rcases List.mem_append.mp hout with hns | hno
      · obtain ⟨s₁, s₂, rfl⟩ := List.append_of_mem hns
        refine .inr ⟨s₁.map (beg base), base, s₂.map (beg base) ++ ev ++ s₁.map (fin base),
          s₂.map (fin base), by simp, ?_, ?_⟩
        · intro hmem
          simp only [List.mem_append, List.mem_map] at hmem
          rcases hmem with (⟨j, hj, hjn⟩ | hmem) | ⟨j, -, hjn⟩
          · obtain rfl : j = n := by simpa [beg] using hjn
            exact (List.nodup_cons.mp (List.nodup_append.mp hs).2.1).1 hj
          · exact h.own n hmem
          · simp [beg, fin] at hjn
        · simpa [exec_begs, exec_fins] using hne.symm
      · exact .inl hno
    · refine .inr (Detected.append_left (Detected.append_right ?_))
      rwa [exec_begs]

/-- A block seen from the one around it. -/
theorem Wrapped.outer {x : ℕ × Bool} (h : Wrapped new (x :: base) out ev) :
    Tidy new base out ev where
  inside e he := (List.suffix_cons x base).trans (h.inside e he)
  covered := h.covered
  paired := h.paired
  detects := h.detects
  own n hn := by
    have hlen := (h.inside _ hn).length_le
    simp [beg] at hlen

end Events

/-! ## What a statement collects and emits -/

section Compute

variable [LinearOrder ν] {V : Type} (new : String → (ν → V) → V)

/-- The two halves of a collector agree. -/
structure Collector.Paired (assign : Collector ν) : Prop where
  same : assign.begs = assign.ends
  nodup : assign.begs.Nodup

omit [LinearOrder ν] in
theorem Collector.Paired.empty : (Collector.empty : Collector ν).Paired :=
  ⟨rfl, List.nodup_nil⟩

theorem Collector.Paired.mark {assign : Collector ν} (h : assign.Paired) (belong : Option ν) :
    (assign.mark belong).Paired := by
  cases belong with
  | none => exact h
  | some n => exact ⟨by rw [Collector.mark, h.same], sortUnique_nodup _⟩

theorem subset_mark (assign : Collector ν) (belong : Option ν) :
    assign.begs ⊆ (assign.mark belong).begs := by
  cases belong with
  | none => exact fun _ h => h
  | some n => exact fun m hm => mem_sortUnique.mpr (List.mem_cons_of_mem _ hm)

theorem mem_mark (assign : Collector ν) {belong : Option ν} {n : ν} (h : belong = some n) :
    n ∈ (assign.mark belong).begs := by
  subst h
  exact mem_sortUnique.mpr List.mem_cons_self

/-- What is emitted into a block, with the collector before and after. -/
structure Emits (assign : Collector ν) (r : List (InstInfo ν) × Collector ν) : Prop where
  balanced : Balanced r.1
  paired : r.2.Paired
  grows : assign.begs ⊆ r.2.begs
  tidy : ∀ path p (stack : List Open), stack.all Prod.snd = true →
    Tidy new (stack.map Prod.fst) r.2.begs (trace path p stack r.1)

variable {new} {assign : Collector ν}

theorem Emits.plain (h : assign.Paired) (inst : String) (belong : Option ν) :
    Emits new assign ([.SUPER_INFO_STR inst belong], assign.mark belong) where
  balanced := .flat rfl
  paired := h.mark belong
  grows := subset_mark assign belong
  tidy path p stack taken := by
    rw [trace_flat rfl, if_pos taken]
    exact .plain fun n hn => mem_mark assign hn

theorem Emits.nothing (h : assign.Paired) : Emits new assign ([], assign) where
  balanced := .nil
  paired := h
  grows _ hn := hn
  tidy _ _ _ _ := .nil

theorem computeNode_emits (stmt : NodeStmt ν) (h : assign.Paired) :
    Emits new assign (computeNode stmt assign) := by
  unfold computeNode
  split
  · exact .plain h stmt.valStr none
  · split
    · exact .nothing h
    · split
      · split
        · exact .plain h _ stmt.belong
        · exact .nothing h
      · exact .plain h stmt.valStr stmt.belong

/-- One statement after the other. -/
theorem Emits.seq {r r' : List (InstInfo ν) × Collector ν} (h : Emits new assign r)
    (h' : Emits new r.2 r') : Emits new assign (r.1 ++ r'.1, r'.2) where
  balanced := h.balanced.join h'.balanced
  paired := h'.paired
  grows := List.Subset.trans h.grows h'.grows
  tidy path p stack taken := by
    rw [h.balanced.append]
    exact ((h.tidy path p stack taken).mono h'.grows).append (h'.tidy path _ stack taken)

/-- The instructions of a branch, with the markers that are left to it. -/
def branchInsts (common : List ν) (r : List (InstInfo ν) × Collector ν) : List (InstInfo ν) :=
  begs (r.2.begs.filter (· ∉ common)) ++ r.1 ++ ends (r.2.ends.filter (· ∉ common))

/-- A branch: what is not collected outside is written around it. -/
theorem Emits.branch {r : List (InstInfo ν) × Collector ν} (common : List ν)
    (h : Emits new .empty r) :
    Balanced (branchInsts common r) ∧
    ∀ path p (stack : List Open), stack.all Prod.snd = true →
      Wrapped new (stack.map Prod.fst) common (trace path p stack (branchInsts common r)) := by
  have hbegs := flat_begs (r.2.begs.filter (· ∉ common))
  have hends := flat_ends (r.2.ends.filter (· ∉ common))
  have hfirst := (Balanced.flats hbegs).join h.balanced
  refine ⟨hfirst.join (.flats hends), fun path p stack taken => ?_⟩
  rw [branchInsts, hfirst.append, (Balanced.flats hbegs).append, trace_flats hbegs path p taken,
    trace_flats hends path _ taken, begs, ends, List.map_map, List.map_map, ← h.paired.same]
  apply Tidy.wrap (h.paired.nodup.filter _)
  apply (h.tidy path _ stack taken).mono
  intro n hn
  by_cases hc : n ∈ common
  · exact List.mem_append_right _ hc
  · exact List.mem_append_left _ (List.mem_filter.mpr ⟨hn, by simpa using hc⟩)

/-- What both branches collect or the block around them has collected. -/
def commonOf (ifAssign elseAssign assign : Collector ν) : List ν :=
  sortUnique (assign.begs ++ ifAssign.begs.filter (· ∈ elseAssign.begs))

theorem compute_when (cond : String) (ifChild elseChild : List (StmtNode ν))
    (h : assign.Paired) (hif : (computeSeq ifChild .empty).2.Paired)
    (helse : (computeSeq elseChild .empty).2.Paired) :
    (StmtNode.OP_STMT_WHEN cond ifChild elseChild).compute assign =
      let common := commonOf (computeSeq ifChild .empty).2 (computeSeq elseChild .empty).2 assign
      (whenInsts ("if " ++ cond ++ " \x7b") (branchInsts common (computeSeq ifChild .empty))
        (branchInsts common (computeSeq elseChild .empty)) elseChild.isEmpty, ⟨common, common⟩) := by
  rw [StmtNode.compute]
  simp only [extractCommonInstInfo, whenInsts, branchInsts, commonOf, ← h.same, ← hif.same,
    ← helse.same]
  rfl

/-- The two branches of a `when`, of which a path takes one. -/
theorem Emits.when_ {ifR elseR : List (InstInfo ν) × Collector ν}
    (hif : Emits new .empty ifR) (helse : Emits new .empty elseR) (cond : String)
    (omitted : Bool) :
    Emits new assign
      (whenInsts cond (branchInsts (commonOf ifR.2 elseR.2 assign) ifR)
        (branchInsts (commonOf ifR.2 elseR.2 assign) elseR) omitted,
        ⟨commonOf ifR.2 elseR.2 assign, commonOf ifR.2 elseR.2 assign⟩) := by
  obtain ⟨balIf, wrapIf⟩ := hif.branch (commonOf ifR.2 elseR.2 assign)
  obtain ⟨balElse, wrapElse⟩ := helse.branch (commonOf ifR.2 elseR.2 assign)
  refine ⟨balIf.whenInsts balElse cond omitted, ⟨rfl, sortUnique_nodup _⟩, fun n hn => ?_,
    fun path p stack taken => ?_⟩
  · exact mem_sortUnique.mpr (List.mem_append_left _ hn)
  · rw [trace_whenInsts balIf balElse]
    cases hpath : path p with
    | true =>
      -- the other branch is not taken
      rw [balElse.dead path _ (((p, false), !true) :: stack) rfl, ite_self, List.append_nil]
      exact (wrapIf path _ (((p, true), true) :: stack) taken).outer
    | false =>
      rw [balIf.dead path _ (((p, true), false) :: stack) rfl, List.nil_append]
      cases omitted with
      | true => exact .nil
      | false => exact (wrapElse path _ (((p, false), true) :: stack) taken).outer

variable (new)

mutual

theorem compute_emits : ∀ (stmt : StmtNode ν) (assign : Collector ν), assign.Paired →
    Emits new assign (stmt.compute assign)
  | .OP_STMT_SEQ child, assign, h => by
    rw [StmtNode.compute]
    exact computeSeq_emits child assign h
  | .OP_STMT_NODE stmt, assign, h => by
    rw [StmtNode.compute]
    exact computeNode_emits stmt h
  | .OP_STMT_WHEN cond ifChild elseChild, assign, h => by
    have hif := computeSeq_emits ifChild .empty .empty
    have helse := computeSeq_emits elseChild .empty .empty
    rw [compute_when cond ifChild elseChild h hif.paired helse.paired]
    exact hif.when_ helse _ _

theorem computeSeq_emits : ∀ (child : List (StmtNode ν)) (assign : Collector ν), assign.Paired →
    Emits new assign (computeSeq child assign)
  | [], assign, h => by
    rw [computeSeq]
    exact .nothing h
  | stmt :: child, assign, h => by
    have hfirst := compute_emits stmt assign h
    rw [computeSeq]
    exact hfirst.seq (computeSeq_emits child _ hfirst.paired)

end

/-- On every path an assignment lies within a pair of its node in the block or one around it, a
pair begins and ends in one block, and where the value of a node is a new one in the end, one of
the node's pairs saves a value and compares it with another. -/
theorem compute_brackets (root : List (StmtNode ν)) (path : ℕ → Bool) (s : ν → V) :
    let ev := trace path 0 [] (StmtTree.compute root)
    (∀ l₁ e l₂ n, ev = l₁ ++ e :: l₂ → e.inst.assigns = some n →
      ∃ b, b <:+ e.block ∧ beg b n ∈ l₁ ∧ fin b n ∈ l₂) ∧
    (∀ l₁ b n l₂, ev = l₁ ++ beg b n :: l₂ →
      ∃ l₃ l₄, l₂ = l₃ ++ fin b n :: l₄ ∧ beg b n ∉ l₃) ∧
    ∀ n, exec new ev s n ≠ s n → Detected new ev s n := by
  have hroot := computeSeq_emits new root .empty .empty
  have hinsts : StmtTree.compute root = branchInsts [] (computeSeq root .empty) := by
    simp [StmtTree.compute, computeRoot, branchInsts]
  have hwrapped : Wrapped new [] [] (trace path 0 [] (StmtTree.compute root)) := by
    rw [hinsts]
    exact (hroot.branch []).2 path 0 [] rfl
  refine ⟨fun l₁ e l₂ n hev hn => ?_, hwrapped.paired, fun n hne => ?_⟩
  · exact (hwrapped.covered l₁ e l₂ n hev hn).resolve_left List.not_mem_nil
  · exact (hwrapped.detects s n hne).resolve_left List.not_mem_nil

end Compute

/-! ### Two conditions, two pairs -/

def assignZero (valStr : String) : StmtNode ℕ :=
  .OP_STMT_NODE ⟨some 0, false, none, "a", .VAL_VALID, 0, valStr⟩

/-- `when x : a <= p` and then `when y : a <= q`. -/
def twoWhens : List (StmtNode ℕ) :=
  [.OP_STMT_WHEN "x" [assignZero "p"] [], .OP_STMT_WHEN "y" [assignZero "q"] []]

/-- The pair of events `j` and `k` has all assignments to `n` between them. -/
def EnclosesAll (ev : List (Event ℕ)) (n j k : ℕ) : Prop :=
  ∃ b, ev[j]? = some (beg b n) ∧ ev[k]? = some (fin b n) ∧
    ∀ i e, ev[i]? = some e → e.inst.assigns = some n → j < i ∧ i < k

/-- With both conditions true the first pair has ended before the second assignment. -/
theorem twoWhens_two_pairs :
    trace (fun _ => true) 0 [] (StmtTree.compute twoWhens) =
      [beg [(0, true)] 0, ⟨[(0, true)], .SUPER_INFO_STR "a = p;" (some 0)⟩, fin [(0, true)] 0,
        beg [(5, true)] 0, ⟨[(5, true)], .SUPER_INFO_STR "a = q;" (some 0)⟩, fin [(5, true)] 0] ∧
    ∀ j k, ¬ EnclosesAll (trace (fun _ => true) 0 [] (StmtTree.compute twoWhens)) 0 j k := by
  have htrace : trace (fun _ => true) 0 [] (StmtTree.compute twoWhens) =
      [beg [(0, true)] 0, ⟨[(0, true)], .SUPER_INFO_STR "a = p;" (some 0)⟩, fin [(0, true)] 0,
        beg [(5, true)] 0, ⟨[(5, true)], .SUPER_INFO_STR "a = q;" (some 0)⟩,
        fin [(5, true)] 0] := by decide
  refine ⟨htrace, ?_⟩
  rw [htrace]
  rintro j k ⟨b, hj, hk, hall⟩
  have hlow := (hall 1 _ rfl rfl).1
  have hhigh := (hall 4 _ rfl rfl).2
  obtain rfl : j = 0 := by omega
  obtain rfl : b = [(0, true)] := by simpa [beg, eq_comm] using hj
  obtain ⟨hlen, -⟩ := List.getElem?_eq_some_iff.mp hk
  obtain rfl : k = 5 := by
    simp only [List.length_cons, List.length_nil] at hlen
    omega
  simp [fin] at hk

end Gsim.ChangeBrackets
