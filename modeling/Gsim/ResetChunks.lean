/-
  Gsim/ResetChunks.lean
  =====================
  **Reset bodies in chunks** (`genResetDef` of `cppEmitterReset.cpp`).

  The instructions of a reset super are printed into one function, or, from
  `chunkSize` instructions on, into a chain of functions.  Before a statement that
  is one too many the open `if`s are closed, the next function is called, and the
  same `if`s are opened again there.

  The stack of open `if`s knows conditions only: it does not say whether an `if` is
  in its `else` branch.  A chunk that starts inside of an `else` branch therefore
  runs what is left of the branch under the condition itself.  Away from `else`
  branches the chain runs as the one function does; the statement trees of reset
  supers have none (`Gsim/ResetStreams.lean`).
-/
import Mathlib.Data.List.Basic
import Mathlib.Tactic

namespace Gsim.ResetChunks

variable {C S : Type}

/-! ## Emission -/

/-- `InstInfo`, by its `infoType`.  An `if` carries its condition. -/
inductive Inst (C S : Type) where
  | cond (c : C)
  | els
  | dedent
  | str (s : S)
  /-- `SUPER_INFO_ASSIGN_BEG` and `SUPER_INFO_ASSIGN_END` -/
  | mark
deriving DecidableEq, Repr

/-- A line of the generated text. -/
inductive Line (C S : Type) where
  /-- `void S::subReset...(...) {` -/
  | func
  /-- `if (c) {` -/
  | ifOpen (c : C)
  /-- `} else {` -/
  | els
  /-- `}` -/
  | close
  | stmt (s : S)
  /-- the call of `_c<chunk>` -/
  | call (chunk : ℕ)
  /-- the updates of `activeFlags` -/
  | activate
deriving DecidableEq, Repr

/-- `GSIM_EMIT_RESET_CHUNK`, as `atol` reads it. -/
def mtResetChunkSize (env : Option Int) : ℕ :=
  match env with
  | none => 4096
  | some v => if v = 0 then 0 else if v ≥ 256 then v.toNat else 4096

namespace Inst

def lines : Inst C S → List (Line C S)
  | .cond c => [.ifOpen c]
  | .els => [.els]
  | .dedent => [.close]
  | .str s => [.stmt s]
  | .mark => []

/-- `openIfs`, innermost first. -/
def openIfs (opened : List C) : Inst C S → List C
  | .cond c => c :: opened
  | .dedent => opened.tail
  | _ => opened

/-- What `emittedInChunk` grows by. -/
def emitted : Inst C S → ℕ
  | .cond _ | .els | .str _ => 1
  | .dedent | .mark => 0

/-- Whether a new chunk starts before the instruction. -/
def splits (chunkSize emittedInChunk : ℕ) : Inst C S → Bool
  | .cond _ | .els | .dedent => false
  | .str _ | .mark => 0 < chunkSize ∧ chunkSize ≤ emittedInChunk

end Inst

section Emit

variable (emitActivation : Bool) (chunkSize : ℕ)

/-- The end of a function; without activation the whole body of the parent is guarded. -/
def closeFunc (chunkIdx : ℕ) : List (Line C S) :=
  if chunkIdx = 0 ∧ ¬ emitActivation then [.close, .close] else [.close]

/-- What is printed into the current function, and the functions that follow it. -/
def emitInsts (opened : List C) (emittedInChunk chunkIdx : ℕ) :
    List (Inst C S) → List (Line C S) × List (List (Line C S))
  | [] =>
    ((if chunkIdx > 0 then opened.map fun _ => .close else []) ++ closeFunc emitActivation chunkIdx, [])
  | inst :: insts =>
    if inst.splits chunkSize emittedInChunk then
      let next := emitInsts (inst.openIfs opened) inst.emitted (chunkIdx + 1) insts
      ((opened.map fun _ => .close) ++ .call (chunkIdx + 1) :: closeFunc emitActivation chunkIdx,
        (.func :: opened.reverse.map .ifOpen ++ inst.lines ++ next.1) :: next.2)
    else
      let next := emitInsts (inst.openIfs opened) (emittedInChunk + inst.emitted) chunkIdx insts
      (inst.lines ++ next.1, next.2)

/-- The parent function and the chunks. -/
def genResetDef (reset : C) (insts : List (Inst C S)) : List (List (Line C S)) :=
  let guard := if emitActivation then [.ifOpen reset, .activate, .close] else [.ifOpen reset]
  let body := emitInsts emitActivation chunkSize [] 0 0 insts
  (.func :: guard ++ body.1) :: body.2

end Emit

/-! ## Execution -/

/-- The statements that are executed, given the values of the enclosing conditions, which no
    statement changes. -/
def runLines (ρ : C → Bool) (call : ℕ → List S) : List (Line C S) → List Bool → List S
  | [], _ => []
  | .func :: lines, stack => runLines ρ call lines (true :: stack)
  | .ifOpen c :: lines, stack => runLines ρ call lines (ρ c :: stack)
  | .els :: lines, b :: stack => runLines ρ call lines ((!b) :: stack)
  | .els :: lines, [] => runLines ρ call lines []
  | .close :: lines, stack => runLines ρ call lines stack.tail
  | .stmt s :: lines, stack => (if stack.all id then [s] else []) ++ runLines ρ call lines stack
  | .call chunk :: lines, stack =>
    (if stack.all id then call chunk else []) ++ runLines ρ call lines stack
  | .activate :: lines, stack => runLines ρ call lines stack

/-- Run the function with index `k`, which may call the one after it. -/
def runFuncs (ρ : C → Bool) (k : ℕ) : List (List (Line C S)) → List S
  | [] => []
  | func :: funcs =>
    runLines ρ (fun chunk => if chunk = k + 1 then runFuncs ρ (k + 1) funcs else []) func []

/-- Reads the braces of a text, from the given depth on. -/
def depth : List (Line C S) → ℕ → Option ℕ
  | [], d => some d
  | .func :: lines, d => depth lines (d + 1)
  | .ifOpen _ :: lines, d => depth lines (d + 1)
  | .els :: lines, d => if d = 0 then none else depth lines d
  | .close :: lines, d => if d = 0 then none else depth lines (d - 1)
  | .stmt _ :: lines, d => depth lines d
  | .call _ :: lines, d => depth lines d
  | .activate :: lines, d => depth lines d

/-- Every brace inside of the function is closed there. -/
def Balanced (func : List (Line C S)) : Prop :=
  ∃ body, func = .func :: body ++ [.close] ∧ depth body 0 = some 0

/-! ## Streams -/

/-- The branches that are open, with `true` for an `else` branch. -/
def wellBracketed : List Bool → List (Inst C S) → Bool
  | branches, [] => branches = []
  | branches, .cond _ :: insts => wellBracketed (false :: branches) insts
  | false :: branches, .els :: insts => wellBracketed (true :: branches) insts
  | _, .els :: _ => false
  | _ :: branches, .dedent :: insts => wellBracketed branches insts
  | [], .dedent :: _ => false
  | branches, .str _ :: insts => wellBracketed branches insts
  | branches, .mark :: insts => wellBracketed branches insts

def Inst.place (k : ℕ) : Inst C S → Inst C (ℕ × S)
  | .cond c => .cond c
  | .els => .els
  | .dedent => .dedent
  | .str s => .str (k, s)
  | .mark => .mark

/-- Statements are told apart by their place. -/
def number (k : ℕ) : List (Inst C S) → List (Inst C (ℕ × S))
  | [] => []
  | inst :: insts => inst.place k :: number (k + 1) insts

/-- The chunks run the statements that the one function runs, and all braces match. -/
def RunsAlike (emitActivation : Bool) (chunkSize : ℕ) (reset : C) (insts : List (Inst C S)) : Prop :=
  (∀ ρ, runFuncs ρ 0 (genResetDef emitActivation chunkSize reset (number 0 insts)) =
    runFuncs ρ 0 (genResetDef emitActivation 0 reset (number 0 insts))) ∧
  ∀ func ∈ genResetDef emitActivation chunkSize reset (number 0 insts), Balanced func

/-- The branches after an instruction, with `true` for an `else` branch. -/
def Inst.elses (branches : List Bool) : Inst C S → List Bool
  | .cond _ => false :: branches
  | .els => true :: branches.tail
  | .dedent => branches.tail
  | _ => branches

/-- No chunk starts inside of an `else` branch. -/
def outsideElse (chunkSize : ℕ) : ℕ → List Bool → List (Inst C S) → Bool
  | _, _, [] => true
  | emittedInChunk, branches, inst :: insts =>
    if inst.splits chunkSize emittedInChunk then
      !branches.any id && outsideElse chunkSize inst.emitted (inst.elses branches) insts
    else outsideElse chunkSize (emittedInChunk + inst.emitted) (inst.elses branches) insts

/-! ## What a chain executes -/

/-- All branches are taken; `true` marks an `else` branch. -/
def taken (ρ : C → Bool) (branches : List (C × Bool)) : Bool :=
  branches.all fun branch => ρ branch.1 != branch.2

/-- The branches after an instruction. -/
def Inst.branches (opened : List (C × Bool)) : Inst C S → List (C × Bool)
  | .cond c => (c, false) :: opened
  | .els =>
    match opened with
    | (c, other) :: opened => (c, !other) :: opened
    | [] => []
  | .dedent => opened.tail
  | _ => opened

def Inst.run (ρ : C → Bool) (opened : List (C × Bool)) : Inst C S → List S
  | .str s => if taken ρ opened then [s] else []
  | _ => []

/-- The branches as a chunk opens them again. -/
def reopened (opened : List (C × Bool)) : List (C × Bool) := opened.map fun branch => (branch.1, false)

/-- The statements executed from a point in the stream on. -/
def traceFrom (ρ : C → Bool) (chunkSize : ℕ) : ℕ → List (C × Bool) → List (Inst C S) → List S
  | _, _, [] => []
  | emittedInChunk, opened, inst :: insts =>
    if inst.splits chunkSize emittedInChunk then
      inst.run ρ (reopened opened) ++
        traceFrom ρ chunkSize inst.emitted (inst.branches (reopened opened)) insts
    else
      inst.run ρ opened ++
        traceFrom ρ chunkSize (emittedInChunk + inst.emitted) (inst.branches opened) insts

/-- The values of the open branches. -/
def values (ρ : C → Bool) (opened : List (C × Bool)) : List Bool :=
  opened.map fun branch => ρ branch.1 != branch.2

section Trace

variable {ρ : C → Bool} {call : ℕ → List S}

theorem all_values (opened : List (C × Bool)) : (values ρ opened).all id = taken ρ opened := by
  simp [values, taken, List.all_map]

theorem values_reopened (opened : List (C × Bool)) :
    values ρ (reopened opened) = (opened.map Prod.fst).map ρ := by
  simp [values, reopened]

theorem runLines_opens (conds : List C) (lines : List (Line C S)) (stack : List Bool) :
    runLines ρ call (conds.map .ifOpen ++ lines) stack =
      runLines ρ call lines ((conds.map ρ).reverse ++ stack) := by
  induction conds generalizing stack with
  | nil => rfl
  | cons c conds ih =>
    rw [List.map_cons, List.cons_append, runLines, ih]
    simp

theorem runLines_closes {α : Type} (opened : List α) (lines : List (Line C S)) {inner : List Bool}
    (base : List Bool) (same : inner.length = opened.length) :
    runLines ρ call ((opened.map fun _ => .close) ++ lines) (inner ++ base) =
      runLines ρ call lines base := by
  induction opened generalizing inner with
  | nil =>
    cases List.length_eq_zero_iff.mp same
    rfl
  | cons c opened ih =>
    cases inner with
    | nil => cases same
    | cons b inner =>
      rw [List.map_cons, List.cons_append, runLines]
      exact ih (by simpa using same)

theorem runLines_closeFunc (emitActivation : Bool) (chunkIdx : ℕ) (stack : List Bool) :
    runLines ρ call (closeFunc emitActivation chunkIdx) stack = [] := by
  unfold closeFunc
  split <;> rfl

/-- A line of the stream on the machine's stack. -/
theorem runLines_inst {branches : List Bool} {inst : Inst C S} {insts : List (Inst C S)}
    (bracketed : wellBracketed branches (inst :: insts) = true) {opened : List (C × Bool)}
    (same : branches.length = opened.length) (lines : List (Line C S)) (base : List Bool) :
    runLines ρ call (inst.lines ++ lines) (values ρ opened ++ base) =
      (if base.all id then inst.run ρ opened else []) ++
        runLines ρ call lines (values ρ (inst.branches opened) ++ base) := by
  cases inst with
  | cond c => simp [Inst.lines, runLines, Inst.run, Inst.branches, values]
  | els =>
    cases opened with
    | nil =>
      cases List.length_eq_zero_iff.mp same
      cases bracketed
    | cons branch opened =>
      simp only [Inst.lines, Inst.run, Inst.branches, values, List.map_cons, List.cons_append,
        List.nil_append, runLines]
      cases ρ branch.1 <;> cases branch.2 <;> simp
  | dedent =>
    cases opened with
    | nil =>
      cases List.length_eq_zero_iff.mp same
      cases bracketed
    | cons branch opened => simp [Inst.lines, runLines, Inst.run, Inst.branches, values]
  | str s =>
    simp only [Inst.lines, Inst.run, Inst.branches, List.cons_append, List.nil_append, runLines,
      List.all_append, all_values]
    cases base.all id <;> cases taken ρ opened <;> rfl
  | mark => simp [Inst.lines, Inst.run, Inst.branches]

theorem wellBracketed_tail {branches : List Bool} {inst : Inst C S} {insts : List (Inst C S)}
    (bracketed : wellBracketed branches (inst :: insts) = true) :
    wellBracketed (inst.elses branches) insts = true := by
  cases inst with
  | cond c => exact bracketed
  | els =>
    match branches, bracketed with
    | false :: branches, bracketed => exact bracketed
  | dedent =>
    match branches, bracketed with
    | b :: branches, bracketed => exact bracketed
  | str s => exact bracketed
  | mark => exact bracketed

theorem length_elses {branches : List Bool} {inst : Inst C S} {insts : List (Inst C S)}
    (bracketed : wellBracketed branches (inst :: insts) = true) {opened : List (C × Bool)}
    (same : branches.length = opened.length) :
    (inst.elses branches).length = (inst.branches opened).length := by
  cases inst with
  | cond c => simp [Inst.elses, Inst.branches, same]
  | els =>
    match branches, bracketed with
    | false :: branches, bracketed =>
      cases opened with
      | nil => cases same
      | cons branch opened => simpa [Inst.elses, Inst.branches] using same
  | dedent => simp [Inst.elses, Inst.branches, same]
  | str s => exact same
  | mark => exact same

theorem openIfs_fst (inst : Inst C S) (opened : List (C × Bool)) :
    inst.openIfs (opened.map Prod.fst) = (inst.branches opened).map Prod.fst := by
  cases inst with
  | els => cases opened <;> rfl
  | cond c => rfl
  | dedent => simp [Inst.openIfs, Inst.branches]
  | str s => rfl
  | mark => rfl

/-- What a function and those that follow it execute. -/
theorem runLines_emitInsts (emitActivation : Bool) (chunkSize : ℕ) {insts : List (Inst C S)}
    {branches : List Bool} (bracketed : wellBracketed branches insts = true)
    {opened : List (C × Bool)} (same : branches.length = opened.length) (emittedInChunk k : ℕ)
    (base : List Bool) :
    let emit := emitInsts emitActivation chunkSize (opened.map Prod.fst) emittedInChunk k insts
    runLines ρ (fun chunk => if chunk = k + 1 then runFuncs ρ (k + 1) emit.2 else []) emit.1
      (values ρ opened ++ base) =
        if base.all id then traceFrom ρ chunkSize emittedInChunk opened insts else [] := by
  induction insts generalizing branches opened emittedInChunk k base with
  | nil =>
    have none : branches = [] := by simpa [wellBracketed] using bracketed
    subst none
    cases List.length_eq_zero_iff.mp same.symm
    simp only [emitInsts, traceFrom, List.map_nil, ite_self, List.nil_append]
    exact runLines_closeFunc _ _ _
  | cons inst insts ih =>
    have tail := wellBracketed_tail bracketed
    simp only [emitInsts, traceFrom]
    by_cases split : inst.splits chunkSize emittedInChunk = true
    · have same' : branches.length = (reopened opened).length := by simpa [reopened] using same
      have conds : (reopened opened).map Prod.fst = opened.map Prod.fst := by simp [reopened]
      have next := ih tail (length_elses bracketed same') inst.emitted (k + 1) [true]
      rw [← openIfs_fst, conds] at next
      rw [if_pos split, if_pos split]
      simp only
      rw [runLines_closes _ _ _ (by simp [values]), runLines, runLines_closeFunc, List.append_nil,
        if_pos rfl, runFuncs, List.cons_append, List.cons_append, runLines, List.append_assoc,
        runLines_opens, ← List.map_reverse, List.reverse_reverse, ← values_reopened,
        runLines_inst bracketed same' _ _, next]
      rfl
    · have next := ih tail (length_elses bracketed same) (emittedInChunk + inst.emitted) k base
      rw [← openIfs_fst] at next
      rw [if_neg split, if_neg split]
      simp only
      rw [runLines_inst bracketed same _ _, next]
      cases base.all id <;> rfl

/-- What the parent function and its chunks execute. -/
theorem runFuncs_genResetDef (emitActivation : Bool) (chunkSize : ℕ) (reset : C)
    {insts : List (Inst C S)} (bracketed : wellBracketed [] insts = true) :
    runFuncs ρ 0 (genResetDef emitActivation chunkSize reset insts) =
      if emitActivation = true ∨ ρ reset = true then traceFrom ρ chunkSize 0 [] insts else [] := by
  have empty : ([] : List Bool).length = ([] : List (C × Bool)).length := rfl
  have body := fun base => runLines_emitInsts (ρ := ρ) emitActivation chunkSize bracketed empty 0 0 base
  unfold genResetDef
  cases emitActivation with
  | true =>
    have on := body [true]
    simpa [runFuncs, runLines, values] using on
  | false =>
    have guarded := body [ρ reset, true]
    cases val : ρ reset <;> simpa [runFuncs, runLines, values, val] using guarded

/-! ## Outside of `else` branches -/

/-- A chunk opens the branches as they are. -/
theorem reopened_eq {opened : List (C × Bool)} (none : (opened.map Prod.snd).any id = false) :
    reopened opened = opened := by
  have same : ∀ branch ∈ opened, (branch.1, false) = branch := by
    intro branch mem
    have first : branch.2 = false := by
      simpa using (List.any_eq_false.mp none) branch.2 (List.mem_map.mpr ⟨branch, mem, rfl⟩)
    rw [← first]
  exact (List.map_congr_left same).trans (List.map_id opened)

theorem branches_snd {inst : Inst C S} {insts : List (Inst C S)} {opened : List (C × Bool)}
    (bracketed : wellBracketed (opened.map Prod.snd) (inst :: insts) = true) :
    (inst.branches opened).map Prod.snd = inst.elses (opened.map Prod.snd) := by
  cases inst with
  | cond c => rfl
  | els =>
    match opened, bracketed with
    | (c, false) :: opened, _ => rfl
  | dedent => simp [Inst.branches, Inst.elses]
  | str s => rfl
  | mark => rfl

theorem splits_zero (emittedInChunk : ℕ) (inst : Inst C S) :
    inst.splits 0 emittedInChunk = false := by
  cases inst <;> simp [Inst.splits]

/-- The statements that one function executes. -/
theorem traceFrom_zero_cons (emittedInChunk : ℕ) (opened : List (C × Bool)) (inst : Inst C S)
    (insts : List (Inst C S)) :
    traceFrom ρ 0 emittedInChunk opened (inst :: insts) =
      inst.run ρ opened ++ traceFrom ρ 0 (emittedInChunk + inst.emitted) (inst.branches opened) insts := by
  rw [traceFrom, if_neg (by rw [splits_zero]; exact Bool.false_ne_true)]

theorem traceFrom_outsideElse (chunkSize : ℕ) {insts : List (Inst C S)} {opened : List (C × Bool)}
    (bracketed : wellBracketed (opened.map Prod.snd) insts = true) {emittedInChunk : ℕ}
    (outside : outsideElse chunkSize emittedInChunk (opened.map Prod.snd) insts = true)
    (emittedInAll : ℕ) :
    traceFrom ρ chunkSize emittedInChunk opened insts = traceFrom ρ 0 emittedInAll opened insts := by
  induction insts generalizing opened emittedInChunk emittedInAll with
  | nil => rfl
  | cons inst insts ih =>
    have tail := wellBracketed_tail bracketed
    rw [← branches_snd bracketed] at tail
    rw [traceFrom_zero_cons, traceFrom]
    rw [outsideElse] at outside
    by_cases split : inst.splits chunkSize emittedInChunk = true
    · rw [if_pos split, Bool.and_eq_true, Bool.not_eq_true', ← branches_snd bracketed] at outside
      rw [if_pos split, reopened_eq outside.1, ih tail outside.2]
    · rw [if_neg split, ← branches_snd bracketed] at outside
      rw [if_neg split, ih tail outside]

/-! ## Inside of an `else` branch -/

@[simp] theorem place_splits (k chunkSize emittedInChunk : ℕ) (inst : Inst C S) :
    (inst.place k).splits chunkSize emittedInChunk = inst.splits chunkSize emittedInChunk := by
  cases inst <;> rfl

@[simp] theorem place_emitted (k : ℕ) (inst : Inst C S) : (inst.place k).emitted = inst.emitted := by
  cases inst <;> rfl

@[simp] theorem place_branches (k : ℕ) (inst : Inst C S) (opened : List (C × Bool)) :
    (inst.place k).branches opened = inst.branches opened := by
  cases inst <;> rfl

theorem wellBracketed_number (k : ℕ) (insts : List (Inst C S)) (branches : List Bool) :
    wellBracketed branches (number k insts) = wellBracketed branches insts := by
  induction insts generalizing k branches with
  | nil => rfl
  | cons inst insts ih =>
    cases inst with
    | cond c => exact ih _ _
    | els =>
      match branches with
      | [] => rfl
      | true :: branches => rfl
      | false :: branches => exact ih _ _
    | dedent =>
      match branches with
      | [] => rfl
      | b :: branches => exact ih _ _
    | str s => exact ih _ _
    | mark => exact ih _ _

theorem outsideElse_number (chunkSize k emittedInChunk : ℕ) (insts : List (Inst C S))
    (branches : List Bool) :
    outsideElse chunkSize emittedInChunk branches (number k insts) =
      outsideElse chunkSize emittedInChunk branches insts := by
  induction insts generalizing k emittedInChunk branches with
  | nil => rfl
  | cons inst insts ih =>
    have elses : (inst.place k).elses branches = inst.elses branches := by cases inst <;> rfl
    rw [number, outsideElse, outsideElse, place_splits, place_emitted, elses, ih, ih]

theorem place_run {k : ℕ} {inst : Inst C S} {opened : List (C × Bool)} {p : ℕ × S}
    (mem : p ∈ (inst.place k).run ρ opened) : p.1 = k := by
  cases inst with
  | str s =>
    simp only [Inst.place, Inst.run] at mem
    split at mem
    · rw [List.mem_singleton.mp mem]
    · cases mem
  | cond c => cases mem
  | els => cases mem
  | dedent => cases mem
  | mark => cases mem

/-- A statement comes with its place. -/
theorem le_of_mem_traceFrom {chunkSize k : ℕ} {insts : List (Inst C S)} {emittedInChunk : ℕ}
    {opened : List (C × Bool)} {p : ℕ × S}
    (mem : p ∈ traceFrom ρ chunkSize emittedInChunk opened (number k insts)) : k ≤ p.1 := by
  induction insts generalizing k emittedInChunk opened with
  | nil => cases mem
  | cons inst insts ih =>
    rw [number, traceFrom] at mem
    split at mem
    · rcases List.mem_append.mp mem with here | later
      · exact (place_run here).ge
      · exact (Nat.le_succ k).trans (ih later)
    · rcases List.mem_append.mp mem with here | later
      · exact (place_run here).ge
      · exact (Nat.le_succ k).trans (ih later)

omit ρ in
/-- What is at one place and what comes later are told apart. -/
theorem append_eq_append {k : ℕ} {here here' later later' : List (ℕ × S)}
    (at_ : ∀ p ∈ here, p.1 = k) (at' : ∀ p ∈ here', p.1 = k) (after : ∀ p ∈ later, k < p.1)
    (after' : ∀ p ∈ later', k < p.1) (eq : here ++ later = here' ++ later') :
    here = here' ∧ later = later' := by
  have select : ∀ here later : List (ℕ × S), (∀ p ∈ here, p.1 = k) → (∀ p ∈ later, k < p.1) →
      (here ++ later).filter (fun p => p.1 = k) = here := by
    intro here later at_ after
    rw [List.filter_append, List.filter_eq_self.mpr (by simpa using at_),
      List.filter_eq_nil_iff.mpr, List.append_nil]
    intro p hp
    simpa using (after p hp).ne'
  have same : here = here' := by
    rw [← select here later at_ after, eq, select here' later' at' after']
  subst same
  exact ⟨rfl, List.append_cancel_left eq⟩

/-- An `else` branch and what it is reopened as are not taken together for all values, whatever
    guards the body. -/
theorem exists_taken_ne (reset : C) {opened : List (C × Bool)}
    (other : (opened.map Prod.snd).any id = true) :
    ∃ ρ : C → Bool, ρ reset = true ∧ taken ρ (reopened opened) ≠ taken ρ opened := by
  by_cases possible : ∃ ρ : C → Bool, ρ reset = true ∧ taken ρ opened = true
  · obtain ⟨ρ, guard, on⟩ := possible
    refine ⟨ρ, guard, ?_⟩
    rw [on]
    intro both
    obtain ⟨b, side, hb⟩ := List.any_eq_true.mp other
    obtain ⟨branch, mem, rfl⟩ := List.mem_map.mp side
    have off : (ρ branch.1 != branch.2) = true := List.all_eq_true.mp on branch mem
    have on' : (ρ branch.1 != false) = true :=
      List.all_eq_true.mp both (branch.1, false) (List.mem_map.mpr ⟨branch, mem, rfl⟩)
    rw [id_eq] at hb
    rw [hb] at off
    cases val : ρ branch.1 <;> simp [val] at off on'
  · refine ⟨fun _ => true, rfl, ?_⟩
    have off : taken (fun _ => true) opened = false := by
      by_contra on
      exact possible ⟨_, rfl, by simpa using on⟩
    have on : taken (fun _ => true) (reopened opened) = true := by
      simp [taken, reopened]
    rw [on, off]
    exact Bool.noConfusion

omit ρ in
theorem branches_fst {inst : Inst C S} {shown opened : List (C × Bool)}
    (same : shown.map Prod.fst = opened.map Prod.fst) :
    (inst.branches shown).map Prod.fst = (inst.branches opened).map Prod.fst := by
  rw [← openIfs_fst, same, openIfs_fst]

omit ρ in
/-- A chunk that starts inside of an `else` branch shows for some values of the conditions. -/
theorem exists_traceFrom_ne (chunkSize : ℕ) (reset : C) {insts : List (Inst C S)} (plain : .mark ∉ insts)
    {opened shown : List (C × Bool)} (same : shown.map Prod.fst = opened.map Prod.fst)
    (bracketed : wellBracketed (opened.map Prod.snd) insts = true) {emittedInChunk : ℕ}
    (inside : outsideElse chunkSize emittedInChunk (opened.map Prod.snd) insts = false)
    (emittedInAll k : ℕ) :
    ∃ ρ : C → Bool, ρ reset = true ∧
      traceFrom ρ chunkSize emittedInChunk shown (number k insts) ≠
        traceFrom ρ 0 emittedInAll opened (number k insts) := by
  induction insts generalizing opened shown emittedInChunk emittedInAll k with
  | nil => cases inside
  | cons inst insts ih =>
    have plain' : .mark ∉ insts := fun mem => plain (List.mem_cons_of_mem _ mem)
    have tail := wellBracketed_tail bracketed
    rw [outsideElse, ← branches_snd bracketed] at inside
    rw [← branches_snd bracketed] at tail
    simp only [number, traceFrom_zero_cons, traceFrom, place_splits, place_emitted, place_branches]
    by_cases split : inst.splits chunkSize emittedInChunk = true
    · have fst : (reopened shown).map Prod.fst = opened.map Prod.fst := by
        rw [← same]
        simp [reopened]
      simp only [if_pos split]
      rw [if_pos split, Bool.and_eq_false_iff, Bool.not_eq_false'] at inside
      rcases inside with other | later
      · obtain ⟨ρ, guard, ne⟩ := exists_taken_ne reset other
        have shown_eq : reopened shown = reopened opened := by
          have map : ∀ l : List (C × Bool), reopened l = (l.map Prod.fst).map fun c => (c, false) := by
            intro l
            simp [reopened]
          rw [map, map, same]
        refine ⟨ρ, guard, fun eq => ne ?_⟩
        have heads := (append_eq_append (fun _ => place_run) (fun _ => place_run)
          (fun _ mem => le_of_mem_traceFrom mem) (fun _ mem => le_of_mem_traceFrom mem) eq).1
        cases inst with
        | str s =>
          rw [shown_eq] at heads
          simp only [Inst.place, Inst.run] at heads
          cases on : taken ρ (reopened opened) <;> cases on' : taken ρ opened <;>
            simp [on, on'] at heads ⊢
        | cond c => cases split
        | els => cases split
        | dedent => cases split
        | mark => exact absurd List.mem_cons_self plain
      · obtain ⟨ρ, guard, ne⟩ := ih plain' (branches_fst fst) tail later (emittedInAll + inst.emitted) (k + 1)
        refine ⟨ρ, guard, fun eq => ne ?_⟩
        exact (append_eq_append (fun _ => place_run) (fun _ => place_run)
          (fun _ mem => le_of_mem_traceFrom mem) (fun _ mem => le_of_mem_traceFrom mem) eq).2
    · rw [if_neg split] at inside
      simp only [if_neg split]
      obtain ⟨ρ, guard, ne⟩ := ih plain' (branches_fst same) tail inside (emittedInAll + inst.emitted) (k + 1)
      refine ⟨ρ, guard, fun eq => ne ?_⟩
      exact (append_eq_append (fun _ => place_run) (fun _ => place_run)
        (fun _ mem => le_of_mem_traceFrom mem) (fun _ mem => le_of_mem_traceFrom mem) eq).2

end Trace

/-! ## Braces -/

theorem depth_append (lines rest : List (Line C S)) (d : ℕ) :
    depth (lines ++ rest) d = (depth lines d).bind (depth rest) := by
  induction lines generalizing d with
  | nil => rfl
  | cons line lines ih =>
    cases line <;> simp only [List.cons_append, depth, ih]
    · split <;> rfl
    · split <;> rfl

theorem depth_opens (conds : List C) (d : ℕ) :
    depth (conds.map Line.ifOpen : List (Line C S)) d = some (d + conds.length) := by
  induction conds generalizing d with
  | nil => rfl
  | cons c conds ih =>
    rw [List.map_cons, depth, ih, List.length_cons]
    congr 1
    omega

theorem depth_closes {α : Type} (opened : List α) (d : ℕ) :
    depth (opened.map fun _ => .close : List (Line C S)) (opened.length + d) = some d := by
  induction opened with
  | nil => simp [depth]
  | cons c opened ih =>
    have inner : (c :: opened).length + d - 1 = opened.length + d := by
      rw [List.length_cons]
      omega
    rw [List.map_cons, depth, if_neg (by rw [List.length_cons]; omega), inner, ih]

/-- A line of the stream on the depth. -/
theorem depth_inst {branches : List Bool} {inst : Inst C S} {insts : List (Inst C S)}
    (bracketed : wellBracketed branches (inst :: insts) = true) {opened : List C}
    (same : branches.length = opened.length) (d : ℕ) :
    depth inst.lines (opened.length + d) = some ((inst.openIfs opened).length + d) := by
  cases inst with
  | cond c =>
    simp only [Inst.lines, Inst.openIfs, depth, List.length_cons]
    congr 1
    omega
  | els =>
    have pos : opened.length ≠ 0 := by
      rw [← same]
      intro none
      cases List.length_eq_zero_iff.mp none
      cases bracketed
    simp [Inst.lines, Inst.openIfs, depth, pos]
  | dedent =>
    have pos : opened.length ≠ 0 := by
      rw [← same]
      intro none
      cases List.length_eq_zero_iff.mp none
      cases bracketed
    have tail : opened.length + d - 1 = opened.length - 1 + d := by omega
    simp [Inst.lines, Inst.openIfs, depth, pos, tail]
  | str s => rfl
  | mark => rfl

theorem length_openIfs {branches : List Bool} {inst : Inst C S} {insts : List (Inst C S)}
    (bracketed : wellBracketed branches (inst :: insts) = true) {opened : List C}
    (same : branches.length = opened.length) :
    (inst.elses branches).length = (inst.openIfs opened).length := by
  cases inst with
  | els =>
    match branches, bracketed with
    | false :: branches, _ => exact same
  | cond c => simp [Inst.elses, Inst.openIfs, same]
  | dedent => simp [Inst.elses, Inst.openIfs, same]
  | str s => exact same
  | mark => exact same

/-- The braces that are open around the body: one for the guard of the parent. -/
def guards (emitActivation : Bool) (chunkIdx : ℕ) : ℕ := if chunkIdx = 0 ∧ ¬ emitActivation then 1 else 0

theorem closeFunc_eq (emitActivation : Bool) (chunkIdx : ℕ) :
    ∃ closes : List (Line C S), closeFunc emitActivation chunkIdx = closes ++ [.close] ∧
      depth closes (guards emitActivation chunkIdx) = some 0 := by
  unfold closeFunc guards
  split
  · exact ⟨[.close], rfl, rfl⟩
  · exact ⟨[], rfl, rfl⟩

/-- What is printed into the current function closes all that is open there, and the functions
    after it are balanced. -/
theorem balanced_emitInsts (emitActivation : Bool) (chunkSize : ℕ) {insts : List (Inst C S)}
    {branches : List Bool} (bracketed : wellBracketed branches insts = true) {opened : List C}
    (same : branches.length = opened.length) (emittedInChunk chunkIdx : ℕ) :
    let emit := emitInsts emitActivation chunkSize opened emittedInChunk chunkIdx insts
    (∃ body, emit.1 = body ++ [.close] ∧
      depth body (opened.length + guards emitActivation chunkIdx) = some 0) ∧
    ∀ func ∈ emit.2, Balanced func := by
  induction insts generalizing branches opened emittedInChunk chunkIdx with
  | nil =>
    have none : branches = [] := by simpa [wellBracketed] using bracketed
    subst none
    cases List.length_eq_zero_iff.mp same.symm
    obtain ⟨closes, eq, shut⟩ := closeFunc_eq (C := C) (S := S) emitActivation chunkIdx
    refine ⟨⟨closes, ?_, by simpa using shut⟩, by simp [emitInsts]⟩
    simp [emitInsts, eq]
  | cons inst insts ih =>
    have tail := wellBracketed_tail bracketed
    have length := length_openIfs bracketed same
    by_cases split : inst.splits chunkSize emittedInChunk = true
    · simp only [emitInsts, if_pos split]
      obtain ⟨⟨body, eq, shut⟩, rest⟩ := ih tail length inst.emitted (chunkIdx + 1)
      have inChunk : guards emitActivation (chunkIdx + 1) = 0 := if_neg (by simp)
      rw [inChunk, Nat.add_zero] at shut
      constructor
      · obtain ⟨closes, eq', shut'⟩ := closeFunc_eq (C := C) (S := S) emitActivation chunkIdx
        refine ⟨(opened.map fun _ => .close) ++ .call (chunkIdx + 1) :: closes, ?_, ?_⟩
        · rw [eq', List.append_assoc, List.cons_append]
        · rw [depth_append, depth_closes, Option.bind_some, depth, shut']
      · intro func mem
        rcases List.mem_cons.mp mem with rfl | later
        · refine ⟨opened.reverse.map .ifOpen ++ inst.lines ++ body, ?_, ?_⟩
          · rw [eq]
            simp only [List.cons_append, List.append_assoc]
          · have lines := depth_inst bracketed same 0
            rw [Nat.add_zero, Nat.add_zero] at lines
            rw [depth_append, depth_append, depth_opens, Option.bind_some, Nat.zero_add,
              List.length_reverse, lines, Option.bind_some, shut]
        · exact rest func later
    · simp only [emitInsts, if_neg split]
      obtain ⟨⟨body, eq, shut⟩, rest⟩ := ih tail length (emittedInChunk + inst.emitted) chunkIdx
      refine ⟨⟨inst.lines ++ body, by rw [eq, List.append_assoc], ?_⟩, rest⟩
      rw [depth_append, depth_inst bracketed same, Option.bind_some, shut]

theorem balanced_genResetDef (emitActivation : Bool) (chunkSize : ℕ) (reset : C)
    {insts : List (Inst C S)} (bracketed : wellBracketed [] insts = true) :
    ∀ func ∈ genResetDef emitActivation chunkSize reset insts, Balanced func := by
  have empty : ([] : List Bool).length = ([] : List C).length := rfl
  obtain ⟨⟨body, eq, shut⟩, rest⟩ := balanced_emitInsts emitActivation chunkSize bracketed empty 0 0
  intro func mem
  rcases List.mem_cons.mp mem with rfl | later
  · rw [eq]
    cases emitActivation with
    | true => exact ⟨[.ifOpen reset, .activate, .close] ++ body, rfl, by simpa [depth, guards] using shut⟩
    | false => exact ⟨.ifOpen reset :: body, rfl, by simpa [depth, guards] using shut⟩
  · exact rest func later

/-! ## Chunks and the one function -/

section RunsAlike

variable {emitActivation : Bool} {chunkSize : ℕ} {reset : C} {insts : List (Inst C S)}

theorem runsAlike_of_outsideElse (bracketed : wellBracketed [] insts = true)
    (outside : outsideElse chunkSize 0 [] insts = true) :
    RunsAlike emitActivation chunkSize reset insts := by
  have bracketed' : wellBracketed (([] : List (C × Bool)).map Prod.snd) (number 0 insts) = true := by
    rw [wellBracketed_number, List.map_nil, bracketed]
  have outside' : outsideElse chunkSize 0 (([] : List (C × Bool)).map Prod.snd) (number 0 insts) = true := by
    rw [outsideElse_number, List.map_nil, outside]
  refine ⟨fun ρ => ?_, balanced_genResetDef _ _ _ bracketed'⟩
  rw [runFuncs_genResetDef _ _ _ bracketed', runFuncs_genResetDef _ _ _ bracketed',
    traceFrom_outsideElse _ bracketed' outside' 0]

theorem not_runsAlike_of_insideElse (bracketed : wellBracketed [] insts = true)
    (plain : .mark ∉ insts) (inside : outsideElse chunkSize 0 [] insts = false) :
    ¬ RunsAlike emitActivation chunkSize reset insts := by
  intro alike
  have bracketed' : wellBracketed [] (number 0 insts) = true := by
    rw [wellBracketed_number, bracketed]
  have start : ([] : List (C × Bool)).map Prod.fst = ([] : List (C × Bool)).map Prod.fst := rfl
  obtain ⟨ρ, guard, ne⟩ := exists_traceFrom_ne chunkSize reset plain start bracketed inside 0 0
  have same := alike.1 ρ
  rw [runFuncs_genResetDef _ _ _ bracketed', runFuncs_genResetDef _ _ _ bracketed',
    if_pos (.inr guard), if_pos (.inr guard)] at same
  exact ne same

end RunsAlike

/-- An `else` branch that does not fit into a chunk of 256: what is left of it runs where the
    first branch is taken. -/
theorem not_runsAlike_elseBranch :
    let insts : List (Inst String String) :=
      [.cond "sel", .str "a = 0;", .els] ++ List.replicate 300 (.str "b = 0;") ++ [.dedent]
    wellBracketed [] insts = true ∧ .mark ∉ insts ∧ mtResetChunkSize (some 256) = 256 ∧
      ¬ RunsAlike true (mtResetChunkSize (some 256)) "reset" insts := by
  intro insts
  have bracketed : wellBracketed [] insts = true := by decide +kernel
  have plain : .mark ∉ insts := by decide +kernel
  have inside : outsideElse 256 0 [] insts = false := by decide +kernel
  exact ⟨bracketed, plain, rfl, not_runsAlike_of_insideElse bracketed plain inside⟩

end Gsim.ResetChunks
