/-
  Gsim/BranchStreams.lean
  =======================
  **Streams of actions under branches, and what may be left out of them.**

  A stream holds actions and the lines that open, turn and close a branch; it is run
  with a stack of the branches that are open.  Every line has a mark that says whether
  it is kept.  If no action that is kept stands in a branch that is left out, branches
  are left out as a whole and only hidden actions are, then what is kept stands under
  the conditions it had (`guarded_kept`), and the two streams lead from related states
  to related states (`exec_kept`), where hidden actions keep the relation on either
  side alone.
-/
import Mathlib.Tactic

namespace BranchStreams

inductive Inst (C A : Type*) where
  | ifBeg (cond : C)
  | ifElse
  | ifEnd
  | act (a : A)

variable {C A σ : Type*}

/-- The other branch of the innermost condition. -/
def turn : List (C × Bool) → List (C × Bool)
  | [] => []
  | (c, b) :: guards => (c, !b) :: guards

/-- Every action with the conditions it stands under, the innermost first. -/
def guarded : List (C × Bool) → List (Inst C A) → List (List (C × Bool) × A)
  | _, [] => []
  | guards, .ifBeg c :: insts => guarded ((c, true) :: guards) insts
  | guards, .ifElse :: insts => guarded (turn guards) insts
  | guards, .ifEnd :: insts => guarded guards.tail insts
  | guards, .act a :: insts => (guards, a) :: guarded guards insts

/-! ## Leaving lines out -/

/-- The lines that are kept. -/
def kept (insts : List (Inst C A × Bool)) : List (Inst C A) := (insts.filter (·.2)).map (·.1)

/-- The marks of the actions, taken into the actions. -/
def marked : List (Inst C A × Bool) → List (Inst C (A × Bool)) :=
  List.map fun p =>
    match p.1 with
    | .ifBeg c => .ifBeg c
    | .ifElse => .ifElse
    | .ifEnd => .ifEnd
    | .act a => .act (a, p.2)

/-- A branch is left out as a whole, and only hidden actions are; `blocks` says which of the
open branches are kept. -/
def Clean (hidden : A → Prop) : List Bool → List (Inst C A × Bool) → Prop
  | _, [] => True
  | blocks, (.ifBeg _, k) :: insts => Clean hidden (k :: blocks) insts
  | blocks, (.ifElse, k) :: insts => blocks.head? = some k ∧ Clean hidden blocks insts
  | blocks, (.ifEnd, k) :: insts => blocks.head? = some k ∧ Clean hidden blocks.tail insts
  | blocks, (.act a, k) :: insts =>
      (k = true → ∀ b ∈ blocks, b = true) ∧ (k = false → hidden a) ∧ Clean hidden blocks insts

/-- Actions that are not hidden stand under plain conditions only. -/
def Plain (hidden : A → Prop) (plain : C → Prop) : List C → List (Inst C A) → Prop
  | _, [] => True
  | conds, .ifBeg c :: insts => Plain hidden plain (c :: conds) insts
  | conds, .ifElse :: insts => Plain hidden plain conds insts
  | conds, .ifEnd :: insts => Plain hidden plain conds.tail insts
  | conds, .act a :: insts => (¬ hidden a → ∀ c ∈ conds, plain c) ∧ Plain hidden plain conds insts

theorem kept_cons (i : Inst C A) (k : Bool) (insts : List (Inst C A × Bool)) :
    kept ((i, k) :: insts) = if k then i :: kept insts else kept insts := by
  cases k <;> rfl

/-- Keeping all lines is clean, if the branches are paired. -/
theorem Clean.all {hidden hidden' : A → Prop} {insts : List (Inst C A)} {blocks : List Bool}
    (paired : Clean hidden blocks (insts.map fun inst => (inst, true))) :
    Clean hidden' blocks (insts.map fun inst => (inst, true)) := by
  induction insts generalizing blocks with
  | nil => trivial
  | cons i insts ih =>
    cases i with
    | ifBeg c => exact ih paired
    | ifElse => exact ⟨paired.1, ih paired.2⟩
    | ifEnd => exact ⟨paired.1, ih paired.2⟩
    | act a => exact ⟨paired.1, fun no => absurd no (by simp), ih paired.2.2⟩

/-- What is kept stands under the conditions it had. -/
theorem guarded_kept {hidden : A → Prop} (insts : List (Inst C A × Bool))
    (blocks : List ((C × Bool) × Bool)) (clean : Clean hidden (blocks.map (·.2)) insts) :
    guarded ((blocks.filter (·.2)).map (·.1)) (kept insts) =
      ((guarded (blocks.map (·.1)) (marked insts)).filter (·.2.2)).map fun p => (p.1, p.2.1) := by
  induction insts generalizing blocks with
  | nil => rfl
  | cons head insts ih =>
    obtain ⟨i, k⟩ := head
    rw [kept_cons]
    cases i with
    | ifBeg c =>
      have := ih (((c, true), k) :: blocks) clean
      cases k <;> exact this
    | ifElse =>
      obtain ⟨top, clean⟩ := clean
      obtain ⟨⟨g, k'⟩, rest, rfl⟩ : ∃ b rest, blocks = b :: rest := by
        cases blocks with
        | nil => cases top
        | cons b rest => exact ⟨b, rest, rfl⟩
      obtain rfl : k' = k := by simpa using top
      have := ih (((g.1, !g.2), k') :: rest) clean
      cases k' <;> exact this
    | ifEnd =>
      obtain ⟨top, clean⟩ := clean
      obtain ⟨⟨g, k'⟩, rest, rfl⟩ : ∃ b rest, blocks = b :: rest := by
        cases blocks with
        | nil => cases top
        | cons b rest => exact ⟨b, rest, rfl⟩
      obtain rfl : k' = k := by simpa using top
      have := ih rest clean
      cases k' <;> exact this
    | act a =>
      obtain ⟨inside, -, clean⟩ := clean
      have rest := ih blocks clean
      cases k with
      | false => exact rest
      | true =>
        have all : blocks.filter (·.2) = blocks :=
          List.filter_eq_self.mpr fun b hb => inside rfl b.2 (List.mem_map_of_mem hb)
        rw [all] at rest
        rw [if_pos rfl, all]
        exact congrArg _ rest

/-! ## Running a stream -/

section Execution

variable (eval : C → σ → Bool) (run : A → σ → σ)

/-- The stack says of every open branch whether it is taken. -/
def step (st : σ × List Bool) : Inst C A → σ × List Bool
  | .ifBeg c => (st.1, eval c st.1 :: st.2)
  | .ifElse =>
      match st.2 with
      | [] => st
      | b :: stack => (st.1, (!b) :: stack)
  | .ifEnd => (st.1, st.2.tail)
  | .act a => if st.2.all id then (run a st.1, st.2) else st

def exec (insts : List (Inst C A)) (st : σ × List Bool) : σ × List Bool := insts.foldl (step eval run) st

theorem exec_act (a : A) (insts : List (Inst C A)) (s : σ) (stack : List Bool) :
    exec eval run (.act a :: insts) (s, stack) =
      exec eval run insts (if stack.all id then run a s else s, stack) := by
  simp only [exec, List.foldl_cons, step]
  split <;> rfl

variable {eval run} {R : σ → σ → Prop} {hidden : A → Prop} {plain : C → Prop}

/-- What every action of a stream keeps, the stream keeps. -/
theorem exec_invariant {P : σ → Prop} (insts : List (Inst C A)) (keeps : ∀ a, .act a ∈ insts → ∀ s, P s → P (run a s))
    {st : σ × List Bool} (holds : P st.1) : P (exec eval run insts st).1 := by
  induction insts generalizing st with
  | nil => exact holds
  | cons i insts ih =>
    refine ih (fun a ha => keeps a (List.mem_cons_of_mem _ ha)) ?_
    cases i with
    | ifBeg c => exact holds
    | ifElse =>
      simp only [step]
      split
      · exact holds
      · exact holds
    | ifEnd => exact holds
    | act a =>
      simp only [step]
      split
      · exact keeps a List.mem_cons_self _ holds
      · exact holds

/-- The stacks of the whole stream and of what is kept. -/
inductive Stacks (plain : C → Prop) : List (C × Bool) → List Bool → List Bool → Prop
  | nil : Stacks plain [] [] []
  | out {c b blocks whole part} : Stacks plain blocks whole part → Stacks plain ((c, false) :: blocks) (b :: whole) part
  | kept {c b b' blocks whole part} : Stacks plain blocks whole part → (plain c → b = b') →
      Stacks plain ((c, true) :: blocks) (b :: whole) (b' :: part)

theorem Stacks.eq {blocks : List (C × Bool)} {whole part : List Bool} (aligned : Stacks plain blocks whole part)
    (all : ∀ b ∈ blocks, b.2 = true) (conds : ∀ b ∈ blocks, plain b.1) : whole = part := by
  induction aligned with
  | nil => rfl
  | out _ _ => exact absurd (all _ List.mem_cons_self) Bool.false_ne_true
  | kept _ agree ih =>
    rw [agree (conds _ List.mem_cons_self), ih (fun b hb => all b (List.mem_cons_of_mem _ hb))
      fun b hb => conds b (List.mem_cons_of_mem _ hb)]

/-- The whole stream and what is kept of it lead to related states. -/
theorem exec_kept (insts : List (Inst C A × Bool))
    (quiet : ∀ a, hidden a → ∀ s s', R s s' → R (run a s) s' ∧ R s (run a s'))
    (steady : ∀ a, .act a ∈ insts.map (·.1) → ¬ hidden a → ∀ s s', R s s' → R (run a s) (run a s'))
    (decides : ∀ c, plain c → ∀ s s', R s s' → eval c s = eval c s')
    {blocks : List (C × Bool)} {whole part : List Bool} (aligned : Stacks plain blocks whole part)
    (clean : Clean hidden (blocks.map (·.2)) insts)
    (conds : Plain hidden plain (blocks.map (·.1)) (insts.map (·.1))) {s s' : σ} (rel : R s s') :
    R (exec eval run (insts.map (·.1)) (s, whole)).1 (exec eval run (kept insts) (s', part)).1 := by
  induction insts generalizing blocks whole part s s' with
  | nil => exact rel
  | cons head insts ih =>
    obtain ⟨i, k⟩ := head
    have steady' : ∀ a, .act a ∈ insts.map (·.1) → ¬ hidden a → ∀ s s', R s s' → R (run a s) (run a s') :=
      fun a ha => steady a (List.mem_cons_of_mem _ ha)
    rw [kept_cons]
    cases i with
    | ifBeg c =>
      cases k with
      | false =>
        have aligned' : Stacks plain ((c, false) :: blocks) (eval c s :: whole) part := .out aligned
        exact ih steady' aligned' clean conds rel
      | true =>
        have aligned' : Stacks plain ((c, true) :: blocks) (eval c s :: whole) (eval c s' :: part) :=
          .kept aligned fun isPlain => decides c isPlain s s' rel
        exact ih steady' aligned' clean conds rel
    | ifElse =>
      obtain ⟨top, clean⟩ := clean
      cases aligned with
      | nil => cases top
      | out aligned =>
        obtain rfl : false = k := by simpa using top
        exact ih steady' (.out aligned) clean conds rel
      | kept aligned agree =>
        obtain rfl : true = k := by simpa using top
        exact ih steady' (.kept aligned fun isPlain => congrArg _ (agree isPlain)) clean conds rel
    | ifEnd =>
      obtain ⟨top, clean⟩ := clean
      cases aligned with
      | nil => cases top
      | out aligned =>
        obtain rfl : false = k := by simpa using top
        exact ih steady' aligned clean conds rel
      | kept aligned agree =>
        obtain rfl : true = k := by simpa using top
        exact ih steady' aligned clean conds rel
    | act a =>
      obtain ⟨inside, leaves, clean⟩ := clean
      obtain ⟨underPlain, conds⟩ := conds
      by_cases isHidden : hidden a
      · -- on either side the action may run or not
        have left : R (if whole.all id then run a s else s) s' := by
          split
          · exact (quiet a isHidden s s' rel).1
          · exact rel
        have right : ∀ t, R t s' → R t (if part.all id then run a s' else s') := by
          intro t rel
          split
          · exact (quiet a isHidden t s' rel).2
          · exact rel
        cases k with
        | false =>
          rw [List.map_cons, exec_act]
          exact ih steady' aligned clean conds left
        | true =>
          rw [List.map_cons, exec_act, if_pos rfl, exec_act]
          exact ih steady' aligned clean conds (right _ left)
      · have isKept : k = true := by
          cases k with
          | false => exact absurd (leaves rfl) isHidden
          | true => rfl
        subst isKept
        have same : whole = part := aligned.eq
          (fun b hb => inside rfl b.2 (List.mem_map_of_mem hb)) fun b hb => underPlain isHidden b.1 (List.mem_map_of_mem hb)
        have both : R (if whole.all id then run a s else s) (if part.all id then run a s' else s') := by
          rw [same]
          split
          · exact steady a List.mem_cons_self isHidden s s' rel
          · exact rel
        rw [List.map_cons, exec_act, if_pos rfl, exec_act]
        exact ih steady' aligned clean conds both

end Execution

end BranchStreams
