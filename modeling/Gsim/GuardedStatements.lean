/-
  Gsim/GuardedStatements.lean
  ===========================
  **Trees of guarded assignments**, over any leaves and guards.

  A block is a list of statements; a statement is an assignment, a run of
  assignments, or a two-way branch on a guard over two blocks.  A *position path*
  limits how early something may be inserted; `beyond p S` are the items of `S` that
  lie after the path `p`.  Over a `Language`, in which every leaf writes one cell and
  reads some, an assignment moves past everything it is independent of.
-/
import Mathlib.Data.List.Basic
import Mathlib.Data.List.Lex
import Mathlib.Order.Basic

namespace GuardedStatements

/-! ## Statements -/

inductive Stmt (L C : Type)
  | node (a : L)
  | seq (as : List L)
  | when (c : C) (t f : List (Stmt L C))

/-- What a statement executes: assignments and tests. -/
inductive Item (L C : Type)
  | act (a : L)
  | test (c : C)

variable {L C : Type}

mutual
def Stmt.items : Stmt L C → List (Item L C)
  | .node a => [.act a]
  | .seq as => as.map .act
  | .when c t f => .test c :: (items t ++ items f)

def items : List (Stmt L C) → List (Item L C)
  | [] => []
  | x :: S => x.items ++ items S
end

/-- Induction over blocks, one case for each kind of the first statement. -/
@[elab_as_elim]
theorem block_induction {motive : List (Stmt L C) → Prop} (nil : motive [])
    (node : ∀ a S, motive S → motive (.node a :: S))
    (seq : ∀ as S, motive S → motive (.seq as :: S))
    (when : ∀ c t f S, motive t → motive f → motive S → motive (.when c t f :: S))
    (S : List (Stmt L C)) : motive S := by
  refine @Stmt.rec_1 L C (fun x => ∀ S, motive S → motive (x :: S)) motive ?_ ?_ ?_ nil ?_ S
  · exact node
  · exact seq
  · intro c t f ht hf S hS
    exact when c t f S ht hf hS
  · intro x S hx hS
    exact hx S hS

@[simp] theorem items_nil : items ([] : List (Stmt L C)) = [] := rfl

@[simp] theorem items_cons (x : Stmt L C) (S : List (Stmt L C)) :
    items (x :: S) = x.items ++ items S := rfl

@[simp] theorem items_append (S T : List (Stmt L C)) : items (S ++ T) = items S ++ items T := by
  induction S with
  | nil => rfl
  | cons x S ih => simp [ih, List.append_assoc]

@[simp] theorem Stmt.items_node (a : L) : (Stmt.node a : Stmt L C).items = [.act a] := rfl

@[simp] theorem Stmt.items_seq (as : List L) :
    (Stmt.seq as : Stmt L C).items = as.map Item.act := rfl

@[simp] theorem Stmt.items_when (c : C) (t f : List (Stmt L C)) :
    (Stmt.when c t f).items = .test c :: (GuardedStatements.items t ++ GuardedStatements.items f) :=
  rfl

/-- A block with some statements left out has no new items. -/
theorem items_sublist {S T : List (Stmt L C)} (h : S.Sublist T) {y : Item L C}
    (hy : y ∈ items S) : y ∈ items T := by
  induction h with
  | slnil => exact hy
  | cons x _ ih => exact List.mem_append_right _ (ih hy)
  | cons_cons x _ ih =>
    rcases List.mem_append.mp hy with hy | hy
    · exact List.mem_append_left _ hy
    · exact List.mem_append_right _ (ih hy)

/-! ## Execution -/

structure Meaning (L C S : Type*) where
  run : L → S → S
  holds : C → S → Bool

variable {State : Type*}

mutual
def Stmt.exec (M : Meaning L C State) : Stmt L C → State → State
  | .node a, s => M.run a s
  | .seq as, s => as.foldl (fun s a => M.run a s) s
  | .when c t f, s => if M.holds c s then exec M t s else exec M f s

def exec (M : Meaning L C State) : List (Stmt L C) → State → State
  | [], s => s
  | x :: S, s => exec M S (x.exec M s)
end

section Execution

variable (M : Meaning L C State)

@[simp] theorem exec_nil (s : State) : exec M ([] : List (Stmt L C)) s = s := rfl

@[simp] theorem exec_cons (x : Stmt L C) (S : List (Stmt L C)) (s : State) :
    exec M (x :: S) s = exec M S (x.exec M s) := rfl

@[simp] theorem exec_append (S T : List (Stmt L C)) (s : State) :
    exec M (S ++ T) s = exec M T (exec M S s) := by
  induction S generalizing s with
  | nil => rfl
  | cons x S ih => exact ih (x.exec M s)

@[simp] theorem Stmt.exec_node (a : L) (s : State) :
    (Stmt.node a : Stmt L C).exec M s = M.run a s := rfl

@[simp] theorem Stmt.exec_seq (as : List L) (s : State) :
    (Stmt.seq as : Stmt L C).exec M s = as.foldl (fun s a => M.run a s) s := rfl

@[simp] theorem Stmt.exec_when (c : C) (t f : List (Stmt L C)) (s : State) :
    (Stmt.when c t f).exec M s =
      if M.holds c s then GuardedStatements.exec M t s else GuardedStatements.exec M f s := rfl

/-- What every assignment of a block preserves, the block preserves. -/
theorem exec_preserves {P : State → Prop} (S : List (Stmt L C))
    (step : ∀ a, Item.act a ∈ items S → ∀ s, P s → P (M.run a s)) {s : State} (h : P s) :
    P (exec M S s) := by
  induction S using block_induction generalizing s with
  | nil => exact h
  | node a S ih =>
    apply ih (fun b hb => step b (List.mem_append_right _ hb))
    exact step a (by simp) s h
  | seq as S ih =>
    apply ih (fun b hb => step b (List.mem_append_right _ hb))
    have along : ∀ a ∈ as, ∀ s, P s → P (M.run a s) := by
      intro a ha s hs
      exact step a (by simp [ha]) s hs
    clear step ih
    induction as generalizing s with
    | nil => exact h
    | cons a as ih =>
      exact ih (along a List.mem_cons_self s h) (fun b hb => along b (List.mem_cons_of_mem _ hb))
  | when c t f S iht ihf ih =>
    apply ih (fun b hb => step b (List.mem_append_right _ hb))
    rw [Stmt.exec_when]
    split
    · exact iht (fun b hb => step b (by simp [hb])) h
    · exact ihf (fun b hb => step b (by simp [hb])) h

end Execution

/-! ## Guarded trees -/

/-- An assignment under nested guards; `absent` is a branch that is not there. -/
inductive Tree (L C : Type)
  | absent
  | leaf (a : L)
  | when (c : C) (t f : Tree L C)

namespace Tree

def items : Tree L C → List (Item L C)
  | absent => []
  | leaf a => [.act a]
  | when c t f => .test c :: (t.items ++ f.items)

def exec (M : Meaning L C State) : Tree L C → State → State
  | absent, s => s
  | leaf a, s => M.run a s
  | when c t f, s => if M.holds c s then t.exec M s else f.exec M s

/-- The tree as a block of its own. -/
def toBlock : Tree L C → List (Stmt L C)
  | absent => []
  | leaf a => [.node a]
  | when c t f => [.when c t.toBlock f.toBlock]

@[simp] theorem exec_toBlock (M : Meaning L C State) (t : Tree L C) (s : State) :
    GuardedStatements.exec M t.toBlock s = t.exec M s := by
  induction t generalizing s with
  | absent => rfl
  | leaf a => rfl
  | «when» c t f iht ihf => simp [toBlock, exec, iht, ihf]

@[simp] theorem items_toBlock (t : Tree L C) : GuardedStatements.items t.toBlock = t.items := by
  induction t with
  | absent => rfl
  | leaf a => rfl
  | «when» c t f iht ihf => simp [toBlock, items, iht, ihf]

end Tree

/-! ## The items after a path -/

/-- Paths are ordered position by position, a path before its continuations. -/
theorem path_cons_le {k l : ℕ} {p q : List ℕ} :
    k :: p ≤ l :: q ↔ k < l ∨ (k = l ∧ p ≤ q) := by
  have lt : l :: q < k :: p ↔ l < k ∨ (l = k ∧ q < p) := List.cons_lt_cons_iff
  rw [← not_lt, lt, ← @not_lt _ _ q p]
  rcases Nat.lt_trichotomy k l with h | rfl | h
  · simp [h, Nat.not_lt.mpr h.le, h.ne']
  · simp
  · simp [h, Nat.not_lt.mpr h.le, h.ne']

theorem path_nil_le (p : List ℕ) : [] ≤ p := not_lt.mp (List.not_lt_nil p)

theorem path_not_cons_le_nil (k : ℕ) (p : List ℕ) : ¬ k :: p ≤ [] := by
  rw [not_le]
  exact List.nil_lt_cons k p

/-- The items of a block that lie after a path: those of the statements after the
first index, and of the statement at the index those after the rest of the path.  A
guard is tested before anything inside its branches. -/
def beyond : List ℕ → List (Stmt L C) → List (Item L C)
  | [], S => items S
  | k :: p, S =>
    (match S[k]? with
      | some (.when _ t f) => beyond p t ++ beyond p f
      | _ => []) ++ items (S.drop (k + 1))

def Stmt.beyond (p : List ℕ) : Stmt L C → List (Item L C)
  | .when _ t f => GuardedStatements.beyond p t ++ GuardedStatements.beyond p f
  | _ => []

@[simp] theorem beyond_nil_path (S : List (Stmt L C)) : beyond [] S = items S := rfl

@[simp] theorem beyond_empty (p : List ℕ) : beyond p ([] : List (Stmt L C)) = [] := by
  cases p <;> simp [beyond]

@[simp] theorem beyond_zero (p : List ℕ) (x : Stmt L C) (S : List (Stmt L C)) :
    beyond (0 :: p) (x :: S) = x.beyond p ++ items S := by
  cases x <;> simp [beyond, Stmt.beyond]

@[simp] theorem beyond_succ (k : ℕ) (p : List ℕ) (x : Stmt L C) (S : List (Stmt L C)) :
    beyond ((k + 1) :: p) (x :: S) = beyond (k :: p) S := by
  simp [beyond]

theorem beyond_subset_items (p : List ℕ) (S : List (Stmt L C)) : beyond p S ⊆ items S := by
  induction p generalizing S with
  | nil => exact List.Subset.refl _
  | cons k p ih =>
    have inside : ∀ x : Stmt L C, x.beyond p ⊆ x.items := by
      intro x
      cases x with
      | node a => exact List.nil_subset _
      | seq as => exact List.nil_subset _
      | «when» c t f =>
        intro y hy
        rcases List.mem_append.mp hy with hy | hy
        · exact List.mem_cons_of_mem _ (List.mem_append_left _ (ih t hy))
        · exact List.mem_cons_of_mem _ (List.mem_append_right _ (ih f hy))
    induction S generalizing k with
    | nil => simp
    | cons x S ihS =>
      cases k with
      | zero =>
        intro y hy
        rw [beyond_zero] at hy
        rcases List.mem_append.mp hy with hy | hy
        · exact List.mem_append_left _ (inside x hy)
        · exact List.mem_append_right _ hy
      | succ k =>
        intro y hy
        rw [beyond_succ] at hy
        exact List.mem_append_right _ (ihS k hy)

theorem Stmt.beyond_subset_items (p : List ℕ) (x : Stmt L C) : x.beyond p ⊆ x.items := by
  intro y hy
  have := GuardedStatements.beyond_subset_items (0 :: p) [x] (by simpa using hy)
  simpa using this

/-- The items after a path, by where the first index falls. -/
theorem mem_beyond_append {pre post : List (Stmt L C)} {x : Stmt L C} {k : ℕ} {p : List ℕ}
    {y : Item L C} :
    y ∈ beyond (k :: p) (pre ++ x :: post) ↔
      (k < pre.length ∧ (y ∈ beyond (k :: p) pre ∨ y ∈ x.items ∨ y ∈ items post)) ∨
      (k = pre.length ∧ (y ∈ x.beyond p ∨ y ∈ items post)) ∨
      (pre.length < k ∧ y ∈ beyond ((k - pre.length - 1) :: p) post) := by
  induction pre generalizing k with
  | nil =>
    cases k with
    | zero => simp
    | succ k => simp
  | cons z pre ih =>
    cases k with
    | zero => simp [or_assoc]
    | succ k =>
      rw [List.cons_append, beyond_succ, beyond_succ, ih]
      simp only [List.length_cons, Nat.add_lt_add_iff_right, Nat.add_right_cancel_iff,
        Nat.add_sub_add_right]

/-- A later path leaves fewer items. -/
theorem beyond_anti {p q : List ℕ} (h : p ≤ q) (S : List (Stmt L C)) :
    beyond q S ⊆ beyond p S := by
  induction p generalizing q S with
  | nil => exact beyond_subset_items q S
  | cons k p ih =>
    cases q with
    | nil => exact absurd h (path_not_cons_le_nil k p)
    | cons l q =>
      induction S generalizing k l with
      | nil => simp
      | cons x S ihS =>
        rcases path_cons_le.mp h with lt | ⟨rfl, le⟩
        · cases l with
          | zero => exact absurd lt (Nat.not_lt_zero k)
          | succ l =>
            rw [beyond_succ]
            cases k with
            | zero =>
              rw [beyond_zero]
              exact fun y hy => List.mem_append_right _ (beyond_subset_items _ _ hy)
            | succ k =>
              rw [beyond_succ]
              exact ihS k l (path_cons_le.mpr (Or.inl (Nat.lt_of_succ_lt_succ lt)))
        · cases k with
          | zero =>
            rw [beyond_zero, beyond_zero]
            apply List.append_subset.mpr
            refine ⟨fun y hy => List.mem_append_left _ ?_, List.subset_append_right _ _⟩
            cases x with
            | node a => exact hy
            | seq as => exact hy
            | «when» c t f =>
              rcases List.mem_append.mp hy with hy | hy
              · exact List.mem_append_left _ (ih le t hy)
              · exact List.mem_append_right _ (ih le f hy)
          | succ k =>
            rw [beyond_succ, beyond_succ]
            exact ihS k k (path_cons_le.mpr (Or.inr ⟨rfl, le⟩))

/-- Leaving statements out only brings the others nearer to the front. -/
theorem beyond_sublist {S T : List (Stmt L C)} (h : S.Sublist T) (p : List ℕ) :
    beyond p S ⊆ beyond p T := by
  cases p with
  | nil => exact fun y hy => items_sublist h hy
  | cons k p =>
    induction h generalizing k with
    | slnil => exact List.Subset.refl _
    | @cons S T x h ih =>
      cases k with
      | zero =>
        rw [beyond_zero]
        intro y hy
        exact List.mem_append_right _ (items_sublist h (beyond_subset_items _ _ hy))
      | succ k =>
        rw [beyond_succ]
        intro y hy
        refine beyond_anti ?_ T (ih (k + 1) hy)
        exact path_cons_le.mpr (Or.inl (Nat.lt_succ_self k))
    | @cons_cons S T x h ih =>
      cases k with
      | zero =>
        rw [beyond_zero, beyond_zero]
        apply List.append_subset.mpr
        refine ⟨List.subset_append_left _ _, fun y hy => ?_⟩
        exact List.mem_append_right _ (items_sublist h hy)
      | succ k =>
        rw [beyond_succ, beyond_succ]
        exact ih k

end GuardedStatements
