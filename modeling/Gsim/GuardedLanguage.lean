/-
  Gsim/GuardedLanguage.lean
  =========================
  **Moving assignments inside trees of guarded statements.**

  In a `Language` every leaf writes one cell and reads some.  Items that do not
  touch each other's cells commute, so an assignment, or a whole guarded tree, moves
  past a block that is independent of it (`exec_tree_comm`).  An assignment that is
  overwritten before anyone reads it can be left out (`exec_agreeOff`).
-/
import Gsim.GuardedStatements

namespace GuardedStatements

/-- Leaves that write one cell each, and guards.  A leaf that does not overwrite its
cell may also depend on what the cell held. -/
structure Language (L C Cell V : Type) where
  target : L → Cell
  reads : L → Cell → Prop
  overwrites : L → Prop
  value : L → (Cell → V) → V
  value_congr : ∀ a s s', (∀ x, reads a x → s x = s' x) →
    (overwrites a ∨ s (target a) = s' (target a)) → value a s = value a s'
  guardReads : C → Cell → Prop
  holds : C → (Cell → V) → Bool
  holds_congr : ∀ c s s', (∀ x, guardReads c x → s x = s' x) → holds c s = holds c s'

namespace Language

variable {L C Cell V : Type}

def Reads (G : Language L C Cell V) : Item L C → Cell → Prop
  | .act a => G.reads a
  | .test c => G.guardReads c

def Writes (G : Language L C Cell V) : Item L C → Cell → Prop
  | .act a => fun x => G.target a = x
  | .test _ => fun _ => False

/-- Neither item writes a cell the other reads or writes. -/
structure Independent (G : Language L C Cell V) (x y : Item L C) : Prop where
  read_right : ∀ v, G.Writes x v → ¬ G.Reads y v
  read_left : ∀ v, G.Writes y v → ¬ G.Reads x v
  write : ∀ v, G.Writes x v → ¬ G.Writes y v

theorem Independent.symm {G : Language L C Cell V} {x y : Item L C} (h : G.Independent x y) :
    G.Independent y x :=
  ⟨h.read_left, h.read_right, fun v hy hx => h.write v hx hy⟩

variable [DecidableEq Cell] (G : Language L C Cell V)

def meaning : Meaning L C (Cell → V) where
  run a s := Function.update s (G.target a) (G.value a s)
  holds := G.holds

theorem run_target (a : L) (s : Cell → V) : G.meaning.run a s (G.target a) = G.value a s :=
  Function.update_self _ _ _

theorem run_of_ne {a : L} {x : Cell} (h : x ≠ G.target a) (s : Cell → V) :
    G.meaning.run a s x = s x :=
  Function.update_of_ne h _ _

/-! ## Independent items commute -/

theorem value_run {a b : L} (h : G.Independent (.act a) (.act b)) (s : Cell → V) :
    G.value a (G.meaning.run b s) = G.value a s := by
  apply G.value_congr
  · intro x hx
    apply G.run_of_ne
    rintro rfl
    exact h.read_left _ rfl hx
  · right
    apply G.run_of_ne
    intro eq
    exact h.write _ rfl eq.symm

theorem run_comm {a b : L} (h : G.Independent (.act a) (.act b)) (s : Cell → V) :
    G.meaning.run a (G.meaning.run b s) = G.meaning.run b (G.meaning.run a s) := by
  have ne : G.target a ≠ G.target b := fun eq => h.write _ rfl eq.symm
  funext x
  by_cases ha : x = G.target a
  · subst ha
    rw [G.run_target, G.run_of_ne ne, G.run_target, G.value_run h]
  · rw [G.run_of_ne ha]
    by_cases hb : x = G.target b
    · subst hb
      rw [G.run_target, G.run_target, G.value_run h.symm]
    · rw [G.run_of_ne hb, G.run_of_ne hb, G.run_of_ne ha]

theorem holds_run {a : L} {c : C} (h : ¬ G.guardReads c (G.target a)) (s : Cell → V) :
    G.meaning.holds c (G.meaning.run a s) = G.meaning.holds c s := by
  apply G.holds_congr
  intro x hx
  apply G.run_of_ne
  rintro rfl
  exact h hx

theorem holds_exec {S : List (Stmt L C)} {c : C}
    (h : ∀ a, Item.act a ∈ items S → ¬ G.guardReads c (G.target a)) (s : Cell → V) :
    G.meaning.holds c (exec G.meaning S s) = G.meaning.holds c s := by
  refine exec_preserves G.meaning (P := fun s' => G.meaning.holds c s' = G.meaning.holds c s) S ?_ rfl
  intro a ha s' hs'
  rw [G.holds_run (h a ha), hs']

theorem foldl_run_comm {as : List L} {a : L}
    (h : ∀ b ∈ as, G.Independent (.act b) (.act a)) (s : Cell → V) :
    as.foldl (fun s b => G.meaning.run b s) (G.meaning.run a s) =
      G.meaning.run a (as.foldl (fun s b => G.meaning.run b s) s) := by
  induction as generalizing s with
  | nil => rfl
  | cons b as ih =>
    rw [List.foldl_cons, List.foldl_cons, G.run_comm (h b List.mem_cons_self)]
    exact ih (fun b' hb' => h b' (List.mem_cons_of_mem _ hb')) _

/-- An assignment moves past a block that is independent of it. -/
theorem exec_run_comm {S : List (Stmt L C)} {a : L}
    (h : ∀ y ∈ items S, G.Independent y (.act a)) (s : Cell → V) :
    exec G.meaning S (G.meaning.run a s) = G.meaning.run a (exec G.meaning S s) := by
  induction S using block_induction generalizing s with
  | nil => rfl
  | node b S ih =>
    rw [exec_cons, exec_cons, Stmt.exec_node, Stmt.exec_node, G.run_comm (h _ (by simp))]
    exact ih (fun y hy => h y (List.mem_append_right _ hy)) _
  | seq as S ih =>
    rw [exec_cons, exec_cons, Stmt.exec_seq, Stmt.exec_seq,
      G.foldl_run_comm (fun b hb => h _ (by simp [hb]))]
    exact ih (fun y hy => h y (List.mem_append_right _ hy)) _
  | when c t f S iht ihf ih =>
    have guard : ¬ G.guardReads c (G.target a) := (h (.test c) (by simp)).read_left _ rfl
    have past := ih (fun y hy => h y (List.mem_append_right _ hy))
    rw [exec_cons, exec_cons, Stmt.exec_when, Stmt.exec_when, G.holds_run guard]
    split
    · rw [iht (fun y hy => h y (by simp [hy])), past]
    · rw [ihf (fun y hy => h y (by simp [hy])), past]

/-- A guarded tree moves past a block that is independent of it. -/
theorem exec_tree_comm {S : List (Stmt L C)} {t : Tree L C}
    (h : ∀ y ∈ items S, ∀ x ∈ t.items, G.Independent y x) (s : Cell → V) :
    exec G.meaning S (t.exec G.meaning s) = t.exec G.meaning (exec G.meaning S s) := by
  induction t with
  | absent => rfl
  | leaf a => exact G.exec_run_comm (fun y hy => h y hy _ (List.mem_singleton_self _)) s
  | «when» c t f iht ihf =>
    have guard : G.meaning.holds c (exec G.meaning S s) = G.meaning.holds c s := by
      apply G.holds_exec
      intro a ha
      exact (h _ ha (.test c) List.mem_cons_self).read_right _ rfl
    simp only [Tree.exec, guard]
    by_cases hc : G.meaning.holds c s = true
    · rw [if_pos hc, if_pos hc]
      exact iht fun y hy x hx => h y hy x (List.mem_cons_of_mem _ (List.mem_append_left _ hx))
    · rw [if_neg hc, if_neg hc]
      exact ihf fun y hy x hx => h y hy x (List.mem_cons_of_mem _ (List.mem_append_right _ hx))

/-! ## Leaving out what is overwritten -/

/-- The states agree on every cell but one. -/
def AgreeOff (v : Cell) (s s' : Cell → V) : Prop :=
  ∀ x, x ≠ v → s x = s' x

theorem AgreeOff.holds {v : Cell} {s s' : Cell → V} (agree : AgreeOff v s s') {c : C}
    (h : ¬ G.guardReads c v) : G.meaning.holds c s = G.meaning.holds c s' := by
  apply G.holds_congr
  intro x hx
  apply agree
  rintro rfl
  exact h hx

theorem AgreeOff.run {v : Cell} {s s' : Cell → V} (agree : AgreeOff v s s') {a : L}
    (h : ¬ G.reads a v) : AgreeOff v (G.meaning.run a s) (G.meaning.run a s') := by
  intro x hx
  by_cases ha : x = G.target a
  · subst ha
    rw [G.run_target, G.run_target]
    apply G.value_congr
    · intro y hy
      apply agree
      rintro rfl
      exact h hy
    · exact Or.inr (agree _ hx)
  · rw [G.run_of_ne ha, G.run_of_ne ha]
    exact agree x hx

theorem AgreeOff.foldl {v : Cell} {as : List L} (h : ∀ a ∈ as, ¬ G.reads a v) {s s' : Cell → V}
    (agree : AgreeOff v s s') :
    AgreeOff v (as.foldl (fun s a => G.meaning.run a s) s)
      (as.foldl (fun s a => G.meaning.run a s) s') := by
  induction as generalizing s s' with
  | nil => exact agree
  | cons a as ih =>
    exact ih (fun b hb => h b (List.mem_cons_of_mem _ hb))
      (agree.run G (h a List.mem_cons_self))

/-- A block that does not read a cell does not spread a difference in it. -/
theorem exec_agreeOff {v : Cell} {S : List (Stmt L C)} (h : ∀ y ∈ items S, ¬ G.Reads y v)
    {s s' : Cell → V} (agree : AgreeOff v s s') :
    AgreeOff v (exec G.meaning S s) (exec G.meaning S s') := by
  induction S using block_induction generalizing s s' with
  | nil => exact agree
  | node a S ih =>
    apply ih (fun y hy => h y (List.mem_append_right _ hy))
    exact agree.run G (h (.act a) (by simp))
  | seq as S ih =>
    apply ih (fun y hy => h y (List.mem_append_right _ hy))
    exact agree.foldl G (fun a ha => h (.act a) (by simp [ha]))
  | when c t f S iht ihf ih =>
    apply ih (fun y hy => h y (List.mem_append_right _ hy))
    rw [Stmt.exec_when, Stmt.exec_when, agree.holds G (h (.test c) (by simp))]
    split
    · exact iht (fun y hy => h y (by simp [hy])) agree
    · exact ihf (fun y hy => h y (by simp [hy])) agree

theorem run_eq_of_agreeOff {a : L} (ow : G.overwrites a) (h : ¬ G.reads a (G.target a))
    {s s' : Cell → V} (agree : AgreeOff (G.target a) s s') :
    G.meaning.run a s = G.meaning.run a s' := by
  funext x
  by_cases ha : x = G.target a
  · subst ha
    rw [G.run_target, G.run_target]
    apply G.value_congr
    · intro y hy
      apply agree
      rintro rfl
      exact h hy
    · exact Or.inl ow
  · rw [G.run_of_ne ha, G.run_of_ne ha]
    exact agree x ha

end Language

/-! ## Order and steadiness -/

section Order

variable {L C : Type}

mutual
/-- The relation holds between any two items of which the first is executed before
the second; the two branches of a guard are not ordered. -/
def Stmt.Ordered (r : Item L C → Item L C → Prop) : Stmt L C → Prop
  | .node _ => True
  | .seq as => as.Pairwise fun a b => r (.act a) (.act b)
  | .when c t f => (∀ x ∈ items t ++ items f, r (.test c) x) ∧ Ordered r t ∧ Ordered r f

def Ordered (r : Item L C → Item L C → Prop) : List (Stmt L C) → Prop
  | [] => True
  | x :: S => x.Ordered r ∧ (∀ a ∈ x.items, ∀ b ∈ items S, r a b) ∧ Ordered r S
end

mutual
/-- No assignment in a branch is related to the guard of that branch. -/
def Stmt.Steady (touches : L → C → Prop) : Stmt L C → Prop
  | .node _ => True
  | .seq _ => True
  | .when c t f =>
    (∀ a, Item.act a ∈ items t ++ items f → ¬ touches a c) ∧ Steady touches t ∧ Steady touches f

def Steady (touches : L → C → Prop) : List (Stmt L C) → Prop
  | [] => True
  | x :: S => x.Steady touches ∧ Steady touches S
end

variable {r : Item L C → Item L C → Prop} {touches : L → C → Prop}

@[simp] theorem Stmt.ordered_node (a : L) : (Stmt.node a : Stmt L C).Ordered r := trivial

@[simp] theorem Stmt.ordered_seq {as : List L} :
    (Stmt.seq as : Stmt L C).Ordered r ↔ as.Pairwise fun a b => r (.act a) (.act b) := Iff.rfl

@[simp] theorem Stmt.ordered_when {c : C} {t f : List (Stmt L C)} :
    (Stmt.when c t f).Ordered r ↔
      (∀ x ∈ GuardedStatements.items t ++ GuardedStatements.items f, r (.test c) x) ∧
      GuardedStatements.Ordered r t ∧ GuardedStatements.Ordered r f := Iff.rfl

@[simp] theorem ordered_nil : Ordered r ([] : List (Stmt L C)) := trivial

@[simp] theorem ordered_cons {x : Stmt L C} {S : List (Stmt L C)} :
    Ordered r (x :: S) ↔ x.Ordered r ∧ (∀ a ∈ x.items, ∀ b ∈ items S, r a b) ∧ Ordered r S :=
  Iff.rfl

theorem ordered_append {S T : List (Stmt L C)} :
    Ordered r (S ++ T) ↔ Ordered r S ∧ (∀ a ∈ items S, ∀ b ∈ items T, r a b) ∧ Ordered r T := by
  induction S with
  | nil => simp
  | cons x S ih =>
    simp only [List.cons_append, ordered_cons, ih, items_append, items_cons, List.mem_append]
    constructor
    · rintro ⟨hx, hxs, hS, hST, hT⟩
      exact ⟨⟨hx, fun a ha b hb => hxs a ha b (Or.inl hb), hS⟩,
        fun a ha b hb => ha.elim (fun ha => hxs a ha b (Or.inr hb)) (fun ha => hST a ha b hb), hT⟩
    · rintro ⟨⟨hx, hxs, hS⟩, hST, hT⟩
      exact ⟨hx, fun a ha b hb => hb.elim (hxs a ha b) (hST a (Or.inl ha) b), hS,
        fun a ha b hb => hST a (Or.inr ha) b hb, hT⟩

theorem Ordered.sublist {S T : List (Stmt L C)} (h : S.Sublist T) (order : Ordered r T) :
    Ordered r S := by
  induction h with
  | slnil => exact order
  | cons x _ ih => exact ih order.2.2
  | cons_cons x h ih =>
    exact ⟨order.1, fun a ha b hb => order.2.1 a ha b (items_sublist h hb), ih order.2.2⟩

theorem Ordered.imp {q : Item L C → Item L C → Prop} (h : ∀ x y, r x y → q x y)
    {S : List (Stmt L C)} (order : Ordered r S) : Ordered q S := by
  induction S using block_induction with
  | nil => trivial
  | node a S ih => exact ⟨trivial, fun x hx y hy => h x y (order.2.1 x hx y hy), ih order.2.2⟩
  | seq as S ih =>
    refine ⟨?_, fun x hx y hy => h x y (order.2.1 x hx y hy), ih order.2.2⟩
    exact List.Pairwise.imp (fun {a b} hab => h _ _ hab) order.1
  | when c t f S iht ihf ih =>
    refine ⟨⟨fun x hx => h _ x (order.1.1 x hx), iht order.1.2.1, ihf order.1.2.2⟩, ?_, ih order.2.2⟩
    exact fun x hx y hy => h x y (order.2.1 x hx y hy)

@[simp] theorem Stmt.steady_node (a : L) : (Stmt.node a : Stmt L C).Steady touches := trivial

@[simp] theorem Stmt.steady_seq (as : List L) : (Stmt.seq as : Stmt L C).Steady touches := trivial

@[simp] theorem Stmt.steady_when {c : C} {t f : List (Stmt L C)} :
    (Stmt.when c t f).Steady touches ↔
      (∀ a, Item.act a ∈ GuardedStatements.items t ++ GuardedStatements.items f →
        ¬ touches a c) ∧
      GuardedStatements.Steady touches t ∧ GuardedStatements.Steady touches f := Iff.rfl

@[simp] theorem steady_nil : Steady touches ([] : List (Stmt L C)) := trivial

@[simp] theorem steady_cons {x : Stmt L C} {S : List (Stmt L C)} :
    Steady touches (x :: S) ↔ x.Steady touches ∧ Steady touches S := Iff.rfl

theorem steady_append {S T : List (Stmt L C)} :
    Steady touches (S ++ T) ↔ Steady touches S ∧ Steady touches T := by
  induction S with
  | nil => simp
  | cons x S ih => simp [ih, and_assoc]

theorem Steady.sublist {S T : List (Stmt L C)} (h : S.Sublist T) (steady : Steady touches T) :
    Steady touches S := by
  induction h with
  | slnil => exact steady
  | cons x _ ih => exact ih steady.2
  | cons_cons x _ ih => exact ⟨steady.1, ih steady.2⟩

end Order

end GuardedStatements
