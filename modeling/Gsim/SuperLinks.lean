/-
  Gsim/SuperLinks.lean
  ====================
  **The relation sets of super nodes** (`superNode.cpp`).

  Every super node has four sets of neighbours: `prev` and `next` for the edges that
  carry values, `depPrev` and `depNext` for all that constrain the order.  The sets
  `Show` two relations when they hold exactly the neighbours these have.
-/
import Gsim.GraphContraction

namespace Gsim.SuperLinks

open GraphContraction

variable {α : Type} [DecidableEq α]

/-! ## Families of sets -/

/-- `f[x].insert(y)`. -/
def addAt (f : α → List α) (x y : α) : α → List α := Function.update f x ((f x).insert y)

/-- `f[x].erase(y)`. -/
def eraseAt (f : α → List α) (x y : α) : α → List α := Function.update f x ((f x).erase y)

theorem mem_addAt {f : α → List α} {x y z w : α} :
    z ∈ addAt f x y w ↔ z ∈ f w ∨ (w = x ∧ z = y) := by
  unfold addAt
  by_cases h : w = x
  · subst h
    rw [Function.update_self, List.mem_insert_iff]
    tauto
  · rw [Function.update_of_ne h]
    tauto

theorem nodup_addAt {f : α → List α} (h : ∀ w, (f w).Nodup) (x y w : α) :
    (addAt f x y w).Nodup := by
  unfold addAt
  by_cases eq : w = x
  · subst eq
    rw [Function.update_self]
    exact (h w).insert
  · rw [Function.update_of_ne eq]
    exact h w

theorem mem_eraseAt {f : α → List α} (h : ∀ w, (f w).Nodup) {x y z w : α} :
    z ∈ eraseAt f x y w ↔ z ∈ f w ∧ ¬ (w = x ∧ z = y) := by
  unfold eraseAt
  by_cases eq : w = x
  · subst eq
    rw [Function.update_self, (h w).mem_erase_iff]
    tauto
  · rw [Function.update_of_ne eq]
    tauto

theorem nodup_eraseAt {f : α → List α} (h : ∀ w, (f w).Nodup) (x y w : α) :
    (eraseAt f x y w).Nodup := by
  unfold eraseAt
  by_cases eq : w = x
  · subst eq
    rw [Function.update_self]
    exact (h w).erase y
  · rw [Function.update_of_ne eq]
    exact h w

/-! ## The sets -/

structure Links (α : Type) where
  prev : α → List α
  next : α → List α
  depPrev : α → List α
  depNext : α → List α

namespace Links

def addPrev (L : Links α) (x y : α) : Links α :=
  { L with prev := addAt L.prev x y, depPrev := addAt L.depPrev x y }

def addNext (L : Links α) (x y : α) : Links α :=
  { L with next := addAt L.next x y, depNext := addAt L.depNext x y }

def erasePrev (L : Links α) (x y : α) : Links α :=
  { L with prev := eraseAt L.prev x y, depPrev := eraseAt L.depPrev x y }

def eraseNext (L : Links α) (x y : α) : Links α :=
  { L with next := eraseAt L.next x y, depNext := eraseAt L.depNext x y }

def addDepPrev (L : Links α) (x y : α) : Links α := { L with depPrev := addAt L.depPrev x y }

def addDepNext (L : Links α) (x y : α) : Links α := { L with depNext := addAt L.depNext x y }

def eraseDepPrev (L : Links α) (x y : α) : Links α := { L with depPrev := eraseAt L.depPrev x y }

def eraseDepNext (L : Links α) (x y : α) : Links α := { L with depNext := eraseAt L.depNext x y }

/-- `addPrev` of a set. -/
def addPrevAll (L : Links α) (x : α) (ys : List α) : Links α := ys.foldl (fun L y => L.addPrev x y) L

/-- `addNext` of a set. -/
def addNextAll (L : Links α) (x : α) (ys : List α) : Links α := ys.foldl (fun L y => L.addNext x y) L

def connectPrev (L : Links α) (x p : α) : Links α := (L.addPrev x p).addNext p x

def connectNext (L : Links α) (x n : α) : Links α := (L.addNext x n).addPrev n x

def clearRelation (L : Links α) (x : α) : Links α where
  prev := Function.update L.prev x []
  next := Function.update L.next x []
  depPrev := Function.update L.depPrev x []
  depNext := Function.update L.depNext x []

/-- Predecessors and successors exchanged. -/
def mirror (L : Links α) : Links α where
  prev := L.next
  next := L.prev
  depPrev := L.depNext
  depNext := L.depPrev

/-- They are sets. -/
structure Nodup (L : Links α) : Prop where
  prev : ∀ x, (L.prev x).Nodup
  next : ∀ x, (L.next x).Nodup
  depPrev : ∀ x, (L.depPrev x).Nodup
  depNext : ∀ x, (L.depNext x).Nodup

/-- The sets of the super nodes in `alive` are those of the relations `E` and `D`. -/
structure Shows (L : Links α) (alive : α → Prop) (E D : α → α → Prop) : Prop where
  prev : ∀ x p, alive x → (p ∈ L.prev x ↔ E p x)
  next : ∀ x n, alive x → (n ∈ L.next x ↔ E x n)
  depPrev : ∀ x p, alive x → (p ∈ L.depPrev x ↔ D p x)
  depNext : ∀ x n, alive x → (n ∈ L.depNext x ↔ D x n)

section Nodup

variable {L : Links α} (h : L.Nodup) (x y : α)
include h

theorem Nodup.addPrev : (L.addPrev x y).Nodup :=
  ⟨nodup_addAt h.prev x y, h.next, nodup_addAt h.depPrev x y, h.depNext⟩

theorem Nodup.addNext : (L.addNext x y).Nodup :=
  ⟨h.prev, nodup_addAt h.next x y, h.depPrev, nodup_addAt h.depNext x y⟩

theorem Nodup.erasePrev : (L.erasePrev x y).Nodup :=
  ⟨nodup_eraseAt h.prev x y, h.next, nodup_eraseAt h.depPrev x y, h.depNext⟩

theorem Nodup.eraseNext : (L.eraseNext x y).Nodup :=
  ⟨h.prev, nodup_eraseAt h.next x y, h.depPrev, nodup_eraseAt h.depNext x y⟩

theorem Nodup.addDepPrev : (L.addDepPrev x y).Nodup :=
  ⟨h.prev, h.next, nodup_addAt h.depPrev x y, h.depNext⟩

theorem Nodup.addDepNext : (L.addDepNext x y).Nodup :=
  ⟨h.prev, h.next, h.depPrev, nodup_addAt h.depNext x y⟩

theorem Nodup.eraseDepPrev : (L.eraseDepPrev x y).Nodup :=
  ⟨h.prev, h.next, nodup_eraseAt h.depPrev x y, h.depNext⟩

theorem Nodup.eraseDepNext : (L.eraseDepNext x y).Nodup :=
  ⟨h.prev, h.next, h.depPrev, nodup_eraseAt h.depNext x y⟩

theorem Nodup.clearRelation : (L.clearRelation x).Nodup := by
  have clear : ∀ f : α → List α, (∀ w, (f w).Nodup) →
      ∀ w, (Function.update f x [] w).Nodup := by
    intro f hf w
    by_cases eq : w = x
    · rw [eq, Function.update_self]
      exact List.nodup_nil
    · rw [Function.update_of_ne eq]
      exact hf w
  exact ⟨clear _ h.prev, clear _ h.next, clear _ h.depPrev, clear _ h.depNext⟩

omit [DecidableEq α] in
theorem Nodup.mirror : L.mirror.Nodup := ⟨h.next, h.prev, h.depNext, h.depPrev⟩

end Nodup

omit [DecidableEq α] in
theorem Shows.mirror {L : Links α} {alive : α → Prop} {E D : α → α → Prop}
    (h : L.Shows alive E D) : L.mirror.Shows alive (fun x y => E y x) fun x y => D y x :=
  ⟨h.next, h.prev, h.depNext, h.depPrev⟩

/-! ## Adding edges -/

/-- The edges `E` and `D` are added to the sets of both their ends. -/
structure Adds (E D : α → α → Prop) (L L' : Links α) : Prop where
  nodup : L.Nodup → L'.Nodup
  prev : ∀ w z, z ∈ L'.prev w ↔ z ∈ L.prev w ∨ E z w
  next : ∀ w z, z ∈ L'.next w ↔ z ∈ L.next w ∨ E w z
  depPrev : ∀ w z, z ∈ L'.depPrev w ↔ z ∈ L.depPrev w ∨ D z w
  depNext : ∀ w z, z ∈ L'.depNext w ↔ z ∈ L.depNext w ∨ D w z

namespace Adds

variable {E E' D D' : α → α → Prop} {L L' L'' : Links α}

omit [DecidableEq α] in
theorem refl (noE : ∀ p x, ¬ E p x) (noD : ∀ p x, ¬ D p x) (L : Links α) : Adds E D L L :=
  ⟨id, by simp [noE], by simp [noE], by simp [noD], by simp [noD]⟩

omit [DecidableEq α] in
theorem trans (h : Adds E D L L') (h' : Adds E' D' L' L'') :
    Adds (fun p x => E p x ∨ E' p x) (fun p x => D p x ∨ D' p x) L L'' where
  nodup nodup := h'.nodup (h.nodup nodup)
  prev w z := by rw [h'.prev, h.prev, or_assoc]
  next w z := by rw [h'.next, h.next, or_assoc]
  depPrev w z := by rw [h'.depPrev, h.depPrev, or_assoc]
  depNext w z := by rw [h'.depNext, h.depNext, or_assoc]

omit [DecidableEq α] in
theorem congr (h : Adds E D L L') (hE : ∀ p x, E p x ↔ E' p x) (hD : ∀ p x, D p x ↔ D' p x) :
    Adds E' D' L L' where
  nodup := h.nodup
  prev w z := by rw [h.prev, hE]
  next w z := by rw [h.next, hE]
  depPrev w z := by rw [h.depPrev, hD]
  depNext w z := by rw [h.depNext, hD]

omit [DecidableEq α] in
/-- A loop adds what its rounds add. -/
theorem foldl {β : Type} {step : Links α → β → Links α} {E D : β → α → α → Prop} (l : List β)
    (h : ∀ b ∈ l, ∀ L, Adds (E b) (D b) L (step L b)) (L : Links α) :
    Adds (fun p x => ∃ b ∈ l, E b p x) (fun p x => ∃ b ∈ l, D b p x) L (l.foldl step L) := by
  induction l generalizing L with
  | nil => exact refl (by simp) (by simp) L
  | cons b l ih =>
    have first := h b List.mem_cons_self L
    have rest := ih (fun c hc => h c (List.mem_cons_of_mem _ hc)) (step L b)
    exact (first.trans rest).congr (by simp) (by simp)

end Adds

theorem connectPrev_adds (L : Links α) (x p : α) :
    Adds (fun q y => q = p ∧ y = x) (fun q y => q = p ∧ y = x) L (L.connectPrev x p) where
  nodup h := (h.addPrev x p).addNext p x
  prev w z := by
    rw [connectPrev, addNext, addPrev, mem_addAt]
    tauto
  next w z := by
    rw [connectPrev, addNext, addPrev, mem_addAt]
  depPrev w z := by
    rw [connectPrev, addNext, addPrev, mem_addAt]
    tauto
  depNext w z := by
    rw [connectPrev, addNext, addPrev, mem_addAt]

/-- `x->depPrev.insert(p); p->depNext.insert(x)`. -/
def connectDepPrev (L : Links α) (x p : α) : Links α := (L.addDepPrev x p).addDepNext p x

/-- `x->depNext.insert(n); n->depPrev.insert(x)`. -/
def connectDepNext (L : Links α) (x n : α) : Links α := (L.addDepNext x n).addDepPrev n x

theorem connectDepPrev_adds (L : Links α) (x p : α) :
    Adds (fun _ _ => False) (fun q y => q = p ∧ y = x) L (L.connectDepPrev x p) where
  nodup h := (h.addDepPrev x p).addDepNext p x
  prev w z := by simp [connectDepPrev, addDepNext, addDepPrev]
  next w z := by simp [connectDepPrev, addDepNext, addDepPrev]
  depPrev w z := by
    rw [connectDepPrev, addDepNext, addDepPrev, mem_addAt]
    tauto
  depNext w z := by
    rw [connectDepPrev, addDepNext, addDepPrev, mem_addAt]

end Links

end Gsim.SuperLinks
