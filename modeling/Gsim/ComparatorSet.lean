/-
  Gsim/ComparatorSet.lean
  =======================
  **Comparators and the sets ordered by them**, over an arbitrary type.

  A comparator is a Boolean `less`.  A set ordered by it is the list of its elements in
  ascending order; an element is dropped on insertion when the comparator cannot tell it
  from one that is there.  A comparator that tells all elements apart (`IsStrict`) drops
  nothing new.  Comparators are built up key by key (`lexBy`).
-/
import Mathlib.Data.List.Basic
import Mathlib.Order.Basic
import Mathlib.Tactic

namespace ComparatorSet

variable {α κ : Type*}

/-- The comparator is a strict order that tells any two elements apart. -/
structure IsStrict (less : α → α → Bool) : Prop where
  irrefl : ∀ a, less a a = false
  trans : ∀ a b c, less a b = true → less b c = true → less a c = true
  total : ∀ a b, a ≠ b → less a b = true ∨ less b a = true

theorem IsStrict.asymm {less : α → α → Bool} (h : IsStrict less) {a b : α}
    (lt : less a b = true) : less b a = false := by
  by_contra back
  have loop := h.trans a b a lt (Bool.eq_true_of_not_eq_false back)
  rw [h.irrefl] at loop
  cases loop

/-! ## Keys -/

/-- `if (key(a) != key(b)) return key(a) < key(b); return rest(a, b);`. -/
def lexBy [LinearOrder κ] (key : α → κ) (rest : α → α → Bool) (a b : α) : Bool :=
  if key a ≠ key b then decide (key a < key b) else rest a b

/-- Only elements with the same key have to be told apart by the rest. -/
theorem isStrict_lexBy [LinearOrder κ] {key : α → κ} {rest : α → α → Bool}
    (irrefl : ∀ a, rest a a = false)
    (trans : ∀ a b c, key a = key b → key b = key c → rest a b = true → rest b c = true →
      rest a c = true)
    (total : ∀ a b, key a = key b → a ≠ b → rest a b = true ∨ rest b a = true) :
    IsStrict (lexBy key rest) := by
  have lt_iff : ∀ a b, lexBy key rest a b = true ↔
      key a < key b ∨ (key a = key b ∧ rest a b = true) := by
    intro a b
    unfold lexBy
    by_cases eq : key a = key b
    · simp [eq]
    · simp [eq]
  refine ⟨?_, ?_, ?_⟩
  · intro a
    simp [lexBy, irrefl]
  · intro a b c hab hbc
    rw [lt_iff] at hab hbc ⊢
    rcases hab with ab | ⟨ab, rab⟩ <;> rcases hbc with bc | ⟨bc, rbc⟩
    · exact .inl (ab.trans bc)
    · exact .inl (bc ▸ ab)
    · exact .inl (ab ▸ bc)
    · exact .inr ⟨ab.trans bc, trans a b c ab bc rab rbc⟩
  · intro a b ne
    rw [lt_iff, lt_iff]
    rcases lt_trichotomy (key a) (key b) with lt | eq | gt
    · exact .inl (.inl lt)
    · rcases total a b eq ne with h | h
      · exact .inl (.inr ⟨eq, h⟩)
      · exact .inr (.inr ⟨eq.symm, h⟩)
    · exact .inr (.inl gt)

theorem IsStrict.lexBy [LinearOrder κ] {rest : α → α → Bool} (h : IsStrict rest) (key : α → κ) :
    IsStrict (lexBy key rest) :=
  isStrict_lexBy h.irrefl (fun a b c _ _ => h.trans a b c) fun a b _ => h.total a b

theorem isStrict_lt [LinearOrder κ] {key : α → κ} (inj : Function.Injective key) :
    IsStrict fun a b => decide (key a < key b) where
  irrefl a := by simp
  trans a b c hab hbc := by
    rw [decide_eq_true_eq] at *
    exact hab.trans hbc
  total a b ne := by
    rw [decide_eq_true_eq, decide_eq_true_eq]
    exact lt_or_gt_of_ne fun eq => ne (inj eq)

/-! ## Sets -/

/-- `set.insert(x)`. -/
def setInsert (less : α → α → Bool) (x : α) : List α → List α
  | [] => [x]
  | y :: ys =>
    if less x y then x :: y :: ys
    else if less y x then y :: setInsert less x ys
    else y :: ys

/-- The elements of a set come in ascending order. -/
def Ascending (less : α → α → Bool) (s : List α) : Prop := s.Pairwise fun a b => less a b = true

theorem setInsert_perm {less : α → α → Bool} (strict : IsStrict less) {x : α} {s : List α}
    (fresh : x ∉ s) : (setInsert less x s).Perm (x :: s) := by
  induction s with
  | nil => exact List.Perm.refl _
  | cons y ys ih =>
    have ne : x ≠ y := fun eq => fresh (eq ▸ List.mem_cons_self)
    have fresh' : x ∉ ys := fun mem => fresh (List.mem_cons_of_mem _ mem)
    unfold setInsert
    split
    · exact List.Perm.refl _
    · rename_i notLess
      rw [if_pos ((strict.total x y ne).resolve_left notLess)]
      exact ((ih fresh').cons y).trans (List.Perm.swap x y ys)

theorem mem_setInsert {less : α → α → Bool} {x z : α} {s : List α} (h : z ∈ setInsert less x s) :
    z = x ∨ z ∈ s := by
  induction s with
  | nil => exact .inl (List.mem_singleton.mp h)
  | cons y ys ih =>
    unfold setInsert at h
    split at h
    · exact List.mem_cons.mp h
    · split at h
      · rcases List.mem_cons.mp h with rfl | h
        · exact .inr List.mem_cons_self
        · exact (ih h).imp_right (List.mem_cons_of_mem _)
      · exact .inr h

theorem Ascending.setInsert {less : α → α → Bool} (strict : IsStrict less) {s : List α}
    (h : Ascending less s) (x : α) : Ascending less (setInsert less x s) := by
  induction s with
  | nil => exact List.pairwise_singleton _ _
  | cons y ys ih =>
    obtain ⟨first, rest⟩ := List.pairwise_cons.mp h
    unfold ComparatorSet.setInsert
    split
    · rename_i lt
      refine List.pairwise_cons.mpr ⟨fun z hz => ?_, h⟩
      rcases List.mem_cons.mp hz with rfl | hz
      · exact lt
      · exact strict.trans x y z lt (first z hz)
    · split
      · rename_i gt
        refine List.pairwise_cons.mpr ⟨fun z hz => ?_, ih rest⟩
        rcases mem_setInsert hz with rfl | hz
        · exact gt
        · exact first z hz
      · exact h

/-- `*set.begin()` is less than all other elements. -/
theorem Ascending.head_eq {less : α → α → Bool} (strict : IsStrict less) {x y : α} {ys : List α}
    (h : Ascending less (y :: ys)) (mem : x ∈ y :: ys)
    (least : ∀ z ∈ y :: ys, z ≠ x → less x z = true) : y = x := by
  rcases List.mem_cons.mp mem with rfl | mem
  · rfl
  · by_contra ne
    have back := strict.asymm (least y List.mem_cons_self ne)
    rw [(List.pairwise_cons.mp h).1 x mem] at back
    cases back

end ComparatorSet
