/-
  Gsim/MixedRadix.lean
  ====================
  **Numbers in a mixed radix.**

  A list of bases, the most significant first, makes a number of a list of digits
  (`flatten`) and digits of a number (`unflatten`).  Below the product of the bases
  the two are inverse to each other, and the numbers that begin with given digits are
  an interval (`prefix_unflatten_iff`).
-/
import Mathlib

namespace Gsim.MixedRadix

def flattenFrom : Nat → List Nat → List Nat → Nat
  | acc, d :: ds, x :: xs => flattenFrom (acc * d + x) ds xs
  | acc, _, _ => acc

def flatten (ds xs : List Nat) : Nat := flattenFrom 0 ds xs

def unflatten : List Nat → Nat → List Nat
  | [], _ => []
  | d :: ds, n => n / ds.prod % d :: unflatten ds n

/-- One digit below each base. -/
abbrev Digits (ds xs : List Nat) : Prop := List.Forall₂ (fun x d => x < d) xs ds

@[simp] theorem unflatten_length (ds : List Nat) (n : Nat) : (unflatten ds n).length = ds.length := by
  induction ds with
  | nil => rfl
  | cons d ds ih => rw [unflatten, List.length_cons, List.length_cons, ih]

theorem flattenFrom_eq {ds xs : List Nat} (h : xs.length = ds.length) (acc : Nat) :
    flattenFrom acc ds xs = acc * ds.prod + flatten ds xs := by
  induction ds generalizing xs acc with
  | nil =>
    obtain rfl := List.length_eq_zero_iff.mp h
    simp [flattenFrom, flatten]
  | cons d ds ih =>
    cases xs with
    | nil => cases h
    | cons x xs =>
      have tail : xs.length = ds.length := Nat.succ.inj h
      rw [flatten, flattenFrom, flattenFrom, ih tail, ih tail, List.prod_cons]
      ring

/-- Bases without a digit are left out. -/
theorem flattenFrom_append {ds es xs : List Nat} (h : xs.length = ds.length) {acc : Nat} :
    flattenFrom acc (ds ++ es) xs = flattenFrom acc ds xs := by
  induction ds generalizing xs acc with
  | nil =>
    obtain rfl := List.length_eq_zero_iff.mp h
    cases es with
    | nil => rfl
    | cons e es => rfl
  | cons d ds ih =>
    cases xs with
    | nil => rfl
    | cons x xs => exact ih (Nat.succ.inj h)

theorem flatten_cons {d x : Nat} {ds xs : List Nat} (h : xs.length = ds.length) :
    flatten (d :: ds) (x :: xs) = x * ds.prod + flatten ds xs := by
  rw [flatten, flattenFrom, flattenFrom_eq h, Nat.zero_mul, Nat.zero_add]

theorem flatten_append {ds es xs ys : List Nat} (hx : xs.length = ds.length)
    (hy : ys.length = es.length) :
    flatten (ds ++ es) (xs ++ ys) = flatten ds xs * es.prod + flatten es ys := by
  induction ds generalizing xs with
  | nil =>
    obtain rfl := List.length_eq_zero_iff.mp hx
    simp [flatten, flattenFrom]
  | cons d ds ih =>
    cases xs with
    | nil => cases hx
    | cons x xs =>
      have tail : xs.length = ds.length := Nat.succ.inj hx
      have whole : (xs ++ ys).length = (ds ++ es).length := by simp [tail, hy]
      rw [List.cons_append, List.cons_append, flatten_cons whole, flatten_cons tail, ih tail,
        List.prod_append]
      ring

theorem flatten_lt {ds xs : List Nat} (h : Digits ds xs) : flatten ds xs < ds.prod := by
  induction h with
  | nil => exact Nat.one_pos
  | @cons x d xs ds head tail ih =>
    rw [flatten_cons tail.length_eq, List.prod_cons]
    have step := Nat.mul_le_mul_right ds.prod (Nat.succ_le_of_lt head)
    rw [Nat.succ_mul] at step
    omega

theorem unflatten_append (ds es : List Nat) (n : Nat) :
    unflatten (ds ++ es) n = unflatten ds (n / es.prod) ++ unflatten es n := by
  induction ds with
  | nil => rfl
  | cons d ds ih =>
    rw [List.cons_append, unflatten, unflatten, ih, List.prod_append, List.cons_append,
      Nat.div_div_eq_div_mul, Nat.mul_comm es.prod]

theorem unflatten_concat (ds : List Nat) (d n : Nat) :
    unflatten (ds ++ [d]) n = unflatten ds (n / d) ++ [n % d] := by
  rw [unflatten_append]
  simp [unflatten]

theorem unflatten_digits {ds : List Nat} (pos : ∀ d ∈ ds, 0 < d) (n : Nat) :
    Digits ds (unflatten ds n) := by
  induction ds with
  | nil => exact .nil
  | cons d ds ih =>
    exact .cons (Nat.mod_lt _ (pos d List.mem_cons_self))
      (ih fun e he => pos e (List.mem_cons_of_mem _ he))

/-- Higher digits do not matter. -/
theorem unflatten_mul_add {es : List Nat} (pos : ∀ e ∈ es, 0 < e) (a b : Nat) :
    unflatten es (a * es.prod + b) = unflatten es b := by
  induction es generalizing a with
  | nil => rfl
  | cons e es ih =>
    have tail : ∀ f ∈ es, 0 < f := fun f hf => pos f (List.mem_cons_of_mem _ hf)
    have below : 0 < es.prod := List.prod_pos tail
    rw [unflatten, unflatten, List.prod_cons, ← Nat.mul_assoc, ih tail, Nat.add_comm,
      Nat.add_mul_div_right _ _ below, Nat.add_mul_mod_self_right]

theorem unflatten_flatten {ds xs : List Nat} (h : Digits ds xs) : unflatten ds (flatten ds xs) = xs := by
  induction h with
  | nil => rfl
  | @cons x d xs ds head tail ih =>
    have pos : ∀ e ∈ ds, 0 < e := by
      intro e he
      obtain ⟨i, hi, rfl⟩ := List.getElem_of_mem he
      exact Nat.zero_lt_of_lt (tail.get (by rw [tail.length_eq]; exact hi) hi)
    have below := flatten_lt tail
    rw [flatten_cons tail.length_eq, unflatten, unflatten_mul_add pos, ih, Nat.add_comm,
      Nat.add_mul_div_right _ _ (List.prod_pos pos), Nat.div_eq_of_lt below, Nat.zero_add,
      Nat.mod_eq_of_lt head]

theorem flatten_unflatten {ds : List Nat} (pos : ∀ d ∈ ds, 0 < d) {n : Nat} (h : n < ds.prod) :
    flatten ds (unflatten ds n) = n := by
  induction ds generalizing n with
  | nil =>
    rw [List.prod_nil] at h
    show 0 = n
    omega
  | cons d ds ih =>
    have tail : ∀ e ∈ ds, 0 < e := fun e he => pos e (List.mem_cons_of_mem _ he)
    have below : 0 < ds.prod := List.prod_pos tail
    rw [List.prod_cons] at h
    have top : n / ds.prod < d := (Nat.div_lt_iff_lt_mul below).mpr h
    have split : n / ds.prod * ds.prod + n % ds.prod = n := by
      rw [Nat.mul_comm]
      exact Nat.div_add_mod n ds.prod
    have low : unflatten ds n = unflatten ds (n % ds.prod) := by
      conv_lhs => rw [← split]
      exact unflatten_mul_add tail _ _
    rw [unflatten, flatten_cons (unflatten_length ds n), low, ih tail (Nat.mod_lt _ below),
      Nat.mod_eq_of_lt top, split]

/-- The numbers that begin with the digits `xs`. -/
theorem prefix_unflatten_iff {ds es xs : List Nat} (h : Digits ds xs) (pos : ∀ e ∈ es, 0 < e)
    {n : Nat} (bound : n < (ds ++ es).prod) (above : ∀ d ∈ ds, 0 < d) :
    xs <+: unflatten (ds ++ es) n ↔
      flatten ds xs * es.prod ≤ n ∧ n < (flatten ds xs + 1) * es.prod := by
  have below : 0 < es.prod := List.prod_pos pos
  rw [List.prod_append] at bound
  have top : n / es.prod < ds.prod := (Nat.div_lt_iff_lt_mul below).mpr bound
  have begins : xs <+: unflatten (ds ++ es) n ↔ unflatten ds (n / es.prod) = xs := by
    rw [unflatten_append, List.prefix_iff_eq_take, h.length_eq,
      List.take_left' (unflatten_length ds _)]
    exact eq_comm
  have same : unflatten ds (n / es.prod) = xs ↔ n / es.prod = flatten ds xs := by
    constructor
    · rintro rfl
      exact (flatten_unflatten above top).symm
    · intro high
      rw [high]
      exact unflatten_flatten h
  rw [begins, same, Nat.div_eq_iff below]
  rw [Nat.add_mul, Nat.one_mul]
  omega

end Gsim.MixedRadix
