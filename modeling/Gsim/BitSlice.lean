/-
  Gsim/BitSlice.lean
  ==================
  **Fields of a number.**

  `slice v lo n` are the `n` bits of `v` from bit `lo` on, read as an unsigned
  number; a negative number has the bits of its two's complement.  A field of a
  field is a field, adjacent fields concatenate, and a concatenation gives its
  parts back.
-/
import Mathlib

namespace Gsim.BitSlice

def slice (v : Int) (lo n : Nat) : Int := v / 2 ^ lo % 2 ^ n

theorem slice_nonneg (v : Int) (lo n : Nat) : 0 ≤ slice v lo n :=
  Int.emod_nonneg _ (pow_ne_zero n two_ne_zero)

theorem slice_lt (v : Int) (lo n : Nat) : slice v lo n < 2 ^ n :=
  Int.emod_lt_of_pos _ (pow_pos two_pos n)

@[simp] theorem slice_empty (v : Int) (lo : Nat) : slice v lo 0 = 0 := by
  simp [slice]

theorem slice_bottom (v : Int) (n : Nat) : slice v 0 n = v % 2 ^ n := by
  simp [slice]

theorem slice_whole {v : Int} {n : Nat} (nonneg : 0 ≤ v) (lt : v < 2 ^ n) : slice v 0 n = v := by
  rw [slice_bottom]
  exact Int.emod_eq_of_lt nonneg lt

theorem slice_above {v : Int} {lo : Nat} (nonneg : 0 ≤ v) (lt : v < 2 ^ lo) (n : Nat) :
    slice v lo n = 0 := by
  rw [slice, Int.ediv_eq_zero_of_lt nonneg lt, Int.zero_emod]

/-- The field that ends with the number. -/
theorem slice_top {v : Int} {lo n : Nat} (nonneg : 0 ≤ v) (lt : v < 2 ^ (lo + n)) :
    slice v lo n = v / 2 ^ lo := by
  have pos : (0 : Int) < 2 ^ lo := pow_pos two_pos lo
  apply Int.emod_eq_of_lt (Int.ediv_nonneg nonneg pos.le)
  rw [Int.ediv_lt_iff_lt_mul pos, ← pow_add, Nat.add_comm]
  exact lt

theorem ediv_two_pow_add (v : Int) (a b : Nat) : v / 2 ^ (a + b) = v / 2 ^ a / 2 ^ b := by
  rw [pow_add, Int.ediv_ediv_of_nonneg (pow_nonneg zero_le_two a)]

theorem slice_ediv (v : Int) (a lo n : Nat) : slice (v / 2 ^ a) lo n = slice v (a + lo) n := by
  rw [slice, slice, ediv_two_pow_add]

/-- Cutting a number off above and below, in either order. -/
theorem emod_ediv (x : Int) {b n : Nat} (h : b ≤ n) :
    x % 2 ^ n / 2 ^ b = x / 2 ^ b % 2 ^ (n - b) := by
  have pos : (0 : Int) < 2 ^ b := pow_pos two_pos b
  have split : (2 : Int) ^ n = 2 ^ b * 2 ^ (n - b) := by rw [← pow_add, Nat.add_sub_cancel' h]
  have whole : x = x % 2 ^ n + 2 ^ b * (2 ^ (n - b) * (x / 2 ^ n)) := by
    rw [← mul_assoc, ← split]
    exact (Int.emod_add_mul_ediv x (2 ^ n)).symm
  have quotient : x / 2 ^ b = x % 2 ^ n / 2 ^ b + 2 ^ (n - b) * (x / 2 ^ n) := by
    conv_lhs => rw [whole]
    exact Int.add_mul_ediv_left _ _ pos.ne'
  have nonneg : 0 ≤ x % 2 ^ n / 2 ^ b :=
    Int.ediv_nonneg (Int.emod_nonneg _ (pow_ne_zero n two_ne_zero)) pos.le
  have lt : x % 2 ^ n / 2 ^ b < 2 ^ (n - b) := by
    rw [Int.ediv_lt_iff_lt_mul pos, mul_comm, ← split]
    exact Int.emod_lt_of_pos _ (pow_pos two_pos n)
  rw [quotient, Int.add_mul_emod_self_left, Int.emod_eq_of_lt nonneg lt]

/-- A field of a field. -/
theorem slice_slice (v : Int) {a n b m : Nat} (h : b + m ≤ n) :
    slice (slice v a n) b m = slice v (a + b) m := by
  unfold slice
  rw [emod_ediv _ (by omega : b ≤ n), ← ediv_two_pow_add]
  exact Int.emod_emod_of_dvd _ (pow_dvd_pow 2 (by omega : m ≤ n - b))

theorem slice_emod (v : Int) {lo m n : Nat} (h : lo + m ≤ n) :
    slice (v % 2 ^ n) lo m = slice v lo m := by
  rw [← slice_bottom, slice_slice v h, Nat.zero_add]

/-- Adjacent fields concatenate. -/
theorem slice_add (v : Int) (lo m n : Nat) :
    slice v lo (m + n) = slice v (lo + n) m * 2 ^ n + slice v lo n := by
  have high : slice v lo (m + n) / 2 ^ n = slice v (lo + n) m := by
    rw [slice, emod_ediv _ (Nat.le_add_left n m), ← ediv_two_pow_add, Nat.add_sub_cancel]
    rfl
  have low : slice v lo (m + n) % 2 ^ n = slice v lo n := by
    rw [← slice_bottom, slice_slice v (by omega), Nat.add_zero]
  rw [← high, ← low, mul_comm]
  exact (Int.mul_ediv_add_emod _ _).symm

theorem cat_ediv {a b : Int} {n : Nat} (nonneg : 0 ≤ b) (lt : b < 2 ^ n) :
    (a * 2 ^ n + b) / 2 ^ n = a := by
  rw [add_comm, Int.add_mul_ediv_right _ _ (pow_ne_zero n two_ne_zero),
    Int.ediv_eq_zero_of_lt nonneg lt, zero_add]

/-- The fields of a concatenation. -/
theorem slice_cat_high {a b : Int} {n : Nat} (nonneg : 0 ≤ b) (lt : b < 2 ^ n) (lo m : Nat) :
    slice (a * 2 ^ n + b) (n + lo) m = slice a lo m := by
  rw [← slice_ediv, cat_ediv nonneg lt]

theorem slice_cat_low (a b : Int) {lo m n : Nat} (h : lo + m ≤ n) :
    slice (a * 2 ^ n + b) lo m = slice b lo m := by
  rw [← slice_emod _ h, ← slice_emod b h, add_comm, Int.add_mul_emod_self_right]

theorem slice_of_shiftLeft (v : Int) (d lo n : Nat) :
    slice (v * 2 ^ d) (d + lo) n = slice v lo n := by
  have high := slice_cat_high (a := v) (le_refl 0) (pow_pos two_pos d : (0 : Int) < 2 ^ d) lo n
  rwa [add_zero] at high

theorem slice_shiftLeft (v : Int) (w n : Nat) :
    slice (v * 2 ^ n) 0 (w + n) = slice v 0 w * 2 ^ n := by
  have low : slice (v * 2 ^ n) 0 n = 0 := by
    rw [slice_bottom, Int.mul_emod_left]
  have high := slice_of_shiftLeft v n 0 w
  rw [Nat.add_zero] at high
  rw [slice_add, Nat.zero_add, high, low, add_zero]

theorem slice_field (v : Int) (lo n : Nat) : slice (slice v lo n) 0 n = slice v lo n :=
  slice_whole (slice_nonneg _ _ _) (slice_lt _ _ _)

theorem cat_range {a b : Int} {m n : Nat} (ha : 0 ≤ a ∧ a < 2 ^ m) (hb : 0 ≤ b ∧ b < 2 ^ n) :
    0 ≤ a * 2 ^ n + b ∧ a * 2 ^ n + b < 2 ^ (m + n) := by
  have pos : (0 : Int) < 2 ^ n := pow_pos two_pos n
  have step : (a + 1) * 2 ^ n ≤ 2 ^ m * 2 ^ n := mul_le_mul_of_nonneg_right (by omega) pos.le
  rw [pow_add]
  refine ⟨add_nonneg (mul_nonneg ha.1 pos.le) hb.1, ?_⟩
  rw [add_mul, one_mul] at step
  omega

theorem shifted_range {v : Int} {m n : Nat} (h : 0 ≤ v ∧ v < 2 ^ m) :
    0 ≤ v * 2 ^ n ∧ v * 2 ^ n < 2 ^ (m + n) := by
  have range := cat_range h (⟨le_refl 0, pow_pos two_pos n⟩ : (0 : Int) ≤ 0 ∧ (0 : Int) < 2 ^ n)
  rwa [add_zero] at range

end Gsim.BitSlice
