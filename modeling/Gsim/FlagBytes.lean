/-
  Gsim/FlagBytes.lean
  ===================
  **Flags in an array of bytes.**

  Flag `n` is bit `n % 8` of byte `n / 8`.  A 64-bit value at an index stands for
  the flags of eight bytes from there on, lowest byte first (`covers`).  A wide
  access loads some bytes as one number and stores it back; `flag_orAt` says that
  `|=` through such an access sets the flags that the value covers and no others.
-/
import Mathlib.Data.BitVec
import Mathlib.Tactic

namespace FlagBytes

def flag (bytes : ℕ → BitVec 8) (n : ℕ) : Bool := (bytes (n / 8)).getLsbD (n % 8)

theorem ext_flag {a b : ℕ → BitVec 8} (same : ∀ n, flag a n = flag b n) : a = b := by
  funext w
  apply BitVec.eq_of_getLsbD_eq
  intro i hi
  have word : (8 * w + i) / 8 = w := by omega
  have bit : (8 * w + i) % 8 = i := by omega
  have at_ := same (8 * w + i)
  rwa [flag, flag, word, bit] at at_

/-! ## Values over several bytes -/

def byte (value : BitVec 64) (i : ℕ) : BitVec 8 := (value >>> (8 * i)).setWidth 8

theorem getLsbD_byte (value : BitVec 64) (i j : ℕ) :
    (byte value i).getLsbD j = (decide (j < 8) && value.getLsbD (8 * i + j)) := by
  rw [byte, BitVec.getLsbD_setWidth, BitVec.getLsbD_ushiftRight]

/-- The flags of a value that is placed at byte `idx`. -/
def covers (idx : ℕ) (value : BitVec 64) (n : ℕ) : Bool :=
  decide (8 * idx ≤ n) && value.getLsbD (n - 8 * idx)

theorem covers_or (idx : ℕ) (a b : BitVec 64) (n : ℕ) :
    covers idx (a ||| b) n = (covers idx a n || covers idx b n) := by
  rw [covers, covers, covers, BitVec.getLsbD_or, Bool.and_or_distrib_left]

theorem covers_zero (idx n : ℕ) : covers idx 0 n = false := by
  simp [covers]

/-- A byte of the value holds its flags. -/
theorem getLsbD_byte_sub {idx n : ℕ} (value : BitVec 64) (above : 8 * idx ≤ n) :
    (byte value (n / 8 - idx)).getLsbD (n % 8) = covers idx value n := by
  have bit : 8 * (n / 8 - idx) + n % 8 = n - 8 * idx := by omega
  rw [getLsbD_byte, bit, covers, decide_eq_true (Nat.mod_lt n (by decide)), decide_eq_true above]

/-- A value with flags in its lowest byte only may be moved to another byte. -/
theorem covers_shiftLeft {idx low : ℕ} {value : BitVec 64} (below : low ≤ idx) (near : idx < low + 8)
    (small : idx = low ∨ ∀ i, 8 ≤ i → value.getLsbD i = false) (n : ℕ) :
    covers low (value <<< ((idx - low) * 8)) n = covers idx value n := by
  rw [covers, covers, BitVec.getLsbD_shiftLeft]
  rcases small with rfl | small
  · rw [Nat.sub_self, Nat.zero_mul, Nat.sub_zero]
    by_cases inside : n - 8 * idx < 64
    · simp [inside]
    · rw [BitVec.getLsbD_of_ge value _ (by omega)]
      simp
  · by_cases inside : 8 * idx ≤ n ∧ n < 8 * idx + 8
    · have bit : n - 8 * low - (idx - low) * 8 = n - 8 * idx := by omega
      rw [bit, decide_eq_true (by omega : 8 * low ≤ n), decide_eq_true (by omega : 8 * idx ≤ n),
        decide_eq_true (by omega : n - 8 * low < 64),
        decide_eq_false (by omega : ¬ n - 8 * low < (idx - low) * 8)]
      rfl
    · by_cases above : 8 * idx ≤ n
      · rw [small _ (by omega : 8 ≤ n - 8 * idx), small _ (by omega : 8 ≤ n - 8 * low - (idx - low) * 8)]
        simp
      · rw [decide_eq_false above]
        by_cases first : 8 * low ≤ n
        · rw [decide_eq_true (by omega : n - 8 * low < (idx - low) * 8)]
          simp
        · rw [decide_eq_false first]
          rfl

/-! ## Wide accesses -/

/-- `size` bytes as one number. -/
def load (bytes : ℕ → BitVec 8) (idx : ℕ) : ℕ → BitVec 64
  | 0 => 0
  | size + 1 => load bytes idx size ||| (bytes (idx + size)).setWidth 64 <<< (8 * size)

def store (bytes : ℕ → BitVec 8) (idx size : ℕ) (value : BitVec 64) : ℕ → BitVec 8 := fun w =>
  if idx ≤ w ∧ w < idx + size then byte value (w - idx) else bytes w

/-- `*(T *) &bytes[idx] |= value` for an unsigned `T` of `size` bytes. -/
def orAt (bytes : ℕ → BitVec 8) (idx size : ℕ) (value : BitVec 64) : ℕ → BitVec 8 :=
  store bytes idx size (load bytes idx size ||| value)

theorem getLsbD_load (bytes : ℕ → BitVec 8) (idx : ℕ) {size : ℕ} (fits : size ≤ 8) (i : ℕ) :
    (load bytes idx size).getLsbD i = (decide (i < 8 * size) && flag bytes (8 * idx + i)) := by
  induction size with
  | zero => simp [load]
  | succ size ih =>
    rw [load, BitVec.getLsbD_or, ih (by omega), BitVec.getLsbD_shiftLeft, BitVec.getLsbD_setWidth]
    by_cases lower : i < 8 * size
    · simp [lower, (by omega : i < 8 * (size + 1))]
    · by_cases here : i < 8 * (size + 1)
      · have word : (8 * idx + i) / 8 = idx + size := by omega
        have bit : (8 * idx + i) % 8 = i - 8 * size := by omega
        simp [flag, lower, here, word, bit, (by omega : i < 64), (by omega : i - 8 * size < 64)]
      · have past := BitVec.getLsbD_of_ge (bytes (idx + size)) (i - 8 * size) (by omega)
        simp [lower, here, past]

theorem flag_orAt (bytes : ℕ → BitVec 8) (idx : ℕ) {size : ℕ} (fits : size ≤ 8) (value : BitVec 64)
    (n : ℕ) :
    flag (orAt bytes idx size value) n =
      (flag bytes n || (decide (n < 8 * (idx + size)) && covers idx value n)) := by
  unfold orAt store
  rw [flag]
  by_cases inside : idx ≤ n / 8 ∧ n / 8 < idx + size
  · have above : 8 * idx ≤ n := by omega
    have below : n < 8 * (idx + size) := by omega
    have place : 8 * idx + (n - 8 * idx) = n := by omega
    rw [if_pos inside, getLsbD_byte_sub _ above, covers_or, covers, getLsbD_load bytes idx fits, place,
      decide_eq_true above, decide_eq_true below, decide_eq_true (by omega : n - 8 * idx < 8 * size)]
    rfl
  · have outside : (decide (n < 8 * (idx + size)) && covers idx value n) = false := by
      rw [covers]
      by_cases below : n < 8 * (idx + size)
      · rw [decide_eq_false (by omega : ¬ 8 * idx ≤ n)]
        simp
      · rw [decide_eq_false below]
        rfl
    rw [if_neg inside, outside, Bool.or_false]
    rfl

end FlagBytes
