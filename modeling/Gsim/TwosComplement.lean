/-
  Gsim/TwosComplement.lean
  ========================
  **Fixed-width integers inside unbounded ones.**

  A word of `w` bits is kept as an `Int`: an unsigned word as a number of
  `[0, 2^w)`, a signed one as a number of `[-2^(w-1), 2^(w-1))` (`Fits`).
  `wrap` brings any integer into that range, and two integers wrap to the same
  word exactly when `2^w` divides their difference (`wrap_eq_iff`), which turns
  every equality of words into a divisibility.

  The bitwise operations are Mathlib's on `Int`, where a negative number carries
  infinitely many leading ones.  They act block by block (`bitwise_block`): cut
  both operands at bit `c` and the operation acts on the two halves separately.
  The masks, shifts and sign extensions below are instances of that one fact.

  Nothing here mentions a program.
-/
import Mathlib

namespace Gsim.TwosComplement

/-! ## Ranges and wrapping -/

/-- The integers a word of `w` bits can hold.  The signed range is written with
    doubled bounds, so that the empty word holds `0` and nothing else. -/
def Fits (sign : Bool) (w : Nat) (v : Int) : Prop :=
  if sign then -2 ^ w ≤ 2 * v ∧ 2 * v < 2 ^ w else 0 ≤ v ∧ v < 2 ^ w

instance (sign : Bool) (w : Nat) (v : Int) : Decidable (Fits sign w v) := by
  unfold Fits
  infer_instance

/-- The word of `w` bits congruent to `v`. -/
def wrap (sign : Bool) (w : Nat) (v : Int) : Int :=
  if sign then Int.bmod v (2 ^ w) else v % 2 ^ w

theorem fits_unsigned {w : Nat} {v : Int} : Fits false w v ↔ 0 ≤ v ∧ v < 2 ^ w := by
  simp [Fits]

theorem fits_signed {w : Nat} {v : Int} : Fits true w v ↔ -2 ^ w ≤ 2 * v ∧ 2 * v < 2 ^ w := by
  simp [Fits]

theorem two_pow_pos (w : Nat) : (0 : Int) < 2 ^ w := pow_pos (by decide) w

theorem two_pow_le {c w : Nat} (h : c ≤ w) : (2 : Int) ^ c ≤ 2 ^ w :=
  pow_le_pow_right₀ (by decide) h

theorem two_pow_split {c w : Nat} (h : c ≤ w) : (2 : Int) ^ w = 2 ^ c * 2 ^ (w - c) := by
  rw [← pow_add, Nat.add_sub_cancel' h]

theorem two_pow_dvd {c w : Nat} : (2 : Int) ^ w ∣ 2 ^ c ↔ w ≤ c := by
  constructor
  · intro dvd
    have nat : 2 ^ w ∣ 2 ^ c := by exact_mod_cast dvd
    exact (Nat.pow_dvd_pow_iff_le_right (by decide)).mp nat
  · exact pow_dvd_pow 2

theorem Fits.zero (sign : Bool) (w : Nat) : Fits sign w 0 := by
  have pos := two_pow_pos w
  cases sign with
  | false => exact fits_unsigned.mpr ⟨le_refl 0, pos⟩
  | true => exact fits_signed.mpr (by omega)

theorem Fits.mono {sign : Bool} {c w : Nat} {v : Int} (h : c ≤ w) (fits : Fits sign c v) :
    Fits sign w v := by
  have le := two_pow_le h
  cases sign with
  | false =>
    rw [fits_unsigned] at fits ⊢
    omega
  | true =>
    rw [fits_signed] at fits ⊢
    omega

/-- The only word of no bits is `0`. -/
theorem Fits.eq_zero {sign : Bool} {v : Int} (fits : Fits sign 0 v) : v = 0 := by
  cases sign with
  | false =>
    rw [fits_unsigned, pow_zero] at fits
    omega
  | true =>
    rw [fits_signed, pow_zero] at fits
    omega

/-- Whichever the sign, a word is smaller than `2^w` in absolute value. -/
theorem Fits.bounds {sign : Bool} {w : Nat} {v : Int} (fits : Fits sign w v) :
    -2 ^ w < v ∧ v < 2 ^ w := by
  have pos := two_pow_pos w
  cases sign with
  | false =>
    rw [fits_unsigned] at fits
    omega
  | true =>
    rw [fits_signed] at fits
    omega

/-- Any two words of one type are less than `2^w` apart. -/
theorem Fits.sub_lt {sign : Bool} {w : Nat} {a b : Int} (ha : Fits sign w a) (hb : Fits sign w b) :
    |a - b| < 2 ^ w := by
  rw [abs_lt]
  cases sign with
  | false =>
    rw [fits_unsigned] at ha hb
    omega
  | true =>
    rw [fits_signed] at ha hb
    omega

theorem fits_wrap (sign : Bool) (w : Nat) (v : Int) : Fits sign w (wrap sign w v) := by
  have pos := two_pow_pos w
  cases sign with
  | false =>
    exact fits_unsigned.mpr ⟨Int.emod_nonneg v (ne_of_gt pos), Int.emod_lt_of_pos v pos⟩
  | true =>
    have natPos : 0 < 2 ^ w := Nat.two_pow_pos w
    have low := Int.le_bmod (x := v) natPos
    have high := Int.bmod_lt (x := v) natPos
    have wrapped : wrap true w v = Int.bmod v (2 ^ w) := rfl
    rw [fits_signed, wrapped]
    generalize Int.bmod v (2 ^ w) = r at low high ⊢
    push_cast at low high
    cases w with
    | zero => omega
    | succ w =>
      rw [pow_succ] at low high ⊢
      omega

theorem dvd_wrap_sub (sign : Bool) (w : Nat) (v : Int) : (2 : Int) ^ w ∣ v - wrap sign w v := by
  cases sign with
  | false => exact Int.dvd_self_sub_emod
  | true =>
    have cong : Int.bmod v (2 ^ w) ≡ v [ZMOD ((2 ^ w : Nat) : Int)] := Int.bmod_emod
    have dvd := Int.ModEq.dvd cong
    exact_mod_cast dvd

/-- Wrapping hits the word `b` exactly on the integers congruent to it. -/
theorem wrap_eq_iff {sign : Bool} {w : Nat} {a b : Int} (hb : Fits sign w b) :
    wrap sign w a = b ↔ (2 : Int) ^ w ∣ a - b := by
  constructor
  · intro eq
    rw [← eq]
    exact dvd_wrap_sub sign w a
  · intro dvd
    have diff : (2 : Int) ^ w ∣ wrap sign w a - b := by
      have := dvd_sub dvd (dvd_wrap_sub sign w a)
      rwa [sub_sub_sub_cancel_left] at this
    have close := (fits_wrap sign w a).sub_lt hb
    exact sub_eq_zero.mp (Int.eq_zero_of_abs_lt_dvd diff close)

theorem wrap_of_fits {sign : Bool} {w : Nat} {v : Int} (fits : Fits sign w v) :
    wrap sign w v = v := by
  rw [wrap_eq_iff fits, sub_self]
  exact dvd_zero _

/-! ## Bitwise operations, block by block -/

section Bitwise

variable (f : Bool → Bool → Bool) (hf : f false false = false)
include hf

theorem bitwise_zero_zero : Int.bitwise f 0 0 = 0 := by
  show Int.natBitwise f 0 0 = 0
  simp [Int.natBitwise, hf]

omit hf in
theorem bit_add (c : Nat) (p x : Int) :
    2 ^ (c + 1) * p + x = Int.bit (Int.bodd x) (2 ^ c * p + Int.div2 x) := by
  conv_lhs => rw [← Int.bit_decomp x]
  rw [Int.bit_val, Int.bit_val, pow_succ]
  ring

omit hf in
theorem div2_range {c : Nat} {x : Int} (hx : 0 ≤ x ∧ x < 2 ^ (c + 1)) :
    0 ≤ Int.div2 x ∧ Int.div2 x < 2 ^ c := by
  rw [Int.div2_val]
  rw [pow_succ] at hx
  omega

/-- A bitwise operation acts separately above and below any bit position. -/
theorem bitwise_block (c : Nat) (a b r s : Int) (hr : 0 ≤ r ∧ r < 2 ^ c)
    (hs : 0 ≤ s ∧ s < 2 ^ c) :
    Int.bitwise f (2 ^ c * a + r) (2 ^ c * b + s) =
      2 ^ c * Int.bitwise f a b + Int.bitwise f r s := by
  -- the induction moves the cut one bit down, the lowest bit of `r` and `s` first
  induction c generalizing r s with
  | zero =>
    rw [pow_zero] at hr hs
    have r0 : r = 0 := by omega
    have s0 : s = 0 := by omega
    subst r0 s0
    simp [bitwise_zero_zero f hf]
  | succ c ih =>
    rw [bit_add c a r, bit_add c b s, Int.bitwise_bit, ih _ _ (div2_range hr) (div2_range hs)]
    conv_rhs => rw [← Int.bit_decomp r, ← Int.bit_decomp s, Int.bitwise_bit]
    rw [Int.bit_val, Int.bit_val, pow_succ]
    ring

theorem bitwise_range (c : Nat) (r s : Int) (hr : 0 ≤ r ∧ r < 2 ^ c) (hs : 0 ≤ s ∧ s < 2 ^ c) :
    0 ≤ Int.bitwise f r s ∧ Int.bitwise f r s < 2 ^ c := by
  induction c generalizing r s with
  | zero =>
    rw [pow_zero] at hr hs
    have r0 : r = 0 := by omega
    have s0 : s = 0 := by omega
    subst r0 s0
    rw [bitwise_zero_zero f hf]
    decide
  | succ c ih =>
    have half := ih _ _ (div2_range hr) (div2_range hs)
    rw [← Int.bit_decomp r, ← Int.bit_decomp s, Int.bitwise_bit, Int.bit_val, pow_succ]
    cases f (Int.bodd r) (Int.bodd s) with
    | false =>
      simp only [cond_false]
      omega
    | true =>
      simp only [cond_true]
      omega

/-- A bitwise operation commutes with taking the low `c` bits. -/
theorem bitwise_emod (c : Nat) (a b : Int) :
    Int.bitwise f a b % 2 ^ c = Int.bitwise f (a % 2 ^ c) (b % 2 ^ c) := by
  have pos := two_pow_pos c
  have low : ∀ x : Int, 0 ≤ x % 2 ^ c ∧ x % 2 ^ c < 2 ^ c := fun x =>
    ⟨Int.emod_nonneg x (ne_of_gt pos), Int.emod_lt_of_pos x pos⟩
  have range := bitwise_range f hf c _ _ (low a) (low b)
  conv_lhs =>
    rw [← Int.mul_ediv_add_emod a (2 ^ c), ← Int.mul_ediv_add_emod b (2 ^ c),
      bitwise_block f hf c _ _ _ _ (low a) (low b)]
  rw [Int.mul_add_emod_self_left, Int.emod_eq_of_lt range.1 range.2]

end Bitwise

/-! ## Masks -/

theorem emod_range (v : Int) (c : Nat) : 0 ≤ v % 2 ^ c ∧ v % 2 ^ c < 2 ^ c :=
  ⟨Int.emod_nonneg v (ne_of_gt (two_pow_pos c)), Int.emod_lt_of_pos v (two_pow_pos c)⟩

/-- Only the low bits decide divisibility by `2^c`. -/
theorem dvd_emod_sub_iff {c : Nat} {a b : Int} :
    (2 : Int) ^ c ∣ a % 2 ^ c - b ↔ (2 : Int) ^ c ∣ a - b := by
  apply dvd_iff_dvd_of_dvd_sub
  rw [sub_sub_sub_cancel_right, ← dvd_neg, neg_sub]
  exact Int.dvd_self_sub_emod

theorem ones_range (c : Nat) : (0 : Int) ≤ 2 ^ c - 1 ∧ (2 : Int) ^ c - 1 < 2 ^ c := by
  have := two_pow_pos c
  omega

theorem bodd_ones (c : Nat) : Int.bit true (2 ^ c - 1) = 2 ^ (c + 1) - 1 := by
  rw [Int.bit_val, pow_succ, cond_true]
  ring

theorem land_comm (a b : Int) : Int.land a b = Int.land b a := by
  cases a with
  | ofNat m =>
    cases b with
    | ofNat n => simp [Int.land, Nat.land_comm]
    | negSucc n => rfl
  | negSucc m =>
    cases b with
    | ofNat n => rfl
    | negSucc n => simp [Int.land, Nat.lor_comm]

theorem land_zero (a : Int) : Int.land a 0 = 0 := by
  cases a with
  | ofNat m =>
    show ((m &&& 0 : Nat) : Int) = 0
    simp
  | negSucc m =>
    show ((Nat.ldiff 0 m : Nat) : Int) = 0
    simp [Nat.ldiff]

theorem zero_land (a : Int) : Int.land 0 a = 0 := by
  rw [land_comm, land_zero]

theorem lor_zero (a : Int) : Int.lor a 0 = a := by
  cases a with
  | ofNat m =>
    show ((m ||| 0 : Nat) : Int) = m
    simp
  | negSucc m =>
    show Int.negSucc (Nat.ldiff m 0) = Int.negSucc m
    simp [Nat.ldiff]

theorem zero_lor (a : Int) : Int.lor 0 a = a := by
  cases a with
  | ofNat m =>
    show ((0 ||| m : Nat) : Int) = m
    simp
  | negSucc m =>
    show Int.negSucc (Nat.ldiff m 0) = Int.negSucc m
    simp [Nat.ldiff]

theorem zero_xor (a : Int) : Int.xor 0 a = a := by
  cases a with
  | ofNat m =>
    show ((0 ^^^ m : Nat) : Int) = m
    simp
  | negSucc m =>
    show Int.negSucc (0 ^^^ m) = Int.negSucc m
    simp

theorem nonneg_lor_neg_one {a : Int} (ha : 0 ≤ a) : Int.lor a (-1) = -1 := by
  obtain ⟨m, rfl⟩ := Int.eq_ofNat_of_zero_le ha
  show Int.negSucc (Nat.ldiff 0 m) = -1
  simp [Nat.ldiff]

theorem land_ones (c : Nat) (r : Int) (hr : 0 ≤ r ∧ r < 2 ^ c) : Int.land r (2 ^ c - 1) = r := by
  induction c generalizing r with
  | zero =>
    rw [pow_zero] at hr ⊢
    exact (land_zero r).trans (by omega)
  | succ c ih =>
    rw [← bodd_ones, ← Int.bit_decomp r, Int.land_bit, ih _ (div2_range hr), Bool.and_true]

theorem ones_lor (c : Nat) (r : Int) (hr : 0 ≤ r ∧ r < 2 ^ c) :
    Int.lor (2 ^ c - 1) r = 2 ^ c - 1 := by
  induction c generalizing r with
  | zero =>
    rw [pow_zero] at hr ⊢
    exact (zero_lor r).trans (by omega)
  | succ c ih =>
    rw [← bodd_ones, ← Int.bit_decomp r, Int.lor_bit, ih _ (div2_range hr), Bool.true_or]

theorem lor_ones (c : Nat) (r : Int) (hr : 0 ≤ r ∧ r < 2 ^ c) :
    Int.lor r (2 ^ c - 1) = 2 ^ c - 1 := by
  induction c generalizing r with
  | zero =>
    rw [pow_zero] at hr ⊢
    exact lor_zero r |>.trans (by omega)
  | succ c ih =>
    rw [← bodd_ones, ← Int.bit_decomp r, Int.lor_bit, ih _ (div2_range hr), Bool.or_true]

theorem xor_ones (c : Nat) (r : Int) (hr : 0 ≤ r ∧ r < 2 ^ c) :
    Int.xor (2 ^ c - 1) r = 2 ^ c - 1 - r := by
  induction c generalizing r with
  | zero =>
    rw [pow_zero] at hr ⊢
    exact (zero_xor r).trans (by omega)
  | succ c ih =>
    have half := ih _ (div2_range hr)
    rw [← bodd_ones, ← Int.bit_decomp r, Int.lxor_bit, half, Int.bit_val, Int.bit_val, Int.bit_val]
    cases Int.bodd r with
    | false =>
      simp only [Bool.xor_false, cond_true, cond_false]
      ring
    | true =>
      simp only [Bool.xor_true, Bool.not_true, cond_true, cond_false]
      ring

theorem land_block (c : Nat) (a b r s : Int) (hr : 0 ≤ r ∧ r < 2 ^ c) (hs : 0 ≤ s ∧ s < 2 ^ c) :
    Int.land (2 ^ c * a + r) (2 ^ c * b + s) = 2 ^ c * Int.land a b + Int.land r s := by
  rw [← Int.bitwise_and]
  exact bitwise_block _ rfl c a b r s hr hs

theorem lor_block (c : Nat) (a b r s : Int) (hr : 0 ≤ r ∧ r < 2 ^ c) (hs : 0 ≤ s ∧ s < 2 ^ c) :
    Int.lor (2 ^ c * a + r) (2 ^ c * b + s) = 2 ^ c * Int.lor a b + Int.lor r s := by
  rw [← Int.bitwise_or]
  exact bitwise_block _ rfl c a b r s hr hs

theorem xor_block (c : Nat) (a b r s : Int) (hr : 0 ≤ r ∧ r < 2 ^ c) (hs : 0 ≤ s ∧ s < 2 ^ c) :
    Int.xor (2 ^ c * a + r) (2 ^ c * b + s) = 2 ^ c * Int.xor a b + Int.xor r s := by
  rw [← Int.bitwise_xor]
  exact bitwise_block _ rfl c a b r s hr hs

/-- Masking with `2^c - 1` keeps the low `c` bits, of negative numbers too. -/
theorem land_mask (v : Int) (c : Nat) : Int.land v (2 ^ c - 1) = v % 2 ^ c := by
  have cut := land_block c (v / 2 ^ c) 0 (v % 2 ^ c) (2 ^ c - 1) (emod_range v c) (ones_range c)
  rw [Int.mul_ediv_add_emod, mul_zero, zero_add, land_zero, mul_zero, zero_add,
    land_ones c _ (emod_range v c)] at cut
  exact cut

theorem mask_land (v : Int) (c : Nat) : Int.land (2 ^ c - 1) v = v % 2 ^ c := by
  rw [land_comm, land_mask]

/-- Masking with `k` ones at position `l`. -/
theorem land_shifted_mask (v : Int) (k l : Nat) :
    Int.land v ((2 ^ k - 1) * 2 ^ l) = 2 ^ l * (v / 2 ^ l % 2 ^ k) := by
  have zeroRange : (0 : Int) ≤ 0 ∧ (0 : Int) < 2 ^ l := ⟨le_refl 0, two_pow_pos l⟩
  have cut := land_block l (v / 2 ^ l) (2 ^ k - 1) (v % 2 ^ l) 0 (emod_range v l) zeroRange
  rw [Int.mul_ediv_add_emod, add_zero, land_zero, add_zero, land_mask] at cut
  rw [mul_comm]
  exact cut

/-- Putting `r` below a shifted number is adding it. -/
theorem lor_shifted (a r : Int) (c : Nat) (hr : 0 ≤ r ∧ r < 2 ^ c) :
    Int.lor (a * 2 ^ c) r = a * 2 ^ c + r := by
  have zeroRange : (0 : Int) ≤ 0 ∧ (0 : Int) < 2 ^ c := ⟨le_refl 0, two_pow_pos c⟩
  have cut := lor_block c a 0 0 r zeroRange hr
  rw [add_zero, mul_zero, zero_add, lor_zero, zero_lor, mul_comm] at cut
  exact cut

/-- A negative word of `c` bits already has every bit from `c` on. -/
theorem lor_sign_extension (a v : Int) (c : Nat) (ha : 0 ≤ a) (hv : -2 ^ c ≤ v ∧ v < 0) :
    Int.lor (a * 2 ^ c) v = v := by
  have zeroRange : (0 : Int) ≤ 0 ∧ (0 : Int) < 2 ^ c := ⟨le_refl 0, two_pow_pos c⟩
  have low : 0 ≤ v + 2 ^ c ∧ v + 2 ^ c < 2 ^ c := by omega
  have cut := lor_block c a (-1) 0 (v + 2 ^ c) zeroRange low
  rw [nonneg_lor_neg_one ha, zero_lor, add_zero, mul_comm] at cut
  have word : 2 ^ c * (-1) + (v + 2 ^ c) = v := by ring
  rwa [word] at cut

/-- Flipping the low `c` bits. -/
theorem xor_mask (v : Int) (c : Nat) :
    Int.xor (2 ^ c - 1) v = 2 ^ c * (v / 2 ^ c) + (2 ^ c - 1 - v % 2 ^ c) := by
  have cut := xor_block c 0 (v / 2 ^ c) (2 ^ c - 1) (v % 2 ^ c) (ones_range c) (emod_range v c)
  rw [Int.mul_ediv_add_emod, mul_zero, zero_add, zero_xor, xor_ones c _ (emod_range v c)] at cut
  exact cut

/-! ## Single bits -/

theorem testBit_natCast (v i : Nat) : Int.testBit (v : Int) i = v.testBit i := rfl

/-- The top bit of a word of `c + 1` bits. -/
theorem testBit_top {c : Nat} {v : Int} (hv : 0 ≤ v ∧ v < 2 ^ (c + 1)) :
    Int.testBit v c = true ↔ 2 ^ c ≤ v := by
  obtain ⟨m, rfl⟩ := Int.eq_ofNat_of_zero_le hv.1
  have lt : m < 2 ^ (c + 1) := by exact_mod_cast hv.2
  rw [testBit_natCast]
  constructor
  · intro set
    exact_mod_cast Nat.ge_two_pow_of_testBit set
  · intro le
    have nat : 2 ^ c ≤ m := by exact_mod_cast le
    rw [Nat.testBit_eq_decide_div_mod_eq, decide_eq_true_eq]
    have one : m / 2 ^ c = 1 := by
      apply Nat.div_eq_of_lt_le
      · rwa [one_mul]
      · rw [pow_succ] at lt
        omega
    rw [one]

/-- The number of ones among the low `w` bits. -/
def ones (w : Nat) (v : Int) : Nat := (List.range w).countP (Int.testBit v)

/-- Above its width an unsigned word has no ones. -/
theorem ones_of_fits {c w : Nat} {v : Int} (h : c ≤ w) (hv : 0 ≤ v ∧ v < 2 ^ c) :
    ones w v = ones c v := by
  obtain ⟨m, rfl⟩ := Int.eq_ofNat_of_zero_le hv.1
  have lt : m < 2 ^ c := by exact_mod_cast hv.2
  obtain ⟨k, rfl⟩ := Nat.exists_eq_add_of_le h
  have none : ∀ i ∈ (List.range k).map (c + ·), ¬ Int.testBit (m : Int) i = true := by
    intro i hi
    obtain ⟨j, -, rfl⟩ := List.mem_map.mp hi
    rw [testBit_natCast, Nat.testBit_lt_two_pow (lt.trans_le (Nat.pow_le_pow_right (by decide) (by omega)))]
    decide
  unfold ones
  rw [List.range_add, List.countP_append, List.countP_eq_zero.mpr none, Nat.add_zero]

end Gsim.TwosComplement
