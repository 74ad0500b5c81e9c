/-
  Gsim/OpFuncs.lean
  =================
  **The arbitrary-precision operations of `opFuncs.cpp`.**

  Constants are GMP integers, so a value here is an `Int` and a bit count is a
  `Nat`.  The destination is a parameter only of the operations that read it
  back: `us_div` and `us_rem` leave it alone on a zero divisor, and `s_shr`
  shifts the destination instead of its source when the source is negative.

  `mpz_tdiv_*` rounds toward zero, `mpz_fdiv_*` toward minus infinity;
  `mpz_get_ui` returns the low 64 bits of the absolute value; `mpz_popcount`
  of a negative number is the largest `unsigned long`.
-/
import Gsim.TwosComplement

namespace Gsim.OpFuncs

open Gsim.TwosComplement

/-! ## GMP -/

def mpz_mul_2exp (x : Int) (n : Nat) : Int := x * 2 ^ n

def mpz_tdiv_q_2exp (x : Int) (n : Nat) : Int := Int.tdiv x (2 ^ n)

def mpz_fdiv_q_2exp (x : Int) (n : Nat) : Int := Int.fdiv x (2 ^ n)

def mpz_get_ui (x : Int) : Nat := x.natAbs % 2 ^ 64

def mpz_popcount (x : Int) : Nat := if x < 0 then 2 ^ 64 - 1 else ones x.natAbs.size x

/-- `2^n - 1`, built in `t1`/`t2`/`mask` by every operation that masks. -/
def allOnes (n : Nat) : Int := mpz_mul_2exp 1 n - 1

/-- `mpz_set_ui(dst, cond)`. -/
def ofCond (b : Bool) : Int := if b then 1 else 0

/-! ## One expression and one integer -/

def u_pad (src : Int) (_bitcnt _n : Nat) : Int := src

def s_pad (src : Int) (bitcnt n : Nat) : Int :=
  if n ≤ bitcnt ∨ 0 ≤ src then src
  else Int.lor (mpz_mul_2exp (allOnes (n - bitcnt)) bitcnt) src

def u_shl (src : Int) (_bitcnt n : Nat) : Int := mpz_mul_2exp src n

def u_shr (src : Int) (_bitcnt n : Nat) : Int := mpz_tdiv_q_2exp src n

def s_shr (dst src : Int) (_bitcnt n : Nat) : Int :=
  if src < 0 then mpz_fdiv_q_2exp dst n else mpz_tdiv_q_2exp src n

/-- Removes the last `n` bits. -/
def u_head (src : Int) (_bitcnt n : Nat) : Int := mpz_tdiv_q_2exp src n

/-- Keeps the last `n` bits. -/
def u_tail (src : Int) (bitcnt n : Nat) : Int :=
  if src = 0 then src
  else if src < 0 then Int.land (allOnes n) (mpz_mul_2exp 1 bitcnt + src)
  else Int.land (allOnes n) src

/-! ## One expression -/

def u_asUInt (src : Int) (bitcnt : Nat) : Int :=
  if src < 0 then mpz_mul_2exp 1 bitcnt + src else src

/-- The tested bit is `bitcnt - 1` of an `unsigned long`: at width zero it wraps to bit
    `2^64 - 1`. -/
def s_asSInt (src : Int) (bitcnt : Nat) : Int :=
  if 0 < src ∧ Int.testBit src ((bitcnt + (2 ^ 64 - 1)) % 2 ^ 64) = true then
    -(mpz_mul_2exp 1 bitcnt - src)
  else src

def u_asClock (src : Int) (_bitcnt : Nat) : Int := src

def u_asAsyncReset (src : Int) (_bitcnt : Nat) : Int := src

def u_cvt (src : Int) (_bitcnt : Nat) : Int := src

def s_cvt (src : Int) (_bitcnt : Nat) : Int := src

def s_neg (src : Int) (_bitcnt : Nat) : Int := 0 - src

def u_not (src : Int) (bitcnt : Nat) : Int := Int.xor (allOnes bitcnt) src

def u_orr (src : Int) (_bitcnt : Nat) : Int := if src = 0 then 0 else 1

def u_andr (src : Int) (bitcnt : Nat) : Int := ofCond (decide (allOnes bitcnt = src))

def u_xorr (src : Int) (_bitcnt : Nat) : Int := (mpz_popcount src % 2 : Nat)

/-! ## Two expressions -/

def us_add (src1 : Int) (_bitcnt1 : Nat) (src2 : Int) (_bitcnt2 : Nat) : Int := src1 + src2

def us_sub (src1 src2 : Int) (dst_bitcnt : Nat) : Int :=
  if src2 = 0 then src1 else mpz_mul_2exp 1 dst_bitcnt - src2 + src1

def us_mul (src1 : Int) (_bitcnt1 : Nat) (src2 : Int) (_bitcnt2 : Nat) : Int := src1 * src2

def us_div (dst src1 : Int) (_bitcnt1 : Nat) (src2 : Int) (_bitcnt2 : Nat) : Int :=
  if src2 = 0 then dst else Int.tdiv src1 src2

def us_rem (dst src1 : Int) (_bitcnt1 : Nat) (src2 : Int) (_bitcnt2 : Nat) : Int :=
  if src2 = 0 then dst else Int.tmod src1 src2

def us_lt (op1 : Int) (_bitcnt1 : Nat) (op2 : Int) (_bitcnt2 : Nat) : Int := ofCond (op1 < op2)

def us_leq (op1 : Int) (_bitcnt1 : Nat) (op2 : Int) (_bitcnt2 : Nat) : Int := ofCond (op1 ≤ op2)

def us_gt (op1 : Int) (_bitcnt1 : Nat) (op2 : Int) (_bitcnt2 : Nat) : Int := ofCond (op2 < op1)

def us_geq (op1 : Int) (_bitcnt1 : Nat) (op2 : Int) (_bitcnt2 : Nat) : Int := ofCond (op2 ≤ op1)

def us_eq (op1 : Int) (_bitcnt1 : Nat) (op2 : Int) (_bitcnt2 : Nat) : Int := ofCond (op1 = op2)

def us_neq (op1 : Int) (_bitcnt1 : Nat) (op2 : Int) (_bitcnt2 : Nat) : Int := ofCond (op1 ≠ op2)

def u_dshl (src1 : Int) (_bitcnt1 : Nat) (src2 : Int) (_bitcnt2 : Nat) : Int :=
  mpz_mul_2exp src1 (mpz_get_ui src2)

def u_dshr (src1 : Int) (_bitcnt1 : Nat) (src2 : Int) (_bitcnt2 : Nat) : Int :=
  mpz_tdiv_q_2exp src1 (mpz_get_ui src2)

/-- `int n = mpz_get_ui(src2)`, handed on as an `unsigned long` bit count: 32 bits, sign
    extended to 64. -/
def s_dshrCount (src2 : Int) : Nat := (Int.bmod (mpz_get_ui src2) (2 ^ 32) % 2 ^ 64).toNat

def s_dshr (src1 : Int) (_bitcnt1 : Nat) (src2 : Int) (_bitcnt2 : Nat) : Int :=
  if src1 < 0 then mpz_fdiv_q_2exp src1 (s_dshrCount src2)
  else mpz_tdiv_q_2exp src1 (s_dshrCount src2)

def u_and (src1 : Int) (_bitcnt1 : Nat) (src2 : Int) (_bitcnt2 : Nat) : Int := Int.land src1 src2

def u_ior (src1 : Int) (_bitcnt1 : Nat) (src2 : Int) (_bitcnt2 : Nat) : Int := Int.lor src1 src2

def u_xor (src1 : Int) (_bitcnt1 : Nat) (src2 : Int) (_bitcnt2 : Nat) : Int := Int.xor src1 src2

/-- Fails its `Assert` on a negative operand. -/
def u_cat (src1 : Int) (_bitcnt1 : Nat) (src2 : Int) (bitcnt2 : Nat) : Option Int :=
  if 0 ≤ src1 ∧ 0 ≤ src2 then some (Int.lor (mpz_mul_2exp src1 bitcnt2) src2) else none

/-! ## One expression and two integers -/

def u_bits (src : Int) (bitcnt h l : Nat) : Int :=
  let t1 := mpz_tdiv_q_2exp (if src < 0 then mpz_mul_2exp 1 bitcnt + src else src) l
  Int.land t1 (allOnes (h - l + 1))

def u_bits_noshift (src : Int) (bitcnt h l : Nat) : Int :=
  let t1 := if src < 0 then mpz_mul_2exp 1 bitcnt + src else src
  Int.land t1 (mpz_mul_2exp (allOnes (h - l + 1)) l)

/-! ## Specifications -/

theorem allOnes_eq (n : Nat) : allOnes n = 2 ^ n - 1 := by
  simp [allOnes, mpz_mul_2exp]

theorem mpz_get_ui_of_lt {x : Int} (nonneg : 0 ≤ x) (lt : x < 2 ^ 64) :
    mpz_get_ui x = x.toNat := by
  unfold mpz_get_ui
  rw [Nat.mod_eq_of_lt] <;> omega

theorem mpz_tdiv_q_2exp_of_nonneg {x : Int} (nonneg : 0 ≤ x) (n : Nat) :
    mpz_tdiv_q_2exp x n = x / 2 ^ n :=
  Int.tdiv_eq_ediv_of_nonneg nonneg

theorem mpz_fdiv_q_2exp_eq (x : Int) (n : Nat) : mpz_fdiv_q_2exp x n = x / 2 ^ n :=
  Int.fdiv_eq_ediv_of_nonneg x (two_pow_pos n).le

/-- A word that is not negative has all its ones below its width. -/
theorem mpz_popcount_of_fits {w : Nat} {x : Int} (hx : 0 ≤ x ∧ x < 2 ^ w) :
    mpz_popcount x = ones w x := by
  have lt : x.natAbs < 2 ^ w := by
    have : ((x.natAbs : Nat) : Int) < ((2 ^ w : Nat) : Int) := by
      rw [Int.natAbs_of_nonneg hx.1]
      exact_mod_cast hx.2
    exact_mod_cast this
  have size : 0 ≤ x ∧ x < 2 ^ x.natAbs.size := by
    refine ⟨hx.1, ?_⟩
    have := Nat.lt_size_self x.natAbs
    have cast : ((x.natAbs : Nat) : Int) < ((2 ^ x.natAbs.size : Nat) : Int) := by exact_mod_cast this
    rw [Int.natAbs_of_nonneg hx.1] at cast
    exact_mod_cast cast
  unfold mpz_popcount
  rw [if_neg (not_lt.mpr hx.1)]
  exact (ones_of_fits (Nat.size_le.mpr lt) size).symm

/-- Reading an unsigned word of `c` bits as a signed one. -/
theorem s_asSInt_of_unsigned {c : Nat} {x : Int} (small : c < 2 ^ 64) (hx : 0 ≤ x ∧ x < 2 ^ c) :
    s_asSInt x c = if 2 * x < 2 ^ c then x else x - 2 ^ c := by
  unfold s_asSInt mpz_mul_2exp
  cases c with
  | zero =>
    rw [pow_zero] at hx
    have zero : x = 0 := by omega
    subst zero
    simp
  | succ c =>
    have bit : (c + 1 + (2 ^ 64 - 1)) % 2 ^ 64 = c := by omega
    rw [bit]
    have double : (2 : Int) ^ (c + 1) = 2 ^ c * 2 := pow_succ 2 c
    have pos := two_pow_pos c
    by_cases top : 2 ^ c ≤ x
    · rw [if_pos ⟨by omega, (testBit_top hx).mpr top⟩, if_neg (by omega)]
      ring
    · rw [if_neg (fun both => top ((testBit_top hx).mp both.2)), if_pos (by omega)]

/-- A signed word reads as itself. -/
theorem s_asSInt_of_signed {c : Nat} {x : Int} (small : c < 2 ^ 64) (fits : Fits true c x) :
    s_asSInt x c = x := by
  rw [fits_signed] at fits
  have pos := two_pow_pos c
  by_cases nonneg : 0 ≤ x
  · rw [s_asSInt_of_unsigned small ⟨nonneg, by omega⟩, if_pos fits.2]
  · unfold s_asSInt
    rw [if_neg (fun both => nonneg both.1.le)]

end Gsim.OpFuncs
