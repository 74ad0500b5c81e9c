/-
  Gsim/CppInteger.lean
  ====================
  **C++ integer expressions.**

  Integer types with promotion and the usual arithmetic conversions, and the
  evaluation of expressions over them.  `_BitInt` types are not promoted and rank
  below the standard type of the same width.  An expression without a defined value
  (division by zero, a shift by a negative amount or by the width of the promoted
  left operand or more, signed overflow) evaluates to `none`.
-/
import Gsim.TwosComplement

namespace Gsim.CppInteger

/-! ## 1. Types -/

structure CType where
  bits : Nat
  signed : Bool
  bitInt : Bool
deriving DecidableEq, Repr

def int : CType := ⟨32, true, false⟩

/-- `bool`, as an unsigned type of one bit. -/
def bool : CType := ⟨1, false, false⟩

namespace CType

/-- The first nonnegative number that the type cannot hold. -/
def limit (t : CType) : Int := 2 ^ (if t.signed then t.bits - 1 else t.bits)

def InRange (t : CType) (v : Int) : Prop := (if t.signed then -t.limit else 0) ≤ v ∧ v < t.limit

instance (t : CType) (v : Int) : Decidable (t.InRange v) := by
  unfold InRange
  infer_instance

/-- `int` holds every value of a narrower standard type. -/
def promote (t : CType) : CType := if !t.bitInt && decide (t.bits < 32) then int else t

/-- Wider types rank higher, and a standard type above the `_BitInt` of its width. -/
def rank (t : CType) : Nat := 2 * t.bits + if t.bitInt then 0 else 1

/-- The common type of an unsigned and a signed type. -/
def mixed (u i : CType) : CType :=
  if i.rank ≤ u.rank then u
  else if u.bits < i.bits then i
  else { i with signed := false }

/-- The usual arithmetic conversions of two promoted types. -/
def usual (s t : CType) : CType :=
  if s.signed = t.signed then if s.rank ≤ t.rank then t else s
  else if s.signed then mixed t s else mixed s t

/-- Conversion is modular for signed types too. -/
def convert (t : CType) (v : Int) : Int :=
  if t.signed then Int.bmod v (2 ^ t.bits) else v % 2 ^ t.bits

end CType

/-! ## 2. Expressions -/

structure CVal where
  type : CType
  val : Int
deriving DecidableEq, Repr

inductive CExpr where
  | value (v : CVal)
  | cast (t : CType) (e : CExpr)
  | sub (l r : CExpr)
  | div (l r : CExpr)
  | rem (l r : CExpr)
  | and (l r : CExpr)
  | shl (l r : CExpr)
  | shr (l r : CExpr)
  | eq (l r : CExpr)
  | cond (c l r : CExpr)

namespace CExpr

/-- The type of an expression does not depend on its value. -/
def type : CExpr → CType
  | value v => v.type
  | cast t _ => t
  | sub l r | div l r | rem l r | and l r | cond _ l r => .usual l.type.promote r.type.promote
  | shl l _ | shr l _ => l.type.promote
  | eq _ _ => bool

/-- The result of an operation: unsigned types wrap, signed ones must not overflow. -/
def result (t : CType) (v : Int) : Option CVal :=
  if t.signed then if t.InRange v then some ⟨t, v⟩ else none
  else some ⟨t, v % 2 ^ t.bits⟩

/-- An operation on two operands of the common type. -/
def arith (op : Int → Int → Option Int) (a b : CVal) : Option CVal :=
  let t := CType.usual a.type.promote b.type.promote
  (op (t.convert a.val) (t.convert b.val)).bind (result t)

/-- A shift: the operands are promoted separately. -/
def shift (op : Int → Nat → Int) (a b : CVal) : Option CVal :=
  let t := a.type.promote
  if 0 ≤ b.val ∧ b.val < t.bits then result t (op a.val b.val.toNat) else none

def eval : CExpr → Option CVal
  | value v => some v
  | cast t e => e.eval.map fun v => ⟨t, t.convert v.val⟩
  | sub l r => l.eval.bind fun a => r.eval.bind fun b => arith (fun x y => some (x - y)) a b
  | div l r => l.eval.bind fun a => r.eval.bind fun b =>
      arith (fun x y => if y = 0 then none else some (x.tdiv y)) a b
  | rem l r => l.eval.bind fun a => r.eval.bind fun b =>
      arith (fun x y => if y = 0 then none else some (x.tmod y)) a b
  | and l r => l.eval.bind fun a => r.eval.bind fun b => arith (fun x y => some (x.land y)) a b
  | shl l r => l.eval.bind fun a => r.eval.bind fun b => shift (fun x n => x * 2 ^ n) a b
  | shr l r => l.eval.bind fun a => r.eval.bind fun b => shift (fun x n => x / 2 ^ n) a b
  | eq l r => l.eval.bind fun a => r.eval.bind fun b =>
      let t := CType.usual a.type.promote b.type.promote
      some ⟨bool, if t.convert a.val = t.convert b.val then 1 else 0⟩
  -- only the branch that is taken is evaluated
  | cond c l r => c.eval.bind fun p =>
      (if p.val ≠ 0 then l.eval else r.eval).map fun v =>
        let t := CType.usual l.type.promote r.type.promote
        ⟨t, t.convert v.val⟩

end CExpr

namespace CExpr

theorem result_type {t : CType} {v : Int} {r : CVal} (h : result t v = some r) : r.type = t := by
  unfold result at h
  split at h
  · split at h
    · cases h
      rfl
    · cases h
  · cases h
    rfl

theorem arith_type {op : Int → Int → Option Int} {a b r : CVal} (h : arith op a b = some r) :
    r.type = CType.usual a.type.promote b.type.promote := by
  obtain ⟨v, -, hres⟩ := Option.bind_eq_some_iff.mp h
  exact result_type hres

theorem shift_type {op : Int → Nat → Int} {a b r : CVal} (h : shift op a b = some r) :
    r.type = a.type.promote := by
  unfold shift at h
  dsimp only at h
  split at h
  · exact result_type h
  · cases h

/-- A value has the type of its expression. -/
theorem eval_type : ∀ {e : CExpr} {v : CVal}, e.eval = some v → v.type = e.type := by
  intro e
  induction e with
  | value v =>
    intro v h
    cases h
    rfl
  | cast t e ih =>
    intro v h
    obtain ⟨a, -, rfl⟩ := Option.map_eq_some_iff.mp h
    rfl
  | sub l r ihl ihr | div l r ihl ihr | rem l r ihl ihr | and l r ihl ihr =>
    intro v h
    obtain ⟨a, ha, h⟩ := Option.bind_eq_some_iff.mp h
    obtain ⟨b, hb, h⟩ := Option.bind_eq_some_iff.mp h
    rw [arith_type h, ihl ha, ihr hb, type]
  | shl l r ihl ihr | shr l r ihl ihr =>
    intro v h
    obtain ⟨a, ha, h⟩ := Option.bind_eq_some_iff.mp h
    obtain ⟨b, hb, h⟩ := Option.bind_eq_some_iff.mp h
    rw [shift_type h, ihl ha, type]
  | eq l r ihl ihr =>
    intro v h
    obtain ⟨a, ha, h⟩ := Option.bind_eq_some_iff.mp h
    obtain ⟨b, hb, h⟩ := Option.bind_eq_some_iff.mp h
    cases h
    rfl
  | cond c l r _ _ _ =>
    intro v h
    obtain ⟨p, -, h⟩ := Option.bind_eq_some_iff.mp h
    obtain ⟨a, -, rfl⟩ := Option.map_eq_some_iff.mp h
    rfl

end CExpr

/-! ## 3. Values that are nonnegative -/

/-- A nonnegative value that its type can hold. -/
structure CVal.Holds (v : CVal) : Prop where
  nonneg : 0 ≤ v.val
  lt : v.val < v.type.limit

namespace CType

variable {s t : CType} {v : Int}

theorem limit_le_of {s t : CType} (h : (if s.signed then s.bits - 1 else s.bits) ≤
    (if t.signed then t.bits - 1 else t.bits)) : s.limit ≤ t.limit :=
  pow_le_pow_right₀ (by decide) h

theorem limit_le_promote (t : CType) : t.limit ≤ t.promote.limit := by
  unfold promote
  split
  · next h =>
    apply limit_le_of
    have hbits : t.bits < 32 := by
      simp only [Bool.and_eq_true, decide_eq_true_eq] at h
      exact h.2
    simp only [int, if_true]
    split <;> omega
  · exact le_refl _

theorem bits_le_of_rank_le (h : s.rank ≤ t.rank) : s.bits ≤ t.bits := by
  unfold rank at h
  split at h <;> split at h <;> omega

theorem limit_le_mixed {u i : CType} (hu : u.signed = false) (hi : i.signed = true) :
    u.limit ≤ (mixed u i).limit ∧ i.limit ≤ (mixed u i).limit := by
  unfold mixed
  split
  · next h =>
    have hbits := bits_le_of_rank_le h
    refine ⟨le_refl _, limit_le_of ?_⟩
    simp only [hu, hi, if_true, Bool.false_eq_true, if_false]
    omega
  · next h =>
    split
    · next hlt =>
      refine ⟨limit_le_of ?_, le_refl _⟩
      simp only [hu, hi, if_true, Bool.false_eq_true, if_false]
      omega
    · have hbits := bits_le_of_rank_le (Nat.le_of_not_le h)
      constructor
      · apply limit_le_of
        simp only [hu, Bool.false_eq_true, if_false]
        exact hbits
      · apply limit_le_of
        simp only [hi, if_true, Bool.false_eq_true, if_false]
        omega

/-- The common type holds the nonnegative values of both operands. -/
theorem limit_le_usual (s t : CType) : s.limit ≤ (usual s t).limit ∧ t.limit ≤ (usual s t).limit := by
  unfold usual
  split
  · next hsame =>
    split
    · next h =>
      have hbits := bits_le_of_rank_le h
      refine ⟨limit_le_of ?_, le_refl _⟩
      rw [hsame]
      split <;> omega
    · next h =>
      have hbits := bits_le_of_rank_le (Nat.le_of_not_le h)
      refine ⟨le_refl _, limit_le_of ?_⟩
      rw [hsame]
      split <;> omega
  · next hdiff =>
    split
    · next hs =>
      have ht : t.signed = false := by
        cases h : t.signed with
        | false => rfl
        | true => exact absurd (hs.trans h.symm) hdiff
      exact (limit_le_mixed ht hs).symm
    · next hs =>
      have hs := eq_false_of_ne_true hs
      have ht : t.signed = true := by
        cases h : t.signed with
        | true => rfl
        | false => exact absurd (hs.trans h.symm) hdiff
      exact limit_le_mixed hs ht

theorem convert_of_lt (hv : 0 ≤ v) (hlt : v < t.limit) : t.convert v = v := by
  unfold convert limit at *
  split
  · next hs =>
    simp only [hs, if_true] at hlt
    rcases Nat.eq_zero_or_pos t.bits with h0 | h0
    · rw [h0] at hlt ⊢
      have : v = 0 := by omega
      subst this
      rfl
    · have hpow : 2 ^ t.bits = 2 * 2 ^ (t.bits - 1) := by
        rw [← Nat.pow_succ', Nat.succ_eq_add_one, Nat.sub_add_cancel h0]
      have hhalf : ((2 ^ (t.bits - 1) : Nat) : Int) = 2 ^ (t.bits - 1) := by
        push_cast
        rfl
      apply Int.bmod_eq_of_le <;> omega
  · next hs =>
    rw [if_neg hs] at hlt
    exact Int.emod_eq_of_lt hv hlt

end CType

namespace CVal.Holds

variable {a b : CVal}

theorem convert_left (ha : a.Holds) (t : CType) :
    (CType.usual a.type.promote t).convert a.val = a.val :=
  CType.convert_of_lt ha.nonneg
    (ha.lt.trans_le (a.type.limit_le_promote.trans (CType.limit_le_usual _ _).1))

theorem convert_right (hb : b.Holds) (t : CType) :
    (CType.usual t b.type.promote).convert b.val = b.val :=
  CType.convert_of_lt hb.nonneg
    (hb.lt.trans_le (b.type.limit_le_promote.trans (CType.limit_le_usual _ _).2))

end CVal.Holds

theorem emod_le_left {x y : Int} (hx : 0 ≤ x) (hy : 0 ≤ y) : x % y ≤ x := by
  obtain ⟨m, rfl⟩ := Int.eq_ofNat_of_zero_le hx
  obtain ⟨n, rfl⟩ := Int.eq_ofNat_of_zero_le hy
  exact_mod_cast Nat.mod_le m n

namespace CExpr

attribute [local simp] eval

variable {a b : CVal} {l r : CExpr}

theorem result_of_lt {t : CType} {v : Int} (hv : 0 ≤ v) (hlt : v < t.limit) :
    result t v = some ⟨t, v⟩ := by
  unfold result
  split
  · next hs =>
    rw [if_pos]
    refine ⟨?_, hlt⟩
    rw [if_pos hs]
    exact (Int.neg_nonpos_of_nonneg (hv.trans hlt.le)).trans hv
  · next hs =>
    rw [CType.limit, if_neg hs] at hlt
    rw [Int.emod_eq_of_lt hv hlt]

/-- An operation whose result is at most its left operand. -/
theorem arith_of_le {op : Int → Int → Option Int} {c : Int} (ha : a.Holds) (hb : b.Holds)
    (hop : op a.val b.val = some c) (hc : 0 ≤ c) (hle : c ≤ a.val) :
    arith op a b = some ⟨CType.usual a.type.promote b.type.promote, c⟩ := by
  simp only [arith, ha.convert_left, hb.convert_right, hop, Option.bind_some]
  apply result_of_lt hc
  have hlimit := a.type.limit_le_promote.trans
    (CType.limit_le_usual a.type.promote b.type.promote).1
  exact (hle.trans_lt ha.lt).trans_le hlimit

theorem eval_div (hl : l.eval = some a) (hr : r.eval = some b) (ha : a.Holds) (hb : b.Holds)
    (h0 : b.val ≠ 0) : (div l r).eval =
      some ⟨CType.usual a.type.promote b.type.promote, a.val / b.val⟩ := by
  simp only [eval, hl, hr, Option.bind_some]
  apply arith_of_le ha hb
  · rw [if_neg h0, Int.tdiv_eq_ediv_of_nonneg ha.nonneg]
  · exact Int.ediv_nonneg ha.nonneg hb.nonneg
  · exact Int.ediv_le_self _ ha.nonneg

theorem eval_rem (hl : l.eval = some a) (hr : r.eval = some b) (ha : a.Holds) (hb : b.Holds)
    (h0 : b.val ≠ 0) : (rem l r).eval =
      some ⟨CType.usual a.type.promote b.type.promote, a.val % b.val⟩ := by
  simp only [eval, hl, hr, Option.bind_some]
  apply arith_of_le ha hb
  · rw [if_neg h0, Int.tmod_eq_emod_of_nonneg ha.nonneg]
  · exact Int.emod_nonneg _ h0
  · exact emod_le_left ha.nonneg hb.nonneg

/-- A conditional takes the value of one branch over into the common type. -/
theorem eval_cond {c l r : CExpr} {p : CVal} (hc : c.eval = some p) {v : CVal} (hv : v.Holds)
    (hbranch : (if p.val ≠ 0 then l.eval else r.eval) = some v) :
    (cond c l r).eval = some ⟨CType.usual l.type.promote r.type.promote, v.val⟩ := by
  simp only [eval, hc, Option.bind_some, hbranch, Option.map_some]
  split at hbranch
  · rw [← eval_type hbranch, hv.convert_left]
  · rw [← eval_type hbranch, hv.convert_right]

/-- A zero divisor has no value. -/
theorem eval_rem_zero (hl : l.eval = some a) (hr : r.eval = some b) (hb : b.Holds)
    (h0 : b.val = 0) : (rem l r).eval = none := by
  simp only [eval, hl, hr, Option.bind_some, arith, hb.convert_right]
  rw [if_pos h0]
  rfl

theorem eval_shr (hl : l.eval = some a) (hr : r.eval = some b) (ha : a.Holds) (hb : b.Holds)
    (hlt : b.val < a.type.promote.bits) :
    (shr l r).eval = some ⟨a.type.promote, a.val / 2 ^ b.val.toNat⟩ := by
  simp only [eval, hl, hr, Option.bind_some, shift]
  rw [if_pos ⟨hb.nonneg, hlt⟩]
  apply result_of_lt
  · exact Int.ediv_nonneg ha.nonneg (pow_nonneg (by decide) _)
  · exact (Int.ediv_le_self _ ha.nonneg).trans_lt (ha.lt.trans_le a.type.limit_le_promote)

/-- Neither has a shift by the promoted width or more. -/
theorem eval_shr_wide (hl : l.eval = some a) (hr : r.eval = some b)
    (hge : (a.type.promote.bits : Int) ≤ b.val) : (shr l r).eval = none := by
  simp only [eval, hl, hr, Option.bind_some, shift]
  rw [if_neg]
  rintro ⟨-, hlt⟩
  omega

/-- A mask of low bits. -/
theorem eval_and_mask (hl : l.eval = some a) (hr : r.eval = some b) (ha : a.Holds) (hb : b.Holds)
    {w : Nat} (hmask : b.val = 2 ^ w - 1) : (and l r).eval =
      some ⟨CType.usual a.type.promote b.type.promote, a.val % 2 ^ w⟩ := by
  simp only [eval, hl, hr, Option.bind_some]
  apply arith_of_le ha hb
  · rw [hmask, TwosComplement.land_mask]
  · exact Int.emod_nonneg _ (pow_ne_zero _ (by decide))
  · exact emod_le_left ha.nonneg (pow_nonneg (by decide) _)

end CExpr

end Gsim.CppInteger
