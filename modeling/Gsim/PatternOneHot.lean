/-
  Gsim/PatternOneHot.lean
  =======================
  **Bits of a one-hot value** (`checkPattern1` and `graph::patternDetect`,
  `src/patternDetect.cpp`).

  Where `n` is `dshl(1, shift)`, a consumer of `n` whose root is `bits(e, i, i)` becomes
  `shift == i`, whatever `e` is; `n` is dropped when every consumer was of that form.
  The comparison is right when the bit selected from `e` is the bit of the one-hot value
  that the integer, cut to the width of `shift`, names.  The consumers are those of
  `updateConnect`, which knows the assignments of every node that is not a register source, and
  no reset tree (`checkPattern1_sound_iff`).
-/
import Gsim.PatternCompare

namespace Gsim.PatternDetect

open Gsim.ExpTree Gsim.TwosComplement Gsim.FirrtlSemantics Relation
open Gsim.ConstantNode hiding ENode

/-! ## 1. The rewriting -/

/-- The shift amount, a reference, if the value shifted is 1. -/
def isDshlOne : ENode Op → Option (ENode Op)
  | .op .OP_DSHL _ _ [.op (.OP_INT strVal) _ _ _, .ref node width sign index] =>
    if strVal = 1 then some (.ref node width sign index) else none
  | _ => none

/-- The bit that is selected, if it is one. -/
def isBitsOne : ENode Op → Option Nat
  | .op (.OP_BITS values0 values1) _ _ _ => if values0 = values1 then some values0 else none
  | _ => none

namespace Member

/-- The condition on a consumer. -/
def selectedBit (m : Member) : Option Nat :=
  if m.isArray then none
  else
    match m.assignTree with
    | [tree] => isBitsOne tree.root
    | _ => none

/-- `shift == i`, assigned to the node `next`. -/
def compareShift (m : Member) (next : Nat) (shift : ENode Op) (i : Nat) : Member :=
  { m with
    assignTree :=
      [⟨.op .OP_EQ 1 false [shift, allocIntEnode shift.width i], some (.ref next (-1) false [])⟩] }

/-- The shift amount of a node that the pattern starts from. -/
def oneHot (m : Member) : Option (ENode Op) :=
  if m.isArray ∨ m.type ≠ .others then none
  else
    match m.assignTree with
    | [tree] => isDshlOne tree.root
    | _ => none

def trees (m : Member) : List (ETree Op) := m.assignTree ++ m.resetTree.toList

end Member

/-- The nodes; `next` is a set. -/
structure Graph where
  node : Nat → Member
  next_nodup : ∀ n, (node n).next.Nodup

namespace Graph

/-- A node is replaced by one with the same consumers. -/
def set (g : Graph) (n : Nat) (m : Member) (h : m.next = (g.node n).next) : Graph where
  node := Function.update g.node n m
  next_nodup k := by
    by_cases hk : k = n
    · subst hk
      rw [Function.update_self, h]
      exact g.next_nodup k
    · rw [Function.update_of_ne hk]
      exact g.next_nodup k

/-- One turn of the loop over `node->next`. -/
def rewriteConsumer (shift : ENode Op) (acc : Graph × Bool) (next : Nat) : Graph × Bool :=
  match (acc.1.node next).selectedBit with
  | none => (acc.1, false)
  | some i => (acc.1.set next ((acc.1.node next).compareShift next shift i) rfl, acc.2)

def checkPattern1 (g : Graph) (n : Nat) : Graph × Bool :=
  match (g.node n).oneHot with
  | none => (g, false)
  | some shift =>
    let (g', ret) := (g.node n).next.foldl (rewriteConsumer shift) (g, true)
    (if ret then g'.set n { g'.node n with status := .DEAD_NODE } rfl else g', ret)

/-- `checkPattern2` on a node of the graph. -/
def compareNode (g : Graph) (n : Nat) : Graph :=
  match h : checkPattern2 (g.node n) with
  | none => g
  | some m => g.set n m (by
      unfold checkPattern2 at h
      split at h
      · cases h
      · split at h
        · obtain ⟨root, -, rfl⟩ := Option.map_eq_some_iff.mp h
          rfl
        · cases h)

/-- The two patterns on the members in order (`graph::patternDetect`, before the nodes are
    removed). -/
def patternDetect (g : Graph) (members : List Nat) : Graph :=
  members.foldl (fun g n => ((g.compareNode n).checkPattern1 n).1) g

/-! ## 2. What the loop does -/

variable {g g' : Graph} {n m : Nat} {shift : ENode Op}

theorem set_node (g : Graph) (n : Nat) (x : Member) (h : x.next = (g.node n).next) :
    (g.set n x h).node = Function.update g.node n x := rfl

/-- The consumer `m` of `n` selects bit `i` of something. -/
def Rewrites (g : Graph) (n m i : Nat) : Prop :=
  m ∈ (g.node n).next ∧ (g.node m).selectedBit = some i

/-- A node as the loop leaves it. -/
def rewritten (g : Graph) (shift : ENode Op) (m : Nat) : Member :=
  match (g.node m).selectedBit with
  | none => g.node m
  | some i => (g.node m).compareShift m shift i

theorem rewriteConsumer_node (acc : Graph × Bool) (k m : Nat) :
    (rewriteConsumer shift acc k).1.node m =
      if m = k then acc.1.rewritten shift m else acc.1.node m := by
  unfold rewriteConsumer
  by_cases hm : m = k
  · subst hm
    rw [if_pos rfl, rewritten]
    split
    · rfl
    · exact Function.update_self ..
  · rw [if_neg hm]
    split
    · rfl
    · exact Function.update_of_ne hm ..

theorem rewriteConsumer_flag (acc : Graph × Bool) (k : Nat) :
    (rewriteConsumer shift acc k).2 = true ↔
      acc.2 = true ∧ (acc.1.node k).selectedBit ≠ none := by
  unfold rewriteConsumer
  split
  · next h => simp [h]
  · next h => simp [h]

theorem foldl_rewriteConsumer (shift : ENode Op) : ∀ (l : List Nat) (acc : Graph × Bool), l.Nodup →
    (∀ m, (l.foldl (rewriteConsumer shift) acc).1.node m =
      if m ∈ l then acc.1.rewritten shift m else acc.1.node m) ∧
    ((l.foldl (rewriteConsumer shift) acc).2 = true ↔
      acc.2 = true ∧ ∀ m ∈ l, (acc.1.node m).selectedBit ≠ none) := by
  intro l
  induction l with
  | nil => exact fun acc _ => ⟨fun m => rfl, by simp⟩
  | cons k l ih =>
    intro acc hnodup
    obtain ⟨hk, hnodup⟩ := List.nodup_cons.mp hnodup
    obtain ⟨hnode, hflag⟩ := ih (rewriteConsumer shift acc k) hnodup
    have hrest : ∀ m ∈ l, (rewriteConsumer shift acc k).1.node m = acc.1.node m := by
      intro m hm
      rw [rewriteConsumer_node, if_neg]
      rintro rfl
      exact hk hm
    constructor
    · intro m
      rw [List.foldl_cons, hnode m]
      by_cases hm : m ∈ l
      · rw [if_pos hm, if_pos (List.mem_cons_of_mem k hm), rewritten, hrest m hm]
        rfl
      · rw [if_neg hm, rewriteConsumer_node]
        by_cases hmk : m = k
        · rw [if_pos hmk, if_pos (hmk ▸ List.mem_cons_self)]
        · rw [if_neg hmk, if_neg]
          simp [hmk, hm]
    · rw [List.foldl_cons, hflag, rewriteConsumer_flag, List.forall_mem_cons, and_assoc]
      apply and_congr_right
      intro _
      apply and_congr_right
      intro _
      exact forall₂_congr fun m hm => by rw [hrest m hm]

theorem checkPattern1_flag (h : (g.node n).oneHot = some shift) :
    (g.checkPattern1 n).2 = true ↔ ∀ m ∈ (g.node n).next, (g.node m).selectedBit ≠ none := by
  have hfold := (foldl_rewriteConsumer shift (g.node n).next (g, true) (g.next_nodup n)).2
  rw [checkPattern1, h]
  simpa using hfold

/-- What the call leaves of a node, up to the status of `n`. -/
def leaves (g : Graph) (n : Nat) (shift : ENode Op) (m : Nat) : Member :=
  if m ∈ (g.node n).next then g.rewritten shift m else g.node m

theorem checkPattern1_node (h : (g.node n).oneHot = some shift) (m : Nat) :
    ∃ status, (g.checkPattern1 n).1.node m = { g.leaves n shift m with status := status } ∧
      (m = n → (g.checkPattern1 n).2 = true → status = .DEAD_NODE) := by
  have hfold := (foldl_rewriteConsumer shift (g.node n).next (g, true) (g.next_nodup n)).1 m
  rw [checkPattern1, h]
  dsimp only
  change _ = g.leaves n shift m at hfold
  split
  · by_cases hm : m = n
    · refine ⟨.DEAD_NODE, ?_, fun _ _ => rfl⟩
      subst hm
      rw [set_node, Function.update_self, hfold]
    · refine ⟨(g.leaves n shift m).status, ?_, fun hmn => absurd hmn hm⟩
      rw [set_node, Function.update_of_ne hm, hfold]
  · next hret => exact ⟨(g.leaves n shift m).status, hfold, fun _ hcontra => absurd hcontra hret⟩

theorem checkPattern1_none (h : (g.node n).oneHot = none) : g.checkPattern1 n = (g, false) := by
  rw [checkPattern1, h]

theorem checkPattern1_assignTree (h : (g.node n).oneHot = some shift) (m : Nat) :
    ((g.checkPattern1 n).1.node m).assignTree = (g.leaves n shift m).assignTree := by
  obtain ⟨status, hnode, -⟩ := checkPattern1_node h m
  rw [hnode]

/-! ## 3. The consumers -/

/-- A consumer that is rewritten had one tree, and has one. -/
theorem exists_tree {x : Member} {i : Nat} (h : x.selectedBit = some i) :
    ∃ tree children width sign, x.assignTree = [tree] ∧
      tree.root = .op (.OP_BITS i i) width sign children := by
  unfold Member.selectedBit at h
  split at h
  · cases h
  · split at h
    · next tree htree =>
      unfold isBitsOne at h
      split at h
      · next hi lo width sign children heq =>
        split at h
        · next hsame =>
          subst hsame
          obtain rfl := Option.some.inj h
          exact ⟨tree, children, width, sign, htree, heq⟩
        · cases h
      · cases h
    · cases h

theorem leaves_of_rewrites {i : Nat} (h : g.Rewrites n m i) :
    g.leaves n shift m = (g.node m).compareShift m shift i := by
  rw [leaves, if_pos h.1, rewritten, h.2]

/-- The new comparison asks for the bit number, cut to the width of the shift amount. -/
theorem valueOf_compare {other : OtherSemantics} {ρ : Nat → List Int → Int} (i : Nat) :
    valueOf other ρ (.op .OP_EQ 1 false [shift, allocIntEnode shift.width i]) =
      truth (valueOf other ρ shift = (i % 2 ^ ENodeWidth shift : Nat)) := by
  have hsign : decide ((i : Int) < 0) = false := by simp
  rw [valueOf_eq, allocIntEnode, valueOf_int, hsign]
  simp [wrap, ENodeWidth]

theorem valueOf_bits {other : OtherSemantics} {ρ : Nat → List Int → Int} (i : Nat) (e : ENode Op) :
    valueOf other ρ (.op (.OP_BITS i i) 1 false [e]) =
      valueOf other ρ e % 2 ^ ENodeWidth e / 2 ^ i % 2 := by
  rw [valueOf_one (fun x => .expr1Int2 .OP_BITS x i i) fun _ => rfl]
  show wrap false 1 (valueOf other ρ e % 2 ^ ENodeWidth e / 2 ^ i % 2 ^ (i - i + 1)) = _
  rw [Nat.sub_self, Nat.zero_add, pow_one]
  apply wrap_of_fits
  rw [fits_unsigned, pow_one]
  omega

/-- The node values that a cycle can show: each node's in its range, and that of `n` the one its
    tree computes. -/
structure State (other : OtherSemantics) (g : Graph) (n : Nat) (ρ : Nat → List Int → Int) : Prop where
  range : ∀ m index, Fits (g.node m).sign (g.node m).width (ρ m index)
  defined : ∀ tree ∈ (g.node n).assignTree,
    ρ n [] = wrap (g.node n).sign (g.node n).width (valueOf other ρ tree.root)

/-- `n` is `dshl(1, s)` with the types of `inferWidth`, and so are its consumers. -/
structure OneHot (g : Graph) (n s sw : Nat) (index : List (ENode Op)) : Prop where
  shape : (g.node n).oneHot = some (.ref s sw false index)
  root : ∀ tree ∈ (g.node n).assignTree, ∃ iw is,
    tree.root = .op .OP_DSHL (g.node n).width (g.node n).sign
      [.op (.OP_INT 1) iw is [], .ref s sw false index] ∧ Fits is iw.toNat 1
  amount_sign : (g.node s).sign = false
  amount_width : (g.node s).width = sw
  consumer : ∀ m i, g.Rewrites n m i → ∀ tree ∈ (g.node m).assignTree,
    ∃ e, tree.root = .op (.OP_BITS i i) 1 false [e]

section Bits

variable (other : OtherSemantics) (ρ : Nat → List Int → Int)

/-- The bit that a consumer selects. -/
def operandBit (e : ENode Op) (i : Nat) : Int := valueOf other ρ e % 2 ^ ENodeWidth e / 2 ^ i % 2

/-- The bit of the one-hot value that the new comparison names. -/
def oneHotBit (shift : ENode Op) (i : Nat) : Int :=
  2 ^ (valueOf other ρ shift).toNat / 2 ^ (i % 2 ^ ENodeWidth shift) % 2

end Bits

section Kept

variable (other : OtherSemantics) (g : Graph) (n : Nat) (shift : ENode Op)

/-- Every rewritten consumer has its old value in every state. -/
def ConsumersKept : Prop :=
  ∀ m i, g.Rewrites n m i → ∀ tree ∈ (g.node m).assignTree,
    ∀ tree' ∈ ((g.checkPattern1 n).1.node m).assignTree, ∀ ρ, State other g n ρ →
      valueOf other ρ tree'.root = valueOf other ρ tree.root

/-- Every rewritten consumer selects the bit that its comparison names. -/
def ConsumersSelect : Prop :=
  ∀ m i, g.Rewrites n m i → ∀ tree ∈ (g.node m).assignTree, ∀ e ∈ tree.root.child,
    ∀ ρ, State other g n ρ → operandBit other ρ e i = oneHotBit other ρ shift i

/-- Every rewritten consumer is `bits(n, i, i)` for one of the bits of `n`. -/
def SelectItself : Prop :=
  ∀ m i, g.Rewrites n m i → i < (g.node n).width ∧
    ∀ tree ∈ (g.node m).assignTree, tree.root.child = [.ref n (g.node n).width (g.node n).sign []]

end Kept

section Values

variable {other : OtherSemantics} {ρ : Nat → List Int → Int} {s sw : Nat} {index : List (ENode Op)}

theorem two_pow_bit {v : Int} (hv : 0 ≤ v) (k : Nat) :
    (2 : Int) ^ v.toNat / 2 ^ k % 2 = truth (v = k) := by
  obtain ⟨a, rfl⟩ := Int.eq_ofNat_of_zero_le hv
  have hnat : (2 ^ a / 2 ^ k % 2 : Nat) = if a = k then 1 else 0 := by
    rcases lt_trichotomy a k with hlt | rfl | hgt
    · rw [Nat.div_eq_of_lt (Nat.pow_lt_pow_right (by decide) hlt), if_neg hlt.ne]
    · rw [Nat.div_self (Nat.two_pow_pos a), if_pos rfl]
    · obtain ⟨d, rfl⟩ := Nat.exists_eq_add_of_lt hgt
      rw [if_neg hgt.ne', Nat.pow_div (by omega) (by decide)]
      have hsub : k + d + 1 - k = d + 1 := by omega
      rw [hsub, pow_succ, Nat.mul_mod_left]
  have hcast := congrArg (Nat.cast (R := Int)) hnat
  push_cast at hcast
  rw [Int.toNat_natCast, hcast]
  simp [truth]

/-- The shift amount is a value of its node. -/
theorem State.amount (h : State other g n ρ) (hn : g.OneHot n s sw index) :
    0 ≤ valueOf other ρ (.ref s sw false index) ∧ valueOf other ρ (.ref s sw false index) < 2 ^ sw := by
  have hrange := h.range s ((evalList (denote other) ρ index).map indexOf ++ [])
  rw [hn.amount_sign, hn.amount_width, fits_unsigned] at hrange
  exact hrange

theorem oneHotBit_eq (h : State other g n ρ) (hn : g.OneHot n s sw index) (i : Nat) :
    oneHotBit other ρ (.ref s sw false index) i =
      truth (valueOf other ρ (.ref s sw false index) = (i % 2 ^ sw : Nat)) := by
  have hwidth : ENodeWidth (.ref s sw false index : ENode Op) = sw := Int.toNat_natCast sw
  rw [oneHotBit, two_pow_bit (h.amount hn).1, hwidth]

theorem consumersKept_iff (hn : g.OneHot n s sw index) :
    g.ConsumersKept other n ↔ g.ConsumersSelect other n (.ref s sw false index) := by
  have hwidth : ENodeWidth (.ref s sw false index : ENode Op) = sw := Int.toNat_natCast sw
  apply forall₂_congr
  intro m i
  apply forall_congr'
  intro hm
  obtain ⟨t, children, w, sg, htree, -⟩ := exists_tree hm.2
  have hnew := checkPattern1_assignTree hn.shape m
  rw [leaves_of_rewrites hm] at hnew
  simp only [hnew, htree, Member.compareShift, List.mem_singleton, forall_eq]
  obtain ⟨e, he⟩ := hn.consumer m i hm t (by rw [htree]; exact List.mem_singleton_self t)
  rw [he]
  simp only [ENode.child, List.mem_singleton, forall_eq]
  apply forall₂_congr
  intro ρ hρ
  rw [valueOf_compare, valueOf_bits, oneHotBit_eq hρ hn, hwidth, operandBit]
  exact eq_comm

theorem wrap_emod (sign : Bool) (w : Nat) (v : Int) : wrap sign w v % 2 ^ w = v % 2 ^ w :=
  Int.modEq_iff_dvd.mpr (dvd_wrap_sub sign w v)

/-- The bits below the width are not cut off. -/
theorem bit_emod {w i : Nat} (hi : i < w) (x : Int) : x % 2 ^ w / 2 ^ i % 2 = x / 2 ^ i % 2 := by
  obtain ⟨d, rfl⟩ := Nat.exists_eq_add_of_lt hi
  have hsplit : (2 : Int) ^ (i + d + 1) = 2 ^ i * (2 * 2 ^ d) := by ring
  have hmod : x % 2 ^ (i + d + 1) = x + 2 ^ i * (-(2 * (2 ^ d * (x / 2 ^ (i + d + 1))))) := by
    rw [Int.emod_def, hsplit]
    ring
  rw [hmod, Int.add_mul_ediv_left _ _ (two_pow_pos i).ne']
  omega

/-- The value of `dshl(1, s)` at the width of `n`. -/
theorem valueOf_root (hn : g.OneHot n s sw index) {tree : ETree Op}
    (htree : tree ∈ (g.node n).assignTree) :
    valueOf other ρ tree.root = wrap (g.node n).sign (g.node n).width
      (2 ^ (valueOf other ρ (.ref s sw false index)).toNat) := by
  obtain ⟨iw, is, hroot, hone⟩ := hn.root tree htree
  rw [hroot, valueOf_two (.expr2 .OP_DSHL · ·) fun _ _ => rfl, valueOf_int, wrap_of_fits hone]
  show wrap _ _ (1 * 2 ^ _) = _
  rw [one_mul]
  rfl

/-- A bit of `n` is set where the shift amount is its number. -/
theorem operandBit_self (h : State other g n ρ) (hn : g.OneHot n s sw index) {i : Nat}
    (hi : i < (g.node n).width) :
    operandBit other ρ (.ref n (g.node n).width (g.node n).sign []) i =
      truth (valueOf other ρ (.ref s sw false index) = i) := by
  obtain ⟨tree, htree⟩ : ∃ tree, tree ∈ (g.node n).assignTree := by
    have hshape := hn.shape
    unfold Member.oneHot at hshape
    split at hshape
    · cases hshape
    · split at hshape
      · next tree heq => exact ⟨tree, by rw [heq]; exact List.mem_singleton_self tree⟩
      · cases hshape
  have hself : valueOf other ρ (.ref n (g.node n).width (g.node n).sign []) = ρ n [] := rfl
  have hwidth : ENodeWidth (.ref n (g.node n).width (g.node n).sign [] : ENode Op) =
      (g.node n).width := Int.toNat_natCast _
  rw [operandBit, hself, h.defined tree htree, valueOf_root hn htree, hwidth, wrap_emod, wrap_emod,
    bit_emod hi]
  exact two_pow_bit (h.amount hn).1 i

/-- Some state has a given shift amount. -/
theorem exists_state (other : OtherSemantics) (hn : g.OneHot n s sw index) (hs : s ≠ n) {k : Nat}
    (hk : k < 2 ^ sw) :
    ∃ ρ, State other g n ρ ∧ valueOf other ρ (.ref s sw false index) = k := by
  let ρ : Nat → List Int → Int := fun m _ =>
    if m = n then wrap (g.node n).sign (g.node n).width
      (wrap (g.node n).sign (g.node n).width (2 ^ k)) else if m = s then k else 0
  have hamount : valueOf other ρ (.ref s sw false index) = k := by
    have hconst : ∀ idx, ρ s idx = k := by
      intro idx
      simp only [ρ, if_neg hs, if_true]
    exact hconst ((evalList (denote other) ρ index).map indexOf ++ [])
  refine ⟨ρ, ⟨?_, ?_⟩, hamount⟩
  · intro m _
    by_cases hm : m = n
    · subst hm
      simp only [ρ, if_true]
      exact fits_wrap _ _ _
    · by_cases hms : m = s
      · subst hms
        simp only [ρ, if_neg hm, if_true]
        rw [hn.amount_sign, hn.amount_width, fits_unsigned]
        exact ⟨Int.natCast_nonneg k, by exact_mod_cast hk⟩
      · simp only [ρ, if_neg hm, if_neg hms]
        exact Fits.zero _ _
  · intro tree htree
    rw [valueOf_root hn htree, hamount, Int.toNat_natCast]
    simp only [ρ, if_true]

/-- A consumer that selects a bit of `n` itself: its number must be a value of the shift amount. -/
theorem select_self_iff (hn : g.OneHot n s sw index) (hs : s ≠ n) {i : Nat}
    (hi : i < (g.node n).width) :
    (∀ ρ, State other g n ρ →
      operandBit other ρ (.ref n (g.node n).width (g.node n).sign []) i =
        oneHotBit other ρ (.ref s sw false index) i) ↔ i < 2 ^ sw := by
  constructor
  · intro h
    obtain ⟨ρ, hρ, hk⟩ := exists_state other hn hs (Nat.mod_lt i (Nat.two_pow_pos sw))
    have heq := h ρ hρ
    rw [operandBit_self hρ hn hi, oneHotBit_eq hρ hn, hk] at heq
    have hsame : ((i % 2 ^ sw : Nat) : Int) = (i : Int) := (Comparison.truth_inj heq).mpr rfl
    have hmod : i % 2 ^ sw = i := by exact_mod_cast hsame
    rw [← hmod]
    exact Nat.mod_lt i (Nat.two_pow_pos sw)
  · intro hlt ρ hρ
    rw [operandBit_self hρ hn hi, oneHotBit_eq hρ hn, Nat.mod_eq_of_lt hlt]

theorem consumersSelect_iff (hn : g.OneHot n s sw index) (hs : s ≠ n) (hself : g.SelectItself n) :
    g.ConsumersSelect other n (.ref s sw false index) ↔ ∀ m i, g.Rewrites n m i → i < 2 ^ sw := by
  apply forall₂_congr
  intro m i
  apply forall_congr'
  intro hm
  obtain ⟨hi, hroot⟩ := hself m i hm
  obtain ⟨t, children, w, sg, htree, -⟩ := exists_tree hm.2
  have hchild : t.root.child = [.ref n (g.node n).width (g.node n).sign []] :=
    hroot t (by rw [htree]; exact List.mem_singleton_self t)
  simp only [htree, List.mem_singleton, forall_eq, hchild]
  exact select_self_iff hn hs hi

end Values

/-! ## 4. The consumers are known -/

/-- What `updateConnect` leaves: `next` has every node, but the register sources, that an
    assignment makes depend on `n`. -/
structure Connected (g : Graph) : Prop where
  no_source : ∀ n, ∀ m ∈ (g.node n).next, (g.node m).type ≠ .regSrc
  listed : ∀ n m, (g.node m).type ≠ .regSrc → ∀ tree ∈ (g.node m).assignTree, n ∈ tree.refs →
    m ∈ (g.node n).next

/-- During the pass `next` may have missed a consumer of `n`, but then it has one that keeps `n`
    alive. -/
structure Tracked (g : Graph) : Prop where
  no_source : ∀ n, ∀ m ∈ (g.node n).next, (g.node m).type ≠ .regSrc
  listed : ∀ n m, (g.node m).type ≠ .regSrc → ∀ tree ∈ (g.node m).assignTree, n ∈ tree.refs →
    m ∈ (g.node n).next ∨ ∃ k ∈ (g.node n).next, (g.node k).selectedBit = none

theorem Connected.tracked (h : g.Connected) : g.Tracked :=
  ⟨h.no_source, fun n m hm tree htree href => .inl (h.listed n m hm tree htree href)⟩

/-- A node with its tree replaced keeps the rest, and its new tree selects no bit. -/
structure Step (g g' : Graph) : Prop where
  next : ∀ m, (g'.node m).next = (g.node m).next
  type : ∀ m, (g'.node m).type = (g.node m).type
  closed : ∀ m, (g.node m).selectedBit = none → (g'.node m).selectedBit = none
  trees : ∀ m, ∀ tree ∈ (g'.node m).assignTree, ∀ x ∈ tree.refs,
    (∃ tree ∈ (g.node m).assignTree, x ∈ tree.refs) ∨
    ∃ k, (g.node k).type ≠ .regSrc ∧ (g.node k).selectedBit = none ∧
      ∃ tree ∈ (g.node k).assignTree, x ∈ tree.refs

theorem Tracked.step (h : g.Tracked) (hs : Step g g') : g'.Tracked where
  no_source n m hm := by
    rw [hs.next] at hm
    rw [hs.type]
    exact h.no_source n m hm
  listed n m hm tree htree href := by
    rw [hs.type] at hm
    rw [hs.next]
    -- a consumer that could not be rewritten stays one
    have hkeep : (∃ k ∈ (g.node n).next, (g.node k).selectedBit = none) →
        ∃ k ∈ (g.node n).next, (g'.node k).selectedBit = none := by
      rintro ⟨k, hk, hnone⟩
      exact ⟨k, hk, hs.closed k hnone⟩
    rcases hs.trees m tree htree n href with ⟨t, ht, hn⟩ | ⟨k, hk, hnone, t, ht, hn⟩
    · exact (h.listed n m hm t ht hn).imp_right hkeep
    · rcases h.listed n k hk t ht hn with hmem | hex
      · exact .inr (hkeep ⟨k, hmem, hnone⟩)
      · exact .inr (hkeep hex)

theorem Step.refl (g : Graph) : Step g g :=
  ⟨fun _ => rfl, fun _ => rfl, fun _ h => h, fun _ tree htree _ hx => .inl ⟨tree, htree, hx⟩⟩

theorem oneHot_spec {x : Member} (h : x.oneHot = some shift) :
    x.isArray = false ∧ x.type = .others ∧ ∃ tree w sg one, x.assignTree = [tree] ∧
      tree.root = .op .OP_DSHL w sg [one, shift] := by
  unfold Member.oneHot at h
  split at h
  · cases h
  · next hguard =>
    obtain ⟨harray, htype⟩ := not_or.mp hguard
    refine ⟨by simpa using harray, not_not.mp htype, ?_⟩
    split at h
    · next tree htree =>
      unfold isDshlOne at h
      split at h
      · next w sg v iw is ich node nw ns idx heq =>
        split at h
        · obtain rfl := Option.some.inj h
          exact ⟨tree, w, sg, _, htree, heq⟩
        · cases h
      · cases h
    · cases h

theorem selectedBit_eq_none {x : Member} {tree : ETree Op} {o : Op} {w : Int} {sg : Bool}
    {children : List (ENode Op)} (htree : x.assignTree = [tree])
    (hroot : tree.root = .op o w sg children) (ho : ∀ hi lo, o ≠ .OP_BITS hi lo) :
    x.selectedBit = none := by
  unfold Member.selectedBit
  split
  · rfl
  · rw [htree]
    simp only [hroot]
    unfold isBitsOne
    split
    · next hi lo _ _ _ heq =>
      cases heq
      exact absurd rfl (ho hi lo)
    · rfl

theorem leaves_next (m : Nat) : (g.leaves n shift m).next = (g.node m).next := by
  unfold leaves rewritten
  split
  · split <;> rfl
  · rfl

theorem leaves_type (m : Nat) : (g.leaves n shift m).type = (g.node m).type := by
  unfold leaves rewritten
  split
  · split <;> rfl
  · rfl

theorem leaves_resetTree (m : Nat) : (g.leaves n shift m).resetTree = (g.node m).resetTree := by
  unfold leaves rewritten
  split
  · split <;> rfl
  · rfl

/-- The trees after the call: those from before, or a comparison of the shift amount. -/
theorem leaves_trees {m : Nat} {tree : ETree Op} (h : tree ∈ (g.leaves n shift m).assignTree) :
    (tree ∈ (g.node m).assignTree ∧ ∀ i, ¬ g.Rewrites n m i) ∨
    (∃ i, g.Rewrites n m i) ∧ tree.refs = shift.refs := by
  unfold leaves rewritten at h
  split at h
  · next hm =>
    split at h
    · next hnone =>
      refine .inl ⟨h, fun i hi => ?_⟩
      rw [hi.2] at hnone
      cases hnone
    · next i hi =>
      obtain rfl := List.mem_singleton.mp h
      refine .inr ⟨⟨i, hm, hi⟩, ?_⟩
      simp [ETree.refs, ENode.refs, refsList, ENode.child, allocIntEnode]
  · next hm => exact .inl ⟨h, fun i hi => hm hi.1⟩

theorem refs_of_shift {x : Member} (h : x.oneHot = some shift) {r : Nat} (hr : r ∈ shift.refs) :
    ∃ tree ∈ x.assignTree, r ∈ tree.refs := by
  obtain ⟨-, -, tree, w, sg, one, htree, hroot⟩ := oneHot_spec h
  refine ⟨tree, by rw [htree]; exact List.mem_singleton_self tree, ?_⟩
  rw [ETree.refs, hroot]
  simp [ENode.refs, refsList, hr]

theorem step_checkPattern1 (g : Graph) (n : Nat) : Step g (g.checkPattern1 n).1 := by
  cases hshape : (g.node n).oneHot with
  | none =>
    rw [checkPattern1_none hshape]
    exact Step.refl g
  | some shift =>
    have hnode := checkPattern1_node hshape
    refine ⟨?_, ?_, ?_, ?_⟩
    · intro m
      obtain ⟨status, heq, -⟩ := hnode m
      rw [heq]
      exact leaves_next m
    · intro m
      obtain ⟨status, heq, -⟩ := hnode m
      rw [heq]
      exact leaves_type m
    · intro m hnone
      obtain ⟨status, heq, -⟩ := hnode m
      have hsame : g.leaves n shift m = g.node m := by
        unfold leaves rewritten
        rw [hnone]
        exact ite_self _
      rw [heq, hsame]
      exact hnone
    · intro m tree htree x hx
      rw [checkPattern1_assignTree hshape] at htree
      rcases leaves_trees htree with ⟨hold, -⟩ | ⟨-, hrefs⟩
      · exact .inl ⟨tree, hold, hx⟩
      · obtain ⟨-, htype, t, w, sg, one, ht, hroot⟩ := oneHot_spec hshape
        rw [hrefs] at hx
        refine .inr ⟨n, ?_, selectedBit_eq_none ht hroot (fun _ _ => nofun), refs_of_shift hshape hx⟩
        rw [htype]
        exact nofun

theorem stripShl_refs {e : ENode Op} {r : Nat} (h : r ∈ (stripShl e).refs) : r ∈ e.refs := by
  unfold stripShl at h
  split at h
  · simp [ENode.refs, refsList, h]
  · exact h

theorem stripPad_refs {e : ENode Op} {r : Nat} (h : r ∈ (stripPad e).refs) : r ∈ e.refs := by
  unfold stripPad at h
  split at h
  · simp [ENode.refs, refsList, h]
  · exact h

/-- The conjunction refers to nothing new, and is no selection. -/
theorem rewriteRoot_spec {e root : ENode Op} (h : rewriteRoot e = some root) :
    (∀ r ∈ root.refs, r ∈ e.refs) ∧ ∃ w sg children, root = .op .OP_AND w sg children := by
  have hconj : ∀ (w : Int) (sg : Bool) (catOp : Op) (cw : Int) (cs : Bool) (c0 c1 k : ENode Op)
      (k1 k2 : Int), ∀ r ∈ (conjunction w sg (stripShl c0) (stripPad c1) k1 k2).refs,
      r ∈ (ENode.op .OP_EQ w sg [.op catOp cw cs [c0, c1], k]).refs := by
    intro w sg catOp cw cs c0 c1 k k1 k2 r hr
    simp only [conjunction, allocIntEnode, ENode.refs, refsList, List.append_nil,
      List.mem_append] at hr ⊢
    exact .inl (hr.imp stripShl_refs stripPad_refs)
  unfold rewriteRoot at h
  split at h
  · dsimp only at h
    split at h
    · obtain rfl := Option.some.inj h
      exact ⟨hconj _ _ _ _ _ _ _ _ _ _, _, _, _, rfl⟩
    · split at h
      · obtain rfl := Option.some.inj h
        exact ⟨hconj _ _ _ _ _ _ _ _ _ _, _, _, _, rfl⟩
      · cases h
    · cases h
  · cases h

theorem step_compareNode (g : Graph) (n : Nat) : Step g (g.compareNode n) := by
  unfold compareNode
  split
  · exact Step.refl g
  · next x hx =>
    have hspec : ∃ tree root, (g.node n).assignTree = [tree] ∧ rewriteRoot tree.root = some root ∧
        x = { g.node n with assignTree := [{ tree with root := root }] } := by
      unfold checkPattern2 at hx
      split at hx
      · cases hx
      · split at hx
        · next tree htree =>
          obtain ⟨root, hroot, rfl⟩ := Option.map_eq_some_iff.mp hx
          exact ⟨tree, root, htree, hroot, rfl⟩
        · cases hx
    obtain ⟨tree, root, htree, hroot, rfl⟩ := hspec
    obtain ⟨hrefs, w, sg, children, hand⟩ := rewriteRoot_spec hroot
    have hcase : ∀ (p : Member → Prop) (m : Nat), (m ≠ n → p (g.node m)) →
        (m = n → p { g.node n with assignTree := [{ tree with root := root }] }) →
        p (Function.update g.node n { g.node n with assignTree := [{ tree with root := root }] } m) := by
      intro p m hother hself
      by_cases hm : m = n
      · rw [hm, Function.update_self]
        exact hself hm
      · rw [Function.update_of_ne hm]
        exact hother hm
    refine ⟨?_, ?_, ?_, ?_⟩
    · intro m
      exact hcase (fun y => y.next = (g.node m).next) m (fun _ => rfl) (fun hm => by rw [hm])
    · intro m
      exact hcase (fun y => y.type = (g.node m).type) m (fun _ => rfl) (fun hm => by rw [hm])
    · intro m hnone
      refine hcase (fun y => y.selectedBit = none) m (fun _ => hnone) (fun _ => ?_)
      exact selectedBit_eq_none rfl hand (fun _ _ => nofun)
    · intro m t ht r hr
      refine .inl (hcase (fun y => ∀ t ∈ y.assignTree, ∀ r ∈ t.refs,
        ∃ t ∈ (g.node m).assignTree, r ∈ t.refs) m (fun _ t ht r hr => ⟨t, ht, hr⟩) ?_ t ht r hr)
      rintro rfl t ht r hr
      obtain rfl := List.mem_singleton.mp ht
      refine ⟨tree, by rw [htree]; exact List.mem_singleton_self tree, ?_⟩
      exact List.mem_append.mpr ((List.mem_append.mp hr).imp_left (hrefs r))

/-- A call of the pass, on any node. -/
def Call (g g' : Graph) : Prop := ∃ n, g' = g.compareNode n ∨ g' = (g.checkPattern1 n).1

/-- After any calls in any order. -/
def Reached (g g' : Graph) : Prop := ReflTransGen Call g g'

theorem Connected.tracked_of_reached {g₀ : Graph} (h : g₀.Connected) (hr : Reached g₀ g) :
    g.Tracked := by
  induction hr with
  | refl => exact h.tracked
  | tail _ hcall ih =>
    obtain ⟨n, rfl | rfl⟩ := hcall
    · exact ih.step (step_compareNode _ n)
    · exact ih.step (step_checkPattern1 _ n)

/-- The pass itself makes such calls. -/
theorem reached_patternDetect (g : Graph) (members : List Nat) :
    Reached g (g.patternDetect members) := by
  induction members generalizing g with
  | nil => exact .refl
  | cons n members ih =>
    have hcompare : Call g (g.compareNode n) := ⟨n, .inl rfl⟩
    have hshift : Call (g.compareNode n) ((g.compareNode n).checkPattern1 n).1 := ⟨n, .inr rfl⟩
    exact ((ReflTransGen.single hcompare).tail hshift).trans (ih _)

/-! ## 5. The node itself -/

/-- If the call marks `n` dead, no tree of another node refers to it any more. -/
def DropsUnused (g : Graph) (n : Nat) : Prop :=
  (g.checkPattern1 n).2 = true →
    ((g.checkPattern1 n).1.node n).status = .DEAD_NODE ∧
    ∀ m ≠ n, ∀ tree ∈ ((g.checkPattern1 n).1.node m).trees, n ∉ tree.refs

/-- Some consumer keeps `n`, or nothing that `next` does not list refers to it: no reset tree and
    no assignment of a register source. -/
def NoHiddenUse (g : Graph) (n : Nat) : Prop :=
  (∃ m ∈ (g.node n).next, (g.node m).selectedBit = none) ∨
  ∀ m ≠ n, (∀ tree ∈ (g.node m).resetTree, n ∉ tree.refs) ∧
    ((g.node m).type = .regSrc → ∀ tree ∈ (g.node m).assignTree, n ∉ tree.refs)

theorem checkPattern1_trees (h : (g.node n).oneHot = some shift) (m : Nat) :
    ((g.checkPattern1 n).1.node m).trees =
      (g.leaves n shift m).assignTree ++ (g.node m).resetTree.toList := by
  obtain ⟨status, heq, -⟩ := checkPattern1_node h m
  rw [heq]
  show (g.leaves n shift m).assignTree ++ (g.leaves n shift m).resetTree.toList = _
  rw [leaves_resetTree]

theorem dropsUnused_iff (ht : g.Tracked) (h : (g.node n).oneHot = some shift) :
    g.DropsUnused n ↔ g.NoHiddenUse n := by
  have hflag := checkPattern1_flag h
  have hdead : (g.checkPattern1 n).2 = true →
      ((g.checkPattern1 n).1.node n).status = .DEAD_NODE := by
    intro hret
    obtain ⟨status, heq, hstatus⟩ := checkPattern1_node h n
    rw [heq]
    exact hstatus rfl hret
  constructor
  · intro hdrop
    by_cases hex : ∃ m ∈ (g.node n).next, (g.node m).selectedBit = none
    · exact .inl hex
    · have hret : (g.checkPattern1 n).2 = true :=
        hflag.mpr fun m hm hnone => hex ⟨m, hm, hnone⟩
      obtain ⟨-, hunused⟩ := hdrop hret
      refine .inr fun m hm => ⟨?_, ?_⟩
      · intro tree htree
        apply hunused m hm
        rw [checkPattern1_trees h]
        exact List.mem_append_right _ (Option.mem_toList.mpr htree)
      · intro hsource tree htree
        have hout : m ∉ (g.node n).next := fun hmem => ht.no_source n m hmem hsource
        apply hunused m hm
        rw [checkPattern1_trees h, leaves, if_neg hout]
        exact List.mem_append_left _ htree
  · intro hno hret
    have hall := hflag.mp hret
    have hnone : ¬ ∃ k ∈ (g.node n).next, (g.node k).selectedBit = none := by
      rintro ⟨k, hk, hknone⟩
      exact hall k hk hknone
    have hclear := hno.resolve_left hnone
    refine ⟨hdead hret, fun m hm tree htree href => ?_⟩
    rw [checkPattern1_trees h] at htree
    rcases List.mem_append.mp htree with htree | htree
    · rcases leaves_trees htree with ⟨hold, hkept⟩ | ⟨-, hrefs⟩
      · by_cases hsource : (g.node m).type = .regSrc
        · exact (hclear m hm).2 hsource tree hold href
        · have hmem := (ht.listed n m hsource tree hold href).resolve_right hnone
          obtain ⟨i, hi⟩ := Option.ne_none_iff_exists'.mp (hall m hmem)
          exact hkept i ⟨hmem, hi⟩
      · -- only a node that depends on itself is its own shift amount
        rw [hrefs] at href
        obtain ⟨-, htype, t, w, sg, one, hone, hroot⟩ := oneHot_spec h
        obtain ⟨t', ht', hself⟩ := refs_of_shift h href
        have hsource : (g.node n).type ≠ .regSrc := by
          rw [htype]
          exact nofun
        have hmem := (ht.listed n n hsource t' ht' hself).resolve_right hnone
        exact hall n hmem (selectedBit_eq_none hone hroot (fun _ _ => nofun))
    · exact (hclear m hm).1 tree (Option.mem_toList.mp htree) href

/-- **When the one-hot rewriting is right.**  In a graph that the pass reaches, the consumers that
    are rewritten keep their values in every state and `n` is dropped only if nothing refers to it
    any more, exactly when every such consumer selects the bit that its comparison names and no
    use of `n` is hidden from `next`.  A consumer that selects a bit of `n` itself does so exactly
    when the number of the bit is a value of the shift amount, and where all do, the rewriting is
    right exactly when all numbers are. -/
theorem checkPattern1_sound_iff {g₀ : Graph} {s sw : Nat} {index : List (ENode Op)}
    (other : OtherSemantics) (connected : g₀.Connected) (reached : Reached g₀ g)
    (hn : g.OneHot n s sw index) :
    (g.ConsumersKept other n ∧ g.DropsUnused n ↔
      g.ConsumersSelect other n (.ref s sw false index) ∧ g.NoHiddenUse n) ∧
    (s ≠ n → ∀ i < (g.node n).width, ((∀ ρ, State other g n ρ →
      operandBit other ρ (.ref n (g.node n).width (g.node n).sign []) i =
        oneHotBit other ρ (.ref s sw false index) i) ↔ i < 2 ^ sw)) ∧
    (s ≠ n → g.SelectItself n →
      (g.ConsumersKept other n ∧ g.DropsUnused n ↔
        (∀ m i, g.Rewrites n m i → i < 2 ^ sw) ∧ g.NoHiddenUse n)) := by
  have hdrops := dropsUnused_iff (connected.tracked_of_reached reached) hn.shape
  refine ⟨and_congr (consumersKept_iff hn) hdrops, fun hs _ hi => select_self_iff hn hs hi, ?_⟩
  intro hs hself
  exact and_congr ((consumersKept_iff hn).trans (consumersSelect_iff hn hs hself)) hdrops

end Graph

/-! ## 6. Consumers of a shifted bit -/

section Consumers

/-- `n = dshl(1, s)` and consumers `bits(e, i, i)`; node 0 is `s`, node 1 is `n`. -/
def oneHotWith (consumers : List (Nat × ENode Op)) : Graph where
  node
    | 0 => ⟨false, .inp, 2, false, [], none, [1], .VALID_NODE⟩
    | 1 => ⟨false, .others, 4, false,
        [⟨.op .OP_DSHL 4 false [.op (.OP_INT 1) 1 false [], .ref 0 2 false []],
          some (.ref 1 4 false [])⟩], none, (List.range consumers.length).map (· + 2), .VALID_NODE⟩
    | k + 2 => ⟨false, .others, 1, false,
        consumers[k]?.toList.map fun (i, e) =>
          ⟨.op (.OP_BITS i i) 1 false [e], some (.ref (k + 2) 1 false [])⟩, none, [], .VALID_NODE⟩
  next_nodup
    | 0 => List.nodup_singleton 1
    | 1 => List.nodup_range.map fun _ _ h => Nat.add_right_cancel h
    | _ + 2 => List.nodup_nil

variable {consumers : List (Nat × ENode Op)}

theorem oneHotWith_consumer {k : Nat} {tree : ETree Op}
    (htree : tree ∈ ((oneHotWith consumers).node (k + 2)).assignTree) :
    ∃ c, consumers[k]? = some c ∧ tree.root = .op (.OP_BITS c.1 c.1) 1 false [c.2] ∧
      tree.lvalue = some (.ref (k + 2) 1 false []) := by
  obtain ⟨c, hc, rfl⟩ := List.mem_map.mp htree
  exact ⟨c, Option.mem_toList.mp hc, rfl, rfl⟩

theorem oneHotWith_connected (hrefs : ∀ c ∈ consumers, ∀ r ∈ c.2.refs, r = 1) :
    (oneHotWith consumers).Connected where
  no_source k m hm := by
    rcases k with _ | _ | k
    · obtain rfl := List.mem_singleton.mp hm
      exact fun h => by cases h
    · obtain ⟨k, -, rfl⟩ := List.mem_map.mp hm
      exact fun h => by cases h
    · cases hm
  listed k m _ tree htree href := by
    rcases m with _ | _ | m
    · cases htree
    · obtain rfl := List.mem_singleton.mp htree
      obtain rfl : k = 0 := by simpa [ETree.refs, ENode.refs, refsList, ENode.child] using href
      exact List.mem_cons_self
    · obtain ⟨c, hc, hroot, hlvalue⟩ := oneHotWith_consumer htree
      have hone : k ∈ c.2.refs := by
        simpa [ETree.refs, ENode.refs, refsList, ENode.child, hroot, hlvalue] using href
      obtain rfl := hrefs c (List.mem_of_getElem? hc) k hone
      exact List.mem_map.mpr ⟨m, List.mem_range.mpr (List.getElem?_eq_some_iff.mp hc).1, rfl⟩

/-- The bit that a consumer selects and what it selects it from. -/
theorem oneHotWith_rewrites {m i : Nat} (h : (oneHotWith consumers).Rewrites 1 m i) :
    ∃ k e, m = k + 2 ∧ consumers[k]? = some (i, e) ∧
      ((oneHotWith consumers).node m).assignTree =
        [⟨.op (.OP_BITS i i) 1 false [e], some (.ref m 1 false [])⟩] := by
  obtain ⟨k, -, rfl⟩ := List.mem_map.mp h.1
  obtain ⟨tree, children, width, sign, htree, hroot⟩ := Graph.exists_tree h.2
  have hmem : tree ∈ ((oneHotWith consumers).node (k + 2)).assignTree := by
    rw [htree]
    exact List.mem_singleton_self tree
  obtain ⟨⟨j, e⟩, hc, hroot', hlvalue⟩ := oneHotWith_consumer hmem
  obtain ⟨hop, -, -, -⟩ := ENode.op.inj (hroot.symm.trans hroot')
  obtain ⟨rfl, -⟩ := Op.OP_BITS.inj hop
  refine ⟨k, e, rfl, hc, ?_⟩
  rw [htree, ← hroot', ← hlvalue]

theorem oneHotWith_oneHot (consumers : List (Nat × ENode Op)) : (oneHotWith consumers).OneHot 1 0 2 [] where
  shape := rfl
  root tree htree := by
    obtain rfl := List.mem_singleton.mp htree
    exact ⟨1, false, rfl, by decide⟩
  amount_sign := rfl
  amount_width := rfl
  consumer m i hm tree htree := by
    obtain ⟨-, e, -, -, heq⟩ := oneHotWith_rewrites hm
    rw [heq] at htree
    obtain rfl := List.mem_singleton.mp htree
    exact ⟨e, rfl⟩

end Consumers

def itself : ENode Op := .ref 1 4 false []

/-- The consumers `bits(n, 0, 0)` and `bits(n, 3, 3)`. -/
def selectedTwice : Graph := oneHotWith [(0, itself), (3, itself)]

theorem selectedTwice_consumer {m i : Nat} (h : selectedTwice.Rewrites 1 m i) :
    (i = 0 ∨ i = 3) ∧ ∀ tree ∈ (selectedTwice.node m).assignTree, tree.root.child = [itself] := by
  obtain ⟨k, e, -, hc, heq⟩ := oneHotWith_rewrites h
  have hmem : (i, e) ∈ [(0, itself), (3, itself)] := List.mem_of_getElem? hc
  obtain ⟨hi, rfl⟩ : (i = 0 ∨ i = 3) ∧ e = itself := by simpa [← or_and_right] using hmem
  refine ⟨hi, fun tree htree => ?_⟩
  rw [selectedTwice, heq] at htree
  obtain rfl := List.mem_singleton.mp htree
  rfl

/-- Both consumers keep their values and `n` is dropped. -/
theorem selectedTwice_sound : selectedTwice.ConsumersKept (fun _ _ _ _ => 0) 1 ∧
    selectedTwice.DropsUnused 1 ∧ (selectedTwice.checkPattern1 1).2 = true := by
  have connected : selectedTwice.Connected := by
    apply oneHotWith_connected
    rintro c hc r hr
    rcases List.mem_pair.mp hc with rfl | rfl
    · exact List.mem_singleton.mp hr
    · exact List.mem_singleton.mp hr
  have hself : selectedTwice.SelectItself 1 := fun m i hm =>
    ⟨by rcases (selectedTwice_consumer hm).1 with rfl | rfl <;> decide, (selectedTwice_consumer hm).2⟩
  have hclear : selectedTwice.NoHiddenUse 1 := by
    refine .inr fun m hm => ⟨?_, fun hsource => ?_⟩
    · rcases m with _ | _ | m <;> exact fun _ h => by cases h
    · rcases m with _ | _ | m <;> cases hsource
  have hlt : ∀ m i, selectedTwice.Rewrites 1 m i → i < 2 ^ 2 := fun m i hm => by
    rcases (selectedTwice_consumer hm).1 with rfl | rfl <;> decide
  obtain ⟨-, -, hiff⟩ := Graph.checkPattern1_sound_iff (fun _ _ _ _ => 0) connected .refl
    (oneHotWith_oneHot [(0, itself), (3, itself)])
  obtain ⟨hkept, hdrops⟩ := (hiff (by decide) hself).mpr ⟨hlt, hclear⟩
  exact ⟨hkept, hdrops, rfl⟩

/-- The consumer `bits(shl(n, 1), 0, 0)`, which is always zero. -/
def shiftedConsumer : Graph := oneHotWith [(0, .op (.OP_SHL 1) 5 false [itself])]

/-- At `s = 0` the consumer was 0 and becomes 1. -/
theorem shiftedConsumer_changed : ¬ shiftedConsumer.ConsumersKept (fun _ _ _ _ => 0) 1 := by
  intro h
  have hstate : Graph.State (fun _ _ _ _ => 0) shiftedConsumer 1 fun k _ => if k = 1 then 1 else 0 := by
    constructor
    · intro k _
      by_cases hk : k = 1
      · subst hk
        show Fits false 4 1
        decide
      · show Fits _ _ (if k = 1 then 1 else 0)
        rw [if_neg hk]
        exact Fits.zero _ _
    · intro tree htree
      obtain rfl := List.mem_singleton.mp htree
      decide
  have heq := h 2 0 ⟨List.mem_singleton_self 2, rfl⟩ _ (List.mem_singleton_self _) _
    (List.mem_singleton_self _) _ hstate
  revert heq
  decide

end Gsim.PatternDetect
