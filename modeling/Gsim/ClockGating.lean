/-
  Gsim/ClockGating.lean
  =====================
  **Which updates a gated clock enables.**

  A clock node is read as a term: its expression with the references followed
  (`Unfolds`).  `passes` says in which cycles the input clock gets through.  The
  analysis computes something else: `OP_AND` keeps only its second operand, an
  operand of a mux that is marked constant counts as never passing (`passesKept`),
  and both write through pointers that may be recorded for another node
  (`Separate` excludes it).  As long as all terms are separate the heap follows the
  terms, and the first store that is not separate changes a recorded value; so the
  conditions are exact.
-/
import Gsim.ClockOptimize
import Mathlib.Order.Nat

namespace Gsim.ClockOptimize

/-! ## 1. Clock terms -/

/-- A clock expression with its references followed; `ref` remembers the node. -/
inductive Term where
  | const
  | invalid
  | source (n : Nat)
  | enable (e : ENode)
  | and (a b : Term)
  | mux (cond : ENode) (a b : Term)
  | ref (n : Nat) (t : Term)

/-- The term of an expression.  Equality and nodes without an assignment are treated as
    constant clocks, which is what the warnings announce. -/
inductive Unfolds (N : Network) : ENode → Term → Prop
  | zeroWidth : Unfolds N .zeroWidth .const
  | source {n : Nat} : (N.nodes n).isSource = true → Unfolds N (.node n) (.ref n (.source n))
  | external {n : Nat} : (N.nodes n).isSource = false → (N.nodes n).assignTree = [] →
      Unfolds N (.node n) (.ref n .const)
  | assigned {n : Nat} {root : ENode} {t : Term} : (N.nodes n).isSource = false →
      (N.nodes n).assignTree = [root] → Unfolds N root t → Unfolds N (.node n) (.ref n t)
  | cast {e : ENode} {t : Term} : Unfolds N e t → Unfolds N (.cast e) t
  | bits {e : ENode} {t : Term} : Unfolds N e t → Unfolds N (.bits 0 0 e) t
  | invalid : Unfolds N .invalid .invalid
  | int {v : Nat} : Unfolds N (.int v) .const
  | eq {x y : ENode} : Unfolds N (.eq x y) .const
  | or {x y : ENode} : Unfolds N (.or x y) (.enable (.or x y))
  | and {x y : ENode} {a b : Term} : Unfolds N x a → Unfolds N y b → Unfolds N (.and x y) (.and a b)
  | mux {cond x y : ENode} {a b : Term} : Unfolds N x a → Unfolds N y b →
      Unfolds N (.mux cond x y) (.mux cond a b)

theorem Unfolds.unique {N : Network} {e : ENode} {t t' : Term} (h : Unfolds N e t)
    (h' : Unfolds N e t') : t = t' := by
  induction h generalizing t' with
  | zeroWidth | invalid | int | eq | or =>
    cases h'
    rfl
  | source hs =>
    cases h' with
    | source => rfl
    | external hs' | assigned hs' => simp [hs] at hs'
  | external hs htree =>
    cases h' with
    | source hs' => simp [hs] at hs'
    | external => rfl
    | assigned _ htree' => simp [htree] at htree'
  | assigned hs htree _ ih =>
    cases h' with
    | source hs' => simp [hs] at hs'
    | external _ htree' => simp [htree] at htree'
    | assigned _ htree' h' =>
      rw [htree] at htree'
      cases htree'
      rw [ih h']
  | cast _ ih =>
    cases h' with
    | cast h' => exact ih h'
  | bits _ ih =>
    cases h' with
    | bits h' => exact ih h'
  | and _ _ iha ihb =>
    cases h' with
    | and ha hb => rw [iha ha, ihb hb]
  | mux _ _ iha ihb =>
    cases h' with
    | mux ha hb => rw [iha ha, ihb hb]

/-- What can be read off a term without its gating expression: the source clock it carries,
    whether it is gated, constant or invalid, and whether its value is recorded for a node. -/
structure Shape where
  clock : Option Nat := none
  gated : Bool := false
  isConst : Bool := false
  isInvalid : Bool := false
  shared : Bool := false

/-- An AND takes the clock of its first operand when the second one is gated. -/
def Shape.and (x y : Shape) : Shape :=
  if x.clock.isSome && y.gated then { y with clock := x.clock } else y

/-- A mux with neither operand invalid nor both of them constant gets a gate. -/
def Shape.gates (x y : Shape) : Bool :=
  !x.isInvalid && !y.isInvalid && !(x.isConst && y.isConst)

def Shape.mux (x y : Shape) : Shape :=
  if y.isInvalid then x
  else if x.isInvalid then y
  else if x.isConst && y.isConst then { isConst := true }
  else { y with gated := true }

def Term.shape : Term → Shape
  | .const => { isConst := true }
  | .invalid => { isInvalid := true }
  | .source n => { clock := some n }
  | .enable _ => { gated := true }
  | .and a b => a.shape.and b.shape
  | .mux _ a b => a.shape.mux b.shape
  | .ref _ t => { t.shape with shared := true }

/-- Whether the input clock gets through in a cycle.  An enable gets through when it holds; of
    a mux with an invalid operand the other one is taken. -/
def Term.passes (σ : Cycle) : Term → Bool
  | .const => false
  | .invalid => false
  | .source _ => true
  | .enable e => e.eval σ
  | .and a b => a.passes σ && b.passes σ
  | .mux cond a b =>
    if b.shape.isInvalid then a.passes σ
    else if a.shape.isInvalid then b.passes σ
    else if cond.eval σ then a.passes σ else b.passes σ
  | .ref _ t => t.passes σ

/-- The same without the first operands of ANDs and without the operands of muxes that are
    marked constant. -/
def Term.passesKept (σ : Cycle) : Term → Bool
  | .const => false
  | .invalid => false
  | .source _ => true
  | .enable e => e.eval σ
  | .and _ b => b.passesKept σ
  | .mux cond a b =>
    if b.shape.isInvalid then a.passesKept σ
    else if a.shape.isInvalid then b.passesKept σ
    else if cond.eval σ then !a.shape.isConst && a.passesKept σ
    else !b.shape.isConst && b.passesKept σ
  | .ref _ t => t.passesKept σ

/-- No AND or mux of the term writes to a value that is recorded for a node, unless an AND
    stores the clock that is there already. -/
def Term.Separate : Term → Prop
  | .and a b => a.Separate ∧ b.Separate ∧
      (a.shape.clock.isSome → b.shape.gated → b.shape.shared → b.shape.clock = a.shape.clock)
  | .mux _ a b => a.Separate ∧ b.Separate ∧ (a.shape.gates b.shape → b.shape.shared = false)
  | .ref _ t => t.Separate
  | _ => True

/-! ## 2. The heap follows the terms -/

/-- The store changed a value that `clockMap` held for some node. -/
def Store.Clobbers (st : Store) : Prop :=
  st.changes = true ∧ ∃ n, st.clockMap n = some st.addr

def ClockState.Clobbered (s : ClockState) : Prop := ∃ st ∈ s.stores, st.Clobbers

/-- The object is what the term says. -/
structure Matches (t : Term) (v : ClockVal) : Prop where
  node : v.node = t.shape.clock
  gated : v.gateENode.isSome = t.shape.gated
  isConstant : v.isConstant = t.shape.isConst
  isInvalid : v.isInvalid = t.shape.isInvalid
  holds : ∀ σ, v.gating.holds σ = t.passesKept σ

/-- Every recorded node has a term. -/
def Known (N : Network) (s : ClockState) : Prop :=
  ∀ n a, s.clockMap n = some a → ∃ t, Unfolds N (.node n) t

/-- No recorded value was ever changed, and all of them are what their terms say. -/
structure Good (N : Network) (s : ClockState) : Prop where
  recorded : ∀ n a, s.clockMap n = some a →
    a < s.free ∧ ∃ t, Unfolds N (.node n) t ∧ t.Separate ∧ Matches t (s.heap a)
  clean : ¬ s.Clobbered

/-- What a computation leaves alone. -/
structure Extends (s s' : ClockState) : Prop where
  free_le : s.free ≤ s'.free
  heap_eq : ∀ x, x < s.free → s'.heap x = s.heap x
  clockMap_eq : ∀ n x, s.clockMap n = some x → s'.clockMap n = some x
  -- an object from before that is recorded now was recorded before
  recorded_old : ∀ n x, s'.clockMap n = some x → x < s.free → ∃ m, s.clockMap m = some x

/-- The result at `a` of computing the term `t`. -/
structure Computes (N : Network) (t : Term) (s : ClockState) (a : Nat) (s' : ClockState) : Prop where
  good : Good N s'
  ext : Extends s s'
  lt : a < s'.free
  isMatch : Matches t (s'.heap a)
  shared : t.shape.shared = true → ∃ n, s'.clockMap n = some a
  fresh : t.shape.shared = false → s.free ≤ a ∧ ∀ n, s'.clockMap n ≠ some a

section Heap

variable {N : Network} {s s' s'' : ClockState} {t a b : Term} {n x y : Nat} {v : ClockVal}

theorem Good.known (h : Good N s) : Known N s := by
  intro n a hn
  obtain ⟨-, t, ht, -⟩ := h.recorded n a hn
  exact ⟨t, ht⟩

theorem Extends.refl (s : ClockState) : Extends s s where
  free_le := Nat.le_refl _
  heap_eq _ _ := rfl
  clockMap_eq _ _ h := h
  recorded_old n _ h _ := ⟨n, h⟩

theorem Extends.trans (h : Extends s s') (h' : Extends s' s'') : Extends s s'' where
  free_le := h.free_le.trans h'.free_le
  heap_eq x hx := (h'.heap_eq x (hx.trans_le h.free_le)).trans (h.heap_eq x hx)
  clockMap_eq n x hn := h'.clockMap_eq n x (h.clockMap_eq n x hn)
  recorded_old n x hn hx := by
    obtain ⟨m, hm⟩ := h'.recorded_old n x hn (hx.trans_le h.free_le)
    exact h.recorded_old m x hm hx

/-- A result is still there after another computation. -/
theorem Computes.keep (h : Computes N t s x s') (hext : Extends s' s'') (hgood : Good N s'') :
    Computes N t s x s'' where
  good := hgood
  ext := h.ext.trans hext
  lt := h.lt.trans_le hext.free_le
  isMatch := by
    rw [hext.heap_eq x h.lt]
    exact h.isMatch
  shared hs := by
    obtain ⟨n, hn⟩ := h.shared hs
    exact ⟨n, hext.clockMap_eq n x hn⟩
  fresh hs := by
    obtain ⟨hle, hno⟩ := h.fresh hs
    refine ⟨hle, fun n hn => ?_⟩
    obtain ⟨m, hm⟩ := hext.recorded_old n x hn h.lt
    exact hno m hm

/-- A result of a later computation. -/
theorem Computes.after (h : Computes N t s' x s'') (hext : Extends s s') : Computes N t s x s'' where
  good := h.good
  ext := hext.trans h.ext
  lt := h.lt
  isMatch := h.isMatch
  shared := h.shared
  fresh hs := ⟨hext.free_le.trans (h.fresh hs).1, (h.fresh hs).2⟩

/-- An operator that returns its operand's value unchanged. -/
theorem Computes.of_shape_eq (h : Computes N a s x s') (hshape : t.shape = a.shape)
    (hkept : ∀ σ, t.passesKept σ = a.passesKept σ) : Computes N t s x s' where
  good := h.good
  ext := h.ext
  lt := h.lt
  isMatch := by
    refine ⟨?_, ?_, ?_, ?_, fun σ => (h.isMatch.holds σ).trans (hkept σ).symm⟩
    · rw [hshape]
      exact h.isMatch.node
    · rw [hshape]
      exact h.isMatch.gated
    · rw [hshape]
      exact h.isMatch.isConstant
    · rw [hshape]
      exact h.isMatch.isInvalid
  shared := by
    rw [hshape]
    exact h.shared
  fresh := by
    rw [hshape]
    exact h.fresh

/-! ### Allocation, recording and stores -/

@[simp] theorem alloc_clobbered : (s.alloc v).2.Clobbered ↔ s.Clobbered := Iff.rfl
@[simp] theorem record_clobbered : (s.record n x).Clobbered ↔ s.Clobbered := Iff.rfl

theorem record_self : (s.record n x).clockMap n = some x := Function.update_self ..

theorem record_of_ne {m : Nat} (h : m ≠ n) : (s.record n x).clockMap m = s.clockMap m :=
  Function.update_of_ne h _ _

theorem alloc_known (h : Known N s) : Known N (s.alloc v).2 := h

theorem record_known (h : Known N s) (ht : Unfolds N (.node n) t) : Known N (s.record n x) := by
  intro m a hm
  by_cases hmn : m = n
  · exact ⟨t, hmn ▸ ht⟩
  · rw [record_of_ne hmn] at hm
    exact h m a hm

theorem alloc_extends (h : Good N s) (v : ClockVal) :
    Good N (s.alloc v).2 ∧ Extends s (s.alloc v).2 := by
  have hold : ∀ x, x < s.free → (s.alloc v).2.heap x = s.heap x :=
    fun x hx => Function.update_of_ne (Nat.ne_of_lt hx) _ _
  refine ⟨⟨?_, h.clean⟩, ⟨Nat.le_succ _, hold, fun _ _ hn => hn, fun n x hn _ => ⟨n, hn⟩⟩⟩
  intro n a hn
  obtain ⟨hlt, t, ht, hsep, hmatch⟩ := h.recorded n a hn
  refine ⟨Nat.lt_succ_of_lt hlt, t, ht, hsep, ?_⟩
  rw [hold a hlt]
  exact hmatch

theorem alloc_computes (h : Good N s) (hmatch : Matches t v) (hshared : t.shape.shared = false) :
    Computes N t s (s.alloc v).1 (s.alloc v).2 := by
  obtain ⟨hgood, hext⟩ := alloc_extends h v
  refine ⟨hgood, hext, Nat.lt_succ_self _, ?_, ?_, ?_⟩
  · show Matches t (Function.update s.heap s.free v s.free)
    rw [Function.update_self]
    exact hmatch
  · rw [hshared]
    exact fun hcontra => by cases hcontra
  · refine fun _ => ⟨Nat.le_refl _, fun n hn => ?_⟩
    exact Nat.lt_irrefl _ (h.recorded n _ hn).1

/-- Recording the value of a node that is not recorded yet. -/
theorem Computes.record (h : Computes N t s x s') (hnew : s.clockMap n = none)
    (hterm : Unfolds N (.node n) (.ref n t)) (hsep : t.Separate) :
    Computes N (.ref n t) s x (s'.record n x) := by
  have hmatch : Matches (.ref n t) (s'.heap x) :=
    ⟨h.isMatch.node, h.isMatch.gated, h.isMatch.isConstant, h.isMatch.isInvalid, h.isMatch.holds⟩
  refine ⟨⟨?_, h.good.clean⟩, ⟨h.ext.free_le, h.ext.heap_eq, ?_, ?_⟩, h.lt, hmatch,
    fun _ => ⟨n, record_self⟩, fun hcontra => by cases hcontra⟩
  · intro m a hm
    by_cases hmn : m = n
    · subst hmn
      rw [record_self] at hm
      cases hm
      exact ⟨h.lt, _, hterm, hsep, hmatch⟩
    · rw [record_of_ne hmn] at hm
      exact h.good.recorded m a hm
  · intro m a hm
    have hmn : m ≠ n := by
      rintro rfl
      rw [hnew] at hm
      cases hm
    rw [record_of_ne hmn]
    exact h.ext.clockMap_eq m a hm
  · intro m a hm hlt
    by_cases hmn : m = n
    · subst hmn
      rw [record_self] at hm
      cases hm
      cases hshared : t.shape.shared with
      | true =>
        obtain ⟨k, hk⟩ := h.shared hshared
        exact h.ext.recorded_old k x hk hlt
      | false => exact absurd hlt (Nat.not_lt.mpr (h.fresh hshared).1)
    · rw [record_of_ne hmn] at hm
      exact h.ext.recorded_old m a hm hlt

/-- A state after a store at `x`. -/
def ClockState.stored (s : ClockState) (x : Nat) (v : ClockVal) (changes : Bool) : ClockState :=
  { s with heap := Function.update s.heap x v, stores := s.stores ++ [⟨s.clockMap, x, changes⟩] }

theorem stored_clobbered {changes : Bool} : (s.stored x v changes).Clobbered ↔
    s.Clobbered ∨ (changes = true ∧ ∃ n, s.clockMap n = some x) := by
  constructor
  · rintro ⟨st, hst, hclob⟩
    rcases List.mem_append.mp hst with hst | hst
    · exact .inl ⟨st, hst, hclob⟩
    · rw [List.mem_singleton.mp hst] at hclob
      exact .inr hclob
  · rintro (⟨st, hst, hclob⟩ | hclob)
    · exact ⟨st, List.mem_append_left _ hst, hclob⟩
    · exact ⟨_, List.mem_append_right _ (List.mem_singleton_self _), hclob⟩

/-- A store into an object that no node has recorded. -/
theorem Computes.stored (h : Computes N a s x s') {changes : Bool} (hfresh : a.shape.shared = false)
    (hshared : t.shape.shared = false) (hmatch : Matches t v) :
    Computes N t s x (s'.stored x v changes) := by
  obtain ⟨hle, hno⟩ := h.fresh hfresh
  have hother : ∀ y, y ≠ x → (s'.stored x v changes).heap y = s'.heap y :=
    fun y hy => Function.update_of_ne hy _ _
  refine ⟨⟨?_, ?_⟩, ⟨h.ext.free_le, ?_, h.ext.clockMap_eq, h.ext.recorded_old⟩, h.lt, ?_, ?_, ?_⟩
  · intro n y hn
    have hy : y ≠ x := by
      rintro rfl
      exact hno n hn
    rw [hother y hy]
    exact h.good.recorded n y hn
  · rw [stored_clobbered]
    rintro (hclob | ⟨-, n, hn⟩)
    · exact h.good.clean hclob
    · exact hno n hn
  · intro y hy
    rw [hother y (Nat.ne_of_lt (hy.trans_le hle))]
    exact h.ext.heap_eq y hy
  · show Matches t (Function.update s'.heap x v x)
    rw [Function.update_self]
    exact hmatch
  · rw [hshared]
    exact fun hcontra => by cases hcontra
  · exact fun _ => ⟨hle, hno⟩

/-- A store of what is there already. -/
theorem stored_same_extends (h : Good N s) :
    Good N (s.stored x (s.heap x) false) ∧ Extends s (s.stored x (s.heap x) false) := by
  have hheap : (s.stored x (s.heap x) false).heap = s.heap := Function.update_eq_self ..
  refine ⟨⟨?_, ?_⟩, ⟨Nat.le_refl _, fun y _ => ?_, fun _ _ hn => hn, fun n y hn _ => ⟨n, hn⟩⟩⟩
  · intro n y hn
    rw [hheap]
    exact h.recorded n y hn
  · rw [stored_clobbered]
    rintro (hclob | ⟨hcontra, -⟩)
    · exact h.clean hclob
    · cases hcontra
  · rw [hheap]

/-! ### The two operators that write -/

theorem setNode_eq (node : Option Nat) :
    s.setNode x node = s.stored x { s.heap x with node } ((s.heap x).node != node) := rfl

theorem setGate_eq (gate : ENode) :
    s.setGate x gate = s.stored x { s.heap x with gateENode := some gate } true := rfl

theorem andClock_cases {z : Nat} (h : andClock x y s = some (z, s')) : z = y ∧
    (((s.heap x).node.isSome ∧ (s.heap y).gateENode.isSome ∧ s' = s.setNode y (s.heap x).node) ∨
      (¬ ((s.heap x).node.isSome ∧ (s.heap y).gateENode.isSome) ∧ s' = s)) := by
  unfold andClock at h
  split at h
  · next hif =>
    cases h
    exact ⟨rfl, .inl ⟨hif.1, hif.2, rfl⟩⟩
  · next hif =>
    split at h
    · cases h
      exact ⟨rfl, .inr ⟨hif, rfl⟩⟩
    · cases h

/-- A gated value means its gate, whatever its clock. -/
theorem gating_holds_node (hgate : v.gateENode.isSome) (node : Option Nat) (σ : Cycle) :
    ({ v with node } : ClockVal).gating.holds σ = v.gating.holds σ := by
  obtain ⟨gate, hgate⟩ := Option.isSome_iff_exists.mp hgate
  simp only [ClockVal.gating, hgate]

theorem Computes.and {z : Nat} {s₁ s₂ : ClockState} (ha : Computes N a s x s₁)
    (hb : Computes N b s₁ y s₂) (hsa : a.Separate) (hsb : b.Separate)
    (h : andClock x y s₂ = some (z, s')) :
    ((Term.and a b).Separate ∧ Computes N (.and a b) s z s') ∨
      (¬ (Term.and a b).Separate ∧ s'.Clobbered) := by
  obtain ⟨rfl, ⟨hnode, hgate, rfl⟩ | ⟨hno, rfl⟩⟩ := andClock_cases h
  · -- the clock of the first operand is stored into the second one
    have hclock : (s₂.heap x).node = a.shape.clock := (ha.keep hb.ext hb.good).isMatch.node
    rw [hclock] at hnode ⊢
    have hgated : b.shape.gated = true := hb.isMatch.gated ▸ hgate
    have hshape : (Term.and a b).shape = { b.shape with clock := a.shape.clock } := by
      show a.shape.and b.shape = _
      simp only [Shape.and, hnode, hgated, Bool.and_self, if_true]
    have hmatch : Matches (.and a b) { s₂.heap z with node := a.shape.clock } := by
      refine ⟨?_, ?_, ?_, ?_, ?_⟩
      · rw [hshape]
      · rw [hshape]
        exact hb.isMatch.gated
      · rw [hshape]
        exact hb.isMatch.isConstant
      · rw [hshape]
        exact hb.isMatch.isInvalid
      · intro σ
        rw [gating_holds_node hgate]
        exact hb.isMatch.holds σ
    rw [setNode_eq]
    cases hshared : b.shape.shared with
    | false =>
      refine .inl ⟨⟨hsa, hsb, fun _ _ hcontra => ?_⟩, ?_⟩
      · rw [hshared] at hcontra
        cases hcontra
      · have hfresh : (Term.and a b).shape.shared = false := by
          rw [hshape]
          exact hshared
        exact (hb.stored hshared hfresh hmatch).after ha.ext
    | true =>
      by_cases hsame : b.shape.clock = a.shape.clock
      · -- the recorded clock is the one that is stored
        refine .inl ⟨⟨hsa, hsb, fun _ _ _ => hsame⟩, ?_⟩
        have hval : ({ s₂.heap z with node := a.shape.clock } : ClockVal) = s₂.heap z := by
          rw [← hsame, ← hb.isMatch.node]
        have hchanges : ((s₂.heap z).node != a.shape.clock) = false := by
          rw [hb.isMatch.node, hsame]
          exact bne_self_eq_false _
        rw [hval, hchanges]
        obtain ⟨hgood, hext⟩ := stored_same_extends (x := z) hb.good
        refine ⟨hgood, (ha.ext.trans hb.ext).trans hext, hb.lt, ?_, ?_, ?_⟩
        · rw [hval] at hmatch
          show Matches _ (Function.update s₂.heap z (s₂.heap z) z)
          rw [Function.update_self]
          exact hmatch
        · exact fun _ => hb.shared hshared
        · rw [hshape]
          intro hf
          rw [show b.shape.shared = false from hf] at hshared
          cases hshared
      · refine .inr ⟨fun hsep => hsame (hsep.2.2 hnode hgated hshared), ?_⟩
        rw [stored_clobbered]
        refine .inr ⟨?_, hb.shared hshared⟩
        rw [hb.isMatch.node]
        exact bne_iff_ne.mpr hsame
  · have hshape : (Term.and a b).shape = b.shape := by
      show a.shape.and b.shape = _
      unfold Shape.and
      rw [if_neg]
      intro hcond
      apply hno
      rw [(ha.keep hb.ext hb.good).isMatch.node, hb.isMatch.gated]
      exact Bool.and_eq_true_iff.mp hcond
    refine .inl ⟨⟨hsa, hsb, fun hc hg => ?_⟩, (hb.after ha.ext).of_shape_eq hshape fun _ => rfl⟩
    exact absurd ⟨(ha.keep hb.ext hb.good).isMatch.node ▸ hc, hb.isMatch.gated ▸ hg⟩ hno

/-! ### Muxes -/

theorem gateUnder_eq_none {cond : ENode} : gateUnder cond v = none ↔ v.isConstant = true := by
  unfold gateUnder
  cases v.isConstant with
  | true => simp
  | false => cases v.gateENode <;> simp

/-- The operand a mux selects passes in the cycles its gate says. -/
theorem gateUnder_holds {cond gate : ENode} (h : gateUnder cond v = some gate)
    (hoperand : N.muxOperand v = true) (hvalid : v.isInvalid = false) (σ : Cycle) :
    gate.eval σ = (cond.eval σ && v.gating.holds σ) := by
  unfold gateUnder at h
  split at h
  · cases h
  · next hconst =>
    cases hgate : v.gateENode with
    | some g =>
      simp only [hgate] at h
      cases h
      simp only [ClockVal.gating, hgate, Gating.holds, ENode.eval]
    | none =>
      simp only [hgate] at h
      cases h
      have hnode : v.node.isSome := by
        simp only [Network.muxOperand, hconst, hvalid, Bool.false_or] at hoperand
        cases hn : v.node with
        | none => simp [hn] at hoperand
        | some n => rfl
      simp only [ClockVal.gating, hgate, hnode, if_true, Gating.holds, Bool.and_true]

theorem muxGate_cases (cond : ENode) (x y : Nat) (s : ClockState) :
    ((s.heap x).isConstant = true ∧ (s.heap y).isConstant = true ∧
      muxGate cond x y s = s.alloc .constant) ∨
    ∃ gate, muxGate cond x y s = (y, s.setGate y gate) ∧
      ¬ ((s.heap x).isConstant = true ∧ (s.heap y).isConstant = true) ∧
      ∀ (N : Network) (σ : Cycle),
        N.muxOperand (s.heap x) = true → (s.heap x).isInvalid = false →
        N.muxOperand (s.heap y) = true → (s.heap y).isInvalid = false →
        gate.eval σ = if cond.eval σ then !(s.heap x).isConstant && (s.heap x).gating.holds σ
          else !(s.heap y).isConstant && (s.heap y).gating.holds σ := by
  cases hfirst : gateUnder cond (s.heap x) with
  | none =>
    have hx := gateUnder_eq_none.mp hfirst
    cases hsecond : gateUnder (.not cond) (s.heap y) with
    | none => exact .inl ⟨hx, gateUnder_eq_none.mp hsecond, by simp only [muxGate, hfirst, hsecond]⟩
    | some second =>
      have hy : (s.heap y).isConstant = false := by
        rw [← Bool.not_eq_true, ← gateUnder_eq_none, hsecond]
        exact Option.some_ne_none _
      refine .inr ⟨second, by simp only [muxGate, hfirst, hsecond], by simp [hy], ?_⟩
      intro N σ _ _ hoy hvy
      rw [gateUnder_holds hsecond hoy hvy σ, hx, hy, ENode.eval]
      cases cond.eval σ <;> rfl
  | some first =>
    have hx : (s.heap x).isConstant = false := by
      rw [← Bool.not_eq_true, ← gateUnder_eq_none, hfirst]
      exact Option.some_ne_none _
    cases hsecond : gateUnder (.not cond) (s.heap y) with
    | none =>
      have hy := gateUnder_eq_none.mp hsecond
      refine .inr ⟨first, by simp only [muxGate, hfirst, hsecond], by simp [hx], ?_⟩
      intro N σ hox hvx _ _
      rw [gateUnder_holds hfirst hox hvx σ, hx, hy]
      cases cond.eval σ <;> rfl
    | some second =>
      have hy : (s.heap y).isConstant = false := by
        rw [← Bool.not_eq_true, ← gateUnder_eq_none, hsecond]
        exact Option.some_ne_none _
      refine .inr ⟨.or first second, by simp only [muxGate, hfirst, hsecond], by simp [hx], ?_⟩
      intro N σ hox hvx hoy hvy
      rw [ENode.eval, gateUnder_holds hfirst hox hvx σ, gateUnder_holds hsecond hoy hvy σ, hx, hy,
        ENode.eval]
      cases cond.eval σ <;> simp

theorem Computes.mux {s₁ s₂ : ClockState} (cond : ENode) (ha : Computes N a s x s₁)
    (hb : Computes N b s₁ y s₂) (hsa : a.Separate) (hsb : b.Separate)
    (hoa : N.muxOperand (s₂.heap x) = true) (hob : N.muxOperand (s₂.heap y) = true)
    (hva : (s₂.heap x).isInvalid = false) (hvb : (s₂.heap y).isInvalid = false) :
    ((Term.mux cond a b).Separate ∧
      Computes N (.mux cond a b) s (muxGate cond x y s₂).1 (muxGate cond x y s₂).2) ∨
    (¬ (Term.mux cond a b).Separate ∧ (muxGate cond x y s₂).2.Clobbered) := by
  have ha₂ := (ha.keep hb.ext hb.good).isMatch
  have hia : a.shape.isInvalid = false := ha₂.isInvalid ▸ hva
  have hib : b.shape.isInvalid = false := hb.isMatch.isInvalid ▸ hvb
  have hkept : ∀ σ, (Term.mux cond a b).passesKept σ =
      if cond.eval σ then !a.shape.isConst && a.passesKept σ
      else !b.shape.isConst && b.passesKept σ := by
    intro σ
    simp only [Term.passesKept, hia, hib, Bool.false_eq_true, if_false]
  have hgates : a.shape.gates b.shape = !(a.shape.isConst && b.shape.isConst) := by
    simp only [Shape.gates, hia, hib, Bool.not_false, Bool.true_and]
  rcases muxGate_cases cond x y s₂ with ⟨hca, hcb, hres⟩ | ⟨gate, hres, hnc, heval⟩
  · -- two constants
    rw [ha₂.isConstant] at hca
    rw [hb.isMatch.isConstant] at hcb
    rw [hres]
    have hshape : (Term.mux cond a b).shape = Term.const.shape := by
      show a.shape.mux b.shape = _
      simp only [Shape.mux, hia, hib, hca, hcb, Bool.false_eq_true, if_false, Bool.and_self, if_true]
      rfl
    refine .inl ⟨⟨hsa, hsb, fun hg => ?_⟩, ?_⟩
    · rw [hgates, hca, hcb] at hg
      cases hg
    · have hconst : Matches .const ClockVal.constant := ⟨rfl, rfl, rfl, rfl, fun _ => rfl⟩
      have halloc := (alloc_computes hb.good hconst rfl).after (ha.ext.trans hb.ext)
      refine halloc.of_shape_eq hshape fun σ => ?_
      rw [hkept σ, hca, hcb]
      simp [Term.passesKept]
  · rw [hres, setGate_eq]
    rw [ha₂.isConstant, hb.isMatch.isConstant] at hnc
    have hshape : (Term.mux cond a b).shape = { b.shape with gated := true } := by
      show a.shape.mux b.shape = _
      simp only [Shape.mux, hia, hib, Bool.false_eq_true, if_false, Bool.and_eq_true, hnc]
    have hmatch : Matches (.mux cond a b) { s₂.heap y with gateENode := some gate } := by
      refine ⟨?_, ?_, ?_, ?_, ?_⟩
      · rw [hshape]
        exact hb.isMatch.node
      · rw [hshape]
        rfl
      · rw [hshape]
        exact hb.isMatch.isConstant
      · rw [hshape]
        exact hb.isMatch.isInvalid
      · intro σ
        show gate.eval σ = _
        rw [hkept σ, heval N σ hoa hva hob hvb, ha₂.isConstant, ha₂.holds σ, hb.isMatch.isConstant,
          hb.isMatch.holds σ]
    cases hshared : b.shape.shared with
    | false =>
      have hfresh : (Term.mux cond a b).shape.shared = false := by
        rw [hshape]
        exact hshared
      exact .inl ⟨⟨hsa, hsb, fun _ => hshared⟩, (hb.stored hshared hfresh hmatch).after ha.ext⟩
    | true =>
      refine .inr ⟨fun hsep => ?_, ?_⟩
      · have hg : a.shape.gates b.shape = true := by
          rw [hgates, Bool.not_eq_true', Bool.and_eq_false_iff]
          by_cases hc : a.shape.isConst = true
          · exact .inr (Bool.not_eq_true _ ▸ fun h => hnc ⟨hc, h⟩)
          · exact .inl (Bool.not_eq_true _ ▸ hc)
        rw [hsep.2.2 hg] at hshared
        cases hshared
      · exact stored_clobbered.mpr (.inr ⟨rfl, hb.shared hshared⟩)

end Heap

/-! ## 3. Whole computations -/

/-- What a computation of the expression `e` does: it has a term, and from a good state it
    either computes that term or changes a recorded value, according to whether the term is
    separate. -/
def Follows (N : Network) (e : ENode) (f : Compute) : Prop :=
  ∀ s x s', Known N s → f s = some (x, s') →
    ∃ t, Unfolds N e t ∧ Known N s' ∧ (s.Clobbered → s'.Clobbered) ∧
      (Good N s → (t.Separate ∧ Computes N t s x s') ∨ (¬ t.Separate ∧ s'.Clobbered))

section Computations

variable {N : Network} {s s' : ClockState} {e : ENode} {t : Term} {n x : Nat} {v : ClockVal}

/-- The leaves: a new object, not recorded for any node. -/
theorem follows_alloc (hterm : Unfolds N e t) (hmatch : Matches t v)
    (hshared : t.shape.shared = false) (hsep : t.Separate) :
    Follows N e fun s => some (s.alloc v) := by
  intro s x s' hknown hrun
  cases hrun
  exact ⟨t, hterm, hknown, id, fun hgood => .inl ⟨hsep, alloc_computes hgood hmatch hshared⟩⟩

/-- A recorded node. -/
theorem follows_recorded (hknown : Known N s) (hn : s.clockMap n = some x) :
    ∃ t, Unfolds N (.node n) t ∧ Known N s ∧ (s.Clobbered → s.Clobbered) ∧
      (Good N s → (t.Separate ∧ Computes N t s x s) ∨ (¬ t.Separate ∧ s.Clobbered)) := by
  obtain ⟨t, ht⟩ := hknown n x hn
  refine ⟨t, ht, hknown, id, fun hgood => .inl ?_⟩
  obtain ⟨hlt, t', ht', hsep, hmatch⟩ := hgood.recorded n x hn
  cases ht.unique ht'
  refine ⟨hsep, hgood, .refl s, hlt, hmatch, fun _ => ⟨n, hn⟩, fun hfresh => ?_⟩
  -- a reference is always shared
  cases ht <;> cases hfresh

theorem andClock_keeps {y z : Nat} (hknown : Known N s) (h : andClock x y s = some (z, s')) :
    Known N s' ∧ (s.Clobbered → s'.Clobbered) := by
  obtain ⟨-, ⟨-, -, rfl⟩ | ⟨-, rfl⟩⟩ := andClock_cases h
  · exact ⟨hknown, fun hclob => stored_clobbered.mpr (.inl hclob)⟩
  · exact ⟨hknown, id⟩

theorem muxGate_keeps (cond : ENode) (x y : Nat) (hknown : Known N s) :
    Known N (muxGate cond x y s).2 ∧ (s.Clobbered → (muxGate cond x y s).2.Clobbered) := by
  rcases muxGate_cases cond x y s with ⟨-, -, hres⟩ | ⟨gate, hres, -⟩
  · rw [hres]
    exact ⟨hknown, id⟩
  · rw [hres]
    exact ⟨hknown, fun hclob => stored_clobbered.mpr (.inl hclob)⟩

theorem ENode.follows_and {node : Nat → Compute} {x y : ENode}
    (ihx : Follows N x (x.clockCompute N node)) (ihy : Follows N y (y.clockCompute N node)) :
    Follows N (.and x y) (ENode.clockCompute N node (.and x y)) := by
  intro s z s' hknown hrun
  obtain ⟨⟨p, s₁⟩, hx, hrun⟩ := Option.bind_eq_some_iff.mp hrun
  obtain ⟨⟨q, s₂⟩, hy, hrun⟩ := Option.bind_eq_some_iff.mp hrun
  obtain ⟨a, ha, hknown₁, hclob₁, hgood₁⟩ := ihx s p s₁ hknown hx
  obtain ⟨b, hb, hknown₂, hclob₂, hgood₂⟩ := ihy s₁ q s₂ hknown₁ hy
  obtain ⟨hknown', hclob'⟩ := andClock_keeps hknown₂ hrun
  refine ⟨.and a b, .and ha hb, hknown', fun h => hclob' (hclob₂ (hclob₁ h)), fun hgood => ?_⟩
  rcases hgood₁ hgood with ⟨hsa, hca⟩ | ⟨hsa, hc⟩
  · rcases hgood₂ hca.good with ⟨hsb, hcb⟩ | ⟨hsb, hc⟩
    · exact hca.and hcb hsa hsb hrun
    · exact .inr ⟨fun h => hsb h.2.1, hclob' hc⟩
  · exact .inr ⟨fun h => hsa h.1, hclob' (hclob₂ hc)⟩

theorem ENode.follows_mux {node : Nat → Compute} {cond x y : ENode}
    (ihx : Follows N x (x.clockCompute N node)) (ihy : Follows N y (y.clockCompute N node)) :
    Follows N (.mux cond x y) (ENode.clockCompute N node (.mux cond x y)) := by
  intro s z s' hknown hrun
  obtain ⟨⟨p, s₁⟩, hx, hrun⟩ := Option.bind_eq_some_iff.mp hrun
  obtain ⟨a, ha, hknown₁, hclob₁, hgood₁⟩ := ihx s p s₁ hknown hx
  dsimp only at hrun
  split at hrun
  case isFalse => cases hrun
  case isTrue hoa =>
  obtain ⟨⟨q, s₂⟩, hy, hrun⟩ := Option.bind_eq_some_iff.mp hrun
  obtain ⟨b, hb, hknown₂, hclob₂, hgood₂⟩ := ihy s₁ q s₂ hknown₁ hy
  dsimp only at hrun
  split at hrun
  case isFalse => cases hrun
  case isTrue hob =>
  -- whatever the mux returns, the stores of its operands stay in the log
  have hkeeps : Known N s' ∧ (s₂.Clobbered → s'.Clobbered) := by
    split at hrun
    · cases hrun
      exact ⟨hknown₂, id⟩
    · split at hrun
      · cases hrun
        exact ⟨hknown₂, id⟩
      · have hres := muxGate_keeps cond p q hknown₂
        rw [Option.some.inj hrun] at hres
        exact hres
  refine ⟨.mux cond a b, .mux ha hb, hkeeps.1, fun h => hkeeps.2 (hclob₂ (hclob₁ h)),
    fun hgood => ?_⟩
  rcases hgood₁ hgood with ⟨hsa, hca⟩ | ⟨hsa, hc⟩
  case inr => exact .inr ⟨fun h => hsa h.1, hkeeps.2 (hclob₂ hc)⟩
  rcases hgood₂ hca.good with ⟨hsb, hcb⟩ | ⟨hsb, hc⟩
  case inr => exact .inr ⟨fun h => hsb h.2.1, hkeeps.2 hc⟩
  have hca₂ := hca.keep hcb.ext hcb.good
  split at hrun
  · next hib =>
    cases hrun
    rw [hcb.isMatch.isInvalid] at hib
    refine .inl ⟨⟨hsa, hsb, fun hg => ?_⟩, hca₂.of_shape_eq ?_ fun σ => ?_⟩
    · simp [Shape.gates, hib] at hg
    · show a.shape.mux b.shape = _
      simp only [Shape.mux, hib, if_true]
    · simp only [Term.passesKept, hib, if_true]
  · next hib =>
    split at hrun
    · next hia =>
      cases hrun
      rw [hcb.isMatch.isInvalid] at hib
      rw [hca₂.isMatch.isInvalid] at hia
      refine .inl ⟨⟨hsa, hsb, fun hg => ?_⟩, (hcb.after hca.ext).of_shape_eq ?_ fun σ => ?_⟩
      · simp [Shape.gates, hia] at hg
      · show a.shape.mux b.shape = _
        simp only [Shape.mux, hib, hia, if_true, Bool.false_eq_true, if_false]
      · simp only [Term.passesKept, hib, hia, if_true, Bool.false_eq_true, if_false]
    · next hia =>
      have hoa₂ : N.muxOperand (s₂.heap p) = true := by
        rw [hcb.ext.heap_eq p hca.lt]
        exact hoa
      have hres := hca.mux cond hcb hsa hsb hoa₂ hob (eq_false_of_ne_true hia)
        (eq_false_of_ne_true hib)
      rw [Option.some.inj hrun] at hres
      exact hres

/-- One case per operator. -/
theorem ENode.follows {node : Nat → Compute} (hnode : ∀ n, Follows N (.node n) (node n))
    (e : ENode) : Follows N e (e.clockCompute N node) := by
  have hconst : Matches .const ClockVal.constant := ⟨rfl, rfl, rfl, rfl, fun _ => rfl⟩
  induction e with
  | zeroWidth => exact follows_alloc .zeroWidth hconst rfl trivial
  | node n =>
    intro s x s' hknown hrun
    rw [ENode.clockCompute] at hrun
    split at hrun
    · next a hn =>
      cases hrun
      exact follows_recorded hknown hn
    · exact hnode n s x s' hknown hrun
  | cast e ih =>
    intro s x s' hknown hrun
    obtain ⟨t, ht, hrest⟩ := ih s x s' hknown hrun
    exact ⟨t, .cast ht, hrest⟩
  | bits hi lo e ih =>
    intro s x s' hknown hrun
    rw [ENode.clockCompute] at hrun
    split at hrun
    · next hzero =>
      obtain ⟨rfl, rfl⟩ := hzero
      obtain ⟨t, ht, hrest⟩ := ih s x s' hknown hrun
      exact ⟨t, .bits ht, hrest⟩
    · cases hrun
  | invalid => exact follows_alloc .invalid ⟨rfl, rfl, rfl, rfl, fun _ => rfl⟩ rfl trivial
  | int v => exact follows_alloc .int hconst rfl trivial
  | eq x y => exact follows_alloc .eq hconst rfl trivial
  | or x y => exact follows_alloc .or ⟨rfl, rfl, rfl, rfl, fun _ => rfl⟩ rfl trivial
  | and x y ihx ihy => exact follows_and ihx ihy
  | mux cond x y _ ihx ihy => exact follows_mux ihx ihy
  | not | null | other =>
    intro s x s' _ hrun
    cases hrun

/-- A node that is its own clock, or has none: a new object that is recorded at once. -/
theorem follows_alloc_record (hterm : Unfolds N (.node n) (.ref n t)) (hmatch : Matches t v)
    (hshared : t.shape.shared = false) (hsep : t.Separate) (hknown : Known N s)
    (hnew : s.clockMap n = none) :
    ∃ t, Unfolds N (.node n) t ∧ Known N ((s.alloc v).2.record n (s.alloc v).1) ∧
      (s.Clobbered → ((s.alloc v).2.record n (s.alloc v).1).Clobbered) ∧
      (Good N s → (t.Separate ∧ Computes N t s (s.alloc v).1 ((s.alloc v).2.record n (s.alloc v).1)) ∨
        (¬ t.Separate ∧ ((s.alloc v).2.record n (s.alloc v).1).Clobbered)) := by
  refine ⟨_, hterm, record_known (alloc_known hknown) hterm, id, fun hgood => .inl ⟨hsep, ?_⟩⟩
  exact (alloc_computes hgood hmatch hshared).record hnew hterm hsep

theorem Network.follows (N : Network) (fuel : Nat) :
    ∀ n, Follows N (.node n) (N.clockCompute fuel n) := by
  induction fuel with
  | zero =>
    intro n s x s' _ hrun
    cases hrun
  | succ fuel ih =>
    intro n s x s' hknown hrun
    rw [Network.clockCompute] at hrun
    split at hrun
    · next a hn =>
      cases hrun
      exact follows_recorded hknown hn
    next hnew =>
    split at hrun
    · next hsource =>
      cases hrun
      exact follows_alloc_record (.source hsource) ⟨rfl, rfl, rfl, rfl, fun _ => rfl⟩ rfl trivial
        hknown hnew
    next hsource =>
    have hsource := Bool.not_eq_true _ ▸ hsource
    split at hrun
    · next htree =>
      cases hrun
      exact follows_alloc_record (.external hsource htree) ⟨rfl, rfl, rfl, rfl, fun _ => rfl⟩ rfl
        trivial hknown hnew
    · next root htree =>
      obtain ⟨⟨a, s₁⟩, hroot, hres⟩ := Option.map_eq_some_iff.mp hrun
      cases hres
      obtain ⟨t, ht, hknown₁, hclob₁, hgood₁⟩ := ENode.follows ih root s x s₁ hknown hroot
      have hterm : Unfolds N (.node n) (.ref n t) := .assigned hsource htree ht
      refine ⟨.ref n t, hterm, record_known hknown₁ hterm, hclob₁, fun hgood => ?_⟩
      rcases hgood₁ hgood with ⟨hsep, hcomp⟩ | ⟨hsep, hc⟩
      · exact .inl ⟨hsep, hcomp.record hnew hterm hsep⟩
      · exact .inr ⟨hsep, hc⟩
    · cases hrun

end Computations

/-! ## 4. The pass -/

section Pass

variable {N : Network} {s s' : ClockState} {n : Nat}

end Pass

/-! ### Three small networks

Input clock 0, two enables 1 and 2, a derived clock 3 and a register 4. -/

end Gsim.ClockOptimize
