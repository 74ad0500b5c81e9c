/-
  Gsim/LoopDetector.lean
  ======================
  **Combinational loop detection** (`graph::detectLoop`, `src/loopDetector.cpp`).

  The search keeps an explicit stack and three visit states.  A super is entered
  into `states` when it is *pushed*; its successors that are in `states` already
  are not pushed again, and only a successor found `EXPANDED` is reported.  All
  of `supersrc` is pushed before the first super is expanded.

  What the search visits is a forest: the parent of a super is the super at whose
  expansion it was pushed (`Pushes`).  The search reports a loop exactly when some
  super has an edge to one of its proper ancestors in that forest, which every
  cycle contains in a depth-first search that marks supers on entry, and not in
  this one: an edge to a super that still waits on the stack is passed over.
-/
import Mathlib.Logic.Relation
import Mathlib.Data.Finset.Card
import Mathlib.Algebra.BigOperators.Group.Finset.Basic
import Mathlib.Algebra.Order.BigOperators.Group.Finset

namespace Gsim.LoopDetector

open Relation

/-! ## 1. The search -/

/-- `NOT_VISIT`, `EXPANDED`, `VISITED`. -/
inductive VisitState where
  | notVisit
  | expanded
  | visited
  deriving DecidableEq, Repr

/-- The super-node graph: `next` is a `std::set<SuperNode*>`, here the list of its elements
    in iteration order. -/
structure SuperGraph where
  size : Nat
  next : Nat → List Nat
  supersrc : List Nat
  next_nodup : ∀ v, (next v).Nodup
  next_lt : ∀ v, ∀ w ∈ next v, w < size
  supersrc_lt : ∀ v ∈ supersrc, v < size

/-- The stack (top first) and the map `states`. -/
structure SearchState where
  stack : List Nat
  states : Nat → Option VisitState

/-- How a run ends: one of the two failing `Assert`s, or the message `NO Loop!`. -/
inductive Outcome where
  | loop (displayed : List Nat)
  | alreadyVisited (top : Nat)
  | noLoop
  deriving DecidableEq, Repr

def SearchState.push (s : SearchState) (node : Nat) : SearchState where
  stack := node :: s.stack
  states := Function.update s.states node (some .notVisit)

def SearchState.mark (s : SearchState) (node : Nat) (v : VisitState) : SearchState :=
  { s with states := Function.update s.states node (some v) }

/-- The inner loop of a report: pops until `next` and displays the expanded supers on the way.
    `none` when the stack runs empty first, so that the `Assert` is not reached. -/
def displayLoop (next : Nat) (states : Nat → Option VisitState) : List Nat → Option (List Nat)
  | [] => none
  | n :: rest =>
    let shown := if states n = some .expanded then [n] else []
    if n = next then some shown
    else (displayLoop next states rest).map (shown ++ ·)

/-- The scan of `top->next`. -/
def scanNext (top : Nat) : List Nat → SearchState → Except Outcome SearchState
  | [], s => .ok s
  | next :: rest, s =>
    -- self-loops are allowed for memory reader ports with latency 0
    if next = top then scanNext top rest s
    else
      match s.states next with
      | none => scanNext top rest (s.push next)
      | some .expanded =>
        match displayLoop next s.states s.stack with
        | some shown => .error (.loop (next :: shown))
        | none => scanNext top rest { s with stack := [] }
      | some _ => scanNext top rest s

/-- One iteration of the `while` loop, or how the function ends. -/
def detectStep (next : Nat → List Nat) (s : SearchState) : Except Outcome SearchState :=
  match s.stack with
  | [] => .error .noLoop
  | top :: rest =>
    match s.states top with
    | some .expanded => .ok { s.mark top .visited with stack := rest }
    | some .visited => .error (.alreadyVisited top)
    -- `states[top]` of an absent key is 0, that is `NOT_VISIT`
    | _ => scanNext top (next top) (s.mark top .expanded)

def detectRun (next : Nat → List Nat) : Nat → SearchState → Option Outcome
  | 0, _ => none
  | fuel + 1, s =>
    match detectStep next s with
    | .error o => some o
    | .ok s' => detectRun next fuel s'

/-- The state after the loop over `supersrc`. -/
def SuperGraph.start (G : SuperGraph) : SearchState :=
  G.supersrc.foldl SearchState.push ⟨[], fun _ => none⟩

/-- `graph::detectLoop`; each iteration moves one super from not visited to expanded or from
    expanded to visited (`detectLoop_isSome`). -/
def SuperGraph.detectLoop (G : SuperGraph) : Option Outcome :=
  detectRun G.next (2 * G.size + 1) G.start

/-! ## 2. Cycles of the graph -/

def SuperGraph.Edge (G : SuperGraph) (u v : Nat) : Prop := v ∈ G.next u

def SuperGraph.FromSource (G : SuperGraph) (v : Nat) : Prop :=
  ∃ u ∈ G.supersrc, ReflTransGen G.Edge u v

/-- A cycle of length two or more that is reachable from `supersrc`: two supers that reach
    each other. -/
def SuperGraph.HasLoop (G : SuperGraph) : Prop :=
  ∃ u v, G.FromSource u ∧ u ≠ v ∧ TransGen G.Edge u v ∧ TransGen G.Edge v u

/-! ## 3. The push forest -/

/-- A forest as first child and next sibling. -/
inductive Forest where
  | nil
  | node (v : Nat) (children siblings : Forest)

/-- The successors of `v` that nobody has pushed yet. -/
def fresh (next : Nat → List Nat) (claimed : List Nat) (v : Nat) : List Nat :=
  (next v).filter fun w => w ≠ v ∧ w ∉ claimed

/-- `Pushes next claimed level F claimed'`: with the supers of `claimed` pushed so far,
    expanding `level` in order gives the forest `F` and leaves `claimed'` pushed.  The last
    successor pushed is the first one expanded. -/
inductive Pushes (next : Nat → List Nat) :
    List Nat → List Nat → Forest → List Nat → Prop
  | nil (claimed : List Nat) : Pushes next claimed [] .nil claimed
  | node {claimed mid claimed' : List Nat} {v : Nat} {rest : List Nat} {children siblings : Forest} :
      Pushes next (fresh next claimed v ++ claimed) (fresh next claimed v).reverse children mid →
      Pushes next mid rest siblings claimed' →
      Pushes next claimed (v :: rest) (.node v children siblings) claimed'

/-- Some super of the forest has an edge to a proper ancestor; `anc` are the ancestors above. -/
def Forest.HasBack (next : Nat → List Nat) : List Nat → Forest → Prop
  | _, .nil => False
  | anc, .node v children siblings =>
    (∃ w ∈ next v, w ≠ v ∧ w ∈ anc) ∨ children.HasBack next (v :: anc) ∨ siblings.HasBack next anc

/-- The forest of the whole search: `supersrc` is pushed first and expanded from its end. -/
def SuperGraph.PushForest (G : SuperGraph) (F : Forest) : Prop :=
  ∃ claimed, Pushes G.next G.supersrc G.supersrc.reverse F claimed

/-! ## 4. Runs -/

section Runs

variable {next : Nat → List Nat} {s s' s'' : SearchState} {o o' : Outcome}

/-- `s'` is reached from `s` by whole iterations. -/
def Leads (next : Nat → List Nat) : SearchState → SearchState → Prop :=
  ReflTransGen fun a b => detectStep next a = .ok b

/-- The run from `s` ends with `o`. -/
def Ends (next : Nat → List Nat) (s : SearchState) (o : Outcome) : Prop :=
  ∃ s', Leads next s s' ∧ detectStep next s' = .error o

theorem Leads.ends (h : Leads next s s') (he : Ends next s' o) : Ends next s o := by
  obtain ⟨t, ht, hstep⟩ := he
  exact ⟨t, h.trans ht, hstep⟩

theorem ends_of_step_error (h : detectStep next s = .error o) : Ends next s o :=
  ⟨s, .refl, h⟩

/-- A deterministic iteration ends in one way. -/
theorem outcome_unique {σ ε : Type} {step : σ → Except ε σ} {s : σ} {o o' : ε}
    (h : ∃ t, ReflTransGen (fun a b => step a = .ok b) s t ∧ step t = .error o)
    (h' : ∃ t, ReflTransGen (fun a b => step a = .ok b) s t ∧ step t = .error o') : o = o' := by
  obtain ⟨t, ht, hstep⟩ := h
  induction ht using ReflTransGen.head_induction_on with
  | refl =>
    obtain ⟨t', ht', hstep'⟩ := h'
    rcases ht'.cases_head with rfl | ⟨b, hb, -⟩
    · rw [hstep] at hstep'
      cases hstep'
      rfl
    · rw [hstep] at hb
      cases hb
  | head hab _ ih =>
    apply ih
    obtain ⟨t', ht', hstep'⟩ := h'
    rcases ht'.cases_head with rfl | ⟨b, hb, hbt⟩
    · rw [hab] at hstep'
      cases hstep'
    · rw [hab] at hb
      cases hb
      exact ⟨t', hbt, hstep'⟩

theorem Ends.unique (h : Ends next s o) (h' : Ends next s o') : o = o' :=
  outcome_unique h h'

theorem ends_of_detectRun : ∀ {fuel : Nat} {s : SearchState},
    detectRun next fuel s = some o → Ends next s o := by
  intro fuel
  induction fuel with
  | zero =>
    intro s h
    cases h
  | succ fuel ih =>
    intro s h
    rw [detectRun] at h
    split at h
    · next o' hstep =>
      cases h
      exact ends_of_step_error hstep
    · next s' hstep =>
      have hlead : Leads next s s' := ReflTransGen.single hstep
      exact hlead.ends (ih h)

/-! ### Every run ends -/

/-- How many iterations a super still causes. -/
def pending : Option VisitState → Nat
  | none => 2
  | some .notVisit => 2
  | some .expanded => 1
  | some .visited => 0

def potential (size : Nat) (states : Nat → Option VisitState) : Nat :=
  ∑ v ∈ Finset.range size, pending (states v)

/-- A sum over the states when one of them is replaced. -/
theorem sum_states_update (f : Option VisitState → Nat) {size v : Nat} (hv : v < size)
    (states : Nat → Option VisitState) (x : VisitState) :
    ∑ w ∈ Finset.range size, f (Function.update states v (some x) w) + f (states v) =
      ∑ w ∈ Finset.range size, f (states w) + f (some x) := by
  have hmem : v ∈ Finset.range size := Finset.mem_range.mpr hv
  have hrest : ∑ w ∈ (Finset.range size).erase v, f (Function.update states v (some x) w) =
      ∑ w ∈ (Finset.range size).erase v, f (states w) := by
    apply Finset.sum_congr rfl
    intro w hw
    rw [Function.update_of_ne (Finset.ne_of_mem_erase hw)]
  have hold := Finset.sum_erase_add (Finset.range size) (fun w => f (states w)) hmem
  have hnew := Finset.sum_erase_add (Finset.range size)
    (fun w => f (Function.update states v (some x) w)) hmem
  rw [hrest, Function.update_self] at hnew
  omega

theorem potential_update {size v : Nat} (hv : v < size) (states : Nat → Option VisitState)
    (x : VisitState) :
    potential size (Function.update states v (some x)) + pending (states v) =
      potential size states + pending (some x) :=
  sum_states_update pending hv states x

theorem scanNext_potential {size top : Nat} : ∀ {l : List Nat} {s : SearchState},
    (∀ v ∈ l, v < size) → (∀ v ∈ s.stack, v < size) → scanNext top l s = .ok s' →
    potential size s'.states = potential size s.states ∧ ∀ v ∈ s'.stack, v < size := by
  intro l
  induction l with
  | nil =>
    intro s _ hstack h
    cases h
    exact ⟨rfl, hstack⟩
  | cons w rest ih =>
    intro s hl hstack h
    obtain ⟨hw, hrest⟩ := List.forall_mem_cons.mp hl
    rw [scanNext] at h
    split at h
    · exact ih hrest hstack h
    · split at h
      · next hnone =>
        have hstack' : ∀ v ∈ (s.push w).stack, v < size :=
          List.forall_mem_cons.mpr ⟨hw, hstack⟩
        have hpush := ih hrest hstack' h
        have hupd := potential_update hw s.states .notVisit
        rw [hnone] at hupd
        exact ⟨hpush.1.trans (Nat.add_right_cancel hupd), hpush.2⟩
      · split at h
        · cases h
        · exact @ih { s with stack := [] } hrest (List.forall_mem_nil _) h
      · exact ih hrest hstack h

theorem detectStep_potential {size : Nat} (hnext : ∀ v, ∀ w ∈ next v, w < size)
    (hstack : ∀ v ∈ s.stack, v < size) (h : detectStep next s = .ok s') :
    potential size s'.states + 1 = potential size s.states ∧ ∀ v ∈ s'.stack, v < size := by
  unfold detectStep at h
  split at h
  · cases h
  · next top rest hs =>
    rw [hs] at hstack
    obtain ⟨htop, hrest⟩ := List.forall_mem_cons.mp hstack
    split at h
    · next hexp =>
      cases h
      have hupd := potential_update htop s.states .visited
      rw [hexp] at hupd
      exact ⟨hupd, hrest⟩
    · cases h
    · next hne hnv =>
      have hscan := scanNext_potential (hnext top) (by rw [SearchState.mark, hs]; exact hstack) h
      have hupd := potential_update htop s.states .expanded
      have hpend : pending (s.states top) = 2 := by
        cases hst : s.states top with
        | none => rfl
        | some x =>
          cases x with
          | notVisit => rfl
          | expanded => exact absurd hst hne
          | visited => exact absurd hst hnv
      have hone : pending (some VisitState.expanded) = 1 := rfl
      have hmark : potential size (s.mark top .expanded).states =
        potential size (Function.update s.states top (some .expanded)) := rfl
      refine ⟨?_, hscan.2⟩
      omega

theorem detectRun_isSome {size : Nat} (hnext : ∀ v, ∀ w ∈ next v, w < size) :
    ∀ {fuel : Nat} {s : SearchState}, (∀ v ∈ s.stack, v < size) →
      potential size s.states < fuel → ∃ o, detectRun next fuel s = some o := by
  intro fuel
  induction fuel with
  | zero =>
    intro s _ hlt
    exact absurd hlt (Nat.not_lt_zero _)
  | succ fuel ih =>
    intro s hstack hlt
    rw [detectRun]
    cases hstep : detectStep next s with
    | error o => exact ⟨o, rfl⟩
    | ok s' =>
      obtain ⟨hpot, hstack'⟩ := detectStep_potential hnext hstack hstep
      exact ih hstack' (by omega)

end Runs

@[simp]
theorem foldl_push_stack (l : List Nat) (s : SearchState) :
    (l.foldl SearchState.push s).stack = l.reverse ++ s.stack := by
  induction l generalizing s with
  | nil => rfl
  | cons w l ih =>
    rw [List.foldl_cons, ih, List.reverse_cons, List.append_assoc]
    rfl

theorem foldl_push_states (l : List Nat) (s : SearchState) (v : Nat) :
    (l.foldl SearchState.push s).states v = if v ∈ l then some .notVisit else s.states v := by
  induction l generalizing s with
  | nil => rfl
  | cons w l ih =>
    rw [List.foldl_cons, ih, SearchState.push]
    by_cases hv : v = w
    · subst hv
      simp
    · simp [hv]

theorem SuperGraph.start_stack (G : SuperGraph) : G.start.stack = G.supersrc.reverse := by
  rw [SuperGraph.start, foldl_push_stack, List.append_nil]

theorem SuperGraph.start_states (G : SuperGraph) (v : Nat) :
    G.start.states v = if v ∈ G.supersrc then some .notVisit else none :=
  foldl_push_states _ _ v

/-- The function always ends. -/
theorem SuperGraph.detectLoop_isSome (G : SuperGraph) : ∃ o, G.detectLoop = some o := by
  apply detectRun_isSome G.next_lt
  · intro v hv
    rw [G.start_stack] at hv
    exact G.supersrc_lt v (List.mem_reverse.mp hv)
  · have hle : potential G.size G.start.states ≤ ∑ _v ∈ Finset.range G.size, 2 := by
      apply Finset.sum_le_sum
      intro v _
      rw [G.start_states v]
      split <;> exact le_refl 2
    rw [Finset.sum_const_nat fun _ _ => rfl, Finset.card_range] at hle
    omega

theorem SuperGraph.detectLoop_eq_iff (G : SuperGraph) {o : Outcome} :
    G.detectLoop = some o ↔ Ends G.next G.start o := by
  constructor
  · exact ends_of_detectRun
  · intro h
    obtain ⟨o', ho'⟩ := G.detectLoop_isSome
    rw [ho', h.unique (ends_of_detectRun ho')]

end Gsim.LoopDetector
