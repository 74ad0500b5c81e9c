/-
  Gsim/Kahn.lean
  ==============
  **Kahn's topological sort with in-degree counters**, for any queue.

  Vertices are the numbers below `n`.  A vertex is pushed when its counter drops
  to zero; which of the waiting vertices come next, one or several at a time, is
  left to a `Queue`, which may keep a state of its own.  On an acyclic graph every
  vertex is placed, after all its predecessors (`run_perm`, `run_sorted`); `n`
  rounds are enough.
-/
import Gsim.GraphContraction

namespace Kahn

open GraphContraction

/-! ## The queue -/

/-- A way to take some of the elements out of a non-empty container. -/
structure Queue (σ : Type*) where
  pop : σ → List ℕ → Option (List ℕ × List ℕ × σ)
  pop_none : ∀ s l, pop s l = none → l = []
  pop_some : ∀ s l batch rest s', pop s l = some (batch, rest, s') →
    batch ≠ [] ∧ l.Perm (batch ++ rest)

/-- First in, first out. -/
def Queue.fifo : Queue Unit where
  pop _
    | [] => none
    | u :: rest => some ([u], rest, ())
  pop_none _ l h := by
    cases l with
    | nil => rfl
    | cons u rest => cases h
  pop_some _ l batch rest _ h := by
    cases l with
    | nil => cases h
    | cons v rest' =>
      cases h
      exact ⟨List.cons_ne_nil _ _, List.Perm.refl _⟩

/-- The first of the elements that come before all others. -/
def least (before : ℕ → ℕ → Bool) (x : ℕ) (xs : List ℕ) : ℕ :=
  xs.foldl (fun m y => if before y m then y else m) x

theorem least_mem (before : ℕ → ℕ → Bool) (x : ℕ) (xs : List ℕ) : least before x xs ∈ x :: xs := by
  unfold least
  induction xs generalizing x with
  | nil => exact List.mem_singleton_self x
  | cons y ys ih =>
    rw [List.foldl_cons]
    rcases List.mem_cons.mp (ih (if before y x then y else x)) with h | h
    · rw [h]
      split
      · exact List.mem_cons_of_mem _ List.mem_cons_self
      · exact List.mem_cons_self
    · exact List.mem_cons_of_mem _ (List.mem_cons_of_mem _ h)

/-- A priority queue. -/
def Queue.priority (before : ℕ → ℕ → Bool) : Queue Unit where
  pop _
    | [] => none
    | x :: xs => some ([least before x xs], (x :: xs).erase (least before x xs), ())
  pop_none _ l h := by
    cases l with
    | nil => rfl
    | cons u rest => cases h
  pop_some _ l batch rest _ h := by
    cases l with
    | nil => cases h
    | cons x xs =>
      cases h
      exact ⟨List.cons_ne_nil _ _, List.perm_cons_erase (least_mem before x xs)⟩

/-! ## The algorithm -/

structure State (σ : Type*) where
  indeg : ℕ → ℕ
  ready : List ℕ
  order : List ℕ
  queue : σ

section Algorithm

variable {σ : Type*} (succ : ℕ → List ℕ) (q : Queue σ)

/-- `if (-- indeg[v] == 0) ready.push(v)`. -/
def release (st : State σ) (v : ℕ) : State σ :=
  { st with
    indeg := Function.update st.indeg v (st.indeg v - 1)
    ready := if st.indeg v - 1 = 0 then st.ready ++ [v] else st.ready }

/-- One round of `while (!ready.empty())`. -/
def step (st : State σ) : State σ :=
  match q.pop st.queue st.ready with
  | none => st
  | some (batch, rest, queue) =>
    (batch.flatMap succ).foldl release
      { st with ready := rest, order := st.order ++ batch, queue := queue }

def run : ℕ → State σ → State σ
  | 0, st => st
  | rounds + 1, st => run rounds (step succ q st)

/-- All vertices with counter zero wait, in ascending order. -/
def start (n : ℕ) (indeg : ℕ → ℕ) (queue : σ) : State σ :=
  ⟨indeg, (List.range n).filter fun v => indeg v = 0, [], queue⟩

end Algorithm

/-! ## The invariant -/

variable {σ : Type*} {n : ℕ} {succ : ℕ → List ℕ} {q : Queue σ}

/-- How many predecessors of `v` are still to be placed. -/
def missing (n : ℕ) (succ : ℕ → List ℕ) (order : List ℕ) (v : ℕ) : ℕ :=
  ((Finset.range n).filter fun u => v ∈ succ u ∧ u ∉ order).card

theorem missing_append {order : List ℕ} {u : ℕ} (hu : u < n) (fresh : u ∉ order) (v : ℕ) :
    missing n succ order v =
      missing n succ (order ++ [u]) v + if v ∈ succ u then 1 else 0 := by
  unfold missing
  by_cases h : v ∈ succ u
  · have split : (Finset.range n).filter (fun w => v ∈ succ w ∧ w ∉ order) =
        insert u ((Finset.range n).filter fun w => v ∈ succ w ∧ w ∉ order ++ [u]) := by
      ext w
      simp only [Finset.mem_filter, Finset.mem_range, Finset.mem_insert, List.mem_append,
        List.mem_singleton, not_or]
      by_cases hw : w = u
      · simp [hw, hu, h, fresh]
      · simp [hw]
    rw [split, Finset.card_insert_of_notMem (by simp), if_pos h]
  · have same : (Finset.range n).filter (fun w => v ∈ succ w ∧ w ∉ order) =
        (Finset.range n).filter fun w => v ∈ succ w ∧ w ∉ order ++ [u] := by
      ext w
      simp only [Finset.mem_filter, Finset.mem_range, List.mem_append, List.mem_singleton, not_or]
      by_cases hw : w = u
      · simp [hw, h]
      · simp [hw]
    rw [same, if_neg h, Nat.add_zero]

/-- A successor list is a set of vertices. -/
structure IsGraph (n : ℕ) (succ : ℕ → List ℕ) : Prop where
  bounded : ∀ u < n, ∀ v ∈ succ u, v < n
  nodup : ∀ u < n, (succ u).Nodup

/-- Counting predecessor lists gives the counters to start with. -/
theorem length_eq_missing {preds : List ℕ} {v : ℕ} (nodup : preds.Nodup)
    (mirrored : ∀ u, u ∈ preds ↔ u < n ∧ v ∈ succ u) : preds.length = missing n succ [] v := by
  unfold missing
  rw [← List.toFinset_card_of_nodup nodup]
  congr 1
  ext u
  rw [List.mem_toFinset, mirrored, Finset.mem_filter, Finset.mem_range]
  simp

/-- Each vertex of the batch is told to its successors once. -/
theorem missing_batch (graph : IsGraph n succ) {order batch : List ℕ}
    (bounded : ∀ u ∈ batch, u < n) (nodup : (order ++ batch).Nodup) (v : ℕ) :
    missing n succ order v =
      missing n succ (order ++ batch) v + (batch.flatMap succ).count v := by
  induction batch generalizing order with
  | nil => simp
  | cons u batch ih =>
    have hu := bounded u List.mem_cons_self
    have fresh : u ∉ order := by
      intro mem
      exact (List.nodup_append.mp nodup).2.2 u mem u List.mem_cons_self rfl
    have assoc : order ++ u :: batch = order ++ [u] ++ batch := by simp
    rw [assoc] at nodup ⊢
    have count : (succ u).count v = if v ∈ succ u then 1 else 0 := by
      by_cases mem : v ∈ succ u
      · rw [if_pos mem, List.count_eq_one_of_mem (graph.nodup u hu) mem]
      · rw [if_neg mem, List.count_eq_zero_of_not_mem mem]
    rw [missing_append hu fresh, ih (fun w hw => bounded w (List.mem_cons_of_mem _ hw)) nodup,
      List.flatMap_cons, List.count_append, count]
    omega

/-- The state while the last vertices placed have still to be told to `pending`. -/
structure Inv (n : ℕ) (succ : ℕ → List ℕ) (pending : List ℕ) (st : State σ) : Prop where
  nodup : (st.order ++ st.ready).Nodup
  bounded : ∀ v ∈ st.order ++ st.ready, v < n
  counter : ∀ v < n, st.indeg v = missing n succ st.order v + pending.count v
  waiting : ∀ v < n, v ∈ st.order ++ st.ready ↔ st.indeg v = 0
  sorted : ∀ u v, u < n → v ∈ succ u → v ∈ st.order →
    u ∈ st.order ∧ st.order.idxOf u < st.order.idxOf v

theorem Inv.release {v : ℕ} {pending : List ℕ} {st : State σ} (inv : Inv n succ (v :: pending) st)
    (hv : v < n) : Inv n succ pending (release st v) := by
  have positive : st.indeg v = missing n succ st.order v + pending.count v + 1 := by
    rw [inv.counter v hv, List.count_cons_self, Nat.add_assoc]
  have absent : v ∉ st.order ++ st.ready := by
    rw [inv.waiting v hv, positive]
    exact Nat.succ_ne_zero _
  have counter : ∀ w, w < n → (Kahn.release st v).indeg w =
      missing n succ st.order w + pending.count w := by
    intro w hw
    unfold Kahn.release
    by_cases eq : w = v
    · subst eq
      simp [positive]
    · simp [eq, inv.counter w hw, List.count_cons_of_ne (Ne.symm eq)]
  by_cases zero : st.indeg v - 1 = 0
  · have ready : (Kahn.release st v).ready = st.ready ++ [v] := if_pos zero
    refine ⟨?_, ?_, counter, ?_, inv.sorted⟩
    · rw [ready, ← List.append_assoc]
      refine List.Nodup.append inv.nodup (List.nodup_singleton v) ?_
      exact List.disjoint_singleton.mpr absent
    · rw [ready, ← List.append_assoc]
      intro w hw
      rcases List.mem_append.mp hw with old | new
      · exact inv.bounded w old
      · exact (List.mem_singleton.mp new) ▸ hv
    · intro w hw
      rw [ready, ← List.append_assoc, List.mem_append, List.mem_singleton]
      show w ∈ st.order ++ st.ready ∨ w = v ↔ Function.update st.indeg v (st.indeg v - 1) w = 0
      by_cases eq : w = v
      · subst eq
        simp [zero]
      · rw [Function.update_of_ne eq, inv.waiting w hw]
        simp [eq]
  · have ready : (Kahn.release st v).ready = st.ready := if_neg zero
    refine ⟨?_, ?_, counter, ?_, inv.sorted⟩
    · rw [ready]
      exact inv.nodup
    · rw [ready]
      exact inv.bounded
    · intro w hw
      rw [ready]
      show w ∈ st.order ++ st.ready ↔ Function.update st.indeg v (st.indeg v - 1) w = 0
      by_cases eq : w = v
      · subst eq
        simp [zero, absent]
      · rw [Function.update_of_ne eq, inv.waiting w hw]

theorem Inv.releaseAll {pending : List ℕ} {st : State σ} (inv : Inv n succ pending st)
    (bounded : ∀ v ∈ pending, v < n) : Inv n succ [] (pending.foldl Kahn.release st) := by
  induction pending generalizing st with
  | nil => exact inv
  | cons v pending ih =>
    rw [List.foldl_cons]
    apply ih (inv.release (bounded v List.mem_cons_self))
    exact fun w hw => bounded w (List.mem_cons_of_mem _ hw)

/-- Placing vertices whose predecessors are all placed. -/
theorem Inv.place {batch rest : List ℕ} {st : State σ} {queue : σ} (graph : IsGraph n succ)
    (inv : Inv n succ [] st) (perm : st.ready.Perm (batch ++ rest)) :
    Inv n succ (batch.flatMap succ)
      { st with ready := rest, order := st.order ++ batch, queue := queue } := by
  have perm' : (st.order ++ st.ready).Perm ((st.order ++ batch) ++ rest) := by
    rw [List.append_assoc]
    exact List.Perm.append_left _ perm
  have waits : ∀ u ∈ batch, u ∈ st.order ++ st.ready := fun u hu =>
    List.mem_append_right _ (perm.mem_iff.mpr (List.mem_append_left _ hu))
  have nodup' := perm'.nodup_iff.mp inv.nodup
  have nodup := (List.nodup_append.mp nodup').1
  have noneMissing : ∀ u ∈ batch, missing n succ st.order u = 0 := by
    intro u hu
    have lt := inv.bounded u (waits u hu)
    have counter := inv.counter u lt
    rw [(inv.waiting u lt).mp (waits u hu)] at counter
    simpa using counter.symm
  refine ⟨nodup', ?_, ?_, ?_, ?_⟩
  · exact fun v hv => inv.bounded v (perm'.mem_iff.mpr hv)
  · intro v hv
    have counter := inv.counter v hv
    rw [missing_batch graph (fun u hu => inv.bounded u (waits u hu)) nodup] at counter
    simpa using counter
  · intro v hv
    rw [← inv.waiting v hv]
    exact perm'.mem_iff.symm
  · intro w v hw edge placed
    rcases List.mem_append.mp placed with old | new
    · obtain ⟨mem, lt⟩ := inv.sorted w v hw edge old
      refine ⟨List.mem_append_left _ mem, ?_⟩
      rw [List.idxOf_append_of_mem mem, List.idxOf_append_of_mem old]
      exact lt
    · have fresh : v ∉ st.order := by
        intro mem
        exact (List.nodup_append.mp nodup).2.2 v mem v new rfl
      have mem : w ∈ st.order := by
        by_contra absent
        have : w ∈ (Finset.range n).filter fun w => v ∈ succ w ∧ w ∉ st.order := by
          simp [hw, edge, absent]
        exact Finset.card_ne_zero_of_mem this (noneMissing v new)
      refine ⟨List.mem_append_left _ mem, ?_⟩
      rw [List.idxOf_append_of_mem mem, List.idxOf_append_of_notMem fresh]
      exact (List.idxOf_lt_length_of_mem mem).trans_le (Nat.le_add_right _ _)

theorem Inv.step {st : State σ} (graph : IsGraph n succ) (inv : Inv n succ [] st) :
    Inv n succ [] (Kahn.step succ q st) := by
  unfold Kahn.step
  cases popped : q.pop st.queue st.ready with
  | none => exact inv
  | some p =>
    obtain ⟨batch, rest, queue⟩ := p
    obtain ⟨-, perm⟩ := q.pop_some _ _ _ _ _ popped
    refine (inv.place graph perm).releaseAll ?_
    intro v hv
    obtain ⟨u, hu, edge⟩ := List.mem_flatMap.mp hv
    have lt : u < n := inv.bounded u
      (List.mem_append_right _ (perm.mem_iff.mpr (List.mem_append_left _ hu)))
    exact graph.bounded u lt v edge

theorem Inv.run {st : State σ} (graph : IsGraph n succ) (inv : Inv n succ [] st) (rounds : ℕ) :
    Inv n succ [] (Kahn.run succ q rounds st) := by
  induction rounds generalizing st with
  | zero => exact inv
  | succ rounds ih => exact ih (inv.step graph)

theorem Inv.start {indeg : ℕ → ℕ} (counted : ∀ v < n, indeg v = missing n succ [] v) (queue : σ) :
    Inv n succ [] (Kahn.start n indeg queue) where
  nodup := by
    rw [Kahn.start, List.nil_append]
    exact List.nodup_range.filter _
  bounded := by
    intro v hv
    simp only [Kahn.start, List.nil_append, List.mem_filter, List.mem_range] at hv
    exact hv.1
  counter := by
    intro v hv
    simp [Kahn.start, counted v hv]
  waiting := by
    intro v hv
    simp [Kahn.start, hv]
  sorted := by
    intro u v _ _ placed
    cases placed

/-! ## Rounds -/

theorem foldl_release_order (pending : List ℕ) (st : State σ) :
    (pending.foldl release st).order = st.order := by
  induction pending generalizing st with
  | nil => rfl
  | cons v pending ih =>
    rw [List.foldl_cons, ih]
    rfl

/-- A round places a vertex, or there is none left to place. -/
theorem step_order (st : State σ) :
    st.order.length + 1 ≤ (step succ q st).order.length ∨
      (st.ready = [] ∧ step succ q st = st) := by
  unfold step
  cases popped : q.pop st.queue st.ready with
  | none => exact .inr ⟨q.pop_none _ _ popped, rfl⟩
  | some p =>
    left
    obtain ⟨batch, rest, queue⟩ := p
    obtain ⟨nonempty, -⟩ := q.pop_some _ _ _ _ _ popped
    have pos := List.length_pos_of_ne_nil nonempty
    rw [foldl_release_order, List.length_append]
    omega

theorem run_of_step_eq {st : State σ} (h : step succ q st = st) (rounds : ℕ) :
    run succ q rounds st = st := by
  induction rounds with
  | zero => rfl
  | succ rounds ih => rw [run, h, ih]

theorem run_order (rounds : ℕ) (st : State σ) :
    st.order.length + rounds ≤ (run succ q rounds st).order.length ∨
      (run succ q rounds st).ready = [] := by
  induction rounds generalizing st with
  | zero => exact .inl (le_refl _)
  | succ rounds ih =>
    rcases @step_order _ succ q st with placed | ⟨empty, same⟩
    · rcases ih (step succ q st) with h | h
      · left
        rw [run]
        omega
      · exact .inr h
    · right
      rw [run_of_step_eq same]
      exact empty

theorem Inv.length_le {st : State σ} (inv : Inv n succ [] st) :
    st.order.length + st.ready.length ≤ n := by
  have sub : (st.order ++ st.ready) ⊆ List.range n := by
    intro v hv
    exact List.mem_range.mpr (inv.bounded v hv)
  have := (inv.nodup.subperm sub).length_le
  rwa [List.length_append, List.length_range] at this

/-- The queue is empty after `n` rounds. -/
theorem run_ready {indeg : ℕ → ℕ} (graph : IsGraph n succ)
    (counted : ∀ v < n, indeg v = missing n succ [] v) (queue : σ) :
    (run succ q n (start n indeg queue)).ready = [] := by
  have inv := (Inv.start counted queue).run (q := q) graph n
  rcases @run_order _ succ q n (start n indeg queue) with placed | empty
  · have le := inv.length_le
    have none : (start n indeg queue).order.length = 0 := rfl
    rw [none, Nat.zero_add] at placed
    exact List.length_eq_zero_iff.mp (by omega)
  · exact empty

/-! ## Acyclic graphs -/

section Acyclic

variable {indeg : ℕ → ℕ} (graph : IsGraph n succ)
  (counted : ∀ v < n, indeg v = missing n succ [] v) (queue : σ)
include graph counted

/-- Every vertex is placed once. -/
theorem run_perm (acyclic : Acyclic fun u v => u < n ∧ v ∈ succ u) :
    (run succ q n (start n indeg queue)).order.Perm (List.range n) := by
  have inv := (Inv.start counted queue).run (q := q) graph n
  have empty := run_ready (q := q) graph counted queue
  have nodup : (run succ q n (start n indeg queue)).order.Nodup :=
    (List.nodup_append.mp inv.nodup).1
  refine (List.perm_ext_iff_of_nodup nodup List.nodup_range).mpr ?_
  intro v
  rw [List.mem_range]
  refine ⟨fun hv => inv.bounded v (List.mem_append_left _ hv), ?_⟩
  intro hv
  by_contra absent
  -- among the vertices left out, one has no predecessor left out
  obtain ⟨y, ⟨hy, yAbsent⟩, source⟩ := exists_source acyclic
    (S := fun x => x < n ∧ x ∉ (run succ q n (start n indeg queue)).order) (fun _ h => h.1)
    ⟨hv, absent⟩
  have zero : (run succ q n (start n indeg queue)).indeg y = 0 := by
    rw [inv.counter y hy, List.count_nil, Nat.add_zero]
    refine Finset.card_eq_zero.mpr (Finset.filter_eq_empty_iff.mpr ?_)
    intro z hz
    rw [Finset.mem_range] at hz
    rintro ⟨edge, zAbsent⟩
    exact source z ⟨hz, zAbsent⟩ ⟨hz, edge⟩
  have placed := (inv.waiting y hy).mpr zero
  rw [empty, List.append_nil] at placed
  exact yAbsent placed

/-- Edges go forward in the order. -/
theorem run_sorted {u v : ℕ} (hu : u < n) (edge : v ∈ succ u)
    (placed : v ∈ (run succ q n (start n indeg queue)).order) :
    (run succ q n (start n indeg queue)).order.idxOf u <
      (run succ q n (start n indeg queue)).order.idxOf v :=
  (((Inv.start counted queue).run (q := q) graph n).sorted u v hu edge placed).2

/-- No vertex comes before one that it has an edge from. -/
theorem run_pairwise :
    (run succ q n (start n indeg queue)).order.Pairwise fun u v => u ∉ succ v := by
  have inv := (Inv.start counted queue).run (q := q) graph n
  have nodup : (run succ q n (start n indeg queue)).order.Nodup :=
    (List.nodup_append.mp inv.nodup).1
  refine List.pairwise_iff_getElem.mpr ?_
  intro i j hi hj lt edge
  have bound := inv.bounded _ (List.mem_append_left _ (List.getElem_mem hj))
  have sorted := (inv.sorted _ _ bound edge (List.getElem_mem hi)).2
  rw [nodup.idxOf_getElem, nodup.idxOf_getElem] at sorted
  exact absurd sorted lt.not_gt

end Acyclic

/-! ## Batches -/

/-- What the rounds take out of the queue. -/
def batches (succ : ℕ → List ℕ) (q : Queue σ) : ℕ → State σ → List (List ℕ)
  | 0, _ => []
  | rounds + 1, st =>
    match q.pop st.queue st.ready with
    | none => []
    | some (batch, _) => batch :: batches succ q rounds (step succ q st)

/-- The order is the batches one after another. -/
theorem run_order_eq (rounds : ℕ) (st : State σ) :
    (run succ q rounds st).order = st.order ++ (batches succ q rounds st).flatten := by
  induction rounds generalizing st with
  | zero => simp [run, batches]
  | succ rounds ih =>
    rw [run, batches]
    cases popped : q.pop st.queue st.ready with
    | none =>
      have same : step succ q st = st := by rw [step, popped]
      rw [same, run_of_step_eq same]
      simp
    | some p =>
      obtain ⟨batch, rest, queue⟩ := p
      have placed : (step succ q st).order = st.order ++ batch := by
        rw [step, popped]
        exact foldl_release_order _ _
      rw [ih, placed, List.flatten_cons, List.append_assoc]

/-- Every batch was taken out of the queue, and no vertex in it leads to another. -/
theorem batches_spec (graph : IsGraph n succ) {rounds : ℕ} {st : State σ} (inv : Inv n succ [] st)
    {batch : List ℕ} (mem : batch ∈ batches succ q rounds st) :
    (∃ s ready rest s', q.pop s ready = some (batch, rest, s')) ∧
      ∀ u ∈ batch, ∀ v ∈ batch, ¬ Relation.TransGen (fun u v => u < n ∧ v ∈ succ u) u v := by
  induction rounds generalizing st with
  | zero => cases mem
  | succ rounds ih =>
    rw [batches] at mem
    cases popped : q.pop st.queue st.ready with
    | none =>
      rw [popped] at mem
      cases mem
    | some p =>
      obtain ⟨first, rest, queue⟩ := p
      rw [popped] at mem
      rcases List.mem_cons.mp mem with rfl | later
      · refine ⟨⟨_, _, _, _, popped⟩, fun u hu v hv path => ?_⟩
        obtain ⟨-, perm⟩ := q.pop_some _ _ _ _ _ popped
        have waits : ∀ w ∈ batch, w ∈ st.ready := fun w hw =>
          perm.mem_iff.mpr (List.mem_append_left _ hw)
        -- the predecessors of a waiting vertex are placed, and so are theirs
        have placed : ∀ w x, w < n → x ∈ succ w → x ∈ st.ready ∨ x ∈ st.order → w ∈ st.order := by
          intro w x hw edge hx
          have bound : x < n := inv.bounded x (List.mem_append.mpr hx.symm)
          by_contra absent
          have counter := inv.counter x bound
          rw [(inv.waiting x bound).mp (List.mem_append.mpr hx.symm), List.count_nil,
            Nat.add_zero] at counter
          have left : w ∈ (Finset.range n).filter fun w => x ∈ succ w ∧ w ∉ st.order := by
            simp [hw, edge, absent]
          exact Finset.card_ne_zero_of_mem left counter.symm
        have ready := waits u hu
        clear hu
        have reached : u ∈ st.order := by
          clear ready
          have target : v ∈ st.ready ∨ v ∈ st.order := .inl (waits v hv)
          induction path using Relation.TransGen.head_induction_on with
          | single edge => exact placed _ _ edge.1 edge.2 target
          | head edge _ ih => exact placed _ _ edge.1 edge.2 (.inr ih)
        exact (List.nodup_append.mp inv.nodup).2.2 u reached u ready rfl
      · exact ih (inv.step graph) later

end Kahn
