/-
  Gsim/InitPartition.lean
  =======================
  **The initial partition** (`graph::graphInitPartition` of `graphPartition.cpp`).

  A dynamic program over the positions of the sorted super nodes looks for the
  contiguous segments of at most `SuperNodeMaxSize` members that cut the fewest edges;
  super nodes of a special type are cut off on both sides, and the members of every
  segment move to its first super node.

  The cost of a segment is kept while it grows: the edges out of the new super node
  are added and those into it from the segment are taken away (`extendStep_cost`).
  `graphInitPartition_optimal` says that the cuts are best and what the result holds.

  `INT_MAX`, the entry of a position that no segment has reached, is `⊤`; the bound
  is compared as a size.
-/
import Gsim.MergeSchedule
import Gsim.SegmentCuts
import Gsim.SortedContainers

namespace Gsim.MergeNodes

open SegmentCuts SortedContainers SuperLinks

variable {Op : Type}

namespace SuperGraph

section Program

variable (G : SuperGraph Op) (SuperNodeMaxSize : ℕ)

/-- `sortedSuper[i]` -/
def superAt (i : ℕ) : ℕ := G.sortedSuper.getD i 0

def sizeAt (i : ℕ) : ℕ := (G.member (G.superAt i)).length

/-- The loop that looks for `nextBound`, with `left` super nodes to go. -/
def boundFrom : ℕ → ℕ → ℕ → ℕ
  | 0, nextBound, _ => nextBound
  | left + 1, nextBound, accuCost =>
      if accuCost + G.sizeAt nextBound ≤ SuperNodeMaxSize then
        boundFrom left (nextBound + 1) (accuCost + G.sizeAt nextBound)
      else nextBound

def nextBound (i : ℕ) : ℕ :=
  G.boundFrom SuperNodeMaxSize (G.sortedSuper.length - (i + 1)) (i + 1) (G.sizeAt i)

/-- One turn of the loop over `j`, with the cost `Cij` of the segment so far. -/
def extendStep (i : ℕ) (st : Table ℤ × ℤ) (j : ℕ) : Table ℤ × ℤ :=
  let super := G.superAt (j - 1)
  let Cij := st.2 + (G.links.next super).length
  let Cij := (G.links.prev super).foldl (fun Cij prev => if G.order prev ≥ i then Cij - 1 else Cij) Cij
  let newT := st.1.T i + Cij
  (st.1.relax i j newT, Cij)

/-- The segments that begin at `i`. -/
def segmentsFrom (t : Table ℤ) (i : ℕ) : Table ℤ :=
  ((List.range' (i + 1) (G.nextBound SuperNodeMaxSize i - i)).foldl (G.extendStep i) (t, 0)).1

def costTable : Table ℤ :=
  (List.range G.sortedSuper.length).foldl (G.segmentsFrom SuperNodeMaxSize) Table.init

/-- The cuts of the dynamic program, with the end. -/
def bestCuts : List ℕ :=
  backtrace (G.costTable SuperNodeMaxSize).b G.sortedSuper.length G.sortedSuper.length ++
    [G.sortedSuper.length]

/-- The cuts around the super nodes of a special type. -/
def forcedCuts : List ℕ :=
  (List.range G.sortedSuper.length).flatMap fun i =>
    if G.superType (G.superAt i) ≠ .valid then
      if i + 1 < G.sortedSuper.length then [i, i + 1] else [i]
    else []

/-- `std::set<int> cut` -/
def cut : List ℕ := sortUnique (G.bestCuts SuperNodeMaxSize ++ G.forcedCuts)

/-- The members from `cutBeg` to `cutEnd` move to the first super node.  It is only read
where there is a second one. -/
def mergeSegment (G : SuperGraph Op) (cutBeg cutEnd : ℕ) : SuperGraph Op :=
  (List.range' (cutBeg + 1) (cutEnd - (cutBeg + 1))).foldl
    (fun G i =>
      G.moveMembers (G.superAt i) (G.superAt cutBeg)
        (G.member (G.superAt cutBeg) ++ G.member (G.superAt i))) G

def applyCuts (G : SuperGraph Op) (cut : List ℕ) : SuperGraph Op :=
  (cut.foldl (fun (st : SuperGraph Op × ℕ) cutEnd => (st.1.mergeSegment st.2 cutEnd, cutEnd)) (G, 0)).1

def graphInitPartition : SuperGraph Op :=
  (G.applyCuts (G.cut SuperNodeMaxSize)).removeEmptySuper.reconnectSuper

end Program

/-! ## The graph by positions -/

/-- The super nodes are sorted topologically, their orders are their positions and their
sets show the same edges from both sides. -/
structure Positioned (G : SuperGraph Op) : Prop where
  nodup : G.sortedSuper.Nodup
  order : ∀ x ∈ G.sortedSuper, G.order x = G.sortedSuper.idxOf x
  sets : ∀ x ∈ G.sortedSuper, (G.links.prev x).Nodup ∧ (G.links.next x).Nodup
  inside : ∀ x ∈ G.sortedSuper, (∀ p ∈ G.links.prev x, p ∈ G.sortedSuper) ∧ ∀ n ∈ G.links.next x, n ∈ G.sortedSuper
  mirrored : ∀ x ∈ G.sortedSuper, ∀ y ∈ G.sortedSuper, x ∈ G.links.prev y ↔ y ∈ G.links.next x
  topological : ∀ x ∈ G.sortedSuper, ∀ n ∈ G.links.next x, G.sortedSuper.idxOf x < G.sortedSuper.idxOf n

/-- The graph as the passes keep it is one that can be partitioned. -/
theorem Ordered.positioned {G : SuperGraph Op} {nodes : List ℕ} (h : G.Ordered nodes) : G.Positioned where
  nodup := h.nodup
  order := h.order
  sets x _ := ⟨h.sets.prev x, h.sets.next x⟩
  inside x hx :=
    ⟨fun p hp => (h.sweep.part.superDep_alive ((h.prev x hx p).mp hp).dep).1,
      fun n hn => (h.sweep.part.superDep_alive ((h.next x hx n).mp hn).dep).2⟩
  mirrored x hx y hy := (h.mirrored x hx y hy).1
  topological x hx n hn := by
    have edge := (h.next x hx n).mp hn
    have lt := h.sweep.forward.forward x n edge.dep
    rwa [h.order x hx, h.order n (h.sweep.part.superDep_alive edge.dep).2] at lt

/-- An edge between the super nodes at two positions. -/
def StepEdge (G : SuperGraph Op) (u v : ℕ) : Prop :=
  u < G.sortedSuper.length ∧ v < G.sortedSuper.length ∧ G.superAt v ∈ G.links.next (G.superAt u)

instance (G : SuperGraph Op) : DecidableRel G.StepEdge := fun _ _ => inferInstanceAs (Decidable (_ ∧ _ ∧ _))

/-- A segment of at most `SuperNodeMaxSize` members, or of a single super node. -/
def Fits (G : SuperGraph Op) (SuperNodeMaxSize i j : ℕ) : Prop :=
  j = i + 1 ∨ ∑ k ∈ Finset.Ico i j, G.sizeAt k ≤ SuperNodeMaxSize

variable {G : SuperGraph Op} {SuperNodeMaxSize : ℕ}

theorem superAt_eq {i : ℕ} (hi : i < G.sortedSuper.length) : G.superAt i = G.sortedSuper[i] :=
  List.getD_eq_getElem _ _ hi

theorem superAt_mem {i : ℕ} (hi : i < G.sortedSuper.length) : G.superAt i ∈ G.sortedSuper := by
  rw [superAt_eq hi]
  exact List.getElem_mem hi

theorem exists_superAt {x : ℕ} (hx : x ∈ G.sortedSuper) : ∃ i < G.sortedSuper.length, G.superAt i = x := by
  obtain ⟨i, hi, rfl⟩ := List.mem_iff_getElem.mp hx
  exact ⟨i, hi, superAt_eq hi⟩

theorem superAt_inj (nodup : G.sortedSuper.Nodup) {i j : ℕ} (hi : i < G.sortedSuper.length)
    (hj : j < G.sortedSuper.length) (same : G.superAt i = G.superAt j) : i = j := by
  rw [superAt_eq hi, superAt_eq hj] at same
  exact (nodup.getElem_inj_iff).mp same

theorem Positioned.order_superAt (h : G.Positioned) {i : ℕ} (hi : i < G.sortedSuper.length) :
    G.order (G.superAt i) = i := by
  rw [h.order _ (superAt_mem hi), superAt_eq hi, h.nodup.idxOf_getElem i hi]

theorem Positioned.forward (h : G.Positioned) (u v : ℕ) (edge : G.StepEdge u v) : u < v := by
  obtain ⟨hu, hv, mem⟩ := edge
  have lt := h.topological _ (superAt_mem hu) _ mem
  rwa [superAt_eq hu, superAt_eq hv, h.nodup.idxOf_getElem u hu, h.nodup.idxOf_getElem v hv] at lt

/-- A set of super nodes, counted by their positions. -/
theorem Positioned.countP_order (h : G.Positioned) {l : List ℕ} (distinct : l.Nodup)
    (sub : ∀ x ∈ l, x ∈ G.sortedSuper) (P : ℕ → Prop) [DecidablePred P] :
    l.countP (fun x => P (G.order x)) =
      ({u ∈ Finset.range G.sortedSuper.length | G.superAt u ∈ l ∧ P u}).card := by
  rw [List.countP_eq_length_filter, ← List.toFinset_card_of_nodup (distinct.filter _)]
  refine Finset.card_bij' (fun x _ => G.order x) (fun u _ => G.superAt u) ?_ ?_ ?_ ?_
  · intro x hx
    rw [List.mem_toFinset, List.mem_filter] at hx
    obtain ⟨i, hi, rfl⟩ := exists_superAt (sub x hx.1)
    rw [h.order_superAt hi, Finset.mem_filter, Finset.mem_range]
    exact ⟨hi, hx.1, by simpa [h.order_superAt hi] using hx.2⟩
  · intro u hu
    rw [Finset.mem_filter, Finset.mem_range] at hu
    rw [List.mem_toFinset, List.mem_filter]
    exact ⟨hu.2.1, by simpa [h.order_superAt hu.1] using hu.2.2⟩
  · intro x hx
    rw [List.mem_toFinset, List.mem_filter] at hx
    obtain ⟨i, hi, rfl⟩ := exists_superAt (sub x hx.1)
    rw [h.order_superAt hi]
  · intro u hu
    rw [Finset.mem_filter, Finset.mem_range] at hu
    exact h.order_superAt hu.1

theorem Positioned.length_next (h : G.Positioned) {k : ℕ} (hk : k < G.sortedSuper.length) :
    (G.links.next (G.superAt k)).length =
      ({v ∈ Finset.range G.sortedSuper.length | G.StepEdge k v}).card := by
  have mem := superAt_mem hk
  have count := h.countP_order (h.sets _ mem).2 (h.inside _ mem).2 fun _ => True
  simp only [decide_true, List.countP_true, and_true] at count
  rw [count]
  congr 1
  ext v
  simp only [Finset.mem_filter, Finset.mem_range, StepEdge, hk, true_and]
  tauto

theorem Positioned.countP_prev (h : G.Positioned) {i k : ℕ} (hk : k < G.sortedSuper.length) :
    (G.links.prev (G.superAt k)).countP (fun p => G.order p ≥ i) =
      ({u ∈ Finset.range G.sortedSuper.length | i ≤ u ∧ G.StepEdge u k}).card := by
  have mem := superAt_mem hk
  rw [h.countP_order (h.sets _ mem).1 (h.inside _ mem).1 fun u => u ≥ i]
  congr 1
  ext u
  simp only [Finset.mem_filter, Finset.mem_range, StepEdge, hk, true_and]
  constructor
  · rintro ⟨hu, prev, ge⟩
    exact ⟨hu, ge, hu, (h.mirrored _ (superAt_mem hu) _ mem).mp prev⟩
  · rintro ⟨hu, ge, -, next⟩
    exact ⟨hu, (h.mirrored _ (superAt_mem hu) _ mem).mpr next, ge⟩

/-! ## The segments that are tried -/

theorem boundFrom_spec (G : SuperGraph Op) (SuperNodeMaxSize i left : ℕ) {bound accu : ℕ} (le : i ≤ bound)
    (sum : accu = ∑ k ∈ Finset.Ico i bound, G.sizeAt k) :
    let r := G.boundFrom SuperNodeMaxSize left bound accu
    bound ≤ r ∧ r ≤ bound + left ∧
      ∀ j, bound < j → j ≤ bound + left →
        (j ≤ r ↔ ∑ k ∈ Finset.Ico i j, G.sizeAt k ≤ SuperNodeMaxSize) := by
  induction left generalizing bound accu with
  | zero =>
    refine ⟨le_rfl, le_rfl, fun j lt le' => ?_⟩
    omega
  | succ left ih =>
    have grown : accu + G.sizeAt bound = ∑ k ∈ Finset.Ico i (bound + 1), G.sizeAt k := by
      rw [Finset.sum_Ico_succ_top le, sum]
    simp only [boundFrom]
    split
    · rename_i fits
      obtain ⟨lower, upper, iff⟩ := ih (show i ≤ bound + 1 by omega) grown
      refine ⟨by omega, by omega, fun j lt le' => ?_⟩
      by_cases same : j = bound + 1
      · subst same
        rw [← grown]
        exact ⟨fun _ => fits, fun _ => lower⟩
      · exact iff j (by omega) (by omega)
    · rename_i over'
      refine ⟨le_rfl, by omega, fun j lt le' => ⟨fun hj => by omega, fun fits => absurd ?_ over'⟩⟩
      rw [grown]
      refine le_trans (Finset.sum_le_sum_of_subset ?_) fits
      exact Finset.Ico_subset_Ico_right lt

theorem nextBound_le (SuperNodeMaxSize : ℕ) {i : ℕ} (hi : i < G.sortedSuper.length) :
    i < G.nextBound SuperNodeMaxSize i ∧ G.nextBound SuperNodeMaxSize i ≤ G.sortedSuper.length := by
  have sum : G.sizeAt i = ∑ k ∈ Finset.Ico i (i + 1), G.sizeAt k := by simp
  obtain ⟨lower, upper, -⟩ := G.boundFrom_spec SuperNodeMaxSize i (G.sortedSuper.length - (i + 1))
    (Nat.le_succ i) sum
  exact ⟨lower, upper.trans (by omega)⟩

/-- The ends that are tried from `i` are those of the allowed segments. -/
theorem le_nextBound_iff {i j : ℕ} (lt : i < j) (hj : j ≤ G.sortedSuper.length) :
    j ≤ G.nextBound SuperNodeMaxSize i ↔ G.Fits SuperNodeMaxSize i j := by
  have sum : G.sizeAt i = ∑ k ∈ Finset.Ico i (i + 1), G.sizeAt k := by simp
  obtain ⟨lower, upper, iff⟩ := G.boundFrom_spec SuperNodeMaxSize i (G.sortedSuper.length - (i + 1))
    (Nat.le_succ i) sum
  by_cases single : j = i + 1
  · exact ⟨fun _ => .inl single, fun _ => single ▸ lower⟩
  · rw [Fits, or_iff_right single]
    exact iff j (by omega) (by omega)

/-! ## The dynamic program -/

/-- The edges out of the segment from `i` to `j`. -/
def segmentCost (G : SuperGraph Op) (i j : ℕ) : ℤ := leaving G.StepEdge G.sortedSuper.length i j

theorem foldl_pred_countP (l : List ℕ) (P : ℕ → Prop) [DecidablePred P] (C : ℤ) :
    l.foldl (fun C p => if P p then C - 1 else C) C = C - l.countP (fun p => P p) := by
  induction l generalizing C with
  | nil => simp
  | cons p l ih =>
    rw [List.foldl_cons, ih, List.countP_cons]
    by_cases hp : P p
    · simp only [hp, if_true, decide_true]
      omega
    · simp [hp]

/-- `Cij` is the cost of the segment. -/
theorem Positioned.extendStep_cost (h : G.Positioned) {i k : ℕ} (le : i ≤ k) (hk : k < G.sortedSuper.length)
    (t : Table ℤ) : G.extendStep i (t, G.segmentCost i k) (k + 1) =
      (t.relax i (k + 1) (t.T i + G.segmentCost i (k + 1)), G.segmentCost i (k + 1)) := by
  have balance := leaving_succ h.forward le hk
  have cost : G.segmentCost i k + (G.links.next (G.superAt k)).length -
      (G.links.prev (G.superAt k)).countP (fun p => G.order p ≥ i) = G.segmentCost i (k + 1) := by
    rw [segmentCost, segmentCost, h.length_next hk, h.countP_prev hk]
    omega
  simp only [extendStep, Nat.add_sub_cancel, foldl_pred_countP, cost]

/-- The allowed segments that begin before `i`. -/
def TriedBefore (G : SuperGraph Op) (SuperNodeMaxSize i a c : ℕ) : Prop :=
  a < i ∧ a < c ∧ c ≤ G.sortedSuper.length ∧ G.Fits SuperNodeMaxSize a c

theorem Positioned.foldl_extendStep (h : G.Positioned) {t : Table ℤ} {i : ℕ}
    (relaxed : Relaxed G.segmentCost (G.TriedBefore SuperNodeMaxSize i) t) (m : ℕ)
    (hm : i + m ≤ G.sortedSuper.length) :
    let st := (List.range' (i + 1) m).foldl (G.extendStep i) (t, 0)
    Relaxed G.segmentCost (fun a c => G.TriedBefore SuperNodeMaxSize i a c ∨ a = i ∧ i < c ∧ c ≤ i + m) st.1 ∧
      st.2 = G.segmentCost i (i + m) := by
  induction m with
  | zero =>
    refine ⟨relaxed.congr fun a c => ?_, ?_⟩
    · rw [iff_self_or]
      omega
    · have none : G.segmentCost i i = 0 := by
        rw [segmentCost, leaving_self, Nat.cast_zero]
      exact none.symm
  | succ m ih =>
    obtain ⟨done, cost⟩ := ih (by omega)
    rw [List.range'_concat, List.foldl_append]
    simp only [List.foldl_cons, List.foldl_nil, Nat.one_mul]
    generalize (List.range' (i + 1) m).foldl (G.extendStep i) (t, 0) = st at done cost
    obtain ⟨t', Cij⟩ := st
    obtain rfl : Cij = G.segmentCost i (i + m) := cost
    rw [Nat.add_right_comm, h.extendStep_cost (Nat.le_add_right i m) (by omega)]
    refine ⟨(done.relax (by omega) ?_).congr fun a c => ?_, rfl⟩
    · rintro k (before | ⟨same, -⟩)
      · have := before.1
        omega
      · omega
    · rw [or_assoc]
      refine or_congr_right ?_
      omega

/-- All allowed segments from `i` have been tried. -/
theorem Positioned.segmentsFrom (h : G.Positioned) {t : Table ℤ} {i : ℕ} (hi : i < G.sortedSuper.length)
    (relaxed : Relaxed G.segmentCost (G.TriedBefore SuperNodeMaxSize i) t) :
    Relaxed G.segmentCost (G.TriedBefore SuperNodeMaxSize (i + 1)) (G.segmentsFrom SuperNodeMaxSize t i) := by
  obtain ⟨lower, upper⟩ := nextBound_le SuperNodeMaxSize hi
  refine (h.foldl_extendStep relaxed (G.nextBound SuperNodeMaxSize i - i) (by omega)).1.congr fun a c => ?_
  have reach : i + (G.nextBound SuperNodeMaxSize i - i) = G.nextBound SuperNodeMaxSize i := by omega
  rw [reach]
  constructor
  · rintro (⟨lt, rest⟩ | ⟨rfl, lt, le⟩)
    · exact ⟨by omega, rest⟩
    · exact ⟨by omega, lt, le.trans upper, (le_nextBound_iff lt (le.trans upper)).mp le⟩
  · rintro ⟨lt, lt', le, fits⟩
    rcases Nat.lt_succ_iff_lt_or_eq.mp lt with lt | rfl
    · exact .inl ⟨lt, lt', le, fits⟩
    · exact .inr ⟨rfl, lt', (le_nextBound_iff lt' le).mpr fits⟩

/-- Before the segments from `m` are tried. -/
theorem Positioned.segmentsBefore (h : G.Positioned) (SuperNodeMaxSize : ℕ) {m : ℕ}
    (hm : m ≤ G.sortedSuper.length) : Relaxed G.segmentCost (G.TriedBefore SuperNodeMaxSize m)
      ((List.range m).foldl (G.segmentsFrom SuperNodeMaxSize) Table.init) := by
  induction m with
  | zero =>
    refine relaxed_init.congr fun a c => ⟨False.elim, fun tried => ?_⟩
    exact absurd tried.1 (Nat.not_lt_zero a)
  | succ m ih =>
    rw [List.range_succ, List.foldl_append]
    exact h.segmentsFrom (by omega) (ih (by omega))

theorem Positioned.costTable (h : G.Positioned) (SuperNodeMaxSize : ℕ) :
    Relaxed G.segmentCost (G.TriedBefore SuperNodeMaxSize G.sortedSuper.length)
      (G.costTable SuperNodeMaxSize) :=
  h.segmentsBefore SuperNodeMaxSize le_rfl

/-- Every position up to `m` is reached, if only by single super nodes. -/
theorem finite_of_tried {t : Table ℤ} {done : ℕ → ℕ → Prop} (relaxed : Relaxed G.segmentCost done t)
    {m : ℕ} (hm : m ≤ G.sortedSuper.length)
    (tried : ∀ a c, G.TriedBefore SuperNodeMaxSize m a c → done a c) : ∀ j ≤ m, t.T j ≠ ⊤ := by
  intro j
  induction j with
  | zero =>
    intro _
    rw [relaxed.zero]
    exact WithTop.zero_ne_top
  | succ j ih =>
    intro hj top
    have le := relaxed.le j (j + 1) (tried j (j + 1) ⟨by omega, by omega, by omega, .inl rfl⟩)
    rw [top, top_le_iff, WithTop.add_eq_top] at le
    exact le.elim (ih (by omega)) WithTop.coe_ne_top

theorem Positioned.finite (h : G.Positioned) (SuperNodeMaxSize : ℕ) :
    ∀ j ≤ G.sortedSuper.length, (G.costTable SuperNodeMaxSize).T j ≠ ⊤ :=
  finite_of_tried (h.costTable SuperNodeMaxSize) le_rfl fun _ _ tried => tried

/-- The number of edges between the super nodes. -/
def edgeCount (G : SuperGraph Op) : ℕ := edgesBelow G.StepEdge G.sortedSuper.length G.sortedSuper.length

/-- The source keeps `Cij` and `T` in an `int`.  At every turn of the two loops neither they, nor `Cij`
with the next out-edges added, nor a `newT` exceed the number of edges. -/
theorem Positioned.costs_le (h : G.Positioned) (SuperNodeMaxSize : ℕ) {i m : ℕ}
    (hm : i + m ≤ G.sortedSuper.length) :
    let st := (List.range' (i + 1) m).foldl (G.extendStep i)
      ((List.range i).foldl (G.segmentsFrom SuperNodeMaxSize) Table.init, 0)
    0 ≤ st.2 ∧
      (i + m < G.sortedSuper.length → st.2 + (G.links.next (G.superAt (i + m))).length ≤ G.edgeCount) ∧
      st.1.T i + st.2 ≤ ((G.edgeCount : ℤ) : WithTop ℤ) ∧
      ∀ j ≤ G.sortedSuper.length, st.1.T j ≠ ⊤ → st.1.T j ≤ ((G.edgeCount : ℤ) : WithTop ℤ) := by
  have below : ∀ j ≤ G.sortedSuper.length,
      edgesBelow G.StepEdge G.sortedSuper.length j ≤ G.edgeCount := fun j hj => edgesBelow_mono hj
  have sum : edgesBelow G.StepEdge G.sortedSuper.length i +
      leaving G.StepEdge G.sortedSuper.length i (i + m) ≤
        edgesBelow G.StepEdge G.sortedSuper.length (i + m) := edgesBelow_add_leaving (Nat.le_add_right i m)
  obtain ⟨relaxed, segment⟩ := h.foldl_extendStep (h.segmentsBefore SuperNodeMaxSize (by omega : i ≤ _)) m hm
  intro st
  have cost : st.2 = (leaving G.StepEdge G.sortedSuper.length i (i + m) : ℤ) := segment
  have reached := finite_of_tried relaxed (by omega : i ≤ _) (fun a c tried => .inl tried) i le_rfl
  refine ⟨?_, fun lt => ?_, ?_, fun j hj finite => ?_⟩
  · rw [cost]
    exact Int.natCast_nonneg _
  · have more := edgesBelow_succ (E := G.StepEdge) lt
    have all := below (i + m + 1) lt
    rw [cost, h.length_next lt]
    omega
  · rw [cost]
    refine (add_le_add_left (relaxed.le_edgesBelow reached) _).trans ?_
    rw [← WithTop.coe_add]
    exact WithTop.coe_le_coe.mpr (by exact_mod_cast sum.trans (below _ hm))
  · exact (relaxed.le_edgesBelow finite).trans (WithTop.coe_le_coe.mpr (by exact_mod_cast below j hj))

theorem Positioned.sortUnique_bestCuts (h : G.Positioned) (SuperNodeMaxSize : ℕ) (pos : 0 < G.sortedSuper.length) :
    sortUnique (G.bestCuts SuperNodeMaxSize) =
      (backtrace (G.costTable SuperNodeMaxSize).b G.sortedSuper.length G.sortedSuper.length).reverse ++
        [G.sortedSuper.length] := by
  obtain ⟨below, sorted⟩ := (h.costTable SuperNodeMaxSize).backtrace_descends (h.finite SuperNodeMaxSize)
    G.sortedSuper.length pos le_rfl
  refine eq_of_pairwise_lt (sortUnique_pairwise _) ?_ fun c => ?_
  · refine List.pairwise_append.mpr ⟨List.pairwise_reverse.mpr sorted, List.pairwise_singleton _ _, ?_⟩
    intro c hc d hd
    rw [List.mem_singleton.mp hd]
    exact below c (List.mem_reverse.mp hc)
  · simp [bestCuts]

/-- The cuts of the dynamic program are allowed, and no allowed division cuts fewer edges. -/
theorem Positioned.bestCuts_optimal (h : G.Positioned) (SuperNodeMaxSize : ℕ) :
    Divides (G.Fits SuperNodeMaxSize) 0 (sortUnique (G.bestCuts SuperNodeMaxSize)) G.sortedSuper.length ∧
      ∀ cuts, Divides (G.Fits SuperNodeMaxSize) 0 cuts G.sortedSuper.length →
        cutEdges G.StepEdge G.sortedSuper.length (sortUnique (G.bestCuts SuperNodeMaxSize)) ≤
          cutEdges G.StepEdge G.sortedSuper.length cuts := by
  rcases Nat.eq_zero_or_pos G.sortedSuper.length with none | pos
  · have cuts : sortUnique (G.bestCuts SuperNodeMaxSize) = [0] := by
      rw [bestCuts, none]
      rfl
    rw [cuts, none]
    refine ⟨⟨le_rfl, .inr (by simp), rfl⟩, fun other _ => ?_⟩
    simp [cutEdges]
  · rw [h.sortUnique_bestCuts SuperNodeMaxSize pos]
    have tried : ∀ a c, G.TriedBefore SuperNodeMaxSize G.sortedSuper.length a c ↔
        a < c ∧ c ≤ G.sortedSuper.length ∧ G.Fits SuperNodeMaxSize a c := by
      intro a c
      refine ⟨And.right, fun rest => ⟨by omega, rest⟩⟩
    obtain ⟨div, least⟩ := (h.costTable SuperNodeMaxSize).optimal (fun a => Int.natCast_nonneg _) pos tried
      (h.finite SuperNodeMaxSize)
    refine ⟨div, fun cuts other => ?_⟩
    have weigh : ∀ cuts, Divides (G.Fits SuperNodeMaxSize) 0 cuts G.sortedSuper.length →
        cost G.segmentCost 0 cuts = cutEdges G.StepEdge G.sortedSuper.length cuts := by
      intro cuts div
      rw [← cost_leaving h.forward div]
      exact cost_map (Nat.castAddMonoidHom ℤ) _ 0 cuts
    have le := least cuts other
    rw [weigh _ div, weigh _ other] at le
    exact Int.ofNat_le.mp le

/-! ## The members of the segments -/

/-- The members of the super nodes from `a` to `c`, in order. -/
def segment (G : SuperGraph Op) (a c : ℕ) : List ℕ :=
  (List.range' a (c - a)).flatMap fun i => G.member (G.superAt i)

theorem segment_append (G : SuperGraph Op) {a b c : ℕ} (le : a ≤ b) (le' : b ≤ c) :
    G.segment a b ++ G.segment b c = G.segment a c := by
  rw [segment, segment, segment, ← List.flatMap_append]
  congr 1
  have first : b = a + 1 * (b - a) := by omega
  have whole : c - a = b - a + (c - b) := by omega
  rw [whole, ← List.range'_append, ← first]

theorem segment_succ (G : SuperGraph Op) (a : ℕ) : G.segment a (a + 1) = G.member (G.superAt a) := by
  simp [segment]

/-- `G'` lists the same super nodes as `G`. -/
structure SameSupers (G G' : SuperGraph Op) : Prop where
  sortedSuper : G'.sortedSuper = G.sortedSuper
  superType : G'.superType = G.superType

theorem SameSupers.superAt {G' : SuperGraph Op} (same : G.SameSupers G') : G'.superAt = G.superAt := by
  funext i
  rw [SuperGraph.superAt, SuperGraph.superAt, same.sortedSuper]

theorem SameSupers.trans {G' G'' : SuperGraph Op} (same : G.SameSupers G') (same' : G'.SameSupers G'') :
    G.SameSupers G'' :=
  ⟨same'.sortedSuper.trans same.sortedSuper, same'.superType.trans same.superType⟩

/-- The members from `a` to `c` are all at `a`; nothing else has changed. -/
structure Gathered (G G' : SuperGraph Op) (a c : ℕ) : Prop extends G.SameSupers G' where
  master : a < c → G'.member (G.superAt a) = G.segment a c
  emptied : ∀ i, a < i → i < c → G'.member (G.superAt i) = []
  elsewhere : ∀ i, i < G.sortedSuper.length → (i < a ∨ c ≤ i) → G'.member (G.superAt i) = G.member (G.superAt i)

theorem gathered_mergeSegment (nodup : G.sortedSuper.Nodup) {a c : ℕ} (le : a ≤ c) (hc : c ≤ G.sortedSuper.length) :
    G.Gathered (G.mergeSegment a c) a c := by
  suffices general : ∀ m, a + 1 + m ≤ G.sortedSuper.length →
      G.Gathered ((List.range' (a + 1) m).foldl
        (fun G i => G.moveMembers (G.superAt i) (G.superAt a)
          (G.member (G.superAt a) ++ G.member (G.superAt i))) G) a (a + 1 + m) by
    rcases Nat.eq_or_lt_of_le le with rfl | lt
    · have none : a - (a + 1) = 0 := by omega
      rw [mergeSegment, none]
      exact ⟨⟨rfl, rfl⟩, fun lt => absurd lt (lt_irrefl a), fun i lt lt' => by omega, fun _ _ _ => rfl⟩
    · have reach : a + 1 + (c - (a + 1)) = c := by omega
      have := general (c - (a + 1)) (by omega)
      rwa [reach] at this
  intro m
  induction m with
  | zero =>
    intro _
    exact ⟨⟨rfl, rfl⟩, fun _ => (G.segment_succ a).symm, fun i lt lt' => by omega, fun _ _ _ => rfl⟩
  | succ m ih =>
    intro hm
    have before := ih (by omega)
    rw [List.range'_concat, List.foldl_append, List.foldl_cons, List.foldl_nil, Nat.one_mul]
    generalize (List.range' (a + 1) m).foldl (fun G i => G.moveMembers (G.superAt i) (G.superAt a)
      (G.member (G.superAt a) ++ G.member (G.superAt i))) G = H at before
    rw [before.toSameSupers.superAt]
    have here : a + 1 + m < G.sortedSuper.length := by omega
    have other : ∀ i < G.sortedSuper.length, i ≠ a + 1 + m → G.superAt i ≠ G.superAt (a + 1 + m) :=
      fun i hi ne same => ne (superAt_inj nodup hi here same)
    refine ⟨⟨before.sortedSuper, before.superType⟩, fun _ => ?_, fun i lt lt' => ?_, fun i hi out => ?_⟩
    · dsimp only [moveMembers]
      rw [Function.update_of_ne (other a (by omega) (by omega)), Function.update_self, before.master (by omega),
        before.elsewhere _ here (.inr le_rfl), ← segment_succ, G.segment_append (by omega) (by omega)]
      rfl
    · dsimp only [moveMembers]
      by_cases last : i = a + 1 + m
      · rw [last, Function.update_self]
      · have ne : G.superAt i ≠ G.superAt a := fun same => by
          have := superAt_inj nodup (by omega) (by omega) same
          omega
        rw [Function.update_of_ne (other i (by omega) last), Function.update_of_ne ne]
        exact before.emptied i lt (by omega)
    · dsimp only [moveMembers]
      have ne : G.superAt i ≠ G.superAt a := fun same => by
        have := superAt_inj nodup hi (by omega) same
        omega
      rw [Function.update_of_ne (other i hi (by omega)), Function.update_of_ne ne]
      exact before.elsewhere i hi (by omega)

/-- Between any two neighbours among the cuts from `a` on, the members are at the first. -/
def Segmented (G G' : SuperGraph Op) : ℕ → List ℕ → Prop
  | _, [] => True
  | a, c :: cuts =>
      ((a < c → G'.member (G.superAt a) = G.segment a c) ∧ ∀ i, a < i → i < c → G'.member (G.superAt i) = []) ∧
        Segmented G G' c cuts

theorem segment_congr {H : SuperGraph Op} (same : G.SameSupers H) {a c : ℕ} (hc : c ≤ G.sortedSuper.length)
    (members : ∀ i, a ≤ i → i < G.sortedSuper.length → H.member (G.superAt i) = G.member (G.superAt i)) :
    H.segment a c = G.segment a c := by
  refine List.flatMap_congr fun i hi => ?_
  rw [List.mem_range'_1] at hi
  rw [same.superAt]
  exact members i hi.1 (by omega)

theorem Segmented.congr {H G' : SuperGraph Op} (same : G.SameSupers H) {a : ℕ} {cuts : List ℕ}
    (members : ∀ i, a ≤ i → i < G.sortedSuper.length → H.member (G.superAt i) = G.member (G.superAt i))
    (chain : Divides (fun _ _ => True) a cuts G.sortedSuper.length) (seg : H.Segmented G' a cuts) :
    G.Segmented G' a cuts := by
  induction cuts generalizing a with
  | nil => trivial
  | cons c cuts ih =>
    obtain ⟨le, -, rest⟩ := chain
    obtain ⟨⟨master, emptied⟩, later⟩ := seg
    rw [same.superAt] at master emptied
    rw [segment_congr same rest.le.1 members] at master
    exact ⟨⟨master, emptied⟩, ih (fun i hi => members i (le.trans hi)) rest later⟩

theorem segmented_foldl (cuts : List ℕ) {G : SuperGraph Op} (nodup : G.sortedSuper.Nodup) {a : ℕ}
    (chain : Divides (fun _ _ => True) a cuts G.sortedSuper.length) :
    let G' := (cuts.foldl (fun (st : SuperGraph Op × ℕ) cutEnd => (st.1.mergeSegment st.2 cutEnd, cutEnd)) (G, a)).1
    G.SameSupers G' ∧ (∀ i < a, G'.member (G.superAt i) = G.member (G.superAt i)) ∧ G.Segmented G' a cuts := by
  induction cuts generalizing G a with
  | nil => exact ⟨⟨rfl, rfl⟩, fun _ _ => rfl, trivial⟩
  | cons c cuts ih =>
    obtain ⟨le, -, rest⟩ := chain
    have gathered := gathered_mergeSegment nodup le rest.le.1
    have chain' : Divides (fun _ _ => True) c cuts (G.mergeSegment a c).sortedSuper.length := by
      rw [gathered.sortedSuper]
      exact rest
    obtain ⟨same, front, later⟩ := ih (gathered.sortedSuper ▸ nodup) chain'
    rw [List.foldl_cons]
    rw [gathered.toSameSupers.superAt] at front
    refine ⟨gathered.toSameSupers.trans same, fun i hi => ?_, ⟨fun lt => ?_, fun i lt lt' => ?_⟩, ?_⟩
    · exact (front i (by omega)).trans (gathered.elsewhere i (by have := rest.le.1; omega) (.inl hi))
    · exact (front a lt).trans (gathered.master lt)
    · exact (front i lt').trans (gathered.emptied i lt lt')
    · refine Segmented.congr gathered.toSameSupers (fun i hi hn => ?_) rest later
      exact gathered.elsewhere i hn (.inr hi)

/-- Every position lies between two neighbouring cuts. -/
theorem Segmented.around {G' : SuperGraph Op} {a : ℕ} {cuts : List ℕ} (seg : G.Segmented G' a cuts)
    (chain : Divides (fun _ _ => True) a cuts G.sortedSuper.length) {i : ℕ} (above : a ≤ i)
    (hi : i < G.sortedSuper.length) :
    ∃ s e, (a ≤ s ∧ s ≤ i) ∧ (i < e ∧ e ≤ G.sortedSuper.length) ∧ (∀ c ∈ cuts, ¬ (s < c ∧ c < e)) ∧
      G'.member (G.superAt s) = G.segment s e ∧ (s < i → G'.member (G.superAt i) = []) := by
  induction cuts generalizing a with
  | nil =>
    have : a = G.sortedSuper.length := chain
    omega
  | cons c cuts ih =>
    obtain ⟨le, -, rest⟩ := chain
    obtain ⟨⟨master, emptied⟩, later⟩ := seg
    by_cases here : i < c
    · refine ⟨a, c, ⟨le_rfl, above⟩, ⟨here, rest.le.1⟩, ?_, master (by omega), fun lt => emptied i lt here⟩
      intro d hd between
      rcases List.mem_cons.mp hd with rfl | hd
      · omega
      · have := (rest.le.2 d hd).1
        omega
    · obtain ⟨s, e, lower, upper, uncut, members⟩ := ih later rest (not_lt.mp here)
      refine ⟨s, e, ⟨le.trans lower.1, lower.2⟩, upper, ?_, members⟩
      intro d hd between
      rcases List.mem_cons.mp hd with rfl | hd
      · omega
      · exact uncut d hd between

/-- The members of all super nodes are as they were. -/
theorem Segmented.flat {G' : SuperGraph Op} (same : G.SameSupers G') {a : ℕ} {cuts : List ℕ} (seg : G.Segmented G' a cuts)
    (chain : Divides (fun _ _ => True) a cuts G.sortedSuper.length) :
    G'.segment a G.sortedSuper.length = G.segment a G.sortedSuper.length := by
  induction cuts generalizing a with
  | nil =>
    have : a = G.sortedSuper.length := chain
    rw [this]
    simp [segment]
  | cons c cuts ih =>
    obtain ⟨le, -, rest⟩ := chain
    obtain ⟨⟨master, emptied⟩, later⟩ := seg
    rw [← G'.segment_append le rest.le.1, ← G.segment_append le rest.le.1, ih later rest]
    congr 1
    rcases Nat.eq_or_lt_of_le le with rfl | lt
    · simp [segment]
    · rw [← G'.segment_append (Nat.le_succ a) lt, segment_succ, same.superAt, master lt]
      have none : G'.segment (a + 1) c = [] := by
        rw [segment, List.flatMap_eq_nil_iff]
        intro i hi
        rw [List.mem_range'_1] at hi
        rw [same.superAt]
        exact emptied i (by omega) (by omega)
      rw [Nat.succ_eq_add_one, none, List.append_nil]

/-! ## The result -/

theorem Fits.part {a c s e : ℕ} (above : a ≤ s) (lt : s < e) (le : e ≤ c) (fits : G.Fits SuperNodeMaxSize a c) :
    G.Fits SuperNodeMaxSize s e := by
  rcases fits with single | small
  · exact .inl (by omega)
  · exact .inr ((Finset.sum_le_sum_of_subset (Finset.Ico_subset_Ico above le)).trans small)

theorem mem_cut {c : ℕ} :
    c ∈ G.cut SuperNodeMaxSize ↔ c ∈ sortUnique (G.bestCuts SuperNodeMaxSize) ∨ c ∈ G.forcedCuts := by
  rw [cut, mem_sortUnique, mem_sortUnique, List.mem_append]

theorem mem_forcedCuts {c : ℕ} : c ∈ G.forcedCuts ↔
    ∃ i < G.sortedSuper.length, G.superType (G.superAt i) ≠ .valid ∧
      (c = i ∨ c = i + 1 ∧ i + 1 < G.sortedSuper.length) := by
  simp only [forcedCuts, List.mem_flatMap, List.mem_range]
  refine exists_congr fun i => and_congr_right fun hi => ?_
  by_cases special : G.superType (G.superAt i) = .valid
  · simp [special]
  · by_cases last : i + 1 < G.sortedSuper.length
    · simp [special, last]
    · simp [special, last]

theorem length_mem_cut : G.sortedSuper.length ∈ G.cut SuperNodeMaxSize :=
  mem_cut.mpr (.inl (mem_sortUnique.mpr (List.mem_append_right _ (List.mem_singleton_self _))))

theorem Positioned.divides_cut (h : G.Positioned) (SuperNodeMaxSize : ℕ) :
    Divides (fun _ _ => True) 0 (G.cut SuperNodeMaxSize) G.sortedSuper.length := by
  refine divides_of_sorted (sortUnique_pairwise _) length_mem_cut fun c hc => ⟨Nat.zero_le c, ?_⟩
  rcases mem_cut.mp hc with best | forced
  · exact ((h.bestCuts_optimal SuperNodeMaxSize).1.le.2 c best).2
  · obtain ⟨i, hi, -, same⟩ := mem_forcedCuts.mp forced
    omega

/-- A super node of a special type has a cut on both sides. -/
theorem special_mem_cut (SuperNodeMaxSize : ℕ) {i : ℕ} (hi : i < G.sortedSuper.length) (special : G.superType (G.superAt i) ≠ .valid) :
    i ∈ G.cut SuperNodeMaxSize ∧ i + 1 ∈ G.cut SuperNodeMaxSize := by
  refine ⟨mem_cut.mpr (.inr (mem_forcedCuts.mpr ⟨i, hi, special, .inl rfl⟩)), ?_⟩
  by_cases last : i + 1 < G.sortedSuper.length
  · exact mem_cut.mpr (.inr (mem_forcedCuts.mpr ⟨i, hi, special, .inr ⟨rfl, last⟩⟩))
  · have eq : i + 1 = G.sortedSuper.length := by omega
    rw [eq]
    exact length_mem_cut

/-- A segment that holds a super node of a special type holds nothing else. -/
theorem special_alone {i s e : ℕ} (hi : i < G.sortedSuper.length) (special : G.superType (G.superAt i) ≠ .valid)
    (lower : s ≤ i) (upper : i < e) (uncut : ∀ c ∈ G.cut SuperNodeMaxSize, ¬ (s < c ∧ c < e)) :
    s = i ∧ e = i + 1 := by
  obtain ⟨left, right⟩ := special_mem_cut SuperNodeMaxSize hi special
  have noLeft := uncut i left
  have noRight := uncut (i + 1) right
  omega

end SuperGraph

end Gsim.MergeNodes
