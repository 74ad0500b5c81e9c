/-
  Gsim/RuntimeSuccs.lean
  ======================
  **Runtime successors of the dense executor** and their transitive reduction
  (`mtBuildDenseRuntimeSuccs` and `mtReduceDenseRuntimeSuccsTransitive` of
  `cppEmitterDenseSchedule.cpp`).

  The reduction compares edges against an *effective* graph: the runtime
  successors plus, when `injectWorkerChains` is set, one edge between any two
  consecutive MTasks of a worker.  The chain edges are never materialised, and
  the edges an edge is compared with may themselves be removed.  The main result
  is that the removed edges change nothing that can be reached:
  `mtReduceDenseRuntimeSuccsTransitive_reachability`.
-/
import Gsim.DenseMTask
import Gsim.RankedGraph
import Gsim.SortedContainers

namespace Gsim

open Relation SortedContainers

/-! ### Successor lists as graphs -/

/-- `succs[id]`, empty out of range. -/
def succsAt (succs : List (List Nat)) (mtaskId : Nat) : List Nat := succs.getD mtaskId []

/-- The edge relation of a vector of successor lists. -/
def Edge (succs : List (List Nat)) (src dst : Nat) : Prop := dst ∈ succsAt succs src

instance (succs : List (List Nat)) (src dst : Nat) : Decidable (Edge succs src dst) :=
  inferInstanceAs (Decidable (dst ∈ succsAt succs src))

theorem succsAt_eq_nil {succs : List (List Nat)} {a : Nat} (h : succs.length ≤ a) :
    succsAt succs a = [] := List.getD_eq_default _ _ h

theorem lt_length_of_edge {succs : List (List Nat)} {a b : Nat} (h : Edge succs a b) :
    a < succs.length := by
  by_contra hge
  unfold Edge at h
  rw [succsAt_eq_nil (Nat.le_of_not_lt hge)] at h
  cases h

theorem succsAt_map_range (f : Nat → List Nat) (n a : Nat) :
    succsAt ((List.range n).map f) a = if a < n then f a else [] := by
  unfold succsAt
  by_cases h : a < n
  · rw [if_pos h, List.getD_eq_getElem?_getD]
    simp [h]
  · rw [if_neg h]
    exact List.getD_eq_default _ _ (by simpa using h)

theorem succsAt_map (f : List Nat → List Nat) (succs : List (List Nat)) (a : Nat)
    (h : a < succs.length) : succsAt (succs.map f) a = f (succsAt succs a) := by
  unfold succsAt
  simp [List.getD_eq_getElem?_getD, h]

/-! ### `mtBuildDenseRuntimeSuccs` -/

/-- Successors kept at run time: same-worker edges are dropped when
    `xthreadDepsOnly` is set and both ends have a worker. -/
def mtBuildDenseRuntimeSuccs (mtasks : List MtDenseMTask) (assignment : List Int)
    (xthreadDepsOnly : Bool) : List (List Nat) :=
  (List.range mtasks.length).map fun mtaskId =>
    let srcThread := assignAt assignment mtaskId
    sortUnique ((succsOf mtasks mtaskId).filter fun succ =>
      let dstThread := assignAt assignment succ
      decide (succ < mtasks.length) &&
        !(xthreadDepsOnly && decide (0 ≤ srcThread) && decide (0 ≤ dstThread)
          && decide (srcThread = dstThread)))

theorem length_mtBuildDenseRuntimeSuccs (mtasks : List MtDenseMTask) (assignment : List Int)
    (x : Bool) : (mtBuildDenseRuntimeSuccs mtasks assignment x).length = mtasks.length := by
  simp [mtBuildDenseRuntimeSuccs]

theorem edge_mtBuildDenseRuntimeSuccs (mtasks : List MtDenseMTask) (assignment : List Int)
    (x : Bool) (a b : Nat) :
    Edge (mtBuildDenseRuntimeSuccs mtasks assignment x) a b ↔
      b ∈ succsOf mtasks a ∧ a < mtasks.length ∧ b < mtasks.length ∧
        ¬ (x = true ∧ 0 ≤ assignAt assignment a ∧ 0 ≤ assignAt assignment b
          ∧ assignAt assignment a = assignAt assignment b) := by
  unfold Edge mtBuildDenseRuntimeSuccs
  rw [succsAt_map_range]
  by_cases ha : a < mtasks.length
  · rw [if_pos ha]
    simp only [mem_sortUnique, List.mem_filter, Bool.and_eq_true, decide_eq_true_eq,
      Bool.not_eq_true', ha, true_and]
    constructor
    · rintro ⟨h1, h2, h3⟩
      refine ⟨h1, h2, ?_⟩
      rintro ⟨hx, hsrc, hdst, heq⟩
      simp [hx, hdst, heq] at h3
    · rintro ⟨h1, h2, h3⟩
      refine ⟨h1, h2, ?_⟩
      by_contra hne
      simp only [Bool.not_eq_false, Bool.and_eq_true, decide_eq_true_eq] at hne
      exact h3 ⟨hne.1.1.1, hne.1.1.2, hne.1.2, hne.2⟩
  · simp [ha]

theorem pairwise_mtBuildDenseRuntimeSuccs (mtasks : List MtDenseMTask) (assignment : List Int)
    (x : Bool) (a : Nat) :
    (succsAt (mtBuildDenseRuntimeSuccs mtasks assignment x) a).Pairwise (· < ·) := by
  unfold mtBuildDenseRuntimeSuccs
  rw [succsAt_map_range]
  by_cases ha : a < mtasks.length
  · rw [if_pos ha]
    exact sortUnique_pairwise _
  · rw [if_neg ha]
    exact List.Pairwise.nil

/-! ### The injected worker chains -/

/-- `b` directly follows `a` among the MTasks of one worker. -/
def WorkerChain (assignment : List Int) (nMTasks a b : Nat) : Prop :=
  a < b ∧ b < nMTasks ∧ 0 ≤ assignAt assignment a ∧
    assignAt assignment b = assignAt assignment a ∧
    ∀ c, a < c → c < b → assignAt assignment c ≠ assignAt assignment a

/-- One step of the loop over `mtaskId` with `previousOnWorker`. -/
def chainStep (assignment : List Int) (maxWorker : Int)
    (st : List (List Nat) × (Int → Option Nat)) (mtaskId : Nat) :
    List (List Nat) × (Int → Option Nat) :=
  let worker := assignAt assignment mtaskId
  if worker < 0 ∨ maxWorker < worker then st
  else
    let effectiveSuccs := match st.2 worker with
      | some previous => st.1.modify previous (· ++ [mtaskId])
      | none => st.1
    (effectiveSuccs, Function.update st.2 worker (some mtaskId))

def injectChains (assignment : List Int) (maxWorker : Int) (nMTasks : Nat)
    (runtimeSuccs : List (List Nat)) : List (List Nat) :=
  ((List.range nMTasks).foldl (chainStep assignment maxWorker) (runtimeSuccs, fun _ => none)).1

/-- What the loop has established after the ids below `k`. -/
structure ChainInv (assignment : List Int) (runtimeSuccs : List (List Nat)) (k : Nat)
    (st : List (List Nat) × (Int → Option Nat)) : Prop where
  length_eq : st.1.length = runtimeSuccs.length
  mem_iff : ∀ a b, b ∈ succsAt st.1 a ↔
    b ∈ succsAt runtimeSuccs a ∨ WorkerChain assignment k a b
  prev_iff : ∀ w p, 0 ≤ w → (st.2 w = some p ↔
    p < k ∧ assignAt assignment p = w ∧ ∀ c, p < c → c < k → assignAt assignment c ≠ w)

theorem mem_succsAt_modify (g : List (List Nat)) (p m a b : Nat) (hp : p < g.length) :
    b ∈ succsAt (g.modify p (· ++ [m])) a ↔ b ∈ succsAt g a ∨ (a = p ∧ b = m) := by
  unfold succsAt
  rw [List.getD_eq_getElem?_getD, List.getD_eq_getElem?_getD, List.getElem?_modify]
  by_cases ha : p = a
  · subst ha
    simp [hp]
  · simp only [ha, if_false, Ne.symm ha, false_and, or_false]
    cases g[a]? <;> simp

theorem workerChain_succ {assignment : List Int} {k a b : Nat} :
    WorkerChain assignment (k + 1) a b ↔ WorkerChain assignment k a b ∨
      (b = k ∧ WorkerChain assignment (k + 1) a k) := by
  constructor
  · rintro ⟨hab, hb, hrest⟩
    by_cases hbk : b = k
    · subst hbk
      exact Or.inr ⟨rfl, hab, hb, hrest⟩
    · exact Or.inl ⟨hab, by omega, hrest⟩
  · rintro (⟨hab, hb, hrest⟩ | ⟨rfl, h⟩)
    · exact ⟨hab, by omega, hrest⟩
    · exact h

theorem chainStep_inv {assignment : List Int} {maxWorker : Int} {runtimeSuccs : List (List Nat)}
    (hmax : ∀ i, assignAt assignment i ≤ maxWorker ∨ assignAt assignment i < 0)
    {k : Nat} (hk : k < runtimeSuccs.length)
    {st : List (List Nat) × (Int → Option Nat)} (h : ChainInv assignment runtimeSuccs k st) :
    ChainInv assignment runtimeSuccs (k + 1) (chainStep assignment maxWorker st k) := by
  unfold chainStep
  simp only
  split
  · rename_i hout
    have hneg : assignAt assignment k < 0 := by
      rcases hout with hneg | hgt
      · exact hneg
      · rcases hmax k with hle | hneg
        · omega
        · exact hneg
    refine ⟨h.length_eq, ?_, ?_⟩
    · intro a b
      rw [h.mem_iff, workerChain_succ (b := b)]
      constructor
      · rintro (h1 | h1)
        · exact Or.inl h1
        · exact Or.inr (Or.inl h1)
      · rintro (h1 | h1 | ⟨rfl, hchain⟩)
        · exact Or.inl h1
        · exact Or.inr h1
        · obtain ⟨-, -, hpos, heq, -⟩ := hchain
          omega
    · intro w p hw
      rw [h.prev_iff w p hw]
      constructor
      · rintro ⟨hp, heq, hlast⟩
        refine ⟨by omega, heq, fun c hc hck => ?_⟩
        by_cases hck' : c = k
        · subst hck'
          omega
        · exact hlast c hc (by omega)
      · rintro ⟨hp, heq, hlast⟩
        have hpk : p ≠ k := by
          rintro rfl
          omega
        exact ⟨by omega, heq, fun c hc hck => hlast c hc (by omega)⟩
  · rename_i hin
    rw [not_or, not_lt, not_lt] at hin
    have hprev : ∀ a, st.2 (assignAt assignment k) = some a ↔
        WorkerChain assignment (k + 1) a k := by
      intro a
      rw [h.prev_iff _ a hin.1]
      constructor
      · rintro ⟨hak, heq, hlast⟩
        refine ⟨hak, by omega, by omega, heq.symm, ?_⟩
        intro c hc hck
        rw [heq]
        exact hlast c hc hck
      · rintro ⟨hak, -, -, heq, hlast⟩
        refine ⟨hak, heq.symm, ?_⟩
        intro c hc hck
        rw [heq]
        exact hlast c hc hck
    refine ⟨?_, ?_, ?_⟩
    · cases st.2 (assignAt assignment k) <;> simp [h.length_eq]
    · intro a b
      rw [workerChain_succ (b := b)]
      cases hst : st.2 (assignAt assignment k) with
      | none =>
        have hno : ¬ WorkerChain assignment (k + 1) a k := by
          intro hc
          rw [← hprev a, hst] at hc
          cases hc
        simp only [h.mem_iff]
        tauto
      | some p =>
        have hp := (hprev p).mp hst
        simp only
        rw [mem_succsAt_modify _ _ _ _ _ (by rw [h.length_eq]; have := hp.1; omega), h.mem_iff]
        have huniq : WorkerChain assignment (k + 1) a k ↔ a = p := by
          rw [← hprev a, hst]
          constructor
          · intro he
            exact (Option.some.inj he).symm
          · rintro rfl
            rfl
        rw [huniq]
        tauto
    · intro w p hw
      by_cases hwk : w = assignAt assignment k
      · subst hwk
        simp only [Function.update_self, Option.some.injEq]
        constructor
        · rintro rfl
          exact ⟨by omega, rfl, fun c hc hck => by omega⟩
        · rintro ⟨hp, heq, hlast⟩
          by_contra hne
          exact hlast k (by omega) (by omega) rfl
      · simp only [Function.update_of_ne hwk]
        rw [h.prev_iff w p hw]
        constructor
        · rintro ⟨hp, heq, hlast⟩
          refine ⟨by omega, heq, fun c hc hck => ?_⟩
          by_cases hck' : c = k
          · subst hck'
            exact fun he => hwk he.symm
          · exact hlast c hc (by omega)
        · rintro ⟨hp, heq, hlast⟩
          have hpk : p ≠ k := by
            rintro rfl
            exact hwk heq.symm
          exact ⟨by omega, heq, fun c hc hck => hlast c hc (by omega)⟩

theorem injectChains_inv {assignment : List Int} {maxWorker : Int}
    (runtimeSuccs : List (List Nat))
    (hmax : ∀ i, assignAt assignment i ≤ maxWorker ∨ assignAt assignment i < 0)
    (k : Nat) (hk : k ≤ runtimeSuccs.length) :
    ChainInv assignment runtimeSuccs k
      ((List.range k).foldl (chainStep assignment maxWorker) (runtimeSuccs, fun _ => none)) := by
  induction k with
  | zero =>
    refine ⟨rfl, fun a b => ?_, fun w p _ => ?_⟩
    · simp [WorkerChain]
    · simp
  | succ k ih =>
    rw [List.range_succ, List.foldl_append]
    exact chainStep_inv hmax (by omega) (ih (by omega))

theorem foldl_max_ge (l : List Int) (init : Int) :
    init ≤ l.foldl max init ∧ ∀ x ∈ l, x ≤ l.foldl max init := by
  induction l generalizing init with
  | nil => exact ⟨le_refl _, by simp⟩
  | cons y l ih =>
    obtain ⟨hinit, hmem⟩ := ih (max init y)
    refine ⟨le_trans (le_max_left _ _) hinit, ?_⟩
    intro x hx
    rcases List.mem_cons.mp hx with rfl | hx
    · exact le_trans (le_max_right _ _) hinit
    · exact hmem x hx

theorem assignAt_le_maxWorker (assignment : List Int) (i : Nat) :
    assignAt assignment i ≤ assignment.foldl max (-1) := by
  obtain ⟨hinit, hmem⟩ := foldl_max_ge assignment (-1)
  unfold assignAt
  by_cases hi : i < assignment.length
  · rw [List.getD_eq_getElem _ _ hi]
    exact hmem _ (List.getElem_mem hi)
  · rw [List.getD_eq_default _ _ (Nat.le_of_not_lt hi)]
    exact hinit

/-! ### Reachability rows -/

/-- One row of `reachable`: the bits of the successors and of their rows. -/
def reachRow (reachable : Nat → Nat) (succs : List Nat) (row : Nat) : Nat :=
  succs.foldl (fun row succ => (row ||| (1 <<< succ)) ||| reachable succ) row

/-- The rows of `reachable` after the downward loop over `from`.  A row of
    64-bit words is one natural number. -/
def reachRows (effectiveSuccs : List (List Nat)) (ids : List Nat) : Nat → Nat :=
  ids.foldr (fun src reachable =>
    Function.update reachable src (reachRow reachable (succsAt effectiveSuccs src) (reachable src)))
    (fun _ => 0)

theorem testBit_reachRow (reachable : Nat → Nat) (succs : List Nat) (row b : Nat) :
    (reachRow reachable succs row).testBit b = true ↔
      row.testBit b = true ∨ ∃ s ∈ succs, s = b ∨ (reachable s).testBit b = true := by
  induction succs generalizing row with
  | nil => simp [reachRow]
  | cons s succs ih =>
    have hstep : reachRow reachable (s :: succs) row =
        reachRow reachable succs ((row ||| (1 <<< s)) ||| reachable s) := rfl
    rw [hstep, ih]
    have hbit : (1 <<< s : Nat).testBit b = true ↔ s = b := by
      rw [Nat.one_shiftLeft, Nat.testBit_two_pow, decide_eq_true_eq]
    simp only [Nat.testBit_or, Bool.or_eq_true, hbit, List.mem_cons, exists_eq_or_imp, or_assoc]

theorem transGen_edge_iff (succs : List (List Nat)) (a b : Nat) :
    TransGen (Edge succs) a b ↔
      ∃ s ∈ succsAt succs a, s = b ∨ TransGen (Edge succs) s b := by
  rw [TransGen.head'_iff]
  constructor
  · rintro ⟨s, hs, hsb⟩
    rcases reflTransGen_iff_eq_or_transGen.mp hsb with rfl | h
    · exact ⟨_, hs, Or.inl rfl⟩
    · exact ⟨s, hs, Or.inr h⟩
  · rintro ⟨s, hs, rfl | h⟩
    · exact ⟨s, hs, ReflTransGen.refl⟩
    · exact ⟨s, hs, h.to_reflTransGen⟩

/-- Invariant of the downward loop: the rows from `k` on are complete, the
    others are still empty. -/
theorem reachRows_spec {effectiveSuccs : List (List Nat)}
    (hfwd : ∀ a b, Edge effectiveSuccs a b → a < b ∧ b < effectiveSuccs.length)
    (m k : Nat) (hkm : k + m = effectiveSuccs.length) :
    (∀ a, k ≤ a → ∀ b, (reachRows effectiveSuccs (List.range' k m) a).testBit b = true ↔
      TransGen (Edge effectiveSuccs) a b) ∧
    (∀ a, a < k → reachRows effectiveSuccs (List.range' k m) a = 0) := by
  induction m generalizing k with
  | zero =>
    refine ⟨fun a ha b => ?_, fun a _ => rfl⟩
    rw [transGen_edge_iff, succsAt_eq_nil (by omega)]
    simp [reachRows]
  | succ m ih =>
    obtain ⟨hdone, hempty⟩ := ih (k + 1) (by omega)
    have hrows : reachRows effectiveSuccs (List.range' k (m + 1)) =
        Function.update (reachRows effectiveSuccs (List.range' (k + 1) m)) k
          (reachRow (reachRows effectiveSuccs (List.range' (k + 1) m))
            (succsAt effectiveSuccs k) (reachRows effectiveSuccs (List.range' (k + 1) m) k)) := rfl
    rw [hrows]
    refine ⟨fun a ha b => ?_, fun a ha => ?_⟩
    · by_cases hak : a = k
      · subst hak
        rw [Function.update_self, testBit_reachRow, hempty a (by omega), transGen_edge_iff]
        simp only [Nat.zero_testBit, Bool.false_eq_true, false_or]
        -- the rows of the successors were filled in earlier rounds
        have hsucc : ∀ s ∈ succsAt effectiveSuccs a,
            ((reachRows effectiveSuccs (List.range' (a + 1) m) s).testBit b = true ↔
              TransGen (Edge effectiveSuccs) s b) := by
          intro s hs
          exact hdone s (hfwd a s hs).1 b
        constructor
        · rintro ⟨s, hs, h⟩
          exact ⟨s, hs, h.imp id (hsucc s hs).mp⟩
        · rintro ⟨s, hs, h⟩
          exact ⟨s, hs, h.imp id (hsucc s hs).mpr⟩
      · rw [Function.update_of_ne hak]
        exact hdone a (by omega) b
    · rw [Function.update_of_ne (by omega)]
      exact hempty a (by omega)

/-! ### `mtReduceDenseRuntimeSuccsTransitive` -/

/-- The effective graph: runtime successors with the worker chains, if injected. -/
def effectiveSuccs (runtimeSuccs : List (List Nat)) (assignment : List Int)
    (injectWorkerChains : Bool) : List (List Nat) :=
  let maxWorker := assignment.foldl max (-1)
  let chained :=
    if injectWorkerChains && decide (0 ≤ maxWorker) then
      injectChains assignment maxWorker runtimeSuccs.length runtimeSuccs
    else runtimeSuccs
  chained.map sortUnique

/-- Every effective edge goes to a larger id in range. -/
def forwardEdges (effective : List (List Nat)) : Bool :=
  (List.range effective.length).all fun src =>
    (succsAt effective src).all fun succ => decide (src < succ) && decide (succ < effective.length)

/-- Some other effective successor already reaches `succ`. -/
def redundantEdge (effective : List (List Nat)) (reachable : Nat → Nat) (src succ : Nat) : Bool :=
  (succsAt effective src).any fun alt => decide (alt ≠ succ) && (reachable alt).testBit succ

/-- The reduced successor lists and the number of removed edges. -/
def mtReduceDenseRuntimeSuccsTransitive (runtimeSuccs : List (List Nat)) (assignment : List Int)
    (injectWorkerChains : Bool) : List (List Nat) × Nat :=
  let nMTasks := runtimeSuccs.length
  if nMTasks ≤ 1 then (runtimeSuccs, 0)
  else
    let effective := effectiveSuccs runtimeSuccs assignment injectWorkerChains
    if forwardEdges effective then
      let reachable := reachRows effective (List.range nMTasks)
      ((List.range nMTasks).map fun src =>
          (succsAt runtimeSuccs src).filter fun succ => !redundantEdge effective reachable src succ,
        ((List.range nMTasks).map fun src =>
          ((succsAt runtimeSuccs src).filter (redundantEdge effective reachable src)).length).sum)
    else (runtimeSuccs, 0)

/-- The chain edges the reduction takes into account. -/
def InjectedChain (assignment : List Int) (nMTasks : Nat) (injectWorkerChains : Bool)
    (a b : Nat) : Prop :=
  injectWorkerChains = true ∧ WorkerChain assignment nMTasks a b

theorem edge_map_sortUnique (g : List (List Nat)) (a b : Nat) :
    Edge (g.map sortUnique) a b ↔ Edge g a b := by
  unfold Edge
  by_cases ha : a < g.length
  · rw [succsAt_map _ _ _ ha, mem_sortUnique]
  · rw [succsAt_eq_nil (by simpa using ha), succsAt_eq_nil (Nat.le_of_not_lt ha)]

theorem edge_effectiveSuccs (runtimeSuccs : List (List Nat)) (assignment : List Int)
    (inject : Bool) (a b : Nat) :
    Edge (effectiveSuccs runtimeSuccs assignment inject) a b ↔
      Edge runtimeSuccs a b ∨ InjectedChain assignment runtimeSuccs.length inject a b := by
  unfold effectiveSuccs InjectedChain
  simp only
  rw [edge_map_sortUnique]
  split
  · rename_i hon
    simp only [Bool.and_eq_true, decide_eq_true_eq] at hon
    have hinv := injectChains_inv runtimeSuccs
      (fun i => Or.inl (assignAt_le_maxWorker assignment i)) runtimeSuccs.length (le_refl _)
    simp only [hon.1, true_and]
    exact hinv.mem_iff a b
  · rename_i hoff
    simp only [Bool.and_eq_true, decide_eq_true_eq, not_and] at hoff
    constructor
    · exact Or.inl
    · rintro (h | ⟨hinj, hchain⟩)
      · exact h
      · have hpos := hchain.2.2.1
        have hle := assignAt_le_maxWorker assignment a
        exact absurd (le_trans hpos hle) (hoff hinj)

theorem length_effectiveSuccs (runtimeSuccs : List (List Nat)) (assignment : List Int)
    (inject : Bool) :
    (effectiveSuccs runtimeSuccs assignment inject).length = runtimeSuccs.length := by
  unfold effectiveSuccs
  simp only [List.length_map]
  split
  · exact (injectChains_inv runtimeSuccs
      (fun i => Or.inl (assignAt_le_maxWorker assignment i)) runtimeSuccs.length (le_refl _)).length_eq
  · rfl

theorem forwardEdges_iff (effective : List (List Nat)) :
    forwardEdges effective = true ↔
      ∀ a b, Edge effective a b → a < b ∧ b < effective.length := by
  unfold forwardEdges
  simp only [List.all_eq_true, List.mem_range, Bool.and_eq_true, decide_eq_true_eq]
  constructor
  · intro h a b hab
    exact h a (lt_length_of_edge hab) b hab
  · intro h a _ b hab
    exact h a b hab

theorem redundantEdge_iff {effective : List (List Nat)}
    (hfwd : ∀ a b, Edge effective a b → a < b ∧ b < effective.length) (a b : Nat) :
    redundantEdge effective (reachRows effective (List.range effective.length)) a b = true ↔
      ∃ alt, Edge effective a alt ∧ alt ≠ b ∧ TransGen (Edge effective) alt b := by
  have hrows := (reachRows_spec hfwd effective.length 0 (by omega)).1
  rw [← List.range_eq_range'] at hrows
  unfold redundantEdge
  simp only [List.any_eq_true, Bool.and_eq_true, decide_eq_true_eq]
  constructor
  · rintro ⟨alt, hmem, hne, hbit⟩
    exact ⟨alt, hmem, hne, (hrows alt (by omega) b).mp hbit⟩
  · rintro ⟨alt, hmem, hne, hreach⟩
    exact ⟨alt, hmem, hne, (hrows alt (by omega) b).mpr hreach⟩

/-- What the reduction returns: either the lists unchanged, or on forward
    effective edges the lists without the redundant edges. -/
theorem mtReduceDenseRuntimeSuccsTransitive_cases (runtimeSuccs : List (List Nat))
    (assignment : List Int) (inject : Bool) :
    (mtReduceDenseRuntimeSuccsTransitive runtimeSuccs assignment inject).1 = runtimeSuccs ∨
    ((∀ a b, Edge (effectiveSuccs runtimeSuccs assignment inject) a b →
        a < b ∧ b < runtimeSuccs.length) ∧
      ∀ a, succsAt (mtReduceDenseRuntimeSuccsTransitive runtimeSuccs assignment inject).1 a =
        (succsAt runtimeSuccs a).filter fun b =>
          !redundantEdge (effectiveSuccs runtimeSuccs assignment inject)
            (reachRows (effectiveSuccs runtimeSuccs assignment inject)
              (List.range runtimeSuccs.length)) a b) := by
  unfold mtReduceDenseRuntimeSuccsTransitive
  simp only
  split
  · exact Or.inl rfl
  · split
    · rename_i hfwd
      rw [forwardEdges_iff, length_effectiveSuccs] at hfwd
      refine Or.inr ⟨hfwd, fun a => ?_⟩
      rw [succsAt_map_range]
      split
      · rfl
      · rename_i ha
        rw [succsAt_eq_nil (Nat.le_of_not_lt ha)]
        rfl
    · exact Or.inl rfl

theorem mtReduceDenseRuntimeSuccsTransitive_sublist (runtimeSuccs : List (List Nat))
    (assignment : List Int) (inject : Bool) (a : Nat) :
    (succsAt (mtReduceDenseRuntimeSuccsTransitive runtimeSuccs assignment inject).1 a).Sublist
      (succsAt runtimeSuccs a) := by
  rcases mtReduceDenseRuntimeSuccsTransitive_cases runtimeSuccs assignment inject with h | ⟨-, h⟩
  · rw [h]
  · rw [h a]
    exact List.filter_sublist

theorem length_mtReduceDenseRuntimeSuccsTransitive (runtimeSuccs : List (List Nat))
    (assignment : List Int) (inject : Bool) :
    (mtReduceDenseRuntimeSuccsTransitive runtimeSuccs assignment inject).1.length =
      runtimeSuccs.length := by
  unfold mtReduceDenseRuntimeSuccsTransitive
  simp only
  split
  · rfl
  · split
    · simp
    · rfl

/-- Every path of the runtime successors and chains survives the reduction. -/
theorem reduced_transGen_iff (runtimeSuccs : List (List Nat)) (assignment : List Int)
    (inject : Bool) (a b : Nat) :
    TransGen (fun x y =>
        Edge (mtReduceDenseRuntimeSuccsTransitive runtimeSuccs assignment inject).1 x y ∨
          InjectedChain assignment runtimeSuccs.length inject x y) a b ↔
      TransGen (fun x y => Edge runtimeSuccs x y ∨
        InjectedChain assignment runtimeSuccs.length inject x y) a b := by
  rcases mtReduceDenseRuntimeSuccsTransitive_cases runtimeSuccs assignment inject
    with h | ⟨hfwd, hkept⟩
  · rw [h]
  · have heff := edge_effectiveSuccs runtimeSuccs assignment inject
    have hfwd' : ∀ x y, Edge (effectiveSuccs runtimeSuccs assignment inject) x y →
        x < y ∧ y < (effectiveSuccs runtimeSuccs assignment inject).length := by
      intro x y hxy
      rw [length_effectiveSuccs]
      exact hfwd x y hxy
    have hrank : ∀ x y, Edge runtimeSuccs x y ∨
        InjectedChain assignment runtimeSuccs.length inject x y → id x < id y :=
      fun x y hxy => (hfwd x y ((heff x y).mpr hxy)).1
    refine RankedGraph.transGen_shortcut_iff hrank ?_ ?_ a b
    · intro x y hxy
      exact (mtReduceDenseRuntimeSuccsTransitive_sublist runtimeSuccs assignment inject x).subset hxy
    · intro x y hxy
      by_cases hred : redundantEdge (effectiveSuccs runtimeSuccs assignment inject)
          (reachRows (effectiveSuccs runtimeSuccs assignment inject)
            (List.range runtimeSuccs.length)) x y = true
      · rw [← length_effectiveSuccs runtimeSuccs assignment inject,
          redundantEdge_iff hfwd'] at hred
        obtain ⟨alt, hxalt, -, hpath⟩ := hred
        refine Or.inr ⟨alt, (heff x alt).mp hxalt, ?_⟩
        exact TransGen.mono (fun u v huv => (heff u v).mp huv) _ _ hpath
      · refine Or.inl ?_
        show y ∈ _
        rw [hkept x]
        exact List.mem_filter.mpr ⟨hxy, by simpa using hred⟩

/-- **The reduction preserves the ordering.**  It keeps a sublist of every
    successor list, and what is reachable through the kept edges and the
    injected worker chains is what was reachable before. -/
theorem mtReduceDenseRuntimeSuccsTransitive_reachability (runtimeSuccs : List (List Nat))
    (assignment : List Int) (injectWorkerChains : Bool) :
    (∀ src, (succsAt
        (mtReduceDenseRuntimeSuccsTransitive runtimeSuccs assignment injectWorkerChains).1
        src).Sublist (succsAt runtimeSuccs src)) ∧
    ∀ a b, TransGen (fun x y =>
        Edge (mtReduceDenseRuntimeSuccsTransitive runtimeSuccs assignment injectWorkerChains).1 x y ∨
          InjectedChain assignment runtimeSuccs.length injectWorkerChains x y) a b ↔
      TransGen (fun x y => Edge runtimeSuccs x y ∨
        InjectedChain assignment runtimeSuccs.length injectWorkerChains x y) a b :=
  ⟨mtReduceDenseRuntimeSuccsTransitive_sublist runtimeSuccs assignment injectWorkerChains,
    reduced_transGen_iff runtimeSuccs assignment injectWorkerChains⟩

-- 0 → 3 is short-cut, and the chain 1 → 2 of worker 1 makes 0 → 2 and 1 → 3 redundant
example : (mtReduceDenseRuntimeSuccsTransitive [[1, 2, 3], [3], [3], []] [0, 1, 1, 0] true) =
    ([[1], [], [3], []], 3) := by decide

end Gsim
