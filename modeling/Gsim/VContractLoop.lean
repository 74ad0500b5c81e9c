/-
  Gsim/VContractLoop.lean
  =======================
  **The merge loop keeps the quotient graph acyclic, and ends.**

  One turn is inverted once (`mayMerge_spec`, `mergeCandidate_cases`); the invariant
  and the measure are read off it.  The measure is lexicographic: groups left,
  candidates whose stored score is out of date, candidates.
-/
import Gsim.VContractMerge

namespace Gsim

open SortedContainers GraphContraction Relation

/-! ## Trying an edge -/

section EraseEdge

variable {S : SccSchedule} {cap : ℕ} {g : Groups} {a b : ℕ}

theorem GroupsCore.eraseEdge (core : GroupsCore S cap g) (a b : ℕ) :
    GroupsCore S cap (g.eraseEdge a b) where
  idem := core.idem
  range := core.range
  sortedS x := by
    simp only [Groups.eraseEdge]
    by_cases eq : x = a
    · rw [eq, Function.update_self]
      exact relErase_pairwise (core.sortedS a) b
    · rw [Function.update_of_ne eq]
      exact core.sortedS x
  sortedP x := by
    simp only [Groups.eraseEdge]
    by_cases eq : x = b
    · rw [eq, Function.update_self]
      exact relErase_pairwise (core.sortedP b) a
    · rw [Function.update_of_ne eq]
      exact core.sortedP x
  soundS r root s hs := by
    apply core.soundS r root s
    simp only [Groups.eraseEdge] at hs
    by_cases eq : r = a
    · rw [eq, Function.update_self] at hs
      exact eq ▸ List.mem_of_mem_erase hs
    · rwa [Function.update_of_ne eq] at hs
  soundP s root r hr := by
    apply core.soundP s root r
    simp only [Groups.eraseEdge] at hr
    by_cases eq : s = b
    · rw [eq, Function.update_self] at hr
      exact eq ▸ List.mem_of_mem_erase hr
    · rwa [Function.update_of_ne eq] at hr
  acyclic := core.acyclic
  w0 := core.w0
  cost := core.cost
  capped := core.capped

theorem GroupsInv.eraseEdge_fresh (inv : GroupsInv S cap g) (a b : ℕ) :
    Fresh (g.eraseEdge a b) (Without (g.Dep S) a b) := by
  rintro r s ⟨edge, other⟩
  obtain ⟨hs, hr⟩ := inv.fresh r s edge
  simp only [Groups.eraseEdge]
  constructor
  · by_cases eq : r = a
    · have sb : s ≠ b := fun h => other ⟨eq, h⟩
      rw [eq, Function.update_self, mem_relErase_of_ne sb]
      exact eq ▸ hs
    · rwa [Function.update_of_ne eq]
  · by_cases eq : s = b
    · have ra : r ≠ a := fun h => other ⟨h, eq⟩
      rw [eq, Function.update_self, mem_relErase_of_ne ra]
      exact eq ▸ hr
    · rwa [Function.update_of_ne eq]

theorem GroupsInv.insertEdge_eraseEdge (inv : GroupsInv S cap g) (edge : g.Dep S a b) :
    (g.eraseEdge a b).insertEdge a b = g := by
  obtain ⟨hb, ha⟩ := inv.fresh a b edge
  unfold Groups.insertEdge Groups.eraseEdge
  simp only [Function.update_self, Function.update_idem]
  rw [relInsert_relErase (inv.sortedS a) hb, relInsert_relErase (inv.sortedP b) ha,
    Function.update_eq_self, Function.update_eq_self]

end EraseEdge

/-! ## The cycle check -/

/-- What a positive check leaves behind. -/
structure Admitted (S : SccSchedule) (cap : ℕ) (g : Groups) (a b : ℕ) (g' : Groups)
    (c' : PathCache) : Prop where
  core : GroupsCore S cap g'
  find : g'.find = g.find
  gcost : g'.gcost = g.gcost
  gw0 : g'.gw0 = g.gw0
  fresh : Fresh g' (Without (g.Dep S) a b)
  forth : ¬ TransGen (Without (g.Dep S) a b) a b
  back : ¬ TransGen (Without (g.Dep S) a b) b a
  paths : ∃ E, PathInv E c'

/-- A pair is admitted only when merging it closes no cycle; otherwise the groups are left as
    they were. -/
def Checked (S : SccSchedule) (cap : ℕ) (g : Groups) (a b : ℕ)
    (result : Bool × Groups × PathCache) : Prop :=
  (result.1 = true ∧ Admitted S cap g a b result.2.1 result.2.2) ∨
    (result.1 = false ∧ result.2.1 = g ∧ PathInv (g.Dep S) result.2.2)

theorem mayMerge_spec {S : SccSchedule} {cap : ℕ} {g : Groups} {c : PathCache} {a b : ℕ}
    (inv : GroupsInv S cap g) (paths : PathInv (g.Dep S) c) (rootA : g.find a = a)
    (rootB : g.find b = b) (ne : a ≠ b) (sibling : Bool) :
    Checked S cap g a b (mayMerge g c a b sibling) := by
  have without : ∀ x y, Without (g.Dep S) a b x y → g.Dep S x y := fun _ _ h => h.1
  have covers := covers_of_fresh inv.toGroupsCore (fun _ _ h => h) inv.fresh
  cases sibling with
  | true =>
    simp only [mayMerge, if_true]
    by_cases adjacent : (relContains (g.gS a) b || relContains (g.gS b) a) = true
    · rw [if_pos adjacent]
      exact .inr ⟨rfl, rfl, paths⟩
    · rw [if_neg adjacent]
      have first := pathExists_spec covers paths rootA rootB
      cases ab : (pathExists g c a b).1 with
      | true =>
        simp only [if_true]
        exact .inr ⟨rfl, rfl, first.inv⟩
      | false =>
        simp only [Bool.false_eq_true, if_false]
        have second := pathExists_spec covers first.inv rootB rootA
        cases ba : (pathExists g (pathExists g c a b).2 b a).1 with
        | true => exact .inr ⟨rfl, rfl, second.inv⟩
        | false =>
          refine .inl ⟨rfl, ⟨inv.toGroupsCore, rfl, rfl, rfl, ?_, ?_, ?_, _, second.inv⟩⟩
          · exact fun r s h => inv.fresh r s h.1
          · exact fun path => first.none ab (TransGen.mono without _ _ path)
          · exact fun path => second.none ba (TransGen.mono without _ _ path)
  | false =>
    simp only [mayMerge, Bool.false_eq_true, if_false]
    by_cases listed : relContains (g.gS a) b = true
    · have mem : b ∈ g.gS a := by simpa [relContains] using listed
      have edge : g.Dep S a b := by
        rcases inv.soundS a rootA b mem with eq | edge
        · exact absurd (eq.symm.trans rootB) ne
        · rwa [rootB] at edge
      have covers' := covers_of_fresh (inv.toGroupsCore.eraseEdge a b) without (inv.eraseEdge_fresh a b)
      have query := pathExists_spec (g := g.eraseEdge a b) covers' (paths.erase a b) rootA rootB
      simp only [listed, Bool.not_true, Bool.false_eq_true, if_false]
      cases ab : (pathExists (g.eraseEdge a b) (c.dropList a) a b).1 with
      | true =>
        simp only [if_true]
        exact .inr ⟨rfl, inv.insertEdge_eraseEdge edge,
          query.inv.restore paths (query.remembered ab)⟩
      | false =>
        simp only [Bool.false_eq_true, if_false]
        refine .inl ⟨rfl, ⟨inv.toGroupsCore.eraseEdge a b, rfl, rfl, rfl, inv.eraseEdge_fresh a b,
          query.none ab, ?_, _, query.inv⟩⟩
        -- the edge itself closes any path back
        exact fun path => inv.acyclic a ((TransGen.mono without _ _ path).head edge)
    · simp only [listed, Bool.not_false, if_true]
      exact .inr ⟨rfl, rfl, paths⟩

/-! ## One turn -/

section Loop

variable {κ : Type} {P : MergeParams κ} {S : SccSchedule}

/-- The candidate joins two groups that may be joined, but its score is not the current one. -/
def stale (P : MergeParams κ) (g : Groups) (cp : κ) (cand : Cand) : Bool :=
  (g.find cand.a ≠ g.find cand.b ∧ pairable P g (g.find cand.a) (g.find cand.b)) ∧ P.propagateCp ∧
    P.scoring.candidateScore g cp (g.find cand.a) (g.find cand.b) cand.sibling ≠ cand.score

structure MergeInv (P : MergeParams κ) (S : SccSchedule) (s : MergeState κ) : Prop where
  groups : GroupsInv S P.perMTaskCap s.groups
  paths : PathInv (s.groups.Dep S) s.paths
  cands : ∀ cand ∈ s.pq, cand.a < S.realN ∧ cand.b < S.realN

/-- What one turn makes of a state: the candidate is dropped, scored anew, rejected, or its
    groups are merged. -/
inductive Turn (P : MergeParams κ) (S : SccSchedule) (s : MergeState κ) (cand : Cand)
    (rest : List Cand) : MergeState κ → Prop where
  | drop : Turn P S s cand rest { s with pq := rest }
  | rescore : stale P s.groups s.cp cand = true →
    Turn P S s cand rest { s with pq := rest ++ [candidate P s.groups s.cp (s.groups.find cand.a)
      (s.groups.find cand.b) cand.sibling] }
  | reject (c : PathCache) : PathInv (s.groups.Dep S) c →
    Turn P S s cand rest { s with paths := c, pq := rest }
  | merge (g : Groups) (c : PathCache) : s.groups.find cand.a ≠ s.groups.find cand.b →
    pairable P s.groups (s.groups.find cand.a) (s.groups.find cand.b) = true →
    Admitted S P.perMTaskCap s.groups (s.groups.find cand.a) (s.groups.find cand.b) g c →
    Turn P S s cand rest
      (applyMerge P s g c rest (s.groups.find cand.a) (s.groups.find cand.b))

theorem mergeCandidate_turn {s : MergeState κ} (inv : MergeInv P S s) (cand : Cand)
    (rest : List Cand) : Turn P S s cand rest (mergeCandidate P s cand rest) := by
  unfold mergeCandidate
  by_cases skip : s.groups.find cand.a = s.groups.find cand.b ∨
      ¬ pairable P s.groups (s.groups.find cand.a) (s.groups.find cand.b) = true
  · simp only [skip, if_true]
    exact .drop
  · simp only [skip, if_false]
    obtain ⟨ne, fits⟩ := not_or.mp skip
    have fits := not_not.mp fits
    split
    · rename_i outdated
      refine .rescore ?_
      simp only [stale, decide_eq_true_eq]
      exact ⟨⟨ne, fits⟩, outdated⟩
    · have checked := mayMerge_spec inv.groups inv.paths (inv.groups.idem cand.a)
        (inv.groups.idem cand.b) ne cand.sibling
      rcases result : mayMerge s.groups s.paths (s.groups.find cand.a) (s.groups.find cand.b)
        cand.sibling with ⟨ok, g, c⟩
      rw [result] at checked
      rcases checked with ⟨rfl, admitted⟩ | ⟨rfl, rfl, paths⟩
      · exact .merge g c ne fits admitted
      · exact .reject c paths

/-! ## The invariant -/

theorem Groups.Dep.range {g : Groups} {cap : ℕ} (core : GroupsCore S cap g) {r s : ℕ}
    (h : g.Dep S r s) : r < S.realN ∧ s < S.realN := by
  obtain ⟨u, v, edge, rfl, rfl, -⟩ := h
  obtain ⟨lt, hv⟩ := S.edge_lt edge
  exact ⟨core.range u (lt.trans hv), core.range v hv⟩

section Push

variable {g : Groups} {cap : ℕ} (core : GroupsCore S cap g) (cp : κ) {r : ℕ} (hr : r < S.realN)
  (root : g.find r = r)
include core hr root

theorem find_gS_lt {x : ℕ} (hx : x ∈ (g.gS r).map g.find) : x < S.realN := by
  obtain ⟨s, hs, rfl⟩ := List.mem_map.mp hx
  rcases core.soundS r root s hs with eq | edge
  · rwa [eq]
  · exact (edge.range core).2

theorem find_gP_lt {x : ℕ} (hx : x ∈ (g.gP r).map g.find) : x < S.realN ∧ g.find x = x := by
  obtain ⟨p, hp, rfl⟩ := List.mem_map.mp hx
  refine ⟨?_, core.idem p⟩
  rcases core.soundP r root p hp with eq | edge
  · rwa [eq]
  · exact (edge.range core).1

theorem pushBoth_range {cand : Cand} (h : cand ∈ pushBoth P g cp r) :
    cand.a < S.realN ∧ cand.b < S.realN := by
  rcases List.mem_append.mp h with edge | sib
  · obtain ⟨rs, hrs, made⟩ := List.mem_filterMap.mp edge
    split at made
    · cases made
      exact ⟨hr, find_gS_lt core hr root hrs⟩
    · cases made
  · split at sib
    · have sib := List.mem_of_mem_take sib
      obtain ⟨rp, hrp, sib⟩ := List.mem_flatMap.mp sib
      obtain ⟨rs, hrs, made⟩ := List.mem_filterMap.mp sib
      obtain ⟨lt, rootP⟩ := find_gP_lt core hr root hrp
      split at made
      · cases made
        exact ⟨hr, find_gS_lt core lt rootP hrs⟩
      · cases made
    · cases sib

theorem pushPreds_range {cand : Cand} (h : cand ∈ pushPreds P g cp r) :
    cand.a < S.realN ∧ cand.b < S.realN := by
  obtain ⟨rp, hrp, made⟩ := List.mem_filterMap.mp h
  split at made
  · cases made
    exact ⟨(find_gP_lt core hr root hrp).1, hr⟩
  · cases made

end Push

theorem rebuildPQ_range {g : Groups} {cap : ℕ} (core : GroupsCore S cap g) (cp : κ)
    (size : P.n = S.realN) {cand : Cand} (h : cand ∈ rebuildPQ P g cp) :
    cand.a < S.realN ∧ cand.b < S.realN := by
  obtain ⟨u, hu, mem⟩ := List.mem_flatMap.mp h
  simp only [List.mem_filter, List.mem_range, decide_eq_true_eq, size] at hu
  exact pushBoth_range core cp hu.1 hu.2 mem

theorem pairable_iff {g : Groups} {a b : ℕ} :
    pairable P g a b = true ↔ g.gw0 a = g.gw0 b ∧ g.gcost a + g.gcost b ≤ P.perMTaskCap := by
  simp [pairable]

theorem Admitted.merge {g g' : Groups} {c' : PathCache} {cap a b : ℕ}
    (admitted : Admitted S cap g a b g' c') (rootA : g.find a = a) (rootB : g.find b = b)
    (ne : a ≠ b) (inA : a < S.realN) (inB : b < S.realN) (same : g.gw0 a = g.gw0 b)
    (fits : g.gcost a + g.gcost b ≤ cap) : GroupsInv S cap (g'.merge a b) := by
  have dep : g'.Dep S = g.Dep S := by
    unfold Groups.Dep
    rw [admitted.find]
  apply admitted.core.merge
  · rwa [admitted.find]
  · rwa [admitted.find]
  · exact ne
  · exact inA
  · exact inB
  · rw [dep]
    exact admitted.fresh
  · rwa [admitted.gw0]
  · rwa [admitted.gcost]
  · rw [dep]
    exact admitted.forth
  · rw [dep]
    exact admitted.back

theorem applyMerge_inv {s : MergeState κ} {g : Groups} {c : PathCache} {rest : List Cand} {a b : ℕ}
    (size : P.n = S.realN) (merged : GroupsInv S P.perMTaskCap (g.merge a b))
    (rootA : (g.merge a b).find a = a) (inA : a < S.realN) (paths : ∃ E, PathInv E c)
    (cands : ∀ cand ∈ rest, cand.a < S.realN ∧ cand.b < S.realN) :
    MergeInv P S (applyMerge P s g c rest a b) := by
  obtain ⟨E, paths⟩ := paths
  -- with or without compaction
  have groups : GroupsInv S P.perMTaskCap (applyMerge P s g c rest a b).groups := by
    unfold applyMerge
    dsimp only
    split
    · exact merged.compact
    · exact merged
  have root : (applyMerge P s g c rest a b).groups.find a = a := by
    unfold applyMerge
    dsimp only
    split
    · exact rootA
    · exact rootA
  refine ⟨groups, paths.forget, ?_⟩
  intro cand hcand
  rcases List.mem_append.mp hcand with old | new
  · rcases List.mem_append.mp old with old | new
    · split at old
      · exact rebuildPQ_range groups.toGroupsCore _ size old
      · exact cands cand old
    · exact pushBoth_range groups.toGroupsCore _ inA root new
  · exact pushPreds_range groups.toGroupsCore _ inA root new

theorem Turn.inv {s s' : MergeState κ} {cand : Cand} {rest : List Cand} (size : P.n = S.realN)
    (inv : MergeInv P S s) (popped : s.pq.Perm (cand :: rest)) (turn : Turn P S s cand rest s') :
    MergeInv P S s' := by
  obtain ⟨inA, inB⟩ := inv.cands cand (popped.mem_iff.mpr List.mem_cons_self)
  have others : ∀ other ∈ rest, other.a < S.realN ∧ other.b < S.realN := fun other h =>
    inv.cands other (popped.mem_iff.mpr (List.mem_cons_of_mem _ h))
  have inA' := inv.groups.range _ inA
  have inB' := inv.groups.range _ inB
  cases turn with
  | drop => exact ⟨inv.groups, inv.paths, others⟩
  | rescore =>
    refine ⟨inv.groups, inv.paths, ?_⟩
    intro other h
    rcases List.mem_append.mp h with old | new
    · exact others other old
    · cases List.mem_singleton.mp new
      exact ⟨inA', inB'⟩
  | reject c paths => exact ⟨inv.groups, paths, others⟩
  | merge g c ne fits admitted =>
    obtain ⟨same, fits⟩ := pairable_iff.mp fits
    have rootA := inv.groups.idem cand.a
    refine applyMerge_inv size ?_ ?_ inA' admitted.paths others
    · exact admitted.merge rootA (inv.groups.idem cand.b) ne inA' inB' same fits
    · show redirect g.find _ _ _ = _
      unfold redirect
      rw [admitted.find, rootA, if_neg ne]

/-- The popped candidate and the rest make up the queue. -/
theorem mergeStep_cases (s : MergeState κ) (pick : ℕ) :
    (s.finished P = true ∧ mergeStep P s pick = s) ∨
      (s.finished P = false ∧ ∃ cand rest, s.pq.Perm (cand :: rest) ∧
        mergeStep P s pick = mergeCandidate P s cand rest) := by
  unfold mergeStep
  by_cases done : s.finished P = true
  · rw [if_pos done]
    exact .inl ⟨done, rfl⟩
  · rw [if_neg done]
    have nonempty : s.pq ≠ [] := by
      intro empty
      exact done (by simp [MergeState.finished, empty])
    have lt : pick % s.pq.length < s.pq.length :=
      Nat.mod_lt _ (List.length_pos_of_ne_nil nonempty)
    rw [List.getElem?_eq_getElem lt]
    refine .inr ⟨by simpa using done, _, _, ?_, rfl⟩
    exact (List.getElem_cons_eraseIdx_perm lt).symm

theorem MergeInv.step {s : MergeState κ} (size : P.n = S.realN) (inv : MergeInv P S s)
    (pick : ℕ) : MergeInv P S (mergeStep P s pick) := by
  rcases mergeStep_cases (P := P) s pick with ⟨-, same⟩ | ⟨-, cand, rest, popped, eq⟩
  · rwa [same]
  · rw [eq]
    exact (mergeCandidate_turn inv cand rest).inv size inv popped

theorem MergeInv.loop {s : MergeState κ} (size : P.n = S.realN) (inv : MergeInv P S s)
    (picks : List ℕ) : MergeInv P S (mergeLoop P s picks) := by
  unfold mergeLoop
  induction picks generalizing s with
  | nil => exact inv
  | cons pick picks ih => exact ih (inv.step size pick)

theorem MergeInv.initial (size : P.n = S.realN) : MergeInv P S (MergeState.initial P S) where
  groups := GroupsInv.initial S _
  paths := PathInv.initial _
  cands _ h := rebuildPQ_range (GroupsInv.initial S P.perMTaskCap).toGroupsCore _ size h

/-! ## The loop ends -/

/-- Groups left, outdated candidates, candidates. -/
def loopMeasure (P : MergeParams κ) (s : MergeState κ) : ℕ × ℕ × ℕ :=
  (s.live, s.pq.countP (stale P s.groups s.cp), s.pq.length)

def MeasureLt : ℕ × ℕ × ℕ → ℕ × ℕ × ℕ → Prop := Prod.Lex (· < ·) (Prod.Lex (· < ·) (· < ·))

theorem measureLt_wf : WellFounded MeasureLt :=
  WellFounded.prod_lex wellFounded_lt (WellFounded.prod_lex wellFounded_lt wellFounded_lt)

/-- A candidate made for two roots carries the current score. -/
theorem stale_candidate (g : Groups) (cp : κ) {a b : ℕ} (rootA : g.find a = a) (rootB : g.find b = b)
    (sibling : Bool) : stale P g cp (candidate P g cp a b sibling) = false := by
  simp [stale, candidate, rootA, rootB]

theorem countP_popped {s : MergeState κ} {cand : Cand} {rest : List Cand}
    (popped : s.pq.Perm (cand :: rest)) (f : Cand → Bool) :
    s.pq.countP f = rest.countP f + (if f cand then 1 else 0) ∧
      s.pq.length = rest.length + 1 := by
  refine ⟨?_, popped.length_eq⟩
  rw [popped.countP_eq, List.countP_cons]

theorem Turn.decreases {s s' : MergeState κ} {cand : Cand} {rest : List Cand}
    (inv : MergeInv P S s) (going : s.finished P = false) (popped : s.pq.Perm (cand :: rest))
    (turn : Turn P S s cand rest s') : MeasureLt (loopMeasure P s') (loopMeasure P s) := by
  obtain ⟨count, length⟩ := countP_popped popped (stale P s.groups s.cp)
  -- the queue got shorter and nothing became outdated
  have shorter : Prod.Lex (· < ·) (· < ·) (rest.countP (stale P s.groups s.cp), rest.length)
      (s.pq.countP (stale P s.groups s.cp), s.pq.length) := by
    rcases Nat.lt_or_ge (rest.countP (stale P s.groups s.cp)) (s.pq.countP (stale P s.groups s.cp))
      with lt | ge
    · exact .left _ _ lt
    · have eq : rest.countP (stale P s.groups s.cp) = s.pq.countP (stale P s.groups s.cp) := by omega
      rw [eq]
      exact .right _ (by omega)
  cases turn with
  | drop => exact .right _ shorter
  | rescore outdated =>
    refine .right _ (.left _ _ ?_)
    have fresh := stale_candidate (P := P) s.groups s.cp (inv.groups.idem cand.a)
      (inv.groups.idem cand.b) cand.sibling
    show (rest ++ [_]).countP _ < _
    rw [List.countP_append, List.countP_singleton, fresh, count, if_pos outdated]
    simp
  | reject c _ => exact .right _ shorter
  | merge g c ne fits admitted =>
    refine .left _ _ ?_
    have many : P.maxMTasks < s.live := by
      simp only [MergeState.finished, decide_eq_false_iff_not, not_or, not_le] at going
      exact going.2
    show s.live - 1 < s.live
    omega

/-- However candidates are popped, the loop comes to an end. -/
theorem mergeLoop_ends {s : MergeState κ} (size : P.n = S.realN) (inv : MergeInv P S s)
    (pick : ℕ → ℕ) : ∃ k, (mergeLoop P s ((List.range k).map pick)).finished P = true := by
  induction h : loopMeasure P s using measureLt_wf.induction generalizing s pick with
  | _ m ih =>
    subst h
    rcases mergeStep_cases (P := P) s (pick 0) with ⟨done, -⟩ | ⟨going, cand, rest, popped, eq⟩
    · exact ⟨0, done⟩
    · have turn := mergeCandidate_turn inv cand rest
      rw [← eq] at turn
      obtain ⟨k, done⟩ := ih _ (turn.decreases inv going popped) (inv.step size (pick 0))
        (fun i => pick (i + 1)) rfl
      refine ⟨k + 1, ?_⟩
      rw [List.range_succ_eq_map, List.map_cons, List.map_map]
      exact done

end Loop

end Gsim
