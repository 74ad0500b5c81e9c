/-
  Gsim/VContractExact.lean
  ========================
  **The answers of `pathExists` are those of a fresh search.**

  Three caches stand between a query and the neighbour lists, and each is cleared at
  another moment: the memo and all lists at a merge, one list when an edge is taken
  out and again when it is put back.  What they hold is exact at every query:

    * a list of the current epoch is the raw list resolved through `find`;
    * a remembered answer is that of the graph the pair is looked at in: without the
      direct edge if there is one, else as it is (`asked`).  The lists are the same
      at the end of every turn of one generation, so a pair is always looked at in the same graph.

  The answers themselves are compared with depth-first search over the raw lists
  (`freshSearch`).  Below `visitCap` SCCs the cap on the visits is never reached.
-/
import Gsim.VContractLoop
import Gsim.Worklist

namespace Gsim

open SortedContainers GraphContraction Relation

/-! ## The fresh search -/

/-- The raw successor list, resolved through `find`. -/
def Groups.resolved (g : Groups) (x : ℕ) : List ℕ := (g.gS x).map g.find

/-- Depth-first search over `n` SCCs without any cache. -/
def freshSearch (n : ℕ) (g : Groups) (frm target : ℕ) : Bool :=
  Worklist.dfs g.resolved (g.find target) n [] [g.find frm]

/-- There is a path along the raw lists. -/
def Groups.Reaches (g : Groups) : ℕ → ℕ → Prop := ReflTransGen fun x y => y ∈ g.resolved x

/-- The roots of the groups. -/
def Groups.Live (n : ℕ) (g : Groups) (x : ℕ) : Prop := x < n ∧ g.find x = x

/-- Live groups lead to live groups. -/
def LiveClosed (n : ℕ) (g : Groups) : Prop := ∀ x, g.Live n x → ∀ y ∈ g.resolved x, g.Live n y

theorem GroupsCore.liveClosed {S : SccSchedule} {cap : ℕ} {g : Groups} (core : GroupsCore S cap g) :
    LiveClosed S.realN g := by
  rintro x ⟨hx, root⟩ y hy
  refine ⟨find_gS_lt core hx root hy, ?_⟩
  obtain ⟨s, -, rfl⟩ := List.mem_map.mp hy
  exact core.idem s

theorem freshSearch_iff {n : ℕ} {g : Groups} (closed : LiveClosed n g) {frm target : ℕ}
    (live : g.Live n frm) (root : g.find target = target) :
    freshSearch n g frm target = true ↔ g.Reaches frm target := by
  unfold freshSearch
  rw [live.2, root]
  refine Worklist.dfs_iff ((Finset.range n).filter fun x => g.find x = x) ?_ ?_ ?_
  · exact Finset.mem_filter.mpr ⟨Finset.mem_range.mpr live.1, live.2⟩
  · intro x hx y hy
    obtain ⟨lt, fixed⟩ := Finset.mem_filter.mp hx
    obtain ⟨lt', fixed'⟩ := closed x ⟨Finset.mem_range.mp lt, fixed⟩ y hy
    exact Finset.mem_filter.mpr ⟨Finset.mem_range.mpr lt', fixed'⟩
  · exact (Finset.card_filter_le _ _).trans_eq (Finset.card_range n)

/-! ## Exact lists -/

/-- An edge of the raw lists; a group is not its own neighbour. -/
def Groups.RawEdge (g : Groups) (x y : ℕ) : Prop := y ∈ g.resolved x ∧ y ≠ x

theorem covers_rawEdge (g : Groups) : Covers g g.RawEdge := by
  rintro x y ⟨mem, ne⟩
  obtain ⟨s, hs, eq⟩ := List.mem_map.mp mem
  exact ⟨ne, s, hs, eq⟩

theorem Groups.Reaches.transGen {g : Groups} {x y : ℕ} (path : g.Reaches x y) (ne : x ≠ y) :
    TransGen g.RawEdge x y := by
  have proper : ∀ z, g.Reaches x z → ReflTransGen g.RawEdge x z := by
    intro z path
    induction path with
    | refl => exact .refl
    | @tail b c _ edge ih =>
      by_cases eq : c = b
      · exact eq ▸ ih
      · exact ih.tail ⟨edge, eq⟩
  exact (reflTransGen_iff_eq_or_transGen.mp (proper y path)).resolve_left (Ne.symm ne)

/-- A list of the current epoch has no other entries. -/
def ListsSound (g : Groups) (c : PathCache) : Prop :=
  ∀ x, c.gsnEpoch x = c.pathEpoch → ∀ y ∈ c.gSN x, g.RawEdge x y

/-- The lists of the current epoch are the raw lists. -/
structure ExactLists (g : Groups) (c : PathCache) : Prop extends ListsInv g.RawEdge c where
  sound : ListsSound g c

section Search

variable {n : ℕ} {g : Groups} {c : PathCache}

theorem gsn_sound (sound : ListsSound g c) (x : ℕ) :
    ListsSound g (gsn g c x) ∧ ∀ y ∈ (gsn g c x).gSN x, g.RawEdge x y := by
  unfold gsn
  by_cases current : c.gsnEpoch x = c.pathEpoch
  · rw [if_pos current]
    exact ⟨sound, sound x current⟩
  · rw [if_neg current]
    have rebuilt : ∀ y ∈ (sortUnique ((g.gS x).map g.find)).filter (· ≠ x), g.RawEdge x y := by
      intro y hy
      obtain ⟨mem, ne⟩ := List.mem_filter.mp hy
      exact ⟨mem_sortUnique.mp mem, of_decide_eq_true ne⟩
    constructor
    · intro z hz y hy
      dsimp only at hz hy
      by_cases eq : z = x
      · subst eq
        rw [Function.update_self] at hy
        exact rebuilt y hy
      · rw [Function.update_of_ne eq] at hz hy
        exact sound z hz y hy
    · intro y hy
      dsimp only at hy
      rw [Function.update_self] at hy
      exact rebuilt y hy

/-- How many groups the current query has visited. -/
def PathCache.visitedCount (n : ℕ) (c : PathCache) : ℕ :=
  ((Finset.range n).filter fun x => c.gen x = c.curGen).card

theorem visitedCount_visit {x : ℕ} (hx : x < n) (fresh : c.gen x ≠ c.curGen) (g : Groups) :
    (gsn g { c with gen := Function.update c.gen x c.curGen } x).visitedCount n =
      c.visitedCount n + 1 := by
  unfold PathCache.visitedCount
  rw [gsn_gen, gsn_curGen]
  dsimp only
  have grown : ((Finset.range n).filter fun z => Function.update c.gen x c.curGen z = c.curGen) =
      insert x ((Finset.range n).filter fun z => c.gen z = c.curGen) := by
    ext z
    by_cases eq : z = x
    · subst eq
      simp [hx]
    · simp [eq]
  rw [grown, Finset.card_insert_of_notMem]
  exact fun mem => fresh (Finset.mem_filter.mp mem).2

theorem visitedCount_lt {x : ℕ} (hx : x < n) (fresh : c.gen x ≠ c.curGen) : c.visitedCount n < n := by
  have sub : (Finset.range n).filter (fun z => c.gen z = c.curGen) ⊂ Finset.range n := by
    refine Finset.filter_ssubset.mpr ⟨x, Finset.mem_range.mpr hx, fresh⟩
  have lt := Finset.card_lt_card sub
  rwa [Finset.card_range] at lt

/-- A positive answer comes from a path: the cap on the visits is out of reach. -/
theorem search_sound (closed : LiveClosed n g) (small : n ≤ visitCap) (target visits : ℕ)
    (pathSt : List ℕ) (c : PathCache) (sound : ListsSound g c)
    (live : ∀ x ∈ pathSt, g.Live n x) (count : visits = c.visitedCount n) :
    ListsSound g (search g target visits pathSt c).2 ∧
      ((search g target visits pathSt c).1 = true → ∃ x ∈ pathSt, g.Reaches x target) := by
  fun_induction search g target visits pathSt c with
  | case1 visits c => exact ⟨sound, fun h => by cases h⟩
  | case2 visits c pathSt => exact ⟨sound, fun _ => ⟨_, List.mem_cons_self, .refl⟩⟩
  | case3 visits c x pathSt ne visited ih =>
    obtain ⟨lists, found⟩ := ih sound (fun y hy => live y (List.mem_cons_of_mem _ hy)) count
    refine ⟨lists, fun h => ?_⟩
    obtain ⟨y, hy, path⟩ := found h
    exact ⟨y, List.mem_cons_of_mem _ hy, path⟩
  | case4 visits c x pathSt ne fresh c1 cap =>
    have lt := visitedCount_lt (live x List.mem_cons_self).1 fresh
    omega
  | case5 visits c x pathSt ne fresh c1 cap c2 found =>
    obtain ⟨lists, listed⟩ := gsn_sound (c := c1) sound x
    exact ⟨lists, fun _ => ⟨x, List.mem_cons_self, .single (listed target found).1⟩⟩
  | case6 visits c x pathSt ne fresh c1 cap c2 notFound ih =>
    obtain ⟨lists, listed⟩ := gsn_sound (c := c1) sound x
    have pushed : (c2.gSN x).attach.reverse.unattach = (c2.gSN x).reverse := by simp
    rw [pushed] at ih
    have liveX := live x List.mem_cons_self
    have live2 : ∀ y ∈ (c2.gSN x).reverse ++ pathSt, g.Live n y := by
      intro y hy
      rcases List.mem_append.mp hy with new | old
      · exact closed x liveX y (listed y (List.mem_reverse.mp new)).1
      · exact live y (List.mem_cons_of_mem _ old)
    have count2 : visits + 1 = c2.visitedCount n := by
      rw [count]
      exact (visitedCount_visit liveX.1 fresh g).symm
    obtain ⟨lists2, found⟩ := ih lists live2 count2
    refine ⟨lists2, fun h => ?_⟩
    obtain ⟨y, hy, path⟩ := found h
    rcases List.mem_append.mp hy with new | old
    · exact ⟨x, List.mem_cons_self, path.head (listed y (List.mem_reverse.mp new)).1⟩
    · exact ⟨y, List.mem_cons_of_mem _ old, path⟩

/-! ## `pathExists` -/

/-- The caches at the start of a search. -/
theorem ExactLists.nextGen (exact : ExactLists g c) :
    ExactLists g { c with curGen := c.curGen + 1 } ∧
      PathCache.visitedCount n { c with curGen := c.curGen + 1 } = 0 := by
  refine ⟨⟨⟨exact.epoch_pos, exact.epoch_le, exact.cached, ?_⟩, exact.sound⟩, ?_⟩
  · exact fun x => (exact.tags x).trans (Nat.le_succ _)
  · refine Finset.card_eq_zero.mpr (Finset.filter_eq_empty_iff.mpr fun x _ => ?_)
    have := exact.tags x
    dsimp only
    omega

/-- What a query leaves behind: its answer is that of the graph, and is all it remembers. -/
structure ExactAnswer (g : Groups) (c : PathCache) (frm target : ℕ) (r : Bool × PathCache) :
    Prop where
  lists : ExactLists g r.2
  answer : r.1 = true ↔ g.Reaches frm target
  own : ∀ answer, r.2.pathMemo (frm, target) = some answer → (answer = true ↔ g.Reaches frm target)
  others : ∀ key, key ≠ (frm, target) → r.2.pathMemo key = c.pathMemo key

theorem pathExists_exact (closed : LiveClosed n g) (small : n ≤ visitCap) (exact : ExactLists g c)
    {frm target : ℕ} (live : g.Live n frm) (root : g.find target = target)
    (memo : ∀ answer, c.pathMemo (frm, target) = some answer →
      (answer = true ↔ g.Reaches frm target)) :
    ExactAnswer g c frm target (pathExists g c frm target) := by
  unfold pathExists
  simp only [live.2, root]
  by_cases same : frm = target
  · rw [if_pos same]
    exact ⟨exact, ⟨fun _ => same ▸ .refl, fun _ => rfl⟩, memo, fun _ _ => rfl⟩
  · rw [if_neg same]
    cases known : c.pathMemo (frm, target) with
    | some answer => exact ⟨exact, memo answer known, memo, fun _ _ => rfl⟩
    | none =>
      obtain ⟨exact1, unvisited⟩ := exact.nextGen (n := n)
      have fresh : ∀ x, ¬ ({ c with curGen := c.curGen + 1 } : PathCache).Visited x := by
        intro x visited
        have := exact.tags x
        have eq : c.gen x = c.curGen + 1 := visited
        omega
      have start : ∀ x ∈ [frm], g.Live n x := by
        intro x hx
        exact List.mem_singleton.mp hx ▸ live
      obtain ⟨lists, keeps, exhausted⟩ :=
        search_lists (covers_rawEdge g) target 0 [frm] _ exact1.toListsInv
      obtain ⟨sound, found⟩ :=
        search_sound closed small target 0 [frm] _ exact1.sound start unvisited.symm
      cases result : search g target 0 [frm] { c with curGen := c.curGen + 1 } with
      | mk reachable c1 =>
        rw [result] at lists keeps exhausted sound found
        have memo1 : c1.pathMemo = c.pathMemo := keeps.pathMemo
        have answer : reachable = true ↔ g.Reaches frm target := by
          constructor
          · intro h
            obtain ⟨x, hx, path⟩ := found h
            exact List.mem_singleton.mp hx ▸ path
          · intro path
            by_contra negative
            have all := exhausted (by simpa using negative)
            exact all.noPath fresh (path.transGen same)
        refine ⟨⟨⟨lists.epoch_pos, lists.epoch_le, lists.cached, lists.tags⟩, sound⟩, answer, ?_, ?_⟩
        · intro remembered h
          dsimp only at h
          rw [Function.update_self] at h
          exact Option.some.inj h ▸ answer
        · intro key ne
          dsimp only
          rw [Function.update_of_ne ne, memo1]

end Search

/-! ## The queries of a turn -/

/-- One call of `pathExists`. -/
structure PathQuery where
  groups : Groups
  cache : PathCache
  frm : ℕ
  target : ℕ

def PathQuery.run (q : PathQuery) : Bool × PathCache := pathExists q.groups q.cache q.frm q.target

/-- The calls that `mayMerge` makes. -/
def mayMergeQueries (g : Groups) (c : PathCache) (a b : ℕ) (sibling : Bool) : List PathQuery :=
  if sibling then
    if relContains (g.gS a) b || relContains (g.gS b) a then []
    else
      let forth : PathQuery := ⟨g, c, a, b⟩
      if forth.run.1 then [forth] else [forth, ⟨g, forth.run.2, b, a⟩]
  else if !relContains (g.gS a) b then []
  else [⟨g.eraseEdge a b, c.dropList a, a, b⟩]

/-- A pair may be merged when there was something to ask and every answer was negative. -/
theorem mayMerge_iff_queries (g : Groups) (c : PathCache) (a b : ℕ) (sibling : Bool) :
    (mayMerge g c a b sibling).1 = true ↔ mayMergeQueries g c a b sibling ≠ [] ∧
      ∀ q ∈ mayMergeQueries g c a b sibling, q.run.1 = false := by
  unfold mayMerge mayMergeQueries
  cases sibling with
  | true =>
    simp only [if_true]
    by_cases adjacent : (relContains (g.gS a) b || relContains (g.gS b) a) = true
    · simp [adjacent]
    · rw [if_neg adjacent, if_neg adjacent]
      cases ab : (pathExists g c a b).1 with
      | true => simp [PathQuery.run, ab]
      | false => simp [PathQuery.run, ab]
  | false =>
    simp only [Bool.false_eq_true, if_false]
    by_cases listed : relContains (g.gS a) b = true
    · simp only [listed, Bool.not_true, Bool.false_eq_true, if_false]
      cases ab : (pathExists (g.eraseEdge a b) (c.dropList a) a b).1 with
      | true => simp [PathQuery.run, ab]
      | false => simp [PathQuery.run, ab]
    · simp [listed]

/-- The calls of one turn of the loop. -/
def stepQueries {κ : Type} (P : MergeParams κ) (s : MergeState κ) (pick : ℕ) : List PathQuery :=
  if s.finished P then []
  else
    match s.pq[pick % s.pq.length]? with
    | none => []
    | some cand =>
      let a := s.groups.find cand.a
      let b := s.groups.find cand.b
      if a = b ∨ ¬ pairable P s.groups a b then []
      else if P.propagateCp ∧
          P.scoring.candidateScore s.groups s.cp a b cand.sibling ≠ cand.score then []
      else mayMergeQueries s.groups s.paths a b cand.sibling

/-! ## What the caches hold between turns -/

/-- The graph a pair is looked at in: without its own edge, if it has one. -/
def Groups.asked (g : Groups) (src dst : ℕ) : Groups :=
  if dst ∈ g.gS src then g.eraseEdge src dst else g

structure ExactPaths (g : Groups) (c : PathCache) : Prop extends ExactLists g c where
  memo : ∀ src dst answer, c.pathMemo (src, dst) = some answer →
    (answer = true ↔ (g.asked src dst).Reaches src dst)

theorem ExactPaths.initial (g : Groups) : ExactPaths g PathCache.initial where
  epoch_pos := le_refl 1
  epoch_le _ := Nat.zero_le 1
  cached _ h := absurd h Nat.zero_ne_one
  tags _ := le_refl 0
  sound _ h := absurd h Nat.zero_ne_one
  memo _ _ _ h := by cases h

/-- A merge leaves nothing behind that could be stale. -/
theorem PathInv.forget_exact {E : ℕ → ℕ → Prop} {c : PathCache} (inv : PathInv E c) (g : Groups) :
    ExactPaths g { c with pathMemo := fun _ => none, pathEpoch := c.pathEpoch + 1 } := by
  have stale : ∀ x, c.gsnEpoch x ≠ c.pathEpoch + 1 := by
    intro x eq
    have := inv.epoch_le x
    omega
  refine ⟨⟨⟨Nat.le_add_left 1 _, ?_, ?_, inv.tags⟩, ?_⟩, ?_⟩
  · exact fun x => (inv.epoch_le x).trans (Nat.le_succ _)
  · exact fun x h => absurd h (stale x)
  · exact fun x h => absurd h (stale x)
  · intro src dst answer h
    cases h

/-- Dropping the list of `a` carries the other lists over to a graph that differs at `a` only. -/
theorem ExactLists.dropList {g g' : Groups} {c : PathCache} {a : ℕ} (exact : ExactLists g c)
    (same : ∀ x, x ≠ a → g'.resolved x = g.resolved x) : ExactLists g' (c.dropList a) := by
  have edges : ∀ x, x ≠ a → ∀ y, g'.RawEdge x y ↔ g.RawEdge x y := by
    intro x hx y
    unfold Groups.RawEdge
    rw [same x hx]
  have current : ∀ x, (c.dropList a).gsnEpoch x = (c.dropList a).pathEpoch →
      x ≠ a ∧ c.gsnEpoch x = c.pathEpoch := by
    intro x hx
    have pos := exact.epoch_pos
    simp only [PathCache.dropList] at hx
    by_cases eq : x = a
    · rw [eq, Function.update_self] at hx
      omega
    · rw [Function.update_of_ne eq] at hx
      exact ⟨eq, hx⟩
  refine ⟨⟨exact.epoch_pos, ?_, ?_, exact.tags⟩, ?_⟩
  · intro x
    simp only [PathCache.dropList]
    by_cases eq : x = a
    · rw [eq, Function.update_self]
      exact Nat.zero_le _
    · rw [Function.update_of_ne eq]
      exact exact.epoch_le x
  · intro x hx y edge
    obtain ⟨ne, hx⟩ := current x hx
    exact exact.cached x hx y ((edges x ne y).mp edge)
  · intro x hx y hy
    obtain ⟨ne, hx⟩ := current x hx
    exact (edges x ne y).mpr (exact.sound x hx y hy)

theorem resolved_eraseEdge (g : Groups) {a b x : ℕ} (ne : x ≠ a) :
    (g.eraseEdge a b).resolved x = g.resolved x := by
  unfold Groups.resolved Groups.eraseEdge
  dsimp only
  rw [Function.update_of_ne ne]

/-- The answer of a query becomes part of what is remembered. -/
theorem ExactAnswer.paths {g asked : Groups} {c : PathCache} {frm target : ℕ}
    {r : Bool × PathCache} (answered : ExactAnswer asked c frm target r)
    (eq : g.asked frm target = asked)
    (memo : ∀ src dst answer, c.pathMemo (src, dst) = some answer →
      (answer = true ↔ (g.asked src dst).Reaches src dst)) :
    ∀ src dst answer, r.2.pathMemo (src, dst) = some answer →
      (answer = true ↔ (g.asked src dst).Reaches src dst) := by
  intro src dst answer h
  by_cases key : (src, dst) = (frm, target)
  · obtain ⟨rfl, rfl⟩ := Prod.mk.inj key
    rw [eq]
    exact answered.own answer h
  · rw [answered.others _ key] at h
    exact memo src dst answer h

/-! ## A turn -/

/-- A query that is answered as the graph it is put to says; that graph lacks at most the edge
    that is being tried. -/
structure ExactQuery (S : SccSchedule) (g : Groups) (q : PathQuery) : Prop where
  closed : LiveClosed S.realN q.groups
  live : q.groups.Live S.realN q.frm
  target : q.groups.find q.target = q.target
  roots : ∀ x y, g.Dep S x y → q.groups.find y = y
  fresh : Fresh q.groups (Without (g.Dep S) q.frm q.target)
  answer : q.run.1 = true ↔ q.groups.Reaches q.frm q.target

theorem ExactQuery.eq_freshSearch {S : SccSchedule} {g : Groups} {q : PathQuery}
    (h : ExactQuery S g q) : q.run.1 = freshSearch S.realN q.groups q.frm q.target := by
  rw [Bool.eq_iff_iff, h.answer, freshSearch_iff h.closed h.live h.target]

theorem ExactQuery.noPath {S : SccSchedule} {g : Groups} {q : PathQuery} (h : ExactQuery S g q)
    (negative : q.run.1 = false) :
    ¬ TransGen (Without (g.Dep S) q.frm q.target) q.frm q.target := by
  intro path
  have reached : ∀ y, TransGen (Without (g.Dep S) q.frm q.target) q.frm y →
      q.groups.Reaches q.frm y := by
    have step : ∀ x y, Without (g.Dep S) q.frm q.target x y → y ∈ q.groups.resolved x := by
      intro x y edge
      exact List.mem_map.mpr ⟨y, (h.fresh x y edge).1, h.roots x y edge.1⟩
    intro y path
    induction path with
    | single edge => exact .single (step _ _ edge)
    | tail _ edge ih => exact ih.tail (step _ _ edge)
  rw [h.answer.mpr (reached q.target path)] at negative
  cases negative

section Turn

variable {S : SccSchedule} {cap : ℕ} {g : Groups} {c : PathCache} {a b : ℕ}

/-- A query about two groups without an edge between them. -/
theorem sibling_exact (inv : GroupsInv S cap g) (small : S.realN ≤ visitCap)
    (exact : ExactPaths g c) (live : g.Live S.realN a) (root : g.find b = b) (apart : b ∉ g.gS a) :
    ExactAnswer g c a b (pathExists g c a b) ∧ ExactPaths g (pathExists g c a b).2 := by
  have asked : g.asked a b = g := if_neg apart
  have answered : ExactAnswer g c a b (pathExists g c a b) := by
    refine pathExists_exact inv.liveClosed small exact.toExactLists live root ?_
    intro answer h
    have := exact.memo a b answer h
    rwa [asked] at this
  exact ⟨answered, answered.lists, answered.paths asked exact.memo⟩

/-- A query about an edge, which is taken out meanwhile. -/
theorem edge_exact (inv : GroupsInv S cap g) (small : S.realN ≤ visitCap)
    (exact : ExactPaths g c) (live : g.Live S.realN a) (root : g.find b = b) (edge : b ∈ g.gS a) :
    ExactAnswer (g.eraseEdge a b) (c.dropList a) a b
        (pathExists (g.eraseEdge a b) (c.dropList a) a b) ∧
      ExactPaths g ((pathExists (g.eraseEdge a b) (c.dropList a) a b).2.dropList a) := by
  have asked : g.asked a b = g.eraseEdge a b := if_pos edge
  have answered : ExactAnswer (g.eraseEdge a b) (c.dropList a) a b
      (pathExists (g.eraseEdge a b) (c.dropList a) a b) := by
    refine pathExists_exact (inv.toGroupsCore.eraseEdge a b).liveClosed small ?_ live root ?_
    · exact exact.toExactLists.dropList fun x ne => resolved_eraseEdge g ne
    · intro answer h
      have := exact.memo a b answer h
      rwa [asked] at this
  refine ⟨answered, ?_, answered.paths asked exact.memo⟩
  exact answered.lists.dropList fun x ne => (resolved_eraseEdge g ne).symm

theorem mem_of_relContains {v : List ℕ} {x : ℕ} : relContains v x = true ↔ x ∈ v := by
  simp [relContains]

theorem mayMergeQueries_exact (inv : GroupsInv S cap g) (small : S.realN ≤ visitCap)
    (exact : ExactPaths g c) (liveA : g.Live S.realN a) (liveB : g.Live S.realN b)
    (sibling : Bool) : ∀ q ∈ mayMergeQueries g c a b sibling, ExactQuery S g q := by
  have roots : ∀ x y, g.Dep S x y → g.find y = y := fun x y edge => (edge.roots inv.idem).2
  unfold mayMergeQueries
  cases sibling with
  | true =>
    simp only [if_true]
    by_cases adjacent : (relContains (g.gS a) b || relContains (g.gS b) a) = true
    · rw [if_pos adjacent]
      exact fun q hq => absurd hq List.not_mem_nil
    · rw [if_neg adjacent]
      simp only [Bool.or_eq_true, mem_of_relContains, not_or] at adjacent
      obtain ⟨first, kept⟩ := sibling_exact inv small exact liveA liveB.2 adjacent.1
      have forth : ExactQuery S g ⟨g, c, a, b⟩ :=
        ⟨inv.liveClosed, liveA, liveB.2, roots, fun r s h => inv.fresh r s h.1, first.answer⟩
      obtain ⟨second, -⟩ := sibling_exact inv small kept liveB liveA.2 adjacent.2
      have back : ExactQuery S g ⟨g, (PathQuery.mk g c a b).run.2, b, a⟩ :=
        ⟨inv.liveClosed, liveB, liveA.2, roots, fun r s h => inv.fresh r s h.1, second.answer⟩
      intro q hq
      split at hq
      · rcases List.mem_singleton.mp hq with rfl
        exact forth
      · rcases List.mem_cons.mp hq with rfl | hq
        · exact forth
        · rcases List.mem_singleton.mp hq with rfl
          exact back
  | false =>
    simp only [Bool.false_eq_true, if_false]
    by_cases listed : relContains (g.gS a) b = true
    · simp only [listed, Bool.not_true, Bool.false_eq_true, if_false]
      intro q hq
      rcases List.mem_singleton.mp hq with rfl
      obtain ⟨answered, -⟩ :=
        edge_exact inv small exact liveA liveB.2 (mem_of_relContains.mp listed)
      exact ⟨(inv.toGroupsCore.eraseEdge a b).liveClosed, liveA, liveB.2, roots,
        inv.eraseEdge_fresh a b, answered.answer⟩
    · simp only [listed, Bool.not_false, if_true]
      exact fun q hq => absurd hq List.not_mem_nil

/-- A rejected pair leaves the caches exact. -/
theorem mayMerge_exact (inv : GroupsInv S cap g) (small : S.realN ≤ visitCap)
    (exact : ExactPaths g c) (liveA : g.Live S.realN a) (liveB : g.Live S.realN b)
    (sibling : Bool) (rejected : (mayMerge g c a b sibling).1 = false) :
    ExactPaths g (mayMerge g c a b sibling).2.2 := by
  unfold mayMerge at rejected ⊢
  cases sibling with
  | true =>
    simp only [if_true] at rejected ⊢
    by_cases adjacent : (relContains (g.gS a) b || relContains (g.gS b) a) = true
    · rw [if_pos adjacent]
      exact exact
    · rw [if_neg adjacent] at rejected ⊢
      simp only [Bool.or_eq_true, mem_of_relContains, not_or] at adjacent
      obtain ⟨-, first⟩ := sibling_exact inv small exact liveA liveB.2 adjacent.1
      obtain ⟨-, second⟩ := sibling_exact inv small first liveB liveA.2 adjacent.2
      cases ab : (pathExists g c a b).1 with
      | true =>
        simp only [if_true]
        exact first
      | false =>
        simp only [Bool.false_eq_true, if_false]
        exact second
  | false =>
    simp only [Bool.false_eq_true, if_false] at rejected ⊢
    by_cases listed : relContains (g.gS a) b = true
    · simp only [listed, Bool.not_true, Bool.false_eq_true, if_false] at rejected ⊢
      obtain ⟨-, restored⟩ :=
        edge_exact inv small exact liveA liveB.2 (mem_of_relContains.mp listed)
      cases ab : (pathExists (g.eraseEdge a b) (c.dropList a) a b).1 with
      | true =>
        simp only [if_true]
        exact restored
      | false =>
        rw [ab] at rejected
        cases rejected
    · simp only [listed, Bool.not_false, if_true]
      exact exact

end Turn

/-! ## The loop -/

section Loop

variable {κ : Type} {P : MergeParams κ} {S : SccSchedule} {s : MergeState κ}

/-- The groups of a candidate are live. -/
theorem MergeInv.live (inv : MergeInv P S s) {cand : Cand} (mem : cand ∈ s.pq) :
    s.groups.Live S.realN (s.groups.find cand.a) ∧ s.groups.Live S.realN (s.groups.find cand.b) := by
  obtain ⟨inA, inB⟩ := inv.cands cand mem
  exact ⟨⟨inv.groups.range _ inA, inv.groups.idem _⟩, inv.groups.range _ inB, inv.groups.idem _⟩

theorem mergeCandidate_exact (small : S.realN ≤ visitCap) (inv : MergeInv P S s)
    (exact : ExactPaths s.groups s.paths) {cand : Cand} (mem : cand ∈ s.pq) (rest : List Cand) :
    ExactPaths (mergeCandidate P s cand rest).groups (mergeCandidate P s cand rest).paths := by
  obtain ⟨liveA, liveB⟩ := inv.live mem
  unfold mergeCandidate
  by_cases skip : s.groups.find cand.a = s.groups.find cand.b ∨
      ¬ pairable P s.groups (s.groups.find cand.a) (s.groups.find cand.b) = true
  · simp only [skip, if_true]
    exact exact
  · simp only [skip, if_false]
    obtain ⟨ne, -⟩ := not_or.mp skip
    split
    · exact exact
    · have checked := mayMerge_spec inv.groups inv.paths liveA.2 liveB.2 ne cand.sibling
      have kept := mayMerge_exact inv.groups small exact liveA liveB cand.sibling
      rcases result : mayMerge s.groups s.paths (s.groups.find cand.a) (s.groups.find cand.b)
        cand.sibling with ⟨ok, g, c⟩
      rw [result] at checked kept
      rcases checked with ⟨rfl, admitted⟩ | ⟨rfl, rfl, -⟩
      · obtain ⟨E, paths⟩ := admitted.paths
        exact paths.forget_exact _
      · exact kept rfl

theorem mergeStep_exact (small : S.realN ≤ visitCap) (inv : MergeInv P S s)
    (exact : ExactPaths s.groups s.paths) (pick : ℕ) :
    ExactPaths (mergeStep P s pick).groups (mergeStep P s pick).paths := by
  rcases mergeStep_cases (P := P) s pick with ⟨-, same⟩ | ⟨-, cand, rest, popped, eq⟩
  · rwa [same]
  · rw [eq]
    exact mergeCandidate_exact small inv exact (popped.mem_iff.mpr List.mem_cons_self) rest

theorem mergeLoop_exact (size : P.n = S.realN) (small : S.realN ≤ visitCap) (inv : MergeInv P S s)
    (exact : ExactPaths s.groups s.paths) (picks : List ℕ) :
    ExactPaths (mergeLoop P s picks).groups (mergeLoop P s picks).paths := by
  unfold mergeLoop
  induction picks generalizing s with
  | nil => exact exact
  | cons pick picks ih => exact ih (inv.step size pick) (mergeStep_exact small inv exact pick)

theorem stepQueries_exact (small : S.realN ≤ visitCap) (inv : MergeInv P S s)
    (exact : ExactPaths s.groups s.paths) (pick : ℕ) :
    ∀ q ∈ stepQueries P s pick, ExactQuery S s.groups q := by
  intro q hq
  unfold stepQueries at hq
  split at hq
  · cases hq
  · split at hq
    · cases hq
    · rename_i cand popped
      obtain ⟨liveA, liveB⟩ := inv.live (List.mem_of_getElem? popped)
      dsimp only at hq
      split at hq
      · cases hq
      · split at hq
        · cases hq
        · exact mayMergeQueries_exact inv.groups small exact liveA liveB cand.sibling q hq

end Loop

/-! ### The tags

A turn makes two searches at most.  So the tags of a run of fewer than `2 ^ 31` turns fit into
the 32 bits they have in the source. -/

section Tags

theorem search_curGen (g : Groups) (target visits : ℕ) (pathSt : List ℕ) (c : PathCache) :
    (search g target visits pathSt c).2.curGen = c.curGen := by
  fun_induction search g target visits pathSt c with
  | case1 visits c => rfl
  | case2 visits c pathSt => rfl
  | case3 visits c x pathSt ne visited ih => exact ih
  | case4 visits c x pathSt ne fresh c1 cap => rfl
  | case5 visits c x pathSt ne fresh c1 cap c2 found => exact gsn_curGen ..
  | case6 visits c x pathSt ne fresh c1 cap c2 notFound ih =>
    have pushed : (c2.gSN x).attach.reverse.unattach = (c2.gSN x).reverse := by simp
    rw [pushed] at ih
    exact ih.trans (gsn_curGen ..)

theorem pathExists_curGen (g : Groups) (c : PathCache) (frm target : ℕ) :
    (pathExists g c frm target).2.curGen ≤ c.curGen + 1 := by
  unfold pathExists
  dsimp only
  split
  · exact Nat.le_succ _
  · split
    · exact Nat.le_succ _
    · exact (search_curGen ..).le

theorem mayMerge_curGen (g : Groups) (c : PathCache) (a b : ℕ) (sibling : Bool) :
    (mayMerge g c a b sibling).2.2.curGen ≤ c.curGen + 2 := by
  have forth := pathExists_curGen g c a b
  have back := pathExists_curGen g (pathExists g c a b).2 b a
  have edge := pathExists_curGen (g.eraseEdge a b) (c.dropList a) a b
  have dropped : (c.dropList a).curGen = c.curGen := rfl
  unfold mayMerge
  dsimp only
  split
  · split
    · exact Nat.le_add_right _ 2
    · split
      · exact forth.trans (Nat.le_succ _)
      · exact back.trans (Nat.succ_le_succ forth)
  · split
    · exact Nat.le_add_right _ 2
    · split
      · show (pathExists (g.eraseEdge a b) (c.dropList a) a b).2.curGen ≤ _
        omega
      · dsimp only
        omega

variable {κ : Type} (P : MergeParams κ)

theorem mergeStep_curGen (s : MergeState κ) (pick : ℕ) :
    (mergeStep P s pick).paths.curGen ≤ s.paths.curGen + 2 := by
  rcases mergeStep_cases (P := P) s pick with ⟨-, same⟩ | ⟨-, cand, rest, -, eq⟩
  · rw [same]
    exact Nat.le_add_right _ 2
  · rw [eq]
    unfold mergeCandidate
    dsimp only
    split
    · exact Nat.le_add_right _ 2
    · split
      · exact Nat.le_add_right _ 2
      · have bound := mayMerge_curGen s.groups s.paths (s.groups.find cand.a)
          (s.groups.find cand.b) cand.sibling
        split
        · rename_i result
          rw [result] at bound
          exact bound
        · rename_i result
          rw [result] at bound
          exact bound

theorem mergeLoop_curGen (s : MergeState κ) (picks : List ℕ) :
    (mergeLoop P s picks).paths.curGen ≤ s.paths.curGen + 2 * picks.length := by
  unfold mergeLoop
  induction picks generalizing s with
  | nil => exact Nat.le_add_right _ _
  | cons pick picks ih =>
    have first := mergeStep_curGen P s pick
    have rest := ih (mergeStep P s pick)
    rw [List.foldl_cons, List.length_cons]
    omega

theorem contractionAfter_tags (S : SccSchedule) (threadCount : ℕ) (k : VContractKnobs)
    (scoring : Scoring κ) {picks : List ℕ} (short : picks.length < 2 ^ 31) :
    (contractionAfter S threadCount k scoring picks).paths.curGen < 2 ^ 32 ∧
      ∀ x, (contractionAfter S threadCount k scoring picks).paths.gen x < 2 ^ 32 := by
  let P := vcontractParams S threadCount k scoring
  have bound : (contractionAfter S threadCount k scoring picks).paths.curGen ≤
      0 + 2 * picks.length := mergeLoop_curGen P (MergeState.initial P S) picks
  have start : MergeInv P S (MergeState.initial P S) := MergeInv.initial rfl
  have inv : MergeInv P S (contractionAfter S threadCount k scoring picks) := start.loop rfl picks
  refine ⟨by omega, fun x => ?_⟩
  have tag := inv.paths.tags x
  omega

end Tags

/-- **Cached reachability is exact.**  After any turns of the merge loop, every call of
    `pathExists` in the next one answers as a fresh depth-first search over the raw lists does;
    a negative answer rules out every path but the direct edge. -/
theorem pathExists_eq_freshSearch {κ : Type} (S : SccSchedule) (small : S.realN < 500000)
    (threadCount : ℕ) (k : VContractKnobs) (scoring : Scoring κ) (picks : List ℕ) (pick : ℕ) :
    ∀ q ∈ stepQueries (vcontractParams S threadCount k scoring)
        (contractionAfter S threadCount k scoring picks) pick,
      (pathExists q.groups q.cache q.frm q.target).1 =
          freshSearch S.realN q.groups q.frm q.target ∧
        ((pathExists q.groups q.cache q.frm q.target).1 = false →
          ¬ TransGen (Without ((contractionAfter S threadCount k scoring picks).groups.Dep S)
            q.frm q.target) q.frm q.target) := by
  have start : MergeInv (vcontractParams S threadCount k scoring) S
      (MergeState.initial (vcontractParams S threadCount k scoring) S) := MergeInv.initial rfl
  have below : S.realN ≤ visitCap := small.le
  have inv : MergeInv (vcontractParams S threadCount k scoring) S
      (contractionAfter S threadCount k scoring picks) := start.loop rfl picks
  have exact : ExactPaths (contractionAfter S threadCount k scoring picks).groups
      (contractionAfter S threadCount k scoring picks).paths :=
    mergeLoop_exact rfl below start (ExactPaths.initial _) picks
  intro q hq
  have query := stepQueries_exact below inv exact pick q hq
  exact ⟨query.eq_freshSearch, query.noPath⟩

/-! ### Two ways from one SCC to another -/

/-- `0` leads to `2` directly and by way of `1`. -/
def triangleSccs : List MtDenseScc := [{ succSccs := [1, 2] }, { succSccs := [2] }, {}]

theorem triangle_forward :
    ∀ u, ∀ v ∈ succSccsOf triangleSccs u, v < triangleSccs.length → u ≤ v := by
  intro u v hv _
  have inside : ∀ u < 3, ∀ v ∈ succSccsOf triangleSccs u, u ≤ v := by decide
  by_cases small : u < 3
  · exact inside u small v hv
  · rw [succSccsOf, List.getD_eq_default _ _ (not_lt.mp small)] at hv
    cases hv

def triangle : SccSchedule := ⟨triangleSccs, [0, 1, 2], triangle_forward, List.Perm.refl _⟩

def triangleKnobs : VContractKnobs := { maxMT := some 2 }

/-- With the direct edge taken out the other way is found. -/
theorem pathExists_triangle :
    ∃ q ∈ stepQueries
        (vcontractParams triangle 1 triangleKnobs (CriticalPaths.scoring triangle false))
        (contractionAfter triangle 1 triangleKnobs (CriticalPaths.scoring triangle false) []) 1,
      q.frm = 0 ∧ q.target = 2 ∧ (pathExists q.groups q.cache q.frm q.target).1 = true := by
  let P := vcontractParams triangle 1 triangleKnobs (CriticalPaths.scoring triangle false)
  let s := contractionAfter triangle 1 triangleKnobs (CriticalPaths.scoring triangle false) []
  have queries : stepQueries P s 1 =
      [⟨s.groups.eraseEdge 0 2, s.paths.dropList 0, 0, 2⟩] := rfl
  have mem : ⟨s.groups.eraseEdge 0 2, s.paths.dropList 0, 0, 2⟩ ∈ stepQueries P s 1 := by
    rw [queries]
    exact List.mem_singleton_self _
  refine ⟨_, mem, rfl, rfl, ?_⟩
  have fresh : freshSearch 3 (s.groups.eraseEdge 0 2) 0 2 = true := by
    have find : (s.groups.eraseEdge 0 2).find = id := rfl
    have first : (s.groups.eraseEdge 0 2).resolved 0 = [1] := rfl
    have second : (s.groups.eraseEdge 0 2).resolved 1 = [2] := rfl
    simp [freshSearch, Worklist.dfs, find, first, second]
  exact (pathExists_eq_freshSearch triangle (by decide) 1 triangleKnobs
    (CriticalPaths.scoring triangle false) [] 1 _ mem).1.trans fresh

end Gsim
