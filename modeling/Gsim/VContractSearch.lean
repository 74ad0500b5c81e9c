/-
  Gsim/VContractSearch.lean
  =========================
  **A negative answer of `pathExists` can be trusted.**

  Only that direction matters: a positive answer rejects a merge.  The search is
  stated against any relation `E` that the neighbour lists cover, since the same
  caches serve the whole quotient graph and the quotient graph without the edge
  that is being tried.
-/
import Gsim.VContract

namespace Gsim

open SortedContainers GraphContraction Relation

/-- Every edge is found in the neighbour lists once `find` is applied to them. -/
def Covers (g : Groups) (E : ℕ → ℕ → Prop) : Prop :=
  ∀ x y, E x y → y ≠ x ∧ ∃ s ∈ g.gS x, g.find s = y

/-- What the caches promise about `E`. -/
structure PathInv (E : ℕ → ℕ → Prop) (c : PathCache) : Prop where
  epoch_pos : 1 ≤ c.pathEpoch
  epoch_le : ∀ x, c.gsnEpoch x ≤ c.pathEpoch
  /-- a list of the current epoch misses no edge -/
  cached : ∀ x, c.gsnEpoch x = c.pathEpoch → ∀ y, E x y → y ∈ c.gSN x
  tags : ∀ x, c.gen x ≤ c.curGen
  memo : ∀ src dst, c.pathMemo (src, dst) = some false → ¬ TransGen E src dst

theorem PathInv.initial (E : ℕ → ℕ → Prop) : PathInv E PathCache.initial where
  epoch_pos := le_refl 1
  epoch_le _ := Nat.zero_le 1
  cached _ h := absurd h Nat.zero_ne_one
  tags _ := le_refl 0
  memo _ _ h := by cases h

/-- The part of it that a search relies on; a search does not look at the memo. -/
structure ListsInv (E : ℕ → ℕ → Prop) (c : PathCache) : Prop where
  epoch_pos : 1 ≤ c.pathEpoch
  epoch_le : ∀ x, c.gsnEpoch x ≤ c.pathEpoch
  cached : ∀ x, c.gsnEpoch x = c.pathEpoch → ∀ y, E x y → y ∈ c.gSN x
  tags : ∀ x, c.gen x ≤ c.curGen

theorem PathInv.lists {E : ℕ → ℕ → Prop} {c : PathCache} (inv : PathInv E c) : ListsInv E c :=
  ⟨inv.epoch_pos, inv.epoch_le, inv.cached, inv.tags⟩

/-! ## Neighbour lists -/

section Gsn

variable {g : Groups} {E : ℕ → ℕ → Prop} {c : PathCache}

@[simp] theorem gsn_gen (g : Groups) (c : PathCache) (x : ℕ) : (gsn g c x).gen = c.gen := by
  unfold gsn
  split <;> rfl

@[simp] theorem gsn_curGen (g : Groups) (c : PathCache) (x : ℕ) :
    (gsn g c x).curGen = c.curGen := by
  unfold gsn
  split <;> rfl

@[simp] theorem gsn_pathMemo (g : Groups) (c : PathCache) (x : ℕ) :
    (gsn g c x).pathMemo = c.pathMemo := by
  unfold gsn
  split <;> rfl

@[simp] theorem gsn_pathEpoch (g : Groups) (c : PathCache) (x : ℕ) :
    (gsn g c x).pathEpoch = c.pathEpoch := by
  unfold gsn
  split <;> rfl

theorem gsn_lists (covers : Covers g E) (inv : ListsInv E c) (x : ℕ) :
    ListsInv E (gsn g c x) ∧ ∀ y, E x y → y ∈ (gsn g c x).gSN x := by
  unfold gsn
  by_cases current : c.gsnEpoch x = c.pathEpoch
  · rw [if_pos current]
    exact ⟨inv, inv.cached x current⟩
  · rw [if_neg current]
    have rebuilt : ∀ y, E x y → y ∈ (sortUnique ((g.gS x).map g.find)).filter (· ≠ x) := by
      intro y edge
      obtain ⟨ne, s, mem, rfl⟩ := covers x y edge
      simp only [List.mem_filter, mem_sortUnique, List.mem_map, decide_eq_true_eq]
      exact ⟨⟨s, mem, rfl⟩, ne⟩
    refine ⟨⟨inv.epoch_pos, ?_, ?_, inv.tags⟩, ?_⟩
    · intro z
      by_cases hz : z = x
      · simp [hz]
      · simp [hz, inv.epoch_le z]
    · intro z hz y edge
      by_cases eq : z = x
      · subst eq
        simpa using rebuilt y edge
      · simp only [Function.update_of_ne eq] at hz ⊢
        exact inv.cached z hz y edge
    · intro y edge
      simpa using rebuilt y edge

end Gsn

/-! ## The search -/

/-- Visited by the current query. -/
def PathCache.Visited (c : PathCache) (x : ℕ) : Prop := c.gen x = c.curGen

/-- What a search that ends without an answer has seen: everything on its stack, nothing that
    leads out again, and not the target. -/
structure Exhausted (E : ℕ → ℕ → Prop) (target : ℕ) (pathSt : List ℕ) (c c' : PathCache) : Prop where
  stack : ∀ x ∈ pathSt, c'.Visited x
  kept : ∀ x, c.Visited x → c'.Visited x
  closed : ∀ x, c'.Visited x → ¬ c.Visited x → x ≠ target ∧ ∀ y, E x y → c'.Visited y

/-- The visited vertices are closed under edges, so the target is out of reach. -/
theorem Exhausted.noPath {E : ℕ → ℕ → Prop} {src target : ℕ} {c c' : PathCache}
    (all : Exhausted E target [src] c c') (fresh : ∀ x, ¬ c.Visited x) :
    ¬ TransGen E src target := by
  intro path
  have visited : ∀ y, TransGen E src y → c'.Visited y := by
    intro y path
    induction path with
    | single edge => exact (all.closed src (all.stack src List.mem_cons_self) (fresh _)).2 _ edge
    | tail _ edge ih => exact (all.closed _ ih (fresh _)).2 _ edge
  exact (all.closed target (visited target path) (fresh _)).1 rfl

/-- The caches before and after. -/
structure SearchFrame (E : ℕ → ℕ → Prop) (c c' : PathCache) : Prop where
  inv : PathInv E c'
  pathMemo : c'.pathMemo = c.pathMemo
  curGen : c'.curGen = c.curGen
  pathEpoch : c'.pathEpoch = c.pathEpoch

/-- What a search leaves alone. -/
structure SearchKeeps (c c' : PathCache) : Prop where
  pathMemo : c'.pathMemo = c.pathMemo
  curGen : c'.curGen = c.curGen
  pathEpoch : c'.pathEpoch = c.pathEpoch

theorem ListsInv.visit {E : ℕ → ℕ → Prop} {c : PathCache} (inv : ListsInv E c) (x : ℕ) :
    ListsInv E { c with gen := Function.update c.gen x c.curGen } where
  epoch_pos := inv.epoch_pos
  epoch_le := inv.epoch_le
  cached := inv.cached
  tags z := by
    by_cases hz : z = x
    · simp [hz]
    · simp [hz, inv.tags z]

theorem search_lists {g : Groups} {E : ℕ → ℕ → Prop} (covers : Covers g E) (target visits : ℕ)
    (pathSt : List ℕ) (c : PathCache) (inv : ListsInv E c) :
    ListsInv E (search g target visits pathSt c).2 ∧
      SearchKeeps c (search g target visits pathSt c).2 ∧
      ((search g target visits pathSt c).1 = false →
        Exhausted E target pathSt c (search g target visits pathSt c).2) := by
  fun_induction search g target visits pathSt c with
  | case1 visits c =>
    refine ⟨inv, ⟨rfl, rfl, rfl⟩, fun _ => ⟨?_, fun _ h => h, fun _ h h' => absurd h h'⟩⟩
    exact fun x hx => absurd hx List.not_mem_nil
  | case2 visits c pathSt =>
    exact ⟨inv, ⟨rfl, rfl, rfl⟩, fun h => by cases h⟩
  | case3 visits c x pathSt ne visited ih =>
    obtain ⟨lists, keeps, exhausted⟩ := ih inv
    refine ⟨lists, keeps, fun h => ?_⟩
    have rest := exhausted h
    refine ⟨?_, rest.kept, rest.closed⟩
    intro y hy
    rcases List.mem_cons.mp hy with rfl | hy
    · exact rest.kept _ visited
    · exact rest.stack y hy
  | case4 visits c x pathSt ne fresh c1 cap =>
    exact ⟨inv.visit x, ⟨rfl, rfl, rfl⟩, fun h => by cases h⟩
  | case5 visits c x pathSt ne fresh c1 cap c2 found =>
    obtain ⟨inv2, -⟩ := gsn_lists covers (inv.visit x) x
    exact ⟨inv2, ⟨gsn_pathMemo .., gsn_curGen .., gsn_pathEpoch ..⟩, fun h => by cases h⟩
  | case6 visits c x pathSt ne fresh c1 cap c2 notFound ih =>
    obtain ⟨inv2, listed⟩ := gsn_lists covers (inv.visit x) x
    have pushed : (c2.gSN x).attach.reverse.unattach = (c2.gSN x).reverse := by simp
    rw [pushed] at ih
    obtain ⟨lists, keeps, exhausted⟩ := ih inv2
    have gen2 : c2.gen = Function.update c.gen x c.curGen := gsn_gen ..
    have curGen2 : c2.curGen = c.curGen := gsn_curGen ..
    refine ⟨lists, ⟨keeps.pathMemo.trans (gsn_pathMemo ..), keeps.curGen.trans curGen2,
      keeps.pathEpoch.trans (gsn_pathEpoch ..)⟩, fun h => ?_⟩
    have rest := exhausted h
    have xVisited : c2.Visited x := by
      unfold PathCache.Visited
      rw [gen2, curGen2, Function.update_self]
    have others : ∀ y, y ≠ x → (c2.Visited y ↔ c.Visited y) := by
      intro y hy
      unfold PathCache.Visited
      rw [gen2, curGen2, Function.update_of_ne hy]
    refine ⟨?_, ?_, ?_⟩
    · intro y hy
      rcases List.mem_cons.mp hy with rfl | hy
      · exact rest.kept _ xVisited
      · exact rest.stack y (List.mem_append_right _ hy)
    · intro y hy
      by_cases eq : y = x
      · exact eq ▸ rest.kept _ xVisited
      · exact rest.kept y ((others y eq).mpr hy)
    · intro y hy unvisited
      by_cases eq : y = x
      · subst eq
        refine ⟨ne, fun z edge => rest.stack z ?_⟩
        exact List.mem_append_left _ (List.mem_reverse.mpr (listed z edge))
      · exact rest.closed y hy fun h2 => unvisited ((others y eq).mp h2)

theorem search_spec {g : Groups} {E : ℕ → ℕ → Prop} (covers : Covers g E) (target visits : ℕ)
    (pathSt : List ℕ) (c : PathCache) (inv : PathInv E c) :
    SearchFrame E c (search g target visits pathSt c).2 ∧
      ((search g target visits pathSt c).1 = false →
        Exhausted E target pathSt c (search g target visits pathSt c).2) := by
  obtain ⟨lists, keeps, exhausted⟩ := search_lists covers target visits pathSt c inv.lists
  refine ⟨⟨⟨lists.epoch_pos, lists.epoch_le, lists.cached, lists.tags, ?_⟩, keeps.pathMemo,
    keeps.curGen, keeps.pathEpoch⟩, exhausted⟩
  intro src dst h
  rw [keeps.pathMemo] at h
  exact inv.memo src dst h

/-! ## `pathExists` -/

/-- What a query does: it keeps the caches right, answers `false` only when there is no path,
    and remembers no other `false` than its own. -/
structure PathExistsSpec (E : ℕ → ℕ → Prop) (src target : ℕ) (c : PathCache)
    (answer : Bool × PathCache) : Prop where
  inv : PathInv E answer.2
  none : answer.1 = false → ¬ TransGen E src target
  remembered : answer.1 = true → ∀ key, answer.2.pathMemo key = some false →
    c.pathMemo key = some false

theorem pathExists_spec {g : Groups} {E : ℕ → ℕ → Prop} (covers : Covers g E) {c : PathCache}
    (inv : PathInv E c) {frm target : ℕ} (hf : g.find frm = frm) (ht : g.find target = target) :
    PathExistsSpec E frm target c (pathExists g c frm target) := by
  unfold pathExists
  simp only [hf, ht]
  by_cases same : frm = target
  · rw [if_pos same]
    exact ⟨inv, (fun h => by cases h), fun _ _ h => h⟩
  · rw [if_neg same]
    cases known : c.pathMemo (frm, target) with
    | some answer =>
      refine ⟨inv, fun h => ?_, fun _ _ h => h⟩
      obtain rfl : answer = false := h
      exact inv.memo frm target known
    | none =>
      have inv1 : PathInv E { c with curGen := c.curGen + 1 } :=
        ⟨inv.epoch_pos, inv.epoch_le, inv.cached, fun x => (inv.tags x).trans (Nat.le_succ _),
          inv.memo⟩
      have fresh : ∀ x, ¬ ({ c with curGen := c.curGen + 1 } : PathCache).Visited x := by
        intro x visited
        have := inv.tags x
        have eq : c.gen x = c.curGen + 1 := visited
        omega
      obtain ⟨frame, exhausted⟩ := search_spec covers target 0 [frm] _ inv1
      cases found : search g target 0 [frm] { c with curGen := c.curGen + 1 } with
      | mk reachable c1 =>
        rw [found] at frame exhausted
        have memo1 : c1.pathMemo = c.pathMemo := frame.pathMemo
        have noPath : reachable = false → ¬ TransGen E frm target := by
          intro h
          exact (exhausted h).noPath fresh
        refine ⟨⟨frame.inv.epoch_pos, frame.inv.epoch_le, frame.inv.cached, frame.inv.tags, ?_⟩,
          noPath, ?_⟩
        · intro src dst h
          by_cases key : (src, dst) = (frm, target)
          · obtain ⟨rfl, rfl⟩ := Prod.mk.inj key
            simp only [Function.update_self, Option.some.injEq] at h
            exact noPath h
          · simp only [Function.update_of_ne key, memo1] at h
            exact inv.memo src dst h
        · intro positive key h
          by_cases eq : key = (frm, target)
          · simp only [eq, Function.update_self, Option.some.injEq] at h
            have positive : reachable = true := positive
            rw [h] at positive
            cases positive
          · simp only [Function.update_of_ne eq, memo1] at h
            exact h

/-! ## Changes of the graph -/

section Changes

variable {Q : ℕ → ℕ → Prop} {c c' : PathCache}

/-- Dropping the list of `a` makes the caches right for the graph without one edge of `a`. -/
theorem PathInv.erase (inv : PathInv Q c) (a b : ℕ) : PathInv (Without Q a b) (c.dropList a) where
  epoch_pos := inv.epoch_pos
  epoch_le x := by
    by_cases hx : x = a
    · simp [PathCache.dropList, hx]
    · simp [PathCache.dropList, hx, inv.epoch_le x]
  cached x hx y edge := by
    by_cases eq : x = a
    · subst eq
      have pos := inv.epoch_pos
      simp only [PathCache.dropList, Function.update_self] at hx
      omega
    · simp only [PathCache.dropList, Function.update_of_ne eq] at hx
      exact inv.cached x hx y edge.1
  tags := inv.tags
  memo src dst h path := inv.memo src dst h (TransGen.mono (fun _ _ h => h.1) _ _ path)

/-- Dropping it again makes them right for the restored graph. -/
theorem PathInv.restore {a b : ℕ} (inv : PathInv (Without Q a b) c') (old : PathInv Q c)
    (remembered : ∀ key, c'.pathMemo key = some false → c.pathMemo key = some false) :
    PathInv Q (c'.dropList a) where
  epoch_pos := inv.epoch_pos
  epoch_le x := by
    by_cases hx : x = a
    · simp [PathCache.dropList, hx]
    · simp [PathCache.dropList, hx, inv.epoch_le x]
  cached x hx y edge := by
    by_cases eq : x = a
    · subst eq
      have pos := inv.epoch_pos
      simp only [PathCache.dropList, Function.update_self] at hx
      omega
    · simp only [PathCache.dropList, Function.update_of_ne eq] at hx
      exact inv.cached x hx y (Without.of_ne edge eq)
  tags := inv.tags
  memo src dst h := old.memo src dst (remembered (src, dst) h)

/-- A merge makes everything stale at once. -/
theorem PathInv.forget {E : ℕ → ℕ → Prop} (inv : PathInv E c) :
    PathInv Q { c with pathMemo := fun _ => none, pathEpoch := c.pathEpoch + 1 } where
  epoch_pos := Nat.le_add_left 1 _
  epoch_le x := (inv.epoch_le x).trans (Nat.le_succ _)
  cached x hx := by
    have le := inv.epoch_le x
    have eq : c.gsnEpoch x = c.pathEpoch + 1 := hx
    omega
  tags := inv.tags
  memo _ _ h := by cases h

end Changes

end Gsim
