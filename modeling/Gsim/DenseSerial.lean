/-
  Gsim/DenseSerial.lean
  =====================
  **The dense schedule is a serialisation.**

  Both ways of forming MTasks fill them from a map that climbs along SCC edges
  (`Grouped`), and keep the SCCs of an MTask in `topoSccOrder`.  Any order of the
  MTasks that respects their edges then evaluates every task after the tasks it
  depends on (`Grouped.eval_pairwise`): tasks of one SCC by `cppId`, SCCs of one
  MTask by the layers, MTasks by their edges.  The list scheduler produces such an
  order, so its renumbering leaves the edges climbing.
-/
import Gsim.DenseSchedule

namespace Gsim

open SortedContainers GraphContraction

/-! ## Cutting the order -/

section Chunks

variable (S : SccSchedule) (preserve : Bool)

theorem flatten_flushCurrent (mtasks : List (List ℕ)) (current : List ℕ) :
    (flushCurrent mtasks current).flatten = mtasks.flatten ++ current := by
  unfold flushCurrent
  split
  · rename_i empty
    rw [empty, List.append_nil]
  · rw [List.flatten_append, List.flatten_singleton]

theorem flushCurrent_ne_nil {mtasks : List (List ℕ)} {current : List ℕ}
    (h : ∀ m ∈ mtasks, m ≠ []) : ∀ m ∈ flushCurrent mtasks current, m ≠ [] := by
  intro m hm
  unfold flushCurrent at hm
  split at hm
  · exact h m hm
  · rename_i some_
    rcases List.mem_append.mp hm with hm | hm
    · exact h m hm
    · exact List.mem_singleton.mp hm ▸ some_

/-- Nothing is lost or reordered while MTasks are filled. -/
theorem foldl_fillMTask (order : List ℕ) (acc : List (List ℕ) × List ℕ) (h : ∀ m ∈ acc.1, m ≠ []) :
    (order.foldl (fillMTask S preserve) acc).1.flatten ++ (order.foldl (fillMTask S preserve) acc).2 =
      acc.1.flatten ++ acc.2 ++ order ∧
    ∀ m ∈ (order.foldl (fillMTask S preserve) acc).1, m ≠ [] := by
  induction order generalizing acc with
  | nil => exact ⟨by simp, h⟩
  | cons sccId order ih =>
    rw [List.foldl_cons]
    by_cases closes : closesMTask S preserve acc.2 sccId = true
    · have step : fillMTask S preserve acc sccId = (flushCurrent acc.1 acc.2, [sccId]) :=
        if_pos closes
      rw [step]
      obtain ⟨flat, nonempty⟩ := ih (flushCurrent acc.1 acc.2, [sccId]) (flushCurrent_ne_nil h)
      refine ⟨flat.trans ?_, nonempty⟩
      rw [flatten_flushCurrent]
      simp
    · have step : fillMTask S preserve acc sccId = (acc.1, acc.2 ++ [sccId]) := if_neg closes
      rw [step]
      obtain ⟨flat, nonempty⟩ := ih (acc.1, acc.2 ++ [sccId]) h
      refine ⟨flat.trans ?_, nonempty⟩
      simp

theorem chunkSccIds_flatten : (chunkSccIds S preserve).flatten = S.topoSccOrder := by
  have flat := (foldl_fillMTask S preserve S.topoSccOrder ([], []) (by simp)).1
  exact (flatten_flushCurrent _ _).trans (by simpa using flat)

theorem chunkSccIds_ne_nil : ∀ sccIds ∈ chunkSccIds S preserve, sccIds ≠ [] :=
  flushCurrent_ne_nil (foldl_fillMTask S preserve S.topoSccOrder ([], []) (by simp)).2

theorem filter_flatten {segs : List (List ℕ)} {m : ℕ} {p : ℕ → Bool} (hm : m < segs.length)
    (own : ∀ x ∈ segs.getD m [], p x = true)
    (others : ∀ j, j ≠ m → ∀ x ∈ segs.getD j [], p x = false) :
    segs.flatten.filter p = segs.getD m [] := by
  induction segs generalizing m with
  | nil => cases hm
  | cons seg segs ih =>
    rw [List.flatten_cons, List.filter_append]
    cases m with
    | zero =>
      have rest : segs.flatten.filter p = [] := by
        refine List.filter_eq_nil_iff.mpr fun x hx => ?_
        obtain ⟨seg', hseg, hx⟩ := List.mem_flatten.mp hx
        obtain ⟨j, hj, rfl⟩ := List.getElem_of_mem hseg
        have := others (j + 1) (Nat.succ_ne_zero j) x (by
          rwa [List.getD_cons_succ, List.getD_eq_getElem _ _ hj])
        simp [this]
      have self : seg.filter p = seg := List.filter_eq_self.mpr own
      rw [rest, self, List.append_nil]
      rfl
    | succ m =>
      have none : seg.filter p = [] := by
        refine List.filter_eq_nil_iff.mpr fun x hx => ?_
        simp [others 0 (Nat.succ_ne_zero m).symm x hx]
      rw [none, List.nil_append, List.getD_cons_succ]
      refine ih (Nat.lt_of_succ_lt_succ hm) own fun j ne x hx => ?_
      exact others (j + 1) (fun eq => ne (Nat.succ_injective eq)) x hx

variable {S preserve}

theorem chunkOf_eq_some {s m : ℕ} :
    chunkOf S preserve s = some m ↔ s ∈ (chunkSccIds S preserve).getD m [] := by
  have nodup : (chunkSccIds S preserve).flatten.Nodup := by
    rw [chunkSccIds_flatten]
    exact S.complete.nodup_iff.mpr List.nodup_range
  have disjoint := List.pairwise_iff_getElem.mp (List.nodup_flatten.mp nodup).2
  unfold chunkOf
  rw [List.findIdx?_eq_some_iff_getElem]
  constructor
  · rintro ⟨hm, mem, -⟩
    rw [List.getD_eq_getElem _ _ hm]
    simpa using mem
  · intro mem
    have hm : m < (chunkSccIds S preserve).length := by
      by_contra ge
      rw [List.getD_eq_default _ _ (not_lt.mp ge)] at mem
      cases mem
    rw [List.getD_eq_getElem _ _ hm] at mem
    refine ⟨hm, by simpa using mem, ?_⟩
    intro j lt
    simp only [decide_eq_true_eq]
    exact fun other => disjoint j m (lt.trans hm) hm lt other mem

theorem mtBuildDenseMTasks_grouped (layered : Layered S) :
    Grouped S (chunkOf S preserve) (mtBuildDenseMTasks S preserve) := by
  have length : (mtBuildDenseMTasks S preserve).length = (chunkSccIds S preserve).length := by
    simp [mtBuildDenseMTasks]
  have getD : ∀ m, m < (chunkSccIds S preserve).length →
      (mtBuildDenseMTasks S preserve).getD m {} =
        { mtaskOfSccs S (crossEdges S.sccs (chunkOf S preserve)) m
            ((chunkSccIds S preserve).getD m []) with schedCost := 0 } := by
    intro m hm
    have hm' := hm
    rw [← length] at hm'
    rw [List.getD_eq_getElem _ _ hm', List.getD_eq_getElem _ _ hm]
    simp [mtBuildDenseMTasks]
  refine ⟨?_, ?_, ?_, ?_, ?_, ?_⟩
  · intro s hs
    have mem : s ∈ (chunkSccIds S preserve).flatten := by
      rw [chunkSccIds_flatten]
      exact S.complete.mem_iff.mpr (List.mem_range.mpr hs)
    obtain ⟨seg, hseg, hs⟩ := List.mem_flatten.mp mem
    obtain ⟨m, hm, rfl⟩ := List.getElem_of_mem hseg
    refine ⟨m, length ▸ hm, chunkOf_eq_some.mpr ?_⟩
    rwa [List.getD_eq_getElem _ _ hm]
  · intro m hm
    rw [length] at hm
    rw [sccIdsOf, getD m hm, ← chunkSccIds_flatten S preserve]
    refine (filter_flatten hm ?_ ?_).symm
    · intro s hs
      rw [decide_eq_true_eq]
      exact chunkOf_eq_some.mpr hs
    · intro j ne s hs
      rw [decide_eq_false_iff_not, chunkOf_eq_some.mpr hs]
      exact fun eq => ne (Option.some.inj eq)
  · intro m hm
    rw [length] at hm
    rw [sccIdsOf, getD m hm]
    refine chunkSccIds_ne_nil S preserve _ ?_
    rw [List.getD_eq_getElem _ _ hm]
    exact List.getElem_mem hm
  · intro m hm
    rw [length] at hm
    rw [predsOf, getD m hm]
    rfl
  · intro m hm
    rw [length] at hm
    rw [succsOf, getD m hm]
    rfl
  · intro i j edge
    obtain ⟨u, v, -, -, uv, hi, hj, ne⟩ := mem_crossEdges.mp edge
    have hu := chunkOf_eq_some.mp hi
    have hv := chunkOf_eq_some.mp hj
    by_contra le
    have lt : j < i := lt_of_le_of_ne (not_lt.mp le) ne
    -- the piece of `v` would come before the piece of `u`
    have sorted : (chunkSccIds S preserve).flatten.Pairwise fun a b => a ∉ succSccsOf S.sccs b := by
      rw [chunkSccIds_flatten]
      exact layered
    have pieces := List.pairwise_iff_getElem.mp (List.pairwise_flatten.mp sorted).2
    have bound : i < (chunkSccIds S preserve).length := by
      by_contra ge
      rw [List.getD_eq_default _ _ (not_lt.mp ge)] at hu
      cases hu
    rw [List.getD_eq_getElem _ _ bound] at hu
    rw [List.getD_eq_getElem _ _ (lt.trans bound)] at hv
    exact pieces j i (lt.trans bound) bound lt v hv u hu uv

end Chunks

/-! ## Contraction -/

theorem contract_grouped {κ : Type} {S : SccSchedule} {threadCount : ℕ} {k : VContractKnobs}
    {scoring : Scoring κ} (picks : List ℕ) :
    ∃ mtasks groupOf, mtBuildDenseMTasksVerilatorContract S threadCount k scoring picks = some mtasks ∧
      Grouped S groupOf mtasks := by
  have start : MergeInv (vcontractParams S threadCount k scoring) S
      (MergeState.initial (vcontractParams S threadCount k scoring) S) := MergeInv.initial rfl
  have inv : MergeInv (vcontractParams S threadCount k scoring) S
    (contractionAfter S threadCount k scoring picks) := start.loop rfl picks
  have made := materialize_eq inv.groups.acyclic
  unfold mtBuildDenseMTasksVerilatorContract
  by_cases empty : S.realN = 0
  · rw [if_pos empty]
    refine ⟨[], fun _ => none, rfl, ?_⟩
    refine ⟨?_, ?_, ?_, ?_, ?_, ?_⟩
    · intro s hs
      omega
    all_goals simp [crossEdges]
  · rw [if_neg empty]
    exact ⟨_, _, made, materialize_grouped inv.groups.acyclic made⟩

/-- Either builder. -/
theorem buildMTasks_grouped {S : SccSchedule} (layered : Layered S) (threadCount : ℕ)
    (builder : MTaskBuilder) :
    ∃ mtasks groupOf, buildMTasks S threadCount builder = some mtasks ∧
      Grouped S groupOf mtasks := by
  cases builder with
  | contract k edgeCpWithout picks => exact contract_grouped picks
  | chunks preserve => exact ⟨_, _, rfl, mtBuildDenseMTasks_grouped layered⟩

/-! ## The order of evaluation -/

/-- The tasks when the MTasks run in the given order. -/
def tasksOf (sccs : List MtDenseScc) (mtasks : List MtDenseMTask) (order : List ℕ) : List ℕ :=
  order.flatMap fun m => (sccIdsOf mtasks m).flatMap (cppIdsOf sccs)

namespace Grouped

variable {S : SccSchedule} {groupOf : ℕ → Option ℕ} {mtasks : List MtDenseMTask}
  (g : Grouped S groupOf mtasks) {n : ℕ} {succ : ℕ → List ℕ} (h : SccsOf n succ S.sccs)

include g in
theorem succs_isGraph : Kahn.IsGraph mtasks.length (succsOf mtasks) := by
  refine ⟨?_, ?_⟩
  · intro i _ j hj
    obtain ⟨u, v, -, hv, -, -, hj, -⟩ := mem_crossEdges.mp (g.mem_succsOf.mp hj)
    obtain ⟨m, hm, eq⟩ := g.total v hv
    cases hj.symm.trans eq
    exact hm
  · intro i hi
    rw [g.succs i hi]
    exact sortUnique_nodup _

include g in
theorem preds_counted (j : ℕ) (hj : j < mtasks.length) :
    (predsOf mtasks j).length = Kahn.missing mtasks.length (succsOf mtasks) [] j := by
  refine Kahn.length_eq_missing ?_ fun i => ?_
  · rw [g.preds j hj]
    exact sortUnique_nodup _
  · rw [g.mem_predsOf, g.mem_succsOf]
    exact ⟨fun edge => ⟨(g.climbs i j edge).trans hj, edge⟩, fun edge => edge.2⟩

include g in
theorem acyclic : Acyclic fun i j => i < mtasks.length ∧ j ∈ succsOf mtasks i := by
  have climbs : ∀ i j, Relation.TransGen (fun i j => i < mtasks.length ∧ j ∈ succsOf mtasks i) i j →
      i < j := by
    intro i j path
    induction path with
    | single edge => exact g.climbs i _ (g.mem_succsOf.mp edge.2)
    | tail _ edge ih => exact ih.trans (g.climbs _ _ (g.mem_succsOf.mp edge.2))
  exact fun i cycle => (climbs i i cycle).false

include g h in
theorem tasksOf_perm {order : List ℕ} (perm : order.Perm (List.range mtasks.length)) :
    (tasksOf S.sccs mtasks order).Perm (List.range n) := by
  calc (tasksOf S.sccs mtasks order).Perm (tasksOf S.sccs mtasks (List.range mtasks.length)) :=
        perm.flatMap_right _
    _ |>.Perm ((mtasks.flatMap (·.sccIds)).flatMap (cppIdsOf S.sccs)) := by
        rw [tasksOf, ← List.flatMap_assoc, ← flatMap_sccIdsOf]
    _ |>.Perm ((List.range S.realN).flatMap (cppIdsOf S.sccs)) := g.partition.flatMap_right _
    _ |>.Perm (S.sccs.flatMap (·.cppIds)) := by rw [flatMap_cppIdsOf]; rfl
    _ |>.Perm (List.range n) := h.partition

include g h in
/-- No task runs before one that it depends on. -/
theorem tasksOf_pairwise (layered : Layered S) (dep : ℕ → List ℕ)
    (sub : ∀ u v, u < n → v < n → v ∈ dep u → u < v ∧ v ∈ succ u) {order : List ℕ}
    (nodup : order.Nodup) (sorted : order.Pairwise fun a b => a ∉ succsOf mtasks b) :
    (tasksOf S.sccs mtasks order).Pairwise fun u v => u ∉ dep v := by
  have bounded : ∀ {i u : ℕ}, u ∈ cppIdsOf S.sccs i → u < n := fun hu => h.mem_iff.mpr ⟨_, hu⟩
  unfold tasksOf
  refine List.pairwise_flatMap.mpr ⟨fun m hm => List.pairwise_flatMap.mpr ⟨?_, ?_⟩, ?_⟩
  · -- in one SCC, by `cppId`
    intro i _
    refine (h.sorted i).imp_of_mem ?_
    intro u v hu hv le edge
    exact absurd (sub v u (bounded hv) (bounded hu) edge).1 le.not_gt
  · -- in one MTask, by the layers
    by_cases lt : m < mtasks.length
    · rw [g.sccIds m lt]
      have distinct := (S.complete.nodup_iff.mpr List.nodup_range).filter
        fun s => decide (groupOf s = some m)
      refine ((layered.filter _).and distinct).imp ?_
      rintro a b ⟨later, ne⟩ u hu v hv edge
      exact later (h.edges b a v u ne.symm hv hu (sub v u (bounded hv) (bounded hu) edge).2)
    · rw [sccIdsOf, List.getD_eq_default _ _ (not_lt.mp lt)]
      exact List.Pairwise.nil
  · -- between MTasks, by their edges
    refine (sorted.and nodup).imp ?_
    rintro m m' ⟨later, ne⟩ u hu v hv edge
    obtain ⟨a, ha, hu⟩ := List.mem_flatMap.mp hu
    obtain ⟨b, hb, hv⟩ := List.mem_flatMap.mp hv
    have apart : b ≠ a := by
      rintro rfl
      have eq := (g.mem_sccIdsOf.mp ha).2.2.symm.trans (g.mem_sccIdsOf.mp hb).2.2
      exact ne (Option.some.inj eq)
    have step := h.edges b a v u apart hv hu (sub v u (bounded hv) (bounded hu) edge).2
    exact later ((g.mtasksOf.edges m' m).mpr ⟨ne.symm, b, hb, a, ha, step⟩)

end Grouped

/-- Positions in a list without duplicates, from what no later element may have. -/
theorem idxOf_lt_of_pairwise {l : List ℕ} {R : ℕ → ℕ → Prop} (sorted : l.Pairwise fun u v => ¬ R v u)
    {u v : ℕ} (hu : u ∈ l) (hv : v ∈ l) (ne : u ≠ v) (edge : R u v) : l.idxOf u < l.idxOf v := by
  by_contra ge
  have lt : l.idxOf v < l.idxOf u :=
    lt_of_le_of_ne (not_lt.mp ge) fun eq => ne ((List.idxOf_inj hu).mp eq.symm)
  have later := List.pairwise_iff_getElem.mp sorted _ _ (List.idxOf_lt_length_of_mem hv)
    (List.idxOf_lt_length_of_mem hu) lt
  rw [List.getElem_idxOf, List.getElem_idxOf] at later
  exact later edge

/-! ## Renumbering -/

/-- An order of the MTasks in which no edge goes back. -/
structure OrderOf (mtasks : List MtDenseMTask) (order : List ℕ) : Prop where
  perm : order.Perm (List.range mtasks.length)
  sorted : order.Pairwise fun a b => a ∉ succsOf mtasks b

theorem OrderOf.nodup {mtasks : List MtDenseMTask} {order : List ℕ} (o : OrderOf mtasks order) :
    order.Nodup :=
  o.perm.nodup_iff.mpr List.nodup_range

section Renumber

variable {S : SccSchedule} {groupOf : ℕ → Option ℕ} {mtasks : List MtDenseMTask}
  (g : Grouped S groupOf mtasks)

include g in
theorem OrderOf.range : OrderOf mtasks (List.range mtasks.length) := by
  refine ⟨List.Perm.refl _, List.pairwise_lt_range.imp ?_⟩
  intro i j lt edge
  exact absurd (g.climbs j i (g.mem_succsOf.mp edge)) lt.not_gt

include g in
theorem mtBuildDenseScheduleOrder_order (threadCount ccdExtra : ℕ) :
    OrderOf mtasks (mtBuildDenseScheduleOrder mtasks threadCount ccdExtra).2 := by
  have perm := Kahn.run_perm (q := listQueue mtasks threadCount ccdExtra) g.succs_isGraph
    g.preds_counted ⟨fun _ => -1, fun _ => 0, fun _ => 0⟩ g.acyclic
  have rest : (List.range mtasks.length).filter (· ∉ (Kahn.run (succsOf mtasks)
      (listQueue mtasks threadCount ccdExtra) mtasks.length (Kahn.start mtasks.length
        (fun i => (predsOf mtasks i).length) ⟨fun _ => -1, fun _ => 0, fun _ => 0⟩)).order) = [] := by
    refine List.filter_eq_nil_iff.mpr fun i hi => ?_
    simpa using perm.mem_iff.mpr hi
  unfold mtBuildDenseScheduleOrder
  simp only [rest, List.append_nil]
  exact ⟨perm, Kahn.run_pairwise g.succs_isGraph g.preds_counted _⟩

variable {order : List ℕ} (o : OrderOf mtasks order)

theorem renumber_getD {m : ℕ} (hm : m < order.length) :
    (renumber mtasks order).getD m {} =
      { mtasks.getD order[m] {} with
        predMTasks := ((predsOf mtasks order[m]).map fun p => order.idxOf p).insertionSort (· ≤ ·)
        succMTasks := ((succsOf mtasks order[m]).map fun s => order.idxOf s).insertionSort (· ≤ ·) } := by
  rw [List.getD_eq_getElem _ _ (by simpa [renumber] using hm)]
  simp [renumber, predsOf, succsOf]

include g o in
/-- Renumbered edges climb. -/
theorem renumber_climbs {m s : ℕ} (h : s ∈ succsOf (renumber mtasks order) m) : m < s := by
  have length : (renumber mtasks order).length = order.length := by simp [renumber]
  have hm : m < order.length := by
    by_contra ge
    rw [succsOf, List.getD_eq_default _ _ (by rw [length]; exact not_lt.mp ge)] at h
    cases h
  rw [succsOf, renumber_getD hm] at h
  obtain ⟨t, ht, rfl⟩ := List.mem_map.mp ((List.perm_insertionSort _ _).mem_iff.mp h)
  have bound : order[m] < mtasks.length :=
    List.mem_range.mp (o.perm.mem_iff.mp (List.getElem_mem hm))
  have ne : order[m] ≠ t := (g.climbs _ _ (g.mem_succsOf.mp ht)).ne
  have mem : t ∈ order :=
    o.perm.mem_iff.mpr (List.mem_range.mpr (g.succs_isGraph.bounded _ bound t ht))
  calc m = order.idxOf order[m] := (o.nodup.idxOf_getElem m hm).symm
    _ < order.idxOf t := idxOf_lt_of_pairwise (R := fun a b => b ∈ succsOf mtasks a) o.sorted
      (List.getElem_mem hm) mem ne ht

/-- The MTasks run in the new order. -/
theorem renumber_eval (sccs : List MtDenseScc) :
    (renumber mtasks order).flatMap (stepDenseMTask sccs) = tasksOf sccs mtasks order := by
  unfold renumber tasksOf
  rw [List.flatMap_map]
  rfl

theorem flatMap_stepDenseMTask (sccs : List MtDenseScc) :
    mtasks.flatMap (stepDenseMTask sccs) =
      tasksOf sccs mtasks (List.range mtasks.length) := by
  have self : mtasks = (List.range mtasks.length).map fun m => mtasks.getD m {} := by
    apply List.ext_getElem
    · simp
    · intro i h1 h2
      simp [List.getD_eq_getElem?_getD, List.getElem?_eq_getElem h1]
  conv_lhs => rw [self]
  rw [List.flatMap_map]
  rfl

include g in
/-- Renumbered or not: the MTasks run in an order without edges that go back, under ids that
    climb along the edges. -/
theorem orderMTasks_order (k : DenseKnobs) : ∃ order, OrderOf mtasks order ∧
    (∀ sccs, (orderMTasks k mtasks).1.flatMap (stepDenseMTask sccs) = tasksOf sccs mtasks order) ∧
    (∀ m, sccIdsOf (orderMTasks k mtasks).1 m = (order[m]?.map (sccIdsOf mtasks)).getD []) ∧
    ∀ m, ∀ s ∈ succsOf (orderMTasks k mtasks).1 m, m < s := by
  have kept : ∃ order, OrderOf mtasks order ∧
      (∀ sccs, mtasks.flatMap (stepDenseMTask sccs) = tasksOf sccs mtasks order) ∧
      (∀ m, sccIdsOf mtasks m = (order[m]?.map (sccIdsOf mtasks)).getD []) ∧
      ∀ m, ∀ s ∈ succsOf mtasks m, m < s := by
    refine ⟨_, OrderOf.range g, flatMap_stepDenseMTask, ?_, ?_⟩
    · intro m
      by_cases hm : m < mtasks.length
      · simp [hm]
      · simp [hm, sccIdsOf]
    · exact fun m s hs => g.climbs m s (g.mem_succsOf.mp hs)
  unfold orderMTasks
  simp only
  split
  · split
    · have o := mtBuildDenseScheduleOrder_order g (max 1 k.threadCount) k.ccdExtra
      refine ⟨_, o, renumber_eval, ?_, fun m s hs => renumber_climbs g o hs⟩
      · intro m
        by_cases hm : m < (mtBuildDenseScheduleOrder mtasks (max 1 k.threadCount) k.ccdExtra).2.length
        · rw [sccIdsOf, renumber_getD hm, List.getElem?_eq_getElem hm]
          rfl
        · rw [sccIdsOf, List.getD_eq_default _ _ (by simpa [renumber] using hm),
            List.getElem?_eq_none (not_lt.mp hm)]
          rfl
    · exact kept
  · exact kept

end Renumber

/-! ## The schedule -/

/-- What a dense schedule is for. -/
structure Serialises (G : DenseTaskGraph) (sched : MtDenseSchedule) : Prop where
  /-- every task is in one SCC of one MTask -/
  once : ∀ u < G.superId, ∃! p : ℕ × ℕ,
    p.2 ∈ sccIdsOf sched.mtasks p.1 ∧ u ∈ cppIdsOf sched.sccs p.2
  /-- and is evaluated once -/
  complete : sched.evalOrder.Perm (List.range G.superId)
  climbs : ∀ i, ∀ j ∈ succsOf sched.mtasks i, i < j
  /-- after everything it depends on -/
  after : ∀ u v, u < G.superId → v < G.superId → v ∈ G.dependency u →
    sched.evalOrder.idxOf u < sched.evalOrder.idxOf v

theorem orderOf_once {S : SccSchedule} {groupOf : ℕ → Option ℕ} {mtasks : List MtDenseMTask}
    (g : Grouped S groupOf mtasks) {n : ℕ} {succ : ℕ → List ℕ} (h : SccsOf n succ S.sccs)
    {order : List ℕ} (o : OrderOf mtasks order) {u : ℕ} (hu : u < n) :
    ∃! p : ℕ × ℕ, p.2 ∈ (order[p.1]?.map (sccIdsOf mtasks)).getD [] ∧ u ∈ cppIdsOf S.sccs p.2 := by
  obtain ⟨i, hi⟩ := h.mem_iff.mp hu
  obtain ⟨m, hm, eq⟩ := g.total i (mem_cppIdsOf_lt hi)
  have mem : m ∈ order := o.perm.mem_iff.mpr (List.mem_range.mpr hm)
  have place : order[order.idxOf m]? = some m := by
    rw [List.getElem?_eq_getElem (List.idxOf_lt_length_of_mem mem), List.getElem_idxOf]
  refine ⟨(order.idxOf m, i), ⟨?_, hi⟩, ?_⟩
  · simp only [place, Option.map_some, Option.getD_some]
    exact g.mem_sccIdsOf.mpr ⟨mem_cppIdsOf_lt hi, hm, eq⟩
  · rintro ⟨p, j⟩ ⟨hp, hj⟩
    cases h.eq_of_mem hi hj
    cases at_p : order[p]? with
    | none =>
      rw [at_p] at hp
      cases hp
    | some m' =>
      simp only [at_p, Option.map_some, Option.getD_some] at hp
      cases eq.symm.trans (g.mem_sccIdsOf.mp hp).2.2
      obtain ⟨lt, get⟩ := List.getElem?_eq_some_iff.mp at_p
      rw [← get, o.nodup.idxOf_getElem]

/-- **The dense schedule is a serialisation.**  For every task graph and all settings no `Assert`
    fires, and running the MTasks by ascending id evaluates every task once, after all tasks it
    depends on. -/
theorem buildMtDenseSchedule_serialises (G : DenseTaskGraph) (k : DenseKnobs) :
    ∃ sched, buildMtDenseSchedule G k = some sched ∧ Serialises G sched := by
  have h := G.denseSccs_sccsOf k.forwardActivationOnly
  have layered := G.sccSchedule_layered k.forwardActivationOnly
  obtain ⟨mtasks, groupOf, built, g⟩ := buildMTasks_grouped layered (max 1 k.threadCount) k.builder
  obtain ⟨order, o, eval, ids, climbs⟩ := orderMTasks_order g k
  have ranked : ¬ (k.forwardActivationOnly ∧ G.depOrder.length ≠ G.superId) := by
    rintro ⟨-, ne⟩
    exact ne (by rw [(G.depOrder_perm G.depSuccs_acyclic).length_eq, List.length_range])
  refine ⟨⟨(G.sccSchedule k.forwardActivationOnly).sccs,
    (G.sccSchedule k.forwardActivationOnly).topoSccOrder, (orderMTasks k mtasks).1,
    (orderMTasks k mtasks).2, fallbackReason G k⟩, ?_, ?_⟩
  · unfold buildMtDenseSchedule
    simp only [built, if_neg ranked]
    exact if_pos fun m _ s hs => climbs m s hs
  · have perm := g.tasksOf_perm h o.perm
    have sorted := g.tasksOf_pairwise h layered G.dependency
      (fun u v hu hv edge => ⟨G.forward u hu v edge hv, G.mem_succCppIds_of_dependency hu hv edge⟩)
      o.nodup o.sorted
    rw [← eval] at perm sorted
    refine ⟨?_, perm, climbs, ?_⟩
    · intro u hu
      simp only [ids]
      exact orderOf_once g h o hu
    · intro u v hu hv edge
      exact idxOf_lt_of_pairwise (R := fun a b => b ∈ G.dependency a) sorted
        (perm.mem_iff.mpr (List.mem_range.mpr hu)) (perm.mem_iff.mpr (List.mem_range.mpr hv))
        (G.forward u hu v edge hv).ne edge

end Gsim
