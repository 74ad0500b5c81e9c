/-
  Gsim/DenseLayers.lean
  =====================
  **The layers of the SCC DAG** (the layering loop of `buildMtDenseSchedule` and the
  splitting of wide layers behind it).

  A layer is what one round takes out of the ready set: a worker-zero SCC alone, or
  everything that is ready.  Two SCCs that are ready at the same time have all their
  predecessors in earlier layers, so that no path leads from one to the other,
  however many worker-zero layers came in between (`Kahn.batches_spec`).
-/
import Gsim.DenseSchedule

namespace Gsim

open SortedContainers GraphContraction

/-- `MtDenseLayer`. -/
structure MtDenseLayer where
  sccIds : List ℕ
  workerZeroOnly : Bool
  taskCount : ℕ
  staticCost : Int
deriving Repr, DecidableEq

section Layers

variable (sccs : List MtDenseScc)

def layerOf (sccIds : List ℕ) (workerZeroOnly : Bool) : MtDenseLayer where
  sccIds := sccIds
  workerZeroOnly := workerZeroOnly
  taskCount := (sccIds.map fun sccId => (cppIdsOf sccs sccId).length).sum
  staticCost := (sccIds.map fun sccId => (sccs.getD sccId {}).staticCost).sum

/-- `schedule.layers` before the split.  A layer that holds a worker-zero SCC was made for it. -/
def denseLayers : List MtDenseLayer :=
  (Kahn.batches (succSccsOf sccs) (layerQueue sccs) sccs.length
    (Kahn.start sccs.length (fun i => (predSccsOf sccs i).length) ())).map fun sccIds =>
      layerOf sccs sccIds (sccIds.any (workerZeroOnlyOf sccs))

def maxSccsPerWorker : ℕ := 256

/-- The pieces `[i, min(i + width, size))`. -/
def pieces (width : ℕ) (sccIds : List ℕ) : List (List ℕ) :=
  (List.range ((sccIds.length + width - 1) / width)).map fun k =>
    (sccIds.drop (width * k)).take width

def splitLayer (layer : MtDenseLayer) : List MtDenseLayer :=
  if layer.sccIds.length ≤ maxSccsPerWorker then [layer]
  else (pieces maxSccsPerWorker layer.sccIds).map fun sccIds => layerOf sccs sccIds layer.workerZeroOnly

/-- `splitLayers`. -/
def splitLayers : List MtDenseLayer := (denseLayers sccs).flatMap (splitLayer sccs)

end Layers

/-- What the layers are for. -/
structure SoundLayers (sccs : List MtDenseScc) (layers : List MtDenseLayer) : Prop where
  /-- every SCC is in one layer, once -/
  once : (layers.flatMap (·.sccIds)).Perm (List.range sccs.length)
  antichain : ∀ layer ∈ layers, ∀ i ∈ layer.sccIds, ∀ j ∈ layer.sccIds,
    ¬ Relation.TransGen (fun i j => j ∈ succSccsOf sccs i) i j
  /-- the layers one after another are `topoSccOrder`, a topological order -/
  concat : layers.flatMap (·.sccIds) = topoSccOrder sccs
  topological : ∀ i j, j ∈ succSccsOf sccs i →
    (layers.flatMap (·.sccIds)).idxOf i < (layers.flatMap (·.sccIds)).idxOf j
  alone : ∀ layer ∈ layers, ∀ i ∈ layer.sccIds, workerZeroOnlyOf sccs i = true →
    layer.sccIds = [i] ∧ layer.workerZeroOnly = true
  nonempty : ∀ layer ∈ layers, layer.sccIds ≠ []

/-! ## The loop -/

section Loop

variable {sccs : List MtDenseScc}

/-- A worker-zero SCC is alone in what is taken out of the queue. -/
theorem layerQueue_alone {ready batch rest : List ℕ}
    (popped : (layerQueue sccs).pop () ready = some (batch, rest, ())) {i : ℕ} (hi : i ∈ batch)
    (zero : workerZeroOnlyOf sccs i = true) : batch = [i] := by
  simp only [layerQueue] at popped
  split at popped
  · cases popped
  · split at popped
    · cases popped
      rw [List.mem_singleton] at hi
      rw [hi]
    · rename_i none
      cases popped
      have mem : i ∈ ready.insertionSort (· ≤ ·) :=
        (List.perm_insertionSort _ _).mem_iff.mp hi
      exact absurd zero (List.find?_eq_none.mp none i mem)

variable (h : SccGraph sccs)
include h

theorem denseLayers_sound : SoundLayers sccs (denseLayers sccs) := by
  have inv := Kahn.Inv.start h.counted ()
  have concat : (denseLayers sccs).flatMap (·.sccIds) = topoSccOrder sccs := by
    rw [topoSccOrder, Kahn.run_order_eq, denseLayers, List.flatMap_map]
    simp [Kahn.start, layerOf, List.flatMap_id']
  have perm := topoSccOrder_perm h
  have batch : ∀ layer ∈ denseLayers sccs, ∃ sccIds, layer.sccIds = sccIds ∧
      layer.workerZeroOnly = sccIds.any (workerZeroOnlyOf sccs) ∧
      (∃ s ready rest s', (layerQueue sccs).pop s ready = some (sccIds, rest, s')) ∧
      ∀ i ∈ sccIds, ∀ j ∈ sccIds,
        ¬ Relation.TransGen (fun i j => i < sccs.length ∧ j ∈ succSccsOf sccs i) i j := by
    intro layer mem
    obtain ⟨sccIds, taken, rfl⟩ := List.mem_map.mp mem
    obtain ⟨popped, antichain⟩ := Kahn.batches_spec h.isGraph inv taken
    exact ⟨sccIds, rfl, rfl, popped, antichain⟩
  refine ⟨concat ▸ perm, ?_, concat, ?_, ?_, ?_⟩
  · intro layer mem i hi j hj path
    obtain ⟨_, rfl, -, -, antichain⟩ := batch layer mem
    exact antichain i hi j hj
      (path.lift id fun _ _ edge => ⟨succSccsOf_lt edge, edge⟩)
  · intro i j edge
    rw [concat]
    refine Kahn.run_sorted h.isGraph h.counted () (succSccsOf_lt edge) edge ?_
    exact perm.mem_iff.mpr (List.mem_range.mpr (h.bounded i j edge))
  · intro layer mem i hi zero
    obtain ⟨_, rfl, mark, ⟨_, ready, rest, _, popped⟩, -⟩ := batch layer mem
    refine ⟨layerQueue_alone popped hi zero, ?_⟩
    rw [mark, List.any_eq_true]
    exact ⟨i, hi, zero⟩
  · intro layer mem
    obtain ⟨_, rfl, -, ⟨_, ready, rest, _, popped⟩, -⟩ := batch layer mem
    exact ((layerQueue sccs).pop_some _ _ _ _ _ popped).1

end Loop

/-! ## The split -/

theorem flatten_pieces {width : ℕ} (pos : 0 < width) (sccIds : List ℕ) :
    (pieces width sccIds).flatten = sccIds := by
  have upTo : ∀ m, ((List.range m).map fun k => (sccIds.drop (width * k)).take width).flatten =
      sccIds.take (width * m) := by
    intro m
    induction m with
    | zero => simp
    | succ m ih =>
      rw [List.range_succ, List.map_append, List.flatten_append, ih, Nat.mul_succ, List.take_add]
      simp
  unfold pieces
  rw [upTo]
  refine List.take_of_length_le ?_
  have div := Nat.lt_mul_div_succ (sccIds.length + width - 1) pos
  have expand : width * ((sccIds.length + width - 1) / width + 1) =
      width * ((sccIds.length + width - 1) / width) + width := by ring
  omega

/-- A piece is a part that is not empty. -/
theorem mem_pieces {width : ℕ} (pos : 0 < width) {sccIds piece : List ℕ}
    (mem : piece ∈ pieces width sccIds) : piece ⊆ sccIds ∧ piece ≠ [] := by
  obtain ⟨k, hk, rfl⟩ := List.mem_map.mp mem
  refine ⟨fun i hi => List.mem_of_mem_drop (List.mem_of_mem_take hi), ?_⟩
  have lt : k < (sccIds.length + width - 1) / width := List.mem_range.mp hk
  have inside : width * (k + 1) ≤ sccIds.length + width - 1 := by
    rw [Nat.mul_comm]
    exact (Nat.le_div_iff_mul_le pos).mp lt
  have expand : width * (k + 1) = width * k + width := by ring
  refine List.ne_nil_of_length_pos ?_
  rw [List.length_take, List.length_drop]
  omega

section Split

variable {sccs : List MtDenseScc} {layer : MtDenseLayer}

theorem flatMap_splitLayer : (splitLayer sccs layer).flatMap (·.sccIds) = layer.sccIds := by
  unfold splitLayer
  split
  · simp
  · rw [List.flatMap_map]
    have flat := flatten_pieces (show 0 < maxSccsPerWorker by decide) layer.sccIds
    simpa [layerOf, List.flatMap_id'] using flat

/-- A piece is part of its layer; a layer that is split has more than one SCC. -/
theorem mem_splitLayer {sub : MtDenseLayer} (mem : sub ∈ splitLayer sccs layer) :
    sub = layer ∨ (1 < layer.sccIds.length ∧ sub.sccIds ⊆ layer.sccIds ∧ sub.sccIds ≠ []) := by
  unfold splitLayer at mem
  split at mem
  · exact .inl (List.mem_singleton.mp mem)
  · rename_i wide
    obtain ⟨sccIds, piece, rfl⟩ := List.mem_map.mp mem
    rw [maxSccsPerWorker] at wide
    exact .inr ⟨by omega, mem_pieces (by decide) piece⟩

theorem SoundLayers.split (h : SoundLayers sccs (denseLayers sccs)) :
    SoundLayers sccs (splitLayers sccs) := by
  have flat : (splitLayers sccs).flatMap (·.sccIds) = (denseLayers sccs).flatMap (·.sccIds) := by
    rw [splitLayers, List.flatMap_assoc]
    exact List.flatMap_congr fun layer _ => flatMap_splitLayer
  refine ⟨flat ▸ h.once, ?_, flat ▸ h.concat, ?_, ?_, ?_⟩
  · intro sub mem i hi j hj
    obtain ⟨layer, hl, mem⟩ := List.mem_flatMap.mp mem
    rcases mem_splitLayer mem with rfl | ⟨-, part, -⟩
    · exact h.antichain _ hl i hi j hj
    · exact h.antichain _ hl i (part hi) j (part hj)
  · rw [flat]
    exact h.topological
  · intro sub mem i hi zero
    obtain ⟨layer, hl, mem⟩ := List.mem_flatMap.mp mem
    rcases mem_splitLayer mem with rfl | ⟨wide, part, -⟩
    · exact h.alone _ hl i hi zero
    · rw [(h.alone layer hl i (part hi) zero).1] at wide
      exact absurd wide (lt_irrefl _)
  · intro sub mem
    obtain ⟨layer, hl, mem⟩ := List.mem_flatMap.mp mem
    rcases mem_splitLayer mem with rfl | ⟨-, -, nonempty⟩
    · exact h.nonempty _ hl
    · exact nonempty

end Split

/-- **Layering is sound**, before and after wide layers are split. -/
theorem layers_sound {sccs : List MtDenseScc} (h : SccGraph sccs) :
    SoundLayers sccs (denseLayers sccs) ∧ SoundLayers sccs (splitLayers sccs) :=
  ⟨denseLayers_sound h, (denseLayers_sound h).split⟩

/-- Two SCCs behind a worker-zero SCC. -/
def zeroFirst : List MtDenseScc :=
  [{ cppIds := [0], succSccs := [1, 2], workerZeroOnly := true },
    { cppIds := [2], predSccs := [0] }, { cppIds := [1], predSccs := [0] }]

theorem zeroFirst_graph : SccGraph zeroFirst := by
  have dag : SccDag zeroFirst := SccDag.ofLists (by decide) (by decide) (by decide)
  have nodup : ∀ i, (succSccsOf zeroFirst i).Nodup ∧ (predSccsOf zeroFirst i).Nodup := by
    intro i
    by_cases hi : i < zeroFirst.length
    · have all : ∀ i < zeroFirst.length,
          (succSccsOf zeroFirst i).Nodup ∧ (predSccsOf zeroFirst i).Nodup := by decide
      exact all i hi
    · rw [succSccsOf, predSccsOf, List.getD_eq_default _ _ (not_lt.mp hi)]
      exact ⟨List.nodup_nil, List.nodup_nil⟩
  have climbs : ∀ i j, Relation.TransGen (fun i j => j ∈ succSccsOf zeroFirst i) i j → i < j := by
    intro i j path
    induction path with
    | single edge => exact (dag.climbs i _ edge).1
    | tail _ edge ih => exact ih.trans (dag.climbs _ _ edge).1
  exact ⟨fun i j hj => (dag.climbs i j hj).2, dag.mirrored, fun i => (nodup i).1,
    fun i => (nodup i).2, fun i cycle => (climbs i i cycle).false⟩

theorem layers_sound_zeroFirst :
    (denseLayers zeroFirst).map (·.sccIds) = [[0], [2, 1]] ∧
      SoundLayers zeroFirst (denseLayers zeroFirst) ∧ SoundLayers zeroFirst (splitLayers zeroFirst) :=
  ⟨by decide, layers_sound zeroFirst_graph⟩

end Gsim
