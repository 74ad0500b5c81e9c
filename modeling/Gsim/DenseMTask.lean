/-
  Gsim/DenseMTask.lean
  ====================
  **The dense MTask graph** (`MtDenseMTask` of `cppEmitterImpl.h`).

  An MTask is identified by its position in `schedule.mtasks`.  The dense
  executor is generated for graphs whose ids are topologically monotone and
  whose `predMTasks` and `succMTasks` mirror each other; `MTaskGraph` carries
  both facts, so no later statement has to assume them.
-/
import Mathlib.Data.List.GetD
import Mathlib.Tactic

namespace Gsim

/-- `MtDenseScc`, with the fields that MTasks are built from. -/
structure MtDenseScc where
  cppIds : List Nat := []
  predSccs : List Nat := []
  succSccs : List Nat := []
  staticCost : Int := 0
  memberNodeCost : Int := 0
  workerZeroOnly : Bool := false
deriving Repr, DecidableEq

/-- `succSccs` of the SCC with the given id. -/
def succSccsOf (sccs : List MtDenseScc) (sccId : Nat) : List Nat :=
  (sccs.getD sccId {}).succSccs

/-- `MtDenseMTask`. Ids are non-negative once a schedule is built, so they are
    natural numbers here. -/
structure MtDenseMTask where
  sccIds : List Nat := []
  predMTasks : List Nat := []
  succMTasks : List Nat := []
  staticCost : Int := 0
  taskCount : Nat := 0
  workerZeroOnly : Bool := false
  schedCost : Int := 0
deriving Repr, DecidableEq

/-- `predMTasks` of the MTask with the given id. -/
def predsOf (mtasks : List MtDenseMTask) (mtaskId : Nat) : List Nat :=
  (mtasks.getD mtaskId {}).predMTasks

/-- `succMTasks` of the MTask with the given id. -/
def succsOf (mtasks : List MtDenseMTask) (mtaskId : Nat) : List Nat :=
  (mtasks.getD mtaskId {}).succMTasks

/-- A forward MTask dependency graph with mirrored edge lists. -/
structure MTaskGraph where
  mtasks : List MtDenseMTask
  forward : ∀ mtaskId, ∀ pred ∈ predsOf mtasks mtaskId, pred < mtaskId
  mirrored : ∀ pred succ, pred ∈ predsOf mtasks succ ↔ succ ∈ succsOf mtasks pred

namespace MTaskGraph

variable (G : MTaskGraph)

/-- The number of MTasks. -/
def size : Nat := G.mtasks.length

/-- `pred` is one of the original `predMTasks` of `succ`. -/
def Dep (pred succ : Nat) : Prop := pred ∈ predsOf G.mtasks succ

instance (pred succ : Nat) : Decidable (G.Dep pred succ) :=
  inferInstanceAs (Decidable (pred ∈ predsOf G.mtasks succ))

theorem dep_lt {pred succ : Nat} (h : G.Dep pred succ) : pred < succ :=
  G.forward succ pred h

theorem dep_lt_size {pred succ : Nat} (h : G.Dep pred succ) : succ < G.size := by
  by_contra hge
  have hnone : predsOf G.mtasks succ = [] := by
    unfold predsOf
    rw [List.getD_eq_default _ _ (Nat.le_of_not_lt hge)]
  unfold Dep at h
  rw [hnone] at h
  cases h

theorem dep_iff_succ {pred succ : Nat} : G.Dep pred succ ↔ succ ∈ succsOf G.mtasks pred :=
  G.mirrored pred succ

end MTaskGraph

/-! ### Worker assignments -/

/-- `id < assignment.size() ? assignment[id] : -1`. -/
def assignAt (assignment : List Int) (mtaskId : Nat) : Int := assignment.getD mtaskId (-1)

/-- An assignment of every MTask to one of `threadCount` workers. -/
structure Assignment (nMTasks : Nat) (threadCount : Nat) where
  owners : List Int
  threads_pos : 0 < threadCount
  length_eq : owners.length = nMTasks
  inRange : ∀ mtaskId, mtaskId < nMTasks →
    0 ≤ assignAt owners mtaskId ∧ assignAt owners mtaskId < threadCount

end Gsim
