/-
  Gsim/GraphPartition.lean
  ========================
  **The partitioner as a whole** (`graph::graphPartition` of `graphPartition.cpp`).

  Before it every node has a super node of its own; afterwards few super nodes hold
  many nodes each.  `graphCoarsen` sets the super nodes of reset signals apart and runs
  the merging passes, `graphInitPartition` cuts what they leave into segments.  Every
  pass relies on what the one before it leaves: `mergeOut1` needs the order that
  `resort` computes, and `resort` needs that merging has made no cycle.

  Evaluating the super nodes one after another, each member by member, is evaluating
  all nodes in one order.  The partitioner changes the order; what the evaluation
  computes stays the same, as only nodes without a dependence change places
  (`graphPartition_meaning`).
-/
import Gsim.MergeOrder
import Gsim.InitPartition
import Gsim.CommutingTraces
import Gsim.PureBatches

namespace Gsim.MergeNodes

open GraphContraction SuperLinks SegmentCuts ExpTree CommutingTraces
open ObsElision (AsReset)
open PureBatches (ResetType)

variable {Op : Type}

/-! ## Resets -/

class ResetOp (Op : Type) where
  isReset : Op → Bool

/-- What `mergeResetAll` reads of a register. -/
structure ResetReg (Op : Type) where
  reg : Nat
  reset : ResetType
  resetTree : ENode Op
  /-- `getDst()->status == VALID_NODE` -/
  dstValid : Bool

/-- A copy of a register, or of its destination, of the type `NODE_REG_RESET`. -/
structure ResetMember where
  regNext : Nat
  dst : Bool
deriving DecidableEq, Repr

structure ResetSuper where
  superType : SuperType
  resetNode : Nat
  member : List ResetMember
deriving DecidableEq, Repr

def setUIntReset : AsReset → AsReset
  | .async => .all
  | .all => .all
  | _ => .uint

def setAsyncReset : AsReset → AsReset
  | .uint => .all
  | .all => .all
  | _ => .async

namespace ResetReg

/-- The set `prev` of a register with a reset. -/
def prevReset [ResetOp Op] (reg : ResetReg Op) : Option (List Nat) :=
  match reg.resetTree with
  | .op o _ _ (cond :: _) => if ResetOp.isReset o then some cond.refs.dedup else none
  | _ => none

def members (reg : ResetReg Op) : List ResetMember :=
  ⟨reg.reg, false⟩ :: if reg.dstValid then [⟨reg.reg, true⟩] else []

/-- The register is reset by a single signal. -/
def HasSignal [ResetOp Op] (reg : ResetReg Op) : Prop :=
  reg.reset = .uintreset ∨ reg.reset = .asyreset → ∃ signal, reg.prevReset = some [signal]

end ResetReg

/-- `resetSuper`: the signals and the members of their two super nodes. -/
structure ResetMap where
  signals : List Nat
  uint : Nat → List ResetMember
  async : Nat → List ResetMember

def ResetMap.add (M : ResetMap) (async : Bool) (signal : Nat) (members : List ResetMember) : ResetMap :=
  let M := if signal ∈ M.signals then M else { M with signals := M.signals ++ [signal] }
  if async then { M with async := Function.update M.async signal (M.async signal ++ members) }
  else { M with uint := Function.update M.uint signal (M.uint signal ++ members) }

/-- One register; `none` is a failed assertion. -/
def ResetMap.register [ResetOp Op] (M : ResetMap) (reg : ResetReg Op) : Option ResetMap :=
  if reg.reset ≠ .uintreset ∧ reg.reset ≠ .asyreset then some M
  else
    reg.prevReset.bind fun prev =>
      match prev with
      | [prevNode] => some (M.add (reg.reset == .asyreset) prevNode reg.members)
      | _ => none

/-- What `mergeResetAll` leaves. -/
structure Resets (Op : Type) where
  graph : SuperGraph Op
  allReset : List ResetSuper
  asReset : Nat → AsReset
  /-- `resetNode` of the super nodes in `sortedSuper` -/
  resetNode : Nat → Option Nat

namespace Resets

def emitUInt (R : Resets Op) (M : ResetMap) (signal : Nat) : Resets Op :=
  if M.uint signal ≠ [] then
    { R with
      allReset := R.allReset ++ [⟨.uintReset, signal, M.uint signal⟩]
      asReset := Function.update R.asReset signal (setUIntReset (R.asReset signal)) }
  else R

def emitAsync (R : Resets Op) (M : ResetMap) (signal : Nat) : Resets Op :=
  if M.async signal ≠ [] then
    let R :=
      { R with
        allReset := R.allReset ++ [⟨.asyncReset, signal, M.async signal⟩]
        asReset := Function.update R.asReset signal (setAsyncReset (R.asReset signal)) }
    let super := R.graph.super signal
    if R.graph.superType super = .valid then
      { R with
        graph := { R.graph with superType := Function.update R.graph.superType super .asyncReset }
        resetNode := Function.update R.resetNode super (some signal) }
    else R
  else R

def emit (M : ResetMap) (R : Resets Op) (signal : Nat) : Resets Op :=
  (R.emitUInt M signal).emitAsync M signal

end Resets

namespace SuperGraph

/-- The signals come by their names. -/
def mergeResetAll [ResetOp Op] (G : SuperGraph Op) (name : Nat → String)
    (regsrc : List (ResetReg Op)) : Option (Resets Op) :=
  (regsrc.foldlM ResetMap.register ⟨[], fun _ => [], fun _ => []⟩).map fun M =>
    (M.signals.insertionSort fun a b => ¬ name b < name a).foldl (Resets.emit M)
      ⟨G, [], fun _ => .empty, fun _ => none⟩

/-! ## The passes -/

/-- What the order of the passes' choices depends on. -/
structure PartitionMode where
  name : Nat → String
  whenMode : Mode
  mergeWhenSize : Int
  resortWhen : ResortMode
  /-- The addresses of the super nodes. -/
  addr : Nat → UInt64
  postCoarsen : ResortMode
  SuperNodeMaxSize : Nat

def graphCoarsen [WhenOp Op] [ResetOp Op] (G : SuperGraph Op) (regsrc : List (ResetReg Op))
    (mode : PartitionMode) : Option (Resets Op) :=
  (G.mergeResetAll mode.name regsrc).bind fun R =>
    (R.graph.mergeWhenNodes (.traverse mode.whenMode mode.mergeWhenSize)).bind fun merged =>
      (merged.resort mode.resortWhen).map fun G =>
        { R with graph := G.mergeOut1.mergeIn1.mergeSublings mode.addr }

def graphPartition [WhenOp Op] [ResetOp Op] (G : SuperGraph Op) (regsrc : List (ResetReg Op))
    (mode : PartitionMode) : Option (Resets Op) :=
  (G.orderAllNodes.graphCoarsen regsrc mode).bind fun R =>
    (R.graph.resort mode.postCoarsen).map fun G =>
      { R with graph := (G.graphInitPartition mode.SuperNodeMaxSize).orderAllNodes }

/-! ## The super nodes of reset signals -/

section Retype

variable {G : SuperGraph Op} {nodes : List Nat}

/-- `G'` is `G` but for some types; a special type stays. -/
structure Retyped (G G' : SuperGraph Op) : Prop where
  node : G'.node = G.node
  order : G'.order = G.order
  sortedSuper : G'.sortedSuper = G.sortedSuper
  member : G'.member = G.member
  super : G'.super = G.super
  links : G'.links = G.links
  special : ∀ x, G'.superType x = .valid → G.superType x = .valid

theorem Retyped.refl (G : SuperGraph Op) : G.Retyped G :=
  ⟨rfl, rfl, rfl, rfl, rfl, rfl, fun _ => id⟩

theorem Retyped.emit {M : ResetMap} {R : Resets Op} (h : G.Retyped R.graph) (signal : Nat) :
    G.Retyped (R.emit M signal).graph := by
  have uint : (R.emitUInt M signal).graph = R.graph := by
    unfold Resets.emitUInt
    split <;> rfl
  rw [← uint] at h
  unfold Resets.emit Resets.emitAsync
  generalize R.emitUInt M signal = R' at h
  split
  · dsimp only
    split
    · refine ⟨h.node, h.order, h.sortedSuper, h.member, h.super, h.links, fun x valid => ?_⟩
      dsimp only at valid
      by_cases eq : x = R'.graph.super signal
      · rw [eq, Function.update_self] at valid
        cases valid
      · rw [Function.update_of_ne eq] at valid
        exact h.special x valid
    · exact h
  · exact h

theorem register_ok [ResetOp Op] (M : ResetMap) {reg : ResetReg Op} (signal : reg.HasSignal) :
    ∃ M', M.register reg = some M' := by
  unfold ResetMap.register
  split
  · exact ⟨M, rfl⟩
  · rename_i resets
    obtain ⟨prevNode, eq⟩ := signal (by tauto)
    exact ⟨_, by rw [eq]; rfl⟩

theorem mergeResetAll_ok [ResetOp Op] (G : SuperGraph Op) (name : Nat → String)
    {regsrc : List (ResetReg Op)} (signals : ∀ reg ∈ regsrc, reg.HasSignal) :
    ∃ R, G.mergeResetAll name regsrc = some R ∧ G.Retyped R.graph := by
  have collected : ∀ M, ∃ M', regsrc.foldlM ResetMap.register M = some M' := by
    induction regsrc with
    | nil => exact fun M => ⟨M, rfl⟩
    | cons reg regsrc ih =>
      intro M
      obtain ⟨M₁, eq₁⟩ := register_ok M (signals reg List.mem_cons_self)
      obtain ⟨M', eq⟩ := ih (fun r hr => signals r (List.mem_cons_of_mem _ hr)) M₁
      refine ⟨M', ?_⟩
      rw [List.foldlM_cons, eq₁]
      exact eq
  have retyped : ∀ (M : ResetMap) (signals : List Nat) (R : Resets Op), G.Retyped R.graph →
      G.Retyped (signals.foldl (Resets.emit M) R).graph := by
    intro M signals
    induction signals with
    | nil => exact fun _ h => h
    | cons signal signals ih => exact fun R h => ih _ (h.emit signal)
  obtain ⟨M, eq⟩ := collected ⟨[], fun _ => [], fun _ => []⟩
  unfold SuperGraph.mergeResetAll
  rw [eq]
  exact ⟨_, rfl, retyped M _ _ (Retyped.refl G)⟩

theorem Retyped.sweep {G' : SuperGraph Op} (same : G.Retyped G')
    (h : G.Sweep nodes (· ∈ G.sortedSuper)) : G'.Sweep nodes (· ∈ G'.sortedSuper) := by
  obtain ⟨node, superType, order, sortedSuper, member, super, links⟩ := G
  obtain ⟨node', superType', order', sortedSuper', member', super', links'⟩ := G'
  obtain ⟨rfl, rfl, rfl, rfl, rfl, rfl, -⟩ := same
  exact ⟨⟨h.part.closed, h.part.superAlive, h.part.member, h.part.memberNodup, h.part.sorted,
    fun x hx out => absurd hx out, h.part.nodup⟩, ⟨h.conn.nodup, h.conn.shows⟩,
    ⟨h.forward.ascending, h.forward.forward⟩⟩

theorem Retyped.listed {G' : SuperGraph Op} (same : G.Retyped G') (h : G.Listed) : G'.Listed := by
  intro x hx
  rw [same.member, dep_of_node same.node]
  exact h x (same.sortedSuper ▸ hx)

end Retype

/-! ## The order of all nodes -/

section Order

variable {G : SuperGraph Op} {nodes : List Nat}

theorem orderAllNodes_keeps (G : SuperGraph Op) : G.Keeps G.orderAllNodes :=
  Keeps.of_member rfl rfl rfl (fun _ hx => hx) fun _ hx _ => hx

/-- The positions serve as the orders once the super nodes are scheduled. -/
theorem Scheduled.orderAllNodes (h : G.Scheduled nodes) (distinct : nodes.Nodup)
    (closed : ∀ n m, G.Dep n m → n ∈ nodes ∧ m ∈ nodes) (sets : G.links.Nodup) :
    G.orderAllNodes.Ordered nodes :=
  ⟨⟨⟨h.nodup, h.partition, h.super, h.prev, h.next, h.depPrev, h.depNext, h.mirrored, h.acyclic⟩,
    h.topological⟩, distinct, closed, sets, fun _ hx => if_pos hx⟩

theorem Sweep.orderAllNodes (h : G.Sweep nodes (· ∈ G.sortedSuper)) (distinct : nodes.Nodup) :
    G.orderAllNodes.Ordered nodes :=
  (h.scheduled distinct).orderAllNodes distinct h.part.closed h.conn.nodup

end Order

/-! ## The initial partition is a schedule -/

section Initial

variable {G : SuperGraph Op} {nodes : List Nat} {alive : Nat → Prop} {root : Nat → Nat} {cut : List Nat}

/-- `a` comes no later than `b`, and no cut is between them. -/
def SameSegment (G : SuperGraph Op) (cut : List Nat) (a b : Nat) : Prop :=
  G.order a ≤ G.order b ∧ ∀ c ∈ cut, ¬ (G.order a < c ∧ c ≤ G.order b)

theorem SameSegment.trans {a b c : Nat} (h : G.SameSegment cut a b) (h' : G.SameSegment cut b c) :
    G.SameSegment cut a c := by
  refine ⟨h.1.trans h'.1, fun d hd between => ?_⟩
  rcases Nat.lt_or_ge (G.order b) d with above | below
  · exact h'.2 d hd ⟨above, between.2⟩
  · exact h.2 d hd ⟨between.1, below⟩

theorem superAt_congr {H : SuperGraph Op} (same : H.sortedSuper = G.sortedSuper) :
    H.superAt = G.superAt := by
  funext i
  rw [superAt, superAt, same]

/-- The super nodes after `a` up to `c` are dissolved into the one at `a`. -/
theorem Grouped.mergeSegment (pos : G.Positioned) {H : SuperGraph Op}
    (h : Grouped (G.SameSegment cut) G H nodes alive root) {a c : Nat} (hc : c ≤ G.sortedSuper.length)
    (here : ∀ i, a ≤ i → i < G.sortedSuper.length → alive (G.superAt i))
    (valid : ∀ i, a < i → i < c → G.superType (G.superAt i) = .valid)
    (uncut : ∀ d ∈ cut, ¬ (a < d ∧ d < c)) :
    ∃ alive' root', Grouped (G.SameSegment cut) G (H.mergeSegment a c) nodes alive' root' ∧
      ∀ i < G.sortedSuper.length, (alive' (G.superAt i) ↔ alive (G.superAt i) ∧ ¬ (a < i ∧ i < c)) := by
  suffices general : ∀ m, m ≤ c - (a + 1) → ∃ alive' root',
      Grouped (G.SameSegment cut) G ((List.range' (a + 1) m).foldl
        (fun G i => G.moveMembers (G.superAt i) (G.superAt a)
          (G.member (G.superAt a) ++ G.member (G.superAt i))) H) nodes alive' root' ∧
      ∀ i < G.sortedSuper.length,
        (alive' (G.superAt i) ↔ alive (G.superAt i) ∧ ¬ (a < i ∧ i < a + 1 + m)) by
    obtain ⟨alive', root', grouped, left⟩ := general (c - (a + 1)) le_rfl
    refine ⟨alive', root', grouped, fun i hi => (left i hi).trans (and_congr_right fun _ => ?_)⟩
    omega
  intro m
  induction m with
  | zero =>
    intro _
    refine ⟨alive, root, h, fun i _ => ?_⟩
    have none : ¬ (a < i ∧ i < a + 1 + 0) := by omega
    exact (and_iff_left none).symm
  | succ m ih =>
    intro hm
    obtain ⟨alive₁, root₁, h₁, left⟩ := ih (by omega)
    rw [List.range'_concat, List.foldl_append, List.foldl_cons, List.foldl_nil, Nat.one_mul]
    generalize (List.range' (a + 1) m).foldl (fun G i => G.moveMembers (G.superAt i) (G.superAt a)
      (G.member (G.superAt a) ++ G.member (G.superAt i))) H = H₁ at h₁
    rw [superAt_congr h₁.sortedSuper]
    have hs : a + 1 + m < G.sortedSuper.length := by omega
    have ht : a < G.sortedSuper.length := by omega
    have aliveS := (left _ hs).mpr ⟨here _ (by omega) hs, by omega⟩
    have aliveT := (left a ht).mpr ⟨here a le_rfl ht, by omega⟩
    have ne : G.superAt a ≠ G.superAt (a + 1 + m) := fun same => by
      have := superAt_inj pos.nodup ht hs same
      omega
    have rel : G.SameSegment cut (G.superAt a) (G.superAt (a + 1 + m)) := by
      rw [SameSegment, pos.order_superAt ht, pos.order_superAt hs]
      exact ⟨by omega, fun d hd between => uncut d hd ⟨between.1, by omega⟩⟩
    refine ⟨_, _, h₁.merge aliveS aliveT ne (valid _ (by omega) (by omega)) List.perm_append_comm
      (fun _ _ _ => SameSegment.trans) rel, fun i hi => ?_⟩
    have other : G.superAt i ≠ G.superAt (a + 1 + m) ↔ i ≠ a + 1 + m :=
      not_congr ⟨superAt_inj pos.nodup hi hs, fun eq => eq ▸ rfl⟩
    rw [left i hi, other, and_assoc]
    refine and_congr_right fun _ => ?_
    omega

/-- The super nodes that keep members are those at the cuts. -/
theorem Grouped.applyCuts (pos : G.Positioned) (cuts : List Nat) {H : SuperGraph Op}
    (h : Grouped (G.SameSegment cut) G H nodes alive root) {a : Nat}
    (chain : Divides (fun _ _ => True) a cuts G.sortedSuper.length)
    (here : ∀ i, a ≤ i → i < G.sortedSuper.length → alive (G.superAt i))
    (all : ∀ d ∈ cut, d ≤ a ∨ d ∈ cuts)
    (valid : ∀ i, a < i → i < G.sortedSuper.length → i ∉ cuts → G.superType (G.superAt i) = .valid) :
    ∃ alive' root', Grouped (G.SameSegment cut) G (cuts.foldl (fun (st : SuperGraph Op × Nat) cutEnd =>
        (st.1.mergeSegment st.2 cutEnd, cutEnd)) (H, a)).1 nodes alive' root' ∧
      ∀ i < G.sortedSuper.length, alive' (G.superAt i) → alive (G.superAt i) ∧ (i ≤ a ∨ i ∈ cuts) := by
  induction cuts generalizing H alive root a with
  | nil =>
    have reached : a = G.sortedSuper.length := chain
    exact ⟨alive, root, h, fun i hi kept => ⟨kept, .inl (reached ▸ hi.le)⟩⟩
  | cons c cuts ih =>
    obtain ⟨le, -, rest⟩ := chain
    have later : ∀ d ∈ c :: cuts, c ≤ d := by
      intro d hd
      rcases List.mem_cons.mp hd with rfl | hd
      · exact le_rfl
      · exact (rest.le.2 d hd).1
    obtain ⟨alive₁, root₁, h₁, left⟩ := h.mergeSegment pos rest.le.1 here
      (fun i lt lt' => valid i lt (by have := rest.le.1; omega) fun mem => (later i mem).not_gt lt')
      fun d hd between => by
        rcases all d hd with old | new
        · omega
        · exact (later d new).not_gt between.2
    obtain ⟨alive', root', h', starts⟩ := ih h₁ rest
      (fun i ci hi => (left i hi).mpr ⟨here i (le.trans ci) hi, by omega⟩)
      (fun d hd => by
        rcases all d hd with old | new
        · exact .inl (old.trans le)
        · rcases List.mem_cons.mp new with rfl | new
          · exact .inl le_rfl
          · exact .inr new)
      fun i ci hi out => valid i (lt_of_le_of_lt le ci) hi fun mem => by
        rcases List.mem_cons.mp mem with rfl | mem
        · exact lt_irrefl _ ci
        · exact out mem
    refine ⟨alive', root', h', fun i hi kept => ?_⟩
    obtain ⟨kept₁, place⟩ := starts i hi kept
    obtain ⟨before, out⟩ := (left i hi).mp kept₁
    refine ⟨before, ?_⟩
    rcases place with le' | mem
    · by_cases first : i ≤ a
      · exact .inl first
      · have same : i = c := by omega
        exact .inr (same ▸ List.mem_cons_self)
    · exact .inr (List.mem_cons_of_mem _ mem)

/-- The super nodes of the segments are connected forwards. -/
theorem Ordered.graphInitPartition (h : G.Ordered nodes) (SuperNodeMaxSize : Nat) :
    (G.graphInitPartition SuperNodeMaxSize).Sweep nodes
      (· ∈ (G.graphInitPartition SuperNodeMaxSize).sortedSuper) := by
  have pos := h.positioned
  have sweep := h.sweep
  have alone : Grouped (G.SameSegment (G.cut SuperNodeMaxSize)) G G nodes (· ∈ G.sortedSuper) id := by
    refine Grouped.refl (fun x => ⟨le_refl _, fun c _ between => ?_⟩) sweep.part
    exact between.2.not_gt between.1
  obtain ⟨alive', root', grouped, starts⟩ := alone.applyCuts pos (G.cut SuperNodeMaxSize)
    (pos.divides_cut SuperNodeMaxSize) (fun i _ hi => superAt_mem hi) (fun d hd => .inr hd)
    fun i _ hi out => by
      by_contra special
      exact out (special_mem_cut SuperNodeMaxSize hi special).1
  have links : G.links.Nodup := h.sets
  -- an edge between segments goes to a later one
  have forward : ∀ p x, (G.applyCuts (G.cut SuperNodeMaxSize)).SuperDep p x → G.order p < G.order x := by
    intro p x dep
    obtain ⟨aliveP, aliveX⟩ := grouped.part.superDep_alive dep
    obtain ⟨i, hi, rfl⟩ := exists_superAt (grouped.sortedSuper ▸ grouped.part.sorted p aliveP)
    obtain ⟨j, hj, rfl⟩ := exists_superAt (grouped.sortedSuper ▸ grouped.part.sorted x aliveX)
    obtain ⟨y, z, old, eqP, eqX⟩ := grouped.superDep dep
    have yz := sweep.forward.forward y z old
    have relP := grouped.rel y
    have relX := grouped.rel z
    rw [← eqP, SameSegment, pos.order_superAt hi] at relP
    rw [← eqX, SameSegment, pos.order_superAt hj] at relX
    rw [pos.order_superAt hi, pos.order_superAt hj]
    by_contra notLt
    rcases Nat.lt_or_ge j i with lt | ge
    · rcases (starts i hi aliveP).2 with zero | mem
      · omega
      · exact relX.2 i mem ⟨lt, relP.1.trans yz.le⟩
    · have same : i = j := by omega
      exact dep.ne (same ▸ rfl)
  unfold SuperGraph.graphInitPartition
  unfold SuperGraph.applyCuts at forward ⊢
  generalize (List.foldl _ (G, 0) (G.cut SuperNodeMaxSize)).1 = merged at grouped forward ⊢
  have part := grouped.part.removeEmptySuper
  refine ⟨⟨part.closed, part.superAlive, part.member, part.memberNodup, part.sorted, part.dead,
    part.nodup⟩, ?_, ⟨?_, ?_⟩⟩
  · refine reconnectSuper_connected part ?_
    rw [← grouped.links] at links
    exact links
  · have ascending := sweep.forward.ascending
    rw [← grouped.sortedSuper, ← grouped.order] at ascending
    exact ascending.filter _
  · intro p x dep
    have up := forward p x dep
    rw [← grouped.order] at up
    exact up

/-- The members of a segment are in order. -/
theorem Ordered.segment_listed (h : G.Ordered nodes) (listed : G.Listed) {s e : Nat}
    (he : e ≤ G.sortedSuper.length) : (G.segment s e).Pairwise fun n m => ¬ G.Dep m n := by
  have pos := h.positioned
  have sweep := h.sweep
  refine List.pairwise_flatMap.mpr ⟨fun i hi => ?_, ?_⟩
  · rw [List.mem_range'_1] at hi
    exact listed _ (superAt_mem (by omega))
  · have ascending : (List.range' s (e - s)).Pairwise (· < ·) := List.pairwise_lt_range'
    refine ascending.imp_of_mem ?_
    intro i j hi hj lt n hn m hm dep
    rw [List.mem_range'_1] at hi hj
    have hi' : i < G.sortedSuper.length := by omega
    have hj' : j < G.sortedSuper.length := by omega
    have ne : G.superAt j ≠ G.superAt i := fun same => lt.ne' (superAt_inj pos.nodup hj' hi' same)
    have back := sweep.forward.forward _ _
      (sweep.part.superDep (superAt_mem hj') (superAt_mem hi') ne hm hn dep)
    rw [pos.order_superAt hi', pos.order_superAt hj'] at back
    exact back.not_gt lt

theorem mergeSegment_node (G : SuperGraph Op) (a c : Nat) : (G.mergeSegment a c).node = G.node := by
  unfold SuperGraph.mergeSegment
  induction List.range' (a + 1) (c - (a + 1)) generalizing G with
  | nil => rfl
  | cons i positions ih => exact ih _

theorem applyCuts_node (G : SuperGraph Op) (cuts : List Nat) : (G.applyCuts cuts).node = G.node := by
  unfold SuperGraph.applyCuts
  generalize 0 = a
  induction cuts generalizing G a with
  | nil => rfl
  | cons c cuts ih => exact (ih _ c).trans (G.mergeSegment_node a c)

theorem Ordered.graphInitPartition_keeps (h : G.Ordered nodes) (SuperNodeMaxSize : Nat) :
    G.Keeps (G.graphInitPartition SuperNodeMaxSize) := by
  have pos := h.positioned
  have chain := pos.divides_cut SuperNodeMaxSize
  obtain ⟨same, -, seg⟩ := segmented_foldl (G.cut SuperNodeMaxSize) pos.nodup chain
  have node := G.applyCuts_node (G.cut SuperNodeMaxSize)
  have cutUp : G.Keeps (G.applyCuts (G.cut SuperNodeMaxSize)) := by
    refine ⟨node, same.superType, ?_, ?_⟩
    · intro listed x hx
      rw [dep_of_node node]
      have mem : x ∈ G.sortedSuper := same.sortedSuper ▸ hx
      obtain ⟨i, hi, rfl⟩ := exists_superAt mem
      obtain ⟨s, e, lower, upper, -, members, emptied⟩ := seg.around chain (Nat.zero_le i) hi
      rcases Nat.eq_or_lt_of_le lower.2 with rfl | lt
      · have inOrder := h.segment_listed listed (s := s) upper.2
        rw [← members] at inOrder
        exact inOrder
      · have none := emptied lt
        have empty : (G.applyCuts (G.cut SuperNodeMaxSize)).member (G.superAt i) = [] := none
        rw [empty]
        exact List.Pairwise.nil
    · intro x hx special _
      obtain ⟨i, hi, rfl⟩ := exists_superAt hx
      refine ⟨same.sortedSuper.symm ▸ hx, ?_⟩
      obtain ⟨s, e, lower, upper, uncut, members, -⟩ := seg.around chain (Nat.zero_le i) hi
      obtain ⟨rfl, rfl⟩ := special_alone hi special lower.2 upper.1 uncut
      rw [segment_succ] at members
      exact members
  exact (cutUp.trans (removeEmptySuper_keeps _)).trans (reconnectSuper_keeps _)

end Initial

/-! ## The partitioner -/

/-- The nodes in the order in which they are evaluated. -/
def evaluated (G : SuperGraph Op) : List Nat := G.sortedSuper.flatMap G.member

/-- A graph as the partitioner gets it. -/
structure Partitionable (G : SuperGraph Op) (nodes : List Nat) : Prop extends G.Scheduled nodes where
  distinct : nodes.Nodup
  closed : ∀ n m, G.Dep n m → n ∈ nodes ∧ m ∈ nodes
  sets : G.links.Nodup
  /-- Only super nodes of a special type have several members. -/
  single : ∀ x ∈ G.sortedSuper, G.superType x = .valid → (G.member x).length ≤ 1
  listed : G.Listed

section Partition

variable {G : SuperGraph Op} {nodes : List Nat}

theorem Scheduled.evaluated (h : G.Scheduled nodes) (listed : G.Listed) :
    Linearises G.Dep G.evaluated := by
  refine List.pairwise_flatMap.mpr ⟨listed, ?_⟩
  refine (h.topological.and h.nodup).imp_of_mem ?_
  intro a b ha hb later n hn m hm dep
  refine later.1 ((h.depPrev a ha b).mpr ⟨m, n, dep, h.super b hb m hm, h.super a ha n hn, ?_⟩)
  exact later.2.symm

/-- All passes one after another. -/
theorem graphPartition_ok [WhenOp Op] [ResetOp Op] (h : G.Partitionable nodes)
    {regsrc : List (ResetReg Op)} (signals : ∀ reg ∈ regsrc, reg.HasSignal) (mode : PartitionMode) :
    ∃ R, G.graphPartition regsrc mode = some R ∧ R.graph.Ordered nodes ∧ R.graph.node = G.node ∧
      R.graph.Listed ∧ ∀ x ∈ G.sortedSuper, R.graph.superType x ≠ .valid → G.member x ≠ [] →
        x ∈ R.graph.sortedSuper ∧ R.graph.member x = G.member x := by
  have ordered := h.toScheduled.orderAllNodes h.distinct h.closed h.sets
  obtain ⟨R, eqR, same⟩ := mergeResetAll_ok G.orderAllNodes mode.name signals
  have sweepR := same.sweep ordered.sweep
  have listedR := same.listed ((orderAllNodes_keeps G).listed h.listed)
  have admits : R.graph.Admits (.traverse mode.whenMode mode.mergeWhenSize) := by
    intro x hx valid
    rw [same.member]
    exact h.single x (same.sortedSuper ▸ hx) (same.special x valid)
  obtain ⟨merged, eqM, partM, connM, acyclicM⟩ := sweepR.mergeWhenNodes admits
  have keepsM := sweepR.mergeWhenNodes_keeps admits eqM
  obtain ⟨sorted, eqS, sweepS, -, -⟩ := resort_ok partM connM acyclicM mode.resortWhen
  have keepsS := resort_keeps partM connM acyclicM mode.resortWhen eqS
  have out1 := sweepS.mergeOut1
  have in1 := out1.mergeIn1
  have sublings := in1.mergeSublings mode.addr
  have keepsC := (sweepS.mergeOut1_keeps.trans out1.mergeIn1_keeps).trans (in1.mergeSublings_keeps mode.addr)
  obtain ⟨again, eqA, sweepA, -, order⟩ := resort_ok sublings.part sublings.conn
    sublings.forward.acyclic mode.postCoarsen
  have keepsA := resort_keeps sublings.part sublings.conn sublings.forward.acyclic mode.postCoarsen eqA
  have orderedA : again.Ordered nodes :=
    ⟨sweepA.scheduled h.distinct, h.distinct, sweepA.part.closed, sweepA.conn.nodup, order⟩
  have final := (orderedA.graphInitPartition mode.SuperNodeMaxSize).orderAllNodes h.distinct
  have keeps := ((((keepsM.trans keepsS).trans keepsC).trans keepsA).trans
    (orderedA.graphInitPartition_keeps mode.SuperNodeMaxSize)).trans (orderAllNodes_keeps _)
  refine ⟨{ R with graph := (again.graphInitPartition mode.SuperNodeMaxSize).orderAllNodes }, ?_, final,
    keeps.node.trans same.node, keeps.listed listedR, ?_⟩
  · unfold SuperGraph.graphPartition SuperGraph.graphCoarsen
    rw [eqR, Option.bind_some, eqM, Option.bind_some, eqS, Option.map_some, Option.bind_some]
    dsimp only
    rw [eqA]
    rfl
  · intro x hx special some
    dsimp only at special
    rw [keeps.superType] at special
    have listed : x ∈ R.graph.sortedSuper := same.sortedSuper.symm ▸ hx
    have members : R.graph.member x = G.member x := congrFun same.member x
    obtain ⟨kept, eq⟩ := keeps.special x listed special (members.symm ▸ some)
    exact ⟨kept, eq.trans members⟩

/-- **The partitioner keeps what the nodes compute.**  None of its assertions fails; the
super nodes it leaves are a schedule; evaluated in their order the nodes have the effect
they had before, whatever they do, if nodes without a dependence commute. -/
theorem graphPartition_meaning [WhenOp Op] [ResetOp Op] (h : G.Partitionable nodes)
    {regsrc : List (ResetReg Op)} (signals : ∀ reg ∈ regsrc, reg.HasSignal) (mode : PartitionMode) :
    ∃ R, G.graphPartition regsrc mode = some R ∧ R.graph.Ordered nodes ∧
      (∀ x ∈ G.sortedSuper, R.graph.superType x ≠ .valid → G.member x ≠ [] →
        x ∈ R.graph.sortedSuper ∧ R.graph.member x = G.member x) ∧
      Linearises G.Dep R.graph.evaluated ∧
      ∀ {State : Type} (eval : Nat → State → State),
        (∀ n ∈ nodes, ∀ m ∈ nodes, ¬ G.Dep n m → ¬ G.Dep m n → Function.Commute (eval n) (eval m)) →
        ∀ s, exec eval R.graph.evaluated s = exec eval G.evaluated s := by
  obtain ⟨R, eq, ordered, node, listed, special⟩ := graphPartition_ok h signals mode
  have after : Linearises G.Dep R.graph.evaluated := by
    rw [← dep_of_node node]
    exact ordered.toScheduled.evaluated listed
  refine ⟨R, eq, ordered, special, after, fun eval race s => ?_⟩
  have perm : R.graph.evaluated.Perm G.evaluated := ordered.partition.trans h.partition.symm
  refine exec_eq_of_linearises perm after (h.toScheduled.evaluated h.listed) ?_ s
  intro n hn m hm
  exact race n (ordered.partition.mem_iff.mp hn) m (ordered.partition.mem_iff.mp hm)

end Partition

/-! ### Two nodes guarded by one condition, and an asynchronous reset -/

instance : ResetOp GuardOp where
  isReset _ := true

theorem diamond_partitionable : diamond.Partitionable [0, 4, 1, 2, 3] where
  toScheduled := diamond_ordered.toScheduled
  distinct := diamond_ordered.distinct
  closed := diamond_ordered.closed
  sets := diamond_ordered.sets
  single _ _ _ := le_refl 1
  listed x _ := List.pairwise_singleton _ x

/-- Node `4` resets the register `3`. -/
def diamondReset : List (ResetReg GuardOp) :=
  [⟨3, .asyreset, .op .guard 1 false [.ref 4 1 false [], .null], true⟩]

def diamondMode : PartitionMode where
  name n := toString n
  whenMode := .byId
  mergeWhenSize := 1
  resortWhen := ⟨true, fun a b => decide (a < b)⟩
  addr n := n.toUInt64
  postCoarsen := ⟨true, fun a b => decide (a < b)⟩
  SuperNodeMaxSize := 3

/-- The super node of the reset signal stays by itself; counting the nodes that are
evaluated gives the same before and after. -/
theorem graphPartition_meaning_diamond :
    ∃ R, diamond.graphPartition diamondReset diamondMode = some R ∧
      R.graph.Ordered [0, 4, 1, 2, 3] ∧
      exec (fun n s => s + n) R.graph.evaluated 0 = exec (fun n s => s + n) diamond.evaluated 0 := by
  have signals : ∀ reg ∈ diamondReset, reg.HasSignal := by
    intro reg mem _
    rw [List.mem_singleton.mp mem]
    exact ⟨4, by decide⟩
  obtain ⟨R, eq, ordered, -, -, meaning⟩ :=
    graphPartition_meaning diamond_partitionable signals diamondMode
  refine ⟨R, eq, ordered, meaning (fun n s => s + n) (fun n _ m _ _ _ s => ?_) 0⟩
  exact Nat.add_right_comm s m n

end SuperGraph

end Gsim.MergeNodes
