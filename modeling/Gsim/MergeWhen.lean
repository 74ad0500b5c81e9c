/-
  Gsim/MergeWhen.lean
  ===================
  **Merging nodes under the same condition** (`mergeWhenNodes` in `mergeNodes.cpp`).

  The super nodes are worked off from the sources on.  Those that hold conditions are
  put off until nothing else is left; the nodes guarded by a condition that become
  ready with it form a group.  All of a group become ready at one moment and
  no edge goes back in time, so merging the groups leaves the graph acyclic.
-/
import Gsim.MergeSublings
import Gsim.ReadyFrontier
import Gsim.Kahn

namespace Gsim.MergeNodes

open GraphContraction SuperLinks ExpTree

/-! ## The source -/

/-- How ties are broken: by the seed's ranks, by the stable order, or by ids.  Only
the last leaves the roots in the order of `sortedSuper`. -/
structure Mode where
  less : Nat → Nat → Bool
  sortRoots : Bool

namespace Mode

/-- The order without environment settings. -/
def byId : Mode := ⟨fun a b => decide (a < b), false⟩

/-- A set as a sorted vector. -/
def ordered (mode : Mode) (set : List Nat) : List Nat :=
  set.insertionSort fun a b => mode.less b a = false

def roots (mode : Mode) (set : List Nat) : List Nat :=
  if mode.sortRoots then mode.ordered set else set

end Mode

/-- The operators the pass looks for. -/
class WhenOp (Op : Type) where
  isWhen : Op → Bool

variable {Op : Type} [WhenOp Op]

namespace SuperGraph

/-- The node that the only tree of `member` tests first. -/
def whenNode (G : SuperGraph Op) (member : Nat) : Option Nat :=
  if (G.node member).isArray then none
  else
    match (G.node member).assignTree with
    | [tree] =>
      match tree.root with
      | .op o _ _ (cond :: _) => if WhenOp.isWhen o then cond.getNode else none
      | _ => none
    | _ => none

/-- The super node with the condition that guards `super`. -/
def node2Cond (G : SuperGraph Op) (super : Nat) : Option Nat :=
  if G.superType super = .valid then
    ((G.member super).head?.bind G.whenNode).map G.super
  else none

/-- The super nodes that `cond` guards. -/
def allCond (G : SuperGraph Op) (cond : Nat) : List Nat :=
  G.sortedSuper.filter fun super => G.node2Cond super = some cond

end SuperGraph

structure Traversal where
  times : Nat → Nat
  s : List Nat
  cond : List Nat
  condWait : List Nat
  whenMap : List (Nat × List Nat)

namespace Traversal

def addCond (G : SuperGraph Op) (st : Traversal) (super : Nat) : Traversal :=
  let num := ((G.allCond super).filter fun s2 =>
    st.times s2 + 1 = (G.links.depPrev s2).length).length
  if num ≥ 2 then { st with cond := st.cond ++ [super] }
  else { st with condWait := st.condWait.insert super }

def cond2Queue (st : Traversal) (super : Nat) : Traversal :=
  if super ∈ st.condWait then
    { st with condWait := st.condWait.erase super, cond := st.cond ++ [super] }
  else st

/-- One successor of the super node taken from `s`. -/
def visit (G : SuperGraph Op) (st : Traversal) (next : Nat) : Traversal :=
  let st := { st with times := Function.update st.times next (st.times next + 1) }
  let st :=
    if st.times next + 1 = (G.links.depPrev next).length then
      match G.node2Cond next with
      | some cond => st.cond2Queue cond
      | none => st
    else st
  if st.times next = (G.links.depPrev next).length then
    if G.allCond next ≠ [] then st.addCond G next else { st with s := st.s ++ [next] }
  else st

/-- One successor of a condition. -/
def visitGuarded (G : SuperGraph Op) (mergeCond : Nat) (p : Traversal × List Nat) (next : Nat) :
    Traversal × List Nat :=
  let (st, mergeSuper) := p
  let st := { st with times := Function.update st.times next (st.times next + 1) }
  if st.times next = (G.links.depPrev next).length then
    ({ st with s := st.s ++ [next] },
      if next ∈ G.allCond mergeCond then mergeSuper ++ [next] else mergeSuper)
  else (st, mergeSuper)

/-- The condition at the front is done, after one that waited has been added when
there is no other. -/
def refill (mode : Mode) (st : Traversal) : Traversal :=
  match st.cond, st.condWait with
  | [], pick :: others => st.cond2Queue (Kahn.least mode.less pick others)
  | _, _ => st

/-- A size compared with `MergeWhenSize`, an `int` that is converted to `size_t`. -/
def exceeds (size : Nat) (mergeWhenSize : Int) : Bool :=
  decide ((mergeWhenSize % 2 ^ 64).toNat < size)

/-- One round of the inner loop. -/
def releaseCond (G : SuperGraph Op) (mode : Mode) (mergeWhenSize : Int) (st : Traversal) :
    Traversal :=
  let st := st.refill mode
  match st.cond with
  | [] => st
  | mergeCond :: rest =>
    let (st, mergeSuper) := (mode.ordered (G.links.depNext mergeCond)).foldl
      (visitGuarded G mergeCond) ({ st with cond := rest }, [])
    if exceeds mergeSuper.length mergeWhenSize then
      { st with whenMap := st.whenMap ++ [(mergeCond, mergeSuper)] }
    else st

/-- The two nested loops, one round of either: the inner one runs while `s` is empty. -/
def step (G : SuperGraph Op) (mode : Mode) (mergeWhenSize : Int) (st : Traversal) : Traversal :=
  match st.s with
  | top :: rest => (mode.ordered (G.links.depNext top)).foldl (visit G) { st with s := rest }
  | [] => st.releaseCond G mode mergeWhenSize

def run (G : SuperGraph Op) (mode : Mode) (mergeWhenSize : Int) : Nat → Traversal → Traversal
  | 0, st => st
  | fuel + 1, st => run G mode mergeWhenSize fuel (st.step G mode mergeWhenSize)

/-- The sources wait. -/
def start (G : SuperGraph Op) (mode : Mode) : Traversal :=
  let sources := G.sortedSuper.filter fun super => (G.links.depPrev super).length = 0
  let st := (sources.filter fun super => G.allCond super ≠ []).foldl (addCond G)
    ⟨fun _ => 0, [], [], [], []⟩
  { st with s := mode.roots (sources.filter fun super => G.allCond super = []) }

/-- The groups to merge; nothing is traversed when only conditions are sources. -/
def whenGroups (G : SuperGraph Op) (mode : Mode) (mergeWhenSize : Int) : List (Nat × List Nat) :=
  let st := start G mode
  if st.s = [] then st.whenMap
  else (st.run G mode mergeWhenSize G.sortedSuper.length).whenMap

/-! ## What the traversal keeps -/

/-- The super nodes that are ready and not done. -/
def waiting (st : Traversal) : List Nat := st.s ++ st.cond ++ st.condWait

/-- Each group became ready with its condition. -/
structure GroupsOk (G : SuperGraph Op) (done : List Nat) (whenMap : List (Nat × List Nat)) :
    Prop where
  cond : ∀ e ∈ whenMap, e.1 ∈ done
  keys : whenMap.Pairwise fun e e' => e.1 ≠ e'.1
  nonempty : ∀ e ∈ whenMap, e.2 ≠ []
  nodup : ∀ e ∈ whenMap, e.2.Nodup
  guarded : ∀ e ∈ whenMap, ∀ v ∈ e.2, v ∈ G.sortedSuper ∧ G.superType v = .valid
  last : ∀ e ∈ whenMap, ∀ v ∈ e.2, e.1 ∈ G.links.depPrev v ∧
    ∀ u ∈ G.links.depPrev v, u ∈ done ∧ done.idxOf u ≤ done.idxOf e.1

/-- Counters and queues in the middle of a round. -/
abbrev Front (G : SuperGraph Op) (done pending : List Nat) (st : Traversal) : Prop :=
  ReadyFrontier.Inv G.sortedSuper G.links.depPrev done pending st.waiting st.times

theorem mode_ordered_perm (mode : Mode) (set : List Nat) : (mode.ordered set).Perm set :=
  List.perm_insertionSort _ set

omit [WhenOp Op] in
/-- The relation sets are a graph that can be worked off. -/
theorem isGraph {G : SuperGraph Op} {nodes : List Nat}
    (part : G.Partitioned nodes (· ∈ G.sortedSuper)) (conn : G.Connected (· ∈ G.sortedSuper)) :
    ReadyFrontier.IsGraph G.sortedSuper G.links.depPrev G.links.depNext where
  predNodup v _ := conn.nodup.depPrev v
  succNodup u _ := conn.nodup.depNext u
  mirrored := by
    intro u hu v
    rw [conn.shows.depNext u v hu]
    constructor
    · intro dep
      have hv := (part.superDep_alive dep).2
      exact ⟨hv, (conn.shows.depPrev v u hv).mpr dep⟩
    · rintro ⟨hv, mem⟩
      exact (conn.shows.depPrev v u hv).mp mem
  predMem v hv u mem := (part.superDep_alive ((conn.shows.depPrev v u hv).mp mem)).1

section Rounds

variable {G : SuperGraph Op} {done pending : List Nat} {st : Traversal}

theorem cond2Queue_waiting (st : Traversal) (super : Nat) :
    (st.cond2Queue super).waiting.Perm st.waiting := by
  unfold cond2Queue waiting
  split
  · rename_i mem
    show (st.s ++ (st.cond ++ [super]) ++ st.condWait.erase super).Perm
      (st.s ++ st.cond ++ st.condWait)
    simp only [List.append_assoc, List.singleton_append]
    exact ((List.perm_cons_erase mem).symm.append_left _).append_left _
  · exact List.Perm.refl _

@[simp] theorem cond2Queue_times (st : Traversal) (super : Nat) :
    (st.cond2Queue super).times = st.times := by
  unfold cond2Queue
  split <;> rfl

@[simp] theorem cond2Queue_whenMap (st : Traversal) (super : Nat) :
    (st.cond2Queue super).whenMap = st.whenMap := by
  unfold cond2Queue
  split <;> rfl

theorem addCond_waiting {super : Nat} (fresh : super ∉ st.waiting) :
    (st.addCond G super).waiting.Perm (super :: st.waiting) := by
  unfold addCond waiting
  dsimp only
  split
  · have middle : (st.s ++ (st.cond ++ [super]) ++ st.condWait) =
        (st.s ++ st.cond) ++ super :: st.condWait := by simp
    rw [middle]
    exact List.perm_middle
  · have out : super ∉ st.condWait := fun mem => fresh (List.mem_append_right _ mem)
    rw [List.insert_of_not_mem out]
    exact List.perm_middle

theorem addCond_times (st : Traversal) (super : Nat) : (st.addCond G super).times = st.times := by
  unfold addCond
  dsimp only
  split <;> rfl

theorem addCond_whenMap (st : Traversal) (super : Nat) :
    (st.addCond G super).whenMap = st.whenMap := by
  unfold addCond
  dsimp only
  split <;> rfl

theorem push_waiting (st : Traversal) (super : Nat) :
    ({ st with s := st.s ++ [super] } : Traversal).waiting.Perm (super :: st.waiting) := by
  show (st.s ++ [super] ++ st.cond ++ st.condWait).Perm (super :: (st.s ++ st.cond ++ st.condWait))
  simp only [List.append_assoc, List.singleton_append]
  exact List.perm_middle

/-- A successor that is not a condition of a group counts. -/
theorem Front.visit {next : Nat} (h : Front G done (next :: pending) st)
    (hnext : next ∈ G.sortedSuper) :
    Front G done pending (st.visit G next) ∧ (st.visit G next).whenMap = st.whenMap := by
  have absent := h.not_mem_of_pending hnext
  -- moving conditions between the queues changes nothing
  have moved : ∀ st' : Traversal, st'.waiting.Perm st.waiting →
      st'.times = Function.update st.times next (st.times next + 1) → st'.whenMap = st.whenMap →
      Front G done pending (if st'.times next = (G.links.depPrev next).length then
        if G.allCond next ≠ [] then st'.addCond G next else { st' with s := st'.s ++ [next] }
        else st') ∧
      (if st'.times next = (G.links.depPrev next).length then
        if G.allCond next ≠ [] then st'.addCond G next else { st' with s := st'.s ++ [next] }
        else st').whenMap = st.whenMap := by
    intro st' same times whenMap
    have now : st'.times next = st.times next + 1 := by rw [times, Function.update_self]
    have fresh : next ∉ st'.waiting := fun mem =>
      absent (List.mem_append_right _ (same.mem_iff.mp mem))
    rw [now]
    split
    · rename_i last
      have ready := h.tell_ready hnext last
      rw [← times] at ready
      split
      · refine ⟨?_, (addCond_whenMap st' next).trans whenMap⟩
        show ReadyFrontier.Inv _ _ _ _ _ (st'.addCond G next).times
        rw [addCond_times]
        exact ready.perm ((addCond_waiting fresh).trans (same.cons next)).symm
      · exact ⟨ready.perm ((push_waiting st' next).trans (same.cons next)).symm, whenMap⟩
    · rename_i early
      have told := h.tell_early hnext early
      rw [← times] at told
      exact ⟨told.perm same.symm, whenMap⟩
  unfold Traversal.visit
  dsimp only
  split
  · split
    · refine moved _ (cond2Queue_waiting _ _) ?_ ?_
      · exact cond2Queue_times _ _
      · exact cond2Queue_whenMap _ _
    · exact moved _ (List.Perm.refl _) rfl rfl
  · exact moved _ (List.Perm.refl _) rfl rfl

theorem Front.foldl_visit {nexts : List Nat} (h : Front G done nexts st)
    (hnexts : ∀ x ∈ nexts, x ∈ G.sortedSuper) :
    Front G done [] (nexts.foldl (Traversal.visit G) st) ∧
      (nexts.foldl (Traversal.visit G) st).whenMap = st.whenMap := by
  induction nexts generalizing st with
  | nil => exact ⟨h, rfl⟩
  | cons next nexts ih =>
    obtain ⟨first, kept⟩ := h.visit (hnexts next List.mem_cons_self)
    obtain ⟨rest, kept'⟩ := ih first fun x hx => hnexts x (List.mem_cons_of_mem _ hx)
    exact ⟨rest, kept'.trans kept⟩

/-- The part of the group found so far, while its condition `c` is told to its
successors. -/
structure Gathered (G : SuperGraph Op) (c : Nat) (st : Traversal) (group : List Nat) : Prop where
  nodup : group.Nodup
  waiting : ∀ v ∈ group, v ∈ st.waiting
  guarded : ∀ v ∈ group, v ∈ G.sortedSuper ∧ G.superType v = .valid
  after : ∀ v ∈ group, v ∈ G.links.depNext c

theorem mem_allCond_valid {c v : Nat} (h : v ∈ G.allCond c) :
    v ∈ G.sortedSuper ∧ G.superType v = .valid := by
  obtain ⟨mem, cond⟩ := List.mem_filter.mp h
  refine ⟨mem, ?_⟩
  have cond := of_decide_eq_true cond
  unfold SuperGraph.node2Cond at cond
  split at cond
  · assumption
  · cases cond

theorem Front.visitGuarded {c next : Nat} {group : List Nat}
    (h : Front G done (next :: pending) st) (hnext : next ∈ G.sortedSuper)
    (after : next ∈ G.links.depNext c) (gathered : Gathered G c st group) :
    Front G done pending (visitGuarded G c (st, group) next).1 ∧
      Gathered G c (visitGuarded G c (st, group) next).1 (visitGuarded G c (st, group) next).2 ∧
      (visitGuarded G c (st, group) next).1.whenMap = st.whenMap := by
  have absent := h.not_mem_of_pending hnext
  have fresh : next ∉ st.waiting := fun mem => absent (List.mem_append_right _ mem)
  unfold Traversal.visitGuarded
  dsimp only
  split
  · rename_i last
    rw [Function.update_self] at last
    have ready := h.tell_ready hnext last
    let told : Traversal := { st with times := Function.update st.times next (st.times next + 1) }
    have pushed := push_waiting told next
    refine ⟨ready.perm pushed.symm, ?_, rfl⟩
    have keep : ∀ v ∈ group, v ∈ ({ told with s := told.s ++ [next] } : Traversal).waiting :=
      fun v hv => pushed.mem_iff.mpr (List.mem_cons_of_mem _ (gathered.waiting v hv))
    split
    · rename_i mem
      refine ⟨?_, ?_, ?_, ?_⟩
      · refine List.nodup_append.mpr ⟨gathered.nodup, List.nodup_singleton next, ?_⟩
        rintro v hv w hw rfl
        exact fresh (List.mem_singleton.mp hw ▸ gathered.waiting v hv)
      · intro v hv
        rcases List.mem_append.mp hv with old | new
        · exact keep v old
        · rw [List.mem_singleton.mp new]
          exact pushed.mem_iff.mpr List.mem_cons_self
      · intro v hv
        rcases List.mem_append.mp hv with old | new
        · exact gathered.guarded v old
        · rw [List.mem_singleton.mp new]
          exact mem_allCond_valid mem
      · intro v hv
        rcases List.mem_append.mp hv with old | new
        · exact gathered.after v old
        · rw [List.mem_singleton.mp new]
          exact after
    · exact ⟨gathered.nodup, keep, gathered.guarded, gathered.after⟩
  · rename_i early
    rw [Function.update_self] at early
    exact ⟨h.tell_early hnext early,
      ⟨gathered.nodup, gathered.waiting, gathered.guarded, gathered.after⟩, rfl⟩

theorem Front.foldl_visitGuarded {c : Nat} {nexts group : List Nat} (h : Front G done nexts st)
    (hnexts : ∀ x ∈ nexts, x ∈ G.sortedSuper ∧ x ∈ G.links.depNext c)
    (gathered : Gathered G c st group) :
    Front G done [] (nexts.foldl (Traversal.visitGuarded G c) (st, group)).1 ∧
      Gathered G c (nexts.foldl (Traversal.visitGuarded G c) (st, group)).1
        (nexts.foldl (Traversal.visitGuarded G c) (st, group)).2 ∧
      (nexts.foldl (Traversal.visitGuarded G c) (st, group)).1.whenMap = st.whenMap := by
  induction nexts generalizing st group with
  | nil => exact ⟨h, gathered, rfl⟩
  | cons next nexts ih =>
    obtain ⟨mem, after⟩ := hnexts next List.mem_cons_self
    obtain ⟨first, gathered, kept⟩ := h.visitGuarded mem after gathered
    obtain ⟨rest, gathered, kept'⟩ := ih first
      (fun x hx => hnexts x (List.mem_cons_of_mem _ hx)) gathered
    exact ⟨rest, gathered, kept'.trans kept⟩

omit [WhenOp Op] in
/-- Placing further super nodes does not change what is known about the groups. -/
theorem GroupsOk.append {whenMap : List (Nat × List Nat)} (h : GroupsOk G done whenMap) (u : Nat) :
    GroupsOk G (done ++ [u]) whenMap where
  cond e he := List.mem_append_left _ (h.cond e he)
  keys := h.keys
  nonempty := h.nonempty
  nodup := h.nodup
  guarded := h.guarded
  last := by
    intro e he v hv
    obtain ⟨pred, last⟩ := h.last e he v hv
    refine ⟨pred, fun w hw => ?_⟩
    obtain ⟨mem, le⟩ := last w hw
    refine ⟨List.mem_append_left _ mem, ?_⟩
    rw [List.idxOf_append_of_mem mem, List.idxOf_append_of_mem (h.cond e he)]
    exact le

omit [WhenOp Op] in
/-- The group of a condition that has just been placed. -/
theorem GroupsOk.add {whenMap : List (Nat × List Nat)} {c : Nat} {group : List Nat}
    (h : GroupsOk G done whenMap) (fresh : c ∉ done) (nonempty : group ≠ []) (nodup : group.Nodup)
    (guarded : ∀ v ∈ group, v ∈ G.sortedSuper ∧ G.superType v = .valid)
    (preds : ∀ v ∈ group, c ∈ G.links.depPrev v ∧ ∀ u ∈ G.links.depPrev v, u ∈ done ++ [c]) :
    GroupsOk G (done ++ [c]) (whenMap ++ [(c, group)]) := by
  have old := h.append c
  refine ⟨?_, ?_, ?_, ?_, ?_, ?_⟩
  · intro e he
    rcases List.mem_append.mp he with he | he
    · exact old.cond e he
    · rw [List.mem_singleton.mp he]
      exact List.mem_append_right _ (List.mem_singleton_self c)
  · refine List.pairwise_append.mpr ⟨h.keys, List.pairwise_singleton _ _, ?_⟩
    intro e he e' he' eq
    rw [List.mem_singleton.mp he'] at eq
    have same : e.1 = c := eq
    exact fresh (same ▸ h.cond e he)
  · intro e he
    rcases List.mem_append.mp he with he | he
    · exact h.nonempty e he
    · rw [List.mem_singleton.mp he]
      exact nonempty
  · intro e he
    rcases List.mem_append.mp he with he | he
    · exact h.nodup e he
    · rw [List.mem_singleton.mp he]
      exact nodup
  · intro e he
    rcases List.mem_append.mp he with he | he
    · exact h.guarded e he
    · rw [List.mem_singleton.mp he]
      exact guarded
  · intro e he
    rcases List.mem_append.mp he with he | he
    · exact old.last e he
    · rw [List.mem_singleton.mp he]
      intro v hv
      obtain ⟨pred, all⟩ := preds v hv
      refine ⟨pred, fun u hu => ⟨all u hu, ?_⟩⟩
      -- nothing comes after the condition
      have here : (done ++ [c]).idxOf c = done.length := by
        rw [List.idxOf_append_of_notMem fresh, List.idxOf_cons_self, Nat.add_zero]
      have lt := List.idxOf_lt_length_of_mem (all u hu)
      rw [List.length_append, List.length_singleton] at lt
      rw [here]
      exact Nat.le_of_lt_succ lt

/-- Between two rounds. -/
structure Between (G : SuperGraph Op) (done : List Nat) (st : Traversal) : Prop where
  front : Front G done [] st
  groups : GroupsOk G done st.whenMap

theorem refill_perm (mode : Mode) (st : Traversal) : (st.refill mode).waiting.Perm st.waiting := by
  unfold refill
  split
  · exact cond2Queue_waiting _ _
  · exact List.Perm.refl _

theorem refill_times (mode : Mode) (st : Traversal) : (st.refill mode).times = st.times := by
  unfold refill
  split
  · exact cond2Queue_times _ _
  · rfl

theorem refill_whenMap (mode : Mode) (st : Traversal) : (st.refill mode).whenMap = st.whenMap := by
  unfold refill
  split
  · exact cond2Queue_whenMap _ _
  · rfl

/-- The queue of conditions is empty only when nothing waits for it. -/
theorem refill_cond {mode : Mode} {st : Traversal} (h : (st.refill mode).cond = []) :
    st.cond = [] ∧ st.condWait = [] := by
  unfold refill at h
  split at h
  · rename_i pick others _ wait
    have mem := Kahn.least_mem mode.less pick others
    unfold cond2Queue at h
    rw [wait, if_pos mem] at h
    exact absurd h (by simp)
  · rename_i other
    refine ⟨h, ?_⟩
    cases wait : st.condWait with
    | nil => rfl
    | cons pick others => exact absurd wait (other pick others h)

section Step

variable {nodes : List Nat} (part : G.Partitioned nodes (· ∈ G.sortedSuper))
  (conn : G.Connected (· ∈ G.sortedSuper)) (mode : Mode) (mergeWhenSize : Int)
include part conn

omit [WhenOp Op] in
theorem mem_ordered_depNext {u x : Nat} (hu : u ∈ G.sortedSuper)
    (hx : x ∈ mode.ordered (G.links.depNext u)) :
    x ∈ G.sortedSuper ∧ x ∈ G.links.depNext u := by
  have mem := (mode_ordered_perm mode _).mem_iff.mp hx
  exact ⟨(((isGraph part conn).mirrored u hu x).mp mem).1, mem⟩

/-- A round of the inner loop places a condition, or nothing waits. -/
theorem Between.releaseCond (h : Between G done st) (empty : st.s = []) :
    (st.waiting = [] ∧ st.releaseCond G mode mergeWhenSize = st) ∨
      ∃ c, Between G (done ++ [c]) (st.releaseCond G mode mergeWhenSize) := by
  have graph := isGraph part conn
  unfold Traversal.releaseCond
  dsimp only
  split
  · rename_i none
    obtain ⟨noCond, noWait⟩ := refill_cond none
    left
    refine ⟨by simp [waiting, empty, noCond, noWait], ?_⟩
    simp [refill, noCond, noWait]
  · rename_i c rest cond
    right
    refine ⟨c, ?_⟩
    have front : ReadyFrontier.Inv G.sortedSuper G.links.depPrev done []
        (st.refill mode).waiting (st.refill mode).times := by
      rw [refill_times]
      exact h.front.perm (refill_perm mode st).symm
    let popped : Traversal := { st.refill mode with cond := rest }
    have split : (st.refill mode).waiting.Perm (c :: popped.waiting) := by
      show ((st.refill mode).s ++ (st.refill mode).cond ++ (st.refill mode).condWait).Perm
        (c :: ((st.refill mode).s ++ rest ++ (st.refill mode).condWait))
      rw [cond]
      simp only [List.append_assoc, List.cons_append]
      exact List.perm_middle
    have hc : c ∈ G.sortedSuper := front.sub c (List.mem_append_right _
      (split.mem_iff.mpr List.mem_cons_self))
    have fresh : c ∉ done := by
      intro mem
      exact (List.nodup_append.mp front.nodup).2.2 c mem c
        (split.mem_iff.mpr List.mem_cons_self) rfl
    have placed : Front G (done ++ [c]) (mode.ordered (G.links.depNext c)) popped :=
      front.place graph split (mode_ordered_perm mode _)
    have nexts := fun x hx => mem_ordered_depNext part conn mode hc (x := x) hx
    have none : Gathered G c popped [] := ⟨List.nodup_nil, by simp, by simp, by simp⟩
    obtain ⟨front', gathered, kept⟩ := placed.foldl_visitGuarded nexts none
    have groups := h.groups
    rw [← refill_whenMap mode st, show (st.refill mode).whenMap = popped.whenMap from rfl,
      ← kept] at groups
    generalize (mode.ordered (G.links.depNext c)).foldl (Traversal.visitGuarded G c) (popped, []) =
      told at front' gathered groups
    split
    · rename_i big
      refine ⟨front', groups.add fresh ?_ gathered.nodup gathered.guarded ?_⟩
      · intro nil
        have lt := of_decide_eq_true big
        rw [nil] at lt
        exact Nat.not_lt_zero _ lt
      · intro v hv
        refine ⟨((graph.mirrored c hc v).mp (gathered.after v hv)).2, ?_⟩
        exact front'.preds_done (List.mem_append_right _ (gathered.waiting v hv))
    · exact ⟨front', groups.append c⟩

theorem Between.step (h : Between G done st) :
    (st.waiting = [] ∧ st.step G mode mergeWhenSize = st) ∨
      ∃ u, Between G (done ++ [u]) (st.step G mode mergeWhenSize) := by
  unfold Traversal.step
  split
  · rename_i top rest s
    right
    refine ⟨top, ?_⟩
    let popped : Traversal := { st with s := rest }
    have split : st.waiting.Perm (top :: popped.waiting) := by
      show (st.s ++ st.cond ++ st.condWait).Perm (top :: (rest ++ st.cond ++ st.condWait))
      rw [s]
      exact List.Perm.refl _
    have htop : top ∈ G.sortedSuper := h.front.sub top (List.mem_append_right _
      (split.mem_iff.mpr List.mem_cons_self))
    have placed : Front G (done ++ [top]) (mode.ordered (G.links.depNext top)) popped :=
      h.front.place (isGraph part conn) split (mode_ordered_perm mode _)
    obtain ⟨front, kept⟩ := placed.foldl_visit fun x hx =>
      (mem_ordered_depNext part conn mode htop hx).1
    refine ⟨front, ?_⟩
    rw [kept]
    exact h.groups.append top
  · rename_i empty
    exact h.releaseCond part conn mode mergeWhenSize empty

theorem Between.run (h : Between G done st) (fuel : Nat) :
    ∃ done', Between G done' (st.run G mode mergeWhenSize fuel) ∧
      (done.length + fuel ≤ done'.length ∨ (st.run G mode mergeWhenSize fuel).waiting = []) := by
  induction fuel generalizing done st with
  | zero => exact ⟨done, h, .inl (le_refl _)⟩
  | succ fuel ih =>
    rcases h.step part conn mode mergeWhenSize with ⟨empty, same⟩ | ⟨u, h'⟩
    · rw [Traversal.run, same]
      obtain ⟨done', h', more⟩ := ih h
      have stays : ∀ fuel, st.run G mode mergeWhenSize fuel = st := by
        intro fuel
        induction fuel with
        | zero => rfl
        | succ fuel ih => rw [Traversal.run, same, ih]
      refine ⟨done', h', .inr ?_⟩
      rw [stays]
      exact empty
    · obtain ⟨done', h', more⟩ := ih h'
      refine ⟨done', h', more.imp (fun le => ?_) id⟩
      rw [List.length_append, List.length_singleton] at le
      omega

end Step

/-! ### The start -/

theorem addCond_s (st : Traversal) (super : Nat) : (st.addCond G super).s = st.s := by
  unfold addCond
  dsimp only
  split <;> rfl

theorem foldl_addCond (l : List Nat) {st : Traversal} (nodup : (l ++ st.waiting).Nodup) :
    (l.foldl (addCond G) st).waiting.Perm (l ++ st.waiting) ∧
      (l.foldl (addCond G) st).s = st.s ∧ (l.foldl (addCond G) st).times = st.times ∧
      (l.foldl (addCond G) st).whenMap = st.whenMap := by
  induction l generalizing st with
  | nil => exact ⟨List.Perm.refl _, rfl, rfl, rfl⟩
  | cons super l ih =>
    obtain ⟨out, nodup⟩ := List.nodup_cons.mp nodup
    have added := @addCond_waiting Op _ G st super fun mem => out (List.mem_append_right _ mem)
    have both : (l ++ (st.addCond G super).waiting).Perm (super :: (l ++ st.waiting)) :=
      (added.append_left l).trans List.perm_middle
    obtain ⟨perm, s, times, whenMap⟩ := ih (both.nodup_iff.mpr (List.nodup_cons.mpr ⟨out, nodup⟩))
    refine ⟨perm.trans both, s.trans (addCond_s st super), times.trans (addCond_times st super),
      whenMap.trans (addCond_whenMap st super)⟩

theorem start_between {nodes : List Nat} (part : G.Partitioned nodes (· ∈ G.sortedSuper))
    (mode : Mode) : Between G [] (start G mode) := by
  let sources := G.sortedSuper.filter fun super => (G.links.depPrev super).length = 0
  let conds := sources.filter fun super => G.allCond super ≠ []
  let others := sources.filter fun super => G.allCond super = []
  have nodup : sources.Nodup := part.nodup.filter _
  obtain ⟨perm, empty, times, whenMap⟩ := @foldl_addCond Op _ G conds
    ⟨fun _ => 0, [], [], [], []⟩ (by simpa [waiting] using nodup.filter _)
  have roots : (mode.roots others).Perm others := by
    unfold Mode.roots
    split
    · exact mode_ordered_perm mode others
    · exact List.Perm.refl _
  have all : (start G mode).waiting.Perm sources := by
    have queued : ((conds.foldl (addCond G) ⟨fun _ => 0, [], [], [], []⟩).cond ++
        (conds.foldl (addCond G) ⟨fun _ => 0, [], [], [], []⟩).condWait).Perm conds := by
      have := perm
      unfold waiting at this
      rw [empty] at this
      simpa using this
    show (mode.roots others ++ (conds.foldl (addCond G) ⟨fun _ => 0, [], [], [], []⟩).cond ++
      (conds.foldl (addCond G) ⟨fun _ => 0, [], [], [], []⟩).condWait).Perm sources
    rw [List.append_assoc]
    refine (roots.append queued).trans ?_
    have split := List.filter_append_perm (fun super => decide (G.allCond super = [])) sources
    simpa [conds, others] using split
  refine ⟨?_, ?_⟩
  · show ReadyFrontier.Inv _ _ [] [] (start G mode).waiting
      (conds.foldl (addCond G) ⟨fun _ => 0, [], [], [], []⟩).times
    rw [times]
    refine (ReadyFrontier.Inv.start nodup fun v => ?_).perm all.symm
    simp [sources, List.length_eq_zero_iff]
  · show GroupsOk G [] (conds.foldl (addCond G) ⟨fun _ => 0, [], [], [], []⟩).whenMap
    rw [whenMap]
    exact ⟨by simp, List.Pairwise.nil, by simp, by simp, by simp, by simp⟩

/-- The groups the traversal decides on, and the order it works the super nodes off in;
it ends when nothing waits any more. -/
theorem whenGroups_ok {nodes : List Nat} (part : G.Partitioned nodes (· ∈ G.sortedSuper))
    (conn : G.Connected (· ∈ G.sortedSuper)) (mode : Mode) (mergeWhenSize : Int) :
    ∃ done waiting times,
      ReadyFrontier.Inv G.sortedSuper G.links.depPrev done [] waiting times ∧
      GroupsOk G done (whenGroups G mode mergeWhenSize) ∧
      ((start G mode).s ≠ [] → waiting = []) := by
  have begun := start_between part mode
  unfold whenGroups
  dsimp only
  split
  · rename_i none
    exact ⟨[], _, _, begun.front, begun.groups, fun some => absurd none some⟩
  · obtain ⟨done, ended, more⟩ := begun.run part conn mode mergeWhenSize G.sortedSuper.length
    refine ⟨done, _, _, ended.front, ended.groups, fun _ => ?_⟩
    rcases more with le | empty
    · have bound := ended.front.length_le
      rw [List.length_nil] at le
      exact List.length_eq_zero_iff.mp (by omega)
    · exact empty

end Rounds

end Traversal

end Gsim.MergeNodes
