/-
  Gsim/TopoSort.lean
  ==================
  **Ordering the super nodes** (`topoSort.cpp`, `resort` of `graphPartition.cpp`, and
  the replay of a recorded order, `seedOrder.cpp`).

  Super nodes whose `depPrev` are all out wait in a frontier: a set ordered by the seed
  ranks, a set ordered by a stable key, or a stack.  One that leaves the frontier counts
  up its `depNext`.  `topoSort` without a set keeps the counters in the super nodes,
  under an epoch; everywhere else they are maps.
-/
import Gsim.ComparatorSet
import Gsim.ReadyFrontier
import Mathlib.Data.String.Basic
import Mathlib.Data.List.Lex

namespace Gsim.TopoSort

open ReadyFrontier ComparatorSet

/-- The super nodes with their dependences.  `supersrc` lists, once each, super nodes that
    include all those without a `depPrev`. -/
structure DepGraph where
  supers : List Nat
  depPrev : Nat → List Nat
  depNext : Nat → List Nat
  supersrc : List Nat
  nodup : supers.Nodup
  mirrored : IsGraph supers depPrev depNext
  acyclic : ∀ x, ¬ Relation.TransGen (fun u v => v ∈ supers ∧ u ∈ depPrev v) x x
  supersrcNodup : supersrc.Nodup
  sources : ∀ v, depPrev v = [] → (v ∈ supersrc ↔ v ∈ supers)

/-- What the orders read of a super node, apart from its dependences: the names and line
    numbers of its members, and where it lies in memory. -/
structure SuperData where
  member : Nat → List (String × Int)
  addr : Nat ↪ Nat

/-! ## The stable order -/

def llongMax : Int := 9223372036854775807

namespace SuperData

variable (S : SuperData) (D : DepGraph)

def firstLine (super : Nat) : Int := ((S.member super).head?.map (·.2)).getD llongMax

def firstName (super : Nat) : String := ((S.member super).head?.map (·.1)).getD ""

def names (super : Nat) : List String := (S.member super).map (·.1)

/-- The loop over the member names: the first difference decides. -/
def namesLess : List String → List String → Option Bool
  | a :: as, b :: bs => if a ≠ b then some (decide (a < b)) else namesLess as bs
  | _, _ => none

/-- `SuperNodeStableLess`. -/
def superNodeStableLess (a b : Nat) : Bool :=
  if S.firstLine a ≠ S.firstLine b then decide (S.firstLine a < S.firstLine b)
  else if S.firstName a ≠ S.firstName b then decide (S.firstName a < S.firstName b)
  else if (S.member a).length ≠ (S.member b).length then
    decide ((S.member a).length < (S.member b).length)
  else
    match namesLess (S.names a) (S.names b) with
    | some less => less
    | none =>
      if (D.depPrev a).length ≠ (D.depPrev b).length then
        decide ((D.depPrev a).length < (D.depPrev b).length)
      else if (D.depNext a).length ≠ (D.depNext b).length then
        decide ((D.depNext a).length < (D.depNext b).length)
      else decide (a < b)

theorem namesLess_eq {as bs : List String} (h : as.length = bs.length) :
    namesLess as bs = if as ≠ bs then some (decide (as < bs)) else none := by
  induction as generalizing bs with
  | nil =>
    cases bs with
    | nil => rfl
    | cons b bs => cases h
  | cons a as ih =>
    cases bs with
    | nil => cases h
    | cons b bs =>
      have ih := @ih bs (by simpa using h)
      unfold namesLess
      by_cases eq : a = b
      · subst eq
        rw [if_neg (by simp), ih]
        simp
      · rw [if_pos eq, if_pos (by simp [eq])]
        simp [List.cons_lt_cons_iff, eq]

theorem superNodeStableLess_eq : S.superNodeStableLess D =
    lexBy S.firstLine (lexBy S.firstName (lexBy (fun a => (S.member a).length) (lexBy S.names
      (lexBy (fun a => (D.depPrev a).length) (lexBy (fun a => (D.depNext a).length)
        fun a b => decide (a < b)))))) := by
  funext a b
  unfold superNodeStableLess lexBy
  split
  · rfl
  · split
    · rfl
    · split
      · rfl
      · rename_i same
        have length : (S.names a).length = (S.names b).length := by
          simpa [names] using same
        rw [namesLess_eq length]
        by_cases eq : S.names a = S.names b
        · rw [if_neg (not_not.mpr eq), if_neg (not_not.mpr eq)]
        · rw [if_pos eq, if_pos eq]
          exact decide_eq_decide.mpr Iff.rfl

theorem superNodeStableLess_strict : IsStrict (S.superNodeStableLess D) := by
  rw [superNodeStableLess_eq]
  exact ((((((isStrict_lt (Function.injective_id (α := Nat))).lexBy _).lexBy _).lexBy _).lexBy _).lexBy
    _).lexBy _

/-! ## The seed ranks -/

/-- `seedRankByName`, filled by `emplace(name, rank ++)`: the first line with the name. -/
def seedRankByName (seed : List String) (name : String) : WithTop ℕ :=
  if name ∈ seed then (seed.idxOf name : ℕ) else ⊤

/-- `mtSeedRankOf`; `⊤` is `LLONG_MAX`. -/
def mtSeedRankOf (seed : List String) (super : Nat) : WithTop ℕ :=
  (S.names super).foldl (fun best name => min best (seedRankByName seed name)) ⊤

/-- `SeedRankLess`. -/
def seedRankLess (seed : List String) (a b : Nat) : Bool :=
  let ra := S.mtSeedRankOf seed a
  let rb := S.mtSeedRankOf seed b
  if ra ≠ rb then decide (ra < rb)
  else if ra = ⊤ then S.superNodeStableLess D a b
  else decide (S.addr a < S.addr b)

theorem seedRankLess_eq (seed : List String) : S.seedRankLess D seed =
    lexBy (S.mtSeedRankOf seed) fun a b =>
      if S.mtSeedRankOf seed a = ⊤ then S.superNodeStableLess D a b
      else decide (S.addr a < S.addr b) := rfl

theorem seedRankLess_strict (seed : List String) : IsStrict (S.seedRankLess D seed) := by
  have stable := S.superNodeStableLess_strict D
  have pointer := isStrict_lt S.addr.injective
  rw [seedRankLess_eq]
  refine isStrict_lexBy ?_ ?_ ?_
  · intro a
    split
    · exact stable.irrefl a
    · exact pointer.irrefl a
  · intro a b c ab bc
    rw [← ab]
    split
    · exact stable.trans a b c
    · exact pointer.trans a b c
  · intro a b ab ne
    rw [← ab]
    split
    · exact stable.total a b ne
    · exact pointer.total a b ne

theorem seedRankLess_of_lt {seed : List String} {a b : Nat}
    (h : S.mtSeedRankOf seed a < S.mtSeedRankOf seed b) : S.seedRankLess D seed a b = true := by
  unfold seedRankLess
  dsimp only
  rw [if_pos h.ne]
  exact decide_eq_true h

/-- The lines `mtSeedWrite` writes: super nodes are known by their first members. -/
def mtSeedWrite (sortedSuper : List Nat) : List String :=
  sortedSuper.filterMap fun super => (S.names super).head?

/-- Every super node has a member, and no name occurs twice. -/
structure Named (supers : List Nat) : Prop where
  nonempty : ∀ super ∈ supers, S.names super ≠ []
  unique : (supers.flatMap S.names).Nodup

theorem foldl_min_top (rank : String → WithTop ℕ) (best : WithTop ℕ) {names : List String}
    (h : ∀ name ∈ names, rank name = ⊤) :
    names.foldl (fun best name => min best (rank name)) best = best := by
  induction names with
  | nil => rfl
  | cons name names ih =>
    rw [List.foldl_cons, h name List.mem_cons_self, min_top_right]
    exact ih fun other mem => h other (List.mem_cons_of_mem _ mem)

theorem mem_of_mem_mtSeedWrite {S : SuperData} {order : List Nat} {name : String}
    (h : name ∈ S.mtSeedWrite order) : name ∈ order.flatMap S.names := by
  obtain ⟨super, hsuper, first⟩ := List.mem_filterMap.mp h
  exact List.mem_flatMap.mpr ⟨super, hsuper, List.mem_of_mem_head? first⟩

theorem length_mtSeedWrite {S : SuperData} {order : List Nat}
    (nonempty : ∀ super ∈ order, S.names super ≠ []) :
    (S.mtSeedWrite order).length = order.length := by
  unfold mtSeedWrite
  rw [List.length_filterMap_eq_countP, List.countP_eq_length]
  intro super hsuper
  rw [List.isSome_head?]
  simpa using nonempty super hsuper

/-- The rank of a super node in the seed that was written is its place. -/
theorem mtSeedRankOf_mtSeedWrite {S : SuperData} {before after : List Nat} {super : Nat}
    (named : S.Named (before ++ super :: after)) :
    S.mtSeedRankOf (S.mtSeedWrite (before ++ super :: after)) super = (before.length : ℕ) := by
  obtain ⟨first, others, names⟩ := List.exists_cons_of_ne_nil (named.nonempty super (by simp))
  have lines : S.mtSeedWrite (before ++ super :: after) =
      S.mtSeedWrite before ++ first :: S.mtSeedWrite after := by
    unfold mtSeedWrite
    rw [List.filterMap_append, List.filterMap_cons_some (b := first) (by rw [names]; rfl)]
  have unique := named.unique
  rw [List.flatMap_append, List.flatMap_cons, names] at unique
  obtain ⟨-, unique, apart⟩ := List.nodup_append.mp unique
  obtain ⟨own, -, apart'⟩ := List.nodup_append.mp unique
  have notBefore : ∀ name ∈ first :: others, name ∉ S.mtSeedWrite before := fun name hname mem =>
    apart name (mem_of_mem_mtSeedWrite mem) name (List.mem_append_left _ hname) rfl
  have rankFirst : seedRankByName (S.mtSeedWrite (before ++ super :: after)) first =
      (before.length : ℕ) := by
    unfold seedRankByName
    rw [lines, if_pos (by simp), List.idxOf_append_of_notMem (notBefore first List.mem_cons_self),
      List.idxOf_cons_self, length_mtSeedWrite fun x hx => named.nonempty x (by simp [hx])]
    rfl
  have rankOthers : ∀ name ∈ others,
      seedRankByName (S.mtSeedWrite (before ++ super :: after)) name = ⊤ := by
    intro name hname
    refine if_neg fun mem => ?_
    rw [lines] at mem
    rcases List.mem_append.mp mem with mem | mem
    · exact notBefore name (List.mem_cons_of_mem _ hname) mem
    · rcases List.mem_cons.mp mem with rfl | mem
      · exact (List.nodup_cons.mp own).1 hname
      · exact apart' name (List.mem_cons_of_mem _ hname) name (mem_of_mem_mtSeedWrite mem) rfl
  unfold mtSeedRankOf
  rw [names, List.foldl_cons, rankFirst, min_top_left, foldl_min_top _ _ rankOthers]

end SuperData

/-! ## Counters -/

/-- How a traversal marks super nodes as visited (`none`: visited already) and counts their
    visited predecessors. -/
structure Counters (σ : Type) where
  visit : σ → Nat → Option σ
  count : σ → Nat → σ × Nat

/-- `std::map<SuperNode*, int> times` and `std::set<SuperNode*> visited`. -/
def mapCounters : Counters ((Nat → Nat) × List Nat) where
  visit c v := if v ∈ c.2 then none else some (c.1, c.2 ++ [v])
  count c v := ((Function.update c.1 v (c.1 v + 1), c.2), c.1 v + 1)

/-- `topoMark`: the epoch in the upper half, the count in the lower one. -/
structure TopoMark where
  epoch : Nat
  count : Nat
deriving DecidableEq

/-- Marks of other epochs count as 0. -/
def TopoMark.countIn (mark : TopoMark) (dfsEpoch : Nat) : Nat :=
  if mark.epoch = dfsEpoch then mark.count else 0

/-- A visited super node has the count 0 under the current epoch. -/
def markCounters (dfsEpoch : Nat) : Counters (Nat → TopoMark) where
  visit topoMark v :=
    if topoMark v = ⟨dfsEpoch, 0⟩ then none else some (Function.update topoMark v ⟨dfsEpoch, 0⟩)
  count topoMark v :=
    (Function.update topoMark v ⟨dfsEpoch, (topoMark v).countIn dfsEpoch + 1⟩,
      (topoMark v).countIn dfsEpoch + 1)

/-- The marks stand for a list of visited super nodes and for counters; visited super nodes
    are not counted any further. -/
structure Counters.Tracking {σ : Type} (C : Counters σ)
    (Tracks : σ → List Nat → (Nat → Nat) → Prop) : Prop where
  visit : ∀ c done times v, Tracks c done times → v ∉ done →
    ∃ c', C.visit c v = some c' ∧ Tracks c' (done ++ [v]) times
  count : ∀ c done times v, Tracks c done times → v ∉ done →
    (C.count c v).2 = times v + 1 ∧
      Tracks (C.count c v).1 done (Function.update times v (times v + 1))

theorem mapCounters_tracking :
    mapCounters.Tracking fun c done times => c = (times, done) where
  visit := by
    rintro c done times v rfl fresh
    exact ⟨_, if_neg fresh, rfl⟩
  count := by
    rintro c done times v rfl -
    exact ⟨rfl, rfl⟩

def MarksTrack (dfsEpoch : Nat) (topoMark : Nat → TopoMark) (done : List Nat) (times : Nat → Nat) :
    Prop :=
  ∀ v, v ∉ done → ((topoMark v).epoch ≠ dfsEpoch ∧ times v = 0) ∨
    (topoMark v = ⟨dfsEpoch, times v⟩ ∧ 0 < times v)

theorem markCounters_tracking (dfsEpoch : Nat) :
    (markCounters dfsEpoch).Tracking (MarksTrack dfsEpoch) where
  visit := by
    intro topoMark done times v tracks fresh
    have unvisited : topoMark v ≠ ⟨dfsEpoch, 0⟩ := by
      intro eq
      rcases tracks v fresh with ⟨other, -⟩ | ⟨same, pos⟩
      · exact other (congrArg TopoMark.epoch eq)
      · exact absurd (congrArg TopoMark.count (same.symm.trans eq)) (Nat.ne_of_gt pos)
    refine ⟨_, if_neg unvisited, fun w hw => ?_⟩
    have ne : w ≠ v := fun eq => hw (by simp [eq])
    rw [Function.update_of_ne ne]
    exact tracks w fun mem => hw (List.mem_append_left _ mem)
  count := by
    intro topoMark done times v tracks fresh
    have current : (topoMark v).countIn dfsEpoch = times v := by
      rcases tracks v fresh with ⟨other, zero⟩ | ⟨same, -⟩
      · exact (if_neg other).trans zero.symm
      · rw [same]
        exact if_pos rfl
    refine ⟨congrArg (· + 1) current, fun w hw => ?_⟩
    unfold markCounters
    dsimp only
    rw [current]
    by_cases eq : w = v
    · subst eq
      rw [Function.update_self, Function.update_self]
      exact .inr ⟨rfl, Nat.succ_pos _⟩
    · rw [Function.update_of_ne eq, Function.update_of_ne eq]
      exact tracks w hw

/-! ## The traversal -/

/-- Which super node leaves the frontier first. -/
inductive Frontier where
  /-- `std::set<SuperNode*, SeedRankLess>` -/
  | seedReplay (seed : List String)
  /-- `std::set<SuperNode*, SuperNodeStableLess>` -/
  | stableOrder
  /-- `std::stack<SuperNode*>`; successors come by address, or by id -/
  | stack (nextLess : Nat → Nat → Bool)

structure Traversal (σ : Type) where
  counters : σ
  s : List Nat
  sortedSuper : List Nat

variable (S : SuperData) (D : DepGraph) (F : Frontier)

namespace Frontier

/-- The order of the successors, and of the set if there is one. -/
def less : Frontier → Nat → Nat → Bool
  | seedReplay seed => S.seedRankLess D seed
  | stableOrder => S.superNodeStableLess D
  | stack nextLess => nextLess

def push (x : Nat) (s : List Nat) : List Nat :=
  match F with
  | stack _ => x :: s
  | _ => setInsert (F.less S D) x s

end Frontier

def sortNext {σ : Type} (C : Counters σ) (st : Traversal σ) (next : Nat) : Traversal σ :=
  let (counters, count) := C.count st.counters next
  if count = (D.depPrev next).length then
    { st with counters := counters, s := F.push S D next st.s }
  else { st with counters := counters }

/-- The loop; the fuel bounds the rounds, `none` is a failed assertion or no end. -/
def sortLoop {σ : Type} (C : Counters σ) : Nat → Traversal σ → Option (List Nat)
  | 0, st => if st.s = [] then some st.sortedSuper else none
  | fuel + 1, st =>
    match st.s with
    | [] => some st.sortedSuper
    | top :: rest =>
      (C.visit st.counters top).bind fun counters =>
        sortLoop C fuel (((D.depNext top).insertionSort fun a b => F.less S D b a = false).foldl
          (sortNext S D F C) ⟨counters, rest, st.sortedSuper ++ [top]⟩)

def frontierOf (roots : List Nat) : List Nat :=
  (roots.filter fun node => (D.depPrev node).length = 0).foldl (fun s x => F.push S D x s) []

/-- `graph::topoSort`; the super nodes have marks of earlier epochs. -/
def topoSort (dfsEpoch : Nat) (topoMark : Nat → TopoMark) : Option (List Nat) :=
  match F with
  | .stack _ => sortLoop S D F (markCounters dfsEpoch) D.supers.length
      ⟨topoMark, frontierOf S D F D.supersrc, []⟩
  | _ => sortLoop S D F mapCounters D.supers.length
      ⟨(fun _ => 0, []), frontierOf S D F D.supersrc, []⟩

/-- `graph::resort`. -/
def resort (sortedSuper : List Nat) : Option (List Nat) :=
  (sortLoop S D F mapCounters D.supers.length
      ⟨(fun _ => 0, []), frontierOf S D F sortedSuper, []⟩).bind fun sorted =>
    if sorted.length = sortedSuper.length then some sorted else none

/-! ## Correctness -/

/-- Every super node once, each after all its `depPrev`. -/
structure DepGraph.Topological (D : DepGraph) (order : List Nat) : Prop where
  once : order.Perm D.supers
  after : ∀ v ∈ D.supers, ∀ u ∈ D.depPrev v, order.idxOf u < order.idxOf v

section Correct

variable {S : SuperData} {D : DepGraph} {F : Frontier} {σ : Type} {C : Counters σ}
  {Tracks : σ → List Nat → (Nat → Nat) → Prop}

/-- The comparator of a set tells super nodes apart. -/
def Frontier.Ordered (S : SuperData) (D : DepGraph) (F : Frontier) (s : List Nat) : Prop :=
  match F with
  | .stack _ => True
  | _ => Ascending (F.less S D) s

theorem push_perm {x : Nat} {s : List Nat} (fresh : x ∉ s) :
    (F.push S D x s).Perm (x :: s) := by
  cases F with
  | seedReplay seed => exact setInsert_perm (S.seedRankLess_strict D seed) fresh
  | stableOrder => exact setInsert_perm (S.superNodeStableLess_strict D) fresh
  | stack nextLess => exact List.Perm.refl _

theorem Frontier.Ordered.push {s : List Nat} (h : F.Ordered S D s) (x : Nat) :
    F.Ordered S D (F.push S D x s) := by
  cases F with
  | seedReplay seed => exact Ascending.setInsert (S.seedRankLess_strict D seed) h x
  | stableOrder => exact Ascending.setInsert (S.superNodeStableLess_strict D) h x
  | stack nextLess => trivial

theorem Frontier.Ordered.tail {x : Nat} {s : List Nat} (h : F.Ordered S D (x :: s)) :
    F.Ordered S D s := by
  cases F with
  | seedReplay seed => exact (List.pairwise_cons.mp h).2
  | stableOrder => exact (List.pairwise_cons.mp h).2
  | stack nextLess => trivial

/-- The state of the loop while `pending` is still to be counted. -/
def Sorting (S : SuperData) (D : DepGraph) (F : Frontier)
    (Tracks : σ → List Nat → (Nat → Nat) → Prop) (pending : List Nat) (st : Traversal σ) : Prop :=
  F.Ordered S D st.s ∧ ∃ times, Tracks st.counters st.sortedSuper times ∧
    Inv D.supers D.depPrev st.sortedSuper pending st.s times

theorem Sorting.next (track : C.Tracking Tracks) {st : Traversal σ} {next : Nat}
    {pending : List Nat} (h : Sorting S D F Tracks (next :: pending) st) (hnext : next ∈ D.supers) :
    Sorting S D F Tracks pending (sortNext S D F C st next) ∧
      (sortNext S D F C st next).sortedSuper = st.sortedSuper := by
  obtain ⟨ordered, times, tracks, inv⟩ := h
  have absent := inv.not_mem_of_pending hnext
  have notDone : next ∉ st.sortedSuper := fun mem => absent (List.mem_append_left _ mem)
  obtain ⟨count, tracks'⟩ := track.count _ _ _ next tracks notDone
  unfold sortNext
  dsimp only
  rw [count]
  split
  · rename_i last
    refine ⟨⟨ordered.push next, _, tracks', ?_⟩, rfl⟩
    refine (inv.tell_ready hnext last).perm (push_perm ?_).symm
    exact fun mem => absent (List.mem_append_right _ mem)
  · rename_i early
    exact ⟨⟨ordered, _, tracks', inv.tell_early hnext early⟩, rfl⟩

theorem Sorting.nexts (track : C.Tracking Tracks) {st : Traversal σ} (nexts : List Nat)
    (h : Sorting S D F Tracks nexts st) (hnexts : ∀ x ∈ nexts, x ∈ D.supers) :
    Sorting S D F Tracks [] (nexts.foldl (sortNext S D F C) st) ∧
      (nexts.foldl (sortNext S D F C) st).sortedSuper = st.sortedSuper := by
  induction nexts generalizing st with
  | nil => exact ⟨h, rfl⟩
  | cons next nexts ih =>
    obtain ⟨first, same⟩ := h.next track (hnexts next List.mem_cons_self)
    obtain ⟨rest, same'⟩ := ih first fun x hx => hnexts x (List.mem_cons_of_mem _ hx)
    exact ⟨rest, same'.trans same⟩

/-- One round: the first super node of the frontier comes out. -/
theorem Sorting.round (track : C.Tracking Tracks) {st : Traversal σ} {top : Nat} {rest : List Nat}
    (h : Sorting S D F Tracks [] st) (front : st.s = top :: rest) :
    ∃ counters, C.visit st.counters top = some counters ∧
      Sorting S D F Tracks [] (((D.depNext top).insertionSort fun a b => F.less S D b a = false).foldl
        (sortNext S D F C) ⟨counters, rest, st.sortedSuper ++ [top]⟩) ∧
      (((D.depNext top).insertionSort fun a b => F.less S D b a = false).foldl
        (sortNext S D F C) ⟨counters, rest, st.sortedSuper ++ [top]⟩).sortedSuper =
          st.sortedSuper ++ [top] := by
  obtain ⟨ordered, times, tracks, inv⟩ := h
  rw [front] at ordered inv
  have notDone : top ∉ st.sortedSuper := fun mem =>
    (List.nodup_append.mp inv.nodup).2.2 top mem top List.mem_cons_self rfl
  obtain ⟨counters, visited, tracks'⟩ := track.visit _ _ _ top tracks notDone
  have perm : ((D.depNext top).insertionSort fun a b => F.less S D b a = false).Perm
      (D.depNext top) := List.perm_insertionSort _ _
  have placed : Sorting S D F Tracks
      ((D.depNext top).insertionSort fun a b => F.less S D b a = false)
      (⟨counters, rest, st.sortedSuper ++ [top]⟩ : Traversal σ) :=
    ⟨ordered.tail, times, tracks', inv.place D.mirrored (List.Perm.refl _) perm⟩
  have htop : top ∈ D.supers := inv.sub top (by simp)
  refine ⟨counters, visited, placed.nexts track _ fun x hx => ?_⟩
  exact ((D.mirrored.mirrored top htop x).mp (perm.mem_iff.mp hx)).1

/-- When nothing waits any more, all super nodes are out. -/
theorem Sorting.topological {st : Traversal σ} (h : Sorting S D F Tracks [] st) (empty : st.s = []) :
    D.Topological st.sortedSuper := by
  obtain ⟨-, times, -, inv⟩ := h
  rw [empty] at inv
  have perm := inv.complete D.mirrored D.nodup D.acyclic
  exact ⟨perm, fun v hv u hu => (inv.sorted v (perm.mem_iff.mpr hv) u hu).2⟩

/-- A rule for the loop: what holds of the state holds at the end, if every round keeps it. -/
theorem sortLoop_rule (track : C.Tracking Tracks) {P : List Nat → Prop}
    (keep : ∀ (st : Traversal σ) (top : Nat) (rest : List Nat), Sorting S D F Tracks [] st →
      st.s = top :: rest → P st.sortedSuper → P (st.sortedSuper ++ [top]))
    (fuel : Nat) {st : Traversal σ} (h : Sorting S D F Tracks [] st) (start : P st.sortedSuper)
    (enough : D.supers.length ≤ st.sortedSuper.length + fuel) :
    ∃ sorted, sortLoop S D F C fuel st = some sorted ∧ D.Topological sorted ∧ P sorted := by
  induction fuel generalizing st with
  | zero =>
    obtain ⟨-, times, -, inv⟩ := id h
    have empty : st.s = [] := List.length_eq_zero_iff.mp (by have := inv.length_le; omega)
    exact ⟨st.sortedSuper, if_pos empty, h.topological empty, start⟩
  | succ fuel ih =>
    cases front : st.s with
    | nil =>
      refine ⟨st.sortedSuper, ?_, h.topological front, start⟩
      unfold sortLoop
      rw [front]
    | cons top rest =>
      obtain ⟨counters, visited, after, sorted⟩ := h.round track front
      obtain ⟨result, run, topological, holds⟩ := ih after
        (by rw [sorted]; exact keep st top rest h front start)
        (by rw [sorted, List.length_append, List.length_singleton]; omega)
      refine ⟨result, ?_, topological, holds⟩
      unfold sortLoop
      rw [front]
      dsimp only
      rw [visited]
      exact run

/-- The frontier to start with: the super nodes without a `depPrev`. -/
theorem frontierOf_perm {roots : List Nat} (nodup : roots.Nodup) :
    (frontierOf S D F roots).Perm (roots.filter fun node => (D.depPrev node).length = 0) ∧
      F.Ordered S D (frontierOf S D F roots) := by
  have pushed : ∀ l s : List Nat, (l ++ s).Nodup → F.Ordered S D s →
      (l.foldl (fun s x => F.push S D x s) s).Perm (l ++ s) ∧
        F.Ordered S D (l.foldl (fun s x => F.push S D x s) s) := by
    intro l
    induction l with
    | nil => exact fun s _ ordered => ⟨List.Perm.refl _, ordered⟩
    | cons x l ih =>
      intro s nodup ordered
      obtain ⟨out, nodup⟩ := List.nodup_cons.mp nodup
      have first : (F.push S D x s).Perm (x :: s) := push_perm fun mem =>
        out (List.mem_append_right _ mem)
      have both : (l ++ F.push S D x s).Perm (x :: (l ++ s)) :=
        (first.append_left l).trans List.perm_middle
      obtain ⟨perm, ordered'⟩ := ih _ (both.nodup_iff.mpr (List.nodup_cons.mpr ⟨out, nodup⟩))
        (ordered.push x)
      exact ⟨perm.trans both, ordered'⟩
  have empty : F.Ordered S D [] := by
    cases F with
    | seedReplay seed => exact List.Pairwise.nil
    | stableOrder => exact List.Pairwise.nil
    | stack nextLess => trivial
  have done := pushed (roots.filter fun node => (D.depPrev node).length = 0) []
    (by rw [List.append_nil]; exact nodup.filter _) empty
  rwa [List.append_nil] at done

theorem Sorting.start {roots : List Nat} (nodup : roots.Nodup)
    (sources : ∀ v, D.depPrev v = [] → (v ∈ roots ↔ v ∈ D.supers)) {c : σ}
    (tracks : Tracks c [] fun _ => 0) :
    Sorting S D F Tracks [] ⟨c, frontierOf S D F roots, []⟩ := by
  obtain ⟨perm, ordered⟩ := frontierOf_perm (S := S) (D := D) (F := F) nodup
  refine ⟨ordered, _, tracks, Inv.start (perm.nodup_iff.mpr (nodup.filter _)) fun v => ?_⟩
  rw [perm.mem_iff]
  simp only [List.mem_filter, decide_eq_true_eq, List.length_eq_zero_iff]
  exact and_congr_left fun root => sources v root

/-! ## Replaying a recorded order -/

/-- The ranks ascend along the order. -/
def RankedBy (S : SuperData) (seed : List String) (order : List Nat) : Prop :=
  order.Pairwise fun a b => S.mtSeedRankOf seed a < S.mtSeedRankOf seed b

/-- A seed ranks the super nodes by the order it was written for. -/
theorem rankedBy_mtSeedWrite {S : SuperData} {order : List Nat} (named : S.Named order) :
    RankedBy S (S.mtSeedWrite order) order := by
  refine List.pairwise_iff_getElem.mpr fun i j hi hj lt => ?_
  have rank : ∀ k (hk : k < order.length),
      S.mtSeedRankOf (S.mtSeedWrite order) order[k] = (k : ℕ) := by
    intro k hk
    have split : order = order.take k ++ order[k] :: order.drop (k + 1) := by
      rw [← List.drop_eq_getElem_cons hk, List.take_append_drop]
    have place := @SuperData.mtSeedRankOf_mtSeedWrite S (order.take k) (order.drop (k + 1)) order[k]
      (split ▸ named)
    rwa [← split, List.length_take_of_le hk.le] at place
  rw [rank i hi, rank j hj]
  exact_mod_cast lt

/-- The super node that comes next in the recorded order waits, and has the least rank. -/
theorem Sorting.replay {seed : List String} {order : List Nat} (topological : D.Topological order)
    (ranked : RankedBy S seed order) {st : Traversal σ} {top : Nat} {rest : List Nat}
    (h : Sorting S D (.seedReplay seed) Tracks [] st) (front : st.s = top :: rest)
    (sofar : st.sortedSuper <+: order) : st.sortedSuper ++ [top] <+: order := by
  obtain ⟨ordered, times, -, inv⟩ := h
  obtain ⟨left, rfl⟩ := sofar
  have nodup : (st.sortedSuper ++ left).Nodup := topological.once.nodup_iff.mpr D.nodup
  have waits : ∀ v ∈ st.s, v ∈ left := by
    intro v hv
    have notDone : v ∉ st.sortedSuper := fun mem =>
      (List.nodup_append.mp inv.nodup).2.2 v mem v hv rfl
    have mem := topological.once.mem_iff.mpr (inv.sub v (List.mem_append_right _ hv))
    exact (List.mem_append.mp mem).resolve_left notDone
  cases left with
  | nil => exact absurd (waits top (front ▸ List.mem_cons_self)) List.not_mem_nil
  | cons first left =>
    have hfirst : first ∈ D.supers := topological.once.mem_iff.mp (by simp)
    have notDone : first ∉ st.sortedSuper := fun mem =>
      (List.nodup_append.mp nodup).2.2 first mem first List.mem_cons_self rfl
    -- its predecessors come before it in the order, so they are out
    have allDone : ∀ u ∈ D.depPrev first, u ∈ st.sortedSuper := by
      intro u hu
      have before := topological.after first hfirst u hu
      rw [List.idxOf_append_of_notMem notDone, List.idxOf_cons_self, Nat.add_zero] at before
      by_contra out
      rw [List.idxOf_append_of_notMem out] at before
      omega
    have counter := inv.counter first hfirst
    rw [told_eq_length_iff.mpr allDone, List.count_nil, Nat.add_zero] at counter
    have waiting : first ∈ st.s :=
      (List.mem_append.mp ((inv.ready first hfirst).mpr counter)).resolve_left notDone
    rw [front] at ordered waits waiting
    have least : top = first := by
      refine Ascending.head_eq (S.seedRankLess_strict D seed) ordered waiting ?_
      intro z hz ne
      have later : z ∈ left := (List.mem_cons.mp (waits z hz)).resolve_left ne
      have pair := (List.pairwise_append.mp ranked).2.1
      exact S.seedRankLess_of_lt D ((List.pairwise_cons.mp pair).1 z later)
    rw [least]
    exact ⟨left, by simp⟩

end Correct

section Main

variable {S : SuperData} {D : DepGraph} {F : Frontier}

/-- Either function, in terms of its loop. -/
theorem topoSort_rule {P : List Nat → Prop} {dfsEpoch : Nat} {topoMark : Nat → TopoMark}
    (older : ∀ v, (topoMark v).epoch < dfsEpoch) (start : P [])
    (keep : ∀ {σ : Type} (Tracks : σ → List Nat → (Nat → Nat) → Prop) (st : Traversal σ) (top : Nat)
      (rest : List Nat), Sorting S D F Tracks [] st → st.s = top :: rest → P st.sortedSuper →
        P (st.sortedSuper ++ [top])) :
    ∃ sorted, topoSort S D F dfsEpoch topoMark = some sorted ∧ D.Topological sorted ∧ P sorted := by
  have mapped := sortLoop_rule mapCounters_tracking (keep _) D.supers.length
    (Sorting.start (S := S) (F := F) D.supersrcNodup D.sources rfl) start (by simp)
  have marked := sortLoop_rule (markCounters_tracking dfsEpoch) (keep _) D.supers.length
    (Sorting.start (S := S) (F := F) (c := topoMark) D.supersrcNodup D.sources
      fun v _ => .inl ⟨(older v).ne, rfl⟩) start (by simp)
  cases F with
  | seedReplay seed => exact mapped
  | stableOrder => exact mapped
  | stack nextLess => exact marked

theorem resort_rule {P : List Nat → Prop} {sortedSuper : List Nat}
    (perm : sortedSuper.Perm D.supers) (start : P [])
    (keep : ∀ {σ : Type} (Tracks : σ → List Nat → (Nat → Nat) → Prop) (st : Traversal σ) (top : Nat)
      (rest : List Nat), Sorting S D F Tracks [] st → st.s = top :: rest → P st.sortedSuper →
        P (st.sortedSuper ++ [top])) :
    ∃ sorted, resort S D F sortedSuper = some sorted ∧ D.Topological sorted ∧ P sorted := by
  obtain ⟨sorted, run, topological, holds⟩ := sortLoop_rule mapCounters_tracking (keep _)
    D.supers.length (Sorting.start (S := S) (D := D) (F := F) (perm.nodup_iff.mpr D.nodup)
      (fun v _ => perm.mem_iff) rfl) start (by simp)
  refine ⟨sorted, ?_, topological, holds⟩
  unfold resort
  rw [run]
  exact if_pos (topological.once.trans perm.symm).length_eq

/-- The loop of a replay brings out the recorded order. -/
theorem DepGraph.Topological.eq_of_prefix {sorted order : List Nat} (h : D.Topological sorted)
    (h' : D.Topological order) (sofar : sorted <+: order) : sorted = order :=
  sofar.eq_of_length (h.once.trans h'.once.symm).length_eq

/-- **Seed replay reproduces the recorded order**, and every frontier brings out every super
    node once, after its `depPrev`. -/
theorem topoSort_resort_sound (S : SuperData) (D : DepGraph) (dfsEpoch : Nat)
    (topoMark : Nat → TopoMark) (older : ∀ v, (topoMark v).epoch < dfsEpoch)
    (sortedSuper : List Nat) (perm : sortedSuper.Perm D.supers) :
    (∀ F, ∃ sorted, topoSort S D F dfsEpoch topoMark = some sorted ∧ D.Topological sorted) ∧
    (∀ F, ∃ sorted, resort S D F sortedSuper = some sorted ∧ D.Topological sorted) ∧
    (∀ seed order, D.Topological order → RankedBy S seed order →
      topoSort S D (.seedReplay seed) dfsEpoch topoMark = some order ∧
      resort S D (.seedReplay seed) sortedSuper = some order) ∧
    ∀ order, D.Topological order → S.Named order → RankedBy S (S.mtSeedWrite order) order := by
  refine ⟨?_, ?_, ?_, fun order _ named => rankedBy_mtSeedWrite named⟩
  · intro F
    obtain ⟨sorted, run, topological, -⟩ := topoSort_rule (S := S) (F := F) (P := fun _ => True)
      older trivial fun _ _ _ _ _ _ _ => trivial
    exact ⟨sorted, run, topological⟩
  · intro F
    obtain ⟨sorted, run, topological, -⟩ := resort_rule (S := S) (F := F) (P := fun _ => True)
      perm trivial fun _ _ _ _ _ _ _ => trivial
    exact ⟨sorted, run, topological⟩
  · intro seed order recorded ranked
    constructor
    · obtain ⟨sorted, run, topological, sofar⟩ := topoSort_rule (S := S)
        (F := .seedReplay seed) (P := (· <+: order)) older List.nil_prefix
        fun _ _ _ _ h front sofar => h.replay recorded ranked front sofar
      rwa [topological.eq_of_prefix recorded sofar] at run
    · obtain ⟨sorted, run, topological, sofar⟩ := resort_rule (S := S)
        (F := .seedReplay seed) (P := (· <+: order)) perm List.nil_prefix
        fun _ _ _ _ h front sofar => h.replay recorded ranked front sofar
      rwa [topological.eq_of_prefix recorded sofar] at run

end Main

/-! ## A diamond -/

def diamondPrev (v : Nat) : List Nat := if v = 1 ∨ v = 2 then [0] else if v = 3 then [1, 2] else []

def diamondNext (u : Nat) : List Nat := if u = 0 then [1, 2] else if u = 1 ∨ u = 2 then [3] else []

theorem diamondPrev_lt {u v : Nat} (h : u ∈ diamondPrev v) : u < v := by
  unfold diamondPrev at h
  split at h
  · simp at h
    omega
  · split at h <;> simp at h
    omega

theorem diamond_isGraph : IsGraph [0, 1, 2, 3] diamondPrev diamondNext where
  predNodup := by decide
  succNodup := by decide
  mirrored := by
    intro u hu v
    simp only [List.mem_cons, List.not_mem_nil, or_false] at hu
    rcases hu with rfl | rfl | rfl | rfl <;> unfold diamondNext diamondPrev <;> simp <;> grind
  predMem := by decide

theorem diamond_acyclic (x : Nat) :
    ¬ Relation.TransGen (fun u v => v ∈ [0, 1, 2, 3] ∧ u ∈ diamondPrev v) x x := by
  intro cycle
  have climbs : ∀ y, Relation.TransGen (fun u v => v ∈ [0, 1, 2, 3] ∧ u ∈ diamondPrev v) x y →
      x < y := by
    intro y path
    induction path with
    | single edge => exact diamondPrev_lt edge.2
    | tail _ edge ih => exact ih.trans (diamondPrev_lt edge.2)
  exact (climbs x cycle).false

theorem diamond_sources (v : Nat) (h : diamondPrev v = []) : v ∈ [0] ↔ v ∈ [0, 1, 2, 3] := by
  unfold diamondPrev at h
  split at h
  · cases h
  · split at h
    · cases h
    · simp
      omega

theorem diamond_nodup : [0, 1, 2, 3].Nodup := by decide

def diamond : DepGraph :=
  ⟨[0, 1, 2, 3], diamondPrev, diamondNext, [0], diamond_nodup, diamond_isGraph, diamond_acyclic,
    List.nodup_singleton 0, diamond_sources⟩

/-- One member each, declared on the line of its number. -/
def diamondData : SuperData where
  member v := [(toString v, v)]
  addr := Function.Embedding.refl Nat

theorem diamond_recorded : diamond.Topological [0, 2, 1, 3] where
  once := by decide
  after := by decide

theorem diamond_ranked : RankedBy diamondData ["0", "2", "1", "3"] [0, 2, 1, 3] := by
  unfold RankedBy
  decide

theorem topoSort_resort_sound_diamond :
    topoSort diamondData diamond (.seedReplay ["0", "2", "1", "3"]) 1 (fun _ => ⟨0, 0⟩) =
        some [0, 2, 1, 3] ∧
      resort diamondData diamond (.seedReplay ["0", "2", "1", "3"]) [0, 1, 2, 3] =
        some [0, 2, 1, 3] :=
  (topoSort_resort_sound diamondData diamond 1 (fun _ => ⟨0, 0⟩) (fun _ => Nat.one_pos)
    [0, 1, 2, 3] (List.Perm.refl _)).2.2.1 _ _ diamond_recorded diamond_ranked

end Gsim.TopoSort
