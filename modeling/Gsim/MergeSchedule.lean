/-
  Gsim/MergeSchedule.lean
  =======================
  **Merging keeps a valid schedule**: the passes of `graphCoarsen` one after another.

  After `mergeWhenNodes` the list of super nodes is no longer sorted; `resort` works
  the merged graph off once more and fails when a cycle keeps it from reaching every
  super node.  The other passes keep the list sorted.
-/
import Gsim.MergeWhen

namespace Gsim.MergeNodes

open GraphContraction SuperLinks

variable {Op : Type}

namespace SuperGraph

/-! ## Applying the groups -/

/-- `add_member`, which asserts that the node is new. -/
def addMember (G : SuperGraph Op) (target m : Nat) : Option (SuperGraph Op) :=
  if m ∈ G.member target then none
  else some
    { G with
      member := Function.update G.member target (G.member target ++ [m])
      super := Function.update G.super m target }

/-- The members of `src` are added to `target` one by one. -/
def absorb (G : SuperGraph Op) (target src : Nat) : Option (SuperGraph Op) :=
  ((G.member src).foldlM (fun (G : SuperGraph Op) m => G.addMember target m) G).map fun G =>
    { G with member := Function.update G.member src [] }

/-- All of a group are absorbed by its first. -/
def applyGroup (G : SuperGraph Op) (group : Nat × List Nat) : Option (SuperGraph Op) :=
  match group.2 with
  | [] => none
  | mergeSuper :: others => others.foldlM (fun (G : SuperGraph Op) src => G.absorb mergeSuper src) G

/-! ## The loop check -/

inductive VisitState where
  | notVisit
  | expanded
  | visited
deriving DecidableEq

structure LoopSearch where
  stack : List Nat
  states : Nat → Option VisitState

/-- One successor of the super node on top; `none` is the assertion that reports a loop. -/
def loopNext (top : Nat) (st : LoopSearch) (next : Nat) : Option LoopSearch :=
  if next = top then some st
  else
    match st.states next with
    | none => some ⟨next :: st.stack, Function.update st.states next (some .notVisit)⟩
    | some .expanded => none
    | _ => some st

def loopStep (G : SuperGraph Op) (st : LoopSearch) : Option LoopSearch :=
  match st.stack with
  | [] => some st
  | top :: rest =>
    match st.states top with
    | some .expanded => some ⟨rest, Function.update st.states top (some .visited)⟩
    | some .visited => some ⟨rest, st.states⟩
    | _ => (G.links.depNext top).foldlM (loopNext top)
        ⟨st.stack, Function.update st.states top (some .expanded)⟩

/-- `none` is the assertion, or a stack that is not empty when the fuel is used up
(`detectSortedSuperLoop_ok`: it is enough). -/
def loopRun (G : SuperGraph Op) : Nat → LoopSearch → Option LoopSearch
  | 0, st => if st.stack = [] then some st else none
  | fuel + 1, st => if st.stack = [] then some st else (G.loopStep st).bind (G.loopRun fuel)

/-- Every super node is on the stack from the start and taken off after two rounds. -/
def detectSortedSuperLoop (G : SuperGraph Op) : Option LoopSearch :=
  G.loopRun (2 * G.sortedSuper.length)
    ⟨G.sortedSuper.reverse, fun x => if x ∈ G.sortedSuper then some .notVisit else none⟩

/-! ## The passes -/

/-- The groups in the order they are applied. -/
def orderedGroups [WhenOp Op] (G : SuperGraph Op) (mode : Mode) (mergeWhenSize : Int) :
    List (Nat × List Nat) :=
  (Traversal.whenGroups G mode mergeWhenSize).insertionSort fun a b => mode.less b.1 a.1 = false

/-- Where the groups come from: they are decided on, or those of a recorded run are
applied again. -/
inductive WhenPlan where
  | traverse (mode : Mode) (mergeWhenSize : Int)
  | replay (groups : List (Nat × List Nat))

def planned [WhenOp Op] (G : SuperGraph Op) : WhenPlan → Option (List (Nat × List Nat))
  | .traverse mode mergeWhenSize =>
    if ∀ super ∈ G.sortedSuper, G.superType super = .valid → (G.member super).length ≤ 1 then
      some (G.orderedGroups mode mergeWhenSize)
    else none
  | .replay groups => some groups

def mergeWhenNodes [WhenOp Op] (G : SuperGraph Op) (plan : WhenPlan) : Option (SuperGraph Op) :=
  (G.planned plan).bind fun groups =>
    (groups.foldlM applyGroup G).bind fun merged =>
      let reconnected := merged.removeEmptySuper.reconnectSuper
      reconnected.detectSortedSuperLoop.map fun _ => reconnected

/-- Which super node comes next: the last one pushed, or the least of a set. -/
structure ResortMode where
  stack : Bool
  less : Nat → Nat → Bool

structure Resort where
  times : Nat → Nat
  s : List Nat
  sorted : List Nat

def ResortMode.push (mode : ResortMode) (s : List Nat) (x : Nat) : List Nat :=
  if mode.stack then x :: s else s.insert x

def ResortMode.pop (mode : ResortMode) : List Nat → Option (Nat × List Nat)
  | [] => none
  | x :: xs =>
    if mode.stack then some (x, xs)
    else some (Kahn.least mode.less x xs, (x :: xs).erase (Kahn.least mode.less x xs))

def resortNext (G : SuperGraph Op) (mode : ResortMode) (st : Resort) (next : Nat) : Resort :=
  let times := Function.update st.times next (st.times next + 1)
  if times next = (G.links.depPrev next).length then
    { st with times := times, s := mode.push st.s next }
  else { st with times := times }

/-- One round; `none` is the assertion that no super node is visited twice. -/
def resortStep (G : SuperGraph Op) (mode : ResortMode) (st : Resort) : Option Resort :=
  match mode.pop st.s with
  | none => some st
  | some (top, rest) =>
    if top ∈ st.sorted then none
    else some (((G.links.depNext top).insertionSort fun a b => mode.less b a = false).foldl
      (G.resortNext mode) { st with s := rest, sorted := st.sorted ++ [top] })

def resortRun (G : SuperGraph Op) (mode : ResortMode) : Nat → Resort → Option Resort
  | 0, st => some st
  | fuel + 1, st => (G.resortStep mode st).bind (G.resortRun mode fuel)

def resort (G : SuperGraph Op) (mode : ResortMode) : Option (SuperGraph Op) :=
  let roots := (G.sortedSuper.filter fun node => (G.links.depPrev node).length = 0).foldl mode.push []
  (G.resortRun mode G.sortedSuper.length ⟨fun _ => 0, roots, []⟩).bind fun st =>
    if st.sorted.length = G.sortedSuper.length then
      some ({ G with sortedSuper := st.sorted } : SuperGraph Op).orderAllNodes
    else none

/-! ## The groups are merged -/

section Absorb

variable {start G : SuperGraph Op} {nodes : List Nat} {alive : Nat → Prop} {root : Nat → Nat}
  {R : Nat → Nat → Prop} {s t : Nat}

theorem foldlM_addMember (l : List Nat) (G : SuperGraph Op) (t : Nat) (nodup : l.Nodup)
    (disjoint : ∀ m ∈ l, m ∉ G.member t) :
    l.foldlM (fun G m => G.addMember t m) G = some
      { G with
        member := Function.update G.member t (G.member t ++ l)
        super := fun m => if m ∈ l then t else G.super m } := by
  induction l generalizing G with
  | nil => simp
  | cons m l ih =>
    obtain ⟨out, nodup⟩ := List.nodup_cons.mp nodup
    have here : G.addMember t m = some
        { G with
          member := Function.update G.member t (G.member t ++ [m])
          super := Function.update G.super m t } := if_neg (disjoint m List.mem_cons_self)
    rw [List.foldlM_cons, here]
    refine (ih _ nodup ?_).trans ?_
    · intro k hk mem
      dsimp only at mem
      rw [Function.update_self] at mem
      rcases List.mem_append.mp mem with old | new
      · exact disjoint k (List.mem_cons_of_mem _ hk) old
      · exact out (List.mem_singleton.mp new ▸ hk)
    · congr 2
      · simp
      · funext k
        by_cases eq : k = m
        · subst eq
          simp
        · simp [eq]

theorem absorb_eq (part : G.Partitioned nodes alive) (hs : alive s) (ht : alive t) (ne : t ≠ s) :
    G.absorb t s = some (G.moveMembers s t (G.member t ++ G.member s)) := by
  have inS := part.member s (part.sorted s hs)
  have inT := part.member t (part.sorted t ht)
  unfold absorb
  rw [foldlM_addMember _ G t (part.memberNodup s (part.sorted s hs)) ?_]
  · rfl
  · intro m hm hm'
    exact ne (((inT m).mp hm').2.symm.trans ((inS m).mp hm).2)

/-- Absorbing the others of a group one after the other. -/
theorem Grouped.absorbAll (others : List Nat) (trans : ∀ a b c, R a b → R b c → R a c)
    (h : Grouped R start G nodes alive root) (ht : alive t) (nodup : (t :: others).Nodup)
    (aliveAll : ∀ s ∈ others, alive s) (valid : ∀ s ∈ others, start.superType s = .valid)
    (rel : ∀ s ∈ others, R t s) :
    ∃ G' alive' root', others.foldlM (fun G src => G.absorb t src) G = some G' ∧
      Grouped R start G' nodes alive' root' ∧ ∀ x, x ∉ others → (alive' x ↔ alive x) := by
  induction others generalizing G alive root with
  | nil => exact ⟨G, alive, root, rfl, h, fun _ _ => Iff.rfl⟩
  | cons s others ih =>
    have ne : t ≠ s := fun eq => (List.nodup_cons.mp nodup).1 (eq ▸ List.mem_cons_self)
    obtain ⟨sOut, sNodup⟩ := List.nodup_cons.mp (List.nodup_cons.mp nodup).2
    have tOut : t ∉ others := fun mem =>
      (List.nodup_cons.mp nodup).1 (List.mem_cons_of_mem _ mem)
    have hs := aliveAll s List.mem_cons_self
    rw [List.foldlM_cons, absorb_eq h.part hs ht ne]
    have merged := h.merge hs ht ne (valid s List.mem_cons_self)
      (@List.perm_append_comm _ (G.member t) (G.member s)) trans (rel s List.mem_cons_self)
    obtain ⟨G', alive', root', eq, h', rest⟩ := ih merged ⟨ht, ne⟩
      (List.nodup_cons.mpr ⟨tOut, sNodup⟩)
      (fun x hx => ⟨aliveAll x (List.mem_cons_of_mem _ hx), fun xs => sOut (xs ▸ hx)⟩)
      (fun x hx => valid x (List.mem_cons_of_mem _ hx))
      fun x hx => rel x (List.mem_cons_of_mem _ hx)
    refine ⟨G', alive', root', eq, h', fun x hx => ?_⟩
    have xs : x ≠ s := fun eq => hx (eq ▸ List.mem_cons_self)
    exact (rest x fun mem => hx (List.mem_cons_of_mem _ mem)).trans (and_iff_left xs)

/-- A list of disjoint groups of super nodes that are all related. -/
structure Mergeable (start : SuperGraph Op) (R : Nat → Nat → Prop) (alive : Nat → Prop)
    (groups : List (Nat × List Nat)) : Prop where
  nonempty : ∀ e ∈ groups, e.2 ≠ []
  nodup : ∀ e ∈ groups, e.2.Nodup
  alive : ∀ e ∈ groups, ∀ v ∈ e.2, alive v
  valid : ∀ e ∈ groups, ∀ v ∈ e.2, start.superType v = .valid
  rel : ∀ e ∈ groups, ∀ v ∈ e.2, ∀ w ∈ e.2, R v w
  disjoint : groups.Pairwise fun e e' => ∀ v ∈ e'.2, v ∉ e.2

/-- Neither the order of the groups nor their conditions matter for merging them. -/
theorem Mergeable.reorder {start' : SuperGraph Op} {alive' : Nat → Prop}
    {groups groups' : List (Nat × List Nat)}
    (ok : Mergeable start R alive groups) (perm : (groups'.map Prod.snd).Perm (groups.map Prod.snd))
    (superType : start'.superType = start.superType) (inside : ∀ x, alive x → alive' x) :
    Mergeable start' R alive' groups' := by
  have from_ : ∀ e' ∈ groups', ∃ e ∈ groups, e.2 = e'.2 := by
    intro e' he'
    exact List.mem_map.mp (perm.mem_iff.mp (List.mem_map_of_mem he'))
  refine ⟨?_, ?_, ?_, ?_, ?_, ?_⟩
  · intro e' he'
    obtain ⟨e, he, eq⟩ := from_ e' he'
    exact eq ▸ ok.nonempty e he
  · intro e' he'
    obtain ⟨e, he, eq⟩ := from_ e' he'
    exact eq ▸ ok.nodup e he
  · intro e' he' v hv
    obtain ⟨e, he, eq⟩ := from_ e' he'
    exact inside v (ok.alive e he v (eq ▸ hv))
  · intro e' he' v hv
    obtain ⟨e, he, eq⟩ := from_ e' he'
    rw [superType]
    exact ok.valid e he v (eq ▸ hv)
  · intro e' he' v hv w hw
    obtain ⟨e, he, eq⟩ := from_ e' he'
    exact ok.rel e he v (eq ▸ hv) w (eq ▸ hw)
  · have sources : (groups.map Prod.snd).Pairwise fun l l' => ∀ v ∈ l', v ∉ l :=
      List.pairwise_map.mpr ok.disjoint
    have symmetric : ∀ {l l' : List Nat}, (∀ v ∈ l', v ∉ l) → ∀ v ∈ l, v ∉ l' :=
      fun apart v hv hv' => apart v hv' hv
    exact List.pairwise_map.mp ((perm.pairwise_iff symmetric).mpr sources)

theorem Grouped.applyGroups (groups : List (Nat × List Nat))
    (trans : ∀ a b c, R a b → R b c → R a c) (h : Grouped R start G nodes alive root)
    (ok : Mergeable start R alive groups) :
    ∃ G' alive' root', groups.foldlM applyGroup G = some G' ∧
      Grouped R start G' nodes alive' root' := by
  induction groups generalizing G alive root with
  | nil => exact ⟨G, alive, root, rfl, h⟩
  | cons e groups ih =>
    obtain ⟨apart, disjoint⟩ := List.pairwise_cons.mp ok.disjoint
    have here : e ∈ e :: groups := List.mem_cons_self
    cases members : e.2 with
    | nil => exact absurd members (ok.nonempty e here)
    | cons t others =>
      have tMem : t ∈ e.2 := members ▸ List.mem_cons_self
      have sub : ∀ s ∈ others, s ∈ e.2 := fun s hs => members ▸ List.mem_cons_of_mem _ hs
      obtain ⟨G₁, alive₁, root₁, eq₁, h₁, rest⟩ := h.absorbAll others trans
        (ok.alive e here t tMem) (members ▸ ok.nodup e here)
        (fun s hs => ok.alive e here s (sub s hs)) (fun s hs => ok.valid e here s (sub s hs))
        fun s hs => ok.rel e here t tMem s (sub s hs)
      have later : Mergeable start R alive₁ groups := by
        refine ⟨fun e' he' => ok.nonempty e' (List.mem_cons_of_mem _ he'),
          fun e' he' => ok.nodup e' (List.mem_cons_of_mem _ he'), ?_,
          fun e' he' => ok.valid e' (List.mem_cons_of_mem _ he'),
          fun e' he' => ok.rel e' (List.mem_cons_of_mem _ he'), disjoint⟩
        intro e' he' v hv
        have out : v ∉ others := fun mem => apart e' he' v hv (sub v mem)
        exact (rest v out).mpr (ok.alive e' (List.mem_cons_of_mem _ he') v hv)
      obtain ⟨G', alive', root', eq', h'⟩ := ih h₁ later
      refine ⟨G', alive', root', ?_, h'⟩
      rw [List.foldlM_cons, applyGroup, members]
      show (others.foldlM (fun (G : SuperGraph Op) src => G.absorb t src) G).bind _ = _
      rw [eq₁]
      exact eq'

end Absorb

/-! ## The loop check passes -/

/-- All super nodes are marked before the search, and at most the one on top is being
expanded: no successor is ever found expanded. -/
structure Searching (G : SuperGraph Op) (st : LoopSearch) : Prop where
  marked : ∀ x ∈ G.sortedSuper, st.states x ≠ none
  stack : ∀ x ∈ st.stack, x ∈ G.sortedSuper
  expanded : ∀ x, st.states x = some .expanded → st.stack.head? = some x

/-- The rounds that are left at most: two for a super node on the stack, one once it is expanded. -/
def LoopSearch.rounds (st : LoopSearch) : Nat :=
  match st.stack with
  | [] => 0
  | top :: rest => 2 * rest.length + if st.states top = some .expanded then 1 else 2

theorem LoopSearch.rounds_le (st : LoopSearch) : st.rounds ≤ 2 * st.stack.length := by
  unfold LoopSearch.rounds
  cases st.stack with
  | nil => exact Nat.zero_le _
  | cons top rest =>
    dsimp only
    rw [List.length_cons]
    split <;> omega

/-- A round that finds the stack not empty. -/
theorem loopStep_ok {G : SuperGraph Op} {st : LoopSearch}
    (closed : ∀ x ∈ G.sortedSuper, ∀ y ∈ G.links.depNext x, y ∈ G.sortedSuper)
    (h : Searching G st) (more : st.stack ≠ []) :
    ∃ st', G.loopStep st = some st' ∧ Searching G st' ∧ st'.rounds < st.rounds := by
  obtain ⟨top, rest, stack⟩ := List.exists_cons_of_ne_nil more
  have htop : top ∈ G.sortedSuper := h.stack top (stack ▸ List.mem_cons_self)
  have hrest : ∀ x ∈ rest, x ∈ G.sortedSuper := fun x hx =>
    h.stack x (stack ▸ List.mem_cons_of_mem _ hx)
  have onlyTop : ∀ x, st.states x = some .expanded → x = top := by
    intro x hx
    have head := h.expanded x hx
    rw [stack] at head
    exact (Option.some.inj head).symm
  -- taking the top off saves a round at least
  have popped : ∀ states, (⟨rest, states⟩ : LoopSearch).rounds < st.rounds := by
    intro states
    have le := LoopSearch.rounds_le ⟨rest, states⟩
    have whole : st.rounds = 2 * rest.length + if st.states top = some .expanded then 1 else 2 := by
      rw [LoopSearch.rounds, stack]
    rw [whole]
    refine lt_of_le_of_lt le (Nat.lt_add_of_pos_right ?_)
    split <;> decide
  unfold loopStep
  rw [stack]
  dsimp only
  split
  · refine ⟨_, rfl, ⟨?_, hrest, ?_⟩, popped _⟩
    · intro x hx
      by_cases eq : x = top
      · simp [eq]
      · simpa [eq] using h.marked x hx
    · intro x hx
      by_cases eq : x = top
      · simp [eq] at hx
      · dsimp only at hx
        rw [Function.update_of_ne eq] at hx
        exact absurd (onlyTop x hx) eq
  · rename_i visited
    refine ⟨_, rfl, ⟨h.marked, hrest, ?_⟩, popped _⟩
    intro x hx
    rw [onlyTop x hx, visited] at hx
    cases hx
  · rename_i unexpanded _
    let st₁ : LoopSearch := ⟨top :: rest, Function.update st.states top (some .expanded)⟩
    have marked : ∀ x ∈ G.sortedSuper, st₁.states x ≠ none := by
      intro x hx
      by_cases eq : x = top
      · simp [st₁, eq]
      · simpa [st₁, eq] using h.marked x hx
    have only : ∀ x, st₁.states x = some .expanded → x = top := by
      intro x hx
      by_cases eq : x = top
      · exact eq
      · refine onlyTop x ?_
        simpa [st₁, eq] using hx
    have pass : ∀ l : List Nat, (∀ y ∈ l, y ∈ G.sortedSuper) →
        l.foldlM (loopNext top) st₁ = some st₁ := by
      intro l
      induction l with
      | nil => exact fun _ => rfl
      | cons y l ih =>
        intro hl
        have here : loopNext top st₁ y = some st₁ := by
          unfold loopNext
          split
          · rfl
          · rename_i ne
            split
            · rename_i none
              exact absurd none (marked y (hl y List.mem_cons_self))
            · rename_i expanded
              exact absurd (only y expanded) ne
            · rfl
        rw [List.foldlM_cons, here]
        exact ih fun z hz => hl z (List.mem_cons_of_mem _ hz)
    have fewer : st₁.rounds < st.rounds := by
      have fresh : st.states top ≠ some .expanded := unexpanded
      simp only [LoopSearch.rounds, st₁, stack, Function.update_self, if_true, if_neg fresh]
      exact Nat.lt_succ_self _
    refine ⟨st₁, pass _ (closed top htop), ⟨marked, List.forall_mem_cons.mpr ⟨htop, hrest⟩, ?_⟩, fewer⟩
    intro x hx
    rw [only x hx]
    rfl

theorem loopRun_ok {G : SuperGraph Op}
    (closed : ∀ x ∈ G.sortedSuper, ∀ y ∈ G.links.depNext x, y ∈ G.sortedSuper) (fuel : Nat) :
    ∀ st, Searching G st → st.rounds ≤ fuel → ∃ st', G.loopRun fuel st = some st' := by
  induction fuel with
  | zero =>
    intro st h enough
    by_cases done : st.stack = []
    · exact ⟨st, if_pos done⟩
    · obtain ⟨st₁, -, -, fewer⟩ := loopStep_ok closed h done
      omega
  | succ fuel ih =>
    intro st h enough
    by_cases done : st.stack = []
    · exact ⟨st, if_pos done⟩
    · obtain ⟨st₁, eq, h₁, fewer⟩ := loopStep_ok closed h done
      obtain ⟨st', eq'⟩ := ih st₁ h₁ (by omega)
      refine ⟨st', ?_⟩
      rw [loopRun, if_neg done, eq]
      exact eq'

/-- The search empties the stack within its fuel and reports no loop. -/
theorem detectSortedSuperLoop_ok (G : SuperGraph Op)
    (closed : ∀ x ∈ G.sortedSuper, ∀ y ∈ G.links.depNext x, y ∈ G.sortedSuper) :
    ∃ st, G.detectSortedSuperLoop = some st := by
  have start : Searching G
      ⟨G.sortedSuper.reverse, fun x => if x ∈ G.sortedSuper then some .notVisit else none⟩ := by
    refine ⟨?_, fun x hx => List.mem_reverse.mp hx, ?_⟩
    · intro x hx
      simp [hx]
    · intro x hx
      dsimp only at hx
      split at hx <;> cases hx
  refine loopRun_ok closed _ _ start ?_
  rw [← List.length_reverse]
  exact LoopSearch.rounds_le _

/-! ## The pass keeps the graph acyclic -/

section When

variable {G : SuperGraph Op} {nodes : List Nat}

/-- Groups that became ready together can be merged. -/
theorem mergeable_of_groupsOk {done : List Nat} {groups : List (Nat × List Nat)}
    (ok : Traversal.GroupsOk G done groups) :
    Mergeable G (fun v w => ReadyFrontier.rank G.links.depPrev done G.order v =
      ReadyFrontier.rank G.links.depPrev done G.order w) (· ∈ G.sortedSuper) groups where
  nonempty := ok.nonempty
  nodup := ok.nodup
  alive e he v hv := (ok.guarded e he v hv).1
  valid e he v hv := (ok.guarded e he v hv).2
  rel := by
    intro e he v hv w hw
    obtain ⟨hcv, lastV⟩ := ok.last e he v hv
    obtain ⟨hcw, lastW⟩ := ok.last e he w hw
    rw [ReadyFrontier.rank_eq_of_last hcv lastV, ReadyFrontier.rank_eq_of_last hcw lastW]
  disjoint := by
    refine ok.keys.imp_of_mem ?_
    intro e e' he he' ne v hv' hv
    -- the last predecessor of `v` is the condition of both
    obtain ⟨hc, last⟩ := ok.last e he v hv
    obtain ⟨hc', last'⟩ := ok.last e' he' v hv'
    have eq := le_antisymm (last' _ hc).2 (last _ hc').2
    exact ne (List.idxOf_inj (ok.cond e he) |>.mp eq)

/-- What the pass relies on: before it every valid super node has one member, and a
recorded run was one on this graph. -/
def Admits [WhenOp Op] (G : SuperGraph Op) : WhenPlan → Prop
  | .traverse _ _ =>
    ∀ super ∈ G.sortedSuper, G.superType super = .valid → (G.member super).length ≤ 1
  | .replay groups => ∃ mode mergeWhenSize, groups = G.orderedGroups mode mergeWhenSize

theorem planned_of_admits [WhenOp Op] {plan : WhenPlan} (h : G.Admits plan) :
    ∃ mode mergeWhenSize, G.planned plan = some (G.orderedGroups mode mergeWhenSize) := by
  cases plan with
  | traverse mode mergeWhenSize => exact ⟨mode, mergeWhenSize, if_pos h⟩
  | replay groups =>
    obtain ⟨mode, mergeWhenSize, rfl⟩ := h
    exact ⟨mode, mergeWhenSize, rfl⟩

/-- What `mergeWhenNodes` leaves: the same nodes, connected, without a cycle. -/
theorem Sweep.mergeWhenNodes [WhenOp Op] (h : G.Sweep nodes (· ∈ G.sortedSuper))
    {plan : WhenPlan} (admits : G.Admits plan) :
    ∃ G', G.mergeWhenNodes plan = some G' ∧
      G'.Partitioned nodes (· ∈ G'.sortedSuper) ∧ G'.Connected (· ∈ G'.sortedSuper) ∧
      Acyclic G'.SuperDep := by
  obtain ⟨mode, mergeWhenSize, planned⟩ := planned_of_admits admits
  obtain ⟨done, waiting, times, front, groups, -⟩ :=
    Traversal.whenGroups_ok h.part h.conn mode mergeWhenSize
  let rank := ReadyFrontier.rank G.links.depPrev done G.order
  have sorted : (G.orderedGroups mode mergeWhenSize).Perm
      (Traversal.whenGroups G mode mergeWhenSize) := List.perm_insertionSort _ _
  have ok : Mergeable G (fun v w => rank v = rank w) (· ∈ G.sortedSuper)
      (G.orderedGroups mode mergeWhenSize) :=
    (mergeable_of_groupsOk groups).reorder (sorted.map _) rfl fun _ hx => hx
  have unmerged : Grouped (fun v w => rank v = rank w) G G nodes (· ∈ G.sortedSuper) id :=
    Grouped.refl (fun _ => rfl) h.part
  obtain ⟨merged, alive, root, eq, grouped⟩ := unmerged.applyGroups _
    (fun _ _ _ first second => first.trans second) ok
  have part := grouped.part.removeEmptySuper
  have linksNodup : merged.removeEmptySuper.links.Nodup := by
    have := h.conn.nodup
    rw [← grouped.links] at this
    exact this
  have conn := reconnectSuper_connected part linksNodup
  have part' : merged.removeEmptySuper.reconnectSuper.Partitioned nodes
      (· ∈ merged.removeEmptySuper.reconnectSuper.sortedSuper) :=
    ⟨part.closed, part.superAlive, part.member, part.memberNodup, part.sorted, part.dead,
      part.nodup⟩
  obtain ⟨st, passes⟩ := detectSortedSuperLoop_ok
    merged.removeEmptySuper.reconnectSuper (fun x hx y hy =>
    (part'.superDep_alive ((conn.shows.depNext x y hx).mp hy)).2)
  refine ⟨merged.removeEmptySuper.reconnectSuper, ?_, part', conn, ?_⟩
  · unfold SuperGraph.mergeWhenNodes
    rw [planned, Option.bind_some, eq, Option.bind_some]
    dsimp only
    rw [passes]
    rfl
  · -- the moment of becoming ready goes up along the edges of the merged graph
    have up : ∀ p x, merged.SuperDep p x → rank p < rank x := by
      intro p x dep
      obtain ⟨y, z, old, rfl, rfl⟩ := grouped.superDep dep
      have hz := (h.part.superDep_alive old).2
      have lt := front.rank_lt ((h.conn.shows.depPrev z y hz).mpr old) (h.forward.forward y z old)
      rw [grouped.rel y, grouped.rel z]
      exact lt
    have upPath : ∀ p x, Relation.TransGen merged.SuperDep p x → rank p < rank x := by
      intro p x path
      induction path with
      | single dep => exact up _ _ dep
      | tail _ dep ih => exact ih.trans (up _ _ dep)
    exact fun x cycle => lt_irrefl _ (upPath x x cycle)

end When

/-! ## Sorting again -/

section Resort

variable {G : SuperGraph Op} {nodes : List Nat}

theorem push_perm (mode : ResortMode) {s : List Nat} {x : Nat} (fresh : x ∉ s) : (mode.push s x).Perm (x :: s) := by
  unfold ResortMode.push
  split
  · exact List.Perm.refl _
  · rw [List.insert_of_not_mem fresh]

theorem pop_some {mode : ResortMode} {s rest : List Nat} {top : Nat} (h : mode.pop s = some (top, rest)) :
    s.Perm (top :: rest) := by
  unfold ResortMode.pop at h
  split at h
  · cases h
  · rename_i x xs
    split at h
    · obtain ⟨rfl, rfl⟩ := Prod.mk.inj (Option.some.inj h)
      exact List.Perm.refl _
    · obtain ⟨rfl, rfl⟩ := Prod.mk.inj (Option.some.inj h)
      exact List.perm_cons_erase (Kahn.least_mem _ _ _)

theorem pop_none {mode : ResortMode} {s : List Nat} (h : mode.pop s = none) : s = [] := by
  unfold ResortMode.pop at h
  split at h
  · rfl
  · split at h <;> cases h

abbrev Sorting (G : SuperGraph Op) (pending : List Nat) (st : Resort) : Prop :=
  ReadyFrontier.Inv G.sortedSuper G.links.depPrev st.sorted pending st.s st.times

theorem Sorting.next (mode : ResortMode) {st : Resort} {next : Nat} {pending : List Nat}
    (h : Sorting G (next :: pending) st) (hnext : next ∈ G.sortedSuper) :
    Sorting G pending (G.resortNext mode st next) ∧
      (G.resortNext mode st next).sorted = st.sorted := by
  have absent := h.not_mem_of_pending hnext
  unfold resortNext
  dsimp only
  split
  · rename_i last
    rw [Function.update_self] at last
    refine ⟨(h.tell_ready hnext last).perm (push_perm mode ?_).symm, rfl⟩
    exact fun mem => absent (List.mem_append_right _ mem)
  · rename_i early
    rw [Function.update_self] at early
    exact ⟨h.tell_early hnext early, rfl⟩

theorem Sorting.nexts (mode : ResortMode) {st : Resort} (nexts : List Nat) (h : Sorting G nexts st)
    (hnexts : ∀ x ∈ nexts, x ∈ G.sortedSuper) :
    Sorting G [] (nexts.foldl (G.resortNext mode) st) ∧
      (nexts.foldl (G.resortNext mode) st).sorted = st.sorted := by
  induction nexts generalizing st with
  | nil => exact ⟨h, rfl⟩
  | cons next nexts ih =>
    obtain ⟨first, same⟩ := Sorting.next mode h (hnexts next List.mem_cons_self)
    obtain ⟨rest, same'⟩ := ih first fun x hx => hnexts x (List.mem_cons_of_mem _ hx)
    exact ⟨rest, same'.trans same⟩

/-- A round places a super node, or none waits. -/
theorem resortStep_ok (part : G.Partitioned nodes (· ∈ G.sortedSuper))
    (conn : G.Connected (· ∈ G.sortedSuper)) (mode : ResortMode) {st : Resort}
    (h : Sorting G [] st) :
    ∃ st', G.resortStep mode st = some st' ∧ Sorting G [] st' ∧
      (st'.sorted.length = st.sorted.length + 1 ∨ (st.s = [] ∧ st' = st)) := by
  have graph := Traversal.isGraph part conn
  unfold resortStep
  split
  · rename_i empty
    exact ⟨st, rfl, h, .inr ⟨pop_none empty, rfl⟩⟩
  · rename_i top rest popped
    have split := pop_some popped
    have mem : top ∈ st.s := split.mem_iff.mpr List.mem_cons_self
    have fresh : top ∉ st.sorted := fun mem' =>
      (List.nodup_append.mp h.nodup).2.2 top mem' top mem rfl
    rw [if_neg fresh]
    have htop := h.sub top (List.mem_append_right _ mem)
    let nexts := (G.links.depNext top).insertionSort fun a b => mode.less b a = false
    have perm : nexts.Perm (G.links.depNext top) := List.perm_insertionSort _ _
    have placed : Sorting G nexts { st with s := rest, sorted := st.sorted ++ [top] } :=
      h.place graph split perm
    obtain ⟨told, same⟩ := Sorting.nexts mode nexts placed fun x hx =>
      ((graph.mirrored top htop x).mp (perm.mem_iff.mp hx)).1
    refine ⟨_, rfl, told, .inl ?_⟩
    rw [same]
    simp

theorem resortRun_of_empty {mode : ResortMode} {st : Resort} (empty : st.s = []) (fuel : Nat) :
    G.resortRun mode fuel st = some st := by
  induction fuel with
  | zero => rfl
  | succ fuel ih =>
    have stays : G.resortStep mode st = some st := by
      unfold resortStep
      rw [empty]
      rfl
    rw [resortRun, stays]
    exact ih

theorem resortRun_ok (part : G.Partitioned nodes (· ∈ G.sortedSuper))
    (conn : G.Connected (· ∈ G.sortedSuper)) (mode : ResortMode) (fuel : Nat) {st : Resort}
    (h : Sorting G [] st) :
    ∃ st', G.resortRun mode fuel st = some st' ∧ Sorting G [] st' ∧
      (st.sorted.length + fuel ≤ st'.sorted.length ∨ st'.s = []) := by
  induction fuel generalizing st with
  | zero => exact ⟨st, rfl, h, .inl (le_refl _)⟩
  | succ fuel ih =>
    obtain ⟨st₁, eq, h₁, more⟩ := resortStep_ok part conn mode h
    rcases more with one | ⟨empty, -⟩
    · obtain ⟨st', eq', h', more'⟩ := ih h₁
      refine ⟨st', ?_, h', more'.imp (fun le => by omega) id⟩
      rw [resortRun, eq]
      exact eq'
    · exact ⟨st, resortRun_of_empty empty _, h, .inr empty⟩

theorem foldl_push (mode : ResortMode) (l : List Nat) {s : List Nat} (nodup : (l ++ s).Nodup) :
    (l.foldl mode.push s).Perm (l ++ s) := by
  induction l generalizing s with
  | nil => exact List.Perm.refl _
  | cons x l ih =>
    obtain ⟨out, nodup⟩ := List.nodup_cons.mp nodup
    have pushed : (mode.push s x).Perm (x :: s) := push_perm mode fun mem =>
      out (List.mem_append_right _ mem)
    have both : (l ++ mode.push s x).Perm (x :: (l ++ s)) :=
      (pushed.append_left l).trans List.perm_middle
    exact (ih (both.nodup_iff.mpr (List.nodup_cons.mpr ⟨out, nodup⟩))).trans both

/-- On an acyclic graph `resort` does not fail, and sorts. -/
theorem resort_ok (part : G.Partitioned nodes (· ∈ G.sortedSuper))
    (conn : G.Connected (· ∈ G.sortedSuper)) (acyclic : Acyclic G.SuperDep) (mode : ResortMode) :
    ∃ G', G.resort mode = some G' ∧ G'.Sweep nodes (· ∈ G'.sortedSuper) ∧
      G'.sortedSuper.Perm G.sortedSuper ∧
      ∀ x ∈ G'.sortedSuper, G'.order x = G'.sortedSuper.idxOf x := by
  have nodup : (G.sortedSuper.filter fun node => (G.links.depPrev node).length = 0).Nodup :=
    part.nodup.filter _
  have roots : ((G.sortedSuper.filter fun node =>
      (G.links.depPrev node).length = 0).foldl mode.push []).Perm
      (G.sortedSuper.filter fun node => (G.links.depPrev node).length = 0) := by
    have pushed := foldl_push mode (G.sortedSuper.filter fun node =>
      (G.links.depPrev node).length = 0) (s := []) (by rwa [List.append_nil])
    rwa [List.append_nil] at pushed
  have start : Sorting G [] ⟨fun _ => 0, (G.sortedSuper.filter fun node =>
      (G.links.depPrev node).length = 0).foldl mode.push [], []⟩ := by
    refine ReadyFrontier.Inv.start (roots.nodup_iff.mpr nodup) fun v => ?_
    rw [roots.mem_iff]
    simp [List.length_eq_zero_iff]
  obtain ⟨st, eq, h, more⟩ := resortRun_ok part conn mode G.sortedSuper.length start
  have empty : st.s = [] := by
    rcases more with le | empty
    · have bound := h.length_le
      rw [List.length_nil] at le
      exact List.length_eq_zero_iff.mp (by omega)
    · exact empty
  have perm : st.sorted.Perm G.sortedSuper := by
    have done := h
    unfold Sorting at done
    rw [empty] at done
    refine done.complete (Traversal.isGraph part conn) part.nodup ?_
    refine acyclic.mono ?_
    rintro u v ⟨hv, mem⟩
    exact (conn.shows.depPrev v u hv).mp mem
  let G' : SuperGraph Op := ({ G with sortedSuper := st.sorted } : SuperGraph Op).orderAllNodes
  have order : ∀ x ∈ st.sorted, G'.order x = st.sorted.idxOf x := fun x hx => if_pos hx
  have mem : ∀ x, x ∈ G'.sortedSuper ↔ x ∈ G.sortedSuper := fun x => perm.mem_iff
  refine ⟨G', ?_, ⟨?_, ?_, ?_, ?_⟩, perm, order⟩
  · unfold resort
    dsimp only
    rw [eq, Option.bind_some, if_pos perm.length_eq]
  · exact ⟨part.closed, fun n hn => (mem _).mpr (part.superAlive n hn),
      fun x hx => part.member x ((mem x).mp hx), fun x hx => part.memberNodup x ((mem x).mp hx),
      fun x hx => hx, fun x hx out => absurd hx out, perm.nodup_iff.mpr part.nodup⟩
  · exact ⟨conn.nodup, fun x p hx => conn.shows.prev x p ((mem x).mp hx),
      fun x n hx => conn.shows.next x n ((mem x).mp hx),
      fun x p hx => conn.shows.depPrev x p ((mem x).mp hx),
      fun x n hx => conn.shows.depNext x n ((mem x).mp hx)⟩
  · have sortedNodup : st.sorted.Nodup := perm.nodup_iff.mpr part.nodup
    show st.sorted.Pairwise fun a b => G'.order a < G'.order b
    refine List.pairwise_iff_getElem.mpr ?_
    intro i j hi hj lt
    rw [order _ (List.getElem_mem hi), order _ (List.getElem_mem hj)]
    rw [sortedNodup.idxOf_getElem i hi, sortedNodup.idxOf_getElem j hj]
    exact lt
  · intro p x dep
    obtain ⟨hp, hx⟩ := part.superDep_alive (show G.SuperDep p x from dep)
    have edge := (conn.shows.depPrev x p hx).mpr dep
    obtain ⟨hp', lt⟩ := h.sorted x (perm.mem_iff.mpr hx) p edge
    rw [order p hp', order x (perm.mem_iff.mpr hx)]
    exact lt

end Resort

/-! ## Valid schedules -/

/-- The super nodes hold the given nodes, each once; the relation sets are those the
edges between members induce; the dependences have no cycle. -/
structure Merged (G : SuperGraph Op) (nodes : List Nat) : Prop where
  nodup : G.sortedSuper.Nodup
  partition : (G.sortedSuper.flatMap G.member).Perm nodes
  super : ∀ x ∈ G.sortedSuper, ∀ n ∈ G.member x, G.super n = x
  prev : ∀ x ∈ G.sortedSuper, ∀ p, p ∈ G.links.prev x ↔ G.SuperEdge p x
  next : ∀ x ∈ G.sortedSuper, ∀ n, n ∈ G.links.next x ↔ G.SuperEdge x n
  depPrev : ∀ x ∈ G.sortedSuper, ∀ p, p ∈ G.links.depPrev x ↔ G.SuperDep p x
  depNext : ∀ x ∈ G.sortedSuper, ∀ n, n ∈ G.links.depNext x ↔ G.SuperDep x n
  mirrored : ∀ x ∈ G.sortedSuper, ∀ y ∈ G.sortedSuper,
    (x ∈ G.links.prev y ↔ y ∈ G.links.next x) ∧ (x ∈ G.links.depPrev y ↔ y ∈ G.links.depNext x)
  acyclic : Acyclic fun x y => y ∈ G.sortedSuper ∧ x ∈ G.links.depPrev y

/-- The list of super nodes is in topological order. -/
structure Scheduled (G : SuperGraph Op) (nodes : List Nat) : Prop extends G.Merged nodes where
  topological : G.sortedSuper.Pairwise fun a b => b ∉ G.links.depPrev a

/-- A graph as the passes get it: every edge is between nodes of the graph, and the
order fields are the positions. -/
structure Ordered (G : SuperGraph Op) (nodes : List Nat) : Prop extends G.Scheduled nodes where
  distinct : nodes.Nodup
  closed : ∀ n m, G.Dep n m → n ∈ nodes ∧ m ∈ nodes
  sets : G.links.Nodup
  order : ∀ x ∈ G.sortedSuper, G.order x = G.sortedSuper.idxOf x

section Valid

variable {G : SuperGraph Op} {nodes : List Nat}

theorem Partitioned.merged (part : G.Partitioned nodes (· ∈ G.sortedSuper))
    (conn : G.Connected (· ∈ G.sortedSuper)) (nodup : nodes.Nodup) (acyclic : Acyclic G.SuperDep) :
    G.Merged nodes where
  nodup := part.nodup
  partition := part.perm nodup
  super x hx n hn := ((part.member x hx n).mp hn).2
  prev x hx p := conn.shows.prev x p hx
  next x hx n := conn.shows.next x n hx
  depPrev x hx p := conn.shows.depPrev x p hx
  depNext x hx n := conn.shows.depNext x n hx
  mirrored x hx y hy :=
    ⟨(conn.shows.prev y x hy).trans (conn.shows.next x y hx).symm,
      (conn.shows.depPrev y x hy).trans (conn.shows.depNext x y hx).symm⟩
  acyclic := acyclic.mono fun x y h => (conn.shows.depPrev y x h.1).mp h.2

theorem Sweep.scheduled (h : G.Sweep nodes (· ∈ G.sortedSuper)) (nodup : nodes.Nodup) :
    G.Scheduled nodes where
  toMerged := h.part.merged h.conn nodup h.forward.acyclic
  topological := by
    refine h.forward.topological.imp_of_mem ?_
    intro a b ha _ later mem
    exact later ((h.conn.shows.depPrev a b ha).mp mem)

theorem Ordered.sweep (h : G.Ordered nodes) : G.Sweep nodes (· ∈ G.sortedSuper) := by
  have home : ∀ n ∈ nodes, G.super n ∈ G.sortedSuper ∧ n ∈ G.member (G.super n) := by
    intro n hn
    obtain ⟨x, hx, mem⟩ := List.mem_flatMap.mp (h.partition.mem_iff.mpr hn)
    rw [h.super x hx n mem]
    exact ⟨hx, mem⟩
  have flat : (G.sortedSuper.flatMap G.member).Nodup := h.partition.nodup_iff.mpr h.distinct
  refine ⟨⟨h.closed, fun n hn => (home n hn).1, ?_, ?_, fun _ hx => hx,
    fun x hx out => absurd hx out, h.nodup⟩, ⟨h.sets, ?_⟩, ?_, ?_⟩
  · intro x hx n
    constructor
    · intro mem
      exact ⟨h.partition.mem_iff.mp (List.mem_flatMap.mpr ⟨x, hx, mem⟩), h.super x hx n mem⟩
    · rintro ⟨hn, rfl⟩
      exact (home n hn).2
  · exact (List.nodup_flatMap.mp flat).1
  · exact ⟨fun x p hx => h.prev x hx p, fun x n hx => h.next x hx n,
      fun x p hx => h.depPrev x hx p, fun x n hx => h.depNext x hx n⟩
  · refine List.pairwise_iff_getElem.mpr ?_
    intro i j hi hj lt
    rw [h.order _ (List.getElem_mem hi), h.order _ (List.getElem_mem hj),
      h.nodup.idxOf_getElem i hi, h.nodup.idxOf_getElem j hj]
    exact lt
  · intro p x dep
    obtain ⟨u, v, edge, hu, hv, ne⟩ := id dep
    obtain ⟨un, vn⟩ := h.closed u v edge
    have hp : p ∈ G.sortedSuper := hu ▸ (home u un).1
    have hx : x ∈ G.sortedSuper := hv ▸ (home v vn).1
    rw [h.order p hp, h.order x hx]
    -- otherwise `x` would be listed before its predecessor
    by_contra notLt
    have lt : G.sortedSuper.idxOf x < G.sortedSuper.idxOf p := by
      refine lt_of_le_of_ne (not_lt.mp notLt) fun eq => ne ?_
      exact ((List.idxOf_inj hx).mp eq).symm
    have later := List.pairwise_iff_getElem.mp h.topological _ _
      (List.idxOf_lt_length_of_mem hx) (List.idxOf_lt_length_of_mem hp) lt
    rw [List.getElem_idxOf, List.getElem_idxOf] at later
    exact later ((h.depPrev x hx p).mpr dep)

/-- **Merging keeps a valid schedule.**  After each of `mergeOut1`, `mergeIn1` and
`mergeSublings` the schedule is valid; `mergeWhenNodes` merges groups without making a
cycle, and the `resort` after it does not fail. -/
theorem merging_keeps_schedule [WhenOp Op] (h : G.Ordered nodes) :
    (∀ addr, G.mergeOut1.Scheduled nodes ∧ G.mergeOut1.mergeIn1.Scheduled nodes ∧
      (G.mergeOut1.mergeIn1.mergeSublings addr).Scheduled nodes) ∧
    ∀ plan, G.Admits plan → ∃ G', G.mergeWhenNodes plan = some G' ∧ G'.Merged nodes ∧
      ∀ resortMode, ∃ G'', G'.resort resortMode = some G'' ∧ G''.Ordered nodes ∧
        G''.sortedSuper.Perm G'.sortedSuper := by
  have sweep := h.sweep
  refine ⟨fun addr => ?_, fun plan admits => ?_⟩
  · have out1 := sweep.mergeOut1
    have in1 := out1.mergeIn1
    exact ⟨out1.scheduled h.distinct, in1.scheduled h.distinct, (in1.mergeSublings addr).scheduled h.distinct⟩
  · obtain ⟨G', eq, part, conn, acyclic⟩ := sweep.mergeWhenNodes admits
    refine ⟨G', eq, part.merged conn h.distinct acyclic, fun resortMode => ?_⟩
    obtain ⟨G'', eq', sorted, perm, order⟩ := resort_ok part conn acyclic resortMode
    exact ⟨G'', eq', ⟨sorted.scheduled h.distinct, h.distinct, sorted.part.closed, sorted.conn.nodup,
      order⟩, perm⟩

end Valid

/-! ### Two nodes guarded by one condition -/

/-- The only operator of the example. -/
inductive GuardOp where
  | guard

instance : WhenOp GuardOp where
  isWhen _ := true

/-- `1` and `2` are guarded by `0` and read `4`; `3` reads both. -/
def diamondEdges : List (Nat × Nat) := [(0, 1), (0, 2), (4, 1), (4, 2), (1, 3), (2, 3)]

def diamondPreds (m : Nat) : List Nat := (diamondEdges.filter fun e => e.2 = m).map Prod.fst

def diamondSuccs (n : Nat) : List Nat := (diamondEdges.filter fun e => e.1 = n).map Prod.snd

def diamondTree (m : Nat) : ExpTree.ETree GuardOp where
  root :=
    if m = 1 ∨ m = 2 then .op .guard 1 false [.ref 0 1 false [], .ref 4 1 false [], .null]
    else .null
  lvalue := some (.ref m 1 false [])

def diamond : SuperGraph GuardOp :=
  SuperGraph.reconnectSuper
    { node := fun m => ⟨false, [diamondTree m], diamondPreds m, diamondSuccs m, diamondPreds m,
        diamondSuccs m⟩
      superType := fun _ => .valid
      order := fun x => [0, 4, 1, 2, 3].idxOf x
      sortedSuper := [0, 4, 1, 2, 3]
      member := fun x => [x]
      super := id
      links := ⟨fun _ => [], fun _ => [], fun _ => [], fun _ => []⟩ }

theorem diamond_dep {n m : Nat} (h : diamond.Dep n m) : (n, m) ∈ diamondEdges := by
  have pred : n ∈ diamondPreds m → (n, m) ∈ diamondEdges := by
    intro mem
    obtain ⟨⟨a, b⟩, he, rfl⟩ := List.mem_map.mp mem
    obtain ⟨he, eq⟩ := List.mem_filter.mp he
    exact (of_decide_eq_true eq) ▸ he
  have succ : m ∈ diamondSuccs n → (n, m) ∈ diamondEdges := by
    intro mem
    obtain ⟨⟨a, b⟩, he, rfl⟩ := List.mem_map.mp mem
    obtain ⟨he, eq⟩ := List.mem_filter.mp he
    exact (of_decide_eq_true eq) ▸ he
  rcases h with (h | h) | h | h
  · exact pred h
  · exact succ h
  · exact pred h
  · exact succ h

theorem diamond_sweep : diamond.Sweep [0, 4, 1, 2, 3] (· ∈ diamond.sortedSuper) := by
  have part : diamond.Partitioned [0, 4, 1, 2, 3] (· ∈ diamond.sortedSuper) := by
    refine ⟨?_, fun n hn => hn, ?_, fun x _ => List.nodup_singleton x, fun _ hx => hx,
      fun x hx out => absurd hx out, by decide⟩
    · intro n m dep
      have edge := diamond_dep dep
      revert edge
      simp only [diamondEdges, List.mem_cons, Prod.mk.injEq, List.not_mem_nil, or_false]
      omega
    · intro x hx n
      show n ∈ [x] ↔ n ∈ [0, 4, 1, 2, 3] ∧ n = x
      constructor
      · intro mem
        have eq := List.mem_singleton.mp mem
        exact ⟨eq ▸ hx, eq⟩
      · rintro ⟨-, rfl⟩
        exact List.mem_singleton_self n
  refine ⟨part, ?_, by decide, ?_⟩
  · refine @reconnectSuper_connected GuardOp _ [0, 4, 1, 2, 3] (· ∈ [0, 4, 1, 2, 3]) ?_ ?_
    · exact ⟨part.closed, part.superAlive, part.member, part.memberNodup, part.sorted, part.dead,
        part.nodup⟩
    · exact ⟨fun _ => List.nodup_nil, fun _ => List.nodup_nil, fun _ => List.nodup_nil,
        fun _ => List.nodup_nil⟩
  · rintro p x ⟨u, v, edge, rfl, rfl, -⟩
    have edge := diamond_dep edge
    have up : ∀ e ∈ diamondEdges, [0, 4, 1, 2, 3].idxOf e.1 < [0, 4, 1, 2, 3].idxOf e.2 := by decide
    exact up (u, v) edge

theorem diamond_ordered : diamond.Ordered [0, 4, 1, 2, 3] :=
  ⟨diamond_sweep.scheduled (by decide), by decide, diamond_sweep.part.closed,
    diamond_sweep.conn.nodup, fun _ _ => rfl⟩

/-- The two guarded nodes are merged; the rest of the schedule stays valid. -/
theorem merging_keeps_schedule_diamond :
    (diamond.mergeOut1.mergeIn1.mergeSublings fun n => n.toUInt64).Scheduled [0, 4, 1, 2, 3] ∧
    ∃ G', diamond.mergeWhenNodes (.traverse .byId 1) = some G' ∧ G'.sortedSuper = [0, 4, 1, 3] ∧
      G'.member 1 = [1, 2] ∧ ∃ G'', G'.resort ⟨true, fun a b => decide (a < b)⟩ = some G'' := by
  obtain ⟨passes, guarded⟩ := merging_keeps_schedule diamond_ordered
  refine ⟨(passes _).2.2, ?_⟩
  obtain ⟨G', eq, -, resorted⟩ := guarded (.traverse .byId 1) (fun _ _ _ => le_refl 1)
  obtain ⟨G'', eq', -, -⟩ := resorted ⟨true, fun a b => decide (a < b)⟩
  have run : (diamond.mergeWhenNodes (.traverse .byId 1)).map (fun G => (G.sortedSuper, G.member 1)) =
      some ([0, 4, 1, 3], [1, 2]) := by decide +kernel
  rw [eq] at run
  obtain ⟨sorted, member⟩ := Prod.mk.inj (Option.some.inj run)
  exact ⟨G', eq, sorted, member, G'', eq'⟩

end SuperGraph

end Gsim.MergeNodes
