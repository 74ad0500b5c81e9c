/-
  Gsim/ExecutorsAgree.lean
  ========================
  **The dense executor and the activity-driven step agree.**

  Two simulators come out of one graph: `step` looks at flags and evaluates the super
  nodes that may have changed, one after the other; `stepDense` evaluates all of them
  on several threads.  The edges of `reconnectAll` leave no race between super nodes
  (`Wired.raceFree`): a node that reads what another one writes comes after it, or, for
  the source of a register, before it.  So both leave every node, memory and external
  module with the values of a full evaluation.

  As in `ActivityScan`, designs have no resets and no read-write ports; and the ports
  that write one memory stand in one super node, as no edge orders them.
-/
import Gsim.ActivitySound
import Gsim.DensePool
import Gsim.Reconnect

namespace Gsim.ActivityScan

open ExpTree CommutingTraces SuperLinks Relation

variable {Op : Type}

/-! ## The variables of the generated code -/

/-- A node, a memory or the state of an external module, each as a whole. -/
inductive Var where
  | node (n : ℕ)
  | mem (memory : ℕ)
  | ext (module : ℕ)
deriving DecidableEq

abbrev Image := List ℤ → ℤ

def Place.var : Place → Var
  | .node n _ => .node n
  | .mem m _ _ => .mem m
  | .ext m _ => .ext m

/-- Where a place lies in its variable. -/
def Place.index : Place → List ℤ
  | .node _ index => index
  | .mem _ addr index => addr :: index
  | .ext _ index => index

def State.ofVars (f : Var → Image) : State := fun y => f y.var y.index

/-- The part of a state that a variable holds. -/
def State.image (s : State) (old : Image) : Var → Image
  | .node n => fun index => s (.node n index)
  | .mem m => fun
    | [] => old []
    | addr :: index => s (.mem m addr index)
  | .ext m => fun index => s (.ext m index)

theorem State.ofVars_update (f : Var → Image) (s : State) (x : Var) (y : Place) :
    State.ofVars (Function.update f x (s.image (f x) x)) y =
      if y.var = x then s y else State.ofVars f y := by
  by_cases here : y.var = x
  · rw [if_pos here]
    subst here
    rw [State.ofVars, Function.update_self]
    cases y with
    | node | mem | ext => rfl
  · rw [if_neg here]
    exact congrFun (Function.update_of_ne here _ _) y.index

namespace Emitted

variable (G : Emitted Op) (I : Interp Op)

/-- The variable that a member assigns. -/
def target (n : ℕ) : Option Var :=
  match (G.node n).type with
  | .inp | .special | .memory => none
  | .writer => some (.mem (G.node n).parent)
  | .ext => some (.ext n)
  | _ => some (.node n)

/-- The variables that it depends on. -/
def sources (n : ℕ) : Set Var :=
  {x | (∃ tree ∈ (G.node n).assignTree, ∃ p ∈ tree.refs, x = .node p) ∨ G.target n = some x ∨
    (G.node n).type = .reader ∧ x = .mem (G.node n).parent ∨
    (G.node n).type = .extOut ∧ x = .ext (G.node n).parent}

/-- Which node assigns a variable. -/
def Assigns (n : ℕ) : Var → Prop
  | .node m => n = m
  | .ext m => n = m
  | .mem m => (G.node n).type = .writer ∧ (G.node n).parent = m

variable {G I}

theorem eq_of_target {n : ℕ} {x : Var} (h : G.target n = some x) : G.Assigns n x := by
  unfold target at h
  cases hty : (G.node n).type with
  | inp | special | memory =>
    rw [hty] at h
    cases h
  | writer =>
    rw [hty] at h
    obtain rfl := Option.some.inj h
    exact ⟨hty, rfl⟩
  | ext | regSrc | regDst | out | reader | readwriter | infer | others | regReset | extIn
  | extOut =>
    rw [hty] at h
    obtain rfl := Option.some.inj h
    rfl

theorem act_var {n : ℕ} {s : State} {y : Place} {v : ℤ} (h : G.act I n s y = some v) :
    G.target n = some y.var := by
  unfold target
  cases hty : (G.node n).type with
  | inp | special | memory =>
    rw [act, hty] at h
    cases h
  | writer =>
    cases y with
    | mem m addr index =>
      rw [(act_mem h).2]
      rfl
    | node | ext =>
      rw [act, hty] at h
      cases h
  | ext =>
    cases y with
    | ext m index =>
      rw [act_ext h]
      rfl
    | node | mem =>
      rw [act, hty] at h
      cases h
  | regSrc | regDst | out | reader | readwriter | infer | others | regReset | extIn | extOut =>
    cases y with
    | node m index =>
      rw [(act_node h).1]
      rfl
    | mem | ext =>
      rw [act, hty] at h
      cases h

/-- What a member computes depends on its sources. -/
theorem act_ofVars_congr {n : ℕ} {f g : Var → Image} (same : ∀ x ∈ G.sources n, f x = g x) :
    G.act I n (State.ofVars f) = G.act I n (State.ofVars g) := by
  have trees : ∀ mem, G.treeValues I mem n (State.ofVars f) = G.treeValues I mem n (State.ofVars g) := by
    intro mem
    refine List.map_congr_left fun tree htree => tree.eval_congr fun p hp => ?_
    exact same (.node p) (.inl ⟨tree, htree, p, hp, rfl⟩)
  unfold act
  cases hty : (G.node n).type with
  | reader =>
    have stored : f (.mem (G.node n).parent) = g (.mem (G.node n).parent) :=
      same _ (.inr (.inr (.inl ⟨hty, rfl⟩)))
    have mems : memory (State.ofVars f) (G.node n).parent = memory (State.ofVars g) (G.node n).parent := by
      funext addr index
      exact congrFun stored (addr :: index)
    simp only [mems, trees]
  | ext =>
    have own : f (.ext n) = g (.ext n) := same _ (.inr (.inl (by rw [target, hty])))
    have hidden : (fun i => State.ofVars f (.ext n i)) = fun i => State.ofVars g (.ext n i) := own
    simp only [hidden, trees]
  | extOut =>
    have own : f (.ext (G.node n).parent) = g (.ext (G.node n).parent) :=
      same _ (.inr (.inr (.inr ⟨hty, rfl⟩)))
    have hidden : (fun i => State.ofVars f (.ext (G.node n).parent i)) =
        fun i => State.ofVars g (.ext (G.node n).parent i) := own
    simp only [hidden, trees]
  | _ => simp only [trees]

variable (G I)

/-- A member as one assignment. -/
def memberAccess (n : ℕ) (x : Var) (hx : G.target n = some x) : Access Var Image where
  target := x
  reads := G.sources n
  value f := (G.runMember I (State.ofVars f) n).image (f x) x
  footprint f g same := by
    have own : f x = g x := same x (.inr (.inl hx))
    have place : ∀ y : Place, y.var = x →
        G.runMember I (State.ofVars f) n y = G.runMember I (State.ofVars g) n y := by
      intro y hy
      have old : State.ofVars f y = State.ofVars g y := by
        subst hy
        exact congrFun own y.index
      unfold runMember ChangeDriven.overlay
      rw [act_ofVars_congr same, old]
    cases x with
    | node n => exact funext fun index => place (.node n index) rfl
    | ext n => exact funext fun index => place (.ext n index) rfl
    | mem m =>
      funext index
      cases index with
      | nil => exact congrFun own []
      | cons addr index => exact place (.mem m addr index) rfl

/-- The assignment of a member, if it has one. -/
def memberAccesses (n : ℕ) : List (Access Var Image) :=
  match hx : G.target n with
  | none => []
  | some x => [G.memberAccess I n x hx]

/-- The code of the super nodes. -/
def code : SuperCode Var Image where
  prologue := id
  superEval cppId := (G.members cppId).flatMap (G.memberAccesses I)

variable {G I}

theorem mem_memberAccesses {n : ℕ} {a : Access Var Image} (h : a ∈ G.memberAccesses I n) :
    G.target n = some a.target ∧ a.reads = G.sources n := by
  unfold memberAccesses at h
  split at h
  · cases h
  · rename_i x hx
    obtain rfl := List.mem_singleton.mp h
    exact ⟨hx, rfl⟩

theorem exec_memberAccesses (n : ℕ) (f : Var → Image) :
    State.ofVars (exec Access.run (G.memberAccesses I n) f) = G.runMember I (State.ofVars f) n := by
  funext y
  unfold memberAccesses
  split
  · rename_i none
    rw [exec_nil, runMember, ChangeDriven.overlay_none]
    refine Option.eq_none_iff_forall_ne_some.mpr fun v h => ?_
    cases none.symm.trans (act_var h)
  · rename_i x hx
    rw [exec_cons, exec_nil]
    show State.ofVars (Function.update f x _) y = _
    rw [memberAccess, State.ofVars_update]
    by_cases here : y.var = x
    · rw [if_pos here]
    · rw [if_neg here, runMember, ChangeDriven.overlay_none]
      refine Option.eq_none_iff_forall_ne_some.mpr fun v h => ?_
      exact here (Option.some.inj ((act_var h).symm.trans hx))

theorem exec_superEval (cppId : ℕ) (f : Var → Image) :
    State.ofVars (exec Access.run ((G.code I).superEval cppId) f) = G.runSuper I cppId (State.ofVars f) := by
  have all : ∀ (ns : List ℕ) (f : Var → Image),
      State.ofVars (exec Access.run (ns.flatMap (G.memberAccesses I)) f) =
        ns.foldl (G.runMember I) (State.ofVars f) := by
    intro ns
    induction ns with
    | nil => exact fun f => rfl
    | cons n ns ih =>
      intro f
      rw [List.flatMap_cons, exec_append, ih, exec_memberAccesses, List.foldl_cons]
  exact all (G.members cppId) f

/-- All super nodes in order, as accesses and as assignments. -/
theorem ofVars_fullCycle (f : Var → Image) :
    State.ofVars ((G.code I).fullCycle G.superId f) = G.fullStep I (State.ofVars f) := by
  have all : ∀ (supers : List ℕ) (f : Var → Image),
      State.ofVars (exec Access.run (supers.flatMap (G.code I).superEval) f) =
        supers.foldl (fun s cppId => G.runSuper I cppId s) (State.ofVars f) := by
    intro supers
    induction supers with
    | nil => exact fun f => rfl
    | cons cppId supers ih =>
      intro f
      rw [List.flatMap_cons, exec_append, ih, exec_superEval, List.foldl_cons]
  exact all (List.range G.superId) f

end Emitted

/-! ## The graph after `reconnectAll` -/

/-- The graph that both simulators are emitted from. -/
structure Graph (Op : Type) where
  node : Reconnect.Nodes Op
  isArray : ℕ → Bool
  /-- `getSrc` of the destination of a register -/
  src : ℕ → ℕ
  /-- the super nodes that have a `cppId`, in this order -/
  cppId2Super : List SuperNode
  /-- the members of the other ones -/
  others : List ℕ
  /-- the relation sets before `reconnectAll` -/
  stale : Links ℕ

namespace Graph

variable (G : Graph Op)

/-- The members of `sortedSuper`. -/
def members : List ℕ := G.others ++ G.cppId2Super.flatMap SuperNode.member

def links : Links ℕ := G.node.reconnectAll G.members G.stale

def emitted : Emitted Op where
  node n := ⟨(G.node n).type, G.isArray n, G.links.next n, (G.node n).assignTree, G.src n,
    (G.node n).parent, (G.node n).member⟩
  cppId2Super := G.cppId2Super

/-- `constructSuperConnect`: the `cppId`s of the super nodes of the successors of the members, in
`next` or in `depNext`.  What the other ends insert is the same (`reconnectAll_shows`). -/
def dependency (cppId : ℕ) : List ℕ :=
  ((G.emitted.members cppId).flatMap fun n =>
    (G.links.next n ++ G.links.depNext n).filterMap G.emitted.cppIdOf).filter fun v => v ≠ cppId

/-- The `nextActiveId` of the members. -/
def activation (cppId : ℕ) : List ℕ :=
  (List.range G.emitted.superId).filter fun v =>
    ∃ n ∈ G.emitted.members cppId, v ∈ G.emitted.nextActiveId n

end Graph

/-- What the passes guarantee besides the edges. -/
structure Wired (Op : Type) extends Graph Op where
  /-- a node is a member of one super node -/
  nodup : (cppId2Super.flatMap SuperNode.member).Nodup
  /-- `addUpdateTree` -/
  update : ∀ super ∈ cppId2Super, ∀ n ∈ super.member, (node n).type = .regSrc →
    ∀ tree ∈ (node n).assignTree, ∀ p ∈ tree.refs, (node p).type = .regDst ∧ src p = n
  noReset : ∀ super ∈ cppId2Super, ∀ n ∈ super.member, (node n).resetTree = none
  /-- a memory knows its ports -/
  port : ∀ super ∈ cppId2Super, ∀ n ∈ super.member,
    (node n).type = .reader ∨ (node n).type = .writer → n ∈ node.ports n
  /-- `constructSuperNode` -/
  extmod : ∀ super ∈ cppId2Super, ∀ n ∈ super.member,
    (node n).type = .ext ∨ (node n).type = .extOut → super.isExtmod = true
  /-- an external module and its outputs -/
  extHome : ∀ super ∈ cppId2Super, ∀ n ∈ super.member, (node n).type = .extOut →
    (node n).parent ∈ cppId2Super.flatMap SuperNode.member → (node n).parent ∈ super.member
  noReadwriter : ∀ super ∈ cppId2Super, ∀ n ∈ super.member, (node n).type ≠ .readwriter
  /-- the super nodes are numbered in a topological order (`topoSort`, `resort`) -/
  forward : ∀ u < toGraph.emitted.superId, ∀ v ∈ toGraph.dependency u,
    v < toGraph.emitted.superId → u < v

namespace Wired

variable (G : Wired Op)

/-- A node reads what its successor says. -/
theorem next_of_edge {p x : ℕ} (h : G.node.Edge G.members p x) : x ∈ G.links.next p :=
  ((Reconnect.reconnectAll_adds G.node G.members G.stale).next p x).mpr (.inr h)

theorem depNext_of_dep {p x : ℕ} (h : G.node.Dep G.members p x) : x ∈ G.links.depNext p :=
  ((Reconnect.reconnectAll_adds G.node G.members G.stale).depNext p x).mpr (.inr h)

variable {G}

theorem mem_members_of_super {super : SuperNode} (hs : super ∈ G.cppId2Super) {n : ℕ}
    (hn : n ∈ super.member) : n ∈ G.members :=
  List.mem_append_right _ (List.mem_flatMap.mpr ⟨super, hs, hn⟩)

variable (G)

/-- The design that the activity-driven step works on. -/
def design : Design Op where
  toEmitted := G.emitted
  nodup := G.nodup
  connect super hs n hn plain tree htree p hp := by
    refine G.next_of_edge ⟨n, mem_members_of_super hs hn, plain, .inl ⟨?_, rfl⟩⟩
    exact List.mem_flatMap.mpr ⟨tree, htree, hp⟩
  update := G.update
  port super hs n hn reader := G.port super hs n hn (.inl reader)
  extmod := G.extmod
  noReadwriter := G.noReadwriter

/-- The tasks of the dense executor. -/
def tasks (worker0Only : ℕ → Bool) (estimatedCost : ℕ → ℤ) : DenseTaskGraph where
  superId := G.emitted.superId
  dependency := G.dependency
  activation := G.activation
  worker0Only := worker0Only
  estimatedCost := estimatedCost
  memberCount cppId := (G.emitted.members cppId).length
  forward := G.forward

/-! ## Races -/

/-- The ports that write one memory stand in one super node. -/
def OneWriter : Prop :=
  ∀ c d w w', w ∈ G.emitted.members c → w' ∈ G.emitted.members d → (G.node w).type = .writer →
    (G.node w').type = .writer → (G.node w).parent = (G.node w').parent → c = d

variable {G} {worker0Only : ℕ → Bool} {estimatedCost : ℕ → ℤ}

theorem mem_super {c n : ℕ} (h : n ∈ G.emitted.members c) :
    ∃ super ∈ G.cppId2Super, n ∈ super.member ∧ G.cppId2Super[c]? = some super := by
  obtain ⟨super, hsuper, hn⟩ := Emitted.mem_members.mp h
  exact ⟨super, List.mem_of_getElem? hsuper, hn, hsuper⟩

/-- An edge between members of two super nodes. -/
theorem dependsOn {u v p x : ℕ} (hp : p ∈ G.emitted.members u) (hx : x ∈ G.emitted.members v)
    (ne : u ≠ v) (dep : G.node.Dep G.members p x) :
    (G.tasks worker0Only estimatedCost).DependsOn u v := by
  refine ⟨Emitted.lt_of_mem_members hp, Emitted.lt_of_mem_members hx, ?_⟩
  refine List.mem_filter.mpr ⟨List.mem_flatMap.mpr ⟨p, hp, List.mem_filterMap.mpr ⟨x, ?_, ?_⟩⟩, ?_⟩
  · exact List.mem_append_right _ (G.depNext_of_dep dep)
  · exact Design.cppIdOf_eq (G := G.design) hx
  · exact decide_eq_true ne.symm

/-- A member that looks at what a member of another super node assigns is ordered with it. -/
theorem ordered (one : G.OneWriter) {u v n m : ℕ} {x : Var} (hn : n ∈ G.emitted.members u)
    (hm : m ∈ G.emitted.members v) (ne : u ≠ v) (target : G.emitted.target n = some x)
    (source : x ∈ G.emitted.sources m) :
    (G.tasks worker0Only estimatedCost).DependsOn u v ∨
      (G.tasks worker0Only estimatedCost).DependsOn v u := by
  obtain ⟨su, hsu, nsu, -⟩ := mem_super hn
  obtain ⟨sv, hsv, msv, placeV⟩ := mem_super hm
  have memN := mem_members_of_super hsu nsu
  have memM := mem_members_of_super hsv msv
  have apart : n ≠ m := by
    rintro rfl
    exact ne (Design.members_unique (G := G.design) hn hm)
  have typeM : (G.emitted.node m).type = (G.node m).type := rfl
  rcases source with ⟨tree, htree, p, hp, rfl⟩ | source | ⟨reader, rfl⟩ | ⟨extOut, rfl⟩
  · -- `m` refers to the node `n`
    obtain rfl : n = p := Emitted.eq_of_target target
    have rely : n ∈ G.node.relyNodes m := List.mem_flatMap.mpr ⟨tree, htree, hp⟩
    by_cases src : (G.node m).type = .regSrc
    · refine .inr (dependsOn hm hn ne.symm (.inr ⟨m, memM, src, .inl ⟨rfl, rely⟩⟩))
    · exact .inl (dependsOn hn hm ne (.inl ⟨m, memM, src, .inl ⟨rely, rfl⟩⟩))
  · -- both assign it
    exfalso
    cases x with
    | node k =>
      have hn := Emitted.eq_of_target target
      exact apart (hn.trans (Emitted.eq_of_target source).symm)
    | ext k =>
      have hn := Emitted.eq_of_target target
      exact apart (hn.trans (Emitted.eq_of_target source).symm)
    | mem k =>
      obtain ⟨writerN, parentN⟩ := Emitted.eq_of_target target
      obtain ⟨writerM, parentM⟩ := Emitted.eq_of_target source
      exact ne (one u v n m hn hm writerN writerM (parentN.trans parentM.symm))
  · -- a port that reads the memory that `n` writes
    have writer : (G.node n).type = .writer ∧ (G.node n).parent = (G.node m).parent :=
      Emitted.eq_of_target target
    have plain : (G.node m).type ≠ .regSrc := by
      intro src
      cases (typeM.symm.trans reader).symm.trans src
    have port : n ∈ G.node.ports m := by
      have own := G.port su hsu n nsu (.inr writer.1)
      unfold Reconnect.Nodes.ports at own ⊢
      rwa [← writer.2]
    refine .inr (dependsOn hm hn ne.symm (.inl ⟨m, memM, plain, .inr (.inl ⟨reader, rfl, port, ?_⟩)⟩))
    exact writer.1
  · -- an output of the external module `n`
    exfalso
    have same : n = (G.node m).parent := Emitted.eq_of_target target
    have home := G.extHome sv hsv m msv extOut (same ▸ List.mem_flatMap.mpr ⟨su, hsu, nsu⟩)
    rw [← same] at home
    exact ne (Design.members_unique (G := G.design) hn (Emitted.mem_members.mpr ⟨sv, placeV, home⟩))

/-- **No races**: accesses of different super nodes that meet are ordered by a dependency. -/
theorem raceFree (one : G.OneWriter) (I : Interp Op) :
    (G.tasks worker0Only estimatedCost).RaceFree (G.emitted.code I) := by
  intro u _ v _ ne a ha b hb
  obtain ⟨n, hn, ha⟩ := List.mem_flatMap.mp ha
  obtain ⟨m, hm, hb⟩ := List.mem_flatMap.mp hb
  obtain ⟨targetA, readsA⟩ := Emitted.mem_memberAccesses ha
  obtain ⟨targetB, readsB⟩ := Emitted.mem_memberAccesses hb
  by_cases apart : a.Apart b
  · exact .inl apart
  right
  have meets : a.target ∈ G.emitted.sources m ∨ b.target ∈ G.emitted.sources n := by
    by_contra none
    push Not at none
    refine apart ⟨?_, readsB ▸ none.1, readsA ▸ none.2⟩
    intro same
    exact none.1 (.inr (.inl (same ▸ targetB)))
  rcases meets with meets | meets
  · rcases ordered one hn hm ne targetA meets with dep | dep
    · exact .inl (.single dep)
    · exact .inr (.single dep)
  · rcases ordered one hm hn ne.symm targetB meets with dep | dep
    · exact .inr (.single dep)
    · exact .inl (.single dep)

end Wired

/-! ## Runs -/

/-- `set_` of an input, for the dense executor. -/
def pokeInput (input : ℕ × ℤ) (f : Var → Image) : Var → Image :=
  Function.update f (.node input.1) (Function.update (f (.node input.1)) [] input.2)

/-- Steps, each with the inputs that are set before it, as the dense executor takes them. -/
def turns (steps : List (List (ℕ × ℤ))) : List (MemTurn Var Image) :=
  steps.flatMap fun inputs => inputs.map (fun input => .poke (pokeInput input)) ++ [.cycle]

theorem ofVars_pokeInput (input : ℕ × ℤ) (f : Var → Image) :
    State.ofVars (pokeInput input f) =
      Function.update (State.ofVars f) (.node input.1 []) input.2 := by
  funext y
  by_cases here : y = .node input.1 []
  · subst here
    rw [Function.update_self, State.ofVars, pokeInput]
    simp only [Place.var, Place.index, Function.update_self]
  · rw [Function.update_of_ne here, State.ofVars, State.ofVars, pokeInput]
    by_cases var : y.var = .node input.1
    · have index : y.index ≠ [] := by
        intro index
        cases y with
        | node n place =>
          obtain rfl := Var.node.inj var
          exact here (congrArg _ index)
        | mem | ext => cases var
      rw [var, Function.update_self, Function.update_of_ne index]
    · rw [Function.update_of_ne var]

theorem replay_append_list {Loc V : Type} (cycle : (Loc → V) → Loc → V)
    (history history' : List (MemTurn Loc V)) (m : Loc → V) :
    replay cycle (history ++ history') m = replay cycle history' (replay cycle history m) :=
  List.foldl_append

/-- Cycles with inputs evaluate everything. -/
theorem ofVars_replay {G : Emitted Op} {I : Interp Op} (steps : List (List (ℕ × ℤ)))
    (f : Var → Image) :
    State.ofVars (replay ((G.code I).fullCycle G.superId) (turns steps) f) =
      G.fullRun I steps (State.ofVars f) := by
  have pokes : ∀ (inputs : List (ℕ × ℤ)) (f : Var → Image),
      State.ofVars (replay ((G.code I).fullCycle G.superId)
        (inputs.map fun input => .poke (pokeInput input)) f) =
          Emitted.setAll inputs (State.ofVars f) := by
    intro inputs
    induction inputs with
    | nil => exact fun f => rfl
    | cons input inputs ih =>
      intro f
      refine (ih (pokeInput input f)).trans ?_
      rw [ofVars_pokeInput]
      rfl
  induction steps generalizing f with
  | nil => rfl
  | cons inputs steps ih =>
    show State.ofVars (replay _ ((inputs.map _ ++ [.cycle]) ++ turns steps) f) = _
    rw [replay_append_list, ih, replay_append_list]
    show G.fullRun I steps (State.ofVars ((G.code I).fullCycle G.superId _)) = _
    rw [Emitted.ofVars_fullCycle, pokes]
    rfl

/-- **The two simulators agree**: when the dense executor on its pool has done the given steps, it
holds the values that the activity-driven step has after them. -/
def AgreesWithScan (ρ : Type) (threads : ℕ) (flagJoin : Bool) {W : Type} (P : WorkerProgram W)
    (D : DenseDispatch) (code : DenseCode Var Image) (G : Emitted Op) (I : Interp Op) : Prop :=
  ∀ m₀ (s : DensePool ρ W Var Image), DensePoolReachable threads flagJoin P D code m₀ s →
    s.exec.control.inPool = false → ∀ steps : List (List (ℕ × ℤ)), s.exec.history = turns steps →
      (∀ inputs ∈ steps, ∀ input ∈ inputs, (G.node input.1).type = .inp) →
        ∀ st : Emitted.Scan, st.env = State.ofVars m₀ →
          (∀ c < G.superId, FlagBytes.flag st.activeFlags c = true) →
            State.ofVars s.exec.mem = (G.scanRun I steps st).env

namespace Wired

variable {G : Wired Op}

/-- From all super nodes active on, the scan evaluates everything. -/
theorem scanRun_eq (one : G.OneWriter) (I : Interp Op) {st : Emitted.Scan}
    (active : ∀ c < G.emitted.superId, FlagBytes.flag st.activeFlags c = true)
    {steps : List (List (ℕ × ℤ))}
    (inp : ∀ inputs ∈ steps, ∀ input ∈ inputs, (G.emitted.node input.1).type = .inp) :
    (G.emitted.scanRun I steps st).env = G.emitted.fullRun I steps st.env := by
  have settled : G.design.Settled I st :=
    ChangeDriven.Blocks.Settled.of_pending fun c hc => .inr (active c (List.mem_range.mp hc))
  have apart := Design.apartRun_of_writesApart
    (Design.writesApart_of_oneWriter (G := G.design) (I := I) one) steps st.env
  exact (settled.run inp apart).1

theorem agrees {ρ W : Type} {threads : ℕ} {flagJoin : Bool} {P : WorkerProgram W}
    {D : DenseDispatch} {code : DenseCode Var Image} (one : G.OneWriter) (I : Interp Op)
    (runs : PoolRunsSerially ρ threads flagJoin P D code
      ((G.emitted.code I).fullCycle G.emitted.superId)) :
    AgreesWithScan ρ threads flagJoin P D code G.emitted I := by
  intro m₀ s reach idle steps history inp st start active
  rw [runs.memory m₀ s reach idle, history, ofVars_replay, scanRun_eq one I active inp, start]

end Wired

/-- For every setting of the scheduler, every assignment of the MTasks, pools of any size, both
joins and both protocols. -/
theorem dense_eq_scan (G : Wired Op) (I : Interp Op) (one : G.OneWriter) (worker0Only : ℕ → Bool)
    (estimatedCost : ℕ → ℤ) (k : DenseKnobs) (ρ : Type) (threads : ℕ) (flagJoin : Bool) :
    ∃ sched, buildMtDenseSchedule (G.tasks worker0Only estimatedCost) k = some sched ∧
      ∀ threadCount, ∀ A : Assignment sched.mtasks.length threadCount,
        (∃ layout, mtBuildDenseOwnerReadyLayout (strictRuntimeSuccs sched.mtasks A.owners) A.owners
            threadCount = some layout ∧
          AgreesWithScan ρ threads flagJoin strictProgram
            (strictDispatch layout A.owners threadCount) (sched.code (G.emitted.code I)) G.emitted I) ∧
        ∀ window, ∃ D, lookaheadDispatch sched.mtasks A.owners threadCount = some D ∧
          AgreesWithScan ρ threads flagJoin (lookaheadProgram window) D
            (sched.code (G.emitted.code I)) G.emitted I := by
  obtain ⟨sched, dag, built, holds⟩ := (G.tasks worker0Only estimatedCost).exists_schedule k
  have race : (G.tasks worker0Only estimatedCost).RaceFree (G.emitted.code I) := Wired.raceFree one I
  refine ⟨sched, built, fun threadCount A => ⟨?_, fun window => ?_⟩⟩
  · obtain ⟨layout, layoutBuilt, runs⟩ := holds.strict_on_pool race A ρ threads flagJoin
    exact ⟨layout, layoutBuilt, Wired.agrees one I runs⟩
  · obtain ⟨D, dispatch, runs⟩ := holds.lookahead_on_pool race A ρ threads flagJoin window
    exact ⟨D, dispatch, Wired.agrees one I runs⟩

/-! ## The counter again -/

def counterGraph : Graph Unit where
  node n :=
    let node := counterNode n
    ⟨node.type, node.assignTree, false, none, none, node.parent, node.member⟩
  isArray _ := false
  src _ := 1
  cppId2Super := [⟨false, [1]⟩, ⟨false, [4, 6]⟩, ⟨false, [2, 5]⟩]
  others := [0]
  stale := ⟨fun _ => [], fun _ => [], fun _ => [], fun _ => []⟩

/-- The register is copied first, its next value and the write to the memory come last. -/
def counterWired : Wired Unit where
  toGraph := counterGraph
  nodup := by decide
  update := by decide
  noReset := by decide
  port := by decide
  extmod := by decide
  extHome := by decide
  noReadwriter := by decide
  forward := by decide

/-- Nothing but node 5 writes the memory. -/
theorem counterWired_oneWriter : counterWired.OneWriter := by
  have only : ∀ c < 3, ∀ w ∈ counterWired.emitted.members c,
      (counterWired.node w).type = .writer → w = 5 := by decide
  intro c d w w' hw hw' writer writer' _
  obtain rfl := only c (Emitted.lt_of_mem_members hw) w hw writer
  obtain rfl := only d (Emitted.lt_of_mem_members hw') w' hw' writer'
  exact Design.members_unique (G := counterWired.design) hw hw'

/-- Two threads, three background workers and the flag join. -/
theorem dense_eq_scan_counter :
    ∃ sched, buildMtDenseSchedule (counterWired.tasks (fun _ => false) fun _ => 1) pinnedKnobs = some sched ∧
      ∃ A : Assignment sched.mtasks.length 2, A.owners = sched.mtaskThreadAssign ∧
        (∃ layout, mtBuildDenseOwnerReadyLayout (strictRuntimeSuccs sched.mtasks A.owners) A.owners
            2 = some layout ∧
          AgreesWithScan Unit 3 true strictProgram (strictDispatch layout A.owners 2)
            (sched.code (counterWired.emitted.code adding)) counterWired.emitted adding) ∧
        ∀ window, ∃ D, lookaheadDispatch sched.mtasks A.owners 2 = some D ∧
          AgreesWithScan Unit 3 true (lookaheadProgram window) D
            (sched.code (counterWired.emitted.code adding)) counterWired.emitted adding := by
  obtain ⟨sched, built, runs⟩ := dense_eq_scan counterWired adding counterWired_oneWriter
    (fun _ => false) (fun _ => 1) pinnedKnobs Unit 3 true
  obtain ⟨A, owners⟩ := (counterWired.tasks (fun _ => false) fun _ => 1).exists_assignment pinnedKnobs built
  exact ⟨sched, built, A, owners, runs 2 A⟩

end Gsim.ActivityScan
