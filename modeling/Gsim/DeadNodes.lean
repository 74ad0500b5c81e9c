/-
  Gsim/DeadNodes.lean
  ===================
  **Dead-node removal** (`deadNodes.cpp`).

  What the outputs, the special nodes and the external modules rely on is kept.
  Through a memory this is followed from a read port to the ports that write it; from
  a read-write port, which reads the memory too, it is not.  So the design that is
  left is as good as the original one exactly when no memory that is read by such a
  port only loses a port that writes it (`removeDeadNodes_unobservable_iff`).

  A cycle executes the members in order and then updates the registers.  What the
  operators, the accesses to a memory and the external modules compute is left open.
-/
import Gsim.ExpTree
import Gsim.Worklist

namespace Gsim.DeadNodes

open ExpTree Relation

variable {Op : Type}

/-! ## Designs -/

structure Node (Op : Type) where
  type : NodeType
  prev : List Nat
  assignTree : List (ETree Op)
  resetTree : Option (ETree Op)
  /-- `getDst` of a register -/
  dst : Nat
  /-- the memory of a port, the external module of one of its signals -/
  parent : Nat
  /-- the ports of a memory, the signals of an external module -/
  member : List Nat

def canWrite (type : NodeType) : Bool := type = .writer ∨ type = .readwriter

def canRead (type : NodeType) : Bool := type = .reader ∨ type = .readwriter

/-- What the traversal adds for a node. -/
def rely (node : Nat → Node Op) (n : Nat) : List Nat :=
  (node n).prev ++
    match (node n).type with
    | .regSrc => (node n).dst :: (node n).resetTree.elim [] ETree.refs
    | .reader => (node (node n).parent).member.filter fun port => canWrite (node port).type
    | .extOut => (node (node n).parent).member
    | _ => []

/-- The members of `sortedSuper` in order. -/
structure Design (Op : Type) where
  order : List Nat
  node : Nat → Node Op
  output : List Nat
  specialNodes : List Nat
  /-- `updateConnect`; the tree of a register reads its destination -/
  refs : ∀ n, ∀ tree ∈ (node n).assignTree, ∀ m ∈ tree.refs, m ∈ rely node n
  rely_order : ∀ n ∈ order, ∀ m ∈ rely node n, m ∈ order
  output_order : ∀ n ∈ output, n ∈ order
  special_order : ∀ n ∈ specialNodes, n ∈ order
  output_type : ∀ n ∈ order, (node n).type = .out → n ∈ output
  special_type : ∀ n ∈ order, (node n).type = .special → n ∈ specialNodes
  /-- a memory and its ports know each other -/
  port : ∀ n ∈ order, canWrite (node n).type ∨ canRead (node n).type →
    n ∈ (node (node n).parent).member ∧
      ∀ m ∈ (node (node n).parent).member, m ∈ order ∧ (node m).parent = (node n).parent

/-! ## The pass -/

def isExt (type : NodeType) : Bool := type = .ext ∨ type = .extIn ∨ type = .extOut

def roots (G : Design Op) : List Nat :=
  G.output ++ G.specialNodes ++ G.order.filter fun n => isExt (G.node n).type

def visited (G : Design Op) : List Nat := Worklist.closure (rely G.node) G.order.length (roots G)

/-- The members that are not marked dead. -/
def removeDeadNodes (G : Design Op) : List Nat :=
  G.order.filter fun n => (G.node n).type = .inp ∨ (G.node n).type = .out ∨ n ∈ visited G

/-! ## Cycles -/

structure State (M X : Type) where
  val : Nat → List Int → Int
  mem : Nat → M
  ext : Nat → X

abbrev TreeValue := Option Value × List (Option Value)

/-- What the design computes with; trees of a port see its memory. -/
structure Interp (Op M X : Type) where
  sem : Option M → Semantics Op
  store : Nat → (List Int → Int) → List TreeValue → List Int → Int
  read : Nat → M → (List Int → Int) → (M → List TreeValue) → List Int → Int
  write : Nat → M → (List Int → Int) → (M → List TreeValue) → M
  extStep : Nat → X → List TreeValue → X
  extOut : Nat → X → List TreeValue → List Int → Int
  regNext : Nat → (List Int → Int) → List TreeValue → Option TreeValue → List Int → Int

section Cycles

variable {M X : Type} (I : Interp Op M X) (node : Nat → Node Op)

def treeValues (val : Nat → List Int → Int) (m : Option M) (n : Nat) : List TreeValue :=
  (node n).assignTree.map (ETree.eval (I.sem m) val)

/-- The execution of one member. -/
def step (inputs : Nat → List Int → Int) (s : State M X) (n : Nat) : State M X :=
  let memory := (node n).parent
  let trees := fun m => treeValues I node s.val (some m) n
  match (node n).type with
  | .inp => { s with val := Function.update s.val n (inputs n) }
  | .regSrc => s
  | .reader =>
    { s with val := Function.update s.val n (I.read n (s.mem memory) (s.val n) trees) }
  | .writer =>
    { s with mem := Function.update s.mem memory (I.write n (s.mem memory) (s.val n) trees) }
  | .readwriter =>
    { s with
      val := Function.update s.val n (I.read n (s.mem memory) (s.val n) trees)
      mem := Function.update s.mem memory (I.write n (s.mem memory) (s.val n) trees) }
  | .ext =>
    { s with
      ext := Function.update s.ext n (I.extStep n (s.ext n) (treeValues I node s.val none n)) }
  | .extOut =>
    { s with
      val := Function.update s.val n
        (I.extOut n (s.ext memory) (treeValues I node s.val none n)) }
  | _ =>
    { s with val := Function.update s.val n (I.store n (s.val n) (treeValues I node s.val none n)) }

/-- All members in order. -/
def pass (order : List Nat) (inputs : Nat → List Int → Int) (s : State M X) : State M X :=
  order.foldl (step I node inputs) s

/-- The registers take their next values. -/
def updateRegs (order : List Nat) (s : State M X) : State M X :=
  { s with
    val := fun n =>
      if n ∈ order ∧ (node n).type = .regSrc then
        I.regNext n (s.val n) (treeValues I node s.val none n)
          ((node n).resetTree.map (ETree.eval (I.sem none) s.val))
      else s.val n }

/-- The state at the start of each cycle. -/
def stateAt (order : List Nat) (inputs : Nat → Nat → List Int → Int) (s : State M X) :
    Nat → State M X
  | 0 => s
  | t + 1 => updateRegs I node order (pass I node order (inputs t) (stateAt order inputs s t))

/-- The value of a member in each cycle. -/
def valueAt (order : List Nat) (inputs : Nat → Nat → List Int → Int) (s : State M X) (t n : Nat) :
    List Int → Int :=
  (pass I node order (inputs t) (stateAt I node order inputs s t)).val n

end Cycles

/-! ## What the pass should do -/

/-- What is printed or asserted, the outputs, and the inputs of the external modules. -/
def isObserved (type : NodeType) : Bool := type = .out ∨ type = .special ∨ type = .extIn

def Unobservable (G : Design Op) : Prop :=
  ∀ (M X : Type) (I : Interp Op M X) (inputs : Nat → Nat → List Int → Int) (s : State M X) (t : Nat),
    ∀ n ∈ G.order, isObserved (G.node n).type →
      valueAt I G.node (removeDeadNodes G) inputs s t n = valueAt I G.node G.order inputs s t n

/-- The ports that write a memory which a kept port reads are kept, with what they depend on. -/
def KeepsWriters (G : Design Op) : Prop :=
  ∀ n ∈ removeDeadNodes G, canRead (G.node n).type →
    ∀ port ∈ (G.node (G.node n).parent).member, canWrite (G.node port).type →
      ∀ m, ReflTransGen (fun a b => b ∈ rely G.node a) port m → m ∈ removeDeadNodes G

/-- An output, a special node or an external module relies on the node. -/
def Needed (G : Design Op) (n : Nat) : Prop :=
  ∃ r ∈ roots G, ReflTransGen (fun a b => b ∈ rely G.node a) r n

/-- A memory that a needed read-write port reads has a needed read port too, or no port that
writes it is not needed. -/
def ReadWritersCovered (G : Design Op) : Prop :=
  ∀ n ∈ G.order, (G.node n).type = .readwriter → Needed G n →
    (∃ port ∈ (G.node (G.node n).parent).member, (G.node port).type = .reader ∧ Needed G port) ∨
    ∀ port ∈ (G.node (G.node n).parent).member, canWrite (G.node port).type → Needed G port

/-! ## What is kept -/

section Kept

variable {G : Design Op}

theorem mem_roots {n : Nat} : n ∈ roots G ↔
    n ∈ G.output ∨ n ∈ G.specialNodes ∨ n ∈ G.order ∧ isExt (G.node n).type := by
  simp [roots, List.mem_filter]

theorem mem_visited {n : Nat} : n ∈ visited G ↔ Needed G n := by
  refine Worklist.mem_closure_iff G.order.toFinset ?_ ?_ (List.toFinset_card_le _) n
  · intro r hr
    rw [List.mem_toFinset]
    rcases mem_roots.mp hr with h | h | h
    · exact G.output_order r h
    · exact G.special_order r h
    · exact h.1
  · intro a ha b hb
    rw [List.mem_toFinset] at ha ⊢
    exact G.rely_order a ha b hb

theorem Needed.rely {a b : Nat} (h : Needed G a) (hb : b ∈ DeadNodes.rely G.node a) :
    Needed G b := by
  obtain ⟨r, hr, path⟩ := h
  exact ⟨r, hr, path.tail hb⟩

theorem Needed.root {n : Nat} (h : n ∈ roots G) : Needed G n := ⟨n, h, .refl⟩

theorem Needed.mem_order {n : Nat} (h : Needed G n) : n ∈ G.order := by
  obtain ⟨r, hr, path⟩ := h
  induction path with
  | refl =>
    rcases mem_roots.mp hr with h | h | h
    · exact G.output_order r h
    · exact G.special_order r h
    · exact h.1
  | tail _ edge ih => exact G.rely_order _ ih _ edge

theorem mem_removeDeadNodes {n : Nat} : n ∈ removeDeadNodes G ↔
    n ∈ G.order ∧ ((G.node n).type = .inp ∨ (G.node n).type = .out ∨ Needed G n) := by
  unfold removeDeadNodes
  rw [List.mem_filter, decide_eq_true_eq, mem_visited]

theorem Needed.kept {n : Nat} (h : Needed G n) : n ∈ removeDeadNodes G :=
  mem_removeDeadNodes.mpr ⟨h.mem_order, .inr (.inr h)⟩

/-- All that is kept is needed, but for inputs that nothing reads. -/
theorem needed_of_kept {n : Nat} (h : n ∈ removeDeadNodes G) (ninp : (G.node n).type ≠ .inp) :
    Needed G n := by
  obtain ⟨hn, inp | out | needed⟩ := mem_removeDeadNodes.mp h
  · exact absurd inp ninp
  · exact .root (mem_roots.mpr (.inl (G.output_type n hn out)))
  · exact needed

theorem needed_of_observed {n : Nat} (hn : n ∈ G.order) (h : isObserved (G.node n).type) :
    Needed G n := by
  refine .root (mem_roots.mpr ?_)
  simp only [isObserved, decide_eq_true_eq] at h
  rcases h with out | special | ext
  · exact .inl (G.output_type n hn out)
  · exact .inr (.inl (G.special_type n hn special))
  · exact .inr (.inr ⟨hn, by simp [isExt, ext]⟩)

theorem canRead_iff {type : NodeType} : canRead type = true ↔ type = .reader ∨ type = .readwriter := by
  simp [canRead]

/-- A needed read port needs the ports that write its memory. -/
theorem Needed.writers {n port : Nat} (h : Needed G n) (reader : (G.node n).type = .reader)
    (mem : port ∈ (G.node (G.node n).parent).member) (writes : canWrite (G.node port).type) :
    Needed G port := by
  refine h.rely ?_
  unfold DeadNodes.rely
  rw [reader]
  exact List.mem_append_right _ (List.mem_filter.mpr ⟨mem, writes⟩)

theorem writers_needed (covered : ReadWritersCovered G) {n port : Nat} (h : Needed G n)
    (reads : canRead (G.node n).type) (mem : port ∈ (G.node (G.node n).parent).member)
    (writes : canWrite (G.node port).type) : Needed G port := by
  rcases canRead_iff.mp reads with reader | readwriter
  · exact h.writers reader mem writes
  · rcases covered n h.mem_order readwriter h with ⟨r, hr, reader, needed⟩ | all
    · refine needed.writers reader ?_ writes
      rw [((G.port n h.mem_order (.inr reads)).2 r hr).2]
      exact mem
    · exact all port mem writes

theorem keepsWriters_iff : KeepsWriters G ↔ ReadWritersCovered G := by
  constructor
  · intro keeps n hn readwriter needed
    refine .inr fun port mem writes => ?_
    have kept := keeps n needed.kept (canRead_iff.mpr (.inr readwriter)) port mem writes port .refl
    refine needed_of_kept kept fun inp => ?_
    rw [inp] at writes
    cases writes
  · intro covered n hn reads port mem writes m path
    have ninp : (G.node n).type ≠ .inp := by
      intro inp
      rw [inp] at reads
      cases reads
    have needed := writers_needed covered (needed_of_kept hn ninp) reads mem writes
    obtain ⟨r, hr, start⟩ := needed
    exact Needed.kept ⟨r, hr, start.trans path⟩

end Kept

/-! ## Simulation -/

section Simulation

variable {G : Design Op} {M X : Type} {I : Interp Op M X}

/-- A needed port reads the memory. -/
def IsRead (G : Design Op) (memory : Nat) : Prop :=
  ∃ n, Needed G n ∧ canRead (G.node n).type ∧ (G.node n).parent = memory

/-- The two designs agree on what is kept and on the memories that are read. -/
structure Agree (G : Design Op) (s s' : State M X) : Prop where
  val : ∀ n ∈ removeDeadNodes G, s'.val n = s.val n
  mem : ∀ memory, IsRead G memory → s'.mem memory = s.mem memory
  ext : s'.ext = s.ext

theorem Agree.treeValues {s s' : State M X} (agree : Agree G s s') {n : Nat} (h : Needed G n)
    (m : Option M) : treeValues I G.node s'.val m n = treeValues I G.node s.val m n := by
  refine List.map_congr_left fun tree htree => tree.eval_congr fun a ha => ?_
  exact agree.val a (h.rely (G.refs n tree htree a ha)).kept

theorem Agree.update_val {s s' : State M X} (agree : Agree G s s') (n : Nat)
    {v v' : List Int → Int} (eq : v' = v) :
    Agree G { s with val := Function.update s.val n v }
      { s' with val := Function.update s'.val n v' } := by
  refine ⟨fun a ha => ?_, agree.mem, agree.ext⟩
  subst eq
  dsimp only
  by_cases same : a = n
  · rw [same, Function.update_self, Function.update_self]
  · rw [Function.update_of_ne same, Function.update_of_ne same, agree.val a ha]

theorem Agree.update_mem {s s' : State M X} (agree : Agree G s s') (memory : Nat) {v v' : M}
    (eq : IsRead G memory → v' = v) :
    Agree G { s with mem := Function.update s.mem memory v }
      { s' with mem := Function.update s'.mem memory v' } := by
  refine ⟨agree.val, fun a ha => ?_, agree.ext⟩
  dsimp only
  by_cases same : a = memory
  · rw [same, Function.update_self, Function.update_self, eq (same ▸ ha)]
  · rw [Function.update_of_ne same, Function.update_of_ne same, agree.mem a ha]

/-- A member that is kept. -/
theorem Agree.step_kept {s s' : State M X} (agree : Agree G s s')
    (inputs : Nat → List Int → Int) {n : Nat} (hn : n ∈ removeDeadNodes G) :
    Agree G (step I G.node inputs s n) (step I G.node inputs s' n) := by
  have old : s'.val n = s.val n := agree.val n hn
  have trees : (G.node n).type ≠ .inp → ∀ m,
      DeadNodes.treeValues I G.node s'.val m n = DeadNodes.treeValues I G.node s.val m n :=
    fun ninp m => agree.treeValues (needed_of_kept hn ninp) m
  have read : canRead (G.node n).type → s'.mem (G.node n).parent = s.mem (G.node n).parent := by
    intro reads
    refine agree.mem _ ⟨n, needed_of_kept hn fun inp => ?_, reads, rfl⟩
    rw [inp] at reads
    cases reads
  unfold step
  cases type : (G.node n).type with
  | inp => exact agree.update_val n rfl
  | regSrc => exact agree
  | reader =>
    refine agree.update_val n ?_
    rw [read (by rw [type]; rfl), old]
    simp only [trees (by rw [type]; exact NodeType.noConfusion)]
  | writer =>
    refine agree.update_mem _ fun isRead => ?_
    rw [agree.mem _ isRead, old]
    simp only [trees (by rw [type]; exact NodeType.noConfusion)]
  | readwriter =>
    have mem := read (by rw [type]; rfl)
    have eq : ∀ m, DeadNodes.treeValues I G.node s'.val m n =
      DeadNodes.treeValues I G.node s.val m n := trees (by rw [type]; exact NodeType.noConfusion)
    refine Agree.update_mem (agree.update_val n ?_) _ fun _ => ?_
    · rw [mem, old]
      simp only [eq]
    · rw [mem, old]
      simp only [eq]
  | ext =>
    refine ⟨agree.val, agree.mem, ?_⟩
    dsimp only
    rw [agree.ext, trees (by rw [type]; exact NodeType.noConfusion)]
  | extOut =>
    refine agree.update_val n ?_
    rw [agree.ext, trees (by rw [type]; exact NodeType.noConfusion)]
  | regDst | special | out | memory | infer | others | regReset | extIn =>
    refine agree.update_val n ?_
    rw [old, trees (by rw [type]; exact NodeType.noConfusion)]

/-- A member that is dropped writes no memory that is read. -/
theorem Agree.step_dropped (covered : ReadWritersCovered G) {s s' : State M X}
    (agree : Agree G s s') (inputs : Nat → List Int → Int) {n : Nat} (hn : n ∈ G.order)
    (dropped : n ∉ removeDeadNodes G) : Agree G (step I G.node inputs s n) s' := by
  have unread : canWrite (G.node n).type → ¬ IsRead G (G.node n).parent := by
    rintro writes ⟨m, needed, reads, parent⟩
    refine dropped (writers_needed covered needed reads ?_ writes).kept
    rw [parent]
    exact (G.port n hn (.inl writes)).1
  have val : ∀ v, Agree G { s with val := Function.update s.val n v } s' := by
    intro v
    refine ⟨fun a ha => ?_, agree.mem, agree.ext⟩
    have ne : a ≠ n := fun eq => dropped (eq ▸ ha)
    dsimp only
    rw [Function.update_of_ne ne, agree.val a ha]
  have mem : canWrite (G.node n).type → ∀ {s : State M X}, Agree G s s' → ∀ v,
      Agree G { s with mem := Function.update s.mem (G.node n).parent v } s' := by
    intro writes s agree v
    refine ⟨agree.val, fun memory isRead => ?_, agree.ext⟩
    have ne : memory ≠ (G.node n).parent := fun eq => unread writes (eq ▸ isRead)
    dsimp only
    rw [Function.update_of_ne ne, agree.mem memory isRead]
  unfold step
  cases type : (G.node n).type with
  | regSrc => exact agree
  | writer => exact mem (by rw [type]; rfl) agree _
  | readwriter => exact mem (by rw [type]; rfl) (val _) _
  | ext =>
    refine absurd (Needed.kept (.root (mem_roots.mpr (.inr (.inr ⟨hn, ?_⟩))))) dropped
    rw [type]
    rfl
  | inp | reader | extOut | regDst | special | out | memory | infer | others | regReset | extIn =>
    exact val _

theorem Agree.pass (covered : ReadWritersCovered G) (inputs : Nat → List Int → Int)
    (ns : List Nat) : ∀ {s s' : State M X}, (∀ n ∈ ns, n ∈ G.order) → Agree G s s' →
    Agree G (pass I G.node ns inputs s)
      (pass I G.node (ns.filter fun n => n ∈ removeDeadNodes G) inputs s') := by
  induction ns with
  | nil =>
    intro s s' _ agree
    exact agree
  | cons n ns ih =>
    intro s s' sub agree
    have hn := sub n List.mem_cons_self
    have rest : ∀ m ∈ ns, m ∈ G.order := fun m hm => sub m (List.mem_cons_of_mem _ hm)
    by_cases kept : n ∈ removeDeadNodes G
    · rw [List.filter_cons_of_pos (by simpa using kept)]
      exact ih rest (agree.step_kept inputs kept)
    · rw [List.filter_cons_of_neg (by simpa using kept)]
      exact ih rest (agree.step_dropped covered inputs hn kept)

theorem Agree.updateRegs {s s' : State M X} (agree : Agree G s s') :
    Agree G (updateRegs I G.node G.order s) (updateRegs I G.node (removeDeadNodes G) s') := by
  refine ⟨fun n hn => ?_, agree.mem, agree.ext⟩
  unfold DeadNodes.updateRegs
  dsimp only
  by_cases reg : (G.node n).type = .regSrc
  · have needed := needed_of_kept hn (by rw [reg]; exact NodeType.noConfusion)
    rw [if_pos ⟨hn, reg⟩, if_pos ⟨(mem_removeDeadNodes.mp hn).1, reg⟩, agree.val n hn,
      agree.treeValues needed]
    congr 1
    cases hreset : (G.node n).resetTree with
    | none => rfl
    | some tree =>
      refine congrArg some (tree.eval_congr fun a ha => agree.val a (needed.rely ?_).kept)
      unfold DeadNodes.rely
      rw [reg, hreset]
      exact List.mem_append_right _ (List.mem_cons_of_mem _ ha)
  · rw [if_neg fun h => reg h.2, if_neg fun h => reg h.2]
    exact agree.val n hn

theorem filter_kept : (G.order.filter fun n => n ∈ removeDeadNodes G) = removeDeadNodes G := by
  unfold removeDeadNodes
  refine List.filter_congr fun n hn => ?_
  simp [hn]

/-- Both designs from the same state. -/
theorem agree_stateAt (covered : ReadWritersCovered G) (inputs : Nat → Nat → List Int → Int)
    (s : State M X) (t : Nat) :
    Agree G (stateAt I G.node G.order inputs s t)
      (stateAt I G.node (removeDeadNodes G) inputs s t) := by
  induction t with
  | zero => exact ⟨fun _ _ => rfl, fun _ _ => rfl, rfl⟩
  | succ t ih =>
    have pass := Agree.pass (I := I) covered (inputs t) G.order (fun _ h => h) ih
    rw [filter_kept] at pass
    exact pass.updateRegs

theorem unobservable_of_covered (covered : ReadWritersCovered G) : Unobservable G := by
  intro M X I inputs s t n hn observed
  have pass := Agree.pass (I := I) covered (inputs t) G.order (fun _ h => h)
    (agree_stateAt (I := I) covered inputs s t)
  rw [filter_kept] at pass
  exact pass.val n (needed_of_observed hn observed).kept

end Simulation

/-- The design that is left behaves as the original one, and every memory that is read keeps its
writers, exactly when each memory that a needed read-write port reads is covered. -/
theorem removeDeadNodes_unobservable_iff (G : Design Op) :
    Unobservable G ∧ KeepsWriters G ↔ ReadWritersCovered G := by
  constructor
  · rintro ⟨-, keeps⟩
    exact keepsWriters_iff.mp keeps
  · intro covered
    exact ⟨unobservable_of_covered covered, keepsWriters_iff.mpr covered⟩

/-- A memory 0 with a read-write port 1, which the output 3 shows, and a write port 2, which
stores the input 4. -/
def sharedNode : Nat → Node Unit
  | 0 => ⟨.memory, [], [], none, 0, 0, [1, 2]⟩
  | 1 => ⟨.readwriter, [], [], none, 0, 0, []⟩
  | 2 => ⟨.writer, [4], [⟨.ref 4 8 false [], none⟩], none, 0, 0, []⟩
  | 3 => ⟨.out, [1], [⟨.ref 1 8 false [], none⟩], none, 0, 0, []⟩
  | 4 => ⟨.inp, [], [], none, 0, 0, []⟩
  | _ => ⟨.others, [], [], none, 0, 0, []⟩

def sharedDesign : Design Unit where
  order := [4, 1, 2, 3]
  node := sharedNode
  output := [3]
  specialNodes := []
  refs n tree htree m hm := by
    unfold sharedNode at htree
    split at htree <;> simp_all [ETree.refs, ENode.refs, refsList, rely, sharedNode]
  rely_order := by decide
  output_order := by decide
  special_order := by decide
  output_type := by decide
  special_type := by decide
  port := by decide

/-- Values are numbers, and the write port stores what its tree evaluates to. -/
def sharedInterp : Interp Unit Int Unit where
  sem _ _ _ _ _ _ := 0
  store _ _ trees := (trees.head?.bind Prod.fst).elim (fun _ => 0) Value.val
  read _ memory _ _ _ := memory
  write n memory _ trees :=
    if n = 2 then ((trees memory).head?.bind Prod.fst).elim 0 fun v => v.val [] else memory
  extStep _ x _ := x
  extOut _ _ _ _ := 0
  regNext _ v _ _ := v

/-- The write port is dropped, and the output stays zero. -/
theorem readwriter_loses_writer : ¬ (Unobservable sharedDesign ∧ KeepsWriters sharedDesign) := by
  rintro ⟨same, -⟩
  have value := congrFun (same Int Unit sharedInterp (fun _ _ _ => 5) ⟨fun _ _ => 0, fun _ => 0,
    fun _ => ()⟩ 1 3 (by decide) (by decide)) []
  revert value
  decide

end Gsim.DeadNodes
