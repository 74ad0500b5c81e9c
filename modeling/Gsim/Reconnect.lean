/-
  Gsim/Reconnect.lean
  ===================
  **The edges between nodes** (`graph::reconnectAll` in `graph.cpp`, `updateConnect` and
  `updateDep` of `Node.cpp`).

  `reconnectAll` forgets the relation sets of all members and computes them from the
  trees.  A node comes after the nodes that its trees refer to, and a read port before
  the write ports of its memory.  The source of a register is the exception: its tree
  copies what its destination got in the step before, so it comes *before* the nodes
  that it refers to, by an edge that constrains the order only.  The signal of an
  asynchronous reset comes after the source and before all its readers.

  Whatever the sets held before, afterwards they hold these edges, each at both ends
  (`reconnectAll_shows`).
-/
import Gsim.ExpTree
import Gsim.SuperLinks

namespace Gsim.Reconnect

open ExpTree SuperLinks

variable {Op : Type}

structure Node (Op : Type) where
  type : NodeType
  assignTree : List (ETree Op)
  /-- `reset == ASYRESET` -/
  asyncReset : Bool
  /-- the condition and the value of `resetTree` -/
  resetTree : Option (ENode Op × ENode Op)
  /-- `getDst` of the source of a register -/
  dst : Option ℕ
  /-- the memory of a port -/
  parent : ℕ
  /-- the ports of a memory -/
  member : List ℕ

abbrev Nodes (Op : Type) := ℕ → Node Op

namespace Nodes

variable (G : Nodes Op)

/-- The nodes that the assignments of a node refer to, by their roots or by the indices of their
lvalues.  They go into sets, so the order in which they are found does not matter. -/
def relyNodes (n : ℕ) : List ℕ := (G n).assignTree.flatMap ETree.refs

def ports (n : ℕ) : List ℕ := (G (G n).parent).member

def updateConnect (L : Links ℕ) (n : ℕ) : Links ℕ :=
  if (G n).type = .regSrc then L
  else
    let L := (G.relyNodes n).foldl (fun L prevNode => L.connectPrev n prevNode) L
    match (G n).type with
    | .reader =>
      (G.ports n).foldl (fun L port =>
        if (G port).type = .writer then L.connectNext n port else L) L
    | .writer =>
      (G.ports n).foldl (fun L port =>
        if (G port).type = .reader then L.connectPrev n port else L) L
    | _ => L

/-- The nodes of the condition of an asynchronous reset. -/
def asyncNodes (n : ℕ) : List ℕ :=
  if (G n).asyncReset then (G n).resetTree.elim [] fun tree => tree.1.refs else []

def resetValNodes (n : ℕ) : List ℕ := (G n).resetTree.elim [] fun tree => tree.2.refs

/-- The round of `updateDep` for a node `c` of the condition of an asynchronous reset. -/
def updateAsync (n : ℕ) (L : Links ℕ) (c : ℕ) : Links ℕ :=
  let L := L.connectDepNext n c
  let L := (L.next n).foldl (fun L srcNext => L.connectDepPrev srcNext c) L
  (G n).dst.elim L fun dst => L.connectDepPrev dst c

def updateDep (L : Links ℕ) (n : ℕ) : Links ℕ :=
  let L := (G.relyNodes n).foldl (fun L prevNode => L.connectDepNext n prevNode) L
  let L := (G.asyncNodes n).foldl (G.updateAsync n) L
  (G.resetValNodes n).foldl (fun L v =>
    if (G v).type = .regSrc then L.connectDepNext n v else L.connectDepPrev n v) L

/-- `reconnectAll` up to the edges of the super nodes, for the members of `sortedSuper`. -/
def reconnectAll (members : List ℕ) (L : Links ℕ) : Links ℕ :=
  let L := members.foldl (fun L n => L.clearRelation n) L
  let L := members.foldl G.updateConnect L
  members.foldl (fun L n => if (G n).type = .regSrc then G.updateDep L n else L) L

/-! ## The edges -/

/-- The edges that `updateConnect` of `n` adds. -/
def EdgeAt (n p x : ℕ) : Prop :=
  (G n).type ≠ .regSrc ∧
    ((p ∈ G.relyNodes n ∧ x = n) ∨
      ((G n).type = .reader ∧ p = n ∧ x ∈ G.ports n ∧ (G x).type = .writer) ∨
        ((G n).type = .writer ∧ x = n ∧ p ∈ G.ports n ∧ (G p).type = .reader))

/-- A value goes from `p` to `x`. -/
def Edge (members : List ℕ) (p x : ℕ) : Prop := ∃ n ∈ members, G.EdgeAt n p x

/-- What `updateDep` of `n` adds, when the values of `n` go to `next`. -/
def DepAt (next : ℕ → Prop) (n p x : ℕ) : Prop :=
  (p = n ∧ x ∈ G.relyNodes n) ∨
    (∃ c ∈ G.asyncNodes n, (p = n ∧ x = c) ∨ (p = c ∧ (next x ∨ (G n).dst = some x))) ∨
      ∃ v ∈ G.resetValNodes n,
        ((G v).type = .regSrc ∧ p = n ∧ x = v) ∨ ((G v).type ≠ .regSrc ∧ p = v ∧ x = n)

/-- `p` has to come before `x`. -/
def Dep (members : List ℕ) (p x : ℕ) : Prop :=
  G.Edge members p x ∨
    ∃ n ∈ members, (G n).type = .regSrc ∧ G.DepAt (G.Edge members n) n p x

end Nodes

/-! ## What the passes add -/

variable {G : Nodes Op}

/-- A loop that connects some of the nodes. -/
theorem foldl_if_adds {step : Links ℕ → ℕ → Links ℕ} {E D : ℕ → ℕ → ℕ → Prop} {c : ℕ → Prop}
    [DecidablePred c] (l : List ℕ) (h : ∀ n L, Links.Adds (E n) (D n) L (step L n)) (L : Links ℕ) :
    Links.Adds (fun p x => ∃ n ∈ l, c n ∧ E n p x) (fun p x => ∃ n ∈ l, c n ∧ D n p x) L
      (l.foldl (fun L n => if c n then step L n else L) L) := by
  refine Links.Adds.foldl l ?_ L
  intro n _ L
  by_cases hc : c n
  · rw [if_pos hc]
    exact (h n L).congr (fun p x => by simp [hc]) fun p x => by simp [hc]
  · rw [if_neg hc]
    exact Links.Adds.refl (fun _ _ h => hc h.1) (fun _ _ h => hc h.1) L

theorem updateConnect_adds (n : ℕ) (L : Links ℕ) :
    Links.Adds (G.EdgeAt n) (G.EdgeAt n) L (G.updateConnect L n) := by
  unfold Nodes.updateConnect
  by_cases src : (G n).type = .regSrc
  · rw [if_pos src]
    exact Links.Adds.refl (fun _ _ h => h.1 src) (fun _ _ h => h.1 src) L
  rw [if_neg src]
  dsimp only
  have rely := Links.Adds.foldl (G.relyNodes n) (fun p _ L => Links.connectPrev_adds L n p) L
  have rely_iff : ∀ p x, (∃ b ∈ G.relyNodes n, p = b ∧ x = n) ↔ p ∈ G.relyNodes n ∧ x = n := by
    intro p x
    constructor
    · rintro ⟨b, hb, rfl, rfl⟩
      exact ⟨hb, rfl⟩
    · rintro ⟨hp, rfl⟩
      exact ⟨p, hp, rfl, rfl⟩
  cases hty : (G n).type with
  | reader =>
    have ports := foldl_if_adds (c := fun port => (G port).type = .writer) (G.ports n)
      (fun port L => Links.connectPrev_adds L port n)
      ((G.relyNodes n).foldl (fun L prevNode => L.connectPrev n prevNode) L)
    have same : ∀ p x, ((∃ b ∈ G.relyNodes n, p = b ∧ x = n) ∨
        ∃ port ∈ G.ports n, (G port).type = .writer ∧ p = n ∧ x = port) ↔ G.EdgeAt n p x := by
      intro p x
      rw [rely_iff]
      constructor
      · rintro (h | ⟨port, mem, writer, rfl, rfl⟩)
        · exact ⟨src, .inl h⟩
        · exact ⟨src, .inr (.inl ⟨hty, rfl, mem, writer⟩)⟩
      · rintro ⟨-, h | ⟨-, rfl, mem, writer⟩ | ⟨writer, -⟩⟩
        · exact .inl h
        · exact .inr ⟨x, mem, writer, rfl, rfl⟩
        · cases hty.symm.trans writer
    exact (rely.trans ports).congr same same
  | writer =>
    have ports := foldl_if_adds (c := fun port => (G port).type = .reader) (G.ports n)
      (fun port L => Links.connectPrev_adds L n port)
      ((G.relyNodes n).foldl (fun L prevNode => L.connectPrev n prevNode) L)
    have same : ∀ p x, ((∃ b ∈ G.relyNodes n, p = b ∧ x = n) ∨
        ∃ port ∈ G.ports n, (G port).type = .reader ∧ p = port ∧ x = n) ↔ G.EdgeAt n p x := by
      intro p x
      rw [rely_iff]
      constructor
      · rintro (h | ⟨port, mem, reader, rfl, rfl⟩)
        · exact ⟨src, .inl h⟩
        · exact ⟨src, .inr (.inr ⟨hty, rfl, mem, reader⟩)⟩
      · rintro ⟨-, h | ⟨reader, -⟩ | ⟨-, rfl, mem, reader⟩⟩
        · exact .inl h
        · cases hty.symm.trans reader
        · exact .inr ⟨p, mem, reader, rfl, rfl⟩
    exact (rely.trans ports).congr same same
  | _ =>
    have same : ∀ p x, (∃ b ∈ G.relyNodes n, p = b ∧ x = n) ↔ G.EdgeAt n p x := by
      intro p x
      rw [rely_iff]
      constructor
      · exact fun h => ⟨src, .inl h⟩
      · rintro ⟨-, h | ⟨reader, -⟩ | ⟨writer, -⟩⟩
        · exact h
        · cases hty.symm.trans reader
        · cases hty.symm.trans writer
    exact rely.congr same same

theorem connectDepNext_adds (L : Links ℕ) (x n : ℕ) :
    Links.Adds (fun _ _ => False) (fun q y => q = x ∧ y = n) L (L.connectDepNext x n) :=
  Links.connectDepPrev_adds L n x

/-- A loop whose rounds add to the orders what depends on the successors, which they leave alone. -/
theorem foldl_deps_add {step : Links ℕ → ℕ → Links ℕ} {D : ℕ → ℕ → ℕ → Prop} {A : ℕ → Prop}
    {N : ℕ → ℕ → Prop} (l : List ℕ)
    (h : ∀ b ∈ l, ∀ L : Links ℕ, (∀ n, A n → ∀ x, x ∈ L.next n ↔ N n x) →
      Links.Adds (fun _ _ => False) (D b) L (step L b)) (L : Links ℕ)
    (hL : ∀ n, A n → ∀ x, x ∈ L.next n ↔ N n x) :
    Links.Adds (fun _ _ => False) (fun p x => ∃ b ∈ l, D b p x) L (l.foldl step L) := by
  induction l generalizing L with
  | nil => exact Links.Adds.refl (by simp) (by simp) L
  | cons b l ih =>
    have first := h b List.mem_cons_self L hL
    have kept : ∀ n, A n → ∀ x, x ∈ (step L b).next n ↔ N n x := by
      intro n hn x
      rw [first.next, or_false]
      exact hL n hn x
    have rest := ih (fun c hc => h c (List.mem_cons_of_mem _ hc)) (step L b) kept
    exact (first.trans rest).congr (by simp) (by simp)

theorem updateAsync_adds (n c : ℕ) (L : Links ℕ) {next : ℕ → Prop}
    (hnext : ∀ x, x ∈ L.next n ↔ next x) :
    Links.Adds (fun _ _ => False)
      (fun p x => (p = n ∧ x = c) ∨ (p = c ∧ (next x ∨ (G n).dst = some x))) L
      (G.updateAsync n L c) := by
  have own := connectDepNext_adds L n c
  have readers := Links.Adds.foldl ((L.connectDepNext n c).next n)
    (fun x _ L => Links.connectDepPrev_adds L x c) (L.connectDepNext n c)
  have kept : (L.connectDepNext n c).next n = L.next n := rfl
  unfold Nodes.updateAsync
  dsimp only
  cases hdst : (G n).dst with
  | none =>
    refine (own.trans readers).congr (fun p x => by simp) fun p x => ?_
    constructor
    · rintro (⟨rfl, rfl⟩ | ⟨y, hy, rfl, rfl⟩)
      · exact .inl ⟨rfl, rfl⟩
      · exact .inr ⟨rfl, .inl ((hnext x).mp (kept ▸ hy))⟩
    · rintro (⟨rfl, rfl⟩ | ⟨rfl, h | h⟩)
      · exact .inl ⟨rfl, rfl⟩
      · exact .inr ⟨x, kept ▸ (hnext x).mpr h, rfl, rfl⟩
      · cases h
  | some d =>
    have dst := Links.connectDepPrev_adds
      (((L.connectDepNext n c).next n).foldl (fun L srcNext => L.connectDepPrev srcNext c)
        (L.connectDepNext n c)) d c
    refine ((own.trans readers).trans dst).congr (fun p x => by simp) fun p x => ?_
    constructor
    · rintro ((⟨rfl, rfl⟩ | ⟨y, hy, rfl, rfl⟩) | ⟨rfl, rfl⟩)
      · exact .inl ⟨rfl, rfl⟩
      · exact .inr ⟨rfl, .inl ((hnext x).mp (kept ▸ hy))⟩
      · exact .inr ⟨rfl, .inr rfl⟩
    · rintro (⟨rfl, rfl⟩ | ⟨rfl, h | h⟩)
      · exact .inl (.inl ⟨rfl, rfl⟩)
      · exact .inl (.inr ⟨x, kept ▸ (hnext x).mpr h, rfl, rfl⟩)
      · exact .inr ⟨rfl, (Option.some.inj h).symm⟩

theorem updateDep_adds (n : ℕ) (L : Links ℕ) {next : ℕ → Prop}
    (hnext : ∀ x, x ∈ L.next n ↔ next x) :
    Links.Adds (fun _ _ => False) (G.DepAt next n) L (G.updateDep L n) := by
  have rely := Links.Adds.foldl (G.relyNodes n) (fun p _ L => connectDepNext_adds L n p) L
  have round : ∀ c ∈ G.asyncNodes n, ∀ L : Links ℕ, (∀ m, m = n → ∀ x, x ∈ L.next m ↔ next x) →
      Links.Adds (fun _ _ => False)
        (fun p x => (p = n ∧ x = c) ∨ (p = c ∧ (next x ∨ (G n).dst = some x))) L
        (G.updateAsync n L c) := fun c _ L h => updateAsync_adds n c L (h n rfl)
  have async := foldl_deps_add (N := fun _ => next) (G.asyncNodes n) round
    ((G.relyNodes n).foldl (fun L prevNode => L.connectDepNext n prevNode) L) (by
      rintro m rfl x
      rw [rely.next]
      simpa using hnext x)
  have value : ∀ v ∈ G.resetValNodes n, ∀ L : Links ℕ, Links.Adds (fun _ _ => False)
      (fun p x => ((G v).type = .regSrc ∧ p = n ∧ x = v) ∨ ((G v).type ≠ .regSrc ∧ p = v ∧ x = n)) L
      (if (G v).type = .regSrc then L.connectDepNext n v else L.connectDepPrev n v) := by
    intro v _ L
    by_cases src : (G v).type = .regSrc
    · rw [if_pos src]
      exact (connectDepNext_adds L n v).congr (by simp) (by simp [src])
    · rw [if_neg src]
      exact (Links.connectDepPrev_adds L n v).congr (by simp) (by simp [src])
  have vals := Links.Adds.foldl (G.resetValNodes n) value
    ((G.asyncNodes n).foldl (G.updateAsync n)
      ((G.relyNodes n).foldl (fun L prevNode => L.connectDepNext n prevNode) L))
  refine ((rely.trans async).trans vals).congr (fun p x => by simp) fun p x => ?_
  constructor
  · rintro ((⟨q, hq, rfl, rfl⟩ | h) | h)
    · exact .inl ⟨rfl, hq⟩
    · exact .inr (.inl h)
    · exact .inr (.inr h)
  · rintro (⟨rfl, hx⟩ | h | h)
    · exact .inl (.inl ⟨x, hx, rfl, rfl⟩)
    · exact .inl (.inr h)
    · exact .inr h

/-! ## What `reconnectAll` computes -/

theorem clearRelations (members : List ℕ) (L : Links ℕ) : ∀ x ∈ members,
    (members.foldl (fun L n => L.clearRelation n) L).prev x = [] ∧
      (members.foldl (fun L n => L.clearRelation n) L).next x = [] ∧
      (members.foldl (fun L n => L.clearRelation n) L).depPrev x = [] ∧
      (members.foldl (fun L n => L.clearRelation n) L).depNext x = [] := by
  induction members using List.reverseRecOn with
  | nil => exact fun _ h => absurd h List.not_mem_nil
  | append_singleton l y ih =>
    intro x hx
    rw [List.foldl_append, List.foldl_cons, List.foldl_nil]
    by_cases same : x = y
    · subst same
      simp [Links.clearRelation]
    · have mem : x ∈ l := by simpa [same] using hx
      simpa [Links.clearRelation, Function.update_of_ne same] using ih x mem

/-- The edges are added to what is left of the sets. -/
theorem reconnectAll_adds (G : Nodes Op) (members : List ℕ) (L : Links ℕ) :
    Links.Adds (G.Edge members) (G.Dep members)
      (members.foldl (fun L n => L.clearRelation n) L) (G.reconnectAll members L) := by
  have cleared := clearRelations members L
  have connects := Links.Adds.foldl members (fun n _ L => updateConnect_adds (G := G) n L)
    (members.foldl (fun L n => L.clearRelation n) L)
  have next : ∀ n, n ∈ members → ∀ x, x ∈ (members.foldl G.updateConnect
      (members.foldl (fun L n => L.clearRelation n) L)).next n ↔ G.Edge members n x := by
    intro n hn x
    rw [connects.next, (cleared n hn).2.1]
    exact or_iff_right List.not_mem_nil
  have dep : ∀ n ∈ members, ∀ L : Links ℕ,
      (∀ n, n ∈ members → ∀ x, x ∈ L.next n ↔ G.Edge members n x) →
      Links.Adds (fun _ _ => False)
        (fun p x => (G n).type = .regSrc ∧ G.DepAt (G.Edge members n) n p x) L
        (if (G n).type = .regSrc then G.updateDep L n else L) := by
    intro n hn L hL
    by_cases src : (G n).type = .regSrc
    · rw [if_pos src]
      exact (updateDep_adds n L (hL n hn)).congr (by simp) (by simp [src])
    · rw [if_neg src]
      exact Links.Adds.refl (by simp) (by simp [src]) L
  have deps := foldl_deps_add members dep _ next
  refine (connects.trans deps).congr (fun p x => ?_) fun p x => Iff.rfl
  simp [Nodes.Edge]

/-- **The sets after `reconnectAll`** are those of the edges between the members, each at both its
ends, whatever they were before. -/
theorem reconnectAll_shows (G : Nodes Op) (members : List ℕ) (L : Links ℕ) :
    (G.reconnectAll members L).Shows (· ∈ members) (G.Edge members) (G.Dep members) := by
  have adds := reconnectAll_adds G members L
  refine ⟨?_, ?_, ?_, ?_⟩ <;> intro x p hx <;>
    obtain ⟨prev, next, depPrev, depNext⟩ := clearRelations members L x hx
  · refine (adds.prev x p).trans ?_
    rw [prev]
    exact or_iff_right List.not_mem_nil
  · refine (adds.next x p).trans ?_
    rw [next]
    exact or_iff_right List.not_mem_nil
  · refine (adds.depPrev x p).trans ?_
    rw [depPrev]
    exact or_iff_right List.not_mem_nil
  · refine (adds.depNext x p).trans ?_
    rw [depNext]
    exact or_iff_right List.not_mem_nil

end Gsim.Reconnect
