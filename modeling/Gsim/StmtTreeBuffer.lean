/-
  Gsim/StmtTreeBuffer.lean
  ========================
  **Memory writes, kept in their ports.**

  Two write ports of one memory are not ordered by any dependency, so their writes may
  change places.  Here a write does not reach the memory: it stays with its port, as
  the address and the entries written (`buffered`).  That is a `Language`: every leaf
  writes the node of its left-hand side and nothing else.  As long as the address of a
  port does not change after its first write and nobody reads the memory after it, the
  plain execution `Tracks` the buffered one.
-/
import Gsim.StmtTreeExec

namespace Gsim.StmtTree

open GuardedStatements

/-! ## Expressions depend on the nodes they rely on -/

section Eval

variable {V : Type} (I : Interp V)

mutual
theorem ENode.eval_congr {s s' : NodeId → List ℕ → V} :
    ∀ e : ENode, (∀ n ∈ e.relyNodes, s n = s' n) → e.eval I s = e.eval I s'
  | .mk op w sg str v n c, h => by
    have node : n.map s = n.map s' := by
      cases n with
      | none => rfl
      | some n => exact congrArg some (h n (List.mem_append_left _ (by simp)))
    have child := Children.eval_congr c fun n hn => h n (List.mem_append_right _ hn)
    rw [ENode.eval, ENode.eval, node, child]

theorem Children.eval_congr {s s' : NodeId → List ℕ → V} :
    ∀ c : Children, (∀ n ∈ c.relyNodes, s n = s' n) → c.eval I s = c.eval I s'
  | .nil, _ => rfl
  | .null r, h => by
    rw [Children.eval, Children.eval, Children.eval_congr r h]
  | .cons e r, h => by
    rw [Children.eval, Children.eval,
      ENode.eval_congr e fun n hn => h n (List.mem_append_left _ hn),
      Children.eval_congr r fun n hn => h n (List.mem_append_right _ hn)]
end

mutual
/-- Conditions that compare equal have the same value and rely on the same nodes. -/
theorem checkCondENodeSame_spec (s : NodeId → List ℕ → V) :
    ∀ e e' : ENode, checkCondENodeSame e e' = true →
      e.eval I s = e'.eval I s ∧ e.relyNodes = e'.relyNodes
  | .mk op w sg str v n c, .mk op' w' sg' str' v' n' c', h => by
    simp only [checkCondENodeSame, Bool.and_eq_true, beq_iff_eq, Bool.or_eq_true,
      bne_iff_ne] at h
    obtain ⟨⟨⟨⟨⟨⟨rfl, rfl⟩, rfl⟩, text⟩, rfl⟩, rfl⟩, child⟩ := h
    obtain ⟨value, nodes⟩ := checkChildrenSame_spec s c c' child
    have text' : (if op = .int then str else "") = if op = .int then str' else "" := by
      split
      · rename_i lit
        exact text.resolve_left (fun h => h lit)
      · rfl
    rw [ENode.eval, ENode.eval, value, text', ENode.relyNodes, ENode.relyNodes, nodes]
    exact ⟨rfl, rfl⟩

theorem checkChildrenSame_spec (s : NodeId → List ℕ → V) :
    ∀ c c' : Children, checkChildrenSame c c' = true →
      c.eval I s = c'.eval I s ∧ c.relyNodes = c'.relyNodes
  | .nil, .nil, _ => ⟨rfl, rfl⟩
  | .null r, .null r', h => by
    obtain ⟨value, nodes⟩ := checkChildrenSame_spec s r r' h
    rw [Children.eval, Children.eval, value, Children.relyNodes, Children.relyNodes, nodes]
    exact ⟨rfl, rfl⟩
  | .cons e r, .cons e' r', h => by
    simp only [checkChildrenSame, Bool.and_eq_true] at h
    obtain ⟨value, nodes⟩ := checkCondENodeSame_spec s e e' h.1
    obtain ⟨values, nodess⟩ := checkChildrenSame_spec s r r' h.2
    rw [Children.eval, Children.eval, value, values, Children.relyNodes, Children.relyNodes, nodes,
      nodess]
    exact ⟨rfl, rfl⟩
  | .nil, .null _, h | .nil, .cons _ _, h | .null _, .nil, h | .null _, .cons _ _, h
  | .cons _ _, .nil, h | .cons _ _, .null _, h => by simp [checkChildrenSame] at h
end

theorem Lvalue.place_congr {lval : Lvalue} {s s' : NodeId → List ℕ → V}
    (h : ∀ n ∈ lval.index.flatMap ENode.relyNodes, s n = s' n) :
    lval.place I s = lval.place I s' := by
  apply List.map_congr_left
  intro e he
  rw [e.eval_congr I fun n hn => h n (List.mem_flatMap.mpr ⟨e, he, hn⟩)]

end Eval

/-! ## The buffered language -/

def Leaf.relyNodes (a : Leaf) : List NodeId :=
  a.rval.relyNodes ++ a.lval.index.flatMap ENode.relyNodes

/-- The value of a node and what its port has written: the address and the entries. -/
abbrev Content (V : Type) := (List ℕ → V) × Option (ℕ × (List ℕ → Option V))

section Buffered

variable {V : Type}

def view (s : NodeId → Content V) : NodeId → List ℕ → V := fun n => (s n).1

def pendingStore (old : Option (ℕ × (List ℕ → Option V))) (index : List ℕ) (value : List ℕ → V) :
    List ℕ → Option V :=
  fun ix => if index <+: ix then some (value (ix.drop index.length)) else old.bind fun o => o.2 ix

variable (I : Interp V) (init : State V)

/-- A read sees the memory as it was at the start. -/
def bufferedValue (a : Leaf) (s : NodeId → Content V) : Content V :=
  match a.rval with
  | .invalid => s a.lval.node
  | .expr e =>
    (store (s a.lval.node).1 (a.lval.place I (view s)) (e.eval I (view s)), none)
  | .readMem m addr =>
    (store (s a.lval.node).1 (a.lval.place I (view s))
      (init.mem m (I.index (addr.eval I (view s)))), none)
  | .writeMem _ addr data =>
    (init.node a.lval.node, some (I.index (addr.eval I (view s)),
      pendingStore (s a.lval.node).2 (a.lval.place I (view s)) (data.eval I (view s))))

theorem store_nil (old value : List ℕ → V) : store old [] value = value := by
  funext ix
  simp [store]

theorem pendingStore_nil (old : Option (ℕ × (List ℕ → Option V))) (value : List ℕ → V) :
    pendingStore old [] value = fun ix => some (value ix) := by
  funext ix
  simp [pendingStore]

theorem bufferedValue_congr (a : Leaf) (s s' : NodeId → Content V)
    (reads : ∀ n, n ∈ a.relyNodes → s n = s' n)
    (whole : (a.rval.isInvalid = false ∧ a.lval.index = []) ∨ s a.lval.node = s' a.lval.node) :
    bufferedValue I init a s = bufferedValue I init a s' := by
  obtain ⟨lval, rval⟩ := a
  have views : ∀ n ∈ rval.relyNodes, view s n = view s' n := fun n hn =>
    congrArg Prod.fst (reads n (List.mem_append_left _ hn))
  have place : lval.place I (view s) = lval.place I (view s') := Lvalue.place_congr I fun n hn =>
    congrArg Prod.fst (reads n (List.mem_append_right _ hn))
  -- an index-free assignment does not look at the old content
  have old : lval.place I (view s') = [] ∨ s lval.node = s' lval.node ∨ rval.isInvalid = true := by
    rcases whole with ⟨valid, index⟩ | same
    · left
      simp only at index
      simp [Lvalue.place, index]
    · exact .inr (.inl same)
  cases rval with
  | invalid => exact whole.resolve_left fun h => by simp [Rvalue.isInvalid] at h
  | expr e =>
    simp only [bufferedValue, place, e.eval_congr I views]
    rcases old with index | same | invalid
    · rw [index, store_nil, store_nil]
    · rw [same]
    · simp [Rvalue.isInvalid] at invalid
  | readMem m addr =>
    simp only [bufferedValue, place, addr.eval_congr I views]
    rcases old with index | same | invalid
    · rw [index, store_nil, store_nil]
    · rw [same]
    · simp [Rvalue.isInvalid] at invalid
  | writeMem m addr data =>
    simp only [bufferedValue, place,
      addr.eval_congr I fun n hn => views n (List.mem_append_left _ hn),
      data.eval_congr I fun n hn => views n (List.mem_append_right _ hn)]
    rcases old with index | same | invalid
    · rw [index, pendingStore_nil, pendingStore_nil]
    · rw [same]
    · simp [Rvalue.isInvalid] at invalid

def buffered : Language Leaf ENode NodeId (Content V) where
  target a := a.lval.node
  reads a n := n ∈ a.relyNodes
  overwrites a := a.rval.isInvalid = false ∧ a.lval.index = []
  value := bufferedValue I init
  value_congr := bufferedValue_congr I init
  guardReads c n := n ∈ c.relyNodes
  holds c s := I.truth (c.eval I (view s))
  holds_congr c s s' h := by
    have views : ∀ n ∈ c.relyNodes, view s n = view s' n := fun n hn =>
      congrArg Prod.fst (h n hn)
    rw [c.eval_congr I views]

theorem buffered_fits : Fits (buffered I init) where
  target _ := rfl
  holds c c' s same := by
    change I.truth _ = I.truth _
    rw [(checkCondENodeSame_spec I (view s) c c' same).1]
  guardReads c c' v same := by
    change v ∈ c.relyNodes ↔ v ∈ c'.relyNodes
    rw [(checkCondENodeSame_spec I (fun _ => init.node 0) c c' same).2]

end Buffered

/-! ## The plain execution tracks the buffered one -/

section Tracks

variable {V : Type} (I : Interp V)

/-- The port, the memory and the address of a write. -/
abbrev WriteLog := List (NodeId × MemId × ℕ)

def writeEntry (a : Leaf) (s : State V) : WriteLog :=
  match a.rval with
  | .writeMem m addr _ => [(a.lval.node, m, I.index (addr.eval I s.node))]
  | _ => []

/-- Plain execution that also lists the memory writes. -/
def logged : Meaning Leaf ENode (State V × WriteLog) where
  run a st := (runLeaf I a st.1, st.2 ++ writeEntry I a st.1)
  holds c st := I.truth (c.eval I st.1.node)

theorem exec_logged_fst (S : Block) (st : State V × WriteLog) :
    (exec (logged I) S st).1 = exec (meaning I) S st.1 := by
  induction S using block_induction generalizing st with
  | nil => rfl
  | node a S ih => exact ih _
  | seq as S ih =>
    have along : ∀ st : State V × WriteLog, (as.foldl (fun s a => (logged I).run a s) st).1 =
        as.foldl (fun s a => (meaning I).run a s) st.1 := by
      clear ih
      induction as with
      | nil => exact fun _ => rfl
      | cons a as ih => exact fun st => ih _
    rw [exec_cons, exec_cons, ih, Stmt.exec_seq, Stmt.exec_seq, along]
  | when c t f S iht ihf ih =>
    have guard : (logged I).holds c st = (meaning I).holds c st.1 := rfl
    rw [exec_cons, exec_cons, ih, Stmt.exec_when, Stmt.exec_when, guard]
    split
    · rw [iht]
    · rw [ihf]

variable (init : State V) (port : NodeId → Option (MemId × ENode))

/-- A write goes through the port of its node; nothing else assigns to a write port. -/
def FitsPort (a : Leaf) : Prop :=
  match a.rval with
  | .invalid => True
  | .writeMem m addr _ => port a.lval.node = some (m, addr)
  | _ => port a.lval.node = none

/-- What may be executed after a write of the port: it keeps the address and does not
read the memory. -/
structure MayFollow (m : MemId) (addr : ENode) (a : Leaf) : Prop where
  address : a.lval.node ∉ addr.relyNodes
  unread : ∀ addr', a.rval ≠ .readMem m addr'

def Calm (s : NodeId → Content V) (a : Leaf) : Prop :=
  ∀ w m addr, port w = some (m, addr) → (s w).2.isSome = true → MayFollow m addr a

structure Tracks (st : State V × WriteLog) (s : NodeId → Content V) : Prop where
  node : st.1.node = view s
  still : ∀ w p, port w = some p → (s w).1 = init.node w
  address : ∀ w m addr α f, port w = some (m, addr) → (s w).2 = some (α, f) →
    α = I.index (addr.eval I (view s))
  logged : ∀ w m addr α f, port w = some (m, addr) → (s w).2 = some (α, f) → (w, m, α) ∈ st.2
  /-- what a port wrote is in the memory, unless another port wrote to the same entry -/
  written : ∀ w m addr α f ix v, port w = some (m, addr) → (s w).2 = some (α, f) →
    f ix = some v → st.1.mem m α ix = v ∨ ∃ w' addr' f', w' ≠ w ∧ port w' = some (m, addr') ∧
      (s w').2 = some (α, f') ∧ (f' ix).isSome = true
  untouched : ∀ m α ix, (∀ w addr f, port w = some (m, addr) → (s w).2 = some (α, f) →
    f ix = none) → st.1.mem m α ix = init.mem m α ix

variable {I init port}

/-- An assignment to a node that is no write port. -/
theorem Tracks.assign {st : State V × WriteLog} {s : NodeId → Content V}
    (tracks : Tracks I init port st s) {n : NodeId} (noPort : port n = none)
    (calm : ∀ w m addr, port w = some (m, addr) → (s w).2.isSome = true → n ∉ addr.relyNodes)
    (value : List ℕ → V) :
    Tracks I init port ({ st.1 with node := Function.update st.1.node n value }, st.2)
      (Function.update s n (value, none)) := by
  have other : ∀ w p, port w = some p → Function.update s n (value, none) w = s w := by
    intro w p hw
    apply Function.update_of_ne
    rintro rfl
    rw [noPort] at hw
    cases hw
  have node : Function.update st.1.node n value = view (Function.update s n (value, none)) := by
    rw [tracks.node]
    funext k
    by_cases hk : k = n
    · subst hk
      simp [view]
    · simp [view, hk]
  refine ⟨node, ?_, ?_, ?_, ?_, ?_⟩
  · intro w p hw
    rw [other w p hw]
    exact tracks.still w p hw
  · intro w m addr α f hw pend
    rw [other w _ hw] at pend
    rw [tracks.address w m addr α f hw pend]
    congr 1
    apply addr.eval_congr
    intro k hk
    have : k ≠ n := by
      rintro rfl
      exact calm w m addr hw (by simp [pend]) hk
    simp [view, this]
  · intro w m addr α f hw pend
    rw [other w _ hw] at pend
    exact tracks.logged w m addr α f hw pend
  · intro w m addr α f ix v hw pend hv
    rw [other w _ hw] at pend
    rcases tracks.written w m addr α f ix v hw pend hv with h | ⟨w', addr', f', ne, hw', pend', some'⟩
    · exact .inl h
    · exact .inr ⟨w', addr', f', ne, hw', by rw [other w' _ hw']; exact pend', some'⟩
  · intro m α ix none
    apply tracks.untouched m α ix
    intro w addr f hw pend
    exact none w addr f hw (by rw [other w _ hw]; exact pend)

theorem pendingStore_isSome {old : Option (ℕ × (List ℕ → Option V))} {index : List ℕ}
    {value : List ℕ → V} {ix : List ℕ}
    (h : index <+: ix ∨ ∃ o, old = some o ∧ (o.2 ix).isSome = true) :
    (pendingStore old index value ix).isSome = true := by
  unfold pendingStore
  split
  · rfl
  · rename_i no
    obtain ⟨o, rfl, some⟩ := h.resolve_left no
    exact some

/-- A write through a port. -/
theorem Tracks.write {st : State V × WriteLog} {s : NodeId → Content V}
    (tracks : Tracks I init port st s) {n : NodeId} {m : MemId} {addr : ENode}
    (hn : port n = some (m, addr)) (index : List ℕ) (value : List ℕ → V) {α : ℕ}
    (hα : α = I.index (addr.eval I (view s))) :
    Tracks I init port
      ({ st.1 with mem := Function.update st.1.mem m (Function.update (st.1.mem m) α
          (store (st.1.mem m α) index value)) }, st.2 ++ [(n, m, α)])
      (Function.update s n (init.node n, some (α, pendingStore (s n).2 index value))) := by
  have still : view (Function.update s n (init.node n, some (α, pendingStore (s n).2 index value))) =
      view s := by
    funext k
    by_cases hk : k = n
    · subst hk
      simp [view, tracks.still k _ hn]
    · simp [view, hk]
  -- an earlier write of the port went to the same address
  have stable : ∀ α' f, (s n).2 = some (α', f) → α' = α := by
    intro α' f pend
    rw [tracks.address n m addr α' f hn pend, hα]
  have same : ∀ {w}, w ≠ n →
      Function.update s n (init.node n, some (α, pendingStore (s n).2 index value)) w = s w :=
    fun ne => Function.update_of_ne ne _ _
  have self : Function.update s n (init.node n, some (α, pendingStore (s n).2 index value)) n =
      (init.node n, some (α, pendingStore (s n).2 index value)) := Function.update_self _ _ _
  refine ⟨by rw [still]; exact tracks.node, ?_, ?_, ?_, ?_, ?_⟩
  · intro w p hw
    by_cases eq : w = n
    · subst eq
      rw [self]
    · rw [same eq]
      exact tracks.still w p hw
  · intro w m' addr' α' f hw pend
    rw [still]
    by_cases eq : w = n
    · subst eq
      rw [self] at pend
      rw [hn] at hw
      cases pend
      cases hw
      exact hα
    · rw [same eq] at pend
      exact tracks.address w m' addr' α' f hw pend
  · intro w m' addr' α' f hw pend
    by_cases eq : w = n
    · subst eq
      rw [self] at pend
      rw [hn] at hw
      cases pend
      cases hw
      exact List.mem_append_right _ (List.mem_singleton_self _)
    · rw [same eq] at pend
      exact List.mem_append_left _ (tracks.logged w m' addr' α' f hw pend)
  · intro w m' addr' α' f ix v hw pend hv
    -- the entry is not the one written now
    have elsewhere : ¬ (m' = m ∧ α' = α ∧ index <+: ix) →
        Function.update st.1.mem m (Function.update (st.1.mem m) α
          (store (st.1.mem m α) index value)) m' α' ix = st.1.mem m' α' ix := by
      intro h
      by_cases hm : m' = m
      · subst hm
        by_cases ha : α' = α
        · subst ha
          simp [store, show ¬ index <+: ix from fun hx => h ⟨rfl, rfl, hx⟩]
        · simp [ha]
      · simp [hm]
    have moved : ∀ w' addr'' f', w' ≠ w → port w' = some (m', addr'') → (s w').2 = some (α', f') →
        (f' ix).isSome = true → ∃ w' addr' f', w' ≠ w ∧ port w' = some (m', addr') ∧
          (Function.update s n (init.node n, some (α, pendingStore (s n).2 index value)) w').2 =
            some (α', f') ∧ (f' ix).isSome = true := by
      intro w' addr'' f' ne hw' pend' some'
      by_cases eq : w' = n
      · subst eq
        refine ⟨w', addr'', pendingStore (s w').2 index value, ne, hw', ?_, ?_⟩
        · rw [self, stable _ _ pend']
        · exact pendingStore_isSome (.inr ⟨_, pend', some'⟩)
      · exact ⟨w', addr'', f', ne, hw', by rw [same eq]; exact pend', some'⟩
    by_cases eq : w = n
    · subst eq
      rw [self] at pend
      rw [hn] at hw
      cases pend
      cases hw
      unfold pendingStore at hv
      split at hv
      · rename_i hx
        cases hv
        simp [store, hx]
      · rename_i hx
        obtain ⟨⟨α₀, f₀⟩, pend₀, hv⟩ := Option.bind_eq_some_iff.mp hv
        have := stable α₀ f₀ pend₀
        subst this
        rcases tracks.written w m addr α₀ f₀ ix v hn pend₀ hv with h | ⟨w', addr', f', h⟩
        · exact .inl ((elsewhere fun h => hx h.2.2).trans h)
        · exact .inr (moved w' addr' f' h.1 h.2.1 h.2.2.1 h.2.2.2)
    · rw [same eq] at pend
      by_cases hit : m' = m ∧ α' = α ∧ index <+: ix
      · obtain ⟨rfl, rfl, hx⟩ := hit
        refine .inr ⟨n, addr, pendingStore (s n).2 index value, Ne.symm eq, hn, by rw [self], ?_⟩
        exact pendingStore_isSome (.inl hx)
      · rcases tracks.written w m' addr' α' f ix v hw pend hv with h | ⟨w', addr', f', h⟩
        · exact .inl ((elsewhere hit).trans h)
        · exact .inr (moved w' addr' f' h.1 h.2.1 h.2.2.1 h.2.2.2)
  · intro m' α' ix none
    have old : ∀ w addr f, port w = some (m', addr) → (s w).2 = some (α', f) → f ix = Option.none := by
      intro w addr' f hw pend
      by_cases eq : w = n
      · subst eq
        have same := stable α' f pend
        subst same
        have now : pendingStore (s w).2 index value ix = Option.none := none w addr' _ hw (by rw [self])
        by_contra some'
        rw [← Ne, Option.ne_none_iff_isSome] at some'
        have still : (pendingStore (s w).2 index value ix).isSome = true :=
          pendingStore_isSome (.inr ⟨_, pend, some'⟩)
        rw [now] at still
        cases still
      · exact none w addr' f hw (by rw [same eq]; exact pend)
    have before := tracks.untouched m' α' ix old
    by_cases hm : m' = m
    · subst hm
      by_cases ha : α' = α
      · subst ha
        have miss : ¬ index <+: ix := by
          intro hx
          have := none n addr _ hn (by rw [self])
          simp [pendingStore, hx] at this
        simp [store, miss, before]
      · simp [ha, before]
    · simp [hm, before]

theorem Tracks.run {st : State V × WriteLog} {s : NodeId → Content V}
    (tracks : Tracks I init port st s) {a : Leaf} (fit : FitsPort port a) (calm : Calm port s a) :
    Tracks I init port ((StmtTree.logged I).run a st) ((buffered I init).meaning.run a s) := by
  obtain ⟨lval, rval⟩ := a
  have quiet : ∀ w m addr, port w = some (m, addr) → (s w).2.isSome = true →
      lval.node ∉ addr.relyNodes := fun w m addr hw some => (calm w m addr hw some).address
  cases rval with
  | invalid =>
    have left : (StmtTree.logged I).run ⟨lval, .invalid⟩ st = st := by
      simp [StmtTree.logged, runLeaf, writeEntry]
    have right : (buffered I init).meaning.run ⟨lval, .invalid⟩ s = s :=
      Function.update_eq_self _ _
    rw [left, right]
    exact tracks
  | expr e =>
    have := tracks.assign fit quiet (store (s lval.node).1 (lval.place I (view s)) (e.eval I (view s)))
    have entry : st.2 ++ writeEntry I ⟨lval, .expr e⟩ st.1 = st.2 := List.append_nil _
    simp only [StmtTree.logged, runLeaf, entry, tracks.node]
    rw [tracks.node] at this
    exact this
  | readMem m addr =>
    -- no port of the memory has written yet
    have clean : ∀ α, st.1.mem m α = init.mem m α := by
      intro α
      funext ix
      apply tracks.untouched
      intro w addr' f hw pend
      exact absurd rfl ((calm w m addr' hw (by simp [pend])).unread addr)
    have := tracks.assign fit quiet (store (s lval.node).1 (lval.place I (view s))
      (init.mem m (I.index (addr.eval I (view s)))))
    have entry : st.2 ++ writeEntry I ⟨lval, .readMem m addr⟩ st.1 = st.2 := List.append_nil _
    simp only [StmtTree.logged, runLeaf, entry, tracks.node, clean]
    rw [tracks.node] at this
    exact this
  | writeMem m addr data =>
    have := tracks.write fit (lval.place I (view s)) (data.eval I (view s)) rfl
    simp only [tracks.node] at this
    simp only [StmtTree.logged, runLeaf, writeEntry, tracks.node]
    exact this

/-- The ports that have written after a block are those that had, and those with a
write in the block. -/
theorem pending_exec {S : Block} {s : NodeId → Content V} {w : NodeId}
    (h : (exec (buffered I init).meaning S s w).2.isSome = true) :
    (s w).2.isSome = true ∨
      ∃ a, Item.act a ∈ items S ∧ a.lval.node = w ∧ ∃ m addr data, a.rval = .writeMem m addr data := by
  revert h
  refine exec_preserves (buffered I init).meaning
    (P := fun s' => (s' w).2.isSome = true → (s w).2.isSome = true ∨
      ∃ a, Item.act a ∈ items S ∧ a.lval.node = w ∧ ∃ m addr data, a.rval = .writeMem m addr data)
    S ?_ .inl
  intro a ha s' ih h
  by_cases eq : w = a.lval.node
  · subst eq
    have value := (buffered I init).run_target a s'
    change (buffered I init).meaning.run a s' a.lval.node = bufferedValue I init a s' at value
    rw [value] at h
    obtain ⟨lval, rval⟩ := a
    cases rval with
    | invalid => exact ih h
    | expr e => cases h
    | readMem m addr => cases h
    | writeMem m addr data => exact .inr ⟨_, ha, rfl, m, addr, data, rfl⟩
  · rw [(buffered I init).run_of_ne eq] at h
    exact ih h

/-- The second item may be executed after the first. -/
def PortOrder (x y : Item Leaf ENode) : Prop :=
  ∀ a b m addr data, x = .act a → y = .act b → a.rval = .writeMem m addr data → MayFollow m addr b

variable (I init port) in
theorem calm_after {S : Block} {a : Leaf} {s : NodeId → Content V}
    (fit : ∀ b, Item.act b ∈ items S → FitsPort port b)
    (order : ∀ x ∈ items S, PortOrder x (.act a)) (calm : Calm port s a) :
    Calm port (exec (buffered I init).meaning S s) a := by
  intro w m addr hw some
  rcases pending_exec some with some | ⟨b, hb, rfl, m', addr', data, write⟩
  · exact calm w m addr hw some
  · have := fit b hb
    simp only [FitsPort, write] at this
    rw [this] at hw
    cases hw
    exact order _ hb b a _ _ data rfl rfl write

theorem Tracks.exec {S : Block} (fit : ∀ a, Item.act a ∈ items S → FitsPort port a)
    (order : Ordered PortOrder S) {st : State V × WriteLog} {s : NodeId → Content V}
    (tracks : Tracks I init port st s) (calm : ∀ a, Item.act a ∈ items S → Calm port s a) :
    Tracks I init port (GuardedStatements.exec (StmtTree.logged I) S st)
      (GuardedStatements.exec (buffered I init).meaning S s) := by
  have one : ∀ (x : Stmt Leaf ENode) (S : Block), (∀ a, Item.act a ∈ items (x :: S) → FitsPort port a) →
      Ordered PortOrder (x :: S) → ∀ {s : NodeId → Content V},
      (∀ a, Item.act a ∈ items (x :: S) → Calm port s a) →
      ∀ a, Item.act a ∈ items S → Calm port (x.exec (buffered I init).meaning s) a := by
    intro x S fit order s calm a ha
    have := calm_after I init port (S := [x])
      (fun b hb => fit b (List.mem_append_left _ (by simpa using hb)))
      (fun y hy => order.2.1 y (by simpa using hy) _ ha) (calm a (List.mem_append_right _ ha))
    simpa using this
  induction S using block_induction generalizing st s with
  | nil => exact tracks
  | node a S ih =>
    apply ih (fun b hb => fit b (List.mem_append_right _ hb)) order.2.2
    · exact tracks.run (fit a (by simp)) (calm a (by simp))
    · exact one (.node a) S fit order calm
  | seq as S ih =>
    apply ih (fun b hb => fit b (List.mem_append_right _ hb)) order.2.2
    · have fits : ∀ a ∈ as, FitsPort port a := fun a ha => fit a (by simp [ha])
      have calms : ∀ a ∈ as, Calm port s a := fun a ha => calm a (by simp [ha])
      have pairs : as.Pairwise fun a b => PortOrder (.act a) (.act b) := order.1
      clear ih order fit calm
      induction as generalizing st s with
      | nil => exact tracks
      | cons a as ih =>
        rw [List.pairwise_cons] at pairs
        refine ih (tracks.run (fits a List.mem_cons_self) (calms a List.mem_cons_self))
          (fun b hb => fits b (List.mem_cons_of_mem _ hb)) ?_ pairs.2
        intro b hb
        have := calm_after I init port (S := [.node a]) (a := b) (s := s)
          (fun c hc => by simp at hc; subst hc; exact fits _ List.mem_cons_self)
          (fun y hy => by simp at hy; subst hy; exact pairs.1 b hb)
          (calms b (List.mem_cons_of_mem _ hb))
        simpa using this
    · exact one (.seq as) S fit order calm
  | when c t f S iht ihf ih =>
    apply ih (fun b hb => fit b (List.mem_append_right _ hb)) order.2.2
    · have guard : (StmtTree.logged I).holds c st = (buffered I init).meaning.holds c s := by
        change I.truth _ = I.truth _
        rw [tracks.node]
      rw [Stmt.exec_when, Stmt.exec_when, guard]
      split
      · exact iht (fun b hb => fit b (by simp [hb])) order.1.2.1 tracks
          fun b hb => calm b (by simp [hb])
      · exact ihf (fun b hb => fit b (by simp [hb])) order.1.2.2 tracks
          fun b hb => calm b (by simp [hb])
    · exact one (.when c t f) S fit order calm

/-- Nothing has been written at the start. -/
theorem Tracks.start : Tracks I init port (init, []) fun n => (init.node n, none) where
  node := rfl
  still _ _ _ := rfl
  address _ _ _ _ _ _ h := by cases h
  logged _ _ _ _ _ _ h := by cases h
  written _ _ _ _ _ _ _ _ h := by cases h
  untouched _ _ _ _ := rfl

/-- Two executions that track the same buffered state, one of them without two ports
writing to one address, end in the same state. -/
theorem Tracks.agree {st st' : State V × WriteLog} {s : NodeId → Content V}
    (tracks : Tracks I init port st s) (tracks' : Tracks I init port st' s)
    (apart : ∀ w w' m α, (w, m, α) ∈ st.2 → (w', m, α) ∈ st.2 → w = w') : st.1 = st'.1 := by
  have mem : st.1.mem = st'.1.mem := by
    funext m α ix
    by_cases hit : ∃ w addr f, port w = some (m, addr) ∧ (s w).2 = some (α, f) ∧ (f ix).isSome = true
    · obtain ⟨w, addr, f, hw, pend, some⟩ := hit
      obtain ⟨v, hv⟩ := Option.isSome_iff_exists.mp some
      have only : ¬ ∃ w' addr' f', w' ≠ w ∧ port w' = Option.some (m, addr') ∧
          (s w').2 = Option.some (α, f') ∧ (f' ix).isSome = true := by
        rintro ⟨w', addr', f', ne, hw', pend', -⟩
        exact ne (apart w' w m α (tracks.logged w' m addr' α f' hw' pend')
          (tracks.logged w m addr α f hw pend))
      rw [(tracks.written w m addr α f ix v hw pend hv).resolve_right only,
        (tracks'.written w m addr α f ix v hw pend hv).resolve_right only]
    · have none : ∀ w addr f, port w = some (m, addr) → (s w).2 = some (α, f) → f ix = none := by
        intro w addr f hw pend
        by_contra some
        rw [← Ne, Option.ne_none_iff_isSome] at some
        exact hit ⟨w, addr, f, hw, pend, some⟩
      rw [tracks.untouched m α ix none, tracks'.untouched m α ix none]
  obtain ⟨⟨node, mem₁⟩, log⟩ := st
  obtain ⟨⟨node', mem₂⟩, log'⟩ := st'
  have nodes : node = node' := tracks.node.trans tracks'.node.symm
  subst nodes
  simp only at mem
  subst mem
  rfl

end Tracks

end Gsim.StmtTree
