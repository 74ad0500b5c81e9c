/-
  Gsim/KosarajuExact.lean
  =======================
  **The groups of Kosaraju's algorithm are the strongly connected components.**

  While the first pass runs, a finished vertex either is connected, in both
  directions, with a vertex on the stack, or everything it reaches is finished no
  later than the last vertex of its component (`Visit.Explored`).  So, in the end,
  the last vertex of a component comes after all that the component reaches
  (`finishOrder_last`).  The second pass takes the vertices from the end: when it
  starts a group, whatever leads to the start and has no number yet is in the
  component of the start (`components_exact`).
-/
import Gsim.Kosaraju

namespace Kosaraju

/-- There is a path, possibly of length zero. -/
def Reaches (succ : ℕ → List ℕ) : ℕ → ℕ → Prop := Relation.ReflTransGen fun u v => v ∈ succ u

/-- Each reaches the other. -/
def Mutual (succ : ℕ → List ℕ) (u v : ℕ) : Prop := Reaches succ u v ∧ Reaches succ v u

section Paths

variable {succ : ℕ → List ℕ} {u v w : ℕ}

theorem Mutual.refl (u : ℕ) : Mutual succ u u := ⟨.refl, .refl⟩

theorem Mutual.symm (h : Mutual succ u v) : Mutual succ v u := ⟨h.2, h.1⟩

theorem Mutual.trans (h : Mutual succ u v) (h' : Mutual succ v w) : Mutual succ u w :=
  ⟨h.1.trans h'.1, h'.2.trans h.2⟩

/-- A path out of a set leaves it along an edge. -/
theorem Reaches.exit {S : ℕ → Prop} (path : Reaches succ u v) (inside : S u) (outside : ¬ S v) :
    ∃ x y, Reaches succ u x ∧ S x ∧ y ∈ succ x ∧ ¬ S y := by
  induction path with
  | refl => exact absurd inside outside
  | @tail x y head edge ih =>
    by_cases hx : S x
    · exact ⟨x, y, head, hx, edge, outside⟩
    · exact ih hx

theorem Reaches.lt {n : ℕ} (bounded : ∀ u < n, ∀ v ∈ succ u, v < n) (path : Reaches succ u v)
    (hu : u < n) : v < n := by
  induction path with
  | refl => exact hu
  | tail _ edge ih => exact bounded _ ih _ edge

end Paths

/-! ## First pass -/

/-- Everything that `x` reaches is finished, no later than some vertex of its component. -/
def Settled (succ : ℕ → List ℕ) (order : List ℕ) (x : ℕ) : Prop :=
  ∀ y, Reaches succ x y → y ∈ order ∧ ∃ z ∈ order, Mutual succ x z ∧ order.idxOf y ≤ order.idxOf z

theorem Settled.mutual {succ : ℕ → List ℕ} {order : List ℕ} {x x' : ℕ} (h : Settled succ order x)
    (both : Mutual succ x x') : Settled succ order x' := by
  intro y path
  obtain ⟨hy, z, hz, same, le⟩ := h y (both.1.trans path)
  exact ⟨hy, z, hz, both.symm.trans same, le⟩

theorem Settled.concat {succ : ℕ → List ℕ} {order : List ℕ} {x : ℕ} (h : Settled succ order x)
    (u : ℕ) : Settled succ (order ++ [u]) x := by
  intro y path
  obtain ⟨hy, z, hz, same, le⟩ := h y path
  refine ⟨List.mem_append_left _ hy, z, List.mem_append_left _ hz, same, ?_⟩
  rwa [List.idxOf_append_of_mem hy, List.idxOf_append_of_mem hz]

/-- What the first pass knows about paths. -/
structure Visit.Explored (succ : ℕ → List ℕ) (st : Visit) : Prop where
  chain : (st.stack.map Prod.fst).Pairwise fun upper lower => Reaches succ lower upper
  left : ∀ frame ∈ st.stack, ∀ v ∈ frame.2, v ∈ succ frame.1
  looked : ∀ frame ∈ st.stack, ∀ v ∈ succ frame.1, v ∈ frame.2 ∨ st.visited v = true
  finished : ∀ x ∈ st.order, ∀ v ∈ succ x, st.visited v = true
  settled : ∀ x ∈ st.order,
    (∃ s ∈ st.stack.map Prod.fst, Mutual succ x s) ∨ Settled succ st.order x

section FirstPass

variable {n : ℕ} {succ : ℕ → List ℕ}

/-- Popping `u`: if its component has no vertex left on the stack, all that it reaches is
    finished. -/
theorem Visit.Explored.pop {u : ℕ} {rest : List (ℕ × List ℕ)} {visited : ℕ → Bool} {order : List ℕ}
    (inv : Visit.Inv n ⟨(u, []) :: rest, visited, order⟩)
    (h : Visit.Explored succ ⟨(u, []) :: rest, visited, order⟩) :
    Visit.Explored succ ⟨rest, visited, order ++ [u]⟩ := by
  have uDone : ∀ v ∈ succ u, visited v = true := by
    intro v hv
    rcases h.looked _ List.mem_cons_self v hv with pending | seen
    · cases pending
    · exact seen
  have done : ∀ x ∈ order ++ [u], ∀ v ∈ succ x, visited v = true := by
    intro x hx
    rcases List.mem_append.mp hx with old | new
    · exact h.finished x old
    · cases List.mem_singleton.mp new
      exact uDone
  have chain := List.pairwise_cons.mp h.chain
  have component : (∃ s ∈ rest.map Prod.fst, Mutual succ u s) ∨ Settled succ (order ++ [u]) u := by
    by_cases open_ : ∃ s ∈ rest.map Prod.fst, Mutual succ u s
    · exact .inl open_
    · refine .inr fun y path => ?_
      have hy : y ∈ order ++ [u] := by
        by_contra outside
        obtain ⟨x, s, head, hx, edge, hs⟩ := path.exit (S := (· ∈ order ++ [u])) (by simp) outside
        have seen := (inv.seen s).mpr (done x hx s edge)
        have waiting : s ∈ rest.map Prod.fst := by
          rcases List.mem_append.mp seen with old | stack
          · exact absurd (List.mem_append_left _ old) hs
          · rcases List.mem_cons.mp stack with rfl | below
            · exact absurd (by simp) hs
            · exact below
        exact open_ ⟨s, waiting, head.tail edge, chain.1 s waiting⟩
      have fresh : u ∉ order := by
        intro mem
        exact (List.nodup_append.mp inv.nodup).2.2 u mem u List.mem_cons_self rfl
      refine ⟨hy, u, by simp, Mutual.refl u, ?_⟩
      rw [List.idxOf_append_of_notMem fresh, List.idxOf_cons_self, Nat.add_zero]
      have lt := List.idxOf_lt_length_of_mem hy
      rw [List.length_append, List.length_singleton] at lt
      omega
  refine ⟨chain.2, ?_, ?_, done, ?_⟩
  · exact fun frame hf => h.left frame (List.mem_cons_of_mem _ hf)
  · exact fun frame hf => h.looked frame (List.mem_cons_of_mem _ hf)
  · have same : ∀ x, Mutual succ x u →
        (∃ s ∈ rest.map Prod.fst, Mutual succ x s) ∨ Settled succ (order ++ [u]) x := by
      intro x both
      rcases component with ⟨s, hs, both'⟩ | settled
      · exact .inl ⟨s, hs, both.trans both'⟩
      · exact .inr (settled.mutual both.symm)
    intro x hx
    rcases List.mem_append.mp hx with old | new
    · rcases h.settled x old with ⟨s, hs, both⟩ | settled
      · rcases List.mem_cons.mp hs with rfl | below
        · exact same x both
        · exact .inl ⟨s, below, both⟩
      · exact .inr (settled.concat u)
    · cases List.mem_singleton.mp new
      exact same u (Mutual.refl u)

/-- Entering a vertex that everything on the stack reaches. -/
theorem Visit.Explored.push {v : ℕ} {stack : List (ℕ × List ℕ)} {visited : ℕ → Bool}
    {order : List ℕ} (reached : ∀ s ∈ stack.map Prod.fst, Reaches succ s v)
    (chain : (stack.map Prod.fst).Pairwise fun upper lower => Reaches succ lower upper)
    (left : ∀ frame ∈ stack, ∀ w ∈ frame.2, w ∈ succ frame.1)
    (looked : ∀ frame ∈ stack, ∀ w ∈ succ frame.1, w ∈ frame.2 ∨ w = v ∨ visited w = true)
    (finished : ∀ x ∈ order, ∀ w ∈ succ x, visited w = true)
    (settled : ∀ x ∈ order, (∃ s ∈ stack.map Prod.fst, Mutual succ x s) ∨ Settled succ order x) :
    Visit.Explored succ (Visit.enter succ ⟨stack, visited, order⟩ v) := by
  have marks : ∀ w, w = v ∨ visited w = true → Function.update visited v true w = true := by
    intro w hw
    by_cases eq : w = v
    · rw [eq, Function.update_self]
    · rw [Function.update_of_ne eq]
      exact hw.resolve_left eq
  refine ⟨List.pairwise_cons.mpr ⟨reached, chain⟩, ?_, ?_, ?_, ?_⟩
  · intro frame hf
    rcases List.mem_cons.mp hf with rfl | hf
    · exact fun w hw => hw
    · exact left frame hf
  · intro frame hf w hw
    rcases List.mem_cons.mp hf with rfl | hf
    · exact .inl hw
    · exact (looked frame hf w hw).imp_right (marks w)
  · exact fun x hx w hw => marks w (.inr (finished x hx w hw))
  · intro x hx
    rcases settled x hx with ⟨s, hs, both⟩ | settled
    · exact .inl ⟨s, List.mem_cons_of_mem _ hs, both⟩
    · exact .inr settled

theorem Visit.Explored.step {st : Visit} (inv : st.Inv n) (h : st.Explored succ) :
    (visitStep succ st).Explored succ := by
  obtain ⟨stack, visited, order⟩ := st
  match stack with
  | [] => exact h
  | (u, []) :: rest => exact h.pop inv
  | (u, v :: vs) :: rest =>
    have left : ∀ frame ∈ (u, vs) :: rest, ∀ w ∈ frame.2, w ∈ succ frame.1 := by
      intro frame hf w hw
      rcases List.mem_cons.mp hf with rfl | hf
      · exact h.left _ List.mem_cons_self w (List.mem_cons_of_mem _ hw)
      · exact h.left frame (List.mem_cons_of_mem _ hf) w hw
    have looked : ∀ frame ∈ (u, vs) :: rest, ∀ w ∈ succ frame.1,
        w ∈ frame.2 ∨ w = v ∨ visited w = true := by
      intro frame hf w hw
      rcases List.mem_cons.mp hf with rfl | hf
      · rcases h.looked _ List.mem_cons_self w hw with pending | seen
        · rcases List.mem_cons.mp pending with eq | later
          · exact .inr (.inl eq)
          · exact .inl later
        · exact .inr (.inr seen)
      · exact (h.looked frame (List.mem_cons_of_mem _ hf) w hw).imp_right .inr
    simp only [visitStep]
    by_cases known : visited v = true
    · rw [if_pos known]
      refine ⟨h.chain, left, ?_, h.finished, h.settled⟩
      intro frame hf w hw
      rcases looked frame hf w hw with later | eq | seen
      · exact .inl later
      · exact .inr (eq ▸ known)
      · exact .inr seen
    · rw [if_neg known]
      have edge : v ∈ succ u := h.left _ List.mem_cons_self v List.mem_cons_self
      refine Visit.Explored.push ?_ h.chain left looked h.finished h.settled
      intro s hs
      rcases List.mem_cons.mp hs with rfl | below
      · exact .single edge
      · exact ((List.pairwise_cons.mp h.chain).1 s below).tail edge

variable (bounded : ∀ u < n, ∀ v ∈ succ u, v < n)
include bounded

theorem Visit.Explored.run {st : Visit} (inv : st.Inv n) (h : st.Explored succ) (k : ℕ) :
    ((visitStep succ)^[k] st).Explored succ := by
  induction k generalizing st with
  | zero => exact h
  | succ k ih =>
    rw [Function.iterate_succ_apply]
    exact ih (inv.step bounded).1 (h.step inv)

theorem Visit.Explored.visitFrom {st : Visit} (inv : st.Inv n) (idle : st.stack = [])
    (h : st.Explored succ) {start : ℕ} (hs : start < n) :
    (visitFrom succ n st start).Explored succ := by
  unfold Kosaraju.visitFrom
  by_cases known : st.visited start = true
  · rw [if_pos known]
    exact h
  · rw [if_neg known]
    have new : st.visited start = false := Bool.eq_false_iff.mpr known
    refine Visit.Explored.run bounded (inv.enter bounded hs new) ?_ _
    obtain ⟨stack, visited, order⟩ := st
    cases idle
    exact Visit.Explored.push nofun h.chain h.left nofun h.finished h.settled

theorem Visit.Explored.visitAll {st : Visit} (inv : st.Inv n) (idle : st.stack = [])
    (h : st.Explored succ) {starts : List ℕ} (hs : ∀ x ∈ starts, x < n) :
    (starts.foldl (Kosaraju.visitFrom succ n) st).Explored succ := by
  induction starts generalizing st with
  | nil => exact h
  | cons start starts ih =>
    rw [List.foldl_cons]
    obtain ⟨inv', idle', -, -⟩ := inv.visitFrom bounded idle (hs start List.mem_cons_self)
    exact ih inv' idle' (h.visitFrom bounded inv idle (hs start List.mem_cons_self))
      fun x hx => hs x (List.mem_cons_of_mem _ hx)

/-- What a vertex reaches is finished no later than the last vertex of its component. -/
theorem finishOrder_last {x : ℕ} (hx : x < n) : Settled succ (finishOrder succ n) x := by
  have start : Visit.Inv n ⟨[], fun _ => false, []⟩ := by
    refine ⟨List.nodup_nil, ?_, ?_, ?_⟩ <;> simp
  have explored : Visit.Explored succ ⟨[], fun _ => false, []⟩ := by
    refine ⟨List.Pairwise.nil, ?_, ?_, ?_, ?_⟩ <;> simp
  have all : ∀ x ∈ List.range n, x < n := fun x hx => List.mem_range.mp hx
  have final := explored.visitAll bounded start rfl all
  obtain ⟨-, idle, -, -⟩ := start.visitAll bounded rfl all
  have placed : x ∈ finishOrder succ n :=
    (finishOrder_perm bounded).mem_iff.mpr (List.mem_range.mpr hx)
  rcases final.settled x placed with ⟨s, hs, -⟩ | settled
  · rw [idle] at hs
    cases hs
  · exact settled

end FirstPass

/-! ## Second pass -/

/-- Vertices have the same number exactly if they are in one component. -/
def Groups.Exact (succ : ℕ → List ℕ) (g : Groups) : Prop :=
  ∀ x k, g.ids x = some k → ∀ y, g.ids y = some k ↔ Mutual succ x y

section SecondPass

variable {n : ℕ} {succ pred : ℕ → List ℕ} {g : Groups}
  (mirrored : ∀ u p, p ∈ pred u ↔ p < n ∧ u ∈ succ p)
include mirrored

theorem pred_bounded (u : ℕ) (_ : u < n) : ∀ p ∈ pred u, p < n :=
  fun p hp => ((mirrored u p).mp hp).1

/-- A path backwards stays among the vertices that are collected. -/
theorem Collect.Closed.back {st : Collect} (bounded : ∀ u < n, ∀ v ∈ succ u, v < n)
    (end_ : st.Inv n g) (closed : st.Closed pred) (empty : st.stack = []) (exact_ : g.Exact succ)
    {x y : ℕ} (hx : x ∈ st.members) (hy : y < n) (both : Mutual succ x y) : y ∈ st.members := by
  have taken := end_.taken
  have others := end_.others
  rw [empty, List.append_nil] at taken others
  have path := both.2
  have forth := both.1
  clear both
  induction path using Relation.ReflTransGen.head_induction_on with
  | refl => exact hx
  | @head y z edge rest ih =>
    have hz : z ∈ st.members := ih (bounded y hy z edge) (forth.tail edge)
    have numbered := closed z hz y ((mirrored z y).mpr ⟨hy, edge⟩)
    by_contra outside
    rw [others y outside] at numbered
    obtain ⟨k, hk⟩ := Option.ne_none_iff_exists'.mp numbered
    have same : Mutual succ y x := ⟨.head edge rest, forth⟩
    have old := (exact_ y k hk x).mpr same
    rw [(taken x hx).1] at old
    cases old

theorem Groups.Exact.collectFrom (bounded : ∀ u < n, ∀ v ∈ succ u, v < n) (inv : g.Inv n pred)
    (exact_ : g.Exact succ) {start : ℕ} (hs : start < n)
    (last : ∀ u < n, g.ids u = none → Reaches succ u start → Reaches succ start u) :
    (collectFrom pred n g start).Exact succ := by
  by_cases known : (g.ids start).isSome = true
  · unfold Kosaraju.collectFrom
    rw [if_pos known]
    exact exact_
  · have new : g.ids start = none := by simpa using known
    obtain ⟨st, end_, closed, empty, found, inherits, collected⟩ :=
      collectFrom_new (pred_bounded mirrored) hs new
    have taken := end_.taken
    have others := end_.others
    have bound := end_.bounded
    rw [empty, List.append_nil] at taken others bound
    have component : ∀ x ∈ st.members, Mutual succ x start := by
      intro x hx
      have path : Reaches succ x start := by
        refine inherits (fun x => Reaches succ x start) .refl ?_ x hx
        exact fun u hu p hp => .head ((mirrored u p).mp hp).2 hu
      exact ⟨path, last x (bound x hx) (taken x hx).1 path⟩
    rw [collected]
    intro x k hx y
    dsimp only at hx ⊢
    by_cases inside : x ∈ st.members
    · rw [(taken x inside).2] at hx
      cases hx
      constructor
      · intro hy
        by_cases hy' : y ∈ st.members
        · exact (component x inside).trans (component y hy').symm
        · rw [others y hy'] at hy
          exact absurd (inv.lt hy) (lt_irrefl _)
      · intro both
        have hy : y < n := both.1.lt bounded (bound x inside)
        exact (taken y (closed.back mirrored bounded end_ empty exact_ inside hy both)).2
    · rw [others x inside] at hx
      rw [← exact_ x k hx y]
      by_cases hy' : y ∈ st.members
      · rw [(taken y hy').1, (taken y hy').2]
        constructor
        · intro eq
          cases eq
          exact absurd (inv.lt hx) (lt_irrefl _)
        · intro eq
          cases eq
      · rw [others y hy']

omit mirrored in
/-- When a group starts, the vertices left come no later in the order than the start. -/
theorem finishOrder_start (bounded : ∀ u < n, ∀ v ∈ succ u, v < n) (exact_ : g.Exact succ)
    {start : ℕ} {done rest : List ℕ}
    (starts : (finishOrder succ n).reverse = done ++ start :: rest)
    (numbered : ∀ x ∈ done, g.ids x ≠ none) {u : ℕ} (hu : u < n) (new : g.ids u = none)
    (path : Reaches succ u start) : Reaches succ start u := by
  have order : finishOrder succ n = rest.reverse ++ start :: done.reverse := by
    rw [← List.reverse_reverse (finishOrder succ n), starts]
    simp
  have nodup : (finishOrder succ n).Nodup :=
    (finishOrder_perm bounded).nodup_iff.mpr List.nodup_range
  obtain ⟨-, z, hz, both, le⟩ := finishOrder_last bounded hu start path
  have unnumbered : g.ids z = none := by
    by_contra known
    obtain ⟨k, hk⟩ := Option.ne_none_iff_exists'.mp known
    rw [(exact_ z k hk u).mpr both.symm] at new
    cases new
  rw [order] at hz le nodup
  have fresh : start ∉ rest.reverse := by
    intro mem
    exact (List.nodup_append.mp nodup).2.2 start mem start List.mem_cons_self rfl
  have same : z = start := by
    rcases List.mem_append.mp hz with later | earlier
    · have lt := List.idxOf_lt_length_of_mem later
      rw [List.idxOf_append_of_notMem fresh, List.idxOf_append_of_mem later,
        List.idxOf_cons_self] at le
      omega
    · rcases List.mem_cons.mp earlier with eq | old
      · exact eq
      · exact absurd unnumbered (numbered z (List.mem_reverse.mp old))
  exact same ▸ both.2

theorem Groups.Exact.collectAll (bounded : ∀ u < n, ∀ v ∈ succ u, v < n) (inv : g.Inv n pred)
    (exact_ : g.Exact succ) {done rest : List ℕ}
    (starts : (finishOrder succ n).reverse = done ++ rest) (numbered : ∀ x ∈ done, g.ids x ≠ none) :
    (rest.foldl (Kosaraju.collectFrom pred n) g).Exact succ := by
  induction rest generalizing g done with
  | nil => exact exact_
  | cons start rest ih =>
    rw [List.foldl_cons]
    have hs : start < n := by
      have mem : start ∈ (finishOrder succ n).reverse := by
        rw [starts]
        simp
      exact List.mem_range.mp ((finishOrder_perm bounded).mem_iff.mp (List.mem_reverse.mp mem))
    obtain ⟨inv', known, keeps⟩ := inv.collectFrom (pred_bounded mirrored) hs
    have exact' := exact_.collectFrom mirrored bounded inv hs fun u hu new path =>
      finishOrder_start bounded exact_ starts numbered hu new path
    have starts' : (finishOrder succ n).reverse = (done ++ [start]) ++ rest := by
      rw [starts]
      simp
    refine ih inv' exact' starts' ?_
    intro x hx
    rcases List.mem_append.mp hx with old | new
    · exact keeps x (numbered x old)
    · cases List.mem_singleton.mp new
      exact known

/-- Two vertices get the same number exactly if each reaches the other. -/
theorem components_exact (bounded : ∀ u < n, ∀ v ∈ succ u, v < n) :
    (components pred n (finishOrder succ n).reverse).Exact succ := by
  have start : Groups.Inv n pred ⟨[], fun _ => none⟩ := by
    refine ⟨?_, ?_, ?_, ?_, ?_⟩ <;> simp
  have exact_ : Groups.Exact succ ⟨[], fun _ => none⟩ := nofun
  exact exact_.collectAll mirrored bounded start (List.nil_append _).symm nofun

end SecondPass

end Kosaraju
