/-
  Gsim/Kosaraju.lean
  ==================
  **The two passes of Kosaraju's algorithm**, on the vertices below `n`.

  The first pass searches along the edges and lists the vertices as they are
  finished; every vertex is finished once (`finishOrder_perm`).  The second pass
  takes starting vertices from a list and collects under a new number whatever
  leads to them and has no number yet.  For any list of starts that names every
  vertex, the collected groups are a partition and the numbers climb along the
  edges (`components_partition`, `components_forward`).
-/
import Mathlib

namespace Kosaraju

/-! ## First pass -/

/-- The state of the search; a vertex on the stack comes with the successors that it has
    still to look at. -/
structure Visit where
  stack : List (ℕ × List ℕ)
  visited : ℕ → Bool
  order : List ℕ

section Search

variable (succ : ℕ → List ℕ)

def Visit.enter (st : Visit) (v : ℕ) : Visit :=
  { st with
    stack := (v, succ v) :: st.stack
    visited := Function.update st.visited v true }

/-- One turn of `while (!stack.empty())`. -/
def visitStep (st : Visit) : Visit :=
  match st.stack with
  | [] => st
  | (u, []) :: rest => { st with stack := rest, order := st.order ++ [u] }
  | (u, v :: vs) :: rest =>
    let st := { st with stack := (u, vs) :: rest }
    if st.visited v then st else st.enter succ v

/-- One turn for every vertex and every edge. -/
def turns (n : ℕ) : ℕ := ∑ u ∈ Finset.range n, ((succ u).length + 1)

def visitFrom (n : ℕ) (st : Visit) (start : ℕ) : Visit :=
  if st.visited start then st else (visitStep succ)^[turns succ n] (st.enter succ start)

/-- The vertices in the order in which the search leaves them. -/
def finishOrder (n : ℕ) : List ℕ :=
  ((List.range n).foldl (visitFrom succ n) ⟨[], fun _ => false, []⟩).order

end Search

/-- The vertices seen are those finished and those on the stack. -/
structure Visit.Inv (n : ℕ) (st : Visit) : Prop where
  nodup : (st.order ++ st.stack.map Prod.fst).Nodup
  seen : ∀ x, x ∈ st.order ++ st.stack.map Prod.fst ↔ st.visited x = true
  bounded : ∀ x, st.visited x = true → x < n
  frames : ∀ frame ∈ st.stack, ∀ v ∈ frame.2, v < n

/-- The turns for the vertices that are not seen yet. -/
def unseen (succ : ℕ → List ℕ) (n : ℕ) (visited : ℕ → Bool) : ℕ :=
  ∑ u ∈ Finset.range n, if visited u = true then 0 else (succ u).length + 1

/-- The turns that are left. -/
def Visit.left (succ : ℕ → List ℕ) (n : ℕ) (st : Visit) : ℕ :=
  unseen succ n st.visited + (st.stack.map fun frame => frame.2.length + 1).sum

theorem unseen_update {succ : ℕ → List ℕ} {n v : ℕ} {visited : ℕ → Bool} (hv : v < n)
    (new : visited v = false) :
    unseen succ n visited = unseen succ n (Function.update visited v true) + (succ v).length + 1 := by
  have others : ∀ u ∈ (Finset.range n).erase v,
      (if Function.update visited v true u = true then 0 else (succ u).length + 1) =
        if visited u = true then 0 else (succ u).length + 1 := by
    intro u hu
    rw [Function.update_of_ne (Finset.ne_of_mem_erase hu)]
  unfold unseen
  rw [← Finset.add_sum_erase _ _ (Finset.mem_range.mpr hv),
    ← Finset.add_sum_erase _ _ (Finset.mem_range.mpr hv), Finset.sum_congr rfl others,
    Function.update_self, new]
  simp only [Bool.false_eq_true, if_false, if_true]
  omega

section FirstPass

variable {n : ℕ} {succ : ℕ → List ℕ} (bounded : ∀ u < n, ∀ v ∈ succ u, v < n)

theorem Visit.left_enter {st : Visit} {v : ℕ} (hv : v < n) (new : st.visited v = false) :
    (st.enter succ v).left succ n = st.left succ n := by
  simp only [Visit.left, Visit.enter, unseen_update hv new, List.map_cons, List.sum_cons]
  omega

include bounded in
theorem Visit.Inv.enter {st : Visit} (inv : st.Inv n) {v : ℕ} (hv : v < n)
    (new : st.visited v = false) : (st.enter succ v).Inv n := by
  have absent : v ∉ st.order ++ st.stack.map Prod.fst := by
    rw [inv.seen, new]
    exact Bool.false_ne_true
  have perm : (st.order ++ v :: st.stack.map Prod.fst).Perm
      (v :: (st.order ++ st.stack.map Prod.fst)) := List.perm_middle
  refine ⟨?_, ?_, ?_, ?_⟩
  · exact perm.nodup_iff.mpr (List.nodup_cons.mpr ⟨absent, inv.nodup⟩)
  · intro x
    refine perm.mem_iff.trans ?_
    rw [List.mem_cons, inv.seen]
    by_cases h : x = v <;> simp [Visit.enter, h]
  · intro x hx
    by_cases h : x = v
    · exact h ▸ hv
    · refine inv.bounded x ?_
      simpa [Visit.enter, h] using hx
  · intro frame hframe
    rcases List.mem_cons.mp hframe with rfl | hframe
    · exact bounded v hv
    · exact inv.frames frame hframe

include bounded in
/-- A turn keeps the invariant and is one of those that were left. -/
theorem Visit.Inv.step {st : Visit} (inv : st.Inv n) :
    (visitStep succ st).Inv n ∧
      (st.stack ≠ [] → (visitStep succ st).left succ n + 1 = st.left succ n) := by
  obtain ⟨stack, visited, order⟩ := st
  match stack with
  | [] => exact ⟨inv, fun h => absurd rfl h⟩
  | (u, []) :: rest =>
    have same : (order ++ [u] ++ rest.map Prod.fst) = order ++ u :: rest.map Prod.fst := by simp
    refine ⟨⟨?_, ?_, inv.bounded, ?_⟩, fun _ => ?_⟩
    · simp only [visitStep, same]
      exact inv.nodup
    · simp only [visitStep, same]
      exact inv.seen
    · exact fun frame hframe => inv.frames frame (List.mem_cons_of_mem _ hframe)
    · simp only [visitStep, Visit.left, List.map_cons, List.sum_cons, List.length_nil]
      omega
  | (u, v :: vs) :: rest =>
    have looked : Visit.Inv n ⟨(u, vs) :: rest, visited, order⟩ := by
      refine ⟨inv.nodup, inv.seen, inv.bounded, ?_⟩
      intro frame hframe w hw
      rcases List.mem_cons.mp hframe with rfl | hframe
      · exact inv.frames _ List.mem_cons_self w (List.mem_cons_of_mem _ hw)
      · exact inv.frames frame (List.mem_cons_of_mem _ hframe) w hw
    have fewer : Visit.left succ n ⟨(u, vs) :: rest, visited, order⟩ + 1 =
        Visit.left succ n ⟨(u, v :: vs) :: rest, visited, order⟩ := by
      simp only [Visit.left, List.map_cons, List.sum_cons, List.length_cons]
      omega
    have hv : v < n := inv.frames _ List.mem_cons_self v List.mem_cons_self
    by_cases known : visited v = true
    · have step : visitStep succ ⟨(u, v :: vs) :: rest, visited, order⟩ =
          ⟨(u, vs) :: rest, visited, order⟩ := if_pos known
      rw [step]
      exact ⟨looked, fun _ => fewer⟩
    · have new : visited v = false := Bool.eq_false_iff.mpr known
      have step : visitStep succ ⟨(u, v :: vs) :: rest, visited, order⟩ =
          Visit.enter succ ⟨(u, vs) :: rest, visited, order⟩ v := if_neg known
      rw [step]
      refine ⟨looked.enter bounded hv new, fun _ => ?_⟩
      rw [Visit.left_enter hv new]
      exact fewer

theorem visitStep_visited (st : Visit) (x : ℕ) (h : st.visited x = true) :
    (visitStep succ st).visited x = true := by
  obtain ⟨stack, visited, order⟩ := st
  match stack with
  | [] => exact h
  | (u, []) :: rest => exact h
  | (u, v :: vs) :: rest =>
    simp only [visitStep]
    split
    · exact h
    · by_cases eq : x = v
      · exact eq ▸ Function.update_self ..
      · exact (Function.update_of_ne eq _ _).trans h

include bounded in
/-- After the turns that were left the stack is empty. -/
theorem Visit.Inv.run {st : Visit} (inv : st.Inv n) {k : ℕ} (enough : st.left succ n ≤ k) :
    ((visitStep succ)^[k] st).Inv n ∧ ((visitStep succ)^[k] st).stack = [] ∧
      ∀ x, st.visited x = true → ((visitStep succ)^[k] st).visited x = true := by
  induction k generalizing st with
  | zero =>
    refine ⟨inv, ?_, fun _ h => h⟩
    cases empty : st.stack with
    | nil => exact empty
    | cons frame rest =>
      unfold Visit.left at enough
      rw [empty, List.map_cons, List.sum_cons] at enough
      omega
  | succ k ih =>
    rw [Function.iterate_succ_apply]
    obtain ⟨next, fewer⟩ := inv.step bounded
    by_cases empty : st.stack = []
    · have step : visitStep succ st = st := by
        unfold visitStep
        rw [empty]
      rw [step, Function.iterate_fixed step]
      exact ⟨inv, empty, fun _ h => h⟩
    · have := fewer empty
      obtain ⟨inv', done, keeps⟩ := ih next (by omega)
      exact ⟨inv', done, fun x hx => keeps x (visitStep_visited st x hx)⟩

include bounded in
theorem Visit.Inv.visitFrom {st : Visit} (inv : st.Inv n) (idle : st.stack = []) {start : ℕ}
    (hs : start < n) :
    (visitFrom succ n st start).Inv n ∧ (visitFrom succ n st start).stack = [] ∧
      (visitFrom succ n st start).visited start = true ∧
      ∀ x, st.visited x = true → (visitFrom succ n st start).visited x = true := by
  unfold Kosaraju.visitFrom
  by_cases known : st.visited start = true
  · rw [if_pos known]
    exact ⟨inv, idle, known, fun _ h => h⟩
  · rw [if_neg known]
    have new : st.visited start = false := Bool.eq_false_iff.mpr known
    have enough : (st.enter succ start).left succ n ≤ turns succ n := by
      rw [Visit.left_enter hs new]
      unfold Visit.left unseen turns
      rw [idle, List.map_nil, List.sum_nil, Nat.add_zero]
      refine Finset.sum_le_sum fun u _ => ?_
      split
      · exact Nat.zero_le _
      · exact le_refl _
    obtain ⟨inv', done, keeps⟩ := (inv.enter bounded hs new).run bounded enough
    refine ⟨inv', done, keeps start (Function.update_self ..), fun x hx => keeps x ?_⟩
    by_cases eq : x = start
    · exact eq ▸ Function.update_self ..
    · exact (Function.update_of_ne eq _ _).trans hx

include bounded in
theorem Visit.Inv.visitAll {st : Visit} (inv : st.Inv n) (idle : st.stack = []) {starts : List ℕ}
    (hs : ∀ x ∈ starts, x < n) :
    (starts.foldl (Kosaraju.visitFrom succ n) st).Inv n ∧
      (starts.foldl (Kosaraju.visitFrom succ n) st).stack = [] ∧
      (∀ x ∈ starts, (starts.foldl (Kosaraju.visitFrom succ n) st).visited x = true) ∧
      ∀ x, st.visited x = true → (starts.foldl (Kosaraju.visitFrom succ n) st).visited x = true := by
  induction starts generalizing st with
  | nil => exact ⟨inv, idle, by simp, fun _ h => h⟩
  | cons start starts ih =>
    rw [List.foldl_cons]
    obtain ⟨inv', idle', seen, keeps⟩ := inv.visitFrom bounded idle (hs start List.mem_cons_self)
    obtain ⟨inv'', idle'', all, keeps'⟩ := ih inv' idle' fun x hx => hs x (List.mem_cons_of_mem _ hx)
    refine ⟨inv'', idle'', ?_, fun x hx => keeps' x (keeps x hx)⟩
    intro x hx
    rcases List.mem_cons.mp hx with rfl | hx
    · exact keeps' x seen
    · exact all x hx

include bounded in
/-- Every vertex is finished once. -/
theorem finishOrder_perm : (finishOrder succ n).Perm (List.range n) := by
  have start : Visit.Inv n ⟨[], fun _ => false, []⟩ := by
    refine ⟨List.nodup_nil, ?_, ?_, ?_⟩ <;> simp
  obtain ⟨inv, idle, all, -⟩ := start.visitAll bounded rfl fun x hx => List.mem_range.mp hx
  have nodup := inv.nodup
  have seen := inv.seen
  rw [idle, List.map_nil, List.append_nil] at nodup
  refine (List.perm_ext_iff_of_nodup nodup List.nodup_range).mpr fun x => ?_
  rw [List.mem_range]
  rw [idle, List.map_nil, List.append_nil] at seen
  rw [seen]
  exact ⟨inv.bounded x, fun hx => all x (List.mem_range.mpr hx)⟩

end FirstPass

/-! ## Second pass -/

/-- The state while one group is collected. -/
structure Collect where
  stack : List ℕ
  members : List ℕ
  ids : ℕ → Option ℕ

section Groups

variable (pred : ℕ → List ℕ)

/-- `if (id[p] < 0) { id[p] = k; stack.push_back(p); }`. -/
def Collect.take (k : ℕ) (st : Collect) (p : ℕ) : Collect :=
  if st.ids p = none then
    { st with stack := p :: st.stack, ids := Function.update st.ids p (some k) }
  else st

/-- One turn of `while (!stack.empty())`. -/
def collectStep (k : ℕ) (st : Collect) : Collect :=
  match st.stack with
  | [] => st
  | u :: rest =>
    (pred u).foldl (Collect.take k) { st with stack := rest, members := st.members ++ [u] }

/-- The groups collected so far, and the number of each vertex. -/
structure Groups where
  comps : List (List ℕ)
  ids : ℕ → Option ℕ

def collectFrom (n : ℕ) (g : Groups) (start : ℕ) : Groups :=
  if (g.ids start).isSome then g
  else
    let st := (collectStep pred g.comps.length)^[n]
      ⟨[start], [], Function.update g.ids start (some g.comps.length)⟩
    ⟨g.comps ++ [st.members], st.ids⟩

def components (n : ℕ) (starts : List ℕ) : Groups :=
  starts.foldl (collectFrom pred n) ⟨[], fun _ => none⟩

end Groups

/-- The finished groups: whatever leads to a member has the same or a smaller number. -/
structure Groups.Inv (n : ℕ) (pred : ℕ → List ℕ) (g : Groups) : Prop where
  mem : ∀ x k, g.ids x = some k ↔ x ∈ g.comps.getD k []
  bounded : ∀ x k, g.ids x = some k → x < n
  nodup : ∀ comp ∈ g.comps, comp.Nodup
  nonempty : ∀ comp ∈ g.comps, comp ≠ []
  closed : ∀ x k, g.ids x = some k → ∀ p ∈ pred x, ∃ j ≤ k, g.ids p = some j

theorem Groups.Inv.lt {n : ℕ} {pred : ℕ → List ℕ} {g : Groups} (inv : g.Inv n pred) {x k : ℕ}
    (h : g.ids x = some k) : k < g.comps.length := by
  by_contra ge
  rw [inv.mem, List.getD_eq_default _ _ (not_lt.mp ge)] at h
  cases h

/-- While group `k` is collected: its members are found or wait on the stack, and nobody else's
    number changes. -/
structure Collect.Inv (n : ℕ) (g : Groups) (st : Collect) : Prop where
  nodup : (st.members ++ st.stack).Nodup
  bounded : ∀ x ∈ st.members ++ st.stack, x < n
  taken : ∀ x ∈ st.members ++ st.stack, g.ids x = none ∧ st.ids x = some g.comps.length
  others : ∀ x, x ∉ st.members ++ st.stack → st.ids x = g.ids x

/-- The members found have numbered predecessors only. -/
def Collect.Closed (pred : ℕ → List ℕ) (st : Collect) : Prop :=
  ∀ x ∈ st.members, ∀ p ∈ pred x, st.ids p ≠ none

section SecondPass

variable {n : ℕ} {pred : ℕ → List ℕ} (bounded : ∀ u < n, ∀ p ∈ pred u, p < n) {g : Groups}

theorem Collect.take_ids (k : ℕ) (st : Collect) (p x : ℕ) (h : st.ids x ≠ none) :
    (st.take k p).ids x = st.ids x := by
  unfold Collect.take
  split
  · rename_i new
    refine Function.update_of_ne ?_ _ _
    rintro rfl
    exact h new
  · rfl

theorem Collect.take_ids_self (k : ℕ) (st : Collect) (p : ℕ) : (st.take k p).ids p ≠ none := by
  unfold Collect.take
  split
  · simp
  · assumption

theorem Collect.take_members (k : ℕ) (st : Collect) (p : ℕ) :
    (st.take k p).members = st.members := by
  unfold Collect.take
  split <;> rfl

theorem Collect.Inv.take {st : Collect} (inv : st.Inv n g) {p : ℕ} (hp : p < n) :
    (st.take g.comps.length p).Inv n g := by
  unfold Collect.take
  by_cases new : st.ids p = none
  · rw [if_pos new]
    have absent : p ∉ st.members ++ st.stack := by
      intro mem
      rw [(inv.taken p mem).2] at new
      cases new
    have perm : (st.members ++ p :: st.stack).Perm (p :: (st.members ++ st.stack)) :=
      List.perm_middle
    refine ⟨?_, ?_, ?_, ?_⟩
    · exact perm.nodup_iff.mpr (List.nodup_cons.mpr ⟨absent, inv.nodup⟩)
    · intro x hx
      rcases List.mem_cons.mp (perm.mem_iff.mp hx) with rfl | hx
      · exact hp
      · exact inv.bounded x hx
    · intro x hx
      rcases List.mem_cons.mp (perm.mem_iff.mp hx) with rfl | old
      · exact ⟨(inv.others x absent).symm.trans new, Function.update_self ..⟩
      · refine ⟨(inv.taken x old).1, ?_⟩
        rw [← (inv.taken x old).2]
        refine Function.update_of_ne ?_ _ _
        rintro rfl
        exact absent old
    · intro x hx
      have apart : x ∉ p :: (st.members ++ st.stack) := fun mem => hx (perm.mem_iff.mpr mem)
      rw [List.mem_cons, not_or] at apart
      rw [← inv.others x apart.2]
      exact Function.update_of_ne apart.1 _ _
  · rw [if_neg new]
    exact inv

/-- Going through a list of predecessors gives each of them a number. -/
theorem Collect.Inv.takeAll {st : Collect} (inv : st.Inv n g) {ps : List ℕ}
    (hps : ∀ p ∈ ps, p < n) :
    (ps.foldl (Collect.take g.comps.length) st).Inv n g ∧
      (ps.foldl (Collect.take g.comps.length) st).members = st.members ∧
      (∀ p ∈ ps, (ps.foldl (Collect.take g.comps.length) st).ids p ≠ none) ∧
      ∀ x, st.ids x ≠ none → (ps.foldl (Collect.take g.comps.length) st).ids x ≠ none := by
  induction ps generalizing st with
  | nil => exact ⟨inv, rfl, by simp, fun _ h => h⟩
  | cons p ps ih =>
    rw [List.foldl_cons]
    obtain ⟨inv', members, all, keeps⟩ :=
      ih (inv.take (hps p List.mem_cons_self)) fun q hq => hps q (List.mem_cons_of_mem _ hq)
    refine ⟨inv', members.trans (Collect.take_members ..), ?_, ?_⟩
    · intro q hq
      rcases List.mem_cons.mp hq with rfl | hq
      · exact keeps q (Collect.take_ids_self _ _ q)
      · exact all q hq
    · intro x hx
      refine keeps x ?_
      rw [Collect.take_ids _ _ _ _ hx]
      exact hx

include bounded in
/-- A turn finds one more member, if any waits. -/
theorem Collect.Inv.step {st : Collect} (inv : st.Inv n g) (closed : st.Closed pred) :
    (collectStep pred g.comps.length st).Inv n g ∧
      (collectStep pred g.comps.length st).Closed pred ∧
      (st.stack ≠ [] →
        (collectStep pred g.comps.length st).members.length = st.members.length + 1) ∧
      ∀ x ∈ st.members ++ st.stack, x ∈ (collectStep pred g.comps.length st).members ++
        (collectStep pred g.comps.length st).stack := by
  obtain ⟨stack, members, ids⟩ := st
  match stack with
  | [] => exact ⟨inv, closed, fun h => absurd rfl h, fun _ h => h⟩
  | u :: rest =>
    have same : members ++ [u] ++ rest = members ++ u :: rest := by simp
    have popped : Collect.Inv n g ⟨rest, members ++ [u], ids⟩ := by
      refine ⟨?_, ?_, ?_, ?_⟩
      · simpa only [same] using inv.nodup
      · simpa only [same] using inv.bounded
      · simpa only [same] using inv.taken
      · simpa only [same] using inv.others
    have hu : u < n := inv.bounded u (List.mem_append_right _ List.mem_cons_self)
    obtain ⟨inv', found, all, keeps⟩ := popped.takeAll (bounded u hu)
    refine ⟨inv', ?_, fun _ => ?_, ?_⟩
    · intro x hx p hp
      rw [collectStep, found] at hx
      rcases List.mem_append.mp hx with old | new
      · exact keeps p (closed x old p hp)
      · cases List.mem_singleton.mp new
        exact all p hp
    · rw [collectStep, found, List.length_append, List.length_singleton]
    · intro x hx
      by_contra absent
      have number := (popped.taken x (same ▸ hx))
      have lost := inv'.others x absent
      rw [number.1] at lost
      refine keeps x ?_ lost
      rw [number.2]
      exact Option.some_ne_none _

include bounded in
theorem Collect.Inv.run {st : Collect} (inv : st.Inv n g) (closed : st.Closed pred) {k : ℕ} :
    ((collectStep pred g.comps.length)^[k] st).Inv n g ∧
      ((collectStep pred g.comps.length)^[k] st).Closed pred ∧
      (((collectStep pred g.comps.length)^[k] st).stack = [] ∨
        st.members.length + k ≤ ((collectStep pred g.comps.length)^[k] st).members.length) ∧
      ∀ x ∈ st.members ++ st.stack, x ∈ ((collectStep pred g.comps.length)^[k] st).members ++
        ((collectStep pred g.comps.length)^[k] st).stack := by
  induction k generalizing st with
  | zero => exact ⟨inv, closed, .inr (le_refl _), fun _ h => h⟩
  | succ k ih =>
    rw [Function.iterate_succ_apply]
    by_cases empty : st.stack = []
    · have step : collectStep pred g.comps.length st = st := by
        unfold collectStep
        rw [empty]
      rw [step, Function.iterate_fixed step]
      exact ⟨inv, closed, .inl empty, fun _ h => h⟩
    · obtain ⟨next, closed', more, kept⟩ := inv.step bounded closed
      obtain ⟨inv', closed'', done, kept'⟩ := ih next closed'
      refine ⟨inv', closed'', ?_, fun x hx => kept' x (kept x hx)⟩
      rcases done with done | done
      · exact .inl done
      · refine .inr ?_
        have := more empty
        omega

/-- There are only `n` vertices to find. -/
theorem Collect.Inv.stack_eq_nil {st : Collect} (inv : st.Inv n g) (many : n ≤ st.members.length) :
    st.stack = [] := by
  have sub : (st.members ++ st.stack) ⊆ List.range n := by
    intro x hx
    exact List.mem_range.mpr (inv.bounded x hx)
  have le := (inv.nodup.subperm sub).length_le
  rw [List.length_append, List.length_range] at le
  exact List.length_eq_zero_iff.mp (by omega)

/-- What holds of the start and goes from a vertex to its predecessors holds of all that is
    collected. -/
theorem collect_inherits {P : ℕ → Prop} (back : ∀ u, P u → ∀ p ∈ pred u, P p) {k rounds : ℕ}
    {st : Collect} (h : ∀ x ∈ st.members ++ st.stack, P x) :
    ∀ x ∈ ((collectStep pred k)^[rounds] st).members ++ ((collectStep pred k)^[rounds] st).stack,
      P x := by
  have takeAll : ∀ (ps : List ℕ) (st : Collect), (∀ p ∈ ps, P p) →
      (∀ x ∈ st.members ++ st.stack, P x) → ∀ x ∈ (ps.foldl (Collect.take k) st).members ++
        (ps.foldl (Collect.take k) st).stack, P x := by
    intro ps
    induction ps with
    | nil => exact fun st _ h => h
    | cons p ps ih =>
      intro st hps h
      refine ih _ (fun q hq => hps q (List.mem_cons_of_mem _ hq)) ?_
      unfold Collect.take
      split
      · intro x hx
        rcases List.mem_append.mp hx with old | new
        · exact h x (List.mem_append_left _ old)
        · rcases List.mem_cons.mp new with rfl | old
          · exact hps x List.mem_cons_self
          · exact h x (List.mem_append_right _ old)
      · exact h
  induction rounds generalizing st with
  | zero => exact h
  | succ rounds ih =>
    rw [Function.iterate_succ_apply]
    refine ih ?_
    obtain ⟨stack, members, ids⟩ := st
    match stack with
    | [] => exact h
    | u :: rest =>
      have hu : P u := h u (List.mem_append_right _ List.mem_cons_self)
      refine takeAll (pred u) _ (back u hu) fun x hx => h x ?_
      simpa using hx

include bounded in
/-- The group of a start that has no number yet. -/
theorem collectFrom_new {start : ℕ} (hs : start < n) (new : g.ids start = none) :
    ∃ st : Collect, st.Inv n g ∧ st.Closed pred ∧ st.stack = [] ∧ start ∈ st.members ∧
      (∀ P : ℕ → Prop, P start → (∀ u, P u → ∀ p ∈ pred u, P p) → ∀ x ∈ st.members, P x) ∧
      collectFrom pred n g start = ⟨g.comps ++ [st.members], st.ids⟩ := by
  have first : Collect.Inv n g
      ⟨[start], [], Function.update g.ids start (some g.comps.length)⟩ := by
    refine ⟨List.nodup_singleton _, ?_, ?_, ?_⟩
    · intro x hx
      cases List.mem_singleton.mp hx
      exact hs
    · intro x hx
      cases List.mem_singleton.mp hx
      exact ⟨new, Function.update_self ..⟩
    · intro x hx
      exact Function.update_of_ne (fun eq => hx (List.mem_singleton.mpr eq)) _ _
  obtain ⟨end_, closed, done, kept⟩ := first.run bounded (by simp [Collect.Closed]) (k := n)
  have empty := done.elim id fun many => end_.stack_eq_nil (by simpa using many)
  refine ⟨_, end_, closed, empty, ?_, ?_, ?_⟩
  · have found := kept start (by simp)
    rwa [empty, List.append_nil] at found
  · intro P hP back x hx
    refine collect_inherits back ?_ x (List.mem_append_left _ hx)
    intro y hy
    cases List.mem_singleton.mp hy
    exact hP
  · unfold Kosaraju.collectFrom
    rw [new]
    rfl

include bounded in
theorem Groups.Inv.collectFrom (inv : g.Inv n pred) {start : ℕ} (hs : start < n) :
    (collectFrom pred n g start).Inv n pred ∧ (collectFrom pred n g start).ids start ≠ none ∧
      ∀ x, g.ids x ≠ none → (collectFrom pred n g start).ids x ≠ none := by
  by_cases known : (g.ids start).isSome = true
  · unfold Kosaraju.collectFrom
    rw [if_pos known]
    exact ⟨inv, Option.isSome_iff_ne_none.mp known, fun _ h => h⟩
  · have new : g.ids start = none := by simpa using known
    obtain ⟨st, end_, closed, empty, found, -, collected⟩ := collectFrom_new bounded hs new
    rw [collected]
    have nodup := end_.nodup
    have taken := end_.taken
    have others := end_.others
    have bound := end_.bounded
    rw [empty, List.append_nil] at nodup taken others bound
    have old : ∀ x k, g.ids x = some k → st.ids x = some k := by
      intro x k hx
      rw [← hx]
      refine others x fun mem => ?_
      rw [(taken x mem).1] at hx
      cases hx
    have getD : ∀ k, k ≠ g.comps.length →
        (g.comps ++ [st.members]).getD k [] = g.comps.getD k [] := by
      intro k hk
      rcases lt_or_gt_of_ne hk with lt | gt
      · simp [List.getD_eq_getElem?_getD, List.getElem?_append_left lt]
      · rw [List.getD_eq_default, List.getD_eq_default]
        · exact gt.le
        · simpa using gt
    have last : (g.comps ++ [st.members]).getD g.comps.length [] = st.members := by
      simp [List.getD_eq_getElem?_getD]
    have cases : ∀ x k, st.ids x = some k → g.ids x = some k ∧ k ≠ g.comps.length ∨
        x ∈ st.members ∧ k = g.comps.length := by
      intro x k hx
      by_cases mem : x ∈ st.members
      · rw [(taken x mem).2] at hx
        exact .inr ⟨mem, (Option.some.inj hx).symm⟩
      · rw [others x mem] at hx
        exact .inl ⟨hx, (inv.lt hx).ne⟩
    refine ⟨⟨?_, ?_, ?_, ?_, ?_⟩, ?_, ?_⟩
    · intro x k
      constructor
      · intro hx
        rcases cases x k hx with ⟨hx, ne⟩ | ⟨mem, rfl⟩
        · rw [getD k ne]
          exact (inv.mem x k).mp hx
        · rw [last]
          exact mem
      · intro hx
        by_cases hk : k = g.comps.length
        · subst hk
          rw [last] at hx
          exact (taken x hx).2
        · rw [getD k hk] at hx
          exact old x k ((inv.mem x k).mpr hx)
    · intro x k hx
      rcases cases x k hx with ⟨hx, -⟩ | ⟨mem, -⟩
      · exact inv.bounded x k hx
      · exact bound x mem
    · intro comp hcomp
      rcases List.mem_append.mp hcomp with h | h
      · exact inv.nodup comp h
      · cases List.mem_singleton.mp h
        exact nodup
    · intro comp hcomp
      rcases List.mem_append.mp hcomp with h | h
      · exact inv.nonempty comp h
      · cases List.mem_singleton.mp h
        exact List.ne_nil_of_mem found
    · intro x k hx p hp
      rcases cases x k hx with ⟨hx, -⟩ | ⟨mem, rfl⟩
      · obtain ⟨j, le, hj⟩ := inv.closed x k hx p hp
        exact ⟨j, le, old p j hj⟩
      · obtain ⟨j, hj⟩ := Option.ne_none_iff_exists'.mp (closed x mem p hp)
        refine ⟨j, ?_, hj⟩
        rcases cases p j hj with ⟨hp, -⟩ | ⟨-, rfl⟩
        · exact (inv.lt hp).le
        · exact le_refl _
    · show st.ids start ≠ none
      rw [(taken start found).2]
      exact Option.some_ne_none _
    · intro x hx
      obtain ⟨k, hk⟩ := Option.ne_none_iff_exists'.mp hx
      show st.ids x ≠ none
      rw [old x k hk]
      exact Option.some_ne_none _

include bounded in
theorem Groups.Inv.collectAll (inv : g.Inv n pred) {starts : List ℕ} (hs : ∀ x ∈ starts, x < n) :
    (starts.foldl (Kosaraju.collectFrom pred n) g).Inv n pred ∧
      (∀ x ∈ starts, (starts.foldl (Kosaraju.collectFrom pred n) g).ids x ≠ none) ∧
      ∀ x, g.ids x ≠ none → (starts.foldl (Kosaraju.collectFrom pred n) g).ids x ≠ none := by
  induction starts generalizing g with
  | nil => exact ⟨inv, by simp, fun _ h => h⟩
  | cons start starts ih =>
    rw [List.foldl_cons]
    obtain ⟨inv', seen, keeps⟩ := inv.collectFrom bounded (hs start List.mem_cons_self)
    obtain ⟨inv'', all, keeps'⟩ := ih inv' fun x hx => hs x (List.mem_cons_of_mem _ hx)
    refine ⟨inv'', ?_, fun x hx => keeps' x (keeps x hx)⟩
    intro x hx
    rcases List.mem_cons.mp hx with rfl | hx
    · exact keeps' x seen
    · exact all x hx

/-! ## The groups -/

variable {starts : List ℕ} (complete : starts.Perm (List.range n))

include bounded complete in
/-- Every vertex has a number. -/
theorem components_inv : (components pred n starts).Inv n pred ∧
    ∀ x < n, ∃ k, (components pred n starts).ids x = some k := by
  have start : Groups.Inv n pred ⟨[], fun _ => none⟩ := by
    refine ⟨?_, ?_, ?_, ?_, ?_⟩ <;> simp
  obtain ⟨inv, all, -⟩ := start.collectAll bounded
    fun x hx => List.mem_range.mp (complete.mem_iff.mp hx)
  refine ⟨inv, fun x hx => ?_⟩
  exact Option.ne_none_iff_exists'.mp (all x (complete.mem_iff.mpr (List.mem_range.mpr hx)))

include bounded complete in
theorem components_partition : (components pred n starts).comps.flatten.Perm (List.range n) := by
  obtain ⟨inv, total⟩ := components_inv bounded complete
  refine (List.perm_ext_iff_of_nodup ?_ List.nodup_range).mpr fun x => ?_
  · rw [List.nodup_flatten]
    refine ⟨inv.nodup, List.pairwise_iff_getElem.mpr ?_⟩
    intro i j hi hj lt x hx hx'
    have memI := (inv.mem x i).mpr (by rwa [List.getD_eq_getElem _ _ hi])
    have memJ := (inv.mem x j).mpr (by rwa [List.getD_eq_getElem _ _ hj])
    exact lt.ne (Option.some.inj (memI.symm.trans memJ))
  · rw [List.mem_flatten, List.mem_range]
    constructor
    · rintro ⟨comp, hcomp, hx⟩
      obtain ⟨k, hk, rfl⟩ := List.getElem_of_mem hcomp
      exact inv.bounded x k ((inv.mem x k).mpr (by rwa [List.getD_eq_getElem _ _ hk]))
    · intro hx
      obtain ⟨k, hk⟩ := total x hx
      have lt := inv.lt hk
      rw [inv.mem, List.getD_eq_getElem _ _ lt] at hk
      exact ⟨_, List.getElem_mem lt, hk⟩

include bounded complete in
/-- Numbers climb along the edges. -/
theorem components_forward {x k p : ℕ} (hx : (components pred n starts).ids x = some k)
    (hp : p ∈ pred x) : ∃ j ≤ k, (components pred n starts).ids p = some j :=
  (components_inv bounded complete).1.closed x k hx p hp

end SecondPass

end Kosaraju
