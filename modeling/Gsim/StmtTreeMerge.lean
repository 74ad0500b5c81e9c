/-
  Gsim/StmtTreeMerge.lean
  =======================
  **What merging one tree does to a statement tree.**

  `Merges` lists the four things that `merge` can do: nothing, take an assignment,
  share a when, append a new one.  Every fact about `merge` is an induction over it:
  the tree runs after the block (`Merges.exec`), the conditions stay steady, the order
  of what was there is kept, and the path that is returned lies after every new item
  (`Merges.covers`).
-/
import Gsim.StmtTree

namespace Gsim.StmtTree

open GuardedStatements

/-! ## The cases of a merge -/

/-- The statement that takes the assignment `a`, and what stood in its place. -/
inductive Grown (a : Leaf) : Block → Stmt Leaf ENode → Prop
  | fresh : Grown a [] (.node a)
  | node (b : Leaf) : Grown a [.node b] (.seq [b, a])
  | seq (as : List Leaf) : Grown a [.seq as] (.seq (as ++ [a]))

namespace Grown

variable {a : Leaf} {old : Block} {y : Stmt Leaf ENode}

theorem exec {σ : Type} (M : Meaning Leaf ENode σ) (h : Grown a old y) (s : σ) :
    y.exec M s = M.run a (GuardedStatements.exec M old s) := by
  cases h <;> simp

theorem items (h : Grown a old y) : y.items = GuardedStatements.items old ++ [.act a] := by
  cases h <;> simp

theorem beyond (h : Grown a old y) (p : List ℕ) : y.beyond p = [] := by
  cases h <;> rfl

theorem steady {touches : Leaf → ENode → Prop} (h : Grown a old y) : y.Steady touches := by
  cases h <;> simp

theorem ordered {r : Item Leaf ENode → Item Leaf ENode → Prop} (h : Grown a old y)
    (order : Ordered r old) (last : ∀ x ∈ GuardedStatements.items old, r x (.act a)) :
    y.Ordered r := by
  cases h with
  | fresh => trivial
  | node b => simpa using last (.act b) (by simp)
  | seq as =>
    rw [Stmt.ordered_seq, List.pairwise_append]
    refine ⟨order.1, List.pairwise_singleton _ _, ?_⟩
    intro b hb c hc
    rw [List.mem_singleton.mp hc]
    exact last (.act b) (by simpa using hb)

end Grown

theorem place_spec (a : Leaf) (S : Block) :
    ∃ pre old post y, S = pre ++ old ++ post ∧ (place a S).1 = pre ++ y :: post ∧
      (place a S).2 = pre.length ∧ Grown a old y ∧ (old = [] → post = []) := by
  induction S with
  | nil => exact ⟨[], [], [], .node a, rfl, rfl, rfl, .fresh, fun _ => rfl⟩
  | cons x S ih =>
    cases x with
    | node b => exact ⟨[], [.node b], S, _, rfl, rfl, rfl, .node b, fun h => nomatch h⟩
    | seq as => exact ⟨[], [.seq as], S, _, rfl, rfl, rfl, .seq as, fun h => nomatch h⟩
    | «when» c t f =>
      obtain ⟨pre, old, post, y, eq, placed, index, grown, last⟩ := ih
      refine ⟨.when c t f :: pre, old, post, y, ?_, ?_, ?_, grown, last⟩
      · rw [eq]
        rfl
      · simp [place, placed]
      · simp [place, index]

theorem insertLeaf_spec (S : Block) (limit : List ℕ) (a : Leaf) :
    ∃ pre old post y, dedupe a S = pre ++ old ++ post ∧
      (insertLeaf S limit a).1 = pre ++ y :: post ∧ (insertLeaf S limit a).2 = pre.length ∧
      Grown a old y ∧ (old = [] → post = []) ∧ (post ≠ [] → limit.headD 0 ≤ pre.length) := by
  obtain ⟨pre, old, post, y, eq, placed, index, grown, last⟩ :=
    place_spec a ((dedupe a S).drop (min (dedupe a S).length (limit.headD 0)))
  have split := List.take_append_drop (min (dedupe a S).length (limit.headD 0)) (dedupe a S)
  refine ⟨(dedupe a S).take (min (dedupe a S).length (limit.headD 0)) ++ pre, old, post, y,
    ?_, ?_, ?_, grown, last, ?_⟩
  · rw [List.append_assoc, List.append_assoc, ← List.append_assoc pre, ← eq, split]
  · rw [insertLeaf, placed, List.append_assoc]
  · rw [insertLeaf, index, List.length_append, List.length_take]
    simp
  · intro nonempty
    rw [List.length_append, List.length_take]
    -- a limit past the end leaves nothing behind the new assignment
    by_contra past
    have all : (dedupe a S).length ≤ limit.headD 0 := by omega
    rw [Nat.min_eq_left all, List.drop_length] at eq
    have := List.append_eq_nil_iff.mp eq.symm
    exact nonempty this.2

theorem findWhen_spec {c : ENode} {start i : ℕ} {S : Block} {j : ℕ} {c' : ENode} {T F : Block}
    (h : findWhen c start i S = some (j, c', T, F)) :
    ∃ pre post, S = pre ++ .when c' T F :: post ∧ j = i + pre.length ∧ start ≤ j ∧
      checkCondENodeSame c c' = true := by
  induction S generalizing i with
  | nil => cases h
  | cons x S ih =>
    have skip : findWhen c start (i + 1) S = some (j, c', T, F) →
        ∃ pre post, x :: S = pre ++ .when c' T F :: post ∧ j = i + pre.length ∧ start ≤ j ∧
          checkCondENodeSame c c' = true := by
      intro h
      obtain ⟨pre, post, eq, index, le, same⟩ := ih h
      refine ⟨x :: pre, post, ?_, ?_, le, same⟩
      · rw [eq]
        rfl
      · rw [index, List.length_cons]
        omega
    cases x with
    | node b => exact skip h
    | seq as => exact skip h
    | «when» d t f =>
      rw [findWhen] at h
      split at h
      · rename_i cond
        simp only [Bool.and_eq_true, decide_eq_true_eq] at cond
        cases h
        exact ⟨[], S, rfl, rfl, cond.2, cond.1⟩
      · exact skip h

/-- What merging a tree into a block can do; the arguments are those of `merge` and its
two results. -/
inductive Merges : Guarded → Block → List ℕ → ℕ → List ℕ → Block → List ℕ → Prop
  | absent {S : Block} {limit nodePath : List ℕ} {depth : ℕ} :
    Merges .absent S limit depth nodePath S nodePath
  | leaf {a : Leaf} {S pre old post : Block} {y : Stmt Leaf ENode} {limit nodePath : List ℕ}
    {depth : ℕ} (deduped : dedupe a S = pre ++ old ++ post) (grown : Grown a old y)
    (last : old = [] → post = []) (after : post ≠ [] → limit.headD 0 ≤ pre.length) :
    Merges (.leaf a) S limit depth nodePath (pre ++ y :: post)
      (addDepthPath nodePath depth pre.length)
  | shared {c c' : ENode} {t f : Guarded} {pre post T F T' F' : Block}
    {limit nodePath path₁ path₂ : List ℕ} {depth : ℕ}
    (same : checkCondENodeSame c c' = true) (after : limit.headD 0 ≤ pre.length)
    (onFalse : Merges f F (if limit.headD 0 < pre.length then [] else limit.tail) (depth + 1)
      (addDepthPath nodePath depth pre.length) F' path₁)
    (onTrue : Merges t T (if limit.headD 0 < pre.length then [] else limit.tail) (depth + 1)
      path₁ T' path₂) :
    Merges (.when c t f) (pre ++ .when c' T F :: post) limit depth nodePath
      (pre ++ .when c' T' F' :: post) path₂
  | append {c : ENode} {t f : Guarded} {S : Block} {limit nodePath : List ℕ} {depth : ℕ} :
    Merges (.when c t f) S limit depth nodePath (S ++ [.when c t.toBlock f.toBlock])
      (addSubPath nodePath depth (whenTreePath S.length t f))

theorem merge_merges (t : Guarded) (S : Block) (limit : List ℕ) (depth : ℕ) (nodePath : List ℕ) :
    Merges t S limit depth nodePath (merge t S limit depth nodePath).1
      (merge t S limit depth nodePath).2 := by
  induction t generalizing S limit depth nodePath with
  | absent => exact .absent
  | leaf a =>
    obtain ⟨pre, old, post, y, eq, block, index, grown, last, after⟩ := insertLeaf_spec S limit a
    rw [merge, block, index]
    exact .leaf eq grown last after
  | «when» c t f iht ihf =>
    rw [merge]
    cases found : findWhen c (limit.headD 0) 0 S with
    | none => exact .append
    | some hit =>
      obtain ⟨i, c', T, F⟩ := hit
      obtain ⟨pre, post, rfl, index, le, same⟩ := findWhen_spec found
      rw [Nat.zero_add] at index
      subst index
      have onFalse := ihf F (if limit.headD 0 < pre.length then [] else limit.tail) (depth + 1)
        (addDepthPath nodePath depth pre.length)
      have replaced : ∀ x : Stmt Leaf ENode,
          (pre ++ .when c' T F :: post).set pre.length x = pre ++ x :: post := by
        intro x
        simp
      simp only [replaced]
      exact .shared same le onFalse (iht T _ (depth + 1) _)

theorem eraseAssigned_sublist (n : NodeId) (S : Block) : (eraseAssigned n S).Sublist S := by
  fun_induction eraseAssigned n S with
  | case1 => exact List.Sublist.refl _
  | case2 a h => exact List.nil_sublist _
  | case3 a h => exact List.Sublist.refl _
  | case4 a x S h ih => exact (ih.cons_cons x).cons _
  | case5 a x S h ih => exact ih.cons_cons _
  | case6 x S _ _ ih => exact ih.cons_cons _

theorem dedupe_sublist (a : Leaf) (S : Block) : (dedupe a S).Sublist S := by
  rw [dedupe]
  split
  · exact eraseAssigned_sublist _ S
  · exact List.Sublist.refl S

theorem Merges.items_subset {t : Guarded} {S S' : Block} {limit path path' : List ℕ} {depth : ℕ}
    (h : Merges t S limit depth path S' path') {x : Item Leaf ENode} (hx : x ∈ items S') :
    x ∈ items S ∨ x ∈ t.items := by
  induction h with
  | absent => exact .inl hx
  | @leaf a S pre old post y _ _ _ deduped grown _ _ =>
    have kept : x ∈ items (pre ++ old ++ post) → x ∈ items S := by
      intro hx
      rw [← deduped] at hx
      exact items_sublist (dedupe_sublist a S) hx
    simp only [items_append, items_cons, grown.items, List.mem_append, List.mem_singleton] at hx kept
    rcases hx with hx | (hx | rfl) | hx
    · exact .inl (kept (.inl (.inl hx)))
    · exact .inl (kept (.inl (.inr hx)))
    · exact .inr (List.mem_singleton_self _)
    · exact .inl (kept (.inr hx))
  | shared _ _ _ _ ihf iht =>
    simp only [items_append, items_cons, Stmt.items_when, Tree.items, List.mem_append,
      List.mem_cons] at hx ⊢
    tauto
  | append =>
    simp only [items_append, items_cons, Stmt.items_when, Tree.items_toBlock, Tree.items, items_nil,
      List.mem_append, List.mem_cons, List.append_nil] at hx ⊢
    exact hx

/-! ## Paths -/

theorem path_append_le {l p q : List ℕ} : l ++ p ≤ l ++ q ↔ p ≤ q := by
  induction l with
  | nil => rfl
  | cons k l ih => simp [path_cons_le, ih]

theorem addDepthPath_cons (x : ℕ) (path : List ℕ) (depth i : ℕ) :
    addDepthPath (x :: path) (depth + 1) i = x :: addDepthPath path depth i := by
  simp only [addDepthPath, List.length_cons, Nat.add_le_add_iff_right, List.getD_cons_succ,
    List.take_succ_cons]
  split
  · rfl
  · split <;> rfl

theorem addDepthPath_covers {l path : List ℕ} (le : l ≤ path) (len : l.length ≤ path.length)
    (i : ℕ) : l ++ [i] ≤ addDepthPath path l.length i := by
  induction l generalizing path with
  | nil =>
    cases path with
    | nil => exact le_refl _
    | cons x path =>
      simp only [addDepthPath, List.length_cons, List.length_nil, List.getD_cons_zero,
        List.take_zero, List.nil_append]
      rw [if_neg (by omega)]
      split
      · exact le_refl _
      · refine path_cons_le.mpr ?_
        rcases Nat.lt_or_ge i x with lt | ge
        · exact .inl lt
        · exact .inr ⟨by omega, path_nil_le _⟩
  | cons k l ih =>
    cases path with
    | nil => exact absurd len (by simp)
    | cons x path =>
      rw [List.length_cons, addDepthPath_cons, List.cons_append]
      rcases path_cons_le.mp le with lt | ⟨rfl, tail⟩
      · exact path_cons_le.mpr (.inl lt)
      · exact path_cons_le.mpr (.inr ⟨rfl, ih tail (Nat.le_of_succ_le_succ len)⟩)

theorem le_addDepthPath {path : List ℕ} {depth : ℕ} (len : depth ≤ path.length) (i : ℕ) :
    path ≤ addDepthPath path depth i := by
  induction depth generalizing path with
  | zero =>
    cases path with
    | nil => exact path_nil_le _
    | cons x path =>
      simp only [addDepthPath, List.length_cons, List.getD_cons_zero, List.take_zero,
        List.nil_append]
      rw [if_neg (by omega)]
      split
      · rename_i lt
        exact path_cons_le.mpr (.inl lt)
      · exact le_refl _
  | succ depth ih =>
    cases path with
    | nil => exact absurd len (by simp)
    | cons x path =>
      rw [addDepthPath_cons]
      exact path_cons_le.mpr (.inr ⟨rfl, ih (Nat.le_of_succ_le_succ len)⟩)

theorem length_addDepthPath {path : List ℕ} {depth : ℕ} (len : depth ≤ path.length) (i : ℕ) :
    depth + 1 ≤ (addDepthPath path depth i).length := by
  unfold addDepthPath
  split
  · rw [List.length_append, List.length_singleton]
    omega
  · split
    · rw [List.length_append, List.length_take, List.length_singleton]
      omega
    · omega

theorem addSubPath_spec {l path : List ℕ} (le : l ≤ path) (len : l.length ≤ path.length)
    (subPath : List ℕ) :
    l ++ subPath ≤ addSubPath path l.length subPath ∧ path ≤ addSubPath path l.length subPath ∧
      l.length ≤ (addSubPath path l.length subPath).length := by
  induction subPath generalizing l path with
  | nil =>
    rw [List.append_nil]
    exact ⟨le, le_refl _, len⟩
  | cons x subPath ih =>
    have longer : (l ++ [x]).length = l.length + 1 := by simp
    have step := ih (addDepthPath_covers le len x)
      (by rw [longer]; exact length_addDepthPath len x)
    rw [longer, List.append_assoc] at step
    exact ⟨step.1, le_trans (le_addDepthPath len x) step.2.1, by rw [addSubPath]; omega⟩

theorem Merges.path_le {t : Guarded} {S S' : Block} {limit path path' : List ℕ} {depth : ℕ}
    (h : Merges t S limit depth path S' path') (len : depth ≤ path.length) :
    path ≤ path' ∧ depth ≤ path'.length := by
  induction h with
  | absent => exact ⟨le_refl _, len⟩
  | leaf => exact ⟨le_addDepthPath len _, Nat.le_of_succ_le (length_addDepthPath len _)⟩
  | shared _ _ _ _ ihf iht =>
    obtain ⟨le₁, len₁⟩ := ihf (length_addDepthPath len _)
    obtain ⟨le₂, len₂⟩ := iht len₁
    exact ⟨(le_addDepthPath len _).trans (le₁.trans le₂), Nat.le_of_succ_le len₂⟩
  | @append c t f S limit path depth =>
    -- any path of that length will do
    have shorter : path.take depth ≤ path := by
      conv_rhs => rw [← List.take_append_drop depth path]
      conv_lhs => rw [← List.append_nil (path.take depth)]
      exact path_append_le.mpr (path_nil_le _)
    have length : (path.take depth).length = depth := by simp [len]
    have := addSubPath_spec shorter (by rw [length]; exact len) (whenTreePath S.length t f)
    rw [length] at this
    exact this.2

/-- How many sequences lie above the deepest assignment of a tree. -/
def height : Guarded → ℕ
  | .absent => 0
  | .leaf _ => 1
  | .when _ t f => 1 + max (height t) (height f)

theorem addDepthPath_zeros (n m depth : ℕ) :
    ∃ m', addDepthPath (n :: List.replicate m 0) (depth + 1) 0 = n :: List.replicate m' 0 ∧
      m ≤ m' ∧ min (m + 1) (depth + 1) ≤ m' := by
  rw [addDepthPath_cons]
  unfold addDepthPath
  rw [List.length_replicate]
  split
  · refine ⟨m + 1, ?_, by omega, by omega⟩
    rw [List.replicate_succ']
  · rw [if_neg (by simp [List.getD_eq_getElem?_getD, List.getElem?_replicate])]
    exact ⟨m, rfl, le_refl m, by omega⟩

theorem generatePath_zeros (t : Guarded) (n m depth : ℕ) (deep : depth ≤ m) :
    ∃ m', generatePath (depth + 2) t (n :: List.replicate m 0) = n :: List.replicate m' 0 ∧
      m ≤ m' ∧ depth + height t ≤ m' := by
  induction t generalizing m depth with
  | absent => exact ⟨m, rfl, le_refl m, deep⟩
  | leaf a =>
    obtain ⟨m', eq, le, reach⟩ := addDepthPath_zeros n m (depth + 1)
    exact ⟨m', eq, le, by rw [height]; omega⟩
  | «when» c t f iht ihf =>
    obtain ⟨m₁, eq₁, le₁, reach₁⟩ := addDepthPath_zeros n m (depth + 1)
    obtain ⟨m₂, eq₂, le₂, reach₂⟩ := ihf m₁ (depth + 1) (by omega)
    obtain ⟨m₃, eq₃, le₃, reach₃⟩ := iht m₂ (depth + 1) (by omega)
    refine ⟨m₃, ?_, by omega, by rw [height]; omega⟩
    rw [generatePath, eq₁, eq₂, eq₃]

theorem whenTreePath_zeros (n : ℕ) (t f : Guarded) :
    ∃ m, whenTreePath n t f = n :: List.replicate m 0 ∧ height t ≤ m ∧ height f ≤ m := by
  obtain ⟨m₁, eq₁, -, reach₁⟩ := generatePath_zeros f n 0 0 (le_refl 0)
  obtain ⟨m₂, eq₂, le₂, reach₂⟩ := generatePath_zeros t n m₁ 0 (Nat.zero_le _)
  refine ⟨m₂, ?_, by omega, by omega⟩
  have root : addDepthPath [] 0 n = n :: List.replicate 0 0 := rfl
  rw [whenTreePath, root, eq₁, eq₂]

/-- The items of a new tree lie before the path of as many zeros as it is high. -/
theorem beyond_toBlock {t : Guarded} {p : List ℕ} {x : Item Leaf ENode}
    (hx : x ∈ beyond p t.toBlock) {m : ℕ} (high : height t ≤ m) : ¬ List.replicate m 0 ≤ p := by
  induction t generalizing p m with
  | absent => simp [Tree.toBlock] at hx
  | leaf a =>
    obtain ⟨m, rfl⟩ := Nat.exists_eq_add_of_le' high
    cases p with
    | nil => exact path_not_cons_le_nil _ _
    | cons k p => cases k <;> simp [Tree.toBlock, Stmt.beyond] at hx
  | «when» c t f iht ihf =>
    rw [height] at high
    obtain ⟨m, rfl⟩ : ∃ m', m = m' + 1 := ⟨m - 1, by omega⟩
    cases p with
    | nil => exact path_not_cons_le_nil _ _
    | cons k p =>
      cases k with
      | zero =>
        simp only [Tree.toBlock, beyond_zero, Stmt.beyond, items_nil, List.append_nil,
          List.mem_append] at hx
        intro le
        rcases path_cons_le.mp le with lt | ⟨-, le⟩
        · exact absurd lt (lt_irrefl 0)
        · rcases hx with hx | hx
          · exact iht hx (by omega) le
          · exact ihf hx (by omega) le
      | succ k => simp [Tree.toBlock] at hx

/-- Where an assignment was put: nothing else lies later than before. -/
theorem Grown.mem_beyond {a : Leaf} {old pre post : Block} {y : Stmt Leaf ENode}
    (grown : Grown a old y) (last : old = [] → post = []) {p : List ℕ} {x : Item Leaf ENode}
    (hx : x ∈ GuardedStatements.beyond p (pre ++ y :: post)) :
    x ∈ GuardedStatements.beyond p (pre ++ old ++ post) ∨
      (x = .act a ∧ ¬ [pre.length] ≤ p) := by
  cases p with
  | nil =>
    simp only [beyond_nil_path, items_append, items_cons, grown.items, List.mem_append,
      List.mem_singleton] at hx ⊢
    have := path_not_cons_le_nil pre.length []
    tauto
  | cons k p =>
    have later : k < pre.length → ¬ [pre.length] ≤ k :: p := by
      intro lt le
      rcases path_cons_le.mp le with h | ⟨h, -⟩
      · omega
      · omega
    rw [mem_beyond_append, grown.beyond, grown.items] at hx
    cases old with
    | nil =>
      rw [last rfl] at hx ⊢
      simp only [items_nil, List.nil_append, List.mem_singleton, List.not_mem_nil, or_false,
        beyond_empty, and_false, List.append_nil] at hx ⊢
      rcases hx with ⟨lt, hx | hx⟩
      · exact .inl hx
      · exact .inr ⟨hx, later lt⟩
    | cons z zs =>
      obtain rfl : zs = [] := by cases grown <;> rfl
      have none : z.beyond p = [] := by cases grown <;> rfl
      simp only [List.append_assoc, List.singleton_append]
      rw [mem_beyond_append, none]
      simp only [items_cons, items_nil, List.append_nil, List.mem_append, List.mem_singleton,
        List.not_mem_nil, false_or] at hx ⊢
      tauto

/-- A when whose branches changed: what lies later than before is in a branch. -/
theorem mem_beyond_shared {pre post T F T' F' : Block} {c : ENode} {x : Item Leaf ENode}
    (later : List ℕ → Prop) (anti : ∀ p q, p ≤ q → later q → later p)
    (onTrue : ∀ q, x ∈ beyond q T' → x ∈ beyond q T ∨ later (pre.length :: q))
    (onFalse : ∀ q, x ∈ beyond q F' → x ∈ beyond q F ∨ later (pre.length :: q)) {p : List ℕ}
    (hx : x ∈ beyond p (pre ++ .when c T' F' :: post)) :
    x ∈ beyond p (pre ++ .when c T F :: post) ∨ later p := by
  have body : x ∈ (Stmt.when c T' F').items →
      x ∈ (Stmt.when c T F).items ∨ later [pre.length] := by
    intro hx
    simp only [Stmt.items_when, List.mem_cons, List.mem_append] at hx ⊢
    rcases hx with hx | hx | hx
    · exact .inl (.inl hx)
    · exact (onTrue [] hx).imp (fun hx => .inr (.inl hx)) id
    · exact (onFalse [] hx).imp (fun hx => .inr (.inr hx)) id
  cases p with
  | nil =>
    simp only [beyond_nil_path, items_append, items_cons, List.mem_append] at hx ⊢
    rcases hx with hx | hx | hx
    · exact .inl (.inl hx)
    · exact (body hx).imp (fun hx => .inr (.inl hx)) (anti _ _ (path_nil_le _))
    · exact .inl (.inr (.inr hx))
  | cons k p =>
    rw [mem_beyond_append] at hx ⊢
    rcases hx with ⟨lt, hx | hx | hx⟩ | ⟨rfl, hx | hx⟩ | hx
    · exact .inl (.inl ⟨lt, .inl hx⟩)
    · exact (body hx).imp (fun hx => .inl ⟨lt, .inr (.inl hx)⟩)
        (anti _ _ (path_cons_le.mpr (.inl lt)))
    · exact .inl (.inl ⟨lt, .inr (.inr hx)⟩)
    · rcases List.mem_append.mp hx with hx | hx
      · exact (onTrue p hx).imp (fun hx => .inr (.inl ⟨rfl, .inl (List.mem_append_left _ hx)⟩)) id
      · exact (onFalse p hx).imp (fun hx => .inr (.inl ⟨rfl, .inl (List.mem_append_right _ hx)⟩)) id
    · exact .inl (.inr (.inl ⟨rfl, .inr hx⟩))
    · exact .inl (.inr (.inr hx))

/-- A when that was appended lies before the path of the new tree. -/
theorem mem_beyond_append_when {S : Block} {c : ENode} {t f : Guarded} {p : List ℕ}
    {x : Item Leaf ENode} (hx : x ∈ beyond p (S ++ [.when c t.toBlock f.toBlock])) :
    x ∈ beyond p S ∨ (x ∈ (Tree.when c t f).items ∧ ¬ whenTreePath S.length t f ≤ p) := by
  obtain ⟨m, eq, highT, highF⟩ := whenTreePath_zeros S.length t f
  rw [eq]
  have new : (Stmt.when c t.toBlock f.toBlock).items = (Tree.when c t f).items := by
    simp [Tree.items]
  cases p with
  | nil =>
    simp only [beyond_nil_path, items_append, items_cons, new, items_nil, List.append_nil,
      List.mem_append] at hx ⊢
    exact hx.imp id fun hx => ⟨hx, path_not_cons_le_nil _ _⟩
  | cons k p =>
    rw [mem_beyond_append, new] at hx
    rcases hx with ⟨lt, hx | hx | hx⟩ | ⟨rfl, hx | hx⟩ | ⟨-, hx⟩
    · exact .inl hx
    · refine .inr ⟨hx, fun reached => ?_⟩
      rcases path_cons_le.mp reached with h | ⟨h, -⟩ <;> omega
    · exact absurd hx (List.not_mem_nil)
    · refine .inr ⟨new ▸ Stmt.beyond_subset_items p _ hx, fun reached => ?_⟩
      rcases path_cons_le.mp reached with lt | ⟨-, reached⟩
      · exact absurd lt (lt_irrefl _)
      · rcases List.mem_append.mp hx with hx | hx
        · exact beyond_toBlock hx highT reached
        · exact beyond_toBlock hx highF reached
    · exact absurd hx (List.not_mem_nil)
    · rw [beyond_empty] at hx
      exact absurd hx (List.not_mem_nil)

/-- Every item that is not where it was is a new one and lies before the path
returned.  `l` is the place of the sequence. -/
theorem Merges.covers {t : Guarded} {S S' : Block} {limit path path' : List ℕ} {depth : ℕ}
    (h : Merges t S limit depth path S' path') {l : List ℕ} (here : l.length = depth)
    (le : l ≤ path) (len : depth ≤ path.length) {p : List ℕ} {x : Item Leaf ENode}
    (hx : x ∈ beyond p S') :
    x ∈ beyond p S ∨ (x ∈ t.items ∧ ¬ path' ≤ l ++ p) := by
  induction h generalizing l p with
  | absent => exact .inl hx
  | @leaf a S pre old post y _ path _ deduped grown last _ =>
    subst here
    rcases grown.mem_beyond last hx with hx | ⟨rfl, later⟩
    · rw [← deduped] at hx
      exact .inl (beyond_sublist (dedupe_sublist a S) p hx)
    · refine .inr ⟨List.mem_singleton_self _, fun reached => later ?_⟩
      exact path_append_le.mp ((addDepthPath_covers le len _).trans reached)
  | @shared c c' t f pre post T F T' F' limit path path₁ path₂ depth _ _ onFalse onTrue ihf iht =>
    subst here
    have inside : (l ++ [pre.length]).length = l.length + 1 := by simp
    have le₀ := addDepthPath_covers le len pre.length
    have len₀ := length_addDepthPath len pre.length
    obtain ⟨le₁, len₁⟩ := onFalse.path_le len₀
    obtain ⟨le₂, -⟩ := onTrue.path_le len₁
    have assoc : ∀ q, l ++ (pre.length :: q) = l ++ [pre.length] ++ q := by simp
    refine mem_beyond_shared (fun q => x ∈ (Tree.when c t f).items ∧ ¬ path₂ ≤ l ++ q) ?_ ?_ ?_ hx
    · rintro p q pq ⟨hx, later⟩
      exact ⟨hx, fun reached => later (reached.trans (path_append_le.mpr pq))⟩
    · intro q hx
      rw [assoc]
      rcases iht inside (le₀.trans le₁) len₁ hx with hx | ⟨hx, later⟩
      · exact .inl hx
      · exact .inr ⟨List.mem_cons_of_mem _ (List.mem_append_left _ hx), later⟩
    · intro q hx
      rw [assoc]
      rcases ihf inside le₀ len₀ hx with hx | ⟨hx, later⟩
      · exact .inl hx
      · refine .inr ⟨List.mem_cons_of_mem _ (List.mem_append_right _ hx), fun reached => ?_⟩
        exact later (le₂.trans reached)
  | @append c t f S limit path depth =>
    subst here
    have reach := (addSubPath_spec le len (whenTreePath S.length t f)).1
    rcases mem_beyond_append_when hx with hx | ⟨hx, later⟩
    · exact .inl hx
    · exact .inr ⟨hx, fun reached => later (path_append_le.mp (reach.trans reached))⟩

end Gsim.StmtTree
