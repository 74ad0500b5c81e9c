/-
  Gsim/StmtTreeExec.lean
  ======================
  **A merged tree runs after the block.**

  If everything after the limiting path is independent of a tree, running the merged
  block is running the block and then the tree (`Merges.exec`): the tree moves to the
  end past what is independent of it, a when can be shared because nothing in its
  branches touches its condition, and an erased assignment is overwritten unread.
-/
import Gsim.StmtTreeMerge

namespace Gsim.StmtTree

open GuardedStatements

/-! ## What lies after the limit -/

theorem items_post_beyond {pre post : Block} {z : Stmt Leaf ENode} {limit : List ℕ}
    (after : limit.headD 0 ≤ pre.length) : items post ⊆ beyond limit (pre ++ z :: post) := by
  intro x hx
  cases limit with
  | nil => simp [hx]
  | cons k p =>
    rw [mem_beyond_append]
    rcases Nat.lt_or_eq_of_le after with lt | eq
    · exact .inl ⟨lt, .inr (.inr hx)⟩
    · exact .inr (.inl ⟨eq, .inr hx⟩)

/-- The limit inside a when that lies not before the limit. -/
theorem branch_beyond {pre post T F : Block} {c : ENode} {limit : List ℕ}
    (after : limit.headD 0 ≤ pre.length) {x : Item Leaf ENode}
    (hx : x ∈ beyond (if limit.headD 0 < pre.length then [] else limit.tail) T ∨
      x ∈ beyond (if limit.headD 0 < pre.length then [] else limit.tail) F) :
    x ∈ beyond limit (pre ++ .when c T F :: post) := by
  have inside : x ∈ items T ∨ x ∈ items F → x ∈ (Stmt.when c T F).items := by
    intro hx
    simpa using .inr hx
  have whole : x ∈ items T ∨ x ∈ items F → x ∈ beyond [] (pre ++ .when c T F :: post) := by
    intro hx
    rw [beyond_nil_path, items_append, items_cons]
    exact List.mem_append_right _ (List.mem_append_left _ (inside hx))
  rcases Nat.lt_or_eq_of_le after with lt | eq
  · rw [if_pos lt] at hx
    cases limit with
    | nil => exact whole hx
    | cons k p => exact mem_beyond_append.mpr (.inl ⟨lt, .inr (.inl (inside hx))⟩)
  · rw [if_neg (by rw [eq]; exact lt_irrefl _)] at hx
    cases limit with
    | nil => exact whole hx
    | cons k p => exact mem_beyond_append.mpr (.inr (.inl ⟨eq, .inl (List.mem_append.mpr hx)⟩))

/-! ## The language of the leaves -/

/-- The new assignment `a` overwrites the assignment `b`. -/
structure Replaces (a b : Leaf) : Prop where
  scalar : a.lval.isArray = false
  valid : a.rval.isInvalid = false
  node : b.lval.node = a.lval.node

/-- A meaning of leaves and conditions that fits the statement tree: a leaf writes the
node of its left-hand side, and conditions that compare equal are equal. -/
structure Fits {W : Type} (G : Language Leaf ENode NodeId W) : Prop where
  target : ∀ a, G.target a = a.lval.node
  holds : ∀ c c' s, checkCondENodeSame c c' = true → G.holds c s = G.holds c' s
  guardReads : ∀ c c' v, checkCondENodeSame c c' = true → (G.guardReads c v ↔ G.guardReads c' v)

section Exec

variable {W : Type} {G : Language Leaf ENode NodeId W}

/-- The assignment writes what the condition reads. -/
def Touches (G : Language Leaf ENode NodeId W) (a : Leaf) (c : ENode) : Prop :=
  G.guardReads c (G.target a)

theorem exec_eraseAssigned (fits : Fits G) {n : NodeId} {S : Block}
    (unread : Ordered (fun x y => ∀ b, x = .act b → b.lval.node = n → ¬ G.Reads y n) S)
    {s s' : NodeId → W} (agree : Language.AgreeOff n s s')
    (same : s = s' ∨ ∀ y ∈ items S, ¬ G.Reads y n) :
    Language.AgreeOff n (exec G.meaning (eraseAssigned n S) s) (exec G.meaning S s') := by
  -- a statement that is kept
  have keep : ∀ (x : Stmt Leaf ENode) (S : Block) {s s' : NodeId → W},
      Language.AgreeOff n s s' → (s = s' ∨ ∀ y ∈ items (x :: S), ¬ G.Reads y n) →
      Language.AgreeOff n (x.exec G.meaning s) (x.exec G.meaning s') ∧
        (x.exec G.meaning s = x.exec G.meaning s' ∨ ∀ y ∈ items S, ¬ G.Reads y n) := by
    intro x S s s' agree same
    rcases same with rfl | none
    · exact ⟨fun _ _ => rfl, .inl rfl⟩
    · refine ⟨?_, .inr fun y hy => none y (List.mem_append_right _ hy)⟩
      have := G.exec_agreeOff (S := [x]) (fun y hy => none y (by simp at hy; simp [hy])) agree
      simpa using this
  -- a statement that is erased
  have drop : ∀ (a : Leaf), a.lval.node = n → ∀ {s s' : NodeId → W}, Language.AgreeOff n s s' →
      Language.AgreeOff n s (G.meaning.run a s') := by
    intro a ha s s' agree v hv
    rw [G.run_of_ne (by rw [fits.target, ha]; exact hv)]
    exact agree v hv
  fun_induction eraseAssigned n S generalizing s s' with
  | case1 => exact agree
  | case2 a ha => exact drop a ha agree
  | case3 a ha => exact (keep (.node a) [] agree same).1
  | case4 a x S ha ih =>
    have free : ∀ y ∈ items (x :: S), ¬ G.Reads y n := fun y hy =>
      unread.2.1 (.act a) (by simp) y hy a rfl ha
    obtain ⟨agree', same'⟩ := keep x S (drop a ha agree) (.inr free)
    exact ih unread.2.2.2.2 agree' same'
  | case5 a x S ha ih =>
    obtain ⟨agree', same'⟩ := keep (.node a) (x :: S) agree same
    exact ih unread.2.2 agree' same'
  | case6 x S _ _ ih =>
    obtain ⟨agree', same'⟩ := keep x S agree same
    exact ih unread.2.2 agree' same'

/-- What a tree asks of the block it is merged into. -/
structure Admissible (G : Language Leaf ENode NodeId W) (t : Guarded) (S : Block)
    (limit : List ℕ) : Prop where
  steady : Steady (Touches G) S
  free : ∀ y ∈ beyond limit S, ∀ x ∈ t.items, G.Independent y x
  overwrites : ∀ a, Item.act a ∈ t.items → ∀ b, Replaces a b → G.overwrites a
  unread : Ordered (fun x y => ∀ a b, Item.act a ∈ t.items → x = .act b → Replaces a b →
    ¬ G.Reads y a.lval.node) S
  fresh : ∀ a b, Item.act a ∈ t.items → Item.act b ∈ items S → Replaces a b →
    ¬ G.reads a a.lval.node

theorem exec_dedupe (fits : Fits G) {a : Leaf} {S : Block} {limit : List ℕ}
    (adm : Admissible G (.leaf a) S limit) (s : NodeId → W) :
    G.meaning.run a (exec G.meaning (dedupe a S) s) = G.meaning.run a (exec G.meaning S s) := by
  unfold dedupe
  split
  · rename_i erases
    simp only [Bool.and_eq_true, Bool.not_eq_true'] at erases
    have mem : Item.act a ∈ (Tree.leaf a : Guarded).items := List.mem_singleton_self _
    by_cases hit : ∃ b, Item.act b ∈ items S ∧ b.lval.node = a.lval.node
    · obtain ⟨b, hb, node⟩ := hit
      have replaces : Replaces a b := ⟨erases.1, erases.2, node⟩
      have agree : Language.AgreeOff a.lval.node
          (exec G.meaning (eraseAssigned a.lval.node S) s) (exec G.meaning S s) :=
        exec_eraseAssigned fits
          (adm.unread.imp fun x y h b hx node => h a b mem hx ⟨erases.1, erases.2, node⟩)
          (fun _ _ => rfl) (.inl rfl)
      refine G.run_eq_of_agreeOff (adm.overwrites a mem b replaces) ?_ ?_
      · rw [fits.target]
        exact adm.fresh a b mem hb replaces
      · rw [fits.target]
        exact agree
    · -- nothing is erased
      have kept : eraseAssigned a.lval.node S = S := by
        have miss : ∀ b, Item.act b ∈ items S → b.lval.node ≠ a.lval.node :=
          fun b hb node => hit ⟨b, hb, node⟩
        clear hit adm
        fun_induction eraseAssigned a.lval.node S with
        | case1 => rfl
        | case2 b hb => exact absurd hb (miss b (by simp))
        | case3 b hb => rfl
        | case4 b x S hb ih => exact absurd hb (miss b (by simp))
        | case5 b x S hb ih => rw [ih fun b hb => miss b (List.mem_append_right _ hb)]
        | case6 x S _ _ ih => rw [ih fun b hb => miss b (List.mem_append_right _ hb)]
      rw [kept]
  · rfl

theorem Admissible.branch {c c' : ENode} {t f : Guarded} {pre post T F : Block} {limit : List ℕ}
    (adm : Admissible G (.when c t f) (pre ++ .when c' T F :: post) limit)
    (after : limit.headD 0 ≤ pre.length) :
    Admissible G t T (if limit.headD 0 < pre.length then [] else limit.tail) ∧
      Admissible G f F (if limit.headD 0 < pre.length then [] else limit.tail) := by
  have steady := (steady_append.mp adm.steady).2.1
  have unread := (ordered_append.mp adm.unread).2.2.1
  have left : ∀ {x}, x ∈ t.items → x ∈ (Tree.when c t f).items := fun hx =>
    List.mem_cons_of_mem _ (List.mem_append_left _ hx)
  have right : ∀ {x}, x ∈ f.items → x ∈ (Tree.when c t f).items := fun hx =>
    List.mem_cons_of_mem _ (List.mem_append_right _ hx)
  have inside : ∀ {x}, x ∈ items T ∨ x ∈ items F → x ∈ items (pre ++ .when c' T F :: post) := by
    intro x hx
    simp only [items_append, items_cons, Stmt.items_when, List.mem_append, List.mem_cons]
    exact .inr (.inl (.inr hx))
  constructor
  · exact {
      steady := steady.2.1
      free := fun y hy x hx => adm.free y (branch_beyond after (.inl hy)) x (left hx)
      overwrites := fun a ha => adm.overwrites a (left ha)
      unread := unread.2.1.imp fun x y h a b ha => h a b (left ha)
      fresh := fun a b ha hb => adm.fresh a b (left ha) (inside (.inl hb)) }
  · exact {
      steady := steady.2.2
      free := fun y hy x hx => adm.free y (branch_beyond after (.inr hy)) x (right hx)
      overwrites := fun a ha => adm.overwrites a (right ha)
      unread := unread.2.2.imp fun x y h a b ha => h a b (right ha)
      fresh := fun a b ha hb => adm.fresh a b (right ha) (inside (.inr hb)) }

/-- Running the merged block is running the block and then the tree. -/
theorem Merges.exec (fits : Fits G) {t : Guarded} {S S' : Block} {limit path path' : List ℕ}
    {depth : ℕ} (h : Merges t S limit depth path S' path') (adm : Admissible G t S limit)
    (s : NodeId → W) :
    GuardedStatements.exec G.meaning S' s =
      t.exec G.meaning (GuardedStatements.exec G.meaning S s) := by
  induction h generalizing s with
  | absent => rfl
  | @leaf a S pre old post y limit _ _ deduped grown last after =>
    have behind : ∀ x ∈ items post, G.Independent x (.act a) := by
      intro x hx
      have nonempty : post ≠ [] := by
        rintro rfl
        exact absurd hx List.not_mem_nil
      obtain ⟨z, rfl⟩ : ∃ z, old = [z] := by
        cases grown with
        | fresh => exact absurd (last rfl) nonempty
        | node b => exact ⟨_, rfl⟩
        | seq as => exact ⟨_, rfl⟩
      have here := items_post_beyond (z := z) (after nonempty) hx
      rw [show pre ++ z :: post = pre ++ [z] ++ post by simp, ← deduped] at here
      exact adm.free x (beyond_sublist (dedupe_sublist a S) limit here) _ (List.mem_singleton_self _)
    rw [exec_append, exec_cons, grown.exec, G.exec_run_comm behind, Tree.exec,
      ← exec_dedupe fits adm, deduped, exec_append, exec_append]
  | @shared c c' t f pre post T F T' F' limit path path₁ path₂ depth same after onFalse onTrue
      ihf iht =>
    obtain ⟨admT, admF⟩ := adm.branch after
    have behind : ∀ x ∈ items post, ∀ y ∈ (Tree.when c t f).items, G.Independent x y :=
      fun x hx y hy => adm.free x (items_post_beyond after hx) y hy
    have steady := (steady_append.mp adm.steady).2.1.1
    have past : ∀ B : Block, (∀ a, Item.act a ∈ items B → ¬ Touches G a c') → ∀ s,
        G.meaning.holds c (GuardedStatements.exec G.meaning post
          (GuardedStatements.exec G.meaning B s)) = G.meaning.holds c' s := by
      intro B untouched s
      rw [G.holds_exec (S := post) (c := c) fun a ha =>
          (behind _ ha (.test c) List.mem_cons_self).read_right _ rfl]
      change G.holds c _ = _
      rw [fits.holds c c' _ same]
      exact G.holds_exec (fun a ha => untouched a ha) s
    have left : ∀ x ∈ items post, ∀ y ∈ t.items, G.Independent x y := fun x hx y hy =>
      behind x hx y (List.mem_cons_of_mem _ (List.mem_append_left _ hy))
    have right : ∀ x ∈ items post, ∀ y ∈ f.items, G.Independent x y := fun x hx y hy =>
      behind x hx y (List.mem_cons_of_mem _ (List.mem_append_right _ hy))
    simp only [exec_append, exec_cons, Stmt.exec_when, Tree.exec]
    by_cases hc : G.meaning.holds c' (GuardedStatements.exec G.meaning pre s) = true
    · rw [if_pos hc, if_pos hc, past T (fun a ha => steady a (List.mem_append_left _ ha)), if_pos hc,
        iht admT, G.exec_tree_comm left]
    · rw [if_neg hc, if_neg hc, past F (fun a ha => steady a (List.mem_append_right _ ha)),
        if_neg hc, ihf admF, G.exec_tree_comm right]
  | append => simp [Tree.exec]

/-! ## What a merge keeps -/

theorem steady_toBlock {t : Guarded}
    (own : ∀ a c, Item.act a ∈ t.items → Item.test c ∈ t.items → ¬ Touches G a c) :
    Steady (Touches G) t.toBlock := by
  induction t with
  | absent => trivial
  | leaf a => exact ⟨trivial, trivial⟩
  | «when» c t f iht ihf =>
    refine ⟨⟨?_, ?_, ?_⟩, trivial⟩
    · intro a ha
      rw [Tree.items_toBlock, Tree.items_toBlock] at ha
      exact own a c (List.mem_cons_of_mem _ ha) List.mem_cons_self
    · exact iht fun a c ha hc => own a c (List.mem_cons_of_mem _ (List.mem_append_left _ ha))
        (List.mem_cons_of_mem _ (List.mem_append_left _ hc))
    · exact ihf fun a c ha hc => own a c (List.mem_cons_of_mem _ (List.mem_append_right _ ha))
        (List.mem_cons_of_mem _ (List.mem_append_right _ hc))

theorem Merges.steady (fits : Fits G) {t : Guarded} {S S' : Block} {limit path path' : List ℕ}
    {depth : ℕ} (h : Merges t S limit depth path S' path') (steady : Steady (Touches G) S)
    (own : ∀ a c, Item.act a ∈ t.items → Item.test c ∈ t.items → ¬ Touches G a c) :
    Steady (Touches G) S' := by
  induction h with
  | absent => exact steady
  | @leaf a S pre old post y _ _ _ deduped grown _ _ =>
    have kept := Steady.sublist (dedupe_sublist a S) steady
    rw [deduped, steady_append, steady_append] at kept
    exact steady_append.mpr ⟨kept.1.1, grown.steady, kept.2⟩
  | @shared c c' t f pre post T F T' F' limit path path₁ path₂ depth same _ onFalse onTrue ihf iht =>
    obtain ⟨before, ⟨body, steadyT, steadyF⟩, behind⟩ := steady_append.mp steady
    have left : ∀ {x}, x ∈ t.items → x ∈ (Tree.when c t f).items := fun hx =>
      List.mem_cons_of_mem _ (List.mem_append_left _ hx)
    have right : ∀ {x}, x ∈ f.items → x ∈ (Tree.when c t f).items := fun hx =>
      List.mem_cons_of_mem _ (List.mem_append_right _ hx)
    have new : ∀ a, Item.act a ∈ (Tree.when c t f).items → ¬ Touches G a c' := by
      intro a ha touches
      exact own a c ha List.mem_cons_self ((fits.guardReads c c' _ same).mpr touches)
    refine steady_append.mpr ⟨before, ⟨?_, ?_, ?_⟩, behind⟩
    · intro a ha
      rcases List.mem_append.mp ha with ha | ha
      · rcases onTrue.items_subset ha with ha | ha
        · exact body a (List.mem_append_left _ ha)
        · exact new a (left ha)
      · rcases onFalse.items_subset ha with ha | ha
        · exact body a (List.mem_append_right _ ha)
        · exact new a (right ha)
    · exact iht steadyT fun a c ha hc => own a c (left ha) (left hc)
    · exact ihf steadyF fun a c ha hc => own a c (right ha) (right hc)
  | @append c t f S =>
    exact steady_append.mpr ⟨steady, steady_toBlock (t := .when c t f) own⟩

end Exec

/-- In a tree of its own only the conditions come before something. -/
theorem ordered_toBlock {r : Item Leaf ENode → Item Leaf ENode → Prop} {t : Guarded}
    (own : ∀ c, Item.test c ∈ t.items → ∀ y ∈ t.items, r (.test c) y) : Ordered r t.toBlock := by
  induction t with
  | absent => trivial
  | leaf a => exact ⟨trivial, fun _ _ _ h => absurd h List.not_mem_nil, trivial⟩
  | «when» c t f iht ihf =>
    refine ⟨⟨?_, ?_, ?_⟩, fun _ _ _ h => absurd h List.not_mem_nil, trivial⟩
    · intro x hx
      rw [Tree.items_toBlock, Tree.items_toBlock] at hx
      exact own c List.mem_cons_self x (List.mem_cons_of_mem _ hx)
    · exact iht fun c hc y hy => own c (List.mem_cons_of_mem _ (List.mem_append_left _ hc)) y
        (List.mem_cons_of_mem _ (List.mem_append_left _ hy))
    · exact ihf fun c hc y hy => own c (List.mem_cons_of_mem _ (List.mem_append_right _ hc)) y
        (List.mem_cons_of_mem _ (List.mem_append_right _ hy))

/-- New items go behind everything that was there but what lies after the limit. -/
theorem Merges.ordered {r : Item Leaf ENode → Item Leaf ENode → Prop} {t : Guarded}
    {S S' : Block} {limit path path' : List ℕ} {depth : ℕ}
    (h : Merges t S limit depth path S' path') (order : Ordered r S)
    (new : ∀ x ∈ items S, ∀ y ∈ t.items, r x y)
    (free : ∀ x ∈ t.items, ∀ y ∈ beyond limit S, r x y)
    (own : ∀ c, Item.test c ∈ t.items → ∀ y ∈ t.items, r (.test c) y) : Ordered r S' := by
  induction h with
  | absent => exact order
  | @leaf a S pre old post y limit _ _ deduped grown last after =>
    have kept := Ordered.sublist (dedupe_sublist a S) order
    have sub : ∀ {x}, x ∈ items (pre ++ old ++ post) → x ∈ items S := by
      intro x hx
      rw [← deduped] at hx
      exact items_sublist (dedupe_sublist a S) hx
    have mem : Item.act a ∈ (Tree.leaf a : Guarded).items := List.mem_singleton_self _
    rw [deduped, ordered_append, ordered_append] at kept
    obtain ⟨⟨orderPre, preOld, orderOld⟩, oldPost, orderPost⟩ := kept
    refine ordered_append.mpr ⟨orderPre, ?_, grown.ordered orderOld ?_, ?_, orderPost⟩
    · intro x hx z hz
      rw [items_cons, grown.items] at hz
      simp only [List.mem_append, List.mem_singleton] at hz
      rcases hz with (hz | rfl) | hz
      · exact preOld x hx z hz
      · exact new x (sub (by simp [hx])) _ mem
      · exact oldPost x (by simp [hx]) z hz
    · intro x hx
      exact new x (sub (by simp [hx])) _ mem
    · intro x hx z hz
      rw [grown.items] at hx
      rcases List.mem_append.mp hx with hx | hx
      · exact oldPost x (by simp [hx]) z hz
      · rw [List.mem_singleton.mp hx]
        have nonempty : post ≠ [] := by
          rintro rfl
          exact absurd hz List.not_mem_nil
        obtain ⟨w, rfl⟩ : ∃ w, old = [w] := by
          cases grown with
          | fresh => exact absurd (last rfl) nonempty
          | node b => exact ⟨_, rfl⟩
          | seq as => exact ⟨_, rfl⟩
        have here := items_post_beyond (z := w) (after nonempty) hz
        rw [show pre ++ w :: post = pre ++ [w] ++ post by simp, ← deduped] at here
        exact free _ mem z (beyond_sublist (dedupe_sublist a S) limit here)
  | @shared c c' t f pre post T F T' F' limit path path₁ path₂ depth same after onFalse onTrue
      ihf iht =>
    obtain ⟨orderPre, preRest, ⟨guard, orderT, orderF⟩, bodyPost, orderPost⟩ :=
      ordered_append.mp order
    have left : ∀ {x}, x ∈ t.items → x ∈ (Tree.when c t f).items := fun hx =>
      List.mem_cons_of_mem _ (List.mem_append_left _ hx)
    have right : ∀ {x}, x ∈ f.items → x ∈ (Tree.when c t f).items := fun hx =>
      List.mem_cons_of_mem _ (List.mem_append_right _ hx)
    have inside : ∀ {x}, x ∈ items T ∨ x ∈ items F → x ∈ items (pre ++ .when c' T F :: post) := by
      intro x hx
      simp only [items_append, items_cons, Stmt.items_when, List.mem_append, List.mem_cons]
      exact .inr (.inl (.inr hx))
    have grown : ∀ {x}, x ∈ items T' ++ items F' →
        x ∈ items T ++ items F ∨ x ∈ (Tree.when c t f).items := by
      intro x hx
      rcases List.mem_append.mp hx with hx | hx
      · exact (onTrue.items_subset hx).imp (List.mem_append_left _) left
      · exact (onFalse.items_subset hx).imp (List.mem_append_right _) right
    refine ordered_append.mpr ⟨orderPre, ?_, ⟨?_, ?_, ?_⟩, ?_, orderPost⟩
    · intro x hx z hz
      simp only [items_cons, Stmt.items_when, List.cons_append, List.mem_cons] at hz
      rcases hz with rfl | hz
      · exact preRest x hx _ (by simp)
      · rcases List.mem_append.mp hz with hz | hz
        · rcases grown hz with hz | hz
          · exact preRest x hx z (List.mem_append_left _ (List.mem_cons_of_mem _ hz))
          · exact new x (by simp [hx]) z hz
        · exact preRest x hx z (by simp [hz])
    · intro x hx
      rcases grown hx with hx | hx
      · exact guard x hx
      · exact new _ (by simp) x hx
    · exact iht orderT (fun x hx y hy => new x (inside (.inl hx)) y (left hy))
        (fun x hx y hy => free x (left hx) y (branch_beyond after (.inl hy)))
        fun c hc y hy => own c (left hc) y (left hy)
    · exact ihf orderF (fun x hx y hy => new x (inside (.inr hx)) y (right hy))
        (fun x hx y hy => free x (right hx) y (branch_beyond after (.inr hy)))
        fun c hc y hy => own c (right hc) y (right hy)
    · intro x hx z hz
      simp only [Stmt.items_when, List.mem_cons] at hx
      rcases hx with rfl | hx
      · exact bodyPost _ (by simp) z hz
      · rcases grown hx with hx | hx
        · exact bodyPost x (List.mem_cons_of_mem _ hx) z hz
        · exact free x hx z (items_post_beyond after hz)
  | @append c t f S =>
    refine ordered_append.mpr ⟨order, ?_, ordered_toBlock (t := .when c t f) own⟩
    intro x hx y hy
    exact new x hx y ((Tree.items_toBlock (.when c t f)) ▸ hy)

end Gsim.StmtTree
