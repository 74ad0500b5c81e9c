/-
  Gsim/LoopDetectorForest.lean
  ============================
  **What `detectLoop` finds.**

  The stack machine is simulated by the push forest: from a state whose stack
  begins with a level of waiting supers, it either reports a loop, and then the
  forest of that level has an edge to an ancestor, or it comes back with the level
  gone and every super of it `VISITED`.  A reported loop is a loop of the graph;
  the converse fails, and the last theorem says exactly where.
-/
import Gsim.LoopDetector

namespace Gsim.LoopDetector

open Relation

/-! ## 1. One expansion -/

section Expansion

variable {next : Nat → List Nat} {claimed claimed' level rest tail anc : List Nat} {v top : Nat}
  {s s' : SearchState} {F : Forest}

/-- The supers of `claimed` are in `states`, those of `anc` expanded and still on the stack. -/
structure Searching (claimed anc : List Nat) (s : SearchState) : Prop where
  known : ∀ v, s.states v ≠ none ↔ v ∈ claimed
  expanded : ∀ v, s.states v = some .expanded ↔ v ∈ anc
  onStack : ∀ v ∈ anc, v ∈ s.stack

theorem Searching.push (h : Searching claimed anc s) (hv : v ∉ claimed) :
    Searching (v :: claimed) anc (s.push v) where
  known := by
    intro w
    by_cases hw : w = v
    · subst hw
      simp [SearchState.push]
    · simp [SearchState.push, hw, ← h.known w]
  expanded := by
    intro w
    by_cases hw : w = v
    · subst hw
      have hnone : s.states w = none := not_not.mp fun hne => hv ((h.known w).mp hne)
      have hanc : w ∉ anc := by
        intro hmem
        rw [(h.expanded w).mpr hmem] at hnone
        cases hnone
      simp [SearchState.push, hanc]
    · simp [SearchState.push, hw, ← h.expanded w]
  onStack w hw := List.mem_cons_of_mem v (h.onStack w hw)

theorem displayLoop_isSome {w : Nat} (states : Nat → Option VisitState) :
    ∀ {stack : List Nat}, w ∈ stack → ∃ shown, displayLoop w states stack = some shown := by
  intro stack
  induction stack with
  | nil =>
    intro h
    cases h
  | cons n rest ih =>
    intro h
    rw [displayLoop]
    by_cases hn : n = w
    · exact ⟨_, if_pos hn⟩
    · obtain ⟨shown, hshown⟩ := ih ((List.mem_cons.mp h).resolve_left fun e => hn e.symm)
      rw [if_neg hn, hshown]
      exact ⟨_, rfl⟩

/-- An expanded successor is reported. -/
theorem scanNext_reports : ∀ {l : List Nat} {claimed : List Nat} {s : SearchState},
    Searching claimed anc s → (∃ w ∈ l, w ≠ top ∧ w ∈ anc) →
    ∃ shown, scanNext top l s = .error (.loop shown) := by
  intro l
  induction l with
  | nil =>
    rintro claimed s _ ⟨w, hw, -⟩
    cases hw
  | cons w rest ih =>
    intro claimed s hs hback
    rw [scanNext]
    have htail : ¬ (w ≠ top ∧ w ∈ anc) → ∃ w ∈ rest, w ≠ top ∧ w ∈ anc := by
      intro hno
      obtain ⟨x, hx, hxa⟩ := hback
      rcases List.mem_cons.mp hx with rfl | hx
      · exact absurd hxa hno
      · exact ⟨x, hx, hxa⟩
    by_cases hw : w = top
    · rw [if_pos hw]
      exact ih hs (htail fun h => h.1 hw)
    · rw [if_neg hw]
      cases hst : s.states w with
      | none =>
        have hnew : w ∉ claimed := fun hmem => (hs.known w).mpr hmem hst
        refine ih (hs.push hnew) (htail fun h => ?_)
        rw [(hs.expanded w).mpr h.2] at hst
        cases hst
      | some x =>
        cases x with
        | expanded =>
          obtain ⟨shown, hshown⟩ :=
            displayLoop_isSome s.states (hs.onStack w ((hs.expanded w).mp hst))
          simp only [hshown]
          exact ⟨_, rfl⟩
        | notVisit | visited =>
          refine ih hs (htail fun h => ?_)
          rw [(hs.expanded w).mpr h.2] at hst
          cases hst

/-- Without one, the successors that nobody has pushed are pushed in order. -/
theorem scanNext_pushes : ∀ {l : List Nat} {claimed : List Nat} {s : SearchState},
    Searching claimed anc s → l.Nodup → (∀ w ∈ l, w ≠ top → w ∉ anc) →
    scanNext top l s =
      .ok ((l.filter fun w => w ≠ top ∧ w ∉ claimed).foldl SearchState.push s) := by
  intro l
  induction l with
  | nil =>
    intro claimed s _ _ _
    rfl
  | cons w rest ih =>
    intro claimed s hs hnodup hanc
    obtain ⟨hwrest, hnodup⟩ := List.nodup_cons.mp hnodup
    obtain ⟨hw, hanc⟩ := List.forall_mem_cons.mp hanc
    rw [scanNext]
    by_cases htop : w = top
    · rw [if_pos htop, ih hs hnodup hanc, List.filter_cons_of_neg (by simp [htop])]
    · rw [if_neg htop]
      cases hst : s.states w with
      | none =>
        have hnew : w ∉ claimed := fun hmem => (hs.known w).mpr hmem hst
        -- `w` is not met again, so it makes no difference to the rest that it is now claimed
        have hfilter : (rest.filter fun x => x ≠ top ∧ x ∉ w :: claimed) =
            rest.filter fun x => x ≠ top ∧ x ∉ claimed := by
          apply List.filter_congr
          intro x hx
          have hxw : x ≠ w := fun e => hwrest (e ▸ hx)
          simp [hxw]
        rw [List.filter_cons_of_pos (by simp [htop, hnew]), List.foldl_cons]
        simp only [ih (hs.push hnew) hnodup hanc, hfilter]
      | some x =>
        have hold : w ∈ claimed := (hs.known w).mp (by rw [hst]; exact Option.some_ne_none x)
        rw [List.filter_cons_of_neg (by simp [hold])]
        cases x with
        | expanded => exact absurd ((hs.expanded w).mp hst) (hw htop)
        | notVisit | visited => exact ih hs hnodup hanc

end Expansion

/-! ## 2. A level of waiting supers -/

section Levels

variable {next : Nat → List Nat} {claimed claimed' mid level rest tail anc : List Nat} {v : Nat}
  {s s' : SearchState} {F : Forest}

/-- The stack begins with `level`, whose supers wait; their ancestors `anc` are below. -/
structure Waiting (claimed level tail anc : List Nat) (s : SearchState) : Prop where
  stack : s.stack = level ++ tail
  known : ∀ v, s.states v ≠ none ↔ v ∈ claimed
  expanded : ∀ v, s.states v = some .expanded ↔ v ∈ anc
  waiting : ∀ v ∈ level, s.states v = some .notVisit
  nodup : level.Nodup
  below : ∀ v ∈ anc, v ∈ tail

/-- The search has come back from `level`; what was known before outside of it is unchanged. -/
structure Finished (claimed claimed' level tail anc : List Nat) (s s' : SearchState) : Prop where
  stack : s'.stack = tail
  known : ∀ v, s'.states v ≠ none ↔ v ∈ claimed'
  expanded : ∀ v, s'.states v = some .expanded ↔ v ∈ anc
  visited : ∀ v ∈ level, s'.states v = some .visited
  frame : ∀ v ∈ claimed, v ∉ level → s'.states v = s.states v

theorem Waiting.mem_claimed (h : Waiting claimed level tail anc s) (hv : v ∈ level) :
    v ∈ claimed := by
  apply (h.known v).mp
  rw [h.waiting v hv]
  exact Option.some_ne_none _

theorem Waiting.not_mem_anc (h : Waiting claimed level tail anc s) (hv : v ∈ level) : v ∉ anc := by
  intro hanc
  have hstate := (h.expanded v).mpr hanc
  rw [h.waiting v hv] at hstate
  cases hstate

theorem Waiting.detectStep_eq (h : Waiting claimed (v :: rest) tail anc s) :
    detectStep next s = scanNext v (next v) (s.mark v .expanded) := by
  unfold detectStep
  simp only [h.stack, List.cons_append, h.waiting v List.mem_cons_self]

/-- The state in which the successors of `v` are scanned. -/
theorem Waiting.searching (h : Waiting claimed (v :: rest) tail anc s) :
    Searching claimed (v :: anc) (s.mark v .expanded) where
  known := by
    intro w
    by_cases hw : w = v
    · subst hw
      simp [SearchState.mark, h.mem_claimed List.mem_cons_self]
    · simp [SearchState.mark, hw, ← h.known w]
  expanded := by
    intro w
    by_cases hw : w = v
    · subst hw
      simp [SearchState.mark]
    · simp [SearchState.mark, hw, ← h.expanded w]
  onStack := by
    intro w hw
    show w ∈ s.stack
    rw [h.stack]
    rcases List.mem_cons.mp hw with rfl | hw
    · exact List.mem_cons_self
    · exact List.mem_append_right _ (h.below w hw)

theorem Waiting.reports (h : Waiting claimed (v :: rest) tail anc s)
    (hback : ∃ w ∈ next v, w ≠ v ∧ w ∈ anc) : ∃ shown, Ends next s (.loop shown) := by
  obtain ⟨w, hw, hne, hanc⟩ := hback
  obtain ⟨shown, hshown⟩ :=
    scanNext_reports h.searching ⟨w, hw, hne, List.mem_cons_of_mem v hanc⟩
  exact ⟨shown, ends_of_step_error (h.detectStep_eq.trans hshown)⟩

theorem mem_fresh {w : Nat} : w ∈ fresh next claimed v ↔ w ∈ next v ∧ w ≠ v ∧ w ∉ claimed := by
  simp [fresh]

/-- Expanding `v` leaves its unclaimed successors waiting on top of it. -/
theorem Waiting.expands (h : Waiting claimed (v :: rest) tail anc s) (hnodup : (next v).Nodup)
    (hback : ¬ ∃ w ∈ next v, w ≠ v ∧ w ∈ anc) :
    ∃ s', Leads next s s' ∧
      Waiting (fresh next claimed v ++ claimed) (fresh next claimed v).reverse
        (v :: rest ++ tail) (v :: anc) s' ∧
      ∀ w ∈ claimed, w ≠ v → s'.states w = s.states w := by
  have hsearch := h.searching
  have hanc : ∀ w ∈ next v, w ≠ v → w ∉ v :: anc := by
    intro w hw hne hmem
    rcases List.mem_cons.mp hmem with rfl | hmem
    · exact hne rfl
    · exact hback ⟨w, hw, hne, hmem⟩
  have hscan := scanNext_pushes hsearch hnodup hanc
  have hstate := foldl_push_states (fresh next claimed v) (s.mark v .expanded)
  have hfresh : ∀ w ∈ claimed, w ∉ fresh next claimed v :=
    fun w hw hmem => (mem_fresh.mp hmem).2.2 hw
  refine ⟨(fresh next claimed v).foldl SearchState.push (s.mark v .expanded),
    ReflTransGen.single (h.detectStep_eq.trans hscan), ?_, ?_⟩
  · refine ⟨?_, ?_, ?_, ?_, ?_, ?_⟩
    · rw [foldl_push_stack]
      show _ ++ s.stack = _
      rw [h.stack]
    · intro w
      rw [hstate w, List.mem_append, ← hsearch.known w]
      by_cases hw : w ∈ fresh next claimed v <;> simp [hw]
    · intro w
      rw [hstate w, ← hsearch.expanded w]
      by_cases hw : w ∈ fresh next claimed v
      · rw [if_pos hw]
        constructor
        · intro hcontra
          cases hcontra
        · intro hexp
          have hmem : w ∈ claimed := (hsearch.known w).mp (by rw [hexp]; exact Option.some_ne_none _)
          exact absurd hw (hfresh w hmem)
      · rw [if_neg hw]
    · intro w hw
      rw [hstate w, if_pos (List.mem_reverse.mp hw)]
    · exact List.nodup_reverse.mpr (hnodup.filter _)
    · intro w hw
      rcases List.mem_cons.mp hw with rfl | hw
      · exact List.mem_cons_self
      · exact List.mem_append_right _ (h.below w hw)
  · intro w hw hne
    rw [hstate w, if_neg (hfresh w hw)]
    exact Function.update_of_ne hne _ _

/-- When the search comes back from the successors of `v`, `v` is popped and the rest of the
    level still waits. -/
theorem Finished.pops {s₀ : SearchState} (h₀ : Waiting claimed (v :: rest) tail anc s₀)
    (hframe : ∀ w ∈ claimed, w ≠ v → s.states w = s₀.states w)
    (h : Finished (fresh next claimed v ++ claimed) mid (fresh next claimed v).reverse
      (v :: rest ++ tail) (v :: anc) s s') :
    ∃ s'', Leads next s' s'' ∧ Waiting mid rest tail anc s'' ∧ s''.states v = some .visited ∧
      (∀ w ∈ claimed, w ≠ v → s''.states w = s₀.states w) ∧ ∀ w ∈ claimed, w ∈ mid := by
  obtain ⟨hvrest, hnodup⟩ := List.nodup_cons.mp h₀.nodup
  have hv : s'.states v = some .expanded := (h.expanded v).mpr List.mem_cons_self
  have hkeep : ∀ w ∈ claimed, w ≠ v → s'.states w = s₀.states w := by
    intro w hw hne
    rw [h.frame w (List.mem_append_right _ hw) fun hmem =>
      (mem_fresh.mp (List.mem_reverse.mp hmem)).2.2 hw]
    exact hframe w hw hne
  have hmid : ∀ w ∈ claimed, w ∈ mid := by
    intro w hw
    apply (h.known w).mp
    by_cases hne : w = v
    · rw [hne, hv]
      exact Option.some_ne_none _
    · rw [hkeep w hw hne]
      exact (h₀.known w).mpr hw
  have hstep : detectStep next s' = .ok { s'.mark v .visited with stack := rest ++ tail } := by
    unfold detectStep
    simp only [h.stack, List.cons_append, hv]
  refine ⟨_, ReflTransGen.single hstep, ⟨rfl, ?_, ?_, ?_, hnodup, h₀.below⟩, ?_, ?_, hmid⟩
  · intro w
    by_cases hw : w = v
    · subst hw
      simp [SearchState.mark, hmid w (h₀.mem_claimed List.mem_cons_self)]
    · simp [SearchState.mark, hw, ← h.known w]
  · intro w
    by_cases hw : w = v
    · subst hw
      simp [SearchState.mark, h₀.not_mem_anc List.mem_cons_self]
    · simp [SearchState.mark, hw, h.expanded w]
  · intro w hw
    have hne : w ≠ v := fun e => hvrest (e ▸ hw)
    have hmem := List.mem_cons_of_mem v hw
    show Function.update s'.states v _ w = _
    rw [Function.update_of_ne hne, hkeep w (h₀.mem_claimed hmem) hne]
    exact h₀.waiting w hmem
  · exact Function.update_self ..
  · intro w hw hne
    show Function.update s'.states v _ w = _
    rw [Function.update_of_ne hne]
    exact hkeep w hw hne

/-- **The stack machine follows the push forest**: it reports a loop when an edge of the forest's
    supers leads to an ancestor, and comes back from the level otherwise. -/
theorem Pushes.simulates (hnodup : ∀ v, (next v).Nodup) (h : Pushes next claimed level F claimed') :
    ∀ {s : SearchState} {tail anc : List Nat}, Waiting claimed level tail anc s →
      (F.HasBack next anc ∧ ∃ shown, Ends next s (.loop shown)) ∨
      (¬ F.HasBack next anc ∧
        ∃ s', Leads next s s' ∧ Finished claimed claimed' level tail anc s s') := by
  induction h with
  | nil claimed =>
    intro s tail anc hs
    exact .inr ⟨id, s, .refl, ⟨hs.stack, hs.known, hs.expanded, List.forall_mem_nil _,
      fun v _ _ => rfl⟩⟩
  | @node claimed mid claimed' v rest children siblings _ _ ihchildren ihsiblings =>
    intro s tail anc hs
    by_cases hedge : ∃ w ∈ next v, w ≠ v ∧ w ∈ anc
    · exact .inl ⟨.inl hedge, hs.reports hedge⟩
    obtain ⟨s₁, hlead₁, hs₁, hframe₁⟩ := hs.expands (hnodup v) hedge
    rcases ihchildren hs₁ with ⟨hback, shown, hends⟩ | ⟨hnochild, s₂, hlead₂, hs₂⟩
    · exact .inl ⟨.inr (.inl hback), shown, hlead₁.ends hends⟩
    obtain ⟨s₃, hlead₃, hs₃, hv₃, hframe₃, hmid⟩ := hs₂.pops hs hframe₁
    have hlead := (hlead₁.trans hlead₂).trans hlead₃
    rcases ihsiblings hs₃ with ⟨hback, shown, hends⟩ | ⟨hnosib, s₄, hlead₄, hs₄⟩
    · exact .inl ⟨.inr (.inr hback), shown, Leads.ends hlead hends⟩
    refine .inr ⟨?_, s₄, hlead.trans hlead₄, hs₄.stack, hs₄.known, hs₄.expanded, ?_, ?_⟩
    · rintro (hback | hback | hback)
      · exact hedge hback
      · exact hnochild hback
      · exact hnosib hback
    · intro w hw
      rcases List.mem_cons.mp hw with rfl | hw
      · have hwrest := (List.nodup_cons.mp hs.nodup).1
        rw [hs₄.frame w (hmid w (hs.mem_claimed List.mem_cons_self)) hwrest, hv₃]
      · exact hs₄.visited w hw
    · intro w hw hlevel
      obtain ⟨hne, hwrest⟩ := not_or.mp fun h => hlevel (List.mem_cons.mpr h)
      rw [hs₄.frame w (hmid w hw) hwrest, hframe₃ w hw hne]

end Levels

/-! ## 3. The forest exists, and its back edges close loops -/

section Forests

variable {next : Nat → List Nat} {claimed claimed' level : List Nat} {F : Forest}

theorem Pushes.claimed_subset (h : Pushes next claimed level F claimed') :
    ∀ v ∈ claimed, v ∈ claimed' := by
  induction h with
  | nil claimed => exact fun v hv => hv
  | node _ _ ihchildren ihsiblings =>
    intro w hw
    exact ihsiblings w (ihchildren w (List.mem_append_right _ hw))

/-- How many supers nobody has pushed yet. -/
def unclaimed (size : Nat) (claimed : List Nat) : Nat :=
  (Finset.range size \ claimed.toFinset).card

theorem unclaimed_anti {size : Nat} (h : ∀ v ∈ claimed, v ∈ claimed') :
    unclaimed size claimed' ≤ unclaimed size claimed := by
  apply Finset.card_le_card
  apply Finset.sdiff_subset_sdiff (le_refl _)
  intro v hv
  exact List.mem_toFinset.mpr (h v (List.mem_toFinset.mp hv))

theorem unclaimed_fresh_lt {size v w : Nat} (hlt : ∀ v, ∀ w ∈ next v, w < size)
    (hw : w ∈ fresh next claimed v) :
    unclaimed size (fresh next claimed v ++ claimed) < unclaimed size claimed := by
  obtain ⟨hnext, -, hnew⟩ := mem_fresh.mp hw
  apply Finset.card_lt_card
  apply (Finset.ssubset_iff_of_subset ?_).mpr
  · refine ⟨w, ?_, ?_⟩
    · simp [hlt v w hnext, hnew]
    · simp [hw]
  · apply Finset.sdiff_subset_sdiff (le_refl _)
    intro u hu
    simp only [List.toFinset_append, Finset.mem_union, List.mem_toFinset] at hu ⊢
    exact .inr hu

/-- Every level of a finite graph has its forest. -/
theorem exists_pushes {size : Nat} (hlt : ∀ v, ∀ w ∈ next v, w < size) :
    ∀ (k : Nat) (level claimed : List Nat), unclaimed size claimed ≤ k →
      ∃ F claimed', Pushes next claimed level F claimed' := by
  intro k
  induction k using Nat.strong_induction_on with
  | _ k ihk =>
    intro level
    induction level with
    | nil => exact fun claimed _ => ⟨_, _, .nil claimed⟩
    | cons v rest ih =>
      intro claimed hk
      have hchildren : ∃ children mid, Pushes next (fresh next claimed v ++ claimed)
          (fresh next claimed v).reverse children mid := by
        cases hfresh : fresh next claimed v with
        | nil => exact ⟨_, _, .nil _⟩
        | cons w ws =>
          have hw : w ∈ fresh next claimed v := by rw [hfresh]; exact List.mem_cons_self
          rw [← hfresh]
          exact ihk _ ((unclaimed_fresh_lt hlt hw).trans_le hk) _ _ (le_refl _)
      obtain ⟨children, mid, hch⟩ := hchildren
      have hmid : unclaimed size mid ≤ unclaimed size claimed :=
        unclaimed_anti fun w hw => hch.claimed_subset w (List.mem_append_right _ hw)
      obtain ⟨siblings, claimed', hsib⟩ := ih mid (hmid.trans hk)
      exact ⟨_, _, .node hch hsib⟩

theorem Pushes.hasLoop {G : SuperGraph} (h : Pushes G.next claimed level F claimed') :
    ∀ {anc : List Nat}, (∀ v ∈ level, G.FromSource v) →
      (∀ a ∈ anc, ∀ v ∈ level, TransGen G.Edge a v) → F.HasBack G.next anc → G.HasLoop := by
  induction h with
  | nil => exact fun _ _ h => h.elim
  | @node claimed mid claimed' v rest children siblings _ _ ihchildren ihsiblings =>
    intro anc hsource hanc hback
    obtain ⟨hv, hrest⟩ := List.forall_mem_cons.mp hsource
    rcases hback with ⟨w, hw, hne, hmem⟩ | hback | hback
    · exact ⟨v, w, hv, fun e => hne e.symm, .single hw, hanc w hmem v List.mem_cons_self⟩
    · have hedge : ∀ w ∈ (fresh G.next claimed v).reverse, G.Edge v w :=
        fun w hw => (mem_fresh.mp (List.mem_reverse.mp hw)).1
      refine ihchildren ?_ ?_ hback
      · intro w hw
        obtain ⟨u, hu, hpath⟩ := hv
        exact ⟨u, hu, hpath.tail (hedge w hw)⟩
      · intro a ha w hw
        rcases List.mem_cons.mp ha with rfl | ha
        · exact .single (hedge w hw)
        · exact (hanc a ha v List.mem_cons_self).tail (hedge w hw)
    · exact ihsiblings hrest (fun a ha w hw => hanc a ha w (List.mem_cons_of_mem v hw)) hback

end Forests

/-! ## 4. What the function reports -/

namespace SuperGraph

variable (G : SuperGraph)

/-- The state before the first iteration, with any first part of the stack as the level. -/
theorem start_waiting {level tail : List Nat} (hsrc : G.supersrc.reverse = level ++ tail)
    (hnodup : level.Nodup) : Waiting G.supersrc level tail [] G.start where
  stack := by rw [G.start_stack, hsrc]
  known v := by
    rw [G.start_states v]
    by_cases hv : v ∈ G.supersrc <;> simp [hv]
  expanded v := by
    rw [G.start_states v]
    by_cases hv : v ∈ G.supersrc <;> simp [hv]
  waiting v hv := by
    have hmem : v ∈ G.supersrc.reverse := by
      rw [hsrc]
      exact List.mem_append_left _ hv
    rw [G.start_states v, if_pos (List.mem_reverse.mp hmem)]
  nodup := hnodup
  below := List.forall_mem_nil _

theorem exists_pushForest : ∃ F, G.PushForest F := by
  obtain ⟨F, claimed', h⟩ := exists_pushes G.next_lt _ G.supersrc.reverse G.supersrc (le_refl _)
  exact ⟨F, claimed', h⟩

/-- With each source listed once, the push forest decides. -/
theorem detectLoop_of_nodup (hnodup : G.supersrc.Nodup) {F : Forest} (hF : G.PushForest F) :
    (F.HasBack G.next [] ∧ ∃ shown, G.detectLoop = some (.loop shown)) ∨
    (¬ F.HasBack G.next [] ∧ G.detectLoop = some .noLoop) := by
  obtain ⟨claimed', hpushes⟩ := hF
  have hstart := G.start_waiting (List.append_nil _).symm (List.nodup_reverse.mpr hnodup)
  rcases hpushes.simulates G.next_nodup hstart with
    ⟨hback, shown, hends⟩ | ⟨hno, s', hlead, hfin⟩
  · exact .inl ⟨hback, shown, G.detectLoop_eq_iff.mpr hends⟩
  · have hend : detectStep G.next s' = .error .noLoop := by
      unfold detectStep
      rw [hfin.stack]
    exact .inr ⟨hno, G.detectLoop_eq_iff.mpr ⟨s', hlead, hend⟩⟩

theorem exists_first_repeat : ∀ {l : List Nat}, ¬ l.Nodup →
    ∃ before v after, l = before ++ v :: after ∧ before.Nodup ∧ v ∈ before := by
  intro l
  induction l using List.reverseRecOn with
  | nil => exact fun h => absurd List.nodup_nil h
  | append_singleton l w ih =>
    intro h
    by_cases hl : l.Nodup
    · refine ⟨l, w, [], rfl, hl, ?_⟩
      by_contra hw
      apply h
      refine List.nodup_append.mpr ⟨hl, List.nodup_singleton w, ?_⟩
      rintro a ha b hb rfl
      exact hw (List.mem_singleton.mp hb ▸ ha)
    · obtain ⟨before, v, after, rfl, hb⟩ := ih hl
      exact ⟨before, v, after ++ [w], by simp, hb⟩

/-- A source listed twice is met again after it was visited, unless a loop is found first. -/
theorem detectLoop_ne_noLoop_of_repeat (h : ¬ G.supersrc.Nodup) :
    G.detectLoop ≠ some .noLoop := by
  obtain ⟨before, v, after, hsrc, hnodup, hv⟩ :=
    exists_first_repeat fun hrev => h (List.nodup_reverse.mp hrev)
  obtain ⟨F, claimed', hpushes⟩ := exists_pushes G.next_lt _ before G.supersrc (le_refl _)
  intro hno
  have hends := G.detectLoop_eq_iff.mp hno
  rcases hpushes.simulates G.next_nodup (G.start_waiting hsrc hnodup) with
    ⟨-, shown, hloop⟩ | ⟨-, s', hlead, hfin⟩
  · cases hends.unique hloop
  · have hend : detectStep G.next s' = .error (.alreadyVisited v) := by
      unfold detectStep
      simp only [hfin.stack, hfin.visited v hv]
    cases hends.unique ⟨s', hlead, hend⟩

theorem detectLoop_eq_noLoop_iff {F : Forest} (hF : G.PushForest F) :
    G.detectLoop = some .noLoop ↔ G.supersrc.Nodup ∧ ¬ F.HasBack G.next [] := by
  constructor
  · intro hno
    have hnodup : G.supersrc.Nodup := by
      by_contra hrep
      exact G.detectLoop_ne_noLoop_of_repeat hrep hno
    refine ⟨hnodup, ?_⟩
    rcases G.detectLoop_of_nodup hnodup hF with ⟨-, shown, hloop⟩ | ⟨hback, -⟩
    · rw [hloop] at hno
      cases hno
    · exact hback
  · rintro ⟨hnodup, hback⟩
    rcases G.detectLoop_of_nodup hnodup hF with ⟨h, -⟩ | ⟨-, hno⟩
    · exact absurd h hback
    · exact hno

theorem pushForest_hasLoop {F : Forest} (hF : G.PushForest F) (hback : F.HasBack G.next []) :
    G.HasLoop := by
  obtain ⟨claimed', hpushes⟩ := hF
  refine hpushes.hasLoop ?_ (List.forall_mem_nil _) hback
  intro v hv
  exact ⟨v, List.mem_reverse.mp hv, .refl⟩

/-- A loop that is reported is a loop. -/
theorem hasLoop_of_detectLoop (hnodup : G.supersrc.Nodup) {shown : List Nat}
    (h : G.detectLoop = some (.loop shown)) : G.HasLoop := by
  obtain ⟨F, hF⟩ := G.exists_pushForest
  rcases G.detectLoop_of_nodup hnodup hF with ⟨hback, -⟩ | ⟨-, hno⟩
  · exact G.pushForest_hasLoop hF hback
  · rw [hno] at h
    cases h

/-- Some edge leads from a super to one of its proper ancestors in the push forest. -/
def BackEdge : Prop := ∃ F, G.PushForest F ∧ F.HasBack G.next []

/-- **When `NO Loop!` can be trusted**: exactly when a graph with a loop has an edge to an
    ancestor in its push forest, or lists a source twice. -/
theorem noLoop_correct_iff :
    (G.detectLoop = some .noLoop → ¬ G.HasLoop) ↔
      (G.HasLoop → G.BackEdge ∨ ¬ G.supersrc.Nodup) := by
  obtain ⟨F, hF⟩ := G.exists_pushForest
  rw [G.detectLoop_eq_noLoop_iff hF]
  constructor
  · intro h hloop
    by_contra hneither
    obtain ⟨hback, hrep⟩ := not_or.mp hneither
    exact h ⟨not_not.mp hrep, fun hF' => hback ⟨F, hF, hF'⟩⟩ hloop
  · rintro h ⟨hnodup, hback⟩ hloop
    rcases h hloop with ⟨F', hF', hback'⟩ | hrep
    · have hno := (G.detectLoop_eq_noLoop_iff hF).mpr ⟨hnodup, hback⟩
      exact ((G.detectLoop_eq_noLoop_iff hF').mp hno).2 hback'
    · exact hrep hnodup

end SuperGraph

/-- A source with two successors that drive each other. -/
def twoSuccessors : SuperGraph where
  size := 3
  next v := match v with
    | 0 => [1, 2]
    | 1 => [2]
    | 2 => [1]
    | _ => []
  supersrc := [0]
  next_nodup := by
    intro v
    split <;> decide
  next_lt := by
    intro v
    split <;> decide
  supersrc_lt := by decide

/-- Super 1 still waits when 2 is expanded, and 2 is visited when 1 is. -/
theorem twoSuccessors_missed :
    twoSuccessors.detectLoop = some .noLoop ∧ twoSuccessors.HasLoop := by
  refine ⟨by decide, 1, 2, ⟨0, by decide, .single ?_⟩, by decide, .single ?_, .single ?_⟩
  · show 1 ∈ [1, 2]
    decide
  · show 2 ∈ [2]
    decide
  · show 1 ∈ [1]
    decide

end Gsim.LoopDetector
