/-
  Gsim/LoopDetectorSorted.lean
  ============================
  **Loop detection after merging** (`graph::detectSortedSuperLoop`,
  `src/loopDetector.cpp`).

  The same search as `detectLoop` along `depNext`, except that a super found
  `VISITED` on the stack is popped in silence.  What differs is the start: every
  super of `sortedSuper` is pushed and marked `NOT_VISIT` first, so an edge between
  two of them never pushes anything and never meets an `EXPANDED` super.  As long as
  `depNext` stays inside `sortedSuper` the function prints `NO Loop!` whatever the
  relation is (`not_backEdge_of_closed`); only a path through supers outside of
  `sortedSuper` can be reported.
-/
import Mathlib.Data.List.Dedup
import Gsim.LoopDetectorForest

namespace Gsim.LoopDetector

open Relation

/-! ## 1. The search -/

/-- `sortedSuper` and the relation `depNext`, a `std::set` in iteration order.  `depNext` may
    leave `sortedSuper`. -/
structure SortedSupers where
  size : Nat
  depNext : Nat → List Nat
  sortedSuper : List Nat
  depNext_nodup : ∀ v, (depNext v).Nodup
  depNext_lt : ∀ v, ∀ w ∈ depNext v, w < size
  sortedSuper_lt : ∀ v ∈ sortedSuper, v < size

/-- One iteration of the `while` loop, or how the function ends. -/
def sortedStep (depNext : Nat → List Nat) (s : SearchState) : Except Outcome SearchState :=
  match s.stack with
  | [] => .error .noLoop
  | top :: rest =>
    match s.states top with
    | some .expanded => .ok { s.mark top .visited with stack := rest }
    | some .visited => .ok { s with stack := rest }
    | _ => scanNext top (depNext top) (s.mark top .expanded)

def sortedRun (depNext : Nat → List Nat) : Nat → SearchState → Option Outcome
  | 0, _ => none
  | fuel + 1, s =>
    match sortedStep depNext s with
    | .error o => some o
    | .ok s' => sortedRun depNext fuel s'

namespace SortedSupers

/-- The state after the loop over `sortedSuper`. -/
def start (G : SortedSupers) : SearchState :=
  G.sortedSuper.foldl SearchState.push ⟨[], fun _ => none⟩

/-- `graph::detectSortedSuperLoop`; the fuel is enough for every input
    (`detectSortedSuperLoop_isSome`). -/
def detectSortedSuperLoop (G : SortedSupers) : Option Outcome :=
  sortedRun G.depNext (3 * G.size + G.sortedSuper.length + 1) G.start

/-! ## 2. Cycles and the push forest -/

/-- The relation restricted to the supers in `sortedSuper`. -/
def Edge (G : SortedSupers) (u v : Nat) : Prop :=
  u ∈ G.sortedSuper ∧ v ∈ G.sortedSuper ∧ v ∈ G.depNext u

/-- A cycle of length two or more of the restricted relation. -/
def HasCycle (G : SortedSupers) : Prop :=
  ∃ u v, u ≠ v ∧ TransGen G.Edge u v ∧ TransGen G.Edge v u

/-- The forest of the whole search.  A super listed twice is expanded where the stack, which
    holds `sortedSuper` from its end, meets it first. -/
def PushForest (G : SortedSupers) (F : Forest) : Prop :=
  ∃ claimed, Pushes G.depNext G.sortedSuper G.sortedSuper.dedup.reverse F claimed

/-- Some edge leads from a super to one of its proper ancestors in the push forest. -/
def BackEdge (G : SortedSupers) : Prop :=
  ∃ F, G.PushForest F ∧ F.HasBack G.depNext []

/-- No dependency edge leaves `sortedSuper`. -/
def Closed (G : SortedSupers) : Prop :=
  ∀ v ∈ G.sortedSuper, ∀ w ∈ G.depNext v, w ∈ G.sortedSuper

end SortedSupers

/-! ## 3. Runs -/

section Runs

variable {depNext : Nat → List Nat} {s s' : SearchState} {o o' : Outcome}

def SortedLeads (depNext : Nat → List Nat) : SearchState → SearchState → Prop :=
  ReflTransGen fun a b => sortedStep depNext a = .ok b

def SortedEnds (depNext : Nat → List Nat) (s : SearchState) (o : Outcome) : Prop :=
  ∃ s', SortedLeads depNext s s' ∧ sortedStep depNext s' = .error o

theorem SortedLeads.ends (h : SortedLeads depNext s s') (he : SortedEnds depNext s' o) :
    SortedEnds depNext s o := by
  obtain ⟨t, ht, hstep⟩ := he
  exact ⟨t, h.trans ht, hstep⟩

theorem SortedEnds.unique (h : SortedEnds depNext s o) (h' : SortedEnds depNext s o') : o = o' :=
  outcome_unique h h'

theorem sortedEnds_of_sortedRun : ∀ {fuel : Nat} {s : SearchState},
    sortedRun depNext fuel s = some o → SortedEnds depNext s o := by
  intro fuel
  induction fuel with
  | zero =>
    intro s h
    cases h
  | succ fuel ih =>
    intro s h
    rw [sortedRun] at h
    split at h
    · next o' hstep =>
      cases h
      exact ⟨s, .refl, hstep⟩
    · next s' hstep =>
      have hlead : SortedLeads depNext s s' := ReflTransGen.single hstep
      exact hlead.ends (ih h)

/-- The two searches differ in one state only, the one in which `detectLoop` gives up. -/
theorem sortedStep_eq (h : ∀ v, detectStep depNext s ≠ .error (.alreadyVisited v)) :
    sortedStep depNext s = detectStep depNext s := by
  cases hs : s.stack with
  | nil => simp only [sortedStep, detectStep, hs]
  | cons top rest =>
    cases hst : s.states top with
    | none => simp only [sortedStep, detectStep, hs, hst]
    | some x =>
      cases x with
      | notVisit | expanded => simp only [sortedStep, detectStep, hs, hst]
      | visited =>
        have hstep : detectStep depNext s = .error (.alreadyVisited top) := by
          simp only [detectStep, hs, hst]
        exact absurd hstep (h top)

theorem sortedStep_of_ok (h : detectStep depNext s = .ok s') : sortedStep depNext s = .ok s' := by
  rw [sortedStep_eq, h]
  intro v hv
  rw [h] at hv
  cases hv

theorem Leads.sorted (h : Leads depNext s s') : SortedLeads depNext s s' :=
  ReflTransGen.mono (fun _ _ => sortedStep_of_ok) _ _ h

theorem Ends.sorted {shown : List Nat} (h : Ends depNext s (.loop shown)) :
    SortedEnds depNext s (.loop shown) := by
  obtain ⟨t, ht, hstep⟩ := h
  refine ⟨t, Leads.sorted ht, ?_⟩
  rw [sortedStep_eq, hstep]
  intro v hv
  rw [hstep] at hv
  cases hv

/-! ### Every run ends -/

/-- What a super still costs: an entry of the stack is popped once more after its visit. -/
def cost : Option VisitState → Nat
  | none => 3
  | some .notVisit => 2
  | some .expanded => 1
  | some .visited => 0

def totalCost (size : Nat) (states : Nat → Option VisitState) : Nat :=
  ∑ v ∈ Finset.range size, cost (states v)

/-- Every iteration lowers this. -/
def remaining (size : Nat) (s : SearchState) : Nat :=
  totalCost size s.states + s.stack.length

theorem remaining_mark {size v : Nat} (hv : v < size) (s : SearchState) (x : VisitState) :
    remaining size (s.mark v x) + cost (s.states v) = remaining size s + cost (some x) := by
  have hupd := sum_states_update cost hv s.states x
  simp only [remaining, totalCost, SearchState.mark]
  omega

theorem scanNext_remaining {size top : Nat} : ∀ {l : List Nat} {s : SearchState},
    (∀ v ∈ l, v < size) → (∀ v ∈ s.stack, v < size) → scanNext top l s = .ok s' →
    remaining size s' ≤ remaining size s ∧ ∀ v ∈ s'.stack, v < size := by
  intro l
  induction l with
  | nil =>
    intro s _ hstack h
    cases h
    exact ⟨le_refl _, hstack⟩
  | cons w rest ih =>
    intro s hl hstack h
    obtain ⟨hw, hrest⟩ := List.forall_mem_cons.mp hl
    rw [scanNext] at h
    split at h
    · exact ih hrest hstack h
    · split at h
      · next hnone =>
        -- the new entry of the stack is paid for by the super, which is now known
        have hpush := ih (s := s.push w) hrest (List.forall_mem_cons.mpr ⟨hw, hstack⟩) h
        have hmark := remaining_mark hw s .notVisit
        have hlen : remaining size (s.push w) = remaining size (s.mark w .notVisit) + 1 := rfl
        rw [hnone] at hmark
        simp only [cost] at hmark
        exact ⟨by omega, hpush.2⟩
      · split at h
        · cases h
        · have hempty := @ih { s with stack := [] } hrest (List.forall_mem_nil _) h
          exact ⟨hempty.1.trans (Nat.add_le_add_left (Nat.zero_le _) _), hempty.2⟩
      · exact ih hrest hstack h

theorem sortedStep_remaining {size : Nat} (hnext : ∀ v, ∀ w ∈ depNext v, w < size)
    (hstack : ∀ v ∈ s.stack, v < size) (h : sortedStep depNext s = .ok s') :
    remaining size s' < remaining size s ∧ ∀ v ∈ s'.stack, v < size := by
  unfold sortedStep at h
  split at h
  · cases h
  · next top rest hs =>
    have hall := hstack
    rw [hs] at hall
    obtain ⟨htop, hrest⟩ := List.forall_mem_cons.mp hall
    split at h
    · next hexp =>
      cases h
      have hmark := remaining_mark htop s .visited
      simp only [remaining, SearchState.mark, hs, hexp, cost, List.length_cons] at hmark ⊢
      exact ⟨by omega, hrest⟩
    · cases h
      simp only [remaining, hs, List.length_cons]
      exact ⟨by omega, hrest⟩
    · next hne hnv =>
      have hscan := scanNext_remaining (s := s.mark top .expanded) (hnext top) hstack h
      have hmark := remaining_mark htop s .expanded
      have hcost : 2 ≤ cost (s.states top) := by
        cases hst : s.states top with
        | none => decide
        | some x =>
          cases x with
          | notVisit => decide
          | expanded => exact absurd hst hne
          | visited => exact absurd hst hnv
      have hone : cost (some VisitState.expanded) = 1 := rfl
      refine ⟨?_, hscan.2⟩
      omega

theorem sortedRun_isSome {size : Nat} (hnext : ∀ v, ∀ w ∈ depNext v, w < size) :
    ∀ {fuel : Nat} {s : SearchState}, (∀ v ∈ s.stack, v < size) →
      remaining size s < fuel → ∃ o, sortedRun depNext fuel s = some o := by
  intro fuel
  induction fuel with
  | zero =>
    intro s _ hlt
    exact absurd hlt (Nat.not_lt_zero _)
  | succ fuel ih =>
    intro s hstack hlt
    rw [sortedRun]
    cases hstep : sortedStep depNext s with
    | error o => exact ⟨o, rfl⟩
    | ok s' =>
      obtain ⟨hless, hstack'⟩ := sortedStep_remaining hnext hstack hstep
      exact ih hstack' (by omega)

end Runs

/-! ## 4. The supers of `sortedSuper`, one after the other -/

section Roots

variable {depNext : Nat → List Nat} {claimed claimed' before done : List Nat} {v : Nat}
  {s s' : SearchState} {F : Forest}

/-- The supers of `before` that are still to be expanded, in the order of the stack. -/
def roots (before done : List Nat) : List Nat :=
  ((before.filter (· ∉ done)).dedup).reverse

theorem dedup_append_singleton (l : List Nat) (v : Nat) :
    (l ++ [v]).dedup = (l.filter (· ≠ v)).dedup ++ [v] := by
  induction l with
  | nil => rfl
  | cons w l ih =>
    rw [List.cons_append]
    by_cases hw : w = v
    · subst hw
      rw [List.dedup_cons_of_mem (List.mem_append_right _ List.mem_cons_self), ih,
        List.filter_cons_of_neg (by simp)]
    · rw [List.filter_cons_of_pos (by simp [hw])]
      by_cases hmem : w ∈ l
      · have hkept : w ∈ l.filter (· ≠ v) := List.mem_filter.mpr ⟨hmem, by simp [hw]⟩
        rw [List.dedup_cons_of_mem (List.mem_append_left _ hmem), ih, List.dedup_cons_of_mem hkept]
      · have hout : w ∉ l.filter (· ≠ v) := fun h => hmem (List.mem_filter.mp h).1
        have hnew : w ∉ l ++ [v] := by simp [hmem, hw]
        rw [List.dedup_cons_of_notMem hnew, ih, List.dedup_cons_of_notMem hout, List.cons_append]

theorem roots_of_done (h : v ∈ done) : roots (before ++ [v]) done = roots before (v :: done) := by
  have hsame : (before.filter (· ∉ v :: done)) = before.filter (· ∉ done) := by
    apply List.filter_congr
    intro w _
    by_cases hw : w = v
    · subst hw
      simp [h]
    · simp [hw]
  rw [roots, roots, hsame, List.filter_append, List.filter_cons_of_neg (by simp [h]),
    List.filter_nil, List.append_nil]

theorem roots_of_not_done (h : v ∉ done) :
    roots (before ++ [v]) done = v :: roots before (v :: done) := by
  have hrest : (before.filter (· ∉ done)).filter (· ≠ v) = before.filter (· ∉ v :: done) := by
    rw [List.filter_filter]
    apply List.filter_congr
    intro w _
    simp
  rw [roots, roots, List.filter_append, List.filter_cons_of_pos (by simp [h]), List.filter_nil,
    dedup_append_singleton, hrest, List.reverse_append]
  rfl

/-- Between two supers of `sortedSuper`: `done` are popped, the stack holds `before`. -/
structure Between (before done claimed : List Nat) (s : SearchState) : Prop where
  stack : s.stack = before.reverse
  known : ∀ v, s.states v ≠ none ↔ v ∈ claimed
  expanded : ∀ v, s.states v ≠ some .expanded
  waiting : ∀ v ∈ before, v ∉ done → s.states v = some .notVisit
  visited : ∀ v ∈ done, s.states v = some .visited

/-- A super met for the second time is popped. -/
theorem Between.skips (h : Between (before ++ [v]) done claimed s) (hv : v ∈ done) :
    ∃ s', SortedLeads depNext s s' ∧ Between before (v :: done) claimed s' := by
  have hstack : s.stack = v :: before.reverse := by rw [h.stack, List.reverse_append]; rfl
  have hstep : sortedStep depNext s = .ok { s with stack := before.reverse } := by
    simp only [sortedStep, hstack, h.visited v hv]
  refine ⟨_, ReflTransGen.single hstep, rfl, h.known, h.expanded, ?_, ?_⟩
  · intro w hw hnot
    exact h.waiting w (List.mem_append_left _ hw) fun hd => hnot (List.mem_cons_of_mem v hd)
  · intro w hw
    rcases List.mem_cons.mp hw with rfl | hw
    · exact h.visited _ hv
    · exact h.visited w hw

/-- The top of the stack alone is a level of the push forest. -/
theorem Between.waiting_top (h : Between (before ++ [v]) done claimed s) (hv : v ∉ done) :
    Waiting claimed [v] before.reverse [] s where
  stack := by rw [h.stack, List.reverse_append]; rfl
  known := h.known
  expanded w := ⟨fun hw => absurd hw (h.expanded w), fun hw => by cases hw⟩
  waiting w hw := by
    obtain rfl := List.mem_singleton.mp hw
    exact h.waiting _ (List.mem_append_right _ List.mem_cons_self) hv
  nodup := List.nodup_singleton v
  below := List.forall_mem_nil _

theorem Between.of_finished (h : Between (before ++ [v]) done claimed s) (hv : v ∉ done)
    (hdone : ∀ w ∈ done, w ∈ claimed)
    (hfin : Finished claimed claimed' [v] before.reverse [] s s') :
    Between before (v :: done) claimed' s' where
  stack := hfin.stack
  known := hfin.known
  expanded w hw := by cases (hfin.expanded w).mp hw
  waiting w hw hnot := by
    obtain ⟨hne, hnotdone⟩ := not_or.mp fun hor => hnot (List.mem_cons.mpr hor)
    have hwait := h.waiting w (List.mem_append_left _ hw) hnotdone
    have hmem : w ∈ claimed := (h.known w).mp (by rw [hwait]; exact Option.some_ne_none _)
    rw [hfin.frame w hmem fun hin => hne (List.mem_singleton.mp hin), hwait]
  visited w hw := by
    rcases List.mem_cons.mp hw with rfl | hw
    · exact hfin.visited _ List.mem_cons_self
    · have hne : w ∉ [v] := fun hin => hv (List.mem_singleton.mp hin ▸ hw)
      rw [hfin.frame w (hdone w hw) hne, h.visited w hw]

/-- **The run over the roots**: the search reports a loop exactly when the forest of the supers
    that are left has an edge to an ancestor. -/
theorem Pushes.sorted_run (hnodup : ∀ v, (depNext v).Nodup) :
    ∀ {before done claimed claimed' : List Nat} {s : SearchState} {F : Forest},
      Pushes depNext claimed (roots before done) F claimed' → Between before done claimed s →
      (F.HasBack depNext [] ∧ ∃ shown, SortedEnds depNext s (.loop shown)) ∨
      (¬ F.HasBack depNext [] ∧ SortedEnds depNext s .noLoop) := by
  intro before
  induction before using List.reverseRecOn with
  | nil =>
    intro done claimed claimed' s F hF hs
    have hnil : F = .nil := by
      cases hF
      rfl
    have hend : sortedStep depNext s = .error .noLoop := by
      simp only [sortedStep, hs.stack, List.reverse_nil]
    refine .inr ⟨?_, s, .refl, hend⟩
    rw [hnil]
    exact id
  | append_singleton before v ih =>
    intro done claimed claimed' s F hF hs
    by_cases hv : v ∈ done
    · rw [roots_of_done hv] at hF
      obtain ⟨s₁, hlead, hs₁⟩ : ∃ s', SortedLeads depNext s s' ∧ Between before (v :: done) claimed s' :=
        hs.skips hv
      rcases ih hF hs₁ with ⟨hback, shown, hends⟩ | ⟨hno, hends⟩
      · exact .inl ⟨hback, shown, hlead.ends hends⟩
      · exact .inr ⟨hno, hlead.ends hends⟩
    · rw [roots_of_not_done hv] at hF
      cases hF with
      | @node _ mid _ _ _ children siblings hchildren hsiblings =>
        have htop := hs.waiting_top hv
        have hlevel : Pushes depNext claimed [v] (.node v children .nil) mid :=
          .node hchildren (.nil mid)
        have hdone : ∀ w ∈ done, w ∈ claimed := by
          intro w hw
          apply (hs.known w).mp
          rw [hs.visited w hw]
          exact Option.some_ne_none _
        rcases hlevel.simulates hnodup htop with ⟨hback, shown, hends⟩ | ⟨hno, s₁, hlead, hfin⟩
        · refine .inl ⟨?_, shown, hends.sorted⟩
          rcases hback with hedge | hback | hback
          · exact .inl hedge
          · exact .inr (.inl hback)
          · exact hback.elim
        · rcases ih hsiblings (hs.of_finished hv hdone hfin) with
            ⟨hback, shown, hends⟩ | ⟨hnosib, hends⟩
          · exact .inl ⟨.inr (.inr hback), shown, hlead.sorted.ends hends⟩
          · refine .inr ⟨?_, hlead.sorted.ends hends⟩
            rintro (hedge | hback | hback)
            · exact hno (.inl hedge)
            · exact hno (.inr (.inl hback))
            · exact hnosib hback

end Roots

/-! ## 5. What the function reports -/

namespace SortedSupers

variable (G : SortedSupers)

theorem start_between : Between G.sortedSuper [] G.sortedSuper G.start where
  stack := by rw [start, foldl_push_stack, List.append_nil]
  known v := by
    rw [start, foldl_push_states]
    by_cases hv : v ∈ G.sortedSuper <;> simp [hv]
  expanded v := by
    rw [start, foldl_push_states]
    by_cases hv : v ∈ G.sortedSuper <;> simp [hv]
  waiting v hv _ := by rw [start, foldl_push_states, if_pos hv]
  visited := List.forall_mem_nil _

/-- The function always ends. -/
theorem detectSortedSuperLoop_isSome : ∃ o, G.detectSortedSuperLoop = some o := by
  apply sortedRun_isSome G.depNext_lt
  · intro v hv
    rw [G.start_between.stack] at hv
    exact G.sortedSuper_lt v (List.mem_reverse.mp hv)
  · have hle : totalCost G.size G.start.states ≤ ∑ _v ∈ Finset.range G.size, 3 := by
      apply Finset.sum_le_sum
      intro v _
      rw [start, foldl_push_states]
      split
      · decide
      · exact le_refl 3
    rw [Finset.sum_const_nat fun _ _ => rfl, Finset.card_range] at hle
    rw [remaining, G.start_between.stack, List.length_reverse]
    omega

theorem detectSortedSuperLoop_eq_iff {o : Outcome} :
    G.detectSortedSuperLoop = some o ↔ SortedEnds G.depNext G.start o := by
  constructor
  · exact sortedEnds_of_sortedRun
  · intro h
    obtain ⟨o', ho'⟩ := G.detectSortedSuperLoop_isSome
    rw [ho', h.unique (sortedEnds_of_sortedRun ho')]

theorem exists_pushForest : ∃ F, G.PushForest F := by
  obtain ⟨F, claimed', h⟩ :=
    exists_pushes G.depNext_lt _ G.sortedSuper.dedup.reverse G.sortedSuper (le_refl _)
  exact ⟨F, claimed', h⟩

/-- The push forest decides. -/
theorem detectSortedSuperLoop_of_pushForest {F : Forest} (hF : G.PushForest F) :
    (F.HasBack G.depNext [] ∧ ∃ shown, G.detectSortedSuperLoop = some (.loop shown)) ∨
    (¬ F.HasBack G.depNext [] ∧ G.detectSortedSuperLoop = some .noLoop) := by
  obtain ⟨claimed', hpushes⟩ := hF
  have hroots : roots G.sortedSuper [] = G.sortedSuper.dedup.reverse := by simp [roots]
  rw [← hroots] at hpushes
  rcases hpushes.sorted_run G.depNext_nodup G.start_between with
    ⟨hback, shown, hends⟩ | ⟨hno, hends⟩
  · exact .inl ⟨hback, shown, G.detectSortedSuperLoop_eq_iff.mpr hends⟩
  · exact .inr ⟨hno, G.detectSortedSuperLoop_eq_iff.mpr hends⟩

theorem detectSortedSuperLoop_eq_noLoop_iff :
    G.detectSortedSuperLoop = some .noLoop ↔ ¬ G.BackEdge := by
  constructor
  · rintro hno ⟨F, hF, hback⟩
    rcases G.detectSortedSuperLoop_of_pushForest hF with ⟨-, shown, hloop⟩ | ⟨hnot, -⟩
    · rw [hloop] at hno
      cases hno
    · exact hnot hback
  · intro hno
    obtain ⟨F, hF⟩ := G.exists_pushForest
    rcases G.detectSortedSuperLoop_of_pushForest hF with ⟨hback, -⟩ | ⟨-, h⟩
    · exact absurd ⟨F, hF, hback⟩ hno
    · exact h

/-- Supers whose successors are all claimed have no children, so nothing leads to an ancestor. -/
theorem not_hasBack_of_claimed {depNext : Nat → List Nat} {claimed claimed' level : List Nat}
    {F : Forest} (h : Pushes depNext claimed level F claimed') :
    (∀ v ∈ level, ∀ w ∈ depNext v, w ∈ claimed) → ¬ F.HasBack depNext [] := by
  induction h with
  | nil => exact fun _ => id
  | @node claimed mid claimed' v rest children siblings hchildren _ _ ihsiblings =>
    intro hclosed
    obtain ⟨hv, hrest⟩ := List.forall_mem_cons.mp hclosed
    have hfresh : fresh depNext claimed v = [] := by
      apply List.filter_eq_nil_iff.mpr
      intro w hw
      simp [hv w hw]
    rw [hfresh] at hchildren
    rintro (⟨w, -, -, hw⟩ | hback | hback)
    · cases hw
    · cases hchildren
      exact hback
    · refine ihsiblings ?_ hback
      intro u hu w hw
      cases hchildren
      exact hrest u hu w hw

/-- **Nothing is reported on a relation over `sortedSuper`**: all of it is marked before the
    search begins. -/
theorem not_backEdge_of_closed (hclosed : G.Closed) : ¬ G.BackEdge := by
  rintro ⟨F, ⟨claimed', hpushes⟩, hback⟩
  refine not_hasBack_of_claimed hpushes ?_ hback
  intro v hv
  exact hclosed v (List.mem_dedup.mp (List.mem_reverse.mp hv))

/-- **When `NO Loop!` can be trusted**: a relation with a cycle is reported exactly when its push
    forest has an edge to an ancestor, and on a relation that stays in `sortedSuper` the answer
    is right only where there is no cycle. -/
theorem sortedLoop_complete_iff :
    ((G.detectSortedSuperLoop = some .noLoop → ¬ G.HasCycle) ↔ (G.HasCycle → G.BackEdge)) ∧
    (G.Closed →
      ((G.detectSortedSuperLoop = some .noLoop → ¬ G.HasCycle) ↔ ¬ G.HasCycle)) := by
  rw [detectSortedSuperLoop_eq_noLoop_iff]
  constructor
  · constructor
    · intro h hcycle
      by_contra hback
      exact h hback hcycle
    · intro h hback hcycle
      exact hback (h hcycle)
  · intro hclosed
    have hno := G.not_backEdge_of_closed hclosed
    exact ⟨fun h => h hno, fun h _ => h⟩

end SortedSupers

/-- Two supers that depend on each other. -/
def mutualPair : SortedSupers where
  size := 2
  depNext v := match v with
    | 0 => [1]
    | 1 => [0]
    | _ => []
  sortedSuper := [0, 1]
  depNext_nodup := by
    intro v
    split <;> decide
  depNext_lt := by
    intro v
    split <;> decide
  sortedSuper_lt := by decide

/-- Super 0 still waits when 1 is expanded, and 1 is visited when 0 is. -/
theorem mutualPair_missed :
    mutualPair.detectSortedSuperLoop = some .noLoop ∧ mutualPair.HasCycle := by
  refine ⟨by decide, 0, 1, by decide, .single ?_, .single ?_⟩
  · exact ⟨by decide, by decide, by decide⟩
  · exact ⟨by decide, by decide, by decide⟩

end Gsim.LoopDetector
