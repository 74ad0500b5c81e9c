/-
  Gsim/TokenRuns.lean
  ===================
  **Rewriting the tokens of a text.**

  A token is a maximal run of the elements that satisfy `p`.  `mapTokens` rewrites
  every token and copies what is between them.  Where the images are again runs,
  the rewritten text determines them one by one (`mapTokens_eq_iff`), so two
  rewritings of a text agree exactly when they agree on its tokens.
-/
import Mathlib.Data.List.TakeWhile
import Mathlib.Tactic

namespace TokenRuns

variable {α : Type*} (p : α → Bool)

/-- The maximal runs of `p`, in order. -/
def tokens : List α → List (List α)
  | [] => []
  | c :: cs => if p c then (c :: cs.takeWhile p) :: tokens (cs.dropWhile p) else tokens cs
termination_by text => text.length
decreasing_by
  · exact Nat.lt_succ_of_le (List.length_dropWhile_le p cs)
  · exact Nat.lt_succ_self _

/-- Every maximal run `t` replaced by `g t`, all at once. -/
def mapTokens (g : List α → List α) : List α → List α
  | [] => []
  | c :: cs =>
      if p c then g (c :: cs.takeWhile p) ++ mapTokens g (cs.dropWhile p) else c :: mapTokens g cs
termination_by text => text.length
decreasing_by
  · exact Nat.lt_succ_of_le (List.length_dropWhile_le p cs)
  · exact Nat.lt_succ_self _

/-- A text that does not begin inside a run. -/
def Breaks (text : List α) : Prop := ∀ c ∈ text.head?, p c = false

variable {p}

theorem breaks_dropWhile (text : List α) : Breaks p (text.dropWhile p) := by
  intro c hc
  have := List.head?_dropWhile_not p text
  rw [Option.mem_def.mp hc] at this
  simpa using this

theorem breaks_mapTokens {g : List α → List α} {text : List α} (breaks : Breaks p text) :
    Breaks p (mapTokens p g text) := by
  cases text with
  | nil => simpa [mapTokens] using breaks
  | cons c cs =>
    have stop : p c = false := breaks c rfl
    rw [mapTokens, if_neg (by simp [stop])]
    intro d hd
    obtain rfl : c = d := by simpa using hd
    exact stop

/-- A run in front of a break is recovered as the longest one. -/
theorem takeWhile_append_of_breaks {run rest : List α} (all : ∀ c ∈ run, p c) (breaks : Breaks p rest) :
    (run ++ rest).takeWhile p = run := by
  rw [List.takeWhile_append_of_pos all]
  cases rest with
  | nil => simp
  | cons c cs => simp [breaks c rfl]

theorem dropWhile_append_of_breaks {run rest : List α} (all : ∀ c ∈ run, p c) (breaks : Breaks p rest) :
    (run ++ rest).dropWhile p = rest := by
  have split := List.takeWhile_append_dropWhile (p := p) (l := run ++ rest)
  rw [takeWhile_append_of_breaks all breaks] at split
  exact List.append_cancel_left split

theorem append_inj_of_breaks {run run' rest rest' : List α} (all : ∀ c ∈ run, p c) (all' : ∀ c ∈ run', p c)
    (breaks : Breaks p rest) (breaks' : Breaks p rest') (same : run ++ rest = run' ++ rest') :
    run = run' ∧ rest = rest' := by
  have run_eq : run = run' := by
    rw [← takeWhile_append_of_breaks all breaks, same, takeWhile_append_of_breaks all' breaks']
  subst run_eq
  exact ⟨rfl, List.append_cancel_left same⟩

/-- Two rewritings that keep runs agree on a text when they agree on each of its tokens. -/
theorem mapTokens_eq_iff {g h : List α → List α}
    (keeps : ∀ t, (∀ c ∈ t, p c) → ∀ c ∈ g t, p c) (keeps' : ∀ t, (∀ c ∈ t, p c) → ∀ c ∈ h t, p c)
    (text : List α) : mapTokens p g text = mapTokens p h text ↔ ∀ t ∈ tokens p text, g t = h t := by
  induction text using tokens.induct p with
  | case1 => simp [mapTokens, tokens]
  | case2 c cs hc ih =>
    have run : ∀ d ∈ c :: cs.takeWhile p, p d :=
      List.forall_mem_cons.mpr ⟨hc, fun d hd => List.mem_takeWhile_imp hd⟩
    rw [mapTokens, mapTokens, if_pos hc, if_pos hc, tokens, if_pos hc, List.forall_mem_cons, ← ih]
    constructor
    · exact append_inj_of_breaks (keeps _ run) (keeps' _ run) (breaks_mapTokens (breaks_dropWhile cs))
        (breaks_mapTokens (breaks_dropWhile cs))
    · rintro ⟨here, there⟩
      rw [here, there]
  | case3 c cs hc ih =>
    rw [mapTokens, mapTokens, if_neg hc, if_neg hc, tokens, if_neg hc, List.cons_inj_right]
    exact ih

end TokenRuns
