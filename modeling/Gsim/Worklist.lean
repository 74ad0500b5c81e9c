/-
  Gsim/Worklist.lean
  ==================
  **Reachability by a growing worklist.**

  A list of the elements found so far is read from the front; the successors of each
  are appended unless they are in it already.  With as much fuel as there are
  elements the list ends up with exactly what is reachable (`mem_closure_iff`).

  With a stack in place of the list, and a target to look for, the same fuel makes
  depth-first search decide reachability (`dfs_iff`).
-/
import Mathlib.Data.Finset.Card
import Mathlib.Logic.Relation

namespace Gsim.Worklist

open Relation

variable {α : Type} [DecidableEq α]

def add (s : List α) (a : α) : List α := if a ∈ s then s else s ++ [a]

def addAll (s : List α) (as : List α) : List α := as.foldl add s

def loop (succ : α → List α) : Nat → Nat → List α → List α
  | 0, _, s => s
  | fuel + 1, i, s =>
    match s[i]? with
    | none => s
    | some a => loop succ fuel (i + 1) (addAll s (succ a))

/-- What the loop finds from the roots. -/
def closure (succ : α → List α) (fuel : Nat) (roots : List α) : List α :=
  loop succ fuel 0 (addAll [] roots)

theorem mem_add {s : List α} {a b : α} : b ∈ add s a ↔ b ∈ s ∨ b = a := by
  unfold add
  split
  · rename_i mem
    exact ⟨.inl, fun h => h.elim id fun eq => eq ▸ mem⟩
  · simp

theorem nodup_add {s : List α} (h : s.Nodup) (a : α) : (add s a).Nodup := by
  unfold add
  split
  · exact h
  · rename_i out
    exact List.nodup_append.mpr ⟨h, List.nodup_singleton a, fun x hx y hy eq =>
      out (List.mem_singleton.mp hy ▸ eq ▸ hx)⟩

theorem isPrefix_add (s : List α) (a : α) : s <+: add s a := by
  unfold add
  split
  · exact List.prefix_rfl
  · exact List.prefix_append _ _

theorem addAll_spec (as : List α) : ∀ {s : List α}, s.Nodup →
    (addAll s as).Nodup ∧ s <+: addAll s as ∧ ∀ b, b ∈ addAll s as ↔ b ∈ s ∨ b ∈ as := by
  induction as with
  | nil =>
    intro s h
    exact ⟨h, List.prefix_rfl, fun b => by simp [addAll]⟩
  | cons a as ih =>
    intro s h
    obtain ⟨nodup, pre, mem⟩ := ih (nodup_add h a)
    refine ⟨nodup, (isPrefix_add s a).trans pre, fun b => (mem b).trans ?_⟩
    rw [mem_add, List.mem_cons, or_assoc]

/-- The successors of the first `i` elements are in the list. -/
structure Inv (succ : α → List α) (roots : List α) (i : Nat) (s : List α) : Prop where
  nodup : s.Nodup
  start : ∀ r ∈ roots, r ∈ s
  reachable : ∀ a ∈ s, ∃ r ∈ roots, ReflTransGen (fun a b => b ∈ succ a) r a
  expanded : ∀ j < i, ∀ a, s[j]? = some a → ∀ b ∈ succ a, b ∈ s

theorem Inv.initial (succ : α → List α) (roots : List α) : Inv succ roots 0 (addAll [] roots) := by
  obtain ⟨nodup, _, mem⟩ := addAll_spec roots List.nodup_nil
  refine ⟨nodup, fun r hr => (mem r).mpr (.inr hr), fun a ha => ?_, fun j hj => absurd hj (by omega)⟩
  refine ⟨a, ?_, .refl⟩
  simpa using (mem a).mp ha

theorem Inv.step {succ : α → List α} {roots s : List α} {i : Nat} {a : α}
    (inv : Inv succ roots i s) (ha : s[i]? = some a) :
    Inv succ roots (i + 1) (addAll s (succ a)) := by
  obtain ⟨nodup, pre, mem⟩ := addAll_spec (succ a) inv.nodup
  have hmem : a ∈ s := List.mem_of_getElem? ha
  refine ⟨nodup, fun r hr => (mem r).mpr (.inl (inv.start r hr)), ?_, ?_⟩
  · intro b hb
    rcases (mem b).mp hb with hb | hb
    · exact inv.reachable b hb
    · obtain ⟨r, hr, path⟩ := inv.reachable a hmem
      exact ⟨r, hr, path.tail hb⟩
  · intro j hj c hc b hb
    have hlt : j < s.length := by
      have := (List.getElem?_eq_some_iff.mp ha).1
      omega
    obtain ⟨rest, happ⟩ := pre
    rw [← happ, List.getElem?_append_left hlt] at hc
    rcases Nat.lt_succ_iff_lt_or_eq.mp hj with hj | rfl
    · exact (mem b).mpr (.inl (inv.expanded j hj c hc b hb))
    · rw [ha] at hc
      cases hc
      exact (mem b).mpr (.inr hb)

theorem loop_spec {succ : α → List α} {roots : List α} {all : Finset α}
    (closed : ∀ a ∈ all, ∀ b ∈ succ a, b ∈ all) (fuel : Nat) :
    ∀ {i : Nat} {s : List α}, Inv succ roots i s → (∀ a ∈ s, a ∈ all) → all.card ≤ fuel + i →
      ∃ j, (loop succ fuel i s).length ≤ j ∧ Inv succ roots j (loop succ fuel i s) := by
  induction fuel with
  | zero =>
    intro i s inv sub card
    refine ⟨i, ?_, inv⟩
    have le : s.toFinset.card ≤ all.card :=
      Finset.card_le_card fun a ha => sub a (List.mem_toFinset.mp ha)
    rw [List.toFinset_card_of_nodup inv.nodup] at le
    exact (le.trans card).trans (by omega)
  | succ fuel ih =>
    intro i s inv sub card
    unfold loop
    cases ha : s[i]? with
    | none => exact ⟨i, List.getElem?_eq_none_iff.mp ha, inv⟩
    | some a =>
      refine ih (inv.step ha) ?_ (by omega)
      intro b hb
      rcases ((addAll_spec (succ a) inv.nodup).2.2 b).mp hb with hb | hb
      · exact sub b hb
      · exact closed a (sub a (List.mem_of_getElem? ha)) b hb

theorem mem_closure_iff {succ : α → List α} {roots : List α} (all : Finset α) {fuel : Nat}
    (hroots : ∀ r ∈ roots, r ∈ all) (closed : ∀ a ∈ all, ∀ b ∈ succ a, b ∈ all)
    (card : all.card ≤ fuel) (a : α) :
    a ∈ closure succ fuel roots ↔ ∃ r ∈ roots, ReflTransGen (fun a b => b ∈ succ a) r a := by
  have sub : ∀ a ∈ addAll [] roots, a ∈ all := by
    intro a ha
    rcases ((addAll_spec roots List.nodup_nil).2.2 a).mp ha with ha | ha
    · cases ha
    · exact hroots a ha
  obtain ⟨j, hj, inv⟩ := loop_spec closed fuel (Inv.initial succ roots) sub (by omega)
  refine ⟨inv.reachable a, ?_⟩
  rintro ⟨r, hr, path⟩
  induction path with
  | refl => exact inv.start r hr
  | tail _ edge ih =>
    obtain ⟨k, hk, heq⟩ := List.getElem_of_mem ih
    exact inv.expanded k (hk.trans_le hj) _ (List.getElem?_eq_some_iff.mpr ⟨hk, heq⟩) _ edge

/-! ## Depth-first search -/

/-- The top of the stack comes first; `fuel` is how many elements may still be expanded. -/
def dfs (succ : α → List α) (target : α) (fuel : Nat) (visited stack : List α) : Bool :=
  match stack with
  | [] => false
  | a :: stack =>
    if a = target then true
    else if a ∈ visited then dfs succ target fuel visited stack
    else
      match fuel with
      | 0 => false
      | fuel + 1 => dfs succ target fuel (a :: visited) ((succ a).reverse ++ stack)
termination_by (fuel, stack.length)

/-- What was visited leads nowhere but to what was visited or is on the stack. -/
structure Searching (succ : α → List α) (target : α) (all : Finset α) (fuel : Nat)
    (visited stack : List α) : Prop where
  nodup : visited.Nodup
  visitedIn : ∀ a ∈ visited, a ∈ all
  stackIn : ∀ a ∈ stack, a ∈ all
  card : all.card ≤ fuel + visited.length
  target : target ∉ visited
  expanded : ∀ a ∈ visited, ∀ b ∈ succ a, b ∈ visited ∨ b ∈ stack

section Dfs

variable {succ : α → List α} {target a : α} {all : Finset α} {fuel : Nat} {visited stack : List α}

omit [DecidableEq α] in
/-- A path from a visited element to the target goes through the stack. -/
theorem Searching.through_stack (h : Searching succ target all fuel visited stack)
    (ha : a ∈ visited) (path : ReflTransGen (fun a b => b ∈ succ a) a target) :
    ∃ b ∈ stack, ReflTransGen (fun a b => b ∈ succ a) b target := by
  induction path using ReflTransGen.head_induction_on with
  | refl => exact absurd ha h.target
  | head edge rest ih =>
    rcases h.expanded _ ha _ edge with old | new
    · exact ih old
    · exact ⟨_, new, rest⟩

omit [DecidableEq α] in
theorem Searching.pop (h : Searching succ target all fuel visited (a :: stack))
    (ha : a ∈ visited) : Searching succ target all fuel visited stack where
  nodup := h.nodup
  visitedIn := h.visitedIn
  stackIn b hb := h.stackIn b (List.mem_cons_of_mem _ hb)
  card := h.card
  target := h.target
  expanded b hb c hc := by
    rcases h.expanded b hb c hc with old | new
    · exact .inl old
    · rcases List.mem_cons.mp new with rfl | rest
      · exact .inl ha
      · exact .inr rest

omit [DecidableEq α] in
theorem Searching.expand (h : Searching succ target all (fuel + 1) visited (a :: stack))
    (closed : ∀ a ∈ all, ∀ b ∈ succ a, b ∈ all) (ha : a ∉ visited) (ne : a ≠ target) :
    Searching succ target all fuel (a :: visited) ((succ a).reverse ++ stack) where
  nodup := List.nodup_cons.mpr ⟨ha, h.nodup⟩
  visitedIn b hb := by
    rcases List.mem_cons.mp hb with rfl | old
    · exact h.stackIn b List.mem_cons_self
    · exact h.visitedIn b old
  stackIn b hb := by
    rcases List.mem_append.mp hb with new | old
    · exact closed a (h.stackIn a List.mem_cons_self) b (List.mem_reverse.mp new)
    · exact h.stackIn b (List.mem_cons_of_mem _ old)
  card := by
    have := h.card
    rw [List.length_cons]
    omega
  target mem := by
    rcases List.mem_cons.mp mem with eq | old
    · exact ne eq.symm
    · exact h.target old
  expanded b hb c hc := by
    rcases List.mem_cons.mp hb with rfl | old
    · exact .inr (List.mem_append_left _ (List.mem_reverse.mpr hc))
    · rcases h.expanded b old c hc with before | new
      · exact .inl (List.mem_cons_of_mem _ before)
      · rcases List.mem_cons.mp new with rfl | rest
        · exact .inl List.mem_cons_self
        · exact .inr (List.mem_append_right _ rest)

theorem Searching.fuel_pos (h : Searching succ target all 0 visited (a :: stack))
    (ha : a ∉ visited) : False := by
  have nodup : (a :: visited).Nodup := List.nodup_cons.mpr ⟨ha, h.nodup⟩
  have sub : (a :: visited).toFinset ⊆ all := by
    intro b hb
    rcases List.mem_cons.mp (List.mem_toFinset.mp hb) with rfl | old
    · exact h.stackIn b List.mem_cons_self
    · exact h.visitedIn b old
  have le := Finset.card_le_card sub
  rw [List.toFinset_card_of_nodup nodup, List.length_cons] at le
  have := h.card
  omega

theorem dfs_stack_iff (closed : ∀ a ∈ all, ∀ b ∈ succ a, b ∈ all)
    (h : Searching succ target all fuel visited stack) :
    dfs succ target fuel visited stack = true ↔
      ∃ a ∈ stack, ReflTransGen (fun a b => b ∈ succ a) a target := by
  fun_induction dfs succ target fuel visited stack with
  | case1 => simp
  | case2 fuel visited stack =>
    exact ⟨fun _ => ⟨_, List.mem_cons_self, .refl⟩, fun _ => rfl⟩
  | case3 fuel visited a stack ne old ih =>
    rw [ih (h.pop old)]
    constructor
    · rintro ⟨b, hb, path⟩
      exact ⟨b, List.mem_cons_of_mem _ hb, path⟩
    · rintro ⟨b, hb, path⟩
      rcases List.mem_cons.mp hb with rfl | rest
      · exact (h.pop old).through_stack old path
      · exact ⟨b, rest, path⟩
  | case4 visited a stack ne new => exact absurd (h.fuel_pos new) id
  | case5 visited a stack ne new fuel ih =>
    rw [ih (h.expand closed new ne)]
    constructor
    · rintro ⟨b, hb, path⟩
      rcases List.mem_append.mp hb with next | rest
      · exact ⟨a, List.mem_cons_self, path.head (List.mem_reverse.mp next)⟩
      · exact ⟨b, List.mem_cons_of_mem _ rest, path⟩
    · rintro ⟨b, hb, path⟩
      rcases List.mem_cons.mp hb with rfl | rest
      · rcases ReflTransGen.cases_head path with eq | ⟨c, edge, path⟩
        · exact absurd eq ne
        · exact ⟨c, List.mem_append_left _ (List.mem_reverse.mpr edge), path⟩
      · exact ⟨b, List.mem_append_right _ rest, path⟩

theorem dfs_iff (all : Finset α) {fuel : Nat} {a : α} (ha : a ∈ all)
    (closed : ∀ a ∈ all, ∀ b ∈ succ a, b ∈ all) (card : all.card ≤ fuel) :
    dfs succ target fuel [] [a] = true ↔ ReflTransGen (fun a b => b ∈ succ a) a target := by
  have start : Searching succ target all fuel [] [a] :=
    ⟨List.nodup_nil, by simp, by simpa using ha, by simpa using card, List.not_mem_nil, by simp⟩
  rw [dfs_stack_iff closed start]
  simp

end Dfs

end Gsim.Worklist
