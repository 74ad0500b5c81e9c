/-
  Gsim/ChangeDriven.lean
  ======================
  **Evaluating only what may have changed.**

  Blocks write places of a shared store, and what a block writes depends on the store.
  A scan goes through the blocks in a fixed order but evaluates the pending ones only;
  evaluating a block wakes, that is makes pending, every block that would now write
  something else.  When no two blocks write one place in a scan, the blocks that are left
  out would have changed nothing: the scan ends in the store in which it ends when all
  blocks are evaluated (`Scans.eq_runAll`).

  A block that is not pending need not be up to date all the time.  Another block may
  have written one of its places earlier in the same scan; that its turn is still to come
  then shows that the two clash.
-/
import Mathlib

namespace ChangeDriven

variable {β ν V : Type*}

/-- A store with some places overwritten. -/
def overlay (w : ν → Option V) (s : ν → V) : ν → V := fun x => (w x).getD (s x)

theorem overlay_some {w : ν → Option V} {s : ν → V} {x : ν} {v : V} (h : w x = some v) :
    overlay w s x = v := by
  rw [overlay, h, Option.getD_some]

theorem overlay_none {w : ν → Option V} {s : ν → V} {x : ν} (h : w x = none) :
    overlay w s x = s x := by
  rw [overlay, h, Option.getD_none]

/-- Nothing changes if the places hold what is written. -/
theorem overlay_eq_self {w : ν → Option V} {s : ν → V} (h : ∀ x v, w x = some v → s x = v) :
    overlay w s = s := by
  funext x
  cases hw : w x with
  | none => exact overlay_none hw
  | some v => exact (overlay_some hw).trans (h x v hw).symm

/-- What a block writes, and which blocks its evaluation wakes. -/
structure Blocks (β ν V : Type*) where
  out : β → (ν → V) → ν → Option V
  wakes : β → (ν → V) → Set β
  /-- A block that is not woken would write the same as before. -/
  unwoken : ∀ {b c s}, c ∉ wakes b s → out c (overlay (out b s) s) = out c s

namespace Blocks

variable (B : Blocks β ν V)

def run (b : β) (s : ν → V) : ν → V := overlay (B.out b s) s

/-- All blocks in order. -/
def runAll (bs : List β) (s : ν → V) : ν → V := bs.foldl (fun s b => B.run b s) s

/-- The places that a block writes. -/
def writes (b : β) (s : ν → V) : Set ν := {x | ∃ v, B.out b s x = some v}

/-- No block writes a place of a set or one that an earlier block has written. -/
def ClashFree : List β → Set ν → (ν → V) → Prop
  | [], _, _ => True
  | b :: bs, written, s =>
    Disjoint (B.writes b s) written ∧ ClashFree bs (written ∪ B.writes b s) (B.run b s)

/-- The turn of a block in a scan, from a store and the pending blocks. -/
inductive Visit (b : β) : (ν → V) × Set β → (ν → V) × Set β → Prop where
  | evaluate {s : ν → V} {pending pending' : Set β} (turn : b ∈ pending)
      (keep : ∀ c ∈ pending, c ≠ b → c ∈ pending') (wake : B.wakes b s ⊆ pending') :
      Visit b (s, pending) (B.run b s, pending')
  | skip {s : ν → V} {pending pending' : Set β} (turn : b ∉ pending) (keep : pending ⊆ pending') :
      Visit b (s, pending) (s, pending')

/-- A scan through some blocks. -/
inductive Scans : List β → (ν → V) × Set β → (ν → V) × Set β → Prop where
  | nil {p : (ν → V) × Set β} : Scans [] p p
  | cons {b : β} {bs : List β} {p q r : (ν → V) × Set β} (here : B.Visit b p q) (rest : Scans bs q r) :
      Scans (b :: bs) p r

/-- Blocks that are not pending would change nothing. -/
def Settled (all : List β) (s : ν → V) (pending : Set β) : Prop :=
  ∀ c ∈ all, c ∉ pending → ∀ x v, B.out c s x = some v → s x = v

/-- The same in the middle of a scan: the turn of the blocks in `todo` is still to come, and the
places in `written` have been written by the others. -/
def SettledIn (all todo : List β) (written : Set ν) (s : ν → V) (pending : Set β) : Prop :=
  ∀ c ∈ all, c ∉ pending → ∀ x v, B.out c s x = some v →
    (s x = v ∨ c ∈ todo ∧ x ∈ written) ∧ (c ∈ todo ∨ x ∈ written)

variable {B}

theorem run_some {b : β} {s : ν → V} {x : ν} {v : V} (h : B.out b s x = some v) : B.run b s x = v :=
  overlay_some h

theorem run_of_not_mem {b : β} {s : ν → V} {x : ν} (h : x ∉ B.writes b s) : B.run b s x = s x := by
  apply overlay_none
  cases hx : B.out b s x with
  | none => rfl
  | some v => exact absurd ⟨v, hx⟩ h

theorem Settled.start {all : List β} {s : ν → V} {pending : Set β} (settled : B.Settled all s pending) :
    B.SettledIn all all ∅ s pending :=
  fun c hc idle x v hx => ⟨.inl (settled c hc idle x v hx), .inl hc⟩

theorem SettledIn.finish {all : List β} {written : Set ν} {s : ν → V} {pending : Set β}
    (settled : B.SettledIn all [] written s pending) : B.Settled all s pending := by
  intro c hc idle x v hx
  rcases (settled c hc idle x v hx).1 with same | ⟨todo, _⟩
  · exact same
  · exact absurd todo List.not_mem_nil

/-- A block whose turn has come and that is not pending changes nothing: what it writes has been
written by no other block, as the two would clash. -/
theorem SettledIn.run_eq {all todo : List β} {b : β} {written : Set ν} {s : ν → V} {pending : Set β}
    (settled : B.SettledIn all (b :: todo) written s pending) (hb : b ∈ all) (idle : b ∉ pending)
    (apart : Disjoint (B.writes b s) written) : B.run b s = s := by
  apply overlay_eq_self
  intro x v hx
  rcases (settled b hb idle x v hx).1 with same | ⟨_, taken⟩
  · exact same
  · exact absurd taken (Set.disjoint_left.mp apart ⟨v, hx⟩)

/-- The invariant over one turn. -/
theorem SettledIn.visit {all todo : List β} {b : β} {written : Set ν} {s s' : ν → V}
    {pending pending' : Set β} (settled : B.SettledIn all (b :: todo) written s pending)
    (hb : b ∈ all) (apart : Disjoint (B.writes b s) written)
    (visit : B.Visit b (s, pending) (s', pending')) :
    s' = B.run b s ∧ B.SettledIn all todo (written ∪ B.writes b s) s' pending' := by
  have later : ∀ {c}, c ≠ b → c ∈ b :: todo → c ∈ todo :=
    fun ne h => (List.mem_cons.mp h).resolve_left ne
  cases visit with
  | skip turn keep =>
    have same := settled.run_eq hb turn apart
    refine ⟨same.symm, ?_⟩
    intro c hc idle x v hx
    obtain ⟨holds, once⟩ := settled c hc (fun h => idle (keep h)) x v hx
    by_cases hcb : c = b
    · subst hcb
      have now : B.run c s x = v := run_some hx
      rw [same] at now
      exact ⟨.inl now, .inr (.inr ⟨v, hx⟩)⟩
    · exact ⟨holds.imp_right (And.imp (later hcb) .inl), once.imp (later hcb) .inl⟩
  | evaluate turn keep wake =>
    refine ⟨rfl, ?_⟩
    intro c hc idle x v hx
    have still : B.out c (B.run b s) = B.out c s := B.unwoken fun h => idle (wake h)
    rw [still] at hx
    by_cases hcb : c = b
    · subst hcb
      exact ⟨.inl (run_some hx), .inr (.inr ⟨v, hx⟩)⟩
    · obtain ⟨holds, once⟩ := settled c hc (fun h => idle (keep c h hcb)) x v hx
      refine ⟨?_, once.imp (later hcb) .inl⟩
      by_cases mine : x ∈ B.writes b s
      · -- what `c` has written in this scan already is not written again
        have todo' : c ∈ todo := once.elim (later hcb) fun h => absurd h (Set.disjoint_left.mp apart mine)
        exact .inr ⟨todo', .inr mine⟩
      · rw [run_of_not_mem mine]
        exact holds.imp_right (And.imp (later hcb) .inl)

theorem SettledIn.scans {all todo : List β} {p q : (ν → V) × Set β} (scans : B.Scans todo p q)
    {written : Set ν} (settled : B.SettledIn all todo written p.1 p.2)
    (sub : ∀ b ∈ todo, b ∈ all) (apart : B.ClashFree todo written p.1) :
    q.1 = B.runAll todo p.1 ∧ B.Settled all q.1 q.2 := by
  induction scans generalizing written with
  | nil => exact ⟨rfl, settled.finish⟩
  | @cons b bs p q r here rest ih =>
    obtain ⟨s, pending⟩ := p
    obtain ⟨s', pending'⟩ := q
    obtain ⟨rfl, after⟩ := settled.visit (sub b List.mem_cons_self) apart.1 here
    exact ih after (fun c hc => sub c (List.mem_cons_of_mem _ hc)) apart.2

/-- The scan ends where it would if all blocks were evaluated, and can be repeated from there. -/
theorem Scans.eq_runAll {all : List β} {s s' : ν → V} {pending pending' : Set β}
    (scans : B.Scans all (s, pending) (s', pending'))
    (settled : B.Settled all s pending) (apart : B.ClashFree all ∅ s) :
    s' = B.runAll all s ∧ B.Settled all s' pending' :=
  SettledIn.scans scans settled.start (fun _ h => h) apart

/-- A change from outside, to places that no block writes, which wakes the blocks it concerns. -/
theorem Settled.disturb {all : List β} {s s' : ν → V} {pending pending' : Set β}
    (settled : B.Settled all s pending) (keep : pending ⊆ pending')
    (same : ∀ c ∈ all, c ∉ pending' → B.out c s' = B.out c s)
    (foreign : ∀ c ∈ all, ∀ x ∈ B.writes c s, s' x = s x) : B.Settled all s' pending' := by
  intro c hc idle x v hx
  rw [same c hc idle] at hx
  rw [foreign c hc x ⟨v, hx⟩]
  exact settled c hc (fun h => idle (keep h)) x v hx

/-- Blocks that own the places they write do not clash. -/
theorem clashFree_of_owned (own : β → Set ν) (writes : ∀ b s, B.writes b s ⊆ own b) {bs : List β}
    (apart : bs.Pairwise fun b c => Disjoint (own b) (own c)) {written : Set ν}
    (fresh : ∀ b ∈ bs, Disjoint (own b) written) (s : ν → V) : B.ClashFree bs written s := by
  induction bs generalizing written s with
  | nil => trivial
  | cons b bs ih =>
    obtain ⟨first, rest⟩ := List.pairwise_cons.mp apart
    refine ⟨(fresh b List.mem_cons_self).mono_left (writes b s), ih rest ?_ _⟩
    intro c hc
    rw [Set.disjoint_union_right]
    exact ⟨fresh c (List.mem_cons_of_mem _ hc), (first c hc).symm.mono_right (writes b s)⟩

/-- Everything is settled where everything is pending. -/
theorem Settled.of_pending {all : List β} {s : ν → V} {pending : Set β} (h : ∀ c ∈ all, c ∈ pending) :
    B.Settled all s pending := fun c hc idle => absurd (h c hc) idle

end Blocks

end ChangeDriven
