/-
  Gsim/MergeChains.lean
  =====================
  **Merging a super node with its only neighbour** (`mergeOut1` and `mergeIn1` in
  `mergeNodes.cpp`).

  One sweep merges many super nodes and rewrites the relation sets that later tests
  read, while the order fields stay as they were.  The invariant of a sweep: the sets
  of every super node that still has its members are those its members induce, and
  all edges go up in the old order.
-/
import Gsim.MergeGraph

namespace Gsim.SuperLinks

open GraphContraction

variable {α : Type} [DecidableEq α]

namespace Links

/-! ## Updating the connections -/

section Join

variable (super nextSuper : α)

/-- One predecessor of the super node that `mergeOut1` dissolves. -/
def redirectPrev (L : Links α) (prev : α) : Links α :=
  if prev ∈ L.prev super then
    ((L.eraseNext prev super).addNext prev nextSuper).addPrev nextSuper prev
  else  -- only in depPrev
    ((L.eraseDepNext prev super).addDepNext prev nextSuper).addDepPrev nextSuper prev

/-- One successor of it. -/
def redirectDepNext (L : Links α) (next : α) : Links α :=
  if next ∈ L.next super then L
  else  -- only in depNext
    ((L.eraseDepPrev next super).addDepPrev next nextSuper).addDepNext nextSuper next

/-- The connections after the members of `super` have moved to `nextSuper`. -/
def joinNext (L : Links α) : Links α :=
  let L := L.erasePrev nextSuper super
  let L := L.addPrevAll nextSuper (L.prev super)
  let L := (L.depPrev super).foldl (redirectPrev super nextSuper) L
  (L.depNext super).foldl (redirectDepNext super nextSuper) L

variable (prevSuper : α)

/-- One successor of the super node that `mergeIn1` dissolves. -/
def redirectNext (L : Links α) (next : α) : Links α :=
  if next ∈ L.next super then
    ((L.erasePrev next super).addPrev next prevSuper).addNext prevSuper next
  else  -- only in depNext
    ((L.eraseDepPrev next super).addDepPrev next prevSuper).addDepNext prevSuper next

/-- One predecessor of it. -/
def redirectDepPrev (L : Links α) (prev : α) : Links α :=
  if prev ∈ L.prev super then L
  else  -- only in depPrev
    ((L.eraseDepNext prev super).addDepNext prev prevSuper).addDepPrev prevSuper prev

/-- The connections after the members of `super` have moved to `prevSuper`. -/
def joinPrev (L : Links α) : Links α :=
  let L := L.eraseNext prevSuper super
  let L := L.addNextAll prevSuper (L.next super)
  let L := (L.depNext super).foldl (redirectNext super prevSuper) L
  (L.depPrev super).foldl (redirectDepPrev super prevSuper) L

end Join

theorem addPrevAll_spec (ys : List α) {L : Links α} (h : L.Nodup) (x : α) :
    (L.addPrevAll x ys).Nodup ∧
    (∀ w z, z ∈ (L.addPrevAll x ys).prev w ↔ z ∈ L.prev w ∨ (w = x ∧ z ∈ ys)) ∧
    (∀ w z, z ∈ (L.addPrevAll x ys).depPrev w ↔ z ∈ L.depPrev w ∨ (w = x ∧ z ∈ ys)) ∧
    (L.addPrevAll x ys).next = L.next ∧ (L.addPrevAll x ys).depNext = L.depNext := by
  induction ys generalizing L with
  | nil => exact ⟨h, by simp [addPrevAll], by simp [addPrevAll], rfl, rfl⟩
  | cons y ys ih =>
    obtain ⟨nodup, prev, depPrev, next, depNext⟩ := ih (h.addPrev x y)
    refine ⟨nodup, ?_, ?_, next, depNext⟩
    · intro w z
      refine (prev w z).trans ?_
      rw [addPrev, mem_addAt, List.mem_cons]
      tauto
    · intro w z
      refine (depPrev w z).trans ?_
      rw [addPrev, mem_addAt, List.mem_cons]
      tauto

/-- What telling the predecessors `ps` of `s` about `t` does. -/
structure PrevsTold (s t : α) (ps : List α) (L L' : Links α) : Prop where
  nodup : L'.Nodup
  prev : ∀ w z, z ∈ L'.prev w ↔ z ∈ L.prev w ∨ (w = t ∧ z ∈ ps ∧ z ∈ L.prev s)
  depPrev : ∀ w z, z ∈ L'.depPrev w ↔ z ∈ L.depPrev w ∨ (w = t ∧ z ∈ ps)
  next : ∀ w z, z ∈ L'.next w ↔
    (z ∈ L.next w ∧ ¬ (z = s ∧ w ∈ ps ∧ w ∈ L.prev s)) ∨ (z = t ∧ w ∈ ps ∧ w ∈ L.prev s)
  depNext : ∀ w z, z ∈ L'.depNext w ↔ (z ∈ L.depNext w ∧ ¬ (z = s ∧ w ∈ ps)) ∨ (z = t ∧ w ∈ ps)

theorem redirectPrev_spec {s t : α} (ne : t ≠ s) {L : Links α} (h : L.Nodup) (p : α) :
    PrevsTold s t [p] L (L.redirectPrev s t p) := by
  unfold redirectPrev
  split
  · rename_i mem
    have erased := h.eraseNext p s
    refine ⟨(erased.addNext p t).addPrev t p, ?_, ?_, ?_, ?_⟩
    · intro w z
      simp only [addPrev, addNext, eraseNext, mem_addAt, List.mem_singleton]
      constructor
      · rintro (old | ⟨rfl, rfl⟩)
        · exact .inl old
        · exact .inr ⟨rfl, rfl, mem⟩
      · rintro (old | ⟨rfl, rfl, -⟩)
        · exact .inl old
        · exact .inr ⟨rfl, rfl⟩
    · intro w z
      simp only [addPrev, addNext, eraseNext, mem_addAt, List.mem_singleton]
    · intro w z
      simp only [addPrev, addNext, eraseNext, mem_addAt, mem_eraseAt h.next, List.mem_singleton]
      constructor
      · rintro (⟨old, kept⟩ | ⟨rfl, rfl⟩)
        · exact .inl ⟨old, fun gone => kept ⟨gone.2.1, gone.1⟩⟩
        · exact .inr ⟨rfl, rfl, mem⟩
      · rintro (⟨old, kept⟩ | ⟨rfl, rfl, -⟩)
        · exact .inl ⟨old, fun gone => kept ⟨gone.2, gone.1, gone.1 ▸ mem⟩⟩
        · exact .inr ⟨rfl, rfl⟩
    · intro w z
      simp only [addPrev, addNext, eraseNext, mem_addAt, mem_eraseAt h.depNext, List.mem_singleton]
      tauto
  · rename_i out
    have erased := h.eraseDepNext p s
    refine ⟨(erased.addDepNext p t).addDepPrev t p, ?_, ?_, ?_, ?_⟩
    · intro w z
      simp only [addDepPrev, addDepNext, eraseDepNext, List.mem_singleton]
      constructor
      · exact .inl
      · rintro (old | ⟨-, rfl, mem⟩)
        · exact old
        · exact absurd mem out
    · intro w z
      simp only [addDepPrev, addDepNext, eraseDepNext, mem_addAt, List.mem_singleton]
    · intro w z
      simp only [addDepPrev, addDepNext, eraseDepNext, List.mem_singleton]
      constructor
      · exact fun old => .inl ⟨old, fun gone => out (gone.2.1 ▸ gone.2.2)⟩
      · rintro (⟨old, -⟩ | ⟨-, rfl, mem⟩)
        · exact old
        · exact absurd mem out
    · intro w z
      simp only [addDepPrev, addDepNext, eraseDepNext, mem_addAt, mem_eraseAt h.depNext,
        List.mem_singleton]
      tauto

/-- Telling some predecessors and then others. -/
theorem PrevsTold.trans {s t : α} (ne : t ≠ s) {ps qs : List α} {L L' L'' : Links α}
    (h : PrevsTold s t ps L L') (h' : PrevsTold s t qs L' L'') :
    PrevsTold s t (ps ++ qs) L L'' := by
  have same : ∀ z, z ∈ L'.prev s ↔ z ∈ L.prev s := by
    intro z
    rw [h.prev]
    have := ne.symm
    tauto
  refine ⟨h'.nodup, ?_, ?_, ?_, ?_⟩
  · intro w z
    rw [h'.prev, h.prev, same, List.mem_append]
    tauto
  · intro w z
    rw [h'.depPrev, h.depPrev, List.mem_append]
    tauto
  · intro w z
    rw [h'.next, h.next, same, List.mem_append]
    constructor
    · rintro (⟨⟨old, kept⟩ | new, kept'⟩ | new)
      · exact .inl ⟨old, by tauto⟩
      · exact .inr ⟨new.1, .inl new.2.1, new.2.2⟩
      · exact .inr ⟨new.1, .inr new.2.1, new.2.2⟩
    · rintro (⟨old, kept⟩ | ⟨rfl, mem | mem, hw⟩)
      · exact .inl ⟨.inl ⟨old, by tauto⟩, by tauto⟩
      · exact .inl ⟨.inr ⟨rfl, mem, hw⟩, fun gone => ne gone.1⟩
      · exact .inr ⟨rfl, mem, hw⟩
  · intro w z
    rw [h'.depNext, h.depNext, List.mem_append]
    constructor
    · rintro (⟨⟨old, kept⟩ | new, kept'⟩ | new)
      · exact .inl ⟨old, by tauto⟩
      · exact .inr ⟨new.1, .inl new.2⟩
      · exact .inr ⟨new.1, .inr new.2⟩
    · rintro (⟨old, kept⟩ | ⟨rfl, mem | mem⟩)
      · exact .inl ⟨.inl ⟨old, by tauto⟩, by tauto⟩
      · exact .inl ⟨.inr ⟨rfl, mem⟩, fun gone => ne gone.1⟩
      · exact .inr ⟨rfl, mem⟩

theorem foldl_redirectPrev {s t : α} (ne : t ≠ s) (ps : List α) {L : Links α} (h : L.Nodup) :
    PrevsTold s t ps L (ps.foldl (redirectPrev s t) L) := by
  induction ps generalizing L with
  | nil => exact ⟨h, by simp, by simp, by simp, by simp⟩
  | cons p ps ih =>
    have one := redirectPrev_spec ne h p
    exact one.trans ne (ih one.nodup)

/-- What telling the successors `ns` of `s` about `t` does. -/
structure NextsTold (s t : α) (ns : List α) (L L' : Links α) : Prop where
  nodup : L'.Nodup
  prev : L'.prev = L.prev
  next : L'.next = L.next
  depPrev : ∀ w z, z ∈ L'.depPrev w ↔
    (z ∈ L.depPrev w ∧ ¬ (z = s ∧ w ∈ ns ∧ w ∉ L.next s)) ∨ (z = t ∧ w ∈ ns ∧ w ∉ L.next s)
  depNext : ∀ w z, z ∈ L'.depNext w ↔ z ∈ L.depNext w ∨ (w = t ∧ z ∈ ns ∧ z ∉ L.next s)

theorem redirectDepNext_spec {s t : α} {L : Links α} (h : L.Nodup) (n : α) :
    NextsTold s t [n] L (L.redirectDepNext s t n) := by
  unfold redirectDepNext
  split
  · rename_i mem
    refine ⟨h, rfl, rfl, ?_, ?_⟩
    · intro w z
      rw [List.mem_singleton]
      constructor
      · exact fun old => .inl ⟨old, fun gone => gone.2.2 (gone.2.1 ▸ mem)⟩
      · rintro (⟨old, -⟩ | ⟨-, rfl, out⟩)
        · exact old
        · exact absurd mem out
    · intro w z
      rw [List.mem_singleton]
      constructor
      · exact .inl
      · rintro (old | ⟨-, rfl, out⟩)
        · exact old
        · exact absurd mem out
  · rename_i out
    have erased := h.eraseDepPrev n s
    refine ⟨(erased.addDepPrev n t).addDepNext t n, rfl, rfl, ?_, ?_⟩
    · intro w z
      simp only [addDepPrev, addDepNext, eraseDepPrev, mem_addAt, mem_eraseAt h.depPrev,
        List.mem_singleton]
      constructor
      · rintro (⟨old, kept⟩ | ⟨rfl, rfl⟩)
        · exact .inl ⟨old, fun gone => kept ⟨gone.2.1, gone.1⟩⟩
        · exact .inr ⟨rfl, rfl, out⟩
      · rintro (⟨old, kept⟩ | ⟨rfl, rfl, -⟩)
        · exact .inl ⟨old, fun gone => kept ⟨gone.2, gone.1, gone.1 ▸ out⟩⟩
        · exact .inr ⟨rfl, rfl⟩
    · intro w z
      simp only [addDepPrev, addDepNext, eraseDepPrev, mem_addAt, List.mem_singleton]
      constructor
      · rintro (old | ⟨rfl, rfl⟩)
        · exact .inl old
        · exact .inr ⟨rfl, rfl, out⟩
      · rintro (old | ⟨rfl, rfl, -⟩)
        · exact .inl old
        · exact .inr ⟨rfl, rfl⟩

theorem NextsTold.trans {s t : α} (ne : t ≠ s) {ns ms : List α} {L L' L'' : Links α}
    (h : NextsTold s t ns L L') (h' : NextsTold s t ms L' L'') :
    NextsTold s t (ns ++ ms) L L'' := by
  refine ⟨h'.nodup, h'.prev.trans h.prev, h'.next.trans h.next, ?_, ?_⟩
  · intro w z
    rw [h'.depPrev, h.depPrev, h.next, List.mem_append]
    constructor
    · rintro (⟨⟨old, kept⟩ | new, kept'⟩ | new)
      · exact .inl ⟨old, by tauto⟩
      · exact .inr ⟨new.1, .inl new.2.1, new.2.2⟩
      · exact .inr ⟨new.1, .inr new.2.1, new.2.2⟩
    · rintro (⟨old, kept⟩ | ⟨rfl, mem | mem, hw⟩)
      · exact .inl ⟨.inl ⟨old, by tauto⟩, by tauto⟩
      · exact .inl ⟨.inr ⟨rfl, mem, hw⟩, fun gone => ne gone.1⟩
      · exact .inr ⟨rfl, mem, hw⟩
  · intro w z
    rw [h'.depNext, h.depNext, h.next, List.mem_append]
    tauto

theorem foldl_redirectDepNext {s t : α} (ne : t ≠ s) (ns : List α) {L : Links α} (h : L.Nodup) :
    NextsTold s t ns L (ns.foldl (redirectDepNext s t) L) := by
  induction ns generalizing L with
  | nil => exact ⟨h, rfl, rfl, by simp, by simp⟩
  | cons n ns ih =>
    have one := @redirectDepNext_spec α _ s t L h n
    exact one.trans ne (ih one.nodup)

/-- The relation between the super nodes once `s` is part of `t`. -/
abbrev Joined (s t : α) (E : α → α → Prop) : α → α → Prop := QuotientEdge (redirect id t s) E

theorem joined_iff {s t : α} (ne : t ≠ s) {E : α → α → Prop} {p x : α} :
    Joined s t E p x ↔
      p ≠ x ∧ p ≠ s ∧ x ≠ s ∧ (E p x ∨ (p = t ∧ E s x) ∨ (x = t ∧ E p s)) := by
  constructor
  · rintro ⟨u, v, edge, hu, hv, neq⟩
    unfold redirect at hu hv
    simp only [id_eq] at hu hv
    split at hu <;> split at hv
    · exact absurd (hu.symm.trans hv) neq
    · rename_i us vs
      subst us hv
      exact ⟨neq, hu ▸ ne, vs, .inr (.inl ⟨hu.symm, edge⟩)⟩
    · rename_i us vs
      subst vs hu
      exact ⟨neq, us, hv ▸ ne, .inr (.inr ⟨hv.symm, edge⟩)⟩
    · rename_i us vs
      subst hu hv
      exact ⟨neq, us, vs, .inl edge⟩
  · rintro ⟨neq, ps, xs, edge | ⟨rfl, edge⟩ | ⟨rfl, edge⟩⟩
    · exact ⟨p, x, edge, by simp [redirect, ps], by simp [redirect, xs], neq⟩
    · exact ⟨s, x, edge, by simp [redirect], by simp [redirect, xs], neq⟩
    · exact ⟨p, s, edge, by simp [redirect, ps], by simp [redirect], neq⟩

/-- What `joinNext` leaves in the sets. -/
theorem joinNext_spec {s t : α} (ne : t ≠ s) {L : Links α} (h : L.Nodup)
    (irrefl : s ∉ L.depPrev s) :
    (L.joinNext s t).Nodup ∧
    (∀ w z, z ∈ (L.joinNext s t).prev w ↔
      (z ∈ L.prev w ∧ ¬ (w = t ∧ z = s)) ∨ (w = t ∧ z ∈ L.prev s)) ∧
    (∀ w z, z ∈ (L.joinNext s t).next w ↔
      (z ∈ L.next w ∧ ¬ (z = s ∧ w ∈ L.depPrev s ∧ w ∈ L.prev s)) ∨
        (z = t ∧ w ∈ L.depPrev s ∧ w ∈ L.prev s)) ∧
    (∀ w z, z ∈ (L.joinNext s t).depPrev w ↔
      (((z ∈ L.depPrev w ∧ ¬ (w = t ∧ z = s)) ∨ (w = t ∧ (z ∈ L.prev s ∨ z ∈ L.depPrev s))) ∧
        ¬ (z = s ∧ w ∈ L.depNext s ∧ w ∉ L.next s)) ∨
        (z = t ∧ w ∈ L.depNext s ∧ w ∉ L.next s)) ∧
    (∀ w z, z ∈ (L.joinNext s t).depNext w ↔
      (z ∈ L.depNext w ∧ ¬ (z = s ∧ w ∈ L.depPrev s)) ∨ (z = t ∧ w ∈ L.depPrev s) ∨
        (w = t ∧ z ∈ L.depNext s ∧ z ∉ L.next s)) := by
  have st := ne.symm
  have h1 := h.erasePrev t s
  obtain ⟨h2, prev2, depPrev2, next2, depNext2⟩ :=
    addPrevAll_spec ((L.erasePrev t s).prev s) h1 t
  -- the sets of `s` itself do not change before they are read
  have prevS : ∀ z, z ∈ (L.erasePrev t s).prev s ↔ z ∈ L.prev s := by
    intro z
    rw [erasePrev, mem_eraseAt h.prev]
    tauto
  have depPrevS : ∀ z, z ∈ ((L.erasePrev t s).addPrevAll t ((L.erasePrev t s).prev s)).depPrev s ↔
      z ∈ L.depPrev s := by
    intro z
    rw [depPrev2, erasePrev, mem_eraseAt h.depPrev]
    tauto
  have prevS2 : ∀ z, z ∈ ((L.erasePrev t s).addPrevAll t ((L.erasePrev t s).prev s)).prev s ↔
      z ∈ L.prev s := by
    intro z
    rw [prev2, prevS]
    tauto
  have told := foldl_redirectPrev ne
    (((L.erasePrev t s).addPrevAll t ((L.erasePrev t s).prev s)).depPrev s) h2
  unfold joinNext
  dsimp only
  generalize (L.erasePrev t s).addPrevAll t ((L.erasePrev t s).prev s) = L2 at *
  generalize List.foldl (redirectPrev s t) L2 (L2.depPrev s) = L3 at *
  have nextS : ∀ z, z ∈ L3.next s ↔ z ∈ L.next s := by
    intro z
    rw [told.next, depPrevS, next2]
    simp only [erasePrev]
    tauto
  have depNextS : ∀ z, z ∈ L3.depNext s ↔ z ∈ L.depNext s := by
    intro z
    rw [told.depNext, depPrevS, depNext2]
    simp only [erasePrev]
    tauto
  have told' := foldl_redirectDepNext ne (L3.depNext s) told.nodup
  refine ⟨told'.nodup, ?_, ?_, ?_, ?_⟩
  · intro w z
    rw [told'.prev, told.prev, prev2, depPrevS, prevS, prevS2, erasePrev, mem_eraseAt h.prev]
    tauto
  · intro w z
    rw [told'.next, told.next, depPrevS, prevS2, next2]
    rfl
  · intro w z
    rw [told'.depPrev, told.depPrev, depPrev2, depPrevS, prevS, depNextS, nextS, erasePrev,
      mem_eraseAt h.depPrev, or_assoc, ← and_or_left]
  · intro w z
    rw [told'.depNext, told.depNext, depPrevS, depNextS, nextS, depNext2, or_assoc]
    rfl

/-- `mergeOut1` keeps the sets those of the edges. -/
theorem joinNext_shows {s t : α} {L : Links α} {alive : α → Prop} {E D : α → α → Prop}
    (nodup : L.Nodup) (h : L.Shows alive E D) (hs : alive s)
    (only : ∀ x, x ∈ L.next s ↔ x = t) (sub : ∀ x y, E x y → D x y) (irrefl : ∀ x, ¬ D x x)
    (noBack : ¬ D t s) :
    (L.joinNext s t).Nodup ∧
      (L.joinNext s t).Shows (fun x => alive x ∧ x ≠ s) (Joined s t E) (Joined s t D) := by
  have edge : ∀ x, E s x ↔ x = t := fun x => (h.next s x hs).symm.trans (only x)
  have ne : t ≠ s := by
    rintro rfl
    exact irrefl t (sub t t ((edge t).mpr rfl))
  obtain ⟨nodup', prev, next, depPrev, depNext⟩ := joinNext_spec ne nodup
    (fun mem => irrefl s ((h.depPrev s s hs).mp mem))
  have irreflE : ∀ x, ¬ E x x := fun x e => irrefl x (sub x x e)
  have noBackE : ¬ E t s := fun e => noBack (sub t s e)
  refine ⟨nodup', ?_, ?_, ?_, ?_⟩
  · rintro x p ⟨hx, xs⟩
    rw [prev, h.prev x p hx, h.prev s p hs, joined_iff ne]
    grind
  · rintro x n ⟨hx, xs⟩
    rw [next, h.next x n hx, h.depPrev s x hs, h.prev s x hs, joined_iff ne]
    grind
  · rintro x p ⟨hx, xs⟩
    rw [depPrev, h.depPrev x p hx, h.prev s p hs, h.depPrev s p hs, h.depNext s x hs,
      only, joined_iff ne]
    grind
  · rintro x n ⟨hx, xs⟩
    rw [depNext, h.depNext x n hx, h.depPrev s x hs, h.depNext s n hs, only, joined_iff ne]
    grind

/-! `mergeIn1` is `mergeOut1` with the roles of predecessors and successors exchanged. -/

theorem mirror_addNextAll (ys : List α) (L : Links α) (x : α) :
    (L.addNextAll x ys).mirror = L.mirror.addPrevAll x ys := by
  induction ys generalizing L with
  | nil => rfl
  | cons y ys ih => exact ih (L.addNext x y)

theorem mirror_foldl_redirectNext (s t : α) (ns : List α) (L : Links α) :
    (ns.foldl (redirectNext s t) L).mirror = ns.foldl (redirectPrev s t) L.mirror := by
  induction ns generalizing L with
  | nil => rfl
  | cons n ns ih =>
    have one : (L.redirectNext s t n).mirror = L.mirror.redirectPrev s t n := by
      unfold redirectNext redirectPrev
      by_cases mem : n ∈ L.next s
      · rw [if_pos mem, if_pos (show n ∈ L.mirror.prev s from mem)]
        rfl
      · rw [if_neg mem, if_neg (show n ∉ L.mirror.prev s from mem)]
        rfl
    rw [List.foldl_cons, List.foldl_cons, ih, one]

theorem mirror_foldl_redirectDepPrev (s t : α) (ps : List α) (L : Links α) :
    (ps.foldl (redirectDepPrev s t) L).mirror = ps.foldl (redirectDepNext s t) L.mirror := by
  induction ps generalizing L with
  | nil => rfl
  | cons p ps ih =>
    have one : (L.redirectDepPrev s t p).mirror = L.mirror.redirectDepNext s t p := by
      unfold redirectDepPrev redirectDepNext
      by_cases mem : p ∈ L.prev s
      · rw [if_pos mem, if_pos (show p ∈ L.mirror.next s from mem)]
      · rw [if_neg mem, if_neg (show p ∉ L.mirror.next s from mem)]
        rfl
    rw [List.foldl_cons, List.foldl_cons, ih, one]

theorem joinPrev_eq_mirror (s t : α) (L : Links α) :
    L.joinPrev s t = (L.mirror.joinNext s t).mirror := by
  have back : (L.joinPrev s t).mirror = L.mirror.joinNext s t := by
    unfold joinPrev joinNext
    dsimp only
    rw [mirror_foldl_redirectDepPrev, mirror_foldl_redirectNext, mirror_addNextAll]
    have depNext : ∀ K : Links α, K.mirror.depNext = K.depPrev := fun _ => rfl
    have depPrev : ∀ K : Links α, K.mirror.depPrev = K.depNext := fun _ => rfl
    rw [← depNext, ← depPrev, mirror_foldl_redirectNext, mirror_addNextAll]
    rfl
  rw [← back]
  rfl

theorem joined_swap (s t : α) (E : α → α → Prop) (x y : α) :
    Joined s t (fun x y => E y x) x y ↔ Joined s t E y x := by
  constructor
  · rintro ⟨u, v, edge, hu, hv, neq⟩
    exact ⟨v, u, edge, hv, hu, neq.symm⟩
  · rintro ⟨u, v, edge, hu, hv, neq⟩
    exact ⟨v, u, edge, hv, hu, neq.symm⟩

/-- `mergeIn1` keeps the sets those of the edges. -/
theorem joinPrev_shows {s t : α} {L : Links α} {alive : α → Prop} {E D : α → α → Prop}
    (nodup : L.Nodup) (h : L.Shows alive E D) (hs : alive s)
    (only : ∀ x, x ∈ L.prev s ↔ x = t) (sub : ∀ x y, E x y → D x y) (irrefl : ∀ x, ¬ D x x)
    (noBack : ¬ D s t) :
    (L.joinPrev s t).Nodup ∧
      (L.joinPrev s t).Shows (fun x => alive x ∧ x ≠ s) (Joined s t E) (Joined s t D) := by
  obtain ⟨nodup', shows'⟩ := joinNext_shows nodup.mirror h.mirror hs only
    (fun x y => sub y x) irrefl noBack
  rw [joinPrev_eq_mirror]
  refine ⟨nodup'.mirror, ?_, ?_, ?_, ?_⟩
  · intro x p hx
    exact (shows'.next x p hx).trans (joined_swap s t E x p)
  · intro x n hx
    exact (shows'.prev x n hx).trans (joined_swap s t E n x)
  · intro x p hx
    exact (shows'.depNext x p hx).trans (joined_swap s t D x p)
  · intro x n hx
    exact (shows'.depPrev x n hx).trans (joined_swap s t D n x)

end Links

end Gsim.SuperLinks

namespace Gsim.MergeNodes

open GraphContraction SuperLinks

variable {Op : Type}

namespace SuperGraph

/-! ## The sweeps -/

def maxNodesPerSuper : Nat := 7000

/-- The members of `super` move to `target`, whose members become `members`. -/
def moveMembers (G : SuperGraph Op) (super target : Nat) (members : List Nat) : SuperGraph Op :=
  { G with
    super := fun m => if m ∈ G.member super then target else G.super m
    member := Function.update (Function.update G.member target members) super [] }

/-- One round of `mergeOut1`. -/
def mergeOut1Step (G : SuperGraph Op) (super : Nat) : SuperGraph Op :=
  if G.superType super = .valid then
    match G.links.next super with
    | [nextSuper] =>
      if G.superType nextSuper ≠ .valid then G
      else if (G.member nextSuper).length > maxNodesPerSuper then G
      else if ∃ depNext ∈ G.links.depNext super, G.order depNext < G.order nextSuper then G
      else
        { G.moveMembers super nextSuper (G.member super ++ G.member nextSuper) with
          links := (G.links.joinNext super nextSuper).clearRelation super }
    | _ => G
  else G

def mergeOut1 (G : SuperGraph Op) : SuperGraph Op :=
  (G.sortedSuper.reverse.foldl mergeOut1Step G).removeEmptySuper

/-- One round of `mergeIn1`; the sets of the emptied super node are left as they are. -/
def mergeIn1Step (G : SuperGraph Op) (super : Nat) : SuperGraph Op :=
  if G.superType super = .valid then
    match G.links.prev super with
    | [prevSuper] =>
      if G.superType prevSuper ≠ .valid then G
      else if (G.member prevSuper).length > maxNodesPerSuper then G
      else if ∃ depPrev ∈ G.links.depPrev super, G.order depPrev > G.order prevSuper then G
      else
        { G.moveMembers super prevSuper (G.member prevSuper ++ G.member super) with
          links := G.links.joinPrev super prevSuper }
    | _ => G
  else G

def mergeIn1 (G : SuperGraph Op) : SuperGraph Op :=
  (G.sortedSuper.foldl mergeIn1Step G).removeEmptySuper

/-! ## Moving the members -/

section Move

variable {G : SuperGraph Op} {nodes : List Nat} {alive : Nat → Prop} {s t : Nat}
  {members : List Nat}

theorem moveMembers_super (part : G.Partitioned nodes alive) (hs : alive s) {n : Nat}
    (hn : n ∈ nodes) : (G.moveMembers s t members).super n = redirect id t s (G.super n) := by
  show (if n ∈ G.member s then t else G.super n) = if G.super n = s then t else G.super n
  have iff : n ∈ G.member s ↔ G.super n = s := by
    rw [part.member s (part.sorted s hs)]
    exact and_iff_right hn
  by_cases eq : G.super n = s
  · rw [if_pos eq, if_pos (iff.mpr eq)]
  · rw [if_neg eq, if_neg fun mem => eq (iff.mp mem)]

/-- Edges between nodes of the graph after the move are those of the merged super nodes. -/
theorem quotientEdge_moveMembers (part : G.Partitioned nodes alive) (hs : alive s)
    {R : Nat → Nat → Prop} (closed : ∀ n m, R n m → n ∈ nodes ∧ m ∈ nodes) (p x : Nat) :
    QuotientEdge (G.moveMembers s t members).super R p x ↔
      Links.Joined s t (QuotientEdge G.super R) p x := by
  constructor
  · rintro ⟨u, v, edge, hu, hv, ne⟩
    obtain ⟨un, vn⟩ := closed u v edge
    rw [moveMembers_super part hs un] at hu
    rw [moveMembers_super part hs vn] at hv
    refine ⟨G.super u, G.super v, ⟨u, v, edge, rfl, rfl, ?_⟩, hu, hv, ne⟩
    intro same
    rw [same, hv] at hu
    exact ne hu.symm
  · rintro ⟨-, -, ⟨u, v, edge, rfl, rfl, -⟩, hu, hv, ne⟩
    obtain ⟨un, vn⟩ := closed u v edge
    rw [← moveMembers_super part hs un] at hu
    rw [← moveMembers_super part hs vn] at hv
    exact ⟨u, v, edge, hu, hv, ne⟩

theorem Partitioned.moveMembers (part : G.Partitioned nodes alive) (hs : alive s) (ht : alive t)
    (ne : t ≠ s) (valid : G.superType s = .valid)
    (perm : members.Perm (G.member s ++ G.member t)) :
    (G.moveMembers s t members).Partitioned nodes (fun x => alive x ∧ x ≠ s) where
  closed := part.closed
  superAlive := by
    intro n hn
    rw [moveMembers_super part hs hn]
    unfold redirect
    split
    · exact ⟨ht, ne⟩
    · rename_i other
      exact ⟨part.superAlive n hn, other⟩
  member := by
    intro x hx n
    have old := part.member x hx n
    have inS := part.member s (part.sorted s hs) n
    have inT := part.member t (part.sorted t ht) n
    show n ∈ Function.update (Function.update G.member t members) s [] x ↔
      n ∈ nodes ∧ (if n ∈ G.member s then t else G.super n) = x
    by_cases xs : x = s
    · subst xs
      rw [Function.update_self]
      constructor
      · exact fun h => absurd h List.not_mem_nil
      · rintro ⟨hn, eq⟩
        split at eq
        · exact absurd eq ne
        · rename_i out
          exact absurd (inS.mpr ⟨hn, eq⟩) out
    · rw [Function.update_of_ne xs]
      by_cases xt : x = t
      · subst xt
        rw [Function.update_self, perm.mem_iff, List.mem_append]
        constructor
        · rintro (moved | stays)
          · exact ⟨(inS.mp moved).1, if_pos moved⟩
          · refine ⟨(inT.mp stays).1, ?_⟩
            split
            · rfl
            · exact (inT.mp stays).2
        · rintro ⟨hn, eq⟩
          by_cases moved : n ∈ G.member s
          · exact .inl moved
          · rw [if_neg moved] at eq
            exact .inr (inT.mpr ⟨hn, eq⟩)
      · rw [Function.update_of_ne xt, old]
        refine and_congr_right fun hn => ?_
        split
        · rename_i mem
          have := (inS.mp mem).2
          constructor
          · intro eq
            exact absurd (eq.symm.trans this) xs
          · intro eq
            exact absurd eq.symm xt
        · rfl
  memberNodup := by
    intro x hx
    show (Function.update (Function.update G.member t members) s [] x).Nodup
    by_cases xs : x = s
    · rw [xs, Function.update_self]
      exact List.nodup_nil
    · rw [Function.update_of_ne xs]
      by_cases xt : x = t
      · rw [xt, Function.update_self, perm.nodup_iff, List.nodup_append]
        refine ⟨part.memberNodup s (part.sorted s hs), part.memberNodup t (part.sorted t ht), ?_⟩
        rintro n hn m hm rfl
        have inS := ((part.member s (part.sorted s hs) n).mp hn).2
        have inT := ((part.member t (part.sorted t ht) n).mp hm).2
        exact ne (inT.symm.trans inS)
      · rw [Function.update_of_ne xt]
        exact part.memberNodup x hx
  sorted x hx := part.sorted x hx.1
  dead := by
    intro x hx out
    show ((G.superType x == .valid || G.superType x == .updateReg) &&
      (Function.update (Function.update G.member t members) s [] x).isEmpty) = true
    by_cases xs : x = s
    · subst xs
      simp [valid]
    · have gone := part.dead x hx fun h => out ⟨h, xs⟩
      have xt : x ≠ t := by
        rintro rfl
        exact out ⟨ht, xs⟩
      rw [Function.update_of_ne xs, Function.update_of_ne xt]
      exact gone
  nodup := part.nodup

end Move

/-! ## What a round keeps -/

/-- The state of a sweep. -/
structure Sweep (G : SuperGraph Op) (nodes : List Nat) (alive : Nat → Prop) : Prop where
  part : G.Partitioned nodes alive
  conn : G.Connected alive
  forward : G.Forward

section Rounds

variable {G : SuperGraph Op} {nodes : List Nat} {alive : Nat → Prop} {s t : Nat}

/-- Dissolving `s` into `t`, when the sets are updated and the edges still go forward. -/
theorem Sweep.merge (h : G.Sweep nodes alive) {links : Links Nat} {members : List Nat}
    (hs : alive s) (ht : alive t) (ne : t ≠ s) (valid : G.superType s = .valid)
    (perm : members.Perm (G.member s ++ G.member t)) (nodup : links.Nodup)
    (shows : links.Shows (fun x => alive x ∧ x ≠ s) (Links.Joined s t G.SuperEdge)
      (Links.Joined s t G.SuperDep))
    (forward : ∀ p x, Links.Joined s t G.SuperDep p x → G.order p < G.order x) :
    ({ G.moveMembers s t members with links := links } : SuperGraph Op).Sweep nodes
      (fun x => alive x ∧ x ≠ s) := by
  have part := h.part.moveMembers hs ht ne valid perm
  have edges : ∀ p x, QuotientEdge (G.moveMembers s t members).super G.Edge p x ↔
      Links.Joined s t G.SuperEdge p x :=
    quotientEdge_moveMembers h.part hs fun n m e => h.part.closed n m (.inl e)
  have deps : ∀ p x, QuotientEdge (G.moveMembers s t members).super G.Dep p x ↔
      Links.Joined s t G.SuperDep p x :=
    quotientEdge_moveMembers h.part hs h.part.closed
  refine ⟨⟨part.closed, part.superAlive, part.member, part.memberNodup, part.sorted, part.dead,
    part.nodup⟩, ⟨nodup, ?_, ?_, ?_, ?_⟩, ⟨h.forward.ascending, ?_⟩⟩
  · exact fun x p hx => (shows.prev x p hx).trans (edges p x).symm
  · exact fun x n hx => (shows.next x n hx).trans (edges x n).symm
  · exact fun x p hx => (shows.depPrev x p hx).trans (deps p x).symm
  · exact fun x n hx => (shows.depNext x n hx).trans (deps x n).symm
  · exact fun p x dep => forward p x ((deps p x).mp dep)

/-- The sets of the dissolved super node do not matter. -/
theorem shows_clearRelation {L : Links Nat} {E D : Nat → Nat → Prop}
    (h : L.Shows (fun x => alive x ∧ x ≠ s) E D) :
    (L.clearRelation s).Shows (fun x => alive x ∧ x ≠ s) E D := by
  refine ⟨?_, ?_, ?_, ?_⟩
  · intro x p hx
    rw [← h.prev x p hx]
    simp [Links.clearRelation, Function.update_of_ne hx.2]
  · intro x p hx
    rw [← h.next x p hx]
    simp [Links.clearRelation, Function.update_of_ne hx.2]
  · intro x p hx
    rw [← h.depPrev x p hx]
    simp [Links.clearRelation, Function.update_of_ne hx.2]
  · intro x p hx
    rw [← h.depNext x p hx]
    simp [Links.clearRelation, Function.update_of_ne hx.2]

/-- After a round: at most the super node of the round is dissolved. -/
def After (alive : Nat → Prop) (s : Nat) (alive' : Nat → Prop) : Prop :=
  ∀ x, x ≠ s → (alive' x ↔ alive x)

theorem After.refl (alive : Nat → Prop) (s : Nat) : After alive s alive := fun _ _ => Iff.rfl

theorem After.drop (alive : Nat → Prop) (s : Nat) : After alive s fun x => alive x ∧ x ≠ s :=
  fun _ ne => and_iff_left ne

theorem Sweep.mergeOut1Step (h : G.Sweep nodes alive) (hs : alive s) :
    ∃ alive', (G.mergeOut1Step s).Sweep nodes alive' ∧ After alive s alive' := by
  unfold SuperGraph.mergeOut1Step
  split
  swap
  · exact ⟨alive, h, .refl alive s⟩
  rename_i valid
  split
  swap
  · exact ⟨alive, h, .refl alive s⟩
  rename_i t next
  have only : ∀ x, x ∈ G.links.next s ↔ x = t := by simp [next]
  split
  · exact ⟨alive, h, .refl alive s⟩
  split
  · exact ⟨alive, h, .refl alive s⟩
  split
  · exact ⟨alive, h, .refl alive s⟩
  rename_i canMerge
  have edge : G.SuperEdge s t := (h.conn.shows.next s t hs).mp ((only t).mpr rfl)
  have ht := (h.part.superDep_alive edge.dep).2
  have ne : t ≠ s := edge.dep.ne.symm
  have up := h.forward.forward s t edge.dep
  have noBack : ¬ G.SuperDep t s := fun dep => (h.forward.forward t s dep).not_gt up
  obtain ⟨nodup, shows⟩ := Links.joinNext_shows h.conn.nodup h.conn.shows hs only
    (fun _ _ e => e.dep) (fun _ dep => dep.ne rfl) noBack
  refine ⟨_, h.merge hs ht ne valid (List.Perm.refl _) (nodup.clearRelation s)
    (shows_clearRelation shows) ?_, .drop alive s⟩
  intro p x joined
  obtain ⟨neq, -, xs, dep | ⟨rfl, dep⟩ | ⟨rfl, dep⟩⟩ := (Links.joined_iff ne).mp joined
  · exact h.forward.forward p x dep
  · -- a successor of `s` alone: no such comes before `t`
    have hx := (h.part.superDep_alive dep).2
    have notBefore : ¬ G.order x < G.order p := fun lt =>
      canMerge ⟨x, (h.conn.shows.depNext s x hs).mpr dep, lt⟩
    refine lt_of_le_of_ne (not_lt.mp notBefore) fun eq => neq ?_
    exact h.forward.order_inj (h.part.sorted p ht) (h.part.sorted x hx) eq
  · exact (h.forward.forward p s dep).trans up

theorem Sweep.mergeIn1Step (h : G.Sweep nodes alive) (hs : alive s) :
    ∃ alive', (G.mergeIn1Step s).Sweep nodes alive' ∧ After alive s alive' := by
  unfold SuperGraph.mergeIn1Step
  split
  swap
  · exact ⟨alive, h, .refl alive s⟩
  rename_i valid
  split
  swap
  · exact ⟨alive, h, .refl alive s⟩
  rename_i t prev
  have only : ∀ x, x ∈ G.links.prev s ↔ x = t := by simp [prev]
  split
  · exact ⟨alive, h, .refl alive s⟩
  split
  · exact ⟨alive, h, .refl alive s⟩
  split
  · exact ⟨alive, h, .refl alive s⟩
  rename_i canMerge
  have edge : G.SuperEdge t s := (h.conn.shows.prev s t hs).mp ((only t).mpr rfl)
  have ht := (h.part.superDep_alive edge.dep).1
  have ne : t ≠ s := edge.dep.ne
  have up := h.forward.forward t s edge.dep
  have noBack : ¬ G.SuperDep s t := fun dep => (h.forward.forward s t dep).not_gt up
  obtain ⟨nodup, shows⟩ := Links.joinPrev_shows h.conn.nodup h.conn.shows hs only
    (fun _ _ e => e.dep) (fun _ dep => dep.ne rfl) noBack
  refine ⟨_, h.merge hs ht ne valid List.perm_append_comm nodup shows ?_, .drop alive s⟩
  intro p x joined
  obtain ⟨neq, -, xs, dep | ⟨rfl, dep⟩ | ⟨rfl, dep⟩⟩ := (Links.joined_iff ne).mp joined
  · exact h.forward.forward p x dep
  · exact up.trans (h.forward.forward s x dep)
  · -- a predecessor of `s` alone: no such comes after `t`
    have hp := (h.part.superDep_alive dep).1
    have notAfter : ¬ G.order p > G.order x := fun gt =>
      canMerge ⟨p, (h.conn.shows.depPrev s p hs).mpr dep, gt⟩
    refine lt_of_le_of_ne (not_lt.mp notAfter) fun eq => neq ?_
    exact h.forward.order_inj (h.part.sorted p hp) (h.part.sorted x ht) eq

/-- A sweep visits every super node once, so none that it has dissolved. -/
theorem Sweep.foldl {step : SuperGraph Op → Nat → SuperGraph Op}
    (round : ∀ {G : SuperGraph Op} {alive : Nat → Prop} {s : Nat}, G.Sweep nodes alive → alive s →
      ∃ alive', (step G s).Sweep nodes alive' ∧ After alive s alive')
    (l : List Nat) (nodup : l.Nodup) (h : G.Sweep nodes alive) (hl : ∀ s ∈ l, alive s) :
    ∃ alive', (l.foldl step G).Sweep nodes alive' := by
  induction l generalizing G alive with
  | nil => exact ⟨alive, h⟩
  | cons s l ih =>
    obtain ⟨out, nodup⟩ := List.nodup_cons.mp nodup
    obtain ⟨alive', h', after⟩ := round h (hl s List.mem_cons_self)
    refine ih nodup h' fun x hx => ?_
    have ne : x ≠ s := fun eq => out (eq ▸ hx)
    exact (after x ne).mpr (hl x (List.mem_cons_of_mem _ hx))

theorem Sweep.removeEmptySuper (h : G.Sweep nodes alive) :
    G.removeEmptySuper.Sweep nodes (· ∈ G.removeEmptySuper.sortedSuper) :=
  ⟨h.part.removeEmptySuper, h.conn.removeEmptySuper h.part, h.forward.removeEmptySuper⟩

theorem Sweep.mergeOut1 (h : G.Sweep nodes (· ∈ G.sortedSuper)) :
    G.mergeOut1.Sweep nodes (· ∈ G.mergeOut1.sortedSuper) := by
  obtain ⟨alive', h'⟩ := Sweep.foldl (fun h hs => h.mergeOut1Step hs) G.sortedSuper.reverse
    (List.nodup_reverse.mpr h.part.nodup) h fun s hs => List.mem_reverse.mp hs
  exact h'.removeEmptySuper

theorem Sweep.mergeIn1 (h : G.Sweep nodes (· ∈ G.sortedSuper)) :
    G.mergeIn1.Sweep nodes (· ∈ G.mergeIn1.sortedSuper) := by
  obtain ⟨alive', h'⟩ := Sweep.foldl (fun h hs => h.mergeIn1Step hs) G.sortedSuper
    h.part.nodup h fun s hs => hs
  exact h'.removeEmptySuper

end Rounds

end SuperGraph

end Gsim.MergeNodes
