/-
  Gsim/ActivitySound.lean
  =======================
  **The activity-driven step computes what a full evaluation computes.**

  Super nodes are the blocks of `ChangeDriven`: the evaluation of one wakes every super node
  that sees another value afterwards (`Design.unwoken`), and the flags, wherever they are
  kept at a moment, stand for the pending ones (`Design.visit`).  Whatever the order of the
  super nodes, the values are after every step those of a model that evaluates everything
  (`scan_eq_full`), as long as no two super nodes write one entry of a memory in a step.
-/
import Gsim.ActivityScan

namespace Gsim.ActivityScan

open ExpTree ActiveMasks FlagBytes ChangeDriven

variable {Op : Type}

/-! ## Members -/

namespace Emitted

section Members

variable {G : Emitted Op}

theorem mem_members {c n : ℕ} : n ∈ G.members c ↔ ∃ super, G.cppId2Super[c]? = some super ∧ n ∈ super.member := by
  unfold members
  cases G.cppId2Super[c]? with
  | none => simp
  | some super => simp

theorem lt_of_mem_members {c n : ℕ} (h : n ∈ G.members c) : c < G.superId := by
  obtain ⟨super, hsuper, -⟩ := mem_members.mp h
  exact (List.getElem?_eq_some_iff.mp hsuper).1

theorem cppIdOf_lt {n c : ℕ} (h : G.cppIdOf n = some c) : c < G.superId :=
  (List.findIdx?_eq_some_iff_getElem.mp h).1

theorem mem_alwaysActive {c : ℕ} : c ∈ G.alwaysActive ↔ G.isAlwaysActive c = true := by
  rw [alwaysActive, Finset.mem_filter, Finset.mem_range]
  refine and_iff_right_of_imp fun h => ?_
  rw [isAlwaysActive] at h
  cases hsuper : G.cppId2Super[c]? with
  | none =>
    rw [hsuper] at h
    cases h
  | some super => exact (List.getElem?_eq_some_iff.mp hsuper).1

theorem nextActiveId_lt {n id : ℕ} (h : id ∈ G.nextActiveId n) : id < G.superId := by
  rw [nextActiveId, Finset.mem_union] at h
  rcases h with h | h
  · obtain ⟨nextNode, -, here⟩ := List.mem_filterMap.mp (List.mem_toFinset.mp h)
    rw [activated] at here
    cases hid : G.cppIdOf nextNode with
    | none =>
      rw [hid] at here
      cases here
    | some c =>
      rw [hid] at here
      have same : c = id := by
        rcases ite_eq_iff.mp here with ⟨-, here⟩ | ⟨-, here⟩
        · rcases ite_eq_iff.mp here with ⟨-, here⟩ | ⟨-, here⟩
          · exact Option.some.inj here
          · cases here
        · exact Option.some.inj here
      rw [← same]
      exact cppIdOf_lt hid
  · cases hty : (G.node n).type with
    | regDst =>
      rw [hty] at h
      exact cppIdOf_lt (Option.mem_def.mp (Option.mem_toFinset.mp h))
    | writer =>
      rw [hty] at h
      obtain ⟨port, -, here⟩ := List.mem_filterMap.mp (List.mem_toFinset.mp h)
      rcases ite_eq_iff.mp here with ⟨-, here⟩ | ⟨-, here⟩
      · exact cppIdOf_lt here
      · cases here
    | _ =>
      rw [hty] at h
      exact absurd h (Finset.notMem_empty _)

end Members

end Emitted

namespace Design

open Emitted

variable {G : Design Op}

theorem cppIdOf_eq {c n : ℕ} (h : n ∈ G.members c) : G.cppIdOf n = some c := by
  obtain ⟨super, hsuper, hn⟩ := mem_members.mp h
  obtain ⟨lt, rfl⟩ := List.getElem?_eq_some_iff.mp hsuper
  apply List.findIdx?_eq_some_iff_getElem.mpr
  refine ⟨lt, decide_eq_true hn, ?_⟩
  intro j hj
  have apart := (List.nodup_flatMap.mp G.nodup).2
  have disjoint := List.pairwise_iff_getElem.mp apart j c (hj.trans lt) lt hj
  simp only [Bool.not_eq_true, decide_eq_false_iff_not]
  exact fun other => disjoint other hn

theorem members_unique {c d n : ℕ} (hc : n ∈ G.members c) (hd : n ∈ G.members d) : c = d :=
  Option.some.inj ((cppIdOf_eq hc).symm.trans (cppIdOf_eq hd))

theorem members_nodup (c : ℕ) : (G.members c).Nodup := by
  unfold members
  cases hsuper : G.cppId2Super[c]? with
  | none => exact List.nodup_nil
  | some super => exact (List.nodup_flatMap.mp G.nodup).1 super (List.mem_of_getElem? hsuper)

/-- A successor in another super node, or not behind the node in its own. -/
theorem mem_nextActiveId_of_next {c d p n : ℕ} (hp : p ∈ G.members c) (hn : n ∈ G.members d)
    (next : n ∈ (G.node p).next) (back : c = d → G.findIndex d n ≤ G.findIndex d p) :
    d ∈ G.nextActiveId p := by
  apply Finset.mem_union_left
  rw [List.mem_toFinset]
  refine List.mem_filterMap.mpr ⟨n, next, ?_⟩
  simp only [activated, cppIdOf_eq hn, cppIdOf_eq hp, Option.some.injEq]
  by_cases same : c = d
  · rw [if_pos same, if_pos (back same)]
  · rw [if_neg same]

end Design

/-! ## Super nodes as blocks -/

namespace Emitted

variable (G : Emitted Op) (I : Interp Op)

/-- What the members write, one after the other. -/
def outOf : List ℕ → State → Place → Option ℤ
  | [], _ => fun _ => none
  | n :: ns, s => fun x => (outOf ns (G.runMember I s n) x).or (G.act I n s x)

/-- The super nodes that are always active or that the evaluation of a super node activates. -/
def wakes (c : ℕ) (s : State) : Set ℕ :=
  {d | d ∈ G.alwaysActive ∨ ∃ n ∈ G.members c, d ∈ G.nextActiveId n ∧
    ((G.node n).isArray = true ∨ (G.node n).type = .writer ∨
      G.runSuper I c s (.node n []) ≠ s (.node n []))}

/-- What the assignments of a member look at. -/
def reads (n : ℕ) : Set Place :=
  {y | (∃ tree ∈ (G.node n).assignTree, ∃ p ∈ tree.refs, ∃ index, y = .node p index) ∨
    (G.node n).type = .reader ∧ ∃ addr index, y = .mem (G.node n).parent addr index}

variable {G I}

theorem outOf_cons (n : ℕ) (ns : List ℕ) (s : State) (x : Place) :
    G.outOf I (n :: ns) s x = (G.outOf I ns (G.runMember I s n) x).or (G.act I n s x) := rfl

theorem foldl_runMember (ns : List ℕ) (s : State) :
    ns.foldl (G.runMember I) s = overlay (G.outOf I ns s) s := by
  induction ns generalizing s with
  | nil => rfl
  | cons n ns ih =>
    rw [List.foldl_cons, ih]
    funext x
    rw [overlay, overlay, outOf_cons]
    cases G.outOf I ns (G.runMember I s n) x with
    | some v => rfl
    | none => rfl

theorem outOf_append (ns ns' : List ℕ) (s : State) (x : Place) :
    G.outOf I (ns ++ ns') s x = (G.outOf I ns' (ns.foldl (G.runMember I) s) x).or (G.outOf I ns s x) := by
  induction ns generalizing s with
  | nil => exact (Option.or_none).symm
  | cons n ns ih =>
    rw [List.cons_append, outOf_cons, ih, List.foldl_cons, outOf_cons, Option.or_assoc]

theorem assigns_place {n m : ℕ} {val : List ℤ → Option ℤ} {index : List ℤ} {v : ℤ}
    (h : G.assigns n val (.node m index) = some v) :
    m = n ∧ ((G.node n).isArray = true ∨ index = []) := by
  rcases ite_eq_iff.mp h with ⟨here, -⟩ | ⟨-, here⟩
  · exact here
  · cases here

/-- A member writes no node but itself. -/
theorem act_node {n m : ℕ} {s : State} {index : List ℤ} {v : ℤ}
    (h : G.act I n s (.node m index) = some v) : m = n ∧ ((G.node n).isArray = true ∨ index = []) := by
  unfold act at h
  cases hty : (G.node n).type <;> rw [hty] at h <;> first | exact assigns_place h | cases h

/-- Only a port writes a memory, its own. -/
theorem act_mem {n m : ℕ} {s : State} {addr : ℤ} {index : List ℤ} {v : ℤ}
    (h : G.act I n s (.mem m addr index) = some v) : (G.node n).type = .writer ∧ m = (G.node n).parent := by
  unfold act at h
  cases hty : (G.node n).type with
  | writer =>
    rw [hty] at h
    rcases ite_eq_iff.mp h with ⟨here, -⟩ | ⟨-, here⟩
    · exact ⟨rfl, here⟩
    · cases here
  | _ =>
    rw [hty] at h
    cases h

/-- An external module changes no state but its own. -/
theorem act_ext {n m : ℕ} {s : State} {index : List ℤ} {v : ℤ}
    (h : G.act I n s (.ext m index) = some v) : m = n := by
  unfold act at h
  cases hty : (G.node n).type with
  | ext =>
    rw [hty] at h
    rcases ite_eq_iff.mp h with ⟨here, -⟩ | ⟨-, here⟩
    · exact here
    · cases here
  | _ =>
    rw [hty] at h
    cases h

theorem outOf_some {ns : List ℕ} {s : State} {x : Place} {v : ℤ} (h : G.outOf I ns s x = some v) :
    ∃ n ∈ ns, ∃ s', G.act I n s' x = some v := by
  induction ns generalizing s with
  | nil => cases h
  | cons n ns ih =>
    rw [outOf_cons, Option.or_eq_some_iff] at h
    rcases h with h | ⟨-, h⟩
    · obtain ⟨m, hm, found⟩ := ih h
      exact ⟨m, List.mem_cons_of_mem _ hm, found⟩
    · exact ⟨n, List.mem_cons_self, s, h⟩

theorem outOf_node {ns : List ℕ} {s : State} {p : ℕ} {index : List ℤ} {v : ℤ}
    (h : G.outOf I ns s (.node p index) = some v) : p ∈ ns ∧ ((G.node p).isArray = true ∨ index = []) := by
  obtain ⟨n, hn, s', h⟩ := outOf_some h
  obtain ⟨rfl, shape⟩ := act_node h
  exact ⟨hn, shape⟩

theorem act_congr {n : ℕ} {s t : State} (same : ∀ y ∈ G.reads n, s y = t y)
    (plain : (G.node n).type ≠ .ext ∧ (G.node n).type ≠ .extOut) : G.act I n s = G.act I n t := by
  have trees : ∀ mem, G.treeValues I mem n s = G.treeValues I mem n t := by
    intro mem
    refine List.map_congr_left fun tree htree => tree.eval_congr fun p hp => ?_
    funext index
    exact same _ (.inl ⟨tree, htree, p, hp, index, rfl⟩)
  unfold act
  cases hty : (G.node n).type with
  | ext => exact absurd hty plain.1
  | extOut => exact absurd hty plain.2
  | reader =>
    have stored : memory s (G.node n).parent = memory t (G.node n).parent := by
      funext addr index
      exact same _ (.inr ⟨hty, addr, index, rfl⟩)
    simp only [stored, trees]
  | _ => simp only [trees]

/-- Two states in which every member sees the same, be it that an earlier member makes it the same. -/
theorem outOf_congr {ns : List ℕ} {s t : State}
    (plain : ∀ n ∈ ns, (G.node n).type ≠ .ext ∧ (G.node n).type ≠ .extOut)
    (same : ∀ before n after, ns = before ++ n :: after → ∀ y ∈ G.reads n,
      s y = t y ∨ ∃ v, G.outOf I before s y = some v) : G.outOf I ns s = G.outOf I ns t := by
  induction ns generalizing s t with
  | nil => rfl
  | cons n ns ih =>
    have here : G.act I n s = G.act I n t := by
      refine act_congr (fun y hy => ?_) (plain n List.mem_cons_self)
      rcases same [] n ns rfl y hy with same | ⟨v, h⟩
      · exact same
      · cases h
    have rest : G.outOf I ns (G.runMember I s n) = G.outOf I ns (G.runMember I t n) := by
      refine ih (fun m hm => plain m (List.mem_cons_of_mem _ hm)) ?_
      intro before m after eq y hy
      have cases := same (n :: before) m after (by rw [eq, List.cons_append]) y hy
      rw [runMember, runMember, ← here]
      cases hact : G.act I n s y with
      | some v => exact .inl ((overlay_some hact).trans (overlay_some hact).symm)
      | none =>
        rcases cases with same | ⟨v, h⟩
        · exact .inl ((overlay_none hact).trans (same.trans (overlay_none hact).symm))
        · rw [outOf_cons, hact, Option.or_none] at h
          exact .inr ⟨v, h⟩
    funext x
    rw [outOf_cons, outOf_cons, rest, here]

end Emitted

namespace Design

open Emitted

variable (G : Design Op) (I : Interp Op)

variable {G I}

/-- What a member of another super node, or an earlier one of the same, has changed is seen by no
member of a super node that is not activated. -/
theorem unwoken {b c : ℕ} {s : State} (idle : c ∉ G.wakes I b s) :
    G.outOf I (G.members c) (overlay (G.outOf I (G.members b) s) s) = G.outOf I (G.members c) s := by
  have asleep : ∀ p ∈ G.members b, c ∈ G.nextActiveId p →
      (G.node p).isArray ≠ true ∧ (G.node p).type ≠ .writer ∧
        overlay (G.outOf I (G.members b) s) s (.node p []) = s (.node p []) := by
    intro p hp wake
    have no : ¬ ((G.node p).isArray = true ∨ (G.node p).type = .writer ∨
        G.runSuper I b s (.node p []) ≠ s (.node p [])) := fun h => idle (.inr ⟨p, hp, wake, h⟩)
    rw [runSuper, foldl_runMember] at no
    push Not at no
    exact no
  have plain : ∀ n ∈ G.members c, (G.node n).type ≠ .ext ∧ (G.node n).type ≠ .extOut := by
    intro n hn
    obtain ⟨super, hsuper, hmem⟩ := mem_members.mp hn
    have sleeps : super.isExtmod ≠ true := by
      intro h
      refine idle (.inl (mem_alwaysActive.mpr ?_))
      rw [isAlwaysActive, hsuper]
      exact h
    have external := G.extmod super (List.mem_of_getElem? hsuper) n hmem
    exact ⟨fun h => sleeps (external (.inl h)), fun h => sleeps (external (.inr h))⟩
  refine (outOf_congr plain ?_).symm
  intro before n after eq y hy
  have hn : n ∈ G.members c := by
    rw [eq]
    exact List.mem_append_right _ List.mem_cons_self
  obtain ⟨super, hsuper, hmem⟩ := mem_members.mp hn
  cases hout : G.outOf I (G.members b) s y with
  | none => exact .inl (overlay_none hout).symm
  | some v =>
    rcases hy with ⟨tree, htree, p, hp, index, rfl⟩ | ⟨reader, addr, index, rfl⟩
    · obtain ⟨hpb, shape⟩ := outOf_node hout
      have unchanged : c ∈ G.nextActiveId p →
          s (.node p index) = overlay (G.outOf I (G.members b) s) s (.node p index) := by
        intro wake
        obtain ⟨scalar, -, still⟩ := asleep p hpb wake
        obtain rfl := shape.resolve_left scalar
        exact still.symm
      by_cases hreg : (G.node n).type = .regSrc
      · obtain ⟨dst, src⟩ := G.update super (List.mem_of_getElem? hsuper) n hmem hreg tree htree p hp
        refine .inl (unchanged (Finset.mem_union_right _ ?_))
        rw [dst, src, cppIdOf_eq hn]
        exact Option.mem_toFinset.mpr rfl
      · have next := G.connect super (List.mem_of_getElem? hsuper) n hmem hreg tree htree p hp
        by_cases back : b = c → G.findIndex c n ≤ G.findIndex c p
        · exact .inl (unchanged (mem_nextActiveId_of_next hpb hn next back))
        · -- an earlier member of the same super node
          push Not at back
          obtain ⟨rfl, lt⟩ := back
          right
          have nodup := G.members_nodup b
          rw [eq] at nodup hout
          have fresh : n ∉ before := fun h => List.disjoint_of_nodup_append nodup h List.mem_cons_self
          have place : (before ++ n :: after).idxOf n = before.length := by
            rw [List.idxOf_append_of_notMem fresh, List.idxOf_cons_self, Nat.add_zero]
          rw [findIndex, findIndex, eq, place] at lt
          have early : p ∈ before := by
            by_contra late
            rw [List.idxOf_append_of_notMem late] at lt
            omega
          rw [outOf_append, Option.or_eq_some_iff] at hout
          rcases hout with hout | ⟨-, hout⟩
          · exact absurd (outOf_node hout).1 fun h => List.disjoint_of_nodup_append nodup early h
          · exact ⟨v, hout⟩
    · obtain ⟨w, hw, s', h⟩ := outOf_some hout
      obtain ⟨writer, parent⟩ := act_mem h
      have wake : c ∈ G.nextActiveId w := by
        apply Finset.mem_union_right
        rw [writer]
        rw [List.mem_toFinset]
        refine List.mem_filterMap.mpr ⟨n, ?_, ?_⟩
        · rw [← parent]
          exact G.port super (List.mem_of_getElem? hsuper) n hmem reader
        · rw [if_pos reader, cppIdOf_eq hn]
      exact absurd writer (asleep w hw wake).2.1

variable (G I)

/-- The super nodes of a design. -/
def blocks : Blocks ℕ Place ℤ where
  out := fun c s => G.outOf I (G.members c) s
  wakes := G.wakes I
  unwoken := unwoken

variable {G I}

theorem run_blocks (c : ℕ) (s : State) : (G.blocks I).run c s = G.runSuper I c s :=
  (foldl_runMember _ _).symm

theorem runAll_blocks (s : State) :
    (G.blocks I).runAll (List.range G.superId) s = G.fullStep I s := by
  have same : (fun s b => (G.blocks I).run b s) = fun s c => G.runSuper I c s := by
    funext s c
    exact run_blocks c s
  rw [Blocks.runAll, same]
  rfl

end Design

/-! ## What is pending -/

namespace Emitted

variable (G : Emitted Op) (I : Interp Op)

/-- The super nodes that the flags stand for, between two words. -/
def pendingAll (st : Scan) : Set ℕ := {c | c ∈ G.alwaysActive ∨ flag st.activeFlags c = true}

/-- The super nodes whose flag is looked up in `oldFlag`, from a super node on. -/
def inside (pos c : ℕ) : Prop := G.prevActiveWhole c = true ∧ pos / 8 = c / 8 ∧ pos ≤ c

/-- The super nodes that the flags stand for in an open word, in front of a super node. -/
def pendingIn (pos : ℕ) (st : Scan) : Set ℕ :=
  {c | c ∈ G.alwaysActive ∨ (G.inside pos c ∧ st.oldFlag.getLsbD (c % 8) = true) ∨
    ¬ G.inside pos c ∧ flag st.activeFlags c = true}

def pending (pos : ℕ) (st : Scan) : Set ℕ := if pos % 8 = 0 then G.pendingAll st else G.pendingIn pos st

variable {G I}

theorem prevActiveWhole_congr {c d : ℕ} (word : c / 8 = d / 8) : G.prevActiveWhole c = G.prevActiveWhole d := by
  rw [prevActiveWhole, prevActiveWhole, word]

theorem flag_update (flags : ℕ → BitVec 8) (w : ℕ) (b : BitVec 8) (c : ℕ) :
    flag (Function.update flags w b) c = if c / 8 = w then b.getLsbD (c % 8) else flag flags c := by
  rw [flag, Function.update_apply]
  split
  · rfl
  · rfl

/-- The copy of a word takes over what its flags stood for. -/
theorem pendingIn_openWord (pos : ℕ) (st : Scan) : G.pendingIn pos (G.openWord pos st) = G.pending pos st := by
  by_cases start : pos % 8 = 0
  · rw [pending, if_pos start]
    by_cases whole : G.prevActiveWhole pos = true
    · rw [openWord, if_pos ⟨start, whole⟩]
      ext c
      simp only [pendingIn, pendingAll, Set.mem_ofPred_eq, flag_update]
      by_cases word : pos / 8 = c / 8
      · have here : G.inside pos c := by
          refine ⟨?_, word, by omega⟩
          rw [← prevActiveWhole_congr word]
          exact whole
        rw [flag, word]
        simp [here]
      · have other : ¬ G.inside pos c := fun h => word h.2.1
        rw [if_neg fun h => word h.symm]
        simp [other]
    · rw [openWord, if_neg fun h => whole h.2]
      ext c
      have outside : ¬ G.inside pos c := by
        intro h
        refine whole ?_
        rw [prevActiveWhole_congr h.2.1]
        exact h.1
      simp [pendingIn, pendingAll, outside]
  · rw [pending, if_neg start, openWord, if_neg fun h => start h.1]

theorem admits_iff (pos : ℕ) (st : Scan) : G.admits pos st = true ↔ pos ∈ G.pendingIn pos st := by
  simp only [admits, pendingIn, Set.mem_ofPred_eq, mem_alwaysActive, Bool.or_eq_true]
  refine or_congr_right ?_
  cases whole : G.prevActiveWhole pos with
  | true =>
    have here : G.inside pos pos := ⟨whole, rfl, le_rfl⟩
    simp [here]
  | false =>
    have outside : ¬ G.inside pos pos := by
      intro h
      have yes := h.1
      rw [whole] at yes
      cases yes
    simp [outside, flag]

/-- Behind a super node the flags of the later ones of its word are still in the copy. -/
theorem mem_pending_succ {pos c : ℕ} (ne : c ≠ pos) {st : Scan} :
    c ∈ G.pending (pos + 1) st ↔ c ∈ G.pendingIn pos st := by
  have same : (pos + 1) % 8 ≠ 0 → (G.inside (pos + 1) c ↔ G.inside pos c) := by
    intro inner
    refine and_congr_right fun _ => ?_
    constructor
    · rintro ⟨word, le⟩
      exact ⟨by omega, by omega⟩
    · rintro ⟨word, le⟩
      exact ⟨by omega, by omega⟩
  by_cases edge : (pos + 1) % 8 = 0
  · have outside : ¬ G.inside pos c := by
      rintro ⟨-, word, le⟩
      omega
    simp [pending, edge, pendingAll, pendingIn, outside]
  · simp only [pending, edge, if_false, pendingIn, Set.mem_ofPred_eq, same edge]

theorem mem_pending_succ_self {pos : ℕ} {st : Scan} :
    pos ∈ G.pending (pos + 1) st ↔ pos ∈ G.pendingAll st := by
  by_cases edge : (pos + 1) % 8 = 0
  · rw [pending, if_pos edge]
  · have outside : ¬ G.inside (pos + 1) pos := fun h => Nat.not_succ_le_self pos h.2.2
    simp [pending, edge, pendingAll, pendingIn, outside]

/-! ## Activations -/

/-- The flags only grow. -/
def Grows (st st' : Scan) : Prop :=
  (∀ i, i < 8 → st.oldFlag.getLsbD i = true → st'.oldFlag.getLsbD i = true) ∧
    ∀ d, flag st.activeFlags d = true → flag st'.activeFlags d = true

/-- The flag of a super node that the code of another one activates is on. -/
def Awake (cppId d : ℕ) (st : Scan) : Prop :=
  if G.prevActiveWhole cppId = true ∧ inOwnWord cppId d = true then st.oldFlag.getLsbD (d % 8) = true
  else flag st.activeFlags d = true

theorem Grows.refl (st : Scan) : Grows st st := ⟨fun _ _ h => h, fun _ h => h⟩

theorem Grows.trans {st st' st'' : Scan} (h : Grows st st') (h' : Grows st' st'') : Grows st st'' :=
  ⟨fun i lt on => h'.1 i lt (h.1 i lt on), fun d on => h'.2 d (h.2 d on)⟩

theorem Awake.mono {cppId d : ℕ} {st st' : Scan} (h : G.Awake cppId d st) (grows : Grows st st') :
    G.Awake cppId d st' := by
  unfold Awake at h ⊢
  split at h
  · rename_i own
    rw [if_pos own]
    exact grows.1 _ (Nat.mod_lt d (by decide)) h
  · rename_i other
    rw [if_neg other]
    exact grows.2 d h

/-- The ids and the condition of the activation behind a member. -/
theorem activation_spec {cppId n : ℕ} {old new : State} {e : Activation}
    (h : G.activation cppId n old new = some e) :
    ∃ cond : Bool, (e = .next (G.nextActiveId n) cppId cond ∨ e = .uncond (G.nextActiveId n) cppId ∧ cond = true) ∧
      ((G.node n).isArray = true ∨ (G.node n).type = .writer ∨ new (.node n []) ≠ old (.node n []) →
        cond = true) := by
  rw [activation] at h
  rcases ite_eq_iff.mp h with ⟨-, h⟩ | ⟨-, h⟩
  · cases h
  · rcases ite_eq_iff.mp h with ⟨-, h⟩ | ⟨other, h⟩
    · exact ⟨true, .inr ⟨(Option.some.inj h).symm, rfl⟩, fun _ => rfl⟩
    · refine ⟨_, .inl (Option.some.inj h).symm, ?_⟩
      rintro (array | writer | changed)
      · exact absurd (.inl array) other
      · exact absurd (.inr writer) other
      · exact decide_eq_true changed

/-- The flags behind the statements of an activation. -/
theorem flag_sink {flags : ℕ → BitVec 8} {e : Activation} (within : e.Within G.superId) (d : ℕ) :
    flag (G.sink.activate G.alwaysActive flags e) d =
      (flag flags d || e.sets G.alwaysActive (activeFlagNum G.superId) d) :=
  (directSink_lawful.activate G.alwaysActive trivial within).2 d

/-- What an activation does to a word that has the ids of the mask. -/
theorem getLsbD_ownFlag {n cppId : ℕ} {e : Activation} {cond : Bool}
    (shape : e = .next (G.nextActiveId n) cppId cond ∨ e = .uncond (G.nextActiveId n) cppId ∧ cond = true)
    (flags : BitVec 8) {i : ℕ} (lt : i < 8) :
    (G.ownFlag flags e).getLsbD i =
      (flags.getLsbD i || cond && insideOwnWord G.alwaysActive (G.nextActiveId n) cppId i) := by
  rcases shape with rfl | ⟨rfl, rfl⟩
  · exact getLsbD_ownFlagNext _ _ _ _ _ lt
  · exact getLsbD_ownFlagUncond _ _ _ _ lt

theorem sets_iff {n cppId d : ℕ} {e : Activation} {cond : Bool}
    (shape : e = .next (G.nextActiveId n) cppId cond ∨ e = .uncond (G.nextActiveId n) cppId ∧ cond = true) :
    e.sets G.alwaysActive (activeFlagNum G.superId) d =
      (cond && outsideOwnWord G.alwaysActive (G.nextActiveId n) cppId d) := by
  rcases shape with rfl | ⟨rfl, rfl⟩
  · rfl
  · rfl

theorem activate_spec {cppId n : ℕ} {old new : State} (st : Scan) :
    let st' := G.activate cppId st (G.activation cppId n old new)
    st'.env = st.env ∧ Grows st st' ∧
      ((G.node n).isArray = true ∨ (G.node n).type = .writer ∨ new (.node n []) ≠ old (.node n []) →
        ∀ d ∈ G.nextActiveId n, d ∉ G.alwaysActive → G.Awake cppId d st') := by
  cases hact : G.activation cppId n old new with
  | none =>
    refine ⟨rfl, .refl st, fun _ d hd sometimes => ?_⟩
    rw [activation] at hact
    rcases ite_eq_iff.mp hact with ⟨none, -⟩ | ⟨-, h⟩
    · exact absurd (Finset.mem_filter.mpr ⟨hd, sometimes⟩) (none ▸ Finset.notMem_empty d)
    · rcases ite_eq_iff.mp h with ⟨-, h⟩ | ⟨-, h⟩
      · cases h
      · cases h
  | some e =>
    obtain ⟨cond, shape, fires⟩ := activation_spec hact
    have within : e.Within G.superId := by
      rcases shape with rfl | ⟨rfl, -⟩
      · exact fun id h => nextActiveId_lt h
      · exact fun id h => nextActiveId_lt h
    have on : ∀ {d}, d ∈ G.nextActiveId n → d ∉ G.alwaysActive → inOwnWord cppId d = true →
        insideOwnWord G.alwaysActive (G.nextActiveId n) cppId (d % 8) = true :=
      fun {d} hd sometimes own => decide_eq_true ⟨d, hd, sometimes, own, rfl⟩
    have off : ∀ {d}, d ∈ G.nextActiveId n → d ∉ G.alwaysActive → inOwnWord cppId d ≠ true →
        outsideOwnWord G.alwaysActive (G.nextActiveId n) cppId d = true := by
      intro d hd sometimes other
      simp [outsideOwnWord, hd, sometimes, other]
    rw [activate]
    cases whole : G.prevActiveWhole cppId with
    | true =>
      rw [if_pos rfl]
      refine ⟨rfl, ⟨fun i lt h => ?_, fun d h => ?_⟩, fun changed d hd sometimes => ?_⟩
      · rw [getLsbD_ownFlag shape _ lt, h, Bool.true_or]
      · rw [flag_sink within, h, Bool.true_or]
      · have yes := fires changed
        rw [Awake, whole]
        split
        · rename_i own
          rw [getLsbD_ownFlag shape _ (Nat.mod_lt d (by decide)), yes, on hd sometimes own.2, Bool.true_and,
            Bool.or_true]
        · rename_i other
          rw [flag_sink within, sets_iff shape, yes, off hd sometimes fun h => other ⟨rfl, h⟩, Bool.true_and,
            Bool.or_true]
    | false =>
      rw [if_neg Bool.false_ne_true]
      have word : ∀ d, flag st.activeFlags d = true → flag (Function.update st.activeFlags (cppId / 8)
          (G.ownFlag (st.activeFlags (cppId / 8)) e)) d = true := by
        intro d h
        rw [flag_update]
        split
        · rename_i here
          rw [getLsbD_ownFlag shape _ (Nat.mod_lt d (by decide)), ← here]
          rw [flag] at h
          rw [h, Bool.true_or]
        · exact h
      refine ⟨rfl, ⟨fun i lt h => h, fun d h => ?_⟩, fun changed d hd sometimes => ?_⟩
      · rw [flag_sink within, word d h, Bool.true_or]
      · have yes := fires changed
        rw [Awake, whole, if_neg fun h => Bool.false_ne_true h.1, flag_sink within]
        by_cases own : inOwnWord cppId d = true
        · have here : d / 8 = cppId / 8 := by
            simp only [inOwnWord, decide_eq_true_eq] at own
            omega
          rw [flag_update, if_pos here, getLsbD_ownFlag shape _ (Nat.mod_lt d (by decide)), yes,
            on hd sometimes own, Bool.true_and, Bool.or_true, Bool.true_or]
        · rw [sets_iff shape, yes, off hd sometimes own, Bool.true_and, Bool.or_true]

/-! ## A super node of the scan -/

theorem foldl_runMember_of_notMem {ns : List ℕ} {n : ℕ} (h : n ∉ ns) (s : State) (index : List ℤ) :
    ns.foldl (G.runMember I) s (.node n index) = s (.node n index) := by
  rw [foldl_runMember]
  apply overlay_none
  cases hout : G.outOf I ns s (.node n index) with
  | none => rfl
  | some v => exact absurd (outOf_node hout).1 h

theorem evalMembers_spec (cppId : ℕ) {ns : List ℕ} (nodup : ns.Nodup) (st : Scan) :
    let st' := ns.foldl (G.evalMember I cppId) st
    st'.env = ns.foldl (G.runMember I) st.env ∧ Grows st st' ∧
      ∀ n ∈ ns, (G.node n).isArray = true ∨ (G.node n).type = .writer ∨
          st'.env (.node n []) ≠ st.env (.node n []) →
        ∀ d ∈ G.nextActiveId n, d ∉ G.alwaysActive → G.Awake cppId d st' := by
  induction ns generalizing st with
  | nil => exact ⟨rfl, .refl st, fun n hn => absurd hn List.not_mem_nil⟩
  | cons n ns ih =>
    obtain ⟨fresh, rest⟩ := List.nodup_cons.mp nodup
    have here : (G.evalMember I cppId st n).env = G.runMember I st.env n ∧
        Grows st (G.evalMember I cppId st n) ∧
        ((G.node n).isArray = true ∨ (G.node n).type = .writer ∨
            G.runMember I st.env n (.node n []) ≠ st.env (.node n []) →
          ∀ d ∈ G.nextActiveId n, d ∉ G.alwaysActive → G.Awake cppId d (G.evalMember I cppId st n)) :=
      activate_spec _
    obtain ⟨env, grows, wakes⟩ := here
    obtain ⟨env', grows', wakes'⟩ := ih rest (G.evalMember I cppId st n)
    have after : (ns.foldl (G.evalMember I cppId) (G.evalMember I cppId st n)).env =
        ns.foldl (G.runMember I) (G.runMember I st.env n) := by
      rw [env', env]
    refine ⟨after, grows.trans grows', ?_⟩
    intro m hm changed
    rw [List.foldl_cons] at changed ⊢
    rcases List.mem_cons.mp hm with rfl | hm
    · rw [after, foldl_runMember_of_notMem fresh] at changed
      exact fun d hd sometimes => (wakes changed d hd sometimes).mono grows'
    · have ne : m ≠ n := fun h => fresh (h ▸ hm)
      have still : (G.evalMember I cppId st n).env (.node m []) = st.env (.node m []) := by
        rw [env]
        apply overlay_none
        cases hact : G.act I n st.env (.node m []) with
        | none => rfl
        | some v => exact absurd (act_node hact).1 ne
      rw [← still] at changed
      exact wakes' m hm changed

end Emitted

namespace Design

open Emitted

variable {G : Design Op} {I : Interp Op}

/-- One super node of the scan: evaluated if it is pending, with what it wakes pending behind it. -/
theorem visit (pos : ℕ) (st : Scan) : (G.blocks I).Visit pos (st.env, G.pending pos st)
    ((G.scanSuper I st pos).env, G.pending (pos + 1) (G.scanSuper I st pos)) := by
  have env : (G.openWord pos st).env = st.env := by
    rw [openWord]
    split
    · rfl
    · rfl
  rw [← pendingIn_openWord, ← env]
  generalize hopen : G.openWord pos st = st₁
  have scan : G.scanSuper I st pos = if G.admits pos st₁ = true then G.evalSuper I pos st₁ else st₁ := by
    rw [← hopen]
    rfl
  rw [scan]
  by_cases turn : G.admits pos st₁ = true
  · rw [if_pos turn]
    obtain ⟨run, grows, wakes⟩ := evalMembers_spec (I := I) pos (G.members_nodup pos) st₁
    have eval : (G.evalSuper I pos st₁).env = (G.blocks I).run pos st₁.env :=
      run.trans (run_blocks pos st₁.env).symm
    rw [eval]
    refine .evaluate ((admits_iff pos st₁).mp turn) ?_ ?_
    · intro c hc ne
      rw [mem_pending_succ ne]
      rcases hc with always | ⟨inside, on⟩ | ⟨outside, on⟩
      · exact .inl always
      · exact .inr (.inl ⟨inside, grows.1 _ (Nat.mod_lt c (by decide)) on⟩)
      · exact .inr (.inr ⟨outside, grows.2 c on⟩)
    · intro d hd
      by_cases always : d ∈ G.alwaysActive
      · by_cases self : d = pos
        · subst self
          exact mem_pending_succ_self.mpr (.inl always)
        · exact (mem_pending_succ self).mpr (.inl always)
      · obtain ⟨n, hn, hid, changed⟩ := hd.resolve_left always
        have awake : G.Awake pos d (G.evalSuper I pos st₁) := by
          refine wakes n hn ?_ d hid always
          rw [run]
          exact changed
        by_cases self : d = pos
        · subst self
          have other : ¬ (G.prevActiveWhole d = true ∧ inOwnWord d d = true) := by
            simp [inOwnWord]
          rw [Awake, if_neg other] at awake
          exact mem_pending_succ_self.mpr (.inr awake)
        · rw [mem_pending_succ self]
          by_cases inside : G.inside pos d
          · have own : G.prevActiveWhole pos = true ∧ inOwnWord pos d = true := by
              obtain ⟨whole, word, le⟩ := inside
              refine ⟨?_, ?_⟩
              · rw [prevActiveWhole_congr word]
                exact whole
              · simp only [inOwnWord, decide_eq_true_eq]
                omega
            rw [Awake, if_pos own] at awake
            exact .inr (.inl ⟨inside, awake⟩)
          · have other : ¬ (G.prevActiveWhole pos = true ∧ inOwnWord pos d = true) := by
              rintro ⟨whole, own⟩
              simp only [inOwnWord, decide_eq_true_eq] at own
              refine inside ⟨?_, by omega, by omega⟩
              rw [← prevActiveWhole_congr (c := pos) (by omega)]
              exact whole
            rw [Awake, if_neg other] at awake
            exact .inr (.inr ⟨inside, awake⟩)
  · rw [if_neg turn]
    have idle : pos ∉ G.pendingIn pos st₁ := fun h => turn ((admits_iff pos st₁).mpr h)
    refine .skip idle ?_
    intro c hc
    have ne : c ≠ pos := fun h => idle (h ▸ hc)
    exact (mem_pending_succ ne).mpr hc

theorem scans (k pos : ℕ) (st : Scan) :
    (G.blocks I).Scans (List.range' pos k) (st.env, G.pending pos st)
      (((List.range' pos k).foldl (G.scanSuper I) st).env,
        G.pending (pos + k) ((List.range' pos k).foldl (G.scanSuper I) st)) := by
  induction k generalizing pos st with
  | zero => exact .nil
  | succ k ih =>
    rw [List.range'_succ, List.foldl_cons]
    have rest := ih (pos + 1) (G.scanSuper I st pos)
    rw [Nat.add_right_comm, Nat.add_assoc] at rest
    exact .cons (visit pos st) rest

/-! ## Steps -/

/-- What a super node would write, it has written, unless its flag is on. -/
def Settled (G : Design Op) (I : Interp Op) (st : Scan) : Prop :=
  (G.blocks I).Settled (List.range G.superId) st.env (G.pendingAll st)

/-- No two super nodes write one entry of a memory when all are evaluated. -/
def WritesApart (G : Design Op) (I : Interp Op) (s : State) : Prop :=
  (G.blocks I).ClashFree (List.range G.superId) ∅ s

theorem Settled.step {st : Scan} (settled : G.Settled I st) (apart : G.WritesApart I st.env) :
    (G.step I st).env = G.fullStep I st.env ∧ G.Settled I (G.step I st) := by
  have run := scans (G := G) (I := I) G.superId 0 st
  rw [← List.range_eq_range'] at run
  have start : G.pending 0 st = G.pendingAll st := if_pos rfl
  rw [start] at run
  obtain ⟨eq, after⟩ := run.eq_runAll settled apart
  rw [runAll_blocks] at eq
  refine ⟨eq, ?_⟩
  intro c hc idle
  refine after c hc fun h => idle ?_
  rw [Nat.zero_add, pending] at h
  split at h
  · exact h
  · rcases h with always | ⟨inside, -⟩ | ⟨-, on⟩
    · exact .inl always
    · exact absurd (List.mem_range.mp hc) (Nat.not_lt.mpr inside.2.2)
    · exact .inr on

theorem Settled.setInput {st : Scan} (settled : G.Settled I st) {input : ℕ × ℤ}
    (inp : (G.node input.1).type = .inp) :
    (G.setInput st input).env = Function.update st.env (.node input.1 []) input.2 ∧
      G.Settled I (G.setInput st input) := by
  rw [Emitted.setInput]
  by_cases changed : st.env (.node input.1 []) ≠ input.2
  · rw [if_pos changed]
    refine ⟨rfl, Blocks.Settled.disturb settled ?_ ?_ ?_⟩
    all_goals
      have within : (Activation.uncond ((G.node input.1).next.filterMap G.cppIdOf).toFinset (-1)).Within
          G.superId := by
        intro id hid
        obtain ⟨n, -, hn⟩ := List.mem_filterMap.mp (List.mem_toFinset.mp hid)
        exact cppIdOf_lt hn
    · rintro c (always | on)
      · exact .inl always
      · right
        rw [flag_sink within, on, Bool.true_or]
    · intro c hc idle
      refine outOf_congr ?_ ?_
      · intro n hn
        obtain ⟨super, hsuper, hmem⟩ := mem_members.mp hn
        have sleeps : super.isExtmod ≠ true := by
          intro h
          refine idle (.inl (mem_alwaysActive.mpr ?_))
          rw [isAlwaysActive, hsuper]
          exact h
        have external := G.extmod super (List.mem_of_getElem? hsuper) n hmem
        exact ⟨fun h => sleeps (external (.inl h)), fun h => sleeps (external (.inr h))⟩
      · intro before n after eq y hy
        left
        apply Function.update_of_ne
        rintro rfl
        have hn : n ∈ G.members c := by
          rw [eq]
          exact List.mem_append_right _ List.mem_cons_self
        obtain ⟨super, hsuper, hmem⟩ := mem_members.mp hn
        rcases hy with ⟨tree, htree, p, hp, index, place⟩ | ⟨-, addr, index, place⟩
        · obtain rfl : input.1 = p := (Place.node.inj place).1
          have plain : (G.node n).type ≠ .regSrc := by
            intro hreg
            have dst := (G.update super (List.mem_of_getElem? hsuper) n hmem hreg tree htree _ hp).1
            rw [inp] at dst
            cases dst
          have next := G.connect super (List.mem_of_getElem? hsuper) n hmem plain tree htree _ hp
          refine idle (.inr ?_)
          rw [flag_sink within]
          have hid : c ∈ ((G.node input.1).next.filterMap G.cppIdOf).toFinset :=
            List.mem_toFinset.mpr (List.mem_filterMap.mpr ⟨n, next, cppIdOf_eq hn⟩)
          have sometimes : c ∉ G.alwaysActive := fun h => idle (.inl h)
          simp [Activation.sets, outsideOwnWord, inOwnWord, hid, sometimes]
        · cases place
    · rintro c - x ⟨v, hx⟩
      apply Function.update_of_ne
      rintro rfl
      obtain ⟨n, -, s', hact⟩ := outOf_some hx
      obtain ⟨rfl, -⟩ := act_node hact
      rw [act, inp] at hact
      cases hact
  · rw [if_neg changed]
    push Not at changed
    refine ⟨?_, settled⟩
    rw [← changed, Function.update_eq_self]

theorem Settled.setInputs {st : Scan} (settled : G.Settled I st) {inputs : List (ℕ × ℤ)}
    (inp : ∀ input ∈ inputs, (G.node input.1).type = .inp) :
    (inputs.foldl G.setInput st).env = setAll inputs st.env ∧ G.Settled I (inputs.foldl G.setInput st) := by
  induction inputs generalizing st with
  | nil => exact ⟨rfl, settled⟩
  | cons input inputs ih =>
    obtain ⟨env, settled'⟩ := settled.setInput (inp input List.mem_cons_self)
    obtain ⟨env', settled''⟩ := ih settled' fun i hi => inp i (List.mem_cons_of_mem _ hi)
    refine ⟨?_, settled''⟩
    rw [List.foldl_cons, env', env]
    rfl

/-- In every step of a run in which all is evaluated, no two super nodes write one entry of a memory. -/
def ApartRun (G : Design Op) (I : Interp Op) : List (List (ℕ × ℤ)) → State → Prop
  | [], _ => True
  | inputs :: steps, s =>
    G.WritesApart I (setAll inputs s) ∧ ApartRun G I steps (G.fullStep I (setAll inputs s))

theorem Settled.run {st : Scan} (settled : G.Settled I st) {steps : List (List (ℕ × ℤ))}
    (inp : ∀ inputs ∈ steps, ∀ input ∈ inputs, (G.node input.1).type = .inp)
    (apart : G.ApartRun I steps st.env) :
    (G.scanRun I steps st).env = G.fullRun I steps st.env ∧ G.Settled I (G.scanRun I steps st) := by
  induction steps generalizing st with
  | nil => exact ⟨rfl, settled⟩
  | cons inputs steps ih =>
    obtain ⟨first, rest⟩ := apart
    obtain ⟨env, set⟩ := settled.setInputs (inp inputs List.mem_cons_self)
    rw [← env] at first
    obtain ⟨env', settled'⟩ := set.step first
    rw [env] at env'
    rw [← env'] at rest
    obtain ⟨env'', settled''⟩ := ih settled' (fun i hi => inp i (List.mem_cons_of_mem _ hi)) rest
    refine ⟨?_, settled''⟩
    rw [scanRun, List.foldl_cons]
    refine env''.trans ?_
    rw [env']
    rfl

theorem ApartRun.take {steps : List (List (ℕ × ℤ))} {s : State} (apart : G.ApartRun I steps s) (k : ℕ) :
    G.ApartRun I (steps.take k) s := by
  induction steps generalizing s k with
  | nil =>
    rw [List.take_nil]
    trivial
  | cons inputs steps ih =>
    cases k with
    | zero => trivial
    | succ k => exact ⟨apart.1, ih apart.2 k⟩

/-- Memories that are written in one super node each; then no two super nodes ever write the same. -/
theorem writesApart_of_oneWriter (one : ∀ c d w w', w ∈ G.members c → w' ∈ G.members d →
    (G.node w).type = .writer → (G.node w').type = .writer → (G.node w).parent = (G.node w').parent → c = d)
    (s : State) : G.WritesApart I s := by
  let own : ℕ → Set Place := fun c => {x | ∃ n ∈ G.members c, ∃ s v, G.act I n s x = some v}
  have writes : ∀ c s, (G.blocks I).writes c s ⊆ own c := by
    rintro c s x ⟨v, hx⟩
    obtain ⟨n, hn, s', h⟩ := outOf_some hx
    exact ⟨n, hn, s', v, h⟩
  refine Blocks.clashFree_of_owned own writes ?_ (fun c _ => Set.disjoint_empty _) s
  refine List.Pairwise.imp ?_ List.nodup_range
  intro c d ne
  rw [Set.disjoint_left]
  rintro x ⟨n, hn, t, v, h⟩ ⟨m, hm, t', v', h'⟩
  have home : n = m → c = d := by
    rintro rfl
    exact members_unique hn hm
  refine ne ?_
  cases x with
  | node p index => exact home ((act_node h).1.symm.trans (act_node h').1)
  | mem memory addr index =>
    obtain ⟨writer, parent⟩ := act_mem h
    obtain ⟨writer', parent'⟩ := act_mem h'
    exact one c d n m hn hm writer writer' (parent.symm.trans parent')
  | ext module index => exact home ((act_ext h).symm.trans (act_ext h'))

theorem apartRun_of_writesApart (apart : ∀ s, G.WritesApart I s) (steps : List (List (ℕ × ℤ))) (s : State) :
    G.ApartRun I steps s := by
  induction steps generalizing s with
  | nil => trivial
  | cons inputs steps ih => exact ⟨apart _, ih _⟩

/-- From all super nodes active on, the values are after every step those of the model that
evaluates everything. -/
theorem scan_eq_full (G : Design Op) (I : Interp Op) (st : Scan)
    (active : ∀ c < G.superId, flag st.activeFlags c = true) (steps : List (List (ℕ × ℤ)))
    (inp : ∀ inputs ∈ steps, ∀ input ∈ inputs, (G.node input.1).type = .inp)
    (apart : G.ApartRun I steps st.env) (k : ℕ) :
    (G.scanRun I (steps.take k) st).env = G.fullRun I (steps.take k) st.env := by
  have settled : G.Settled I st := Blocks.Settled.of_pending fun c hc => .inr (active c (List.mem_range.mp hc))
  exact (settled.run (fun i hi => inp i (List.mem_of_mem_take hi)) (apart.take k)).1

end Design

/-! ## A counter that is recorded in a memory -/

/-- A reference without indices. -/
def leaf (n : ℕ) : ETree Unit := ⟨.ref n 8 false [], none⟩

/-- An operator applied to references. -/
def apply (ns : List ℕ) : ETree Unit := ⟨.op () 8 false (ns.map fun n => .ref n 8 false []), none⟩

/-- An input, a register with its next value, a memory with its ports, an output. -/
def counterNode : ℕ → Node Unit
  | 0 => ⟨.inp, false, [2], [], 0, 0, []⟩
  | 1 => ⟨.regSrc, false, [2, 4, 5], [leaf 2], 1, 0, []⟩
  | 2 => ⟨.regDst, false, [], [apply [0, 1]], 1, 0, []⟩
  | 3 => ⟨.memory, false, [], [], 0, 0, [4, 5]⟩
  | 4 => ⟨.reader, false, [5, 6], [apply [1]], 0, 3, []⟩
  | 5 => ⟨.writer, false, [], [apply [1]], 0, 3, []⟩
  | 6 => ⟨.out, false, [], [leaf 4], 0, 0, []⟩
  | _ => ⟨.others, false, [], [], 0, 0, []⟩

def counter : Design Unit where
  node := counterNode
  cppId2Super := [⟨false, [4, 6]⟩, ⟨false, [2, 5]⟩, ⟨false, [1]⟩]
  nodup := by decide
  connect := by decide
  update := by decide
  port := by decide
  extmod := by decide
  noReadwriter := by decide

/-- Operators add; a port writes its value at that address. -/
def adding : Interp Unit where
  sem := fun mem _ _ _ args _ =>
    let sum := (args.map fun arg => indexOf arg).sum
    (mem.map fun m => m sum []).getD sum
  assign := fun _ trees _ => trees.getLast?.map fun tree => indexOf tree.1
  write := fun _ trees addr _ =>
    trees.getLast?.bind fun tree => if addr = indexOf tree.1 then some (indexOf tree.1) else none
  extStep := fun _ hidden _ index => hidden index
  extOut := fun _ hidden _ index => hidden index

theorem scan_eq_full_counter :
    (counter.scanRun adding ([[(0, 1)], [], [(0, 2)], []].take 3) ⟨fun _ => 0, 0, fun _ => 0xff⟩).env =
      counter.fullRun adding ([[(0, 1)], [], [(0, 2)], []].take 3) fun _ => 0 := by
  refine Design.scan_eq_full counter adding _ ?_ _ (by decide) ?_ 3
  · intro c hc
    have lt : c < 3 := hc
    interval_cases c <;> decide
  · refine Design.apartRun_of_writesApart (Design.writesApart_of_oneWriter ?_) _ _
    have only : ∀ c < 3, ∀ w ∈ counter.members c, (counter.node w).type = .writer → w = 5 := by decide
    intro c d w w' hw hw' writer writer' _
    obtain rfl := only c (Emitted.lt_of_mem_members hw) w hw writer
    obtain rfl := only d (Emitted.lt_of_mem_members hw') w' hw' writer'
    exact Design.members_unique hw hw'

end Gsim.ActivityScan
