/-
  Gsim/WhenReplay.lean
  ====================
  **Replaying the groups of `mergeWhenNodes`** (`mtSeed2RecordWhenGroup`,
  `mtSeed2WhenGroupSourceKeys` and the replay branch in `mergeNodes.cpp`).

  A run that writes a seed records its groups by the keys of the unmerged graph; a run
  that replays one looks these keys up in an index of its own unmerged graph and merges
  without deciding anything.  Before the merge every valid super node has one member, so
  that member's name tells the keys apart.  The groups do not overlap, so what a super
  node holds in the end says nothing about the order of the groups (`MergedBy`).
-/
import Gsim.MergeSchedule
import Gsim.Seed2Points

namespace Gsim.MergeNodes

open Gsim.ByteStream Gsim.Seed2 SuperLinks GraphContraction

variable {Op : Type}

/-! ## The program -/

namespace SuperGraph

/-- What the keys of the super nodes are made of. -/
def records (G : SuperGraph Op) (name : Nat → Bytes) : SuperRecords where
  member super := (G.member super).map name
  prev := G.links.prev
  next := G.links.next
  depPrev := G.links.depPrev
  depNext := G.links.depNext

end SuperGraph

/-- The key of a full record. -/
def mtSeed2FullKeyOf (R : SuperRecords) (super : Nat) : Bytes := 0x01 :: R.seed2FullKeyOf super

/-- All groups, in the order in which the map is iterated. -/
def recordGroups (R : SuperRecords) (groups : List (Nat × List Nat)) (w : Seed2Writer) :
    Option Seed2Writer :=
  groups.foldlM (fun w group =>
    mtSeed2RecordWhenGroup (mtSeed2FullKeyOf R group.1) (group.2.map (mtSeed2FullKeyOf R)) w) w

def mtSeed2WhenGroupSourceKeys (r : Seed2Reader) (i : Nat) : Option (List Bytes) :=
  r.whenGroups[i]?.bind fun g => keysOfIds r.keys g.sources

namespace SuperGraph

/-- `byKey.emplace` for every valid super node: the first with a key stays. -/
def byKey (G : SuperGraph Op) (name : Nat → Bytes) (key : Bytes) : Option Nat :=
  (G.sortedSuper.filter fun super => G.superType super = .valid).find? fun super =>
    mtSeed2FullKeyOf (G.records name) super = key

/-- The recorded groups are applied one after the other; the index is that of the unmerged
    graph. -/
def replayWhenGroups (G : SuperGraph Op) (name : Nat → Bytes) (r : Seed2Reader) :
    Option (SuperGraph Op) :=
  (List.range r.whenGroups.length).foldlM (fun (H : SuperGraph Op) gi =>
    (mtSeed2WhenGroupSourceKeys r gi).bind fun srcKeys =>
      (srcKeys.mapM (G.byKey name)).bind fun sources => H.applyGroup (0, sources)) G

end SuperGraph

/-! ## What merging leaves in a super node -/

/-- `member'` is `member` after the groups were merged: the first of a group has the members of
    all, the others have none. -/
structure MergedBy (groups : List (Nat × List Nat)) (member member' : Nat → List Nat) : Prop where
  target : ∀ e ∈ groups, ∀ x, e.2.head? = some x → member' x = e.2.flatMap member
  source : ∀ e ∈ groups, ∀ x ∈ e.2, e.2.head? ≠ some x → member' x = []
  outside : ∀ x, (∀ e ∈ groups, x ∉ e.2) → member' x = member x

theorem MergedBy.unique {groups groups' : List (Nat × List Nat)} {member m m' : Nat → List Nat}
    (same : ∀ sources, (∃ c, (c, sources) ∈ groups) ↔ ∃ c, (c, sources) ∈ groups')
    (h : MergedBy groups member m) (h' : MergedBy groups' member m') : m = m' := by
  funext x
  by_cases inside : ∃ e ∈ groups, x ∈ e.2
  · obtain ⟨⟨c, sources⟩, he, hx⟩ := inside
    obtain ⟨c', he'⟩ := (same sources).mp ⟨c, he⟩
    by_cases head : sources.head? = some x
    · rw [h.target _ he x head, h'.target _ he' x head]
    · rw [h.source _ he x hx head, h'.source _ he' x hx head]
  · push Not at inside
    have inside' : ∀ e ∈ groups', x ∉ e.2 := by
      rintro ⟨c', sources⟩ he' hx
      obtain ⟨c, he⟩ := (same sources).mpr ⟨c', he'⟩
      exact inside _ he hx
    rw [h.outside x inside, h'.outside x inside']

namespace SuperGraph

variable {G G' : SuperGraph Op}

theorem foldlM_addMember_member {l : List Nat} {t : Nat}
    (h : l.foldlM (fun (G : SuperGraph Op) m => G.addMember t m) G = some G') :
    G'.member = Function.update G.member t (G.member t ++ l) := by
  induction l generalizing G with
  | nil =>
    cases h
    simp
  | cons m l ih =>
    obtain ⟨G₁, added, rest⟩ := Option.bind_eq_some_iff.mp h
    dsimp only at added
    unfold addMember at added
    split at added
    · cases added
    · cases added
      rw [ih rest]
      simp

theorem absorb_member {t s : Nat} (h : G.absorb t s = some G') :
    G'.member = Function.update (Function.update G.member t (G.member t ++ G.member s)) s [] := by
  obtain ⟨G₁, added, eq⟩ := Option.map_eq_some_iff.mp h
  cases eq
  rw [← foldlM_addMember_member added]

/-- The sources are emptied into the target one by one. -/
theorem foldlM_absorb_member {t : Nat} (others : List Nat) (nodup : (t :: others).Nodup)
    (h : others.foldlM (fun (G : SuperGraph Op) src => G.absorb t src) G = some G') :
    G'.member t = (t :: others).flatMap G.member ∧ (∀ x ∈ others, G'.member x = []) ∧
      ∀ x, x ∉ t :: others → G'.member x = G.member x := by
  induction others generalizing G with
  | nil =>
    cases h
    exact ⟨by simp, fun x hx => absurd hx List.not_mem_nil, fun _ _ => rfl⟩
  | cons s others ih =>
    obtain ⟨G₁, absorbed, rest⟩ := Option.bind_eq_some_iff.mp h
    obtain ⟨tOut, nodup'⟩ := List.nodup_cons.mp nodup
    obtain ⟨sOut, othersNodup⟩ := List.nodup_cons.mp nodup'
    have ts : t ≠ s := fun eq => tOut (eq ▸ List.mem_cons_self)
    have tOthers : t ∉ others := fun mem => tOut (List.mem_cons_of_mem _ mem)
    have member := absorb_member absorbed
    have atT : G₁.member t = G.member t ++ G.member s := by
      rw [member, Function.update_of_ne ts, Function.update_self]
    have atS : G₁.member s = [] := by rw [member, Function.update_self]
    have elsewhere : ∀ x, x ≠ t → x ≠ s → G₁.member x = G.member x := by
      intro x xt xs
      rw [member, Function.update_of_ne xs, Function.update_of_ne xt]
    obtain ⟨target, sources, outside⟩ := ih (List.nodup_cons.mpr ⟨tOthers, othersNodup⟩) rest
    refine ⟨?_, ?_, ?_⟩
    · have untouched : others.flatMap G₁.member = others.flatMap G.member := by
        apply List.flatMap_congr
        intro x hx
        exact elsewhere x (fun eq => tOthers (eq ▸ hx)) (fun eq => sOut (eq ▸ hx))
      rw [target, List.flatMap_cons, atT, untouched, List.flatMap_cons, List.flatMap_cons,
        List.append_assoc]
    · intro x hx
      rcases List.mem_cons.mp hx with rfl | later
      · have out : x ∉ t :: others := List.not_mem_cons_of_ne_of_not_mem (Ne.symm ts) sOut
        rw [outside x out, atS]
      · exact sources x later
    · intro x hx
      obtain ⟨xt, xs, xOthers⟩ : x ≠ t ∧ x ≠ s ∧ x ∉ others := by
        simpa [not_or] using hx
      rw [outside x (List.not_mem_cons_of_ne_of_not_mem xt xOthers), elsewhere x xt xs]

/-- Groups that do not overlap. -/
structure Apart (groups : List (Nat × List Nat)) : Prop where
  nodup : ∀ e ∈ groups, e.2.Nodup
  disjoint : groups.Pairwise fun e e' => ∀ v ∈ e'.2, v ∉ e.2

theorem applyGroups_mergedBy (groups : List (Nat × List Nat)) (apart : Apart groups)
    (h : groups.foldlM applyGroup G = some G') : MergedBy groups G.member G'.member := by
  induction groups generalizing G with
  | nil =>
    cases h
    exact ⟨fun e he => absurd he List.not_mem_nil, fun e he => absurd he List.not_mem_nil,
      fun _ _ => rfl⟩
  | cons e groups ih =>
    obtain ⟨G₁, applied, rest⟩ := Option.bind_eq_some_iff.mp h
    obtain ⟨fromHead, disjoint⟩ := List.pairwise_cons.mp apart.disjoint
    have later : MergedBy groups G₁.member G'.member :=
      ih ⟨fun e' he' => apart.nodup e' (List.mem_cons_of_mem _ he'), disjoint⟩ rest
    have nodup := apart.nodup e List.mem_cons_self
    cases sources : e.2 with
    | nil =>
      rw [applyGroup, sources] at applied
      cases applied
    | cons t others =>
      rw [applyGroup, sources] at applied
      rw [sources] at nodup
      obtain ⟨target, emptied, outside⟩ := foldlM_absorb_member others nodup applied
      -- the later groups touch nothing of this one
      have kept : ∀ x ∈ e.2, G'.member x = G₁.member x := by
        intro x hx
        exact later.outside x fun e' he' hx' => fromHead e' he' x hx' hx
      have before : ∀ e' ∈ groups, ∀ x ∈ e'.2, G₁.member x = G.member x := by
        intro e' he' x hx
        apply outside
        rw [← sources]
        exact fromHead e' he' x hx
      refine ⟨?_, ?_, ?_⟩
      · intro e' he' x head
        rcases List.mem_cons.mp he' with rfl | other
        · rw [sources] at head kept ⊢
          cases head
          rw [kept t List.mem_cons_self, target]
        · rw [later.target e' other x head]
          exact List.flatMap_congr fun v hv => before e' other v hv
      · intro e' he' x hx head
        rcases List.mem_cons.mp he' with rfl | other
        · rw [kept x hx]
          rw [sources] at hx head
          rcases List.mem_cons.mp hx with rfl | source
          · exact absurd rfl head
          · exact emptied x source
        · exact later.source e' other x hx head
      · intro x out
        have here := out e List.mem_cons_self
        rw [sources] at here
        rw [later.outside x fun e' he' => out e' (List.mem_cons_of_mem _ he'), outside x here]

/-! ## Keys of the unmerged graph -/

/-- The graph before the merge: every valid super node has one member, and the names tell the
    members apart.  A name is an identifier of the source, so it has no `;`. -/
structure Unmerged (G : SuperGraph Op) (nodes : List Nat) (name : Nat → Bytes) : Prop where
  part : G.Partitioned nodes (· ∈ G.sortedSuper)
  conn : G.Connected (· ∈ G.sortedSuper)
  solo : ∀ s ∈ G.sortedSuper, G.superType s = .valid → ∃ m, G.member s = [m]
  names : ∀ a ∈ nodes, ∀ b ∈ nodes, name a = name b → a = b
  plain : ∀ a ∈ nodes, 0x3b ∉ name a

/-- The graph as another run has it: the sets are iterated in another order. -/
structure Again (G G' : SuperGraph Op) : Prop where
  dep : ∀ n m, G'.Dep n m ↔ G.Dep n m
  superType : G'.superType = G.superType
  member : G'.member = G.member
  super : G'.super = G.super
  sortedSuper : G'.sortedSuper.Perm G.sortedSuper
  prev : ∀ s, (G'.links.prev s).Perm (G.links.prev s)
  next : ∀ s, (G'.links.next s).Perm (G.links.next s)
  depPrev : ∀ s, (G'.links.depPrev s).Perm (G.links.depPrev s)
  depNext : ∀ s, (G'.links.depNext s).Perm (G.links.depNext s)

variable {nodes : List Nat} {name : Nat → Bytes}

theorem Again.same (again : G.Again G') : (G.records name).Same (G'.records name) where
  member := by
    unfold records
    rw [again.member]
  prev := again.prev
  next := again.next
  depPrev := again.depPrev
  depNext := again.depNext

theorem Again.fullKey (again : G.Again G') (s : Nat) :
    mtSeed2FullKeyOf (G'.records name) s = mtSeed2FullKeyOf (G.records name) s := by
  unfold mtSeed2FullKeyOf
  rw [again.same.seed2FullKeyOf]

theorem Again.part (again : G.Again G') (part : G.Partitioned nodes (· ∈ G.sortedSuper)) :
    G'.Partitioned nodes (· ∈ G'.sortedSuper) where
  closed n m dep := part.closed n m ((again.dep n m).mp dep)
  superAlive n hn := by
    rw [again.super]
    exact again.sortedSuper.mem_iff.mpr (part.superAlive n hn)
  member x hx n := by
    rw [again.member, again.super]
    exact part.member x (again.sortedSuper.mem_iff.mp hx) n
  memberNodup x hx := by
    rw [again.member]
    exact part.memberNodup x (again.sortedSuper.mem_iff.mp hx)
  sorted _ hx := hx
  dead _ hx out := absurd hx out
  nodup := again.sortedSuper.nodup_iff.mpr part.nodup

/-- The name of the only member ends at the first `;` of the key. -/
theorem takeWhile_fullKey {s m : Nat} (solo : G.member s = [m]) (plain : 0x3b ∉ name m) :
    ((G.records name).seed2FullKeyOf s).takeWhile (· != 0x3b) = name m := by
  have first : (G.records name).seed2KeyOf s = name m ++ [0x3b] := by
    simp [SuperRecords.seed2KeyOf, records, solo]
  have noSemicolon : ∀ b ∈ name m, (b != 0x3b) = true := by
    intro b hb
    exact bne_iff_ne.mpr fun eq => plain (eq ▸ hb)
  unfold SuperRecords.seed2FullKeyOf
  rw [first]
  simp only [List.append_assoc]
  rw [List.takeWhile_append_of_pos noSemicolon]
  exact List.append_nil _

theorem Unmerged.fullKey_inj (h : G.Unmerged nodes name) {a b : Nat} (ha : a ∈ G.sortedSuper)
    (hb : b ∈ G.sortedSuper) (validA : G.superType a = .valid) (validB : G.superType b = .valid)
    (eq : mtSeed2FullKeyOf (G.records name) a = mtSeed2FullKeyOf (G.records name) b) : a = b := by
  obtain ⟨m, memberA⟩ := h.solo a ha validA
  obtain ⟨n, memberB⟩ := h.solo b hb validB
  obtain ⟨hm, superM⟩ := (h.part.member a ha m).mp (memberA ▸ List.mem_singleton_self m)
  obtain ⟨hn, superN⟩ := (h.part.member b hb n).mp (memberB ▸ List.mem_singleton_self n)
  have namesEq : name m = name n := by
    rw [← takeWhile_fullKey memberA (h.plain m hm), ← takeWhile_fullKey memberB (h.plain n hn),
      List.tail_eq_of_cons_eq eq]
  rw [← superM, ← superN, h.names m hm n hn namesEq]

/-- The index leads back to the super node a key was taken from. -/
theorem Unmerged.byKey_fullKey (h : G.Unmerged nodes name) (again : G.Again G') {s : Nat}
    (hs : s ∈ G.sortedSuper) (valid : G.superType s = .valid) :
    G'.byKey name (mtSeed2FullKeyOf (G.records name) s) = some s := by
  unfold byKey
  have present : s ∈ G'.sortedSuper.filter fun super => G'.superType super = .valid := by
    rw [List.mem_filter, again.superType]
    exact ⟨again.sortedSuper.mem_iff.mpr hs, decide_eq_true valid⟩
  cases found : (G'.sortedSuper.filter fun super => G'.superType super = .valid).find?
      fun super => mtSeed2FullKeyOf (G'.records name) super =
        mtSeed2FullKeyOf (G.records name) s with
  | none =>
    have none := List.find?_eq_none.mp found s present
    rw [again.fullKey] at none
    exact absurd (decide_eq_true rfl) none
  | some x =>
    obtain ⟨hx, validX⟩ := List.mem_filter.mp (List.mem_of_find?_eq_some found)
    rw [again.superType] at validX
    have eq : mtSeed2FullKeyOf (G'.records name) x = mtSeed2FullKeyOf (G.records name) s := by
      have holds := List.find?_some found
      exact of_decide_eq_true holds
    rw [again.fullKey] at eq
    rw [h.fullKey_inj (again.sortedSuper.mem_iff.mp hx) hs (of_decide_eq_true validX) valid eq]

theorem Unmerged.mapM_byKey (h : G.Unmerged nodes name) (again : G.Again G') (sources : List Nat)
    (inGraph : ∀ s ∈ sources, s ∈ G.sortedSuper ∧ G.superType s = .valid) :
    (sources.map (mtSeed2FullKeyOf (G.records name))).mapM (G'.byKey name) = some sources := by
  induction sources with
  | nil => rfl
  | cons s sources ih =>
    obtain ⟨hs, valid⟩ := inGraph s List.mem_cons_self
    rw [List.map_cons, List.mapM_cons, h.byKey_fullKey again hs valid,
      ih fun x hx => inGraph x (List.mem_cons_of_mem _ hx)]
    rfl

/-! ## What the recording leaves in the tables -/

theorem intern_whenGroups (w : Seed2Writer) (key : Bytes) :
    (w.intern key).2.whenGroups = w.whenGroups := by
  unfold Seed2Writer.intern
  split
  · rfl
  · rfl

theorem internAll_whenGroups (ks : List Bytes) (w : Seed2Writer) :
    (w.internAll ks).2.whenGroups = w.whenGroups := by
  induction ks generalizing w with
  | nil => rfl
  | cons k ks ih => exact (ih _).trans (intern_whenGroups w k)

/-- A recorded group leads to its source keys. -/
def Leads (keys : List Bytes) (R : SuperRecords) (g : Seed2WhenGroup) (e : Nat × List Nat) : Prop :=
  g.sources.map (fun id => keys[id.toNat]?) = (e.2.map (mtSeed2FullKeyOf R)).map some

theorem mtSeed2RecordWhenGroup_ok (R : SuperRecords) {e : Nat × List Nat} (nonempty : e.2 ≠ [])
    {w : Seed2Writer} (ok : TableOk w) :
    ∃ w' g, mtSeed2RecordWhenGroup (mtSeed2FullKeyOf R e.1) (e.2.map (mtSeed2FullKeyOf R)) w =
        some w' ∧
      TableOk w' ∧ w.keys <+: w'.keys ∧ w'.whenGroups = w.whenGroups ++ [g] ∧
      (w'.keys.length < 2 ^ 32 → Leads w'.keys R g e) := by
  let cond := w.intern (mtSeed2FullKeyOf R e.1)
  let sources := cond.2.internAll (e.2.map (mtSeed2FullKeyOf R))
  let g : Seed2WhenGroup := { condKey := cond.1, sources := sources.1 }
  obtain ⟨tableOk, places⟩ := (ok.intern (mtSeed2FullKeyOf R e.1)).1.internAll
    (e.2.map (mtSeed2FullKeyOf R))
  have unchanged : sources.2.whenGroups = w.whenGroups :=
    (internAll_whenGroups _ _).trans (intern_whenGroups w _)
  refine ⟨{ sources.2 with whenGroups := sources.2.whenGroups ++ [g] }, g, ?_, tableOk, ?_, ?_,
    places⟩
  · unfold mtSeed2RecordWhenGroup
    rw [if_neg fun eq => nonempty (List.map_eq_nil_iff.mp eq)]
  · exact (intern_keys w _).trans (internAll_keys _ _)
  · rw [← unchanged]

theorem recordGroups_ok (R : SuperRecords) (groups : List (Nat × List Nat))
    (nonempty : ∀ e ∈ groups, e.2 ≠ []) {w : Seed2Writer} (ok : TableOk w) :
    ∃ w' gs, recordGroups R groups w = some w' ∧ TableOk w' ∧ w.keys <+: w'.keys ∧
      w'.whenGroups = w.whenGroups ++ gs ∧
      (w'.keys.length < 2 ^ 32 → List.Forall₂ (Leads w'.keys R) gs groups) := by
  induction groups generalizing w with
  | nil => exact ⟨w, [], rfl, ok, List.prefix_rfl, (List.append_nil _).symm, fun _ => .nil⟩
  | cons e groups ih =>
    obtain ⟨w₁, g, recorded, ok₁, grows₁, groups₁, leads₁⟩ :=
      mtSeed2RecordWhenGroup_ok R (nonempty e List.mem_cons_self) ok
    obtain ⟨w', gs, rest, ok', grows', groups', leads'⟩ :=
      ih (fun e' he' => nonempty e' (List.mem_cons_of_mem _ he')) ok₁
    refine ⟨w', g :: gs, ?_, ok', grows₁.trans grows', ?_, ?_⟩
    · unfold recordGroups at rest ⊢
      rw [List.foldlM_cons, recorded]
      exact rest
    · rw [groups', groups₁, List.append_assoc]
      rfl
    · intro small
      exact .cons (places_extend grows' (leads₁ (grows'.length_le.trans_lt small)))
        (leads' small)

/-! ## The replay -/

/-- A loop over the places of a list is one over the list. -/
theorem foldlM_range {α β : Type} {f : β → Nat → Option β} {g : β → α → Option β} (l : List α)
    (h : ∀ i a, l[i]? = some a → ∀ s, f s i = g s a) (s : β) :
    (List.range l.length).foldlM f s = l.foldlM g s := by
  induction l using List.reverseRecOn generalizing s with
  | nil => rfl
  | append_singleton l a ih =>
    have before : ∀ i x, l[i]? = some x → ∀ s, f s i = g s x := by
      intro i x hx
      exact h i x (getElem?_extend (List.prefix_append l [a]) hx)
    have last : ∀ s, f s l.length = g s a := h l.length a List.getElem?_concat_length
    rw [List.length_append, List.length_singleton, List.range_succ, List.foldlM_append,
      List.foldlM_append, ih before]
    simp only [List.foldlM_cons, List.foldlM_nil, last]

/-- The recorded groups, without their conditions. -/
def withoutCond (groups : List (Nat × List Nat)) : List (Nat × List Nat) :=
  groups.map fun e => (0, e.2)

theorem Unmerged.replayWhenGroups_eq (h : G.Unmerged nodes name) (again : G.Again G')
    {groups : List (Nat × List Nat)}
    (inGraph : ∀ e ∈ groups, ∀ s ∈ e.2, s ∈ G.sortedSuper ∧ G.superType s = .valid)
    {r : Seed2Reader} (leads : List.Forall₂ (Leads r.keys (G.records name)) r.whenGroups groups) :
    G'.replayWhenGroups name r = (withoutCond groups).foldlM applyGroup G' := by
  have lengths : r.whenGroups.length = (withoutCond groups).length := by
    rw [withoutCond, List.length_map, leads.length_eq]
  unfold replayWhenGroups
  rw [lengths]
  refine foldlM_range _ ?_ G'
  intro i a ha H
  unfold withoutCond at ha
  rw [List.getElem?_map] at ha
  obtain ⟨e, he, rfl⟩ := Option.map_eq_some_iff.mp ha
  obtain ⟨iGroups, eq⟩ := List.getElem?_eq_some_iff.mp he
  have iRecorded : i < r.whenGroups.length := leads.length_eq ▸ iGroups
  have here := leads.get iRecorded iGroups
  have keys : mtSeed2WhenGroupSourceKeys r i =
      some (e.2.map (mtSeed2FullKeyOf (G.records name))) := by
    unfold mtSeed2WhenGroupSourceKeys
    rw [List.getElem?_eq_getElem iRecorded, Option.bind_some]
    rw [List.get_eq_getElem, List.get_eq_getElem, eq] at here
    exact keysOfIds_eq here
  rw [keys, Option.bind_some,
    h.mapM_byKey again e.2 (inGraph e (List.mem_of_getElem? he)), Option.bind_some]

theorem Mergeable.apart {start : SuperGraph Op} {R : Nat → Nat → Prop} {alive : Nat → Prop}
    {groups : List (Nat × List Nat)} (ok : Mergeable start R alive groups) : Apart groups :=
  ⟨ok.nodup, ok.disjoint⟩

theorem mem_sources_iff {groups groups' : List (Nat × List Nat)}
    (perm : (groups.map Prod.snd).Perm (groups'.map Prod.snd)) (sources : List Nat) :
    (∃ c, (c, sources) ∈ groups) ↔ ∃ c, (c, sources) ∈ groups' := by
  have members : ∀ l : List (Nat × List Nat), (∃ c, (c, sources) ∈ l) ↔ sources ∈ l.map Prod.snd := by
    intro l
    simp
  rw [members, members, perm.mem_iff]

/-- **The replay of recorded groups is the merge.**  The groups the traversal decides on are
    recorded in any order and applied in any order; a run that reads the record on the same
    graph resolves every key, merges without a failing check, and leaves every super node with
    the same members in the same order. -/
theorem replayWhenGroups_eq_apply [WhenOp Op] (h : G.Unmerged nodes name) (again : G.Again G')
    (mode : Mode) (mergeWhenSize : Int) {recordOrder applyOrder : List (Nat × List Nat)}
    (recordPerm : recordOrder.Perm (Traversal.whenGroups G mode mergeWhenSize))
    (applyPerm : applyOrder.Perm (Traversal.whenGroups G mode mergeWhenSize))
    {env : Seed2Env} {w : Seed2Writer} (run : Recorded env w) (first : w.whenGroups = []) :
    ∃ w' merged, recordGroups (G.records name) recordOrder w = some w' ∧
      applyOrder.foldlM applyGroup G = some merged ∧
      ∀ r : Seed2Reader, w'.keys.length < 2 ^ 32 → w'.keys <+: r.keys →
        r.whenGroups = w'.whenGroups →
        ∃ replayed, G'.replayWhenGroups name r = some replayed ∧ replayed.member = merged.member := by
  obtain ⟨done, waiting, times, -, groupsOk, -⟩ :=
    Traversal.whenGroups_ok h.part h.conn mode mergeWhenSize
  let rank := ReadyFrontier.rank G.links.depPrev done G.order
  have ok : Mergeable G (fun v w => rank v = rank w) (· ∈ G.sortedSuper)
      (Traversal.whenGroups G mode mergeWhenSize) := mergeable_of_groupsOk groupsOk
  have recordOk : Mergeable G (fun v w => rank v = rank w) (· ∈ G.sortedSuper) recordOrder :=
    ok.reorder (recordPerm.map _) rfl fun _ hx => hx
  have applyOk : Mergeable G (fun v w => rank v = rank w) (· ∈ G.sortedSuper) applyOrder :=
    ok.reorder (applyPerm.map _) rfl fun _ hx => hx
  have sources : (withoutCond recordOrder).map Prod.snd = recordOrder.map Prod.snd := by
    rw [withoutCond, List.map_map]
    rfl
  have replayOk : Mergeable G' (fun v w => rank v = rank w) (· ∈ G'.sortedSuper)
      (withoutCond recordOrder) :=
    ok.reorder (sources ▸ recordPerm.map _) again.superType
      fun _ hx => again.sortedSuper.mem_iff.mpr hx
  obtain ⟨w', gs, recorded, -, -, groups, leads⟩ :=
    recordGroups_ok (G.records name) recordOrder recordOk.nonempty run.tableOk
  have start : Grouped (fun v w => rank v = rank w) G G nodes (· ∈ G.sortedSuper) id :=
    Grouped.refl (fun _ => rfl) h.part
  have start' : Grouped (fun v w => rank v = rank w) G' G' nodes (· ∈ G'.sortedSuper) id :=
    Grouped.refl (fun _ => rfl) (again.part h.part)
  obtain ⟨merged, _, _, applied, -⟩ := start.applyGroups _
    (fun _ _ _ first second => first.trans second) applyOk
  obtain ⟨replayed, _, _, replay, -⟩ := start'.applyGroups _
    (fun _ _ _ first second => first.trans second) replayOk
  refine ⟨w', merged, recorded, applied, ?_⟩
  intro r small table same
  rw [first, List.nil_append] at groups
  have read : List.Forall₂ (Leads r.keys (G.records name)) r.whenGroups recordOrder := by
    rw [same, groups]
    exact (leads small).imp fun g e here => places_extend table here
  refine ⟨replayed, ?_, ?_⟩
  · rw [h.replayWhenGroups_eq again
      (fun e he s hs => ⟨recordOk.alive e he s hs, recordOk.valid e he s hs⟩) read]
    exact replay
  · have direct := applyGroups_mergedBy applyOrder applyOk.apart applied
    have again_ := applyGroups_mergedBy _ replayOk.apart replay
    rw [again.member] at again_
    refine MergedBy.unique (mem_sources_iff ?_) again_ direct
    rw [sources]
    exact (recordPerm.trans applyPerm.symm).map _

/-! ### The guarded nodes of the diamond -/

def diamondName (n : Nat) : Bytes := [0x61, UInt8.ofNat n]

def diamondAgain : SuperGraph GuardOp := { diamond with sortedSuper := [3, 2, 1, 4, 0] }

theorem diamond_unmerged : diamond.Unmerged [0, 4, 1, 2, 3] diamondName where
  part := diamond_sweep.part
  conn := diamond_sweep.conn
  solo s _ _ := ⟨s, rfl⟩
  names := by decide
  plain := by decide

theorem diamond_again : diamond.Again diamondAgain where
  dep _ _ := Iff.rfl
  superType := rfl
  member := rfl
  super := rfl
  sortedSuper := by decide
  prev _ := List.Perm.refl _
  next _ := List.Perm.refl _
  depPrev _ := List.Perm.refl _
  depNext _ := List.Perm.refl _

/-- `1` and `2` end up in one super node, also when the group is read back. -/
theorem replayWhenGroups_diamond :
    ∃ w' merged,
      recordGroups (diamond.records diamondName) [(0, [1, 2])] .empty = some w' ∧
      [(0, [1, 2])].foldlM applyGroup diamond = some merged ∧ merged.member 1 = [1, 2] ∧
      ∃ replayed, diamondAgain.replayWhenGroups diamondName ⟨0, w'.keys, [], w'.whenGroups⟩ =
        some replayed ∧ replayed.member = merged.member := by
  have groups : Traversal.whenGroups diamond .byId 1 = [(0, [1, 2])] := by decide +kernel
  have perm : [(0, [1, 2])].Perm (Traversal.whenGroups diamond .byId 1) :=
    groups ▸ List.Perm.refl _
  obtain ⟨w', merged, recorded, applied, replays⟩ :=
    replayWhenGroups_eq_apply diamond_unmerged diamond_again .byId 1 perm perm
      (.empty : Recorded sampleEnv .empty) rfl
  have member : ([(0, [1, 2])].foldlM applyGroup diamond).map (fun G => G.member 1) =
      some [1, 2] := by decide +kernel
  have keys : (recordGroups (diamond.records diamondName) [(0, [1, 2])] .empty).map
      (fun w => w.keys.length) = some 3 := by decide +kernel
  rw [applied] at member
  rw [recorded] at keys
  have three : w'.keys.length = 3 := Option.some.inj keys
  have small : w'.keys.length < 2 ^ 32 := by
    rw [three]
    decide
  exact ⟨w', merged, recorded, applied, Option.some.inj member,
    replays ⟨0, w'.keys, [], w'.whenGroups⟩ small List.prefix_rfl rfl⟩

end SuperGraph

end Gsim.MergeNodes
