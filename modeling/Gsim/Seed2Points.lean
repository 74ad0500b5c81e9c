/-
  Gsim/Seed2Points.lean
  =====================
  **Order points of a seed** (`mtSeed2RecordPoint` and `mtSeed2ApplyPoint` of
  `seedOrder2.cpp`).

  A super node is known by the names of its members, or, where several have the same, by
  its full record: the names together with those of its neighbours.  A point stores the
  keys in the order of the super nodes; replaying it takes, key by key, the super nodes
  of the run out of an index.  The end points of a super node are sets of pointers, so
  they may come in another order when the seed is replayed (`SuperRecords.Same`).
-/
import Gsim.Seed2RoundTrip

namespace Gsim.Seed2

open Gsim.ByteStream

/-! ## Keys -/

/-- What the keys are made of: the member names and the end points of super nodes. -/
structure SuperRecords where
  member : Nat → List Bytes
  prev : Nat → List Nat
  next : Nat → List Nat
  depPrev : Nat → List Nat
  depNext : Nat → List Nat

/-- The order of `std::string`. -/
def bytesLe (a b : Bytes) : Prop := a.map UInt8.toNat ≤ b.map UInt8.toNat

instance : DecidableRel bytesLe := fun a b =>
  inferInstanceAs (Decidable (a.map UInt8.toNat ≤ b.map UInt8.toNat))

instance : Std.Total bytesLe := ⟨fun _ _ => le_total _ _⟩

instance : IsTrans Bytes bytesLe := ⟨fun _ _ _ => le_trans⟩

theorem bytesLe_antisymm {a b : Bytes} (hab : bytesLe a b) (hba : bytesLe b a) : a = b := by
  have inj : Function.Injective UInt8.toNat := fun x y => UInt8.toNat_inj.mp
  exact (List.map_injective_iff.mpr inj) (le_antisymm hab hba)

/-- Sorting forgets the order of what is sorted. -/
theorem insertionSort_congr {a b : List Bytes} (h : a.Perm b) :
    a.insertionSort bytesLe = b.insertionSort bytesLe := by
  refine List.Perm.eq_of_pairwise (fun x y _ _ => bytesLe_antisymm) (List.pairwise_insertionSort _ _)
    (List.pairwise_insertionSort _ _) ?_
  exact ((List.perm_insertionSort _ _).trans h).trans (List.perm_insertionSort _ _).symm

namespace SuperRecords

variable (R : SuperRecords)

/-- Every member name, followed by `;`. -/
def seed2KeyOf (super : Nat) : Bytes := (R.member super).flatMap fun name => name ++ [0x3b]

/-- The sorted keys of end points, each followed by `,`. -/
def sortedEnds (ends : List Nat) : Bytes :=
  ((ends.map R.seed2KeyOf).insertionSort bytesLe).flatMap fun key => key ++ [0x2c]

/-- The parts are separated by `|`. -/
def seed2FullKeyOf (super : Nat) : Bytes :=
  R.seed2KeyOf super ++ [0x7c] ++ R.sortedEnds (R.prev super) ++ [0x7c] ++
    R.sortedEnds (R.next super) ++ [0x7c] ++ R.sortedEnds (R.depPrev super) ++ [0x7c] ++
    R.sortedEnds (R.depNext super)

/-- How many super nodes have the key. -/
def seed2CountKeys (supers : List Nat) (key : Bytes) : Nat := (supers.map R.seed2KeyOf).count key

def seed2NodeKey (dupCounts : Bytes → Nat) (super : Nat) : Bytes :=
  if 1 < dupCounts (R.seed2KeyOf super) then 0x01 :: R.seed2FullKeyOf super
  else R.seed2KeyOf super

/-- The keys of a list of super nodes, as both sides compute them. -/
def nodeKeys (supers : List Nat) : List Bytes :=
  supers.map (R.seed2NodeKey (R.seed2CountKeys supers))

/-- `mtSeed2RecordPoint`. -/
def recordPoint (env : Seed2Env) (tag : Bytes) (sortedSuper : List Nat) (canonHash : UInt64)
    (w : Seed2Writer) : Option Seed2Writer :=
  mtSeed2RecordPoint env tag (R.nodeKeys sortedSuper) canonHash w

end SuperRecords

/-! ## Taking super nodes out by key -/

section Index

variable {α κ : Type} [DecidableEq κ]

/-- `firstByKey` and `extraByKey`. -/
structure KeyIndex (κ α : Type) where
  firstByKey : κ → Option α
  extraByKey : κ → List α

namespace KeyIndex

def empty : KeyIndex κ α := ⟨fun _ => none, fun _ => []⟩

/-- `firstByKey.emplace`, and the queue of the key if there is one already. -/
def add (key : α → κ) (I : KeyIndex κ α) (x : α) : KeyIndex κ α :=
  match I.firstByKey (key x) with
  | none => { I with firstByKey := Function.update I.firstByKey (key x) (some x) }
  | some _ => { I with extraByKey := Function.update I.extraByKey (key x) (I.extraByKey (key x) ++ [x]) }

/-- The first of a key, else the front of its queue. -/
def take (I : KeyIndex κ α) (k : κ) : Option (α × KeyIndex κ α) :=
  match I.firstByKey k with
  | some x => some (x, { I with firstByKey := Function.update I.firstByKey k none })
  | none =>
    match I.extraByKey k with
    | [] => none
    | x :: xs => some (x, { I with extraByKey := Function.update I.extraByKey k xs })

def takeAll (I : KeyIndex κ α) : List κ → Option (List α)
  | [] => some []
  | k :: ks => do
    let (x, I) ← I.take k
    let xs ← I.takeAll ks
    some (x :: xs)

/-- What there is of a key, in the order in which it will be taken. -/
def pool (I : KeyIndex κ α) (k : κ) : List α := (I.firstByKey k).toList ++ I.extraByKey k

theorem pool_add (key : α → κ) {I : KeyIndex κ α}
    (queued : ∀ k, I.firstByKey k = none → I.extraByKey k = []) (x : α) :
    (∀ k, (I.add key x).firstByKey k = none → (I.add key x).extraByKey k = []) ∧
      ∀ k, (I.add key x).pool k = I.pool k ++ if key x = k then [x] else [] := by
  unfold add pool
  cases first : I.firstByKey (key x) with
  | none =>
    dsimp only
    refine ⟨fun k none_ => ?_, fun k => ?_⟩
    · by_cases eq : k = key x
      · rw [eq, Function.update_self] at none_
        cases none_
      · rw [Function.update_of_ne eq] at none_
        exact queued k none_
    · by_cases eq : key x = k
      · subst eq
        rw [Function.update_self, if_pos rfl, first, queued _ first]
        rfl
      · rw [Function.update_of_ne (Ne.symm eq), if_neg eq, List.append_nil]
  | some y =>
    dsimp only
    refine ⟨fun k none_ => ?_, fun k => ?_⟩
    · have ne : k ≠ key x := by
        rintro rfl
        rw [first] at none_
        cases none_
      rw [Function.update_of_ne ne]
      exact queued k none_
    · by_cases eq : key x = k
      · subst eq
        rw [Function.update_self, if_pos rfl, List.append_assoc]
      · rw [Function.update_of_ne (Ne.symm eq), if_neg eq, List.append_nil]

/-- The index keeps the elements of a key in order. -/
theorem pool_build (key : α → κ) (xs : List α) (k : κ) :
    (xs.foldl (add key) (empty : KeyIndex κ α)).pool k = xs.filter fun x => key x = k := by
  have build : ∀ (xs : List α) (I : KeyIndex κ α),
      (∀ k, I.firstByKey k = none → I.extraByKey k = []) →
      ∀ k, (xs.foldl (add key) I).pool k = I.pool k ++ xs.filter fun x => key x = k := by
    intro xs
    induction xs with
    | nil => exact fun I _ k => (List.append_nil _).symm
    | cons x xs ih =>
      intro I queued k
      obtain ⟨queued', pool⟩ := pool_add key queued x
      rw [List.foldl_cons, ih _ queued' k, pool k, List.append_assoc, List.filter_cons]
      by_cases eq : key x = k <;> simp [eq]
  exact build xs empty (fun _ _ => rfl) k

theorem take_eq {I : KeyIndex κ α} {k : κ} {x : α} {rest : List α} (h : I.pool k = x :: rest) :
    ∃ I', I.take k = some (x, I') ∧ I'.pool k = rest ∧ ∀ k', k' ≠ k → I'.pool k' = I.pool k' := by
  unfold take
  unfold pool at h
  cases first : I.firstByKey k with
  | some y =>
    rw [first] at h
    obtain ⟨rfl, rfl⟩ := List.cons.inj h
    refine ⟨_, rfl, ?_, fun k' ne => ?_⟩
    · simp [pool]
    · simp [pool, ne]
  | none =>
    rw [first] at h
    have extra : I.extraByKey k = x :: rest := h
    rw [extra]
    refine ⟨_, rfl, ?_, fun k' ne => ?_⟩
    · simp [pool, first]
    · simp [pool, ne]

/-- Taking a list of keys gives elements with these keys, and of each key the first ones. -/
theorem takeAll_eq (key : α → κ) (ks : List κ) {I : KeyIndex κ α}
    (keyed : ∀ k, ∀ x ∈ I.pool k, key x = k) (enough : ∀ k, ks.count k ≤ (I.pool k).length) :
    ∃ xs, I.takeAll ks = some xs ∧ xs.map key = ks ∧
      ∀ k, xs.filter (fun x => key x = k) = (I.pool k).take (ks.count k) := by
  induction ks generalizing I with
  | nil => exact ⟨[], rfl, rfl, fun k => by simp⟩
  | cons k ks ih =>
    obtain ⟨x, rest, pool⟩ : ∃ x rest, I.pool k = x :: rest := by
      refine List.exists_cons_of_length_pos ?_
      have := enough k
      rw [List.count_cons_self] at this
      omega
    obtain ⟨I', taken, here, elsewhere⟩ := take_eq pool
    have keyX : key x = k := keyed k x (pool ▸ List.mem_cons_self)
    obtain ⟨xs, taken', keys, pools⟩ := ih (I := I')
      (fun k' y hy => by
        by_cases eq : k' = k
        · subst eq
          rw [here] at hy
          exact keyed k' y (pool ▸ List.mem_cons_of_mem _ hy)
        · rw [elsewhere k' eq] at hy
          exact keyed k' y hy)
      (fun k' => by
        have := enough k'
        by_cases eq : k' = k
        · subst eq
          rw [List.count_cons_self, pool, List.length_cons] at this
          rw [here]
          omega
        · rw [List.count_cons_of_ne (Ne.symm eq)] at this
          rwa [elsewhere k' eq])
    refine ⟨x :: xs, ?_, ?_, fun k' => ?_⟩
    · simp [takeAll, taken, taken']
    · rw [List.map_cons, keyX, keys]
    · by_cases eq : k' = k
      · subst eq
        rw [List.filter_cons_of_pos (by simpa using keyX), pools k', here, pool,
          List.count_cons_self, List.take_succ_cons]
      · rw [List.filter_cons_of_neg (by simpa [keyX] using Ne.symm eq), pools k', elsewhere k' eq,
          List.count_cons_of_ne (Ne.symm eq)]

/-- Taking the keys of a list in another order gives the list in another order. -/
theorem takeAll_build [DecidableEq α] (key : α → κ) (xs : List α) {ks : List κ}
    (perm : ks.Perm (xs.map key)) :
    ∃ ys, (xs.foldl (add key) (empty : KeyIndex κ α)).takeAll ks = some ys ∧ ys.map key = ks ∧
      ys.Perm xs := by
  have count : ∀ k, ks.count k = (xs.filter fun x => key x = k).length := by
    intro k
    rw [perm.count_eq, List.count_eq_countP, List.countP_map, List.countP_eq_length_filter]
    rfl
  obtain ⟨ys, taken, keys, pools⟩ := takeAll_eq key ks
    (I := xs.foldl (add key) (empty : KeyIndex κ α))
    (fun k x hx => by
      rw [pool_build] at hx
      simpa using (List.mem_filter.mp hx).2)
    (fun k => by rw [pool_build, count k])
  refine ⟨ys, taken, keys, List.perm_iff_count.mpr fun x => ?_⟩
  have same := pools (key x)
  rw [pool_build, count, List.take_length] at same
  have own : ∀ l : List α, l.count x = (l.filter fun y => key y = key x).count x := by
    intro l
    rw [List.count_filter (by simp)]
  rw [own ys, own xs, same]

end KeyIndex

end Index

/-! ## The table of keys -/

/-- An id leads back to the key it was given for. -/
def InternedIn (w : Seed2Writer) (keys : List Bytes) : Prop :=
  ∀ k id, w.idByKey k = some id → keys[id.toNat]? = some k

/-- As long as the ids fit into 32 bits. -/
def TableOk (w : Seed2Writer) : Prop := w.keys.length < 2 ^ 32 → InternedIn w w.keys

theorem intern_keys (w : Seed2Writer) (key : Bytes) : w.keys <+: (w.intern key).2.keys := by
  unfold Seed2Writer.intern
  split
  · exact List.prefix_rfl
  · exact List.prefix_append _ _

theorem TableOk.intern {w : Seed2Writer} (h : TableOk w) (key : Bytes) :
    TableOk (w.intern key).2 ∧ ((w.intern key).2.keys.length < 2 ^ 32 →
      (w.intern key).2.keys[(w.intern key).1.toNat]? = some key) := by
  unfold Seed2Writer.intern
  cases found : w.idByKey key with
  | some id => exact ⟨h, fun small => h small key id found⟩
  | none =>
    dsimp only
    have place : (w.keys ++ [key]).length < 2 ^ 32 →
        (w.keys ++ [key])[(UInt32.ofNat w.keys.length).toNat]? = some key := by
      intro small
      rw [List.length_append] at small
      rw [UInt32.toNat_ofNat', Nat.mod_eq_of_lt (by omega), List.getElem?_concat_length]
    refine ⟨fun small k id hk => ?_, place⟩
    simp only at hk
    split at hk
    · rename_i eq
      cases hk
      rw [eq]
      exact place small
    · have old := h (by rw [List.length_append] at small; omega) k id hk
      rw [List.getElem?_append_left (List.getElem?_eq_some_iff.mp old).1]
      exact old

theorem internAll_keys (ks : List Bytes) (w : Seed2Writer) : w.keys <+: (w.internAll ks).2.keys := by
  induction ks generalizing w with
  | nil => exact List.prefix_rfl
  | cons k ks ih => exact (intern_keys w k).trans (ih _)

theorem getElem?_extend {α : Type} {a b : List α} (h : a <+: b) {i : Nat} {x : α}
    (at_ : a[i]? = some x) : b[i]? = some x := by
  obtain ⟨rest, rfl⟩ := h
  rw [List.getElem?_append_left (List.getElem?_eq_some_iff.mp at_).1]
  exact at_

theorem TableOk.internAll (ks : List Bytes) {w : Seed2Writer} (h : TableOk w) :
    TableOk (w.internAll ks).2 ∧ ((w.internAll ks).2.keys.length < 2 ^ 32 →
      (w.internAll ks).1.map (fun id => (w.internAll ks).2.keys[id.toNat]?) = ks.map some) := by
  induction ks generalizing w with
  | nil => exact ⟨h, fun _ => rfl⟩
  | cons k ks ih =>
    obtain ⟨ok, place⟩ := h.intern k
    obtain ⟨ok', places⟩ := ih ok
    refine ⟨ok', fun small => ?_⟩
    have grows := internAll_keys ks (w.intern k).2
    have first := getElem?_extend grows (place (grows.length_le.trans_lt small))
    exact List.cons_eq_cons.mpr ⟨first, places small⟩

/-- What ids stand for stays when keys are added. -/
theorem places_extend {keys keys' : List Bytes} (h : keys <+: keys') {ids : List UInt32}
    {ks : List Bytes} (places : ids.map (fun id => keys[id.toNat]?) = ks.map some) :
    ids.map (fun id => keys'[id.toNat]?) = ks.map some := by
  refine Eq.trans (List.map_congr_left fun id hid => ?_) places
  have inTable : keys[id.toNat]? ∈ ks.map some := places ▸ List.mem_map_of_mem hid
  obtain ⟨k, -, hk⟩ := List.mem_map.mp inTable
  rw [← hk]
  exact getElem?_extend h hk.symm

theorem Recorded.tableOk {env : Seed2Env} {w : Seed2Writer} (run : Recorded env w) : TableOk w := by
  induction run with
  | empty => exact fun _ k id h => by cases h
  | setInputHash h _ step ok =>
    unfold mtSeed2SetInputHash at step
    split at step
    · cases step
    · cases step
      exact ok
  | recordPoint tag sortedSuper canonHash _ step ok =>
    obtain ⟨algo, -, eq⟩ := Option.bind_eq_some_iff.mp step
    cases eq
    exact (ok.internAll sortedSuper).1
  | recordWhenGroup cond sources _ step ok =>
    unfold mtSeed2RecordWhenGroup at step
    split at step
    · cases step
    · cases step
      exact ((ok.intern cond).1.internAll sources).1

/-! ## Replaying a point -/

/-- The keys of a point, looked up in the table; `none` is an id outside of it. -/
def keysOfIds (keys : List Bytes) (ids : List UInt32) : Option (List Bytes) :=
  ids.mapM fun id => keys[id.toNat]?

/-- `mtSeed2ApplyPoint`: the order and the new cursor. -/
def SuperRecords.mtSeed2ApplyPoint (R : SuperRecords) (r : Seed2Reader) (cursor : Nat)
    (verifyCanon : Bool) (tag : Bytes) (sortedSuper : List Nat) (currentCanonHash : UInt64) :
    Option (List Nat × Nat) := do
  let p ← r.points[cursor]?
  if p.tag = tag ∧ (verifyCanon = true → p.canonHash = currentCanonHash) ∧
      p.nameIds.length = sortedSuper.length then
    let key := R.seed2NodeKey (R.seed2CountKeys sortedSuper)
    let index : KeyIndex Bytes Nat := sortedSuper.foldl (KeyIndex.add key) KeyIndex.empty
    let keys ← keysOfIds r.keys p.nameIds
    let forced ← index.takeAll keys
    some (forced, cursor + 1)
  else none

/-- The same super nodes; their end points may be iterated in another order. -/
structure SuperRecords.Same (R R' : SuperRecords) : Prop where
  member : R'.member = R.member
  prev : ∀ s, (R'.prev s).Perm (R.prev s)
  next : ∀ s, (R'.next s).Perm (R.next s)
  depPrev : ∀ s, (R'.depPrev s).Perm (R.depPrev s)
  depNext : ∀ s, (R'.depNext s).Perm (R.depNext s)

namespace SuperRecords.Same

variable {R R' : SuperRecords} (same : R.Same R')
include same

theorem seed2KeyOf : R'.seed2KeyOf = R.seed2KeyOf := by
  unfold SuperRecords.seed2KeyOf
  rw [same.member]

theorem sortedEnds {ends ends' : List Nat} (h : ends'.Perm ends) :
    R'.sortedEnds ends' = R.sortedEnds ends := by
  unfold SuperRecords.sortedEnds
  rw [same.seed2KeyOf, insertionSort_congr (h.map _)]

theorem seed2FullKeyOf : R'.seed2FullKeyOf = R.seed2FullKeyOf := by
  funext s
  unfold SuperRecords.seed2FullKeyOf
  rw [same.seed2KeyOf, same.sortedEnds (same.prev s), same.sortedEnds (same.next s),
    same.sortedEnds (same.depPrev s), same.sortedEnds (same.depNext s)]

/-- Both sides give a super node the same key. -/
theorem seed2NodeKey {supers supers' : List Nat} (h : supers'.Perm supers) :
    R'.seed2NodeKey (R'.seed2CountKeys supers') = R.seed2NodeKey (R.seed2CountKeys supers) := by
  funext s
  unfold SuperRecords.seed2NodeKey seed2CountKeys
  rw [same.seed2KeyOf, same.seed2FullKeyOf, (h.map _).count_eq]

end SuperRecords.Same

theorem keysOfIds_eq {keys : List Bytes} {ids : List UInt32} {ks : List Bytes}
    (h : ids.map (fun id => keys[id.toNat]?) = ks.map some) : keysOfIds keys ids = some ks := by
  induction ids generalizing ks with
  | nil =>
    cases ks with
    | nil => rfl
    | cons k ks => cases h
  | cons id ids ih =>
    cases ks with
    | nil => cases h
    | cons k ks =>
      obtain ⟨first, rest⟩ := List.cons_eq_cons.mp h
      simp only [keysOfIds] at ih ⊢
      simp [List.mapM_cons, first, ih rest]

/-- No member name starts with the byte that marks full records. -/
def SuperRecords.PlainNames (R : SuperRecords) (supers : List Nat) : Prop :=
  ∀ s ∈ supers, ∀ name ∈ R.member s, name.head? ≠ some 0x01

theorem SuperRecords.PlainNames.key_ne {R : SuperRecords} {supers : List Nat}
    (plain : R.PlainNames supers) {s : Nat} (hs : s ∈ supers) (rest : Bytes) :
    R.seed2KeyOf s ≠ 0x01 :: rest := by
  intro eq
  unfold SuperRecords.seed2KeyOf at eq
  cases names : R.member s with
  | nil =>
    rw [names] at eq
    cases eq
  | cons name others =>
    have first := plain s hs name (names ▸ List.mem_cons_self)
    rw [names, List.flatMap_cons] at eq
    cases name with
    | nil =>
      have head := List.head_eq_of_cons_eq eq
      exact absurd head (by decide)
    | cons b bs =>
      have head : b = 0x01 := List.head_eq_of_cons_eq eq
      exact first (by rw [head]; rfl)

/-- Super nodes of one list with the same key have the same full record. -/
theorem SuperRecords.PlainNames.fullKey_eq {R : SuperRecords} {supers : List Nat}
    (plain : R.PlainNames supers) {a b : Nat} (ha : a ∈ supers) (hb : b ∈ supers)
    (h : R.seed2NodeKey (R.seed2CountKeys supers) a = R.seed2NodeKey (R.seed2CountKeys supers) b) :
    R.seed2FullKeyOf a = R.seed2FullKeyOf b := by
  unfold SuperRecords.seed2NodeKey at h
  split at h
  · split at h
    · exact List.tail_eq_of_cons_eq h
    · exact absurd h.symm (plain.key_ne hb _)
  · split at h
    · exact absurd h (plain.key_ne ha _)
    · -- the name key occurs once, so it is the same super node
      rename_i once _
      have eq : a = b := by
        by_contra ne
        refine once ?_
        have sub : [a, b].Subperm supers := by
          refine List.Nodup.subperm (by simp [ne]) ?_
          simp [ha, hb]
        have two := sub.countP_le fun s => R.seed2KeyOf s == R.seed2KeyOf a
        rw [seed2CountKeys, List.count_eq_countP, List.countP_map]
        refine lt_of_lt_of_le ?_ two
        simp [h]
      rw [eq]

theorem forall₂_of_map_eq {α β : Type} {f : α → β} {xs ys : List α} (h : xs.map f = ys.map f) :
    List.Forall₂ (fun a b => f a = f b) xs ys := by
  induction xs generalizing ys with
  | nil =>
    cases ys with
    | nil => exact .nil
    | cons y ys => cases h
  | cons x xs ih =>
    cases ys with
    | nil => cases h
    | cons y ys =>
      obtain ⟨first, rest⟩ := List.cons_eq_cons.mp h
      exact .cons first (ih rest)

/-- **A point is replayed exactly.**  Whatever was recorded before and after: on the same
    super nodes in any order, no check fails, every super node comes out once, and the keys
    come out as recorded; so the order is the recorded one up to super nodes with the same
    full record. -/
theorem mtSeed2ApplyPoint_replays {env : Seed2Env} {w w' : Seed2Writer} (run : Recorded env w)
    {R R' : SuperRecords} (same : R.Same R') {recorded presented : List Nat}
    (perm : presented.Perm recorded) (plain : R.PlainNames recorded) {tag : Bytes}
    {canonHash : UInt64} (record : R.recordPoint env tag recorded canonHash w = some w')
    (small : w'.keys.length < 2 ^ 32) {r : Seed2Reader} {cursor : Nat} (table : w'.keys <+: r.keys)
    (point : r.points[cursor]? = w'.points.getLast?) (verifyCanon : Bool) :
    ∃ forced, R'.mtSeed2ApplyPoint r cursor verifyCanon tag presented canonHash =
        some (forced, cursor + 1) ∧
      forced.Perm presented ∧ R'.nodeKeys forced = R.nodeKeys recorded ∧
      List.Forall₂ (fun a b => R.seed2FullKeyOf a = R.seed2FullKeyOf b) forced recorded := by
  obtain ⟨algo, -, eq⟩ := Option.bind_eq_some_iff.mp record
  cases eq
  obtain ⟨-, places⟩ := run.tableOk.internAll (R.nodeKeys recorded)
  have ids := places small
  rw [List.getLast?_concat] at point
  have key := same.seed2NodeKey perm
  have found : keysOfIds r.keys (w.internAll (R.nodeKeys recorded)).1 =
      some (R.nodeKeys recorded) := keysOfIds_eq (places_extend table ids)
  have length : (w.internAll (R.nodeKeys recorded)).1.length = presented.length := by
    have := congrArg List.length ids
    rw [List.length_map, List.length_map] at this
    rw [this, SuperRecords.nodeKeys, List.length_map, perm.length_eq]
  have requests : (R.nodeKeys recorded).Perm
      (presented.map (R.seed2NodeKey (R.seed2CountKeys recorded))) := perm.symm.map _
  obtain ⟨forced, taken, keys, forcedPerm⟩ := KeyIndex.takeAll_build _ presented requests
  refine ⟨forced, ?_, forcedPerm, ?_, ?_⟩
  · unfold SuperRecords.mtSeed2ApplyPoint
    rw [point]
    simp only [Option.bind_eq_bind, Option.bind_some, length, and_self, implies_true, if_true, key,
      found]
    rw [taken]
    rfl
  · rw [SuperRecords.nodeKeys, same.seed2NodeKey (forcedPerm.trans perm)]
    exact keys
  · obtain ⟨lengths, pairs⟩ := List.forall₂_iff_zip.mp (forall₂_of_map_eq keys)
    refine List.forall₂_iff_zip.mpr ⟨lengths, fun {a b} mem => ?_⟩
    obtain ⟨ha, hb⟩ := List.of_mem_zip mem
    exact plain.fullKey_eq ((forcedPerm.trans perm).mem_iff.mp ha) hb (pairs mem)

/-! ### A list with shells -/

/-- A named super node that feeds one shell, and a second shell without neighbours. -/
def shellRecords : SuperRecords where
  member s := if s = 0 then [asBytes "a"] else []
  prev s := if s = 1 then [0] else []
  next s := if s = 0 then [1] else []
  depPrev _ := []
  depNext _ := []

theorem shellRecords_same : shellRecords.Same shellRecords :=
  ⟨rfl, fun _ => .refl _, fun _ => .refl _, fun _ => .refl _, fun _ => .refl _⟩

/-- The writer after one point. -/
def shellWriter : Seed2Writer :=
  ((shellRecords.recordPoint sampleEnv (asBytes "t") [2, 0, 1] 5 .empty).getD .empty)

theorem shellRecords_recorded : Recorded sampleEnv .empty := .empty

theorem shell_perm : [0, 1, 2].Perm [2, 0, 1] := by decide

theorem shellRecords_plain : shellRecords.PlainNames [2, 0, 1] := by
  unfold SuperRecords.PlainNames
  decide

theorem shellWriter_eq :
    shellRecords.recordPoint sampleEnv (asBytes "t") [2, 0, 1] 5 .empty = some shellWriter := rfl

theorem mtSeed2ApplyPoint_replays_shells :
    shellRecords.mtSeed2ApplyPoint ⟨0, shellWriter.keys, shellWriter.points, []⟩ 0 true
        (asBytes "t") [0, 1, 2] 5 = some ([2, 0, 1], 1) ∧
      ∃ forced, shellRecords.mtSeed2ApplyPoint ⟨0, shellWriter.keys, shellWriter.points, []⟩ 0 true
          (asBytes "t") [0, 1, 2] 5 = some (forced, 1) ∧ forced.Perm [0, 1, 2] ∧
        shellRecords.nodeKeys forced = shellRecords.nodeKeys [2, 0, 1] ∧
        List.Forall₂ (fun a b => shellRecords.seed2FullKeyOf a = shellRecords.seed2FullKeyOf b)
          forced [2, 0, 1] :=
  ⟨by decide, mtSeed2ApplyPoint_replays shellRecords_recorded shellRecords_same shell_perm
    shellRecords_plain shellWriter_eq (by decide) List.prefix_rfl rfl true⟩

end Gsim.Seed2
