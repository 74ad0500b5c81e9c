/-
  Gsim/Seed2Replay.lean
  =====================
  **Replaying a whole run from its seed** (`seedOrder2.cpp`, as `topoSort.cpp`,
  `mergeNodes.cpp`, `graphPartition.cpp` and `main.cpp` call it).

  A compilation meets its order points one after the other, and what it presents at a
  point depends on the orders that it got at the points before.  A run that records keeps
  its own orders; a run that replays takes those of the file.  It need not present the
  super nodes in the same order, nor iterate their end points in the same order: as long
  as the orders agree so far, it presents the same super nodes.

  Each point makes the assumption of the next one true, so the replay goes through: no
  check fails, the orders agree at every point, and the run ends where the recorded one
  did, with the whole seed used up (`replay_follows`).
-/
import Gsim.WhenReplay

namespace Gsim.Seed2

open Gsim.ByteStream
open Gsim.MergeNodes (mtSeed2WhenGroupSourceKeys)

/-! ## Two kinds of runs -/

/-- What `mtSeed2RecordPoint` or `mtSeed2ApplyPoint` is called with. -/
structure OrderPoint where
  tag : Bytes
  records : SuperRecords
  sortedSuper : List Nat
  canonHash : UInt64

/-- The passes of a run between its order points.  They see the orders that the run has after
    the points so far. -/
structure Compilation where
  inputHash : UInt64
  /-- the groups that are merged before the next point, as keys of a condition and of sources -/
  groups : List (List Nat) → List (Bytes × List Bytes)
  /-- the next point, or the end of the run -/
  next : List (List Nat) → Option OrderPoint

/-- The state of a run with `GSIM_SEED2_WRITE`. -/
structure Recording where
  writer : Seed2Writer
  points : List OrderPoint
  groups : List (Bytes × List Bytes)

def Recording.orders (s : Recording) : List (List Nat) := s.points.map OrderPoint.sortedSuper

/-- The state of a run with `GSIM_SEED2`. -/
structure Replay where
  cursor : Nat
  orders : List (List Nat)

def mtSeed2VerifyInputHash (r : Seed2Reader) (computedInputHash : UInt64) : Option Unit :=
  if r.inputHash = computedInputHash then some () else none

namespace Compilation

variable (C : Compilation)

def recordStart : Option Recording := do
  let w ← mtSeed2SetInputHash C.inputHash .empty
  some ⟨w, [], []⟩

/-- On to the next point, which is recorded. -/
def recordStep (env : Seed2Env) (s : Recording) : Option Recording := do
  let p ← C.next s.orders
  let w ← (C.groups s.orders).foldlM (fun w group => mtSeed2RecordWhenGroup group.1 group.2 w) s.writer
  let w ← p.records.recordPoint env p.tag p.sortedSuper p.canonHash w
  some ⟨w, s.points ++ [p], s.groups ++ C.groups s.orders⟩

/-- The run up to its `k`-th point. -/
def recordRun (env : Seed2Env) : Nat → Option Recording
  | 0 => C.recordStart
  | k + 1 => (recordRun env k).bind (C.recordStep env)

def replayStart (r : Seed2Reader) : Option Replay := do
  mtSeed2VerifyInputHash r C.inputHash
  some ⟨0, []⟩

/-- On to the next point, whose order is replaced by that of the seed. -/
def replayStep (r : Seed2Reader) (verifyCanon : Bool) (t : Replay) : Option Replay := do
  let p ← C.next t.orders
  let (forced, cursor) ←
    p.records.mtSeed2ApplyPoint r t.cursor verifyCanon p.tag p.sortedSuper p.canonHash
  some ⟨cursor, t.orders ++ [forced]⟩

def replayRun (r : Seed2Reader) (verifyCanon : Bool) : Nat → Option Replay
  | 0 => C.replayStart r
  | k + 1 => (replayRun r verifyCanon k).bind (C.replayStep r verifyCanon)

end Compilation

/-! ## Runs that agree -/

/-- The super nodes of the point in its order, up to super nodes with the same full record. -/
structure OrderPoint.Agrees (p : OrderPoint) (order : List Nat) : Prop where
  perm : order.Perm p.sortedSuper
  records : List.Forall₂ (fun a b => p.records.seed2FullKeyOf a = p.records.seed2FullKeyOf b)
    order p.sortedSuper

/-- The same super nodes, however they are ordered. -/
structure OrderPoint.Presents (p' p : OrderPoint) : Prop where
  tag : p'.tag = p.tag
  records : p.records.Same p'.records
  perm : p'.sortedSuper.Perm p.sortedSuper
  canonHash : p'.canonHash = p.canonHash

/-- Where the orders so far agree, the run `C'` presents what `C` did. -/
structure Compilation.Follows (C' C : Compilation) : Prop where
  inputHash : C'.inputHash = C.inputHash
  ends : ∀ points orders, List.Forall₂ OrderPoint.Agrees points orders →
    C.next (points.map OrderPoint.sortedSuper) = none → C'.next orders = none
  presents : ∀ points orders, List.Forall₂ OrderPoint.Agrees points orders →
    ∀ p, C.next (points.map OrderPoint.sortedSuper) = some p →
      ∃ p', C'.next orders = some p' ∧ p'.Presents p

/-! ## What is recorded -/

/-- What a stored point says about the one that was recorded. -/
structure Stores (keys : List Bytes) (q : Seed2Point) (p : OrderPoint) : Prop where
  tag : q.tag = p.tag
  canonHash : q.canonHash = p.canonHash
  names : q.nameIds.map (fun id => keys[id.toNat]?) = (p.records.nodeKeys p.sortedSuper).map some

/-- A stored group leads to the source keys that were recorded. -/
def Spells (keys : List Bytes) (g : Seed2WhenGroup) (group : Bytes × List Bytes) : Prop :=
  g.sources.map (fun id => keys[id.toNat]?) = group.2.map some

theorem Stores.extend {keys keys' : List Bytes} (grows : keys <+: keys') {q : Seed2Point}
    {p : OrderPoint} (h : Stores keys q p) : Stores keys' q p :=
  ⟨h.tag, h.canonHash, places_extend grows h.names⟩

/-- Keys are added to the table, and nothing else is touched. -/
structure Interns (w w' : Seed2Writer) : Prop where
  keys : w.keys <+: w'.keys
  points : w'.points = w.points
  whenGroups : w'.whenGroups = w.whenGroups
  inputHash : w'.inputHash = w.inputHash
  inputHashSet : w'.inputHashSet = w.inputHashSet

theorem Interns.trans {w w₁ w' : Seed2Writer} (h : Interns w w₁) (h' : Interns w₁ w') :
    Interns w w' :=
  ⟨h.keys.trans h'.keys, h'.points.trans h.points, h'.whenGroups.trans h.whenGroups,
    h'.inputHash.trans h.inputHash, h'.inputHashSet.trans h.inputHashSet⟩

theorem interns_intern (w : Seed2Writer) (key : Bytes) : Interns w (w.intern key).2 := by
  have grows := intern_keys w key
  unfold Seed2Writer.intern at grows ⊢
  cases found : w.idByKey key with
  | some id => exact ⟨List.prefix_rfl, rfl, rfl, rfl, rfl⟩
  | none => exact ⟨List.prefix_append _ _, rfl, rfl, rfl, rfl⟩

theorem interns_internAll (ks : List Bytes) (w : Seed2Writer) : Interns w (w.internAll ks).2 := by
  induction ks generalizing w with
  | nil => exact ⟨List.prefix_rfl, rfl, rfl, rfl, rfl⟩
  | cons k ks ih => exact (interns_intern w k).trans (ih _)

/-- What every recording leaves as it was. -/
structure Grows (w w' : Seed2Writer) : Prop where
  keys : w.keys <+: w'.keys
  inputHash : w'.inputHash = w.inputHash
  inputHashSet : w'.inputHashSet = w.inputHashSet

theorem Grows.trans {w w₁ w' : Seed2Writer} (h : Grows w w₁) (h' : Grows w₁ w') : Grows w w' :=
  ⟨h.keys.trans h'.keys, h'.inputHash.trans h.inputHash, h'.inputHashSet.trans h.inputHashSet⟩

theorem recordPoint_stores {env : Seed2Env} {w w' : Seed2Writer} (ok : TableOk w) (p : OrderPoint)
    (record : p.records.recordPoint env p.tag p.sortedSuper p.canonHash w = some w') :
    Grows w w' ∧ w'.whenGroups = w.whenGroups ∧
      ∃ q, w'.points = w.points ++ [q] ∧ (w'.keys.length < 2 ^ 32 → Stores w'.keys q p) := by
  obtain ⟨algo, -, eq⟩ := Option.bind_eq_some_iff.mp record
  cases eq
  obtain ⟨-, places⟩ := ok.internAll (p.records.nodeKeys p.sortedSuper)
  have only := interns_internAll (p.records.nodeKeys p.sortedSuper) w
  refine ⟨⟨only.keys, only.inputHash, only.inputHashSet⟩, only.whenGroups,
    ⟨p.tag, algo, p.canonHash, (w.internAll (p.records.nodeKeys p.sortedSuper)).1⟩, ?_, ?_⟩
  · exact congrArg (· ++ _) only.points
  · exact fun small => ⟨rfl, rfl, places small⟩

theorem recordWhenGroup_spells {w w' : Seed2Writer} (ok : TableOk w) {group : Bytes × List Bytes}
    (record : mtSeed2RecordWhenGroup group.1 group.2 w = some w') :
    Grows w w' ∧ w'.points = w.points ∧
      ∃ g, w'.whenGroups = w.whenGroups ++ [g] ∧ (w'.keys.length < 2 ^ 32 → Spells w'.keys g group) := by
  unfold mtSeed2RecordWhenGroup at record
  obtain ⟨-, absent⟩ | ⟨-, eq⟩ := ite_eq_iff.mp record
  · cases absent
  · cases eq
    obtain ⟨-, places⟩ := (ok.intern group.1).1.internAll group.2
    have only := (interns_intern w group.1).trans (interns_internAll group.2 _)
    refine ⟨⟨only.keys, only.inputHash, only.inputHashSet⟩, only.points,
      ⟨(w.intern group.1).1, ((w.intern group.1).2.internAll group.2).1⟩, ?_, places⟩
    exact congrArg (· ++ _) only.whenGroups

/-- The groups before a point. -/
theorem recordGroups_spells {env : Seed2Env} (groups : List (Bytes × List Bytes))
    {w w' : Seed2Writer} (run : Recorded env w)
    (record : groups.foldlM (fun w group => mtSeed2RecordWhenGroup group.1 group.2 w) w = some w') :
    Recorded env w' ∧ Grows w w' ∧ w'.points = w.points ∧
      ∃ gs, w'.whenGroups = w.whenGroups ++ gs ∧
        (w'.keys.length < 2 ^ 32 → List.Forall₂ (Spells w'.keys) gs groups) := by
  induction groups generalizing w with
  | nil =>
    cases record
    exact ⟨run, ⟨List.prefix_rfl, rfl, rfl⟩, rfl, [], (List.append_nil _).symm, fun _ => .nil⟩
  | cons group groups ih =>
    obtain ⟨w₁, first, rest⟩ := Option.bind_eq_some_iff.mp record
    obtain ⟨grows₁, points₁, g, groups₁, spells₁⟩ := recordWhenGroup_spells run.tableOk first
    obtain ⟨run', grows', points', gs, groups', spells'⟩ :=
      ih (run.recordWhenGroup group.1 group.2 first) rest
    refine ⟨run', grows₁.trans grows', points'.trans points₁, g :: gs, ?_, fun small => ?_⟩
    · rw [groups', groups₁, List.append_assoc]
      rfl
    · have here := spells₁ (grows'.keys.length_le.trans_lt small)
      exact .cons (places_extend grows'.keys here) (spells' small)

/-- After any number of points: what the writer holds is what was recorded, and the points are
    those that the passes presented. -/
structure Recording.Kept (env : Seed2Env) (C : Compilation) (s : Recording) : Prop where
  recorded : Recorded env s.writer
  inputHash : s.writer.inputHash = C.inputHash
  inputHashSet : s.writer.inputHashSet = true
  stores : s.writer.keys.length < 2 ^ 32 →
    List.Forall₂ (Stores s.writer.keys) s.writer.points s.points
  spells : s.writer.keys.length < 2 ^ 32 →
    List.Forall₂ (Spells s.writer.keys) s.writer.whenGroups s.groups
  presented : ∀ k < s.points.length, C.next ((s.points.take k).map OrderPoint.sortedSuper) = s.points[k]?

theorem Recording.Kept.step {env : Seed2Env} {C : Compilation} {s s' : Recording} (h : s.Kept env C)
    (step : C.recordStep env s = some s') : s'.Kept env C ∧ s'.points.length = s.points.length + 1 := by
  obtain ⟨p, next, step⟩ := Option.bind_eq_some_iff.mp step
  obtain ⟨w₁, merged, step⟩ := Option.bind_eq_some_iff.mp step
  obtain ⟨w', record, eq⟩ := Option.bind_eq_some_iff.mp step
  cases eq
  obtain ⟨run₁, grows₁, points₁, gs, groups₁, spells₁⟩ := recordGroups_spells _ h.recorded merged
  obtain ⟨grows', groups', q, points', stores'⟩ := recordPoint_stores run₁.tableOk p record
  have grows := grows₁.trans grows'
  refine ⟨⟨run₁.recordPoint _ _ _ record, grows.inputHash.trans h.inputHash,
    grows.inputHashSet.trans h.inputHashSet, fun small => ?_, fun small => ?_, ?_⟩, ?_⟩
  · have before := h.stores (grows.keys.length_le.trans_lt small)
    rw [points', points₁]
    exact List.rel_append (before.imp fun _ _ st => st.extend grows.keys) (.cons (stores' small) .nil)
  · have before := h.spells (grows.keys.length_le.trans_lt small)
    have here := spells₁ (grows'.keys.length_le.trans_lt small)
    rw [groups', groups₁]
    exact List.rel_append (before.imp fun _ _ sp => places_extend grows.keys sp)
      (here.imp fun _ _ sp => places_extend grows'.keys sp)
  · intro k hk
    rw [List.length_append, List.length_singleton] at hk
    rcases Nat.lt_succ_iff_lt_or_eq.mp hk with old | rfl
    · rw [List.take_append_of_le_length old.le, List.getElem?_append_left old]
      exact h.presented k old
    · rw [List.take_left, List.getElem?_concat_length]
      exact next
  · exact List.length_append

theorem recordRun_kept {env : Seed2Env} {C : Compilation} (k : Nat) {s : Recording}
    (run : C.recordRun env k = some s) : s.Kept env C ∧ s.points.length = k := by
  induction k generalizing s with
  | zero =>
    unfold Compilation.recordRun Compilation.recordStart at run
    obtain ⟨w, set, eq⟩ := Option.bind_eq_some_iff.mp run
    cases eq
    have recorded : Recorded env _ := Recorded.setInputHash C.inputHash .empty set
    cases set
    exact ⟨⟨recorded, rfl, rfl, fun _ => .nil, fun _ => .nil, fun k hk => absurd hk k.not_lt_zero⟩, rfl⟩
  | succ k ih =>
    obtain ⟨s₀, before, step⟩ := Option.bind_eq_some_iff.mp run
    obtain ⟨kept, length⟩ := ih before
    obtain ⟨kept', length'⟩ := kept.step step
    exact ⟨kept', length' ▸ congrArg (· + 1) length⟩

/-! ## The replay -/

/-- A point that is stored is replayed for whatever run presents the same super nodes. -/
theorem applyPoint_agrees {r : Seed2Reader} {cursor : Nat} {q : Seed2Point} {p p' : OrderPoint}
    (point : r.points[cursor]? = some q) (stored : Stores r.keys q p) (presents : p'.Presents p)
    (plain : p.records.PlainNames p.sortedSuper) (verifyCanon : Bool) :
    ∃ forced, p'.records.mtSeed2ApplyPoint r cursor verifyCanon p'.tag p'.sortedSuper p'.canonHash =
        some (forced, cursor + 1) ∧ p.Agrees forced := by
  have key := presents.records.seed2NodeKey presents.perm
  have length : q.nameIds.length = p'.sortedSuper.length := by
    have same := congrArg List.length stored.names
    rw [List.length_map, List.length_map, SuperRecords.nodeKeys, List.length_map] at same
    exact same.trans presents.perm.length_eq.symm
  have requests : (p.records.nodeKeys p.sortedSuper).Perm
      (p'.sortedSuper.map (p.records.seed2NodeKey (p.records.seed2CountKeys p.sortedSuper))) :=
    presents.perm.symm.map _
  obtain ⟨forced, taken, keys, perm⟩ := KeyIndex.takeAll_build _ p'.sortedSuper requests
  refine ⟨forced, ?_, perm.trans presents.perm, ?_⟩
  · unfold SuperRecords.mtSeed2ApplyPoint
    rw [point, key]
    simp only [Option.bind_eq_bind, Option.bind_some, length, and_self, implies_true, if_true,
      stored.tag.trans presents.tag.symm, stored.canonHash.trans presents.canonHash.symm,
      keysOfIds_eq stored.names, taken]
  · obtain ⟨lengths, pairs⟩ := List.forall₂_iff_zip.mp (forall₂_of_map_eq keys)
    refine List.forall₂_iff_zip.mpr ⟨lengths, fun {a b} mem => ?_⟩
    obtain ⟨ha, hb⟩ := List.of_mem_zip mem
    exact plain.fullKey_eq ((perm.trans presents.perm).mem_iff.mp ha) hb (pairs mem)

/-- Up to any point the replay goes through, with orders that agree. -/
theorem replayRun_agrees {env : Seed2Env} {C C' : Compilation} {s : Recording} (kept : s.Kept env C)
    (follows : C'.Follows C) (plain : ∀ p ∈ s.points, p.records.PlainNames p.sortedSuper)
    {r : Seed2Reader} (hash : r.inputHash = C.inputHash)
    (stored : List.Forall₂ (Stores r.keys) r.points s.points) (verifyCanon : Bool) :
    ∀ k ≤ s.points.length, ∃ orders, C'.replayRun r verifyCanon k = some ⟨k, orders⟩ ∧
      List.Forall₂ OrderPoint.Agrees (s.points.take k) orders := by
  intro k
  induction k with
  | zero =>
    intro _
    refine ⟨[], ?_, .nil⟩
    unfold Compilation.replayRun Compilation.replayStart mtSeed2VerifyInputHash
    rw [if_pos (hash.trans follows.inputHash.symm)]
    rfl
  | succ k ih =>
    intro hk
    obtain ⟨orders, before, agree⟩ := ih (Nat.le_of_succ_le hk)
    have hp : s.points[k]? = some s.points[k] := List.getElem?_eq_getElem hk
    obtain ⟨p', next, presents⟩ :=
      follows.presents _ orders agree s.points[k] ((kept.presented k hk).trans hp)
    have inFile : k < r.points.length := stored.length_eq ▸ hk
    have here : Stores r.keys r.points[k] s.points[k] := stored.get inFile hk
    obtain ⟨forced, applied, agrees⟩ := applyPoint_agrees (List.getElem?_eq_getElem inFile) here
      presents (plain _ (List.getElem_mem hk)) verifyCanon
    refine ⟨orders ++ [forced], ?_, ?_⟩
    · unfold Compilation.replayRun
      rw [before, Option.bind_some]
      unfold Compilation.replayStep
      simp only [Option.bind_eq_bind, next, Option.bind_some, applied]
    · rw [List.take_add_one, hp]
      exact List.rel_append agree (.cons agrees .nil)

/-- The file of a recorded run loads as what the writer holds. -/
theorem finalize_loads {z : Zlib} (law : z.Lawful) {env : Seed2Env} {w : Seed2Writer}
    (run : Recorded env w) (counts : CountsBelow w) (some_ : w.points ≠ [])
    (hash : w.inputHashSet = true) :
    ∃ file, mtSeed2Finalize z env w = some file ∧
      mtSeed2Load z file = some ⟨w.inputHash, w.keys, w.points, w.whenGroups⟩ :=
  ⟨_, mtSeed2Finalize_eq law env w run.inv.open_ some_ hash, load_encoded law env w run.inv counts rfl⟩

/-- **A seed replays the run that wrote it.**  The run `C` records its points up to its end,
    and `C'` presents the same super nodes as long as it has had the same orders.  Then the
    file is written and loads, every point of `C'` passes its checks and gets the recorded
    order up to super nodes with the same full record, and `C'` ends with `C`, the seed used
    up; the groups of the file are those that were merged. -/
theorem replay_follows {z : Zlib} (law : z.Lawful) {env : Seed2Env} {C C' : Compilation} {n : Nat}
    {s : Recording} (run : C.recordRun env n = some s) (ends : C.next s.orders = none)
    (some_ : 0 < n) (counts : CountsBelow s.writer)
    (plain : ∀ p ∈ s.points, p.records.PlainNames p.sortedSuper) (follows : C'.Follows C)
    (verifyCanon : Bool) :
    ∃ file r orders, mtSeed2Finalize z env s.writer = some file ∧ mtSeed2Load z file = some r ∧
      C'.replayRun r verifyCanon n = some ⟨n, orders⟩ ∧ r.points.length = n ∧
      List.Forall₂ OrderPoint.Agrees s.points orders ∧ C'.next orders = none ∧
      List.Forall₂ (fun i group => mtSeed2WhenGroupSourceKeys r i = some group.2)
        (List.range r.whenGroups.length) s.groups := by
  obtain ⟨kept, length⟩ := recordRun_kept n run
  have stored := kept.stores counts.keys
  have points : s.writer.points ≠ [] := by
    rw [← List.length_pos_iff, stored.length_eq, length]
    exact some_
  obtain ⟨file, wrote, loads⟩ := finalize_loads law kept.recorded counts points kept.inputHashSet
  let r : Seed2Reader :=
    ⟨s.writer.inputHash, s.writer.keys, s.writer.points, s.writer.whenGroups⟩
  obtain ⟨orders, replayed, agree⟩ :=
    replayRun_agrees (r := r) kept follows plain kept.inputHash stored verifyCanon n length.ge
  rw [← length, List.take_length] at agree
  refine ⟨file, r, orders, wrote, loads, replayed, stored.length_eq.trans length, agree,
    follows.ends s.points orders agree ends, ?_⟩
  have spelled := kept.spells counts.keys
  refine List.forall₂_iff_get.mpr ⟨(List.length_range).trans spelled.length_eq, fun i hi hi' => ?_⟩
  have inFile : i < s.writer.whenGroups.length := by rwa [List.length_range] at hi
  have here := spelled.get inFile hi'
  unfold mtSeed2WhenGroupSourceKeys
  rw [List.get_eq_getElem, List.getElem_range, List.getElem?_eq_getElem inFile, Option.bind_some]
  exact keysOfIds_eq here

/-! ### Two runs that present three super nodes in different orders -/

/-- The first point presents the given order, the second one turns around what the first gave. -/
def turning (first : List Nat) : Compilation where
  inputHash := 77
  groups orders := if orders = [] then [(asBytes "a", [asBytes "b", asBytes "a"])] else []
  next
    | [] => some ⟨asBytes "pass.topoSort", shellRecords, first, 5⟩
    | [order] => some ⟨asBytes "pass.preEmit", shellRecords, order.reverse, 6⟩
    | _ => none

theorem turning_follows {first first' : List Nat} (perm : first'.Perm first) :
    (turning first').Follows (turning first) where
  inputHash := rfl
  ends points orders agree none_ := by
    cases agree with
    | nil => cases none_
    | cons _ rest =>
      cases rest with
      | nil => cases none_
      | cons _ _ => rfl
  presents points orders agree p next := by
    cases agree with
    | nil =>
      cases next
      exact ⟨_, rfl, rfl, shellRecords_same, perm, rfl⟩
    | cons here rest =>
      cases rest with
      | nil =>
        cases next
        refine ⟨_, rfl, rfl, shellRecords_same, ?_, rfl⟩
        exact (List.reverse_perm _).trans (here.perm.trans (List.reverse_perm _).symm)
      | cons _ _ => cases next

/-- The run whose first point gives `[2, 0, 1]`, after both points. -/
def turned : Recording := ((turning [2, 0, 1]).recordRun sampleEnv 2).getD ⟨.empty, [], []⟩

theorem turned_run : (turning [2, 0, 1]).recordRun sampleEnv 2 = some turned := rfl

set_option maxRecDepth 2000 in
theorem turned_countsBelow : CountsBelow turned.writer := by
  refine ⟨?_, ?_, ?_, ?_, ?_, ?_, ?_, ?_⟩ <;> decide

theorem turned_plain : ∀ p ∈ turned.points, p.records.PlainNames p.sortedSuper := by
  have points : turned.points = [⟨asBytes "pass.topoSort", shellRecords, [2, 0, 1], 5⟩,
      ⟨asBytes "pass.preEmit", shellRecords, [1, 0, 2], 6⟩] := rfl
  rw [points]
  intro p hp
  rcases List.mem_pair.mp hp with rfl | rfl
  · exact shellRecords_plain
  · intro s hs
    exact shellRecords_plain s (((List.reverse_perm [2, 0, 1]).mem_iff).mp hs)

theorem replay_follows_turning :
    ∃ file r orders, mtSeed2Finalize sampleZlib sampleEnv turned.writer = some file ∧
      mtSeed2Load sampleZlib file = some r ∧
      (turning [0, 1, 2]).replayRun r true 2 = some ⟨2, orders⟩ ∧ r.points.length = 2 ∧
      List.Forall₂ OrderPoint.Agrees turned.points orders ∧
      (turning [0, 1, 2]).next orders = none ∧
      List.Forall₂ (fun i group => mtSeed2WhenGroupSourceKeys r i = some group.2)
        (List.range r.whenGroups.length) turned.groups :=
  replay_follows sampleZlib_lawful turned_run rfl (by decide) turned_countsBelow turned_plain
    (turning_follows (by decide)) true

end Gsim.Seed2
