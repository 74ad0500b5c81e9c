/-
  Gsim/CanonHash.lean
  ===================
  **The fingerprint of a super graph** (`graph::canonInputHash`, `canonMixV1` and `canonMixV2`
  in `graphPartition.cpp`).

  Every worker writes the records of its slice of the valid super nodes into an arena of its
  own, with a memo of end point keys in a second one; the records are then sorted as views,
  compared with the stream of the last call, and mixed.  All of it comes down to
  `sortedRecords`: the arenas hold the records (`buildSlice_views`), the slices make up the
  list, the comparison is exact.  The number of workers does not matter, as long as there is
  one.
-/
import Gsim.TaskPool
import Gsim.Seed2Points

namespace Gsim.Seed2

open Gsim.ByteStream Gsim.TaskPool

/-! ## Mixes -/

def CANON_FNV_BASIS : UInt64 := 1469598103934665603

def CANON_FNV_PRIME : UInt64 := 1099511628211

def CANON_V2_DOMAIN : Bytes := "GSIM-CANON-V2".toList.map fun c => UInt8.ofNat c.toNat

def canonFnvByte (h : UInt64) (b : UInt8) : UInt64 := (h ^^^ b.toUInt64) * CANON_FNV_PRIME

def canonFnvBytes (h : UInt64) (p : Bytes) : UInt64 := p.foldl canonFnvByte h

/-- Eight bytes, the lowest first. -/
def canonFnvU64 (h v : UInt64) : UInt64 :=
  (List.range 8).foldl (fun h b => canonFnvByte h (v >>> UInt64.ofNat (8 * b)).toUInt8) h

def canonMixV1 (views : List Bytes) : UInt64 := views.foldl canonFnvBytes CANON_FNV_BASIS

/-- The number of segments, from the number of records alone. -/
def segmentCount (n : Nat) : Nat := if n = 0 then 1 else min 4096 ((n + 255) / 256)

def hashSegment (views : List Bytes) (j : Nat) : UInt64 :=
  let n := views.length
  let S := segmentCount n
  let segment := slice views (cut n S j) (cut n S (j + 1))
  let bytes := segment.foldl (fun sum r => sum + UInt64.ofNat r.length) 0
  let h := canonFnvU64 CANON_FNV_BASIS bytes
  let h := canonFnvU64 h (UInt64.ofNat (cut n S (j + 1) - cut n S j))
  segment.foldl canonFnvBytes h

def combineSegments (n : Nat) (seg : List UInt64) : UInt64 :=
  let h := canonFnvBytes CANON_FNV_BASIS CANON_V2_DOMAIN
  let h := canonFnvU64 h (UInt64.ofNat n)
  let h := canonFnvU64 h (UInt64.ofNat (segmentCount n))
  seg.foldl canonFnvU64 h

/-- The value of the second algorithm, as the construction defines it. -/
def canonMixV2 (views : List Bytes) : UInt64 :=
  combineSegments views.length ((List.range (segmentCount views.length)).map (hashSegment views))

def canonMix (algo : CanonAlgo) (views : List Bytes) : UInt64 :=
  match algo with
  | .v1 => canonMixV1 views
  | .v2 => canonMixV2 views

/-! ## The pool of the second mix -/

/-- `(int)std::thread::hardware_concurrency()`. -/
def asInt (concurrency : UInt32) : Int :=
  if concurrency.toNat < 2 ^ 31 then concurrency.toNat else concurrency.toNat - 2 ^ 32

/-- `next.fetch_add(1)`: a number below `S` is a segment, any other one ends the loop. -/
def fetchAdd (S next : Nat) : Option (Option Nat × Nat) :=
  some (if next < S then some next else none, next + 1)

theorem fetchAdd_segment {S next j next' : Nat} (took : fetchAdd S next = some (some j, next')) :
    List.range' next (S - next) = j :: List.range' next' (S - next') := by
  unfold fetchAdd at took
  by_cases more : next < S
  · rw [if_pos more] at took
    cases took
    have positive : S - next = (S - (next + 1)) + 1 := by omega
    rw [positive, List.range'_succ]
  · rw [if_neg more] at took
    cases took

theorem fetchAdd_end {S next next' : Nat} (told : fetchAdd S next = some (none, next')) :
    List.range' next (S - next) = [] ∧ List.range' next' (S - next') = [] := by
  unfold fetchAdd at told
  by_cases more : next < S
  · rw [if_pos more] at told
    cases told
  · rw [if_neg more] at told
    cases told
    have none_ : S - next = 0 ∧ S - (next + 1) = 0 := by omega
    rw [none_.1, none_.2]
    exact ⟨rfl, rfl⟩

def segmentCounter (S : Nat) : Supply Nat Nat where
  take := fetchAdd S
  pending next := List.range' next (S - next)
  pending_task := fetchAdd_segment
  pending_leave := fetchAdd_end

/-- Never less than one. -/
def mixWorkers (concurrency : UInt32) (S : Nat) : Nat :=
  (max 1 (min (min (S : Int) 16) (asInt concurrency))).toNat

/-- `h` is what the threads of the second mix can make of the views. -/
def PoolMixV2 (concurrency : UInt32) (views : List Bytes) (h : UInt64) : Prop :=
  ∃ s : State Nat Nat Nat UInt64,
    Relation.ReflTransGen
      (Step (segmentCounter (segmentCount views.length)) id (hashSegment views)
        (mixWorkers concurrency (segmentCount views.length)))
      (State.initial 0) s ∧
    s.Over (mixWorkers concurrency (segmentCount views.length)) ∧
    h = combineSegments views.length
      ((List.range (segmentCount views.length)).map fun j => (s.cells j).getD 0)

theorem mixWorkers_pos (concurrency : UInt32) (S : Nat) : 0 < mixWorkers concurrency S := by
  unfold mixWorkers
  omega

/-- However the threads take turns, every segment is hashed and the value is the same. -/
theorem poolMixV2_iff (concurrency : UInt32) (views : List Bytes) (h : UInt64) :
    PoolMixV2 concurrency views h ↔ h = canonMixV2 views := by
  set S := segmentCount views.length with hS
  have start : (segmentCounter S).pending 0 = List.range S := by
    rw [List.range_eq_range']
    rfl
  have apart : ((List.range S).map id).Nodup := by
    rw [List.map_id]
    exact List.nodup_range
  have value : ∀ s : State Nat Nat Nat UInt64,
      Relation.ReflTransGen (Step (segmentCounter S) id (hashSegment views)
        (mixWorkers concurrency S)) (State.initial 0) s →
      s.Over (mixWorkers concurrency S) →
      combineSegments views.length ((List.range S).map fun j => (s.cells j).getD 0) =
        canonMixV2 views := by
    intro s run gone
    have inv : Inv (segmentCounter S) id (hashSegment views) (mixWorkers concurrency S)
        (List.range S) s := by
      apply Inv.run _ apart run
      rw [← start]
      exact Inv.initial 0
    have cells := (inv.finished (mixWorkers_pos concurrency S) gone).2
    unfold canonMixV2
    rw [← hS]
    congr 1
    apply List.map_congr_left
    intro j hj
    have filled : s.cells j = some (hashSegment views j) := cells j hj
    rw [filled]
    rfl
  constructor
  · rintro ⟨s, run, gone, rfl⟩
    exact value s run gone
  · rintro rfl
    have ready : ∀ next, (segmentCounter S).take next ≠ none := fun _ => Option.some_ne_none _
    have ends : ∃ s : State Nat Nat Nat UInt64,
        Relation.ReflTransGen (Step (segmentCounter S) id (hashSegment views)
          (mixWorkers concurrency S)) (State.initial 0) s ∧ s.Over (mixWorkers concurrency S) :=
      exists_run_over ready (State.initial 0)
    obtain ⟨s, run, gone⟩ := ends
    exact ⟨s, run, gone, (value s run gone).symm⟩

/-! ## Records in an arena -/

/-- What one worker owns: the record bytes, the key bytes, the memo and the records written. -/
structure CanonWorker where
  arena : Bytes
  keyArena : Bytes
  keyCache : Nat → Option (Nat × Nat)
  ranges : List (Nat × Nat)

def CanonWorker.empty : CanonWorker := ⟨[], [], fun _ => none, []⟩

/-- The bytes at an offset, of a length. -/
def rangeBytes (buf : Bytes) (r : Nat × Nat) : Bytes := (buf.drop r.1).take r.2

section Worker

variable (R : SuperRecords)

/-- The key of an end point is appended once and referred to from then on. -/
def keyRangeOf (s : CanonWorker) (e : Nat) : (Nat × Nat) × CanonWorker :=
  match s.keyCache e with
  | some r => (r, s)
  | none =>
    let key := (R.member e).flatMap fun name => name ++ [0x3b]
    let r := (s.keyArena.length, key.length)
    (r, { s with
      keyArena := s.keyArena ++ key, keyCache := Function.update s.keyCache e (some r) })

def keyRangesOf (s : CanonWorker) : List Nat → List (Nat × Nat) × CanonWorker
  | [] => ([], s)
  | e :: ends =>
    let (r, s) := keyRangeOf R s e
    let (rs, s) := keyRangesOf s ends
    (r :: rs, s)

/-- `memcmp` on the common length, then the shorter one. -/
def keyLe (buf : Bytes) (x y : Nat × Nat) : Prop := bytesLe (rangeBytes buf x) (rangeBytes buf y)

instance (buf : Bytes) : DecidableRel (keyLe buf) := fun x y =>
  inferInstanceAs (Decidable (bytesLe (rangeBytes buf x) (rangeBytes buf y)))

def appendEnds (s : CanonWorker) (ends : List Nat) : CanonWorker :=
  let (endKeyRanges, s) := keyRangesOf R s ends
  { s with
    arena := (endKeyRanges.insertionSort (keyLe s.keyArena)).foldl
      (fun arena k => arena ++ rangeBytes s.keyArena k ++ [0x2c]) s.arena }

def CanonWorker.append (s : CanonWorker) (bytes : Bytes) : CanonWorker :=
  { s with arena := s.arena ++ bytes }

/-- Members, then the four sets of end points. -/
def buildRecord (s : CanonWorker) (super : Nat) : CanonWorker :=
  let beg := s.arena.length
  let s := s.append ((R.member super).flatMap fun name => name ++ [0x3b])
  let s := appendEnds R (s.append [0x7c]) (R.prev super)
  let s := appendEnds R (s.append [0x7c]) (R.next super)
  let s := appendEnds R (s.append [0x7c]) (R.depPrev super)
  let s := appendEnds R (s.append [0x7c]) (R.depNext super)
  { s with ranges := s.ranges ++ [(beg, s.arena.length - beg)] }

def buildSlice (supers : List Nat) : CanonWorker := supers.foldl (buildRecord R) .empty

def CanonWorker.views (s : CanonWorker) : List Bytes := s.ranges.map (rangeBytes s.arena)

end Worker

/-! ### What the arenas hold -/

theorem rangeBytes_append {buf : Bytes} {r : Nat × Nat} (inside : r.1 + r.2 ≤ buf.length)
    (more : Bytes) : rangeBytes (buf ++ more) r = rangeBytes buf r := by
  unfold rangeBytes
  rw [List.drop_append_of_le_length (by omega), List.take_append_of_le_length]
  rw [List.length_drop]
  omega

theorem rangeBytes_end (buf bytes : Bytes) :
    rangeBytes (buf ++ bytes) (buf.length, bytes.length) = bytes := by
  unfold rangeBytes
  rw [List.drop_left, List.take_length]

section Worker

variable {R : SuperRecords}

/-- The memo is right. -/
def KeysOk (R : SuperRecords) (s : CanonWorker) : Prop :=
  ∀ e r, s.keyCache e = some r →
    r.1 + r.2 ≤ s.keyArena.length ∧ rangeBytes s.keyArena r = R.seed2KeyOf e

/-- Only keys were added. -/
structure KeysGrow (s s' : CanonWorker) : Prop where
  arena : s'.arena = s.arena
  ranges : s'.ranges = s.ranges
  keyArena : s.keyArena <+: s'.keyArena

theorem keyRangeOf_spec {s : CanonWorker} (ok : KeysOk R s) (e : Nat) :
    KeysOk R (keyRangeOf R s e).2 ∧ KeysGrow s (keyRangeOf R s e).2 ∧
      (keyRangeOf R s e).1.1 + (keyRangeOf R s e).1.2 ≤ (keyRangeOf R s e).2.keyArena.length ∧
      rangeBytes (keyRangeOf R s e).2.keyArena (keyRangeOf R s e).1 = R.seed2KeyOf e := by
  unfold keyRangeOf
  cases memo : s.keyCache e with
  | some r => exact ⟨ok, ⟨rfl, rfl, List.prefix_refl _⟩, ok e r memo⟩
  | none =>
    have fresh : rangeBytes (s.keyArena ++ R.seed2KeyOf e)
        (s.keyArena.length, (R.seed2KeyOf e).length) = R.seed2KeyOf e := rangeBytes_end _ _
    have inside : s.keyArena.length + (R.seed2KeyOf e).length ≤
        (s.keyArena ++ R.seed2KeyOf e).length := by rw [List.length_append]
    refine ⟨?_, ⟨rfl, rfl, List.prefix_append _ _⟩, inside, fresh⟩
    intro e' r h
    dsimp only at h
    by_cases same : e' = e
    · subst same
      rw [Function.update_self] at h
      cases h
      exact ⟨inside, fresh⟩
    · rw [Function.update_of_ne same] at h
      obtain ⟨within, key⟩ := ok e' r h
      refine ⟨?_, ?_⟩
      · dsimp only
        rw [List.length_append]
        omega
      · exact (rangeBytes_append within _).trans key

theorem keyRangesOf_spec (ends : List Nat) {s : CanonWorker} (ok : KeysOk R s) :
    KeysOk R (keyRangesOf R s ends).2 ∧ KeysGrow s (keyRangesOf R s ends).2 ∧
      (keyRangesOf R s ends).1.map (rangeBytes (keyRangesOf R s ends).2.keyArena) =
        ends.map R.seed2KeyOf := by
  induction ends generalizing s with
  | nil => exact ⟨ok, ⟨rfl, rfl, List.prefix_refl _⟩, rfl⟩
  | cons e ends ih =>
    obtain ⟨ok₁, grow₁, inside, key⟩ := keyRangeOf_spec ok e
    obtain ⟨ok₂, grow₂, keys⟩ := ih ok₁
    refine ⟨ok₂, ⟨grow₂.arena.trans grow₁.arena, grow₂.ranges.trans grow₁.ranges,
      grow₁.keyArena.trans grow₂.keyArena⟩, ?_⟩
    obtain ⟨more, eq⟩ := grow₂.keyArena
    simp only [keyRangesOf, List.map_cons]
    rw [keys, ← eq, rangeBytes_append inside, key]

theorem foldl_append_keys (buf : Bytes) (ks : List (Nat × Nat)) (arena : Bytes) :
    ks.foldl (fun arena k => arena ++ rangeBytes buf k ++ [0x2c]) arena =
      arena ++ (ks.map (rangeBytes buf)).flatMap fun key => key ++ [0x2c] := by
  induction ks generalizing arena with
  | nil => simp
  | cons k ks ih =>
    rw [List.foldl_cons, ih, List.map_cons, List.flatMap_cons]
    simp only [List.append_assoc]

/-- The sorted keys of the end points go to the arena. -/
theorem appendEnds_spec {s : CanonWorker} (ok : KeysOk R s) (ends : List Nat) :
    KeysOk R (appendEnds R s ends) ∧ (appendEnds R s ends).ranges = s.ranges ∧
      (appendEnds R s ends).arena = s.arena ++ R.sortedEnds ends := by
  obtain ⟨ok', grow, keys⟩ := keyRangesOf_spec ends ok
  refine ⟨ok', grow.ranges, ?_⟩
  have sorted : ((keyRangesOf R s ends).1.insertionSort
      (keyLe (keyRangesOf R s ends).2.keyArena)).map (rangeBytes (keyRangesOf R s ends).2.keyArena) =
      (ends.map R.seed2KeyOf).insertionSort bytesLe := by
    rw [← keys]
    exact List.map_insertionSort _ _ _ _ fun _ _ _ _ => Iff.rfl
  simp only [appendEnds]
  rw [foldl_append_keys, sorted, grow.arena]
  rfl

theorem KeysOk.append {s : CanonWorker} (ok : KeysOk R s) (bytes : Bytes) :
    KeysOk R (s.append bytes) := ok

theorem arena_append (s : CanonWorker) (bytes : Bytes) : (s.append bytes).arena = s.arena ++ bytes :=
  rfl

/-- A record is appended whole. -/
theorem buildRecord_spec {s : CanonWorker} (ok : KeysOk R s) (super : Nat) :
    KeysOk R (buildRecord R s super) ∧
      (buildRecord R s super).arena = s.arena ++ R.seed2FullKeyOf super ∧
      (buildRecord R s super).ranges =
        s.ranges ++ [(s.arena.length, (R.seed2FullKeyOf super).length)] := by
  obtain ⟨ok₁, ranges₁, arena₁⟩ := appendEnds_spec
    ((ok.append (R.seed2KeyOf super)).append [0x7c]) (R.prev super)
  obtain ⟨ok₂, ranges₂, arena₂⟩ := appendEnds_spec (ok₁.append [0x7c]) (R.next super)
  obtain ⟨ok₃, ranges₃, arena₃⟩ := appendEnds_spec (ok₂.append [0x7c]) (R.depPrev super)
  obtain ⟨ok₄, ranges₄, arena₄⟩ := appendEnds_spec (ok₃.append [0x7c]) (R.depNext super)
  have arena : (buildRecord R s super).arena = s.arena ++ R.seed2FullKeyOf super := by
    refine Eq.trans arena₄ ?_
    rw [arena_append, arena₃, arena_append, arena₂, arena_append, arena₁, arena_append, arena_append]
    simp only [SuperRecords.seed2FullKeyOf, List.append_assoc]
  have ranges : (buildRecord R s super).ranges =
      s.ranges ++ [(s.arena.length, (buildRecord R s super).arena.length - s.arena.length)] := by
    have same := ((ranges₄.trans ranges₃).trans ranges₂).trans ranges₁
    exact congrArg (· ++ [_]) same
  refine ⟨ok₄, arena, ?_⟩
  rw [ranges, arena, List.length_append, Nat.add_sub_cancel_left]

/-- The views of a worker are the records of its super nodes, in their order. -/
theorem foldl_buildRecord_spec (supers : List Nat) {s : CanonWorker} (ok : KeysOk R s)
    (inside : ∀ r ∈ s.ranges, r.1 + r.2 ≤ s.arena.length) :
    (supers.foldl (buildRecord R) s).views = s.views ++ supers.map R.seed2FullKeyOf := by
  induction supers generalizing s with
  | nil => simp
  | cons super supers ih =>
    obtain ⟨ok', arena, ranges⟩ := buildRecord_spec ok super
    have inside' : ∀ r ∈ (buildRecord R s super).ranges,
        r.1 + r.2 ≤ (buildRecord R s super).arena.length := by
      intro r hr
      rw [ranges] at hr
      rw [arena, List.length_append]
      rcases List.mem_append.mp hr with old | new
      · have := inside r old
        omega
      · cases List.mem_singleton.mp new
        exact le_refl _
    have views : (buildRecord R s super).views = s.views ++ [R.seed2FullKeyOf super] := by
      unfold CanonWorker.views
      rw [ranges, arena, List.map_append, List.map_singleton, rangeBytes_end]
      congr 1
      apply List.map_congr_left
      intro r hr
      exact rangeBytes_append (inside r hr) _
    rw [List.foldl_cons, ih ok' inside', views, List.map_cons, List.append_assoc]
    rfl

theorem buildSlice_views (R : SuperRecords) (supers : List Nat) :
    (buildSlice R supers).views = supers.map R.seed2FullKeyOf := by
  have ok : KeysOk R CanonWorker.empty := by
    intro e r h
    cases h
  exact foldl_buildRecord_spec supers ok fun r hr => absurd hr List.not_mem_nil

end Worker

/-! ## The fingerprint -/

/-- `std::min(16, (int)hardware_concurrency())`. -/
def canonWorkers (concurrency : UInt32) : Int := min 16 (asInt concurrency)

/-- The stream of the last call: its sorted views, the algorithm and the value. -/
structure CanonStreamCache where
  valid : Bool
  hash : UInt64
  algo : CanonAlgo
  sorted : List Bytes

def CanonStreamCache.empty : CanonStreamCache := ⟨false, 0, .v1, []⟩

section Hash

variable (R : SuperRecords) (superValid : Nat → Bool) (concurrency : UInt32)

/-- The views of all workers, sorted. -/
def canonViews (nWorkers : Nat) (sortedSuper : List Nat) : List Bytes :=
  let valid := sortedSuper.filter superValid
  let views := (List.range nWorkers).flatMap fun w =>
    (buildSlice R (slice valid (cut valid.length nWorkers w) (cut valid.length nWorkers (w + 1)))).views
  views.insertionSort bytesLe

/-- Each worker compares its slice. -/
def streamsEqual (nWorkers : Nat) (views sorted : List Bytes) : Bool :=
  (List.range nWorkers).all fun w =>
    slice views (cut views.length nWorkers w) (cut views.length nWorkers (w + 1)) =
      slice sorted (cut views.length nWorkers w) (cut views.length nWorkers (w + 1))

/-- The mix of a call: the first algorithm runs alone, the second in its pool. -/
def MixReturns (algo : CanonAlgo) (views : List Bytes) (h : UInt64) : Prop :=
  match algo with
  | .v1 => h = canonMixV1 views
  | .v2 => PoolMixV2 concurrency views h

/-- A call of `canonInputHash` can return `h` and leave `cache'`.  A negative number of workers is
    no size for a vector: the call throws. -/
def CanonInputHash (algo : CanonAlgo) (sortedSuper : List Nat) (cache : CanonStreamCache)
    (h : UInt64) (cache' : CanonStreamCache) : Prop :=
  0 ≤ canonWorkers concurrency ∧
    let nWorkers := (canonWorkers concurrency).toNat
    let views := canonViews R superValid nWorkers sortedSuper
    if cache.valid && cache.algo = algo && cache.sorted.length = views.length &&
        streamsEqual nWorkers views cache.sorted then
      h = cache.hash ∧ cache' = cache
    else MixReturns concurrency algo views h ∧ cache' = ⟨true, h, algo, views⟩

end Hash

/-- The caches that earlier calls can have left, for any graphs, algorithms and thread counts. -/
inductive CacheReached : CanonStreamCache → Prop
  | start : CacheReached .empty
  | call {R : SuperRecords} {superValid : Nat → Bool} {concurrency : UInt32} {algo : CanonAlgo}
      {sortedSuper : List Nat} {cache cache' : CanonStreamCache} {h : UInt64}
      (earlier : CacheReached cache)
      (returned : CanonInputHash R superValid concurrency algo sortedSuper cache h cache') :
      CacheReached cache'

/-- The records of all valid super nodes, sorted. -/
def sortedRecords (R : SuperRecords) (superValid : Nat → Bool) (sortedSuper : List Nat) :
    List Bytes :=
  ((sortedSuper.filter superValid).map R.seed2FullKeyOf).insertionSort bytesLe

/-! ### The value -/

theorem mixReturns_iff (concurrency : UInt32) (algo : CanonAlgo) (views : List Bytes) (h : UInt64) :
    MixReturns concurrency algo views h ↔ h = canonMix algo views := by
  cases algo with
  | v1 => exact Iff.rfl
  | v2 => exact poolMixV2_iff concurrency views h

/-- The cached value is the mix of the cached stream. -/
def CanonStreamCache.Exact (cache : CanonStreamCache) : Prop :=
  cache.valid = true → cache.hash = canonMix cache.algo cache.sorted

theorem canonViews_eq (R : SuperRecords) (superValid : Nat → Bool) (sortedSuper : List Nat)
    {nWorkers : Nat} (some_ : 0 < nWorkers) :
    canonViews R superValid nWorkers sortedSuper = sortedRecords R superValid sortedSuper := by
  unfold canonViews sortedRecords
  simp only [buildSlice_views]
  rw [← List.map_flatMap, flatMap_slices _ some_]

/-- With no worker nothing is built. -/
theorem canonViews_zero (R : SuperRecords) (superValid : Nat → Bool) (sortedSuper : List Nat) :
    canonViews R superValid 0 sortedSuper = [] := rfl

/-- The comparison of slices is the comparison of the streams. -/
theorem eq_of_streamsEqual {nWorkers : Nat} {views sorted : List Bytes}
    (length : sorted.length = views.length) (same : streamsEqual nWorkers views sorted = true)
    (enough : nWorkers = 0 → views = []) : views = sorted := by
  rcases Nat.eq_zero_or_pos nWorkers with zero | some_
  · rw [enough zero] at length ⊢
    exact (List.length_eq_zero_iff.mp length).symm
  · apply eq_of_slices_eq length.symm some_
    intro w hw
    have all := List.all_eq_true.mp same w (List.mem_range.mpr hw)
    exact of_decide_eq_true all

section Call

variable {R : SuperRecords} {superValid : Nat → Bool} {concurrency : UInt32} {algo : CanonAlgo}
  {sortedSuper : List Nat} {cache cache' : CanonStreamCache} {h : UInt64}

/-- A call returns the mix of the views it built, and keeps them. -/
theorem CanonInputHash.value
    (returned : CanonInputHash R superValid concurrency algo sortedSuper cache h cache')
    (exact_ : cache.Exact) :
    h = canonMix algo (canonViews R superValid (canonWorkers concurrency).toNat sortedSuper) ∧
      cache'.sorted = canonViews R superValid (canonWorkers concurrency).toNat sortedSuper ∧
      cache'.Exact := by
  obtain ⟨-, returned⟩ := returned
  dsimp only at returned
  split at returned
  · rename_i hit
    obtain ⟨rfl, rfl⟩ := returned
    simp only [Bool.and_eq_true, decide_eq_true_eq] at hit
    obtain ⟨⟨⟨valid, rfl⟩, length⟩, same⟩ := hit
    have empty : (canonWorkers concurrency).toNat = 0 →
        canonViews R superValid (canonWorkers concurrency).toNat sortedSuper = [] := by
      intro zero
      rw [zero, canonViews_zero]
    have stream := eq_of_streamsEqual length same empty
    rw [stream]
    exact ⟨exact_ valid, rfl, exact_⟩
  · obtain ⟨mixed, rfl⟩ := returned
    have value := (mixReturns_iff concurrency algo _ h).mp mixed
    exact ⟨value, rfl, fun _ => value⟩

theorem CanonInputHash.exists_of_nonneg (nonneg : 0 ≤ canonWorkers concurrency) :
    ∃ h cache', CanonInputHash R superValid concurrency algo sortedSuper cache h cache' := by
  set nWorkers := (canonWorkers concurrency).toNat with hn
  set views := canonViews R superValid nWorkers sortedSuper with hv
  by_cases hit : (cache.valid && decide (cache.algo = algo) &&
      decide (cache.sorted.length = views.length) &&
      streamsEqual nWorkers views cache.sorted) = true
  · refine ⟨cache.hash, cache, nonneg, ?_⟩
    dsimp only
    rw [← hn, ← hv, if_pos hit]
    exact ⟨rfl, rfl⟩
  · refine ⟨canonMix algo views, ⟨true, canonMix algo views, algo, views⟩, nonneg, ?_⟩
    dsimp only
    rw [← hn, ← hv, if_neg hit]
    exact ⟨(mixReturns_iff concurrency algo views _).mpr rfl, rfl⟩

end Call

theorem CacheReached.exact_ {cache : CanonStreamCache} (reached : CacheReached cache) : cache.Exact := by
  induction reached with
  | start =>
    intro valid
    cases valid
  | call _ returned ih => exact (returned.value ih).2.2

/-- The call returns, and every value that it can return is the mix of `records`, which it also
    keeps for the next call. -/
def HashesRecords (R : SuperRecords) (superValid : Nat → Bool) (concurrency : UInt32)
    (algo : CanonAlgo) (sortedSuper : List Nat) (cache : CanonStreamCache) (records : List Bytes) :
    Prop :=
  (∃ h cache', CanonInputHash R superValid concurrency algo sortedSuper cache h cache') ∧
    ∀ h cache', CanonInputHash R superValid concurrency algo sortedSuper cache h cache' →
      h = canonMix algo records ∧ cache'.sorted = records

/-- Neither the order of the super nodes nor that of the end points shows in the records. -/
theorem sortedRecords_congr {R R' : SuperRecords} (same : R.Same R') (superValid : Nat → Bool)
    {sortedSuper sortedSuper' : List Nat} (perm : sortedSuper'.Perm sortedSuper) :
    sortedRecords R' superValid sortedSuper' = sortedRecords R superValid sortedSuper := by
  unfold sortedRecords
  rw [same.seed2FullKeyOf]
  exact insertionSort_congr ((perm.filter _).map _)

theorem length_sortedRecords (R : SuperRecords) (superValid : Nat → Bool) (sortedSuper : List Nat) :
    (sortedRecords R superValid sortedSuper).length = (sortedSuper.filter superValid).length := by
  unfold sortedRecords
  rw [List.length_insertionSort, List.length_map]

/-- **Fingerprint.**  In every order of the super nodes and of their end points, after any earlier
    calls, the mix of all records is returned, as long as the machine reports at least one thread:
    when it cannot tell and says zero, no record is built. -/
theorem canonInputHash_records_iff {cache : CanonStreamCache} (reached : CacheReached cache)
    {R R' : SuperRecords} (same : R.Same R') (superValid : Nat → Bool)
    {sortedSuper sortedSuper' : List Nat} (perm : sortedSuper'.Perm sortedSuper)
    (concurrency : UInt32) (algo : CanonAlgo) :
    HashesRecords R' superValid concurrency algo sortedSuper' cache
        (sortedRecords R superValid sortedSuper) ↔
      0 < asInt concurrency ∨
        (asInt concurrency = 0 ∧ sortedSuper.filter superValid = []) := by
  have records := sortedRecords_congr same superValid perm
  have views : ∀ n, 0 < n → canonViews R' superValid n sortedSuper' =
      sortedRecords R superValid sortedSuper := by
    intro n some_
    rw [canonViews_eq R' superValid sortedSuper' some_, records]
  have hashes : 0 ≤ canonWorkers concurrency →
      canonViews R' superValid (canonWorkers concurrency).toNat sortedSuper' =
        sortedRecords R superValid sortedSuper →
      HashesRecords R' superValid concurrency algo sortedSuper' cache
        (sortedRecords R superValid sortedSuper) := by
    intro nonneg built
    refine ⟨CanonInputHash.exists_of_nonneg nonneg, ?_⟩
    intro h cache' returned
    obtain ⟨value, kept, -⟩ := returned.value reached.exact_
    rw [built] at value kept
    exact ⟨value, kept⟩
  have workers : canonWorkers concurrency = min 16 (asInt concurrency) := rfl
  constructor
  · rintro ⟨⟨h, cache', returned⟩, all⟩
    rcases lt_trichotomy (asInt concurrency) 0 with negative | zero | positive
    · have nonneg := returned.1
      rw [workers] at nonneg
      omega
    · refine .inr ⟨zero, ?_⟩
      have none_ : (canonWorkers concurrency).toNat = 0 := by
        rw [workers, zero]
        rfl
      have kept := (returned.value reached.exact_).2.1
      rw [none_, canonViews_zero, (all h cache' returned).2] at kept
      have length := length_sortedRecords R superValid sortedSuper
      rw [kept] at length
      exact List.length_eq_zero_iff.mp length.symm
    · exact .inl positive
  · rintro (positive | ⟨zero, empty⟩)
    · apply hashes
      · rw [workers]
        omega
      · apply views
        rw [workers]
        omega
    · apply hashes
      · rw [workers, zero]
        decide
      · have none_ : (canonWorkers concurrency).toNat = 0 := by
          rw [workers, zero]
          rfl
        rw [none_, canonViews_zero]
        symm
        apply List.length_eq_zero_iff.mp
        rw [length_sortedRecords, empty]
        rfl

/-! ### A machine that reports no threads -/

/-- One super node of one member. -/
def soloRecords : SuperRecords :=
  ⟨fun _ => [[0x61]], fun _ => [], fun _ => [], fun _ => [], fun _ => []⟩

/-- The value is that of an empty graph. -/
theorem no_threads_no_records :
    ¬ HashesRecords soloRecords (fun _ => true) 0 .v1 [0] .empty
        (sortedRecords soloRecords (fun _ => true) [0]) ∧
      CanonInputHash soloRecords (fun _ => true) 0 .v1 [0] .empty CANON_FNV_BASIS
        ⟨true, CANON_FNV_BASIS, .v1, []⟩ ∧
      canonMix .v1 (sortedRecords soloRecords (fun _ => true) [0]) ≠ CANON_FNV_BASIS := by
  have returned : CanonInputHash soloRecords (fun _ => true) 0 .v1 [0] .empty CANON_FNV_BASIS
      ⟨true, CANON_FNV_BASIS, .v1, []⟩ := ⟨by decide, rfl, rfl⟩
  refine ⟨?_, returned, by decide⟩
  rintro ⟨-, all⟩
  exact absurd (all _ _ returned).2 (by decide)

/-- Two super nodes of the same name and one between them; `ends` are the end points of the middle
one as they are iterated. -/
def chainRecords (ends : List Nat) : SuperRecords where
  member s := if s = 1 then [[0x62], [0x63]] else [[0x61]]
  prev s := if s = 1 then ends else []
  next s := if s = 1 then [2] else [1]
  depPrev s := if s = 1 then ends else []
  depNext _ := []

theorem chainRecords_same : (chainRecords [0, 2]).Same (chainRecords [2, 0]) := by
  have swap : ∀ s : Nat, ((if s = 1 then [2, 0] else []) : List Nat).Perm
      (if s = 1 then [0, 2] else []) := by
    intro s
    by_cases middle : s = 1
    · rw [if_pos middle, if_pos middle]
      exact .swap 0 2 []
    · rw [if_neg middle, if_neg middle]
  exact ⟨rfl, swap, fun _ => .refl _, swap, fun _ => .refl _⟩

/-- A second call, with the super nodes and their end points in another order than in the first:
what the first left in the cache does no harm. -/
theorem canonInputHash_records_chain :
    ∃ cache, CacheReached cache ∧ cache.valid = true ∧ cache.sorted ≠ [] ∧
      HashesRecords (chainRecords [2, 0]) (fun _ => true) 8 .v2 [2, 0, 1] cache
        (sortedRecords (chainRecords [0, 2]) (fun _ => true) [0, 1, 2]) := by
  obtain ⟨h, cache, returned⟩ := @CanonInputHash.exists_of_nonneg (chainRecords [0, 2]) (fun _ => true)
    8 .v2 [0, 1, 2] .empty (by decide)
  have reached := CacheReached.call .start returned
  obtain ⟨-, miss⟩ := returned
  obtain ⟨-, rfl⟩ := miss
  refine ⟨_, reached, rfl, ?_, ?_⟩
  · rw [canonViews_eq _ _ _ (by decide)]
    exact List.ne_nil_of_length_pos (by rw [length_sortedRecords]; decide)
  · exact (canonInputHash_records_iff reached chainRecords_same (fun _ => true) (by decide) 8
      .v2).mpr (.inl (by decide))

end Gsim.Seed2
