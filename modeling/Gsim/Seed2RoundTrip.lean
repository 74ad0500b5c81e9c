/-
  Gsim/Seed2RoundTrip.lean
  ========================
  **A seed file loads back as it was recorded.**

  `encode*` is the format, stated once: the writer puts exactly these bytes out
  (`Wrote`), and the reader started on them returns what they encode (`Parses`).
  Between the two stand the codec, which gives the same bytes back in pieces of
  its own choosing, and the checks of the reader, each of which the recorded
  state passes: counts and lengths below `2^32`, ids inside the table, a payload
  of the announced size and checksum.
-/
import Gsim.Seed2Reader

namespace Gsim.Seed2

open Gsim.ByteStream

/-! ## The format -/

def encodeStr (s : Bytes) : Bytes := le 4 s.length ++ s

def encodeIds (ids : List UInt32) : Bytes :=
  le 4 ids.length ++ ids.flatMap fun id => le 4 id.toNat

def encodePoint (version : Nat) (p : Seed2Point) : Bytes :=
  encodeStr p.tag ++ ((if version = 3 then [p.canonAlgo.toUInt8] else []) ++
    (le 8 p.canonHash.toNat ++ encodeIds p.nameIds))

def encodeWhenGroup (g : Seed2WhenGroup) : Bytes := le 4 g.condKey.toNat ++ encodeIds g.sources

def encodeBody (version : Nat) (w : Seed2Writer) : Bytes :=
  w.keys.flatMap encodeStr ++ (w.points.flatMap (encodePoint version) ++
    w.whenGroups.flatMap encodeWhenGroup)

/-! ## The writer -/

theorem Zlib.Lawful.crcUpdate {z : Zlib} (law : z.Lawful) (crc : UInt32) (bytes : Bytes) :
    seed2CrcUpdate z crc bytes = z.crc32 crc bytes := by
  rw [seed2CrcUpdate, law.crc32_running.foldl, flatten_toChunks (by decide)]

theorem Zlib.Lawful.running {z : Zlib} (law : z.Lawful) : Running (seed2CrcUpdate z) where
  nil d := by rw [law.crcUpdate, law.crc32_running.nil]
  append d a b := by rw [law.crcUpdate, law.crcUpdate, law.crcUpdate, law.crc32_running.append]

/-- `out'` is `out` after the bytes went through it. -/
def Wrote (z : Zlib) (out : Seed2Output) (bytes : Bytes) (out' : Seed2Output) : Prop :=
  out'.raw = out.raw ++ bytes ∧ out'.rawBytes = out.rawBytes + UInt64.ofNat bytes.length ∧
    out'.crc = z.crc32 out.crc bytes

section Wrote

variable {z : Zlib} (law : z.Lawful)
include law

theorem Wrote.refl (out : Seed2Output) : Wrote z out [] out := by
  refine ⟨(List.append_nil _).symm, ?_, (law.crc32_running.nil _).symm⟩
  simp

theorem Wrote.trans {out out1 out2 : Seed2Output} {a b : Bytes} (h1 : Wrote z out a out1)
    (h2 : Wrote z out1 b out2) : Wrote z out (a ++ b) out2 := by
  obtain ⟨raw1, bytes1, crc1⟩ := h1
  obtain ⟨raw2, bytes2, crc2⟩ := h2
  refine ⟨?_, ?_, ?_⟩
  · rw [raw2, raw1, List.append_assoc]
  · rw [bytes2, bytes1, List.length_append, UInt64.ofNat_add, add_assoc]
  · rw [crc2, crc1, law.crc32_running.append]

theorem wrote_write (out : Seed2Output) (p : Bytes) : Wrote z out p (out.write z p) :=
  ⟨rfl, rfl, law.crcUpdate _ _⟩

theorem wrote_str (out : Seed2Output) (s : Bytes) : Wrote z out (encodeStr s) (out.str z s) := by
  have count := wrote_write law out (le 4 s.length)
  unfold Seed2Output.str encodeStr
  by_cases empty : s = []
  · rw [if_pos empty, empty, List.append_nil]
    rw [empty] at count
    exact count
  · rw [if_neg empty]
    exact count.trans law (wrote_write law _ s)

theorem wrote_ids (out : Seed2Output) (v : List UInt32) : Wrote z out (encodeIds v) (out.ids z v) := by
  have count := wrote_write law out (le 4 v.length)
  unfold Seed2Output.ids encodeIds
  by_cases empty : v = []
  · rw [if_pos empty, empty, List.flatMap_nil, List.append_nil]
    rw [empty] at count
    exact count
  · rw [if_neg empty]
    exact count.trans law (wrote_write law _ _)

theorem wrote_point (version : Nat) (out : Seed2Output) (p : Seed2Point) :
    Wrote z out (encodePoint version p) (out.point z version p) := by
  unfold Seed2Output.point encodePoint
  apply (wrote_str law out p.tag).trans law
  have tagged : Wrote z (out.str z p.tag) (if version = 3 then [p.canonAlgo.toUInt8] else [])
      (if version = 3 then (out.str z p.tag).u8 z p.canonAlgo.toUInt8 else out.str z p.tag) := by
    split
    · exact wrote_write law _ _
    · exact Wrote.refl law _
  apply tagged.trans law
  exact (wrote_write law _ _).trans law (wrote_ids law _ _)

theorem wrote_whenGroup (out : Seed2Output) (g : Seed2WhenGroup) :
    Wrote z out (encodeWhenGroup g) (out.whenGroup z g) :=
  (wrote_write law _ _).trans law (wrote_ids law _ _)

theorem wrote_foldl {α : Type} {f : Seed2Output → α → Seed2Output} {encode : α → Bytes}
    (hf : ∀ out x, Wrote z out (encode x) (f out x)) (xs : List α) (out : Seed2Output) :
    Wrote z out (xs.flatMap encode) (xs.foldl f out) := by
  induction xs generalizing out with
  | nil => exact Wrote.refl law out
  | cons x xs ih =>
    rw [List.flatMap_cons, List.foldl_cons]
    exact (hf out x).trans law (ih _)

/-- What the sink holds once the payload is through. -/
theorem body_eq (version : Nat) (w : Seed2Writer) :
    Seed2Output.body z version w =
      ⟨encodeBody version w, UInt64.ofNat (encodeBody version w).length,
        z.crc32 z.crcInit (encodeBody version w)⟩ := by
  have wrote : Wrote z (Seed2Output.openOutput z) (encodeBody version w)
      (Seed2Output.body z version w) := by
    apply (wrote_foldl law (wrote_str law) w.keys _).trans law
    apply (wrote_foldl law (wrote_point law version) w.points _).trans law
    exact wrote_foldl law (wrote_whenGroup law) w.whenGroups _
  obtain ⟨raw, rawBytes, crc⟩ := wrote
  cases h : Seed2Output.body z version w with
  | mk r b c =>
    rw [h] at raw rawBytes crc
    simp only [Seed2Output.openOutput, List.nil_append, zero_add] at raw rawBytes crc
    rw [raw, rawBytes, crc]

end Wrote

/-! ## The reader -/

theorem decodeIds_encode (ids : List UInt32) :
    decodeIds (ids.flatMap fun id => le 4 id.toNat) = ids := by
  induction ids with
  | nil => rfl
  | cons id ids ih =>
    have head : ofLe (le 4 id.toNat) = id.toNat := by
      rw [ofLe_le]
      exact Nat.mod_eq_of_lt id.toNat_lt
    have unfold4 : le 4 id.toNat = [UInt8.ofNat id.toNat, UInt8.ofNat (id.toNat / 256),
      UInt8.ofNat (id.toNat / 256 / 256), UInt8.ofNat (id.toNat / 256 / 256 / 256)] := rfl
    rw [List.flatMap_cons, unfold4]
    rw [unfold4] at head
    show UInt32.ofNat (ofLe _) :: decodeIds _ = _
    rw [head, UInt32.ofNat_toNat]
    exact congrArg (id :: ·) ih

theorem length_encodedIds (ids : List UInt32) :
    (ids.flatMap fun id => le 4 id.toNat).length = ids.length * 4 := by
  induction ids with
  | nil => rfl
  | cons id ids ih =>
    rw [List.flatMap_cons, List.length_append, length_le, ih, List.length_cons]
    omega

section Parses

variable {γ : Type} {update : γ → Bytes → γ} (run : Running update)
include run

theorem parses_readU32 (v : Nat) :
    Parses update (readU32 update) (le 4 v) (UInt32.ofNat v) := by
  have bytes := Parses.readExact run (le 4 v)
  rw [length_le] at bytes
  have value := bytes.bind run (f := fun b => pure (UInt32.ofNat (ofLe b))) (Parses.pure run _)
  rw [ofLe_le, List.append_nil] at value
  have same : UInt32.ofNat (v % 256 ^ 4) = UInt32.ofNat v := UInt32.ofNat_mod_size
  rwa [same] at value

theorem parses_readU64 (v : Nat) :
    Parses update (readU64 update) (le 8 v) (UInt64.ofNat v) := by
  have bytes := Parses.readExact run (le 8 v)
  rw [length_le] at bytes
  have value := bytes.bind run (f := fun b => pure (UInt64.ofNat (ofLe b))) (Parses.pure run _)
  rw [ofLe_le, List.append_nil] at value
  have same : UInt64.ofNat (v % 256 ^ 8) = UInt64.ofNat v := UInt64.ofNat_mod_size
  rwa [same] at value

theorem parses_readStr {s : Bytes} (small : s.length < 2 ^ 32) :
    Parses update (readStr update) (encodeStr s) s := by
  have count : (UInt32.ofNat s.length).toNat = s.length := by
    rw [UInt32.toNat_ofNat', Nat.mod_eq_of_lt small]
  apply (parses_readU32 run s.length).bind run
  rw [count]
  exact (Parses.readExact run s).checkRemaining (le_refl _)

theorem parses_readIds {ids : List UInt32} (small : ids.length < 2 ^ 32) :
    Parses update (readIds update) (encodeIds ids) ids := by
  have count : (UInt32.ofNat ids.length).toNat = ids.length := by
    rw [UInt32.toNat_ofNat', Nat.mod_eq_of_lt small]
  have bytes := Parses.readExact run (ids.flatMap fun id => le 4 id.toNat)
  rw [length_encodedIds] at bytes
  have value := bytes.bind run (f := fun b => pure (decodeIds b)) (Parses.pure run _)
  rw [decodeIds_encode, List.append_nil] at value
  apply (parses_readU32 run ids.length).bind run
  rw [count]
  exact value.checkRemaining (length_encodedIds ids).ge

theorem parses_readCanonAlgo {version : Nat} (known : version < 2 ^ 32) (algo : CanonAlgo)
    (untagged : version ≠ 3 → algo = .v1) :
    Parses update (readCanonAlgo update (UInt32.ofNat version))
      (if version = 3 then [algo.toUInt8] else []) algo := by
  by_cases tagged : version = 3
  · subst tagged
    have byte := Parses.readExact run [algo.toUInt8]
    have decoded : canonAlgoOf [algo.toUInt8] = some algo := by
      cases algo <;> rfl
    have value : Parses update (readCanonAlgo update 3) ([algo.toUInt8] ++ []) algo := by
      apply byte.bind run
      simp only [decoded]
      exact Parses.pure run algo
    rw [List.append_nil] at value
    exact value
  · have other : UInt32.ofNat version ≠ 3 := by
      intro eq
      have := congrArg UInt32.toNat eq
      rw [UInt32.toNat_ofNat', Nat.mod_eq_of_lt known] at this
      exact tagged this
    rw [if_neg tagged, readCanonAlgo, if_neg other, untagged tagged]
    exact Parses.pure run _

theorem parses_readPoint {version : Nat} (known : version < 2 ^ 32) (p : Seed2Point)
    (untagged : version ≠ 3 → p.canonAlgo = .v1) (tag : p.tag.length < 2 ^ 32)
    (ids : p.nameIds.length < 2 ^ 32) :
    Parses update (readPoint update (UInt32.ofNat version)) (encodePoint version p) p := by
  have hash := parses_readU64 run p.canonHash.toNat
  rw [UInt64.ofNat_toNat] at hash
  apply (parses_readStr run tag).bind run
  apply (parses_readCanonAlgo run known p.canonAlgo untagged).bind run
  apply hash.bind run
  have last := (parses_readIds run ids).bind run
    (f := fun nameIds => pure { p with nameIds }) (Parses.pure run _)
  rw [List.append_nil] at last
  exact last

theorem parses_readWhenGroup (g : Seed2WhenGroup) (ids : g.sources.length < 2 ^ 32) :
    Parses update (readWhenGroup update) (encodeWhenGroup g) g := by
  have key := parses_readU32 run g.condKey.toNat
  rw [UInt32.ofNat_toNat] at key
  apply key.bind run
  have last := (parses_readIds run ids).bind run
    (f := fun sources => pure { g with sources }) (Parses.pure run _)
  rw [List.append_nil] at last
  exact last

end Parses

/-! ## Recorded states -/

/-- Everything the format counts is below `2^32`, and the whole fits in memory. -/
structure CountsBelow (w : Seed2Writer) : Prop where
  keys : w.keys.length < 2 ^ 32
  key : ∀ k ∈ w.keys, k.length < 2 ^ 32
  points : w.points.length < 2 ^ 32
  tag : ∀ p ∈ w.points, p.tag.length < 2 ^ 32
  nameIds : ∀ p ∈ w.points, p.nameIds.length < 2 ^ 32
  whenGroups : w.whenGroups.length < 2 ^ 32
  sources : ∀ g ∈ w.whenGroups, g.sources.length < 2 ^ 32
  inMemory : (encodeBody 3 w).length < 2 ^ 62

/-- What every recording keeps: ids point into the table, and every point carries the
    algorithm of the knobs. -/
structure WriterInv (env : Seed2Env) (w : Seed2Writer) : Prop where
  interned : ∀ k id, w.idByKey k = some id → id.toNat < w.keys.length
  nameIds : ∀ p ∈ w.points, ∀ id ∈ p.nameIds, id.toNat < w.keys.length
  canonAlgo : ∀ p ∈ w.points, some p.canonAlgo = seed2CanonEnvAlgo env
  groups : ∀ g ∈ w.whenGroups, g.condKey.toNat < w.keys.length ∧
    ∀ id ∈ g.sources, id.toNat < w.keys.length
  open_ : w.finalized = false

namespace WriterInv

variable {env : Seed2Env} {w : Seed2Writer}

/-- Interning only appends to the table, and its id is inside. -/
theorem intern (inv : WriterInv env w) (key : Bytes) :
    WriterInv env (w.intern key).2 ∧ (w.intern key).1.toNat < (w.intern key).2.keys.length ∧
      w.keys.length ≤ (w.intern key).2.keys.length := by
  unfold Seed2Writer.intern
  cases found : w.idByKey key with
  | some id => exact ⟨inv, inv.interned key id found, le_refl _⟩
  | none =>
    have fresh : (UInt32.ofNat w.keys.length).toNat < (w.keys ++ [key]).length := by
      rw [UInt32.toNat_ofNat', List.length_append, List.length_singleton]
      exact Nat.lt_succ_of_le (Nat.mod_le _ _)
    have grow : w.keys.length ≤ (w.keys ++ [key]).length := by simp
    refine ⟨⟨?_, ?_, inv.canonAlgo, ?_, inv.open_⟩, fresh, grow⟩
    · intro k id h
      simp only at h
      split at h
      · cases h
        exact fresh
      · exact (inv.interned k id h).trans_le grow
    · exact fun p hp id hid => (inv.nameIds p hp id hid).trans_le grow
    · intro g hg
      obtain ⟨cond, sources⟩ := inv.groups g hg
      exact ⟨cond.trans_le grow, fun id hid => (sources id hid).trans_le grow⟩

theorem internAll (inv : WriterInv env w) (keys : List Bytes) :
    WriterInv env (w.internAll keys).2 ∧
      (∀ id ∈ (w.internAll keys).1, id.toNat < (w.internAll keys).2.keys.length) ∧
      w.keys.length ≤ (w.internAll keys).2.keys.length := by
  induction keys generalizing w with
  | nil => exact ⟨inv, fun _ h => absurd h List.not_mem_nil, le_refl _⟩
  | cons key keys ih =>
    obtain ⟨inv1, head, grow1⟩ := inv.intern key
    obtain ⟨inv2, tail, grow2⟩ := ih inv1
    refine ⟨inv2, ?_, grow1.trans grow2⟩
    intro id hid
    rcases List.mem_cons.mp hid with rfl | hid
    · exact head.trans_le grow2
    · exact tail id hid

theorem recordPoint (inv : WriterInv env w) {w' : Seed2Writer} {tag : Bytes}
    {sortedSuper : List Bytes} {canonHash : UInt64}
    (h : mtSeed2RecordPoint env tag sortedSuper canonHash w = some w') : WriterInv env w' := by
  obtain ⟨inv1, ids, -⟩ := inv.internAll sortedSuper
  cases algo : seed2CanonEnvAlgo env with
  | none => simp [mtSeed2RecordPoint, algo] at h
  | some canonAlgo =>
    simp only [mtSeed2RecordPoint, algo, Option.bind_eq_bind, Option.bind_some,
      Option.some.injEq] at h
    subst h
    refine ⟨inv1.interned, ?_, ?_, inv1.groups, inv1.open_⟩
    · intro p hp id hid
      rcases List.mem_append.mp hp with old | new
      · exact inv1.nameIds p old id hid
      · cases List.mem_singleton.mp new
        exact ids id hid
    · intro p hp
      rcases List.mem_append.mp hp with old | new
      · exact inv1.canonAlgo p old
      · cases List.mem_singleton.mp new
        exact algo.symm

theorem recordWhenGroup (inv : WriterInv env w) {w' : Seed2Writer} {cond : Bytes}
    {sources : List Bytes} (h : mtSeed2RecordWhenGroup cond sources w = some w') :
    WriterInv env w' := by
  obtain ⟨inv1, key, -⟩ := inv.intern cond
  obtain ⟨inv2, ids, grow⟩ := inv1.internAll sources
  unfold mtSeed2RecordWhenGroup at h
  split at h
  · cases h
  · cases h
    refine ⟨inv2.interned, inv2.nameIds, inv2.canonAlgo, ?_, inv2.open_⟩
    intro g hg
    rcases List.mem_append.mp hg with old | new
    · exact inv2.groups g old
    · cases List.mem_singleton.mp new
      exact ⟨key.trans_le grow, ids⟩

end WriterInv

/-- A whole recording run keeps the invariant. -/
theorem Recorded.inv {env : Seed2Env} {w : Seed2Writer} (run : Recorded env w) :
    WriterInv env w := by
  induction run with
  | empty =>
    refine ⟨?_, ?_, ?_, ?_, rfl⟩
    · intro k id h
      cases h
    · exact fun p hp => absurd hp List.not_mem_nil
    · exact fun p hp => absurd hp List.not_mem_nil
    · exact fun g hg => absurd hg List.not_mem_nil
  | setInputHash h _ step inv =>
    unfold mtSeed2SetInputHash at step
    split at step
    · cases step
    · cases step
      exact ⟨inv.interned, inv.nameIds, inv.canonAlgo, inv.groups, inv.open_⟩
  | recordPoint _ _ _ _ step inv => exact inv.recordPoint step
  | recordWhenGroup _ _ _ step inv => exact inv.recordWhenGroup step

/-! ## Header and payload -/

theorem noDigest_running : Running noDigest := ⟨fun _ => rfl, fun _ _ _ => rfl⟩

/-- The codec header of version 2 and 3, as `mtSeed2Finalize` patches it in. -/
def codecHeaderOf (z : Zlib) (env : Seed2Env) (body comp : Bytes) : CodecHeader where
  codec := UInt32.ofNat (codecOf env)
  level := UInt32.ofNat env.level
  rawPayload := UInt64.ofNat body.length
  wantCrc := z.crc32 z.crcInit body
  compPayload := UInt64.ofNat comp.length

def encodeCodecHeader (z : Zlib) (env : Seed2Env) (body comp : Bytes) : Bytes :=
  le 4 (codecOf env) ++ (le 4 env.level ++ (le 8 (UInt64.ofNat body.length).toNat ++
    (le 4 (z.crc32 z.crcInit body).toNat ++ le 8 comp.length)))

theorem parses_readCodecHeader (z : Zlib) (env : Seed2Env) (body comp : Bytes) :
    Parses noDigest readCodecHeader (encodeCodecHeader z env body comp)
      (codecHeaderOf z env body comp) := by
  have run := noDigest_running
  have raw := parses_readU64 run (UInt64.ofNat body.length).toNat
  have crc := parses_readU32 run (z.crc32 z.crcInit body).toNat
  rw [UInt64.ofNat_toNat] at raw
  rw [UInt32.ofNat_toNat] at crc
  have known : decide (UInt32.ofNat (codecOf env) = 0 ∨ UInt32.ofNat (codecOf env) = 1) = true := by
    unfold codecOf
    split <;> rfl
  apply (parses_readU32 run (codecOf env)).bind run
  apply (parses_readU32 run env.level).bind run
  apply raw.bind run
  apply crc.bind run
  rw [← List.append_nil (le 8 comp.length)]
  apply (parses_readU64 run comp.length).bind run
  exact Parses.require known (Parses.pure run _)

/-- The header of a file. -/
def headerOf (version : Nat) (w : Seed2Writer) (codec : Option CodecHeader) : Seed2Header where
  version := UInt32.ofNat version
  inputHash := w.inputHash
  generator := generatorTag
  pointCount := UInt32.ofNat w.points.length
  nameCount := UInt32.ofNat w.keys.length
  whenGroupCount := UInt32.ofNat w.whenGroups.length
  codec := codec

def encodeHeader (version : Nat) (w : Seed2Writer) (codec : Bytes) : Bytes :=
  SEED2_MAGIC ++ (le 4 version ++ (le 8 w.inputHash.toNat ++ (encodeStr generatorTag ++
    (le 4 w.points.length ++ (le 4 w.keys.length ++ (le 4 w.whenGroups.length ++ codec))))))

theorem length_generatorTag : generatorTag.length = 22 := by
  decide

/-- A header with any generator text. -/
theorem parses_readHeader_fields {version : Nat} (known : version = 1 ∨ version = 2 ∨ version = 3)
    (inputHash : UInt64) {generator : Bytes} (short : generator.length < 2 ^ 32)
    (points names groups : Nat) {codec : Option CodecHeader} {bytes : Bytes}
    (hc : Parses noDigest (readCodec (UInt32.ofNat version)) bytes codec) :
    Parses noDigest readHeader
      (SEED2_MAGIC ++ (le 4 version ++ (le 8 inputHash.toNat ++ (encodeStr generator ++
        (le 4 points ++ (le 4 names ++ (le 4 groups ++ bytes)))))))
      ⟨UInt32.ofNat version, inputHash, generator, UInt32.ofNat points, UInt32.ofNat names,
        UInt32.ofNat groups, codec⟩ := by
  have run := noDigest_running
  have hash := parses_readU64 run inputHash.toNat
  rw [UInt64.ofNat_toNat] at hash
  have supported : decide (UInt32.ofNat version = 1 ∨ UInt32.ofNat version = 2 ∨
      UInt32.ofNat version = 3) = true := by
    rcases known with rfl | rfl | rfl <;> rfl
  apply (Parses.readExact run SEED2_MAGIC).bind run
  apply Parses.require (by simp)
  apply (parses_readU32 run version).bind run
  apply Parses.require supported
  apply hash.bind run
  apply (parses_readStr run short).bind run
  apply (parses_readU32 run points).bind run
  apply (parses_readU32 run names).bind run
  apply (parses_readU32 run groups).bind run
  rw [← List.append_nil bytes]
  exact hc.bind run (Parses.pure run _)

theorem parses_readHeader {version : Nat} (known : version = 1 ∨ version = 2 ∨ version = 3)
    (w : Seed2Writer) {codec : Option CodecHeader} {bytes : Bytes}
    (hc : Parses noDigest (readCodec (UInt32.ofNat version)) bytes codec) :
    Parses noDigest readHeader (encodeHeader version w bytes) (headerOf version w codec) := by
  have short : generatorTag.length < 2 ^ 32 := by
    rw [length_generatorTag]
    decide
  exact parses_readHeader_fields known w.inputHash short _ _ _ hc

/-- What the format can say of one point. -/
structure PointFits (version : Nat) (p : Seed2Point) : Prop where
  tag : p.tag.length < 2 ^ 32
  nameIds : p.nameIds.length < 2 ^ 32
  untagged : version ≠ 3 → p.canonAlgo = .v1

/-- What the format can say of a whole payload. -/
structure BodyFits (version : Nat) (w : Seed2Writer) : Prop where
  keys : w.keys.length < 2 ^ 32
  key : ∀ k ∈ w.keys, k.length < 2 ^ 32
  points : w.points.length < 2 ^ 32
  point : ∀ p ∈ w.points, PointFits version p
  whenGroups : w.whenGroups.length < 2 ^ 32
  sources : ∀ g ∈ w.whenGroups, g.sources.length < 2 ^ 32

theorem CountsBelow.bodyFits {w : Seed2Writer} (counts : CountsBelow w) {version : Nat}
    (untagged : version ≠ 3 → ∀ p ∈ w.points, p.canonAlgo = .v1) : BodyFits version w :=
  ⟨counts.keys, counts.key, counts.points,
    fun p hp => ⟨counts.tag p hp, counts.nameIds p hp, fun h => untagged h p hp⟩,
    counts.whenGroups, counts.sources⟩

theorem parses_readBody {γ : Type} {update : γ → Bytes → γ} (run : Running update) {version : Nat}
    (known : version < 2 ^ 32) {w : Seed2Writer} (fits : BodyFits version w) :
    Parses update
      (readBody update (UInt32.ofNat version) (UInt32.ofNat w.keys.length)
        (UInt32.ofNat w.points.length) (UInt32.ofNat w.whenGroups.length))
      (encodeBody version w) (w.keys, w.points, w.whenGroups) := by
  have toNat : ∀ n : Nat, n < 2 ^ 32 → (UInt32.ofNat n).toNat = n := by
    intro n small
    rw [UInt32.toNat_ofNat', Nat.mod_eq_of_lt small]
  unfold readBody
  rw [toNat _ fits.keys, toNat _ fits.points, toNat _ fits.whenGroups]
  have keys := Parses.many run w.keys fun k hk => parses_readStr run (fits.key k hk)
  have points := Parses.many run w.points fun p hp =>
    parses_readPoint run known p (fits.point p hp).untagged (fits.point p hp).tag
      (fits.point p hp).nameIds
  have groups := Parses.many run w.whenGroups fun g hg =>
    parses_readWhenGroup run g (fits.sources g hg)
  apply keys.bind run
  apply points.bind run
  rw [← List.append_nil (w.whenGroups.flatMap encodeWhenGroup)]
  exact groups.bind run (Parses.pure run _)

/-! ## The reader's checks on a recorded state -/

theorem mul_length_le_flatMap {α : Type} (encode : α → Bytes) (xs : List α)
    (h : ∀ x, 4 ≤ (encode x).length) : xs.length * 4 ≤ (xs.flatMap encode).length := by
  induction xs with
  | nil => simp
  | cons x xs ih =>
    have head := h x
    rw [List.flatMap_cons, List.length_append, List.length_cons]
    omega

theorem length_flatMap_le {α : Type} {f g : α → Bytes} (xs : List α)
    (h : ∀ x, (f x).length ≤ (g x).length) : (xs.flatMap f).length ≤ (xs.flatMap g).length := by
  induction xs with
  | nil => simp
  | cons x xs ih =>
    have head := h x
    rw [List.flatMap_cons, List.flatMap_cons, List.length_append, List.length_append]
    omega

/-- The tagged layout is the longest. -/
theorem length_encodeBody_le (version : Nat) (w : Seed2Writer) :
    (encodeBody version w).length ≤ (encodeBody 3 w).length := by
  have points := length_flatMap_le (f := encodePoint version) (g := encodePoint 3) w.points (by
    intro p
    unfold encodePoint
    simp only [List.length_append]
    split <;> simp)
  unfold encodeBody
  simp only [List.length_append]
  omega

/-- Each counted thing costs at least four bytes of payload. -/
theorem counts_within_bounds (version : Nat) (w : Seed2Writer) :
    w.keys.length ≤ (encodeBody version w).length / 4 ∧
      w.points.length ≤ (encodeBody version w).length / 4 ∧
      w.whenGroups.length ≤ (encodeBody version w).length / 4 := by
  have keys := mul_length_le_flatMap encodeStr w.keys (by
    intro k
    simp [encodeStr])
  have points := mul_length_le_flatMap (encodePoint version) w.points (by
    intro p
    simp only [encodePoint, encodeStr, List.length_append, length_le]
    omega)
  have groups := mul_length_le_flatMap encodeWhenGroup w.whenGroups (by
    intro g
    simp [encodeWhenGroup])
  unfold encodeBody
  simp only [List.length_append]
  omega

theorem WriterInv.idsInRange {env : Seed2Env} {w : Seed2Writer} (inv : WriterInv env w) :
    idsInRange w.keys.length w.points w.whenGroups = true := by
  unfold Seed2.idsInRange
  simp only [Bool.and_eq_true, List.all_eq_true, decide_eq_true_eq]
  exact ⟨inv.nameIds, inv.groups⟩

/-- Only the tagged layout is ever asked to carry the second algorithm. -/
theorem WriterInv.untagged {env : Seed2Env} {w : Seed2Writer} (inv : WriterInv env w)
    (h : outVersion env w ≠ 3) : ∀ p ∈ w.points, p.canonAlgo = .v1 := by
  intro p hp
  cases algo : p.canonAlgo with
  | v1 => rfl
  | v2 =>
    have env_algo := inv.canonAlgo p hp
    unfold outVersion at h
    by_cases legacy : env.codec = .v1
    · -- the knobs refuse the second algorithm together with the legacy layout
      rw [algo, seed2CanonEnvAlgo] at env_algo
      split at env_algo
      · cases env_algo
      · rename_i refused
        exact absurd ⟨(Option.some.inj env_algo).symm, legacy⟩ refused
    · have any : w.points.any (fun q => decide (q.canonAlgo = .v2)) = true :=
        List.any_eq_true.mpr ⟨p, hp, by simp [algo]⟩
      rw [if_neg legacy, if_pos any] at h
      exact absurd rfl h

/-! ## The round trip -/

/-- The payload as it lies in the file. -/
def compOf (z : Zlib) (env : Seed2Env) (body : Bytes) : Bytes :=
  if env.codec = .zlib then z.deflate env.level body else body

def codecBytesOf (z : Zlib) (env : Seed2Env) (body : Bytes) : Bytes :=
  if env.codec = .v1 then [] else encodeCodecHeader z env body (compOf z env body)

def codecHeaderOption (z : Zlib) (env : Seed2Env) (body : Bytes) : Option CodecHeader :=
  if env.codec = .v1 then none else some (codecHeaderOf z env body (compOf z env body))

section RoundTrip

variable {z : Zlib} (law : z.Lawful) (env : Seed2Env) (w : Seed2Writer)

theorem outVersion_known : outVersion env w = 1 ∨ outVersion env w = 2 ∨ outVersion env w = 3 := by
  unfold outVersion
  split
  · exact .inl rfl
  · split
    · exact .inr (.inr rfl)
    · exact .inr (.inl rfl)

include law in
/-- The file is the header, the codec header and the payload. -/
theorem mtSeed2Finalize_eq (open_ : w.finalized = false) (some_ : w.points ≠ [])
    (hash : w.inputHashSet = true) :
    mtSeed2Finalize z env w =
      some (encodeHeader (outVersion env w) w (codecBytesOf z env (encodeBody (outVersion env w) w)) ++
        compOf z env (encodeBody (outVersion env w) w)) := by
  have points : w.points.isEmpty = false := by simpa using some_
  unfold mtSeed2Finalize
  simp only [open_, points, hash, Bool.or_self, Bool.false_eq_true, Bool.not_true, if_false]
  rw [body_eq law]
  unfold encodeHeader codecBytesOf encodeCodecHeader compOf encodeStr
  split <;> simp only [List.append_assoc, List.append_nil]

theorem parses_readCodec (body : Bytes) :
    Parses noDigest (readCodec (UInt32.ofNat (outVersion env w))) (codecBytesOf z env body)
      (codecHeaderOption z env body) := by
  unfold readCodec codecBytesOf codecHeaderOption
  by_cases legacy : env.codec = .v1
  · have version : outVersion env w = 1 := if_pos legacy
    rw [version, if_neg (by decide), if_pos legacy, if_pos legacy]
    exact Parses.pure noDigest_running none
  · have version : 2 ≤ UInt32.ofNat (outVersion env w) := by
      unfold outVersion
      rw [if_neg legacy]
      split <;> decide
    rw [if_pos version, if_neg legacy, if_neg legacy]
    exact (parses_readCodecHeader z env body _).map noDigest_running some

include law in
/-- The codec gives the payload back, in chunks. -/
theorem inputChunks_eq (body : Bytes) :
    ∃ chunks, inputChunks z (codecHeaderOption z env body) (compOf z env body) = some chunks ∧
      chunks.flatten = body := by
  have plain : ∃ chunks, some (toChunks BUF body) = some chunks ∧ chunks.flatten = body :=
    ⟨_, rfl, flatten_toChunks (by decide) body⟩
  unfold inputChunks codecHeaderOption compOf
  cases knob : env.codec with
  | zlib =>
    simp only [reduceCtorEq, if_false, if_true]
    have zlib : (codecHeaderOf z env body (z.deflate env.level body)).codec = 1 := by
      simp [codecHeaderOf, codecOf, knob, SEED2_CODEC_ZLIB]
    rw [if_pos zlib]
    exact law.inflate_deflate env.level body env.level_range.1 env.level_range.2
  | none =>
    simp only [reduceCtorEq, if_false]
    have none_ : ¬ (codecHeaderOf z env body body).codec = 1 := by
      simp [codecHeaderOf, codecOf, knob, SEED2_CODEC_NONE]
    rw [if_neg none_]
    exact plain
  | v1 =>
    simp only [reduceCtorEq, if_false, if_true]
    exact plain

include law in
/-- The payload's size survives the codec's own bound. -/
theorem length_compOf (body : Bytes) (small : body.length < 2 ^ 62) :
    (compOf z env body).length < 2 ^ 63 := by
  unfold compOf
  split
  · have bound := law.deflate_length env.level body
    omega
  · omega

theorem length_encodeHeader_le (version : Nat) (body : Bytes) :
    (encodeHeader version w (codecBytesOf z env body)).length ≤ 100 := by
  unfold encodeHeader codecBytesOf encodeCodecHeader encodeStr
  simp only [List.length_append, length_le, length_generatorTag]
  have magic : SEED2_MAGIC.length = 4 := rfl
  split <;> simp only [List.length_append, length_le, List.length_nil] <;> omega

include law in
/-- The loader reads the header back, and the codec gives the payload behind it. -/
theorem readHeader_encoded {body : Bytes} (small : body.length < 2 ^ 62) :
    ∃ fp chunks,
      readHeader ⟨encodeHeader (outVersion env w) w (codecBytesOf z env body) ++ compOf z env body, [],
          UInt64.ofNat (encodeHeader (outVersion env w) w (codecBytesOf z env body) ++
            compOf z env body).length, ()⟩ =
        some (headerOf (outVersion env w) w (codecHeaderOption z env body), fp) ∧
      fp.flat = compOf z env body ∧ fp.remaining = UInt64.ofNat (compOf z env body).length ∧
      inputChunks z (codecHeaderOption z env body) fp.flat = some chunks ∧ chunks.flatten = body := by
  have header := parses_readHeader (outVersion_known env w) w (parses_readCodec (z := z) env w body)
  have size : (encodeHeader (outVersion env w) w (codecBytesOf z env body) ++
      compOf z env body).length < 2 ^ 64 := by
    have comp := length_compOf law env body small
    have prefix_ := length_encodeHeader_le (z := z) env w (outVersion env w) body
    rw [List.length_append]
    omega
  obtain ⟨fp, readHeader_eq, fpFlat, fpRemaining, -⟩ :=
    header ⟨_, [], UInt64.ofNat _, ()⟩ (compOf z env body) (List.append_nil _) size rfl
  obtain ⟨chunks, chunks_eq, chunksFlat⟩ := inputChunks_eq law env body
  exact ⟨fp, chunks, readHeader_eq, fpFlat, fpRemaining, by rw [fpFlat, chunks_eq], chunksFlat⟩

include law in
theorem load_encoded (inv : WriterInv env w) (counts : CountsBelow w) {body : Bytes}
    (hbody : body = encodeBody (outVersion env w) w) :
    mtSeed2Load z (encodeHeader (outVersion env w) w (codecBytesOf z env body) ++ compOf z env body) =
      some { inputHash := w.inputHash, keys := w.keys, points := w.points,
             whenGroups := w.whenGroups } := by
  have small : body.length < 2 ^ 62 := by
    rw [hbody]
    exact (length_encodeBody_le _ w).trans_lt counts.inMemory
  have word : outVersion env w < 2 ^ 32 := by
    rcases outVersion_known env w with h | h | h <;> omega
  obtain ⟨fp, chunks, readHeader_eq, fpFlat, fpRemaining, chunks_eq, chunksFlat⟩ :=
    readHeader_encoded law env w small
  -- the payload
  have payload := parses_readBody law.running word (counts.bodyFits inv.untagged)
  rw [← hbody] at payload
  obtain ⟨input, readBody_eq, inputFlat, inputRemaining, inputDigest⟩ :=
    payload ⟨[], chunks, UInt64.ofNat body.length, z.crcInit⟩ [] (by
      rw [List.append_nil]
      exact chunksFlat) (by
      rw [List.append_nil]
      omega) (by rw [List.append_nil])
  -- the checks
  have bytes : payloadBytesOf (codecHeaderOption z env body) fp.remaining =
      some (UInt64.ofNat body.length) := by
    rw [fpRemaining]
    unfold payloadBytesOf codecHeaderOption
    by_cases legacy : env.codec = .v1
    · have plain : compOf z env body = body := if_neg (by rw [legacy]; decide)
      rw [if_pos legacy, plain]
    · rw [if_neg legacy]
      exact if_pos rfl
  have toNat : (UInt64.ofNat body.length).toNat = body.length := by
    rw [UInt64.toNat_ofNat', Nat.mod_eq_of_lt (by omega)]
  have withinBounds := counts_within_bounds (outVersion env w) w
  rw [← hbody] at withinBounds
  have toNat32 : ∀ n : Nat, n < 2 ^ 32 → (UInt32.ofNat n).toNat = n := by
    intro n hn
    rw [UInt32.toNat_ofNat', Nat.mod_eq_of_lt hn]
  have finish : finishPayload (codecHeaderOption z env body) input = true := by
    have rest := List.append_eq_nil_iff.mp inputFlat
    unfold finishPayload codecHeaderOption
    by_cases legacy : env.codec = .v1
    · rw [if_pos legacy]
    · rw [if_neg legacy]
      simp [inputRemaining, rest.2, inputDigest, codecHeaderOf, law.crcUpdate]
  unfold mtSeed2Load
  simp only [readHeader_eq, Option.bind_eq_bind, Option.bind_some, headerOf, bytes, toNat,
    toNat32 _ counts.keys, toNat32 _ counts.points, toNat32 _ counts.whenGroups, chunks_eq,
    readBody_eq, finish, inv.idsInRange, Bool.and_self, if_true]
  rw [if_pos withinBounds]

end RoundTrip

/-- **Round trip.**  Whatever was recorded under any knobs: a file is written once there is a
    point and the input hash is known, and every file that is written loads as exactly the
    recorded hash, names, points and groups. -/
theorem mtSeed2Load_mtSeed2Finalize {z : Zlib} (law : z.Lawful) {env : Seed2Env} {w : Seed2Writer}
    (run : Recorded env w) (counts : CountsBelow w) :
    ((w.points ≠ [] ∧ w.inputHashSet = true) ↔ ∃ file, mtSeed2Finalize z env w = some file) ∧
    ∀ file, mtSeed2Finalize z env w = some file →
      mtSeed2Load z file = some { inputHash := w.inputHash, keys := w.keys, points := w.points,
                                  whenGroups := w.whenGroups } := by
  have inv := run.inv
  have written : ∀ file, mtSeed2Finalize z env w = some file →
      w.points ≠ [] ∧ w.inputHashSet = true := by
    intro file wrote
    unfold mtSeed2Finalize at wrote
    split at wrote
    · cases wrote
    · rename_i nonempty
      split at wrote
      · cases wrote
      · rename_i hash
        refine ⟨?_, by simpa using hash⟩
        intro empty
        simp [empty] at nonempty
  refine ⟨⟨?_, ?_⟩, ?_⟩
  · rintro ⟨points, hash⟩
    exact ⟨_, mtSeed2Finalize_eq law env w inv.open_ points hash⟩
  · rintro ⟨file, wrote⟩
    exact written file wrote
  · intro file wrote
    obtain ⟨points, hash⟩ := written file wrote
    rw [mtSeed2Finalize_eq law env w inv.open_ points hash] at wrote
    cases wrote
    exact load_encoded law env w inv counts rfl

/-! ### A recorded state -/

/-- One bit of the reflected CRC-32 of zlib. -/
def crcBit (crc : UInt32) : UInt32 :=
  if crc &&& 1 = 1 then (crc >>> 1) ^^^ 0xedb88320 else crc >>> 1

def crcByte (crc : UInt32) (b : UInt8) : UInt32 :=
  crcBit (crcBit (crcBit (crcBit (crcBit (crcBit (crcBit (crcBit (crc ^^^ b.toUInt32))))))))

def crcBytes (crc : UInt32) (bytes : Bytes) : UInt32 := ~~~(bytes.foldl crcByte (~~~crc))

theorem crcBytes_running : Running crcBytes where
  nil crc := UInt32.not_not
  append crc a b := by
    unfold crcBytes
    rw [List.foldl_append, UInt32.not_not]

/-- The payload of `sampleWriter`. -/
def samplePayload : Bytes :=
  [3, 0, 0, 0, 116, 111, 112, 3, 0, 0, 0, 97, 108, 117, 5, 0, 0, 0, 109, 101, 114, 103, 101, 2,
   52, 18, 0, 0, 0, 0, 0, 0, 3, 0, 0, 0, 1, 0, 0, 0, 0, 0, 0, 0, 1, 0, 0, 0, 0, 0, 0, 0, 2, 0, 0,
   0, 1, 0, 0, 0, 0, 0, 0, 0]

/-- What zlib makes of it at level 6. -/
def sampleDeflated : Bytes :=
  [0x78, 0x9c, 0x63, 0x66, 0x60, 0x60, 0x28, 0xc9, 0x2f, 0x60, 0x06, 0x52, 0x89, 0x39, 0xa5, 0xac,
   0x40, 0x2a, 0x37, 0xb5, 0x28, 0x3d, 0x95, 0xc9, 0x44, 0x88, 0x01, 0x0c, 0x40, 0x12, 0x8c, 0x10,
   0x26, 0x9c, 0x66, 0x42, 0x62, 0x03, 0x00, 0xf8, 0xcc, 0x05, 0x01]

/-- zlib on this payload; anything else is stored behind a byte that starts no zlib stream. -/
def sampleZlib : Zlib where
  deflate level bytes := if level = 6 ∧ bytes = samplePayload then sampleDeflated else 0 :: bytes
  inflate bytes := if bytes = sampleDeflated then some [samplePayload] else some [bytes.tail]
  crcInit := 0
  crc32 := crcBytes

theorem sampleZlib_lawful : sampleZlib.Lawful where
  inflate_deflate level bytes _ _ := by
    by_cases sample : level = 6 ∧ bytes = samplePayload
    · refine ⟨[samplePayload], ?_, ?_⟩
      · simp [sampleZlib, sample]
      · simp [sample]
    · have stored : 0 :: bytes ≠ sampleDeflated := by
        intro eq
        exact absurd (List.head_eq_of_cons_eq eq) (by decide)
      refine ⟨[bytes], ?_, ?_⟩
      · simp [sampleZlib, sample, stored]
      · simp
  deflate_length level bytes := by
    by_cases sample : level = 6 ∧ bytes = samplePayload
    · obtain ⟨rfl, rfl⟩ := sample
      simp only [sampleZlib, and_self, if_true]
      decide
    · simp only [sampleZlib, if_neg sample, List.length_cons]
      omega
  crc32_running := crcBytes_running

def sampleEnv : Seed2Env := ⟨.zlib, 6, .v2, by decide⟩

def asBytes (s : String) : Bytes := s.toList.map fun c => UInt8.ofNat c.toNat

/-- Two names, a point that visits them in another order than they were interned, one group. -/
def sampleWriter : Seed2Writer where
  idByKey k := if k = asBytes "alu" then some 1 else if k = asBytes "top" then some 0 else none
  keys := [asBytes "top", asBytes "alu"]
  points := [{ tag := asBytes "merge", canonAlgo := .v2, canonHash := 0x1234, nameIds := [1, 0, 1] }]
  whenGroups := [{ condKey := 0, sources := [1, 0] }]
  inputHash := 77
  inputHashSet := true
  finalized := false

theorem sampleWriter_recorded : Recorded sampleEnv sampleWriter := by
  have hashed : Recorded sampleEnv { Seed2Writer.empty with inputHash := 77, inputHashSet := true } :=
    Recorded.setInputHash 77 Recorded.empty rfl
  have grouped := Recorded.recordWhenGroup (asBytes "top") [asBytes "alu", asBytes "top"] hashed rfl
  exact Recorded.recordPoint (asBytes "merge") [asBytes "alu", asBytes "top", asBytes "alu"] 0x1234
    grouped rfl

example : encodeBody 3 sampleWriter = samplePayload := by decide

theorem sampleWriter_countsBelow : CountsBelow sampleWriter := by
  refine ⟨?_, ?_, ?_, ?_, ?_, ?_, ?_, ?_⟩ <;> decide

theorem sampleWriter_roundTrip :
    ∃ file, mtSeed2Finalize sampleZlib sampleEnv sampleWriter = some file ∧
      mtSeed2Load sampleZlib file = some ⟨77, sampleWriter.keys, sampleWriter.points,
        sampleWriter.whenGroups⟩ := by
  obtain ⟨written, loads⟩ :=
    mtSeed2Load_mtSeed2Finalize sampleZlib_lawful sampleWriter_recorded sampleWriter_countsBelow
  obtain ⟨file, wrote⟩ := written.mp ⟨by decide, rfl⟩
  exact ⟨file, wrote, loads file wrote⟩

end Gsim.Seed2
