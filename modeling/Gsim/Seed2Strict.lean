/-
  Gsim/Seed2Strict.lean
  =====================
  **What an accepted seed looks like** (`mtSeed2Load`, `Seed2Input`).

  Read backwards: a parser that returned has taken exactly the bytes of what it returned
  out of the source (`Takes`), with the counter and the CRC moved on by them.  So the
  payload of an accepted file starts with the names, points and groups that were loaded.
  Whether anything follows them is another matter: the reader compares what it parsed
  with the announced length, not with what the codec delivers.
-/
import Gsim.Seed2RoundTrip

namespace Gsim.Seed2

open Gsim.ByteStream

/-! ## What a parser took -/

/-- The chunks not yet asked for when `n` bytes are read: a new one is fetched only when a byte of
    it is needed. -/
def chunksAfter (n : Nat) (buf : Bytes) (chunks : List Bytes) : List Bytes :=
  if n ≤ buf.length then chunks
  else match chunks with
    | [] => []
    | c :: cs => chunksAfter (n - buf.length) c cs

/-- `bytes` were taken out of the source `s`, which is left as `s'`. -/
structure Takes {γ : Type} (update : γ → Bytes → γ) (s : Source γ) (bytes : Bytes)
    (s' : Source γ) : Prop where
  flat : s.flat = bytes ++ s'.flat
  remaining : s'.remaining = s.remaining - UInt64.ofNat bytes.length
  digest : s'.digest = update s.digest bytes
  /-- where the chunks were cut depends on the number of bytes alone -/
  chunksAfter : ∀ n, chunksAfter n s'.buf s'.chunks = chunksAfter (bytes.length + n) s.buf s.chunks

theorem Takes.chunks_eq {γ : Type} {update : γ → Bytes → γ} {s s' : Source γ} {bytes : Bytes}
    (h : Takes update s bytes s') :
    s'.chunks = Seed2.chunksAfter bytes.length s.buf s.chunks := by
  have none_ : Seed2.chunksAfter 0 s'.buf s'.chunks = s'.chunks := by
    unfold Seed2.chunksAfter
    exact if_pos (Nat.zero_le _)
  rw [← none_]
  exact h.chunksAfter 0

section Takes

variable {γ : Type} {update : γ → Bytes → γ} (run : Running update)
include run

theorem Takes.refl (s : Source γ) : Takes update s [] s :=
  ⟨rfl, by simp, (run.nil _).symm, fun n => by rw [List.length_nil, Nat.zero_add]⟩

theorem Takes.trans {s s' s'' : Source γ} {a b : Bytes} (h : Takes update s a s')
    (h' : Takes update s' b s'') : Takes update s (a ++ b) s'' := by
  refine ⟨?_, ?_, ?_, ?_⟩
  · rw [h.flat, h'.flat, List.append_assoc]
  · rw [h'.remaining, h.remaining, List.length_append, UInt64.ofNat_add, sub_sub]
  · rw [h'.digest, h.digest, run.append]
  · intro n
    rw [h'.chunksAfter, h.chunksAfter, List.length_append, Nat.add_assoc]

omit run in
/-- Bytes that the buffer already has fetch nothing. -/
theorem chunksAfter_buffered {n : Nat} {buf : Bytes} (enough : n ≤ buf.length)
    (chunks : List Bytes) (m : Nat) :
    chunksAfter m (buf.drop n) chunks = chunksAfter (n + m) buf chunks := by
  have length : (buf.drop n).length = buf.length - n := List.length_drop
  cases chunks with
  | nil => simp [chunksAfter]
  | cons c cs =>
    unfold chunksAfter
    rw [length]
    by_cases more : m ≤ buf.length - n
    · rw [if_pos more, if_pos (by omega)]
    · rw [if_neg more, if_neg (by omega)]
      exact congrArg (chunksAfter · c cs) (by omega)

theorem pull_takes (chunks : List Bytes) {n : Nat} {buf out buf' : Bytes} {chunks' : List Bytes}
    {d d' : γ} (h : pull update n buf chunks d = some (out, buf', chunks', d')) :
    out.length = n ∧ buf ++ chunks.flatten = out ++ (buf' ++ chunks'.flatten) ∧
      d' = update d out ∧ ∀ m, chunksAfter m buf' chunks' = chunksAfter (n + m) buf chunks := by
  induction chunks generalizing n buf out d with
  | nil =>
    unfold pull at h
    split at h
    · rename_i enough
      cases h
      refine ⟨List.length_take_of_le enough, ?_, rfl, chunksAfter_buffered enough _⟩
      rw [← List.append_assoc, List.take_append_drop]
    · cases h
  | cons c cs ih =>
    unfold pull at h
    split at h
    · rename_i enough
      cases h
      refine ⟨List.length_take_of_le enough, ?_, rfl, chunksAfter_buffered enough _⟩
      rw [← List.append_assoc, List.take_append_drop]
    · rename_i more
      obtain ⟨⟨out', rest⟩, next, eq⟩ := Option.bind_eq_some_iff.mp h
      cases eq
      obtain ⟨length, flat, digest, after⟩ := ih next
      refine ⟨?_, ?_, ?_, ?_⟩
      · rw [List.length_append, length]
        omega
      · rw [List.flatten_cons, flat, List.append_assoc]
      · rw [digest, run.append]
      · intro m
        have beyond : ¬ n + m ≤ buf.length := by omega
        rw [after m]
        conv_rhs => unfold chunksAfter
        rw [if_neg beyond]
        exact congrArg (chunksAfter · c cs) (by omega)

theorem readExact_takes {n : Nat} {s s' : Source γ} {out : Bytes}
    (h : readExact update n s = some (out, s')) : out.length = n ∧ Takes update s out s' := by
  obtain ⟨⟨out', buf, chunks, digest⟩, pulled, eq⟩ := Option.bind_eq_some_iff.mp h
  cases eq
  obtain ⟨length, flat, digest, after⟩ := pull_takes run s.chunks pulled
  refine ⟨length, flat, ?_, digest, ?_⟩
  · rw [length]
  · rw [length]
    exact after

end Takes

/-- A parser in two steps. -/
theorem bind_some {γ α β : Type} {p : Parser γ α} {f : α → Parser γ β} {s s'' : Source γ} {u : β}
    (h : (p >>= f) s = some (u, s'')) : ∃ v s', p s = some (v, s') ∧ f v s' = some (u, s'') := by
  obtain ⟨⟨v, s'⟩, first, rest⟩ := Option.bind_eq_some_iff.mp h
  exact ⟨v, s', first, rest⟩

theorem checkRemaining_some {γ : Type} {cost : Nat} {s s' : Source γ} {u : Unit}
    (h : checkRemaining cost s = some (u, s')) : s' = s := by
  unfold checkRemaining at h
  split at h
  · cases h
    rfl
  · cases h

theorem require_some {γ : Type} {b : Bool} {s s' : Source γ} {u : Unit}
    (h : require b s = some (u, s')) : s' = s ∧ b = true := by
  unfold require at h
  split at h
  · rename_i hb
    cases h
    exact ⟨rfl, hb⟩
  · cases h

theorem pure_some {γ α : Type} {v u : α} {s s' : Source γ}
    (h : (pure v : Parser γ α) s = some (u, s')) : u = v ∧ s' = s := by
  cases h
  exact ⟨rfl, rfl⟩

/-! ## Integers -/

theorem ofLe_lt (b : Bytes) : ofLe b < 256 ^ b.length := by
  induction b with
  | nil => simp [ofLe]
  | cons x b ih =>
    have := x.toNat_lt
    rw [ofLe, List.length_cons, Nat.pow_succ']
    omega

theorem le_ofLe (b : Bytes) : le b.length (ofLe b) = b := by
  induction b with
  | nil => rfl
  | cons x b ih =>
    have small := x.toNat_lt
    have low : UInt8.ofNat (x.toNat + 256 * ofLe b) = x := by
      rw [← UInt8.toNat_inj, UInt8.toNat_ofNat']
      omega
    have high : (x.toNat + 256 * ofLe b) / 256 = ofLe b := by omega
    rw [List.length_cons, ofLe, le, low, high, ih]

section Parsers

variable {γ : Type} {update : γ → Bytes → γ} (run : Running update)
include run

theorem readU32_takes {s s' : Source γ} {v : UInt32} (h : readU32 update s = some (v, s')) :
    Takes update s (le 4 v.toNat) s' := by
  obtain ⟨b, s₁, read, rest⟩ := bind_some h
  obtain ⟨rfl, rfl⟩ := pure_some rest
  obtain ⟨length, takes⟩ := readExact_takes run read
  have small : ofLe b < 2 ^ 32 := (ofLe_lt b).trans_eq (by rw [length]; norm_num)
  rw [UInt32.toNat_ofNat', Nat.mod_eq_of_lt small, ← length, le_ofLe]
  exact takes

theorem readU64_takes {s s' : Source γ} {v : UInt64} (h : readU64 update s = some (v, s')) :
    Takes update s (le 8 v.toNat) s' := by
  obtain ⟨b, s₁, read, rest⟩ := bind_some h
  obtain ⟨rfl, rfl⟩ := pure_some rest
  obtain ⟨length, takes⟩ := readExact_takes run read
  have small : ofLe b < 2 ^ 64 := (ofLe_lt b).trans_eq (by rw [length]; norm_num)
  rw [UInt64.toNat_ofNat', Nat.mod_eq_of_lt small, ← length, le_ofLe]
  exact takes

theorem readStr_takes {s s' : Source γ} {v : Bytes} (h : readStr update s = some (v, s')) :
    v.length < 2 ^ 32 ∧ Takes update s (encodeStr v) s' := by
  obtain ⟨n, s₁, count, rest⟩ := bind_some h
  obtain ⟨_, s₂, checked, rest⟩ := bind_some rest
  cases checkRemaining_some checked
  obtain ⟨length, takes⟩ := readExact_takes run rest
  refine ⟨length ▸ n.toNat_lt, ?_⟩
  unfold encodeStr
  rw [length]
  exact (readU32_takes run count).trans run takes

omit run in
theorem decodeIds_spec (n : Nat) {b : Bytes} (h : b.length = n * 4) :
    (decodeIds b).length = n ∧ ((decodeIds b).flatMap fun id => le 4 id.toNat) = b := by
  induction n generalizing b with
  | zero =>
    cases List.length_eq_zero_iff.mp (by omega : b.length = 0)
    exact ⟨rfl, rfl⟩
  | succ n ih =>
    match b, h with
    | b0 :: b1 :: b2 :: b3 :: rest, h =>
      have short : rest.length = n * 4 := by
        simp only [List.length_cons] at h
        omega
      obtain ⟨length, flat⟩ := ih short
      have small : ofLe [b0, b1, b2, b3] < 2 ^ 32 :=
        (ofLe_lt [b0, b1, b2, b3]).trans_eq (by norm_num)
      have word := le_ofLe [b0, b1, b2, b3]
      refine ⟨?_, ?_⟩
      · rw [decodeIds, List.length_cons, length]
      · rw [decodeIds, List.flatMap_cons, flat, UInt32.toNat_ofNat', Nat.mod_eq_of_lt small]
        exact congrArg (· ++ rest) word
    -- one to three bytes make no id
    | [], h | [_], h | [_, _], h | [_, _, _], h =>
      simp only [List.length_cons, List.length_nil] at h
      omega

theorem readIds_takes {s s' : Source γ} {v : List UInt32} (h : readIds update s = some (v, s')) :
    v.length < 2 ^ 32 ∧ Takes update s (encodeIds v) s' := by
  obtain ⟨n, s₁, count, rest⟩ := bind_some h
  obtain ⟨_, s₂, checked, rest⟩ := bind_some rest
  cases checkRemaining_some checked
  obtain ⟨b, s₃, read, rest⟩ := bind_some rest
  obtain ⟨rfl, rfl⟩ := pure_some rest
  obtain ⟨length, takes⟩ := readExact_takes run read
  obtain ⟨ids, flat⟩ := decodeIds_spec n.toNat length
  refine ⟨ids ▸ n.toNat_lt, ?_⟩
  unfold encodeIds
  rw [ids, flat]
  exact (readU32_takes run count).trans run takes

/-! ## Points, groups and the whole payload -/

omit run in
theorem canonAlgoOf_some {b : Bytes} {algo : CanonAlgo} (h : canonAlgoOf b = some algo) :
    b = [algo.toUInt8] := by
  unfold canonAlgoOf at h
  split at h
  · rename_i one
    cases h
    exact one
  · split at h
    · rename_i two
      cases h
      exact two
    · cases h

theorem readCanonAlgo_takes {version : UInt32} {s s' : Source γ} {v : CanonAlgo}
    (h : readCanonAlgo update version s = some (v, s')) :
    (version.toNat ≠ 3 → v = .v1) ∧
      Takes update s (if version.toNat = 3 then [v.toUInt8] else []) s' := by
  unfold readCanonAlgo at h
  split at h
  · rename_i three
    obtain ⟨b, s₁, read, rest⟩ := bind_some h
    have tagged : version.toNat = 3 := congrArg UInt32.toNat three
    refine ⟨fun other => absurd tagged other, ?_⟩
    cases algo : canonAlgoOf b with
    | none =>
      rw [algo] at rest
      cases rest
    | some a =>
      rw [algo] at rest
      obtain ⟨rfl, rfl⟩ := pure_some rest
      cases canonAlgoOf_some algo
      rw [if_pos tagged]
      exact (readExact_takes run read).2
  · rename_i other
    obtain ⟨rfl, rfl⟩ := pure_some h
    have untagged : version.toNat ≠ 3 := fun eq => other (UInt32.toNat_inj.mp eq)
    rw [if_neg untagged]
    exact ⟨fun _ => rfl, Takes.refl run s'⟩

theorem readPoint_takes {version : UInt32} {s s' : Source γ} {p : Seed2Point}
    (h : readPoint update version s = some (p, s')) :
    PointFits version.toNat p ∧ Takes update s (encodePoint version.toNat p) s' := by
  obtain ⟨tag, s₁, first, rest⟩ := bind_some h
  obtain ⟨algo, s₂, second, rest⟩ := bind_some rest
  obtain ⟨hash, s₃, third, rest⟩ := bind_some rest
  obtain ⟨ids, s₄, fourth, rest⟩ := bind_some rest
  obtain ⟨rfl, rfl⟩ := pure_some rest
  obtain ⟨tagShort, tagTakes⟩ := readStr_takes run first
  obtain ⟨untagged, algoTakes⟩ := readCanonAlgo_takes run second
  have hashTakes := readU64_takes run third
  obtain ⟨idsShort, idsTakes⟩ := readIds_takes run fourth
  refine ⟨⟨tagShort, idsShort, untagged⟩, ?_⟩
  exact tagTakes.trans run (algoTakes.trans run (hashTakes.trans run idsTakes))

theorem readWhenGroup_takes {s s' : Source γ} {g : Seed2WhenGroup}
    (h : readWhenGroup update s = some (g, s')) :
    g.sources.length < 2 ^ 32 ∧ Takes update s (encodeWhenGroup g) s' := by
  obtain ⟨cond, s₁, first, rest⟩ := bind_some h
  obtain ⟨ids, s₂, second, rest⟩ := bind_some rest
  obtain ⟨rfl, rfl⟩ := pure_some rest
  obtain ⟨idsShort, idsTakes⟩ := readIds_takes run second
  exact ⟨idsShort, (readU32_takes run first).trans run idsTakes⟩

/-- A parser repeated `n` times took `n` values, one after the other. -/
theorem many_takes {α : Type} {p : Parser γ α} {encode : α → Bytes} {Fits : α → Prop}
    (one : ∀ s s' v, p s = some (v, s') → Fits v ∧ Takes update s (encode v) s') (n : Nat)
    {s s' : Source γ} {vs : List α} (h : many p n s = some (vs, s')) :
    vs.length = n ∧ (∀ v ∈ vs, Fits v) ∧ Takes update s (vs.flatMap encode) s' := by
  induction n generalizing s vs with
  | zero =>
    obtain ⟨rfl, rfl⟩ := pure_some h
    exact ⟨rfl, fun v hv => absurd hv List.not_mem_nil, Takes.refl run s'⟩
  | succ n ih =>
    obtain ⟨v, s₁, first, rest⟩ := bind_some h
    obtain ⟨vs', s₂, others, rest⟩ := bind_some rest
    obtain ⟨rfl, rfl⟩ := pure_some rest
    obtain ⟨fits, takes⟩ := one s s₁ v first
    obtain ⟨length, allFit, allTake⟩ := ih others
    refine ⟨by rw [List.length_cons, length], List.forall_mem_cons.mpr ⟨fits, allFit⟩, ?_⟩
    rw [List.flatMap_cons]
    exact takes.trans run allTake

/-- The payload of version `version`, loaded as `r`, was all there. -/
theorem readBody_takes {version nameCount pointCount whenGroupCount : UInt32} {s s' : Source γ}
    {keys : List Bytes} {points : List Seed2Point} {whenGroups : List Seed2WhenGroup}
    (h : readBody update version nameCount pointCount whenGroupCount s =
      some ((keys, points, whenGroups), s')) (w : Seed2Writer) (hk : w.keys = keys)
    (hp : w.points = points) (hg : w.whenGroups = whenGroups) :
    BodyFits version.toNat w ∧
      (w.keys.length = nameCount.toNat ∧ w.points.length = pointCount.toNat ∧
        w.whenGroups.length = whenGroupCount.toNat) ∧
      Takes update s (encodeBody version.toNat w) s' := by
  subst hk hp hg
  obtain ⟨ks, s₁, first, rest⟩ := bind_some h
  obtain ⟨ps, s₂, second, rest⟩ := bind_some rest
  obtain ⟨gs, s₃, third, rest⟩ := bind_some rest
  obtain ⟨eq, rfl⟩ := pure_some rest
  cases eq
  obtain ⟨keyCount, key, keyTakes⟩ := many_takes run (fun _ _ _ => readStr_takes run) _ first
  obtain ⟨count, point, pointTakes⟩ := many_takes run (fun _ _ _ => readPoint_takes run) _ second
  obtain ⟨groupCount, sources, groupTakes⟩ :=
    many_takes run (fun _ _ _ => readWhenGroup_takes run) _ third
  refine ⟨⟨?_, key, ?_, point, ?_, sources⟩, ⟨keyCount, count, groupCount⟩, ?_⟩
  · exact keyCount.trans_lt nameCount.toNat_lt
  · exact count.trans_lt pointCount.toNat_lt
  · exact groupCount.trans_lt whenGroupCount.toNat_lt
  · exact keyTakes.trans run (pointTakes.trans run groupTakes)

end Parsers

/-! ## The steps of a load -/

/-- `mtSeed2Load` went through with these intermediate values. -/
structure LoadRun (z : Zlib) (file : Bytes) (r : Seed2Reader) (header : Seed2Header)
    (fp : Source Unit) (payloadBytes : UInt64) (chunks : List Bytes) (input : Source UInt32) :
    Prop where
  header_eq : readHeader ⟨file, [], UInt64.ofNat file.length, ()⟩ = some (header, fp)
  announced : payloadBytesOf header.codec fp.remaining = some payloadBytes
  counts : header.nameCount.toNat ≤ payloadBytes.toNat / 4 ∧
    header.pointCount.toNat ≤ payloadBytes.toNat / 4 ∧
    header.whenGroupCount.toNat ≤ payloadBytes.toNat / 4
  pieces : inputChunks z header.codec fp.flat = some chunks
  body_eq : readBody (seed2CrcUpdate z) header.version header.nameCount header.pointCount
    header.whenGroupCount ⟨[], chunks, payloadBytes, z.crcInit⟩ =
      some ((r.keys, r.points, r.whenGroups), input)
  finish : finishPayload header.codec input = true
  ids : idsInRange r.keys.length r.points r.whenGroups = true
  inputHash : r.inputHash = header.inputHash

theorem LoadRun.load {z : Zlib} {file : Bytes} {r : Seed2Reader} {header : Seed2Header}
    {fp : Source Unit} {payloadBytes : UInt64} {chunks : List Bytes} {input : Source UInt32}
    (run : LoadRun z file r header fp payloadBytes chunks input) :
    mtSeed2Load z file = some r := by
  unfold mtSeed2Load
  simp only [run.header_eq, run.announced, run.pieces, run.body_eq, run.finish, run.ids,
    Option.bind_eq_bind, Option.bind_some, Bool.and_self, if_true]
  rw [if_pos run.counts, ← run.inputHash]

theorem mtSeed2Load_run {z : Zlib} {file : Bytes} {r : Seed2Reader}
    (h : mtSeed2Load z file = some r) :
    ∃ header fp payloadBytes chunks input,
      LoadRun z file r header fp payloadBytes chunks input := by
  obtain ⟨⟨header, fp⟩, readHeader, h⟩ := Option.bind_eq_some_iff.mp h
  obtain ⟨payloadBytes, bytes, h⟩ := Option.bind_eq_some_iff.mp h
  dsimp only at h
  split at h
  case isFalse => cases h
  rename_i counts
  obtain ⟨chunks, pieces, h⟩ := Option.bind_eq_some_iff.mp h
  obtain ⟨⟨⟨keys, points, whenGroups⟩, input⟩, body, h⟩ := Option.bind_eq_some_iff.mp h
  dsimp only at h
  split at h
  case isFalse => cases h
  rename_i checks
  cases h
  obtain ⟨finish, ids⟩ := Bool.and_eq_true_iff.mp checks
  exact ⟨header, fp, payloadBytes, chunks, input,
    ⟨readHeader, bytes, counts, pieces, body, finish, ids, rfl⟩⟩

/-- What was loaded, as the state that would have recorded it. -/
def Seed2Reader.asWriter (r : Seed2Reader) : Seed2Writer :=
  { Seed2Writer.empty with
    keys := r.keys, points := r.points, whenGroups := r.whenGroups, inputHash := r.inputHash }

section LoadRun

variable {z : Zlib} (law : z.Lawful) {file : Bytes} {r : Seed2Reader} {header : Seed2Header}
  {fp : Source Unit} {payloadBytes : UInt64} {chunks : List Bytes} {input : Source UInt32}

include law in
/-- The payload starts with what was loaded; `input` is left at the rest of it. -/
theorem LoadRun.takes (run : LoadRun z file r header fp payloadBytes chunks input) :
    Takes (seed2CrcUpdate z) ⟨[], chunks, payloadBytes, z.crcInit⟩
      (encodeBody header.version.toNat r.asWriter) input :=
  (readBody_takes law.running run.body_eq r.asWriter rfl rfl rfl).2.2

include law in
theorem LoadRun.flat (run : LoadRun z file r header fp payloadBytes chunks input) :
    chunks.flatten = encodeBody header.version.toNat r.asWriter ++ input.flat :=
  (run.takes law).flat

theorem LoadRun.payloadBytes_eq (run : LoadRun z file r header fp payloadBytes chunks input)
    {codec : CodecHeader} (hcodec : header.codec = some codec) :
    payloadBytes = codec.rawPayload := by
  have bytes := run.announced
  rw [hcodec] at bytes
  unfold payloadBytesOf at bytes
  dsimp only at bytes
  split at bytes
  · cases bytes
    rfl
  · cases bytes

theorem LoadRun.finished (run : LoadRun z file r header fp payloadBytes chunks input)
    {codec : CodecHeader} (hcodec : header.codec = some codec) :
    input.remaining = 0 ∧ input.digest = codec.wantCrc := by
  have finish := run.finish
  rw [hcodec] at finish
  simp only [finishPayload, Bool.and_eq_true, decide_eq_true_eq] at finish
  exact ⟨finish.1.1, finish.2⟩

include law in
/-- The counter came back to zero, so what was parsed has the announced length modulo `2^64`. -/
theorem LoadRun.parsed_length (run : LoadRun z file r header fp payloadBytes chunks input)
    {codec : CodecHeader} (hcodec : header.codec = some codec)
    (short : (encodeBody header.version.toNat r.asWriter).length < 2 ^ 64) :
    (encodeBody header.version.toNat r.asWriter).length = codec.rawPayload.toNat := by
  have owed := (run.takes law).remaining
  rw [(run.finished hcodec).1, run.payloadBytes_eq hcodec] at owed
  have zero : codec.rawPayload = UInt64.ofNat (encodeBody header.version.toNat r.asWriter).length :=
    sub_eq_zero.mp owed.symm
  rw [zero, UInt64.toNat_ofNat', Nat.mod_eq_of_lt short]

include law in
theorem LoadRun.parsed_crc (run : LoadRun z file r header fp payloadBytes chunks input)
    {codec : CodecHeader} (hcodec : header.codec = some codec) :
    codec.wantCrc = z.crc32 z.crcInit (encodeBody header.version.toNat r.asWriter) := by
  rw [← (run.finished hcodec).2, (run.takes law).digest, law.crcUpdate]

end LoadRun

/-! ## Framed files -/

/-- The header of a version 2 or 3 file and the payload that its codec delivers. -/
def framedPayload (z : Zlib) (file : Bytes) : Option (Seed2Header × CodecHeader × Bytes) := do
  let (header, fp) ← readHeader ⟨file, [], UInt64.ofNat file.length, ()⟩
  let codec ← header.codec
  let chunks ← inputChunks z header.codec fp.flat
  pure (header, codec, chunks.flatten)

/-- The payload is as long as announced, nothing but the names, points and groups that were
    loaded, all of it checksummed, and no id leaves the table. -/
structure StrictlyParsed (z : Zlib) (header : Seed2Header) (codec : CodecHeader) (payload : Bytes)
    (r : Seed2Reader) : Prop where
  length : payload.length = codec.rawPayload.toNat
  consumed : payload = encodeBody header.version.toNat r.asWriter
  crc : codec.wantCrc = z.crc32 z.crcInit payload
  ids : idsInRange r.keys.length r.points r.whenGroups = true

theorem LoadRun.strictlyParsed {z : Zlib} (law : z.Lawful) {file : Bytes} {r : Seed2Reader}
    {header : Seed2Header} {fp : Source Unit} {payloadBytes : UInt64} {chunks : List Bytes}
    {input : Source UInt32} (run : LoadRun z file r header fp payloadBytes chunks input)
    {codec : CodecHeader} (hcodec : header.codec = some codec)
    (noSurplus : chunks.flatten.length ≤ codec.rawPayload.toNat) :
    StrictlyParsed z header codec chunks.flatten r := by
  have flat := run.flat law
  have lengths := congrArg List.length flat
  rw [List.length_append] at lengths
  have short : (encodeBody header.version.toNat r.asWriter).length < 2 ^ 64 := by
    have := codec.rawPayload.toNat_lt
    omega
  have parsed := run.parsed_length law hcodec short
  have nothing : input.flat = [] := List.length_eq_zero_iff.mp (by omega)
  rw [nothing, List.append_nil] at flat
  refine ⟨by rw [flat, parsed], flat, ?_, run.ids⟩
  rw [flat]
  exact run.parsed_crc law hcodec

/-- Trailing bytes are noticed only in what the header announced: a codec that delivers more than
    that has the surplus dropped, be it in the read buffer or by the last calls to `inflate`.
    Without a surplus the acceptance is strict. -/
theorem mtSeed2Load_strictlyParsed_iff {z : Zlib} (law : z.Lawful) {file : Bytes} {r : Seed2Reader}
    (accepted : mtSeed2Load z file = some r) {header : Seed2Header} {codec : CodecHeader}
    {payload : Bytes} (framed : framedPayload z file = some (header, codec, payload)) :
    StrictlyParsed z header codec payload r ↔ payload.length ≤ codec.rawPayload.toNat := by
  obtain ⟨header', fp, payloadBytes, chunks, input, run⟩ := mtSeed2Load_run accepted
  have same : header' = header ∧ header.codec = some codec ∧ chunks.flatten = payload := by
    unfold framedPayload at framed
    simp only [run.header_eq, Option.bind_eq_bind, Option.bind_some, run.pieces] at framed
    obtain ⟨c, hc, eq⟩ := Option.bind_eq_some_iff.mp framed
    cases eq
    exact ⟨rfl, hc, rfl⟩
  obtain ⟨rfl, hcodec, rfl⟩ := same
  exact ⟨fun strict => strict.length.le, fun noSurplus => run.strictlyParsed law hcodec noSurplus⟩

/-- A recorded file frames the recorded payload. -/
theorem framedPayload_encoded {z : Zlib} (law : z.Lawful) {env : Seed2Env} (framed : env.codec ≠ .v1)
    (w : Seed2Writer) {body : Bytes} (small : body.length < 2 ^ 62) :
    framedPayload z (encodeHeader (outVersion env w) w (codecBytesOf z env body) ++ compOf z env body) =
      some (headerOf (outVersion env w) w (codecHeaderOption z env body),
        codecHeaderOf z env body (compOf z env body), body) := by
  obtain ⟨fp, chunks, readHeader_eq, -, -, pieces, flat⟩ := readHeader_encoded law env w small
  have codec : codecHeaderOption z env body = some (codecHeaderOf z env body (compOf z env body)) :=
    if_neg framed
  rw [codec] at readHeader_eq pieces ⊢
  simp only [framedPayload, readHeader_eq, headerOf, Option.bind_eq_bind, Option.bind_some, pieces]
  rw [flat]
  rfl

/-! ### A byte too many -/

theorem six_isLevel : 1 ≤ 6 ∧ 6 ≤ 9 := by decide

def plainEnv : Seed2Env := ⟨.none, 6, .v1, six_isLevel⟩

/-- One empty name, four bytes long. -/
def oneName : Seed2Writer := { Seed2Writer.empty with keys := [[]] }

/-- The header announces the name alone; the plain codec delivers `payload`. -/
def oneNameFile (payload : Bytes) : Bytes :=
  encodeHeader 2 oneName (encodeCodecHeader sampleZlib plainEnv (encodeBody 2 oneName) payload) ++
    payload

def oneNameCodec (payload : Bytes) : CodecHeader :=
  codecHeaderOf sampleZlib plainEnv (encodeBody 2 oneName) payload

theorem toChunks_one {k : Nat} {bytes : Bytes} (some_ : bytes ≠ []) (fits : bytes.length ≤ k)
    (pos : 0 < k) : toChunks k bytes = [bytes] := by
  have go : ¬ (bytes = [] ∨ k = 0) := by
    rintro (empty | zero)
    · exact some_ empty
    · omega
  rw [toChunks, if_neg go, List.take_of_length_le fits, List.drop_of_length_le fits, toChunks_nil]

/-- The first buffer holds the name and what stands behind it, which is never looked at. -/
theorem readBody_oneName {γ : Type} {update : γ → Bytes → γ} (run : Running update) (d : γ)
    (rest : Bytes) :
    readBody update 2 1 0 0 ⟨[], [encodeBody 2 oneName ++ rest], 4, d⟩ =
      some (([[]], [], []), ⟨rest, [], 0, update d (encodeBody 2 oneName)⟩) := by
  have zeros : encodeBody 2 oneName = [0, 0, 0, 0] := rfl
  simp [zeros, readBody, many, readStr, readU32, readExact, pull, checkRemaining, ofLe, bind,
    StateT.bind, pure, StateT.pure, run.nil]

theorem oneNameFile_load {rest : Bytes} (short : rest.length < 100) :
    mtSeed2Load sampleZlib (oneNameFile (encodeBody 2 oneName ++ rest)) = some ⟨0, [[]], [], []⟩ ∧
      framedPayload sampleZlib (oneNameFile (encodeBody 2 oneName ++ rest)) =
        some (headerOf 2 oneName (some (oneNameCodec (encodeBody 2 oneName ++ rest))),
          oneNameCodec (encodeBody 2 oneName ++ rest), encodeBody 2 oneName ++ rest) := by
  set payload := encodeBody 2 oneName ++ rest with hpayload
  have length : payload.length = 4 + rest.length := by
    rw [hpayload, List.length_append]
    rfl
  have codec : Parses noDigest (readCodec (UInt32.ofNat 2))
      (encodeCodecHeader sampleZlib plainEnv (encodeBody 2 oneName) payload)
      (some (oneNameCodec payload)) :=
    (parses_readCodecHeader sampleZlib plainEnv _ payload).map noDigest_running some
  have small : (oneNameFile payload).length < 2 ^ 64 := by
    unfold oneNameFile encodeHeader encodeCodecHeader encodeStr
    simp only [List.length_append, length_le, length_generatorTag, length]
    have magic : SEED2_MAGIC.length = 4 := rfl
    omega
  obtain ⟨fp, header, flat, remaining, -⟩ :=
    parses_readHeader (.inr (.inl rfl)) oneName codec
      ⟨oneNameFile payload, [], UInt64.ofNat (oneNameFile payload).length, ()⟩ payload
      (List.append_nil _) small rfl
  have pieces : inputChunks sampleZlib (some (oneNameCodec payload)) fp.flat = some [payload] := by
    have one : toChunks BUF payload = [payload] := by
      apply toChunks_one
      · exact List.ne_nil_of_length_pos (by omega)
      · unfold BUF
        omega
      · decide
    rw [flat, ← one]
    rfl
  refine ⟨?_, ?_⟩
  · have counts : (1 : UInt32).toNat ≤ (4 : UInt64).toNat / 4 ∧
        (0 : UInt32).toNat ≤ (4 : UInt64).toNat / 4 ∧
        (0 : UInt32).toNat ≤ (4 : UInt64).toNat / 4 := by decide
    have run : LoadRun sampleZlib (oneNameFile payload) ⟨0, [[]], [], []⟩
        (headerOf 2 oneName (some (oneNameCodec payload))) fp 4 [payload]
        ⟨rest, [], 0, sampleZlib.crc32 sampleZlib.crcInit (encodeBody 2 oneName)⟩ := by
      refine ⟨header, ?_, counts, pieces, ?_, ?_, rfl, rfl⟩
      · rw [remaining]
        exact if_pos rfl
      · rw [← sampleZlib_lawful.crcUpdate]
        exact readBody_oneName sampleZlib_lawful.running _ rest
      · simp [finishPayload, headerOf, oneNameCodec, codecHeaderOf]
    exact run.load
  · simp only [framedPayload, header, Option.bind_eq_bind, Option.bind_some, headerOf, pieces]
    simp

/-- Five bytes where four were announced. -/
theorem surplus_accepted :
    ∃ r header codec payload,
      mtSeed2Load sampleZlib (oneNameFile [0, 0, 0, 0, 7]) = some r ∧
      framedPayload sampleZlib (oneNameFile [0, 0, 0, 0, 7]) = some (header, codec, payload) ∧
      codec.rawPayload = 4 ∧ payload = [0, 0, 0, 0, 7] ∧
      ¬ StrictlyParsed sampleZlib header codec payload r := by
  have short : ([7] : Bytes).length < 100 := by decide
  obtain ⟨accepted, framed⟩ := oneNameFile_load short
  refine ⟨_, _, _, _, accepted, framed, rfl, rfl, ?_⟩
  intro strict
  exact absurd strict.length (by decide)

/-- The recorded names, point and group, deflated. -/
theorem mtSeed2Load_strictlyParsed_sample :
    ∃ file header codec payload, mtSeed2Finalize sampleZlib sampleEnv sampleWriter = some file ∧
      framedPayload sampleZlib file = some (header, codec, payload) ∧
      StrictlyParsed sampleZlib header codec payload
        ⟨77, sampleWriter.keys, sampleWriter.points, sampleWriter.whenGroups⟩ := by
  have law := sampleZlib_lawful
  have accepted := load_encoded law sampleEnv sampleWriter sampleWriter_recorded.inv
    sampleWriter_countsBelow rfl
  have small : (encodeBody (outVersion sampleEnv sampleWriter) sampleWriter).length < 2 ^ 62 := by
    decide
  have framed := framedPayload_encoded law (by decide : sampleEnv.codec ≠ .v1) sampleWriter small
  exact ⟨_, _, _, _, mtSeed2Finalize_eq law sampleEnv sampleWriter rfl (by decide) rfl, framed,
    (mtSeed2Load_strictlyParsed_iff law accepted framed).mpr (by decide)⟩

end Gsim.Seed2
