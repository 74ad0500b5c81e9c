/-
  Gsim/Seed2Transcode.lean
  ========================
  **Re-framing a seed** (`mtSeed2TranscodeMain`).

  The payload is copied without being parsed: as many bytes as the header announces, or,
  for version 1, as many as the file still has.  The output is a version 2 or 3 file, which
  the loader reads strictly, while a version 1 file may go on behind its last group.  That
  is the one difference: everything else that loads is transcoded into a file that loads
  as the same seed.
-/
import Gsim.Seed2Strict

namespace Gsim.Seed2

open Gsim.ByteStream

/-! ## The program -/

/-- The buffer of the copy loop. -/
def COPY : Nat := 2 ^ 20

theorem remaining_readExact {s s' : Source UInt32}
    {update : UInt32 → Bytes → UInt32} {buf : Bytes}
    (read : readExact update (min s.remaining.toNat COPY) s = some (buf, s')) :
    s'.remaining.toNat = s.remaining.toNat - min s.remaining.toNat COPY := by
  obtain ⟨⟨out, rest⟩, -, eq⟩ := Option.bind_eq_some_iff.mp read
  cases eq
  have bound := s.remaining.toNat_lt
  have small : min s.remaining.toNat COPY < 2 ^ 64 := by omega
  have le : UInt64.ofNat (min s.remaining.toNat COPY) ≤ s.remaining := by
    rw [UInt64.le_iff_toNat_le, UInt64.toNat_ofNat', Nat.mod_eq_of_lt small]
    exact Nat.min_le_left _ _
  show (s.remaining - UInt64.ofNat (min s.remaining.toNat COPY)).toNat = _
  rw [UInt64.toNat_sub_of_le _ _ le, UInt64.toNat_ofNat', Nat.mod_eq_of_lt small]

/-- While the source owes bytes: read a bufferful, write it. -/
def copyPayload (z : Zlib) (src : Source UInt32) (dst : Seed2Output) :
    Option (Source UInt32 × Seed2Output) :=
  if _more : src.remaining = 0 then some (src, dst)
  else match _read : readExact (seed2CrcUpdate z) (min src.remaining.toNat COPY) src with
    | none => none
    | some (buf, src') => copyPayload z src' (dst.write z buf)
termination_by src.remaining.toNat
decreasing_by
  have positive : 0 < src.remaining.toNat := by
    apply Nat.pos_of_ne_zero
    intro zero
    exact _more (UInt64.toNat_inj.mp zero)
  have copied : 0 < COPY := by decide
  rw [remaining_readExact _read]
  omega

/-- The output: the counts of the input, the codec header patched in at the end. -/
def transcodedFile (z : Zlib) (env : Seed2Env) (header : Seed2Header) (dst : Seed2Output) : Bytes :=
  let comp := if env.codec = .zlib then z.deflate env.level dst.raw else dst.raw
  SEED2_MAGIC ++ le 4 (if 3 ≤ header.version then 3 else 2) ++ le 8 header.inputHash.toNat ++
    (le 4 header.generator.length ++ header.generator) ++ le 4 header.pointCount.toNat ++
    le 4 header.nameCount.toNat ++ le 4 header.whenGroupCount.toNat ++
    le 4 (codecOf env) ++ le 4 env.level ++
    (le 8 dst.rawBytes.toNat ++ le 4 dst.crc.toNat ++ le 8 comp.length) ++ comp

/-- The codec knob has no `v1` here; a version 1 input has to be at its end. -/
def mtSeed2TranscodeMain (z : Zlib) (env : Seed2Env) (file : Bytes) : Option Bytes := do
  if env.codec = .v1 then none
  let (header, fin) ← readHeader ⟨file, [], UInt64.ofNat file.length, ()⟩
  let rawPayload ← payloadBytesOf header.codec fin.remaining
  let maxEntries := rawPayload.toNat / 4
  if header.nameCount.toNat ≤ maxEntries ∧ header.pointCount.toNat ≤ maxEntries ∧
      header.whenGroupCount.toNat ≤ maxEntries then
    let chunks ← inputChunks z header.codec fin.flat
    let (src, dst) ← copyPayload z ⟨[], chunks, rawPayload, z.crcInit⟩ (Seed2Output.openOutput z)
    if finishPayload header.codec src &&
        (header.version ≠ 1 || src.chunks.flatten.length = 0) && dst.rawBytes = rawPayload then
      some (transcodedFile z env header dst)
    else none
  else none

/-! ## The copy loop -/

section Copy

variable {z : Zlib} (law : z.Lawful)
include law

/-- What the loop moves: all that the source owes, and nothing else. -/
theorem copyPayload_some (src : Source UInt32) (dst : Seed2Output) {src' : Source UInt32}
    {dst' : Seed2Output} (h : copyPayload z src dst = some (src', dst')) :
    ∃ bytes, bytes.length = src.remaining.toNat ∧ Takes (seed2CrcUpdate z) src bytes src' ∧
      Wrote z dst bytes dst' := by
  fun_induction copyPayload z src dst with
  | case1 src dst done =>
    cases h
    exact ⟨[], by simp [done], Takes.refl law.running _, Wrote.refl law _⟩
  | case2 src dst more read => cases h
  | case3 src dst more buf next read ih =>
    obtain ⟨bytes, length, takes, wrote⟩ := ih h
    obtain ⟨bufLength, bufTakes⟩ := readExact_takes law.running read
    refine ⟨buf ++ bytes, ?_, bufTakes.trans law.running takes,
      (wrote_write law dst buf).trans law wrote⟩
    rw [List.length_append, bufLength, length, remaining_readExact read]
    omega

omit law in
theorem readExact_isSome {γ : Type} {update : γ → Bytes → γ} (run : Running update) {n : Nat}
    {s : Source γ} (enough : n ≤ s.flat.length) : ∃ out s', readExact update n s = some (out, s') := by
  have length : (s.flat.take n).length = n := List.length_take_of_le enough
  obtain ⟨buf, chunks, eq, -⟩ := pull_spec run s.chunks s.buf (s.flat.take n) (s.flat.drop n) s.digest
    (List.take_append_drop n s.flat).symm
  rw [length] at eq
  exact ⟨_, _, by simp only [readExact, eq]; rfl⟩

/-- The loop ends well on a source that has what it owes. -/
theorem copyPayload_isSome (src : Source UInt32) (dst : Seed2Output)
    (enough : src.remaining.toNat ≤ src.flat.length) :
    ∃ src' dst', copyPayload z src dst = some (src', dst') := by
  fun_induction copyPayload z src dst with
  | case1 src dst done => exact ⟨src, dst, rfl⟩
  | case2 src dst more read =>
    have here : min src.remaining.toNat COPY ≤ src.flat.length := by omega
    obtain ⟨out, s', eq⟩ := readExact_isSome law.running here
    rw [read] at eq
    cases eq
  | case3 src dst more buf next read ih =>
    obtain ⟨bufLength, bufTakes⟩ := readExact_takes law.running read
    have lengths := congrArg List.length bufTakes.flat
    rw [List.length_append, bufLength] at lengths
    apply ih
    rw [remaining_readExact read]
    omega

end Copy

/-! ## The header of a file that was read -/

/-- What reading a header makes sure of. -/
structure HeaderFits (header : Seed2Header) : Prop where
  version : header.version = 1 ∨ header.version = 2 ∨ header.version = 3
  generator : header.generator.length < 2 ^ 32
  codec : header.codec = none ↔ header.version = 1

theorem map_some {γ α β : Type} {p : Parser γ α} {g : α → β} {s s' : Source γ} {u : β}
    (h : (g <$> p) s = some (u, s')) : ∃ v, p s = some (v, s') ∧ u = g v := by
  obtain ⟨⟨v, s''⟩, first, eq⟩ := Option.bind_eq_some_iff.mp h
  cases eq
  exact ⟨v, first, rfl⟩

theorem readCodec_takes {version : UInt32} {s s' : Source Unit} {codec : Option CodecHeader}
    (h : readCodec version s = some (codec, s')) :
    (codec = none ↔ ¬ 2 ≤ version) ∧ ∃ bytes, Takes noDigest s bytes s' := by
  have run := noDigest_running
  unfold readCodec at h
  split at h
  · rename_i framed
    obtain ⟨c, read, rfl⟩ := map_some h
    obtain ⟨_, s₁, first, r₁⟩ := bind_some read
    obtain ⟨_, s₂, second, r₂⟩ := bind_some r₁
    obtain ⟨_, s₃, third, r₃⟩ := bind_some r₂
    obtain ⟨_, s₄, fourth, r₄⟩ := bind_some r₃
    obtain ⟨_, s₅, fifth, r₅⟩ := bind_some r₄
    obtain ⟨_, s₆, known, r₆⟩ := bind_some r₅
    obtain ⟨rfl, -⟩ := require_some known
    obtain ⟨rfl, rfl⟩ := pure_some r₆
    have takes := (readU32_takes run first).trans run ((readU32_takes run second).trans run
      ((readU64_takes run third).trans run ((readU32_takes run fourth).trans run
        (readU64_takes run fifth))))
    exact ⟨by simp [framed], _, takes⟩
  · rename_i legacy
    obtain ⟨rfl, rfl⟩ := pure_some h
    exact ⟨by simp [legacy], [], Takes.refl run s'⟩

theorem readHeader_takes {s s' : Source Unit} {header : Seed2Header}
    (h : readHeader s = some (header, s')) :
    HeaderFits header ∧ ∃ bytes, Takes noDigest s bytes s' := by
  have run := noDigest_running
  obtain ⟨magic, s₁, first, r₁⟩ := bind_some h
  obtain ⟨_, s₂, isMagic, r₂⟩ := bind_some r₁
  obtain ⟨rfl, -⟩ := require_some isMagic
  obtain ⟨version, s₃, second, r₃⟩ := bind_some r₂
  obtain ⟨_, s₄, supported, r₄⟩ := bind_some r₃
  obtain ⟨rfl, known⟩ := require_some supported
  obtain ⟨hash, s₅, third, r₅⟩ := bind_some r₄
  obtain ⟨generator, s₆, fourth, r₆⟩ := bind_some r₅
  obtain ⟨points, s₇, fifth, r₇⟩ := bind_some r₆
  obtain ⟨names, s₈, sixth, r₈⟩ := bind_some r₇
  obtain ⟨groups, s₉, seventh, r₉⟩ := bind_some r₈
  obtain ⟨codec, s₁₀, eighth, r₁₀⟩ := bind_some r₉
  obtain ⟨rfl, rfl⟩ := pure_some r₁₀
  obtain ⟨generatorShort, generatorTakes⟩ := readStr_takes run fourth
  obtain ⟨framed, codecBytes, codecTakes⟩ := readCodec_takes eighth
  have versions : version = 1 ∨ version = 2 ∨ version = 3 := of_decide_eq_true known
  have legacy : ¬ 2 ≤ version ↔ version = 1 := by
    rcases versions with rfl | rfl | rfl <;> decide
  have takes := (readExact_takes run first).2.trans run ((readU32_takes run second).trans run
    ((readU64_takes run third).trans run (generatorTakes.trans run
      ((readU32_takes run fifth).trans run ((readU32_takes run sixth).trans run
        ((readU32_takes run seventh).trans run codecTakes))))))
  exact ⟨⟨versions, generatorShort, framed.trans legacy⟩, _, takes⟩

/-- The rest of a file is as long as its counter says. -/
theorem Takes.remaining_file {file bytes : Bytes} {fp : Source Unit}
    (takes : Takes noDigest ⟨file, [], UInt64.ofNat file.length, ()⟩ bytes fp) :
    fp.remaining = UInt64.ofNat fp.flat.length ∧ fp.flat.length ≤ file.length := by
  have flat : file = bytes ++ fp.flat := by
    rw [← takes.flat]
    exact (List.append_nil file).symm
  refine ⟨?_, ?_⟩
  · have owed := takes.remaining
    rw [flat, List.length_append] at owed
    rw [owed, UInt64.ofNat_add, add_sub_cancel_left]
  · have lengths := congrArg List.length flat
    rw [List.length_append] at lengths
    omega

/-! ## Reading the output -/

/-- The output keeps version 3, for the tags in the payload; the others become version 2. -/
def transcodedVersion (header : Seed2Header) : Nat := if 3 ≤ header.version then 3 else 2

/-- What is read back from the output's header. -/
def transcodedHeader (header : Seed2Header) (codec : CodecHeader) : Seed2Header :=
  { header with version := UInt32.ofNat (transcodedVersion header), codec := some codec }

section Output

variable {z : Zlib} (law : z.Lawful) {env : Seed2Env} (framed : env.codec ≠ .v1)
  {header : Seed2Header} (fits : HeaderFits header)

/-- The sink once `body` went through it. -/
def copied (z : Zlib) (body : Bytes) : Seed2Output :=
  ⟨body, UInt64.ofNat body.length, z.crc32 z.crcInit body⟩

theorem transcodedVersion_known :
    transcodedVersion header = 1 ∨ transcodedVersion header = 2 ∨ transcodedVersion header = 3 := by
  unfold transcodedVersion
  split
  · exact .inr (.inr rfl)
  · exact .inr (.inl rfl)

/-- The bytes of the output, grouped as they are read. -/
theorem transcodedFile_eq (env : Seed2Env) (header : Seed2Header) (body : Bytes) :
    transcodedFile z env header (copied z body) =
      (SEED2_MAGIC ++ (le 4 (transcodedVersion header) ++ (le 8 header.inputHash.toNat ++
        (encodeStr header.generator ++ (le 4 header.pointCount.toNat ++
          (le 4 header.nameCount.toNat ++ (le 4 header.whenGroupCount.toNat ++
            encodeCodecHeader z env body (compOf z env body)))))))) ++ compOf z env body := by
  simp only [transcodedFile, copied, encodeStr, encodeCodecHeader, compOf, transcodedVersion,
    List.append_assoc]

include law framed fits in
/-- The loader finds the header, the announced size and a codec that delivers `body`. -/
theorem transcodedFile_reads {body : Bytes} (small : body.length < 2 ^ 63) :
    ∃ fp chunks,
      readHeader ⟨transcodedFile z env header (copied z body), [],
          UInt64.ofNat (transcodedFile z env header (copied z body)).length, ()⟩ =
        some (transcodedHeader header (codecHeaderOf z env body (compOf z env body)), fp) ∧
      payloadBytesOf (some (codecHeaderOf z env body (compOf z env body))) fp.remaining =
        some (UInt64.ofNat body.length) ∧
      inputChunks z (some (codecHeaderOf z env body (compOf z env body))) fp.flat = some chunks ∧
      chunks.flatten = body := by
  have codec : Parses noDigest (readCodec (UInt32.ofNat (transcodedVersion header)))
      (encodeCodecHeader z env body (compOf z env body))
      (some (codecHeaderOf z env body (compOf z env body))) := by
    have version : 2 ≤ UInt32.ofNat (transcodedVersion header) := by
      unfold transcodedVersion
      split <;> decide
    unfold readCodec
    rw [if_pos version]
    exact (parses_readCodecHeader z env body _).map noDigest_running some
  have parses := parses_readHeader_fields transcodedVersion_known header.inputHash fits.generator
    header.pointCount.toNat header.nameCount.toNat header.whenGroupCount.toNat codec
  have size : (transcodedFile z env header (copied z body)).length < 2 ^ 64 := by
    have comp : (compOf z env body).length ≤ body.length + body.length / 2 ^ 12 +
        body.length / 2 ^ 14 + body.length / 2 ^ 25 + 13 := by
      unfold compOf
      split
      · exact law.deflate_length env.level body
      · omega
    have generator := fits.generator
    have magic : SEED2_MAGIC.length = 4 := rfl
    rw [transcodedFile_eq]
    simp only [List.length_append, length_le, encodeStr, encodeCodecHeader, magic]
    omega
  rw [transcodedFile_eq] at size ⊢
  obtain ⟨fp, readHeader_eq, flat, remaining, -⟩ :=
    parses ⟨_, [], UInt64.ofNat _, ()⟩ (compOf z env body) (List.append_nil _) size rfl
  obtain ⟨chunks, chunks_eq, chunksFlat⟩ := inputChunks_eq law env body
  rw [codecHeaderOption, if_neg framed] at chunks_eq
  refine ⟨fp, chunks, ?_, ?_, ?_, chunksFlat⟩
  · rw [readHeader_eq, UInt32.ofNat_toNat, UInt32.ofNat_toNat, UInt32.ofNat_toNat]
    rfl
  · rw [remaining]
    exact if_pos rfl
  · rw [flat]
    exact chunks_eq

end Output

/-! ## From one loader to the other -/

/-- Only version 3 looks different. -/
theorem encodeBody_eq_of_tagged_iff {version version' : Nat} (same : version = 3 ↔ version' = 3)
    (w : Seed2Writer) : encodeBody version w = encodeBody version' w := by
  have points : encodePoint version = encodePoint version' := by
    funext p
    unfold encodePoint
    simp only [same]
  unfold encodeBody
  rw [points]

theorem transcodedVersion_tagged {header : Seed2Header} (fits : HeaderFits header) :
    header.version.toNat = 3 ↔ transcodedVersion header = 3 := by
  unfold transcodedVersion
  rcases fits.version with one | two | three
  · rw [one]
    decide
  · rw [two]
    decide
  · rw [three]
    decide

theorem BodyFits.of_tagged_iff {version version' : Nat} (same : version = 3 ↔ version' = 3)
    {w : Seed2Writer} (fits : BodyFits version w) : BodyFits version' w :=
  ⟨fits.keys, fits.key, fits.points,
    fun p hp => ⟨(fits.point p hp).tag, (fits.point p hp).nameIds,
      fun h => (fits.point p hp).untagged (fun h' => h (same.mp h'))⟩,
    fits.whenGroups, fits.sources⟩

theorem Wrote.eq_copied {z : Zlib} {body : Bytes} {dst : Seed2Output}
    (wrote : Wrote z (Seed2Output.openOutput z) body dst) : dst = copied z body := by
  obtain ⟨raw, rawBytes, crc⟩ := wrote
  cases dst with
  | mk r b c =>
    simp only [Seed2Output.openOutput, List.nil_append, zero_add] at raw rawBytes crc
    rw [copied, raw, rawBytes, crc]

section Transcode

variable {z : Zlib} (law : z.Lawful) {env : Seed2Env} (framed : env.codec ≠ .v1) {file : Bytes}
  {r : Seed2Reader} {header : Seed2Header} {fp : Source Unit} {payloadBytes : UInt64}
  {chunks : List Bytes} {input : Source UInt32}

include law in
/-- When the loader parsed as much as was announced, the copy is what it parsed. -/
theorem LoadRun.copy (run : LoadRun z file r header fp payloadBytes chunks input) {body : Bytes}
    (hbody : body = encodeBody header.version.toNat r.asWriter)
    (length : body.length = payloadBytes.toNat) :
    ∃ src, copyPayload z ⟨[], chunks, payloadBytes, z.crcInit⟩ (Seed2Output.openOutput z) =
        some (src, copied z body) ∧
      Takes (seed2CrcUpdate z) ⟨[], chunks, payloadBytes, z.crcInit⟩ body src := by
  have flat : chunks.flatten = body ++ input.flat := by
    rw [hbody]
    exact run.flat law
  have enough : payloadBytes.toNat ≤ chunks.flatten.length := by
    rw [flat, List.length_append]
    omega
  obtain ⟨src, dst, copy⟩ := copyPayload_isSome law
    ⟨[], chunks, payloadBytes, z.crcInit⟩ (Seed2Output.openOutput z) enough
  obtain ⟨bytes, bytesLength, takes, wrote⟩ := copyPayload_some law _ _ copy
  have same : bytes = body := by
    have both : bytes ++ src.flat = body ++ input.flat := by
      rw [← takes.flat, ← flat]
      rfl
    exact (List.append_inj both (bytesLength.trans length.symm)).1
  subst same
  rw [wrote.eq_copied] at copy
  exact ⟨src, copy, takes⟩

include law framed in
/-- Such a file is transcoded. -/
theorem LoadRun.transcode (run : LoadRun z file r header fp payloadBytes chunks input) {body : Bytes}
    (hbody : body = encodeBody header.version.toNat r.asWriter)
    (length : body.length = payloadBytes.toNat)
    (ends : header.version = 1 → chunks.flatten = body) :
    mtSeed2TranscodeMain z env file = some (transcodedFile z env header (copied z body)) := by
  obtain ⟨src, copy, takes⟩ := run.copy law hbody length
  have loadTakes := run.takes law
  rw [← hbody] at loadTakes
  -- both readers stand behind the same byte, with the same counter and checksum
  have chunks_eq : src.chunks = input.chunks := by
    rw [takes.chunks_eq, loadTakes.chunks_eq]
  have remaining_eq : src.remaining = input.remaining := by
    rw [takes.remaining, loadTakes.remaining]
  have digest_eq : src.digest = input.digest := by
    rw [takes.digest, loadTakes.digest]
  have finish : finishPayload header.codec src = true := by
    have finished := run.finish
    unfold finishPayload at finished ⊢
    rw [chunks_eq, remaining_eq, digest_eq]
    exact finished
  have atEnd : (header.version ≠ 1 || src.chunks.flatten.length = 0) = true := by
    by_cases legacy : header.version = 1
    · have all : chunks.flatten = body ++ src.flat := takes.flat
      rw [ends legacy] at all
      have nothing : src.flat = [] := List.append_cancel_left (by rw [← all, List.append_nil])
      have rest := (List.append_eq_nil_iff.mp nothing).2
      simp [rest]
    · simp [legacy]
  have counted : decide ((copied z body).rawBytes = payloadBytes) = true := by
    rw [decide_eq_true_eq]
    show UInt64.ofNat body.length = payloadBytes
    rw [length, UInt64.ofNat_toNat]
  unfold mtSeed2TranscodeMain
  rw [if_neg framed]
  simp only [run.header_eq, run.announced, run.pieces, copy, finish, atEnd, counted,
    Option.bind_eq_bind, Option.bind_some, Bool.and_self, if_true]
  rw [if_pos run.counts]

include law framed in
/-- The output loads as the same seed. -/
theorem LoadRun.load_transcoded (run : LoadRun z file r header fp payloadBytes chunks input)
    {body : Bytes} (hbody : body = encodeBody header.version.toNat r.asWriter)
    (length : body.length = payloadBytes.toNat) (small : body.length < 2 ^ 63) :
    mtSeed2Load z (transcodedFile z env header (copied z body)) = some r := by
  obtain ⟨fits, -⟩ := readHeader_takes run.header_eq
  obtain ⟨bodyFits, ⟨keyCount, pointCount, groupCount⟩, -⟩ :=
    readBody_takes law.running run.body_eq r.asWriter rfl rfl rfl
  have tagged := transcodedVersion_tagged fits
  obtain ⟨fp', chunks', readHeader_eq, announced, pieces, flat⟩ :=
    transcodedFile_reads law framed fits small
  have known : transcodedVersion header < 2 ^ 32 := by
    rcases @transcodedVersion_known header with h | h | h <;> omega
  have parses := parses_readBody law.running known (bodyFits.of_tagged_iff tagged)
  rw [keyCount, pointCount, groupCount, UInt32.ofNat_toNat, UInt32.ofNat_toNat, UInt32.ofNat_toNat,
    ← encodeBody_eq_of_tagged_iff tagged, ← hbody] at parses
  obtain ⟨input', body_eq, inputFlat, inputRemaining, inputDigest⟩ :=
    parses ⟨[], chunks', UInt64.ofNat body.length, z.crcInit⟩ [] (by
      rw [List.append_nil]
      exact flat) (by
      rw [List.append_nil]
      omega) (by rw [List.append_nil])
  have toNat : (UInt64.ofNat body.length).toNat = payloadBytes.toNat := by
    rw [length, UInt64.ofNat_toNat]
  have rest := (List.append_eq_nil_iff.mp inputFlat).2
  have outRun : LoadRun z (transcodedFile z env header (copied z body)) r
      (transcodedHeader header (codecHeaderOf z env body (compOf z env body))) fp'
      (UInt64.ofNat body.length) chunks' input' := by
    refine ⟨readHeader_eq, announced, ?_, pieces, body_eq, ?_, run.ids, run.inputHash⟩
    · rw [toNat]
      exact run.counts
    · simp [transcodedHeader, finishPayload, inputRemaining, rest, inputDigest, codecHeaderOf,
        law.crcUpdate]
  exact outRun.load

include law framed in
/-- A version 1 file is copied to its end, so the output loads as the same seed only if the
    payload ended there. -/
theorem LoadRun.ends_of_load_transcoded
    (run : LoadRun z file r header fp payloadBytes chunks input) (legacy : header.version = 1)
    (size : file.length < 2 ^ 63) {out : Bytes} (transcoded : mtSeed2TranscodeMain z env file = some out)
    (loads : mtSeed2Load z out = some r) : fp.flat = encodeBody 1 r.asWriter := by
  obtain ⟨fits, headerBytes, headerTakes⟩ := readHeader_takes run.header_eq
  obtain ⟨remaining, within⟩ := headerTakes.remaining_file
  have unframed : header.codec = none := fits.codec.mpr legacy
  have payloadBytes_eq : payloadBytes = UInt64.ofNat fp.flat.length := by
    have bytes := run.announced
    rw [unframed, remaining] at bytes
    cases bytes
    rfl
  have payloadLength : payloadBytes.toNat = fp.flat.length := by
    rw [payloadBytes_eq, UInt64.toNat_ofNat', Nat.mod_eq_of_lt (by omega)]
  have chunksFlat : chunks.flatten = fp.flat := by
    have pieces := run.pieces
    rw [unframed] at pieces
    cases pieces
    exact flatten_toChunks (by decide) fp.flat
  -- the copy
  have out_eq : out = transcodedFile z env header (copied z fp.flat) := by
    unfold mtSeed2TranscodeMain at transcoded
    rw [if_neg framed] at transcoded
    simp only [run.header_eq, run.announced, run.pieces, Option.bind_eq_bind,
      Option.bind_some] at transcoded
    rw [if_pos run.counts] at transcoded
    obtain ⟨⟨src, dst⟩, copy, done⟩ := Option.bind_eq_some_iff.mp transcoded
    dsimp only at done
    split at done
    · cases done
      obtain ⟨bytes, bytesLength, takes, wrote⟩ := copyPayload_some law _ _ copy
      have all : bytes = fp.flat := by
        have both : bytes ++ src.flat = fp.flat ++ [] := by
          rw [← takes.flat, List.append_nil, ← chunksFlat]
          rfl
        exact (List.append_inj both (bytesLength.trans payloadLength)).1
      rw [wrote.eq_copied, all]
    · cases done
  subst out_eq
  -- the output is read strictly
  have small : fp.flat.length < 2 ^ 63 := by omega
  obtain ⟨fp', chunks', readHeader_eq, -, pieces, flat⟩ :=
    transcodedFile_reads law framed fits small
  obtain ⟨header', fp'', payloadBytes', chunks'', input', outRun⟩ := mtSeed2Load_run loads
  have headers := outRun.header_eq
  rw [readHeader_eq] at headers
  cases headers
  have sameChunks : inputChunks z (some (codecHeaderOf z env fp.flat (compOf z env fp.flat)))
      fp'.flat = some chunks'' := outRun.pieces
  rw [pieces] at sameChunks
  cases sameChunks
  have noSurplus : chunks'.flatten.length ≤
      (codecHeaderOf z env fp.flat (compOf z env fp.flat)).rawPayload.toNat := by
    show _ ≤ (UInt64.ofNat fp.flat.length).toNat
    rw [flat, UInt64.toNat_ofNat', Nat.mod_eq_of_lt (by omega)]
  have consumed := (outRun.strictlyParsed law rfl noSurplus).consumed
  have version : (transcodedHeader header
      (codecHeaderOf z env fp.flat (compOf z env fp.flat))).version.toNat = 2 := by
    simp only [transcodedHeader, transcodedVersion, legacy]
    decide
  rw [flat, version] at consumed
  rw [consumed]
  exact encodeBody_eq_of_tagged_iff (by decide) _

end Transcode

/-- A version 1 file ends with its last group: nothing follows the names, points and groups that
    it holds. -/
def EndsWithPayload (file : Bytes) (r : Seed2Reader) : Prop :=
  ∀ header fp, readHeader ⟨file, [], UInt64.ofNat file.length, ()⟩ = some (header, fp) →
    header.version = 1 → fp.flat = encodeBody 1 r.asWriter

/-- **Transcoding.**  A file that loads, is as long as `ftell` can say and holds a seed that fits in
    memory is transcoded, at any codec and level, into a file that loads as the same seed, unless
    it is a version 1 file that goes on behind its payload. -/
theorem mtSeed2TranscodeMain_loads_iff {z : Zlib} (law : z.Lawful) {env : Seed2Env}
    (framed : env.codec ≠ .v1) {file : Bytes} {r : Seed2Reader}
    (accepted : mtSeed2Load z file = some r) (size : file.length < 2 ^ 63)
    (inMemory : (encodeBody 3 r.asWriter).length < 2 ^ 62) :
    (∃ out, mtSeed2TranscodeMain z env file = some out ∧ mtSeed2Load z out = some r) ↔
      EndsWithPayload file r := by
  obtain ⟨header, fp, payloadBytes, chunks, input, run⟩ := mtSeed2Load_run accepted
  obtain ⟨fits, headerBytes, headerTakes⟩ := readHeader_takes run.header_eq
  constructor
  · rintro ⟨out, transcoded, loads⟩ header' fp' readHeader_eq legacy
    rw [run.header_eq] at readHeader_eq
    cases readHeader_eq
    exact run.ends_of_load_transcoded law framed legacy size transcoded loads
  · intro ends
    have small : (encodeBody header.version.toNat r.asWriter).length < 2 ^ 62 :=
      (length_encodeBody_le _ _).trans_lt inMemory
    have whole : (encodeBody header.version.toNat r.asWriter).length = payloadBytes.toNat ∧
        (header.version = 1 → chunks.flatten = encodeBody header.version.toNat r.asWriter) := by
      cases hcodec : header.codec with
      | some codec =>
        have later : header.version ≠ 1 := fun one => by
          rw [fits.codec.mpr one] at hcodec
          cases hcodec
        rw [run.payloadBytes_eq hcodec]
        exact ⟨run.parsed_length law hcodec (by omega), fun one => absurd one later⟩
      | none =>
        have legacy := fits.codec.mp hcodec
        have flat := ends header fp run.header_eq legacy
        have version : header.version.toNat = 1 := by
          rw [legacy]
          rfl
        have bytes := run.announced
        have pieces := run.pieces
        rw [hcodec] at bytes pieces
        cases bytes
        cases pieces
        rw [version, ← flat]
        refine ⟨?_, fun _ => flatten_toChunks (by decide) fp.flat⟩
        rw [headerTakes.remaining_file.1, UInt64.toNat_ofNat', Nat.mod_eq_of_lt]
        have := headerTakes.remaining_file.2
        omega
    refine ⟨_, run.transcode law framed rfl whole.1 whole.2, ?_⟩
    exact run.load_transcoded law framed rfl whole.1 (by omega)

/-! ### A legacy file -/

/-- A version 1 file of one empty name, with `rest` behind it. -/
def legacyFile (rest : Bytes) : Bytes :=
  encodeHeader 1 oneName [] ++ (encodeBody 1 oneName ++ rest)

theorem oneName_bodyFits : BodyFits 1 oneName := by
  refine ⟨by decide, by decide, by decide, ?_, by decide, by decide⟩
  intro p hp
  cases hp

/-- The legacy loader stops behind the last group, whatever follows. -/
theorem legacyFile_load {rest : Bytes} (short : rest.length < 100) :
    (∃ fp, readHeader ⟨legacyFile rest, [], UInt64.ofNat (legacyFile rest).length, ()⟩ =
        some (headerOf 1 oneName none, fp) ∧ fp.flat = encodeBody 1 oneName ++ rest) ∧
      mtSeed2Load sampleZlib (legacyFile rest) = some ⟨0, [[]], [], []⟩ := by
  have length : (encodeBody 1 oneName ++ rest).length = 4 + rest.length := by
    rw [List.length_append]
    rfl
  have small : (legacyFile rest).length < 2 ^ 64 := by
    have magic : SEED2_MAGIC.length = 4 := rfl
    unfold legacyFile
    rw [List.length_append, length]
    simp only [encodeHeader, encodeStr, List.length_append, length_le, length_generatorTag, magic,
      List.length_nil]
    omega
  have codec : Parses noDigest (readCodec (UInt32.ofNat 1)) [] none :=
    Parses.pure noDigest_running none
  obtain ⟨fp, header, flat, remaining, -⟩ := parses_readHeader (.inl rfl) oneName codec
    ⟨legacyFile rest, [], UInt64.ofNat (legacyFile rest).length, ()⟩ _ (List.append_nil _) small rfl
  have law := sampleZlib_lawful
  obtain ⟨input, body, -⟩ :=
    parses_readBody law.running (by decide) oneName_bodyFits
      ⟨[], toChunks BUF fp.flat, fp.remaining, sampleZlib.crcInit⟩ rest (by
        rw [← flat]
        exact flatten_toChunks (by decide) fp.flat) (by omega) remaining
  have toNat : fp.remaining.toNat = 4 + rest.length := by
    rw [remaining, UInt64.toNat_ofNat', length, Nat.mod_eq_of_lt (by omega)]
  have run : LoadRun sampleZlib (legacyFile rest) ⟨0, [[]], [], []⟩ (headerOf 1 oneName none) fp
      fp.remaining (toChunks BUF fp.flat) input := by
    refine ⟨header, rfl, ?_, rfl, body, rfl, rfl, rfl⟩
    have one : (1 : UInt32).toNat ≤ (4 + rest.length) / 4 := by
      show 1 ≤ _
      omega
    rw [toNat]
    exact ⟨one, Nat.zero_le _, Nat.zero_le _⟩
  exact ⟨⟨fp, header, flat⟩, run.load⟩

/-- One byte behind the payload: it is copied along, and the output is refused. -/
theorem trailing_byte_not_transcoded :
    mtSeed2Load sampleZlib (legacyFile [7]) = some ⟨0, [[]], [], []⟩ ∧
      ¬ ∃ out, mtSeed2TranscodeMain sampleZlib plainEnv (legacyFile [7]) = some out ∧
        mtSeed2Load sampleZlib out = some ⟨0, [[]], [], []⟩ := by
  have short : ([7] : Bytes).length < 100 := by decide
  obtain ⟨⟨fp, readHeader_eq, flat⟩, accepted⟩ := legacyFile_load short
  refine ⟨accepted, ?_⟩
  rintro ⟨out, transcoded, loads⟩
  obtain ⟨header, fp', payloadBytes, chunks, input, run⟩ := mtSeed2Load_run accepted
  have headers := run.header_eq
  rw [readHeader_eq] at headers
  cases headers
  have ends := run.ends_of_load_transcoded sampleZlib_lawful (by decide) rfl (by decide) transcoded
    loads
  rw [flat] at ends
  exact absurd ends (by decide)

def legacyEnv : Seed2Env := ⟨.v1, 6, .v1, six_isLevel⟩

/-- The names, the point and the group of `sampleWriter`, recorded for the legacy layout. -/
def legacyWriter : Seed2Writer :=
  { sampleWriter with
    points := [{ tag := asBytes "merge", canonAlgo := .v1, canonHash := 0x1234, nameIds := [1, 0, 1] }] }

theorem legacyWriter_recorded : Recorded legacyEnv legacyWriter := by
  have hashed : Recorded legacyEnv { Seed2Writer.empty with inputHash := 77, inputHashSet := true } :=
    Recorded.setInputHash 77 Recorded.empty rfl
  have grouped := Recorded.recordWhenGroup (asBytes "top") [asBytes "alu", asBytes "top"] hashed rfl
  exact Recorded.recordPoint (asBytes "merge") [asBytes "alu", asBytes "top", asBytes "alu"] 0x1234
    grouped rfl

theorem legacyWriter_countsBelow : CountsBelow legacyWriter := by
  refine ⟨?_, ?_, ?_, ?_, ?_, ?_, ?_, ?_⟩ <;> decide

/-- A recorded version 1 file ends with its last group. -/
theorem endsWithPayload_encoded {z : Zlib} (law : z.Lawful) {env : Seed2Env} (legacy : env.codec = .v1)
    (w : Seed2Writer) (small : (encodeBody 1 w).length < 2 ^ 62) {r : Seed2Reader}
    (same : encodeBody 1 r.asWriter = encodeBody 1 w) :
    EndsWithPayload (encodeHeader (outVersion env w) w (codecBytesOf z env (encodeBody 1 w)) ++
      compOf z env (encodeBody 1 w)) r := by
  intro header fp read _
  obtain ⟨fp', chunks, readHeader_eq, flat, -⟩ := readHeader_encoded law env w small
  rw [readHeader_eq] at read
  cases read
  have plain : compOf z env (encodeBody 1 w) = encodeBody 1 w := if_neg (by rw [legacy]; decide)
  rw [flat, plain, same]

theorem mtSeed2TranscodeMain_legacyWriter :
    ∃ file out, mtSeed2Finalize sampleZlib legacyEnv legacyWriter = some file ∧
      mtSeed2TranscodeMain sampleZlib plainEnv file = some out ∧
      mtSeed2Load sampleZlib out =
        some ⟨77, legacyWriter.keys, legacyWriter.points, legacyWriter.whenGroups⟩ := by
  have law := sampleZlib_lawful
  have written := mtSeed2Finalize_eq law legacyEnv legacyWriter rfl (by decide) rfl
  have accepted := load_encoded law legacyEnv legacyWriter legacyWriter_recorded.inv
    legacyWriter_countsBelow rfl
  have ends := endsWithPayload_encoded law (rfl : legacyEnv.codec = .v1) legacyWriter (by decide)
    (r := ⟨77, legacyWriter.keys, legacyWriter.points, legacyWriter.whenGroups⟩) rfl
  obtain ⟨out, transcoded, loads⟩ := (mtSeed2TranscodeMain_loads_iff law
    (by decide : plainEnv.codec ≠ .v1) accepted (by decide) (by decide)).mpr ends
  exact ⟨_, out, written, transcoded, loads⟩

end Gsim.Seed2
