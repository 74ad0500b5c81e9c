/-
  Gsim/Seed2Reader.lean
  =====================
  **Loading a schedule seed** (`mtSeed2Load` and `Seed2Input`).

  The header is read straight from the file; the payload comes through
  `Seed2Input`, a `Source` whose chunks are 256 KiB reads of the file or the
  outputs of `inflate`, and whose digest is the running CRC.  `none` is a failed
  `Assert`.
-/
import Gsim.Seed2Writer

namespace Gsim.Seed2

open Gsim.ByteStream

structure Seed2Reader where
  inputHash : UInt64
  keys : List Bytes
  points : List Seed2Point
  whenGroups : List Seed2WhenGroup
deriving DecidableEq, Repr

/-! ## Reading integers, strings and id vectors -/

section Input

variable {γ : Type} (update : γ → Bytes → γ)

def readU32 : Parser γ UInt32 := do
  let b ← readExact update 4
  pure (UInt32.ofNat (ofLe b))

def readU64 : Parser γ UInt64 := do
  let b ← readExact update 8
  pure (UInt64.ofNat (ofLe b))

/-- A counted string; the count is checked against what is left before it is used. -/
def readStr : Parser γ Bytes := do
  let n ← readU32 update
  checkRemaining n.toNat
  readExact update n.toNat

/-- Four bytes at a time. -/
def decodeIds : Bytes → List UInt32
  | b0 :: b1 :: b2 :: b3 :: rest => UInt32.ofNat (ofLe [b0, b1, b2, b3]) :: decodeIds rest
  | _ => []

/-- A counted vector of ids. -/
def readIds : Parser γ (List UInt32) := do
  let n ← readU32 update
  checkRemaining (n.toNat * 4)
  let b ← readExact update (n.toNat * 4)
  pure (decodeIds b)

def canonAlgoOf (b : Bytes) : Option CanonAlgo :=
  if b = [1] then some .v1 else if b = [2] then some .v2 else none

/-- Version 3 tags every point; the others mean the first algorithm. -/
def readCanonAlgo (version : UInt32) : Parser γ CanonAlgo :=
  if version = 3 then do
    let b ← readExact update 1
    match canonAlgoOf b with
    | some algo => pure algo
    | none => fun _ => none
  else pure .v1

def readPoint (version : UInt32) : Parser γ Seed2Point := do
  let tag ← readStr update
  let canonAlgo ← readCanonAlgo update version
  let canonHash ← readU64 update
  let nameIds ← readIds update
  pure { tag, canonAlgo, canonHash, nameIds }

def readWhenGroup : Parser γ Seed2WhenGroup := do
  let condKey ← readU32 update
  let sources ← readIds update
  pure { condKey, sources }

/-- The payload: names, points, groups. -/
def readBody (version nameCount pointCount whenGroupCount : UInt32) :
    Parser γ (List Bytes × List Seed2Point × List Seed2WhenGroup) := do
  let keys ← many (readStr update) nameCount.toNat
  let points ← many (readPoint update version) pointCount.toNat
  let whenGroups ← many (readWhenGroup update) whenGroupCount.toNat
  pure (keys, points, whenGroups)

end Input

/-! ## The header -/

/-- `codec`, `codec_level`, `raw_payload_bytes`, `payload_crc32`, `comp_payload_bytes`. -/
structure CodecHeader where
  codec : UInt32
  level : UInt32
  rawPayload : UInt64
  wantCrc : UInt32
  compPayload : UInt64

structure Seed2Header where
  version : UInt32
  inputHash : UInt64
  generator : Bytes
  pointCount : UInt32
  nameCount : UInt32
  whenGroupCount : UInt32
  /-- absent in version 1 -/
  codec : Option CodecHeader

/-- Reading the file itself digests nothing. -/
def noDigest : Unit → Bytes → Unit := fun _ _ => ()

def readCodecHeader : Parser Unit CodecHeader := do
  let codec ← readU32 noDigest
  let level ← readU32 noDigest
  let rawPayload ← readU64 noDigest
  let wantCrc ← readU32 noDigest
  let compPayload ← readU64 noDigest
  require (codec = 0 ∨ codec = 1)
  pure { codec, level, rawPayload, wantCrc, compPayload }

/-- Version 1 has no codec header. -/
def readCodec (version : UInt32) : Parser Unit (Option CodecHeader) :=
  if 2 ≤ version then some <$> readCodecHeader else pure none

def readHeader : Parser Unit Seed2Header := do
  let magic ← readExact noDigest 4
  require (magic = SEED2_MAGIC)
  let version ← readU32 noDigest
  require (version = 1 ∨ version = 2 ∨ version = 3)
  let inputHash ← readU64 noDigest
  let generator ← readStr noDigest
  let pointCount ← readU32 noDigest
  let nameCount ← readU32 noDigest
  let whenGroupCount ← readU32 noDigest
  let codec ← readCodec version
  pure { version, inputHash, generator, pointCount, nameCount, whenGroupCount, codec }

/-! ## The whole file -/

/-- The size of `Seed2Input`'s buffers. -/
def BUF : Nat := 256 * 1024

/-- The chunks that `fill` will deliver. -/
def inputChunks (z : Zlib) (codec : Option CodecHeader) (payload : Bytes) : Option (List Bytes) :=
  match codec with
  | some h => if h.codec = 1 then z.inflate payload else some (toChunks BUF payload)
  | none => some (toChunks BUF payload)

/-- How much payload to expect, once the rest of the file has the size the header gives. -/
def payloadBytesOf (codec : Option CodecHeader) (compPayloadBytes : UInt64) : Option UInt64 :=
  match codec with
  | some h => if compPayloadBytes = h.compPayload then some h.rawPayload else none
  | none => some compPayloadBytes

/-- Trailing bytes and checksum.  The plain codec also looks at what is left in the file; the
    other runs `inflate` to its end first; version 1 has nothing to check against. -/
def finishPayload (codec : Option CodecHeader) (s : Source UInt32) : Bool :=
  match codec with
  | some h =>
    s.remaining = 0 && (h.codec = 1 || s.chunks.flatten.length = 0) && s.digest = h.wantCrc
  | none => true

/-- Every id points into the table. -/
def idsInRange (nameTotal : Nat) (points : List Seed2Point) (whenGroups : List Seed2WhenGroup) :
    Bool :=
  points.all (fun p => p.nameIds.all (·.toNat < nameTotal)) &&
    whenGroups.all (fun g => g.condKey.toNat < nameTotal && g.sources.all (·.toNat < nameTotal))

def mtSeed2Load (z : Zlib) (file : Bytes) : Option Seed2Reader := do
  let (header, fp) ← readHeader ⟨file, [], UInt64.ofNat file.length, ()⟩
  let payload := fp.flat
  let payloadBytes ← payloadBytesOf header.codec fp.remaining
  let maxEntries := payloadBytes.toNat / 4
  if header.nameCount.toNat ≤ maxEntries ∧ header.pointCount.toNat ≤ maxEntries ∧
      header.whenGroupCount.toNat ≤ maxEntries then
    let chunks ← inputChunks z header.codec payload
    let ((keys, points, whenGroups), input) ←
      readBody (seed2CrcUpdate z) header.version header.nameCount header.pointCount
        header.whenGroupCount ⟨[], chunks, payloadBytes, z.crcInit⟩
    if finishPayload header.codec input && idsInRange keys.length points whenGroups then
      some { inputHash := header.inputHash, keys, points, whenGroups }
    else none
  else none

end Gsim.Seed2
