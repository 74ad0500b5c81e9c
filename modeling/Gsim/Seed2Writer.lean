/-
  Gsim/Seed2Writer.lean
  =====================
  **Recording a schedule seed and writing it out** (`seedOrder2.cpp`).

  A run records, at every order-consuming point, the permutation of the super
  nodes as ids of an interned name table, and the merge groups of
  `mergeWhenNodes`.  `mtSeed2Finalize` writes the table, the points and the
  groups behind a header, plain (version 1), or framed by a codec (version 2), or
  framed and with a hash-algorithm tag at each point (version 3).

  zlib is not part of the repository: `Zlib` names the three functions that are
  called and `Zlib.Lawful` what its manual promises of them.  `none` is a failed
  `Assert`.  Timing and the summary line on `stderr` are left out; a node enters
  through the key that `seed2NodeKey` builds for it.
-/
import Gsim.ByteStream

namespace Gsim.Seed2

open Gsim.ByteStream

/-! ## zlib -/

structure Zlib where
  /-- the whole output of a deflate stream of the given level -/
  deflate : Nat → Bytes → Bytes
  /-- what the successive `inflate` calls put out until `Z_STREAM_END`, which has to come
      with the last input byte -/
  inflate : Bytes → Option (List Bytes)
  /-- `crc32(0L, Z_NULL, 0)` -/
  crcInit : UInt32
  crc32 : UInt32 → Bytes → UInt32

/-- What the zlib manual says: `inflate` undoes `deflate`, `deflate` expands by no more than
    `compressBound`, and a CRC can be computed piece by piece. -/
structure Zlib.Lawful (z : Zlib) : Prop where
  inflate_deflate : ∀ level bytes, 1 ≤ level → level ≤ 9 →
    ∃ chunks, z.inflate (z.deflate level bytes) = some chunks ∧ chunks.flatten = bytes
  deflate_length : ∀ level bytes, (z.deflate level bytes).length ≤
    bytes.length + bytes.length / 2 ^ 12 + bytes.length / 2 ^ 14 + bytes.length / 2 ^ 25 + 13
  crc32_running : Running z.crc32

/-- CRC over pieces of at most 1 GiB. -/
def seed2CrcUpdate (z : Zlib) (crc : UInt32) (bytes : Bytes) : UInt32 :=
  (toChunks (2 ^ 30) bytes).foldl z.crc32 crc

/-! ## The recorded state -/

/-- `SEED2_CANON_ALGO_V1` and `SEED2_CANON_ALGO_V2`. -/
inductive CanonAlgo where
  | v1
  | v2
deriving DecidableEq, Repr

def CanonAlgo.toUInt8 : CanonAlgo → UInt8
  | v1 => 1
  | v2 => 2

structure Seed2Point where
  tag : Bytes
  canonAlgo : CanonAlgo
  canonHash : UInt64
  /-- string-table ids in recorded `sortedSuper` order -/
  nameIds : List UInt32
deriving DecidableEq, Repr

structure Seed2WhenGroup where
  condKey : UInt32
  /-- the first one is the recorded merge target -/
  sources : List UInt32
deriving DecidableEq, Repr

structure Seed2Writer where
  idByKey : Bytes → Option UInt32
  keys : List Bytes
  points : List Seed2Point
  whenGroups : List Seed2WhenGroup
  inputHash : UInt64
  inputHashSet : Bool
  finalized : Bool

def Seed2Writer.empty : Seed2Writer := ⟨fun _ => none, [], [], [], 0, false, false⟩

/-- `GSIM_SEED2_CODEC`. -/
inductive CodecKnob where
  | zlib
  | none
  | v1
deriving DecidableEq, Repr

/-- The write-side knobs; `mtSeed2Finalize` refuses any other level. -/
structure Seed2Env where
  codec : CodecKnob
  level : Nat
  canon : CanonAlgo
  level_range : 1 ≤ level ∧ level ≤ 9

/-- The legacy layout cannot carry a tag per point. -/
def seed2CanonEnvAlgo (env : Seed2Env) : Option CanonAlgo :=
  if env.canon = .v2 ∧ env.codec = .v1 then Option.none else some env.canon

namespace Seed2Writer

/-- The id of a key, a fresh one if it is new. -/
def intern (w : Seed2Writer) (key : Bytes) : UInt32 × Seed2Writer :=
  match w.idByKey key with
  | some id => (id, w)
  | none =>
    let id := UInt32.ofNat w.keys.length
    (id, { w with
      idByKey := fun k => if k = key then some id else w.idByKey k
      keys := w.keys ++ [key] })

/-- Intern a list of keys in order. -/
def internAll (w : Seed2Writer) : List Bytes → List UInt32 × Seed2Writer
  | [] => ([], w)
  | key :: keys =>
    let (id, w) := w.intern key
    let (ids, w) := w.internAll keys
    (id :: ids, w)

end Seed2Writer

def mtSeed2SetInputHash (h : UInt64) (w : Seed2Writer) : Option Seed2Writer :=
  if w.inputHashSet then none else some { w with inputHash := h, inputHashSet := true }

def mtSeed2RecordPoint (env : Seed2Env) (tag : Bytes) (sortedSuper : List Bytes)
    (canonHash : UInt64) (w : Seed2Writer) : Option Seed2Writer := do
  let canonAlgo ← seed2CanonEnvAlgo env
  let (nameIds, w) := w.internAll sortedSuper
  some { w with points := w.points ++ [{ tag, canonAlgo, canonHash, nameIds }] }

def mtSeed2RecordWhenGroup (cond : Bytes) (sources : List Bytes) (w : Seed2Writer) :
    Option Seed2Writer :=
  if sources = [] then none
  else
    let (condKey, w) := w.intern cond
    let (ids, w) := w.internAll sources
    some { w with whenGroups := w.whenGroups ++ [{ condKey, sources := ids }] }

/-- The writer states of a run: any sequence of recordings under fixed knobs. -/
inductive Recorded (env : Seed2Env) : Seed2Writer → Prop where
  | empty : Recorded env .empty
  | setInputHash {w w' : Seed2Writer} (h : UInt64) :
    Recorded env w → mtSeed2SetInputHash h w = some w' → Recorded env w'
  | recordPoint {w w' : Seed2Writer} (tag : Bytes) (sortedSuper : List Bytes) (canonHash : UInt64) :
    Recorded env w → mtSeed2RecordPoint env tag sortedSuper canonHash w = some w' → Recorded env w'
  | recordWhenGroup {w w' : Seed2Writer} (cond : Bytes) (sources : List Bytes) :
    Recorded env w → mtSeed2RecordWhenGroup cond sources w = some w' → Recorded env w'

/-! ## Writing -/

/-- The streaming sink: the bytes fed so far, with their number and CRC. -/
structure Seed2Output where
  raw : Bytes
  rawBytes : UInt64
  crc : UInt32

namespace Seed2Output

variable (z : Zlib)

def openOutput : Seed2Output := ⟨[], 0, z.crcInit⟩

def write (out : Seed2Output) (p : Bytes) : Seed2Output :=
  ⟨out.raw ++ p, out.rawBytes + UInt64.ofNat p.length, seed2CrcUpdate z out.crc p⟩

def u32 (out : Seed2Output) (v : Nat) : Seed2Output := out.write z (le 4 v)

def u64 (out : Seed2Output) (v : Nat) : Seed2Output := out.write z (le 8 v)

def u8 (out : Seed2Output) (v : UInt8) : Seed2Output := out.write z [v]

def str (out : Seed2Output) (s : Bytes) : Seed2Output :=
  let out := out.u32 z s.length
  if s = [] then out else out.write z s

/-- A vector of ids, written as it lies in memory. -/
def ids (out : Seed2Output) (v : List UInt32) : Seed2Output :=
  let out := out.u32 z v.length
  if v = [] then out else out.write z (v.flatMap fun id => le 4 id.toNat)

def point (version : Nat) (out : Seed2Output) (p : Seed2Point) : Seed2Output :=
  let out := out.str z p.tag
  let out := if version = 3 then out.u8 z p.canonAlgo.toUInt8 else out
  let out := out.u64 z p.canonHash.toNat
  out.ids z p.nameIds

def whenGroup (out : Seed2Output) (g : Seed2WhenGroup) : Seed2Output :=
  (out.u32 z g.condKey.toNat).ids z g.sources

/-- String table, points, groups. -/
def body (version : Nat) (w : Seed2Writer) : Seed2Output :=
  let out := w.keys.foldl (str z) (openOutput z)
  let out := w.points.foldl (point z version) out
  w.whenGroups.foldl (whenGroup z) out

end Seed2Output

/-- `"GS2\\0"`. -/
def SEED2_MAGIC : Bytes := [0x47, 0x53, 0x32, 0x00]

def SEED2_CODEC_NONE : Nat := 0

def SEED2_CODEC_ZLIB : Nat := 1

/-- The generator tag. -/
def generatorTag : Bytes := "wip/dense-b1-lookahead".toList.map fun c => UInt8.ofNat c.toNat

/-- Version 1 for the legacy layout, 3 as soon as one point carries the second algorithm. -/
def outVersion (env : Seed2Env) (w : Seed2Writer) : Nat :=
  if env.codec = .v1 then 1 else if w.points.any (·.canonAlgo = .v2) then 3 else 2

def codecOf (env : Seed2Env) : Nat :=
  if env.codec = .zlib then SEED2_CODEC_ZLIB else SEED2_CODEC_NONE

/-- The file, or `none` when nothing is written. -/
def mtSeed2Finalize (z : Zlib) (env : Seed2Env) (w : Seed2Writer) : Option Bytes :=
  if w.finalized || w.points.isEmpty then none
  else if !w.inputHashSet then none
  else
    let version := outVersion env w
    let out := Seed2Output.body z version w
    -- `finish`: what the deflate stream, or the file itself, has received
    let comp := if env.codec = .zlib then z.deflate env.level out.raw else out.raw
    let codecHeader :=
      if env.codec = .v1 then []
      else le 4 (codecOf env) ++ le 4 env.level ++
        -- patched over the zeros once the payload is out
        (le 8 out.rawBytes.toNat ++ le 4 out.crc.toNat ++ le 8 comp.length)
    some (SEED2_MAGIC ++ le 4 version ++ le 8 w.inputHash.toNat ++
      (le 4 generatorTag.length ++ generatorTag) ++ le 4 w.points.length ++ le 4 w.keys.length ++
      le 4 w.whenGroups.length ++ codecHeader ++ comp)

end Gsim.Seed2
