/-
  Gsim/Seed2Budget.lean
  =====================
  **The byte budget of a streaming read** (`Seed2Input` under `mtSeed2Load` and
  `mtSeed2TranscodeMain`), moment by moment.

  `rawRemaining` starts as the payload size that the header announces and goes down
  with every piece that `readExact` copies.  Lengths are checked against it, but the
  fields of a fixed size (the lengths themselves, hashes, keys, tags) are not, and
  the stream may deliver more than was announced.  A field that starts with too
  little left takes the counter below zero, and from then on every length passes.

  `Seed2Reader.lean` has the same reads as parsers, which say nothing about reads
  that fail; here every moment is a state of its own.  `reach_readBody` joins the
  two.
-/
import Gsim.Seed2Transcode

namespace Gsim.Seed2

open Gsim.ByteStream

/-! ## The machine -/

/-- What comes next in the payload. -/
inductive Item where
  /-- a hash or a key -/
  | fixed (size : ℕ)
  /-- the algorithm of a point, in version 3 -/
  | tag
  /-- a count, and as many elements of `width` bytes -/
  | counted (width : ℕ)
  /-- the transcoder's copy of all that is left -/
  | rest
deriving DecidableEq, Repr

/-- The part of an item that is read without looking at `rawRemaining`. -/
def Item.fieldSize : Item → ℕ
  | .fixed size => size
  | .tag => 1
  | .counted _ => 4
  | .rest => 0

inductive Control where
  | next (items : List Item)
  /-- in the `readExact` for the field of an item -/
  | field (item : Item) (items : List Item)
  /-- `Assert(n <= remaining())` -/
  | check (n : ℕ) (items : List Item)
  /-- in the `readExact` for `size` elements -/
  | data (size : ℕ) (items : List Item)
  | stopped
deriving DecidableEq, Repr

/-- `Seed2Input`, between two pieces. -/
structure Moment where
  control : Control
  /-- what the current `readExact` has copied -/
  got : Bytes
  /-- the unread part of `rawBuf` -/
  buf : Bytes
  /-- what later `fill`s deliver -/
  chunks : List Bytes
  rawRemaining : UInt64
  /-- all bytes copied so far -/
  consumed : ℕ
deriving DecidableEq, Repr

namespace Moment

/-- What the stream still delivers. -/
def delivered (m : Moment) : ℕ := m.buf.length + m.chunks.flatten.length

/-- One round of the loop in `readExact`, with `n` bytes missing. -/
def readPiece (m : Moment) (n : ℕ) : Moment :=
  match m.buf with
  | [] =>
    match m.chunks with
    | [] => { m with control := .stopped }
    | chunk :: chunks => { m with buf := chunk, chunks }
  | buf@(_ :: _) =>
    let k := min buf.length n
    { m with
      got := m.got ++ buf.take k
      buf := buf.drop k
      rawRemaining := m.rawRemaining - UInt64.ofNat k
      consumed := m.consumed + k }

/-- The field of an item has been read. -/
def afterField (m : Moment) (item : Item) (items : List Item) : Moment :=
  match item with
  | .fixed _ | .rest => { m with control := .next items, got := [] }
  | .tag =>
    if (canonAlgoOf m.got).isSome then { m with control := .next items, got := [] }
    else { m with control := .stopped }
  | .counted width =>
    { m with control := .check ((UInt32.ofNat (ofLe m.got)).toNat * width) items, got := [] }

def step (m : Moment) : Option Moment :=
  match m.control with
  | .stopped => none
  | .next [] => some { m with control := .stopped }
  | .next (.rest :: items) =>
    if m.rawRemaining = 0 then some { m with control := .next items }
    else some { m with control := .data (min m.rawRemaining.toNat COPY) (.rest :: items), got := [] }
  | .next (item :: items) => some { m with control := .field item items, got := [] }
  | .field item items =>
    if m.got.length = item.fieldSize then some (m.afterField item items)
    else some (m.readPiece (item.fieldSize - m.got.length))
  | .check n items =>
    if n ≤ m.rawRemaining.toNat then some { m with control := .data n items, got := [] }
    else some { m with control := .stopped }
  | .data size items =>
    if m.got.length = size then some { m with control := .next items, got := [] }
    else some (m.readPiece (size - m.got.length))

abbrev Reach : Moment → Moment → Prop := Relation.ReflTransGen fun m m' => m.step = some m'

end Moment

/-! ## The payload -/

def pointItems (version : UInt32) : List Item :=
  [.counted 1] ++ (if version = 3 then [.tag] else []) ++ [.fixed 8, .counted 4]

def whenGroupItems : List Item := [.fixed 4, .counted 4]

def payloadItems (version nameCount pointCount whenGroupCount : UInt32) : List Item :=
  (List.replicate nameCount.toNat [Item.counted 1]).flatten ++
    (List.replicate pointCount.toNat (pointItems version)).flatten ++
    (List.replicate whenGroupCount.toNat whenGroupItems).flatten

/-- The chunks of `fill`.  A stream that fails has delivered some of them. -/
def fillChunks (inflate : Bytes → List Bytes) (codec : Option CodecHeader) (payload : Bytes) : List Bytes :=
  match codec with
  | some h => if h.codec = 1 then inflate payload else toChunks BUF payload
  | none => toChunks BUF payload

/-- The header of a file whose payload is going to be read: the announced size, the header and what
    the stream delivers. -/
def openInput (inflate : Bytes → List Bytes) (file : Bytes) :
    Option (UInt64 × Seed2Header × List Bytes) := do
  let (header, fp) ← readHeader ⟨file, [], UInt64.ofNat file.length, ()⟩
  let payloadBytes ← payloadBytesOf header.codec fp.remaining
  let maxEntries := payloadBytes.toNat / 4
  if header.nameCount.toNat ≤ maxEntries ∧ header.pointCount.toNat ≤ maxEntries ∧
      header.whenGroupCount.toNat ≤ maxEntries then
    some (payloadBytes, header, fillChunks inflate header.codec fp.flat)
  else none

/-- The first moment of a read. -/
def Moment.start (announced : UInt64) (chunks : List Bytes) (items : List Item) : Moment :=
  { control := .next items, got := [], buf := [], chunks, rawRemaining := announced, consumed := 0 }

def loadStart (inflate : Bytes → List Bytes) (file : Bytes) : Option (UInt64 × Moment) := do
  let (announced, header, chunks) ← openInput inflate file
  some (announced, .start announced chunks
    (payloadItems header.version header.nameCount header.pointCount header.whenGroupCount))

def transcodeStart (inflate : Bytes → List Bytes) (file : Bytes) : Option (UInt64 × Moment) := do
  let (announced, _, chunks) ← openInput inflate file
  some (announced, .start announced chunks [.rest])

/-! ## The counter -/

/-- `rawRemaining` is what was announced and not consumed, and a length that passes its check is
    covered by it. -/
structure Moment.Exact (announced : UInt64) (m : Moment) : Prop where
  consumed : m.consumed ≤ announced.toNat
  rawRemaining : m.rawRemaining.toNat = announced.toNat - m.consumed
  check : ∀ n items, m.control = .check n items → n ≤ m.rawRemaining.toNat →
    n ≤ announced.toNat - m.consumed

/-- A field starts with room for it, or for as much of it as the stream still delivers. -/
def Moment.Budgeted (announced : UInt64) (m : Moment) : Prop :=
  ∀ item items, m.control = .field item items → m.got = [] →
    m.consumed + min item.fieldSize m.delivered ≤ announced.toNat

/-! ## One piece -/

/-- The size of the `readExact` that is going on. -/
def Control.reading : Control → Option ℕ
  | .field item _ => some item.fieldSize
  | .data size _ => some size
  | _ => none

section Piece

variable {m : Moment} {n size : ℕ}

theorem step_of_reading (reads : m.control.reading = some size) (missing : m.got.length ≠ size) :
    m.step = some (m.readPiece (size - m.got.length)) := by
  unfold Moment.step
  cases ctrl : m.control with
  | field item items =>
    rw [ctrl, Control.reading, Option.some.injEq] at reads
    rw [← reads] at missing ⊢
    exact if_neg missing
  | data total items =>
    rw [ctrl, Control.reading, Option.some.injEq] at reads
    rw [← reads] at missing ⊢
    exact if_neg missing
  | next items => rw [ctrl] at reads; cases reads
  | check total items => rw [ctrl] at reads; cases reads
  | stopped => rw [ctrl] at reads; cases reads

theorem readPiece_empty (buf : m.buf = []) (chunks : m.chunks = []) :
    m.readPiece n = { m with control := .stopped } := by
  simp only [Moment.readPiece, buf, chunks]

theorem readPiece_fill {chunk : Bytes} {chunks : List Bytes} (buf : m.buf = [])
    (more : m.chunks = chunk :: chunks) : m.readPiece n = { m with buf := chunk, chunks } := by
  simp only [Moment.readPiece, buf, more]

theorem readPiece_copy (buf : m.buf ≠ []) :
    m.readPiece n = { m with
      got := m.got ++ m.buf.take (min m.buf.length n)
      buf := m.buf.drop (min m.buf.length n)
      rawRemaining := m.rawRemaining - UInt64.ofNat (min m.buf.length n)
      consumed := m.consumed + min m.buf.length n } := by
  unfold Moment.readPiece
  cases eq : m.buf with
  | nil => exact absurd eq buf
  | cons b rest => rfl

end Piece

/-! ## The budget is kept -/

/-- The counter is exact, and the current `readExact` stays within it. -/
structure Moment.Kept (announced : UInt64) (m : Moment) : Prop where
  consumed : m.consumed ≤ announced.toNat
  rawRemaining : m.rawRemaining.toNat = announced.toNat - m.consumed
  reading : ∀ size, m.control.reading = some size → m.got.length ≤ size ∧
    m.consumed + min (size - m.got.length) m.delivered ≤ announced.toNat

theorem Moment.Kept.exact {announced : UInt64} {m : Moment} (kept : m.Kept announced) :
    m.Exact announced where
  consumed := kept.consumed
  rawRemaining := kept.rawRemaining
  check := fun _ _ _ passes => passes.trans kept.rawRemaining.le

theorem toNat_sub_ofNat {a : UInt64} {k : ℕ} (le : k ≤ a.toNat) :
    (a - UInt64.ofNat k).toNat = a.toNat - k := by
  have bound := a.toNat_lt
  have small : (UInt64.ofNat k).toNat = k := by
    rw [UInt64.toNat_ofNat', Nat.mod_eq_of_lt (by omega)]
  rw [UInt64.toNat_sub_of_le _ _ (by rw [UInt64.le_iff_toNat_le, small]; exact le), small]

theorem Moment.Kept.readPiece {announced : UInt64} {m : Moment} (kept : m.Kept announced) {size : ℕ}
    (reads : m.control.reading = some size) : (m.readPiece (size - m.got.length)).Kept announced := by
  obtain ⟨le, room⟩ := kept.reading size reads
  by_cases buf : m.buf = []
  · cases chunks : m.chunks with
    | nil =>
      rw [readPiece_empty buf chunks]
      exact ⟨kept.consumed, kept.rawRemaining, fun _ none => by cases none⟩
    | cons chunk later =>
      rw [readPiece_fill buf chunks]
      refine ⟨kept.consumed, kept.rawRemaining, fun total same => ?_⟩
      have delivered : m.delivered = chunk.length + later.flatten.length := by
        rw [Moment.delivered, buf, chunks]
        simp
      rw [reads, Option.some.injEq] at same
      rw [← same]
      rw [delivered] at room
      exact ⟨le, room⟩
  · rw [readPiece_copy buf]
    have nonempty : m.buf.length ≠ 0 := fun none => buf (List.length_eq_zero_iff.mp none)
    have delivered : m.delivered = m.buf.length + m.chunks.flatten.length := rfl
    have remaining := kept.rawRemaining
    have fits : min m.buf.length (size - m.got.length) ≤ m.rawRemaining.toNat := by omega
    refine ⟨?_, ?_, fun total same => ?_⟩
    · simp only
      omega
    · simp only
      rw [toNat_sub_ofNat fits]
      omega
    · simp only at same
      rw [reads, Option.some.injEq] at same
      simp only [Moment.delivered, List.length_append, List.length_take, List.length_drop]
      omega

theorem Moment.Kept.next {announced : UInt64} {m : Moment} (kept : m.Kept announced) {control : Control}
    (idle : control.reading = none) (got : Bytes) : { m with control, got }.Kept announced :=
  ⟨kept.consumed, kept.rawRemaining, fun _ reads => by rw [idle] at reads; cases reads⟩

theorem Moment.Kept.data {announced : UInt64} {m : Moment} (kept : m.Kept announced) {n : ℕ}
    (passes : n ≤ m.rawRemaining.toNat) (items : List Item) :
    { m with control := .data n items, got := [] }.Kept announced := by
  refine ⟨kept.consumed, kept.rawRemaining, fun size reads => ?_⟩
  simp only [Control.reading, Option.some.injEq] at reads
  have remaining := kept.rawRemaining
  have le := kept.consumed
  simp only [List.length_nil]
  omega

theorem Moment.Kept.afterField {announced : UInt64} {m : Moment} (kept : m.Kept announced) (item : Item)
    (items : List Item) : (m.afterField item items).Kept announced := by
  unfold Moment.afterField
  cases item with
  | fixed size => exact kept.next rfl []
  | rest => exact kept.next rfl []
  | counted width => exact kept.next rfl []
  | tag =>
    simp only
    split
    · exact kept.next rfl []
    · exact kept.next rfl m.got

/-- One step, when it does not start a field without room for it. -/
theorem Moment.Kept.step {announced : UInt64} {m m' : Moment} (kept : m.Kept announced)
    (step : m.step = some m') (budgeted : m'.Budgeted announced) : m'.Kept announced := by
  have idle : ∀ control, control.reading = none → { m with control }.Kept announced :=
    fun control none => kept.next none m.got
  unfold Moment.step at step
  split at step
  · cases step
  · cases step
    exact idle _ rfl
  · split at step
    · cases step
      exact idle _ rfl
    · cases step
      exact kept.data (Nat.min_le_left _ _) _
  · cases step
    refine ⟨kept.consumed, kept.rawRemaining, fun size reads => ⟨Nat.zero_le _, ?_⟩⟩
    simp only [Control.reading, Option.some.injEq] at reads
    have room := budgeted _ _ rfl rfl
    rw [← reads]
    exact room
  · rename_i item items ctrl
    split at step
    · cases step
      exact kept.afterField item items
    · cases step
      exact kept.readPiece (by rw [ctrl]; rfl)
  · split at step
    · rename_i passes
      cases step
      exact kept.data passes _
    · cases step
      exact idle _ rfl
  · rename_i size items ctrl
    split at step
    · cases step
      exact kept.next rfl []
    · cases step
      exact kept.readPiece (by rw [ctrl]; rfl)

theorem Moment.Kept.reach {announced : UInt64} {m m' : Moment} (kept : m.Kept announced)
    (reach : m.Reach m') (budgeted : ∀ m'', m.Reach m'' → m''.Budgeted announced) :
    m'.Kept announced := by
  induction reach with
  | refl => exact kept
  | tail before step ih => exact ih.step step (budgeted _ (before.tail step))

theorem Moment.kept_start (announced : UInt64) (chunks : List Bytes) (items : List Item) :
    (Moment.start announced chunks items).Kept announced :=
  ⟨Nat.zero_le _, rfl, fun _ reads => by cases reads⟩

/-! ## A field without room overruns it -/

/-- A `readExact` goes on until it is done or the stream ends. -/
theorem reach_delivered {m : Moment} {size : ℕ} (reads : m.control.reading = some size)
    (le : m.got.length ≤ size) :
    ∃ m', m.Reach m' ∧ m'.consumed = m.consumed + min (size - m.got.length) m.delivered := by
  induction left : m.delivered + m.chunks.length using Nat.strong_induction_on generalizing m with
  | _ left ih =>
    subst left
    by_cases missing : m.got.length = size
    · exact ⟨m, .refl, by omega⟩
    · have step := step_of_reading reads missing
      by_cases buf : m.buf = []
      · cases chunks : m.chunks with
        | nil =>
          refine ⟨m, .refl, ?_⟩
          simp [Moment.delivered, buf, chunks]
        | cons chunk later =>
          rw [readPiece_fill buf chunks] at step
          have delivered : m.delivered = chunk.length + later.flatten.length := by
            rw [Moment.delivered, buf, chunks]
            simp
          have count : m.chunks.length = later.length + 1 := by rw [chunks, List.length_cons]
          obtain ⟨next, eq⟩ : ∃ next : Moment, next = { m with buf := chunk, chunks := later } := ⟨_, rfl⟩
          have reads' : next.control.reading = some size := by rw [eq]; exact reads
          have same : next.delivered = m.delivered := by rw [eq, delivered]; rfl
          have smaller : next.delivered + next.chunks.length < m.delivered + m.chunks.length := by
            rw [same, count, eq]
            exact Nat.lt_succ_self _
          obtain ⟨m', reach, consumed⟩ := ih _ smaller reads' (by rw [eq]; exact le) rfl
          refine ⟨m', .head (step.trans (by rw [eq])) reach, ?_⟩
          rw [consumed, same, eq]
      · rw [readPiece_copy buf] at step
        have nonempty : m.buf.length ≠ 0 := fun none => buf (List.length_eq_zero_iff.mp none)
        generalize hk : min m.buf.length (size - m.got.length) = k at step
        obtain ⟨next, eq⟩ : ∃ next : Moment, next = { m with
            got := m.got ++ m.buf.take k
            buf := m.buf.drop k
            rawRemaining := m.rawRemaining - UInt64.ofNat k
            consumed := m.consumed + k } := ⟨_, rfl⟩
        have reads' : next.control.reading = some size := by rw [eq]; exact reads
        have got : next.got.length = m.got.length + k := by
          rw [eq, List.length_append, List.length_take]
          omega
        have delivered : next.delivered = m.delivered - k := by
          simp only [eq, Moment.delivered, List.length_drop]
          omega
        have here : k ≤ m.delivered := by
          rw [Moment.delivered]
          omega
        have smaller : next.delivered + next.chunks.length < m.delivered + m.chunks.length := by
          rw [delivered, eq]
          simp only
          omega
        obtain ⟨m', reach, consumed⟩ := ih _ smaller reads' (by omega) rfl
        refine ⟨m', .head (step.trans (by rw [eq])) reach, ?_⟩
        rw [consumed, got, delivered, eq]
        simp only
        omega

theorem budgeted_of_exact {announced : UInt64} {m : Moment}
    (exact : ∀ m', m.Reach m' → m'.Exact announced) : m.Budgeted announced := by
  intro item items ctrl empty
  have reads : m.control.reading = some item.fieldSize := by rw [ctrl]; rfl
  obtain ⟨m', reach, consumed⟩ := reach_delivered reads (by rw [empty]; exact Nat.zero_le _)
  have le := (exact m' reach).consumed
  rw [consumed, empty, List.length_nil, Nat.sub_zero] at le
  exact le

/-- The counter is exact all through a read exactly when no field starts without room for it. -/
theorem exact_iff_budgeted (announced : UInt64) (chunks : List Bytes) (items : List Item) :
    (∀ m, (Moment.start announced chunks items).Reach m → m.Exact announced) ↔
      ∀ m, (Moment.start announced chunks items).Reach m → m.Budgeted announced := by
  constructor
  · intro exact m reach
    exact budgeted_of_exact fun m' reach' => exact m' (reach.trans reach')
  · intro budgeted m reach
    exact ((Moment.kept_start announced chunks items).reach reach budgeted).exact

/-! ## The copy of the transcoder -/

/-- The controls of the copy. -/
def Control.Copies : Control → Prop
  | .next items | .data _ items => items = [.rest] ∨ items = []
  | .stopped => True
  | _ => False

theorem Control.Copies.step {m m' : Moment} (copies : m.control.Copies) (step : m.step = some m') :
    m'.control.Copies := by
  unfold Moment.step at step
  split at step
  · cases step
  · cases step
    trivial
  · rename_i items ctrl
    rw [ctrl] at copies
    have last : items = [] := by simpa [Control.Copies] using copies
    split at step
    · cases step
      exact .inr last
    · cases step
      exact .inl (by rw [last])
  · rename_i item items other ctrl
    rw [ctrl] at copies
    have rest : item = .rest := by
      have both : item = .rest ∧ items = [] := by simpa [Control.Copies] using copies
      exact both.1
    exact absurd rest other
  · rename_i ctrl
    rw [ctrl] at copies
    cases copies
  · rename_i ctrl
    rw [ctrl] at copies
    cases copies
  · rename_i size items ctrl
    rw [ctrl] at copies
    split at step
    · cases step
      exact copies
    · cases step
      unfold Moment.readPiece
      split
      · split
        · trivial
        · rw [ctrl]
          exact copies
      · simp only
        rw [ctrl]
        exact copies

theorem Control.Copies.reach {m m' : Moment} (copies : m.control.Copies) (reach : m.Reach m') :
    m'.control.Copies := by
  induction reach with
  | refl => exact copies
  | tail _ step ih => exact ih.step step

/-- The copy asks for what is left, and never for more. -/
theorem exact_copy (announced : UInt64) (chunks : List Bytes) {m : Moment}
    (reach : (Moment.start announced chunks [.rest]).Reach m) : m.Exact announced := by
  apply (exact_iff_budgeted announced chunks [.rest]).mpr ?_ m reach
  intro m' reach' item items ctrl
  have start : (Moment.start announced chunks [.rest]).control.Copies := .inl rfl
  have copies := start.reach reach'
  rw [ctrl] at copies
  cases copies

/-! ## The parsers, moment by moment -/

section Drives

variable {γ : Type} {update : γ → Bytes → γ} {α β : Type}

/-- What the buffer has of a `readExact` comes in one piece. -/
theorem reach_copy {control : Control} {size : ℕ} (reads : control.reading = some size) {n : ℕ}
    {got : Bytes} (missing : got.length + n = size) (buf : Bytes) (chunks : List Bytes)
    (remaining : UInt64) (consumed : ℕ) :
    (Moment.mk control got buf chunks remaining consumed).Reach
      (Moment.mk control (got ++ buf.take (min buf.length n)) (buf.drop (min buf.length n)) chunks
        (remaining - UInt64.ofNat (min buf.length n)) (consumed + min buf.length n)) := by
  by_cases none : min buf.length n = 0
  · rw [none]
    simpa using Relation.ReflTransGen.refl
  · have nonempty : buf ≠ [] := by
      rintro rfl
      exact none (Nat.zero_min n)
    have left : size - got.length = n := by omega
    have step := step_of_reading (m := Moment.mk control got buf chunks remaining consumed) reads
      (by simp only; omega)
    rw [readPiece_copy nonempty] at step
    simp only [left] at step
    exact .single step

/-- `pull` copies piece by piece. -/
theorem reach_pull {control : Control} {size : ℕ} (reads : control.reading = some size) {n : ℕ}
    {buf : Bytes} {chunks : List Bytes} {d d' : γ} {out buf' : Bytes} {chunks' : List Bytes}
    (pulled : pull update n buf chunks d = some (out, buf', chunks', d')) {got : Bytes}
    (missing : got.length + n = size) (remaining : UInt64) (consumed : ℕ) :
    (Moment.mk control got buf chunks remaining consumed).Reach
      (Moment.mk control (got ++ out) buf' chunks' (remaining - UInt64.ofNat n) (consumed + n)) := by
  have copy := reach_copy reads missing buf chunks remaining consumed
  rw [pull.eq_def] at pulled
  split at pulled
  · rename_i enough
    cases pulled
    rwa [Nat.min_eq_right enough] at copy
  · rename_i more
    have all : min buf.length n = buf.length := by omega
    rw [all, List.take_length, List.drop_length] at copy
    cases chunks with
    | nil => cases pulled
    | cons chunk later =>
      obtain ⟨⟨out', rest⟩, pulled', eq⟩ := Option.bind_eq_some_iff.mp pulled
      cases eq
      have step : (Moment.mk control (got ++ buf) [] (chunk :: later) (remaining - UInt64.ofNat buf.length)
          (consumed + buf.length)).step = some (Moment.mk control (got ++ buf) chunk later
            (remaining - UInt64.ofNat buf.length) (consumed + buf.length)) := by
        rw [step_of_reading reads (by simp only [List.length_append]; omega), readPiece_fill rfl rfl]
      have missing' : (got ++ buf).length + (n - buf.length) = size := by
        rw [List.length_append]
        omega
      have tail := reach_pull reads pulled' missing' (remaining - UInt64.ofNat buf.length)
        (consumed + buf.length)
      have total : buf.length + (n - buf.length) = n := by omega
      rw [List.append_assoc, sub_sub, ← UInt64.ofNat_add, Nat.add_assoc, total] at tail
      exact copy.trans (.head step tail)
termination_by chunks.length

/-- A parser takes the machine over the items. -/
def Drives (p : Parser γ α) (items : List Item) : Prop :=
  ∀ s v s' rest consumed, p s = some (v, s') → ∃ consumed',
    (Moment.mk (.next (items ++ rest)) [] s.buf s.chunks s.remaining consumed).Reach
      (Moment.mk (.next rest) [] s'.buf s'.chunks s'.remaining consumed')

theorem Drives.pure (v : α) : Drives (pure v : Parser γ α) [] := by
  intro s u s' rest consumed ran
  cases ran
  exact ⟨consumed, .refl⟩

theorem Drives.bind {p : Parser γ α} {f : α → Parser γ β} {items items' : List Item}
    (first : Drives p items) (second : ∀ v, Drives (f v) items') : Drives (p >>= f) (items ++ items') := by
  intro s u s' rest consumed ran
  obtain ⟨⟨v, mid⟩, ran', ran''⟩ := Option.bind_eq_some_iff.mp ran
  obtain ⟨consumed', reach⟩ := first s v mid (items' ++ rest) consumed ran'
  obtain ⟨consumed'', reach'⟩ := second v mid u s' rest consumed' ran''
  rw [← List.append_assoc] at reach
  exact ⟨consumed'', reach.trans reach'⟩

theorem Drives.many {p : Parser γ α} {items : List Item} (each : Drives p items) (n : ℕ) :
    Drives (many p n) (List.replicate n items).flatten := by
  induction n with
  | zero => exact Drives.pure []
  | succ n ih =>
    rw [List.replicate_succ, List.flatten_cons]
    apply each.bind
    intro x
    have tail := ih.bind fun xs => Drives.pure (γ := γ) (x :: xs)
    rwa [List.append_nil] at tail

variable (run : Running update)
include run

/-- The field of an item. -/
theorem reach_field (item : Item) (field : item ≠ .rest) {s s' : Source γ} {out : Bytes}
    (read : readExact update item.fieldSize s = some (out, s')) (items : List Item) (consumed : ℕ) :
    (Moment.mk (.next (item :: items)) [] s.buf s.chunks s.remaining consumed).Reach
      ((Moment.mk (.field item items) out s'.buf s'.chunks s'.remaining
        (consumed + item.fieldSize)).afterField item items) := by
  obtain ⟨length, -⟩ := readExact_takes run read
  obtain ⟨⟨out', buf, chunks, digest⟩, pulled, eq⟩ := Option.bind_eq_some_iff.mp read
  cases eq
  have start : (Moment.mk (.next (item :: items)) [] s.buf s.chunks s.remaining consumed).step =
      some (Moment.mk (.field item items) [] s.buf s.chunks s.remaining consumed) := by
    cases item with
    | rest => exact absurd rfl field
    | fixed size => rfl
    | tag => rfl
    | counted width => rfl
  have reads : (Control.field item items).reading = some item.fieldSize := rfl
  have missing : ([] : Bytes).length + item.fieldSize = item.fieldSize := Nat.zero_add _
  have body := reach_pull reads pulled missing s.remaining consumed
  rw [List.nil_append] at body
  exact .head start (body.tail (if_pos length))

theorem drives_fixed (size : ℕ) : Drives (readExact update size) [.fixed size] := by
  intro s v s' rest consumed read
  exact ⟨_, reach_field run (.fixed size) (by simp) read rest consumed⟩

/-- The elements behind a count. -/
theorem reach_data {n : ℕ} {s s' : Source γ} {out : Bytes} (read : readExact update n s = some (out, s'))
    (passes : n ≤ s.remaining.toNat) (items : List Item) (consumed : ℕ) :
    (Moment.mk (.check n items) [] s.buf s.chunks s.remaining consumed).Reach
      (Moment.mk (.next items) [] s'.buf s'.chunks s'.remaining (consumed + n)) := by
  obtain ⟨length, -⟩ := readExact_takes run read
  obtain ⟨⟨out', buf, chunks, digest⟩, pulled, eq⟩ := Option.bind_eq_some_iff.mp read
  cases eq
  have start : (Moment.mk (.check n items) [] s.buf s.chunks s.remaining consumed).step =
      some (Moment.mk (.data n items) [] s.buf s.chunks s.remaining consumed) := if_pos passes
  have reads : (Control.data n items).reading = some n := rfl
  have missing : ([] : Bytes).length + n = n := Nat.zero_add n
  have body := reach_pull reads pulled missing s.remaining consumed
  rw [List.nil_append] at body
  exact .head start (body.tail (if_pos length))

/-- A count and its elements, as strings and id vectors have them. -/
theorem reach_counted {width : ℕ} {n : UInt32} {s s₁ s' : Source γ} {out : Bytes}
    (count : readU32 update s = some (n, s₁)) (passes : n.toNat * width ≤ s₁.remaining.toNat)
    (read : readExact update (n.toNat * width) s₁ = some (out, s')) (rest : List Item) (consumed : ℕ) :
    ∃ consumed', (Moment.mk (.next (.counted width :: rest)) [] s.buf s.chunks s.remaining consumed).Reach
      (Moment.mk (.next rest) [] s'.buf s'.chunks s'.remaining consumed') := by
  obtain ⟨b, s₂, four, eq⟩ := bind_some count
  obtain ⟨rfl, rfl⟩ := pure_some eq
  have field := reach_field run (.counted width) (by simp) four rest consumed
  exact ⟨_, field.trans (reach_data run read passes rest _)⟩

theorem drives_readStr : Drives (readStr update) [.counted 1] := by
  intro s v s' rest consumed ran
  obtain ⟨n, s₁, count, ran⟩ := bind_some ran
  obtain ⟨_, s₂, checked, ran⟩ := bind_some ran
  have passes : n.toNat * 1 ≤ s₁.remaining.toNat := by
    rw [Nat.mul_one]
    by_contra fails
    rw [checkRemaining, if_neg fails] at checked
    cases checked
  cases checkRemaining_some checked
  exact reach_counted run count passes (by rw [Nat.mul_one]; exact ran) rest consumed

theorem drives_readIds : Drives (readIds update) [.counted 4] := by
  intro s v s' rest consumed ran
  obtain ⟨n, s₁, count, ran⟩ := bind_some ran
  obtain ⟨_, s₂, checked, ran⟩ := bind_some ran
  obtain ⟨out, s₃, read, eq⟩ := bind_some ran
  obtain ⟨rfl, rfl⟩ := pure_some eq
  have passes : n.toNat * 4 ≤ s₁.remaining.toNat := by
    by_contra fails
    rw [checkRemaining, if_neg fails] at checked
    cases checked
  cases checkRemaining_some checked
  exact reach_counted run count passes read rest consumed

theorem drives_readCanonAlgo (version : UInt32) :
    Drives (readCanonAlgo update version) (if version = 3 then [.tag] else []) := by
  unfold readCanonAlgo
  split
  · intro s v s' rest consumed ran
    obtain ⟨b, s₁, read, ran⟩ := bind_some ran
    have field := reach_field run .tag (by simp) read rest consumed
    cases algo : canonAlgoOf b with
    | none =>
      rw [algo] at ran
      cases ran
    | some known =>
      rw [algo] at ran
      cases ran
      simp only [Moment.afterField, algo, Option.isSome_some, if_true] at field
      exact ⟨_, field⟩
  · exact Drives.pure _

theorem drives_readPoint (version : UInt32) : Drives (readPoint update version) (pointItems version) := by
  have hash : Drives (readU64 update) [.fixed 8] := (drives_fixed run 8).bind fun _ => Drives.pure _
  rw [pointItems, List.append_assoc]
  apply (drives_readStr run).bind
  intro tag
  apply (drives_readCanonAlgo run version).bind
  intro algo
  apply hash.bind
  intro hash
  apply (drives_readIds run).bind
  exact fun _ => Drives.pure _

theorem drives_readWhenGroup : Drives (readWhenGroup update) whenGroupItems := by
  have key : Drives (readU32 update) [.fixed 4] := (drives_fixed run 4).bind fun _ => Drives.pure _
  apply key.bind
  intro condKey
  apply (drives_readIds run).bind
  exact fun _ => Drives.pure _

theorem drives_readBody (version nameCount pointCount whenGroupCount : UInt32) :
    Drives (readBody update version nameCount pointCount whenGroupCount)
      (payloadItems version nameCount pointCount whenGroupCount) := by
  rw [payloadItems, List.append_assoc]
  apply ((drives_readStr run).many nameCount.toNat).bind
  intro keys
  apply ((drives_readPoint run version).many pointCount.toNat).bind
  intro points
  rw [← List.append_nil (List.replicate _ _).flatten]
  apply ((drives_readWhenGroup run).many whenGroupCount.toNat).bind
  exact fun _ => Drives.pure _

/-- A payload that the loader reads takes the machine to its end, with the same counter. -/
theorem reach_readBody {version nameCount pointCount whenGroupCount : UInt32} {announced : UInt64}
    {chunks : List Bytes} {d : γ} {body : List Bytes × List Seed2Point × List Seed2WhenGroup}
    {input : Source γ}
    (ran : readBody update version nameCount pointCount whenGroupCount ⟨[], chunks, announced, d⟩ =
      some (body, input)) :
    ∃ m, (Moment.start announced chunks
        (payloadItems version nameCount pointCount whenGroupCount)).Reach m ∧
      m.control = .next [] ∧ m.buf = input.buf ∧ m.chunks = input.chunks ∧
      m.rawRemaining = input.remaining := by
  obtain ⟨consumed, reach⟩ := drives_readBody run _ _ _ _ _ _ _ [] 0 ran
  rw [List.append_nil] at reach
  exact ⟨_, reach, rfl, rfl, rfl, rfl⟩

end Drives

/-! ## The budget of a file -/

theorem loadStart_some {inflate : Bytes → List Bytes} {file : Bytes} {announced : UInt64} {start : Moment}
    (opened : loadStart inflate file = some (announced, start)) :
    ∃ chunks items, start = .start announced chunks items := by
  obtain ⟨⟨announced', header, chunks⟩, -, eq⟩ := Option.bind_eq_some_iff.mp opened
  cases eq
  exact ⟨_, _, rfl⟩

theorem transcodeStart_some {inflate : Bytes → List Bytes} {file : Bytes} {announced : UInt64}
    {start : Moment} (opened : transcodeStart inflate file = some (announced, start)) :
    ∃ chunks, start = .start announced chunks [.rest] := by
  obtain ⟨⟨announced', header, chunks⟩, -, eq⟩ := Option.bind_eq_some_iff.mp opened
  cases eq
  exact ⟨_, rfl⟩

/-- The loader's counter is exact all through the read exactly when no field starts without room for
    it; the transcoder's always is. -/
theorem rawRemaining_exact_iff (inflate : Bytes → List Bytes) (file : Bytes) :
    (∀ announced start, loadStart inflate file = some (announced, start) →
      ((∀ m, start.Reach m → m.Exact announced) ↔ ∀ m, start.Reach m → m.Budgeted announced)) ∧
    ∀ announced start, transcodeStart inflate file = some (announced, start) →
      ∀ m, start.Reach m → m.Exact announced := by
  constructor
  · intro announced start opened
    obtain ⟨chunks, items, rfl⟩ := loadStart_some opened
    exact exact_iff_budgeted announced chunks items
  · intro announced start opened m reach
    obtain ⟨chunks, rfl⟩ := transcodeStart_some opened
    exact exact_copy announced chunks reach

/-- A version 2 file with one name and one point that announces four bytes of payload. -/
def shortSeed : Bytes :=
  SEED2_MAGIC ++ le 4 2 ++ le 8 0 ++ le 4 0 ++ le 4 1 ++ le 4 1 ++ le 4 0 ++
    (le 4 0 ++ le 4 0 ++ le 8 4 ++ le 4 0 ++ le 8 8) ++ (le 4 0 ++ le 4 1000)

deriving instance DecidableEq for CodecHeader, Seed2Header, Source

/-- The header of the file is accepted. -/
theorem openInput_shortSeed (inflate : Bytes → List Bytes) :
    openInput inflate shortSeed =
      some (4, ⟨2, 0, [], 1, 1, 0, some ⟨0, 0, 4, 0, 8⟩⟩, [le 4 0 ++ le 4 1000]) := by
  have chunks : toChunks BUF (le 4 0 ++ le 4 1000) = [le 4 0 ++ le 4 1000] :=
    toChunks_one (by decide) (by decide) (by decide)
  have header : readHeader ⟨shortSeed, [], UInt64.ofNat shortSeed.length, ()⟩ =
      some (⟨2, 0, [], 1, 1, 0, some ⟨0, 0, 4, 0, 8⟩⟩, ⟨le 4 0 ++ le 4 1000, [], 8, ()⟩) := by
    decide +kernel
  have payload : (⟨le 4 0 ++ le 4 1000, [], 8, ()⟩ : Source Unit).flat = le 4 0 ++ le 4 1000 := rfl
  simp [openInput, header, payloadBytesOf, fillChunks, payload, chunks]

theorem loadStart_shortSeed (inflate : Bytes → List Bytes) :
    loadStart inflate shortSeed = some (4, .start 4 [le 4 0 ++ le 4 1000]
      [.counted 1, .counted 1, .fixed 8, .counted 4]) := by
  rw [loadStart, openInput_shortSeed]
  rfl

theorem transcodeStart_shortSeed (inflate : Bytes → List Bytes) :
    transcodeStart inflate shortSeed = some (4, .start 4 [le 4 0 ++ le 4 1000] [.rest]) := by
  rw [transcodeStart, openInput_shortSeed]
  rfl

theorem reach_of_iterate {m m' : Moment} {n : ℕ}
    (ran : (fun o : Option Moment => o.bind Moment.step)^[n] (some m) = some m') : m.Reach m' := by
  induction n generalizing m' with
  | zero =>
    cases ran
    exact .refl
  | succ n ih =>
    rw [Function.iterate_succ_apply'] at ran
    obtain ⟨before, ran', step⟩ := Option.bind_eq_some_iff.mp ran
    exact (ih ran').tail step

/-- Where the string is empty and the length of the tag has been read, the counter is at `2 ^ 64 - 4`
    and a length of 1000 is let through. -/
theorem not_exact_shortSeed :
    ∃ start m, loadStart (fun _ => []) shortSeed = some (4, start) ∧ start.Reach m ∧
      m.consumed = 8 ∧ m.rawRemaining.toNat = 2 ^ 64 - 4 ∧ m.control = .check 1000 [.fixed 8, .counted 4] ∧
      1000 ≤ m.rawRemaining.toNat ∧ ¬ m.Exact 4 := by
  refine ⟨_, ⟨.check 1000 [.fixed 8, .counted 4], [], [], [], 0 - 4, 8⟩, loadStart_shortSeed _,
    reach_of_iterate (n := 9) (by decide +kernel), rfl, by decide, rfl, by decide, fun exact => ?_⟩
  have le := exact.consumed
  revert le
  decide

/-- The theorem at the file: the loader's side of it, and the transcoder's. -/
theorem rawRemaining_exact_iff_shortSeed :
    ((∀ m, (Moment.start 4 [le 4 0 ++ le 4 1000] [.counted 1, .counted 1, .fixed 8, .counted 4]).Reach m →
      m.Exact 4) ↔
      ∀ m, (Moment.start 4 [le 4 0 ++ le 4 1000] [.counted 1, .counted 1, .fixed 8, .counted 4]).Reach m →
        m.Budgeted 4) ∧
    ∀ m, (Moment.start 4 [le 4 0 ++ le 4 1000] [.rest]).Reach m → m.Exact 4 := by
  obtain ⟨load, transcode⟩ := rawRemaining_exact_iff (fun _ => []) shortSeed
  exact ⟨load 4 _ (loadStart_shortSeed _), transcode 4 _ (transcodeStart_shortSeed _)⟩

end Gsim.Seed2
