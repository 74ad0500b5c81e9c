/-
  Gsim/ByteStream.lean
  ====================
  **Byte streams delivered in pieces, and parsers over them.**

  A `Source` hands out bytes from a buffer that is refilled chunk by chunk, keeps
  the number of bytes it still owes as a 64-bit counter, and folds every byte it
  delivers into a running digest.  How the bytes are cut into chunks is the
  source's own affair; `Parses p bytes v` says what a parser does irrespective of
  it: started on a source that goes on with `bytes`, `p` returns `v`, leaves the
  source right behind them and has digested exactly them.

  `Parses` composes (`Parses.bind`, `Parses.many`), so the proof that a reader
  undoes a writer follows the grammar of the format.  Little-endian integers are
  at the end.
-/
import Mathlib

namespace Gsim.ByteStream

abbrev Bytes := List UInt8

/-! ## Cutting into chunks -/

/-- Consecutive pieces of at most `k` bytes, none empty. -/
def toChunks (k : Nat) (bytes : Bytes) : List Bytes :=
  if bytes = [] ∨ k = 0 then []
  else bytes.take k :: toChunks k (bytes.drop k)
termination_by bytes.length
decreasing_by
  have : 0 < bytes.length := by
    apply List.length_pos_of_ne_nil
    tauto
  simp only [List.length_drop]
  omega

theorem toChunks_nil (k : Nat) : toChunks k [] = [] := by
  rw [toChunks]
  simp

theorem flatten_toChunks {k : Nat} (pos : 0 < k) (bytes : Bytes) :
    (toChunks k bytes).flatten = bytes := by
  induction bytes using toChunks.induct k with
  | case1 bytes stop =>
    rw [toChunks, if_pos stop]
    rcases stop with rfl | zero
    · rfl
    · omega
  | case2 bytes go ih =>
    rw [toChunks, if_neg go, List.flatten_cons, ih, List.take_append_drop]

/-! ## Sources -/

structure Source (γ : Type) where
  /-- the unread part of the current chunk -/
  buf : Bytes
  /-- the chunks still to come -/
  chunks : List Bytes
  /-- the bytes the consumer is still owed -/
  remaining : UInt64
  digest : γ

namespace Source

variable {γ : Type}

/-- Everything the source will deliver. -/
def flat (s : Source γ) : Bytes := s.buf ++ s.chunks.flatten

end Source

/-- A digest that can be continued: nothing changes it on no bytes, and digesting in two
    steps is digesting at once. -/
structure Running {γ : Type} (update : γ → Bytes → γ) : Prop where
  nil : ∀ d, update d [] = d
  append : ∀ d a b, update (update d a) b = update d (a ++ b)

theorem Running.foldl {γ : Type} {update : γ → Bytes → γ} (run : Running update)
    (chunks : List Bytes) (d : γ) : chunks.foldl update d = update d chunks.flatten := by
  induction chunks generalizing d with
  | nil => exact (run.nil d).symm
  | cons c cs ih => rw [List.foldl_cons, ih, run.append, List.flatten_cons]

abbrev Parser (γ α : Type) := StateT (Source γ) Option α

section Read

variable {γ : Type} (update : γ → Bytes → γ)

/-- Collect `n` bytes: whatever the buffer has, then chunk after chunk. -/
def pull (n : Nat) (buf : Bytes) (chunks : List Bytes) (d : γ) :
    Option (Bytes × Bytes × List Bytes × γ) :=
  if n ≤ buf.length then some (buf.take n, buf.drop n, chunks, update d (buf.take n))
  else match chunks with
    | [] => none
    | c :: cs => do
      let (out, rest) ← pull (n - buf.length) c cs (update d buf)
      some (buf ++ out, rest)

/-- The next `n` bytes. -/
def readExact (n : Nat) : Parser γ Bytes := fun s => do
  let (out, buf, chunks, digest) ← pull update n s.buf s.chunks s.digest
  some (out, { buf, chunks, digest, remaining := s.remaining - UInt64.ofNat n })

/-- Go on only if the source still owes at least `cost` bytes. -/
def checkRemaining (cost : Nat) : Parser γ Unit := fun s =>
  if cost ≤ s.remaining.toNat then some ((), s) else none

/-- Go on only if `b`. -/
def require (b : Bool) : Parser γ Unit := fun s => if b then some ((), s) else none

/-- `p`, as often as said. -/
def many {α : Type} (p : Parser γ α) : Nat → Parser γ (List α)
  | 0 => pure []
  | n + 1 => do
    let x ← p
    let xs ← many p n
    pure (x :: xs)

end Read

/-! ## Parsing a known prefix -/

section Parses

variable {γ : Type} {update : γ → Bytes → γ} {α β : Type}

/-- On a source that continues with `bytes`, `p` consumes exactly them and returns `v`. -/
def Parses (update : γ → Bytes → γ) (p : Parser γ α) (bytes : Bytes) (v : α) : Prop :=
  ∀ (s : Source γ) (rest : Bytes), s.flat = bytes ++ rest → (bytes ++ rest).length < 2 ^ 64 →
    s.remaining = UInt64.ofNat (bytes ++ rest).length →
    ∃ s', p s = some (v, s') ∧ s'.flat = rest ∧ s'.remaining = UInt64.ofNat rest.length ∧
      s'.digest = update s.digest bytes

theorem pull_spec (run : Running update) (chunks : List Bytes) (buf bytes rest : Bytes) (d : γ)
    (flat : buf ++ chunks.flatten = bytes ++ rest) :
    ∃ buf' chunks', pull update bytes.length buf chunks d =
        some (bytes, buf', chunks', update d bytes) ∧
      buf' ++ chunks'.flatten = rest := by
  induction chunks generalizing buf bytes d with
  | nil =>
    rw [List.flatten_nil, List.append_nil] at flat
    subst flat
    refine ⟨rest, [], ?_, by simp⟩
    simp [pull]
  | cons c cs ih =>
    unfold pull
    by_cases enough : bytes.length ≤ buf.length
    · -- the buffer already holds the bytes
      have take : buf.take bytes.length = bytes := by
        have := congrArg (List.take bytes.length) flat
        rwa [List.take_append_of_le_length enough, List.take_left] at this
      have drop : buf.drop bytes.length ++ (c :: cs).flatten = rest := by
        have := congrArg (List.drop bytes.length) flat
        rwa [List.drop_append_of_le_length enough, List.drop_left] at this
      refine ⟨buf.drop bytes.length, c :: cs, ?_, drop⟩
      rw [if_pos enough, take]
    · -- it holds a proper prefix of them
      obtain ⟨tail, rfl⟩ : ∃ tail, bytes = buf ++ tail := by
        have pre : buf <+: bytes ++ rest := ⟨_, flat⟩
        exact (List.prefix_of_prefix_length_le pre (List.prefix_append bytes rest)
          (by omega)).imp fun _ h => h.symm
      have next : c ++ cs.flatten = tail ++ rest := by
        rw [List.flatten_cons, List.append_assoc] at flat
        exact List.append_cancel_left flat
      obtain ⟨buf', chunks', eq, flat'⟩ := ih c tail (update d buf) next
      refine ⟨buf', chunks', ?_, flat'⟩
      rw [if_neg enough]
      simp only [List.length_append, Nat.add_sub_cancel_left, eq, run.append]
      rfl

theorem ofNat_length_sub (a b : Bytes) :
    UInt64.ofNat (a ++ b).length - UInt64.ofNat a.length = UInt64.ofNat b.length := by
  rw [List.length_append, UInt64.ofNat_add, add_sub_cancel_left]

theorem Parses.readExact (run : Running update) (bytes : Bytes) :
    Parses update (readExact update bytes.length) bytes bytes := by
  intro s rest flat _ remaining
  obtain ⟨buf', chunks', eq, flat'⟩ := pull_spec run s.chunks s.buf bytes rest s.digest flat
  refine ⟨⟨buf', chunks', s.remaining - UInt64.ofNat bytes.length, update s.digest bytes⟩, ?_, flat',
    ?_, rfl⟩
  · simp [ByteStream.readExact, eq]
  · show s.remaining - UInt64.ofNat bytes.length = _
    rw [remaining, ofNat_length_sub]

theorem Parses.pure (run : Running update) (v : α) :
    Parses update (pure v : Parser γ α) [] v := by
  intro s rest flat _ remaining
  exact ⟨s, rfl, flat, remaining, (run.nil _).symm⟩

theorem Parses.bind (run : Running update) {p : Parser γ α} {f : α → Parser γ β} {a b : Bytes}
    {v : α} {u : β} (hp : Parses update p a v) (hf : Parses update (f v) b u) :
    Parses update (p >>= f) (a ++ b) u := by
  intro s rest flat bound remaining
  rw [List.append_assoc] at flat bound remaining
  obtain ⟨s1, eq1, flat1, remaining1, digest1⟩ := hp s (b ++ rest) flat bound remaining
  have bound1 : (b ++ rest).length < 2 ^ 64 := by
    rw [List.length_append] at bound
    omega
  obtain ⟨s2, eq2, flat2, remaining2, digest2⟩ := hf s1 rest flat1 bound1 remaining1
  refine ⟨s2, ?_, flat2, remaining2, ?_⟩
  · show (p s).bind (fun x => f x.1 x.2) = _
    rw [eq1]
    exact eq2
  · rw [digest2, digest1, run.append]

theorem Parses.map (run : Running update) {p : Parser γ α} (g : α → β) {bytes : Bytes} {v : α}
    (hp : Parses update p bytes v) : Parses update (g <$> p) bytes (g v) := by
  have image := Parses.bind run (f := fun x => Pure.pure (g x)) hp (Parses.pure run (g v))
  rw [List.append_nil] at image
  exact image

/-- A check on what is owed passes when the bytes that follow cover it. -/
theorem Parses.checkRemaining {cost : Nat} {p : Parser γ α} {bytes : Bytes} {v : α}
    (hp : Parses update p bytes v) (covered : cost ≤ bytes.length) :
    Parses update (do ByteStream.checkRemaining cost; p) bytes v := by
  intro s rest flat bound remaining
  obtain ⟨s', eq, rest'⟩ := hp s rest flat bound remaining
  refine ⟨s', ?_, rest'⟩
  have owed : s.remaining.toNat = (bytes ++ rest).length := by
    rw [remaining, UInt64.toNat_ofNat', Nat.mod_eq_of_lt bound]
  have passes : cost ≤ s.remaining.toNat := by
    rw [owed, List.length_append]
    omega
  show ((ByteStream.checkRemaining cost s).bind fun x => p x.2) = _
  rw [ByteStream.checkRemaining, if_pos passes]
  exact eq

theorem Parses.require {b : Bool} {p : Parser γ α} {bytes : Bytes} {v : α} (hb : b = true)
    (hp : Parses update p bytes v) : Parses update (do ByteStream.require b; p) bytes v := by
  intro s rest flat bound remaining
  obtain ⟨s', eq, rest'⟩ := hp s rest flat bound remaining
  refine ⟨s', ?_, rest'⟩
  show ((ByteStream.require b s).bind fun x => p x.2) = _
  rw [ByteStream.require, if_pos hb]
  exact eq

/-- A counted section: each element's bytes in turn. -/
theorem Parses.many (run : Running update) {p : Parser γ α} {encode : α → Bytes} (xs : List α)
    (hp : ∀ x ∈ xs, Parses update p (encode x) x) :
    Parses update (many p xs.length) (xs.flatMap encode) xs := by
  induction xs with
  | nil => exact Parses.pure run []
  | cons x xs ih =>
    have tail := ih fun y hy => hp y (List.mem_cons_of_mem x hy)
    rw [List.flatMap_cons]
    apply Parses.bind run (hp x List.mem_cons_self)
    have last := Parses.bind run (f := fun ys => Pure.pure (x :: ys)) tail (Parses.pure run _)
    rw [List.append_nil] at last
    exact last

end Parses

/-! ## Little-endian integers -/

/-- The low `n` bytes of `v`, least significant first. -/
def le : Nat → Nat → Bytes
  | 0, _ => []
  | n + 1, v => UInt8.ofNat v :: le n (v / 256)

def ofLe : Bytes → Nat
  | [] => 0
  | b :: bs => b.toNat + 256 * ofLe bs

@[simp] theorem length_le (n v : Nat) : (le n v).length = n := by
  induction n generalizing v with
  | zero => rfl
  | succ n ih => rw [le, List.length_cons, ih]

theorem ofLe_le (n v : Nat) : ofLe (le n v) = v % 256 ^ n := by
  induction n generalizing v with
  | zero => rw [pow_zero, Nat.mod_one, le, ofLe]
  | succ n ih =>
    rw [le, ofLe, ih, UInt8.toNat_ofNat']
    show v % 256 + 256 * (v / 256 % 256 ^ n) = v % 256 ^ (n + 1)
    rw [Nat.pow_succ', Nat.mod_mul]

end Gsim.ByteStream
