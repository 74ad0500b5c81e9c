/-
  Gsim/SeedText.lean
  ==================
  **The text seed** (`mtSeedWrite`, `mtSeedLoad`, `mtSeedVerifyInputHash` and
  `mtSeedRankOf` of `seedOrder.cpp`).

  The writer prints the name of the first member of every super on a line; the
  reader takes lines with `fgets` into a buffer of 4096 bytes, drops line ends and
  empty lines, and numbers what is left.  A name of 4096 bytes or more is cut, an
  empty one is skipped, and one that ends in a carriage return loses it; a rank is
  the least one of any member.

  `roundTrips_iff` says which lists survive.  Bytes are written as characters.
-/
import Mathlib.Data.List.DropRight
import Mathlib.Tactic

namespace Gsim.SeedText

abbrev Text := List Char

/-! ## The C library -/

/-- A C string ends at its first zero byte. -/
def cstr (text : Text) : Text := text.takeWhile (· ≠ '\x00')

/-- `isspace` -/
def isSpace (c : Char) : Bool := c = ' ' ∨ '\t' ≤ c ∧ c ≤ '\r'

/-- At most `n` bytes, up to and with the first line end. -/
def takeLine : ℕ → Text → Text
  | 0, _ => []
  | _, [] => []
  | n + 1, c :: text => if c = '\n' then [c] else c :: takeLine n text

/-- The lines that `fgets` reads with a buffer of `size` bytes. -/
def fgetsLines (size : ℕ) (file : Text) : List Text :=
  if file = [] ∨ size ≤ 1 then []
  else takeLine (size - 1) file :: fgetsLines size (file.drop (takeLine (size - 1) file).length)
termination_by file.length
decreasing_by
  rename_i go
  rw [not_or] at go
  obtain ⟨c, text, rfl⟩ := List.exists_cons_of_ne_nil go.1
  obtain ⟨n, hn⟩ : ∃ n, size - 1 = n + 1 := ⟨size - 2, by omega⟩
  rw [hn, takeLine, List.length_drop]
  split <;> simp

/-- `sscanf(line, "<literal> %<width>s", word)` -/
def scanWord (literal : Text) (width : ℕ) (line : Text) : Option Text :=
  if literal.isPrefixOf line then
    let word := (((line.drop literal.length).dropWhile isSpace).takeWhile (!isSpace ·)).take width
    if word = [] then none else some word
  else none

/-- `sscanf(line, "<literal> %lld", &number)` -/
def scanInt (literal line : Text) : Option ℤ :=
  if literal.isPrefixOf line then
    let rest := (line.drop literal.length).dropWhile isSpace
    let (sign, rest) : ℤ × Text :=
      match rest with
      | '-' :: rest => (-1, rest)
      | '+' :: rest => (1, rest)
      | rest => (1, rest)
    let digits := rest.takeWhile Char.isDigit
    if digits = [] then none else some (sign * Nat.ofDigitChars 10 digits 0)
  else none

/-- `%016llx` -/
def hex16 (hash : UInt64) : Text :=
  (List.range 16).map fun i => Nat.digitChar (hash.toNat / 16 ^ (15 - i) % 16)

/-! ## The program -/

/-- A super, by the names of its members. -/
abbrev Super := List Text

def mtSeedWrite (sortedSuper : List Super) (inputHash : UInt64) (generatorTag : Text) : Text :=
  "# gsimseed v1\n".toList ++
  ("input_hash ".toList ++ hex16 inputHash ++ ['\n']) ++
  ("node_count ".toList ++ Nat.toDigits 10 sortedSuper.length ++ ['\n']) ++
  ("generator ".toList ++ cstr generatorTag ++ ['\n']) ++
  "---\n".toList ++
  sortedSuper.flatMap fun super => (super.take 1).flatMap fun name => cstr name ++ ['\n']

structure SeedState where
  headerDone : Bool
  rank : ℕ
  declaredCount : ℤ
  declaredHash : Text
  seedRankByName : Text → Option ℕ

def SeedState.init : SeedState :=
  { headerDone := false, rank := 0, declaredCount := -1, declaredHash := [], seedRankByName := fun _ => none }

/-- `emplace` keeps an entry that is there. -/
def emplace (name : Text) (rank : ℕ) (ranks : Text → Option ℕ) : Text → Option ℕ := fun other =>
  if other = name then some ((ranks other).getD rank) else ranks other

/-- Line ends at the end of a line. -/
def strip (line : Text) : Text := line.rdropWhile fun c => c = '\n' ∨ c = '\r'

/-- One round of the loop. -/
def loadLine (st : SeedState) (buffer : Text) : Option SeedState :=
  let line := cstr buffer
  if st.headerDone = false then
    if "# gsimseed v1".toList.isPrefixOf line then some st
    else match scanWord "input_hash".toList 127 line with
      | some declaredHash => some { st with declaredHash }
      | none => match scanInt "node_count".toList line with
        | some declaredCount => some { st with declaredCount }
        | none =>
          if "generator".toList.isPrefixOf line then some st
          else if "date".toList.isPrefixOf line then some st
          else if "---".toList.isPrefixOf line then some { st with headerDone := true }
          else none
  else
    let name := strip line
    if name = [] then some st
    else some { st with
      seedRankByName := emplace name st.rank st.seedRankByName
      rank := st.rank + 1 }

/-- What `mtSeedLoad` leaves behind. -/
structure Seed where
  seedRankByName : Text → Option ℕ
  seedDeclaredHash : Text

def mtSeedLoad (file : Text) : Option Seed := do
  let st ← (fgetsLines 4096 file).foldlM loadLine .init
  if (st.declaredCount < 0 ∨ st.declaredCount = st.rank) ∧ st.declaredHash ≠ [] then
    some { seedRankByName := st.seedRankByName, seedDeclaredHash := st.declaredHash }
  else none

def mtSeedVerifyInputHash (seed : Seed) (computedInputHash : UInt64) : Bool :=
  hex16 computedInputHash = seed.seedDeclaredHash

/-- `none` is `LLONG_MAX`. -/
def mtSeedRankOf (seed : Seed) (super : Super) : Option ℕ :=
  super.foldl (fun best name =>
    match seed.seedRankByName name with
    | none => best
    | some rank => some (match best with | none => rank | some best => min best rank)) none

/-- The tag of both callers. -/
def generatorTag : Text := "wip/dense-b1-lookahead".toList

/-! ## Surviving the file -/

/-- The file is accepted, for the same hash, and every super has its position as rank. -/
def RoundTrips (sortedSuper : List Super) (inputHash : UInt64) : Prop :=
  ∃ seed, mtSeedLoad (mtSeedWrite sortedSuper inputHash generatorTag) = some seed ∧
    mtSeedVerifyInputHash seed inputHash = true ∧
    ∀ (i : ℕ) (super : Super), sortedSuper[i]? = some super → mtSeedRankOf seed super = some i

/-- What a name without line breaks is listed as: pieces of 4095 bytes, without carriage returns at
    their ends, and without empty ones. -/
def pieces (name : Text) : List Text :=
  if name.length < 4095 then [strip name].filter (· ≠ [])
  else [strip (name.take 4095)].filter (· ≠ []) ++ pieces (name.drop 4095)
termination_by name.length
decreasing_by
  rw [List.length_drop]
  omega

def listed (sortedSuper : List Super) : List Text :=
  sortedSuper.flatMap fun super => (super.take 1).flatMap fun name => pieces (cstr name)

/-- The pieces and the supers match one to one. -/
def Listed (sortedSuper : List Super) : Prop :=
  (listed sortedSuper).length = sortedSuper.length ∧
  ∀ (i : ℕ) (super : Super), sortedSuper[i]? = some super →
    (∃ name ∈ super, (listed sortedSuper)[i]? = some name) ∧
    ∀ j < i, ∀ name ∈ super, (listed sortedSuper)[j]? ≠ some name

/-- A name that is listed as it is. -/
structure Plain (name : Text) : Prop where
  nonempty : name ≠ []
  short : name.length ≤ 4095
  noZero : '\x00' ∉ name
  noReturn : name.getLast? ≠ some '\r'

/-! ## Lines -/

theorem takeLine_append {n : ℕ} {text : Text} (one : '\n' ∉ text) (fits : text.length < n) (rest : Text) :
    takeLine n (text ++ '\n' :: rest) = text ++ ['\n'] := by
  induction text generalizing n with
  | nil =>
    obtain ⟨n, rfl⟩ : ∃ k, n = k + 1 := ⟨n - 1, by omega⟩
    rw [List.nil_append, takeLine, if_pos rfl, List.nil_append]
  | cons c text ih =>
    obtain ⟨n, rfl⟩ : ∃ k, n = k + 1 := ⟨n - 1, by omega⟩
    have other : c ≠ '\n' := fun eq => one (by rw [eq]; exact List.mem_cons_self)
    have inner : '\n' ∉ text := fun mem => one (List.mem_cons_of_mem _ mem)
    rw [List.cons_append, takeLine, if_neg other, ih inner (by simpa using fits), List.cons_append]

theorem takeLine_long {n : ℕ} {text : Text} (one : '\n' ∉ text) (long : n ≤ text.length) (rest : Text) :
    takeLine n (text ++ rest) = text.take n := by
  induction text generalizing n with
  | nil =>
    rw [List.length_nil, Nat.le_zero] at long
    subst long
    rfl
  | cons c text ih =>
    cases n with
    | zero => rfl
    | succ n =>
      have other : c ≠ '\n' := fun eq => one (by rw [eq]; exact List.mem_cons_self)
      have inner : '\n' ∉ text := fun mem => one (List.mem_cons_of_mem _ mem)
      rw [List.cons_append, takeLine, if_neg other, ih inner (by simpa using long), List.take_succ_cons]

/-- A line that fits into the buffer. -/
theorem fgetsLines_line {size : ℕ} {text : Text} (one : '\n' ∉ text) (fits : text.length + 1 < size)
    (rest : Text) :
    fgetsLines size (text ++ '\n' :: rest) = (text ++ ['\n']) :: fgetsLines size rest := by
  have go : ¬ (text ++ '\n' :: rest = [] ∨ size ≤ 1) := by
    simp only [List.append_eq_nil_iff, reduceCtorEq, and_false, false_or]
    omega
  have again : (text ++ '\n' :: rest).drop (text ++ ['\n']).length = rest := by
    have split : text ++ '\n' :: rest = (text ++ ['\n']) ++ rest := by simp
    rw [split, List.drop_left]
  rw [fgetsLines, if_neg go, takeLine_append one (by omega), again]

/-- The lines of a name. -/
def nameLines (name : Text) : List Text :=
  if name.length < 4095 then [name ++ ['\n']]
  else name.take 4095 :: nameLines (name.drop 4095)
termination_by name.length
decreasing_by
  rw [List.length_drop]
  omega

theorem fgetsLines_name (name rest : Text) (one : '\n' ∉ name) :
    fgetsLines 4096 (name ++ '\n' :: rest) = nameLines name ++ fgetsLines 4096 rest := by
  rw [nameLines]
  by_cases short : name.length < 4095
  · rw [if_pos short, fgetsLines_line one (by omega), List.singleton_append]
  · have go : ¬ (name ++ '\n' :: rest = [] ∨ 4096 ≤ 1) := by simp
    have inner : '\n' ∉ name.drop 4095 := fun mem => one (List.mem_of_mem_drop mem)
    have length : (name.take 4095).length = 4095 := List.length_take_of_le (by omega)
    rw [if_neg short, fgetsLines, if_neg go, takeLine_long one (by omega), length,
      List.drop_append_of_le_length (by omega), fgetsLines_name _ rest inner, List.cons_append]
termination_by name.length
decreasing_by
  rw [List.length_drop]
  omega

/-! ## The list of names -/

theorem cstr_of_noZero {text : Text} (noZero : '\x00' ∉ text) : cstr text = text := by
  apply List.takeWhile_eq_self_iff.mpr
  intro c mem
  simpa using fun eq => noZero (by rw [← eq]; exact mem)

theorem noZero_cstr (text : Text) : '\x00' ∉ cstr text := by
  intro mem
  simpa using List.mem_takeWhile_imp mem

theorem mem_of_mem_cstr {text : Text} {c : Char} (mem : c ∈ cstr text) : c ∈ text :=
  (List.takeWhile_prefix _).subset mem

/-- The state after the header and some names. -/
def SeedState.listing (declaredCount : ℤ) (declaredHash : Text) (names : List Text) : SeedState :=
  { headerDone := true
    rank := names.length
    declaredCount
    declaredHash
    seedRankByName := fun name => names.idxOf? name }

theorem idxOf?_append_singleton (names : List Text) (name other : Text) :
    (names ++ [name]).idxOf? other =
      if other = name then some ((names.idxOf? other).getD names.length) else names.idxOf? other := by
  have append : (names ++ [name]).idxOf? other =
      (names.idxOf? other).or (([name].idxOf? other).map (· + names.length)) := List.findIdx?_append
  rw [append, List.idxOf?_singleton]
  by_cases same : other = name
  · subst same
    cases names.idxOf? other <;> simp
  · rw [if_neg same, if_neg (by simpa using Ne.symm same)]
    simp

theorem loadLine_listing (declaredCount : ℤ) (declaredHash : Text) (names : List Text) {line : Text}
    (noZero : '\x00' ∉ line) :
    loadLine (.listing declaredCount declaredHash names) line =
      some (.listing declaredCount declaredHash (names ++ [strip line].filter (· ≠ []))) := by
  unfold loadLine
  rw [cstr_of_noZero noZero]
  simp only [SeedState.listing, Bool.true_eq_false, if_false]
  by_cases empty : strip line = []
  · simp [empty]
  · rw [if_neg empty]
    have kept : [strip line].filter (· ≠ []) = [strip line] := by simp [empty]
    rw [kept]
    congr 2
    · simp
    · funext other
      rw [idxOf?_append_singleton]
      rfl

theorem strip_newline (name : Text) : strip (name ++ ['\n']) = strip name :=
  List.rdropWhile_concat_pos _ _ _ (by simp)

/-- All lines of a name together. -/
theorem foldlM_nameLines (declaredCount : ℤ) (declaredHash : Text) (names : List Text) (name : Text)
    (noZero : '\x00' ∉ name) :
    (nameLines name).foldlM loadLine (.listing declaredCount declaredHash names) =
      some (.listing declaredCount declaredHash (names ++ pieces name)) := by
  rw [nameLines, pieces]
  by_cases short : name.length < 4095
  · have clean : '\x00' ∉ name ++ ['\n'] := by simpa using noZero
    rw [if_pos short, if_pos short, List.foldlM_cons, loadLine_listing _ _ _ clean, strip_newline]
    rfl
  · have clean : '\x00' ∉ name.take 4095 := fun mem => noZero (List.mem_of_mem_take mem)
    have clean' : '\x00' ∉ name.drop 4095 := fun mem => noZero (List.mem_of_mem_drop mem)
    rw [if_neg short, if_neg short, List.foldlM_cons, loadLine_listing _ _ _ clean]
    show (nameLines (name.drop 4095)).foldlM loadLine _ = _
    rw [foldlM_nameLines _ _ _ _ clean', List.append_assoc]
termination_by name.length
decreasing_by
  rw [List.length_drop]
  omega

/-- The lines of all supers. -/
theorem foldlM_body (declaredCount : ℤ) (declaredHash : Text) (names : List Text) {supers : List Super}
    (one : ∀ super ∈ supers, ∀ name ∈ super.take 1, '\n' ∉ name) :
    (fgetsLines 4096 (supers.flatMap fun super =>
        (super.take 1).flatMap fun name => cstr name ++ ['\n'])).foldlM loadLine
          (.listing declaredCount declaredHash names) =
      some (.listing declaredCount declaredHash (names ++ listed supers)) := by
  induction supers generalizing names with
  | nil =>
    have none : fgetsLines 4096 [] = [] := by rw [fgetsLines, if_pos (.inl rfl)]
    rw [List.flatMap_nil, none, listed, List.flatMap_nil, List.append_nil]
    rfl
  | cons super supers ih =>
    have later := fun super mem => one super (List.mem_cons_of_mem _ mem)
    cases super with
    | nil => exact ih names later
    | cons name members =>
      have inner : '\n' ∉ cstr name :=
        fun mem => one (name :: members) List.mem_cons_self name (by simp) (mem_of_mem_cstr mem)
      have first : listed ((name :: members) :: supers) = pieces (cstr name) ++ listed supers := by
        simp [listed]
      rw [first, List.flatMap_cons, List.take_succ_cons, List.take_zero, List.flatMap_cons, List.flatMap_nil,
        List.append_nil, List.append_assoc, List.singleton_append, fgetsLines_name _ _ inner,
        List.foldlM_append, foldlM_nameLines _ _ _ _ (noZero_cstr name)]
      show (fgetsLines 4096 _).foldlM loadLine _ = _
      rw [ih _ later, List.append_assoc]

/-! ## The header -/

theorem isPrefixOf_append (literal rest : Text) : literal.isPrefixOf (literal ++ rest) = true := by
  simp

theorem scanWord_line (literal : Text) {word : Text} {width : ℕ} (some_ : word ≠ []) (fits : word.length ≤ width)
    (solid : ∀ c ∈ word, isSpace c = false) :
    scanWord literal width (literal ++ ' ' :: (word ++ ['\n'])) = some word := by
  have skip : (' ' :: (word ++ ['\n'])).dropWhile isSpace = word ++ ['\n'] := by
    obtain ⟨c, rest, rfl⟩ := List.exists_cons_of_ne_nil some_
    have space : isSpace ' ' = true := rfl
    rw [List.dropWhile_cons_of_pos space, List.cons_append,
      List.dropWhile_cons_of_neg (by simp [solid c List.mem_cons_self])]
  have take : (word ++ ['\n']).takeWhile (!isSpace ·) = word := by
    rw [List.takeWhile_append_of_pos (by simpa using solid), List.takeWhile_cons_of_neg (by decide),
      List.append_nil]
  unfold scanWord
  rw [if_pos (isPrefixOf_append _ _), List.drop_left]
  simp only [skip, take, List.take_of_length_le fits]
  rw [if_neg some_]

theorem isDigit_not_space {c : Char} (digit : c.isDigit = true) : isSpace c = false := by
  simp only [Char.isDigit, Bool.and_eq_true, decide_eq_true_eq] at digit
  apply decide_eq_false
  rintro (rfl | ⟨-, high⟩)
  · revert digit
    decide
  · have low : (48 : ℕ) ≤ c.val.toNat := digit.1
    have bound : c.val.toNat ≤ 13 := high
    omega

theorem scanInt_line (literal : Text) (n : ℕ) :
    scanInt literal (literal ++ ' ' :: (Nat.toDigits 10 n ++ ['\n'])) = some (n : ℤ) := by
  have digits : ∀ c ∈ Nat.toDigits 10 n, c.isDigit = true :=
    fun c mem => Nat.isDigit_of_mem_toDigits (by decide) (by decide) mem
  have value : Nat.ofDigitChars 10 (Nat.toDigits 10 n) 0 = n := Nat.ofDigitChars_ten_toDigits
  have some_ : Nat.toDigits 10 n ≠ [] := Nat.toDigits_ne_nil
  generalize Nat.toDigits 10 n = text at digits value some_
  obtain ⟨c, rest, rfl⟩ := List.exists_cons_of_ne_nil some_
  have first := digits c List.mem_cons_self
  have skip : (' ' :: (c :: rest ++ ['\n'])).dropWhile isSpace = c :: rest ++ ['\n'] := by
    have space : isSpace ' ' = true := rfl
    rw [List.dropWhile_cons_of_pos space, List.cons_append,
      List.dropWhile_cons_of_neg (by simp [isDigit_not_space first])]
  have take : (c :: rest ++ ['\n']).takeWhile Char.isDigit = c :: rest := by
    rw [List.takeWhile_append_of_pos digits, List.takeWhile_cons_of_neg (by decide), List.append_nil]
  unfold scanInt
  rw [if_pos (isPrefixOf_append _ _), List.drop_left]
  simp only [skip]
  split
  · rename_i minus
    rw [List.cons_append, List.cons.injEq] at minus
    rw [minus.1] at first
    cases first
  · rename_i plus
    rw [List.cons_append, List.cons.injEq] at plus
    rw [plus.1] at first
    cases first
  · simp only [take, value, if_neg some_]
    simp

theorem isSpace_digitChar {n : ℕ} (lt : n < 16) : isSpace (Nat.digitChar n) = false ∧
    Nat.digitChar n ≠ '\x00' ∧ Nat.digitChar n ≠ '\n' := by
  interval_cases n <;> decide

theorem mem_hex16 {hash : UInt64} {c : Char} (mem : c ∈ hex16 hash) :
    isSpace c = false ∧ c ≠ '\x00' ∧ c ≠ '\n' := by
  obtain ⟨i, -, rfl⟩ := List.mem_map.mp mem
  exact isSpace_digitChar (Nat.mod_lt _ (by decide))

theorem length_hex16 (hash : UInt64) : (hex16 hash).length = 16 := by
  simp [hex16]

theorem hex16_ne_nil (hash : UInt64) : hex16 hash ≠ [] := by
  intro none
  have length := length_hex16 hash
  rw [none] at length
  cases length

theorem digit_plain {n : ℕ} {c : Char} (mem : c ∈ Nat.toDigits 10 n) : c ≠ '\x00' ∧ c ≠ '\n' := by
  have digit := Nat.isDigit_of_mem_toDigits (by decide) (by decide) mem
  constructor
  · rintro rfl
    cases digit
  · rintro rfl
    cases digit

/-- The lines before the names. -/
def headerLines (count : ℕ) (inputHash : UInt64) : List Text :=
  ["# gsimseed v1".toList, "input_hash".toList ++ ' ' :: hex16 inputHash,
    "node_count".toList ++ ' ' :: Nat.toDigits 10 count, "generator ".toList ++ generatorTag, "---".toList]

section Header

variable {st : SeedState}

theorem loadLine_hash (header : st.headerDone = false) (inputHash : UInt64) :
    loadLine st ("input_hash".toList ++ ' ' :: (hex16 inputHash ++ ['\n'])) =
      some { st with declaredHash := hex16 inputHash } := by
  have noZero : '\x00' ∉ "input_hash".toList ++ ' ' :: (hex16 inputHash ++ ['\n']) := by
    have digits : '\x00' ∉ hex16 inputHash := fun mem => (mem_hex16 mem).2.1 rfl
    simp [digits]
  have fits : (hex16 inputHash).length ≤ 127 := by
    rw [length_hex16]
    decide
  have word := scanWord_line "input_hash".toList (hex16_ne_nil inputHash) fits
    fun c mem => (mem_hex16 mem).1
  unfold loadLine
  rw [cstr_of_noZero noZero]
  simp only [header, if_true, word]
  rfl

theorem loadLine_count (header : st.headerDone = false) (count : ℕ) :
    loadLine st ("node_count".toList ++ ' ' :: (Nat.toDigits 10 count ++ ['\n'])) =
      some { st with declaredCount := count } := by
  have noZero : '\x00' ∉ "node_count".toList ++ ' ' :: (Nat.toDigits 10 count ++ ['\n']) := by
    have digits : '\x00' ∉ Nat.toDigits 10 count := fun mem => (digit_plain mem).1 rfl
    simp [digits]
  have number := scanInt_line "node_count".toList count
  have other : scanWord "input_hash".toList 127
      ("node_count".toList ++ ' ' :: (Nat.toDigits 10 count ++ ['\n'])) = none := rfl
  unfold loadLine
  rw [cstr_of_noZero noZero]
  simp only [header, if_true, other, number]
  rfl

theorem loadLine_magic (header : st.headerDone = false) :
    loadLine st ("# gsimseed v1".toList ++ ['\n']) = some st := by
  unfold loadLine
  simp only [header, if_true]
  rfl

theorem loadLine_generator (header : st.headerDone = false) :
    loadLine st ("generator ".toList ++ generatorTag ++ ['\n']) = some st := by
  unfold loadLine
  simp only [header, if_true]
  rfl

theorem loadLine_end (header : st.headerDone = false) :
    loadLine st ("---".toList ++ ['\n']) = some { st with headerDone := true } := by
  unfold loadLine
  simp only [header, if_true]
  rfl

end Header

theorem foldlM_header (count : ℕ) (inputHash : UInt64) :
    ((headerLines count inputHash).map (· ++ ['\n'])).foldlM loadLine .init =
      some (.listing count (hex16 inputHash) []) := by
  have hash : ("input_hash".toList ++ ' ' :: hex16 inputHash) ++ ['\n'] =
      "input_hash".toList ++ ' ' :: (hex16 inputHash ++ ['\n']) := by simp
  have number : ("node_count".toList ++ ' ' :: Nat.toDigits 10 count) ++ ['\n'] =
      "node_count".toList ++ ' ' :: (Nat.toDigits 10 count ++ ['\n']) := by simp
  simp only [headerLines, List.map_cons, List.map_nil, List.foldlM_cons, List.foldlM_nil, hash, number]
  rw [loadLine_magic rfl, Option.bind_eq_bind, Option.bind_some, loadLine_hash rfl, Option.bind_some,
    loadLine_count rfl, Option.bind_some, loadLine_generator rfl, Option.bind_some, loadLine_end rfl]
  rfl

theorem fgetsLines_lines {lines : List Text} (one : ∀ line ∈ lines, '\n' ∉ line ∧ line.length < 4095)
    (rest : Text) :
    fgetsLines 4096 ((lines.flatMap (· ++ ['\n'])) ++ rest) =
      lines.map (· ++ ['\n']) ++ fgetsLines 4096 rest := by
  induction lines with
  | nil => rfl
  | cons line lines ih =>
    obtain ⟨inner, short⟩ := one line List.mem_cons_self
    rw [List.flatMap_cons, List.append_assoc, List.append_assoc, List.singleton_append,
      fgetsLines_line inner (by omega), ih fun other mem => one other (List.mem_cons_of_mem _ mem)]
    rfl

theorem headerLines_short {count : ℕ} (sized : count < 2 ^ 64) (inputHash : UInt64) :
    ∀ line ∈ headerLines count inputHash, '\n' ∉ line ∧ line.length < 4095 := by
  have hash : '\n' ∉ hex16 inputHash := fun mem => (mem_hex16 mem).2.2 rfl
  have number : '\n' ∉ Nat.toDigits 10 count := fun mem => (digit_plain mem).2 rfl
  have digits : (Nat.toDigits 10 count).length ≤ 20 :=
    (Nat.length_toDigits_le_iff (by decide) (by decide)).mpr (sized.trans (by norm_num))
  have hashLength := length_hex16 inputHash
  intro line mem
  simp only [headerLines, List.mem_cons, List.not_mem_nil, or_false] at mem
  rcases mem with rfl | rfl | rfl | rfl | rfl
  · decide
  · constructor
    · simp [hash]
    · rw [List.length_append, List.length_cons, hashLength]
      decide
  · constructor
    · simp [number]
    · have literal : "node_count".toList.length = 10 := rfl
      rw [List.length_append, List.length_cons, literal]
      omega
  · decide
  · decide

theorem lines_append (magic hash count tag last word number body : Text) :
    (magic ++ ['\n']) ++ ((hash ++ [' ']) ++ word ++ ['\n']) ++ ((count ++ [' ']) ++ number ++ ['\n']) ++
        (tag ++ ['\n']) ++ (last ++ ['\n']) ++ body =
      [magic, hash ++ ' ' :: word, count ++ ' ' :: number, tag, last].flatMap (· ++ ['\n']) ++ body := by
  simp

theorem mtSeedWrite_eq (supers : List Super) (inputHash : UInt64) :
    mtSeedWrite supers inputHash generatorTag =
      (headerLines supers.length inputHash).flatMap (· ++ ['\n']) ++
        supers.flatMap fun super => (super.take 1).flatMap fun name => cstr name ++ ['\n'] :=
  lines_append "# gsimseed v1".toList "input_hash".toList "node_count".toList
    ("generator ".toList ++ generatorTag) "---".toList _ _ _

/-- What the reader makes of a file that was written. -/
theorem mtSeedLoad_mtSeedWrite {supers : List Super} (sized : supers.length < 2 ^ 64)
    (one : ∀ super ∈ supers, ∀ name ∈ super.take 1, '\n' ∉ name) (inputHash : UInt64) :
    mtSeedLoad (mtSeedWrite supers inputHash generatorTag) =
      if (listed supers).length = supers.length then
        some { seedRankByName := fun name => (listed supers).idxOf? name, seedDeclaredHash := hex16 inputHash }
      else none := by
  have state := foldlM_body supers.length (hex16 inputHash) [] one
  rw [List.nil_append] at state
  unfold mtSeedLoad
  rw [mtSeedWrite_eq, fgetsLines_lines (headerLines_short sized inputHash), List.foldlM_append, foldlM_header]
  simp only [Option.bind_eq_bind, Option.bind_some, state]
  simp only [SeedState.listing]
  have counts : (((supers.length : ℤ) < 0 ∨ (supers.length : ℤ) = ((listed supers).length : ℤ)) ∧
      hex16 inputHash ≠ []) ↔ (listed supers).length = supers.length := by
    have some_ := hex16_ne_nil inputHash
    constructor
    · rintro ⟨negative | same, -⟩
      · omega
      · omega
    · intro same
      exact ⟨.inr (by omega), some_⟩
  simp only [counts]

/-! ## Ranks -/

/-- The least rank of a member, or the one found before. -/
theorem foldl_rank (ranks : Text → Option ℕ) (super : Super) (best : Option ℕ) (r : ℕ) :
    super.foldl (fun best name =>
        match ranks name with
        | none => best
        | some rank => some (match best with | none => rank | some best => min best rank)) best = some r ↔
      (best = some r ∨ ∃ name ∈ super, ranks name = some r) ∧ (∀ b, best = some b → r ≤ b) ∧
        ∀ name ∈ super, ∀ k, ranks name = some k → r ≤ k := by
  induction super generalizing best with
  | nil =>
    constructor
    · rintro rfl
      exact ⟨.inl rfl, fun b same => (Option.some.inj same).le, by simp⟩
    · rintro ⟨found | ⟨name, mem, -⟩, -⟩
      · exact found
      · cases mem
  | cons name super ih =>
    rw [List.foldl_cons, ih]
    cases rank : ranks name with
    | none => simp [rank]
    | some k =>
      cases best with
      | none =>
        simp only [List.mem_cons, exists_eq_or_imp, forall_eq_or_imp, rank, Option.some.injEq, reduceCtorEq,
          false_or, forall_eq', false_imp_iff, implies_true, true_and]
      | some b =>
        simp only [List.mem_cons, exists_eq_or_imp, forall_eq_or_imp, rank, Option.some.injEq, forall_eq']
        constructor
        · rintro ⟨here | later, least, rest⟩
          · refine ⟨?_, by omega, by omega, rest⟩
            rcases min_choice b k with first | second
            · exact .inl (first.symm.trans here)
            · exact .inr (.inl (second.symm.trans here))
          · exact ⟨.inr (.inr later), by omega, by omega, rest⟩
        · rintro ⟨here | here | later, leB, leK, rest⟩
          · exact ⟨.inl (by omega), by omega, rest⟩
          · exact ⟨.inl (by omega), by omega, rest⟩
          · exact ⟨.inr later, by omega, rest⟩

theorem mtSeedRankOf_iff (names : List Text) (hash : Text) (super : Super) (i : ℕ) :
    mtSeedRankOf { seedRankByName := fun name => names.idxOf? name, seedDeclaredHash := hash } super = some i ↔
      (∃ name ∈ super, names[i]? = some name) ∧ ∀ j < i, ∀ name ∈ super, names[j]? ≠ some name := by
  rw [mtSeedRankOf, foldl_rank]
  simp only [reduceCtorEq, false_or, false_imp_iff, implies_true, true_and]
  constructor
  · rintro ⟨⟨name, mem, rank⟩, least⟩
    obtain ⟨lt, here, -⟩ := List.idxOf?_eq_some_iff.mp rank
    refine ⟨⟨name, mem, by rw [List.getElem?_eq_getElem lt, here]⟩, fun j before other mem' found => ?_⟩
    obtain ⟨k, rank'⟩ := Option.isSome_iff_exists.mp
      (List.isSome_idxOf?.mpr (List.mem_of_getElem? found))
    have le := least other mem' k rank'
    obtain ⟨_, -, earliest⟩ := List.idxOf?_eq_some_iff.mp rank'
    obtain ⟨lt', here'⟩ := List.getElem?_eq_some_iff.mp found
    exact earliest j (by omega) here'
  · rintro ⟨⟨name, mem, found⟩, before⟩
    obtain ⟨lt, here⟩ := List.getElem?_eq_some_iff.mp found
    refine ⟨⟨name, mem, List.idxOf?_eq_some_iff.mpr ⟨lt, here, fun j earlier same => ?_⟩⟩,
      fun other mem' k rank => ?_⟩
    · exact before j earlier name mem (by rw [List.getElem?_eq_getElem (by omega), same])
    · obtain ⟨lt', here', -⟩ := List.idxOf?_eq_some_iff.mp rank
      by_contra earlier
      exact before k (by omega) other mem' (by rw [List.getElem?_eq_getElem lt', here'])

theorem roundTrips_iff_listed {supers : List Super} (sized : supers.length < 2 ^ 64)
    (one : ∀ super ∈ supers, ∀ name ∈ super.take 1, '\n' ∉ name) (inputHash : UInt64) :
    RoundTrips supers inputHash ↔ Listed supers := by
  unfold RoundTrips Listed
  rw [mtSeedLoad_mtSeedWrite sized one inputHash]
  by_cases same : (listed supers).length = supers.length
  · rw [if_pos same]
    constructor
    · rintro ⟨seed, loaded, -, ranks⟩
      cases loaded
      exact ⟨same, fun i super at_ => (mtSeedRankOf_iff _ _ _ _).mp (ranks i super at_)⟩
    · rintro ⟨-, ranks⟩
      refine ⟨_, rfl, decide_eq_true rfl, fun i super at_ => ?_⟩
      exact (mtSeedRankOf_iff _ _ _ _).mpr (ranks i super at_)
  · rw [if_neg same]
    constructor
    · rintro ⟨seed, rejected, -⟩
      cases rejected
    · rintro ⟨same', -⟩
      exact absurd same' same

/-! ## Names that are listed as they are -/

theorem strip_eq_self {name : Text} (one : '\n' ∉ name) (noReturn : name.getLast? ≠ some '\r') :
    strip name = name := by
  apply List.rdropWhile_eq_self_iff.mpr
  intro nonempty last
  rw [decide_eq_true_eq] at last
  rcases last with newline | ret
  · exact one (newline ▸ List.getLast_mem nonempty)
  · exact noReturn (by rw [List.getLast?_eq_getLast_of_ne_nil nonempty, ret])

theorem pieces_of_plain {name : Text} (plain : Plain name) (one : '\n' ∉ name) : pieces name = [name] := by
  have kept : [name].filter (· ≠ []) = [name] := by simp [plain.nonempty]
  have whole := strip_eq_self one plain.noReturn
  rw [pieces]
  by_cases short : name.length < 4095
  · rw [if_pos short, whole, kept]
  · have length : name.length = 4095 := by
      have le := plain.short
      omega
    have last : pieces [] = [] := by
      rw [pieces]
      rfl
    rw [if_neg short, List.take_of_length_le length.le, List.drop_of_length_le length.le, whole, kept, last,
      List.append_nil]

/-- A piece has none of the marks of a name that changes. -/
theorem plain_of_mem_pieces {name piece : Text} (noZero : '\x00' ∉ name) (mem : piece ∈ pieces name) :
    Plain piece := by
  have part : ∀ {text : Text}, text.length ≤ 4095 → '\x00' ∉ text →
      piece ∈ [strip text].filter (· ≠ []) → Plain piece := by
    intro text short clean mem
    obtain ⟨here, nonempty⟩ := List.mem_filter.mp mem
    rw [List.mem_singleton.mp here] at nonempty ⊢
    have nonempty : strip text ≠ [] := by simpa using nonempty
    have front : strip text <+: text := List.rdropWhile_prefix _ _
    refine ⟨nonempty, front.length_le.trans short, fun zero => clean (front.subset zero), fun last => ?_⟩
    rw [List.getLast?_eq_getLast_of_ne_nil nonempty, Option.some.injEq] at last
    apply List.rdropWhile_last_not (fun c => c = '\n' ∨ c = '\r') text nonempty
    rw [decide_eq_true_eq]
    exact .inr last
  rw [pieces] at mem
  by_cases short : name.length < 4095
  · rw [if_pos short] at mem
    exact part short.le noZero mem
  · rw [if_neg short] at mem
    rcases List.mem_append.mp mem with first | later
    · exact part (List.length_take_le _ _) (fun zero => noZero (List.mem_of_mem_take zero)) first
    · exact plain_of_mem_pieces (fun zero => noZero (List.mem_of_mem_drop zero)) later
termination_by name.length
decreasing_by
  rw [List.length_drop]
  omega

section Supers

variable {supers : List Super}

/-- The first names, one for each super. -/
theorem getElem?_firstNames (nonempty : ∀ super ∈ supers, super ≠ []) (i : ℕ) :
    (supers.flatMap (List.take 1))[i]? = supers[i]?.bind List.head? := by
  induction supers generalizing i with
  | nil => simp
  | cons super supers ih =>
    obtain ⟨name, members, rfl⟩ := List.exists_cons_of_ne_nil (nonempty super List.mem_cons_self)
    have later := ih fun other mem => nonempty other (List.mem_cons_of_mem _ mem)
    cases i with
    | zero => rfl
    | succ i =>
      rw [List.flatMap_cons, List.take_succ_cons, List.take_zero, List.singleton_append,
        List.getElem?_cons_succ, List.getElem?_cons_succ]
      exact later i

theorem length_firstNames (nonempty : ∀ super ∈ supers, super ≠ []) :
    (supers.flatMap (List.take 1)).length = supers.length := by
  induction supers with
  | nil => rfl
  | cons super supers ih =>
    obtain ⟨name, members, rfl⟩ := List.exists_cons_of_ne_nil (nonempty super List.mem_cons_self)
    have later := ih fun other mem => nonempty other (List.mem_cons_of_mem _ mem)
    rw [List.flatMap_cons, List.length_append, later, List.length_cons, Nat.add_comm]
    rfl

theorem listed_of_plain (one : ∀ super ∈ supers, ∀ name ∈ super.take 1, '\n' ∉ name)
    (plain : ∀ super ∈ supers, ∀ name ∈ super.take 1, Plain name) :
    listed supers = supers.flatMap (List.take 1) := by
  unfold listed
  apply List.flatMap_congr
  intro super mem
  cases super with
  | nil => rfl
  | cons name members =>
    have first := plain _ mem name (by simp)
    rw [List.take_succ_cons, List.take_zero, List.flatMap_cons, List.flatMap_nil, List.append_nil,
      cstr_of_noZero first.noZero, pieces_of_plain first (one _ mem name (by simp))]

/-- With plain names the other members decide. -/
theorem listed_iff_of_plain (nonempty : ∀ super ∈ supers, super ≠ [])
    (one : ∀ super ∈ supers, ∀ name ∈ super.take 1, '\n' ∉ name)
    (plain : ∀ super ∈ supers, ∀ name ∈ super.take 1, Plain name) :
    Listed supers ↔ ∀ (i j : ℕ) (super other : Super), j < i → supers[i]? = some super →
      supers[j]? = some other → ∀ name ∈ other.take 1, name ∉ super := by
  unfold Listed
  rw [listed_of_plain one plain]
  simp only [getElem?_firstNames nonempty, length_firstNames nonempty, true_and]
  constructor
  · intro ranks i j super other before at_ at' name first mem
    apply (ranks i super at_).2 j before name mem
    rw [at', Option.bind_some]
    cases other with
    | nil => cases first
    | cons head members =>
      rw [List.take_succ_cons, List.take_zero, List.mem_singleton] at first
      rw [first]
      rfl
  · intro apart i super at_
    constructor
    · obtain ⟨name, members, rfl⟩ := List.exists_cons_of_ne_nil
        (nonempty super (List.mem_of_getElem? at_))
      exact ⟨name, List.mem_cons_self, by rw [at_]; rfl⟩
    · intro j before name mem found
      obtain ⟨other, at', head⟩ := Option.bind_eq_some_iff.mp found
      refine apart i j super other before at_ at' name ?_ mem
      cases other with
      | nil => cases head
      | cons first members =>
        cases head
        simp

/-- Supers of one member: all names have to be plain. -/
theorem listed_iff_of_single (single : ∀ super ∈ supers, super.length = 1)
    (one : ∀ super ∈ supers, ∀ name ∈ super.take 1, '\n' ∉ name) (distinct : supers.Nodup) :
    Listed supers ↔ ∀ super ∈ supers, ∀ name ∈ super.take 1, Plain name := by
  have nonempty : ∀ super ∈ supers, super ≠ [] := by
    rintro super mem rfl
    cases single [] mem
  constructor
  · intro ranked super mem name first
    obtain ⟨i, at_⟩ := List.mem_iff_getElem?.mp mem
    obtain ⟨⟨other, mem', found⟩, -⟩ := ranked.2 i super at_
    have same : other = name := by
      obtain ⟨only, rfl⟩ := List.length_eq_one_iff.mp (single super mem)
      rw [List.mem_singleton.mp mem', List.mem_singleton.mp (List.mem_of_mem_take first)]
    rw [← same]
    obtain ⟨source, -, piece⟩ := List.mem_flatMap.mp (List.mem_of_getElem? found)
    obtain ⟨whole, -, piece⟩ := List.mem_flatMap.mp piece
    exact plain_of_mem_pieces (noZero_cstr whole) piece
  · intro plain
    rw [listed_iff_of_plain nonempty one plain]
    intro i j super other before at_ at' name first mem
    obtain ⟨only, rfl⟩ := List.length_eq_one_iff.mp (single super (List.mem_of_getElem? at_))
    obtain ⟨only', rfl⟩ := List.length_eq_one_iff.mp (single other (List.mem_of_getElem? at'))
    have same : only = only' := by
      rw [← List.mem_singleton.mp mem, List.mem_singleton.mp (List.mem_of_mem_take first)]
    subst same
    obtain ⟨lt, here⟩ := List.getElem?_eq_some_iff.mp at_
    obtain ⟨lt', here'⟩ := List.getElem?_eq_some_iff.mp at'
    have equal := (distinct.getElem_inj_iff).mp (here.trans here'.symm)
    omega

end Supers

/-- A list of supers survives exactly when its names are listed one to one.  For supers of one member
    that is when every name is plain; plain names survive when no member is named like the first
    member of an earlier super. -/
theorem roundTrips_iff (supers : List Super) (inputHash : UInt64) (sized : supers.length < 2 ^ 64)
    (nonempty : ∀ super ∈ supers, super ≠ [])
    (one : ∀ super ∈ supers, ∀ name ∈ super.take 1, '\n' ∉ name)
    (distinct : (supers.map List.head?).Nodup) :
    (RoundTrips supers inputHash ↔ Listed supers) ∧
    ((∀ super ∈ supers, super.length = 1) →
      (Listed supers ↔ ∀ super ∈ supers, ∀ name ∈ super.take 1, Plain name)) ∧
    ((∀ super ∈ supers, ∀ name ∈ super.take 1, Plain name) →
      (Listed supers ↔ ∀ (i j : ℕ) (super other : Super), j < i → supers[i]? = some super →
        supers[j]? = some other → ∀ name ∈ other.take 1, name ∉ super)) :=
  ⟨roundTrips_iff_listed sized one inputHash,
    fun single => listed_iff_of_single single one (List.Nodup.of_map _ distinct),
    fun plain => listed_iff_of_plain nonempty one plain⟩

theorem roundTrips_iff_two :
    RoundTrips ["cpu$a".toList :: [], "cpu$b".toList :: []] 7 ↔
      Listed ["cpu$a".toList :: [], "cpu$b".toList :: []] :=
  (roundTrips_iff ["cpu$a".toList :: [], "cpu$b".toList :: []] 7 (by decide) (by decide) (by decide)
    (by decide)).1

/-- A name of 4096 bytes is listed as two. -/
theorem not_roundTrips_long :
    let supers : List Super := [[List.replicate 4096 'a']]
    supers.length < 2 ^ 64 ∧ (∀ super ∈ supers, super ≠ []) ∧
      (∀ super ∈ supers, ∀ name ∈ super.take 1, '\n' ∉ name) ∧ (supers.map List.head?).Nodup ∧
      ¬ RoundTrips supers 7 := by
  intro supers
  have one : ∀ super ∈ supers, ∀ name ∈ super.take 1, '\n' ∉ name := by
    intro super mem name first
    rw [List.mem_singleton.mp mem] at first
    rw [List.mem_singleton.mp (List.mem_of_mem_take first), List.mem_replicate]
    rintro ⟨-, same⟩
    cases same
  have single : ∀ super ∈ supers, super.length = 1 := by
    intro super mem
    rw [List.mem_singleton.mp mem]
    rfl
  have sized : supers.length < 2 ^ 64 := by
    rw [List.length_singleton]
    decide
  have nonempty : ∀ super ∈ supers, super ≠ [] := by
    rintro super mem rfl
    cases single [] mem
  refine ⟨sized, nonempty, one, List.nodup_singleton _, fun survives => ?_⟩
  have listed := (roundTrips_iff_listed sized one 7).mp survives
  have plain := (listed_iff_of_single single one (List.nodup_singleton _)).mp listed
  have short := (plain _ (List.mem_singleton.mpr rfl) _ List.mem_cons_self).short
  rw [List.length_replicate] at short
  omega

end Gsim.SeedText
