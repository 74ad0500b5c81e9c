/-
  Gsim/FirParser.lean
  ===================
  **Parsing a circuit in chunks** (`parseFIR`, `parseFunc` and `findNextModuleMarker` in
  `firParser.cpp`).

  The text is cut in place: every fifth newline before a module header becomes the end of a
  C string.  The chunks and one exit flag per thread go to a queue, sorted by size, and the
  threads pop it from the back.  A chunk is what the text has between two module headers, so
  the sections of the chunks, put together, are the sections of the text
  (`makeTasks_sections`), and it does not matter which thread parses which chunk.
-/
import Gsim.TaskPool

namespace Gsim.FirParser

open Gsim.TaskPool

abbrev Text := List Char

def MODULES_PER_TASK : Nat := 5

/-! ## Module headers -/

def moduleHeaderKeywords : List Text :=
  ["module ", "public module ", "private module ", "protected module ",
   "extmodule ", "public extmodule ", "private extmodule ", "protected extmodule ",
   "intmodule ", "public intmodule ", "private intmodule ", "protected intmodule "].map
    String.toList

def startsWithKeyword (str keyword : Text) : Bool := keyword.isPrefixOf str

/-- Two blanks and a keyword. -/
def isModuleHeader (after : Text) : Bool :=
  after[0]? = some ' ' && after[1]? = some ' ' &&
    moduleHeaderKeywords.any (startsWithKeyword (after.drop 2))

/-- The next newline that stands before a module header; the text from `cursor` on is given. -/
def findNextModuleMarker (cursor : Nat) : Text → Option Nat
  | [] => none
  | c :: after =>
    if c = '\n' then
      if after = [] then none
      else if isModuleHeader after then some cursor
      else findNextModuleMarker (cursor + 1) after
    else findNextModuleMarker (cursor + 1) after

/-- `m` is the place of a newline before a module header. -/
def IsMarker (text : Text) (m : Nat) : Prop :=
  ∃ after, text.drop m = '\n' :: after ∧ isModuleHeader after = true

theorem findNextModuleMarker_some {text : Text} {cursor m : Nat} {s : Text}
    (here : text.drop cursor = s) (h : findNextModuleMarker cursor s = some m) :
    cursor ≤ m ∧ IsMarker text m := by
  induction s generalizing cursor with
  | nil => cases h
  | cons c after ih =>
    have next : text.drop (cursor + 1) = after := by
      rw [← List.drop_drop, here]
      rfl
    have further : findNextModuleMarker (cursor + 1) after = some m → cursor ≤ m ∧ IsMarker text m := by
      intro found
      obtain ⟨le, marker⟩ := ih next found
      exact ⟨by omega, marker⟩
    unfold findNextModuleMarker at h
    split at h
    · rename_i newline
      subst newline
      split at h
      · cases h
      · split at h
        · rename_i header
          cases h
          exact ⟨le_refl _, after, here, header⟩
        · exact further h
    · exact further h

theorem IsMarker.lt_length {text : Text} {m : Nat} (marker : IsMarker text m) : m < text.length := by
  obtain ⟨after, here, -⟩ := marker
  have length := congrArg List.length here
  rw [List.length_drop, List.length_cons] at length
  omega

/-- The markers from `start` on. -/
def moduleMarkers (text : Text) (start : Nat) : List Nat :=
  match found : findNextModuleMarker start (text.drop start) with
  | none => []
  | some m => m :: moduleMarkers text (m + 1)
termination_by text.length - start
decreasing_by
  obtain ⟨le, marker⟩ := findNextModuleMarker_some rfl found
  have := marker.lt_length
  omega

theorem moduleMarkers_nil {text : Text} {start : Nat}
    (absent : findNextModuleMarker start (text.drop start) = none) : moduleMarkers text start = [] := by
  rw [moduleMarkers]
  split
  · rfl
  · rename_i m found
    rw [absent] at found
    cases found

theorem moduleMarkers_cons {text : Text} {start m : Nat}
    (found : findNextModuleMarker start (text.drop start) = some m) :
    moduleMarkers text start = m :: moduleMarkers text (m + 1) := by
  rw [moduleMarkers]
  split
  · rename_i absent
    rw [found] at absent
    cases absent
  · rename_i m' found'
    rw [found] at found'
    cases found'
    rfl

theorem moduleMarkers_spec (text : Text) (start : Nat) :
    (∀ m ∈ moduleMarkers text start, start ≤ m ∧ IsMarker text m) ∧
      (moduleMarkers text start).Pairwise (· < ·) := by
  fun_induction moduleMarkers text start with
  | case1 start none_ => exact ⟨fun m hm => absurd hm List.not_mem_nil, List.Pairwise.nil⟩
  | case2 start m found ih =>
    obtain ⟨le, marker⟩ := findNextModuleMarker_some rfl found
    obtain ⟨all, sorted⟩ := ih
    refine ⟨?_, List.Pairwise.cons ?_ sorted⟩
    · intro m' hm'
      rcases List.mem_cons.mp hm' with rfl | later
      · exact ⟨le, marker⟩
      · have := all m' later
        exact ⟨by omega, this.2⟩
    · intro m' later
      have := (all m' later).1
      omega

/-! ## Cutting the text -/

/-- The string that starts here. -/
def cString (buf : Text) : Text := buf.takeWhile (· ≠ '\x00')

structure TaskRecord where
  offset : Nat
  len : Nat
  lineno : Int
  id : Int
deriving DecidableEq, Repr

/-- The loop that creates the tasks: the record of the chunk from `prev` on, then the others; and
    the buffer, with a zero for every newline where it was split. -/
def makeTasks (markers : List Nat) (idx : Nat) (buf : Text) (prev : Nat) (lineno id : Int) :
    List TaskRecord × Text :=
  let nextIdx := idx + MODULES_PER_TASK
  match found : markers[nextIdx]? with
  | none => ([⟨prev, (cString (buf.drop prev)).length + 1, lineno, id⟩], buf)
  | some split =>
    let buf := buf.set split '\x00'
    let chunk := cString (buf.drop prev)
    let rest := makeTasks markers nextIdx buf (split + 1) (lineno + chunk.count '\n' + 1) (id + 1)
    (⟨prev, chunk.length + 1, lineno, id⟩ :: rest.1, rest.2)
termination_by markers.length - idx
decreasing_by
  have := (List.getElem?_eq_some_iff.mp found).1
  unfold MODULES_PER_TASK at *
  omega

/-- The tasks and the buffer that the threads read. -/
def createTasks (text : Text) : List TaskRecord × Text :=
  let strbuf := text ++ ['\x00']
  let markers := moduleMarkers text 0
  if markers = [] then ([⟨0, (cString strbuf).length + 1, 1, 0⟩], strbuf)
  else makeTasks markers 0 strbuf 0 1 0

theorem length_makeTasks (markers : List Nat) (idx : Nat) (buf : Text) (prev : Nat) (lineno id : Int) :
    (makeTasks markers idx buf prev lineno id).1.length =
      (markers.length - 1 - idx) / MODULES_PER_TASK + 1 := by
  fun_induction makeTasks markers idx buf prev lineno id with
  | case1 idx buf prev lineno id nextIdx last =>
    have few := List.getElem?_eq_none_iff.mp last
    rw [Nat.div_eq_of_lt (by simp only [nextIdx, MODULES_PER_TASK] at few ⊢; omega)]
    rfl
  | case2 idx buf prev lineno id nextIdx split found _ _ rest ih =>
    have more := (List.getElem?_eq_some_iff.mp found).1
    rw [List.length_cons, ih]
    simp only [nextIdx, MODULES_PER_TASK] at more ⊢
    omega

/-- A task for every five modules. -/
theorem length_createTasks (text : Text) : (createTasks text).1.length =
    ((moduleMarkers text 0).length - 1) / MODULES_PER_TASK + 1 := by
  unfold createTasks
  by_cases none_ : moduleMarkers text 0 = []
  · simp [none_]
  · simp only [none_, if_false]
    exact length_makeTasks _ _ _ _ _ _

/-- What a thread parses for a task. -/
def chunkText (buf : Text) (t : TaskRecord) : Text := cString (buf.drop t.offset)

/-! ## Sections -/

/-- The text up to the first module header, and one piece for every module, with its line. -/
def splitSections (line : Int) : Text → Text × List (Int × Text)
  | [] => ([], [])
  | c :: after =>
    if c = '\n' then
      let rest := splitSections (line + 1) after
      if isModuleHeader after then ([], (line + 1, rest.1) :: rest.2) else (c :: rest.1, rest.2)
    else
      let rest := splitSections line after
      (c :: rest.1, rest.2)

def sections (line : Int) (s : Text) : List (Int × Text) :=
  (line, (splitSections line s).1) :: (splitSections line s).2

theorem isPrefixOf_append_newline {keyword : Text} (noNewline : '\n' ∉ keyword) (a b : Text) :
    keyword.isPrefixOf (a ++ '\n' :: b) = keyword.isPrefixOf a := by
  induction keyword generalizing a with
  | nil => simp
  | cons k keyword ih =>
    simp only [List.mem_cons, not_or] at noNewline
    cases a with
    | nil =>
      have differ : (k == '\n') = false := beq_false_of_ne (Ne.symm noNewline.1)
      show (k == '\n' && keyword.isPrefixOf b) = false
      rw [differ, Bool.false_and]
    | cons c a =>
      rw [List.cons_append, List.isPrefixOf, List.isPrefixOf, ih noNewline.2]

theorem moduleHeaderKeywords_noNewline : ∀ keyword ∈ moduleHeaderKeywords, '\n' ∉ keyword := by
  decide

/-- A header ends before the next newline. -/
theorem isModuleHeader_append_newline (a b : Text) :
    isModuleHeader (a ++ '\n' :: b) = isModuleHeader a := by
  have keywords : ∀ s : Text, moduleHeaderKeywords.any (startsWithKeyword (s ++ '\n' :: b)) =
      moduleHeaderKeywords.any (startsWithKeyword s) := by
    intro s
    rw [Bool.eq_iff_iff, List.any_eq_true, List.any_eq_true]
    refine exists_congr fun keyword => and_congr_right fun mem => ?_
    unfold startsWithKeyword
    rw [isPrefixOf_append_newline (moduleHeaderKeywords_noNewline keyword mem)]
  match a with
  | [] => rfl
  | [c] => simp [isModuleHeader]
  | c :: d :: s =>
    have rest := keywords s
    simp only [isModuleHeader, List.cons_append, List.drop_succ_cons, List.drop_zero] at rest ⊢
    rw [rest]
    rfl

/-- Cut before a module header, the sections of both halves are those of the whole. -/
theorem sections_append (a : Text) {b : Text} (header : isModuleHeader b = true) (line : Int) :
    sections line (a ++ '\n' :: b) = sections line a ++ sections (line + a.count '\n' + 1) b := by
  have split : splitSections line (a ++ '\n' :: b) =
      ((splitSections line a).1, (splitSections line a).2 ++ sections (line + a.count '\n' + 1) b) := by
    induction a generalizing line with
    | nil => simp [splitSections, header, sections]
    | cons c a ih =>
      rw [List.cons_append]
      unfold splitSections
      rw [isModuleHeader_append_newline]
      by_cases newline : c = '\n'
      · subst newline
        have lines : line + 1 + (a.count '\n' : Int) + 1 =
            line + (('\n' :: a).count '\n' : Int) + 1 := by
          rw [List.count_cons_self]
          push_cast
          omega
        rw [if_pos rfl, if_pos rfl, ih, lines]
        by_cases inner : isModuleHeader a = true
        · rw [if_pos inner, if_pos inner]
          rfl
        · rw [if_neg inner, if_neg inner]
      · rw [if_neg newline, if_neg newline, ih, List.count_cons_of_ne newline]
  unfold sections at split ⊢
  rw [split]
  rfl

/-! ## What the cutting makes -/

theorem cString_append {a : Text} (noNul : '\x00' ∉ a) (rest : Text) :
    cString (a ++ '\x00' :: rest) = a := by
  unfold cString
  rw [List.takeWhile_append_of_pos]
  · simp
  · intro c hc
    exact decide_eq_true (fun nul => noNul (nul ▸ hc))

/-- Before the loop goes on at `prev`: what is behind has been cut, what is ahead has not. -/
structure Ahead (text : Text) (markers : List Nat) (idx : Nat) (buf : Text) (prev : Nat)
    (lineno : Int) : Prop where
  inside : prev ≤ text.length
  length : buf.length = text.length + 1
  rest : buf.drop prev = text.drop prev ++ ['\x00']
  markers : ∀ j m, idx < j → markers[j]? = some m → prev ≤ m
  lineno : lineno = 1 + ((text.take prev).count '\n' : Int)

/-- A task in its place: a chunk that starts behind a marker, with its line in the file. -/
structure Placed (text buf : Text) (t : TaskRecord) : Prop where
  len : t.len = (chunkText buf t).length + 1
  lineno : t.lineno = 1 + ((text.take t.offset).count '\n' : Int)
  header : isModuleHeader (chunkText buf t) = isModuleHeader (text.drop t.offset)

/-- What the loop returns, from `prev` on. -/
structure Cut (text : Text) (buf : Text) (prev : Nat) (lineno id : Int)
    (result : List TaskRecord × Text) : Prop where
  before : result.2.take prev = buf.take prev
  length : result.2.length = buf.length
  head : ∃ len later, result.1 = ⟨prev, len, lineno, id⟩ :: later ∧
    ∀ t ∈ later, 0 < t.offset ∧ IsMarker text (t.offset - 1)
  placed : ∀ t ∈ result.1, Placed text result.2 t
  ids : result.1.map TaskRecord.id = (List.range result.1.length).map fun i : Nat => id + (i : Int)
  chunks : List.intercalate ['\n'] (result.1.map (chunkText result.2)) = text.drop prev
  sections : result.1.flatMap (fun t => sections t.lineno (chunkText result.2 t)) =
    sections lineno (text.drop prev)

theorem makeTasks_last {text : Text} (noNul : '\x00' ∉ text) {markers : List Nat} {idx : Nat}
    {buf : Text} {prev : Nat} {lineno : Int} (ahead : Ahead text markers idx buf prev lineno)
    (id : Int) :
    Cut text buf prev lineno id
      ([⟨prev, (cString (buf.drop prev)).length + 1, lineno, id⟩], buf) := by
  have chunk : cString (buf.drop prev) = text.drop prev := by
    rw [ahead.rest]
    exact cString_append (fun h => noNul (List.mem_of_mem_drop h)) []
  have only : ∀ t ∈ [(⟨prev, (cString (buf.drop prev)).length + 1, lineno, id⟩ : TaskRecord)],
      Placed text buf t := by
    intro t ht
    cases List.mem_singleton.mp ht
    refine ⟨rfl, ahead.lineno, ?_⟩
    unfold chunkText
    rw [chunk]
  refine ⟨rfl, rfl, ⟨_, [], rfl, fun t ht => absurd ht List.not_mem_nil⟩, only, ?_, ?_, ?_⟩
  · simp
  · simp [chunkText, chunk]
  · simp [chunkText, chunk]

/-- The text around a split. -/
theorem IsMarker.split {text : Text} {split : Nat} (marker : IsMarker text split) {prev : Nat}
    (le : prev ≤ split) :
    ∃ a, text.drop prev = a ++ '\n' :: text.drop (split + 1) ∧ split = prev + a.length ∧
      text.take (split + 1) = text.take prev ++ (a ++ ['\n']) ∧
      isModuleHeader (text.drop (split + 1)) = true := by
  have inside := marker.lt_length
  obtain ⟨after, here, header⟩ := marker
  have next : text.drop (split + 1) = after := by
    rw [← List.drop_drop, here]
    rfl
  have rest : text.drop prev = (text.drop prev).take (split - prev) ++ '\n' :: after := by
    have whole := (List.take_append_drop (split - prev) (text.drop prev)).symm
    rwa [List.drop_drop, Nat.add_sub_cancel' le, here] at whole
  have length : ((text.drop prev).take (split - prev)).length = split - prev := by
    rw [List.length_take, List.length_drop]
    omega
  generalize ha : (text.drop prev).take (split - prev) = a at rest length
  have at_ : split = prev + a.length := by omega
  refine ⟨a, by rw [next]; exact rest, at_, ?_, by rw [next]; exact header⟩
  rw [at_, Nat.add_assoc, List.take_add, rest, List.take_append, Nat.add_sub_cancel_left,
    List.take_of_length_le (Nat.le_succ _)]
  rfl

/-- The split closes the chunk and leaves the rest alone. -/
theorem Ahead.drop_set {text : Text} {markers : List Nat} {idx : Nat} {buf : Text} {prev : Nat}
    {lineno : Int} (ahead : Ahead text markers idx buf prev lineno) {a : Text}
    (rest : text.drop prev = a ++ '\n' :: text.drop (prev + a.length + 1)) :
    (buf.set (prev + a.length) '\x00').drop prev =
      a ++ '\x00' :: (text.drop (prev + a.length + 1) ++ ['\x00']) := by
  have length : prev + a.length - prev = a.length := by omega
  rw [List.drop_set, if_neg (by omega), ahead.rest, rest, length, List.append_assoc,
    List.set_append_right _ _ (le_refl _), Nat.sub_self]
  rfl

/-- One round of the loop: the chunk before the split, in front of what the loop makes of the rest. -/
theorem Cut.cons {text : Text} {markers : List Nat} {idx : Nat} {buf : Text} {prev : Nat}
    {lineno id : Int} (ahead : Ahead text markers idx buf prev lineno) {a : Text}
    (noNul : '\x00' ∉ a)
    (rest : text.drop prev = a ++ '\n' :: text.drop (prev + a.length + 1))
    (header : isModuleHeader (text.drop (prev + a.length + 1)) = true)
    {result : List TaskRecord × Text}
    (later : Cut text (buf.set (prev + a.length) '\x00') (prev + a.length + 1)
      (lineno + a.count '\n' + 1) (id + 1) result) :
    Cut text buf prev lineno id (⟨prev, a.length + 1, lineno, id⟩ :: result.1, result.2) := by
  -- the threads find the chunk, closed by the zero
  have chunk : chunkText result.2 ⟨prev, a.length + 1, lineno, id⟩ = a := by
    have cut : (result.2.take (prev + a.length + 1)).drop prev = a ++ ['\x00'] := by
      have one : prev + a.length + 1 - prev = a.length + 1 := by omega
      rw [later.before, List.drop_take, ahead.drop_set rest, one, List.take_append,
        List.take_of_length_le (Nat.le_succ _), Nat.add_sub_cancel_left]
      rfl
    have whole : result.2.drop prev = (a ++ ['\x00']) ++ result.2.drop (prev + a.length + 1) := by
      rw [← cut]
      conv_lhs => rw [← List.take_append_drop (prev + a.length + 1) result.2]
      rw [List.drop_append_of_le_length]
      rw [List.length_take, later.length, List.length_set]
      have := ahead.inside
      have := ahead.length
      have bound := congrArg List.length rest
      rw [List.length_drop, List.length_append, List.length_cons, List.length_drop] at bound
      omega
    unfold chunkText
    rw [whole, List.append_assoc]
    exact cString_append noNul _
  obtain ⟨len, others, tasks, markersAhead⟩ := later.head
  refine ⟨?_, ?_, ⟨_, result.1, rfl, ?_⟩, ?_, ?_, ?_, ?_⟩
  · have shorter := congrArg (List.take prev) later.before
    rw [List.take_take, List.take_take, Nat.min_eq_left (by omega),
      List.take_set_of_le (by omega)] at shorter
    exact shorter
  · exact later.length.trans List.length_set
  · intro t ht
    rw [tasks] at ht
    rcases List.mem_cons.mp ht with rfl | other
    · refine ⟨Nat.succ_pos _, text.drop (prev + a.length + 1), ?_, header⟩
      show text.drop (prev + a.length) = _
      rw [← List.drop_drop, rest, List.drop_left]
    · exact markersAhead t other
  · intro t ht
    rcases List.mem_cons.mp ht with rfl | other
    · refine ⟨by rw [chunk], ahead.lineno, ?_⟩
      rw [chunk]
      show _ = isModuleHeader (text.drop prev)
      rw [rest, isModuleHeader_append_newline]
    · exact later.placed t other
  · rw [List.map_cons, later.ids, List.length_cons, List.range_succ_eq_map, List.map_cons,
      List.map_map]
    congr 1
    · simp
    · apply List.map_congr_left
      intro i _
      simp only [Function.comp_apply]
      push_cast
      omega
  · have joined := later.chunks
    rw [tasks] at joined
    rw [List.map_cons, chunk, tasks, List.map_cons, List.intercalate_cons_cons, ← List.map_cons,
      joined, rest, List.append_assoc, List.singleton_append]
  · rw [List.flatMap_cons, chunk, later.sections, rest]
    exact (sections_append a header lineno).symm

/-- The loop, from any state that it can be in. -/
theorem makeTasks_cut {text : Text} (noNul : '\x00' ∉ text) {markers : List Nat}
    (all : ∀ m ∈ markers, IsMarker text m) (sorted : markers.Pairwise (· < ·)) (idx : Nat)
    (buf : Text) (prev : Nat) (lineno id : Int) (ahead : Ahead text markers idx buf prev lineno) :
    Cut text buf prev lineno id (makeTasks markers idx buf prev lineno id) := by
  fun_induction makeTasks markers idx buf prev lineno id with
  | case1 idx buf prev lineno id nextIdx none_ => exact makeTasks_last noNul ahead id
  | case2 idx buf prev lineno id nextIdx split found buf' chunk rest ih =>
    have here : idx < nextIdx := Nat.lt_add_of_pos_right (by decide)
    have marker := all split (List.mem_of_getElem? found)
    obtain ⟨a, textRest, rfl, textTake, header⟩ := marker.split (ahead.markers nextIdx split here found)
    have noNulA : '\x00' ∉ a := by
      intro nul
      apply noNul
      apply List.mem_of_mem_drop (i := prev)
      rw [textRest]
      exact List.mem_append_left _ nul
    have chunk_eq : chunk = a := by
      show cString ((buf.set (prev + a.length) '\x00').drop prev) = a
      rw [ahead.drop_set textRest]
      exact cString_append noNulA _
    have next : Ahead text markers nextIdx buf' (prev + a.length + 1)
        (lineno + chunk.count '\n' + 1) := by
      refine ⟨marker.lt_length, ?_, ?_, ?_, ?_⟩
      · exact List.length_set.trans ahead.length
      · have behind := congrArg (List.drop (a.length + 1)) (ahead.drop_set textRest)
        rw [List.drop_drop, ← Nat.add_assoc] at behind
        rw [behind, ← List.drop_drop, List.drop_left]
        rfl
      · intro j m later hm
        obtain ⟨inJ, rfl⟩ := List.getElem?_eq_some_iff.mp hm
        obtain ⟨inS, eq⟩ := List.getElem?_eq_some_iff.mp found
        have increasing := List.pairwise_iff_getElem.mp sorted nextIdx j inS inJ later
        rw [eq] at increasing
        exact increasing
      · rw [textTake, ahead.lineno, chunk_eq, List.count_append, List.count_append]
        simp only [List.count_singleton_self]
        push_cast
        omega
    have later := ih next
    have length : chunk.length = a.length := congrArg List.length chunk_eq
    have count : chunk.count '\n' = a.count '\n' := congrArg (List.count '\n') chunk_eq
    have made : Cut text buf' (prev + a.length + 1) (lineno + a.count '\n' + 1) (id + 1) rest := by
      rw [← count]
      exact later
    rw [length]
    exact Cut.cons ahead noNulA textRest header made

theorem createTasks_cut {text : Text} (noNul : '\x00' ∉ text) :
    Cut text (text ++ ['\x00']) 0 1 0 (createTasks text) := by
  obtain ⟨all, sorted⟩ := moduleMarkers_spec text 0
  have ahead : Ahead text (moduleMarkers text 0) 0 (text ++ ['\x00']) 0 1 := by
    refine ⟨Nat.zero_le _, by simp, by simp, fun _ _ _ _ => Nat.zero_le _, by simp⟩
  unfold createTasks
  dsimp only
  split
  · exact makeTasks_last noNul ahead 0
  · exact makeTasks_cut noNul (fun m hm => (all m hm).2) sorted 0 _ 0 1 0 ahead

/-! ## The queue -/

def exitFlag : TaskRecord := ⟨0, 0, -1, -1⟩

/-- The task queue: popped from the back, the exit flags are what is left at the end. -/
structure TaskQueue where
  records : List TaskRecord
  flagsFirst : records.Pairwise fun a b => b.id = -1 → a.id = -1

theorem TaskQueue.flagsFirst_dropLast (q : TaskQueue) :
    q.records.dropLast.Pairwise fun a b => b.id = -1 → a.id = -1 :=
  q.flagsFirst.sublist (List.dropLast_sublist _)

/-- `back` and `pop_back` under the lock; a thread waits while the queue is empty. -/
def TaskQueue.pop (q : TaskQueue) : Option (Option TaskRecord × TaskQueue) :=
  match q.records.getLast? with
  | none => none
  | some e => some (if e.id = -1 then none else some e, ⟨q.records.dropLast, q.flagsFirst_dropLast⟩)

/-- The tasks in the order in which they are popped. -/
def TaskQueue.pending (q : TaskQueue) : List TaskRecord :=
  (q.records.filter fun e => e.id ≠ -1).reverse

def TaskQueue.exits (q : TaskQueue) : Nat := q.records.countP fun e => e.id = -1

theorem TaskQueue.pop_some {q q' : TaskQueue} {task : Option TaskRecord}
    (h : q.pop = some (task, q')) :
    ∃ e, q.records = q'.records ++ [e] ∧ task = if e.id = -1 then none else some e := by
  unfold TaskQueue.pop at h
  split at h
  · cases h
  · rename_i e last
    cases h
    exact ⟨e, (List.dropLast_append_getLast? e last).symm, rfl⟩

theorem TaskQueue.pop_task {q q' : TaskQueue} {t : TaskRecord} (h : q.pop = some (some t, q')) :
    q.pending = t :: q'.pending ∧ q'.exits = q.exits := by
  obtain ⟨e, records, task⟩ := TaskQueue.pop_some h
  split at task
  · cases task
  · rename_i noFlag
    cases task
    unfold TaskQueue.pending TaskQueue.exits
    rw [records]
    simp [noFlag]

theorem TaskQueue.pop_flag {q q' : TaskQueue} (h : q.pop = some (none, q')) :
    (q.pending = [] ∧ q'.pending = []) ∧ q.exits = q'.exits + 1 := by
  obtain ⟨e, records, task⟩ := TaskQueue.pop_some h
  split at task
  · rename_i flag
    have flags : ∀ a ∈ q'.records, a.id = -1 := by
      intro a ha
      have order := q.flagsFirst
      rw [records, List.pairwise_append] at order
      exact order.2.2 a ha e (List.mem_singleton_self e) flag
    have none_ : q'.records.filter (fun e => e.id ≠ -1) = [] := by
      rw [List.filter_eq_nil_iff]
      intro a ha
      simp [flags a ha]
    unfold TaskQueue.pending TaskQueue.exits
    rw [records, List.filter_append, none_]
    simp [flag]
  · cases task

def taskSupply : Supply TaskQueue TaskRecord where
  take := TaskQueue.pop
  pending := TaskQueue.pending
  pending_task h := (TaskQueue.pop_task h).1
  pending_leave h := (TaskQueue.pop_flag h).1

theorem taskSupply_exits : Exits taskSupply TaskQueue.exits where
  task h := (TaskQueue.pop_task h).2
  leave h := (TaskQueue.pop_flag h).2
  wait := by
    intro q waits
    unfold TaskQueue.exits
    have empty : q.records = [] := by
      replace waits : q.pop = none := waits
      unfold TaskQueue.pop at waits
      split at waits
      · rename_i none_
        exact List.getLast?_eq_none_iff.mp none_
      · cases waits
    rw [empty]
    rfl

/-- `records` is what `std::sort` can make of the tasks and the exit flags. -/
structure Sorted (tasks : List TaskRecord) (nrThread : Nat) (records : List TaskRecord) : Prop where
  perm : records.Perm (tasks ++ List.replicate nrThread exitFlag)
  ascending : records.Pairwise fun a b => ¬ b.len < a.len

/-- A flag is shorter than any task. -/
theorem Sorted.flagsFirst {tasks : List TaskRecord} {nrThread : Nat} {records : List TaskRecord}
    (sorted : Sorted tasks nrThread records) (task : ∀ t ∈ tasks, 0 < t.len ∧ t.id ≠ -1) :
    records.Pairwise fun a b => b.id = -1 → a.id = -1 := by
  have known : ∀ e ∈ records, e.id = -1 ∧ e.len = 0 ∨ e.id ≠ -1 ∧ 0 < e.len := by
    intro e he
    rcases List.mem_append.mp (sorted.perm.mem_iff.mp he) with isTask | isFlag
    · exact .inr ⟨(task e isTask).2, (task e isTask).1⟩
    · rw [List.eq_of_mem_replicate isFlag]
      exact .inl ⟨rfl, rfl⟩
  refine sorted.ascending.imp_of_mem ?_
  intro a b ha hb shorter flag
  rcases known a ha with ⟨aFlag, -⟩ | ⟨-, aLong⟩
  · exact aFlag
  · rcases known b hb with ⟨-, bShort⟩ | ⟨bTask, -⟩
    · omega
    · exact absurd flag bTask

theorem createTasks_task {text : Text} (noNul : '\x00' ∉ text) :
    ∀ t ∈ (createTasks text).1, 0 < t.len ∧ t.id ≠ -1 := by
  have cut := createTasks_cut noNul
  intro t ht
  refine ⟨?_, ?_⟩
  · rw [(cut.placed t ht).len]
    exact Nat.succ_pos _
  · have mem : t.id ∈ (createTasks text).1.map TaskRecord.id := List.mem_map_of_mem ht
    rw [cut.ids] at mem
    obtain ⟨i, -, eq⟩ := List.mem_map.mp mem
    omega

def sortedQueue {text : Text} (noNul : '\x00' ∉ text) {nrThread : Nat} {records : List TaskRecord}
    (sorted : Sorted (createTasks text).1 nrThread records) : TaskQueue :=
  ⟨records, sorted.flagsFirst (createTasks_task noNul)⟩

/-! ## Threads -/

/-- The generated parser: the root, if there is a circuit header, and the list of modules.  The
    number of the first line is set before. -/
structure Grammar (Root Module : Type) where
  parse : Int → Text → Option Root × List Module
  parseHeader : Int → Text → Option Root
  parseModule : Int → Text → Module

/-- A chunk is parsed module by module, each with its own line; only what comes before the first
    module header can be a circuit header. -/
structure Grammar.Lawful {Root Module : Type} (G : Grammar Root Module) : Prop where
  modules : ∀ line s, isModuleHeader s = true →
    (G.parse line s).2 = (sections line s).map fun m => G.parseModule m.1 m.2
  circuit : ∀ line s, isModuleHeader s = false →
    G.parse line s = (G.parseHeader line (splitSections line s).1,
      (splitSections line s).2.map fun m => G.parseModule m.1 m.2)

section Threads

variable {Root Module : Type} (G : Grammar Root Module)

/-- What a thread stores in `lists[e.id]`, and for the first chunk in `globalRoot`. -/
def parseChunk (buf : Text) (t : TaskRecord) : Option Root × List Module :=
  G.parse t.lineno (chunkText buf t)

abbrev ParseState (Root Module : Type) :=
  State TaskQueue TaskRecord Int (Option Root × List Module)

/-- One step of `parseFunc` in one of the threads. -/
abbrev ParseStep (text : Text) (nrThread : Nat) :
    ParseState Root Module → ParseState Root Module → Prop :=
  Step taskSupply TaskRecord.id (parseChunk G (createTasks text).2) nrThread

/-- The threads started on `queue` can get to `s`. -/
abbrev ParseReaches (text : Text) (nrThread : Nat) (queue : TaskQueue) (s : ParseState Root Module) :
    Prop :=
  Relation.ReflTransGen (ParseStep G text nrThread) (State.initial queue) s

/-- The root of the first list, with all lists concatenated. -/
def mergeLists (count : Nat) (lists : Int → Option (Option Root × List Module)) :
    Option Root × List Module :=
  (((lists 0).map Prod.fst).getD none,
    (List.range count).flatMap fun i : Nat => ((lists (i : Int)).map Prod.snd).getD [])

end Threads

/-- What chunked parsing promises: the chunks are the text, each at a module header line of which it
    knows the number; whatever the threads do, they come to an end; and then the queue is empty,
    each chunk was parsed by one thread, and the merged result is that of parsing the text. -/
structure ParsesWhole {Root Module : Type} (G : Grammar Root Module) (text : Text) (nrThread : Nat)
    (queue : TaskQueue) : Prop where
  joined : List.intercalate ['\n'] ((createTasks text).1.map (chunkText (createTasks text).2)) = text
  starts : ∀ t ∈ (createTasks text).1,
    t.lineno = 1 + ((text.take t.offset).count '\n' : Int) ∧
      (t.id = 0 ∧ t.offset = 0 ∨ 0 < t.id ∧ 0 < t.offset ∧ IsMarker text (t.offset - 1))
  ends : ∀ run : Nat → ParseState Root Module, ¬ ∀ i, ParseStep G text nrThread (run i) (run (i + 1))
  neverStuck : ∀ s, ParseReaches G text nrThread queue s →
    s.Over nrThread ∨ ∃ s', ParseStep G text nrThread s s'
  emptied : ∀ s, ParseReaches G text nrThread queue s → s.Over nrThread → s.supply.records = []
  once : ∀ s, ParseReaches G text nrThread queue s → s.Over nrThread →
    (s.taken.map Prod.snd).Perm (createTasks text).1 ∧
      ∀ t ∈ (createTasks text).1, ∃! w, (w, t) ∈ s.taken
  merged : ∀ s, ParseReaches G text nrThread queue s → s.Over nrThread →
    mergeLists (createTasks text).1.length s.cells = G.parse 1 text

section Proof

variable {Root Module : Type} {G : Grammar Root Module} {text : Text} (noNul : '\x00' ∉ text)
  {nrThread : Nat} {records : List TaskRecord}
  (sorted : Sorted (createTasks text).1 nrThread records)

include noNul in
theorem createTasks_starts : ∀ t ∈ (createTasks text).1,
    t.lineno = 1 + ((text.take t.offset).count '\n' : Int) ∧
      (t.id = 0 ∧ t.offset = 0 ∨ 0 < t.id ∧ 0 < t.offset ∧ IsMarker text (t.offset - 1)) := by
  have cut := createTasks_cut noNul
  obtain ⟨len, later, tasks, markers⟩ := cut.head
  have ids := cut.ids
  rw [tasks, List.map_cons, List.length_cons, List.range_succ_eq_map, List.map_cons] at ids
  intro t ht
  refine ⟨(cut.placed t ht).lineno, ?_⟩
  rw [tasks] at ht
  rcases List.mem_cons.mp ht with rfl | other
  · exact .inl ⟨rfl, rfl⟩
  · refine .inr ⟨?_, markers t other⟩
    have mem : t.id ∈ later.map TaskRecord.id := List.mem_map_of_mem other
    rw [(List.cons_eq_cons.mp ids).2] at mem
    obtain ⟨i, hi, eq⟩ := List.mem_map.mp mem
    obtain ⟨j, -, rfl⟩ := List.mem_map.mp hi
    omega

include noNul in
theorem createTasks_ids_nodup : ((createTasks text).1.map TaskRecord.id).Nodup := by
  rw [(createTasks_cut noNul).ids]
  apply List.Nodup.map _ List.nodup_range
  intro i j eq
  dsimp only at eq
  omega

/-- The queue hands out every task. -/
theorem pending_perm : (sortedQueue noNul sorted).pending.Perm (createTasks text).1 := by
  have task := createTasks_task noNul
  have keep : (createTasks text).1.filter (fun e => e.id ≠ -1) = (createTasks text).1 := by
    rw [List.filter_eq_self]
    intro t ht
    exact decide_eq_true (task t ht).2
  have drop : (List.replicate nrThread exitFlag).filter (fun e => e.id ≠ -1) = [] := by
    rw [List.filter_eq_nil_iff]
    intro e he
    rw [List.eq_of_mem_replicate he]
    decide
  refine (List.reverse_perm _).trans ((sorted.perm.filter _).trans ?_)
  rw [List.filter_append, keep, drop, List.append_nil]

theorem exits_sortedQueue : (sortedQueue noNul sorted).exits = nrThread := by
  have task := createTasks_task noNul
  have none_ : (createTasks text).1.countP (fun e => e.id = -1) = 0 := by
    rw [List.countP_eq_zero]
    intro t ht
    simp [(task t ht).2]
  have flags : (List.replicate nrThread exitFlag).countP (fun e => e.id = -1) = nrThread := by
    rw [List.countP_replicate]
    rfl
  unfold TaskQueue.exits sortedQueue
  rw [sorted.perm.countP_eq, List.countP_append, none_, flags, Nat.zero_add]

/-- Every run keeps the pool's invariant. -/
theorem parse_inv {s : ParseState Root Module}
    (reached : ParseReaches G text nrThread (sortedQueue noNul sorted) s) :
    Inv taskSupply TaskRecord.id (parseChunk G (createTasks text).2) nrThread
      (sortedQueue noNul sorted).pending s := by
  have apart : ((sortedQueue noNul sorted).pending.map TaskRecord.id).Nodup :=
    ((pending_perm noNul sorted).map _).nodup_iff.mpr (createTasks_ids_nodup noNul)
  exact Inv.run (Inv.initial _) apart reached

theorem parse_exits {s : ParseState Root Module}
    (reached : ParseReaches G text nrThread (sortedQueue noNul sorted) s) :
    s.supply.exits = s.present nrThread := by
  apply taskSupply_exits.run _ reached
  exact (exits_sortedQueue noNul sorted).trans (present_initial _).symm

/-- Nothing pending and no flag: the queue is empty. -/
theorem TaskQueue.records_eq_nil {q : TaskQueue} (pending : q.pending = []) (exits : q.exits = 0) :
    q.records = [] := by
  by_contra some_
  obtain ⟨e, he⟩ := List.exists_mem_of_ne_nil _ some_
  have flag : e.id = -1 := by
    have dropped := List.filter_eq_nil_iff.mp (List.reverse_eq_nil_iff.mp pending) e he
    simpa using dropped
  have none_ := List.countP_eq_zero.mp exits e he
  simp [flag] at none_

include noNul in
/-- Chunk by chunk, the parser makes what it makes of the text. -/
theorem parseChunks_eq (law : G.Lawful) (circuit : isModuleHeader text = false) :
    ∃ first later, (createTasks text).1 = first :: later ∧ first.id = 0 ∧
      (parseChunk G (createTasks text).2 first).1 = (G.parse 1 text).1 ∧
      (createTasks text).1.flatMap (fun t => (parseChunk G (createTasks text).2 t).2) =
        (G.parse 1 text).2 := by
  have cut := createTasks_cut noNul
  obtain ⟨len, later, tasks, markers⟩ := cut.head
  refine ⟨_, later, tasks, rfl, ?_⟩
  set buf := (createTasks text).2 with hbuf
  set first : TaskRecord := ⟨0, len, 1, 0⟩ with hfirst
  -- the first chunk has the circuit header, the others start with a module header
  have noHeader : isModuleHeader (chunkText buf first) = false := by
    have placed := cut.placed first (by rw [tasks]; exact List.mem_cons_self)
    rw [placed.header]
    exact circuit
  have headers : ∀ t ∈ later, isModuleHeader (chunkText buf t) = true := by
    intro t ht
    obtain ⟨positive, after, here, header⟩ := markers t ht
    have placed := cut.placed t (by rw [tasks]; exact List.mem_cons_of_mem _ ht)
    have next : text.drop t.offset = after := by
      have one : t.offset = t.offset - 1 + 1 := by omega
      rw [one, ← List.drop_drop, here]
      rfl
    rw [placed.header, next]
    exact header
  have split := cut.sections
  rw [tasks, List.flatMap_cons, List.drop_zero] at split
  obtain ⟨same, rest⟩ := List.cons_eq_cons.mp split
  have firstText : (splitSections 1 (chunkText buf first)).1 = (splitSections 1 text).1 :=
    congrArg Prod.snd same
  have laterParsed : later.flatMap (fun t => (parseChunk G buf t).2) =
      (later.flatMap fun t => sections t.lineno (chunkText buf t)).map fun m =>
        G.parseModule m.1 m.2 := by
    rw [List.map_flatMap]
    apply List.flatMap_congr
    intro t ht
    exact law.modules _ _ (headers t ht)
  have firstParsed : parseChunk G buf first = _ := law.circuit 1 _ noHeader
  rw [tasks, List.flatMap_cons, laterParsed, firstParsed, law.circuit 1 text circuit, ← rest]
  refine ⟨?_, ?_⟩
  · rw [firstText]
  · exact List.map_append.symm

end Proof

/-- **Chunked parsing.**  For every circuit text and number of threads, however `std::sort` orders
    chunks of one length and however the threads take turns. -/
theorem parseFIR_parsesWhole {Root Module : Type} {G : Grammar Root Module} (law : G.Lawful)
    {text : Text} (noNul : '\x00' ∉ text) (circuit : isModuleHeader text = false) {nrThread : Nat}
    (some_ : 0 < nrThread) {records : List TaskRecord}
    (sorted : Sorted (createTasks text).1 nrThread records) :
    ParsesWhole G text nrThread (sortedQueue noNul sorted) where
  joined := (createTasks_cut noNul).chunks
  starts := createTasks_starts noNul
  ends run := no_infinite_run run
  neverStuck s reached := taskSupply_exits.step_or_over (parse_exits noNul sorted reached)
  emptied := by
    intro s reached gone
    apply TaskQueue.records_eq_nil
    · exact (parse_inv noNul sorted reached).left 0 (gone 0 some_)
    · rw [parse_exits noNul sorted reached]
      exact over_iff_present.mp gone
  once := by
    intro s reached gone
    have inv := parse_inv noNul sorted reached
    have taken := (inv.finished some_ gone).1
    have perm : (s.taken.map Prod.snd).Perm (createTasks text).1 := by
      rw [taken]
      exact pending_perm noNul sorted
    refine ⟨perm, ?_⟩
    intro t ht
    obtain ⟨⟨w, t'⟩, mem, rfl⟩ := List.mem_map.mp (perm.mem_iff.mpr ht)
    have nodup : (s.taken.map Prod.snd).Nodup :=
      perm.nodup_iff.mpr (List.Nodup.of_map _ (createTasks_ids_nodup noNul))
    refine ⟨w, mem, ?_⟩
    intro w' mem'
    exact congrArg Prod.fst (List.inj_on_of_nodup_map nodup mem' mem rfl)
  merged := by
    intro s reached gone
    have cells := ((parse_inv noNul sorted reached).finished some_ gone).2
    have filled : ∀ t ∈ (createTasks text).1,
        s.cells t.id = some (parseChunk G (createTasks text).2 t) := by
      intro t ht
      exact cells t ((pending_perm noNul sorted).mem_iff.mpr ht)
    obtain ⟨first, later, tasks, zero, root, modules⟩ := parseChunks_eq noNul law circuit
    have lists : (List.range (createTasks text).1.length).flatMap
        (fun i : Nat => ((s.cells (i : Int)).map Prod.snd).getD []) =
        (createTasks text).1.flatMap fun t => (parseChunk G (createTasks text).2 t).2 := by
      have ids : (createTasks text).1.map TaskRecord.id =
          (List.range (createTasks text).1.length).map fun i : Nat => (i : Int) := by
        simpa using (createTasks_cut noNul).ids
      have byId : (List.range (createTasks text).1.length).flatMap
          (fun i : Nat => ((s.cells (i : Int)).map Prod.snd).getD []) =
          ((createTasks text).1.map TaskRecord.id).flatMap
            fun i => ((s.cells i).map Prod.snd).getD [] := by
        rw [ids, List.flatMap_map]
      rw [byId, List.flatMap_map]
      apply List.flatMap_congr
      intro t ht
      rw [filled t ht]
      rfl
    have rootCell : s.cells 0 = some (parseChunk G (createTasks text).2 first) := by
      rw [← zero]
      apply filled
      rw [tasks]
      exact List.mem_cons_self
    unfold mergeLists
    rw [lists, modules, rootCell]
    exact Prod.ext root rfl

/-! ### A small circuit -/

def lenLe (a b : TaskRecord) : Prop := a.len ≤ b.len

instance : DecidableRel lenLe := fun a b => inferInstanceAs (Decidable (a.len ≤ b.len))

instance : Std.Total lenLe := ⟨fun _ _ => Nat.le_total _ _⟩

instance : IsTrans TaskRecord lenLe := ⟨fun _ _ _ => Nat.le_trans⟩

/-- Sorting has a result. -/
theorem sorted_insertionSort (tasks : List TaskRecord) (nrThread : Nat) :
    Sorted tasks nrThread
      ((tasks ++ List.replicate nrThread exitFlag).insertionSort lenLe) where
  perm := List.perm_insertionSort _ _
  ascending := (List.pairwise_insertionSort lenLe _).imp Nat.not_lt.mpr

/-- The grammar that only cuts the text into its sections. -/
def sectionGrammar : Grammar Text (Int × Text) where
  parse line s :=
    if isModuleHeader s then (none, sections line s)
    else (some (splitSections line s).1, (splitSections line s).2)
  parseHeader _ s := some s
  parseModule line s := (line, s)

theorem sectionGrammar_lawful : sectionGrammar.Lawful where
  modules line s header := by
    simp [sectionGrammar, header]
  circuit line s header := by
    simp [sectionGrammar, header]

/-- Seven modules, so that the text is cut before the sixth. -/
def smallCircuit : Text :=
  ("circuit A :\n  module A :\n    skip\n\n  extmodule B :\n    defname = B\n" ++
    "  module C :\n  module D :\n  private module E :\n  module F :\n  intmodule G :\n").toList

theorem smallCircuit_noNul : '\x00' ∉ smallCircuit := by decide +kernel

theorem smallCircuit_markers : moduleMarkers smallCircuit 0 = [11, 34, 66, 79, 92, 113, 126] := by
  have found : ∀ p ∈ [(0, 11), (12, 34), (35, 66), (67, 79), (80, 92), (93, 113), (114, 126)],
      findNextModuleMarker p.1 (smallCircuit.drop p.1) = some p.2 := by decide +kernel
  have last : findNextModuleMarker 127 (smallCircuit.drop 127) = none := by decide +kernel
  simp only [List.forall_mem_cons] at found
  obtain ⟨a, b, c, d, e, f, g, -⟩ := found
  rw [moduleMarkers_cons a, moduleMarkers_cons b, moduleMarkers_cons c, moduleMarkers_cons d,
    moduleMarkers_cons e, moduleMarkers_cons f, moduleMarkers_cons g, moduleMarkers_nil last]

theorem parseFIR_smallCircuit :
    (createTasks smallCircuit).1.length = 2 ∧
      ParsesWhole sectionGrammar smallCircuit 2
        (sortedQueue smallCircuit_noNul (sorted_insertionSort (createTasks smallCircuit).1 2)) := by
  refine ⟨?_, parseFIR_parsesWhole sectionGrammar_lawful smallCircuit_noNul (by decide +kernel)
    (by decide) (sorted_insertionSort _ 2)⟩
  rw [length_createTasks, smallCircuit_markers]
  rfl

end Gsim.FirParser
