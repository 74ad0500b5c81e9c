/-
  Gsim/ShortNames.lean
  ====================
  **Short node names** (`graph::mtInternNodeNames` and `mtRewriteInstNodeNames` of
  `cppEmitterUtil.cpp`).

  The names of eight bytes or more are numbered in order and become `_v<number>`
  where that is shorter; the names of external nodes, of the inputs and outputs and
  the short ones are kept, and their spellings are not given out.  The instruction
  texts are rewritten token by token with the same map.

  `interns_iff` says when this is an injective renaming of nodes and tokens:
    * a name that stays because its short form would not be shorter must not be the
      short form of another one (the pool is only kept apart from the kept names);
    * a kept name must not be shared with a node whose name is shortened;
    * a token that begins with a digit must not be, whole or after its digits, a
      shortened name: the scan copies the digits one by one and looks up the rest.

  Bytes are written as characters.  The table of the old names, which is only printed
  in comments, is left out.
-/
import Mathlib.Data.Nat.Nth
import Mathlib.Order.Interval.Finset.Nat
import Gsim.SortedContainers
import Gsim.TokenRuns

namespace Gsim.ShortNames

open SortedContainers TokenRuns

abbrev Name := List Char

/-! ## The program -/

/-- What the emitter reads and rewrites: nodes and supers by number. -/
structure EmitGraph where
  name : ℕ → Name
  isExt : ℕ → Bool
  member : ℕ → List ℕ
  insts : ℕ → List Name
  sortedSuper : List ℕ
  supersrc : List ℕ
  allReset : List ℕ
  memory : List ℕ
  specialNodes : List ℕ
  external : List ℕ
  regsrc : List ℕ
  input : List ℕ
  output : List ℕ

def mtRepCutNameChar (ch : Char) : Bool := ch.isAlphanum || ch = '_' || ch = '$'

/-- `format("_v%zu", idx)` -/
def shortName (idx : ℕ) : Name := '_' :: 'v' :: Nat.toDigits 10 idx

/-- The `do`/`while` loop: the first index from `idx` on whose name is not kept. -/
def nextFree (keptNames : List Name) : ℕ → ℕ → ℕ
  | 0, idx => idx
  | fuel + 1, idx => if shortName idx ∈ keptNames then nextFree keptNames fuel (idx + 1) else idx

/-- The loop over the internable names, with `nextIdx` and the map so far. -/
def assignNames (keptNames : List Name) : List Name → ℕ → List (Name × Name) → List (Name × Name)
  | [], _, nameMap => nameMap
  | name :: names, nextIdx, nameMap =>
      let idx := nextFree keptNames keptNames.length nextIdx
      let short := shortName idx
      -- never lengthen
      if short.length ≥ name.length then assignNames keptNames names (idx + 1) nameMap
      else assignNames keptNames names (idx + 1) (mapAssign name short nameMap)

/-- `mtShortNameMinFromLen` -/
def minFromLen (lookup : List (Name × Name)) : ℕ :=
  lookup.foldl (fun len mapping => min len mapping.1.length) (2 ^ 64 - 1)

/-- The scan of a text by `mtRewriteInstNodeNames`. -/
def rewriteFrom (lookup : List (Name × Name)) (minLen : ℕ) : Name → Name
  | [] => []
  | ch :: text =>
      if mtRepCutNameChar ch && !('0' ≤ ch && ch ≤ '9') then
        let token := ch :: text.takeWhile mtRepCutNameChar
        let out := if minLen ≤ token.length then (mapFind token lookup).getD token else token
        out ++ rewriteFrom lookup minLen (text.dropWhile mtRepCutNameChar)
      else ch :: rewriteFrom lookup minLen text
termination_by text => text.length
decreasing_by
  · exact Nat.lt_succ_of_le (List.length_dropWhile_le _ text)
  · exact Nat.lt_succ_self _

def mtRewriteInstNodeNames (lookup : List (Name × Name)) (text : Name) : Name :=
  if lookup = [] then text else rewriteFrom lookup (minFromLen lookup) text

def pushSuper (supers : List ℕ) (super : ℕ) : List ℕ :=
  if super ∈ supers then supers else supers ++ [super]

namespace EmitGraph

variable (G : EmitGraph)

/-- Every node the emitter can reach. -/
def nodes : List ℕ :=
  sortUnique (((G.sortedSuper ++ G.supersrc ++ G.allReset).flatMap G.member) ++
    G.memory ++ G.specialNodes ++ G.external ++ G.regsrc)

def keepFull (node : ℕ) : Bool := node ∈ G.input || node ∈ G.output

/-- The nodes whose names are put into `keptNames`. -/
def isKept (node : ℕ) : Bool := G.isExt node || G.keepFull node || (G.name node).length < 8

def named : List ℕ := G.nodes.filter fun node => G.name node ≠ []

def keptNames : List Name := sortUnique ((G.named.filter G.isKept).map G.name)

def internableNames : List Name := sortUnique ((G.named.filter (!G.isKept ·)).map G.name)

def nameMap : List (Name × Name) := assignNames G.keptNames G.internableNames 0 []

/-- The supers to rewrite, each once. -/
def supers : List ℕ := (G.sortedSuper ++ G.supersrc ++ G.allReset).foldl pushSuper []

def rewriteInsts (lookup : List (Name × Name)) (texts : List Name) : List Name :=
  texts.map fun text => if text = [] then text else mtRewriteInstNodeNames lookup text

def mtInternNodeNames : EmitGraph :=
  if G.nameMap = [] then G
  else
    { G with
      insts := G.supers.foldl
        (fun insts super => Function.update insts super (rewriteInsts G.nameMap (insts super))) G.insts
      name := G.nodes.foldl
        (fun name node => Function.update name node ((mapFind (name node) G.nameMap).getD (name node)))
        G.name }

end EmitGraph

/-! ## The numbering -/

theorem shortName_injective : Function.Injective shortName := by
  intro i j same
  have digits : Nat.toDigits 10 i = Nat.toDigits 10 j := by simpa [shortName] using same
  rw [← Nat.ofDigitChars_ten_toDigits (n := i), digits, Nat.ofDigitChars_ten_toDigits]

theorem mtRepCutNameChar_shortName (i : ℕ) : ∀ ch ∈ shortName i, mtRepCutNameChar ch := by
  intro ch hch
  rw [shortName, List.mem_cons, List.mem_cons] at hch
  rcases hch with rfl | rfl | digit
  · decide
  · decide
  · have := Nat.isDigit_of_mem_toDigits (by decide) (by decide) digit
    simp [mtRepCutNameChar, Char.isAlphanum, this]

/-- An index whose spelling may be given out. -/
def Free (keptNames : List Name) (idx : ℕ) : Prop := shortName idx ∉ keptNames

instance (keptNames : List Name) : DecidablePred (Free keptNames) := fun _ => inferInstanceAs (Decidable (¬ _))

theorem infinite_free (keptNames : List Name) : (Set.ofPred (Free keptNames)).Infinite := by
  intro finite
  have taken : ((Set.ofPred (Free keptNames))ᶜ).Finite := by
    refine Set.Finite.subset (Set.Finite.preimage shortName_injective.injOn keptNames.finite_toSet) ?_
    intro idx hidx
    simpa [Free] using hidx
  exact Set.infinite_univ (Set.compl_union_self _ ▸ taken.union finite)

theorem nextFree_skips (keptNames : List Name) (fuel idx : ℕ) :
    idx ≤ nextFree keptNames fuel idx ∧
      ∀ j, idx ≤ j → j < nextFree keptNames fuel idx → shortName j ∈ keptNames := by
  induction fuel generalizing idx with
  | zero => exact ⟨le_refl _, fun j le lt => absurd (lt_of_le_of_lt le lt) (lt_irrefl _)⟩
  | succ fuel ih =>
    rw [nextFree]
    split
    · rename_i taken
      obtain ⟨le, skipped⟩ := ih (idx + 1)
      refine ⟨by omega, fun j hj lt => ?_⟩
      rcases Nat.eq_or_lt_of_le hj with rfl | hj
      · exact taken
      · exact skipped j hj lt
    · exact ⟨le_refl _, fun j le lt => absurd (lt_of_le_of_lt le lt) (lt_irrefl _)⟩

/-- The loop ends at a free index, or it has met one kept name for each turn. -/
theorem nextFree_free_or (keptNames : List Name) (fuel idx : ℕ) :
    Free keptNames (nextFree keptNames fuel idx) ∨ ∀ j ≤ fuel, shortName (idx + j) ∈ keptNames := by
  induction fuel generalizing idx with
  | zero =>
    by_cases free : shortName idx ∈ keptNames
    · refine .inr fun j hj => ?_
      obtain rfl : j = 0 := by omega
      exact free
    · exact .inl free
  | succ fuel ih =>
    rw [nextFree]
    split
    · rename_i taken
      refine (ih (idx + 1)).imp_right fun all j hj => ?_
      cases j with
      | zero => exact taken
      | succ j =>
        have := all j (by omega)
        rwa [Nat.add_right_comm, Nat.add_assoc] at this
    · rename_i free
      exact .inl free

/-- One turn for each kept name is enough. -/
theorem nextFree_free (keptNames : List Name) (idx : ℕ) :
    Free keptNames (nextFree keptNames keptNames.length idx) := by
  refine (nextFree_free_or keptNames keptNames.length idx).resolve_right fun all => ?_
  have distinct : ((List.range (keptNames.length + 1)).map fun j => shortName (idx + j)).Nodup := by
    refine List.Nodup.map (fun i j same => ?_) List.nodup_range
    exact Nat.add_left_cancel (shortName_injective same)
  have inside : ((List.range (keptNames.length + 1)).map fun j => shortName (idx + j)) ⊆ keptNames := by
    intro short hshort
    obtain ⟨j, hj, rfl⟩ := List.mem_map.mp hshort
    exact all j (by rw [List.mem_range] at hj; omega)
  have := (distinct.subperm inside).length_le
  simp at this

theorem count_nextFree (keptNames : List Name) (fuel idx : ℕ) :
    Nat.count (Free keptNames) (nextFree keptNames fuel idx) = Nat.count (Free keptNames) idx := by
  obtain ⟨le, skipped⟩ := nextFree_skips keptNames fuel idx
  refine Nat.le_induction (m := idx)
    (P := fun n _ => (∀ j, idx ≤ j → j < n → shortName j ∈ keptNames) →
      Nat.count (Free keptNames) n = Nat.count (Free keptNames) idx) ?_ ?_ _ le skipped
  · intro _
    rfl
  · intro n hn ih taken
    have used : ¬ Free keptNames n := not_not.mpr (taken n hn (Nat.lt_succ_self n))
    rw [Nat.count_succ, if_neg used, Nat.add_zero]
    exact ih fun j hj lt => taken j hj (lt.trans (Nat.lt_succ_self n))

/-- The loop finds the free index of the next rank. -/
theorem nextFree_eq_nth (keptNames : List Name) (idx : ℕ) :
    nextFree keptNames keptNames.length idx =
      Nat.nth (Free keptNames) (Nat.count (Free keptNames) idx) := by
  rw [← count_nextFree keptNames keptNames.length idx, Nat.nth_count (nextFree_free keptNames idx)]

/-- The name at position `k` is given the free index of rank `k`, if that is shorter. -/
theorem mem_assignNames {keptNames names : List Name} {nextIdx : ℕ} {nameMap : List (Name × Name)}
    (sorted : nameMap.Pairwise fun p q => p.1 < q.1) (distinct : names.Nodup)
    (apart : ∀ p ∈ nameMap, p.1 ∉ names) (p : Name × Name) :
    p ∈ assignNames keptNames names nextIdx nameMap ↔
      p ∈ nameMap ∨ p.1 ∈ names ∧ p.2.length < p.1.length ∧
        p.2 = shortName (Nat.nth (Free keptNames)
          (Nat.count (Free keptNames) nextIdx + names.idxOf p.1)) := by
  induction names generalizing nextIdx nameMap with
  | nil => simp [assignNames]
  | cons name names ih =>
    obtain ⟨fresh, distinct'⟩ := List.nodup_cons.mp distinct
    have idx_eq := nextFree_eq_nth keptNames nextIdx
    have count_eq : Nat.count (Free keptNames) (nextFree keptNames keptNames.length nextIdx + 1) =
        Nat.count (Free keptNames) nextIdx + 1 := by
      rw [Nat.count_succ, if_pos (nextFree_free keptNames nextIdx), count_nextFree]
    -- the later names are counted from the next rank on
    have later : (p.1 ∈ names ∧ p.2.length < p.1.length ∧
          p.2 = shortName (Nat.nth (Free keptNames)
            (Nat.count (Free keptNames) nextIdx + 1 + names.idxOf p.1))) ↔
        p.1 ≠ name ∧ p.1 ∈ name :: names ∧ p.2.length < p.1.length ∧
          p.2 = shortName (Nat.nth (Free keptNames)
            (Nat.count (Free keptNames) nextIdx + (name :: names).idxOf p.1)) := by
      by_cases same : p.1 = name
      · rw [same]
        simp [fresh]
      · rw [List.idxOf_cons_ne _ (Ne.symm same), List.mem_cons, Nat.add_assoc, Nat.add_comm 1]
        simp [same]
    rw [assignNames]
    split
    · rename_i long
      rw [ih sorted distinct' fun q hq => fun hmem => apart q hq (List.mem_cons_of_mem _ hmem), count_eq, later]
      refine or_congr_right ⟨And.right, fun h => ⟨?_, h⟩⟩
      rintro same
      obtain ⟨-, short, eq⟩ := h
      rw [eq, same, List.idxOf_cons_self, Nat.add_zero, ← idx_eq] at short
      omega
    · rename_i short
      have apart' : ∀ q ∈ mapAssign name (shortName (nextFree keptNames keptNames.length nextIdx)) nameMap,
          q.1 ∉ names := by
        intro q hq
        rcases (mem_mapAssign sorted).mp hq with rfl | ⟨hq, -⟩
        · exact fresh
        · exact fun hmem => apart q hq (List.mem_cons_of_mem _ hmem)
      rw [ih (mapAssign_pairwise _ _ sorted) distinct' apart', count_eq, later, mem_mapAssign sorted]
      constructor
      · rintro ((rfl | ⟨old, -⟩) | ⟨-, new⟩)
        · refine .inr ⟨List.mem_cons_self, not_le.mp short, ?_⟩
          rw [List.idxOf_cons_self, Nat.add_zero, ← idx_eq]
        · exact .inl old
        · exact .inr new
      · rintro (old | new)
        · exact .inl (.inr ⟨old, fun same => apart p old (same ▸ List.mem_cons_self)⟩)
        · by_cases same : p.1 = name
          · refine .inl (.inl (Prod.ext same ?_))
            rw [new.2.2, same, List.idxOf_cons_self, Nat.add_zero, ← idx_eq]
          · exact .inr ⟨same, new⟩

/-! ## What is renamed -/

/-- The rewriting of distinct entries, one after the other. -/
theorem foldl_update {β : Type*} (f : β → β) {l : List ℕ} (distinct : l.Nodup) (g : ℕ → β) (k : ℕ) :
    l.foldl (fun g n => Function.update g n (f (g n))) g k = if k ∈ l then f (g k) else g k := by
  induction l generalizing g with
  | nil => simp
  | cons n l ih =>
    obtain ⟨fresh, distinct'⟩ := List.nodup_cons.mp distinct
    rw [List.foldl_cons, ih distinct']
    by_cases same : k = n
    · subst same
      simp [fresh]
    · simp [same]

theorem foldl_pushSuper (l : List ℕ) {seen : List ℕ} (distinct : seen.Nodup) :
    (l.foldl pushSuper seen).Nodup ∧ ∀ s, s ∈ l.foldl pushSuper seen ↔ s ∈ seen ∨ s ∈ l := by
  induction l generalizing seen with
  | nil => simpa using distinct
  | cons super l ih =>
    have step : (pushSuper seen super).Nodup ∧ ∀ s, s ∈ pushSuper seen super ↔ s ∈ seen ∨ s = super := by
      rw [pushSuper]
      split
      · rename_i old
        refine ⟨distinct, fun s => ⟨.inl, ?_⟩⟩
        rintro (mem | rfl)
        · exact mem
        · exact old
      · rename_i new
        refine ⟨List.Nodup.append distinct (List.nodup_singleton super) (by simpa using new), ?_⟩
        simp
    rw [List.foldl_cons]
    refine ⟨(ih step.1).1, fun s => ?_⟩
    rw [(ih step.1).2, step.2, List.mem_cons, or_assoc]

namespace EmitGraph

variable (G : EmitGraph)

/-- The spelling that the numbering has for an internable name. -/
noncomputable def spelling (x : Name) : Name :=
  shortName (Nat.nth (Free G.keptNames) (G.internableNames.idxOf x))

/-- The names that become shorter. -/
def Shortens (x : Name) : Prop := x ∈ G.internableNames ∧ (G.spelling x).length < x.length

theorem mem_nameMap (p : Name × Name) :
    p ∈ G.nameMap ↔ G.Shortens p.1 ∧ p.2 = G.spelling p.1 := by
  have distinct : G.internableNames.Nodup := sortUnique_nodup _
  rw [nameMap, mem_assignNames List.Pairwise.nil distinct (by simp)]
  simp only [List.not_mem_nil, false_or, Nat.count_zero, Nat.zero_add]
  constructor
  · rintro ⟨mem, short, eq⟩
    exact ⟨⟨mem, by rw [spelling, ← eq]; exact short⟩, eq⟩
  · rintro ⟨⟨mem, short⟩, eq⟩
    exact ⟨mem, by rw [eq]; exact short, eq⟩

theorem mapFind_nameMap_of_shortens {x : Name} (short : G.Shortens x) :
    mapFind x G.nameMap = some (G.spelling x) := by
  have mem : (x, G.spelling x) ∈ G.nameMap := (G.mem_nameMap _).mpr ⟨short, rfl⟩
  cases found : mapFind x G.nameMap with
  | none => exact absurd rfl (ne_of_mapFind_none found _ mem)
  | some y => exact congrArg some ((G.mem_nameMap _).mp (mem_of_mapFind found)).2

theorem mapFind_nameMap_of_not {x : Name} (long : ¬ G.Shortens x) : mapFind x G.nameMap = none := by
  cases found : mapFind x G.nameMap with
  | none => rfl
  | some y => exact absurd ((G.mem_nameMap _).mp (mem_of_mapFind found)).1 long

theorem mem_internableNames {x : Name} :
    x ∈ G.internableNames ↔ ∃ n ∈ G.nodes, G.name n = x ∧ x ≠ [] ∧ G.isKept n = false := by
  simp only [internableNames, named, mem_sortUnique, List.mem_map, List.mem_filter]
  constructor
  · rintro ⟨n, ⟨⟨hn, ne⟩, free⟩, rfl⟩
    exact ⟨n, hn, rfl, by simpa using ne, by simpa using free⟩
  · rintro ⟨n, hn, rfl, ne, free⟩
    exact ⟨n, ⟨⟨hn, by simpa using ne⟩, by simpa using free⟩, rfl⟩

theorem mem_keptNames {x : Name} :
    x ∈ G.keptNames ↔ ∃ n ∈ G.nodes, G.name n = x ∧ x ≠ [] ∧ G.isKept n = true := by
  simp only [keptNames, named, mem_sortUnique, List.mem_map, List.mem_filter]
  constructor
  · rintro ⟨n, ⟨⟨hn, ne⟩, kept⟩, rfl⟩
    exact ⟨n, hn, rfl, by simpa using ne, kept⟩
  · rintro ⟨n, hn, rfl, ne, kept⟩
    exact ⟨n, ⟨⟨hn, by simpa using ne⟩, kept⟩, rfl⟩

theorem Shortens.ne_nil {G : EmitGraph} {x : Name} (short : G.Shortens x) : x ≠ [] := by
  obtain ⟨n, -, -, ne, -⟩ := G.mem_internableNames.mp short.1
  exact ne

/-- A spelling that is given out is not a kept name. -/
theorem spelling_not_mem_keptNames (x : Name) : G.spelling x ∉ G.keptNames :=
  Nat.nth_mem_of_infinite (infinite_free G.keptNames) _

/-- Distinct names are given distinct spellings. -/
theorem spelling_inj {x y : Name} (hx : x ∈ G.internableNames)
    (same : G.spelling x = G.spelling y) : x = y := by
  have ranks := Nat.nth_injective (infinite_free G.keptNames) (shortName_injective same)
  exact (List.idxOf_inj hx).mp ranks

theorem supers_nodup : G.supers.Nodup := (foldl_pushSuper _ List.nodup_nil).1

theorem mem_supers {s : ℕ} : s ∈ G.supers ↔ s ∈ G.sortedSuper ++ G.supersrc ++ G.allReset := by
  rw [supers, (foldl_pushSuper _ List.nodup_nil).2]
  simp only [List.not_mem_nil, false_or]

/-- What the renaming does to one name. -/
def renamed (x : Name) : Name := (mapFind x G.nameMap).getD x

theorem renamed_of_shortens {x : Name} (short : G.Shortens x) : G.renamed x = G.spelling x := by
  rw [renamed, G.mapFind_nameMap_of_shortens short, Option.getD_some]

theorem renamed_of_not {x : Name} (long : ¬ G.Shortens x) : G.renamed x = x := by
  rw [renamed, G.mapFind_nameMap_of_not long, Option.getD_none]

theorem renamed_ne {x : Name} (short : G.Shortens x) : G.renamed x ≠ x := by
  intro same
  have := short.2
  rw [← G.renamed_of_shortens short, same] at this
  exact lt_irrefl _ this

theorem name_mtInternNodeNames {n : ℕ} (hn : n ∈ G.nodes) :
    G.mtInternNodeNames.name n = G.renamed (G.name n) := by
  rw [mtInternNodeNames]
  split
  · rename_i none
    rw [renamed, none]
    rfl
  · have distinct : G.nodes.Nodup := sortUnique_nodup _
    exact (foldl_update G.renamed distinct G.name n).trans (if_pos hn)

theorem insts_mtInternNodeNames {s : ℕ} (hs : s ∈ G.supers) :
    G.mtInternNodeNames.insts s = (G.insts s).map (mtRewriteInstNodeNames G.nameMap) := by
  have empty : mtRewriteInstNodeNames G.nameMap [] = [] := by
    rw [mtRewriteInstNodeNames, rewriteFrom]
    exact ite_self _
  have each : ∀ texts, rewriteInsts G.nameMap texts = texts.map (mtRewriteInstNodeNames G.nameMap) := by
    intro texts
    refine List.map_congr_left fun text _ => ?_
    split
    · rename_i nil
      rw [nil, empty]
    · rfl
  rw [← each, mtInternNodeNames]
  split
  · rename_i none
    have unchanged : mtRewriteInstNodeNames G.nameMap = id := by
      funext text
      rw [mtRewriteInstNodeNames, if_pos none, id]
    rw [each, unchanged, List.map_id]
  · exact (foldl_update (rewriteInsts G.nameMap) G.supers_nodup G.insts s).trans (if_pos hs)

end EmitGraph

/-! ## The scan, token by token -/

/-- What the scan makes of a token: its digits are copied and the rest is looked up. -/
def scanned (G : EmitGraph) (token : Name) : Name :=
  token.takeWhile Char.isDigit ++ G.renamed (token.dropWhile Char.isDigit)

theorem isDigit_iff (ch : Char) : ('0' ≤ ch && ch ≤ '9') = ch.isDigit := by
  simp [Char.isDigit, Char.le_def]

theorem minFromLen_le {lookup : List (Name × Name)} {p : Name × Name} (mem : p ∈ lookup) :
    minFromLen lookup ≤ p.1.length := by
  suffices general : ∀ len, lookup.foldl (fun len mapping => min len mapping.1.length) len ≤ len ∧
      ∀ p ∈ lookup, lookup.foldl (fun len mapping => min len mapping.1.length) len ≤ p.1.length from
    (general _).2 p mem
  clear mem
  induction lookup with
  | nil => simp
  | cons q lookup ih =>
    intro len
    obtain ⟨le, below⟩ := ih (min len q.1.length)
    refine ⟨le.trans (min_le_left _ _), fun r hr => ?_⟩
    rcases List.mem_cons.mp hr with rfl | hr
    · exact le.trans (min_le_right _ _)
    · exact below r hr

/-- The length test before the lookup loses no name. -/
theorem lookup_guard (G : EmitGraph) (token : Name) :
    (if minFromLen G.nameMap ≤ token.length then (mapFind token G.nameMap).getD token else token) =
      G.renamed token := by
  split
  · rfl
  · rename_i less
    cases found : mapFind token G.nameMap with
    | none => rw [EmitGraph.renamed, found, Option.getD_none]
    | some short => exact absurd (minFromLen_le (mem_of_mapFind found)) less

theorem rewriteFrom_run (G : EmitGraph) {run rest : Name} (all : ∀ ch ∈ run, mtRepCutNameChar ch)
    (breaks : Breaks mtRepCutNameChar rest) :
    rewriteFrom G.nameMap (minFromLen G.nameMap) (run ++ rest) =
      scanned G run ++ rewriteFrom G.nameMap (minFromLen G.nameMap) rest := by
  induction run with
  | nil =>
    have nil : ¬ G.Shortens [] := fun short => short.ne_nil rfl
    simp [scanned, G.renamed_of_not nil]
  | cons ch run ih =>
    obtain ⟨here, all'⟩ := List.forall_mem_cons.mp all
    rw [List.cons_append, rewriteFrom, isDigit_iff, here, Bool.true_and]
    by_cases digit : ch.isDigit
    · rw [if_neg (by simp [digit]), ih all', scanned, scanned, List.takeWhile_cons_of_pos digit,
        List.dropWhile_cons_of_pos digit, List.cons_append, List.cons_append]
    · rw [if_pos (by simp [digit]), takeWhile_append_of_breaks all' breaks,
        dropWhile_append_of_breaks all' breaks]
      simp only [lookup_guard, scanned]
      rw [List.takeWhile_cons_of_neg digit, List.dropWhile_cons_of_neg digit, List.nil_append]

theorem rewriteFrom_eq (G : EmitGraph) (text : Name) :
    rewriteFrom G.nameMap (minFromLen G.nameMap) text = mapTokens mtRepCutNameChar (scanned G) text := by
  induction text using tokens.induct mtRepCutNameChar with
  | case1 => rw [rewriteFrom, mapTokens]
  | case2 ch text name ih =>
    have run : ∀ c ∈ ch :: text.takeWhile mtRepCutNameChar, mtRepCutNameChar c :=
      List.forall_mem_cons.mpr ⟨name, fun d hd => List.mem_takeWhile_imp hd⟩
    have whole := rewriteFrom_run G run (breaks_dropWhile text)
    rw [List.cons_append, List.takeWhile_append_dropWhile] at whole
    rw [whole, mapTokens, if_pos name, ih]
  | case3 ch text other ih =>
    rw [rewriteFrom, mapTokens, if_neg other, if_neg (by simp [other]), ih]

theorem rewriteFrom_nil (minLen : ℕ) (text : Name) : rewriteFrom [] minLen text = text := by
  induction text using rewriteFrom.induct [] minLen with
  | case1 => rw [rewriteFrom]
  | case2 ch text name ih =>
    rw [rewriteFrom, if_pos name]
    simp only [mapFind, List.find?_nil, Option.map_none, Option.getD_none, ite_self]
    rw [ih, List.cons_append, List.takeWhile_append_dropWhile]
  | case3 ch text other ih => rw [rewriteFrom, if_neg other, ih]

theorem mtRewriteInstNodeNames_eq (G : EmitGraph) (text : Name) :
    mtRewriteInstNodeNames G.nameMap text = mapTokens mtRepCutNameChar (scanned G) text := by
  rw [mtRewriteInstNodeNames]
  split
  · rename_i none
    rw [← rewriteFrom_eq, none, rewriteFrom_nil]
  · exact rewriteFrom_eq G text

/-! ## The renaming -/

namespace EmitGraph

variable (G : EmitGraph)

/-- The new spelling of a token that is a node's name. -/
def respell (token : Name) : Name :=
  match G.nodes.find? fun n => G.name n = token with
  | some n => G.mtInternNodeNames.name n
  | none => token

/-- Every whole token that is a renamed name, replaced at once. -/
def replaceTokens : Name → Name := mapTokens mtRepCutNameChar G.respell

/-- An injective renaming of the nodes, carried through the texts. -/
structure Interns : Prop where
  injective : ∀ a ∈ G.nodes, ∀ b ∈ G.nodes,
    G.mtInternNodeNames.name a = G.mtInternNodeNames.name b ↔ G.name a = G.name b
  kept : ∀ n ∈ G.nodes, G.isKept n → G.mtInternNodeNames.name n = G.name n
  texts : ∀ s ∈ G.sortedSuper ++ G.supersrc ++ G.allReset,
    G.mtInternNodeNames.insts s = (G.insts s).map G.replaceTokens

/-- No name that stays long is the spelling of another one. -/
def PoolApart : Prop :=
  ∀ x y, G.Shortens x → y ∈ G.internableNames → ¬ G.Shortens y → G.spelling x ≠ y

/-- No kept name is also the name of a node that is renamed. -/
def KeptApart : Prop := ∀ x ∈ G.keptNames, ¬ G.Shortens x

/-- No token that begins with a digit is a shortened name, whole or after its digits. -/
def NumbersApart : Prop :=
  ∀ s ∈ G.sortedSuper ++ G.supersrc ++ G.allReset, ∀ text ∈ G.insts s,
    ∀ token ∈ tokens mtRepCutNameChar text, (∃ ch ∈ token.head?, ch.isDigit) →
      ¬ G.Shortens token ∧ ¬ G.Shortens (token.dropWhile Char.isDigit)

theorem respell_eq (token : Name) : G.respell token = G.renamed token := by
  rw [respell]
  cases found : G.nodes.find? fun n => G.name n = token with
  | some n =>
    have name : G.name n = token := by simpa using List.find?_some found
    rw [← name]
    exact G.name_mtInternNodeNames (List.mem_of_find?_eq_some found)
  | none =>
    refine (G.renamed_of_not fun short => ?_).symm
    obtain ⟨n, hn, name, -⟩ := G.mem_internableNames.mp short.1
    have := List.find?_eq_none.mp found n hn
    simp [name] at this

theorem injective_iff : (∀ a ∈ G.nodes, ∀ b ∈ G.nodes,
    G.mtInternNodeNames.name a = G.mtInternNodeNames.name b ↔ G.name a = G.name b) ↔ G.PoolApart := by
  constructor
  · intro injective x y short hy long same
    obtain ⟨a, ha, rfl, -⟩ := G.mem_internableNames.mp short.1
    obtain ⟨b, hb, rfl, -⟩ := G.mem_internableNames.mp hy
    have clash : G.mtInternNodeNames.name a = G.mtInternNodeNames.name b := by
      rw [G.name_mtInternNodeNames ha, G.name_mtInternNodeNames hb, G.renamed_of_shortens short,
        G.renamed_of_not long, same]
    exact long ((injective a ha b hb).mp clash ▸ short)
  · intro apart a ha b hb
    rw [G.name_mtInternNodeNames ha, G.name_mtInternNodeNames hb]
    refine ⟨fun same => ?_, fun same => by rw [same]⟩
    -- a spelling meets no name that stays
    have clash : ∀ x, G.Shortens x → ∀ n ∈ G.nodes, ¬ G.Shortens (G.name n) → G.spelling x ≠ G.name n := by
      intro x short n hn long eq
      have ne : G.name n ≠ [] := by
        rw [← eq]
        exact List.cons_ne_nil _ _
      cases kept : G.isKept n with
      | true => exact G.spelling_not_mem_keptNames x (eq ▸ G.mem_keptNames.mpr ⟨n, hn, rfl, ne, kept⟩)
      | false => exact apart x _ short (G.mem_internableNames.mpr ⟨n, hn, rfl, ne, kept⟩) long eq
    by_cases shortA : G.Shortens (G.name a)
    · by_cases shortB : G.Shortens (G.name b)
      · rw [G.renamed_of_shortens shortA, G.renamed_of_shortens shortB] at same
        exact G.spelling_inj shortA.1 same
      · rw [G.renamed_of_shortens shortA, G.renamed_of_not shortB] at same
        exact absurd same (clash _ shortA b hb shortB)
    · by_cases shortB : G.Shortens (G.name b)
      · rw [G.renamed_of_not shortA, G.renamed_of_shortens shortB] at same
        exact absurd same.symm (clash _ shortB a ha shortA)
      · rwa [G.renamed_of_not shortA, G.renamed_of_not shortB] at same

theorem kept_iff : (∀ n ∈ G.nodes, G.isKept n → G.mtInternNodeNames.name n = G.name n) ↔ G.KeptApart := by
  constructor
  · intro kept x hx short
    obtain ⟨n, hn, rfl, -, isKept⟩ := G.mem_keptNames.mp hx
    have same := kept n hn isKept
    rw [G.name_mtInternNodeNames hn] at same
    exact G.renamed_ne short same
  · intro apart n hn isKept
    rw [G.name_mtInternNodeNames hn]
    refine G.renamed_of_not fun short => ?_
    exact apart _ (G.mem_keptNames.mpr ⟨n, hn, rfl, short.ne_nil, isKept⟩) short

theorem renamed_run {token : Name} (all : ∀ ch ∈ token, mtRepCutNameChar ch) :
    ∀ ch ∈ G.renamed token, mtRepCutNameChar ch := by
  by_cases short : G.Shortens token
  · rw [G.renamed_of_shortens short]
    exact mtRepCutNameChar_shortName _
  · rwa [G.renamed_of_not short]

theorem scanned_run {token : Name} (all : ∀ ch ∈ token, mtRepCutNameChar ch) :
    ∀ ch ∈ scanned G token, mtRepCutNameChar ch := by
  intro ch hch
  rcases List.mem_append.mp hch with digit | rest
  · exact all ch (List.takeWhile_subset _ digit)
  · exact G.renamed_run (fun c hc => all c (List.dropWhile_subset _ hc)) ch rest

/-- A token comes out wrong only if it begins with a digit. -/
theorem scanned_eq_renamed_iff (token : Name) : scanned G token = G.renamed token ↔
    ((∃ ch ∈ token.head?, ch.isDigit) → ¬ G.Shortens token ∧ ¬ G.Shortens (token.dropWhile Char.isDigit)) := by
  by_cases starts : ∃ ch ∈ token.head?, ch.isDigit
  · simp only [starts, true_implies]
    have split := List.takeWhile_append_dropWhile (p := Char.isDigit) (l := token)
    constructor
    · intro same
      have whole : ¬ G.Shortens token := by
        -- a spelling begins with an underscore
        intro short
        obtain ⟨ch, head, digit⟩ := starts
        obtain ⟨rest, rfl⟩ : ∃ rest, token = ch :: rest := List.head?_eq_some_iff.mp head
        rw [scanned, G.renamed_of_shortens short, spelling, shortName, List.takeWhile_cons_of_pos digit,
          List.cons_append, List.cons.injEq] at same
        rw [same.1] at digit
        exact absurd digit (by decide)
      refine ⟨whole, fun short => G.renamed_ne short ?_⟩
      rw [scanned, G.renamed_of_not whole] at same
      exact List.append_cancel_left (same.trans split.symm)
    · rintro ⟨whole, rest⟩
      rw [scanned, G.renamed_of_not whole, G.renamed_of_not rest, split]
  · simp only [starts, false_implies, iff_true]
    cases token with
    | nil => rw [scanned, List.takeWhile_nil, List.dropWhile_nil, List.nil_append]
    | cons ch rest =>
      have other : ¬ ch.isDigit = true := fun digit => starts ⟨ch, rfl, digit⟩
      rw [scanned, List.takeWhile_cons_of_neg other, List.dropWhile_cons_of_neg other, List.nil_append]

theorem texts_iff : (∀ s ∈ G.sortedSuper ++ G.supersrc ++ G.allReset,
    G.mtInternNodeNames.insts s = (G.insts s).map G.replaceTokens) ↔ G.NumbersApart := by
  have each : ∀ text, mtRewriteInstNodeNames G.nameMap text = G.replaceTokens text ↔
      ∀ token ∈ tokens mtRepCutNameChar text, (∃ ch ∈ token.head?, ch.isDigit) →
        ¬ G.Shortens token ∧ ¬ G.Shortens (token.dropWhile Char.isDigit) := by
    intro text
    have respells : G.respell = G.renamed := funext G.respell_eq
    rw [mtRewriteInstNodeNames_eq, replaceTokens, respells,
      mapTokens_eq_iff (fun t => G.scanned_run) (fun t => G.renamed_run)]
    exact forall₂_congr fun token _ => G.scanned_eq_renamed_iff token
  refine forall₂_congr fun s hs => ?_
  rw [G.insts_mtInternNodeNames (G.mem_supers.mpr hs), List.map_inj_left]
  exact forall₂_congr fun text _ => each text

/-- The renaming is injective, keeps the kept names and is carried through the texts exactly
when the three kinds of names are apart. -/
theorem interns_iff : G.Interns ↔ G.PoolApart ∧ G.KeptApart ∧ G.NumbersApart := by
  rw [← G.injective_iff, ← G.kept_iff, ← G.texts_iff]
  exact ⟨fun h => ⟨h.injective, h.kept, h.texts⟩, fun ⟨injective, kept, texts⟩ => ⟨injective, kept, texts⟩⟩

end EmitGraph

/-- One node `xdeadbeef`, assigned a hexadecimal constant. -/
def hexGraph : EmitGraph where
  name := fun _ => ['x', 'd', 'e', 'a', 'd', 'b', 'e', 'e', 'f']
  isExt := fun _ => false
  member := fun _ => [0]
  insts := fun _ => [['y', '=', '0', 'x', 'd', 'e', 'a', 'd', 'b', 'e', 'e', 'f', ';']]
  sortedSuper := [0]
  supersrc := []
  allReset := []
  memory := []
  specialNodes := []
  external := []
  regsrc := []
  input := []
  output := []

theorem nameMap_hexGraph :
    hexGraph.nameMap = [(['x', 'd', 'e', 'a', 'd', 'b', 'e', 'e', 'f'], ['_', 'v', '0'])] := by
  decide +kernel

/-- The constant `0xdeadbeef` becomes `0_v0`. -/
theorem not_interns_hexConstant : ¬ hexGraph.Interns := by
  intro interns
  have apart := hexGraph.texts_iff.mp interns.texts 0 (by decide) _ (List.mem_singleton_self _)
  have token : ['0', 'x', 'd', 'e', 'a', 'd', 'b', 'e', 'e', 'f'] ∈ tokens mtRepCutNameChar
      ['y', '=', '0', 'x', 'd', 'e', 'a', 'd', 'b', 'e', 'e', 'f', ';'] := by
    simp +decide [tokens]
  have short : hexGraph.Shortens ['x', 'd', 'e', 'a', 'd', 'b', 'e', 'e', 'f'] :=
    ((hexGraph.mem_nameMap _).mp (nameMap_hexGraph ▸ List.mem_singleton_self _)).1
  exact (apart _ token ⟨'0', rfl, rfl⟩).2 short

end Gsim.ShortNames
