/-
  Gsim/ArrayIndex.lean
  ====================
  **Constant indices of arrays** (`ENode::getIdx`, `splitTree`, `dupTreeWithIdx` and the
  loops of `splitArray.cpp` and `instsGenerator.cpp` that number the entries).

  Entries are numbered in row-major order, so every loop here is a conversion to or from
  the mixed radix of the dimensions.  Positions are `int`s: an array has no more entries
  than an `int` holds.
-/
import Gsim.InferWidth
import Gsim.MixedRadix

namespace Gsim.ArrayIndex

open Gsim.ExpTree Gsim.MixedRadix
open Gsim.InferWidth (Op OPType int INT_MAX)

/-! ## The source -/

def divide (a b : Int) : Option Int := if b = 0 then none else int (Int.tdiv a b)

def modulo (a b : Int) : Option Int :=
  if b = 0 then none else (int (Int.tdiv a b)).map fun _ => Int.tmod a b

/-- The constants of an index; `none` inside for one that is not constant. -/
def constIndex : List (ENode Op) → Option (Option (List Int))
  | [] => some (some [])
  | .null :: _ => none
  | .ref _ _ _ _ :: _ => some none
  | .op o _ _ _ :: rest =>
    if o.opType = .OP_INDEX_INT then do
      let x ← o.values.head?
      let xs ← constIndex rest
      some (xs.map fun xs => x :: xs)
    else some none

/-- The entries below an index into the first `k` dimensions. -/
def numFrom (dimension : List Int) (k : Nat) : Nat → Int → Option Int
  | 0, num => some num
  | i + 1, num =>
    if k ≤ i then do
      let d ← dimension[i]?
      let num ← int (num * d)
      numFrom dimension k i num
    else some num

def baseFrom : List Int → List Int → Int → Option Int
  | d :: dimension, x :: index, base => do
    let shifted ← int (base * d)
    let base ← int (shifted + x)
    baseFrom dimension index base
  | _, [], base => some base
  | [], _ :: _, _ => none

/-- `none` is a failed `Assert` or an overflow. -/
def getIdx (dimension : List Int) (child : List (ENode Op)) : Option (Int × Int) := do
  let index ← constIndex child
  match dimension, index with
  | [], _ => none
  | _, none => some (-1, -1)
  | _, some index =>
    if index.length ≤ dimension.length then do
      let num ← numFrom dimension index.length dimension.length 1
      let base ← baseFrom dimension index 0
      let first ← int (base * num)
      let next ← int (base + 1)
      let stop ← int (next * num)
      let last ← int (stop - 1)
      some (first, last)
    else none

/-- The loop down to dimension `k`: the digit of each dimension goes to its place. -/
def subIndexFrom (dimension : List Int) (k : Nat) : Nat → Int → List Int → Option (List Int)
  | 0, _, index => some index
  | i + 1, rest, index =>
    if k ≤ i then do
      let d ← dimension[i]?
      let digit ← modulo rest d
      let rest ← divide rest d
      subIndexFrom dimension k i rest (index.set (i - k) digit)
    else some index

/-- The same with an unsigned counter, left by a `break` at zero. -/
def subIndexUnsigned (dimension : List Int) (k : Nat) : Nat → Int → List Int → Option (List Int)
  | 0, rest, index =>
    if k ≤ 0 then do
      let d ← dimension[0]?
      let digit ← modulo rest d
      let _ ← divide rest d
      some (index.set (0 - k) digit)
    else some index
  | j + 1, rest, index =>
    if k ≤ j + 1 then do
      let d ← dimension[j + 1]?
      let digit ← modulo rest d
      let rest ← divide rest d
      subIndexUnsigned dimension k j rest (index.set (j + 1 - k) digit)
    else some index

namespace arrayMemberNode

def index (dimension : List Int) (idx : Int) : Option (List Int) :=
  subIndexFrom dimension 0 dimension.length idx dimension

def memberName (name : String) (index : List Int) : String :=
  index.foldl (fun memberName x => memberName ++ "_" ++ toString x) name

end arrayMemberNode

/-- For the reset tree. -/
def splitArrayNode.subIdx (dimension : List Int) (idx : Int) : Option (List Int) :=
  subIndexFrom dimension 0 dimension.length idx (List.replicate dimension.length 0)

/-- `k` is the number of indices of the lvalue. -/
def splitTree.newDim (dimension : List Int) (k : Nat) (i : Int) : Option (List Int) :=
  subIndexUnsigned dimension k (dimension.length - 1) i (List.replicate (dimension.length - k) 0)

def distributeTree.subIdx (dimension : List Int) (k : Nat) (idx : Int) : Option (List Int) :=
  subIndexUnsigned dimension k (dimension.length - 1) idx
    (List.replicate (dimension.length - k) 0)

def idx2StrFrom (dimension : List Int) (dim : Nat) : Nat → Int → String → Option String
  | 0, _, ret => some ret
  | i + 1, idx, ret =>
    if dim ≤ i then do
      let d ← dimension[i]?
      let digit ← modulo idx d
      let idx ← divide idx d
      idx2StrFrom dimension dim i idx ("[" ++ toString digit ++ "]" ++ ret)
    else some ret

def idx2Str (dimension : List Int) (idx : Int) (dim : Nat) : Option String :=
  idx2StrFrom dimension dim dimension.length idx ""

/-- The last dimensions, as many as there are indices. -/
def dupTreeWithIdx.groupIdx (dimension : List Int) (index : List Int) : Option Int :=
  baseFrom (dimension.drop (dimension.length - index.length)) index 0

def idxNode (idx : Int) : ENode Op := .op ⟨.OP_INDEX_INT, [idx], 0, 0⟩ (-1) false []

/-- The children that the walk of `dupTreeWithIdx` goes on to. -/
def followed : OPType → List Bool
  | .OP_WHEN | .OP_MUX => [false, true, true]
  | .OP_RESET => [false, true]
  | _ => []

section DupTree

variable (isArray : Nat → Bool) (index : List Int) (groupIdx : Int)

mutual

/-- Indices are added to each array; a group is replaced by its member and not entered. -/
def withIdx : ENode Op → Option (ENode Op)
  | .null => some .null
  | .ref node width sign child =>
    if isArray node then some (.ref node width sign (child ++ index.map idxNode)) else none
  | .op o width sign child =>
    if o.opType = .OP_GROUP then if groupIdx < 0 then none else child[groupIdx.toNat]?
    else do
      let child ← withIdxAll (followed o.opType) child
      some (.op o width sign child)

def withIdxAll : List Bool → List (ENode Op) → Option (List (ENode Op))
  | true :: more, e :: es => do
    let e ← withIdx e
    let es ← withIdxAll more es
    some (e :: es)
  | false :: more, e :: es => do
    let es ← withIdxAll more es
    some (e :: es)
  | _, es => some es

end

def dupTreeWithIdx (dimension : List Int) (tree : ETree Op) : Option (ETree Op) := do
  let lvalue ← tree.lvalue
  let groupIdx ← dupTreeWithIdx.groupIdx dimension index
  let root ← withIdx isArray index groupIdx tree.root
  some ⟨root, some (lvalue.addChildren (index.map idxNode))⟩

end DupTree

/-- The trees of the entries from `i` on. -/
def splitTreeFrom (isArray : Nat → Bool) (dimension : List Int) (tree : ETree Op) (k : Nat) :
    Nat → Int → Option (List (ETree Op))
  | 0, _ => some []
  | n + 1, i => do
    let newDim ← splitTree.newDim dimension k i
    let newTree ← dupTreeWithIdx isArray newDim dimension tree
    let newTrees ← splitTreeFrom isArray dimension tree k n (i + 1)
    some (newTree :: newTrees)

def splitTree (isArray : Nat → Bool) (dimension : List Int) (tree : ETree Op) :
    Option (List (ETree Op)) := do
  let lvalue ← tree.lvalue
  if dimension.length = lvalue.child.length then some [tree]
  else do
    let (newBeg, newEnd) ← getIdx dimension lvalue.child
    if newBeg < 0 ∨ newBeg = newEnd then some [tree]
    else splitTreeFrom isArray dimension tree lvalue.child.length (newEnd - newBeg + 1).toNat newBeg

/-! ## Arithmetic on positions -/

/-- What an `int` holds of the natural numbers. -/
def Small (n : Nat) : Prop := (n : Int) ≤ INT_MAX

theorem Small.mono {m n : Nat} (h : Small n) (le : m ≤ n) : Small m := by
  unfold Small at h ⊢
  omega

theorem int_natCast {n : Nat} (h : Small n) : int (n : Int) = some (n : Int) := by
  apply if_pos
  exact ⟨by omega, h⟩

theorem divide_natCast {n d : Nat} (h : Small n) (pos : 0 < d) :
    divide n d = some ((n / d : Nat) : Int) := by
  have nonzero : (d : Int) ≠ 0 := by omega
  rw [divide, if_neg nonzero, ← Int.ofNat_tdiv]
  exact int_natCast (h.mono (Nat.div_le_self n d))

theorem modulo_natCast {n d : Nat} (h : Small n) (pos : 0 < d) :
    modulo n d = some ((n % d : Nat) : Int) := by
  have nonzero : (d : Int) ≠ 0 := by omega
  rw [modulo, if_neg nonzero, ← Int.ofNat_tdiv, int_natCast (h.mono (Nat.div_le_self n d)),
    Option.map_some, ← Int.ofNat_tmod]

/-! ## The loops -/

/-- The break stands for the end of the signed loop. -/
theorem subIndexUnsigned_eq (dimension : List Int) (k j : Nat) (rest : Int) (index : List Int) :
    subIndexUnsigned dimension k j rest index = subIndexFrom dimension k (j + 1) rest index := by
  induction j generalizing rest index with
  | zero =>
    rw [subIndexUnsigned, subIndexFrom]
    rfl
  | succ j ih =>
    rw [subIndexUnsigned, subIndexFrom]
    simp only [ih]

theorem take_succ_drop {ds : List Nat} {k i : Nat} (hk : k ≤ i) (hi : i < ds.length) :
    (ds.take (i + 1)).drop k = (ds.take i).drop k ++ [ds[i]] := by
  rw [List.take_succ_eq_append_getElem hi, List.drop_append_of_le_length]
  rw [List.length_take]
  omega

theorem drop_set {l : List Int} {j : Nat} {v : Int} (h : j < l.length) :
    (l.set j v).drop j = v :: l.drop (j + 1) := by
  have inside : j < (l.set j v).length := by rwa [List.length_set]
  rw [List.drop_eq_getElem_cons inside, List.getElem_set_self, List.drop_set_of_lt (Nat.lt_succ_self j)]

theorem subIndexFrom_spec {ds : List Nat} (pos : ∀ d ∈ ds, 0 < d) {k i : Nat} (hk : k ≤ i)
    (hi : i ≤ ds.length) {n : Nat} (hn : Small n) {index : List Int}
    (hlen : index.length + k = ds.length) :
    subIndexFrom (ds.map (↑)) k i n index =
      some ((unflatten ((ds.take i).drop k) n).map (↑) ++ index.drop (i - k)) := by
  induction i generalizing n index with
  | zero =>
    obtain rfl : k = 0 := Nat.le_zero.mp hk
    simp [subIndexFrom, unflatten]
  | succ i ih =>
    rw [subIndexFrom]
    by_cases inside : k ≤ i
    · have hd : 0 < ds[i] := pos _ (List.getElem_mem _)
      have here : (ds.map (↑))[i]? = some ((ds[i] : Nat) : Int) := by
        rw [List.getElem?_map, List.getElem?_eq_getElem (by omega)]
        rfl
      rw [if_pos inside, here]
      simp only [Option.bind_eq_bind, Option.bind_some, modulo_natCast hn hd, divide_natCast hn hd]
      have shorter : (index.set (i - k) ((n % ds[i] : Nat) : Int)).length + k = ds.length := by
        rw [List.length_set, hlen]
      have place : i - k < index.length := by omega
      rw [ih inside (by omega) (hn.mono (Nat.div_le_self _ _)) shorter, take_succ_drop inside hi,
        unflatten_concat, List.map_append, List.append_assoc]
      have next : i + 1 - k = i - k + 1 := by omega
      rw [drop_set place, next]
      rfl
    · obtain rfl : k = i + 1 := by omega
      rw [if_neg inside, Nat.sub_self, List.drop_zero, List.drop_of_length_le]
      · rfl
      · rw [List.length_take]
        omega

/-- The digits of the dimensions from `k` on, by all the loops. -/
theorem subIndex_spec {ds : List Nat} (pos : ∀ d ∈ ds, 0 < d) {k : Nat} (hk : k ≤ ds.length) {n : Nat}
    (hn : Small n) {index : List Int} (hlen : index.length + k = ds.length) :
    subIndexFrom (ds.map (↑)) k ds.length n index =
      some ((unflatten (ds.drop k) n).map (↑)) := by
  have all : index.drop (ds.length - k) = [] := List.drop_of_length_le (by omega)
  rw [subIndexFrom_spec pos hk (le_refl _) hn hlen, List.take_length, all, List.append_nil]

theorem memberIndex_spec {ds : List Nat} (pos : ∀ d ∈ ds, 0 < d) {n : Nat} (hn : Small n) :
    arrayMemberNode.index (ds.map (↑)) n = some ((unflatten ds n).map (↑)) ∧
      splitArrayNode.subIdx (ds.map (↑)) n = some ((unflatten ds n).map (↑)) := by
  unfold arrayMemberNode.index splitArrayNode.subIdx
  rw [List.length_map]
  constructor
  · exact subIndex_spec pos (Nat.zero_le _) hn (by simp)
  · exact subIndex_spec pos (Nat.zero_le _) hn (by simp)

theorem newDim_spec {ds : List Nat} (pos : ∀ d ∈ ds, 0 < d) (array : ds ≠ []) {k : Nat}
    (hk : k ≤ ds.length) {n : Nat} (hn : Small n) :
    splitTree.newDim (ds.map (↑)) k n = some ((unflatten (ds.drop k) n).map (↑)) ∧
      distributeTree.subIdx (ds.map (↑)) k n = some ((unflatten (ds.drop k) n).map (↑)) := by
  have some' : ds.length - 1 + 1 = ds.length :=
    Nat.sub_add_cancel (List.length_pos_iff.mpr array)
  unfold splitTree.newDim distributeTree.subIdx
  rw [subIndexUnsigned_eq, List.length_map, some']
  have filled : (List.replicate (ds.length - k) (0 : Int)).length + k = ds.length := by
    rw [List.length_replicate]
    omega
  have digits := subIndex_spec pos hk hn filled
  exact ⟨digits, digits⟩

def brackets (index : List Int) : String :=
  index.foldr (fun x ret => "[" ++ toString x ++ "]" ++ ret) ""

theorem idx2StrFrom_spec {ds : List Nat} (pos : ∀ d ∈ ds, 0 < d) {k i : Nat} (hk : k ≤ i)
    (hi : i ≤ ds.length) {n : Nat} (hn : Small n) (ret : String) :
    idx2StrFrom (ds.map (↑)) k i n ret =
      some (((unflatten ((ds.take i).drop k) n).map (↑)).foldr
        (fun (x : Int) ret => "[" ++ toString x ++ "]" ++ ret) ret) := by
  induction i generalizing n ret with
  | zero =>
    obtain rfl : k = 0 := Nat.le_zero.mp hk
    simp [idx2StrFrom, unflatten]
  | succ i ih =>
    rw [idx2StrFrom]
    by_cases inside : k ≤ i
    · have hd : 0 < ds[i] := pos _ (List.getElem_mem _)
      have here : (ds.map (↑))[i]? = some ((ds[i] : Nat) : Int) := by
        rw [List.getElem?_map, List.getElem?_eq_getElem (by omega)]
        rfl
      rw [if_pos inside, here]
      simp only [Option.bind_eq_bind, Option.bind_some, modulo_natCast hn hd, divide_natCast hn hd]
      rw [ih inside (by omega) (hn.mono (Nat.div_le_self _ _)), take_succ_drop inside hi,
        unflatten_concat, List.map_append, List.foldr_append]
      rfl
    · obtain rfl : k = i + 1 := by omega
      rw [if_neg inside, List.drop_of_length_le]
      · rfl
      · rw [List.length_take]
        omega

theorem idx2Str_spec {ds : List Nat} (pos : ∀ d ∈ ds, 0 < d) {k : Nat} (hk : k ≤ ds.length) {n : Nat}
    (hn : Small n) :
    idx2Str (ds.map (↑)) n k = some (brackets ((unflatten (ds.drop k) n).map (↑))) := by
  rw [idx2Str, List.length_map, idx2StrFrom_spec pos hk (le_refl _) hn, List.take_length]
  rfl

/-! ## Ranges -/

theorem le_flattenFrom {ds : List Nat} (pos : ∀ d ∈ ds, 0 < d) (acc : Nat) (xs : List Nat) :
    acc ≤ flattenFrom acc ds xs := by
  induction ds generalizing acc xs with
  | nil => exact le_refl acc
  | cons d ds ih =>
    cases xs with
    | nil => exact le_refl acc
    | cons x xs =>
      have grows : acc ≤ acc * d + x :=
        (Nat.le_mul_of_pos_right acc (pos d List.mem_cons_self)).trans (Nat.le_add_right _ x)
      exact grows.trans (ih (fun e he => pos e (List.mem_cons_of_mem _ he)) _ xs)

theorem baseFrom_spec {ds : List Nat} (pos : ∀ d ∈ ds, 0 < d) {xs : List Nat} (acc : Nat)
    (short : xs.length ≤ ds.length) (bound : Small (flattenFrom acc ds xs)) :
    baseFrom (ds.map (↑)) (xs.map (↑)) acc = some ((flattenFrom acc ds xs : Nat) : Int) := by
  induction ds generalizing acc xs with
  | nil =>
    obtain rfl := List.length_eq_zero_iff.mp (Nat.le_zero.mp short)
    rfl
  | cons d ds ih =>
    cases xs with
    | nil => rfl
    | cons x xs =>
      have tail : ∀ e ∈ ds, 0 < e := fun e he => pos e (List.mem_cons_of_mem _ he)
      rw [flattenFrom] at bound ⊢
      have sum : Small (acc * d + x) := bound.mono (le_flattenFrom tail _ xs)
      have product : Small (acc * d) := sum.mono (Nat.le_add_right _ x)
      rw [List.map_cons, List.map_cons, baseFrom, ← Nat.cast_mul, int_natCast product,
        Option.bind_eq_bind, Option.bind_some, ← Nat.cast_add, int_natCast sum]
      exact ih tail _ (Nat.le_of_succ_le_succ short) bound

theorem numFrom_spec {ds : List Nat} (pos : ∀ d ∈ ds, 0 < d) {k i : Nat} (hk : k ≤ i)
    (hi : i ≤ ds.length) (num : Nat) (bound : Small (num * ((ds.take i).drop k).prod)) :
    numFrom (ds.map (↑)) k i num = some ((num * ((ds.take i).drop k).prod : Nat) : Int) := by
  induction i generalizing num with
  | zero => simp [numFrom]
  | succ i ih =>
    rw [numFrom]
    by_cases inside : k ≤ i
    · have here : (ds.map (↑))[i]? = some ((ds[i] : Nat) : Int) := by
        rw [List.getElem?_map, List.getElem?_eq_getElem (by omega)]
        rfl
      have below : 0 < ((ds.take i).drop k).prod := by
        apply List.prod_pos
        intro d hd
        exact pos d (List.mem_of_mem_take (List.mem_of_mem_drop hd))
      have total : num * ((ds.take (i + 1)).drop k).prod =
          num * ds[i] * ((ds.take i).drop k).prod := by
        rw [take_succ_drop inside hi, List.prod_append, List.prod_singleton]
        ring
      rw [total] at bound ⊢
      have product : Small (num * ds[i]) := bound.mono (Nat.le_mul_of_pos_right _ below)
      rw [if_pos inside, here, Option.bind_eq_bind, Option.bind_some, ← Nat.cast_mul,
        int_natCast product, Option.bind_some]
      exact ih inside (by omega) _ bound
    · obtain rfl : k = i + 1 := by omega
      have none : (ds.take (i + 1)).drop (i + 1) = [] := by
        apply List.drop_of_length_le
        rw [List.length_take]
        omega
      rw [if_neg inside, none, List.prod_nil, Nat.mul_one]

theorem getIdx_of {dimension index : List Int} {child : List (ENode Op)}
    {num base first next stop last : Int} (const : constIndex child = some (some index))
    (array : dimension ≠ []) (short : index.length ≤ dimension.length)
    (hnum : numFrom dimension index.length dimension.length 1 = some num)
    (hbase : baseFrom dimension index 0 = some base) (hfirst : int (base * num) = some first)
    (hnext : int (base + 1) = some next) (hstop : int (next * num) = some stop)
    (hlast : int (stop - 1) = some last) : getIdx dimension child = some (first, last) := by
  rw [getIdx, const]
  cases dimension with
  | nil => exact absurd rfl array
  | cons d dimension =>
    simp only [Option.bind_eq_bind, Option.bind_some, if_pos short, hnum, hbase, hfirst, hnext,
      hstop, hlast]

/-- The entries that an index into the first dimensions `ds` stands for. -/
theorem getIdx_spec {ds es : List Nat} (pos : ∀ d ∈ ds ++ es, 0 < d) (array : ds ++ es ≠ [])
    (fits : Small (ds ++ es).prod) {xs : List Nat} (digits : Digits ds xs) {child : List (ENode Op)}
    (const : constIndex child = some (some (xs.map (↑)))) :
    getIdx ((ds ++ es).map (↑)) child =
      some (((flatten ds xs * es.prod : Nat) : Int), (((flatten ds xs + 1) * es.prod : Nat) : Int) - 1) := by
  have above : ∀ d ∈ ds, 0 < d := fun d hd => pos d (List.mem_append_left _ hd)
  have below : 0 < es.prod := List.prod_pos fun e he => pos e (List.mem_append_right _ he)
  have length := digits.length_eq
  have stop : (flatten ds xs + 1) * es.prod ≤ (ds ++ es).prod := by
    rw [List.prod_append]
    exact Nat.mul_le_mul_right _ (flatten_lt digits)
  have stopSmall := fits.mono stop
  have nextSmall : Small (flatten ds xs + 1) := stopSmall.mono (Nat.le_mul_of_pos_right _ below)
  have first : flatten ds xs * es.prod ≤ (flatten ds xs + 1) * es.prod :=
    Nat.mul_le_mul_right _ (Nat.le_succ _)
  have numSmall : Small es.prod := stopSmall.mono (Nat.le_mul_of_pos_left _ (Nat.succ_pos _))
  have rest : ((ds ++ es).take (ds ++ es).length).drop xs.length = es := by
    rw [List.take_length, length, List.drop_left]
  have some' : xs.length ≤ (ds ++ es).length := by
    rw [length, List.length_append]
    omega
  have num : numFrom ((ds ++ es).map (↑)) xs.length (ds ++ es).length 1 = some ((es.prod : Nat) : Int) := by
    have run := numFrom_spec pos some' (le_refl _) 1 (by rwa [rest, Nat.one_mul])
    rwa [rest, Nat.one_mul] at run
  have base : baseFrom ((ds ++ es).map (↑)) (xs.map (↑)) 0 = some ((flatten ds xs : Nat) : Int) := by
    have same : flattenFrom 0 (ds ++ es) xs = flatten ds xs := flattenFrom_append length
    have run := baseFrom_spec pos 0 some' (by rw [same]; exact nextSmall.mono (Nat.le_succ _))
    rwa [same] at run
  have last : int ((((flatten ds xs + 1) * es.prod : Nat) : Int) - 1) =
      some ((((flatten ds xs + 1) * es.prod : Nat) : Int) - 1) := by
    apply if_pos
    have small : (((flatten ds xs + 1) * es.prod : Nat) : Int) ≤ INT_MAX := stopSmall
    constructor
    · omega
    · omega
  have first' : int ((flatten ds xs : Int) * (es.prod : Int)) =
      some ((flatten ds xs * es.prod : Nat) : Int) := by
    rw [← Nat.cast_mul]
    exact int_natCast (stopSmall.mono first)
  have next : int ((flatten ds xs : Int) + 1) = some ((flatten ds xs + 1 : Nat) : Int) :=
    int_natCast nextSmall
  have stop' : int (((flatten ds xs + 1 : Nat) : Int) * (es.prod : Int)) =
      some (((flatten ds xs + 1) * es.prod : Nat) : Int) := by
    rw [← Nat.cast_mul]
    exact int_natCast stopSmall
  apply getIdx_of const _ _ _ base first' next stop' last
  · intro empty
    exact array (List.map_eq_nil_iff.mp empty)
  · rw [List.length_map, List.length_map]
    exact some'
  · rw [List.length_map, List.length_map]
    exact num

theorem groupIdx_spec {ds es : List Nat} (pos : ∀ d ∈ ds ++ es, 0 < d)
    (fits : Small (ds ++ es).prod) {ys : List Nat} (digits : Digits es ys) :
    dupTreeWithIdx.groupIdx ((ds ++ es).map (↑)) (ys.map (↑)) = some ((flatten es ys : Nat) : Int) := by
  have below : ∀ e ∈ es, 0 < e := fun e he => pos e (List.mem_append_right _ he)
  have above : 0 < ds.prod := List.prod_pos fun d hd => pos d (List.mem_append_left _ hd)
  have small : Small (flatten es ys) := by
    rw [List.prod_append] at fits
    exact fits.mono ((flatten_lt digits).le.trans (Nat.le_mul_of_pos_left _ above))
  have last : ((ds ++ es).map ((↑) : Nat → Int)).drop
      (((ds ++ es).map ((↑) : Nat → Int)).length - (ys.map ((↑) : Nat → Int)).length) =
      es.map (↑) := by
    rw [List.length_map, List.length_map, digits.length_eq, List.length_append, Nat.add_sub_cancel,
      ← List.map_drop, List.drop_left]
  rw [dupTreeWithIdx.groupIdx, last]
  exact baseFrom_spec below 0 (le_of_eq digits.length_eq) small

/-! ## Row-major order -/

/-- A constant index into the first dimensions. -/
def InRange (dimension index : List Int) : Prop :=
  index.length ≤ dimension.length ∧
    List.Forall₂ (fun x d => 0 ≤ x ∧ x < d) index (dimension.take index.length)

theorem inRange_natCast {ds xs : List Nat} :
    InRange (ds.map (↑)) (xs.map (↑)) ↔ xs.length ≤ ds.length ∧ Digits (ds.take xs.length) xs := by
  rw [InRange, List.length_map, List.length_map, ← List.map_take, List.forall₂_map_left_iff,
    List.forall₂_map_right_iff]
  simp

theorem InRange.exists_nat {dimension index : List Int} (h : InRange dimension index) :
    ∃ xs : List Nat, index = xs.map (↑) := by
  have nonneg : ∀ x ∈ index, 0 ≤ x := by
    obtain ⟨-, h⟩ := h
    generalize dimension.take index.length = ds at h
    induction h with
    | nil => nofun
    | cons head tail ih => exact List.forall_mem_cons.mpr ⟨head.1, ih⟩
  lift index to List Nat using nonneg
  exact ⟨index, rfl⟩

theorem constIndex_idxNode (index : List Int) :
    constIndex (index.map idxNode) = some (some index) := by
  induction index with
  | nil => rfl
  | cons x index ih =>
    rw [List.map_cons, idxNode, constIndex, if_pos rfl, ih]
    rfl

theorem constIndex_append {child : List (ENode Op)} {index : List Int}
    (const : constIndex child = some (some index)) (sub : List Int) :
    constIndex (child ++ sub.map idxNode) = some (some (index ++ sub)) := by
  induction child generalizing index with
  | nil =>
    cases const
    exact constIndex_idxNode sub
  | cons e child ih =>
    cases e with
    | null => cases const
    | ref node width sign more => cases const
    | op o width sign more =>
      rw [constIndex] at const
      split at const
      · rename_i constant
        simp only [Option.bind_eq_bind, Option.bind_eq_some_iff, Option.some.injEq,
          Option.map_eq_some_iff] at const
        obtain ⟨x, hx, xs, hxs, ys, rfl, rfl⟩ := const
        rw [List.cons_append, constIndex, if_pos constant, hx, ih hxs]
        rfl
      · cases const

section Dimensions

variable {ds : List Nat} (pos : ∀ d ∈ ds, 0 < d) (array : ds ≠ []) (fits : Small ds.prod)
include pos array fits

/-- `getIdx` of an index of any length. -/
theorem getIdx_natCast {xs : List Nat} (range : InRange (ds.map (↑)) (xs.map (↑)))
    {child : List (ENode Op)} (const : constIndex child = some (some (xs.map (↑)))) :
    getIdx (ds.map (↑)) child =
      some (((flatten (ds.take xs.length) xs * (ds.drop xs.length).prod : Nat) : Int),
        (((flatten (ds.take xs.length) xs + 1) * (ds.drop xs.length).prod : Nat) : Int) - 1) := by
  obtain ⟨-, digits⟩ := inRange_natCast.mp range
  have parts := List.take_append_drop xs.length ds
  have run : getIdx ((ds.take xs.length ++ ds.drop xs.length).map (↑)) child = _ :=
    getIdx_spec (by rwa [parts]) (by rwa [parts]) (by rwa [parts]) digits const
  rwa [parts] at run

/-- A whole index stands for one entry. -/
theorem getIdx_whole {xs : List Nat} (digits : Digits ds xs) {child : List (ENode Op)}
    (const : constIndex child = some (some (xs.map (↑)))) :
    getIdx (ds.map (↑)) child = some (((flatten ds xs : Nat) : Int), ((flatten ds xs : Nat) : Int)) := by
  have length := digits.length_eq
  have whole : ds.take xs.length = ds := by rw [length, List.take_length]
  have none : ds.drop xs.length = [] := by rw [length, List.drop_length]
  have range : InRange (ds.map (↑)) (xs.map (↑)) :=
    inRange_natCast.mpr ⟨le_of_eq length, by rwa [whole]⟩
  rw [getIdx_natCast pos array fits range const, whole, none, List.prod_nil, Nat.mul_one, Nat.mul_one]
  congr 2
  push_cast
  ring

/-- `getIdx` returns the range of the positions that extend the index. -/
theorem getIdx_range {index : List Int} (range : InRange (ds.map (↑)) index) {child : List (ENode Op)}
    (const : constIndex child = some (some index)) :
    ∃ first last, getIdx (ds.map (↑)) child = some (first, last) ∧
      ∀ p : Int, first ≤ p ∧ p ≤ last ↔ 0 ≤ p ∧ p < (ds.map ((↑) : Nat → Int)).prod ∧
        ∃ full, arrayMemberNode.index (ds.map (↑)) p = some full ∧ index <+: full := by
  obtain ⟨xs, rfl⟩ := range.exists_nat
  obtain ⟨short, digits⟩ := inRange_natCast.mp range
  refine ⟨_, _, getIdx_natCast pos array fits range const, fun p => ?_⟩
  have parts := List.take_append_drop xs.length ds
  have above : ∀ d ∈ ds.take xs.length, 0 < d := fun d hd => pos d (List.mem_of_mem_take hd)
  have below : ∀ d ∈ ds.drop xs.length, 0 < d := fun d hd => pos d (List.mem_of_mem_drop hd)
  have total : ((ds.map ((↑) : Nat → Int)).prod) = ((ds.prod : Nat) : Int) :=
    (Nat.cast_list_prod ds).symm
  have stop : (flatten (ds.take xs.length) xs + 1) * (ds.drop xs.length).prod ≤ ds.prod := by
    conv_rhs => rw [← parts, List.prod_append]
    exact Nat.mul_le_mul_right _ (flatten_lt digits)
  have extend : ∀ n : Nat, n < ds.prod →
      ((∃ full, arrayMemberNode.index (ds.map (↑)) n = some full ∧ xs.map (↑) <+: full) ↔
        flatten (ds.take xs.length) xs * (ds.drop xs.length).prod ≤ n ∧
          n < (flatten (ds.take xs.length) xs + 1) * (ds.drop xs.length).prod) := by
    intro n hn
    have begins := prefix_unflatten_iff digits below (by rwa [parts]) above
    rw [parts] at begins
    rw [← begins, (memberIndex_spec pos (fits.mono hn.le)).1]
    constructor
    · rintro ⟨full, same, begins⟩
      obtain rfl := Option.some_inj.mp same
      exact (List.prefix_map_iff_of_injective Nat.cast_injective).mp begins
    · intro begins
      exact ⟨_, rfl, begins.map _⟩
  rw [total]
  constructor
  · rintro ⟨first, last⟩
    lift p to Nat using le_trans (Int.natCast_nonneg _) first
    have bound : p < ds.prod := by omega
    refine ⟨Int.natCast_nonneg p, by exact_mod_cast bound, (extend p bound).mpr ⟨?_, ?_⟩⟩
    · exact_mod_cast first
    · omega
  · rintro ⟨nonneg, bound, full⟩
    lift p to Nat using nonneg
    obtain ⟨first, last⟩ := (extend p (by exact_mod_cast bound)).mp full
    constructor
    · exact_mod_cast first
    · omega

/-- All numberings of an entry agree. -/
theorem position_digits {p : Int} (nonneg : 0 ≤ p) (bound : p < (ds.map ((↑) : Nat → Int)).prod) :
    ∃ full, full.length = ds.length ∧ InRange (ds.map (↑)) full ∧
      arrayMemberNode.index (ds.map (↑)) p = some full ∧
      splitArrayNode.subIdx (ds.map (↑)) p = some full ∧
      (∀ k ≤ ds.length, splitTree.newDim (ds.map (↑)) k p = some (full.drop k) ∧
        distributeTree.subIdx (ds.map (↑)) k p = some (full.drop k) ∧
        idx2Str (ds.map (↑)) p k = some (brackets (full.drop k))) ∧
      ∀ child, constIndex child = some (some full) → getIdx (ds.map (↑)) child = some (p, p) := by
  have total : ((ds.map ((↑) : Nat → Int)).prod) = ((ds.prod : Nat) : Int) :=
    (Nat.cast_list_prod ds).symm
  lift p to Nat using nonneg
  rw [total] at bound
  have below : p < ds.prod := by exact_mod_cast bound
  have small : Small p := fits.mono below.le
  have digits := unflatten_digits pos p
  obtain ⟨member, reset⟩ := memberIndex_spec pos small
  have suffix : ∀ k ≤ ds.length, (unflatten ds p).drop k = unflatten (ds.drop k) p := by
    intro k hk
    conv_lhs => rw [← List.take_append_drop k ds, unflatten_append]
    rw [List.drop_left']
    rw [unflatten_length, List.length_take, min_eq_left hk]
  refine ⟨(unflatten ds p).map (↑), by simp, ?_, member, reset, fun k hk => ?_, fun child const => ?_⟩
  · apply inRange_natCast.mpr
    rw [unflatten_length, List.take_length]
    exact ⟨le_refl _, digits⟩
  · obtain ⟨split, distribute⟩ := newDim_spec pos array hk small
    rw [← List.map_drop, suffix k hk]
    exact ⟨split, distribute, idx2Str_spec pos hk small⟩
  · rw [getIdx_whole pos array fits digits const, flatten_unflatten pos below]

/-- Unflattening undoes flattening. -/
theorem digits_position {full : List Int} (range : InRange (ds.map (↑)) full)
    (whole : full.length = ds.length) :
    ∃ p : Int, 0 ≤ p ∧ p < (ds.map ((↑) : Nat → Int)).prod ∧
      (∀ child, constIndex child = some (some full) → getIdx (ds.map (↑)) child = some (p, p)) ∧
      arrayMemberNode.index (ds.map (↑)) p = some full := by
  obtain ⟨xs, rfl⟩ := range.exists_nat
  obtain ⟨-, digits⟩ := inRange_natCast.mp range
  rw [List.length_map] at whole
  rw [whole, List.take_length] at digits
  have total : ((ds.map ((↑) : Nat → Int)).prod) = ((ds.prod : Nat) : Int) :=
    (Nat.cast_list_prod ds).symm
  have below := flatten_lt digits
  refine ⟨(flatten ds xs : Nat), Int.natCast_nonneg _, ?_, ?_, ?_⟩
  · rw [total]
    exact_mod_cast below
  · intro child const
    exact getIdx_whole pos array fits digits const
  · rw [(memberIndex_spec pos (fits.mono below.le)).1, unflatten_flatten digits]

/-- The group index of a sub-index is its place among the entries of the sub-array. -/
theorem groupIdx_position {index sub : List Int} (range : InRange (ds.map (↑)) (index ++ sub))
    (whole : (index ++ sub).length = ds.length) {child childSub : List (ENode Op)}
    (const : constIndex child = some (some index))
    (constSub : constIndex childSub = some (some (index ++ sub))) :
    ∃ first last groupIdx, getIdx (ds.map (↑)) child = some (first, last) ∧
      dupTreeWithIdx.groupIdx (ds.map (↑)) sub = some groupIdx ∧ 0 ≤ groupIdx ∧
      groupIdx < ((ds.map ((↑) : Nat → Int)).drop index.length).prod ∧
      getIdx (ds.map (↑)) childSub = some (first + groupIdx, first + groupIdx) ∧
      idx2Str (ds.map (↑)) groupIdx index.length = some (brackets sub) := by
  obtain ⟨zs, hzs⟩ := range.exists_nat
  obtain ⟨xs, ys, rfl, rfl, rfl⟩ := List.append_eq_map_iff.mp hzs
  rw [← List.map_append] at range constSub
  obtain ⟨-, digits⟩ := inRange_natCast.mp range
  have length : xs.length + ys.length = ds.length := by simpa using whole
  have shortX : xs.length ≤ ds.length := by omega
  have parts := List.take_append_drop xs.length ds
  have lengthX : xs.length = (ds.take xs.length).length := by
    rw [List.length_take, min_eq_left shortX]
  rw [List.length_append, length, List.take_length] at digits
  have digitsX : Digits (ds.take xs.length) xs := by
    have front := List.forall₂_take xs.length digits
    rwa [List.take_left] at front
  have digitsY : Digits (ds.drop xs.length) ys := by
    have back := List.forall₂_drop xs.length digits
    rwa [List.drop_left] at back
  have rangeX : InRange (ds.map (↑)) (xs.map (↑)) := inRange_natCast.mpr ⟨shortX, digitsX⟩
  have group : dupTreeWithIdx.groupIdx (ds.map (↑)) (ys.map (↑)) =
      some ((flatten (ds.drop xs.length) ys : Nat) : Int) := by
    have run : dupTreeWithIdx.groupIdx ((ds.take xs.length ++ ds.drop xs.length).map (↑))
        (ys.map (↑)) = _ := groupIdx_spec (by rwa [parts]) (by rwa [parts]) digitsY
    rwa [parts] at run
  have below := flatten_lt digitsY
  have subSmall : Small (flatten (ds.drop xs.length) ys) := by
    apply fits.mono
    have above : 0 < (ds.take xs.length).prod :=
      List.prod_pos fun d hd => pos d (List.mem_of_mem_take hd)
    conv_rhs => rw [← parts, List.prod_append]
    exact below.le.trans (Nat.le_mul_of_pos_left _ above)
  have sum : flatten ds (xs ++ ys) =
      flatten (ds.take xs.length) xs * (ds.drop xs.length).prod + flatten (ds.drop xs.length) ys := by
    conv_lhs => rw [← parts]
    exact flatten_append digitsX.length_eq digitsY.length_eq
  refine ⟨_, _, _, getIdx_natCast pos array fits rangeX const, group, Int.natCast_nonneg _, ?_, ?_, ?_⟩
  · rw [List.length_map, ← List.map_drop, ← Nat.cast_list_prod]
    exact_mod_cast below
  · rw [getIdx_whole pos array fits digits constSub, sum]
    push_cast
    rfl
  · rw [List.length_map, idx2Str_spec pos shortX subSmall, unflatten_flatten digitsY]

end Dimensions

/-- All loops that number the entries of an array agree, as long as an `int` numbers them. -/
theorem indices_agree (dimension : List Int) (array : dimension ≠ [])
    (positive : ∀ d ∈ dimension, 0 < d) (fits : dimension.prod ≤ INT_MAX) :
    (∀ child index, constIndex child = some (some index) → InRange dimension index →
      ∃ first last, getIdx dimension child = some (first, last) ∧
        ∀ p, first ≤ p ∧ p ≤ last ↔ 0 ≤ p ∧ p < dimension.prod ∧
          ∃ full, arrayMemberNode.index dimension p = some full ∧ index <+: full) ∧
    (∀ p, 0 ≤ p → p < dimension.prod →
      ∃ full, full.length = dimension.length ∧ InRange dimension full ∧
        arrayMemberNode.index dimension p = some full ∧
        splitArrayNode.subIdx dimension p = some full ∧
        (∀ k ≤ dimension.length, splitTree.newDim dimension k p = some (full.drop k) ∧
          distributeTree.subIdx dimension k p = some (full.drop k) ∧
          idx2Str dimension p k = some (brackets (full.drop k))) ∧
        ∀ child, constIndex child = some (some full) → getIdx dimension child = some (p, p)) ∧
    (∀ full, InRange dimension full → full.length = dimension.length →
      ∃ p, 0 ≤ p ∧ p < dimension.prod ∧
        (∀ child, constIndex child = some (some full) → getIdx dimension child = some (p, p)) ∧
        arrayMemberNode.index dimension p = some full) ∧
    (∀ index sub child childSub, InRange dimension (index ++ sub) →
      (index ++ sub).length = dimension.length → constIndex child = some (some index) →
      constIndex childSub = some (some (index ++ sub)) →
      ∃ first last groupIdx, getIdx dimension child = some (first, last) ∧
        dupTreeWithIdx.groupIdx dimension sub = some groupIdx ∧ 0 ≤ groupIdx ∧
        groupIdx < (dimension.drop index.length).prod ∧
        getIdx dimension childSub = some (first + groupIdx, first + groupIdx) ∧
        idx2Str dimension groupIdx index.length = some (brackets sub)) := by
  lift dimension to List Nat using fun d hd => (positive d hd).le
  have pos : ∀ d ∈ dimension, 0 < d := by
    intro d hd
    exact_mod_cast positive d (List.mem_map_of_mem hd)
  have array : dimension ≠ [] := fun empty => array (by rw [empty]; rfl)
  have small : Small dimension.prod := by
    rw [Small, Nat.cast_list_prod]
    exact fits
  refine ⟨fun child index const range => ?_, fun p nonneg bound => ?_, fun full range whole => ?_,
    fun index sub child childSub range whole const constSub => ?_⟩
  · exact getIdx_range pos array small range const
  · rw [List.length_map]
    exact position_digits pos array small nonneg bound
  · rw [List.length_map] at whole
    exact digits_position pos array small range whole
  · rw [List.length_map] at whole
    exact groupIdx_position pos array small range whole const constSub

theorem indices_agree_two_three :
    ∃ full, arrayMemberNode.index [2, 3] 4 = some full ∧
      splitTree.newDim [2, 3] 1 4 = some (full.drop 1) := by
  obtain ⟨-, positions, -⟩ := indices_agree [2, 3] (by decide) (by decide) (by decide)
  obtain ⟨full, -, -, member, -, loops, -⟩ := positions 4 (by decide) (by decide)
  exact ⟨full, member, (loops 1 (by decide)).1⟩

/-- Beyond an `int` the number of entries overflows. -/
theorem indices_overflow :
    (∀ d ∈ [65536, 65536], (0 : Int) < d) ∧ InRange [65536, 65536] [] ∧
      constIndex [] = some (some []) ∧ ¬ ∃ range, getIdx [65536, 65536] [] = some range := by
  refine ⟨by decide, ⟨Nat.zero_le _, .nil⟩, rfl, ?_⟩
  have run : getIdx [65536, 65536] [] = none := by decide
  rw [run]
  nofun

/-! ## One tree for each entry -/

theorem constIndex_length {child : List (ENode Op)} {index : List Int}
    (const : constIndex child = some (some index)) : child.length = index.length := by
  induction child generalizing index with
  | nil =>
    cases const
    rfl
  | cons e child ih =>
    cases e with
    | null => cases const
    | ref node width sign more => cases const
    | op o width sign more =>
      rw [constIndex] at const
      split at const
      · simp only [Option.bind_eq_bind, Option.bind_eq_some_iff, Option.some.injEq,
          Option.map_eq_some_iff] at const
        obtain ⟨x, -, xs, hxs, ys, rfl, rfl⟩ := const
        rw [List.length_cons, List.length_cons, ih hxs]
      · cases const

theorem splitTreeFrom_spec {isArray : Nat → Bool} {dimension : List Int} {tree : ETree Op} {k n : Nat}
    {i : Int} {trees : List (ETree Op)}
    (h : splitTreeFrom isArray dimension tree k n i = some trees) :
    trees.length = n ∧ ∀ (j : Nat) (newTree : ETree Op), trees[j]? = some newTree →
      ∃ newDim, splitTree.newDim dimension k (i + j) = some newDim ∧
        dupTreeWithIdx isArray newDim dimension tree = some newTree := by
  induction n generalizing i trees with
  | zero =>
    cases h
    exact ⟨rfl, nofun⟩
  | succ n ih =>
    simp only [splitTreeFrom, Option.bind_eq_bind, Option.bind_eq_some_iff, Option.some.injEq] at h
    obtain ⟨newDim, hdim, newTree, htree, rest, hrest, rfl⟩ := h
    obtain ⟨length, each⟩ := ih hrest
    refine ⟨by rw [List.length_cons, length], fun j other hj => ?_⟩
    cases j with
    | zero =>
      obtain rfl : newTree = other := by simpa using hj
      exact ⟨newDim, by simpa using hdim, htree⟩
    | succ j =>
      obtain ⟨later, hlater, hdup⟩ := each j other (by simpa using hj)
      refine ⟨later, ?_, hdup⟩
      rw [← hlater]
      congr 1
      push_cast
      ring

/-- The trees of a partial index assign its entries, each one once and in their order. -/
theorem splitTree_entries {isArray : Nat → Bool} {dimension : List Int} (array : dimension ≠ [])
    (positive : ∀ d ∈ dimension, 0 < d) (fits : dimension.prod ≤ INT_MAX) {tree : ETree Op}
    {node : Nat} {width : Int} {sign : Bool} {child : List (ENode Op)} {index : List Int}
    (hlvalue : tree.lvalue = some (.ref node width sign child))
    (const : constIndex child = some (some index)) (range : InRange dimension index)
    (partial' : index.length < dimension.length) {trees : List (ETree Op)}
    (h : splitTree isArray dimension tree = some trees) :
    ∃ first last, getIdx dimension child = some (first, last) ∧
      (first = last ∧ trees = [tree] ∨
        trees.length = (last - first + 1).toNat ∧
          ∀ (j : Nat) (newTree : ETree Op), trees[j]? = some newTree →
            ∃ child', newTree.lvalue = some (.ref node width sign child') ∧
              getIdx dimension child' = some (first + j, first + j)) := by
  lift dimension to List Nat using fun d hd => (positive d hd).le
  have pos : ∀ d ∈ dimension, 0 < d := by
    intro d hd
    exact_mod_cast positive d (List.mem_map_of_mem hd)
  have array : dimension ≠ [] := fun empty => array (by rw [empty]; rfl)
  have small : Small dimension.prod := by
    rw [Small, Nat.cast_list_prod]
    exact fits
  obtain ⟨first, last, run, positions⟩ := getIdx_range pos array small range const
  have nonneg : 0 ≤ first := by
    obtain ⟨xs, rfl⟩ := range.exists_nat
    rw [getIdx_natCast pos array small range const] at run
    cases run
    exact Int.natCast_nonneg _
  have length : child.length = index.length := constIndex_length const
  rw [List.length_map] at partial'
  have fewer : ¬ (dimension.map ((↑) : Nat → Int)).length = child.length := by
    rw [List.length_map]
    omega
  refine ⟨first, last, run, ?_⟩
  rw [splitTree, hlvalue, Option.bind_eq_bind, Option.bind_some] at h
  simp only [ENode.child, if_neg fewer, run, Option.bind_eq_bind, Option.bind_some] at h
  split at h
  · rename_i one
    obtain rfl : [tree] = trees := Option.some_inj.mp h
    exact .inl ⟨one.resolve_left (not_lt.mpr nonneg), rfl⟩
  · obtain ⟨count, each⟩ := splitTreeFrom_spec h
    refine .inr ⟨count, fun j newTree hj => ?_⟩
    obtain ⟨newDim, hdim, hdup⟩ := each j newTree hj
    have inside : j < trees.length := (List.getElem?_eq_some_iff.mp hj).1
    have within : first ≤ first + j ∧ first + j ≤ last := by omega
    obtain ⟨here, below, full, member, extends'⟩ := (positions (first + j)).mp within
    obtain ⟨full', -, -, member', -, loops, flat⟩ := position_digits pos array small here below
    obtain rfl : full' = full := Option.some_inj.mp (member'.symm.trans member)
    have split := (loops child.length (by rw [length]; exact partial'.le)).1
    obtain rfl : full'.drop child.length = newDim := Option.some_inj.mp (split.symm.trans hdim)
    simp only [dupTreeWithIdx, hlvalue, Option.bind_eq_bind, Option.bind_some,
      Option.bind_eq_some_iff, Option.some.injEq] at hdup
    obtain ⟨groupIdx, -, root, -, rfl⟩ := hdup
    refine ⟨_, rfl, flat _ ?_⟩
    have whole : index ++ full'.drop child.length = full' := by
      rw [length]
      exact List.prefix_iff_eq_append.mp extends'
    have joined := constIndex_append const (full'.drop child.length)
    rwa [whole] at joined

end Gsim.ArrayIndex
