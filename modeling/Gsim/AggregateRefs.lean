import Gsim.AggregateScope
/-
  Gsim/AggregateRefs.lean
  =======================
  **References into what the declarations have entered** (`visitReference`, `visitExpr`, `visitNode`).

  The declarations of a design give their names types, and a node has the type of its
  expression.  What a reference finds are the leaves of the part that its fields and indices
  select, whichever declaration entered them.
-/

namespace Gsim.AggregateRefs

open Gsim.ConstantRecords (NodeType)
open Gsim.AggregateType
open Gsim.AggregateScope

/-! ## The part of a type that a reference selects -/

inductive Has : PFields → Bool → String → PType → Prop where
  | head {flip : Bool} {name : String} {type : PType} {rest : PFields} :
    Has (.cons (.mk flip name type) rest) flip name type
  | tail {field : PField} {rest : PFields} {flip : Bool} {name : String} {type : PType}
    (there : Has rest flip name type) : Has (.cons field rest) flip name type

/-- The steps lead from a type to a part of it, over the fields `path` and the vectors `dims`. -/
inductive Selects {E : Type} :
    PType → List (RefChild E) → List String → List (IndexNode E) → List Int → PType → Prop where
  | here {type : PType} : Selects type [] [] [] [] type
  | dot {fields : PFields} {flip : Bool} {name : String} {type part : PType} {steps : List (RefChild E)}
    {path : List String} {idx : List (IndexNode E)} {dims : List Int} (has : Has fields flip name type)
    (rest : Selects type steps path idx dims part) :
    Selects (.P_AG_FIELDS fields) (.P_REF_DOT name :: steps) (name :: path) idx dims part
  | index {type part : PType} {extra : Int} {child : RefChild E} {i : IndexNode E}
    {steps : List (RefChild E)} {path : List String} {idx : List (IndexNode E)} {dims : List Int}
    (isIndex : child.index = some i) (rest : Selects type steps path idx dims part) :
    Selects (.P_AG_ARRAY type extra) (child :: steps) path (i :: idx) (extra :: dims) part

/-- Where the part lies: its leaves are leaves of the type from `off` on, and its entries entries. -/
structure Located (type part : PType) (path : List String) (dims : List Int) (off : Nat) : Prop where
  leaf : ∀ i l, (leaves part)[i]? = some l →
    ∃ l', (leaves type)[off + i]? = some l' ∧ l'.path = path ++ l.path ∧ l'.dims = dims ++ l.dims
  entries : ∀ sep linked top base,
    entries sep linked part (pathName sep top path) (base + off) ⊆ entries sep linked type top base
  whole : path = [] → off = 0 ∧ part.isAggregate = type.isAggregate ∧
    ∀ base, members base (leaves type) = members base (leaves part)

section Select

variable {E : Type} {type part : PType} {steps : List (RefChild E)} {path : List String}
  {idx : List (IndexNode E)} {dims : List Int}

theorem Has.located {fields : PFields} {flip : Bool} {name : String} (has : Has fields flip name type) :
    ∃ off, (∀ i l, (leaves type)[i]? = some l → (fieldLeaves fields)[off + i]? = some (l.below flip name)) ∧
      ∀ sep linked top base, entries sep linked type (top ++ sep ++ name) (base + off) ⊆
        fieldEntries sep linked fields top base := by
  induction has with
  | @head flip name type rest =>
    refine ⟨0, ?_, ?_⟩
    · intro i l hl
      have inside : i < ((leaves type).map (Leaf.below flip name)).length := by
        rw [List.length_map]
        exact (List.getElem?_eq_some_iff.mp hl).1
      rw [fieldLeaves, Nat.zero_add, List.getElem?_append_left inside, List.getElem?_map, hl]
      rfl
    · intro sep linked top base
      rw [fieldEntries]
      exact List.subset_append_left _ _
  | @tail field rest flip name type there ih =>
    obtain ⟨flip', name', type'⟩ := field
    obtain ⟨off, leaf, entries⟩ := ih
    refine ⟨(leaves type').length + off, ?_, ?_⟩
    · intro i l hl
      have bound : ((leaves type').map (Leaf.below flip' name')).length ≤ (leaves type').length + (off + i) := by
        rw [List.length_map]
        exact Nat.le_add_right _ _
      rw [fieldLeaves, Nat.add_assoc, List.getElem?_append_right bound, List.length_map,
        Nat.add_sub_cancel_left]
      exact leaf i l hl
    · intro sep linked top base
      rw [fieldEntries, ← Nat.add_assoc]
      exact List.Subset.trans (entries sep linked top _) (List.subset_append_right _ _)

theorem Has.bundle {fields : PFields} {flip : Bool} {name : String} (has : Has fields flip name type) :
    ∀ b ∈ bundles type, ∃ b' ∈ fieldBundles fields, b'.path = name :: b.path := by
  induction has with
  | head =>
    intro b hb
    rw [fieldBundles]
    exact ⟨_, List.mem_append_left _ (List.mem_map_of_mem hb), rfl⟩
  | @tail field rest flip name type there ih =>
    intro b hb
    obtain ⟨b', hb', path⟩ := ih b hb
    obtain ⟨flip', name', type'⟩ := field
    rw [fieldBundles]
    exact ⟨_, List.mem_append_right _ (List.mem_map_of_mem hb'), path⟩

theorem Selects.located (selects : Selects type steps path idx dims part) :
    ∃ off, Located type part path dims off := by
  induction selects with
  | here =>
    exact ⟨0, fun i l hl => ⟨l, (congrArg _ (Nat.zero_add i)).trans hl, rfl, rfl⟩,
      fun _ _ _ _ => List.Subset.refl _, fun _ => ⟨rfl, rfl, fun _ => rfl⟩⟩
  | @dot fields flip name type part steps path idx dims has rest ih =>
    obtain ⟨off, leaf, entries, -⟩ := ih
    obtain ⟨off', leaf', entries'⟩ := has.located
    refine ⟨off' + off, ?_, ?_, fun none => by cases none⟩
    · intro i l hl
      obtain ⟨l', hl', hpath, hdims⟩ := leaf i l hl
      refine ⟨l'.below flip name, ?_, ?_, hdims⟩
      · rw [Nat.add_assoc]
        exact leaf' _ _ hl'
      · show name :: l'.path = _
        rw [hpath, List.cons_append]
    · intro sep linked top base
      rw [AggregateType.entries, ← Nat.add_assoc]
      exact List.Subset.trans (entries sep linked (top ++ sep ++ name) _)
        (List.Subset.trans (entries' sep linked top base) (List.subset_append_left _ _))
  | @index type part extra child i steps path idx dims isIndex rest ih =>
    obtain ⟨off, leaf, entries, whole⟩ := ih
    refine ⟨off, ?_, entries, ?_⟩
    · intro i l hl
      obtain ⟨l', hl', hpath, hdims⟩ := leaf i l hl
      refine ⟨l'.within extra, ?_, hpath, ?_⟩
      · rw [leaves, List.getElem?_map, hl']
        rfl
      · show extra :: l'.dims = _
        rw [hdims, List.cons_append]
    · intro none
      obtain ⟨zero, agg, same⟩ := whole none
      refine ⟨zero, agg, ?_⟩
      intro base
      rw [leaves, members_within, same]

/-- The entry of the part is one of those that were made of the type. -/
theorem Located.entry {off : Nat} (h : Located type part path dims off) {inner : Inner} {sep : String}
    (top : String) (base : Nat) (agg : part.isAggregate = true) (seen : inner = .absent → path = []) :
    inner.outermost sep part (pathName sep top path) (base + off) ∈ inner.entries sep type top base := by
  cases inner with
  | linked => exact h.entries sep true top base (Inner.outermost_mem .linked _ _ agg)
  | entered => exact h.entries sep false top base (Inner.outermost_mem .entered _ _ agg)
  | absent =>
    obtain rfl := seen rfl
    obtain ⟨rfl, same, lists⟩ := h.whole rfl
    rw [Inner.entries, if_pos (same.symm.trans agg), Inner.outermost, Inner.outermost, lists]
    exact List.mem_singleton_self _

/-- There is one index for each vector on the way. -/
theorem Selects.length (selects : Selects type steps path idx dims part) : idx.length = dims.length := by
  induction selects with
  | here => rfl
  | dot has rest ih => exact ih
  | index isIndex rest ih => exact congrArg Nat.succ ih

theorem Selects.indices (selects : Selects type steps path idx dims part) :
    steps.filterMap RefChild.index = idx := by
  induction selects with
  | here => rfl
  | dot has rest ih => exact ih
  | index isIndex rest ih => rw [List.filterMap_cons_some isIndex, ih]

/-- As long as no bundle on the way is named as an instance, the name of the path comes out. -/
theorem Selects.refName {cfg : Config} {moduleInstances : String → Bool} {root : String}
    (selects : Selects type steps path idx dims part)
    (apart : ∀ b ∈ bundles type, moduleInstances (pathName cfg.sep_aggr root b.path) = false) :
    steps.foldl (RefChild.extendName cfg moduleInstances) root = pathName cfg.sep_aggr root path := by
  induction selects generalizing root with
  | here => rfl
  | @dot fields flip name type part steps path idx dims has rest ih =>
    have outer : moduleInstances root = false := by
      apply apart ⟨[], 0, [], 0, fieldLeaves fields⟩
      rw [bundles]
      exact List.mem_append_right _ (List.mem_singleton_self _)
    rw [List.foldl_cons, RefChild.extendName, outer]
    apply ih
    intro b hb
    obtain ⟨b', hb', hpath⟩ := has.bundle b hb
    have inner := apart b' (by rw [bundles]; exact List.mem_append_left _ hb')
    rw [hpath] at inner
    exact inner
  | @index type part extra child i steps path idx dims isIndex rest ih =>
    have same : RefChild.extendName cfg moduleInstances root child = root := by
      cases child with
      | P_REF_DOT name => cases isIndex
      | P_REF_IDX_INT name => rfl
      | P_REF_IDX_EXPR expr => rfl
    rw [List.foldl_cons, same]
    apply ih
    intro b hb
    apply apart (b.within extra)
    rw [bundles]
    exact List.mem_map_of_mem hb

theorem leaves_ground : ∀ (type : PType), type.isAggregate = false →
    ∃ l, leaves type = [l] ∧ l.path = [] ∧ l.flips = 0
  | .P_Clock, _ => ⟨_, rfl, rfl, rfl⟩
  | .P_INT_TYPE _ _, _ => ⟨_, rfl, rfl, rfl⟩
  | .P_RESET, _ => ⟨_, rfl, rfl, rfl⟩
  | .P_ASYRESET, _ => ⟨_, rfl, rfl, rfl⟩
  | .P_AG_ARRAY type extra, agg => by
    obtain ⟨l, hl, hpath, hflips⟩ := leaves_ground type agg
    refine ⟨l.within extra, ?_, hpath, hflips⟩
    rw [leaves, hl]
    rfl

end Select

/-! ## What a reference stands for -/

section Denote

variable {E : Type} {cfg : Config} {scope : Scope}

/-- A reference as its declaration, the fields, the vectors and the indices that it passes. -/
structure Side (E : Type) where
  root : String
  path : List String
  dims : List Int
  idx : List (IndexNode E)

/-- The node of a leaf below the reference: it has the dimensions that the indices are for, and then
    those of the leaf. -/
def Side.IsLeaf (sep : String) (heap : Heap) (side : Side E) (l : Leaf) (ptr : Nat) (node : Node) : Prop :=
  heap[ptr]? = some node ∧ node.name = pathName sep side.root (side.path ++ l.path) ∧
    node.dimension = side.dims ++ l.dims ∧ side.idx.length = side.dims.length

/-- The fields in front lead through instances to the declaration; the others are the steps. -/
def Reaches (cfg : Config) (scope : Scope) (top : Option String) (expr : PRef E) (root : String)
    (steps : List (RefChild E)) : Prop :=
  ∃ lead, expr.child = lead ++ steps ∧ (∀ child ∈ lead, child.index = none) ∧
    lead.foldl (RefChild.extendName cfg scope.moduleInstances)
      (prefixName cfg.sep_module top expr.name) = root

/-- The reference selects the part of what was entered.  The bundles inside of a node that copies a
    memory's port are not entered, and a reference to one of them is none. -/
structure RefersTo (cfg : Config) (scope : Scope) (top : Option String) (expr : PRef E)
    (x : Entered) (side : Side E) (part : PType) : Prop where
  root : side.root = x.root
  seen : part.isAggregate = true → x.inner = .absent → side.path = []
  selected : ∃ steps, Reaches cfg scope top expr x.root steps ∧
    Selects x.type steps side.path side.idx side.dims part

/-- No bundle of it is named as an instance or a memory. -/
def Apart (cfg : Config) (scope : Scope) (x : Entered) : Prop :=
  ∀ b ∈ bundles x.type, scope.moduleInstances (pathName cfg.sep_aggr x.root b.path) = false

variable {top : Option String} {expr : PRef E} {x : Entered} {part : PType} {side : Side E}

/-- A name alone refers to the whole of what was declared. -/
theorem RefersTo.name {name : String} (root : prefixName cfg.sep_module top name = x.root) :
    RefersTo cfg scope top (⟨name, []⟩ : PRef E) x ⟨x.root, [], [], []⟩ x.type :=
  ⟨rfl, fun _ _ => rfl, [], ⟨[], rfl, fun _ h => absurd h List.not_mem_nil, root⟩, .here⟩

theorem reference_name {steps : List (RefChild E)} (reaches : Reaches cfg scope top expr x.root steps)
    (selects : Selects x.type steps side.path side.idx side.dims part) (apart : Apart cfg scope x) :
    expr.child.foldl (RefChild.extendName cfg scope.moduleInstances)
        (prefixName cfg.sep_module top expr.name) = pathName cfg.sep_aggr x.root side.path ∧
      expr.child.filterMap RefChild.index = side.idx := by
  obtain ⟨lead, hchild, fields, hroot⟩ := reaches
  rw [hchild, List.foldl_append, hroot, List.filterMap_append, selects.indices]
  refine ⟨selects.refName apart, ?_⟩
  rw [List.filterMap_eq_nil_iff.mpr fields, List.nil_append]

theorem pathName_append (sep root : String) (path path' : List String) :
    pathName sep root (path ++ path') = pathName sep (pathName sep root path) path' :=
  List.foldl_append

/-- A reference to an aggregate finds its bundle, whose leaves are those of the part. -/
theorem reference_aggregate (refers : RefersTo cfg scope top expr x side part)
    (registered : Registered cfg x scope) (apart : Apart cfg scope x) (agg : part.isAggregate = true) :
    ∃ base, visitReference cfg scope top expr = some (.aggr
        (x.inner.outermost cfg.sep_aggr part (pathName cfg.sep_aggr side.root side.path) base)
        ((members base (leaves part)).map fun entry => (.ref entry.1 side.idx, entry.2))) ∧
      ∀ i l, (leaves part)[i]? = some l → ∃ node, side.IsLeaf cfg.sep_aggr scope.heap l (base + i) node := by
  obtain ⟨root, seen, steps, reaches, selects⟩ := refers
  obtain ⟨hname, hindex⟩ := reference_name reaches selects apart
  obtain ⟨base, lies, -, aggrs⟩ := registered.found
  obtain ⟨off, located⟩ := selects.located
  have here := aggrs _ (located.entry x.root base agg (seen agg))
  refine ⟨base + off, ?_, ?_⟩
  · simp only [visitReference, hname, hindex]
    rw [show scope.allAggr (pathName cfg.sep_aggr x.root side.path) = _ from here, root]
    rfl
  · intro i l hl
    obtain ⟨l', hl', hpath, hdims⟩ := located.leaf i l hl
    obtain ⟨node, there, name, dims⟩ := lies _ l' hl'
    rw [← Nat.add_assoc] at there
    refine ⟨node, there, ?_, dims.trans hdims, selects.length⟩
    rw [name, hpath, root]

/-- Of a type without bundles it is one node. -/
theorem reference_ground (refers : RefersTo cfg scope top expr x side part)
    (registered : Registered cfg x scope) (apart : Apart cfg scope x) (agg : part.isAggregate = false) :
    ∃ l ptr node, leaves part = [l] ∧ l.path = [] ∧ l.flipped = false ∧
      visitReference cfg scope top expr = some (.normal (.ref ptr side.idx)) ∧
      side.IsLeaf cfg.sep_aggr scope.heap l ptr node := by
  obtain ⟨root, -, steps, reaches, selects⟩ := refers
  obtain ⟨hname, hindex⟩ := reference_name reaches selects apart
  obtain ⟨base, lies, signals, -⟩ := registered.found
  obtain ⟨off, located⟩ := selects.located
  obtain ⟨l, one, path, flips⟩ := leaves_ground part agg
  obtain ⟨l', hl', hpath, hdims⟩ := located.leaf 0 l (by rw [one]; rfl)
  obtain ⟨node, there, name, dims⟩ := lies _ l' hl'
  obtain ⟨signal, noAggr⟩ := signals _ l' hl'
  rw [hpath, path, List.append_nil] at signal noAggr
  refine ⟨l, base + (off + 0), node, one, path, ?_, ?_, there, ?_, dims.trans hdims, selects.length⟩
  · rw [Leaf.flipped, flips]
    rfl
  · simp only [visitReference, hname, hindex, noAggr, signal]
    rfl
  · rw [name, hpath, root]

end Denote

/-! ## Expressions and nodes -/

/-- Neither a bundle nor a vector. -/
def isGround : PType → Bool
  | .P_AG_FIELDS _ => false
  | .P_AG_ARRAY _ _ => false
  | _ => true

theorem leaves_isGround : ∀ {type : PType}, isGround type = true →
    type.isAggregate = false ∧ ∃ l, leaves type = [l] ∧ l.path = [] ∧ l.dims = []
  | .P_Clock, _ => ⟨rfl, _, rfl, rfl, rfl⟩
  | .P_INT_TYPE _ _, _ => ⟨rfl, _, rfl, rfl, rfl⟩
  | .P_RESET, _ => ⟨rfl, _, rfl, rfl, rfl⟩
  | .P_ASYRESET, _ => ⟨rfl, _, rfl, rfl, rfl⟩

section Nodes

variable {E : Type} {cfg : Config} {scope : Scope} {top : Option String}

/-- The type of an expression, and how much of it can be found through the bundle that the
    expression stands for. -/
inductive Types (cfg : Config) (signals : List Entered) (scope : Scope) (top : Option String) :
    PExpr E → PType → Inner → Prop where
  | ref {x : Entered} {expr : PRef E} {side : Side E} {part : PType} (mem : x ∈ signals)
    (refers : RefersTo cfg scope top expr x side part) : Types cfg signals scope top (.P_REF expr) part x.inner
  | mux {cond left right : PExpr E} {type : PType} {inner : Inner}
    (types : Types cfg signals scope top left type inner) :
    Types cfg signals scope top (.P_EXPR_MUX cond left right) type inner
  | other {e : E} {type : PType} (ground : isGround type = true) :
    Types cfg signals scope top (.other e) type .linked

/-- A tree of the type: of an aggregate one for each leaf, and the bundle that names them. -/
def Yields (sep : String) (heap : Heap) (type : PType) (inner : Inner) : ASTExpTree E → Prop
  | .normal expRoot => type.isAggregate = false ∧
    ∃ l, leaves type = [l] ∧ l.path = [] ∧ expRoot.getDim heap = some l.dims
  | .aggr anyParent aggrForest => type.isAggregate = true ∧
    (∃ base, anyParent = inner.outermost sep type anyParent.name base ∧ ∀ i l, (leaves type)[i]? = some l →
      ∃ node, heap[base + i]? = some node ∧ node.name = pathName sep anyParent.name l.path) ∧
    List.Forall₂ (fun l tree => tree.1.getDim heap = some l.dims) (leaves type) aggrForest

theorem Side.IsLeaf.getDim {sep : String} {heap : Heap} {side : Side E} {l : Leaf} {ptr : Nat} {node : Node}
    (h : side.IsLeaf sep heap l ptr node) : (ENode.ref ptr side.idx).getDim heap = some l.dims := by
  obtain ⟨here, -, dims, length⟩ := h
  rw [ENode.getDim, here, Option.map_some, dims, length, List.drop_left]

theorem members_forall₂ {R : Leaf → Nat × Bool → Prop} : ∀ (base : Nat) (ls : List Leaf),
    (∀ i l, ls[i]? = some l → R l (base + i, l.flipped)) → List.Forall₂ R ls (members base ls)
  | _, [], _ => .nil
  | base, l :: ls, each => by
    refine .cons (each 0 l rfl) (members_forall₂ (base + 1) ls ?_)
    intro i l' hl
    have here := each (i + 1) l' hl
    rwa [← Nat.add_assoc, Nat.add_right_comm] at here

theorem muxMembers_dims {heap : Heap} {cond : ENode E} {ls : List Leaf} {lefts rights trees : List (ENode E × Bool)}
    (dims : List.Forall₂ (fun l tree => tree.1.getDim heap = some l.dims) ls lefts)
    (run : muxMembers cond lefts rights = some trees) :
    List.Forall₂ (fun l tree => tree.1.getDim heap = some l.dims) ls trees := by
  induction dims generalizing rights trees with
  | nil =>
    obtain rfl := Option.some.inj run
    exact .nil
  | cons head tail ih =>
    cases rights with
    | nil => cases run
    | cons right rights =>
      obtain ⟨rest, more, run⟩ := Option.bind_eq_some_iff.mp run
      obtain rfl := Option.some.inj run
      exact .cons head (ih more)

theorem visitExpr_yields {signals : List Entered} (registered : ∀ x ∈ signals, Registered cfg x scope)
    (apart : ∀ x ∈ signals, Apart cfg scope x) {expr : PExpr E} {type : PType} {inner : Inner}
    (types : Types cfg signals scope top expr type inner) {exp : ASTExpTree E}
    (run : visitExpr cfg scope top expr = some exp) : Yields cfg.sep_aggr scope.heap type inner exp := by
  induction types generalizing exp with
  | @ref x expr side part mem refers =>
    rw [visitExpr] at run
    cases agg : part.isAggregate with
    | true =>
      obtain ⟨base, found, each⟩ := reference_aggregate refers (registered x mem) (apart x mem) agg
      obtain rfl := Option.some.inj (found.symm.trans run)
      refine ⟨agg, ⟨base, rfl, ?_⟩, ?_⟩
      · intro i l hl
        obtain ⟨node, here, name, -⟩ := each i l hl
        exact ⟨node, here, name.trans (pathName_append _ _ _ _)⟩
      · rw [List.forall₂_map_right_iff]
        apply members_forall₂
        intro i l hl
        obtain ⟨node, isLeaf⟩ := each i l hl
        exact isLeaf.getDim
    | false =>
      obtain ⟨l, ptr, node, one, path, -, found, isLeaf⟩ :=
        reference_ground refers (registered x mem) (apart x mem) agg
      obtain rfl := Option.some.inj (found.symm.trans run)
      exact ⟨agg, l, one, path, isLeaf.getDim⟩
  | @mux cond left right type inner types ih =>
    obtain ⟨c, -, run⟩ := Option.bind_eq_some_iff.mp run
    obtain ⟨l, hl, run⟩ := Option.bind_eq_some_iff.mp run
    obtain ⟨r, -, run⟩ := Option.bind_eq_some_iff.mp run
    have yields := ih hl
    cases c with
    | aggr parent forest => cases run
    | normal cond =>
      cases l with
      | normal left =>
        cases r with
        | aggr parent forest => cases run
        | normal right =>
          obtain rfl := Option.some.inj run
          exact yields
      | aggr parent forest =>
        obtain ⟨trees, made, rfl⟩ := Option.map_eq_some_iff.mp run
        obtain ⟨agg, names, dims⟩ := yields
        exact ⟨agg, names, muxMembers_dims dims made⟩
  | @other e type ground =>
    obtain rfl := Option.some.inj run
    obtain ⟨agg, l, one, path, dims⟩ := leaves_isGround ground
    refine ⟨agg, l, one, path, ?_⟩
    rw [dims]
    rfl

theorem getDim_mono {heap heap' : Heap} (h : heap <+: heap') : ∀ (tree : ENode E) {dims : List Int},
    tree.getDim heap = some dims → tree.getDim heap' = some dims
  | .ref ptr child, dims, here => by
    obtain ⟨node, found, rfl⟩ := Option.map_eq_some_iff.mp here
    obtain ⟨tail, rfl⟩ := h
    obtain ⟨bound, -⟩ := List.getElem?_eq_some_iff.mp found
    rw [ENode.getDim, List.getElem?_append_left bound, found]
    rfl
  | .OP_MUX _ left _, _, here => getDim_mono h left here
  | .expr _, _, here => here

/-- The nodes that were made last take the dimensions of their leaves; the trees are over the nodes
    before them. -/
theorem setDims_spec {old : Heap} : ∀ {ls : List Leaf} {before nodes heap : Heap} {trees : List (ENode E × Bool)},
    old <+: before → nodes.length = ls.length →
    List.Forall₂ (fun l tree => tree.1.getDim old = some l.dims) ls trees →
    setDims (members before.length ls) trees (before ++ nodes) = some heap →
    ∃ nodes', heap = before ++ nodes' ∧ ∀ (i : Nat) (l : Leaf) (node : Node), ls[i]? = some l →
      nodes[i]? = some node → nodes'[i]? = some { node with dimension := l.dims }
  | [], before, nodes, heap, _, _, length, .nil, run => by
    obtain rfl := Option.some.inj run
    exact ⟨nodes, rfl, fun _ _ _ h => by cases h⟩
  | l :: ls, before, [], heap, _, _, length, _, _ => by cases length
  | l :: ls, before, node :: nodes, heap, tree :: trees, stays, length, .cons head tail, run => by
    obtain ⟨dims, hdims, run⟩ := Option.bind_eq_some_iff.mp run
    obtain rfl := Option.some.inj
      ((getDim_mono (stays.trans (List.prefix_append _ _)) _ head).symm.trans hdims)
    have change : (before ++ node :: nodes).modify before.length (fun node => { node with dimension := l.dims }) =
        (before ++ [{ node with dimension := l.dims }]) ++ nodes := by
      rw [List.modify_eq_take_drop, List.take_left, List.drop_left, List.append_assoc]
      rfl
    rw [change] at run
    have next : before.length + 1 = (before ++ [{ node with dimension := l.dims }]).length := by
      rw [List.length_append, List.length_singleton]
    rw [next] at run
    obtain ⟨nodes', eq, each⟩ := setDims_spec (stays.trans (List.prefix_append _ _)) (Nat.succ.inj length)
      tail run
    refine ⟨{ node with dimension := l.dims } :: nodes', ?_, ?_⟩
    · rw [eq, List.append_assoc, List.singleton_append]
    · intro i l' node' hl hnode
      cases i with
      | zero =>
        obtain rfl := Option.some.inj hl
        obtain rfl := Option.some.inj hnode
        rfl
      | succ i => exact each i l' node' hl hnode

/-- The members of the new bundle are the copies, with the flags of the old one. -/
theorem zipWith_members : ∀ (base base' : Nat) (ls : List Leaf),
    List.zipWith (fun node (entry : Nat × Bool) => (node, entry.2)) (List.range' base' ls.length)
      (members base ls) = members base' ls
  | _, _, [] => rfl
  | base, base', l :: ls => by
    rw [List.length_cons, List.range'_succ, members, members, List.zipWith_cons_cons, zipWith_members]

/-- What `allocNodeFromAggr` makes of the bundle of a type. -/
structure Allocated (sep root : String) (type : PType) (inner : Inner) (a : Scope) (r : AggrParentNode × Scope) :
    Prop extends Enters a r.2 where
  parent : r.1 = inner.copied.outermost sep type root a.heap.length
  nodes : ∃ nodes : List Node, r.2.heap = a.heap ++ nodes ∧ nodes.length = (leaves type).length ∧
    ∀ (i : Nat) (l : Leaf), (leaves type)[i]? = some l →
      ∃ node, nodes[i]? = some node ∧ node.name = pathName sep root l.path
  named : ∀ i l, (leaves type)[i]? = some l → Named (pathName sep root l.path) (a.heap.length + i) r.2
  parents : ∀ entry ∈ inner.copied.parents sep type root a.heap.length, r.2.allAggr entry.name = some entry

theorem allocNodeFromAggr_spec {sep old root : String} {type : PType} {inner : Inner} {base : Nat} {a : Scope}
    {r : AggrParentNode × Scope}
    (names : ∀ i l, (leaves type)[i]? = some l →
      ∃ node, a.heap[base + i]? = some node ∧ node.name = pathName sep old l.path)
    (run : allocNodeFromAggr root (inner.outermost sep type old base) a = some r) :
    Allocated sep root type inner a r := by
  obtain ⟨⟨copies, mid⟩, members, run⟩ := Option.bind_eq_some_iff.mp run
  obtain ⟨⟨aggrs, last⟩, parents, run⟩ := Option.bind_eq_some_iff.mp run
  obtain rfl := Option.some.inj run
  have renames : Renames (replacePrefix old root) old root := replacePrefix_renames old root
  rw [show (inner.outermost sep type old base).member.map Prod.fst = _ from members_ptrs base _] at members
  have enters := copyMembers_enters _ members
  obtain ⟨rfl, nodes, heap, count, each⟩ := copyMembers_spec renames (fun _ _ => rfl) (leaves type)
    names members
  obtain ⟨enters', heap', entered⟩ := copyParents_enters _ parents
  have copied : Copied sep old root base a.heap.length (leaves type) mid := by
    intro i l hl
    obtain ⟨node, here, name⟩ := names i l hl
    exact ⟨⟨node, enters.getElem here, name⟩, (each i l hl).1.1⟩
  have aggrs_eq : aggrs = inner.copied.parents sep type root a.heap.length := by
    cases inner with
    | linked => exact copyInner_spec type renames copied parents
    | entered => exact (Prod.mk.inj (Option.some.inj parents)).1.symm
    | absent => exact (Prod.mk.inj (Option.some.inj parents)).1.symm
  refine ⟨enters.trans enters', ?_, ⟨nodes, heap'.trans heap, count, ?_⟩, ?_, ?_⟩
  · rw [aggrs_eq]
    exact congrArg (fun member => AggrParentNode.mk root member _)
      (zipWith_members base a.heap.length (leaves type))
  · intro i l hl
    obtain ⟨node, here, -⟩ := names i l hl
    exact ⟨_, (each i l hl).2 node here, rfl⟩
  · exact fun i l hl => (each i l hl).1.extends' enters'.toExtends
  · rw [← aggrs_eq]
    exact entered

theorem mem_copied {inner : Inner} {sep root : String} {type : PType} {base : Nat} {entry : AggrParentNode}
    (agg : type.isAggregate = true) (mem : entry ∈ inner.copied.entries sep type root base) :
    entry ∈ inner.copied.parents sep type root base ∨ entry = inner.copied.outermost sep type root base := by
  cases inner with
  | linked =>
    rw [Inner.copied, Inner.entries, entries_eq sep true type root base agg] at mem
    rcases List.mem_append.mp mem with mem | mem
    · exact .inl mem
    · exact .inr (List.mem_singleton.mp mem)
  | entered =>
    rw [show Inner.entered.copied = .absent from rfl, Inner.entries, if_pos agg] at mem
    exact .inr (List.mem_singleton.mp mem)
  | absent =>
    rw [show Inner.absent.copied = .absent from rfl, Inner.entries, if_pos agg] at mem
    exact .inr (List.mem_singleton.mp mem)

theorem visitNode_instances {a b : Scope} {name : String} {expr : PExpr E}
    (run : visitNode cfg top name expr a = some b) : b.moduleInstances = a.moduleInstances := by
  obtain ⟨exp, -, run⟩ := Option.bind_eq_some_iff.mp run
  cases exp with
  | normal expRoot =>
    obtain ⟨dims, -, run⟩ := Option.bind_eq_some_iff.mp run
    exact (enter_spec run).1.instances
  | aggr anyParent aggrForest =>
    obtain ⟨⟨aggrNode, mid⟩, alloc, run⟩ := Option.bind_eq_some_iff.mp run
    obtain ⟨-, -, run⟩ := Option.bind_eq_some_iff.mp run
    obtain ⟨heap, -, run⟩ := Option.bind_eq_some_iff.mp run
    obtain ⟨⟨copies, first⟩, members, alloc⟩ := Option.bind_eq_some_iff.mp alloc
    obtain ⟨⟨aggrs, last⟩, parents, alloc⟩ := Option.bind_eq_some_iff.mp alloc
    obtain ⟨-, rfl⟩ := Prod.mk.inj (Option.some.inj alloc)
    have copied := (copyMembers_enters _ members).trans (copyParents_enters _ parents).1
    exact (addParent_spec run).1.instances.trans copied.instances

/-- A node is entered with the type of its expression. -/
theorem visitNode_spec {a b : Scope} {name : String} {expr : PExpr E} {type : PType} {inner : Inner}
    (yields : ∀ exp, visitExpr cfg a top expr = some exp → Yields cfg.sep_aggr a.heap type inner exp)
    (run : visitNode cfg top name expr a = some b) :
    Enters a b ∧ Registered cfg ⟨prefixName cfg.sep_module top name, type, inner.copied⟩ b := by
  obtain ⟨exp, hexp, run⟩ := Option.bind_eq_some_iff.mp run
  have tree := yields exp hexp
  cases exp with
  | normal expRoot =>
    obtain ⟨agg, l, one, path, hdims⟩ := tree
    obtain ⟨dims, found, run⟩ := Option.bind_eq_some_iff.mp run
    obtain rfl := Option.some.inj (hdims.symm.trans found)
    obtain ⟨enters, heap, named⟩ := enter_spec run
    have last : b.heap[a.heap.length]? = some ⟨.NODE_OTHERS, prefixName cfg.sep_module top name, -1, false,
        false, .UNCERTAIN, l.dims⟩ := by
      rw [heap]
      exact List.getElem?_concat_length
    exact ⟨enters, .ground agg one path last rfl rfl named⟩
  | aggr anyParent aggrForest =>
    obtain ⟨agg, ⟨base, parent, names⟩, dims⟩ := tree
    generalize anyParent.name = old at parent names
    obtain rfl := parent
    obtain ⟨⟨aggrNode, mid⟩, alloc, run⟩ := Option.bind_eq_some_iff.mp run
    obtain ⟨-, -, run⟩ := Option.bind_eq_some_iff.mp run
    obtain ⟨heap, sets, run⟩ := Option.bind_eq_some_iff.mp run
    obtain ⟨enters, rfl, ⟨nodes, hheap, count, each⟩, named, parents⟩ := allocNodeFromAggr_spec names alloc
    rw [show mid.heap = _ from hheap] at sets
    obtain ⟨nodes', rfl, set⟩ := setDims_spec (List.prefix_refl _) count dims sets
    obtain ⟨enters', same, here⟩ := addParent_spec run
    have kept : Enters a { mid with heap := a.heap ++ nodes' } :=
      ⟨⟨List.prefix_append _ _, enters.signals, enters.aggrs, enters.apart⟩, enters.instances, enters.memory⟩
    refine ⟨kept.trans enters', a.heap.length, ?_, ?_, ?_⟩
    · intro i l hl
      obtain ⟨node, there, name⟩ := each i l hl
      refine ⟨{ node with dimension := l.dims }, ?_, name, rfl⟩
      rw [same, List.getElem?_append_right (Nat.le_add_right _ _), Nat.add_sub_cancel_left]
      exact set i l node hl there
    · exact fun i l hl => Named.extends' (a := { mid with heap := a.heap ++ nodes' }) (named i l hl)
        enters'.toExtends
    · intro entry mem
      rcases mem_copied agg mem with mem | rfl
      · exact enters'.aggrs _ _ (parents entry mem)
      · exact here

end Nodes

/-! ## The declarations of a design -/

/-- The types of what has been declared. -/
structure Env where
  signals : List Entered
  memory : String → Option PType

def Env.enter (env : Env) (x : Entered) : Env := { env with signals := x :: env.signals }

section Design

variable {E : Type} {cfg : Config}

/-- What a declaration adds to the types. -/
inductive Declares (cfg : Config) (env : Env) (scope : Scope) : Decl E → Env → Prop where
  | port {type : NodeType} {top : Option String} {name : String} {ptype : PType} :
    Declares cfg env scope (.port type top name ptype)
      (env.enter ⟨prefixName cfg.sep_module top name, ptype, .linked⟩)
  | wire {top : Option String} {name : String} {ptype : PType} :
    Declares cfg env scope (.wire top name ptype)
      (env.enter ⟨prefixName cfg.sep_module top name, ptype, .linked⟩)
  | reg {top : Option String} {name : String} {ptype : PType} {clock : PExpr E}
    {reset : Option (PExpr E × PExpr E)} :
    Declares cfg env scope (.reg top name ptype clock reset)
      (env.enter ⟨prefixName cfg.sep_module top name, ptype, .linked⟩)
  | mem {top : Option String} {name : String} {ptype : PType} {extra : Int} :
    Declares cfg env scope (.mem top name (.P_AG_ARRAY ptype extra))
      { env with memory := Function.update env.memory (prefixName cfg.sep_module top name) (some ptype) }
  | memPort {type : MemPort} {top : Option String} {name extra : String} {addr clock : PExpr E} {ptype : PType}
    (memory : env.memory (prefixName cfg.sep_module top extra) = some ptype) :
    Declares cfg env scope (.memPort type top name extra addr clock)
      (env.enter ⟨prefixName cfg.sep_module top name, ptype, .entered⟩)
  | node {top : Option String} {name : String} {expr : PExpr E} {type : PType} {inner : Inner}
    (types : Types cfg env.signals scope top expr type inner) :
    Declares cfg env scope (.node top name expr)
      (env.enter ⟨prefixName cfg.sep_module top name, type, inner.copied⟩)
  | single {type : NodeType} {top : Option String} {name : String} {width : Int} {isClock : Bool} :
    Declares cfg env scope (.single type top name width isClock)
      (env.enter ⟨prefixName cfg.sep_module top name,
        if isClock then .P_Clock else .P_INT_TYPE width false, .linked⟩)
  | inst {top : Option String} {name : String} : Declares cfg env scope (.inst top name) env

/-- The front end has accepted the declarations one after another, and they have types. -/
inductive Elaborated (cfg : Config) (start : Scope) : List (Decl E) → Scope → Env → Prop where
  | nil : Elaborated cfg start [] start ⟨[], fun _ => none⟩
  | snoc {decls : List (Decl E)} {d : Decl E} {scope scope' : Scope} {env env' : Env}
    (before : Elaborated cfg start decls scope env) (run : visitDecl cfg scope d = some scope')
    (declares : Declares cfg env scope d env') : Elaborated cfg start (decls ++ [d]) scope' env'

/-- All that has been declared is found under its names. -/
structure Env.Good (cfg : Config) (env : Env) (scope : Scope) : Prop where
  signals : ∀ x ∈ env.signals, Registered cfg x scope
  memory : ∀ s type, env.memory s = some type → MemRegistered cfg s type scope

/-- No bundle is named as an instance or a memory. -/
def Env.Apart (cfg : Config) (env : Env) (scope : Scope) : Prop :=
  ∀ x ∈ env.signals, AggregateRefs.Apart cfg scope x

theorem Env.Good.enter {env : Env} {x : Entered} {a b : Scope} (good : env.Good cfg a)
    (spec : Enters a b ∧ Registered cfg x b) : (env.enter x).Good cfg b := by
  obtain ⟨enters, registered⟩ := spec
  refine ⟨?_, ?_⟩
  · intro y mem
    rcases List.mem_cons.mp mem with rfl | mem
    · exact registered
    · exact (good.signals y mem).extends' enters.toExtends
  · exact fun s type memory =>
      (good.memory s type memory).extends' enters.toExtends (congrFun enters.memory s)

theorem Env.Good.store {env : Env} {root : String} {type : PType} {a b : Scope} (good : env.Good cfg a)
    (stores : Stores cfg root type a b) :
    Env.Good cfg { env with memory := Function.update env.memory root (some type) } b := by
  refine ⟨fun x mem => (good.signals x mem).extends' stores.toExtends, ?_⟩
  intro s type' memory
  by_cases eq : s = root
  · subst eq
    have same : some type = some type' := (Function.update_self s (some type) env.memory).symm.trans memory
    obtain rfl := Option.some.inj same
    exact stores.registered
  · exact (good.memory s type' ((Function.update_of_ne eq _ _).symm.trans memory)).extends'
      stores.toExtends (stores.others s eq)

variable {env env' : Env} {a b : Scope} {d : Decl E}

theorem visitSingle_spec {type : NodeType} {root : String} {width : Int} {isClock : Bool}
    (run : a.enter ⟨type, root, width, false, isClock, .UNCERTAIN, []⟩ = some b) :
    Enters a b ∧ Registered cfg ⟨root, if isClock then .P_Clock else .P_INT_TYPE width false, .linked⟩ b := by
  obtain ⟨enters, heap, named⟩ := enter_spec run
  have last : b.heap[a.heap.length]? = some ⟨type, root, width, false, isClock, .UNCERTAIN, []⟩ := by
    rw [heap]
    exact List.getElem?_concat_length
  refine ⟨enters, ?_⟩
  cases isClock with
  | true => exact .ground rfl rfl rfl last rfl rfl named
  | false => exact .ground rfl rfl rfl last rfl rfl named

theorem Declares.good (declares : Declares cfg env a d env') (run : visitDecl cfg a d = some b)
    (good : env.Good cfg a) (apart : env.Apart cfg a) : env'.Good cfg b := by
  cases declares with
  | port => exact good.enter (visitPort_spec run)
  | wire => exact good.enter (visitWireDef_spec run)
  | reg => exact good.enter (visitRegDef_spec run)
  | mem => exact good.store (visitChirrtlMemory_spec run)
  | memPort memory => exact good.enter (visitChirrtlMemPort_spec (good.memory _ _ memory) run)
  | node types =>
    exact good.enter (visitNode_spec (fun _ => visitExpr_yields good.signals apart types) run)
  | single => exact good.enter (visitSingle_spec run)
  | @inst top name =>
    obtain rfl := Option.some.inj run
    have same : Extends a (visitInst cfg top name a) :=
      ⟨List.prefix_refl _, fun _ _ h => h, fun _ _ h => h, fun _ _ _ h => h⟩
    exact ⟨fun x mem => (good.signals x mem).extends' same,
      fun s type memory => (good.memory s type memory).extends' same rfl⟩

/-- The name that a declaration takes among the instances. -/
def taken (cfg : Config) : Decl E → Option String
  | .mem top name _ => some (prefixName cfg.sep_module top name)
  | .inst top name => some (prefixName cfg.sep_module top name)
  | _ => none

theorem Declares.instances (declares : Declares cfg env a d env') (run : visitDecl cfg a d = some b) :
    env.signals ⊆ env'.signals ∧ ∀ s, b.moduleInstances s = true ↔ a.moduleInstances s = true ∨ taken cfg d = some s := by
  have entered : ∀ {x : Entered}, b.moduleInstances = a.moduleInstances → env.signals ⊆ (env.enter x).signals ∧
      ∀ s, b.moduleInstances s = true ↔ a.moduleInstances s = true ∨ none = some s := by
    intro x same
    refine ⟨List.subset_cons_self _ _, ?_⟩
    intro s
    rw [same, or_iff_left (by simp)]
  have took : ∀ {root : String}, b.moduleInstances = Function.update a.moduleInstances root true →
      ∀ s, b.moduleInstances s = true ↔ a.moduleInstances s = true ∨ some root = some s := by
    intro root eq s
    rw [eq, Function.update_apply, Option.some.injEq]
    by_cases same : s = root
    · rw [if_pos same]
      exact iff_of_true rfl (.inr same.symm)
    · rw [if_neg same, or_iff_left (Ne.symm same)]
  cases declares with
  | port => exact entered (visitPort_spec run).1.instances
  | wire => exact entered (visitWireDef_spec run).1.instances
  | reg => exact entered (visitRegDef_spec run).1.instances
  | mem => exact ⟨List.Subset.refl _, took (visitChirrtlMemory_spec run).instances⟩
  | memPort memory => exact entered (visitChirrtlMemPort_enters run).instances
  | node types => exact entered (visitNode_instances run)
  | single => exact entered (enter_spec run).1.instances
  | inst =>
    obtain rfl := Option.some.inj run
    exact ⟨List.Subset.refl _, took rfl⟩

/-- After all declarations each of them is still found. -/
theorem Elaborated.good {start scope : Scope} {decls : List (Decl E)}
    (h : Elaborated cfg start decls scope env) (apart : env.Apart cfg scope) : env.Good cfg scope := by
  induction h with
  | nil => exact ⟨fun _ mem => absurd mem List.not_mem_nil, fun _ _ none => by cases none⟩
  | @snoc decls d scope scope' env env' before run declares ih =>
    obtain ⟨signals, instances⟩ := declares.instances run
    have earlier : env.Apart cfg scope := by
      intro x mem bundle hb
      have free := apart x (signals mem) bundle hb
      rw [Bool.eq_false_iff] at free ⊢
      exact fun taken => free ((instances _).mpr (.inl taken))
    exact declares.good run (ih earlier) earlier

end Design

end Gsim.AggregateRefs
