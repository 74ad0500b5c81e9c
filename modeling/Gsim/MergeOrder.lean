/-
  Gsim/MergeOrder.lean
  ====================
  **The members of merged super nodes** (`mergeNodes.cpp`).

  A super node is evaluated member by member, so a merged one has to list its members
  such that none comes before one that it depends on.  `mergeOut1` puts the members of
  a super node before those of its successor; the other passes append.  In a group that
  is merged because of its condition, or of its predecessors, no member depends on
  another one.

  Super nodes of a special type have code of their own; no pass touches their members.
-/
import Gsim.MergeSchedule

namespace Gsim.MergeNodes

open GraphContraction SuperLinks

variable {Op : Type}

namespace SuperGraph

/-- No member comes before one that it depends on. -/
def Listed (G : SuperGraph Op) : Prop :=
  ∀ x ∈ G.sortedSuper, (G.member x).Pairwise fun n m => ¬ G.Dep m n

/-- What every pass keeps. -/
structure Keeps (G G' : SuperGraph Op) : Prop where
  node : G'.node = G.node
  superType : G'.superType = G.superType
  listed : G.Listed → G'.Listed
  special : ∀ x ∈ G.sortedSuper, G.superType x ≠ .valid → G.member x ≠ [] →
    x ∈ G'.sortedSuper ∧ G'.member x = G.member x

section Keeps

variable {G G' G'' : SuperGraph Op}

theorem dep_of_node (same : G'.node = G.node) : G'.Dep = G.Dep := by
  funext n m
  simp only [Dep, Edge, same]

theorem Keeps.refl (G : SuperGraph Op) : G.Keeps G :=
  ⟨rfl, rfl, id, fun _ hx _ _ => ⟨hx, rfl⟩⟩

theorem Keeps.trans (h : G.Keeps G') (h' : G'.Keeps G'') : G.Keeps G'' where
  node := h'.node.trans h.node
  superType := h'.superType.trans h.superType
  listed := h'.listed ∘ h.listed
  special := by
    intro x hx special some
    obtain ⟨hx', member⟩ := h.special x hx special some
    have special' : G'.superType x ≠ .valid := by
      rw [h.superType]
      exact special
    obtain ⟨hx'', member'⟩ := h'.special x hx' special' (member ▸ some)
    exact ⟨hx'', member'.trans member⟩

/-- Only the list of super nodes has changed. -/
theorem Keeps.of_member (node : G'.node = G.node) (superType : G'.superType = G.superType)
    (member : G'.member = G.member) (sub : ∀ x ∈ G'.sortedSuper, x ∈ G.sortedSuper)
    (kept : ∀ x ∈ G.sortedSuper, G.member x ≠ [] → x ∈ G'.sortedSuper) : G.Keeps G' where
  node := node
  superType := superType
  listed := by
    intro h x hx
    rw [member, dep_of_node node]
    exact h x (sub x hx)
  special x hx _ some := ⟨kept x hx some, congrFun member x⟩

theorem removeEmptySuper_keeps (G : SuperGraph Op) : G.Keeps G.removeEmptySuper := by
  refine Keeps.of_member rfl rfl rfl (fun x hx => (mem_removeEmptySuper.mp hx).1) fun x hx some => ?_
  obtain ⟨n, mem⟩ := List.exists_mem_of_ne_nil _ some
  exact mem_removeEmptySuper.mpr ⟨hx, removable_eq_false mem⟩

theorem reconnectSuper_keeps (G : SuperGraph Op) : G.Keeps G.reconnectSuper :=
  Keeps.of_member rfl rfl rfl (fun _ hx => hx) fun _ hx _ => hx

/-- The members of `s` go to `t`, in the right order. -/
theorem moveMembers_keeps {s t : Nat} {members : List Nat} (hs : s ∈ G.sortedSuper)
    (ht : t ∈ G.sortedSuper) (validS : G.superType s = .valid) (validT : G.superType t = .valid)
    (order : (G.member s).Pairwise (fun n m => ¬ G.Dep m n) →
      (G.member t).Pairwise (fun n m => ¬ G.Dep m n) → members.Pairwise fun n m => ¬ G.Dep m n) :
    G.Keeps (G.moveMembers s t members) where
  node := rfl
  superType := rfl
  listed := by
    intro h x hx
    show (Function.update (Function.update G.member t members) s [] x).Pairwise fun n m => ¬ G.Dep m n
    by_cases xs : x = s
    · rw [xs, Function.update_self]
      exact List.Pairwise.nil
    · rw [Function.update_of_ne xs]
      by_cases xt : x = t
      · rw [xt, Function.update_self]
        exact order (h s hs) (h t ht)
      · rw [Function.update_of_ne xt]
        exact h x hx
  special := by
    intro x hx special _
    have xs : x ≠ s := fun eq => special (eq ▸ validS)
    have xt : x ≠ t := fun eq => special (eq ▸ validT)
    refine ⟨hx, ?_⟩
    show Function.update (Function.update G.member t members) s [] x = G.member x
    rw [Function.update_of_ne xs, Function.update_of_ne xt]

end Keeps

/-! ## The sweeps -/

section Sweeps

variable {G : SuperGraph Op} {nodes : List Nat} {alive : Nat → Prop} {s t : Nat}

theorem Partitioned.superDep (part : G.Partitioned nodes alive) (hs : s ∈ G.sortedSuper)
    (ht : t ∈ G.sortedSuper) (ne : s ≠ t) {n m : Nat} (hn : n ∈ G.member s) (hm : m ∈ G.member t)
    (dep : G.Dep n m) : G.SuperDep s t :=
  ⟨n, m, dep, ((part.member s hs n).mp hn).2, ((part.member t ht m).mp hm).2, ne⟩

/-- The members of a super node go before those of one that depends on it. -/
theorem Sweep.append_listed (h : G.Sweep nodes alive) (dep : G.SuperDep s t)
    (inS : (G.member s).Pairwise fun n m => ¬ G.Dep m n)
    (inT : (G.member t).Pairwise fun n m => ¬ G.Dep m n) :
    (G.member s ++ G.member t).Pairwise fun n m => ¬ G.Dep m n := by
  obtain ⟨hs, ht⟩ := h.part.superDep_alive dep
  refine List.pairwise_append.mpr ⟨inS, inT, fun n hn m hm edge => ?_⟩
  have back := h.part.superDep (h.part.sorted t ht) (h.part.sorted s hs) dep.ne.symm hm hn edge
  exact (h.forward.forward t s back).not_gt (h.forward.forward s t dep)

theorem Sweep.mergeOut1Step_keeps (h : G.Sweep nodes alive) (hs : alive s) :
    G.Keeps (G.mergeOut1Step s) := by
  unfold SuperGraph.mergeOut1Step
  split
  swap
  · exact Keeps.refl G
  rename_i validS
  split
  swap
  · exact Keeps.refl G
  rename_i t next
  split
  · exact Keeps.refl G
  rename_i validT
  split
  · exact Keeps.refl G
  split
  · exact Keeps.refl G
  have edge : G.SuperEdge s t := by
    refine (h.conn.shows.next s t hs).mp ?_
    rw [next]
    exact List.mem_singleton_self t
  have moved := moveMembers_keeps (h.part.sorted s hs)
    (h.part.sorted t (h.part.superDep_alive edge.dep).2) validS (not_not.mp validT) fun inS inT =>
      h.append_listed edge.dep inS inT
  exact ⟨moved.node, moved.superType, moved.listed, moved.special⟩

theorem Sweep.mergeIn1Step_keeps (h : G.Sweep nodes alive) (hs : alive s) :
    G.Keeps (G.mergeIn1Step s) := by
  unfold SuperGraph.mergeIn1Step
  split
  swap
  · exact Keeps.refl G
  rename_i validS
  split
  swap
  · exact Keeps.refl G
  rename_i t prev
  split
  · exact Keeps.refl G
  rename_i validT
  split
  · exact Keeps.refl G
  split
  · exact Keeps.refl G
  have edge : G.SuperEdge t s := by
    refine (h.conn.shows.prev s t hs).mp ?_
    rw [prev]
    exact List.mem_singleton_self t
  have moved := moveMembers_keeps (h.part.sorted s hs)
    (h.part.sorted t (h.part.superDep_alive edge.dep).1) validS (not_not.mp validT) fun inS inT =>
      h.append_listed edge.dep inT inS
  exact ⟨moved.node, moved.superType, moved.listed, moved.special⟩

theorem Sweep.foldl_keeps {step : SuperGraph Op → Nat → SuperGraph Op}
    (round : ∀ {G : SuperGraph Op} {alive : Nat → Prop} {s : Nat}, G.Sweep nodes alive → alive s →
      ∃ alive', (step G s).Sweep nodes alive' ∧ After alive s alive')
    (keeps : ∀ {G : SuperGraph Op} {alive : Nat → Prop} {s : Nat}, G.Sweep nodes alive → alive s →
      G.Keeps (step G s))
    (l : List Nat) (nodup : l.Nodup) (h : G.Sweep nodes alive) (hl : ∀ s ∈ l, alive s) :
    G.Keeps (l.foldl step G) := by
  induction l generalizing G alive with
  | nil => exact Keeps.refl G
  | cons s l ih =>
    obtain ⟨out, nodup⟩ := List.nodup_cons.mp nodup
    have hs := hl s List.mem_cons_self
    obtain ⟨alive', h', after⟩ := round h hs
    refine (keeps h hs).trans (ih nodup h' fun x hx => ?_)
    have ne : x ≠ s := fun eq => out (eq ▸ hx)
    exact (after x ne).mpr (hl x (List.mem_cons_of_mem _ hx))

theorem Sweep.mergeOut1_keeps (h : G.Sweep nodes (· ∈ G.sortedSuper)) : G.Keeps G.mergeOut1 :=
  (Sweep.foldl_keeps (fun h hs => h.mergeOut1Step hs) (fun h hs => h.mergeOut1Step_keeps hs)
    G.sortedSuper.reverse (List.nodup_reverse.mpr h.part.nodup) h
    fun _ hs => List.mem_reverse.mp hs).trans (removeEmptySuper_keeps _)

theorem Sweep.mergeIn1_keeps (h : G.Sweep nodes (· ∈ G.sortedSuper)) : G.Keeps G.mergeIn1 :=
  (Sweep.foldl_keeps (fun h hs => h.mergeIn1Step hs) (fun h hs => h.mergeIn1Step_keeps hs)
    G.sortedSuper h.part.nodup h fun _ hs => hs).trans (removeEmptySuper_keeps _)

end Sweeps

/-! ## The groups -/

section Groups

variable {R : Nat → Nat → Prop} {start G : SuperGraph Op} {nodes : List Nat} {alive : Nat → Prop}
  {root : Nat → Nat} {s t : Nat}

/-- What belongs to one of two related super nodes does not depend on what belongs to the
other. -/
def Unordered (R : Nat → Nat → Prop) (start : SuperGraph Op) : Prop :=
  ∀ s t y z, R t s → start.SuperDep y z → R s y → ¬ R t z

theorem Grouped.merge_keeps (h : Grouped R start G nodes alive root) (hs : alive s) (ht : alive t)
    (ne : t ≠ s) (validS : start.superType s = .valid) (validT : start.superType t = .valid)
    (rel : R t s) (unordered : Unordered R start) :
    G.Keeps (G.moveMembers s t (G.member t ++ G.member s)) := by
  have hs' := h.part.sorted s hs
  have ht' := h.part.sorted t ht
  rw [← h.superType] at validS validT
  refine moveMembers_keeps hs' ht' validS validT fun inS inT => ?_
  refine List.pairwise_append.mpr ⟨inT, inS, fun n hn m hm dep => ?_⟩
  obtain ⟨y, z, old, rfl, rfl⟩ := h.superDep (h.part.superDep hs' ht' ne.symm hm hn dep)
  exact unordered _ _ y z rel old (h.rel y) (h.rel z)

/-- Two super nodes with the same predecessors do not depend on each other. -/
theorem Sweep.sublings_unordered (h : start.Sweep nodes (· ∈ start.sortedSuper)) :
    Unordered (Subling start) start := by
  intro s t y z st dep sy tz
  obtain ⟨hy, hz⟩ := h.part.superDep_alive dep
  have before : y ∈ start.links.depPrev z := (h.conn.shows.depPrev z y hz).mpr dep
  have itself : y ∈ start.links.depPrev y := (sy.2 y).mp ((st.2 y).mp ((tz.2 y).mpr before))
  exact ((h.conn.shows.depPrev y y hy).mp itself).ne rfl

theorem Grouped.sublingStep_keeps (addr : Nat → UInt64) {unique todo : List Nat}
    (h : Grouped (Subling start) start G nodes alive root)
    (work : Working start alive unique (s :: todo))
    (valid : ∀ c ∈ unique, start.superType c = .valid)
    (unordered : Unordered (Subling start) start) :
    G.Keeps (SuperGraph.sublingStep addr (G, unique) s).1 ∧
      ∀ c ∈ (SuperGraph.sublingStep addr (G, unique) s).2, start.superType c = .valid := by
  have validS := work.valid s List.mem_cons_self
  have inserted : ∀ l, (∀ c ∈ l, c ∈ unique) →
      ∀ c ∈ insertUnique addr s l, start.superType c = .valid := by
    intro l sub c hc
    rcases mem_insertUnique.mp hc with rfl | old
    · exact validS
    · exact valid c (sub c old)
  unfold SuperGraph.sublingStep
  dsimp only
  split
  · rename_i t found
    have mem := List.mem_of_find?_eq_some found
    have eq := List.find?_some found
    split
    · have lt := work.before t mem s List.mem_cons_self
      have ne : t ≠ s := by
        rintro rfl
        exact lt_irrefl _ lt
      rw [prevEq, Bool.and_eq_true, sameSet_iff, sameSet_iff, h.links] at eq
      exact ⟨h.merge_keeps (work.todoAlive s List.mem_cons_self) (work.uniqueAlive t mem) ne validS
        (valid t mem) ⟨lt.le, eq.2⟩ unordered, valid⟩
    · exact ⟨Keeps.refl G, inserted _ fun c hc => List.mem_of_mem_erase hc⟩
  · exact ⟨Keeps.refl G, inserted _ fun c hc => hc⟩

theorem Grouped.bucket_keeps (addr : Nat → UInt64) (todo : List Nat) {unique : List Nat}
    (h : Grouped (Subling start) start G nodes alive root)
    (work : Working start alive unique todo) (valid : ∀ c ∈ unique, start.superType c = .valid)
    (unordered : Unordered (Subling start) start) :
    G.Keeps (todo.foldl (SuperGraph.sublingStep addr) (G, unique)).1 := by
  induction todo generalizing G alive root unique with
  | nil => exact Keeps.refl G
  | cons s todo ih =>
    obtain ⟨alive₁, root₁, h₁, work₁, -⟩ := h.sublingStep addr work
    obtain ⟨keeps, valid₁⟩ := h.sublingStep_keeps addr work valid unordered
    exact keeps.trans (ih h₁ work₁ valid₁)

theorem Grouped.buckets_keeps (addr : Nat → UInt64) (buckets : List (Nat × List Nat))
    (h : Grouped (Subling start) start G nodes alive root)
    (work : ∀ b ∈ buckets, Working start alive [] b.2)
    (disjoint : buckets.Pairwise fun a b => ∀ x ∈ b.2, x ∉ a.2)
    (unordered : Unordered (Subling start) start) :
    G.Keeps (buckets.foldl (fun G bucket =>
      (bucket.2.foldl (SuperGraph.sublingStep addr) (G, [])).1) G) := by
  induction buckets generalizing G alive root with
  | nil => exact Keeps.refl G
  | cons b buckets ih =>
    obtain ⟨apart, disjoint⟩ := List.pairwise_cons.mp disjoint
    have here := work b List.mem_cons_self
    obtain ⟨alive', root', h', rest⟩ := h.bucket addr b.2 here
    refine (h.bucket_keeps addr b.2 here (by simp) unordered).trans (ih h' ?_ disjoint)
    intro c hc
    have old := work c (List.mem_cons_of_mem _ hc)
    exact ⟨fun x hx => (rest x (apart c hc x hx)).mpr (old.todoAlive x hx), by simp, old.valid,
      old.ascending, by simp⟩

theorem Sweep.mergeSublings_keeps (h : G.Sweep nodes (· ∈ G.sortedSuper)) (addr : Nat → UInt64) :
    G.Keeps (G.mergeSublings addr) := by
  have alone : Grouped (Subling G) G G nodes (· ∈ G.sortedSuper) id :=
    Grouped.refl (fun x => ⟨le_refl _, fun _ => Iff.rfl⟩) h.part
  have merged := alone.buckets_keeps addr (G.sublingBuckets addr)
    (fun b hb => sublingBuckets_working h hb) (sublingBuckets_disjoint addr) h.sublings_unordered
  exact (merged.trans (removeEmptySuper_keeps _)).trans (reconnectSuper_keeps _)

theorem Grouped.absorbAll_keeps (others : List Nat) (trans : ∀ a b c, R a b → R b c → R a c)
    (h : Grouped R start G nodes alive root) (ht : alive t) (nodup : (t :: others).Nodup)
    (aliveAll : ∀ s ∈ others, alive s) (valid : ∀ s ∈ t :: others, start.superType s = .valid)
    (rel : ∀ s ∈ others, R t s) (unordered : Unordered R start) {G' : SuperGraph Op}
    (eq : others.foldlM (fun (G : SuperGraph Op) src => G.absorb t src) G = some G') :
    G.Keeps G' := by
  induction others generalizing G alive root with
  | nil =>
    cases eq
    exact Keeps.refl _
  | cons s others ih =>
    have ne : t ≠ s := fun eq => (List.nodup_cons.mp nodup).1 (eq ▸ List.mem_cons_self)
    obtain ⟨sOut, sNodup⟩ := List.nodup_cons.mp (List.nodup_cons.mp nodup).2
    have tOut : t ∉ others := fun mem =>
      (List.nodup_cons.mp nodup).1 (List.mem_cons_of_mem _ mem)
    have hs := aliveAll s List.mem_cons_self
    have validS := valid s (List.mem_cons_of_mem _ List.mem_cons_self)
    have relS := rel s List.mem_cons_self
    rw [List.foldlM_cons, absorb_eq h.part hs ht ne] at eq
    have merged := h.merge hs ht ne validS
      (@List.perm_append_comm _ (G.member t) (G.member s)) trans relS
    refine (h.merge_keeps hs ht ne validS (valid t List.mem_cons_self) relS unordered).trans ?_
    refine ih merged ⟨ht, ne⟩ (List.nodup_cons.mpr ⟨tOut, sNodup⟩)
      (fun x hx => ⟨aliveAll x (List.mem_cons_of_mem _ hx), fun xs => sOut (xs ▸ hx)⟩) ?_
      (fun x hx => rel x (List.mem_cons_of_mem _ hx)) eq
    intro x hx
    rcases List.mem_cons.mp hx with rfl | hx
    · exact valid x List.mem_cons_self
    · exact valid x (List.mem_cons_of_mem _ (List.mem_cons_of_mem _ hx))

theorem Grouped.applyGroups_keeps (groups : List (Nat × List Nat))
    (trans : ∀ a b c, R a b → R b c → R a c) (h : Grouped R start G nodes alive root)
    (ok : Mergeable start R alive groups) (unordered : Unordered R start) {G' : SuperGraph Op}
    (eq : groups.foldlM applyGroup G = some G') : G.Keeps G' := by
  induction groups generalizing G alive root with
  | nil =>
    cases eq
    exact Keeps.refl _
  | cons e groups ih =>
    obtain ⟨apart, disjoint⟩ := List.pairwise_cons.mp ok.disjoint
    have here : e ∈ e :: groups := List.mem_cons_self
    cases members : e.2 with
    | nil => exact absurd members (ok.nonempty e here)
    | cons t others =>
      have sub : ∀ s ∈ t :: others, s ∈ e.2 := fun s hs => members ▸ hs
      have tMem := sub t List.mem_cons_self
      have others_sub : ∀ s ∈ others, s ∈ e.2 := fun s hs => sub s (List.mem_cons_of_mem _ hs)
      have validAll : ∀ s ∈ t :: others, start.superType s = .valid :=
        fun s hs => ok.valid e here s (sub s hs)
      obtain ⟨G₁, alive₁, root₁, eq₁, h₁, rest⟩ := h.absorbAll others trans
        (ok.alive e here t tMem) (members ▸ ok.nodup e here)
        (fun s hs => ok.alive e here s (others_sub s hs))
        (fun s hs => validAll s (List.mem_cons_of_mem _ hs))
        fun s hs => ok.rel e here t tMem s (others_sub s hs)
      have first := h.absorbAll_keeps others trans (ok.alive e here t tMem)
        (members ▸ ok.nodup e here) (fun s hs => ok.alive e here s (others_sub s hs)) validAll
        (fun s hs => ok.rel e here t tMem s (others_sub s hs)) unordered eq₁
      have later : Mergeable start R alive₁ groups := by
        refine ⟨fun e' he' => ok.nonempty e' (List.mem_cons_of_mem _ he'),
          fun e' he' => ok.nodup e' (List.mem_cons_of_mem _ he'), ?_,
          fun e' he' => ok.valid e' (List.mem_cons_of_mem _ he'),
          fun e' he' => ok.rel e' (List.mem_cons_of_mem _ he'), disjoint⟩
        intro e' he' v hv
        have out : v ∉ others := fun mem => apart e' he' v hv (others_sub v mem)
        exact (rest v out).mpr (ok.alive e' (List.mem_cons_of_mem _ he') v hv)
      refine first.trans (ih h₁ later ?_)
      rw [List.foldlM_cons, applyGroup, members] at eq
      obtain ⟨G₂, eq₂, rest₂⟩ := Option.bind_eq_some_iff.mp eq
      have same : G₂ = G₁ := Option.some.inj (eq₂.symm.trans eq₁)
      exact same ▸ rest₂

theorem Sweep.mergeWhenNodes_keeps [WhenOp Op] (h : G.Sweep nodes (· ∈ G.sortedSuper))
    {plan : WhenPlan} (admits : G.Admits plan) {G' : SuperGraph Op}
    (eq : G.mergeWhenNodes plan = some G') : G.Keeps G' := by
  obtain ⟨mode, mergeWhenSize, planned⟩ := planned_of_admits admits
  obtain ⟨done, waiting, times, front, groups, -⟩ :=
    Traversal.whenGroups_ok h.part h.conn mode mergeWhenSize
  let rank := ReadyFrontier.rank G.links.depPrev done G.order
  have sorted : (G.orderedGroups mode mergeWhenSize).Perm
      (Traversal.whenGroups G mode mergeWhenSize) := List.perm_insertionSort _ _
  have ok : Mergeable G (fun v w => rank v = rank w) (· ∈ G.sortedSuper)
      (G.orderedGroups mode mergeWhenSize) :=
    (mergeable_of_groupsOk groups).reorder (sorted.map _) rfl fun _ hx => hx
  have unmerged : Grouped (fun v w => rank v = rank w) G G nodes (· ∈ G.sortedSuper) id :=
    Grouped.refl (fun _ => rfl) h.part
  -- what becomes ready at one moment is not ordered
  have unordered : Unordered (fun v w => rank v = rank w) G := by
    intro s t y z st dep sy tz
    have hz := (h.part.superDep_alive dep).2
    have lt : rank y < rank z :=
      front.rank_lt ((h.conn.shows.depPrev z y hz).mpr dep) (h.forward.forward y z dep)
    exact lt.ne (sy.symm.trans (st.symm.trans tz))
  rw [SuperGraph.mergeWhenNodes, planned, Option.bind_some] at eq
  obtain ⟨merged, eqMerged, eq⟩ := Option.bind_eq_some_iff.mp eq
  obtain ⟨-, -, rfl⟩ := Option.map_eq_some_iff.mp eq
  have keeps := unmerged.applyGroups_keeps _ (fun _ _ _ first second => first.trans second) ok
    unordered eqMerged
  exact (keeps.trans (removeEmptySuper_keeps _)).trans (reconnectSuper_keeps _)

end Groups

/-! ## Sorting again -/

section Resort

variable {G : SuperGraph Op} {nodes : List Nat}

theorem resort_keeps (part : G.Partitioned nodes (· ∈ G.sortedSuper))
    (conn : G.Connected (· ∈ G.sortedSuper)) (acyclic : Acyclic G.SuperDep) (mode : ResortMode)
    {G' : SuperGraph Op} (eq : G.resort mode = some G') : G.Keeps G' := by
  obtain ⟨G'', eq'', -, perm, -⟩ := resort_ok part conn acyclic mode
  obtain rfl : G' = G'' := Option.some.inj (eq.symm.trans eq'')
  obtain ⟨st, -, rest⟩ := Option.bind_eq_some_iff.mp eq
  obtain ⟨-, same⟩ | ⟨-, same⟩ := ite_eq_iff.mp rest
  · cases same
    exact Keeps.of_member rfl rfl rfl (fun _ hx => perm.mem_iff.mp hx)
      fun _ hx _ => perm.mem_iff.mpr hx
  · cases same

end Resort

end SuperGraph

end Gsim.MergeNodes
