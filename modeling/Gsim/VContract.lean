/-
  Gsim/VContract.lean
  ===================
  **Contracting the SCC graph into MTasks**
  (`mtBuildDenseMTasksVerilatorContract` of `cppEmitterDenseSchedule.cpp`).

  Every SCC starts as a group of its own.  The merge loop pops a candidate pair,
  looks whether the groups may be merged (same worker-zero mark, cost within
  `perMTaskCap`, no cycle), and merges the second into the first.  The cycle
  check is a depth-first search over cached neighbour lists behind a memo.

  Three things are kept apart from the source's text:

    * the union-find forest is the map its `find` computes; path halving does not
      change it;
    * critical paths and scores only decide in which order candidates are popped.
      They enter through a `Scoring` (`CriticalPaths.scoring` is the source's), and
      the queue pops whatever entry an arbitrary number points at, so that every
      order of candidates is covered;
    * the visit tags of the search are numbered without bound (`curGen` has 32
      bits in the source).

  Counters that are only printed are left out.
-/
import Gsim.DenseMTask
import Gsim.SortedContainers
import Gsim.Kahn

namespace Gsim

open SortedContainers GraphContraction

/-! ## Input -/

/-- What both MTask builders receive: SCCs whose ids are topologically ordered, and an order
    that lists each of them once. -/
structure SccSchedule where
  sccs : List MtDenseScc
  topoSccOrder : List ℕ
  forward : ∀ u, ∀ v ∈ succSccsOf sccs u, v < sccs.length → u ≤ v
  complete : topoSccOrder.Perm (List.range sccs.length)

namespace SccSchedule

variable (S : SccSchedule)

def realN : ℕ := S.sccs.length

def scc (sccId : ℕ) : MtDenseScc := S.sccs.getD sccId {}

/-- `sc`. -/
def sc (sccId : ℕ) : ℕ := max 1 (S.scc sccId).memberNodeCost.toNat

def totalCost : ℕ := ((List.range S.realN).map S.sc).sum

/-- The successors that count as edges. -/
def edgesOf (u : ℕ) : List ℕ :=
  (succSccsOf S.sccs u).filter fun v => v ≠ u ∧ v < S.realN

/-- A dependency between two SCCs. -/
def Edge (u v : ℕ) : Prop := v ∈ S.edgesOf u

end SccSchedule

/-- `GSIM_MT_DENSE_VCONTRACT_*`. -/
structure VContractKnobs where
  /-- `MAXMT` -/
  maxMT : Option ℕ := none
  /-- `CAP` -/
  cap : Option ℕ := none
  /-- `SIBLING` -/
  sibEnabled : Bool := true
  /-- `PROPCP`, also switched on by `EDGE_CPWO` -/
  propagateCp : Bool := false
  /-- `COMPACT`, or the second pass of `POLICY=auto` -/
  vcCompact : Bool := false
deriving Repr, DecidableEq

namespace VContractKnobs

variable (k : VContractKnobs)

def maxMTasks (threadCount : ℕ) : ℕ :=
  match k.maxMT with
  | some v => if v > threadCount then v else max threadCount (50 * threadCount)
  | none => max threadCount (50 * threadCount)

def capMul : ℕ :=
  match k.cap with
  | some v => if v ≥ 1 then v else 3
  | none => 3

def perMTaskCap (totalCost threadCount : ℕ) : ℕ :=
  max 1 (totalCost / k.maxMTasks threadCount * k.capMul % 2 ^ 64)

end VContractKnobs

/-! ## Groups and their neighbour lists -/

structure Groups where
  find : ℕ → ℕ
  gcost : ℕ → ℕ
  gw0 : ℕ → Bool
  gS : ℕ → List ℕ
  gP : ℕ → List ℕ

/-- The lists are sorted vectors without duplicates, searched by halving. -/
def relContains (v : List ℕ) (x : ℕ) : Bool := x ∈ v

def relInsert (v : List ℕ) (x : ℕ) : List ℕ := if x ∈ v then v else v.orderedInsert (· ≤ ·) x

def relErase (v : List ℕ) (x : ℕ) : List ℕ := v.erase x

def relUnionInto (dst src : List ℕ) : List ℕ := sortUnique (dst ++ src)

/-- `for (int x : xs) relInsert(rel[x], a)`. -/
def relInsertEach (rel : ℕ → List ℕ) (xs : List ℕ) (a : ℕ) : ℕ → List ℕ :=
  xs.foldl (fun rel x => Function.update rel x (relInsert (rel x) a)) rel

/-- The graph before any merge. -/
def Groups.initial (S : SccSchedule) : Groups where
  find := id
  gcost := S.sc
  gw0 scc := (S.scc scc).workerZeroOnly
  gS u := sortUnique (S.edgesOf u)
  gP v := sortUnique ((List.range S.realN).flatMap fun u =>
    ((S.edgesOf u).filter (· = v)).map fun _ => u)

/-- "merge b into a": redirect `b`, and hand its neighbours over to `a`. -/
def Groups.merge (g : Groups) (a b : ℕ) : Groups :=
  let find := redirect g.find a b
  let succs := sortUnique (((g.gS b).map find).filter (· ≠ a))
  let gP := relInsertEach g.gP succs a
  let gS := Function.update g.gS a (relUnionInto (g.gS a) succs)
  let preds := sortUnique (((gP b).map find).filter (· ≠ a))
  let gS := relInsertEach gS preds a
  let gP := Function.update gP a (relUnionInto (gP a) preds)
  { find
    gcost := Function.update g.gcost a (g.gcost a + g.gcost b)
    gw0 := g.gw0
    gS := Function.update gS a (relErase (relErase (gS a) a) b)
    gP := Function.update gP a (relErase (relErase (gP a) a) b) }

/-- Take the direct edge out for the time of a query. -/
def Groups.eraseEdge (g : Groups) (a b : ℕ) : Groups :=
  { g with
    gS := Function.update g.gS a (relErase (g.gS a) b)
    gP := Function.update g.gP b (relErase (g.gP b) a) }

/-- Put it back. -/
def Groups.insertEdge (g : Groups) (a b : ℕ) : Groups :=
  { g with
    gS := Function.update g.gS a (relInsert (g.gS a) b)
    gP := Function.update g.gP b (relInsert (g.gP b) a) }

/-- Dead-entry compaction: the lists of live groups keep their live entries. -/
def Groups.compact (g : Groups) : Groups :=
  let live (rel : ℕ → List ℕ) (r : ℕ) :=
    if g.find r = r then (rel r).filter fun v => g.find v = v else rel r
  { g with gS := live g.gS, gP := live g.gP }

/-! ## Reachability -/

structure PathCache where
  gen : ℕ → ℕ
  curGen : ℕ
  pathMemo : ℕ × ℕ → Option Bool
  gSN : ℕ → List ℕ
  gsnEpoch : ℕ → ℕ
  pathEpoch : ℕ

def PathCache.initial : PathCache := ⟨fun _ => 0, 0, fun _ => none, fun _ => [], fun _ => 0, 1⟩

def PathCache.dropList (c : PathCache) (a : ℕ) : PathCache :=
  { c with gsnEpoch := Function.update c.gsnEpoch a 0 }

/-- Bring the successor list of `x` up to date with the current roots. -/
def gsn (g : Groups) (c : PathCache) (x : ℕ) : PathCache :=
  if c.gsnEpoch x = c.pathEpoch then c
  else
    { c with
      gSN := Function.update c.gSN x ((sortUnique ((g.gS x).map g.find)).filter (· ≠ x))
      gsnEpoch := Function.update c.gsnEpoch x c.pathEpoch }

def visitCap : ℕ := 500000

/-- The loop of `pathExists`; the top of the stack comes first. -/
def search (g : Groups) (target visits : ℕ) (pathSt : List ℕ) (c : PathCache) : Bool × PathCache :=
  match pathSt with
  | [] => (false, c)
  | x :: pathSt =>
    if x = target then (true, c)
    else if c.gen x = c.curGen then search g target visits pathSt c
    else
      let c := { c with gen := Function.update c.gen x c.curGen }
      if visitCap < visits + 1 then (true, c)
      else
        let c := gsn g c x
        if target ∈ c.gSN x then (true, c)
        else search g target (visits + 1) ((c.gSN x).reverse ++ pathSt) c
termination_by (visitCap - visits, pathSt.length)

def pathExists (g : Groups) (c : PathCache) (frm target : ℕ) : Bool × PathCache :=
  let src := g.find frm
  let dst := g.find target
  if src = dst then (true, c)
  else
    match c.pathMemo (src, dst) with
    | some answer => (answer, c)
    | none =>
      let (reachable, c) := search g target 0 [src] { c with curGen := c.curGen + 1 }
      (reachable, { c with pathMemo := Function.update c.pathMemo (src, dst) (some reachable) })

/-! ## The merge loop -/

structure Cand where
  score : ℕ
  a : ℕ
  b : ℕ
  sibling : Bool
deriving Repr, DecidableEq

/-- Critical-path data of any kind, with what a merge and `recomputeCP` make of it. -/
structure Scoring (κ : Type) where
  initial : κ
  merged : κ → ℕ → ℕ → κ
  recompute : Groups → κ → κ
  candidateScore : Groups → κ → ℕ → ℕ → Bool → ℕ

/-! ### The scores of the source -/

/-- `mtDenseStepCostV` from `s` on: the first step of the trajectory that is not below `cost`. -/
def stepFrom (s cost : ℕ) : ℕ := if cost ≤ s then s else stepFrom (s + s / 20 + 1) cost
termination_by cost - s

def stepCost (cost : ℕ) : ℕ := if cost ≤ 1 then cost else stepFrom 1 cost

/-- Critical paths to the end and from the start. -/
structure CriticalPaths where
  gF : ℕ → ℕ
  gR : ℕ → ℕ

namespace CriticalPaths

/-- `cp[v] + stepCost(gcost[v])`. -/
def through (g : Groups) (cp : ℕ → ℕ) (v : ℕ) : ℕ := cp v + stepCost (g.gcost v)

def longest (g : Groups) (cp : ℕ → ℕ) (rel : List ℕ) : ℕ := (rel.map (through g cp)).foldl max 0

/-- Over the SCC graph, topological by id. -/
def initial (n : ℕ) (g : Groups) : CriticalPaths where
  gF := (List.range n).foldr (fun u gF => Function.update gF u (longest g gF (g.gS u))) fun _ => 0
  gR := (List.range n).foldl (fun gR u => Function.update gR u (longest g gR (g.gP u))) fun _ => 0

def merged (cp : CriticalPaths) (a b : ℕ) : CriticalPaths where
  gF := Function.update cp.gF a (max (cp.gF a) (cp.gF b))
  gR := Function.update cp.gR a (max (cp.gR a) (cp.gR b))

/-- `recomputeCP`, compaction apart: over the live quotient graph in Kahn order. -/
def recompute (n : ℕ) (g : Groups) (cp : CriticalPaths) : CriticalPaths :=
  let cpRoots := (List.range n).filter fun i => g.find i = i
  let cpSucc (r : ℕ) := sortUnique (((g.gS r).map g.find).filter (· ≠ r))
  let cpPred (rs : ℕ) := cpRoots.filter fun r => rs ∈ cpSucc r
  let cpIndeg (r : ℕ) := (cpPred r).length
  let cpTopo := (Kahn.run cpSucc Kahn.Queue.fifo n
    ⟨cpIndeg, cpRoots.filter fun r => cpIndeg r = 0, [], ()⟩).order
  let reset (old : ℕ → ℕ) (r : ℕ) := if r ∈ cpRoots then 0 else old r
  { gF := cpTopo.foldr (fun u gF => Function.update gF u (longest g gF (cpSucc u))) (reset cp.gF)
    gR := cpTopo.foldl (fun gR u => Function.update gR u (longest g gR (cpPred u))) (reset cp.gR) }

/-- `value` of the better of two roots; the smaller root wins a tie. -/
def better (value : ℕ → ℕ) (root : ℕ) (best : Option ℕ) : Bool :=
  match best with
  | none => true
  | some r => value root > value r ∨ (value root = value r ∧ root < r)

/-- `refreshBestTwo`: the best and the second best neighbour of `node`. -/
def bestTwo (g : Groups) (cp : ℕ → ℕ) (node : ℕ) (relations : List ℕ) : Option ℕ × Option ℕ :=
  (relations.map g.find).foldl (fun (best, second) root =>
    if root = node ∨ best = some root ∨ second = some root then (best, second)
    else if better (through g cp) root best then (some root, best)
    else if better (through g cp) root second then (best, some root)
    else (best, second)) (none, none)

/-- `incomingWithout` and `outgoingWithout`. -/
def without (g : Groups) (cp : ℕ → ℕ) (node : ℕ) (relations : List ℕ) (excluded : ℕ) : ℕ :=
  let (best, second) := bestTwo g cp node relations
  ((if best = some excluded then second else best).map (through g cp)).getD 0

def siblingScore (g : Groups) (cp : CriticalPaths) (a b : ℕ) : ℕ :=
  max (cp.gF a) (cp.gF b) + max (cp.gR a) (cp.gR b) + stepCost (g.gcost a + g.gcost b)

def edgeScore (edgeCpWithout : Bool) (g : Groups) (cp : CriticalPaths) (a b : ℕ) : ℕ :=
  if edgeCpWithout then
    let mergedFromStart := max (cp.gR a) (without g cp.gR b (g.gP b) a)
    let mergedToEnd := max (without g cp.gF a (g.gS a) b) (cp.gF b)
    mergedFromStart + mergedToEnd + stepCost (g.gcost a + g.gcost b)
  else siblingScore g cp a b

/-- The scoring of the source. -/
def scoring (S : SccSchedule) (edgeCpWithout : Bool) : Scoring CriticalPaths where
  initial := initial S.realN (Groups.initial S)
  merged := merged
  recompute := recompute S.realN
  candidateScore g cp a b sibling :=
    if sibling then siblingScore g cp a b else edgeScore edgeCpWithout g cp a b

end CriticalPaths

structure MergeState (κ : Type) where
  groups : Groups
  paths : PathCache
  cp : κ
  pq : List Cand
  live : ℕ
  merges : ℕ

/-- What the loop is run with. -/
structure MergeParams (κ : Type) where
  n : ℕ
  maxMTasks : ℕ
  perMTaskCap : ℕ
  sibEnabled : Bool
  propagateCp : Bool
  vcCompact : Bool
  scoring : Scoring κ

section MergeLoop

variable {κ : Type} (P : MergeParams κ)

/-- Two groups that a candidate may pair. -/
def pairable (g : Groups) (r rs : ℕ) : Bool :=
  g.gw0 r = g.gw0 rs ∧ g.gcost r + g.gcost rs ≤ P.perMTaskCap

def candidate (g : Groups) (cp : κ) (a b : ℕ) (sibling : Bool) : Cand :=
  ⟨P.scoring.candidateScore g cp a b sibling, a, b, sibling⟩

def pushEdges (g : Groups) (cp : κ) (r : ℕ) : List Cand :=
  ((g.gS r).map g.find).filterMap fun rs =>
    if rs ≠ r ∧ pairable P g r rs then some (candidate P g cp r rs false) else none

/-- Pairs a group with successors of each predecessor, eight at most. -/
def pushSiblings (g : Groups) (cp : κ) (r : ℕ) : List Cand :=
  (((g.gP r).map g.find).flatMap fun rp =>
    ((g.gS rp).map g.find).filterMap fun rs =>
      if rs ≠ r ∧ rs ≠ rp ∧ pairable P g r rs then some (candidate P g cp r rs true)
      else none).take 8

def pushPreds (g : Groups) (cp : κ) (a : ℕ) : List Cand :=
  ((g.gP a).map g.find).filterMap fun rp =>
    if rp ≠ a ∧ pairable P g rp a then some (candidate P g cp rp a false) else none

def pushBoth (g : Groups) (cp : κ) (r : ℕ) : List Cand :=
  pushEdges P g cp r ++ if P.sibEnabled then pushSiblings P g cp r else []

/-- The heap from scratch over all live roots. -/
def rebuildPQ (g : Groups) (cp : κ) : List Cand :=
  ((List.range P.n).filter fun u => g.find u = u).flatMap (pushBoth P g cp)

/-- The cycle check.  An edge candidate is looked at with its own edge taken out, and the edge
    put back when there is another path. -/
def mayMerge (g : Groups) (c : PathCache) (a b : ℕ) (sibling : Bool) : Bool × Groups × PathCache :=
  if sibling then
    if relContains (g.gS a) b || relContains (g.gS b) a then (false, g, c)
    else
      let (ab, c) := pathExists g c a b
      if ab then (false, g, c)
      else
        let (ba, c) := pathExists g c b a
        (!ba, g, c)
  else if !relContains (g.gS a) b then (false, g, c)
  else
    let erased := g.eraseEdge a b
    let (ab, c) := pathExists erased (c.dropList a) a b
    if ab then (false, erased.insertEdge a b, c.dropList a) else (true, erased, c)

/-- Merge, forget what the caches knew, recompute every 256 merges, push new candidates. -/
def applyMerge (s : MergeState κ) (g : Groups) (c : PathCache) (rest : List Cand) (a b : ℕ) :
    MergeState κ :=
  let g := g.merge a b
  let cp := P.scoring.merged s.cp a b
  let merges := s.merges + 1
  let recompute := P.propagateCp && merges % 256 = 0
  let g := if recompute && P.vcCompact then g.compact else g
  let cp := if recompute then P.scoring.recompute g cp else cp
  let pq := if recompute then rebuildPQ P g cp else rest
  { groups := g
    paths := { c with pathMemo := fun _ => none, pathEpoch := c.pathEpoch + 1 }
    cp
    pq := pq ++ pushBoth P g cp a ++ pushPreds P g cp a
    live := s.live - 1
    merges }

/-- The loop ends: no candidate left, or few enough groups. -/
def MergeState.finished (s : MergeState κ) : Bool := s.pq = [] ∨ s.live ≤ P.maxMTasks

/-- One turn of the loop with the popped candidate. -/
def mergeCandidate (s : MergeState κ) (cand : Cand) (rest : List Cand) : MergeState κ :=
  let g := s.groups
  let a := g.find cand.a
  let b := g.find cand.b
  if a = b ∨ ¬ pairable P g a b then { s with pq := rest }
  else if P.propagateCp ∧ P.scoring.candidateScore g s.cp a b cand.sibling ≠ cand.score then
    { s with pq := rest ++ [candidate P g s.cp a b cand.sibling] }
  else
    match mayMerge g s.paths a b cand.sibling with
    | (true, g, c) => applyMerge P s g c rest a b
    | (false, g, c) => { s with groups := g, paths := c, pq := rest }

/-- One turn of the loop; `pick` says which entry is on top of the queue. -/
def mergeStep (s : MergeState κ) (pick : ℕ) : MergeState κ :=
  if s.finished P then s
  else
    match s.pq[pick % s.pq.length]? with
    | some cand => mergeCandidate P s cand (s.pq.eraseIdx (pick % s.pq.length))
    | none => s

def mergeLoop (s : MergeState κ) (picks : List ℕ) : MergeState κ := picks.foldl (mergeStep P) s

def MergeState.initial (S : SccSchedule) : MergeState κ where
  groups := Groups.initial S
  paths := PathCache.initial
  cp := P.scoring.initial
  pq := rebuildPQ P (Groups.initial S) P.scoring.initial
  live := P.n
  merges := 0

end MergeLoop

/-! ## Materialisation -/

/-- Pairs of different groups with an SCC edge from one to the other. -/
def crossEdges (sccs : List MtDenseScc) (groupOf : ℕ → Option ℕ) : List (ℕ × ℕ) :=
  (List.range sccs.length).flatMap fun fromScc =>
    (succSccsOf sccs fromScc).filterMap fun toScc =>
      match groupOf fromScc, groupOf toScc with
      | some fm, some tm => if toScc < sccs.length ∧ tm ≠ fm then some (fm, tm) else none
      | _, _ => none

/-- `succSets[i]`. -/
def succSet (edges : List (ℕ × ℕ)) (i : ℕ) : List ℕ :=
  sortUnique ((edges.filter (·.1 = i)).map Prod.snd)

/-- `predSets[i]`. -/
def predSet (edges : List (ℕ × ℕ)) (i : ℕ) : List ℕ :=
  sortUnique ((edges.filter (·.2 = i)).map Prod.fst)

/-- The MTask that collects the given SCCs. -/
def mtaskOfSccs (S : SccSchedule) (edges : List (ℕ × ℕ)) (mtaskId : ℕ) (sccIds : List ℕ) :
    MtDenseMTask where
  sccIds
  predMTasks := predSet edges mtaskId
  succMTasks := succSet edges mtaskId
  staticCost := (sccIds.map fun s => (S.scc s).staticCost).sum
  taskCount := (sccIds.map fun s => (S.scc s).cppIds.length).sum
  workerZeroOnly := sccIds.any fun s => (S.scc s).workerZeroOnly
  schedCost := (sccIds.map fun s => (S.sc s : Int)).sum

section Materialize

variable (S : SccSchedule) (find : ℕ → ℕ)

/-- The keys of `rootIdx`, in the order of their indices. -/
def rootsOf : List ℕ :=
  (List.range S.realN).foldl (fun roots scc =>
    if find scc ∈ roots then roots else roots ++ [find scc]) []

def rootIdx (scc : ℕ) : ℕ := (rootsOf S find).idxOf (find scc)

/-- The edges of `rS` and `rP`. -/
def rootEdges : List (ℕ × ℕ) := crossEdges S.sccs fun scc => some (rootIdx S find scc)

def minScc (i : ℕ) : ℕ :=
  (S.topoSccOrder.filter fun s => rootIdx S find s = i).foldl min (2 ^ 31 - 1)

/-- Smaller `minScc` first, then smaller index. -/
def rootBefore (i j : ℕ) : Bool :=
  minScc S find i < minScc S find j ∨ (minScc S find i = minScc S find j ∧ i < j)

/-- The roots in the order in which they get their ids. -/
def rootOrder : List ℕ :=
  let R := (rootsOf S find).length
  (Kahn.run (succSet (rootEdges S find)) (Kahn.Queue.priority (rootBefore S find)) R
    (Kahn.start R (fun i => (predSet (rootEdges S find) i).length) ())).order

def sccToMTask (scc : ℕ) : Option ℕ :=
  if scc ∈ S.topoSccOrder then some ((rootOrder S find).idxOf (rootIdx S find scc)) else none

/-- `none` is the failed `Assert`. -/
def materialize : Option (List MtDenseMTask) :=
  let R := (rootsOf S find).length
  if (rootOrder S find).length = R then
    some ((List.range R).map fun mi =>
      mtaskOfSccs S (crossEdges S.sccs (sccToMTask S find)) mi
        (S.topoSccOrder.filter fun s => sccToMTask S find s = some mi))
  else none

end Materialize

/-! ## The whole function -/

section VerilatorContract

variable {κ : Type} (S : SccSchedule) (threadCount : ℕ) (k : VContractKnobs) (scoring : Scoring κ)

def vcontractParams : MergeParams κ where
  n := S.realN
  maxMTasks := k.maxMTasks (max 1 threadCount)
  perMTaskCap := k.perMTaskCap S.totalCost (max 1 threadCount)
  sibEnabled := k.sibEnabled
  propagateCp := k.propagateCp
  vcCompact := k.vcCompact
  scoring

/-- The state of the loop after the given turns. -/
def contractionAfter (picks : List ℕ) : MergeState κ :=
  let P := vcontractParams S threadCount k scoring
  mergeLoop P (MergeState.initial P S) picks

def mtBuildDenseMTasksVerilatorContract (picks : List ℕ) : Option (List MtDenseMTask) :=
  if S.realN = 0 then some []
  else materialize S (contractionAfter S threadCount k scoring picks).groups.find

end VerilatorContract

end Gsim
