/-
  Gsim/PureBatchMerge.lean
  ========================
  **A batch of pure tasks runs like the scan.**

  The slices of the workers, and the shards of a slice, are the ids of the batch in
  order.  The pool and the scan follow the same threads, which end in one way only, so
  both leave the same nodes and have made the same activations, task by task.  The merge
  adds up the copies of the active word and the lists of the workers, the scan has added
  everything to the word and the flags at once: the flags are the same
  (`planMtPureBatches_runsAlike`).
-/
import Gsim.PureBatchSound

namespace Gsim.PureBatches

open ObsElision (Action InstInfo Reads)
open BranchStreams (Inst)
open ActiveMasks FlagBytes DisjointThreads

namespace EmitGraph

variable {V Out : Type} {G : EmitGraph V Out}

/-! ## Chunks -/

theorem flatMap_range'_append (f : ℕ → List ℕ) (a m n : ℕ) :
    (List.range' a (m + n)).flatMap f = (List.range' a m).flatMap f ++ (List.range' (a + m) n).flatMap f := by
  rw [← List.range'_append_1, List.flatMap_append]

/-- The shards up to one of them. -/
theorem flatMap_shardIds {lo hi : ℕ} (hlt : lo < hi) (hhi : hi ≤ G.superId) (m : ℕ)
    (hm : lo / 256 + m ≤ (hi - 1) / 256) :
    (List.range' (lo / 256) (m + 1)).flatMap (fun shard =>
      if shard < G.mtPureBatchShardCount then G.shardIds lo hi shard else []) =
      List.range' lo (min hi ((lo / 256 + m + 1) * 256) - lo) := by
  have hshard : ∀ shard, lo / 256 ≤ shard → shard ≤ (hi - 1) / 256 →
      (if shard < G.mtPureBatchShardCount then G.shardIds lo hi shard else []) =
        List.range' (max lo (shard * 256)) (min hi (shard * 256 + 256) - max lo (shard * 256)) := by
    intro shard hle hge
    have hexists : shard < G.mtPureBatchShardCount := by
      unfold mtPureBatchShardCount
      omega
    have hmeets : ¬ (hi ≤ shard * 256 ∨ min G.superId (shard * 256 + 256) ≤ lo) := by omega
    rw [if_pos hexists, shardIds]
    simp only [if_neg hmeets]
    congr 1
    omega
  induction m with
  | zero =>
    rw [List.range'_one, List.flatMap_singleton, hshard _ le_rfl (by omega)]
    have hmax : max lo (lo / 256 * 256) = lo := by omega
    have hend : lo / 256 * 256 + 256 = (lo / 256 + 0 + 1) * 256 := by omega
    rw [hmax, hend]
  | succ m ih =>
    rw [flatMap_range'_append _ _ (m + 1) 1, ih (by omega), List.range'_one, List.flatMap_singleton,
      hshard _ (by omega) (by omega)]
    have hnext : max lo ((lo / 256 + (m + 1)) * 256) = lo + (min hi ((lo / 256 + m + 1) * 256) - lo) := by
      omega
    rw [hnext, List.range'_append_1]
    congr 1
    omega

/-- The shards of a chunk are the ids of the chunk. -/
theorem rangeIds_eq {lo hi : ℕ} (hhi : lo < hi → hi ≤ G.superId) : G.rangeIds lo hi = List.range' lo (hi - lo) := by
  unfold rangeIds
  split
  · rename_i hle
    rw [Nat.sub_eq_zero_of_le hle]
    rfl
  · rename_i hlt
    simp only
    have hcount : (hi - 1) / 256 + 1 - lo / 256 = ((hi - 1) / 256 - lo / 256) + 1 := by omega
    rw [hcount, flatMap_shardIds (by omega) (hhi (by omega)) _ (by omega)]
    congr 1
    omega

theorem slice_range' (b lo : ℕ) {n hi : ℕ} (hn : hi ≤ n) :
    TaskPool.slice (List.range' b n) lo hi = List.range' (b + lo) (hi - lo) := by
  rw [TaskPool.slice, List.take_range'_of_length_ge hn, List.drop_range', Nat.mul_one]

/-- The slices of the workers are the batch. -/
theorem chunks_of_pool {batch : ℕ × ℕ} {tasks : TaskMap} (hinside : batch.2 ≤ G.superId)
    (hdispatched : ∀ t, batch.1 ≤ t → t < batch.2 → dispatched tasks t = true) {workerCount : ℕ}
    (hworkers : 0 < workerCount) : Chunks batch tasks (G.chunkIds batch workerCount) workerCount where
  some := hworkers
  dispatched := hdispatched
  all := by
    have hlength : (List.range' batch.1 (batch.2 - batch.1)).length = batch.2 - batch.1 := List.length_range'
    have hslices := TaskPool.flatMap_slices (List.range' batch.1 (batch.2 - batch.1)) hworkers
    rw [hlength] at hslices
    apply Eq.trans _ hslices
    apply List.flatMap_congr
    intro k hk
    have hcut : TaskPool.cut (batch.2 - batch.1) workerCount (k + 1) ≤ batch.2 - batch.1 := by
      apply Nat.div_le_of_le_mul
      rw [Nat.mul_comm workerCount]
      exact Nat.mul_le_mul_left _ (List.mem_range.mp hk)
    rw [slice_range' batch.1 _ hcut, chunkIds, rangeIds_eq (by omega)]
    congr 1
    omega

/-- One worker that has the whole batch. -/
theorem chunks_of_scan {batch : ℕ × ℕ} {tasks : TaskMap}
    (hdispatched : ∀ t, batch.1 ≤ t → t < batch.2 → dispatched tasks t = true) :
    Chunks batch tasks (fun _ => List.range' batch.1 (batch.2 - batch.1)) 1 where
  some := Nat.one_pos
  dispatched := hdispatched
  all := by simp

/-! ## Pools end -/

section Ending

variable [DecidableEq V] {σ : Type} {sink : Sink σ} {tasks : TaskMap} {workerCount : ℕ} {p p' : Pool V σ}

/-- The steps that a worker has before it. -/
def Worker.left (G : EmitGraph V Out) (w : Worker V σ) : ℕ :=
  (w.todo.map fun t => (G.lines t).length + 2).sum +
    match w.cur with
    | none => 0
    | some (t, run) => (G.lines t).length - run.pc + 1

omit [DecidableEq V] in
theorem Worker.left_of_cur {todo : List ℕ} {t : ℕ} {run : TaskRun V} {flag : BitVec 8} {active : σ} :
    (Worker.mk todo (some (t, run)) flag active).left G =
      (todo.map fun t => (G.lines t).length + 2).sum + ((G.lines t).length - run.pc + 1) := rfl

theorem stepWorker_left {w w' : Worker V σ} {env env' : ℕ → V}
    (h : G.stepWorker sink tasks w env = some (w', env')) : w'.left G < w.left G := by
  obtain ⟨todo, cur, flag, active⟩ := w
  unfold stepWorker at h
  cases cur with
  | some task =>
    obtain ⟨t, run⟩ := task
    simp only at h
    cases hline : G.stepTask t run env with
    | none =>
      simp only [hline, Option.some.injEq, Prod.mk.injEq] at h
      obtain ⟨rfl, -⟩ := h
      simp [Worker.left]
    | some r =>
      obtain ⟨run', env'', e⟩ := r
      simp only [hline, Option.some.injEq, Prod.mk.injEq] at h
      obtain ⟨rfl, -⟩ := h
      obtain ⟨inst, hinst, hrun, -, -⟩ := stepTask_eq_some.mp hline
      obtain ⟨hpc, -⟩ := List.getElem?_eq_some_iff.mp hinst
      have hnext : run'.pc = run.pc + 1 := by rw [hrun]
      rw [Worker.left_of_cur, Worker.left_of_cur, hnext]
      omega
  | none =>
    cases todo with
    | nil => cases h
    | cons t todo =>
      simp only at h
      split at h
      · obtain ⟨rfl, -⟩ := Prod.mk.inj (Option.some.inj h)
        simp only [Worker.left, List.map_cons, List.sum_cons, TaskRun.start]
        omega
      · obtain ⟨rfl, -⟩ := Prod.mk.inj (Option.some.inj h)
        simp only [Worker.left, List.map_cons, List.sum_cons]
        omega

/-- Every step leaves less to do. -/
theorem poolStep_left (h : G.PoolStep sink tasks workerCount p p') :
    ∑ k ∈ Finset.range workerCount, (p'.worker k).left G <
      ∑ k ∈ Finset.range workerCount, (p.worker k).left G := by
  obtain ⟨k, hk, w, env, hstep, rfl⟩ := h
  have hless := stepWorker_left hstep
  apply Finset.sum_lt_sum
  · intro j _
    by_cases hjk : j = k
    · subst hjk
      simp only [Function.update_self]
      exact hless.le
    · simp only [Function.update_of_ne hjk]
      exact le_rfl
  · refine ⟨k, Finset.mem_range.mpr hk, ?_⟩
    simp only [Function.update_self]
    exact hless

theorem no_infinite_poolRun (run : ℕ → Pool V σ) :
    ¬ ∀ k, G.PoolStep sink tasks workerCount (run k) (run (k + 1)) := by
  intro hrun
  have hbound : ∀ k, (∑ j ∈ Finset.range workerCount, ((run k).worker j).left G) + k ≤
      ∑ j ∈ Finset.range workerCount, ((run 0).worker j).left G := by
    intro k
    induction k with
    | zero => exact le_rfl
    | succ k ih =>
      have hless := poolStep_left (hrun k)
      omega
  have hend := hbound (∑ j ∈ Finset.range workerCount, ((run 0).worker j).left G + 1)
  omega

/-- A pool that has not joined can take a step. -/
theorem step_or_joined (p : Pool V σ) : p.Joined workerCount ∨ ∃ p', G.PoolStep sink tasks workerCount p p' := by
  by_cases hjoined : p.Joined workerCount
  · exact .inl hjoined
  · right
    obtain ⟨k, hk⟩ := not_forall.mp hjoined
    obtain ⟨hk, hbusy⟩ := Classical.not_imp.mp hk
    have hstep : ∃ w env, G.stepWorker sink tasks (p.worker k) p.env = some (w, env) := by
      unfold stepWorker
      cases hcur : (p.worker k).cur with
      | some task =>
        obtain ⟨t, run⟩ := task
        simp only
        cases G.stepTask t run p.env with
        | none => exact ⟨_, _, rfl⟩
        | some r => exact ⟨_, _, rfl⟩
      | none =>
        cases htodo : (p.worker k).todo with
        | nil => exact absurd ⟨hcur, htodo⟩ hbusy
        | cons t todo =>
          simp only
          split
          · exact ⟨_, _, rfl⟩
          · exact ⟨_, _, rfl⟩
    obtain ⟨w, env, hstep⟩ := hstep
    exact ⟨_, k, hk, w, env, hstep, rfl⟩

theorem exists_joined (p : Pool V σ) :
    ∃ p', Relation.ReflTransGen (G.PoolStep sink tasks workerCount) p p' ∧ p'.Joined workerCount := by
  induction hleft : ∑ k ∈ Finset.range workerCount, (p.worker k).left G using Nat.strong_induction_on
    generalizing p with
  | _ n ih =>
    have hcases : p.Joined workerCount ∨ ∃ p', G.PoolStep sink tasks workerCount p p' := step_or_joined p
    rcases hcases with hjoined | ⟨p₁, hstep⟩
    · exact ⟨p, .refl, hjoined⟩
    · obtain ⟨p', hrun, hjoined⟩ := ih _ (hleft ▸ poolStep_left hstep) p₁ rfl
      exact ⟨p', .head hstep hrun, hjoined⟩

end Ending

/-! ## Merging -/

theorem any_congr {l : List ℕ} {f g : ℕ → Bool} (h : ∀ k ∈ l, f k = g k) : l.any f = l.any g := by
  rw [List.any_eq, List.any_eq]
  apply decide_eq_decide.mpr
  exact exists_congr fun k => and_congr_right fun hk => by rw [h k hk]

theorem getLsbD_foldl_or (l : List ℕ) (f : ℕ → BitVec 8) (word : BitVec 8) (i : ℕ) :
    (l.foldl (fun word k => word ||| f k) word).getLsbD i = (word.getLsbD i || l.any fun k => (f k).getLsbD i) := by
  induction l generalizing word with
  | nil => simp
  | cons k l ih => rw [List.foldl_cons, ih, BitVec.getLsbD_or, List.any_cons, Bool.or_assoc]

theorem flag_foldl_mergeInto {activeWords : ℕ} (l : List ℕ) {delta : ℕ → ActivationDelta}
    (inv : ∀ k ∈ l, (delta k).Inv activeWords) (activeFlags : ℕ → BitVec 8) (n : ℕ) :
    flag (l.foldl (fun flags k => (delta k).mergeInto activeWords flags) activeFlags) n =
      (flag activeFlags n || l.any fun k => (delta k).stands activeWords n) := by
  induction l generalizing activeFlags with
  | nil => simp
  | cons k l ih =>
    rw [List.foldl_cons, ih (fun j hj => inv j (List.mem_cons_of_mem _ hj)),
      (inv k List.mem_cons_self).flag_mergeInto, List.any_cons, Bool.or_assoc]

section Merge

variable [DecidableEq V] {tasks : TaskMap} {batch : ℕ × ℕ} {workerCount : ℕ}

/-- Once all workers have joined, the merge gives what the scan gives. -/
theorem mergeWorkers_eq_scan (described : G.Described) (pureBatch : G.PureBatch batch)
    (hinside : batch.2 ≤ G.superId)
    (hdispatched : ∀ t, batch.1 ≤ t → t < batch.2 → dispatched tasks t = true) (hworkers : 0 < workerCount)
    (s : TaskState V (ℕ → BitVec 8)) {p : Pool V ActivationDelta}
    (hrun : Relation.ReflTransGen (G.PoolStep (deltaSink (activeFlagNum G.superId)) tasks workerCount)
      (G.startBatch batch workerCount s.flag s.env) p) (hjoined : p.Joined workerCount) :
    G.mergeWorkers workerCount p s.flag s.active =
      G.scan (directSink (activeFlagNum G.superId)) (List.range' batch.1 (batch.2 - batch.1)) s := by
  have hchunks : Chunks batch tasks (G.chunkIds batch workerCount) workerCount :=
    chunks_of_pool hinside hdispatched hworkers
  have hwhole : Chunks batch tasks (fun _ => List.range' batch.1 (batch.2 - batch.1)) 1 :=
    chunks_of_scan hdispatched
  obtain ⟨a, ha, hsim⟩ := Simulates.pool described pureBatch hchunks s.env hrun
  -- the scan as a pool with one worker
  have hids : ∀ t ∈ List.range' batch.1 (batch.2 - batch.1), dispatched tasks t = true := by
    intro t ht
    obtain ⟨hle, hlt⟩ := List.mem_range'_1.mp ht
    exact hdispatched t hle (by omega)
  have halone : Alone G (directSink (activeFlagNum G.superId)) tasks
      (⟨List.range' batch.1 (batch.2 - batch.1), none, s.flag, s.active⟩, s.env) _ := scan_alone _ hids s
  obtain ⟨q, hqrun, hqworker, hqenv⟩ :=
    halone.pool (p := Pool.start (fun _ => List.range' batch.1 (batch.2 - batch.1)) s.flag s.active s.env) rfl rfl
  obtain ⟨b, hb, hqsim⟩ := Simulates.pool described pureBatch hwhole s.env hqrun
  have hqjoined : q.Joined 1 := by
    intro k hk
    obtain rfl : k = 0 := Nat.lt_one_iff.mp hk
    rw [hqworker]
    exact ⟨rfl, rfl⟩
  -- both have followed the threads to their only end
  obtain rfl : a = b := Threads.final_unique ha hb (hsim.final described pureBatch hchunks hjoined)
    (hqsim.final described pureBatch hwhole hqjoined)
  have hscan := hqsim.workers 0 Nat.one_pos
  have hacts : (List.range workerCount).flatMap (fun k => chunkActs (G.chunkIds batch workerCount k) a.loc) =
      chunkActs (List.range' batch.1 (batch.2 - batch.1)) a.loc := by
    rw [← hchunks.all]
    exact List.flatMap_assoc.symm
  have hwithin : ∀ chunk : List ℕ, (∀ t ∈ chunk, batch.1 ≤ t ∧ t < batch.2) →
      ∀ e ∈ chunkActs chunk a.loc, e.Within G.superId := by
    intro chunk hchunk e he
    obtain ⟨t, ht, het⟩ := List.mem_flatMap.mp he
    exact (hsim.acts t (hchunk t ht).1 (hchunk t ht).2 e het).within described
  have hstands : ∀ k, k < workerCount → (p.worker k).active.Inv (activeFlagNum G.superId) ∧
      ∀ n, (p.worker k).active.stands (activeFlagNum G.superId) n =
        (chunkActs (G.chunkIds batch workerCount k) a.loc).any fun e =>
          e.sets G.alwaysActive (activeFlagNum G.superId) n := by
    intro k hk
    obtain ⟨inv, stands⟩ := deltaSink_lawful.run G.alwaysActive (ActivationDelta.inv_init _)
      (hwithin (G.chunkIds batch workerCount k) fun t ht => hchunks.inside hk ht)
    rw [(hsim.workers k hk).active]
    refine ⟨inv, fun n => (stands n).trans ?_⟩
    simp [ActivationDelta.init, ActivationDelta.stands, entryFlags]
  rw [hqworker] at hscan
  have henv : (G.mergeWorkers workerCount p s.flag s.active).env =
      (G.scan (directSink (activeFlagNum G.superId)) (List.range' batch.1 (batch.2 - batch.1)) s).env :=
    (hsim.env.trans hqsim.env.symm).trans hqenv
  have hflag : (G.mergeWorkers workerCount p s.flag s.active).flag =
      (G.scan (directSink (activeFlagNum G.superId)) (List.range' batch.1 (batch.2 - batch.1)) s).flag := by
    apply BitVec.eq_of_getLsbD_eq
    intro i hi
    rw [mergeWorkers, getLsbD_foldl_or]
    have hcopy : ∀ k ∈ List.range workerCount, (p.worker k).flag.getLsbD i =
        (s.flag.getLsbD i || (chunkActs (G.chunkIds batch workerCount k) a.loc).any (G.setsOwn i)) := by
      intro k hk
      rw [(hsim.workers k (List.mem_range.mp hk)).flag, getLsbD_ownFlags _ _ hi]
    have hword := (congrArg (fun word => word.getLsbD i) hscan.flag).trans (getLsbD_ownFlags s.flag _ hi)
    rw [hword, ← hacts, List.any_flatMap]
    cases hbit : s.flag.getLsbD i with
    | true => rfl
    | false =>
      rw [Bool.false_or, Bool.false_or]
      apply any_congr
      intro k hk
      rw [hcopy k hk, hbit, Bool.false_or]
  have hactive : (G.mergeWorkers workerCount p s.flag s.active).active =
      (G.scan (directSink (activeFlagNum G.superId)) (List.range' batch.1 (batch.2 - batch.1)) s).active := by
    apply ext_flag
    intro n
    rw [mergeWorkers, flag_foldl_mergeInto _ fun k hk => (hstands k (List.mem_range.mp hk)).1]
    have hids' : ∀ t ∈ List.range' batch.1 (batch.2 - batch.1), batch.1 ≤ t ∧ t < batch.2 :=
      fun t ht => hwhole.inside Nat.one_pos ht
    have hdirect := (@Sink.Lawful.run _ _ _ _ G.alwaysActive _ directSink_lawful s.active trivial _
      (hwithin _ hids')).2 n
    have hflags := (congrArg (fun flags => flag flags n) hscan.active).trans hdirect
    rw [hflags, ← hacts, List.any_flatMap]
    congr 1
    apply any_congr
    intro k hk
    exact (hstands k (List.mem_range.mp hk)).2 n
  exact TaskState.ext henv hflag hactive

end Merge

/-! ## Pure batches run like the scan -/

section Main

theorem dispatched_of_canEnter {tasks : TaskMap} {t : ℕ} (h : G.mtTaskCanEnterPureBatch tasks t = true) :
    dispatched tasks t = true := by
  unfold mtTaskCanEnterPureBatch at h
  unfold dispatched
  cases hask : tasks t with
  | none => simp [hask] at h
  | some task =>
    simp only [hask, Bool.and_eq_true] at h
    exact h.1

theorem effectiveWorkerCount_pos (taskCount : ℕ) (configured minBatchTasks : ℤ) :
    0 < effectiveWorkerCount taskCount configured minBatchTasks := by
  unfold effectiveWorkerCount
  generalize hcount : (if (taskCount : ℤ) < minBatchTasks then 1 else configured) = workerCount
  simp only
  split_ifs <;> omega

variable [DecidableEq V]

theorem directTask_scan {tasks : TaskMap} (ids : List ℕ) (hall : ∀ t ∈ ids, dispatched tasks t = true)
    (s : TaskState V (ℕ → BitVec 8)) :
    ids.foldl (G.directTask tasks) s = G.scan (directSink (activeFlagNum G.superId)) ids s := by
  induction ids generalizing s with
  | nil => rfl
  | cons t ids ih =>
    have hfirst : G.directTask tasks s t = G.scanTask (directSink (activeFlagNum G.superId)) s t :=
      if_pos (hall t List.mem_cons_self)
    rw [List.foldl_cons, hfirst]
    exact ih (fun u hu => hall u (List.mem_cons_of_mem _ hu)) _

/-- A batch has one result, that of the scan. -/
theorem runsPureBatch_iff (described : G.Described) {batch : ℕ × ℕ}
    (hbatch : G.IsBatch G.buildMtTaskInfoMap batch) (configured minBatchTasks : ℤ)
    (s s' : TaskState V (ℕ → BitVec 8)) :
    G.RunsPureBatch G.buildMtTaskInfoMap batch configured minBatchTasks s s' ↔
      s' = G.scan (directSink (activeFlagNum G.superId)) (List.range' batch.1 (batch.2 - batch.1)) s := by
  have hdispatched : ∀ t, batch.1 ≤ t → t < batch.2 → dispatched G.buildMtTaskInfoMap t = true :=
    fun t ht ht' => dispatched_of_canEnter (hbatch.enters t ht ht')
  simp only [RunsPureBatch]
  split
  · have hids : ∀ t ∈ List.range' batch.1 (batch.2 - batch.1), dispatched G.buildMtTaskInfoMap t = true := by
      intro t ht
      obtain ⟨hle, hlt⟩ := List.mem_range'_1.mp ht
      exact hdispatched t hle (by omega)
    rw [rangeIds_eq fun _ => hbatch.inside, directTask_scan _ hids]
  · have hmerge := fun p => mergeWorkers_eq_scan (p := p) described (isBatch_pure G hbatch) hbatch.inside
      hdispatched (effectiveWorkerCount_pos (batch.2 - batch.1) configured minBatchTasks) s
    constructor
    · rintro ⟨p, hrun, hjoined, rfl⟩
      exact hmerge p hrun hjoined
    · rintro rfl
      have hends : ∃ p, Relation.ReflTransGen (G.PoolStep (deltaSink (activeFlagNum G.superId))
          G.buildMtTaskInfoMap (effectiveWorkerCount (batch.2 - batch.1) configured minBatchTasks))
          (G.startBatch batch (effectiveWorkerCount (batch.2 - batch.1) configured minBatchTasks) s.flag s.env) p ∧
          p.Joined (effectiveWorkerCount (batch.2 - batch.1) configured minBatchTasks) := exists_joined _
      obtain ⟨p, hrun, hjoined⟩ := hends
      exact ⟨p, hrun, hjoined, (hmerge p hrun hjoined).symm⟩

/-- Whatever the tasks are said to be, both planners make batches of tasks in one word without edges
among them; and for the tasks of the graph every run of a batch, by any number of workers in any
interleaving, comes to an end and leaves the nodes, the active word and the flags as the scan does. -/
theorem planMtPureBatches_runsAlike (described : G.Described) (mode : BatchFormationMode) (threshold : ℤ) :
    (∀ tasks, ∀ batch ∈ (G.planMtPureBatches tasks mode threshold).batches, G.IsBatch tasks batch) ∧
    ∀ batch ∈ (G.planMtPureBatches G.buildMtTaskInfoMap mode threshold).batches,
      ∀ configured minBatchTasks : ℤ,
        (∀ s s', G.RunsPureBatch G.buildMtTaskInfoMap batch configured minBatchTasks s s' ↔
          s' = G.scan (directSink (activeFlagNum G.superId)) (List.range' batch.1 (batch.2 - batch.1)) s) ∧
        ∀ (workerCount : ℕ) (run : ℕ → Pool V ActivationDelta), ¬ ∀ k,
          G.PoolStep (deltaSink (activeFlagNum G.superId)) G.buildMtTaskInfoMap workerCount (run k) (run (k + 1)) := by
  refine ⟨fun tasks => planMtPureBatches_isBatch mode threshold, fun batch hbatch configured minBatchTasks => ?_⟩
  have hisBatch := planMtPureBatches_isBatch mode threshold batch hbatch
  exact ⟨runsPureBatch_iff described hisBatch configured minBatchTasks, fun _ => no_infinite_poolRun⟩

end Main

end EmitGraph

/-! ### Two tasks that wake a third -/

/-- The node `n`, which negates the input and wakes a task. -/
def negation (target : ℕ) : Node :=
  { type := .others, status := .valid, isArray := false, asReset := .empty, reset := .uncertain, regNext := none
    assignTree := [⟨.mk none .OP_NOT [.mk (some 9) .OP_EMPTY []], .null⟩], resetTree := none
    nextActiveId := {target} }

def negate (n : ℕ) : List (InstInfo Bool Unit) :=
  [.act (.assignBeg n), .act (.assign n ⟨[9], fun env => !env 9, fun env env' same => by simp [same]⟩),
    .act (.assignEnd n)]

/-- Nodes 0 and 1 are computed from node 9 by tasks 0 and 1; task 2 is to use them. -/
def twoNegations : EmitGraph Bool Unit where
  node n := negation (if n = 9 then 0 else 2)
  superId := 3
  cppId2Super cppId :=
    if cppId < 2 then
      some { superType := .valid, member := [cppId], resetNode := none, prev := [-1], next := [2], depPrev := [-1]
             depNext := [2], insts := negate cppId }
    else none
  isTrue := id

theorem twoNegations_super {cppId : ℕ} {s : SuperNode Bool Unit}
    (h : twoNegations.cppId2Super cppId = some s) : cppId < 2 ∧ s.member = [cppId] ∧ s.insts = negate cppId := by
  simp only [twoNegations] at h
  split at h
  · rename_i hlt
    obtain rfl := Option.some.inj h
    exact ⟨hlt, rfl, rfl⟩
  · cases h

theorem twoNegations_described : twoNegations.Described where
  member_unique i j s t hs ht n hn hn' := by
    rw [(twoNegations_super hs).2.1, List.mem_singleton] at hn
    rw [(twoNegations_super ht).2.1, List.mem_singleton] at hn'
    exact hn.symm.trans hn'
  prev i s hs n hn _ p hp j t ht hmem _ := by
    rw [(twoNegations_super ht).2.1, List.mem_singleton] at hmem
    have hinput : p = 9 := by
      have hrelies : (twoNegations.node n).relies = [9] := rfl
      rw [hrelies] at hp
      exact List.mem_singleton.mp hp
    have hj := (twoNegations_super ht).1
    omega
  depNext i s hs n hn htype := by cases htype
  activeIds i s hs n hn id hid := by
    have htarget : id = 0 ∨ id = 2 := by
      simp only [twoNegations, negation, Finset.mem_singleton] at hid
      split at hid
      · exact .inl hid
      · exact .inr hid
    have hsuper : twoNegations.superId = 3 := rfl
    omega
  owned i s hs _ a ha := by
    obtain ⟨-, hmember, hinsts⟩ := twoNegations_super hs
    rw [hmember, List.mem_singleton]
    rw [hinsts] at ha
    simp only [negate, List.mem_cons, Inst.act.injEq, List.not_mem_nil, or_false] at ha
    rcases ha with rfl | rfl | rfl <;> rfl
  named i s hs _ inst hinst p hp := by
    obtain ⟨-, hmember, hinsts⟩ := twoNegations_super hs
    rw [hinsts] at hinst
    simp only [negate, List.mem_cons, List.not_mem_nil, or_false] at hinst
    refine .inr ⟨i, by rw [hmember]; simp, ?_⟩
    rcases hinst with rfl | rfl | rfl
    · cases hp
    · exact hp
    · cases hp

theorem twoNegations_plan :
    (twoNegations.planMtPureBatches twoNegations.buildMtTaskInfoMap .legacy 0).batches = [(0, 2)] := by
  have hwhole : twoNegations.mtActiveWordIsWhole 0 = true := by decide
  have henter : twoNegations.mtTaskCanEnterPureBatch twoNegations.buildMtTaskInfoMap 0 = true := by decide
  have hjoin : twoNegations.mtTaskCanJoinPureBatch twoNegations.buildMtTaskInfoMap [0] 1 = true := by decide
  have hlast : twoNegations.mtTaskCanEnterPureBatch twoNegations.buildMtTaskInfoMap 2 = false := by decide
  have hnext : twoNegations.mtTaskCanJoinPureBatch twoNegations.buildMtTaskInfoMap [0, 1] 2 = false := by decide
  have hid : twoNegations.superId = 3 := rfl
  simp [EmitGraph.planMtPureBatches, EmitGraph.planMtPureBatchesLegacy, EmitGraph.planLegacyFrom,
    EmitGraph.growBatch, EmitGraph.wordLimit, hwhole, henter, hjoin, hlast, hnext, hid]

/-- Both tasks are flagged, the input is low. -/
def bothFlagged : EmitGraph.TaskState Bool (ℕ → BitVec 8) := ⟨fun _ => false, 3, fun _ => 0⟩

/-- Two workers, one for each task, both of which wake task 2. -/
theorem twoNegations_runsAlike :
    let after := twoNegations.scan (directSink (activeFlagNum 3)) [0, 1] bothFlagged
    twoNegations.RunsPureBatch twoNegations.buildMtTaskInfoMap (0, 2) 2 0 bothFlagged after ∧
      after.env 0 = true ∧ after.env 1 = true ∧ after.flag = 7 := by
  have hmem : (0, 2) ∈ (twoNegations.planMtPureBatches twoNegations.buildMtTaskInfoMap .legacy 0).batches := by
    rw [twoNegations_plan]
    exact List.mem_singleton.mpr rfl
  have hruns := ((EmitGraph.planMtPureBatches_runsAlike twoNegations_described .legacy 0).2 (0, 2) hmem 2 0).1
  refine ⟨(hruns bothFlagged _).mpr rfl, ?_, ?_, ?_⟩
  · decide +kernel
  · decide +kernel
  · decide +kernel

end Gsim.PureBatches
