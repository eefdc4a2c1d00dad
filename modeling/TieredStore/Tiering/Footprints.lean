import TieredStore.Api.WriteService
import TieredStore.Cluster.Footprint
import TieredStore.Cluster.Places

/-!
# The calls of the processors and of the write service

Which calls each job makes: blobs are stored under keys of the job's own object, and rows are
written for nodes that were picked from the healthy ones.
-/

namespace TieredStore.Cluster

open Lib Lib.Prog Lib.Bytes Meta Tiering Api

/-- A node id that a job picked. -/
structure Picked (n : GoString) : Prop where
  ne_nil : n ≠ []
  trimmed : Trimmed n

theorem picked_of_select {score : GoString → GoString → UInt64} {key n : GoString}
    {nodes : List GoString} {count : Int} (h : n ∈ selectByRendezvous score key nodes count) :
    Picked n := by
  obtain ⟨hne, n', -, rfl⟩ := mem_selectByRendezvous h
  exact ⟨hne, trimmed_trimSpace n'⟩

theorem picked_of_pick {d : Deps} {key n : GoString} {healthy used : List GoString} {need : Int}
    (h : n ∈ pickRepairTargetNodes d key healthy used need) : Picked n := by
  unfold pickRepairTargetNodes at h
  split at h
  · simp at h
  · dsimp only at h
    split at h
    · exact picked_of_select h
    · rcases List.mem_append.mp h with h | h <;> exact picked_of_select h

variable {A : Call → Prop} {R : (c : Call) → c.Answer → Prop} {d : Deps} {o : GoString} {v : Int}
  {task : TaskRecord}

/-! ## Repair -/

section Repair

theorem within_writeSingleBlob {n k : GoString} {payload : Blob} (hA : A (.store n k payload)) :
    Within A R (writeSingleBlob n k payload) fun _ => True := by
  refine within_store hA fun reply => ?_
  split <;> exact within_pure trivial

theorem within_fetchFromActiveReplicas (hA : ∀ c, c.Passive → A c) (rs : List ReplicaLocation) :
    Within A R (fetchFromActiveReplicas o v rs) fun _ => True := by
  induction rs with
  | nil => exact within_fail
  | cons r rest ih =>
    refine within_retrieve (hA _ trivial) fun reply => ?_
    split
    · exact ih
    · exact within_pure trivial
    · split
      · refine within_retrieve (hA _ trivial) fun reply => ?_
        split
        · exact within_pure trivial
        · exact ih
      · exact ih

theorem within_writeReplicas {payload : Blob} {ns : List GoString}
    (hstore : ∀ n ∈ ns, A (.store n (replicaBlobKey o v []) payload)) :
    Within A R (writeReplicas o v payload ns) fun out => ∀ n ∈ out, n ∈ ns := by
  induction ns with
  | nil => exact within_pure (by simp)
  | cons n rest ih =>
    have hrest := ih fun n' hn' => hstore n' (List.mem_cons_of_mem _ hn')
    refine (within_writeSingleBlob (hstore n List.mem_cons_self)).bind fun result _ => ?_
    refine hrest.bind fun out hout => within_pure fun n' hn' => ?_
    cases result with
    | ok _ =>
      rcases List.mem_cons.mp hn' with rfl | hn'
      · exact List.mem_cons_self
      · exact List.mem_cons_of_mem _ (hout n' hn')
    | error e => exact List.mem_cons_of_mem _ (hout n' hn')

theorem within_processHOTRepair (hA : ∀ c, c.Passive → A c)
    (hstore : ∀ n data, Picked n →
      A (.store n (replicaBlobKey task.objectID task.version []) data))
    (hplace : ∀ ns, (∀ n ∈ ns, Picked n) →
      A (.repo (.upsertReplicaLocations task.objectID task.version ns))) :
    Within A R (processHOTRepair d task) fun _ => True := by
  refine within_repo (hA _ trivial) fun rs _ => ?_
  dsimp only
  generalize (if d.cfg.hotReplicaCount ≤ 0 then (1 : Int) else d.cfg.hotReplicaCount) = target
  split_ifs
  · exact within_fail
  · exact within_pure trivial
  refine within_listHealthyNodeIDs (hA _ trivial) fun healthy => ?_
  split_ifs
  · exact within_fail
  · exact within_fail
  refine (within_fetchFromActiveReplicas hA rs).bind fun payload _ => ?_
  refine (within_writeReplicas fun n hn => hstore n payload (picked_of_pick hn)).bind
    fun repaired hrepaired => ?_
  split_ifs
  · exact within_fail
  · exact within_repo (hplace _ fun n hn => picked_of_pick (hrepaired n hn)) fun _ _ => within_fail
  · exact within_repo (hplace _ fun n hn => picked_of_pick (hrepaired n hn)) fun _ _ =>
      within_pure trivial

theorem within_fetchShards (hA : ∀ c, c.Passive → A c) (locs : List (Nat × ECShardLocation))
    (shards : List (Option Blob)) : Within A R (fetchShards locs shards) fun _ => True := by
  induction locs generalizing shards with
  | nil => exact within_pure trivial
  | cons q rest ih =>
    simp only [fetchShards, fetchSingleBlob, bind_assoc]
    refine within_retrieve (hA _ trivial) fun reply => ?_
    split
    · exact ih _
    · exact ih _

theorem within_writeMissing {shards : List (Option Blob)} {targets : List (Nat × GoString)}
    (hnodes : ∀ q ∈ targets, Picked q.2)
    (hstore : ∀ n i data, Picked n → A (.store n (chunkKey o i) data)) :
    Within A R (writeMissing o shards targets) fun locs =>
      ∀ loc ∈ locs, ShardPlace o loc.shardIndex loc.nodeID loc.path := by
  induction targets with
  | nil => exact within_pure (by simp)
  | cons q rest ih =>
    obtain ⟨i, n⟩ := q
    have hn : Picked n := hnodes _ List.mem_cons_self
    have hrest := ih fun q hq => hnodes q (List.mem_cons_of_mem _ hq)
    unfold writeMissing
    dsimp only
    split_ifs
    · exact within_fail
    refine (within_writeSingleBlob (hstore n i _ hn)).bind fun result _ => ?_
    split
    · exact within_fail
    refine hrest.bind fun locs hlocs => within_pure fun loc hloc => ?_
    rcases List.mem_cons.mp hloc with rfl | hloc
    · exact ⟨hn.ne_nil, rfl⟩
    · exact hlocs loc hloc

theorem within_wrapped {α : Type} {what : GoString} {x : Except GoError α} :
    Within A R (wrapped what x) fun _ => True := by
  cases x with
  | ok a => exact within_pure trivial
  | error e => exact within_fail

theorem within_processECRepair (hA : ∀ c, c.Passive → A c)
    (hstore : ∀ n i data, Picked n → A (.store n (chunkKey task.objectID i) data))
    (hpromote : ∀ checksum k m locs,
      (∀ loc ∈ locs, ShardPlace task.objectID loc.shardIndex loc.nodeID loc.path) →
      A (.repo (.promoteObjectVersionToEC task.objectID task.version checksum k m locs))) :
    Within A R (processECRepair d task) fun _ => True := by
  refine within_repo (hA _ trivial) fun view _ => ?_
  split
  · exact within_pure trivial
  split
  · exact within_pure trivial
  split_ifs
  · exact within_pure trivial
  · exact within_pure trivial
  unfold repairShards
  dsimp only
  split_ifs
  · exact within_fail
  · exact within_pure trivial
  refine within_schedule (hA _ trivial) fun active _ => ?_
  refine (within_fetchShards hA _ _).bind fun fetched _ => ?_
  split_ifs
  · exact within_fail
  refine within_wrapped.bind fun shards _ => ?_
  refine within_listHealthyNodeIDs (hA _ trivial) fun healthy => ?_
  split_ifs
  · exact within_fail
  · exact within_fail
  refine (within_writeMissing (fun q hq => picked_of_pick (List.of_mem_zip hq).2) hstore).bind
    fun locs hlocs => ?_
  exact within_repo_last (hpromote _ _ _ _ hlocs)

theorem within_processReplicationRepair (hA : ∀ c, c.Passive → A c)
    (hstore : ∀ n data, Picked n →
      A (.store n (replicaBlobKey task.objectID task.version []) data))
    (hplace : ∀ ns, (∀ n ∈ ns, Picked n) →
      A (.repo (.upsertReplicaLocations task.objectID task.version ns)))
    (hstore' : ∀ n i data, Picked n → A (.store n (chunkKey task.objectID i) data))
    (hpromote : ∀ checksum k m locs,
      (∀ loc ∈ locs, ShardPlace task.objectID loc.shardIndex loc.nodeID loc.path) →
      A (.repo (.promoteObjectVersionToEC task.objectID task.version checksum k m locs))) :
    Within A R (processReplicationRepair d task) fun _ => True := by
  refine within_repo (hA _ trivial) fun snap _ => ?_
  split
  · exact within_pure trivial
  split_ifs
  · exact within_pure trivial
  split
  · exact within_processHOTRepair hA hstore hplace
  · exact within_processECRepair hA hstore' hpromote

end Repair

/-! ## Writes -/

section Writes

variable {nodes : List GoString} {key path : GoString} {value : Blob}

theorem within_awaitQuorum {quorum : Int} {arrivals written : List GoString}
    (hstore : ∀ n ∈ arrivals, A (.store n path value)) :
    Within A R (awaitQuorum quorum path value arrivals written) fun out =>
      (∀ n ∈ out.1, n ∈ written ∨ n ∈ arrivals) ∧ ∀ n ∈ out.2, n ∈ arrivals := by
  induction arrivals generalizing written with
  | nil => exact within_pure ⟨fun n hn => Or.inl hn, by simp⟩
  | cons nodeURL rest ih =>
    have hrest := fun written => @ih written fun n hn => hstore n (List.mem_cons_of_mem _ hn)
    unfold awaitQuorum
    split_ifs
    · refine within_store (hstore nodeURL List.mem_cons_self) fun reply =>
        (hrest _).mono fun out hout => ⟨fun n hn => ?_, fun n hn =>
          List.mem_cons_of_mem _ (hout.2 n hn)⟩
      rcases hout.1 n hn with hn | hn
      · split at hn
        · rcases List.mem_append.mp hn with hn | hn
          · exact Or.inl hn
          · exact Or.inr (List.mem_cons.mpr (Or.inl (List.mem_singleton.mp hn)))
        · exact Or.inl hn
      · exact Or.inr (List.mem_cons_of_mem _ hn)
    · exact within_pure ⟨fun n hn => Or.inl hn, fun n hn => hn⟩

theorem within_finalizeMetadata {md : Metadata}
    (hcommit : A (.repo (.upsertNormalizedMetadata key md))) :
    Within A R (finalizeMetadata key md) fun _ => True := by
  refine within_repo_attempt hcommit fun r _ => ?_
  cases r with
  | ok _ => exact within_pure trivial
  | error e => exact within_fail

theorem within_writeReplication {cfg : Config} {extraMeta : Metadata}
    (hA : ∀ c, c.Passive → A c)
    (hstore : ∀ (now : Time), ∀ n ∈ nodes,
      A (.store n (replicaBlobKey key now.unixNano []) value))
    (hcommit : ∀ (now : Time) ns isDirty, R .now now → (∀ n ∈ ns, n ∈ nodes) →
      A (.repo (.upsertNormalizedMetadata key (replicationMetadata now.unixNano
        (replicaBlobKey key now.unixNano []) value.length ns extraMeta isDirty)))) :
    Within A R (writeReplication cfg nodes key value extraMeta) fun result =>
      result.hotReplicaPath = replicaBlobKey key result.version [] ∧
        (∃ now : Time, R .now now ∧ result.version = now.unixNano) ∧
        ∀ n ∈ result.late, n ∈ nodes := by
  unfold writeReplication
  split_ifs
  · exact within_fail
  refine within_now (hA _ trivial) fun now hnow => ?_
  refine within_schedule (hA _ trivial) fun arrivals hperm => ?_
  have hmem : ∀ n ∈ arrivals, n ∈ nodes := fun n hn => hperm.mem_iff.mp hn
  refine (within_awaitQuorum fun n hn => hstore now n (hmem n hn)).bind fun out hout => ?_
  obtain ⟨written, late⟩ := out
  dsimp only at hout ⊢
  have hwritten : ∀ n ∈ written, n ∈ nodes := fun n hn =>
    hmem n ((hout.1 n hn).resolve_left (by simp))
  split
  · exact within_fail
  · refine (within_finalizeMetadata (hcommit now written _ hnow hwritten)).bind fun _ _ => ?_
    exact within_pure ⟨rfl, ⟨now, hnow, rfl⟩, fun n hn => hmem n (hout.2 n hn)⟩

end Writes

/-! ## Late replica writes -/

section Late

theorem within_lateSuccesses {path : GoString} {value : Blob} {ns : List GoString}
    (hstore : ∀ n ∈ ns, A (.store n path value)) :
    Within A R (lateSuccesses path value ns) fun out => ∀ n ∈ out, n ∈ ns := by
  induction ns with
  | nil => exact within_pure (by simp)
  | cons n rest ih =>
    have hrest := ih fun n' hn' => hstore n' (List.mem_cons_of_mem _ hn')
    refine within_store (hstore n List.mem_cons_self) fun reply => ?_
    refine hrest.bind fun out hout => within_pure fun n' hn' => ?_
    split at hn'
    · rcases List.mem_cons.mp hn' with rfl | hn'
      · exact List.mem_cons_self
      · exact List.mem_cons_of_mem _ (hout n' hn')
    · exact List.mem_cons_of_mem _ (hout n' hn')

theorem within_observeLate {late : List GoString} {path : GoString} {value : Blob}
    (hA : ∀ c, c.Passive → A c) (hstore : ∀ n ∈ late, A (.store n path value))
    (hplace : ∀ ns, (∀ n ∈ ns, n ∈ late) → A (.repo (.upsertReplicaLocations o v ns))) :
    Within A R (observeLateHotReplicaWrites late path value o v) fun _ => True := by
  refine (within_lateSuccesses hstore).bind fun ns hns => ?_
  split_ifs
  · exact within_pure trivial
  refine within_repo_attempt (hA _ trivial) fun r _ => ?_
  obtain e | (_ | snap) := r
  · exact within_pure trivial
  · exact within_pure trivial
  dsimp only
  split_ifs
  · exact within_pure trivial
  · exact within_repo_attempt (hplace ns hns) fun _ _ => within_pure trivial

end Late

end TieredStore.Cluster
