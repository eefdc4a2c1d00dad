import TieredStore.Api.Objects
import TieredStore.Tiering.EcRepair

/-!
# Migration on a healthy cluster

When every call is answered and there are enough nodes, the migration of a HOT version that nothing
interrupts gets through: it marks the object, reads a replica, writes all shards to different nodes,
promotes the version and enqueues the deletion of the replicas. The one thing that can stop it is
the encoder, which rejects an empty byte string; an empty object can be stored, but it can never be
migrated (`migration_succeeds_iff`).
-/

namespace TieredStore.Tiering

open Lib Lib.Prog Lib.Bytes Meta Cluster
open TaskCoherence (taskRow)

/-! ## Calls of a migration -/

section Repository

variable {P : GoString → Prop} {s : Store} {o : GoString} {v : Int} {obj : ObjectRecord}
  {ver : ObjectVersionRecord}

/-- The head row of a current version that is not in tier EC is marked. -/
theorem atomically_markObjectMigrating (hP : Separated P) (hs : Rows P s)
    (hhead : (catalog s).head o = some obj) (hcurrent : obj.currentVersion = v)
    (hstate : obj.state ≠ .ecActive) (now : Time) :
    ∃ s', atomically (markObjectMigrating now o v) s = (.ok (), s') ∧ Rows P s' ∧
      catalog s' = (catalog s).setHead { obj with state := .migrating, updatedAt := now } := by
  have hread : atomically (getObjectRecord (tiKVObjectKey o)) s = (.ok (some obj), s) := by
    rw [← bind_pure (getObjectRecord _), atomically_getObjectRecord hs.typed, hhead]
    rfl
  have hrun : (atomically (markObjectMigrating now o v) s).1 = .ok () := by
    unfold markObjectMigrating
    rw [atomically_attempt hread]
    dsimp only
    rw [if_neg (not_not.mpr hcurrent)]
    cases hcase : obj.state with
    | ecActive => exact absurd hcase hstate
    | _ => rfl
  have hdone := (markObjectMigrating_alone hP hs now o v).step_run (J := fun _ => True)
    (fun _ _ _ _ _ _ => trivial) hs trivial
  refine ⟨_, Prod.ext hrun rfl, hdone.2.1, ?_⟩
  have hmakes := hdone.1
  rw [show ((markObjectMigrating now o v).run kvHandler s).1 = _ from hrun] at hmakes
  have hmakes : Makes (.mark now o v) (catalog s)
    (catalog ((markObjectMigrating now o v).run kvHandler s).2) := hmakes
  change catalog ((markObjectMigrating now o v).run kvHandler s).2 = _
  generalize catalog ((markObjectMigrating now o v).run kvHandler s).2 = c' at hmakes
  cases hmakes with
  | mark now head current state =>
    cases hhead.symm.trans head
    rfl

/-- A promotion of a current version gets through. -/
theorem atomically_promoteObjectVersionToEC (hs : Rows P s)
    (hhead : (catalog s).head o = some obj) (hcurrent : obj.currentVersion = v)
    (hversion : (catalog s).version o v = some ver) {locs : List ECShardLocation}
    (hlocs : locs ≠ []) (now : Time) (checksum : GoString) (k m : Int) :
    atomically (promoteObjectVersionToEC now o v checksum k m locs) s =
      (.ok (), s.applyAll (promoteBatch now o v checksum k m locs obj ver)) := by
  have hread : atomically (getObjectRecord (tiKVObjectKey o)) s = (.ok (some obj), s) := by
    rw [← bind_pure (getObjectRecord _), atomically_getObjectRecord hs.typed, hhead]
    rfl
  have hread' : atomically (getObjectVersionRecord (tiKVObjectVersionKey o v)) s =
      (.ok (some ver), s) := by
    rw [← bind_pure (getObjectVersionRecord _), atomically_getObjectVersionRecord hs.typed, hversion]
    rfl
  unfold promoteObjectVersionToEC
  rw [if_neg hlocs, atomically_attempt hread]
  dsimp only
  rw [if_neg (not_not.mpr hcurrent), atomically_attempt hread']
  exact atomically_commit _ s

theorem atomically_enqueueGC (hs : Rows P s) (clocks : Nat → Time) (now : Time) :
    ∃ s', atomically
        (enqueueTieringTask (clocks 0) (clocks 1) (gcTaskID o v) o v (lit "GC") 90 now) s =
          (.ok (), s') ∧
      catalog s' = catalog s ∧ ∃ rec, taskRow s' (gcTaskID o v) = some rec := by
  have hany : Rows TaskCoherence.AnyID s := hs.mono fun _ _ => trivial
  have hresult := @TaskMoves.enqueueTieringTask_result s (clocks 0) (clocks 1) (gcTaskID o v) o
    (lit "GC") v 90 hany (by simp [gcTaskID, lit]) now
  have hrun := hresult.step_run (J := fun s' => catalog s' = catalog s) (fun s₁ s₂ _ _ hstep h =>
    (taskStep_catalog hstep).trans h) hany rfl
  exact ⟨_, Prod.ext hrun.1.1 rfl, hrun.2.2, hrun.1.2⟩

end Repository

/-! ## The situation -/

/-- A current HOT version whose ACTIVE replicas, of which there is one at least, hold `B`. -/
structure HotVersion (w : World) (o : GoString) (v : Int) (B : Blob) : Prop where
  named : o ≠ []
  head : ∃ obj, (catalog w.records).head o = some obj ∧ obj.currentVersion = v ∧
    obj.state ≠ .ecActive
  version : ∃ ver, (catalog w.records).version o v = some ver ∧ ver.tier = .hot
  placed : ∃ r, (catalog w.records).replica o v r.nodeID = some r ∧ r.status = .active
  stored : ∀ r, (catalog w.records).replica o v r.nodeID = some r → r.status = .active →
    r.nodeID ≠ [] ∧ w.blobs r.nodeID (replicaBlobKey o v r.path) = some B

/-- The version is in tier EC, `n` ACTIVE shard rows name different nodes, and the task that deletes
the replicas is enqueued. -/
structure Migrated (o : GoString) (v : Int) (n : Nat) (s : Store) : Prop where
  tier : ∃ ver, (catalog s).version o v = some ver ∧ ver.tier = .ec
  shards : ∃ nodes : List GoString, nodes.length = n ∧ nodes.Nodup ∧
    ∀ (i : Nat) n, nodes[i]? = some n → ∃ r, ActiveShard s o v i r ∧ r.nodeID = n
  collected : ∃ rec, taskRow s (gcTaskID o v) = some rec

section Jobs

variable {P : GoString → Prop} {d : Deps} {healthy : List GoString} {w : World} {o : GoString}
  {v : Int} {B : Blob} {β : Type} {Q : Except GoError β → World → Prop}

/-- The first replica is read. -/
theorem answered_fetchFromAnyReplica {rs : List ReplicaLocation} (hne : rs ≠ []) (ho : o ≠ [])
    (hstored : ∀ r ∈ rs, r.nodeID ≠ [] ∧ w.blobs r.nodeID (replicaBlobKey o v r.path) = some B)
    {f : Blob → Job β} (h : (f B).Obeys (answered d.cfg healthy) Q w) :
    (fetchFromAnyReplica rs healthy o v >>= f).Obeys (answered d.cfg healthy) Q w := by
  obtain ⟨r, rest, rfl⟩ := List.exists_cons_of_ne_nil hne
  obtain ⟨hnode, hblob⟩ := hstored r List.mem_cons_self
  have hkey := @replicaBlobKey_ne_nil o v r.path ho
  simp only [fetchFromAnyReplica, fetchPlaces, List.flatMap_cons, List.cons_append, fetchFirst,
    tryFetch, if_neg (not_or.mpr ⟨hnode, hkey⟩), bind_assoc]
  exact answered_retrieve (by simp [unaddressed, hnode, hkey]) hblob h

theorem answered_writeJobs {jobs : List ((GoString × Blob) × Nat)}
    (hnodes : ∀ q ∈ jobs, q.1.1 ≠ []) : (writeJobs o jobs).Obeys (answered d.cfg healthy)
      (fun out w' => w'.records = w.records ∧ out = .ok (jobs.map fun q =>
        (⟨q.2, q.1.1, chunkKey o q.2, .active⟩ : ECShardLocation))) w := by
  induction jobs generalizing w with
  | nil => exact ⟨rfl, rfl⟩
  | cons q jobs ih =>
    obtain ⟨⟨n, payload⟩, i⟩ := q
    have hn : n ≠ [] := hnodes _ List.mem_cons_self
    simp only [writeJobs, writeSingleShard, if_neg hn, bind_assoc]
    refine answered_store (by simp [unaddressed, hn, chunkKey_ne_nil]) ?_
    refine (ih fun q hq => hnodes q (List.mem_cons_of_mem _ hq)).bind ?_ ?_
    · rintro e w' ⟨-, ⟨⟩⟩
    · rintro locs w' ⟨hrecords, hlocs⟩
      cases hlocs
      exact ⟨hrecords, rfl⟩

/-- All shards are written, and the locations are those of the shards. -/
theorem answered_writeShards {nodes : List GoString} {ss : List Blob} (hnodes : [] ∉ nodes) :
    (writeShards nodes o ss).Obeys (answered d.cfg healthy)
      (fun out w' => w'.records = w.records ∧ ∃ locs, out = .ok locs ∧
        locs.Perm ((shardJobs nodes ss).map fun q =>
          (⟨q.2, q.1.1, chunkKey o q.2, .active⟩ : ECShardLocation))) w := by
  unfold writeShards
  refine answered_schedule fun jobs hperm => ?_
  refine (@answered_writeJobs d healthy w o jobs fun q hq => ?_).bind ?_ ?_
  · have hmem := List.mem_map_of_mem (f := Prod.fst) (hperm.mem_iff.mp hq)
    rw [shardJobs, List.zipIdx_map_fst] at hmem
    exact fun hnil => hnodes (hnil ▸ (List.of_mem_zip hmem).1)
  · rintro e w' ⟨-, ⟨⟩⟩
  · rintro locs w' ⟨hrecords, hlocs⟩
    cases hlocs
    exact ⟨hrecords, _, rfl, (List.perm_insertionSort _ _).trans (hperm.map _)⟩

theorem encodeShards_ok {ss : List Blob} (h : d.ec.shards B = some ss) :
    encodeShards d B = pure ss := by
  unfold Coder.shards at h
  unfold encodeShards
  cases hsplit : d.ec.split B with
  | error e => simp [hsplit, Except.toOption] at h
  | ok blank =>
    cases hencode : d.ec.encode blank with
    | error e => simp [hsplit, hencode, Except.toOption] at h
    | ok ss' =>
      simp [hsplit, hencode, Except.toOption] at h
      simp [wrapped, hencode, h]

/-- The locations of the shards give a row for each, on different nodes. -/
theorem shards_of_promote (hP : Separated P) {s s' : Store} (hs : Rows P s) {now : Time}
    {checksum : GoString} {k m : Int} {nodes : List GoString} {ss : List Blob}
    (hlen : nodes.length = ss.length) {locs : List ECShardLocation}
    (hlocs : locs.Perm ((shardJobs nodes ss).map fun q =>
      (⟨q.2, q.1.1, chunkKey o q.2, .active⟩ : ECShardLocation)))
    (h : atomically (promoteObjectVersionToEC now o v checksum k m locs) s = (.ok (), s'))
    (i : Nat) (n : GoString) (hi : nodes[i]? = some n) :
    ∃ r, ActiveShard s' o v i r ∧ r.nodeID = n := by
  obtain ⟨hlt, rfl⟩ := List.getElem?_eq_some_iff.mp hi
  have hindices : (locs.map (·.shardIndex)).Nodup := by
    rw [(hlocs.map _).nodup_iff, List.map_map]
    have hnodup : ((shardJobs nodes ss).map (·.2)).Nodup := by
      rw [shardJobs, List.zipIdx_map_snd]
      exact List.nodup_range'
    have hindex := hnodup.map (Nat.cast_injective (R := Int))
    rwa [List.map_map] at hindex
  have hmem : (⟨i, nodes[i], chunkKey o i, .active⟩ : ECShardLocation) ∈ locs := by
    refine hlocs.mem_iff.mpr (List.mem_map.mpr ⟨((nodes[i], ss[i]), i), ?_, rfl⟩)
    refine List.mem_iff_getElem.mpr ⟨i, by simp [shardJobs, hlt, ← hlen], ?_⟩
    simp [shardJobs]
  refine ⟨shardRow o v ⟨i, nodes[i], chunkKey o i, .active⟩, ⟨?_, rfl⟩, rfl⟩
  rw [shard_after_promote hP hs h, show (i : Int) =
    (⟨i, nodes[i], chunkKey o i, .active⟩ : ECShardLocation).shardIndex from rfl,
    lastAt_of_nodup hindices hmem]
  rfl

theorem tier_of_promote (hP : Separated P) {s s' : Store} (hs : Rows P s) {now : Time}
    {checksum : GoString} {k m : Int} {locs : List ECShardLocation}
    (h : atomically (promoteObjectVersionToEC now o v checksum k m locs) s = (.ok (), s')) :
    ∃ ver, (catalog s').version o v = some ver ∧ ver.tier = .ec := by
  have hmakes : Makes (.promote now o v checksum k m locs) (catalog s) (catalog s') :=
    done_promote hP hs h
  generalize catalog s' = c' at hmakes
  cases hmakes with
  | promote now checksum k m hlocs hhead hcurrent hversion =>
    obtain ⟨hid', hv, -⟩ := hs.named.version hversion
    rw [putAll_promoteBatch (hs.named.head hhead).1 hid' hv]
    exact ⟨_, if_pos ⟨rfl, rfl⟩, rfl⟩

end Jobs

/-! ## Runs -/

section Runs

variable {P : GoString → Prop} {d : Deps} {task : TaskRecord} {healthy : List GoString} {w : World}
  {B : Blob}

/-- Once the shards are written, the version is promoted and the deletion is enqueued. -/
theorem answered_finish (hP : Separated P) (hs : Rows P w.records) {o : GoString} {v : Int}
    {obj : ObjectRecord} {ver : ObjectVersionRecord} (hhead : (catalog w.records).head o = some obj)
    (hcurrent : obj.currentVersion = v) (hversion : (catalog w.records).version o v = some ver)
    {nodes : List GoString} {ss : List Blob} (hlen : nodes.length = ss.length)
    (hpos : 0 < ss.length) (hnodup : nodes.Nodup) {locs : List ECShardLocation}
    (hlocs : locs.Perm ((shardJobs nodes ss).map fun q =>
      (⟨q.2, q.1.1, chunkKey o q.2, .active⟩ : ECShardLocation)))
    {checksum : GoString} {k m : Int} :
    (Job.repo (.promoteObjectVersionToEC o v checksum k m locs) >>= fun _ =>
      enqueueReplicationGCTask o v).Obeys (answered d.cfg healthy)
        (fun out w' => out = .ok () ∧ Migrated o v ss.length w'.records) w := by
  have hne : locs ≠ [] := by
    rintro rfl
    have hlength := hlocs.length_eq
    simp [shardJobs, hlen] at hlength
    omega
  refine answered_repo fun clocks => ?_
  have hpromote := @atomically_promoteObjectVersionToEC P w.records o v obj ver hs hhead hcurrent
    hversion locs hne (clocks 1) checksum k m
  have hrows : Rows P
      (w.records.applyAll (promoteBatch (clocks 1) o v checksum k m locs obj ver)) := by
    obtain ⟨hid, hv, ho⟩ := hs.named.version hversion
    exact hs.applyAll (promoteBatch_rows ho (hs.named.head hhead).1 hid hv)
  have hshards := shards_of_promote hP hs hlen hlocs hpromote
  have htier := tier_of_promote hP hs hpromote
  refine ⟨(), _, hpromote, answered_now fun t => ?_⟩
  rw [← bind_pure (Job.repo _)]
  refine answered_repo fun ticks => ?_
  obtain ⟨s₂, henqueue, hcat, hrow⟩ := @atomically_enqueueGC P _ o v hrows ticks t
  refine ⟨(), s₂, henqueue, rfl, ?_, ⟨nodes, hlen, hnodup, ?_⟩, hrow⟩
  · rw [hcat]
    exact htier
  · intro i n hi
    obtain ⟨r, ⟨hr, hactive⟩, hn⟩ := hshards i n hi
    exact ⟨r, ⟨hcat ▸ hr, hactive⟩, hn⟩

/-- How the migration of a version that holds `B` ends. -/
def Ends (d : Deps) (o : GoString) (v : Int) (B : Blob) (out : Except GoError Unit) (w' : World) :
    Prop :=
  (B ≠ [] → out = .ok () ∧ Migrated o v (d.cfg.k + d.cfg.m) w'.records) ∧
  (B = [] → ∃ e, out = .error e)

theorem answered_migrate (hP : Separated P) (hs : Rows P w.records) {o : GoString} (ho : P o)
    {v : Int} (hlawful : d.ec.Lawful d.cfg.k d.cfg.m) (hhot : HotVersion w o v B)
    (hnodes : d.cfg.k + d.cfg.m ≤ (uniqueSortedNodes healthy).length) :
    (migrate d o v).Obeys (answered d.cfg healthy) (Ends d o v B) w := by
  obtain ⟨obj, hhead, hcurrent, hstate⟩ := hhot.head
  obtain ⟨ver, hversion, -⟩ := hhot.version
  have hlength := length_uniqueSortedNodes_le healthy
  unfold migrate
  refine answered_repo fun marked => ?_
  obtain ⟨s₁, hmark, hs₁, hcat⟩ := atomically_markObjectMigrating hP hs hhead hcurrent hstate
    (marked 1)
  refine ⟨(), s₁, hmark, ?_⟩
  refine answered_listHealthyNodeIDs ?_
  rw [if_neg (by omega)]
  refine answered_repo fun clocks => ⟨_, _, atomically_listActiveReplicaLocations hs₁.typed o v, ?_⟩
  -- the mark changes the head only, so the replicas are those of before
  have hreplica : (catalog s₁).replica = (catalog w.records).replica := by
    rw [hcat]
    rfl
  have hlisted : ∀ r, r ∈ listedReplicas s₁ o v ↔ ∃ row,
      ((catalog w.records).replica o v row.nodeID = some row ∧ row.status = .active) ∧
        replicaLocation row = r := by
    intro r
    simp only [mem_listedReplicas, mem_activeReplicas hP hs₁ ho, hreplica]
  refine answered_fetchFromAnyReplica (B := B) ?_ hhot.named ?_ ?_
  · obtain ⟨row, hrow⟩ := hhot.placed
    exact List.ne_nil_of_mem ((hlisted _).mpr ⟨row, hrow, rfl⟩)
  · intro r hr
    obtain ⟨row, ⟨hrow, hactive⟩, rfl⟩ := (hlisted r).mp hr
    exact hhot.stored row hrow hactive
  rcases eq_or_ne B [] with rfl | hB
  · obtain ⟨e, he⟩ := hlawful.split_nil
    unfold encodeShards
    rw [he]
    exact ⟨fun h => absurd rfl h, fun _ => ⟨_, rfl⟩⟩
  obtain ⟨ss, hss, hlen, -⟩ := hlawful.shards_ok hB
  rw [encodeShards_ok hss, pure_bind]
  have hcount := @length_selectByRendezvous d.rendezvousScore (ecShardKey o v) healthy ss.length
    (Int.natCast_nonneg _)
  have hdistinct := @selectByRendezvous_nodup d.rendezvousScore (ecShardKey o v) healthy ss.length
  have hnil : [] ∉ selectByRendezvous d.rendezvousScore (ecShardKey o v) healthy ss.length :=
    fun h => (mem_selectByRendezvous h).1 rfl
  dsimp only
  generalize selectByRendezvous d.rendezvousScore (ecShardKey o v) healthy ss.length = targets at *
  rw [if_neg (by omega)]
  refine (answered_writeShards hnil).bind ?_ ?_
  · rintro e w' ⟨-, locs, ⟨⟩, -⟩
  rintro locs w₂ ⟨hrecords, _, ⟨⟩, hlocs⟩
  have hlocs' := hlocs.length_eq
  simp only [List.length_map, shardJobs, List.length_zipIdx, List.length_zip] at hlocs'
  have hk := hlawful.pos
  rw [if_neg (by omega)]
  have hs₂ : Rows P w₂.records := by
    rw [hrecords]
    exact hs₁
  have hhead₂ : (catalog w₂.records).head o =
      some { obj with state := .migrating, updatedAt := marked 1 } := by
    rw [hrecords, hcat]
    simp [Catalog.setHead, (hs.named.head hhead).1]
  have hversion₂ : (catalog w₂.records).version o v = some ver := by
    rw [hrecords, hcat]
    exact hversion
  refine (answered_finish hP hs₂ hhead₂ hcurrent hversion₂ (by omega) (by omega) hdistinct
    hlocs).mono ?_
  rintro out w' ⟨hout, hmigrated⟩
  exact ⟨fun _ => ⟨hout, hlen ▸ hmigrated⟩, fun h => absurd h hB⟩

theorem answered_processReplicationToEC (hP : Separated P) (hs : Rows P w.records)
    (ho : P task.objectID) (hlawful : d.ec.Lawful d.cfg.k d.cfg.m)
    (hhot : HotVersion w task.objectID task.version B)
    (hnodes : d.cfg.k + d.cfg.m ≤ (uniqueSortedNodes healthy).length) :
    (processReplicationToEC d task).Obeys (answered d.cfg healthy)
      (Ends d task.objectID task.version B) w := by
  obtain ⟨obj, hhead, hcurrent, -⟩ := hhot.head
  obtain ⟨ver, hversion, htier⟩ := hhot.version
  have hsnap : (catalog w.records).snapshot task.objectID task.version =
      some ⟨task.objectID, obj.currentVersion, task.version, obj.state, ver.tier⟩ :=
    Catalog.snapshot_eq_some.mpr ⟨obj, ver, hhead, hversion, rfl⟩
  unfold processReplicationToEC
  refine answered_repo fun clocks =>
    ⟨_, _, atomically_getObjectVersionSnapshot hs.typed task.objectID task.version, ?_⟩
  rw [hsnap]
  dsimp only
  rw [if_neg (not_not.mpr hcurrent), if_neg (by simp [htier])]
  exact answered_migrate hP hs ho hlawful hhot hnodes

/-- With `k + m` nodes that all answer and nothing else going on, the migration of a HOT version
succeeds in every run exactly when the object is not empty. -/
theorem migration_succeeds_iff (hP : Separated P) (hs : Rows P w.records) (ho : P task.objectID)
    (hlawful : d.ec.Lawful d.cfg.k d.cfg.m) (hhot : HotVersion w task.objectID task.version B)
    (hnodes : d.cfg.k + d.cfg.m ≤ (uniqueSortedNodes healthy).length) :
    ((∃ out w', Exec (AllAnswer d.cfg healthy) (processReplicationToEC d task) w out w') ∧
      ∀ out w', Exec (AllAnswer d.cfg healthy) (processReplicationToEC d task) w out w' →
        out = .ok () ∧ Migrated task.objectID task.version (d.cfg.k + d.cfg.m) w'.records) ↔
      B ≠ [] := by
  have hruns : ∃ out w', Exec (AllAnswer d.cfg healthy) (processReplicationToEC d task) w out w' :=
    exists_exec (fun c w => ⟨_, _, { calmWeather with healthy := healthy }, rfl, rfl⟩) _ _
  have hends := answered_processReplicationToEC hP hs ho hlawful hhot hnodes
  constructor
  · rintro ⟨-, hall⟩ hB
    obtain ⟨out, w', hexec⟩ := hruns
    obtain ⟨e, he⟩ := (hends.state_exec hexec).2 hB
    cases he.symm.trans (hall out w' hexec).1
  · exact fun hB => ⟨hruns, fun out w' hexec => (hends.state_exec hexec).1 hB⟩

end Runs

/-! ## Objects that were just stored -/

/-- The PUT of a body to an empty cluster. -/
def stored (body : Blob) : Except GoError Api.Response × World :=
  (Api.putObject parityDeps (lit "a") (some body) []).run (serve parityDeps.cfg calmWeather)
    World.empty

def storedTask : TaskRecord :=
  newTask (lit "repl_to_ec:a:7") (lit "a") 7 (lit "REPL_TO_EC") 100 0

theorem stored_rows : Rows Coherence.SlashFree (stored fiveBytes).2.records :=
  rows_iff_entries.mpr (by decide +kernel)

theorem stored_head : (catalog (stored fiveBytes).2.records).head (lit "a") =
    some ⟨lit "a", lit "default", 7, .hotActive, 10, 10⟩ := by
  decide +kernel

theorem stored_version : ((catalog (stored fiveBytes).2.records).version (lit "a") 7).map (·.tier) =
    some .hot := by
  decide +kernel

theorem stored_replicas : activeReplicas (stored fiveBytes).2.records (lit "a") 7 =
    [lit "n1", lit "n2", lit "n3"].map fun n =>
      ⟨lit "a", 7, n, lit "hot/a/00000000000000000007", .active⟩ := by
  decide +kernel

theorem stored_blobs : ∀ n ∈ [lit "n1", lit "n2", lit "n3"], n ≠ [] ∧
    (stored fiveBytes).2.blobs n (replicaBlobKey (lit "a") 7 (lit "hot/a/00000000000000000007")) =
      some fiveBytes := by
  decide +kernel

theorem stored_hotVersion : HotVersion (stored fiveBytes).2 (lit "a") 7 fiveBytes := by
  have hid : Coherence.SlashFree (lit "a") := by decide +kernel
  have hmem : ∀ r : ReplicaRecord, _ ↔ _ := fun r =>
    mem_activeReplicas (v := 7) (r := r) separated_slashFree stored_rows hid
  rw [stored_replicas] at hmem
  refine ⟨by decide, ⟨_, stored_head, rfl, nofun⟩, Option.map_eq_some_iff.mp stored_version, ?_, ?_⟩
  · exact ⟨_, (hmem _).mp List.mem_cons_self⟩
  · intro r hr hactive
    obtain ⟨n, hn, rfl⟩ := List.mem_map.mp ((hmem r).mpr ⟨hr, hactive⟩)
    exact stored_blobs n hn

/-- A stored object of five bytes is migrated. -/
theorem migration_five_bytes : (stored fiveBytes).1.map Api.Response.status = .ok 201 ∧
    ∀ out w', Exec (AllAnswer parityDeps.cfg sixNodes)
      (processReplicationToEC parityDeps storedTask) (stored fiveBytes).2 out w' →
        out = .ok () ∧ Migrated (lit "a") 7 5 w'.records :=
  ⟨by decide +kernel, ((migration_succeeds_iff separated_slashFree stored_rows (by decide +kernel)
    lawful_parity stored_hotVersion (by decide +kernel)).mpr (by decide)).2⟩

/-- An empty object is accepted, and its migration fails. -/
theorem empty_object_stays_hot : (stored []).1.map Api.Response.status = .ok 201 ∧
    ((processReplicationToEC parityDeps storedTask).run (serve parityDeps.cfg calmWeather)
      (stored []).2).1 =
        .error (lit "ec split failed: not enough data to fill the number of requested shards") ∧
    ((catalog ((processReplicationToEC parityDeps storedTask).run
      (serve parityDeps.cfg calmWeather) (stored []).2).2.records).version (lit "a") 7).map
        (·.tier) = some .hot := by
  decide +kernel

end TieredStore.Tiering
