import TieredStore.Api.RpcRead
import TieredStore.Cluster.Transport
import TieredStore.Lib.Pool
import TieredStore.Meta.ReplicaRows
import TieredStore.Tiering.Footprints

/-!
# Jobs stay with their object

Every job of the object routes and of the workers is about one object. Whatever the answers, it
writes rows of that object only, and it stores and deletes blobs only under the object's own keys
and under its bare id (`Works.own`). The keys of a delete come from rows, so this needs that rows
point to keys of their own object, which every job keeps (`Tidy`).

It follows that jobs on different objects do not meet, however they are interleaved and wherever
they fail or stop (`objects_isolated`). The bare id is the one exception: it is a blob key of another
object when it reads like the name of one of its shards.
-/

namespace TieredStore.Meta

open Lib Lib.Prog

/-- The object that a change is about. -/
def Change.object : Change → GoString
  | .upsert o _ _ _ | .mark _ o _ | .pend _ o | .promote _ o _ _ _ _ _ | .place o _ _ _
  | .retire o _ _ | .purge o _ | .remove o => o

/-- An object has the same rows in two catalogs. -/
structure SameRows (o : GoString) (c c' : Catalog) : Prop where
  head : c'.head o = c.head o
  version : c'.version o = c.version o
  replica : c'.replica o = c.replica o
  shard : c'.shard o = c.shard o

theorem SameRows.refl (o : GoString) (c : Catalog) : SameRows o c c := ⟨rfl, rfl, rfl, rfl⟩

theorem SameRows.trans {o : GoString} {c c' c'' : Catalog} (h : SameRows o c c')
    (h' : SameRows o c' c'') : SameRows o c c'' :=
  ⟨h'.head.trans h.head, h'.version.trans h.version, h'.replica.trans h.replica,
    h'.shard.trans h.shard⟩

/-- A change leaves the rows of all other objects alone. -/
theorem Makes.sameRows {P : GoString → Prop} {c c' : Catalog} {ch : Change} {b : GoString}
    (hn : c.Named P) (h : Makes ch c c') (hb : b ≠ ch.object) : SameRows b c c' := by
  cases h with
  | upsert o v md now =>
    rw [putAll_upsertRows fun r hr => (hn.head hr).1]
    refine ⟨if_neg hb, ?_, ?_, rfl⟩
    · funext v'
      exact if_neg fun heq => hb heq.1
    · funext v' n
      exact if_neg fun heq => hb heq.1
  | mark now head => exact ⟨if_neg fun heq => hb (heq.trans (hn.head head).1), rfl, rfl, rfl⟩
  | pend now head => exact ⟨if_neg fun heq => hb (heq.trans (hn.head head).1), rfl, rfl, rfl⟩
  | promote now checksum k m hlocs head current version =>
    obtain ⟨hid, hv, -⟩ := hn.version version
    rw [putAll_promoteBatch (hn.head head).1 hid hv]
    refine ⟨if_neg hb, ?_, rfl, ?_⟩
    · funext v'
      exact if_neg fun heq => hb heq.1
    · funext v' i
      exact if_neg fun heq => hb heq.1
  | place o v path hnode =>
    refine ⟨rfl, rfl, ?_, rfl⟩
    funext v' n
    exact if_neg fun heq => hb heq.1
  | retire row =>
    refine ⟨rfl, rfl, ?_, rfl⟩
    funext v' n
    exact if_neg fun heq => hb (heq.1.trans (hn.replica row).1)
  | purge head current =>
    refine ⟨rfl, ?_, ?_, ?_⟩
    · funext v'
      exact if_neg fun heq => hb heq.1
    · funext v' n
      exact if_neg fun heq => hb heq.1
    · funext v' i
      exact if_neg fun heq => hb heq.1
  | remove o =>
    refine ⟨if_neg hb, ?_, ?_, ?_⟩
    · funext v'
      exact if_neg hb
    · funext v' n
      exact if_neg hb
    · funext v' i
      exact if_neg hb

end TieredStore.Meta

namespace TieredStore.Cluster

open Lib Lib.Prog Lib.Bytes Meta Tiering Api

/-! ## Own calls -/

/-- The keys under which the jobs on an object store and delete blobs. -/
def OwnKey (o k : GoString) : Prop := BlobKey o k ∨ k = o

/-- The calls of a job on an object. -/
def Own (o : GoString) : Call → Prop
  | .repo c => c.Names (· = o) ∧ ∀ ch ∈ c.changes, ch.object = o ∧ PlacesWell ch
  | .store _ k _ | .delete _ k => OwnKey o k
  | .listHealthyNodeIDs | .activeNodes | .retrieve _ _ | .schedule _ | .now => True

/-- The keys that a `DELETE` finds in the metadata of an object. -/
structure OwnMetadata (o : GoString) (md : Metadata) : Prop where
  hotKey : OwnKey o (hotKeyOf o md)
  placements : ∀ p ∈ parseECShardPlacements md, OwnKey o p.path
  chunkPrefix : md.get (lit "chunk_prefix") = .str (o ++ lit "_cold_chunk_")

/-- What a job can rely on in the answers. -/
def Sane : (c : Call) → c.Answer → Prop
  | .repo (.getObjectVersionSnapshot _ _), r => ∀ snap : ObjectVersionSnapshot,
      r = .ok (some snap) → 0 < snap.currentVersion
  | .repo (.listActiveReplicaLocations o v), r => Routable o → ∀ rs : List ReplicaLocation,
      r = .ok rs → ∀ loc ∈ rs, ReplicaPlace o v loc.nodeID loc.path
  | .repo (.getObjectVersionGCView o v), r => Routable o → ∀ view : ObjectVersionGCView,
      r = .ok (some view) →
      (∀ loc ∈ view.replicaLocations, ReplicaPlace o v loc.nodeID loc.path) ∧
      ∀ loc ∈ view.ecShardLocations, ShardPlace o loc.shardIndex loc.nodeID loc.path
  | .repo (.getNormalizedMetadata o), r => Routable o → ∀ md : Metadata, r = .ok (some md) →
      OwnMetadata o md
  | .now, t => 0 < Time.unixNano t
  | _, _ => True

section Own

variable {o : GoString}

theorem own_passive (c : Call) (h : c.Passive) : Own o c := by
  cases c with
  | repo c => cases c <;> first | exact h.elim | exact ⟨trivial, by rintro _ ⟨⟩⟩
  | store | delete => exact h.elim
  | _ => trivial

theorem own_task (c : TaskCall) : Own o (.repo (.task c)) :=
  ⟨trivial, by rintro _ ⟨⟩⟩

theorem own_mark (v : Int) : Own o (.repo (.markObjectMigrating o v)) := by
  refine ⟨trivial, ?_⟩
  rintro ch ⟨now, rfl⟩
  exact ⟨rfl, trivial⟩

theorem own_chunk (n : GoString) (i : Int) (data : Blob) : Own o (.store n (chunkKey o i) data) :=
  Or.inl (Or.inr ⟨i, rfl⟩)

theorem own_promote {v : Int} {checksum : GoString} {k m : Int} {locs : List ECShardLocation}
    (h : ∀ loc ∈ locs, ShardPlace o loc.shardIndex loc.nodeID loc.path) :
    Own o (.repo (.promoteObjectVersionToEC o v checksum k m locs)) := by
  refine ⟨trivial, ?_⟩
  rintro ch ⟨now, rfl⟩
  exact ⟨rfl, h⟩

theorem own_retire (v : Int) (ns : List GoString) :
    Own o (.repo (.markReplicaLocationsDeleted o v ns)) := by
  refine ⟨rfl, ?_⟩
  rintro ch ⟨n, -, rfl⟩
  exact ⟨rfl, trivial⟩

theorem own_purge (v : Int) : Own o (.repo (.purgeObjectVersionMetadata o v)) := by
  refine ⟨trivial, ?_⟩
  rintro ch rfl
  exact ⟨rfl, trivial⟩

theorem own_remove : Own o (.repo (.deleteNormalizedMetadata o)) := by
  refine ⟨rfl, ?_⟩
  rintro ch rfl
  exact ⟨rfl, trivial⟩

variable {v : Int}

theorem replicaBlobKey_nil (ho : Routable o) (hv : 0 < v) :
    replicaBlobKey o v [] = hotPath o v := by
  unfold replicaBlobKey
  rw [if_pos rfl, buildHotReplicaPath_routable ho hv]
  exact if_neg (hotPath_ne_nil o v)

/-- The key under which a repair writes, for any version that a task may name. -/
theorem ownKey_replicaBlobKey (ho : Routable o) (v : Int) : OwnKey o (replicaBlobKey o v []) := by
  by_cases hv : 0 < v
  · rw [replicaBlobKey_nil ho hv]
    exact Or.inl (Or.inl ⟨v, hv, rfl⟩)
  · have hbuilt : buildHotReplicaPath o v = o := by
      unfold buildHotReplicaPath
      rw [trimSpace_of_trimmed ho.trimmed, if_neg ho.ne_nil, if_pos (by omega)]
    unfold replicaBlobKey
    rw [if_pos rfl, hbuilt, if_neg ho.ne_nil]
    exact Or.inr rfl

end Own

/-! ## Jobs -/

section Jobs

variable {A : Call → Prop} {R : (c : Call) → c.Answer → Prop} {d : Deps} {o : GoString} {v : Int}
  {task : TaskRecord}

theorem within_tryFetch (hA : ∀ c, c.Passive → A c) (n key : GoString) :
    Within A R (tryFetch n key) fun _ => True := by
  unfold tryFetch
  split_ifs
  · exact within_pure trivial
  · refine within_retrieve (hA _ trivial) fun reply => ?_
    split <;> exact within_pure trivial

theorem within_fetchFirst (hA : ∀ c, c.Passive → A c) (places : List (GoString × GoString)) :
    Within A R (fetchFirst places) fun _ => True := by
  induction places with
  | nil => exact within_pure trivial
  | cons place rest ih =>
    refine (within_tryFetch hA _ _).bind fun data _ => ?_
    cases data with
    | some data => exact within_pure trivial
    | none => exact ih

theorem within_writeJobs {jobs : List ((GoString × Blob) × Nat)}
    (hstore : ∀ n (i : Int) data, A (.store n (chunkKey o i) data)) :
    Within A R (writeJobs o jobs) fun locs =>
      ∀ loc ∈ locs, ShardPlace o loc.shardIndex loc.nodeID loc.path := by
  induction jobs with
  | nil => exact within_pure (by simp)
  | cons job rest ih =>
    obtain ⟨⟨n, payload⟩, i⟩ := job
    have hshard : Within A R (writeSingleShard n o i payload) fun location =>
        ∀ loc ∈ location, ShardPlace o loc.shardIndex loc.nodeID loc.path := by
      unfold writeSingleShard
      split_ifs with hn
      · exact within_pure (by simp)
      · refine within_store (hstore n i payload) fun reply => ?_
        split
        · refine within_pure ?_
          rintro loc ⟨⟩
          exact ⟨hn, rfl⟩
        · refine within_pure ?_
          rintro loc ⟨⟩
          exact ⟨hn, rfl⟩
        · exact within_pure (by simp)
    refine hshard.bind fun location hlocation => ih.bind fun locs hlocs => within_pure ?_
    intro loc hloc
    rcases List.mem_append.mp hloc with hloc | hloc
    · exact hlocation loc (Option.mem_toList.mp hloc)
    · exact hlocs loc hloc

theorem within_processReplicationToEC (hA : ∀ c, c.Passive → A c)
    (hmark : A (.repo (.markObjectMigrating task.objectID task.version)))
    (hstore : ∀ n (i : Int) data, A (.store n (chunkKey task.objectID i) data))
    (hpromote : ∀ checksum k m locs,
      (∀ loc ∈ locs, ShardPlace task.objectID loc.shardIndex loc.nodeID loc.path) →
      A (.repo (.promoteObjectVersionToEC task.objectID task.version checksum k m locs)))
    (htask : ∀ c, A (.repo (.task c))) :
    Within A R (processReplicationToEC d task) fun _ => True := by
  refine within_repo (hA _ trivial) fun snap _ => ?_
  split
  · exact within_fail
  split_ifs
  · exact within_pure trivial
  · exact within_pure trivial
  refine within_repo hmark fun _ _ => ?_
  refine within_listHealthyNodeIDs (hA _ trivial) fun nodes => ?_
  split_ifs
  · exact within_fail
  refine within_repo (hA _ trivial) fun replicas _ => ?_
  have hfetch : Within A R (fetchFromAnyReplica replicas nodes task.objectID task.version)
      fun _ => True := by
    refine (within_fetchFirst hA _).bind fun data _ => ?_
    cases data with
    | some data => exact within_pure trivial
    | none => exact within_fail
  refine hfetch.bind fun sourceBytes _ => ?_
  have hencode : Within A R (encodeShards d sourceBytes) fun _ => True :=
    within_wrapped.bind fun _ _ => within_wrapped
  refine hencode.bind fun shards _ => ?_
  dsimp only
  split_ifs
  · exact within_fail
  have hwrite : Within A R (writeShards (selectByRendezvous d.rendezvousScore
      (ecShardKey task.objectID task.version) nodes shards.length) task.objectID shards)
      fun locs => ∀ loc ∈ locs, ShardPlace task.objectID loc.shardIndex loc.nodeID loc.path := by
    refine within_schedule (hA _ trivial) fun jobs _ => ?_
    refine (within_writeJobs hstore).bind fun locs hlocs => within_pure fun loc hloc => ?_
    exact hlocs loc ((List.perm_insertionSort _ _).mem_iff.mp hloc)
  refine hwrite.bind fun locs hlocs => ?_
  split_ifs
  · exact within_fail
  refine within_repo (hpromote _ _ _ _ hlocs) fun _ _ => ?_
  exact within_now (hA _ trivial) fun _ _ => within_repo_last (htask _)

theorem within_deleteReplicas {rs : List ReplicaLocation}
    (hdelete : ∀ r ∈ rs, A (.delete r.nodeID (if r.path = [] then o else r.path))) :
    Within A R (deleteReplicas o rs) fun _ => True := by
  induction rs with
  | nil => exact within_pure trivial
  | cons r rest ih =>
    have hrest := ih fun r' hr' => hdelete r' (List.mem_cons_of_mem _ hr')
    refine within_delete (hdelete r List.mem_cons_self) fun reply => ?_
    split
    · exact within_fail
    · exact hrest
    · exact hrest
    · exact within_fail

theorem within_processReplicationGC (hA : ∀ c, c.Passive → A c)
    (hdelete : ∀ rs : List ReplicaLocation,
      R (.repo (.listActiveReplicaLocations task.objectID task.version)) (.ok rs) →
      ∀ r ∈ rs, A (.delete r.nodeID (if r.path = [] then task.objectID else r.path)))
    (hretire : ∀ ns, A (.repo (.markReplicaLocationsDeleted task.objectID task.version ns))) :
    Within A R (processReplicationGC task) fun _ => True := by
  refine within_repo (hA _ trivial) fun snap _ => ?_
  split
  · exact within_pure trivial
  split_ifs
  · exact within_pure trivial
  · exact within_fail
  refine within_repo (hA _ trivial) fun replicas hreplicas => ?_
  split_ifs
  · exact within_pure trivial
  refine (within_deleteReplicas (hdelete replicas hreplicas)).bind fun _ _ => ?_
  exact within_repo_last (hretire _)

theorem within_deleteBlob {n k : GoString} (hdelete : n ≠ [] → k ≠ [] → A (.delete n k)) :
    Within A R (deleteBlob n k) fun _ => True := by
  unfold deleteBlob
  split_ifs with h
  · exact within_pure trivial
  · rw [not_or] at h
    refine within_delete (hdelete h.1 h.2) fun reply => ?_
    split <;> exact within_pure trivial

theorem within_deletePlaces {legacy : Option GoString} {places : List (GoString × GoString)}
    (hdelete : ∀ place ∈ places, A (.delete place.1 place.2))
    (hlegacy : ∀ n, ∀ k ∈ legacy, A (.delete n k)) :
    Within A R (deletePlaces legacy places) fun _ => True := by
  induction places with
  | nil => exact within_pure trivial
  | cons place rest ih =>
    have hrest := ih fun place' h => hdelete place' (List.mem_cons_of_mem _ h)
    refine (within_deleteBlob fun _ _ => hdelete place List.mem_cons_self).bind fun result _ => ?_
    cases result with
    | error e => exact within_fail
    | ok _ =>
      cases legacy with
      | none => exact hrest
      | some objectID =>
        dsimp only
        split_ifs
        · exact (within_deleteBlob fun _ _ => hlegacy _ _ rfl).bind fun _ _ => hrest
        · exact hrest

theorem within_processOldVersionGC (hA : ∀ c, c.Passive → A c)
    (hview : ∀ view : ObjectVersionGCView,
      R (.repo (.getObjectVersionGCView task.objectID task.version)) (.ok (some view)) →
      (∀ r ∈ view.replicaLocations,
        A (.delete r.nodeID (replicaBlobKey task.objectID task.version r.path))) ∧
      ∀ s ∈ view.ecShardLocations, A (.delete s.nodeID s.path))
    (hbuilt : ∀ n, A (.delete n (replicaBlobKey task.objectID task.version [])))
    (hbare : ∀ n, A (.delete n task.objectID))
    (hpurge : A (.repo (.purgeObjectVersionMetadata task.objectID task.version))) :
    Within A R (processOldVersionGC task) fun _ => True := by
  have hlegacy : ∀ n, ∀ k ∈ some task.objectID, A (.delete n k) := by
    rintro n _ ⟨⟩
    exact hbare n
  refine within_repo (hA _ trivial) fun view hsane => ?_
  cases view with
  | none => exact within_pure trivial
  | some view =>
    obtain ⟨hreplicas, hshards⟩ := hview view hsane
    dsimp only
    split_ifs
    · exact within_pure trivial
    have hhot : Within A R
        (deleteHOTVersion task.objectID task.version view.replicaLocations) fun _ => True := by
      unfold deleteHOTVersion
      split_ifs
      · refine within_deletePlaces ?_ hlegacy
        intro place hplace
        obtain ⟨r, hr, rfl⟩ := List.mem_map.mp hplace
        exact hreplicas r hr
      · refine within_listHealthyNodeIDs (hA _ trivial) fun nodes => ?_
        refine within_deletePlaces ?_ hlegacy
        intro place hplace
        obtain ⟨n, -, rfl⟩ := List.mem_map.mp hplace
        exact hbuilt n
    have hec : Within A R (deleteECVersion view.ecShardLocations) fun _ => True := by
      refine within_deletePlaces ?_ (by simp)
      intro place hplace
      obtain ⟨s, hs, rfl⟩ := List.mem_map.mp hplace
      exact hshards s (List.mem_of_mem_filter hs)
    split
    · exact hhot.bind fun _ _ => within_repo_last hpurge
    · exact hec.bind fun _ _ => within_repo_last hpurge

/-- After an attempt the job goes on with the result, also when it is an error. -/
theorem Within.attempt_bind {α β : Type} {Q : α → Prop} {Q' : β → Prop} {p : Job α}
    {f : Except GoError α → Job β} (hp : Within A R p Q)
    (hf : ∀ x, (∀ a, x = .ok a → Q a) → Within A R (f x) Q') :
    Within A R (p.attempt >>= f) Q' :=
  Obeys.attempt_bind hp fun x _ h => hf x h

theorem mem_selectHotReplicaNodes {active : ActiveNodes} {target : Int} {n : GoString}
    (h : n ∈ selectHotReplicaNodes d o active target) : Picked n := by
  unfold selectHotReplicaNodes at h
  split at h
  · simp at h
  dsimp only at h
  split at h
  · exact picked_of_select (List.mem_of_mem_take h)
  split at h
  · exact picked_of_select (List.mem_of_mem_take h)
  · obtain ⟨⟨n', i⟩, hmem, rfl⟩ := List.mem_map.mp (List.mem_of_mem_take h)
    have hzip := (List.perm_insertionSort _ _).mem_iff.mp hmem
    exact picked_of_select (List.fst_mem_of_mem_zipIdx hzip)

theorem selectDynamicNodes_picked {active : ActiveNodes} {replicaTarget writeQuorum ecTarget : Int}
    {nodes : List GoString × List GoString} (h : selectDynamicNodesForObjectWithLoads d o active
      replicaTarget writeQuorum ecTarget = .ok nodes) : ∀ n ∈ nodes.1, Picked n := by
  unfold selectDynamicNodesForObjectWithLoads at h
  dsimp only at h
  generalize (if replicaTarget ≤ 0 then (3 : Int) else replicaTarget) = target at h
  split_ifs at h
  all_goals cases h
  all_goals exact fun n hn => mem_selectHotReplicaNodes hn

theorem within_activeNodes {β : Type} {Q : β → Prop} {f : Option ActiveNodes → Job β}
    (hA : A .activeNodes) (hf : ∀ active, Within A R (f active) Q) :
    Within A R (Job.activeNodes >>= f) Q := ⟨hA, fun active _ _ => hf active⟩

theorem within_getDynamicNodes (hA : ∀ c, c.Passive → A c) :
    Within A R (getDynamicNodes d o) fun r => ∀ nodes, r = .ok nodes → ∀ n ∈ nodes.1, Picked n := by
  refine within_activeNodes (hA _ trivial) fun active => ?_
  cases active with
  | none => exact within_pure (by rintro _ ⟨⟩)
  | some active =>
    dsimp only
    cases hselect : selectDynamicNodesForObjectWithLoads d o active d.cfg.hotReplicaCount
      d.cfg.hotWriteQuorum (d.cfg.k + d.cfg.m) with
    | error e => exact within_pure (by rintro _ ⟨⟩)
    | ok nodes =>
      refine within_pure ?_
      rintro _ ⟨⟩
      exact selectDynamicNodes_picked hselect

theorem within_loadMetadata (hA : ∀ c, c.Passive → A c) : Within A R (loadMetadata o) fun r =>
    ∀ md, r = .ok md → R (.repo (.getNormalizedMetadata o)) (.ok (some md)) := by
  refine within_repo_attempt (hA _ trivial) fun r hr => ?_
  obtain e | (_ | (md : Metadata)) := r
  · exact within_pure (by rintro _ ⟨⟩)
  · exact within_pure (by rintro _ ⟨⟩)
  · refine within_pure ?_
    rintro _ ⟨⟩
    exact hr

theorem within_readFirst (hA : ∀ c, c.Passive → A c) (key : GoString) (nodes : List GoString) :
    Within A R (readFirst key nodes) fun _ => True := by
  induction nodes with
  | nil => exact within_pure trivial
  | cons n rest ih =>
    refine within_retrieve (hA _ trivial) fun reply => ?_
    split
    · exact within_pure trivial
    · exact ih

theorem within_fetchChunks (hA : ∀ c, c.Passive → A c) (requests : List ECShardPlacement)
    (chunks : List (Option Blob)) (count : Nat) :
    Within A R (fetchChunks requests chunks count) fun _ => True := by
  induction requests generalizing chunks count with
  | nil => exact within_pure trivial
  | cons p rest ih =>
    unfold fetchChunks
    split_ifs
    · exact ih _ _
    · refine within_retrieve (hA _ trivial) fun reply => ?_
      split
      · exact ih _ _
      · exact ih _ _

theorem within_readEC (hA : ∀ c, c.Passive → A c) (nodes : List GoString) (md : Metadata) :
    Within A R (readEC d nodes md) fun _ => True := by
  unfold readEC
  dsimp only
  split
  · exact within_fail
  split_ifs
  · exact within_fail
  all_goals
    refine within_schedule (hA _ trivial) fun arrivals _ => ?_
    refine (within_fetchChunks hA _ _ _).bind fun fetched _ => ?_
    split_ifs
    · exact within_fail
    split
    · exact within_fail
    split
    · exact within_fail
    split_ifs
    · exact within_fail
    · exact within_pure trivial

theorem within_getObject (hA : ∀ c, c.Passive → A c) (id : GoString) :
    Within A R (getObject d id) fun _ => True := by
  unfold getObject
  dsimp only
  split_ifs
  · exact within_pure trivial
  refine (within_getDynamicNodes hA).bind fun nodes _ => ?_
  obtain response | ⟨replicaNodes, ecNodes⟩ := nodes
  · exact within_pure trivial
  refine (within_loadMetadata hA).bind fun md _ => ?_
  obtain response | md := md
  · exact within_pure trivial
  have hread : ∀ nodes key, Within A R (readReplication nodes key) fun _ => True := by
    intro nodes key
    refine within_schedule (hA _ trivial) fun arrivals _ => ?_
    refine (within_readFirst hA key arrivals).bind fun data _ => ?_
    cases data with
    | some data => exact within_pure trivial
    | none => exact within_fail
  dsimp only
  split_ifs
  · exact (hread _ _).attempt_bind fun _ _ => within_pure trivial
  · exact (within_readEC hA _ _).attempt_bind fun _ _ => within_pure trivial
  · exact within_pure trivial

theorem within_writeReplicationAndLate {nodes : List GoString} {value : Blob} {extraMeta : Metadata}
    (hA : ∀ c, c.Passive → A c)
    (hstore : ∀ (v : Int) n, A (.store n (replicaBlobKey o v []) value))
    (hcommit : ∀ (now : Time) ns isDirty, R .now now → (∀ n ∈ ns, n ∈ nodes) →
      A (.repo (.upsertNormalizedMetadata o (replicationMetadata now.unixNano
        (replicaBlobKey o now.unixNano []) value.length ns extraMeta isDirty))))
    (hplace : ∀ (now : Time) ns, R .now now → (∀ n ∈ ns, n ∈ nodes) →
      A (.repo (.upsertReplicaLocations o now.unixNano ns))) :
    Within A R (writeReplicationAndLate d.cfg nodes o value extraMeta) fun _ => True := by
  refine (within_writeReplication hA (fun now n _ => hstore now.unixNano n) hcommit).bind
    fun result hresult => ?_
  obtain ⟨hpath, ⟨now, hnow, hversion⟩, hlate⟩ := hresult
  split_ifs
  · rw [hpath, hversion]
    refine (within_observeLate hA (fun n _ => hstore _ n) fun ns hns => ?_).bind fun _ _ =>
      within_pure trivial
    exact hplace now ns hnow fun n hn => hlate n (hns n hn)
  · exact within_pure trivial

theorem within_deleteAll {places : List (GoString × GoString)}
    (hdelete : ∀ place ∈ places, A (.delete place.1 place.2)) :
    Within A R (deleteAll places) fun _ => True := by
  induction places with
  | nil => exact within_pure trivial
  | cons place rest ih =>
    refine within_delete (hdelete place List.mem_cons_self) fun reply => ?_
    refine (ih fun place' h => hdelete place' (List.mem_cons_of_mem _ h)).bind fun count _ => ?_
    exact within_pure trivial

theorem within_deleteEC {nodes : List GoString} {md : Metadata} (hA : ∀ c, c.Passive → A c)
    (hplaced : ∀ p ∈ parseECShardPlacements md, A (.delete p.nodeID p.path))
    (hchunks : md.get (lit "chunk_prefix") = .str (o ++ lit "_cold_chunk_"))
    (hchunk : ∀ n (i : Int), A (.delete n (chunkKey o i))) :
    Within A R (deleteEC nodes md) fun _ => True := by
  unfold deleteEC
  split
  · rw [hchunks]
    refine within_schedule (hA _ trivial) fun places hperm => within_deleteAll fun place hplace => ?_
    obtain ⟨⟨n, i⟩, -, rfl⟩ := List.mem_map.mp (hperm.mem_iff.mp hplace)
    exact hchunk n i
  · refine within_schedule (hA _ trivial) fun places hperm => within_deleteAll fun place hplace => ?_
    obtain ⟨p, hp, rfl⟩ := List.mem_map.mp (hperm.mem_iff.mp hplace)
    exact hplaced p (List.mem_of_mem_filter hp)

theorem within_deleteObject (hA : ∀ c, c.Passive → A c) {id : GoString} (hid : trimSpace id = o)
    (hsane : ∀ md, R (.repo (.getNormalizedMetadata o)) (.ok (some md)) → OwnMetadata o md)
    (hdelete : ∀ n k, OwnKey o k → A (.delete n k))
    (hremove : A (.repo (.deleteNormalizedMetadata o))) :
    Within A R (deleteObject d id) fun _ => True := by
  subst hid
  unfold deleteObject
  dsimp only
  split_ifs
  · exact within_pure trivial
  refine (within_getDynamicNodes hA).bind fun nodes _ => ?_
  obtain response | ⟨replicaNodes, ecNodes⟩ := nodes
  · exact within_pure trivial
  refine (within_loadMetadata hA).bind fun md hmd => ?_
  obtain response | md := md
  · exact within_pure trivial
  obtain ⟨hkey, hplaced, hchunks⟩ := hsane md (hmd md rfl)
  have hdrop : ∀ counter count, Within A R (dropMetadata (trimSpace id) md counter count)
      fun _ => True := by
    intro counter count
    refine within_repo_attempt hremove fun r _ => ?_
    cases r <;> exact within_pure trivial
  dsimp only
  split_ifs
  · have hreplicas : Within A R (deleteReplication (preferMetadataReplicaNodes md replicaNodes)
        (hotKeyOf (trimSpace id) md)) fun _ => True := by
      refine within_schedule (hA _ trivial) fun places hperm =>
        within_deleteAll fun place hplace => ?_
      obtain ⟨n, -, rfl⟩ := List.mem_map.mp (hperm.mem_iff.mp hplace)
      exact hdelete n _ hkey
    exact hreplicas.bind fun _ _ => hdrop _ _
  · refine (within_deleteEC hA (fun p hp => hdelete _ _ (hplaced p hp)) hchunks
      fun n i => hdelete n _ (Or.inl (Or.inr ⟨i, rfl⟩))).bind fun _ _ => hdrop _ _
  · exact within_pure trivial

end Jobs

/-! ## The jobs of an object -/

/-- The jobs on an object: the three object routes and the four kinds of tasks. What a route answers
is the result of its job. -/
inductive Works (d : Deps) (o : GoString) : Job (Option Response) → Prop where
  | put {id : GoString} (name : trimSpace id = o) (body : Option Blob) (contentType : GoString) :
      Works d o (putObject d id body contentType >>= fun r => pure (some r))
  | get {id : GoString} (name : trimSpace id = o) :
      Works d o (getObject d id >>= fun r => pure (some r))
  | delete {id : GoString} (name : trimSpace id = o) :
      Works d o (deleteObject d id >>= fun r => pure (some r))
  | migrate {task : TaskRecord} (name : task.objectID = o) :
      Works d o (processReplicationToEC d task >>= fun _ => pure none)
  | repair {task : TaskRecord} (name : task.objectID = o) :
      Works d o (processReplicationRepair d task >>= fun _ => pure none)
  | collect {task : TaskRecord} (name : task.objectID = o) :
      Works d o (processReplicationGC task >>= fun _ => pure none)
  | collectOld {task : TaskRecord} (name : task.objectID = o) :
      Works d o (processOldVersionGC task >>= fun _ => pure none)

section Works

variable {d : Deps} {o : GoString} {v : Int}

/-- What a `PUT` commits is placed well: the nodes were picked, and the version is a clock reading
after the epoch. -/
theorem own_commit (ho : Routable o) {now : Time} (hnow : 0 < now.unixNano) {ns : List GoString}
    (hns : ∀ n ∈ ns, Picked n) {length : Nat} {extraMeta : Metadata}
    (hextra : ExtraFields extraMeta) (isDirty : Bool) :
    Own o (.repo (.upsertNormalizedMetadata o (replicationMetadata now.unixNano
      (replicaBlobKey o now.unixNano []) length ns extraMeta isDirty))) := by
  refine ⟨rfl, ?_⟩
  rintro ch ⟨clock, at', rfl⟩
  rw [resolveVersion_replication hextra hnow (inInt64_unixNano now)]
  refine ⟨rfl, hnow, ?_, ?_⟩
  · unfold upsertHotPath
    rw [hotKey_replication hextra, replicaBlobKey_nil ho hnow]
    simp only [if_neg (hotPath_ne_nil o _)]
  · intro n hn
    unfold upsertNodes at hn
    rw [resolveTier_replication hextra, if_pos rfl, replicaNodes_replication hextra] at hn
    exact (hns n (List.mem_of_mem_filter hn)).trimmed

theorem own_place (ho : Routable o) (hv : 0 < v) {ns : List GoString} (hns : ∀ n ∈ ns, Picked n) :
    Own o (.repo (.upsertReplicaLocations o v ns)) := by
  refine ⟨rfl, ?_⟩
  rintro ch ⟨n, hn, rfl⟩
  refine ⟨rfl, hv, (hns n hn).trimmed, ?_⟩
  rw [buildHotReplicaPath_routable ho hv, if_neg (hotPath_ne_nil o v)]

theorem own_putObject (ho : Routable o) {id : GoString} (hid : trimSpace id = o)
    (body : Option Blob) (contentType : GoString) :
    Within (Own o) Sane (putObject d id body contentType) fun _ => True := by
  subst hid
  unfold putObject
  dsimp only
  split_ifs
  · exact within_pure trivial
  refine (within_getDynamicNodes own_passive).bind fun nodes hnodes => ?_
  obtain response | ⟨replicaNodes, ecNodes⟩ := nodes
  · exact within_pure trivial
  cases body with
  | none => exact within_pure trivial
  | some bodyBytes =>
    have hpicked := hnodes _ rfl
    refine (within_writeReplicationAndLate own_passive ?_ ?_ ?_).attempt_bind fun x _ => ?_
    · exact fun v n => ownKey_replicaBlobKey ho v
    · intro now ns isDirty hnow hns
      refine own_commit ho hnow (fun n hn => hpicked n (hns n hn)) ?_ isDirty
      intro e he
      rw [List.mem_singleton] at he
      rw [he]
    · exact fun now ns hnow hns => own_place ho hnow fun n hn => hpicked n (hns n hn)
    · cases x <;> exact within_pure trivial

/-- A task that names no version of an object changes nothing. -/
theorem own_processReplicationRepair (ho : Routable o) {task : TaskRecord}
    (htask : task.objectID = o) :
    Within (Own o) Sane (processReplicationRepair d task) fun _ => True := by
  subst htask
  by_cases hv : 0 < task.version
  · exact within_processReplicationRepair own_passive
      (fun n data _ => ownKey_replicaBlobKey ho task.version) (fun ns hns => own_place ho hv hns)
      (fun n i data _ => own_chunk n i data) fun checksum k m locs hlocs => own_promote hlocs
  · refine within_repo (own_passive _ trivial) fun snap hsane => ?_
    cases snap with
    | none => exact within_pure trivial
    | some snap =>
      have hpos := hsane snap rfl
      dsimp only
      rw [if_pos (by omega)]
      exact within_pure trivial

theorem own_of_replicaPlace {n path : GoString} (h : ReplicaPlace o v n path) : OwnKey o path :=
  Or.inl (Or.inl ⟨v, h.version_pos, h.path_eq⟩)

theorem own_of_shardPlace {i : Int} {n path : GoString} (h : ShardPlace o i n path) :
    OwnKey o path := Or.inl (Or.inr ⟨i, h.path_eq⟩)

theorem own_processReplicationGC (ho : Routable o) {task : TaskRecord}
    (htask : task.objectID = o) :
    Within (Own o) Sane (processReplicationGC task) fun _ => True := by
  subst htask
  refine within_processReplicationGC own_passive ?_ (own_retire _)
  intro rs hrs r hr
  have hplace := hrs ho rs rfl r hr
  rw [if_neg (hplace.path_eq ▸ hotPath_ne_nil _ _)]
  exact own_of_replicaPlace hplace

theorem own_processOldVersionGC (ho : Routable o) {task : TaskRecord}
    (htask : task.objectID = o) :
    Within (Own o) Sane (processOldVersionGC task) fun _ => True := by
  subst htask
  refine within_processOldVersionGC own_passive ?_ (fun n => ownKey_replicaBlobKey ho task.version)
    (fun n => Or.inr rfl) (own_purge _)
  intro view hview
  obtain ⟨hreplicas, hshards⟩ := hview ho view rfl
  refine ⟨fun r hr => ?_, fun s hs => own_of_shardPlace (hshards s hs)⟩
  have hplace := hreplicas r hr
  have hpath : r.path ≠ [] := hplace.path_eq ▸ hotPath_ne_nil _ _
  unfold replicaBlobKey
  rw [if_neg hpath, if_neg hpath]
  exact own_of_replicaPlace hplace

/-- A job on an object makes own calls only, as long as the answers can be relied on. -/
theorem Works.own (ho : Routable o) {p : Job (Option Response)} (h : Works d o p) :
    Within (Own o) Sane p fun _ => True := by
  cases h with
  | put name body contentType =>
    exact (own_putObject ho name body contentType).bind fun _ _ => within_pure trivial
  | get name => exact (within_getObject own_passive _).bind fun _ _ => within_pure trivial
  | delete name =>
    exact (within_deleteObject own_passive name (fun md hmd => hmd ho md rfl) (fun n k hk => hk)
      own_remove).bind fun _ _ => within_pure trivial
  | migrate name =>
    subst name
    exact (within_processReplicationToEC own_passive (own_mark _) own_chunk
      (fun _ _ _ _ hlocs => own_promote hlocs) own_task).bind fun _ _ => within_pure trivial
  | repair name =>
    exact (own_processReplicationRepair ho name).bind fun _ _ => within_pure trivial
  | collect name =>
    exact (own_processReplicationGC ho name).bind fun _ _ => within_pure trivial
  | collectOld name =>
    exact (own_processOldVersionGC ho name).bind fun _ _ => within_pure trivial

end Works

/-! ## Answers -/

/-- The clocks are after the epoch. -/
def AfterEpoch : (c : Call) → c.Answer → Prop
  | .now, t => 0 < Time.unixNano t
  | _, _ => True

/-- How a cluster answers: requests reach the nodes through their routes, and the clocks are after the
epoch. -/
def Clocked (sem : (c : Call) → World → c.Answer → World → Prop) (c : Call) (w : World)
    (r : c.Answer) (w' : World) : Prop := routed sem c w r w' ∧ AfterEpoch c r

/-- Rows are at their keys, and they point to keys of their own object. -/
structure Tidy (w : World) : Prop where
  rows : Rows Routable w.records
  placed : WellPlaced (catalog w.records)

theorem tidy_empty : Tidy World.empty := ⟨rows_empty, wellPlaced_empty⟩

section Answers

variable {cfg : Config} {w w' : World} {o : GoString} {v : Int}

theorem Tidy.replicaPlace (hw : Tidy w) (ho : Routable o) {r : ReplicaRecord}
    (hr : r ∈ activeReplicas w.records o v) : ReplicaPlace o v r.nodeID r.path :=
  hw.placed.replica ((mem_activeReplicas separated_routable hw.rows ho).mp hr).1

theorem Tidy.shardPlace (hw : Tidy w) (ho : Routable o) {r : ECShardRecord}
    (hr : r ∈ shardRows w.records o v) : ShardPlace o r.shardIndex r.nodeID r.path :=
  hw.placed.shard ((mem_shardRows separated_routable hw.rows ho).mp hr)

/-- The metadata name the key of the current version's replicas. -/
theorem Tidy.hotKeyOf_answer (hw : Tidy w) (ho : Routable o) {obj : ObjectRecord}
    (hobj : (catalog w.records).head o = some obj) (ver : ObjectVersionRecord)
    (shards : List ECShardRecord) :
    hotKeyOf o (normalizedMetadata o obj ver (activeReplicas w.records o obj.currentVersion)
      shards) = hotPath o obj.currentVersion := by
  have hpath : metadataHotPath o obj.currentVersion
      (activeReplicas w.records o obj.currentVersion) = hotPath o obj.currentVersion := by
    unfold metadataHotPath
    cases hfind : (activeReplicas w.records o obj.currentVersion).find? fun r => r.path ≠ [] with
    | some r =>
      have hplace := hw.replicaPlace ho (List.mem_of_find?_eq_some hfind)
      simp only [hplace.path_eq, if_neg (hotPath_ne_nil _ _)]
    | none =>
      simp only [buildHotReplicaPath_routable ho (hw.placed.head hobj),
        if_neg (hotPath_ne_nil _ _)]
  unfold hotKeyOf
  rw [answer_get_hotKey, hpath]
  dsimp only [Meta.toString]
  rw [trimSpace_of_trimmed (trimmed_hotPath _ _), if_pos (hotPath_ne_nil _ _)]

theorem chunkPrefix_answer {obj : ObjectRecord} {ver : ObjectVersionRecord}
    {replicas : List ReplicaRecord} {shards : List ECShardRecord} :
    (normalizedMetadata o obj ver replicas shards).get (lit "chunk_prefix") =
      .str (o ++ lit "_cold_chunk_") := by
  rw [answer_get_base (by decide)]
  rfl

theorem Tidy.ownMetadata (hw : Tidy w) (ho : Routable o) {obj : ObjectRecord}
    (hobj : (catalog w.records).head o = some obj) (ver : ObjectVersionRecord) :
    OwnMetadata o (normalizedMetadata o obj ver (activeReplicas w.records o obj.currentVersion)
      (if ver.tier = .ec then shardRows w.records o obj.currentVersion else [])) where
  hotKey := by
    rw [hw.hotKeyOf_answer ho hobj]
    exact Or.inl (Or.inl ⟨_, hw.placed.head hobj, rfl⟩)
  placements := by
    rw [parse_answer]
    split_ifs with htier
    · intro p hp
      obtain ⟨r, hr, rfl⟩ := List.mem_map.mp hp
      have hmem := (List.perm_insertionSort _ _).mem_iff.mp (List.mem_of_mem_filter hr)
      exact own_of_shardPlace (hw.shardPlace ho hmem)
    · simp
  chunkPrefix := chunkPrefix_answer

/-- In a tidy cluster the answers can be relied on. -/
theorem Tidy.sane (hw : Tidy w) {c : Call} {r : c.Answer} (h : Clocked (Faulty cfg) c w r w') :
    Sane c r := by
  cases c with
  | now => exact h.2
  | repo c =>
    have h : Faulty cfg (.repo c) w r w' := h.1
    cases c with
    | getObjectVersionSnapshot o v =>
      rintro snap rfl
      obtain ⟨hanswer, -⟩ := h.read fun clocks =>
        atomically_getObjectVersionSnapshot hw.rows.typed o v
      obtain ⟨obj, ver, hobj, -, rfl⟩ := Catalog.snapshot_eq_some.mp hanswer.symm
      exact hw.placed.head hobj
    | listActiveReplicaLocations o v =>
      rintro ho rs rfl loc hloc
      obtain ⟨rfl, -⟩ := h.read fun clocks =>
        atomically_listActiveReplicaLocations hw.rows.typed o v
      obtain ⟨row, hrow, rfl⟩ := mem_listedReplicas.mp hloc
      exact hw.replicaPlace ho hrow
    | getObjectVersionGCView o v =>
      rintro ho view rfl
      obtain ⟨hanswer, -⟩ := h.read fun clocks =>
        atomically_getObjectVersionGCView hw.rows.typed o v
      obtain ⟨obj, -, hview⟩ := Option.bind_eq_some_iff.mp hanswer.symm
      obtain ⟨ver, -, rfl⟩ := Option.map_eq_some_iff.mp hview
      refine ⟨fun loc hloc => ?_, fun loc hloc => ?_⟩
      · obtain ⟨row, hrow, rfl⟩ := List.mem_map.mp hloc
        exact hw.replicaPlace ho hrow
      · obtain ⟨row, hrow, rfl⟩ := List.mem_map.mp hloc
        exact hw.shardPlace ho (List.mem_of_mem_filter hrow)
    | getNormalizedMetadata o =>
      rintro ho md rfl
      obtain ⟨hanswer, -⟩ := h.read fun clocks =>
        atomically_getNormalizedMetadata hw.rows.typed o
      obtain ⟨obj, hobj, hmd⟩ := Option.bind_eq_some_iff.mp hanswer.symm
      obtain ⟨ver, -, rfl⟩ := Option.map_eq_some_iff.mp hmd
      exact hw.ownMetadata ho hobj ver
    | _ => trivial
  | _ => trivial

/-- Calls whose changes are placed well keep the cluster tidy. -/
theorem Tidy.step (hw : Tidy w) {c : Call} {r : c.Answer} (h : Faulty cfg c w r w')
    (hc : ∀ rc, c = .repo rc → rc.Names Routable ∧ ∀ ch ∈ rc.changes, PlacesWell ch) : Tidy w' := by
  by_cases hrepo : ∃ rc, c = .repo rc
  · obtain ⟨rc, rfl⟩ := hrepo
    obtain ⟨hnames, hplaces⟩ := hc rc rfl
    obtain ⟨hrows, hplaced⟩ := h.kept separated_routable hnames hw.rows (J := WellPlaced)
      (fun ch hch _ _ hn hJ hm => hJ.step hn (hplaces ch hch) hm) hw.placed
    exact ⟨hrows, hplaced⟩
  · have hsame := h.records fun rc hrc => hrepo ⟨rc, hrc⟩
    exact ⟨hsame ▸ hw.rows, hsame ▸ hw.placed⟩

end Answers

/-! ## Isolation -/

/-- The rows and blobs of an object are as they were. -/
structure Untouched (b : GoString) (w w' : World) : Prop where
  rows : SameRows b (catalog w.records) (catalog w'.records)
  blobs : ∀ n k, BlobKey b k → w'.blobs n k = w.blobs n k

theorem Untouched.refl (b : GoString) (w : World) : Untouched b w w :=
  ⟨SameRows.refl b _, fun _ _ _ => rfl⟩

section Isolation

variable {cfg : Config} {w w' : World} {a b : GoString} {c : Call} {r : c.Answer}

theorem names_of_own {P : GoString → Prop} {rc : RepoCall} (hP : P a) (h : rc.Names (· = a)) :
    rc.Names P := by
  cases rc with
  | upkeep u => cases u <;> first | trivial | exact (show _ = a from h) ▸ hP
  | upsertReplicaLocations | markReplicaLocationsDeleted | upsertNormalizedMetadata
  | deleteNormalizedMetadata => exact (show _ = a from h) ▸ hP
  | _ => trivial

theorem Own.verbatim (ha : Verbatim a) (hown : Own a c) : c.Verbatim := by
  have hkey : ∀ k, OwnKey a k → VerbatimKey k := by
    rintro k ((⟨v, -, rfl⟩ | ⟨i, rfl⟩) | rfl)
    · exact verbatimKey_hotPath ha v
    · exact verbatimKey_chunkKey ha i
    · exact verbatimKey_id ha
  cases c with
  | store n k data => exact hkey k hown
  | delete n k => exact hkey k hown
  | _ => trivial

theorem Own.tidy (ha : Routable a) (hown : Own a c) (hw : Tidy w) (h : Faulty cfg c w r w') :
    Tidy w' := by
  refine hw.step h ?_
  rintro rc rfl
  exact ⟨names_of_own ha hown.1, fun ch hch => (hown.2 ch hch).2⟩

/-- An own call leaves other objects alone, unless the bare id is one of their blob keys. -/
theorem Own.untouched (ha : Routable a) (hb : Routable b) (hne : b ≠ a) (hid : ¬ BlobKey b a)
    (hown : Own a c) (hw : Tidy w) (h : Faulty cfg c w r w') : Untouched b w w' := by
  have hkey : ∀ k, OwnKey a k → ¬ BlobKey b k := by
    rintro k (hk | rfl) hbk
    · exact hne (hbk.object_eq hb ha hk)
    · exact hid hbk
  refine ⟨?_, fun n k hk => h.other_place ?_ ?_⟩
  · by_cases hrepo : ∃ rc, c = .repo rc
    · obtain ⟨rc, rfl⟩ := hrepo
      refine (h.kept separated_routable (names_of_own ha hown.1) hw.rows
        (J := SameRows b (catalog w.records)) ?_ (SameRows.refl b _)).2
      intro ch hch cat cat' hn hsame hm
      exact hsame.trans (hm.sameRows hn fun heq => hne (heq.trans (hown.2 ch hch).1))
    · rw [h.records fun rc hrc => hrepo ⟨rc, hrc⟩]
      exact SameRows.refl b _
  · rintro data rfl
    exact hkey k hown hk
  · rintro rfl
    exact hkey k hown hk

end Isolation

/-! ## Every interleaving -/

/-- What a process works on: an object, or the indexes of all objects. -/
inductive Duty where
  | object (o : GoString)
  | scan

/-- The jobs that run: jobs on objects, and the calls of the scanners. -/
inductive Begins (d : Deps) : Duty → Job (Option Response) → Prop where
  | work {o : GoString} {p : Job (Option Response)} (id : Verbatim o) (job : Works d o p) :
      Begins d (.object o) p
  | scan {u : Upkeep} (names : (RepoCall.upkeep u).Names Routable) :
      Begins d .scan (Job.repo (.upkeep u) >>= fun _ => pure none)

/-- The calls of the scanners. -/
def Scans (c : Call) : Prop := ∃ u, c = .repo (.upkeep u) ∧ (RepoCall.upkeep u).Names Routable

def dutyMonitor : Duty → Monitor Call Call.Answer Unit
  | .object o => confined (Own o) Sane
  | .scan => confined Scans Sane

/-- The object of a process has an id that all routes take as it is. -/
def Duty.Valid : Duty → Prop
  | .object o => Verbatim o
  | .scan => True

def starts (d : Deps) (_ : Nat) (duty : Duty) (p : Job (Option Response)) (w w' : World) : Prop :=
  Begins d duty p ∧ w' = w

abbrev Service := Pool Call Call.Answer GoError (Option Response) Duty World

section Runs

variable {d : Deps}

theorem tidy_of_allow {cfg : Config} {w w' : World} {c : Call} {r : c.Answer} {duty : Duty}
    (hvalid : duty.Valid) (hallow : (dutyMonitor duty).allow () c) (hw : Tidy w)
    (h : Faulty cfg c w r w') : Tidy w' := by
  cases duty with
  | object o => exact Own.tidy hvalid.toRoutable hallow hw h
  | scan =>
    obtain ⟨u, rfl, hnames⟩ := hallow
    refine hw.step h ?_
    rintro _ ⟨⟩
    refine ⟨hnames, ?_⟩
    rintro ch ⟨now, o, rfl⟩
    trivial

theorem verbatim_of_allow {c : Call} {duty : Duty} (hvalid : duty.Valid)
    (hallow : (dutyMonitor duty).allow () c) : c.Verbatim := by
  cases duty with
  | object o => exact Own.verbatim hvalid hallow
  | scan =>
    obtain ⟨u, rfl, -⟩ := hallow
    trivial

theorem service_discipline : Pool.Discipline (starts d) (fun _ _ => Clocked (Faulty d.cfg)) dutyMonitor
    (fun _ _ _ => True) Tidy (fun _ duty _ _ => duty.Valid) where
  onCall := by
    intro i duty t c w r w' hw hvalid hallow hstep
    have htidy : Tidy w' := by
      rcases routed_cases id (verbatim_of_allow hvalid hallow) hstep.1 with h | ⟨-, rfl⟩
      · exact tidy_of_allow hvalid hallow hw h
      · exact hw
    refine ⟨htidy, (), ?_, hvalid⟩
    cases duty with
    | object o => exact ⟨hw.sane hstep, rfl⟩
    | scan => exact ⟨hw.sane hstep, rfl⟩
  onOtherCall := fun _ _ _ _ _ hvalid => hvalid
  onStart := by
    rintro i duty p w w' hw ⟨hbegins, rfl⟩
    cases hbegins with
    | work id job => exact ⟨hw, (), (job.own id.toRoutable).obeys _, id⟩
    | @scan u names =>
      refine ⟨hw, (), Within.obeys (Q := fun _ => True) ?_ _, trivial⟩
      exact within_repo ⟨u, rfl, names⟩ fun _ _ => within_pure trivial
  onOtherStart := fun _ _ _ hvalid => hvalid

end Runs

/-! Two objects: one is stored, and the other one is about to be. -/

/-- Whether a process on an object has a call to make. -/
def Service.waits (s : Service) (i : Nat) (o : GoString) : Bool :=
  match s.procs i with
  | some (.object o', .call _ _) => o' = o
  | _ => false

theorem Service.next_of_waits {s : Service} {i : Nat} {o : GoString} (h : s.waits i o = true) :
    ∃ c k, s.procs i = some (.object o, .call c k) := by
  unfold waits at h
  split at h
  · rename_i hi
    exact ⟨_, _, of_decide_eq_true h ▸ hi⟩
  · cases h

/-- A healthy cluster answers every process. -/
def calmly (_ : Nat) (_ : Duty) : (c : Call) → World → c.Answer × World :=
  serveRouted smallDeps.cfg calmWeather

theorem clocked_serveRouted {sem : (c : Call) → World → c.Answer → World → Prop} {cfg : Config}
    (hsem : ∀ c w, sem c w (serve cfg calmWeather c w).1 (serve cfg calmWeather c w).2) (c : Call)
    (w : World) : Clocked sem c w (serveRouted cfg calmWeather c w).1
      (serveRouted cfg calmWeather c w).2 := by
  refine ⟨routed_serveRouted hsem c w, ?_⟩
  cases c with
  | now => exact show 0 < Time.unixNano 7 by decide
  | _ => trivial

theorem clocked_calmly (i : Nat) (duty : Duty) (c : Call) (w : World) :
    Clocked (Faulty smallDeps.cfg) c w (calmly i duty c w).1 (calmly i duty c w).2 :=
  clocked_serveRouted (fun _ _ => Or.inl ⟨calmWeather, rfl⟩) c w

def putJob (id : GoString) (body : Blob) : Job (Option Response) :=
  putObject smallDeps id (some body) [] >>= fun r => pure (some r)

/-- The object `a` is stored; `b` has chosen its nodes and its version. -/
def twoObjects : Service :=
  ((((Pool.idle World.empty).spawn 0 (.object (lit "a")) (putJob (lit "a") [7])).advanceAll calmly
    (List.replicate 10 0)).spawn 1 (.object (lit "b")) (putJob (lit "b") [8])).advanceAll calmly
      [1, 1, 1]

theorem trimmed_of_trimSpace {s : GoString} (h : trimSpace s = s) : Trimmed s :=
  h ▸ trimmed_trimSpace s

theorem verbatim_letter : Verbatim (lit "a") ∧ Verbatim (lit "b") :=
  ⟨⟨⟨by decide, trimmed_of_trimSpace (by decide +kernel), by decide⟩, by decide, by decide,
      by decide⟩,
    ⟨⟨by decide, trimmed_of_trimSpace (by decide +kernel), by decide⟩, by decide, by decide,
      by decide⟩⟩

theorem reaches_twoObjects : Pool.Reaches (starts smallDeps) (fun _ _ => Clocked (Faulty smallDeps.cfg))
    (Pool.idle World.empty) twoObjects := by
  refine .advanceAll clocked_calmly (.spawn (.advanceAll clocked_calmly (.spawn .refl rfl
    ⟨.work verbatim_letter.1 (.put (by decide +kernel) _ _), rfl⟩) _) ?_
    ⟨.work verbatim_letter.2 (.put (by decide +kernel) _ _), rfl⟩) _
  exact Option.isNone_iff_eq_none.mp (by decide +kernel)

end TieredStore.Cluster
