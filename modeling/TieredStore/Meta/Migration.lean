import TieredStore.Meta.Objects

/-!
# Migration and removal of versions

The repository calls of the tiering processors: the state changes of an object that
migrates, the promotion of a version to erasure-coded shards, the rows of its replicas, and
the removal of an old version. The checks of these functions read the store outside any
transaction; each of them ends in blind writes.
-/

namespace TieredStore.Meta

open Lib

structure ObjectVersionSnapshot where
  objectID : GoString
  currentVersion : Int
  taskVersion : Int
  state : ObjectState
  tier : Tier
  deriving DecidableEq, Repr

def getObjectVersionSnapshot (objectID : GoString) (taskVersion : Int) :
    KV (Option ObjectVersionSnapshot) := do
  match ← getObjectRecord (tiKVObjectKey objectID) with
  | none => pure none
  | some obj =>
    match ← getObjectVersionRecord (tiKVObjectVersionKey objectID taskVersion) with
    | none => pure none
    | some ver =>
      pure (some ⟨objectID, obj.currentVersion, taskVersion, obj.state, ver.tier⟩)

def notEligible : GoError := lit "object not eligible for migrating state transition"

def markObjectMigrating (now : Time) (objectID : GoString) (version : Int) : KV Unit := do
  match ← (getObjectRecord (tiKVObjectKey objectID)).attempt with
  | .ok (some obj) =>
    if obj.currentVersion ≠ version then .fail notEligible
    else
      match obj.state with
      | .hotActive | .migrationPending | .migrating =>
        KV.set (tiKVObjectKey objectID)
          (.object { obj with state := .migrating, updatedAt := now })
      | .ecActive => .fail notEligible
  | _ => .fail notEligible

/-- The shard row of a location. -/
def shardRow (objectID : GoString) (version : Int) (loc : ECShardLocation) : ECShardRecord where
  objectID := objectID
  version := version
  shardIndex := loc.shardIndex
  nodeID := loc.nodeID
  path := loc.path
  status := if loc.status = .unset then .active else loc.status

/-- The version row after a promotion. -/
def promotedVersion (checksum : GoString) (k m : Int) (ver : ObjectVersionRecord) :
    ObjectVersionRecord :=
  { ver with
    tier := .ec
    checksumSHA256 := if checksum ≠ [] then checksum else ver.checksumSHA256
    encodingK := some k
    encodingM := some m }

/-- The batch of a promotion. -/
def promoteBatch (now : Time) (objectID : GoString) (version : Int) (checksum : GoString)
    (k m : Int) (locations : List ECShardLocation) (obj : ObjectRecord)
    (ver : ObjectVersionRecord) : List KVWrite :=
  locations.map (fun loc => Write.set (tiKVECShardKey objectID version loc.shardIndex)
    (.ecShard (shardRow objectID version loc))) ++
  [Write.set (tiKVObjectVersionKey objectID version)
      (.objectVersion (promotedVersion checksum k m ver)),
    Write.set (tiKVObjectKey objectID) (.object { obj with state := .ecActive, updatedAt := now })]

def promoteObjectVersionToEC (now : Time) (objectID : GoString) (version : Int)
    (checksum : GoString) (k m : Int) (locations : List ECShardLocation) : KV Unit :=
  if locations = [] then .fail (lit "no ec shard locations to commit")
  else do
    match ← (getObjectRecord (tiKVObjectKey objectID)).attempt with
    | .ok (some obj) =>
      if obj.currentVersion ≠ version then
        .fail (lit "object version is no longer current during ec promotion")
      else
        match ← (getObjectVersionRecord (tiKVObjectVersionKey objectID version)).attempt with
        | .ok (some ver) =>
          KV.commit (promoteBatch now objectID version checksum k m locations obj ver)
        | _ => .fail (lit "object version missing during ec promotion")
    | _ => .fail (lit "object version is no longer current during ec promotion")

def listActiveReplicaLocations (objectID : GoString) (version : Int) :
    KV (List ReplicaLocation) := do
  let recs ← listReplicaRecords objectID version .active
  let out := recs.map fun r => (⟨r.nodeID, r.path, r.status⟩ : ReplicaLocation)
  pure (out.insertionSort fun a b => ¬ b.nodeID < a.nodeID)

def upsertReplicaLocations (objectID : GoString) (version : Int) (nodeIDs : List GoString) :
    KV Unit :=
  let built := buildHotReplicaPath objectID version
  let replicaPath := if built = [] then objectID else built
  nodeIDs.forM fun nodeID =>
    if nodeID = [] then pure ()
    else KV.set (tiKVReplicaKey objectID version nodeID)
      (.replica ⟨objectID, version, nodeID, replicaPath, .active⟩)

def markReplicaLocationsDeleted (objectID : GoString) (version : Int) (nodeIDs : List GoString) :
    KV Unit :=
  nodeIDs.forM fun nodeID => do
    let key := tiKVReplicaKey objectID version nodeID
    match ← (getJSON Value.asReplica key).attempt with
    | .ok (some rec) => KV.set key (.replica { rec with status := .deleted })
    | _ => pure ()

/-! ## Old versions -/

structure ObjectVersionGCView where
  objectID : GoString
  version : Int
  currentVersion : Int
  tier : Tier
  createdAt : Time
  replicaLocations : List ReplicaLocation
  ecShardLocations : List ECShardLocation
  deriving DecidableEq, Repr

def getObjectVersionGCView (objectID : GoString) (version : Int) :
    KV (Option ObjectVersionGCView) := do
  match ← getObjectRecord (tiKVObjectKey objectID) with
  | none => pure none
  | some obj =>
    match ← getObjectVersionRecord (tiKVObjectVersionKey objectID version) with
    | none => pure none
    | some ver =>
      let replicaRows ← listReplicaRecords objectID version .active
      let shardRows ← listECShardRecords objectID version
      pure (some {
        objectID := objectID
        version := version
        currentVersion := obj.currentVersion
        tier := ver.tier
        createdAt := ver.createdAt
        replicaLocations := replicaRows.map fun r => ⟨r.nodeID, r.path, r.status⟩
        ecShardLocations := (shardRows.filter fun r => r.status = .active).map fun r =>
          ⟨r.shardIndex, r.nodeID, r.path, r.status⟩ })

def purgeObjectVersionMetadata (objectID : GoString) (version : Int) : KV Unit := do
  match ← getObjectRecord (tiKVObjectKey objectID) with
  | none => pure ()
  | some obj =>
    if obj.currentVersion = version then
      .fail (lit "refuse to purge current version object=" ++ objectID ++ lit " version=" ++
        Bytes.formatInt version)
    else
      let replicas ← batchDeletePrefix (tiKVReplicaVersionPrefix objectID version)
      let shards ← batchDeletePrefix (tiKVECShardVersionPrefix objectID version)
      let due ← removeTieringDueIndexByVersionInBatch objectID version
      KV.commit ([Write.del (tiKVObjectVersionKey objectID version)] ++ replicas ++ shards ++ due)

end TieredStore.Meta
