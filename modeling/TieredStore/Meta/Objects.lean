import TieredStore.Meta.DueIndex
import TieredStore.Meta.Metadata

/-!
# Object metadata

Commit, read and removal of the metadata of one object. `upsertNormalizedMetadata` is one
transaction over the head, the version row, the replica rows and, unless the due index is
committed asynchronously, the due index. The background part of an asynchronous commit is
`upsertTieringDueIndexDetached`.
-/

namespace TieredStore.Meta

open Lib

/-! ## Commit -/

/-- The head after a commit: a new one, or the old one moved to the version. -/
def upsertHead (objectID : GoString) (version : Int) (state : ObjectState) (now : Time)
    (found : Option ObjectRecord) : ObjectRecord :=
  let obj := found.getD ⟨objectID, lit "default", 0, .hotActive, now, Time.zero⟩
  { obj with
    currentVersion := version
    state := state
    tenantID := if obj.tenantID = [] then lit "default" else obj.tenantID
    updatedAt := now }

/-- The version row of a commit. -/
def upsertVersion (objectID : GoString) (version : Int) (metadata : Metadata) (now : Time) :
    ObjectVersionRecord where
  objectID := objectID
  version := version
  sizeBytes := toInt64 (metadata.get (lit "original_length")) 0
  checksumSHA256 := toString (metadata.get (lit "cold_hash")) []
  tier := resolveTier metadata
  contentType := toNullableString (metadata.get (lit "content_type"))
  encodingK := toNullableInt (metadata.get (lit "k"))
  encodingM := toNullableInt (metadata.get (lit "m"))
  createdAt := now

/-- The blob key recorded for the replicas of a commit. -/
def upsertHotPath (objectID : GoString) (version : Int) (metadata : Metadata) : GoString :=
  let hotPath := toString (metadata.get (lit "hot_key")) []
  let hotPath := if hotPath = [] then buildHotReplicaPath objectID version else hotPath
  if hotPath = [] then objectID else hotPath

/-- The replica rows of a HOT commit. -/
def upsertReplicaRowsTxn (objectID : GoString) (version : Int) (metadata : Metadata) : Txn Unit :=
  if resolveTier metadata = .hot then
    let hotPath := upsertHotPath objectID version metadata
    (toStringSlice (metadata.get (lit "replica_nodes"))).forM fun nodeID =>
      if nodeID = [] then pure ()
      else Txn.set (tiKVReplicaKey objectID version nodeID)
        (.replica ⟨objectID, version, nodeID, hotPath, .active⟩)
  else pure ()

/-- Whether the due index of a commit is left to a goroutine. -/
def dueIndexAsync (cfg : Config) (metadata : Metadata) : Bool :=
  resolveTier metadata = .hot ∧ cfg.dueIndexAsync

/-- The transaction of a commit. -/
def upsertTxn (cfg : Config) (objectID : GoString) (version : Int) (metadata : Metadata)
    (now : Time) : Txn (Option TaskRecord) := do
  let objKey := tiKVObjectKey objectID
  let found ← txnGetJSON Value.asObject objKey
  Txn.set objKey (.object (upsertHead objectID version (resolveState metadata) now found))
  let verRec := upsertVersion objectID version metadata now
  Txn.set (tiKVObjectVersionKey objectID version) (.objectVersion verRec)
  upsertReplicaRowsTxn objectID version metadata
  if dueIndexAsync cfg metadata then pure none
  else
    upsertTieringDueIndexTxn cfg objectID version (resolveTier metadata) verRec.sizeBytes now
    pure none

/-- `UpsertNormalizedMetadata`. The clock is read once for a version that the metadata do
not give and once for the records. -/
def upsertNormalizedMetadata (cfg : Config) (versionClock now : Time) (objectID : GoString)
    (metadata : Metadata) : KV Unit :=
  if objectID = [] then .fail (lit "object id is empty")
  else do
    let _ ← KV.runInTxn
      (upsertTxn cfg objectID (resolveVersion metadata versionClock) metadata now)
    pure ()

/-- The due-index update that an asynchronous commit leaves to a goroutine. -/
def upsertTieringDueIndexDetached (cfg : Config) (objectID : GoString) (version : Int)
    (tier : Tier) (sizeBytes : Int) (now : Time) : KV Unit := do
  let ws ← upsertTieringDueIndex cfg objectID version tier sizeBytes now
  KV.commit ws

/-! ## Read -/

/-- The order of the replica placements of an answer. -/
def replicaBefore (a b : ReplicaRecord) : Prop :=
  a.nodeID < b.nodeID ∨ (a.nodeID = b.nodeID ∧ ¬ b.path < a.path)

instance : DecidableRel replicaBefore := fun a b => by
  unfold replicaBefore
  infer_instance

def statusText : RowStatus → GoString
  | .active => lit "ACTIVE"
  | .deleted => lit "DELETED"
  | .unset => []

/-- The blob key that an answer names: the path of the first replica that has one. -/
def metadataHotPath (objectID : GoString) (version : Int) (replicas : List ReplicaRecord) :
    GoString :=
  let hotPath := match replicas.find? fun r => r.path ≠ [] with
    | some r => r.path
    | none => buildHotReplicaPath objectID version
  if hotPath = [] then objectID else hotPath

/-- The replica placements of an answer: rows with a node, in the order of the nodes. -/
def placedReplicas (replicas : List ReplicaRecord) : List ReplicaRecord :=
  (replicas.insertionSort replicaBefore).filter fun r => r.nodeID ≠ []

def replicaFields (placed : List ReplicaRecord) : Metadata :=
  if placed = [] then []
  else
    [(lit "replica_nodes", .strings (placed.map (·.nodeID))),
      (lit "hot_replicas", .maps (placed.map fun r =>
        [(lit "node_id", .str r.nodeID), (lit "path", .str r.path),
          (lit "status", .str (statusText r.status))]))]

def versionFields (obj : ObjectRecord) : Metadata :=
  if obj.state = .ecActive then
    [(lit "hot_version", .int64 0), (lit "cold_version", .int64 obj.currentVersion)]
  else [(lit "hot_version", .int64 obj.currentVersion), (lit "cold_version", .int64 0)]

def lengthField (ver : ObjectVersionRecord) : Metadata :=
  if 0 < ver.sizeBytes then [(lit "original_length", .int64 ver.sizeBytes)] else []

def contentTypeField (ver : ObjectVersionRecord) : Metadata :=
  match ver.contentType with
  | some ct => if ct ≠ [] then [(lit "content_type", .str ct)] else []
  | none => []

/-- The shard placements of an answer: the active rows, in the order of their indices. -/
def placedShards (shards : List ECShardRecord) : List ECShardRecord :=
  (shards.insertionSort fun a b => a.shardIndex ≤ b.shardIndex).filter fun r => r.status = .active

def shardPlacement (r : ECShardRecord) : List (GoString × Any) :=
  [(lit "shard_index", .int r.shardIndex), (lit "node_id", .str r.nodeID), (lit "path", .str r.path),
    (lit "status", .str (statusText r.status))]

def shardFields (ver : ObjectVersionRecord) (shards : List ECShardRecord) : Metadata :=
  if ver.tier = .ec ∧ placedShards shards ≠ [] then
    [(lit "ec_shards", .maps ((placedShards shards).map shardPlacement))]
  else []

/-- The answer of `GetNormalizedMetadata` from the rows it reads. -/
def normalizedMetadata (objectID : GoString) (obj : ObjectRecord) (ver : ObjectVersionRecord)
    (replicas : List ReplicaRecord) (shards : List ECShardRecord) : Metadata :=
  let base : Metadata :=
    [(lit "key_name", .str objectID), (lit "strategy", .str (strategyFromTier ver.tier)),
      (lit "cold_hash", .str ver.checksumSHA256),
      (lit "hot_key", .str (metadataHotPath objectID obj.currentVersion replicas)),
      (lit "cold_prefix", .str (objectID ++ lit "_cold_chunk_")),
      (lit "chunk_prefix", .str (objectID ++ lit "_cold_chunk_")),
      (lit "k", .int (ver.encodingK.getD 4)), (lit "m", .int (ver.encodingM.getD 2))]
  base ++ replicaFields (placedReplicas replicas) ++ versionFields obj ++ lengthField ver ++
    contentTypeField ver ++ shardFields ver shards

def getNormalizedMetadata (objectID : GoString) : KV (Option Metadata) := do
  match ← getObjectRecord (tiKVObjectKey objectID) with
  | none => pure none
  | some obj =>
    match ← getObjectVersionRecord (tiKVObjectVersionKey objectID obj.currentVersion) with
    | none => pure none
    | some ver =>
      let replicas ← listReplicaRecords objectID obj.currentVersion .active
      let shards ←
        if ver.tier = .ec then listECShardRecords objectID obj.currentVersion else pure []
      pure (some (normalizedMetadata objectID obj ver replicas shards))

/-- The version part of an admin view. -/
structure ObjectVersionAdminView where
  version : Int
  sizeBytes : Int
  checksumSHA256 : GoString
  tier : Tier
  contentType : Option GoString
  encodingK : Option Int
  encodingM : Option Int
  createdAt : Time
  deriving DecidableEq, Repr

structure ObjectAdminView where
  objectID : GoString
  currentVersion : Int
  state : ObjectState
  createdAt : Time
  updatedAt : Time
  version : Option ObjectVersionAdminView
  replicaLocations : List ReplicaLocation
  ecShardLocations : List ECShardLocation
  deriving DecidableEq, Repr

def getObjectAdminView (objectID : GoString) : KV (Option ObjectAdminView) := do
  match ← getObjectRecord (tiKVObjectKey objectID) with
  | none => pure none
  | some obj =>
    let ver ← getObjectVersionRecord (tiKVObjectVersionKey objectID obj.currentVersion)
    let replicas ← listReplicaRecords objectID obj.currentVersion .unset
    let shards ← listECShardRecords objectID obj.currentVersion
    let repOut := replicas.map fun r => (⟨r.nodeID, r.path, r.status⟩ : ReplicaLocation)
    let ecOut := shards.map fun r => (⟨r.shardIndex, r.nodeID, r.path, r.status⟩ : ECShardLocation)
    pure (some {
      objectID := obj.objectID
      currentVersion := obj.currentVersion
      state := obj.state
      createdAt := obj.createdAt
      updatedAt := obj.updatedAt
      version := ver.map fun v => ⟨v.version, v.sizeBytes, v.checksumSHA256, v.tier, v.contentType,
        v.encodingK, v.encodingM, v.createdAt⟩
      replicaLocations := repOut.insertionSort fun a b => ¬ b.nodeID < a.nodeID
      ecShardLocations := ecOut.insertionSort fun a b => a.shardIndex ≤ b.shardIndex })

/-! ## Removal -/

def deleteNormalizedMetadata (objectID : GoString) : KV Unit := do
  let versions ← batchDeletePrefix (tiKVObjectVersionPrefix objectID)
  let replicas ← batchDeletePrefix (tiKVReplicaPrefix objectID)
  let shards ← batchDeletePrefix (tiKVECShardPrefix objectID)
  let due ← removeTieringDueIndexForObjectInBatch objectID
  KV.commit ([Write.del (tiKVObjectKey objectID)] ++ versions ++ replicas ++ shards ++ due)

end TieredStore.Meta
