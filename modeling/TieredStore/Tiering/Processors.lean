import TieredStore.Cluster.Calls
import TieredStore.Cluster.Placement

/-!
# The task processors

One job per task type: migration of a version from replicas to erasure-coded shards, repair of its
replicas or shards, deletion of the replicas of a migrated version, and removal of an old version.
Requests that the source sends from several goroutines are sent in an order that the surroundings
choose (`Job.schedule`).
-/

namespace TieredStore.Tiering

open Lib Lib.Prog Lib.Bytes Meta Cluster

/-- What the processors and handlers are built with. -/
structure Deps where
  cfg : Config
  ec : Coder GoError
  sha256Hex : Blob → GoString
  rendezvousScore : GoString → GoString → UInt64

/-- The key of a shard's blob. It does not name the version. -/
def chunkKey (objectID : GoString) (shardIndex : Int) : GoString :=
  objectID ++ lit "_cold_chunk_" ++ formatInt shardIndex

/-- The key under which a replica is looked for: its path, or the path built from the version, or
the bare object id. -/
def replicaBlobKey (objectID : GoString) (version : Int) (path : GoString) : GoString :=
  let key := if path = [] then buildHotReplicaPath objectID version else path
  if key = [] then objectID else key

/-- Go's `fmt.Errorf("…: %w", err)` around an error of the coder. -/
def wrapped {α : Type} (what : GoString) (x : Except GoError α) : Job α :=
  match x with
  | .ok a => pure a
  | .error e => .fail (what ++ lit ": " ++ e)

/-- The text of two numbers in an error, as in `have=3 need=4`. -/
def haveNeed (have' need : GoString) (a b : Int) : GoString :=
  have' ++ lit "=" ++ formatInt a ++ lit " " ++ need ++ lit "=" ++ formatInt b

/-! ## REPL_TO_EC -/

def tryFetch (nodeID key : GoString) : Job (Option Blob) :=
  if nodeID = [] ∨ key = [] then pure none
  else do
    match ← Job.retrieve nodeID key with
    | .status 200 data => pure (some data)
    | _ => pure none

/-- The blobs of the places that hold one, up to the first. -/
def fetchFirst : List (GoString × GoString) → Job (Option Blob)
  | [] => pure none
  | (nodeID, key) :: rest => do
    match ← tryFetch nodeID key with
    | some data => pure (some data)
    | none => fetchFirst rest

/-- Where `fetchFromAnyReplica` looks, in this order: each replica under its key and then under the
bare object id, and each healthy node under the versioned key and then under the bare object id. -/
def fetchPlaces (replicas : List ReplicaLocation) (healthyNodes : List GoString)
    (objectID : GoString) (version : Int) : List (GoString × GoString) :=
  (replicas.flatMap fun r =>
    let key := replicaBlobKey objectID version r.path
    (r.nodeID, key) :: if key ≠ objectID then [(r.nodeID, objectID)] else []) ++
  healthyNodes.flatMap fun n => [(n, buildHotReplicaPath objectID version), (n, objectID)]

def fetchFromAnyReplica (replicas : List ReplicaLocation) (healthyNodes : List GoString)
    (objectID : GoString) (version : Int) : Job Blob := do
  match ← fetchFirst (fetchPlaces replicas healthyNodes objectID version) with
  | some data => pure data
  | none => .fail (lit "failed to fetch source object from active replicas")

def writeSingleShard (node objectID : GoString) (shardIndex : Nat) (payload : Blob) :
    Job (Option ECShardLocation) :=
  if node = [] then pure none
  else do
    match ← Job.store node (chunkKey objectID shardIndex) payload with
    | .status 200 _ | .status 204 _ =>
      pure (some ⟨shardIndex, node, chunkKey objectID shardIndex, .active⟩)
    | _ => pure none

/-- The shard writes that are sent together: shard `i` goes to node `i`. -/
def shardJobs (nodes : List GoString) (shards : List Blob) : List ((GoString × Blob) × Nat) :=
  (nodes.zip shards).zipIdx

def writeJobs (objectID : GoString) : List ((GoString × Blob) × Nat) → Job (List ECShardLocation)
  | [] => pure []
  | ((node, payload), index) :: rest => do
    let location ← writeSingleShard node objectID index payload
    let locations ← writeJobs objectID rest
    pure (location.toList ++ locations)

def writeShards (nodes : List GoString) (objectID : GoString) (shards : List Blob) :
    Job (List ECShardLocation) := do
  let jobs ← Job.schedule (shardJobs nodes shards)
  let locations ← writeJobs objectID jobs
  pure (locations.insertionSort fun a b => a.shardIndex ≤ b.shardIndex)

def gcTaskID (objectID : GoString) (version : Int) : GoString :=
  lit "gc-repl:" ++ objectID ++ lit ":" ++ formatInt version

def enqueueReplicationGCTask (objectID : GoString) (version : Int) : Job Unit := do
  let now ← Job.now
  Job.repo (.task (.enqueue (gcTaskID objectID version) objectID version (lit "GC") 90 now))

def encodeShards (d : Deps) (sourceBytes : Blob) : Job (List Blob) := do
  let shards ← wrapped (lit "ec split failed") (d.ec.split sourceBytes)
  wrapped (lit "ec encode failed") (d.ec.encode shards)

/-- The work on a version that is still to be migrated. -/
def migrate (d : Deps) (objectID : GoString) (version : Int) : Job Unit := do
  Job.repo (.markObjectMigrating objectID version)
  let nodes ← Job.listHealthyNodeIDs
  if nodes.length < d.cfg.k then
    .fail (lit "insufficient healthy nodes for migration: " ++
      haveNeed (lit "have") (lit "need_at_least") nodes.length d.cfg.k)
  else
    let replicas ← Job.repo (.listActiveReplicaLocations objectID version)
    let sourceBytes ← fetchFromAnyReplica replicas nodes objectID version
    let shards ← encodeShards d sourceBytes
    let targetNodes :=
      selectByRendezvous d.rendezvousScore (ecShardKey objectID version) nodes shards.length
    if targetNodes.length < d.cfg.k then
      .fail (lit "insufficient selected nodes for migration: " ++
        haveNeed (lit "have") (lit "need_at_least") targetNodes.length d.cfg.k)
    else
      let locations ← writeShards targetNodes objectID shards
      if locations.length < d.cfg.k then
        .fail (lit "ec shard write insufficient: " ++
          haveNeed (lit "success") (lit "required") locations.length d.cfg.k)
      else
        Job.repo (.promoteObjectVersionToEC objectID version (d.sha256Hex sourceBytes) d.cfg.k
          d.cfg.m locations)
        enqueueReplicationGCTask objectID version

def processReplicationToEC (d : Deps) (task : TaskRecord) : Job Unit := do
  match ← Job.repo (.getObjectVersionSnapshot task.objectID task.version) with
  | none =>
    .fail (lit "object snapshot missing: object=" ++ task.objectID ++ lit " version=" ++
      formatInt task.version ++ lit " task=" ++ task.taskID)
  | some snapshot =>
    if snapshot.currentVersion ≠ task.version then pure ()
    else if snapshot.tier = .ec ∧ snapshot.state = .ecActive then pure ()
    else migrate d task.objectID task.version

/-! ## REPAIR -/

/-- The replica under its key and, when the node answers without data, under the bare object id. -/
def fetchFromActiveReplicas (objectID : GoString) (version : Int) : List ReplicaLocation → Job Blob
  | [] => .fail (lit "failed to fetch source bytes from active replicas")
  | r :: rest => do
    let key := replicaBlobKey objectID version r.path
    match ← Job.retrieve r.nodeID key with
    | .failed _ => fetchFromActiveReplicas objectID version rest
    | .status 200 data => pure data
    | .status _ _ =>
      if key ≠ objectID then
        match ← Job.retrieve r.nodeID objectID with
        | .status 200 data => pure data
        | _ => fetchFromActiveReplicas objectID version rest
      else fetchFromActiveReplicas objectID version rest

def fetchSingleBlob (nodeID key : GoString) : Job (Option Blob) := do
  match ← Job.retrieve nodeID key with
  | .status 200 data => pure (some data)
  | _ => pure none

def writeSingleBlob (nodeID key : GoString) (payload : Blob) : Job (Except GoError Unit) := do
  match ← Job.store nodeID key payload with
  | .failed e => pure (.error e)
  | .status 200 _ | .status 204 _ => pure (.ok ())
  | .status code _ => pure (.error (lit "status=" ++ formatInt code))

/-- The nodes on which the payload was written. -/
def writeReplicas (objectID : GoString) (version : Int) (payload : Blob) :
    List GoString → Job (List GoString)
  | [] => pure []
  | nodeID :: rest => do
    let replicaPath := replicaBlobKey objectID version []
    let result ← writeSingleBlob nodeID replicaPath payload
    let out ← writeReplicas objectID version payload rest
    pure (match result with
      | .ok _ => nodeID :: out
      | .error _ => out)

def pickRepairTargetNodes (d : Deps) (key : GoString) (healthyNodes usedNodes : List GoString)
    (need : Int) : List GoString :=
  if need ≤ 0 then []
  else
    let unused := healthyNodes.filter (· ∉ usedNodes)
    let out := selectByRendezvous d.rendezvousScore key unused need
    if out.length ≥ need then out
    else
      let fallback := healthyNodes.filter (· ∉ out)
      out ++ selectByRendezvous d.rendezvousScore (key ++ lit ":fallback") fallback
        (need - out.length)

def processHOTRepair (d : Deps) (task : TaskRecord) : Job Unit := do
  let replicas : List ReplicaLocation ←
    Job.repo (.listActiveReplicaLocations task.objectID task.version)
  let target : Int := if d.cfg.hotReplicaCount ≤ 0 then 1 else d.cfg.hotReplicaCount
  if replicas = [] then .fail (lit "no active replicas available for repair source")
  else if replicas.length ≥ target then pure ()
  else
    let healthyNodes ← Job.listHealthyNodeIDs
    if healthyNodes = [] then .fail (lit "no healthy nodes available for repair targets")
    else
      let targetNodes := pickRepairTargetNodes d (hotRepairKey task.objectID task.version)
        healthyNodes (replicas.map (·.nodeID)) (target - replicas.length)
      if targetNodes = [] then .fail (lit "no candidate nodes to place repaired replicas")
      else
        let payload ← fetchFromActiveReplicas task.objectID task.version replicas
        let repaired ← writeReplicas task.objectID task.version payload targetNodes
        if repaired = [] then .fail (lit "repair write failed for all candidate nodes")
        else
          Job.repo (.upsertReplicaLocations task.objectID task.version repaired)
          let totalActive : Int := replicas.length + repaired.length
          if totalActive < target then
            .fail (lit "repair partial: " ++
              haveNeed (lit "active") (lit "target") totalActive target)
          else pure ()

/-- The shards that a repair takes as present: ACTIVE, in range, with a node and a path; the last
one of an index counts. -/
def activeByIndex (totalShards : Int) (shards : List ECShardLocation) (i : Int) :
    Option ECShardLocation :=
  (shards.filter fun s => s.status = .active ∧ 0 ≤ s.shardIndex ∧ s.shardIndex < totalShards ∧
    s.nodeID ≠ [] ∧ s.path ≠ [] ∧ s.shardIndex = i).getLast?

/-- Fetch shards into a table of chunks. -/
def fetchShards : List (Nat × ECShardLocation) → List (Option Blob) → Job (List (Option Blob))
  | [], shards => pure shards
  | (index, loc) :: rest, shards => do
    match ← fetchSingleBlob loc.nodeID loc.path with
    | some payload => fetchShards rest (shards.set index (some payload))
    | none => fetchShards rest shards

/-- Write the missing shards, each to its target; a failed write ends the repair. -/
def writeMissing (objectID : GoString) (shards : List (Option Blob)) :
    List (Nat × GoString) → Job (List ECShardLocation)
  | [] => pure []
  | (shardIndex, nodeID) :: rest => do
    let payload := (shards.getD shardIndex none).getD []
    if payload = [] then
      .fail (lit "missing reconstructed shard payload index=" ++ formatInt shardIndex)
    else
      let path := chunkKey objectID shardIndex
      match ← writeSingleBlob nodeID path payload with
      | .error e =>
        .fail (lit "write repaired ec shard failed index=" ++ formatInt shardIndex ++
          lit " node=" ++ nodeID ++ lit ": " ++ e)
      | .ok _ =>
        let locations ← writeMissing objectID shards rest
        pure (⟨shardIndex, nodeID, path, .active⟩ :: locations)

def positiveOr (x : Option Int) (fallback : Int) : Int :=
  match x with
  | some n => if n > 0 then n else fallback
  | none => fallback

/-- The repair of a version in tier EC from its shard placements. -/
def repairShards (d : Deps) (task : TaskRecord) (k m : Int) (placements : List ECShardLocation) :
    Job Unit := do
  let totalShards := k + m
  if totalShards ≤ 0 then
    .fail (lit "invalid ec parameters " ++ haveNeed (lit "k") (lit "m") k m)
  else
    let indices := List.range totalShards.toNat
    let active := indices.filterMap fun (i : Nat) =>
      (activeByIndex totalShards placements i).map (i, ·)
    let missing := indices.filter fun (i : Nat) => activeByIndex totalShards placements i = none
    if missing = [] then pure ()
    else
      let fetched ← fetchShards (← Job.schedule active) (List.replicate totalShards.toNat none)
      if Coder.present fetched < k then
        .fail (lit "insufficient shards to reconstruct: " ++
          haveNeed (lit "have") (lit "need") (Coder.present fetched) k)
      else
        let shards ← wrapped (lit "ec reconstruct failed") (d.ec.reconstruct fetched)
        let healthyNodes ← Job.listHealthyNodeIDs
        if healthyNodes = [] then .fail (lit "no healthy nodes available for ec repair")
        else
          let targetNodes := pickRepairTargetNodes d (ecRepairKey task.objectID task.version)
            healthyNodes (active.map (·.2.nodeID)) missing.length
          if targetNodes.length < missing.length then
            .fail (lit "not enough target nodes for ec repair: " ++
              haveNeed (lit "need") (lit "got") missing.length targetNodes.length)
          else
            let repaired ← writeMissing task.objectID shards (missing.zip targetNodes)
            Job.repo (.promoteObjectVersionToEC task.objectID task.version [] k m repaired)

def processECRepair (d : Deps) (task : TaskRecord) : Job Unit := do
  match ← Job.repo (.getObjectAdminView task.objectID) with
  | none => pure ()
  | some view =>
    match view.version with
    | none => pure ()
    | some version =>
      if view.currentVersion ≠ task.version ∨ version.version ≠ task.version then pure ()
      else if version.tier ≠ .ec then pure ()
      else
        repairShards d task (positiveOr version.encodingK d.cfg.k)
          (positiveOr version.encodingM d.cfg.m) view.ecShardLocations

def processReplicationRepair (d : Deps) (task : TaskRecord) : Job Unit := do
  match ← Job.repo (.getObjectVersionSnapshot task.objectID task.version) with
  | none => pure ()
  | some snapshot =>
    if snapshot.currentVersion ≠ task.version then pure ()
    else
      match snapshot.tier with
      | .hot => processHOTRepair d task
      | .ec => processECRepair d task

/-! ## GC -/

/-- Delete the replicas; the first failure ends the task. -/
def deleteReplicas (objectID : GoString) : List ReplicaLocation → Job Unit
  | [] => pure ()
  | r :: rest => do
    let key := if r.path = [] then objectID else r.path
    match ← Job.delete r.nodeID key with
    | .failed e => .fail (lit "gc delete request failed for node=" ++ r.nodeID ++ lit ": " ++ e)
    | .status 200 _ | .status 404 _ => deleteReplicas objectID rest
    | .status code _ =>
      .fail (lit "gc delete failed for node=" ++ r.nodeID ++ lit " status=" ++ formatInt code)

def stateText : ObjectState → GoString
  | .hotActive => lit "HOT_ACTIVE"
  | .migrationPending => lit "MIGRATION_PENDING"
  | .migrating => lit "MIGRATING"
  | .ecActive => lit "EC_ACTIVE"

def tierText : Tier → GoString
  | .hot => lit "HOT"
  | .ec => lit "EC"

def processReplicationGC (task : TaskRecord) : Job Unit := do
  match ← Job.repo (.getObjectVersionSnapshot task.objectID task.version) with
  | none => pure ()
  | some snapshot =>
    if snapshot.currentVersion ≠ task.version then pure ()
    else if snapshot.tier ≠ .ec ∨ snapshot.state ≠ .ecActive then
      .fail (lit "object " ++ task.objectID ++ lit " version " ++ formatInt task.version ++
        lit " not ready for replica gc (state=" ++ stateText snapshot.state ++ lit " tier=" ++
        tierText snapshot.tier ++ lit ")")
    else
      let replicas : List ReplicaLocation ←
        Job.repo (.listActiveReplicaLocations task.objectID task.version)
      if replicas = [] then pure ()
      else
        deleteReplicas task.objectID replicas
        Job.repo (.markReplicaLocationsDeleted task.objectID task.version
          (replicas.map (·.nodeID)))

/-! ## GC_OLD_VERSION -/

def deleteBlob (nodeID key : GoString) : Job (Except GoError Unit) :=
  if nodeID = [] ∨ key = [] then pure (.ok ())
  else do
    match ← Job.delete nodeID key with
    | .failed e => pure (.error e)
    | .status 200 _ | .status 404 _ => pure (.ok ())
    | .status code _ =>
      pure (.error (lit "delete blob failed node=" ++ nodeID ++ lit " key=" ++ key ++
        lit " status=" ++ formatInt code))

/-- Delete blobs; the first failure ends the task. With `legacy`, the blob under that key is
deleted from the same node too, whatever comes of it. -/
def deletePlaces (legacy : Option GoString) : List (GoString × GoString) → Job Unit
  | [] => pure ()
  | (nodeID, key) :: rest => do
    match ← deleteBlob nodeID key with
    | .error e => .fail e
    | .ok _ =>
      match legacy with
      | some objectID =>
        if key ≠ objectID then
          let _ ← deleteBlob nodeID objectID
          deletePlaces legacy rest
        else deletePlaces legacy rest
      | none => deletePlaces legacy rest

def deleteHOTVersion (objectID : GoString) (version : Int) (replicas : List ReplicaLocation) :
    Job Unit :=
  if replicas ≠ [] then
    deletePlaces (some objectID)
      (replicas.map fun r => (r.nodeID, replicaBlobKey objectID version r.path))
  else do
    let nodes ← Job.listHealthyNodeIDs
    deletePlaces (some objectID) (nodes.map fun n => (n, replicaBlobKey objectID version []))

def deleteECVersion (shards : List ECShardLocation) : Job Unit :=
  deletePlaces none ((shards.filter fun s => s.nodeID ≠ [] ∧ s.path ≠ []).map fun s =>
    (s.nodeID, s.path))

def processOldVersionGC (task : TaskRecord) : Job Unit := do
  match ← Job.repo (.getObjectVersionGCView task.objectID task.version) with
  | none => pure ()
  | some view =>
    if view.currentVersion = task.version then pure ()
    else do
      match view.tier with
      | .hot => deleteHOTVersion task.objectID task.version view.replicaLocations
      | .ec => deleteECVersion view.ecShardLocations
      Job.repo (.purgeObjectVersionMetadata task.objectID task.version)

/-! ## A small cluster -/

/-- The errors of the Reed-Solomon library for too little data and for too few shards. -/
def errShortData : GoError := lit "not enough data to fill the number of requested shards"

def errTooFewShards : GoError := lit "too few shards given"

/-- Parity shards are copies of the first data shard. When a blob repeats one byte and needs no
padding, this is what a Reed-Solomon encoder does. -/
def copyingCoder : Coder GoError where
  split B := if B = [] then .error errShortData else .ok (Coder.dataShards 4 B ++ [[], []])
  encode ss := .ok (ss.take 4 ++ [ss.headD [], ss.headD []])
  reconstruct cs :=
    match cs.find? Coder.isPresent with
    | some c => if Coder.present cs < 4 then .error errTooFewShards else .ok (cs.map fun _ => c)
    | none => .error errTooFewShards

/-- Four data and two parity shards; nodes are ranked by their ids. -/
def smallDeps : Deps where
  cfg := {}
  ec := copyingCoder
  sha256Hex _ := lit "checksum"
  rendezvousScore _ _ := 0

/-- Four data shards and one parity shard, with a lawful coder. -/
def parityDeps : Deps where
  cfg := { m := 1 }
  ec := Coder.xorParity 4 errShortData errTooFewShards
  sha256Hex _ := lit "checksum"
  rendezvousScore _ _ := 0

theorem lawful_parity : parityDeps.ec.Lawful 4 1 := Coder.lawful_xorParity (by decide) _ _

end TieredStore.Tiering
