import TieredStore.Cluster.Calls

/-!
# The write service

`writeReplication` sends the value to all replica nodes at once and commits the metadata when a
quorum of them has answered with success. What arrives after the commit is left to
`observeLateHotReplicaWrites`, which adds the late nodes to the replica rows. The order in which
the results arrive is the surroundings' choice; a write takes effect when its result arrives.
-/

namespace TieredStore.Api

open Lib Lib.Prog Lib.Bytes Meta Cluster

def resolveHotWriteQuorum (cfg : Config) (replicaCount : Int) : Int :=
  let quorum := if cfg.hotWriteQuorum ≤ 0 then 1 else cfg.hotWriteQuorum
  if replicaCount ≤ 0 then quorum
  else if quorum > replicaCount then replicaCount + 1
  else quorum

def isStoreSuccessStatus (status : Nat) : Bool := status = 200 || status = 204

/-- Whether a reply to a store reports success. -/
def stored : Reply → Bool
  | .failed _ => false
  | .status code _ => isStoreSuccessStatus code

/-- Write one replica; the answer says whether it succeeded. -/
def writeSingleHotReplica (nodeURL hotReplicaPath : GoString) (value : Blob) : Job Bool := do
  let reply ← Job.store nodeURL hotReplicaPath value
  pure (stored reply)

def finalizeMetadata (mainKey : GoString) (metadata : Metadata) : Job Unit := do
  match ← (Job.repo (.upsertNormalizedMetadata mainKey metadata)).attempt with
  | .ok _ => pure ()
  | .error e => .fail (lit "failed to commit normalized metadata: " ++ e)

/-- Take results in the order of their arrival until the quorum is met: the nodes that succeeded,
and the nodes whose results have not arrived. -/
def awaitQuorum (requiredQuorum : Int) (hotReplicaPath : GoString) (value : Blob) :
    List GoString → List GoString → Job (List GoString × List GoString)
  | [], writtenNodes => pure (writtenNodes, [])
  | nodeURL :: rest, writtenNodes =>
    if writtenNodes.length < requiredQuorum then do
      let succeeded ← writeSingleHotReplica nodeURL hotReplicaPath value
      awaitQuorum requiredQuorum hotReplicaPath value rest
        (if succeeded then writtenNodes ++ [nodeURL] else writtenNodes)
    else pure (writtenNodes, nodeURL :: rest)

/-- The outcome of a write. `late` are the nodes whose results were not in at the commit. -/
structure WriteResult where
  nodesWritten : List GoString
  dirty : Bool
  requiredQuorum : Int
  version : Int
  hotReplicaPath : GoString
  late : List GoString

def writeReplication (cfg : Config) (replicaNodes : List GoString) (key : GoString) (value : Blob)
    (extraMeta : Metadata) : Job WriteResult := do
  if replicaNodes = [] then .fail (lit "replication failed: no replica nodes available")
  else
    let now ← Job.now
    let version := now.unixNano
    let built := buildHotReplicaPath key version
    let hotReplicaPath := if built = [] then key else built
    let requiredQuorum := resolveHotWriteQuorum cfg replicaNodes.length
    let arrivals ← Job.schedule replicaNodes
    let (writtenNodes, late) ← awaitQuorum requiredQuorum hotReplicaPath value arrivals []
    if writtenNodes.length < requiredQuorum then
      .fail (lit "hot write quorum not met: " ++ formatInt writtenNodes.length ++ lit "/" ++
        formatInt replicaNodes.length ++ lit " successful (required " ++ formatInt requiredQuorum ++
        lit ")")
    else
      let isDirty := decide (writtenNodes.length < replicaNodes.length)
      finalizeMetadata key
        (replicationMetadata version hotReplicaPath value.length writtenNodes extraMeta isDirty)
      pure ⟨writtenNodes, isDirty, requiredQuorum, version, hotReplicaPath, late⟩

/-- The late writes that succeed. -/
def lateSuccesses (hotReplicaPath : GoString) (value : Blob) : List GoString → Job (List GoString)
  | [] => pure []
  | nodeURL :: rest => do
    let succeeded ← writeSingleHotReplica nodeURL hotReplicaPath value
    let nodes ← lateSuccesses hotReplicaPath value rest
    pure (if succeeded then nodeURL :: nodes else nodes)

def observeLateHotReplicaWrites (late : List GoString) (hotReplicaPath : GoString) (value : Blob)
    (objectID : GoString) (version : Int) : Job Unit := do
  let lateSuccessNodes ← lateSuccesses hotReplicaPath value late
  if lateSuccessNodes = [] then pure ()
  else
    match ← (Job.repo (.getObjectVersionSnapshot objectID version)).attempt with
    | .ok (some (snapshot : ObjectVersionSnapshot)) =>
      if snapshot.currentVersion ≠ version ∨ snapshot.tier ≠ .hot then pure ()
      else
        let _ ← (Job.repo (.upsertReplicaLocations objectID version lateSuccessNodes)).attempt
        pure ()
    | _ => pure ()

/-- A write with what it leaves to the background. -/
def writeReplicationAndLate (cfg : Config) (replicaNodes : List GoString) (key : GoString)
    (value : Blob) (extraMeta : Metadata) : Job WriteResult := do
  let result ← writeReplication cfg replicaNodes key value extraMeta
  if result.late ≠ [] then
    observeLateHotReplicaWrites result.late result.hotReplicaPath value key result.version
    pure result
  else pure result

/-- The cluster after one write of four bytes. -/
def writtenWorld : World :=
  ((writeReplicationAndLate {} [lit "n1", lit "n2", lit "n3"] (lit "a") [7, 7, 7, 7] []).run
    (serve {} calmWeather) World.empty).2

end TieredStore.Api
