import TieredStore.Api.ReadService
import TieredStore.Api.WriteService

/-!
# The object routes

`PUT`, `GET` and `DELETE /v2/objects/:id`. A handler trims the id, chooses nodes among those that
the API knows, and works on what the metadata say. A `PUT` goes on after its answer with the
replica writes that were late.
-/

namespace TieredStore.Api

open Lib Lib.Prog Lib.Bytes Meta Cluster Tiering

/-! ## Node selection -/

/-- Replica nodes: the ranking of the object, or the nodes with the least load and among those the
ranking. -/
def selectHotReplicaNodes (d : Deps) (objectID : GoString) (active : ActiveNodes)
    (replicaTarget : Int) : List GoString :=
  if replicaTarget ≤ 0 then []
  else
    let ranked := selectByRendezvous d.rendezvousScore (hotReplicaKey objectID) active.nodes
      active.nodes.length
    match active.loadPenalty with
    | none => ranked.take replicaTarget.toNat
    | some loadPenalty =>
      if ranked.length ≤ replicaTarget then ranked.take replicaTarget.toNat
      else
        let candidates := ranked.zipIdx.insertionSort fun a b =>
          loadPenalty a.1 < loadPenalty b.1 ∨ (loadPenalty a.1 = loadPenalty b.1 ∧ a.2 ≤ b.2)
        (candidates.map (·.1)).take replicaTarget.toNat

/-- Why no nodes can be selected. -/
inductive SelectError where
  | quorum (writeQuorum replicaTarget : Int)
  | replica (replicaTarget : Int)
  | ec (ecTarget : Int)

def SelectError.text : SelectError → GoString
  | quorum writeQuorum replicaTarget => lit "HOT_WRITE_QUORUM(" ++ formatInt writeQuorum ++
      lit ") cannot exceed HOT_REPLICA_COUNT(" ++ formatInt replicaTarget ++ lit ")"
  | replica replicaTarget => lit "need " ++ formatInt replicaTarget ++ lit " healthy replica nodes"
  | ec ecTarget => lit "need " ++ formatInt ecTarget ++ lit " healthy EC nodes"

def SelectError.summary : SelectError → GoString
  | quorum _ _ => lit "Service unavailable: invalid hot write configuration"
  | replica _ => lit "Service unavailable: Insufficient replica nodes"
  | ec _ => lit "Service unavailable: Insufficient EC nodes"

def selectDynamicNodesForObjectWithLoads (d : Deps) (objectID : GoString) (active : ActiveNodes)
    (replicaTarget writeQuorum ecTarget : Int) :
    Except SelectError (List GoString × List GoString) :=
  let replicaTarget := if replicaTarget ≤ 0 then 3 else replicaTarget
  let writeQuorum := if writeQuorum ≤ 0 then 1 else writeQuorum
  let ecTarget := if ecTarget ≤ 0 then (d.cfg.k : Int) + d.cfg.m else ecTarget
  if writeQuorum > replicaTarget then .error (.quorum writeQuorum replicaTarget)
  else if active.nodes.length < replicaTarget then .error (.replica replicaTarget)
  else if active.nodes.length < ecTarget then .error (.ec ecTarget)
  else .ok (selectHotReplicaNodes d objectID active replicaTarget,
    selectByRendezvous d.rendezvousScore (ecShardKey objectID 0) active.nodes ecTarget)

/-! ## Answers -/

inductive Response where
  | json (status : Nat) (fields : Metadata)
  | data (contentType : GoString) (bytes : Blob)

def Response.status : Response → Nat
  | json status _ => status
  | data _ _ => 200

/-- An answer with one text field. -/
def errorResponse (status : Nat) (name text : GoString) : Response :=
  .json status [(name, .str text)]

/-- The nodes for replicas and for shards, or the answer 503. -/
def getDynamicNodes (d : Deps) (objectID : GoString) :
    Job (Except Response (List GoString × List GoString)) := do
  match ← Job.activeNodes with
  | none => pure (.error (errorResponse 503 (lit "error")
      (lit "Service unavailable: Storage node registration timeout")))
  | some active =>
    match selectDynamicNodesForObjectWithLoads d objectID active d.cfg.hotReplicaCount
        d.cfg.hotWriteQuorum (d.cfg.k + d.cfg.m) with
    | .ok nodes => pure (.ok nodes)
    | .error e => pure (.error (.json 503
        [(lit "error", .str e.summary), (lit "detail", .str e.text)]))

/-! ## Metadata -/

/-- Add a trimmed node id that is not there yet. -/
def addNode (out : List GoString) (nodeID : GoString) : List GoString :=
  if trimSpace nodeID = [] ∨ trimSpace nodeID ∈ out then out else out ++ [trimSpace nodeID]

/-- The node of a replica placement that is not marked as lost. -/
def placementNode (placement : Metadata) : Option GoString :=
  let status := toString (placement.get (lit "status")) []
  if status ≠ [] ∧ status ≠ lit "ACTIVE" then none
  else some (toString (placement.get (lit "node_id")) [])

def hotReplicaNodesFromMetadata (metadata : Metadata) : List GoString :=
  let placed : List GoString := match metadata.get (lit "hot_replicas") with
    | .maps placements => placements.filterMap placementNode
    | .list placements => placements.filterMap fun
      | Any.map placement => placementNode placement
      | _ => none
    | _ => []
  match placed.foldl addNode [] with
  | [] =>
    let listed : List GoString := match metadata.get (lit "replica_nodes") with
      | .strings nodes => nodes
      | .list nodes => nodes.map fun n => toString n []
      | _ => []
    listed.foldl addNode []
  | nodes => nodes

def preferMetadataReplicaNodes (metadata : Metadata) (fallback : List GoString) : List GoString :=
  match hotReplicaNodesFromMetadata metadata with
  | [] => fallback
  | nodes => nodes

/-- The key of the replicas: the one of the metadata, or the object id. -/
def hotKeyOf (objectID : GoString) (metadata : Metadata) : GoString :=
  let hk := trimSpace (toString (metadata.get (lit "hot_key")) [])
  if hk ≠ [] then hk else objectID

/-- The metadata of an object, or the answer 404 or 500. -/
def loadMetadata (objectID : GoString) : Job (Except Response Metadata) := do
  match ← (Job.repo (.getNormalizedMetadata objectID)).attempt with
  | .error e => pure (.error (errorResponse 500 (lit "error") e))
  | .ok none => pure (.error (errorResponse 404 (lit "detail")
      (lit "Metadata not found for key '" ++ objectID ++ lit "'")))
  | .ok (some (metadata : Metadata)) => pure (.ok metadata)

def strategyOf (metadata : Metadata) : GoString := toString (metadata.get (lit "strategy")) []

def conflict (text strategy : GoString) : Response :=
  .json 409 [(lit "error", .str text), (lit "strategy", .str strategy)]

def orOctetStream (contentType : GoString) : GoString :=
  if trimSpace contentType = [] then lit "application/octet-stream" else trimSpace contentType

/-! ## Handlers -/

def invalidID : Response := errorResponse 400 (lit "error") (lit "invalid object id")

/-- `PUT`; a body that cannot be read is `none`. -/
def putObject (d : Deps) (id : GoString) (body : Option Blob) (contentTypeHeader : GoString) :
    Job Response := do
  let objectID := trimSpace id
  if objectID = [] then pure invalidID
  else
    match ← getDynamicNodes d objectID with
    | .error response => pure response
    | .ok (replicaNodes, _) =>
      match body with
      | none => pure (errorResponse 400 (lit "error") (lit "failed to read request body"))
      | some bodyBytes =>
        let contentType := orOctetStream contentTypeHeader
        match ← (writeReplicationAndLate d.cfg replicaNodes objectID bodyBytes
            [(lit "content_type", .str contentType)]).attempt with
        | .error e => pure (errorResponse 500 (lit "error") e)
        | .ok result => pure (.json 201
            [(lit "status", .str (lit "ok")), (lit "object_id", .str objectID),
              (lit "tier", .str (lit "HOT")), (lit "strategy", .str (lit "replication")),
              (lit "size_bytes", .int bodyBytes.length), (lit "content_type", .str contentType),
              (lit "nodes_written", .strings result.nodesWritten),
              (lit "partial", .bool result.dirty),
              (lit "write_quorum", .str (formatInt result.requiredQuorum ++ lit "/" ++
                formatInt replicaNodes.length)),
              (lit "writes_success", .int result.nodesWritten.length),
              (lit "foreground_writes_success", .int result.nodesWritten.length),
              (lit "all_replica_observed", .bool (result.late = [])),
              (lit "quorum_returned", .bool (result.late ≠ []))])

def getObject (d : Deps) (id : GoString) : Job Response := do
  let objectID := trimSpace id
  if objectID = [] then pure invalidID
  else
    match ← getDynamicNodes d objectID with
    | .error response => pure response
    | .ok (replicaNodes, ecNodes) =>
      match ← loadMetadata objectID with
      | .error response => pure response
      | .ok metadata =>
        let answer (result : Except GoError Blob) : Response :=
          match result with
          | .error e => errorResponse 404 (lit "detail") e
          | .ok dataBytes =>
            .data (orOctetStream (toString (metadata.get (lit "content_type")) [])) dataBytes
        if strategyOf metadata = lit "replication" then
          let result ← (readReplication (preferMetadataReplicaNodes metadata replicaNodes)
            (hotKeyOf objectID metadata)).attempt
          pure (answer result)
        else if strategyOf metadata = lit "ec" then
          let result ← (readEC d ecNodes metadata).attempt
          pure (answer result)
        else pure (conflict (lit "object is not binary-readable via /v2/objects")
          (strategyOf metadata))

/-- The end of a `DELETE`: the metadata go. -/
def dropMetadata (objectID : GoString) (metadata : Metadata) (counter : GoString) (count : Nat) :
    Job Response := do
  match ← (Job.repo (.deleteNormalizedMetadata objectID)).attempt with
  | .error e => pure (errorResponse 500 (lit "error") (lit "delete metadata failed: " ++ e))
  | .ok _ => pure (.json 200 [(lit "status", .str (lit "ok")), (lit "object_id", .str objectID),
      (lit "strategy", .str (strategyOf metadata)), (counter, .int count)])

def deleteObject (d : Deps) (id : GoString) : Job Response := do
  let objectID := trimSpace id
  if objectID = [] then pure invalidID
  else
    match ← getDynamicNodes d objectID with
    | .error response => pure response
    | .ok (replicaNodes, ecNodes) =>
      match ← loadMetadata objectID with
      | .error response => pure response
      | .ok metadata =>
        if strategyOf metadata = lit "replication" then
          let count ← deleteReplication (preferMetadataReplicaNodes metadata replicaNodes)
            (hotKeyOf objectID metadata)
          dropMetadata objectID metadata (lit "nodes_deleted") count
        else if strategyOf metadata = lit "ec" then
          let count ← deleteEC ecNodes metadata
          dropMetadata objectID metadata (lit "chunks_deleted") count
        else pure (conflict (lit "object strategy is not deletable via /v2/objects")
          (strategyOf metadata))

end TieredStore.Api
