import TieredStore.Tiering.Processors

/-!
# The read service and the storage operations

`readReplication` answers with the first replica that arrives. `readEC` fetches the shards of the
placements in the metadata, reconstructs, joins the data shards and cuts the padding; without
placements it asks the given nodes under the chunk prefix. `deleteReplication` and `deleteEC`
delete from all nodes and count the successes. They never report an error.
-/

namespace TieredStore.Api

open Lib Lib.Prog Lib.Bytes Meta Cluster Tiering

/-! ## Reads -/

/-- The data of the first node that answers with some, in the order of arrival. -/
def readFirst (key : GoString) : List GoString → Job (Option Blob)
  | [] => pure none
  | nodeURL :: rest => do
    match ← Job.retrieve nodeURL key with
    | .status 200 data => pure (some data)
    | _ => readFirst key rest

def readReplication (replicaNodes : List GoString) (key : GoString) : Job Blob := do
  let arrivals ← Job.schedule replicaNodes
  match ← readFirst key arrivals with
  | some data => pure data
  | none => .fail (lit "key '" ++ key ++ lit "' not found on any replica nodes")

structure ECShardPlacement where
  index : Int
  nodeID : GoString
  path : GoString
  deriving DecidableEq

def intFromAny : Any → Option Int
  | .float64 q => some (truncate q)
  | .int n | .int32 n | .int64 n => some n
  | _ => none

/-- A row of `ec_shards`: it has an index, a node and a path, and it is not marked as lost. -/
def parsePlacement (fields : Metadata) : Option ECShardPlacement :=
  match intFromAny (fields.get (lit "shard_index")) with
  | none => none
  | some index =>
    let nodeID := toString (fields.get (lit "node_id")) []
    let path := toString (fields.get (lit "path")) []
    let status := toString (fields.get (lit "status")) []
    if status ≠ [] ∧ status ≠ lit "ACTIVE" then none
    else if nodeID = [] ∨ path = [] then none
    else some ⟨index, nodeID, path⟩

def parseECShardPlacements (metadata : Metadata) : List ECShardPlacement :=
  match metadata.get (lit "ec_shards") with
  | .list rows => rows.filterMap fun
    | .map fields => parsePlacement fields
    | _ => none
  | .maps rows => rows.filterMap parsePlacement
  | _ => []

def getIntFromMetadata (metadata : Metadata) (key : GoString) : Option Int :=
  intFromAny (metadata.get key)

/-- Fetch shards into a table of chunks and count those that were fetched. A place outside the table
is skipped. -/
def fetchChunks : List ECShardPlacement → List (Option Blob) → Nat → Job (List (Option Blob) × Nat)
  | [], chunks, healthyCount => pure (chunks, healthyCount)
  | p :: rest, chunks, healthyCount =>
    if p.index < 0 ∨ p.index ≥ chunks.length ∨ p.nodeID = [] ∨ p.path = [] then
      fetchChunks rest chunks healthyCount
    else do
      match ← Job.retrieve p.nodeID p.path with
      | .status 200 data =>
        fetchChunks rest (chunks.set p.index.toNat (some data)) (healthyCount + 1)
      | _ => fetchChunks rest chunks healthyCount

/-- The first `k` chunks joined; the index of the first one that is missing otherwise. -/
def joinChunks (chunks : List (Option Blob)) : Nat → Except Nat Blob
  | 0 => .ok []
  | k + 1 =>
    match joinChunks chunks k with
    | .error i => .error i
    | .ok data =>
      match chunks.getD k none with
      | some chunk => .ok (data ++ chunk)
      | none => .error k

/-- The shards that a read asks for: the placements, or the given nodes in their order. -/
def shardRequests (ecNodes : List GoString) (metadata : Metadata) (chunkPrefix : GoString)
    (totalShards : Int) : List ECShardPlacement × Int :=
  match parseECShardPlacements metadata with
  | [] =>
    let totalShards := if ecNodes.length > totalShards then (ecNodes.length : Int) else totalShards
    (ecNodes.zipIdx.map fun x => ⟨x.2, x.1, chunkPrefix ++ formatInt x.2⟩, totalShards)
  | placements => (placements, totalShards)

def chunkPrefixOf (metadata : Metadata) : GoString :=
  let chunkPrefix := toString (metadata.get (lit "cold_prefix")) []
  if chunkPrefix = [] then toString (metadata.get (lit "chunk_prefix")) [] else chunkPrefix

def readEC (d : Deps) (ecNodes : List GoString) (metadata : Metadata) : Job Blob := do
  let k := (getIntFromMetadata metadata (lit "k")).getD d.cfg.k
  let m := (getIntFromMetadata metadata (lit "m")).getD d.cfg.m
  match getIntFromMetadata metadata (lit "original_length") with
  | none => .fail (lit "metadata missing 'original_length'")
  | some originalLength =>
    let chunkPrefix := chunkPrefixOf metadata
    if chunkPrefix = [] then .fail (lit "metadata missing 'cold_prefix' or 'chunk_prefix'")
    else
      let totalShards := if k + m ≤ 0 then (ecNodes.length : Int) else k + m
      let (requests, totalShards) := shardRequests ecNodes metadata chunkPrefix totalShards
      let arrivals ← Job.schedule requests
      let (chunks, healthyCount) ←
        fetchChunks arrivals (List.replicate totalShards.toNat none) 0
      if healthyCount < k then
        .fail (lit "insufficient chunks (need " ++ formatInt k ++ lit ", got " ++
          formatInt healthyCount ++ lit ")")
      else
        match d.ec.reconstruct chunks with
        | .error e => .fail (lit "EC reconstruction failed: " ++ e)
        | .ok chunks =>
          match joinChunks chunks k.toNat with
          | .error i => .fail (lit "chunk " ++ formatInt i ++ lit " is nil post-reconstruction")
          | .ok data =>
            if data.length < originalLength then
              .fail (lit "data corruption: reconstructed length (" ++ formatInt data.length ++
                lit ") < original (" ++ formatInt originalLength ++ lit ")")
            else pure (data.take originalLength.toNat)

/-! ## Deletes -/

/-- Whether a reply to a delete counts as success; a missing blob does. -/
def deleted : Reply → Bool
  | .status 200 _ | .status 404 _ => true
  | _ => false

/-- Send deletes and count the successes. -/
def deleteAll : List (GoString × GoString) → Job Nat
  | [] => pure 0
  | (nodeURL, key) :: rest => do
    let reply ← Job.delete nodeURL key
    let successCount ← deleteAll rest
    pure (if deleted reply then successCount + 1 else successCount)

def deleteReplication (replicaNodes : List GoString) (key : GoString) : Job Nat := do
  deleteAll (← Job.schedule (replicaNodes.map fun n => (n, key)))

def deleteECByPlacement (placements : List ECShardPlacement) : Job Nat := do
  deleteAll (← Job.schedule ((placements.filter fun p => p.nodeID ≠ [] ∧ p.path ≠ []).map fun p =>
    (p.nodeID, p.path)))

def deleteEC (ecNodes : List GoString) (metadata : Metadata) : Job Nat :=
  match parseECShardPlacements metadata with
  | [] => do
    let chunkPrefix := match metadata.get (lit "chunk_prefix") with
      | .str chunkPrefix => chunkPrefix
      | _ => toString (metadata.get (lit "key_name")) [] ++ lit "_chunk_"
    deleteAll (← Job.schedule (ecNodes.zipIdx.map fun x => (x.1, chunkPrefix ++ formatInt x.2)))
  | placements => deleteECByPlacement placements

end TieredStore.Api
