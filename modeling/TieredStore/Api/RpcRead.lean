import TieredStore.Api.Objects
import TieredStore.Meta.Json
import TieredStore.Meta.Reads

/-!
# Reads over RPC

The API reads metadata directly or through an RPC client, which receives them as JSON. The readers
of the API find the same placement in both (`rpc_read_agrees_iff`), as long as the numbers are
floats and the key of the replicas is text. The shard placements are the rows of the version, as
long as no row of another object or version lies under the prefix of the scan.
-/

namespace TieredStore.Api

open Lib Lib.Prog Lib.Bytes Lib.Utf8 Meta

/-! ## Stores of JSON -/

/-- A store as the key-value service holds it: every key has a row of its family, and rows are JSON.
A row at the key of an id that is not text does not carry that id. -/
structure JsonRows (s : Store) : Prop where
  typed : Typed s
  text : ∀ k x, s.get? k = some x → x.readBack = x

/-- A shard row that a reader can use. -/
def Placeable (r : ECShardRecord) : Prop := r.status = .active ∧ r.nodeID ≠ [] ∧ r.path ≠ []

instance : DecidablePred Placeable := fun _ => inferInstanceAs (Decidable (_ ∧ _ ∧ _))

/-- Whether an entry is a shard row of a version that a reader can use. -/
def isOwn (o : GoString) (v : Int) (e : GoString × Value) : Bool :=
  match e.2 with
  | .ecShard r => e.1 = tiKVECShardKey o v r.shardIndex ∧ Placeable r
  | _ => false

/-- The active shard rows of a version that have a node and a path. -/
def ownShards (s : Store) (o : GoString) (v : Int) : List ECShardRecord :=
  (s.entries.filter (isOwn o v)).filterMap fun e => e.2.asECShard

def placementOf (r : ECShardRecord) : ECShardPlacement := ⟨r.shardIndex, r.nodeID, r.path⟩

/-- The placements of the shard rows of a version, in the order of their indices. -/
def ownPlacements (s : Store) (o : GoString) (v : Int) : List ECShardPlacement :=
  ((ownShards s o v).insertionSort fun a b => a.shardIndex ≤ b.shardIndex).map placementOf

/-! ## The fields of an answer -/

section Fields

variable {o : GoString} {obj : ObjectRecord} {ver : ObjectVersionRecord}
  {replicas : List ReplicaRecord} {shards : List ECShardRecord} {name : GoString}

theorem get_append_left {m m' : Metadata} (h : ∀ e ∈ m', e.1 ≠ name) :
    Metadata.get (m ++ m') name = m.get name := by
  induction m with
  | nil =>
    have := @Metadata.get_append_of_absent m' [] name h
    rwa [List.append_nil] at this
  | cons e rest ih => rw [List.cons_append, Metadata.get_cons, Metadata.get_cons, ih]

theorem names_replicaFields (placed : List ReplicaRecord) :
    ∀ e ∈ replicaFields placed, e.1 ∈ [lit "replica_nodes", lit "hot_replicas"] := by
  unfold replicaFields
  split <;> simp

theorem names_versionFields (obj : ObjectRecord) :
    ∀ e ∈ versionFields obj, e.1 ∈ [lit "hot_version", lit "cold_version"] := by
  unfold versionFields
  split <;> simp

theorem names_lengthField (ver : ObjectVersionRecord) :
    ∀ e ∈ lengthField ver, e.1 ∈ [lit "original_length"] := by
  unfold lengthField
  split <;> simp

theorem names_contentTypeField (ver : ObjectVersionRecord) :
    ∀ e ∈ contentTypeField ver, e.1 ∈ [lit "content_type"] := by
  unfold contentTypeField
  split
  · split <;> simp
  · simp

theorem names_shardFields (ver : ObjectVersionRecord) (shards : List ECShardRecord) :
    ∀ e ∈ shardFields ver shards, e.1 ∈ [lit "ec_shards"] := by
  unfold shardFields
  split <;> simp

/-- The fields that every answer has. -/
def baseFields (o : GoString) (obj : ObjectRecord) (ver : ObjectVersionRecord)
    (replicas : List ReplicaRecord) : Metadata :=
  [(lit "key_name", .str o), (lit "strategy", .str (strategyFromTier ver.tier)),
    (lit "cold_hash", .str ver.checksumSHA256),
    (lit "hot_key", .str (metadataHotPath o obj.currentVersion replicas)),
    (lit "cold_prefix", .str (o ++ lit "_cold_chunk_")),
    (lit "chunk_prefix", .str (o ++ lit "_cold_chunk_")),
    (lit "k", .int (ver.encodingK.getD 4)), (lit "m", .int (ver.encodingM.getD 2))]

theorem names_baseFields (o : GoString) (obj : ObjectRecord) (ver : ObjectVersionRecord)
    (replicas : List ReplicaRecord) :
    ∀ e ∈ baseFields o obj ver replicas, e.1 ∈ [lit "key_name", lit "strategy", lit "cold_hash",
      lit "hot_key", lit "cold_prefix", lit "chunk_prefix", lit "k", lit "m"] :=
  fun _ he => List.mem_map_of_mem (f := Prod.fst) he

theorem valid_names_answer :
    ∀ e ∈ normalizedMetadata o obj ver replicas shards, Valid e.1 := by
  have hnames : ∀ name ∈ [lit "key_name", lit "strategy", lit "cold_hash", lit "hot_key",
      lit "cold_prefix", lit "chunk_prefix", lit "k", lit "m"] ++
      [lit "replica_nodes", lit "hot_replicas"] ++ [lit "hot_version", lit "cold_version"] ++
      [lit "original_length"] ++ [lit "content_type"] ++ [lit "ec_shards"], Valid name := by
    decide +kernel
  intro e he
  refine hnames e.1 ?_
  simp only [normalizedMetadata, List.mem_append] at he ⊢
  refine he.imp (Or.imp (Or.imp (Or.imp (Or.imp ?_ ?_) ?_) ?_) ?_) ?_
  · exact names_baseFields o obj ver replicas e
  · exact names_replicaFields _ e
  · exact names_versionFields obj e
  · exact names_lengthField ver e
  · exact names_contentTypeField ver e
  · exact names_shardFields ver shards e

theorem absent_of_names {m : Metadata} {names : List GoString} (h : ∀ e ∈ m, e.1 ∈ names)
    (hname : name ∉ names) : ∀ e ∈ m, e.1 ≠ name := by
  rintro e he rfl
  exact hname (h e he)

/-- Skip the blocks of an answer that do not have a name, from the right. -/
theorem answer_get_base (h : name ∉ [lit "hot_version", lit "cold_version", lit "original_length",
    lit "content_type", lit "ec_shards"]) :
    (normalizedMetadata o obj ver replicas shards).get name =
      (baseFields o obj ver replicas ++ replicaFields (placedReplicas replicas)).get name := by
  simp only [List.mem_cons, List.not_mem_nil, or_false, not_or] at h
  obtain ⟨h₁, h₂, h₃, h₄, h₅⟩ := h
  unfold normalizedMetadata
  rw [get_append_left (absent_of_names (names_shardFields ver shards) (by simp [h₅])),
    get_append_left (absent_of_names (names_contentTypeField ver) (by simp [h₄])),
    get_append_left (absent_of_names (names_lengthField ver) (by simp [h₃])),
    get_append_left (absent_of_names (names_versionFields obj) (by simp [h₁, h₂]))]
  rfl

/-- Skip them from the left. -/
theorem answer_get_tail (h : name ∉ [lit "key_name", lit "strategy", lit "cold_hash",
    lit "hot_key", lit "cold_prefix", lit "chunk_prefix", lit "k", lit "m", lit "replica_nodes",
    lit "hot_replicas", lit "hot_version", lit "cold_version"]) :
    (normalizedMetadata o obj ver replicas shards).get name =
      (lengthField ver ++ (contentTypeField ver ++ shardFields ver shards)).get name := by
  have hbase : name ∉ [lit "key_name", lit "strategy", lit "cold_hash", lit "hot_key",
      lit "cold_prefix", lit "chunk_prefix", lit "k", lit "m"] := fun hmem =>
    h (List.mem_append_left _ hmem)
  have hreplicas : name ∉ [lit "replica_nodes", lit "hot_replicas"] := by
    simp_all only [List.mem_cons, List.not_mem_nil, or_false, not_or, not_false_eq_true]
  have hversion : name ∉ [lit "hot_version", lit "cold_version"] := by
    simp_all only [List.mem_cons, List.not_mem_nil, or_false, not_or, not_false_eq_true]
  unfold normalizedMetadata
  simp only [List.append_assoc]
  refine (Metadata.get_append_of_absent
    (absent_of_names (names_baseFields o obj ver replicas) hbase)).trans ?_
  rw [Metadata.get_append_of_absent (absent_of_names (names_replicaFields _) hreplicas),
    Metadata.get_append_of_absent (absent_of_names (names_versionFields obj) hversion)]

theorem answer_get_hotKey : (normalizedMetadata o obj ver replicas shards).get (lit "hot_key") =
    .str (metadataHotPath o obj.currentVersion replicas) := by
  rw [answer_get_base (by decide)]
  rfl

theorem answer_get_k : (normalizedMetadata o obj ver replicas shards).get (lit "k") =
    .int (ver.encodingK.getD 4) := by
  rw [answer_get_base (by decide)]
  rfl

theorem answer_get_m : (normalizedMetadata o obj ver replicas shards).get (lit "m") =
    .int (ver.encodingM.getD 2) := by
  rw [answer_get_base (by decide)]
  rfl

theorem answer_get_replicas (h : name ∈ [lit "replica_nodes", lit "hot_replicas"]) :
    (normalizedMetadata o obj ver replicas shards).get name =
      (replicaFields (placedReplicas replicas)).get name := by
  have hother : ∀ name ∈ [lit "replica_nodes", lit "hot_replicas"],
      name ∉ [lit "hot_version", lit "cold_version", lit "original_length", lit "content_type",
        lit "ec_shards"] ∧
      name ∉ [lit "key_name", lit "strategy", lit "cold_hash", lit "hot_key", lit "cold_prefix",
        lit "chunk_prefix", lit "k", lit "m"] := by
    decide +kernel
  rw [answer_get_base (hother name h).1, Metadata.get_append_of_absent
    (absent_of_names (names_baseFields o obj ver replicas) (hother name h).2)]

theorem answer_get_length :
    (normalizedMetadata o obj ver replicas shards).get (lit "original_length") =
      if 0 < ver.sizeBytes then .int64 ver.sizeBytes else .nil := by
  rw [answer_get_tail (by decide +kernel), get_append_left]
  · unfold lengthField
    split <;> rfl
  · exact List.forall_mem_append.mpr
      ⟨absent_of_names (names_contentTypeField ver) (by decide),
        absent_of_names (names_shardFields ver shards) (by decide)⟩

theorem answer_get_contentType :
    (normalizedMetadata o obj ver replicas shards).get (lit "content_type") =
      (contentTypeField ver).get (lit "content_type") := by
  rw [answer_get_tail (by decide +kernel),
    Metadata.get_append_of_absent (absent_of_names (names_lengthField ver) (by decide)),
    get_append_left (absent_of_names (names_shardFields ver shards) (by decide))]

theorem answer_get_ecShards :
    (normalizedMetadata o obj ver replicas shards).get (lit "ec_shards") =
      if ver.tier = .ec ∧ placedShards shards ≠ [] then
        .maps ((placedShards shards).map shardPlacement)
      else .nil := by
  rw [answer_get_tail (by decide +kernel),
    Metadata.get_append_of_absent (absent_of_names (names_lengthField ver) (by decide)),
    Metadata.get_append_of_absent (absent_of_names (names_contentTypeField ver) (by decide))]
  unfold shardFields
  split <;> rfl

/-- The fields of an answer after JSON. -/
theorem answer_json_get (name : GoString) :
    (normalizedMetadata o obj ver replicas shards).json.get name =
      ((normalizedMetadata o obj ver replicas shards).get name).json :=
  Metadata.get_json valid_names_answer name

end Fields

/-! ## The readers -/

/-- Go's assertion that a value is a string. -/
def textOf : Any → Option GoString
  | .str s => some s
  | _ => none

/-- The storage operations have their own copy of the parser, with the same text. -/
def storageOpsParseECShardPlacements (metadata : Metadata) : List ECShardPlacement :=
  parseECShardPlacements metadata

/-- The readers of the API find the same in two answers. -/
structure SameReads (m m' : Metadata) : Prop where
  nodes : hotReplicaNodesFromMetadata m = hotReplicaNodesFromMetadata m'
  texts : ∀ name ∈ [lit "hot_key", lit "content_type"], textOf (m.get name) = textOf (m'.get name)
  numbers : ∀ name ∈ [lit "k", lit "m", lit "original_length"],
    getIntFromMetadata m name = getIntFromMetadata m' name
  placements : parseECShardPlacements m = parseECShardPlacements m'
  deletions : storageOpsParseECShardPlacements m = storageOpsParseECShardPlacements m'

section Readers

variable {o : GoString} {obj : ObjectRecord} {ver : ObjectVersionRecord}
  {replicas : List ReplicaRecord} {shards : List ECShardRecord}

theorem jsonText_statusText (status : RowStatus) :
    jsonText (statusText status) = statusText status := by
  cases status <;> decide +kernel

/-- The placement of a replica in an answer. -/
abbrev replicaPlacement (r : ReplicaRecord) : Metadata :=
  [(lit "node_id", .str r.nodeID), (lit "path", .str r.path),
    (lit "status", .str (statusText r.status))]

theorem placementNode_replica {r : ReplicaRecord} (h : r.status = .active) :
    placementNode (replicaPlacement r) = some r.nodeID := by
  unfold replicaPlacement
  rw [h]
  rfl

theorem placementNode_replica_json {r : ReplicaRecord} (h : r.status = .active) :
    placementNode (replicaPlacement r).json = some (jsonText r.nodeID) := by
  have hnames : ∀ e ∈ replicaPlacement r, Valid e.1 := by
    have : ∀ name ∈ [lit "node_id", lit "path", lit "status"], Valid name := by decide +kernel
    exact fun e he => this e.1 (List.mem_map_of_mem (f := Prod.fst) he)
  unfold placementNode
  rw [Metadata.get_json hnames, Metadata.get_json hnames]
  change (if jsonText (statusText r.status) ≠ [] ∧ jsonText (statusText r.status) ≠ lit "ACTIVE"
    then none else some (jsonText r.nodeID)) = _
  rw [jsonText_statusText, h]
  rfl

theorem placedReplicas_active (h : ∀ r ∈ replicas, r.status = .active) :
    ∀ r ∈ placedReplicas replicas, r.status = .active := fun r hr =>
  h r ((List.perm_insertionSort _ _).mem_iff.mp (List.mem_of_mem_filter hr))

/-! Both sources of the node list agree, so it does not matter which one is used. -/

theorem hotNodes_of_nil {m : Metadata} (hplaced : m.get (lit "hot_replicas") = .nil)
    (hlisted : m.get (lit "replica_nodes") = .nil) : hotReplicaNodesFromMetadata m = [] := by
  unfold hotReplicaNodesFromMetadata
  rw [hplaced, hlisted]
  rfl

theorem hotNodes_of_maps {m : Metadata} {placements : List Metadata} {nodes : List GoString}
    (hplaced : m.get (lit "hot_replicas") = .maps placements)
    (hlisted : m.get (lit "replica_nodes") = .strings nodes)
    (hnodes : placements.filterMap placementNode = nodes) :
    hotReplicaNodesFromMetadata m = nodes.foldl addNode [] := by
  unfold hotReplicaNodesFromMetadata
  rw [hplaced, hlisted]
  dsimp only
  rw [hnodes]
  cases nodes.foldl addNode [] <;> rfl

theorem hotNodes_of_lists {m : Metadata} {placements : List Metadata} {nodes : List GoString}
    (hplaced : m.get (lit "hot_replicas") = .list (placements.map Any.map))
    (hlisted : m.get (lit "replica_nodes") = .list (nodes.map Any.str))
    (hnodes : placements.filterMap placementNode = nodes) :
    hotReplicaNodesFromMetadata m = nodes.foldl addNode [] := by
  unfold hotReplicaNodesFromMetadata
  rw [hplaced, hlisted]
  dsimp only
  rw [List.filterMap_map, List.map_map]
  have hstrings : nodes.map ((fun n => Meta.toString n []) ∘ Any.str) = nodes := List.map_id nodes
  rw [hstrings]
  generalize hkept : List.filterMap _ placements = kept
  obtain rfl : kept = nodes := hkept.symm.trans hnodes
  cases kept.foldl addNode [] <;> rfl

theorem hotNodes_answer (hactive : ∀ r ∈ replicas, r.status = .active) :
    hotReplicaNodesFromMetadata (normalizedMetadata o obj ver replicas shards) =
      ((placedReplicas replicas).map (·.nodeID)).foldl addNode [] := by
  have hplaced := @answer_get_replicas o obj ver replicas shards (lit "hot_replicas") (by decide)
  have hlisted := @answer_get_replicas o obj ver replicas shards (lit "replica_nodes") (by decide)
  unfold replicaFields at hplaced hlisted
  split_ifs at hplaced hlisted with hnil
  · rw [hotNodes_of_nil hplaced hlisted, hnil]
    rfl
  · refine hotNodes_of_maps hplaced hlisted ?_
    rw [List.filterMap_map, ← List.filterMap_eq_map]
    exact List.filterMap_congr fun r hr =>
      placementNode_replica (placedReplicas_active hactive r hr)

theorem hotNodes_json (hactive : ∀ r ∈ replicas, r.status = .active)
    (htext : ∀ r ∈ replicas, Valid r.nodeID) :
    hotReplicaNodesFromMetadata (normalizedMetadata o obj ver replicas shards).json =
      ((placedReplicas replicas).map (·.nodeID)).foldl addNode [] := by
  have htext : ∀ r ∈ placedReplicas replicas, jsonText r.nodeID = r.nodeID := fun r hr =>
    htext r ((List.perm_insertionSort _ _).mem_iff.mp (List.mem_of_mem_filter hr))
  have hplaced := @answer_json_get o obj ver replicas shards (lit "hot_replicas")
  have hlisted := @answer_json_get o obj ver replicas shards (lit "replica_nodes")
  rw [answer_get_replicas (by decide)] at hplaced hlisted
  unfold replicaFields at hplaced hlisted
  split_ifs at hplaced hlisted with hnil
  · rw [hotNodes_of_nil hplaced hlisted, hnil]
    rfl
  · have hmaps : jsonMaps ((placedReplicas replicas).map replicaPlacement) =
        ((placedReplicas replicas).map fun r => (replicaPlacement r).json).map Any.map := by
      rw [jsonMaps_eq_map, List.map_map, List.map_map]
      rfl
    have hstrings : (((placedReplicas replicas).map (·.nodeID)).map fun n => Any.str (jsonText n)) =
        ((placedReplicas replicas).map (·.nodeID)).map Any.str := by
      rw [List.map_map, List.map_map]
      exact List.map_congr_left fun r hr => congrArg Any.str (htext r hr)
    refine hotNodes_of_lists (hplaced.trans (congrArg Any.list hmaps))
      (hlisted.trans (congrArg Any.list hstrings)) ?_
    rw [List.filterMap_map, ← List.filterMap_eq_map]
    refine List.filterMap_congr fun r hr => ?_
    change placementNode (replicaPlacement r).json = some r.nodeID
    rw [placementNode_replica_json (placedReplicas_active hactive r hr), htext r hr]

/-- The shard rows of an answer that a reader can use. -/
def readable (shards : List ECShardRecord) : List ECShardRecord :=
  (shards.insertionSort fun a b => a.shardIndex ≤ b.shardIndex).filter fun r => Placeable r

/-- The placement of a row as it arrives. -/
def jsonPlacementOf (r : ECShardRecord) : ECShardPlacement :=
  ⟨float64OfInt r.shardIndex, jsonText r.nodeID, jsonText r.path⟩

theorem ite_placeable {r : ECShardRecord} (h : r.status = .active) (p : ECShardPlacement) :
    (if Placeable r then some p else none) =
      if r.nodeID = [] ∨ r.path = [] then none else some p := by
  by_cases hn : r.nodeID = [] <;> by_cases hp : r.path = [] <;> simp [Placeable, h, hn, hp]

theorem parsePlacement_shard {r : ECShardRecord} (h : r.status = .active) :
    parsePlacement (shardPlacement r) = if Placeable r then some (placementOf r) else none := by
  rw [ite_placeable h]
  unfold shardPlacement
  rw [h]
  rfl

theorem parsePlacement_shard_json {r : ECShardRecord} (h : r.status = .active) :
    parsePlacement (Metadata.json (shardPlacement r)) =
      if Placeable r then some (jsonPlacementOf r) else none := by
  have hnames : ∀ e ∈ shardPlacement r, Valid e.1 := by
    have : ∀ name ∈ [lit "shard_index", lit "node_id", lit "path", lit "status"], Valid name := by
      decide +kernel
    exact fun e he => this e.1 (List.mem_map_of_mem (f := Prod.fst) he)
  have hindex : intFromAny (Metadata.get (jsonMap (shardPlacement r)) (lit "shard_index")) =
      some (float64OfInt r.shardIndex) := by
    rw [Metadata.get_json hnames]
    change some (truncate (float64OfInt r.shardIndex)) = _
    rw [truncate_intCast]
  unfold parsePlacement
  rw [hindex, Metadata.get_json hnames, Metadata.get_json hnames, Metadata.get_json hnames]
  change (if jsonText (statusText r.status) ≠ [] ∧ jsonText (statusText r.status) ≠ lit "ACTIVE"
    then none else if jsonText r.nodeID = [] ∨ jsonText r.path = [] then none
    else some (jsonPlacementOf r)) = _
  rw [jsonText_statusText, ite_placeable h, h]
  simp only [toValid_eq_nil]
  rfl

/-- Parsed rows. -/
theorem filterMap_placedShards {parse : ECShardRecord → Option ECShardPlacement}
    {f : ECShardRecord → ECShardPlacement}
    (h : ∀ r, r.status = .active → parse r = if Placeable r then some (f r) else none) :
    (placedShards shards).filterMap parse = (readable shards).map f := by
  have hreadable : readable shards = (placedShards shards).filter fun r => Placeable r := by
    unfold readable placedShards
    rw [List.filter_filter]
    refine List.filter_congr fun r _ => ?_
    by_cases hp : Placeable r
    · simp [hp, hp.1]
    · simp [hp]
  rw [hreadable, ← List.filterMap_eq_map, ← List.filterMap_eq_filter, List.filterMap_filterMap]
  refine List.filterMap_congr fun r hr => ?_
  have hactive : r.status = .active := by simpa using List.of_mem_filter hr
  rw [h r hactive]
  by_cases hp : Placeable r <;> simp [Option.guard, hp]

theorem readable_eq_nil (h : placedShards shards = []) : readable shards = [] := by
  have hparse := @filterMap_placedShards shards (fun r => if Placeable r then some (placementOf r)
    else none) placementOf fun _ _ => rfl
  rw [h] at hparse
  exact List.map_eq_nil_iff.mp hparse.symm

theorem parse_answer :
    parseECShardPlacements (normalizedMetadata o obj ver replicas shards) =
      if ver.tier = .ec then (readable shards).map placementOf else [] := by
  unfold parseECShardPlacements
  rw [answer_get_ecShards]
  by_cases hec : ver.tier = .ec
  · by_cases hnil : placedShards shards = []
    · simp [hec, hnil, readable_eq_nil hnil]
    · rw [if_pos ⟨hec, hnil⟩, if_pos hec]
      dsimp only
      rw [List.filterMap_map]
      exact filterMap_placedShards fun r hr => parsePlacement_shard hr
  · simp [hec]

theorem parse_json :
    parseECShardPlacements (normalizedMetadata o obj ver replicas shards).json =
      if ver.tier = .ec then (readable shards).map jsonPlacementOf else [] := by
  unfold parseECShardPlacements
  rw [answer_json_get, answer_get_ecShards]
  by_cases hec : ver.tier = .ec
  · by_cases hnil : placedShards shards = []
    · simp [hec, hnil, readable_eq_nil hnil, Any.json]
    · rw [if_pos ⟨hec, hnil⟩, if_pos hec]
      change (jsonMaps ((placedShards shards).map shardPlacement)).filterMap _ = _
      rw [jsonMaps_eq_map, List.map_map, List.filterMap_map]
      exact filterMap_placedShards fun r hr => parsePlacement_shard_json hr
  · simp [hec, Any.json]

theorem contentType_answer (h : ∀ ct, ver.contentType = some ct → Valid ct) :
    textOf ((normalizedMetadata o obj ver replicas shards).json.get (lit "content_type")) =
      textOf ((normalizedMetadata o obj ver replicas shards).get (lit "content_type")) := by
  rw [answer_json_get, answer_get_contentType]
  unfold contentTypeField
  cases hct : ver.contentType with
  | none => rfl
  | some ct =>
    dsimp only
    split
    · exact congrArg some (h ct hct)
    · rfl

theorem length_answer (h : ver.sizeBytes < 2 ^ 53) :
    getIntFromMetadata (normalizedMetadata o obj ver replicas shards).json
        (lit "original_length") =
      getIntFromMetadata (normalizedMetadata o obj ver replicas shards)
        (lit "original_length") := by
  unfold getIntFromMetadata
  rw [answer_json_get, answer_get_length]
  split
  · change some (truncate (float64OfInt ver.sizeBytes)) = some ver.sizeBytes
    rw [truncate_intCast, float64OfInt_of_small (by omega)]
  · rfl

theorem valid_metadataHotPath {v : Int} (htext : ∀ r ∈ replicas, Valid r.path) :
    Valid (metadataHotPath o v replicas) ↔ Valid o ∨ ∃ r ∈ replicas, r.path ≠ [] := by
  unfold metadataHotPath
  cases hfind : replicas.find? fun r => r.path ≠ [] with
  | some r =>
    have hr := List.mem_of_find?_eq_some hfind
    have hpath : r.path ≠ [] := by simpa using List.find?_some hfind
    simp only [if_neg hpath]
    exact iff_of_true (htext r hr) (Or.inr ⟨r, hr, hpath⟩)
  | none =>
    have hnone : ¬ ∃ r ∈ replicas, r.path ≠ [] := by simpa using List.find?_eq_none.mp hfind
    rw [or_iff_left hnone]
    dsimp only
    split
    · rfl
    · exact valid_buildHotReplicaPath ‹_›

end Readers

/-! ## The shard rows of a version -/

section Own

variable {s : Store} {o : GoString} {v : Int}

theorem mem_ownShards {r : ECShardRecord} : r ∈ ownShards s o v ↔
    s.get? (tiKVECShardKey o v r.shardIndex) = some (.ecShard r) ∧ Placeable r := by
  unfold ownShards
  simp only [List.mem_filterMap, List.mem_filter, Value.asECShard_eq_some]
  constructor
  · rintro ⟨⟨k, x⟩, ⟨hmem, hown⟩, rfl⟩
    have hown : k = tiKVECShardKey o v r.shardIndex ∧ Placeable r := by simpa [isOwn] using hown
    exact ⟨hown.1 ▸ SortedMap.mem_entries.mp hmem, hown.2⟩
  · rintro ⟨hget, hplace⟩
    exact ⟨_, ⟨SortedMap.mem_entries.mpr hget, by simp [isOwn, hplace]⟩, rfl⟩

/-- Whether an entry is a shard row that a reader can use. -/
def isPlaceable (e : GoString × Value) : Bool :=
  match e.2 with
  | .ecShard r => Placeable r
  | _ => false

/-- What a scan of the shard rows of a version finds and a reader can use. -/
def scanned (s : Store) (o : GoString) (v : Int) : List (GoString × Value) :=
  (prefixEntries s (tiKVECShardVersionPrefix o v)).filter isPlaceable

theorem mem_scanned {e : GoString × Value} : e ∈ scanned s o v ↔
    ∃ r, e.2 = .ecShard r ∧ s.get? e.1 = some (.ecShard r) ∧
      tiKVECShardVersionPrefix o v <+: e.1 ∧ Placeable r := by
  obtain ⟨k, x⟩ := e
  unfold scanned
  rw [List.mem_filter, mem_prefixEntries]
  cases x with
  | ecShard r => simp [isPlaceable, and_assoc]
  | _ => simp [isPlaceable]

theorem ownShards_eq : ownShards s o v =
    ((scanned s o v).filter (isOwn o v)).filterMap fun e => e.2.asECShard := by
  unfold ownShards scanned prefixEntries
  rw [List.filter_filter, List.filter_filter]
  congr 1
  refine List.filter_congr fun e _ => ?_
  obtain ⟨k, x⟩ := e
  cases x with
  | ecShard r =>
    by_cases hown : k = tiKVECShardKey o v r.shardIndex ∧ Placeable r
    · have hpre : tiKVECShardVersionPrefix o v <+: k := hown.1 ▸ List.prefix_append _ _
      simp [isOwn, isPlaceable, hown.2, hpre]
    · simp [isOwn, hown]
  | _ => rfl

theorem readable_perm : (readable (shardRows s o v)).Perm
    ((scanned s o v).filterMap fun e => e.2.asECShard) := by
  have hrows : (scanned s o v).filterMap (fun e => e.2.asECShard) =
      (shardRows s o v).filter fun r => Placeable r := by
    unfold scanned shardRows
    rw [List.filterMap_filter, List.filter_filterMap]
    refine List.filterMap_congr fun e _ => ?_
    obtain ⟨k, x⟩ := e
    cases x with
    | ecShard r =>
      by_cases hp : Placeable r <;>
        simp [isPlaceable, Value.asECShard, Option.filter, hp]
    | _ => rfl
  rw [hrows]
  exact (List.perm_insertionSort _ _).filter _

theorem length_scanned (l : List (GoString × Value)) (h : ∀ e ∈ l, e ∈ scanned s o v) :
    (l.filterMap fun e => e.2.asECShard).length = l.length := by
  rw [List.length_filterMap_eq_countP, List.countP_eq_length]
  intro e he
  obtain ⟨r, hr, -⟩ := mem_scanned.mp (h e he)
  rw [hr]
  rfl

/-- No usable shard row of another object or version lies under the prefix of the scan. -/
def OwnScan (s : Store) (o : GoString) (v : Int) : Prop :=
  ∀ k r, s.get? k = some (.ecShard r) → tiKVECShardVersionPrefix o v <+: k → Placeable r →
    k = tiKVECShardKey o v r.shardIndex

theorem readable_placements_iff :
    (readable (shardRows s o v)).map placementOf = ownPlacements s o v ↔ OwnScan s o v := by
  constructor
  · -- a row of something else makes the list longer
    intro h k r hget hpre hplace
    have hlen := congrArg List.length h
    unfold ownPlacements at hlen
    rw [List.length_map, List.length_map, readable_perm.length_eq,
      (List.perm_insertionSort _ _).length_eq, ownShards_eq, length_scanned _ fun e he => he,
      length_scanned _ fun e he => List.mem_of_mem_filter he] at hlen
    have hall := List.length_filter_eq_length_iff.mp hlen.symm
    have hown := hall (k, .ecShard r) (mem_scanned.mpr ⟨r, rfl, hget, hpre, hplace⟩)
    exact (show k = _ ∧ Placeable r by simpa [isOwn] using hown).1
  · intro h
    have hall : (scanned s o v).filter (isOwn o v) = scanned s o v := by
      refine List.filter_eq_self.mpr fun e he => ?_
      obtain ⟨r, hr, hget, hpre, hplace⟩ := mem_scanned.mp he
      simpa [isOwn, hr] using ⟨h e.1 r hget hpre hplace, hplace⟩
    have hperm : (readable (shardRows s o v)).Perm
        ((ownShards s o v).insertionSort fun a b => a.shardIndex ≤ b.shardIndex) := by
      rw [ownShards_eq, hall]
      exact readable_perm.trans (List.perm_insertionSort _ _).symm
    have hmem : ∀ r ∈ readable (shardRows s o v),
        s.get? (tiKVECShardKey o v r.shardIndex) = some (.ecShard r) := fun r hr =>
      (mem_ownShards.mp ((List.perm_insertionSort _ _).mem_iff.mp (hperm.mem_iff.mp hr))).1
    refine congrArg _ (@List.Perm.eq_of_pairwise _ (fun a b => a.shardIndex ≤ b.shardIndex) _ _
      ?_ ?_ ?_ hperm)
    · intro a b ha hb hab hba
      have heq : a.shardIndex = b.shardIndex := le_antisymm hab hba
      have hb' := hmem b (hperm.mem_iff.mpr hb)
      rw [← heq, hmem a ha] at hb'
      cases hb'
      rfl
    · exact (List.pairwise_insertionSort _ _).filter _
    · exact List.pairwise_insertionSort _ _

end Own

/-! ## Agreement -/

section Agreement

variable {s : Store} {o : GoString} {obj : ObjectRecord} {ver : ObjectVersionRecord} {m : Metadata}

/-- What an answer needs to mean the same after JSON: the key of the replicas is text, and the
numbers are floats. The shard rows are those of the version. -/
structure ReadsPortable (s : Store) (o : GoString) (obj : ObjectRecord)
    (ver : ObjectVersionRecord) : Prop where
  hotKey : Valid o ∨ ∃ r ∈ activeReplicas s o obj.currentVersion, r.path ≠ []
  encodingK : float64OfInt (ver.encodingK.getD 4) = ver.encodingK.getD 4
  encodingM : float64OfInt (ver.encodingM.getD 2) = ver.encodingM.getD 2
  indices : ver.tier = .ec → ∀ r ∈ shardRows s o obj.currentVersion, Placeable r →
    float64OfInt r.shardIndex = r.shardIndex
  own : ver.tier = .ec → OwnScan s o obj.currentVersion

theorem JsonRows.replica_text (hs : JsonRows s) {v : Int} {r : ReplicaRecord}
    (hr : r ∈ activeReplicas s o v) : Valid r.nodeID ∧ Valid r.path := by
  obtain ⟨⟨k, x⟩, he, hx⟩ := List.mem_filterMap.mp (List.mem_of_mem_filter hr)
  obtain rfl : x = .replica r := by simpa using hx
  have htext := hs.text _ _ (mem_prefixEntries.mp he).1
  simp only [Value.readBack, Value.replica.injEq] at htext
  exact ⟨congrArg ReplicaRecord.nodeID htext, congrArg ReplicaRecord.path htext⟩

theorem JsonRows.shard_text (hs : JsonRows s) {v : Int} {r : ECShardRecord}
    (hr : r ∈ shardRows s o v) : Valid r.nodeID ∧ Valid r.path := by
  obtain ⟨⟨k, x⟩, he, hx⟩ := List.mem_filterMap.mp hr
  obtain rfl : x = .ecShard r := by simpa using hx
  have htext := hs.text _ _ (mem_prefixEntries.mp he).1
  simp only [Value.readBack, Value.ecShard.injEq] at htext
  exact ⟨congrArg ECShardRecord.nodeID htext, congrArg ECShardRecord.path htext⟩

theorem JsonRows.contentType_text (hs : JsonRows s) {k ct : GoString}
    (hver : s.get? k = some (.objectVersion ver)) (hct : ver.contentType = some ct) : Valid ct := by
  have htext := hs.text _ _ hver
  simp only [Value.readBack, Value.objectVersion.injEq] at htext
  have hrow : ver.contentType.map jsonText = ver.contentType :=
    congrArg ObjectVersionRecord.contentType htext
  rw [hct] at hrow
  exact Option.some.inj hrow

theorem mem_readable {shards : List ECShardRecord} {r : ECShardRecord} :
    r ∈ readable shards ↔ r ∈ shards ∧ Placeable r := by
  unfold readable
  rw [List.mem_filter, (List.perm_insertionSort _ _).mem_iff]
  simp

/-- The two answers agree on the key of the replicas when it is text. -/
theorem hotKey_agrees_iff {replicas : List ReplicaRecord} {shards : List ECShardRecord}
    (htext : ∀ r ∈ replicas, Valid r.path) :
    textOf ((normalizedMetadata o obj ver replicas shards).get (lit "hot_key")) =
        textOf ((normalizedMetadata o obj ver replicas shards).json.get (lit "hot_key")) ↔
      Valid o ∨ ∃ r ∈ replicas, r.path ≠ [] := by
  rw [answer_json_get, answer_get_hotKey, ← valid_metadataHotPath htext]
  exact Option.some_inj.trans eq_comm

theorem number_agrees_iff {m : Metadata} {name : GoString} {n : Int}
    (hm : m.get name = .int n) (hjson : m.json.get name = (m.get name).json) :
    getIntFromMetadata m name = getIntFromMetadata m.json name ↔ float64OfInt n = n := by
  unfold getIntFromMetadata
  rw [hjson, hm]
  change some n = some (truncate (float64OfInt n)) ↔ _
  rw [truncate_intCast, Option.some_inj]
  exact eq_comm

theorem placements_agree_iff {shards : List ECShardRecord}
    (htext : ∀ r ∈ shards, Valid r.nodeID ∧ Valid r.path) :
    (readable shards).map placementOf = (readable shards).map jsonPlacementOf ↔
      ∀ r ∈ shards, Placeable r → float64OfInt r.shardIndex = r.shardIndex := by
  rw [List.map_inj_left]
  have hrow : ∀ r ∈ shards, placementOf r = jsonPlacementOf r ↔
      float64OfInt r.shardIndex = r.shardIndex := by
    intro r hr
    have hnode : jsonText r.nodeID = r.nodeID := (htext r hr).1
    have hpath : jsonText r.path = r.path := (htext r hr).2
    simp [placementOf, jsonPlacementOf, hnode, hpath, eq_comm]
  constructor
  · intro h r hr hp
    exact (hrow r hr).mp (h r (mem_readable.mpr ⟨hr, hp⟩))
  · intro h r hr
    obtain ⟨hmem, hp⟩ := mem_readable.mp hr
    exact (hrow r hmem).mpr (h r hmem hp)

/-- The readers of the API find the same locally and over RPC, and the shard placements are the rows
of the version, exactly when the answer is portable. -/
theorem rpc_read_agrees_iff (hs : JsonRows s)
    (hobj : s.get? (tiKVObjectKey o) = some (.object obj))
    (hver : s.get? (tiKVObjectVersionKey o obj.currentVersion) = some (.objectVersion ver))
    (hsize : ver.sizeBytes < 2 ^ 53)
    (hm : (atomically (getNormalizedMetadata o) s).1 = .ok (some m)) :
    (SameReads m m.json ∧
      (ver.tier = .ec → parseECShardPlacements m = ownPlacements s o obj.currentVersion)) ↔
    ReadsPortable s o obj ver := by
  rw [atomically_getNormalizedMetadata hs.typed, catalog_head.mpr hobj, Option.bind_some,
    catalog_version.mpr hver, Option.map_some] at hm
  obtain rfl := Option.some.inj (Except.ok.inj hm)
  have hreplicas : ∀ r ∈ activeReplicas s o obj.currentVersion, Valid r.nodeID ∧ Valid r.path :=
    fun r hr => hs.replica_text hr
  have hactive : ∀ r ∈ activeReplicas s o obj.currentVersion, r.status = .active := fun r hr => by
    simpa using List.of_mem_filter hr
  have hkey := @hotKey_agrees_iff o obj ver _
    (if ver.tier = .ec then shardRows s o obj.currentVersion else []) fun r hr => (hreplicas r hr).2
  have hk := @number_agrees_iff _ _ _ (@answer_get_k o obj ver
    (activeReplicas s o obj.currentVersion)
    (if ver.tier = .ec then shardRows s o obj.currentVersion else [])) (answer_json_get _)
  have hm := @number_agrees_iff _ _ _ (@answer_get_m o obj ver
    (activeReplicas s o obj.currentVersion)
    (if ver.tier = .ec then shardRows s o obj.currentVersion else [])) (answer_json_get _)
  have hshards := @placements_agree_iff (shardRows s o obj.currentVersion) fun r hr =>
    hs.shard_text hr
  constructor
  · rintro ⟨hsame, hplaced⟩
    have hparse := hsame.placements
    rw [parse_answer, parse_json] at hparse
    rw [parse_answer] at hplaced
    refine ⟨hkey.mp (hsame.texts _ (by simp)), hk.mp (hsame.numbers _ (by simp)),
      hm.mp (hsame.numbers _ (by simp)), fun hec => ?_, fun hec => ?_⟩
    · simp only [if_pos hec] at hparse
      exact hshards.mp hparse
    · have hplaced := hplaced hec
      simp only [if_pos hec] at hplaced
      exact readable_placements_iff.mp hplaced
  · intro h
    have hparse : parseECShardPlacements (normalizedMetadata o obj ver
        (activeReplicas s o obj.currentVersion)
        (if ver.tier = .ec then shardRows s o obj.currentVersion else [])) =
        parseECShardPlacements (normalizedMetadata o obj ver
          (activeReplicas s o obj.currentVersion)
          (if ver.tier = .ec then shardRows s o obj.currentVersion else [])).json := by
      rw [parse_answer, parse_json]
      split
      · rename_i hec
        exact hshards.mpr (h.indices hec)
      · rfl
    refine ⟨⟨?_, ?_, ?_, hparse, hparse⟩, fun hec => ?_⟩
    · rw [hotNodes_answer hactive, hotNodes_json hactive fun r hr => (hreplicas r hr).1]
    · intro name hname
      simp only [List.mem_cons, List.not_mem_nil, or_false] at hname
      rcases hname with rfl | rfl
      · exact hkey.mpr h.hotKey
      · exact (contentType_answer fun ct hct => hs.contentType_text hver hct).symm
    · intro name hname
      simp only [List.mem_cons, List.not_mem_nil, or_false] at hname
      rcases hname with rfl | rfl | rfl
      · exact hk.mpr h.encodingK
      · exact hm.mpr h.encodingM
      · exact (length_answer hsize).symm
    · rw [parse_answer, if_pos hec, if_pos hec]
      exact readable_placements_iff.mpr (h.own hec)

theorem jsonRows_of_entries (h : ∀ e ∈ s.entries, keyFamily e.1 ∈ valueFamilies e.2 ∧
    e.2.readBack = e.2) : JsonRows s :=
  ⟨fun k x hget => (h (k, x) (SortedMap.mem_entries.mpr hget)).1,
    fun k x hget => (h (k, x) (SortedMap.mem_entries.mpr hget)).2⟩

/-- An erasure-coded object under an id, with three shards, one of them deleted, and with replicas.
Its rows carry the text of the id. -/
def coldStore (o : GoString) (replicas : List ReplicaRecord) : Store :=
  SortedMap.empty.applyAll
    ([.set (tiKVObjectKey o) (.object ⟨jsonText o, lit "default", 7, .ecActive, 7, 7⟩),
      .set (tiKVObjectVersionKey o 7)
        (.objectVersion ⟨jsonText o, 7, 2, lit "h", .ec, none, some 4, some 2, 7⟩),
      .set (tiKVECShardKey o 7 0)
        (.ecShard ⟨jsonText o, 7, 0, lit "n1", lit "a_cold_chunk_0", .active⟩),
      .set (tiKVECShardKey o 7 3)
        (.ecShard ⟨jsonText o, 7, 3, lit "n2", lit "a_cold_chunk_3", .deleted⟩),
      .set (tiKVECShardKey o 7 5)
        (.ecShard ⟨jsonText o, 7, 5, lit "n3", lit "a_cold_chunk_5", .active⟩)] ++
      replicas.map fun r => .set (tiKVReplicaKey o 7 r.nodeID) (.replica r))

/-- A plain id, with the replica that is left. -/
def plainStore : Store :=
  coldStore (lit "a") [⟨lit "a", 7, lit "n4", lit "hot/a/00000000000000000007", .active⟩]

/-- The answer of a store with an erasure-coded object. -/
theorem atomically_ec (hs : JsonRows s) (hobj : s.get? (tiKVObjectKey o) = some (.object obj))
    (hver : s.get? (tiKVObjectVersionKey o obj.currentVersion) = some (.objectVersion ver))
    (hec : ver.tier = .ec) :
    (atomically (getNormalizedMetadata o) s).1 = .ok (some (normalizedMetadata o obj ver
      (activeReplicas s o obj.currentVersion) (shardRows s o obj.currentVersion))) := by
  rw [atomically_getNormalizedMetadata hs.typed, catalog_head.mpr hobj, Option.bind_some,
    catalog_version.mpr hver, Option.map_some, if_pos hec]

theorem ownScan_of_entries {v : Int} (h : ∀ e ∈ s.entries, ∀ r ∈ e.2.asECShard,
    e.1 = tiKVECShardKey o v r.shardIndex) : OwnScan s o v :=
  fun k r hget _ _ => h (k, .ecShard r) (SortedMap.mem_entries.mpr hget) r rfl

/-- An object with a plain id. -/
theorem rpc_read_plain : ∃ m,
    (atomically (getNormalizedMetadata (lit "a")) plainStore).1 = .ok (some m) ∧
    SameReads m m.json ∧
    parseECShardPlacements m = ownPlacements plainStore (lit "a") 7 := by
  have hs : JsonRows plainStore := jsonRows_of_entries (by decide +kernel)
  have hobj : plainStore.get? (tiKVObjectKey (lit "a")) =
      some (.object ⟨lit "a", lit "default", 7, .ecActive, 7, 7⟩) := by decide +kernel
  have hver : plainStore.get? (tiKVObjectVersionKey (lit "a") 7) =
      some (.objectVersion ⟨lit "a", 7, 2, lit "h", .ec, none, some 4, some 2, 7⟩) := by
    decide +kernel
  have hm := atomically_ec hs hobj hver rfl
  have hindices : ∀ r ∈ shardRows plainStore (lit "a") 7, Placeable r →
      float64OfInt r.shardIndex = r.shardIndex := by decide +kernel
  have hown : ∀ e ∈ plainStore.entries, ∀ r ∈ e.2.asECShard,
      e.1 = tiKVECShardKey (lit "a") 7 r.shardIndex := by decide +kernel
  have hagree := (rpc_read_agrees_iff hs hobj hver (by decide) hm).mpr
    ⟨Or.inl (by decide), by decide, by decide, fun _ => hindices,
      fun _ => ownScan_of_entries hown⟩
  exact ⟨_, hm, hagree.1, hagree.2 rfl⟩

/-- An object whose id is not text: the key that its replicas would have does not survive. -/
theorem rpc_read_differs : JsonRows (coldStore [0xFF] []) ∧ ∃ m,
    (atomically (getNormalizedMetadata [0xFF]) (coldStore [0xFF] [])).1 = .ok (some m) ∧
    ¬ SameReads m m.json := by
  have hs : JsonRows (coldStore [0xFF] []) := jsonRows_of_entries (by decide +kernel)
  have hobj : (coldStore [0xFF] []).get? (tiKVObjectKey [0xFF]) =
      some (.object ⟨jsonText [0xFF], lit "default", 7, .ecActive, 7, 7⟩) := by decide +kernel
  have hver : (coldStore [0xFF] []).get? (tiKVObjectVersionKey [0xFF] 7) =
      some (.objectVersion ⟨jsonText [0xFF], 7, 2, lit "h", .ec, none, some 4, some 2, 7⟩) := by
    decide +kernel
  refine ⟨hs, _, atomically_ec hs hobj hver rfl, fun h => ?_⟩
  have hkey := h.texts (lit "hot_key") (by simp)
  rw [hotKey_agrees_iff fun r hr => (hs.replica_text hr).2] at hkey
  revert hkey
  decide +kernel

end Agreement

end TieredStore.Api
