import TieredStore.Meta.Json
import TieredStore.Tiering.Footprints

/-!
# Commits over RPC

The repository can be called directly or through an RPC client, which sends the object id and the
metadata as JSON. The metadata of a replicated write mean the same on both sides
(`rpc_commit_agrees_iff`), as long as ids and nodes are text. The metadata of an erasure-coded write
do not: their strategy has a named string type that the conversions of the repository do not know,
and that JSON turns into a plain string.
-/

namespace TieredStore.Api

open Lib Lib.Prog Lib.Bytes Lib.Utf8 Meta Cluster Tiering

/-! ## The metadata of writes -/

/-- The metadata that `WriteEC` commits. -/
def ecMetadata (k m : Int) (key : GoString) (length : Nat) (version : Int) (hash : GoString)
    (isDirty : Bool) : Metadata :=
  let finalMeta : Metadata :=
    [(lit "strategy", .named (lit "ec")), (lit "k", .int k), (lit "m", .int m),
      (lit "chunk_prefix", .str (key ++ lit "_cold_chunk_")), (lit "original_length", .int length),
      (lit "key_name", .str key), (lit "hot_version", .str (lit "0")),
      (lit "cold_version", .str (formatInt version)), (lit "cold_hash", .str hash)]
  if isDirty then finalMeta.put (lit "is_dirty") (.bool true) else finalMeta

/-- Send chunks and count the successes. -/
def writeChunks (chunkPrefix : GoString) : List ((GoString × Blob) × Nat) → Job Nat
  | [] => pure 0
  | ((nodeURL, chunk), index) :: rest => do
    let reply ← Job.store nodeURL (chunkPrefix ++ formatInt index) chunk
    let success ← writeChunks chunkPrefix rest
    pure (if stored reply then success + 1 else success)

/-- `WriteEC`; the answer is the number of chunks written. -/
def writeEC (d : Deps) (ecNodes : List GoString) (key : GoString) (value : Blob) : Job Nat := do
  let chunks ← wrapped (lit "EC split failed") (d.ec.split value)
  let chunks ← wrapped (lit "EC encode failed") (d.ec.encode chunks)
  let jobs ← Job.schedule (shardJobs ecNodes chunks)
  let success ← writeChunks (key ++ lit "_cold_chunk_") jobs
  if success < d.cfg.k then
    .fail (lit "EC write critical failure: " ++ formatInt success ++ lit "/" ++
      formatInt chunks.length ++ lit " (Need at least " ++ formatInt d.cfg.k ++ lit " to recover)")
  else
    let now ← Job.now
    finalizeMetadata key (ecMetadata d.cfg.k d.cfg.m key value.length now.unixNano
      (d.sha256Hex value) (success < chunks.length))
    pure success

/-- The metadata of an object that the write service commits, with what they are built from. -/
inductive Produced where
  | replication (at' : Time) (length : Nat) (writtenNodes : List GoString)
      (contentType : Option GoString) (isDirty : Bool)
  | ec (k m : Int) (at' : Time) (length : Nat) (hash : GoString) (isDirty : Bool)

namespace Produced

def metadata (key : GoString) : Produced → Metadata
  | replication at' length nodes contentType isDirty =>
    let built := buildHotReplicaPath key at'.unixNano
    replicationMetadata at'.unixNano (if built = [] then key else built) length nodes
      (contentType.toList.map fun ct => (lit "content_type", .str ct)) isDirty
  | ec k m at' length hash isDirty => ecMetadata k m key length at'.unixNano hash isDirty

def length : Produced → Nat
  | replication _ length _ _ _ => length
  | ec _ _ _ length _ _ => length

end Produced

/-- The commits of a write are those of `Produced`. -/
def Produces (key : GoString) (value : Blob) : Call → Prop
  | .repo (.upsertNormalizedMetadata o md) =>
    o = key ∧ ∃ p : Produced, p.length = value.length ∧ md = p.metadata key
  | _ => True

section Produces

variable {R : (c : Call) → c.Answer → Prop} {nodes : List GoString} {key : GoString} {value : Blob}

theorem produces_of_passive (c : Call) (h : c.Passive) : Produces key value c := by
  cases c with
  | repo c =>
    cases c with
    | upsertNormalizedMetadata => exact h.elim
    | _ => trivial
  | _ => trivial

theorem writeReplication_produces (cfg : Config) (contentType : Option GoString) :
    Within (Produces key value) R (writeReplication cfg nodes key value
      (contentType.toList.map fun ct => (lit "content_type", .str ct))) fun _ => True := by
  refine (within_writeReplication produces_of_passive (fun _ _ _ => trivial) ?_).mono
    fun _ _ => trivial
  intro now ns isDirty _ _
  exact ⟨rfl, .replication now value.length ns contentType isDirty, rfl, rfl⟩

theorem within_writeChunks {A : Call → Prop} {chunkPrefix : GoString}
    {jobs : List ((GoString × Blob) × Nat)}
    (hstore : ∀ q ∈ jobs, A (.store q.1.1 (chunkPrefix ++ formatInt q.2) q.1.2)) :
    Within A R (writeChunks chunkPrefix jobs) fun _ => True := by
  induction jobs with
  | nil => exact within_pure trivial
  | cons q rest ih =>
    refine within_store (hstore q List.mem_cons_self) fun reply => ?_
    exact (ih fun q hq => hstore q (List.mem_cons_of_mem _ hq)).bind fun _ _ => within_pure trivial

theorem writeEC_produces (d : Deps) :
    Within (Produces key value) R (writeEC d nodes key value) fun _ => True := by
  refine within_wrapped.bind fun chunks _ => within_wrapped.bind fun encoded _ => ?_
  refine within_schedule trivial fun jobs _ => ?_
  refine (within_writeChunks fun _ _ => trivial).bind fun success _ => ?_
  split_ifs
  · exact within_fail
  refine within_now trivial fun now _ => ?_
  refine (within_finalizeMetadata ?_).bind fun _ _ => within_pure trivial
  exact ⟨rfl, .ec d.cfg.k d.cfg.m now value.length (d.sha256Hex value) _, rfl, rfl⟩

end Produces

/-! ## What a commit writes -/

/-- Records without their timestamps. -/
def untimed : Value → Value
  | .object r => .object { r with createdAt := 0, updatedAt := 0 }
  | .objectVersion r => .objectVersion { r with createdAt := 0 }
  | x => x

/-- Whether a write is one of a head, a version or a replica record. -/
def isRecord (w : KVWrite) : Bool := keyFamily w.key ∈ [lit "obj", lit "objv", lit "repl"]

/-- A record under its key, as it is read back and without timestamps. -/
def asRead (w : KVWrite) : GoString × Option Value :=
  (w.key, w.value.map (untimed ∘ Value.readBack))

/-- The head, version and replica records that the transaction of a commit writes. -/
def records (p : KV Unit) (s : Store) : List (GoString × Option Value) :=
  match p with
  | .call (.txn body) _ =>
    match body.effect s with
    | .ok (_, ws) => (ws.filter isRecord).map asRead
    | .error _ => []
  | _ => []

/-- The call that the RPC server makes for `UpsertNormalizedMetadata`. -/
def rpcUpsertNormalizedMetadata (cfg : Config) (versionClock now : Time) (objectID : GoString)
    (metadata : Metadata) : KV Unit :=
  upsertNormalizedMetadata cfg versionClock now (jsonText objectID) metadata.json

/-- A direct commit and one over RPC write the same records, whatever their clocks say. -/
def SameCommit (cfg : Config) (s : Store) (o : GoString) (md : Metadata) : Prop :=
  ∀ clock now clock' now', records (upsertNormalizedMetadata cfg clock now o md) s =
    records (rpcUpsertNormalizedMetadata cfg clock' now' o md) s

section Records

variable {P : GoString → Prop} {s : Store} {cfg : Config} {clock now : Time} {o : GoString}
  {md : Metadata}

theorem records_upsert (hs : Rows P s) (ho : o ≠ []) :
    records (upsertNormalizedMetadata cfg clock now o md) s =
      (upsertRows o (resolveVersion md clock) md now ((catalog s).head o)).map asRead := by
  obtain ⟨ref, href, hdue⟩ := hs.tierDueRef_found o (resolveVersion md clock)
  have heffect := @upsertTxn_effect cfg _ _ md now _ _ _ (hs.get_object o) href
  unfold upsertNormalizedMetadata
  rw [if_neg ho]
  change (match (upsertTxn cfg o (resolveVersion md clock) md now).effect s with
    | .ok (_, ws) => (ws.filter isRecord).map asRead
    | .error _ => []) = _
  rw [heffect]
  dsimp only
  rw [upsertWrites, List.filter_append, List.filter_eq_self.mpr, List.filter_eq_nil_iff.mpr,
    List.append_nil]
  · intro w hw
    split at hw
    · cases hw
    · rcases dueUpsert_families hdue hw with h | h <;> simp only [isRecord, h] <;> decide
  · intro w hw
    rcases keyFamily_of_upsertRows hw with h | h | h <;> simp only [isRecord, h] <;> decide

end Records

/-! ## Replicated writes -/

section Replication

variable {version : Int} {path : GoString} {length : Nat} {nodes : List GoString}
  {contentType : Option GoString} {isDirty : Bool}

/-- The metadata of a replicated write with its content type. -/
abbrev replicated (version : Int) (path : GoString) (length : Nat) (nodes : List GoString)
    (contentType : Option GoString) (isDirty : Bool) : Metadata :=
  replicationMetadata version path length nodes
    (contentType.toList.map fun ct => (lit "content_type", .str ct)) isDirty

theorem extraFields_contentType (contentType : Option GoString) :
    ExtraFields (contentType.toList.map fun ct => (lit "content_type", Any.str ct)) := by
  intro e he
  obtain ⟨ct, -, rfl⟩ := List.mem_map.mp he
  rfl

theorem valid_names : ∀ e ∈ replicated version path length nodes contentType isDirty,
    Valid e.1 := by
  have hown : ∀ name ∈ [lit "strategy", lit "hot_version", lit "cold_version", lit "cold_hash",
      lit "original_length", lit "replica_nodes", lit "hot_key"], Valid name := by decide
  have hfinal : ∀ e ∈ replicated version path length nodes contentType false, Valid e.1 := by
    intro e he
    rcases List.mem_append.mp he with he | he
    · rw [extraFields_contentType contentType e he]
      decide
    · exact hown e.1 (List.mem_map_of_mem (f := Prod.fst) he)
  cases isDirty with
  | false => exact hfinal
  | true =>
    intro e he
    rcases List.mem_cons.mp he with rfl | he
    · decide
    · exact hfinal e he

/-- The fields of the metadata after JSON. -/
theorem replicated_json_get {name : GoString} (hdirty : lit "is_dirty" ≠ name)
    (hct : lit "content_type" ≠ name) :
    (replicated version path length nodes contentType isDirty).json.get name =
      (Metadata.get [(lit "strategy", .str (lit "replication")),
        (lit "hot_version", .str (formatInt version)), (lit "cold_version", .str (lit "0")),
        (lit "cold_hash", .str []), (lit "original_length", .int length),
        (lit "replica_nodes", .strings nodes), (lit "hot_key", .str path)] name).json := by
  rw [Metadata.get_json valid_names,
    replicationMetadata_get (extraFields_contentType contentType) hct hdirty]

theorem replicated_get_contentType :
    (replicated version path length nodes contentType isDirty).get (lit "content_type") =
      (contentType.map Any.str).getD .nil := by
  cases contentType <;> cases isDirty <;> rfl

theorem jsonText_formatInt (n : Int) : jsonText (formatInt n) = formatInt n := by
  rw [formatInt_eq_padInt]
  exact valid_padInt 0 n

theorem resolveVersion_of_hot {md : Metadata}
    (hhot : toInt64 (md.get (lit "hot_version")) 0 = version)
    (hcold : toInt64 (md.get (lit "cold_version")) 0 = 0) (clock : Time) :
    resolveVersion md clock = if 0 < version then version else clock.unixNano := by
  unfold resolveVersion
  rw [hhot, hcold]
  rfl

theorem resolveVersion_direct (h64 : InInt64 version) (clock : Time) :
    resolveVersion (replicated version path length nodes contentType isDirty) clock =
      if 0 < version then version else clock.unixNano := by
  have hextra := extraFields_contentType contentType
  refine resolveVersion_of_hot ?_ ?_ clock
  · rw [replicationMetadata_get hextra (by decide) (by decide)]
    change (parseInt (formatInt version)).getD 0 = version
    rw [parseInt_formatInt h64, Option.getD_some]
  · rw [replicationMetadata_get hextra (by decide) (by decide)]
    change (parseInt (lit "0")).getD 0 = 0
    decide

theorem resolveVersion_json (h64 : InInt64 version) (clock : Time) :
    resolveVersion (replicated version path length nodes contentType isDirty).json clock =
      if 0 < version then version else clock.unixNano := by
  refine resolveVersion_of_hot ?_ ?_ clock
  · rw [replicated_json_get (by decide) (by decide)]
    change (parseInt (jsonText (formatInt version))).getD 0 = version
    rw [jsonText_formatInt, parseInt_formatInt h64, Option.getD_some]
  · rw [replicated_json_get (by decide) (by decide)]
    change (parseInt (jsonText (lit "0"))).getD 0 = 0
    decide

theorem strategy_json :
    Meta.toString ((replicated version path length nodes contentType isDirty).json.get
      (lit "strategy")) [] = lit "replication" := by
  rw [replicated_json_get (by decide) (by decide)]
  change jsonText (lit "replication") = _
  decide

theorem resolveTier_json :
    resolveTier (replicated version path length nodes contentType isDirty).json = .hot := by
  unfold resolveTier
  rw [strategy_json]
  rfl

theorem resolveState_json :
    resolveState (replicated version path length nodes contentType isDirty).json = .hotActive := by
  unfold resolveState
  rw [strategy_json]
  rfl

theorem upsertNodes_replicated :
    upsertNodes (replicated version path length nodes contentType isDirty) =
      nodes.filter fun n => n ≠ [] := by
  have hextra := extraFields_contentType contentType
  unfold upsertNodes
  rw [if_pos (resolveTier_replication hextra), replicaNodes_replication hextra]

theorem upsertNodes_json :
    upsertNodes (replicated version path length nodes contentType isDirty).json =
      (nodes.filter fun n => n ≠ []).map jsonText := by
  unfold upsertNodes
  rw [if_pos resolveTier_json, replicated_json_get (by decide) (by decide)]
  change (toStringSlice (Any.strings nodes).json).filter _ = _
  rw [toStringSlice_json_strings, List.filter_filter, List.filter_map]
  congr 1
  refine List.filter_congr fun n _ => ?_
  simp [toValid_eq_nil]

theorem upsertHotPath_replicated {o : GoString} (hpath : path ≠ []) :
    upsertHotPath o version (replicated version path length nodes contentType isDirty) = path := by
  unfold upsertHotPath
  rw [hotKey_replication (extraFields_contentType contentType)]
  simp only [if_neg hpath]

theorem upsertHotPath_json {o : GoString} (hpath : path ≠ []) :
    upsertHotPath o version (replicated version path length nodes contentType isDirty).json =
      jsonText path := by
  have hvalid : jsonText path ≠ [] := fun h => hpath (toValid_eq_nil.mp h)
  have hkey : Meta.toString ((replicated version path length nodes contentType isDirty).json.get
      (lit "hot_key")) [] = jsonText path := by
    rw [replicated_json_get (by decide) (by decide)]
    rfl
  unfold upsertHotPath
  rw [hkey]
  simp only [if_neg hvalid]

theorem contentType_json :
    (toNullableString ((replicated version path length nodes contentType isDirty).json.get
      (lit "content_type"))).map jsonText =
    (toNullableString ((replicated version path length nodes contentType isDirty).get
      (lit "content_type"))).map jsonText := by
  rw [Metadata.get_json valid_names, replicated_get_contentType]
  cases contentType with
  | none => rfl
  | some ct =>
    change (if jsonText ct = [] then none else some (jsonText ct)).map jsonText =
      (if ct = [] then none else some ct).map jsonText
    simp only [toValid_eq_nil]
    split
    · rfl
    · exact congrArg some (toValid_toValid ct)

/-- The version row of both sides, as it is read back. -/
theorem upsertVersion_json {o : GoString} {now now' : Time} (hlength : length < 2 ^ 53) :
    untimed (Value.readBack (.objectVersion (upsertVersion o version
      (replicated version path length nodes contentType isDirty) now))) =
    untimed (Value.readBack (.objectVersion (upsertVersion o version
      (replicated version path length nodes contentType isDirty).json now'))) := by
  have hextra := extraFields_contentType contentType
  have hsize : toInt64 ((replicated version path length nodes contentType isDirty).json.get
      (lit "original_length")) 0 = length := by
    rw [replicated_json_get (by decide) (by decide)]
    exact toInt64_json_int hlength
  have htier := @resolveTier_json version path length nodes contentType isDirty
  simp only [untimed, Value.readBack, upsertVersion, contentType_json, hsize, htier,
    length_replication hextra, resolveTier_replication hextra,
    @replicated_json_get _ _ _ _ _ _ (lit "cold_hash") (by decide) (by decide),
    @replicated_json_get _ _ _ _ _ _ (lit "k") (by decide) (by decide),
    @replicated_json_get _ _ _ _ _ _ (lit "m") (by decide) (by decide),
    @replicationMetadata_get _ _ _ _ _ _ hextra (lit "cold_hash") (by decide) (by decide),
    @replicationMetadata_get _ _ _ _ _ _ hextra (lit "k") (by decide) (by decide),
    @replicationMetadata_get _ _ _ _ _ _ hextra (lit "m") (by decide) (by decide)]
  rfl

/-- The head of both sides, without its timestamps. -/
theorem upsertHead_untimed (o : GoString) (v : Int) (state : ObjectState) (now now' : Time)
    (found : Option ObjectRecord) :
    untimed (Value.readBack (.object (upsertHead o v state now found))) =
      untimed (Value.readBack (.object (upsertHead o v state now' found))) := by
  cases found <;> rfl

theorem replicas_json {o : GoString} (hpath : path ≠ []) :
    (upsertReplicas o version
      (replicated version path length nodes contentType isDirty).json).map asRead =
    (nodes.filter fun n => n ≠ []).map fun n => (tiKVReplicaKey o version (jsonText n),
      some (Value.readBack (.replica ⟨o, version, n, path, .active⟩))) := by
  rw [upsertReplicas_eq, upsertNodes_json, upsertHotPath_json hpath, List.map_map, List.map_map]
  refine List.map_congr_left fun n _ => ?_
  simp [asRead, Value.readBack, untimed, toValid_toValid]

theorem replicas_direct {o : GoString} (hpath : path ≠ []) :
    (upsertReplicas o version
      (replicated version path length nodes contentType isDirty)).map asRead =
    (nodes.filter fun n => n ≠ []).map fun n => (tiKVReplicaKey o version n,
      some (Value.readBack (.replica ⟨o, version, n, path, .active⟩))) := by
  rw [upsertReplicas_eq, upsertNodes_replicated, upsertHotPath_replicated hpath, List.map_map]
  rfl

end Replication

/-! ## Agreement -/

section Agreement

variable {P : GoString → Prop} {s : Store} {cfg : Config} {o : GoString}

/-- Commits that agree write the same head, version row and replica rows. -/
theorem records_agree_iff (hs : Rows P s) (ho : o ≠ []) {md md' : Metadata} {o' : GoString}
    (ho' : o' ≠ []) {clock now clock' now' : Time} :
    records (upsertNormalizedMetadata cfg clock now o md) s =
      records (upsertNormalizedMetadata cfg clock' now' o' md') s ↔
    (o = o' ∧ untimed (Value.readBack (.object (upsertHead o (resolveVersion md clock)
        (resolveState md) now ((catalog s).head o)))) =
      untimed (Value.readBack (.object (upsertHead o' (resolveVersion md' clock')
        (resolveState md') now' ((catalog s).head o'))))) ∧
    (resolveVersion md clock = resolveVersion md' clock' ∧
      untimed (Value.readBack (.objectVersion (upsertVersion o (resolveVersion md clock) md
        now))) =
      untimed (Value.readBack (.objectVersion (upsertVersion o' (resolveVersion md' clock') md'
        now')))) ∧
    (upsertReplicas o (resolveVersion md clock) md).map asRead =
      (upsertReplicas o' (resolveVersion md' clock') md').map asRead := by
  rw [records_upsert hs ho, records_upsert hs ho']
  simp only [upsertRows, List.cons_append, List.nil_append, List.map_cons, List.cons.injEq, asRead,
    Write.key_set, Write.value_set, Option.map_some, Function.comp, Prod.mk.injEq,
    Option.some.injEq, tiKVObjectKey_inj, tiKVObjectVersionKey_inj]
  tauto

theorem replication_agrees_iff (hs : Rows P s) (ho : o ≠ []) {version : Int}
    (h64 : InInt64 version) {path : GoString} (hpath : path ≠ []) {length : Nat}
    (hlength : length < 2 ^ 53) (nodes : List GoString) (contentType : Option GoString)
    (isDirty : Bool) :
    SameCommit cfg s o (replicated version path length nodes contentType isDirty) ↔
      0 < version ∧ Valid o ∧ ∀ n ∈ nodes, Valid n := by
  have ho' : jsonText o ≠ [] := fun h => ho (toValid_eq_nil.mp h)
  constructor
  · intro h
    obtain ⟨⟨hid, -⟩, ⟨hclock, -⟩, -⟩ := (records_agree_iff hs ho ho').mp (h 0 0 1 0)
    -- An unusable version is replaced by the clock of the side that commits.
    have hv : 0 < version := by
      by_contra hle
      simp only [resolveVersion_direct h64, resolveVersion_json h64, if_neg hle] at hclock
      exact absurd hclock (by decide)
    obtain ⟨-, -, hreplicas⟩ := (records_agree_iff hs ho ho').mp (h 0 0 0 0)
    simp only [resolveVersion_direct h64, resolveVersion_json h64, if_pos hv, ← hid] at hreplicas
    rw [replicas_direct hpath, replicas_json hpath, List.map_inj_left] at hreplicas
    refine ⟨hv, hid.symm, fun n hn => ?_⟩
    rcases eq_or_ne n [] with rfl | hne
    · exact toValid_nil
    · have hkey := congrArg Prod.fst (hreplicas n (List.mem_filter.mpr ⟨hn, by simpa using hne⟩))
      exact (List.append_cancel_left hkey).symm
  · rintro ⟨hv, hid, hnodes⟩ clock now clock' now'
    have hid : jsonText o = o := hid
    refine (records_agree_iff hs ho ho').mpr ?_
    simp only [resolveVersion_direct h64, resolveVersion_json h64, if_pos hv, hid,
      resolveState_json, resolveState_replication (extraFields_contentType contentType)]
    refine ⟨⟨trivial, upsertHead_untimed o version .hotActive now now' _⟩,
      ⟨trivial, upsertVersion_json hlength⟩, ?_⟩
    rw [replicas_direct hpath, replicas_json hpath]
    refine List.map_congr_left fun n hn => ?_
    have hvalid : jsonText n = n := hnodes n (List.mem_filter.mp hn).1
    rw [hvalid]

/-- An erasure-coded write is HOT when it is committed directly and EC when it is committed
over RPC. -/
theorem ec_disagrees (hs : Rows P s) (ho : o ≠ []) (k m : Int) (key : GoString) (length : Nat)
    (version : Int) (hash : GoString) (isDirty : Bool) :
    ¬ SameCommit cfg s o (ecMetadata k m key length version hash isDirty) := by
  intro h
  have ho' : jsonText o ≠ [] := fun h => ho (toValid_eq_nil.mp h)
  obtain ⟨⟨-, hhead⟩, -⟩ := (records_agree_iff hs ho ho').mp (h 0 0 0 0)
  have hdirect : resolveState (ecMetadata k m key length version hash isDirty) = .hotActive := by
    cases isDirty <;> rfl
  have hremote : resolveState (ecMetadata k m key length version hash isDirty).json =
      .ecActive := by
    cases isDirty <;> rfl
  rw [hdirect, hremote] at hhead
  simp [untimed, Value.readBack, upsertHead] at hhead

/-- What a commit needs to mean the same over RPC. -/
def Produced.Portable (o : GoString) : Produced → Prop
  | replication at' _ nodes _ _ => 0 < at'.unixNano ∧ Valid o ∧ ∀ n ∈ nodes, Valid n
  | ec .. => False

/-- A direct commit and one over RPC agree when the metadata are those of a replicated write at a
usable time and the id and the nodes are text, and only then. -/
theorem rpc_commit_agrees_iff (hs : Rows P s) (p : Produced) (hlength : p.length < 2 ^ 53) :
    SameCommit cfg s o (p.metadata o) ↔ o = [] ∨ p.Portable o := by
  rcases eq_or_ne o [] with rfl | ho
  · exact iff_of_true (fun _ _ _ _ => rfl) (Or.inl rfl)
  · cases p with
    | replication at' length nodes contentType isDirty =>
      have hpath : (if buildHotReplicaPath o at'.unixNano = [] then o
          else buildHotReplicaPath o at'.unixNano) ≠ [] := by
        split
        · exact ho
        · assumption
      exact (replication_agrees_iff hs ho (inInt64_unixNano at') hpath hlength nodes contentType
        isDirty).trans (or_iff_right ho).symm
    | ec k m at' length hash isDirty =>
      exact iff_of_false (ec_disagrees hs ho k m o length at'.unixNano hash isDirty)
        fun h => h.elim ho id

/-- A replicated write of a typed object. -/
theorem rpc_commit_text : Rows (fun _ => True) SortedMap.empty ∧
    SameCommit {} SortedMap.empty (lit "a")
      ((Produced.replication 7 2 [lit "n1", lit "n2"] (some (lit "text/plain")) true).metadata
        (lit "a")) :=
  ⟨rows_empty, (@rpc_commit_agrees_iff (fun _ => True) _ _ _ rows_empty _ (by decide)).mpr
    (Or.inr ⟨by decide, by decide, by decide⟩)⟩

/-- The commit of an erasure-coded write: direct, the head says HOT. -/
theorem rpc_commit_differs : ¬ SameCommit {} SortedMap.empty (lit "a")
    ((Produced.ec 4 2 7 2 (lit "h") false).metadata (lit "a")) :=
  fun h => absurd (h 0 0 0 0) (by decide +kernel)

end Agreement

end TieredStore.Api
