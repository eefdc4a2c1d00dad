import TieredStore.Meta.Schema

/-!
# Dynamic metadata

Object metadata travels as a map from names to values of any type. A map is an
association list; the first entry of a name counts. The conversions follow the type
switches of `metadata_helpers.go`: a value of an unexpected type gives the fallback.
-/

namespace TieredStore.Meta

open Lib Lib.Bytes

/-- A value of Go's `interface{}` as far as metadata uses it. `nil` is the zero value. A string of
a type of its own, such as `config.StorageStrategy`, is not a `str`. -/
inductive Any where
  | nil
  | str (s : GoString)
  | named (s : GoString)
  | int (n : Int)
  | int32 (n : Int)
  | int64 (n : Int)
  | jsonNumber (s : GoString)
  | float64 (q : ℚ)
  | bool (b : Bool)
  | strings (xs : List GoString)
  | list (xs : List Any)
  | map (m : List (GoString × Any))
  | maps (xs : List (List (GoString × Any)))

abbrev Metadata := List (GoString × Any)

namespace Metadata

/-- The value under a name; `nil` when the name is absent. -/
def get (m : Metadata) (name : GoString) : Any :=
  match m with
  | [] => .nil
  | e :: rest => if e.1 = name then e.2 else get rest name

/-- Assign a name. -/
def put (m : Metadata) (name : GoString) (v : Any) : Metadata :=
  (name, v) :: m

theorem get_cons (e : GoString × Any) (m : Metadata) (name : GoString) :
    get (e :: m) name = if e.1 = name then e.2 else m.get name := rfl

theorem get_put (m : Metadata) (name name' : GoString) (v : Any) :
    (m.put name v).get name' = if name = name' then v else m.get name' := rfl

theorem get_append_of_absent {m m' : Metadata} {name : GoString} (h : ∀ e ∈ m, e.1 ≠ name) :
    get (m ++ m') name = m'.get name := by
  induction m with
  | nil => rfl
  | cons e m ih =>
    rw [List.cons_append, get_cons, if_neg (h e List.mem_cons_self)]
    exact ih fun e' he' => h e' (List.mem_cons_of_mem _ he')

end Metadata

/-- Conversion of a float to an integer: the fraction is dropped. -/
def truncate (q : ℚ) : Int := if q < 0 then ⌈q⌉ else ⌊q⌋

def toString (v : Any) (fallback : GoString) : GoString :=
  match v with
  | .str s => s
  | _ => fallback

def toInt64 (v : Any) (fallback : Int) : Int :=
  match v with
  | .int n => n
  | .int32 n => n
  | .int64 n => n
  | .jsonNumber s => (parseInt s).getD fallback
  | .float64 q => truncate q
  | .str s => (parseInt s).getD fallback
  | _ => fallback

def toNullableInt (v : Any) : Option Int :=
  match v with
  | .int n => some n
  | .int32 n => some n
  | .int64 n => some n
  | .float64 q => some (truncate q)
  | _ => none

def toNullableString (v : Any) : Option GoString :=
  if toString v [] = [] then none else some (toString v [])

def toStringSlice (v : Any) : List GoString :=
  match v with
  | .strings xs => xs
  | .list xs => xs.filterMap fun
    | .str s => if s = [] then none else some s
    | _ => none
  | _ => []

/-- The version of the metadata: the larger of the hot and cold versions when it is
positive, and a clock reading otherwise. -/
def resolveVersion (metadata : Metadata) (now : Time) : Int :=
  let hot := toInt64 (metadata.get (lit "hot_version")) 0
  let cold := toInt64 (metadata.get (lit "cold_version")) 0
  if hot > cold then hot
  else if cold > 0 then cold
  else now.unixNano

def resolveState (metadata : Metadata) : ObjectState :=
  if toString (metadata.get (lit "strategy")) [] = lit "ec" then .ecActive else .hotActive

def resolveTier (metadata : Metadata) : Tier :=
  if toString (metadata.get (lit "strategy")) [] = lit "ec" then .ec else .hot

def strategyFromTier : Tier → GoString
  | .hot => lit "replication"
  | .ec => lit "ec"

/-- The versioned blob key of a HOT replica. -/
def buildHotReplicaPath (objectID : GoString) (version : Int) : GoString :=
  let objectID := trimSpace objectID
  if objectID = [] then []
  else if version ≤ 0 then objectID
  else lit "hot/" ++ objectID ++ lit "/" ++ padInt 20 version

theorem buildHotReplicaPath_of_pos {objectID : GoString} {version : Int}
    (hid : trimSpace objectID ≠ []) (hv : 0 < version) :
    buildHotReplicaPath objectID version =
      lit "hot/" ++ trimSpace objectID ++ lit "/" ++ padInt 20 version := by
  unfold buildHotReplicaPath
  rw [if_neg hid, if_neg (by omega)]

theorem inInt64_unixNano (t : Time) : InInt64 t.unixNano := by
  unfold Time.unixNano wrap64 InInt64
  have hlo := @Int.le_bmod t (2 ^ 64) (by decide)
  have hhi := @Int.bmod_lt t (2 ^ 64) (by decide)
  omega

/-! ## The metadata of a replicated write -/

/-- The metadata that `writeReplication` commits. The extra fields are assigned after its own. -/
def replicationMetadata (version : Int) (hotReplicaPath : GoString) (length : Nat)
    (writtenNodes : List GoString) (extraMeta : Metadata) (isDirty : Bool) : Metadata :=
  let finalMeta : Metadata := extraMeta ++
    [(lit "strategy", .str (lit "replication")), (lit "hot_version", .str (formatInt version)),
      (lit "cold_version", .str (lit "0")), (lit "cold_hash", .str []),
      (lit "original_length", .int length), (lit "replica_nodes", .strings writtenNodes),
      (lit "hot_key", .str hotReplicaPath)]
  if isDirty then finalMeta.put (lit "is_dirty") (.bool true) else finalMeta

/-- The extra fields of the object routes: at most a content type. -/
def ExtraFields (extraMeta : Metadata) : Prop := ∀ e ∈ extraMeta, e.1 = lit "content_type"

section Replication

variable {version : Int} {path : GoString} {length : Nat} {nodes : List GoString}
  {extraMeta : Metadata} {isDirty : Bool}

theorem replicationMetadata_get (hextra : ExtraFields extraMeta) {name : GoString}
    (hct : lit "content_type" ≠ name) (hdirty : lit "is_dirty" ≠ name) :
    (replicationMetadata version path length nodes extraMeta isDirty).get name =
      Metadata.get [(lit "strategy", .str (lit "replication")),
        (lit "hot_version", .str (formatInt version)), (lit "cold_version", .str (lit "0")),
        (lit "cold_hash", .str []), (lit "original_length", .int length),
        (lit "replica_nodes", .strings nodes), (lit "hot_key", .str path)] name := by
  have habsent : ∀ e ∈ extraMeta, e.1 ≠ name := fun e he => by rwa [hextra e he]
  unfold replicationMetadata
  split
  · rw [Metadata.get_put, if_neg hdirty, Metadata.get_append_of_absent habsent]
  · rw [Metadata.get_append_of_absent habsent]

theorem resolveTier_replication (hextra : ExtraFields extraMeta) :
    resolveTier (replicationMetadata version path length nodes extraMeta isDirty) = .hot := by
  unfold resolveTier
  rw [replicationMetadata_get hextra (by decide) (by decide)]
  rfl

theorem resolveState_replication (hextra : ExtraFields extraMeta) :
    resolveState (replicationMetadata version path length nodes extraMeta isDirty) =
      .hotActive := by
  unfold resolveState
  rw [replicationMetadata_get hextra (by decide) (by decide)]
  rfl

theorem replicaNodes_replication (hextra : ExtraFields extraMeta) :
    toStringSlice ((replicationMetadata version path length nodes extraMeta isDirty).get
      (lit "replica_nodes")) = nodes := by
  rw [replicationMetadata_get hextra (by decide) (by decide)]
  rfl

/-- A positive version is the version of its metadata. -/
theorem resolveVersion_replication (hextra : ExtraFields extraMeta) (hv : 0 < version)
    (h64 : InInt64 version) (clock : Time) :
    resolveVersion (replicationMetadata version path length nodes extraMeta isDirty) clock =
      version := by
  have hhot : toInt64 ((replicationMetadata version path length nodes extraMeta isDirty).get
      (lit "hot_version")) 0 = version := by
    rw [replicationMetadata_get hextra (by decide) (by decide)]
    change (parseInt (formatInt version)).getD 0 = version
    rw [parseInt_formatInt h64, Option.getD_some]
  have hcold : toInt64 ((replicationMetadata version path length nodes extraMeta isDirty).get
      (lit "cold_version")) 0 = 0 := by
    rw [replicationMetadata_get hextra (by decide) (by decide)]
    change (parseInt (lit "0")).getD 0 = 0
    decide
  unfold resolveVersion
  rw [hhot, hcold, if_pos hv]

theorem hotKey_replication (hextra : ExtraFields extraMeta) :
    toString ((replicationMetadata version path length nodes extraMeta isDirty).get
      (lit "hot_key")) [] = path := by
  rw [replicationMetadata_get hextra (by decide) (by decide)]
  rfl

theorem length_replication (hextra : ExtraFields extraMeta) :
    toInt64 ((replicationMetadata version path length nodes extraMeta isDirty).get
      (lit "original_length")) 0 = length := by
  rw [replicationMetadata_get hextra (by decide) (by decide)]
  rfl

end Replication

end TieredStore.Meta
