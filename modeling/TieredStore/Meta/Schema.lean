import TieredStore.Lib.Bytes
import TieredStore.Lib.SortedMap

/-!
# Records of the metadata store

The rows of the TiKV-backed repository. The store maps byte-string keys to rows; the JSON
encoding of a record is taken as lossless, so a row is the record itself. A row read
under a key of another kind does not decode.

Times are nanoseconds since the Unix epoch. The source's time values range over more than
`int64` nanoseconds, so `unixNano` wraps.
-/

namespace TieredStore

open Lib

/-- An error of the source, as its message. -/
abbrev GoError := GoString

/-- Two's complement 64-bit wrap-around. -/
def wrap64 (x : Int) : Int := x.bmod (2 ^ 64)

theorem wrap64_eq_self {x : Int} (hlow : -2 ^ 63 ≤ x) (hhigh : x < 2 ^ 63) : wrap64 x = x :=
  Int.bmod_eq_of_le (by omega) (by omega)

theorem wrap64_le {x : Int} (h : -2 ^ 63 ≤ x) : wrap64 x ≤ x := by
  unfold wrap64
  rw [Int.bmod_def]
  split <;> omega

theorem le_wrap64 (x : Int) : -2 ^ 63 ≤ wrap64 x := by
  unfold wrap64
  rw [Int.bmod_def]
  split <;> omega

abbrev Time := Int

namespace Time

/-- The zero value of `time.Time`: the first instant of year 1. -/
def zero : Time := -62135596800000000000

def isZero (t : Time) : Bool := t == zero

def unixNano (t : Time) : Int := wrap64 t

/-- `Time.Sub`: the difference as a duration, saturated. -/
def sub (t u : Time) : Int := max (-2 ^ 63) (min (2 ^ 63 - 1) (Int.sub t u))

/-- A whole number of seconds as a duration. -/
def seconds (n : Int) : Int := wrap64 (n * 1000000000)

end Time

theorem dataShards_pos : 0 < 4 := by decide

theorem parityShards_pos : 0 < 2 := by decide

/-- Settings of package `config` that the modelled code reads, with their defaults. -/
structure Config where
  k : Nat := 4
  m : Nat := 2
  k_pos : 0 < k := by first | exact dataShards_pos | decide
  m_pos : 0 < m := by first | exact parityShards_pos | decide
  hotReplicaCount : Int := 3
  hotWriteQuorum : Int := 2
  ageThresholdSec : Int := 3600
  dueIndexAsync : Bool := false
  dueIndexMaxScan : Int := 2000
  dueIndexBurstRounds : Int := 4
  dueIndexAdaptiveMaxScan : Int := 20000
  taskWaitPromoteBase : Int := 256
  taskWaitPromoteBurstRounds : Int := 4
  taskWaitPromoteAdaptiveMax : Int := 4096

namespace Meta

/-- The state of an object head. -/
inductive ObjectState where
  | hotActive
  | migrationPending
  | migrating
  | ecActive
  deriving DecidableEq, Repr

inductive Tier where
  | hot
  | ec
  deriving DecidableEq, Repr

/-- The status of a placement row. `unset` is the empty string. -/
inductive RowStatus where
  | active
  | deleted
  | unset
  deriving DecidableEq, Repr

inductive TaskState where
  | pending
  | running
  | retryWait
  | done
  | failed
  deriving DecidableEq, Repr

structure ObjectRecord where
  objectID : GoString
  tenantID : GoString
  currentVersion : Int
  state : ObjectState
  createdAt : Time
  updatedAt : Time
  deriving DecidableEq, Repr

structure ObjectVersionRecord where
  objectID : GoString
  version : Int
  sizeBytes : Int
  checksumSHA256 : GoString
  tier : Tier
  contentType : Option GoString
  encodingK : Option Int
  encodingM : Option Int
  createdAt : Time
  deriving DecidableEq, Repr

structure ReplicaRecord where
  objectID : GoString
  version : Int
  nodeID : GoString
  path : GoString
  status : RowStatus
  deriving DecidableEq, Repr

structure ECShardRecord where
  objectID : GoString
  version : Int
  shardIndex : Int
  nodeID : GoString
  path : GoString
  status : RowStatus
  deriving DecidableEq, Repr

structure TaskRecord where
  taskID : GoString
  objectID : GoString
  version : Int
  taskType : GoString
  taskState : TaskState
  priority : Int
  retryCount : Int
  lastError : Option GoString
  scheduledAt : Time
  startedAt : Option Time
  finishedAt : Option Time
  deriving DecidableEq, Repr

structure TierDueRecord where
  objectID : GoString
  version : Int
  eligibleAt : Time
  sizeBytes : Int
  createdAt : Time
  deriving DecidableEq, Repr

structure TierDueRefRecord where
  objectID : GoString
  version : Int
  dueKey : GoString
  eligibleAt : Time
  updatedAt : Time
  deriving DecidableEq, Repr

/-- The placement of one replica, as the repository hands it out. -/
structure ReplicaLocation where
  nodeID : GoString
  path : GoString
  status : RowStatus
  deriving DecidableEq, Repr

/-- The placement of one shard, as the repository takes it and hands it out. -/
structure ECShardLocation where
  shardIndex : Int
  nodeID : GoString
  path : GoString
  status : RowStatus
  deriving DecidableEq, Repr

/-- A stored value. `mark` is the one byte under an index key. -/
inductive Value where
  | object (r : ObjectRecord)
  | objectVersion (r : ObjectVersionRecord)
  | replica (r : ReplicaRecord)
  | ecShard (r : ECShardRecord)
  | task (r : TaskRecord)
  | tierDue (r : TierDueRecord)
  | tierDueRef (r : TierDueRefRecord)
  | mark
  deriving DecidableEq, Repr

namespace Value

def asObject : Value → Option ObjectRecord
  | object r => some r
  | _ => none

def asObjectVersion : Value → Option ObjectVersionRecord
  | objectVersion r => some r
  | _ => none

def asReplica : Value → Option ReplicaRecord
  | replica r => some r
  | _ => none

def asECShard : Value → Option ECShardRecord
  | ecShard r => some r
  | _ => none

def asTask : Value → Option TaskRecord
  | task r => some r
  | _ => none

def asTierDue : Value → Option TierDueRecord
  | tierDue r => some r
  | _ => none

def asTierDueRef : Value → Option TierDueRefRecord
  | tierDueRef r => some r
  | _ => none

@[simp] theorem asObject_eq_some {v : Value} {r : ObjectRecord} :
    v.asObject = some r ↔ v = object r := by
  cases v <;> simp [asObject]

@[simp] theorem asObjectVersion_eq_some {v : Value} {r : ObjectVersionRecord} :
    v.asObjectVersion = some r ↔ v = objectVersion r := by
  cases v <;> simp [asObjectVersion]

@[simp] theorem asReplica_eq_some {v : Value} {r : ReplicaRecord} :
    v.asReplica = some r ↔ v = replica r := by
  cases v <;> simp [asReplica]

@[simp] theorem asECShard_eq_some {v : Value} {r : ECShardRecord} :
    v.asECShard = some r ↔ v = ecShard r := by
  cases v <;> simp [asECShard]

@[simp] theorem asTask_eq_some {v : Value} {r : TaskRecord} :
    v.asTask = some r ↔ v = task r := by
  cases v <;> simp [asTask]

@[simp] theorem asTierDue_eq_some {v : Value} {r : TierDueRecord} :
    v.asTierDue = some r ↔ v = tierDue r := by
  cases v <;> simp [asTierDue]

@[simp] theorem asTierDueRef_eq_some {v : Value} {r : TierDueRefRecord} :
    v.asTierDueRef = some r ↔ v = tierDueRef r := by
  cases v <;> simp [asTierDueRef]

end Value

/-- The state of the metadata store. -/
abbrev Store := SortedMap GoString Value

abbrev KVWrite := Write GoString Value

end Meta

end TieredStore
