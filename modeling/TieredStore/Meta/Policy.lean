import TieredStore.Meta.Migration
import TieredStore.Meta.Tasks

/-!
# Scans that enqueue tasks

The three scans of the policy scanner. The tiering scan collects due HOT versions, selects
some of them under the budgets of its strategy, enqueues a migration task for each and
moves the head to MIGRATION_PENDING. The repair scan looks for versions with too few
placements, the history scan for old versions.
-/

namespace TieredStore.Meta

open Lib

/-! ## Tiering candidates -/

structure TieringCandidate where
  objectID : GoString
  version : Int
  dueKey : GoString
  sizeBytes : Int
  updatedAt : Time
  deriving DecidableEq

structure DueScanPlan where
  baseScan : Int
  burstRounds : Int
  adaptiveMax : Int
  deriving DecidableEq

def resolveTieringDueScanPlan (cfg : Config) : DueScanPlan :=
  let baseScan := if cfg.dueIndexMaxScan ≤ 0 then 2000 else cfg.dueIndexMaxScan
  let burstRounds := if cfg.dueIndexBurstRounds ≤ 0 then 1 else cfg.dueIndexBurstRounds
  let burstRounds := if burstRounds > 16 then 16 else burstRounds
  let adaptiveMax := if cfg.dueIndexAdaptiveMaxScan < baseScan then baseScan
    else cfg.dueIndexAdaptiveMaxScan
  let adaptiveMax := if adaptiveMax ≤ 0 then baseScan else adaptiveMax
  ⟨baseScan, burstRounds, adaptiveMax⟩

/-- Drop the due entry of a version; a failure is ignored. -/
def dropDueEntry (objectID : GoString) (version : Int) : KV (Option TieringCandidate) := do
  let _ ← (removeTieringDueIndexByVersion objectID version).attempt
  pure none

/-- The candidate of a due entry, if its version is current, HOT and old enough. -/
def tieringCandidate (eligibleBefore : Time) (due : TierDueCandidate) :
    KV (Option TieringCandidate) :=
  let o := due.record.objectID
  let v := due.record.version
  if o = [] ∨ v ≤ 0 then pure none
  else do
    match ← getObjectRecord (tiKVObjectKey o) with
    | none => dropDueEntry o v
    | some obj =>
      if obj.currentVersion ≠ v then dropDueEntry o v
      else if obj.state ≠ .hotActive ∧ obj.state ≠ .migrationPending then dropDueEntry o v
      else if obj.updatedAt > eligibleBefore then pure none
      else
        match ← getObjectVersionRecord (tiKVObjectVersionKey o v) with
        | none => dropDueEntry o v
        | some ver =>
          if ver.tier ≠ .hot then dropDueEntry o v
          else pure (some ⟨o, v, due.key, ver.sizeBytes, obj.updatedAt⟩)

/-- The candidates of a window, in order. -/
def windowCandidates (eligibleBefore : Time) : List TierDueCandidate → KV (List TieringCandidate)
  | [] => pure []
  | due :: rest => do
    let c ← tieringCandidate eligibleBefore due
    let cs ← windowCandidates eligibleBefore rest
    pure (c.toList ++ cs)

/-- The bursts over the due index. -/
def gatherCandidates (cfg : Config) (now eligibleBefore : Time) (maxObjects adaptiveMax : Int)
    (applyByteBudget : Bool) :
    Nat → Int → GoString → List TieringCandidate → KV (List TieringCandidate)
  | 0, _, _, candidates => pure candidates
  | rounds + 1, scanLimit, cursor, candidates => do
    let w ← listTieringDueCandidatesReadyWindow cfg now scanLimit cursor
    if w.candidates = [] then pure candidates
    else
      let found ← windowCandidates eligibleBefore w.candidates
      let candidates := candidates ++ found
      if applyByteBudget = false ∧ (candidates.length : Int) ≥ maxObjects then pure candidates
      else if w.hasMoreReady = false ∨ w.lastKey = cursor then pure candidates
      else
        gatherCandidates cfg now eligibleBefore maxObjects adaptiveMax applyByteBudget rounds
          (growLimit scanLimit adaptiveMax) w.lastKey candidates

/-- The order of selection: oldest update first, then the larger size, then the id. -/
def candidateBefore (a b : TieringCandidate) : Prop :=
  a.updatedAt < b.updatedAt ∨ (a.updatedAt = b.updatedAt ∧
    (a.sizeBytes > b.sizeBytes ∨ (a.sizeBytes = b.sizeBytes ∧ ¬ b.objectID < a.objectID)))

instance : DecidableRel candidateBefore := fun a b => by
  unfold candidateBefore
  infer_instance

/-- The end of `enqueueMigration`: a hot head of the candidate's version becomes pending. -/
def markPending (now : Time) (c : TieringCandidate) (enqueued : Int) : KV Int := do
  match ← getObjectRecord (tiKVObjectKey c.objectID) with
  | none => pure enqueued
  | some obj =>
    if obj.currentVersion ≠ c.version ∨ obj.state ≠ .hotActive then pure enqueued
    else
      KV.set (tiKVObjectKey c.objectID)
        (.object { obj with state := .migrationPending, updatedAt := now })
      pure enqueued

/-- Enqueue the migration of a candidate; the answer counts new tasks. -/
def enqueueMigration (clock now : Time) (c : TieringCandidate) : KV Int := do
  let taskID := lit "repl2ec:" ++ c.objectID ++ lit ":" ++ Bytes.formatInt c.version
  let enqueued ← match ← getTaskRecord (tiKVTaskKey taskID) with
    | some _ => pure 0
    | none => do
      writeTaskRecordWithRunnableIndexLocked clock none
        (newTask taskID c.objectID c.version (lit "REPL_TO_EC") 100 now) now
      pure 1
  removeTieringDueIndexByVersion c.objectID c.version
  markPending now c enqueued

/-- The selection loop: bytes used, candidates selected and tasks enqueued so far. -/
def enqueueSelected (clock now : Time) (maxObjects maxBytes : Int) (applyByteBudget : Bool) :
    List TieringCandidate → Int → Int → Int → KV Int
  | [], _, _, enqueued => pure enqueued
  | c :: rest, usedBytes, selected, enqueued =>
    if selected ≥ maxObjects then pure enqueued
    else
      let budget := applyByteBudget ∧ maxBytes > 0 ∧ c.sizeBytes > 0
      if budget ∧ wrap64 (usedBytes + c.sizeBytes) > maxBytes then
        enqueueSelected clock now maxObjects maxBytes applyByteBudget rest usedBytes selected enqueued
      else do
        let usedBytes := if budget then wrap64 (usedBytes + c.sizeBytes) else usedBytes
        let n ← enqueueMigration clock now c
        enqueueSelected clock now maxObjects maxBytes applyByteBudget rest usedBytes (selected + 1)
          (enqueued + n)

def enqueueTieringCandidates (cfg : Config) (clock now : Time) (ageThresholdSec maxObjects : Int)
    (maxBytes : Int) (applyByteBudget : Bool) : KV Int := do
  let ageThresholdSec := if ageThresholdSec < 0 then 0 else ageThresholdSec
  let maxObjects := if maxObjects ≤ 0 then 200 else maxObjects
  let eligibleBefore := now + wrap64 (-(Time.seconds ageThresholdSec))
  let plan := resolveTieringDueScanPlan cfg
  let candidates ← gatherCandidates cfg now eligibleBefore maxObjects plan.adaptiveMax
    applyByteBudget plan.burstRounds.toNat plan.baseScan [] []
  let candidates := candidates.insertionSort candidateBefore
  let candidates := if applyByteBudget = false then candidates.take maxObjects.toNat else candidates
  enqueueSelected clock now maxObjects maxBytes applyByteBudget candidates 0 0 0

/-- Strategy A selects by age only; B and C also keep to a byte budget. -/
def enqueueTieringCandidatesStrategyA (cfg : Config) (clock now : Time)
    (ageThresholdSec maxObjects : Int) : KV Int :=
  enqueueTieringCandidates cfg clock now ageThresholdSec maxObjects 0 false

def enqueueTieringCandidatesStrategyB (cfg : Config) (clock now : Time)
    (ageThresholdSec maxObjects maxBytes : Int) : KV Int :=
  enqueueTieringCandidates cfg clock now ageThresholdSec maxObjects maxBytes true

def enqueueTieringCandidatesStrategyC (cfg : Config) (clock now : Time)
    (ageThresholdSec maxObjects maxBytes : Int) : KV Int :=
  enqueueTieringCandidates cfg clock now ageThresholdSec maxObjects maxBytes true

/-! ## Repair and history -/

/-- Insert a task, or put a finished one back to PENDING. -/
def enqueueOrRequeue (clock now : Time) (taskID objectID : GoString) (version : Int)
    (taskType : GoString) (priority : Int) : KV Bool := do
  match ← getTaskRecord (tiKVTaskKey taskID) with
  | none =>
    writeTaskRecordWithRunnableIndexLocked clock none
      (newTask taskID objectID version taskType priority now) now
    pure true
  | some rec =>
    match rec.taskState with
    | .done | .failed =>
      writeTaskRecordWithRunnableIndexLocked clock (some rec)
        { rec with
          taskState := .pending
          priority := priority
          retryCount := 0
          lastError := none
          scheduledAt := now
          startedAt := none
          finishedAt := none } now
      pure true
    | _ => pure false

def enqueueRepairTask (clock now : Time) (taskID objectID : GoString) (version : Int) : KV Bool :=
  enqueueOrRequeue clock now taskID objectID version (lit "REPAIR") 200

def enqueueOrRequeueOldVersionGCTask (clock now : Time) (taskID objectID : GoString)
    (version : Int) : KV Bool :=
  enqueueOrRequeue clock now taskID objectID version (lit "GC_OLD_VERSION") 80

/-- The repair task that the current version of an object needs, if any. -/
def repairTaskID (cfg : Config) (o : ObjectRecord) : KV (Option GoString) := do
  match ← getObjectVersionRecord (tiKVObjectVersionKey o.objectID o.currentVersion) with
  | none => pure none
  | some ver =>
    match ver.tier with
    | .hot =>
      let target := if cfg.hotReplicaCount ≤ 0 then 1 else cfg.hotReplicaCount
      let replicas ← listReplicaRecords o.objectID o.currentVersion .active
      if (replicas.length : Int) < target then
        pure (some (lit "repair-repl:" ++ o.objectID ++ lit ":" ++ Bytes.formatInt o.currentVersion))
      else pure none
    | .ec =>
      let requiredK := match ver.encodingK with
        | some k => if k > 0 then k else cfg.k
        | none => cfg.k
      let requiredM := match ver.encodingM with
        | some m => if m > 0 then m else cfg.m
        | none => cfg.m
      if wrap64 (requiredK + requiredM) ≤ 0 then pure none
      else
        let shards ← listECShardRecords o.objectID o.currentVersion
        let activeShards := (shards.filter fun r => r.status = .active).length
        if (activeShards : Int) < wrap64 (requiredK + requiredM) then
          pure (some (lit "repair-ec:" ++ o.objectID ++ lit ":" ++ Bytes.formatInt o.currentVersion))
        else pure none

/-- The loop over the objects. Every enqueue reads the clock: `clocks` lists the readings. -/
def enqueueRepairLoop (cfg : Config) (clock : Time) (maxObjects : Int) (clocks : Nat → Time) :
    List ObjectRecord → Int → Int → KV Int
  | [], _, enqueued => pure enqueued
  | o :: rest, selected, enqueued =>
    if selected ≥ maxObjects then pure enqueued
    else do
      match ← repairTaskID cfg o with
      | none => enqueueRepairLoop cfg clock maxObjects clocks rest selected enqueued
      | some taskID =>
        let changed ← enqueueRepairTask clock (clocks selected.toNat) taskID o.objectID
          o.currentVersion
        enqueueRepairLoop cfg clock maxObjects clocks rest (selected + 1)
          (if changed then enqueued + 1 else enqueued)

/-- What `sort.Slice` makes of the objects: it need not be stable, so objects that were updated at
one time come out in some order. -/
structure UpdateOrder where
  sort : List ObjectRecord → List ObjectRecord
  perm : ∀ objects, (sort objects).Perm objects
  sorted : ∀ objects, (sort objects).Pairwise fun a b => a.updatedAt ≤ b.updatedAt

namespace UpdateOrder

/-- The sort that keeps the order of ties. -/
def stable : UpdateOrder where
  sort objects := objects.insertionSort fun a b => a.updatedAt ≤ b.updatedAt
  perm objects := List.perm_insertionSort _ objects
  sorted objects := List.pairwise_insertionSort _ objects

/-- The sort that turns the order of ties around. -/
def reversing : UpdateOrder where
  sort objects := objects.reverse.insertionSort fun a b => a.updatedAt ≤ b.updatedAt
  perm objects := (List.perm_insertionSort _ objects.reverse).trans objects.reverse_perm
  sorted objects := List.pairwise_insertionSort _ objects.reverse

/-- Without ties every sort gives the same list. -/
theorem sort_eq_self (order : UpdateOrder) {objects : List ObjectRecord}
    (h : objects.Pairwise fun a b => a.updatedAt < b.updatedAt) : order.sort objects = objects := by
  refine List.Perm.eq_of_pairwise ?_ (order.sorted objects) (h.imp le_of_lt) (order.perm objects)
  intro a b ha hb hab hba
  have hnodup : (objects.map (·.updatedAt)).Nodup := List.pairwise_map.mpr (h.imp ne_of_lt)
  exact List.inj_on_of_nodup_map hnodup ((order.perm objects).mem_iff.mp ha) hb
    (le_antisymm hab hba)

end UpdateOrder

def enqueueRepairCandidates (order : UpdateOrder) (cfg : Config) (clock : Time)
    (clocks : Nat → Time) (maxObjects : Int) : KV Int := do
  let maxObjects := if maxObjects ≤ 0 then 200 else maxObjects
  let objects ← listObjects
  enqueueRepairLoop cfg clock maxObjects clocks (order.sort objects) 0 0

/-- The order of the versions of one object: newest first. -/
def versionBefore (a b : ObjectVersionRecord) : Prop :=
  a.version > b.version ∨ (a.version = b.version ∧ ¬ b.createdAt > a.createdAt)

instance : DecidableRel versionBefore := fun a b => by
  unfold versionBefore
  infer_instance

/-- The loop over the versions of one object. -/
def enqueueOldVersions (clock now : Time) (keepLatest minAgeSec maxTasks : Int)
    (obj : ObjectRecord) : List ObjectVersionRecord → Int → Int → KV Int
  | [], _, enqueued => pure enqueued
  | ver :: rest, retained, enqueued =>
    if ver.version = obj.currentVersion then
      enqueueOldVersions clock now keepLatest minAgeSec maxTasks obj rest (retained + 1) enqueued
    else if retained < keepLatest then
      enqueueOldVersions clock now keepLatest minAgeSec maxTasks obj rest (retained + 1) enqueued
    else if minAgeSec > 0 ∧ now.sub ver.createdAt < Time.seconds minAgeSec then
      enqueueOldVersions clock now keepLatest minAgeSec maxTasks obj rest retained enqueued
    else do
      let taskID := lit "gc-old:" ++ obj.objectID ++ lit ":" ++ Bytes.formatInt ver.version
      let changed ← enqueueOrRequeueOldVersionGCTask clock now taskID obj.objectID ver.version
      if changed then
        if enqueued + 1 ≥ maxTasks then pure (enqueued + 1)
        else
          enqueueOldVersions clock now keepLatest minAgeSec maxTasks obj rest retained
            (enqueued + 1)
      else enqueueOldVersions clock now keepLatest minAgeSec maxTasks obj rest retained enqueued

def enqueueOldVersionsLoop (clock now : Time) (keepLatest minAgeSec maxTasks : Int) :
    List ObjectRecord → Int → KV Int
  | [], enqueued => pure enqueued
  | obj :: rest, enqueued =>
    if enqueued ≥ maxTasks then pure enqueued
    else do
      let versions ← listObjectVersionRecords obj.objectID
      if (versions.length : Int) ≤ keepLatest then
        enqueueOldVersionsLoop clock now keepLatest minAgeSec maxTasks rest enqueued
      else
        let n ← enqueueOldVersions clock now keepLatest minAgeSec maxTasks obj
          (versions.insertionSort versionBefore) 0 enqueued
        enqueueOldVersionsLoop clock now keepLatest minAgeSec maxTasks rest n

def enqueueOldVersionGCCandidates (clock now : Time) (keepLatest minAgeSec maxTasks : Int) :
    KV Int := do
  let keepLatest := if keepLatest ≤ 0 then 1 else keepLatest
  let maxTasks := if maxTasks ≤ 0 then 200 else maxTasks
  let objects ← listObjects
  enqueueOldVersionsLoop clock now keepLatest minAgeSec maxTasks objects 0

end TieredStore.Meta
