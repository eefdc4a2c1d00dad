import TieredStore.Meta.TaskIndex

/-!
# Task operations

The operations on tiering tasks: enqueue, claim, the three outcomes of an execution,
requeue, cancel and the purge of finished tasks. `now` is the clock reading of a call and
`clock` the one that replaces a zero time given by the caller.
-/

namespace TieredStore.Meta

open Lib

/-- A new task in state PENDING. -/
def newTask (taskID objectID : GoString) (version : Int) (taskType : GoString) (priority : Int)
    (scheduledAt : Time) : TaskRecord where
  taskID := taskID
  objectID := objectID
  version := version
  taskType := taskType
  taskState := .pending
  priority := priority
  retryCount := 0
  lastError := none
  scheduledAt := scheduledAt
  startedAt := none
  finishedAt := none

def enqueueTieringTask (clock now : Time) (taskID objectID : GoString) (version : Int)
    (taskType : GoString) (priority : Int) (scheduledAt : Time) : KV Unit :=
  if taskID = [] then .fail (lit "task id is empty")
  else do
    match ← getTaskRecord (tiKVTaskKey taskID) with
    | some _ => pure ()
    | none =>
      writeTaskRecordWithRunnableIndexLocked clock none
        (newTask taskID objectID version taskType priority (orNow scheduledAt clock)) now

/-- Read a row, and write what `update` makes of it unless it refuses. The answer says
whether the row was written. -/
def updateTask (clock now : Time) (taskID : GoString) (update : TaskRecord → Option TaskRecord) :
    KV Bool := do
  match ← getTaskRecord (tiKVTaskKey taskID) with
  | none => pure false
  | some rec =>
    match update rec with
    | none => pure false
    | some next =>
      writeTaskRecordWithRunnableIndexLocked clock (some rec) next now
      pure true

def requeueTieringTaskNow (clock now : Time) (taskID : GoString) : KV Bool :=
  if taskID = [] then pure false
  else updateTask clock now taskID fun rec =>
    match rec.taskState with
    | .pending | .running | .retryWait | .failed =>
      some { rec with
        taskState := .pending
        scheduledAt := now
        startedAt := none
        finishedAt := none
        lastError := none }
    | .done => none

def cancelTieringTask (clock now : Time) (taskID reason : GoString) : KV Bool :=
  if taskID = [] then pure false
  else updateTask clock now taskID fun rec =>
    match rec.taskState with
    | .pending | .running | .retryWait =>
      some { rec with
        taskState := .failed
        lastError := some (if reason = [] then lit "cancelled_by_admin" else reason)
        finishedAt := some now }
    | .done | .failed => none

def markTieringTaskDone (clock now : Time) (taskID : GoString) : KV Unit := do
  let _ ← updateTask clock now taskID fun rec =>
    some { rec with taskState := .done, finishedAt := some now }
  pure ()

def markTieringTaskRetry (clock now : Time) (taskID lastErr : GoString) (nextRunAt : Time) :
    KV Unit := do
  let _ ← updateTask clock now taskID fun rec =>
    some { rec with
      taskState := .retryWait
      retryCount := wrap64 (rec.retryCount + 1)
      lastError := some lastErr
      scheduledAt := orNow nextRunAt clock
      finishedAt := none }
  pure ()

def markTieringTaskFailed (clock now : Time) (taskID lastErr : GoString) : KV Unit := do
  let lastErr := if lastErr = [] then lit "failed_without_error_message" else lastErr
  let _ ← updateTask clock now taskID fun rec =>
    some { rec with taskState := .failed, lastError := some lastErr, finishedAt := some now }
  pure ()

/-! ## Claim -/

structure WaitPromotePlan where
  base : Int
  burstRounds : Int
  adaptiveMax : Int
  deriving DecidableEq

def resolveTaskWaitPromotePlan (cfg : Config) : WaitPromotePlan :=
  let base := if cfg.taskWaitPromoteBase ≤ 0 then 256 else cfg.taskWaitPromoteBase
  let burstRounds := if cfg.taskWaitPromoteBurstRounds ≤ 0 then 1 else cfg.taskWaitPromoteBurstRounds
  let burstRounds := if burstRounds > 16 then 16 else burstRounds
  let adaptiveMax := if cfg.taskWaitPromoteAdaptiveMax < base then base
    else cfg.taskWaitPromoteAdaptiveMax
  let adaptiveMax := if adaptiveMax ≤ 0 then base else adaptiveMax
  ⟨base, burstRounds, adaptiveMax⟩

/-- The next limit of a burst: doubled, but not above the maximum. -/
def growLimit (limit adaptiveMax : Int) : Int :=
  if limit < adaptiveMax then
    let next := wrap64 (limit * 2)
    let next := if next > adaptiveMax then adaptiveMax else next
    if next > limit then next else limit
  else limit

def promoteRounds (clock now : Time) (adaptiveMax : Int) : Nat → Int → KV Unit
  | 0, _ => pure ()
  | rounds + 1, limit => do
    let promoted ← promoteDueWaitingTasksLocked clock now limit
    if promoted < limit then pure ()
    else promoteRounds clock now adaptiveMax rounds (growLimit limit adaptiveMax)

def claimNextTieringTask (cfg : Config) (clock now : Time) (taskType : GoString) :
    KV (Option TaskRecord) := do
  let plan := resolveTaskWaitPromotePlan cfg
  promoteRounds clock now plan.adaptiveMax plan.burstRounds.toNat plan.base
  claimNextTieringTaskFromReadyIndexLocked clock now taskType

/-! ## Purge of finished tasks -/

/-- The writes for one key of the terminal index, and whether a task is purged. -/
def purgeStep (clock now : Time) (cutoff : Int) (key taskID : GoString) (rec : TaskRecord) :
    List KVWrite × Bool :=
  if isTaskTerminalState rec.taskState = false ∨ rec.finishedAt = none then
    -- a stale terminal entry: rebuild the index keys from the row
    ([Write.del key] ++ deleteTaskRunnableIndexInBatch rec ++ deleteTaskTerminalIndexInBatch rec ++
      putTaskRunnableIndexInBatch clock rec now ++ putTaskTerminalIndexInBatch rec, false)
  else if (rec.finishedAt.getD 0).unixNano > cutoff then
    ([Write.del key] ++ putTaskTerminalIndexInBatch rec, false)
  else
    ([Write.del key] ++ deleteTaskRunnableIndexInBatch rec ++ deleteTaskTerminalIndexInBatch rec ++
      [Write.del (tiKVTaskKey taskID)], true)

/-- The loop over the terminal index: the number of purged tasks, and the batch. -/
def purgeLoop (clock now : Time) (cutoff limit : Int) :
    List (GoString × Value) → Int → List KVWrite → KV (Int × List KVWrite)
  | [], purged, ops => pure (purged, ops)
  | (key, _) :: rest, purged, ops =>
    match tiKVParseTaskTerminalKey key with
    | none => purgeLoop clock now cutoff limit rest purged (ops ++ [Write.del key])
    | some (finishedAtUnixNano, taskID) =>
      if finishedAtUnixNano > cutoff then pure (purged, ops)
      else do
        match ← getTaskRecord (tiKVTaskKey taskID) with
        | none => purgeLoop clock now cutoff limit rest purged (ops ++ [Write.del key])
        | some rec =>
          let (ws, gone) := purgeStep clock now cutoff key taskID rec
          if gone then
            if purged + 1 ≥ limit then pure (purged + 1, ops ++ ws)
            else purgeLoop clock now cutoff limit rest (purged + 1) (ops ++ ws)
          else purgeLoop clock now cutoff limit rest purged (ops ++ ws)

def purgeTerminalTieringTasks (clock now : Time) (olderThan : Time) (limit : Int) : KV Int :=
  if olderThan.isZero then pure 0
  else do
    let limit := if limit ≤ 0 then 200 else limit
    let limit := if limit > 5000 then 5000 else limit
    let it ← KV.newPrefixIter tiKVTaskTerminalPrefix
    let (purged, ops) ← purgeLoop clock now olderThan.unixNano limit it 0 []
    KV.commit ops
    pure purged

end TieredStore.Meta
