import TieredStore.Meta.KV

/-!
# Task rows and their indexes

A task row lives under `task/`. A runnable row (PENDING or RETRY_WAIT) has one key in the
ready or the wait index, a finished row one key in the terminal index. Every write of a row
replaces the index keys of the previous copy of the row by those of the new one.

The claim walks the ready index and takes a task in a transaction that checks the row
again. A call reads the clock once; `clock` stands for the reading that replaces a zero
time.
-/

namespace TieredStore.Meta

open Lib

def isTaskRunnableState : TaskState → Bool
  | .pending | .retryWait => true
  | _ => false

def isTaskTerminalState : TaskState → Bool
  | .done | .failed => true
  | _ => false

def taskReadyIndexKey (rec : TaskRecord) : GoString :=
  tiKVTaskReadyKey rec.taskType rec.priority rec.scheduledAt rec.taskID

def taskWaitIndexKey (rec : TaskRecord) : GoString :=
  tiKVTaskWaitKey rec.taskType rec.scheduledAt rec.taskID

/-- The terminal key of a row; empty when the row has no finish time. -/
def taskTerminalIndexKey (rec : TaskRecord) : GoString :=
  match rec.finishedAt with
  | none => []
  | some finishedAt => tiKVTaskTerminalKey finishedAt rec.taskID

/-- A zero time is replaced by a clock reading. -/
def orNow (now clock : Time) : Time := if now.isZero then clock else now

/-! ## Index writes -/

def deleteTaskRunnableIndexInBatch (rec : TaskRecord) : List KVWrite :=
  if rec.taskID = [] then []
  else [Write.del (taskReadyIndexKey rec), Write.del (taskWaitIndexKey rec)]

def deleteTaskTerminalIndexInBatch (rec : TaskRecord) : List KVWrite :=
  if rec.taskID = [] ∨ taskTerminalIndexKey rec = [] then []
  else [Write.del (taskTerminalIndexKey rec)]

def putTaskRunnableIndexInBatch (clock : Time) (rec : TaskRecord) (now : Time) : List KVWrite :=
  if rec.taskID = [] ∨ isTaskRunnableState rec.taskState = false then []
  else if rec.scheduledAt > orNow now clock then [Write.set (taskWaitIndexKey rec) .mark]
  else [Write.set (taskReadyIndexKey rec) .mark]

def putTaskTerminalIndexInBatch (rec : TaskRecord) : List KVWrite :=
  if rec.taskID = [] ∨ isTaskTerminalState rec.taskState = false ∨ rec.finishedAt = none then []
  else [Write.set (taskTerminalIndexKey rec) .mark]

def rewriteTaskRunnableIndexLocked (clock : Time) (rec : TaskRecord) (now : Time) : KV Unit :=
  KV.commit (deleteTaskRunnableIndexInBatch rec ++ deleteTaskTerminalIndexInBatch rec ++
    putTaskRunnableIndexInBatch clock rec now ++ putTaskTerminalIndexInBatch rec)

/-- The batch that replaces a row and its index keys. -/
def taskRecordBatch (clock : Time) (prev : Option TaskRecord) (next : TaskRecord) (now : Time) :
    List KVWrite :=
  (match prev with
    | none => []
    | some prev => deleteTaskRunnableIndexInBatch prev ++ deleteTaskTerminalIndexInBatch prev) ++
  [Write.set (tiKVTaskKey next.taskID) (.task next)] ++
  putTaskRunnableIndexInBatch clock next (orNow now clock) ++ putTaskTerminalIndexInBatch next

/-- Persist a row and its index keys at once; `prev` is absent for a first insert. -/
def writeTaskRecordWithRunnableIndexLocked (clock : Time) (prev : Option TaskRecord)
    (next : TaskRecord) (now : Time) : KV Unit :=
  if next.taskID = [] then pure () else KV.commit (taskRecordBatch clock prev next now)

/-! ## Promotion of waiting tasks -/

/-- The loop over the wait index: how many keys it touched, and the batch. -/
def promoteWaitingLoop (clock now : Time) (maxPromote : Int) :
    List (GoString × Value) → Int → List KVWrite → KV (Int × List KVWrite)
  | [], touched, ops => pure (touched, ops)
  | (waitKey, _) :: rest, touched, ops =>
    match tiKVParseTaskWaitKey waitKey with
    | none =>
      let ops := ops ++ [Write.del waitKey]
      if touched + 1 ≥ maxPromote then pure (touched + 1, ops)
      else promoteWaitingLoop clock now maxPromote rest (touched + 1) ops
    | some (scheduledAtUnixNano, _, taskID) =>
      if scheduledAtUnixNano > now.unixNano then pure (touched, ops)
      else do
        let found ← getTaskRecord (tiKVTaskKey taskID)
        let ops := ops ++ [Write.del waitKey] ++
          (match found with
            | none => []
            | some rec =>
              deleteTaskRunnableIndexInBatch rec ++ putTaskRunnableIndexInBatch clock rec now)
        if touched + 1 ≥ maxPromote then pure (touched + 1, ops)
        else promoteWaitingLoop clock now maxPromote rest (touched + 1) ops

def promoteDueWaitingTasksLocked (clock now : Time) (maxPromote : Int) : KV Int := do
  let now := orNow now clock
  let maxPromote := if maxPromote ≤ 0 then 256 else maxPromote
  let it ← KV.newPrefixIter tiKVTaskWaitPrefix
  let (touched, ops) ← promoteWaitingLoop clock now maxPromote it 0 []
  KV.commit ops
  pure touched

/-! ## Claim -/

def errConflict : GoError := lit "write conflict"

/-- The row of a claimed task. -/
def claimedRecord (rec : TaskRecord) (now : Time) : TaskRecord :=
  { rec with taskState := .running, startedAt := some now, finishedAt := none, lastError := none }

/-- Whether a row may be claimed under an index key of the given type. -/
def claimable (indexedType : GoString) (now : Time) (rec : TaskRecord) : Bool :=
  rec.taskType = indexedType ∧ isTaskRunnableState rec.taskState ∧ ¬ rec.scheduledAt > now

/-- The transaction of `tryClaimTaskCAS`. -/
def claimTxn (readyKeyRaw indexedType taskID : GoString) (now : Time) :
    Txn (Option TaskRecord) := do
  let taskKey := tiKVTaskKey taskID
  match ← Txn.get taskKey with
  | none =>
    if readyKeyRaw ≠ [] then Txn.delete readyKeyRaw
    pure none
  | some raw =>
    match raw.asTask with
    | none => .fail (lit "decode task record for cas claim failed")
    | some rec =>
      let named := { rec with taskID := if rec.taskID = [] then taskID else rec.taskID }
      if claimable indexedType now named = false then pure none
      else
        let claimed := claimedRecord named now
        Txn.set taskKey (.task claimed)
        if readyKeyRaw ≠ [] then Txn.delete readyKeyRaw
        Txn.delete (taskReadyIndexKey claimed)
        Txn.delete (taskWaitIndexKey claimed)
        pure (some claimed)

def tryClaimTaskCAS (clock : Time) (readyKeyRaw indexedType taskID : GoString) (now : Time) :
    KV (Option TaskRecord) :=
  if taskID = [] then pure none
  else do
    match ← (KV.runInTxn (claimTxn readyKeyRaw indexedType taskID (orNow now clock))).attempt with
    | .ok claimed => pure claimed
    | .error e => if e = errConflict then pure none else .fail e

/-- The loop over the ready index. -/
def claimReadyLoop (clock now : Time) (taskType : GoString) :
    List (GoString × Value) → KV (Option TaskRecord)
  | [] => pure none
  | (readyKey, _) :: rest =>
    match tiKVParseTaskReadyKey readyKey with
    | none => do
      KV.delete readyKey
      claimReadyLoop clock now taskType rest
    | some (_, indexedType, taskID) =>
      if taskType ≠ [] ∧ indexedType ≠ taskType then claimReadyLoop clock now taskType rest
      else do
        match ← getTaskRecord (tiKVTaskKey taskID) with
        | none =>
          KV.delete readyKey
          claimReadyLoop clock now taskType rest
        | some rec =>
          -- the index may lag behind the row: repair it and go on
          if claimable indexedType now rec = false then
            rewriteTaskRunnableIndexLocked clock rec now
            claimReadyLoop clock now taskType rest
          else
            match ← tryClaimTaskCAS clock readyKey indexedType taskID now with
            | some task => pure (some task)
            | none => claimReadyLoop clock now taskType rest

def claimNextTieringTaskFromReadyIndexLocked (clock now : Time) (taskType : GoString) :
    KV (Option TaskRecord) := do
  let it ← KV.newPrefixIter tiKVTaskReadyPrefix
  claimReadyLoop clock (orNow now clock) taskType it

end TieredStore.Meta
