import TieredStore.Meta.KV

/-!
# The due index

For every HOT version the index `tdue/` holds an entry under the time at which the version
becomes eligible for tiering, and `tdue_ref/` leads from the version back to that entry.
Batch-building functions return the writes they add to the batch.
-/

namespace TieredStore.Meta

open Lib

/-- The deletions of a version's due entry and of its reference. -/
def dueRemoval (objectID : GoString) (version : Int) (ref : Option TierDueRefRecord) :
    List KVWrite :=
  (match ref with
    | some ref => if ref.dueKey ≠ [] then [Write.del ref.dueKey] else []
    | none => []) ++
  [Write.del (tiKVTierDueRefKey objectID version)]

def removeTieringDueIndexByVersionInBatch (objectID : GoString) (version : Int) :
    KV (List KVWrite) := do
  let ref ← getJSON Value.asTierDueRef (tiKVTierDueRefKey objectID version)
  pure (dueRemoval objectID version ref)

/-- The entry and the reference written for a version that is eligible at a time. -/
def dueIndexEntry (objectID : GoString) (version : Int) (sizeBytes : Int) (now eligibleAt : Time) :
    List (GoString × Value) :=
  let dueKey := tiKVTierDueKey eligibleAt objectID version
  [(dueKey, .tierDue ⟨objectID, version, eligibleAt, sizeBytes, now⟩),
    (tiKVTierDueRefKey objectID version, .tierDueRef ⟨objectID, version, dueKey, eligibleAt, now⟩)]

def upsertTieringDueIndex (cfg : Config) (objectID : GoString) (version : Int) (tier : Tier)
    (sizeBytes : Int) (now : Time) : KV (List KVWrite) := do
  let removal ← removeTieringDueIndexByVersionInBatch objectID version
  if tier ≠ .hot then pure removal
  else
    let eligibleAt := now + Time.seconds cfg.ageThresholdSec
    pure (removal ++ (dueIndexEntry objectID version sizeBytes now eligibleAt).map fun e =>
      Write.set e.1 e.2)

def removeTieringDueIndexByVersionTxn (objectID : GoString) (version : Int) : Txn Unit := do
  let refKey := tiKVTierDueRefKey objectID version
  let ref ← txnGetJSON Value.asTierDueRef refKey
  match ref with
  | some ref => if ref.dueKey ≠ [] then Txn.delete ref.dueKey
  | none => pure ()
  Txn.delete refKey

def upsertTieringDueIndexTxn (cfg : Config) (objectID : GoString) (version : Int) (tier : Tier)
    (sizeBytes : Int) (now : Time) : Txn Unit := do
  removeTieringDueIndexByVersionTxn objectID version
  if tier ≠ .hot then pure ()
  else
    let eligibleAt := now + Time.seconds cfg.ageThresholdSec
    (dueIndexEntry objectID version sizeBytes now eligibleAt).forM fun e => Txn.set e.1 e.2

def removeTieringDueIndexByVersion (objectID : GoString) (version : Int) : KV Unit := do
  let removal ← removeTieringDueIndexByVersionInBatch objectID version
  KV.commit removal

/-- The deletions for every reference of an object and the entry it leads to. -/
def removeTieringDueIndexForObjectInBatch (objectID : GoString) : KV (List KVWrite) := do
  let it ← KV.newPrefixIter (tiKVTierDueRefPrefix objectID)
  let refs ← decodeAll Value.asTierDueRef (lit "due-index ref") it
  pure ((it.zip refs).flatMap fun e =>
    (if e.2.dueKey ≠ [] then [Write.del e.2.dueKey] else []) ++ [Write.del e.1.1])

/-- A due-index entry that is ready: its key and its record. -/
structure TierDueCandidate where
  key : GoString
  record : TierDueRecord
  deriving DecidableEq

/-- The answer of a window scan: the candidates, whether more are ready, and the cursor. -/
structure DueWindow where
  candidates : List TierDueCandidate
  hasMoreReady : Bool
  lastKey : GoString

/-- Whether a due key parses and lies in the future. -/
def dueKeyLate (now : Time) (key : GoString) : Bool :=
  match tiKVParseTierDueKey key with
  | some (eligibleNano, _, _) => eligibleNano > now.unixNano
  | none => false

/-- The loop over the due entries. `room` counts how many candidates may still be taken. -/
def scanDueWindow (now : Time) (startAfterKey : GoString) :
    Nat → List (GoString × Value) → DueWindow → KV DueWindow
  | _, [], acc => pure acc
  | room, (key, v) :: rest, acc =>
    if startAfterKey ≠ [] ∧ ¬ startAfterKey < key then scanDueWindow now startAfterKey room rest acc
    else
      if dueKeyLate now key then pure acc
      else
        match v.asTierDue with
        | none => .fail (lit "decode due-index record failed")
        | some rec =>
          if rec.eligibleAt > now then pure acc
          else
            match room with
            | 0 => pure { acc with hasMoreReady := true }
            | room + 1 =>
              scanDueWindow now startAfterKey room rest
                ⟨acc.candidates ++ [⟨key, rec⟩], acc.hasMoreReady, key⟩

def listTieringDueCandidatesReadyWindow (cfg : Config) (now : Time) (maxScan : Int)
    (startAfterKey : GoString) : KV DueWindow := do
  let maxScan := if maxScan ≤ 0 then cfg.dueIndexMaxScan else maxScan
  let maxScan := if maxScan ≤ 0 then 2000 else maxScan
  let it ← KV.newPrefixIter tiKVTierDuePrefix
  scanDueWindow now startAfterKey maxScan.toNat it ⟨[], false, startAfterKey⟩

end TieredStore.Meta
