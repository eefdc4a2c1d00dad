import TieredStore.Meta.Keys
import TieredStore.Lib.Prog

/-!
# The key-value facade

The operations of `kvstore.Client` that the repository uses: a read of one key, a scan
between two bounds, a batch that commits at once, and a transaction. Repository functions
are programs over these operations, so that their steps can be interleaved
(`KVOp` is one step) or run alone (`atomically`).

A transaction body is itself a program of reads and writes. It reads one snapshot and its
own earlier writes; `Txn.effect` is its answer together with the writes that a commit
applies.
-/

namespace TieredStore.Meta

open Lib

/-! ## Transactions -/

inductive TxnOp where
  | get (key : GoString)
  | set (key : GoString) (value : Value)
  | delete (key : GoString)

def TxnRes : TxnOp → Type
  | .get _ => Option Value
  | .set _ _ => Unit
  | .delete _ => Unit

/-- A transaction body. -/
abbrev Txn (α : Type) := Prog TxnOp TxnRes GoError α

namespace Txn

def get (key : GoString) : Txn (Option Value) := .call (.get key) .ret

def set (key : GoString) (value : Value) : Txn Unit := .call (.set key value) .ret

def delete (key : GoString) : Txn Unit := .call (.delete key) .ret

/-- One step over a snapshot, with the writes made so far. -/
def step (snapshot : Store) : (o : TxnOp) → List KVWrite → TxnRes o × List KVWrite
  | .get key, ws => ((snapshot.applyAll ws).get? key, ws)
  | .set key value, ws => ((), ws ++ [Write.set key value])
  | .delete key, ws => ((), ws ++ [Write.del key])

/-- The answer of a body over a snapshot and the writes it wants to commit. -/
def effect {α : Type} (body : Txn α) (snapshot : Store) : Except GoError (α × List KVWrite) :=
  match body.run (step snapshot) [] with
  | (.ok a, ws) => .ok (a, ws)
  | (.error e, _) => .error e

end Txn

/-! ## Operations -/

/-- One key-value step. The transactions of the repository answer with the claimed task,
if any. -/
inductive KVOp where
  | get (key : GoString)
  | iter (lower upper : GoString)
  | commit (ops : List KVWrite)
  | txn (body : Txn (Option TaskRecord))

def KVRes : KVOp → Type
  | .get _ => Option Value
  | .iter _ _ => List (GoString × Value)
  | .commit _ => Unit
  | .txn _ => Except GoError (Option TaskRecord)

/-- A program over key-value steps. -/
abbrev KV (α : Type) := Prog KVOp KVRes GoError α

/-- The entries between two bounds, in key order. An empty upper bound is no bound. -/
def iterate (s : Store) (lower upper : GoString) : List (GoString × Value) :=
  s.entries.filter fun e => decide (¬ e.1 < lower ∧ (upper = [] ∨ e.1 < upper))

/-- The answer of one step and the store after it. -/
def kvHandler : (o : KVOp) → Store → KVRes o × Store
  | .get key, s => (s.get? key, s)
  | .iter lower upper, s => (iterate s lower upper, s)
  | .commit ops, s => ((), s.applyAll ops)
  | .txn body, s =>
    match body.effect s with
    | .ok (a, ws) => (.ok a, s.applyAll ws)
    | .error e => (.error e, s)

/-- Run a program with no other program between its steps. -/
def atomically {α : Type} (p : KV α) (s : Store) : Except GoError α × Store := p.run kvHandler s

namespace KV

def get (key : GoString) : KV (Option Value) := .call (.get key) .ret

/-- `newPrefixIter`, drained. -/
def newPrefixIter (pre : GoString) : KV (List (GoString × Value)) :=
  .call (.iter pre (tiKVPrefixUpperBound pre)) .ret

/-- `Batch.Commit`: an empty batch is no step. -/
def commit (ops : List KVWrite) : KV Unit :=
  match ops with
  | [] => pure ()
  | w :: ws => .call (.commit (w :: ws)) .ret

def set (key : GoString) (value : Value) : KV Unit := commit [Write.set key value]

def delete (key : GoString) : KV Unit := commit [Write.del key]

def runInTxn (body : Txn (Option TaskRecord)) : KV (Option TaskRecord) :=
  .call (.txn body) fun r =>
    match r with
    | .ok a => .ret a
    | .error e => .fail e

end KV

/-- A batch is one allowed step, or none when it is empty. -/
theorem KV.obeys_commit {τ : Type} {mon : Monitor KVOp KVRes τ} {Q : Except GoError Unit → τ → Prop}
    {ws : List KVWrite} {t : τ} (hnil : ws = [] → Q (.ok ()) t) (hallow : mon.allow t (.commit ws))
    (hnext : ∀ t', mon.next t (.commit ws) () t' → Q (.ok ()) t') :
    (KV.commit ws).Obeys mon Q t := by
  cases ws with
  | nil => exact hnil rfl
  | cons w ws => exact ⟨hallow, fun _ t' hn => hnext t' hn⟩

/-! ## Scans -/

/-- The entries whose key has a prefix. -/
def prefixEntries (s : Store) (pre : GoString) : List (GoString × Value) :=
  s.entries.filter fun e => decide (pre <+: e.1)

theorem iterate_upperBound (s : Store) (pre : GoString) :
    iterate s pre (tiKVPrefixUpperBound pre) = prefixEntries s pre := by
  unfold iterate prefixEntries
  congr 1
  funext e
  exact decide_eq_decide.mpr (between_bounds_iff pre e.1)

theorem mem_prefixEntries {s : Store} {pre k : GoString} {v : Value} :
    (k, v) ∈ prefixEntries s pre ↔ s.get? k = some v ∧ pre <+: k := by
  unfold prefixEntries
  rw [List.mem_filter, SortedMap.mem_entries]
  simp

theorem prefixEntries_sorted (s : Store) (pre : GoString) :
    (prefixEntries s pre).Pairwise (fun a b => a.1 < b.1) := s.sorted.filter _

/-! ## Helpers of the store -/

/-- The record behind a raw value. A row of another kind does not decode. -/
def decodeRow {α : Type} (decode : Value → Option α) (key : GoString) :
    Option Value → KV (Option α)
  | none => pure none
  | some v =>
    match decode v with
    | some r => pure (some r)
    | none => .fail (lit "unmarshal key=" ++ key ++ lit " failed")

def getJSON {α : Type} (decode : Value → Option α) (key : GoString) : KV (Option α) := do
  let v ← KV.get key
  decodeRow decode key v

theorem getJSON_eq {α : Type} (decode : Value → Option α) (key : GoString) :
    getJSON decode key = .call (.get key) (decodeRow decode key) := rfl

def getObjectRecord (key : GoString) : KV (Option ObjectRecord) := getJSON Value.asObject key

def getObjectVersionRecord (key : GoString) : KV (Option ObjectVersionRecord) :=
  getJSON Value.asObjectVersion key

def getTaskRecord (key : GoString) : KV (Option TaskRecord) := getJSON Value.asTask key

/-- `txnGetJSON`. -/
def txnGetJSON {α : Type} (decode : Value → Option α) (key : GoString) : Txn (Option α) := do
  match ← Txn.get key with
  | none => pure none
  | some v =>
    match decode v with
    | some r => pure (some r)
    | none => .fail (lit "transaction unmarshal key=" ++ key ++ lit " failed")

/-- Decode every value of a scan, in order. -/
def decodeAll {α : Type} (decode : Value → Option α) (what : GoString) :
    List (GoString × Value) → KV (List α)
  | [] => pure []
  | e :: rest =>
    match decode e.2 with
    | none => .fail (lit "decode " ++ what ++ lit " failed")
    | some r => do
      let rs ← decodeAll decode what rest
      pure (r :: rs)

theorem decodeAll_cases {α : Type} (decode : Value → Option α) (what : GoString)
    (es : List (GoString × Value)) :
    (∃ rs, decodeAll decode what es = .ret rs ∧ List.Forall₂ (fun e r => decode e.2 = some r) es rs) ∨
      ∃ err, decodeAll decode what es = .fail err := by
  induction es with
  | nil => exact Or.inl ⟨[], rfl, .nil⟩
  | cons e rest ih =>
    unfold decodeAll
    split
    · exact Or.inr ⟨_, rfl⟩
    · rename_i r hr
      rcases ih with ⟨rs, hrs, hall⟩ | ⟨err, herr⟩
      · exact Or.inl ⟨r :: rs, by rw [hrs]; rfl, .cons hr hall⟩
      · exact Or.inr ⟨err, by rw [herr]; rfl⟩

/-- When every value decodes, so does the list, and the records come from the values. -/
theorem decodeAll_ok {α : Type} {decode : Value → Option α} {what : GoString}
    {es : List (GoString × Value)} (h : ∀ e ∈ es, ∃ r, decode e.2 = some r) :
    decodeAll decode what es = .ret (es.filterMap fun e => decode e.2) := by
  induction es with
  | nil => rfl
  | cons e rest ih =>
    obtain ⟨r, hr⟩ := h e List.mem_cons_self
    rw [decodeAll, List.filterMap_cons, hr, ih fun e' he' => h e' (List.mem_cons_of_mem _ he')]
    rfl

def listObjects : KV (List ObjectRecord) := do
  let it ← KV.newPrefixIter tiKVPrefixObject
  decodeAll Value.asObject (lit "object record") it

def listObjectVersionRecords (objectID : GoString) : KV (List ObjectVersionRecord) := do
  let it ← KV.newPrefixIter (tiKVObjectVersionPrefix objectID)
  decodeAll Value.asObjectVersion (lit "object-version record") it

/-- The replica rows of a version; the status `unset` selects all of them. -/
def listReplicaRecords (objectID : GoString) (version : Int) (status : RowStatus) :
    KV (List ReplicaRecord) := do
  let it ← KV.newPrefixIter (tiKVReplicaVersionPrefix objectID version)
  let rows ← decodeAll Value.asReplica (lit "replica record") it
  pure (rows.filter fun r => !(status != .unset && r.status != status))

def listECShardRecords (objectID : GoString) (version : Int) : KV (List ECShardRecord) := do
  let it ← KV.newPrefixIter (tiKVECShardVersionPrefix objectID version)
  decodeAll Value.asECShard (lit "ec shard record") it

/-- The deletions that `batchDeletePrefix` adds to a batch. -/
def batchDeletePrefix (pre : GoString) : KV (List KVWrite) := do
  let it ← KV.newPrefixIter pre
  pure (it.map fun e => Write.del e.1)

end TieredStore.Meta
