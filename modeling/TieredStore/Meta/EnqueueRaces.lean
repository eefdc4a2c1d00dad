import TieredStore.Lib.Pool
import TieredStore.Meta.TaskMoves

/-!
# Enqueues on several replicas

The replicas of the metadata service share one store, and the mutex of the store object is local
to a replica. Enqueues, claims and the reports of workers are interleaved here between any two
key-value steps. A ledger next to the store remembers what each process read last of the task rows.

An enqueue looks the row up and writes it in a second step. When the row has changed in between,
the write resets it: a task that is RUNNING becomes PENDING (`enqueue_resets_running`). An enqueue
whose row is still the one that it read (`Fresh`) leaves every row alone, except that the repair
and history enqueues put a finished row back to PENDING (`fresh_enqueue_keeps_rows`).
-/

namespace TieredStore.Meta.EnqueueRaces

open Lib Lib.Prog TaskCoherence TaskMoves

/-! ## Processes -/

/-- `insert` writes a row where it saw none, `requeue` also where it saw a finished one. -/
inductive Kind where
  | insert
  | requeue
  | other
  deriving DecidableEq

structure Role where
  replica : Nat
  kind : Kind
  deriving DecidableEq

/-- The task key that was read last, and the answer. -/
abbrev LastRead := Option (GoString × Option Value)

/-- A row that an enqueue may write over. -/
def Writable (kind : Kind) (row : Option Value) : Prop :=
  row = none ∨ kind = .requeue ∧
    ∃ rec, row = some (.task rec) ∧ (rec.taskState = .done ∨ rec.taskState = .failed)

/-- An enqueue writes only the row that it read last. -/
def TaskWrites (kind : Kind) (t : LastRead) (ws : List KVWrite) : Prop :=
  ∀ w ∈ ws, keyFamily w.key = lit "task" → ∃ row, t = some (w.key, row) ∧ Writable kind row

def raceMonitor (kind : Kind) : Monitor KVOp KVRes LastRead where
  allow t
    | .get _ => True
    | .iter _ _ => True
    | .commit ws => WriteRows AnyID ws ∧ (kind ≠ .other → TaskWrites kind t ws)
    | .txn body => kind = .other ∧
      ∀ s a ws, Rows AnyID s → body.effect s = .ok (a, ws) → WriteRows AnyID ws
  next t
    | .get k, r, t' => (∀ v, r = some v → RowAt AnyID k v) ∧
      t' = if keyFamily k = lit "task" then some (k, r) else t
    | .iter _ _, _, t' => t' = t
    | .commit _, _, t' => t' = t
    | .txn _, _, t' => t' = t

/-- A program that the monitor accepts from every state of knowledge. -/
def Races {α : Type} (kind : Kind) (p : KV α) : Prop :=
  ∀ t, p.Obeys (raceMonitor kind) (fun _ _ => True) t

section Rules

variable {α β : Type} {kind : Kind}

theorem races_pure (a : α) : Races kind (pure a) := fun _ => trivial

theorem races_fail (e : GoError) : Races kind (.fail e : KV α) := fun _ => trivial

theorem Races.bind {p : KV α} {f : α → KV β} (hp : Races kind p) (hf : ∀ a, Races kind (f a)) :
    Races kind (p >>= f) :=
  fun t => (hp t).bind (fun _ _ _ => trivial) fun a t' _ => hf a t'

theorem Races.attempt_bind {p : KV α} {f : Except GoError α → KV β} (hp : Races kind p)
    (hf : ∀ x, Races kind (f x)) : Races kind (p.attempt >>= f) :=
  fun t => (hp t).attempt_bind fun x t' _ => hf x t'

theorem races_iter (pre : GoString) : Races kind (KV.newPrefixIter pre) :=
  fun _ => ⟨trivial, fun _ _ _ => trivial⟩

/-- What a typed read tells: the row is at its own key, and a task row is remembered. -/
theorem obeys_getJSON {decode : Value → Option α} {k : GoString} (t : LastRead) :
    (getJSON decode k).Obeys (raceMonitor kind) (fun x t' => ∀ r, x = .ok r → ∃ row : Option Value,
      (∀ v, row = some v → RowAt AnyID k v) ∧ row.bind decode = r ∧ (r = none → row = none) ∧
      (keyFamily k = lit "task" → t' = some (k, row))) t := by
  rw [getJSON_eq]
  refine ⟨trivial, ?_⟩
  rintro row t' ⟨hrow, rfl⟩
  cases row with
  | none =>
    intro r hr
    cases hr
    exact ⟨none, hrow, rfl, fun _ => rfl, fun hk => if_pos hk⟩
  | some v =>
    cases hd : decode v with
    | none =>
      simp only [decodeRow, hd]
      intro r hr
      cases hr
    | some a =>
      simp only [decodeRow, hd]
      intro r hr
      cases hr
      exact ⟨some v, hrow, hd, fun h => (by cases h), fun hk => if_pos hk⟩

theorem races_getJSON {decode : Value → Option α} {k : GoString} :
    Races kind (getJSON decode k) :=
  fun t => (obeys_getJSON t).mono fun _ _ _ => trivial

/-- A read of a task row: what is found is remembered, and it is a row of that task. -/
theorem obeys_getTaskRecord {id : GoString} (t : LastRead) :
    (getTaskRecord (tiKVTaskKey id)).Obeys (raceMonitor kind) (fun x t' =>
      ∀ found, x = .ok found → t' = some (tiKVTaskKey id, found.map Value.task) ∧
        ∀ rec, found = some rec → rec.taskID = id) t := by
  refine (obeys_getJSON t).mono ?_
  rintro x t' h found hx
  obtain ⟨row, hrow, hfound, hnone, ht⟩ := h found hx
  rw [ht (keyFamily_task id)]
  cases row with
  | none =>
    cases hfound
    exact ⟨rfl, fun _ h => by cases h⟩
  | some v =>
    obtain ⟨rec, rfl, hid⟩ := rowAt_task (hrow v rfl)
    cases hfound
    refine ⟨rfl, ?_⟩
    intro rec' hrec'
    cases hrec'
    exact hid

/-- A batch that writes no task row. -/
theorem races_commit {ws : List KVWrite} (hrows : WriteRows AnyID ws)
    (hkeys : ∀ w ∈ ws, keyFamily w.key ≠ lit "task") : Races kind (KV.commit ws) :=
  fun _ => KV.obeys_commit (fun _ => trivial)
    ⟨hrows, fun _ w hw hk => absurd hk (hkeys w hw)⟩ (fun _ _ => trivial)

/-- Other operations may write any row. -/
theorem races_commit_other {ws : List KVWrite} (hrows : WriteRows AnyID ws) :
    Races .other (KV.commit ws) :=
  fun _ => KV.obeys_commit (fun _ => trivial) ⟨hrows, fun h => absurd rfl h⟩ (fun _ _ => trivial)

theorem closed_races : Closed fun _ p => Races kind p where
  pure := races_pure
  fail := races_fail
  bind := Races.bind
  attempt := Races.attempt_bind
  getJSON _ _ := races_getJSON
  iter := races_iter

end Rules

/-! ## Enqueues -/

section Enqueues

variable {kind : Kind} {clock now : Time} {id o ty : GoString} {v priority : Int}

theorem indexBatch_family_ne {ws : List KVWrite} (h : IndexBatch ws) {w : KVWrite} (hw : w ∈ ws) :
    keyFamily w.key ≠ lit "task" := by
  rcases h.keys w hw with hk | hk | hk <;> rw [hk] <;> decide

theorem obeys_writeTaskRecord {t : LastRead} {prev : Option TaskRecord} {next : TaskRecord}
    (hrow : kind ≠ .other → ∃ row, t = some (tiKVTaskKey next.taskID, row) ∧ Writable kind row) :
    (writeTaskRecordWithRunnableIndexLocked clock prev next now).Obeys (raceMonitor kind)
      (fun _ _ => True) t := by
  unfold writeTaskRecordWithRunnableIndexLocked
  split
  · trivial
  · obtain ⟨pre, post, hpre, hpost, heq⟩ := taskRecordBatch_around clock prev next now
    rw [heq]
    refine KV.obeys_commit (fun _ => trivial)
      ⟨rows_around hpre hpost (rfl : next.taskID = next.taskID), ?_⟩ (fun _ _ => trivial)
    intro hkind w hw hk
    simp only [List.mem_append, List.mem_singleton] at hw
    rcases hw with (hw | rfl) | hw
    · exact absurd hk (indexBatch_family_ne hpre hw)
    · exact hrow hkind
    · exact absurd hk (indexBatch_family_ne hpost hw)

theorem races_enqueueTieringTask (at' : Time) :
    Races kind (enqueueTieringTask clock now id o v ty priority at') := by
  intro t
  unfold enqueueTieringTask
  split
  · trivial
  · refine (obeys_getTaskRecord t).bind (fun _ _ _ => trivial) ?_
    intro found t' hfound
    cases found with
    | some rec => trivial
    | none => exact obeys_writeTaskRecord fun _ => ⟨none, (hfound none rfl).1, Or.inl rfl⟩

theorem races_enqueueOrRequeue :
    Races .requeue (enqueueOrRequeue clock now id o v ty priority) := by
  intro t
  unfold enqueueOrRequeue
  refine (obeys_getTaskRecord t).bind (fun _ _ _ => trivial) ?_
  intro found t' hfound
  obtain ⟨ht, hid⟩ := hfound found rfl
  cases found with
  | none =>
    exact Obeys.bind (obeys_writeTaskRecord fun _ => ⟨none, ht, Or.inl rfl⟩)
      (fun _ _ _ => trivial) fun _ _ _ => trivial
  | some rec =>
    have hback : ∀ next : TaskRecord, next.taskID = rec.taskID →
        (rec.taskState = .done ∨ rec.taskState = .failed) →
        (writeTaskRecordWithRunnableIndexLocked clock (some rec) next now >>= fun _ =>
          pure true).Obeys (raceMonitor .requeue) (fun _ _ => True) t' := by
      intro next hnext hstate
      refine Obeys.bind (obeys_writeTaskRecord fun _ => ?_) (fun _ _ _ => trivial)
        fun _ _ _ => trivial
      refine ⟨some (.task rec), ?_, Or.inr ⟨rfl, rec, rfl, hstate⟩⟩
      rw [ht, hnext, hid rec rfl]
      rfl
    dsimp only
    split <;> rename_i hstate
    · exact hback _ rfl (Or.inl hstate)
    · exact hback _ rfl (Or.inr hstate)
    · trivial

theorem races_removeTieringDueIndexByVersion :
    Races kind (removeTieringDueIndexByVersion o v) := by
  intro t
  unfold removeTieringDueIndexByVersion removeTieringDueIndexByVersionInBatch
  rw [bind_assoc]
  refine (obeys_getJSON t).bind (fun _ _ _ => trivial) ?_
  intro ref t' href
  have hdue : ∀ r, ref = some r → keyFamily r.dueKey = lit "tdue" := by
    rintro r rfl
    obtain ⟨row, hrow, hr, -, -⟩ := href _ rfl
    obtain ⟨x, rfl, hx⟩ := Option.bind_eq_some_iff.mp hr
    obtain ⟨r', rfl, -, -, -, hkey⟩ := rowAt_tierDueRef (hrow x rfl)
    cases hx
    exact hkey
  refine races_commit (writeRows_deletes fun w hw => dueRemoval_value hw) (fun w hw => ?_) t'
  rcases dueRemoval_families hdue hw with h | h <;> rw [h] <;> decide

theorem races_enqueueMigration {c : TieringCandidate} :
    Races kind (enqueueMigration clock now c) := by
  have hhead : ∀ n : Int, Races kind (markPending now c n) := by
    intro n t
    refine (obeys_getJSON t).bind (fun _ _ _ => trivial) ?_
    intro found t' hfound
    cases found with
    | none => trivial
    | some obj =>
      obtain ⟨row, hrow, hobj, -, -⟩ := hfound _ rfl
      obtain ⟨x, rfl, hx⟩ := Option.bind_eq_some_iff.mp hobj
      obtain ⟨obj', rfl, hid, -⟩ := rowAt_object (hrow x rfl)
      cases hx
      dsimp only
      split
      · trivial
      · have hrow' := writeRows_singleton (P := AnyID)
          (x := .object { obj with state := .migrationPending, updatedAt := now })
          ⟨congrArg tiKVObjectKey hid.symm, trivial⟩
        refine (races_commit hrow' (List.forall_mem_singleton.mpr ?_)).bind
          (fun _ => races_pure n) t'
        exact fun h => absurd ((keyFamily_object c.objectID).symm.trans h) (by decide)
  intro t
  unfold enqueueMigration
  refine (obeys_getTaskRecord t).bind (fun _ _ _ => trivial) ?_
  intro found t' hfound
  cases found with
  | some rec =>
    exact races_removeTieringDueIndexByVersion.bind (fun _ => hhead 0) t'
  | none =>
    refine Obeys.bind (obeys_writeTaskRecord fun _ => ⟨none, (hfound none rfl).1, Or.inl rfl⟩)
      (fun _ _ _ => trivial) fun _ t'' _ => ?_
    exact races_removeTieringDueIndexByVersion.bind (fun _ => hhead 1) t''

end Enqueues

/-! ## Claims and reports -/

section Others

variable {clock now : Time} {id ty : GoString}

theorem races_updateTask {update : TaskRecord → Option TaskRecord} :
    Races .other (updateTask clock now id update) := by
  unfold updateTask
  refine races_getJSON.bind ?_
  intro found
  split
  · exact races_pure _
  · split
    · exact races_pure _
    · exact Races.bind (fun _ => obeys_writeTaskRecord fun h => absurd rfl h) fun _ => races_pure _

/-- The index keys of a waiting task are rebuilt from its row. -/
theorem writeRows_promoted (clock now : Time) (found : Option TaskRecord) : WriteRows AnyID
    (match found with
      | none => []
      | some rec =>
        deleteTaskRunnableIndexInBatch rec ++ putTaskRunnableIndexInBatch clock rec now) := by
  cases found with
  | none => exact indexBatch_nil.rows
  | some rec => exact ((indexBatch_deleteRunnable rec).append (indexBatch_putRunnable _ _ _)).rows

theorem obeys_promoteWaitingLoop {maxPromote : Int} (es : List (GoString × Value)) {touched : Int}
    {ops : List KVWrite} (hops : WriteRows AnyID ops) (t : LastRead) :
    (promoteWaitingLoop clock now maxPromote es touched ops).Obeys (raceMonitor .other)
      (fun x _ => ∀ n ws, x = .ok (n, ws) → WriteRows AnyID ws) t := by
  have hend : ∀ (n : Int) {ws : List KVWrite} (t : LastRead), WriteRows AnyID ws →
      (pure (n, ws) : KV (Int × List KVWrite)).Obeys (raceMonitor .other)
        (fun x _ => ∀ n ws, x = .ok (n, ws) → WriteRows AnyID ws) t := by
    intro n ws t hws n' ws' h
    cases h
    exact hws
  induction es generalizing touched ops t with
  | nil => exact hend _ _ hops
  | cons e rest ih =>
    obtain ⟨waitKey, x⟩ := e
    have hdel := WriteRows.append hops (writeRows_del (P := AnyID) waitKey)
    unfold promoteWaitingLoop
    split
    · split
      · exact hend _ _ hdel
      · exact ih hdel t
    · split
      · exact hend _ _ hops
      · refine Obeys.bind (races_getJSON t) (fun _ _ _ n ws h => by cases h) ?_
        intro found t' _
        have hfound := WriteRows.append hdel (writeRows_promoted clock now found)
        dsimp only
        split
        · exact hend _ _ hfound
        · exact ih hfound t'

theorem races_promoteRounds {adaptiveMax : Int} (rounds : Nat) (limit : Int) :
    Races .other (promoteRounds clock now adaptiveMax rounds limit) := by
  induction rounds generalizing limit with
  | zero => exact races_pure _
  | succ rounds ih =>
    unfold promoteRounds
    refine Races.bind ?_ fun _ => closed_races.ite (races_pure _) (ih _)
    unfold promoteDueWaitingTasksLocked
    refine (races_iter _).bind fun es t => ?_
    refine (obeys_promoteWaitingLoop es indexBatch_nil.rows t).bind (fun _ _ _ => trivial) ?_
    rintro ⟨n, ws⟩ t' hws
    exact (races_commit_other (hws n ws rfl)).bind (fun _ => races_pure _) t'

/-- The claim transaction writes the row of its task back under its own key. -/
theorem claimTxn_rows {s : Store} {raw : GoString} {a : Option TaskRecord} {ws : List KVWrite}
    (hs : Rows AnyID s) (h : (claimTxn raw ty id now).effect s = .ok (a, ws)) :
    WriteRows AnyID ws := by
  have hraw : WriteRows AnyID (if raw ≠ [] then [Write.del raw] else []) := by
    split
    · exact writeRows_del raw
    · exact indexBatch_nil.rows
  cases hget : s.get? (tiKVTaskKey id) with
  | none =>
    rw [claimTxn_effect_absent hget] at h
    cases h
    exact hraw
  | some x =>
    obtain ⟨rec, rfl, hid⟩ := rowAt_task (hs _ _ hget)
    have hnamed : (namedRecord id rec).taskID = id := by
      unfold namedRecord
      split
      · rfl
      · exact hid
    rw [claimTxn_effect_row hget] at h
    split at h
    · cases h
      exact indexBatch_nil.rows
    · cases h
      unfold claimWrites
      refine WriteRows.append (WriteRows.append ?_ hraw) ?_
      · exact writeRows_singleton (congrArg tiKVTaskKey hnamed.symm)
      · exact (indexBatch_del (taskIndexKey_ready _)).append
          (indexBatch_del (taskIndexKey_wait _)) |>.rows

theorem races_tryClaimTaskCAS {raw : GoString} :
    Races .other (tryClaimTaskCAS clock raw ty id now) := by
  unfold tryClaimTaskCAS
  split
  · exact races_pure _
  · have htxn : Races .other (KV.runInTxn (claimTxn raw ty id (orNow now clock))) := by
      intro t
      refine ⟨⟨rfl, fun _ _ _ hs h => claimTxn_rows hs h⟩, ?_⟩
      rintro (e | a) t' -
      · trivial
      · trivial
    refine htxn.attempt_bind fun x => ?_
    split
    · exact races_pure _
    · exact closed_races.ite (races_pure _) (races_fail _)

theorem races_claimReadyLoop (es : List (GoString × Value)) :
    Races .other (claimReadyLoop clock now ty es) := by
  induction es with
  | nil => exact races_pure _
  | cons e rest ih =>
    obtain ⟨readyKey, x⟩ := e
    unfold claimReadyLoop
    split
    · exact (races_commit_other (writeRows_del _)).bind fun _ => ih
    · split
      · exact ih
      · refine races_getJSON.bind fun found => ?_
        split
        · exact (races_commit_other (writeRows_del _)).bind fun _ => ih
        · rename_i rec
          split
          · refine Races.bind (races_commit_other ?_) fun _ => ih
            exact (((indexBatch_deleteRunnable rec).append (indexBatch_deleteTerminal rec)).append
              (indexBatch_putRunnable clock rec now)).append (indexBatch_putTerminal rec) |>.rows
          · refine races_tryClaimTaskCAS.bind fun claimed => ?_
            split
            · exact races_pure _
            · exact ih

theorem races_claimNextTieringTask {cfg : Config} :
    Races .other (claimNextTieringTask cfg clock now ty) :=
  (races_promoteRounds _ _).bind fun _ => (races_iter _).bind fun es => races_claimReadyLoop es

end Others

/-! ## Runs -/

/-- The operations of the replicas. -/
inductive Begins : Kind → KV Unit → Prop where
  | enqueue (clock now : Time) (id o : GoString) (v : Int) (ty : GoString) (priority : Int)
      (at' : Time) : Begins .insert (enqueueTieringTask clock now id o v ty priority at')
  | tieringScan (cfg : Config) (clock now : Time) (age maxObjects maxBytes : Int) (budget : Bool) :
      Begins .insert (do
        let _ ← enqueueTieringCandidates cfg clock now age maxObjects maxBytes budget
        pure ())
  | repair (clock now : Time) (id o : GoString) (v : Int) :
      Begins .requeue (do let _ ← enqueueRepairTask clock now id o v; pure ())
  | oldVersionGC (clock now : Time) (id o : GoString) (v : Int) :
      Begins .requeue (do let _ ← enqueueOrRequeueOldVersionGCTask clock now id o v; pure ())
  | repairScan (order : UpdateOrder) (cfg : Config) (clock : Time) (clocks : Nat → Time)
      (maxObjects : Int) : Begins .requeue (do
        let _ ← enqueueRepairCandidates order cfg clock clocks maxObjects
        pure ())
  | historyScan (clock now : Time) (keepLatest minAgeSec maxTasks : Int) :
      Begins .requeue (do
        let _ ← enqueueOldVersionGCCandidates clock now keepLatest minAgeSec maxTasks
        pure ())
  | claim (cfg : Config) (clock now : Time) (ty : GoString) :
      Begins .other (do let _ ← claimNextTieringTask cfg clock now ty; pure ())
  | done (clock now : Time) (id : GoString) : Begins .other (markTieringTaskDone clock now id)
  | retry (clock now : Time) (id lastErr : GoString) (nextRunAt : Time) :
      Begins .other (markTieringTaskRetry clock now id lastErr nextRunAt)
  | failed (clock now : Time) (id lastErr : GoString) :
      Begins .other (markTieringTaskFailed clock now id lastErr)

theorem Begins.races {kind : Kind} {p : KV Unit} (h : Begins kind p) : Races kind p := by
  cases h with
  | enqueue => exact races_enqueueTieringTask _
  | tieringScan =>
    exact Races.bind (closed_races.enqueueTieringCandidates
      (closed_races.tieringCandidate fun _ _ => races_removeTieringDueIndexByVersion)
      fun _ => races_enqueueMigration) fun _ => races_pure _
  | repair => exact races_enqueueOrRequeue.bind fun _ => races_pure _
  | oldVersionGC => exact races_enqueueOrRequeue.bind fun _ => races_pure _
  | repairScan =>
    exact Races.bind (closed_races.enqueueRepairCandidates fun _ _ _ _ => races_enqueueOrRequeue)
      fun _ => races_pure _
  | historyScan =>
    exact Races.bind (closed_races.enqueueOldVersionGCCandidates
      fun _ _ _ => races_enqueueOrRequeue) fun _ => races_pure _
  | claim => exact races_claimNextTieringTask.bind fun _ => races_pure _
  | done => exact races_updateTask.bind fun _ => races_pure _
  | retry => exact races_updateTask.bind fun _ => races_pure _
  | failed => exact races_updateTask.bind fun _ => races_pure _

/-- The store, and what each process read last of the task rows. -/
structure Ledger where
  store : Store
  lastRead : Nat → LastRead

def Ledger.start (rows : Store) : Ledger := ⟨rows, fun _ => none⟩

def Ledger.note (l : Ledger) (i : Nat) : KVOp → Nat → LastRead
  | .get k =>
    if keyFamily k = lit "task" then Function.update l.lastRead i (some (k, l.store.get? k))
    else l.lastRead
  | _ => l.lastRead

def raceHandler (i : Nat) (_ : Role) (op : KVOp) (l : Ledger) : KVRes op × Ledger :=
  ((kvHandler op l.store).1, ⟨(kvHandler op l.store).2, l.note i op⟩)

abbrev Replicas := Pool KVOp KVRes GoError Unit Role Ledger

def begins (_ : Nat) (role : Role) (p : KV Unit) (l l' : Ledger) : Prop :=
  Begins role.kind p ∧ l' = l

abbrev answers (i : Nat) (role : Role) (op : KVOp) : Ledger → KVRes op → Ledger → Prop :=
  Answers (raceHandler i role) op

/-- The task rows that the step writes are as the process read them. -/
def Fresh (i : Nat) (op : KVOp) (l : Ledger) : Prop :=
  match op with
  | .commit ws => ∀ w ∈ ws, keyFamily w.key = lit "task" →
      l.lastRead i = some (w.key, l.store.get? w.key)
  | _ => True

theorem race_discipline : Pool.Discipline begins answers (fun role => raceMonitor role.kind)
    (fun _ _ _ => True) (fun l => Rows AnyID l.store) (fun i _ t l => l.lastRead i = t) where
  onCall := by
    rintro i role t op l res l' hl rfl hallow hstep
    cases hstep
    cases op with
    | get k =>
      have hrow : ∀ v, l.store.get? k = some v → RowAt AnyID k v := fun v hv => hl k v hv
      by_cases hk : keyFamily k = lit "task"
      · refine ⟨hl, some (k, l.store.get? k), ⟨hrow, (if_pos hk).symm⟩, ?_⟩
        simp only [Ledger.note, if_pos hk, Function.update_self]
      · refine ⟨hl, l.lastRead i, ⟨hrow, (if_neg hk).symm⟩, ?_⟩
        simp only [Ledger.note, if_neg hk]
    | iter lower upper => exact ⟨hl, _, rfl, rfl⟩
    | commit ws => exact ⟨hl.applyAll hallow.1, _, rfl, rfl⟩
    | txn body =>
      refine ⟨?_, _, rfl, rfl⟩
      dsimp only [kvHandler]
      split
      · rename_i a ws heff
        exact hl.applyAll (hallow.2 _ _ _ hl heff)
      · exact hl
  onOtherCall := by
    rintro i role t op l res l' j role' t' hl - hallow hstep hj rfl
    cases hstep
    cases op with
    | get k =>
      simp only [Ledger.note]
      split
      · exact Function.update_of_ne hj _ _
      · rfl
    | iter lower upper => rfl
    | commit ws => rfl
    | txn body => rfl
  onStart := by
    rintro i role p l l' hl ⟨hb, rfl⟩
    exact ⟨hl, _, hb.races _, rfl⟩
  onOtherStart := by
    rintro i role p l l' j role' t' hl ⟨-, rfl⟩ - h
    exact h

/-! ## Results -/

/-- A fresh batch of an enqueue leaves a stored row alone, unless it may write over it. -/
theorem fresh_commit_keeps {kind : Kind} {i : Nat} {l : Ledger} {ws : List KVWrite}
    (hws : TaskWrites kind (l.lastRead i) ws) (hfresh : Fresh i (.commit ws) l) {id : GoString}
    {row : Value} (hrow : l.store.get? (tiKVTaskKey id) = some row) :
    (l.store.applyAll ws).get? (tiKVTaskKey id) = some row ∨ Writable kind (some row) := by
  by_cases hmem : ∃ w ∈ ws, w.key = tiKVTaskKey id
  · obtain ⟨w, hw, hkey⟩ := hmem
    have hfam : keyFamily w.key = lit "task" := by rw [hkey, keyFamily_task]
    obtain ⟨row', hread, hwritable⟩ := hws w hw hfam
    have hsame := hread.symm.trans (hfresh w hw hfam)
    rw [hkey, hrow] at hsame
    cases hsame
    exact Or.inr hwritable
  · refine Or.inl ((SortedMap.get?_applyAll_of_untouched ?_).trans hrow)
    exact fun w hw hkey => hmem ⟨w, hw, hkey⟩

/-- In every run of the replicas, a step of an enqueue whose row is still the one that it read
leaves every stored row unchanged, except that the enqueues of repairs and old versions may change
a row that is DONE or FAILED at that moment. A RUNNING row is never changed. -/
theorem fresh_enqueue_keeps_rows {rows : Store} (hrows : Rows AnyID rows) {c : Replicas}
    (hrun : Pool.Reaches begins answers (Pool.idle (Ledger.start rows)) c) {i : Nat} {role : Role}
    {op : KVOp} {k : KVRes op → KV Unit} (hnext : c.procs i = some (role, .call op k))
    {res : KVRes op} {l' : Ledger} (hstep : answers i role op c.state res l')
    (hfresh : Fresh i op c.state) {id : GoString} {row : Value}
    (hrow : c.state.store.get? (tiKVTaskKey id) = some row) :
    (role.kind = .insert → l'.store.get? (tiKVTaskKey id) = some row) ∧
    (role.kind = .requeue → l'.store.get? (tiKVTaskKey id) = some row ∨
      ∃ rec, row = .task rec ∧ (rec.taskState = .done ∨ rec.taskState = .failed)) ∧
    (role.kind ≠ .other → ∀ rec, row = .task rec → rec.taskState = .running →
      l'.store.get? (tiKVTaskKey id) = some row) := by
  have hkept : role.kind ≠ .other →
      l'.store.get? (tiKVTaskKey id) = some row ∨ Writable role.kind (some row) := by
    intro hkind
    obtain ⟨-, hprocs⟩ := race_discipline.reaches (Pool.Discipline.governed_idle hrows) hrun
    obtain ⟨t, ⟨hallow, -⟩, ht⟩ := hprocs i role _ hnext
    cases hstep
    cases op with
    | get key => exact Or.inl hrow
    | iter lower upper => exact Or.inl hrow
    | commit ws =>
      rw [← ht] at hallow
      exact fresh_commit_keeps (hallow.2 hkind) hfresh hrow
    | txn body => exact absurd hallow.1 hkind
  refine ⟨?_, ?_, ?_⟩
  · intro hkind
    rcases hkept (by rw [hkind]; decide) with h | h | ⟨h, -⟩
    · exact h
    · cases h
    · rw [hkind] at h
      cases h
  · intro hkind
    rcases hkept (by rw [hkind]; decide) with h | h | ⟨-, rec, hrec, hstate⟩
    · exact Or.inl h
    · cases h
    · exact Or.inr ⟨rec, Option.some.inj hrec, hstate⟩
  · rintro hkind rec rfl hrunning
    rcases hkept hkind with h | h | ⟨-, rec', hrec', hstate⟩
    · exact h
    · cases h
    · cases hrec'
      rw [hrunning] at hstate
      rcases hstate with hstate | hstate <;> cases hstate

/-! ## Two replicas and one task -/

section Runs

/-- The program has not ended. -/
def unfinished : KV Unit → Bool
  | .call _ _ => true
  | _ => false

/-- The mutex of a replica: at most one of its operations is under way. -/
def Locked (c : Replicas) : Prop :=
  ∀ i j role role' p p', c.procs i = some (role, p) → c.procs j = some (role', p') →
    unfinished p = true → unfinished p' = true → role.replica = role'.replica → i = j

/-- A step that respects the mutexes. -/
def LockedStep (c c' : Replicas) : Prop := Pool.Step begins answers c c' ∧ Locked c'

abbrev LockedReaches : Replicas → Replicas → Prop := Relation.ReflTransGen LockedStep

theorem locked_spawn {c : Replicas} (h : Locked c) {i : Nat} {role : Role} {p : KV Unit}
    (hfree : ∀ j role' p', c.procs j = some (role', p') → role'.replica = role.replica →
      unfinished p' = false) : Locked (c.spawn i role p) := by
  intro j j' r r' q q' hj hj' hq hq' hreplica
  have hother : ∀ {j r q}, (c.spawn i role p).procs j = some (r, q) → j ≠ i →
      c.procs j = some (r, q) := fun hj hne => (Function.update_of_ne hne _ _).symm.trans hj
  have hself : ∀ {r q}, (c.spawn i role p).procs i = some (r, q) → r = role := by
    intro r q hi
    cases (Function.update_self i _ c.procs).symm.trans hi
    rfl
  by_cases hji : j = i
  · by_cases hji' : j' = i
    · rw [hji, hji']
    · subst hji
      rw [hfree j' r' q' (hother hj' hji') (hreplica.symm.trans (by rw [hself hj]))] at hq'
      cases hq'
  · by_cases hji' : j' = i
    · subst hji'
      rw [hfree j r q (hother hj hji) (hreplica.trans (by rw [hself hj']))] at hq
      cases hq
    · exact h j j' r r' q q' (hother hj hji) (hother hj' hji') hq hq' hreplica

theorem locked_advance {c : Replicas} (h : Locked c) (i : Nat) :
    Locked (c.advance raceHandler i) := by
  unfold Pool.advance
  split
  · rename_i role op k hi
    -- the process that moved was under way before
    have hbefore : ∀ {j r q}, Function.update c.procs i
        (some (role, k (raceHandler i role op c.state).1)) j = some (r, q) → unfinished q = true →
        ∃ q', c.procs j = some (r, q') ∧ unfinished q' = true := by
      intro j r q hj hq
      by_cases hji : j = i
      · subst hji
        rw [Function.update_self] at hj
        cases hj
        exact ⟨_, hi, rfl⟩
      · rw [Function.update_of_ne hji] at hj
        exact ⟨q, hj, hq⟩
    intro j j' r r' q q' hj hj' hq hq' hreplica
    obtain ⟨p, hp, hpu⟩ := hbefore hj hq
    obtain ⟨p', hp', hpu'⟩ := hbefore hj' hq'
    exact h j j' r r' p p' hp hp' hpu hpu' hreplica
  · exact h

theorem lockedReaches_spawn {c₀ c : Replicas} (hc : LockedReaches c₀ c) (h : Locked c) (i : Nat)
    (role : Role) {p : KV Unit} (hslot : c.procs i = none) (hp : Begins role.kind p)
    (hfree : ∀ j role' p', c.procs j = some (role', p') → role'.replica = role.replica →
      unfinished p' = false) :
    LockedReaches c₀ (c.spawn i role p) ∧ Locked (c.spawn i role p) :=
  ⟨hc.tail ⟨.start hslot ⟨hp, rfl⟩, locked_spawn h hfree⟩, locked_spawn h hfree⟩

theorem lockedReaches_advanceAll {c₀ c : Replicas} (hc : LockedReaches c₀ c) (h : Locked c)
    (schedule : List Nat) : LockedReaches c₀ (c.advanceAll raceHandler schedule) ∧
      Locked (c.advanceAll raceHandler schedule) := by
  induction schedule generalizing c with
  | nil => exact ⟨hc, h⟩
  | cons i schedule ih =>
    refine ih ?_ (locked_advance h i)
    have hlocked := locked_advance h i
    revert hlocked
    unfold Pool.advance
    split
    · rename_i role op k hi
      exact fun hlocked => hc.tail ⟨.call hi rfl, hlocked⟩
    · exact fun _ => hc

/-- Replica 2 has looked task `t` up, and replica 1 has enqueued it. -/
def enqueuedRun : Replicas :=
  (((Pool.idle (Ledger.start SortedMap.empty)).spawn 1 ⟨2, .insert⟩
    (enqueueTieringTask 6 6 (lit "t") (lit "a") 7 (lit "REPL_TO_EC") 100 6)).spawn 0 ⟨1, .insert⟩
    (enqueueTieringTask 5 5 (lit "t") (lit "a") 7 (lit "REPL_TO_EC") 100 5)).advanceAll raceHandler
      [1, 0, 0]

/-- A worker claims the task through replica 1. -/
def claimedRun : Replicas :=
  (enqueuedRun.spawn 2 ⟨1, .other⟩
    (do let _ ← claimNextTieringTask {} 8 8 []; pure ())).advanceAll raceHandler [2, 2, 2, 2]

/-- Replica 2 writes the row that it found missing. -/
def resetRun : Replicas := claimedRun.advanceAll raceHandler [1]

/-- The state of a task row. -/
def stateOf (c : Replicas) (id : GoString) : Option TaskState :=
  (taskRow c.state.store id).map (·.taskState)

/-- Under the mutexes of both replicas, an enqueue puts a RUNNING task back to PENDING. -/
theorem enqueue_resets_running :
    LockedReaches (Pool.idle (Ledger.start SortedMap.empty)) resetRun ∧
    claimedRun.advance raceHandler 1 = resetRun ∧
    (claimedRun.procs 1).map (·.1.kind) = some .insert ∧
    stateOf claimedRun (lit "t") = some .running ∧ stateOf resetRun (lit "t") = some .pending := by
  refine ⟨?_, rfl, by decide +kernel, by decide +kernel, by decide +kernel⟩
  have hidle : Locked (Pool.idle (Ledger.start SortedMap.empty)) := by
    intro i j role role' p p' hi
    cases hi
  have hslot : ∀ j, j ≠ 0 → j ≠ 1 → enqueuedRun.procs j = none := by
    intro j h0 h1
    refine (Pool.procs_advanceAll_of_notMem (by simp [h0, h1])).trans ?_
    exact (Function.update_of_ne h0 _ _).trans (Function.update_of_ne h1 _ _)
  obtain ⟨hr₁, hl₁⟩ := lockedReaches_spawn .refl hidle 1 ⟨2, .insert⟩ rfl
    (.enqueue 6 6 (lit "t") (lit "a") 7 (lit "REPL_TO_EC") 100 6) (fun j role' p' hj => by cases hj)
  obtain ⟨hr₂, hl₂⟩ := lockedReaches_spawn hr₁ hl₁ 0 ⟨1, .insert⟩ rfl
    (.enqueue 5 5 (lit "t") (lit "a") 7 (lit "REPL_TO_EC") 100 5) (by
      intro j role' p' hj hreplica
      by_cases h1 : j = 1
      · subst h1
        cases hj
        cases hreplica
      · cases (Function.update_of_ne h1 _ _).symm.trans hj)
  obtain ⟨hr₃, hl₃⟩ := lockedReaches_advanceAll hr₂ hl₂ [1, 0, 0]
  -- the enqueue of replica 1 has ended when its claim begins
  obtain ⟨hr₄, hl₄⟩ := lockedReaches_spawn hr₃ hl₃ 2 ⟨1, .other⟩ (hslot 2 (by decide) (by decide))
    (.claim {} 8 8 []) (by
      intro j role' p' hj hreplica
      by_cases h0 : j = 0
      · subst h0
        have hdone : (enqueuedRun.procs 0).map (fun q => unfinished q.2) = some false := by
          decide +kernel
        have hj' : enqueuedRun.procs 0 = some (role', p') := hj
        rw [hj'] at hdone
        exact Option.some.inj hdone
      · by_cases h1 : j = 1
        · subst h1
          have htwo : (enqueuedRun.procs 1).map (·.1.replica) = some 2 := by decide +kernel
          have hj' : enqueuedRun.procs 1 = some (role', p') := hj
          rw [hj', Option.map_some, hreplica] at htwo
          cases htwo
        · cases (hslot j h0 h1).symm.trans hj)
  obtain ⟨hr₅, hl₅⟩ := lockedReaches_advanceAll hr₄ hl₄ [2, 2, 2, 2]
  exact (lockedReaches_advanceAll hr₅ hl₅ [1]).1

/-- Replica 2 has looked another task up. -/
def otherTaskRun : Replicas :=
  (((Pool.idle (Ledger.start SortedMap.empty)).spawn 1 ⟨2, .insert⟩
    (enqueueTieringTask 6 6 (lit "u") (lit "a") 8 (lit "REPL_TO_EC") 100 6)).spawn 0 ⟨1, .insert⟩
    (enqueueTieringTask 5 5 (lit "t") (lit "a") 7 (lit "REPL_TO_EC") 100 5)).advanceAll raceHandler
      [1, 0, 0]

/-- The batch of a program that is about to commit. -/
def nextCommit : KV Unit → Option (List KVWrite)
  | .call (.commit ws) _ => some ws
  | _ => none

theorem nextCommit_eq_some {p : KV Unit} {ws : List KVWrite} (h : nextCommit p = some ws) :
    ∃ k, p = .call (.commit ws) k := by
  unfold nextCommit at h
  split at h
  · cases h
    exact ⟨_, rfl⟩
  · cases h

/-- The batch that replica 2 is about to commit. -/
def otherTaskBatch : List KVWrite :=
  taskRecordBatch 6 none (newTask (lit "u") (lit "a") 8 (lit "REPL_TO_EC") 100 6) 6

/-- The fresh enqueue of another task keeps the row of `t`. -/
theorem fresh_enqueue_keeps_row_t : ∃ row,
    otherTaskRun.state.store.get? (tiKVTaskKey (lit "t")) = some row ∧
    (otherTaskRun.state.store.applyAll otherTaskBatch).get? (tiKVTaskKey (lit "t")) = some row := by
  have hrun : Pool.Reaches begins answers (Pool.idle (Ledger.start SortedMap.empty))
      otherTaskRun := by
    refine Pool.Reaches.advanceAll (fun _ _ _ _ => rfl) ?_ _
    refine Pool.Reaches.spawn (Pool.Reaches.spawn .refl rfl ⟨?_, rfl⟩) rfl ⟨?_, rfl⟩
    · exact .enqueue 6 6 (lit "u") (lit "a") 8 (lit "REPL_TO_EC") 100 6
    · exact .enqueue 5 5 (lit "t") (lit "a") 7 (lit "REPL_TO_EC") 100 5
  have hbatch : (otherTaskRun.procs 1).bind (fun q => nextCommit q.2) = some otherTaskBatch := by
    decide +kernel
  have hrole : (otherTaskRun.procs 1).map (·.1) = some ⟨2, .insert⟩ := by decide +kernel
  obtain ⟨⟨role, p⟩, hproc, hcommit⟩ := Option.bind_eq_some_iff.mp hbatch
  obtain ⟨k, hk⟩ := nextCommit_eq_some hcommit
  dsimp only at hk
  rw [hk] at hproc
  rw [hproc] at hrole
  cases hrole
  have hrow : otherTaskRun.state.store.get? (tiKVTaskKey (lit "t")) =
      some (.task (newTask (lit "t") (lit "a") 7 (lit "REPL_TO_EC") 100 5)) := by decide +kernel
  have hfresh : Fresh 1 (.commit otherTaskBatch) otherTaskRun.state := by
    unfold Fresh
    decide +kernel
  exact ⟨_, hrow, (fresh_enqueue_keeps_rows rows_empty hrun hproc rfl hfresh hrow).1 rfl⟩

end Runs

end TieredStore.Meta.EnqueueRaces
