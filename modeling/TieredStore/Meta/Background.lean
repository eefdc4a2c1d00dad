import TieredStore.Meta.Specs
import TieredStore.Meta.Closed

/-!
# Scans and task operations

The scans of the policy scanner and the operations on tasks write indexes. The only row of an
object that one of them writes is a head in HOT_ACTIVE which it has just read, and which it
moves to MIGRATION_PENDING. `backgroundMonitor` says this of the key-value steps of a program,
whatever the steps are answered; it knows the head that was read last.

The lemmas follow the programs. They serve both an interleaved execution, where the head may
have changed since it was read, and an execution that nothing interrupts.
-/

namespace TieredStore.Meta

open Lib Lib.Prog

/-- The answer of a scan: rows at their own keys, between the bounds. -/
def ScanRows (P : GoString → Prop) (lower upper : GoString) (es : List (GoString × Value)) : Prop :=
  ∀ e ∈ es, RowAt P e.1 e.2 ∧ ¬ e.1 < lower ∧ (upper = [] ∨ e.1 < upper)

/-- The write that moves a head to MIGRATION_PENDING. -/
def pendingWrite (obj : ObjectRecord) (now : Time) : KVWrite :=
  Write.set (tiKVObjectKey obj.objectID)
    (.object { obj with state := .migrationPending, updatedAt := now })

def backgroundMonitor (P : GoString → Prop) : Monitor KVOp KVRes (Option ObjectRecord) where
  allow t
    | .get _ => True
    | .iter _ _ => True
    | .commit ws => IndexWrites P ws ∨ ∃ obj now, t = some obj ∧ obj.state = .hotActive ∧
        P obj.objectID ∧ ws = [pendingWrite obj now]
    | .txn _ => False
  next t
    | .get k, r, t' => (∀ v, r = some v → RowAt P k v) ∧
      t' = if keyFamily k = lit "obj" then r.bind Value.asObject else t
    | .iter lower upper, r, t' => ScanRows P lower upper r ∧ t' = t
    | .commit _, _, t' => t' = none
    | .txn _, _, _ => True

/-- A program that only does what a scan may do. -/
def Background {α : Type} (P : GoString → Prop) (p : KV α) : Prop :=
  ∀ t, p.Obeys (backgroundMonitor P) (fun _ _ => True) t

section Rules

variable {α β : Type} {P : GoString → Prop}

theorem Background.bind {p : KV α} {f : α → KV β} (hp : Background P p)
    (hf : ∀ a, Background P (f a)) : Background P (p >>= f) :=
  fun t => (hp t).bind (fun _ _ _ => trivial) fun a t' _ => hf a t'

theorem Background.attempt_bind {p : KV α} {f : Except GoError α → KV β} (hp : Background P p)
    (hf : ∀ x, Background P (f x)) : Background P (p.attempt >>= f) :=
  fun t => (hp t).attempt_bind fun x t' _ => hf x t'

theorem background_pure (a : α) : Background P (pure a) := fun _ => trivial

theorem background_fail (e : GoError) : Background P (.fail e : KV α) := fun _ => trivial

/-- What a scan tells: every row is at its own key, under the prefix. -/
theorem obeys_background_iter (pre : GoString) (t : Option ObjectRecord) :
    (KV.newPrefixIter pre).Obeys (backgroundMonitor P)
      (fun x _ => ∀ es, x = .ok es → ∀ e ∈ es, RowAt P e.1 e.2 ∧ pre <+: e.1) t := by
  refine ⟨trivial, ?_⟩
  rintro es t' ⟨hscan, -⟩ es' hes e he
  cases hes
  exact ⟨(hscan e he).1, (between_bounds_iff pre e.1).mp (hscan e he).2⟩

theorem background_iter (pre : GoString) : Background P (KV.newPrefixIter pre) :=
  fun t => (obeys_background_iter pre t).mono fun _ _ _ => trivial

theorem background_commit {ws : List KVWrite} (h : IndexWrites P ws) : Background P (KV.commit ws) :=
  fun _ => KV.obeys_commit (fun _ => trivial) (Or.inl h) (fun _ _ => trivial)

/-- What a typed read tells: the row is at its own key, and a head is remembered. -/
theorem obeys_background_getJSON {decode : Value → Option α} {k : GoString}
    (t : Option ObjectRecord) :
    (getJSON decode k).Obeys (backgroundMonitor P) (fun x t' => ∀ r, x = .ok (some r) →
      ∃ v, RowAt P k v ∧ decode v = some r ∧ (keyFamily k = lit "obj" → t' = v.asObject)) t := by
  rw [getJSON_eq]
  refine ⟨trivial, ?_⟩
  rintro res t' ⟨hrow, rfl⟩
  cases res with
  | none =>
    intro r hr
    cases hr
  | some v =>
    cases hd : decode v with
    | none =>
      simp only [decodeRow, hd, obeys_fail]
      intro r hr
      cases hr
    | some a =>
      simp only [decodeRow, hd, obeys_pure]
      intro r hr
      cases hr
      exact ⟨v, hrow v rfl, hd, fun hk => by simp [hk]⟩

theorem background_getJSON {decode : Value → Option α} {k : GoString} :
    Background P (getJSON decode k) :=
  fun t => (obeys_background_getJSON t).mono fun _ _ _ => trivial

theorem closed_background : Closed fun _ p => Background P p where
  pure := background_pure
  fail := background_fail
  bind := Background.bind
  attempt := Background.attempt_bind
  getJSON _ _ := background_getJSON
  iter := background_iter

end Rules

/-! ## Task rows -/

section Tasks

variable {P : GoString → Prop}

theorem indexWrites_deleteRunnable (rec : TaskRecord) :
    IndexWrites P (deleteTaskRunnableIndexInBatch rec) := by
  unfold deleteTaskRunnableIndexInBatch
  split
  · exact indexWrites_nil
  · exact (indexWrites_del (indexKey_of_family (keyFamily_taskReady _ _ _ _) (by decide))).append
      (indexWrites_del (indexKey_of_family (keyFamily_taskWait _ _ _) (by decide)))

theorem indexWrites_deleteTerminal (rec : TaskRecord) :
    IndexWrites P (deleteTaskTerminalIndexInBatch rec) := by
  unfold deleteTaskTerminalIndexInBatch
  split
  · exact indexWrites_nil
  · rename_i hkey
    unfold taskTerminalIndexKey at hkey ⊢
    cases hf : rec.finishedAt with
    | none => simp [hf] at hkey
    | some at' =>
      exact indexWrites_del (indexKey_of_family (keyFamily_taskTerminal _ _) (by decide))

theorem indexWrites_putRunnable (clock : Time) (rec : TaskRecord) (now : Time) :
    IndexWrites P (putTaskRunnableIndexInBatch clock rec now) := by
  have hready := keyFamily_taskReady rec.taskType rec.priority rec.scheduledAt rec.taskID
  have hwait := keyFamily_taskWait rec.taskType rec.scheduledAt rec.taskID
  unfold putTaskRunnableIndexInBatch
  split
  · exact indexWrites_nil
  · split
    · exact indexWrites_set (indexKey_of_family hwait (by decide)) (Or.inr (Or.inl hwait))
    · exact indexWrites_set (indexKey_of_family hready (by decide)) (Or.inl hready)

theorem indexWrites_putTerminal (rec : TaskRecord) :
    IndexWrites P (putTaskTerminalIndexInBatch rec) := by
  unfold putTaskTerminalIndexInBatch taskTerminalIndexKey
  cases rec.finishedAt with
  | none =>
    rw [if_pos (Or.inr (Or.inr rfl))]
    exact indexWrites_nil
  | some at' =>
    have hkey := keyFamily_taskTerminal at' rec.taskID
    split
    · exact indexWrites_nil
    · exact indexWrites_set (indexKey_of_family hkey (by decide)) (Or.inr (Or.inr hkey))

theorem indexWrites_taskRecordBatch (clock : Time) (prev : Option TaskRecord) (next : TaskRecord)
    (now : Time) : IndexWrites P (taskRecordBatch clock prev next now) := by
  unfold taskRecordBatch
  refine ((IndexWrites.append ?_ ?_).append (indexWrites_putRunnable _ _ _)).append
    (indexWrites_putTerminal _)
  · cases prev with
    | none => exact indexWrites_nil
    | some prev => exact (indexWrites_deleteRunnable prev).append (indexWrites_deleteTerminal prev)
  · exact indexWrites_set (indexKey_of_family (keyFamily_task _) (by decide)) rfl

theorem background_writeTaskRecord {clock now : Time} {prev : Option TaskRecord}
    {next : TaskRecord} :
    Background P (writeTaskRecordWithRunnableIndexLocked clock prev next now) := by
  unfold writeTaskRecordWithRunnableIndexLocked
  split
  · exact background_pure _
  · exact background_commit (indexWrites_taskRecordBatch _ _ _ _)

theorem background_enqueueTieringTask {clock now : Time} {id o : GoString} {v : Int}
    {ty : GoString} {priority : Int} {at' : Time} :
    Background P (enqueueTieringTask clock now id o v ty priority at') := by
  unfold enqueueTieringTask
  split
  · exact background_fail _
  · refine background_getJSON.bind ?_
    intro found
    split
    · exact background_pure _
    · exact background_writeTaskRecord

theorem background_enqueueOrRequeue {clock now : Time} {id o : GoString} {v : Int} {ty : GoString}
    {priority : Int} : Background P (enqueueOrRequeue clock now id o v ty priority) := by
  unfold enqueueOrRequeue
  refine background_getJSON.bind ?_
  intro found
  split
  · exact background_writeTaskRecord.bind fun _ => background_pure _
  · split
    · exact background_writeTaskRecord.bind fun _ => background_pure _
    · exact background_writeTaskRecord.bind fun _ => background_pure _
    · exact background_pure _

theorem indexWrites_purgeStep (clock now : Time) (cutoff : Int) {key : GoString} (id : GoString)
    (rec : TaskRecord) (hkey : IndexKey key) :
    IndexWrites P (purgeStep clock now cutoff key id rec).1 := by
  have hdels : IndexWrites P ([Write.del key] ++ deleteTaskRunnableIndexInBatch rec ++
      deleteTaskTerminalIndexInBatch rec) :=
    ((indexWrites_del hkey).append (indexWrites_deleteRunnable rec)).append
      (indexWrites_deleteTerminal rec)
  unfold purgeStep
  split
  · exact (hdels.append (indexWrites_putRunnable _ _ _)).append (indexWrites_putTerminal _)
  · split
    · exact (indexWrites_del hkey).append (indexWrites_putTerminal _)
    · exact hdels.append (indexWrites_del (indexKey_of_family (keyFamily_task _) (by decide)))

/-- The batch of a purge touches indexes only, since its keys come from the terminal index. -/
theorem obeys_purgeLoop {clock now : Time} {cutoff limit : Int} {es : List (GoString × Value)}
    (hes : ∀ e ∈ es, IndexKey e.1) {purged : Int} {ops : List KVWrite} (hops : IndexWrites P ops)
    (t : Option ObjectRecord) : (purgeLoop clock now cutoff limit es purged ops).Obeys
      (backgroundMonitor P) (fun x _ => ∀ n ws, x = .ok (n, ws) → IndexWrites P ws) t := by
  have hend : ∀ (n : Int) (ws : List KVWrite) (t : Option ObjectRecord), IndexWrites P ws →
      (pure (n, ws) : KV (Int × List KVWrite)).Obeys (backgroundMonitor P)
        (fun x _ => ∀ n ws, x = .ok (n, ws) → IndexWrites P ws) t := by
    intro n ws t hws n' ws' h
    cases h
    exact hws
  induction es generalizing purged ops t with
  | nil => exact hend _ _ _ hops
  | cons e rest ih =>
    obtain ⟨key, x⟩ := e
    have hkey : IndexKey key := hes _ List.mem_cons_self
    have hrest : ∀ e ∈ rest, IndexKey e.1 := fun e he => hes e (List.mem_cons_of_mem _ he)
    unfold purgeLoop
    split
    · exact ih hrest (hops.append (indexWrites_del hkey)) t
    · rename_i id _
      split
      · exact hend _ _ _ hops
      · refine Obeys.bind (background_getJSON t) (fun _ _ _ n ws h => by cases h) ?_
        intro found t' _
        split
        · exact ih hrest (hops.append (indexWrites_del hkey)) t'
        · rename_i rec
          have hstep := hops.append (indexWrites_purgeStep (P := P) clock now cutoff id rec hkey)
          dsimp only
          split
          · split
            · exact hend _ _ _ hstep
            · exact ih hrest hstep t'
          · exact ih hrest hstep t'

theorem background_purgeTerminalTieringTasks {clock now olderThan : Time} {limit : Int} :
    Background P (purgeTerminalTieringTasks clock now olderThan limit) := by
  intro t
  unfold purgeTerminalTieringTasks
  split
  · trivial
  · refine (obeys_background_iter _ t).bind (fun _ _ _ => trivial) ?_
    intro es t' hscan
    have hes : ∀ e ∈ es, IndexKey e.1 := by
      intro e he
      have hfam : keyFamily e.1 = lit "task_terminal" :=
        keyFamily_eq (by decide) (hscan es rfl e he).2
      exact indexKey_of_family hfam (by decide)
    refine (obeys_purgeLoop hes indexWrites_nil t').bind (fun _ _ _ => trivial) ?_
    rintro ⟨n, ws⟩ t'' hws
    exact (background_commit (hws n ws rfl)).bind (fun _ => background_pure _) t''

end Tasks

/-! ## The due index -/

section Due

variable {P : GoString → Prop}

theorem obeys_dueRef {o : GoString} {v : Int} (t : Option ObjectRecord) :
    (getJSON Value.asTierDueRef (tiKVTierDueRefKey o v)).Obeys (backgroundMonitor P)
      (fun x _ => ∀ ref r, x = .ok ref → ref = some r → keyFamily r.dueKey = lit "tdue") t := by
  refine (obeys_background_getJSON t).mono ?_
  rintro x t' h ref r hx rfl
  obtain ⟨v, hrow, hv, -⟩ := h r hx
  rw [Value.asTierDueRef_eq_some] at hv
  subst hv
  obtain ⟨r', hr', -, -, -, hkey⟩ := rowAt_tierDueRef hrow
  cases hr'
  exact hkey

theorem indexWrites_dueRemoval {o : GoString} {v : Int} {ref : Option TierDueRefRecord}
    (href : ∀ r, ref = some r → keyFamily r.dueKey = lit "tdue") :
    IndexWrites P (dueRemoval o v ref) := by
  refine ⟨writeRows_deletes fun w hw => dueRemoval_value hw, fun w hw => ?_⟩
  rcases dueRemoval_families href hw with h | h <;> exact indexKey_of_family h (by decide)

theorem indexWrites_dueUpsert {cfg : Config} {o : GoString} {v : Int} {tier : Tier} {size : Int}
    {now : Time} {ref : Option TierDueRefRecord} (ho : P o)
    (href : ∀ r, ref = some r → keyFamily r.dueKey = lit "tdue") :
    IndexWrites P (dueUpsert cfg o v tier size now ref) := by
  refine ⟨dueUpsert_rows ho, ?_⟩
  intro w hw
  rcases dueUpsert_families href hw with h | h <;> exact indexKey_of_family h (by decide)

theorem background_removeTieringDueIndexByVersion {o : GoString} {v : Int} :
    Background P (removeTieringDueIndexByVersion o v) := by
  intro t
  unfold removeTieringDueIndexByVersion removeTieringDueIndexByVersionInBatch
  rw [bind_assoc]
  refine (obeys_dueRef t).bind (fun _ _ _ => trivial) ?_
  intro ref t' href
  exact background_commit (indexWrites_dueRemoval fun r => href ref r rfl) t'

theorem background_upsertTieringDueIndexDetached {cfg : Config} {o : GoString} {v : Int}
    {tier : Tier} {size : Int} {now : Time} (ho : P o) :
    Background P (upsertTieringDueIndexDetached cfg o v tier size now) := by
  intro t
  unfold upsertTieringDueIndexDetached
  rw [upsertTieringDueIndex_eq, bind_assoc]
  refine (obeys_dueRef t).bind (fun _ _ _ => trivial) ?_
  intro ref t' href
  exact background_commit (indexWrites_dueUpsert ho fun r => href ref r rfl) t'

end Due

/-! ## The scans -/

section Scan

variable {P : GoString → Prop}

theorem background_enqueueMigration {clock now : Time} {c : TieringCandidate} :
    Background P (enqueueMigration clock now c) := by
  have hhead : ∀ n : Int, Background P (markPending now c n) := by
    intro n t
    refine (obeys_background_getJSON t).bind (fun _ _ _ => trivial) ?_
    intro found t' hfound
    split
    · trivial
    · rename_i obj
      obtain ⟨x, hrow, hx, ht⟩ := hfound obj rfl
      rw [Value.asObject_eq_some] at hx
      subst hx
      obtain ⟨obj', hobj, hid, ho⟩ := rowAt_object hrow
      cases hobj
      split
      · trivial
      · rename_i hcur
        refine Obeys.bind (R := fun _ _ => True) ⟨Or.inr ⟨obj, now, ?_⟩, fun _ _ _ => trivial⟩
          (fun _ _ _ => trivial) (fun _ _ _ => trivial)
        refine ⟨ht (keyFamily_object _), not_not.mp (not_or.mp hcur).2, hid ▸ ho, ?_⟩
        rw [← hid]
        rfl
  unfold enqueueMigration
  refine background_getJSON.bind ?_
  intro found
  cases found with
  | some rec => exact background_removeTieringDueIndexByVersion.bind fun _ => hhead 0
  | none =>
    exact background_writeTaskRecord.bind fun _ => background_removeTieringDueIndexByVersion.bind fun _ => hhead 1

theorem background_enqueueTieringCandidates {cfg : Config} {clock now : Time}
    {age maxObjects maxBytes : Int} {budget : Bool} : Background P
      (enqueueTieringCandidates cfg clock now age maxObjects maxBytes budget) :=
  closed_background.enqueueTieringCandidates
    (closed_background.tieringCandidate fun _ _ => background_removeTieringDueIndexByVersion)
    fun _ => background_enqueueMigration

theorem background_enqueueRepairCandidates {order : UpdateOrder} {cfg : Config} {clock : Time}
    {clocks : Nat → Time} {maxObjects : Int} :
    Background P (enqueueRepairCandidates order cfg clock clocks maxObjects) :=
  closed_background.enqueueRepairCandidates fun _ _ _ _ => background_enqueueOrRequeue

theorem background_enqueueOldVersionGCCandidates {clock now : Time}
    {keepLatest minAgeSec maxTasks : Int} : Background P
      (enqueueOldVersionGCCandidates clock now keepLatest minAgeSec maxTasks) :=
  closed_background.enqueueOldVersionGCCandidates fun _ _ _ => background_enqueueOrRequeue

end Scan

end TieredStore.Meta
