import TieredStore.Meta.Background
import TieredStore.Meta.TaskCoherence

/-!
# What a task operation does to the task rows

A task operation that runs alone touches nothing but the task rows and their index keys, and it
changes rows in one way only: an enqueue inserts a row, an outcome, a requeue or a cancel replaces
the row of its task, a claim takes a runnable row, and the purge removes finished rows. `TaskStep`
says this of one key-value step for a given set of row changes, and `Moves` of all steps of a
program.

Unlike the coherence of rows and index keys, nothing is asked here of the task types or of the
index keys that are already in the store.
-/

namespace TieredStore.Meta.TaskMoves

open Lib Lib.Prog TaskCoherence

/-! ## Steps -/

/-- A change of rows: the task, its row before and its row after. -/
abbrev RowChange := GoString → Option TaskRecord → Option TaskRecord → Prop

/-- A step that touches tasks only and changes rows as `C` allows. -/
structure TaskStep (C : RowChange) (s s' : Store) : Prop where
  rows : ∀ id, taskRow s' id = taskRow s id ∨ C id (taskRow s id) (taskRow s' id)
  other : ∀ k, ¬ TaskKey k → s'.get? k = s.get? k

abbrev moving (C : RowChange) : Monitor KVOp KVRes Store := solo (Rows AnyID) (TaskStep C)

/-- Every step of the program, run alone, is a task step for `C`. -/
def Moves {α : Type} (C : RowChange) (p : KV α) : Prop :=
  ∀ s, Rows AnyID s → p.Obeys (moving C) (fun _ s' => Rows AnyID s') s

section Rules

variable {α β : Type} {C : RowChange} {s : Store}

theorem moves_pure (a : α) : Moves C (pure a) := fun _ hs => hs

theorem Moves.bind {p : KV α} {f : α → KV β} (hp : Moves C p) (hf : ∀ a, Moves C (f a)) :
    Moves C (p >>= f) :=
  fun s hs => (hp s hs).bind (fun _ _ h => h) fun a s' h => hf a s' h

theorem Moves.mono {D : RowChange} {p : KV α} (hp : Moves C p)
    (h : ∀ id old new, C id old new → D id old new) : Moves D p := by
  intro s hs
  refine (Obeys.step_mono ?_ (hp s hs) hs hs).mono fun _ _ h => h.1
  exact fun _ _ _ hs' hstep _ => ⟨hs', fun id => (hstep.rows id).imp_right (h id _ _), hstep.other⟩

/-- What all allowed steps keep holds after the whole call. -/
theorem Moves.keeps {p : KV α} (hp : Moves C p) (hs : Rows AnyID s) {J : Store → Prop}
    (hJ : ∀ s s', Rows AnyID s → Rows AnyID s' → TaskStep C s s' → J s → J s') (h : J s) :
    Rows AnyID (atomically p s).2 ∧ J (atomically p s).2 :=
  ((hp s hs).step_run hJ hs h).2

/-- The task key holds what the row shows. -/
theorem get_task (hs : Rows AnyID s) (id : GoString) :
    s.get? (tiKVTaskKey id) = (taskRow s id).map Value.task := by
  cases hget : s.get? (tiKVTaskKey id) with
  | none => simp [taskRow, hget]
  | some x =>
    obtain ⟨r, rfl, -⟩ := rowAt_task (hs _ _ hget)
    rw [taskRow_eq_some.mpr hget]
    rfl

theorem row_taskID (hs : Rows AnyID s) {id : GoString} {rec : TaskRecord}
    (hrow : taskRow s id = some rec) : rec.taskID = id := by
  obtain ⟨rec', hrec', hid⟩ := rowAt_task (hs _ _ (taskRow_eq_some.mp hrow))
  cases hrec'
  exact hid

theorem moving_getTaskRecord {id : GoString} {f : Option TaskRecord → KV β}
    {Q : Except GoError β → Store → Prop} (hs : Rows AnyID s)
    (hf : (f (taskRow s id)).Obeys (moving C) Q s) :
    (getTaskRecord (tiKVTaskKey id) >>= f).Obeys (moving C) Q s :=
  solo_getJSON hs (get_task hs id) (fun _ => rfl) hf

end Rules

/-! ## Batches -/

section Batches

variable {C : RowChange} {s : Store} {ws ws' : List KVWrite}

/-- A batch on the task indexes. -/
structure IndexBatch (ws : List KVWrite) : Prop where
  rows : WriteRows AnyID ws
  keys : ∀ w ∈ ws, TaskIndexKey w.key

theorem indexBatch_nil : IndexBatch [] :=
  ⟨indexWrites_nil.rows, fun w hw => by simp at hw⟩

theorem IndexBatch.append (h : IndexBatch ws) (h' : IndexBatch ws') : IndexBatch (ws ++ ws') :=
  ⟨h.rows.append h'.rows, List.forall_mem_append.mpr ⟨h.keys, h'.keys⟩⟩

theorem indexBatch_del {k : GoString} (hk : TaskIndexKey k) : IndexBatch [Write.del k] :=
  ⟨writeRows_del k, List.forall_mem_singleton.mpr hk⟩

theorem indexBatch_mark {k : GoString} (hk : TaskIndexKey k) : IndexBatch [Write.set k .mark] :=
  ⟨writeRows_singleton hk, List.forall_mem_singleton.mpr hk⟩

theorem indexBatch_deleteRunnable (rec : TaskRecord) :
    IndexBatch (deleteTaskRunnableIndexInBatch rec) := by
  unfold deleteTaskRunnableIndexInBatch
  split
  · exact indexBatch_nil
  · exact (indexBatch_del (taskIndexKey_ready rec)).append (indexBatch_del (taskIndexKey_wait rec))

theorem taskIndexKey_terminal {rec : TaskRecord} (h : rec.finishedAt ≠ none) :
    TaskIndexKey (taskTerminalIndexKey rec) := by
  obtain ⟨t, ht⟩ := Option.ne_none_iff_exists'.mp h
  unfold taskTerminalIndexKey
  rw [ht]
  exact Or.inr (Or.inr (keyFamily_taskTerminal t rec.taskID))

theorem indexBatch_deleteTerminal (rec : TaskRecord) :
    IndexBatch (deleteTaskTerminalIndexInBatch rec) := by
  unfold deleteTaskTerminalIndexInBatch
  split
  · exact indexBatch_nil
  · rename_i hkey
    refine indexBatch_del (taskIndexKey_terminal fun hnone => hkey (Or.inr ?_))
    simp [taskTerminalIndexKey, hnone]

theorem indexBatch_putRunnable (clock : Time) (rec : TaskRecord) (now : Time) :
    IndexBatch (putTaskRunnableIndexInBatch clock rec now) := by
  unfold putTaskRunnableIndexInBatch
  split
  · exact indexBatch_nil
  · split
    · exact indexBatch_mark (taskIndexKey_wait rec)
    · exact indexBatch_mark (taskIndexKey_ready rec)

theorem indexBatch_putTerminal (rec : TaskRecord) :
    IndexBatch (putTaskTerminalIndexInBatch rec) := by
  unfold putTaskTerminalIndexInBatch
  split
  · exact indexBatch_nil
  · rename_i hkey
    exact indexBatch_mark (taskIndexKey_terminal fun hnone => hkey (Or.inr (Or.inr hnone)))

theorem taskKey_task (id : GoString) : TaskKey (tiKVTaskKey id) := Or.inl (keyFamily_task id)

/-- A batch on task keys leaves all other keys alone. -/
theorem get_other (h : ∀ w ∈ ws, TaskKey w.key) {k : GoString} (hk : ¬ TaskKey k) :
    (s.applyAll ws).get? k = s.get? k := by
  apply SortedMap.get?_applyAll_of_untouched
  rintro w hw rfl
  exact hk (h w hw)

theorem IndexBatch.step (h : IndexBatch ws) : TaskStep C s (s.applyAll ws) where
  rows := fun _ => Or.inl (taskRow_applyAll_index h.keys)
  other := fun _ hk => get_other (fun w hw => Or.inr (h.keys w hw)) hk

/-- The rows after a batch that writes one row among index keys. -/
theorem taskRow_around (h : IndexBatch ws) (h' : IndexBatch ws') (id : GoString) (rec : TaskRecord)
    (id' : GoString) :
    taskRow (s.applyAll (ws ++ [Write.set (tiKVTaskKey id) (.task rec)] ++ ws')) id' =
      if id' = id then some rec else taskRow s id' := by
  rw [SortedMap.applyAll_append, taskRow_applyAll_index h'.keys, SortedMap.applyAll_append,
    SortedMap.applyAll_cons, SortedMap.applyAll_nil]
  have hkey : tiKVTaskKey id = tiKVTaskKey id' ↔ id' = id := by
    rw [tiKVTaskKey_inj, eq_comm]
  unfold taskRow
  rw [SortedMap.get?_apply, Write.key_set, Write.value_set]
  by_cases hid : id' = id
  · rw [if_pos (hkey.mpr hid), if_pos hid]
    rfl
  · rw [if_neg fun hk => hid (hkey.mp hk), if_neg hid]
    exact taskRow_applyAll_index h.keys

theorem keys_around (h : IndexBatch ws) (h' : IndexBatch ws') (id : GoString) (x : Value) :
    ∀ w ∈ ws ++ [Write.set (tiKVTaskKey id) x] ++ ws', TaskKey w.key := by
  intro w hw
  simp only [List.mem_append, List.mem_singleton] at hw
  rcases hw with (hw | rfl) | hw
  · exact Or.inr (h.keys w hw)
  · exact taskKey_task id
  · exact Or.inr (h'.keys w hw)

theorem rows_around (h : IndexBatch ws) (h' : IndexBatch ws') {id : GoString} {rec : TaskRecord}
    (hid : rec.taskID = id) :
    WriteRows AnyID (ws ++ [Write.set (tiKVTaskKey id) (.task rec)] ++ ws') := by
  intro w hw x hx
  simp only [List.mem_append, List.mem_singleton] at hw
  rcases hw with (hw | rfl) | hw
  · exact h.rows w hw x hx
  · cases hx
    exact congrArg tiKVTaskKey hid.symm
  · exact h'.rows w hw x hx

theorem step_around (h : IndexBatch ws) (h' : IndexBatch ws') {id : GoString} {rec : TaskRecord}
    (hC : C id (taskRow s id) (some rec)) :
    TaskStep C s (s.applyAll (ws ++ [Write.set (tiKVTaskKey id) (.task rec)] ++ ws')) where
  rows := by
    intro id'
    rw [taskRow_around h h']
    split
    · rename_i hid
      subst hid
      exact Or.inr hC
    · exact Or.inl rfl
  other := fun _ hk => get_other (keys_around h h' id _) hk

/-- The batch that replaces a row, as index keys around the row. -/
theorem taskRecordBatch_around (clock : Time) (prev : Option TaskRecord) (next : TaskRecord)
    (now : Time) : ∃ pre post, IndexBatch pre ∧ IndexBatch post ∧
      taskRecordBatch clock prev next now =
        pre ++ [Write.set (tiKVTaskKey next.taskID) (.task next)] ++ post := by
  refine ⟨rowDeletes prev, putTaskRunnableIndexInBatch clock next (orNow now clock) ++
    putTaskTerminalIndexInBatch next, ?_, ?_, ?_⟩
  · cases prev with
    | none => exact indexBatch_nil
    | some prev => exact (indexBatch_deleteRunnable prev).append (indexBatch_deleteTerminal prev)
  · exact (indexBatch_putRunnable _ _ _).append (indexBatch_putTerminal _)
  · unfold taskRecordBatch rowDeletes
    cases prev <;> simp only [List.append_assoc]

end Batches

/-! ## Single rows -/

section Rows

variable {C : RowChange} {s : Store} {clock now : Time} {id o ty : GoString} {v priority : Int}

theorem moving_writeTaskRecord (hs : Rows AnyID s) {prev : Option TaskRecord} {next : TaskRecord}
    (hC : C next.taskID (taskRow s next.taskID) (some next)) :
    (writeTaskRecordWithRunnableIndexLocked clock prev next now).Obeys (moving C)
      (fun _ s' => Rows AnyID s') s := by
  unfold writeTaskRecordWithRunnableIndexLocked
  split
  · exact hs
  · obtain ⟨pre, post, hpre, hpost, heq⟩ := taskRecordBatch_around clock prev next now
    rw [heq]
    have hrows := hs.applyAll (rows_around hpre hpost (rfl : next.taskID = next.taskID))
    exact solo_commit_last hrows (step_around hpre hpost hC) hrows

theorem moving_answer {α β : Type} {p : KV α} {b : β}
    (h : p.Obeys (moving C) (fun _ s' => Rows AnyID s') s) :
    (p >>= fun _ => pure b).Obeys (moving C) (fun _ s' => Rows AnyID s') s :=
  h.bind (fun _ _ h => h) fun _ _ h => h

/-- A new row where there is none. -/
def Inserts (id : GoString) : RowChange := fun id' old new =>
  id' = id ∧ old = none ∧ ∃ rec, new = some rec ∧ rec.taskState = .pending

/-- A new row, or a finished one that is put back to PENDING. -/
def Requeues (id : GoString) : RowChange := fun id' old new =>
  id' = id ∧ (∀ rec, old = some rec → isTaskTerminalState rec.taskState = true) ∧
    ∃ rec, new = some rec ∧ rec.taskState = .pending

/-- The row of one task is replaced as an update says. -/
def Updates (id : GoString) (update : TaskRecord → Option TaskRecord) : RowChange :=
  fun id' old new => id' = id ∧ ∃ rec next, old = some rec ∧ update rec = some next ∧
    new = some next

/-- A runnable row is taken. -/
def Takes : RowChange := fun _ old new => ∃ rec now, old = some rec ∧
  isTaskRunnableState rec.taskState = true ∧ new = some (claimedRecord rec now)

/-- A row that finished up to the cutoff is removed. -/
def Removes (cutoff : Int) : RowChange := fun _ old new => new = none ∧ ∃ rec at',
  old = some rec ∧ isTaskTerminalState rec.taskState = true ∧ rec.finishedAt = some at' ∧
  at'.unixNano ≤ cutoff

theorem moves_enqueueTieringTask (at' : Time) :
    Moves (Inserts id) (enqueueTieringTask clock now id o v ty priority at') := by
  intro s hs
  unfold enqueueTieringTask
  split
  · exact hs
  · refine moving_getTaskRecord hs ?_
    cases hrow : taskRow s id with
    | some rec => exact hs
    | none => exact moving_writeTaskRecord hs ⟨rfl, hrow, _, rfl, rfl⟩

theorem moves_enqueueOrRequeue :
    Moves (Requeues id) (enqueueOrRequeue clock now id o v ty priority) := by
  intro s hs
  unfold enqueueOrRequeue
  refine moving_getTaskRecord hs ?_
  cases hrow : taskRow s id with
  | none =>
    refine moving_answer (moving_writeTaskRecord hs ⟨rfl, ?_, _, rfl, rfl⟩)
    intro rec hrec
    cases hrow.symm.trans hrec
  | some rec =>
    have hid : rec.taskID = id := row_taskID hs hrow
    have hback : ∀ next : TaskRecord, next.taskID = rec.taskID → next.taskState = .pending →
        isTaskTerminalState rec.taskState = true →
        Requeues id next.taskID (taskRow s next.taskID) (some next) := by
      intro next hnext hstate hterm
      refine ⟨hnext.trans hid, ?_, next, rfl, hstate⟩
      intro rec' hrec'
      rw [hnext, hid, hrow] at hrec'
      cases hrec'
      exact hterm
    dsimp only
    split <;> rename_i hstate
    · exact moving_answer (moving_writeTaskRecord hs (hback _ rfl rfl (by rw [hstate]; rfl)))
    · exact moving_answer (moving_writeTaskRecord hs (hback _ rfl rfl (by rw [hstate]; rfl)))
    · exact hs

theorem moves_updateTask {update : TaskRecord → Option TaskRecord}
    (hu : ∀ rec next, update rec = some next → next.taskID = rec.taskID) :
    Moves (Updates id update) (updateTask clock now id update) := by
  intro s hs
  unfold updateTask
  refine moving_getTaskRecord hs ?_
  cases hrow : taskRow s id with
  | none => exact hs
  | some rec =>
    dsimp only
    cases hnext : update rec with
    | none => exact hs
    | some next =>
      have hid : next.taskID = id := (hu rec next hnext).trans (row_taskID hs hrow)
      refine moving_answer (moving_writeTaskRecord hs ⟨hid, rec, next, ?_, hnext, rfl⟩)
      rw [hid, hrow]

/-- The row of one task is replaced. -/
def Rewrites (id : GoString) : RowChange := fun id' _ new => id' = id ∧ new ≠ none

theorem moves_rewrite {update : TaskRecord → Option TaskRecord}
    (hu : ∀ rec next, update rec = some next → next.taskID = rec.taskID) :
    Moves (Rewrites id) (updateTask clock now id update) := by
  refine (moves_updateTask hu).mono ?_
  rintro id' old new ⟨rfl, rec, next, -, -, rfl⟩
  exact ⟨rfl, Option.some_ne_none next⟩

theorem moves_markTieringTaskDone : Moves (Rewrites id) (markTieringTaskDone clock now id) := by
  refine (moves_rewrite ?_).bind fun _ => moves_pure ()
  rintro rec next ⟨⟩
  rfl

theorem moves_markTieringTaskRetry {lastErr : GoString} {nextRunAt : Time} :
    Moves (Rewrites id) (markTieringTaskRetry clock now id lastErr nextRunAt) := by
  refine (moves_rewrite ?_).bind fun _ => moves_pure ()
  rintro rec next ⟨⟩
  rfl

theorem moves_markTieringTaskFailed {lastErr : GoString} :
    Moves (Rewrites id) (markTieringTaskFailed clock now id lastErr) := by
  refine (moves_rewrite ?_).bind fun _ => moves_pure ()
  rintro rec next ⟨⟩
  rfl

theorem moves_requeueTieringTaskNow : Moves (Rewrites id) (requeueTieringTaskNow clock now id) := by
  unfold requeueTieringTaskNow
  split
  · exact moves_pure false
  · refine moves_rewrite fun rec next h => ?_
    split at h <;> cases h <;> rfl

theorem moves_cancelTieringTask {reason : GoString} :
    Moves (Rewrites id) (cancelTieringTask clock now id reason) := by
  unfold cancelTieringTask
  split
  · exact moves_pure false
  · refine moves_rewrite fun rec next h => ?_
    split at h <;> cases h <;> rfl

/-! The answers of these operations, for a task with an id. -/

theorem moving_writeRow {α : Type} {f : Unit → KV α} {Q : Except GoError α → Store → Prop}
    (hs : Rows AnyID s) {prev : Option TaskRecord} {next : TaskRecord} (hid : next.taskID ≠ [])
    (hC : C next.taskID (taskRow s next.taskID) (some next))
    (hf : ∀ s', Rows AnyID s' → (∀ id', taskRow s' id' =
      if id' = next.taskID then some next else taskRow s id') → (f ()).Obeys (moving C) Q s') :
    (writeTaskRecordWithRunnableIndexLocked clock prev next now >>= f).Obeys (moving C) Q s := by
  unfold writeTaskRecordWithRunnableIndexLocked
  rw [if_neg hid]
  obtain ⟨pre, post, hpre, hpost, heq⟩ := taskRecordBatch_around clock prev next now
  rw [heq]
  have hrows := hs.applyAll (rows_around hpre hpost (rfl : next.taskID = next.taskID))
  exact solo_commit hrows (step_around hpre hpost hC)
    (hf _ hrows (taskRow_around hpre hpost next.taskID next))

theorem updateTask_result {update : TaskRecord → Option TaskRecord}
    (hu : ∀ rec next, update rec = some next → next.taskID = rec.taskID) (hs : Rows AnyID s)
    (hid : id ≠ []) : (updateTask clock now id update).Obeys (moving (Updates id update))
      (fun x s' => x = .ok ((taskRow s id).bind update).isSome ∧
        taskRow s' id = ((taskRow s id).bind update).or (taskRow s id)) s := by
  unfold updateTask
  refine moving_getTaskRecord hs ?_
  cases hrow : taskRow s id with
  | none => exact ⟨rfl, hrow⟩
  | some rec =>
    dsimp only
    cases hnext : update rec with
    | none => exact ⟨by simp [hnext], by simp [hnext, hrow]⟩
    | some next =>
      have hid' : next.taskID = id := (hu rec next hnext).trans (row_taskID hs hrow)
      refine moving_writeRow hs (hid' ▸ hid) ⟨hid', rec, next, by rw [hid', hrow], hnext, rfl⟩ ?_
      intro s' _ hrows
      exact ⟨by simp [hnext], by rw [hrows, hid', if_pos rfl]; simp [hnext]⟩

/-- After an enqueue the task is there. -/
theorem enqueueTieringTask_result (hs : Rows AnyID s) (hid : id ≠ []) (at' : Time) :
    (enqueueTieringTask clock now id o v ty priority at').Obeys (moving (Inserts id))
      (fun x s' => x = .ok () ∧ ∃ rec, taskRow s' id = some rec) s := by
  unfold enqueueTieringTask
  rw [if_neg hid]
  refine moving_getTaskRecord hs ?_
  cases hrow : taskRow s id with
  | some rec => exact ⟨rfl, rec, hrow⟩
  | none =>
    dsimp only
    rw [← bind_ret (writeTaskRecordWithRunnableIndexLocked _ _ _ _)]
    refine moving_writeRow hs hid ⟨rfl, hrow, _, rfl, rfl⟩ fun s' _ hrows => ?_
    exact ⟨rfl, _, by rw [hrows]; exact if_pos rfl⟩

/-- A finished task is put back, and the answer says so. -/
theorem enqueueOrRequeue_result (hs : Rows AnyID s) (hid : id ≠ []) {rec : TaskRecord}
    (hrow : taskRow s id = some rec) (hterm : isTaskTerminalState rec.taskState = true) :
    (enqueueOrRequeue clock now id o v ty priority).Obeys (moving fun _ _ _ => True)
      (fun x _ => x = .ok true) s := by
  have hne : rec.taskID ≠ [] := by rwa [row_taskID hs hrow]
  unfold enqueueOrRequeue
  refine moving_getTaskRecord hs ?_
  rw [hrow]
  dsimp only
  split
  · exact moving_writeRow hs hne trivial fun _ _ _ => rfl
  · exact moving_writeRow hs hne trivial fun _ _ _ => rfl
  · rename_i hdone hfailed
    cases hstate : rec.taskState with
    | done => exact absurd hstate hdone
    | failed => exact absurd hstate hfailed
    | _ => simp [hstate, isTaskTerminalState] at hterm

end Rows

/-! ## Walks over an index -/

section Walks

variable {C : RowChange} {s : Store} {clock now : Time}

theorem moving_commit {ws : List KVWrite} (hs : Rows AnyID s) (h : IndexBatch ws) :
    (KV.commit ws).Obeys (moving C) (fun _ s' => Rows AnyID s') s :=
  solo_commit_last (hs.applyAll h.rows) h.step (hs.applyAll h.rows)

theorem mem_scan {pre : GoString} {e : GoString × Value} (he : e ∈ prefixEntries s pre) :
    pre <+: e.1 := (mem_prefixEntries.mp he).2

/-- The batch that a walk over the wait index has collected. -/
theorem promoteWaitingLoop_batch (hs : Rows AnyID s) {maxPromote touched : Int}
    {es : List (GoString × Value)} (hes : ∀ e ∈ es, TaskIndexKey e.1) {ops : List KVWrite}
    (hops : IndexBatch ops) : (promoteWaitingLoop clock now maxPromote es touched ops).Obeys
      (moving C) (fun x s' => Rows AnyID s' ∧ ∀ n ws, x = .ok (n, ws) → IndexBatch ws) s := by
  have hend : ∀ n ws, IndexBatch ws → (pure (n, ws) : KV (Int × List KVWrite)).Obeys (moving C)
      (fun x s' => Rows AnyID s' ∧ ∀ n ws, x = .ok (n, ws) → IndexBatch ws) s := by
    intro n ws hws
    refine ⟨hs, ?_⟩
    intro n' ws' h
    cases h
    exact hws
  induction es generalizing touched ops with
  | nil => exact hend _ _ hops
  | cons e rest ih =>
    obtain ⟨waitKey, x⟩ := e
    have hkey : TaskIndexKey waitKey := hes _ List.mem_cons_self
    have hrest : ∀ e ∈ rest, TaskIndexKey e.1 := fun e he => hes e (List.mem_cons_of_mem _ he)
    have hdel := hops.append (indexBatch_del hkey)
    unfold promoteWaitingLoop
    split
    · dsimp only
      split
      · exact hend _ _ hdel
      · exact ih hrest hdel
    · rename_i id _
      split
      · exact hend _ _ hops
      · refine moving_getTaskRecord hs ?_
        have hnext : ∀ more, IndexBatch more →
            IndexBatch (ops ++ [Write.del waitKey] ++ more) := fun _ => hdel.append
        cases taskRow s id with
        | none =>
          dsimp only
          split
          · exact hend _ _ (hnext _ indexBatch_nil)
          · exact ih hrest (hnext _ indexBatch_nil)
        | some rec =>
          have hmore := (indexBatch_deleteRunnable rec).append
            (indexBatch_putRunnable clock rec now)
          dsimp only
          split
          · exact hend _ _ (hnext _ hmore)
          · exact ih hrest (hnext _ hmore)

theorem moves_promoteDueWaitingTasksLocked (maxPromote : Int) :
    Moves C (promoteDueWaitingTasksLocked clock now maxPromote) := by
  intro s hs
  unfold promoteDueWaitingTasksLocked
  refine solo_iter hs ((promoteWaitingLoop_batch hs ?_ indexBatch_nil).bind (fun _ _ h => h.1) ?_)
  · intro e he
    exact Or.inr (Or.inl (keyFamily_eq (by decide) (mem_scan he)))
  · rintro ⟨touched, ops⟩ s' ⟨hs', hops⟩
    exact moving_answer (moving_commit hs' (hops _ _ rfl))

theorem moves_promoteRounds {adaptiveMax : Int} (rounds : Nat) (limit : Int) :
    Moves C (promoteRounds clock now adaptiveMax rounds limit) := by
  induction rounds generalizing limit with
  | zero => exact moves_pure _
  | succ rounds ih =>
    refine (moves_promoteDueWaitingTasksLocked limit).bind ?_
    intro promoted
    split
    · exact moves_pure _
    · exact ih _

/-! ## Claim -/

/-- A claim that hands out a task leaves the row of that task RUNNING. -/
def Handed (x : Except GoError (Option TaskRecord)) (s : Store) : Prop :=
  Rows AnyID s ∧ ∀ task, x = .ok (some task) →
    taskRow s task.taskID = some task ∧ task.taskState = .running

/-- What a claim leaves of the rows of a store: all of them, but for the task that it hands out. -/
def HandedFrom (s₀ : Store) (x : Except GoError (Option TaskRecord)) (s : Store) : Prop :=
  Rows AnyID s ∧ ((∀ task, x ≠ .ok (some task)) → ∀ id, taskRow s id = taskRow s₀ id) ∧
    ∀ task, x = .ok (some task) → ∃ rec now, taskRow s₀ task.taskID = some rec ∧
      isTaskRunnableState rec.taskState = true ∧ task = claimedRecord rec now ∧
      ∀ id, taskRow s id = if id = task.taskID then some task else taskRow s₀ id

theorem HandedFrom.handed {s₀ : Store} {x : Except GoError (Option TaskRecord)} {s : Store}
    (h : HandedFrom s₀ x s) : Handed x s := by
  refine ⟨h.1, fun task hx => ?_⟩
  obtain ⟨rec, now, -, -, htask, hrows⟩ := h.2.2 task hx
  exact ⟨(hrows task.taskID).trans (if_pos rfl), by rw [htask]; rfl⟩

theorem handedFrom_none {s₀ : Store} (hs : Rows AnyID s)
    (hsame : ∀ id, taskRow s id = taskRow s₀ id) : HandedFrom s₀ (.ok none) s :=
  ⟨hs, fun _ => hsame, fun _ h => by cases h⟩

theorem claimWrites_around {raw id : GoString} {rec : TaskRecord} (hraw : TaskIndexKey raw) :
    ∃ post, IndexBatch post ∧ claimWrites raw id now rec =
      [] ++ [Write.set (tiKVTaskKey id) (.task (claimedRecord rec now))] ++ post := by
  have hne : raw ≠ [] := by
    rintro rfl
    exact absurd hraw (by unfold TaskIndexKey; decide)
  refine ⟨[Write.del raw] ++
    [Write.del (taskReadyIndexKey rec), Write.del (taskWaitIndexKey rec)], ?_, ?_⟩
  · exact (indexBatch_del hraw).append
      ((indexBatch_del (taskIndexKey_ready rec)).append (indexBatch_del (taskIndexKey_wait rec)))
  · unfold claimWrites
    rw [if_pos hne]
    rfl

theorem moving_tryClaimTaskCAS {s₀ : Store} {raw ty id : GoString} {rec : TaskRecord}
    {f : Option TaskRecord → KV (Option TaskRecord)} (hs : Rows AnyID s)
    (hsame : ∀ id, taskRow s id = taskRow s₀ id) (hrow : taskRow s id = some rec)
    (hraw : TaskIndexKey raw) (hnone : (f none).Obeys (moving Takes) (HandedFrom s₀) s)
    (hsome : ∀ task, f (some task) = pure (some task)) :
    (tryClaimTaskCAS clock raw ty id now >>= f).Obeys (moving Takes) (HandedFrom s₀) s := by
  have hid : rec.taskID = id := row_taskID hs hrow
  unfold tryClaimTaskCAS
  split
  · exact hnone
  · rename_i hne
    have hnamed : namedRecord id rec = rec := by
      unfold namedRecord
      rw [if_neg (hid ▸ hne)]
    have heff := @claimTxn_effect_row s raw ty id (orNow now clock) rec (taskRow_eq_some.mp hrow)
    rw [hnamed] at heff
    rw [bind_assoc]
    by_cases hclaim : claimable ty (orNow now clock) rec = false
    · rw [if_pos hclaim] at heff
      exact solo_txn_attempt heff hs indexBatch_nil.step hnone
    · rw [if_neg hclaim] at heff
      have hrun : isTaskRunnableState rec.taskState = true := by
        rw [Bool.not_eq_false, claimable, decide_eq_true_eq] at hclaim
        exact hclaim.2.1
      obtain ⟨post, hpost, hwrites⟩ := @claimWrites_around (orNow now clock) raw id rec hraw
      rw [hwrites] at heff
      have hclaimed : (claimedRecord rec (orNow now clock)).taskID = id := hid
      have hrows := hs.applyAll (rows_around indexBatch_nil hpost hclaimed)
      refine solo_txn_attempt heff hrows
        (step_around indexBatch_nil hpost ⟨rec, _, hrow, hrun, rfl⟩) ?_
      dsimp only [pure_bind']
      rw [hsome]
      refine ⟨hrows, fun h => absurd rfl (h _), ?_⟩
      rintro task ⟨⟩
      refine ⟨rec, _, ?_, hrun, rfl, fun id' => ?_⟩
      · rw [← hsame, hclaimed, hrow]
      · rw [taskRow_around indexBatch_nil hpost, hclaimed, hsame]

theorem moving_claimReadyLoop {s₀ : Store} {taskType : GoString} {es : List (GoString × Value)}
    (hes : ∀ e ∈ es, TaskIndexKey e.1) (hs : Rows AnyID s)
    (hsame : ∀ id, taskRow s id = taskRow s₀ id) :
    (claimReadyLoop clock now taskType es).Obeys (moving Takes) (HandedFrom s₀) s := by
  induction es generalizing s with
  | nil => exact handedFrom_none hs hsame
  | cons e rest ih =>
    obtain ⟨readyKey, x⟩ := e
    have hkey : TaskIndexKey readyKey := hes _ List.mem_cons_self
    have hrest : ∀ e ∈ rest, TaskIndexKey e.1 := fun e he => hes e (List.mem_cons_of_mem _ he)
    have hindex : ∀ {ws : List KVWrite}, IndexBatch ws →
        (claimReadyLoop clock now taskType rest).Obeys (moving Takes) (HandedFrom s₀)
          (s.applyAll ws) := fun h =>
      ih hrest (hs.applyAll h.rows) fun id => (taskRow_applyAll_index h.keys).trans (hsame id)
    have hdel : (KV.delete readyKey >>= fun _ => claimReadyLoop clock now taskType rest).Obeys
        (moving Takes) (HandedFrom s₀) s :=
      solo_commit (hs.applyAll (indexBatch_del hkey).rows) (indexBatch_del hkey).step
        (hindex (indexBatch_del hkey))
    unfold claimReadyLoop
    split
    · exact hdel
    · split
      · exact ih hrest hs hsame
      · rename_i id _ _
        refine moving_getTaskRecord hs ?_
        cases hrow : taskRow s id with
        | none => exact hdel
        | some rec =>
          dsimp only
          split
          · have hbatch : IndexBatch (deleteTaskRunnableIndexInBatch rec ++
                deleteTaskTerminalIndexInBatch rec ++ putTaskRunnableIndexInBatch clock rec now ++
                putTaskTerminalIndexInBatch rec) :=
              (((indexBatch_deleteRunnable rec).append (indexBatch_deleteTerminal rec)).append
                (indexBatch_putRunnable _ _ _)).append (indexBatch_putTerminal rec)
            exact solo_commit (hs.applyAll hbatch.rows) hbatch.step (hindex hbatch)
          · exact moving_tryClaimTaskCAS hs hsame hrow hkey (ih hrest hs hsame) fun _ => rfl

/-- The promotion before a claim moves index keys only. -/
theorem obeys_promoteRounds {C : RowChange} {adaptiveMax : Int} (rounds : Nat) (limit : Int)
    (hs : Rows AnyID s) : (promoteRounds clock now adaptiveMax rounds limit).Obeys (moving C)
      (fun _ s' => Rows AnyID s' ∧ ∀ id, taskRow s' id = taskRow s id) s := by
  have hnone : (promoteRounds clock now adaptiveMax rounds limit).Obeys (moving fun _ _ _ => False)
      (fun _ s' => Rows AnyID s') s := moves_promoteRounds rounds limit s hs
  have hkeep : ∀ s₁ s₂, Rows AnyID s₁ → Rows AnyID s₂ → TaskStep (fun _ _ _ => False) s₁ s₂ →
      (Rows AnyID s₁ ∧ ∀ id, taskRow s₁ id = taskRow s id) →
      (Rows AnyID s₂ ∧ ∀ id, taskRow s₂ id = taskRow s id) ∧ TaskStep C s₁ s₂ := by
    rintro s₁ s₂ - hs₂ hstep ⟨-, hsame⟩
    have hrows : ∀ id, taskRow s₂ id = taskRow s₁ id := fun id =>
      (hstep.rows id).resolve_right not_false
    exact ⟨⟨hs₂, fun id => (hrows id).trans (hsame id)⟩, fun id => Or.inl (hrows id), hstep.other⟩
  have hforget : ∀ s₁ s₂, (Rows AnyID s₁ ∧ ∀ id, taskRow s₁ id = taskRow s id) →
      (Rows AnyID s₂ ∧ ∀ id, taskRow s₂ id = taskRow s id) → TaskStep C s₁ s₂ → Rows AnyID s₁ →
      Rows AnyID s₂ ∧ TaskStep C s₁ s₂ := fun _ _ _ h₂ hstep _ => ⟨h₂.1, hstep⟩
  have hstart : Rows AnyID s ∧ ∀ id, taskRow s id = taskRow s id := ⟨hs, fun _ => rfl⟩
  exact ((hnone.step_mono hkeep hs hstart).step_mono hforget hstart hs).mono fun _ _ h => h.1.2

theorem claimNextTieringTask_hands (cfg : Config) (taskType : GoString) (hs : Rows AnyID s) :
    (claimNextTieringTask cfg clock now taskType).Obeys (moving Takes) (HandedFrom s) s := by
  unfold claimNextTieringTask
  refine (obeys_promoteRounds _ _ hs).bind ?_ ?_
  · rintro e s' ⟨hs', hsame⟩
    exact ⟨hs', fun _ => hsame, fun _ h => by cases h⟩
  · rintro _ s' ⟨hs', hsame⟩
    refine solo_iter hs' (moving_claimReadyLoop ?_ hs' hsame)
    intro e he
    exact Or.inl (keyFamily_eq (by decide) (mem_scan he))

theorem moving_claimNextTieringTask (cfg : Config) (taskType : GoString) (hs : Rows AnyID s) :
    (claimNextTieringTask cfg clock now taskType).Obeys (moving Takes) Handed s :=
  (claimNextTieringTask_hands cfg taskType hs).mono fun _ _ h => h.handed

/-! ## Purge of finished tasks -/

/-- The batch of a purge: index keys, and rows of the store that finished up to the cutoff. -/
structure PurgeBatch (s : Store) (cutoff : Int) (ws : List KVWrite) : Prop where
  rows : WriteRows AnyID ws
  keys : ∀ w ∈ ws, TaskIndexKey w.key ∨ (w.value = none ∧ ∃ id, w.key = tiKVTaskKey id ∧
    Removes cutoff id (taskRow s id) none)

theorem IndexBatch.purge {cutoff : Int} {ws : List KVWrite} (h : IndexBatch ws) :
    PurgeBatch s cutoff ws := ⟨h.rows, fun w hw => Or.inl (h.keys w hw)⟩

theorem PurgeBatch.append {cutoff : Int} {ws ws' : List KVWrite} (h : PurgeBatch s cutoff ws)
    (h' : PurgeBatch s cutoff ws') : PurgeBatch s cutoff (ws ++ ws') :=
  ⟨h.rows.append h'.rows, List.forall_mem_append.mpr ⟨h.keys, h'.keys⟩⟩

theorem PurgeBatch.step {cutoff : Int} {ws : List KVWrite} (h : PurgeBatch s cutoff ws) :
    TaskStep (Removes cutoff) s (s.applyAll ws) where
  rows := by
    intro id
    by_cases hno : ∀ w ∈ ws, w.key ≠ tiKVTaskKey id
    · left
      unfold taskRow
      rw [SortedMap.get?_applyAll_of_untouched hno]
    · right
      push Not at hno
      obtain ⟨w, hw, hk⟩ := hno
      -- the last write to the row's key is a removal as well
      obtain ⟨v, hv⟩ := Option.ne_none_iff_exists'.mp (SortedMap.lastWrite_ne_none hw hk)
      obtain ⟨w', hw', hk', rfl⟩ := SortedMap.mem_of_lastWrite hv
      rcases h.keys w' hw' with hindex | ⟨hnone, id', hid', hrem⟩
      · exact absurd (hk' ▸ hindex) (not_taskIndexKey_task id)
      · rw [hk', tiKVTaskKey_inj] at hid'
        subst hid'
        have hgone : taskRow (s.applyAll ws) id = none := by
          unfold taskRow
          rw [SortedMap.get?_applyAll, hv, hnone]
          rfl
        rw [hgone]
        exact hrem
  other := by
    intro k hk
    refine get_other ?_ hk
    intro w hw
    rcases h.keys w hw with hindex | ⟨-, id, hid, -⟩
    · exact Or.inr hindex
    · exact hid ▸ taskKey_task id

theorem purgeStep_batch {cutoff : Int} {key id : GoString} {rec : TaskRecord}
    (hkey : TaskIndexKey key) (hrow : taskRow s id = some rec) :
    PurgeBatch s cutoff (purgeStep clock now cutoff key id rec).1 := by
  have hdels := ((indexBatch_del hkey).append (indexBatch_deleteRunnable rec)).append
    (indexBatch_deleteTerminal rec)
  unfold purgeStep
  split
  · exact ((hdels.append (indexBatch_putRunnable _ _ _)).append (indexBatch_putTerminal _)).purge
  · rename_i hlive
    push Not at hlive
    obtain ⟨at', hat⟩ := Option.ne_none_iff_exists'.mp hlive.2
    split
    · exact ((indexBatch_del hkey).append (indexBatch_putTerminal _)).purge
    · rename_i hold
      refine hdels.purge.append ⟨writeRows_del _, List.forall_mem_singleton.mpr ?_⟩
      rw [hat, Option.getD_some] at hold
      exact Or.inr ⟨rfl, id, rfl, rfl, rec, at', hrow, by simpa using hlive.1, hat, by omega⟩

theorem purgeLoop_batch (hs : Rows AnyID s) {cutoff limit purged : Int}
    {es : List (GoString × Value)} (hes : ∀ e ∈ es, TaskIndexKey e.1) {ops : List KVWrite}
    (hops : PurgeBatch s cutoff ops) : (purgeLoop clock now cutoff limit es purged ops).Obeys
      (moving C) (fun x s' => s' = s ∧ ∀ n ws, x = .ok (n, ws) → PurgeBatch s cutoff ws) s := by
  have hend : ∀ n ws, PurgeBatch s cutoff ws →
      (pure (n, ws) : KV (Int × List KVWrite)).Obeys (moving C)
        (fun x s' => s' = s ∧ ∀ n ws, x = .ok (n, ws) → PurgeBatch s cutoff ws) s := by
    intro n ws hws
    refine ⟨rfl, ?_⟩
    intro n' ws' h
    cases h
    exact hws
  induction es generalizing purged ops with
  | nil => exact hend _ _ hops
  | cons e rest ih =>
    obtain ⟨key, x⟩ := e
    have hkey : TaskIndexKey key := hes _ List.mem_cons_self
    have hrest : ∀ e ∈ rest, TaskIndexKey e.1 := fun e he => hes e (List.mem_cons_of_mem _ he)
    have hdel := hops.append (indexBatch_del hkey).purge
    unfold purgeLoop
    split
    · exact ih hrest hdel
    · rename_i id _
      split
      · exact hend _ _ hops
      · refine moving_getTaskRecord hs ?_
        cases hrow : taskRow s id with
        | none => exact ih hrest hdel
        | some rec =>
          have hstep := hops.append
            (@purgeStep_batch s clock now cutoff key id rec hkey hrow)
          dsimp only
          split
          · split
            · exact hend _ _ hstep
            · exact ih hrest hstep
          · exact ih hrest hstep

theorem moves_purgeTerminalTieringTasks (olderThan : Time) (limit : Int) :
    Moves (Removes olderThan.unixNano) (purgeTerminalTieringTasks clock now olderThan limit) := by
  intro s hs
  unfold purgeTerminalTieringTasks
  split
  · exact hs
  · refine solo_iter hs ((purgeLoop_batch hs ?_ indexBatch_nil.purge).bind ?_ ?_)
    · intro e he
      exact Or.inr (Or.inr (keyFamily_eq (by decide) (mem_scan he)))
    · rintro e s' ⟨rfl, -⟩
      exact hs
    · rintro ⟨purged, ops⟩ s' ⟨rfl, hops⟩
      have hrows := hs.applyAll (hops _ _ rfl).rows
      exact moving_answer (solo_commit_last hrows (hops _ _ rfl).step hrows)

end Walks

end TieredStore.Meta.TaskMoves
