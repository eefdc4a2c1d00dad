import TieredStore.Meta.TaskKeys

/-!
# Task rows and their index keys

The index keys of a task are those that its row asks for: a runnable row has one key in the
ready or the wait index, a running row has none, a finished row has its terminal key. `Indexed`
states this task by task, in terms of the owner of a key, so that a batch about one task leaves
the others alone (`Indexed.batch`). Every operation on tasks keeps it, also those that edit the
indexes while they walk over them: promotion and purge read one store and collect a batch, the
claim works on the store itself.
-/

namespace TieredStore.Meta.TaskCoherence

open Lib Lib.Prog

abbrev AnyID : GoString → Prop := fun _ => True

/-! ## The invariant -/

/-- The row of a task. -/
def taskRow (s : Store) (id : GoString) : Option TaskRecord :=
  (s.get? (tiKVTaskKey id)).bind Value.asTask

/-- A row has an id and a type without a slash, and a finish time exactly when it is finished. -/
structure ValidTask (rec : TaskRecord) : Prop where
  id : rec.taskID ≠ []
  type : slash ∉ rec.taskType
  finished : rec.finishedAt.isSome = isTaskTerminalState rec.taskState

/-- The index key that a row asks for. A runnable row waits or is ready. -/
def indexKeyOf (waiting : Bool) (rec : TaskRecord) : Option GoString :=
  if isTaskRunnableState rec.taskState then
    some (if waiting then taskWaitIndexKey rec else taskReadyIndexKey rec)
  else if isTaskTerminalState rec.taskState then some (taskTerminalIndexKey rec)
  else none

/-- The keys that a task owns are the one that its row asks for. -/
def IndexedAt (s : Store) (id : GoString) (waiting : Bool) : Prop :=
  ∀ k, TaskIndexKey k → taskIndexOwner k = some id →
    ((s.get? k).isSome ↔ ∃ rec, taskRow s id = some rec ∧ indexKeyOf waiting rec = some k)

structure Indexed (s : Store) : Prop where
  rows : Rows AnyID s
  valid : ∀ {id rec}, taskRow s id = some rec → ValidTask rec
  unowned : ∀ {k}, TaskIndexKey k → taskIndexOwner k = none → s.get? k = none
  indexed : ∀ id, ∃ waiting, IndexedAt s id waiting

variable {s : Store} {id : GoString} {rec : TaskRecord}

theorem taskRow_eq_some : taskRow s id = some rec ↔ s.get? (tiKVTaskKey id) = some (.task rec) := by
  simp [taskRow, Option.bind_eq_some_iff]

theorem indexed_empty : Indexed SortedMap.empty where
  rows := rows_empty
  valid := fun h => by cases h
  unowned := fun _ _ => rfl
  indexed := by
    intro id
    refine ⟨false, ?_⟩
    intro k _ _
    constructor
    · intro h
      cases h
    · rintro ⟨rec, hrec, -⟩
      cases hrec

/-- The task key holds what the row shows. -/
theorem Indexed.get_task (h : Indexed s) (id : GoString) :
    s.get? (tiKVTaskKey id) = (taskRow s id).map Value.task := by
  cases hget : s.get? (tiKVTaskKey id) with
  | none => simp [taskRow, hget]
  | some x =>
    obtain ⟨rec, rfl, -⟩ := rowAt_task (h.rows _ _ hget)
    rw [taskRow_eq_some.mpr hget]
    rfl

theorem Indexed.taskID (h : Indexed s) (hrec : taskRow s id = some rec) : rec.taskID = id := by
  obtain ⟨rec', hrec', hid⟩ := rowAt_task (h.rows _ _ (taskRow_eq_some.mp hrec))
  cases hrec'
  exact hid

/-- Every index key belongs to a row that asks for it. -/
theorem Indexed.present (h : Indexed s) {k : GoString} {x : Value} (hk : TaskIndexKey k)
    (hget : s.get? k = some x) : ∃ id rec waiting, taskIndexOwner k = some id ∧
      taskRow s id = some rec ∧ indexKeyOf waiting rec = some k := by
  cases hown : taskIndexOwner k with
  | none =>
    rw [h.unowned hk hown] at hget
    cases hget
  | some id =>
    obtain ⟨waiting, hat⟩ := h.indexed id
    obtain ⟨rec, hrec, hkey⟩ := (hat k hk hown).mp (by rw [hget]; rfl)
    exact ⟨id, rec, waiting, rfl, hrec, hkey⟩

/-- An index key whose owner has no row is not there. -/
theorem Indexed.absent (h : Indexed s) {k : GoString} (hk : TaskIndexKey k)
    (hno : ∀ id, taskIndexOwner k = some id → taskRow s id = none) : s.get? k = none := by
  cases hget : s.get? k with
  | none => rfl
  | some x =>
    obtain ⟨id, rec, -, hown, hrec, -⟩ := h.present hk hget
    rw [hno id hown] at hrec
    cases hrec

/-! ## The keys of a row -/

section Keys

variable {k : GoString} {waiting : Bool}

theorem taskIndexKey_ready (rec : TaskRecord) : TaskIndexKey (taskReadyIndexKey rec) :=
  Or.inl (keyFamily_taskReady _ _ _ _)

theorem taskIndexKey_wait (rec : TaskRecord) : TaskIndexKey (taskWaitIndexKey rec) :=
  Or.inr (Or.inl (keyFamily_taskWait _ _ _))

theorem ValidTask.owner_ready (h : ValidTask rec) :
    taskIndexOwner (taskReadyIndexKey rec) = some rec.taskID := taskIndexOwner_ready h.type h.id _ _

theorem ValidTask.owner_wait (h : ValidTask rec) :
    taskIndexOwner (taskWaitIndexKey rec) = some rec.taskID := taskIndexOwner_wait h.type h.id _

/-- The terminal key of a finished row. -/
theorem ValidTask.terminal (h : ValidTask rec) (hterm : isTaskTerminalState rec.taskState = true) :
    ∃ t, rec.finishedAt = some t ∧ taskTerminalIndexKey rec = tiKVTaskTerminalKey t rec.taskID := by
  have hsome := h.finished.trans hterm
  obtain ⟨t, ht⟩ := Option.isSome_iff_exists.mp hsome
  exact ⟨t, ht, by simp [taskTerminalIndexKey, ht]⟩

theorem ValidTask.unfinished (h : ValidTask rec)
    (hterm : isTaskTerminalState rec.taskState = false) : rec.finishedAt = none := by
  have := h.finished.trans hterm
  simpa using this

theorem not_runnable_of_terminal {state : TaskState} (h : isTaskTerminalState state = true) :
    isTaskRunnableState state = false := by
  cases state <;> simp [isTaskTerminalState, isTaskRunnableState] at h ⊢

theorem indexKeyOf_cases (h : indexKeyOf waiting rec = some k) :
    (isTaskRunnableState rec.taskState = true ∧
      (k = taskReadyIndexKey rec ∨ k = taskWaitIndexKey rec)) ∨
    (isTaskTerminalState rec.taskState = true ∧ k = taskTerminalIndexKey rec) := by
  unfold indexKeyOf at h
  split at h
  · rename_i hrun
    cases waiting <;> cases h
    · exact Or.inl ⟨hrun, Or.inl rfl⟩
    · exact Or.inl ⟨hrun, Or.inr rfl⟩
  · split at h
    · rename_i hterm
      cases h
      exact Or.inr ⟨hterm, rfl⟩
    · cases h

/-- The key that a valid row asks for is an index key of the row's task. -/
theorem ValidTask.indexKeyOf_owner (h : ValidTask rec) (hk : indexKeyOf waiting rec = some k) :
    TaskIndexKey k ∧ taskIndexOwner k = some rec.taskID := by
  rcases indexKeyOf_cases hk with ⟨-, rfl | rfl⟩ | ⟨hterm, rfl⟩
  · exact ⟨taskIndexKey_ready rec, h.owner_ready⟩
  · exact ⟨taskIndexKey_wait rec, h.owner_wait⟩
  · obtain ⟨t, -, hkey⟩ := h.terminal hterm
    rw [hkey]
    exact ⟨Or.inr (Or.inr (keyFamily_taskTerminal _ _)), taskIndexOwner_terminal h.id t⟩

theorem ValidTask.deleteRunnable_eq (h : ValidTask rec) : deleteTaskRunnableIndexInBatch rec =
    [Write.del (taskReadyIndexKey rec), Write.del (taskWaitIndexKey rec)] := if_neg h.id

theorem ValidTask.deleteTerminal_eq (h : ValidTask rec)
    (hterm : isTaskTerminalState rec.taskState = true) :
    deleteTaskTerminalIndexInBatch rec = [Write.del (taskTerminalIndexKey rec)] := by
  obtain ⟨t, -, hkey⟩ := h.terminal hterm
  refine if_neg ?_
  rintro (hnil | hnil)
  · exact h.id hnil
  · rw [hkey] at hnil
    simp [tiKVTaskTerminalKey] at hnil

/-- The deletions for a row cover the key that it asks for. -/
theorem ValidTask.mem_deletes (h : ValidTask rec) (hk : indexKeyOf waiting rec = some k) :
    ∃ w ∈ deleteTaskRunnableIndexInBatch rec ++ deleteTaskTerminalIndexInBatch rec, w.key = k := by
  rw [h.deleteRunnable_eq]
  rcases indexKeyOf_cases hk with ⟨-, rfl | rfl⟩ | ⟨hterm, rfl⟩
  · exact ⟨_, List.mem_append_left _ List.mem_cons_self, rfl⟩
  · exact ⟨_, List.mem_append_left _ (List.mem_cons_of_mem _ List.mem_cons_self), rfl⟩
  · rw [h.deleteTerminal_eq hterm]
    exact ⟨_, List.mem_append_right _ List.mem_cons_self, rfl⟩

/-- The insertions for a row are the key that it asks for at the time. -/
theorem ValidTask.puts_eq (h : ValidTask rec) (clock now : Time) :
    putTaskRunnableIndexInBatch clock rec now ++ putTaskTerminalIndexInBatch rec =
      ((indexKeyOf (decide (rec.scheduledAt > orNow now clock)) rec).map fun k =>
        (Write.set k .mark : KVWrite)).toList := by
  unfold putTaskRunnableIndexInBatch putTaskTerminalIndexInBatch indexKeyOf
  by_cases hrun : isTaskRunnableState rec.taskState = true
  · have hterm : isTaskTerminalState rec.taskState = false := by
      cases hstate : isTaskTerminalState rec.taskState with
      | false => rfl
      | true => simp [not_runnable_of_terminal hstate] at hrun
    by_cases hlate : rec.scheduledAt > orNow now clock <;> simp [h.id, hrun, hterm, hlate]
  · by_cases hterm : isTaskTerminalState rec.taskState = true
    · obtain ⟨t, ht, -⟩ := h.terminal hterm
      simp [h.id, hrun, hterm, ht]
    · simp [hrun, hterm]

/-- All index writes for a valid row are about its task. -/
theorem ValidTask.deletes_owner (h : ValidTask rec) {w : KVWrite}
    (hw : w ∈ deleteTaskRunnableIndexInBatch rec ++ deleteTaskTerminalIndexInBatch rec) :
    w.value = none ∧ TaskIndexKey w.key ∧ taskIndexOwner w.key = some rec.taskID := by
  rw [h.deleteRunnable_eq] at hw
  rcases List.mem_append.mp hw with hw | hw
  · simp only [List.mem_cons, List.not_mem_nil, or_false] at hw
    rcases hw with rfl | rfl
    · exact ⟨rfl, taskIndexKey_ready rec, h.owner_ready⟩
    · exact ⟨rfl, taskIndexKey_wait rec, h.owner_wait⟩
  · cases hterm : isTaskTerminalState rec.taskState with
    | false =>
      have hnone : taskTerminalIndexKey rec = [] := by
        simp [taskTerminalIndexKey, h.unfinished hterm]
      rw [deleteTaskTerminalIndexInBatch, if_pos (Or.inr hnone)] at hw
      simp at hw
    | true =>
      obtain ⟨t, -, hkey⟩ := h.terminal hterm
      rw [h.deleteTerminal_eq hterm, List.mem_singleton] at hw
      subst hw
      rw [Write.key_del, hkey]
      exact ⟨rfl, Or.inr (Or.inr (keyFamily_taskTerminal _ _)), taskIndexOwner_terminal h.id t⟩

theorem ValidTask.puts_owner (h : ValidTask rec) {clock now : Time} {w : KVWrite}
    (hw : w ∈ putTaskRunnableIndexInBatch clock rec now ++ putTaskTerminalIndexInBatch rec) :
    TaskIndexKey w.key ∧ taskIndexOwner w.key = some rec.taskID := by
  rw [h.puts_eq] at hw
  obtain ⟨k, hk, rfl⟩ := Option.map_eq_some_iff.mp (Option.mem_toList.mp hw)
  exact h.indexKeyOf_owner hk

end Keys

/-! ## Batches about one task -/

/-- A batch that touches the row and the index keys of one task, and otherwise deletes index
keys that nobody owns. -/
def About (id : GoString) (ws : List KVWrite) : Prop :=
  ∀ w ∈ ws, w.key = tiKVTaskKey id ∨
    (TaskIndexKey w.key ∧ (taskIndexOwner w.key = some id ∨
      (taskIndexOwner w.key = none ∧ w.value = none)))

theorem About.append {ws ws' : List KVWrite} (h : About id ws) (h' : About id ws') :
    About id (ws ++ ws') := by
  intro w hw
  rcases List.mem_append.mp hw with hw | hw
  · exact h w hw
  · exact h' w hw

theorem About.of_owner {ws : List KVWrite}
    (h : ∀ w ∈ ws, TaskIndexKey w.key ∧ taskIndexOwner w.key = some id) : About id ws :=
  fun w hw => Or.inr ⟨(h w hw).1, Or.inl (h w hw).2⟩

theorem not_taskIndexKey_task (id : GoString) : ¬ TaskIndexKey (tiKVTaskKey id) := by
  unfold TaskIndexKey
  rw [keyFamily_task]
  decide

theorem About.taskRow {ws : List KVWrite} (h : About id ws) {id' : GoString} (hne : id' ≠ id) :
    taskRow (s.applyAll ws) id' = taskRow s id' := by
  unfold TaskCoherence.taskRow
  rw [SortedMap.get?_applyAll_of_untouched]
  intro w hw hk
  rcases h w hw with hkey | ⟨hindex, -⟩
  · exact hne (tiKVTaskKey_inj.mp (hk.symm.trans hkey))
  · exact not_taskIndexKey_task id' (hk ▸ hindex)

theorem About.get_index {ws : List KVWrite} (h : About id ws) {k id' : GoString} (hne : id' ≠ id)
    (hk : TaskIndexKey k) (hown : taskIndexOwner k = some id') :
    (s.applyAll ws).get? k = s.get? k := by
  apply SortedMap.get?_applyAll_of_untouched
  rintro w hw rfl
  rcases h w hw with hkey | ⟨-, howner | ⟨howner, -⟩⟩
  · rw [hkey] at hk
    exact not_taskIndexKey_task id hk
  · rw [hown] at howner
    exact hne (Option.some.inj howner)
  · rw [hown] at howner
    cases howner

/-- A batch about one task keeps the invariant when it leaves that task indexed. -/
theorem Indexed.batch (h : Indexed s) (id : GoString) {ws : List KVWrite}
    (hrows : WriteRows AnyID ws) (habout : About id ws)
    (hvalid : ∀ rec, taskRow (s.applyAll ws) id = some rec → ValidTask rec) (waiting : Bool)
    (hat : IndexedAt (s.applyAll ws) id waiting) : Indexed (s.applyAll ws) where
  rows := h.rows.applyAll hrows
  valid := by
    intro id' rec hrec
    by_cases hid : id' = id
    · subst hid
      exact hvalid rec hrec
    · rw [habout.taskRow hid] at hrec
      exact h.valid hrec
  unowned := by
    intro k hk hown
    cases hget : (s.applyAll ws).get? k with
    | none => rfl
    | some x =>
      rcases SortedMap.get?_applyAll_cases hget with hmem | hold
      · rcases habout _ hmem with hkey | ⟨-, howner | ⟨-, hnone⟩⟩
        · rw [Write.key_set] at hkey
          exact absurd (hkey ▸ hk) (not_taskIndexKey_task id)
        · rw [Write.key_set, hown] at howner
          cases howner
        · cases hnone
      · rw [h.unowned hk hown] at hold
        cases hold
  indexed := by
    intro id'
    by_cases hid : id' = id
    · subst hid
      exact ⟨waiting, hat⟩
    · obtain ⟨w', hw'⟩ := h.indexed id'
      refine ⟨w', ?_⟩
      intro k hk hown
      rw [habout.get_index hid hk hown, habout.taskRow hid]
      exact hw' k hk hown

theorem taskRow_applyAll_index {ws : List KVWrite} (h : ∀ w ∈ ws, TaskIndexKey w.key) :
    taskRow (s.applyAll ws) id = taskRow s id := by
  unfold taskRow
  rw [SortedMap.get?_applyAll_of_untouched]
  rintro w hw hk
  exact not_taskIndexKey_task id (hk ▸ h w hw)

/-- Replace the row of a task and its index keys: deletions that cover the key of the old row, a
write of the row, and the key that the new row asks for. -/
theorem Indexed.replace (h : Indexed s) {dels mid : List KVWrite} {next : Option TaskRecord}
    {waiting : Bool}
    (hdels : ∀ w ∈ dels, w.value = none ∧ TaskIndexKey w.key ∧ taskIndexOwner w.key = some id)
    (hcover : ∀ rec w k, taskRow s id = some rec → indexKeyOf w rec = some k →
      ∃ w ∈ dels, w.key = k)
    (hmid : ∀ w ∈ mid, w.key = tiKVTaskKey id ∧ ∀ x, w.value = some x → RowAt AnyID w.key x)
    (hrow : taskRow ((s.applyAll dels).applyAll mid) id = next)
    (hvalid : ∀ rec, next = some rec → ValidTask rec ∧ rec.taskID = id) :
    Indexed (s.applyAll (dels ++ mid ++ ((next.bind (indexKeyOf waiting)).map fun k =>
      (Write.set k .mark : KVWrite)).toList)) := by
  have hputs : ∀ w ∈ ((next.bind (indexKeyOf waiting)).map fun k =>
      (Write.set k .mark : KVWrite)).toList, ∃ rec k, next = some rec ∧
        indexKeyOf waiting rec = some k ∧ w = Write.set k .mark ∧ TaskIndexKey k ∧
        taskIndexOwner k = some id := by
    intro w hw
    obtain ⟨k, hk, rfl⟩ := Option.map_eq_some_iff.mp (Option.mem_toList.mp hw)
    obtain ⟨rec, hnext, hk⟩ := Option.bind_eq_some_iff.mp hk
    obtain ⟨hv, hid⟩ := hvalid rec hnext
    obtain ⟨hindex, hown⟩ := hv.indexKeyOf_owner hk
    exact ⟨rec, k, hnext, hk, rfl, hindex, hid ▸ hown⟩
  have hrow' : taskRow (s.applyAll (dels ++ mid ++ ((next.bind (indexKeyOf waiting)).map fun k =>
      (Write.set k .mark : KVWrite)).toList)) id = next := by
    rw [SortedMap.applyAll_append, taskRow_applyAll_index, SortedMap.applyAll_append, hrow]
    intro w hw
    obtain ⟨rec, k, -, -, rfl, hindex, -⟩ := hputs w hw
    exact hindex
  refine h.batch id ?_ ?_ ?_ waiting ?_
  · intro w hw x hx
    rcases List.mem_append.mp hw with hw | hw
    · rcases List.mem_append.mp hw with hw | hw
      · rw [(hdels w hw).1] at hx
        cases hx
      · exact (hmid w hw).2 x hx
    · obtain ⟨rec, k, -, -, rfl, hindex, -⟩ := hputs w hw
      cases hx
      exact hindex
  · refine About.append (About.append ?_ ?_) ?_
    · exact fun w hw => Or.inr ⟨(hdels w hw).2.1, Or.inl (hdels w hw).2.2⟩
    · exact fun w hw => Or.inl (hmid w hw).1
    · intro w hw
      obtain ⟨rec, k, -, -, rfl, hindex, hown⟩ := hputs w hw
      exact Or.inr ⟨hindex, Or.inl hown⟩
  · intro rec hrec
    exact (hvalid rec (hrow' ▸ hrec)).1
  · intro k hk hown
    obtain ⟨w, hat⟩ := h.indexed id
    rw [SortedMap.isSome_deletes_puts (fun w hw => (hdels w hw).1) ?_ ?_ ?_, hrow']
    · constructor
      · rintro ⟨w, hw, rfl⟩
        obtain ⟨rec, k, hnext, hkey, rfl, -, -⟩ := hputs w hw
        exact ⟨rec, hnext, hkey⟩
      · rintro ⟨rec, hnext, hkey⟩
        exact ⟨Write.set k .mark, by simp [hnext, hkey], rfl⟩
    · rintro w hw rfl
      rw [(hmid w hw).1] at hk
      exact not_taskIndexKey_task id hk
    · intro w hw
      obtain ⟨rec, k, -, -, rfl, -⟩ := hputs w hw
      simp
    · intro hsome
      obtain ⟨rec, hrec, hkey⟩ := (hat k hk hown).mp hsome
      exact hcover rec w k hrec hkey

/-! ## The batches of the operations -/

section Operations

variable {clock now : Time}

/-- The deletions for the row of a task, if it has one. -/
def rowDeletes (prev : Option TaskRecord) : List KVWrite :=
  match prev with
  | none => []
  | some prev => deleteTaskRunnableIndexInBatch prev ++ deleteTaskTerminalIndexInBatch prev

theorem Indexed.rowDeletes_owner (h : Indexed s) {w : KVWrite}
    (hw : w ∈ rowDeletes (taskRow s id)) :
    w.value = none ∧ TaskIndexKey w.key ∧ taskIndexOwner w.key = some id := by
  cases hrow : taskRow s id with
  | none => simp [rowDeletes, hrow] at hw
  | some rec =>
    rw [hrow] at hw
    have := (h.valid hrow).deletes_owner hw
    rwa [h.taskID hrow] at this

theorem Indexed.rowDeletes_cover (h : Indexed s) {waiting : Bool} {k : GoString}
    (hrow : taskRow s id = some rec) (hk : indexKeyOf waiting rec = some k) :
    ∃ w ∈ rowDeletes (taskRow s id), w.key = k := by
  rw [hrow]
  exact (h.valid hrow).mem_deletes hk

/-- A row is written over the row that was read. -/
theorem Indexed.taskRecordBatch (h : Indexed s) {next : TaskRecord} (hnext : ValidTask next) :
    Indexed (s.applyAll (taskRecordBatch clock (taskRow s next.taskID) next now)) := by
  have heq : Meta.taskRecordBatch clock (taskRow s next.taskID) next now =
      rowDeletes (taskRow s next.taskID) ++
      [Write.set (tiKVTaskKey next.taskID) (.task next)] ++
      (((some next).bind (indexKeyOf (decide (next.scheduledAt >
        orNow (orNow now clock) clock)))).map fun k => (Write.set k .mark : KVWrite)).toList := by
    rw [Option.bind_some, ← hnext.puts_eq, ← List.append_assoc]
    unfold Meta.taskRecordBatch rowDeletes
    cases taskRow s next.taskID <;> rfl
  rw [heq]
  refine h.replace (fun w hw => h.rowDeletes_owner hw) (fun rec w k hr hk => h.rowDeletes_cover hr hk)
    ?_ ?_ ?_
  · intro w hw
    rw [List.mem_singleton] at hw
    subst hw
    refine ⟨rfl, ?_⟩
    intro x hx
    cases hx
    rfl
  · unfold taskRow
    simp [SortedMap.get?_apply, Value.asTask]
  · rintro rec hrec
    cases hrec
    exact ⟨hnext, rfl⟩

/-- The index keys of a row are rebuilt from the row, after deletions that cover the old key. -/
theorem Indexed.reindex (h : Indexed s) (hrow : taskRow s id = some rec) {dels : List KVWrite}
    (hdels : ∀ w ∈ dels, w.value = none ∧ TaskIndexKey w.key ∧ taskIndexOwner w.key = some id)
    (hcover : ∀ w k, indexKeyOf w rec = some k → ∃ w ∈ dels, w.key = k) :
    Indexed (s.applyAll (dels ++ (putTaskRunnableIndexInBatch clock rec now ++
      putTaskTerminalIndexInBatch rec))) ∧
    About id (dels ++ (putTaskRunnableIndexInBatch clock rec now ++
      putTaskTerminalIndexInBatch rec)) := by
  have hvalid := h.valid hrow
  have hid := h.taskID hrow
  refine ⟨?_, (About.of_owner fun w hw => (hdels w hw).2).append
    (About.of_owner fun w hw => hid ▸ hvalid.puts_owner hw)⟩
  have heq : dels ++ (putTaskRunnableIndexInBatch clock rec now ++ putTaskTerminalIndexInBatch rec) =
      dels ++ [] ++ (((some rec).bind (indexKeyOf (decide (rec.scheduledAt > orNow now clock)))).map
        fun k => (Write.set k .mark : KVWrite)).toList := by
    rw [Option.bind_some, ← hvalid.puts_eq, List.append_nil]
  rw [heq]
  refine h.replace hdels ?_ (fun w hw => by simp at hw) ?_ ?_
  · intro rec' w k hrec' hk
    cases hrow.symm.trans hrec'
    exact hcover w k hk
  · rw [SortedMap.applyAll_nil, taskRow_applyAll_index fun w hw => (hdels w hw).2.1, hrow]
  · rintro rec' hrec'
    cases hrec'
    exact ⟨hvalid, hid⟩

theorem Indexed.rewrite (h : Indexed s) (hrow : taskRow s id = some rec) :
    Indexed (s.applyAll (deleteTaskRunnableIndexInBatch rec ++ deleteTaskTerminalIndexInBatch rec ++
      putTaskRunnableIndexInBatch clock rec now ++ putTaskTerminalIndexInBatch rec)) := by
  have hvalid := h.valid hrow
  rw [List.append_assoc (_ ++ _)]
  refine (h.reindex hrow ?_ fun w k hk => hvalid.mem_deletes hk).1
  intro w hw
  exact h.taskID hrow ▸ hvalid.deletes_owner hw

/-- The claim: the row becomes RUNNING and loses its runnable keys. -/
theorem Indexed.claim (h : Indexed s) (hrow : taskRow s id = some rec)
    (hrun : isTaskRunnableState rec.taskState = true) {raw : GoString} (hindex : TaskIndexKey raw)
    (hown : taskIndexOwner raw = some id) :
    Indexed (s.applyAll ([Write.set (tiKVTaskKey id) (.task (claimedRecord rec now)), Write.del raw,
      Write.del (taskReadyIndexKey rec), Write.del (taskWaitIndexKey rec)])) := by
  have hvalid := h.valid hrow
  have hid := h.taskID hrow
  have hdels : ∀ w ∈ ([Write.del raw, Write.del (taskReadyIndexKey rec),
      Write.del (taskWaitIndexKey rec)] : List KVWrite),
      w.value = none ∧ TaskIndexKey w.key ∧ taskIndexOwner w.key = some id := by
    intro w hw
    simp only [List.mem_cons, List.not_mem_nil, or_false] at hw
    rcases hw with rfl | rfl | rfl
    · exact ⟨rfl, hindex, hown⟩
    · exact ⟨rfl, taskIndexKey_ready rec, hid ▸ hvalid.owner_ready⟩
    · exact ⟨rfl, taskIndexKey_wait rec, hid ▸ hvalid.owner_wait⟩
  have hrow' : taskRow (s.applyAll ([Write.set (tiKVTaskKey id) (.task (claimedRecord rec now)),
      Write.del raw, Write.del (taskReadyIndexKey rec), Write.del (taskWaitIndexKey rec)])) id =
      some (claimedRecord rec now) := by
    rw [SortedMap.applyAll_cons, taskRow_applyAll_index fun w hw => (hdels w hw).2.1]
    unfold taskRow
    simp [SortedMap.get?_apply, Value.asTask]
  refine h.batch id ?_ ?_ ?_ false ?_
  · intro w hw x hx
    rcases List.mem_cons.mp hw with rfl | hw
    · cases hx
      exact congrArg tiKVTaskKey hid.symm
    · rw [(hdels w hw).1] at hx
      cases hx
  · intro w hw
    rcases List.mem_cons.mp hw with rfl | hw
    · exact Or.inl rfl
    · exact Or.inr ⟨(hdels w hw).2.1, Or.inl (hdels w hw).2.2⟩
  · intro rec' hrec'
    rw [hrow'] at hrec'
    cases hrec'
    exact ⟨hvalid.id, hvalid.type, rfl⟩
  · intro k hk hkown
    rw [hrow']
    constructor
    · intro hsome
      classical
      rw [SortedMap.applyAll_cons, SortedMap.get?_applyAll_deletes fun w hw => (hdels w hw).1] at hsome
      split at hsome
      · cases hsome
      · rename_i hnot
        have hkey : tiKVTaskKey id ≠ k := by
          rintro rfl
          exact not_taskIndexKey_task id hk
        rw [SortedMap.get?_apply, Write.key_set, if_neg hkey] at hsome
        obtain ⟨waiting, hat⟩ := h.indexed id
        obtain ⟨rec', hrec', hkey'⟩ := (hat k hk hkown).mp hsome
        cases hrow.symm.trans hrec'
        rcases indexKeyOf_cases hkey' with ⟨-, rfl | rfl⟩ | ⟨hterm, -⟩
        · exact absurd ⟨Write.del (taskReadyIndexKey rec), by simp, rfl⟩ hnot
        · exact absurd ⟨Write.del (taskWaitIndexKey rec), by simp, rfl⟩ hnot
        · rw [not_runnable_of_terminal hterm] at hrun
          cases hrun
    · rintro ⟨rec', hrec', hkey⟩
      cases hrec'
      cases hkey

/-- A key of the wait index is replaced by the key that its row asks for now. -/
theorem Indexed.promote (h : Indexed s) {waitKey : GoString} {x : Value}
    (hfam : keyFamily waitKey = lit "task_wait") (hget : s.get? waitKey = some x) :
    ∃ id rec, taskIndexOwner waitKey = some id ∧ taskRow s id = some rec ∧
      Indexed (s.applyAll ([Write.del waitKey] ++
        (deleteTaskRunnableIndexInBatch rec ++ putTaskRunnableIndexInBatch clock rec now))) ∧
      About id ([Write.del waitKey] ++
        (deleteTaskRunnableIndexInBatch rec ++ putTaskRunnableIndexInBatch clock rec now)) := by
  have hwait : TaskIndexKey waitKey := Or.inr (Or.inl hfam)
  obtain ⟨id, rec, waiting, hown, hrow, hkey⟩ := h.present hwait hget
  have hvalid := h.valid hrow
  have hid := h.taskID hrow
  have hrun : isTaskRunnableState rec.taskState = true := by
    rcases indexKeyOf_cases hkey with ⟨hrun, -⟩ | ⟨hterm, hk⟩
    · exact hrun
    · obtain ⟨t, -, hk'⟩ := hvalid.terminal hterm
      rw [hk, hk', keyFamily_taskTerminal] at hfam
      exact absurd hfam (by decide)
  have hterm : putTaskTerminalIndexInBatch rec = [] := by
    unfold putTaskTerminalIndexInBatch
    rw [if_pos]
    cases hstate : isTaskTerminalState rec.taskState with
    | false => exact Or.inr (Or.inl rfl)
    | true =>
      rw [not_runnable_of_terminal hstate] at hrun
      cases hrun
  have heq : [Write.del waitKey] ++
      (deleteTaskRunnableIndexInBatch rec ++ putTaskRunnableIndexInBatch clock rec now) =
      ([Write.del waitKey] ++ deleteTaskRunnableIndexInBatch rec) ++
        (putTaskRunnableIndexInBatch clock rec now ++ putTaskTerminalIndexInBatch rec) := by
    rw [hterm, List.append_nil, List.append_assoc]
  refine ⟨id, rec, hown, hrow, ?_⟩
  rw [heq]
  refine h.reindex hrow ?_ ?_
  · intro w hw
    rcases List.mem_append.mp hw with hw | hw
    · rw [List.mem_singleton] at hw
      subst hw
      exact ⟨rfl, hwait, hown⟩
    · exact hid ▸ hvalid.deletes_owner (List.mem_append_left _ hw)
  · intro w k hk
    rw [hvalid.deleteRunnable_eq]
    rcases indexKeyOf_cases hk with ⟨-, rfl | rfl⟩ | ⟨hstate, -⟩
    · exact ⟨Write.del (taskReadyIndexKey rec), by simp, rfl⟩
    · exact ⟨Write.del (taskWaitIndexKey rec), by simp, rfl⟩
    · rw [not_runnable_of_terminal hstate] at hrun
      cases hrun

/-- A key of the terminal index stays, or goes with its row. -/
theorem Indexed.purge (h : Indexed s) {key : GoString} {x : Value} (cutoff : Int)
    (hfam : keyFamily key = lit "task_terminal") (hget : s.get? key = some x) :
    ∃ id rec, taskIndexOwner key = some id ∧ taskRow s id = some rec ∧
      Indexed (s.applyAll (purgeStep clock now cutoff key id rec).1) ∧
      About id (purgeStep clock now cutoff key id rec).1 := by
  have hindex : TaskIndexKey key := Or.inr (Or.inr hfam)
  obtain ⟨id, rec, waiting, hown, hrow, hkey⟩ := h.present hindex hget
  have hvalid := h.valid hrow
  have hid := h.taskID hrow
  obtain ⟨hterm, hk⟩ : isTaskTerminalState rec.taskState = true ∧ key = taskTerminalIndexKey rec := by
    rcases indexKeyOf_cases hkey with ⟨-, rfl | rfl⟩ | hterm
    · rw [taskReadyIndexKey, keyFamily_taskReady] at hfam
      exact absurd hfam (by decide)
    · rw [taskWaitIndexKey, keyFamily_taskWait] at hfam
      exact absurd hfam (by decide)
    · exact hterm
  have hdel : ∀ w ∈ ([Write.del key] : List KVWrite),
      w.value = none ∧ TaskIndexKey w.key ∧ taskIndexOwner w.key = some id := by
    intro w hw
    rw [List.mem_singleton] at hw
    subst hw
    exact ⟨rfl, hindex, hown⟩
  refine ⟨id, rec, hown, hrow, ?_⟩
  unfold purgeStep
  obtain ⟨t, ht, -⟩ := hvalid.terminal hterm
  rw [if_neg (by simp [hterm, ht])]
  split
  · -- too young: the key is put back
    have hrun : putTaskRunnableIndexInBatch clock rec now = [] :=
      if_pos (Or.inr (not_runnable_of_terminal hterm))
    have hcover : ∀ w k, indexKeyOf w rec = some k →
        ∃ w ∈ ([Write.del key] : List KVWrite), w.key = k := by
      intro w k hk'
      rcases indexKeyOf_cases hk' with ⟨hstate, -⟩ | ⟨-, rfl⟩
      · rw [not_runnable_of_terminal hterm] at hstate
        cases hstate
      · exact ⟨Write.del key, List.mem_singleton_self _, hk⟩
    have := @Indexed.reindex s id rec clock now h hrow _ hdel hcover
    rwa [hrun, List.nil_append] at this
  · have hdels : ∀ w ∈ ([Write.del key] ++ deleteTaskRunnableIndexInBatch rec ++
        deleteTaskTerminalIndexInBatch rec : List KVWrite),
        w.value = none ∧ TaskIndexKey w.key ∧ taskIndexOwner w.key = some id := by
      intro w hw
      rw [List.append_assoc] at hw
      rcases List.mem_append.mp hw with hw | hw
      · exact hdel w hw
      · exact hid ▸ hvalid.deletes_owner hw
    have hgone : About id ([Write.del (tiKVTaskKey id)] : List KVWrite) := by
      intro w hw
      rw [List.mem_singleton] at hw
      subst hw
      exact Or.inl rfl
    refine ⟨?_, (About.of_owner fun w hw => (hdels w hw).2).append hgone⟩
    rw [← List.append_nil (_ ++ [Write.del (tiKVTaskKey id)])]
    refine @Indexed.replace s id h _ _ none false hdels ?_ ?_ ?_ ?_
    · intro rec' w k hrec' hk'
      cases hrow.symm.trans hrec'
      obtain ⟨w, hw, hwk⟩ := hvalid.mem_deletes hk'
      rw [List.append_assoc]
      exact ⟨w, List.mem_append_right _ hw, hwk⟩
    · intro w hw
      rw [List.mem_singleton] at hw
      subst hw
      refine ⟨rfl, ?_⟩
      intro x hx
      cases hx
    · unfold taskRow
      simp [SortedMap.get?_apply]
    · intro rec' hrec'
      cases hrec'

end Operations

end TieredStore.Meta.TaskCoherence
