import TieredStore.Meta.Closed
import TieredStore.Meta.TaskCoherence

/-!
# Runs of the task operations

Every task operation that runs alone keeps the rows and their index keys together
(`Keeps`). The claim works key by key on the store itself. Promotion and purge walk over a
scan of the store and collect one batch: `Walk` says that the part of the batch collected so far
keeps the invariant and has not touched the tasks whose keys are still to come.
-/

namespace TieredStore.Meta.TaskCoherence

open Lib Lib.Prog

variable {s : Store} {id : GoString} {rec : TaskRecord} {clock now : Time}

/-! ## Programs that keep the invariant -/

/-- Nothing but the invariant is asked of a step. -/
abbrev soloIndexed : Monitor KVOp KVRes Store := solo Indexed fun _ _ => True

theorem keeps_getTaskRecord {β : Type} {f : Option TaskRecord → KV β}
    {Q : Except GoError β → Store → Prop} (hs : Indexed s)
    (hf : (f (taskRow s id)).Obeys soloIndexed Q s) :
    (getTaskRecord (tiKVTaskKey id) >>= f).Obeys soloIndexed Q s :=
  solo_getJSON hs (hs.get_task id) (fun _ => rfl) hf

/-! ## Single rows -/

section Rows

variable {o ty : GoString} {v priority : Int}

theorem keeps_writeTaskRecord (hs : Indexed s) {next : TaskRecord} {prev : Option TaskRecord}
    (hprev : taskRow s next.taskID = prev) (hnext : next.taskID ≠ [] → ValidTask next) :
    (writeTaskRecordWithRunnableIndexLocked clock prev next now).Obeys soloIndexed
      (fun _ s' => Indexed s') s := by
  unfold writeTaskRecordWithRunnableIndexLocked
  split
  · exact hs
  · rename_i hid
    subst hprev
    exact keeps_commit (hs.taskRecordBatch (hnext hid))

theorem validTask_newTask (hty : slash ∉ ty) (hid : id ≠ []) (at' : Time) :
    ValidTask (newTask id o v ty priority at') := ⟨hid, hty, rfl⟩

theorem keeps_enqueueTieringTask (hty : slash ∉ ty) (at' : Time) :
    Keeps Indexed (enqueueTieringTask clock now id o v ty priority at') := by
  intro s hs
  unfold enqueueTieringTask
  split
  · exact hs
  · refine keeps_getTaskRecord hs ?_
    cases hrow : taskRow s id with
    | some rec => exact hs
    | none => exact keeps_writeTaskRecord hs hrow fun hid => validTask_newTask hty hid _

theorem keeps_enqueueOrRequeue (hty : slash ∉ ty) :
    Keeps Indexed (enqueueOrRequeue clock now id o v ty priority) := by
  intro s hs
  unfold enqueueOrRequeue
  refine keeps_getTaskRecord hs ?_
  cases hrow : taskRow s id with
  | none =>
    exact keeps_answer (keeps_writeTaskRecord hs hrow fun hid => validTask_newTask hty hid _)
  | some rec =>
    have hvalid := hs.valid hrow
    have hid := hs.taskID hrow
    dsimp only
    split
    · exact keeps_answer (keeps_writeTaskRecord hs (hid ▸ hrow) fun _ =>
        ⟨hvalid.id, hvalid.type, rfl⟩)
    · exact keeps_answer (keeps_writeTaskRecord hs (hid ▸ hrow) fun _ =>
        ⟨hvalid.id, hvalid.type, rfl⟩)
    · exact hs

/-- An update keeps the identity of a row and sets the finish time of a finished one. -/
def UpdatesState (update : TaskRecord → Option TaskRecord) : Prop :=
  ∀ rec next, update rec = some next → next.taskID = rec.taskID ∧ next.taskType = rec.taskType ∧
    next.finishedAt.isSome = isTaskTerminalState next.taskState

theorem keeps_updateTask {update : TaskRecord → Option TaskRecord} (hu : UpdatesState update) :
    Keeps Indexed (updateTask clock now id update) := by
  intro s hs
  unfold updateTask
  refine keeps_getTaskRecord hs ?_
  cases hrow : taskRow s id with
  | none => exact hs
  | some rec =>
    dsimp only
    cases hnext : update rec with
    | none => exact hs
    | some next =>
      obtain ⟨hid, hty, hfin⟩ := hu rec next hnext
      have hvalid := hs.valid hrow
      refine keeps_answer (keeps_writeTaskRecord hs ?_ fun hne => ⟨hne, hty ▸ hvalid.type, hfin⟩)
      rw [hid, hs.taskID hrow, hrow]

theorem keeps_requeueTieringTaskNow : Keeps Indexed (requeueTieringTaskNow clock now id) := by
  unfold requeueTieringTaskNow
  split
  · exact keeps_pure _
  · refine keeps_updateTask ?_
    intro rec next h
    dsimp only at h
    split at h <;> cases h <;> exact ⟨rfl, rfl, rfl⟩

theorem keeps_cancelTieringTask (reason : GoString) :
    Keeps Indexed (cancelTieringTask clock now id reason) := by
  unfold cancelTieringTask
  split
  · exact keeps_pure _
  · refine keeps_updateTask ?_
    intro rec next h
    dsimp only at h
    split at h <;> cases h <;> exact ⟨rfl, rfl, rfl⟩

theorem keeps_markTieringTaskDone : Keeps Indexed (markTieringTaskDone clock now id) := by
  refine Keeps.bind (keeps_updateTask ?_) fun _ => keeps_pure _
  rintro rec next ⟨⟩
  exact ⟨rfl, rfl, rfl⟩

theorem keeps_markTieringTaskRetry (lastErr : GoString) (nextRunAt : Time) :
    Keeps Indexed (markTieringTaskRetry clock now id lastErr nextRunAt) := by
  refine Keeps.bind (keeps_updateTask ?_) fun _ => keeps_pure _
  rintro rec next ⟨⟩
  exact ⟨rfl, rfl, rfl⟩

theorem keeps_markTieringTaskFailed (lastErr : GoString) :
    Keeps Indexed (markTieringTaskFailed clock now id lastErr) := by
  refine Keeps.bind (keeps_updateTask ?_) fun _ => keeps_pure _
  rintro rec next ⟨⟩
  exact ⟨rfl, rfl, rfl⟩

end Rows

/-! ## Walks over an index -/

section Walks

variable {fam pre : GoString} {e : GoString × Value} {es : List (GoString × Value)}
  {ops : List KVWrite}

/-- A walk over the entries `es` of an index of `s` that has collected the batch `ops`: the batch
keeps the invariant, and it leaves alone the tasks whose entries are still to come. -/
structure Walk (s : Store) (fam : GoString) (es : List (GoString × Value)) (ops : List KVWrite) :
    Prop where
  indexed : Indexed (s.applyAll ops)
  entry : ∀ e ∈ es, keyFamily e.1 = fam ∧ (s.applyAll ops).get? e.1 = some e.2
  row : ∀ e ∈ es, ∀ id, taskIndexOwner e.1 = some id →
    taskRow (s.applyAll ops) id = taskRow s id
  owners : es.Pairwise fun a b => taskIndexOwner a.1 ≠ taskIndexOwner b.1

/-- No two index keys of a store have the same owner. -/
theorem Indexed.owner_inj (h : Indexed s) {k k' : GoString} {x x' : Value} (hk : TaskIndexKey k)
    (hk' : TaskIndexKey k') (hget : s.get? k = some x) (hget' : s.get? k' = some x')
    (hown : taskIndexOwner k = taskIndexOwner k') : k = k' := by
  obtain ⟨id, rec, -, hid, hrow, -⟩ := h.present hk hget
  obtain ⟨waiting, hat⟩ := h.indexed id
  obtain ⟨r, hr, hkey⟩ := (hat k hk hid).mp (by rw [hget]; rfl)
  obtain ⟨r', hr', hkey'⟩ := (hat k' hk' (hown ▸ hid)).mp (by rw [hget']; rfl)
  cases hr.symm.trans hr'
  exact Option.some.inj (hkey.symm.trans hkey')

theorem Walk.start (h : Indexed s) (hfam : ∀ k, keyFamily k = fam → TaskIndexKey k)
    (hpre : ∀ k, pre <+: k → keyFamily k = fam) : Walk s fam (prefixEntries s pre) [] where
  indexed := h
  entry := by
    rintro ⟨k, x⟩ he
    obtain ⟨hget, hk⟩ := mem_prefixEntries.mp he
    exact ⟨hpre k hk, hget⟩
  row := fun _ _ _ _ => rfl
  owners := by
    refine List.Pairwise.imp_of_mem ?_ (prefixEntries_sorted s pre)
    rintro ⟨k, x⟩ ⟨k', x'⟩ he he' hlt hown
    obtain ⟨hget, hk⟩ := mem_prefixEntries.mp he
    obtain ⟨hget', hk'⟩ := mem_prefixEntries.mp he'
    have := h.owner_inj (hfam k (hpre k hk)) (hfam k' (hpre k' hk')) hget hget' hown
    exact absurd (this ▸ hlt) (lt_irrefl _)

theorem Walk.step (h : Walk s fam (e :: es) ops) (hfam : ∀ k, keyFamily k = fam → TaskIndexKey k)
    (hown : taskIndexOwner e.1 = some id) {ws : List KVWrite}
    (hindexed : Indexed ((s.applyAll ops).applyAll ws)) (habout : About id ws) :
    Walk s fam es (ops ++ ws) := by
  obtain ⟨hne, howners⟩ := List.pairwise_cons.mp h.owners
  rw [hown] at hne
  have hother : ∀ e' ∈ es, ∀ id', taskIndexOwner e'.1 = some id' → id' ≠ id := by
    rintro e' he' id' hid' rfl
    exact hne e' he' hid'.symm
  refine ⟨by rwa [SortedMap.applyAll_append], ?_, ?_, howners⟩
  · intro e' he'
    obtain ⟨hkey, hget⟩ := h.entry e' (List.mem_cons_of_mem _ he')
    obtain ⟨id', -, -, hid', -⟩ := h.indexed.present (hfam _ hkey) hget
    rw [SortedMap.applyAll_append, habout.get_index (hother e' he' id' hid') (hfam _ hkey) hid']
    exact ⟨hkey, hget⟩
  · intro e' he' id' hid'
    rw [SortedMap.applyAll_append, habout.taskRow (hother e' he' id' hid')]
    exact h.row e' (List.mem_cons_of_mem _ he') id' hid'

/-- What a walk over the scan of `s` answers: a batch that keeps the invariant of `s`. -/
def Collects (s : Store) (x : Except GoError (Int × List KVWrite)) (s' : Store) : Prop :=
  s' = s ∧ ∀ n ws, x = .ok (n, ws) → Indexed (s.applyAll ws)

theorem collects_ok {n : Int} (h : Indexed (s.applyAll ops)) :
    Collects s (.ok (n, ops)) s := by
  refine ⟨rfl, ?_⟩
  rintro n ws ⟨⟩
  exact h

theorem keeps_collected {p : KV (Int × List KVWrite)} (hp : p.Obeys soloIndexed (Collects s) s)
    (hs : Indexed s) : (p >>= fun r => KV.commit r.2 >>= fun _ => pure r.1).Obeys soloIndexed
      (fun _ s' => Indexed s') s := by
  refine hp.bind ?_ ?_
  · rintro e s' ⟨rfl, -⟩
    exact hs
  · rintro ⟨n, ws⟩ s' ⟨rfl, hws⟩
    exact keeps_answer (keeps_commit (hws n ws rfl))

theorem taskIndexKey_of_wait (k : GoString) (h : keyFamily k = lit "task_wait") : TaskIndexKey k :=
  Or.inr (Or.inl h)

theorem taskIndexKey_of_terminal (k : GoString) (h : keyFamily k = lit "task_terminal") :
    TaskIndexKey k := Or.inr (Or.inr h)

theorem promoteWaitingLoop_collects (hs : Indexed s) {maxPromote : Int} {touched : Int}
    (h : Walk s (lit "task_wait") es ops) :
    (promoteWaitingLoop clock now maxPromote es touched ops).Obeys soloIndexed (Collects s) s := by
  induction es generalizing touched ops with
  | nil => exact collects_ok h.indexed
  | cons e rest ih =>
    obtain ⟨waitKey, x⟩ := e
    obtain ⟨hfam, hget⟩ := h.entry _ List.mem_cons_self
    obtain ⟨id, rec, hown, hrow, hindexed, habout⟩ :=
      @Indexed.promote _ clock now h.indexed _ _ hfam hget
    have hstep := h.step taskIndexKey_of_wait hown hindexed habout
    have hfound : taskRow s id = some rec := (h.row _ List.mem_cons_self id hown).symm.trans hrow
    rw [taskIndexOwner_of_wait hfam] at hown
    unfold promoteWaitingLoop
    cases hparse : tiKVParseTaskWaitKey waitKey with
    | none =>
      rw [hparse] at hown
      cases hown
    | some parsed =>
      obtain ⟨at', ty, id'⟩ := parsed
      rw [hparse] at hown
      cases hown
      dsimp only
      split
      · exact collects_ok h.indexed
      · refine keeps_getTaskRecord hs ?_
        rw [hfound]
        dsimp only
        rw [List.append_assoc ops]
        split
        · exact collects_ok hstep.indexed
        · exact ih hstep

theorem keeps_promoteDueWaitingTasksLocked (maxPromote : Int) :
    Keeps Indexed (promoteDueWaitingTasksLocked clock now maxPromote) := by
  intro s hs
  unfold promoteDueWaitingTasksLocked
  refine solo_iter hs ?_
  refine keeps_collected (promoteWaitingLoop_collects hs (Walk.start hs taskIndexKey_of_wait ?_)) hs
  intro k hk
  exact keyFamily_eq (by decide) hk

theorem keeps_promoteRounds {adaptiveMax : Int} (rounds : Nat) (limit : Int) :
    Keeps Indexed (promoteRounds clock now adaptiveMax rounds limit) := by
  induction rounds generalizing limit with
  | zero => exact keeps_pure _
  | succ rounds ih =>
    refine (keeps_promoteDueWaitingTasksLocked limit).bind fun promoted => ?_
    split
    · exact keeps_pure _
    · exact ih _

theorem purgeLoop_collects (hs : Indexed s) {cutoff limit purged : Int}
    (h : Walk s (lit "task_terminal") es ops) :
    (purgeLoop clock now cutoff limit es purged ops).Obeys soloIndexed (Collects s) s := by
  induction es generalizing purged ops with
  | nil => exact collects_ok h.indexed
  | cons e rest ih =>
    obtain ⟨key, x⟩ := e
    obtain ⟨hfam, hget⟩ := h.entry _ List.mem_cons_self
    obtain ⟨id, rec, hown, hrow, hindexed, habout⟩ :=
      @Indexed.purge _ clock now h.indexed _ _ cutoff hfam hget
    have hstep := h.step taskIndexKey_of_terminal hown hindexed habout
    have hfound : taskRow s id = some rec := (h.row _ List.mem_cons_self id hown).symm.trans hrow
    rw [taskIndexOwner_of_terminal hfam] at hown
    unfold purgeLoop
    cases hparse : tiKVParseTaskTerminalKey key with
    | none =>
      rw [hparse] at hown
      cases hown
    | some parsed =>
      obtain ⟨at', id'⟩ := parsed
      rw [hparse] at hown
      cases hown
      dsimp only
      split
      · exact collects_ok h.indexed
      · refine keeps_getTaskRecord hs ?_
        rw [hfound]
        dsimp only
        split
        · split
          · exact collects_ok hstep.indexed
          · exact ih hstep
        · exact ih hstep

theorem keeps_purgeTerminalTieringTasks (olderThan : Time) (limit : Int) :
    Keeps Indexed (purgeTerminalTieringTasks clock now olderThan limit) := by
  intro s hs
  unfold purgeTerminalTieringTasks
  split
  · exact hs
  · refine solo_iter hs ?_
    refine keeps_collected (purgeLoop_collects hs (Walk.start hs taskIndexKey_of_terminal ?_)) hs
    intro k hk
    exact keyFamily_eq (by decide) hk

end Walks

/-! ## The claim -/

section Claim

variable {raw ty : GoString}

theorem taskIndexKey_of_ready (k : GoString) (h : keyFamily k = lit "task_ready") : TaskIndexKey k :=
  Or.inl h

/-- Deleting an index key without a row behind it does nothing. -/
theorem keeps_delete {α : Type} {f : Unit → KV α} (hs : Indexed s) {k : GoString}
    (hk : TaskIndexKey k) (hno : ∀ id, taskIndexOwner k = some id → taskRow s id = none)
    (hf : (f ()).Obeys soloIndexed (fun _ s' => Indexed s') s) :
    (KV.delete k >>= f).Obeys soloIndexed (fun _ s' => Indexed s') s := by
  have hsame : s.applyAll [Write.del k] = s := by
    apply SortedMap.applyAll_absent
    intro w hw
    rw [List.mem_singleton] at hw
    subst hw
    exact ⟨rfl, hs.absent hk hno⟩
  refine solo_commit ?_ trivial ?_
  · rwa [hsame]
  · rwa [hsame]

theorem keeps_tryClaimTaskCAS {f : Option TaskRecord → KV (Option TaskRecord)} (hs : Indexed s)
    (hrow : taskRow s id = some rec) (hfam : keyFamily raw = lit "task_ready")
    (hown : taskIndexOwner raw = some id) (hf : ∀ r, Keeps Indexed (f r)) :
    (tryClaimTaskCAS clock raw ty id now >>= f).Obeys soloIndexed (fun _ s' => Indexed s') s := by
  have hid : rec.taskID ≠ [] := (hs.valid hrow).id
  have hraw : raw ≠ [] := by
    rintro rfl
    exact absurd hfam (by decide)
  have hnamed : namedRecord id rec = rec := by
    unfold namedRecord
    rw [if_neg hid]
  unfold tryClaimTaskCAS
  split
  · exact hf _ s hs
  · have heff := @claimTxn_effect_row s raw ty id (orNow now clock) rec
      (taskRow_eq_some.mp hrow)
    rw [hnamed] at heff
    rw [bind_assoc]
    by_cases hclaim : claimable ty (orNow now clock) rec = false
    · rw [if_pos hclaim] at heff
      exact solo_txn_attempt heff hs trivial (hf _ _ hs)
    · rw [if_neg hclaim, claimWrites, if_pos hraw] at heff
      have hrun : isTaskRunnableState rec.taskState = true := by
        rw [Bool.not_eq_false, claimable, decide_eq_true_eq] at hclaim
        exact hclaim.2.1
      have hnext := @Indexed.claim s id rec (orNow now clock) hs hrow hrun raw
        (taskIndexKey_of_ready raw hfam) hown
      exact solo_txn_attempt heff hnext trivial (hf _ _ hnext)

theorem keeps_claimReadyLoop {taskType : GoString} {es : List (GoString × Value)}
    (hes : ∀ e ∈ es, keyFamily e.1 = lit "task_ready") :
    Keeps Indexed (claimReadyLoop clock now taskType es) := by
  induction es with
  | nil => exact keeps_pure _
  | cons e rest ih =>
    obtain ⟨readyKey, x⟩ := e
    have hfam : keyFamily readyKey = lit "task_ready" := hes _ List.mem_cons_self
    have hrest := ih fun e he => hes e (List.mem_cons_of_mem _ he)
    have hown := taskIndexOwner_of_ready hfam
    intro s hs
    unfold claimReadyLoop
    cases hparse : tiKVParseTaskReadyKey readyKey with
    | none =>
      refine keeps_delete hs (Or.inl hfam) ?_ (hrest s hs)
      intro id hid
      rw [hown, hparse] at hid
      cases hid
    | some parsed =>
      obtain ⟨at', indexedType, id⟩ := parsed
      rw [hparse, Option.map_some] at hown
      dsimp only
      split
      · exact hrest s hs
      · refine keeps_getTaskRecord hs ?_
        cases hrow : taskRow s id with
        | none =>
          refine keeps_delete hs (Or.inl hfam) ?_ (hrest s hs)
          intro id' hid'
          cases hown.symm.trans hid'
          exact hrow
        | some rec =>
          dsimp only
          split
          · exact Obeys.bind (keeps_commit (hs.rewrite hrow)) (fun _ _ h => h) fun _ s' h => hrest s' h
          · refine keeps_tryClaimTaskCAS hs hrow hfam hown ?_
            rintro (_ | task)
            · exact hrest
            · exact keeps_pure _

theorem keeps_claimNextTieringTask (cfg : Config) (taskType : GoString) :
    Keeps Indexed (claimNextTieringTask cfg clock now taskType) := by
  unfold claimNextTieringTask
  refine (keeps_promoteRounds _ _).bind fun _ => ?_
  intro s hs
  refine solo_iter hs (keeps_claimReadyLoop ?_ s hs)
  rintro ⟨k, x⟩ he
  exact keyFamily_eq (by decide) (mem_prefixEntries.mp he).2

end Claim

/-! ## The inserts of the scanner -/

section Migration

/-- Writes outside of the tasks and their indexes keep the invariant. -/
theorem Indexed.other (h : Indexed s) {ws : List KVWrite} (hrows : WriteRows AnyID ws)
    (hother : ∀ w ∈ ws, keyFamily w.key ≠ lit "task" ∧ ¬ TaskIndexKey w.key) :
    Indexed (s.applyAll ws) := by
  have hrow : ∀ id, taskRow (s.applyAll ws) id = taskRow s id := by
    intro id
    unfold taskRow
    rw [SortedMap.get?_applyAll_of_untouched]
    intro w hw hk
    exact (hother w hw).1 (hk ▸ keyFamily_task id)
  have hindex : ∀ k, TaskIndexKey k → (s.applyAll ws).get? k = s.get? k := by
    intro k hk
    apply SortedMap.get?_applyAll_of_untouched
    rintro w hw rfl
    exact (hother w hw).2 hk
  refine ⟨h.rows.applyAll hrows, ?_, ?_, ?_⟩
  · intro id rec hrec
    rw [hrow] at hrec
    exact h.valid hrec
  · intro k hk hown
    rw [hindex k hk]
    exact h.unowned hk hown
  · intro id
    obtain ⟨waiting, hat⟩ := h.indexed id
    refine ⟨waiting, ?_⟩
    intro k hk hown
    rw [hindex k hk, hrow]
    exact hat k hk hown

theorem keeps_removeTieringDueIndexByVersion (o : GoString) (v : Int) :
    Keeps Indexed (removeTieringDueIndexByVersion o v) := by
  intro s hs
  obtain ⟨ref, hget, href⟩ := hs.rows.tierDueRef_found o v
  refine keeps_dueRemoval hs hget (hs.other (writeRows_deletes fun w hw => dueRemoval_value hw) ?_)
  intro w hw
  rcases dueRemoval_families href hw with h | h <;> exact not_or.mp (not_taskKey h (by decide))

theorem keeps_enqueueMigration (c : TieringCandidate) : Keeps Indexed (enqueueMigration clock now c) := by
  have hhead : ∀ n : Int, Keeps Indexed (markPending now c n) := by
    intro n s hs
    obtain ⟨found, hget, hid⟩ := hs.rows.object_found c.objectID
    refine keeps_markPending hs hget (fun obj hobj => hs.other (writeRows_singleton ?_) ?_) n
    · exact ⟨congrArg tiKVObjectKey (hid obj hobj).symm, trivial⟩
    · refine List.forall_mem_singleton.mpr ?_
      exact not_or.mp (not_taskKey (keyFamily_object c.objectID) (by decide))
  have hrest := fun n => (keeps_removeTieringDueIndexByVersion c.objectID c.version).bind fun _ =>
    hhead n
  intro s hs
  unfold enqueueMigration
  refine keeps_getTaskRecord hs ?_
  split
  · exact hrest 0 s hs
  · rename_i hrow
    exact Obeys.bind (keeps_writeTaskRecord hs hrow fun hid => validTask_newTask (by decide) hid now)
      (fun _ _ h => h) fun _ s' h => hrest 1 s' h

end Migration

/-! ## Reachable stores -/

/-- The operations on tasks. Task types have no slash; times are arbitrary. -/
inductive Operation : {α : Type} → KV α → Prop where
  | enqueue (clock now : Time) (id o : GoString) (v : Int) {ty : GoString} (hty : slash ∉ ty)
      (priority : Int) (scheduledAt : Time) :
      Operation (enqueueTieringTask clock now id o v ty priority scheduledAt)
  | claim (cfg : Config) (clock now : Time) (taskType : GoString) :
      Operation (claimNextTieringTask cfg clock now taskType)
  | markDone (clock now : Time) (id : GoString) : Operation (markTieringTaskDone clock now id)
  | markRetry (clock now : Time) (id lastErr : GoString) (nextRunAt : Time) :
      Operation (markTieringTaskRetry clock now id lastErr nextRunAt)
  | markFailed (clock now : Time) (id lastErr : GoString) :
      Operation (markTieringTaskFailed clock now id lastErr)
  | requeue (clock now : Time) (id : GoString) : Operation (requeueTieringTaskNow clock now id)
  | cancel (clock now : Time) (id reason : GoString) :
      Operation (cancelTieringTask clock now id reason)
  | purge (clock now olderThan : Time) (limit : Int) :
      Operation (purgeTerminalTieringTasks clock now olderThan limit)
  | repair (clock now : Time) (id o : GoString) (v : Int) :
      Operation (enqueueRepairTask clock now id o v)
  | oldVersion (clock now : Time) (id o : GoString) (v : Int) :
      Operation (enqueueOrRequeueOldVersionGCTask clock now id o v)
  | migration (clock now : Time) (c : TieringCandidate) : Operation (enqueueMigration clock now c)

/-- The stores reached from the empty one by operations under the mutex of the store. -/
inductive Reachable : Store → Prop where
  | empty : Reachable SortedMap.empty
  | operation {s : Store} {α : Type} {p : KV α} (h : Reachable s) (hp : Operation p) :
      Reachable (atomically p s).2

theorem Operation.keeps {α : Type} {p : KV α} (hp : Operation p) : Keeps Indexed p := by
  cases hp with
  | enqueue clock now id o v hty priority scheduledAt => exact keeps_enqueueTieringTask hty _
  | claim cfg clock now taskType => exact keeps_claimNextTieringTask cfg taskType
  | markDone clock now id => exact keeps_markTieringTaskDone
  | markRetry clock now id lastErr nextRunAt => exact keeps_markTieringTaskRetry _ _
  | markFailed clock now id lastErr => exact keeps_markTieringTaskFailed _
  | requeue clock now id => exact keeps_requeueTieringTaskNow
  | cancel clock now id reason => exact keeps_cancelTieringTask _
  | purge clock now olderThan limit => exact keeps_purgeTerminalTieringTasks _ _
  | repair clock now id o v => exact keeps_enqueueOrRequeue (by decide)
  | oldVersion clock now id o v => exact keeps_enqueueOrRequeue (by decide)
  | migration clock now c => exact keeps_enqueueMigration c

theorem Reachable.indexed (h : Reachable s) : Indexed s := by
  induction h with
  | empty => exact indexed_empty
  | operation _ hp ih => exact hp.keeps.run ih

/-! ## The index keys of a task -/

/-- The keys of the ready and the wait index that name a task. -/
def runnableIndexKeys (s : Store) (id : GoString) : List GoString :=
  (s.entries.map (·.1)).filter fun k =>
    (tiKVTaskReadyPrefix <+: k ∨ tiKVTaskWaitPrefix <+: k) ∧ taskIndexOwner k = some id

/-- The keys of the terminal index that name a task. -/
def terminalIndexKeys (s : Store) (id : GoString) : List GoString :=
  (s.entries.map (·.1)).filter fun k =>
    tiKVTaskTerminalPrefix <+: k ∧ taskIndexOwner k = some id

theorem nodup_keys (s : Store) : (s.entries.map (·.1)).Nodup :=
  (List.pairwise_map.mpr s.sorted).imp fun h => ne_of_lt h

theorem mem_keys {k : GoString} : k ∈ s.entries.map (·.1) ↔ (s.get? k).isSome := by
  rw [List.mem_map, Option.isSome_iff_exists]
  constructor
  · rintro ⟨⟨k, x⟩, he, rfl⟩
    exact ⟨x, SortedMap.mem_entries.mp he⟩
  · rintro ⟨x, hx⟩
    exact ⟨(k, x), SortedMap.mem_entries.mpr hx, rfl⟩

theorem eq_singleton_of_mem {l : List GoString} {k : GoString} (hl : l.Nodup)
    (h : ∀ k', k' ∈ l ↔ k' = k) : l = [k] :=
  List.perm_singleton.mp ((List.perm_ext_iff_of_nodup hl (List.nodup_singleton k)).mpr fun k' => by
    rw [h, List.mem_singleton])

theorem ready_scan (rec : TaskRecord) : tiKVTaskReadyPrefix <+: taskReadyIndexKey rec := by
  unfold taskReadyIndexKey tiKVTaskReadyKey
  simp only [List.append_assoc]
  exact List.prefix_append _ _

theorem wait_scan (rec : TaskRecord) : tiKVTaskWaitPrefix <+: taskWaitIndexKey rec := by
  unfold taskWaitIndexKey tiKVTaskWaitKey
  simp only [List.append_assoc]
  exact List.prefix_append _ _

theorem terminal_scan (t : Time) (id : GoString) :
    tiKVTaskTerminalPrefix <+: tiKVTaskTerminalKey t id := by
  unfold tiKVTaskTerminalKey
  simp only [List.append_assoc]
  exact List.prefix_append _ _

section IndexKeys

variable {waiting : Bool} {k : GoString}

theorem mem_runnableIndexKeys (h : Indexed s) (hat : IndexedAt s id waiting) :
    k ∈ runnableIndexKeys s id ↔ ∃ rec, taskRow s id = some rec ∧
      isTaskRunnableState rec.taskState = true ∧ indexKeyOf waiting rec = some k := by
  unfold runnableIndexKeys
  rw [List.mem_filter, mem_keys, decide_eq_true_eq]
  constructor
  · rintro ⟨hsome, hscan, hown⟩
    have hfam : keyFamily k = lit "task_ready" ∨ keyFamily k = lit "task_wait" :=
      hscan.imp (keyFamily_eq (by decide)) (keyFamily_eq (by decide))
    obtain ⟨rec, hrec, hkey⟩ := (hat k (hfam.imp_right Or.inl) hown).mp hsome
    rcases indexKeyOf_cases hkey with ⟨hrun, -⟩ | ⟨hterm, rfl⟩
    · exact ⟨rec, hrec, hrun, hkey⟩
    · obtain ⟨t, -, hk⟩ := (h.valid hrec).terminal hterm
      rw [hk, keyFamily_taskTerminal] at hfam
      exact absurd hfam (by decide)
  · rintro ⟨rec, hrec, hrun, hkey⟩
    obtain ⟨hindex, hown⟩ := (h.valid hrec).indexKeyOf_owner hkey
    rw [h.taskID hrec] at hown
    refine ⟨(hat k hindex hown).mpr ⟨rec, hrec, hkey⟩, ?_, hown⟩
    rcases indexKeyOf_cases hkey with ⟨-, rfl | rfl⟩ | ⟨hterm, -⟩
    · exact Or.inl (ready_scan rec)
    · exact Or.inr (wait_scan rec)
    · rw [not_runnable_of_terminal hterm] at hrun
      cases hrun

theorem mem_terminalIndexKeys (h : Indexed s) (hat : IndexedAt s id waiting) :
    k ∈ terminalIndexKeys s id ↔ ∃ rec, taskRow s id = some rec ∧
      isTaskTerminalState rec.taskState = true ∧ indexKeyOf waiting rec = some k := by
  unfold terminalIndexKeys
  rw [List.mem_filter, mem_keys, decide_eq_true_eq]
  constructor
  · rintro ⟨hsome, hscan, hown⟩
    have hfam : keyFamily k = lit "task_terminal" := keyFamily_eq (by decide) hscan
    obtain ⟨rec, hrec, hkey⟩ := (hat k (taskIndexKey_of_terminal k hfam) hown).mp hsome
    rcases indexKeyOf_cases hkey with ⟨-, rfl | rfl⟩ | ⟨hterm, -⟩
    · rw [taskReadyIndexKey, keyFamily_taskReady] at hfam
      exact absurd hfam (by decide)
    · rw [taskWaitIndexKey, keyFamily_taskWait] at hfam
      exact absurd hfam (by decide)
    · exact ⟨rec, hrec, hterm, hkey⟩
  · rintro ⟨rec, hrec, hterm, hkey⟩
    obtain ⟨hindex, hown⟩ := (h.valid hrec).indexKeyOf_owner hkey
    rw [h.taskID hrec] at hown
    refine ⟨(hat k hindex hown).mpr ⟨rec, hrec, hkey⟩, ?_, hown⟩
    rcases indexKeyOf_cases hkey with ⟨hrun, -⟩ | ⟨-, rfl⟩
    · rw [not_runnable_of_terminal hterm] at hrun
      cases hrun
    · obtain ⟨t, -, hk⟩ := (h.valid hrec).terminal hterm
      rw [hk]
      exact terminal_scan t _

/-- The keys of a task are those that its row asks for. -/
theorem Indexed.indexKeys (h : Indexed s) (hrow : taskRow s id = some rec) : ∃ waiting : Bool,
    runnableIndexKeys s id = (if isTaskRunnableState rec.taskState then
      [if waiting then taskWaitIndexKey rec else taskReadyIndexKey rec] else []) ∧
    terminalIndexKeys s id = (if isTaskTerminalState rec.taskState then
      [taskTerminalIndexKey rec] else []) := by
  obtain ⟨waiting, hat⟩ := h.indexed id
  refine ⟨waiting, ?_, ?_⟩
  · split
    · rename_i hrun
      refine eq_singleton_of_mem ((nodup_keys s).filter _) ?_
      intro k
      have hkey : indexKeyOf waiting rec =
          some (if waiting then taskWaitIndexKey rec else taskReadyIndexKey rec) := if_pos hrun
      rw [mem_runnableIndexKeys h hat]
      simp only [hrow, Option.some.injEq, exists_eq_left', hrun, hkey, true_and]
      exact eq_comm
    · rename_i hrun
      refine List.eq_nil_iff_forall_not_mem.mpr ?_
      intro k hk
      obtain ⟨rec', hrec', hrun', -⟩ := (mem_runnableIndexKeys h hat).mp hk
      cases hrow.symm.trans hrec'
      exact hrun hrun'
  · split
    · rename_i hterm
      refine eq_singleton_of_mem ((nodup_keys s).filter _) ?_
      intro k
      have hkey : indexKeyOf waiting rec = some (taskTerminalIndexKey rec) := by
        unfold indexKeyOf
        rw [not_runnable_of_terminal hterm, if_neg (by decide), if_pos hterm]
      rw [mem_terminalIndexKeys h hat]
      simp only [hrow, Option.some.injEq, exists_eq_left', hterm, hkey, true_and]
      exact eq_comm
    · rename_i hterm
      refine List.eq_nil_iff_forall_not_mem.mpr ?_
      intro k hk
      obtain ⟨rec', hrec', hterm', -⟩ := (mem_terminalIndexKeys h hat).mp hk
      cases hrow.symm.trans hrec'
      exact hterm hterm'

end IndexKeys

/-- In every reachable store a PENDING or RETRY_WAIT row has exactly one key in the ready and wait
indexes, built from its type, priority and schedule, and no terminal key; a RUNNING row has no
index key; a DONE or FAILED row has exactly the terminal key of its finish time. Every key of the
three indexes is the key of such a row. -/
theorem reachable_index_coherent (h : Reachable s) :
    (∀ id rec, s.get? (tiKVTaskKey id) = some (.task rec) →
      (rec.taskState = .pending ∨ rec.taskState = .retryWait →
        (runnableIndexKeys s id = [tiKVTaskReadyKey rec.taskType rec.priority rec.scheduledAt id] ∨
          runnableIndexKeys s id = [tiKVTaskWaitKey rec.taskType rec.scheduledAt id]) ∧
        terminalIndexKeys s id = []) ∧
      (rec.taskState = .running → runnableIndexKeys s id = [] ∧ terminalIndexKeys s id = []) ∧
      (rec.taskState = .done ∨ rec.taskState = .failed → runnableIndexKeys s id = [] ∧
        ∃ t, rec.finishedAt = some t ∧ terminalIndexKeys s id = [tiKVTaskTerminalKey t id])) ∧
    ∀ k x, s.get? k = some x → tiKVTaskReadyPrefix <+: k ∨ tiKVTaskWaitPrefix <+: k ∨
        tiKVTaskTerminalPrefix <+: k →
      ∃ id rec, s.get? (tiKVTaskKey id) = some (.task rec) ∧
        k ∈ runnableIndexKeys s id ++ terminalIndexKeys s id := by
  have hs := h.indexed
  constructor
  · intro id rec hget
    have hrow := taskRow_eq_some.mpr hget
    obtain ⟨waiting, hrunnable, hterminal⟩ := hs.indexKeys hrow
    have hid := hs.taskID hrow
    refine ⟨?_, ?_, ?_⟩
    · intro hstate
      have hrun : isTaskRunnableState rec.taskState = true := by
        rcases hstate with hstate | hstate <;> rw [hstate] <;> rfl
      have hterm : isTaskTerminalState rec.taskState = false := by
        rcases hstate with hstate | hstate <;> rw [hstate] <;> rfl
      rw [hrunnable, hterminal, hrun, hterm]
      subst hid
      cases waiting
      · exact ⟨Or.inl rfl, rfl⟩
      · exact ⟨Or.inr rfl, rfl⟩
    · intro hstate
      rw [hrunnable, hterminal, hstate]
      exact ⟨rfl, rfl⟩
    · intro hstate
      have hterm : isTaskTerminalState rec.taskState = true := by
        rcases hstate with hstate | hstate <;> rw [hstate] <;> rfl
      obtain ⟨t, ht, hk⟩ := (hs.valid hrow).terminal hterm
      rw [hrunnable, hterminal, not_runnable_of_terminal hterm, hterm, hk, hid]
      exact ⟨rfl, t, ht, rfl⟩
  · intro k x hget hscan
    have hindex : TaskIndexKey k := hscan.imp (keyFamily_eq (by decide))
      (Or.imp (keyFamily_eq (by decide)) (keyFamily_eq (by decide)))
    obtain ⟨id, -, -, hown, -, -⟩ := hs.present hindex hget
    obtain ⟨waiting, hat⟩ := hs.indexed id
    obtain ⟨rec, hrow, hkey⟩ := (hat k hindex hown).mp (by rw [hget]; rfl)
    refine ⟨id, rec, taskRow_eq_some.mp hrow, List.mem_append.mpr ?_⟩
    rcases indexKeyOf_cases hkey with ⟨hrun, -⟩ | ⟨hterm, -⟩
    · exact Or.inl ((mem_runnableIndexKeys hs hat).mpr ⟨rec, hrow, hrun, hkey⟩)
    · exact Or.inr ((mem_terminalIndexKeys hs hat).mpr ⟨rec, hrow, hterm, hkey⟩)

/-! ## A run: one task finishes, one waits -/

/-- Two tasks are enqueued, the first is claimed and finishes, the second is put off. -/
def workedStore : Store :=
  let s := (atomically (enqueueTieringTask 5 5 (lit "repl2ec:a:7") (lit "a") 7 (lit "REPL_TO_EC") 100 5)
    SortedMap.empty).2
  let s := (atomically (enqueueRepairTask 6 6 (lit "repair-repl:b:3") (lit "b") 3) s).2
  let s := (atomically (claimNextTieringTask {} 8 8 (lit "REPL_TO_EC")) s).2
  let s := (atomically (markTieringTaskDone 9 9 (lit "repl2ec:a:7")) s).2
  (atomically (markTieringTaskRetry 9 9 (lit "repair-repl:b:3") (lit "no nodes") 20) s).2

theorem reachable_workedStore : Reachable workedStore :=
  ((((Reachable.empty.operation
    (.enqueue 5 5 _ (lit "a") 7 (by decide) 100 5)).operation
    (.repair 6 6 _ (lit "b") 3)).operation
    (.claim {} 8 8 _)).operation
    (.markDone 9 9 _)).operation
    (.markRetry 9 9 _ _ 20)

theorem workedStore_done : workedStore.get? (tiKVTaskKey (lit "repl2ec:a:7")) =
    some (.task ⟨lit "repl2ec:a:7", lit "a", 7, lit "REPL_TO_EC", .done, 100, 0, none, 5, some 8,
      some 9⟩) := by
  decide +kernel

theorem reachable_index_coherent_worked :
    runnableIndexKeys workedStore (lit "repl2ec:a:7") = [] ∧ ∃ t, some 9 = some t ∧
      terminalIndexKeys workedStore (lit "repl2ec:a:7") = [tiKVTaskTerminalKey t (lit "repl2ec:a:7")] :=
  ((reachable_index_coherent reachable_workedStore).1 _ _ workedStore_done).2.2 (Or.inl rfl)

end TieredStore.Meta.TaskCoherence
