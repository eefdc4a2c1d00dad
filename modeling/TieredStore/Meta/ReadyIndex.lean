import TieredStore.Meta.Promotion

/-!
# Stale keys of the ready index

A claim that meets a ready key whose row cannot be claimed rebuilds the index keys of the row. It
recomputes them from the row and does not delete the key it has met, so a key from an earlier
state of the row, with another priority, schedule or type, survives (`stale_key_survives`). Keys
that are malformed or name no row are deleted, and so is the ready key of a row that may not run:
`claim_heals_iff` says that a claim that finds no task leaves only keys of due tasks exactly when
no key was stale in this sense before.

Promotion and claim change ready keys in one way only (`Heals`): a key that they write or delete
is not stale, and what is left there is the key of a due task.
-/

namespace TieredStore.Meta.ReadyIndex

open Lib Lib.Prog TaskCoherence TaskMoves TaskScans Promotion

/-! ## Keys and their rows -/

/-- The row that a ready key names. -/
def named (s : Store) (k : GoString) : Option TaskRecord :=
  (tiKVParseTaskReadyKey k).bind fun parts => taskRow s parts.2.2

/-- A key that names a row and is not the ready key of the row. -/
def Stale (s : Store) (k : GoString) : Prop :=
  ∃ rec, named s k = some rec ∧ k ≠ taskReadyIndexKey rec

/-- The ready key of a row that may run now. -/
def Proper (now : Time) (s : Store) (k : GoString) : Prop :=
  ∃ id rec, taskRow s id = some rec ∧ isTaskRunnableState rec.taskState = true ∧
    rec.scheduledAt ≤ now ∧ k = taskReadyIndexKey rec

def AllValid (s : Store) : Prop := ∀ {id rec}, taskRow s id = some rec → ValidTask rec

/-- A step that keeps the rows and, of the ready keys, touches those that are not stale. -/
structure Heals (now : Time) (s s' : Store) : Prop where
  rows : Rows (fun _ => True) s'
  same : ∀ id, taskRow s' id = taskRow s id
  ready : ∀ k, tiKVTaskReadyPrefix <+: k → s'.get? k = s.get? k ∨
    (¬ Stale s k ∧ ((s'.get? k).isSome → Proper now s k))

section Steps

variable {s s' s'' : Store} {now clock : Time} {k id : GoString} {rec : TaskRecord}

theorem named_congr (h : ∀ id, taskRow s' id = taskRow s id) (k : GoString) :
    named s' k = named s k := by
  unfold named
  simp only [h]

theorem Heals.stale (h : Heals now s s') (k : GoString) : Stale s' k ↔ Stale s k := by
  unfold Stale
  rw [named_congr h.same]

theorem Heals.proper (h : Heals now s s') (k : GoString) : Proper now s' k ↔ Proper now s k := by
  unfold Proper
  simp only [h.same]

theorem Heals.valid (h : Heals now s s') (hvalid : AllValid s) : AllValid s' :=
  fun hrow => hvalid (h.same _ ▸ hrow)

theorem heals_refl (hs : Rows (fun _ => True) s) : Heals now s s :=
  ⟨hs, fun _ => rfl, fun _ _ => Or.inl rfl⟩

theorem Heals.trans (h : Heals now s s') (h' : Heals now s' s'') : Heals now s s'' where
  rows := h'.rows
  same := fun id => (h'.same id).trans (h.same id)
  ready := by
    intro k hk
    rcases h'.ready k hk with heq' | ⟨hstale', hproper'⟩
    · rw [heq']
      exact h.ready k hk
    · exact Or.inr ⟨(h.stale k).not.mp hstale', fun hsome => (h.proper k).mp (hproper' hsome)⟩

/-- The ready key of a row is not stale. -/
theorem not_stale_ready (hs : Rows (fun _ => True) s) (hvalid : AllValid s)
    (hrow : taskRow s id = some rec) : ¬ Stale s (taskReadyIndexKey rec) := by
  rintro ⟨rec', hnamed, hne⟩
  have hv := hvalid hrow
  have hparse : tiKVParseTaskReadyKey (taskReadyIndexKey rec) = _ :=
    tiKVParseTaskReadyKey_build hv.type hv.id rec.priority rec.scheduledAt
  unfold named at hnamed
  rw [hparse, Option.bind_some, row_taskID hs hrow, hrow] at hnamed
  cases hnamed
  exact hne rfl

/-- A batch on index keys that touches no stale ready key. -/
structure HealBatch (now : Time) (s : Store) (ws : List KVWrite) : Prop where
  index : IndexBatch ws
  ready : ∀ w ∈ ws, tiKVTaskReadyPrefix <+: w.key →
    ¬ Stale s w.key ∧ (w.value.isSome → Proper now s w.key)

theorem HealBatch.append {ws ws' : List KVWrite} (h : HealBatch now s ws)
    (h' : HealBatch now s ws') : HealBatch now s (ws ++ ws') :=
  ⟨h.index.append h'.index, fun w hw =>
    (List.mem_append.mp hw).elim (h.ready w) (h'.ready w)⟩

theorem healBatch_nil : HealBatch now s [] := ⟨indexBatch_nil, List.forall_mem_nil _⟩

/-- What a batch leaves at a ready key that it touches. -/
theorem HealBatch.touched {ws : List KVWrite} (h : HealBatch now s ws)
    (hk : tiKVTaskReadyPrefix <+: k) (hw : ∃ w ∈ ws, w.key = k)
    (hsome : ((s.applyAll ws).get? k).isSome) : Proper now s k := by
  obtain ⟨w, hw, hwk⟩ := hw
  obtain ⟨v, hv⟩ := Option.ne_none_iff_exists'.mp (SortedMap.lastWrite_ne_none hw hwk)
  obtain ⟨w', hw', hk', rfl⟩ := SortedMap.mem_of_lastWrite hv
  rw [SortedMap.get?_applyAll, hv] at hsome
  exact hk' ▸ (h.ready w' hw' (hk' ▸ hk)).2 hsome

theorem HealBatch.heals {ws : List KVWrite} (h : HealBatch now s ws)
    (hs : Rows (fun _ => True) s) : Heals now s (s.applyAll ws) where
  rows := hs.applyAll h.index.rows
  same := fun _ => taskRow_applyAll_index h.index.keys
  ready := by
    intro k hk
    by_cases hno : ∀ w ∈ ws, w.key ≠ k
    · exact Or.inl (SortedMap.get?_applyAll_of_untouched hno)
    · push Not at hno
      obtain ⟨w, hw, hwk⟩ := hno
      exact Or.inr ⟨hwk ▸ (h.ready w hw (hwk ▸ hk)).1, h.touched hk ⟨w, hw, hwk⟩⟩

theorem not_ready_of_family (h : keyFamily k ≠ lit "task_ready") : ¬ tiKVTaskReadyPrefix <+: k :=
  fun hk => h (keyFamily_eq (by decide) hk)

theorem not_ready_wait (rec : TaskRecord) : ¬ tiKVTaskReadyPrefix <+: taskWaitIndexKey rec :=
  not_ready_of_family (by rw [taskWaitIndexKey, keyFamily_taskWait]; decide)

/-- A batch on keys of other families. -/
theorem healBatch_of_family {ws : List KVWrite} (h : IndexBatch ws)
    (hfam : ∀ w ∈ ws, keyFamily w.key = lit "task_terminal") : HealBatch now s ws :=
  ⟨h, fun w hw hready => absurd hready (not_ready_of_family (by rw [hfam w hw]; decide))⟩

/-- A deleted key that is not stale. -/
theorem healBatch_del (hk : TaskIndexKey k) (h : tiKVTaskReadyPrefix <+: k → ¬ Stale s k) :
    HealBatch now s [Write.del k] := by
  refine ⟨indexBatch_del hk, fun w hw hready => ?_⟩
  cases List.mem_singleton.mp hw
  exact ⟨h hready, fun hsome => by cases hsome⟩

section Row

variable (hs : Rows (fun _ => True) s) (hvalid : AllValid s) (hrow : taskRow s id = some rec)
include hs hvalid hrow

theorem healBatch_deleteRunnable : HealBatch now s (deleteTaskRunnableIndexInBatch rec) := by
  rw [(hvalid hrow).deleteRunnable_eq]
  exact (healBatch_del (taskIndexKey_ready rec) fun _ => not_stale_ready hs hvalid hrow).append
    (healBatch_del (taskIndexKey_wait rec) fun h => absurd h (not_ready_wait rec))

theorem healBatch_putRunnable :
    HealBatch (orNow now clock) s (putTaskRunnableIndexInBatch clock rec now) := by
  refine ⟨indexBatch_putRunnable clock rec now, fun w hw hready => ?_⟩
  unfold putTaskRunnableIndexInBatch at hw
  split at hw
  · cases hw
  · rename_i hrun
    split at hw
    · cases List.mem_singleton.mp hw
      exact absurd hready (not_ready_wait rec)
    · rename_i hdue
      cases List.mem_singleton.mp hw
      refine ⟨not_stale_ready hs hvalid hrow, fun _ => ⟨id, rec, hrow, ?_, not_lt.mp hdue, rfl⟩⟩
      push Not at hrun
      simpa using hrun.2

end Row

theorem keyFamily_taskTerminalIndexKey {rec : TaskRecord} (h : rec.finishedAt ≠ none) :
    keyFamily (taskTerminalIndexKey rec) = lit "task_terminal" := by
  obtain ⟨t, ht⟩ := Option.ne_none_iff_exists'.mp h
  simp only [taskTerminalIndexKey, ht, keyFamily_taskTerminal]

theorem healBatch_deleteTerminal (rec : TaskRecord) :
    HealBatch now s (deleteTaskTerminalIndexInBatch rec) := by
  refine healBatch_of_family (indexBatch_deleteTerminal rec) fun w hw => ?_
  unfold deleteTaskTerminalIndexInBatch at hw
  split at hw
  · cases hw
  · rename_i hkey
    cases List.mem_singleton.mp hw
    refine keyFamily_taskTerminalIndexKey fun hnone => hkey (Or.inr ?_)
    simp only [taskTerminalIndexKey, hnone]

theorem healBatch_putTerminal (rec : TaskRecord) :
    HealBatch now s (putTaskTerminalIndexInBatch rec) := by
  refine healBatch_of_family (indexBatch_putTerminal rec) fun w hw => ?_
  unfold putTaskTerminalIndexInBatch at hw
  split at hw
  · cases hw
  · rename_i hkey
    cases List.mem_singleton.mp hw
    exact keyFamily_taskTerminalIndexKey fun hnone => hkey (Or.inr (Or.inr hnone))

/-! ## Promotion and claim -/

theorem orNow_orNow (now clock : Time) : orNow (orNow now clock) clock = orNow now clock := by
  unfold orNow
  split <;> simp_all

theorem promoted_heals (hs : Rows (fun _ => True) s) (hvalid : AllValid s)
    {done : List (GoString × Value)} (hdone : ∀ e ∈ done, tiKVTaskWaitPrefix <+: e.1) :
    Heals (orNow now clock) s (promoted clock now s done) := by
  refine HealBatch.heals ?_ hs
  induction done with
  | nil => exact healBatch_nil
  | cons e done ih =>
    rw [List.flatMap_cons]
    refine HealBatch.append ?_ (ih fun e he => hdone e (List.mem_cons_of_mem _ he))
    have hfam : keyFamily e.1 = lit "task_wait" :=
      keyFamily_eq (by decide) (hdone e List.mem_cons_self)
    unfold promoteWrites
    refine (healBatch_del (Or.inr (Or.inl hfam)) fun h =>
      absurd h (not_ready_of_family (by rw [hfam]; decide))).append ?_
    split
    · exact healBatch_nil
    · split
      · exact healBatch_nil
      · rename_i rec hrow
        have hput := @healBatch_putRunnable s (orNow now clock) clock _ rec hs hvalid hrow
        rw [orNow_orNow] at hput
        exact (healBatch_deleteRunnable hs hvalid hrow).append hput

/-- A claim of a row that may be claimed hands it out. -/
theorem atomically_tryClaimTaskCAS {β : Type} {raw ty : GoString} (hs : Rows (fun _ => True) s)
    (hrow : taskRow s id = some rec) (hid : id ≠ [])
    (hclaim : claimable ty (orNow now clock) rec = true) (f : Option TaskRecord → KV β) :
    atomically (tryClaimTaskCAS clock raw ty id now >>= f) s =
      atomically (f (some (claimedRecord rec (orNow now clock))))
        (s.applyAll (claimWrites raw id (orNow now clock) rec)) := by
  have hnamed : namedRecord id rec = rec := by
    unfold namedRecord
    rw [if_neg (row_taskID hs hrow ▸ hid)]
  have heff := @claimTxn_effect_row s raw ty id (orNow now clock) rec (taskRow_eq_some.mp hrow)
  rw [hnamed, if_neg (by rw [hclaim]; decide)] at heff
  unfold tryClaimTaskCAS
  rw [if_neg hid, bind_assoc]
  refine (atomically_attempt ?_ _).trans rfl
  rw [← bind_ret (KV.runInTxn _), atomically_txn heff]
  rfl

/-- The writes that rebuild the index keys of a row. -/
def rewriteWrites (clock : Time) (rec : TaskRecord) (now : Time) : List KVWrite :=
  deleteTaskRunnableIndexInBatch rec ++ deleteTaskTerminalIndexInBatch rec ++
    putTaskRunnableIndexInBatch clock rec now ++ putTaskTerminalIndexInBatch rec

theorem healBatch_rewrite (hs : Rows (fun _ => True) s) (hvalid : AllValid s)
    (hrow : taskRow s id = some rec) :
    HealBatch (orNow now clock) s (rewriteWrites clock rec now) :=
  (((healBatch_deleteRunnable hs hvalid hrow).append (healBatch_deleteTerminal rec)).append
    (healBatch_putRunnable hs hvalid hrow)).append (healBatch_putTerminal rec)

/-- A walk of the claim that ends without a task. Every key it meets is stale afterwards, or the
key of a due task, or gone. -/
theorem claimReadyLoop_heals {es : List (GoString × Value)} (hs : Rows (fun _ => True) s)
    (hvalid : AllValid s) (hnow : orNow now clock = now)
    (hes : ∀ e ∈ es, tiKVTaskReadyPrefix <+: e.1)
    (h : atomically (claimReadyLoop clock now [] es) s = (.ok none, s')) :
    Heals now s s' ∧ ∀ e ∈ es, (s'.get? e.1).isSome → Stale s e.1 ∨ Proper now s e.1 := by
  induction es generalizing s with
  | nil =>
    cases h
    exact ⟨heals_refl hs, List.forall_mem_nil _⟩
  | cons e es ih =>
    obtain ⟨k, x⟩ := e
    have hk : tiKVTaskReadyPrefix <+: k := hes _ List.mem_cons_self
    have hindex : TaskIndexKey k := Or.inl (keyFamily_eq (by decide) hk)
    -- one step that leaves at `k` nothing but a stale key or the key of a due task
    have hstep : ∀ s₁, Heals now s s₁ → ((s₁.get? k).isSome → Stale s k ∨ Proper now s k) →
        atomically (claimReadyLoop clock now [] es) s₁ = (.ok none, s') →
        Heals now s s' ∧ ∀ e ∈ (k, x) :: es, (s'.get? e.1).isSome →
          Stale s e.1 ∨ Proper now s e.1 := by
      intro s₁ h₁ hleft hrest
      obtain ⟨h₂, hall⟩ := ih h₁.rows (h₁.valid hvalid)
        (fun e he => hes e (List.mem_cons_of_mem _ he)) hrest
      refine ⟨h₁.trans h₂, List.forall_mem_cons.mpr ⟨fun hsome => ?_, fun e he hsome => ?_⟩⟩
      · rcases h₂.ready k hk with heq | ⟨-, hproper⟩
        · exact hleft (heq ▸ hsome)
        · exact Or.inr ((h₁.proper k).mp (hproper hsome))
      · exact (hall e he hsome).imp (h₁.stale e.1).mp (h₁.proper e.1).mp
    have hdelete : ¬ Stale s k →
        atomically (KV.delete k >>= fun _ => claimReadyLoop clock now [] es) s = (.ok none, s') →
        Heals now s s' ∧ ∀ e ∈ (k, x) :: es, (s'.get? e.1).isSome →
          Stale s e.1 ∨ Proper now s e.1 := by
      intro hfresh hrun
      refine hstep (s.applyAll [Write.del k]) ((healBatch_del hindex fun _ => hfresh).heals hs)
        (fun hsome => ?_) hrun
      simp [SortedMap.get?_apply] at hsome
    unfold claimReadyLoop at h
    cases hparse : tiKVParseTaskReadyKey k with
    | none =>
      rw [hparse] at h
      refine hdelete ?_ h
      rintro ⟨rec, hnamed, -⟩
      simp [named, hparse] at hnamed
    | some parts =>
      obtain ⟨t, ty, id⟩ := parts
      have hnamed : named s k = taskRow s id := by simp [named, hparse]
      rw [hparse] at h
      simp only [ne_eq, not_true_eq_false, false_and, if_false] at h
      rw [atomically_getTaskRecord hs] at h
      cases hrow : taskRow s id with
      | none =>
        rw [hrow] at h
        refine hdelete ?_ h
        rintro ⟨rec, hrec, -⟩
        rw [hnamed, hrow] at hrec
        cases hrec
      | some rec =>
        rw [hrow] at h
        dsimp only at h
        split at h
        · rename_i hclaim
          have hbatch := @healBatch_rewrite s now clock id rec hs hvalid hrow
          rw [hnow] at hbatch
          refine hstep _ (hbatch.heals hs) (fun hsome => ?_)
            ((run_bind_ok (atomically_commit _ s) _).symm.trans h)
          by_cases hown : k = taskReadyIndexKey rec
          · refine Or.inr (hbatch.touched hk ⟨Write.del (taskReadyIndexKey rec), ?_, hown.symm⟩
              hsome)
            simp [rewriteWrites, (hvalid hrow).deleteRunnable_eq]
          · exact Or.inl ⟨rec, hnamed.trans hrow, hown⟩
        · rename_i hclaim
          have hid : id ≠ [] := row_taskID hs hrow ▸ (hvalid hrow).id
          rw [atomically_tryClaimTaskCAS hs hrow hid (by rw [hnow]; simpa using hclaim)] at h
          cases h

/-- A claim of any type that finds no task leaves in the ready index only keys of due tasks exactly
when no key was stale before. -/
theorem claim_heals_iff (cfg : Config) (clock now : Time) {s s' : Store}
    (hs : Rows (fun _ => True) s) (hvalid : AllValid s)
    (hrun : atomically (claimNextTieringTask cfg clock now []) s = (.ok none, s')) :
    (∀ k, tiKVTaskReadyPrefix <+: k → (s'.get? k).isSome → Proper (orNow now clock) s' k) ↔
      ∀ k, tiKVTaskReadyPrefix <+: k → (s.get? k).isSome → ¬ Stale s k := by
  obtain ⟨s₁, hs₁, h₁, hrest⟩ := @atomically_promoteRounds (Option TaskRecord) s clock now
    (Heals (orNow now clock) s) (fun s₂ done hs₂ hdone h =>
      h.trans (promoted_heals hs₂ (h.valid hvalid) fun e he => (hdone e he).2)) hs
    (resolveTaskWaitPromotePlan cfg).adaptiveMax (heals_refl hs)
    (resolveTaskWaitPromotePlan cfg).burstRounds.toNat (resolveTaskWaitPromotePlan cfg).base
  unfold claimNextTieringTask at hrun
  rw [hrest] at hrun
  unfold claimNextTieringTaskFromReadyIndexLocked at hrun
  rw [atomically_iter] at hrun
  have hes : ∀ e ∈ prefixEntries s₁ tiKVTaskReadyPrefix, tiKVTaskReadyPrefix <+: e.1 :=
    fun e he => mem_scan he
  obtain ⟨h₂, hmet⟩ := claimReadyLoop_heals hs₁ (h₁.valid hvalid) (orNow_orNow now clock) hes hrun
  have h := h₁.trans h₂
  constructor
  · -- a stale key is not touched, and it is not the ready key of a row
    rintro hproper k hk hsome hstale
    have hkept : s'.get? k = s.get? k := (h.ready k hk).resolve_right fun hno => hno.1 hstale
    obtain ⟨id, rec, hrow, -, -, rfl⟩ := hproper k hk (hkept ▸ hsome)
    exact not_stale_ready hs hvalid (h.same id ▸ hrow) hstale
  · intro hfresh k hk hsome
    rw [h.proper]
    rcases h₂.ready k hk with heq | ⟨-, hproper⟩
    · -- a key that is still there was met by the walk
      have hsome₁ : (s₁.get? k).isSome := heq ▸ hsome
      obtain ⟨x, hx⟩ := Option.isSome_iff_exists.mp hsome₁
      rcases hmet (k, x) (mem_prefixEntries.mpr ⟨hx, hk⟩) hsome with hstale | hproper
      · rcases h₁.ready k hk with heq₁ | ⟨hno, -⟩
        · exact absurd ((h₁.stale k).mp hstale) (hfresh k hk (heq₁ ▸ hsome₁))
        · exact absurd ((h₁.stale k).mp hstale) hno
      · exact (h₁.proper k).mp hproper
    · exact (h₁.proper k).mp (hproper hsome)

end Steps

/-- What all task values of a store satisfy holds for its rows. -/
theorem row_of_entries {s : Store} {P : TaskRecord → Bool}
    (h : ∀ e ∈ s.entries, e.2.asTask.all P = true) {id : GoString} {rec : TaskRecord}
    (hrow : taskRow s id = some rec) : P rec = true :=
  h (tiKVTaskKey id, .task rec) (SortedMap.mem_entries.mpr (taskRow_eq_some.mp hrow))

theorem allValid_of_entries {s : Store} (h : ∀ e ∈ s.entries, e.2.asTask.all (fun rec =>
    rec.taskID ≠ [] ∧ slash ∉ rec.taskType ∧
      rec.finishedAt.isSome = isTaskTerminalState rec.taskState) = true) : AllValid s := by
  intro id rec hrow
  obtain ⟨hid, htype, hfinished⟩ := of_decide_eq_true (row_of_entries h hrow)
  exact ⟨hid, htype, hfinished⟩

/-- A running task. -/
def heldTask : TaskRecord :=
  { newTask (lit "t") (lit "a") 1 (lit "REPAIR") 200 3 with
    taskState := .running, startedAt := some 4 }

/-- The row of the running task with some keys of the ready index. -/
def heldStore (keys : List GoString) : Store :=
  SortedMap.empty.applyAll (.set (tiKVTaskKey (lit "t")) (.task heldTask) ::
    keys.map fun k => .set k .mark)

/-- Its own ready key and a malformed key go. -/
def freshIndex : Store := heldStore [taskReadyIndexKey heldTask, lit "task_ready/x"]

theorem freshIndex_healed :
    (atomically (claimNextTieringTask {} 9 9 []) freshIndex).1 = .ok none ∧
    ∀ k, tiKVTaskReadyPrefix <+: k →
      ((atomically (claimNextTieringTask {} 9 9 []) freshIndex).2.get? k).isSome →
        Proper 9 (atomically (claimNextTieringTask {} 9 9 []) freshIndex).2 k := by
  have hvalid : AllValid freshIndex := allValid_of_entries (by decide +kernel)
  have hrun : (atomically (claimNextTieringTask {} 9 9 []) freshIndex).1 = .ok none := by
    decide +kernel
  have hown : ∀ e ∈ prefixEntries freshIndex tiKVTaskReadyPrefix,
      (named freshIndex e.1).all (fun rec => e.1 = taskReadyIndexKey rec) = true := by
    decide +kernel
  refine ⟨hrun, (claim_heals_iff {} 9 9 (rows_iff_entries.mpr (by decide +kernel)) hvalid
    (Prod.ext hrun rfl)).mpr ?_⟩
  rintro k hk hsome ⟨rec, hnamed, hne⟩
  obtain ⟨x, hx⟩ := Option.isSome_iff_exists.mp hsome
  have hkey := hown (k, x) (mem_prefixEntries.mpr ⟨hx, hk⟩)
  rw [hnamed] at hkey
  exact hne (of_decide_eq_true hkey)

/-- The key of the running task from a time when it had another priority. -/
def staleKey : GoString := taskReadyIndexKey { heldTask with priority := 100 }

theorem stale_key_survives :
    Rows (fun _ => True) (heldStore [staleKey]) ∧ AllValid (heldStore [staleKey]) ∧
      (atomically (claimNextTieringTask {} 9 9 []) (heldStore [staleKey])).1 = .ok none ∧
      tiKVTaskReadyPrefix <+: staleKey ∧
      ((atomically (claimNextTieringTask {} 9 9 []) (heldStore [staleKey])).2.get?
        staleKey).isSome = true ∧
      ¬ Proper 9 (atomically (claimNextTieringTask {} 9 9 []) (heldStore [staleKey])).2
        staleKey := by
  refine ⟨rows_iff_entries.mpr (by decide +kernel), allValid_of_entries (by decide +kernel),
    by decide +kernel, by decide +kernel, by decide +kernel, ?_⟩
  rintro ⟨id, rec, hrow, hrun, -⟩
  have hall : ∀ e ∈ (atomically (claimNextTieringTask {} 9 9 []) (heldStore [staleKey])).2.entries,
      e.2.asTask.all (fun rec => !isTaskRunnableState rec.taskState) = true := by decide +kernel
  have hno := row_of_entries hall hrow
  rw [hrun] at hno
  cases hno

end TieredStore.Meta.ReadyIndex
