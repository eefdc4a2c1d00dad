import TieredStore.Meta.ClaimOrder

/-!
# The purge of the task history

The purge walks over the terminal index in key order, which is the order of finish times, up to
the first key behind the cutoff or up to its limit of removed rows, and commits what it collects
in one batch. A key only points at a row: the row itself decides whether it is removed, so stale
keys do no harm. In a coherent store the keys in front of the cutoff are those of the expired
rows, and the walk takes the first ones (`purge_exact`).
-/

namespace TieredStore.Meta.Purge

open Lib Lib.Prog Lib.Bytes TaskCoherence TaskMoves TaskScans ReadyIndex

/-! ## The walk -/

/-- The row that a key of the terminal index points at. -/
def target (s : Store) (key : GoString) : Option TaskRecord :=
  (tiKVParseTaskTerminalKey key).bind fun p => taskRow s p.2

/-- The walk goes on at a key that is malformed or not behind the cutoff. -/
def passes (cutoff : Int) (key : GoString) : Bool :=
  match tiKVParseTaskTerminalKey key with
  | none => true
  | some (finishedAtUnixNano, _) => decide (finishedAtUnixNano ≤ cutoff)

/-- What the walk collects at a key, and whether it removes a row there. -/
def visit (clock now : Time) (cutoff : Int) (s : Store) (key : GoString) : List KVWrite × Bool :=
  match target s key with
  | none => ([Write.del key], false)
  | some rec => purgeStep clock now cutoff key rec.taskID rec

/-- What a walk that may remove `budget` rows has passed and what it has left. -/
structure Swept (cutoff : Int) (gone : GoString → Bool) (budget : Int)
    (es done rest : List (GoString × Value)) : Prop where
  split : es = done ++ rest
  passed : ∀ e ∈ done, passes cutoff e.1 = true
  bounded : (done.countP fun e => gone e.1 : Int) ≤ budget
  stopped : (done.countP fun e => gone e.1 : Int) < budget →
    ∀ e ∈ rest.head?, passes cutoff e.1 = false

section Walk

variable {s : Store} {clock now : Time} {cutoff limit : Int} {gone : GoString → Bool}

theorem Swept.cons {budget : Int} {e : GoString × Value} {es done rest : List (GoString × Value)}
    (he : passes cutoff e.1 = true)
    (h : Swept cutoff gone (budget - if gone e.1 then 1 else 0) es done rest) :
    Swept cutoff gone budget (e :: es) (e :: done) rest where
  split := by rw [h.split, List.cons_append]
  passed := List.forall_mem_cons.mpr ⟨he, h.passed⟩
  bounded := by
    have := h.bounded
    rw [List.countP_cons]
    push_cast
    split_ifs at this ⊢ <;> omega
  stopped := by
    intro hlt
    refine h.stopped ?_
    rw [List.countP_cons] at hlt
    push_cast at hlt
    split_ifs at hlt ⊢ <;> omega

/-- When the keys to pass come first and each of them removes a row, the walk has passed the first
ones. -/
theorem Swept.eq_take {budget : Int} {es done rest : List (GoString × Value)}
    (h : Swept cutoff gone budget es done rest)
    (hfirst : es.Pairwise fun a b => passes cutoff b.1 = true → passes cutoff a.1 = true)
    (hgone : ∀ e ∈ es, passes cutoff e.1 = true → gone e.1 = true) :
    done = (es.filter fun e => passes cutoff e.1).take budget.toNat := by
  obtain ⟨rfl, hpassed, hbounded, hstopped⟩ := h
  have hcount : (done.countP fun e => gone e.1) = done.length :=
    List.countP_eq_length.mpr fun e he => hgone e (List.mem_append_left _ he) (hpassed e he)
  rw [hcount] at hbounded hstopped
  rw [List.filter_append, List.filter_eq_self.mpr hpassed]
  by_cases hlt : (done.length : Int) < budget
  · have hrest : (rest.filter fun e => passes cutoff e.1) = [] := by
      cases rest with
      | nil => rfl
      | cons e' rest =>
        have hno := hstopped hlt e' rfl
        obtain ⟨hhead, -⟩ := List.pairwise_cons.mp (List.pairwise_append.mp hfirst).2.1
        refine List.filter_eq_nil_iff.mpr fun e he hpass => ?_
        rcases List.mem_cons.mp he with rfl | he
        · rw [hno] at hpass
          cases hpass
        · rw [hhead e he hpass] at hno
          cases hno
    rw [hrest, List.append_nil, List.take_of_length_le (by omega)]
  · rw [List.take_left' (by omega)]

theorem atomically_purgeLoop (hs : Rows (fun _ => True) s) {purged : Int} (hbudget : purged < limit)
    (es : List (GoString × Value)) (ops : List KVWrite) :
    ∃ done rest, Swept cutoff (fun k => (visit clock now cutoff s k).2) (limit - purged)
        es done rest ∧
      atomically (purgeLoop clock now cutoff limit es purged ops) s =
        (.ok (purged + done.countP fun e => (visit clock now cutoff s e.1).2,
          ops ++ done.flatMap fun e => (visit clock now cutoff s e.1).1), s) := by
  induction es generalizing purged ops with
  | nil =>
    refine ⟨[], [], ⟨rfl, List.forall_mem_nil _, by simpa using hbudget.le,
      fun _ _ he => by cases he⟩, ?_⟩
    simp [purgeLoop]
  | cons e es ih =>
    obtain ⟨key, x⟩ := e
    -- a key that removes no row: the walk goes on behind it
    have hkeep : passes cutoff key = true → ∀ {ws}, visit clock now cutoff s key = (ws, false) →
        ∀ {p : KV (Int × List KVWrite)}, atomically p s =
          atomically (purgeLoop clock now cutoff limit es purged (ops ++ ws)) s →
        ∃ done rest, Swept cutoff (fun k => (visit clock now cutoff s k).2) (limit - purged)
            ((key, x) :: es) done rest ∧
          atomically p s = (.ok (purged + done.countP fun e => (visit clock now cutoff s e.1).2,
            ops ++ done.flatMap fun e => (visit clock now cutoff s e.1).1), s) := by
      intro hpass ws hvisit p hp
      obtain ⟨done, rest, hwalk, hrun⟩ := ih hbudget (ops ++ ws)
      refine ⟨(key, x) :: done, rest, Swept.cons hpass ?_, ?_⟩
      · simpa [hvisit] using hwalk
      · rw [hp, hrun, List.flatMap_cons, List.countP_cons_of_neg (by simp [hvisit]), hvisit,
          List.append_assoc]
    unfold purgeLoop
    cases hparse : tiKVParseTaskTerminalKey key with
    | none =>
      exact hkeep (by simp [passes, hparse])
        (by simp only [visit, target, hparse, Option.bind_none]) rfl
    | some parts =>
      obtain ⟨finishedAtUnixNano, id⟩ := parts
      by_cases hlate : finishedAtUnixNano > cutoff
      · refine ⟨[], (key, x) :: es, ⟨rfl, List.forall_mem_nil _, ?_, fun _ e he => ?_⟩, ?_⟩
        · simp only [List.countP_nil, Nat.cast_zero]
          omega
        · cases he
          simpa [passes, hparse] using hlate
        · simp [hlate]
      · have hpass : passes cutoff key = true := by simpa [passes, hparse] using hlate
        simp only [if_neg hlate]
        rw [atomically_getTaskRecord hs]
        cases hrow : taskRow s id with
        | none =>
          exact hkeep hpass (by simp only [visit, target, hparse, hrow, Option.bind_some]) rfl
        | some rec =>
          have hvisit : visit clock now cutoff s key = purgeStep clock now cutoff key id rec := by
            simp [visit, target, hparse, hrow, row_taskID hs hrow]
          rcases hstep : purgeStep clock now cutoff key id rec with ⟨ws, _ | _⟩
          · simp only [hstep]
            exact hkeep hpass (hvisit.trans hstep) rfl
          · rw [hstep] at hvisit
            simp only [hstep, if_true]
            by_cases hend : purged + 1 ≥ limit
            · refine ⟨[(key, x)], es, Swept.cons hpass ⟨rfl, List.forall_mem_nil _, ?_, ?_⟩, ?_⟩
              · simp only [hvisit, List.countP_nil, Nat.cast_zero, if_true]
                omega
              · simp only [hvisit, List.countP_nil, Nat.cast_zero, if_true]
                omega
              · rw [if_pos hend]
                simp [hvisit]
            · have hnext : purged + 1 < limit := by omega
              obtain ⟨done, rest, hwalk, hrun⟩ := ih hnext (ops ++ ws)
              refine ⟨(key, x) :: done, rest, Swept.cons hpass ?_, ?_⟩
              · simpa [hvisit, sub_sub] using hwalk
              · rw [if_neg hend, hrun, List.flatMap_cons,
                  List.countP_cons_of_pos (by simp [hvisit]), hvisit, List.append_assoc]
                push_cast
                rw [add_assoc, add_comm (1 : Int)]

/-- The limit of a purge, with its default and its cap. -/
def purgeLimit (limit : Int) : Int :=
  let limit := if limit ≤ 0 then 200 else limit
  if limit > 5000 then 5000 else limit

/-- The store after a walk that has passed some keys. -/
def swept (clock now : Time) (cutoff : Int) (s : Store) (done : List (GoString × Value)) : Store :=
  s.applyAll (done.flatMap fun e => (visit clock now cutoff s e.1).1)

theorem atomically_purgeTerminalTieringTasks (hs : Rows (fun _ => True) s) {olderThan : Time}
    (hcut : InInt64 olderThan) (limit : Int) :
    ∃ done rest, Swept olderThan (fun k => (visit clock now olderThan s k).2) (purgeLimit limit)
        (prefixEntries s tiKVTaskTerminalPrefix) done rest ∧
      atomically (purgeTerminalTieringTasks clock now olderThan limit) s =
        (.ok (done.countP fun e => (visit clock now olderThan s e.1).2),
          swept clock now olderThan s done) := by
  have hpos : 0 < purgeLimit limit := by
    unfold purgeLimit
    dsimp only
    split_ifs <;> omega
  have hzero : olderThan.isZero = false := by
    refine beq_eq_false_iff_ne.mpr ?_
    rintro rfl
    exact absurd hcut.1 (by decide)
  have hcutoff : olderThan.unixNano = olderThan := wrap64_eq_self hcut.1 hcut.2
  obtain ⟨done, rest, hwalk, hrun⟩ := @atomically_purgeLoop s clock now olderThan _ hs _ hpos
    (prefixEntries s tiKVTaskTerminalPrefix) []
  rw [sub_zero] at hwalk
  refine ⟨done, rest, hwalk, ?_⟩
  unfold purgeTerminalTieringTasks
  rw [hzero, hcutoff]
  simp only [Bool.false_eq_true, if_false]
  rw [atomically_iter]
  refine (run_bind_ok hrun _).trans ?_
  simp only [zero_add, List.nil_append]
  exact run_bind_ok (atomically_commit _ s) _

end Walk

/-! ## What the walk removes -/

/-- A finished task that the cutoff has reached. -/
def Expired (olderThan : Time) (rec : TaskRecord) : Prop :=
  isTaskTerminalState rec.taskState = true ∧ ∃ t, rec.finishedAt = some t ∧ t ≤ olderThan

/-- Finish times that the keys can tell apart. -/
def FinishRanged (s : Store) : Prop :=
  ∀ {id rec t}, taskRow s id = some rec → rec.finishedAt = some t →
    (0 : Int) ≤ t ∧ t < (2 ^ 63 : Int)

section Rows

variable {s : Store} {clock now olderThan : Time} {cutoff : Int} {key id id' : GoString}
  {rec : TaskRecord} {done : List (GoString × Value)}

/-- A visit writes the row of a task only when it removes this row. -/
theorem purgeStep_row {w : KVWrite} (hkey : TaskIndexKey key)
    (hw : w ∈ (purgeStep clock now cutoff key id rec).1) (hk : w.key = tiKVTaskKey id') :
    (purgeStep clock now cutoff key id rec).2 = true ∧ id' = id := by
  have hindex : ∀ {ws}, IndexBatch ws → w ∉ ws := fun hws hw =>
    not_taskIndexKey_task id' (hk ▸ hws.keys w hw)
  have hdels := ((indexBatch_del hkey).append (indexBatch_deleteRunnable rec)).append
    (indexBatch_deleteTerminal rec)
  unfold purgeStep at hw ⊢
  split_ifs at hw ⊢
  · exact absurd hw
      (hindex ((hdels.append (indexBatch_putRunnable _ _ _)).append (indexBatch_putTerminal _)))
  · exact absurd hw (hindex ((indexBatch_del hkey).append (indexBatch_putTerminal _)))
  · rcases List.mem_append.mp hw with hw | hw
    · exact absurd hw (hindex hdels)
    · cases List.mem_singleton.mp hw
      exact ⟨rfl, (tiKVTaskKey_inj.mp hk).symm⟩

theorem visit_batch (hs : Rows (fun _ => True) s) (hkey : TaskIndexKey key) :
    PurgeBatch s cutoff (visit clock now cutoff s key).1 := by
  unfold visit
  cases hrec : target s key with
  | none => exact (indexBatch_del hkey).purge
  | some rec =>
    obtain ⟨p, -, hrow⟩ := Option.bind_eq_some_iff.mp hrec
    exact purgeStep_batch hkey ((row_taskID hs hrow).symm ▸ hrow)

theorem visit_row {w : KVWrite} (hkey : TaskIndexKey key)
    (hw : w ∈ (visit clock now cutoff s key).1) (hk : w.key = tiKVTaskKey id) :
    (visit clock now cutoff s key).2 = true ∧ (target s key).map TaskRecord.taskID = some id := by
  unfold visit at hw ⊢
  cases hrec : target s key with
  | none =>
    rw [hrec] at hw
    cases List.mem_singleton.mp hw
    exact absurd (hk ▸ hkey) (not_taskIndexKey_task id)
  | some rec =>
    rw [hrec] at hw
    obtain ⟨hgone, rfl⟩ := purgeStep_row hkey hw hk
    exact ⟨hgone, rfl⟩

theorem swept_batch (hs : Rows (fun _ => True) s) (hdone : ∀ e ∈ done, TaskIndexKey e.1) :
    PurgeBatch s cutoff (done.flatMap fun e => (visit clock now cutoff s e.1).1) := by
  induction done with
  | nil => exact indexBatch_nil.purge
  | cons e done ih =>
    rw [List.flatMap_cons]
    exact (visit_batch hs (hdone e List.mem_cons_self)).append
      (ih fun e he => hdone e (List.mem_cons_of_mem _ he))

/-- A row stays as it is or is an expired one that goes. -/
theorem swept_row (hs : Rows (fun _ => True) s) (hfin : FinishRanged s)
    (hdone : ∀ e ∈ done, TaskIndexKey e.1) (id : GoString) :
    taskRow (swept clock now olderThan s done) id = taskRow s id ∨
      taskRow (swept clock now olderThan s done) id = none ∧
        ∃ rec, taskRow s id = some rec ∧ Expired olderThan rec := by
  rcases (@swept_batch s clock now olderThan done hs hdone).step.rows id with hsame | hgone
  · exact Or.inl hsame
  · obtain ⟨hnone, rec, t, hrow, hterm, ht, hold⟩ := hgone
    obtain ⟨hlow, hhigh⟩ := hfin hrow ht
    rw [ClaimOrder.unixNano_eq_self hlow hhigh] at hold
    exact Or.inr ⟨hnone, rec, hrow, hterm, t, ht, hold⟩

/-- The tasks whose rows a walk removes. -/
def removed (clock now : Time) (cutoff : Int) (s : Store) (done : List (GoString × Value)) :
    List GoString :=
  (done.filter fun e => (visit clock now cutoff s e.1).2).filterMap fun e =>
    (target s e.1).map TaskRecord.taskID

theorem mem_removed (hdone : ∀ e ∈ done, TaskIndexKey e.1)
    (h : taskRow (swept clock now cutoff s done) id ≠ taskRow s id) :
    id ∈ removed clock now cutoff s done := by
  by_contra hno
  refine h ?_
  unfold taskRow swept
  rw [SortedMap.get?_applyAll_of_untouched]
  intro w hw hk
  obtain ⟨e, he, hw⟩ := List.mem_flatMap.mp hw
  obtain ⟨hgone, hid⟩ := visit_row (hdone e he) hw hk
  exact hno (List.mem_filterMap.mpr ⟨e, List.mem_filter.mpr ⟨he, hgone⟩, hid⟩)

theorem length_removed : (removed clock now cutoff s done).length ≤
    done.countP fun e => (visit clock now cutoff s e.1).2 := by
  rw [List.countP_eq_length_filter]
  exact List.length_filterMap_le _ _

end Rows

/-! ## A coherent store -/

/-- The order in which finished tasks are removed. -/
def FinishedBefore (a b : TaskRecord) : Prop :=
  ∃ t u, a.finishedAt = some t ∧ b.finishedAt = some u ∧ (t < u ∨ t = u ∧ a.taskID < b.taskID)

section Coherent

variable {s : Store} {clock now olderThan : Time} {id k : GoString} {x : Value}
  {rec : TaskRecord} {t : Time}

theorem terminal_entry (h : Indexed s) (hget : s.get? k = some x)
    (hk : tiKVTaskTerminalPrefix <+: k) :
    ∃ id rec, taskRow s id = some rec ∧ isTaskTerminalState rec.taskState = true ∧
      k = taskTerminalIndexKey rec := by
  have hfam : keyFamily k = lit "task_terminal" := keyFamily_eq (by decide) hk
  obtain ⟨id, rec, hrow, ⟨hno, -⟩ | ⟨hno, -⟩ | ⟨-, hterm, rfl⟩⟩ :=
    ClaimOrder.index_entry h (Or.inr (Or.inr hfam)) hget
  · exact absurd (hfam.symm.trans hno) (by decide)
  · exact absurd (hfam.symm.trans hno) (by decide)
  · exact ⟨id, rec, hrow, hterm, rfl⟩

theorem terminalKey_eq (ht : rec.finishedAt = some t) :
    taskTerminalIndexKey rec = tiKVTaskTerminalKey t rec.taskID := by
  simp [taskTerminalIndexKey, ht]

/-- A finished row has its terminal key in the index and no other one. -/
theorem terminalKey_present (h : Indexed s) (hrow : taskRow s id = some rec)
    (hterm : isTaskTerminalState rec.taskState = true) :
    (s.get? (taskTerminalIndexKey rec)).isSome := by
  obtain ⟨waiting, hat⟩ := h.indexed id
  have hkey : indexKeyOf waiting rec = some (taskTerminalIndexKey rec) := by
    simp [indexKeyOf, hterm, not_runnable_of_terminal hterm]
  obtain ⟨hindex, howner⟩ := (h.valid hrow).indexKeyOf_owner hkey
  rw [h.taskID hrow] at howner
  exact (hat _ hindex howner).mpr ⟨rec, hrow, hkey⟩

theorem runnableKey_absent (h : Indexed s) (hrow : taskRow s id = some rec)
    (hterm : isTaskTerminalState rec.taskState = true)
    (hk : k = taskReadyIndexKey rec ∨ k = taskWaitIndexKey rec) : s.get? k = none := by
  have hvalid := h.valid hrow
  have hid := h.taskID hrow
  obtain ⟨t, -, hkey⟩ := hvalid.terminal hterm
  obtain ⟨hindex, howner⟩ : TaskIndexKey k ∧ taskIndexOwner k = some id := by
    rcases hk with rfl | rfl
    · exact ⟨taskIndexKey_ready rec, hid ▸ hvalid.owner_ready⟩
    · exact ⟨taskIndexKey_wait rec, hid ▸ hvalid.owner_wait⟩
  cases hget : s.get? k with
  | none => rfl
  | some x =>
    obtain ⟨id', rec', waiting, howner', hrow', hkey'⟩ := h.present hindex hget
    obtain rfl : id = id' := Option.some.inj (howner.symm.trans howner')
    obtain rfl : rec = rec' := Option.some.inj (hrow.symm.trans hrow')
    rw [indexKeyOf, not_runnable_of_terminal hterm, hterm] at hkey'
    simp only [Bool.false_eq_true, if_false, if_true, Option.some.injEq] at hkey'
    have hfam := congrArg keyFamily (hkey.symm.trans hkey')
    rw [keyFamily_taskTerminal] at hfam
    rcases hk with rfl | rfl
    · rw [taskReadyIndexKey, keyFamily_taskReady] at hfam
      exact absurd hfam (by decide)
    · rw [taskWaitIndexKey, keyFamily_taskWait] at hfam
      exact absurd hfam (by decide)

/-- A terminal key names its task, so it belongs to one row. -/
theorem terminalKey_inj (h : Indexed s) {id' : GoString} {rec' : TaskRecord}
    (hrow : taskRow s id = some rec) (hterm : isTaskTerminalState rec.taskState = true)
    (hrow' : taskRow s id' = some rec') (hterm' : isTaskTerminalState rec'.taskState = true)
    (hkey : taskTerminalIndexKey rec = taskTerminalIndexKey rec') : rec = rec' := by
  obtain ⟨t, ht, -⟩ := (h.valid hrow).terminal hterm
  obtain ⟨t', ht', -⟩ := (h.valid hrow').terminal hterm'
  have hparse := congrArg tiKVParseTaskTerminalKey hkey
  rw [terminalKey_eq ht, terminalKey_eq ht', tiKVParseTaskTerminalKey_build (h.valid hrow).id,
    tiKVParseTaskTerminalKey_build (h.valid hrow').id, h.taskID hrow, h.taskID hrow'] at hparse
  obtain rfl : id = id' := (Prod.mk.inj (Option.some.inj hparse)).2
  exact Option.some.inj (hrow.symm.trans hrow')

/-- The terminal keys have the order of the finish times. -/
theorem terminalKey_lt {a b : TaskRecord} {ta tb : Time} (ha : a.finishedAt = some ta)
    (hb : b.finishedAt = some tb) (hta : (0 : Int) ≤ ta ∧ ta < (2 ^ 63 : Int))
    (htb : (0 : Int) ≤ tb ∧ tb < (2 ^ 63 : Int))
    (hlt : taskTerminalIndexKey a < taskTerminalIndexKey b) : FinishedBefore a b := by
  rw [terminalKey_eq ha, terminalKey_eq hb] at hlt
  unfold tiKVTaskTerminalKey at hlt
  simp only [List.append_assoc] at hlt
  rw [append_lt_append_left_iff, ClaimOrder.unixNano_eq_self hta.1 hta.2,
    ClaimOrder.unixNano_eq_self htb.1 htb.2,
    ClaimOrder.encodeInt64_append_lt_iff hta.1 hta.2 htb.1 htb.2, append_lt_append_left_iff] at hlt
  exact ⟨ta, tb, ha, hb, hlt⟩

theorem passes_terminalKey (hvalid : ValidTask rec) (ht : rec.finishedAt = some t)
    (hrange : (0 : Int) ≤ t ∧ t < (2 ^ 63 : Int)) :
    passes olderThan (taskTerminalIndexKey rec) = decide (t ≤ olderThan) := by
  unfold passes
  rw [terminalKey_eq ht, tiKVParseTaskTerminalKey_build hvalid.id,
    ClaimOrder.unixNano_eq_self hrange.1 hrange.2]

theorem visit_terminalKey (h : Indexed s) (hfin : FinishRanged s) (hrow : taskRow s id = some rec)
    (hexp : Expired olderThan rec) :
    visit clock now olderThan s (taskTerminalIndexKey rec) =
      ([Write.del (taskTerminalIndexKey rec), Write.del (taskReadyIndexKey rec),
        Write.del (taskWaitIndexKey rec), Write.del (taskTerminalIndexKey rec),
        Write.del (tiKVTaskKey rec.taskID)], true) := by
  obtain ⟨hterm, t, ht, hold⟩ := hexp
  have hvalid := h.valid hrow
  have htarget : target s (taskTerminalIndexKey rec) = some rec := by
    unfold target
    rw [terminalKey_eq ht, tiKVParseTaskTerminalKey_build hvalid.id, Option.bind_some,
      h.taskID hrow, hrow]
  have hnot : ¬ t.unixNano > olderThan := by
    rw [ClaimOrder.unixNano_eq_self (hfin hrow ht).1 (hfin hrow ht).2]
    exact not_lt.mpr hold
  unfold visit purgeStep
  rw [htarget]
  simp only [hterm, ht, hvalid.deleteRunnable_eq, hvalid.deleteTerminal_eq hterm, hnot,
    Option.getD_some, reduceCtorEq, Bool.true_eq_false, or_self, if_false, List.cons_append,
    List.nil_append]

/-- The keys in front of the cutoff are those of the expired tasks. -/
theorem passed_keys (h : Indexed s) (hfin : FinishRanged s) :
    ∃ expired : List {rec // ∃ id, taskRow s id = some rec ∧ Expired olderThan rec},
      (expired.map fun r => taskTerminalIndexKey r.1) =
        ((prefixEntries s tiKVTaskTerminalPrefix).filter fun e =>
          passes olderThan e.1).map Prod.fst := by
  refine Set.mem_range.mp ?_
  rw [Set.range_list_map]
  intro k hk
  obtain ⟨⟨k, x⟩, he, rfl⟩ := List.mem_map.mp hk
  obtain ⟨hmem, hpass⟩ := List.mem_filter.mp he
  obtain ⟨hget, hpre⟩ := mem_prefixEntries.mp hmem
  obtain ⟨id, rec, hrow, hterm, rfl⟩ := terminal_entry h hget hpre
  obtain ⟨t, ht, -⟩ := (h.valid hrow).terminal hterm
  rw [passes_terminalKey (h.valid hrow) ht (hfin hrow ht), decide_eq_true_eq] at hpass
  exact ⟨⟨rec, id, hrow, hterm, t, ht, hpass⟩, rfl⟩

theorem passes_first (h : Indexed s) (hfin : FinishRanged s) :
    (prefixEntries s tiKVTaskTerminalPrefix).Pairwise fun a b =>
      passes olderThan b.1 = true → passes olderThan a.1 = true := by
  refine List.Pairwise.imp_of_mem ?_ (prefixEntries_sorted s tiKVTaskTerminalPrefix)
  rintro ⟨ka, xa⟩ ⟨kb, xb⟩ ha hb hlt hpass
  obtain ⟨hgeta, hka⟩ := mem_prefixEntries.mp ha
  obtain ⟨hgetb, hkb⟩ := mem_prefixEntries.mp hb
  obtain ⟨ida, ra, hrowa, hterma, rfl⟩ := terminal_entry h hgeta hka
  obtain ⟨idb, rb, hrowb, htermb, rfl⟩ := terminal_entry h hgetb hkb
  obtain ⟨ta, hta, -⟩ := (h.valid hrowa).terminal hterma
  obtain ⟨tb, htb, -⟩ := (h.valid hrowb).terminal htermb
  rw [passes_terminalKey (h.valid hrowb) htb (hfin hrowb htb), decide_eq_true_eq] at hpass
  rw [passes_terminalKey (h.valid hrowa) hta (hfin hrowa hta), decide_eq_true_eq]
  obtain ⟨_, _, ha', hb', hle⟩ := terminalKey_lt hta htb (hfin hrowa hta) (hfin hrowb htb) hlt
  cases hta.symm.trans ha'
  cases htb.symm.trans hb'
  exact le_trans (hle.elim le_of_lt fun heq => heq.1.le) hpass

/-- The store after the expired tasks of a list have been removed. -/
theorem get?_swept (h : Indexed s) (hfin : FinishRanged s) {done : List (GoString × Value)}
    {gone : List {rec // ∃ id, taskRow s id = some rec ∧ Expired olderThan rec}}
    (hgone : (gone.map fun r => taskTerminalIndexKey r.1) = done.map Prod.fst) (k : GoString) :
    (swept clock now olderThan s done).get? k =
      if ∃ rec ∈ gone.map Subtype.val, k = tiKVTaskKey rec.taskID ∨ k = taskTerminalIndexKey rec
      then none else s.get? k := by
  have hwrites : (done.flatMap fun e => (visit clock now olderThan s e.1).1) =
      gone.flatMap fun r => (visit clock now olderThan s (taskTerminalIndexKey r.1)).1 := by
    rw [← List.flatMap_map Prod.fst fun k => (visit clock now olderThan s k).1, ← hgone,
      List.flatMap_map]
  have hvisit : ∀ r ∈ gone, visit clock now olderThan s (taskTerminalIndexKey r.1) = _ :=
    fun r _ => by
      obtain ⟨id, hrow, hexp⟩ := r.2
      exact visit_terminalKey h hfin hrow hexp
  have hdels : ∀ w ∈ gone.flatMap fun r =>
      (visit clock now olderThan s (taskTerminalIndexKey r.1)).1, w.value = none := by
    intro w hw
    obtain ⟨r, hr, hw⟩ := List.mem_flatMap.mp hw
    rw [hvisit r hr] at hw
    simp only [List.mem_cons, List.not_mem_nil, or_false] at hw
    rcases hw with rfl | rfl | rfl | rfl | rfl <;> rfl
  unfold swept
  rw [hwrites, SortedMap.get?_applyAll_deletes hdels]
  split_ifs with hw hk hk
  · rfl
  · -- a runnable key of a finished task, which is not in the store
    obtain ⟨w, hw, rfl⟩ := hw
    obtain ⟨r, hr, hw⟩ := List.mem_flatMap.mp hw
    obtain ⟨id, hrow, hexp⟩ := r.2
    have hno : ∀ k, (k = tiKVTaskKey r.1.taskID ∨ k = taskTerminalIndexKey r.1) → k ≠ w.key := by
      rintro k hk' rfl
      exact hk ⟨r.1, List.mem_map_of_mem hr, hk'⟩
    rw [hvisit r hr] at hw
    simp only [List.mem_cons, List.not_mem_nil, or_false] at hw
    rcases hw with rfl | rfl | rfl | rfl | rfl
    · exact absurd rfl (hno _ (Or.inr rfl))
    · exact (runnableKey_absent h hrow hexp.1 (Or.inl rfl)).symm
    · exact (runnableKey_absent h hrow hexp.1 (Or.inr rfl)).symm
    · exact absurd rfl (hno _ (Or.inr rfl))
    · exact absurd rfl (hno _ (Or.inl rfl))
  · obtain ⟨rec, hrec, hk⟩ := hk
    obtain ⟨r, hr, rfl⟩ := List.mem_map.mp hrec
    refine absurd ?_ hw
    rcases hk with rfl | rfl
    · refine ⟨Write.del (tiKVTaskKey r.1.taskID), List.mem_flatMap.mpr ⟨r, hr, ?_⟩, rfl⟩
      rw [hvisit r hr]
      simp
    · refine ⟨Write.del (taskTerminalIndexKey r.1), List.mem_flatMap.mpr ⟨r, hr, ?_⟩, rfl⟩
      rw [hvisit r hr]
      simp
  · rfl

end Coherent

/-- A purge removes only rows that have expired, and at most its limit of them. In a coherent store
it removes the ones that finished first, with their index keys, and nothing else. -/
theorem purge_exact (clock now olderThan : Time) (limit : Int) (hcut : InInt64 olderThan)
    {s : Store} (hs : Rows (fun _ => True) s) (hfin : FinishRanged s) :
    ∃ n s', atomically (purgeTerminalTieringTasks clock now olderThan limit) s = (.ok n, s') ∧
      (∀ id, taskRow s' id = taskRow s id ∨
        taskRow s' id = none ∧ ∃ rec, taskRow s id = some rec ∧ Expired olderThan rec) ∧
      (∃ ids : List GoString, (ids.length : Int) ≤ purgeLimit limit ∧
        ∀ id, taskRow s' id ≠ taskRow s id → id ∈ ids) ∧
      (Indexed s → ∃ expired : List TaskRecord, expired.Pairwise FinishedBefore ∧
        (∀ rec, rec ∈ expired ↔ ∃ id, taskRow s id = some rec ∧ Expired olderThan rec) ∧
        n = min (purgeLimit limit) expired.length ∧
        ∀ k, s'.get? k =
          if ∃ rec ∈ expired.take (purgeLimit limit).toNat,
            k = tiKVTaskKey rec.taskID ∨ k = taskTerminalIndexKey rec
          then none else s.get? k) := by
  obtain ⟨done, rest, hwalk, hrun⟩ :=
    @atomically_purgeTerminalTieringTasks s clock now hs _ hcut limit
  have hdone : ∀ e ∈ done, TaskIndexKey e.1 := by
    intro e he
    have hmem : e ∈ prefixEntries s tiKVTaskTerminalPrefix :=
      hwalk.split ▸ List.mem_append_left rest he
    exact Or.inr (Or.inr (keyFamily_eq (by decide) (mem_prefixEntries.mp hmem).2))
  refine ⟨_, _, hrun, swept_row hs hfin hdone, ⟨removed clock now olderThan s done, ?_, ?_⟩, ?_⟩
  · exact le_trans (Int.ofNat_le.mpr length_removed) hwalk.bounded
  · exact fun id => mem_removed hdone
  · intro h
    obtain ⟨expired, hkeys⟩ := @passed_keys s olderThan h hfin
    have hexpired : ∀ e ∈ prefixEntries s tiKVTaskTerminalPrefix, passes olderThan e.1 = true →
        ∃ r ∈ expired, taskTerminalIndexKey r.1 = e.1 := by
      intro e he hpass
      refine List.mem_map.mp ?_
      rw [hkeys]
      exact List.mem_map_of_mem (List.mem_filter.mpr ⟨he, hpass⟩)
    have hgone : ∀ e ∈ prefixEntries s tiKVTaskTerminalPrefix, passes olderThan e.1 = true →
        (visit clock now olderThan s e.1).2 = true := by
      intro e he hpass
      obtain ⟨r, -, hkey⟩ := hexpired e he hpass
      obtain ⟨id, hrow, hexp⟩ := r.2
      rw [← hkey, visit_terminalKey h hfin hrow hexp]
    have htake := hwalk.eq_take (passes_first h hfin) hgone
    have hcount : (done.countP fun e => (visit clock now olderThan s e.1).2) = done.length :=
      List.countP_eq_length.mpr fun e he =>
        hgone e (hwalk.split ▸ List.mem_append_left rest he) (hwalk.passed e he)
    have hlength := congrArg List.length hkeys
    rw [List.length_map, List.length_map] at hlength
    refine ⟨expired.map Subtype.val, ?_, fun rec => ⟨fun hrec => ?_, ?_⟩, ?_, fun k => ?_⟩
    · -- the keys are sorted, and so are the rows
      have hsorted : (expired.map fun r => taskTerminalIndexKey r.1).Pairwise (· < ·) := by
        rw [hkeys, List.pairwise_map]
        exact (prefixEntries_sorted s tiKVTaskTerminalPrefix).sublist List.filter_sublist
      rw [List.pairwise_map] at hsorted ⊢
      refine hsorted.imp fun {a b} hlt => ?_
      obtain ⟨ida, hrowa, -, ta, hta, -⟩ := a.2
      obtain ⟨idb, hrowb, -, tb, htb, -⟩ := b.2
      exact terminalKey_lt hta htb (hfin hrowa hta) (hfin hrowb htb) hlt
    · obtain ⟨r, -, rfl⟩ := List.mem_map.mp hrec
      exact r.2
    · rintro ⟨id, hrow, hexp⟩
      obtain ⟨x, hx⟩ := Option.isSome_iff_exists.mp (terminalKey_present h hrow hexp.1)
      obtain ⟨hterm, t, ht, hold⟩ := hexp
      have hmem : (taskTerminalIndexKey rec, x) ∈ prefixEntries s tiKVTaskTerminalPrefix := by
        refine mem_prefixEntries.mpr ⟨hx, ?_⟩
        rw [terminalKey_eq ht]
        unfold tiKVTaskTerminalKey
        simp only [List.append_assoc]
        exact List.prefix_append _ _
      obtain ⟨⟨rec', id', hrow', hexp'⟩, hr, hkey⟩ := hexpired _ hmem
        (by rw [passes_terminalKey (h.valid hrow) ht (hfin hrow ht)]; exact decide_eq_true hold)
      obtain rfl : rec' = rec := terminalKey_inj h hrow' hexp'.1 hrow hterm hkey
      exact List.mem_map.mpr ⟨_, hr, rfl⟩
    · rw [hcount, htake, List.length_take, ← hlength, List.length_map]
      have := hwalk.bounded
      omega
    · rw [← List.map_take]
      refine get?_swept h hfin ?_ k
      rw [List.map_take, hkeys, htake, List.map_take]

/-- A task that finished at the given time. -/
def finishedTask (id : GoString) (at' : Time) : KV Unit := do
  enqueueTieringTask 1 1 id (lit "a") 1 (lit "REPAIR") 100 1
  markTieringTaskDone at' at' id

theorem keeps_finishedTask (id : GoString) (at' : Time) : Keeps Indexed (finishedTask id at') :=
  (keeps_enqueueTieringTask (by decide) 1).bind fun _ => keeps_markTieringTaskDone

def finishedStore (at' : Time) : Store :=
  (atomically (finishedTask (lit "t") at') SortedMap.empty).2

theorem finishedStore_indexed (at' : Time) : Indexed (finishedStore at') :=
  (keeps_finishedTask _ at').run indexed_empty

/-- Three tasks that are done and one that failed, and one that waits. -/
def taskHistory : KV Unit := do
  finishedTask (lit "t") 7
  finishedTask (lit "u") 5
  enqueueTieringTask 1 1 (lit "v") (lit "a") 1 (lit "REPAIR") 100 1
  markTieringTaskFailed 6 6 (lit "v") (lit "no nodes")
  finishedTask (lit "w") 9
  enqueueTieringTask 1 1 (lit "x") (lit "a") 1 (lit "REPAIR") 100 1

def historyStore : Store := (atomically taskHistory SortedMap.empty).2

theorem historyStore_indexed : Indexed historyStore := by
  have hkeeps : Keeps Indexed taskHistory :=
    (keeps_finishedTask _ _).bind fun _ => (keeps_finishedTask _ _).bind fun _ =>
      (keeps_enqueueTieringTask (by decide) 1).bind fun _ =>
        (keeps_markTieringTaskFailed _).bind fun _ => (keeps_finishedTask _ _).bind fun _ =>
          keeps_enqueueTieringTask (by decide) 1
  exact hkeeps.run indexed_empty

/-- The waiting task has a key in the terminal index that was left behind. -/
def staleHistory : Store :=
  historyStore.applyAll [.set (tiKVTaskTerminalKey 1 (lit "x")) .mark]

/-- Finish times within the bounds of a store with few entries. -/
theorem finishes_of_entries {s : Store} {P : Time → Bool}
    (h : ∀ e ∈ s.entries, e.2.asTask.all (fun rec => rec.finishedAt.all P) = true)
    {id : GoString} {rec : TaskRecord} {t : Time} (hrow : taskRow s id = some rec)
    (ht : rec.finishedAt = some t) : P t = true := by
  have hrec := row_of_entries h hrow
  rw [ht] at hrec
  exact hrec

/-- What a purge of two tasks with the cutoff at 8 answers, and which of the tasks are left. -/
def purgedHistory (s : Store) : Option Int × List Bool :=
  let (n, s') := atomically (purgeTerminalTieringTasks 10 10 8 2) s
  (n.toOption, [lit "t", lit "u", lit "v", lit "w", lit "x"].map fun id => (taskRow s' id).isSome)

theorem purgedHistory_count {s s' : Store} {n m : Int} {left : List Bool}
    (hrun : atomically (purgeTerminalTieringTasks 10 10 8 2) s = (.ok n, s'))
    (h : purgedHistory s = (some m, left)) : n = m := by
  have hn := congrArg Prod.fst h
  unfold purgedHistory at hn
  rw [hrun] at hn
  exact Option.some.inj hn

/-- Of the three tasks that the cutoff has reached, a purge of two removes the first ones. With the
key left behind it does the same, and the waiting task stays. -/
theorem history_purged :
    (∃ s', ∃ expired : List TaskRecord,
      atomically (purgeTerminalTieringTasks 10 10 8 2) historyStore = (.ok 2, s') ∧
      expired.Pairwise FinishedBefore ∧
      (∀ rec, rec ∈ expired ↔ ∃ id, taskRow historyStore id = some rec ∧ Expired 8 rec) ∧
      (∀ k, s'.get? k = if ∃ rec ∈ expired.take 2,
        k = tiKVTaskKey rec.taskID ∨ k = taskTerminalIndexKey rec then none
        else historyStore.get? k)) ∧
    purgedHistory historyStore = (some 2, [true, false, false, true, true]) ∧
    (∃ s', atomically (purgeTerminalTieringTasks 10 10 8 2) staleHistory = (.ok 2, s') ∧
      (∀ id, taskRow s' id = taskRow staleHistory id ∨ taskRow s' id = none ∧
        ∃ rec, taskRow staleHistory id = some rec ∧ Expired 8 rec) ∧
      ∃ ids : List GoString, ids.length ≤ 2 ∧
        ∀ id, taskRow s' id ≠ taskRow staleHistory id → id ∈ ids) ∧
    purgedHistory staleHistory = (some 2, [true, false, false, true, true]) := by
  have hfin : FinishRanged historyStore := fun hrow ht =>
    of_decide_eq_true (finishes_of_entries
      (P := fun t => (0 : Int) ≤ t ∧ t < (2 ^ 63 : Int)) (by decide +kernel) hrow ht)
  have hfin' : FinishRanged staleHistory := fun hrow ht =>
    of_decide_eq_true (finishes_of_entries
      (P := fun t => (0 : Int) ≤ t ∧ t < (2 ^ 63 : Int)) (by decide +kernel) hrow ht)
  have hstale : Rows (fun _ => True) staleHistory := by
    refine historyStore_indexed.rows.applyAll ?_
    rintro w hw v hv
    obtain rfl := List.mem_singleton.mp hw
    cases hv
    exact Or.inr (Or.inr (by decide))
  obtain ⟨n, s₁, hrun, -, -, hexact⟩ := purge_exact 10 10 8 2 ⟨by decide, by decide⟩
    historyStore_indexed.rows hfin
  obtain ⟨n', s₂, hrun', hsafe, hfew, -⟩ := purge_exact 10 10 8 2 ⟨by decide, by decide⟩ hstale hfin'
  obtain ⟨expired, hsorted, hmem, -, hkeys⟩ := hexact historyStore_indexed
  have hleft : purgedHistory historyStore = (some 2, [true, false, false, true, true]) := by
    decide +kernel
  have hleft' : purgedHistory staleHistory = (some 2, [true, false, false, true, true]) := by
    decide +kernel
  obtain rfl : n = 2 := purgedHistory_count hrun hleft
  obtain rfl : n' = 2 := purgedHistory_count hrun' hleft'
  obtain ⟨ids, hlen, hids⟩ := hfew
  exact ⟨⟨s₁, expired, hrun, hsorted, hmem, hkeys⟩, hleft,
    ⟨s₂, hrun', hsafe, ids, Int.ofNat_le.mp hlen, hids⟩, hleft'⟩

/-- A finish time that has no int64 reading in nanoseconds wraps around to one before the cutoff. -/
theorem late_finish_purged : Indexed (finishedStore (2 ^ 63 : Int)) ∧
    (∀ {id rec t}, taskRow (finishedStore (2 ^ 63 : Int)) id = some rec →
      rec.finishedAt = some t → (0 : Int) ≤ t) ∧ InInt64 (8 : Int) ∧
    (∃ rec t, taskRow (finishedStore (2 ^ 63 : Int)) (lit "t") = some rec ∧
      rec.finishedAt = some t ∧ (8 : Time) < t) ∧
    taskRow (atomically (purgeTerminalTieringTasks 9 9 8 0) (finishedStore (2 ^ 63 : Int))).2
      (lit "t") = none := by
  refine ⟨finishedStore_indexed _, fun hrow ht => ?_, ⟨by decide, by decide⟩, ?_,
    by decide +kernel⟩
  · exact of_decide_eq_true (finishes_of_entries (P := fun t => (0 : Int) ≤ t) (by decide +kernel)
      hrow ht)
  · exact ⟨{ newTask (lit "t") (lit "a") 1 (lit "REPAIR") 100 1 with
      taskState := .done, finishedAt := some (2 ^ 63 : Int) }, (2 ^ 63 : Int), by decide +kernel,
      rfl, by decide +kernel⟩

end TieredStore.Meta.Purge
