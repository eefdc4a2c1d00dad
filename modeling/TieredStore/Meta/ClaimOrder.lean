import TieredStore.Lib.KeyOrder
import TieredStore.Meta.ReadyIndex
import TieredStore.Meta.TaskRuns

/-!
# Which task a claim takes

The claim walks over the ready index in the order of its keys. The fields of a ready key have
fixed widths where they are numbers, so this is the order by priority, highest first, by schedule
and by type and id (`readyKey_lt_iff`). Before the walk the promotion moves the due tasks of the
wait index there; when they are no more than its first limit, no due task is left behind. So the
claim takes the first of all due tasks of the type (`claim_takes_first`).
-/

namespace TieredStore.Meta.ClaimOrder

open Lib Lib.Prog Lib.Bytes TaskCoherence TaskMoves TaskScans Promotion ReadyIndex

/-! ## The order of ready keys -/

/-- The text by which tasks of one priority and schedule are ordered. -/
def taskName (rec : TaskRecord) : GoString := rec.taskType ++ [slash] ++ rec.taskID

/-- The order in which tasks are taken. -/
def Before (a b : TaskRecord) : Prop :=
  b.priority < a.priority ∨ a.priority = b.priority ∧
    (a.scheduledAt < b.scheduledAt ∨ a.scheduledAt = b.scheduledAt ∧ taskName a < taskName b)

/-- Priorities and schedules that the keys can tell apart. -/
structure Ranged (rec : TaskRecord) : Prop where
  priority : -10 ^ 9 ≤ rec.priority ∧ rec.priority ≤ 10 ^ 9
  scheduled : 0 ≤ rec.scheduledAt ∧ rec.scheduledAt < (2 ^ 63 : Int)

/-- The number that stands for a priority in a ready key. Above `2 ^ 63 - 1 - 10 ^ 9` the bias
overflows to a negative number, which is clamped to the lowest priority. -/
def invertedPriority (p : Int) : Int :=
  if 2 ^ 63 - 1 - 10 ^ 9 < p then 2 * 10 ^ 9 else 2 * 10 ^ 9 - min (max (p + 10 ^ 9) 0) (2 * 10 ^ 9)

theorem encodePriorityDesc_eq_inverted {p : Int} (hp : InInt64 p) :
    tiKVEncodePriorityDesc p = padInt 10 (invertedPriority p) := by
  obtain ⟨hlow, hhigh⟩ := hp
  have hwrap : wrap64 (p + tiKVTaskPriorityBias) =
      if 2 ^ 63 - 1 - 10 ^ 9 < p then p + 10 ^ 9 - 2 ^ 64 else p + 10 ^ 9 := by
    unfold wrap64 tiKVTaskPriorityBias
    rw [Int.bmod_def]
    split_ifs <;> omega
  unfold tiKVEncodePriorityDesc invertedPriority
  simp only [hwrap, tiKVTaskPriorityMax]
  congr 1
  split_ifs <;> omega

theorem invertedPriority_bounds (p : Int) :
    0 ≤ invertedPriority p ∧ invertedPriority p < 10 ^ 10 := by
  unfold invertedPriority
  split_ifs <;> omega

theorem encodePriorityDesc_lt_iff {p q : Int} (hp : InInt64 p) (hq : InInt64 q) :
    tiKVEncodePriorityDesc q < tiKVEncodePriorityDesc p ↔
      invertedPriority q < invertedPriority p := by
  rw [encodePriorityDesc_eq_inverted hp, encodePriorityDesc_eq_inverted hq]
  exact padInt_lt_iff (by norm_num) (invertedPriority_bounds q).1 (invertedPriority_bounds q).2
    (invertedPriority_bounds p).1 (invertedPriority_bounds p).2

theorem length_encodePriorityDesc {p : Int} (hp : InInt64 p) :
    (tiKVEncodePriorityDesc p).length = 10 := by
  rw [encodePriorityDesc_eq_inverted hp]
  exact length_padInt (by norm_num) (invertedPriority_bounds p).1 (invertedPriority_bounds p).2

theorem encodePriorityDesc_eq {p : Int} (hlow : -10 ^ 9 ≤ p) (hhigh : p ≤ 10 ^ 9) :
    tiKVEncodePriorityDesc p = padInt 10 (10 ^ 9 - p) := by
  rw [encodePriorityDesc_eq_inverted ⟨by omega, by omega⟩]
  congr 1
  unfold invertedPriority
  rw [if_neg (by omega)]
  omega

/-- The texts of the higher priority `q` and of the lower priority `p` are in the order of the ready
index, strictly so within the range that is not clamped. -/
structure OrdersTexts (p q : Int) : Prop where
  encoded : tiKVEncodePriorityDesc q ≤ tiKVEncodePriorityDesc p
  strict : p < q → -10 ^ 9 ≤ p → q ≤ 10 ^ 9 → tiKVEncodePriorityDesc q < tiKVEncodePriorityDesc p
  width : (tiKVEncodePriorityDesc p).length = 10 ∧ (tiKVEncodePriorityDesc q).length = 10

/-- A task with the higher priority is never behind one with the lower priority and the same
schedule, whatever their types and ids are. -/
structure OrdersPriorities (p q : Int) : Prop extends OrdersTexts p q where
  readyKeys : p < q → ∀ taskType taskType' scheduledAt taskID taskID',
    tiKVTaskReadyKey taskType q scheduledAt taskID ≤ tiKVTaskReadyKey taskType' p scheduledAt taskID'

/-- Of two ready keys with the same schedule, the texts of the priorities decide, then the types and
ids. -/
theorem readyKey_lt_of_schedule {p q : Int} (hp : InInt64 p) (hq : InInt64 q)
    (taskType taskType' : GoString) (scheduledAt : Time) (taskID taskID' : GoString) :
    tiKVTaskReadyKey taskType' p scheduledAt taskID' < tiKVTaskReadyKey taskType q scheduledAt taskID ↔
      tiKVEncodePriorityDesc p < tiKVEncodePriorityDesc q ∨
      tiKVEncodePriorityDesc p = tiKVEncodePriorityDesc q ∧
        taskType' ++ ([slash] ++ taskID') < taskType ++ ([slash] ++ taskID) := by
  unfold tiKVTaskReadyKey
  simp only [List.append_assoc]
  rw [append_lt_append_left_iff, append_lt_append_iff
    ((length_encodePriorityDesc hp).trans (length_encodePriorityDesc hq).symm),
    append_lt_append_left_iff, append_lt_append_left_iff, append_lt_append_left_iff]

/-- The texts are in order unless the higher priority overflows and the lower one does not and is
above the lowest. The tasks are in order for different priorities exactly when the higher one does
not overflow and the two are not clamped to one text. -/
theorem ordersPriorities_iff {p q : Int} (hp : InInt64 p) (hq : InInt64 q) (hpq : p ≤ q) :
    (OrdersTexts p q ↔ q ≤ 2 ^ 63 - 1 - 10 ^ 9 ∨ 2 ^ 63 - 1 - 10 ^ 9 < p ∨ p ≤ -10 ^ 9) ∧
    (OrdersPriorities p q ↔ p = q ∨ q ≤ 2 ^ 63 - 1 - 10 ^ 9 ∧ -10 ^ 9 < q ∧ p < 10 ^ 9) := by
  have hle : tiKVEncodePriorityDesc q ≤ tiKVEncodePriorityDesc p ↔
      invertedPriority q ≤ invertedPriority p := by
    rw [← not_lt, encodePriorityDesc_lt_iff hq hp, not_lt]
  have htexts : OrdersTexts p q ↔ invertedPriority q ≤ invertedPriority p := by
    rw [← hle]
    refine ⟨OrdersTexts.encoded, fun h => ⟨h, fun hlt hlow hhigh => ?_, ?_⟩⟩
    · rw [encodePriorityDesc_lt_iff hp hq]
      unfold invertedPriority
      split_ifs <;> omega
    · exact ⟨length_encodePriorityDesc hp, length_encodePriorityDesc hq⟩
  refine ⟨htexts.trans ?_, ?_, ?_⟩
  · unfold invertedPriority
    split_ifs <;> omega
  · intro h
    rcases hpq.eq_or_lt with heq | hlt
    · exact Or.inl heq
    · -- with one text for both priorities, the ids would decide
      have hkeys := h.readyKeys hlt [] [] 0 [1] []
      rw [← not_lt, readyKey_lt_of_schedule hp hq, not_or, not_and] at hkeys
      have hne := fun heq => hkeys.2 heq (by decide)
      have hstrict := (encodePriorityDesc_lt_iff hp hq).mp (lt_of_le_of_ne h.encoded fun he => hne he.symm)
      right
      unfold invertedPriority at hstrict
      split_ifs at hstrict <;> omega
  · intro h
    have hinverted : p = q ∨ invertedPriority q < invertedPriority p := by
      refine hpq.eq_or_lt.imp_right fun hlt => ?_
      unfold invertedPriority
      split_ifs <;> omega
    refine ⟨htexts.mpr ?_, fun hlt taskType taskType' scheduledAt taskID taskID' => ?_⟩
    · rcases hinverted with rfl | hlt
      · exact le_rfl
      · exact hlt.le
    · have hstrict := (encodePriorityDesc_lt_iff hp hq).mpr (hinverted.resolve_left hlt.ne)
      rw [← not_lt, readyKey_lt_of_schedule hp hq]
      rintro (hgt | ⟨heq, -⟩)
      · exact lt_asymm hgt hstrict
      · exact hstrict.ne heq.symm

/-- A repair of priority 10 comes before a migration of priority -5. -/
theorem ordersPriorities_repair : OrdersPriorities (-5) 10 ∧
    tiKVTaskReadyKey (lit "REPAIR") 10 7 (lit "z") ≤ tiKVTaskReadyKey (lit "GC") (-5) 7 (lit "a") := by
  have horders : OrdersPriorities (-5) 10 :=
    (ordersPriorities_iff ⟨by norm_num, by norm_num⟩ ⟨by norm_num, by norm_num⟩ (by norm_num)).2.mpr
      (Or.inr ⟨by norm_num, by norm_num, by norm_num⟩)
  exact ⟨horders, horders.readyKeys (by norm_num) _ _ _ _ _⟩

/-- The highest priority overflows and is encoded as the lowest one. -/
theorem highest_priority_last :
    InInt64 0 ∧ InInt64 (2 ^ 63 - 1) ∧ (0 : Int) ≤ 2 ^ 63 - 1 ∧
      tiKVEncodePriorityDesc (2 ^ 63 - 1) = lit "2000000000" ∧
      tiKVEncodePriorityDesc 0 = lit "1000000000" ∧
      ¬ tiKVEncodePriorityDesc (2 ^ 63 - 1) ≤ tiKVEncodePriorityDesc 0 := by
  refine ⟨⟨by norm_num, by norm_num⟩, ⟨by norm_num, by norm_num⟩, by norm_num, ?_⟩
  decide

theorem unixNano_eq_self {t : Time} (hlow : (0 : Int) ≤ t) (hhigh : t < (2 ^ 63 : Int)) :
    t.unixNano = t := wrap64_eq_self (le_trans (by norm_num) hlow) hhigh

theorem Ranged.unixNano {rec : TaskRecord} (h : Ranged rec) :
    rec.scheduledAt.unixNano = rec.scheduledAt := unixNano_eq_self h.scheduled.1 h.scheduled.2

theorem encodeInt64_append_lt_iff {t t' : Int} (ht : 0 ≤ t) (hlt : t < 2 ^ 63) (ht' : 0 ≤ t')
    (hlt' : t' < 2 ^ 63) {x y : GoString} :
    tiKVEncodeInt64 t ++ x < tiKVEncodeInt64 t' ++ y ↔ t < t' ∨ t = t' ∧ x < y :=
  padInt_append_lt_iff (by norm_num) ht (hlt.trans (by norm_num)) ht' (hlt'.trans (by norm_num))

/-- The ready keys have the order in which tasks are taken. -/
theorem readyKey_lt_iff {a b : TaskRecord} (ha : Ranged a) (hb : Ranged b) :
    taskReadyIndexKey a < taskReadyIndexKey b ↔ Before a b := by
  obtain ⟨⟨halow, hahigh⟩, hta, hta'⟩ := ha
  obtain ⟨⟨hblow, hbhigh⟩, htb, htb'⟩ := hb
  have hpa : (10 : Int) ^ 9 - a.priority < 10 ^ 10 := by omega
  have hpb : (10 : Int) ^ 9 - b.priority < 10 ^ 10 := by omega
  unfold taskReadyIndexKey tiKVTaskReadyKey
  simp only [List.append_assoc]
  rw [append_lt_append_left_iff, encodePriorityDesc_eq halow hahigh,
    encodePriorityDesc_eq hblow hbhigh,
    padInt_append_lt_iff (by norm_num) (by omega) hpa (by omega) hpb, append_lt_append_left_iff,
    unixNano_eq_self hta hta', unixNano_eq_self htb htb',
    encodeInt64_append_lt_iff hta hta' htb htb', append_lt_append_left_iff]
  unfold Before taskName
  simp only [List.append_assoc]
  refine or_congr (by omega) (and_congr (by omega) Iff.rfl)

theorem scheduledAt_le_of_waitKey_lt {a b : TaskRecord} (ha : Ranged a) (hb : Ranged b)
    (h : taskWaitIndexKey a < taskWaitIndexKey b) : a.scheduledAt ≤ b.scheduledAt := by
  unfold taskWaitIndexKey tiKVTaskWaitKey at h
  simp only [List.append_assoc] at h
  rw [append_lt_append_left_iff, ha.unixNano, hb.unixNano, encodeInt64_append_lt_iff
    ha.scheduled.1 ha.scheduled.2 hb.scheduled.1 hb.scheduled.2] at h
  exact h.elim le_of_lt fun heq => heq.1.le

/-! ## Promotion -/

section Promotion

variable {s : Store} {clock now : Time} {id k : GoString} {rec : TaskRecord}

/-- The task that a key of the wait index names. -/
def waitOwner (k : GoString) : Option GoString := (tiKVParseTaskWaitKey k).map (·.2.2)

theorem readyKey_ne_of_id {rec' : TaskRecord} (hrec : ValidTask rec) (hrec' : ValidTask rec')
    (h : rec'.taskID ≠ rec.taskID) : taskReadyIndexKey rec' ≠ taskReadyIndexKey rec := by
  intro heq
  have howner := congrArg taskIndexOwner heq
  rw [hrec.owner_ready, hrec'.owner_ready] at howner
  exact h (Option.some.inj howner)

theorem readyKey_ne_of_wait (hk : keyFamily k = lit "task_wait") :
    k ≠ taskReadyIndexKey rec := by
  rintro rfl
  rw [taskReadyIndexKey, keyFamily_taskReady] at hk
  exact absurd hk (by decide)

variable (hs : Rows (fun _ => True) s) (hvalid : AllValid s) (hrow : taskRow s id = some rec)
  (hrun : isTaskRunnableState rec.taskState = true) (hdue : rec.scheduledAt ≤ orNow now clock)
include hs hvalid hrow hrun hdue

/-- What the writes for a wait key leave at the ready key of a due task. -/
theorem lastWrite_promoteWrites (hk : tiKVTaskWaitPrefix <+: k) :
    SortedMap.lastWrite (promoteWrites clock (orNow now clock) s k) (taskReadyIndexKey rec) =
      if waitOwner k = some id then some (some .mark) else none := by
  have hfam : keyFamily k = lit "task_wait" := keyFamily_eq (by decide) hk
  have hkey := @readyKey_ne_of_wait k rec hfam
  have hid := row_taskID hs hrow
  have hwait : ∀ rec', taskWaitIndexKey rec' ≠ taskReadyIndexKey rec := fun rec' =>
    readyKey_ne_of_wait (keyFamily_taskWait _ _ _)
  unfold promoteWrites waitOwner
  cases hparse : tiKVParseTaskWaitKey k with
  | none => simp [SortedMap.lastWrite_cons, hkey]
  | some parts =>
    obtain ⟨t, ty, id'⟩ := parts
    simp only [Option.map_some, Option.some.injEq]
    by_cases hid' : id' = id
    · subst hid'
      have hnot : ¬ rec.scheduledAt > orNow (orNow now clock) clock := by
        rw [orNow_orNow]
        exact not_lt.mpr hdue
      have hput : putTaskRunnableIndexInBatch clock rec (orNow now clock) =
          [Write.set (taskReadyIndexKey rec) .mark] := by
        unfold putTaskRunnableIndexInBatch
        rw [if_neg (by simp [(hvalid hrow).id, hrun]), if_neg hnot]
      rw [hrow, if_pos rfl]
      simp only [hput, SortedMap.lastWrite_append, SortedMap.lastWrite_cons,
        SortedMap.lastWrite_nil, Write.key_set, Write.value_set, if_true, Option.none_or,
        Option.some_or]
    · rw [if_neg hid']
      refine SortedMap.lastWrite_eq_none fun w hw => ?_
      rcases List.mem_append.mp hw with hw | hw
      · cases List.mem_singleton.mp hw
        exact hkey
      · cases hrow' : taskRow s id' with
        | none => simp [hrow'] at hw
        | some rec' =>
          have hne := readyKey_ne_of_id (hvalid hrow) (hvalid hrow')
            (by rw [row_taskID hs hrow', hid]; exact hid')
          rw [hrow'] at hw
          simp only [(hvalid hrow').deleteRunnable_eq, putTaskRunnableIndexInBatch] at hw
          simp only [List.mem_append, List.mem_cons, List.not_mem_nil, or_false] at hw
          rcases hw with (rfl | rfl) | hw
          · exact hne
          · exact hwait rec'
          · split_ifs at hw
            · cases hw
            · cases List.mem_singleton.mp hw
              exact hwait rec'
            · cases List.mem_singleton.mp hw
              exact hne

/-- After a round the ready key of a due task is there when it was there before or the round has
passed a wait key of the task. -/
theorem promoted_ready {done : List (GoString × Value)}
    (hdone : ∀ e ∈ done, tiKVTaskWaitPrefix <+: e.1)
    (h : (s.get? (taskReadyIndexKey rec)).isSome ∨ ∃ e ∈ done, waitOwner e.1 = some id) :
    ((promoted clock now s done).get? (taskReadyIndexKey rec)).isSome := by
  have hlast : SortedMap.lastWrite
      (done.flatMap fun e => promoteWrites clock (orNow now clock) s e.1) (taskReadyIndexKey rec) =
        if ∃ e ∈ done, waitOwner e.1 = some id then some (some .mark) else none := by
    clear h
    induction done with
    | nil => simp
    | cons e done ih =>
      rw [List.flatMap_cons, SortedMap.lastWrite_append,
        ih fun e he => hdone e (List.mem_cons_of_mem _ he),
        lastWrite_promoteWrites hs hvalid hrow hrun hdue (hdone e List.mem_cons_self)]
      by_cases hrest : ∃ e ∈ done, waitOwner e.1 = some id
      · rw [if_pos hrest, if_pos (List.exists_mem_cons_of_exists hrest), Option.some_or]
      · rw [if_neg hrest, Option.none_or]
        exact if_congr (by rw [List.exists_mem_cons_iff, or_iff_left hrest]) rfl rfl
  unfold promoted
  rw [SortedMap.get?_applyAll, hlast]
  split
  · rfl
  · rename_i hno
    exact h.resolve_right hno

end Promotion

section Surfacing

variable {s : Store} {clock now : Time} {k : GoString} {x : Value}

def AllRanged (s : Store) : Prop := ∀ {id rec}, taskRow s id = some rec → Ranged rec

/-- The index keys in a coherent store, by family. -/
theorem index_entry (h : Indexed s) (hk : TaskIndexKey k) (hget : s.get? k = some x) :
    ∃ id rec, taskRow s id = some rec ∧
      (keyFamily k = lit "task_ready" ∧ k = taskReadyIndexKey rec ∨
        keyFamily k = lit "task_wait" ∧ k = taskWaitIndexKey rec ∨
        keyFamily k = lit "task_terminal" ∧ isTaskTerminalState rec.taskState = true ∧
          k = taskTerminalIndexKey rec) := by
  obtain ⟨id, rec, waiting, -, hrow, hkey⟩ := h.present hk hget
  refine ⟨id, rec, hrow, ?_⟩
  rcases indexKeyOf_cases hkey with ⟨-, rfl | rfl⟩ | ⟨hterm, rfl⟩
  · exact Or.inl ⟨keyFamily_taskReady _ _ _ _, rfl⟩
  · exact Or.inr (Or.inl ⟨keyFamily_taskWait _ _ _, rfl⟩)
  · obtain ⟨t, -, hk'⟩ := (h.valid hrow).terminal hterm
    refine Or.inr (Or.inr ⟨?_, hterm, rfl⟩)
    rw [hk', keyFamily_taskTerminal]

theorem wait_entry (h : Indexed s) (hget : s.get? k = some x) (hk : tiKVTaskWaitPrefix <+: k) :
    ∃ id rec, taskRow s id = some rec ∧ k = taskWaitIndexKey rec := by
  have hfam : keyFamily k = lit "task_wait" := keyFamily_eq (by decide) hk
  obtain ⟨id, rec, hrow, ⟨hno, -⟩ | ⟨-, rfl⟩ | ⟨hno, -⟩⟩ :=
    index_entry h (Or.inr (Or.inl hfam)) hget
  · exact absurd (hfam.symm.trans hno) (by decide)
  · exact ⟨id, rec, hrow, rfl⟩
  · exact absurd (hfam.symm.trans hno) (by decide)

theorem ready_entry (h : Indexed s) (hget : s.get? k = some x) (hk : tiKVTaskReadyPrefix <+: k) :
    ∃ id rec, taskRow s id = some rec ∧ k = taskReadyIndexKey rec := by
  have hfam : keyFamily k = lit "task_ready" := keyFamily_eq (by decide) hk
  obtain ⟨id, rec, hrow, ⟨-, rfl⟩ | ⟨hno, -⟩ | ⟨hno, -⟩⟩ := index_entry h (Or.inl hfam) hget
  · exact ⟨id, rec, hrow, rfl⟩
  · exact absurd (hfam.symm.trans hno) (by decide)
  · exact absurd (hfam.symm.trans hno) (by decide)

theorem parse_waitKey {rec : TaskRecord} (h : ValidTask rec) :
    tiKVParseTaskWaitKey (taskWaitIndexKey rec) =
      some (rec.scheduledAt.unixNano, rec.taskType, rec.taskID) :=
  tiKVParseTaskWaitKey_build h.type h.id rec.scheduledAt

theorem passes_waitKey {rec : TaskRecord} (h : ValidTask rec) (hr : Ranged rec)
    (hnow : InInt64 now) :
    passes now (taskWaitIndexKey rec) = decide (rec.scheduledAt ≤ now) := by
  unfold passes
  rw [parse_waitKey h, hr.unixNano, show now.unixNano = now from wrap64_eq_self hnow.1 hnow.2]

/-- What the promotion has to bring about: the rows are as before, and every due task is ready. -/
structure Surfaced (now : Time) (s s' : Store) : Prop where
  same : ∀ id, taskRow s' id = taskRow s id
  ready : ∀ {id rec}, taskRow s id = some rec → isTaskRunnableState rec.taskState = true →
    rec.scheduledAt ≤ now → (s'.get? (taskReadyIndexKey rec)).isSome

theorem promoted_same {done : List (GoString × Value)}
    (hdone : ∀ e ∈ done, tiKVTaskWaitPrefix <+: e.1) (id : GoString) :
    taskRow (promoted clock now s done) id = taskRow s id :=
  taskRow_applyAll_index (promoted_batch hdone).keys

/-- The first round surfaces all due tasks when they fit into its limit. -/
theorem surfaced_first (h : Indexed s) (hr : AllRanged s) (hnow : InInt64 (orNow now clock))
    {limit : Int} (hcount : (((prefixEntries s tiKVTaskWaitPrefix).filter fun e =>
      passes (orNow now clock) e.1).length : Int) ≤ roundLimit limit)
    {done rest : List (GoString × Value)} (hwalk : Walked (orNow now clock) (roundLimit limit)
      (prefixEntries s tiKVTaskWaitPrefix) done rest) :
    Surfaced (orNow now clock) s (promoted clock now s done) := by
  have hdone : ∀ e ∈ done, tiKVTaskWaitPrefix <+: e.1 := fun e he => (hwalk.wait e he).2
  have hfirst : (prefixEntries s tiKVTaskWaitPrefix).Pairwise fun a b =>
      passes (orNow now clock) b.1 = true → passes (orNow now clock) a.1 = true := by
    refine List.Pairwise.imp_of_mem ?_ (prefixEntries_sorted s tiKVTaskWaitPrefix)
    rintro ⟨ka, xa⟩ ⟨kb, xb⟩ ha hb hlt hpass
    obtain ⟨hgeta, hka⟩ := mem_prefixEntries.mp ha
    obtain ⟨hgetb, hkb⟩ := mem_prefixEntries.mp hb
    obtain ⟨ida, ra, hrowa, rfl⟩ := wait_entry h hgeta hka
    obtain ⟨idb, rb, hrowb, rfl⟩ := wait_entry h hgetb hkb
    rw [passes_waitKey (h.valid hrowb) (hr hrowb) hnow, decide_eq_true_eq] at hpass
    rw [passes_waitKey (h.valid hrowa) (hr hrowa) hnow, decide_eq_true_eq]
    exact (scheduledAt_le_of_waitKey_lt (hr hrowa) (hr hrowb) hlt).trans hpass
  have hall := hwalk.all hfirst hcount
  refine ⟨promoted_same hdone, fun {id rec} hrow hrun hdue => ?_⟩
  refine promoted_ready h.rows h.valid hrow hrun hdue hdone ?_
  obtain ⟨waiting, hat⟩ := h.indexed id
  have hvalid := h.valid hrow
  have hid := h.taskID hrow
  cases waiting with
  | false =>
    left
    refine (hat _ (taskIndexKey_ready rec) (hid ▸ hvalid.owner_ready)).mpr ⟨rec, hrow, ?_⟩
    simp [indexKeyOf, hrun]
  | true =>
    right
    have hsome := (hat _ (taskIndexKey_wait rec) (hid ▸ hvalid.owner_wait)).mpr
      ⟨rec, hrow, by simp [indexKeyOf, hrun]⟩
    obtain ⟨x, hx⟩ := Option.isSome_iff_exists.mp hsome
    refine ⟨(taskWaitIndexKey rec, x), hall _ (mem_prefixEntries.mpr ⟨hx, ?_⟩) ?_, ?_⟩
    · unfold taskWaitIndexKey tiKVTaskWaitKey
      simp only [List.append_assoc]
      exact List.prefix_append _ _
    · rw [passes_waitKey hvalid (hr hrow) hnow, decide_eq_true_eq]
      exact hdue
    · unfold waitOwner
      rw [parse_waitKey hvalid, hid]
      rfl

theorem surfaced_promoted {s₁ : Store} (hs₁ : Rows (fun _ => True) s₁) (hvalid : AllValid s)
    (h : Surfaced (orNow now clock) s s₁) {done : List (GoString × Value)}
    (hdone : ∀ e ∈ done, tiKVTaskWaitPrefix <+: e.1) :
    Surfaced (orNow now clock) s (promoted clock now s₁ done) where
  same := fun id => (promoted_same hdone id).trans (h.same id)
  ready := fun hrow hrun hdue => by
    have hrow₁ := (h.same _).trans hrow
    have hvalid₁ : AllValid s₁ := fun hrow => hvalid (h.same _ ▸ hrow)
    exact promoted_ready hs₁ hvalid₁ hrow₁ hrun hdue hdone (Or.inl (h.ready hrow hrun hdue))

end Surfacing

/-! ## The claim -/

section Claim

variable {s : Store} {clock now : Time} {taskType id k : GoString} {rec : TaskRecord}

/-- A task of the type that may run now. -/
def due (now : Time) (taskType : GoString) (rec : TaskRecord) : Bool :=
  isTaskRunnableState rec.taskState ∧ rec.scheduledAt ≤ now ∧
    (taskType = [] ∨ rec.taskType = taskType)

/-- A ready key of a task that the claim may take. -/
def wanted (now : Time) (taskType : GoString) (s : Store) (k : GoString) : Bool :=
  (named s k).any (due now taskType)

theorem parse_readyKey (h : ValidTask rec) : tiKVParseTaskReadyKey (taskReadyIndexKey rec) =
    some (rec.scheduledAt.unixNano, rec.taskType, rec.taskID) :=
  tiKVParseTaskReadyKey_build h.type h.id rec.priority rec.scheduledAt

theorem named_readyKey (hs : Rows (fun _ => True) s) (hvalid : AllValid s)
    (hrow : taskRow s id = some rec) : named s (taskReadyIndexKey rec) = some rec := by
  unfold named
  rw [parse_readyKey (hvalid hrow), Option.bind_some, row_taskID hs hrow, hrow]

theorem wanted_readyKey (hs : Rows (fun _ => True) s) (hvalid : AllValid s)
    (hrow : taskRow s id = some rec) :
    wanted now taskType s (taskReadyIndexKey rec) = due now taskType rec := by
  unfold wanted
  rw [named_readyKey hs hvalid hrow]
  rfl

theorem wanted_congr {s' : Store} (h : ∀ id, taskRow s' id = taskRow s id) :
    (fun e : GoString × Value => wanted now taskType s' e.1) =
      fun e => wanted now taskType s e.1 := by
  funext e
  unfold wanted
  rw [named_congr h]

theorem due_eq_claimable (htype : ¬ (taskType ≠ [] ∧ rec.taskType ≠ taskType)) :
    due now taskType rec = claimable rec.taskType now rec := by
  have htype' : taskType = [] ∨ rec.taskType = taskType := by
    rcases not_and_or.mp htype with h | h
    · exact Or.inl (not_not.mp h)
    · exact Or.inr (not_not.mp h)
  unfold due claimable
  simp only [htype', and_true, true_and, not_lt, gt_iff_lt]

/-- The walk over ready keys takes the first one whose task is due. -/
theorem atomically_claimReadyLoop {es : List (GoString × Value)} (hs : Rows (fun _ => True) s)
    (hvalid : AllValid s) (hnow : orNow now clock = now)
    (hes : ∀ e ∈ es, ∃ id rec, taskRow s id = some rec ∧ e.1 = taskReadyIndexKey rec) :
    ∃ s₁, (∀ id, taskRow s₁ id = taskRow s id) ∧
      match es.find? fun e => wanted now taskType s e.1 with
      | none => atomically (claimReadyLoop clock now taskType es) s = (.ok none, s₁)
      | some e => ∀ id rec, taskRow s id = some rec → e.1 = taskReadyIndexKey rec →
          atomically (claimReadyLoop clock now taskType es) s =
            (.ok (some (claimedRecord rec now)), s₁.applyAll (claimWrites e.1 id now rec)) := by
  induction es generalizing s with
  | nil => exact ⟨s, fun _ => rfl, rfl⟩
  | cons e es ih =>
    obtain ⟨k, x⟩ := e
    obtain ⟨id, rec, hrow, hk⟩ := hes _ List.mem_cons_self
    dsimp only at hk
    subst hk
    have hrest : ∀ e ∈ es, ∃ id rec, taskRow s id = some rec ∧ e.1 = taskReadyIndexKey rec :=
      fun e he => hes e (List.mem_cons_of_mem _ he)
    have hid := row_taskID hs hrow
    have hwanted := @wanted_readyKey s now taskType id rec hs hvalid hrow
    unfold claimReadyLoop
    simp only [parse_readyKey (hvalid hrow), hid]
    by_cases htype : taskType ≠ [] ∧ rec.taskType ≠ taskType
    · have hno : wanted now taskType s (taskReadyIndexKey rec) = false := by
        rw [hwanted]
        simp [due, htype.1, htype.2]
      simp only [if_pos htype, List.find?_cons, hno]
      exact ih hs hvalid hrest
    · rw [due_eq_claimable htype] at hwanted
      simp only [if_neg htype]
      rw [atomically_getTaskRecord hs, hrow]
      cases hclaim : claimable rec.taskType now rec with
      | false =>
        -- the index keys of the row are rebuilt; the rows stay as they are
        have hbatch := (@healBatch_rewrite s now clock id rec hs hvalid hrow).index
        have hsame : ∀ id', taskRow (s.applyAll (rewriteWrites clock rec now)) id' =
            taskRow s id' := fun _ => taskRow_applyAll_index hbatch.keys
        obtain ⟨s₁, hsame₁, hrun⟩ := @ih (s.applyAll (rewriteWrites clock rec now))
          (hs.applyAll hbatch.rows) (fun hrow => hvalid (hsame _ ▸ hrow))
          (by simpa only [hsame] using hrest)
        refine ⟨s₁, fun id => (hsame₁ id).trans (hsame id), ?_⟩
        rw [hclaim] at hwanted
        simp only [wanted_congr hsame, hsame] at hrun
        simp only [List.find?_cons, hwanted, hclaim, if_true]
        rw [show atomically (rewriteTaskRunnableIndexLocked clock rec now >>= fun _ =>
            claimReadyLoop clock now taskType es) s =
              atomically (claimReadyLoop clock now taskType es)
                (s.applyAll (rewriteWrites clock rec now)) from
          run_bind_ok (atomically_commit _ s) _]
        exact hrun
      | true =>
        refine ⟨s, fun _ => rfl, ?_⟩
        rw [hclaim] at hwanted
        simp only [List.find?_cons, hwanted, hclaim]
        intro id' rec' hrow' hk'
        obtain rfl : rec = rec' := by
          have hnamed := named_readyKey hs hvalid hrow
          rw [hk', named_readyKey hs hvalid hrow'] at hnamed
          exact (Option.some.inj hnamed).symm
        obtain rfl : id = id' := hid.symm.trans (row_taskID hs hrow')
        have hclaim' : claimable rec.taskType (orNow now clock) rec = true := by
          rw [hnow]
          exact hclaim
        have htake := @atomically_tryClaimTaskCAS s now clock id rec (Option TaskRecord)
          (taskReadyIndexKey rec) rec.taskType hs hrow (hid ▸ (hvalid hrow).id) hclaim'
        rw [hnow] at htake
        exact htake _

theorem taskRow_claimWrites (hk : TaskIndexKey k) (id' : GoString) :
    taskRow (s.applyAll (claimWrites k id now rec)) id' =
      if id' = id then some (claimedRecord rec now) else taskRow s id' := by
  obtain ⟨post, hpost, hwrites⟩ := @claimWrites_around now k id rec hk
  rw [hwrites]
  exact taskRow_around indexBatch_nil hpost id _ id'

theorem toNat_burstRounds (cfg : Config) :
    ∃ rounds, (resolveTaskWaitPromotePlan cfg).burstRounds.toNat = rounds + 1 := by
  refine Nat.exists_eq_add_one.mpr ?_
  simp only [resolveTaskWaitPromotePlan]
  split_ifs <;> omega

theorem roundLimit_base (cfg : Config) :
    roundLimit (resolveTaskWaitPromotePlan cfg).base = (resolveTaskWaitPromotePlan cfg).base := by
  simp only [resolveTaskWaitPromotePlan, roundLimit]
  split_ifs <;> omega

/-- A claim takes the first of all tasks of the type that are due, and no other row changes; when no
task is due it takes none. -/
theorem claim_takes_first (cfg : Config) (clock now : Time) (taskType : GoString) {s : Store}
    (hs : Indexed s) (hranged : AllRanged s) (hnow : InInt64 (orNow now clock))
    (hcount : (((prefixEntries s tiKVTaskWaitPrefix).filter fun e =>
      passes (orNow now clock) e.1).length : Int) ≤ (resolveTaskWaitPromotePlan cfg).base) :
    (∃ id rec, taskRow s id = some rec ∧ due (orNow now clock) taskType rec = true ∧
      (∀ id' rec', taskRow s id' = some rec' → due (orNow now clock) taskType rec' = true →
        id' ≠ id → Before rec rec') ∧
      (atomically (claimNextTieringTask cfg clock now taskType) s).1 =
        .ok (some (claimedRecord rec (orNow now clock))) ∧
      ∀ id', taskRow (atomically (claimNextTieringTask cfg clock now taskType) s).2 id' =
        if id' = id then some (claimedRecord rec (orNow now clock)) else taskRow s id') ∨
    ((∀ id rec, taskRow s id = some rec → due (orNow now clock) taskType rec = false) ∧
      (atomically (claimNextTieringTask cfg clock now taskType) s).1 = .ok none ∧
      ∀ id, taskRow (atomically (claimNextTieringTask cfg clock now taskType) s).2 id =
        taskRow s id) := by
  obtain ⟨rounds, hrounds⟩ := toNat_burstRounds cfg
  obtain ⟨s₁, hs₁, h₁, hrest⟩ := @atomically_promoteRounds_first (Option TaskRecord) s clock now
    (Surfaced (orNow now clock) s)
    (fun s₂ done hs₂ hdone h => surfaced_promoted hs₂ hs.valid h fun e he => (hdone e he).2)
    hs.rows (resolveTaskWaitPromotePlan cfg).adaptiveMax _
    (fun done rest hwalk => surfaced_first hs hranged hnow
      (by rw [roundLimit_base]; exact hcount) hwalk) rounds
  have hindexed : Indexed s₁ := by
    have hkeeps := ((@keeps_promoteRounds clock now (resolveTaskWaitPromotePlan cfg).adaptiveMax
      (rounds + 1) (resolveTaskWaitPromotePlan cfg).base).bind fun _ =>
        keeps_pure (none : Option TaskRecord)).run hs
    rw [hrest] at hkeeps
    exact hkeeps
  have hes : ∀ e ∈ prefixEntries s₁ tiKVTaskReadyPrefix,
      ∃ id rec, taskRow s₁ id = some rec ∧ e.1 = taskReadyIndexKey rec := by
    rintro ⟨k, x⟩ he
    obtain ⟨hget, hk⟩ := mem_prefixEntries.mp he
    exact ready_entry hindexed hget hk
  -- every due task has its key in the scan
  have hscan : ∀ {id rec}, taskRow s id = some rec → due (orNow now clock) taskType rec = true →
      ∃ x, (taskReadyIndexKey rec, x) ∈ prefixEntries s₁ tiKVTaskReadyPrefix ∧
        wanted (orNow now clock) taskType s₁ (taskReadyIndexKey rec) = true := by
    intro id rec hrow hdue
    have hdue' := of_decide_eq_true hdue
    obtain ⟨x, hx⟩ := Option.isSome_iff_exists.mp (h₁.ready hrow hdue'.1 hdue'.2.1)
    refine ⟨x, mem_prefixEntries.mpr ⟨hx, ?_⟩, ?_⟩
    · unfold taskReadyIndexKey tiKVTaskReadyKey
      simp only [List.append_assoc]
      exact List.prefix_append _ _
    · rw [wanted_readyKey hs₁ hindexed.valid ((h₁.same id).trans hrow)]
      exact hdue
  obtain ⟨s₂, hsame₂, hwalk⟩ := @atomically_claimReadyLoop s₁ clock (orNow now clock) taskType _ hs₁
    hindexed.valid (orNow_orNow now clock) hes
  have hrun : atomically (claimNextTieringTask cfg clock now taskType) s =
      atomically (claimReadyLoop clock (orNow now clock) taskType
        (prefixEntries s₁ tiKVTaskReadyPrefix)) s₁ := by
    unfold claimNextTieringTask
    simp only [hrounds]
    rw [hrest]
    unfold claimNextTieringTaskFromReadyIndexLocked
    exact atomically_iter
  rw [hrun]
  cases hfind : (prefixEntries s₁ tiKVTaskReadyPrefix).find? fun e =>
      wanted (orNow now clock) taskType s₁ e.1 with
  | none =>
    rw [hfind] at hwalk
    refine Or.inr ⟨fun id rec hrow => ?_, ?_, fun id => ?_⟩
    · refine Bool.eq_false_iff.mpr fun hdue => ?_
      obtain ⟨x, hmem, hwant⟩ := hscan hrow hdue
      exact List.find?_eq_none.mp hfind _ hmem hwant
    · rw [hwalk]
    · rw [hwalk]
      exact (hsame₂ id).trans (h₁.same id)
  | some e =>
    rw [hfind] at hwalk
    obtain ⟨hwant, before, after, hsplit, hbefore⟩ := List.find?_eq_some_iff_append.mp hfind
    obtain ⟨id, rec, hrow₁, hk⟩ := hes e (List.mem_of_find?_eq_some hfind)
    have hrow : taskRow s id = some rec := (h₁.same id).symm.trans hrow₁
    have hresult := hwalk id rec hrow₁ hk
    refine Or.inl ⟨id, rec, hrow, ?_, fun id' rec' hrow' hdue' hne => ?_, ?_, fun id' => ?_⟩
    · rw [hk, wanted_readyKey hs₁ hindexed.valid hrow₁] at hwant
      exact hwant
    · obtain ⟨x, hmem, hwant'⟩ := hscan hrow' hdue'
      have hne' : taskReadyIndexKey rec' ≠ e.1 := by
        rw [hk]
        refine readyKey_ne_of_id (hs.valid hrow) (hs.valid hrow') ?_
        rw [hs.taskID hrow', hs.taskID hrow]
        exact hne
      rw [hsplit] at hmem
      rcases List.mem_append.mp hmem with hmem | hmem
      · have hno := hbefore _ hmem
        rw [hwant'] at hno
        cases hno
      · rcases List.mem_cons.mp hmem with heq | hmem
        · exact absurd (congrArg Prod.fst heq) hne'
        · have hsorted := prefixEntries_sorted s₁ tiKVTaskReadyPrefix
          rw [hsplit] at hsorted
          have hlt := (List.pairwise_cons.mp (List.pairwise_append.mp hsorted).2.1).1 _ hmem
          rw [hk] at hlt
          exact (readyKey_lt_iff (hranged hrow) (hranged hrow')).mp hlt
    · rw [hresult]
    · rw [hresult]
      have hindex : TaskIndexKey e.1 := by
        rw [hk]
        exact taskIndexKey_ready rec
      rw [taskRow_claimWrites hindex, hsame₂, h₁.same]

end Claim

/-- A ready task and a more urgent one that has waited and is due at time 9. -/
def queuedTasks : KV Unit := do
  enqueueTieringTask 1 1 (lit "t") (lit "a") 1 (lit "REPAIR") 100 1
  enqueueTieringTask 1 1 (lit "u") (lit "b") 1 (lit "REPAIR") 200 5

def queuedStore : Store := (atomically queuedTasks SortedMap.empty).2

theorem queuedStore_indexed : Indexed queuedStore := by
  have hkeeps : Keeps Indexed queuedTasks :=
    (keeps_enqueueTieringTask (by decide) 1).bind fun _ => keeps_enqueueTieringTask (by decide) 5
  exact hkeeps.run indexed_empty

theorem queuedStore_ranged : AllRanged queuedStore := by
  have hall : ∀ e ∈ queuedStore.entries, e.2.asTask.all (fun rec =>
      (-10 ^ 9 ≤ rec.priority ∧ rec.priority ≤ 10 ^ 9) ∧
        (0 : Int) ≤ rec.scheduledAt ∧ rec.scheduledAt < (2 ^ 63 : Int)) = true := by decide +kernel
  intro id rec hrow
  obtain ⟨hpriority, hscheduled⟩ := of_decide_eq_true (row_of_entries hall hrow)
  exact ⟨hpriority, hscheduled⟩

theorem queuedStore_claim : ∃ id rec, taskRow queuedStore id = some rec ∧
    (∀ id' rec', taskRow queuedStore id' = some rec' → due 9 [] rec' = true → id' ≠ id →
      Before rec rec') ∧
    (atomically (claimNextTieringTask {} 9 9 []) queuedStore).1 =
      .ok (some (claimedRecord rec 9)) := by
  have hdue : ∃ rec, taskRow queuedStore (lit "u") = some rec ∧ due 9 [] rec = true := by
    refine ⟨newTask (lit "u") (lit "b") 1 (lit "REPAIR") 200 5, ?_, ?_⟩
    · decide +kernel
    · decide +kernel
  rcases claim_takes_first {} 9 9 [] queuedStore_indexed queuedStore_ranged
    ⟨by decide, by decide⟩ (by decide +kernel) with ⟨id, rec, hrow, -, hbefore, hresult, -⟩ | hnone
  · exact ⟨id, rec, hrow, hbefore, hresult⟩
  · obtain ⟨rec, hrow, hrec⟩ := hdue
    have hno := hnone.1 _ _ hrow
    rw [show orNow (9 : Time) 9 = 9 from rfl, hrec] at hno
    cases hno

end TieredStore.Meta.ClaimOrder
