import TieredStore.Meta.Reads
import TieredStore.Meta.TaskMoves

/-!
# Scans that enqueue while they read

The repair scan and the history scan read objects, versions and placements, and enqueue tasks in
between. An enqueue touches task keys only, so what the scan reads later is what the store held at
its start (`SameData`). One enqueue changes at most the row of its own task (`Enqueued`), and it
changes that row exactly when the task is idle: absent, DONE or FAILED.
-/

namespace TieredStore.Meta.TaskScans

open Lib Lib.Prog TaskCoherence TaskMoves

/-! ## The data beside the tasks -/

/-- The stores differ in task keys only. -/
def SameData (s s' : Store) : Prop := ∀ k, ¬ TaskKey k → s'.get? k = s.get? k

theorem sameData_refl (s : Store) : SameData s s := fun _ _ => rfl

theorem SameData.trans {s s' s'' : Store} (h : SameData s s') (h' : SameData s' s'') :
    SameData s s'' := fun k hk => (h' k hk).trans (h k hk)

/-- A scan depends on the keys under its prefix only. -/
theorem prefixEntries_congr {s s' : Store} {pre : GoString}
    (h : ∀ k, pre <+: k → s'.get? k = s.get? k) : prefixEntries s' pre = prefixEntries s pre := by
  refine SortedMap.entries_ext (prefixEntries_sorted s' pre) (prefixEntries_sorted s pre) ?_
  intro k
  unfold prefixEntries
  rw [SortedMap.find_filter (fun k => decide (pre <+: k)),
    SortedMap.find_filter (fun k => decide (pre <+: k))]
  by_cases hk : pre <+: k
  · rw [if_pos (decide_eq_true hk), if_pos (decide_eq_true hk)]
    exact h k hk
  · rw [if_neg (by simpa using hk), if_neg (by simpa using hk)]

section Same

variable {s s' : Store} (h : SameData s s')
include h

theorem SameData.get {fam k : GoString} (hfam : DataFamily fam) (hk : keyFamily k = fam) :
    s'.get? k = s.get? k := h k (not_taskKey hk hfam)

theorem SameData.scan {fam pre : GoString} (hfam : DataFamily fam)
    (hpre : ∀ k, pre <+: k → keyFamily k = fam) : prefixEntries s' pre = prefixEntries s pre :=
  prefixEntries_congr fun k hk => h.get hfam (hpre k hk)

theorem SameData.version (o : GoString) (v : Int) :
    (catalog s').version o v = (catalog s).version o v :=
  congrArg (Option.bind · Value.asObjectVersion) (h.get (by decide) (keyFamily_objectVersion o v))

theorem SameData.replicaRows (o : GoString) (v : Int) : replicaRows s' o v = replicaRows s o v :=
  congrArg (List.filterMap _)
    (h.scan (by decide) fun _ hk => keyFamily_of_replica_version_scan hk)

theorem SameData.shardRows (o : GoString) (v : Int) : shardRows s' o v = shardRows s o v :=
  congrArg (List.filterMap _)
    (h.scan (by decide) fun _ hk => keyFamily_of_ecShard_version_scan hk)

end Same

/-! ## Objects and versions -/

/-- The heads of the store, in the order of their keys. -/
def objectRows (s : Store) : List ObjectRecord :=
  (prefixEntries s tiKVPrefixObject).filterMap fun e => e.2.asObject

/-- The version rows that a scan of an object finds, in the order of their keys. -/
def versionRows (s : Store) (o : GoString) : List ObjectVersionRecord :=
  (prefixEntries s (tiKVObjectVersionPrefix o)).filterMap fun e => e.2.asObjectVersion

theorem keyFamily_of_object_scan {k : GoString} (h : tiKVPrefixObject <+: k) :
    keyFamily k = lit "obj" := keyFamily_eq (by decide) h

section Listings

variable {β : Type} {P : GoString → Prop} {s s' : Store}

theorem SameData.versionRows (h : SameData s s') (o : GoString) :
    versionRows s' o = versionRows s o :=
  congrArg (List.filterMap _) (h.scan (by decide) fun _ hk => keyFamily_of_version_scan hk)

theorem atomically_listObjects (hs : Typed s) {f : List ObjectRecord → KV β} :
    atomically (listObjects >>= f) s = atomically (f (TaskScans.objectRows s)) s := by
  unfold listObjects
  rw [bind_assoc]
  refine atomically_decodeAll hs (fun k => keyFamily_of_object_scan) ?_
  intro x hx
  cases x with
  | object r => exact ⟨r, rfl⟩
  | _ => exact absurd hx (by simp only [valueFamilies]; decide)

theorem atomically_listObjectVersionRecords (hs : Typed s) {o : GoString}
    {f : List ObjectVersionRecord → KV β} :
    atomically (listObjectVersionRecords o >>= f) s =
      atomically (f (TaskScans.versionRows s o)) s := by
  unfold listObjectVersionRecords
  rw [bind_assoc]
  refine atomically_decodeAll hs (fun k => keyFamily_of_version_scan) ?_
  intro x hx
  cases x with
  | objectVersion r => exact ⟨r, rfl⟩
  | _ => exact absurd hx (by simp only [valueFamilies]; decide)

theorem mem_objectRows (hs : Rows P s) {r : ObjectRecord} :
    r ∈ TaskScans.objectRows s ↔ s.get? (tiKVObjectKey r.objectID) = some (.object r) := by
  unfold TaskScans.objectRows
  simp only [List.mem_filterMap, Value.asObject_eq_some]
  constructor
  · rintro ⟨⟨k, x⟩, he, rfl⟩
    obtain ⟨hget, -⟩ := mem_prefixEntries.mp he
    rwa [(hs _ _ hget).1] at hget
  · intro hget
    exact ⟨_, mem_prefixEntries.mpr ⟨hget, List.prefix_append _ _⟩, rfl⟩

/-- The heads come in the order of their keys. -/
theorem objectRows_sorted (hs : Rows P s) : (TaskScans.objectRows s).Pairwise fun a b =>
    tiKVObjectKey a.objectID < tiKVObjectKey b.objectID := by
  refine List.pairwise_filterMap.mpr ((prefixEntries_sorted s tiKVPrefixObject).imp_of_mem ?_)
  rintro ⟨k, x⟩ ⟨k', x'⟩ hmem hmem' hlt a ha b hb
  rw [Value.asObject_eq_some] at ha hb
  subst ha hb
  have hk := (hs _ _ (mem_prefixEntries.mp hmem).1).1
  have hk' := (hs _ _ (mem_prefixEntries.mp hmem').1).1
  rwa [← hk, ← hk']

theorem objectRows_distinct (hs : Rows P s) :
    (TaskScans.objectRows s).Pairwise fun a b => a.objectID ≠ b.objectID := by
  refine (objectRows_sorted hs).imp ?_
  intro a b hlt heq
  rw [heq] at hlt
  exact lt_irrefl _ hlt

end Listings

/-! ## Names of tasks -/

/-- The name of a task about a version: the kind of task, the object and the version. -/
def versionTask (kind o : GoString) (v : Int) : GoString :=
  kind ++ o ++ lit ":" ++ Bytes.formatInt v

theorem versionTask_ne_nil (kind o : GoString) (v : Int) : versionTask kind o v ≠ [] := by
  have hcolon : lit ":" ≠ [] := by decide
  simp [versionTask, hcolon]

theorem colon_not_mem_formatInt (v : Int) : (58 : UInt8) ∉ Bytes.formatInt v :=
  Bytes.not_mem_formatInt (by decide) v

theorem versionTask_inj {kind o o' : GoString} {v v' : Int} :
    versionTask kind o v = versionTask kind o' v' ↔ o = o' ∧ v = v' := by
  constructor
  · intro h
    have hcolon : lit ":" = [58] := by decide
    simp only [versionTask, hcolon, List.append_assoc, List.append_cancel_left_eq,
      List.singleton_append] at h
    obtain ⟨ho, hv⟩ := Bytes.append_sep_inj_right (colon_not_mem_formatInt v)
      (colon_not_mem_formatInt v') h
    exact ⟨ho, Bytes.formatInt_injective hv⟩
  · rintro ⟨rfl, rfl⟩
    rfl

/-! ## One enqueue -/

/-- A task that an enqueue may take: it is absent, DONE or FAILED. -/
def taskIdle (s : Store) (id : GoString) : Bool :=
  match taskRow s id with
  | none => true
  | some rec => isTaskTerminalState rec.taskState

/-- The tasks `ids` were created or put back to PENDING, and nothing else was touched. -/
structure Enqueued (ids : List GoString) (s s' : Store) : Prop where
  rows : Rows AnyID s'
  data : SameData s s'
  pending : ∀ id ∈ ids, ∃ rec, taskRow s' id = some rec ∧ rec.taskState = .pending
  rest : ∀ id, id ∉ ids → taskRow s' id = taskRow s id

section Enqueue

variable {β : Type} {s s' s'' : Store} {ids ids' : List GoString} {id : GoString}

theorem enqueued_nil (hs : Rows AnyID s) : Enqueued [] s s where
  rows := hs
  data := sameData_refl s
  pending := fun _ h => by simp at h
  rest := fun _ _ => rfl

theorem Enqueued.trans (h : Enqueued ids s s') (h' : Enqueued ids' s' s'') :
    Enqueued (ids ++ ids') s s'' where
  rows := h'.rows
  data := h.data.trans h'.data
  pending := by
    intro id hid
    by_cases hid' : id ∈ ids'
    · exact h'.pending id hid'
    · obtain ⟨rec, hrec, hstate⟩ := h.pending id ((List.mem_append.mp hid).resolve_right hid')
      exact ⟨rec, (h'.rest id hid').trans hrec, hstate⟩
  rest := by
    intro id hid
    rw [List.mem_append, not_or] at hid
    exact (h'.rest id hid.2).trans (h.rest id hid.1)

/-- Other tasks stay as idle as they were. -/
theorem Enqueued.taskIdle (h : Enqueued ids s s') (hid : id ∉ ids) :
    taskIdle s' id = taskIdle s id := by
  unfold TaskScans.taskIdle
  rw [h.rest id hid]

theorem Enqueued.filter_idle (h : Enqueued ids s s') {l : List GoString}
    (hl : ∀ id ∈ l, id ∉ ids) : l.filter (TaskScans.taskIdle s') = l.filter (TaskScans.taskIdle s) :=
  List.filter_congr fun id hid => h.taskIdle (hl id hid)

/-- When the tasks were idle, their rows are the ones that changed. -/
theorem Enqueued.changed_iff (h : Enqueued ids s s')
    (hidle : ∀ id ∈ ids, TaskScans.taskIdle s id = true) :
    taskRow s' id ≠ taskRow s id ↔ id ∈ ids := by
  constructor
  · intro hne
    by_contra hid
    exact hne (h.rest id hid)
  · intro hid heq
    obtain ⟨rec, hrec, hstate⟩ := h.pending id hid
    have hidle := hidle id hid
    rw [TaskScans.taskIdle, ← heq, hrec] at hidle
    simp [hstate, isTaskTerminalState] at hidle

variable {clock now : Time} {o ty : GoString} {v priority : Int}

theorem atomically_getTaskRecord (hs : Rows AnyID s) {f : Option TaskRecord → KV β} :
    atomically (getTaskRecord (tiKVTaskKey id) >>= f) s = atomically (f (taskRow s id)) s :=
  atomically_getJSON (get_task hs id) fun _ => rfl

/-- A row that is written alone. -/
theorem atomically_writeTaskRecord (hs : Rows AnyID s) {prev : Option TaskRecord}
    {next : TaskRecord} (hid : next.taskID ≠ []) (hstate : next.taskState = .pending) :
    ∃ s', Enqueued [next.taskID] s s' ∧ ∀ f : Unit → KV β,
      atomically (writeTaskRecordWithRunnableIndexLocked clock prev next now >>= f) s =
        atomically (f ()) s' := by
  obtain ⟨pre, post, hpre, hpost, heq⟩ := taskRecordBatch_around clock prev next now
  refine ⟨s.applyAll (taskRecordBatch clock prev next now), ?_, ?_⟩
  · rw [heq]
    constructor
    · exact hs.applyAll (rows_around hpre hpost (rfl : next.taskID = next.taskID))
    · exact fun k hk => get_other (keys_around hpre hpost next.taskID _) hk
    · intro id hmem
      obtain rfl := List.mem_singleton.mp hmem
      exact ⟨next, by rw [taskRow_around hpre hpost, if_pos rfl], hstate⟩
    · intro id hid
      rw [taskRow_around hpre hpost, if_neg fun h => hid (List.mem_singleton.mpr h)]
  · intro f
    unfold writeTaskRecordWithRunnableIndexLocked
    rw [if_neg hid]
    exact run_bind_ok (atomically_commit _ _) f

/-- The enqueue takes an idle task and leaves any other alone. Its answer says which. -/
theorem atomically_enqueueOrRequeue (hs : Rows AnyID s) (hid : id ≠ []) :
    ∃ s', Enqueued (if TaskScans.taskIdle s id = true then [id] else []) s s' ∧
      ∀ f : Bool → KV β, atomically (enqueueOrRequeue clock now id o v ty priority >>= f) s =
        atomically (f (TaskScans.taskIdle s id)) s' := by
  unfold enqueueOrRequeue TaskScans.taskIdle
  simp only [bind_assoc, atomically_getTaskRecord hs]
  cases hrow : taskRow s id with
  | none =>
    simp only [if_pos, bind_assoc]
    obtain ⟨s', hs', hrun⟩ := @atomically_writeTaskRecord β s clock now hs none
      (newTask id o v ty priority now) hid rfl
    exact ⟨s', hs', fun f => hrun _⟩
  | some rec =>
    have htask : rec.taskID = id := row_taskID hs hrow
    have hback : ∀ next : TaskRecord, next.taskID = rec.taskID → next.taskState = .pending →
        ∃ s', Enqueued [id] s s' ∧ ∀ f : Bool → KV β,
          atomically (writeTaskRecordWithRunnableIndexLocked clock (some rec) next now >>=
            fun _ => pure true >>= f) s = atomically (f true) s' := by
      intro next hnext hstate
      obtain ⟨s', hs', hrun⟩ := @atomically_writeTaskRecord β s clock now hs (some rec) next
        (by rw [hnext, htask]; exact hid) hstate
      rw [hnext, htask] at hs'
      exact ⟨s', hs', fun f => hrun _⟩
    obtain ⟨_, _, _, _, state, _, _, _, _, _, _⟩ := rec
    cases state with
    | done | failed =>
      simp only [isTaskTerminalState, if_pos, bind_assoc]
      exact hback _ rfl rfl
    | _ => exact ⟨s, enqueued_nil hs, fun f => rfl⟩

end Enqueue

end TieredStore.Meta.TaskScans
