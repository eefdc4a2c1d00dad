import TieredStore.Meta.Changes
import TieredStore.Meta.TaskMoves

/-!
# HOT versions and the tiering machinery

A HOT version waits for its migration in one of two places: in the due index, where a tiering scan
finds it, or in the task table, as the row `repl2ec:<object>:<version>`. A commit puts it into the
due index, and a scan moves it over to the task table. `Tracked` says that every current HOT
version is in one of the two places.

The purge of finished tasks looks at the state and the age of a row only. It also removes the row
of a migration that failed, and the object is then in neither place (`hot_object_stranded`). As
long as no purge starts from a store where a finished migration within its cutoff is the last trace
of a current HOT version, every current HOT version stays tracked (`hot_objects_tracked`).
-/

namespace TieredStore.Meta.Tracking

open Lib Lib.Prog TaskCoherence TaskMoves

/-! ## Where a version waits -/

/-- The task that migrates a version. -/
def migrationTask (objectID : GoString) (version : Int) : GoString :=
  lit "repl2ec:" ++ objectID ++ lit ":" ++ Bytes.formatInt version

/-- The current version of the object is in tier HOT. -/
structure HotHead (s : Store) (o : GoString) (obj : ObjectRecord) : Prop where
  head : s.get? (tiKVObjectKey o) = some (.object obj)
  hot : ∃ ver, s.get? (tiKVObjectVersionKey o obj.currentVersion) = some (.objectVersion ver) ∧
    ver.tier = .hot

/-- The due index has an entry for the version, and the reference leads to it. -/
def HasDueEntry (s : Store) (o : GoString) (v : Int) : Prop :=
  ∃ ref due, s.get? (tiKVTierDueRefKey o v) = some (.tierDueRef ref) ∧
    s.get? ref.dueKey = some (.tierDue due) ∧ due.objectID = o ∧ due.version = v

def HasTask (s : Store) (o : GoString) (v : Int) : Prop := taskRow s (migrationTask o v) ≠ none

def Tracked (s : Store) : Prop :=
  ∀ o obj, HotHead s o obj → HasDueEntry s o obj.currentVersion ∨ HasTask s o obj.currentVersion

/-- A scan does not drop the due entry of the object. -/
def Waiting (obj : ObjectRecord) : Prop := obj.state = .hotActive ∨ obj.state = .migrationPending

/-- The invariant that every key-value step keeps. -/
structure Good (s : Store) : Prop where
  rows : Rows AnyID s
  waiting : ∀ o obj, HotHead s o obj → Waiting obj
  tracked : Tracked s

theorem good_empty : Good SortedMap.empty where
  rows := rows_empty
  waiting := by
    rintro o obj ⟨hhead, -⟩
    cases hhead
  tracked := by
    rintro o obj ⟨hhead, -⟩
    cases hhead

section Frames

variable {s s' : Store} {o : GoString} {v : Int}

/-- The head and the version rows of an object decide whether it is HOT. -/
theorem HotHead.of_same {obj : ObjectRecord} (h : HotHead s o obj)
    (hhead : s'.get? (tiKVObjectKey o) = s.get? (tiKVObjectKey o))
    (hver : s'.get? (tiKVObjectVersionKey o obj.currentVersion) =
      s.get? (tiKVObjectVersionKey o obj.currentVersion)) : HotHead s' o obj :=
  ⟨hhead.trans h.head, by rw [hver]; exact h.hot⟩

/-- An entry stays as long as no due key and no reference of the version is touched. -/
theorem HasDueEntry.of_same (hs : Rows AnyID s) (h : HasDueEntry s o v)
    (href : s'.get? (tiKVTierDueRefKey o v) = s.get? (tiKVTierDueRefKey o v))
    (hdue : ∀ t, s'.get? (tiKVTierDueKey t o v) = s.get? (tiKVTierDueKey t o v)) :
    HasDueEntry s' o v := by
  obtain ⟨ref, due, hrow, hentry, ho, hv⟩ := h
  obtain ⟨hkey, -, hdueKey⟩ := hs _ _ hrow
  obtain ⟨ho', hv'⟩ := tiKVTierDueRefKey_inj.mp hkey
  rw [← ho', ← hv'] at hdueKey
  refine ⟨ref, due, href.trans hrow, ?_, ho, hv⟩
  rw [hdueKey, hdue, ← hdueKey]
  exact hentry

/-- What a batch has to keep, for an object whose head and version rows it leaves alone. -/
theorem tracked_of_same {obj : ObjectRecord} (hs : Good s) (h : HotHead s' o obj)
    (hhead : s.get? (tiKVObjectKey o) = s'.get? (tiKVObjectKey o))
    (hver : s.get? (tiKVObjectVersionKey o obj.currentVersion) =
      s'.get? (tiKVObjectVersionKey o obj.currentVersion))
    (hdue : HasDueEntry s o obj.currentVersion →
      HasDueEntry s' o obj.currentVersion ∨ HasTask s' o obj.currentVersion)
    (htask : HasTask s o obj.currentVersion →
      HasDueEntry s' o obj.currentVersion ∨ HasTask s' o obj.currentVersion) :
    Waiting obj ∧ (HasDueEntry s' o obj.currentVersion ∨ HasTask s' o obj.currentVersion) := by
  have hbefore : HotHead s o obj := h.of_same hhead hver
  refine ⟨hs.waiting o obj hbefore, ?_⟩
  rcases hs.tracked o obj hbefore with h | h
  · exact hdue h
  · exact htask h

/-- A change of tasks that loses no needed row keeps the invariant. -/
theorem Good.tasks (hs : Good s) (hrows : Rows AnyID s')
    (hother : ∀ k, ¬ TaskKey k → s'.get? k = s.get? k)
    (htask : ∀ o obj, HotHead s o obj → ¬ HasDueEntry s o obj.currentVersion →
      HasTask s o obj.currentVersion → HasTask s' o obj.currentVersion) : Good s' := by
  have hkept : ∀ o obj, HotHead s' o obj → Waiting obj ∧
      (HasDueEntry s' o obj.currentVersion ∨ HasTask s' o obj.currentVersion) := by
    intro o obj h
    have hhead := hother _ (not_taskKey (keyFamily_object o) (by decide))
    have hver : ∀ v, s'.get? (tiKVObjectVersionKey o v) = s.get? (tiKVObjectVersionKey o v) :=
      fun v => hother _ (not_taskKey (keyFamily_objectVersion o v) (by decide))
    have hdue : ∀ v, HasDueEntry s o v → HasDueEntry s' o v := fun v hv =>
      hv.of_same hs.rows (hother _ (not_taskKey (keyFamily_tierDueRef o v) (by decide)))
        fun t => hother _ (not_taskKey (keyFamily_tierDue t o v) (by decide))
    refine tracked_of_same hs h hhead.symm (hver _).symm (fun h => Or.inl (hdue _ h)) ?_
    intro ht
    by_cases hentry : HasDueEntry s o obj.currentVersion
    · exact Or.inl (hdue _ hentry)
    · exact Or.inr (htask o obj (h.of_same hhead.symm (hver _).symm) hentry ht)
  exact ⟨hrows, fun o obj h => (hkept o obj h).1, fun o obj h => (hkept o obj h).2⟩

/-- A step on tasks that removes no row keeps the invariant. -/
theorem Good.taskStep (hs : Good s) (hrows : Rows AnyID s') {C : RowChange}
    (hC : ∀ id old new, C id old new → new ≠ none) (h : TaskStep C s s') : Good s' := by
  refine hs.tasks hrows h.other ?_
  intro o obj _ _ ht
  rcases h.rows (migrationTask o obj.currentVersion) with hsame | hchange
  · exact fun hnone => ht (hsame.symm.trans hnone)
  · exact hC _ _ _ hchange

end Frames

/-! ## The due index -/

section Due

variable {s : Store} {o : GoString} {v : Int} {ref : Option TierDueRefRecord}

/-- A removal deletes keys of its version only. -/
theorem dueRemoval_keys (hs : Rows AnyID s)
    (href : s.get? (tiKVTierDueRefKey o v) = ref.map Value.tierDueRef) {w : KVWrite}
    (hw : w ∈ dueRemoval o v ref) : w.value = none ∧
      (w.key = tiKVTierDueRefKey o v ∨ ∃ t, w.key = tiKVTierDueKey t o v) := by
  rcases mem_dueRemoval hw with ⟨r, rfl, rfl⟩ | rfl
  · obtain ⟨hkey, -, hdueKey⟩ := hs _ _ href
    obtain ⟨ho, hv⟩ := tiKVTierDueRefKey_inj.mp hkey
    exact ⟨rfl, Or.inr ⟨r.eligibleAt, by rw [Write.key_del, hdueKey, ho, hv]⟩⟩
  · exact ⟨rfl, Or.inl rfl⟩

/-- A key of the due entry of a version. -/
def DueKeyOf (o : GoString) (v : Int) (k : GoString) : Prop :=
  k = tiKVTierDueRefKey o v ∨ ∃ t, k = tiKVTierDueKey t o v

theorem DueKeyOf.family {k : GoString} (h : DueKeyOf o v k) :
    keyFamily k = lit "tdue_ref" ∨ keyFamily k = lit "tdue" := by
  rcases h with rfl | ⟨t, rfl⟩
  · exact Or.inl (keyFamily_tierDueRef o v)
  · exact Or.inr (keyFamily_tierDue t o v)

/-- The due keys of a version belong to no other version. -/
theorem DueKeyOf.inj {o' : GoString} {v' : Int} {k : GoString} (h : DueKeyOf o v k)
    (h' : DueKeyOf o' v' k) : o' = o ∧ v' = v := by
  rcases h with rfl | ⟨t, rfl⟩
  · rcases h' with h' | ⟨t, h'⟩
    · exact ((tiKVTierDueRefKey_inj.mp h').imp Eq.symm Eq.symm)
    · exact absurd (congrArg keyFamily h') (by rw [keyFamily_tierDueRef, keyFamily_tierDue]; decide)
  · rcases h' with h' | ⟨t', h'⟩
    · exact absurd (congrArg keyFamily h') (by rw [keyFamily_tierDueRef, keyFamily_tierDue]; decide)
    · obtain ⟨-, ho, hv⟩ := tiKVTierDueKey_inj.mp h'
      exact ⟨ho.symm, hv.symm⟩

/-- A batch on the due keys of one version leaves all other keys alone. -/
theorem get_dueBatch {ws : List KVWrite} (hws : ∀ w ∈ ws, DueKeyOf o v w.key) {k : GoString}
    (hk : ¬ DueKeyOf o v k) : (s.applyAll ws).get? k = s.get? k := by
  apply SortedMap.get?_applyAll_of_untouched
  rintro w hw rfl
  exact hk (hws w hw)

theorem not_dueKeyOf {k f : GoString} (hk : keyFamily k = f) (hf : f ∉ [lit "tdue_ref", lit "tdue"]) :
    ¬ DueKeyOf o v k := by
  subst hk
  intro h
  rcases h.family with h | h <;> rw [h] at hf <;> simp at hf

/-- The due entry of a version may be removed when the version is not a current HOT one, or when
its task exists. -/
theorem Good.dueBatch (hs : Good s) {ws : List KVWrite} (hrows : WriteRows AnyID ws)
    (hws : ∀ w ∈ ws, DueKeyOf o v w.key)
    (hsafe : (∀ obj, HotHead s o obj → obj.currentVersion ≠ v) ∨ HasTask s o v) :
    Good (s.applyAll ws) := by
  have htask : ∀ o v, HasTask s o v → HasTask (s.applyAll ws) o v := by
    intro o' v' h
    unfold HasTask taskRow at h ⊢
    rwa [get_dueBatch hws (not_dueKeyOf (keyFamily_task _) (by decide))]
  have hkept : ∀ o' obj, HotHead (s.applyAll ws) o' obj → Waiting obj ∧
      (HasDueEntry (s.applyAll ws) o' obj.currentVersion ∨
        HasTask (s.applyAll ws) o' obj.currentVersion) := by
    intro o' obj h
    have hhead : s.get? (tiKVObjectKey o') = (s.applyAll ws).get? (tiKVObjectKey o') :=
      (get_dueBatch hws (not_dueKeyOf (keyFamily_object o') (by decide))).symm
    have hver : ∀ v', s.get? (tiKVObjectVersionKey o' v') =
        (s.applyAll ws).get? (tiKVObjectVersionKey o' v') :=
      fun v' => (get_dueBatch hws (not_dueKeyOf (keyFamily_objectVersion o' v') (by decide))).symm
    refine tracked_of_same hs h hhead (hver _) ?_ fun ht => Or.inr (htask _ _ ht)
    intro hdue
    by_cases heq : o' = o ∧ obj.currentVersion = v
    · rcases hsafe with hcold | hrow
      · rw [heq.1] at h hhead hver
        exact absurd heq.2 (hcold obj (h.of_same hhead (hver _)))
      · rw [heq.1, heq.2]
        exact Or.inr (htask _ _ hrow)
    · refine Or.inl (hdue.of_same hs.rows (get_dueBatch hws ?_) fun t => get_dueBatch hws ?_)
      · exact fun hk => heq (hk.inj (Or.inl rfl))
      · exact fun hk => heq (hk.inj (Or.inr ⟨t, rfl⟩))
  exact ⟨hs.rows.applyAll hrows, fun o obj h => (hkept o obj h).1, fun o obj h => (hkept o obj h).2⟩

end Due

/-! ## The tiering scan -/

section Scan

variable {s : Store} {clock now : Time}

theorem obeys_removal {o : GoString} {v : Int} (hs : Good s)
    (hsafe : (∀ obj, HotHead s o obj → obj.currentVersion ≠ v) ∨ HasTask s o v) :
    (removeTieringDueIndexByVersion o v).Obeys (solo Good fun _ _ => True)
      (fun _ s' => Good s') s := by
  obtain ⟨ref, href, -⟩ := hs.rows.tierDueRef_found o v
  exact keeps_dueRemoval hs href (hs.dueBatch (writeRows_deletes fun w hw => dueRemoval_value hw)
    (fun w hw => (dueRemoval_keys hs.rows href hw).2) hsafe)

/-- The scan drops due entries of versions that are not current and HOT. -/
theorem tracks_tieringCandidate (before : Time) (due : TierDueCandidate) :
    Keeps Good (tieringCandidate before due) := by
  intro s hs
  unfold tieringCandidate
  dsimp only
  split
  · exact hs
  · have hdrop : (∀ obj, HotHead s due.record.objectID obj →
        obj.currentVersion ≠ due.record.version) →
        (dropDueEntry due.record.objectID due.record.version).Obeys (solo Good fun _ _ => True)
          (fun _ s' => Good s') s :=
      fun hcold => (obeys_removal hs (Or.inl hcold)).attempt_bind fun _ _ h => h
    refine solo_getJSON hs (hs.rows.get_object _) (fun _ => rfl) ?_
    have hget := hs.rows.get_object due.record.objectID
    split <;> rename_i hfound <;> rw [hfound] at hget
    · apply hdrop
      intro obj h
      cases hget.symm.trans h.head
    · rename_i obj
      have hobj : ∀ obj', HotHead s due.record.objectID obj' → obj' = obj := by
        intro obj' h
        cases hget.symm.trans h.head
        rfl
      split
      · rename_i hver
        exact hdrop fun obj' h => (hobj obj' h).symm ▸ hver
      · split
        · rename_i hstate
          refine hdrop fun obj' h => absurd (hs.waiting _ _ h) ?_
          rw [hobj obj' h, Waiting, not_or]
          exact hstate
        · split
          · exact hs
          · rename_i hver _ _
            rw [not_not] at hver
            refine solo_getJSON hs (hs.rows.get_objectVersion _ _) (fun _ => rfl) ?_
            have hrow := hs.rows.get_objectVersion due.record.objectID due.record.version
            -- a HOT head would need the version row that was just read to be HOT
            have hcold : ∀ {found : Option ObjectVersionRecord},
                s.get? (tiKVObjectVersionKey due.record.objectID due.record.version) =
                  found.map Value.objectVersion → (∀ ver, found = some ver → ver.tier ≠ .hot) →
                ∀ obj', HotHead s due.record.objectID obj' →
                  obj'.currentVersion ≠ due.record.version := by
              rintro found hfound htier obj' h hcur
              obtain ⟨ver, hget', hhot⟩ := h.hot
              rw [hcur, hfound] at hget'
              obtain ⟨ver', hver', heq⟩ := Option.map_eq_some_iff.mp hget'
              cases heq
              exact htier ver hver' hhot
            split <;> rename_i hfound' <;> rw [hfound'] at hrow
            · exact hdrop (hcold hrow fun _ h => by cases h)
            · split
              · rename_i htier
                refine hdrop (hcold hrow ?_)
                rintro ver' ⟨⟩
                exact htier
              · exact hs

theorem migrationTask_ne_nil (o : GoString) (v : Int) : migrationTask o v ≠ [] := by
  intro h
  have hlen := congrArg List.length h
  have hpre : (lit "repl2ec:").length = 8 := by decide
  simp only [migrationTask, List.length_append, List.length_nil, hpre] at hlen
  omega

theorem obeys_insert {β : Type} {rec : TaskRecord} {f : Unit → KV β}
    {Q : Except GoError β → Store → Prop} (hs : Good s) (hid : rec.taskID ≠ [])
    (hf : ∀ s', Good s' → taskRow s' rec.taskID ≠ none →
      (f ()).Obeys (solo Good fun _ _ => True) Q s') :
    (writeTaskRecordWithRunnableIndexLocked clock none rec now >>= f).Obeys
      (solo Good fun _ _ => True) Q s := by
  unfold writeTaskRecordWithRunnableIndexLocked
  rw [if_neg hid]
  obtain ⟨pre, post, hpre, hpost, heq⟩ := taskRecordBatch_around clock none rec now
  rw [heq]
  have hrows := hs.rows.applyAll (rows_around hpre hpost (rfl : rec.taskID = rec.taskID))
  have hgood := hs.taskStep hrows (C := fun _ _ new => new ≠ none) (fun _ _ _ h => h)
    (step_around hpre hpost (Option.some_ne_none rec))
  refine solo_commit hgood trivial (hf _ hgood ?_)
  rw [taskRow_around hpre hpost, if_pos rfl]
  exact Option.some_ne_none rec

/-- The head of a candidate is moved to MIGRATION_PENDING. -/
theorem Good.pend (hs : Good s) {obj : ObjectRecord}
    (hobj : s.get? (tiKVObjectKey obj.objectID) = some (.object obj)) (now : Time) :
    Good (s.applyAll [pendingWrite obj now]) := by
  have hself : (s.applyAll [pendingWrite obj now]).get? (tiKVObjectKey obj.objectID) =
      (pendingWrite obj now).value := by
    refine SortedMap.get?_applyAll_of_written ?_ ⟨_, List.mem_singleton_self _, rfl⟩
    intro w hw _
    rw [List.mem_singleton.mp hw]
  have hother : ∀ {k}, tiKVObjectKey obj.objectID ≠ k →
      (s.applyAll [pendingWrite obj now]).get? k = s.get? k := by
    intro k hk
    apply SortedMap.get?_applyAll_of_untouched
    intro w hw
    rw [List.mem_singleton.mp hw]
    exact hk
  have hsame : ∀ {k}, keyFamily k ≠ lit "obj" →
      (s.applyAll [pendingWrite obj now]).get? k = s.get? k :=
    fun hk => hother fun h => hk (by rw [← h, keyFamily_object])
  have hrows : WriteRows AnyID [pendingWrite obj now] := by
    intro w hw x hx
    rw [List.mem_singleton] at hw
    subst hw
    cases hx
    exact ⟨rfl, trivial⟩
  have hrows' := hs.rows.applyAll hrows
  generalize s.applyAll [pendingWrite obj now] = s' at hself hother hsame hrows' ⊢
  have hver : ∀ o v, s'.get? (tiKVObjectVersionKey o v) = s.get? (tiKVObjectVersionKey o v) :=
    fun o v => hsame (by rw [keyFamily_objectVersion]; decide)
  have hdue : ∀ o v, HasDueEntry s o v → HasDueEntry s' o v := fun o v h =>
    h.of_same hs.rows (hsame (by rw [keyFamily_tierDueRef]; decide))
      fun t => hsame (by rw [keyFamily_tierDue]; decide)
  have htask : ∀ o v, HasTask s o v → HasTask s' o v := by
    intro o v h
    unfold HasTask taskRow at h ⊢
    rwa [hsame (by rw [keyFamily_task]; decide)]
  have hkept : ∀ o' obj', HotHead s' o' obj' → Waiting obj' ∧
      (HasDueEntry s' o' obj'.currentVersion ∨ HasTask s' o' obj'.currentVersion) := by
    intro o' obj' h
    by_cases ho : tiKVObjectKey obj.objectID = tiKVObjectKey o'
    · cases tiKVObjectKey_inj.mp ho
      cases hself.symm.trans h.head
      refine ⟨Or.inr rfl, ?_⟩
      have hbefore : HotHead s obj.objectID obj := ⟨hobj, by rw [← hver]; exact h.hot⟩
      exact (hs.tracked _ obj hbefore).imp (hdue _ _) (htask _ _)
    · exact tracked_of_same hs h (hother ho).symm (hver o' _).symm
        (fun h => Or.inl (hdue _ _ h)) (fun h => Or.inr (htask _ _ h))
  exact ⟨hrows', fun o obj h => (hkept o obj h).1, fun o obj h => (hkept o obj h).2⟩

/-- The row of the migration is written before the due entry is removed. -/
theorem tracks_enqueueMigration (c : TieringCandidate) :
    Keeps Good (enqueueMigration clock now c) := by
  have hhead : ∀ n : Int, Keeps Good (markPending now c n) := by
    intro n s hs
    refine keeps_markPending hs (hs.rows.get_object c.objectID) (fun obj hobj => ?_) n
    have hget : s.get? (tiKVObjectKey obj.objectID) = some (.object obj) := by
      rw [(hs.rows.named.head hobj).1, hs.rows.get_object, hobj, Option.map_some]
    rw [← (hs.rows.named.head hobj).1]
    exact hs.pend hget now
  have hrest : ∀ (n : Int) (s : Store), Good s → HasTask s c.objectID c.version →
      (removeTieringDueIndexByVersion c.objectID c.version >>= fun _ =>
        markPending now c n).Obeys (solo Good fun _ _ => True) (fun _ s' => Good s') s :=
    fun n s hs htask => (obeys_removal hs (Or.inr htask)).bind (fun _ _ h => h)
      fun _ s' h => hhead n s' h
  intro s hs
  unfold enqueueMigration
  refine solo_getJSON hs (get_task hs.rows (migrationTask c.objectID c.version)) (fun _ => rfl) ?_
  cases hrow : taskRow s (migrationTask c.objectID c.version) with
  | some rec => exact hrest 0 s hs (by unfold HasTask; rw [hrow]; exact Option.some_ne_none _)
  | none =>
    exact obeys_insert hs (migrationTask_ne_nil c.objectID c.version)
      fun s' hs' hrow' => hrest 1 s' hs' hrow'

theorem tracks_enqueueTieringCandidates {cfg : Config} {age maxObjects maxBytes : Int}
    {budget : Bool} :
    Keeps Good (enqueueTieringCandidates cfg clock now age maxObjects maxBytes budget) :=
  (closed_keeps Good).enqueueTieringCandidates tracks_tieringCandidate tracks_enqueueMigration

end Scan

/-! ## Commits -/

section Commit

variable {s : Store} {cfg : Config} {o : GoString} {v : Int} {md : Metadata} {now : Time}
  {found : Option ObjectRecord} {ref : Option TierDueRefRecord}

theorem resolveState_hot (h : resolveTier md = .hot) : resolveState md = .hotActive := by
  unfold resolveTier at h
  unfold resolveState
  split at h
  · cases h
  · rename_i hne
    rw [if_neg hne]

/-- The due keys of a commit are those of its version. -/
theorem dueUpsert_keys {tier : Tier} {size : Int} (hs : Rows AnyID s)
    (href : s.get? (tiKVTierDueRefKey o v) = ref.map Value.tierDueRef) {w : KVWrite}
    (hw : w ∈ dueUpsert cfg o v tier size now ref) : DueKeyOf o v w.key := by
  unfold dueUpsert at hw
  rcases List.mem_append.mp hw with hw | hw
  · exact (dueRemoval_keys hs href hw).2
  · split at hw
    · simp only [dueIndexEntry, List.map_cons, List.map_nil, List.mem_cons, List.not_mem_nil,
        or_false] at hw
      rcases hw with rfl | rfl
      · exact Or.inr ⟨_, rfl⟩
      · exact Or.inl rfl
    · simp at hw

/-- What is stored last is the due entry and its reference. -/
theorem hasDueEntry_entry (s : Store) (size : Int) (at' : Time) :
    HasDueEntry (s.applyAll ((dueIndexEntry o v size now at').map fun e => Write.set e.1 e.2)) o v := by
  have hne : tiKVTierDueRefKey o v ≠ tiKVTierDueKey at' o v := by
    apply ne_of_keyFamily
    rw [keyFamily_tierDueRef, keyFamily_tierDue]
    decide
  refine ⟨⟨o, v, tiKVTierDueKey at' o v, at', now⟩, ⟨o, v, at', size, now⟩, ?_, ?_, rfl, rfl⟩
  · simp only [dueIndexEntry, List.map_cons, List.map_nil, SortedMap.applyAll_cons,
      SortedMap.applyAll_nil, SortedMap.get?_apply, Write.key_set, Write.value_set, if_true]
  · simp only [dueIndexEntry, List.map_cons, List.map_nil, SortedMap.applyAll_cons,
      SortedMap.applyAll_nil, SortedMap.get?_apply, Write.key_set, Write.value_set, if_neg hne,
      if_true]

/-- The keys that a commit writes are keys of its object and version. -/
theorem upsertWrites_keys (hs : Rows AnyID s)
    (href : s.get? (tiKVTierDueRefKey o v) = ref.map Value.tierDueRef) {w : KVWrite}
    (hw : w ∈ upsertWrites cfg o v md now found ref) : w.key = tiKVObjectKey o ∨
      w.key = tiKVObjectVersionKey o v ∨ keyFamily w.key = lit "repl" ∨ DueKeyOf o v w.key := by
  rcases upsertWrites_cases hw with hw | hw
  · rcases upsertRows_cases hw with rfl | rfl | ⟨-, n, -, -, rfl⟩
    · exact Or.inl rfl
    · exact Or.inr (Or.inl rfl)
    · exact Or.inr (Or.inr (Or.inl (keyFamily_replica o v n)))
  · exact Or.inr (Or.inr (Or.inr (dueUpsert_keys hs href hw)))

/-- A HOT commit leaves a due entry of its version. -/
theorem hasDueEntry_upsert (hsync : cfg.dueIndexAsync = false) (hhot : resolveTier md = .hot) :
    HasDueEntry (s.applyAll (upsertWrites cfg o v md now found ref)) o v := by
  have hasync : dueIndexAsync cfg md = false := by simp [dueIndexAsync, hsync]
  unfold upsertWrites dueUpsert
  rw [hasync, if_neg Bool.false_ne_true, if_pos hhot, ← List.append_assoc, SortedMap.applyAll_append]
  exact hasDueEntry_entry _ _ _

theorem Good.upsert (hs : Good s) (hsync : cfg.dueIndexAsync = false)
    (hid : ∀ r, found = some r → r.objectID = o)
    (href : s.get? (tiKVTierDueRefKey o v) = ref.map Value.tierDueRef) :
    Good (s.applyAll (upsertWrites cfg o v md now found ref)) := by
  have hkeys : ∀ w ∈ upsertWrites cfg o v md now found ref, w.key = tiKVObjectKey o ∨
      w.key = tiKVObjectVersionKey o v ∨ keyFamily w.key = lit "repl" ∨ DueKeyOf o v w.key :=
    fun w hw => upsertWrites_keys hs.rows href hw
  have hdue : ∀ r, ref = some r → keyFamily r.dueKey = lit "tdue" := by
    rintro r rfl
    obtain ⟨r', hr', -, -, -, hkey⟩ := rowAt_tierDueRef (hs.rows _ _ href)
    cases hr'
    exact hkey
  have hentry := @hasDueEntry_upsert s cfg o v md now found ref hsync
  have hrows := hs.rows.applyAll (@upsertWrites_rows AnyID cfg o v md now found ref trivial hid)
  -- the head and the version row of the object
  have hhead : (s.applyAll (upsertWrites cfg o v md now found ref)).get? (tiKVObjectKey o) =
      some (.object (upsertHead o v (resolveState md) now found)) := by
    refine SortedMap.get?_applyAll_of_written ?_ ⟨_, List.mem_append_left _ List.mem_cons_self, rfl⟩
    intro w hw hk
    rw [upsertWrites_head hdue hw (by rw [hk, keyFamily_object])]
    rfl
  have hver : (s.applyAll (upsertWrites cfg o v md now found ref)).get? (tiKVObjectVersionKey o v) =
      some (.objectVersion (upsertVersion o v md now)) := by
    refine SortedMap.get?_applyAll_of_written ?_ ⟨Write.set (tiKVObjectVersionKey o v)
      (.objectVersion (upsertVersion o v md now)), List.mem_append_left _ (List.mem_append_left _
        (List.mem_cons_of_mem _ List.mem_cons_self)), rfl⟩
    intro w hw hk
    have hfam : keyFamily w.key = lit "objv" := by rw [hk, keyFamily_objectVersion]
    rcases upsertWrites_cases hw with hw | hw
    · rcases upsertRows_cases hw with rfl | rfl | ⟨-, n, -, -, rfl⟩
      · rw [Write.key_set, keyFamily_object] at hfam
        exact absurd hfam (by decide)
      · rfl
      · rw [Write.key_set, keyFamily_replica] at hfam
        exact absurd hfam (by decide)
    · rcases (dueUpsert_keys hs.rows href hw).family with h | h <;> rw [h] at hfam <;>
        exact absurd hfam (by decide)
  have hother : ∀ {k}, k ≠ tiKVObjectKey o → k ≠ tiKVObjectVersionKey o v →
      keyFamily k ≠ lit "repl" → ¬ DueKeyOf o v k →
      (s.applyAll (upsertWrites cfg o v md now found ref)).get? k = s.get? k := by
    intro k h1 h2 h3 h4
    apply SortedMap.get?_applyAll_of_untouched
    rintro w hw rfl
    rcases hkeys w hw with h | h | h | h
    · exact h1 h
    · exact h2 h
    · exact h3 h
    · exact h4 h
  generalize s.applyAll (upsertWrites cfg o v md now found ref) = s' at *
  have hkept : ∀ o' obj, HotHead s' o' obj → Waiting obj ∧
      (HasDueEntry s' o' obj.currentVersion ∨ HasTask s' o' obj.currentVersion) := by
    intro o' obj h
    by_cases ho : o' = o
    · subst ho
      cases hhead.symm.trans h.head
      obtain ⟨ver, hrow, hhot⟩ := h.hot
      cases hver.symm.trans hrow
      exact ⟨Or.inl (resolveState_hot hhot), Or.inl (hentry hhot)⟩
    · refine tracked_of_same hs h (hother ?_ ?_ ?_ ?_).symm
        (hother ?_ ?_ ?_ ?_).symm ?_ ?_
      · exact fun hk => ho (tiKVObjectKey_inj.mp hk)
      · exact ne_of_keyFamily (by rw [keyFamily_object, keyFamily_objectVersion]; decide)
      · rw [keyFamily_object]
        decide
      · exact not_dueKeyOf (keyFamily_object o') (by decide)
      · exact ne_of_keyFamily (by rw [keyFamily_object, keyFamily_objectVersion]; decide)
      · exact fun hk => ho (tiKVObjectVersionKey_inj.mp hk).1
      · rw [keyFamily_objectVersion]
        decide
      · exact not_dueKeyOf (keyFamily_objectVersion o' _) (by decide)
      · intro hbefore
        refine Or.inl (hbefore.of_same hs.rows (hother ?_ ?_ ?_ ?_) fun t => hother ?_ ?_ ?_ ?_)
        · exact ne_of_keyFamily (by rw [keyFamily_object, keyFamily_tierDueRef]; decide)
        · exact ne_of_keyFamily (by rw [keyFamily_objectVersion, keyFamily_tierDueRef]; decide)
        · rw [keyFamily_tierDueRef]
          decide
        · exact fun hk => ho (hk.inj (Or.inl rfl)).1
        · exact ne_of_keyFamily (by rw [keyFamily_object, keyFamily_tierDue]; decide)
        · exact ne_of_keyFamily (by rw [keyFamily_objectVersion, keyFamily_tierDue]; decide)
        · rw [keyFamily_tierDue]
          decide
        · exact fun hk => ho (hk.inj (Or.inr ⟨t, rfl⟩)).1
      · intro hbefore
        unfold HasTask taskRow at hbefore ⊢
        refine Or.inr ?_
        rwa [hother (ne_of_keyFamily (by rw [keyFamily_object, keyFamily_task]; decide))
          (ne_of_keyFamily (by rw [keyFamily_objectVersion, keyFamily_task]; decide))
          (by rw [keyFamily_task]; decide) (not_dueKeyOf (keyFamily_task _) (by decide))]
  exact ⟨hrows, fun o obj h => (hkept o obj h).1, fun o obj h => (hkept o obj h).2⟩

theorem tracks_upsert (hsync : cfg.dueIndexAsync = false) {clock : Time} :
    Keeps Good (upsertNormalizedMetadata cfg clock now o md) := by
  intro s hs
  unfold upsertNormalizedMetadata
  split
  · exact hs
  · obtain ⟨found, hfound, hid⟩ := hs.rows.object_found o
    obtain ⟨ref, href, -⟩ := hs.rows.tierDueRef_found o (resolveVersion md clock)
    have hgood := @Good.upsert s cfg o (resolveVersion md clock) md now found ref hs hsync hid href
    exact solo_txn (upsertTxn_effect cfg hfound href) hgood trivial hgood

end Commit

/-! ## Old versions -/

section Purge

variable {s : Store} {o : GoString} {v : Int}

/-- A purge deletes keys of a version that is not current. -/
theorem Good.purge (hs : Good s) {ws : List KVWrite} (hdel : ∀ w ∈ ws, w.value = none)
    (hkeys : ∀ w ∈ ws, w.key = tiKVObjectVersionKey o v ∨ keyFamily w.key = lit "repl" ∨
      keyFamily w.key = lit "ec" ∨ DueKeyOf o v w.key)
    (hcur : ∀ obj, s.get? (tiKVObjectKey o) = some (.object obj) → obj.currentVersion ≠ v) :
    Good (s.applyAll ws) := by
  have hother : ∀ {k}, k ≠ tiKVObjectVersionKey o v → keyFamily k ≠ lit "repl" →
      keyFamily k ≠ lit "ec" → ¬ DueKeyOf o v k → (s.applyAll ws).get? k = s.get? k := by
    intro k h1 h2 h3 h4
    apply SortedMap.get?_applyAll_of_untouched
    rintro w hw rfl
    rcases hkeys w hw with h | h | h | h
    · exact h1 h
    · exact h2 h
    · exact h3 h
    · exact h4 h
  have hdelRows : WriteRows AnyID ws := by
    intro w hw x hx
    rw [hdel w hw] at hx
    cases hx
  have hrows := hs.rows.applyAll hdelRows
  generalize s.applyAll ws = s' at *
  have hhead : ∀ o', s'.get? (tiKVObjectKey o') = s.get? (tiKVObjectKey o') := fun o' =>
    hother (ne_of_keyFamily (by rw [keyFamily_object, keyFamily_objectVersion]; decide))
      (by rw [keyFamily_object]; decide) (by rw [keyFamily_object]; decide)
      (not_dueKeyOf (keyFamily_object o') (by decide))
  have htask : ∀ o v, HasTask s o v → HasTask s' o v := by
    intro o' v' h
    unfold HasTask taskRow at h ⊢
    rwa [hother (ne_of_keyFamily (by rw [keyFamily_objectVersion, keyFamily_task]; decide))
      (by rw [keyFamily_task]; decide) (by rw [keyFamily_task]; decide)
      (not_dueKeyOf (keyFamily_task _) (by decide))]
  have hkept : ∀ o' obj, HotHead s' o' obj → Waiting obj ∧
      (HasDueEntry s' o' obj.currentVersion ∨ HasTask s' o' obj.currentVersion) := by
    intro o' obj h
    have hne : ¬ (o' = o ∧ obj.currentVersion = v) := by
      rintro ⟨rfl, hv⟩
      exact hcur obj ((hhead o').symm.trans h.head) hv
    refine tracked_of_same hs h (hhead o').symm (hother ?_ ?_ ?_ ?_).symm ?_
      fun ht => Or.inr (htask _ _ ht)
    · exact fun hk => hne (tiKVObjectVersionKey_inj.mp hk)
    · rw [keyFamily_objectVersion]
      decide
    · rw [keyFamily_objectVersion]
      decide
    · exact not_dueKeyOf (keyFamily_objectVersion o' _) (by decide)
    · intro hdue
      refine Or.inl (hdue.of_same hs.rows (hother ?_ ?_ ?_ ?_) fun t => hother ?_ ?_ ?_ ?_)
      · exact ne_of_keyFamily (by rw [keyFamily_objectVersion, keyFamily_tierDueRef]; decide)
      · rw [keyFamily_tierDueRef]
        decide
      · rw [keyFamily_tierDueRef]
        decide
      · exact fun hk => hne (hk.inj (Or.inl rfl))
      · exact ne_of_keyFamily (by rw [keyFamily_objectVersion, keyFamily_tierDue]; decide)
      · rw [keyFamily_tierDue]
        decide
      · rw [keyFamily_tierDue]
        decide
      · exact fun hk => hne (hk.inj (Or.inr ⟨t, rfl⟩))
  exact ⟨hrows, fun o obj h => (hkept o obj h).1, fun o obj h => (hkept o obj h).2⟩

theorem tracks_purgeObjectVersionMetadata : Keeps Good (purgeObjectVersionMetadata o v) := by
  intro s hs
  obtain ⟨ref, href, -⟩ := hs.rows.tierDueRef_found o v
  refine solo_purgeObjectVersionMetadata hs hs.rows href (fun _ => hs) (fun _ => hs)
    fun obj hobj hcur => keeps_commit ?_
  refine hs.purge (fun w => purgeWrites_value) (fun w hw => ?_) (o := o) (v := v) ?_
  · rcases mem_purgeWrites.mp hw with rfl | hw | hw | hw
    · exact Or.inl rfl
    · exact Or.inr (Or.inl (List.mem_singleton.mp
        (scanDeletes_families (fun k => keyFamily_of_replica_version_scan) w hw)))
    · exact Or.inr (Or.inr (Or.inl (List.mem_singleton.mp
        (scanDeletes_families (fun k => keyFamily_of_ecShard_version_scan) w hw))))
    · exact Or.inr (Or.inr (Or.inr (dueRemoval_keys hs.rows href hw).2))
  · intro obj' hobj'
    rw [hs.rows.get_object, hobj] at hobj'
    cases hobj'
    exact hcur

end Purge

/-! ## Runs -/

/-- The operations that run one after the other. -/
inductive Call (cfg : Config) : KV Unit → Prop where
  | put (clock now : Time) (o : GoString) (md : Metadata) :
      Call cfg (upsertNormalizedMetadata cfg clock now o md)
  | strategyA (clock now : Time) (age maxObjects : Int) :
      Call cfg (do let _ ← enqueueTieringCandidatesStrategyA cfg clock now age maxObjects; pure ())
  | strategyB (clock now : Time) (age maxObjects maxBytes : Int) :
      Call cfg (do
        let _ ← enqueueTieringCandidatesStrategyB cfg clock now age maxObjects maxBytes
        pure ())
  | strategyC (clock now : Time) (age maxObjects maxBytes : Int) :
      Call cfg (do
        let _ ← enqueueTieringCandidatesStrategyC cfg clock now age maxObjects maxBytes
        pure ())
  | claim (clock now : Time) (ty : GoString) :
      Call cfg (do let _ ← claimNextTieringTask cfg clock now ty; pure ())
  | done (clock now : Time) (id : GoString) : Call cfg (markTieringTaskDone clock now id)
  | retry (clock now : Time) (id lastErr : GoString) (nextRunAt : Time) :
      Call cfg (markTieringTaskRetry clock now id lastErr nextRunAt)
  | failed (clock now : Time) (id lastErr : GoString) :
      Call cfg (markTieringTaskFailed clock now id lastErr)
  | cancel (clock now : Time) (id reason : GoString) :
      Call cfg (do let _ ← cancelTieringTask clock now id reason; pure ())
  | requeue (clock now : Time) (id : GoString) :
      Call cfg (do let _ ← requeueTieringTaskNow clock now id; pure ())
  | purgeVersion (o : GoString) (v : Int) : Call cfg (purgeObjectVersionMetadata o v)

/-- A DONE or FAILED task that finished up to the cutoff. -/
def FinishedBy (olderThan : Time) (rec : TaskRecord) : Prop :=
  isTaskTerminalState rec.taskState = true ∧
    ∃ at', rec.finishedAt = some at' ∧ at'.unixNano ≤ olderThan.unixNano

/-- No migration that finished up to the cutoff is the last trace of a current HOT version. -/
def Spares (olderThan : Time) (s : Store) : Prop :=
  ∀ o obj rec, HotHead s o obj → ¬ HasDueEntry s o obj.currentVersion →
    taskRow s (migrationTask o obj.currentVersion) = some rec → ¬ FinishedBy olderThan rec

/-- One operation, executed atomically. The cutoff of a purge of finished tasks and the store
before it have to meet the condition. -/
inductive Step (cfg : Config) (meets : Time → Store → Prop) : Store → Store → Prop where
  | call {s : Store} {p : KV Unit} (h : Call cfg p) : Step cfg meets s (atomically p s).2
  | purgeTasks {s : Store} (clock now olderThan : Time) (limit : Int) (h : meets olderThan s) :
      Step cfg meets s (atomically (purgeTerminalTieringTasks clock now olderThan limit) s).2

/-- A task operation that removes no row keeps the invariant. -/
theorem keeps_of_moves {α : Type} {C : RowChange} {Q : Except GoError α → Store → Prop} {p : KV α}
    {s : Store} (hs : Good s) (hp : p.Obeys (moving C) Q s)
    (hC : ∀ id old new, C id old new → new ≠ none) : Good (atomically p s).2 :=
  (hp.step_run (fun _ _ _ hrows hstep hgood => hgood.taskStep hrows hC hstep) hs.rows hs).2.2

theorem call_keeps {cfg : Config} (hsync : cfg.dueIndexAsync = false) {s : Store} (hs : Good s)
    {p : KV Unit} (hp : Call cfg p) : Good (atomically p s).2 := by
  have hscan : ∀ {clock now : Time} {age maxObjects maxBytes : Int} {budget : Bool}, Good
      (atomically (do
        let _ ← enqueueTieringCandidates cfg clock now age maxObjects maxBytes budget
        pure ()) s).2 :=
    (Keeps.bind tracks_enqueueTieringCandidates fun _ => keeps_pure ()).run hs
  have hrewrite : ∀ {q : KV Unit} {id : GoString}, Moves (Rewrites id) q →
      Good (atomically q s).2 :=
    fun hq => keeps_of_moves hs (hq s hs.rows) fun _ _ _ hC => hC.2
  cases hp with
  | put => exact (tracks_upsert hsync).run hs
  | strategyA => exact hscan
  | strategyB => exact hscan
  | strategyC => exact hscan
  | claim clock now ty =>
    refine keeps_of_moves (Q := fun _ _ => True) hs
      (Obeys.bind (moving_claimNextTieringTask cfg ty hs.rows) (fun _ _ _ => trivial)
        fun _ _ _ => trivial) ?_
    rintro id old new ⟨rec, now, -, -, rfl⟩
    exact Option.some_ne_none _
  | done => exact hrewrite moves_markTieringTaskDone
  | retry => exact hrewrite moves_markTieringTaskRetry
  | failed => exact hrewrite moves_markTieringTaskFailed
  | cancel => exact hrewrite (moves_cancelTieringTask.bind fun _ => moves_pure ())
  | requeue => exact hrewrite (moves_requeueTieringTaskNow.bind fun _ => moves_pure ())
  | purgeVersion => exact tracks_purgeObjectVersionMetadata.run hs

/-- What a purge up to the cutoff leaves of a store: everything but tasks, and the rows of tasks
that have not finished by then. -/
def LeftByPurge (olderThan : Time) (s s' : Store) : Prop :=
  (∀ k, ¬ TaskKey k → s'.get? k = s.get? k) ∧
    ∀ id rec, taskRow s id = some rec → ¬ FinishedBy olderThan rec → taskRow s' id = some rec

theorem LeftByPurge.tail {olderThan : Time} {s s₁ s₂ : Store} (h : LeftByPurge olderThan s s₁)
    (hstep : TaskStep (Removes olderThan.unixNano) s₁ s₂) : LeftByPurge olderThan s s₂ := by
  refine ⟨fun k hk => (hstep.other k hk).trans (h.1 k hk), fun id rec hrow hlate => ?_⟩
  have hrow₁ := h.2 id rec hrow hlate
  rcases hstep.rows id with hsame | ⟨-, rec', at', hrow', hterm, hat, hle⟩
  · exact hsame.trans hrow₁
  · obtain rfl : rec = rec' := Option.some.inj (hrow₁.symm.trans hrow')
    exact absurd ⟨hterm, at', hat, hle⟩ hlate

theorem purgeTasks_keeps {s : Store} (hs : Good s) {clock now olderThan : Time} {limit : Int}
    (hspares : Spares olderThan s) :
    Good (atomically (purgeTerminalTieringTasks clock now olderThan limit) s).2 := by
  obtain ⟨hrows, hother, hleft⟩ := (moves_purgeTerminalTieringTasks olderThan limit).keeps hs.rows
    (J := LeftByPurge olderThan s) (fun _ _ _ _ hstep h => h.tail hstep)
    ⟨fun _ _ => rfl, fun _ _ hrow _ => hrow⟩
  refine hs.tasks hrows hother fun o obj hhot hdue htask => ?_
  obtain ⟨rec, hrow⟩ := Option.ne_none_iff_exists'.mp htask
  exact Option.ne_none_iff_exists'.mpr ⟨rec, hleft _ rec hrow (hspares o obj rec hhot hdue hrow)⟩

theorem good_reached {cfg : Config} (hsync : cfg.dueIndexAsync = false) {s : Store}
    (hrun : Relation.ReflTransGen (Step cfg Spares) SortedMap.empty s) : Good s := by
  induction hrun with
  | refl => exact good_empty
  | tail _ hstep ih =>
    cases hstep with
    | call hp => exact call_keeps hsync ih hp
    | purgeTasks clock now olderThan limit h => exact purgeTasks_keeps ih h

/-- In every run whose purges of finished tasks find no finished migration that is the last trace
of a current HOT version, every object whose current version is HOT has a due entry or a migration
task. -/
theorem hot_objects_tracked {cfg : Config} (hsync : cfg.dueIndexAsync = false) {s : Store}
    (hrun : Relation.ReflTransGen (Step cfg Spares) SortedMap.empty s) {o : GoString}
    {obj : ObjectRecord} (hhot : HotHead s o obj) :
    HasDueEntry s o obj.currentVersion ∨ HasTask s o obj.currentVersion :=
  (good_reached hsync hrun).tracked o obj hhot

section Runs

/-- Metadata of a replicated write of one byte. -/
def hotMetadata : Metadata :=
  [(lit "strategy", .str (lit "replication")), (lit "hot_version", .int64 7),
    (lit "original_length", .int64 1), (lit "replica_nodes", .strings [lit "n1"])]

/-- An object is committed and becomes due; the scan enqueues its migration. -/
def scannedStore : Store :=
  (atomically (do
    let _ ← enqueueTieringCandidatesStrategyA {} 5000000000000 5000000000000 3600 10
    pure ()) (atomically (upsertNormalizedMetadata {} 1000000000 1000000000 (lit "a") hotMetadata)
      SortedMap.empty).2).2

/-- A worker takes the migration and gives it up. -/
def failedStore : Store :=
  (atomically (markTieringTaskFailed 5002000000000 5002000000000 (migrationTask (lit "a") 7)
    (lit "max retries")) (atomically (do
      let _ ← claimNextTieringTask {} 5001000000000 5001000000000 []
      pure ()) scannedStore).2).2

/-- A purge of finished tasks, with a cutoff after the failure. -/
def purgedStore : Store :=
  (atomically (purgeTerminalTieringTasks 9000000000000 9000000000000 8000000000000 0) failedStore).2

theorem failedStore_reached (meets : Time → Store → Prop) :
    Relation.ReflTransGen (Step {} meets) SortedMap.empty failedStore :=
  (((Relation.ReflTransGen.refl.tail (.call (.put _ _ _ _))).tail (.call (.strategyA _ _ _ _))).tail
    (.call (.claim _ _ _))).tail (.call (.failed _ _ _ _))

/-- The head of the object after the scan. -/
def pendingHead : ObjectRecord :=
  ⟨lit "a", lit "default", 7, .migrationPending, 1000000000, 5000000000000⟩

/-- After the purge the HOT object has neither a due entry nor a task. -/
theorem hot_object_stranded :
    Relation.ReflTransGen (Step {} fun _ _ => True) SortedMap.empty purgedStore ∧
    HotHead purgedStore (lit "a") pendingHead ∧
    ¬ HasDueEntry purgedStore (lit "a") 7 ∧
    ¬ HasTask purgedStore (lit "a") 7 := by
  have hver : purgedStore.get? (tiKVObjectVersionKey (lit "a") 7) =
      some (.objectVersion (upsertVersion (lit "a") 7 hotMetadata 1000000000)) := by decide +kernel
  refine ⟨(failedStore_reached _).tail (.purgeTasks _ _ _ _ trivial),
    ⟨by decide +kernel, _, hver, by decide +kernel⟩, ?_, ?_⟩
  · rintro ⟨ref, due, href, -⟩
    have hnone : purgedStore.get? (tiKVTierDueRefKey (lit "a") 7) = none := by
      decide +kernel
    cases hnone.symm.trans href
  · have hnone : taskRow purgedStore (migrationTask (lit "a") 7) = none := by
      decide +kernel
    exact fun h => h hnone

/-- After the failure the object is written again. -/
def rewrittenStore : Store :=
  (atomically (upsertNormalizedMetadata {} 5003000000000 5003000000000 (lit "a")
    (hotMetadata.put (lit "hot_version") (.int64 8))) failedStore).2

/-- The same purge, after the second write. -/
def rewrittenPurged : Store :=
  (atomically (purgeTerminalTieringTasks 9000000000000 9000000000000 8000000000000 0)
    rewrittenStore).2

theorem rewrittenStore_spares : Spares 8000000000000 rewrittenStore := by
  intro o obj rec hhot _ hrow
  -- the one head of the store is at a version that has no task
  have hentries : ∀ e ∈ rewrittenStore.entries, e.2.asObject.all (fun obj =>
      e.1 = tiKVObjectKey obj.objectID ∧
        taskRow rewrittenStore (migrationTask obj.objectID obj.currentVersion) = none) = true := by
    decide +kernel
  obtain ⟨hkey, hnone⟩ :=
    of_decide_eq_true (hentries _ (SortedMap.mem_entries.mpr hhot.head))
  rw [← tiKVObjectKey_inj.mp hkey] at hnone
  cases hnone.symm.trans hrow

/-- The purge removes the failed migration of the first version. The second one, which is current,
is in the due index. -/
theorem hot_object_tracked_rewritten :
    HotHead rewrittenPurged (lit "a")
      ⟨lit "a", lit "default", 8, .hotActive, 1000000000, 5003000000000⟩ ∧
    ¬ HasTask rewrittenPurged (lit "a") 7 ∧
    (HasDueEntry rewrittenPurged (lit "a") 8 ∨ HasTask rewrittenPurged (lit "a") 8) := by
  have hhot : HotHead rewrittenPurged (lit "a")
      ⟨lit "a", lit "default", 8, .hotActive, 1000000000, 5003000000000⟩ :=
    ⟨by decide +kernel, upsertVersion (lit "a") 8 (hotMetadata.put (lit "hot_version") (.int64 8))
      5003000000000, by decide +kernel, by decide +kernel⟩
  have hnone : taskRow rewrittenPurged (migrationTask (lit "a") 7) = none := by decide +kernel
  have hrun : Relation.ReflTransGen (Step {} Spares) SortedMap.empty rewrittenPurged :=
    ((failedStore_reached _).tail (.call (.put _ _ _ _))).tail
      (.purgeTasks _ _ _ _ rewrittenStore_spares)
  have htracked := @hot_objects_tracked {} rfl _ hrun _ _ hhot
  exact ⟨hhot, fun h => h hnone, htracked⟩

end Runs

end TieredStore.Meta.Tracking
