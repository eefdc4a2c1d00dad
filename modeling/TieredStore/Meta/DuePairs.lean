import TieredStore.Meta.Tracking

/-!
# Pairs of the due index

An entry of the due index is found by its time, and the reference of a version leads back to the
entry. Three routines remove entries, and each of them finds the entry through the reference.
`Paired` says that entries and references lead to each other. A batch of deletions keeps it when it
removes both halves of a pair or none (`Paired.deletes`), and a new pair can be written once the old
one of the version is gone (`Paired.enter`).

Removals of an object select references by a textual prefix, so those of `x` also remove the pairs
of `x/y`; they remove whole pairs (`pairDeletes_iff`). Every reachable store is therefore paired, with
arbitrary ids (`due_index_bijection`).
-/

namespace TieredStore.Meta.DuePairs

open Lib Lib.Prog TaskCoherence TaskMoves Tracking

/-- Entries and references lead to each other. -/
structure Paired (s : Store) : Prop where
  rows : Rows AnyID s
  entry : ∀ {k due}, s.get? k = some (.tierDue due) →
    ∃ ref, s.get? (tiKVTierDueRefKey due.objectID due.version) = some (.tierDueRef ref) ∧
      ref.dueKey = k
  reference : ∀ {k ref}, s.get? k = some (.tierDueRef ref) →
    ∃ due, s.get? ref.dueKey = some (.tierDue due) ∧ due.eligibleAt = ref.eligibleAt

theorem paired_empty : Paired SortedMap.empty where
  rows := rows_empty
  entry := nofun
  reference := nofun

section Batches

variable {s : Store} {o : GoString} {v : Int} {ws : List KVWrite}

/-- A reference sits at the key of its version and names an entry of its version. -/
theorem Paired.reference_keys (hs : Paired s) {k : GoString} {ref : TierDueRefRecord}
    (h : s.get? k = some (.tierDueRef ref)) :
    k = tiKVTierDueRefKey ref.objectID ref.version ∧
      ref.dueKey = tiKVTierDueKey ref.eligibleAt ref.objectID ref.version :=
  ⟨(hs.rows k _ h).1, (hs.rows k _ h).2.2⟩

theorem Paired.dueKey_ne_nil (hs : Paired s) {k : GoString} {ref : TierDueRefRecord}
    (h : s.get? k = some (.tierDueRef ref)) : ref.dueKey ≠ [] := by
  rw [(hs.reference_keys h).2]
  simp [tiKVTierDueKey, tiKVPrefixTierDue, lit]

/-- A batch outside the due index. -/
theorem Paired.other (hs : Paired s) (hrows : WriteRows AnyID ws)
    (hfam : ∀ w ∈ ws, keyFamily w.key ≠ lit "tdue" ∧ keyFamily w.key ≠ lit "tdue_ref") :
    Paired (s.applyAll ws) := by
  have hrows' := hs.rows.applyAll hrows
  have hdue : ∀ {k}, keyFamily k = lit "tdue" → (s.applyAll ws).get? k = s.get? k := by
    intro k hk
    refine SortedMap.get?_applyAll_of_untouched ?_
    rintro w hw rfl
    exact (hfam w hw).1 hk
  have href : ∀ {k}, keyFamily k = lit "tdue_ref" → (s.applyAll ws).get? k = s.get? k := by
    intro k hk
    refine SortedMap.get?_applyAll_of_untouched ?_
    rintro w hw rfl
    exact (hfam w hw).2 hk
  refine ⟨hrows', ?_, ?_⟩
  · intro k due h
    rw [hdue (by simpa [valueFamilies] using (hrows' k _ h).keyFamily_mem)] at h
    rw [href (keyFamily_tierDueRef _ _)]
    exact hs.entry h
  · intro k ref h
    rw [href (by simpa [valueFamilies] using (hrows' k _ h).keyFamily_mem)] at h
    rw [hdue (by rw [(hs.reference_keys h).2, keyFamily_tierDue])]
    exact hs.reference h

/-- A batch of deletions that removes both halves of a pair or none. -/
theorem Paired.deletes (hs : Paired s) (hdel : ∀ w ∈ ws, w.value = none)
    (hboth : ∀ k ref, s.get? k = some (.tierDueRef ref) →
      ((∃ w ∈ ws, w.key = k) ↔ ∃ w ∈ ws, w.key = ref.dueKey)) : Paired (s.applyAll ws) := by
  classical
  have hkept : ∀ {k x}, (s.applyAll ws).get? k = some x →
      s.get? k = some x ∧ ¬ ∃ w ∈ ws, w.key = k := by
    intro k x h
    rw [SortedMap.get?_applyAll_deletes hdel] at h
    split at h
    · cases h
    · exact ⟨h, by assumption⟩
  refine ⟨fun k x h => hs.rows k x (hkept h).1, ?_, ?_⟩
  · intro k due h
    obtain ⟨h, hnot⟩ := hkept h
    obtain ⟨ref, href, rfl⟩ := hs.entry h
    refine ⟨ref, ?_, rfl⟩
    rw [SortedMap.get?_applyAll_deletes hdel, if_neg fun hw => hnot ((hboth _ _ href).mp hw)]
    exact href
  · intro k ref h
    obtain ⟨h, hnot⟩ := hkept h
    obtain ⟨due, hdue, heq⟩ := hs.reference h
    refine ⟨due, ?_, heq⟩
    rw [SortedMap.get?_applyAll_deletes hdel, if_neg fun hw => hnot ((hboth _ _ h).mpr hw)]
    exact hdue

/-- The removal of a version deletes its pair. -/
theorem Paired.removal (hs : Paired s) {ref : Option TierDueRefRecord}
    (href : s.get? (tiKVTierDueRefKey o v) = ref.map Value.tierDueRef) :
    Paired (s.applyAll (dueRemoval o v ref)) := by
  refine hs.deletes (fun w hw => (dueRemoval_keys hs.rows href hw).1) ?_
  intro k ref' hk
  obtain ⟨hkey, hdue⟩ := hs.reference_keys hk
  constructor
  · rintro ⟨w, hw, rfl⟩
    have hmine : w.key = tiKVTierDueRefKey o v := by
      rcases (dueRemoval_keys hs.rows href hw).2 with h | ⟨t, h⟩
      · exact h
      · exact absurd (hkey.symm.trans h) (ne_of_keyFamily (by
          rw [keyFamily_tierDueRef, keyFamily_tierDue]; decide))
    rw [hmine, href] at hk
    obtain ⟨r, rfl, hr⟩ := Option.map_eq_some_iff.mp hk
    cases hr
    refine ⟨Write.del ref'.dueKey, ?_, rfl⟩
    rw [hmine] at hkey
    have hne : ref'.dueKey ≠ [] := hs.dueKey_ne_nil href
    simp [dueRemoval, hne]
  · rintro ⟨w, hw, hwk⟩
    refine ⟨Write.del (tiKVTierDueRefKey o v), by simp [dueRemoval], ?_⟩
    rw [hdue] at hwk
    rcases (dueRemoval_keys hs.rows href hw).2 with h | ⟨t, h⟩
    · exact absurd (hwk.symm.trans h) (ne_of_keyFamily (by
        rw [keyFamily_tierDueRef, keyFamily_tierDue]; decide))
    · obtain ⟨-, ho, hv⟩ := tiKVTierDueKey_inj.mp (hwk.symm.trans h)
      rw [Write.key_del, hkey, ho, hv]

theorem get_after_removal (hs : Paired s) {ref : Option TierDueRefRecord}
    (href : s.get? (tiKVTierDueRefKey o v) = ref.map Value.tierDueRef) :
    (s.applyAll (dueRemoval o v ref)).get? (tiKVTierDueRefKey o v) = none := by
  refine SortedMap.get?_applyAll_of_written ?_ ⟨Write.del (tiKVTierDueRefKey o v), ?_, rfl⟩
  · intro w hw _
    exact (dueRemoval_keys hs.rows href hw).1
  · simp [dueRemoval]

/-- A new pair for a version that has none. -/
theorem Paired.enter (hs : Paired s) (hnone : s.get? (tiKVTierDueRefKey o v) = none) (size : Int)
    (now at' : Time) : Paired (s.applyAll ((dueIndexEntry o v size now at').map fun e =>
      Write.set e.1 e.2)) := by
  have hrows : WriteRows AnyID ((dueIndexEntry o v size now at').map fun e =>
      (Write.set e.1 e.2 : KVWrite)) :=
    fun w hw x hx => (dueIndexEntry_cases hw).1 x hx trivial
  have hrows' := hs.rows.applyAll hrows
  have hne : tiKVTierDueRefKey o v ≠ tiKVTierDueKey at' o v :=
    ne_of_keyFamily (by rw [keyFamily_tierDueRef, keyFamily_tierDue]; decide)
  have hget : ∀ k, (s.applyAll ((dueIndexEntry o v size now at').map fun e =>
      (Write.set e.1 e.2 : KVWrite))).get? k =
      if k = tiKVTierDueRefKey o v then
        some (.tierDueRef ⟨o, v, tiKVTierDueKey at' o v, at', now⟩)
      else if k = tiKVTierDueKey at' o v then some (.tierDue ⟨o, v, at', size, now⟩)
      else s.get? k := by
    intro k
    simp only [dueIndexEntry, List.map_cons, List.map_nil, SortedMap.applyAll_cons,
      SortedMap.applyAll_nil, SortedMap.get?_apply, Write.key_set, Write.value_set, eq_comm]
  refine ⟨hrows', ?_, ?_⟩
  · intro k due h
    have hfam : keyFamily k = lit "tdue" := by
      simpa [valueFamilies] using (hrows' k _ h).keyFamily_mem
    have hk : k ≠ tiKVTierDueRefKey o v :=
      ne_of_keyFamily (by rw [hfam, keyFamily_tierDueRef]; decide)
    rw [hget, if_neg hk] at h
    rw [hget]
    split at h
    · rename_i heq
      cases h
      exact ⟨_, if_pos rfl, heq.symm⟩
    · obtain ⟨ref, href, hdue⟩ := hs.entry h
      have hother : tiKVTierDueRefKey due.objectID due.version ≠ tiKVTierDueRefKey o v := by
        intro heq
        rw [heq, hnone] at href
        cases href
      rw [if_neg hother, if_neg (ne_of_keyFamily (by
        rw [keyFamily_tierDueRef, keyFamily_tierDue]; decide))]
      exact ⟨ref, href, hdue⟩
  · intro k ref h
    have hfam : keyFamily k = lit "tdue_ref" := by
      simpa [valueFamilies] using (hrows' k _ h).keyFamily_mem
    rw [hget] at h
    split at h
    · cases h
      refine ⟨⟨o, v, at', size, now⟩, (hget _).trans ?_, rfl⟩
      rw [if_neg hne.symm, if_pos rfl]
    · rename_i hk
      rw [if_neg (ne_of_keyFamily (by rw [hfam, keyFamily_tierDue]; decide))] at h
      obtain ⟨due, hdue, heq⟩ := hs.reference h
      obtain ⟨hkey, hdueKey⟩ := hs.reference_keys h
      refine ⟨due, ?_, heq⟩
      rw [hget, if_neg (ne_of_keyFamily (by
        rw [hdueKey, keyFamily_tierDue, keyFamily_tierDueRef]; decide)), if_neg, hdue]
      intro hsame
      obtain ⟨-, ho, hv⟩ := tiKVTierDueKey_inj.mp (hdueKey.symm.trans hsame)
      exact hk (by rw [hkey, ho, hv])

/-- The due part of a commit: the old pair goes, and a HOT version gets a new one. -/
theorem Paired.dueUpsert (hs : Paired s) {ref : Option TierDueRefRecord}
    (href : s.get? (tiKVTierDueRefKey o v) = ref.map Value.tierDueRef) (cfg : Config) (tier : Tier)
    (size : Int) (now : Time) : Paired (s.applyAll (dueUpsert cfg o v tier size now ref)) := by
  unfold Meta.dueUpsert
  rw [SortedMap.applyAll_append]
  split
  · exact (hs.removal href).enter (get_after_removal hs href) size now _
  · exact hs.removal href

end Batches

/-! ## Calls -/

section Calls

variable {s : Store} {clock now : Time}

theorem keeps_removeTieringDueIndexByVersion (o : GoString) (v : Int) :
    Keeps Paired (removeTieringDueIndexByVersion o v) := by
  intro s hs
  obtain ⟨ref, href, -⟩ := hs.rows.tierDueRef_found o v
  exact keeps_dueRemoval hs href (hs.removal href)

theorem keeps_other {ws : List KVWrite} (hrows : WriteRows AnyID ws)
    (hfam : ∀ w ∈ ws, keyFamily w.key ≠ lit "tdue" ∧ keyFamily w.key ≠ lit "tdue_ref") :
    Keeps Paired (KV.commit ws) :=
  fun _ hs => solo_commit_last (hs.other hrows hfam) trivial (hs.other hrows hfam)

theorem taskKey_not_due {k : GoString} (h : TaskKey k) :
    keyFamily k ≠ lit "tdue" ∧ keyFamily k ≠ lit "tdue_ref" := by
  rcases h with h | h | h | h <;> rw [h] <;> decide

/-- Task rows and their indexes are outside the due index. -/
theorem keeps_writeTaskRecord (rec : TaskRecord) :
    Keeps Paired (writeTaskRecordWithRunnableIndexLocked clock none rec now) := by
  unfold writeTaskRecordWithRunnableIndexLocked
  refine (closed_keeps Paired).ite ((closed_keeps Paired).pure ()) ?_
  obtain ⟨pre, post, hpre, hpost, heq⟩ := taskRecordBatch_around clock none rec now
  rw [heq]
  exact keeps_other (rows_around hpre hpost (rfl : rec.taskID = rec.taskID)) fun w hw =>
    taskKey_not_due (keys_around hpre hpost _ _ w hw)

theorem keeps_enqueueMigration (c : TieringCandidate) :
    Keeps Paired (enqueueMigration clock now c) := by
  have hclosed := closed_keeps Paired
  have hhead : ∀ n : Int, Keeps Paired (markPending now c n) := by
    intro n s hs
    refine keeps_markPending hs (hs.rows.get_object c.objectID) (fun obj hobj => ?_) n
    obtain ⟨hid, -⟩ := hs.rows.named.head hobj
    refine hs.other (writeRows_singleton ⟨congrArg tiKVObjectKey hid.symm, trivial⟩) ?_
    refine List.forall_mem_singleton.mpr ?_
    rw [Write.key_set, keyFamily_object]
    decide
  have htail := fun n : Int =>
    hclosed.bind (keeps_removeTieringDueIndexByVersion c.objectID c.version) fun _ => hhead n
  unfold enqueueMigration
  refine hclosed.bind (hclosed.getJSON _ _) fun found => ?_
  cases found with
  | some rec => exact htail 0
  | none => exact hclosed.bind (keeps_writeTaskRecord _) fun _ => htail 1

theorem keeps_enqueueTieringCandidates (cfg : Config) (age maxObjects maxBytes : Int)
    (budget : Bool) :
    Keeps Paired (enqueueTieringCandidates cfg clock now age maxObjects maxBytes budget) :=
  (closed_keeps Paired).enqueueTieringCandidates
    ((closed_keeps Paired).tieringCandidate keeps_removeTieringDueIndexByVersion)
    keeps_enqueueMigration

theorem keeps_upsertNormalizedMetadata (cfg : Config) (o : GoString) (md : Metadata) :
    Keeps Paired (upsertNormalizedMetadata cfg clock now o md) := by
  intro s hs
  unfold upsertNormalizedMetadata
  split
  · exact hs
  · obtain ⟨ref, href, -⟩ := hs.rows.tierDueRef_found o (resolveVersion md clock)
    have heff : (upsertTxn cfg o (resolveVersion md clock) md now).effect s = _ :=
      upsertTxn_effect cfg (hs.rows.get_object o) href
    have hid : ∀ r, (catalog s).head o = some r → r.objectID = o :=
      fun r hr => (hs.rows.named.head hr).1
    have hrows : WriteRows AnyID (upsertRows o (resolveVersion md clock) md now
        ((catalog s).head o)) := by
      intro w hw x hx
      exact @upsertWrites_rows AnyID cfg o _ md now _ ref trivial hid w
        (List.mem_append_left _ hw) x hx
    have hfam : ∀ w ∈ upsertRows o (resolveVersion md clock) md now ((catalog s).head o),
        keyFamily w.key ≠ lit "tdue" ∧ keyFamily w.key ≠ lit "tdue_ref" := by
      intro w hw
      rcases keyFamily_of_upsertRows hw with h | h | h <;> rw [h] <;> decide
    have hafter := hs.other hrows hfam
    have hpaired : Paired (s.applyAll (upsertWrites cfg o (resolveVersion md clock) md now
        ((catalog s).head o) ref)) := by
      unfold upsertWrites
      rw [SortedMap.applyAll_append]
      split
      · exact hafter
      · refine hafter.dueUpsert ?_ cfg _ _ now
        rw [← href]
        refine SortedMap.get?_applyAll_of_untouched ?_
        rintro w hw heq
        exact (hfam w hw).2 (by rw [heq, keyFamily_tierDueRef])
    exact solo_txn heff hpaired trivial hpaired

theorem scanDeletes_not_due {pre f : GoString} (hpre : ∀ k, pre <+: k → keyFamily k = f)
    (hf : f ≠ lit "tdue" ∧ f ≠ lit "tdue_ref") {w : KVWrite} (hw : w ∈ scanDeletes s pre) :
    w.value = none ∧ keyFamily w.key ≠ lit "tdue" ∧ keyFamily w.key ≠ lit "tdue_ref" := by
  obtain ⟨⟨k, x⟩, he, rfl⟩ := List.mem_map.mp hw
  rw [Write.key_del, hpre k (mem_prefixEntries.mp he).2]
  exact ⟨rfl, hf⟩

theorem keeps_purgeObjectVersionMetadata (o : GoString) (v : Int) :
    Keeps Paired (purgeObjectVersionMetadata o v) := by
  intro s hs
  obtain ⟨ref, href, -⟩ := hs.rows.tierDueRef_found o v
  refine solo_purgeObjectVersionMetadata hs hs.rows href (fun _ => hs) (fun _ => hs)
    fun obj _ _ => keeps_commit ?_
  have hfirst : ∀ w ∈ [Write.del (tiKVObjectVersionKey o v)] ++
      scanDeletes s (tiKVReplicaVersionPrefix o v) ++
      scanDeletes s (tiKVECShardVersionPrefix o v), w.value = none ∧
      keyFamily w.key ≠ lit "tdue" ∧ keyFamily w.key ≠ lit "tdue_ref" := by
    intro w hw
    simp only [List.mem_append, List.mem_singleton] at hw
    rcases hw with (rfl | hw) | hw
    · rw [Write.key_del, keyFamily_objectVersion]
      exact ⟨rfl, by decide, by decide⟩
    · exact scanDeletes_not_due (fun k => keyFamily_of_replica_version_scan) (by decide) hw
    · exact scanDeletes_not_due (fun k => keyFamily_of_ecShard_version_scan) (by decide) hw
  have hafter := hs.other (writeRows_deletes fun w hw => (hfirst w hw).1)
    fun w hw => (hfirst w hw).2
  rw [purgeWrites, SortedMap.applyAll_append]
  refine hafter.removal ?_
  rw [← href]
  refine SortedMap.get?_applyAll_of_untouched ?_
  rintro w hw heq
  exact (hfirst w hw).2.2 (by rw [heq, keyFamily_tierDueRef])

section Prefix

variable {o : GoString} {refs : List TierDueRefRecord} (hrefs : References s o refs)
include hrefs

variable (hs : Paired s)
include hs

/-- Half of a pair is deleted exactly when its reference lies under the prefix. -/
theorem pairDeletes_iff {k : GoString} {ref : TierDueRefRecord}
    (hk : s.get? k = some (.tierDueRef ref)) :
    ((∃ w ∈ pairDeletes (prefixEntries s (tiKVTierDueRefPrefix o)) refs, w.key = k) ↔
      tiKVTierDueRefPrefix o <+: k) ∧
    ((∃ w ∈ pairDeletes (prefixEntries s (tiKVTierDueRefPrefix o)) refs, w.key = ref.dueKey) ↔
      tiKVTierDueRefPrefix o <+: k) := by
  obtain ⟨hkey, hdue⟩ := hs.reference_keys hk
  have hapart : ∀ {t o₁ o₂ v₁ v₂}, tiKVTierDueRefKey o₁ v₁ ≠ tiKVTierDueKey t o₂ v₂ :=
    ne_of_keyFamily (by rw [keyFamily_tierDueRef, keyFamily_tierDue]; decide)
  have hunder := fun hpre => del_mem_pairDeletes hrefs (mem_prefixEntries.mpr ⟨hk, hpre⟩)
  refine ⟨⟨?_, fun hpre => ?_⟩, ⟨?_, fun hpre => ?_⟩⟩
  · rintro ⟨w, hw, heq⟩
    obtain ⟨k', ref', hmem, hw⟩ := mem_pairDeletes hrefs hw
    obtain ⟨hk', hpre⟩ := mem_prefixEntries.mp hmem
    rcases hw with rfl | rfl
    · exact heq ▸ hpre
    · rw [Write.key_del, hkey, (hs.reference_keys hk').2] at heq
      exact absurd heq.symm hapart
  · obtain ⟨_, -, hdel, -⟩ := hunder hpre
    exact ⟨_, hdel, rfl⟩
  · rintro ⟨w, hw, heq⟩
    obtain ⟨k', ref', hmem, hw⟩ := mem_pairDeletes hrefs hw
    obtain ⟨hk', hpre⟩ := mem_prefixEntries.mp hmem
    rcases hw with rfl | rfl
    · rw [Write.key_del, hdue, (hs.reference_keys hk').1] at heq
      exact absurd heq hapart
    · rw [Write.key_del, hdue, (hs.reference_keys hk').2] at heq
      obtain ⟨-, ho, hv⟩ := tiKVTierDueKey_inj.mp heq
      rw [hkey, ← ho, ← hv, ← (hs.reference_keys hk').1]
      exact hpre
  · obtain ⟨r, ⟨⟩, -, hdel⟩ := hunder hpre
    exact ⟨_, hdel (hs.dueKey_ne_nil hk), rfl⟩

end Prefix

/-- Removals by prefix remove whole pairs. -/
theorem keeps_deleteNormalizedMetadata (o : GoString) :
    Keeps Paired (deleteNormalizedMetadata o) := by
  intro s hs
  refine solo_deleteNormalizedMetadata hs hs.rows fun refs hrefs => keeps_commit ?_
  have hfirst : ∀ w ∈ [Write.del (tiKVObjectKey o)] ++
      scanDeletes s (tiKVObjectVersionPrefix o) ++ scanDeletes s (tiKVReplicaPrefix o) ++
      scanDeletes s (tiKVECShardPrefix o), w.value = none ∧
      keyFamily w.key ≠ lit "tdue" ∧ keyFamily w.key ≠ lit "tdue_ref" := by
    intro w hw
    simp only [List.mem_append, List.mem_singleton] at hw
    rcases hw with ((rfl | hw) | hw) | hw
    · rw [Write.key_del, keyFamily_object]
      exact ⟨rfl, by decide, by decide⟩
    · exact scanDeletes_not_due (fun k => keyFamily_of_version_scan) (by decide) hw
    · exact scanDeletes_not_due (fun k => keyFamily_of_replica_scan) (by decide) hw
    · exact scanDeletes_not_due (fun k => keyFamily_of_ecShard_scan) (by decide) hw
  refine hs.deletes (List.forall_mem_append.mpr ⟨fun w hw => (hfirst w hw).1,
    fun w hw => (pairDeletes_index hs.rows hrefs hw).1⟩) fun k ref hk => ?_
  obtain ⟨hkey, hdue⟩ := hs.reference_keys hk
  obtain ⟨hhalf, hhalf'⟩ := pairDeletes_iff hrefs hs hk
  -- the rows in front are of other families
  rw [deleteWrites, exists_key_append_right, exists_key_append_right, hhalf, hhalf']
  · intro w hw heq
    exact (hfirst w hw).2.1 (by rw [heq, hdue, keyFamily_tierDue])
  · intro w hw heq
    exact (hfirst w hw).2.2 (by rw [heq, hkey, keyFamily_tierDueRef])

end Calls

/-! ## Reachable stores -/

/-- The operations on the due index, with any ids, metadata and clock readings. -/
inductive Operation (cfg : Config) : KV Unit → Prop where
  | upsert (clock now : Time) (o : GoString) (md : Metadata) :
      Operation cfg (upsertNormalizedMetadata cfg clock now o md)
  | delete (o : GoString) : Operation cfg (deleteNormalizedMetadata o)
  | purge (o : GoString) (v : Int) : Operation cfg (purgeObjectVersionMetadata o v)
  | scan (clock now : Time) (age maxObjects maxBytes : Int) (budget : Bool) :
      Operation cfg (do
        let _ ← enqueueTieringCandidates cfg clock now age maxObjects maxBytes budget
        pure ())

/-- The stores that operations, executed one at a time, reach from the empty one. -/
inductive Reachable (cfg : Config) : Store → Prop where
  | empty : Reachable cfg SortedMap.empty
  | operation {s : Store} {p : KV Unit} (h : Reachable cfg s) (hp : Operation cfg p) :
      Reachable cfg (atomically p s).2

theorem Reachable.paired {cfg : Config} {s : Store} (h : Reachable cfg s) : Paired s := by
  induction h with
  | empty => exact paired_empty
  | operation _ hp ih =>
    cases hp with
    | upsert clock now o md => exact (keeps_upsertNormalizedMetadata cfg o md).run ih
    | delete o => exact (keeps_deleteNormalizedMetadata o).run ih
    | purge o v => exact (keeps_purgeObjectVersionMetadata o v).run ih
    | scan clock now age maxObjects maxBytes budget =>
      have hscan : Keeps Paired (enqueueTieringCandidates cfg clock now age maxObjects maxBytes
          budget) := keeps_enqueueTieringCandidates cfg age maxObjects maxBytes budget
      exact ((closed_keeps Paired).bind hscan fun _ => (closed_keeps Paired).pure ()).run ih

/-- The due index and the references are in bijection. -/
structure Bijection (s : Store) : Prop where
  /-- Every key of the index is the key of a version, and the reference of the version names it. -/
  entry : ∀ k x, s.get? k = some x → tiKVTierDuePrefix <+: k → ∃ due ref,
    x = .tierDue due ∧ k = tiKVTierDueKey due.eligibleAt due.objectID due.version ∧
    s.get? (tiKVTierDueRefKey due.objectID due.version) = some (.tierDueRef ref) ∧ ref.dueKey = k
  /-- Every reference names an entry with its object, version and time. -/
  reference : ∀ k x, s.get? k = some x → tiKVPrefixTierRef <+: k → ∃ ref due,
    x = .tierDueRef ref ∧ k = tiKVTierDueRefKey ref.objectID ref.version ∧
    s.get? ref.dueKey = some (.tierDue due) ∧
    ref.dueKey = tiKVTierDueKey ref.eligibleAt ref.objectID ref.version ∧
    due.objectID = ref.objectID ∧ due.version = ref.version ∧ due.eligibleAt = ref.eligibleAt
  /-- A version has at most one entry. -/
  unique : ∀ t t' o v x x', s.get? (tiKVTierDueKey t o v) = some x →
    s.get? (tiKVTierDueKey t' o v) = some x' → tiKVTierDueKey t o v = tiKVTierDueKey t' o v

theorem Paired.due_under {s : Store} (hs : Paired s) {k : GoString} {x : Value}
    (h : s.get? k = some x) (hpre : tiKVTierDuePrefix <+: k) : ∃ due, x = .tierDue due ∧
      k = tiKVTierDueKey due.eligibleAt due.objectID due.version := by
  have hrow := hs.rows k x h
  have hfam := hrow.keyFamily_mem
  rw [show keyFamily k = lit "tdue" from keyFamily_eq (by decide) hpre] at hfam
  cases x with
  | tierDue due => exact ⟨due, rfl, hrow.1⟩
  | _ => exact absurd hfam (by simp only [valueFamilies]; decide)

theorem Paired.bijection {s : Store} (hs : Paired s) : Bijection s where
  entry := by
    intro k x h hpre
    obtain ⟨due, rfl, hk⟩ := hs.due_under h hpre
    obtain ⟨ref, href, hkey⟩ := hs.entry h
    exact ⟨due, ref, rfl, hk, href, hkey⟩
  reference := by
    intro k x h hpre
    have hrow := hs.rows k x h
    have hfam := hrow.keyFamily_mem
    rw [show keyFamily k = lit "tdue_ref" from keyFamily_eq (by decide) hpre] at hfam
    cases x with
    | tierDueRef ref =>
      obtain ⟨due, hdue, hat⟩ := hs.reference h
      have hkey := (hs.rows _ _ hdue).1
      rw [hrow.2.2] at hkey
      obtain ⟨-, ho, hv⟩ := tiKVTierDueKey_inj.mp hkey
      exact ⟨ref, due, rfl, hrow.1, hdue, hrow.2.2, ho.symm, hv.symm, hat⟩
    | _ => exact absurd hfam (by simp only [valueFamilies]; decide)
  unique := by
    have hname : ∀ t o v x, s.get? (tiKVTierDueKey t o v) = some x → ∃ ref,
        s.get? (tiKVTierDueRefKey o v) = some (.tierDueRef ref) ∧
          ref.dueKey = tiKVTierDueKey t o v := by
      intro t o v x h
      obtain ⟨due, rfl, hk⟩ := hs.due_under h ⟨_, by simp [tiKVTierDueKey, tiKVTierDuePrefix]; rfl⟩
      obtain ⟨-, ho, hv⟩ := tiKVTierDueKey_inj.mp hk
      obtain ⟨ref, href, hkey⟩ := hs.entry h
      rw [← ho, ← hv] at href
      exact ⟨ref, href, hkey⟩
    intro t t' o v x x' h h'
    obtain ⟨ref, href, hkey⟩ := hname t o v x h
    obtain ⟨ref', href', hkey'⟩ := hname t' o v x' h'
    cases href.symm.trans href'
    exact hkey.symm.trans hkey'

/-- In every reachable store the due index and the references are in bijection, whatever the ids. -/
theorem due_index_bijection {cfg : Config} {s : Store} (h : Reachable cfg s) : Bijection s :=
  h.paired.bijection

/-- A version of `a` and one of `a/b` are committed, the first of them twice. -/
def pairedStore : Store :=
  (atomically (upsertNormalizedMetadata {} 3000000000 3000000000 (lit "a") hotMetadata)
    (atomically (upsertNormalizedMetadata {} 2000000000 2000000000 (lit "a/b") hotMetadata)
      (atomically (upsertNormalizedMetadata {} 1000000000 1000000000 (lit "a") hotMetadata)
        SortedMap.empty).2).2).2

theorem due_index_nested : Bijection pairedStore ∧
    (prefixEntries pairedStore tiKVTierDuePrefix).length = 2 ∧
    Bijection (atomically (deleteNormalizedMetadata (lit "a")) pairedStore).2 ∧
    prefixEntries (atomically (deleteNormalizedMetadata (lit "a")) pairedStore).2
      tiKVTierDuePrefix = [] := by
  have hreached : Reachable {} pairedStore :=
    ((Reachable.empty.operation (.upsert _ _ _ _)).operation (.upsert _ _ _ _)).operation
      (.upsert _ _ _ _)
  exact ⟨due_index_bijection hreached, by decide +kernel,
    due_index_bijection (hreached.operation (.delete (lit "a"))), by decide +kernel⟩

end TieredStore.Meta.DuePairs
