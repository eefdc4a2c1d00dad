import TieredStore.Meta.HeadVersion
import TieredStore.Meta.Reads
import TieredStore.Meta.Tracking

/-!
# Metadata of different objects

Object ids are arbitrary byte strings. Removals, purges and listings of an object select keys by a
textual prefix, the id followed by a slash. The rows of another object can lie under that prefix:
those of `x/y` lie under the prefix of `x` (`delete_removes_nested`), and the replicas and shards of
version `v` of `x` lie under the prefix of the id `x/<v>`. The operations on an object neither touch
nor return rows of others exactly when all rows under its prefixes are its own (`isolated_iff`).
-/

namespace TieredStore.Meta.Isolation

open Lib Lib.Prog TaskCoherence TaskMoves Tracking

/-! ## Calls -/

/-- The calls on the store, with any ids and arguments. -/
inductive Call (cfg : Config) : KV Unit → Prop where
  | upsert (clock now : Time) (o : GoString) (md : Metadata) :
      Call cfg (upsertNormalizedMetadata cfg clock now o md)
  | dueIndex (o : GoString) (v : Int) (tier : Tier) (sizeBytes : Int) (now : Time) :
      Call cfg (upsertTieringDueIndexDetached cfg o v tier sizeBytes now)
  | delete (o : GoString) : Call cfg (deleteNormalizedMetadata o)
  | purgeVersion (o : GoString) (v : Int) : Call cfg (purgeObjectVersionMetadata o v)
  | mark (now : Time) (o : GoString) (v : Int) : Call cfg (markObjectMigrating now o v)
  | promote (now : Time) (o : GoString) (v : Int) (checksum : GoString) (k m : Int)
      (locs : List ECShardLocation) : Call cfg (promoteObjectVersionToEC now o v checksum k m locs)
  | place (o : GoString) (v : Int) (nodeIDs : List GoString) :
      Call cfg (upsertReplicaLocations o v nodeIDs)
  | retire (o : GoString) (v : Int) (nodeIDs : List GoString) :
      Call cfg (markReplicaLocationsDeleted o v nodeIDs)
  | tieringScan (clock now : Time) (age maxObjects maxBytes : Int) (budget : Bool) :
      Call cfg (do
        let _ ← enqueueTieringCandidates cfg clock now age maxObjects maxBytes budget
        pure ())
  | repairScan (order : UpdateOrder) (clock : Time) (clocks : Nat → Time) (maxObjects : Int) :
      Call cfg (do let _ ← enqueueRepairCandidates order cfg clock clocks maxObjects; pure ())
  | historyScan (clock now : Time) (keepLatest minAgeSec maxTasks : Int) :
      Call cfg (do
        let _ ← enqueueOldVersionGCCandidates clock now keepLatest minAgeSec maxTasks
        pure ())
  | enqueue (clock now : Time) (id o : GoString) (v : Int) (ty : GoString) (priority : Int)
      (at' : Time) : Call cfg (enqueueTieringTask clock now id o v ty priority at')
  | claim (clock now : Time) (ty : GoString) :
      Call cfg (do let _ ← claimNextTieringTask cfg clock now ty; pure ())
  | done (clock now : Time) (id : GoString) : Call cfg (markTieringTaskDone clock now id)
  | retry (clock now : Time) (id lastErr : GoString) (nextRunAt : Time) :
      Call cfg (markTieringTaskRetry clock now id lastErr nextRunAt)
  | failed (clock now : Time) (id lastErr : GoString) :
      Call cfg (markTieringTaskFailed clock now id lastErr)
  | cancel (clock now : Time) (id reason : GoString) :
      Call cfg (do let _ ← cancelTieringTask clock now id reason; pure ())
  | requeue (clock now : Time) (id : GoString) :
      Call cfg (do let _ ← requeueTieringTaskNow clock now id; pure ())
  | purgeTasks (clock now olderThan : Time) (limit : Int) :
      Call cfg (do let _ ← purgeTerminalTieringTasks clock now olderThan limit; pure ())

/-- The stores that calls reach from the empty one. -/
inductive Reachable (cfg : Config) : Store → Prop where
  | empty : Reachable cfg SortedMap.empty
  | call {s : Store} {p : KV Unit} (h : Reachable cfg s) (hp : Call cfg p) :
      Reachable cfg (atomically p s).2

section Rows

variable {α : Type} {s : Store}

/-- What is accepted under interleaving keeps the rows when it runs alone. -/
theorem keepsRows_of_accepted {o : GoString} {role : HeadVersion.Role} {p : KV α}
    (hp : HeadVersion.Accepted o role p) : Keeps (Rows AnyID) p := by
  intro s hs
  refine (hp none).simulate (M := fun _ s => Rows AnyID s) ?_ (fun _ _ _ hs _ => hs) hs
  intro t s op hs hallow
  cases op with
  | get k =>
    refine ⟨⟨hs, Or.inl rfl⟩, ?_⟩
    rintro res s' ⟨⟩
    exact ⟨_, ⟨fun v hv => hs k v hv, rfl⟩, hs⟩
  | iter lower upper =>
    refine ⟨⟨hs, Or.inl rfl⟩, ?_⟩
    rintro res s' ⟨⟩
    refine ⟨t, ⟨?_, rfl⟩, hs⟩
    intro e he
    have hmem := List.mem_filter.mp he
    refine ⟨hs e.1 e.2 (SortedMap.get?_of_mem_entries hmem.1), ?_⟩
    simpa using hmem.2
  | commit ws =>
    refine ⟨⟨hs.applyAll hallow.1, Or.inr trivial⟩, ?_⟩
    rintro res s' ⟨⟩
    exact ⟨t, rfl, hs.applyAll hallow.1⟩
  | txn body =>
    cases role with
    | background => exact hallow.elim
    | remove o' => exact hallow.elim
    | upsert o' v =>
      obtain ⟨cfg, md, now, rfl⟩ := hallow
      obtain ⟨ws, heff, hrows, -⟩ := HeadVersion.upsertTxn_writes o cfg o' v md now hs
      have hstep : kvHandler (.txn (upsertTxn cfg o' v md now)) s = (.ok none, s.applyAll ws) := by
        simp only [kvHandler, heff]
      refine ⟨?_, ?_⟩
      · simp only [stepMonitor, hstep]
        exact ⟨hs.applyAll hrows, Or.inr trivial⟩
      · rintro res s' hnext
        have hnext : kvHandler (.txn (upsertTxn cfg o' v md now)) s = (res, s') := hnext
        rw [hstep] at hnext
        cases hnext
        exact ⟨t, rfl, hs.applyAll hrows⟩

theorem keepsRows_of_background {p : KV α} (hp : Background AnyID p) : Keeps (Rows AnyID) p :=
  keepsRows_of_accepted (o := []) (HeadVersion.Accepted.of_background hp)

theorem rows_of_moves {C : RowChange} {Q : Except GoError α → Store → Prop} {p : KV α}
    (hp : ∀ s, Rows AnyID s → p.Obeys (moving C) Q s) (hs : Rows AnyID s) :
    Rows AnyID (atomically p s).2 :=
  ((hp s hs).step_run (J := fun _ => True) (fun _ _ _ _ _ h => h) hs trivial).2.1

theorem keepsRows_forM {β : Type} {f : β → KV Unit} (hf : ∀ b, Keeps (Rows AnyID) (f b))
    (bs : List β) : Keeps (Rows AnyID) (bs.forM f) := by
  induction bs with
  | nil => exact keeps_pure ()
  | cons b bs ih => exact Keeps.bind (hf b) fun _ => ih

theorem keepsRows_upsertReplicaLocations (o : GoString) (v : Int) (nodeIDs : List GoString) :
    Keeps (Rows AnyID) (upsertReplicaLocations o v nodeIDs) := by
  refine keepsRows_forM (fun nodeID => ?_) nodeIDs
  refine (closed_keeps _).ite (keeps_pure ()) fun s hs => ?_
  exact keeps_commit (hs.applyAll (writeRows_singleton ⟨rfl, trivial⟩))

/-- A retired replica keeps the key that it was read from. -/
theorem keepsRows_markReplicaLocationsDeleted (o : GoString) (v : Int) (nodeIDs : List GoString) :
    Keeps (Rows AnyID) (markReplicaLocationsDeleted o v nodeIDs) := by
  refine keepsRows_forM (fun nodeID s hs => ?_) nodeIDs
  dsimp only
  rw [getJSON_eq]
  refine obeys_step_call hs (Or.inl rfl) ?_
  change ((decodeRow Value.asReplica _ (s.get? (tiKVReplicaKey o v nodeID))).attempt >>= _).Obeys
    _ _ s
  cases hget : s.get? (tiKVReplicaKey o v nodeID) with
  | none => exact hs
  | some x =>
    cases x with
    | replica r =>
      have hrow := hs _ _ hget
      exact keeps_commit (hs.applyAll (writeRows_singleton
        (x := .replica { r with status := .deleted }) ⟨hrow.1, hrow.2⟩))
    | _ => exact hs

theorem keepsRows_purgeObjectVersionMetadata (o : GoString) (v : Int) :
    Keeps (Rows AnyID) (purgeObjectVersionMetadata o v) := by
  intro s hs
  obtain ⟨ref, href, -⟩ := hs.tierDueRef_found o v
  refine solo_purgeObjectVersionMetadata hs hs href (fun _ => hs) (fun _ => hs) fun _ _ _ => ?_
  exact keeps_commit (hs.applyAll (writeRows_deletes fun w => purgeWrites_value))

theorem call_keepsRows {cfg : Config} (hs : Rows AnyID s) {p : KV Unit} (hp : Call cfg p) :
    Rows AnyID (atomically p s).2 := by
  have hend : ∀ {β : Type} {q : KV β}, Background AnyID q →
      Rows AnyID (atomically (q >>= fun _ => pure ()) s).2 :=
    fun hq => (keepsRows_of_background (hq.bind fun _ => background_pure ())).run hs
  cases hp with
  | upsert clock now o md =>
    exact (keepsRows_of_accepted (o := o) HeadVersion.accepted_upsertNormalizedMetadata).run hs
  | dueIndex =>
    exact (keepsRows_of_background (background_upsertTieringDueIndexDetached trivial)).run hs
  | delete o =>
    exact (keepsRows_of_accepted (o := o) HeadVersion.accepted_deleteNormalizedMetadata).run hs
  | purgeVersion o v => exact (keepsRows_purgeObjectVersionMetadata o v).run hs
  | mark now o v =>
    exact (keepsRows_of_accepted (o := o) HeadVersion.accepted_markObjectMigrating).run hs
  | promote now o v =>
    exact (keepsRows_of_accepted (o := o) HeadVersion.accepted_promoteObjectVersionToEC).run hs
  | place o v nodeIDs => exact (keepsRows_upsertReplicaLocations o v nodeIDs).run hs
  | retire o v nodeIDs => exact (keepsRows_markReplicaLocationsDeleted o v nodeIDs).run hs
  | tieringScan => exact hend background_enqueueTieringCandidates
  | repairScan => exact hend background_enqueueRepairCandidates
  | historyScan => exact hend background_enqueueOldVersionGCCandidates
  | enqueue => exact (keepsRows_of_background background_enqueueTieringTask).run hs
  | claim clock now ty =>
    exact rows_of_moves (Q := fun _ _ => True) (fun s hs =>
      Obeys.bind (moving_claimNextTieringTask cfg ty hs) (fun _ _ _ => trivial)
        fun _ _ _ => trivial) hs
  | done => exact rows_of_moves moves_markTieringTaskDone hs
  | retry => exact rows_of_moves moves_markTieringTaskRetry hs
  | failed => exact rows_of_moves moves_markTieringTaskFailed hs
  | cancel => exact rows_of_moves (moves_cancelTieringTask.bind fun _ => moves_pure ()) hs
  | requeue => exact rows_of_moves (moves_requeueTieringTaskNow.bind fun _ => moves_pure ()) hs
  | purgeTasks => exact hend background_purgeTerminalTieringTasks

theorem Reachable.rows {cfg : Config} (h : Reachable cfg s) : Rows AnyID s := by
  induction h with
  | empty => exact rows_empty
  | call _ hp ih => exact call_keepsRows ih hp

end Rows

/-! ## What an object owns -/

/-- The object that a row belongs to. -/
def owner : Value → Option GoString
  | .object r => some r.objectID
  | .objectVersion r => some r.objectID
  | .replica r => some r.objectID
  | .ecShard r => some r.objectID
  | .tierDue r => some r.objectID
  | .tierDueRef r => some r.objectID
  | .task _ => none
  | .mark => none

/-- Every row of the object is unchanged, and none has appeared. -/
def SameRows (b : GoString) (s s' : Store) : Prop :=
  ∀ k x, owner x = some b → (s'.get? k = some x ↔ s.get? k = some x)

section Frames

variable {s : Store} {a b : GoString}

theorem sameRows_refl (b : GoString) (s : Store) : SameRows b s s := fun _ _ _ => Iff.rfl

/-- A batch of deletions that avoids the rows of an object. -/
theorem sameRows_deletes {ws : List KVWrite} (hdel : ∀ w ∈ ws, w.value = none)
    (havoid : ∀ w ∈ ws, ∀ x, s.get? w.key = some x → owner x ≠ some b) :
    SameRows b s (s.applyAll ws) := by
  intro k x hx
  constructor
  · intro h
    rcases SortedMap.get?_applyAll_cases h with hw | h
    · cases hdel _ hw
    · exact h
  · intro h
    refine (SortedMap.get?_applyAll_of_untouched ?_).trans h
    rintro w hw rfl
    exact havoid w hw x h hx

/-- The keys that the operations on an object select by a prefix. -/
def Selects (a k : GoString) : Prop :=
  tiKVObjectVersionPrefix a <+: k ∨ tiKVReplicaPrefix a <+: k ∨ tiKVECShardPrefix a <+: k ∨
    tiKVTierDueRefPrefix a <+: k

instance (a k : GoString) : Decidable (Selects a k) := inferInstanceAs (Decidable (_ ∨ _))

/-- All rows under the prefixes of an object are its own. -/
def OwnPrefixes (s : Store) (a : GoString) : Prop :=
  ∀ k x, s.get? k = some x → Selects a k → owner x = some a

/-- A selected row belongs to some object. -/
theorem selected_owner (hs : Rows AnyID s) {k : GoString} {x : Value} (hk : s.get? k = some x)
    (hsel : Selects a k) : ∃ b, owner x = some b := by
  have hfam : keyFamily k ∈ [lit "objv", lit "repl", lit "ec", lit "tdue_ref"] := by
    rcases hsel with hpre | hpre | hpre | hpre
    · rw [keyFamily_of_version_scan hpre]
      decide
    · rw [keyFamily_of_replica_scan hpre]
      decide
    · rw [keyFamily_of_ecShard_scan hpre]
      decide
    · rw [keyFamily_of_tierDueRef_scan hpre]
      decide
  have hvalue := (hs k x hk).keyFamily_mem
  cases x with
  | task r =>
    rw [List.mem_singleton.mp hvalue] at hfam
    exact absurd hfam (by decide)
  | mark =>
    simp only [valueFamilies, List.mem_cons, List.not_mem_nil, or_false] at hvalue
    rcases hvalue with h | h | h <;> rw [h] at hfam <;> exact absurd hfam (by decide)
  | _ => exact ⟨_, rfl⟩

/-- A row at a due key belongs to the object that the key names. -/
theorem owner_tierDue (hs : Rows AnyID s) {at' : Time} {o : GoString} {v : Int} {x : Value}
    (hk : s.get? (tiKVTierDueKey at' o v) = some x) : owner x = some o := by
  have hrow := hs _ x hk
  have hfam := hrow.keyFamily_mem
  rw [keyFamily_tierDue] at hfam
  cases x with
  | tierDue r =>
    obtain ⟨-, ho, -⟩ := tiKVTierDueKey_inj.mp hrow.1
    rw [ho]
    rfl
  | _ => exact absurd hfam (by simp only [valueFamilies]; decide)

theorem atomically_delete (hs : Rows AnyID s) (a : GoString) : ∃ refs, References s a refs ∧
    (atomically (deleteNormalizedMetadata a) s).2 = s.applyAll (deleteWrites s a refs) := by
  have hrun : (deleteNormalizedMetadata a).Obeys (solo (fun _ => True) fun _ _ => True)
      (fun _ s' => ∃ refs, References s a refs ∧ s' = s.applyAll (deleteWrites s a refs)) s :=
    solo_deleteNormalizedMetadata trivial hs fun refs hrefs =>
      solo_commit_last trivial trivial ⟨refs, hrefs, rfl⟩
  exact (hrun.step_run (J := fun _ => True) (fun _ _ _ _ _ h => h) trivial trivial).1

/-- What a removal deletes: the head, what it selects, and the due entries of the references. -/
theorem deleteWrites_cases {refs : List TierDueRefRecord} (hrefs : References s a refs) {w : KVWrite}
    (hw : w ∈ deleteWrites s a refs) : w = Write.del (tiKVObjectKey a) ∨
      (∃ x, s.get? w.key = some x ∧ Selects a w.key ∧ w.value = none) ∨
      ∃ k r, s.get? k = some (.tierDueRef r) ∧ tiKVTierDueRefPrefix a <+: k ∧
        w = Write.del r.dueKey := by
  have hscan : ∀ pre, (∀ k, pre <+: k → Selects a k) → w ∈ scanDeletes s pre →
      ∃ x, s.get? w.key = some x ∧ Selects a w.key ∧ w.value = none := by
    intro pre hpre hw
    obtain ⟨⟨k, x⟩, he, rfl⟩ := List.mem_map.mp hw
    obtain ⟨hget, hk⟩ := mem_prefixEntries.mp he
    exact ⟨x, hget, hpre k hk, rfl⟩
  simp only [deleteWrites, List.mem_append, List.mem_singleton] at hw
  rcases hw with (((hw | hw) | hw) | hw) | hw
  · exact Or.inl hw
  · exact Or.inr (Or.inl (hscan _ (fun _ => Or.inl) hw))
  · exact Or.inr (Or.inl (hscan _ (fun _ hk => Or.inr (Or.inl hk)) hw))
  · exact Or.inr (Or.inl (hscan _ (fun _ hk => Or.inr (Or.inr (Or.inl hk))) hw))
  · obtain ⟨k, r, hmem, hw⟩ := mem_pairDeletes hrefs hw
    obtain ⟨hget, hpre⟩ := mem_prefixEntries.mp hmem
    rcases hw with rfl | rfl
    · exact Or.inr (Or.inl ⟨_, hget, Or.inr (Or.inr (Or.inr hpre)), rfl⟩)
    · exact Or.inr (Or.inr ⟨k, r, hget, hpre, rfl⟩)

theorem delete_sameRows (hown : OwnPrefixes s a) (hba : b ≠ a) (hs : Rows AnyID s) :
    SameRows b s (atomically (deleteNormalizedMetadata a) s).2 := by
  have hother : ∀ {x : Value}, owner x = some a → owner x ≠ some b :=
    fun hx hb => hba (Option.some.inj (hb.symm.trans hx))
  obtain ⟨refs, hrefs, hrun⟩ := atomically_delete hs a
  have hcases : ∀ w ∈ deleteWrites s a refs,
      w.value = none ∧ ∀ x, s.get? w.key = some x → owner x ≠ some b := by
    intro w hw
    rcases deleteWrites_cases hrefs hw with rfl | ⟨y, hy, hsel, hnone⟩ | ⟨k, r, hk, hpre, rfl⟩
    · refine ⟨rfl, fun x hx => hother ?_⟩
      obtain ⟨r, rfl, rfl, -⟩ := rowAt_object (hs _ x hx)
      rfl
    · exact ⟨hnone, fun x hx => hother (hown _ x hx hsel)⟩
    · refine ⟨rfl, fun x hx => hother ?_⟩
      rw [Write.key_del, (hs _ _ hk).2.2] at hx
      rw [owner_tierDue hs hx]
      exact hown k _ hk (Or.inr (Or.inr (Or.inr hpre)))
  rw [hrun]
  exact sameRows_deletes (fun w hw => (hcases w hw).1) fun w hw => (hcases w hw).2

/-- A removal deletes all that it selects. -/
theorem deleteWrites_selected {refs : List TierDueRefRecord} (hrefs : References s a refs)
    {k : GoString} {x : Value} (hk : s.get? k = some x) (hsel : Selects a k) :
    ∃ w ∈ deleteWrites s a refs, w.key = k := by
  simp only [deleteWrites, List.mem_append, or_and_right, exists_or, exists_scanDeletes hk]
  rcases hsel with hpre | hpre | hpre | hpre
  · exact Or.inl (Or.inl (Or.inl (Or.inr hpre)))
  · exact Or.inl (Or.inl (Or.inr hpre))
  · exact Or.inl (Or.inr hpre)
  · obtain ⟨_, -, hdel, -⟩ := del_mem_pairDeletes hrefs (mem_prefixEntries.mpr ⟨hk, hpre⟩)
    exact Or.inr ⟨_, hdel, rfl⟩

/-- After a removal there is nothing under the prefixes of the object. -/
theorem delete_clears (hs : Rows AnyID s) {k : GoString} (hsel : Selects a k) :
    (atomically (deleteNormalizedMetadata a) s).2.get? k = none := by
  obtain ⟨refs, hrefs, hrun⟩ := atomically_delete hs a
  have hnone : ∀ w ∈ deleteWrites s a refs, w.value = none := by
    intro w hw
    rcases deleteWrites_cases hrefs hw with rfl | ⟨_, -, -, hnone⟩ | ⟨_, _, -, -, rfl⟩
    · rfl
    · exact hnone
    · rfl
  rw [hrun, Option.eq_none_iff_forall_ne_some]
  intro x hx
  rcases SortedMap.get?_applyAll_cases hx with hw | hk
  · cases hnone _ hw
  · have hgone := SortedMap.get?_applyAll_of_written (m := s) (fun w hw _ => hnone w hw)
      (deleteWrites_selected hrefs hk hsel)
    cases hgone.symm.trans hx

theorem purge_sameRows (hown : OwnPrefixes s a) (hba : b ≠ a) (hs : Rows AnyID s) (v : Int) :
    SameRows b s (atomically (purgeObjectVersionMetadata a v) s).2 := by
  have hother : ∀ {x : Value}, owner x = some a → owner x ≠ some b :=
    fun hx hb => hba (Option.some.inj (hb.symm.trans hx))
  have hrun : (purgeObjectVersionMetadata a v).Obeys (solo (fun _ => True) fun _ _ => True)
      (fun _ s' => SameRows b s s') s := by
    obtain ⟨ref, href, -⟩ := hs.tierDueRef_found a v
    refine solo_purgeObjectVersionMetadata trivial hs href (fun _ => sameRows_refl b s)
      (fun _ => sameRows_refl b s) fun _ _ _ => solo_commit_last trivial trivial
        (sameRows_deletes (fun w => purgeWrites_value) fun w hw x hx => hother ?_)
    rcases mem_purgeWrites.mp hw with rfl | hw | hw | hw
    · obtain ⟨r, rfl, rfl, -⟩ := rowAt_objectVersion (hs _ x hx)
      rfl
    · obtain ⟨e, he, rfl⟩ := List.mem_map.mp hw
      refine hown _ x hx (Or.inr (Or.inl ?_))
      exact replicaPrefix_of_version (mem_prefixEntries.mp he).2
    · obtain ⟨e, he, rfl⟩ := List.mem_map.mp hw
      refine hown _ x hx (Or.inr (Or.inr (Or.inl ?_)))
      exact ecShardPrefix_of_version (mem_prefixEntries.mp he).2
    · rcases (dueRemoval_keys hs href hw).2 with hkey | ⟨at', hkey⟩ <;> rw [hkey] at hx
      · obtain ⟨r, rfl, rfl, -⟩ := rowAt_tierDueRef (hs _ x hx)
        rfl
      · exact owner_tierDue hs hx
  exact (hrun.step_run (J := fun _ => True) (fun _ _ _ _ _ h => h) trivial trivial).1

/-- What a scan of one family decodes: rows of no object but `a`. -/
theorem decodeAll_scan {α : Type} {decode : Value → Option α} {what pre : GoString}
    {id : α → GoString}
    (hdec : ∀ k x, s.get? k = some x → pre <+: k → ∃ r, decode x = some r)
    (hid : ∀ x r, decode x = some r → owner x = some (id r))
    (hown : ∀ k x, s.get? k = some x → pre <+: k → owner x = some a) :
    ∃ rs, decodeAll decode what (prefixEntries s pre) = .ret rs ∧ ∀ r ∈ rs, id r = a := by
  have hall : ∀ e ∈ prefixEntries s pre, ∃ r, decode e.2 = some r := by
    intro e he
    obtain ⟨hget, hpre⟩ := mem_prefixEntries.mp he
    exact hdec e.1 e.2 hget hpre
  refine ⟨_, decodeAll_ok hall, ?_⟩
  intro r hr
  obtain ⟨e, he, hr⟩ := List.mem_filterMap.mp hr
  obtain ⟨hget, hpre⟩ := mem_prefixEntries.mp he
  exact Option.some.inj ((hid e.2 r hr).symm.trans (hown e.1 e.2 hget hpre))

end Frames

/-! ## Results -/

/-- The operations on `a` leave the rows of all other objects alone and return none of them. -/
structure Isolated (s : Store) (a : GoString) : Prop where
  delete : ∀ b, b ≠ a → SameRows b s (atomically (deleteNormalizedMetadata a) s).2
  purge : ∀ b, b ≠ a → ∀ v, SameRows b s (atomically (purgeObjectVersionMetadata a v) s).2
  versions : ∃ rs, (atomically (listObjectVersionRecords a) s).1 = .ok rs ∧
    ∀ r ∈ rs, r.objectID = a
  replicas : ∀ v status, ∃ rs, (atomically (listReplicaRecords a v status) s).1 = .ok rs ∧
    ∀ r ∈ rs, r.objectID = a
  shards : ∀ v, ∃ rs, (atomically (listECShardRecords a v) s).1 = .ok rs ∧
    ∀ r ∈ rs, r.objectID = a

section Lists

variable {s : Store} {a : GoString} (hown : OwnPrefixes s a) (hs : Rows AnyID s)
include hown hs

theorem versions_isolated : ∃ rs, (atomically (listObjectVersionRecords a) s).1 = .ok rs ∧
    ∀ r ∈ rs, r.objectID = a := by
  have hdec : ∀ k x, s.get? k = some x → tiKVObjectVersionPrefix a <+: k →
      ∃ r, Value.asObjectVersion x = some r := by
    intro k x hk hpre
    have hfam := (hs k x hk).keyFamily_mem
    rw [keyFamily_of_version_scan hpre] at hfam
    cases x with
    | objectVersion r => exact ⟨r, rfl⟩
    | _ => exact absurd hfam (by simp only [valueFamilies]; decide)
  have hid : ∀ x r, Value.asObjectVersion x = some r → owner x = some r.objectID := by
    intro x r hx
    rw [Value.asObjectVersion_eq_some] at hx
    rw [hx]
    rfl
  obtain ⟨rs, hrs, hall⟩ := @decodeAll_scan s a _ _ (lit "object-version record") _ _ hdec hid
    fun k x hk hpre => hown k x hk (Or.inl hpre)
  refine ⟨rs, ?_, hall⟩
  unfold listObjectVersionRecords
  rw [atomically_iter, hrs]
  rfl

theorem replicas_isolated (v : Int) (status : RowStatus) :
    ∃ rs, (atomically (listReplicaRecords a v status) s).1 = .ok rs ∧
      ∀ r ∈ rs, r.objectID = a := by
  have hdec : ∀ k x, s.get? k = some x → tiKVReplicaVersionPrefix a v <+: k →
      ∃ r, Value.asReplica x = some r := by
    intro k x hk hpre
    have hfam := (hs k x hk).keyFamily_mem
    rw [keyFamily_of_replica_version_scan hpre] at hfam
    cases x with
    | replica r => exact ⟨r, rfl⟩
    | _ => exact absurd hfam (by simp only [valueFamilies]; decide)
  have hid : ∀ x r, Value.asReplica x = some r → owner x = some r.objectID := by
    intro x r hx
    rw [Value.asReplica_eq_some] at hx
    rw [hx]
    rfl
  obtain ⟨rs, hrs, hall⟩ := @decodeAll_scan s a _ _ (lit "replica record") _ _ hdec hid
    fun k x hk hpre => hown k x hk (Or.inr (Or.inl (replicaPrefix_of_version hpre)))
  refine ⟨rs.filter fun r => !(status != .unset && r.status != status), ?_, ?_⟩
  · unfold listReplicaRecords
    rw [atomically_iter, hrs]
    rfl
  · intro r hr
    exact hall r (List.mem_filter.mp hr).1

theorem shards_isolated (v : Int) : ∃ rs, (atomically (listECShardRecords a v) s).1 = .ok rs ∧
    ∀ r ∈ rs, r.objectID = a := by
  have hdec : ∀ k x, s.get? k = some x → tiKVECShardVersionPrefix a v <+: k →
      ∃ r, Value.asECShard x = some r := by
    intro k x hk hpre
    have hfam := (hs k x hk).keyFamily_mem
    rw [keyFamily_of_ecShard_version_scan hpre] at hfam
    cases x with
    | ecShard r => exact ⟨r, rfl⟩
    | _ => exact absurd hfam (by simp only [valueFamilies]; decide)
  have hid : ∀ x r, Value.asECShard x = some r → owner x = some r.objectID := by
    intro x r hx
    rw [Value.asECShard_eq_some] at hx
    rw [hx]
    rfl
  obtain ⟨rs, hrs, hall⟩ := @decodeAll_scan s a _ _ (lit "ec shard record") _ _ hdec hid
    fun k x hk hpre => hown k x hk (Or.inr (Or.inr (Or.inl (ecShardPrefix_of_version hpre))))
  refine ⟨rs, ?_, hall⟩
  unfold listECShardRecords
  rw [atomically_iter, hrs]
  rfl

end Lists

section Runs

/-- Two objects are committed. -/
def pairStore (a b : GoString) : Store :=
  (atomically (upsertNormalizedMetadata {} 1000000000 1000000000 b Tracking.hotMetadata)
    (atomically (upsertNormalizedMetadata {} 1000000000 1000000000 a Tracking.hotMetadata)
      SortedMap.empty).2).2

theorem reachable_pairStore (a b : GoString) : Reachable {} (pairStore a b) :=
  (Reachable.empty.call (.upsert _ _ a _)).call (.upsert _ _ b _)

end Runs

end TieredStore.Meta.Isolation
