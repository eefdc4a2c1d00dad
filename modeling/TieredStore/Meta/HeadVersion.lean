import TieredStore.Lib.Pool
import TieredStore.Meta.Background

/-!
# Acknowledged versions under interleaving

Commits and removals of one object run together with the background operations that also
write its head: `MarkObjectMigrating`, `PromoteObjectVersionToEC`,
`enqueueTieringCandidates` and the detached due-index update. The processes are interleaved
between any two key-value steps.

A ledger next to the store remembers the version that was acknowledged last, how often a
commit or a removal of the object took effect, and when each process last read the head. A
background operation writes the head that it read before; when a commit takes effect in
between, the write brings the old version back (`acked_version_rolled_back`). Without that
(`Fresh`), the head always has the acknowledged version (`acked_version_kept`).
-/

namespace TieredStore.Meta.HeadVersion

open Lib Lib.Prog

/-! ## What the background operations write to heads -/

/-- Reads of the head of `o` are remembered. A background commit may only write a head with
the version that was read last; a removal deletes; a commit of an object is its
transaction. -/
inductive Role where
  | upsert (objectID : GoString) (version : Int)
  | remove (objectID : GoString)
  | background

/-- The head writes a background process may make when it read `t` last. -/
def HeadWrites (o : GoString) (t : Option ObjectRecord) (ws : List KVWrite) : Prop :=
  ∀ w ∈ ws, w.key = tiKVObjectKey o → ∃ r r', t = some r ∧ w.value = some (.object r') ∧
    r'.currentVersion = r.currentVersion

abbrev AnyID : GoString → Prop := fun _ => True

def headMonitor (o : GoString) (role : Role) : Monitor KVOp KVRes (Option ObjectRecord) where
  allow t
    | .get _ => True
    | .iter _ _ => True
    | .commit ws => WriteRows AnyID ws ∧
      match role with
      | .upsert _ _ => False
      | .remove o' => ∀ w ∈ ws, w.key = tiKVObjectKey o → o' = o
      | .background => HeadWrites o t ws
    | .txn body =>
      match role with
      | .upsert o' v => ∃ cfg md now, body = upsertTxn cfg o' v md now
      | _ => False
  next t
    | .get k, r, t' => (∀ v, r = some v → RowAt AnyID k v) ∧
      t' = if k = tiKVObjectKey o then r.bind Value.asObject else t
    | .iter lower upper, r, t' => ScanRows AnyID lower upper r ∧ t' = t
    | .commit _, _, t' => t' = t
    | .txn _, _, t' => t' = t

/-- A program that the monitor accepts from every state of knowledge. -/
def Accepted {α : Type} (o : GoString) (role : Role) (p : KV α) : Prop :=
  ∀ t, p.Obeys (headMonitor o role) (fun _ _ => True) t

section Rules

variable {α : Type} {o : GoString} {role : Role}

theorem accepted_fail (e : GoError) : Accepted o role (.fail e : KV α) := fun _ => trivial

/-- What a typed read tells: the row is at its own key, and a head is remembered. -/
theorem obeys_getJSON {decode : Value → Option α} {k : GoString} (t : Option ObjectRecord) :
    (getJSON decode k).Obeys (headMonitor o role) (fun x t' =>
      (k ≠ tiKVObjectKey o → t' = t) ∧ ∀ r, x = .ok (some r) → ∃ v, RowAt AnyID k v ∧
        decode v = some r ∧ (k = tiKVObjectKey o → t' = v.asObject)) t := by
  rw [getJSON_eq]
  refine ⟨trivial, ?_⟩
  rintro res t' ⟨hrow, rfl⟩
  have hother : k ≠ tiKVObjectKey o →
      (if k = tiKVObjectKey o then res.bind Value.asObject else t) = t := fun hk => if_neg hk
  cases res with
  | none => exact ⟨hother, fun r hr => by cases hr⟩
  | some v =>
    cases hd : decode v with
    | none =>
      simp only [decodeRow, hd, obeys_fail]
      exact ⟨hother, fun r hr => by cases hr⟩
    | some a =>
      simp only [decodeRow, hd, obeys_pure]
      refine ⟨hother, ?_⟩
      rintro r hr
      cases hr
      exact ⟨v, hrow v rfl, hd, fun hk => by simp [hk]⟩

theorem obeys_getObjectRecord {o' : GoString} (t : Option ObjectRecord) :
    (getObjectRecord (tiKVObjectKey o')).Obeys (headMonitor o role) (fun x t' =>
      ∀ r, x = .ok (some r) → r.objectID = o' ∧ (o' = o → t' = some r)) t := by
  refine (obeys_getJSON t).mono ?_
  rintro x t' ⟨-, h⟩ r hx
  obtain ⟨v, hrow, hv, ht⟩ := h r hx
  rw [Value.asObject_eq_some] at hv
  subst hv
  obtain ⟨r', hr', hid, -⟩ := rowAt_object hrow
  cases hr'
  exact ⟨hid, fun ho => ht (by rw [ho])⟩

end Rules

/-! ## Background commits that leave the heads alone -/

section Background

variable {o : GoString}

/-- What a scan or a task operation does is allowed in the background. -/
theorem Accepted.of_background {α : Type} {p : KV α} (hp : Background AnyID p) :
    Accepted o .background p := by
  intro t
  refine (hp none).simulate (M := fun t t' => ∀ r, t = some r → r.objectID = o → t' = some r) ?_
    (fun _ _ _ _ _ => trivial) (fun r hr => by cases hr)
  intro t t' op hM hallow
  cases op with
  | get k =>
    refine ⟨trivial, ?_⟩
    rintro res t₁' ⟨hrow, rfl⟩
    refine ⟨_, ⟨hrow, rfl⟩, ?_⟩
    intro r hr hid
    by_cases hk : keyFamily k = lit "obj"
    · rw [if_pos hk] at hr
      obtain ⟨x, rfl, hx⟩ := Option.bind_eq_some_iff.mp hr
      rw [Value.asObject_eq_some] at hx
      subst hx
      have hkey : k = tiKVObjectKey o := hid ▸ (hrow _ rfl).1
      rw [if_pos hkey]
      exact hr
    · rw [if_neg hk] at hr
      rw [if_neg (ne_of_keyFamily (by rwa [keyFamily_object]))]
      exact hM r hr hid
  | iter lower upper =>
    refine ⟨trivial, ?_⟩
    rintro res t₁' ⟨hscan, rfl⟩
    exact ⟨t, ⟨hscan, rfl⟩, hM⟩
  | commit ws =>
    refine ⟨?_, fun _ _ _ => ⟨none, rfl, fun r hr => by cases hr⟩⟩
    rcases hallow with hws | ⟨obj, now, ht, -, -, rfl⟩
    · refine ⟨hws.rows, ?_⟩
      intro w hw hk
      exact absurd (by rw [hk, keyFamily_object]) ((hws.keys w hw).family_ne (by decide))
    · refine ⟨writeRows_singleton ⟨rfl, trivial⟩, List.forall_mem_singleton.mpr fun hk => ?_⟩
      exact ⟨obj, _, hM obj ht (tiKVObjectKey_inj.mp hk), rfl, rfl⟩
  | txn body => exact hallow.elim

/-- A head that was read may be written back with its version. -/
theorem obeys_setHead {o' : GoString} {r r' : ObjectRecord} {t : Option ObjectRecord}
    (ht : o' = o → t = some r) (hid : r'.objectID = o')
    (hv : r'.currentVersion = r.currentVersion) :
    (KV.set (tiKVObjectKey o') (.object r')).Obeys (headMonitor o .background)
      (fun _ _ => True) t := by
  have hrow : RowAt AnyID (tiKVObjectKey o') (.object r') := ⟨congrArg tiKVObjectKey hid.symm, trivial⟩
  refine ⟨⟨writeRows_singleton hrow, List.forall_mem_singleton.mpr fun hk => ?_⟩,
    fun _ _ _ => trivial⟩
  exact ⟨r, r', ht (tiKVObjectKey_inj.mp hk), rfl, hv⟩

theorem accepted_markObjectMigrating {now : Time} {o' : GoString} {v : Int} :
    Accepted o .background (markObjectMigrating now o' v) := by
  intro t
  unfold markObjectMigrating
  refine (obeys_getObjectRecord t).attempt_bind ?_
  intro found t' hfound
  split
  · rename_i obj
    obtain ⟨hid, ht⟩ := hfound obj rfl
    split
    · exact accepted_fail _ _
    · split
      · exact obeys_setHead ht hid rfl
      · exact obeys_setHead ht hid rfl
      · exact obeys_setHead ht hid rfl
      · exact accepted_fail _ _
  · exact accepted_fail _ _

/-- The only head that a promotion writes is that of its object, moved to EC_ACTIVE. -/
theorem promoteBatch_head {now : Time} {o' : GoString} {v : Int} {checksum : GoString} {k m : Int}
    {locs : List ECShardLocation} {obj : ObjectRecord} {ver : ObjectVersionRecord} {w : KVWrite}
    (hw : w ∈ promoteBatch now o' v checksum k m locs obj ver)
    (hk : keyFamily w.key = lit "obj") : w = Write.set (tiKVObjectKey o')
      (.object { obj with state := .ecActive, updatedAt := now }) := by
  unfold promoteBatch at hw
  rcases List.mem_append.mp hw with hw | hw
  · obtain ⟨loc, -, rfl⟩ := List.mem_map.mp hw
    rw [Write.key_set, keyFamily_ecShard] at hk
    exact absurd hk (by decide)
  · simp only [List.mem_cons, List.not_mem_nil, or_false] at hw
    rcases hw with rfl | rfl
    · rw [Write.key_set, keyFamily_objectVersion] at hk
      exact absurd hk (by decide)
    · rfl

theorem accepted_promoteObjectVersionToEC {now : Time} {o' : GoString} {v : Int}
    {checksum : GoString} {k m : Int} {locs : List ECShardLocation} :
    Accepted o .background (promoteObjectVersionToEC now o' v checksum k m locs) := by
  intro t
  unfold promoteObjectVersionToEC
  split
  · exact accepted_fail _ _
  · refine (obeys_getObjectRecord t).attempt_bind ?_
    intro found t₁ hfound
    split
    · rename_i obj
      obtain ⟨hid, ht⟩ := hfound obj rfl
      split
      · exact accepted_fail _ _
      · refine (obeys_getJSON t₁).attempt_bind ?_
        rintro found t₂ ⟨hsame, hver⟩
        split
        · rename_i ver
          obtain ⟨x, hrow, hx, -⟩ := hver ver rfl
          rw [Value.asObjectVersion_eq_some] at hx
          subst hx
          obtain ⟨ver', hver', hid', hv', -⟩ := rowAt_objectVersion hrow
          cases hver'
          have ht₂ : t₂ = t₁ := hsame (ne_of_keyFamily (by
            rw [keyFamily_objectVersion, keyFamily_object]
            decide))
          refine KV.obeys_commit (fun _ => trivial) ⟨promoteBatch_rows trivial hid hid' hv', ?_⟩
            (fun _ _ => trivial)
          intro w hw hk
          obtain rfl := promoteBatch_head hw (by rw [hk, keyFamily_object])
          exact ⟨obj, _, ht₂.trans (ht (tiKVObjectKey_inj.mp hk)), rfl, rfl⟩
        · exact accepted_fail _ _
    · exact accepted_fail _ _

end Background

/-! ## Removal and commit -/

section Foreground

variable {o : GoString}

theorem obeys_batchDeletePrefix {role : Role} {pre : GoString} (t : Option ObjectRecord) :
    (batchDeletePrefix pre).Obeys (headMonitor o role) (fun x _ =>
      ∀ ws, x = .ok ws → ∀ w ∈ ws, w.value = none ∧ pre <+: w.key) t := by
  refine ⟨trivial, ?_⟩
  rintro res t' ⟨hscan, -⟩ ws hws w hw
  cases hws
  obtain ⟨e, he, rfl⟩ := List.mem_map.mp hw
  exact ⟨rfl, (between_bounds_iff pre e.1).mp (hscan e he).2⟩

theorem obeys_removeTieringDueIndexForObject {role : Role} {o' : GoString}
    (t : Option ObjectRecord) :
    (removeTieringDueIndexForObjectInBatch o').Obeys (headMonitor o role) (fun x _ =>
      ∀ ws, x = .ok ws → ∀ w ∈ ws, w.value = none ∧
        (keyFamily w.key = lit "tdue" ∨ keyFamily w.key = lit "tdue_ref")) t := by
  refine ⟨trivial, ?_⟩
  rintro res t' ⟨hscan, -⟩
  rcases decodeAll_cases Value.asTierDueRef (lit "due-index ref") res with
    ⟨refs, hrefs, hall⟩ | ⟨err, herr⟩
  · change (decodeAll _ _ res >>= _).Obeys _ _ _
    rw [hrefs]
    intro ws hws w hw
    cases hws
    obtain ⟨k, ref, hmem, hw⟩ := mem_pairDeletes hall hw
    obtain ⟨hrow, hbounds⟩ := hscan _ hmem
    rcases hw with rfl | rfl
    · exact ⟨rfl, Or.inr (keyFamily_of_tierDueRef_scan ((between_bounds_iff _ _).mp hbounds))⟩
    · exact ⟨rfl, Or.inl (by rw [Write.key_del, hrow.2.2, keyFamily_tierDue])⟩
  · change (decodeAll _ _ res >>= _).Obeys _ _ _
    rw [herr]
    intro ws hws
    cases hws

theorem accepted_deleteNormalizedMetadata {o' : GoString} :
    Accepted o (.remove o') (deleteNormalizedMetadata o') := by
  intro t
  unfold deleteNormalizedMetadata
  refine (obeys_batchDeletePrefix t).bind (fun _ _ _ => trivial) ?_
  intro versions t₁ hversions
  refine (obeys_batchDeletePrefix t₁).bind (fun _ _ _ => trivial) ?_
  intro replicas t₂ hreplicas
  refine (obeys_batchDeletePrefix t₂).bind (fun _ _ _ => trivial) ?_
  intro shards t₃ hshards
  refine (obeys_removeTieringDueIndexForObject t₃).bind (fun _ _ _ => trivial) ?_
  intro due t₄ hdue
  have hcases : ∀ w ∈ [Write.del (tiKVObjectKey o')] ++ versions ++ replicas ++ shards ++ due,
      w.value = none ∧ (w = Write.del (tiKVObjectKey o') ∨ keyFamily w.key ≠ lit "obj") := by
    intro w hw
    simp only [List.mem_append, List.mem_singleton] at hw
    rcases hw with (((rfl | hw) | hw) | hw) | hw
    · exact ⟨rfl, Or.inl rfl⟩
    · obtain ⟨hnone, hpre⟩ := hversions _ rfl w hw
      exact ⟨hnone, Or.inr (by rw [keyFamily_of_version_scan hpre]; decide)⟩
    · obtain ⟨hnone, hpre⟩ := hreplicas _ rfl w hw
      exact ⟨hnone, Or.inr (by rw [keyFamily_of_replica_scan hpre]; decide)⟩
    · obtain ⟨hnone, hpre⟩ := hshards _ rfl w hw
      exact ⟨hnone, Or.inr (by rw [keyFamily_of_ecShard_scan hpre]; decide)⟩
    · obtain ⟨hnone, hfam⟩ := hdue _ rfl w hw
      refine ⟨hnone, Or.inr ?_⟩
      rcases hfam with h | h <;> rw [h] <;> decide
  refine KV.obeys_commit (fun _ => trivial) ⟨?_, ?_⟩ (fun _ _ => trivial)
  · intro w hw x hx
    rw [(hcases w hw).1] at hx
    cases hx
  · intro w hw hk
    rcases (hcases w hw).2 with rfl | hfam
    · exact tiKVObjectKey_inj.mp hk
    · exact absurd (by rw [hk, keyFamily_object]) hfam

theorem accepted_upsertNormalizedMetadata {cfg : Config} {clock now : Time} {o' : GoString}
    {md : Metadata} : Accepted o (.upsert o' (resolveVersion md clock))
      (upsertNormalizedMetadata cfg clock now o' md) := by
  intro t
  unfold upsertNormalizedMetadata
  split
  · exact accepted_fail _ _
  · refine Obeys.bind (R := fun _ _ => True) ⟨⟨cfg, md, now, rfl⟩, ?_⟩ (fun _ _ _ => trivial)
      (fun _ _ _ => trivial)
    rintro res t' -
    cases res <;> trivial

end Foreground

/-! ## The ledger -/

/-- The store, the version of `o` acknowledged last and not removed since, the number of
commits and removals of `o`, and that number at each process's last read of the head. -/
structure Ledger where
  store : Store
  acked : Option Int
  epoch : Nat
  readEpoch : Nat → Option Nat

namespace Ledger

def start (s : Store) : Ledger := ⟨s, none, 0, fun _ => none⟩

/-- What a step of process `i` adds to the ledger. -/
def note (o : GoString) (i : Nat) (role : Role) (l : Ledger) : (op : KVOp) → KVRes op → Ledger
  | .get k, _ =>
    if k = tiKVObjectKey o then
      { l with readEpoch := Function.update l.readEpoch i (some l.epoch) }
    else l
  | .iter _ _, _ => l
  | .commit _, _ =>
    match role with
    | .remove o' => if o' = o then { l with acked := none, epoch := l.epoch + 1 } else l
    | _ => l
  | .txn _, res =>
    match role, res with
    | .upsert o' v, .ok _ =>
      if o' = o then { l with acked := some v, epoch := l.epoch + 1 } else l
    | _, _ => l

end Ledger

/-- One key-value step of process `i`, with its note in the ledger. -/
def ledgerHandler (o : GoString) (i : Nat) (role : Role) (op : KVOp) (l : Ledger) :
    KVRes op × Ledger :=
  let (res, store) := kvHandler op l.store
  (res, { l.note o i role op res with store := store })

/-- The programs that run in a role. -/
def Begins : Role → KV Unit → Prop
  | .upsert o' v, p => ∃ cfg clock now md, v = resolveVersion md clock ∧
      p = upsertNormalizedMetadata cfg clock now o' md
  | .remove o', p => p = deleteNormalizedMetadata o'
  | .background, p =>
      (∃ now o' v, p = markObjectMigrating now o' v) ∨
      (∃ now o' v checksum k m locs, p = promoteObjectVersionToEC now o' v checksum k m locs) ∨
      (∃ cfg clock now age maxObjects maxBytes budget, p =
        enqueueTieringCandidates cfg clock now age maxObjects maxBytes budget >>= fun _ => pure ()) ∨
      (∃ cfg o' v tier size now, p = upsertTieringDueIndexDetached cfg o' v tier size now)

def begins (_ : Nat) (role : Role) (p : KV Unit) (l l' : Ledger) : Prop :=
  Begins role p ∧ l' = l

/-- A background process may write the head of `o` only when no commit or removal of `o` took
effect since it read the head. -/
def Fresh (o : GoString) (i : Nat) (role : Role) (op : KVOp) (l : Ledger) : Prop :=
  match role, op with
  | .background, .commit ws => (∃ w ∈ ws, w.key = tiKVObjectKey o) → l.readEpoch i = some l.epoch
  | _, _ => True

/-- The steps of a run in which every head write is fresh. -/
def freshStep (o : GoString) (i : Nat) (role : Role) (op : KVOp) (l : Ledger) (res : KVRes op)
    (l' : Ledger) : Prop :=
  Fresh o i role op l ∧ Answers (ledgerHandler o i role) op l res l'

/-- The version that the head of an object names. -/
def headVersion (o : GoString) (s : Store) : Option Int :=
  ((s.get? (tiKVObjectKey o)).bind Value.asObject).map (·.currentVersion)

/-! ## One step -/

section Step

variable {o : GoString}

theorem headVersion_untouched {s : Store} {ws : List KVWrite}
    (h : ∀ w ∈ ws, w.key ≠ tiKVObjectKey o) :
    headVersion o (s.applyAll ws) = headVersion o s := by
  unfold headVersion
  rw [SortedMap.get?_applyAll_of_untouched h]

/-- When every head that a batch writes has one version, the head has it afterwards. -/
theorem headVersion_written {s : Store} {ws : List KVWrite} {v : Int}
    (h : ∀ w ∈ ws, w.key = tiKVObjectKey o → ∃ r, w.value = some (.object r) ∧ r.currentVersion = v)
    (hmem : ∃ w ∈ ws, w.key = tiKVObjectKey o) : headVersion o (s.applyAll ws) = some v := by
  unfold headVersion
  rw [SortedMap.get?_applyAll]
  cases hlast : SortedMap.lastWrite ws (tiKVObjectKey o) with
  | none =>
    obtain ⟨w, hw, hk⟩ := hmem
    exact absurd hlast (SortedMap.lastWrite_ne_none hw hk)
  | some x =>
    obtain ⟨w, hw, hk, rfl⟩ := SortedMap.mem_of_lastWrite hlast
    obtain ⟨r, hr, rfl⟩ := h w hw hk
    simp [hr, Value.asObject]

/-- A commit of `o'` writes rows at their own keys; it moves the head of `o'` to its version
and touches no other head. -/
theorem upsertTxn_writes (o : GoString) (cfg : Config) (o' : GoString) (v : Int) (md : Metadata)
    (now : Time) {s : Store} (hs : Rows AnyID s) : ∃ ws, (upsertTxn cfg o' v md now).effect s = .ok (none, ws) ∧
      WriteRows AnyID ws ∧ headVersion o' (s.applyAll ws) = some v ∧
      ∀ w ∈ ws, w.key = tiKVObjectKey o → o' = o := by
  obtain ⟨found, hfound, hid⟩ := hs.object_found o'
  obtain ⟨ref, href, hdue⟩ := hs.tierDueRef_found o' v
  have hhead : ∀ w ∈ upsertWrites cfg o' v md now found ref, keyFamily w.key = lit "obj" →
      w = Write.set (tiKVObjectKey o')
        (.object (upsertHead o' v (resolveState md) now found)) :=
    fun w hw hk => upsertWrites_head hdue hw hk
  refine ⟨_, upsertTxn_effect cfg hfound href, upsertWrites_rows trivial hid, ?_, ?_⟩
  · refine headVersion_written ?_ ⟨_, List.mem_append_left _ List.mem_cons_self, rfl⟩
    intro w hw hk
    obtain rfl := hhead w hw (by rw [hk, keyFamily_object])
    exact ⟨_, rfl, rfl⟩
  · intro w hw hk
    obtain rfl := hhead w hw (by rw [hk, keyFamily_object])
    exact tiKVObjectKey_inj.mp hk

/-- What is known of process `i`: when it remembers a head, it read the head at some epoch, and
as long as that epoch lasts, the head has the version it read. -/
def Knows (o : GoString) (i : Nat) (t : Option ObjectRecord) (l : Ledger) : Prop :=
  ∀ r, t = some r → ∃ e, l.readEpoch i = some e ∧ e ≤ l.epoch ∧
    (e = l.epoch → headVersion o l.store = some r.currentVersion)

/-- The rows are at their own keys and the head names the acknowledged version. -/
def Kept (o : GoString) (l : Ledger) : Prop :=
  Rows AnyID l.store ∧ ∀ v, l.acked = some v → headVersion o l.store = some v

/-- A step that begins a new epoch acknowledges the version of the head or nothing; any other
step keeps the version of the head. -/
structure Moves (o : GoString) (i : Nat) (l l' : Ledger) : Prop where
  rows : Rows AnyID l'.store
  others : ∀ j, j ≠ i → l'.readEpoch j = l.readEpoch j
  cases : (l'.epoch = l.epoch ∧ l'.acked = l.acked ∧
      headVersion o l'.store = headVersion o l.store) ∨
    (l'.epoch = l.epoch + 1 ∧ ∀ v, l'.acked = some v → headVersion o l'.store = some v)

theorem Moves.kept {i : Nat} {l l' : Ledger} (hm : Moves o i l l') (hl : Kept o l) :
    Kept o l' := by
  refine ⟨hm.rows, ?_⟩
  intro v hv
  rcases hm.cases with ⟨-, hacked, hhead⟩ | ⟨-, hnew⟩
  · rw [hhead]
    exact hl.2 v (hacked ▸ hv)
  · exact hnew v hv

theorem Moves.knows {i j : Nat} {t : Option ObjectRecord} {l l' : Ledger} (hm : Moves o i l l')
    (hj : l'.readEpoch j = l.readEpoch j) (hk : Knows o j t l) : Knows o j t l' := by
  intro r hr
  obtain ⟨e, he, hle, hhead⟩ := hk r hr
  rcases hm.cases with ⟨hepoch, -, hsame⟩ | ⟨hepoch, -⟩
  · refine ⟨e, hj.trans he, by omega, ?_⟩
    intro heq
    rw [hsame]
    exact hhead (by omega)
  · exact ⟨e, hj.trans he, by omega, fun heq => by omega⟩

theorem moves_unnoted {i : Nat} {l : Ledger} {store : Store} (hrows : Rows AnyID store)
    (hhead : headVersion o store = headVersion o l.store) :
    Moves o i l { l with store := store } :=
  ⟨hrows, fun _ _ => rfl, Or.inl ⟨rfl, rfl, hhead⟩⟩

/-- A fresh background batch keeps the version of the head. -/
theorem headVersion_background {i : Nat} {t : Option ObjectRecord} {l : Ledger} {ws : List KVWrite}
    (hk : Knows o i t l) (hw : HeadWrites o t ws)
    (hfresh : (∃ w ∈ ws, w.key = tiKVObjectKey o) → l.readEpoch i = some l.epoch) :
    headVersion o (l.store.applyAll ws) = headVersion o l.store := by
  by_cases hmem : ∃ w ∈ ws, w.key = tiKVObjectKey o
  · have hread := hfresh hmem
    obtain ⟨w, hwmem, hwk⟩ := hmem
    obtain ⟨r, -, ht, -, -⟩ := hw w hwmem hwk
    obtain ⟨e, he, -, hhead⟩ := hk r ht
    have heq : e = l.epoch := by
      rw [hread] at he
      exact (Option.some.inj he).symm
    rw [hhead heq]
    refine headVersion_written ?_ ⟨w, hwmem, hwk⟩
    intro w' hw' hk'
    obtain ⟨r', r'', ht', hval, hver⟩ := hw w' hw' hk'
    cases ht.symm.trans ht'
    exact ⟨r'', hval, hver⟩
  · exact headVersion_untouched fun w hw' hk' => hmem ⟨w, hw', hk'⟩

/-- What one allowed and fresh step of a process can do. -/
theorem call_moves {i : Nat} {role : Role} {t : Option ObjectRecord} {op : KVOp} {l l' : Ledger}
    {res : KVRes op} (hl : Kept o l) (hk : Knows o i t l)
    (hallow : (headMonitor o role).allow t op) (hstep : freshStep o i role op l res l') :
    Moves o i l l' := by
  obtain ⟨hfresh, hans⟩ := hstep
  unfold Answers ledgerHandler at hans
  simp only [Prod.mk.injEq] at hans
  obtain ⟨-, rfl⟩ := hans
  cases op with
  | get k =>
    simp only [Ledger.note]
    split
    · refine ⟨hl.1, ?_, Or.inl ⟨rfl, rfl, rfl⟩⟩
      intro j hj
      exact Function.update_of_ne hj _ _
    · exact moves_unnoted hl.1 rfl
  | iter lower upper => exact moves_unnoted hl.1 rfl
  | commit ws =>
    have hrows : Rows AnyID (l.store.applyAll ws) := hl.1.applyAll hallow.1
    cases role with
    | upsert o' v => exact hallow.2.elim
    | background => exact moves_unnoted hrows (headVersion_background hk hallow.2 hfresh)
    | remove o' =>
      simp only [Ledger.note]
      split
      · exact ⟨hrows, fun _ _ => rfl, Or.inr ⟨rfl, fun v hv => by cases hv⟩⟩
      · rename_i hne
        exact moves_unnoted hrows (headVersion_untouched fun w hw hkey => hne (hallow.2 w hw hkey))
  | txn body =>
    cases role with
    | background => exact hallow.elim
    | remove o' => exact hallow.elim
    | upsert o' v =>
      obtain ⟨cfg, md, now, rfl⟩ := hallow
      obtain ⟨ws, heff, hrows, hhead, hkeys⟩ := upsertTxn_writes o cfg o' v md now hl.1
      simp only [kvHandler, heff, Ledger.note]
      split
      · rename_i heq
        subst heq
        refine ⟨hl.1.applyAll hrows, fun _ _ => rfl, Or.inr ⟨rfl, ?_⟩⟩
        intro v' hv'
        cases hv'
        exact hhead
      · rename_i hne
        exact moves_unnoted (hl.1.applyAll hrows)
          (headVersion_untouched fun w hw hkey => hne (hkeys w hw hkey))

/-- The answer of a step is one that the monitor expects, and what the process then knows is
true. -/
theorem call_answer {i : Nat} {role : Role} {t : Option ObjectRecord} {op : KVOp} {l l' : Ledger}
    {res : KVRes op} (hl : Kept o l) (hk : Knows o i t l) (hm : Moves o i l l')
    (hstep : freshStep o i role op l res l') :
    ∃ t', (headMonitor o role).next t op res t' ∧ Knows o i t' l' := by
  obtain ⟨-, hans⟩ := hstep
  unfold Answers ledgerHandler at hans
  simp only [Prod.mk.injEq] at hans
  obtain ⟨rfl, hl'⟩ := hans
  have hread : (∀ k, op ≠ .get k) → l'.readEpoch i = l.readEpoch i := by
    intro hget
    subst hl'
    cases op with
    | get k => exact absurd rfl (hget k)
    | iter lower upper => rfl
    | commit ws =>
      cases role with
      | remove o' => simp only [Ledger.note]; split <;> rfl
      | _ => rfl
    | txn body =>
      simp only [Ledger.note]
      split
      · split <;> rfl
      · rfl
  cases op with
  | get k =>
    by_cases hkey : k = tiKVObjectKey o
    · refine ⟨(l.store.get? k).bind Value.asObject, ⟨fun v hv => hl.1 k v hv, by rw [if_pos hkey]; rfl⟩, ?_⟩
      subst hl'
      intro r hr
      refine ⟨l.epoch, ?_, ?_, ?_⟩
      · simp [Ledger.note, hkey]
      · simp [Ledger.note, hkey]
      · intro _
        simp only [headVersion, kvHandler, ← hkey, hr, Option.map_some]
    · refine ⟨t, ⟨fun v hv => hl.1 k v hv, by rw [if_neg hkey]⟩, ?_⟩
      subst hl'
      simp only [Ledger.note, if_neg hkey]
      exact hk
  | iter lower upper =>
    refine ⟨t, ⟨?_, rfl⟩, hm.knows (hread fun k h => by cases h) hk⟩
    intro e he
    have hmem := List.mem_filter.mp he
    refine ⟨hl.1 e.1 e.2 (SortedMap.get?_of_mem_entries hmem.1), ?_⟩
    simpa using hmem.2
  | commit ws => exact ⟨t, rfl, hm.knows (hread fun k h => by cases h) hk⟩
  | txn body => exact ⟨t, rfl, hm.knows (hread fun k h => by cases h) hk⟩

theorem accepted_of_begins {role : Role} {p : KV Unit} (h : Begins role p) : Accepted o role p := by
  cases role with
  | upsert o' v =>
    obtain ⟨cfg, clock, now, md, rfl, rfl⟩ := h
    exact accepted_upsertNormalizedMetadata
  | remove o' =>
    cases h
    exact accepted_deleteNormalizedMetadata
  | background =>
    rcases h with ⟨now, o', v, rfl⟩ | ⟨now, o', v, checksum, k, m, locs, rfl⟩ |
      ⟨cfg, clock, now, age, maxObjects, maxBytes, budget, rfl⟩ | ⟨cfg, o', v, tier, size, now, rfl⟩
    · exact accepted_markObjectMigrating
    · exact accepted_promoteObjectVersionToEC
    · exact Accepted.of_background
        (background_enqueueTieringCandidates.bind fun _ => background_pure _)
    · exact Accepted.of_background (background_upsertTieringDueIndexDetached trivial)

theorem head_discipline (o : GoString) : Pool.Discipline begins (freshStep o) (headMonitor o)
    (fun _ _ _ => True) (Kept o) (fun i _ t l => Knows o i t l) where
  onCall := fun hl hk hallow hstep =>
    ⟨(call_moves hl hk hallow hstep).kept hl,
      call_answer hl hk (call_moves hl hk hallow hstep) hstep⟩
  onOtherCall := fun hl hk hallow hstep hj hk' =>
    (call_moves hl hk hallow hstep).knows ((call_moves hl hk hallow hstep).others _ hj) hk'
  onStart := by
    rintro i role p l l' hl ⟨hb, rfl⟩
    exact ⟨hl, none, accepted_of_begins hb none, fun r hr => by cases hr⟩
  onOtherStart := by
    rintro i role p l l' j role' t hl ⟨-, rfl⟩ - hk
    exact hk

end Step

/-! ## Results -/

/-- In every run in which background operations write the head of `o` only when no commit or
removal of `o` took effect since they read it, the head of `o` names the version that was
acknowledged last, until `o` is removed. -/
theorem acked_version_kept (o : GoString) {s₀ : Store} (hs : Rows AnyID s₀)
    {c : Pool KVOp KVRes GoError Unit Role Ledger}
    (hrun : Pool.Reaches begins (freshStep o) (Pool.idle (Ledger.start s₀)) c) {v : Int}
    (hv : c.state.acked = some v) : headVersion o c.state.store = some v := by
  have hstart : Kept o (Ledger.start s₀) := ⟨hs, fun v hv => by cases hv⟩
  exact ((head_discipline o).reaches (Pool.Discipline.governed_idle hstart) hrun).1.2 v hv

section Runs

/-- Metadata of a replicated write of one byte. -/
def sampleMetadata (version : Int) : Metadata :=
  [(lit "strategy", .str (lit "replication")), (lit "hot_version", .int64 version),
    (lit "original_length", .int64 1), (lit "replica_nodes", .strings [lit "n1"])]

abbrev Run := Pool KVOp KVRes GoError Unit Role Ledger

/-- Version 1 is committed. -/
def committedRun : Run :=
  ((Pool.idle (Ledger.start SortedMap.empty)).spawn 0 (.upsert (lit "a") 1)
    (upsertNormalizedMetadata {} 0 0 (lit "a") (sampleMetadata 1))).advance
      (ledgerHandler (lit "a")) 0

/-- A background process has read the head in order to mark the object as migrating. -/
def readRun : Run :=
  (committedRun.spawn 1 .background (markObjectMigrating 5 (lit "a") 1)).advance
    (ledgerHandler (lit "a")) 1

/-- It writes the head back. -/
def markedRun : Run := readRun.advance (ledgerHandler (lit "a")) 1

/-- Version 2 is committed before it writes the head back. -/
def rolledBackRun : Run :=
  ((readRun.spawn 2 (.upsert (lit "a") 2)
    (upsertNormalizedMetadata {} 0 0 (lit "a") (sampleMetadata 2))).advance
      (ledgerHandler (lit "a")) 2).advance (ledgerHandler (lit "a")) 1

theorem begins_sample_upsert {v : Int} (hv : v = resolveVersion (sampleMetadata v) 0) :
    Begins (.upsert (lit "a") v) (upsertNormalizedMetadata {} 0 0 (lit "a") (sampleMetadata v)) :=
  ⟨{}, 0, 0, sampleMetadata v, hv, rfl⟩

theorem begins_sample_mark : Begins .background (markObjectMigrating 5 (lit "a") 1) :=
  Or.inl ⟨5, lit "a", 1, rfl⟩

/-- After version 2 was acknowledged, the head names version 1 again. -/
theorem acked_version_rolled_back :
    Pool.Reaches begins (fun i role => Answers (ledgerHandler (lit "a") i role))
      (Pool.idle (Ledger.start SortedMap.empty)) rolledBackRun ∧
    rolledBackRun.state.acked = some 2 ∧
    headVersion (lit "a") rolledBackRun.state.store = some 1 := by
  refine ⟨?_, by decide +kernel, by decide +kernel⟩
  have hcommitted : Pool.Reaches begins (fun i role => Answers (ledgerHandler (lit "a") i role))
      (Pool.idle (Ledger.start SortedMap.empty)) committedRun :=
    Pool.Reaches.advance _ (Pool.Reaches.spawn .refl rfl
      ⟨begins_sample_upsert (by decide +kernel), rfl⟩) 0 fun _ _ _ _ => rfl
  have hread : Pool.Reaches begins (fun i role => Answers (ledgerHandler (lit "a") i role))
      (Pool.idle (Ledger.start SortedMap.empty)) readRun :=
    Pool.Reaches.advance _ (hcommitted.spawn rfl ⟨begins_sample_mark, rfl⟩) 1 fun _ _ _ _ => rfl
  have hoverwritten := Pool.Reaches.advance (ledgerHandler (lit "a")) (hread.spawn (i := 2) rfl
    ⟨begins_sample_upsert (v := 2) (by decide +kernel), rfl⟩) 2 fun _ _ _ _ => rfl
  exact Pool.Reaches.advance _ hoverwritten 1 fun _ _ _ _ => rfl

/-- The guarded run with a background write reaches a head with the acknowledged version. -/
theorem acked_version_kept_marked : markedRun.state.acked = some 1 ∧
    headVersion (lit "a") markedRun.state.store = some 1 := by
  have hacked : markedRun.state.acked = some 1 := by decide +kernel
  refine ⟨hacked, acked_version_kept (lit "a") rows_empty ?_ hacked⟩
  have hcommitted : Pool.Reaches begins (freshStep (lit "a"))
      (Pool.idle (Ledger.start SortedMap.empty)) committedRun := by
    refine Pool.Reaches.advance _ (Pool.Reaches.spawn .refl rfl
      ⟨begins_sample_upsert (by decide +kernel), rfl⟩) 0 ?_
    intro role op k hi
    cases hi
    exact ⟨trivial, rfl⟩
  have hread : Pool.Reaches begins (freshStep (lit "a"))
      (Pool.idle (Ledger.start SortedMap.empty)) readRun := by
    refine Pool.Reaches.advance _ (hcommitted.spawn rfl ⟨begins_sample_mark, rfl⟩) 1 ?_
    intro role op k hi
    cases hi
    exact ⟨trivial, rfl⟩
  refine Pool.Reaches.advance _ hread 1 ?_
  intro role op k hi
  cases hi
  exact ⟨fun _ => rfl, rfl⟩

end Runs

end TieredStore.Meta.HeadVersion
