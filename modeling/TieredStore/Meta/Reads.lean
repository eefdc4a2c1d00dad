import TieredStore.Meta.Catalog
import TieredStore.Meta.Closed

/-!
# Answers of the reading calls

A read that runs alone leaves the store as it is, and its answer is a function of the rows. The
lemmas here give the answers, one for each reading call.
-/

namespace TieredStore.Meta

open Lib Lib.Prog

section Alone

variable {α β : Type} {s : Store}

@[simp] theorem atomically_pure (a : α) (s : Store) : atomically (pure a : KV α) s = (.ok a, s) := rfl

@[simp] theorem atomically_fail (e : GoError) (s : Store) :
    atomically (.fail e : KV α) s = (.error e, s) := rfl

theorem atomically_commit (ws : List KVWrite) (s : Store) :
    atomically (KV.commit ws) s = (.ok (), s.applyAll ws) := by
  cases ws <;> rfl

/-- An attempt at a call that returns. -/
theorem atomically_attempt {p : KV α} {a : α} {s' : Store} (h : atomically p s = (.ok a, s'))
    (f : Except GoError α → KV β) :
    atomically (p.attempt >>= f) s = atomically (f (.ok a)) s' := by
  refine run_bind_ok ?_ f
  rw [run_attempt, show p.run kvHandler s = (.ok a, s') from h]

theorem atomically_iter {pre : GoString} {f : List (GoString × Value) → KV β} :
    atomically (KV.newPrefixIter pre >>= f) s = atomically (f (prefixEntries s pre)) s := by
  change atomically (f (iterate s pre (tiKVPrefixUpperBound pre))) s = _
  rw [iterate_upperBound]

theorem atomically_getJSON {decode : Value → Option α} {enc : α → Value} {k : GoString}
    {found : Option α} {f : Option α → KV β} (hget : s.get? k = found.map enc)
    (henc : ∀ a, decode (enc a) = some a) :
    atomically (getJSON decode k >>= f) s = atomically (f found) s := by
  rw [getJSON_eq]
  change atomically (decodeRow decode k (s.get? k) >>= f) s = _
  rw [hget]
  cases found with
  | none => rfl
  | some a =>
    simp only [Option.map_some, decodeRow, henc]
    rfl

theorem atomically_txn {body : Txn (Option TaskRecord)} {a : Option TaskRecord} {ws : List KVWrite}
    {f : Option TaskRecord → KV β} (heff : body.effect s = .ok (a, ws)) :
    atomically (KV.runInTxn body >>= f) s = atomically (f a) (s.applyAll ws) := by
  have hstep : kvHandler (.txn body) s = (.ok a, s.applyAll ws) := by simp only [kvHandler, heff]
  unfold KV.runInTxn atomically
  rw [call_bind, run_call, hstep]
  rfl

end Alone

/-! ## Heads and versions -/

section Heads

variable {β : Type} {s : Store} (hs : Typed s)
include hs

theorem atomically_getObjectRecord {o : GoString} {f : Option ObjectRecord → KV β} :
    atomically (getObjectRecord (tiKVObjectKey o) >>= f) s =
      atomically (f ((catalog s).head o)) s :=
  atomically_getJSON (hs.get_object o) fun _ => rfl

theorem atomically_getObjectVersionRecord {o : GoString} {v : Int}
    {f : Option ObjectVersionRecord → KV β} :
    atomically (getObjectVersionRecord (tiKVObjectVersionKey o v) >>= f) s =
      atomically (f ((catalog s).version o v)) s :=
  atomically_getJSON (hs.get_objectVersion o v) fun _ => rfl

/-- The answer of `GetObjectVersionSnapshot`. -/
def Catalog.snapshot (c : Catalog) (o : GoString) (v : Int) : Option ObjectVersionSnapshot :=
  (c.head o).bind fun obj => (c.version o v).map fun ver =>
    ⟨o, obj.currentVersion, v, obj.state, ver.tier⟩

omit hs in
theorem Catalog.snapshot_eq_some {c : Catalog} {o : GoString} {v : Int}
    {snap : ObjectVersionSnapshot} : c.snapshot o v = some snap ↔
      ∃ obj ver, c.head o = some obj ∧ c.version o v = some ver ∧
        snap = ⟨o, obj.currentVersion, v, obj.state, ver.tier⟩ := by
  simp only [Catalog.snapshot, Option.bind_eq_some_iff, Option.map_eq_some_iff]
  constructor
  · rintro ⟨obj, hobj, ver, hver, rfl⟩
    exact ⟨obj, ver, hobj, hver, rfl⟩
  · rintro ⟨obj, ver, hobj, hver, rfl⟩
    exact ⟨obj, hobj, ver, hver, rfl⟩

theorem atomically_getObjectVersionSnapshot (o : GoString) (v : Int) :
    atomically (getObjectVersionSnapshot o v) s = (.ok ((catalog s).snapshot o v), s) := by
  unfold getObjectVersionSnapshot Catalog.snapshot
  rw [atomically_getObjectRecord hs]
  cases (catalog s).head o with
  | none => rfl
  | some obj =>
    dsimp only
    rw [atomically_getObjectVersionRecord hs]
    cases (catalog s).version o v <;> rfl

end Heads

/-! ## Placements -/

/-- The replica rows of a version, in the order of their keys. -/
def replicaRows (s : Store) (o : GoString) (v : Int) : List ReplicaRecord :=
  (prefixEntries s (tiKVReplicaVersionPrefix o v)).filterMap fun e => e.2.asReplica

/-- The shard rows of a version, in the order of their keys. -/
def shardRows (s : Store) (o : GoString) (v : Int) : List ECShardRecord :=
  (prefixEntries s (tiKVECShardVersionPrefix o v)).filterMap fun e => e.2.asECShard

section Placements

variable {β : Type} {P : GoString → Prop} {s : Store}

theorem mem_replicaRows (hP : Separated P) (hs : Rows P s) {o : GoString} (ho : P o) {v : Int}
    {r : ReplicaRecord} :
    r ∈ replicaRows s o v ↔ (catalog s).replica o v r.nodeID = some r := by
  unfold replicaRows
  simp only [List.mem_filterMap, Value.asReplica_eq_some, catalog_replica]
  constructor
  · rintro ⟨⟨k, x⟩, he, rfl⟩
    obtain ⟨hget, hpre⟩ := mem_prefixEntries.mp he
    obtain ⟨rfl, ho'⟩ := hs _ _ hget
    obtain ⟨rfl, rfl⟩ := (version_scan_iff hP ho ho').mp hpre
    exact ⟨hget, rfl, rfl, trivial⟩
  · rintro ⟨hget, rfl, rfl, -⟩
    exact ⟨_, mem_prefixEntries.mpr ⟨hget, List.prefix_append _ _⟩, rfl⟩

theorem mem_shardRows (hP : Separated P) (hs : Rows P s) {o : GoString} (ho : P o) {v : Int}
    {r : ECShardRecord} :
    r ∈ shardRows s o v ↔ (catalog s).shard o v r.shardIndex = some r := by
  unfold shardRows
  simp only [List.mem_filterMap, Value.asECShard_eq_some, catalog_shard]
  constructor
  · rintro ⟨⟨k, x⟩, he, rfl⟩
    obtain ⟨hget, hpre⟩ := mem_prefixEntries.mp he
    obtain ⟨rfl, ho'⟩ := hs _ _ hget
    obtain ⟨rfl, rfl⟩ := (version_scan_iff hP ho ho').mp hpre
    exact hget
  · intro hget
    exact ⟨_, mem_prefixEntries.mpr ⟨hget, List.prefix_append _ _⟩, rfl⟩

/-- A scan of one family decodes. -/
theorem atomically_decodeAll {α : Type} {decode : Value → Option α} {what pre fam : GoString}
    (hs : Typed s) (hfam : ∀ k, pre <+: k → keyFamily k = fam)
    (hdec : ∀ x, fam ∈ valueFamilies x → ∃ r, decode x = some r) {f : List α → KV β} :
    atomically (KV.newPrefixIter pre >>= fun it => decodeAll decode what it >>= f) s =
      atomically (f ((prefixEntries s pre).filterMap fun e => decode e.2)) s := by
  rw [atomically_iter, decodeAll_ok]
  · rfl
  · intro e he
    obtain ⟨hget, hpre⟩ := mem_prefixEntries.mp he
    have hmem := hs _ _ hget
    rw [hfam e.1 hpre] at hmem
    exact hdec e.2 hmem

theorem atomically_listReplicaRecords (hs : Typed s) {o : GoString} {v : Int}
    {status : RowStatus} {f : List ReplicaRecord → KV β} :
    atomically (listReplicaRecords o v status >>= f) s =
      atomically (f ((replicaRows s o v).filter fun r =>
        !(status != .unset && r.status != status))) s := by
  unfold listReplicaRecords
  simp only [bind_assoc, pure_bind]
  refine atomically_decodeAll hs (fun k => keyFamily_of_replica_version_scan) ?_
  intro x hx
  cases x with
  | replica r => exact ⟨r, rfl⟩
  | _ => exact absurd hx (by simp only [valueFamilies]; decide)

theorem atomically_listECShardRecords (hs : Typed s) {o : GoString} {v : Int}
    {f : List ECShardRecord → KV β} :
    atomically (listECShardRecords o v >>= f) s = atomically (f (shardRows s o v)) s := by
  unfold listECShardRecords
  rw [bind_assoc]
  refine atomically_decodeAll hs (fun k => keyFamily_of_ecShard_version_scan) ?_
  intro x hx
  cases x with
  | ecShard r => exact ⟨r, rfl⟩
  | _ => exact absurd hx (by simp only [valueFamilies]; decide)

/-- The active replica rows of a version. -/
def activeReplicas (s : Store) (o : GoString) (v : Int) : List ReplicaRecord :=
  (replicaRows s o v).filter fun r => r.status = .active

/-- The active shard rows of a version. -/
def activeShards (s : Store) (o : GoString) (v : Int) : List ECShardRecord :=
  (shardRows s o v).filter fun r => r.status = .active

theorem filter_active (rows : List ReplicaRecord) :
    (rows.filter fun r => !(RowStatus.active != .unset && r.status != .active)) =
      rows.filter fun r => r.status = .active := by
  refine List.filter_congr fun r _ => ?_
  cases r.status <;> rfl

def replicaLocation (r : ReplicaRecord) : ReplicaLocation := ⟨r.nodeID, r.path, r.status⟩

def shardLocation (r : ECShardRecord) : ECShardLocation := ⟨r.shardIndex, r.nodeID, r.path, r.status⟩

theorem atomically_listActiveReplicaLocations (hs : Typed s) (o : GoString) (v : Int) :
    atomically (listActiveReplicaLocations o v) s =
      (.ok (((activeReplicas s o v).map replicaLocation).insertionSort
        fun a b => ¬ b.nodeID < a.nodeID), s) := by
  unfold listActiveReplicaLocations
  rw [atomically_listReplicaRecords hs, filter_active]
  rfl

theorem atomically_getObjectVersionGCView (hs : Typed s) (o : GoString) (v : Int) :
    atomically (getObjectVersionGCView o v) s =
      (.ok (((catalog s).head o).bind fun obj => ((catalog s).version o v).map fun ver =>
        { objectID := o
          version := v
          currentVersion := obj.currentVersion
          tier := ver.tier
          createdAt := ver.createdAt
          replicaLocations := (activeReplicas s o v).map replicaLocation
          ecShardLocations := (activeShards s o v).map shardLocation }), s) := by
  unfold getObjectVersionGCView
  rw [atomically_getObjectRecord hs]
  cases (catalog s).head o with
  | none => rfl
  | some obj =>
    dsimp only
    rw [atomically_getObjectVersionRecord hs]
    cases (catalog s).version o v with
    | none => rfl
    | some ver =>
      dsimp only
      rw [atomically_listReplicaRecords hs, atomically_listECShardRecords hs, filter_active]
      rfl

theorem atomically_getObjectAdminView (hs : Typed s) (o : GoString) :
    atomically (getObjectAdminView o) s =
      (.ok (((catalog s).head o).map fun obj =>
        { objectID := obj.objectID
          currentVersion := obj.currentVersion
          state := obj.state
          createdAt := obj.createdAt
          updatedAt := obj.updatedAt
          version := ((catalog s).version o obj.currentVersion).map fun v =>
            ⟨v.version, v.sizeBytes, v.checksumSHA256, v.tier, v.contentType, v.encodingK,
              v.encodingM, v.createdAt⟩
          replicaLocations := ((replicaRows s o obj.currentVersion).map
            replicaLocation).insertionSort fun a b => ¬ b.nodeID < a.nodeID
          ecShardLocations := ((shardRows s o obj.currentVersion).map
            shardLocation).insertionSort fun a b => a.shardIndex ≤ b.shardIndex }), s) := by
  unfold getObjectAdminView
  rw [atomically_getObjectRecord hs]
  cases (catalog s).head o with
  | none => rfl
  | some obj =>
    dsimp only
    rw [atomically_getObjectVersionRecord hs, atomically_listReplicaRecords hs,
      atomically_listECShardRecords hs]
    simp only [bne_self_eq_false, Bool.false_and, Bool.not_false, List.filter_true]
    rfl

theorem atomically_getNormalizedMetadata (hs : Typed s) (o : GoString) :
    atomically (getNormalizedMetadata o) s =
      (.ok (((catalog s).head o).bind fun obj => ((catalog s).version o obj.currentVersion).map
        fun ver => normalizedMetadata o obj ver (activeReplicas s o obj.currentVersion)
          (if ver.tier = .ec then shardRows s o obj.currentVersion else [])), s) := by
  unfold getNormalizedMetadata
  rw [atomically_getObjectRecord hs]
  cases (catalog s).head o with
  | none => rfl
  | some obj =>
    dsimp only
    rw [atomically_getObjectVersionRecord hs]
    rw [Option.bind_some]
    cases (catalog s).version o obj.currentVersion with
    | none => rfl
    | some ver =>
      rw [Option.map_some]
      dsimp only
      rw [atomically_listReplicaRecords hs, filter_active]
      by_cases hec : ver.tier = .ec
      · rw [if_pos hec, if_pos hec, atomically_listECShardRecords hs]
        rfl
      · rw [if_neg hec, if_neg hec]
        rfl

end Placements

/-! ## Programs that leave keys alone -/

/-- The monitor of a program that writes no key of `K`. -/
def avoidMonitor (K : GoString → Prop) : Monitor KVOp KVRes Unit where
  allow _
    | .get _ | .iter _ _ => True
    | .commit ws => ∀ w ∈ ws, ¬ K w.key
    | .txn _ => False
  next _ _ _ _ := True

def Avoids {α : Type} (K : GoString → Prop) (p : KV α) : Prop :=
  p.Obeys (avoidMonitor K) (fun _ _ => True) ()

abbrev ReadsOnly {α : Type} (p : KV α) : Prop := Avoids (fun _ => True) p

section Avoids

variable {α : Type} {K : GoString → Prop} {p q : KV α} {s s' : Store}

theorem closed_avoids : Closed fun _ p => Avoids K p where
  pure _ := trivial
  fail _ := trivial
  bind hp hf := hp.bind (fun _ _ _ => trivial) fun a _ _ => hf a
  attempt hp hf := hp.attempt_bind fun x _ _ => hf x
  getJSON decode k := by
    rw [getJSON_eq]
    refine ⟨trivial, fun x _ _ => ?_⟩
    unfold decodeRow
    split
    · trivial
    · split <;> trivial
  iter _ := ⟨trivial, fun _ _ _ => trivial⟩

theorem avoids_commit {ws : List KVWrite} (h : ∀ w ∈ ws, ¬ K w.key) : Avoids K (KV.commit ws) :=
  KV.obeys_commit (fun _ => trivial) h fun _ _ => trivial

/-- Wherever the program stops, the keys of `K` hold what they held. -/
theorem Avoids.kept (hp : Avoids K p) (hpath : Path (Answers kvHandler) p s q s') {k : GoString}
    (hk : K k) : s'.get? k = s.get? k := by
  induction hpath with
  | refl p s => rfl
  | @call op f s s₁ s₂ r q step _ ih =>
    rw [ih (hp.2 r () trivial)]
    have hstep : kvHandler op s = (r, s₁) := step
    cases op with
    | get key => rw [(Prod.mk.inj hstep).2.symm]
    | iter lower upper => rw [(Prod.mk.inj hstep).2.symm]
    | commit ws =>
      obtain rfl := (Prod.mk.inj hstep).2.symm
      refine SortedMap.get?_applyAll_of_untouched ?_
      rintro w hw rfl
      exact hp.1 w hw hk
    | txn body => exact hp.1.elim

/-- A program that only reads leaves the store as it is. -/
theorem ReadsOnly.solo (hp : ReadsOnly p) {I : Store → Prop} {R : Store → Store → Prop} (hs : I s) :
    p.Obeys (solo I R) (fun _ s' => s' = s) s := by
  refine Obeys.simulate (M := fun _ s' => s' = s) ?_ (fun _ _ _ h _ => h) rfl hp
  intro _ s' op hs' hallow
  subst hs'
  have hkept : (kvHandler op s').2 = s' := by
    cases op with
    | get k => rfl
    | iter lower upper => rfl
    | commit ws =>
      cases ws with
      | nil => rfl
      | cons w ws => exact (hallow w List.mem_cons_self trivial).elim
    | txn body => exact hallow.elim
  refine ⟨⟨hkept.symm ▸ hs, Or.inl hkept⟩, fun r s₁ hnext => ⟨(), trivial, ?_⟩⟩
  have hnext : kvHandler op s' = (r, s₁) := hnext
  rw [hnext] at hkept
  exact hkept

end Avoids

end TieredStore.Meta
