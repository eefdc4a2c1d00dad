import TieredStore.Meta.Changes

/-!
# Coherence of the placement records

In every state that the repository calls reach from the empty store, under what their callers
promise, the current version of an object has a version record, the head is in EC_ACTIVE
exactly when that version is in tier EC, a HOT version has an ACTIVE replica, and an EC version
has at least `K` ACTIVE shards (`reachable_coherent`).

The argument is about catalogs: `Coherent` is kept by every change under its promise. A call is
a sequence of changes, so it keeps `Coherent` too.
-/

namespace TieredStore.Meta.Coherence

open Lib Lib.Prog

/-! ## The invariant -/

/-- At least `K` shards of a version are ACTIVE. -/
def EnoughShards (K : Nat) (c : Catalog) (o : GoString) (v : Int) : Prop :=
  ∃ is : Finset Int, K ≤ is.card ∧ ∀ i ∈ is, ∃ r, c.shard o v i = some r ∧ r.status = .active

structure Coherent (K : Nat) (c : Catalog) : Prop where
  current : ∀ {o obj}, c.head o = some obj → ∃ ver,
    c.version o obj.currentVersion = some ver ∧ (obj.state = .ecActive ↔ ver.tier = .ec)
  hot : ∀ {o v ver}, c.version o v = some ver → ver.tier = .hot →
    ∃ n r, c.replica o v n = some r ∧ r.status = .active
  ec : ∀ {o v ver}, c.version o v = some ver → ver.tier = .ec → EnoughShards K c o v

theorem coherent_empty (K : Nat) : Coherent K (catalog SortedMap.empty) where
  current := fun h => by cases h
  hot := fun h => by cases h
  ec := fun h => by cases h

variable {K : Nat} {c c' : Catalog} {P : GoString → Prop}

theorem EnoughShards.congr {o : GoString} {v : Int} (h : EnoughShards K c o v)
    (heq : ∀ i, c'.shard o v i = c.shard o v i) : EnoughShards K c' o v := by
  obtain ⟨is, hcard, hact⟩ := h
  refine ⟨is, hcard, ?_⟩
  intro i hi
  rw [heq]
  exact hact i hi

/-! ## Changes of the head -/

/-- A head may be replaced by one with the same version on the same side of the promotion. -/
theorem Coherent.setHead (h : Coherent K c) {o : GoString} {obj obj' : ObjectRecord}
    (hobj : c.head o = some obj) (hid : obj'.objectID = o)
    (hcur : obj'.currentVersion = obj.currentVersion)
    (hstate : obj'.state = .ecActive ↔ obj.state = .ecActive) : Coherent K (c.setHead obj') where
  current := by
    intro o' r hr
    simp only [Catalog.setHead, hid] at hr
    split at hr
    · rename_i ho
      subst ho
      cases hr
      obtain ⟨ver, hver, htier⟩ := h.current hobj
      exact ⟨ver, hcur ▸ hver, hstate.trans htier⟩
    · exact h.current hr
  hot := fun hver => h.hot hver
  ec := fun hver => h.ec hver

theorem Coherent.mark (hn : c.Named P) (h : Coherent K c) {now : Time} {o : GoString} {v : Int}
    (hm : Makes (.mark now o v) c c') : Coherent K c' := by
  cases hm with
  | mark _ hobj hcur hstate =>
    exact h.setHead hobj (hn.head hobj).1 rfl (by simp [hstate])

theorem Coherent.pend (hn : c.Named P) (h : Coherent K c) {now : Time} {o : GoString}
    (hm : Makes (.pend now o) c c') : Coherent K c' := by
  cases hm with
  | pend _ hobj hstate => exact h.setHead hobj (hn.head hobj).1 rfl (by simp [hstate])

/-! ## Commit and promotion -/

/-- A commit of HOT metadata with a node writes an ACTIVE replica next to its version. -/
theorem Coherent.upsert (hn : c.Named P) (h : Coherent K c) {o : GoString} {v : Int}
    {md : Metadata} {now : Time} (htier : resolveTier md = .hot)
    (hstate : resolveState md = .hotActive) {n : GoString} (hnode : n ∈ upsertNodes md)
    (hm : Makes (.upsert o v md now) c c') : Coherent K c' := by
  cases hm
  rw [putAll_upsertRows fun r hr => (hn.head hr).1]
  have hnew : (upsertVersion o v md now).tier = .hot := htier
  constructor
  · intro o' obj hobj
    dsimp only at hobj ⊢
    split at hobj
    · cases hobj
      refine ⟨upsertVersion o v md now, ?_, ?_⟩
      · simp_all [upsertHead]
      · simp [upsertHead, hstate, hnew]
    · rename_i ho
      obtain ⟨ver, hver, hiff⟩ := h.current hobj
      exact ⟨ver, by rwa [if_neg fun hov => ho hov.1], hiff⟩
  · intro o' v' ver hver hhot
    dsimp only at hver ⊢
    split at hver
    · rename_i hov
      obtain ⟨rfl, rfl⟩ := hov
      exact ⟨n, _, if_pos ⟨rfl, rfl, hnode⟩, rfl⟩
    · rename_i hov
      obtain ⟨n', r, hr, hact⟩ := h.hot hver hhot
      exact ⟨n', r, by rwa [if_neg fun hov' => hov ⟨hov'.1, hov'.2.1⟩], hact⟩
  · intro o' v' ver hver hec
    dsimp only at hver
    split at hver
    · cases hver
      rw [hnew] at hec
      cases hec
    · exact h.ec hver hec

theorem shardRow_active {o : GoString} {v : Int} {loc : ECShardLocation}
    (h : loc.status = .active) : (shardRow o v loc).status = .active := by
  simp [shardRow, h]

/-- A promotion needs enough shards afterwards, be they new or already there. -/
theorem Coherent.promote (hn : c.Named P) (h : Coherent K c) {now : Time} {o : GoString} {v : Int}
    {checksum : GoString} {k m : Int} {locs : List ECShardLocation}
    (hm : Makes (.promote now o v checksum k m locs) c c')
    (henough : EnoughShards K c' o v) : Coherent K c' := by
  cases hm with
  | promote _ _ _ _ _ hobj hcur hver =>
    obtain ⟨hid', hv', -⟩ := hn.version hver
    rw [putAll_promoteBatch (hn.head hobj).1 hid' hv'] at henough ⊢
    constructor
    · intro o' obj' hobj'
      dsimp only at hobj' ⊢
      split at hobj'
      · rename_i ho
        cases hobj'
        exact ⟨_, if_pos ⟨ho, hcur⟩, by simp [promotedVersion]⟩
      · rename_i ho
        obtain ⟨ver', hver', hiff⟩ := h.current hobj'
        exact ⟨ver', by rwa [if_neg fun hov => ho hov.1], hiff⟩
    · intro o' v' ver' hver' hhot
      dsimp only at hver' ⊢
      split at hver'
      · cases hver'
        simp [promotedVersion] at hhot
      · exact h.hot hver' hhot
    · intro o' v' ver' hver' hec
      dsimp only at hver'
      split at hver'
      · rename_i hov
        obtain ⟨rfl, rfl⟩ := hov
        exact henough
      · rename_i hov
        exact (h.ec hver' hec).congr fun i => if_neg hov

/-- The shard row of a version after a promotion. -/
theorem promote_shard (hn : c.Named P) {now : Time} {o : GoString} {v : Int} {checksum : GoString}
    {k m : Int} {locs : List ECShardLocation} (hm : Makes (.promote now o v checksum k m locs) c c')
    (i : Int) : c'.shard o v i = ((lastAt locs i).map (shardRow o v)).or (c.shard o v i) := by
  cases hm with
  | promote _ _ _ _ _ hobj _ hver =>
    obtain ⟨hid', hv', -⟩ := hn.version hver
    rw [putAll_promoteBatch (hn.head hobj).1 hid' hv']
    exact if_pos ⟨rfl, rfl⟩

/-- The migration processor records at least `K` locations with distinct indices. -/
theorem enoughShards_of_locations (hn : c.Named P) {now : Time} {o : GoString} {v : Int}
    {checksum : GoString} {k m : Int} {locs : List ECShardLocation}
    (hm : Makes (.promote now o v checksum k m locs) c c')
    (hactive : ∀ loc ∈ locs, loc.status = .active)
    (hdistinct : (locs.map (·.shardIndex)).Nodup) (hlen : K ≤ locs.length) :
    EnoughShards K c' o v := by
  refine ⟨(locs.map (·.shardIndex)).toFinset, ?_, ?_⟩
  · rw [List.toFinset_card_of_nodup hdistinct, List.length_map]
    exact hlen
  · intro i hi
    obtain ⟨loc, hloc, rfl⟩ := List.mem_map.mp (List.mem_toFinset.mp hi)
    obtain ⟨loc', hloc'⟩ := lastAt_isSome hloc
    refine ⟨shardRow o v loc', ?_, shardRow_active (hactive loc' (lastAt_mem hloc').1)⟩
    rw [promote_shard hn hm, hloc']
    rfl

/-- The repair processor adds locations to a version that has enough of them. -/
theorem enoughShards_of_repair (hn : c.Named P) {now : Time} {o : GoString} {v : Int}
    {checksum : GoString} {k m : Int} {locs : List ECShardLocation}
    (hm : Makes (.promote now o v checksum k m locs) c c')
    (hactive : ∀ loc ∈ locs, loc.status = .active) (h : EnoughShards K c o v) :
    EnoughShards K c' o v := by
  obtain ⟨is, hcard, hact⟩ := h
  refine ⟨is, hcard, ?_⟩
  intro i hi
  rw [promote_shard hn hm]
  cases hl : lastAt locs i with
  | none =>
    rw [Option.map_none, Option.none_or]
    exact hact i hi
  | some loc => exact ⟨_, rfl, shardRow_active (hactive loc (lastAt_mem hl).1)⟩

/-! ## Replica rows and removal -/

theorem Coherent.place (h : Coherent K c) {o : GoString} {v : Int} {n path : GoString}
    (hm : Makes (.place o v n path) c c') : Coherent K c' := by
  cases hm
  refine ⟨fun hobj => h.current hobj, ?_, fun hver => h.ec hver⟩
  intro o' v' ver hver hhot
  obtain ⟨n', r, hr, hact⟩ := h.hot hver hhot
  by_cases hf : o' = o ∧ v' = v ∧ n' = n
  · exact ⟨n', _, if_pos hf, rfl⟩
  · exact ⟨n', r, (if_neg hf).trans hr, hact⟩

/-- Replica rows may be retired when the version is not HOT. -/
theorem Coherent.retire (hn : c.Named P) (h : Coherent K c) {o : GoString} {v : Int} {n : GoString}
    (hm : Makes (.retire o v n) c c') (hec : ∀ ver, c.version o v = some ver → ver.tier = .ec) :
    Coherent K c' := by
  cases hm with
  | retire hrow =>
    obtain ⟨hid, hv, hnode, -⟩ := hn.replica hrow
    refine ⟨fun hobj => h.current hobj, ?_, fun hver => h.ec hver⟩
    intro o' v' ver hver hhot
    have hver : c.version o' v' = some ver := hver
    obtain ⟨n', r', hr', hact⟩ := h.hot hver hhot
    refine ⟨n', r', (if_neg ?_).trans hr', hact⟩
    rintro ⟨rfl, rfl, -⟩
    rw [hid, hv] at hver
    rw [hec ver hver] at hhot
    cases hhot

theorem Coherent.purge (h : Coherent K c) {o : GoString} {v : Int}
    (hm : Makes (.purge o v) c c') : Coherent K c' := by
  cases hm with
  | purge hobj hcur =>
    refine ⟨?_, ?_, ?_⟩
    · intro o' obj' hobj'
      have hobj' : c.head o' = some obj' := hobj'
      obtain ⟨ver, hver, hiff⟩ := h.current hobj'
      refine ⟨ver, (if_neg ?_).trans hver, hiff⟩
      rintro ⟨rfl, hv⟩
      cases hobj.symm.trans hobj'
      exact hcur hv
    · intro o' v' ver hver hhot
      simp only [Catalog.dropVersion] at hver ⊢
      split at hver
      · cases hver
      · rename_i hov
        simp only [if_neg hov]
        exact h.hot hver hhot
    · intro o' v' ver hver hec
      simp only [Catalog.dropVersion] at hver
      split at hver
      · cases hver
      · rename_i hov
        exact (h.ec hver hec).congr fun i => if_neg hov

theorem Coherent.remove (h : Coherent K c) {o : GoString} (hm : Makes (.remove o) c c') :
    Coherent K c' := by
  cases hm
  refine ⟨?_, ?_, ?_⟩
  · intro o' obj hobj
    simp only [Catalog.dropObject] at hobj ⊢
    split at hobj
    · cases hobj
    · rename_i ho
      simp only [if_neg ho]
      exact h.current hobj
  · intro o' v' ver hver hhot
    simp only [Catalog.dropObject] at hver ⊢
    split at hver
    · cases hver
    · rename_i ho
      simp only [if_neg ho]
      exact h.hot hver hhot
  · intro o' v' ver hver hec
    simp only [Catalog.dropObject] at hver
    split at hver
    · cases hver
    · rename_i ho
      exact (h.ec hver hec).congr fun i => if_neg ho

/-- The invariant next to a version that is not HOT. -/
def KeepsEC (K : Nat) (o : GoString) (v : Int) (c : Catalog) : Prop :=
  Coherent K c ∧ ∀ ver, c.version o v = some ver → ver.tier = .ec

theorem KeepsEC.promote (hn : c.Named P) {now : Time} {o : GoString} {v : Int}
    (h : KeepsEC K o v c) {checksum : GoString} {k m : Int} {locs : List ECShardLocation}
    (hm : Makes (.promote now o v checksum k m locs) c c')
    (hactive : ∀ loc ∈ locs, loc.status = .active) : KeepsEC K o v c' := by
  have henough : EnoughShards K c' o v := by
    cases hm with
    | promote _ _ _ _ hlocs hobj hcur hver =>
      exact enoughShards_of_repair hn (.promote _ _ _ _ hlocs hobj hcur hver) hactive
        (h.1.ec hver (h.2 _ hver))
  refine ⟨h.1.promote hn hm henough, ?_⟩
  cases hm with
  | promote _ _ _ _ _ hobj _ hver =>
    obtain ⟨hid', hv', -⟩ := hn.version hver
    rw [putAll_promoteBatch (hn.head hobj).1 hid' hv']
    intro ver' hver'
    simp only [and_self, if_true, Option.some.injEq] at hver'
    subst hver'
    rfl

theorem KeepsEC.retire (hn : c.Named P) {o : GoString} {v : Int} {n : GoString}
    (h : KeepsEC K o v c) (hm : Makes (.retire o v n) c c') : KeepsEC K o v c' := by
  refine ⟨h.1.retire hn hm h.2, ?_⟩
  cases hm
  exact h.2

/-! ## The calls and what their callers promise -/

/-- A call that may run in the store `s`. -/
inductive Call (cfg : Config) (s : Store) : KV Unit → Prop where
  /-- The commit of a successful `writeReplication`: at least one node was written. -/
  | upsert (clock now : Time) {o : GoString} (ho : slash ∉ o) (version : Int) (path : GoString)
      (length : Nat) {nodes : List GoString} (hnodes : ∃ n ∈ nodes, n ≠ []) {extraMeta : Metadata}
      (hextra : ExtraFields extraMeta) (isDirty : Bool) :
      Call cfg s (upsertNormalizedMetadata cfg clock now o
        (replicationMetadata version path length nodes extraMeta isDirty))
  /-- The due-index update that an asynchronous commit leaves behind. -/
  | dueIndex {o : GoString} (ho : slash ∉ o) (v : Int) (tier : Tier) (sizeBytes : Int)
      (now : Time) : Call cfg s (upsertTieringDueIndexDetached cfg o v tier sizeBytes now)
  | strategyA (clock now : Time) (age maxObjects : Int) :
      Call cfg s (enqueueTieringCandidatesStrategyA cfg clock now age maxObjects >>= fun _ => pure ())
  | strategyB (clock now : Time) (age maxObjects maxBytes : Int) :
      Call cfg s (enqueueTieringCandidatesStrategyB cfg clock now age maxObjects maxBytes >>=
        fun _ => pure ())
  | strategyC (clock now : Time) (age maxObjects maxBytes : Int) :
      Call cfg s (enqueueTieringCandidatesStrategyC cfg clock now age maxObjects maxBytes >>=
        fun _ => pure ())
  | mark (now : Time) (o : GoString) (v : Int) : Call cfg s (markObjectMigrating now o v)
  /-- The promotion of the migration processor. -/
  | promote (now : Time) (o : GoString) (v : Int) (checksum : GoString)
      {locs : List ECShardLocation} (hactive : ∀ loc ∈ locs, loc.status = .active)
      (hdistinct : (locs.map (·.shardIndex)).Nodup) (hlen : cfg.k ≤ locs.length) :
      Call cfg s (promoteObjectVersionToEC now o v checksum cfg.k cfg.m locs)
  /-- The promotion of the repair processor, of a version that is in tier EC already. -/
  | repair (now : Time) {o : GoString} {v : Int}
      (hec : ∀ ver, s.get? (tiKVObjectVersionKey o v) = some (.objectVersion ver) → ver.tier = .ec)
      (k m : Int) {locs : List ECShardLocation} (hactive : ∀ loc ∈ locs, loc.status = .active) :
      Call cfg s (promoteObjectVersionToEC now o v [] k m locs)
  | place {o : GoString} (ho : slash ∉ o) (v : Int) (nodeIDs : List GoString) :
      Call cfg s (upsertReplicaLocations o v nodeIDs)
  /-- The replica GC retires the replicas of a version in tier EC. -/
  | retire {o : GoString} (ho : slash ∉ o) {v : Int}
      (hec : ∀ ver, s.get? (tiKVObjectVersionKey o v) = some (.objectVersion ver) → ver.tier = .ec)
      (nodeIDs : List GoString) : Call cfg s (markReplicaLocationsDeleted o v nodeIDs)
  | purge (o : GoString) (v : Int) : Call cfg s (purgeObjectVersionMetadata o v)
  | delete {o : GoString} (ho : slash ∉ o) : Call cfg s (deleteNormalizedMetadata o)

/-- The stores reached from the empty one by calls that run one after the other. -/
inductive Reachable (cfg : Config) : Store → Prop where
  | empty : Reachable cfg SortedMap.empty
  | call {s : Store} {p : KV Unit} (h : Reachable cfg s) (hp : Call cfg s p) :
      Reachable cfg (atomically p s).2

/-! ## Every call keeps the invariant -/

abbrev SlashFree : GoString → Prop := fun o => slash ∉ o

/-- A call that runs alone keeps what its changes keep. -/
theorem kept_by_changes {p : KV Unit} {C : Set Change} {Q : Except GoError Unit → Store → Prop}
    {J : Catalog → Prop} {s : Store} (hp : p.Obeys (alone SlashFree C) Q s)
    (hs : Rows SlashFree s) (hc : J (catalog s))
    (hJ : ∀ ch ∈ C, ∀ c c', c.Named SlashFree → J c → Makes ch c c' → J c') :
    Rows SlashFree (atomically p s).2 ∧ J (catalog (atomically p s).2) := by
  refine (hp.step_run (J := fun s => J (catalog s)) ?_ hs hc).2
  rintro s₁ s₂ hs₁ - (heq | ⟨ch, hch, hmakes⟩) hJ₁
  · rwa [heq]
  · exact hJ ch hch _ _ hs₁.named hJ₁ hmakes

variable {cfg : Config} {s : Store}

theorem kept_by_background {p : KV Unit} (hp : Background SlashFree p) (hs : Rows SlashFree s)
    (hc : Coherent cfg.k (catalog s)) :
    Rows SlashFree (atomically p s).2 ∧ Coherent cfg.k (catalog (atomically p s).2) := by
  refine kept_by_changes (hp.alone separated_slashFree hs) hs hc ?_
  rintro ch ⟨now, o, rfl⟩ c c' hn h hm
  exact h.pend hn hm

theorem call_keeps {p : KV Unit} (hp : Call cfg s p) (hs : Rows SlashFree s)
    (hc : Coherent cfg.k (catalog s)) :
    Rows SlashFree (atomically p s).2 ∧ Coherent cfg.k (catalog (atomically p s).2) := by
  have hP : Separated SlashFree := separated_slashFree
  cases hp with
  | upsert clock now ho version path length hnodes hextra isDirty =>
    refine kept_by_changes (upsertNormalizedMetadata_alone hP hs cfg clock now ho _) hs hc ?_
    rintro ch rfl c c' hn h hm
    obtain ⟨n, hn', hne⟩ := hnodes
    refine h.upsert hn (resolveTier_replication hextra) (resolveState_replication hextra)
      (n := n) ?_ hm
    rw [upsertNodes, if_pos (resolveTier_replication hextra), replicaNodes_replication hextra]
    exact List.mem_filter.mpr ⟨hn', by simpa using hne⟩
  | dueIndex ho v tier sizeBytes now =>
    exact kept_by_background (background_upsertTieringDueIndexDetached ho) hs hc
  | strategyA clock now age maxObjects =>
    exact kept_by_background
      (background_enqueueTieringCandidates.bind fun _ => background_pure _) hs hc
  | strategyB clock now age maxObjects maxBytes =>
    exact kept_by_background
      (background_enqueueTieringCandidates.bind fun _ => background_pure _) hs hc
  | strategyC clock now age maxObjects maxBytes =>
    exact kept_by_background
      (background_enqueueTieringCandidates.bind fun _ => background_pure _) hs hc
  | mark now o v =>
    refine kept_by_changes (markObjectMigrating_alone hP hs now o v) hs hc ?_
    rintro ch rfl c c' hn h hm
    exact h.mark hn hm
  | promote now o v checksum hactive hdistinct hlen =>
    refine kept_by_changes (promoteObjectVersionToEC_alone hP hs now o v checksum _ _ _) hs hc ?_
    rintro ch rfl c c' hn h hm
    exact h.promote hn hm (enoughShards_of_locations hn hm hactive hdistinct hlen)
  | repair now hec k m hactive =>
    refine (kept_by_changes (J := KeepsEC cfg.k _ _)
      (promoteObjectVersionToEC_alone hP hs now _ _ [] k m _) hs
      ⟨hc, fun ver hver => hec ver (catalog_version.mp hver)⟩ ?_).imp id And.left
    rintro ch rfl c c' hn h hm
    exact h.promote hn hm hactive
  | place ho v nodeIDs =>
    refine kept_by_changes (upsertReplicaLocations_alone hP hs ho v nodeIDs) hs hc ?_
    rintro ch ⟨n, -, rfl⟩ c c' hn h hm
    exact h.place hm
  | retire ho hec nodeIDs =>
    refine (kept_by_changes (J := KeepsEC cfg.k _ _)
      (markReplicaLocationsDeleted_alone hP hs ho _ nodeIDs) hs
      ⟨hc, fun ver hver => hec ver (catalog_version.mp hver)⟩ ?_).imp id And.left
    rintro ch ⟨n, -, rfl⟩ c c' hn h hm
    exact h.retire hn hm
  | purge o v =>
    refine kept_by_changes (purgeObjectVersionMetadata_alone hP hs o v) hs hc ?_
    rintro ch rfl c c' hn h hm
    exact h.purge hm
  | delete ho =>
    refine kept_by_changes (deleteNormalizedMetadata_alone hP hs ho) hs hc ?_
    rintro ch rfl c c' hn h hm
    exact h.remove hm

theorem Reachable.coherent (h : Reachable cfg s) :
    Rows SlashFree s ∧ Coherent cfg.k (catalog s) := by
  induction h with
  | empty => exact ⟨rows_empty, coherent_empty cfg.k⟩
  | call _ hp ih => exact call_keeps hp ih.1 ih.2

/-- In every reachable store the head of an object names a version that has a record and is in
EC_ACTIVE exactly when that record is in tier EC; a record in tier HOT has an ACTIVE replica row
and a record in tier EC at least `K` ACTIVE shard rows. -/
theorem reachable_coherent (h : Reachable cfg s) :
    (∀ o obj, s.get? (tiKVObjectKey o) = some (.object obj) → ∃ ver,
      s.get? (tiKVObjectVersionKey o obj.currentVersion) = some (.objectVersion ver) ∧
      (obj.state = .ecActive ↔ ver.tier = .ec)) ∧
    ∀ o v ver, s.get? (tiKVObjectVersionKey o v) = some (.objectVersion ver) →
      (ver.tier = .hot → ∃ n r, s.get? (tiKVReplicaKey o v n) = some (.replica r) ∧
        r.objectID = o ∧ r.version = v ∧ r.nodeID = n ∧ r.status = .active) ∧
      (ver.tier = .ec → ∃ is : Finset Int, cfg.k ≤ is.card ∧ ∀ i ∈ is, ∃ r,
        s.get? (tiKVECShardKey o v i) = some (.ecShard r) ∧ r.status = .active) := by
  obtain ⟨-, hc⟩ := h.coherent
  constructor
  · intro o obj hobj
    obtain ⟨ver, hver, hiff⟩ := hc.current (catalog_head.mpr hobj)
    exact ⟨ver, catalog_version.mp hver, hiff⟩
  · intro o v ver hver
    have hver := catalog_version.mpr hver
    constructor
    · intro hhot
      obtain ⟨n, r, hr, hact⟩ := hc.hot hver hhot
      obtain ⟨hget, hid, hv, hn⟩ := catalog_replica.mp hr
      exact ⟨n, r, hget, hid, hv, hn, hact⟩
    · intro hec
      obtain ⟨is, hcard, hall⟩ := hc.ec hver hec
      refine ⟨is, hcard, ?_⟩
      intro i hi
      obtain ⟨r, hr, hact⟩ := hall i hi
      exact ⟨r, catalog_shard.mp hr, hact⟩

/-! ## A run: a commit with two replicas and its promotion -/

def committedMetadata : Metadata :=
  replicationMetadata 7 (lit "hot/a/00000000000000000007") 8 [lit "n1", lit "n2"] [] false

def committedStore : Store :=
  (atomically (upsertNormalizedMetadata {} 0 10 (lit "a") committedMetadata) SortedMap.empty).2

def promotedLocations : List ECShardLocation :=
  [⟨0, lit "n1", lit "a_cold_chunk_0", .active⟩, ⟨1, lit "n2", lit "a_cold_chunk_1", .active⟩,
    ⟨2, lit "n3", lit "a_cold_chunk_2", .active⟩, ⟨4, lit "n5", lit "a_cold_chunk_4", .active⟩]

def promotedStore : Store :=
  (atomically (promoteObjectVersionToEC 20 (lit "a") 7 [] 4 2 promotedLocations) committedStore).2

theorem reachable_committedStore : Reachable {} committedStore :=
  .call .empty (.upsert 0 10 (by decide) 7 _ 8 ⟨lit "n1", by decide, by decide⟩
    (fun e he => by simp at he) false)

theorem reachable_promotedStore : Reachable {} promotedStore :=
  .call reachable_committedStore (.promote 20 (lit "a") 7 [] (by decide) (by decide) (by decide))

theorem promotedStore_version : promotedStore.get? (tiKVObjectVersionKey (lit "a") 7) =
    some (.objectVersion ⟨lit "a", 7, 8, [], .ec, none, some 4, some 2, 10⟩) := by
  decide +kernel

theorem reachable_coherent_promoted : ∃ is : Finset Int, 4 ≤ is.card ∧ ∀ i ∈ is, ∃ r,
    promotedStore.get? (tiKVECShardKey (lit "a") 7 i) = some (.ecShard r) ∧ r.status = .active :=
  ((reachable_coherent reachable_promotedStore).2 _ _ _ promotedStore_version).2 rfl

end TieredStore.Meta.Coherence
