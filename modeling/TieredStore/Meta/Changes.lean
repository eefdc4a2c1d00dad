import TieredStore.Meta.Background
import TieredStore.Meta.Catalog

/-!
# What a repository call does to the catalog

The calls that change placement records, seen from the catalog: a commit of an object, the
changes of its head while it migrates, the promotion of a version, the rows of replicas, the
removal of a version and of an object. `Makes` says when a change is made and what it does.

Each call refines its changes: run without interruption, every key-value step of the call
leaves the catalog as it is or makes one of the call's changes (`alone`). This holds of every
prefix of a run, so it also covers a call that breaks off.
-/

namespace TieredStore.Meta

open Lib Lib.Prog

/-! ## Changes -/

inductive Change where
  | upsert (o : GoString) (v : Int) (md : Metadata) (now : Time)
  | mark (now : Time) (o : GoString) (v : Int)
  | pend (now : Time) (o : GoString)
  | promote (now : Time) (o : GoString) (v : Int) (checksum : GoString) (k m : Int)
      (locs : List ECShardLocation)
  | place (o : GoString) (v : Int) (n path : GoString)
  | retire (o : GoString) (v : Int) (n : GoString)
  | purge (o : GoString) (v : Int)
  | remove (o : GoString)

/-- When a change is made to a catalog, and the catalog after it. -/
inductive Makes : Change → Catalog → Catalog → Prop where
  | upsert {c : Catalog} (o : GoString) (v : Int) (md : Metadata) (now : Time) :
      Makes (.upsert o v md now) c (c.putAll (upsertRows o v md now (c.head o)))
  | mark {c : Catalog} {obj : ObjectRecord} (now : Time) {o : GoString} {v : Int}
      (head : c.head o = some obj) (current : obj.currentVersion = v)
      (state : obj.state ≠ .ecActive) :
      Makes (.mark now o v) c (c.setHead { obj with state := .migrating, updatedAt := now })
  | pend {c : Catalog} {obj : ObjectRecord} (now : Time) {o : GoString}
      (head : c.head o = some obj) (state : obj.state = .hotActive) :
      Makes (.pend now o) c (c.setHead { obj with state := .migrationPending, updatedAt := now })
  | promote {c : Catalog} {obj : ObjectRecord} {ver : ObjectVersionRecord} (now : Time)
      {o : GoString} {v : Int} (checksum : GoString) (k m : Int) {locs : List ECShardLocation}
      (some' : locs ≠ []) (head : c.head o = some obj) (current : obj.currentVersion = v)
      (version : c.version o v = some ver) :
      Makes (.promote now o v checksum k m locs) c
        (c.putAll (promoteBatch now o v checksum k m locs obj ver))
  | place {c : Catalog} (o : GoString) (v : Int) {n : GoString} (path : GoString) (node : n ≠ []) :
      Makes (.place o v n path) c (c.setReplica ⟨o, v, n, path, .active⟩)
  | retire {c : Catalog} {o : GoString} {v : Int} {n : GoString} {r : ReplicaRecord}
      (row : c.replica o v n = some r) :
      Makes (.retire o v n) c (c.setReplica { r with status := .deleted })
  | purge {c : Catalog} {obj : ObjectRecord} {o : GoString} {v : Int}
      (head : c.head o = some obj) (current : obj.currentVersion ≠ v) :
      Makes (.purge o v) c (c.dropVersion o v)
  | remove {c : Catalog} (o : GoString) : Makes (.remove o) c (c.dropObject o)

/-! ## The catalog after a commit and after a promotion -/

section After

variable {c : Catalog} {o : GoString} {v : Int} {now : Time}

/-- The nodes whose replica rows a commit writes. -/
def upsertNodes (md : Metadata) : List GoString :=
  if resolveTier md = .hot then
    (toStringSlice (md.get (lit "replica_nodes"))).filter fun n => n ≠ []
  else []

theorem upsertReplicas_eq {md : Metadata} : upsertReplicas o v md = (upsertNodes md).map fun n =>
    Write.set (tiKVReplicaKey o v n) (.replica ⟨o, v, n, upsertHotPath o v md, .active⟩) := by
  unfold upsertReplicas upsertNodes
  split
  · induction toStringSlice (md.get (lit "replica_nodes")) with
    | nil => rfl
    | cons n rest ih =>
      rw [List.flatMap_cons, ih]
      by_cases hn : n = [] <;> simp [hn]
  · rfl

theorem putAll_replicas (c : Catalog) (o : GoString) (v : Int) (path : GoString)
    (nodes : List GoString) :
    c.putAll (nodes.map fun n =>
      Write.set (tiKVReplicaKey o v n) (.replica ⟨o, v, n, path, .active⟩)) =
    { c with replica := fun o' v' n =>
        if o' = o ∧ v' = v ∧ n ∈ nodes then some ⟨o, v, n, path, .active⟩
        else c.replica o' v' n } := by
  induction nodes generalizing c with
  | nil => simp
  | cons n rest ih =>
    rw [List.map_cons, Catalog.putAll_set, ih]
    refine Catalog.ext rfl rfl ?_ rfl
    funext o' v' n'
    simp only [Catalog.put, Catalog.setReplica, List.mem_cons]
    by_cases hrest : o' = o ∧ v' = v ∧ n' ∈ rest
    · rw [if_pos hrest, if_pos ⟨hrest.1, hrest.2.1, Or.inr hrest.2.2⟩]
    · rw [if_neg hrest]
      by_cases hn : o' = o ∧ v' = v ∧ n' = n
      · obtain ⟨rfl, rfl, rfl⟩ := hn
        simp
      · rw [if_neg hn, if_neg]
        rintro ⟨ho, hv, hmem | hmem⟩
        · exact hn ⟨ho, hv, hmem⟩
        · exact hrest ⟨ho, hv, hmem⟩

theorem putAll_upsertRows (hid : ∀ r, c.head o = some r → r.objectID = o) (md : Metadata) :
    c.putAll (upsertRows o v md now (c.head o)) =
    { head := fun o' => if o' = o then some (upsertHead o v (resolveState md) now (c.head o))
        else c.head o'
      version := fun o' v' => if o' = o ∧ v' = v then some (upsertVersion o v md now)
        else c.version o' v'
      replica := fun o' v' n => if o' = o ∧ v' = v ∧ n ∈ upsertNodes md then
          some ⟨o, v, n, upsertHotPath o v md, .active⟩
        else c.replica o' v' n
      shard := c.shard } := by
  unfold upsertRows
  rw [Catalog.putAll_append, upsertReplicas_eq, putAll_replicas, Catalog.putAll_set,
    Catalog.putAll_set, Catalog.putAll_nil]
  simp only [Catalog.put, Catalog.setHead, Catalog.setVersion, upsertHead_objectID hid]
  rfl

/-- The location that a promotion records last for a shard. -/
def lastAt (locs : List ECShardLocation) (i : Int) : Option ECShardLocation :=
  (locs.filter fun loc => loc.shardIndex = i).getLast?

theorem lastAt_mem {locs : List ECShardLocation} {i : Int} {loc : ECShardLocation}
    (h : lastAt locs i = some loc) : loc ∈ locs ∧ loc.shardIndex = i := by
  have := List.mem_of_getLast? h
  simpa using this

theorem lastAt_isSome {locs : List ECShardLocation} {loc : ECShardLocation} (h : loc ∈ locs) :
    ∃ loc', lastAt locs loc.shardIndex = some loc' := by
  unfold lastAt
  cases hl : (locs.filter fun loc' => loc'.shardIndex = loc.shardIndex).getLast? with
  | some loc' => exact ⟨loc', rfl⟩
  | none =>
    have hmem : loc ∈ locs.filter fun loc' => loc'.shardIndex = loc.shardIndex := by simp [h]
    rw [List.getLast?_eq_none_iff.mp hl] at hmem
    simp at hmem

/-- With one location for each index, every location is the last of its index. -/
theorem lastAt_of_nodup {locs : List ECShardLocation} (hnodup : (locs.map (·.shardIndex)).Nodup)
    {loc : ECShardLocation} (h : loc ∈ locs) : lastAt locs loc.shardIndex = some loc := by
  obtain ⟨loc', hloc'⟩ := lastAt_isSome h
  obtain ⟨hmem, hindex⟩ := lastAt_mem hloc'
  rw [hloc', List.inj_on_of_nodup_map hnodup hmem h hindex]

theorem lastAt_cons (loc : ECShardLocation) (locs : List ECShardLocation) (i : Int) :
    lastAt (loc :: locs) i =
      (lastAt locs i).or (if loc.shardIndex = i then some loc else none) := by
  unfold lastAt
  by_cases h : loc.shardIndex = i
  · rw [List.filter_cons_of_pos (by simpa using h), List.getLast?_cons, if_pos h]
    cases (locs.filter fun loc => loc.shardIndex = i).getLast? <;> simp
  · rw [List.filter_cons_of_neg (by simpa using h), if_neg h, Option.or_none]

theorem shardRow_fields (loc : ECShardLocation) : (shardRow o v loc).objectID = o ∧
    (shardRow o v loc).version = v ∧ (shardRow o v loc).shardIndex = loc.shardIndex :=
  ⟨rfl, rfl, rfl⟩

theorem putAll_shards (c : Catalog) (o : GoString) (v : Int) (locs : List ECShardLocation) :
    c.putAll (locs.map fun loc => Write.set (tiKVECShardKey o v loc.shardIndex)
      (.ecShard (shardRow o v loc))) =
    { c with shard := fun o' v' i =>
        if o' = o ∧ v' = v then ((lastAt locs i).map (shardRow o v)).or (c.shard o' v' i)
        else c.shard o' v' i } := by
  induction locs generalizing c with
  | nil => simp [lastAt]
  | cons loc rest ih =>
    rw [List.map_cons, Catalog.putAll_set, ih]
    refine Catalog.ext rfl rfl rfl ?_
    funext o' v' i
    obtain ⟨ho, hv, hi⟩ := shardRow_fields (o := o) (v := v) loc
    simp only [Catalog.put, Catalog.setShard, ho, hv, hi, lastAt_cons]
    by_cases hov : o' = o ∧ v' = v
    · obtain ⟨rfl, rfl⟩ := hov
      by_cases hloc : loc.shardIndex = i
      · subst hloc
        cases lastAt rest loc.shardIndex <;> simp
      · simp [hloc, Ne.symm hloc]
    · rw [if_neg hov, if_neg hov, if_neg fun h => hov ⟨h.1, h.2.1⟩]

theorem putAll_promoteBatch {checksum : GoString} {k m : Int} {locs : List ECShardLocation}
    {obj : ObjectRecord} {ver : ObjectVersionRecord} (hobj : obj.objectID = o)
    (hver : ver.objectID = o) (hv : ver.version = v) :
    c.putAll (promoteBatch now o v checksum k m locs obj ver) =
    { head := fun o' => if o' = o then some { obj with state := .ecActive, updatedAt := now }
        else c.head o'
      version := fun o' v' => if o' = o ∧ v' = v then some (promotedVersion checksum k m ver)
        else c.version o' v'
      replica := c.replica
      shard := fun o' v' i =>
        if o' = o ∧ v' = v then ((lastAt locs i).map (shardRow o v)).or (c.shard o' v' i)
        else c.shard o' v' i } := by
  unfold promoteBatch
  rw [Catalog.putAll_append, putAll_shards, Catalog.putAll_set, Catalog.putAll_set,
    Catalog.putAll_nil]
  simp only [Catalog.put, Catalog.setHead, Catalog.setVersion, promotedVersion, hobj, hver, hv]

end After

/-- The steps of a call that makes changes of the set `C`. -/
def Changes (C : Set Change) (s s' : Store) : Prop :=
  catalog s' = catalog s ∨ ∃ ch ∈ C, Makes ch (catalog s) (catalog s')

/-- The monitor of a call that runs alone on a store of rows. -/
abbrev alone (P : GoString → Prop) (C : Set Change) : Monitor KVOp KVRes Store :=
  stepMonitor kvHandler (Rows P) (Changes C)

/-! ## Steps of a call that runs alone -/

section Rules

variable {β : Type} {P : GoString → Prop} {C : Set Change} {s : Store}
  {Q : Except GoError β → Store → Prop}

theorem alone_commit_last {ws : List KVWrite} {Q : Except GoError Unit → Store → Prop}
    (hs : Rows P s) (hw : WriteRows P ws) (hC : Changes C s (s.applyAll ws))
    (hQ : Q (.ok ()) (s.applyAll ws)) : (KV.commit ws).Obeys (alone P C) Q s :=
  solo_commit_last (hs.applyAll hw) hC hQ

theorem alone_txn {body : Txn (Option TaskRecord)} {a : Option TaskRecord} {ws : List KVWrite}
    {f : Option TaskRecord → KV β} (hs : Rows P s) (heff : body.effect s = .ok (a, ws))
    (hw : WriteRows P ws) (hC : Changes C s (s.applyAll ws))
    (hf : (f a).Obeys (alone P C) Q (s.applyAll ws)) :
    (KV.runInTxn body >>= f).Obeys (alone P C) Q s :=
  solo_txn heff (hs.applyAll hw) hC hf

end Rules

/-- A call that makes one change or fails without any. -/
def Done {α : Type} (ch : Change) (s : Store) (out : Except GoError α) (s' : Store) : Prop :=
  match out with
  | .ok _ => Makes ch (catalog s) (catalog s')
  | .error _ => s' = s

/-! ## Heads -/

section Heads

variable {P : GoString → Prop} {s : Store}

theorem catalog_set (hP : Separated P) (hs : Rows P s) {k : GoString} {x : Value}
    (h : RowAt P k x) : catalog (s.applyAll [Write.set k x]) = (catalog s).put x := by
  rw [SortedMap.applyAll_cons, SortedMap.applyAll_nil]
  exact catalog_apply_set hP hs h

theorem markObjectMigrating_alone (hP : Separated P) (hs : Rows P s) (now : Time) (o : GoString)
    (v : Int) : (markObjectMigrating now o v).Obeys (alone P {.mark now o v})
      (Done (.mark now o v) s) s := by
  have hset : ∀ obj, (catalog s).head o = some obj → obj.currentVersion = v →
      obj.state ≠ .ecActive → (KV.set (tiKVObjectKey o) (.object
        { obj with state := .migrating, updatedAt := now })).Obeys (alone P {.mark now o v})
        (Done (.mark now o v) s) s := by
    intro obj hobj hcur hstate
    obtain ⟨hid, ho⟩ := hs.named.head hobj
    have hrow : RowAt P (tiKVObjectKey o)
        (.object { obj with state := .migrating, updatedAt := now }) :=
      ⟨by rw [← hid], hid.symm ▸ ho⟩
    have hmakes := Makes.mark now hobj hcur hstate
    rw [show (catalog s).setHead _ = _ from (catalog_set hP hs hrow).symm] at hmakes
    exact alone_commit_last hs (writeRows_singleton hrow) (Or.inr ⟨_, rfl, hmakes⟩) hmakes
  unfold markObjectMigrating
  refine solo_getJSON_attempt hs (hs.get_object o) (fun _ => rfl) ?_
  cases hobj : (catalog s).head o with
  | none => rfl
  | some obj =>
    dsimp only
    split
    · rfl
    · rename_i hcur
      split <;> rename_i hstate
      · exact hset obj hobj (not_not.mp hcur) (by rw [hstate]; decide)
      · exact hset obj hobj (not_not.mp hcur) (by rw [hstate]; decide)
      · exact hset obj hobj (not_not.mp hcur) (by rw [hstate]; decide)
      · rfl

theorem promoteObjectVersionToEC_alone (hP : Separated P) (hs : Rows P s) (now : Time)
    (o : GoString) (v : Int) (checksum : GoString) (k m : Int) (locs : List ECShardLocation) :
    (promoteObjectVersionToEC now o v checksum k m locs).Obeys
      (alone P {.promote now o v checksum k m locs})
      (Done (.promote now o v checksum k m locs) s) s := by
  unfold promoteObjectVersionToEC
  split
  · rfl
  · rename_i hlocs
    refine solo_getJSON_attempt hs (hs.get_object o) (fun _ => rfl) ?_
    cases hobj : (catalog s).head o with
    | none => rfl
    | some obj =>
      dsimp only
      split
      · rfl
      · rename_i hcur
        refine solo_getJSON_attempt hs (hs.get_objectVersion o v) (fun _ => rfl) ?_
        cases hver : (catalog s).version o v with
        | none => rfl
        | some ver =>
          obtain ⟨hid, ho⟩ := hs.named.head hobj
          obtain ⟨hid', hv, -⟩ := hs.named.version hver
          have hrows : WriteRows P (promoteBatch now o v checksum k m locs obj ver) :=
            promoteBatch_rows ho hid hid' hv
          have hmakes := Makes.promote now checksum k m hlocs hobj (not_not.mp hcur) hver
          rw [← catalog_applyAll hP hs hrows
            fun w hw hnone => absurd hnone (promoteBatch_sets hw)] at hmakes
          exact alone_commit_last hs hrows (Or.inr ⟨_, rfl, hmakes⟩) hmakes

theorem upsertRows_sets {o : GoString} {v : Int} {md : Metadata} {now : Time}
    {found : Option ObjectRecord} {w : KVWrite} (hw : w ∈ upsertRows o v md now found) :
    w.value ≠ none := by
  rcases upsertRows_cases hw with rfl | rfl | ⟨-, n, -, -, rfl⟩ <;> simp

/-- The catalog after a commit: the due index does not show. -/
theorem catalog_upsertWrites (hP : Separated P) (hs : Rows P s) (cfg : Config) {o : GoString}
    (ho : P o) (v : Int) (md : Metadata) (now : Time) {found : Option ObjectRecord}
    (hid : ∀ r, found = some r → r.objectID = o) {ref : Option TierDueRefRecord}
    (href : ∀ r, ref = some r → keyFamily r.dueKey = lit "tdue") :
    catalog (s.applyAll (upsertWrites cfg o v md now found ref)) =
      (catalog s).putAll (upsertRows o v md now found) := by
  have hrows : WriteRows P (upsertRows o v md now found) := fun w hw =>
    @upsertWrites_rows P cfg o v md now found ref ho hid w (List.mem_append_left _ hw)
  unfold upsertWrites
  rw [SortedMap.applyAll_append, catalog_index, catalog_applyAll hP hs hrows
    fun w hw hnone => absurd hnone (upsertRows_sets hw)]
  intro w hw
  split at hw
  · simp at hw
  · exact (indexWrites_dueUpsert ho href).keys w hw

theorem upsertNormalizedMetadata_alone (hP : Separated P) (hs : Rows P s) (cfg : Config)
    (clock now : Time) {o : GoString} (ho : P o) (md : Metadata) :
    (upsertNormalizedMetadata cfg clock now o md).Obeys
      (alone P {.upsert o (resolveVersion md clock) md now})
      (Done (.upsert o (resolveVersion md clock) md now) s) s := by
  unfold upsertNormalizedMetadata
  split
  · rfl
  · obtain ⟨ref, href, hdue⟩ := hs.tierDueRef_found o (resolveVersion md clock)
    have hid : ∀ r, (catalog s).head o = some r → r.objectID = o := fun r hr => (hs.named.head hr).1
    have hmakes := Makes.upsert (c := catalog s) o (resolveVersion md clock) md now
    rw [← catalog_upsertWrites hP hs cfg ho _ md now hid hdue] at hmakes
    exact alone_txn hs (upsertTxn_effect cfg (hs.get_object o) href) (upsertWrites_rows ho hid)
      (Or.inr ⟨_, rfl, hmakes⟩) hmakes

/-- Run alone, a scan or a task operation moves heads to MIGRATION_PENDING and nothing else. -/
theorem Background.alone {α : Type} {p : KV α} (hP : Separated P) (hp : Background P p)
    (hs : Rows P s) : p.Obeys (alone P {ch | ∃ now o, ch = .pend now o}) (fun _ _ => True) s := by
  refine (hp none).simulate
    (M := fun t s => Rows P s ∧ ∀ r, t = some r → (catalog s).head r.objectID = some r) ?_
    (fun _ _ _ _ _ => trivial) ⟨hs, fun r hr => by cases hr⟩
  rintro t s op ⟨hs, ht⟩ hallow
  cases op with
  | get k =>
    refine ⟨⟨hs, Or.inl rfl⟩, ?_⟩
    intro res s' hnext
    obtain ⟨rfl, rfl⟩ := Prod.mk.inj hnext
    refine ⟨_, ⟨fun x hx => hs k x hx, rfl⟩, hs, ?_⟩
    intro r hr
    split at hr
    · obtain ⟨x, hx, hxr⟩ := Option.bind_eq_some_iff.mp hr
      rw [Value.asObject_eq_some] at hxr
      subst hxr
      have hk : k = tiKVObjectKey r.objectID := (hs k _ hx).1
      exact catalog_head.mpr (hk ▸ hx)
    · exact ht r hr
  | iter lower upper =>
    refine ⟨⟨hs, Or.inl rfl⟩, ?_⟩
    intro res s' hnext
    obtain ⟨rfl, rfl⟩ := Prod.mk.inj hnext
    refine ⟨t, ⟨?_, rfl⟩, hs, ht⟩
    intro e he
    obtain ⟨hmem, hb⟩ := List.mem_filter.mp he
    exact ⟨hs _ _ (SortedMap.get?_of_mem_entries hmem), by simpa using hb⟩
  | commit ws =>
    have hrows : WriteRows P ws ∧ Changes {ch | ∃ now o, ch = .pend now o} s (s.applyAll ws) := by
      rcases hallow with hws | ⟨obj, now, rfl, hstate, ho, rfl⟩
      · exact ⟨hws.rows, Or.inl (catalog_index hws.keys)⟩
      · have hrow : RowAt P (tiKVObjectKey obj.objectID)
            (.object { obj with state := .migrationPending, updatedAt := now }) := ⟨rfl, ho⟩
        have hmakes := Makes.pend now (ht obj rfl) hstate
        rw [show (catalog s).setHead _ = _ from (catalog_set hP hs hrow).symm] at hmakes
        exact ⟨writeRows_singleton hrow, Or.inr ⟨_, ⟨now, _, rfl⟩, hmakes⟩⟩
    refine ⟨⟨hs.applyAll hrows.1, Or.inr hrows.2⟩, ?_⟩
    intro res s' hnext
    obtain ⟨-, rfl⟩ := Prod.mk.inj hnext
    exact ⟨none, rfl, hs.applyAll hrows.1, fun r hr => by cases hr⟩
  | txn body => exact hallow.elim

end Heads

/-! ## Replica rows -/

section Replicas

variable {P : GoString → Prop} {s : Store}

/-- The changes of `UpsertReplicaLocations`: rows for some of the nodes. -/
def placements (o : GoString) (v : Int) (nodeIDs : List GoString) : Set Change :=
  {ch | ∃ n ∈ nodeIDs, ch = .place o v n
    (if buildHotReplicaPath o v = [] then o else buildHotReplicaPath o v)}

/-- The changes of `MarkReplicaLocationsDeleted`. -/
def retirements (o : GoString) (v : Int) (nodeIDs : List GoString) : Set Change :=
  {ch | ∃ n ∈ nodeIDs, ch = .retire o v n}

/-- A loop over nodes whose body makes changes of `C` for each of them. -/
theorem alone_forM {C : Set Change} {f : GoString → KV Unit} {nodeIDs : List GoString}
    (hf : ∀ n ∈ nodeIDs, ∀ s, Rows P s →
      (f n).Obeys (alone P C) (fun out s' => out = .ok () ∧ Rows P s') s) (hs : Rows P s) :
    (nodeIDs.forM f).Obeys (alone P C) (fun out s' => out = .ok () ∧ Rows P s') s := by
  induction nodeIDs generalizing s with
  | nil => exact ⟨rfl, hs⟩
  | cons n rest ih =>
    change (f n >>= fun _ => rest.forM f).Obeys _ _ _
    refine (hf n List.mem_cons_self s hs).bind (fun e s' h => ?_) ?_
    · cases h.1
    · rintro - s' ⟨-, hs'⟩
      exact ih (fun n' hn' => hf n' (List.mem_cons_of_mem _ hn')) hs'

theorem upsertReplicaLocations_alone (hP : Separated P) (hs : Rows P s) {o : GoString} (ho : P o)
    (v : Int) (nodeIDs : List GoString) : (upsertReplicaLocations o v nodeIDs).Obeys
      (alone P (placements o v nodeIDs)) (fun out s' => out = .ok () ∧ Rows P s') s := by
  refine alone_forM ?_ hs
  intro n hn s hs
  split
  · exact ⟨rfl, hs⟩
  · rename_i hne
    have hrow : RowAt P (tiKVReplicaKey o v n) (.replica ⟨o, v, n,
        if buildHotReplicaPath o v = [] then o else buildHotReplicaPath o v, .active⟩) := ⟨rfl, ho⟩
    have hmakes := Makes.place (c := catalog s) o v
      (if buildHotReplicaPath o v = [] then o else buildHotReplicaPath o v) hne
    rw [show (catalog s).setReplica _ = _ from (catalog_set hP hs hrow).symm] at hmakes
    exact alone_commit_last hs (writeRows_singleton hrow) (Or.inr ⟨_, ⟨n, hn, rfl⟩, hmakes⟩)
      ⟨rfl, hs.applyAll (writeRows_singleton hrow)⟩

theorem markReplicaLocationsDeleted_alone (hP : Separated P) (hs : Rows P s) {o : GoString}
    (ho : P o) (v : Int) (nodeIDs : List GoString) : (markReplicaLocationsDeleted o v nodeIDs).Obeys
      (alone P (retirements o v nodeIDs)) (fun out s' => out = .ok () ∧ Rows P s') s := by
  refine alone_forM ?_ hs
  intro n hn s hs
  refine solo_getJSON_attempt hs (hs.get_replica hP ho v n) (fun _ => rfl) ?_
  cases hr : (catalog s).replica o v n with
  | none => exact ⟨rfl, hs⟩
  | some r =>
    obtain ⟨hid, hv, hn', -⟩ := hs.named.replica hr
    have hrow : RowAt P (tiKVReplicaKey o v n) (.replica { r with status := .deleted }) :=
      ⟨by simp [hid, hv, hn'], by simpa [hid] using ho⟩
    have hmakes := Makes.retire hr
    rw [show (catalog s).setReplica _ = _ from (catalog_set hP hs hrow).symm] at hmakes
    exact alone_commit_last hs (writeRows_singleton hrow) (Or.inr ⟨_, ⟨n, hn, rfl⟩, hmakes⟩)
      ⟨rfl, hs.applyAll (writeRows_singleton hrow)⟩

end Replicas

/-! ## Removal -/

section Removal

variable {P : GoString → Prop} {s : Store} {k : GoString}

theorem exists_key_append_left {a b : List KVWrite} (h : ∀ w ∈ b, w.key ≠ k) :
    (∃ w ∈ a ++ b, w.key = k) ↔ ∃ w ∈ a, w.key = k := by
  constructor
  · rintro ⟨w, hw, hk⟩
    rcases List.mem_append.mp hw with hw | hw
    · exact ⟨w, hw, hk⟩
    · exact absurd hk (h w hw)
  · rintro ⟨w, hw, hk⟩
    exact ⟨w, List.mem_append_left _ hw, hk⟩

theorem exists_key_append_right {a b : List KVWrite} (h : ∀ w ∈ a, w.key ≠ k) :
    (∃ w ∈ a ++ b, w.key = k) ↔ ∃ w ∈ b, w.key = k := by
  constructor
  · rintro ⟨w, hw, hk⟩
    rcases List.mem_append.mp hw with hw | hw
    · exact absurd hk (h w hw)
    · exact ⟨w, hw, hk⟩
  · rintro ⟨w, hw, hk⟩
    exact ⟨w, List.mem_append_right _ hw, hk⟩

/-- The keys of a batch are in families of the list. -/
def InFamilies (fs : List GoString) (ws : List KVWrite) : Prop := ∀ w ∈ ws, keyFamily w.key ∈ fs

theorem InFamilies.ne {fs : List GoString} {ws : List KVWrite} {f : GoString}
    (h : InFamilies fs ws) (hk : keyFamily k = f) (hf : f ∉ fs) : ∀ w ∈ ws, w.key ≠ k := by
  rintro w hw rfl
  exact hf (hk ▸ h w hw)

/-- A batch put together from the deletions of each family drops what its parts drop. -/
theorem dropsRows_parts {hd vd rd sd due : List KVWrite} {goneHead : GoString → Prop}
    {gone : GoString → Int → Prop}
    (hdel : ∀ w ∈ hd ++ vd ++ rd ++ sd ++ due, w.value = none) (fh : InFamilies [lit "obj"] hd)
    (fv : InFamilies [lit "objv"] vd) (fr : InFamilies [lit "repl"] rd)
    (fs : InFamilies [lit "ec"] sd) (fd : InFamilies indexFamilies due)
    (hhead : ∀ r, s.get? (tiKVObjectKey r.objectID) = some (.object r) →
      ((∃ w ∈ hd, w.key = tiKVObjectKey r.objectID) ↔ goneHead r.objectID))
    (hversion : ∀ r,
      s.get? (tiKVObjectVersionKey r.objectID r.version) = some (.objectVersion r) →
      ((∃ w ∈ vd, w.key = tiKVObjectVersionKey r.objectID r.version) ↔ gone r.objectID r.version))
    (hreplica : ∀ r, s.get? (tiKVReplicaKey r.objectID r.version r.nodeID) = some (.replica r) →
      ((∃ w ∈ rd, w.key = tiKVReplicaKey r.objectID r.version r.nodeID) ↔
        gone r.objectID r.version))
    (hshard : ∀ r, s.get? (tiKVECShardKey r.objectID r.version r.shardIndex) = some (.ecShard r) →
      ((∃ w ∈ sd, w.key = tiKVECShardKey r.objectID r.version r.shardIndex) ↔
        gone r.objectID r.version)) :
    DropsRows s (hd ++ vd ++ rd ++ sd ++ due) goneHead gone where
  deletes := hdel
  head := by
    intro r hr
    have hk := keyFamily_object r.objectID
    rw [exists_key_append_left (fd.ne hk (by decide)),
      exists_key_append_left (fs.ne hk (by decide)),
      exists_key_append_left (fr.ne hk (by decide)),
      exists_key_append_left (fv.ne hk (by decide))]
    exact hhead r hr
  version := by
    intro r hr
    have hk := keyFamily_objectVersion r.objectID r.version
    rw [exists_key_append_left (fd.ne hk (by decide)),
      exists_key_append_left (fs.ne hk (by decide)),
      exists_key_append_left (fr.ne hk (by decide)),
      exists_key_append_right (fh.ne hk (by decide))]
    exact hversion r hr
  replica := by
    intro r hr
    have hk := keyFamily_replica r.objectID r.version r.nodeID
    rw [exists_key_append_left (fd.ne hk (by decide)),
      exists_key_append_left (fs.ne hk (by decide)), List.append_assoc,
      exists_key_append_right (fh.ne hk (by decide)),
      exists_key_append_right (fv.ne hk (by decide))]
    exact hreplica r hr
  shard := by
    intro r hr
    have hk := keyFamily_ecShard r.objectID r.version r.shardIndex
    rw [exists_key_append_left (fd.ne hk (by decide)), List.append_assoc, List.append_assoc,
      exists_key_append_right (fh.ne hk (by decide)),
      exists_key_append_right (fv.ne hk (by decide)),
      exists_key_append_right (fr.ne hk (by decide))]
    exact hshard r hr

/-- The deletions of a prefix scan. -/
def scanDeletes (s : Store) (pre : GoString) : List KVWrite :=
  (prefixEntries s pre).map fun e => Write.del e.1

theorem exists_scanDeletes {pre : GoString} {x : Value} (hk : s.get? k = some x) :
    (∃ w ∈ scanDeletes s pre, w.key = k) ↔ pre <+: k := by
  unfold scanDeletes
  constructor
  · rintro ⟨w, hw, rfl⟩
    obtain ⟨⟨k', x'⟩, he, rfl⟩ := List.mem_map.mp hw
    exact (mem_prefixEntries.mp he).2
  · intro hpre
    exact ⟨Write.del k, List.mem_map.mpr ⟨(k, x), mem_prefixEntries.mpr ⟨hk, hpre⟩, rfl⟩, rfl⟩

theorem scanDeletes_value {pre : GoString} {w : KVWrite} (hw : w ∈ scanDeletes s pre) :
    w.value = none := by
  obtain ⟨e, -, rfl⟩ := List.mem_map.mp hw
  rfl

theorem scanDeletes_families {pre f : GoString} (hf : ∀ k, pre <+: k → keyFamily k = f) :
    InFamilies [f] (scanDeletes s pre) := by
  intro w hw
  obtain ⟨⟨k', x'⟩, he, rfl⟩ := List.mem_map.mp hw
  exact List.mem_singleton.mpr (hf k' (mem_prefixEntries.mp he).2)

theorem inFamilies_del {f : GoString} (hk : keyFamily k = f) : InFamilies [f] [Write.del k] := by
  intro w hw
  rw [List.mem_singleton] at hw
  subst hw
  exact List.mem_singleton.mpr hk

theorem inFamilies_nil {fs : List GoString} : InFamilies fs [] := fun w hw => by simp at hw

theorem solo_batchDeletePrefix {β : Type} {I : Store → Prop} {R : Store → Store → Prop}
    {Q : Except GoError β → Store → Prop} {pre : GoString} {f : List KVWrite → KV β} (hs : I s)
    (hf : (f (scanDeletes s pre)).Obeys (solo I R) Q s) :
    (batchDeletePrefix pre >>= f).Obeys (solo I R) Q s := by
  unfold batchDeletePrefix
  rw [bind_assoc]
  exact solo_iter hs hf

/-- The batch of a purge, with the due reference that it finds. -/
def purgeWrites (s : Store) (o : GoString) (v : Int) (ref : Option TierDueRefRecord) :
    List KVWrite :=
  [Write.del (tiKVObjectVersionKey o v)] ++ scanDeletes s (tiKVReplicaVersionPrefix o v) ++
    scanDeletes s (tiKVECShardVersionPrefix o v) ++ dueRemoval o v ref

theorem mem_purgeWrites {o : GoString} {v : Int} {ref : Option TierDueRefRecord} {w : KVWrite} :
    w ∈ purgeWrites s o v ref ↔ w = Write.del (tiKVObjectVersionKey o v) ∨
      w ∈ scanDeletes s (tiKVReplicaVersionPrefix o v) ∨
      w ∈ scanDeletes s (tiKVECShardVersionPrefix o v) ∨ w ∈ dueRemoval o v ref := by
  simp only [purgeWrites, List.mem_append, List.mem_singleton, or_assoc]

theorem purgeWrites_value {o : GoString} {v : Int} {ref : Option TierDueRefRecord} {w : KVWrite}
    (hw : w ∈ purgeWrites s o v ref) : w.value = none := by
  rcases mem_purgeWrites.mp hw with rfl | hw | hw | hw
  · rfl
  · exact scanDeletes_value hw
  · exact scanDeletes_value hw
  · exact dueRemoval_value hw

/-- A purge finds no head, refuses the current version, or commits its batch. -/
theorem solo_purgeObjectVersionMetadata {I : Store → Prop} {R : Store → Store → Prop}
    {Q : Except GoError Unit → Store → Prop} {o : GoString} {v : Int}
    {ref : Option TierDueRefRecord} (hI : I s) (hs : Rows P s)
    (href : s.get? (tiKVTierDueRefKey o v) = ref.map Value.tierDueRef)
    (hnone : (catalog s).head o = none → Q (.ok ()) s) (hcur : ∀ e, Q (.error e) s)
    (hpurge : ∀ obj, (catalog s).head o = some obj → obj.currentVersion ≠ v →
      (KV.commit (purgeWrites s o v ref)).Obeys (solo I R) Q s) :
    (purgeObjectVersionMetadata o v).Obeys (solo I R) Q s := by
  unfold purgeObjectVersionMetadata
  refine solo_getJSON hI (hs.get_object o) (fun _ => rfl) ?_
  cases hobj : (catalog s).head o with
  | none => exact hnone hobj
  | some obj =>
    dsimp only
    split
    · exact hcur _
    · rename_i hne
      refine solo_batchDeletePrefix hI (solo_batchDeletePrefix hI ?_)
      unfold removeTieringDueIndexByVersionInBatch
      rw [bind_assoc]
      exact solo_getJSON hI href (fun _ => rfl) (hpurge obj hobj hne)

/-- The batch of a purge drops the rows of the version. -/
theorem dropsRows_purge (hP : Separated P) (hs : Rows P s) {o : GoString} (ho : P o) (v : Int)
    {ref : Option TierDueRefRecord}
    (href : ∀ r, ref = some r → keyFamily r.dueKey = lit "tdue") :
    DropsRows s ([] ++ [Write.del (tiKVObjectVersionKey o v)] ++
      scanDeletes s (tiKVReplicaVersionPrefix o v) ++ scanDeletes s (tiKVECShardVersionPrefix o v) ++
      dueRemoval o v ref) (fun _ => False) (fun o' v' => o' = o ∧ v' = v) := by
  refine dropsRows_parts (fun w hw => purgeWrites_value hw) inFamilies_nil
    (inFamilies_del (keyFamily_objectVersion o v))
    (scanDeletes_families fun k => keyFamily_of_replica_version_scan)
    (scanDeletes_families fun k => keyFamily_of_ecShard_version_scan)
    (indexWrites_dueRemoval (P := P) href).keys ?_ ?_ ?_ ?_
  · intro r _
    simp
  · intro r _
    simp only [List.mem_singleton, exists_eq_left, Write.key_del, tiKVObjectVersionKey_inj,
      eq_comm]
  · intro r hr
    rw [exists_scanDeletes hr]
    exact (version_scan_iff hP ho (hs _ _ hr).2).trans (and_congr eq_comm eq_comm)
  · intro r hr
    rw [exists_scanDeletes hr]
    exact (version_scan_iff hP ho (hs _ _ hr).2).trans (and_congr eq_comm eq_comm)

theorem purgeObjectVersionMetadata_alone (hP : Separated P) (hs : Rows P s) (o : GoString)
    (v : Int) : (purgeObjectVersionMetadata o v).Obeys (alone P {.purge o v}) (fun out s' =>
      match out with
      | .ok _ => ((catalog s).head o = none ∧ s' = s) ∨ Makes (.purge o v) (catalog s) (catalog s')
      | .error _ => s' = s) s := by
  obtain ⟨ref, href, hdue⟩ := hs.tierDueRef_found o v
  refine solo_purgeObjectVersionMetadata hs hs href (fun hnone => Or.inl ⟨hnone, rfl⟩)
    (fun _ => rfl) fun obj hobj hcur => ?_
  have hdrop := dropsRows_purge hP hs (hs.named.head hobj).2 v hdue
  have hmakes := Makes.purge hobj hcur
  rw [← hdrop.catalog_version hs] at hmakes
  exact alone_commit_last hs hdrop.rows (Or.inr ⟨_, rfl, hmakes⟩) (Or.inr hmakes)

/-- The references under the prefix of an object, as a scan decodes them. -/
abbrev References (s : Store) (o : GoString) (refs : List TierDueRefRecord) : Prop :=
  List.Forall₂ (fun e r => Value.asTierDueRef e.2 = some r)
    (prefixEntries s (tiKVTierDueRefPrefix o)) refs

/-- The batch of a removal, with the references that it finds. -/
def deleteWrites (s : Store) (o : GoString) (refs : List TierDueRefRecord) : List KVWrite :=
  [Write.del (tiKVObjectKey o)] ++ scanDeletes s (tiKVObjectVersionPrefix o) ++
    scanDeletes s (tiKVReplicaPrefix o) ++ scanDeletes s (tiKVECShardPrefix o) ++
    pairDeletes (prefixEntries s (tiKVTierDueRefPrefix o)) refs

/-- The rows under the prefix are references, so that a removal commits its batch. -/
theorem solo_deleteNormalizedMetadata {I : Store → Prop} {R : Store → Store → Prop}
    {Q : Except GoError Unit → Store → Prop} {o : GoString} (hI : I s) (hs : Rows P s)
    (hdelete : ∀ refs, References s o refs →
      (KV.commit (deleteWrites s o refs)).Obeys (solo I R) Q s) :
    (deleteNormalizedMetadata o).Obeys (solo I R) Q s := by
  have hdec : ∀ e ∈ prefixEntries s (tiKVTierDueRefPrefix o),
      ∃ r, Value.asTierDueRef e.2 = some r := by
    rintro ⟨k, x⟩ he
    obtain ⟨hget, hpre⟩ := mem_prefixEntries.mp he
    have hfam := (hs k x hget).keyFamily_mem
    rw [keyFamily_of_tierDueRef_scan hpre] at hfam
    cases x with
    | tierDueRef r => exact ⟨r, rfl⟩
    | _ => exact absurd hfam (by simp only [valueFamilies]; decide)
  unfold deleteNormalizedMetadata
  refine solo_batchDeletePrefix hI (solo_batchDeletePrefix hI (solo_batchDeletePrefix hI ?_))
  unfold removeTieringDueIndexForObjectInBatch
  rw [bind_assoc]
  refine solo_iter hI ?_
  rcases decodeAll_cases Value.asTierDueRef (lit "due-index ref")
    (prefixEntries s (tiKVTierDueRefPrefix o)) with ⟨refs, hrefs, hall⟩ | ⟨err, herr⟩
  · rw [hrefs]
    exact hdelete refs hall
  · cases (decodeAll_ok hdec).symm.trans herr

/-- The deletions of an object's due references and of the entries they name. -/
theorem pairDeletes_index {o : GoString} (hs : Rows P s) {refs : List TierDueRefRecord}
    (hrefs : References s o refs) {w : KVWrite}
    (hw : w ∈ pairDeletes (prefixEntries s (tiKVTierDueRefPrefix o)) refs) :
    w.value = none ∧ IndexKey w.key := by
  obtain ⟨k, r, hmem, hw⟩ := mem_pairDeletes hrefs hw
  obtain ⟨hget, hpre⟩ := mem_prefixEntries.mp hmem
  rcases hw with rfl | rfl
  · exact ⟨rfl, indexKey_of_family (keyFamily_of_tierDueRef_scan hpre) (by decide)⟩
  · refine ⟨rfl, indexKey_of_family (f := lit "tdue") ?_ (by decide)⟩
    rw [Write.key_del, (hs _ _ hget).2.2, keyFamily_tierDue]

/-- The batch of a removal drops the rows of the object. -/
theorem dropsRows_delete (hP : Separated P) (hs : Rows P s) {o : GoString} (ho : P o)
    {due : List KVWrite} (hdue : ∀ w ∈ due, w.value = none ∧ IndexKey w.key) :
    DropsRows s ([Write.del (tiKVObjectKey o)] ++ scanDeletes s (tiKVObjectVersionPrefix o) ++
      scanDeletes s (tiKVReplicaPrefix o) ++ scanDeletes s (tiKVECShardPrefix o) ++ due)
      (fun o' => o' = o) (fun o' _ => o' = o) := by
  refine dropsRows_parts ?_ (inFamilies_del (keyFamily_object o))
    (scanDeletes_families fun k hk => keyFamily_of_version_scan hk)
    (scanDeletes_families fun k hk => keyFamily_of_replica_scan hk)
    (scanDeletes_families fun k hk => keyFamily_of_ecShard_scan hk)
    (fun w hw => (hdue w hw).2) ?_ ?_ ?_ ?_
  · intro w hw
    simp only [List.mem_append, List.mem_singleton] at hw
    rcases hw with (((rfl | hw) | hw) | hw) | hw
    · rfl
    · exact scanDeletes_value hw
    · exact scanDeletes_value hw
    · exact scanDeletes_value hw
    · exact (hdue w hw).1
  · intro r _
    simp only [List.mem_singleton, exists_eq_left, Write.key_del, tiKVObjectKey_inj, eq_comm]
  · intro r hr
    rw [exists_scanDeletes hr]
    exact (id_scan_iff hP ho (hs _ _ hr).2).trans eq_comm
  · intro r hr
    rw [exists_scanDeletes hr, tiKVReplicaKey, List.append_assoc _ (tiKVEncodeInt64 _),
      List.append_assoc _ _ r.nodeID]
    exact (id_scan_iff hP ho (hs _ _ hr).2).trans eq_comm
  · intro r hr
    rw [exists_scanDeletes hr, tiKVECShardKey, List.append_assoc _ (tiKVEncodeInt64 _),
      List.append_assoc _ _ (tiKVEncodeInt _)]
    exact (id_scan_iff hP ho (hs _ _ hr).2).trans eq_comm

theorem deleteNormalizedMetadata_alone (hP : Separated P) (hs : Rows P s) {o : GoString}
    (ho : P o) : (deleteNormalizedMetadata o).Obeys (alone P {.remove o}) (Done (.remove o) s) s := by
  refine solo_deleteNormalizedMetadata hs hs fun refs hrefs => ?_
  have hdrop := dropsRows_delete hP hs ho fun w hw => pairDeletes_index hs hrefs hw
  have hmakes := Makes.remove (c := catalog s) o
  rw [← hdrop.catalog_object hs] at hmakes
  exact alone_commit_last hs hdrop.rows (Or.inr ⟨_, rfl, hmakes⟩) hmakes

end Removal

end TieredStore.Meta
