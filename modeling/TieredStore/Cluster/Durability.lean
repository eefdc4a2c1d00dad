import TieredStore.Cluster.Ownership
import TieredStore.Tiering.HealthyMigration

/-!
# The content of a version

An object that is stored once is migrated, repaired and collected by any number of workers at the
same time, while jobs on other objects run. `DurableRows` says what keeps its bytes readable: the
rows of the tier that it is in point to blobs that are there. Before the commit there are no rows that
a reader could follow (`FreshRows`). All the time, every blob under a key of the object holds the
right bytes (`Kept`).

A worker acts on what it has seen before: it records shards because it has written them, and deletes
replicas because it has seen the version in tier EC. These are the facts that it knows (`Fact`). A
call of a worker that acts on facts keeps the object and every fact (`Kept.tend`), and so do the calls
of jobs on other objects (`Kept.foreign`) and of the scanners (`Kept.scan`). What the answers tell a
worker is in `Kept.tells` and `Kept.learned`.
-/

namespace TieredStore.Cluster

open Lib Lib.Prog Lib.Bytes Meta Tiering Api

/-! ## Rows of a version -/

/-- The shard of a byte string with an index. -/
def shardAt (d : Deps) (B : Blob) (i : Int) : Option Blob :=
  if 0 ≤ i then (d.ec.shards B).bind fun ss => ss[i.toNat]? else none

/-- The version is in tier EC. -/
def Cold (o : GoString) (v : Int) (c : Catalog) : Prop :=
  ∃ ver, c.version o v = some ver ∧ ver.tier = .ec

/-- The rows of the only version of an object, and the blobs that they promise. -/
structure DurableRows (d : Deps) (o : GoString) (v : Int) (B : Blob)
    (blobs : GoString → GoString → Option Blob) (c : Catalog) : Prop where
  head : ∃ obj, c.head o = some obj ∧ obj.currentVersion = v
  version : ∃ ver, c.version o v = some ver ∧ ver.sizeBytes = B.length ∧
    (ver.tier = .ec → ver.encodingK = some (d.cfg.k : Int) ∧ ver.encodingM = some (d.cfg.m : Int))
  only : ∀ v', v' ≠ v → c.version o v' = none
  replica : ¬ Cold o v c → ∃ n r, c.replica o v n = some r ∧ r.status = .active
  replicaBlob : ¬ Cold o v c → ∀ n r, c.replica o v n = some r → r.status = .active →
    blobs n (hotPath o v) = some B
  shards : Cold o v c → ∃ I : Finset Int, d.cfg.k ≤ I.card ∧
    ∀ i ∈ I, ∃ r, c.shard o v i = some r ∧ r.status = .active
  shardBlob : ∀ i r, c.shard o v i = some r → r.status = .active →
    blobs r.nodeID (chunkKey o i) ≠ none

/-- The rows of the object before its version is committed. -/
structure FreshRows (o : GoString) (v : Int) (B : Blob)
    (blobs : GoString → GoString → Option Blob) (c : Catalog) : Prop where
  head : c.head o = none
  version : ∀ v', c.version o v' = none
  shard : ∀ i, c.shard o v i = none
  replicaBlob : ∀ n r, c.replica o v n = some r → r.status = .active →
    blobs n (hotPath o v) = some B

/-- What is kept when the rows change under blobs that stay. -/
structure Carries (d : Deps) (o : GoString) (v : Int) (B : Blob)
    (blobs : GoString → GoString → Option Blob) (c c' : Catalog) : Prop where
  durable : DurableRows d o v B blobs c → DurableRows d o v B blobs c'
  fresh : FreshRows o v B blobs c → FreshRows o v B blobs c'
  cold : Cold o v c → Cold o v c'

/-- The changes that workers make to the rows of the version, when the blobs are there. -/
def Tended (d : Deps) (o : GoString) (v : Int) (B : Blob)
    (blobs : GoString → GoString → Option Blob) (c : Catalog) : Change → Prop
  | .mark _ _ _ | .pend _ _ => True
  | .promote _ o' _ _ k m locs => o' = o ∧ k = d.cfg.k ∧ m = d.cfg.m ∧
      (∀ loc ∈ locs, loc.status = .active ∧ blobs loc.nodeID (chunkKey o loc.shardIndex) ≠ none) ∧
      (Cold o v c ∨ ((locs.map (·.shardIndex)).Nodup ∧ d.cfg.k ≤ locs.length))
  | .place o' v' n _ => o' = o ∧ v' = v ∧ (Cold o v c ∨ blobs n (hotPath o v) = some B)
  | .retire o' v' _ => o' = o ∧ v' = v ∧ Cold o v c
  | .upsert o' _ _ _ | .purge o' _ | .remove o' => o' ≠ o

section Rows

variable {d : Deps} {o : GoString} {v : Int} {B : Blob} {P : GoString → Prop}
  {blobs : GoString → GoString → Option Blob} {c c' : Catalog}

theorem FreshRows.not_cold (h : FreshRows o v B blobs c) : ¬ Cold o v c := by
  rintro ⟨ver, hver, -⟩
  cases hver.symm.trans (h.version v)

theorem DurableRows.not_fresh (h : DurableRows d o v B blobs c) : ¬ FreshRows o v B blobs c := by
  intro hfresh
  obtain ⟨obj, hobj, -⟩ := h.head
  cases hobj.symm.trans hfresh.head

theorem Carries.refl (c : Catalog) : Carries d o v B blobs c c := ⟨id, id, id⟩

theorem Carries.of_sameRows (hsame : SameRows o c c') : Carries d o v B blobs c c' := by
  obtain ⟨hhead, hversion, hreplica, hshard⟩ := hsame
  have hcold : Cold o v c' ↔ Cold o v c := by
    unfold Cold
    rw [hversion]
  refine ⟨fun h => ⟨?_, ?_, ?_, ?_, ?_, ?_, ?_⟩, fun h => ⟨?_, ?_, ?_, ?_⟩, hcold.mpr⟩
  · rw [hhead]
    exact h.head
  · rw [hversion]
    exact h.version
  · rw [hversion]
    exact h.only
  · rw [hcold, hreplica]
    exact h.replica
  · rw [hcold, hreplica]
    exact h.replicaBlob
  · rw [hcold, hshard]
    exact h.shards
  · rw [hshard]
    exact h.shardBlob
  · rw [hhead]
    exact h.head
  · rw [hversion]
    exact h.version
  · rw [hshard]
    exact h.shard
  · rw [hreplica]
    exact h.replicaBlob

/-- A new head with the version of the old one. -/
theorem DurableRows.setHead (hn : c.Named P) (h : DurableRows d o v B blobs c)
    {obj obj' : ObjectRecord} {o' : GoString} (hobj : c.head o' = some obj)
    (hid : obj'.objectID = obj.objectID) (hv : obj'.currentVersion = obj.currentVersion) :
    DurableRows d o v B blobs (c.setHead obj') := by
  refine ⟨?_, h.version, h.only, h.replica, h.replicaBlob, h.shards, h.shardBlob⟩
  obtain ⟨old, hold, hcurrent⟩ := h.head
  by_cases heq : o = obj'.objectID
  · have ho' : o' = o := ((hn.head hobj).1.symm.trans hid.symm).trans heq.symm
    subst ho'
    cases hobj.symm.trans hold
    exact ⟨obj', if_pos heq, hv.trans hcurrent⟩
  · exact ⟨old, (if_neg heq).trans hold, hcurrent⟩

/-- The rows of a version stay durable under the changes of the workers, and a version in tier EC
stays there. -/
theorem DurableRows.step (hn : c.Named P) (h : DurableRows d o v B blobs c) {ch : Change}
    (ht : Tended d o v B blobs c ch) (hm : Makes ch c c') :
    DurableRows d o v B blobs c' ∧ (Cold o v c → Cold o v c') := by
  have hother : SameRows o c c' → DurableRows d o v B blobs c' ∧ (Cold o v c → Cold o v c') := by
    intro hsame
    have hcarries : Carries d o v B blobs c c' := .of_sameRows hsame
    exact ⟨hcarries.durable h, hcarries.cold⟩
  cases hm with
  | upsert o' v' md now => exact hother ((Makes.upsert o' v' md now).sameRows hn ht.symm)
  | purge head current => exact hother ((Makes.purge head current).sameRows hn ht.symm)
  | remove o' => exact hother ((Makes.remove o').sameRows hn ht.symm)
  | mark now head => exact ⟨h.setHead hn head rfl rfl, id⟩
  | pend now head => exact ⟨h.setHead hn head rfl rfl, id⟩
  | @promote _ obj ver now o' v' checksum k m locs hlocs head current version =>
    obtain ⟨rfl, rfl, rfl, hplaced, henough⟩ := ht
    obtain ⟨obj₀, hobj₀, hcurrent⟩ := h.head
    cases head.symm.trans hobj₀
    obtain rfl : v' = v := current.symm.trans hcurrent
    obtain ⟨ver₀, hver₀, hsize, -⟩ := h.version
    cases version.symm.trans hver₀
    obtain ⟨hid, hv, -⟩ := hn.version version
    have hafter := @putAll_promoteBatch c o' v' now checksum d.cfg.k d.cfg.m locs obj ver
      (hn.head head).1 hid hv
    generalize c.putAll _ = c' at hafter ⊢
    subst hafter
    refine ⟨⟨⟨_, if_pos rfl, hcurrent⟩, ⟨_, if_pos ⟨rfl, rfl⟩, hsize, fun _ => ⟨rfl, rfl⟩⟩, ?_,
      absurd ⟨_, if_pos ⟨rfl, rfl⟩, rfl⟩, absurd ⟨_, if_pos ⟨rfl, rfl⟩, rfl⟩, fun _ => ?_, ?_⟩,
      fun _ => ⟨_, if_pos ⟨rfl, rfl⟩, rfl⟩⟩
    · intro v hv
      exact (if_neg fun heq => hv heq.2).trans (h.only v hv)
    · -- the old shards when there were some, the new ones otherwise
      have hnew : ∀ i, (∃ loc ∈ locs, loc.shardIndex = i) ∨
          (∃ r, c.shard o' v' i = some r ∧ r.status = .active) →
          ∃ r, ((lastAt locs i).map (shardRow o' v')).or (c.shard o' v' i) = some r ∧
            r.status = .active := by
        intro i hi
        cases hlast : lastAt locs i with
        | some loc =>
          have hactive := (hplaced loc (lastAt_mem hlast).1).1
          exact ⟨_, rfl, by simp [shardRow, hactive]⟩
        | none =>
          rcases hi with ⟨loc, hloc, rfl⟩ | hold
          · obtain ⟨loc', hloc'⟩ := lastAt_isSome hloc
            cases hlast.symm.trans hloc'
          · exact hold
      simp only
      rcases henough with hcold₀ | ⟨hnodup, hlength⟩
      · obtain ⟨I, hcard, hI⟩ := h.shards hcold₀
        exact ⟨I, hcard, fun i hi => hnew i (Or.inr (hI i hi))⟩
      · refine ⟨(locs.map (·.shardIndex)).toFinset, ?_, fun i hi => hnew i (Or.inl ?_)⟩
        · rw [List.toFinset_card_of_nodup hnodup, List.length_map]
          exact hlength
        · exact List.mem_map.mp (List.mem_toFinset.mp hi)
    · intro i r hr hactive
      dsimp only at hr
      rw [if_pos ⟨rfl, rfl⟩] at hr
      cases hlast : lastAt locs i with
      | some loc =>
        rw [hlast] at hr
        cases hr
        obtain ⟨hmem, rfl⟩ := lastAt_mem hlast
        exact (hplaced loc hmem).2
      | none =>
        rw [hlast] at hr
        exact h.shardBlob i r hr hactive
  | place o' v' path hnode =>
    obtain ⟨rfl, rfl, hblob⟩ := ht
    refine ⟨⟨h.head, h.version, h.only, fun hhot => ?_, fun hhot => ?_, h.shards, h.shardBlob⟩, id⟩
    · exact ⟨_, _, if_pos ⟨rfl, rfl, rfl⟩, rfl⟩
    · intro n r hr hactive
      simp only [Catalog.setReplica] at hr
      split at hr
      · rename_i heq
        obtain ⟨-, -, rfl⟩ := heq
        exact hblob.resolve_left hhot
      · exact h.replicaBlob hhot n r hr hactive
  | retire row =>
    obtain ⟨-, -, hcold⟩ := ht
    exact ⟨⟨h.head, h.version, h.only, absurd hcold, absurd hcold, h.shards, h.shardBlob⟩, id⟩

/-- Before the commit, only replica rows are written. -/
theorem FreshRows.step (hn : c.Named P) (h : FreshRows o v B blobs c) {ch : Change}
    (ht : Tended d o v B blobs c ch) (hm : Makes ch c c') : FreshRows o v B blobs c' := by
  have hhead : ∀ {o' : GoString} {obj obj' : ObjectRecord}, c.head o' = some obj →
      obj'.objectID = obj.objectID → FreshRows o v B blobs (c.setHead obj') := by
    intro o' obj obj' hobj hid
    refine ⟨(if_neg ?_).trans h.head, h.version, h.shard, h.replicaBlob⟩
    intro heq
    have ho' : o' = o := ((hn.head hobj).1.symm.trans hid.symm).trans heq.symm
    subst ho'
    cases hobj.symm.trans h.head
  cases hm with
  | upsert o' v' md now =>
    exact (Carries.of_sameRows (d := d) ((Makes.upsert o' v' md now).sameRows hn ht.symm)).fresh h
  | purge head current =>
    exact (Carries.of_sameRows (d := d) ((Makes.purge head current).sameRows hn ht.symm)).fresh h
  | remove o' =>
    exact (Carries.of_sameRows (d := d) ((Makes.remove o').sameRows hn ht.symm)).fresh h
  | mark now head => exact hhead head rfl
  | pend now head => exact hhead head rfl
  | promote now checksum k m hlocs head =>
    obtain ⟨rfl, -⟩ := ht
    cases head.symm.trans h.head
  | place o' v' path hnode =>
    obtain ⟨rfl, rfl, hblob⟩ := ht
    refine ⟨h.head, h.version, h.shard, fun n r hr hactive => ?_⟩
    simp only [Catalog.setReplica] at hr
    split at hr
    · rename_i heq
      obtain ⟨-, -, rfl⟩ := heq
      exact hblob.resolve_left h.not_cold
    · exact h.replicaBlob n r hr hactive
  | retire row => exact absurd ht.2.2 h.not_cold

/-- The rows of the object at any time. -/
def KeptRows (d : Deps) (o : GoString) (v : Int) (B : Blob)
    (blobs : GoString → GoString → Option Blob) (c : Catalog) : Prop :=
  DurableRows d o v B blobs c ∨ FreshRows o v B blobs c

theorem Carries.kept (h : Carries d o v B blobs c c') (hc : KeptRows d o v B blobs c) :
    KeptRows d o v B blobs c' := hc.imp h.durable h.fresh

theorem KeptRows.step (hn : c.Named P) (h : KeptRows d o v B blobs c) {ch : Change}
    (ht : Tended d o v B blobs c ch) (hm : Makes ch c c') : Carries d o v B blobs c c' := by
  rcases h with h | h
  · exact ⟨fun _ => (h.step hn ht hm).1, fun hfresh => absurd hfresh h.not_fresh,
      (h.step hn ht hm).2⟩
  · exact ⟨fun hdurable => absurd h hdurable.not_fresh, fun _ => h.step hn ht hm,
      fun hcold => absurd hcold h.not_cold⟩

/-- Blobs may be added, and in tier EC the replicas may go. -/
theorem DurableRows.of_blobs {blobs' : GoString → GoString → Option Blob}
    (h : DurableRows d o v B blobs c)
    (hreplica : ¬ Cold o v c → ∀ n, blobs n (hotPath o v) = some B →
      blobs' n (hotPath o v) = some B)
    (hshard : ∀ n i, blobs n (chunkKey o i) ≠ none → blobs' n (chunkKey o i) ≠ none) :
    DurableRows d o v B blobs' c :=
  ⟨h.head, h.version, h.only, h.replica,
    fun hhot n r hr hactive => hreplica hhot n (h.replicaBlob hhot n r hr hactive), h.shards,
    fun i r hr hactive => hshard _ i (h.shardBlob i r hr hactive)⟩

theorem FreshRows.of_blobs {blobs' : GoString → GoString → Option Blob}
    (h : FreshRows o v B blobs c)
    (hreplica : ¬ Cold o v c → ∀ n, blobs n (hotPath o v) = some B →
      blobs' n (hotPath o v) = some B) : FreshRows o v B blobs' c :=
  ⟨h.head, h.version, h.shard,
    fun n r hr hactive => hreplica h.not_cold n (h.replicaBlob n r hr hactive)⟩

theorem Tended.of_cold (hcold : Cold o v c → Cold o v c') {ch : Change}
    (h : Tended d o v B blobs c ch) : Tended d o v B blobs c' ch := by
  cases ch with
  | promote now o' v' checksum k m locs =>
    exact ⟨h.1, h.2.1, h.2.2.1, h.2.2.2.1, h.2.2.2.2.imp_left hcold⟩
  | place o' v' n path => exact ⟨h.1, h.2.1, h.2.2.imp_left hcold⟩
  | retire o' v' n => exact ⟨h.1, h.2.1, hcold h.2.2⟩
  | _ => exact h

end Rows

/-! ## Facts -/

/-- Every blob under a key of the object is right, and the rows point to blobs. -/
structure Kept (d : Deps) (o : GoString) (v : Int) (B : Blob) (w : World) : Prop where
  tidy : Tidy w
  bare : ∀ n, w.blobs n o = none
  replicaBlobs : ∀ n data, w.blobs n (hotPath o v) = some data → data = B
  chunkBlobs : ∀ n i data, w.blobs n (chunkKey o i) = some data → shardAt d B i = some data
  rows : KeptRows d o v B w.blobs (catalog w.records)

/-- The object holds `B` in its only version. -/
structure Durable (d : Deps) (o : GoString) (v : Int) (B : Blob) (w : World) : Prop where
  kept : Kept d o v B w
  rows : DurableRows d o v B w.blobs (catalog w.records)

/-- What a job learns and acts on: a shard is on a node, a replica is on a node unless the version
has been migrated, the version has been migrated, the version is committed, it is not. -/
inductive Fact where
  | shard (n : GoString) (i : Int)
  | replica (n : GoString)
  | cold
  | committed
  | fresh

def Fact.Holds (d : Deps) (o : GoString) (v : Int) (B : Blob) (w : World) : Fact → Prop
  | shard n i => w.blobs n (chunkKey o i) ≠ none
  | replica n => Cold o v (catalog w.records) ∨ w.blobs n (hotPath o v) = some B
  | cold => Cold o v (catalog w.records)
  | committed => DurableRows d o v B w.blobs (catalog w.records)
  | fresh => FreshRows o v B w.blobs (catalog w.records)

/-- The calls of a worker that knows the facts `t`. -/
def Tends (d : Deps) (o : GoString) (v : Int) (B : Blob) (t : Set Fact) : Call → Prop
  | .store _ k data =>
    (k = hotPath o v ∧ data = B) ∨ ∃ i, k = chunkKey o i ∧ shardAt d B i = some data
  | .delete _ k => k = hotPath o v ∧ .cold ∈ t
  | .repo (.markObjectMigrating o' _) => o' = o
  | .repo (.promoteObjectVersionToEC o' _ _ k m locs) => o' = o ∧ k = d.cfg.k ∧ m = d.cfg.m ∧
      (∀ loc ∈ locs, loc.status = .active ∧ ShardPlace o loc.shardIndex loc.nodeID loc.path ∧
        .shard loc.nodeID loc.shardIndex ∈ t) ∧
      (.cold ∈ t ∨ ((locs.map (·.shardIndex)).Nodup ∧ d.cfg.k ≤ locs.length))
  | .repo (.upsertReplicaLocations o' v' ns) => o' = o ∧ v' = v ∧
      ∀ n ∈ ns, Picked n ∧ .replica n ∈ t
  | .repo (.markReplicaLocationsDeleted o' v' _) => o' = o ∧ v' = v ∧ .cold ∈ t
  | .repo (.task _) => True
  | .repo (.purgeObjectVersionMetadata _ _) | .repo (.upsertNormalizedMetadata _ _)
  | .repo (.deleteNormalizedMetadata _) | .repo (.upkeep _) => False
  | _ => True

section Facts

variable {d : Deps} {o : GoString} {v : Int} {B : Blob} {t : Set Fact} {cfg : Config}
  {w w' : World} {c : Call} {r : c.Answer}

theorem Tends.own (ho : Routable o) (hv : 0 < v) (h : Tends d o v B t c) : Own o c := by
  cases c with
  | store n k data =>
    rcases h with ⟨rfl, -⟩ | ⟨i, rfl, -⟩
    · exact Or.inl (Or.inl ⟨v, hv, rfl⟩)
    · exact own_chunk n i data
  | delete n k =>
    obtain ⟨rfl, -⟩ := h
    exact Or.inl (Or.inl ⟨v, hv, rfl⟩)
  | repo rc =>
    cases rc with
    | markObjectMigrating o' v' =>
      obtain rfl : o' = o := h
      exact own_mark v'
    | promoteObjectVersionToEC o' v' checksum k m locs =>
      obtain ⟨rfl, -, -, hlocs, -⟩ := h
      exact own_promote fun loc hloc => (hlocs loc hloc).2.1
    | upsertReplicaLocations o' v' ns =>
      obtain ⟨rfl, rfl, hns⟩ := h
      exact own_place ho hv fun n hn => (hns n hn).1
    | markReplicaLocationsDeleted o' v' ns =>
      obtain ⟨rfl, rfl, -⟩ := h
      exact own_retire v' ns
    | task tc => exact own_task tc
    | purgeObjectVersionMetadata | upsertNormalizedMetadata | deleteNormalizedMetadata | upkeep =>
      exact h.elim
    | _ => exact own_passive _ trivial
  | _ => trivial

/-- What a worker that acts on facts does to the rows. -/
theorem Tends.tended {rc : RepoCall} (h : Tends d o v B t (.repo rc))
    (ht : ∀ f ∈ t, f.Holds d o v B w) :
    ∀ ch ∈ rc.changes, Tended d o v B w.blobs (catalog w.records) ch := by
  cases rc with
  | markObjectMigrating o' v' =>
    rintro ch ⟨now, rfl⟩
    trivial
  | promoteObjectVersionToEC o' v' checksum k m locs =>
    rintro ch ⟨now, rfl⟩
    obtain ⟨rfl, rfl, rfl, hlocs, henough⟩ := h
    exact ⟨rfl, rfl, rfl, fun loc hloc => ⟨(hlocs loc hloc).1, ht _ (hlocs loc hloc).2.2⟩,
      henough.imp_left (ht _)⟩
  | upsertReplicaLocations o' v' ns =>
    rintro ch ⟨n, hn, rfl⟩
    obtain ⟨rfl, rfl, hns⟩ := h
    exact ⟨rfl, rfl, ht _ (hns n hn).2⟩
  | markReplicaLocationsDeleted o' v' ns =>
    rintro ch ⟨n, -, rfl⟩
    obtain ⟨rfl, rfl, hcold⟩ := h
    exact ⟨rfl, rfl, ht _ hcold⟩
  | purgeObjectVersionMetadata | upsertNormalizedMetadata | deleteNormalizedMetadata | upkeep =>
    exact h.elim
  | _ => rintro ch ⟨⟩

/-- An object after a step: it is kept, and every fact that held still holds. -/
def Endures (d : Deps) (o : GoString) (v : Int) (B : Blob) (w w' : World) : Prop :=
  Kept d o v B w' ∧ ∀ f : Fact, f.Holds d o v B w → f.Holds d o v B w'

/-- What a step has to keep: the rows, and the blobs that are there. -/
theorem Kept.endures (h : Kept d o v B w) (htidy : Tidy w')
    (hrows : Carries d o v B w.blobs (catalog w.records) (catalog w'.records))
    (hbare : ∀ n, w'.blobs n o = w.blobs n o)
    (hhot : ∀ n, w'.blobs n (hotPath o v) = w.blobs n (hotPath o v) ∨
      w'.blobs n (hotPath o v) = some B ∨ Cold o v (catalog w'.records) ∧
        w'.blobs n (hotPath o v) = none)
    (hchunk : ∀ n i, w'.blobs n (chunkKey o i) = w.blobs n (chunkKey o i) ∨
      ∃ data, shardAt d B i = some data ∧ w'.blobs n (chunkKey o i) = some data) :
    Endures d o v B w w' := by
  have hreplica : ∀ n, w.blobs n (hotPath o v) = some B →
      Cold o v (catalog w'.records) ∨ w'.blobs n (hotPath o v) = some B := by
    intro n hblob
    rcases hhot n with hsame | hnew | ⟨hcold', -⟩
    · exact Or.inr (hsame.trans hblob)
    · exact Or.inr hnew
    · exact Or.inl hcold'
  have hreplica' : ¬ Cold o v (catalog w'.records) → ∀ n, w.blobs n (hotPath o v) = some B →
      w'.blobs n (hotPath o v) = some B := fun hhot' n hblob =>
    (hreplica n hblob).resolve_left hhot'
  have hshard : ∀ n i, w.blobs n (chunkKey o i) ≠ none → w'.blobs n (chunkKey o i) ≠ none := by
    intro n i hblob
    rcases hchunk n i with hsame | ⟨data, -, hnew⟩
    · rwa [hsame]
    · rw [hnew]
      exact Option.some_ne_none data
  refine ⟨⟨htidy, fun n => (hbare n).trans (h.bare n), fun n data hblob => ?_,
    fun n i data hblob => ?_, (hrows.kept h.rows).imp (fun hd => hd.of_blobs hreplica' hshard)
      fun hf => hf.of_blobs hreplica'⟩, ?_⟩
  · rcases hhot n with hsame | hnew | ⟨-, hgone⟩
    · exact h.replicaBlobs n data (hsame ▸ hblob)
    · exact Option.some.inj (hblob.symm.trans hnew)
    · cases hblob.symm.trans hgone
  · rcases hchunk n i with hsame | ⟨data', hdata', hnew⟩
    · exact h.chunkBlobs n i data (hsame ▸ hblob)
    · cases hblob.symm.trans hnew
      exact hdata'
  · intro f hf
    cases f with
    | shard n i => exact hshard n i hf
    | replica n => exact hf.elim (fun hc => Or.inl (hrows.cold hc)) (hreplica n)
    | cold => exact hrows.cold hf
    | committed => exact (hrows.durable hf).of_blobs hreplica' hshard
    | fresh => exact (hrows.fresh hf).of_blobs hreplica'

/-- A repository call whose changes are those of the workers. -/
theorem Kept.repo (h : Kept d o v B w) {rc : RepoCall} {r : Except GoError rc.Answer}
    (hnames : rc.Names Routable) (htidy : Tidy w')
    (hchanges : ∀ ch ∈ rc.changes, Tended d o v B w.blobs (catalog w.records) ch)
    (hstep : Faulty cfg (.repo rc) w r w') : Endures d o v B w w' := by
  obtain ⟨hblobs, -⟩ := hstep.steps
  have hrows := (hstep.kept separated_routable hnames h.tidy.rows
    (J := Carries d o v B w.blobs (catalog w.records)) (fun ch hch _ _ hn hJ hm => by
      have hnext := (hJ.kept h.rows).step hn ((hchanges ch hch).of_cold hJ.cold) hm
      exact ⟨hnext.durable ∘ hJ.durable, hnext.fresh ∘ hJ.fresh, hnext.cold ∘ hJ.cold⟩)
    (Carries.refl _)).2
  refine h.endures htidy hrows ?_ ?_ ?_ <;> rw [hblobs]
  · exact fun _ => rfl
  · exact fun _ => Or.inl rfl
  · exact fun _ _ => Or.inl rfl

theorem put_same (w : World) (n k : GoString) (data : Blob) (n' : GoString) :
    (w.put n k data).blobs n' k = w.blobs n' k ∨ (w.put n k data).blobs n' k = some data := by
  simp only [World.put]
  split_ifs
  · exact Or.inr rfl
  · exact Or.inl rfl

theorem put_other {k k' : GoString} (hk : k' ≠ k) (w : World) (n : GoString) (data : Blob)
    (n' : GoString) : (w.put n k data).blobs n' k' = w.blobs n' k' := if_neg fun heq => hk heq.2

theorem drop_same (w : World) (n k n' : GoString) :
    (w.drop n k).blobs n' k = w.blobs n' k ∨ (w.drop n k).blobs n' k = none := by
  simp only [World.drop]
  split_ifs
  · exact Or.inr rfl
  · exact Or.inl rfl

theorem drop_other {k k' : GoString} (hk : k' ≠ k) (w : World) (n n' : GoString) :
    (w.drop n k).blobs n' k' = w.blobs n' k' := if_neg fun heq => hk heq.2

/-- Calls may fail, and a store leaves the blob as it was or the whole new one, also when it
fails. -/
def Whole (cfg : Config) (c : Call) (w : World) (r : c.Answer) (w' : World) : Prop :=
  Faulty cfg c w r w' ∧ ∀ n k data, c = .store n k data → w' = w ∨ w' = w.put n k data

theorem Whole.effect (h : Whole cfg c w r w') : w' = w ∨ (∃ rc, c = .repo rc) ∨
    (∃ n k data, c = .store n k data ∧ w' = w.put n k data) ∨
    ∃ n k, c = .delete n k ∧ w' = w.drop n k := by
  rcases h.1.effect with hsame | ⟨rc, hc, -⟩ | ⟨n, k, data, left, hc, -⟩ | ⟨n, k, hc, -, hdrop⟩
  · exact Or.inl hsame
  · exact Or.inr (Or.inl ⟨rc, hc⟩)
  · rcases h.2 n k data hc with hsame | hput
    · exact Or.inl hsame
    · exact Or.inr (Or.inr (Or.inl ⟨n, k, data, hc, hput⟩))
  · exact Or.inr (Or.inr (Or.inr ⟨n, k, hc, hdrop⟩))

/-- A call of a worker that acts on facts. -/
theorem Kept.tend (ho : Routable o) (hv : 0 < v) (h : Kept d o v B w)
    (ht : ∀ f ∈ t, f.Holds d o v B w) (hallow : Tends d o v B t c) (hstep : Whole cfg c w r w') :
    Endures d o v B w w' := by
  have htidy := Own.tidy ho (hallow.own ho hv) h.tidy hstep.1
  have hpath : ∀ i, chunkKey o i ≠ hotPath o v := fun i => chunkKey_ne_hotPath ho.slashFree
  have hid : o ≠ hotPath o v := (hotPath_ne_id ho.slashFree).symm
  rcases hstep.effect with rfl | ⟨rc, rfl⟩ | ⟨n, k, data, rfl, rfl⟩ | ⟨n, k, rfl, rfl⟩
  · exact ⟨h, fun _ hf => hf⟩
  · exact h.repo (names_of_own ho (hallow.own ho hv).1) htidy (hallow.tended ht) hstep.1
  · rcases hallow with ⟨rfl, rfl⟩ | ⟨i, rfl, hdata⟩
    · exact h.endures htidy (Carries.refl _) (put_other hid w n data)
        (fun n' => (put_same w n _ data n').imp_right Or.inl)
        fun n' i => Or.inl (put_other (hpath i) w n data n')
    · refine h.endures htidy (Carries.refl _) (put_other (chunkKey_ne_self o i).symm w n data)
        (fun n' => Or.inl (put_other (hpath i).symm w n data n')) fun n' i' => ?_
      by_cases hi : i' = i
      · subst hi
        exact (put_same w n _ data n').imp_right fun hnew => ⟨data, hdata, hnew⟩
      · exact Or.inl (put_other (fun heq => hi (chunkKey_inj heq).2) w n data n')
  · obtain ⟨rfl, hcold⟩ := hallow
    exact h.endures htidy (Carries.refl _) (drop_other hid w n)
      (fun n' => (drop_same w n _ n').imp_right fun hgone => Or.inr ⟨ht _ hcold, hgone⟩)
      fun n' i => Or.inl (drop_other (hpath i) w n n')

/-- Two ids that are not blob keys of each other. -/
structure Apart (a b : GoString) : Prop where
  ne : b ≠ a
  left : ¬ BlobKey b a
  right : ¬ BlobKey a b

/-- A call of a job on another object. -/
theorem Kept.foreign (ho : Routable o) (hv : 0 < v) {a : GoString} (ha : Routable a)
    (hapart : Apart a o) (h : Kept d o v B w) (hown : Own a c) (hstep : Faulty cfg c w r w') :
    Endures d o v B w w' := by
  have htidy := Own.tidy ha hown h.tidy hstep
  obtain ⟨hrows, hblobs⟩ := Own.untouched ha ho hapart.ne hapart.left hown h.tidy hstep
  have hhot : ∀ n, w'.blobs n (hotPath o v) = w.blobs n (hotPath o v) := fun n =>
    hblobs n _ (Or.inl ⟨v, hv, rfl⟩)
  have hchunk : ∀ n i, w'.blobs n (chunkKey o i) = w.blobs n (chunkKey o i) := fun n i =>
    hblobs n _ (Or.inr ⟨i, rfl⟩)
  have hkey : ¬ OwnKey a o := by
    rintro (hkey | heq)
    · exact hapart.right hkey
    · exact hapart.ne heq
  have hbare : ∀ n, w'.blobs n o = w.blobs n o := by
    intro n
    refine hstep.other_place ?_ ?_
    · rintro data rfl
      exact hkey hown
    · rintro rfl
      exact hkey hown
  exact h.endures htidy (Carries.of_sameRows hrows) hbare (fun n => Or.inl (hhot n))
    fun n i => Or.inl (hchunk n i)

/-- A call of a scanner. -/
theorem Kept.scan (h : Kept d o v B w) (hscan : Scans c) (hstep : Faulty cfg c w r w') :
    Endures d o v B w w' := by
  have hvalid : Duty.scan.Valid := trivial
  have htidy : Tidy w' := tidy_of_allow hvalid hscan h.tidy hstep
  obtain ⟨u, rfl, hnames⟩ := hscan
  refine h.repo hnames htidy ?_ hstep
  rintro ch ⟨now, o', rfl⟩
  trivial

end Facts

/-! ## Answers -/

/-- The metadata of a migrated object as its readers see them. -/
structure Striped (d : Deps) (o : GoString) (B : Blob) (md : Metadata) : Prop where
  k : getIntFromMetadata md (lit "k") = some (d.cfg.k : Int)
  m : getIntFromMetadata md (lit "m") = some (d.cfg.m : Int)
  length : getIntFromMetadata md (lit "original_length") = some (B.length : Int)
  named : chunkPrefixOf md ≠ []
  placed : parseECShardPlacements md ≠ []
  paths : ∀ p ∈ parseECShardPlacements md, p.path = chunkKey o p.index

/-- The metadata of a durable object as its readers see them. -/
def Readable (d : Deps) (o : GoString) (v : Int) (B : Blob) (md : Metadata) : Prop :=
  (strategyOf md = lit "replication" ∧ hotKeyOf o md = hotPath o v) ∨
    (strategyOf md = lit "ec" ∧ B ≠ [] ∧ Striped d o B md)

/-- What the answers tell about the object. -/
def Tells (d : Deps) (o : GoString) (v : Int) (B : Blob) : (c : Call) → c.Answer → Prop
  | .retrieve _ k, r => ∀ data, r = .status 200 data → k ≠ o ∧ (k = hotPath o v → data = B) ∧
      ∀ i, k = chunkKey o i → shardAt d B i = some data
  | .repo (.getObjectVersionSnapshot o' v'), r => o' = o → ∀ snap : ObjectVersionSnapshot,
      r = .ok (some snap) → v' = v ∧ snap.currentVersion = v
  | .repo (.listActiveReplicaLocations o' v'), r => o' = o → ∀ rs : List ReplicaLocation,
      r = .ok rs → ∀ loc ∈ rs, ReplicaPlace o v' loc.nodeID loc.path
  | .repo (.getObjectAdminView o'), r => o' = o → ∀ view : ObjectAdminView, r = .ok (some view) →
      view.currentVersion = v ∧ ∃ ver, view.version = some ver ∧ ver.version = v ∧
        (ver.tier = .ec → B ≠ [] ∧ ver.encodingK = some (d.cfg.k : Int) ∧
          ver.encodingM = some (d.cfg.m : Int) ∧
          ∀ loc ∈ view.ecShardLocations, loc.path = chunkKey o loc.shardIndex)
  | .repo (.getObjectVersionGCView o' v'), r => o' = o → ∀ view : ObjectVersionGCView,
      r = .ok (some view) → view.currentVersion = v'
  | .repo (.getNormalizedMetadata o'), r => o' = o → ∀ md : Metadata, r = .ok (some md) →
      Readable d o v B md
  | _, _ => True

/-- The facts that a worker learns from an answer. -/
def learned (o : GoString) (v : Int) : (c : Call) → c.Answer → Set Fact
  | .store n k _, r => {f | (∃ code body, r = .status code body ∧ (code = 200 ∨ code = 204)) ∧
      ((k = hotPath o v ∧ f = .replica n) ∨ ∃ i, k = chunkKey o i ∧ f = .shard n i)}
  | .repo (.getObjectVersionSnapshot o' v'), r => {f | f = .cold ∧ o' = o ∧ v' = v ∧
      ∃ snap : ObjectVersionSnapshot, r = .ok (some snap) ∧ snap.tier = .ec}
  | .repo (.getObjectAdminView o'), r => {f | f = .cold ∧ o' = o ∧ ∃ (view : ObjectAdminView)
      (ver : ObjectVersionAdminView), r = .ok (some view) ∧ view.version = some ver ∧ ver.tier = .ec}
  | _, _ => ∅

section Answers

variable {d : Deps} {o : GoString} {v : Int} {B : Blob} {t : Set Fact} {cfg : Config}
  {w w' : World} {c : Call} {r : c.Answer}

theorem shardAt_eq_some {i : Int} {data : Blob} (h : shardAt d B i = some data) :
    ∃ ss, d.ec.shards B = some ss ∧ 0 ≤ i ∧ ss[i.toNat]? = some data := by
  unfold shardAt at h
  split_ifs at h with hi
  obtain ⟨ss, hss, hdata⟩ := Option.bind_eq_some_iff.mp h
  exact ⟨ss, hss, hi, hdata⟩

theorem shardAt_of_shards {ss : List Blob} (hss : d.ec.shards B = some ss) (i : Nat) :
    shardAt d B i = ss[i]? := by
  unfold shardAt
  rw [if_pos (Int.natCast_nonneg i), hss]
  rfl

/-- An object with a head is committed. -/
theorem Kept.durable (h : Kept d o v B w) {obj : ObjectRecord}
    (hobj : (catalog w.records).head o = some obj) : Durable d o v B w := by
  rcases h.rows with hrows | hrows
  · exact ⟨h, hrows⟩
  · cases hobj.symm.trans hrows.head

/-- A migrated object is not empty. -/
theorem Durable.nonempty (hlawful : d.ec.Lawful d.cfg.k d.cfg.m) (h : Durable d o v B w)
    (hcold : Cold o v (catalog w.records)) : B ≠ [] := by
  obtain ⟨I, hcard, hI⟩ := h.rows.shards hcold
  obtain ⟨i, hi⟩ := Finset.card_pos.mp (lt_of_lt_of_le hlawful.pos hcard)
  obtain ⟨r, hr, hactive⟩ := hI i hi
  obtain ⟨data, hdata⟩ := Option.ne_none_iff_exists'.mp (h.rows.shardBlob i r hr hactive)
  obtain ⟨ss, hss, -⟩ := shardAt_eq_some (h.kept.chunkBlobs _ _ _ hdata)
  rintro rfl
  cases hss.symm.trans hlawful.shards_nil

theorem chunkPrefixOf_answer {obj : ObjectRecord} {ver : ObjectVersionRecord}
    {replicas : List ReplicaRecord} {shards : List ECShardRecord} :
    chunkPrefixOf (normalizedMetadata o obj ver replicas shards) = o ++ lit "_cold_chunk_" := by
  have hget : (normalizedMetadata o obj ver replicas shards).get (lit "cold_prefix") =
      .str (o ++ lit "_cold_chunk_") := by
    rw [answer_get_base (by decide)]
    rfl
  unfold chunkPrefixOf
  rw [hget]
  exact if_neg (by simp [Meta.toString, lit])

theorem strategyOf_answer {obj : ObjectRecord} {ver : ObjectVersionRecord}
    {replicas : List ReplicaRecord} {shards : List ECShardRecord} :
    strategyOf (normalizedMetadata o obj ver replicas shards) = strategyFromTier ver.tier := by
  unfold strategyOf
  rw [answer_get_base (by decide)]
  rfl

/-- The readers of the metadata find the blobs of the object. -/
theorem Durable.readable (ho : Routable o) (hlawful : d.ec.Lawful d.cfg.k d.cfg.m)
    (h : Durable d o v B w) {obj : ObjectRecord} {ver : ObjectVersionRecord}
    (hobj : (catalog w.records).head o = some obj)
    (hver : (catalog w.records).version o obj.currentVersion = some ver) :
    Readable d o v B (normalizedMetadata o obj ver (activeReplicas w.records o obj.currentVersion)
      (if ver.tier = .ec then shardRows w.records o obj.currentVersion else [])) := by
  have hkey := h.kept.tidy.hotKeyOf_answer ho hobj ver
  obtain ⟨obj₀, hobj₀, rfl⟩ := h.rows.head
  cases hobj.symm.trans hobj₀
  obtain ⟨ver₀, hver₀, hsize, hcode⟩ := h.rows.version
  cases hver.symm.trans hver₀
  cases htier : ver.tier with
  | hot =>
    refine Or.inl ⟨strategyOf_answer.trans ?_, hkey _⟩
    rw [htier]
    rfl
  | ec =>
    obtain ⟨hk, hm⟩ := hcode htier
    have hcold : Cold o obj.currentVersion (catalog w.records) := ⟨ver, hver, htier⟩
    have hB := h.nonempty hlawful hcold
    refine Or.inr ⟨strategyOf_answer.trans (by rw [htier]; rfl), hB, ?_, ?_, ?_, ?_, ?_, ?_⟩
    · unfold getIntFromMetadata
      rw [answer_get_k, hk]
      rfl
    · unfold getIntFromMetadata
      rw [answer_get_m, hm]
      rfl
    · unfold getIntFromMetadata
      rw [answer_get_length, hsize, if_pos (Int.natCast_pos.mpr (List.length_pos_of_ne_nil hB))]
      rfl
    · rw [chunkPrefixOf_answer]
      simp [lit]
    · rw [parse_answer, if_pos htier, if_pos rfl]
      obtain ⟨I, hcard, hI⟩ := h.rows.shards hcold
      obtain ⟨i, hi⟩ := Finset.card_pos.mp (lt_of_lt_of_le hlawful.pos hcard)
      obtain ⟨r, hr, hactive⟩ := hI i hi
      have hplace := h.kept.tidy.placed.shard hr
      obtain ⟨-, -, rfl, -⟩ := h.kept.tidy.rows.named.shard hr
      have hmem : r ∈ readable (shardRows w.records o obj.currentVersion) := by
        refine List.mem_filter.mpr ⟨(List.perm_insertionSort _ _).mem_iff.mpr
          ((mem_shardRows separated_routable h.kept.tidy.rows ho).mpr hr), decide_eq_true ?_⟩
        exact ⟨hactive, hplace.node_ne_nil, hplace.path_eq ▸ chunkKey_ne_nil _ _⟩
      exact List.ne_nil_of_mem (List.mem_map_of_mem hmem)
    · rw [parse_answer, if_pos htier, if_pos rfl]
      intro p hp
      obtain ⟨r, hr, rfl⟩ := List.mem_map.mp hp
      have hmem := (List.perm_insertionSort _ _).mem_iff.mp (List.mem_of_mem_filter hr)
      exact (h.kept.tidy.shardPlace ho hmem).path_eq

/-- What the answers about the object tell. -/
theorem Kept.tells (ho : Verbatim o) (hlawful : d.ec.Lawful d.cfg.k d.cfg.m)
    (h : Kept d o v B w) (hstep : Clocked (Faulty cfg) c w r w') : Tells d o v B c r := by
  have hsane := h.tidy.sane hstep
  cases c with
  | retrieve n k =>
    rintro data rfl
    have hblob : VerbatimKey k → w.blobs n k = some data := fun hk =>
      (((routed_retrieve hk).mp hstep.1).retrieved.2 data rfl).2
    refine ⟨?_, ?_, ?_⟩
    · rintro rfl
      cases (hblob (verbatimKey_id ho)).symm.trans (h.bare n)
    · rintro rfl
      exact h.replicaBlobs n data (hblob (verbatimKey_hotPath ho v))
    · rintro i rfl
      exact h.chunkBlobs n i data (hblob (verbatimKey_chunkKey ho i))
  | repo rc =>
    have hstep : Faulty cfg (.repo rc) w r w' := hstep.1
    replace ho := ho.toRoutable
    cases rc with
    | getObjectVersionSnapshot o' v' =>
      rintro rfl snap rfl
      obtain ⟨hanswer, -⟩ := hstep.read fun clocks =>
        atomically_getObjectVersionSnapshot h.tidy.rows.typed o' v'
      obtain ⟨obj, ver, hobj, hver, rfl⟩ := Catalog.snapshot_eq_some.mp hanswer.symm
      obtain ⟨-, hrows⟩ := h.durable hobj
      obtain ⟨obj', hobj', hcurrent⟩ := hrows.head
      cases hobj.symm.trans hobj'
      refine ⟨?_, hcurrent⟩
      by_contra hne
      cases hver.symm.trans (hrows.only v' hne)
    | listActiveReplicaLocations o' v' =>
      rintro rfl
      exact hsane ho
    | getObjectAdminView o' =>
      rintro rfl view rfl
      obtain ⟨hanswer, -⟩ := hstep.read fun clocks =>
        atomically_getObjectAdminView h.tidy.rows.typed o'
      obtain ⟨obj, hobj, rfl⟩ := Option.map_eq_some_iff.mp hanswer.symm
      have hdurable := h.durable hobj
      obtain ⟨obj', hobj', hcurrent⟩ := hdurable.rows.head
      cases hobj.symm.trans hobj'
      obtain ⟨ver, hver, -, hcode⟩ := hdurable.rows.version
      rw [← hcurrent] at hver
      refine ⟨hcurrent, _, by rw [hver]; rfl, ?_, fun htier => ?_⟩
      · exact (h.tidy.rows.named.version hver).2.1.trans hcurrent
      · obtain ⟨hk, hm⟩ := hcode htier
        refine ⟨hdurable.nonempty hlawful ⟨ver, hcurrent ▸ hver, htier⟩, hk, hm,
          fun loc hloc => ?_⟩
        obtain ⟨row, hrow, rfl⟩ :=
          List.mem_map.mp ((List.perm_insertionSort _ _).mem_iff.mp hloc)
        exact (h.tidy.shardPlace ho hrow).path_eq
    | getObjectVersionGCView o' v' =>
      rintro rfl view rfl
      obtain ⟨hanswer, -⟩ := hstep.read fun clocks =>
        atomically_getObjectVersionGCView h.tidy.rows.typed o' v'
      obtain ⟨obj, hobj, hview⟩ := Option.bind_eq_some_iff.mp hanswer.symm
      obtain ⟨ver, hver, rfl⟩ := Option.map_eq_some_iff.mp hview
      obtain ⟨-, hrows⟩ := h.durable hobj
      obtain ⟨obj', hobj', hcurrent⟩ := hrows.head
      cases hobj.symm.trans hobj'
      by_contra hne
      have hother : v' ≠ v := fun heq => hne (hcurrent.trans heq.symm)
      cases hver.symm.trans (hrows.only v' hother)
    | getNormalizedMetadata o' =>
      rintro rfl md rfl
      obtain ⟨hanswer, -⟩ := hstep.read fun clocks =>
        atomically_getNormalizedMetadata h.tidy.rows.typed o'
      obtain ⟨obj, hobj, hmd⟩ := Option.bind_eq_some_iff.mp hanswer.symm
      obtain ⟨ver, hver, rfl⟩ := Option.map_eq_some_iff.mp hmd
      exact (h.durable hobj).readable ho hlawful hobj hver
    | _ => trivial
  | _ => trivial

/-- What a worker learns is true. -/
theorem Kept.learned (ho : Routable o) (h : Kept d o v B w) (hallow : Tends d o v B t c)
    (hstep : Faulty cfg c w r w') : ∀ f ∈ learned o v c r, f.Holds d o v B w' := by
  cases c with
  | store n k data =>
    rintro f ⟨⟨code, body, hr, hcode⟩, hf⟩
    obtain ⟨-, rfl⟩ := hstep.stored hr hcode
    rcases hf with ⟨rfl, rfl⟩ | ⟨i, rfl, rfl⟩
    · refine Or.inr ((if_pos ⟨rfl, rfl⟩).trans (congrArg some ?_))
      rcases hallow with ⟨-, hdata⟩ | ⟨i, hkey, -⟩
      · exact hdata
      · exact absurd hkey.symm (chunkKey_ne_hotPath ho.slashFree)
    · refine ne_of_eq_of_ne (if_pos ⟨rfl, rfl⟩) (Option.some_ne_none data)
  | repo rc =>
    cases rc with
    | getObjectVersionSnapshot o' v' =>
      rintro f ⟨rfl, rfl, rfl, snap, rfl, htier⟩
      obtain ⟨hanswer, rfl⟩ := hstep.read fun clocks =>
        atomically_getObjectVersionSnapshot h.tidy.rows.typed o' v'
      obtain ⟨obj, ver, -, hver, rfl⟩ := Catalog.snapshot_eq_some.mp hanswer.symm
      exact ⟨ver, hver, htier⟩
    | getObjectAdminView o' =>
      rintro f ⟨rfl, rfl, view, aver, rfl, hversion, htier⟩
      obtain ⟨hanswer, rfl⟩ := hstep.read fun clocks =>
        atomically_getObjectAdminView h.tidy.rows.typed o'
      obtain ⟨obj, hobj, rfl⟩ := Option.map_eq_some_iff.mp hanswer.symm
      obtain ⟨obj', hobj', hcurrent⟩ := (h.durable hobj).rows.head
      cases hobj.symm.trans hobj'
      obtain ⟨ver, hver, rfl⟩ := Option.map_eq_some_iff.mp hversion
      exact ⟨ver, hcurrent ▸ hver, htier⟩
    | _ => rintro f ⟨⟩
  | _ => rintro f ⟨⟩

end Answers

/-- The monitor of a worker on the object: it knows facts. -/
def tending (d : Deps) (o : GoString) (v : Int) (B : Blob) : Monitor Call Call.Answer (Set Fact) where
  allow := Tends d o v B
  next t c r t' := Tells d o v B c r ∧ t' = t ∪ learned o v c r

end TieredStore.Cluster
