import TieredStore.Cluster.Effects
import TieredStore.Tiering.Processors

/-!
# Where blobs are

An object has two kinds of blob keys: `hot/<id>/<version>` for the replicas of a version and
`<id>_cold_chunk_<index>` for its shards. Keys of two objects are never equal
(`BlobKey.object_eq`). In a `WellPlaced` catalog every row points to a key of its own object, and
every change that the jobs make keeps it so (`WellPlaced.step`).
-/

namespace TieredStore.Cluster

open Lib Lib.Bytes Meta Tiering

/-! ## Keys -/

/-- The ids that the object routes accept: a path segment, trimmed and not empty. -/
structure Routable (o : GoString) : Prop where
  ne_nil : o ≠ []
  trimmed : Trimmed o
  slashFree : slash ∉ o

theorem separated_routable : Separated Routable :=
  fun _ _ _ _ ha hb h => separated_slashFree ha.slashFree hb.slashFree h

/-- The key of the replicas of a version. -/
def hotPath (o : GoString) (v : Int) : GoString := lit "hot/" ++ o ++ lit "/" ++ padInt 20 v

/-- The keys under which blobs of an object are recorded. -/
def BlobKey (o k : GoString) : Prop := (∃ v, 0 < v ∧ k = hotPath o v) ∨ ∃ i, k = chunkKey o i

section Keys

variable {o o' : GoString} {v v' i i' : Int}

theorem buildHotReplicaPath_routable (ho : Routable o) (hv : 0 < v) :
    buildHotReplicaPath o v = hotPath o v := by
  have htrim := trimSpace_of_trimmed ho.trimmed
  rw [buildHotReplicaPath_of_pos (htrim.symm ▸ ho.ne_nil) hv, htrim]
  rfl

theorem hotPath_ne_nil (o : GoString) (v : Int) : hotPath o v ≠ [] := by
  simp [hotPath, lit]

theorem chunkKey_ne_nil (o : GoString) (i : Int) : chunkKey o i ≠ [] := by
  simp [chunkKey, lit]

theorem slash_mem_hotPath (o : GoString) (v : Int) : slash ∈ hotPath o v := by
  have : slash ∈ lit "hot/" := by decide
  simp [hotPath, this]

theorem slash_not_mem_chunkKey (ho : slash ∉ o) (i : Int) : slash ∉ chunkKey o i := by
  have hname : slash ∉ lit "_cold_chunk_" := by decide
  have hint : slash ∉ formatInt i := not_mem_formatInt (by decide) i
  simp [chunkKey, ho, hname, hint]

theorem hotPath_inj (ho : slash ∉ o) (ho' : slash ∉ o') (h : hotPath o v = hotPath o' v') :
    o = o' ∧ v = v' := by
  unfold hotPath at h
  simp only [List.append_assoc] at h
  obtain ⟨ho, hv⟩ := append_sep_inj ho ho' (List.append_cancel_left h)
  exact ⟨ho, padInt_injective 20 hv⟩

theorem chunkKey_inj (h : chunkKey o i = chunkKey o' i') : o = o' ∧ i = i' := by
  have hsplit : ∀ (o : GoString) (i : Int),
      chunkKey o i = (o ++ lit "_cold_chunk") ++ 95 :: formatInt i := by
    intro o i
    simp [chunkKey, lit]
  have hscore : ∀ i : Int, (95 : UInt8) ∉ formatInt i := fun i => not_mem_formatInt (by decide) i
  rw [hsplit, hsplit] at h
  obtain ⟨ho, hi⟩ := append_sep_inj_right (hscore i) (hscore i') h
  exact ⟨List.append_cancel_right ho, formatInt_injective hi⟩

theorem chunkKey_ne_hotPath (ho : slash ∉ o) : chunkKey o i ≠ hotPath o' v := fun h =>
  slash_not_mem_chunkKey ho i (h ▸ slash_mem_hotPath o' v)

theorem chunkKey_ne_self (o : GoString) (i : Int) : chunkKey o i ≠ o := fun h => by
  have hlen := congrArg List.length h
  simp [chunkKey, lit] at hlen

theorem hotPath_ne_id (ho : slash ∉ o) : hotPath o' v ≠ o := fun h =>
  ho (h ▸ slash_mem_hotPath o' v)

/-- A blob key tells its object. -/
theorem BlobKey.object_eq {k : GoString} (ho : Routable o) (ho' : Routable o') (h : BlobKey o k)
    (h' : BlobKey o' k) : o = o' := by
  rcases h with ⟨v, -, rfl⟩ | ⟨i, rfl⟩ <;> rcases h' with ⟨v', -, h'⟩ | ⟨i', h'⟩
  · exact (hotPath_inj ho.slashFree ho'.slashFree h').1
  · exact absurd h'.symm (chunkKey_ne_hotPath ho'.slashFree)
  · exact absurd h' (chunkKey_ne_hotPath ho.slashFree)
  · exact (chunkKey_inj h').1

theorem trimmed_hotPath (o : GoString) (v : Int) : Trimmed (hotPath o v) := by
  obtain ⟨t, d, hlast, hd⟩ := padInt_last 20 v
  have hfirst : hotPath o v = 104 :: (lit "ot/" ++ o ++ lit "/" ++ padInt 20 v) := rfl
  rw [hfirst]
  refine trimmed_of_ends (t := lit "hot/" ++ o ++ lit "/" ++ t) (by decide) hd ?_
  rw [← hfirst, hotPath, hlast, List.append_assoc _ t [d]]

end Keys

/-! ## Placements -/

/-- The place of a replica. -/
structure ReplicaPlace (o : GoString) (v : Int) (n path : GoString) : Prop where
  version_pos : 0 < v
  node_ne_nil : n ≠ []
  trimmed : Trimmed n
  path_eq : path = hotPath o v

/-- The place of a shard. -/
structure ShardPlace (o : GoString) (i : Int) (n path : GoString) : Prop where
  node_ne_nil : n ≠ []
  path_eq : path = chunkKey o i

/-- Every row of the catalog points to a key of its own object, and versions are positive. -/
structure WellPlaced (c : Catalog) : Prop where
  head : ∀ {o obj}, c.head o = some obj → 0 < obj.currentVersion
  version : ∀ {o v ver}, c.version o v = some ver → 0 < v
  replica : ∀ {o v n r}, c.replica o v n = some r → ReplicaPlace o v n r.path
  shard : ∀ {o v i r}, c.shard o v i = some r → ShardPlace o i r.nodeID r.path

theorem wellPlaced_empty : WellPlaced (catalog SortedMap.empty) where
  head := nofun
  version := nofun
  replica := nofun
  shard := nofun

/-- The changes that the jobs make: what they write is well placed. -/
def PlacesWell : Change → Prop
  | .upsert o v md _ => 0 < v ∧ upsertHotPath o v md = hotPath o v ∧ ∀ n ∈ upsertNodes md, Trimmed n
  | .promote _ o _ _ _ _ locs => ∀ loc ∈ locs, ShardPlace o loc.shardIndex loc.nodeID loc.path
  | .place o v n path => 0 < v ∧ Trimmed n ∧ path = hotPath o v
  | .mark _ _ _ | .pend _ _ | .retire _ _ _ | .purge _ _ | .remove _ => True

section Step

variable {P : GoString → Prop} {c c' : Catalog}

/-- A new head with the version of an old one. -/
theorem WellPlaced.setHead (h : WellPlaced c) {obj : ObjectRecord} (hpos : 0 < obj.currentVersion) :
    WellPlaced (c.setHead obj) where
  head := by
    intro o r hr
    simp only [Catalog.setHead] at hr
    split at hr
    · cases hr
      exact hpos
    · exact h.head hr
  version := h.version
  replica := h.replica
  shard := h.shard

theorem WellPlaced.setReplica (h : WellPlaced c) {r : ReplicaRecord}
    (hr : ReplicaPlace r.objectID r.version r.nodeID r.path) : WellPlaced (c.setReplica r) where
  head := h.head
  version := h.version
  replica := by
    intro o v n r' hr'
    simp only [Catalog.setReplica] at hr'
    split at hr'
    · rename_i heq
      obtain ⟨rfl, rfl, rfl⟩ := heq
      cases hr'
      exact hr
    · exact h.replica hr'
  shard := h.shard

theorem some_of_dropped {α : Type} {p : Prop} [Decidable p] {x : Option α} {r : α}
    (h : (if p then none else x) = some r) : x = some r := by
  split at h
  · cases h
  · exact h

/-- A part of a well placed catalog is well placed. -/
theorem WellPlaced.of_subset (h : WellPlaced c)
    (hhead : ∀ o r, c'.head o = some r → c.head o = some r)
    (hversion : ∀ o v r, c'.version o v = some r → c.version o v = some r)
    (hreplica : ∀ o v n r, c'.replica o v n = some r → c.replica o v n = some r)
    (hshard : ∀ o v i r, c'.shard o v i = some r → c.shard o v i = some r) : WellPlaced c' :=
  ⟨fun hr => h.head (hhead _ _ hr), fun hr => h.version (hversion _ _ _ hr),
    fun hr => h.replica (hreplica _ _ _ _ hr), fun hr => h.shard (hshard _ _ _ _ hr)⟩

theorem WellPlaced.step (hn : c.Named P) (h : WellPlaced c) {ch : Change} (hch : PlacesWell ch)
    (hm : Makes ch c c') : WellPlaced c' := by
  cases hm with
  | upsert o v md now =>
    obtain ⟨hv, hpath, hnodes⟩ := hch
    rw [putAll_upsertRows (fun r hr => (hn.head hr).1)]
    refine ⟨?_, ?_, ?_, h.shard⟩
    · intro o' obj hobj
      dsimp only at hobj
      split at hobj
      · cases hobj
        exact hv
      · exact h.head hobj
    · intro o' v' ver hver
      dsimp only at hver
      split at hver
      · rename_i heq
        exact heq.2 ▸ hv
      · exact h.version hver
    · intro o' v' n r hr
      dsimp only at hr
      split at hr
      · rename_i heq
        obtain ⟨rfl, rfl, hmem⟩ := heq
        cases hr
        have hne : n ≠ [] := by
          unfold upsertNodes at hmem
          split at hmem
          · exact by simpa using (List.mem_filter.mp hmem).2
          · simp at hmem
        exact ⟨hv, hne, hnodes n hmem, hpath⟩
      · exact h.replica hr
  | mark now hobj =>
    have hpos := h.head hobj
    exact h.setHead hpos
  | pend now hobj =>
    have hpos := h.head hobj
    exact h.setHead hpos
  | @promote _ obj ver now o v checksum k m locs _ hobj _ hver =>
    obtain ⟨hid, -⟩ := hn.head hobj
    obtain ⟨hid', hv', -⟩ := hn.version hver
    have hpos := h.head hobj
    rw [putAll_promoteBatch hid hid' hv']
    refine ⟨?_, ?_, h.replica, ?_⟩
    · intro o' obj' hobj'
      dsimp only at hobj'
      split at hobj'
      · cases hobj'
        exact hpos
      · exact h.head hobj'
    · intro o' v' ver' hver'
      dsimp only at hver'
      split at hver'
      · rename_i heq
        exact heq.2 ▸ h.version hver
      · exact h.version hver'
    · intro o' v' i r hr
      dsimp only at hr
      split at hr
      · rename_i heq
        obtain ⟨rfl, rfl⟩ := heq
        cases hlast : lastAt locs i with
        | none =>
          rw [hlast] at hr
          exact h.shard hr
        | some loc =>
          rw [hlast] at hr
          cases hr
          obtain ⟨hmem, rfl⟩ := lastAt_mem hlast
          exact hch loc hmem
      · exact h.shard hr
  | place o v path hnode => exact h.setReplica ⟨hch.1, hnode, hch.2.1, hch.2.2⟩
  | retire hr =>
    obtain ⟨rfl, rfl, rfl, -⟩ := hn.replica hr
    have hplace := h.replica hr
    exact h.setReplica hplace
  | purge _ _ =>
    exact h.of_subset (fun _ _ hr => hr) (fun _ _ _ => some_of_dropped)
      (fun _ _ _ _ => some_of_dropped) fun _ _ _ _ => some_of_dropped
  | remove o =>
    exact h.of_subset (fun _ _ => some_of_dropped) (fun _ _ _ => some_of_dropped)
      (fun _ _ _ _ => some_of_dropped) fun _ _ _ _ => some_of_dropped

end Step

end TieredStore.Cluster
