import TieredStore.Meta.Specs

/-!
# The catalog

What the metadata store is for: an object has a head, versions, and for every version the
placement of its replicas and shards. A `Catalog` is this view, free of keys, batches and
indexes. `catalog` reads it from a store, and a batch on the store is a sequence of catalog
updates (`catalog_applyAll`) when the rows sit at their own keys and the ids are separated.

The index families (tasks and due entries) are invisible here: a batch that only touches them
leaves the catalog unchanged (`catalog_index`).
-/

namespace TieredStore.Meta

open Lib

/-- The placement records of all objects. -/
@[ext] structure Catalog where
  head : GoString → Option ObjectRecord
  version : GoString → Int → Option ObjectVersionRecord
  replica : GoString → Int → GoString → Option ReplicaRecord
  shard : GoString → Int → Int → Option ECShardRecord

namespace Catalog

def setHead (c : Catalog) (r : ObjectRecord) : Catalog :=
  { c with head := fun o => if o = r.objectID then some r else c.head o }

def setVersion (c : Catalog) (r : ObjectVersionRecord) : Catalog :=
  { c with version := fun o v => if o = r.objectID ∧ v = r.version then some r else c.version o v }

def setReplica (c : Catalog) (r : ReplicaRecord) : Catalog :=
  { c with replica := fun o v n =>
      if o = r.objectID ∧ v = r.version ∧ n = r.nodeID then some r else c.replica o v n }

def setShard (c : Catalog) (r : ECShardRecord) : Catalog :=
  { c with shard := fun o v i =>
      if o = r.objectID ∧ v = r.version ∧ i = r.shardIndex then some r else c.shard o v i }

/-- Forget a version with its placements. -/
def dropVersion (c : Catalog) (o : GoString) (v : Int) : Catalog :=
  { c with
    version := fun o' v' => if o' = o ∧ v' = v then none else c.version o' v'
    replica := fun o' v' n => if o' = o ∧ v' = v then none else c.replica o' v' n
    shard := fun o' v' i => if o' = o ∧ v' = v then none else c.shard o' v' i }

/-- Forget an object. -/
def dropObject (c : Catalog) (o : GoString) : Catalog where
  head := fun o' => if o' = o then none else c.head o'
  version := fun o' v => if o' = o then none else c.version o' v
  replica := fun o' v n => if o' = o then none else c.replica o' v n
  shard := fun o' v i => if o' = o then none else c.shard o' v i

/-- The update by a stored row. -/
def put (c : Catalog) : Value → Catalog
  | .object r => c.setHead r
  | .objectVersion r => c.setVersion r
  | .replica r => c.setReplica r
  | .ecShard r => c.setShard r
  | _ => c

/-- The update by the rows that a batch writes. -/
def putAll (c : Catalog) (ws : List KVWrite) : Catalog :=
  ws.foldl (fun c w => match w.value with
    | some v => c.put v
    | none => c) c

@[simp] theorem putAll_nil (c : Catalog) : c.putAll [] = c := rfl

@[simp] theorem putAll_set (c : Catalog) (k : GoString) (v : Value) (ws : List KVWrite) :
    c.putAll (Write.set k v :: ws) = (c.put v).putAll ws := rfl

theorem putAll_append (c : Catalog) (ws ws' : List KVWrite) :
    c.putAll (ws ++ ws') = (c.putAll ws).putAll ws' := List.foldl_append

end Catalog

/-- A replica row as the record of the given fields. -/
def asReplicaOf (o : GoString) (v : Int) (n : GoString) (x : Value) : Option ReplicaRecord :=
  x.asReplica.filter fun r => r.objectID = o ∧ r.version = v ∧ r.nodeID = n

/-- The catalog of a store. -/
def catalog (s : Store) : Catalog where
  head := fun o => (s.get? (tiKVObjectKey o)).bind Value.asObject
  version := fun o v => (s.get? (tiKVObjectVersionKey o v)).bind Value.asObjectVersion
  replica := fun o v n => (s.get? (tiKVReplicaKey o v n)).bind (asReplicaOf o v n)
  shard := fun o v i => (s.get? (tiKVECShardKey o v i)).bind Value.asECShard

theorem asReplicaOf_eq_some {o : GoString} {v : Int} {n : GoString} {x : Value} {r : ReplicaRecord} :
    asReplicaOf o v n x = some r ↔
      x = .replica r ∧ r.objectID = o ∧ r.version = v ∧ r.nodeID = n := by
  unfold asReplicaOf
  rw [Option.filter_eq_some_iff]
  simp

/-! ## Reading the catalog -/

section Read

variable {P : GoString → Prop} {s : Store}

theorem catalog_head {o : GoString} {r : ObjectRecord} :
    (catalog s).head o = some r ↔ s.get? (tiKVObjectKey o) = some (.object r) := by
  simp [catalog, Option.bind_eq_some_iff]

theorem catalog_version {o : GoString} {v : Int} {r : ObjectVersionRecord} :
    (catalog s).version o v = some r ↔
      s.get? (tiKVObjectVersionKey o v) = some (.objectVersion r) := by
  simp [catalog, Option.bind_eq_some_iff]

theorem catalog_shard {o : GoString} {v i : Int} {r : ECShardRecord} :
    (catalog s).shard o v i = some r ↔ s.get? (tiKVECShardKey o v i) = some (.ecShard r) := by
  simp [catalog, Option.bind_eq_some_iff]

theorem catalog_replica {o : GoString} {v : Int} {n : GoString} {r : ReplicaRecord} :
    (catalog s).replica o v n = some r ↔ s.get? (tiKVReplicaKey o v n) = some (.replica r) ∧
      r.objectID = o ∧ r.version = v ∧ r.nodeID = n := by
  simp only [catalog, Option.bind_eq_some_iff, asReplicaOf_eq_some]
  constructor
  · rintro ⟨x, hx, rfl, hf⟩
    exact ⟨hx, hf⟩
  · rintro ⟨hx, hf⟩
    exact ⟨_, hx, rfl, hf⟩

/-- The records of a catalog carry the names under which they are found. -/
structure Catalog.Named (P : GoString → Prop) (c : Catalog) : Prop where
  head : ∀ {o r}, c.head o = some r → r.objectID = o ∧ P o
  version : ∀ {o v r}, c.version o v = some r → r.objectID = o ∧ r.version = v ∧ P o
  replica : ∀ {o v n r}, c.replica o v n = some r →
    r.objectID = o ∧ r.version = v ∧ r.nodeID = n ∧ P o
  shard : ∀ {o v i r}, c.shard o v i = some r →
    r.objectID = o ∧ r.version = v ∧ r.shardIndex = i ∧ P o

theorem Rows.named (hs : Rows P s) : (catalog s).Named P where
  head := by
    intro o r h
    obtain ⟨r', hr', hid, ho⟩ := rowAt_object (hs _ _ (catalog_head.mp h))
    cases hr'
    exact ⟨hid, ho⟩
  version := by
    intro o v r h
    obtain ⟨r', hr', hid, hv, ho⟩ := rowAt_objectVersion (hs _ _ (catalog_version.mp h))
    cases hr'
    exact ⟨hid, hv, ho⟩
  replica := by
    intro o v n r h
    obtain ⟨hget, rfl, rfl, rfl⟩ := catalog_replica.mp h
    exact ⟨rfl, rfl, rfl, (hs _ _ hget).2⟩
  shard := by
    intro o v i r h
    obtain ⟨r', hr', hid, hv, hi, ho⟩ := rowAt_ecShard (hs _ _ (catalog_shard.mp h))
    cases hr'
    exact ⟨hid, hv, hi, ho⟩

/-- The head key holds what the catalog shows. -/
theorem Typed.get_object (hs : Typed s) (o : GoString) :
    s.get? (tiKVObjectKey o) = ((catalog s).head o).map Value.object := by
  cases h : s.get? (tiKVObjectKey o) with
  | none => simp [catalog, h]
  | some x =>
    have hfam := hs _ _ h
    rw [keyFamily_object] at hfam
    cases x with
    | object r =>
      rw [catalog_head.mpr h]
      rfl
    | _ => exact absurd hfam (by simp only [valueFamilies]; decide)

theorem Typed.get_objectVersion (hs : Typed s) (o : GoString) (v : Int) :
    s.get? (tiKVObjectVersionKey o v) = ((catalog s).version o v).map Value.objectVersion := by
  cases h : s.get? (tiKVObjectVersionKey o v) with
  | none => simp [catalog, h]
  | some x =>
    have hfam := hs _ _ h
    rw [keyFamily_objectVersion] at hfam
    cases x with
    | objectVersion r =>
      rw [catalog_version.mpr h]
      rfl
    | _ => exact absurd hfam (by simp only [valueFamilies]; decide)

theorem Rows.get_object (hs : Rows P s) (o : GoString) :
    s.get? (tiKVObjectKey o) = ((catalog s).head o).map Value.object :=
  hs.typed.get_object o

theorem Rows.get_objectVersion (hs : Rows P s) (o : GoString) (v : Int) :
    s.get? (tiKVObjectVersionKey o v) = ((catalog s).version o v).map Value.objectVersion :=
  hs.typed.get_objectVersion o v

theorem Rows.get_replica (hP : Separated P) (hs : Rows P s) {o : GoString} (ho : P o) (v : Int)
    (n : GoString) :
    s.get? (tiKVReplicaKey o v n) = ((catalog s).replica o v n).map Value.replica := by
  cases h : s.get? (tiKVReplicaKey o v n) with
  | none => simp [catalog, h]
  | some x =>
    obtain ⟨r, rfl, hf⟩ := rowAt_replica hP ho (hs _ _ h)
    rw [catalog_replica.mpr ⟨h, hf⟩]
    rfl

end Read

/-! ## Batches -/

section Batch

variable {P : GoString → Prop} {s : Store}

theorem get_apply_of_family {w : KVWrite} {k : GoString} (h : keyFamily w.key ≠ keyFamily k) :
    (s.apply w).get? k = s.get? k := by
  rw [SortedMap.get?_apply, if_neg (ne_of_keyFamily h)]

theorem head_apply_other {w : KVWrite} (h : keyFamily w.key ≠ lit "obj") :
    (catalog (s.apply w)).head = (catalog s).head := by
  funext o
  simp only [catalog]
  rw [get_apply_of_family (by rwa [keyFamily_object])]

theorem version_apply_other {w : KVWrite} (h : keyFamily w.key ≠ lit "objv") :
    (catalog (s.apply w)).version = (catalog s).version := by
  funext o v
  simp only [catalog]
  rw [get_apply_of_family (by rwa [keyFamily_objectVersion])]

theorem replica_apply_other {w : KVWrite} (h : keyFamily w.key ≠ lit "repl") :
    (catalog (s.apply w)).replica = (catalog s).replica := by
  funext o v n
  simp only [catalog]
  rw [get_apply_of_family (by rwa [keyFamily_replica])]

theorem shard_apply_other {w : KVWrite} (h : keyFamily w.key ≠ lit "ec") :
    (catalog (s.apply w)).shard = (catalog s).shard := by
  funext o v i
  simp only [catalog]
  rw [get_apply_of_family (by rwa [keyFamily_ecShard])]

theorem catalog_apply_index {w : KVWrite} (h : IndexKey w.key) :
    catalog (s.apply w) = catalog s :=
  Catalog.ext (head_apply_other (h.family_ne (by decide)))
    (version_apply_other (h.family_ne (by decide)))
    (replica_apply_other (h.family_ne (by decide))) (shard_apply_other (h.family_ne (by decide)))

theorem catalog_index {ws : List KVWrite} (h : ∀ w ∈ ws, IndexKey w.key) :
    catalog (s.applyAll ws) = catalog s := by
  induction ws generalizing s with
  | nil => rfl
  | cons w ws ih =>
    rw [SortedMap.applyAll_cons, ih fun w' hw' => h w' (List.mem_cons_of_mem _ hw'),
      catalog_apply_index (h w List.mem_cons_self)]

/-- Two rows of separated ids under one key have the same fields, so a write under the key of
a row is seen under the fields of that row only. -/
theorem replica_apply (hP : Separated P) (hs : Rows P s) {r : ReplicaRecord} (hr : P r.objectID)
    (o : GoString) (v : Int) (n : GoString) :
    ((s.apply (Write.set (tiKVReplicaKey r.objectID r.version r.nodeID) (.replica r))).get?
        (tiKVReplicaKey o v n)).bind (asReplicaOf o v n) =
      if o = r.objectID ∧ v = r.version ∧ n = r.nodeID then some r
      else (s.get? (tiKVReplicaKey o v n)).bind (asReplicaOf o v n) := by
  rw [SortedMap.get?_apply]
  by_cases hf : o = r.objectID ∧ v = r.version ∧ n = r.nodeID
  · obtain ⟨rfl, rfl, rfl⟩ := hf
    simp [asReplicaOf, Value.asReplica]
  · rw [if_neg hf]
    by_cases hk : tiKVReplicaKey r.objectID r.version r.nodeID = tiKVReplicaKey o v n
    · have hnone : ∀ r' : ReplicaRecord, r'.objectID = r.objectID → r'.version = r.version →
          r'.nodeID = r.nodeID → asReplicaOf o v n (.replica r') = none := by
        intro r' ho hv hn
        rw [Option.eq_none_iff_forall_ne_some]
        intro x hx
        obtain ⟨hrx, ho', hv', hn'⟩ := asReplicaOf_eq_some.mp hx
        cases hrx
        exact hf ⟨ho'.symm.trans ho, hv'.symm.trans hv, hn'.symm.trans hn⟩
      rw [Write.key_set, if_pos hk, Write.value_set, Option.bind_some, hnone r rfl rfl rfl]
      cases hget : s.get? (tiKVReplicaKey o v n) with
      | none => rfl
      | some x =>
        rw [← hk] at hget
        obtain ⟨r', rfl, ho, hv, hn⟩ := rowAt_replica hP hr (hs _ _ hget)
        rw [Option.bind_some, hnone r' ho hv hn]
    · rw [Write.key_set, if_neg hk]

/-- Writing a row at its own key updates the catalog by that row. -/
theorem catalog_apply_set (hP : Separated P) (hs : Rows P s) {k : GoString} {x : Value}
    (hrow : RowAt P k x) : catalog (s.apply (Write.set k x)) = (catalog s).put x := by
  have hindex : (∀ f ∈ valueFamilies x, f ∈ indexFamilies) → IndexKey k :=
    fun h => h _ hrow.keyFamily_mem
  cases x with
  | object r =>
    obtain rfl := hrow.1
    refine Catalog.ext ?_ (version_apply_other ?_) (replica_apply_other ?_) (shard_apply_other ?_)
    · funext o
      simp only [catalog, Catalog.put, Catalog.setHead, SortedMap.get?_apply, Write.key_set,
        Write.value_set, tiKVObjectKey_inj, eq_comm (a := o)]
      split <;> rfl
    all_goals
      rw [Write.key_set, keyFamily_object]
      decide
  | objectVersion r =>
    obtain rfl := hrow.1
    refine Catalog.ext (head_apply_other ?_) ?_ (replica_apply_other ?_) (shard_apply_other ?_)
    rotate_left
    · funext o v
      simp only [catalog, Catalog.put, Catalog.setVersion, SortedMap.get?_apply, Write.key_set,
        Write.value_set, tiKVObjectVersionKey_inj, eq_comm (a := o), eq_comm (a := v)]
      split <;> rfl
    all_goals
      rw [Write.key_set, keyFamily_objectVersion]
      decide
  | replica r =>
    obtain rfl := hrow.1
    refine Catalog.ext (head_apply_other ?_) (version_apply_other ?_) ?_ (shard_apply_other ?_)
    rotate_left 2
    · funext o v n
      exact replica_apply hP hs hrow.2 o v n
    all_goals
      rw [Write.key_set, keyFamily_replica]
      decide
  | ecShard r =>
    obtain rfl := hrow.1
    refine Catalog.ext (head_apply_other ?_) (version_apply_other ?_) (replica_apply_other ?_) ?_
    rotate_left 3
    · funext o v i
      simp only [catalog, Catalog.put, Catalog.setShard, SortedMap.get?_apply, Write.key_set,
        Write.value_set, tiKVECShardKey_inj, eq_comm (a := o), eq_comm (a := v), eq_comm (a := i)]
      split <;> rfl
    all_goals
      rw [Write.key_set, keyFamily_ecShard]
      decide
  | task r => exact catalog_apply_index (hindex (by simp only [valueFamilies]; decide))
  | tierDue r => exact catalog_apply_index (hindex (by simp only [valueFamilies]; decide))
  | tierDueRef r => exact catalog_apply_index (hindex (by simp only [valueFamilies]; decide))
  | mark => exact catalog_apply_index (hindex (by simp only [valueFamilies]; decide))

/-- A batch whose rows sit at their own keys and that deletes index keys only updates the
catalog by its rows. -/
theorem catalog_applyAll (hP : Separated P) (hs : Rows P s) {ws : List KVWrite}
    (hw : WriteRows P ws) (hdel : ∀ w ∈ ws, w.value = none → IndexKey w.key) :
    catalog (s.applyAll ws) = (catalog s).putAll ws := by
  induction ws generalizing s with
  | nil => rfl
  | cons w ws ih =>
    have hrow : ∀ v, w.value = some v → RowAt P w.key v := hw w List.mem_cons_self
    have hrest : WriteRows P ws := fun w' hw' => hw w' (List.mem_cons_of_mem _ hw')
    have hdel' : ∀ w' ∈ ws, w'.value = none → IndexKey w'.key :=
      fun w' hw' => hdel w' (List.mem_cons_of_mem _ hw')
    have hs' : Rows P (s.applyAll [w]) :=
      hs.applyAll fun w' hw' => hw w' (by simpa using Or.inl (List.mem_singleton.mp hw'))
    rw [SortedMap.applyAll_cons]
    rw [SortedMap.applyAll_cons, SortedMap.applyAll_nil] at hs'
    rw [ih hs' hrest hdel']
    cases w with
    | mk k x =>
      cases x with
      | none =>
        rw [catalog_apply_index (hdel _ List.mem_cons_self rfl)]
        rfl
      | some v =>
        have := catalog_apply_set hP hs (hrow v rfl)
        rw [show (⟨k, some v⟩ : KVWrite) = Write.set k v from rfl, this]
        rfl

/-! ## Deletions -/

/-- The batch deletes exactly the rows of the objects `goneHead` and of the versions `gone`. -/
structure DropsRows (s : Store) (ws : List KVWrite) (goneHead : GoString → Prop)
    (gone : GoString → Int → Prop) : Prop where
  deletes : ∀ w ∈ ws, w.value = none
  head : ∀ r, s.get? (tiKVObjectKey r.objectID) = some (.object r) →
    ((∃ w ∈ ws, w.key = tiKVObjectKey r.objectID) ↔ goneHead r.objectID)
  version : ∀ r, s.get? (tiKVObjectVersionKey r.objectID r.version) = some (.objectVersion r) →
    ((∃ w ∈ ws, w.key = tiKVObjectVersionKey r.objectID r.version) ↔ gone r.objectID r.version)
  replica : ∀ r, s.get? (tiKVReplicaKey r.objectID r.version r.nodeID) = some (.replica r) →
    ((∃ w ∈ ws, w.key = tiKVReplicaKey r.objectID r.version r.nodeID) ↔
      gone r.objectID r.version)
  shard : ∀ r, s.get? (tiKVECShardKey r.objectID r.version r.shardIndex) = some (.ecShard r) →
    ((∃ w ∈ ws, w.key = tiKVECShardKey r.objectID r.version r.shardIndex) ↔
      gone r.objectID r.version)

theorem bind_deletes {α : Type} {ws : List KVWrite} (hdel : ∀ w ∈ ws, w.value = none)
    {k : GoString} {f : Value → Option α} {gone : Prop} [Decidable gone]
    (h : ∀ x r, s.get? k = some x → f x = some r → ((∃ w ∈ ws, w.key = k) ↔ gone)) :
    ((s.applyAll ws).get? k).bind f = if gone then none else (s.get? k).bind f := by
  classical
  rw [SortedMap.get?_applyAll_deletes hdel]
  cases hx : s.get? k with
  | none => simp
  | some x =>
    cases hr : f x with
    | none =>
      simp only [Option.bind_some, hr, ite_self]
      split <;> simp [hr]
    | some r =>
      rw [if_congr (h x r hx hr) rfl rfl]
      split <;> simp

theorem DropsRows.catalog_eq {ws : List KVWrite} {goneHead : GoString → Prop}
    [DecidablePred goneHead] {gone : GoString → Int → Prop} [∀ o v, Decidable (gone o v)] (hs : Rows P s) (h : DropsRows s ws goneHead gone) :
    catalog (s.applyAll ws) =
      { head := fun o => if goneHead o then none else (catalog s).head o
        version := fun o v => if gone o v then none else (catalog s).version o v
        replica := fun o v n => if gone o v then none else (catalog s).replica o v n
        shard := fun o v i => if gone o v then none else (catalog s).shard o v i } := by
  apply Catalog.ext
  · funext o
    refine bind_deletes h.deletes ?_
    intro x r hx hr
    rw [Value.asObject_eq_some] at hr
    subst hr
    obtain ⟨r', hr', rfl, -⟩ := rowAt_object (hs _ _ hx)
    cases hr'
    exact h.head r hx
  · funext o v
    refine bind_deletes h.deletes ?_
    intro x r hx hr
    rw [Value.asObjectVersion_eq_some] at hr
    subst hr
    obtain ⟨r', hr', rfl, rfl, -⟩ := rowAt_objectVersion (hs _ _ hx)
    cases hr'
    exact h.version r hx
  · funext o v n
    refine bind_deletes h.deletes ?_
    intro x r hx hr
    obtain ⟨rfl, rfl, rfl, rfl⟩ := asReplicaOf_eq_some.mp hr
    exact h.replica r hx
  · funext o v i
    refine bind_deletes h.deletes ?_
    intro x r hx hr
    rw [Value.asECShard_eq_some] at hr
    subst hr
    obtain ⟨r', hr', rfl, rfl, rfl, -⟩ := rowAt_ecShard (hs _ _ hx)
    cases hr'
    exact h.shard r hx

theorem DropsRows.catalog_version {ws : List KVWrite} {o : GoString} {v : Int} (hs : Rows P s)
    (h : DropsRows s ws (fun _ => False) (fun o' v' => o' = o ∧ v' = v)) :
    catalog (s.applyAll ws) = (catalog s).dropVersion o v := h.catalog_eq hs

theorem DropsRows.catalog_object {ws : List KVWrite} {o : GoString} (hs : Rows P s)
    (h : DropsRows s ws (fun o' => o' = o) (fun o' _ => o' = o)) :
    catalog (s.applyAll ws) = (catalog s).dropObject o := h.catalog_eq hs

theorem DropsRows.rows {ws : List KVWrite} {goneHead : GoString → Prop}
    {gone : GoString → Int → Prop} (h : DropsRows s ws goneHead gone) : WriteRows P ws := by
  intro w hw x hx
  rw [h.deletes w hw] at hx
  cases hx

end Batch

end TieredStore.Meta
