import TieredStore.Meta.KV

/-!
# Rows at their own keys

Every row of the store sits at the key built from its own fields (`RowAt`), and the due
reference of a version names the due key built from the reference's own fields. `Rows` is
this invariant of a store, for rows whose object ids satisfy a given predicate.

From it come the typed readings of keys and scans: a value read at an object key is the
head of that object (`rowAt_object`), and the rows of a version scan are rows of that
version (`Rows.replica_scan`).
-/

namespace TieredStore.Meta

open Lib

/-- A row sits at its own key. -/
def RowAt (P : GoString → Prop) (k : GoString) : Value → Prop
  | .object r => k = tiKVObjectKey r.objectID ∧ P r.objectID
  | .objectVersion r => k = tiKVObjectVersionKey r.objectID r.version ∧ P r.objectID
  | .replica r => k = tiKVReplicaKey r.objectID r.version r.nodeID ∧ P r.objectID
  | .ecShard r => k = tiKVECShardKey r.objectID r.version r.shardIndex ∧ P r.objectID
  | .task r => k = tiKVTaskKey r.taskID
  | .tierDue r => k = tiKVTierDueKey r.eligibleAt r.objectID r.version ∧ P r.objectID
  | .tierDueRef r => k = tiKVTierDueRefKey r.objectID r.version ∧ P r.objectID ∧
      r.dueKey = tiKVTierDueKey r.eligibleAt r.objectID r.version
  | .mark => keyFamily k = lit "task_ready" ∨ keyFamily k = lit "task_wait" ∨
      keyFamily k = lit "task_terminal"

/-- The store keeps its rows at their own keys. -/
def Rows (P : GoString → Prop) (s : Store) : Prop :=
  ∀ k v, s.get? k = some v → RowAt P k v

/-- Every row a batch writes sits at its own key. -/
def WriteRows (P : GoString → Prop) (ws : List KVWrite) : Prop :=
  ∀ w ∈ ws, ∀ v, w.value = some v → RowAt P w.key v

variable {P : GoString → Prop} {s : Store}

instance [DecidablePred P] (k : GoString) : (v : Value) → Decidable (RowAt P k v)
  | .object _ | .objectVersion _ | .replica _ | .ecShard _ | .tierDue _ =>
    inferInstanceAs (Decidable (_ ∧ _))
  | .tierDueRef _ => inferInstanceAs (Decidable (_ ∧ _ ∧ _))
  | .task _ => inferInstanceAs (Decidable (_ = _))
  | .mark => inferInstanceAs (Decidable (_ ∨ _ ∨ _))

theorem rows_iff_entries : Rows P s ↔ ∀ e ∈ s.entries, RowAt P e.1 e.2 :=
  ⟨fun h _ he => h _ _ (SortedMap.get?_of_mem_entries he),
    fun h k v hget => h (k, v) (SortedMap.mem_entries.mpr hget)⟩

theorem Rows.mono {Q : GoString → Prop} (hs : Rows P s) (hPQ : ∀ o, P o → Q o) : Rows Q s := by
  intro k v h
  have hrow := hs k v h
  cases v with
  | task r => exact hrow
  | mark => exact hrow
  | tierDueRef r => exact ⟨hrow.1, hPQ _ hrow.2.1, hrow.2.2⟩
  | _ => exact ⟨hrow.1, hPQ _ hrow.2⟩

theorem rows_empty : Rows P SortedMap.empty := fun _ _ h => by cases h

theorem Rows.applyAll {ws : List KVWrite} (hs : Rows P s) (hw : WriteRows P ws) :
    Rows P (s.applyAll ws) := by
  intro k v h
  rcases SortedMap.get?_applyAll_cases h with hmem | hold
  · exact hw _ hmem v rfl
  · exact hs k v hold

theorem WriteRows.append {ws ws' : List KVWrite} (h : WriteRows P ws) (h' : WriteRows P ws') :
    WriteRows P (ws ++ ws') := List.forall_mem_append.mpr ⟨h, h'⟩

theorem writeRows_singleton {k : GoString} {x : Value} (h : RowAt P k x) :
    WriteRows P [Write.set k x] := by
  refine List.forall_mem_singleton.mpr fun y hy => ?_
  cases hy
  exact h

/-- Deletions write no rows. -/
theorem writeRows_deletes {ws : List KVWrite} (h : ∀ w ∈ ws, w.value = none) : WriteRows P ws := by
  intro w hw x hx
  rw [h w hw] at hx
  cases hx

theorem writeRows_del (k : GoString) : WriteRows P [Write.del k] :=
  writeRows_deletes (List.forall_mem_singleton.mpr rfl)

/-! ## Typed reads -/

/-- The families in which a value can be stored. -/
def valueFamilies : Value → List GoString
  | .object _ => [lit "obj"]
  | .objectVersion _ => [lit "objv"]
  | .replica _ => [lit "repl"]
  | .ecShard _ => [lit "ec"]
  | .task _ => [lit "task"]
  | .tierDue _ => [lit "tdue"]
  | .tierDueRef _ => [lit "tdue_ref"]
  | .mark => [lit "task_ready", lit "task_wait", lit "task_terminal"]

theorem RowAt.keyFamily_mem {k : GoString} {v : Value} (h : RowAt P k v) :
    keyFamily k ∈ valueFamilies v := by
  cases v with
  | object r => simp [valueFamilies, h.1]
  | objectVersion r => simp [valueFamilies, h.1]
  | replica r => simp [valueFamilies, h.1]
  | ecShard r => simp [valueFamilies, h.1]
  | task r =>
    have hk : k = tiKVTaskKey r.taskID := h
    simp [valueFamilies, hk]
  | tierDue r => simp [valueFamilies, h.1]
  | tierDueRef r => simp [valueFamilies, h.1]
  | mark =>
    simp only [valueFamilies, List.mem_cons, List.not_mem_nil, or_false]
    exact h

/-- Every key holds a value of its family. -/
def Typed (s : Store) : Prop := ∀ k v, s.get? k = some v → keyFamily k ∈ valueFamilies v

theorem Rows.typed (hs : Rows P s) : Typed s := fun k v h => (hs k v h).keyFamily_mem

theorem rowAt_object {o : GoString} {v : Value} (h : RowAt P (tiKVObjectKey o) v) :
    ∃ r, v = .object r ∧ r.objectID = o ∧ P o := by
  have hf := h.keyFamily_mem
  rw [keyFamily_object] at hf
  cases v with
  | object r =>
    obtain rfl := tiKVObjectKey_inj.mp h.1
    exact ⟨r, rfl, rfl, h.2⟩
  | _ => exact absurd hf (by simp only [valueFamilies]; decide)

theorem rowAt_objectVersion {o : GoString} {n : Int} {v : Value}
    (h : RowAt P (tiKVObjectVersionKey o n) v) :
    ∃ r, v = .objectVersion r ∧ r.objectID = o ∧ r.version = n ∧ P o := by
  have hf := h.keyFamily_mem
  rw [keyFamily_objectVersion] at hf
  cases v with
  | objectVersion r =>
    obtain ⟨rfl, rfl⟩ := tiKVObjectVersionKey_inj.mp h.1
    exact ⟨r, rfl, rfl, rfl, h.2⟩
  | _ => exact absurd hf (by simp only [valueFamilies]; decide)

theorem rowAt_replica (hP : Separated P) {o : GoString} (ho : P o) {n : Int} {node : GoString}
    {v : Value} (h : RowAt P (tiKVReplicaKey o n node) v) :
    ∃ r, v = .replica r ∧ r.objectID = o ∧ r.version = n ∧ r.nodeID = node := by
  have hf := h.keyFamily_mem
  rw [keyFamily_replica] at hf
  cases v with
  | replica r =>
    obtain ⟨rfl, rfl, rfl⟩ := (tiKVReplicaKey_inj hP ho h.2).mp h.1
    exact ⟨r, rfl, rfl, rfl, rfl⟩
  | _ => exact absurd hf (by simp only [valueFamilies]; decide)

theorem rowAt_ecShard {o : GoString} {n i : Int} {v : Value}
    (h : RowAt P (tiKVECShardKey o n i) v) :
    ∃ r, v = .ecShard r ∧ r.objectID = o ∧ r.version = n ∧ r.shardIndex = i ∧ P o := by
  have hf := h.keyFamily_mem
  rw [keyFamily_ecShard] at hf
  cases v with
  | ecShard r =>
    obtain ⟨rfl, rfl, rfl⟩ := tiKVECShardKey_inj.mp h.1
    exact ⟨r, rfl, rfl, rfl, rfl, h.2⟩
  | _ => exact absurd hf (by simp only [valueFamilies]; decide)

theorem rowAt_task {t : GoString} {v : Value} (h : RowAt P (tiKVTaskKey t) v) :
    ∃ r, v = .task r ∧ r.taskID = t := by
  have hf := h.keyFamily_mem
  rw [keyFamily_task] at hf
  cases v with
  | task r =>
    obtain rfl := tiKVTaskKey_inj.mp h
    exact ⟨r, rfl, rfl⟩
  | _ => exact absurd hf (by simp only [valueFamilies]; decide)

theorem rowAt_tierDueRef {o : GoString} {n : Int} {v : Value}
    (h : RowAt P (tiKVTierDueRefKey o n) v) :
    ∃ r, v = .tierDueRef r ∧ r.objectID = o ∧ r.version = n ∧ P o ∧
      keyFamily r.dueKey = lit "tdue" := by
  have hf := h.keyFamily_mem
  rw [keyFamily_tierDueRef] at hf
  cases v with
  | tierDueRef r =>
    obtain ⟨rfl, rfl⟩ := tiKVTierDueRefKey_inj.mp h.1
    exact ⟨r, rfl, rfl, rfl, h.2.1, by rw [h.2.2, keyFamily_tierDue]⟩
  | _ => exact absurd hf (by simp only [valueFamilies]; decide)

/-! ## Index keys -/

/-- The families of the indexes: tasks, due entries and their references. -/
def indexFamilies : List GoString :=
  [lit "task", lit "task_ready", lit "task_wait", lit "task_terminal", lit "tdue", lit "tdue_ref"]

/-- A key of an index. -/
def IndexKey (k : GoString) : Prop := keyFamily k ∈ indexFamilies

theorem indexKey_of_family {k f : GoString} (hk : keyFamily k = f) (hf : f ∈ indexFamilies) :
    IndexKey k := by
  unfold IndexKey
  rwa [hk]

theorem IndexKey.family_ne {k f : GoString} (h : IndexKey k) (hf : f ∉ indexFamilies) :
    keyFamily k ≠ f := by
  rintro rfl
  exact hf h

/-- A batch that touches indexes only. -/
structure IndexWrites (P : GoString → Prop) (ws : List KVWrite) : Prop where
  rows : WriteRows P ws
  keys : ∀ w ∈ ws, IndexKey w.key

theorem indexWrites_nil : IndexWrites P [] := ⟨fun _ h => by simp at h, fun _ h => by simp at h⟩

theorem IndexWrites.append {ws ws' : List KVWrite} (h : IndexWrites P ws)
    (h' : IndexWrites P ws') : IndexWrites P (ws ++ ws') :=
  ⟨h.rows.append h'.rows, List.forall_mem_append.mpr ⟨h.keys, h'.keys⟩⟩

theorem indexWrites_del {k : GoString} (hk : IndexKey k) : IndexWrites P [Write.del k] :=
  ⟨writeRows_del k, List.forall_mem_singleton.mpr hk⟩

theorem indexWrites_set {k : GoString} {x : Value} (hk : IndexKey k) (hrow : RowAt P k x) :
    IndexWrites P [Write.set k x] :=
  ⟨writeRows_singleton hrow, List.forall_mem_singleton.mpr hk⟩

/-! ## What a key of a store holds -/

theorem Rows.object_found (hs : Rows P s) (o : GoString) : ∃ found : Option ObjectRecord,
    s.get? (tiKVObjectKey o) = found.map Value.object ∧ ∀ r, found = some r → r.objectID = o := by
  cases h : s.get? (tiKVObjectKey o) with
  | none => exact ⟨none, rfl, fun r hr => by cases hr⟩
  | some v =>
    obtain ⟨r, rfl, hid, -⟩ := rowAt_object (hs _ _ h)
    refine ⟨some r, rfl, ?_⟩
    rintro r' hr'
    cases hr'
    exact hid

theorem Rows.tierDueRef_found (hs : Rows P s) (o : GoString) (n : Int) :
    ∃ ref : Option TierDueRefRecord, s.get? (tiKVTierDueRefKey o n) = ref.map Value.tierDueRef ∧
      ∀ r, ref = some r → keyFamily r.dueKey = lit "tdue" := by
  cases h : s.get? (tiKVTierDueRefKey o n) with
  | none => exact ⟨none, rfl, fun r hr => by cases hr⟩
  | some v =>
    obtain ⟨r, rfl, -, -, -, hkey⟩ := rowAt_tierDueRef (hs _ _ h)
    refine ⟨some r, rfl, ?_⟩
    rintro r' hr'
    cases hr'
    exact hkey

end TieredStore.Meta
