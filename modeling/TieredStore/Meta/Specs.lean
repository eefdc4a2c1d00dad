import TieredStore.Meta.Policy
import TieredStore.Meta.Rows

/-!
# What the repository functions do

One lemma for each building block: what a transaction wants to write, what a program answers
when it runs alone, and which batches it commits.
-/

namespace TieredStore.Meta

open Lib Lib.Prog

/-! ## Transactions -/

namespace Txn

variable {s : Store} {ws : List KVWrite}

@[simp] theorem run_get (k : GoString) :
    (Txn.get k).run (step s) ws = (.ok ((s.applyAll ws).get? k), ws) := rfl

@[simp] theorem run_set (k : GoString) (v : Value) :
    (Txn.set k v).run (step s) ws = (.ok (), ws ++ [Write.set k v]) := rfl

@[simp] theorem run_delete (k : GoString) :
    (Txn.delete k).run (step s) ws = (.ok (), ws ++ [Write.del k]) := rfl

theorem run_txnGetJSON {α : Type} (decode : Value → Option α) (enc : α → Value) {k : GoString}
    (henc : ∀ a, decode (enc a) = some a) {found : Option α}
    (h : (s.applyAll ws).get? k = found.map enc) :
    (txnGetJSON decode k).run (step s) ws = (.ok found, ws) := by
  unfold txnGetJSON
  rw [run_bind, run_get, h]
  cases found with
  | none => rfl
  | some a => simp [henc]

theorem run_forM_writes {β : Type} (f : β → Txn Unit) (g : β → List KVWrite)
    (h : ∀ b ws, (f b).run (step s) ws = (.ok (), ws ++ g b)) (l : List β) (ws : List KVWrite) :
    (l.forM f).run (step s) ws = (.ok (), ws ++ l.flatMap g) := by
  induction l generalizing ws with
  | nil => simp
  | cons b l ih =>
    change (f b >>= fun _ => l.forM f).run (step s) ws = _
    rw [run_bind, h, andThen_ok, ih]
    simp

theorem effect_eq {α : Type} {body : Txn α} {a : α} (h : body.run (step s) [] = (.ok a, ws)) :
    body.effect s = .ok (a, ws) := by
  unfold effect
  rw [h]

end Txn

/-! ## Programs that run alone -/

section Solo

variable {α β : Type} {I : Store → Prop} {R : Store → Store → Prop} {s : Store}
  {Q : Except GoError β → Store → Prop}

/-- The monitor of a program whose key-value steps nothing interrupts. -/
abbrev solo (I : Store → Prop) (R : Store → Store → Prop) : Monitor KVOp KVRes Store :=
  stepMonitor kvHandler I R

theorem solo_getJSON {decode : Value → Option α} {enc : α → Value} {k : GoString}
    {found : Option α} {f : Option α → KV β} (hs : I s)
    (hget : s.get? k = found.map enc) (henc : ∀ a, decode (enc a) = some a)
    (hf : (f found).Obeys (solo I R) Q s) : (getJSON decode k >>= f).Obeys (solo I R) Q s := by
  rw [getJSON_eq]
  refine obeys_step_call hs (Or.inl rfl) ?_
  change (decodeRow decode k (s.get? k) >>= f).Obeys _ _ s
  rw [hget]
  cases found with
  | none => exact hf
  | some a =>
    simp only [Option.map_some, decodeRow, henc]
    exact hf

theorem solo_getJSON_attempt {decode : Value → Option α} {enc : α → Value} {k : GoString}
    {found : Option α} {f : Except GoError (Option α) → KV β} (hs : I s)
    (hget : s.get? k = found.map enc) (henc : ∀ a, decode (enc a) = some a)
    (hf : (f (.ok found)).Obeys (solo I R) Q s) :
    ((getJSON decode k).attempt >>= f).Obeys (solo I R) Q s := by
  rw [getJSON_eq]
  refine obeys_step_call hs (Or.inl rfl) ?_
  change ((decodeRow decode k (s.get? k)).attempt >>= f).Obeys _ _ s
  rw [hget]
  cases found with
  | none => exact hf
  | some a =>
    simp only [Option.map_some, decodeRow, henc]
    exact hf

theorem solo_iter {pre : GoString} {f : List (GoString × Value) → KV β} (hs : I s)
    (hf : (f (prefixEntries s pre)).Obeys (solo I R) Q s) :
    (KV.newPrefixIter pre >>= f).Obeys (solo I R) Q s := by
  refine obeys_step_call hs (Or.inl rfl) ?_
  change (f (iterate s pre (tiKVPrefixUpperBound pre))).Obeys _ _ _
  rwa [iterate_upperBound]

theorem solo_commit {ws : List KVWrite} {f : Unit → KV β} (hs : I (s.applyAll ws))
    (hR : R s (s.applyAll ws)) (hf : (f ()).Obeys (solo I R) Q (s.applyAll ws)) :
    (KV.commit ws >>= f).Obeys (solo I R) Q s := by
  cases ws with
  | nil => exact hf
  | cons w ws => exact obeys_step_call hs (Or.inr hR) hf

theorem solo_commit_last {ws : List KVWrite} {Q : Except GoError Unit → Store → Prop}
    (hs : I (s.applyAll ws)) (hR : R s (s.applyAll ws)) (hQ : Q (.ok ()) (s.applyAll ws)) :
    (KV.commit ws).Obeys (solo I R) Q s := by
  rw [← bind_pure (KV.commit ws)]
  exact solo_commit hs hR hQ

theorem solo_txn {body : Txn (Option TaskRecord)} {a : Option TaskRecord} {ws : List KVWrite}
    {f : Option TaskRecord → KV β} (heff : body.effect s = .ok (a, ws)) (hs : I (s.applyAll ws))
    (hR : R s (s.applyAll ws)) (hf : (f a).Obeys (solo I R) Q (s.applyAll ws)) :
    (KV.runInTxn body >>= f).Obeys (solo I R) Q s := by
  have hstep : kvHandler (.txn body) s = (.ok a, s.applyAll ws) := by
    simp only [kvHandler, heff]
  refine obeys_step_call ?_ ?_ ?_
  · rw [hstep]
    exact hs
  · rw [hstep]
    exact Or.inr hR
  · rw [hstep]
    exact hf

theorem solo_txn_attempt {body : Txn (Option TaskRecord)} {a : Option TaskRecord}
    {ws : List KVWrite} {f : Except GoError (Option TaskRecord) → KV β}
    (heff : body.effect s = .ok (a, ws)) (hs : I (s.applyAll ws)) (hR : R s (s.applyAll ws))
    (hf : (f (.ok a)).Obeys (solo I R) Q (s.applyAll ws)) :
    ((KV.runInTxn body).attempt >>= f).Obeys (solo I R) Q s := by
  have hstep : kvHandler (.txn body) s = (.ok a, s.applyAll ws) := by
    simp only [kvHandler, heff]
  refine obeys_step_call ?_ ?_ ?_
  · rw [hstep]
    exact hs
  · rw [hstep]
    exact Or.inr hR
  · rw [hstep]
    exact hf

end Solo

/-! ## Claim of a task -/

section Claim

variable {s : Store} {raw ty id : GoString} {now : Time} {rec : TaskRecord}

/-- What a claim writes for the row it found. -/
def claimWrites (raw id : GoString) (now : Time) (rec : TaskRecord) : List KVWrite :=
  [Write.set (tiKVTaskKey id) (.task (claimedRecord rec now))] ++
  (if raw ≠ [] then [Write.del raw] else []) ++
  [Write.del (taskReadyIndexKey rec), Write.del (taskWaitIndexKey rec)]

theorem claimTxn_effect_absent (h : s.get? (tiKVTaskKey id) = none) :
    (claimTxn raw ty id now).effect s = .ok (none, if raw ≠ [] then [Write.del raw] else []) := by
  apply Txn.effect_eq
  unfold claimTxn
  rw [run_bind, Txn.run_get, SortedMap.applyAll_nil, h, andThen_ok]
  dsimp only
  split
  · rfl
  · rfl

/-- The row as the claim reads it: a row without an id takes the one of its key. -/
def namedRecord (id : GoString) (rec : TaskRecord) : TaskRecord :=
  { rec with taskID := if rec.taskID = [] then id else rec.taskID }

theorem claimTxn_effect_row (h : s.get? (tiKVTaskKey id) = some (.task rec)) :
    (claimTxn raw ty id now).effect s = if claimable ty now (namedRecord id rec) = false then
        .ok (none, [])
      else .ok (some (claimedRecord (namedRecord id rec) now),
        claimWrites raw id now (namedRecord id rec)) := by
  have hrun : (claimTxn raw ty id now).run (Txn.step s) [] =
      if claimable ty now (namedRecord id rec) = false then (.ok none, [])
      else (.ok (some (claimedRecord (namedRecord id rec) now)),
        claimWrites raw id now (namedRecord id rec)) := by
    unfold claimTxn claimWrites
    rw [run_bind, Txn.run_get, SortedMap.applyAll_nil, h, andThen_ok]
    change (ite (claimable ty now (namedRecord id rec) = false) _ _ : Txn _).run _ _ = _
    split
    · rfl
    · by_cases hraw : raw = [] <;> simp only [hraw, ne_eq, not_true_eq_false, not_false_eq_true,
        if_true, if_false] <;> rfl
  unfold Txn.effect
  rw [hrun]
  cases claimable ty now (namedRecord id rec) <;> rfl

theorem claimTxn_effect_other {x : Value} (h : s.get? (tiKVTaskKey id) = some x)
    (hx : x.asTask = none) : ∃ e, (claimTxn raw ty id now).effect s = .error e := by
  refine ⟨lit "decode task record for cas claim failed", ?_⟩
  have hrun : (claimTxn raw ty id now).run (Txn.step s) [] =
      (.error (lit "decode task record for cas claim failed"), []) := by
    unfold claimTxn
    rw [run_bind, Txn.run_get, SortedMap.applyAll_nil, h, andThen_ok]
    dsimp only
    rw [hx]
    rfl
  unfold Txn.effect
  rw [hrun]

end Claim

/-! ## Commit of an object -/

/-- The replica rows of a commit. -/
def upsertReplicas (objectID : GoString) (version : Int) (metadata : Metadata) : List KVWrite :=
  if resolveTier metadata = .hot then
    (toStringSlice (metadata.get (lit "replica_nodes"))).flatMap fun nodeID =>
      if nodeID = [] then []
      else [Write.set (tiKVReplicaKey objectID version nodeID)
        (.replica ⟨objectID, version, nodeID, upsertHotPath objectID version metadata, .active⟩)]
  else []

/-- The due-index writes for a version. -/
def dueUpsert (cfg : Config) (objectID : GoString) (version : Int) (tier : Tier)
    (sizeBytes : Int) (now : Time) (ref : Option TierDueRefRecord) : List KVWrite :=
  dueRemoval objectID version ref ++
    if tier = .hot then
      (dueIndexEntry objectID version sizeBytes now
        (now + Time.seconds cfg.ageThresholdSec)).map fun e => Write.set e.1 e.2
    else []

/-- The rows of a commit. -/
def upsertRows (objectID : GoString) (version : Int) (metadata : Metadata) (now : Time)
    (found : Option ObjectRecord) : List KVWrite :=
  [Write.set (tiKVObjectKey objectID)
      (.object (upsertHead objectID version (resolveState metadata) now found)),
    Write.set (tiKVObjectVersionKey objectID version)
      (.objectVersion (upsertVersion objectID version metadata now))] ++
  upsertReplicas objectID version metadata

/-- What a commit writes, from the head and the due reference it finds. -/
def upsertWrites (cfg : Config) (objectID : GoString) (version : Int) (metadata : Metadata)
    (now : Time) (found : Option ObjectRecord) (ref : Option TierDueRefRecord) : List KVWrite :=
  upsertRows objectID version metadata now found ++
  if dueIndexAsync cfg metadata then []
  else dueUpsert cfg objectID version (resolveTier metadata)
    (upsertVersion objectID version metadata now).sizeBytes now ref

theorem run_removeTieringDueIndexByVersionTxn {s : Store} {ws : List KVWrite} {o : GoString}
    {v : Int} {ref : Option TierDueRefRecord}
    (h : (s.applyAll ws).get? (tiKVTierDueRefKey o v) = ref.map Value.tierDueRef) :
    (removeTieringDueIndexByVersionTxn o v).run (Txn.step s) ws =
      (.ok (), ws ++ dueRemoval o v ref) := by
  unfold removeTieringDueIndexByVersionTxn
  rw [run_bind, Txn.run_txnGetJSON Value.asTierDueRef Value.tierDueRef (fun _ => rfl) h, andThen_ok]
  cases ref with
  | none => simp [dueRemoval]
  | some ref =>
    by_cases hk : ref.dueKey = [] <;> simp [run_bind, dueRemoval, hk]

theorem run_upsertTieringDueIndexTxn {cfg : Config} {s : Store} {ws : List KVWrite} {o : GoString}
    {v : Int} {tier : Tier} {size : Int} {now : Time} {ref : Option TierDueRefRecord}
    (h : (s.applyAll ws).get? (tiKVTierDueRefKey o v) = ref.map Value.tierDueRef) :
    (upsertTieringDueIndexTxn cfg o v tier size now).run (Txn.step s) ws =
      (.ok (), ws ++ dueUpsert cfg o v tier size now ref) := by
  unfold upsertTieringDueIndexTxn dueUpsert
  rw [run_bind, run_removeTieringDueIndexByVersionTxn h, andThen_ok]
  cases tier with
  | hot =>
    simp only [ne_eq, not_true_eq_false, if_false, if_true]
    rw [Txn.run_forM_writes _ (fun e => [Write.set e.1 e.2]) (fun _ _ => rfl),
      ← List.map_eq_flatMap, List.append_assoc]
  | ec => simp

theorem run_upsertReplicaRowsTxn {s : Store} {ws : List KVWrite} {o : GoString} {v : Int}
    {md : Metadata} : (upsertReplicaRowsTxn o v md).run (Txn.step s) ws =
      (.ok (), ws ++ upsertReplicas o v md) := by
  unfold upsertReplicaRowsTxn upsertReplicas
  split
  · apply Txn.run_forM_writes
    intro n ws
    by_cases hn : n = [] <;> simp [hn]
  · simp

/-- The rows of a commit: the head, the version, and one replica for each node. -/
theorem upsertRows_cases {o : GoString} {v : Int} {md : Metadata} {now : Time}
    {found : Option ObjectRecord} {w : KVWrite} (hw : w ∈ upsertRows o v md now found) :
    w = Write.set (tiKVObjectKey o) (.object (upsertHead o v (resolveState md) now found)) ∨
    w = Write.set (tiKVObjectVersionKey o v) (.objectVersion (upsertVersion o v md now)) ∨
    (resolveTier md = .hot ∧ ∃ n ∈ toStringSlice (md.get (lit "replica_nodes")), n ≠ [] ∧
      w = Write.set (tiKVReplicaKey o v n) (.replica ⟨o, v, n, upsertHotPath o v md, .active⟩)) := by
  unfold upsertRows upsertReplicas at hw
  rcases List.mem_append.mp hw with hw | hw
  · simp only [List.mem_cons, List.not_mem_nil, or_false] at hw
    rcases hw with rfl | rfl
    · exact Or.inl rfl
    · exact Or.inr (Or.inl rfl)
  · split at hw
    · rename_i htier
      obtain ⟨n, hn, hw⟩ := List.mem_flatMap.mp hw
      split at hw
      · simp at hw
      · rename_i hne
        exact Or.inr (Or.inr ⟨htier, n, hn, hne, by simpa using hw⟩)
    · simp at hw

theorem keyFamily_of_upsertRows {o : GoString} {v : Int} {md : Metadata} {now : Time}
    {found : Option ObjectRecord} {w : KVWrite} (hw : w ∈ upsertRows o v md now found) :
    keyFamily w.key = lit "obj" ∨ keyFamily w.key = lit "objv" ∨ keyFamily w.key = lit "repl" := by
  rcases upsertRows_cases hw with rfl | rfl | ⟨-, n, -, -, rfl⟩
  · exact Or.inl (keyFamily_object o)
  · exact Or.inr (Or.inl (keyFamily_objectVersion o v))
  · exact Or.inr (Or.inr (keyFamily_replica o v n))

theorem upsertTxn_effect (cfg : Config) {o : GoString} {v : Int} {md : Metadata} {now : Time}
    {s : Store} {found : Option ObjectRecord} {ref : Option TierDueRefRecord}
    (hfound : s.get? (tiKVObjectKey o) = found.map Value.object)
    (href : s.get? (tiKVTierDueRefKey o v) = ref.map Value.tierDueRef) :
    (upsertTxn cfg o v md now).effect s = .ok (none, upsertWrites cfg o v md now found ref) := by
  have hkept : (s.applyAll (upsertRows o v md now found)).get? (tiKVTierDueRefKey o v) =
      ref.map Value.tierDueRef := by
    rw [← href]
    apply SortedMap.get?_applyAll_of_untouched
    intro w hw
    apply ne_of_keyFamily
    rw [keyFamily_tierDueRef]
    rcases keyFamily_of_upsertRows hw with h | h | h <;> rw [h] <;> decide
  apply Txn.effect_eq
  unfold upsertTxn upsertWrites
  rw [run_bind, Txn.run_txnGetJSON Value.asObject Value.object (fun _ => rfl)
    (by simpa using hfound), andThen_ok]
  simp only [run_bind, Txn.run_set, andThen_ok, run_upsertReplicaRowsTxn, List.nil_append,
    List.singleton_append]
  change (ite _ _ _ : Txn _).run (Txn.step s) (upsertRows o v md now found) = _
  split
  · simp
  · rw [run_bind, run_upsertTieringDueIndexTxn hkept, andThen_ok]
    rfl

/-! ## The writes of a commit -/

section Writes

variable {P : GoString → Prop} {cfg : Config} {o : GoString} {v : Int} {md : Metadata} {now : Time}
  {found : Option ObjectRecord} {ref : Option TierDueRefRecord} {w : KVWrite}

/-- The removal of a due entry deletes the entry, if there is a reference to it, and the
reference. -/
theorem mem_dueRemoval (hw : w ∈ dueRemoval o v ref) :
    (∃ r, ref = some r ∧ w = Write.del r.dueKey) ∨ w = Write.del (tiKVTierDueRefKey o v) := by
  rcases List.mem_append.mp hw with hw | hw
  · cases ref with
    | none => cases hw
    | some r =>
      dsimp only at hw
      split at hw
      · exact Or.inl ⟨r, rfl, List.mem_singleton.mp hw⟩
      · cases hw
  · exact Or.inr (List.mem_singleton.mp hw)

theorem dueRemoval_value (hw : w ∈ dueRemoval o v ref) : w.value = none := by
  rcases mem_dueRemoval hw with ⟨r, -, rfl⟩ | rfl <;> rfl

/-- Removing a due entry deletes index keys only. -/
theorem dueRemoval_families (href : ∀ r, ref = some r → keyFamily r.dueKey = lit "tdue")
    (hw : w ∈ dueRemoval o v ref) :
    keyFamily w.key = lit "tdue" ∨ keyFamily w.key = lit "tdue_ref" := by
  rcases mem_dueRemoval hw with ⟨r, hr, rfl⟩ | rfl
  · exact Or.inl (href r hr)
  · exact Or.inr (keyFamily_tierDueRef o v)

/-- The deletions of scanned references and of the entries they name. -/
def pairDeletes (es : List (GoString × Value)) (refs : List TierDueRefRecord) : List KVWrite :=
  (es.zip refs).flatMap fun e =>
    (if e.2.dueKey ≠ [] then [Write.del e.2.dueKey] else []) ++ [Write.del e.1.1]

/-- Each deletion comes from a scanned reference. -/
theorem mem_pairDeletes {es : List (GoString × Value)} {refs : List TierDueRefRecord}
    (hrefs : List.Forall₂ (fun e r => Value.asTierDueRef e.2 = some r) es refs)
    (hw : w ∈ pairDeletes es refs) :
    ∃ k r, (k, Value.tierDueRef r) ∈ es ∧ (w = Write.del k ∨ w = Write.del r.dueKey) := by
  obtain ⟨⟨⟨k, x⟩, r⟩, hmem, hw⟩ := List.mem_flatMap.mp hw
  have hdec : x.asTierDueRef = some r := List.forall₂_zip hrefs hmem
  rw [Value.asTierDueRef_eq_some] at hdec
  subst hdec
  refine ⟨k, r, (List.of_mem_zip hmem).1, ?_⟩
  rcases List.mem_append.mp hw with hw | hw
  · split at hw
    · exact Or.inr (List.mem_singleton.mp hw)
    · cases hw
  · exact Or.inl (List.mem_singleton.mp hw)

/-- Every scanned reference is deleted, and with it the entry that it names. -/
theorem del_mem_pairDeletes {es : List (GoString × Value)} {refs : List TierDueRefRecord}
    (hrefs : List.Forall₂ (fun e r => Value.asTierDueRef e.2 = some r) es refs) {k : GoString}
    {x : Value} (hmem : (k, x) ∈ es) : ∃ r, x = .tierDueRef r ∧
      Write.del k ∈ pairDeletes es refs ∧
      (r.dueKey ≠ [] → Write.del r.dueKey ∈ pairDeletes es refs) := by
  have hzip : (k, x) ∈ (es.zip refs).map Prod.fst := by
    rwa [List.map_fst_zip hrefs.length_eq.le]
  obtain ⟨⟨e, r⟩, he, rfl⟩ := List.mem_map.mp hzip
  have hdec : x.asTierDueRef = some r := List.forall₂_zip hrefs he
  exact ⟨r, Value.asTierDueRef_eq_some.mp hdec, List.mem_flatMap.mpr ⟨_, he, by simp⟩,
    fun hne => List.mem_flatMap.mpr ⟨_, he, by simp [hne]⟩⟩

theorem upsertTieringDueIndex_eq {tier : Tier} {size : Int} :
    upsertTieringDueIndex cfg o v tier size now =
      getJSON Value.asTierDueRef (tiKVTierDueRefKey o v) >>= fun ref =>
        pure (dueUpsert cfg o v tier size now ref) := by
  unfold upsertTieringDueIndex removeTieringDueIndexByVersionInBatch dueUpsert
  rw [bind_assoc]
  cases tier <;> simp

/-- The due entry and its reference are rows at their own keys. -/
theorem dueIndexEntry_cases {size : Int} {at' : Time}
    (hw : w ∈ (dueIndexEntry o v size now at').map fun e => (Write.set e.1 e.2 : KVWrite)) :
    (∀ x, w.value = some x → P o → RowAt P w.key x) ∧
      (keyFamily w.key = lit "tdue" ∨ keyFamily w.key = lit "tdue_ref") := by
  simp only [dueIndexEntry, List.map_cons, List.map_nil, List.mem_cons, List.not_mem_nil,
    or_false] at hw
  rcases hw with rfl | rfl
  · refine ⟨?_, Or.inl (keyFamily_tierDue _ _ _)⟩
    intro x hx ho
    cases hx
    exact ⟨rfl, ho⟩
  · refine ⟨?_, Or.inr (keyFamily_tierDueRef _ _)⟩
    intro x hx ho
    cases hx
    exact ⟨rfl, ho, rfl⟩

theorem dueUpsert_families {tier : Tier} {size : Int}
    (href : ∀ r, ref = some r → keyFamily r.dueKey = lit "tdue")
    (hw : w ∈ dueUpsert cfg o v tier size now ref) :
    keyFamily w.key = lit "tdue" ∨ keyFamily w.key = lit "tdue_ref" := by
  unfold dueUpsert at hw
  rcases List.mem_append.mp hw with hw | hw
  · exact dueRemoval_families href hw
  · split at hw
    · exact (dueIndexEntry_cases (P := fun _ => True) hw).2
    · simp at hw

theorem dueUpsert_rows {tier : Tier} {size : Int} (ho : P o) :
    WriteRows P (dueUpsert cfg o v tier size now ref) := by
  refine WriteRows.append (writeRows_deletes fun w hw => dueRemoval_value hw) ?_
  split
  · exact fun w hw x hx => (dueIndexEntry_cases hw).1 x hx ho
  · exact fun w hw => absurd hw List.not_mem_nil

theorem upsertHead_objectID {state : ObjectState} (hid : ∀ r, found = some r → r.objectID = o) :
    (upsertHead o v state now found).objectID = o := by
  cases found with
  | none => rfl
  | some r => exact hid r rfl

theorem upsertWrites_cases (hw : w ∈ upsertWrites cfg o v md now found ref) :
    w ∈ upsertRows o v md now found ∨ w ∈ dueUpsert cfg o v (resolveTier md)
      (upsertVersion o v md now).sizeBytes now ref := by
  unfold upsertWrites at hw
  rcases List.mem_append.mp hw with hw | hw
  · exact Or.inl hw
  · split at hw
    · simp at hw
    · exact Or.inr hw

theorem upsertWrites_rows (ho : P o) (hid : ∀ r, found = some r → r.objectID = o) :
    WriteRows P (upsertWrites cfg o v md now found ref) := by
  intro w hw x hx
  rcases upsertWrites_cases hw with hw | hw
  · rcases upsertRows_cases hw with rfl | rfl | ⟨-, n, -, -, rfl⟩
    · cases hx
      exact ⟨by rw [upsertHead_objectID hid]; rfl, by rwa [upsertHead_objectID hid]⟩
    · cases hx
      exact ⟨rfl, ho⟩
    · cases hx
      exact ⟨rfl, ho⟩
  · exact dueUpsert_rows ho w hw x hx

/-- A commit writes one head: that of its object. -/
theorem upsertWrites_head (href : ∀ r, ref = some r → keyFamily r.dueKey = lit "tdue")
    (hw : w ∈ upsertWrites cfg o v md now found ref) (hk : keyFamily w.key = lit "obj") :
    w = Write.set (tiKVObjectKey o) (.object (upsertHead o v (resolveState md) now found)) := by
  rcases upsertWrites_cases hw with hw | hw
  · rcases upsertRows_cases hw with rfl | rfl | ⟨-, n, -, -, rfl⟩
    · rfl
    · rw [Write.key_set, keyFamily_objectVersion] at hk
      exact absurd hk (by decide)
    · rw [Write.key_set, keyFamily_replica] at hk
      exact absurd hk (by decide)
  · rcases dueUpsert_families href hw with h | h <;> rw [h] at hk <;> exact absurd hk (by decide)

theorem promoteBatch_rows {checksum : GoString} {k m : Int} {locs : List ECShardLocation}
    {obj : ObjectRecord} {ver : ObjectVersionRecord} (ho : P o) (hobj : obj.objectID = o)
    (hver : ver.objectID = o) (hv : ver.version = v) :
    WriteRows P (promoteBatch now o v checksum k m locs obj ver) := by
  intro w hw x hx
  unfold promoteBatch at hw
  rcases List.mem_append.mp hw with hw | hw
  · obtain ⟨loc, -, rfl⟩ := List.mem_map.mp hw
    cases hx
    exact ⟨rfl, ho⟩
  · simp only [List.mem_cons, List.not_mem_nil, or_false] at hw
    rcases hw with rfl | rfl
    · cases hx
      exact ⟨by simp [promotedVersion, hver, hv], by simpa [promotedVersion, hver] using ho⟩
    · cases hx
      exact ⟨by simp [hobj], by simpa [hobj] using ho⟩

/-- A promotion deletes nothing. -/
theorem promoteBatch_sets {checksum : GoString} {k m : Int} {locs : List ECShardLocation}
    {obj : ObjectRecord} {ver : ObjectVersionRecord}
    (hw : w ∈ promoteBatch now o v checksum k m locs obj ver) : w.value ≠ none := by
  unfold promoteBatch at hw
  rcases List.mem_append.mp hw with hw | hw
  · obtain ⟨loc, -, rfl⟩ := List.mem_map.mp hw
    simp
  · simp only [List.mem_cons, List.not_mem_nil, or_false] at hw
    rcases hw with rfl | rfl <;> simp

end Writes

end TieredStore.Meta
