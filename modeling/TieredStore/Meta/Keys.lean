import TieredStore.Meta.Schema

/-!
# Keys of the metadata store

The key builders and parsers of `tikv_store_keys.go`. Every key starts with the name of
its family and a slash; `keyFamily` is that name, and keys of different families differ.
Inside a family the numbers have no slash, so a key determines its fields up to slashes in
the texts (`tiKVObjectVersionKey_inj`, `tiKVECShardKey_inj`, `tiKVTierDueKey_inj`). A
replica key determines its object only among ids that are `Separated`: the slash-free ids,
or a single id.

A prefix scan returns exactly the keys with the prefix (`between_bounds_iff`).
-/

namespace TieredStore.Meta

open Lib Lib.Bytes

abbrev slash : UInt8 := 47

/-! ## Families -/

def tiKVPrefixObject : GoString := lit "obj/"
def tiKVPrefixObjVer : GoString := lit "objv/"
def tiKVPrefixReplica : GoString := lit "repl/"
def tiKVPrefixECShard : GoString := lit "ec/"
def tiKVPrefixTask : GoString := lit "task/"
def tiKVPrefixTaskRdy : GoString := lit "task_ready/"
def tiKVPrefixTaskWtg : GoString := lit "task_wait/"
def tiKVPrefixTaskTer : GoString := lit "task_terminal/"
def tiKVPrefixTierDue : GoString := lit "tdue/"
def tiKVPrefixTierRef : GoString := lit "tdue_ref/"

/-! ## Numbers in keys -/

def tiKVEncodeInt64 (v : Int) : GoString := padInt 20 v

def tiKVEncodeInt (v : Int) : GoString := padInt 10 v

def tiKVTaskPriorityBias : Int := 1000000000

def tiKVTaskPriorityMax : Int := 2000000000

def tiKVEncodePriorityDesc (priority : Int) : GoString :=
  let normalized := wrap64 (priority + tiKVTaskPriorityBias)
  let normalized := if normalized < 0 then 0 else normalized
  let normalized :=
    if normalized > tiKVTaskPriorityMax then tiKVTaskPriorityMax else normalized
  padInt 10 (tiKVTaskPriorityMax - normalized)

/-! ## Builders -/

def tiKVObjectKey (objectID : GoString) : GoString := tiKVPrefixObject ++ objectID

def tiKVObjectVersionPrefix (objectID : GoString) : GoString :=
  tiKVPrefixObjVer ++ objectID ++ [slash]

def tiKVObjectVersionKey (objectID : GoString) (version : Int) : GoString :=
  tiKVPrefixObjVer ++ objectID ++ [slash] ++ tiKVEncodeInt64 version

def tiKVReplicaPrefix (objectID : GoString) : GoString :=
  tiKVPrefixReplica ++ objectID ++ [slash]

def tiKVReplicaVersionPrefix (objectID : GoString) (version : Int) : GoString :=
  tiKVPrefixReplica ++ objectID ++ [slash] ++ tiKVEncodeInt64 version ++ [slash]

def tiKVReplicaKey (objectID : GoString) (version : Int) (nodeID : GoString) : GoString :=
  tiKVPrefixReplica ++ objectID ++ [slash] ++ tiKVEncodeInt64 version ++ [slash] ++ nodeID

def tiKVECShardPrefix (objectID : GoString) : GoString :=
  tiKVPrefixECShard ++ objectID ++ [slash]

def tiKVECShardVersionPrefix (objectID : GoString) (version : Int) : GoString :=
  tiKVPrefixECShard ++ objectID ++ [slash] ++ tiKVEncodeInt64 version ++ [slash]

def tiKVECShardKey (objectID : GoString) (version shardIndex : Int) : GoString :=
  tiKVPrefixECShard ++ objectID ++ [slash] ++ tiKVEncodeInt64 version ++ [slash] ++
    tiKVEncodeInt shardIndex

def tiKVTaskKey (taskID : GoString) : GoString := tiKVPrefixTask ++ taskID

def tiKVTaskReadyPrefix : GoString := tiKVPrefixTaskRdy

def tiKVTaskWaitPrefix : GoString := tiKVPrefixTaskWtg

def tiKVTaskTerminalPrefix : GoString := tiKVPrefixTaskTer

def tiKVTaskReadyKey (taskType : GoString) (priority : Int) (scheduledAt : Time)
    (taskID : GoString) : GoString :=
  tiKVPrefixTaskRdy ++ tiKVEncodePriorityDesc priority ++ [slash] ++
    tiKVEncodeInt64 scheduledAt.unixNano ++ [slash] ++ taskType ++ [slash] ++ taskID

def tiKVTaskWaitKey (taskType : GoString) (scheduledAt : Time) (taskID : GoString) : GoString :=
  tiKVPrefixTaskWtg ++ tiKVEncodeInt64 scheduledAt.unixNano ++ [slash] ++ taskType ++ [slash] ++
    taskID

def tiKVTaskTerminalKey (finishedAt : Time) (taskID : GoString) : GoString :=
  tiKVPrefixTaskTer ++ tiKVEncodeInt64 finishedAt.unixNano ++ [slash] ++ taskID

def tiKVTierDuePrefix : GoString := tiKVPrefixTierDue

def tiKVTierDueKey (eligibleAt : Time) (objectID : GoString) (version : Int) : GoString :=
  tiKVPrefixTierDue ++ tiKVEncodeInt64 eligibleAt.unixNano ++ [slash] ++ objectID ++ [slash] ++
    tiKVEncodeInt64 version

def tiKVTierDueRefPrefix (objectID : GoString) : GoString :=
  tiKVPrefixTierRef ++ objectID ++ [slash]

def tiKVTierDueRefKey (objectID : GoString) (version : Int) : GoString :=
  tiKVPrefixTierRef ++ objectID ++ [slash] ++ tiKVEncodeInt64 version

/-! ## Parsers -/

/-- The text after a prefix, when the key has it. -/
def stripFamily (pre key : GoString) : Option GoString :=
  if pre <+: key then some (key.drop pre.length) else none

/-- The scheduled time, the type and the id that a ready key names. -/
def tiKVParseTaskReadyKey (key : GoString) : Option (Int × GoString × GoString) := do
  let rest ← stripFamily tiKVPrefixTaskRdy key
  match rest.splitOn slash with
  | _ :: ts :: taskType :: id₀ :: ids =>
    let scheduledAtUnixNano ← parseInt ts
    let taskID := [slash].intercalate (id₀ :: ids)
    if taskID = [] then none else some (scheduledAtUnixNano, taskType, taskID)
  | _ => none

def tiKVParseTaskWaitKey (key : GoString) : Option (Int × GoString × GoString) := do
  let rest ← stripFamily tiKVPrefixTaskWtg key
  match rest.splitOn slash with
  | ts :: taskType :: id₀ :: ids =>
    let scheduledAtUnixNano ← parseInt ts
    let taskID := [slash].intercalate (id₀ :: ids)
    if taskID = [] then none else some (scheduledAtUnixNano, taskType, taskID)
  | _ => none

def tiKVParseTaskTerminalKey (key : GoString) : Option (Int × GoString) := do
  let rest ← stripFamily tiKVPrefixTaskTer key
  match rest.splitOn slash with
  | ts :: id₀ :: ids =>
    let finishedAtUnixNano ← parseInt ts
    let taskID := [slash].intercalate (id₀ :: ids)
    if taskID = [] then none else some (finishedAtUnixNano, taskID)
  | _ => none

def tiKVParseTierDueKey (key : GoString) : Option (Int × GoString × Int) := do
  let rest ← stripFamily tiKVPrefixTierDue key
  match rest.splitOn slash with
  | [ts, objectID, ver] =>
    let ts ← parseInt ts
    let ver ← parseInt ver
    some (ts, objectID, ver)
  | _ => none

/-- The least string above every string with the given prefix; empty when there is none.
The loop of the source runs over the bytes from the last to the first. -/
def tiKVPrefixUpperBound (pre : GoString) : GoString := bump pre.reverse
where
  bump : GoString → GoString
    | [] => []
    | b :: front => if b ≠ 0xFF then ((b + 1) :: front).reverse else bump front

/-! ## Distinct families -/

/-- The name of a key's family: the text before its first slash. -/
def keyFamily (key : GoString) : GoString := key.takeWhile (· != slash)

theorem keyFamily_eq {name key : GoString} (hname : slash ∉ name) (h : name ++ [slash] <+: key) :
    keyFamily key = name := by
  obtain ⟨rest, rfl⟩ := h
  have hall : ∀ c ∈ name, (c != slash) = true := by
    intro c hc
    simp only [bne_iff_ne]
    rintro rfl
    exact hname hc
  unfold keyFamily
  rw [List.append_assoc, List.takeWhile_append_of_pos hall]
  simp

theorem ne_of_keyFamily {a b : GoString} (h : keyFamily a ≠ keyFamily b) : a ≠ b :=
  fun hab => h (congrArg keyFamily hab)

theorem keyFamily_of_version_scan {o k : GoString} (h : tiKVObjectVersionPrefix o <+: k) :
    keyFamily k = lit "objv" :=
  keyFamily_eq (by decide)
    (List.IsPrefix.trans ⟨o ++ [slash], by simp [tiKVObjectVersionPrefix, tiKVPrefixObjVer]; rfl⟩ h)

theorem keyFamily_of_replica_scan {o k : GoString} (h : tiKVReplicaPrefix o <+: k) :
    keyFamily k = lit "repl" :=
  keyFamily_eq (by decide)
    (List.IsPrefix.trans ⟨o ++ [slash], by simp [tiKVReplicaPrefix, tiKVPrefixReplica]; rfl⟩ h)

theorem keyFamily_of_ecShard_scan {o k : GoString} (h : tiKVECShardPrefix o <+: k) :
    keyFamily k = lit "ec" :=
  keyFamily_eq (by decide)
    (List.IsPrefix.trans ⟨o ++ [slash], by simp [tiKVECShardPrefix, tiKVPrefixECShard]; rfl⟩ h)

theorem replicaPrefix_of_version {o k : GoString} {v : Int}
    (h : tiKVReplicaVersionPrefix o v <+: k) : tiKVReplicaPrefix o <+: k :=
  List.IsPrefix.trans ⟨tiKVEncodeInt64 v ++ [slash], by
    simp [tiKVReplicaPrefix, tiKVReplicaVersionPrefix]⟩ h

theorem ecShardPrefix_of_version {o k : GoString} {v : Int}
    (h : tiKVECShardVersionPrefix o v <+: k) : tiKVECShardPrefix o <+: k :=
  List.IsPrefix.trans ⟨tiKVEncodeInt64 v ++ [slash], by
    simp [tiKVECShardPrefix, tiKVECShardVersionPrefix]⟩ h

theorem keyFamily_of_replica_version_scan {o k : GoString} {v : Int}
    (h : tiKVReplicaVersionPrefix o v <+: k) : keyFamily k = lit "repl" :=
  keyFamily_of_replica_scan (replicaPrefix_of_version h)

theorem keyFamily_of_ecShard_version_scan {o k : GoString} {v : Int}
    (h : tiKVECShardVersionPrefix o v <+: k) : keyFamily k = lit "ec" :=
  keyFamily_of_ecShard_scan (ecShardPrefix_of_version h)

theorem keyFamily_of_tierDueRef_scan {o k : GoString} (h : tiKVTierDueRefPrefix o <+: k) :
    keyFamily k = lit "tdue_ref" :=
  keyFamily_eq (by decide)
    (List.IsPrefix.trans ⟨o ++ [slash], by simp [tiKVTierDueRefPrefix, tiKVPrefixTierRef]; rfl⟩ h)

@[simp] theorem keyFamily_object (o : GoString) : keyFamily (tiKVObjectKey o) = lit "obj" :=
  keyFamily_eq (by decide) ⟨o, rfl⟩

@[simp] theorem keyFamily_objectVersion (o : GoString) (v : Int) :
    keyFamily (tiKVObjectVersionKey o v) = lit "objv" :=
  keyFamily_of_version_scan ⟨_, rfl⟩

@[simp] theorem keyFamily_replica (o : GoString) (v : Int) (n : GoString) :
    keyFamily (tiKVReplicaKey o v n) = lit "repl" :=
  keyFamily_of_replica_scan (o := o) (by simp [tiKVReplicaPrefix, tiKVReplicaKey])

@[simp] theorem keyFamily_ecShard (o : GoString) (v i : Int) :
    keyFamily (tiKVECShardKey o v i) = lit "ec" :=
  keyFamily_of_ecShard_scan (o := o) (by simp [tiKVECShardPrefix, tiKVECShardKey])

@[simp] theorem keyFamily_task (t : GoString) : keyFamily (tiKVTaskKey t) = lit "task" :=
  keyFamily_eq (by decide) ⟨t, rfl⟩

@[simp] theorem keyFamily_taskReady (ty : GoString) (p : Int) (at' : Time) (t : GoString) :
    keyFamily (tiKVTaskReadyKey ty p at' t) = lit "task_ready" :=
  keyFamily_eq (by decide) (by simp [tiKVTaskReadyKey]; exact ⟨_, rfl⟩)

@[simp] theorem keyFamily_taskWait (ty : GoString) (at' : Time) (t : GoString) :
    keyFamily (tiKVTaskWaitKey ty at' t) = lit "task_wait" :=
  keyFamily_eq (by decide) (by simp [tiKVTaskWaitKey]; exact ⟨_, rfl⟩)

@[simp] theorem keyFamily_taskTerminal (at' : Time) (t : GoString) :
    keyFamily (tiKVTaskTerminalKey at' t) = lit "task_terminal" :=
  keyFamily_eq (by decide) (by simp [tiKVTaskTerminalKey]; exact ⟨_, rfl⟩)

@[simp] theorem keyFamily_tierDue (at' : Time) (o : GoString) (v : Int) :
    keyFamily (tiKVTierDueKey at' o v) = lit "tdue" :=
  keyFamily_eq (by decide) (by simp [tiKVTierDueKey]; exact ⟨_, rfl⟩)

@[simp] theorem keyFamily_tierDueRef (o : GoString) (v : Int) :
    keyFamily (tiKVTierDueRefKey o v) = lit "tdue_ref" :=
  keyFamily_of_tierDueRef_scan ⟨_, rfl⟩

/-- A key of the ready, wait or terminal index. -/
def TaskIndexKey (k : GoString) : Prop :=
  keyFamily k = lit "task_ready" ∨ keyFamily k = lit "task_wait" ∨
    keyFamily k = lit "task_terminal"

/-- A key of a task row or of a task index. -/
def TaskKey (k : GoString) : Prop := keyFamily k = lit "task" ∨ TaskIndexKey k

/-- A family that is not one of tasks. -/
def DataFamily (fam : GoString) : Prop :=
  fam ∉ [lit "task", lit "task_ready", lit "task_wait", lit "task_terminal"]

instance : DecidablePred DataFamily := fun _ => inferInstanceAs (Decidable (¬ _))

theorem not_taskKey {fam k : GoString} (hk : keyFamily k = fam) (h : DataFamily fam) :
    ¬ TaskKey k := by
  rintro (hfam | hfam | hfam | hfam) <;> exact h (by rw [← hk, hfam]; decide)

/-! ## What a key determines -/

/-- A set of ids of which none is another one continued by a slash. -/
def Separated (P : GoString → Prop) : Prop :=
  ∀ ⦃a b x y : GoString⦄, P a → P b → a ++ slash :: x = b ++ slash :: y → a = b

theorem separated_slashFree : Separated (fun o => slash ∉ o) :=
  fun _ _ _ _ ha hb h => (append_sep_inj ha hb h).1

theorem separated_singleton (o : GoString) : Separated (· = o) :=
  fun _ _ _ _ ha hb _ => ha.trans hb.symm

theorem slash_not_mem_encodeInt64 (v : Int) : slash ∉ tiKVEncodeInt64 v :=
  slash_not_mem_padInt 20 v

theorem slash_not_mem_encodeInt (v : Int) : slash ∉ tiKVEncodeInt v :=
  slash_not_mem_padInt 10 v

theorem slash_not_mem_encodePriorityDesc (p : Int) : slash ∉ tiKVEncodePriorityDesc p :=
  slash_not_mem_padInt 10 _

theorem tiKVEncodeInt64_inj {v v' : Int} : tiKVEncodeInt64 v = tiKVEncodeInt64 v' ↔ v = v' :=
  (padInt_injective 20).eq_iff

theorem tiKVEncodeInt_inj {v v' : Int} : tiKVEncodeInt v = tiKVEncodeInt v' ↔ v = v' :=
  (padInt_injective 10).eq_iff

@[simp] theorem tiKVObjectKey_inj {o o' : GoString} : tiKVObjectKey o = tiKVObjectKey o' ↔ o = o' :=
  List.append_right_inj _

@[simp] theorem tiKVTaskKey_inj {t t' : GoString} : tiKVTaskKey t = tiKVTaskKey t' ↔ t = t' :=
  List.append_right_inj _

/-- A text and a number after it are determined, also when the text has slashes. -/
theorem id_version_inj {pre o o' : GoString} {v v' : Int} :
    pre ++ o ++ [slash] ++ tiKVEncodeInt64 v = pre ++ o' ++ [slash] ++ tiKVEncodeInt64 v' ↔
      o = o' ∧ v = v' := by
  constructor
  · intro h
    simp only [List.append_assoc, List.append_right_inj, List.singleton_append] at h
    obtain ⟨ho, hv⟩ :=
      append_sep_inj_right (slash_not_mem_encodeInt64 v) (slash_not_mem_encodeInt64 v') h
    exact ⟨ho, tiKVEncodeInt64_inj.mp hv⟩
  · rintro ⟨rfl, rfl⟩
    rfl

@[simp] theorem tiKVObjectVersionKey_inj {o o' : GoString} {v v' : Int} :
    tiKVObjectVersionKey o v = tiKVObjectVersionKey o' v' ↔ o = o' ∧ v = v' := id_version_inj

@[simp] theorem tiKVTierDueRefKey_inj {o o' : GoString} {v v' : Int} :
    tiKVTierDueRefKey o v = tiKVTierDueRefKey o' v' ↔ o = o' ∧ v = v' := id_version_inj

@[simp] theorem tiKVECShardKey_inj {o o' : GoString} {v v' i i' : Int} :
    tiKVECShardKey o v i = tiKVECShardKey o' v' i' ↔ o = o' ∧ v = v' ∧ i = i' := by
  constructor
  · intro h
    unfold tiKVECShardKey at h
    rw [List.append_assoc (_ ++ tiKVEncodeInt64 v) [slash],
      List.append_assoc (_ ++ tiKVEncodeInt64 v') [slash]] at h
    obtain ⟨hov, hi⟩ :=
      append_sep_inj_right (slash_not_mem_encodeInt i) (slash_not_mem_encodeInt i') h
    obtain ⟨ho, hv⟩ := id_version_inj.mp hov
    exact ⟨ho, hv, tiKVEncodeInt_inj.mp hi⟩
  · rintro ⟨rfl, rfl, rfl⟩
    rfl

/-- The prefix of an id's rows starts the keys of that id only. -/
theorem id_scan_iff {P : GoString → Prop} (hP : Separated P) {pre o o' rest : GoString} (ho : P o)
    (ho' : P o') : pre ++ o ++ [slash] <+: pre ++ o' ++ [slash] ++ rest ↔ o = o' := by
  constructor
  · rintro ⟨x, hx⟩
    simp only [List.append_assoc, List.append_right_inj, List.singleton_append] at hx
    exact hP ho ho' hx
  · rintro rfl
    exact ⟨rest, rfl⟩

/-- The prefix of a version's rows starts the keys of that version only. -/
theorem version_scan_iff {P : GoString → Prop} (hP : Separated P) {pre o o' rest : GoString}
    {v v' : Int} (ho : P o) (ho' : P o') :
    pre ++ o ++ [slash] ++ tiKVEncodeInt64 v ++ [slash] <+:
        pre ++ o' ++ [slash] ++ tiKVEncodeInt64 v' ++ [slash] ++ rest ↔ o = o' ∧ v = v' := by
  constructor
  · rintro ⟨x, hx⟩
    simp only [List.append_assoc, List.append_right_inj, List.singleton_append] at hx
    obtain rfl := hP ho ho' hx
    simp only [List.append_right_inj, List.cons_append, List.cons.injEq, true_and] at hx
    have := append_sep_inj (slash_not_mem_encodeInt64 v) (slash_not_mem_encodeInt64 v') hx
    exact ⟨rfl, tiKVEncodeInt64_inj.mp this.1⟩
  · rintro ⟨rfl, rfl⟩
    exact ⟨rest, rfl⟩

theorem tiKVReplicaKey_inj {P : GoString → Prop} (hP : Separated P) {o o' : GoString} (ho : P o)
    (ho' : P o') {v v' : Int} {n n' : GoString} :
    tiKVReplicaKey o v n = tiKVReplicaKey o' v' n' ↔ o = o' ∧ v = v' ∧ n = n' := by
  constructor
  · intro h
    obtain ⟨rfl, rfl⟩ := (version_scan_iff hP ho ho').mp ⟨n, h⟩
    exact ⟨rfl, rfl, List.append_cancel_left h⟩
  · rintro ⟨rfl, rfl, rfl⟩
    rfl

@[simp] theorem tiKVTierDueKey_inj {t t' : Time} {o o' : GoString} {v v' : Int} :
    tiKVTierDueKey t o v = tiKVTierDueKey t' o' v' ↔
      t.unixNano = t'.unixNano ∧ o = o' ∧ v = v' := by
  constructor
  · intro h
    simp only [tiKVTierDueKey, List.append_assoc, List.append_right_inj,
      List.singleton_append] at h
    obtain ⟨ht, hov⟩ := append_sep_inj (slash_not_mem_encodeInt64 _) (slash_not_mem_encodeInt64 _) h
    obtain ⟨ho, hv⟩ :=
      append_sep_inj_right (slash_not_mem_encodeInt64 v) (slash_not_mem_encodeInt64 v') hov
    exact ⟨tiKVEncodeInt64_inj.mp ht, ho, tiKVEncodeInt64_inj.mp hv⟩
  · rintro ⟨ht, rfl, rfl⟩
    unfold tiKVTierDueKey
    rw [ht]

/-! ## Prefix scans -/

theorem bump_append (l : GoString) (b : UInt8) :
    tiKVPrefixUpperBound.bump (l ++ [b]) =
      if tiKVPrefixUpperBound.bump l = [] then (if b ≠ 0xFF then [b + 1] else [])
      else b :: tiKVPrefixUpperBound.bump l := by
  induction l with
  | nil => simp [tiKVPrefixUpperBound.bump]
  | cons c l ih =>
    by_cases hc : c = 0xFF
    · simp only [List.cons_append, tiKVPrefixUpperBound.bump, hc, ne_eq, not_true_eq_false,
        if_false]
      exact ih
    · simp [tiKVPrefixUpperBound.bump, hc]

theorem tiKVPrefixUpperBound_cons (b : UInt8) (p : GoString) :
    tiKVPrefixUpperBound (b :: p) =
      if tiKVPrefixUpperBound p = [] then (if b ≠ 0xFF then [b + 1] else [])
      else b :: tiKVPrefixUpperBound p := by
  unfold tiKVPrefixUpperBound
  rw [List.reverse_cons]
  exact bump_append _ _

theorem byte_lt_succ_iff {b c : UInt8} (hb : b ≠ 0xFF) : c < b + 1 ↔ c ≤ b := by
  have hb' : b.toNat ≠ 255 := fun h => hb (UInt8.toNat.inj h)
  have hlt := b.toNat_lt
  rw [UInt8.lt_iff_toNat_lt, UInt8.le_iff_toNat_le, UInt8.toNat_add]
  have : (1 : UInt8).toNat = 1 := rfl
  omega

/-- The keys between the bounds of a prefix scan are the keys that have the prefix. -/
theorem between_bounds_iff (p k : GoString) :
    (¬ k < p ∧ (tiKVPrefixUpperBound p = [] ∨ k < tiKVPrefixUpperBound p)) ↔ p <+: k := by
  induction p generalizing k with
  | nil => simp [tiKVPrefixUpperBound, tiKVPrefixUpperBound.bump]
  | cons b p ih =>
    cases k with
    | nil => simp
    | cons c k =>
      rw [List.cons_lt_cons_iff, List.cons_prefix_cons, ← ih k, tiKVPrefixUpperBound_cons]
      by_cases hbc : b = c
      · subst hbc
        by_cases hp : tiKVPrefixUpperBound p = []
        · by_cases hb : b = 0xFF
          · simp [hp, hb]
          · simp [hp, hb, List.cons_lt_cons_iff, byte_lt_succ_iff hb]
        · simp [hp]
      · have hout : ¬ (c < b ∨ c = b ∧ k < p) → b < c := fun h =>
          lt_of_le_of_ne (not_lt.mp fun hlt => h (Or.inl hlt)) hbc
        simp only [hbc, false_and, iff_false, not_and]
        intro hlo
        have hlt := hout hlo
        by_cases hp : tiKVPrefixUpperBound p = []
        · by_cases hb : b = 0xFF
          · rw [hb, UInt8.lt_iff_toNat_lt] at hlt
            have := c.toNat_lt
            have : (0xFF : UInt8).toNat = 255 := rfl
            omega
          · simp [hp, hb, List.cons_lt_cons_iff, byte_lt_succ_iff hb, hlt]
        · simp [hp, List.cons_lt_cons_iff, hlt.le, Ne.symm hbc]

end TieredStore.Meta
