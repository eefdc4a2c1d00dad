import TieredStore.Meta.TaskScans

/-!
# The budget of the repair scan

`EnqueueRepairCandidates` walks over the objects in the order of their last update, ties in any
order, and stops after a number of objects that need a repair. It counts an object also when its
repair task is still live and nothing is enqueued for it, so live tasks at the front use up the
budget of a round.
`repair_budget_iff` says when the scan enqueues as many repairs as its budget allows.

What an object needs is stated on the rows of its current version (`deficient`), what the scan
finds on the listing of that version (`listedDeficient`). The listing may hold rows of other
objects, whose ids extend the scanned prefix; then the scan overlooks a repair, but it never
invents one (`listedDeficient_deficient`).
-/

namespace TieredStore.Meta.RepairBudget

open Lib Lib.Prog TaskCoherence TaskScans

/-! ## Deficient versions -/

def targetReplicas (cfg : Config) : Int :=
  if cfg.hotReplicaCount ≤ 0 then 1 else cfg.hotReplicaCount

def requiredK (cfg : Config) (ver : ObjectVersionRecord) : Int :=
  match ver.encodingK with
  | some k => if k > 0 then k else cfg.k
  | none => cfg.k

def requiredM (cfg : Config) (ver : ObjectVersionRecord) : Int :=
  match ver.encodingM with
  | some m => if m > 0 then m else cfg.m
  | none => cfg.m

/-- An ACTIVE replica row of a version. -/
def isActiveReplica (o : GoString) (v : Int) : GoString × Value → Bool
  | (_, .replica r) => r.objectID = o ∧ r.version = v ∧ r.status = .active
  | _ => false

/-- An ACTIVE shard row of a version. -/
def isActiveShard (o : GoString) (v : Int) : GoString × Value → Bool
  | (_, .ecShard r) => r.objectID = o ∧ r.version = v ∧ r.status = .active
  | _ => false

def activeReplicaCount (s : Store) (o : GoString) (v : Int) : Nat :=
  s.entries.countP (isActiveReplica o v)

def activeShardCount (s : Store) (o : GoString) (v : Int) : Nat :=
  s.entries.countP (isActiveShard o v)

def repairReplicas (o : ObjectRecord) : GoString :=
  versionTask (lit "repair-repl:") o.objectID o.currentVersion

def repairShards (o : ObjectRecord) : GoString :=
  versionTask (lit "repair-ec:") o.objectID o.currentVersion

/-- The repair task of an object whose current version has too few active rows. -/
def deficient (cfg : Config) (s : Store) (o : ObjectRecord) : Option GoString :=
  match (catalog s).version o.objectID o.currentVersion with
  | none => none
  | some ver =>
    match ver.tier with
    | .hot =>
      if (activeReplicaCount s o.objectID o.currentVersion : Int) < targetReplicas cfg then
        some (repairReplicas o)
      else none
    | .ec =>
      if (activeShardCount s o.objectID o.currentVersion : Int) <
          requiredK cfg ver + requiredM cfg ver then
        some (repairShards o)
      else none

/-- The same by the listing of the version, as the scan has it. -/
def listedDeficient (cfg : Config) (s : Store) (o : ObjectRecord) : Option GoString :=
  match (catalog s).version o.objectID o.currentVersion with
  | none => none
  | some ver =>
    match ver.tier with
    | .hot =>
      if ((activeReplicas s o.objectID o.currentVersion).length : Int) < targetReplicas cfg then
        some (repairReplicas o)
      else none
    | .ec =>
      if wrap64 (requiredK cfg ver + requiredM cfg ver) ≤ 0 then none
      else if ((activeShards s o.objectID o.currentVersion).length : Int) <
          wrap64 (requiredK cfg ver + requiredM cfg ver) then
        some (repairShards o)
      else none

section Deficient

variable {P : GoString → Prop} {cfg : Config} {s s' : Store} {o : ObjectRecord} {id : GoString}

theorem requiredK_pos (cfg : Config) (ver : ObjectVersionRecord) : 0 < requiredK cfg ver := by
  have := cfg.k_pos
  unfold requiredK
  split
  · split <;> omega
  · omega

theorem requiredM_pos (cfg : Config) (ver : ObjectVersionRecord) : 0 < requiredM cfg ver := by
  have := cfg.m_pos
  unfold requiredM
  split
  · split <;> omega
  · omega

/-- The listing of a version has all its active replicas. -/
theorem activeReplicaCount_le (hs : Rows P s) (o : GoString) (v : Int) :
    activeReplicaCount s o v ≤ (activeReplicas s o v).length := by
  unfold activeReplicaCount activeReplicas replicaRows prefixEntries
  rw [← List.countP_eq_length_filter, List.countP_filterMap, List.countP_filter]
  refine List.countP_mono_left ?_
  rintro ⟨k, x⟩ hmem hx
  obtain ⟨r, rfl, rfl, rfl, hactive⟩ : ∃ r, x = .replica r ∧ r.objectID = o ∧ r.version = v ∧
      r.status = .active := by
    cases x with
    | replica r => exact ⟨r, rfl, by simpa [isActiveReplica] using hx⟩
    | _ => simp [isActiveReplica] at hx
  obtain ⟨rfl, -⟩ := hs _ _ (SortedMap.mem_entries.mp hmem)
  have hpre : tiKVReplicaVersionPrefix r.objectID r.version <+:
      tiKVReplicaKey r.objectID r.version r.nodeID := List.prefix_append _ _
  simp [hactive, hpre, Value.asReplica]

/-- The listing of a version has all its active shards. -/
theorem activeShardCount_le (hs : Rows P s) (o : GoString) (v : Int) :
    activeShardCount s o v ≤ (activeShards s o v).length := by
  unfold activeShardCount activeShards shardRows prefixEntries
  rw [← List.countP_eq_length_filter, List.countP_filterMap, List.countP_filter]
  refine List.countP_mono_left ?_
  rintro ⟨k, x⟩ hmem hx
  obtain ⟨r, rfl, rfl, rfl, hactive⟩ : ∃ r, x = .ecShard r ∧ r.objectID = o ∧ r.version = v ∧
      r.status = .active := by
    cases x with
    | ecShard r => exact ⟨r, rfl, by simpa [isActiveShard] using hx⟩
    | _ => simp [isActiveShard] at hx
  obtain ⟨rfl, -⟩ := hs _ _ (SortedMap.mem_entries.mp hmem)
  have hpre : tiKVECShardVersionPrefix r.objectID r.version <+:
      tiKVECShardKey r.objectID r.version r.shardIndex := List.prefix_append _ _
  simp [hactive, hpre, Value.asECShard]

theorem listedDeficient_deficient (hs : Rows P s) (h : listedDeficient cfg s o = some id) :
    deficient cfg s o = some id := by
  unfold listedDeficient at h
  unfold deficient
  split at h
  · cases h
  · rename_i ver _
    split at h
    · split at h
      · rename_i hlt
        have hle := activeReplicaCount_le hs o.objectID o.currentVersion
        rw [if_pos (by omega)]
        exact h
      · cases h
    · split at h
      · cases h
      · split at h
        · rename_i hlt
          have hle := activeShardCount_le hs o.objectID o.currentVersion
          have hk := requiredK_pos cfg ver
          have hm := requiredM_pos cfg ver
          have hwrap := wrap64_le (x := requiredK cfg ver + requiredM cfg ver) (by omega)
          rw [if_pos (by omega)]
          exact h
        · cases h

theorem SameData.listedDeficient (h : SameData s s') (o : ObjectRecord) :
    listedDeficient cfg s' o = listedDeficient cfg s o := by
  unfold RepairBudget.listedDeficient activeReplicas activeShards
  simp only [h.version, h.replicaRows, h.shardRows]

theorem deficient_cases (h : deficient cfg s o = some id) :
    id = repairReplicas o ∨ id = repairShards o := by
  unfold deficient at h
  repeat' split at h
  all_goals cases h
  · exact Or.inl rfl
  · exact Or.inr rfl

theorem repairReplicas_ne_repairShards (o o' : ObjectRecord) :
    repairReplicas o ≠ repairShards o' := by
  intro h
  have hhead := congrArg (List.take 8) h
  have hfront : ∀ x, List.take 8 (lit "repair-repl:" ++ x) = lit "repair-r" := by
    intro x
    rw [List.take_append_of_le_length (by decide)]
    decide
  have hback : ∀ x, List.take 8 (lit "repair-ec:" ++ x) = lit "repair-e" := by
    intro x
    rw [List.take_append_of_le_length (by decide)]
    decide
  simp only [repairReplicas, repairShards, versionTask, List.append_assoc, hfront, hback] at hhead
  exact absurd hhead (by decide)

/-- A repair task belongs to one object. -/
theorem deficient_objectID {o' : ObjectRecord} (h : deficient cfg s o = some id)
    (h' : deficient cfg s o' = some id) : o.objectID = o'.objectID := by
  rcases deficient_cases h with rfl | rfl <;> rcases deficient_cases h' with heq | heq
  · exact (versionTask_inj.mp heq).1
  · exact absurd heq (repairReplicas_ne_repairShards o o')
  · exact absurd heq.symm (repairReplicas_ne_repairShards o' o)
  · exact (versionTask_inj.mp heq).1

end Deficient

/-! ## The scan -/

/-- The repair tasks of deficient objects that are not live, in any order. -/
def openRepairs (cfg : Config) (s : Store) : List GoString :=
  ((objectRows s).filterMap (deficient cfg s)).filter (taskIdle s)

/-- The repair tasks that the scan comes to, live or not, in its order. -/
def scannedRepairs (order : UpdateOrder) (cfg : Config) (s : Store) : List GoString :=
  (order.sort (objectRows s)).filterMap (listedDeficient cfg s)

section Scan

variable {β : Type} {P : GoString → Prop} {order : UpdateOrder} {cfg : Config} {s : Store}
  {clock : Time} {clocks : Nat → Time} {maxObjects : Int}

theorem ite_pure_bind {α : Type} {c : Prop} [Decidable c] (a b : α) (f : α → KV β) :
    ((if c then pure a else pure b) >>= f) = f (if c then a else b) := by
  split <;> rfl

theorem atomically_repairTaskID (hs : Typed s) (o : ObjectRecord) {f : Option GoString → KV β} :
    atomically (repairTaskID cfg o >>= f) s = atomically (f (listedDeficient cfg s o)) s := by
  unfold repairTaskID listedDeficient
  rw [bind_assoc, atomically_getObjectVersionRecord hs]
  cases (catalog s).version o.objectID o.currentVersion with
  | none => rfl
  | some ver =>
    dsimp only
    cases ver.tier with
    | hot =>
      dsimp only
      rw [bind_assoc, atomically_listReplicaRecords hs, filter_active]
      exact congrArg (atomically · s) (ite_pure_bind _ _ f)
    | ec =>
      dsimp only
      by_cases hwrap : wrap64 (requiredK cfg ver + requiredM cfg ver) ≤ 0
      · rw [if_pos hwrap]
        exact congrArg (atomically · s) (congrArg (· >>= f) (if_pos hwrap))
      · rw [if_neg hwrap]
        refine (congrArg (atomically · s) (congrArg (· >>= f) (if_neg hwrap))).trans ?_
        rw [bind_assoc, atomically_listECShardRecords hs]
        exact congrArg (atomically · s) (ite_pure_bind _ _ f)

/-- From any point of the loop: the tasks that it takes are the idle ones among those that the
rest of the budget covers. -/
theorem atomically_repairLoop (hs : Rows AnyID s) {objs : List ObjectRecord}
    (hnodup : (objs.filterMap (listedDeficient cfg s)).Nodup) (selected enqueued : Int) :
    ∃ s', Enqueued (((objs.filterMap (listedDeficient cfg s)).take
        (maxObjects - selected).toNat).filter (taskIdle s)) s s' ∧
      atomically (enqueueRepairLoop cfg clock maxObjects clocks objs selected enqueued) s =
        (.ok (enqueued + (((objs.filterMap (listedDeficient cfg s)).take
          (maxObjects - selected).toNat).filter (taskIdle s)).length), s') := by
  induction objs generalizing s selected enqueued with
  | nil => exact ⟨s, by simpa using enqueued_nil hs, by simp [enqueueRepairLoop]⟩
  | cons o rest ih =>
    unfold enqueueRepairLoop
    by_cases hfull : selected ≥ maxObjects
    · have hzero : (maxObjects - selected).toNat = 0 := by omega
      rw [if_pos hfull, hzero]
      exact ⟨s, by simpa using enqueued_nil hs, by simp⟩
    · rw [if_neg hfull, atomically_repairTaskID hs.typed]
      cases hneed : listedDeficient cfg s o with
      | none =>
        rw [List.filterMap_cons_none hneed] at hnodup ⊢
        exact ih hs hnodup selected enqueued
      | some id =>
        rw [List.filterMap_cons_some hneed] at hnodup ⊢
        obtain ⟨hnotin, hnodup⟩ := List.nodup_cons.mp hnodup
        have hid : id ≠ [] := by
          rcases deficient_cases (listedDeficient_deficient hs hneed) with rfl | rfl <;>
            exact versionTask_ne_nil _ _ _
        obtain ⟨s₁, h₁, hrun⟩ := @atomically_enqueueOrRequeue Int s id clock
          (clocks selected.toNat) o.objectID (lit "REPAIR") o.currentVersion 200 hs hid
        -- the rest of the loop reads the same data and finds the other tasks as they were
        have hsame : rest.filterMap (listedDeficient cfg s₁) =
            rest.filterMap (listedDeficient cfg s) :=
          List.filterMap_congr fun o _ => SameData.listedDeficient h₁.data o
        have hrest := ih h₁.rows (by rwa [hsame]) (selected + 1)
          (if taskIdle s id = true then enqueued + 1 else enqueued)
        rw [hsame] at hrest
        have hidle : ∀ n, ((rest.filterMap (listedDeficient cfg s)).take n).filter
            (taskIdle s₁) = ((rest.filterMap (listedDeficient cfg s)).take n).filter
              (taskIdle s) := by
          refine fun n => h₁.filter_idle fun id' hid' => ?_
          have hne : id' ≠ id := by
            rintro rfl
            exact hnotin (List.mem_of_mem_take hid')
          split <;> simp [hne]
        rw [hidle] at hrest
        obtain ⟨s', hs', hrest⟩ := hrest
        have hsucc : (maxObjects - selected).toNat = (maxObjects - (selected + 1)).toNat + 1 := by
          omega
        rw [hsucc, List.take_succ_cons, List.filter_cons]
        refine ⟨s', ?_, ?_⟩
        · have htrans := h₁.trans hs'
          split at htrans <;> rename_i h
          · rwa [if_pos h]
          · rwa [if_neg h]
        · refine (hrun _).trans (hrest.trans ?_)
          by_cases h : taskIdle s id = true
          · rw [if_pos h, if_pos h, List.length_cons]
            congr 2
            push_cast
            ring
          · rw [if_neg h, if_neg h]

/-- Different objects have different repair tasks. -/
theorem repairs_nodup {f : ObjectRecord → Option GoString}
    (hf : ∀ o id, f o = some id → deficient cfg s o = some id) {l : List ObjectRecord}
    (hl : l.Pairwise fun a b => a.objectID ≠ b.objectID) : (l.filterMap f).Nodup := by
  refine List.pairwise_filterMap.mpr (hl.imp ?_)
  rintro a b hne id ha id' hb rfl
  exact hne (deficient_objectID (hf a _ ha) (hf b _ hb))

theorem openRepairs_nodup (hs : Rows P s) : (openRepairs cfg s).Nodup :=
  (repairs_nodup (fun _ _ h => h) (objectRows_distinct hs)).filter _

theorem scannedRepairs_nodup (hs : Rows P s) : (scannedRepairs order cfg s).Nodup := by
  refine repairs_nodup (fun _ _ => listedDeficient_deficient hs) ?_
  exact (List.Perm.pairwise_iff (fun h => h.symm) (order.perm _)).mpr
    (objectRows_distinct hs)

theorem openRepairs_of_scanned (hs : Rows P s) {id : GoString}
    (h : id ∈ scannedRepairs order cfg s) (hidle : taskIdle s id = true) : id ∈ openRepairs cfg s := by
  obtain ⟨o, ho, hid⟩ := List.mem_filterMap.mp h
  refine List.mem_filter.mpr ⟨List.mem_filterMap.mpr ⟨o, ?_, ?_⟩, hidle⟩
  · exact (order.perm _).mem_iff.mp ho
  · exact listedDeficient_deficient hs hid

/-- The repair tasks that a scan takes: the idle ones among the first that it comes to. -/
def takenRepairs (order : UpdateOrder) (cfg : Config) (s : Store) (maxObjects : Int) :
    List GoString :=
  ((scannedRepairs order cfg s).take maxObjects.toNat).filter (taskIdle s)

theorem takenRepairs_nodup (hs : Rows P s) : (takenRepairs order cfg s maxObjects).Nodup :=
  ((scannedRepairs_nodup hs).sublist (List.take_sublist _ _)).filter _

theorem takenRepairs_subset (hs : Rows P s) :
    takenRepairs order cfg s maxObjects ⊆ openRepairs cfg s := by
  intro id hid
  obtain ⟨htake, hidle⟩ := List.mem_filter.mp hid
  exact openRepairs_of_scanned hs (List.mem_of_mem_take htake) hidle

theorem atomically_enqueueRepairCandidates (hs : Rows AnyID s) (hmax : 1 ≤ maxObjects) :
    ∃ s', Enqueued (takenRepairs order cfg s maxObjects) s s' ∧
      atomically (enqueueRepairCandidates order cfg clock clocks maxObjects) s =
        (.ok ((takenRepairs order cfg s maxObjects).length : Int), s') := by
  obtain ⟨s', hs', hrun⟩ := @atomically_repairLoop cfg s clock clocks maxObjects hs _
    (scannedRepairs_nodup hs) 0 0
  rw [sub_zero] at hs' hrun
  refine ⟨s', hs', ?_⟩
  unfold enqueueRepairCandidates
  rw [if_neg (by omega), atomically_listObjects hs.typed, hrun, zero_add]
  rfl

/-- The scan takes as many open repairs as its budget allows exactly when the budget is spent on
idle tasks, or every open repair is within the budget. -/
theorem length_takenRepairs_iff (hs : Rows P s) (hmax : 1 ≤ maxObjects) :
    (takenRepairs order cfg s maxObjects).length = min maxObjects.toNat (openRepairs cfg s).length ↔
      (maxObjects ≤ (scannedRepairs order cfg s).length ∧
        ∀ id ∈ (scannedRepairs order cfg s).take maxObjects.toNat, taskIdle s id = true) ∨
      ∀ id ∈ openRepairs cfg s, id ∈ (scannedRepairs order cfg s).take maxObjects.toNat := by
  have hsub : (takenRepairs order cfg s maxObjects).Subperm (openRepairs cfg s) :=
    (takenRepairs_nodup hs).subperm (takenRepairs_subset hs)
  have hopen : (takenRepairs order cfg s maxObjects).length ≤ (openRepairs cfg s).length :=
    hsub.length_le
  have hfilter : (takenRepairs order cfg s maxObjects).length ≤
      ((scannedRepairs order cfg s).take maxObjects.toNat).length := List.length_filter_le _ _
  have htake : ((scannedRepairs order cfg s).take maxObjects.toNat).length = _ := List.length_take
  constructor
  · intro hlen
    rcases Nat.lt_or_ge (openRepairs cfg s).length maxObjects.toNat with hlt | hge
    · refine Or.inr fun id hid => ?_
      have hperm := hsub.perm_of_length_le (by omega)
      exact (List.mem_filter.mp (hperm.mem_iff.mpr hid)).1
    · refine Or.inl ⟨by omega, ?_⟩
      exact List.length_filter_eq_length_iff.mp
        (show (takenRepairs order cfg s maxObjects).length = _ by omega)
  · rintro (⟨hlong, hidle⟩ | hall)
    · have hfull : (takenRepairs order cfg s maxObjects).length = _ :=
        List.length_filter_eq_length_iff.mpr hidle
      omega
    · have hback : openRepairs cfg s ⊆ takenRepairs order cfg s maxObjects := fun id hid =>
        List.mem_filter.mpr ⟨hall id hid, (List.mem_filter.mp hid).2⟩
      have hle := (List.Nodup.subperm (openRepairs_nodup hs) hback).length_le
      omega

end Scan

/-! ## The whole budget -/

/-- What a scan that uses its whole budget returns: it counts and takes as many open repairs as
the budget allows, and touches no other task. -/
structure UsesBudget (cfg : Config) (s : Store) (maxObjects : Int)
    (run : Except GoError Int × Store) : Prop where
  count : run.1 = .ok (min maxObjects (openRepairs cfg s).length)
  tasks : Set.ncard {id | taskRow run.2 id ≠ taskRow s id} =
    min maxObjects.toNat (openRepairs cfg s).length
  pending : ∀ id, taskRow run.2 id ≠ taskRow s id → id ∈ openRepairs cfg s ∧
    ∃ rec, taskRow run.2 id = some rec ∧ rec.taskState = .pending

theorem usesBudget_iff {order : UpdateOrder} {cfg : Config} {s s' : Store} {maxObjects : Int}
    (hs : Rows AnyID s) (hmax : 1 ≤ maxObjects) (h : Enqueued (takenRepairs order cfg s maxObjects) s s') :
    UsesBudget cfg s maxObjects (.ok ((takenRepairs order cfg s maxObjects).length : Int), s') ↔
      (takenRepairs order cfg s maxObjects).length =
        min maxObjects.toNat (openRepairs cfg s).length := by
  have hchanged : ∀ id, taskRow s' id ≠ taskRow s id ↔ id ∈ takenRepairs order cfg s maxObjects :=
    fun id => h.changed_iff fun id hid => (List.mem_filter.mp hid).2
  have hcard : Set.ncard {id | taskRow s' id ≠ taskRow s id} =
      (takenRepairs order cfg s maxObjects).length := by
    simp only [hchanged]
    rw [← List.coe_toFinset, Set.ncard_coe_finset,
      List.toFinset_card_of_nodup (takenRepairs_nodup hs)]
  constructor
  · intro huses
    exact hcard.symm.trans huses.tasks
  · intro hlen
    refine ⟨?_, hcard.trans hlen, ?_⟩
    · simp only [Except.ok.injEq]
      omega
    · intro id hid
      have htaken := (hchanged id).mp hid
      exact ⟨takenRepairs_subset hs htaken, h.pending id htaken⟩

theorem repair_budget_iff (order : UpdateOrder) (cfg : Config) (clock : Time)
    (clocks : Nat → Time) {s : Store} (hs : Rows (fun _ => True) s) {maxObjects : Int} (hmax : 1 ≤ maxObjects) :
    UsesBudget cfg s maxObjects
        (atomically (enqueueRepairCandidates order cfg clock clocks maxObjects) s) ↔
      (maxObjects ≤ (scannedRepairs order cfg s).length ∧
        ∀ id ∈ (scannedRepairs order cfg s).take maxObjects.toNat, taskIdle s id = true) ∨
      ∀ id ∈ openRepairs cfg s, id ∈ (scannedRepairs order cfg s).take maxObjects.toNat := by
  obtain ⟨s', hs', hrun⟩ := @atomically_enqueueRepairCandidates order cfg s clock clocks _ hs hmax
  rw [hrun, usesBudget_iff hs hmax hs']
  exact length_takenRepairs_iff hs hmax

/-- Three HOT objects without replicas, two of them updated at one time; the repair of one of these
is running. -/
def tiedRepair : Store :=
  SortedMap.empty.applyAll
    [.set (tiKVObjectKey (lit "a")) (.object ⟨lit "a", lit "default", 1, .hotActive, 1, 1⟩),
      .set (tiKVObjectVersionKey (lit "a") 1)
        (.objectVersion ⟨lit "a", 1, 3, lit "sum", .hot, none, none, none, 1⟩),
      .set (tiKVObjectKey (lit "b")) (.object ⟨lit "b", lit "default", 2, .hotActive, 2, 2⟩),
      .set (tiKVObjectVersionKey (lit "b") 2)
        (.objectVersion ⟨lit "b", 2, 3, lit "sum", .hot, none, none, none, 2⟩),
      .set (tiKVObjectKey (lit "c")) (.object ⟨lit "c", lit "default", 2, .hotActive, 2, 2⟩),
      .set (tiKVObjectVersionKey (lit "c") 2)
        (.objectVersion ⟨lit "c", 2, 3, lit "sum", .hot, none, none, none, 2⟩),
      .set (tiKVTaskKey (lit "repair-repl:b:2"))
        (.task { newTask (lit "repair-repl:b:2") (lit "b") 2 (lit "REPAIR") 200 3 with
          taskState := .running, startedAt := some 4 })]

theorem tiedRepair_rows : Rows (fun _ => True) tiedRepair :=
  rows_iff_entries.mpr (by decide +kernel)

/-- A budget of two is used when the sort puts the running repair last, and is not when it puts it
second. A budget of three is used by both. -/
theorem tiedRepair_budgets :
    UsesBudget {} tiedRepair 2
      (atomically (enqueueRepairCandidates .reversing {} 9 (fun _ => 9) 2) tiedRepair) ∧
    ¬ UsesBudget {} tiedRepair 2
      (atomically (enqueueRepairCandidates .stable {} 9 (fun _ => 9) 2) tiedRepair) ∧
    UsesBudget {} tiedRepair 3
      (atomically (enqueueRepairCandidates .stable {} 9 (fun _ => 9) 3) tiedRepair) := by
  refine ⟨?_, ?_, ?_⟩
  · exact (repair_budget_iff _ {} 9 (fun _ => 9) tiedRepair_rows (by decide)).mpr
      (Or.inl (by decide +kernel))
  · rw [repair_budget_iff _ {} 9 (fun _ => 9) tiedRepair_rows (by decide)]
    decide +kernel
  · exact (repair_budget_iff _ {} 9 (fun _ => 9) tiedRepair_rows (by decide)).mpr
      (Or.inr (by decide +kernel))

/-- Two HOT objects without replicas; the repair of the older one is running. -/
def busyRepair : Store :=
  SortedMap.empty.applyAll
    [.set (tiKVObjectKey (lit "a")) (.object ⟨lit "a", lit "default", 1, .hotActive, 1, 1⟩),
      .set (tiKVObjectVersionKey (lit "a") 1)
        (.objectVersion ⟨lit "a", 1, 3, lit "sum", .hot, none, none, none, 1⟩),
      .set (tiKVObjectKey (lit "b")) (.object ⟨lit "b", lit "default", 2, .hotActive, 2, 2⟩),
      .set (tiKVObjectVersionKey (lit "b") 2)
        (.objectVersion ⟨lit "b", 2, 3, lit "sum", .hot, none, none, none, 2⟩),
      .set (tiKVTaskKey (lit "repair-repl:a:1"))
        (.task { newTask (lit "repair-repl:a:1") (lit "a") 1 (lit "REPAIR") 200 3 with
          taskState := .running, startedAt := some 4 })]

/-- With a budget of one the running repair uses it up: nothing is enqueued, although the other
object is deficient and has no task. -/
theorem busyRepair_one : Rows (fun _ => True) busyRepair ∧
    openRepairs {} busyRepair = [lit "repair-repl:b:2"] ∧ ∀ order : UpdateOrder,
      (atomically (enqueueRepairCandidates order {} 9 (fun _ => 9) 1) busyRepair).1 = .ok 0 ∧
      ¬ UsesBudget {} busyRepair 1
        (atomically (enqueueRepairCandidates order {} 9 (fun _ => 9) 1) busyRepair) := by
  have hrows : Rows (fun _ => True) busyRepair := rows_iff_entries.mpr (by decide +kernel)
  have hopen : openRepairs {} busyRepair = [lit "repair-repl:b:2"] := by decide +kernel
  refine ⟨hrows, hopen, fun order => ?_⟩
  have htaken : takenRepairs order {} busyRepair 1 = [] := by
    unfold takenRepairs scannedRepairs
    rw [order.sort_eq_self (by decide +kernel)]
    decide +kernel
  obtain ⟨s', -, hrun⟩ := @atomically_enqueueRepairCandidates order {} busyRepair 9 (fun _ => 9) 1
    hrows (by decide)
  rw [htaken] at hrun
  have hzero : (atomically (enqueueRepairCandidates order {} 9 (fun _ => 9) 1) busyRepair).1 =
      .ok 0 := congrArg Prod.fst hrun
  refine ⟨hzero, fun huses => ?_⟩
  have hcount := hzero.symm.trans huses.count
  rw [hopen] at hcount
  exact absurd hcount (by decide)

end TieredStore.Meta.RepairBudget
