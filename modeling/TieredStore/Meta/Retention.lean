import TieredStore.Lib.Ranked
import TieredStore.Meta.TaskScans

/-!
# What the history scan retains

`EnqueueOldVersionGCCandidates` goes through the versions of an object from the newest down. Its
counter treats the current version specially, and the current version need not be the newest; still
the scan retains exactly the versions with fewer than `keepLatest` newer ones, next to the current
one (`tasksAfter_skip`, `mem_drop_iff_count`). Of the others it takes those that are old enough and
whose task is idle, until it has taken `maxTasks`.
-/

namespace TieredStore.Meta.Retention

open Lib Lib.Prog TaskCoherence TaskScans

/-! ## The versions of an object -/

section Versions

variable {P : GoString → Prop} {s : Store} {o : GoString} {v : Int}

/-- The scan of an object finds its own versions only. -/
theorem objectVersion_scan_iff (hP : Separated P) {o' : GoString} (ho : P o) (ho' : P o') :
    tiKVObjectVersionPrefix o <+: tiKVObjectVersionKey o' v ↔ o = o' := by
  unfold tiKVObjectVersionPrefix tiKVObjectVersionKey
  constructor
  · rintro ⟨x, hx⟩
    simp only [List.append_assoc, List.append_right_inj, List.singleton_append] at hx
    exact hP ho ho' hx
  · rintro rfl
    exact ⟨tiKVEncodeInt64 v, rfl⟩

theorem mem_versionRows (hP : Separated P) (hs : Rows P s) (ho : P o) {r : ObjectVersionRecord} :
    r ∈ versionRows s o ↔ (catalog s).version o r.version = some r ∧ r.objectID = o := by
  unfold versionRows
  simp only [List.mem_filterMap, Value.asObjectVersion_eq_some, catalog_version]
  constructor
  · rintro ⟨⟨k, x⟩, he, rfl⟩
    obtain ⟨hget, hpre⟩ := mem_prefixEntries.mp he
    obtain ⟨rfl, ho'⟩ := hs _ _ hget
    obtain rfl := (objectVersion_scan_iff hP ho ho').mp hpre
    exact ⟨hget, rfl⟩
  · rintro ⟨hget, rfl⟩
    exact ⟨_, mem_prefixEntries.mpr ⟨hget, (objectVersion_scan_iff hP ho ho).mpr rfl⟩, rfl⟩

/-- A version row of the object with a larger number. -/
def isNewer (o : GoString) (v : Int) : GoString × Value → Bool
  | (_, .objectVersion r) => r.objectID = o ∧ v < r.version
  | _ => false

/-- How many versions of an object are newer than a given one. -/
def newerVersions (s : Store) (o : GoString) (v : Int) : Nat := s.entries.countP (isNewer o v)

theorem countP_versionRows (hP : Separated P) (hs : Rows P s) (ho : P o) (v : Int) :
    (versionRows s o).countP (fun r => v < r.version) = newerVersions s o v := by
  unfold versionRows newerVersions prefixEntries
  rw [List.countP_filterMap, List.countP_filter]
  refine List.countP_congr ?_
  rintro ⟨k, x⟩ hmem
  cases x with
  | objectVersion r =>
    obtain ⟨rfl, ho'⟩ := hs _ _ (SortedMap.mem_entries.mp hmem)
    have hscan := objectVersion_scan_iff (v := r.version) hP ho ho'
    simp only [Value.asObjectVersion, Option.map_some, Option.getD_some, isNewer, hscan,
      Bool.and_eq_true, decide_eq_true_eq]
    exact ⟨fun h => ⟨h.2.symm, h.1⟩, fun h => ⟨h.2, h.1.symm⟩⟩
  | _ => simp [isNewer, Value.asObjectVersion]

/-- The versions of an object from the newest down, as the scan goes through them. -/
def sortedVersions (s : Store) (o : GoString) : List ObjectVersionRecord :=
  (versionRows s o).insertionSort versionBefore

theorem versionRows_distinct (hP : Separated P) (hs : Rows P s) (ho : P o) :
    (versionRows s o).Pairwise fun a b => a.version ≠ b.version := by
  refine List.pairwise_filterMap.mpr
    ((prefixEntries_sorted s (tiKVObjectVersionPrefix o)).imp_of_mem ?_)
  rintro ⟨k, x⟩ ⟨k', x'⟩ hmem hmem' hlt a ha b hb hver
  rw [Value.asObjectVersion_eq_some] at ha hb
  subst ha hb
  obtain ⟨hget, hpre⟩ := mem_prefixEntries.mp hmem
  obtain ⟨hget', hpre'⟩ := mem_prefixEntries.mp hmem'
  obtain ⟨rfl, ho₁⟩ := hs _ _ hget
  obtain ⟨rfl, ho₂⟩ := hs _ _ hget'
  have h₁ := (objectVersion_scan_iff hP ho ho₁).mp hpre
  have h₂ := (objectVersion_scan_iff hP ho ho₂).mp hpre'
  simp only [← h₁, ← h₂, hver] at hlt
  exact lt_irrefl _ hlt

theorem sortedVersions_falling (hP : Separated P) (hs : Rows P s) (ho : P o) :
    (sortedVersions s o).Pairwise fun a b => b.version < a.version := by
  have htotal : Std.Total versionBefore := by
    constructor
    intro a b
    grind [versionBefore]
  have htrans : IsTrans _ versionBefore := by
    constructor
    intro a b c hab hbc
    grind [versionBefore]
  have hsorted := List.pairwise_insertionSort versionBefore (versionRows s o)
  have hdist := (List.Perm.pairwise_iff (fun h => h.symm)
    (List.perm_insertionSort versionBefore (versionRows s o))).mpr (versionRows_distinct hP hs ho)
  refine (hsorted.and hdist).imp ?_
  rintro a b ⟨hbefore, hne⟩
  unfold versionBefore at hbefore
  omega

end Versions

/-! ## The loop over the versions of an object -/

/-- The task that collects a version. -/
def gcOldTask (o : GoString) (v : Int) : GoString := versionTask (lit "gc-old:") o v

/-- Neither current nor too young. -/
def expendable (now : Time) (minAgeSec : Int) (obj : ObjectRecord) (ver : ObjectVersionRecord) :
    Bool :=
  ver.version ≠ obj.currentVersion ∧
    ¬ (minAgeSec > 0 ∧ now.sub ver.createdAt < Time.seconds minAgeSec)

/-- The versions that the loop comes to enqueue when it has retained `retained` so far. -/
def expendableAfter (now : Time) (keepLatest minAgeSec : Int) (obj : ObjectRecord)
    (vers : List ObjectVersionRecord) (retained : Int) : List ObjectVersionRecord :=
  (vers.drop (keepLatest - retained).toNat).filter (expendable now minAgeSec obj)

section Loop

variable {s : Store} {clock now : Time} {keepLatest minAgeSec maxTasks retained : Int}
  {obj : ObjectRecord} {ver : ObjectVersionRecord} {rest : List ObjectVersionRecord}

/-- A retained version, and the current one anywhere, moves the counter on. -/
theorem expendableAfter_retain (h : ver.version = obj.currentVersion ∨ retained < keepLatest) :
    expendableAfter now keepLatest minAgeSec obj (ver :: rest) retained =
      expendableAfter now keepLatest minAgeSec obj rest (retained + 1) := by
  unfold expendableAfter
  by_cases hlt : retained < keepLatest
  · have hsucc : (keepLatest - retained).toNat = (keepLatest - (retained + 1)).toNat + 1 := by
      omega
    rw [hsucc, List.drop_succ_cons]
  · have hcur := h.resolve_right hlt
    have hzero : (keepLatest - retained).toNat = 0 := by omega
    have hzero' : (keepLatest - (retained + 1)).toNat = 0 := by omega
    rw [hzero, hzero', List.drop_zero, List.drop_zero,
      List.filter_cons_of_neg (by simp [expendable, hcur])]

theorem expendableAfter_cons (h : ¬ retained < keepLatest) :
    expendableAfter now keepLatest minAgeSec obj (ver :: rest) retained =
      if expendable now minAgeSec obj ver = true then
        ver :: expendableAfter now keepLatest minAgeSec obj rest retained
      else expendableAfter now keepLatest minAgeSec obj rest retained := by
  have hzero : (keepLatest - retained).toNat = 0 := by omega
  unfold expendableAfter
  rw [hzero, List.drop_zero, List.drop_zero, List.filter_cons]

/-- The tasks of a list of versions. -/
def tasksOf (obj : ObjectRecord) (vers : List ObjectVersionRecord) : List GoString :=
  vers.map fun ver => gcOldTask obj.objectID ver.version

theorem tasksOf_cons (vers : List ObjectVersionRecord) : tasksOf obj (ver :: vers) =
    gcOldTask obj.objectID ver.version :: tasksOf obj vers := rfl

theorem mem_tasksOf {id : GoString} {vers : List ObjectVersionRecord} :
    id ∈ tasksOf obj vers ↔ ∃ ver ∈ vers, gcOldTask obj.objectID ver.version = id :=
  List.mem_map

/-- From any point of the loop: the tasks that it takes are the first idle ones of the versions
that it comes to enqueue. -/
theorem atomically_enqueueOldVersions (hs : Rows AnyID s) {vers : List ObjectVersionRecord}
    (hvers : vers.Pairwise fun a b => a.version ≠ b.version) (retained : Int) {enqueued : Int}
    (henq : enqueued < maxTasks) :
    ∃ s', Enqueued (((tasksOf obj (expendableAfter now keepLatest minAgeSec obj vers
        retained)).filter (taskIdle s)).take (maxTasks - enqueued).toNat) s s' ∧
      atomically (enqueueOldVersions clock now keepLatest minAgeSec maxTasks obj vers retained
          enqueued) s =
        (.ok (enqueued + (((tasksOf obj (expendableAfter now keepLatest minAgeSec obj vers
          retained)).filter (taskIdle s)).take (maxTasks - enqueued).toNat).length), s') := by
  induction vers generalizing s retained enqueued with
  | nil => exact ⟨s, by simpa [expendableAfter, tasksOf] using enqueued_nil hs,
      by simp [enqueueOldVersions, expendableAfter, tasksOf]⟩
  | cons ver rest ih =>
    obtain ⟨hver, hrest⟩ := List.pairwise_cons.mp hvers
    unfold enqueueOldVersions
    by_cases hcur : ver.version = obj.currentVersion
    · rw [if_pos hcur, expendableAfter_retain (Or.inl hcur)]
      exact ih hs hrest (retained + 1) henq
    · rw [if_neg hcur]
      by_cases hret : retained < keepLatest
      · rw [if_pos hret, expendableAfter_retain (Or.inr hret)]
        exact ih hs hrest (retained + 1) henq
      · rw [if_neg hret, expendableAfter_cons hret]
        by_cases hyoung : minAgeSec > 0 ∧ now.sub ver.createdAt < Time.seconds minAgeSec
        · have hnot : ¬ expendable now minAgeSec obj ver = true := by
            simp only [expendable, decide_eq_true_eq]
            exact fun h => h.2 hyoung
          rw [if_pos hyoung, if_neg hnot]
          exact ih hs hrest retained henq
        · have hexp : expendable now minAgeSec obj ver = true := decide_eq_true ⟨hcur, hyoung⟩
          rw [if_neg hyoung, if_pos hexp]
          obtain ⟨s₁, h₁, hrun⟩ := @atomically_enqueueOrRequeue Int s
            (gcOldTask obj.objectID ver.version) clock now obj.objectID (lit "GC_OLD_VERSION")
            ver.version 80 hs (versionTask_ne_nil _ _ _)
          have hother : ∀ id ∈ tasksOf obj
              (expendableAfter now keepLatest minAgeSec obj rest retained),
              id ≠ gcOldTask obj.objectID ver.version := by
            intro id hid heq
            obtain ⟨ver', hver', hid'⟩ := mem_tasksOf.mp hid
            have hmem := List.mem_of_mem_drop (List.mem_of_mem_filter hver')
            exact hver ver' hmem (versionTask_inj.mp (hid'.trans heq)).2.symm
          rw [tasksOf_cons, List.filter_cons]
          by_cases hidle : taskIdle s (gcOldTask obj.objectID ver.version) = true
          · rw [if_pos hidle] at h₁ ⊢
            by_cases hfull : enqueued + 1 ≥ maxTasks
            · have hone : (maxTasks - enqueued).toNat = 1 := by omega
              rw [hone]
              refine ⟨s₁, h₁, (hrun _).trans ?_⟩
              rw [if_pos hidle, if_pos hfull]
              rfl
            · obtain ⟨s', hs', hloop⟩ := @ih s₁ h₁.rows hrest retained (enqueued + 1) (by omega)
              rw [h₁.filter_idle fun id hid => by simpa using hother id hid] at hs' hloop
              have hsucc : (maxTasks - enqueued).toNat = (maxTasks - (enqueued + 1)).toNat + 1 := by
                omega
              rw [hsucc, List.take_succ_cons]
              refine ⟨s', h₁.trans hs', (hrun _).trans ?_⟩
              rw [if_pos hidle, if_neg hfull, hloop, List.length_cons]
              congr 2
              push_cast
              ring
          · rw [if_neg hidle] at h₁ ⊢
            obtain ⟨s', hs', hloop⟩ := @ih s₁ h₁.rows hrest retained enqueued henq
            rw [h₁.filter_idle fun id hid => List.not_mem_nil] at hs' hloop
            refine ⟨s', h₁.trans hs', (hrun _).trans ?_⟩
            rw [if_neg hidle]
            exact hloop

end Loop

/-! ## The loop over the objects -/

/-- The versions of an object that the scan comes to enqueue. -/
def expendableVersions (s : Store) (now : Time) (keepLatest minAgeSec : Int) (obj : ObjectRecord) :
    List ObjectVersionRecord :=
  expendableAfter now keepLatest minAgeSec obj (sortedVersions s obj.objectID) 0

/-- The tasks of these versions, object by object. -/
def scannedTasks (s : Store) (now : Time) (keepLatest minAgeSec : Int) (objs : List ObjectRecord) :
    List GoString :=
  objs.flatMap fun obj => tasksOf obj (expendableVersions s now keepLatest minAgeSec obj)

section Objects

variable {s s' : Store} {clock now : Time} {keepLatest minAgeSec maxTasks : Int}
  {obj : ObjectRecord} {objs : List ObjectRecord}

theorem scannedTasks_cons : scannedTasks s now keepLatest minAgeSec (obj :: objs) =
    tasksOf obj (expendableVersions s now keepLatest minAgeSec obj) ++
      scannedTasks s now keepLatest minAgeSec objs := List.flatMap_cons

theorem SameData.expendableVersions (h : SameData s s') (obj : ObjectRecord) :
    expendableVersions s' now keepLatest minAgeSec obj =
      expendableVersions s now keepLatest minAgeSec obj := by
  unfold Retention.expendableVersions sortedVersions
  rw [h.versionRows]

theorem SameData.scannedTasks (h : SameData s s') :
    scannedTasks s' now keepLatest minAgeSec objs = scannedTasks s now keepLatest minAgeSec objs := by
  unfold Retention.scannedTasks
  simp only [SameData.expendableVersions h]

/-- The tasks of an object are not tasks of the other objects. -/
theorem scannedTasks_apart (hobjs : ∀ obj' ∈ objs, obj.objectID ≠ obj'.objectID) {id : GoString}
    {vers : List ObjectVersionRecord} (hid : id ∈ scannedTasks s now keepLatest minAgeSec objs) :
    id ∉ tasksOf obj vers := by
  intro hmem
  obtain ⟨obj', hobj', hid⟩ := List.mem_flatMap.mp hid
  obtain ⟨ver, -, rfl⟩ := mem_tasksOf.mp hmem
  obtain ⟨ver', -, heq⟩ := mem_tasksOf.mp hid
  exact hobjs obj' hobj' (versionTask_inj.mp heq).1.symm

/-- An object with no more versions than are kept has nothing to enqueue. -/
theorem expendableVersions_few (h : ((versionRows s obj.objectID).length : Int) ≤ keepLatest) :
    expendableVersions s now keepLatest minAgeSec obj = [] := by
  unfold expendableVersions expendableAfter
  rw [List.drop_eq_nil_of_le, List.filter_nil]
  rw [sortedVersions, List.length_insertionSort]
  omega

theorem atomically_enqueueOldVersionsLoop (hs : Rows AnyID s)
    (hobjs : objs.Pairwise fun a b => a.objectID ≠ b.objectID)
    (hvers : ∀ obj ∈ objs, (sortedVersions s obj.objectID).Pairwise fun a b => a.version ≠ b.version)
    (enqueued : Int) :
    ∃ s', Enqueued (((scannedTasks s now keepLatest minAgeSec objs).filter (taskIdle s)).take
        (maxTasks - enqueued).toNat) s s' ∧
      atomically (enqueueOldVersionsLoop clock now keepLatest minAgeSec maxTasks objs enqueued) s =
        (.ok (enqueued + (((scannedTasks s now keepLatest minAgeSec objs).filter
          (taskIdle s)).take (maxTasks - enqueued).toNat).length), s') := by
  induction objs generalizing s enqueued with
  | nil => exact ⟨s, by simpa [scannedTasks] using enqueued_nil hs,
      by simp [enqueueOldVersionsLoop, scannedTasks]⟩
  | cons obj rest ih =>
    obtain ⟨hobj, hrest⟩ := List.pairwise_cons.mp hobjs
    have hvers' : ∀ obj ∈ rest,
        (sortedVersions s obj.objectID).Pairwise fun a b => a.version ≠ b.version :=
      fun obj hmem => hvers obj (List.mem_cons_of_mem _ hmem)
    unfold enqueueOldVersionsLoop
    by_cases hfull : enqueued ≥ maxTasks
    · have hzero : (maxTasks - enqueued).toNat = 0 := by omega
      rw [if_pos hfull, hzero]
      exact ⟨s, by simpa using enqueued_nil hs, by simp⟩
    · rw [if_neg hfull, atomically_listObjectVersionRecords hs.typed, scannedTasks_cons,
        List.filter_append]
      by_cases hfew : ((versionRows s obj.objectID).length : Int) ≤ keepLatest
      · rw [if_pos hfew, expendableVersions_few hfew]
        exact ih hs hrest hvers' enqueued
      · rw [if_neg hfew]
        obtain ⟨s₁, h₁, hrun⟩ := @atomically_enqueueOldVersions s clock now keepLatest minAgeSec
          maxTasks obj hs _ (hvers obj List.mem_cons_self) 0 enqueued (by omega)
        set own := (tasksOf obj (expendableVersions s now keepLatest minAgeSec obj)).filter
          (taskIdle s)
        change Enqueued (own.take (maxTasks - enqueued).toNat) s s₁ at h₁
        obtain ⟨s', hs', hloop⟩ := @ih s₁ h₁.rows hrest
          (fun obj hmem => by
            unfold sortedVersions
            rw [h₁.data.versionRows]
            exact hvers' obj hmem)
          (enqueued + (own.take (maxTasks - enqueued).toNat).length)
        rw [SameData.scannedTasks h₁.data, h₁.filter_idle fun id hid hmem =>
          scannedTasks_apart hobj hid (List.mem_of_mem_filter (List.mem_of_mem_take hmem))]
          at hs' hloop
        have hbudget : (maxTasks - (enqueued + (own.take (maxTasks - enqueued).toNat).length)).toNat
            = (maxTasks - enqueued).toNat - own.length := by
          rw [List.length_take]
          omega
        rw [hbudget] at hs' hloop
        rw [List.take_append]
        refine ⟨s', h₁.trans hs', (run_bind_ok hrun _).trans (hloop.trans ?_)⟩
        rw [List.length_append]
        congr 2
        push_cast
        ring

end Objects

/-! ## The exact selection -/

/-- The versions that the history scan is to collect. -/
structure Collectable (s : Store) (now : Time) (keepLatest minAgeSec : Int) (o : GoString) (v : Int)
    (obj : ObjectRecord) (ver : ObjectVersionRecord) : Prop where
  head : (catalog s).head o = some obj
  version : (catalog s).version o v = some ver
  notCurrent : v ≠ obj.currentVersion
  newer : keepLatest ≤ newerVersions s o v
  old : 0 < minAgeSec → minAgeSec * 1000000000 ≤ now - ver.createdAt
  idle : taskIdle s (gcOldTask o v) = true

/-- The order of collection: by the key of the object, then from the newest version down. -/
def collectedBefore (p q : GoString × Int) : Prop :=
  tiKVObjectKey p.1 < tiKVObjectKey q.1 ∨ p.1 = q.1 ∧ q.2 < p.2

/-- The versions that the scan comes to enqueue and whose task is idle, in its order. -/
def collection (s : Store) (now : Time) (keepLatest minAgeSec : Int) : List (GoString × Int) :=
  ((objectRows s).flatMap fun obj => (expendableVersions s now keepLatest minAgeSec obj).map
    fun ver => (obj.objectID, ver.version)).filter fun p => taskIdle s (gcOldTask p.1 p.2)

section Exact

variable {P : GoString → Prop} {s : Store} {clock now : Time} {keepLatest minAgeSec maxTasks : Int}

theorem map_collection : (collection s now keepLatest minAgeSec).map (fun p => gcOldTask p.1 p.2) =
    (scannedTasks s now keepLatest minAgeSec (objectRows s)).filter (taskIdle s) := by
  have hpairs : scannedTasks s now keepLatest minAgeSec (objectRows s) =
      ((objectRows s).flatMap fun obj => (expendableVersions s now keepLatest minAgeSec obj).map
        fun ver => (obj.objectID, ver.version)).map fun p => gcOldTask p.1 p.2 := by
    unfold scannedTasks tasksOf
    rw [List.map_flatMap]
    simp only [List.map_map, Function.comp_def]
  unfold collection
  rw [hpairs, List.filter_map]
  rfl

/-- The age test of the loop, on the saturated difference, is the test on the true age. -/
theorem old_iff (hage : Bytes.InInt64 (minAgeSec * 1000000000)) (createdAt : Time) :
    ¬ (minAgeSec > 0 ∧ now.sub createdAt < Time.seconds minAgeSec) ↔
      (0 < minAgeSec → minAgeSec * 1000000000 ≤ now - createdAt) := by
  obtain ⟨hlow, hhigh⟩ := hage
  have hsec : Time.seconds minAgeSec = minAgeSec * 1000000000 := wrap64_eq_self hlow hhigh
  have hsub : now.sub createdAt = max (-2 ^ 63) (min (2 ^ 63 - 1) (now - createdAt)) := rfl
  rw [hsec, hsub]
  omega

theorem mem_expendableVersions (hP : Separated P) (hs : Rows P s) {obj : ObjectRecord}
    (ho : P obj.objectID) (hage : Bytes.InInt64 (minAgeSec * 1000000000))
    {ver : ObjectVersionRecord} :
    ver ∈ expendableVersions s now keepLatest minAgeSec obj ↔
      ver ∈ versionRows s obj.objectID ∧ keepLatest ≤ newerVersions s obj.objectID ver.version ∧
        ver.version ≠ obj.currentVersion ∧
        (0 < minAgeSec → minAgeSec * 1000000000 ≤ now - ver.createdAt) := by
  have hperm : (sortedVersions s obj.objectID).Perm (versionRows s obj.objectID) :=
    List.perm_insertionSort versionBefore _
  have hexp : expendable now minAgeSec obj ver = true ↔ ver.version ≠ obj.currentVersion ∧
      (0 < minAgeSec → minAgeSec * 1000000000 ≤ now - ver.createdAt) := by
    rw [expendable, decide_eq_true_eq, old_iff hage]
  -- the position of a version is the number of newer ones
  have hdrop : ver ∈ (sortedVersions s obj.objectID).drop (keepLatest - 0).toNat ↔
      ver ∈ versionRows s obj.objectID ∧
        keepLatest ≤ newerVersions s obj.objectID ver.version := by
    have hrank := fun hmem => mem_drop_iff_count (a := ver) (fun a b hab hba => lt_asymm hab hba)
      (sortedVersions_falling hP hs ho) hmem (keepLatest - 0).toNat
    rw [hperm.countP_eq, countP_versionRows hP hs ho] at hrank
    constructor
    · intro h
      have hmem := List.mem_of_mem_drop h
      have := (hrank hmem).mp h
      exact ⟨hperm.mem_iff.mp hmem, by omega⟩
    · rintro ⟨hmem, hle⟩
      exact (hrank (hperm.mem_iff.mpr hmem)).mpr (by omega)
  unfold expendableVersions expendableAfter
  rw [List.mem_filter, hexp, hdrop, and_assoc]

theorem mem_collection (hP : Separated P) (hs : Rows P s)
    (hage : Bytes.InInt64 (minAgeSec * 1000000000)) {o : GoString} {v : Int} :
    (o, v) ∈ collection s now keepLatest minAgeSec ↔
      ∃ obj ver, Collectable s now keepLatest minAgeSec o v obj ver := by
  have hhead : ∀ {obj : ObjectRecord}, obj ∈ objectRows s ↔
      (catalog s).head obj.objectID = some obj := by
    intro obj
    rw [mem_objectRows hs, catalog_head]
  have hids : ∀ {obj : ObjectRecord}, obj ∈ objectRows s → P obj.objectID :=
    fun hmem => (hs _ _ ((mem_objectRows hs).mp hmem)).2
  simp only [collection, List.mem_filter, List.mem_flatMap, List.mem_map, Prod.mk.injEq]
  constructor
  · rintro ⟨⟨obj, hobj, ver, hver, rfl, rfl⟩, hidle⟩
    obtain ⟨hrow, hnewer, hcur, hold⟩ :=
      (mem_expendableVersions hP hs (hids hobj) hage).mp hver
    have hversion := ((mem_versionRows hP hs (hids hobj)).mp hrow).1
    exact ⟨obj, ver, hhead.mp hobj, hversion, hcur, hnewer, hold, hidle⟩
  · rintro ⟨obj, ver, h⟩
    obtain ⟨rfl, -⟩ := hs.named.head h.head
    obtain ⟨hid, rfl, -⟩ := hs.named.version h.version
    have hobj : obj ∈ objectRows s := hhead.mpr h.head
    have hrow : ver ∈ versionRows s obj.objectID :=
      (mem_versionRows hP hs (hids hobj)).mpr ⟨h.version, hid⟩
    have hexp := (mem_expendableVersions hP hs (hids hobj) hage).mpr
      ⟨hrow, h.newer, h.notCurrent, h.old⟩
    exact ⟨⟨obj, hobj, ver, hexp, rfl, rfl⟩, h.idle⟩

theorem collection_sorted (hP : Separated P) (hs : Rows P s) :
    (collection s now keepLatest minAgeSec).Pairwise collectedBefore := by
  refine List.Pairwise.filter _ (List.pairwise_flatMap.mpr ⟨?_, ?_⟩)
  · intro obj hobj
    have hfalling := sortedVersions_falling hP hs (hs _ _ ((mem_objectRows hs).mp hobj)).2
    have hsub : (expendableVersions s now keepLatest minAgeSec obj).Sublist
        (sortedVersions s obj.objectID) := List.filter_sublist.trans (List.drop_sublist _ _)
    exact List.pairwise_map.mpr ((hfalling.sublist hsub).imp fun hlt => Or.inr ⟨rfl, hlt⟩)
  · refine (objectRows_sorted hs).imp ?_
    intro a b hlt p hp q hq
    obtain ⟨_, -, rfl⟩ := List.mem_map.mp hp
    obtain ⟨_, -, rfl⟩ := List.mem_map.mp hq
    exact Or.inl hlt

/-- What an exact scan does, for the list `due` of the versions to collect: it creates or puts
back the tasks of the first `maxTasks` of them, counts these, and leaves all other tasks alone, in
particular those of current versions. -/
structure CollectsFirst (s : Store) (due : List (GoString × Int)) (maxTasks : Int)
    (run : Except GoError Int × Store) : Prop where
  count : run.1 = .ok ((due.take maxTasks.toNat).length : Int)
  tasks : ∀ id, taskRow run.2 id ≠ taskRow s id ↔
    ∃ p ∈ due.take maxTasks.toNat, gcOldTask p.1 p.2 = id
  pending : ∀ p ∈ due.take maxTasks.toNat, ∃ rec,
    taskRow run.2 (gcOldTask p.1 p.2) = some rec ∧ rec.taskState = .pending
  current : ∀ o obj, (catalog s).head o = some obj →
    taskRow run.2 (gcOldTask o obj.currentVersion) = taskRow s (gcOldTask o obj.currentVersion)

theorem atomically_enqueueOldVersionGCCandidates (hP : Separated P) (hs : Rows P s)
    (hkeep : 1 ≤ keepLatest) (hmax : 1 ≤ maxTasks) :
    ∃ s', Enqueued (((collection s now keepLatest minAgeSec).take maxTasks.toNat).map
        fun p => gcOldTask p.1 p.2) s s' ∧
      atomically (enqueueOldVersionGCCandidates clock now keepLatest minAgeSec maxTasks) s =
        (.ok (((collection s now keepLatest minAgeSec).take maxTasks.toNat).length : Int), s') := by
  have hvers : ∀ obj ∈ objectRows s,
      (sortedVersions s obj.objectID).Pairwise fun a b => a.version ≠ b.version :=
    fun obj hobj => (sortedVersions_falling hP hs (hs _ _ ((mem_objectRows hs).mp hobj)).2).imp
      fun hlt => hlt.ne'
  obtain ⟨s', hs', hrun⟩ := @atomically_enqueueOldVersionsLoop s clock now keepLatest minAgeSec
    maxTasks _ (hs.mono fun _ _ => trivial) (objectRows_distinct hs) hvers 0
  rw [sub_zero, ← map_collection, ← List.map_take] at hs' hrun
  refine ⟨s', hs', ?_⟩
  unfold enqueueOldVersionGCCandidates
  rw [if_neg (by omega), if_neg (by omega), atomically_listObjects hs.typed, hrun, zero_add,
    List.length_map]

end Exact

/-- An object with three versions, of which the middle one is current. -/
def history : Store :=
  SortedMap.empty.applyAll
    [.set (tiKVObjectKey (lit "a")) (.object ⟨lit "a", lit "default", 5, .hotActive, 1, 5⟩),
      .set (tiKVObjectVersionKey (lit "a") 7)
        (.objectVersion ⟨lit "a", 7, 3, lit "sum", .hot, none, none, none, 7⟩),
      .set (tiKVObjectVersionKey (lit "a") 5)
        (.objectVersion ⟨lit "a", 5, 3, lit "sum", .hot, none, none, none, 5⟩),
      .set (tiKVObjectVersionKey (lit "a") 2)
        (.objectVersion ⟨lit "a", 2, 3, lit "sum", .hot, none, none, none, 2⟩)]

example : (atomically (enqueueOldVersionGCCandidates 9 9 1 0 4) history).1 = .ok 1 ∧
    taskIdle (atomically (enqueueOldVersionGCCandidates 9 9 1 0 4) history).2
      (lit "gc-old:a:2") = false := by
  decide +kernel

end TieredStore.Meta.Retention
