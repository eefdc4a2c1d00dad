import TieredStore.Api.Quorum
import TieredStore.Tiering.Footprints

/-!
# Replica rows that are written late

The late observer and the repair of a HOT version look at a version in one repository call and write
its replica rows in another one. The second call does not look again, so a removal, or a promotion
followed by the deletion of the replicas, can come in between; the rows then belong to no version,
or are ACTIVE although their blobs are gone.

In runs in which rows are only written while the version is there and HOT, and in which a version
number is committed once, every row belongs to a version record, and a version whose replicas have
been collected has no ACTIVE row again (`late_rows_owned`).
-/

namespace TieredStore.Tiering.LateRows

open Lib Lib.Prog Lib.Bytes Meta Cluster Api

/-! ## The catalog -/

/-- Every replica row belongs to a version record. -/
def Owned (c : Catalog) : Prop := ∀ o v n r, c.replica o v n = some r → (c.version o v).isSome

/-- The version is there, in tier HOT. -/
def IsHot (c : Catalog) (o : GoString) (v : Int) : Prop :=
  ∃ ver, c.version o v = some ver ∧ ver.tier = .hot

/-- The version is not HOT, and its ACTIVE rows are on nodes of `N`. -/
structure Retired (c : Catalog) (o : GoString) (v : Int) (N : Set GoString) : Prop where
  cold : ¬ IsHot c o v
  rows : ∀ n r, c.replica o v n = some r → r.status = .active → n ∈ N

/-- A change that is made in time: a commit is of a new version, and rows are written for a HOT
one. -/
def InTime (used : GoString → Int → Prop) (c : Catalog) : Change → Prop
  | .upsert o v _ _ => ¬ used o v
  | .place o v _ _ => IsHot c o v
  | .mark _ _ _ | .pend _ _ | .promote _ _ _ _ _ _ _ => True
  | .retire _ _ _ | .purge _ _ | .remove _ => True

section Steps

variable {P : GoString → Prop} {used : GoString → Int → Prop} {c c' : Catalog} {ch : Change}

theorem Owned.step (hn : c.Named P) (h : Owned c) (ht : InTime used c ch) (hm : Makes ch c c') :
    Owned c' := by
  cases hm with
  | upsert o v md now =>
    rw [putAll_upsertRows fun r hr => (hn.head hr).1]
    intro o' v' n r hr
    dsimp only at hr ⊢
    split_ifs with hv
    · rfl
    · rw [if_neg fun h => hv ⟨h.1, h.2.1⟩] at hr
      exact h o' v' n r hr
  | mark now head => exact h
  | pend now head => exact h
  | promote now checksum k m hlocs head current version =>
    obtain ⟨hid, hv, -⟩ := hn.version version
    rw [putAll_promoteBatch (hn.head head).1 hid hv]
    intro o' v' n r hr
    dsimp only at hr ⊢
    split_ifs
    · rfl
    · exact h o' v' n r hr
  | place o v path hnode =>
    obtain ⟨ver, hver, -⟩ := ht
    intro o' v' n r hr
    simp only [Catalog.setReplica] at hr ⊢
    split at hr
    · rename_i heq
      obtain ⟨rfl, rfl, -⟩ := heq
      simp [hver]
    · exact h o' v' n r hr
  | @retire _ o v n r₀ row =>
    obtain ⟨hid, hv, -⟩ := hn.replica row
    intro o' v' n' r hr
    simp only [Catalog.setReplica, hid, hv] at hr ⊢
    split at hr
    · rename_i heq
      obtain ⟨rfl, rfl, -⟩ := heq
      exact h _ _ _ _ row
    · exact h o' v' n' r hr
  | purge head current =>
    intro o' v' n r hr
    simp only [Catalog.dropVersion] at hr ⊢
    split_ifs at hr ⊢
    exact h o' v' n r hr
  | remove o =>
    intro o' v' n r hr
    simp only [Catalog.dropObject] at hr ⊢
    split_ifs at hr ⊢
    exact h o' v' n r hr

theorem Retired.step (hn : c.Named P) {o : GoString} {v : Int} {N : Set GoString}
    (hused : used o v) (h : Retired c o v N) (ht : InTime used c ch) (hm : Makes ch c c') :
    Retired c' o v N := by
  cases hm with
  | upsert o' v' md now =>
    have hne : ¬ (o = o' ∧ v = v') := by
      rintro ⟨rfl, rfl⟩
      exact ht hused
    rw [putAll_upsertRows fun r hr => (hn.head hr).1]
    refine ⟨?_, ?_⟩
    · simpa only [IsHot, if_neg hne] using h.cold
    · intro n r hr
      dsimp only at hr
      rw [if_neg fun heq => hne ⟨heq.1, heq.2.1⟩] at hr
      exact h.rows n r hr
  | mark now head => exact ⟨h.cold, h.rows⟩
  | pend now head => exact ⟨h.cold, h.rows⟩
  | promote now checksum k m hlocs head current version =>
    obtain ⟨hid, hv, -⟩ := hn.version version
    rw [putAll_promoteBatch (hn.head head).1 hid hv]
    refine ⟨?_, h.rows⟩
    rintro ⟨ver, hver, htier⟩
    dsimp only at hver
    split at hver
    · cases hver
      cases htier
    · exact h.cold ⟨ver, hver, htier⟩
  | place o' v' path hnode =>
    refine ⟨h.cold, ?_⟩
    intro n r hr
    simp only [Catalog.setReplica] at hr
    split at hr
    · rename_i heq
      obtain ⟨rfl, rfl, -⟩ := heq
      exact absurd ht h.cold
    · exact h.rows n r hr
  | @retire _ o' v' n' r₀ row =>
    refine ⟨h.cold, ?_⟩
    intro n r hr hactive
    simp only [Catalog.setReplica] at hr
    split at hr
    · cases hr
      cases hactive
    · exact h.rows n r hr hactive
  | purge head current =>
    refine ⟨?_, ?_⟩
    · rintro ⟨ver, hver, htier⟩
      exact h.cold ⟨ver, some_of_dropped hver, htier⟩
    · intro n r hr
      exact h.rows n r (some_of_dropped hr)
  | remove o =>
    refine ⟨?_, ?_⟩
    · rintro ⟨ver, hver, htier⟩
      exact h.cold ⟨ver, some_of_dropped hver, htier⟩
    · intro n r hr
      exact h.rows n r (some_of_dropped hr)

/-- A version record that was not there is the one of a commit. -/
theorem version_of_makes (hn : c.Named P) (hm : Makes ch c c') {o : GoString} {v : Int}
    (h : (c'.version o v).isSome) :
    (c.version o v).isSome ∨ ∃ md now, ch = .upsert o v md now := by
  cases hm with
  | upsert o' v' md now =>
    rw [putAll_upsertRows fun r hr => (hn.head hr).1] at h
    dsimp only at h
    split_ifs at h with heq
    · obtain ⟨rfl, rfl⟩ := heq
      exact Or.inr ⟨md, now, rfl⟩
    · exact Or.inl h
  | promote now checksum k m hlocs head current version =>
    obtain ⟨hid, hv, -⟩ := hn.version version
    rw [putAll_promoteBatch (hn.head head).1 hid hv] at h
    dsimp only at h
    split_ifs at h with heq
    · obtain ⟨rfl, rfl⟩ := heq
      exact Or.inl (by simp [version])
    · exact Or.inl h
  | purge head current =>
    obtain ⟨ver, hver⟩ := Option.isSome_iff_exists.mp h
    exact Or.inl (Option.isSome_iff_exists.mpr ⟨ver, some_of_dropped hver⟩)
  | remove o' =>
    obtain ⟨ver, hver⟩ := Option.isSome_iff_exists.mp h
    exact Or.inl (Option.isSome_iff_exists.mpr ⟨ver, some_of_dropped hver⟩)
  | mark | pend | place | retire => exact Or.inl h

end Steps

/-! ## Calls -/

/-- The event commits the version. -/
def Commits (o : GoString) (v : Int) (e : ApiEvent) : Prop :=
  ∃ md clock, e.op = .repo (.upsertNormalizedMetadata o md) ∧ v = resolveVersion md clock

/-- The event marks replicas of the version as deleted. -/
def Collects (o : GoString) (v : Int) (e : ApiEvent) : Prop :=
  ∃ ns, e = ⟨.repo (.markReplicaLocationsDeleted o v ns), .ok ()⟩

def Committed (log : List ApiEvent) (o : GoString) (v : Int) : Prop := ∃ e ∈ log, Commits o v e

def Collected (log : List ApiEvent) (o : GoString) (v : Int) : Prop := ∃ e ∈ log, Collects o v e

/-- A call in time: replica rows are written while the version is there and HOT, and a commit is of
a version that has not been committed before. -/
def Timely (x : World × List ApiEvent) : Call → Prop
  | .repo (.upsertReplicaLocations o v _) => IsHot (catalog x.1.records) o v
  | .repo (.upsertNormalizedMetadata o md) => ∀ clock, ¬ Committed x.2 o (resolveVersion md clock)
  | _ => True

section Calls

variable {P : GoString → Prop} {cfg : Config} {w w' : World} {log : List ApiEvent} {c : RepoCall}
  {r : Except GoError c.Answer}

theorem Timely.changes (h : Timely (w, log) (.repo c)) :
    ∀ ch ∈ c.changes, InTime (Committed log) (catalog w.records) ch := by
  intro ch hch
  cases ch with
  | upsert o v md now =>
    obtain ⟨rfl, clock, rfl⟩ := RepoCall.upsert_mem_changes hch
    exact h clock
  | place o v n path =>
    obtain ⟨ns, rfl⟩ := RepoCall.place_mem_changes hch
    exact h
  | _ => trivial

/-- A change of a call leaves the call's other changes in time. -/
theorem inTime_step {used : GoString → Int → Prop} {cat cat' : Catalog} {ch ch' : Change}
    (hch : ch ∈ c.changes) (hch' : ch' ∈ c.changes) (hm : Makes ch cat cat')
    (h : InTime used cat ch') : InTime used cat' ch' := by
  cases ch' with
  | upsert o v md now => exact h
  | place o v n path =>
    obtain ⟨ns, rfl⟩ := RepoCall.place_mem_changes hch'
    obtain ⟨n', -, rfl⟩ := hch
    cases hm with
    | place => exact h
  | _ => trivial

/-- What a call in time keeps. -/
structure Kept (log log' : List ApiEvent) (c c' : Catalog) : Prop where
  owned : Owned c'
  versions : ∀ o v, (c'.version o v).isSome → Committed log' o v
  retired : ∀ o v N, Committed log o v → Retired c o v N → Retired c' o v N

theorem Timely.kept (hP : Separated P) (hc : c.Names P) (hs : Rows P w.records)
    (ht : Timely (w, log) (.repo c)) (h : Faulty cfg (.repo c) w r w')
    (howned : Owned (catalog w.records))
    (hversions : ∀ o v, ((catalog w.records).version o v).isSome → Committed log o v) :
    Rows P w'.records ∧
      Kept log (log ++ [⟨.repo c, r⟩]) (catalog w.records) (catalog w'.records) := by
  have hgrows : ∀ o v, Committed log o v → Committed (log ++ [⟨.repo c, r⟩]) o v := by
    rintro o v ⟨e, he, hcommits⟩
    exact ⟨e, List.mem_append_left _ he, hcommits⟩
  have hkept := h.kept hP hc hs (J := fun cat => (∀ ch ∈ c.changes, InTime (Committed log) cat ch) ∧
    Kept log (log ++ [⟨.repo c, r⟩]) (catalog w.records) cat) ?_
    ⟨ht.changes, howned, fun o v hv => hgrows o v (hversions o v hv), fun _ _ _ _ => id⟩
  · exact ⟨hkept.1, hkept.2.2⟩
  rintro ch hch cat cat' hn ⟨hready, hkept⟩ hm
  refine ⟨fun ch' hch' => inTime_step hch hch' hm (hready ch' hch'),
    hkept.owned.step hn (hready ch hch) hm, ?_, ?_⟩
  · intro o v hv
    rcases version_of_makes hn hm hv with hold | ⟨md, now, rfl⟩
    · exact hkept.versions o v hold
    · obtain ⟨hcall, clock, rfl⟩ := RepoCall.upsert_mem_changes hch
      exact ⟨⟨.repo c, r⟩, by simp, md, clock, congrArg Call.repo hcall, rfl⟩
  · intro o v N hused hretired
    exact (hkept.retired o v N hused hretired).step hn hused (hready ch hch) hm

theorem Committed.append {o : GoString} {v : Int} (h : Committed log o v) (es : List ApiEvent) :
    Committed (log ++ es) o v := by
  obtain ⟨e, he, hcommits⟩ := h
  exact ⟨e, List.mem_append_left _ he, hcommits⟩

end Calls

/-! ## Runs -/

inductive Role where
  | collector (task : TaskRecord)
  | other

/-- What a collector knows: nothing, that the version is not HOT, or also where its ACTIVE rows
are. -/
inductive Stage where
  | start
  | checked
  | listed (nodes : List GoString)

namespace Stage

/-- The nodes that may hold ACTIVE rows, if the version is known to be retired. -/
def bound : Stage → Option (Set GoString)
  | start => none
  | checked => some Set.univ
  | listed nodes => some {n | n ∈ nodes}

def heard (t : Stage) : (c : Call) → c.Answer → Stage
  | .repo (.getObjectVersionSnapshot _ _), r =>
    match r with
    | .ok (some snap) => if snap.tier = .ec then checked else start
    | _ => start
  | .repo (.listActiveReplicaLocations _ _), r =>
    match r with
    | .ok rs => listed (rs.map (·.nodeID))
    | .error _ => start
  | _, _ => t

theorem heard_snapshot (t : Stage) (o : GoString) (v : Int) (snap : ObjectVersionSnapshot) :
    t.heard (.repo (.getObjectVersionSnapshot o v)) (.ok (some snap)) =
      if snap.tier = .ec then checked else start := rfl

end Stage

/-- The calls of the deletion of a version's replicas: only nodes that were listed after the version
was seen in tier EC are marked. -/
def collecting (o : GoString) (v : Int) : Monitor Call Call.Answer Stage where
  allow t c :=
    match c with
    | .repo (.getObjectVersionSnapshot o' v') => o' = o ∧ v' = v
    | .repo (.listActiveReplicaLocations o' v') => o' = o ∧ v' = v ∧ t = .checked
    | .repo (.markReplicaLocationsDeleted o' v' ns) => o' = o ∧ v' = v ∧ t = .listed ns
    | .delete _ _ => True
    | _ => False
  next t c r t' := t' = t.heard c r

/-- The calls of all other jobs: they do not mark replicas. -/
def Others (P : GoString → Prop) : Call → Prop
  | .repo (.markReplicaLocationsDeleted _ _ _) => False
  | .repo c => c.Names P
  | _ => True

def roleMonitor (P : GoString → Prop) : Role → Monitor Call Call.Answer Stage
  | .collector task => collecting task.objectID task.version
  | .other => confined (Others P) fun _ _ => True

/-- The jobs that run: the collector, the late observer, the repair, and single calls that commit,
remove, purge and promote. -/
inductive Begins (d : Deps) (P : GoString → Prop) : Role → Job Unit → Prop where
  | collect {task : TaskRecord} (id : P task.objectID) :
      Begins d P (.collector task) (processReplicationGC task)
  | observeLate {o : GoString} (id : P o) (late : List GoString) (path : GoString) (value : Blob)
      (v : Int) : Begins d P .other (observeLateHotReplicaWrites late path value o v)
  | repair {task : TaskRecord} (id : P task.objectID) :
      Begins d P .other (processReplicationRepair d task)
  | repairHot {task : TaskRecord} (id : P task.objectID) :
      Begins d P .other (processHOTRepair d task)
  | commit {o : GoString} (id : P o) (md : Metadata) :
      Begins d P .other (Job.repo (.upsertNormalizedMetadata o md))
  | remove {o : GoString} (id : P o) : Begins d P .other (Job.repo (.deleteNormalizedMetadata o))
  | purge (o : GoString) (v : Int) : Begins d P .other (Job.repo (.purgeObjectVersionMetadata o v))
  | promote (o : GoString) (v : Int) (checksum : GoString) (k m : Int)
      (locs : List ECShardLocation) :
      Begins d P .other (Job.repo (.promoteObjectVersionToEC o v checksum k m locs))

section Jobs

variable {P : GoString → Prop} {d : Deps}

theorem collecting_deleteReplicas {o o' : GoString} {v : Int} {t : Stage}
    (rs : List ReplicaLocation) : (deleteReplicas o' rs).Obeys (collecting o v)
      (fun out t' => out = .ok () → t' = t) t := by
  induction rs with
  | nil => exact fun _ => rfl
  | cons r rest ih =>
    simp only [deleteReplicas, Job.delete_bind]
    refine ⟨trivial, ?_⟩
    intro (reply : Reply) t' ht'
    obtain rfl : t' = t := ht'
    dsimp only
    split
    · exact nofun
    · exact ih
    · exact ih
    · exact nofun

theorem collecting_processReplicationGC (task : TaskRecord) : (processReplicationGC task).Obeys
    (collecting task.objectID task.version) (fun _ _ => True) .start := by
  refine Job.obeys_repo ⟨rfl, rfl⟩ (fun _ _ _ => trivial) ?_
  rintro (_ | (snap : ObjectVersionSnapshot)) _ rfl
  · trivial
  dsimp only
  split_ifs with hcur hready
  · trivial
  · trivial
  have htier : snap.tier = .ec := by
    by_contra h
    exact hready (Or.inl h)
  rw [Stage.heard_snapshot, if_pos htier]
  refine Job.obeys_repo ⟨rfl, rfl, rfl⟩ (fun _ _ _ => trivial) ?_
  rintro (rs : List ReplicaLocation) _ rfl
  change Obeys _ _ _ (Stage.listed (rs.map (·.nodeID)))
  split_ifs
  · trivial
  refine (collecting_deleteReplicas rs).bind (fun _ _ _ => trivial) ?_
  intro _ t' ht'
  obtain rfl := ht' rfl
  rw [← bind_pure (Job.repo _)]
  exact Job.obeys_repo ⟨rfl, rfl, rfl⟩ (fun _ _ _ => trivial) fun _ _ _ => trivial

theorem others_passive : ∀ c : Call, c.Passive → Others P c := by
  rintro (c | _ | _ | _ | _ | _ | _ | _) h <;> try trivial
  cases c <;> trivial

theorem Begins.obeys {role : Role} {p : Job Unit} (h : Begins d P role p) :
    p.Obeys (roleMonitor P role) (fun _ _ => True) .start := by
  cases h with
  | collect id => exact collecting_processReplicationGC _
  | observeLate id late path value v =>
    exact (within_observeLate others_passive (fun _ _ => trivial) fun _ _ => id).obeys _
  | repair id =>
    exact (within_processReplicationRepair others_passive (fun _ _ _ => trivial) (fun _ _ => id)
      (fun _ _ _ _ => trivial) fun _ _ _ _ _ => trivial).obeys _
  | repairHot id =>
    exact (within_processHOTRepair others_passive (fun _ _ _ => trivial) fun _ _ => id).obeys _
  | commit id md => exact (within_repo_last id).obeys _
  | remove id => exact (within_repo_last id).obeys _
  | purge o v => exact (within_repo_last trivial).obeys _
  | promote o v checksum k m locs => exact (within_repo_last trivial).obeys _

end Jobs

/-! ## The invariant -/

section Invariant

variable {P : GoString → Prop} {d : Deps} {cfg : Config} {x y : World × List ApiEvent} {c : Call}
  {r : c.Answer}

/-- A call in time, written down. -/
def timelySem (cfg : Config) (c : Call) (x : World × List ApiEvent) (r : c.Answer)
    (y : World × List ApiEvent) : Prop := Timely x c ∧ logged (Faulty cfg) c x r y

/-- What holds in every state of a run in time. -/
structure Settled (P : GoString → Prop) (x : World × List ApiEvent) : Prop where
  rows : Rows P x.1.records
  owned : Owned (catalog x.1.records)
  versions : ∀ o v, ((catalog x.1.records).version o v).isSome → Committed x.2 o v
  collected : ∀ o v, Collected x.2 o v → Committed x.2 o v ∧ Retired (catalog x.1.records) o v ∅

theorem Settled.kept (hP : Separated P) (h : Settled P x) (hc : ∀ rc, c = .repo rc → rc.Names P)
    (hstep : timelySem cfg c x r y) :
    Rows P y.1.records ∧ Kept x.2 y.2 (catalog x.1.records) (catalog y.1.records) := by
  obtain ⟨ht, hfaulty, hlog⟩ := hstep
  rw [hlog]
  by_cases hrepo : ∃ rc, c = .repo rc
  · obtain ⟨rc, rfl⟩ := hrepo
    exact ht.kept hP (hc rc rfl) h.rows hfaulty h.owned h.versions
  · rw [hfaulty.records fun rc hrc => hrepo ⟨rc, hrc⟩]
    exact ⟨h.rows, h.owned, fun o v hv => (h.versions o v hv).append _, fun _ _ _ _ => id⟩

theorem Settled.step (hP : Separated P) (h : Settled P x) (hc : ∀ rc, c = .repo rc → rc.Names P)
    (hstep : timelySem cfg c x r y)
    (hmark : ∀ o v, Collects o v ⟨c, r⟩ → Committed x.2 o v ∧ Retired (catalog y.1.records) o v ∅) :
    Settled P y := by
  obtain ⟨hrows, hkept⟩ := h.kept hP hc hstep
  refine ⟨hrows, hkept.owned, hkept.versions, ?_⟩
  rintro o v ⟨e, he, hcollects⟩
  rw [hstep.2.2] at he ⊢
  rcases List.mem_append.mp he with he | he
  · obtain ⟨hused, hretired⟩ := h.collected o v ⟨e, he, hcollects⟩
    exact ⟨hused.append _, hkept.retired o v ∅ hused hretired⟩
  · rw [List.mem_singleton] at he
    obtain ⟨hused, hretired⟩ := hmark o v (he ▸ hcollects)
    exact ⟨hused.append _, hretired⟩

/-- What a process knows holds. -/
def Known (P : GoString → Prop) (role : Role) (t : Stage) (x : World × List ApiEvent) : Prop :=
  match role with
  | .other => True
  | .collector task => P task.objectID ∧ ∀ N, t.bound = some N →
      Committed x.2 task.objectID task.version ∧
        Retired (catalog x.1.records) task.objectID task.version N

theorem Known.step (hP : Separated P) {role : Role} {t : Stage} (h : Settled P x)
    (hc : ∀ rc, c = .repo rc → rc.Names P) (hstep : timelySem cfg c x r y) (hk : Known P role t x) :
    Known P role t y := by
  cases role with
  | other => trivial
  | collector task =>
    obtain ⟨hid, hbound⟩ := hk
    refine ⟨hid, fun N hN => ?_⟩
    obtain ⟨hused, hretired⟩ := hbound N hN
    refine ⟨?_, (h.kept hP hc hstep).2.retired _ _ N hused hretired⟩
    rw [hstep.2.2]
    exact hused.append _

/-- A mark of the nodes that hold the ACTIVE rows leaves none. -/
theorem Retired.marked (hP : Separated P) (h : Settled P x) {o : GoString} {v : Int}
    {ns : List GoString} (ho : P o)
    (hstep : timelySem cfg (.repo (.markReplicaLocationsDeleted o v ns)) x (.ok ()) y)
    (hused : Committed x.2 o v) (hretired : Retired (catalog x.1.records) o v {n | n ∈ ns}) :
    Retired (catalog y.1.records) o v ∅ := by
  have hcold := ((h.kept hP (by rintro _ ⟨⟩; exact ho) hstep).2.retired o v _ hused hretired).cold
  refine ⟨hcold, fun n row hrow hactive => ?_⟩
  rcases hstep.2.1.answer with ⟨e, ⟨⟩⟩ | ⟨clocks, hrun⟩
  obtain ⟨s', hrun', hmarked⟩ := atomically_markReplicaLocationsDeleted hP h.rows ho v ns
  obtain rfl : s' = y.1.records := (Prod.mk.inj (hrun'.symm.trans hrun)).2
  obtain ⟨hnot, hold⟩ := hmarked n row hrow hactive
  exact hnot (hretired.rows n row hold hactive)

/-- A version that was seen in tier EC is not HOT. -/
theorem Known.seen {task : TaskRecord} {r : Except GoError (Option ObjectVersionSnapshot)}
    (h : Settled P x) (hid : P task.objectID)
    (hstep : timelySem cfg (.repo (.getObjectVersionSnapshot task.objectID task.version)) x r y) :
    Known P (.collector task)
      (Stage.heard .start (.repo (.getObjectVersionSnapshot task.objectID task.version)) r) y := by
  refine ⟨hid, ?_⟩
  obtain e | (_ | snap) := r
  · exact nofun
  · exact nofun
  obtain ⟨hanswer, hsame⟩ := hstep.2.1.read fun clocks =>
    atomically_getObjectVersionSnapshot h.rows.typed task.objectID task.version
  obtain ⟨obj, ver, -, hver, rfl⟩ := Catalog.snapshot_eq_some.mp hanswer.symm
  intro N hN
  change (if ver.tier = .ec then Stage.checked else .start).bound = some N at hN
  split_ifs at hN with htier
  · cases hN
    rw [hstep.2.2, ← hsame]
    refine ⟨(h.versions _ _ (by simp [hver])).append _, ?_, fun n row _ _ => trivial⟩
    rintro ⟨ver', hver', hhot⟩
    cases hver.symm.trans hver'
    cases htier.symm.trans hhot
  · cases hN

/-- The listed nodes hold all ACTIVE rows. -/
theorem Known.listed {task : TaskRecord} {r : Except GoError (List ReplicaLocation)}
    (hP : Separated P) (h : Settled P x)
    (hstep : timelySem cfg (.repo (.listActiveReplicaLocations task.objectID task.version)) x r y)
    (hk : Known P (.collector task) .checked x) :
    Known P (.collector task) (Stage.heard .checked
      (.repo (.listActiveReplicaLocations task.objectID task.version)) r) y := by
  obtain ⟨hid, hbound⟩ := hk
  obtain ⟨hused, hretired⟩ := hbound _ rfl
  refine ⟨hid, ?_⟩
  obtain e | rs := r
  · exact nofun
  obtain ⟨rfl, hsame⟩ := hstep.2.1.read fun clocks =>
    atomically_listActiveReplicaLocations h.rows.typed task.objectID task.version
  rintro _ ⟨⟩
  rw [hstep.2.2, ← hsame]
  refine ⟨hused.append _, hretired.cold, fun n row hrow hactive => ?_⟩
  obtain ⟨-, -, rfl, -⟩ := h.rows.named.replica hrow
  have hmem := (mem_activeReplicas hP h.rows hid).mpr ⟨hrow, hactive⟩
  exact List.mem_map_of_mem (f := (·.nodeID)) (mem_listedReplicas.mpr ⟨row, hmem, rfl⟩)

end Invariant

/-! ## Every run in time -/

section Runs

variable {P : GoString → Prop} {d : Deps}

def begins (d : Deps) (P : GoString → Prop) (_ : Nat) (role : Role) (p : Job Unit)
    (x y : World × List ApiEvent) : Prop := Begins d P role p ∧ y = x

abbrev Run := Pool Call Call.Answer GoError Unit Role (World × List ApiEvent)

/-- What an allowed call of a process names. -/
theorem names_of_allow {role : Role} {t : Stage} {x : World × List ApiEvent} {c : Call}
    (hk : Known P role t x) (h : (roleMonitor P role).allow t c) :
    ∀ rc, c = .repo rc → rc.Names P := by
  rintro rc rfl
  cases role with
  | other => cases rc <;> first | exact h | exact h.elim
  | collector task =>
    cases rc with
    | markReplicaLocationsDeleted o v ns =>
      obtain ⟨rfl, -⟩ := h
      exact hk.1
    | getObjectVersionSnapshot => trivial
    | listActiveReplicaLocations => trivial
    | _ => exact h.elim

theorem discipline (hP : Separated P) : Pool.Discipline (begins d P)
    (fun _ _ => timelySem d.cfg) (roleMonitor P) (fun _ _ _ => True) (Settled P)
    (fun _ => Known P) where
  onCall := by
    intro i role t c x r y hx hk hallow hstep
    have hc := names_of_allow hk hallow
    cases role with
    | other =>
      refine ⟨hx.step hP hc hstep ?_, t, ⟨trivial, rfl⟩, trivial⟩
      rintro o v ⟨ns, heq⟩
      cases heq
      exact hallow.elim
    | collector task =>
      cases c with
      | repo rc =>
        cases rc with
        | getObjectVersionSnapshot o v =>
          obtain ⟨rfl, rfl⟩ := hallow
          exact ⟨hx.step hP hc hstep (by rintro o v ⟨ns, ⟨⟩⟩), _, rfl, .seen hx hk.1 hstep⟩
        | listActiveReplicaLocations o v =>
          obtain ⟨rfl, rfl, rfl⟩ := hallow
          exact ⟨hx.step hP hc hstep (by rintro o v ⟨ns, ⟨⟩⟩), _, rfl, .listed hP hx hstep hk⟩
        | markReplicaLocationsDeleted o v ns =>
          obtain ⟨rfl, rfl, rfl⟩ := hallow
          obtain ⟨hused, hretired⟩ := hk.2 _ rfl
          refine ⟨hx.step hP hc hstep ?_, _, rfl, hk.step hP hx hc hstep⟩
          rintro o v ⟨ns', heq⟩
          cases heq
          exact ⟨hused, hretired.marked hP hx hk.1 hstep hused⟩
        | _ => exact hallow.elim
      | delete n k =>
        exact ⟨hx.step hP hc hstep (by rintro o v ⟨ns, ⟨⟩⟩), _, rfl, hk.step hP hx hc hstep⟩
      | _ => exact hallow.elim
  onOtherCall := by
    intro i role t c x r y j role' t' hx hk hallow hstep _ hk'
    exact hk'.step hP hx (names_of_allow hk hallow) hstep
  onStart := by
    rintro i role p x y hx ⟨hbegins, rfl⟩
    refine ⟨hx, .start, hbegins.obeys, ?_⟩
    cases hbegins with
    | collect id => exact ⟨id, nofun⟩
    | _ => trivial
  onOtherStart := by
    rintro i role p x y j role' t' hx ⟨-, rfl⟩ _ hk
    exact hk

theorem settled_empty (blobs : GoString → GoString → Option Blob) :
    Settled P (⟨SortedMap.empty, blobs⟩, []) where
  rows := rows_empty
  owned := nofun
  versions := nofun
  collected := by
    rintro o v ⟨e, he, -⟩
    cases he

/-- In every run in which replica rows are only written while their version is there and HOT, and no
version is committed twice: every replica row belongs to a version record, and once the replicas of
a version have been collected, none of its rows is ACTIVE. -/
theorem late_rows_owned (hP : Separated P) {blobs : GoString → GoString → Option Blob} {c : Run}
    (hrun : Pool.Reaches (begins d P) (fun _ _ => timelySem d.cfg)
      (Pool.idle (⟨SortedMap.empty, blobs⟩, [])) c) :
    (∀ o v n r, (catalog c.state.1.records).replica o v n = some r →
      ∃ ver, (catalog c.state.1.records).version o v = some ver) ∧
    ∀ o v, Collected c.state.2 o v → ∀ n r,
      (catalog c.state.1.records).replica o v n = some r → r.status ≠ .active := by
  obtain ⟨hsettled, -⟩ := (discipline hP).reaches
    (Pool.Discipline.governed_idle (settled_empty blobs)) hrun
  constructor
  · intro o v n r hr
    exact Option.isSome_iff_exists.mp (hsettled.owned o v n r hr)
  · intro o v hcollected n r hr hactive
    exact (hsettled.collected o v hcollected).2.rows n r hr hactive

end Runs

/-! ## Rows in the gap -/

/-- A healthy cluster that writes down the calls. -/
def recorded (_ : Nat) (_ : Role) (c : Call) (x : World × List ApiEvent) :
    c.Answer × World × List ApiEvent :=
  ((serve {} calmWeather c x.1).1, (serve {} calmWeather c x.1).2,
    x.2 ++ [⟨c, (serve {} calmWeather c x.1).1⟩])

theorem faulty_recorded (i : Nat) (role : Role) (c : Call) (x : World × List ApiEvent) :
    logged (Faulty {}) c x (recorded i role c x).1 (recorded i role c x).2 :=
  ⟨Or.inl ⟨calmWeather, rfl⟩, rfl⟩

/-- Whether a mark of the version's replicas has been answered. -/
def marks (o : GoString) (v : Int) : ApiEvent → Bool
  | ⟨.repo (.markReplicaLocationsDeleted o' v' _), r⟩ =>
    o' = o && v' = v &&
      match r with
      | .ok _ => true
      | .error _ => false
  | _ => false

theorem collected_of_any {log : List ApiEvent} {o : GoString} {v : Int}
    (h : log.any (marks o v) = true) : Collected log o v := by
  obtain ⟨⟨c, r⟩, he, hmarks⟩ := List.any_eq_true.mp h
  refine ⟨⟨c, r⟩, he, ?_⟩
  unfold marks at hmarks
  split at hmarks
  · rename_i heq
    cases heq
    simp only [Bool.and_eq_true, decide_eq_true_iff] at hmarks
    obtain ⟨⟨rfl, rfl⟩, hok⟩ := hmarks
    split at hok
    · exact ⟨_, rfl⟩
    · cases hok
  · cases hmarks

/-- A replica of version 7 on one node is committed; a late write to another node is pending. -/
def pendingRun : Run :=
  (((Pool.idle (World.empty, [])).spawn 0 .other (Job.repo (.upsertNormalizedMetadata (lit "a")
    (replicationMetadata 7 (lit "hot/a/00000000000000000007") 2 [lit "n1"] [] false)))).advanceAll
      recorded [0]).spawn 1 .other (observeLateHotReplicaWrites [lit "n2"]
        (lit "hot/a/00000000000000000007") [7, 7] (lit "a") 7)

/-- The late write has arrived, and the version was seen in tier HOT. -/
def lateRun : Run := pendingRun.advanceAll recorded [1, 1]

/-- The object is removed before the row of the late replica is written. -/
def removedRun : Run :=
  (((lateRun.spawn 2 .other (Job.repo (.deleteNormalizedMetadata (lit "a")))).advance recorded
    2).advance recorded 1)

def gcTask : TaskRecord := newTask (lit "gc-repl:a:7") (lit "a") 7 (lit "GC") 90 0

def promoteA : Job Unit := Job.repo (.promoteObjectVersionToEC (lit "a") 7 (lit "checksum") 1 0
  [⟨0, lit "n3", lit "a_cold_chunk_0", .active⟩])

/-- The version is migrated and its replicas are collected before the row is written. -/
def collectedRun : Run :=
  ((((lateRun.spawn 2 .other promoteA).advance recorded 2).spawn 3 (.collector gcTask)
    (processReplicationGC gcTask)).advanceAll recorded [3, 3, 3, 3]).advance recorded 1

/-- A late row belongs to no version, and a late row is ACTIVE after the collection. -/
theorem late_rows_outlive :
    (Pool.Reaches (begins smallDeps (· = lit "a")) (fun _ _ => logged (Faulty {}))
      (Pool.idle (World.empty, [])) removedRun ∧
    (catalog removedRun.state.1.records).replica (lit "a") 7 (lit "n2") =
      some ⟨lit "a", 7, lit "n2", lit "hot/a/00000000000000000007", .active⟩ ∧
    (catalog removedRun.state.1.records).version (lit "a") 7 = none) ∧
    Pool.Reaches (begins smallDeps (· = lit "a")) (fun _ _ => logged (Faulty {}))
      (Pool.idle (World.empty, [])) collectedRun ∧
    Collected collectedRun.state.2 (lit "a") 7 ∧
    (catalog collectedRun.state.1.records).replica (lit "a") 7 (lit "n2") =
      some ⟨lit "a", 7, lit "n2", lit "hot/a/00000000000000000007", .active⟩ := by
  have hlate : Pool.Reaches (begins smallDeps (· = lit "a")) (fun _ _ => logged (Faulty {}))
      (Pool.idle (World.empty, [])) lateRun := by
    refine .advanceAll faulty_recorded (.spawn (.advanceAll faulty_recorded (.spawn .refl rfl
      ⟨.commit (by rfl) _, rfl⟩) _) ?_ ⟨.observeLate (by rfl) _ _ _ _, rfl⟩) _
    exact Option.isNone_iff_eq_none.mp (by decide +kernel)
  refine ⟨⟨?_, by decide +kernel, by decide +kernel⟩, ?_, ?_, by decide +kernel⟩
  · refine .advance _ (.advance _ (.spawn hlate ?_ ⟨.remove (by rfl), rfl⟩) 2
      fun _ _ _ _ => faulty_recorded _ _ _ _) 1 fun _ _ _ _ => faulty_recorded _ _ _ _
    exact Option.isNone_iff_eq_none.mp (by decide +kernel)
  · refine .advance _ (.advanceAll faulty_recorded (.spawn (.advance _ (.spawn hlate ?_
      ⟨.promote _ _ _ _ _ _, rfl⟩) 2 fun _ _ _ _ => faulty_recorded _ _ _ _) ?_
      ⟨.collect (by rfl), rfl⟩) _) 1 fun _ _ _ _ => faulty_recorded _ _ _ _
    · exact Option.isNone_iff_eq_none.mp (by decide +kernel)
    · exact Option.isNone_iff_eq_none.mp (by decide +kernel)
  · exact collected_of_any (by decide +kernel)

/-! ## A run in time -/

/-- Whether the next call of a process is in time; a commit is when nothing has been called yet. -/
def nextTimely (c : Run) (i : Nat) : Bool :=
  match c.procs i with
  | some (_, .call (.repo (.upsertReplicaLocations o v _)) _) =>
    ((catalog c.state.1.records).version o v).map (·.tier) = some .hot
  | some (_, .call (.repo (.upsertNormalizedMetadata _ _)) _) => c.state.2.isEmpty
  | _ => true

/-- Whether all calls of a schedule are in time. -/
def allTimely (c : Run) : List Nat → Bool
  | [] => true
  | i :: rest => nextTimely c i && allTimely (c.advance recorded i) rest

theorem timely_of_next {c : Run} {i : Nat} {role : Role} {call : Call}
    {k : call.Answer → Job Unit} (hi : c.procs i = some (role, .call call k))
    (h : nextTimely c i = true) : Timely c.state call := by
  unfold nextTimely at h
  rw [hi] at h
  cases call with
  | repo rc =>
    cases rc with
    | upsertReplicaLocations o v ns =>
      exact Option.map_eq_some_iff.mp (of_decide_eq_true h)
    | upsertNormalizedMetadata o md =>
      have hlog : c.state.2 = [] := List.isEmpty_iff.mp h
      intro clock
      rw [hlog]
      rintro ⟨e, he, -⟩
      cases he
    | _ => trivial
  | _ => trivial

theorem reaches_advanceAll {c₀ c : Run} {P : GoString → Prop}
    (hc : Pool.Reaches (begins smallDeps P) (fun _ _ => timelySem {}) c₀ c) {schedule : List Nat}
    (h : allTimely c schedule = true) : Pool.Reaches (begins smallDeps P)
      (fun _ _ => timelySem {}) c₀ (c.advanceAll recorded schedule) := by
  induction schedule generalizing c with
  | nil => exact hc
  | cons i rest ih =>
    obtain ⟨hnext, hrest⟩ := Bool.and_eq_true_iff.mp h
    refine ih (hc.advance recorded i fun role call k hi => ?_) hrest
    exact ⟨timely_of_next hi hnext, faulty_recorded i role call c.state⟩

/-- The late row is written before the migration. -/
def inTimeRun : Run :=
  ((((pendingRun.advanceAll recorded [1, 1, 1]).spawn 2 .other promoteA).advanceAll recorded
    [2]).spawn 3 (.collector gcTask) (processReplicationGC gcTask)).advanceAll recorded
      [3, 3, 3, 3, 3]

/-- Two replicas are recorded, both are collected, and neither row is ACTIVE again. -/
theorem late_rows_in_time : Collected inTimeRun.state.2 (lit "a") 7 ∧
    ((catalog inTimeRun.state.1.records).replica (lit "a") 7 (lit "n2")).isSome ∧
    ∀ n r, (catalog inTimeRun.state.1.records).replica (lit "a") 7 n = some r →
      r.status ≠ .active := by
  have hcollected : Collected inTimeRun.state.2 (lit "a") 7 := collected_of_any (by decide +kernel)
  have hrun : Pool.Reaches (begins smallDeps (· = lit "a")) (fun _ _ => timelySem {})
      (Pool.idle (World.empty, [])) inTimeRun := by
    refine reaches_advanceAll (.spawn (reaches_advanceAll (.spawn (reaches_advanceAll (.spawn
      (reaches_advanceAll (.spawn .refl rfl ⟨.commit (by rfl) _, rfl⟩) ?_) ?_
      ⟨.observeLate (by rfl) _ _ _ _, rfl⟩) ?_) ?_ ⟨.promote _ _ _ _ _ _, rfl⟩) ?_) ?_
      ⟨.collect (by rfl), rfl⟩) ?_
    all_goals first
      | exact Option.isNone_iff_eq_none.mp (by decide +kernel)
      | decide +kernel
  exact ⟨hcollected, by decide +kernel,
    (late_rows_owned (separated_singleton _) hrun).2 _ _ hcollected⟩

end TieredStore.Tiering.LateRows
