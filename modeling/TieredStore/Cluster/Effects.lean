import TieredStore.Cluster.Calls
import TieredStore.Meta.Coherence

/-!
# What the calls of a job do to the catalog

A repository call makes the changes of a set (`RepoCall.changes`), however it ends: it may run to
its end, fail, or break off between two key-value steps. What these changes keep, the call keeps
(`Faulty.kept`). A reading call makes none, and its answer is read from the rows.
-/

namespace TieredStore.Cluster

open Lib Lib.Prog Meta Tiering

namespace RepoCall

/-- The changes that a call can make. -/
def changes : RepoCall → Set Change
  | markObjectMigrating o v => {ch | ∃ now, ch = .mark now o v}
  | promoteObjectVersionToEC o v checksum k m locations =>
    {ch | ∃ now, ch = .promote now o v checksum k m locations}
  | upsertReplicaLocations o v nodeIDs => placements o v nodeIDs
  | markReplicaLocationsDeleted o v nodeIDs => retirements o v nodeIDs
  | purgeObjectVersionMetadata o v => {.purge o v}
  | upsertNormalizedMetadata o metadata =>
    {ch | ∃ clock now, ch = .upsert o (resolveVersion metadata clock) metadata now}
  | deleteNormalizedMetadata o => {.remove o}
  | upkeep _ => {ch | ∃ now o, ch = .pend now o}
  | getObjectVersionSnapshot _ _ | listActiveReplicaLocations _ _ | getObjectVersionGCView _ _
  | getObjectAdminView _ | getNormalizedMetadata _ | task _ => ∅

/-- Versions are committed by `UpsertNormalizedMetadata` only. -/
theorem upsert_mem_changes {c : RepoCall} {o : GoString} {v : Int} {md : Metadata} {now : Time}
    (h : .upsert o v md now ∈ c.changes) :
    c = .upsertNormalizedMetadata o md ∧ ∃ clock, v = resolveVersion md clock := by
  cases c with
  | upsertNormalizedMetadata o' md' =>
    obtain ⟨clock, now', hupsert⟩ := h
    cases hupsert
    exact ⟨rfl, clock, rfl⟩
  | _ => simp [changes, placements, retirements] at h

/-- Replica rows are added by `UpsertReplicaLocations` only. -/
theorem place_mem_changes {c : RepoCall} {o n path : GoString} {v : Int}
    (h : .place o v n path ∈ c.changes) : ∃ ns, c = .upsertReplicaLocations o v ns := by
  cases c with
  | upsertReplicaLocations o' v' ns =>
    obtain ⟨n', -, hplace⟩ := h
    cases hplace
    exact ⟨ns, rfl⟩
  | _ => simp [changes, retirements] at h

/-- The ids under which a call writes rows satisfy `P`. -/
def Names (P : GoString → Prop) : RepoCall → Prop
  | upsertReplicaLocations o _ _ | markReplicaLocationsDeleted o _ _
  | upsertNormalizedMetadata o _ | deleteNormalizedMetadata o
  | upkeep (.upsertTieringDueIndex o _ _ _) => P o
  | _ => True

end RepoCall

section Programs

variable {P : GoString → Prop} {cfg : Config} {clocks : Nat → Time} {s : Store}

/-- Steps on task keys do not show in the catalog. -/
theorem taskStep_catalog {C : TaskMoves.RowChange} {s s' : Store} (h : TaskMoves.TaskStep C s s') :
    catalog s' = catalog s := by
  refine Catalog.ext ?_ ?_ ?_ ?_
  · funext o
    simp only [catalog, h.other _ (not_taskKey (keyFamily_object o) (by decide))]
  · funext o v
    simp only [catalog, h.other _ (not_taskKey (keyFamily_objectVersion o v) (by decide))]
  · funext o v n
    simp only [catalog, h.other _ (not_taskKey (keyFamily_replica o v n) (by decide))]
  · funext o v i
    simp only [catalog, h.other _ (not_taskKey (keyFamily_ecShard o v i) (by decide))]

theorem taskStep_rows {C : TaskMoves.RowChange} {s s' : Store} (h : TaskMoves.TaskStep C s s')
    (hs' : Rows TaskCoherence.AnyID s') (hs : Rows P s) : Rows P s' := by
  intro k x hget
  by_cases hk : TaskKey k
  · have hrow := hs' k x hget
    have hfam := hrow.keyFamily_mem
    cases x with
    | task rec => exact hrow
    | mark => exact hrow
    | _ =>
      rcases hk with hk | hk | hk | hk <;>
        exact absurd hfam (by rw [hk]; simp only [valueFamilies]; decide)
  · exact hs k x (h.other k hk ▸ hget)

/-- A call on tasks leaves the catalog alone. -/
theorem moving_alone {α : Type} {C : TaskMoves.RowChange} {p : KV α}
    {Q : Except GoError α → Store → Prop} {D : Set Change}
    (hp : p.Obeys (TaskMoves.moving C) Q s) (hs : Rows P s) :
    p.Obeys (alone P D) (fun _ _ => True) s := by
  refine (Obeys.step_mono ?_ hp (hs.mono fun _ _ => trivial) hs).mono fun _ _ _ => trivial
  intro s s' _ hany hstep hs
  exact ⟨taskStep_rows hstep hany hs, Or.inl (taskStep_catalog hstep)⟩

theorem alone_mono {α : Type} {p : KV α} {Q : Except GoError α → Store → Prop} {C D : Set Change}
    (hp : p.Obeys (alone P C) Q s) (hCD : C ⊆ D) (hs : Rows P s) :
    p.Obeys (alone P D) (fun _ _ => True) s := by
  refine (Obeys.step_mono ?_ hp hs hs).mono fun _ _ _ => trivial
  intro s s' _ hs' hstep _
  exact ⟨hs', hstep.imp_right fun ⟨ch, hch, hmakes⟩ => ⟨ch, hCD hch, hmakes⟩⟩

theorem task_alone (c : TaskCall) {D : Set Change} (hs : Rows P s) :
    (c.program cfg (clocks 0) (clocks 1)).Obeys (alone P D) (fun _ _ => True) s := by
  have hany : Rows TaskCoherence.AnyID s := hs.mono fun _ _ => trivial
  cases c with
  | claim taskType =>
    exact moving_alone (TaskMoves.moving_claimNextTieringTask cfg taskType hany) hs
  | markDone id => exact moving_alone (TaskMoves.moves_markTieringTaskDone s hany) hs
  | markRetry id lastErr nextRunAt =>
    exact moving_alone (TaskMoves.moves_markTieringTaskRetry s hany) hs
  | markFailed id lastErr => exact moving_alone (TaskMoves.moves_markTieringTaskFailed s hany) hs
  | requeue id => exact moving_alone (TaskMoves.moves_requeueTieringTaskNow s hany) hs
  | cancel id reason => exact moving_alone (TaskMoves.moves_cancelTieringTask s hany) hs
  | enqueue id o v ty priority at' =>
    exact moving_alone (TaskMoves.moves_enqueueTieringTask at' s hany) hs
  | enqueueRepair id o v => exact moving_alone (TaskMoves.moves_enqueueOrRequeue s hany) hs
  | enqueueOldVersion id o v => exact moving_alone (TaskMoves.moves_enqueueOrRequeue s hany) hs

theorem upkeep_alone (hP : Separated P) (u : Upkeep) (hu : (RepoCall.upkeep u).Names P)
    (hs : Rows P s) : (RepoCall.upkeepProgram cfg clocks u).Obeys
      (alone P (RepoCall.upkeep u).changes) (fun _ _ => True) s := by
  refine Background.alone hP ?_ hs
  cases u with
  | upsertTieringDueIndex o v tier sizeBytes => exact background_upsertTieringDueIndexDetached hu
  | enqueueTieringCandidates age maxObjects maxBytes budget =>
    exact background_enqueueTieringCandidates.bind fun _ => background_pure _
  | enqueueRepairCandidates order maxObjects =>
    exact background_enqueueRepairCandidates.bind fun _ => background_pure _
  | enqueueOldVersionGCCandidates keepLatest minAgeSec maxTasks =>
    exact background_enqueueOldVersionGCCandidates.bind fun _ => background_pure _
  | purgeTerminalTieringTasks olderThan limit =>
    exact background_purgeTerminalTieringTasks.bind fun _ => background_pure _

/-- Every step of a call, run alone, leaves the catalog or makes one of the call's changes. -/
theorem RepoCall.program_alone (hP : Separated P) (c : RepoCall) (hc : c.Names P) (hs : Rows P s) :
    (c.program cfg clocks).Obeys (alone P c.changes) (fun _ _ => True) s := by
  have hread : ∀ {α : Type} {p : KV α}, ReadsOnly p →
      p.Obeys (alone P ∅) (fun _ _ => True) s := fun hp => (hp.solo hs).mono fun _ _ _ => trivial
  cases c with
  | getObjectVersionSnapshot o v => exact hread (closed_avoids.getObjectVersionSnapshot o v)
  | listActiveReplicaLocations o v => exact hread (closed_avoids.listActiveReplicaLocations o v)
  | getObjectVersionGCView o v => exact hread (closed_avoids.getObjectVersionGCView o v)
  | getObjectAdminView o => exact hread (closed_avoids.getObjectAdminView o)
  | getNormalizedMetadata o => exact hread (closed_avoids.getNormalizedMetadata o)
  | markObjectMigrating o v =>
    exact alone_mono (markObjectMigrating_alone hP hs _ o v) (by rintro _ rfl; exact ⟨_, rfl⟩) hs
  | promoteObjectVersionToEC o v checksum k m locations =>
    exact alone_mono (promoteObjectVersionToEC_alone hP hs _ o v checksum k m locations)
      (by rintro _ rfl; exact ⟨_, rfl⟩) hs
  | upsertReplicaLocations o v nodeIDs =>
    exact (upsertReplicaLocations_alone hP hs hc v nodeIDs).mono fun _ _ _ => trivial
  | markReplicaLocationsDeleted o v nodeIDs =>
    exact (markReplicaLocationsDeleted_alone hP hs hc v nodeIDs).mono fun _ _ _ => trivial
  | purgeObjectVersionMetadata o v =>
    exact (purgeObjectVersionMetadata_alone hP hs o v).mono fun _ _ _ => trivial
  | upsertNormalizedMetadata o metadata =>
    exact alone_mono (upsertNormalizedMetadata_alone hP hs cfg _ _ hc metadata)
      (by rintro _ rfl; exact ⟨_, _, rfl⟩) hs
  | deleteNormalizedMetadata o =>
    exact (deleteNormalizedMetadata_alone hP hs hc).mono fun _ _ _ => trivial
  | task c => exact task_alone c hs
  | upkeep u => exact upkeep_alone hP u hc hs

end Programs

section Worlds

variable {P : GoString → Prop} {cfg : Config} {w w' : World} {c : RepoCall}
  {r : Except GoError c.Answer}

/-- A repository call has made some first steps of its program, perhaps all. -/
theorem Faulty.steps (h : Faulty cfg (.repo c) w r w') : w'.blobs = w.blobs ∧ ∃ clocks q,
    Path (Answers kvHandler) (c.program cfg clocks) w.records q w'.records := by
  rcases h with ⟨e, he⟩ | ⟨hblobs, -, clocks, q, hpath⟩
  · obtain ⟨-, rfl⟩ := Prod.mk.inj he
    exact ⟨rfl, e.clocks, _, exec_run kvHandler _ _⟩
  · exact ⟨hblobs, clocks, q, hpath⟩

/-- A call keeps what its changes keep. -/
theorem Faulty.kept {J : Catalog → Prop} (hP : Separated P) (hc : c.Names P)
    (hs : Rows P w.records) (h : Faulty cfg (.repo c) w r w')
    (hJ : ∀ ch ∈ c.changes, ∀ cat cat', cat.Named P → J cat → Makes ch cat cat' → J cat')
    (hw : J (catalog w.records)) : Rows P w'.records ∧ J (catalog w'.records) := by
  obtain ⟨-, clocks, q, hpath⟩ := h.steps
  have hkept := (RepoCall.program_alone hP c hc hs).step_path (J := fun s => J (catalog s)) ?_ hs hw
    hpath
  · exact ⟨hkept.1, hkept.2.1⟩
  · rintro s₁ s₂ hs₁ - (heq | ⟨ch, hch, hmakes⟩) hJ₁
    · rwa [heq]
    · exact hJ ch hch _ _ hs₁.named hJ₁ hmakes

theorem Faulty.rows (hP : Separated P) (hc : c.Names P) (hs : Rows P w.records)
    (h : Faulty cfg (.repo c) w r w') : Rows P w'.records :=
  (h.kept hP hc hs (J := fun _ => True) (fun _ _ _ _ _ _ _ => trivial) trivial).1

/-- A call without changes leaves the catalog alone. -/
theorem Faulty.catalog_eq (hP : Separated P) (hc : c.Names P) (hs : Rows P w.records)
    (h : Faulty cfg (.repo c) w r w') (hnone : c.changes = ∅) :
    catalog w'.records = catalog w.records :=
  (h.kept hP hc hs (J := fun cat => cat = catalog w.records)
    (fun ch hch => by simp [hnone] at hch) rfl).2

/-- An answer of a repository call is an error or that of the whole program. -/
theorem Faulty.answer (h : Faulty cfg (.repo c) w r w') : (∃ e, r = .error e) ∨
    ∃ clocks, atomically (c.program cfg clocks) w.records = (r, w'.records) := by
  rcases h with ⟨e, he⟩ | ⟨-, herr, -⟩
  · obtain ⟨rfl, rfl⟩ := Prod.mk.inj he
    exact Or.inr ⟨e.clocks, rfl⟩
  · exact Or.inl herr

/-- A reading call that answers has read the rows, and has left the cluster alone. -/
theorem Faulty.read {a b : c.Answer} (h : Faulty cfg (.repo c) w (.ok a) w')
    (hread : ∀ clocks, atomically (c.program cfg clocks) w.records = (.ok b, w.records)) :
    a = b ∧ w = w' := by
  obtain ⟨hblobs, -⟩ := h.steps
  rcases h.answer with ⟨e, ⟨⟩⟩ | ⟨clocks, hanswer⟩
  rw [hread clocks] at hanswer
  obtain ⟨hb, hrecords⟩ := Prod.mk.inj hanswer
  cases hb
  cases w
  cases w'
  cases hrecords
  cases hblobs
  exact ⟨rfl, rfl⟩

theorem Steady.repo {healthy : List GoString} (h : Steady cfg healthy (.repo c) w r w') :
    Faulty cfg (.repo c) w r w' := h.reports.faulty

/-- A steady repository that fails a reading call leaves the cluster alone, too. -/
theorem Steady.read_error {healthy : List GoString} {b : c.Answer} {e : GoError}
    (h : Steady cfg healthy (.repo c) w (.error e) w')
    (hread : ∀ clocks, atomically (c.program cfg clocks) w.records = (.ok b, w.records)) :
    w' = w := by
  rcases h with ⟨weather, hserve⟩ | ⟨-, hsame⟩
  · have hanswer := (Prod.mk.inj hserve).1
    rw [hread] at hanswer
    cases hanswer
  · exact hsame

end Worlds

end TieredStore.Cluster
