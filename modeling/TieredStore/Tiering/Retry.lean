import TieredStore.Api.WriteService
import TieredStore.Cluster.Effects
import TieredStore.Tiering.Processors

/-!
# Retries of a migration

A migration commits its promotion and the task that deletes the replicas in two calls. An attempt
that stops between them leaves a version in tier EC without that task, and every later attempt
finds the version promoted and returns at once (`gc_never_scheduled`). Which of the two calls an
attempt has committed last is noted beside its steps (`tracked`). When no attempt stops with its
promotion as the last one, a version that is found in tier EC has had the task enqueued
(`retried_migration_schedules_gc`).
-/

namespace TieredStore.Tiering

open Lib Lib.Prog Meta Cluster Meta.TaskCoherence

/-! ## Which call committed last -/

/-- The call of a migration that has committed last. -/
inductive Last where
  | neither
  | promotion
  | enqueue
  deriving DecidableEq

/-- What a call makes of it. A promotion has committed when the rows have changed, and an enqueue
when it has run to its end, whether its answer arrived or not. -/
def Notes : (c : Call) → c.Answer → World → World → Last → Last → Prop
  | .repo (.promoteObjectVersionToEC _ _ _ _ _ _), _, w, w', last, last' =>
    last' = .promotion ∧ w'.records ≠ w.records ∨ last' = last ∧ w'.records = w.records
  | .repo (.task (.enqueue id o v ty priority at')), r, w, w', last, last' =>
    (last' = .enqueue ∧ ∃ clock now, atomically
      (enqueueTieringTask clock now id o v ty priority at') w.records = (.ok (), w'.records)) ∨
    last' = last ∧ r ≠ .ok ()
  | _, _, _, _, last, last' => last' = last

/-- The steps of a job among failing calls, with the call that committed last. -/
def tracked (cfg : Config) (c : Call) (x : World × Last) (r : c.Answer) (x' : World × Last) : Prop :=
  Faulty cfg c x.1 r x'.1 ∧ Notes c r x.1 x'.1 x.2 x'.2

/-! ## Jobs that keep a property of the rows -/

section Keeping

variable {α β : Type} {cfg : Config} {J : Store → Last → Prop}

/-- The monitor of a job that runs among failing calls and keeps `J` at every step. -/
abbrev watching (cfg : Config) (J : Store → Last → Prop) :
    Monitor Call Call.Answer (World × Last) :=
  stateMonitor (tracked cfg) fun x => J x.1.records x.2

/-- A job that keeps `J` and commits neither of the two calls. -/
def KeepsRecords (cfg : Config) (J : Store → Last → Prop) (p : Job α) : Prop :=
  ∀ x, J x.1.records x.2 →
    p.Obeys (watching cfg J) (fun _ x' => J x'.1.records x'.2 ∧ x'.2 = x.2) x

theorem keepsRecords_pure (a : α) : KeepsRecords cfg J (pure a) := fun _ hx => ⟨hx, rfl⟩

theorem keepsRecords_fail (e : GoError) : KeepsRecords cfg J (.fail e : Job α) :=
  fun _ hx => ⟨hx, rfl⟩

/-- What follows a part of a job that keeps the rows. -/
theorem KeepsRecords.andThen {p : Job α} {f : α → Job β}
    {Q : Except GoError β → World × Last → Prop} {x : World × Last} (hp : KeepsRecords cfg J p)
    (hx : J x.1.records x.2) (herr : ∀ e w', J w'.records x.2 → Q (.error e) (w', x.2))
    (hf : ∀ a w', J w'.records x.2 → (f a).Obeys (watching cfg J) Q (w', x.2)) :
    (p >>= f).Obeys (watching cfg J) Q x := by
  refine (hp x hx).bind ?_ ?_
  · rintro e ⟨w', last⟩ ⟨hx', rfl⟩
    exact herr e w' hx'
  · rintro a ⟨w', last⟩ ⟨hx', rfl⟩
    exact hf a w' hx'

theorem KeepsRecords.bind {p : Job α} {f : α → Job β} (hp : KeepsRecords cfg J p)
    (hf : ∀ a, KeepsRecords cfg J (f a)) : KeepsRecords cfg J (p >>= f) :=
  fun _ hx => hp.andThen hx (fun _ _ hx' => ⟨hx', rfl⟩) fun a w' hx' => hf a (w', _) hx'

/-- Only repository calls touch the rows. -/
theorem keepsRecords_call {c : Call} {k : c.Answer → Job α} (hc : ∀ rc, c ≠ .repo rc)
    (hk : ∀ r, KeepsRecords cfg J (k r)) : KeepsRecords cfg J (.call c k) := by
  intro x hx
  refine ⟨hx, ?_⟩
  rintro r ⟨w', last⟩ ⟨hstep, hnotes⟩
  have hlast : last = x.2 := by
    cases c with
    | repo rc => exact absurd rfl (hc rc)
    | _ => exact hnotes
  subst hlast
  refine hk r (w', x.2) ?_
  have hrecords : w'.records = x.1.records := Faulty.records hstep hc
  rw [hrecords]
  exact hx

theorem keepsRecords_retrieve (n k : GoString) : KeepsRecords cfg J (Job.retrieve n k) :=
  keepsRecords_call (fun rc h => by cases h) fun _ => keepsRecords_pure _

theorem keepsRecords_store (n k : GoString) (data : Blob) :
    KeepsRecords cfg J (Job.store n k data) :=
  keepsRecords_call (fun rc h => by cases h) fun _ => keepsRecords_pure _

theorem keepsRecords_schedule (xs : List α) : KeepsRecords cfg J (Job.schedule xs) :=
  keepsRecords_call (fun rc h => by cases h) fun _ => keepsRecords_pure _

theorem keepsRecords_listHealthyNodeIDs : KeepsRecords cfg J Job.listHealthyNodeIDs := by
  refine keepsRecords_call (fun rc h => by cases h) fun r => ?_
  cases r with
  | ok nodes => exact keepsRecords_pure _
  | error e => exact keepsRecords_fail _

theorem keepsRecords_fetchFirst (places : List (GoString × GoString)) :
    KeepsRecords cfg J (fetchFirst places) := by
  induction places with
  | nil => exact keepsRecords_pure _
  | cons place rest ih =>
    unfold fetchFirst tryFetch
    refine KeepsRecords.bind ?_ fun found => ?_
    · split
      · exact keepsRecords_pure _
      · refine (keepsRecords_retrieve _ _).bind fun reply => ?_
        split <;> exact keepsRecords_pure _
    · cases found with
      | none => exact ih
      | some data => exact keepsRecords_pure _

theorem keepsRecords_writeJobs (o : GoString) (jobs : List ((GoString × Blob) × Nat)) :
    KeepsRecords cfg J (writeJobs o jobs) := by
  induction jobs with
  | nil => exact keepsRecords_pure _
  | cons job rest ih =>
    unfold writeJobs writeSingleShard
    refine KeepsRecords.bind ?_ fun location => ih.bind fun _ => keepsRecords_pure _
    split
    · exact keepsRecords_pure _
    · refine (keepsRecords_store _ _ _).bind fun reply => ?_
      split <;> exact keepsRecords_pure _

theorem keepsRecords_wrapped (what : GoString) (x : Except GoError α) :
    KeepsRecords cfg J (wrapped what x) := by
  cases x with
  | ok a => exact keepsRecords_pure _
  | error e => exact keepsRecords_fail _

theorem keepsRecords_repo {c : RepoCall}
    (hquiet : ∀ {r w w' last last'}, Notes (.repo c) r w w' last last' → last' = last)
    (hc : ∀ {w r w' last}, J w.records last → Faulty cfg (.repo c) w r w' → J w'.records last) :
    KeepsRecords cfg J (Job.repo c) := by
  intro x hx
  refine ⟨hx, ?_⟩
  rintro r ⟨w', last⟩ ⟨hstep, hnotes⟩
  obtain rfl : last = x.2 := hquiet hnotes
  have hx' := hc hx hstep
  cases r <;> exact ⟨hx', rfl⟩

end Keeping

/-! ## Attempts -/

/-- The record of the version is in tier EC. -/
def Promoted (o : GoString) (v : Int) (s : Store) : Prop :=
  ∃ ver, (catalog s).version o v = some ver ∧ ver.tier = .ec

/-- The task that deletes the replicas of the version has been enqueued. -/
def Scheduled (o : GoString) (v : Int) (s : Store) : Prop :=
  ∃ rec, taskRow s (gcTaskID o v) = some rec

section Attempts

variable {P : GoString → Prop} {d : Deps} {o : GoString} {v : Int} {w w' : World} {before : Prop}
  {last : Last}

/-- What an attempt keeps at every step. `before` says that the version was in tier EC before. -/
structure Keeps (P : GoString → Prop) (o : GoString) (v : Int) (before : Prop) (s : Store)
    (last : Last) : Prop where
  rows : Rows P s
  scheduled : before ∨ last = .enqueue → Scheduled o v s
  promoted : last = .neither → Promoted o v s → before

theorem keeps_avoiding (hP : Separated P) (c : RepoCall) (hc : c.Names P)
    (havoid : ∀ clocks, Avoids (fun k => keyFamily k = lit "task") (c.program d.cfg clocks))
    {r : Except GoError c.Answer} (hw : Rows P w.records)
    (h : Faulty d.cfg (.repo c) w r w') :
    Rows P w'.records ∧ (Scheduled o v w.records → Scheduled o v w'.records) := by
  refine ⟨h.rows hP hc hw, ?_⟩
  rintro ⟨rec, hrec⟩
  obtain ⟨-, clocks, q, hpath⟩ := h.steps
  refine ⟨rec, ?_⟩
  rw [← hrec]
  unfold taskRow
  rw [(havoid clocks).kept hpath (keyFamily_task _)]

/-- A reading call keeps everything. -/
theorem keeps_reading (hP : Separated P) (c : RepoCall) (hc : c.Names P) (hnone : c.changes = ∅)
    (havoid : ∀ clocks, Avoids (fun k => keyFamily k = lit "task") (c.program d.cfg clocks))
    {r : Except GoError c.Answer} (hw : Keeps P o v before w.records last)
    (h : Faulty d.cfg (.repo c) w r w') : Keeps P o v before w'.records last := by
  obtain ⟨hrows, hkept⟩ := keeps_avoiding (o := o) (v := v) hP c hc havoid hw.rows h
  refine ⟨hrows, fun hb => hkept (hw.scheduled hb), fun hlast => ?_⟩
  unfold Promoted
  rw [h.catalog_eq hP hc hw.rows hnone]
  exact hw.promoted hlast

theorem avoids_markObjectMigrating (now : Time) :
    Avoids (fun k => keyFamily k = lit "task") (markObjectMigrating now o v) := by
  have hset : ∀ obj, Avoids (fun k => keyFamily k = lit "task") (KV.set (tiKVObjectKey o) (.object obj)) :=
    fun obj => avoids_commit (by simp [keyFamily_object]; decide)
  refine closed_avoids.attempt (closed_avoids.getJSON _ _) fun found => ?_
  split
  · split
    · exact closed_avoids.fail _
    · split
      · exact hset _
      · exact hset _
      · exact hset _
      · exact closed_avoids.fail _
  · exact closed_avoids.fail _

theorem avoids_promoteObjectVersionToEC (now : Time) (checksum : GoString) (k m : Int)
    (locs : List ECShardLocation) : Avoids (fun k => keyFamily k = lit "task")
      (promoteObjectVersionToEC now o v checksum k m locs) := by
  refine closed_avoids.ite (closed_avoids.fail _) ?_
  refine closed_avoids.attempt (closed_avoids.getJSON _ _) fun found => ?_
  split
  · refine closed_avoids.ite (closed_avoids.fail _) ?_
    refine closed_avoids.attempt (closed_avoids.getJSON _ _) fun found => ?_
    split
    · refine avoids_commit fun w hw => ?_
      simp only [promoteBatch, List.mem_append, List.mem_map, List.mem_cons,
        List.not_mem_nil, or_false] at hw
      rcases hw with ⟨loc, -, rfl⟩ | rfl | rfl
      · rw [Write.key_set, keyFamily_ecShard]
        decide
      · rw [Write.key_set, keyFamily_objectVersion]
        decide
      · rw [Write.key_set, keyFamily_object]
        decide
    · exact closed_avoids.fail _
  · exact closed_avoids.fail _

theorem keeps_markObjectMigrating (hP : Separated P) {r : Except GoError Unit}
    (hw : Keeps P o v before w.records last)
    (h : Faulty d.cfg (.repo (.markObjectMigrating o v)) w r w') :
    Keeps P o v before w'.records last := by
  obtain ⟨hrows, hkept⟩ := keeps_avoiding (o := o) (v := v) hP (.markObjectMigrating o v) trivial
    (fun _ => avoids_markObjectMigrating _) hw.rows h
  refine ⟨hrows, fun hb => hkept (hw.scheduled hb), fun hlast hprom => hw.promoted hlast ?_⟩
  -- the mark changes the head only
  have hversion := (Faulty.kept (c := .markObjectMigrating o v) hP trivial hw.rows h
    (J := fun cat => cat.version = (catalog w.records).version) ?_ rfl).2
  · unfold Promoted at hprom ⊢
    rwa [hversion] at hprom
  · rintro ch ⟨now, rfl⟩ cat cat' - hcat hmakes
    cases hmakes
    exact hcat

/-- The call that enqueues the deletion of the replicas. -/
abbrev gcEnqueue (o : GoString) (v : Int) (now : Time) : RepoCall :=
  .task (.enqueue (gcTaskID o v) o v (lit "GC") 90 now)

theorem keeps_gcEnqueue (hP : Separated P) {now : Time}
    {r : Except GoError (gcEnqueue o v now).Answer} (hw : Rows P w.records)
    (h : Faulty d.cfg (.repo (gcEnqueue o v now)) w r w') :
    Rows P w'.records ∧ (Scheduled o v w.records → Scheduled o v w'.records) := by
  refine ⟨Faulty.rows (c := gcEnqueue o v now) hP trivial hw h, fun hb => ?_⟩
  obtain ⟨-, clocks, q, hpath⟩ := h.steps
  have hany : Rows AnyID w.records := hw.mono fun _ _ => trivial
  have hobeys := @TaskMoves.moves_enqueueTieringTask (clocks 0) (clocks 1) (gcTaskID o v) o (lit "GC")
    v 90 now w.records hany
  refine (hobeys.step_path (J := Scheduled o v) ?_ hany hb hpath).2.1
  rintro s s' - - hstep ⟨rec, hrec⟩
  rcases hstep.rows (gcTaskID o v) with heq | ⟨-, hnone, -⟩
  · exact ⟨rec, heq.trans hrec⟩
  · rw [hrec] at hnone
    cases hnone

/-- An enqueue that runs to its end leaves the task. -/
theorem scheduled_of_enqueue {s s' : Store} {clock now at' : Time} (hs : Rows P s)
    (h : atomically (enqueueTieringTask clock now (gcTaskID o v) o v (lit "GC") 90 at') s =
      (.ok (), s')) : Scheduled o v s' := by
  have hany : Rows AnyID s := hs.mono fun _ _ => trivial
  have hid : gcTaskID o v ≠ [] := by simp [gcTaskID, lit]
  have hobeys := @TaskMoves.enqueueTieringTask_result s clock now (gcTaskID o v) o (lit "GC") v 90
    hany hid at'
  have hend := (hobeys.step_run (J := fun _ => True) (fun _ _ _ _ _ _ => trivial) hany trivial).1
  have hrun : (enqueueTieringTask clock now (gcTaskID o v) o v (lit "GC") 90 at').run kvHandler s =
    (.ok (), s') := h
  rw [hrun] at hend
  exact hend.2

/-- The enqueue: afterwards it is the last call that committed, unless it failed. -/
theorem gcEnqueue_step (hP : Separated P) {now : Time} {last' : Last}
    {r : Except GoError (gcEnqueue o v now).Answer} (hw : Keeps P o v before w.records last)
    (h : Faulty d.cfg (.repo (gcEnqueue o v now)) w r w')
    (hnotes : Notes (.repo (gcEnqueue o v now)) r w w' last last') :
    Keeps P o v before w'.records last' ∧ (r = .ok () → last' = .enqueue) := by
  obtain ⟨hrows, hkept⟩ := keeps_gcEnqueue hP hw.rows h
  have hcatalog := Faulty.catalog_eq (c := gcEnqueue o v now) hP trivial hw.rows h rfl
  rcases hnotes with ⟨rfl, clock, now', hrun⟩ | ⟨rfl, hfailed⟩
  · exact ⟨⟨hrows, fun _ => scheduled_of_enqueue hw.rows hrun, nofun⟩, fun _ => rfl⟩
  · refine ⟨⟨hrows, fun hb => hkept (hw.scheduled hb), fun hlast hprom => hw.promoted hlast ?_⟩,
      fun hok => absurd hok hfailed⟩
    unfold Promoted
    rwa [← hcatalog]

/-- The promotion: it is the last call that committed, or nothing has changed. -/
theorem promote_step (hP : Separated P) {checksum : GoString} {k m : Int}
    {locs : List ECShardLocation} {last' : Last} {r : Except GoError Unit}
    (hw : Keeps P o v before w.records .neither)
    (h : Faulty d.cfg (.repo (.promoteObjectVersionToEC o v checksum k m locs)) w r w')
    (hnotes : Notes (.repo (.promoteObjectVersionToEC o v checksum k m locs)) r w w' .neither
      last') : Keeps P o v before w'.records last' := by
  obtain ⟨hrows, hkept⟩ := keeps_avoiding (o := o) (v := v) hP
    (.promoteObjectVersionToEC o v checksum k m locs) trivial
    (fun _ => avoids_promoteObjectVersionToEC _ checksum k m locs) hw.rows h
  rcases hnotes with ⟨rfl, -⟩ | ⟨rfl, hsame⟩
  · exact ⟨hrows, fun hb => hkept (hw.scheduled (Or.inl (hb.resolve_right nofun))), nofun⟩
  · rw [hsame]
    exact hw

/-- A migration that ends without an error has not its promotion as the last call that
committed. -/
theorem migrate_schedules (hP : Separated P) (hw : Keeps P o v before w.records .neither) :
    (migrate d o v).Obeys (watching d.cfg (Keeps P o v before))
      (fun out x => Keeps P o v before x.1.records x.2 ∧ (out = .ok () → x.2 ≠ .promotion))
      (w, .neither) := by
  have herr : ∀ (e : GoError) (w' : World), Keeps P o v before w'.records .neither →
      Keeps P o v before w'.records .neither ∧
        ((.error e : Except GoError Unit) = .ok () → Last.neither ≠ .promotion) :=
    fun e w' hw' => ⟨hw', nofun⟩
  have hmark : KeepsRecords d.cfg (Keeps P o v before) (Job.repo (.markObjectMigrating o v)) :=
    keepsRecords_repo id fun hw h => keeps_markObjectMigrating hP hw h
  have hlist : KeepsRecords d.cfg (Keeps P o v before) (Job.repo (.listActiveReplicaLocations o v)) :=
    keepsRecords_repo id fun hw h => keeps_reading hP (.listActiveReplicaLocations o v) trivial rfl
      (fun _ => closed_avoids.listActiveReplicaLocations o v) hw h
  unfold migrate
  refine hmark.andThen hw herr fun _ w hw => ?_
  refine keepsRecords_listHealthyNodeIDs.andThen hw herr fun nodes w hw => ?_
  split
  · exact herr _ w hw
  refine hlist.andThen hw herr fun replicas w hw => ?_
  refine KeepsRecords.andThen ?_ hw herr fun sourceBytes w hw => ?_
  · refine (keepsRecords_fetchFirst _).bind fun found => ?_
    cases found with
    | none => exact keepsRecords_fail _
    | some data => exact keepsRecords_pure _
  refine KeepsRecords.andThen ?_ hw herr fun shards w hw => ?_
  · exact (keepsRecords_wrapped _ _).bind fun _ => keepsRecords_wrapped _ _
  dsimp only
  split
  · exact herr _ w hw
  refine KeepsRecords.andThen ?_ hw herr fun locations w hw => ?_
  · exact (keepsRecords_schedule _).bind fun jobs => (keepsRecords_writeJobs o jobs).bind fun _ =>
      keepsRecords_pure _
  split
  · exact herr _ w hw
  -- the last three calls: the promotion, the clock and the enqueue
  refine ⟨hw, ?_⟩
  rintro r ⟨w₁, last₁⟩ ⟨hpromote, hnotes⟩
  have hw₁ := promote_step hP hw hpromote hnotes
  cases r with
  | error e => exact ⟨hw₁, nofun⟩
  | ok a =>
    refine ⟨hw₁, ?_⟩
    rintro now ⟨w₂, last₂⟩ ⟨hnow, rfl⟩
    have hrecords : w₂.records = w₁.records := Faulty.records hnow fun rc h => by cases h
    have hw₂ : Keeps P o v before w₂.records last₂ := hrecords.symm ▸ hw₁
    refine ⟨hw₂, ?_⟩
    rintro r ⟨w₃, last₃⟩ ⟨henqueue, hnotes⟩
    obtain ⟨hw₃, hlast₃⟩ := gcEnqueue_step hP hw₂ henqueue hnotes
    cases r with
    | error e => exact ⟨hw₃, nofun⟩
    | ok a =>
      refine ⟨hw₃, fun _ => ?_⟩
      rw [hlast₃ rfl]
      nofun

/-- What an attempt leaves. When it ends without an error, its promotion is not the last call that
committed. -/
theorem processReplicationToEC_schedules {task : TaskRecord} (hP : Separated P)
    (hw : Keeps P task.objectID task.version before w.records .neither) :
    (processReplicationToEC d task).Obeys
      (watching d.cfg (Keeps P task.objectID task.version before))
      (fun out x => Keeps P task.objectID task.version before x.1.records x.2 ∧
        (out = .ok () → x.2 ≠ .promotion)) (w, .neither) := by
  have hread : KeepsRecords d.cfg (Keeps P task.objectID task.version before)
      (Job.repo (.getObjectVersionSnapshot task.objectID task.version)) :=
    keepsRecords_repo id fun hw h => keeps_reading hP
      (.getObjectVersionSnapshot task.objectID task.version) trivial rfl
      (fun _ => closed_avoids.getObjectVersionSnapshot task.objectID task.version) hw h
  unfold processReplicationToEC
  refine hread.andThen hw (fun e w' hw' => ⟨hw', nofun⟩) fun found w' hw' => ?_
  cases found with
  | none => exact ⟨hw', nofun⟩
  | some snapshot =>
    dsimp only
    split
    · exact ⟨hw', nofun⟩
    · split
      · exact ⟨hw', nofun⟩
      · exact migrate_schedules hP hw'

end Attempts

/-! ## Runs of attempts -/

/-- An attempt of the task starts in `w` and stops in `w'`, with `q` left to do and with the call that
it has committed last. -/
abbrev Attempt (d : Deps) (task : TaskRecord) (w : World) (q : Job Unit) (w' : World)
    (last : Last) : Prop :=
  Path (tracked d.cfg) (processReplicationToEC d task) (w, .neither) q (w', last)

/-- The worlds reached by attempts, one after the other. Those that stop before the end or with an
error do so where `G` allows it. -/
inductive Attempts (d : Deps) (task : TaskRecord) (G : Last → Prop) (w₀ : World) : World → Prop where
  | start : Attempts d task G w₀ w₀
  | attempt {w w' : World} {q : Job Unit} {last : Last} (h : Attempts d task G w₀ w)
      (path : Attempt d task w q w' last) (stop : q ≠ .ret () → G last) : Attempts d task G w₀ w'

section Runs

variable {P : GoString → Prop} {d : Deps} {task : TaskRecord} {w₀ w w' : World} {last : Last}

/-- One attempt keeps: a promoted version has its task. -/
theorem attempt_keeps (hP : Separated P) {q : Job Unit} (path : Attempt d task w q w' last)
    (stop : q ≠ .ret () → last ≠ .promotion) (hs : Rows P w.records)
    (hw : Promoted task.objectID task.version w.records →
      Scheduled task.objectID task.version w.records) :
    Rows P w'.records ∧ (Promoted task.objectID task.version w'.records →
      Scheduled task.objectID task.version w'.records) := by
  have hstart : Keeps P task.objectID task.version
      (Promoted task.objectID task.version w.records) w.records .neither :=
    ⟨hs, fun hb => hw (hb.resolve_right nofun), fun _ => id⟩
  have hend := (processReplicationToEC_schedules hP hstart).state_path path
  have hkeeps := hend.state_inv fun _ _ h => h.1
  refine ⟨hkeeps.rows, fun hprom => ?_⟩
  cases last with
  | neither => exact hkeeps.scheduled (Or.inl (hkeeps.promoted rfl hprom))
  | enqueue => exact hkeeps.scheduled (Or.inr rfl)
  | promotion =>
    by_cases hq : q = .ret ()
    · rw [hq] at hend
      exact absurd rfl (hend.2 rfl)
    · exact absurd rfl (stop hq)

theorem run_keeps (hP : Separated P) (hs : Rows P w₀.records)
    (hnew : ¬ Promoted task.objectID task.version w₀.records)
    (hrun : Attempts d task (· ≠ .promotion) w₀ w) :
    Rows P w.records ∧ (Promoted task.objectID task.version w.records →
      Scheduled task.objectID task.version w.records) := by
  induction hrun with
  | start => exact ⟨hs, fun hprom => absurd hprom hnew⟩
  | attempt _ path stop ih => exact attempt_keeps hP path stop ih.1 ih.2

/-- When no attempt stops with its promotion as the last call that it committed: once an attempt ends
without an error while the version is in tier EC, current or not, the task that deletes its replicas
is there. -/
theorem retried_migration_schedules_gc (hP : Separated P) (hs : Rows P w₀.records)
    (hnew : ¬ Promoted task.objectID task.version w₀.records)
    (hrun : Attempts d task (· ≠ .promotion) w₀ w)
    (hlast : Attempt d task w (.ret ()) w' last) {snap : ObjectVersionSnapshot}
    (hsnap : (catalog w'.records).snapshot task.objectID task.version = some snap)
    (hec : snap.tier = .ec) : Scheduled task.objectID task.version w'.records := by
  obtain ⟨hrows, hkept⟩ := run_keeps hP hs hnew hrun
  refine (attempt_keeps hP hlast (fun h => absurd rfl h) hrows hkept).2 ?_
  obtain ⟨obj, ver, -, hver, rfl⟩ := Catalog.snapshot_eq_some.mp hsnap
  exact ⟨ver, hver, hec⟩

end Runs

/-! ## A version that keeps its task, and one that loses it -/

def migrationTask : TaskRecord := newTask (lit "repl-to-ec:a:7") (lit "a") 7 (lit "REPL_TO_EC") 100 0

/-- The call that has committed last, after a call that was answered. -/
def Last.after (last : Last) : (c : Call) → c.Answer → World → World → Last
  | .repo (.promoteObjectVersionToEC _ _ _ _ _ _), _, w, w' =>
    if w'.records.entries = w.records.entries then last else .promotion
  | .repo (.task (.enqueue _ _ _ _ _ _)), .ok _, _, _ => .enqueue
  | _, _, _, _ => last

/-- A healthy cluster, with the call that has committed last. -/
def trackedHandler (c : Call) (x : World × Last) : c.Answer × (World × Last) :=
  ((serve smallDeps.cfg calmWeather c x.1).1, (serve smallDeps.cfg calmWeather c x.1).2,
    x.2.after c (serve smallDeps.cfg calmWeather c x.1).1 x.1
      (serve smallDeps.cfg calmWeather c x.1).2)

theorem tracked_of_handler (c : Call) (x : World × Last) (r : c.Answer) (x' : World × Last)
    (h : trackedHandler c x = (r, x')) : tracked smallDeps.cfg c x r x' := by
  cases h
  refine ⟨Or.inl ⟨calmWeather, rfl⟩, ?_⟩
  cases c with
  | repo rc =>
    cases rc with
    | promoteObjectVersionToEC o v checksum k m locs =>
      dsimp only [Notes, Last.after]
      split_ifs with hsame
      · exact Or.inr ⟨rfl, SortedMap.eq_of_entries hsame⟩
      · exact Or.inl ⟨rfl, fun heq => hsame (congrArg SortedMap.entries heq)⟩
    | task c =>
      cases c with
      | enqueue id o v ty priority at' =>
        dsimp only [Notes, serve]
        generalize hrun : atomically (RepoCall.program smallDeps.cfg calmWeather.clocks
          (.task (.enqueue id o v ty priority at'))) x.1.records = out
        obtain ⟨r | a, s⟩ := out
        · exact Or.inr ⟨rfl, nofun⟩
        · exact Or.inl ⟨rfl, _, _, hrun⟩
      | _ => rfl
    | _ => rfl
  | _ => rfl

/-- An attempt that is cut off after some calls. -/
def cutOff (n : Nat) (w : World) : Job Unit × World × Last :=
  steps trackedHandler n (processReplicationToEC smallDeps migrationTask) (w, .neither)

theorem attempt_of_cutOff (n : Nat) (w : World) : Attempt smallDeps migrationTask w
    (cutOff n w).1 (cutOff n w).2.1 (cutOff n w).2.2 :=
  (path_steps trackedHandler n _ _).mono tracked_of_handler

/-- An attempt that runs to its end. -/
def ranToEnd (w : World) : Except GoError Unit × World × Last :=
  (processReplicationToEC smallDeps migrationTask).run trackedHandler (w, .neither)

theorem attempt_of_ranToEnd {w : World} (hout : (ranToEnd w).1 = .ok ()) :
    Attempt smallDeps migrationTask w (.ret ()) (ranToEnd w).2.1 (ranToEnd w).2.2 := by
  have hpath := exec_run trackedHandler (processReplicationToEC smallDeps migrationTask) (w, .neither)
  unfold ranToEnd at hout ⊢
  rw [hout] at hpath
  exact Path.mono tracked_of_handler hpath

theorem writtenWorld_rows : Rows Coherence.SlashFree Api.writtenWorld.records :=
  rows_iff_entries.mpr (by decide +kernel)

theorem writtenWorld_hot : ¬ Promoted (lit "a") 7 Api.writtenWorld.records := by
  rintro ⟨ver, hver, hec⟩
  have hhot : ((catalog Api.writtenWorld.records).version (lit "a") 7).map (·.tier) = some .hot := by
    decide +kernel
  rw [hver, Option.map_some, hec] at hhot
  cases hhot

/-- The first attempt has stored the shards and stops before its promotion. -/
def storedWorld : World := (cutOff 12 Api.writtenWorld).2.1

theorem storedWorld_last : (cutOff 12 Api.writtenWorld).2.2 = .neither := by decide +kernel

theorem interrupted_migration_schedules_gc :
    Attempts smallDeps migrationTask (· ≠ .promotion) Api.writtenWorld storedWorld ∧
    Scheduled (lit "a") 7 (ranToEnd storedWorld).2.1.records := by
  have hrun : Attempts smallDeps migrationTask (· ≠ .promotion) Api.writtenWorld storedWorld :=
    .attempt .start (attempt_of_cutOff 12 _) fun _ => by rw [storedWorld_last]; nofun
  exact ⟨hrun, @retried_migration_schedules_gc Coherence.SlashFree smallDeps migrationTask
    Api.writtenWorld storedWorld _ _ separated_slashFree writtenWorld_rows writtenWorld_hot hrun
    (attempt_of_ranToEnd (by decide +kernel)) ⟨lit "a", 7, 7, .ecActive, .ec⟩ (by decide +kernel)
    rfl⟩

/-- The first attempt stops after its promotion. -/
def interruptedWorld : World := (cutOff 13 Api.writtenWorld).2.1

/-- The second attempt finds the version promoted. -/
def retriedWorld : World := (ranToEnd interruptedWorld).2.1

theorem gc_never_scheduled : ¬ Promoted (lit "a") 7 Api.writtenWorld.records ∧
    Attempts smallDeps migrationTask (fun _ => True) Api.writtenWorld interruptedWorld ∧
    Attempt smallDeps migrationTask interruptedWorld (.ret ()) retriedWorld
      (ranToEnd interruptedWorld).2.2 ∧
    (catalog retriedWorld.records).snapshot (lit "a") 7 =
      some ⟨lit "a", 7, 7, .ecActive, .ec⟩ ∧
    ¬ Scheduled (lit "a") 7 retriedWorld.records := by
  refine ⟨writtenWorld_hot, .attempt .start (attempt_of_cutOff 13 _) fun _ => trivial,
    attempt_of_ranToEnd (by decide +kernel), by decide +kernel, ?_⟩
  rintro ⟨rec, hrec⟩
  have hnone : taskRow retriedWorld.records (gcTaskID (lit "a") 7) = none := by decide +kernel
  rw [hnone] at hrec
  cases hrec

end TieredStore.Tiering
