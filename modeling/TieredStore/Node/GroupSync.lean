import TieredStore.Meta.Schema

/-!
# Group sync

In the mode `group_sync` a writer does not sync its file itself. It sends a request to the group
syncer and waits on a channel of its own. The syncer takes a first request, collects more until the
batch is full or a timer fires, syncs the files of the batch one after the other and answers each
request with the result of its own sync.

The state is the syncer with all calls of `sync`. A step is one operation on the channel of requests
or on a file; the answer to a request goes with its sync, since the channel of the call has room for
it. A file has a count of the writes to it and of those that a sync has covered. Requests are served
once and in the order in which they were sent, each with a sync of its own file (`Served`); a call
that returns without an error therefore leaves all earlier writes to its file covered. No call is
stuck: while one waits, the syncer or a waiting call can take a step (`group_sync_serves`).
-/

namespace TieredStore.Node

open Lib Meta

namespace GroupSync

/-! ## The syncer -/

/-- `groupSyncRequest`; a channel is named by the call that made it. -/
structure Request where
  file : Nat
  done : Nat
  deriving DecidableEq

/-- Where a call of `sync` is. Its channel holds at most one result. -/
inductive CallStage where
  | sending
  | waiting (done : Option (Option GoError))
  | returned (err : Option GoError)
  deriving DecidableEq

/-- A call of `sync`, with the number of writes to its file when it began. -/
structure SyncCall where
  file : Nat
  before : Nat
  stage : CallStage
  deriving DecidableEq

/-- Where `run` is. -/
inductive Stage where
  | receiving
  | collecting (batch : List Request)
  | syncing (batch : List Request)
  deriving DecidableEq

/-- A sync that was made for a call. -/
structure Synced where
  request : Request
  err : Option GoError
  deriving DecidableEq

def normalizeStorageGroupSyncMaxBatch (maxBatch : Int) : Int := if maxBatch < 1 then 1 else maxBatch

/-- The capacity of the channel of requests. -/
def requestsCap : Nat := 4096

structure GroupSyncer where
  maxBatch : Int
  requests : List Request
  stage : Stage
  calls : Nat → Option SyncCall
  written : Nat → Nat
  flushed : Nat → Nat
  log : List Synced

def newGroupSyncer (maxBatch : Int) : GroupSyncer where
  maxBatch := normalizeStorageGroupSyncMaxBatch maxBatch
  requests := []
  stage := .receiving
  calls := fun _ => none
  written := fun _ => 0
  flushed := fun _ => 0
  log := []

inductive Event where
  | write (file : Nat)
  | call (i file : Nat)
  | send (i : Nat)
  | receive
  | stop
  | sync (err : Option GoError)
  | again
  | await (i : Nat)
  deriving DecidableEq

namespace GroupSyncer

def setCall (n : GroupSyncer) (i : Nat) (call : SyncCall) : GroupSyncer :=
  { n with calls := Function.update n.calls i (some call) }

/-- What a sync of a file covers; one that fails covers nothing. -/
def flush (n : GroupSyncer) (file : Nat) : Option GoError → Nat → Nat
  | none => Function.update n.flushed file (n.written file)
  | some _ => n.flushed

def step (n : GroupSyncer) : Event → Option GroupSyncer
  | .write file => some { n with written := Function.update n.written file (n.written file + 1) }
  | .call i file =>
    match n.calls i with
    | none => some (n.setCall i ⟨file, n.written file, .sending⟩)
    | some _ => none
  | .send i =>
    match n.calls i with
    | some ⟨file, before, .sending⟩ =>
      -- the channel is buffered, and a full one blocks
      if n.requests.length < requestsCap then
        some { n.setCall i ⟨file, before, .waiting none⟩ with
          requests := n.requests ++ [⟨file, i⟩] }
      else none
    | _ => none
  | .receive =>
    match n.stage, n.requests with
    | .receiving, first :: rest => some { n with stage := .collecting [first], requests := rest }
    | .collecting batch, req :: rest =>
      if batch.length < n.maxBatch then
        some { n with stage := .collecting (batch ++ [req]), requests := rest }
      else none
    | _, _ => none
  | .stop =>
    -- the timer fires, or the batch is full
    match n.stage with
    | .collecting batch => some { n with stage := .syncing batch }
    | _ => none
  | .sync err =>
    match n.stage with
    | .syncing (req :: rest) =>
      -- a result that is still in the channel would block the syncer
      match n.calls req.done with
      | some ⟨file, before, .waiting none⟩ => some
          { n.setCall req.done ⟨file, before, .waiting (some err)⟩ with
            stage := .syncing rest
            flushed := n.flush req.file err
            log := n.log ++ [⟨req, err⟩] }
      | _ => none
    | _ => none
  | .again =>
    match n.stage with
    | .syncing [] => some { n with stage := .receiving }
    | _ => none
  | .await i =>
    match n.calls i with
    | some ⟨file, before, .waiting (some err)⟩ => some (n.setCall i ⟨file, before, .returned err⟩)
    | _ => none

def run (n : GroupSyncer) : List Event → Option GroupSyncer
  | [] => some n
  | e :: es => (n.step e).bind fun n => n.run es

/-- The requests that the syncer has taken and not synced. -/
def held (n : GroupSyncer) : List Request :=
  match n.stage with
  | .receiving => []
  | .collecting batch | .syncing batch => batch

/-- The requests that wait for their sync, in the order in which it will be made. -/
def pending (n : GroupSyncer) : List Request := n.held ++ n.requests

end GroupSyncer

/-- The calls that sent a request, in order. -/
def sent : List Event → List Nat
  | [] => []
  | .send i :: es => i :: sent es
  | _ :: es => sent es

/-! ## What holds in every run -/

/-- The requests of a run: each is synced once, in order, and its call gets the result. -/
structure Served (ids : List Nat) (n : GroupSyncer) : Prop where
  order : n.log.map (·.request.done) ++ n.pending.map (·.done) = ids
  once : ids.Nodup
  fresh : ∀ i call, n.calls i = some call → (call.stage = .sending ↔ i ∉ ids)
  pending : ∀ r ∈ n.pending, ∃ before, n.calls r.done = some ⟨r.file, before, .waiting none⟩
  logged : ∀ e ∈ n.log, ∃ before stage,
    n.calls e.request.done = some ⟨e.request.file, before, stage⟩ ∧
    (stage = .waiting (some e.err) ∨ stage = .returned e.err) ∧
    (e.err = none → before ≤ n.flushed e.request.file)
  flushed : ∀ f, n.flushed f ≤ n.written f
  before : ∀ i call, n.calls i = some call → call.before ≤ n.written call.file
  batch : 1 ≤ n.maxBatch ∧ n.held.length ≤ n.maxBatch

section Served

variable {ids : List Nat} {n n' : GroupSyncer}

theorem update_some_cases {i j : Nat} {call call' : SyncCall} {calls : Nat → Option SyncCall}
    (h : Function.update calls i (some call) j = some call') :
    (j = i ∧ call' = call) ∨ (j ≠ i ∧ calls j = some call') := by
  by_cases hj : j = i
  · subst hj
    rw [Function.update_self] at h
    exact Or.inl ⟨rfl, (Option.some.inj h).symm⟩
  · rw [Function.update_of_ne hj] at h
    exact Or.inr ⟨hj, h⟩

theorem Served.mem_of_pending (h : Served ids n) {r : Request} (hr : r ∈ n.pending) :
    r.done ∈ ids := h.order ▸ List.mem_append_right _ (List.mem_map_of_mem hr)

theorem Served.mem_of_log (h : Served ids n) {e : Synced} (he : e ∈ n.log) :
    e.request.done ∈ ids := h.order ▸ List.mem_append_left _ (List.mem_map_of_mem he)

/-- A call that has sent its request is in the log, or its request waits for its sync. -/
theorem Served.cases (h : Served ids n) {i : Nat} (hi : i ∈ ids) :
    (∃ e ∈ n.log, e.request.done = i) ∨ ∃ r ∈ n.pending, r.done = i := by
  rwa [← h.order, List.mem_append, List.mem_map, List.mem_map] at hi

theorem Served.called (h : Served ids n) {i : Nat} (hi : i ∈ ids) : n.calls i ≠ none := by
  rcases h.cases hi with ⟨e, he, rfl⟩ | ⟨r, hr, rfl⟩
  · obtain ⟨before, stage, hcall, -⟩ := h.logged e he
    simp [hcall]
  · obtain ⟨before, hcall⟩ := h.pending r hr
    simp [hcall]

theorem Served.nodup (h : Served ids n) :
    (n.log.map (·.request.done) ++ n.pending.map (·.done)).Nodup := h.order ▸ h.once

/-- A request that waits for its sync is not in the log. -/
theorem Served.ne_of_pending (h : Served ids n) {r : Request} (hr : r ∈ n.pending) {e : Synced}
    (he : e ∈ n.log) : e.request.done ≠ r.done := by
  intro heq
  exact List.disjoint_of_nodup_append h.nodup (List.mem_map_of_mem he)
    (heq ▸ List.mem_map_of_mem hr)

/-- A call that has sent its request is not touched when another one changes. -/
theorem setCall_of_mem {i j : Nat} (hi : i ∉ ids) (hj : j ∈ ids) (call : SyncCall) :
    (n.setCall i call).calls j = n.calls j :=
  Function.update_of_ne (by rintro rfl; exact hi hj) _ _

theorem Served.before_setCall (h : Served ids n) {i j file before : Nat} {stage : CallStage}
    {call : SyncCall} (hbefore : before ≤ n.written file)
    (hj : (n.setCall i ⟨file, before, stage⟩).calls j = some call) :
    call.before ≤ n.written call.file := by
  rcases update_some_cases hj with ⟨-, rfl⟩ | ⟨-, hj⟩
  · exact hbefore
  · exact h.before j call hj

theorem served_newGroupSyncer (maxBatch : Int) : Served [] (newGroupSyncer maxBatch) where
  order := rfl
  once := List.nodup_nil
  fresh := by rintro i call ⟨⟩
  pending := by rintro r ⟨⟩
  logged := by rintro e ⟨⟩
  flushed _ := le_rfl
  before := by rintro i call ⟨⟩
  batch := by
    unfold newGroupSyncer normalizeStorageGroupSyncMaxBatch
    dsimp only [GroupSyncer.held]
    split_ifs <;> simp; omega

theorem Served.write (h : Served ids n) (file : Nat) :
    Served ids { n with written := Function.update n.written file (n.written file + 1) } := by
  have hle : ∀ f, n.written f ≤ Function.update n.written file (n.written file + 1) f := by
    intro f
    by_cases hf : f = file
    · subst hf
      rw [Function.update_self]
      omega
    · rw [Function.update_of_ne hf]
  exact { h with
    flushed := fun f => (h.flushed f).trans (hle f)
    before := fun i call hcall => (h.before i call hcall).trans (hle _) }

theorem Served.call (h : Served ids n) {i : Nat} (hi : n.calls i = none) (file : Nat) :
    Served ids (n.setCall i ⟨file, n.written file, .sending⟩) := by
  have hfresh : i ∉ ids := fun hmem => h.called hmem hi
  refine { h with fresh := fun j call hcall => ?_, pending := fun r hr => ?_,
                  logged := fun e he => ?_, before := fun _ _ => h.before_setCall le_rfl }
  · rcases update_some_cases hcall with ⟨rfl, rfl⟩ | ⟨-, hcall⟩
    · exact iff_of_true rfl hfresh
    · exact h.fresh j call hcall
  · rw [setCall_of_mem hfresh (h.mem_of_pending hr)]
    exact h.pending r hr
  · rw [setCall_of_mem hfresh (h.mem_of_log he)]
    exact h.logged e he

theorem Served.send (h : Served ids n) {i file before : Nat}
    (hi : n.calls i = some ⟨file, before, .sending⟩) :
    Served (ids ++ [i]) { n.setCall i ⟨file, before, .waiting none⟩ with
      requests := n.requests ++ [⟨file, i⟩] } := by
  have hfresh : i ∉ ids := (h.fresh i _ hi).mp rfl
  refine { h with order := ?_, once := ?_, fresh := fun j call hcall => ?_,
                  pending := fun r hr => ?_, logged := fun e he => ?_,
                  before := fun _ _ => h.before_setCall (h.before i _ hi) }
  · rw [← h.order]
    simp [GroupSyncer.pending, GroupSyncer.held, GroupSyncer.setCall]
  · rw [← List.concat_eq_append]
    exact List.Nodup.concat hfresh h.once
  · rcases update_some_cases hcall with ⟨rfl, rfl⟩ | ⟨hj, hcall⟩
    · simp
    · rw [h.fresh j call hcall, List.mem_append, List.mem_singleton, not_or]
      exact (and_iff_left hj).symm
  · have hr : r ∈ n.pending ∨ r = ⟨file, i⟩ := by
      rwa [GroupSyncer.pending, ← List.append_assoc, List.mem_append, List.mem_singleton] at hr
    rcases hr with hr | rfl
    · obtain ⟨before', hcall⟩ := h.pending r hr
      exact ⟨before', (setCall_of_mem hfresh (h.mem_of_pending hr) _).trans hcall⟩
    · exact ⟨before, Function.update_self _ _ _⟩
  · obtain ⟨before', stage, hcall, hrest⟩ := h.logged e he
    exact ⟨before', stage, (setCall_of_mem hfresh (h.mem_of_log he) _).trans hcall, hrest⟩

/-- The syncer moves on with the requests that it has. -/
theorem Served.move (h : Served ids n) {stage : Stage} {requests : List Request}
    (hpending : ({ n with stage := stage, requests := requests } : GroupSyncer).pending = n.pending)
    (hbatch : ({ n with stage := stage } : GroupSyncer).held.length ≤ n.maxBatch) :
    Served ids { n with stage := stage, requests := requests } :=
  { h with
    order := hpending ▸ h.order
    pending := fun r hr => h.pending r (hpending ▸ hr)
    batch := ⟨h.batch.1, hbatch⟩ }

theorem Served.flush_le (h : Served ids n) (file : Nat) (err : Option GoError) (f : Nat) :
    n.flushed f ≤ n.flush file err f ∧ n.flush file err f ≤ n.written f := by
  unfold GroupSyncer.flush
  split
  · by_cases hf : f = file
    · subst hf
      rw [Function.update_self]
      exact ⟨h.flushed f, le_rfl⟩
    · rw [Function.update_of_ne hf]
      exact ⟨le_rfl, h.flushed f⟩
  · exact ⟨le_rfl, h.flushed f⟩

theorem Served.sync (h : Served ids n) {req : Request} {rest : List Request} {before : Nat}
    (hstage : n.stage = .syncing (req :: rest))
    (hreq : n.calls req.done = some ⟨req.file, before, .waiting none⟩) (err : Option GoError) :
    Served ids { n.setCall req.done ⟨req.file, before, .waiting (some err)⟩ with
      stage := .syncing rest
      flushed := n.flush req.file err
      log := n.log ++ [⟨req, err⟩] } := by
  have hheld : n.held = req :: rest := by simp only [GroupSyncer.held, hstage]
  have hpending : n.pending = req :: (rest ++ n.requests) := by
    rw [GroupSyncer.pending, hheld, List.cons_append]
  have hmem : req ∈ n.pending := hpending ▸ List.mem_cons_self
  have hold : ∀ {j}, j ≠ req.done →
      (n.setCall req.done ⟨req.file, before, .waiting (some err)⟩).calls j = n.calls j :=
    fun hj => Function.update_of_ne hj _ _
  refine { h with order := ?_, fresh := fun j call hcall => ?_, pending := fun r hr => ?_,
                  logged := fun e he => ?_, flushed := fun f => (h.flush_le _ _ f).2,
                  before := fun _ _ => h.before_setCall (h.before _ _ hreq)
                  batch := ⟨h.batch.1, ?_⟩ }
  · rw [← h.order, hpending]
    simp [GroupSyncer.pending, GroupSyncer.held, GroupSyncer.setCall]
  · rcases update_some_cases hcall with ⟨rfl, rfl⟩ | ⟨-, hcall⟩
    · simp [h.mem_of_pending hmem]
    · exact h.fresh j call hcall
  · -- no other request names the call
    have hr : r ∈ rest ++ n.requests := hr
    have hnodup := h.nodup.of_append_right
    rw [hpending, List.map_cons, List.nodup_cons] at hnodup
    have hne : r.done ≠ req.done := fun heq => hnodup.1 (heq ▸ List.mem_map_of_mem hr)
    obtain ⟨before', hcall⟩ := h.pending r (hpending ▸ List.mem_cons_of_mem _ hr)
    exact ⟨before', (hold hne).trans hcall⟩
  · rcases List.mem_append.mp he with he | he
    · obtain ⟨before', stage, hcall, hstage', hflushed⟩ := h.logged e he
      exact ⟨before', stage, (hold (h.ne_of_pending hmem he)).trans hcall, hstage',
        fun hnone => (hflushed hnone).trans (h.flush_le _ _ _).1⟩
    · rw [List.mem_singleton] at he
      subst he
      refine ⟨before, _, Function.update_self _ _ _, Or.inl rfl, ?_⟩
      rintro rfl
      have hflush : n.flush req.file none req.file = n.written req.file := Function.update_self _ _ _
      exact (h.before _ _ hreq).trans hflush.ge
  · have hle := h.batch.2
    rw [hheld, List.length_cons] at hle
    change (rest.length : Int) ≤ n.maxBatch
    omega

theorem Served.await (h : Served ids n) {i file before : Nat} {err : Option GoError}
    (hi : n.calls i = some ⟨file, before, .waiting (some err)⟩) :
    Served ids (n.setCall i ⟨file, before, .returned err⟩) := by
  refine { h with fresh := fun j call hcall => ?_, pending := fun r hr => ?_,
                  logged := fun e he => ?_
                  before := fun _ _ => h.before_setCall (h.before i _ hi) }
  · rcases update_some_cases hcall with ⟨rfl, rfl⟩ | ⟨-, hcall⟩
    · rw [← h.fresh j _ hi]
      simp
    · exact h.fresh j call hcall
  · obtain ⟨before', hcall⟩ := h.pending r hr
    have hne : r.done ≠ i := by
      rintro rfl
      cases hi.symm.trans hcall
    exact ⟨before', (Function.update_of_ne hne _ _).trans hcall⟩
  · obtain ⟨before', stage, hcall, hstage, hflushed⟩ := h.logged e he
    by_cases heq : e.request.done = i
    · subst heq
      cases hi.symm.trans hcall
      obtain rfl : err = e.err := by simpa using hstage
      exact ⟨before, _, Function.update_self _ _ _, Or.inr rfl, hflushed⟩
    · exact ⟨before', stage, (Function.update_of_ne heq _ _).trans hcall, hstage, hflushed⟩

/-- The first request of a batch has a call that waits, with an empty channel. -/
theorem Served.first (h : Served ids n) {req : Request} {rest : List Request}
    (hstage : n.stage = .syncing (req :: rest)) :
    ∃ before, n.calls req.done = some ⟨req.file, before, .waiting none⟩ := by
  refine h.pending req ?_
  simp [GroupSyncer.pending, GroupSyncer.held, hstage]

/-- Every step serves the requests. -/
theorem Served.step (h : Served ids n) {e : Event} (hstep : n.step e = some n') :
    Served (ids ++ sent [e]) n' := by
  have hnone : ∀ {m : GroupSyncer}, Served ids m → Served (ids ++ []) m := fun hm => by
    rwa [List.append_nil]
  cases e with
  | write file =>
    cases hstep
    exact hnone (h.write file)
  | call i file =>
    simp only [GroupSyncer.step] at hstep
    split at hstep
    · rename_i hi
      cases hstep
      exact hnone (h.call hi file)
    · cases hstep
  | send i =>
    simp only [GroupSyncer.step] at hstep
    split at hstep
    · rename_i hi
      split_ifs at hstep
      cases hstep
      exact h.send hi
    · cases hstep
  | receive =>
    simp only [GroupSyncer.step] at hstep
    split at hstep
    · rename_i hstage hrequests
      cases hstep
      refine hnone (h.move ?_ h.batch.1)
      simp [GroupSyncer.pending, GroupSyncer.held, hstage, hrequests]
    · rename_i batch req rest hstage hrequests
      split_ifs at hstep with hroom
      cases hstep
      refine hnone (h.move ?_ ?_)
      · simp [GroupSyncer.pending, GroupSyncer.held, hstage, hrequests]
      · simp only [GroupSyncer.held, List.length_append, List.length_singleton]
        omega
    · cases hstep
  | stop =>
    simp only [GroupSyncer.step] at hstep
    split at hstep
    · rename_i batch hstage
      cases hstep
      have hheld : n.held = batch := by simp only [GroupSyncer.held, hstage]
      refine hnone (h.move ?_ (hheld ▸ h.batch.2))
      simp [GroupSyncer.pending, GroupSyncer.held, hstage]
    · cases hstep
  | sync err =>
    simp only [GroupSyncer.step] at hstep
    split at hstep
    · rename_i req rest hstage
      obtain ⟨before, hreq⟩ := h.first hstage
      rw [hreq] at hstep
      cases hstep
      exact hnone (h.sync hstage hreq err)
    · cases hstep
  | again =>
    simp only [GroupSyncer.step] at hstep
    split at hstep
    · rename_i hstage
      cases hstep
      refine hnone (h.move ?_ ((Int.natCast_nonneg _).trans h.batch.2))
      simp [GroupSyncer.pending, GroupSyncer.held, hstage]
    · cases hstep
  | await i =>
    simp only [GroupSyncer.step] at hstep
    split at hstep
    · rename_i hi
      cases hstep
      exact hnone (h.await hi)
    · cases hstep

theorem sent_cons (e : Event) (es : List Event) : sent (e :: es) = sent [e] ++ sent es := by
  cases e <;> rfl

theorem Served.run (h : Served ids n) {es : List Event} (hrun : n.run es = some n') :
    Served (ids ++ sent es) n' := by
  induction es generalizing ids n with
  | nil =>
    cases hrun
    rwa [sent, List.append_nil]
  | cons e es ih =>
    obtain ⟨n₁, hstep, hrest⟩ := Option.bind_eq_some_iff.mp hrun
    rw [sent_cons, ← List.append_assoc]
    exact ih (h.step hstep) hrest

/-- A call returns the result of the sync of its file. -/
theorem Served.result (h : Served ids n) {i : Nat} {call : SyncCall} {err : Option GoError}
    (hcall : n.calls i = some call) (hreturned : call.stage = .returned err) :
    ⟨⟨call.file, i⟩, err⟩ ∈ n.log ∧ (err = none → call.before ≤ n.flushed call.file) := by
  have hmem : i ∈ ids := by
    by_contra hnot
    cases hreturned.symm.trans ((h.fresh i call hcall).mpr hnot)
  rcases h.cases hmem with ⟨e, he, rfl⟩ | ⟨r, hr, rfl⟩
  · obtain ⟨before, stage, hcall', hstage, hflushed⟩ := h.logged e he
    cases hcall.symm.trans hcall'
    obtain rfl : stage = .returned err := hreturned
    obtain rfl : err = e.err := by simpa using hstage
    exact ⟨he, hflushed⟩
  · obtain ⟨before, hcall'⟩ := h.pending r hr
    cases hcall.symm.trans hcall'
    cases hreturned

end Served

/-! ## No call is stuck -/

/-- The steps of the syncer, and of calls that take their results. -/
def Event.settles : Event → Bool
  | .write _ | .call _ _ | .send _ => false
  | _ => true

/-- The syncer, or a call that waits, can take a step. -/
def GroupSyncer.Settling (n : GroupSyncer) : Prop := ∃ e, Event.settles e = true ∧ (n.step e).isSome

section Settling

variable {ids : List Nat} {n : GroupSyncer}

/-- While there are requests, the syncer can go on. -/
theorem Served.settling_of_pending (h : Served ids n) (hpending : n.pending ≠ []) :
    n.Settling := by
  cases hstage : n.stage with
  | receiving =>
    cases hrequests : n.requests with
    | nil => simp [GroupSyncer.pending, GroupSyncer.held, hstage, hrequests] at hpending
    | cons first rest => exact ⟨.receive, rfl, by simp [GroupSyncer.step, hstage, hrequests]⟩
  | collecting batch => exact ⟨.stop, rfl, by simp [GroupSyncer.step, hstage]⟩
  | syncing batch =>
    cases batch with
    | nil => exact ⟨.again, rfl, by simp [GroupSyncer.step, hstage]⟩
    | cons req rest =>
      -- the channel of the first call is empty, so the result of its sync does not block
      obtain ⟨before, hreq⟩ := h.first hstage
      exact ⟨.sync none, rfl, by simp [GroupSyncer.step, hstage, hreq]⟩

theorem Served.settling_of_waiting (h : Served ids n) {i : Nat} {call : SyncCall}
    {done : Option (Option GoError)} (hcall : n.calls i = some call)
    (hwaits : call.stage = .waiting done) : n.Settling := by
  have hmem : i ∈ ids := by
    by_contra hnot
    cases hwaits.symm.trans ((h.fresh i call hcall).mpr hnot)
  rcases h.cases hmem with ⟨e, he, rfl⟩ | ⟨r, hr, -⟩
  · obtain ⟨before, stage, hcall', hstage, -⟩ := h.logged e he
    cases hcall.symm.trans hcall'
    obtain rfl : stage = .waiting done := hwaits
    obtain rfl : done = some e.err := by simpa using hstage
    exact ⟨.await e.request.done, rfl, by simp [GroupSyncer.step, hcall]⟩
  · exact h.settling_of_pending (List.ne_nil_of_mem hr)

end Settling

/-! ## Every run -/

theorem GroupSyncer.step_maxBatch {n n' : GroupSyncer} {e : Event} (hstep : n.step e = some n') :
    n'.maxBatch = n.maxBatch := by
  cases e with
  | write =>
    cases hstep
    rfl
  | _ =>
    simp only [step] at hstep
    split at hstep <;> (try split at hstep) <;> cases hstep <;> rfl

theorem GroupSyncer.run_maxBatch {n n' : GroupSyncer} {es : List Event}
    (hrun : n.run es = some n') : n'.maxBatch = n.maxBatch := by
  induction es generalizing n with
  | nil =>
    cases hrun
    rfl
  | cons e es ih =>
    obtain ⟨n₁, hstep, hrest⟩ := Option.bind_eq_some_iff.mp hrun
    exact (ih hrest).trans (step_maxBatch hstep)

/-- In every run the requests are synced once and in order, in batches of bounded size. A call
returns the result of the sync of its own file; without an error, that sync covers the writes before
the call. While a call waits, the syncer or a waiting call can take a step. -/
theorem group_sync_serves {maxBatch : Int} {es : List Event} {n : GroupSyncer}
    (hrun : (newGroupSyncer maxBatch).run es = some n) :
    n.log.map (·.request.done) ++ n.pending.map (·.done) = sent es ∧ (sent es).Nodup ∧
    n.held.length ≤ normalizeStorageGroupSyncMaxBatch maxBatch ∧
    (∀ i call err, n.calls i = some call → call.stage = .returned err →
      ⟨⟨call.file, i⟩, err⟩ ∈ n.log ∧ (err = none → call.before ≤ n.flushed call.file)) ∧
    ∀ i call done, n.calls i = some call → call.stage = .waiting done → n.Settling := by
  have h : Served (sent es) n := (served_newGroupSyncer maxBatch).run hrun
  have hbatch : n.maxBatch = normalizeStorageGroupSyncMaxBatch maxBatch :=
    GroupSyncer.run_maxBatch hrun
  refine ⟨h.order, h.once, hbatch ▸ h.batch.2, ?_, ?_⟩
  · intro i call err hcall hreturned
    exact h.result hcall hreturned
  · intro i call done hcall hwaits
    exact h.settling_of_waiting hcall hwaits

/-- Two of three requests make a batch; the first of them has its result. -/
def twoOfThreeSyncs : List Event :=
  [.write 0, .call 0 0, .write 1, .call 1 1, .call 2 0, .send 1, .send 0, .receive, .send 2,
    .receive, .stop, .sync none, .await 1, .sync none]

theorem second_file_covered : ∃ n, (newGroupSyncer 2).run twoOfThreeSyncs = some n ∧
    n.log.map (·.request.done) ++ n.pending.map (·.done) = [1, 0, 2] ∧ 1 ≤ n.flushed 1 ∧
    n.Settling := by
  obtain ⟨horder, -, -, hresult, hsettling⟩ :=
    group_sync_serves (show (newGroupSyncer 2).run twoOfThreeSyncs = some _ from rfl)
  exact ⟨_, rfl, horder, (hresult 1 ⟨1, 1, .returned none⟩ none rfl rfl).2 rfl,
    hsettling 2 ⟨0, 1, .waiting none⟩ none rfl rfl⟩

end GroupSync

end TieredStore.Node
