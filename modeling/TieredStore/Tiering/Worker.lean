import TieredStore.Lib.Pool
import TieredStore.Meta.TaskMoves

/-!
# The worker loop and the admin operations

`runOnce` claims a task, hands it to the processor of its type and reports the outcome. Admins
cancel and requeue tasks, the scanner enqueues them, all at the same time; every repository call is
atomic. The shared state is the store and the log of the calls made so far.

A cancel is allowed on a RUNNING task, and the reports of a worker do not look at the state of the
row. The report of a worker that was running when its task was cancelled therefore takes the row
out of FAILED (`cancel_overturned`). When no worker reports Done or Retry for a cancelled task, a
cancel is final until a requeue or a new enqueue succeeds (`cancel_final`).
-/

namespace TieredStore.Tiering

open Lib Lib.Prog Meta Meta.TaskCoherence Meta.TaskMoves

/-! ## Repository calls on tasks -/

inductive TaskCall where
  | claim (taskType : GoString)
  | markDone (taskID : GoString)
  | markRetry (taskID lastErr : GoString) (nextRunAt : Time)
  | markFailed (taskID lastErr : GoString)
  | requeue (taskID : GoString)
  | cancel (taskID reason : GoString)
  | enqueue (taskID objectID : GoString) (version : Int) (taskType : GoString) (priority : Int)
      (scheduledAt : Time)
  | enqueueRepair (taskID objectID : GoString) (version : Int)
  | enqueueOldVersion (taskID objectID : GoString) (version : Int)
  deriving DecidableEq

namespace TaskCall

def Answer : TaskCall → Type
  | claim _ => Option TaskRecord
  | requeue _ | cancel _ _ | enqueueRepair _ _ _ | enqueueOldVersion _ _ _ => Bool
  | _ => Unit

instance : (c : TaskCall) → DecidableEq c.Answer
  | claim _ => inferInstanceAs (DecidableEq (Option TaskRecord))
  | requeue _ | cancel _ _ | enqueueRepair _ _ _ | enqueueOldVersion _ _ _ =>
    inferInstanceAs (DecidableEq Bool)
  | markDone _ | markRetry _ _ _ | markFailed _ _ | enqueue _ _ _ _ _ _ =>
    inferInstanceAs (DecidableEq Unit)

/-- The repository function behind a call, with the clock readings of the call. -/
def program (cfg : Config) (clock now : Time) : (c : TaskCall) → KV c.Answer
  | claim taskType => claimNextTieringTask cfg clock now taskType
  | markDone taskID => markTieringTaskDone clock now taskID
  | markRetry taskID lastErr nextRunAt => markTieringTaskRetry clock now taskID lastErr nextRunAt
  | markFailed taskID lastErr => markTieringTaskFailed clock now taskID lastErr
  | requeue taskID => requeueTieringTaskNow clock now taskID
  | cancel taskID reason => cancelTieringTask clock now taskID reason
  | enqueue taskID objectID version taskType priority scheduledAt =>
    enqueueTieringTask clock now taskID objectID version taskType priority scheduledAt
  | enqueueRepair taskID objectID version => enqueueRepairTask clock now taskID objectID version
  | enqueueOldVersion taskID objectID version =>
    enqueueOrRequeueOldVersionGCTask clock now taskID objectID version

end TaskCall

/-- What a worker, an admin or a scanner does in one step: a repository call, the work on a task,
or a look at the clock. -/
inductive WorkerOp where
  | repo (c : TaskCall)
  | process (task : TaskRecord)
  | now

def WorkerRes : WorkerOp → Type
  | .repo c => Except GoError c.Answer
  | .process _ => Except GoError Unit
  | .now => Time

abbrev Worker (α : Type) := Prog WorkerOp WorkerRes GoError α

namespace Worker

/-- Make a call; its error ends the program. -/
def repo (c : TaskCall) : Worker c.Answer :=
  .call (.repo c) fun r =>
    match r with
    | .ok a => .ret a
    | .error e => .fail e

def now : Worker Time := .call .now .ret

end Worker

/-! ## `runOnce` -/

/-- The wait before the next attempt: 2 s, 4 s, 8 s and so on, up to 5 minutes. -/
def retryBackoff (retryCount : Int) : Int :=
  let retryCount := if retryCount < 0 then 0 else retryCount
  let backoff := wrap64 (2 * 1000000000 * wrap64 (2 ^ retryCount.toNat))
  if backoff > 300 * 1000000000 then 300 * 1000000000 else backoff

/-- The types of tasks that have a processor. -/
abbrev HasProcessor (taskType : GoString) : Prop :=
  taskType = lit "REPL_TO_EC" ∨ taskType = lit "REPAIR" ∨ taskType = lit "GC" ∨
    taskType = lit "GC_OLD_VERSION"

/-- The processor of a task's type. -/
def processTask (task : TaskRecord) : Worker (Except GoError Unit) :=
  if HasProcessor task.taskType then .call (.process task) .ret
  else pure (.error (lit "unsupported task type: " ++ task.taskType))

def runOnce (maxRetryCount : Int) (taskType : GoString) : Worker Unit := do
  match ← Worker.repo (.claim taskType) with
  | none => pure ()
  | some task =>
    match ← processTask task with
    | .ok () => Worker.repo (.markDone task.taskID)
    | .error procErr =>
      let nextRetryCount := wrap64 (task.retryCount + 1)
      if nextRetryCount ≥ maxRetryCount then Worker.repo (.markFailed task.taskID procErr)
      else do
        let now ← Worker.now
        Worker.repo (.markRetry task.taskID procErr (now + retryBackoff task.retryCount))

/-! ## Interleaving -/

/-- A finished call and its answer. -/
structure Event where
  call : TaskCall
  answer : Except GoError call.Answer
  deriving DecidableEq

/-- The store and the calls made so far, the last one first. -/
structure Shared where
  store : Store
  log : List Event

/-- One step: a repository call runs at once, at any clock readings; the work on a task has any
outcome. -/
def workerSem (cfg : Config) : (op : WorkerOp) → Shared → WorkerRes op → Shared → Prop
  | .repo c, s, r, s' => ∃ clock now, (atomically (c.program cfg clock now) s.store).1 = r ∧
      s' = ⟨(atomically (c.program cfg clock now) s.store).2, ⟨c, r⟩ :: s.log⟩
  | .process _, s, _, s' => s' = s
  | .now, s, _, s' => s' = s

/-- The calls that admins and the scanner make. -/
def outside : TaskCall → Prop
  | .requeue _ | .cancel _ _ | .enqueue _ _ _ _ _ _ | .enqueueRepair _ _ _
  | .enqueueOldVersion _ _ _ => True
  | _ => False

/-- The programs: a round of a worker with one of the caps, or one of the calls of admins and of
the scanner. -/
inductive Begins (caps : Int → Prop) (calls : TaskCall → Prop) : Worker Unit → Prop where
  | worker {maxRetryCount : Int} (h : caps maxRetryCount) (taskType : GoString) :
    Begins caps calls (runOnce maxRetryCount taskType)
  | outside {c : TaskCall} (h : calls c) :
    Begins caps calls (Worker.repo c >>= fun _ => pure ())

def begins (_ : Nat) (_ : Unit) (p : Worker Unit) (s s' : Shared) : Prop :=
  Begins (fun _ => True) outside p ∧ s' = s

abbrev Run := Pool WorkerOp WorkerRes GoError Unit Unit Shared

/-! ## Cancelled tasks -/

/-- The cancel of a task that answered true. -/
def Cancels (id : GoString) (e : Event) : Prop :=
  ∃ reason, e = ⟨.cancel id reason, .ok true⟩

/-- A requeue, or an enqueue of the scanner, that changed the task. -/
def Revives (id : GoString) (e : Event) : Prop :=
  e = ⟨.requeue id, .ok true⟩ ∨ (∃ o v, e = ⟨.enqueueRepair id o v, .ok true⟩) ∨
    ∃ o v, e = ⟨.enqueueOldVersion id o v, .ok true⟩

/-- A claim that handed out the task. -/
def HandsOut (id : GoString) (e : Event) : Prop :=
  ∃ taskType task, e = ⟨.claim taskType, .ok (some task)⟩ ∧ task.taskID = id

theorem HandsOut.call {id : GoString} {e : Event} (h : HandsOut id e) :
    ∃ taskType, e.call = .claim taskType := by
  obtain ⟨taskType, task, rfl, -⟩ := h
  exact ⟨taskType, rfl⟩

/-- The task was cancelled and not revived since. -/
def Cancelled (id : GoString) (log : List Event) : Prop :=
  ∃ later e earlier, log = later ++ e :: earlier ∧ Cancels id e ∧ ∀ e' ∈ later, ¬ Revives id e'

/-- A report that takes a row out of FAILED. -/
def ReportsOn (id : GoString) : WorkerOp → Prop
  | .repo (.markDone id') => id' = id
  | .repo (.markRetry id' _ _) => id' = id
  | _ => False

/-- The steps of a run in which no worker reports Done or Retry for a cancelled task. -/
def heedingSem (cfg : Config) (op : WorkerOp) (s : Shared) (r : WorkerRes op) (s' : Shared) :
    Prop :=
  (∀ id, ReportsOn id op → ¬ Cancelled id s.log) ∧ workerSem cfg op s r s'

def FailedRow (s : Store) (id : GoString) : Prop :=
  ∃ rec, taskRow s id = some rec ∧ rec.taskState = .failed

/-! ## One call on a failed task -/

section Calls

variable {α : Type} {cfg : Config} {clock now : Time} {s : Store} {id : GoString}

/-- A failed row stays failed when no allowed change of it leaves the state. -/
theorem FailedRow.keeps {C : RowChange} {p : KV α} (hp : Moves C p) (hs : Rows AnyID s)
    (h : FailedRow s id) (hC : ∀ rec new, rec.taskState = .failed → C id (some rec) new →
      ∃ rec', new = some rec' ∧ rec'.taskState = .failed) : FailedRow (atomically p s).2 id := by
  refine (hp.keeps hs (J := fun s => FailedRow s id) ?_ h).2
  rintro s s' - - hstep ⟨rec, hrow, hstate⟩
  rcases hstep.rows id with heq | hchange
  · exact ⟨rec, heq.trans hrow, hstate⟩
  · rw [hrow] at hchange
    exact hC rec _ hstate hchange

/-- An update by which a failed row stays failed. -/
theorem FailedRow.update {id' : GoString} {update : TaskRecord → Option TaskRecord}
    (hu : ∀ rec next, update rec = some next → next.taskID = rec.taskID) (hs : Rows AnyID s)
    (h : FailedRow s id) (hfailed : id' = id → ∀ rec next, rec.taskState = .failed →
      update rec = some next → next.taskState = .failed) :
    FailedRow (atomically (updateTask clock now id' update) s).2 id := by
  refine h.keeps (moves_updateTask hu) hs ?_
  rintro rec new hstate ⟨rfl, rec', next, hrec, hnext, rfl⟩
  cases hrec
  exact ⟨next, rfl, hfailed rfl rec next hstate hnext⟩

/-- The outcome of a call does not change the store further. -/
theorem atomically_answer {β : Type} (p : KV α) (f : α → β) (s : Store) :
    (atomically (p >>= fun a => pure (f a)) s).2 = (atomically p s).2 := by
  unfold atomically
  rw [run_bind]
  cases hp : p.run kvHandler s with
  | mk x s' => cases x <;> rfl

/-- The answer of an update, and the row after it. -/
theorem atomically_updateTask {update : TaskRecord → Option TaskRecord}
    (hu : ∀ rec next, update rec = some next → next.taskID = rec.taskID) (hs : Rows AnyID s)
    (hid : id ≠ []) :
    (atomically (updateTask clock now id update) s).1 = .ok ((taskRow s id).bind update).isSome ∧
      taskRow (atomically (updateTask clock now id update) s).2 id =
        ((taskRow s id).bind update).or (taskRow s id) :=
  ((updateTask_result hu hs hid).step_run (J := fun _ => True) (fun _ _ _ _ _ _ => trivial) hs
    trivial).1

theorem requeue_failed (hs : Rows AnyID s) (hid : id ≠ []) (h : FailedRow s id) :
    (atomically (requeueTieringTaskNow clock now id) s).1 = .ok true := by
  obtain ⟨rec, hrow, hstate⟩ := h
  unfold requeueTieringTaskNow
  rw [if_neg hid, (atomically_updateTask ?_ hs hid).1, hrow, Option.bind_some, hstate]
  · rfl
  · intro rec next h
    split at h <;> cases h <;> rfl

theorem enqueueOrRequeue_failed {o ty : GoString} {v priority : Int} (hs : Rows AnyID s)
    (hid : id ≠ []) (h : FailedRow s id) :
    (atomically (enqueueOrRequeue clock now id o v ty priority) s).1 = .ok true := by
  obtain ⟨rec, hrow, hstate⟩ := h
  exact ((enqueueOrRequeue_result hs hid hrow (by rw [hstate]; rfl)).step_run
    (J := fun _ => True) (fun _ _ _ _ _ _ => trivial) hs trivial).1

/-- An update to FAILED that answers true leaves the row FAILED. -/
theorem update_fails {update : TaskRecord → Option TaskRecord}
    (hu : ∀ rec next, update rec = some next → next.taskID = rec.taskID ∧ next.taskState = .failed)
    (hs : Rows AnyID s) (hid : id ≠ [])
    (h : (atomically (updateTask clock now id update) s).1 = .ok true) :
    FailedRow (atomically (updateTask clock now id update) s).2 id := by
  obtain ⟨hans, hafter⟩ := @atomically_updateTask clock now s id update
    (fun rec next h => (hu rec next h).1) hs hid
  rw [hans, Except.ok.injEq, Option.isSome_iff_exists] at h
  obtain ⟨next, hnext⟩ := h
  obtain ⟨rec, -, hrec⟩ := Option.bind_eq_some_iff.mp hnext
  exact ⟨next, by rw [hafter, hnext]; rfl, (hu rec next hrec).2⟩

theorem cancel_fails {reason : GoString} (hs : Rows AnyID s)
    (h : (atomically (cancelTieringTask clock now id reason) s).1 = .ok true) :
    id ≠ [] ∧ FailedRow (atomically (cancelTieringTask clock now id reason) s).2 id := by
  unfold cancelTieringTask at h ⊢
  by_cases hid : id = []
  · rw [if_pos hid] at h
    cases h
  · rw [if_neg hid] at h ⊢
    refine ⟨hid, update_fails ?_ hs hid h⟩
    intro rec next h
    split at h <;> cases h <;> exact ⟨rfl, rfl⟩

theorem program_rows (c : TaskCall) (hs : Rows AnyID s) :
    Rows AnyID (atomically (c.program cfg clock now) s).2 := by
  have hrows : ∀ {β : Type} {C : RowChange} {p : KV β}, Moves C p → Rows AnyID (atomically p s).2 :=
    fun hp => (hp.keeps hs (J := fun _ => True) (fun _ _ _ _ _ _ => trivial) trivial).1
  cases c with
  | claim taskType =>
    exact ((moving_claimNextTieringTask cfg taskType hs).step_run (J := fun _ => True)
      (fun _ _ _ _ _ _ => trivial) hs trivial).2.1
  | markDone id => exact hrows moves_markTieringTaskDone
  | markRetry id lastErr nextRunAt => exact hrows moves_markTieringTaskRetry
  | markFailed id lastErr => exact hrows moves_markTieringTaskFailed
  | requeue id => exact hrows moves_requeueTieringTaskNow
  | cancel id reason => exact hrows moves_cancelTieringTask
  | enqueue id o v ty priority at' => exact hrows (moves_enqueueTieringTask at')
  | enqueueRepair id o v => exact hrows moves_enqueueOrRequeue
  | enqueueOldVersion id o v => exact hrows moves_enqueueOrRequeue

/-- A claim never hands out a failed task. -/
theorem claim_failed {taskType : GoString} (hs : Rows AnyID s) (h : FailedRow s id) :
    FailedRow (atomically (claimNextTieringTask cfg clock now taskType) s).2 id ∧
      ∀ task, (atomically (claimNextTieringTask cfg clock now taskType) s).1 = .ok (some task) →
        task.taskID ≠ id := by
  have hrun := (@moving_claimNextTieringTask s clock now cfg taskType hs).step_run
    (J := fun s => FailedRow s id) ?_ hs h
  · obtain ⟨⟨-, hhanded⟩, -, hfailed⟩ := hrun
    refine ⟨hfailed, ?_⟩
    rintro task htask rfl
    obtain ⟨hrow, hstate⟩ := hhanded task htask
    obtain ⟨rec, hrec, hrecState⟩ := hfailed
    cases hrow.symm.trans hrec
    rw [hstate] at hrecState
    cases hrecState
  · rintro s s' - - hstep ⟨rec, hrow, hstate⟩
    rcases hstep.rows id with heq | ⟨rec', now', hrec', hrunnable, -⟩
    · exact ⟨rec, heq.trans hrow, hstate⟩
    · cases hrow.symm.trans hrec'
      rw [hstate] at hrunnable
      cases hrunnable

/-- What a call leaves of a failed task: it fails on, and nobody has it, unless the call is a
report on the task or revives it. -/
theorem program_failed (c : TaskCall) (hs : Rows AnyID s) (hid : id ≠ []) (h : FailedRow s id)
    (hreport : ¬ ReportsOn id (.repo c))
    (hrevive : ¬ Revives id ⟨c, (atomically (c.program cfg clock now) s).1⟩) :
    FailedRow (atomically (c.program cfg clock now) s).2 id ∧
      ¬ HandsOut id ⟨c, (atomically (c.program cfg clock now) s).1⟩ := by
  have hother : (∀ taskType, c ≠ .claim taskType) →
      ¬ HandsOut id ⟨c, (atomically (c.program cfg clock now) s).1⟩ := by
    intro hne hout
    obtain ⟨taskType, hcall⟩ := hout.call
    exact hne taskType hcall
  cases c with
  | claim taskType =>
    obtain ⟨hfailed, hnot⟩ := @claim_failed cfg clock now s id taskType hs h
    refine ⟨hfailed, ?_⟩
    rintro ⟨ty, task, heq, htask⟩
    simp only [Event.mk.injEq, TaskCall.claim.injEq] at heq
    obtain ⟨rfl, heq⟩ := heq
    exact hnot task (eq_of_heq heq) htask
  | markDone id' =>
    refine ⟨?_, hother fun _ => nofun⟩
    refine (atomically_answer _ _ _).symm ▸ h.update (by rintro rec next ⟨⟩; rfl) hs ?_
    intro hid'
    exact absurd hid' hreport
  | markRetry id' lastErr nextRunAt =>
    refine ⟨?_, hother fun _ => nofun⟩
    refine (atomically_answer _ _ _).symm ▸ h.update (by rintro rec next ⟨⟩; rfl) hs ?_
    intro hid'
    exact absurd hid' hreport
  | markFailed id' lastErr =>
    refine ⟨?_, hother fun _ => nofun⟩
    refine (atomically_answer _ _ _).symm ▸ h.update (by rintro rec next ⟨⟩; rfl) hs ?_
    rintro - rec next - ⟨⟩
    rfl
  | requeue id' =>
    refine ⟨?_, hother fun _ => nofun⟩
    by_cases heq : id' = id
    · subst heq
      exact absurd (Or.inl (congrArg (Event.mk (.requeue id')) (requeue_failed hs hid h))) hrevive
    · simp only [TaskCall.program, requeueTieringTaskNow]
      split
      · exact h
      · refine h.update ?_ hs fun hid' => absurd hid' heq
        intro rec next h
        split at h <;> cases h <;> rfl
  | cancel id' reason =>
    refine ⟨?_, hother fun _ => nofun⟩
    simp only [TaskCall.program, cancelTieringTask]
    split
    · exact h
    · refine h.update ?_ hs ?_
      · intro rec next h
        split at h <;> cases h <;> rfl
      · intro _ rec next hstate h
        rw [hstate] at h
        cases h
  | enqueue id' o v ty priority at' =>
    refine ⟨h.keeps (moves_enqueueTieringTask at') hs ?_, hother fun _ => nofun⟩
    rintro rec new - ⟨-, hnone, -⟩
    cases hnone
  | enqueueRepair id' o v =>
    refine ⟨?_, hother fun _ => nofun⟩
    by_cases heq : id' = id
    · subst heq
      have hanswer := congrArg (Event.mk (.enqueueRepair id' o v))
        (@enqueueOrRequeue_failed clock now s id' o (lit "REPAIR") v 200 hs hid h)
      exact absurd (Or.inr (Or.inl ⟨o, v, hanswer⟩)) hrevive
    · refine h.keeps moves_enqueueOrRequeue hs ?_
      rintro rec new - ⟨hid', -⟩
      exact absurd hid'.symm heq
  | enqueueOldVersion id' o v =>
    refine ⟨?_, hother fun _ => nofun⟩
    by_cases heq : id' = id
    · subst heq
      have hanswer := congrArg (Event.mk (.enqueueOldVersion id' o v))
        (@enqueueOrRequeue_failed clock now s id' o (lit "GC_OLD_VERSION") v 80 hs hid h)
      exact absurd (Or.inr (Or.inr ⟨o, v, hanswer⟩)) hrevive
    · refine h.keeps moves_enqueueOrRequeue hs ?_
      rintro rec new - ⟨hid', -⟩
      exact absurd hid'.symm heq

end Calls

/-! ## Runs -/

/-- What a cancel leaves behind: as long as nothing revives the task, its row is FAILED and no
claim hands it out. -/
def Final (s : Shared) : Prop :=
  ∀ id later e earlier, s.log = later ++ e :: earlier → Cancels id e →
    (∀ e' ∈ later, ¬ Revives id e') → id ≠ [] ∧ FailedRow s.store id ∧
      ∀ e' ∈ later, ¬ HandsOut id e'

theorem final_step {cfg : Config} {op : WorkerOp} {s s' : Shared} {r : WorkerRes op}
    (hs : Rows AnyID s.store) (hfinal : Final s) (hstep : heedingSem cfg op s r s') :
    Rows AnyID s'.store ∧ Final s' := by
  obtain ⟨hheed, hstep⟩ := hstep
  cases op with
  | process task =>
    cases hstep
    exact ⟨hs, hfinal⟩
  | now =>
    cases hstep
    exact ⟨hs, hfinal⟩
  | repo c =>
    obtain ⟨clock, now, rfl, rfl⟩ := hstep
    refine ⟨program_rows c hs, ?_⟩
    intro id later e earlier hlog hcancel hquiet
    cases later with
    | nil =>
      obtain ⟨he, -⟩ := List.cons.inj hlog
      obtain ⟨reason, rfl⟩ := hcancel
      simp only [Event.mk.injEq] at he
      obtain ⟨rfl, he⟩ := he
      obtain ⟨hid, hfailed⟩ := cancel_fails hs (eq_of_heq he)
      exact ⟨hid, hfailed, fun _ h => by simp at h⟩
    | cons e₀ later =>
      obtain ⟨rfl, hlog'⟩ := List.cons.inj hlog
      have hquiet' : ∀ e' ∈ later, ¬ Revives id e' :=
        fun e' he' => hquiet e' (List.mem_cons_of_mem _ he')
      obtain ⟨hid, hfailed, hnot⟩ := hfinal id later e earlier hlog' hcancel hquiet'
      obtain ⟨hfailed', hhands⟩ := @program_failed cfg clock now s.store id c hs hid hfailed
        (fun hreport => hheed id hreport ⟨later, e, earlier, hlog', hcancel, hquiet'⟩)
        (hquiet _ List.mem_cons_self)
      refine ⟨hid, hfailed', ?_⟩
      intro e' he'
      rcases List.mem_cons.mp he' with rfl | he'
      · exact hhands
      · exact hnot e' he'

theorem final_reached {cfg : Config} {rows : Store} (hs : Rows AnyID rows) {c : Run}
    (hrun : Pool.Reaches begins (fun _ _ => heedingSem cfg) (Pool.idle ⟨rows, []⟩) c) :
    Rows AnyID c.state.store ∧ Final c.state := by
  induction hrun with
  | refl =>
    refine ⟨hs, ?_⟩
    intro id later e earlier hlog
    simp [Pool.idle] at hlog
  | tail _ hstep ih =>
    cases hstep with
    | start free begins =>
      obtain ⟨-, rfl⟩ := begins
      exact ih
    | call next step => exact final_step ih.1 ih.2 step

/-- In every run in which no worker reports Done or Retry for a cancelled task: once a cancel of
a task answered true, and as long as no requeue and no new enqueue of the task succeeds, its row is
FAILED and no claim hands it out. -/
theorem cancel_final {cfg : Config} {rows : Store} (hs : Rows AnyID rows) {c : Run}
    (hrun : Pool.Reaches begins (fun _ _ => heedingSem cfg) (Pool.idle ⟨rows, []⟩) c)
    {id : GoString} {later earlier : List Event} {e : Event}
    (hlog : c.state.log = later ++ e :: earlier) (hcancel : Cancels id e)
    (hquiet : ∀ e' ∈ later, ¬ Revives id e') :
    FailedRow c.state.store id ∧ ∀ e' ∈ later, ¬ HandsOut id e' :=
  ((final_reached hs hrun).2 id later e earlier hlog hcancel hquiet).2

/-! ## A worker that reports after the cancel -/

section Overturned

/-- All calls read the same clock; the work on a task fails. -/
def workerHandler (_ : Nat) (_ : Unit) : (op : WorkerOp) → Shared → WorkerRes op × Shared
  | .repo c, s => ((atomically (c.program {} 0 10000000000) s.store).1,
      ⟨(atomically (c.program {} 0 10000000000) s.store).2,
        ⟨c, (atomically (c.program {} 0 10000000000) s.store).1⟩ :: s.log⟩)
  | .process _, s => (.error (lit "no healthy nodes"), s)
  | .now, s => ((0 : Time), s)

theorem workerSem_workerHandler (i : Nat) (r : Unit) (op : WorkerOp) (s : Shared) :
    workerSem {} op s (workerHandler i r op s).1 (workerHandler i r op s).2 := by
  cases op with
  | repo c => exact ⟨0, 10000000000, rfl, rfl⟩
  | process task => rfl
  | now => rfl

def single (c : TaskCall) : Worker Unit := Worker.repo c >>= fun _ => pure ()

def taskT : TaskRecord := newTask (lit "t") (lit "a") 7 (lit "REPL_TO_EC") 100 5

/-- A worker has claimed the task. -/
def claimedRun : Run :=
  (((Pool.idle ⟨SortedMap.empty, []⟩).spawn 0 () (single
    (.enqueue (lit "t") (lit "a") 7 (lit "REPL_TO_EC") 100 5))).advance workerHandler 0).spawn 1 ()
      (runOnce 8 []) |>.advance workerHandler 1

/-- An admin cancels it, and the cancel answers true. -/
def cancelledRun : Run :=
  (claimedRun.spawn 2 () (single (.cancel (lit "t") []))).advance workerHandler 2

/-- The worker reports its failure, and another worker claims the task again. -/
def overturnedRun : Run :=
  ((cancelledRun.advanceAll workerHandler [1, 1, 1]).spawn 3 () (runOnce 8 [])).advance
    workerHandler 3

/-- The row that the report wrote. -/
def reportedTask : TaskRecord :=
  { taskT with taskState := .retryWait, retryCount := 1, lastError := some (lit "no healthy nodes"),
               scheduledAt := 2000000000, startedAt := some 10000000000 }

theorem overturnedRun_log : overturnedRun.state.log =
    [⟨.claim [], .ok (some (claimedRecord reportedTask 10000000000))⟩,
      ⟨.markRetry (lit "t") (lit "no healthy nodes") 2000000000, .ok ()⟩] ++
    ⟨.cancel (lit "t") [], .ok true⟩ ::
    [⟨.claim [], .ok (some (claimedRecord taskT 10000000000))⟩,
      ⟨.enqueue (lit "t") (lit "a") 7 (lit "REPL_TO_EC") 100 5, .ok ()⟩] := by
  decide +kernel

/-- After the cancel answered true and with nothing to revive the task, its row is RUNNING and a
claim has handed it out. -/
theorem cancel_overturned :
    Pool.Reaches begins (fun _ _ => workerSem {}) (Pool.idle ⟨SortedMap.empty, []⟩) overturnedRun ∧
    ∃ later e earlier, overturnedRun.state.log = later ++ e :: earlier ∧ Cancels (lit "t") e ∧
      (∀ e' ∈ later, ¬ Revives (lit "t") e') ∧ ¬ FailedRow overturnedRun.state.store (lit "t") ∧
      ∃ e' ∈ later, HandsOut (lit "t") e' := by
  constructor
  · have hcancelled : Pool.Reaches begins (fun _ _ => workerSem {})
        (Pool.idle ⟨SortedMap.empty, []⟩) cancelledRun := by
      refine .advance _ (.spawn (.advance _ (.spawn (.advance _ (.spawn .refl rfl
        ⟨.outside trivial, rfl⟩) 0 fun _ _ _ _ => workerSem_workerHandler _ _ _ _) rfl
        ⟨.worker trivial [], rfl⟩) 1 fun _ _ _ _ => workerSem_workerHandler _ _ _ _) ?_
        ⟨.outside trivial, rfl⟩) 2 fun _ _ _ _ => workerSem_workerHandler _ _ _ _
      exact Option.isNone_iff_eq_none.mp (by decide +kernel)
    refine .advance _ (.spawn (hcancelled.advanceAll workerSem_workerHandler [1, 1, 1]) ?_
      ⟨.worker trivial [], rfl⟩) 3 fun _ _ _ _ => workerSem_workerHandler _ _ _ _
    exact Option.isNone_iff_eq_none.mp (by decide +kernel)
  · refine ⟨_, _, _, overturnedRun_log, ⟨[], rfl⟩, ?_, ?_, ?_⟩
    · intro e' he'
      simp only [List.mem_cons, List.not_mem_nil, or_false] at he'
      rcases he' with rfl | rfl <;> rintro (h | ⟨o, v, h⟩ | ⟨o, v, h⟩) <;> cases h
    · rintro ⟨rec, hrow, hstate⟩
      have hrunning : taskRow overturnedRun.state.store (lit "t") =
          some (claimedRecord reportedTask 10000000000) := by decide +kernel
      cases hrow.symm.trans hrunning
      cases hstate
    · exact ⟨_, List.mem_cons_self, [], _, rfl, rfl⟩

/-- A worker that looks for work after the cancel gets none. -/
def heededRun : Run := (cancelledRun.spawn 3 () (runOnce 8 [])).advance workerHandler 3

theorem cancel_final_heeded : FailedRow heededRun.state.store (lit "t") ∧
    ∀ e' ∈ ([⟨.claim [], .ok none⟩] : List Event), ¬ HandsOut (lit "t") e' := by
  have hheeds : ∀ {c : Run} (i : Nat) {c' : TaskCall} {k : WorkerRes (.repo c') → Worker Unit},
      c.procs i = some ((), .call (.repo c') k) → (∀ id, ¬ ReportsOn id (.repo c')) →
      Pool.Reaches begins (fun _ _ => heedingSem {}) (Pool.idle ⟨SortedMap.empty, []⟩) c →
      Pool.Reaches begins (fun _ _ => heedingSem {}) (Pool.idle ⟨SortedMap.empty, []⟩)
        (c.advance workerHandler i) := by
    intro c i c' k hi hno hc
    refine hc.advance _ i ?_
    intro r op k' hi'
    cases hi.symm.trans hi'
    exact ⟨fun id h => absurd h (hno id), workerSem_workerHandler _ _ _ _⟩
  have hrun : Pool.Reaches begins (fun _ _ => heedingSem {}) (Pool.idle ⟨SortedMap.empty, []⟩)
      heededRun := by
    refine hheeds 3 rfl (fun _ => id) (.spawn (hheeds 2 rfl (fun _ => id) (.spawn
      (hheeds 1 rfl (fun _ => id) (.spawn (hheeds 0 rfl (fun _ => id) (.spawn .refl rfl
      ⟨.outside trivial, rfl⟩)) rfl ⟨.worker trivial [], rfl⟩)) ?_ ⟨.outside trivial, rfl⟩)) ?_
      ⟨.worker trivial [], rfl⟩)
    · exact Option.isNone_iff_eq_none.mp (by decide +kernel)
    · exact Option.isNone_iff_eq_none.mp (by decide +kernel)
  have hlog : heededRun.state.log = [⟨.claim [], .ok none⟩] ++ ⟨.cancel (lit "t") [], .ok true⟩ ::
      [⟨.claim [], .ok (some (claimedRecord taskT 10000000000))⟩,
        ⟨.enqueue (lit "t") (lit "a") 7 (lit "REPL_TO_EC") 100 5, .ok ()⟩] := by
    decide +kernel
  refine cancel_final rows_empty hrun hlog ⟨[], rfl⟩ ?_
  intro e' he'
  rw [List.mem_singleton] at he'
  subst he'
  rintro (h | ⟨o, v, h⟩ | ⟨o, v, h⟩) <;> cases h

end Overturned

end TieredStore.Tiering
