import TieredStore.Tiering.Worker

/-!
# Retries of a failing task

What `runOnce` reports about a task depends on the outcome of the work and on the retry count in
the claimed copy of the task (`callsOfRound_eq`). The wait before a retry doubles from 2 s up to
5 minutes as long as its computation does not overflow, which needs a cap of at most 34
(`backoffBounded_iff`).

The retry count in the copy is the one of the row, since nobody else reports on a task between its
claim and the report on it. So the row counts the failed executions (`Story`), and a task is failed
after as many of them as the cap says (`retry_cap`).
-/

namespace TieredStore.Tiering

open Lib Lib.Prog Lib.Bytes Meta Meta.TaskCoherence Meta.TaskMoves

/-! ## One round -/

/-- The answers of the repository in a round that gets a task. -/
def scriptedAnswer (task : TaskRecord) : (c : TaskCall) → c.Answer
  | .claim _ => some task
  | .requeue _ | .cancel _ _ | .enqueueRepair _ _ _ | .enqueueOldVersion _ _ _ => true
  | .markDone _ | .markRetry _ _ _ | .markFailed _ _ | .enqueue _ _ _ _ _ _ => ()

/-- A round that gets a task, with the outcome of the work and the clock; its calls are noted. -/
def scripted (task : TaskRecord) (outcome : Except GoError Unit) (now : Time) :
    (op : WorkerOp) → List TaskCall → WorkerRes op × List TaskCall
  | .repo c, calls => (.ok (scriptedAnswer task c), calls ++ [c])
  | .process _, calls => (outcome, calls)
  | .now, calls => (now, calls)

/-- The repository calls of a round. -/
def callsOfRound (maxRetryCount : Int) (taskType : GoString) (task : TaskRecord)
    (outcome : Except GoError Unit) (now : Time) : List TaskCall :=
  ((runOnce maxRetryCount taskType).run (scripted task outcome now) []).2

/-- The outcome that a worker sees: a type without a processor is an error. -/
def outcomeOf (task : TaskRecord) (outcome : Except GoError Unit) : Except GoError Unit :=
  ((processTask task).run (scripted task outcome 0) []).1.bind id

/-- What a worker reports. -/
def reportOf (maxRetryCount : Int) (task : TaskRecord) (now : Time) :
    Except GoError Unit → TaskCall
  | .ok () => .markDone task.taskID
  | .error procErr =>
    if wrap64 (task.retryCount + 1) ≥ maxRetryCount then .markFailed task.taskID procErr
    else .markRetry task.taskID procErr (now + retryBackoff task.retryCount)

/-- The end of a round: the report of an outcome. -/
def report (maxRetryCount : Int) (task : TaskRecord) : Except GoError Unit → Worker Unit
  | .ok () => Worker.repo (.markDone task.taskID)
  | .error procErr =>
    if wrap64 (task.retryCount + 1) ≥ maxRetryCount then
      Worker.repo (.markFailed task.taskID procErr)
    else do
      let now ← Worker.now
      Worker.repo (.markRetry task.taskID procErr (now + retryBackoff task.retryCount))

theorem runOnce_eq (maxRetryCount : Int) (taskType : GoString) :
    runOnce maxRetryCount taskType = (Worker.repo (.claim taskType) >>= fun claimed =>
      match claimed with
      | none => pure ()
      | some task => processTask task >>= report maxRetryCount task) := rfl

theorem report_failed {maxRetryCount : Int} {task : TaskRecord} {procErr : GoError}
    (h : wrap64 (task.retryCount + 1) ≥ maxRetryCount) :
    report maxRetryCount task (.error procErr) = Worker.repo (.markFailed task.taskID procErr) :=
  if_pos h

theorem report_retry {maxRetryCount : Int} {task : TaskRecord} {procErr : GoError}
    (h : ¬ wrap64 (task.retryCount + 1) ≥ maxRetryCount) :
    report maxRetryCount task (.error procErr) = (Worker.now >>= fun now =>
      Worker.repo (.markRetry task.taskID procErr (now + retryBackoff task.retryCount))) :=
  if_neg h

theorem callsOfRound_eq (maxRetryCount : Int) (taskType : GoString) (task : TaskRecord)
    (outcome : Except GoError Unit) (now : Time) :
    callsOfRound maxRetryCount taskType task outcome now =
      [.claim taskType, reportOf maxRetryCount task now (outcomeOf task outcome)] := by
  have hout : (processTask task).run (scripted task outcome now) [.claim taskType] =
      (.ok (outcomeOf task outcome), [.claim taskType]) := by
    unfold outcomeOf processTask
    split <;> rfl
  have hrun : callsOfRound maxRetryCount taskType task outcome now =
      ((processTask task >>= report maxRetryCount task).run (scripted task outcome now)
        [.claim taskType]).2 := by
    rw [callsOfRound, runOnce_eq]
    rfl
  rw [hrun, run_bind_ok hout]
  rcases outcomeOf task outcome with procErr | ⟨⟩
  · by_cases hcap : wrap64 (task.retryCount + 1) ≥ maxRetryCount
    · rw [reportOf, if_pos hcap, report_failed hcap]
      rfl
    · rw [reportOf, if_neg hcap, report_retry hcap]
      rfl
  · rfl

/-! ## The wait before a retry -/

/-- A failed task below the cap is rescheduled after a wait between 2 s and 5 minutes that grows
with the retry count. -/
structure BackoffBounded (maxRetryCount : Int) : Prop where
  rescheduled : ∀ taskType task outcome now, 0 ≤ task.retryCount →
    task.retryCount + 1 < maxRetryCount → outcomeOf task outcome ≠ .ok () →
    ∃ procErr, callsOfRound maxRetryCount taskType task outcome now =
      [.claim taskType, .markRetry task.taskID procErr (now + retryBackoff task.retryCount)]
  bounds : ∀ r, 0 ≤ r → r + 1 < maxRetryCount →
    2 * 10 ^ 9 ≤ retryBackoff r ∧ retryBackoff r ≤ 300 * 10 ^ 9
  monotone : ∀ r r', 0 ≤ r → r ≤ r' → r' + 1 < maxRetryCount → retryBackoff r ≤ retryBackoff r'

theorem retryBackoff_of_le {r : Int} (hr : 0 ≤ r) (h : r ≤ 32) :
    retryBackoff r = min (2 * 10 ^ 9 * 2 ^ r.toNat) (300 * 10 ^ 9) := by
  have hpow : (2 : Int) ^ r.toNat ≤ 2 ^ 32 := pow_le_pow_right₀ (by norm_num) (by omega)
  have hpos : (0 : Int) < 2 ^ r.toNat := by positivity
  unfold retryBackoff
  simp only [if_neg (not_lt.mpr hr)]
  have hshift : wrap64 (2 ^ r.toNat) = 2 ^ r.toNat := wrap64_eq_self (by omega) (by omega)
  rw [hshift, wrap64_eq_self (by omega) (by omega)]
  split <;> omega

/-- The waits are in bounds and grow when the cap is at most 34. From the 34th retry on the
nanoseconds overflow. -/
theorem backoffBounded_iff (maxRetryCount : Int) :
    BackoffBounded maxRetryCount ↔ maxRetryCount ≤ 34 := by
  constructor
  · intro h
    by_contra hcap
    have hbound := (h.bounds 33 (by norm_num) (by omega)).1
    exact absurd hbound (by decide)
  · intro hcap
    constructor
    · intro taskType task outcome now hr hlt hfail
      cases hout : outcomeOf task outcome with
      | ok u => exact absurd hout hfail
      | error procErr =>
        refine ⟨procErr, ?_⟩
        rw [callsOfRound_eq, hout, reportOf, wrap64_eq_self (by omega) (by omega),
          if_neg (by omega)]
    · intro r hr hlt
      have hpos : (1 : Int) ≤ 2 ^ r.toNat := one_le_pow₀ (by norm_num)
      rw [retryBackoff_of_le hr (by omega)]
      omega
    · intro r r' hr hle hlt
      have hpow : (2 : Int) ^ r.toNat ≤ 2 ^ r'.toNat := pow_le_pow_right₀ (by norm_num) (by omega)
      rw [retryBackoff_of_le hr (by omega), retryBackoff_of_le (hr.trans hle) (by omega)]
      omega

/-- A task that failed 33 times before. -/
def overdueTask : TaskRecord :=
  { newTask (lit "t") (lit "a") 7 (lit "REPL_TO_EC") 100 5 with
    taskState := .running, retryCount := 33 }

/-- Its next run is scheduled 40 years before the report. -/
theorem overdue_reschedule :
    callsOfRound 40 [] overdueTask (.error (lit "no nodes")) 0 =
        [.claim [], .markRetry (lit "t") (lit "no nodes") (0 + retryBackoff 33)] ∧
      overdueTask.retryCount + 1 < 40 ∧ retryBackoff 33 = -1266874889709551616 := by
  decide

/-! ## Several workers -/

namespace RetryCap

/-- An operation of a process, with its result. -/
structure Entry where
  proc : Nat
  op : WorkerOp
  res : WorkerRes op

/-- What the processes share, and all operations so far, the last one first. -/
structure State where
  shared : Shared
  trace : List Entry

/-- One step of a process, noted in the trace. -/
def stepSem (cfg : Config) (i : Nat) (op : WorkerOp) (s : State) (r : WorkerRes op) (s' : State) :
    Prop :=
  workerSem cfg op s.shared r s'.shared ∧ s'.trace = ⟨i, op, r⟩ :: s.trace

/-- The task that a call names. -/
def named : TaskCall → Option GoString
  | .claim _ => none
  | .markDone id | .markRetry id _ _ | .markFailed id _ | .requeue id | .cancel id _
  | .enqueue id _ _ _ _ _ | .enqueueRepair id _ _ | .enqueueOldVersion id _ _ => some id

/-- The programs: rounds of workers, and calls of admins and of the scanner on other tasks. -/
def begins (maxRetryCount : Int) (id : GoString) (_ : Nat) (_ : Unit) (p : Worker Unit)
    (s s' : State) : Prop :=
  Begins (· = maxRetryCount) (fun c => outside c ∧ named c ≠ some id) p ∧ s' = s

abbrev Run := Pool WorkerOp WorkerRes GoError Unit Unit State

/-! ### Executions of a task -/

/-- The claim of a task. -/
def hands (id : GoString) : Entry → Bool
  | ⟨_, .repo (.claim _), .ok (some task)⟩ => decide (task.taskID = id)
  | _ => false

/-- The work on a task went well. -/
def succeeds (id : GoString) : Entry → Bool
  | ⟨_, .process task, .ok _⟩ => decide (task.taskID = id)
  | _ => false

/-- The work on a task failed. For a type without a processor that is so with the claim. -/
def fails (id : GoString) : Entry → Bool
  | ⟨_, .process task, .error _⟩ => decide (task.taskID = id)
  | ⟨_, .repo (.claim _), .ok (some task)⟩ =>
    decide (task.taskID = id ∧ ¬ HasProcessor task.taskType)
  | _ => false

/-- A report on a task, whatever it says, that the repository took. -/
def reports (id : GoString) : Entry → Bool
  | ⟨_, .repo (.markDone id'), .ok _⟩ => decide (id' = id)
  | ⟨_, .repo (.markRetry id' _ _), .ok _⟩ => decide (id' = id)
  | ⟨_, .repo (.markFailed id' _), .ok _⟩ => decide (id' = id)
  | _ => false

/-- The numbers of executions of a task that were claimed, that went well, that failed and that were
reported. -/
structure Tally where
  claimed : Nat
  succeeded : Nat
  failed : Nat
  reported : Nat
  deriving DecidableEq

def tally (id : GoString) (trace : List Entry) : Tally where
  claimed := trace.countP (hands id)
  succeeded := trace.countP (succeeds id)
  failed := trace.countP (fails id)
  reported := trace.countP (reports id)

theorem tally_cons (id : GoString) (e : Entry) (trace : List Entry) :
    tally id (e :: trace) = ⟨(tally id trace).claimed + (hands id e).toNat,
      (tally id trace).succeeded + (succeeds id e).toNat,
      (tally id trace).failed + (fails id e).toNat,
      (tally id trace).reported + (reports id e).toNat⟩ := by
  have hcons : ∀ p : Entry → Bool, (e :: trace).countP p = trace.countP p + (p e).toNat := by
    intro p
    rw [List.countP_cons]
    cases p e <;> rfl
  simp only [tally, hcons]

/-- An entry of an execution of a task. -/
def concerns (id : GoString) (e : Entry) : Bool :=
  hands id e || succeeds id e || fails id e || reports id e

theorem tally_of_not_concerns {id : GoString} {e : Entry} (h : concerns id e = false)
    (trace : List Entry) : tally id (e :: trace) = tally id trace := by
  simp only [concerns, Bool.or_eq_false_iff] at h
  obtain ⟨⟨⟨hhands, hsucceeds⟩, hfails⟩, hreports⟩ := h
  rw [tally_cons, hhands, hsucceeds, hfails, hreports]
  rfl

/-- A row that agrees with the tally. While the task runs, one claim has not been reported. -/
def Agrees (maxRetryCount : Int) (rec : TaskRecord) (n : Tally) : Prop :=
  match rec.taskState with
  | .pending | .retryWait => rec.retryCount = n.failed ∧ (n.failed : Int) < max 1 maxRetryCount ∧
      n.claimed = n.failed ∧ n.succeeded = 0 ∧ n.reported = n.claimed
  | .running => rec.retryCount = n.reported ∧ (n.reported : Int) < max 1 maxRetryCount ∧
      n.claimed = n.reported + 1
  | .failed => (n.failed : Int) = max 1 maxRetryCount ∧ n.claimed = n.failed ∧ n.succeeded = 0 ∧
      n.reported = n.claimed
  | .done => (n.claimed : Int) ≤ max 1 maxRetryCount ∧ 0 < n.succeeded ∧ n.reported = n.claimed

/-- The row of a task agrees with its executions. -/
structure Story (maxRetryCount : Int) (id : GoString) (s : State) (rec : TaskRecord) : Prop where
  row : taskRow s.shared.store id = some rec
  agrees : Agrees maxRetryCount rec (tally id s.trace)

/-! ### What a process may do -/

/-- A process works on the task that it claimed until it reports on it; it knows whether the work
went well once it is done. -/
inductive Stage where
  | resting
  | working (task : TaskRecord) (outcome : Option Bool)

/-- The reports on a claimed task, by the outcome of the work. -/
def Reports (maxRetryCount : Int) (task : TaskRecord) (outcome : Bool) : TaskCall → Prop
  | .markDone id => id = task.taskID ∧ outcome = true
  | .markRetry id _ _ => id = task.taskID ∧ outcome = false ∧
      ¬ wrap64 (task.retryCount + 1) ≥ maxRetryCount
  | .markFailed id _ => id = task.taskID ∧ outcome = false ∧
      wrap64 (task.retryCount + 1) ≥ maxRetryCount
  | _ => False

/-- The stage after a claim: without a processor the work has failed already. -/
def Stage.claimed (task : TaskRecord) : Stage :=
  .working task (if HasProcessor task.taskType then none else some false)

def stageMonitor (maxRetryCount : Int) (id : GoString) : Monitor WorkerOp WorkerRes Stage where
  allow
    | .resting, .repo (.claim _) => True
    | .resting, .repo c => outside c ∧ named c ≠ some id
    | .working task none, .process task' => task' = task
    | .working task (some outcome), .repo c => Reports maxRetryCount task outcome c
    | .working _ (some _), .now => True
    | _, _ => False
  next
    | .resting, .repo (.claim _), .ok (some task), t' => t' = .claimed task
    | _, .repo _, _, t' => t' = .resting
    | .working task _, .process _, r, t' => t' = .working task (some r.isOk)
    | .resting, .process _, _, t' => t' = .resting
    | t, .now, _, t' => t' = t

section Programs

variable {maxRetryCount : Int} {id : GoString}

theorem report_obeys (task : TaskRecord) (outcome : Except GoError Unit) :
    (report maxRetryCount task outcome).Obeys (stageMonitor maxRetryCount id) (fun _ _ => True)
      (.working task (some outcome.isOk)) := by
  have hrepo : ∀ {c : TaskCall} (_ : Reports maxRetryCount task outcome.isOk c),
      (Worker.repo c).Obeys (stageMonitor maxRetryCount id) (fun _ _ => True)
        (.working task (some outcome.isOk)) := by
    intro c hc
    refine ⟨hc, ?_⟩
    rintro (e | a) t' - <;> trivial
  rcases outcome with procErr | ⟨⟩
  · by_cases hcap : wrap64 (task.retryCount + 1) ≥ maxRetryCount
    · rw [report_failed hcap]
      exact hrepo ⟨rfl, rfl, hcap⟩
    · rw [report_retry hcap]
      refine ⟨trivial, ?_⟩
      rintro now t' rfl
      exact hrepo ⟨rfl, rfl, hcap⟩
  · exact hrepo ⟨rfl, rfl⟩

theorem begins_obeys {p : Worker Unit}
    (h : Begins (· = maxRetryCount) (fun c => outside c ∧ named c ≠ some id) p) :
    p.Obeys (stageMonitor maxRetryCount id) (fun _ _ => True) .resting := by
  cases h with
  | @worker cap hcap taskType =>
    obtain rfl : cap = maxRetryCount := hcap
    rw [runOnce_eq]
    refine ⟨trivial, ?_⟩
    rintro (e | _ | task) t' rfl
    · trivial
    · trivial
    · change (processTask task >>= report cap task).Obeys _ _ (Stage.claimed task)
      unfold processTask Stage.claimed
      split
      · refine ⟨rfl, ?_⟩
        rintro outcome t' rfl
        exact report_obeys task outcome
      · rw [pure_bind']
        exact report_obeys task (.error _)
  | @outside c h =>
    refine ⟨?_, ?_⟩
    · cases c <;> first | exact h | trivial
    · rintro (e | a) t' - <;> trivial

end Programs

/-! ### Calls on other tasks -/

section Calls

variable {cfg : Config} {clock now : Time} {s : Store} {id : GoString}

/-- A call that may change the row of one task leaves the others. -/
theorem row_of_moves {α : Type} {C : RowChange} {p : KV α} (hp : Moves C p) (hs : Rows AnyID s)
    (hC : ∀ old new, ¬ C id old new) : taskRow (atomically p s).2 id = taskRow s id := by
  refine (hp.keeps hs (J := fun s' => taskRow s' id = taskRow s id) ?_ rfl).2
  intro s₁ s₂ _ _ hstep hrow
  exact ((hstep.rows id).resolve_right (hC _ _)).trans hrow

theorem row_of_other {c : TaskCall} (hs : Rows AnyID s) (hclaim : ∀ taskType, c ≠ .claim taskType)
    (hid : named c ≠ some id) :
    taskRow (atomically (c.program cfg clock now) s).2 id = taskRow s id := by
  have hrewrite : ∀ {β : Type} {p : KV β} {id' : GoString}, Moves (Rewrites id') p → id' ≠ id →
      taskRow (atomically p s).2 id = taskRow s id :=
    fun hp hne => row_of_moves hp hs fun _ _ hC => hne hC.1.symm
  have hne : ∀ {id' : GoString}, named c = some id' → id' ≠ id := fun hn heq => hid (heq ▸ hn)
  cases c with
  | claim taskType => exact absurd rfl (hclaim taskType)
  | markDone id' => exact hrewrite moves_markTieringTaskDone (hne rfl)
  | markRetry id' lastErr nextRunAt => exact hrewrite moves_markTieringTaskRetry (hne rfl)
  | markFailed id' lastErr => exact hrewrite moves_markTieringTaskFailed (hne rfl)
  | requeue id' => exact hrewrite moves_requeueTieringTaskNow (hne rfl)
  | cancel id' reason => exact hrewrite moves_cancelTieringTask (hne rfl)
  | enqueue id' o v ty priority at' =>
    exact row_of_moves (moves_enqueueTieringTask at') hs fun _ _ hC => hne rfl hC.1.symm
  | enqueueRepair id' o v =>
    exact row_of_moves moves_enqueueOrRequeue hs fun _ _ hC => hne rfl hC.1.symm
  | enqueueOldVersion id' o v =>
    exact row_of_moves moves_enqueueOrRequeue hs fun _ _ hC => hne rfl hC.1.symm

/-- What a report makes of the row that the process claimed, by the outcome of the work. -/
inductive Reported (maxRetryCount : Int) (task : TaskRecord) : Bool → TaskRecord → Prop where
  | done {rec : TaskRecord} (hstate : rec.taskState = .done) :
      Reported maxRetryCount task true rec
  | retry {rec : TaskRecord} (hstate : rec.taskState = .retryWait)
      (hcount : rec.retryCount = wrap64 (task.retryCount + 1))
      (hcap : ¬ wrap64 (task.retryCount + 1) ≥ maxRetryCount) :
      Reported maxRetryCount task false rec
  | failed {rec : TaskRecord} (hstate : rec.taskState = .failed)
      (hcap : wrap64 (task.retryCount + 1) ≥ maxRetryCount) :
      Reported maxRetryCount task false rec

theorem atomically_mark {update : TaskRecord → TaskRecord} {rec : TaskRecord}
    (hu : ∀ rec, (update rec).taskID = rec.taskID) (hs : Rows AnyID s) (hid : id ≠ [])
    (hrow : taskRow s id = some rec) :
    (atomically (updateTask clock now id (fun rec => some (update rec)) >>= fun _ => pure ()) s).1 =
        .ok () ∧
      taskRow (atomically (updateTask clock now id (fun rec => some (update rec)) >>= fun _ =>
        pure ()) s).2 id = some (update rec) := by
  obtain ⟨hanswer, hafter⟩ := @atomically_updateTask clock now s id (fun rec => some (update rec))
    (by rintro rec next ⟨⟩; exact hu rec) hs hid
  rw [atomically_answer, hafter, hrow]
  refine ⟨?_, rfl⟩
  unfold atomically at hanswer ⊢
  rw [run_bind]
  cases hp : (updateTask clock now id fun rec => some (update rec)).run kvHandler s with
  | mk x s' =>
    rw [hp] at hanswer
    obtain rfl : x = _ := hanswer
    rfl

theorem report_outcome {maxRetryCount : Int} {task : TaskRecord} {outcome : Bool} {c : TaskCall}
    (i : Nat) (hs : Rows AnyID s) (hid : task.taskID ≠ [])
    (hrow : taskRow s task.taskID = some task) (hc : Reports maxRetryCount task outcome c) :
    reports task.taskID ⟨i, .repo c, (atomically (c.program cfg clock now) s).1⟩ = true ∧
      ∃ rec, taskRow (atomically (c.program cfg clock now) s).2 task.taskID = some rec ∧
        Reported maxRetryCount task outcome rec := by
  have hnoted : ∀ {c : TaskCall} {a : WorkerRes (.repo c)} (b : WorkerRes (.repo c)), a = b →
      reports task.taskID ⟨i, .repo c, b⟩ = true → reports task.taskID ⟨i, .repo c, a⟩ = true := by
    rintro c a b rfl h
    exact h
  cases c with
  | markDone id' =>
    obtain ⟨rfl, rfl⟩ := hc
    obtain ⟨hanswer, hafter⟩ := @atomically_mark clock now s task.taskID
      (fun rec => { rec with taskState := .done, finishedAt := some now }) task (fun _ => rfl) hs
      hid hrow
    exact ⟨hnoted _ hanswer (decide_eq_true rfl), _, hafter, .done rfl⟩
  | markRetry id' lastErr nextRunAt =>
    obtain ⟨rfl, rfl, hcap⟩ := hc
    obtain ⟨hanswer, hafter⟩ := @atomically_mark clock now s task.taskID
      (fun rec => { rec with
        taskState := .retryWait
        retryCount := wrap64 (rec.retryCount + 1)
        lastError := some lastErr
        scheduledAt := orNow nextRunAt clock
        finishedAt := none }) task (fun _ => rfl) hs hid hrow
    exact ⟨hnoted _ hanswer (decide_eq_true rfl), _, hafter, .retry rfl rfl hcap⟩
  | markFailed id' lastErr =>
    obtain ⟨rfl, rfl, hcap⟩ := hc
    obtain ⟨hanswer, hafter⟩ := @atomically_mark clock now s task.taskID
      (fun rec => { rec with
        taskState := .failed
        lastError := some (if lastErr = [] then lit "failed_without_error_message" else lastErr)
        finishedAt := some now }) task (fun _ => rfl) hs hid hrow
    exact ⟨hnoted _ hanswer (decide_eq_true rfl), _, hafter, .failed rfl hcap⟩
  | _ => exact hc.elim

end Calls

/-! ### Steps -/

section Steps

variable {cfg : Config} {maxRetryCount : Int} {id : GoString} {i : Nat} {t : Stage} {s s' : State}

/-- A step that is not about the task. -/
structure Quiet (id : GoString) (s s' : State) : Prop where
  row : taskRow s'.shared.store id = taskRow s.shared.store id
  trace : ∃ e, s'.trace = e :: s.trace ∧ concerns id e = false

/-- A step that begins an execution of the task. -/
structure ClaimedBy (id : GoString) (i : Nat) (s s' : State) (task : TaskRecord) : Prop where
  row : ∃ rec now, taskRow s.shared.store id = some rec ∧
    isTaskRunnableState rec.taskState = true ∧ task = claimedRecord rec now
  row' : taskRow s'.shared.store id = some task
  trace : ∃ e, s'.trace = e :: s.trace ∧ e.proc = i ∧ hands id e = true ∧ succeeds id e = false ∧
    fails id e = decide (¬ HasProcessor task.taskType) ∧ reports id e = false

/-- A step that does the work on the task. -/
structure WorkedBy (id : GoString) (i : Nat) (s s' : State) (outcome : Bool) : Prop where
  row : taskRow s'.shared.store id = taskRow s.shared.store id
  trace : ∃ e, s'.trace = e :: s.trace ∧ e.proc = i ∧ hands id e = false ∧
    succeeds id e = outcome ∧ fails id e = !outcome ∧ reports id e = false

/-- A step that ends an execution of the task. -/
structure ReportedBy (maxRetryCount : Int) (s s' : State) (task : TaskRecord) (outcome : Bool) :
    Prop where
  row : ∃ rec, taskRow s'.shared.store task.taskID = some rec ∧
    Reported maxRetryCount task outcome rec
  trace : ∃ e, s'.trace = e :: s.trace ∧ hands task.taskID e = false ∧
    succeeds task.taskID e = false ∧ fails task.taskID e = false ∧ reports task.taskID e = true

/-- A report on another task, or an admin's call on it, is not about the task. -/
theorem concerns_of_other {c : TaskCall} (a : WorkerRes (.repo c))
    (hclaim : ∀ taskType, c ≠ .claim taskType) (hid : named c ≠ some id) :
    concerns id ⟨i, .repo c, a⟩ = false := by
  cases c with
  | claim taskType => exact absurd rfl (hclaim taskType)
  | markDone id' | markRetry id' _ _ | markFailed id' _ =>
    have hne : id' ≠ id := fun heq => hid (congrArg some heq)
    cases a with
    | error e => rfl
    | ok u => simp [concerns, hands, succeeds, fails, reports, hne]
  | _ => rfl

theorem quiet_of_other {c : TaskCall} {clock now : Time} (hs : Rows AnyID s.shared.store)
    (hstore : s'.shared.store = (atomically (c.program cfg clock now) s.shared.store).2)
    {a : WorkerRes (.repo c)} (htrace : s'.trace = ⟨i, .repo c, a⟩ :: s.trace)
    (hclaim : ∀ taskType, c ≠ .claim taskType) (hid : named c ≠ some id) : Quiet id s s' :=
  ⟨by rw [hstore]; exact row_of_other hs hclaim hid, _, htrace, concerns_of_other _ hclaim hid⟩

/-- A claim begins an execution of the task, or it is not about the task. -/
theorem claim_cases {taskType : GoString} {answer : Except GoError (Option TaskRecord)}
    (hx : HandedFrom s.shared.store answer s'.shared.store)
    (htrace : s'.trace = ⟨i, .repo (.claim taskType), answer⟩ :: s.trace) :
    ∃ t', (stageMonitor maxRetryCount id).next .resting (.repo (.claim taskType)) answer t' ∧
      ((Quiet id s s' ∧ ∀ task outcome, t' = .working task outcome → task.taskID ≠ id) ∨
        ∃ task, t' = .claimed task ∧ ClaimedBy id i s s' task) := by
  obtain ⟨-, hsame, hhanded⟩ := hx
  rcases answer with e | _ | task
  · have hrow := hsame (fun _ => nofun) id
    exact ⟨.resting, rfl, Or.inl ⟨⟨hrow, _, htrace, rfl⟩, fun _ _ => nofun⟩⟩
  · have hrow := hsame (fun _ => nofun) id
    exact ⟨.resting, rfl, Or.inl ⟨⟨hrow, _, htrace, rfl⟩, fun _ _ => nofun⟩⟩
  · obtain ⟨rec, now, hrow, hrun, htask, hrows⟩ := hhanded task rfl
    refine ⟨.claimed task, rfl, ?_⟩
    by_cases hid : task.taskID = id
    · subst hid
      refine Or.inr ⟨task, rfl, ⟨rec, now, hrow, hrun, htask⟩, (hrows _).trans (if_pos rfl), ?_⟩
      exact ⟨_, htrace, rfl, decide_eq_true rfl, rfl, by simp [fails], rfl⟩
    · refine Or.inl ⟨⟨(hrows id).trans (if_neg (Ne.symm hid)), _, htrace, ?_⟩, ?_⟩
      · simp [concerns, hands, succeeds, fails, reports, hid]
      · rintro task' outcome ⟨⟩
        exact hid

/-- The work on a task is an entry of the task's execution. -/
theorem process_entry (i : Nat) {task : TaskRecord} (r : WorkerRes (.process task)) :
    hands task.taskID ⟨i, .process task, r⟩ = false ∧
      succeeds task.taskID ⟨i, .process task, r⟩ = r.isOk ∧
      fails task.taskID ⟨i, .process task, r⟩ = !r.isOk ∧
      reports task.taskID ⟨i, .process task, r⟩ = false := by
  rcases r with e | ⟨⟩ <;> simp [hands, succeeds, fails, reports, Except.isOk, Except.toBool]

/-- What a step of a process can do. -/
theorem step_cases {op : WorkerOp} {r : WorkerRes op} (hs : Rows AnyID s.shared.store)
    (hid : id ≠ []) (hheld : ∀ task outcome, t = .working task outcome → task.taskID = id →
      taskRow s.shared.store id = some task)
    (hallow : (stageMonitor maxRetryCount id).allow t op) (hstep : stepSem cfg i op s r s') :
    Rows AnyID s'.shared.store ∧ ∃ t', (stageMonitor maxRetryCount id).next t op r t' ∧
      ((Quiet id s s' ∧ ∀ task outcome, t' = .working task outcome → task.taskID = id → t = t') ∨
        (∃ task, t' = .claimed task ∧ ClaimedBy id i s s' task) ∨
        (∃ task outcome, t = .working task none ∧ task.taskID = id ∧
          t' = .working task (some outcome) ∧ WorkedBy id i s s' outcome) ∨
        (∃ task outcome, t = .working task (some outcome) ∧ task.taskID = id ∧ t' = .resting ∧
          ReportedBy maxRetryCount s s' task outcome)) := by
  obtain ⟨hsem, htrace⟩ := hstep
  cases op with
  | process task =>
    obtain ⟨task', rfl⟩ : ∃ task', t = .working task' none := by
      rcases t with _ | ⟨task', _ | outcome⟩
      · exact hallow.elim
      · exact ⟨task', rfl⟩
      · exact hallow.elim
    obtain rfl : task = task' := hallow
    have hshared : s'.shared = s.shared := hsem
    refine ⟨by rwa [hshared], .working task (some r.isOk), rfl, ?_⟩
    obtain ⟨hhands, hsucceeds, hfails, hreports⟩ := process_entry i r
    by_cases htask : task.taskID = id
    · subst htask
      refine Or.inr (Or.inr (Or.inl ⟨task, r.isOk, rfl, rfl, rfl, by rw [hshared], ?_⟩))
      exact ⟨_, htrace, rfl, hhands, hsucceeds, hfails, hreports⟩
    · refine Or.inl ⟨⟨by rw [hshared], _, htrace, ?_⟩, ?_⟩
      · rcases r with e | ⟨⟩ <;> simp [concerns, hands, succeeds, fails, reports, htask]
      · rintro task' outcome ⟨⟩ htask'
        exact absurd htask' htask
  | now =>
    have hshared : s'.shared = s.shared := hsem
    refine ⟨by rwa [hshared], t, by cases t <;> rfl, Or.inl ⟨⟨by rw [hshared], _, htrace, rfl⟩, ?_⟩⟩
    exact fun _ _ _ _ => rfl
  | repo c =>
    obtain ⟨clock, now, hanswer, hshared⟩ := hsem
    have hstore : s'.shared.store = (atomically (c.program cfg clock now) s.shared.store).2 := by
      rw [hshared]
    refine ⟨by rw [hstore]; exact program_rows c hs, ?_⟩
    rcases t with _ | ⟨task, _ | outcome⟩
    · by_cases hclaim : ∃ taskType, c = .claim taskType
      · obtain ⟨taskType, rfl⟩ := hclaim
        have hhanded := ((@claimNextTieringTask_hands s.shared.store clock now cfg taskType
          hs).step_run (J := fun _ => True) (fun _ _ _ _ _ _ => trivial) hs trivial).1
        have hx : HandedFrom s.shared.store r s'.shared.store := by
          rw [hstore, ← hanswer]
          exact hhanded
        obtain ⟨t', hnext, hcases⟩ := @claim_cases maxRetryCount id i s s' taskType r hx htrace
        exact ⟨t', hnext, hcases.imp (And.imp_right fun hne task outcome ht htask =>
          absurd htask (hne task outcome ht)) Or.inl⟩
      · have hclaim : ∀ taskType, c ≠ .claim taskType := fun taskType h => hclaim ⟨taskType, h⟩
        refine ⟨.resting, ?_, Or.inl ⟨quiet_of_other hs hstore htrace hclaim ?_, fun _ _ => nofun⟩⟩
        · cases c <;> first | rfl | exact absurd rfl (hclaim _)
        · cases c <;> first | exact hallow.2 | exact absurd rfl (hclaim _)
    · exact hallow.elim
    · refine ⟨.resting, by cases c <;> rfl, ?_⟩
      by_cases htask : task.taskID = id
      · subst htask
        obtain ⟨hreports, rec, hrow, hout⟩ := @report_outcome cfg clock now s.shared.store
          maxRetryCount task outcome c i hs hid (hheld task _ rfl rfl) hallow
        refine Or.inr (Or.inr (Or.inr ⟨task, outcome, rfl, rfl, rfl, ⟨rec, ?_, hout⟩, ?_⟩))
        · rw [hstore]
          exact hrow
        · rw [hanswer] at hreports
          refine ⟨_, htrace, ?_, ?_, ?_, hreports⟩ <;>
            cases c <;> first | rfl | exact hallow.elim
      · refine Or.inl ⟨quiet_of_other hs hstore htrace ?_ ?_, fun _ _ => nofun⟩
        · rintro taskType rfl
          exact hallow
        · have hnamed : named c = some task.taskID := by
            cases c <;> first | exact congrArg some hallow.1 | exact hallow.elim
          rw [hnamed]
          exact fun heq => htask (Option.some.inj heq)

/-! ### The story of the task -/

theorem Quiet.tally_eq (h : Quiet id s s') : tally id s'.trace = tally id s.trace := by
  obtain ⟨e, htrace, hnot⟩ := h.trace
  rw [htrace, tally_of_not_concerns hnot]

theorem Story.quiet {rec : TaskRecord} (h : Story maxRetryCount id s rec) (hq : Quiet id s s') :
    Story maxRetryCount id s' rec :=
  ⟨hq.row.trans h.row, by rw [hq.tally_eq]; exact h.agrees⟩

/-- What the outcome of the work says about the tally. -/
def Fits (n : Tally) : Option Bool → Prop
  | none => n.failed = n.reported ∧ n.succeeded = 0
  | some true => n.failed = n.reported ∧ n.succeeded = 1
  | some false => n.failed = n.reported + 1 ∧ n.succeeded = 0

theorem Story.claimed {rec task : TaskRecord} (h : Story maxRetryCount id s rec)
    (hc : ClaimedBy id i s s' task) : Story maxRetryCount id s' task ∧
      Fits (tally id s'.trace) (if HasProcessor task.taskType then none else some false) := by
  obtain ⟨⟨rec', now, hrow, hrun, rfl⟩, hrow', e, htrace, -, hhands, hsucceeds, hfails, hreports⟩ :=
    hc
  cases h.row.symm.trans hrow
  have hagrees : rec.retryCount = (tally id s.trace).failed ∧
      ((tally id s.trace).failed : Int) < max 1 maxRetryCount ∧
      (tally id s.trace).claimed = (tally id s.trace).failed ∧ (tally id s.trace).succeeded = 0 ∧
      (tally id s.trace).reported = (tally id s.trace).claimed := by
    have := h.agrees
    unfold Agrees at this
    cases hstate : rec.taskState <;> rw [hstate] at this hrun <;> first | exact this | cases hrun
  obtain ⟨hcount, hbelow, hclaimed, hnone, hreported⟩ := hagrees
  have hbefore : (tally id s.trace).reported = (tally id s.trace).failed := hreported.trans hclaimed
  rw [htrace, tally_cons, hhands, hsucceeds, hfails, hreports]
  refine ⟨⟨hrow', ?_⟩, ?_⟩
  · rw [htrace, tally_cons, hhands, hsucceeds, hfails, hreports]
    exact ⟨hbefore ▸ hcount, hbefore ▸ hbelow, by simp [hreported]⟩
  · split_ifs with hproc
    · exact ⟨by simp [hproc, hbefore], by simpa using hnone⟩
    · exact ⟨by simp [hproc, hbefore], by simpa using hnone⟩

theorem Story.worked {task : TaskRecord} {outcome : Bool} (h : Story maxRetryCount id s task)
    (hrunning : task.taskState = .running) (hfits : Fits (tally id s.trace) none)
    (hw : WorkedBy id i s s' outcome) :
    Story maxRetryCount id s' task ∧ Fits (tally id s'.trace) (some outcome) := by
  obtain ⟨hrow, e, htrace, -, hhands, hsucceeds, hfails, hreports⟩ := hw
  have hagrees := h.agrees
  unfold Agrees at hagrees
  rw [hrunning] at hagrees
  obtain ⟨hfailed, hnone⟩ := hfits
  refine ⟨⟨hrow.trans h.row, ?_⟩, ?_⟩
  · unfold Agrees
    rw [hrunning, htrace, tally_cons, hhands, hreports]
    exact hagrees
  · rw [htrace, tally_cons, hsucceeds, hfails, hreports]
    cases outcome
    · exact ⟨by simp [hfailed], by simpa using hnone⟩
    · exact ⟨by simpa using hfailed, by simp [hnone]⟩

theorem Story.reported {task : TaskRecord} {outcome : Bool} (hcap : InInt64 maxRetryCount)
    (h : Story maxRetryCount task.taskID s task) (hrunning : task.taskState = .running)
    (hfits : Fits (tally task.taskID s.trace) (some outcome))
    (hr : ReportedBy maxRetryCount s s' task outcome) :
    ∃ rec, Story maxRetryCount task.taskID s' rec := by
  obtain ⟨⟨rec, hrow, hout⟩, e, htrace, hhands, hsucceeds, hfails, hreports⟩ := hr
  have hagrees := h.agrees
  unfold Agrees at hagrees
  rw [hrunning] at hagrees
  obtain ⟨hcount, hbelow, hclaimed⟩ := hagrees
  -- the count stays below the cap, so the next one does not overflow
  have hnext : wrap64 (task.retryCount + 1) = task.retryCount + 1 := by
    have := hcap.2
    exact wrap64_eq_self (by omega) (by omega)
  refine ⟨rec, hrow, ?_⟩
  rw [htrace, tally_cons, hhands, hsucceeds, hfails, hreports]
  unfold Agrees
  cases hout with
  | done hstate =>
    obtain ⟨-, hone⟩ := hfits
    rw [hstate]
    refine ⟨?_, ?_, ?_⟩ <;> simp only [Bool.toNat_true, Bool.toNat_false] <;> omega
  | retry hstate hnextCount hlt =>
    obtain ⟨hfailed, hnone⟩ := hfits
    rw [hnext] at hnextCount hlt
    rw [hstate, hnextCount]
    refine ⟨?_, ?_, ?_, ?_, ?_⟩ <;> simp only [Bool.toNat_true, Bool.toNat_false] <;> omega
  | failed hstate hge =>
    obtain ⟨hfailed, hnone⟩ := hfits
    rw [hnext] at hge
    rw [hstate]
    refine ⟨?_, ?_, ?_, ?_⟩ <;> simp only [Bool.toNat_true, Bool.toNat_false] <;> omega

end Steps

/-! ### Runs -/

/-- The last entry about the task is one of the process. -/
def LastBy (id : GoString) (i : Nat) (trace : List Entry) : Prop :=
  ∃ e, trace.find? (concerns id) = some e ∧ e.proc = i

/-- The process that works on the task made the last entry about it, its copy is the row, and the
outcome that it knows is in the tally. -/
def Knows (id : GoString) (i : Nat) (t : Stage) (s : State) : Prop :=
  ∀ task outcome, t = .working task outcome → task.taskID = id →
    LastBy id i s.trace ∧ taskRow s.shared.store id = some task ∧ task.taskState = .running ∧
      Fits (tally id s.trace) outcome

def Inv (maxRetryCount : Int) (id : GoString) (s : State) : Prop :=
  Rows AnyID s.shared.store ∧ ∃ rec, Story maxRetryCount id s rec

section Runs

variable {cfg : Config} {maxRetryCount : Int} {id : GoString}

theorem lastBy_cons {i : Nat} {e : Entry} (h : concerns id e = true) (hproc : e.proc = i)
    (trace : List Entry) : LastBy id i (e :: trace) :=
  ⟨e, List.find?_cons_of_pos h, hproc⟩

theorem LastBy.quiet {i : Nat} {s s' : State} (h : LastBy id i s.trace) (hq : Quiet id s s') :
    LastBy id i s'.trace := by
  obtain ⟨e, htrace, hnot⟩ := hq.trace
  rw [htrace, LastBy, List.find?_cons_of_neg (by simp [hnot])]
  exact h

/-- Two processes cannot both have made the last entry. -/
theorem LastBy.unique {i j : Nat} {trace : List Entry} (hi : LastBy id i trace)
    (hj : LastBy id j trace) : i = j := by
  obtain ⟨e, he, rfl⟩ := hi
  obtain ⟨e', he', rfl⟩ := hj
  rw [Option.some.inj (he.symm.trans he')]

theorem Knows.quiet {i : Nat} {t : Stage} {s s' : State} (h : Knows id i t s)
    (hq : Quiet id s s') : Knows id i t s' := by
  intro task outcome ht htask
  obtain ⟨hlast, hrow, hrunning, hfits⟩ := h task outcome ht htask
  exact ⟨hlast.quiet hq, hq.row.trans hrow, hrunning, by rw [hq.tally_eq]; exact hfits⟩

theorem retry_discipline (hcap : InInt64 maxRetryCount) (hid : id ≠ []) :
    Pool.Discipline (begins maxRetryCount id) (fun i _ => stepSem cfg i)
      (fun _ => stageMonitor maxRetryCount id) (fun _ _ _ => True) (Inv maxRetryCount id)
      (fun i _ t s => Knows id i t s) where
  onCall := by
    rintro i - t op s r s' ⟨hs, rec, hstory⟩ hknows hallow hstep
    obtain ⟨hs', t', hnext, hcases⟩ := step_cases hs hid
      (fun task outcome ht htask => (hknows task outcome ht htask).2.1) hallow hstep
    rcases hcases with ⟨hq, hsame⟩ | ⟨task, rfl, hc⟩ | ⟨task, outcome, rfl, rfl, rfl, hw⟩ |
      ⟨task, outcome, rfl, rfl, rfl, hr⟩
    · refine ⟨⟨hs', rec, hstory.quiet hq⟩, t', hnext, fun task outcome ht htask => ?_⟩
      exact hknows.quiet hq task outcome ((hsame task outcome ht htask).trans ht) htask
    · obtain ⟨hstory', hfits⟩ := hstory.claimed hc
      refine ⟨⟨hs', task, hstory'⟩, _, hnext, ?_⟩
      rintro task' outcome ⟨⟩ -
      obtain ⟨e, htrace, hproc, hhands, -⟩ := hc.trace
      refine ⟨?_, hc.row', ?_, hfits⟩
      · rw [htrace]
        exact lastBy_cons (by simp [concerns, hhands]) hproc _
      · obtain ⟨rec', now, -, -, rfl⟩ := hc.row
        rfl
    · obtain ⟨-, hrow, hrunning, hfits⟩ := hknows task none rfl rfl
      obtain rfl : rec = task := Option.some.inj (hstory.row.symm.trans hrow)
      obtain ⟨hstory', hfits'⟩ := hstory.worked hrunning hfits hw
      refine ⟨⟨hs', rec, hstory'⟩, _, hnext, ?_⟩
      rintro task' outcome' ⟨⟩ -
      obtain ⟨e, htrace, hproc, -, hsucceeds, hfails, -⟩ := hw.trace
      refine ⟨?_, hw.row.trans hrow, hrunning, hfits'⟩
      rw [htrace]
      exact lastBy_cons (by cases outcome <;> simp [concerns, hsucceeds, hfails]) hproc _
    · obtain ⟨-, hrow, hrunning, hfits⟩ := hknows task _ rfl rfl
      obtain rfl : rec = task := Option.some.inj (hstory.row.symm.trans hrow)
      exact ⟨⟨hs', hstory.reported hcap hrunning hfits hr⟩, _, hnext, fun _ _ => nofun⟩
  onOtherCall := by
    rintro i - t op s r s' j - t' ⟨hs, rec, hstory⟩ hknows hallow hstep hne hother task outcome rfl
      htask
    obtain ⟨hlast, hrow, hrunning, -⟩ := hother task outcome rfl htask
    -- the process that steps does not work on the task as well
    have hfree : ∀ task outcome, t = .working task outcome → task.taskID ≠ id :=
      fun task outcome ht htask => hne (hlast.unique (hknows task outcome ht htask).1)
    obtain ⟨-, t', -, hcases⟩ := step_cases hs hid
      (fun task outcome ht htask => (hknows task outcome ht htask).2.1) hallow hstep
    rcases hcases with ⟨hq, -⟩ | ⟨task', -, hc⟩ | ⟨task', _, ht', htask', -⟩ |
      ⟨task', _, ht', htask', -⟩
    · exact hother.quiet hq task outcome rfl htask
    · -- the task is running, so it is not claimed again
      obtain ⟨rec', now, hrow', hrun, -⟩ := hc.row
      cases hrow.symm.trans hrow'
      rw [hrunning] at hrun
      cases hrun
    · exact absurd htask' (hfree task' _ ht')
    · exact absurd htask' (hfree task' _ ht')
  onStart := by
    rintro i - p s s' hinv ⟨hbegins, rfl⟩
    exact ⟨hinv, .resting, begins_obeys hbegins, fun _ _ => nofun⟩
  onOtherStart := by
    rintro i - p s s' j - t hinv ⟨-, rfl⟩ - hknows
    exact hknows

/-- The runs of workers, admins and the scanner. -/
abbrev Reaches (cfg : Config) (maxRetryCount : Int) (id : GoString) : Run → Run → Prop :=
  Pool.Reaches (begins maxRetryCount id) (fun i _ => stepSem cfg i)

/-- The interference rule holds in a configuration. -/
abbrev Governed (maxRetryCount : Int) (id : GoString) (c : Run) : Prop :=
  Pool.Governed (fun _ => stageMonitor maxRetryCount id) (fun _ _ _ => True) (Inv maxRetryCount id)
    (fun i _ t s => Knows id i t s) c

/-- Nobody claims a finished task, works on it or reports on it. -/
theorem terminal_step (hid : id ≠ []) {c c' : Run} (hc : Governed maxRetryCount id c)
    (h : Pool.Step (begins maxRetryCount id) (fun i _ => stepSem cfg i) c c') {rec : TaskRecord}
    (hrow : taskRow c.state.shared.store id = some rec)
    (hend : isTaskTerminalState rec.taskState = true) :
    taskRow c'.state.shared.store id = some rec ∧
      tally id c'.state.trace = tally id c.state.trace := by
  cases h with
  | start free begins =>
    obtain ⟨-, rfl⟩ := begins
    exact ⟨hrow, rfl⟩
  | call next step =>
    obtain ⟨t, hp, hknows⟩ := hc.2 _ _ _ next
    -- whoever works on a task has it in the state RUNNING
    have hfree : ∀ task outcome, t = .working task outcome → task.taskID ≠ id := by
      intro task outcome ht htask
      obtain ⟨-, hrow', hrunning, -⟩ := hknows task outcome ht htask
      cases hrow.symm.trans hrow'
      rw [hrunning] at hend
      cases hend
    obtain ⟨-, t', -, hcases⟩ := step_cases hc.1.1 hid
      (fun task outcome ht htask => absurd htask (hfree task outcome ht)) hp.1 step
    rcases hcases with ⟨hq, -⟩ | ⟨task, -, hclaim⟩ | ⟨task, _, ht, htask, -⟩ |
      ⟨task, _, ht, htask, -⟩
    · exact ⟨hq.row.trans hrow, hq.tally_eq⟩
    · obtain ⟨rec', now, hrow', hrun, -⟩ := hclaim.row
      cases hrow.symm.trans hrow'
      have hnot : isTaskTerminalState rec.taskState = false := by
        cases hstate : rec.taskState <;> rw [hstate] at hrun <;> first | rfl | cases hrun
      rw [hnot] at hend
      cases hend
    · exact absurd htask (hfree task _ ht)
    · exact absurd htask (hfree task _ ht)

theorem terminal_run (hcap : InInt64 maxRetryCount) (hid : id ≠ []) {c c' : Run}
    (hc : Governed maxRetryCount id c) (h : Reaches cfg maxRetryCount id c c') {rec : TaskRecord}
    (hrow : taskRow c.state.shared.store id = some rec)
    (hend : isTaskTerminalState rec.taskState = true) :
    taskRow c'.state.shared.store id = some rec ∧
      tally id c'.state.trace = tally id c.state.trace := by
  induction h with
  | refl => exact ⟨hrow, rfl⟩
  | @tail c₁ c₂ hreach hstep ih =>
    obtain ⟨hrow', htally⟩ :=
      terminal_step hid ((retry_discipline hcap hid).reaches hc hreach) hstep ih.1 hend
    exact ⟨hrow', htally.trans ih.2⟩

/-- The row of the task is in a state. -/
def InState (s : State) (id : GoString) (state : TaskState) : Prop :=
  ∃ rec, taskRow s.shared.store id = some rec ∧ rec.taskState = state

/-- The task is claimed and fails as often as the cap says, and its end is final. The outcomes are
those of the work, and all executions have been reported when the task ends. -/
structure Capped (cfg : Config) (maxRetryCount : Int) (id : GoString) (c : Run) : Prop where
  claimed : ((tally id c.state.trace).claimed : Int) ≤ max 1 maxRetryCount
  failed : InState c.state id .failed ↔
    (tally id c.state.trace).reported = (tally id c.state.trace).claimed ∧
      ((tally id c.state.trace).failed : Int) = max 1 maxRetryCount ∧
      (tally id c.state.trace).succeeded = 0
  done : InState c.state id .done ↔
    (tally id c.state.trace).reported = (tally id c.state.trace).claimed ∧
      0 < (tally id c.state.trace).succeeded
  final : InState c.state id .failed ∨ InState c.state id .done →
    ∀ c', Reaches cfg maxRetryCount id c c' → tally id c'.state.trace = tally id c.state.trace

theorem capped_of_governed (hcap : InInt64 maxRetryCount) (hid : id ≠ []) {c : Run}
    (hc : Governed maxRetryCount id c) : Capped cfg maxRetryCount id c := by
  obtain ⟨-, rec, hrow, hagrees⟩ := hc.1
  have hstate : ∀ state, InState c.state id state ↔ rec.taskState = state := by
    intro state
    constructor
    · rintro ⟨rec', hrow', rfl⟩
      rw [Option.some.inj (hrow.symm.trans hrow')]
    · exact fun h => ⟨rec, hrow, h⟩
  have hfinal : isTaskTerminalState rec.taskState = true → ∀ c', Reaches cfg maxRetryCount id c c' →
      tally id c'.state.trace = tally id c.state.trace :=
    fun hend c' hrun => (terminal_run hcap hid hc hrun hrow hend).2
  unfold Agrees at hagrees
  constructor
  · cases h : rec.taskState <;> rw [h] at hagrees <;> simp only at hagrees <;> omega
  · rw [hstate]
    cases h : rec.taskState <;> rw [h] at hagrees <;> simp only [reduceCtorEq, true_iff, false_iff]
      at hagrees ⊢ <;> omega
  · rw [hstate]
    cases h : rec.taskState <;> rw [h] at hagrees <;> simp only [reduceCtorEq, true_iff, false_iff]
      at hagrees ⊢ <;> omega
  · rw [hstate, hstate]
    rintro (h | h)
    · exact hfinal (by rw [h]; rfl)
    · exact hfinal (by rw [h]; rfl)

/-- In every run of any number of workers on a new task, which no one else cancels, requeues or
purges: the task is claimed at most as often as the cap says (once for a cap below 1). Once the
executions are reported, it is FAILED exactly when the work failed that often and never went well,
and DONE exactly when it went well. After that nobody claims it. -/
theorem retry_cap (hcap : InInt64 maxRetryCount) (hid : id ≠ []) {rows : Store} {rec : TaskRecord}
    (hrows : Rows AnyID rows) (hrow : taskRow rows id = some rec)
    (hstate : rec.taskState = .pending) (hcount : rec.retryCount = 0) {c : Run}
    (hrun : Reaches cfg maxRetryCount id (Pool.idle ⟨⟨rows, []⟩, []⟩) c) :
    Capped cfg maxRetryCount id c := by
  have hstory : Story maxRetryCount id ⟨⟨rows, []⟩, []⟩ rec := by
    refine ⟨hrow, ?_⟩
    unfold Agrees
    rw [hstate]
    exact ⟨hcount, by simp [tally], rfl, rfl, rfl⟩
  exact capped_of_governed hcap hid ((retry_discipline hcap hid).reaches
    (Pool.Discipline.governed_idle ⟨hrows, rec, hstory⟩) hrun)

end Runs

/-! ### Three workers and a cap of 2 -/

/-- The store after the enqueue of a task. -/
def enqueuedRows : Store :=
  (atomically ((TaskCall.enqueue (lit "t") (lit "a") 7 (lit "REPL_TO_EC") 100 5).program {} 0 5)
    SortedMap.empty).2

/-- The work of a process has a fixed outcome; the other steps are those of `workerHandler`. -/
def stepHandler (works : Nat → Except GoError Unit) (i : Nat) (u : Unit) :
    (op : WorkerOp) → State → WorkerRes op × State
  | .process task, s => (works i, ⟨s.shared, ⟨i, .process task, works i⟩ :: s.trace⟩)
  | .repo c, s => ((workerHandler i u (.repo c) s.shared).1,
      ⟨(workerHandler i u (.repo c) s.shared).2,
        ⟨i, .repo c, (workerHandler i u (.repo c) s.shared).1⟩ :: s.trace⟩)
  | .now, s => ((workerHandler i u .now s.shared).1,
      ⟨s.shared, ⟨i, .now, (workerHandler i u .now s.shared).1⟩ :: s.trace⟩)

theorem stepSem_stepHandler (works : Nat → Except GoError Unit) (i : Nat) (r : Unit) (op : WorkerOp)
    (s : State) :
    stepSem {} i op s (stepHandler works i r op s).1 (stepHandler works i r op s).2 := by
  cases op with
  | repo c => exact ⟨workerSem_workerHandler i r (.repo c) s.shared, rfl⟩
  | process task => exact ⟨rfl, rfl⟩
  | now => exact ⟨rfl, rfl⟩

/-- Three workers start. The first claims the task and fails, and meanwhile the second finds none;
the third takes the retry. -/
def cappedRun (works : Nat → Except GoError Unit) : Run :=
  ((((Pool.idle ⟨⟨enqueuedRows, []⟩, []⟩).spawn 1 () (runOnce 2 [])).spawn 2 () (runOnce 2 [])).spawn
    3 () (runOnce 2 [])).advanceAll (stepHandler works) [1, 2, 1, 1, 1, 3, 3, 3]

def failing : Except GoError Unit := .error (lit "no healthy nodes")

/-- When the retry fails too, the task is FAILED after two executions; when it goes well, the task
is DONE. -/
theorem retry_cap_twice :
    (Capped {} 2 (lit "t") (cappedRun fun _ => failing) ∧
      InState (cappedRun fun _ => failing).state (lit "t") .failed ∧
      tally (lit "t") (cappedRun fun _ => failing).state.trace = ⟨2, 0, 2, 2⟩) ∧
    Capped {} 2 (lit "t") (cappedRun fun i => if i = 3 then .ok () else failing) ∧
      InState (cappedRun fun i => if i = 3 then .ok () else failing).state (lit "t") .done ∧
      tally (lit "t") (cappedRun fun i => if i = 3 then .ok () else failing).state.trace =
        ⟨2, 1, 1, 2⟩ := by
  have hrows : Rows AnyID enqueuedRows := program_rows _ rows_empty
  have hrow : taskRow enqueuedRows (lit "t") = some taskT := by decide +kernel
  have hworker : Begins (· = (2 : Int)) (fun c => outside c ∧ named c ≠ some (lit "t"))
      (runOnce 2 []) := @Begins.worker (· = (2 : Int)) _ 2 rfl []
  have hrun : ∀ works, Reaches {} 2 (lit "t") (Pool.idle ⟨⟨enqueuedRows, []⟩, []⟩)
      (cappedRun works) := fun works =>
    (((Pool.Reaches.spawn .refl rfl ⟨hworker, rfl⟩).spawn rfl ⟨hworker, rfl⟩).spawn rfl
      ⟨hworker, rfl⟩).advanceAll (stepSem_stepHandler works) [1, 2, 1, 1, 1, 3, 3, 3]
  have hcapped : ∀ works, Capped {} 2 (lit "t") (cappedRun works) := fun works =>
    retry_cap ⟨by norm_num, by norm_num⟩ (by decide) hrows hrow rfl rfl (hrun works)
  have hfailed : tally (lit "t") (cappedRun fun _ => failing).state.trace = ⟨2, 0, 2, 2⟩ := by
    decide +kernel
  have hdone : tally (lit "t")
      (cappedRun fun i => if i = 3 then .ok () else failing).state.trace = ⟨2, 1, 1, 2⟩ := by
    decide +kernel
  refine ⟨⟨hcapped _, (hcapped _).failed.mpr ?_, hfailed⟩, hcapped _, (hcapped _).done.mpr ?_, hdone⟩
  · rw [hfailed]
    decide
  · rw [hdone]
    decide

end RetryCap

end TieredStore.Tiering
