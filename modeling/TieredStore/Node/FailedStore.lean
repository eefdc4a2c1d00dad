import Mathlib.Algebra.Order.Group.Multiset
import TieredStore.Node.Admission

/-!
# What a failed store leaves behind

A worker opens the file of a key with truncation and fills it in place, and the old content is kept
nowhere. So a store that fails while its file is written leaves a part of the new content
(`failed_store_tears`). What does hold is said by the error (`failed_store_content`): a call that
is turned away, or whose file could not be opened, changes nothing; after a failed copy the file
holds a beginning of the body, after a failed sync all of it; and a call that was cancelled leaves
the old content or a beginning of the body, as the task may still be queued.

The task of a call is at one place at a time. `StorageEngine.jobs` is the multiset of the tasks
that have left their call, and `Moved` says what each step does to it, to the calls and to the
files. `Phase` is where the task of one call is, with what its file then holds.
-/

namespace TieredStore.Node.WriteQueue

open Lib

/-! ## Tasks on their way -/

/-- A task and the stage of its worker; none while it is queued. -/
abbrev Placed := Job × Option WorkStage

def placed (jobs : List Job) : Multiset Placed := (jobs.map fun job => (job, none) : List Placed)

def Worker.jobs : Worker → Multiset Placed
  | .busy job stage => {(job, some stage)}
  | _ => 0

namespace StorageEngine

/-- `retrieve`, when the file system carries it out. -/
def retrieve (n : StorageEngine) (key : GoString) : Except NodeError (Option Blob) :=
  match getSafePath key with
  | .error err => .error err
  | .ok path => .ok (n.files path)

/-- The tasks that are queued or with a worker. -/
def jobs (n : StorageEngine) : Multiset Placed :=
  placed n.foregroundWriteQueue + placed n.backgroundWriteQueue + (n.workers.map Worker.jobs).sum

end StorageEngine

section Jobs

variable {n n' : StorageEngine} {c : WriteClass} {job : Job} {rest : List Job}

theorem jobs_setQueue (n : StorageEngine) (c : WriteClass) (q : List Job) :
    (n.setQueue c q).jobs + placed (n.queue c) = n.jobs + placed q := by
  cases c <;> simp only [StorageEngine.jobs, StorageEngine.setQueue, StorageEngine.queue] <;> abel

theorem jobs_push (n : StorageEngine) (c : WriteClass) (job : Job) :
    (n.setQueue c (n.queue c ++ [job])).jobs = {(job, none)} + n.jobs := by
  have hplaced : placed (n.queue c ++ [job]) = {(job, none)} + placed (n.queue c) := by
    unfold placed
    rw [List.map_append, ← Multiset.coe_add, add_comm]
    rfl
  have hset := jobs_setQueue n c (n.queue c ++ [job])
  rw [hplaced, add_left_comm, ← add_assoc] at hset
  exact add_right_cancel hset

theorem jobs_pop (h : n.queue c = job :: rest) :
    n.jobs = {(job, none)} + (n.setQueue c rest).jobs := by
  have hplaced : placed (n.queue c) = {(job, none)} + placed rest := by
    rw [h]
    rfl
  have hset := jobs_setQueue n c rest
  rw [hplaced, add_left_comm, ← add_assoc] at hset
  exact (add_right_cancel hset).symm

theorem jobs_worker {j : Nat} {worker : Worker} (h : n.workers[j]? = some worker)
    (worker' : Worker) : StorageEngine.jobs { n with workers := n.workers.set j worker' } +
      worker.jobs = n.jobs + worker'.jobs := by
  unfold StorageEngine.jobs
  rw [add_assoc, sum_map_set_add Worker.jobs h, ← add_assoc]

end Jobs

/-! ## What a step moves -/

/-- The errors of a call that was turned away before its task was queued. -/
def StoreError.Refused : StoreError → Prop
  | .overloaded | .classOverloaded | .queueFull => True
  | _ => False

/-- The error that the caller is about to return or has returned. -/
def CallStage.error? : CallStage → Option StoreError
  | .releasing _ _ err => some err
  | .returned (.error err) => some err
  | _ => none

/-- What a caller makes of the report of the worker. -/
def answer : WriteResult → Except StoreError Nat
  | .ok size => .ok size
  | .error e => .error (.write e)

/-- A step of a caller, and the task it gives away. -/
inductive CallMove (k : Nat) (call : Call) : CallStage → Multiset Placed → Prop
  | advance {stage : CallStage} (before : call.stage.active = true)
      (after : stage.active = true ∨ ∃ err, stage = .returned (.error err))
      (error : ∀ err, stage.error? = some err →
        err.Refused ∨ call.stage.error? = some err) : CallMove k call stage 0
  | enqueue (before : call.stage = .enqueue) :
      CallMove k call .waiting {(⟨k, call.task⟩, none)}
  | answer {res : WriteResult} (before : call.stage = .waiting) (done : call.done = some res) :
      CallMove k call (.returned (answer res)) 0
  | cancel (before : call.stage = .waiting) : CallMove k call (.returned (.error .cancelled)) 0

/-- What a step does to the calls, the tasks on their way and the files. -/
inductive Moved (n n' : StorageEngine) : StorageEngine.Event → Prop
  | arrive {task : WriteTask} (calls : n'.calls = n.calls ++ [StorageEngine.newCall task])
      (jobs : n'.jobs = n.jobs) (files : n'.files = n.files) : Moved n n' (.arrive task)
  | call {e : StorageEngine.Event} {k : Nat} {call : Call} {stage : CallStage}
      {new : Multiset Placed} (get : n.calls[k]? = some call) (move : CallMove k call stage new)
      (calls : n'.calls = n.calls.set k { call with stage := stage })
      (jobs : n'.jobs = new + n.jobs) (files : n'.files = n.files) : Moved n n' e
  | rest {e : StorageEngine.Event} (calls : n'.calls = n.calls) (jobs : n'.jobs = n.jobs)
      (files : n'.files = n.files) : Moved n n' e
  | take {e : StorageEngine.Event} {job : Job} {others : Multiset Placed}
      (calls : n'.calls = n.calls) (before : n.jobs = {(job, none)} + others)
      (after : n'.jobs = {(job, some .opening)} + others) (files : n'.files = n.files) :
      Moved n n' e
  | work {e : StorageEngine.Event} {job : Job} {stage : WorkStage} {disk : StorageEngine.Disk}
      {others : Multiset Placed} (calls : n'.calls = n.calls)
      (before : n.jobs = {(job, some stage)} + others)
      (after : n'.jobs = {(job, some (n.writeStep job.task disk stage).2)} + others)
      (files : n'.files = (n.writeStep job.task disk stage).1.files) : Moved n n' e
  | report {e : StorageEngine.Event} {job : Job} {clamp : Bool} {res : WriteResult}
      (calls : n'.calls = n.calls.modify job.call fun call => { call with done := some res })
      (before : n.jobs = {(job, some (.releasing [] clamp res))} + n'.jobs)
      (files : n'.files = n.files) : Moved n n' e

section Moves

variable {n n' n₁ : StorageEngine} {e : StorageEngine.Event} {k : Nat} {call : Call}
  {stage : CallStage}

theorem SameTasks.jobs (h : SameTasks n n') : n'.jobs = n.jobs := by
  unfold StorageEngine.jobs
  rw [h.foreground, h.background, h.workers]

theorem release_sameTasks (n : StorageEngine) (bytes : Int) (budgets : List Budget) (clamp : Bool) :
    SameTasks n (n.release bytes budgets clamp).1 := by
  unfold StorageEngine.release
  split
  · exact sameTasks_refl n
  · exact sameTasks_setCounter _ _ _
  · dsimp only
    split_ifs
    · exact sameTasks_refl n
    · exact sameTasks_setCounter _ _ _
    · exact sameTasks_setCounter _ _ _

/-- What a step of a caller does to the rest of the engine. -/
structure CallMoved (n n₁ : StorageEngine) (k : Nat) (call : Call) (stage : CallStage) :
    Prop where
  calls : n₁.calls = n.calls
  workers : n₁.workers = n.workers
  files : n₁.files = n.files
  move : ∃ new, CallMove k call stage new ∧ n₁.jobs = new + n.jobs

theorem CallMoved.of_sameTasks (h : SameTasks n n₁) (move : CallMove k call stage 0) :
    CallMoved n n₁ k call stage :=
  ⟨h.calls, h.workers, h.files, 0, move, by rw [h.jobs, zero_add]⟩

theorem callStep_moved (h : n.callStep k call = some (n₁, stage)) :
    CallMoved n n₁ k call stage := by
  obtain ⟨task, stage₀, done⟩ := call
  cases stage₀ with
  | reserve =>
    simp only [StorageEngine.callStep] at h
    split at h <;> cases h
    · exact .of_sameTasks (sameTasks_setCounter _ _ _) (.advance rfl (Or.inl rfl) (by rintro _ ⟨⟩))
    · exact .of_sameTasks (sameTasks_refl n) (.advance rfl (Or.inl rfl) (by rintro _ ⟨⟩))
  | swap current =>
    simp only [StorageEngine.callStep] at h
    split at h
    · cases h
      refine .of_sameTasks (sameTasks_refl n) (.advance rfl (Or.inr ⟨_, rfl⟩) ?_)
      rintro - ⟨⟩
      exact Or.inl trivial
    · split at h <;> cases h
      · exact .of_sameTasks (sameTasks_setCounter _ _ _) (.advance rfl (Or.inl rfl) (by rintro _ ⟨⟩))
      · exact .of_sameTasks (sameTasks_refl n) (.advance rfl (Or.inl rfl) (by rintro _ ⟨⟩))
  | reserveClass =>
    simp only [StorageEngine.callStep] at h
    split at h
    · cases h
      exact .of_sameTasks (sameTasks_setCounter _ _ _) (.advance rfl (Or.inl rfl) (by rintro _ ⟨⟩))
    · split at h <;> cases h
      · exact .of_sameTasks (sameTasks_setCounter _ _ _) (.advance rfl (Or.inl rfl) (by rintro _ ⟨⟩))
      · exact .of_sameTasks (sameTasks_refl n) (.advance rfl (Or.inl rfl) (by rintro _ ⟨⟩))
  | swapClass current =>
    simp only [StorageEngine.callStep] at h
    split at h
    · cases h
      refine .of_sameTasks (sameTasks_refl n) (.advance rfl (Or.inl rfl) ?_)
      rintro - ⟨⟩
      exact Or.inl trivial
    · split at h <;> cases h
      · exact .of_sameTasks (sameTasks_setCounter _ _ _) (.advance rfl (Or.inl rfl) (by rintro _ ⟨⟩))
      · exact .of_sameTasks (sameTasks_refl n) (.advance rfl (Or.inl rfl) (by rintro _ ⟨⟩))
  | enqueue =>
    simp only [StorageEngine.callStep] at h
    split at h <;> cases h
    · obtain ⟨-, hcalls, hworkers, -⟩ :=
        setQueue_keeps n task.writeClass (n.queue task.writeClass ++ [⟨k, task⟩])
      refine ⟨hcalls, hworkers, ?_, _, .enqueue rfl, jobs_push n task.writeClass ⟨k, task⟩⟩
      cases task.writeClass <;> rfl
    · refine .of_sameTasks (sameTasks_refl n) (.advance rfl (Or.inl rfl) ?_)
      rintro - ⟨⟩
      exact Or.inl trivial
  | releasing budgets clamp err =>
    cases budgets with
    | nil =>
      cases h
      exact .of_sameTasks (sameTasks_refl n) (.advance rfl (Or.inr ⟨_, rfl⟩) fun _ => Or.inr)
    | cons b rest =>
      cases h
      exact .of_sameTasks (release_sameTasks ..) (.advance rfl (Or.inl rfl) fun _ => Or.inr)
  | waiting =>
    cases done with
    | none => cases h
    | some res =>
      cases res with
      | ok size =>
        cases h
        exact .of_sameTasks (sameTasks_refl n) (@CallMove.answer k _ (.ok size) rfl rfl)
      | error err =>
        cases h
        exact .of_sameTasks (sameTasks_refl n) (@CallMove.answer k _ (.error err) rfl rfl)
  | returned res => cases h

theorem writeStep_keeps (n : StorageEngine) (task : WriteTask) (disk : StorageEngine.Disk)
    (stage : WorkStage) : (n.writeStep task disk stage).1.calls = n.calls ∧
      (n.writeStep task disk stage).1.workers = n.workers ∧
      (n.writeStep task disk stage).1.jobs = n.jobs := by
  cases stage with
  | opening =>
    simp only [StorageEngine.writeStep]
    split <;> exact ⟨rfl, rfl, rfl⟩
  | copying path written =>
    simp only [StorageEngine.writeStep]
    split
    · exact ⟨rfl, rfl, rfl⟩
    · split_ifs <;> exact ⟨rfl, rfl, rfl⟩
  | syncing =>
    simp only [StorageEngine.writeStep]
    split <;> exact ⟨rfl, rfl, rfl⟩
  | releasing budgets clamp res =>
    have hsame := release_sameTasks n task.dataBytes budgets clamp
    exact ⟨hsame.calls, hsame.workers, hsame.jobs⟩

/-- A worker that has no task takes one. -/
theorem take_moved {c : WriteClass} {j : Nat} {worker worker' : Worker}
    (hget : n.workers[j]? = some worker) (hfree : worker.jobs = 0)
    (h : n.take c = some (n₁, worker')) :
    Moved n { n₁ with workers := n₁.workers.set j worker' } e := by
  unfold StorageEngine.take at h
  split at h
  · cases h
  · rename_i job rest hqueue
    cases h
    obtain ⟨-, hcalls, hworkers, -⟩ := setQueue_keeps n c rest
    have hset := jobs_worker (n := n.setQueue c rest) (hworkers ▸ hget) (.busy job .opening)
    rw [hfree, add_zero, add_comm] at hset
    refine .take hcalls (jobs_pop hqueue) hset ?_
    cases c <;> rfl

theorem workerStep_moved {pick : WriteClass} {disk : StorageEngine.Disk} {j : Nat}
    {worker worker' : Worker} (hget : n.workers[j]? = some worker)
    (h : n.workerStep pick disk worker = some (n₁, worker')) :
    Moved n { n₁ with workers := n₁.workers.set j worker' } e := by
  cases worker with
  | idle =>
    simp only [StorageEngine.workerStep] at h
    split at h
    · rename_i next htake
      cases h
      exact take_moved hget rfl htake
    · cases h
      have hset := jobs_worker hget .blocked
      exact .rest rfl (by simpa [Worker.jobs] using hset) rfl
  | blocked => exact take_moved hget rfl h
  | busy job stage =>
    by_cases hend : ∃ clamp res, stage = .releasing [] clamp res
    · obtain ⟨clamp, res, rfl⟩ := hend
      cases h
      have hset := jobs_worker (n := n.report job.call res) hget .idle
      refine @Moved.report n _ e job clamp res rfl ?_ rfl
      rw [add_comm]
      exact (hset.trans (add_zero _)).symm
    · rw [workerStep_busy n pick disk hend] at h
      cases h
      obtain ⟨hcalls, hworkers, hjobs⟩ := writeStep_keeps n job.task disk stage
      -- the tasks of the others are those of the engine whose worker is idle
      have hbefore := jobs_worker hget .idle
      have hafter := jobs_worker (n := (n.writeStep job.task disk stage).1) (hworkers ▸ hget)
        (.busy job (n.writeStep job.task disk stage).2)
      have hidle : Worker.idle.jobs = 0 := rfl
      rw [hidle, add_zero, add_comm] at hbefore
      rw [hjobs, ← hbefore, add_comm, add_assoc] at hafter
      refine .work hcalls hbefore.symm ((add_left_cancel hafter).trans (add_comm _ _)) rfl

theorem step_moved (h : n.step e = some n') : Moved n n' e := by
  cases e with
  | arrive task =>
    cases h
    exact .arrive rfl rfl rfl
  | caller i =>
    obtain ⟨call, n₁, stage, hget, hstep, rfl⟩ := step_caller h
    obtain ⟨hcalls, -, hfiles, new, hmove, hjobs⟩ := callStep_moved hstep
    exact .call hget hmove (congrArg (List.set · i _) hcalls) hjobs hfiles
  | cancel i =>
    obtain ⟨call, hget, hstage, rfl⟩ := step_cancel h
    exact .call hget (.cancel hstage) rfl (zero_add _).symm rfl
  | worker j pick disk =>
    obtain ⟨worker, n₁, worker', hget, hstep, rfl⟩ := step_worker h
    exact workerStep_moved hget hstep

/-- A task keeps what does not depend on its stage. -/
theorem forall_moved {P : Job → Prop} {job : Job} {place place' : Option WorkStage}
    {jobs others : Multiset Placed} (hjobs : jobs = {(job, place)} + others)
    (h : ∀ x ∈ jobs, P x.1) : ∀ x ∈ ({(job, place')} + others : Multiset Placed), P x.1 := by
  subst hjobs
  intro x hx
  rcases Multiset.mem_add.mp hx with hx | hx
  · rw [Multiset.mem_singleton.mp hx]
    exact h (job, place) (Multiset.mem_add.mpr (Or.inl (Multiset.mem_singleton_self _)))
  · exact h x (Multiset.mem_add.mpr (Or.inr hx))

/-- A task on its way reports to a call there is. -/
theorem jobs_call_lt {es : List StorageEngine.Event}
    (h : ∀ x ∈ n.jobs, x.1.call < n.calls.length) (hrun : n.run es = some n') :
    ∀ x ∈ n'.jobs, x.1.call < n'.calls.length := by
  induction es generalizing n with
  | nil =>
    cases hrun
    exact h
  | cons e es ih =>
    obtain ⟨n₁, hstep, hrest⟩ := Option.bind_eq_some_iff.mp hrun
    refine ih (fun x hx => ?_) hrest
    cases step_moved hstep with
    | arrive calls jobs files =>
      have hlt := h x (jobs ▸ hx)
      rw [calls, List.length_append]
      omega
    | call get move calls jobs files =>
      rw [calls, List.length_set]
      rw [jobs] at hx
      rcases Multiset.mem_add.mp hx with hx | hx
      · cases move with
        | enqueue before =>
          rw [Multiset.mem_singleton] at hx
          obtain ⟨hlt, -⟩ := List.getElem?_eq_some_iff.mp get
          rw [hx]
          exact hlt
        | _ => cases Multiset.notMem_zero _ hx
      · exact h x hx
    | rest calls jobs files => exact calls ▸ h x (jobs ▸ hx)
    | take calls before after files =>
      rw [calls]
      exact forall_moved (P := fun job => job.call < n.calls.length) before h x (after ▸ hx)
    | work calls before after files =>
      rw [calls]
      exact forall_moved (P := fun job => job.call < n.calls.length) before h x (after ▸ hx)
    | report calls before files =>
      rw [calls, List.length_modify]
      rw [before] at h
      exact h x (Multiset.mem_add.mpr (Or.inr hx))

end Moves

/-! ## One store -/

/-- What a write with this result leaves in its file, which held `old` before. -/
def Written (old : Option Blob) (body : Blob) : WriteResult → Option Blob → Prop
  | .ok _, file => file = some body
  | .error .path, file => file = old
  | .error .open, file => file = old
  | .error .copy, file => ∃ k, file = some (body.take k)
  | .error .sync, file => file = some body

/-- What the file of a task holds while the task is at its place. -/
def Content (path : GoString) (old : Option Blob) (body : Blob) :
    Option WorkStage → Option Blob → Prop
  | none, file => file = old
  | some .opening, file => file = old
  | some (.copying path' written), file =>
    path' = path ∧ written ≤ body.length ∧ file = some (body.take written)
  | some .syncing, file => file = some body
  | some (.releasing _ _ res), file => Written old body res file

/-- The task at this place does not write to the path. -/
def Away (path : GoString) (task : WriteTask) : Option WorkStage → Prop
  | none | some .opening => getSafePath task.key ≠ .ok path
  | some (.copying path' _) => path' ≠ path
  | _ => True

/-- The caller has given its task away and has no answer yet. -/
def Call.Pending (call : Call) : Prop :=
  (call.stage = .waiting ∨ call.stage = .returned (.error .cancelled)) ∧ call.done = none

section Store

variable {n n' : StorageEngine} {path : GoString} {old file : Option Blob} {task : WriteTask}
  {disk : StorageEngine.Disk} {stage : WorkStage}

theorem writeAt_take {body : Blob} {written : Nat} (hle : written ≤ body.length) (m : Nat) :
    StorageEngine.writeAt (body.take written) written ((body.drop written).take m) =
      body.take (written + ((body.drop written).take m).length) := by
  have hlen : (body.take written).length = written := by simp [hle]
  have hchunk : (body.drop written).take ((body.drop written).take m).length =
      (body.drop written).take m := (List.prefix_iff_eq_take.mp (List.take_prefix _ _)).symm
  have hpast : (body.take written).drop (written + ((body.drop written).take m).length) = [] :=
    List.drop_eq_nil_of_le (by omega)
  unfold StorageEngine.writeAt
  rw [List.take_add, hchunk, hpast, hlen, Nat.sub_self, List.replicate_zero, List.append_nil,
    List.append_nil, List.take_take, min_self]

/-- A step of the worker of a task keeps what its file should hold. -/
theorem writeStep_content (hkey : getSafePath task.key = .ok path)
    (h : Content path old task.body (some stage) (n.files path)) :
    Content path old task.body (some (n.writeStep task disk stage).2)
      ((n.writeStep task disk stage).1.files path) := by
  cases stage with
  | opening =>
    simp only [StorageEngine.writeStep, hkey]
    cases disk with
    | fail => exact h
    | ok bytes => exact ⟨rfl, Nat.zero_le _, Function.update_self ..⟩
  | copying path' written =>
    obtain ⟨rfl, hle, hfile⟩ := h
    simp only [StorageEngine.writeStep]
    cases disk with
    | fail => exact ⟨written, hfile⟩
    | ok bytes =>
      dsimp only
      by_cases hchunk : (task.body.drop written).take (bytes + 1) = []
      · have hwhole : n.files path' = some task.body := by
          have hdrop : task.body.drop written = [] := by simpa using hchunk
          rw [hfile, List.take_of_length_le (List.drop_eq_nil_iff.mp hdrop)]
        rw [if_pos hchunk]
        split_ifs <;> exact hwhole
      · rw [if_neg hchunk]
        refine ⟨rfl, ?_, ?_⟩
        · rw [List.length_take, List.length_drop]
          omega
        · rw [hfile]
          exact (Function.update_self ..).trans (congrArg some (writeAt_take hle _))
  | syncing =>
    simp only [StorageEngine.writeStep]
    cases disk <;> exact h
  | releasing budgets clamp res =>
    have hfiles := (release_sameTasks n task.dataBytes budgets clamp).files
    simp only [StorageEngine.writeStep, hfiles]
    exact h

theorem writeStep_away (h : Away path task (some stage)) :
    (n.writeStep task disk stage).1.files path = n.files path ∧
      Away path task (some (n.writeStep task disk stage).2) := by
  cases stage with
  | opening =>
    simp only [StorageEngine.writeStep]
    split
    · exact ⟨rfl, trivial⟩
    · exact ⟨rfl, trivial⟩
    · rename_i path' _ hkey
      have hne : path' ≠ path := fun heq => h (heq ▸ hkey)
      exact ⟨Function.update_of_ne hne.symm .., hne⟩
  | copying path' written =>
    have hne : path' ≠ path := h
    simp only [StorageEngine.writeStep]
    split
    · exact ⟨rfl, trivial⟩
    · split_ifs
      · exact ⟨rfl, trivial⟩
      · exact ⟨rfl, trivial⟩
      · exact ⟨Function.update_of_ne hne.symm .., hne⟩
  | syncing =>
    simp only [StorageEngine.writeStep]
    split <;> exact ⟨rfl, trivial⟩
  | releasing budgets clamp res =>
    have hfiles := (release_sameTasks n task.dataBytes budgets clamp).files
    simp only [StorageEngine.writeStep, hfiles]
    exact ⟨trivial, trivial⟩

/-- The tasks that report to a call. -/
def mine (i : Nat) (jobs : Multiset Placed) : Multiset Placed := jobs.filter fun x => x.1.call = i

theorem mine_add_of_eq {i : Nat} {x : Placed} (h : x.1.call = i) (jobs : Multiset Placed) :
    mine i ({x} + jobs) = {x} + mine i jobs := by
  simp [mine, h]

theorem mine_add_of_ne {i : Nat} {x : Placed} (h : x.1.call ≠ i) (jobs : Multiset Placed) :
    mine i ({x} + jobs) = mine i jobs := by
  simp [mine, h]

/-- Where the task of a call is, with what its file then holds. -/
inductive Phase (i : Nat) (path : GoString) (old : Option Blob) (task : WriteTask) (call : Call) :
    Multiset Placed → Option Blob → Prop
  | calling (active : call.stage.active = true) (fresh : call.done = none)
      (error : ∀ err, call.stage.error? = some err → err.Refused) :
      Phase i path old task call 0 old
  | refused {err : StoreError} (stage : call.stage = .returned (.error err))
      (error : err.Refused) : Phase i path old task call 0 old
  | moving {place : Option WorkStage} {file : Option Blob} (pending : call.Pending)
      (content : Content path old task.body place file) :
      Phase i path old task call {(⟨i, task⟩, place)} file
  | reported {res : WriteResult} {file : Option Blob} (done : call.done = some res)
      (stage : call.stage = .waiting ∨ call.stage = .returned (.error .cancelled) ∨
        call.stage = .returned (answer res))
      (content : Written old task.body res file) : Phase i path old task call 0 file

variable {i : Nat} {call : Call}

theorem Phase.of_add {x : Placed} {jobs : Multiset Placed}
    (h : Phase i path old task call ({x} + jobs) file) :
    jobs = 0 ∧ x.1 = ⟨i, task⟩ ∧ call.Pending ∧ Content path old task.body x.2 file := by
  rw [Multiset.singleton_add] at h
  generalize hall : x ::ₘ jobs = all at h
  cases h with
  | moving pending content =>
    obtain ⟨hx, hjobs⟩ := (Multiset.singleton_eq_cons_iff _).mp hall.symm
    subst hx
    exact ⟨hjobs, rfl, pending, content⟩
  | _ => exact absurd hall Multiset.cons_ne_zero

theorem Phase.of_active {jobs : Multiset Placed} (h : Phase i path old task call jobs file)
    (hactive : call.stage.active = true) : jobs = 0 ∧ file = old ∧ call.done = none ∧
      ∀ err, call.stage.error? = some err → err.Refused := by
  cases h with
  | calling active fresh error => exact ⟨rfl, rfl, fresh, error⟩
  | refused stage error => rw [stage] at hactive; cases hactive
  | moving pending content =>
    rcases pending.1 with hstage | hstage <;> rw [hstage] at hactive <;> cases hactive
  | reported done stage content =>
    rcases stage with hstage | hstage | hstage <;> rw [hstage] at hactive <;> cases hactive

/-- A step of the caller itself. -/
theorem Phase.own_call {stage : CallStage} {new jobs : Multiset Placed}
    (h : Phase i path old task call (mine i jobs) file) (htask : call.task = task)
    (hmove : CallMove i call stage new) :
    Phase i path old task { call with stage := stage } (mine i (new + jobs)) file := by
  have hnone : ∀ M : Multiset Placed, mine i (0 + M) = mine i M := fun M => by rw [zero_add]
  generalize hown : mine i jobs = own at h
  cases hmove with
  | advance before after error =>
    obtain ⟨rfl, rfl, fresh, error'⟩ := h.of_active before
    have hrefused : ∀ err, stage.error? = some err → err.Refused := fun err herr =>
      (error err herr).elim id (error' err)
    rw [hnone, hown]
    rcases after with hactive | ⟨err, rfl⟩
    · exact .calling hactive fresh hrefused
    · exact .refused rfl (hrefused err rfl)
  | enqueue before =>
    obtain ⟨rfl, rfl, fresh, -⟩ := h.of_active (by rw [before]; rfl)
    rw [mine_add_of_eq (x := (⟨i, call.task⟩, none)) rfl, hown, htask, add_zero]
    exact .moving ⟨Or.inl rfl, fresh⟩ rfl
  | answer before done =>
    rw [hnone, hown]
    cases h with
    | calling active fresh error => rw [fresh] at done; cases done
    | refused stage error => rw [stage] at before; cases before
    | moving pending content => rw [pending.2] at done; cases done
    | reported done' stage content =>
      rw [done'] at done
      cases done
      exact .reported done' (Or.inr (Or.inr rfl)) content
  | cancel before =>
    rw [hnone, hown]
    cases h with
    | calling active fresh error => rw [before] at active; cases active
    | refused stage error => rw [stage] at before; cases before
    | moving pending content => exact .moving ⟨Or.inr rfl, pending.2⟩ content
    | reported done stage content => exact .reported done (Or.inr (Or.inl rfl)) content

/-- The task a caller gives away is its own, and it does so before it waits. -/
theorem CallMove.new_cases {k : Nat} {stage : CallStage} {new : Multiset Placed}
    (h : CallMove k call stage new) :
    new = 0 ∨ new = {(⟨k, call.task⟩, none)} ∧ call.stage.active = true := by
  cases h with
  | enqueue before => exact Or.inr ⟨rfl, by rw [before]; rfl⟩
  | _ => exact Or.inl rfl

theorem CallMove.active {k : Nat} {stage : CallStage} {new : Multiset Placed}
    (h : CallMove k call stage new) (hactive : stage.active = true) :
    call.stage.active = true := by
  cases h with
  | advance before after error => exact before
  | _ => cases hactive

/-- What holds while the task of call `i` is on its way: the others do not write to its path. -/
structure Story (i : Nat) (path : GoString) (old : Option Blob) (task : WriteTask)
    (n : StorageEngine) : Prop where
  own : ∃ call, n.calls[i]? = some call ∧ call.task = task ∧
    Phase i path old task call (mine i n.jobs) (n.files path)
  calls : ∀ k call, k ≠ i → n.calls[k]? = some call → call.stage.active = true →
    getSafePath call.task.key ≠ .ok path
  jobs : ∀ x ∈ n.jobs, x.1.call ≠ i → Away path x.1.task x.2

theorem Story.arrive {task' : WriteTask} (h : Story i path old task n)
    (hcalls : n'.calls = n.calls ++ [StorageEngine.newCall task']) (hjobs : n'.jobs = n.jobs)
    (hfiles : n'.files = n.files) (hkey : getSafePath task'.key ≠ .ok path) :
    Story i path old task n' := by
  obtain ⟨call, hget, htask, hphase⟩ := h.own
  obtain ⟨hlt, -⟩ := List.getElem?_eq_some_iff.mp hget
  refine ⟨⟨call, ?_, htask, ?_⟩, fun k call' hk hget' hactive => ?_, hjobs ▸ h.jobs⟩
  · rw [hcalls, List.getElem?_append_left hlt]
    exact hget
  · rw [hjobs, hfiles]
    exact hphase
  · rw [hcalls] at hget'
    rcases lt_or_ge k n.calls.length with hk' | hk'
    · rw [List.getElem?_append_left hk'] at hget'
      exact h.calls k call' hk hget' hactive
    · rw [List.getElem?_append_right hk'] at hget'
      cases List.mem_singleton.mp (List.mem_of_getElem? hget')
      exact hkey

theorem Story.own_call {stage : CallStage} {new : Multiset Placed} (h : Story i path old task n)
    (hget : n.calls[i]? = some call) (hmove : CallMove i call stage new)
    (hcalls : n'.calls = n.calls.set i { call with stage := stage })
    (hjobs : n'.jobs = new + n.jobs) (hfiles : n'.files = n.files) : Story i path old task n' := by
  obtain ⟨call', hget', htask, hphase⟩ := h.own
  obtain rfl : call = call' := Option.some.inj (hget.symm.trans hget')
  obtain ⟨hlt, -⟩ := List.getElem?_eq_some_iff.mp hget
  refine ⟨⟨{ call with stage := stage }, ?_, htask, ?_⟩, fun k call' hk hget => ?_, ?_⟩
  · rw [hcalls, List.getElem?_set_self hlt]
  · rw [hjobs, hfiles]
    exact hphase.own_call htask hmove
  · rw [hcalls, List.getElem?_set_ne (Ne.symm hk)] at hget
    exact h.calls k call' hk hget
  · intro x hx hne
    rw [hjobs] at hx
    rcases Multiset.mem_add.mp hx with hx | hx
    · rcases hmove.new_cases with rfl | ⟨rfl, -⟩
      · cases Multiset.notMem_zero _ hx
      · rw [Multiset.mem_singleton.mp hx] at hne
        exact absurd rfl hne
    · exact h.jobs x hx hne

theorem Story.other_call {k : Nat} {stage : CallStage} {new : Multiset Placed}
    (h : Story i path old task n) (hk : k ≠ i) (hget : n.calls[k]? = some call)
    (hmove : CallMove k call stage new)
    (hcalls : n'.calls = n.calls.set k { call with stage := stage })
    (hjobs : n'.jobs = new + n.jobs) (hfiles : n'.files = n.files) : Story i path old task n' := by
  obtain ⟨call', hget', htask, hphase⟩ := h.own
  have hmine : mine i (new + n.jobs) = mine i n.jobs := by
    rcases hmove.new_cases with rfl | ⟨rfl, -⟩
    · rw [zero_add]
    · exact mine_add_of_ne hk _
  refine ⟨⟨call', ?_, htask, ?_⟩, fun k' call' hk' hget' hactive => ?_, ?_⟩
  · rw [hcalls, List.getElem?_set_ne hk]
    exact hget'
  · rw [hjobs, hmine, hfiles]
    exact hphase
  · rw [hcalls] at hget'
    by_cases hkk : k = k'
    · subst hkk
      obtain ⟨hlt, -⟩ := List.getElem?_eq_some_iff.mp hget
      rw [List.getElem?_set_self hlt] at hget'
      cases hget'
      exact h.calls k call hk hget (hmove.active hactive)
    · rw [List.getElem?_set_ne hkk] at hget'
      exact h.calls k' call' hk' hget' hactive
  · intro x hx hne
    rw [hjobs] at hx
    rcases Multiset.mem_add.mp hx with hx | hx
    · rcases hmove.new_cases with rfl | ⟨rfl, hactive⟩
      · cases Multiset.notMem_zero _ hx
      · rw [Multiset.mem_singleton.mp hx]
        exact h.calls k call hk hget hactive
    · exact h.jobs x hx hne

/-- A task moves on: the own one keeps the content of its file in step, another one does not touch
the file. -/
theorem Story.job_moves {job : Job} {place place' : Option WorkStage} {others : Multiset Placed}
    (h : Story i path old task n) (hcalls : n'.calls = n.calls)
    (hbefore : n.jobs = {(job, place)} + others) (hafter : n'.jobs = {(job, place')} + others)
    (hown : job.task = task → Content path old task.body place (n.files path) →
      Content path old task.body place' (n'.files path))
    (hother : Away path job.task place →
      n'.files path = n.files path ∧ Away path job.task place') : Story i path old task n' := by
  obtain ⟨call, hget, htask, hphase⟩ := h.own
  have hmem : ∀ x ∈ others, x ∈ n.jobs := fun x hx => by
    rw [hbefore]
    exact Multiset.mem_add.mpr (Or.inr hx)
  have hjob : (job, place) ∈ n.jobs := by
    rw [hbefore]
    exact Multiset.mem_add.mpr (Or.inl (Multiset.mem_singleton_self _))
  rw [hbefore] at hphase
  by_cases hcall : job.call = i
  · rw [mine_add_of_eq hcall] at hphase
    obtain ⟨hnone, rfl, hpending, hcontent⟩ := hphase.of_add
    refine ⟨⟨call, hcalls ▸ hget, htask, ?_⟩, hcalls ▸ h.calls, fun x hx hne => ?_⟩
    · rw [hafter, mine_add_of_eq hcall, hnone, add_zero]
      exact .moving hpending (hown rfl hcontent)
    · rw [hafter] at hx
      rcases Multiset.mem_add.mp hx with hx | hx
      · rw [Multiset.mem_singleton.mp hx] at hne
        exact absurd rfl hne
      · exact h.jobs x (hmem x hx) hne
  · obtain ⟨hfile, haway⟩ := hother (h.jobs _ hjob hcall)
    rw [mine_add_of_ne hcall] at hphase
    refine ⟨⟨call, hcalls ▸ hget, htask, ?_⟩, hcalls ▸ h.calls, fun x hx hne => ?_⟩
    · rw [hafter, mine_add_of_ne hcall, hfile]
      exact hphase
    · rw [hafter] at hx
      rcases Multiset.mem_add.mp hx with hx | hx
      · rw [Multiset.mem_singleton.mp hx]
        exact haway
      · exact h.jobs x (hmem x hx) hne

theorem Story.report {job : Job} {clamp : Bool} {res : WriteResult} (h : Story i path old task n)
    (hcalls : n'.calls = n.calls.modify job.call fun call => { call with done := some res })
    (hbefore : n.jobs = {(job, some (.releasing [] clamp res))} + n'.jobs)
    (hfiles : n'.files = n.files) : Story i path old task n' := by
  obtain ⟨call, hget, htask, hphase⟩ := h.own
  have hjobs : ∀ x ∈ n'.jobs, x.1.call ≠ i → Away path x.1.task x.2 := fun x hx => h.jobs x (by
    rw [hbefore]
    exact Multiset.mem_add.mpr (Or.inr hx))
  have hothers : ∀ k call, k ≠ i → n'.calls[k]? = some call → call.stage.active = true →
      getSafePath call.task.key ≠ .ok path := by
    intro k call hk hget hactive
    rw [hcalls, List.getElem?_modify] at hget
    obtain ⟨call', hget', heq⟩ := Option.map_eq_some_iff.mp hget
    have hsame : call'.stage = call.stage ∧ call'.task = call.task := by
      subst heq
      split <;> exact ⟨rfl, rfl⟩
    rw [← hsame.2]
    exact h.calls k call' hk hget' (hsame.1 ▸ hactive)
  rw [hbefore] at hphase
  by_cases hcall : job.call = i
  · rw [mine_add_of_eq hcall] at hphase
    obtain ⟨hnone, -, hpending, hcontent⟩ := hphase.of_add
    refine ⟨⟨{ call with done := some res }, ?_, htask, ?_⟩, hothers, hjobs⟩
    · rw [hcalls, List.getElem?_modify, hget, hcall]
      simp
    · rw [hnone, hfiles]
      exact .reported rfl (hpending.1.imp_right Or.inl) hcontent
  · rw [mine_add_of_ne hcall] at hphase
    refine ⟨⟨call, ?_, htask, hfiles ▸ hphase⟩, hothers, hjobs⟩
    rw [hcalls, List.getElem?_modify, hget]
    simp [hcall]

theorem Story.step {e : StorageEngine.Event} (hkey : getSafePath task.key = .ok path)
    (h : Story i path old task n) (hmoved : Moved n n' e)
    (hothers : ∀ task', e = .arrive task' → getSafePath task'.key ≠ .ok path) :
    Story i path old task n' := by
  cases hmoved with
  | arrive calls jobs files => exact h.arrive calls jobs files (hothers _ rfl)
  | @call _ k call stage new get move calls jobs files =>
    by_cases hk : k = i
    · subst hk
      exact h.own_call get move calls jobs files
    · exact h.other_call hk get move calls jobs files
  | rest calls jobs files =>
    obtain ⟨call, hget, htask, hphase⟩ := h.own
    refine ⟨⟨call, calls ▸ hget, htask, ?_⟩, calls ▸ h.calls, jobs ▸ h.jobs⟩
    rw [jobs, files]
    exact hphase
  | take calls before after files =>
    exact h.job_moves calls before after (fun _ hcontent => files ▸ hcontent)
      fun haway => ⟨congrFun files path, haway⟩
  | work calls before after files =>
    refine h.job_moves calls before after (fun htask hcontent => ?_) fun haway => ?_
    · rw [files, htask]
      exact writeStep_content hkey hcontent
    · rw [files]
      exact writeStep_away haway
  | report calls before files => exact h.report calls before files

theorem Story.run {es : List StorageEngine.Event} (hkey : getSafePath task.key = .ok path)
    (h : Story i path old task n)
    (hothers : ∀ task', .arrive task' ∈ es → getSafePath task'.key ≠ .ok path)
    (hrun : n.run es = some n') : Story i path old task n' := by
  induction es generalizing n with
  | nil =>
    cases hrun
    exact h
  | cons e es ih =>
    obtain ⟨n₁, hstep, hrest⟩ := Option.bind_eq_some_iff.mp hrun
    refine ih (h.step hkey (step_moved hstep) fun task' he => hothers task' ?_)
      (fun task' hmem => hothers task' (List.mem_cons_of_mem _ hmem)) hrest
    exact he ▸ List.mem_cons_self ..

/-! ## What a failed store leaves -/

/-- The content of the file of a call that has failed. -/
def Left (old : Option Blob) (body : Blob) : StoreError → Option Blob → Prop
  | .write .copy, file => ∃ k, file = some (body.take k)
  | .write .sync, file => file = some body
  | .cancelled, file => file = old ∨ ∃ k, file = some (body.take k)
  | _, file => file = old

/-- The errors of a call whose file was not opened. -/
def StoreError.Unopened : StoreError → Prop
  | .write .copy | .write .sync | .cancelled => False
  | _ => True

theorem written_old_or_take {body : Blob} {res : WriteResult} (h : Written old body res file) :
    file = old ∨ ∃ k, file = some (body.take k) := by
  have hwhole : file = some body → ∃ k, file = some (body.take k) := fun hfile =>
    ⟨body.length, by rw [List.take_length]; exact hfile⟩
  rcases res with (_ | _ | _ | _) | size
  · exact Or.inl h
  · exact Or.inl h
  · exact Or.inr h
  · exact Or.inr (hwhole h)
  · exact Or.inr (hwhole h)

theorem content_old_or_take {body : Blob} {place : Option WorkStage}
    (h : Content path old body place file) : file = old ∨ ∃ k, file = some (body.take k) := by
  rcases place with _ | _ | ⟨path', written⟩ | _ | ⟨budgets, clamp, res⟩
  · exact Or.inl h
  · exact Or.inl h
  · exact Or.inr ⟨written, h.2.2⟩
  · exact Or.inr ⟨body.length, by rw [List.take_length]; exact h⟩
  · exact written_old_or_take h

theorem Phase.left {jobs : Multiset Placed} {err : StoreError}
    (h : Phase i path old task call jobs file) (herr : call.stage = .returned (.error err)) :
    Left old task.body err file := by
  cases h with
  | calling active fresh error => rw [herr] at active; cases active
  | refused stage error =>
    cases herr.symm.trans stage
    cases err with
    | write e => cases error
    | cancelled => cases error
    | _ => rfl
  | moving pending content =>
    rcases pending.1 with hstage | hstage <;> cases herr.symm.trans hstage
    exact content_old_or_take content
  | @reported res _ done stage content =>
    rcases stage with hstage | hstage | hstage
    · cases herr.symm.trans hstage
    · cases herr.symm.trans hstage
      exact written_old_or_take content
    · rw [herr] at hstage
      cases res with
      | ok size => cases hstage
      | error e =>
        cases hstage
        cases e <;> exact content

/-- A call that has returned stays as it is, but for its report. -/
theorem returned_stays {res : Except StoreError Nat} {es : List StorageEngine.Event}
    (h : (n.calls[i]?).map Call.stage = some (.returned res)) (hrun : n.run es = some n') :
    (n'.calls[i]?).map Call.stage = some (.returned res) := by
  induction es generalizing n with
  | nil =>
    cases hrun
    exact h
  | cons e es ih =>
    obtain ⟨n₁, hstep, hrest⟩ := Option.bind_eq_some_iff.mp hrun
    refine ih ?_ hrest
    obtain ⟨call, hget, hstage⟩ := Option.map_eq_some_iff.mp h
    obtain ⟨hlt, -⟩ := List.getElem?_eq_some_iff.mp hget
    cases step_moved hstep with
    | arrive calls jobs files =>
      rw [calls, List.getElem?_append_left hlt]
      exact h
    | @call _ k call' stage new get move calls jobs files =>
      have hk : k ≠ i := by
        rintro rfl
        cases hget.symm.trans get
        cases move with
        | advance before after error => rw [hstage] at before; cases before
        | enqueue before => cases hstage.symm.trans before
        | answer before done => cases hstage.symm.trans before
        | cancel before => cases hstage.symm.trans before
      rw [calls, List.getElem?_set_ne hk]
      exact h
    | rest calls jobs files => exact calls ▸ h
    | take calls before after files => exact calls ▸ h
    | work calls before after files => exact calls ▸ h
    | report calls before files =>
      rw [calls, List.getElem?_modify, hget, ← hstage]
      simp only [Option.map_eq_map, Option.map_some]
      split <;> rfl

theorem jobs_start (config : QueueConfig) (files : GoString → Option Blob) (ioWorkers : Nat) :
    (StorageEngine.start config files ioWorkers).jobs = 0 := by
  have hworkers : ((List.replicate (max 1 ioWorkers) Worker.idle).map Worker.jobs).sum = 0 := by
    simp [Worker.jobs]
  change placed [] + placed [] + ((List.replicate (max 1 ioWorkers) .idle).map Worker.jobs).sum = 0
  rw [hworkers]
  rfl

/-- No task on its way and no caller before the queue is about to write to the path. -/
def StorageEngine.Clear (n : StorageEngine) (path : GoString) : Prop :=
  (∀ call ∈ n.calls, call.stage.active = true → getSafePath call.task.key ≠ .ok path) ∧
    ∀ x ∈ n.jobs, Away path x.1.task x.2

theorem story_start {task : WriteTask} (hkey : getSafePath task.key = .ok path)
    (hbelow : ∀ x ∈ n.jobs, x.1.call < n.calls.length) (hclear : n.Clear path)
    (h : n.step (.arrive task) = some n') :
    Story n.calls.length path (n.files path) task n' := by
  cases h
  have hnew : StorageEngine.newCall task = ⟨task, .reserve, none⟩ := by
    simp [StorageEngine.newCall, hkey]
  have hmine : mine n.calls.length n.jobs = 0 :=
    Multiset.filter_eq_nil.mpr fun x hx => (hbelow x hx).ne
  refine ⟨⟨StorageEngine.newCall task, ?_, rfl, ?_⟩, fun k call hk hget => ?_,
    fun x hx _ => hclear.2 x hx⟩
  · simp
  · change Phase _ _ _ _ _ (mine n.calls.length n.jobs) _
    rw [hmine, hnew]
    exact .calling rfl rfl (by rintro _ ⟨⟩)
  · have hmem := List.mem_of_getElem? hget
    rcases List.mem_append.mp hmem with hmem | hmem
    · exact hclear.1 call hmem
    · obtain ⟨hlt, -⟩ := List.getElem?_eq_some_iff.mp hget
      have hlt' : k < n.calls.length := by
        rw [List.length_append, List.length_singleton] at hlt
        omega
      rw [List.getElem?_append_left hlt'] at hget
      exact hclear.1 call (List.mem_of_getElem? hget)

/-- What a failed store leaves behind, at any later time, when no other store of the same file is
under way: the error says it. -/
theorem failed_store_content (config : QueueConfig) (files : GoString → Option Blob)
    (ioWorkers : Nat) (es₀ es : List StorageEngine.Event) (task : WriteTask) (err : StoreError)
    (n₀ n : StorageEngine) (call : Call)
    (h₀ : (StorageEngine.start config files ioWorkers).run es₀ = some n₀)
    (hclear : ∀ path, getSafePath task.key = .ok path → n₀.Clear path)
    (h : n₀.run (.arrive task :: es) = some n)
    (hothers : ∀ task', .arrive task' ∈ es → getSafePath task'.key ≠ getSafePath task.key)
    (hcall : n.calls[n₀.calls.length]? = some call)
    (herr : call.stage = .returned (.error err)) :
    (err.Unopened → n.retrieve task.key = n₀.retrieve task.key) ∧
      (err = .write .copy → ∃ k, n.retrieve task.key = .ok (some (task.body.take k))) ∧
      (err = .write .sync → n.retrieve task.key = .ok (some task.body)) ∧
      (err = .cancelled → n.retrieve task.key = n₀.retrieve task.key ∨
        ∃ k, n.retrieve task.key = .ok (some (task.body.take k))) := by
  obtain ⟨n₁, hstep, hrun⟩ := Option.bind_eq_some_iff.mp h
  unfold StorageEngine.retrieve
  cases hkey : getSafePath task.key with
  | error e =>
    have hstage : (n₁.calls[n₀.calls.length]?).map Call.stage =
        some (.returned (.error .invalidKey)) := by
      cases hstep
      simp [StorageEngine.newCall, hkey]
    have hlast := returned_stays hstage hrun
    rw [hcall, Option.map_some, herr] at hlast
    cases hlast
    exact ⟨fun _ => rfl, by rintro ⟨⟩, by rintro ⟨⟩, by rintro ⟨⟩⟩
  | ok path =>
    have hbelow := jobs_call_lt (fun x hx => by
      rw [jobs_start] at hx
      cases Multiset.notMem_zero _ hx) h₀
    have hstory := (story_start hkey hbelow (hclear path hkey) hstep).run hkey
      (fun task' hmem => hkey ▸ hothers task' hmem) hrun
    obtain ⟨call', hget, -, hphase⟩ := hstory.own
    cases hcall.symm.trans hget
    have hleft := hphase.left herr
    dsimp only
    refine ⟨fun hunopened => ?_, ?_, ?_, ?_⟩
    · have hold : n.files path = n₀.files path := by
        cases err with
        | write e => cases e <;> first | exact hleft | cases hunopened
        | cancelled => cases hunopened
        | _ => exact hleft
      rw [hold]
    · rintro rfl
      obtain ⟨k, hfile⟩ := hleft
      exact ⟨k, congrArg Except.ok hfile⟩
    · rintro rfl
      exact congrArg Except.ok hleft
    · rintro rfl
      exact hleft.imp (congrArg Except.ok) (Exists.imp fun _ => congrArg Except.ok)

/-- The engine with a file, and a store of its key that fails after one byte. -/
def fullEngine : StorageEngine :=
  .start smallConfig (fun path => if path = lit "a" then some [9] else none) 1

def tornRun : List StorageEngine.Event :=
  [.caller 0, .caller 0, .caller 0, .caller 0, .worker 0 .foreground .fail,
    .worker 0 .foreground (.ok 0), .worker 0 .foreground (.ok 0), .worker 0 .foreground .fail,
    .worker 0 .foreground .fail, .worker 0 .foreground .fail, .worker 0 .foreground .fail,
    .caller 0]

theorem failed_store_tears : ∃ n,
    fullEngine.run (.arrive (smallTask 2 .foreground) :: tornRun) = some n ∧
      (n.calls[0]?).map Call.stage = some (.returned (.error (.write .copy))) ∧
      fullEngine.retrieve (lit "a") = .ok (some [9]) ∧ n.retrieve (lit "a") = .ok (some [1]) := by
  have hrun : (fullEngine.run (.arrive (smallTask 2 .foreground) :: tornRun)).any (fun n =>
      (n.calls[0]?).map Call.stage = some (.returned (.error (.write .copy))) ∧
        fullEngine.files (lit "a") = some [9] ∧ n.files (lit "a") = some [1]) = true := by
    decide +kernel
  have hkey : getSafePath (lit "a") = .ok (lit "a") := by decide +kernel
  obtain ⟨n, hn, h⟩ := (Option.any_eq_true _ _).mp hrun
  obtain ⟨hstage, hold, hnew⟩ := of_decide_eq_true h
  refine ⟨n, hn, hstage, ?_, ?_⟩
  · simp only [StorageEngine.retrieve, hkey, hold]
  · simp only [StorageEngine.retrieve, hkey, hnew]

theorem tornRun_content : ∃ n k,
    fullEngine.run (.arrive (smallTask 2 .foreground) :: tornRun) = some n ∧
      n.retrieve (lit "a") = .ok (some ([1, 2].take k)) := by
  have hrun : (fullEngine.run (.arrive (smallTask 2 .foreground) :: tornRun)).any (fun n =>
      (n.calls[0]?).map Call.stage = some (.returned (.error (.write .copy)))) = true := by
    decide +kernel
  obtain ⟨n, hn, h⟩ := (Option.any_eq_true _ _).mp hrun
  obtain ⟨call, hcall, hstage⟩ := Option.map_eq_some_iff.mp (of_decide_eq_true h)
  have hclear : ∀ path, getSafePath (lit "a") = .ok path → fullEngine.Clear path := fun path _ =>
    ⟨nofun, fun x hx => by
      rw [fullEngine, jobs_start] at hx
      cases Multiset.notMem_zero _ hx⟩
  have hcontent := failed_store_content smallConfig _ 1 [] tornRun (smallTask 2 .foreground) _
    fullEngine n call rfl hclear hn (fun task' hmem => by simp [tornRun] at hmem) hcall hstage
  obtain ⟨k, hk⟩ := hcontent.2.1 rfl
  exact ⟨n, k, hn, hk⟩

end Store

end TieredStore.Node.WriteQueue
