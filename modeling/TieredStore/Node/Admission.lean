import TieredStore.Node.WriteQueue

/-!
# The budgets of the write queue

A reservation is a loop around a compare-and-swap on a 64-bit sum, and the comparison with the
limit comes after the addition. So a request whose declared size makes the sum wrap is admitted
(`wrapped_size_admitted`). When no sum can wrap, the counters are the sums of what is reserved and
not yet given back, at every moment of every interleaving (`queue_counters_exact`), and the limits
hold (`queue_limits_kept`).

Every task is held at one place at a time: by its call until it is queued, then by the queue, then
by a worker. `StorageEngine.holding` adds up what the holders have reserved in a budget, and
`Effect` says what one step does to a counter and to this sum.
-/

namespace TieredStore.Node.WriteQueue

open Lib

/-! ## What is reserved -/

/-- The budgets in which a caller has reserved. A budget that is being clamped was given back. -/
def CallStage.held (task : WriteTask) : CallStage → List Budget
  | .reserve | .swap _ | .waiting | .returned _ => []
  | .reserveClass | .swapClass _ => [.total]
  | .enqueue => StorageEngine.budgetsOf task
  | .releasing budgets clamp _ => if clamp then budgets.tail else budgets

/-- The budgets in which a worker's task is reserved. -/
def WorkStage.held (task : WriteTask) : WorkStage → List Budget
  | .opening | .copying _ _ | .syncing => StorageEngine.budgetsOf task
  | .releasing budgets clamp _ => if clamp then budgets.tail else budgets

/-- The part of a budget that the holder of some budgets has. -/
def share (b : Budget) (bytes : Int) (held : List Budget) : Int := if b ∈ held then bytes else 0

@[simp] theorem share_nil (b : Budget) (bytes : Int) : share b bytes [] = 0 := by simp [share]

def Call.share (b : Budget) (call : Call) : Int :=
  WriteQueue.share b call.task.dataBytes (call.stage.held call.task)

def Job.share (b : Budget) (job : Job) : Int :=
  WriteQueue.share b job.task.dataBytes (StorageEngine.budgetsOf job.task)

def Worker.share (b : Budget) : Worker → Int
  | .idle | .blocked => 0
  | .busy job stage => WriteQueue.share b job.task.dataBytes (stage.held job.task)

/-- The call has not returned and has not handed its task on. -/
def CallStage.active : CallStage → Bool
  | .waiting | .returned _ => false
  | _ => true

def Call.load (call : Call) : Int := if call.stage.active then call.task.dataBytes else 0

def Worker.load : Worker → Int
  | .idle | .blocked => 0
  | .busy job _ => job.task.dataBytes

/-- The budget has become negative and is about to be set to 0. -/
def CallStage.clamping (b : Budget) : CallStage → Bool
  | .releasing budgets clamp _ => clamp && budgets.head? = some b
  | _ => false

def WorkStage.clamping (b : Budget) : WorkStage → Bool
  | .releasing budgets clamp _ => clamp && budgets.head? = some b
  | _ => false

def Worker.clamping (b : Budget) : Worker → Bool
  | .busy _ stage => stage.clamping b
  | _ => false

/-- A caller swaps the class counter for a background task only, and gives every budget back
once. -/
def CallStage.Tidy (task : WriteTask) : CallStage → Prop
  | .swapClass _ => task.writeClass = .background
  | .releasing budgets _ _ => budgets.Nodup
  | _ => True

def WorkStage.Tidy : WorkStage → Prop
  | .releasing budgets _ _ => budgets.Nodup
  | _ => True

def Worker.Tidy : Worker → Prop
  | .busy _ stage => stage.Tidy
  | _ => True

namespace StorageEngine

/-- What the queued tasks have reserved in a budget. -/
def queued (n : StorageEngine) (b : Budget) : Int :=
  (n.foregroundWriteQueue.map (Job.share b)).sum + (n.backgroundWriteQueue.map (Job.share b)).sum

/-- What is reserved in a budget and not yet given back. -/
def holding (n : StorageEngine) (b : Budget) : Int :=
  (n.calls.map (Call.share b)).sum + n.queued b + (n.workers.map (Worker.share b)).sum

/-- The limit of a budget. The foreground has none, and one that is not positive does not count. -/
def limit (n : StorageEngine) : Budget → Int
  | .total => n.config.maxQueuedWriteBytes
  | .cls .foreground => 0
  | .cls .background => n.config.maxBackgroundQueuedWriteBytes

/-- The sizes of all requests that are in flight. -/
def inFlight (n : StorageEngine) : Int :=
  (n.calls.map Call.load).sum + (n.foregroundWriteQueue.map fun job => job.task.dataBytes).sum +
    (n.backgroundWriteQueue.map fun job => job.task.dataBytes).sum +
    (n.workers.map Worker.load).sum

/-- Some release has found the counter negative and is about to set it to 0. -/
def Clamping (n : StorageEngine) (b : Budget) : Prop :=
  (∃ call ∈ n.calls, call.stage.clamping b = true) ∨
    ∃ worker ∈ n.workers, worker.clamping b = true

structure Tidy (n : StorageEngine) : Prop where
  calls : ∀ call ∈ n.calls, call.stage.Tidy call.task
  workers : ∀ worker ∈ n.workers, worker.Tidy

end StorageEngine

/-! ## Sums over lists -/

section Sums

variable {α : Type} {l : List α} {i : Nat} {a b : α}

theorem sum_map_set_add {M : Type} [AddCommMonoid M] (f : α → M) (h : l[i]? = some a) :
    ((l.set i b).map f).sum + f a = (l.map f).sum + f b := by
  induction l generalizing i with
  | nil => simp at h
  | cons c l ih =>
    cases i with
    | zero =>
      obtain rfl : c = a := by simpa using h
      simp only [List.set_cons_zero, List.map_cons, List.sum_cons]
      abel
    | succ i =>
      have hrest := ih (i := i) (by simpa using h)
      simp only [List.set_cons_succ, List.map_cons, List.sum_cons]
      rw [add_assoc, hrest, add_assoc]

theorem sum_map_set (f : α → Int) (h : l[i]? = some a) :
    ((l.set i b).map f).sum = (l.map f).sum - f a + f b := by
  have hsum := sum_map_set_add (b := b) f h
  omega

theorem map_modify_eq {β : Type} {f : α → β} {g : α → α} (hg : ∀ a, f (g a) = f a) (l : List α)
    (i : Nat) : (l.modify i g).map f = l.map f := by
  induction l generalizing i with
  | nil => simp
  | cons c l ih => cases i <;> simp [hg, ih]

/-- A set element that agrees with the old one under a function. -/
theorem map_set_eq {β : Type} {f : α → β} (h : l[i]? = some a) (hf : f b = f a) :
    (l.set i b).map f = l.map f := by
  obtain ⟨hi, rfl⟩ := List.getElem?_eq_some_iff.mp h
  rw [List.map_set, hf, ← List.map_set, List.set_getElem_self]

theorem mem_set_cases {c : α} (h : c ∈ l.set i b) : c = b ∨ c ∈ l :=
  (List.mem_or_eq_of_mem_set h).symm

end Sums

/-! ## Steps of the holders -/

section Counters

variable {n n' : StorageEngine} {b b' : Budget} {task : WriteTask} {bytes x δ : Int}

theorem counter_setCounter (n : StorageEngine) (b b' : Budget) (x : Int) :
    (n.setCounter b x).counter b' = if b' = b then x else n.counter b' := by
  rcases b with _ | (_ | _) <;> rcases b' with _ | (_ | _) <;> rfl

/-- The nodes differ in counters only. -/
structure SameTasks (n n' : StorageEngine) : Prop where
  config : n'.config = n.config
  files : n'.files = n.files
  calls : n'.calls = n.calls
  foreground : n'.foregroundWriteQueue = n.foregroundWriteQueue
  background : n'.backgroundWriteQueue = n.backgroundWriteQueue
  workers : n'.workers = n.workers

theorem sameTasks_refl (n : StorageEngine) : SameTasks n n := ⟨rfl, rfl, rfl, rfl, rfl, rfl⟩

theorem sameTasks_setCounter (n : StorageEngine) (b : Budget) (x : Int) :
    SameTasks n (n.setCounter b x) := by
  rcases b with _ | (_ | _) <;> exact ⟨rfl, rfl, rfl, rfl, rfl, rfl⟩

theorem SameTasks.queued (h : SameTasks n n') (b : Budget) : n'.queued b = n.queued b := by
  unfold StorageEngine.queued
  rw [h.foreground, h.background]

/-- What a step does to a counter when the reserved sum changes by `δ`: it leaves both alone, or it
adds `δ` with wrap-around; and it adds only the size of a request that passes the limit. -/
structure Books (n n' : StorageEngine) (b : Budget) (task : WriteTask) (δ : Int) : Prop where
  counter : (n'.counter b = n.counter b ∧ δ = 0) ∨ n'.counter b = wrap64 (n.counter b + δ)
  admits : δ ≤ 0 ∨ δ = task.dataBytes ∧ b ∈ StorageEngine.budgetsOf task ∧
    (0 < n.limit b → n'.counter b ≤ n.limit b)

theorem Books.quiet (h : n'.counter b = n.counter b) : Books n n' b task 0 :=
  ⟨Or.inl ⟨h, rfl⟩, Or.inl le_rfl⟩

/-- A change of another budget. -/
theorem Books.other (h : b ≠ b') : Books n (n.setCounter b' x) b task 0 :=
  Books.quiet (by rw [counter_setCounter, if_neg h])

/-- A budget is given back. -/
theorem Books.back {rest : List Budget} (hbytes : 0 ≤ bytes) (hrest : b' ∉ rest) :
    Books n (n.setCounter b' (wrap64 (n.counter b' + -bytes))) b task
      (share b bytes rest - share b bytes (b' :: rest)) := by
  by_cases hb : b = b'
  · subst hb
    have hδ : share b bytes rest - share b bytes (b :: rest) = -bytes := by simp [share, hrest]
    rw [hδ]
    exact ⟨Or.inr (by rw [counter_setCounter, if_pos rfl]), Or.inl (by omega)⟩
  · have hδ : share b bytes rest - share b bytes (b' :: rest) = 0 := by simp [share, hb]
    rw [hδ]
    exact Books.other hb

theorem share_le_cons {rest : List Budget} (hbytes : 0 ≤ bytes) :
    share b bytes rest ≤ share b bytes (b' :: rest) := by
  unfold share
  by_cases hmem : b ∈ rest
  · rw [if_pos hmem, if_pos (List.mem_cons_of_mem _ hmem)]
  · rw [if_neg hmem]
    split <;> omega

/-- One step of giving back. -/
theorem release_books {budgets left : List Budget} {clamp clamp' : Bool}
    (hnodup : budgets.Nodup) (hbytes : 0 ≤ bytes)
    (hclamp : (clamp && decide (budgets.head? = some b)) = false)
    (h : n.release bytes budgets clamp = (n', left, clamp')) :
    SameTasks n n' ∧ left.Nodup ∧
      Books n n' b task (share b bytes (if clamp' then left.tail else left) -
        share b bytes (if clamp then budgets.tail else budgets)) ∧
      share b bytes (if clamp' then left.tail else left) ≤
        share b bytes (if clamp then budgets.tail else budgets) ∧
      ((clamp' && decide (left.head? = some b)) = true → n'.counter b < 0) := by
  unfold StorageEngine.release at h
  cases budgets with
  | nil =>
    cases h
    exact ⟨sameTasks_refl _, List.nodup_nil, by cases clamp <;> simpa using Books.quiet rfl,
      by simp, by simp⟩
  | cons b' rest =>
    obtain ⟨hb', hrest⟩ := List.nodup_cons.mp hnodup
    cases clamp with
    | true =>
      cases h
      have hne : b ≠ b' := fun heq => by simp [heq] at hclamp
      exact ⟨sameTasks_setCounter _ _ _, hrest, by simpa using Books.other hne, le_rfl, by simp⟩
    | false =>
      dsimp only at h
      split at h
      · cases h
        have hzero : bytes = 0 := by omega
        exact ⟨sameTasks_refl _, hrest, by simpa [share, hzero] using Books.quiet rfl,
          share_le_cons hbytes, by simp⟩
      · split at h
        · rename_i hneg
          cases h
          refine ⟨sameTasks_setCounter _ _ _, hnodup, Books.back hbytes hb',
            share_le_cons hbytes, ?_⟩
          intro hhead
          obtain rfl : b' = b := by simpa using hhead
          rw [counter_setCounter, if_pos rfl]
          exact hneg
        · cases h
          exact ⟨sameTasks_setCounter _ _ _, hrest, Books.back hbytes hb', share_le_cons hbytes,
            by simp⟩

/-- A size that is added to a counter. -/
theorem Books.add {held : List Budget} (hheld : b' ∉ held) (hb' : b' ∈ StorageEngine.budgetsOf task)
    (hlimit : 0 < n.limit b' → wrap64 (n.counter b' + task.dataBytes) ≤ n.limit b') :
    Books n (n.setCounter b' (wrap64 (n.counter b' + task.dataBytes))) b task
      (share b task.dataBytes (b' :: held) - share b task.dataBytes held) := by
  by_cases hb : b = b'
  · subst hb
    have hδ : share b task.dataBytes (b :: held) - share b task.dataBytes held =
        task.dataBytes := by simp [share, hheld]
    rw [hδ]
    refine ⟨Or.inr (by rw [counter_setCounter, if_pos rfl]), Or.inr ⟨rfl, hb', ?_⟩⟩
    rw [counter_setCounter, if_pos rfl]
    exact hlimit
  · have hδ : share b task.dataBytes (b' :: held) - share b task.dataBytes held = 0 := by
      simp [share, hb]
    rw [hδ]
    exact Books.other hb

end Counters

section Queues

variable (n : StorageEngine) (c : WriteClass) (jobs : List Job)

theorem setQueue_keeps : (n.setQueue c jobs).config = n.config ∧
    (n.setQueue c jobs).calls = n.calls ∧ (n.setQueue c jobs).workers = n.workers ∧
    ∀ b, (n.setQueue c jobs).counter b = n.counter b := by
  refine ⟨?_, ?_, ?_, ?_⟩
  · cases c <;> rfl
  · cases c <;> rfl
  · cases c <;> rfl
  · rintro (_ | (_ | _)) <;> cases c <;> rfl

theorem queued_setQueue (b : Budget) : (n.setQueue c jobs).queued b =
    n.queued b - ((n.queue c).map (Job.share b)).sum + (jobs.map (Job.share b)).sum := by
  cases c <;> simp only [StorageEngine.queued, StorageEngine.setQueue, StorageEngine.queue] <;> ring

theorem queued_push (b : Budget) (job : Job) :
    (n.setQueue c (n.queue c ++ [job])).queued b = n.queued b + job.share b := by
  rw [queued_setQueue, List.map_append, List.sum_append, List.map_singleton, List.sum_singleton]
  ring

theorem queued_pop {c : WriteClass} {job : Job} {rest : List Job} (h : n.queue c = job :: rest)
    (b : Budget) : (n.setQueue c rest).queued b = n.queued b - job.share b := by
  rw [queued_setQueue, h, List.map_cons, List.sum_cons]
  ring

end Queues

/-- What a step of a caller does: to the calls and workers nothing, and to a budget what the
caller and the queues hold more of it afterwards. -/
structure CallEffect (n n' : StorageEngine) (b : Budget) (call : Call) (stage : CallStage) :
    Prop where
  config : n'.config = n.config
  calls : n'.calls = n.calls
  workers : n'.workers = n.workers
  tidy : stage.Tidy call.task
  books : Books n n' b call.task (n'.queued b - n.queued b +
    (share b call.task.dataBytes (stage.held call.task) - call.share b))
  clamping : stage.clamping b = true → n'.counter b < 0

theorem dataBytes_nonneg (task : WriteTask) : 0 ≤ task.dataBytes := by
  unfold WriteTask.dataBytes
  split <;> omega

theorem nodup_budgetsOf (task : WriteTask) : (StorageEngine.budgetsOf task).Nodup := by
  simp [StorageEngine.budgetsOf]

/-- The share of the class on top of the total. -/
theorem share_budgetsOf (b : Budget) (bytes : Int) (task : WriteTask) :
    share b bytes (StorageEngine.budgetsOf task) =
      share b bytes (.cls task.writeClass :: [Budget.total]) := by
  simp only [share, StorageEngine.budgetsOf, List.mem_cons, List.not_mem_nil, or_false]
  congr 1
  exact propext or_comm

theorem CallEffect.of_sameTasks {n n' : StorageEngine} {b : Budget} {call : Call}
    {stage : CallStage} (hsame : SameTasks n n') (htidy : stage.Tidy call.task)
    (hbooks : Books n n' b call.task
      (share b call.task.dataBytes (stage.held call.task) - call.share b))
    (hclamping : stage.clamping b = true → n'.counter b < 0) : CallEffect n n' b call stage where
  config := hsame.config
  calls := hsame.calls
  workers := hsame.workers
  tidy := htidy
  books := by
    rw [hsame.queued, sub_self, zero_add]
    exact hbooks
  clamping := hclamping

/-- A step on the stage alone. -/
theorem CallEffect.quiet {n : StorageEngine} {b : Budget} {call : Call} {stage : CallStage}
    (htidy : stage.Tidy call.task)
    (hshare : share b call.task.dataBytes (stage.held call.task) = call.share b)
    (hclamping : stage.clamping b = false) : CallEffect n n b call stage := by
  refine .of_sameTasks (sameTasks_refl n) htidy ?_ fun h => ?_
  · rw [hshare, sub_self]
    exact Books.quiet rfl
  · rw [hclamping] at h
    cases h

theorem callStep_effect {n n' : StorageEngine} {b : Budget} {i : Nat} {call : Call}
    {stage : CallStage} (htidy : call.stage.Tidy call.task) (hclamp : call.stage.clamping b = false)
    (h : n.callStep i call = some (n', stage)) : CallEffect n n' b call stage := by
  obtain ⟨task, stage₀, done⟩ := call
  have hbytes := dataBytes_nonneg task
  cases stage₀ with
  | reserve =>
    simp only [StorageEngine.callStep] at h
    split at h
    · rename_i hlimit
      cases h
      refine .of_sameTasks (sameTasks_setCounter _ _ _) trivial ?_ (fun h => by cases h)
      exact @Books.add n b .total task [] (by simp) (by simp [StorageEngine.budgetsOf]) fun hpos =>
        absurd hpos (by simpa [StorageEngine.limit] using hlimit)
    · cases h
      exact .quiet trivial rfl rfl
  | swap current =>
    simp only [StorageEngine.callStep] at h
    split at h
    · cases h
      exact .quiet trivial rfl rfl
    · rename_i hlimit
      split at h
      · rename_i hcurrent
        subst hcurrent
        cases h
        refine .of_sameTasks (sameTasks_setCounter _ _ _) trivial ?_ (fun h => by cases h)
        exact @Books.add n b .total task [] (by simp) (by simp [StorageEngine.budgetsOf]) fun _ =>
          not_lt.mp hlimit
      · cases h
        exact .quiet trivial rfl rfl
  | reserveClass =>
    simp only [StorageEngine.callStep] at h
    cases hclass : task.writeClass with
    | foreground =>
      rw [hclass] at h
      cases h
      refine .of_sameTasks (sameTasks_setCounter _ _ _) trivial ?_ (fun h => by cases h)
      simp only [Call.share, CallStage.held, share_budgetsOf, hclass]
      exact Books.add (by simp) (by simp [StorageEngine.budgetsOf, hclass]) fun hpos =>
        absurd hpos (by simp [StorageEngine.limit])
    | background =>
      rw [hclass] at h
      dsimp only at h
      split at h
      · rename_i hlimit
        cases h
        refine .of_sameTasks (sameTasks_setCounter _ _ _) trivial ?_ (fun h => by cases h)
        simp only [Call.share, CallStage.held, share_budgetsOf, hclass]
        exact Books.add (by simp) (by simp [StorageEngine.budgetsOf, hclass]) fun hpos =>
          absurd hpos (by simpa [StorageEngine.limit] using hlimit)
      · cases h
        exact .quiet hclass rfl rfl
  | swapClass current =>
    have hclass : task.writeClass = .background := htidy
    simp only [StorageEngine.callStep] at h
    split at h
    · cases h
      exact .quiet (List.nodup_singleton _) rfl rfl
    · rename_i hlimit
      split at h
      · rename_i hcurrent
        subst hcurrent
        cases h
        refine .of_sameTasks (sameTasks_setCounter _ _ _) trivial ?_ (fun h => by cases h)
        simp only [Call.share, CallStage.held, share_budgetsOf, hclass]
        exact Books.add (by simp) (by simp [StorageEngine.budgetsOf, hclass]) fun _ =>
          not_lt.mp hlimit
      · cases h
        exact .quiet trivial rfl rfl
  | enqueue =>
    simp only [StorageEngine.callStep] at h
    split at h
    · -- the queue takes the task over, with what is reserved for it
      cases h
      have hkeep := setQueue_keeps n task.writeClass (n.queue task.writeClass ++ [⟨i, task⟩])
      refine ⟨hkeep.1, hkeep.2.1, hkeep.2.2.1, trivial, ?_, fun h => by cases h⟩
      rw [queued_push]
      have hδ : n.queued b + Job.share b ⟨i, task⟩ - n.queued b +
          (share b task.dataBytes (CallStage.held task .waiting) -
            Call.share b ⟨task, .enqueue, done⟩) = 0 := by
        simp only [Job.share, Call.share, CallStage.held, share_nil]
        ring
      rw [hδ]
      exact Books.quiet (hkeep.2.2.2 b)
    · cases h
      exact .quiet (nodup_budgetsOf task) rfl rfl
  | releasing budgets clamp err =>
    cases budgets with
    | nil =>
      cases h
      refine .of_sameTasks (sameTasks_refl _) trivial ?_ (fun h => by cases h)
      cases clamp <;> simpa [Call.share, CallStage.held] using Books.quiet rfl
    | cons b' rest =>
      simp only [StorageEngine.callStep] at h
      generalize hrel : n.release task.dataBytes (b' :: rest) clamp = r at h
      obtain ⟨n₁, left, clamp'⟩ := r
      cases h
      obtain ⟨hsame, hleft, hbooks, -, hneg⟩ := release_books htidy hbytes hclamp hrel
      exact .of_sameTasks hsame hleft hbooks hneg
  | waiting =>
    simp only [StorageEngine.callStep] at h
    split at h
    · cases h
    · cases h
      exact .quiet trivial rfl rfl
    · cases h
      exact .quiet trivial rfl rfl
  | returned res => cases h

/-- What a step of a worker does: the calls keep what they hold, and a budget changes by what the
worker and the queues hold less of it afterwards. -/
structure WorkerEffect (n n' : StorageEngine) (b : Budget) (worker worker' : Worker) : Prop where
  config : n'.config = n.config
  workers : n'.workers = n.workers
  calls : n'.calls = n.calls ∨
    ∃ i res, n'.calls = n.calls.modify i fun call => { call with done := some res }
  tidy : worker'.Tidy
  counter : (n'.counter b = n.counter b ∧
      n'.queued b + worker'.share b = n.queued b + worker.share b) ∨
    n'.counter b = wrap64 (n.counter b +
      (n'.queued b + worker'.share b - (n.queued b + worker.share b)))
  less : n'.queued b + worker'.share b ≤ n.queued b + worker.share b
  clamping : worker'.clamping b = true → n'.counter b < 0

/-- A step that moves nothing between the holders. -/
theorem WorkerEffect.quiet {n n' : StorageEngine} {b : Budget} {worker worker' : Worker}
    (hsame : SameTasks n { n' with files := n.files }) (htidy : worker'.Tidy)
    (hcounter : n'.counter b = n.counter b) (hshare : worker'.share b = worker.share b)
    (hclamping : worker'.clamping b = false) : WorkerEffect n n' b worker worker' := by
  have hqueued : n'.queued b = n.queued b := hsame.queued b
  refine ⟨hsame.config, hsame.workers, Or.inl hsame.calls, htidy, Or.inl ⟨hcounter, ?_⟩, ?_, ?_⟩
  · rw [hqueued, hshare]
  · rw [hqueued, hshare]
  · intro h
    rw [hclamping] at h
    cases h

theorem take_effect {n n' : StorageEngine} {b : Budget} {c : WriteClass} {worker worker' : Worker}
    (hshare : worker.share b = 0) (h : n.take c = some (n', worker')) :
    WorkerEffect n n' b worker worker' := by
  unfold StorageEngine.take at h
  split at h
  · cases h
  · rename_i job rest hqueue
    cases h
    have hkeep := setQueue_keeps n c rest
    have hsum : (n.setQueue c rest).queued b + (Worker.busy job .opening).share b =
        n.queued b + worker.share b := by
      rw [queued_pop n hqueue, hshare, add_zero]
      exact sub_add_cancel _ _
    exact ⟨hkeep.1, hkeep.2.2.1, Or.inl hkeep.2.1, trivial, Or.inl ⟨hkeep.2.2.2 b, hsum⟩, hsum.le,
      fun h => by cases h⟩

theorem writeStep_effect {n n' : StorageEngine} {b : Budget} {job : Job} {disk : StorageEngine.Disk}
    {stage stage' : WorkStage} (htidy : stage.Tidy) (hclamp : stage.clamping b = false)
    (h : n.writeStep job.task disk stage = (n', stage')) :
    WorkerEffect n n' b (.busy job stage) (.busy job stage') := by
  cases stage with
  | opening =>
    simp only [StorageEngine.writeStep] at h
    split at h
    · cases h
      exact .quiet (sameTasks_refl n) (nodup_budgetsOf _) rfl rfl rfl
    · cases h
      exact .quiet (sameTasks_refl n) (nodup_budgetsOf _) rfl rfl rfl
    · cases h
      exact .quiet (sameTasks_refl n) trivial rfl rfl rfl
  | copying path written =>
    simp only [StorageEngine.writeStep] at h
    split at h
    · cases h
      exact .quiet (sameTasks_refl n) (nodup_budgetsOf _) rfl rfl rfl
    · split at h
      · split at h
        · cases h
          exact .quiet (sameTasks_refl n) (nodup_budgetsOf _) rfl rfl rfl
        · cases h
          exact .quiet (sameTasks_refl n) trivial rfl rfl rfl
      · cases h
        exact .quiet (sameTasks_refl n) trivial rfl rfl rfl
  | syncing =>
    simp only [StorageEngine.writeStep] at h
    split at h
    · cases h
      exact .quiet (sameTasks_refl n) (nodup_budgetsOf _) rfl rfl rfl
    · cases h
      exact .quiet (sameTasks_refl n) (nodup_budgetsOf _) rfl rfl rfl
  | releasing budgets clamp res =>
    simp only [StorageEngine.writeStep] at h
    generalize hrel : n.release job.task.dataBytes budgets clamp = r at h
    obtain ⟨n₁, left, clamp'⟩ := r
    cases h
    obtain ⟨hsame, hleft, hbooks, hless, hneg⟩ :=
      @release_books n n₁ b job.task _ _ _ _ _ htidy (dataBytes_nonneg job.task) hclamp hrel
    refine ⟨hsame.config, hsame.workers, Or.inl hsame.calls, hleft, ?_, ?_, hneg⟩
    · rw [hsame.queued, add_sub_add_left_eq_sub]
      exact hbooks.counter.imp (fun h => ⟨h.1, congrArg _ (sub_eq_zero.mp h.2)⟩) id
    · rw [hsame.queued]
      exact Int.add_le_add_left hless _

/-- A step of a worker that has not finished. -/
theorem workerStep_busy (n : StorageEngine) (pick : WriteClass) (disk : StorageEngine.Disk)
    {job : Job} {stage : WorkStage} (h : ¬ ∃ clamp res, stage = .releasing [] clamp res) :
    n.workerStep pick disk (.busy job stage) =
      some ((n.writeStep job.task disk stage).1,
        .busy job (n.writeStep job.task disk stage).2) := by
  cases stage with
  | releasing budgets clamp res =>
    cases budgets with
    | nil => exact absurd ⟨clamp, res, rfl⟩ h
    | cons b rest => rfl
  | _ => rfl

theorem workerStep_effect {n n' : StorageEngine} {b : Budget} {pick : WriteClass}
    {disk : StorageEngine.Disk} {worker worker' : Worker} (htidy : worker.Tidy)
    (hclamp : worker.clamping b = false)
    (h : n.workerStep pick disk worker = some (n', worker')) :
    WorkerEffect n n' b worker worker' := by
  cases worker with
  | idle =>
    simp only [StorageEngine.workerStep] at h
    split at h
    · rename_i next htake
      cases h
      exact take_effect rfl htake
    · cases h
      exact .quiet (sameTasks_refl n) trivial rfl rfl rfl
  | blocked => exact take_effect rfl h
  | busy job stage =>
    by_cases hend : ∃ clamp res, stage = .releasing [] clamp res
    · obtain ⟨clamp, res, rfl⟩ := hend
      cases h
      have hshare : (Worker.busy job (.releasing [] clamp res)).share b = 0 := by
        cases clamp <;> exact share_nil _ _
      refine ⟨rfl, rfl, Or.inr ⟨_, _, rfl⟩, trivial, Or.inl ⟨rfl, ?_⟩, ?_, fun h => by cases h⟩
      · rw [hshare]
        rfl
      · rw [hshare]
        exact le_rfl
    · rw [workerStep_busy n pick disk hend] at h
      cases h
      exact writeStep_effect htidy hclamp rfl

/-! ## The whole node -/

/-- The tasks that come with an event. -/
def StorageEngine.Event.arrivals : StorageEngine.Event → List WriteTask
  | .arrive task => [task]
  | _ => []

/-- What a step does to a budget that is not being clamped. -/
structure Effect (n : StorageEngine) (e : StorageEngine.Event) (n' : StorageEngine) (b : Budget) :
    Prop where
  config : n'.config = n.config
  tasks : n'.calls.map Call.task = n.calls.map Call.task ++ e.arrivals
  tidy : n'.Tidy
  counter : (n'.counter b = n.counter b ∧ n'.holding b = n.holding b) ∨
    n'.counter b = wrap64 (n.counter b + (n'.holding b - n.holding b))
  admits : n'.holding b ≤ n.holding b ∨ ∃ call ∈ n.calls, b ∈ StorageEngine.budgetsOf call.task ∧
    n'.holding b = n.holding b + call.task.dataBytes ∧ (0 < n.limit b → n'.counter b ≤ n.limit b)
  clamping : n'.Clamping b → n'.counter b < 0

section Steps

variable {n n' : StorageEngine} {b : Budget} {e : StorageEngine.Event}

theorem newCall_stage (task : WriteTask) : (StorageEngine.newCall task).stage = .reserve ∨
    ∃ res, (StorageEngine.newCall task).stage = .returned res := by
  simp only [StorageEngine.newCall]
  split
  · exact Or.inr ⟨_, rfl⟩
  · exact Or.inl rfl

/-- A new call holds nothing. -/
theorem effect_arrive (htidy : n.Tidy) (hclamp : ¬ n.Clamping b) (task : WriteTask) :
    Effect n (.arrive task) { n with calls := n.calls ++ [StorageEngine.newCall task] } b := by
  have hnew : (StorageEngine.newCall task).share b = 0 ∧
      (StorageEngine.newCall task).stage.clamping b = false ∧
      (StorageEngine.newCall task).stage.Tidy task := by
    unfold Call.share
    rcases newCall_stage task with hstage | ⟨res, hstage⟩ <;> rw [hstage] <;>
      exact ⟨share_nil _ _, rfl, trivial⟩
  have hholding : StorageEngine.holding
      { n with calls := n.calls ++ [StorageEngine.newCall task] } b = n.holding b := by
    simp only [StorageEngine.holding, StorageEngine.queued, List.map_append, List.map_singleton,
      List.sum_append, List.sum_singleton, hnew.1, add_zero]
  refine ⟨rfl, ?_, ⟨?_, htidy.workers⟩, Or.inl ⟨rfl, hholding⟩, Or.inl hholding.le, ?_⟩
  · rw [List.map_append]
    rfl
  · intro call hmem
    rcases List.mem_append.mp hmem with hmem | hmem
    · exact htidy.calls call hmem
    · cases List.mem_singleton.mp hmem
      exact hnew.2.2
  · rintro (⟨call, hmem, hc⟩ | hworker)
    · rcases List.mem_append.mp hmem with hmem | hmem
      · exact absurd (Or.inl ⟨call, hmem, hc⟩) hclamp
      · cases List.mem_singleton.mp hmem
        rw [hnew.2.1] at hc
        cases hc
    · exact absurd (Or.inr hworker) hclamp

theorem effect_caller {i : Nat} {call : Call} {stage : CallStage} (htidy : n.Tidy)
    (hclamp : ¬ n.Clamping b) (hget : n.calls[i]? = some call) (he : e.arrivals = [])
    (h : CallEffect n n' b call stage) :
    Effect n e { n' with calls := n'.calls.set i { call with stage := stage } } b := by
  have hsum := sum_map_set (b := { call with stage := stage }) (Call.share b) hget
  have hδ : StorageEngine.holding
      { n' with calls := n'.calls.set i { call with stage := stage } } b - n.holding b =
        n'.queued b - n.queued b +
          (share b call.task.dataBytes (stage.held call.task) - call.share b) := by
    simp only [StorageEngine.holding, h.calls, h.workers, hsum]
    change _ - _ + share b call.task.dataBytes (stage.held call.task) + n'.queued b + _ - _ = _
    ring
  refine ⟨h.config, ?_, ⟨?_, ?_⟩, ?_, ?_, ?_⟩
  · rw [he, List.append_nil, h.calls]
    exact map_set_eq hget rfl
  · intro call' hmem
    rw [h.calls] at hmem
    rcases mem_set_cases hmem with rfl | hmem
    · exact h.tidy
    · exact htidy.calls call' hmem
  · rw [h.workers]
    exact htidy.workers
  · rw [hδ]
    exact h.books.counter.imp (fun hq => ⟨hq.1, sub_eq_zero.mp (hδ.trans hq.2)⟩) id
  · rcases h.books.admits with hle | ⟨heq, hmem, hlimit⟩
    · exact Or.inl (by omega)
    · exact Or.inr ⟨call, List.mem_of_getElem? hget, hmem, by omega, hlimit⟩
  · rintro (⟨call', hmem, hc⟩ | ⟨worker, hmem, hc⟩)
    · rw [h.calls] at hmem
      rcases mem_set_cases hmem with rfl | hmem
      · exact h.clamping hc
      · exact absurd (Or.inl ⟨call', hmem, hc⟩) hclamp
    · rw [h.workers] at hmem
      exact absurd (Or.inr ⟨worker, hmem, hc⟩) hclamp

/-- A worker changes the reports of the calls at most. -/
theorem WorkerEffect.map_calls {β : Type} {f : Call → β} {worker worker' : Worker}
    (h : WorkerEffect n n' b worker worker')
    (hf : ∀ call res, f { call with done := some res } = f call) :
    n'.calls.map f = n.calls.map f := by
  rcases h.calls with hcalls | ⟨i, res, hcalls⟩
  · rw [hcalls]
  · rw [hcalls]
    exact map_modify_eq (fun call => hf call res) _ _

theorem effect_worker {j : Nat} {worker worker' : Worker} (htidy : n.Tidy)
    (hclamp : ¬ n.Clamping b) (hget : n.workers[j]? = some worker) (he : e.arrivals = [])
    (h : WorkerEffect n n' b worker worker') :
    Effect n e { n' with workers := n'.workers.set j worker' } b := by
  have hsum := sum_map_set (b := worker') (Worker.share b) hget
  have hcalls := h.map_calls (f := Call.share b) fun _ _ => rfl
  have hstages := h.map_calls (f := fun call => (call.task, call.stage)) fun _ _ => rfl
  have hstage : ∀ call ∈ n'.calls, ∃ call₀ ∈ n.calls,
      call₀.task = call.task ∧ call₀.stage = call.stage := fun call hmem => by
    have hin : (call.task, call.stage) ∈ n'.calls.map fun call => (call.task, call.stage) :=
      List.mem_map.mpr ⟨call, hmem, rfl⟩
    rw [hstages] at hin
    obtain ⟨call₀, hmem₀, heq⟩ := List.mem_map.mp hin
    exact ⟨call₀, hmem₀, (Prod.mk.inj heq).1, (Prod.mk.inj heq).2⟩
  have hδ : StorageEngine.holding { n' with workers := n'.workers.set j worker' } b - n.holding b =
      n'.queued b + worker'.share b - (n.queued b + worker.share b) := by
    simp only [StorageEngine.holding, hcalls, h.workers, hsum]
    change _ + n'.queued b + _ - _ = _
    ring
  refine ⟨h.config, ?_, ⟨?_, ?_⟩, ?_, Or.inl ?_, ?_⟩
  · rw [he, List.append_nil]
    exact h.map_calls fun _ _ => rfl
  · intro call hmem
    obtain ⟨call₀, hmem₀, htask, hstage⟩ := hstage call hmem
    rw [← htask, ← hstage]
    exact htidy.calls call₀ hmem₀
  · intro worker₁ hmem
    rw [h.workers] at hmem
    rcases mem_set_cases hmem with rfl | hmem
    · exact h.tidy
    · exact htidy.workers worker₁ hmem
  · rw [hδ]
    exact h.counter.imp (fun hq => ⟨hq.1, sub_eq_zero.mp (hδ.trans (sub_eq_zero.mpr hq.2))⟩) id
  · have hless := h.less
    omega
  · rintro (⟨call, hmem, hc⟩ | ⟨worker₁, hmem, hc⟩)
    · obtain ⟨call₀, hmem₀, -, hstage⟩ := hstage call hmem
      exact absurd (Or.inl ⟨call₀, hmem₀, hstage ▸ hc⟩) hclamp
    · rw [h.workers] at hmem
      rcases mem_set_cases hmem with rfl | hmem
      · exact h.clamping hc
      · exact absurd (Or.inr ⟨worker₁, hmem, hc⟩) hclamp

theorem step_caller {i : Nat} (h : n.step (.caller i) = some n') : ∃ call n₁ stage,
    n.calls[i]? = some call ∧ n.callStep i call = some (n₁, stage) ∧
      n' = { n₁ with calls := n₁.calls.set i { call with stage := stage } } := by
  obtain ⟨call, hget, h⟩ := Option.bind_eq_some_iff.mp h
  obtain ⟨⟨n₁, stage⟩, hstep, h⟩ := Option.bind_eq_some_iff.mp h
  exact ⟨call, n₁, stage, hget, hstep, (Option.some.inj h).symm⟩

theorem step_cancel {i : Nat} (h : n.step (.cancel i) = some n') : ∃ call,
    n.calls[i]? = some call ∧ call.stage = .waiting ∧ n' =
      { n with calls := n.calls.set i { call with stage := .returned (.error .cancelled) } } := by
  obtain ⟨call, hget, h⟩ := Option.bind_eq_some_iff.mp h
  split at h
  · rename_i hstage
    exact ⟨call, hget, hstage, (Option.some.inj h).symm⟩
  · cases h

theorem step_worker {j : Nat} {pick : WriteClass} {disk : StorageEngine.Disk}
    (h : n.step (.worker j pick disk) = some n') : ∃ worker n₁ worker',
      n.workers[j]? = some worker ∧ n.workerStep pick disk worker = some (n₁, worker') ∧
        n' = { n₁ with workers := n₁.workers.set j worker' } := by
  obtain ⟨worker, hget, h⟩ := Option.bind_eq_some_iff.mp h
  obtain ⟨⟨n₁, worker'⟩, hstep, h⟩ := Option.bind_eq_some_iff.mp h
  exact ⟨worker, n₁, worker', hget, hstep, (Option.some.inj h).symm⟩

theorem step_effect (htidy : n.Tidy) (hclamp : ¬ n.Clamping b) (h : n.step e = some n') :
    Effect n e n' b := by
  cases e with
  | arrive task =>
    cases h
    exact effect_arrive htidy hclamp task
  | caller i =>
    obtain ⟨call, n₁, stage, hget, hstep, rfl⟩ := step_caller h
    have hmem := List.mem_of_getElem? hget
    have hquiet : call.stage.clamping b = false :=
      Bool.eq_false_iff.mpr fun hc => hclamp (Or.inl ⟨call, hmem, hc⟩)
    exact effect_caller htidy hclamp hget rfl (callStep_effect (htidy.calls call hmem) hquiet hstep)
  | cancel i =>
    obtain ⟨call, hget, hstage, rfl⟩ := step_cancel h
    refine effect_caller htidy hclamp hget rfl (.quiet trivial ?_ rfl)
    unfold Call.share
    rw [hstage]
    rfl
  | worker j pick disk =>
    obtain ⟨worker, n₁, worker', hget, hstep, rfl⟩ := step_worker h
    have hmem := List.mem_of_getElem? hget
    have hquiet : worker.clamping b = false :=
      Bool.eq_false_iff.mpr fun hc => hclamp (Or.inr ⟨worker, hmem, hc⟩)
    exact effect_worker htidy hclamp hget rfl
      (workerStep_effect (htidy.workers worker hmem) hquiet hstep)

/-! ## Exact counters -/

/-- The counter is the reserved sum, and no release sets it to 0. -/
structure Exact (n : StorageEngine) (b : Budget) : Prop where
  counter : n.counter b = n.holding b
  quiet : ¬ n.Clamping b

theorem share_nonneg {bytes : Int} (hbytes : 0 ≤ bytes) (held : List Budget) :
    0 ≤ share b bytes held := by
  unfold share
  split <;> omega

theorem share_le {bytes : Int} (hbytes : 0 ≤ bytes) (held : List Budget) :
    share b bytes held ≤ bytes := by
  unfold share
  split <;> omega

theorem worker_share_nonneg (worker : Worker) : 0 ≤ worker.share b := by
  cases worker with
  | busy job stage => exact share_nonneg (dataBytes_nonneg _) _
  | _ => exact le_rfl

theorem holding_nonneg (n : StorageEngine) (b : Budget) : 0 ≤ n.holding b := by
  have hcall : ∀ call : Call, 0 ≤ call.share b := fun _ => share_nonneg (dataBytes_nonneg _) _
  have hjob : ∀ job : Job, 0 ≤ job.share b := fun _ => share_nonneg (dataBytes_nonneg _) _
  have hcalls : 0 ≤ (n.calls.map (Call.share b)).sum :=
    List.sum_nonneg (by simpa using fun call _ => hcall call)
  have hforeground : 0 ≤ (n.foregroundWriteQueue.map (Job.share b)).sum :=
    List.sum_nonneg (by simpa using fun job _ => hjob job)
  have hbackground : 0 ≤ (n.backgroundWriteQueue.map (Job.share b)).sum :=
    List.sum_nonneg (by simpa using fun job _ => hjob job)
  have hworkers : 0 ≤ (n.workers.map (Worker.share b)).sum :=
    List.sum_nonneg (by simpa using fun worker _ => worker_share_nonneg worker)
  unfold StorageEngine.holding StorageEngine.queued
  omega

theorem call_share_le (call : Call) : call.share b ≤ call.load := by
  have hbytes := dataBytes_nonneg call.task
  obtain ⟨task, stage, done⟩ := call
  cases stage with
  | waiting => exact (share_nil _ _).le
  | returned res => exact (share_nil _ _).le
  | _ => exact share_le hbytes _

theorem worker_share_le (worker : Worker) : worker.share b ≤ worker.load := by
  cases worker with
  | busy job stage => exact share_le (dataBytes_nonneg _) _
  | _ => exact le_rfl

theorem holding_le_inFlight (n : StorageEngine) (b : Budget) : n.holding b ≤ n.inFlight := by
  have hjob : ∀ job : Job, job.share b ≤ job.task.dataBytes := fun _ =>
    share_le (dataBytes_nonneg _) _
  have hcalls : (n.calls.map (Call.share b)).sum ≤ (n.calls.map Call.load).sum :=
    List.sum_le_sum fun call _ => call_share_le call
  have hforeground := List.sum_le_sum (l := n.foregroundWriteQueue) fun job _ => hjob job
  have hbackground := List.sum_le_sum (l := n.backgroundWriteQueue) fun job _ => hjob job
  have hworkers : (n.workers.map (Worker.share b)).sum ≤ (n.workers.map Worker.load).sum :=
    List.sum_le_sum fun worker _ => worker_share_le worker
  unfold StorageEngine.holding StorageEngine.queued StorageEngine.inFlight
  omega

/-- A counter stays exact as long as the reserved sum is a 64-bit number. -/
theorem Exact.step (h : Exact n b) (heffect : Effect n e n' b) (hlt : n'.holding b < 2 ^ 63) :
    Exact n' b := by
  have hnonneg := holding_nonneg n' b
  have hcounter : n'.counter b = n'.holding b := by
    rcases heffect.counter with ⟨hcounter, hholding⟩ | hcounter
    · rw [hcounter, hholding, h.counter]
    · rw [hcounter, h.counter, add_sub_cancel, wrap64_eq_self (by omega) hlt]
  refine ⟨hcounter, fun hclamp => ?_⟩
  have hneg := heffect.clamping hclamp
  omega

theorem exact_start (config : QueueConfig) (files : GoString → Option Blob) (ioWorkers : Nat)
    (b : Budget) : Exact (StorageEngine.start config files ioWorkers) b ∧
      (StorageEngine.start config files ioWorkers).holding b = 0 ∧
      (StorageEngine.start config files ioWorkers).Tidy := by
  have hidle : ∀ worker ∈ (StorageEngine.start config files ioWorkers).workers, worker = .idle :=
    fun worker hmem => List.eq_of_mem_replicate hmem
  have hcounter : (StorageEngine.start config files ioWorkers).counter b = 0 := by
    rcases b with _ | (_ | _) <;> rfl
  have hholding : (StorageEngine.start config files ioWorkers).holding b = 0 := by
    have hworkers :
        ((StorageEngine.start config files ioWorkers).workers.map (Worker.share b)).sum = 0 := by
      simp [StorageEngine.start, Worker.share]
    unfold StorageEngine.holding
    rw [hworkers]
    rfl
  refine ⟨⟨hcounter.trans hholding.symm, ?_⟩, hholding, ⟨by simp [StorageEngine.start], ?_⟩⟩
  · rintro (⟨call, hmem, -⟩ | ⟨worker, hmem, hc⟩)
    · cases hmem
    · rw [hidle worker hmem] at hc
      cases hc
  · intro worker hmem
    rw [hidle worker hmem]
    trivial

theorem run_append (n : StorageEngine) (es es' : List StorageEngine.Event) :
    n.run (es ++ es') = (n.run es).bind fun m => m.run es' := by
  induction es generalizing n with
  | nil => rfl
  | cons e es ih => simp [StorageEngine.run, Option.bind_assoc, ih]

/-- The last step of a run. -/
theorem run_concat {n m : StorageEngine} {es : List StorageEngine.Event}
    (h : n.run (es ++ [e]) = some m) :
    ∃ n₁, n.run es = some n₁ ∧ n₁.step e = some m := by
  rw [run_append] at h
  obtain ⟨n₁, hrun, hstep⟩ := Option.bind_eq_some_iff.mp h
  simp only [StorageEngine.run, Option.bind_fun_some] at hstep
  exact ⟨n₁, hrun, hstep⟩

/-- No request is in flight: no caller is before the queue, and no task is queued or written. -/
def StorageEngine.Idle (n : StorageEngine) : Prop :=
  (∀ call ∈ n.calls, call.stage.active = false) ∧ n.foregroundWriteQueue = [] ∧
    n.backgroundWriteQueue = [] ∧ ∀ worker ∈ n.workers, worker = .idle ∨ worker = .blocked

theorem holding_idle (h : n.Idle) (b : Budget) : n.holding b = 0 := by
  obtain ⟨hcalls, hforeground, hbackground, hworkers⟩ := h
  have hcalls : (n.calls.map (Call.share b)).sum = 0 := List.sum_eq_zero fun x hx => by
    obtain ⟨call, hmem, rfl⟩ := List.mem_map.mp hx
    have hload : call.load = 0 := by simp [Call.load, hcalls call hmem]
    have hnonneg : 0 ≤ call.share b := share_nonneg (dataBytes_nonneg _) _
    have hle := call_share_le (b := b) call
    omega
  have hworkers : (n.workers.map (Worker.share b)).sum = 0 := List.sum_eq_zero fun x hx => by
    obtain ⟨worker, hmem, rfl⟩ := List.mem_map.mp hx
    rcases hworkers worker hmem with rfl | rfl <;> rfl
  simp [StorageEngine.holding, StorageEngine.queued, hcalls, hworkers, hforeground, hbackground]

variable {config : QueueConfig} {files : GoString → Option Blob} {ioWorkers : Nat}

/-- Every counter is exact after every run whose requests in flight never sum up to 2^63. -/
theorem exact_run {es : List StorageEngine.Event}
    (hsum : ∀ es₁ m, es₁ <+: es → (StorageEngine.start config files ioWorkers).run es₁ = some m →
      m.inFlight < 2 ^ 63)
    (h : (StorageEngine.start config files ioWorkers).run es = some n) :
    n.Tidy ∧ ∀ b, Exact n b := by
  induction es using List.reverseRecOn generalizing n with
  | nil =>
    cases h
    exact ⟨(exact_start config files ioWorkers .total).2.2,
      fun b => (exact_start config files ioWorkers b).1⟩
  | append_singleton es e ih =>
    obtain ⟨n₁, hrun, hstep⟩ := run_concat h
    obtain ⟨htidy, hexact⟩ := ih (fun es₁ m hle => hsum es₁ m
      (hle.trans (List.prefix_append es [e]))) hrun
    have heffect := fun b => step_effect htidy (hexact b).quiet hstep
    have hlt := hsum (es ++ [e]) n List.prefix_rfl h
    exact ⟨(heffect .total).tidy, fun b =>
      (hexact b).step (heffect b) ((holding_le_inFlight n b).trans_lt hlt)⟩

/-- The accounting of the queue is exact. As long as the sizes in flight stay below 2^63, every
counter is what has been reserved and not yet given back, in every state of every interleaving;
no counter is ever set to 0 by a release; and an idle node counts 0. -/
theorem queue_counters_exact (config : QueueConfig) (files : GoString → Option Blob)
    (ioWorkers : Nat) (es : List StorageEngine.Event) (n : StorageEngine)
    (hsum : ∀ es₁ m, es₁ <+: es → (StorageEngine.start config files ioWorkers).run es₁ = some m →
      m.inFlight < 2 ^ 63)
    (h : (StorageEngine.start config files ioWorkers).run es = some n) :
    n.queuedWriteBytes = n.holding .total ∧
      n.queuedForegroundWriteBytes = n.holding (.cls .foreground) ∧
      n.queuedBackgroundWriteBytes = n.holding (.cls .background) ∧
      (∀ b, ¬ n.Clamping b) ∧
      (n.Idle → n.queuedWriteBytes = 0 ∧ n.queuedForegroundWriteBytes = 0 ∧
        n.queuedBackgroundWriteBytes = 0) := by
  obtain ⟨-, hexact⟩ := exact_run hsum h
  have htotal : n.queuedWriteBytes = n.holding .total := (hexact .total).counter
  have hforeground : n.queuedForegroundWriteBytes = n.holding (.cls .foreground) :=
    (hexact (.cls .foreground)).counter
  have hbackground : n.queuedBackgroundWriteBytes = n.holding (.cls .background) :=
    (hexact (.cls .background)).counter
  refine ⟨htotal, hforeground, hbackground, fun b => (hexact b).quiet, fun hidle => ?_⟩
  rw [htotal, hforeground, hbackground]
  exact ⟨holding_idle hidle _, holding_idle hidle _, holding_idle hidle _⟩

def smallConfig : QueueConfig where
  maxQueuedWriteBytes := 100
  maxBackgroundQueuedWriteBytes := 10
  durabilityMode := .write

def smallEngine : StorageEngine := .start smallConfig (fun _ => none) 1

def smallTask (sizeBytes : Int) (writeClass : WriteClass) : WriteTask :=
  ⟨lit "a", [1, 2], sizeBytes, writeClass⟩

/-- A foreground request that is written, next to a background request that its class refuses and
a request that is cancelled while it waits. -/
def busyRun : List StorageEngine.Event :=
  [.arrive (smallTask 2 .foreground), .arrive (smallTask 20 .background), .caller 0, .caller 1,
    .caller 0, .caller 1, .caller 0, .caller 1, .caller 1, .caller 0, .worker 0 .foreground .fail,
    .caller 1, .caller 1, .caller 1, .worker 0 .foreground (.ok 0), .worker 0 .foreground (.ok 0),
    .caller 1, .arrive (smallTask 5 .background), .caller 2, .caller 2, .caller 2,
    .caller 2, .caller 2, .cancel 2]

theorem busyRun_runs : ∃ n, smallEngine.run busyRun = some n ∧
    n.queuedWriteBytes = 7 ∧ n.queuedBackgroundWriteBytes = 5 := by
  have hrun : (smallEngine.run busyRun).any (fun n =>
      n.queuedWriteBytes = 7 ∧ n.queuedBackgroundWriteBytes = 5) = true := by decide +kernel
  obtain ⟨n, hn, hcounters⟩ := (Option.any_eq_true _ _).mp hrun
  exact ⟨n, hn, of_decide_eq_true hcounters⟩

theorem busyRun_exact : ∃ n, smallEngine.run busyRun = some n ∧
    n.holding .total = 7 ∧ n.holding (.cls .background) = 5 := by
  have hall : ∀ es₁ ∈ busyRun.inits, (smallEngine.run es₁).all
      (fun m => m.inFlight < 2 ^ 63) = true := by decide +kernel
  obtain ⟨n, hn, htotal, hbackground⟩ := busyRun_runs
  have hexact := queue_counters_exact smallConfig (fun _ => none) 1 busyRun n
    (fun es₁ m hle hrun => by
      have hrun : smallEngine.run es₁ = some m := hrun
      have hsum := hall es₁ ((List.mem_inits _ _).mpr hle)
      rw [hrun] at hsum
      simpa using hsum) hn
  exact ⟨n, hn, hexact.1 ▸ htotal, hexact.2.2.1 ▸ hbackground⟩

/-! ## The limits -/

/-- The sum of a request and a limit it is checked against is a 64-bit number. -/
def Fits (config : QueueConfig) (task : WriteTask) : Prop :=
  task.dataBytes + config.maxQueuedWriteBytes < 2 ^ 63 ∧
    (task.writeClass = .background →
      task.dataBytes + config.maxBackgroundQueuedWriteBytes < 2 ^ 63)

/-- What holds in every state of a run in which every request fits. -/
structure Kept (config : QueueConfig) (n : StorageEngine) (b : Budget) : Prop where
  same : n.config = config
  tidy : n.Tidy
  exact : Exact n b
  fits : ∀ call ∈ n.calls, Fits config call.task
  lt : n.holding b < 2 ^ 63
  le : n.holding b ≤ n.limit b

theorem fits_limit {task : WriteTask} (h : Fits n.config task) (hlimit : 0 < n.limit b)
    (hb : b ∈ StorageEngine.budgetsOf task) : task.dataBytes + n.limit b < 2 ^ 63 := by
  rcases b with _ | (_ | _)
  · exact h.1
  · cases hlimit
  · have hclass : task.writeClass = .background := by
      simpa [StorageEngine.budgetsOf, eq_comm] using hb
    exact h.2 hclass

theorem Kept.step (h : Kept config n b) (hlimit : 0 < n.limit b)
    (hfits : ∀ task ∈ e.arrivals, Fits config task) (hstep : n.step e = some n') :
    Kept config n' b := by
  have heffect := step_effect h.tidy h.exact.quiet hstep
  have hlimit' : n'.limit b = n.limit b := by
    unfold StorageEngine.limit
    rw [heffect.config]
  have hfits' : ∀ call ∈ n'.calls, Fits config call.task := fun call hmem => by
    have hin : call.task ∈ n'.calls.map Call.task := List.mem_map_of_mem hmem
    rw [heffect.tasks] at hin
    rcases List.mem_append.mp hin with hin | hin
    · obtain ⟨call₀, hmem₀, htask⟩ := List.mem_map.mp hin
      exact htask ▸ h.fits call₀ hmem₀
    · exact hfits _ hin
  -- the sum stays a 64-bit number, so that the counter that was compared is the sum
  have hlt : n'.holding b < 2 ^ 63 := by
    rcases heffect.admits with hle | ⟨call, hmem, hb, hadd, -⟩
    · exact hle.trans_lt h.lt
    · have hsum := fits_limit (h.same.symm ▸ h.fits call hmem) hlimit hb
      have hle := h.le
      omega
  have hexact := h.exact.step heffect hlt
  refine ⟨heffect.config.trans h.same, heffect.tidy, hexact, hfits', hlt, ?_⟩
  rw [hlimit']
  rcases heffect.admits with hle | ⟨call, hmem, hb, hadd, hcompared⟩
  · exact hle.trans h.le
  · exact hexact.counter.symm.le.trans (hcompared hlimit)

theorem Kept.run {es : List StorageEngine.Event} (h : Kept config n b) (hlimit : 0 < n.limit b)
    (hfits : ∀ task, StorageEngine.Event.arrive task ∈ es → Fits config task)
    (hrun : n.run es = some n') :
    Kept config n' b := by
  induction es generalizing n with
  | nil =>
    cases hrun
    exact h
  | cons e es ih =>
    obtain ⟨n₁, hstep, hrest⟩ := Option.bind_eq_some_iff.mp hrun
    have hfirst : ∀ task ∈ e.arrivals, Fits config task := fun task hmem => by
      cases e with
      | arrive task' =>
        cases List.mem_singleton.mp hmem
        exact hfits task (List.mem_cons_self ..)
      | _ => cases hmem
    have h₁ := h.step hlimit hfirst hstep
    refine ih h₁ ?_ (fun task hmem => hfits task (List.mem_cons_of_mem _ hmem)) hrest
    have hlimit₁ : n₁.limit b = n.limit b := by
      unfold StorageEngine.limit
      rw [h₁.same, h.same]
    exact hlimit₁ ▸ hlimit

theorem kept_start (hlimit : 0 < (StorageEngine.start config files ioWorkers).limit b) :
    Kept config (StorageEngine.start config files ioWorkers) b := by
  obtain ⟨hexact, hholding, htidy⟩ := exact_start config files ioWorkers b
  refine ⟨rfl, htidy, hexact, (fun call hmem => nomatch hmem), ?_, ?_⟩
  · rw [hholding]
    decide
  · rw [hholding]
    exact hlimit.le

/-- The limits are kept in every interleaving, as long as no sum of a declared size and a limit
wraps. -/
theorem queue_limits_kept (config : QueueConfig) (files : GoString → Option Blob)
    (ioWorkers : Nat) (es : List StorageEngine.Event) (n : StorageEngine)
    (htotal : 0 < config.maxQueuedWriteBytes)
    (hbackground : 0 < config.maxBackgroundQueuedWriteBytes)
    (hfits : ∀ task, StorageEngine.Event.arrive task ∈ es → Fits config task)
    (h : (StorageEngine.start config files ioWorkers).run es = some n) :
    n.holding .total ≤ config.maxQueuedWriteBytes ∧
      n.holding (.cls .background) ≤ config.maxBackgroundQueuedWriteBytes := by
  have htotal := (@kept_start .total config files ioWorkers htotal).run htotal hfits h
  have hbackground :=
    (@kept_start (.cls .background) config files ioWorkers hbackground).run hbackground hfits h
  exact ⟨htotal.same ▸ htotal.le, hbackground.same ▸ hbackground.le⟩

theorem busyRun_kept : ∃ n, smallEngine.run busyRun = some n ∧
    n.holding .total ≤ 100 ∧ n.holding (.cls .background) ≤ 10 := by
  have hall : ∀ e ∈ busyRun, ∀ task ∈ e.arrivals, task.dataBytes + 100 < 2 ^ 63 ∧
      task.dataBytes + 10 < 2 ^ 63 := by decide +kernel
  obtain ⟨n, hn, -⟩ := busyRun_runs
  refine ⟨n, hn, queue_limits_kept smallConfig (fun _ => none) 1 busyRun n (by decide)
    (by decide) (fun task hmem => ?_) hn⟩
  have htask := hall _ hmem task (List.mem_singleton.mpr rfl)
  exact ⟨htask.1, fun _ => htask.2⟩

/-- After one byte is admitted, a declared size of 2^63 - 1 wraps the sum below the limit. -/
def wrapRun : List StorageEngine.Event :=
  [.arrive (smallTask 1 .foreground), .caller 0, .caller 0,
    .arrive (smallTask (2 ^ 63 - 1) .foreground), .caller 1, .caller 1]

theorem wrapped_size_admitted : ∃ n,
    smallEngine.run wrapRun = some n ∧
      n.holding .total = 2 ^ 63 ∧ ¬ n.holding .total ≤ smallConfig.maxQueuedWriteBytes := by
  have hrun : (smallEngine.run wrapRun).any (fun n =>
      n.holding .total = 2 ^ 63 ∧ ¬ n.holding .total ≤ smallConfig.maxQueuedWriteBytes) = true := by
    decide +kernel
  obtain ⟨n, hn, hsum⟩ := (Option.any_eq_true _ _).mp hrun
  exact ⟨n, hn, of_decide_eq_true hsum⟩

end Steps

end TieredStore.Node.WriteQueue
