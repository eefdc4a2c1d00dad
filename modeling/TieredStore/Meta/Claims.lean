import TieredStore.Lib.Pool
import TieredStore.Lib.Versioned
import TieredStore.Meta.Specs

/-!
# Claims of several replicas

Any number of metadata services share one store. Here a transaction is split into its start, which
takes a snapshot, and its commit, which is refused when one of the written keys was committed after
the start; a service may also give up a transaction. Batches commit at once. The steps of all
services are interleaved.

A log next to the store lists what was committed and, for a transaction, the task that it hands
out. Between two claims of a task a commit has put its row into PENDING or RETRY_WAIT
(`claims_alternate`): the row that a claim found runnable in its snapshot is still there when the
claim commits, and since the last claim it cannot have become runnable without a write.
-/

namespace TieredStore.Meta.Claims

open Lib Lib.Prog

/-! ## Steps -/

/-- A commit: the process, the task that a transaction hands out, and the writes. -/
structure Commit where
  proc : Nat
  answer : Option TaskRecord
  writes : List KVWrite
  deriving DecidableEq

/-- The store that the services share, and the log of commits, newest first. -/
structure Shared where
  store : Versioned GoString Value
  log : List Commit

def Shared.start (rows : Store) : Shared := ⟨Versioned.initial rows, []⟩

def Shared.committed (s : Shared) (c : Commit) : Shared := ⟨s.store.write c.writes, c :: s.log⟩

inductive StepOp where
  | get (key : GoString)
  | iter (lower upper : GoString)
  | commit (ops : List KVWrite)
  | begin
  | finish (start : Nat) (answer : Option TaskRecord) (ops : List KVWrite)
  | rollback

def StepRes : StepOp → Type
  | .get _ => Option Value
  | .iter _ _ => List (GoString × Value)
  | .commit _ => Unit
  | .begin => Store × Nat
  | .finish _ _ _ => Except GoError Unit
  | .rollback => Unit

/-- A program over single steps. -/
abbrev Steps (α : Type) := Prog StepOp StepRes GoError α

/-- `RunInTxn`: start, run the body over the snapshot, then commit or roll back. -/
def runInTxnSteps (body : Txn (Option TaskRecord)) : Steps (Except GoError (Option TaskRecord)) :=
  .call .begin fun snap =>
    match body.effect snap.1 with
    | .ok (a, ws) => .call (.finish snap.2 a ws) fun r => .ret (r.map fun _ => a)
    | .error e => .call .rollback fun _ => .ret (.error e)

def lower : (o : KVOp) → Steps (KVRes o)
  | .get key => .call (.get key) .ret
  | .iter lo hi => .call (.iter lo hi) .ret
  | .commit ops => .call (.commit ops) .ret
  | .txn body => runInTxnSteps body

/-- The answers of a step of process `i`. A transaction may fail for reasons of its own, but it
commits only when its keys were not written since its start. -/
def stepSem (i : Nat) : (o : StepOp) → Shared → StepRes o → Shared → Prop
  | .get key, s, r, s' => r = s.store.rows.get? key ∧ s' = s
  | .iter lo hi, s, r, s' => r = iterate s.store.rows lo hi ∧ s' = s
  | .commit ops, s, _, s' => s' = s.committed ⟨i, none, ops⟩
  | .begin, s, r, s' => r = (s.store.rows, s.store.clock) ∧ s' = s
  | .finish start a ops, s, r, s' =>
    (r = .ok () ∧ s.store.Unconflicted start ops ∧ s' = s.committed ⟨i, a, ops⟩) ∨
      ∃ e, r = .error e ∧ s' = s
  | .rollback, s, _, s' => s' = s

/-- A process claims a task, or does anything else. -/
inductive Role where
  | claim
  | other
  deriving DecidableEq

/-- The monitor of a program whose transactions hand out no task. -/
def quietMonitor : Monitor KVOp KVRes Unit where
  allow _
    | .txn body => ∀ s a ws, body.effect s = .ok (a, ws) → a = none
    | _ => True
  next _ _ _ _ := True

def HandsOutNothing {α : Type} (p : KV α) : Prop := p.Obeys quietMonitor (fun _ _ => True) ()

/-- What the services run: claims with any limits, clock readings and type filter, and any other
programs that hand out no task. -/
inductive Starts : Role → Steps (Option TaskRecord) → Prop where
  | claim (cfg : Config) (clock now : Time) (taskType : GoString) :
      Starts .claim ((claimNextTieringTask cfg clock now taskType).translate lower)
  | other {α : Type} {p : KV α} (h : HandsOutNothing p) :
      Starts .other ((p >>= fun _ => pure none).translate lower)

def startSem (_ : Nat) (role : Role) (p : Steps (Option TaskRecord)) (s s' : Shared) : Prop :=
  Starts role p ∧ s' = s

/-! ## Claims in the log -/

/-- A committed transaction hands out the task that it stored at `task/<id>`. -/
def ClaimOf (id : GoString) (task : TaskRecord) (c : Commit) : Prop :=
  c.answer = some task ∧ Write.set (tiKVTaskKey id) (.task task) ∈ c.writes

def Claimed (id : GoString) (c : Commit) : Prop := ∃ task, ClaimOf id task c

/-- A commit after which the row `task/<id>` is PENDING or RETRY_WAIT. -/
def PutsRunnable (id : GoString) (c : Commit) : Prop :=
  ∃ rec, SortedMap.lastWrite c.writes (tiKVTaskKey id) = some (some (.task rec)) ∧
    (rec.taskState = .pending ∨ rec.taskState = .retryWait)

/-- The row of a task is PENDING or RETRY_WAIT. -/
def RunnableRow (s : Store) (id : GoString) : Prop :=
  ∃ rec, s.get? (tiKVTaskKey id) = some (.task rec) ∧
    (rec.taskState = .pending ∨ rec.taskState = .retryWait)

/-- Claims alternate with runnable writes, and a row that is runnable now has become so since the
last claim. -/
def Exclusive (s : Shared) : Prop :=
  ∀ id, Alternates (Claimed id) (PutsRunnable id) s.log ∧
    (RunnableRow s.store.rows id → Since (Claimed id) (PutsRunnable id) s.log)

theorem exclusive_start (rows : Store) : Exclusive (Shared.start rows) :=
  fun _ => ⟨alternates_nil, fun _ => since_nil⟩

/-- What the writes of a transaction that hands out a task do: the row that it found runnable is
stored as RUNNING, and nothing else is stored. -/
def Takes (snap : Store) (a : Option TaskRecord) (ws : List KVWrite) : Prop :=
  ∀ task, a = some task → ∃ id, RunnableRow snap id ∧ task.taskState = .running ∧
    Write.set (tiKVTaskKey id) (.task task) ∈ ws ∧
    ∀ w ∈ ws, ∀ x, w.value = some x → w = Write.set (tiKVTaskKey id) (.task task)

theorem takes_none (snap : Store) (ws : List KVWrite) : Takes snap none ws :=
  fun _ h => by cases h

section Commits

variable {s : Shared} {c : Commit}

/-- A commit keeps the invariant if the task that it hands out was runnable. -/
theorem Exclusive.committed (h : Exclusive s)
    (hc : ∀ task, c.answer = some task → ∃ id, RunnableRow s.store.rows id ∧
      task.taskState = .running ∧ ∀ w ∈ c.writes, ∀ x, w.value = some x →
        w = Write.set (tiKVTaskKey id) (.task task)) : Exclusive (s.committed c) := by
  intro id
  obtain ⟨halt, hsince⟩ := h id
  -- a claim of `id` found the row runnable, and does not leave it so
  have hclaim : Claimed id c → RunnableRow s.store.rows id ∧
      ¬ RunnableRow (s.store.rows.applyAll c.writes) id := by
    rintro ⟨task, hans, hmem⟩
    obtain ⟨id', hrow, hrunning, hall⟩ := hc task hans
    have hid : id = id' := by
      have := hall _ hmem _ rfl
      exact tiKVTaskKey_inj.mp (congrArg Write.key this)
    subst hid
    refine ⟨hrow, ?_⟩
    rintro ⟨rec, hget, hstate⟩
    rw [SortedMap.get?_applyAll] at hget
    cases hlast : SortedMap.lastWrite c.writes (tiKVTaskKey id) with
    | none => exact SortedMap.lastWrite_ne_none hmem rfl hlast
    | some v =>
      rw [hlast, Option.getD_some] at hget
      subst hget
      obtain ⟨w, hw, -, hval⟩ := SortedMap.mem_of_lastWrite hlast
      have heq := hall w hw _ hval
      rw [heq, Write.value_set] at hval
      cases hval
      rw [hrunning] at hstate
      rcases hstate with hstate | hstate <;> cases hstate
  refine ⟨halt.cons fun hcl => hsince (hclaim hcl).1, ?_⟩
  intro hrow
  have hnot : ¬ Claimed id c := fun hcl => (hclaim hcl).2 hrow
  refine Since.cons hnot ?_
  obtain ⟨rec, hget, hstate⟩ := hrow
  have hget : (s.store.rows.applyAll c.writes).get? (tiKVTaskKey id) = some (.task rec) := hget
  rw [SortedMap.get?_applyAll] at hget
  cases hlast : SortedMap.lastWrite c.writes (tiKVTaskKey id) with
  | some v =>
    rw [hlast, Option.getD_some] at hget
    exact Or.inl ⟨rec, by rw [hlast, hget], hstate⟩
  | none =>
    rw [hlast, Option.getD_none] at hget
    exact Or.inr (hsince ⟨rec, hget, hstate⟩)

end Commits

/-! ## What a process knows -/

/-- Between transactions a process knows the task that its last transaction handed out; in a
transaction it knows the snapshot. -/
inductive Session where
  | resting (won : Option TaskRecord)
  | opened (snap : Store) (start : Nat)

/-- A transaction may hand out a task only if it takes it from its snapshot. -/
def sessionMonitor : Monitor StepOp StepRes Session where
  allow
    | .resting _, .finish _ _ _ => False
    | .resting _, .rollback => False
    | .resting _, _ => True
    | .opened snap start, .finish start' a ws => start' = start ∧ Takes snap a ws
    | .opened _ _, .rollback => True
    | .opened _ _, _ => False
  next
    | t, .get _, _, t' => t' = t
    | t, .iter _ _, _, t' => t' = t
    | t, .commit _, _, t' => t' = t
    | _, .begin, r, t' => t' = .opened r.1 r.2
    | _, .finish _ a _, r, t' => t' = .resting (r.toOption.bind fun _ => a)
    | _, .rollback, _, t' => t' = .resting none

def Knows (i : Nat) (t : Session) (s : Shared) : Prop :=
  match t with
  | .resting won => ∀ task, won = some task → ∃ id, ∃ c ∈ s.log, c.proc = i ∧ ClaimOf id task c
  | .opened snap start => s.store.Snapshot start snap

theorem Knows.committed {i : Nat} {t : Session} {s : Shared} (h : Knows i t s) (c : Commit) :
    Knows i t (s.committed c) := by
  cases t with
  | resting won =>
    intro task hwon
    obtain ⟨id, c', hc', hclaim⟩ := h task hwon
    exact ⟨id, c', List.mem_cons_of_mem _ hc', hclaim⟩
  | opened snap start => exact Versioned.Snapshot.write h c.writes

/-- What a step leaves: the store as it was, or one more commit. -/
theorem step_cases {i : Nat} {o : StepOp} {s s' : Shared} {r : StepRes o} (h : stepSem i o s r s') :
    s' = s ∨ ∃ c, s' = s.committed c := by
  cases o with
  | get key => exact Or.inl h.2
  | iter lo hi => exact Or.inl h.2
  | commit ops => exact Or.inr ⟨_, h⟩
  | begin => exact Or.inl h.2
  | finish start a ops =>
    rcases h with ⟨-, -, h⟩ | ⟨e, -, h⟩
    · exact Or.inr ⟨_, h⟩
    · exact Or.inl h
  | rollback => exact Or.inl h

theorem Knows.step {i j : Nat} {o : StepOp} {t : Session} {s s' : Shared} {r : StepRes o}
    (h : Knows j t s) (hstep : stepSem i o s r s') : Knows j t s' := by
  rcases step_cases hstep with rfl | ⟨c, rfl⟩
  · exact h
  · exact h.committed c

/-- A step that the monitor allows keeps the claims exclusive and the process informed. -/
theorem exclusive_step {i : Nat} {o : StepOp} {t : Session} {s s' : Shared} {r : StepRes o}
    (hs : Exclusive s) (ht : Knows i t s) (hallow : sessionMonitor.allow t o)
    (hstep : stepSem i o s r s') :
    Exclusive s' ∧ ∃ t', sessionMonitor.next t o r t' ∧ Knows i t' s' := by
  cases o with
  | get key =>
    obtain ⟨-, rfl⟩ := hstep
    exact ⟨hs, t, rfl, ht⟩
  | iter lo hi =>
    obtain ⟨-, rfl⟩ := hstep
    exact ⟨hs, t, rfl, ht⟩
  | commit ops =>
    cases hstep
    exact ⟨hs.committed (fun task h => by cases h), t, rfl, ht.committed _⟩
  | begin =>
    obtain ⟨rfl, rfl⟩ := hstep
    exact ⟨hs, _, rfl, Versioned.snapshot_now _⟩
  | rollback =>
    cases hstep
    exact ⟨hs, _, rfl, fun task h => by cases h⟩
  | finish start a ops =>
    rcases hstep with ⟨rfl, hfree, rfl⟩ | ⟨e, rfl, rfl⟩
    · cases t with
      | resting won => cases hallow
      | opened snap start' =>
        obtain ⟨rfl, htakes⟩ := hallow
        refine ⟨hs.committed ?_, .resting a, rfl, ?_⟩
        · intro task ha
          obtain ⟨id, ⟨rec, hget, hstate⟩, hrunning, hmem, hall⟩ := htakes task ha
          have hsame := Versioned.Snapshot.get ht hfree hmem
          rw [Write.key_set] at hsame
          exact ⟨id, ⟨rec, hsame.trans hget, hstate⟩, hrunning, hall⟩
        · intro task ha
          obtain ⟨id, -, -, hmem, -⟩ := htakes task ha
          exact ⟨id, _, List.mem_cons_self, rfl, ha, hmem⟩
    · exact ⟨hs, .resting none, rfl, fun task h => by cases h⟩

/-! ## The programs -/

section Programs

variable {α β : Type}

/-- The transactions of a program take the tasks that they hand out; the program knows the last
one. -/
def claimMonitor : Monitor KVOp KVRes (Option TaskRecord) where
  allow _
    | .txn body => ∀ s a ws, body.effect s = .ok (a, ws) → Takes s a ws
    | _ => True
  next t
    | .txn _, r, t' => t' = r.toOption.bind fun a => a
    | _, _, t' => t' = t

theorem lower_obeys (t : Option TaskRecord) (o : KVOp) (h : claimMonitor.allow t o) :
    (lower o).Obeys sessionMonitor
      (fun x t' => ∃ r t₁, x = .ok r ∧ claimMonitor.next t o r t₁ ∧ t' = .resting t₁)
      (.resting t) := by
  cases o with
  | get key =>
    refine ⟨trivial, ?_⟩
    rintro r t' rfl
    exact ⟨r, t, rfl, rfl, rfl⟩
  | iter lo hi =>
    refine ⟨trivial, ?_⟩
    rintro r t' rfl
    exact ⟨r, t, rfl, rfl, rfl⟩
  | commit ops =>
    refine ⟨trivial, ?_⟩
    rintro r t' rfl
    exact ⟨r, t, rfl, rfl, rfl⟩
  | txn body =>
    refine ⟨trivial, ?_⟩
    rintro ⟨snap, start⟩ t' rfl
    dsimp only
    cases heff : body.effect snap with
    | error e =>
      refine ⟨trivial, ?_⟩
      rintro r t' rfl
      exact ⟨.error e, none, rfl, rfl, rfl⟩
    | ok res =>
      obtain ⟨a, ws⟩ := res
      refine ⟨⟨rfl, h snap a ws heff⟩, ?_⟩
      rintro r t' rfl
      refine ⟨_, _, rfl, rfl, ?_⟩
      cases r <;> rfl

/-- A program without transactions. -/
def plainMonitor : Monitor KVOp KVRes Unit where
  allow _
    | .txn _ => False
    | _ => True
  next _ _ _ _ := True

def Plain (p : KV α) : Prop := p.Obeys plainMonitor (fun _ _ => True) ()

theorem Plain.bind {p : KV α} {f : α → KV β} (hp : Plain p) (hf : ∀ a, Plain (f a)) :
    Plain (p >>= f) :=
  Obeys.bind hp (fun _ _ _ => trivial) fun a _ _ => hf a

theorem plain_pure (a : α) : Plain (pure a) := trivial

theorem plain_commit (ws : List KVWrite) : Plain (KV.commit ws) :=
  KV.obeys_commit (fun _ => trivial) trivial fun _ _ => trivial

theorem plain_iter (pre : GoString) : Plain (KV.newPrefixIter pre) :=
  ⟨trivial, fun _ _ _ => trivial⟩

theorem plain_getJSON (decode : Value → Option α) (key : GoString) : Plain (getJSON decode key) := by
  rw [getJSON_eq]
  refine ⟨trivial, ?_⟩
  rintro (_ | v) _ _
  · trivial
  · unfold decodeRow
    dsimp only
    split <;> trivial

/-- Without transactions, what a process has won stays the same. -/
theorem Plain.claim {p : KV α} (hp : Plain p) (t : Option TaskRecord) :
    p.Obeys claimMonitor (fun _ t' => t' = t) t := by
  have hp : p.Obeys plainMonitor (fun _ _ => True) () := hp
  refine hp.simulate (M := fun _ t' => t' = t) ?_ (fun _ _ _ h _ => h) rfl
  intro u t' o ht hallow
  subst ht
  cases o with
  | txn body => cases hallow
  | _ => exact ⟨trivial, fun r t₁ h => ⟨(), trivial, h⟩⟩

theorem Plain.handsOutNothing {p : KV α} (hp : Plain p) : HandsOutNothing p := by
  have hp : p.Obeys plainMonitor (fun _ _ => True) () := hp
  refine hp.simulate (M := fun _ _ => True) ?_ (fun _ _ _ _ _ => trivial) trivial
  intro u u' o _ hallow
  cases o with
  | txn body => cases hallow
  | _ => exact ⟨trivial, fun r t₁ h => ⟨(), trivial, trivial⟩⟩

/-- A program that hands out nothing takes nothing. -/
theorem HandsOutNothing.claim {p : KV α} (hp : HandsOutNothing p) :
    p.Obeys claimMonitor (fun _ _ => True) none := by
  have hp : p.Obeys quietMonitor (fun _ _ => True) () := hp
  refine hp.simulate (M := fun _ _ => True) ?_ (fun _ _ _ _ _ => trivial) trivial
  intro u t o _ hallow
  cases o with
  | txn body =>
    refine ⟨?_, fun r t₁ h => ⟨(), trivial, trivial⟩⟩
    intro s a ws heff
    rw [hallow s a ws heff]
    exact takes_none s ws
  | _ => exact ⟨trivial, fun r t₁ h => ⟨(), trivial, trivial⟩⟩

end Programs

/-! ## The claim -/

section Claim

variable {clock now : Time} {raw ty id taskType : GoString}

theorem runnable_iff {state : TaskState} :
    isTaskRunnableState state = true ↔ state = .pending ∨ state = .retryWait := by
  cases state <;> simp [isTaskRunnableState]

/-- The claim takes the row that it finds, or nothing. -/
theorem claimTxn_takes (s : Store) (a : Option TaskRecord) (ws : List KVWrite)
    (h : (claimTxn raw ty id now).effect s = .ok (a, ws)) : Takes s a ws := by
  cases hget : s.get? (tiKVTaskKey id) with
  | none =>
    rw [claimTxn_effect_absent hget] at h
    cases h
    exact takes_none _ _
  | some x =>
    cases hx : x.asTask with
    | none =>
      obtain ⟨e, he⟩ := @claimTxn_effect_other s raw ty id now _ hget hx
      rw [he] at h
      cases h
    | some rec =>
      rw [Value.asTask_eq_some] at hx
      subst hx
      rw [claimTxn_effect_row hget] at h
      split at h
      · cases h
        exact takes_none _ _
      · rename_i hclaim
        cases h
        rw [Bool.not_eq_false, claimable, decide_eq_true_eq] at hclaim
        rintro task htask
        cases htask
        refine ⟨id, ⟨rec, hget, runnable_iff.mp hclaim.2.1⟩, rfl, by simp [claimWrites], ?_⟩
        intro w hw x hx
        simp only [claimWrites, List.mem_append, List.mem_cons, List.not_mem_nil, or_false] at hw
        rcases hw with (rfl | hw) | rfl | rfl
        · rfl
        · split at hw
          · rw [List.mem_singleton] at hw
            subst hw
            cases hx
          · simp at hw
        · cases hx
        · cases hx

theorem plain_promoteWaitingLoop {maxPromote : Int} (es : List (GoString × Value)) (touched : Int)
    (ops : List KVWrite) : Plain (promoteWaitingLoop clock now maxPromote es touched ops) := by
  induction es generalizing touched ops with
  | nil => trivial
  | cons e rest ih =>
    obtain ⟨waitKey, x⟩ := e
    unfold promoteWaitingLoop
    split
    · dsimp only
      split
      · trivial
      · exact ih _ _
    · split
      · trivial
      · refine (plain_getJSON _ _).bind fun found => ?_
        dsimp only
        split
        · trivial
        · exact ih _ _

theorem plain_promoteRounds {adaptiveMax : Int} (rounds : Nat) (limit : Int) :
    Plain (promoteRounds clock now adaptiveMax rounds limit) := by
  induction rounds generalizing limit with
  | zero => trivial
  | succ rounds ih =>
    have hpromote : Plain (promoteDueWaitingTasksLocked clock now limit) :=
      (plain_iter _).bind fun es => (plain_promoteWaitingLoop es _ _).bind fun r =>
        (plain_commit _).bind fun _ => plain_pure _
    refine hpromote.bind fun promoted => ?_
    split
    · trivial
    · exact ih _

/-- What a claim returns is what its transaction handed out. -/
def Returns (x : Except GoError (Option TaskRecord)) (t : Option TaskRecord) : Prop :=
  ∀ r, x = .ok r → t = r

theorem tryClaimTaskCAS_returns {t : Option TaskRecord} (ht : t = none) :
    (tryClaimTaskCAS clock raw ty id now).Obeys claimMonitor Returns t := by
  subst ht
  unfold tryClaimTaskCAS
  split
  · rintro r ⟨⟩
    rfl
  · refine ⟨fun s a ws h => claimTxn_takes s a ws h, ?_⟩
    rintro (e | a) t' rfl
    · change (ite _ _ _ : KV (Option TaskRecord)).Obeys _ _ _
      split
      · rintro r ⟨⟩
        rfl
      · rintro r ⟨⟩
    · rintro r ⟨⟩
      rfl

theorem claimReadyLoop_returns (es : List (GoString × Value)) {t : Option TaskRecord}
    (ht : t = none) : (claimReadyLoop clock now taskType es).Obeys claimMonitor Returns t := by
  have herr : ∀ (e : GoError) (t' : Option TaskRecord), t' = none → Returns (.error e) t' := by
    rintro e t' - r ⟨⟩
  subst ht
  induction es with
  | nil =>
    rintro r ⟨⟩
    rfl
  | cons e rest ih =>
    obtain ⟨readyKey, x⟩ := e
    unfold claimReadyLoop
    split
    · refine ((plain_commit _).claim none).bind herr ?_
      rintro - t' rfl
      exact ih
    · split
      · exact ih
      · refine ((plain_getJSON _ _).claim none).bind herr ?_
        rintro found t' rfl
        cases found with
        | none =>
          refine ((plain_commit _).claim none).bind herr ?_
          rintro - t' rfl
          exact ih
        | some rec =>
          dsimp only
          split
          · refine ((plain_commit _).claim none).bind herr ?_
            rintro - t' rfl
            exact ih
          · refine (tryClaimTaskCAS_returns rfl).bind (fun e t' h r hr => by cases hr) ?_
            rintro (_ | task) t' ht'
            · rw [ht' none rfl]
              exact ih
            · rintro r ⟨⟩
              exact ht' _ rfl

theorem claimNextTieringTask_returns (cfg : Config) :
    (claimNextTieringTask cfg clock now taskType).Obeys claimMonitor Returns none := by
  unfold claimNextTieringTask
  refine ((plain_promoteRounds _ _).claim none).bind (fun e t' _ r hr => by cases hr) ?_
  rintro - t' rfl
  refine ((plain_iter _).claim none).bind (fun e t' _ r hr => by cases hr) ?_
  rintro es t' rfl
  exact claimReadyLoop_returns es rfl

end Claim

/-! ## All interleavings -/

/-- The services and the store that they share. -/
abbrev Services := Pool StepOp StepRes GoError (Option TaskRecord) Role Shared

/-- A claim ends with the task that its last transaction handed out. -/
def Ends (role : Role) (x : Except GoError (Option TaskRecord)) (t : Session) : Prop :=
  role = .claim → ∃ won, t = .resting won ∧ Returns x won

theorem starts_obeys {role : Role} {p : Steps (Option TaskRecord)} (h : Starts role p) :
    p.Obeys sessionMonitor (Ends role) (.resting none) := by
  cases h with
  | claim cfg clock now taskType =>
    exact ((claimNextTieringTask_returns cfg).translate lower_obeys).mono fun x t h _ => h
  | @other _ p hp =>
    have hall : (p >>= fun _ => pure none : KV (Option TaskRecord)).Obeys claimMonitor
        (fun _ _ => True) none := hp.claim.bind (fun _ _ _ => trivial) fun _ _ _ => trivial
    exact (hall.translate lower_obeys).mono fun x t h hrole => by cases hrole

theorem claim_discipline : Pool.Discipline startSem (fun i _ => stepSem i) (fun _ => sessionMonitor)
    Ends Exclusive (fun i _ t s => Knows i t s) where
  onCall := fun hs ht hallow hstep => exclusive_step hs ht hallow hstep
  onOtherCall := fun _ _ _ hstep _ ht' => ht'.step hstep
  onStart := by
    rintro i role p s s' hs ⟨hstarts, rfl⟩
    exact ⟨hs, _, starts_obeys hstarts, fun task h => by cases h⟩
  onOtherStart := by
    rintro i role p s s' j role' t hs ⟨-, rfl⟩ - ht
    exact ht

/-- In every run of any number of services, between two claims of a task there is a commit that
put its row into PENDING or RETRY_WAIT; and every task that a claim returns is in the log as a
claim of that process. -/
theorem claims_alternate {rows : Store} {c : Services}
    (h : Pool.Reaches startSem (fun i _ => stepSem i) (Pool.idle (Shared.start rows)) c) :
    (∀ id l₁ a l₂ b l₃, c.state.log = l₁ ++ a :: (l₂ ++ b :: l₃) → Claimed id a → Claimed id b →
      ∃ e ∈ l₂, PutsRunnable id e) ∧
    ∀ i task, c.procs i = some (.claim, .ret (some task)) →
      ∃ id, ∃ e ∈ c.state.log, e.proc = i ∧ ClaimOf id task e := by
  obtain ⟨hexcl, hprocs⟩ :=
    claim_discipline.reaches (Pool.Discipline.governed_idle (exclusive_start rows)) h
  refine ⟨fun id => (hexcl id).1, ?_⟩
  intro i task hi
  obtain ⟨t, hends, hknows⟩ := hprocs i _ _ hi
  obtain ⟨won, rfl, hreturns⟩ := hends rfl
  exact hknows task (hreturns _ rfl)

/-! ## A run: two services race for a task, which is retried and claimed again -/

section Run

/-- Every step is answered; a transaction commits when nothing is in its way. -/
def stepHandler (i : Nat) (_ : Role) : (o : StepOp) → Shared → StepRes o × Shared
  | .get key, s => (s.store.rows.get? key, s)
  | .iter lo hi, s => (iterate s.store.rows lo hi, s)
  | .commit ops, s => ((), s.committed ⟨i, none, ops⟩)
  | .begin, s => ((s.store.rows, s.store.clock), s)
  | .finish start a ops, s =>
    if s.store.Unconflicted start ops then (.ok (), s.committed ⟨i, a, ops⟩)
    else (.error errConflict, s)
  | .rollback, s => ((), s)

theorem stepSem_stepHandler (i : Nat) (r : Role) (o : StepOp) (s : Shared) :
    stepSem i o s (stepHandler i r o s).1 (stepHandler i r o s).2 := by
  cases o with
  | get key => exact ⟨rfl, rfl⟩
  | iter lo hi => exact ⟨rfl, rfl⟩
  | commit ops => rfl
  | begin => exact ⟨rfl, rfl⟩
  | finish start a ops =>
    by_cases hfree : s.store.Unconflicted start ops
    · rw [stepHandler, if_pos hfree]
      exact Or.inl ⟨rfl, hfree, rfl⟩
    · rw [stepHandler, if_neg hfree]
      exact Or.inr ⟨_, rfl, rfl⟩
  | rollback => rfl

def claimSteps (now : Time) : Steps (Option TaskRecord) :=
  (claimNextTieringTask {} now now []).translate lower

def enqueuedRun : Services :=
  ((Pool.idle (Shared.start SortedMap.empty)).spawn 0 .other
    ((enqueueTieringTask 5 5 (lit "t") (lit "a") 7 (lit "REPL_TO_EC") 100 5 >>= fun _ =>
      pure none).translate lower)).advanceAll stepHandler [0, 0]

/-- Two claims start their transactions, and both try to commit. -/
def racedRun : Services :=
  ((enqueuedRun.spawn 1 .claim (claimSteps 8)).spawn 2 .claim (claimSteps 8)).advanceAll stepHandler
    [1, 1, 1, 1, 2, 2, 2, 2, 1, 2]

/-- The task is put off. -/
def delayedRun : Services :=
  (racedRun.spawn 3 .other ((markTieringTaskRetry 9 9 (lit "t") (lit "no nodes") 20 >>=
    fun _ => pure none).translate lower)).advanceAll stepHandler [3, 3]

/-- It becomes due and is claimed once more. -/
def retriedRun : Services :=
  (delayedRun.spawn 4 .claim (claimSteps 30)).advanceAll stepHandler [4, 4, 4, 4, 4, 4, 4]

theorem plain_writeTaskRecord {clock now : Time} {prev : Option TaskRecord} {next : TaskRecord} :
    Plain (writeTaskRecordWithRunnableIndexLocked clock prev next now) := by
  unfold writeTaskRecordWithRunnableIndexLocked
  split
  · trivial
  · exact plain_commit _

theorem plain_enqueueTieringTask {clock now at' : Time} {id o ty : GoString} {v priority : Int} :
    Plain (enqueueTieringTask clock now id o v ty priority at') := by
  unfold enqueueTieringTask
  split
  · trivial
  · refine (plain_getJSON _ _).bind fun found => ?_
    cases found with
    | none => exact plain_writeTaskRecord
    | some rec => trivial

theorem plain_updateTask {clock now : Time} {id : GoString}
    {update : TaskRecord → Option TaskRecord} : Plain (updateTask clock now id update) := by
  refine (plain_getJSON _ _).bind fun found => ?_
  cases found with
  | none => trivial
  | some rec =>
    dsimp only
    split
    · trivial
    · exact plain_writeTaskRecord.bind fun _ => plain_pure _

/-- The runs of the services from an empty store. -/
abbrev Reached (c : Services) : Prop :=
  Pool.Reaches startSem (fun i _ => stepSem i) (Pool.idle (Shared.start SortedMap.empty)) c

theorem reached_retriedRun : Reached retriedRun := by
  have henqueued : Reached enqueuedRun := Pool.Reaches.advanceAll stepSem_stepHandler
    (Pool.Reaches.spawn .refl rfl ⟨.other plain_enqueueTieringTask.handsOutNothing, rfl⟩) _
  have hraced : Reached racedRun := Pool.Reaches.advanceAll stepSem_stepHandler
    (Pool.Reaches.spawn (henqueued.spawn rfl ⟨.claim {} 8 8 [], rfl⟩) rfl
      ⟨.claim {} 8 8 [], rfl⟩) _
  have hdelayed : Reached delayedRun := Pool.Reaches.advanceAll stepSem_stepHandler
    (hraced.spawn (Option.isNone_iff_eq_none.mp (by decide +kernel))
      ⟨.other (plain_updateTask.bind fun _ => plain_pure ()).handsOutNothing, rfl⟩) _
  exact Pool.Reaches.advanceAll stepSem_stepHandler
    (hdelayed.spawn (Option.isNone_iff_eq_none.mp (by decide +kernel)) ⟨.claim {} 30 30 [], rfl⟩) _

/-- The row as it was enqueued, and as it was put off after the first claim. -/
def enqueuedTask : TaskRecord := newTask (lit "t") (lit "a") 7 (lit "REPL_TO_EC") 100 5

def retriedTask : TaskRecord :=
  { claimedRecord enqueuedTask 8 with
    taskState := .retryWait, retryCount := 1, lastError := some (lit "no nodes"), scheduledAt := 20 }

def claimCommit (proc : Nat) (now : Time) (rec : TaskRecord) : Commit :=
  ⟨proc, some (claimedRecord rec now), claimWrites (taskReadyIndexKey rec) rec.taskID now rec⟩

theorem claimed_claimCommit (proc : Nat) (now : Time) (rec : TaskRecord) :
    Claimed rec.taskID (claimCommit proc now rec) :=
  ⟨claimedRecord rec now, rfl, by simp [claimCommit, claimWrites]⟩

theorem retriedRun_log : retriedRun.state.log = [] ++ claimCommit 4 30 retriedTask ::
    ([⟨4, none, [Write.del (taskWaitIndexKey retriedTask), Write.del (taskReadyIndexKey retriedTask),
        Write.del (taskWaitIndexKey retriedTask), Write.set (taskReadyIndexKey retriedTask) .mark]⟩,
      ⟨3, none, taskRecordBatch 9 (some (claimedRecord enqueuedTask 8)) retriedTask 9⟩] ++
    claimCommit 1 8 enqueuedTask :: [⟨0, none, taskRecordBatch 5 none enqueuedTask 5⟩]) := by
  decide +kernel

theorem claims_alternate_retried : ∃ e ∈ [⟨4, none, [Write.del (taskWaitIndexKey retriedTask),
        Write.del (taskReadyIndexKey retriedTask), Write.del (taskWaitIndexKey retriedTask),
        Write.set (taskReadyIndexKey retriedTask) .mark]⟩,
      ⟨3, none, taskRecordBatch 9 (some (claimedRecord enqueuedTask 8)) retriedTask 9⟩],
    PutsRunnable (lit "t") e :=
  (claims_alternate reached_retriedRun).1 (lit "t") _ _ _ _ _ retriedRun_log
    (claimed_claimCommit 4 30 retriedTask) (claimed_claimCommit 1 8 enqueuedTask)

end Run

end TieredStore.Meta.Claims
