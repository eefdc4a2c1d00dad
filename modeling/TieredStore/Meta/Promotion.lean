import TieredStore.Meta.TaskScans

/-!
# Promotion of waiting tasks, run alone

A round of the promotion walks over the wait index in key order, up to its limit and up to the
first key that is not due yet, and commits what it collects for each key in one batch
(`promoteWrites`). The rounds touch index keys only, so the rows stay as they are.
-/

namespace TieredStore.Meta.Promotion

open Lib Lib.Prog TaskCoherence TaskMoves TaskScans

/-- The writes for one key of the wait index. -/
def promoteWrites (clock now : Time) (s : Store) (waitKey : GoString) : List KVWrite :=
  [Write.del waitKey] ++
    match tiKVParseTaskWaitKey waitKey with
    | none => []
    | some (_, _, taskID) =>
      match taskRow s taskID with
      | none => []
      | some rec =>
        deleteTaskRunnableIndexInBatch rec ++ putTaskRunnableIndexInBatch clock rec now

/-- The walk goes on at a key that is malformed or due. -/
def passes (now : Time) (waitKey : GoString) : Bool :=
  match tiKVParseTaskWaitKey waitKey with
  | none => true
  | some (scheduledAtUnixNano, _, _) => decide (scheduledAtUnixNano ≤ now.unixNano)

/-- What a walk over some entries has passed and what it has left. -/
structure Walked (now : Time) (budget : Int) (es done rest : List (GoString × Value)) : Prop where
  split : es = done ++ rest
  passed : ∀ e ∈ done, passes now e.1 = true
  bounded : (done.length : Int) ≤ budget
  stopped : (done.length : Int) < budget → ∀ e ∈ rest.head?, passes now e.1 = false

section Alone

variable {α : Type} {s : Store} {clock now : Time}

theorem Walked.cons {budget : Int} {e : GoString × Value} {es done rest : List (GoString × Value)}
    (he : passes now e.1 = true) (h : Walked now (budget - 1) es done rest) :
    Walked now budget (e :: es) (e :: done) rest where
  split := by rw [h.split, List.cons_append]
  passed := List.forall_mem_cons.mpr ⟨he, h.passed⟩
  bounded := by
    have := h.bounded
    simp only [List.length_cons, Nat.cast_add, Nat.cast_one]
    omega
  stopped := by
    intro hlt
    refine h.stopped ?_
    simp only [List.length_cons, Nat.cast_add, Nat.cast_one] at hlt
    omega

/-- When the entries to pass come first and fit into the budget, the walk passes all of them. -/
theorem Walked.all {budget : Int} {es done rest : List (GoString × Value)}
    (h : Walked now budget es done rest)
    (hfirst : es.Pairwise fun a b => passes now b.1 = true → passes now a.1 = true)
    (hcount : ((es.filter fun e => passes now e.1).length : Int) ≤ budget) :
    ∀ e ∈ es, passes now e.1 = true → e ∈ done := by
  obtain ⟨rfl, hpassed, hbounded, hstopped⟩ := h
  intro e he hpass
  refine (List.mem_append.mp he).resolve_right fun hrest => ?_
  by_cases hlt : (done.length : Int) < budget
  · cases rest with
    | nil => cases hrest
    | cons e' rest =>
      have hno := hstopped hlt e' rfl
      obtain ⟨hhead, -⟩ := List.pairwise_cons.mp (List.pairwise_append.mp hfirst).2.1
      rcases List.mem_cons.mp hrest with rfl | hrest
      · rw [hno] at hpass
        cases hpass
      · rw [hhead e hrest hpass] at hno
        cases hno
  · have hmem : e ∈ rest.filter fun e => passes now e.1 := List.mem_filter.mpr ⟨hrest, hpass⟩
    have hpos := List.length_pos_of_mem hmem
    rw [List.filter_append, List.filter_eq_self.mpr hpassed, List.length_append] at hcount
    omega

theorem atomically_promoteWaitingLoop (hs : Rows (fun _ => True) s) {maxPromote touched : Int}
    (hbudget : touched < maxPromote) (es : List (GoString × Value)) (ops : List KVWrite) :
    ∃ done rest, Walked now (maxPromote - touched) es done rest ∧
      atomically (promoteWaitingLoop clock now maxPromote es touched ops) s =
        (.ok (touched + done.length,
          ops ++ done.flatMap fun e => promoteWrites clock now s e.1), s) := by
  induction es generalizing touched ops with
  | nil =>
    refine ⟨[], [], ⟨rfl, List.forall_mem_nil _, by simpa using hbudget.le,
      fun _ _ he => by cases he⟩, ?_⟩
    simp [promoteWaitingLoop]
  | cons e es ih =>
    obtain ⟨waitKey, x⟩ := e
    -- a key that is passed: the walk ends at the limit or goes on behind it
    have hpass : ∀ {p : KV (Int × List KVWrite)}, passes now waitKey = true →
        atomically p s = atomically (if touched + 1 ≥ maxPromote then
            pure (touched + 1, ops ++ promoteWrites clock now s waitKey)
          else promoteWaitingLoop clock now maxPromote es (touched + 1)
            (ops ++ promoteWrites clock now s waitKey)) s →
        ∃ done rest, Walked now (maxPromote - touched) ((waitKey, x) :: es) done rest ∧
          atomically p s = (.ok (touched + done.length,
            ops ++ done.flatMap fun e => promoteWrites clock now s e.1), s) := by
      intro p hkey hp
      rw [hp]
      by_cases hend : touched + 1 ≥ maxPromote
      · refine ⟨[(waitKey, x)], es, Walked.cons hkey ⟨rfl, List.forall_mem_nil _, ?_, ?_⟩, ?_⟩
        · simp only [List.length_nil, Nat.cast_zero]
          omega
        · simp only [List.length_nil, Nat.cast_zero]
          omega
        · rw [if_pos hend]
          simp
      · have hnext : touched + 1 < maxPromote := by omega
        obtain ⟨done, rest, hwalk, hrun⟩ := ih hnext (ops ++ promoteWrites clock now s waitKey)
        refine ⟨(waitKey, x) :: done, rest, Walked.cons hkey ?_, ?_⟩
        · rw [sub_sub]
          exact hwalk
        · have hcount : touched + 1 + (done.length : Int) =
              touched + (((waitKey, x) :: done).length : Nat) := by
            rw [List.length_cons]
            omega
          rw [if_neg hend, hrun, hcount, List.flatMap_cons, List.append_assoc]
    cases hparse : tiKVParseTaskWaitKey waitKey with
    | none =>
      refine hpass (by simp [passes, hparse]) ?_
      simp only [promoteWaitingLoop, hparse, promoteWrites, List.append_nil]
    | some key =>
      obtain ⟨scheduledAtUnixNano, ty, id⟩ := key
      by_cases hlate : scheduledAtUnixNano > now.unixNano
      · refine ⟨[], (waitKey, x) :: es, ⟨rfl, List.forall_mem_nil _, ?_, fun _ e he => ?_⟩, ?_⟩
        · simp only [List.length_nil, Nat.cast_zero]
          omega
        · cases he
          simpa [passes, hparse] using hlate
        · simp [promoteWaitingLoop, hparse, hlate]
      · refine hpass (by simpa [passes, hparse] using hlate) ?_
        simp only [promoteWaitingLoop, hparse, if_neg hlate]
        rw [atomically_getTaskRecord hs]
        cases hrow : taskRow s id <;>
          simp only [promoteWrites, hparse, hrow, List.append_assoc]

/-- The limit of a round; one that is not positive is the default. -/
def roundLimit (maxPromote : Int) : Int := if maxPromote ≤ 0 then 256 else maxPromote

/-- The store after a round that has passed some keys. -/
def promoted (clock now : Time) (s : Store) (done : List (GoString × Value)) : Store :=
  s.applyAll (done.flatMap fun e => promoteWrites clock (orNow now clock) s e.1)

theorem atomically_promoteDueWaitingTasksLocked (hs : Rows (fun _ => True) s) (maxPromote : Int) :
    ∃ done rest, Walked (orNow now clock) (roundLimit maxPromote)
        (prefixEntries s tiKVTaskWaitPrefix) done rest ∧
      ∀ f : Int → KV α, atomically (promoteDueWaitingTasksLocked clock now maxPromote >>= f) s =
        atomically (f done.length) (promoted clock now s done) := by
  have hpos : 0 < roundLimit maxPromote := by
    unfold roundLimit
    split <;> omega
  obtain ⟨done, rest, hwalk, hrun⟩ := @atomically_promoteWaitingLoop s clock (orNow now clock) hs
    _ _ hpos (prefixEntries s tiKVTaskWaitPrefix) []
  rw [sub_zero] at hwalk
  refine ⟨done, rest, hwalk, fun f => ?_⟩
  unfold promoteDueWaitingTasksLocked
  simp only [bind_assoc]
  rw [atomically_iter]
  refine (run_bind_ok hrun _).trans ?_
  refine (run_bind_ok (atomically_commit _ s) _).trans ?_
  simp only [zero_add, List.nil_append]
  rfl

theorem promoteWrites_batch {k : GoString} (hk : TaskIndexKey k) :
    IndexBatch (promoteWrites clock now s k) := by
  unfold promoteWrites
  refine (indexBatch_del hk).append ?_
  split
  · exact indexBatch_nil
  · split
    · exact indexBatch_nil
    · exact (indexBatch_deleteRunnable _).append (indexBatch_putRunnable _ _ _)

theorem indexBatch_flatMap {β : Type} {l : List β} {g : β → List KVWrite}
    (h : ∀ b ∈ l, IndexBatch (g b)) : IndexBatch (l.flatMap g) := by
  induction l with
  | nil => exact indexBatch_nil
  | cons b l ih =>
    rw [List.flatMap_cons]
    exact (h b List.mem_cons_self).append (ih fun b hb => h b (List.mem_cons_of_mem _ hb))

theorem Walked.wait {budget : Int} {done rest : List (GoString × Value)}
    (h : Walked now budget (prefixEntries s tiKVTaskWaitPrefix) done rest) :
    ∀ e ∈ done, s.get? e.1 = some e.2 ∧ tiKVTaskWaitPrefix <+: e.1 := fun _ he =>
  mem_prefixEntries.mp (h.split ▸ List.mem_append_left rest he)

theorem promoted_batch {done : List (GoString × Value)}
    (h : ∀ e ∈ done, tiKVTaskWaitPrefix <+: e.1) :
    IndexBatch (done.flatMap fun e => promoteWrites clock (orNow now clock) s e.1) :=
  indexBatch_flatMap fun e he =>
    promoteWrites_batch (Or.inr (Or.inl (keyFamily_eq (by decide) (h e he))))

/-- A burst: one round, and the others when the round was full. -/
theorem atomically_promoteRounds_succ (hs : Rows (fun _ => True) s) (adaptiveMax : Int)
    (rounds : Nat) (limit : Int) :
    ∃ done rest, Walked (orNow now clock) (roundLimit limit)
        (prefixEntries s tiKVTaskWaitPrefix) done rest ∧
      Rows (fun _ => True) (promoted clock now s done) ∧ ∀ f : Unit → KV α,
        atomically (promoteRounds clock now adaptiveMax (rounds + 1) limit >>= f) s =
          if (done.length : Int) < limit then atomically (f ()) (promoted clock now s done)
          else atomically (promoteRounds clock now adaptiveMax rounds
            (growLimit limit adaptiveMax) >>= f) (promoted clock now s done) := by
  obtain ⟨done, rest, hwalk, hrun⟩ :=
    @atomically_promoteDueWaitingTasksLocked α s clock now hs limit
  refine ⟨done, rest, hwalk,
    hs.applyAll (promoted_batch fun e he => (hwalk.wait e he).2).rows, fun f => ?_⟩
  simp only [promoteRounds, bind_assoc]
  rw [hrun]
  split <;> rfl

section Rounds

variable {J : Store → Prop} (hJ : ∀ s done, Rows (fun _ => True) s →
  (∀ e ∈ done, s.get? e.1 = some e.2 ∧ tiKVTaskWaitPrefix <+: e.1) →
  J s → J (promoted clock now s done)) (hs : Rows (fun _ => True) s) (adaptiveMax : Int)
include hJ hs

/-- What every round keeps holds after the rounds. -/
theorem atomically_promoteRounds (h : J s) (rounds : Nat) (limit : Int) :
    ∃ s', Rows (fun _ => True) s' ∧ J s' ∧ ∀ f : Unit → KV α,
      atomically (promoteRounds clock now adaptiveMax rounds limit >>= f) s =
        atomically (f ()) s' := by
  induction rounds generalizing s limit with
  | zero => exact ⟨s, hs, h, fun _ => rfl⟩
  | succ rounds ih =>
    obtain ⟨done, rest, hwalk, hs₁, hrun⟩ :=
      @atomically_promoteRounds_succ α s clock now hs adaptiveMax rounds limit
    have h₁ := hJ s done hs hwalk.wait h
    by_cases hend : (done.length : Int) < limit
    · exact ⟨_, hs₁, h₁, fun f => (hrun f).trans (if_pos hend)⟩
    · obtain ⟨s', hs', h', hrest⟩ := ih hs₁ h₁ (growLimit limit adaptiveMax)
      exact ⟨s', hs', h', fun f => ((hrun f).trans (if_neg hend)).trans (hrest f)⟩

/-- What the first round brings about and every round keeps holds after the rounds. -/
theorem atomically_promoteRounds_first {limit : Int}
    (hfirst : ∀ done rest, Walked (orNow now clock) (roundLimit limit)
      (prefixEntries s tiKVTaskWaitPrefix) done rest → J (promoted clock now s done))
    (rounds : Nat) : ∃ s', Rows (fun _ => True) s' ∧ J s' ∧ ∀ f : Unit → KV α,
      atomically (promoteRounds clock now adaptiveMax (rounds + 1) limit >>= f) s =
        atomically (f ()) s' := by
  obtain ⟨done, rest, hwalk, hs₁, hrun⟩ :=
    @atomically_promoteRounds_succ α s clock now hs adaptiveMax rounds limit
  have h₁ := hfirst done rest hwalk
  by_cases hend : (done.length : Int) < limit
  · exact ⟨_, hs₁, h₁, fun f => (hrun f).trans (if_pos hend)⟩
  · obtain ⟨s', hs', h', hrest⟩ := @atomically_promoteRounds α _ clock now J hJ hs₁ adaptiveMax h₁
      rounds (growLimit limit adaptiveMax)
    exact ⟨s', hs', h', fun f => ((hrun f).trans (if_neg hend)).trans (hrest f)⟩

end Rounds

end Alone

end TieredStore.Meta.Promotion
