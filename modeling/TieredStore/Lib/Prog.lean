import Mathlib

/-!
# Programs as trees of calls

A program is a tree: it returns, fails with an error, or makes a call and continues
with the answer. The same program is read in several ways.

* `run` answers every call with a function of a state: the program executed alone.
* `Path` follows the calls through a relation, so an answer may be any of several; a
  path may stop between two calls, and `Exec` is a path that reaches the end.
* `Obeys` checks a program against a `Monitor` without any state: every call must be
  allowed by what the program knows, whatever the answers were. A monitor that is sound
  for a relation (`Monitor.Sound`) turns this into an invariant of every path
  (`Obeys.path`).
-/

namespace TieredStore.Lib

/-- A program over the calls `Op`, where the call `o` is answered by a `Res o`. -/
inductive Prog (Op : Type) (Res : Op → Type) (ε α : Type) where
  | ret (a : α)
  | fail (e : ε)
  | call (o : Op) (k : Res o → Prog Op Res ε α)

namespace Prog

variable {Op : Type} {Res : Op → Type} {ε α β γ S τ : Type}

/-! ## Sequencing -/

protected def bind : Prog Op Res ε α → (α → Prog Op Res ε β) → Prog Op Res ε β
  | ret a, f => f a
  | fail e, _ => fail e
  | call o k, f => call o fun r => (k r).bind f

instance : Monad (Prog Op Res ε) where
  pure := ret
  bind := Prog.bind

/-- The program that makes one call and returns its answer. -/
def perform (o : Op) : Prog Op Res ε (Res o) := call o ret

/-- Run a program and hand its error to the caller as a value. -/
def attempt : Prog Op Res ε α → Prog Op Res ε (Except ε α)
  | ret a => ret (.ok a)
  | fail e => ret (.error e)
  | call o k => call o fun r => (k r).attempt

/-- Replace every call by a program over other calls. -/
def translate {Op' : Type} {Res' : Op' → Type} (f : (o : Op) → Prog Op' Res' ε (Res o)) :
    Prog Op Res ε α → Prog Op' Res' ε α
  | ret a => ret a
  | fail e => fail e
  | call o k => (f o).bind fun r => (k r).translate f

@[simp] theorem pure_bind' (a : α) (f : α → Prog Op Res ε β) :
    ((pure a : Prog Op Res ε α) >>= f) = f a := rfl

@[simp] theorem fail_bind (e : ε) (f : α → Prog Op Res ε β) :
    ((fail e : Prog Op Res ε α) >>= f) = fail e := rfl

@[simp] theorem call_bind (o : Op) (k : Res o → Prog Op Res ε α) (f : α → Prog Op Res ε β) :
    (call o k >>= f) = call o fun r => k r >>= f := rfl

theorem bind_ret (p : Prog Op Res ε α) : (p >>= ret) = p := by
  induction p with
  | ret a => rfl
  | fail e => rfl
  | call o k ih => exact congrArg (call o) (funext ih)

theorem bind_assoc' (p : Prog Op Res ε α) (f : α → Prog Op Res ε β)
    (g : β → Prog Op Res ε γ) : (p >>= f) >>= g = p >>= fun a => f a >>= g := by
  induction p with
  | ret a => rfl
  | fail e => rfl
  | call o k ih => exact congrArg (call o) (funext ih)

instance : LawfulMonad (Prog Op Res ε) :=
  LawfulMonad.mk' _ (fun p => bind_ret p) (fun _ _ => rfl) bind_assoc'

/-! ## Execution by a function -/

def run (h : (o : Op) → S → Res o × S) : Prog Op Res ε α → S → Except ε α × S
  | ret a, s => (.ok a, s)
  | fail e, s => (.error e, s)
  | call o k, s => (k (h o s).1).run h (h o s).2

/-- Continue a finished execution with the next program. -/
def andThen (h : (o : Op) → S → Res o × S) (f : α → Prog Op Res ε β) :
    Except ε α × S → Except ε β × S
  | (.ok a, s) => (f a).run h s
  | (.error e, s) => (.error e, s)

@[simp] theorem run_pure (h : (o : Op) → S → Res o × S) (a : α) (s : S) :
    (pure a : Prog Op Res ε α).run h s = (.ok a, s) := rfl

@[simp] theorem run_call (h : (o : Op) → S → Res o × S) (o : Op)
    (k : Res o → Prog Op Res ε α) (s : S) :
    (call o k).run h s = (k (h o s).1).run h (h o s).2 := rfl

@[simp] theorem andThen_ok (h : (o : Op) → S → Res o × S) (f : α → Prog Op Res ε β) (a : α)
    (s : S) : andThen h f (.ok a, s) = (f a).run h s := rfl

theorem run_bind (h : (o : Op) → S → Res o × S) (p : Prog Op Res ε α)
    (f : α → Prog Op Res ε β) (s : S) : (p >>= f).run h s = andThen h f (p.run h s) := by
  induction p generalizing s with
  | ret a => rfl
  | fail e => rfl
  | call o k ih => exact ih _ _

/-- A part that returned is replaced by its result. -/
theorem run_bind_ok {h : (o : Op) → S → Res o × S} {p : Prog Op Res ε α} {a : α} {s s' : S}
    (hp : p.run h s = (.ok a, s')) (f : α → Prog Op Res ε β) :
    (p >>= f).run h s = (f a).run h s' := by
  rw [run_bind, hp, andThen_ok]

/-- When a sequence returns, both of its parts do. -/
theorem run_bind_eq_ok {h : (o : Op) → S → Res o × S} {p : Prog Op Res ε α}
    {f : α → Prog Op Res ε β} {b : β} {s s'' : S} (hrun : (p >>= f).run h s = (.ok b, s'')) :
    ∃ a s', p.run h s = (.ok a, s') ∧ (f a).run h s' = (.ok b, s'') := by
  rw [run_bind] at hrun
  rcases hp : p.run h s with ⟨_ | a, s'⟩
  · rw [hp] at hrun
    cases hrun
  · rw [hp] at hrun
    exact ⟨a, s', rfl, hrun⟩

theorem run_attempt (h : (o : Op) → S → Res o × S) (p : Prog Op Res ε α) (s : S) :
    p.attempt.run h s = (.ok (p.run h s).1, (p.run h s).2) := by
  induction p generalizing s with
  | ret a => rfl
  | fail e => rfl
  | call o k ih => exact ih _ _

/-! ## Execution along a relation -/

/-- `Path sem p s q s'`: from the state `s`, the first calls of `p` lead to `s'`, where
the program `q` is left to run. -/
inductive Path (sem : (o : Op) → S → Res o → S → Prop) :
    Prog Op Res ε α → S → Prog Op Res ε α → S → Prop where
  | refl (p : Prog Op Res ε α) (s : S) : Path sem p s p s
  | call {o : Op} {k : Res o → Prog Op Res ε α} {s s₁ s₂ : S} {r : Res o}
      {q : Prog Op Res ε α} (step : sem o s r s₁) (rest : Path sem (k r) s₁ q s₂) :
      Path sem (.call o k) s q s₂

/-- The finished program with a given result. -/
def done : Except ε α → Prog Op Res ε α
  | .ok a => ret a
  | .error e => fail e

/-- A complete execution. -/
def Exec (sem : (o : Op) → S → Res o → S → Prop) (p : Prog Op Res ε α) (s : S)
    (out : Except ε α) (s' : S) : Prop := Path sem p s (done out) s'

/-- The relation of a function that answers calls. -/
def Answers (h : (o : Op) → S → Res o × S) (o : Op) (s : S) (r : Res o) (s' : S) : Prop :=
  h o s = (r, s')

theorem exec_run (h : (o : Op) → S → Res o × S) (p : Prog Op Res ε α) (s : S) :
    Exec (Answers h) p s (p.run h s).1 (p.run h s).2 := by
  induction p generalizing s with
  | ret a => exact .refl _ _
  | fail e => exact .refl _ _
  | call o k ih => exact .call rfl (ih _ _)

/-- Make the first `n` calls of a program: what is left to run, and the state. -/
def steps (h : (o : Op) → S → Res o × S) : Nat → Prog Op Res ε α → S → Prog Op Res ε α × S
  | n + 1, call o k, s => steps h n (k (h o s).1) (h o s).2
  | _, p, s => (p, s)

theorem path_steps (h : (o : Op) → S → Res o × S) (n : Nat) (p : Prog Op Res ε α) (s : S) :
    Path (Answers h) p s (steps h n p s).1 (steps h n p s).2 := by
  induction n generalizing p s with
  | zero => cases p <;> exact .refl _ _
  | succ n ih =>
    cases p with
    | call o k => exact .call rfl (ih _ _)
    | _ => exact .refl _ _

theorem exec_answers_iff {h : (o : Op) → S → Res o × S} {p : Prog Op Res ε α} {s s' : S}
    {out : Except ε α} : Exec (Answers h) p s out s' ↔ p.run h s = (out, s') := by
  constructor
  · intro hx
    induction p generalizing s with
    | ret a =>
      cases out <;> cases hx
      rfl
    | fail e =>
      cases out <;> cases hx
      rfl
    | call o k ih =>
      cases out <;> cases hx with
      | call step rest =>
        rw [run_call, show h o s = _ from step]
        exact ih _ rest
  · intro hr
    have := exec_run h p s
    rwa [hr] at this

theorem Path.mono {sem sem' : (o : Op) → S → Res o → S → Prop}
    (hsem : ∀ o s r s', sem o s r s' → sem' o s r s') {p q : Prog Op Res ε α} {s s' : S}
    (h : Path sem p s q s') : Path sem' p s q s' := by
  induction h with
  | refl p s => exact .refl p s
  | call step _ ih => exact .call (hsem _ _ _ _ step) ih

/-! ## Monitors -/

end Prog

/-- What a program may do: `allow t o` says that the call `o` is allowed when `t` is
known, and `next t o r t'` that the answer `r` is possible and leaves `t'` known. -/
structure Monitor (Op : Type) (Res : Op → Type) (τ : Type) where
  allow : τ → Op → Prop
  next : τ → (o : Op) → Res o → τ → Prop

namespace Prog

variable {Op : Type} {Res : Op → Type} {ε α β S τ : Type}

/-- Every call of the program is allowed, and every end satisfies `Q`. -/
def Obeys (mon : Monitor Op Res τ) (Q : Except ε α → τ → Prop) : Prog Op Res ε α → τ → Prop
  | ret a, t => Q (.ok a) t
  | fail e, t => Q (.error e) t
  | call o k, t => mon.allow t o ∧ ∀ r t', mon.next t o r t' → (k r).Obeys mon Q t'

@[simp] theorem obeys_pure {mon : Monitor Op Res τ} {Q : Except ε α → τ → Prop} {a : α} {t : τ} :
    (pure a : Prog Op Res ε α).Obeys mon Q t ↔ Q (.ok a) t := Iff.rfl

@[simp] theorem obeys_fail {mon : Monitor Op Res τ} {Q : Except ε α → τ → Prop} {e : ε} {t : τ} :
    (fail e : Prog Op Res ε α).Obeys mon Q t ↔ Q (.error e) t := Iff.rfl

theorem Obeys.mono {mon : Monitor Op Res τ} {Q Q' : Except ε α → τ → Prop}
    (hQ : ∀ x t, Q x t → Q' x t) {p : Prog Op Res ε α} {t : τ} (h : p.Obeys mon Q t) :
    p.Obeys mon Q' t := by
  induction p generalizing t with
  | ret a => exact hQ _ _ h
  | fail e => exact hQ _ _ h
  | call o k ih => exact ⟨h.1, fun r t' hn => ih r (h.2 r t' hn)⟩

/-- A program that obeys one monitor obeys another that simulates it: what the first allows the
second allows too, and the answers of the second are answers of the first. -/
theorem Obeys.simulate {τ' : Type} {mon : Monitor Op Res τ} {mon' : Monitor Op Res τ'}
    {M : τ → τ' → Prop}
    (hM : ∀ t t' o, M t t' → mon.allow t o → mon'.allow t' o ∧
      ∀ r t₁', mon'.next t' o r t₁' → ∃ t₁, mon.next t o r t₁ ∧ M t₁ t₁')
    {Q : Except ε α → τ → Prop} {Q' : Except ε α → τ' → Prop}
    (hQ : ∀ x t t', M t t' → Q x t → Q' x t') {p : Prog Op Res ε α} {t : τ} {t' : τ'}
    (ht : M t t') (h : p.Obeys mon Q t) : p.Obeys mon' Q' t' := by
  induction p generalizing t t' with
  | ret a => exact hQ _ _ _ ht h
  | fail e => exact hQ _ _ _ ht h
  | call o k ih =>
    obtain ⟨hallow, hnext⟩ := hM t t' o ht h.1
    refine ⟨hallow, ?_⟩
    intro r t₁' hn
    obtain ⟨t₁, hn₁, ht₁⟩ := hnext r t₁' hn
    exact ih r ht₁ (h.2 r t₁ hn₁)

theorem Obeys.bind {mon : Monitor Op Res τ} {R : Except ε α → τ → Prop}
    {Q : Except ε β → τ → Prop} {p : Prog Op Res ε α} {f : α → Prog Op Res ε β} {t : τ}
    (hp : p.Obeys mon R t) (herr : ∀ e t', R (.error e) t' → Q (.error e) t')
    (hok : ∀ a t', R (.ok a) t' → (f a).Obeys mon Q t') : (p >>= f).Obeys mon Q t := by
  induction p generalizing t with
  | ret a => exact hok a t hp
  | fail e => exact herr e t hp
  | call o k ih => exact ⟨hp.1, fun r t' hn => ih r (hp.2 r t' hn)⟩

/-- After an attempt the caller sees the result, also when it is an error. -/
theorem Obeys.attempt_bind {mon : Monitor Op Res τ} {R : Except ε α → τ → Prop}
    {Q : Except ε β → τ → Prop} {p : Prog Op Res ε α} {f : Except ε α → Prog Op Res ε β} {t : τ}
    (hp : p.Obeys mon R t) (hf : ∀ x t', R x t' → (f x).Obeys mon Q t') :
    (p.attempt >>= f).Obeys mon Q t := by
  induction p generalizing t with
  | ret a => exact hf _ t hp
  | fail e => exact hf _ t hp
  | call o k ih => exact ⟨hp.1, fun r t' hn => ih r (hp.2 r t' hn)⟩

/-- A program obeys a monitor of the calls below when each of its calls is answered there as its
own monitor says. -/
theorem Obeys.translate {Op' : Type} {Res' : Op' → Type} {τ' : Type} {mon : Monitor Op Res τ}
    {mon' : Monitor Op' Res' τ'} {f : (o : Op) → Prog Op' Res' ε (Res o)} {E : τ → τ'}
    (hf : ∀ t o, mon.allow t o → (f o).Obeys mon'
      (fun x t' => ∃ r t₁, x = .ok r ∧ mon.next t o r t₁ ∧ t' = E t₁) (E t))
    {Q : Except ε α → τ → Prop} {p : Prog Op Res ε α} {t : τ} (h : p.Obeys mon Q t) :
    (p.translate f).Obeys mon' (fun x t' => ∃ t₁, t' = E t₁ ∧ Q x t₁) (E t) := by
  induction p generalizing t with
  | ret a => exact ⟨t, rfl, h⟩
  | fail e => exact ⟨t, rfl, h⟩
  | call o k ih =>
    refine (hf t o h.1).bind ?_ ?_
    · rintro e t' ⟨r, t₁, hx, -⟩
      cases hx
    · rintro r t' ⟨r', t₁, hx, hn, rfl⟩
      cases hx
      exact ih r (h.2 r t₁ hn)

/-! ## Programs that know the state -/

/-- The monitor of a program that knows the state along a relation; `I` holds before each call. -/
def stateMonitor (sem : (o : Op) → S → Res o → S → Prop) (I : S → Prop) : Monitor Op Res S where
  allow s _ := I s
  next s o r s' := sem o s r s'

theorem Obeys.state_path {sem : (o : Op) → S → Res o → S → Prop} {I : S → Prop}
    {Q : Except ε α → S → Prop} {p q : Prog Op Res ε α} {s s' : S}
    (hp : p.Obeys (stateMonitor sem I) Q s) (path : Path sem p s q s') :
    q.Obeys (stateMonitor sem I) Q s' := by
  induction path with
  | refl p s => exact hp
  | call step _ ih => exact ih (hp.2 _ _ step)

/-- A program that knows the state knows `I` wherever it stands. -/
theorem Obeys.state_inv {sem : (o : Op) → S → Res o → S → Prop} {I : S → Prop}
    {Q : Except ε α → S → Prop} (hQ : ∀ out s, Q out s → I s) {p : Prog Op Res ε α} {s : S}
    (hp : p.Obeys (stateMonitor sem I) Q s) : I s := by
  cases p with
  | ret a => exact hQ _ _ hp
  | fail e => exact hQ _ _ hp
  | call o k => exact hp.1

theorem Obeys.state_exec {sem : (o : Op) → S → Res o → S → Prop} {I : S → Prop}
    {Q : Except ε α → S → Prop} {p : Prog Op Res ε α} {s s' : S} {out : Except ε α}
    (hp : p.Obeys (stateMonitor sem I) Q s) (hx : Exec sem p s out s') : Q out s' := by
  have hq := hp.state_path hx
  cases out <;> exact hq

/-! ## Logs -/

/-- A finished call and its answer. -/
structure Event (Op : Type) (Res : Op → Type) where
  op : Op
  answer : Res op

/-- A relation that also writes down the calls. -/
def logged (sem : (o : Op) → S → Res o → S → Prop) (o : Op) (x : S × List (Event Op Res))
    (r : Res o) (y : S × List (Event Op Res)) : Prop :=
  sem o x.1 r y.1 ∧ y.2 = x.2 ++ [⟨o, r⟩]

/-- A handler that also writes down the calls. -/
def recorded (h : (o : Op) → S → Res o × S) (o : Op) (x : S × List (Event Op Res)) :
    Res o × S × List (Event Op Res) :=
  ((h o x.1).1, (h o x.1).2, x.2 ++ [⟨o, (h o x.1).1⟩])

theorem run_recorded (h : (o : Op) → S → Res o × S) (p : Prog Op Res ε α)
    (x : S × List (Event Op Res)) :
    p.run h x.1 = ((p.run (recorded h) x).1, (p.run (recorded h) x).2.1) := by
  induction p generalizing x with
  | ret a => rfl
  | fail e => rfl
  | call o k ih => exact ih _ (recorded h o x).2

/-- Where every call has an answer, every program has an execution. -/
theorem exists_exec {sem : (o : Op) → S → Res o → S → Prop}
    (htotal : ∀ o s, ∃ r s', sem o s r s') (p : Prog Op Res ε α) (s : S) :
    ∃ out s', Exec sem p s out s' := by
  induction p generalizing s with
  | ret a => exact ⟨.ok a, s, .refl _ _⟩
  | fail e => exact ⟨.error e, s, .refl _ _⟩
  | call o k ih =>
    obtain ⟨r, s₁, hstep⟩ := htotal o s
    obtain ⟨out, s', hrest⟩ := ih r s₁
    exact ⟨out, s', .call hstep hrest⟩

theorem logged_total {sem : (o : Op) → S → Res o → S → Prop} (htotal : ∀ o s, ∃ r s', sem o s r s')
    (o : Op) (x : S × List (Event Op Res)) : ∃ r y, logged sem o x r y := by
  obtain ⟨r, s', hstep⟩ := htotal o x.1
  exact ⟨r, (s', _), hstep, rfl⟩

/-! ## Programs that run alone -/

/-- The monitor of a program that nothing interrupts: it knows the state. Every step keeps `I`
and either leaves the state alone or is a step of `R`. -/
def stepMonitor (h : (o : Op) → S → Res o × S) (I : S → Prop) (R : S → S → Prop) :
    Monitor Op Res S where
  allow s o := I (h o s).2 ∧ ((h o s).2 = s ∨ R s (h o s).2)
  next s o r s' := h o s = (r, s')

variable {h : (o : Op) → S → Res o × S} {I : S → Prop} {R : S → S → Prop}

theorem obeys_step_call {Q : Except ε α → S → Prop} {o : Op} {k : Res o → Prog Op Res ε α} {s : S}
    (hI : I (h o s).2) (hR : (h o s).2 = s ∨ R s (h o s).2)
    (hk : (k (h o s).1).Obeys (stepMonitor h I R) Q (h o s).2) :
    (call o k).Obeys (stepMonitor h I R) Q s := by
  refine ⟨⟨hI, hR⟩, ?_⟩
  intro r s' hn
  have hn : h o s = (r, s') := hn
  rw [hn] at hk
  exact hk

/-- Wherever a path stops, `I` holds, and so does every `J` that the steps of `R` keep. -/
theorem Obeys.step_path {Q : Except ε α → S → Prop} {J : S → Prop}
    (hJ : ∀ s s', I s → I s' → R s s' → J s → J s') {p q : Prog Op Res ε α} {s s' : S}
    (hp : p.Obeys (stepMonitor h I R) Q s) (hI : I s) (hs : J s)
    (path : Path (Answers h) p s q s') :
    I s' ∧ J s' ∧ q.Obeys (stepMonitor h I R) Q s' := by
  induction path with
  | refl p s => exact ⟨hI, hs, hp⟩
  | @call o k s s₁ s₂ r q step _ ih =>
    have hstep : h o s = (r, s₁) := step
    obtain ⟨hI₁, hR⟩ := hp.1
    rw [hstep] at hI₁ hR
    refine ih (hp.2 r s₁ hstep) hI₁ ?_
    rcases hR with heq | hR
    · dsimp only at heq
      exact heq ▸ hs
    · exact hJ s s₁ hI hI₁ hR hs

/-- What the steps of `R` do can be seen through another invariant and another relation. -/
theorem Obeys.step_mono {Q : Except ε α → S → Prop} {I' : S → Prop} {R' : S → S → Prop}
    (hR : ∀ s s', I s → I s' → R s s' → I' s → I' s' ∧ R' s s') {p : Prog Op Res ε α} {s : S}
    (hp : p.Obeys (stepMonitor h I R) Q s) (hI : I s) (hI' : I' s) :
    p.Obeys (stepMonitor h I' R') (fun out s' => Q out s' ∧ I' s') s := by
  refine hp.simulate (M := fun t s => t = s ∧ I s ∧ I' s) ?_ ?_ ⟨rfl, hI, hI'⟩
  · rintro t s o ⟨rfl, hI, hI'⟩ ⟨hnext, hstep⟩
    have hkept : I' (h o t).2 ∧ ((h o t).2 = t ∨ R' t (h o t).2) := by
      rcases hstep with heq | hstep
      · exact ⟨heq.symm ▸ hI', Or.inl heq⟩
      · exact (hR t _ hI hnext hstep hI').imp_right Or.inr
    refine ⟨hkept, fun r s' hs' => ⟨s', hs', rfl, ?_⟩⟩
    have hs' : h o t = (r, s') := hs'
    rw [hs'] at hnext hkept
    exact ⟨hnext, hkept.1⟩
  · rintro out t s ⟨rfl, -, hI'⟩ hQ
    exact ⟨hQ, hI'⟩

/-- The same for the whole run, whose result satisfies `Q`. -/
theorem Obeys.step_run {Q : Except ε α → S → Prop} {J : S → Prop}
    (hJ : ∀ s s', I s → I s' → R s s' → J s → J s') {p : Prog Op Res ε α} {s : S}
    (hp : p.Obeys (stepMonitor h I R) Q s) (hI : I s) (hs : J s) :
    Q (p.run h s).1 (p.run h s).2 ∧ I (p.run h s).2 ∧ J (p.run h s).2 := by
  obtain ⟨hI', hs', hq⟩ := hp.step_path hJ hI hs (exec_run h p s)
  refine ⟨?_, hI', hs'⟩
  cases hres : (p.run h s).1 <;> (rw [hres] at hq; exact hq)

end Prog

end TieredStore.Lib
