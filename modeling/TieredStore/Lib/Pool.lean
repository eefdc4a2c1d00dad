import TieredStore.Lib.Prog

/-!
# Interleaved programs

Several programs run over one shared state. A configuration holds, for every process
number, the role of the process and the rest of its program. A step starts a process in
a free slot, or lets one process make its next call; a process that is never scheduled
again has crashed.

`Discipline` is the interference rule: every role has a monitor, the knowledge of a
process is read against the shared state, and a step of one process keeps the invariant,
its own knowledge and the knowledge of every other process. `Discipline.reaches` gives
the invariant in every reachable configuration.
-/

namespace TieredStore.Lib

open Prog

/-- The processes and the state they share. -/
structure Pool (Op : Type) (Res : Op → Type) (ε α ρ S : Type) where
  procs : Nat → Option (ρ × Prog Op Res ε α)
  state : S

namespace Pool

variable {Op : Type} {Res : Op → Type} {ε α ρ S τ : Type}

/-- One step: a process starts, or process `i` makes its next call. -/
inductive Step (start : Nat → ρ → Prog Op Res ε α → S → S → Prop)
    (sem : Nat → ρ → (o : Op) → S → Res o → S → Prop) :
    Pool Op Res ε α ρ S → Pool Op Res ε α ρ S → Prop where
  | start {c : Pool Op Res ε α ρ S} {i : Nat} {r : ρ} {p : Prog Op Res ε α} {s' : S}
      (free : c.procs i = none) (begins : start i r p c.state s') :
      Step start sem c ⟨Function.update c.procs i (some (r, p)), s'⟩
  | call {c : Pool Op Res ε α ρ S} {i : Nat} {r : ρ} {o : Op}
      {k : Res o → Prog Op Res ε α} {res : Res o} {s' : S}
      (next : c.procs i = some (r, .call o k)) (step : sem i r o c.state res s') :
      Step start sem c ⟨Function.update c.procs i (some (r, k res)), s'⟩

def Reaches (start : Nat → ρ → Prog Op Res ε α → S → S → Prop)
    (sem : Nat → ρ → (o : Op) → S → Res o → S → Prop) :
    Pool Op Res ε α ρ S → Pool Op Res ε α ρ S → Prop :=
  Relation.ReflTransGen (Step start sem)

/-- No process has been started. -/
def idle (s : S) : Pool Op Res ε α ρ S := ⟨fun _ => none, s⟩

/-! ## Schedules -/

/-- Put a program into a slot. -/
def spawn (c : Pool Op Res ε α ρ S) (i : Nat) (r : ρ) (p : Prog Op Res ε α) :
    Pool Op Res ε α ρ S :=
  ⟨Function.update c.procs i (some (r, p)), c.state⟩

/-- Let process `i` make its next call, answered by a function. -/
def advance (h : Nat → ρ → (o : Op) → S → Res o × S) (c : Pool Op Res ε α ρ S) (i : Nat) :
    Pool Op Res ε α ρ S :=
  match c.procs i with
  | some (r, .call o k) =>
    ⟨Function.update c.procs i (some (r, k (h i r o c.state).1)), (h i r o c.state).2⟩
  | _ => c

theorem Reaches.spawn {start : Nat → ρ → Prog Op Res ε α → S → S → Prop}
    {sem : Nat → ρ → (o : Op) → S → Res o → S → Prop} {c₀ c : Pool Op Res ε α ρ S} {i : Nat}
    {r : ρ} {p : Prog Op Res ε α} (hc : Reaches start sem c₀ c) (hfree : c.procs i = none)
    (hstart : start i r p c.state c.state) : Reaches start sem c₀ (c.spawn i r p) :=
  hc.tail (.start hfree hstart)

theorem Reaches.advance {start : Nat → ρ → Prog Op Res ε α → S → S → Prop}
    {sem : Nat → ρ → (o : Op) → S → Res o → S → Prop} (h : Nat → ρ → (o : Op) → S → Res o × S)
    {c₀ c : Pool Op Res ε α ρ S} (hc : Reaches start sem c₀ c) (i : Nat)
    (hsem : ∀ r o k, c.procs i = some (r, .call o k) →
      sem i r o c.state (h i r o c.state).1 (h i r o c.state).2) :
    Reaches start sem c₀ (c.advance h i) := by
  unfold Pool.advance
  split
  · rename_i r o k hi
    exact hc.tail (.call hi (hsem r o k hi))
  · exact hc

/-- Let the processes of a schedule make their next calls, one after the other. -/
def advanceAll (h : Nat → ρ → (o : Op) → S → Res o × S) (c : Pool Op Res ε α ρ S)
    (schedule : List Nat) : Pool Op Res ε α ρ S :=
  schedule.foldl (advance h) c

theorem Reaches.advanceAll {start : Nat → ρ → Prog Op Res ε α → S → S → Prop}
    {sem : Nat → ρ → (o : Op) → S → Res o → S → Prop} {h : Nat → ρ → (o : Op) → S → Res o × S}
    (hsem : ∀ i r o s, sem i r o s (h i r o s).1 (h i r o s).2) {c₀ c : Pool Op Res ε α ρ S}
    (hc : Reaches start sem c₀ c) (schedule : List Nat) :
    Reaches start sem c₀ (c.advanceAll h schedule) := by
  induction schedule generalizing c with
  | nil => exact hc
  | cons i schedule ih => exact ih (hc.advance h i fun r o _ _ => hsem i r o c.state)

theorem procs_advance_of_ne {h : Nat → ρ → (o : Op) → S → Res o × S} {c : Pool Op Res ε α ρ S}
    {i j : Nat} (hj : j ≠ i) : (c.advance h i).procs j = c.procs j := by
  unfold advance
  split
  · exact Function.update_of_ne hj _ _
  · rfl

theorem procs_advanceAll_of_notMem {h : Nat → ρ → (o : Op) → S → Res o × S}
    {c : Pool Op Res ε α ρ S} {schedule : List Nat} {j : Nat} (hj : j ∉ schedule) :
    (c.advanceAll h schedule).procs j = c.procs j := by
  induction schedule generalizing c with
  | nil => rfl
  | cons i schedule ih =>
    rw [List.mem_cons, not_or] at hj
    exact (ih hj.2).trans (procs_advance_of_ne hj.1)

/-! ## Interference -/

/-- The interference rule for an invariant `Inv` and the knowledge `L` of processes. -/
structure Discipline (start : Nat → ρ → Prog Op Res ε α → S → S → Prop)
    (sem : Nat → ρ → (o : Op) → S → Res o → S → Prop) (mon : ρ → Monitor Op Res τ)
    (Q : ρ → Except ε α → τ → Prop) (Inv : S → Prop) (L : Nat → ρ → τ → S → Prop) : Prop where
  onCall : ∀ {i r t o s res s'}, Inv s → L i r t s → (mon r).allow t o → sem i r o s res s' →
    Inv s' ∧ ∃ t', (mon r).next t o res t' ∧ L i r t' s'
  onOtherCall : ∀ {i r t o s res s' j r' t'}, Inv s → L i r t s → (mon r).allow t o →
    sem i r o s res s' → j ≠ i → L j r' t' s → L j r' t' s'
  onStart : ∀ {i r p s s'}, Inv s → start i r p s s' →
    Inv s' ∧ ∃ t, p.Obeys (mon r) (Q r) t ∧ L i r t s'
  onOtherStart : ∀ {i r p s s' j r' t'}, Inv s → start i r p s s' → j ≠ i → L j r' t' s →
    L j r' t' s'

/-- What the interference rule keeps: the invariant, and knowledge for every process. -/
def Governed (mon : ρ → Monitor Op Res τ) (Q : ρ → Except ε α → τ → Prop) (Inv : S → Prop)
    (L : Nat → ρ → τ → S → Prop) (c : Pool Op Res ε α ρ S) : Prop :=
  Inv c.state ∧ ∀ i r p, c.procs i = some (r, p) →
    ∃ t, p.Obeys (mon r) (Q r) t ∧ L i r t c.state

namespace Discipline

variable {start : Nat → ρ → Prog Op Res ε α → S → S → Prop}
  {sem : Nat → ρ → (o : Op) → S → Res o → S → Prop} {mon : ρ → Monitor Op Res τ}
  {Q : ρ → Except ε α → τ → Prop} {Inv : S → Prop} {L : Nat → ρ → τ → S → Prop}
  {c c' : Pool Op Res ε α ρ S}

theorem step (d : Discipline start sem mon Q Inv L) (hc : Governed mon Q Inv L c)
    (h : Step start sem c c') : Governed mon Q Inv L c' := by
  obtain ⟨hInv, hProcs⟩ := hc
  cases h with
  | @start i r p s' free begins =>
    obtain ⟨hInv', t, hp, hL⟩ := d.onStart hInv begins
    refine ⟨hInv', ?_⟩
    intro j r' p' hj
    dsimp only at hj
    by_cases hij : j = i
    · subst hij
      rw [Function.update_self, Option.some.injEq, Prod.mk.injEq] at hj
      obtain ⟨rfl, rfl⟩ := hj
      exact ⟨t, hp, hL⟩
    · rw [Function.update_of_ne hij] at hj
      obtain ⟨t', hp', hL'⟩ := hProcs j r' p' hj
      exact ⟨t', hp', d.onOtherStart hInv begins hij hL'⟩
  | @call i r o k res s' next step =>
    obtain ⟨t, hp, hL⟩ := hProcs i r _ next
    obtain ⟨hInv', t₁, hn, hL₁⟩ := d.onCall hInv hL hp.1 step
    refine ⟨hInv', ?_⟩
    intro j r' p' hj
    dsimp only at hj
    by_cases hij : j = i
    · subst hij
      rw [Function.update_self, Option.some.injEq, Prod.mk.injEq] at hj
      obtain ⟨rfl, rfl⟩ := hj
      exact ⟨t₁, hp.2 _ _ hn, hL₁⟩
    · rw [Function.update_of_ne hij] at hj
      obtain ⟨t', hp', hL'⟩ := hProcs j r' p' hj
      exact ⟨t', hp', d.onOtherCall hInv hL hp.1 step hij hL'⟩

theorem reaches (d : Discipline start sem mon Q Inv L) (hc : Governed mon Q Inv L c)
    (h : Reaches start sem c c') : Governed mon Q Inv L c' := by
  induction h with
  | refl => exact hc
  | tail _ hstep ih => exact d.step ih hstep

theorem governed_idle {s : S} (h : Inv s) :
    Governed mon Q Inv L (idle s : Pool Op Res ε α ρ S) := by
  refine ⟨h, ?_⟩
  intro i r p hi
  cases hi

end Discipline

end Pool

end TieredStore.Lib
