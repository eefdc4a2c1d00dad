import TieredStore.Cluster.Calls

/-!
# The calls that a job makes

`Within A R p Q` says that every call of the job `p` is one of `A`, whatever the answers are as long
as they satisfy `R`, and that a result of the job satisfies `Q`. One rule per construct; the jobs
themselves get one lemma each, in terms of the calls that they make.
-/

namespace TieredStore.Cluster

open Lib Lib.Prog Meta

/-- Calls that change nothing. -/
def Call.Passive : Call → Prop
  | .repo (.getObjectVersionSnapshot _ _) | .repo (.listActiveReplicaLocations _ _)
  | .repo (.getObjectVersionGCView _ _) | .repo (.getObjectAdminView _)
  | .repo (.getNormalizedMetadata _) => True
  | .listHealthyNodeIDs | .activeNodes | .retrieve _ _ | .schedule _ | .now => True
  | .repo _ | .store _ _ _ | .delete _ _ => False

/-- The calls of `A`, with answers in `R`. What is known does not matter. -/
def confined {τ : Type} (A : Call → Prop) (R : (c : Call) → c.Answer → Prop) :
    Monitor Call Call.Answer τ where
  allow _ c := A c
  next t c r t' := R c r ∧ t' = t

/-- The job makes calls of `A` only, and its result satisfies `Q`. -/
def Within {α : Type} (A : Call → Prop) (R : (c : Call) → c.Answer → Prop) (p : Job α)
    (Q : α → Prop) : Prop := p.Obeys (confined A R) (fun out _ => ∀ a, out = .ok a → Q a) ()

section Rules

variable {α β : Type} {A : Call → Prop} {R : (c : Call) → c.Answer → Prop} {Q : α → Prop}
  {Q' : β → Prop}

theorem within_pure {a : α} (h : Q a) : Within A R (pure a) Q := by
  rintro _ ⟨⟩
  exact h

theorem within_fail {e : GoError} : Within A R (.fail e) Q := nofun

theorem Within.mono {Q₂ : α → Prop} {p : Job α} (h : Within A R p Q) (hQ : ∀ a, Q a → Q₂ a) :
    Within A R p Q₂ :=
  Obeys.mono (fun _ _ hout a ha => hQ a (hout a ha)) h

theorem Within.bind {p : Job α} {f : α → Job β} (hp : Within A R p Q)
    (hf : ∀ a, Q a → Within A R (f a) Q') : Within A R (p >>= f) Q' :=
  Obeys.bind hp (fun _ _ _ => nofun) fun a _ h => hf a (h a rfl)

theorem within_repo {c : RepoCall} {f : c.Answer → Job β} (hA : A (.repo c))
    (hf : ∀ a, R (.repo c) (.ok a) → Within A R (f a) Q') : Within A R (Job.repo c >>= f) Q' :=
  Job.obeys_repo hA (fun _ _ _ => nofun) fun a _ h => hf a h.1

/-- The last call of a job. -/
theorem within_repo_last {c : RepoCall} (hA : A (.repo c)) :
    Within A R (Job.repo c) fun _ => True := by
  rw [← bind_pure (Job.repo c)]
  exact within_repo hA fun _ _ => within_pure trivial

theorem within_repo_attempt {c : RepoCall} {f : Except GoError c.Answer → Job β} (hA : A (.repo c))
    (hf : ∀ r, R (.repo c) r → Within A R (f r) Q') :
    Within A R ((Job.repo c).attempt >>= f) Q' := by
  rw [Job.repo_attempt_bind]
  exact ⟨hA, fun r _ h => hf r h.1⟩

theorem within_listHealthyNodeIDs {f : List GoString → Job β} (hA : A .listHealthyNodeIDs)
    (hf : ∀ nodes, Within A R (f nodes) Q') : Within A R (Job.listHealthyNodeIDs >>= f) Q' := by
  rw [Job.listHealthyNodeIDs_bind]
  refine ⟨hA, fun r _ _ => ?_⟩
  cases r with
  | error e => exact within_fail
  | ok nodes => exact hf nodes

theorem within_now {f : Time → Job β} (hA : A .now)
    (hf : ∀ t, R .now t → Within A R (f t) Q') : Within A R (Job.now >>= f) Q' :=
  ⟨hA, fun t _ h => hf t h.1⟩

theorem within_store {n k : GoString} {data : Blob} {f : Reply → Job β} (hA : A (.store n k data))
    (hf : ∀ reply, Within A R (f reply) Q') : Within A R (Job.store n k data >>= f) Q' :=
  ⟨hA, fun r _ _ => hf r⟩

theorem within_retrieve {n k : GoString} {f : Reply → Job β} (hA : A (.retrieve n k))
    (hf : ∀ reply, Within A R (f reply) Q') : Within A R (Job.retrieve n k >>= f) Q' :=
  ⟨hA, fun r _ _ => hf r⟩

theorem within_delete {n k : GoString} {f : Reply → Job β} (hA : A (.delete n k))
    (hf : ∀ reply, Within A R (f reply) Q') : Within A R (Job.delete n k >>= f) Q' :=
  ⟨hA, fun r _ _ => hf r⟩

theorem within_schedule {xs : List α} {f : List α → Job β} (hA : A (.schedule xs.length))
    (hf : ∀ ys, ys.Perm xs → Within A R (f ys) Q') : Within A R (Job.schedule xs >>= f) Q' :=
  Job.obeys_schedule hA fun ys _ _ hperm _ => hf ys hperm

/-- The same for a monitor that knows something else. -/
theorem Within.obeys {τ : Type} {p : Job α} (h : Within A R p Q) (t : τ) :
    p.Obeys (confined A R) (fun _ _ => True) t := by
  refine Obeys.simulate (M := fun _ t' => t' = t) ?_ (fun _ _ _ _ _ => trivial) rfl h
  intro _ t' c ht hallow
  refine ⟨hallow, ?_⟩
  rintro r t'' ⟨hr, heq⟩
  exact ⟨(), ⟨hr, rfl⟩, heq.trans ht⟩

end Rules

end TieredStore.Cluster
