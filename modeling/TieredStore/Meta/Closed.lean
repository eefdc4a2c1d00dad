import TieredStore.Meta.Specs

/-!
# Properties of programs that the scans inherit

The scans of the policy scanner are long programs, but all they do is read, loop and call a few
functions that write. A property of programs that is closed under sequencing and holds of reads
(`Closed`) therefore holds of a scan as soon as it holds of the functions that write: the removal
of a due entry, the enqueue of a migration, and the enqueue of a repair or history task.
-/

namespace TieredStore.Meta

open Lib

/-- A property of programs that sequencing keeps and that holds of reads. -/
structure Closed (K : (α : Type) → KV α → Prop) : Prop where
  pure : ∀ {α : Type} (a : α), K α (pure a)
  fail : ∀ {α : Type} (e : GoError), K α (.fail e)
  bind : ∀ {α β : Type} {p : KV α} {f : α → KV β}, K α p → (∀ a, K β (f a)) → K β (p >>= f)
  attempt : ∀ {α β : Type} {p : KV α} {f : Except GoError α → KV β}, K α p → (∀ x, K β (f x)) →
    K β (p.attempt >>= f)
  getJSON : ∀ {α : Type} (decode : Value → Option α) (k : GoString), K (Option α) (getJSON decode k)
  iter : ∀ pre : GoString, K (List (GoString × Value)) (KV.newPrefixIter pre)

namespace Closed

variable {K : (α : Type) → KV α → Prop} {clock now : Time}

theorem ite (_ : Closed K) {α : Type} {c : Prop} [Decidable c] {p q : KV α} (hp : K α p)
    (hq : K α q) : K α (if c then p else q) := by
  split
  · exact hp
  · exact hq

theorem decodeAll (hK : Closed K) {α : Type} (decode : Value → Option α) (what : GoString)
    (es : List (GoString × Value)) : K (List α) (decodeAll decode what es) := by
  rcases decodeAll_cases decode what es with ⟨rs, hrs, -⟩ | ⟨err, herr⟩
  · rw [hrs]
    exact hK.pure rs
  · rw [herr]
    exact hK.fail err

theorem listReplicaRecords (hK : Closed K) (o : GoString) (v : Int) (status : RowStatus) :
    K (List ReplicaRecord) (listReplicaRecords o v status) :=
  hK.bind (hK.iter _) fun _ => hK.bind (hK.decodeAll _ _ _) fun _ => hK.pure _

theorem listECShardRecords (hK : Closed K) (o : GoString) (v : Int) :
    K (List ECShardRecord) (listECShardRecords o v) :=
  hK.bind (hK.iter _) fun _ => hK.decodeAll _ _ _

theorem listObjects (hK : Closed K) : K (List ObjectRecord) listObjects :=
  hK.bind (hK.iter _) fun _ => hK.decodeAll _ _ _

/-! ## The reading calls -/

theorem getObjectVersionSnapshot (hK : Closed K) (o : GoString) (v : Int) :
    K (Option ObjectVersionSnapshot) (getObjectVersionSnapshot o v) := by
  refine hK.bind (hK.getJSON _ _) fun obj => ?_
  cases obj with
  | none => exact hK.pure _
  | some obj =>
    refine hK.bind (hK.getJSON _ _) fun ver => ?_
    cases ver <;> exact hK.pure _

theorem listActiveReplicaLocations (hK : Closed K) (o : GoString) (v : Int) :
    K (List ReplicaLocation) (listActiveReplicaLocations o v) :=
  hK.bind (hK.listReplicaRecords o v .active) fun _ => hK.pure _

theorem getObjectVersionGCView (hK : Closed K) (o : GoString) (v : Int) :
    K (Option ObjectVersionGCView) (getObjectVersionGCView o v) := by
  refine hK.bind (hK.getJSON _ _) fun obj => ?_
  cases obj with
  | none => exact hK.pure _
  | some obj =>
    refine hK.bind (hK.getJSON _ _) fun ver => ?_
    cases ver with
    | none => exact hK.pure _
    | some ver =>
      exact hK.bind (hK.listReplicaRecords o v .active) fun _ =>
        hK.bind (hK.listECShardRecords o v) fun _ => hK.pure _

theorem getObjectAdminView (hK : Closed K) (o : GoString) :
    K (Option ObjectAdminView) (getObjectAdminView o) := by
  refine hK.bind (hK.getJSON _ _) fun obj => ?_
  cases obj with
  | none => exact hK.pure _
  | some obj =>
    exact hK.bind (hK.getJSON _ _) fun _ =>
      hK.bind (hK.listReplicaRecords o _ .unset) fun _ =>
        hK.bind (hK.listECShardRecords o _) fun _ => hK.pure _

theorem getNormalizedMetadata (hK : Closed K) (o : GoString) :
    K (Option Metadata) (getNormalizedMetadata o) := by
  refine hK.bind (hK.getJSON _ _) fun obj => ?_
  cases obj with
  | none => exact hK.pure _
  | some obj =>
    refine hK.bind (hK.getJSON _ _) fun ver => ?_
    cases ver with
    | none => exact hK.pure _
    | some ver =>
      refine hK.bind (hK.listReplicaRecords o _ .active) fun _ => ?_
      exact hK.ite (hK.bind (hK.listECShardRecords o _) fun _ => hK.pure _)
        (hK.bind (hK.pure _) fun _ => hK.pure _)

/-! ## The tiering scan -/

theorem scanDueWindow (hK : Closed K) {start : GoString} {room : Nat}
    {es : List (GoString × Value)} {acc : DueWindow} :
    K DueWindow (scanDueWindow now start room es acc) := by
  induction es generalizing room acc with
  | nil => exact hK.pure _
  | cons e rest ih =>
    obtain ⟨key, v⟩ := e
    unfold Meta.scanDueWindow
    split
    · exact ih
    · split
      · exact hK.pure _
      · split
        · exact hK.fail _
        · split
          · exact hK.pure _
          · split
            · exact hK.pure _
            · exact ih

theorem tieringCandidate (hK : Closed K) (hdue : ∀ o v, K Unit (removeTieringDueIndexByVersion o v))
    (before : Time) (due : TierDueCandidate) :
    K (Option TieringCandidate) (tieringCandidate before due) := by
  have hdrop : ∀ o v, K (Option TieringCandidate) (dropDueEntry o v) :=
    fun o v => hK.attempt (hdue o v) fun _ => hK.pure _
  unfold Meta.tieringCandidate
  dsimp only
  split
  · exact hK.pure _
  · refine hK.bind (hK.getJSON _ _) ?_
    intro found
    split
    · exact hdrop _ _
    · split
      · exact hdrop _ _
      · split
        · exact hdrop _ _
        · split
          · exact hK.pure _
          · refine hK.bind (hK.getJSON _ _) ?_
            intro ver
            split
            · exact hdrop _ _
            · split
              · exact hdrop _ _
              · exact hK.pure _

section Tiering

variable (hK : Closed K)
  (hcandidate : ∀ before due, K (Option TieringCandidate) (Meta.tieringCandidate before due))
include hK hcandidate

theorem windowCandidates {before : Time} (dues : List TierDueCandidate) :
    K (List TieringCandidate) (windowCandidates before dues) := by
  induction dues with
  | nil => exact hK.pure _
  | cons due rest ih =>
    exact hK.bind (hcandidate _ _) fun _ => hK.bind ih fun _ => hK.pure _

theorem gatherCandidates {cfg : Config} {before : Time} {maxObjects adaptiveMax : Int}
    {budget : Bool} {rounds : Nat} {limit : Int} {cursor : GoString} {cs : List TieringCandidate} :
    K (List TieringCandidate)
      (gatherCandidates cfg now before maxObjects adaptiveMax budget rounds limit cursor cs) := by
  induction rounds generalizing limit cursor cs with
  | zero => exact hK.pure _
  | succ rounds ih =>
    unfold Meta.gatherCandidates
    refine hK.bind (hK.bind (hK.iter _) fun _ => hK.scanDueWindow) ?_
    intro w
    split
    · exact hK.pure _
    · refine hK.bind (hK.windowCandidates hcandidate _) ?_
      intro found
      dsimp only
      split
      · exact hK.pure _
      · split
        · exact hK.pure _
        · exact ih

omit hcandidate in
theorem enqueueSelected (hmigrate : ∀ c, K Int (enqueueMigration clock now c))
    {maxObjects maxBytes : Int} {budget : Bool} {cs : List TieringCandidate}
    {used selected enqueued : Int} :
    K Int (enqueueSelected clock now maxObjects maxBytes budget cs used selected enqueued) := by
  induction cs generalizing used selected enqueued with
  | nil => exact hK.pure _
  | cons c rest ih =>
    unfold Meta.enqueueSelected
    dsimp only
    split
    · exact hK.pure _
    · split
      · exact ih
      · exact hK.bind (hmigrate c) fun _ => ih

theorem enqueueTieringCandidates (hmigrate : ∀ c, K Int (enqueueMigration clock now c))
    {cfg : Config} {age maxObjects maxBytes : Int} {budget : Bool} :
    K Int (enqueueTieringCandidates cfg clock now age maxObjects maxBytes budget) :=
  hK.bind (hK.gatherCandidates hcandidate) fun _ => hK.enqueueSelected hmigrate

end Tiering

/-! ## The repair and history scans -/

section Repair

variable (hK : Closed K)
include hK

theorem repairTaskID {cfg : Config} {obj : ObjectRecord} :
    K (Option GoString) (repairTaskID cfg obj) := by
  unfold Meta.repairTaskID
  refine hK.bind (hK.getJSON _ _) ?_
  intro found
  split
  · exact hK.pure _
  · split
    · exact hK.bind (hK.listReplicaRecords _ _ _) fun _ => hK.ite (hK.pure _) (hK.pure _)
    · exact hK.ite (hK.pure _)
        (hK.bind (hK.listECShardRecords _ _) fun _ => hK.ite (hK.pure _) (hK.pure _))

theorem enqueueRepairCandidates
    (hrepair : ∀ now id o v, K Bool (enqueueRepairTask clock now id o v)) {cfg : Config}
    {order : UpdateOrder} {clocks : Nat → Time} {maxObjects : Int} :
    K Int (enqueueRepairCandidates order cfg clock clocks maxObjects) := by
  have hloop : ∀ (limit : Int) (objects : List ObjectRecord) (selected enqueued : Int),
      K Int (enqueueRepairLoop cfg clock limit clocks objects selected enqueued) := by
    intro limit objects
    induction objects with
    | nil => exact fun _ _ => hK.pure _
    | cons obj rest ih =>
      intro selected enqueued
      unfold enqueueRepairLoop
      split
      · exact hK.pure _
      · refine hK.bind hK.repairTaskID ?_
        intro found
        split
        · exact ih _ _
        · exact hK.bind (hrepair _ _ _ _) fun _ => ih _ _
  exact hK.bind hK.listObjects fun _ => hloop _ _ _ _

variable (hgc : ∀ id o v, K Bool (enqueueOrRequeueOldVersionGCTask clock now id o v))
include hgc

theorem enqueueOldVersions {keepLatest minAgeSec maxTasks : Int} {obj : ObjectRecord}
    (versions : List ObjectVersionRecord) {retained enqueued : Int} :
    K Int (enqueueOldVersions clock now keepLatest minAgeSec maxTasks obj versions retained
      enqueued) := by
  induction versions generalizing retained enqueued with
  | nil => exact hK.pure _
  | cons ver rest ih =>
    unfold Meta.enqueueOldVersions
    split
    · exact ih
    · split
      · exact ih
      · split
        · exact ih
        · refine hK.bind (hgc _ _ _) ?_
          intro changed
          split
          · split
            · exact hK.pure _
            · exact ih
          · exact ih

theorem enqueueOldVersionGCCandidates {keepLatest minAgeSec maxTasks : Int} :
    K Int (enqueueOldVersionGCCandidates clock now keepLatest minAgeSec maxTasks) := by
  have hloop : ∀ (keep limit : Int) (objects : List ObjectRecord) (enqueued : Int),
      K Int (enqueueOldVersionsLoop clock now keep minAgeSec limit objects enqueued) := by
    intro keep limit objects
    induction objects with
    | nil => exact fun _ => hK.pure _
    | cons obj rest ih =>
      intro enqueued
      unfold enqueueOldVersionsLoop
      split
      · exact hK.pure _
      · refine hK.bind (hK.bind (hK.iter _) fun _ => hK.decodeAll _ _ _) ?_
        intro versions
        split
        · exact ih _
        · exact hK.bind (hK.enqueueOldVersions hgc _) fun _ => ih _
  exact hK.bind hK.listObjects fun _ => hloop _ _ _ _

end Repair

end Closed

/-! ## Programs that keep an invariant -/

/-- Run alone, the program keeps the invariant at each of its key-value steps. -/
def Keeps {α : Type} (I : Store → Prop) (p : KV α) : Prop :=
  ∀ s, I s → p.Obeys (solo I fun _ _ => True) (fun _ s' => I s') s

section Keeps

variable {α β : Type} {I : Store → Prop} {s : Store}

theorem keeps_getJSON (decode : Value → Option α) (k : GoString) : Keeps I (getJSON decode k) := by
  intro s hs
  rw [getJSON_eq]
  refine Prog.obeys_step_call hs (Or.inl rfl) ?_
  change (decodeRow decode k (s.get? k)).Obeys _ _ s
  unfold decodeRow
  split
  · exact hs
  · split
    · exact hs
    · exact hs

theorem keeps_pure (a : α) : Keeps I (pure a : KV α) := fun _ hs => hs

theorem Keeps.bind {p : KV α} {f : α → KV β} (hp : Keeps I p) (hf : ∀ a, Keeps I (f a)) :
    Keeps I (p >>= f) :=
  fun s hs => (hp s hs).bind (fun _ _ h => h) fun a s' h => hf a s' h

theorem closed_keeps (I : Store → Prop) : Closed fun _ p => Keeps I p where
  pure := keeps_pure
  fail := fun _ _ hs => hs
  bind := Keeps.bind
  attempt := fun hp hf s hs => (hp s hs).attempt_bind fun x s' h => hf x s' h
  getJSON := keeps_getJSON
  iter := fun _ _ hs => Prog.obeys_step_call hs (Or.inl rfl) hs

theorem Keeps.run {p : KV α} (hp : Keeps I p) (hs : I s) : I (atomically p s).2 :=
  ((hp s hs).step_run (J := fun _ => True) (fun _ _ _ _ _ h => h) hs trivial).2.1

theorem keeps_commit {ws : List KVWrite} (h : I (s.applyAll ws)) :
    (KV.commit ws).Obeys (solo I fun _ _ => True) (fun _ s' => I s') s :=
  solo_commit_last h trivial h

theorem keeps_answer {p : KV α} {b : β}
    (h : p.Obeys (solo I fun _ _ => True) (fun _ s' => I s') s) :
    (p >>= fun _ => pure b).Obeys (solo I fun _ _ => True) (fun _ s' => I s') s :=
  h.bind (fun _ _ h => h) fun _ _ h => h

theorem keeps_dueRemoval {o : GoString} {v : Int} {ref : Option TierDueRefRecord} (hs : I s)
    (href : s.get? (tiKVTierDueRefKey o v) = ref.map Value.tierDueRef)
    (h : I (s.applyAll (dueRemoval o v ref))) : (removeTieringDueIndexByVersion o v).Obeys
      (solo I fun _ _ => True) (fun _ s' => I s') s := by
  unfold removeTieringDueIndexByVersion removeTieringDueIndexByVersionInBatch
  rw [bind_assoc]
  exact solo_getJSON hs href (fun _ => rfl) (keeps_commit h)

/-- The head of a candidate is written back with another state. -/
theorem keeps_markPending {now : Time} {c : TieringCandidate} {found : Option ObjectRecord}
    (hs : I s) (hget : s.get? (tiKVObjectKey c.objectID) = found.map Value.object)
    (h : ∀ obj, found = some obj → I (s.applyAll [Write.set (tiKVObjectKey c.objectID)
      (.object { obj with state := .migrationPending, updatedAt := now })])) (n : Int) :
    (markPending now c n).Obeys (solo I fun _ _ => True) (fun _ s' => I s') s := by
  refine solo_getJSON hs hget (fun _ => rfl) ?_
  cases found with
  | none => exact hs
  | some obj =>
    dsimp only
    split
    · exact hs
    · exact keeps_answer (keeps_commit (h obj rfl))

end Keeps

end TieredStore.Meta
