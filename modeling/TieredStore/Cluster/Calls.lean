import TieredStore.Lib.Erasure
import TieredStore.Meta.Reads
import TieredStore.Tiering.Worker

/-!
# Jobs on metadata and storage nodes

The API handlers and the tiering processors are jobs: programs whose calls go to the metadata
repository and, over HTTP, to the storage nodes. A node is a map from keys to blobs, with the keys
as they arrive at the node's engine; what the routes of a node make of a key on its way is added by
`routed`.

A repository call runs at once, at some clock readings. `Calm` answers every call the way a healthy
cluster does; `Faulty` also lets any call fail. A failed repository call may have made any of its
first steps. A failed delete may have taken effect, and a failed store may have left any part of its
blob, from the start.
-/

namespace TieredStore.Cluster

open Lib Lib.Prog Meta

/-! ## Calls -/

/-- The answer to an HTTP request. -/
inductive Reply where
  | failed (err : GoError)
  | status (code : Nat) (body : Blob)
  deriving DecidableEq

/-- Calls of the scanners, which enqueue and purge tasks and keep the due index. -/
inductive Upkeep where
  | upsertTieringDueIndex (objectID : GoString) (version : Int) (tier : Tier) (sizeBytes : Int)
  | enqueueTieringCandidates (ageThresholdSec maxObjects maxBytes : Int) (applyByteBudget : Bool)
  | enqueueRepairCandidates (order : UpdateOrder) (maxObjects : Int)
  | enqueueOldVersionGCCandidates (keepLatest minAgeSec maxTasks : Int)
  | purgeTerminalTieringTasks (olderThan : Time) (limit : Int)

inductive RepoCall where
  | getObjectVersionSnapshot (objectID : GoString) (version : Int)
  | markObjectMigrating (objectID : GoString) (version : Int)
  | listActiveReplicaLocations (objectID : GoString) (version : Int)
  | promoteObjectVersionToEC (objectID : GoString) (version : Int) (checksum : GoString) (k m : Int)
      (locations : List ECShardLocation)
  | upsertReplicaLocations (objectID : GoString) (version : Int) (nodeIDs : List GoString)
  | markReplicaLocationsDeleted (objectID : GoString) (version : Int) (nodeIDs : List GoString)
  | getObjectVersionGCView (objectID : GoString) (version : Int)
  | purgeObjectVersionMetadata (objectID : GoString) (version : Int)
  | getObjectAdminView (objectID : GoString)
  | upsertNormalizedMetadata (objectID : GoString) (metadata : Metadata)
  | getNormalizedMetadata (objectID : GoString)
  | deleteNormalizedMetadata (objectID : GoString)
  | task (c : Tiering.TaskCall)
  | upkeep (u : Upkeep)

namespace RepoCall

def Answer : RepoCall → Type
  | getObjectVersionSnapshot _ _ => Option ObjectVersionSnapshot
  | listActiveReplicaLocations _ _ => List ReplicaLocation
  | getObjectVersionGCView _ _ => Option ObjectVersionGCView
  | getObjectAdminView _ => Option ObjectAdminView
  | getNormalizedMetadata _ => Option Metadata
  | task c => c.Answer
  | upkeep _ => Unit
  | markObjectMigrating _ _ | promoteObjectVersionToEC _ _ _ _ _ _ | upsertReplicaLocations _ _ _
  | markReplicaLocationsDeleted _ _ _ | purgeObjectVersionMetadata _ _
  | upsertNormalizedMetadata _ _ | deleteNormalizedMetadata _ => Unit

/-- The repository function behind a call of the scanners. -/
def upkeepProgram (cfg : Config) (clocks : Nat → Time) : Upkeep → KV Unit
  | .upsertTieringDueIndex o v tier sizeBytes =>
    upsertTieringDueIndexDetached cfg o v tier sizeBytes (clocks 1)
  | .enqueueTieringCandidates age maxObjects maxBytes budget => do
    let _ ← enqueueTieringCandidates cfg (clocks 0) (clocks 1) age maxObjects maxBytes budget
    pure ()
  | .enqueueRepairCandidates order maxObjects => do
    let _ ← enqueueRepairCandidates order cfg (clocks 0) clocks maxObjects
    pure ()
  | .enqueueOldVersionGCCandidates keepLatest minAgeSec maxTasks => do
    let _ ← enqueueOldVersionGCCandidates (clocks 0) (clocks 1) keepLatest minAgeSec maxTasks
    pure ()
  | .purgeTerminalTieringTasks olderThan limit => do
    let _ ← purgeTerminalTieringTasks (clocks 0) (clocks 1) olderThan limit
    pure ()

/-- The repository function behind a call, with the clock readings of the call. -/
def program (cfg : Config) (clocks : Nat → Time) : (c : RepoCall) → KV c.Answer
  | getObjectVersionSnapshot o v => Meta.getObjectVersionSnapshot o v
  | markObjectMigrating o v => Meta.markObjectMigrating (clocks 1) o v
  | listActiveReplicaLocations o v => Meta.listActiveReplicaLocations o v
  | promoteObjectVersionToEC o v checksum k m locations =>
    Meta.promoteObjectVersionToEC (clocks 1) o v checksum k m locations
  | upsertReplicaLocations o v nodeIDs => Meta.upsertReplicaLocations o v nodeIDs
  | markReplicaLocationsDeleted o v nodeIDs => Meta.markReplicaLocationsDeleted o v nodeIDs
  | getObjectVersionGCView o v => Meta.getObjectVersionGCView o v
  | purgeObjectVersionMetadata o v => Meta.purgeObjectVersionMetadata o v
  | getObjectAdminView o => Meta.getObjectAdminView o
  | upsertNormalizedMetadata o metadata =>
    Meta.upsertNormalizedMetadata cfg (clocks 0) (clocks 1) o metadata
  | getNormalizedMetadata o => Meta.getNormalizedMetadata o
  | deleteNormalizedMetadata o => Meta.deleteNormalizedMetadata o
  | task c => c.program cfg (clocks 0) (clocks 1)
  | upkeep u => upkeepProgram cfg clocks u

end RepoCall

/-- An order in which `n` requests that are sent together take effect. -/
abbrev Order (n : Nat) := {l : List (Fin n) // l.Perm (List.finRange n)}

/-- The nodes that the API knows, and their load penalties when it minds the load. -/
structure ActiveNodes where
  nodes : List GoString
  loadPenalty : Option (GoString → Int)

inductive Call where
  | repo (c : RepoCall)
  | listHealthyNodeIDs
  | activeNodes
  | store (nodeID key : GoString) (data : Blob)
  | retrieve (nodeID key : GoString)
  | delete (nodeID key : GoString)
  | schedule (n : Nat)
  | now

def Call.Answer : Call → Type
  | repo c => Except GoError c.Answer
  | listHealthyNodeIDs => Except GoError (List GoString)
  | activeNodes => Option ActiveNodes
  | store _ _ _ | retrieve _ _ | delete _ _ => Reply
  | schedule n => Order n
  | now => Time

abbrev Job (α : Type) := Prog Call Call.Answer GoError α

namespace Job

/-- Make a repository call; its error ends the job. -/
def repo (c : RepoCall) : Job c.Answer :=
  .call (.repo c) fun r =>
    match r with
    | .ok a => .ret a
    | .error e => .fail e

def listHealthyNodeIDs : Job (List GoString) :=
  .call .listHealthyNodeIDs fun r =>
    match r with
    | .ok nodes => .ret nodes
    | .error e => .fail e

def activeNodes : Job (Option ActiveNodes) := .call .activeNodes .ret

def store (nodeID key : GoString) (data : Blob) : Job Reply := .call (.store nodeID key data) .ret

def retrieve (nodeID key : GoString) : Job Reply := .call (.retrieve nodeID key) .ret

def delete (nodeID key : GoString) : Job Reply := .call (.delete nodeID key) .ret

def now : Job Time := .call .now .ret

/-- Requests that are sent together, in the order in which they take effect. -/
def schedule {α : Type} (xs : List α) : Job (List α) :=
  .call (.schedule xs.length) fun (order : Order xs.length) => .ret (order.1.map xs.get)

theorem retrieve_bind {β : Type} (n k : GoString) (f : Reply → Job β) :
    (retrieve n k >>= f) = .call (.retrieve n k) f := rfl

theorem delete_bind {β : Type} (n k : GoString) (f : Reply → Job β) :
    (delete n k >>= f) = .call (.delete n k) f := rfl

theorem store_bind {β : Type} (n k : GoString) (data : Blob) (f : Reply → Job β) :
    (store n k data >>= f) = .call (.store n k data) f := rfl

theorem listHealthyNodeIDs_bind {β : Type} (f : List GoString → Job β) :
    (listHealthyNodeIDs >>= f) = .call .listHealthyNodeIDs fun r =>
      match r with
      | .ok nodes => f nodes
      | .error e => .fail e :=
  congrArg (Prog.call Call.listHealthyNodeIDs) (funext fun r => by cases r <;> rfl)

theorem repo_bind {β : Type} (c : RepoCall) (f : c.Answer → Job β) :
    (repo c >>= f) = .call (.repo c) fun r =>
      match r with
      | .ok a => f a
      | .error e => .fail e :=
  congrArg (Prog.call (Call.repo c)) (funext fun r => by cases r <;> rfl)

theorem repo_attempt_bind {β : Type} (c : RepoCall) (f : Except GoError c.Answer → Job β) :
    ((repo c).attempt >>= f) = .call (.repo c) f :=
  congrArg (Prog.call (Call.repo c)) (funext fun r => by cases r <;> rfl)

/-- After a repository call the job goes on with the answer, or ends with the error. -/
theorem obeys_repo {β τ : Type} {mon : Monitor Call Call.Answer τ} {Q : Except GoError β → τ → Prop}
    {c : RepoCall} {f : c.Answer → Job β} {t : τ} (hallow : mon.allow t (.repo c))
    (herr : ∀ e t', mon.next t (.repo c) (.error e) t' → Q (.error e) t')
    (hok : ∀ a t', mon.next t (.repo c) (.ok a) t' → (f a).Obeys mon Q t') :
    (repo c >>= f).Obeys mon Q t := by
  rw [repo_bind]
  refine ⟨hallow, fun r t' hnext => ?_⟩
  cases r with
  | error e => exact herr e t' hnext
  | ok a => exact hok a t' hnext

end Job

theorem arrange_perm {α : Type} (xs : List α) (order : Order xs.length) :
    (order.1.map xs.get).Perm xs := by
  have h := order.2.map xs.get
  rwa [List.map_get_finRange] at h

/-- Requests that are sent together are sent in some order. -/
theorem Job.obeys_schedule {α β τ : Type} {mon : Monitor Call Call.Answer τ}
    {Q : Except GoError β → τ → Prop} {xs : List α} {f : List α → Job β} {t : τ}
    (hallow : mon.allow t (.schedule xs.length))
    (h : ∀ ys order t', ys.Perm xs → mon.next t (.schedule xs.length) order t' →
      (f ys).Obeys mon Q t') : (Job.schedule xs >>= f).Obeys mon Q t :=
  ⟨hallow, fun order t' hnext => h _ order t' (arrange_perm xs order) hnext⟩

/-! ## The cluster -/

/-- The rows of the repository and the blobs of the nodes. -/
structure World where
  records : Store
  blobs : GoString → GoString → Option Blob

namespace World

def empty : World := ⟨SortedMap.empty, fun _ _ => none⟩

def put (w : World) (n k : GoString) (data : Blob) : World :=
  { w with blobs := fun n' k' => if n' = n ∧ k' = k then some data else w.blobs n' k' }

def drop (w : World) (n k : GoString) : World :=
  { w with blobs := fun n' k' => if n' = n ∧ k' = k then none else w.blobs n' k' }

end World

/-- What the surroundings decide: the clocks, the nodes that are healthy, the nodes that the API
knows, and the order of requests that are sent together. -/
structure Weather where
  clocks : Nat → Time
  time : Time
  healthy : List GoString
  activeNodes : Option ActiveNodes
  order : (n : Nat) → Order n

def sixNodes : List GoString := [lit "n1", lit "n2", lit "n3", lit "n4", lit "n5", lit "n6"]

/-- Six healthy nodes; the clocks stand still. -/
def calmWeather : Weather where
  clocks := fun _ => 10
  time := 7
  healthy := sixNodes
  activeNodes := some ⟨sixNodes, none⟩
  order := fun n => ⟨List.finRange n, .refl _⟩

/-- A request that no node can take: it names no node or no key. -/
def unaddressed (n k : GoString) : Bool := n = [] || k = []

def badRequest : Reply := .failed (lit "bad request")

/-- How a healthy cluster answers. The keys are those of the nodes' engines, see `routed`. -/
def serve (cfg : Config) (e : Weather) : (c : Call) → World → c.Answer × World
  | .repo c, w =>
    ((atomically (c.program cfg e.clocks) w.records).1,
      { w with records := (atomically (c.program cfg e.clocks) w.records).2 })
  | .listHealthyNodeIDs, w => (.ok e.healthy, w)
  | .activeNodes, w => (e.activeNodes, w)
  | .store n k data, w =>
    if unaddressed n k then (badRequest, w) else (.status 204 [], w.put n k data)
  | .retrieve n k, w =>
    if unaddressed n k then (badRequest, w)
    else
      match w.blobs n k with
      | some data => (.status 200 data, w)
      | none => (.status 404 [], w)
  | .delete n k, w => if unaddressed n k then (badRequest, w) else (.status 200 [], w.drop n k)
  | .schedule n, w => (e.order n, w)
  | .now, w => (e.time, w)

/-! A healthy cluster, call by call. -/

section Serve

variable {cfg : Config} {e : Weather} {w : World}

theorem run_repo {c : RepoCall} {a : c.Answer} {s : Store}
    (h : atomically (c.program cfg e.clocks) w.records = (.ok a, s)) :
    (Job.repo c).run (serve cfg e) w = (.ok a, { w with records := s }) := by
  simp only [Job.repo, run_call, serve, h]
  rfl

theorem run_listHealthyNodeIDs :
    Job.listHealthyNodeIDs.run (serve cfg e) w = (.ok e.healthy, w) := rfl

theorem run_store {n k : GoString} {data : Blob} (haddr : unaddressed n k = false) :
    (Job.store n k data).run (serve cfg e) w = (.ok (.status 204 []), w.put n k data) := by
  have h : serve cfg e (.store n k data) w = (.status 204 [], w.put n k data) := by
    simp [serve, haddr]
  exact congrArg (fun x : Reply × World => (Except.ok x.1, x.2)) h

theorem run_retrieve {n k : GoString} {reply : Reply}
    (h : serve cfg e (.retrieve n k) w = (reply, w)) :
    (Job.retrieve n k).run (serve cfg e) w = (.ok reply, w) :=
  congrArg (fun x : Reply × World => (Except.ok x.1, x.2)) h

theorem serve_retrieve {n k : GoString} {data : Blob} (haddr : unaddressed n k = false)
    (hblob : w.blobs n k = some data) : serve cfg e (.retrieve n k) w = (.status 200 data, w) := by
  simp [serve, haddr, hblob]

theorem serve_retrieve_none {n k : GoString} (haddr : unaddressed n k = false)
    (hblob : w.blobs n k = none) : serve cfg e (.retrieve n k) w = (.status 404 [], w) := by
  simp [serve, haddr, hblob]

theorem serve_retrieve_unaddressed {n k : GoString} (haddr : unaddressed n k = true) :
    serve cfg e (.retrieve n k) w = (badRequest, w) := by
  simp only [serve, haddr]
  rfl

end Serve

def Calm (cfg : Config) (c : Call) (w : World) (r : c.Answer) (w' : World) : Prop :=
  ∃ e, serve cfg e c w = (r, w')

/-- A reply that tells the client nothing about the blob. -/
def Reply.IsFault : Reply → Prop
  | .failed _ => True
  | .status code _ => code ≠ 200 ∧ code ≠ 204 ∧ code ≠ 404

/-- How a call can fail. A store that fails may leave a part of the new blob. -/
def Fails (cfg : Config) : (c : Call) → World → c.Answer → World → Prop
  | .repo c, w, r, w' => w'.blobs = w.blobs ∧ (∃ e, r = .error e) ∧
      ∃ clocks q, Path (Answers kvHandler) (c.program cfg clocks) w.records q w'.records
  | .listHealthyNodeIDs, w, r, w' => (∃ e, r = .error e) ∧ w' = w
  | .activeNodes, _, _, _ => False
  | .store n k data, w, r, w' => r.IsFault ∧
      (w' = w ∨ (unaddressed n k = false ∧ ∃ left, w' = w.put n k (data.take left)))
  | .retrieve _ _, w, r, w' => r.IsFault ∧ w' = w
  | .delete n k, w, r, w' => r.IsFault ∧ (w' = w ∨ (unaddressed n k = false ∧ w' = w.drop n k))
  | .schedule _, _, _, _ => False
  | .now, _, _, _ => False

def Faulty (cfg : Config) (c : Call) (w : World) (r : c.Answer) (w' : World) : Prop :=
  Calm cfg c w r w' ∨ Fails cfg c w r w'

/-- Calls may fail, and the nodes that are reported as healthy are given. -/
def Reports (cfg : Config) (healthy : List GoString) : (c : Call) → World → c.Answer → World → Prop
  | .listHealthyNodeIDs, w, r, w' => (r = .ok healthy ∨ ∃ e, r = .error e) ∧ w' = w
  | c, w, r, w' => Faulty cfg c w r w'

theorem Reports.faulty {cfg : Config} {healthy : List GoString} {c : Call} {w w' : World}
    {r : c.Answer} (h : Reports cfg healthy c w r w') : Faulty cfg c w r w' := by
  cases c with
  | listHealthyNodeIDs =>
    obtain ⟨hr | herr, rfl⟩ := h
    · exact Or.inl ⟨{ calmWeather with healthy := healthy }, by rw [hr]; rfl⟩
    · exact Or.inr ⟨herr, rfl⟩
  | _ => exact h

/-- A healthy cluster with these nodes is one such cluster. -/
theorem reports_of_serve {cfg : Config} {e : Weather} {c : Call} {w w' : World} {r : c.Answer}
    (h : serve cfg e c w = (r, w')) : Reports cfg e.healthy c w r w' := by
  cases c with
  | listHealthyNodeIDs =>
    cases h
    exact ⟨Or.inl rfl, rfl⟩
  | _ => exact Or.inl ⟨e, h⟩

/-- Requests to nodes may fail in any way. The repository answers, or fails and changes nothing; the
nodes that it reports as healthy are given. -/
def Steady (cfg : Config) (healthy : List GoString) : (c : Call) → World → c.Answer → World → Prop
  | .repo c, w, r, w' => Calm cfg (.repo c) w r w' ∨ ((∃ e, r = .error e) ∧ w' = w)
  | .listHealthyNodeIDs, w, r, w' => (r = .ok healthy ∨ ∃ e, r = .error e) ∧ w' = w
  | c, w, r, w' => Faulty cfg c w r w'

theorem Steady.reports {cfg : Config} {healthy : List GoString} {c : Call} {w w' : World}
    {r : c.Answer} (h : Steady cfg healthy c w r w') : Reports cfg healthy c w r w' := by
  cases c with
  | repo c =>
    rcases h with h | ⟨herr, rfl⟩
    · exact Or.inl h
    · exact Or.inr ⟨rfl, herr, fun _ => 0, _, .refl _ _⟩
  | _ => exact h

theorem steady_of_serve {cfg : Config} {e : Weather} {c : Call} {w w' : World} {r : c.Answer}
    (h : serve cfg e c w = (r, w')) : Steady cfg e.healthy c w r w' := by
  cases c with
  | repo c => exact Or.inl ⟨e, h⟩
  | _ => exact reports_of_serve h

/-- Every call is answered as in a healthy cluster; the nodes that are reported as healthy are
given. -/
def AllAnswer (cfg : Config) (healthy : List GoString) (c : Call) (w : World) (r : c.Answer)
    (w' : World) : Prop := ∃ e : Weather, e.healthy = healthy ∧ serve cfg e c w = (r, w')

/-! ## Jobs on a healthy cluster -/

section Answered

variable {β : Type} {cfg : Config} {healthy : List GoString} {w : World}
  {Q : Except GoError β → World → Prop}

/-- The job knows the cluster, and every call is answered. -/
abbrev answered (cfg : Config) (healthy : List GoString) : Monitor Call Call.Answer World :=
  stateMonitor (AllAnswer cfg healthy) fun _ => True

theorem answered_repo {c : RepoCall} {f : c.Answer → Job β}
    (h : ∀ clocks, ∃ a s, atomically (c.program cfg clocks) w.records = (.ok a, s) ∧
      (f a).Obeys (answered cfg healthy) Q { w with records := s }) :
    (Job.repo c >>= f).Obeys (answered cfg healthy) Q w := by
  rw [Job.repo_bind]
  refine ⟨trivial, ?_⟩
  rintro r w' ⟨e, -, hserve⟩
  obtain ⟨a, s, hrun, hnext⟩ := h e.clocks
  simp only [serve, hrun] at hserve
  cases hserve
  exact hnext

theorem answered_listHealthyNodeIDs {f : List GoString → Job β}
    (h : (f healthy).Obeys (answered cfg healthy) Q w) :
    (Job.listHealthyNodeIDs >>= f).Obeys (answered cfg healthy) Q w := by
  rw [Job.listHealthyNodeIDs_bind]
  refine ⟨trivial, ?_⟩
  rintro r w' ⟨e, rfl, hserve⟩
  cases hserve
  exact h

theorem answered_store {n k : GoString} {data : Blob} {f : Reply → Job β}
    (haddr : unaddressed n k = false)
    (h : (f (.status 204 [])).Obeys (answered cfg healthy) Q (w.put n k data)) :
    (Job.store n k data >>= f).Obeys (answered cfg healthy) Q w := by
  rw [Job.store_bind]
  refine ⟨trivial, ?_⟩
  rintro r w' ⟨e, -, hserve⟩
  have hanswer : serve cfg e (.store n k data) w = (.status 204 [], w.put n k data) := by
    simp [serve, haddr]
  cases hanswer.symm.trans hserve
  exact h

theorem answered_retrieve {n k : GoString} {data : Blob} {f : Reply → Job β}
    (haddr : unaddressed n k = false) (hblob : w.blobs n k = some data)
    (h : (f (.status 200 data)).Obeys (answered cfg healthy) Q w) :
    (Job.retrieve n k >>= f).Obeys (answered cfg healthy) Q w := by
  rw [Job.retrieve_bind]
  refine ⟨trivial, ?_⟩
  rintro r w' ⟨e, -, hserve⟩
  cases (serve_retrieve haddr hblob).symm.trans hserve
  exact h

theorem answered_schedule {α : Type} {xs : List α} {f : List α → Job β}
    (h : ∀ ys : List α, ys.Perm xs → (f ys).Obeys (answered cfg healthy) Q w) :
    (Job.schedule xs >>= f).Obeys (answered cfg healthy) Q w := by
  refine Job.obeys_schedule trivial ?_
  rintro ys order w' hperm ⟨e, -, hserve⟩
  cases hserve
  exact h ys hperm

theorem answered_now {f : Time → Job β} (h : ∀ t, (f t).Obeys (answered cfg healthy) Q w) :
    (Job.now >>= f).Obeys (answered cfg healthy) Q w := by
  refine ⟨trivial, ?_⟩
  rintro r w' ⟨e, -, hserve⟩
  cases hserve
  exact h _

end Answered

/-! ## What a call leaves alone -/

section Frames

variable {cfg : Config} {w w' : World}

/-- What a call can do to the cluster. -/
theorem Faulty.effect {c : Call} {r : c.Answer} (h : Faulty cfg c w r w') :
    w' = w ∨ (∃ rc, c = .repo rc ∧ w'.blobs = w.blobs) ∨
    (∃ n k data left, c = .store n k data ∧ unaddressed n k = false ∧
      w' = w.put n k (data.take left)) ∨
    ∃ n k, c = .delete n k ∧ unaddressed n k = false ∧ w' = w.drop n k := by
  cases c with
  | repo rc =>
    refine Or.inr (Or.inl ⟨rc, rfl, ?_⟩)
    rcases h with ⟨e, ⟨⟩⟩ | ⟨hblobs, -⟩
    · rfl
    · exact hblobs
  | listHealthyNodeIDs => rcases h with ⟨e, ⟨⟩⟩ | ⟨-, rfl⟩ <;> exact Or.inl rfl
  | activeNodes => rcases h with ⟨e, ⟨⟩⟩ | ⟨⟨⟩⟩; exact Or.inl rfl
  | store n k data =>
    rcases h with ⟨e, he⟩ | ⟨-, rfl | ⟨haddr, left, rfl⟩⟩
    · simp only [serve] at he
      split at he <;> cases he
      · exact Or.inl rfl
      · rename_i haddr
        exact Or.inr (Or.inr (Or.inl ⟨n, k, data, data.length, rfl, by simpa using haddr,
          by rw [List.take_length]⟩))
    · exact Or.inl rfl
    · exact Or.inr (Or.inr (Or.inl ⟨n, k, data, left, rfl, haddr, rfl⟩))
  | retrieve n k =>
    rcases h with ⟨e, he⟩ | ⟨-, rfl⟩
    · simp only [serve] at he
      split at he
      · cases he
        exact Or.inl rfl
      · split at he <;> cases he <;> exact Or.inl rfl
    · exact Or.inl rfl
  | delete n k =>
    rcases h with ⟨e, he⟩ | ⟨-, rfl | ⟨haddr, rfl⟩⟩
    · simp only [serve] at he
      split at he <;> cases he
      · exact Or.inl rfl
      · rename_i haddr
        exact Or.inr (Or.inr (Or.inr ⟨n, k, rfl, by simpa using haddr, rfl⟩))
    · exact Or.inl rfl
    · exact Or.inr (Or.inr (Or.inr ⟨n, k, rfl, haddr, rfl⟩))
  | schedule n => rcases h with ⟨e, ⟨⟩⟩ | ⟨⟨⟩⟩; exact Or.inl rfl
  | now => rcases h with ⟨e, ⟨⟩⟩ | ⟨⟨⟩⟩; exact Or.inl rfl

/-- Only repository calls change the rows. -/
theorem Faulty.records {c : Call} {r : c.Answer} (h : Faulty cfg c w r w')
    (hc : ∀ rc, c ≠ .repo rc) : w'.records = w.records := by
  rcases h.effect with rfl | ⟨rc, rfl, -⟩ | ⟨n, k, data, left, -, -, rfl⟩ | ⟨n, k, -, -, rfl⟩
  · rfl
  · exact absurd rfl (hc rc)
  · rfl
  · rfl

/-- A store or a delete leaves every other place alone, and so do all other calls. -/
theorem Faulty.other_place {c : Call} {r : c.Answer} (h : Faulty cfg c w r w') {n k : GoString}
    (hstore : ∀ data, c ≠ .store n k data) (hdelete : c ≠ .delete n k) :
    w'.blobs n k = w.blobs n k := by
  rcases h.effect with rfl | ⟨rc, -, hblobs⟩ | ⟨n', k', data, left, rfl, -, rfl⟩ |
    ⟨n', k', rfl, -, rfl⟩
  · rfl
  · rw [hblobs]
  · refine if_neg ?_
    rintro ⟨rfl, rfl⟩
    exact hstore data rfl
  · refine if_neg ?_
    rintro ⟨rfl, rfl⟩
    exact hdelete rfl

theorem Faulty.scheduled {n : Nat} {order : Order n} (h : Faulty cfg (.schedule n) w order w') :
    w' = w := by
  rcases h with ⟨e, ⟨⟩⟩ | ⟨⟨⟩⟩
  rfl

/-- A blob that a node returns is the one it holds. -/
theorem Faulty.retrieved {n k : GoString} {r : Reply} (h : Faulty cfg (.retrieve n k) w r w') :
    w' = w ∧ ∀ data, r = .status 200 data → unaddressed n k = false ∧ w.blobs n k = some data := by
  rcases h with ⟨e, he⟩ | ⟨hfault, rfl⟩
  · simp only [serve] at he
    split at he
    · cases he
      exact ⟨rfl, nofun⟩
    · rename_i haddr
      split at he <;> cases he
      · rename_i data hblob
        refine ⟨rfl, ?_⟩
        rintro data' ⟨⟩
        exact ⟨by simpa using haddr, hblob⟩
      · exact ⟨rfl, nofun⟩
  · refine ⟨rfl, ?_⟩
    rintro data rfl
    exact absurd rfl hfault.1

/-- A store that a node confirms has taken effect. -/
theorem Faulty.stored {n k : GoString} {data : Blob} {r : Reply}
    (h : Faulty cfg (.store n k data) w r w') {code : Nat} {body : Blob}
    (hr : r = .status code body) (hcode : code = 200 ∨ code = 204) :
    unaddressed n k = false ∧ w' = w.put n k data := by
  subst hr
  rcases h with ⟨e, he⟩ | ⟨hfault, -⟩
  · simp only [serve] at he
    split at he <;> cases he
    rename_i haddr
    exact ⟨by simpa using haddr, rfl⟩
  · rcases hcode with rfl | rfl
    · exact absurd rfl hfault.1
    · exact absurd rfl hfault.2.1

end Frames

end TieredStore.Cluster
