import TieredStore.Cluster.Durability

/-!
# Workers and readers of one object

`Learns` says of a job that it acts on facts only: every call is one of `Tends`, given what the
answers so far have told. The migration, the two repairs, the two collections, the late writes of a
`PUT` and `GET` are such jobs, and data that a `GET` returns are the bytes of the object.
-/

namespace TieredStore.Cluster

open Lib Lib.Prog Lib.Bytes Meta Tiering Api

/-- A job that knows `t` acts on facts only; its result and what it knows at the end satisfy `R`. -/
def Learns (d : Deps) (o : GoString) (v : Int) (B : Blob) {α : Type} (t : Set Fact) (p : Job α)
    (R : α → Set Fact → Prop) : Prop :=
  p.Obeys (tending d o v B) (fun out t' => t ⊆ t' ∧ ∀ a, out = .ok a → R a t') t

section Rules

variable {d : Deps} {o : GoString} {v : Int} {B : Blob} {t : Set Fact} {α β : Type}
  {R : α → Set Fact → Prop} {R' : β → Set Fact → Prop}

theorem learns_pure {a : α} (h : R a t) : Learns d o v B t (pure a) R := by
  refine ⟨subset_rfl, ?_⟩
  rintro _ ⟨⟩
  exact h

theorem learns_fail {e : GoError} : Learns d o v B t (.fail e) R := ⟨subset_rfl, by rintro _ ⟨⟩⟩

theorem learns_call {c : Call} {k : c.Answer → Job β} (hallow : Tends d o v B t c)
    (hk : ∀ r t', Tells d o v B c r → t ⊆ t' → learned o v c r ⊆ t' →
      Learns d o v B t' (k r) R') : Learns d o v B t (.call c k) R' := by
  refine ⟨hallow, ?_⟩
  rintro r _ ⟨htells, rfl⟩
  refine (hk r _ htells Set.subset_union_left Set.subset_union_right).mono ?_
  rintro out t' ⟨hsub, hR⟩
  exact ⟨Set.subset_union_left.trans hsub, hR⟩

theorem Learns.bind {p : Job α} {f : α → Job β} (hp : Learns d o v B t p R)
    (hf : ∀ a t', t ⊆ t' → R a t' → Learns d o v B t' (f a) R') :
    Learns d o v B t (p >>= f) R' := by
  refine Obeys.bind hp (fun e t' h => ⟨h.1, by rintro _ ⟨⟩⟩) ?_
  rintro a t' ⟨hsub, hR⟩
  refine (hf a t' hsub (hR a rfl)).mono ?_
  rintro out t'' ⟨hsub', hR'⟩
  exact ⟨hsub.trans hsub', hR'⟩

theorem Learns.attempt_bind {p : Job α} {f : Except GoError α → Job β}
    (hp : Learns d o v B t p R)
    (hf : ∀ x t', t ⊆ t' → (∀ a, x = .ok a → R a t') → Learns d o v B t' (f x) R') :
    Learns d o v B t (p.attempt >>= f) R' := by
  refine Obeys.attempt_bind hp ?_
  rintro x t' ⟨hsub, hR⟩
  refine (hf x t' hsub hR).mono ?_
  rintro out t'' ⟨hsub', hR'⟩
  exact ⟨hsub.trans hsub', hR'⟩

theorem learns_repo {rc : RepoCall} {f : rc.Answer → Job β} (hallow : Tends d o v B t (.repo rc))
    (hf : ∀ a t', Tells d o v B (.repo rc) (.ok a) → t ⊆ t' →
      learned o v (.repo rc) (.ok a) ⊆ t' → Learns d o v B t' (f a) R') :
    Learns d o v B t (Job.repo rc >>= f) R' := by
  rw [Job.repo_bind]
  refine learns_call hallow fun r t' htells hsub hlearned => ?_
  cases r with
  | error e => exact learns_fail
  | ok a => exact hf a t' htells hsub hlearned

theorem learns_repo_last {rc : RepoCall} (hallow : Tends d o v B t (.repo rc)) :
    Learns d o v B t (Job.repo rc) fun _ _ => True := by
  rw [← bind_pure (Job.repo rc)]
  exact learns_repo hallow fun _ _ _ _ _ => learns_pure trivial

theorem learns_repo_attempt {rc : RepoCall} {f : Except GoError rc.Answer → Job β}
    (hallow : Tends d o v B t (.repo rc))
    (hf : ∀ r t', Tells d o v B (.repo rc) r → t ⊆ t' → Learns d o v B t' (f r) R') :
    Learns d o v B t ((Job.repo rc).attempt >>= f) R' := by
  rw [Job.repo_attempt_bind]
  exact learns_call hallow fun r t' htells hsub _ => hf r t' htells hsub

theorem learns_listHealthyNodeIDs {f : List GoString → Job β}
    (hf : ∀ nodes t', t ⊆ t' → Learns d o v B t' (f nodes) R') :
    Learns d o v B t (Job.listHealthyNodeIDs >>= f) R' := by
  rw [Job.listHealthyNodeIDs_bind]
  refine learns_call trivial fun r t' _ hsub _ => ?_
  cases r with
  | error e => exact learns_fail
  | ok nodes => exact hf nodes t' hsub

theorem learns_now {f : Time → Job β} (hf : ∀ time t', t ⊆ t' → Learns d o v B t' (f time) R') :
    Learns d o v B t (Job.now >>= f) R' :=
  learns_call trivial fun time t' _ hsub _ => hf time t' hsub

theorem learns_activeNodes {f : Option ActiveNodes → Job β}
    (hf : ∀ active t', t ⊆ t' → Learns d o v B t' (f active) R') :
    Learns d o v B t (Job.activeNodes >>= f) R' :=
  learns_call trivial fun active t' _ hsub _ => hf active t' hsub

theorem learns_retrieve {n k : GoString} {f : Reply → Job β}
    (hf : ∀ (reply : Reply) t', t ⊆ t' → Tells d o v B (.retrieve n k) reply →
      Learns d o v B t' (f reply) R') : Learns d o v B t (Job.retrieve n k >>= f) R' :=
  learns_call trivial fun reply t' htells hsub _ => hf reply t' hsub htells

theorem learns_store {n k : GoString} {data : Blob} {f : Reply → Job β}
    (hallow : Tends d o v B t (.store n k data))
    (hf : ∀ (reply : Reply) t', t ⊆ t' → learned o v (.store n k data) reply ⊆ t' →
      Learns d o v B t' (f reply) R') : Learns d o v B t (Job.store n k data >>= f) R' :=
  learns_call hallow fun reply t' _ hsub hlearned => hf reply t' hsub hlearned

theorem learns_delete {n k : GoString} {f : Reply → Job β}
    (hallow : Tends d o v B t (.delete n k))
    (hf : ∀ (reply : Reply) t', t ⊆ t' → Learns d o v B t' (f reply) R') :
    Learns d o v B t (Job.delete n k >>= f) R' :=
  learns_call hallow fun reply t' _ hsub _ => hf reply t' hsub

theorem learns_schedule {xs : List α} {f : List α → Job β}
    (hf : ∀ ys t', t ⊆ t' → ys.Perm xs → Learns d o v B t' (f ys) R') :
    Learns d o v B t (Job.schedule xs >>= f) R' :=
  learns_call trivial fun order t' _ hsub _ => hf _ t' hsub (arrange_perm xs order)

/-- A store that was confirmed puts a replica or a shard on the node. -/
theorem learned_replica {n : GoString} {data : Blob} {code : Nat} {body : Blob}
    (hcode : code = 200 ∨ code = 204)
    (h : learned o v (.store n (hotPath o v) data) (.status code body) ⊆ t) : .replica n ∈ t :=
  h ⟨⟨code, body, rfl, hcode⟩, Or.inl ⟨rfl, rfl⟩⟩

theorem learned_shard {n : GoString} {i : Int} {data : Blob} {code : Nat} {body : Blob}
    (hcode : code = 200 ∨ code = 204)
    (h : learned o v (.store n (chunkKey o i) data) (.status code body) ⊆ t) : .shard n i ∈ t :=
  h ⟨⟨code, body, rfl, hcode⟩, Or.inr ⟨i, rfl, rfl⟩⟩

end Rules

section Migration

variable {d : Deps} {o : GoString} {v : Int} {B : Blob} {t : Set Fact} {task : TaskRecord}

/-- Under the keys of the version and of the object, only the bytes of the object are found. -/
theorem learns_fetchFirst {places : List (GoString × GoString)}
    (hkeys : ∀ place ∈ places, place.2 = hotPath o v ∨ place.2 = o) :
    Learns d o v B t (fetchFirst places) fun r _ => ∀ data, r = some data → data = B := by
  induction places generalizing t with
  | nil => exact learns_pure (by rintro _ ⟨⟩)
  | cons place rest ih =>
    obtain ⟨n, k⟩ := place
    have hrest := fun t => @ih t fun place h => hkeys place (List.mem_cons_of_mem _ h)
    have hfetch : Learns d o v B t (tryFetch n k) fun r _ => ∀ data, r = some data → data = B := by
      unfold tryFetch
      split_ifs
      · exact learns_pure (by rintro _ ⟨⟩)
      · refine learns_retrieve fun reply t' _ htells => ?_
        split
        · obtain ⟨hne, hhot, -⟩ := htells _ rfl
          refine learns_pure ?_
          rintro data ⟨⟩
          exact hhot ((hkeys (n, k) List.mem_cons_self).resolve_right hne)
        · refine learns_pure ?_
          rintro _ ⟨⟩
    refine hfetch.bind fun r t' _ hr => ?_
    cases r with
    | some data =>
      refine learns_pure ?_
      rintro _ ⟨⟩
      exact hr data rfl
    | none => exact hrest t'

theorem fetchPlaces_keys (ho : Routable o) (hv : 0 < v) {replicas : List ReplicaLocation}
    (hreplicas : ∀ r ∈ replicas, ReplicaPlace o v r.nodeID r.path) (healthy : List GoString) :
    ∀ place ∈ fetchPlaces replicas healthy o v, place.2 = hotPath o v ∨ place.2 = o := by
  intro place hplace
  rcases List.mem_append.mp hplace with hplace | hplace
  · obtain ⟨r, hr, hplace⟩ := List.mem_flatMap.mp hplace
    have hkey : replicaBlobKey o v r.path = hotPath o v := by
      have hpath := (hreplicas r hr).path_eq
      unfold replicaBlobKey
      simp only [hpath, if_neg (hotPath_ne_nil o v)]
    rcases List.mem_cons.mp hplace with rfl | hplace
    · exact Or.inl hkey
    · split_ifs at hplace
      · rw [List.mem_singleton] at hplace
        exact Or.inr (by rw [hplace])
      · simp at hplace
  · obtain ⟨n, -, hplace⟩ := List.mem_flatMap.mp hplace
    simp only [List.mem_cons, List.not_mem_nil, or_false] at hplace
    rcases hplace with rfl | rfl
    · exact Or.inl (buildHotReplicaPath_routable ho hv)
    · exact Or.inr rfl

theorem learns_encodeShards : Learns d o v B t (encodeShards d B) fun ss _ =>
    d.ec.shards B = some ss := by
  unfold encodeShards wrapped Coder.shards
  cases hsplit : d.ec.split B with
  | error e => exact learns_fail
  | ok blank =>
    cases hencode : d.ec.encode blank with
    | error e =>
      simp only [pure_bind, hencode]
      exact learns_fail
    | ok ss =>
      simp only [pure_bind, hencode]
      refine learns_pure ?_
      simp [hencode, Except.toOption]

/-- Shard locations that were written: they are known to hold their shards. -/
def Written (o : GoString) (locs : List ECShardLocation) (t : Set Fact) : Prop :=
  ∀ loc ∈ locs, loc.status = .active ∧ ShardPlace o loc.shardIndex loc.nodeID loc.path ∧
    .shard loc.nodeID loc.shardIndex ∈ t

theorem Written.mono {locs : List ECShardLocation} {t' : Set Fact} (h : Written o locs t)
    (hsub : t ⊆ t') : Written o locs t' := fun loc hloc =>
  ⟨(h loc hloc).1, (h loc hloc).2.1, hsub (h loc hloc).2.2⟩

theorem learns_writeJobs {jobs : List ((GoString × Blob) × Nat)}
    (hjobs : ∀ q ∈ jobs, shardAt d B q.2 = some q.1.2) :
    Learns d o v B t (writeJobs o jobs) fun locs t' => Written o locs t' ∧
      (locs.map (·.shardIndex)).Sublist (jobs.map fun q => (q.2 : Int)) := by
  induction jobs generalizing t with
  | nil => exact learns_pure ⟨by simp [Written], .slnil⟩
  | cons job rest ih =>
    obtain ⟨⟨n, payload⟩, i⟩ := job
    have hrest := fun t => @ih t fun q hq => hjobs q (List.mem_cons_of_mem _ hq)
    have hshard : Learns d o v B t (writeSingleShard n o i payload) fun location t' =>
        Written o location.toList t' ∧ ∀ loc ∈ location, loc.shardIndex = i := by
      unfold writeSingleShard
      split_ifs with hn
      · exact learns_pure ⟨by simp [Written], by simp⟩
      refine learns_store (Or.inr ⟨i, rfl, hjobs _ List.mem_cons_self⟩)
        fun reply t' _ hlearned => ?_
      have hwritten : .shard n i ∈ t' → Written o [⟨i, n, chunkKey o i, .active⟩] t' := by
        intro hfact loc hloc
        rw [List.mem_singleton] at hloc
        subst hloc
        exact ⟨rfl, ⟨hn, rfl⟩, hfact⟩
      split
      · refine learns_pure ⟨hwritten (learned_shard (Or.inl rfl) hlearned), ?_⟩
        rintro loc ⟨⟩
        rfl
      · refine learns_pure ⟨hwritten (learned_shard (Or.inr rfl) hlearned), ?_⟩
        rintro loc ⟨⟩
        rfl
      · refine learns_pure ⟨List.forall_mem_nil _, ?_⟩
        rintro loc ⟨⟩
    refine hshard.bind fun location t' _ hlocation => (hrest t').bind fun locs t'' hsub hlocs => ?_
    refine learns_pure ⟨?_, ?_⟩
    · intro loc hloc
      rcases List.mem_append.mp hloc with hloc | hloc
      · exact hlocation.1.mono hsub loc hloc
      · exact hlocs.1 loc hloc
    · cases location with
      | none => exact hlocs.2.cons _
      | some loc =>
        rw [Option.toList_some, List.singleton_append, List.map_cons, List.map_cons,
          hlocation.2 loc rfl]
        exact hlocs.2.cons_cons _

theorem mem_shardJobs {nodes : List GoString} {ss : List Blob} {q : (GoString × Blob) × Nat}
    (h : q ∈ shardJobs nodes ss) : ss[q.2]? = some q.1.2 := by
  obtain ⟨⟨n, payload⟩, i⟩ := q
  exact (List.getElem?_zip_eq_some.mp (List.mk_mem_zipIdx_iff_getElem?.mp h)).2

theorem learns_writeShards {nodes : List GoString} {ss : List Blob}
    (hss : d.ec.shards B = some ss) :
    Learns d o v B t (writeShards nodes o ss) fun locs t' => Written o locs t' ∧
      (locs.map (·.shardIndex)).Nodup := by
  refine learns_schedule fun jobs t' _ hperm => ?_
  refine (learns_writeJobs fun q hq => ?_).bind fun locs t'' _ hlocs => learns_pure ⟨?_, ?_⟩
  · rw [shardAt_of_shards hss]
    exact mem_shardJobs (hperm.mem_iff.mp hq)
  · intro loc hloc
    exact hlocs.1 loc ((List.perm_insertionSort _ _).mem_iff.mp hloc)
  · have hindices : (jobs.map fun q => (q.2 : Int)).Nodup := by
      rw [(hperm.map _).nodup_iff, shardJobs]
      have hnodup : (((nodes.zip ss).zipIdx).map (·.2)).Nodup := by
        rw [List.zipIdx_map_snd]
        exact List.nodup_range'
      have hindex := hnodup.map (Nat.cast_injective (R := Int))
      rwa [List.map_map] at hindex
    exact (((List.perm_insertionSort _ _).map _).nodup_iff).mpr (hindices.sublist hlocs.2)

/-- The migration stores the shards of the object's bytes and records those that it has stored. -/
theorem learns_processReplicationToEC (ho : Routable o) (hv : 0 < v) (htask : task.objectID = o) :
    Learns d o v B t (processReplicationToEC d task) fun _ _ => True := by
  subst htask
  refine learns_repo trivial fun snap t₁ htells _ _ => ?_
  cases snap with
  | none => exact learns_fail
  | some snap =>
    obtain ⟨rfl, -⟩ := htells rfl snap rfl
    dsimp only
    split_ifs
    · exact learns_pure trivial
    · exact learns_pure trivial
    refine learns_repo rfl fun _ t₂ _ _ _ => ?_
    refine learns_listHealthyNodeIDs fun nodes t₃ _ => ?_
    split_ifs
    · exact learns_fail
    refine learns_repo trivial fun replicas t₄ hreplicas _ _ => ?_
    have hfetch : Learns d task.objectID task.version B t₄
        (fetchFromAnyReplica replicas nodes task.objectID task.version) fun data _ => data = B := by
      refine (learns_fetchFirst (fetchPlaces_keys ho hv (hreplicas rfl replicas rfl) nodes)).bind
        fun data t' _ hdata => ?_
      cases data with
      | some data => exact learns_pure (hdata data rfl)
      | none => exact learns_fail
    refine hfetch.bind ?_
    rintro _ t₅ - rfl
    refine learns_encodeShards.bind fun ss t₆ _ hss => ?_
    dsimp only
    split_ifs
    · exact learns_fail
    refine (learns_writeShards hss).bind fun locs t₇ _ hlocs => ?_
    split_ifs with hfew
    · exact learns_fail
    refine learns_repo ⟨rfl, rfl, rfl, hlocs.1, Or.inr ⟨hlocs.2, by omega⟩⟩ fun _ t₈ _ _ _ => ?_
    exact learns_now fun _ t₉ _ => learns_repo_last trivial

end Migration

section Repair

variable {d : Deps} {o : GoString} {v : Int} {B : Blob} {t : Set Fact} {task : TaskRecord}

theorem learns_fetchFromActiveReplicas {rs : List ReplicaLocation}
    (hrs : ∀ r ∈ rs, ReplicaPlace o v r.nodeID r.path) :
    Learns d o v B t (fetchFromActiveReplicas o v rs) fun data _ => data = B := by
  induction rs generalizing t with
  | nil => exact learns_fail
  | cons r rest ih =>
    have hrest := fun t => @ih t fun r' hr' => hrs r' (List.mem_cons_of_mem _ hr')
    have hkey : replicaBlobKey o v r.path = hotPath o v := by
      have hpath := (hrs r List.mem_cons_self).path_eq
      unfold replicaBlobKey
      simp only [hpath, if_neg (hotPath_ne_nil o v)]
    unfold fetchFromActiveReplicas
    dsimp only
    rw [hkey]
    refine learns_retrieve fun reply t₁ _ htells => ?_
    split
    · exact hrest t₁
    · obtain ⟨-, hhot, -⟩ := htells _ rfl
      exact learns_pure (hhot rfl)
    · split_ifs
      · refine learns_retrieve fun reply t₂ _ htells => ?_
        split
        · exact absurd rfl (htells _ rfl).1
        · exact hrest t₂
      · exact hrest t₁

theorem learns_writeSingleBlob {n k : GoString} {payload : Blob}
    (hallow : Tends d o v B t (.store n k payload)) :
    Learns d o v B t (writeSingleBlob n k payload) fun result t' => ∀ u, result = .ok u →
      ∃ code body, (code = 200 ∨ code = 204) ∧
        learned o v (.store n k payload) (.status code body) ⊆ t' := by
  refine learns_store hallow fun reply t' _ hlearned => ?_
  split
  · exact learns_pure (by rintro _ ⟨⟩)
  · exact learns_pure fun _ _ => ⟨200, _, Or.inl rfl, hlearned⟩
  · exact learns_pure fun _ _ => ⟨204, _, Or.inr rfl, hlearned⟩
  · exact learns_pure (by rintro _ ⟨⟩)

theorem learns_writeReplicas (ho : Routable o) (hv : 0 < v) (ns : List GoString) :
    Learns d o v B t (writeReplicas o v B ns) fun out t' =>
      ∀ n ∈ out, n ∈ ns ∧ .replica n ∈ t' := by
  induction ns generalizing t with
  | nil => exact learns_pure (by simp)
  | cons n rest ih =>
    simp only [writeReplicas, replicaBlobKey_nil ho hv]
    refine (learns_writeSingleBlob (Or.inl ⟨rfl, rfl⟩)).bind fun result t₁ _ hresult => ?_
    refine ih.bind fun out t₂ hsub hout => learns_pure fun n' hn' => ?_
    cases result with
    | error e =>
      obtain ⟨hmem, hfact⟩ := hout n' hn'
      exact ⟨List.mem_cons_of_mem _ hmem, hfact⟩
    | ok u =>
      rcases List.mem_cons.mp hn' with rfl | hn'
      · obtain ⟨code, body, hcode, hlearned⟩ := hresult u rfl
        exact ⟨List.mem_cons_self, hsub (learned_replica hcode hlearned)⟩
      · obtain ⟨hmem, hfact⟩ := hout n' hn'
        exact ⟨List.mem_cons_of_mem _ hmem, hfact⟩

/-- The repair of replicas copies the object's bytes and records the copies that it has made. -/
theorem learns_processHOTRepair (ho : Routable task.objectID) (hv : 0 < task.version) :
    Learns d task.objectID task.version B t (processHOTRepair d task) fun _ _ => True := by
  refine learns_repo trivial fun rs t₁ htells _ _ => ?_
  have hrs := htells rfl rs rfl
  dsimp only
  generalize (if d.cfg.hotReplicaCount ≤ 0 then (1 : Int) else d.cfg.hotReplicaCount) = target
  split_ifs
  · exact learns_fail
  · exact learns_pure trivial
  refine learns_listHealthyNodeIDs fun healthy t₂ _ => ?_
  split_ifs
  · exact learns_fail
  · exact learns_fail
  refine (learns_fetchFromActiveReplicas hrs).bind fun data t₃ _ hdata => ?_
  rw [hdata]
  refine (learns_writeReplicas ho hv _).bind fun repaired t₄ _ hrepaired => ?_
  have hplace : Tends d task.objectID task.version B t₄
      (.repo (.upsertReplicaLocations task.objectID task.version repaired)) :=
    ⟨rfl, rfl, fun n hn => ⟨picked_of_pick (hrepaired n hn).1, (hrepaired n hn).2⟩⟩
  split_ifs
  · exact learns_fail
  · exact learns_repo hplace fun _ _ _ _ _ => learns_fail
  · exact learns_repo hplace fun _ _ _ _ _ => learns_pure trivial

/-- What is fetched are shards at their places. -/
theorem learns_fetchShards {ss : List Blob} (hss : d.ec.shards B = some ss)
    {requests : List (Nat × ECShardLocation)}
    (hreq : ∀ q ∈ requests, q.2.path = chunkKey o q.1) {chunks : List (Option Blob)}
    (hmatch : Coder.Matches chunks ss) : Learns d o v B t (fetchShards requests chunks)
      fun fetched _ => Coder.Matches fetched ss := by
  induction requests generalizing chunks t with
  | nil => exact learns_pure hmatch
  | cons q requests ih =>
    obtain ⟨i, loc⟩ := q
    have hpath : loc.path = chunkKey o i := hreq (i, loc) List.mem_cons_self
    have hrest := fun t chunks => @ih t (fun q hq => hreq q (List.mem_cons_of_mem _ hq)) chunks
    simp only [fetchShards, fetchSingleBlob, bind_assoc]
    refine learns_retrieve fun reply t₁ _ htells => ?_
    split
    · obtain ⟨-, -, hchunk⟩ := htells _ rfl
      have hdata := hchunk i hpath
      rw [shardAt_of_shards hss] at hdata
      exact hrest t₁ _ (hmatch.set hdata)
    · exact hrest t₁ _ hmatch

theorem learns_writeMissing {ss : List Blob} (hss : d.ec.shards B = some ss)
    {targets : List (Nat × GoString)} (htargets : ∀ q ∈ targets, Picked q.2) :
    Learns d o v B t (writeMissing o (ss.map some) targets) fun locs t' => Written o locs t' := by
  induction targets generalizing t with
  | nil => exact learns_pure (by simp [Written])
  | cons q rest ih =>
    obtain ⟨i, n⟩ := q
    have hn : Picked n := htargets _ List.mem_cons_self
    have hrest := fun t => @ih t fun q hq => htargets q (List.mem_cons_of_mem _ hq)
    unfold writeMissing
    dsimp only
    split_ifs with hempty
    · exact learns_fail
    have hpayload : shardAt d B i = some (((ss.map some).getD i none).getD []) := by
      rw [shardAt_of_shards hss]
      cases hi : ss[i]? with
      | none => simp [List.getD, hi] at hempty
      | some s => simp [List.getD, hi]
    refine (learns_writeSingleBlob (Or.inr ⟨i, rfl, hpayload⟩)).bind
      fun result t₁ _ hresult => ?_
    cases result with
    | error e => exact learns_fail
    | ok u =>
      obtain ⟨code, body, hcode, hlearned⟩ := hresult u rfl
      refine (hrest t₁).bind fun locs t₂ hsub hlocs => learns_pure fun loc hloc => ?_
      rcases List.mem_cons.mp hloc with rfl | hloc
      · exact ⟨rfl, ⟨hn.ne_nil, rfl⟩, hsub (learned_shard hcode hlearned)⟩
      · exact hlocs loc hloc

theorem activeByIndex_mem {total i : Int} {shards : List ECShardLocation} {loc : ECShardLocation}
    (h : activeByIndex total shards i = some loc) : loc ∈ shards ∧ loc.shardIndex = i := by
  obtain ⟨hmem, hloc⟩ := List.mem_filter.mp (List.mem_of_getLast? h)
  exact ⟨hmem, (of_decide_eq_true hloc).2.2.2.2.2⟩

/-- The repair of shards restores them from shards of the object's bytes. -/
theorem learns_repairShards (hlawful : d.ec.Lawful d.cfg.k d.cfg.m) (hB : B ≠ [])
    {placements : List ECShardLocation}
    (hpaths : ∀ loc ∈ placements, loc.path = chunkKey task.objectID loc.shardIndex)
    (hcold : .cold ∈ t) : Learns d task.objectID task.version B t
      (repairShards d task d.cfg.k d.cfg.m placements) fun _ _ => True := by
  obtain ⟨ss, hss, hlen, -⟩ := hlawful.shards_ok hB
  have htotal : ((d.cfg.k : Int) + d.cfg.m).toNat = ss.length := by omega
  unfold repairShards
  dsimp only
  split_ifs
  · exact learns_fail
  · exact learns_pure trivial
  refine learns_schedule fun active t₁ hsub₁ hperm => ?_
  have hactive : ∀ q ∈ active, q.2.path = chunkKey task.objectID q.1 := by
    intro q hq
    obtain ⟨i, -, hi⟩ := List.mem_filterMap.mp (hperm.mem_iff.mp hq)
    obtain ⟨loc, hloc, rfl⟩ := Option.map_eq_some_iff.mp hi
    obtain ⟨hmem, hindex⟩ := activeByIndex_mem hloc
    rw [hpaths loc hmem, hindex]
  rw [htotal]
  refine (learns_fetchShards hss hactive (Coder.matches_none ss)).bind
    fun fetched t₂ hsub₂ hfetched => ?_
  split_ifs with hfew
  · exact learns_fail
  rw [hlawful.restore hB hss hfetched (by omega)]
  change Learns _ _ _ _ _ (pure (ss.map some) >>= _) _
  rw [pure_bind]
  refine learns_listHealthyNodeIDs fun healthy t₃ hsub₃ => ?_
  split_ifs
  · exact learns_fail
  · exact learns_fail
  refine (learns_writeMissing hss fun q hq => picked_of_pick (List.of_mem_zip hq).2).bind
    fun locs t₄ hsub₄ hlocs => ?_
  exact learns_repo_last ⟨rfl, rfl, rfl, hlocs,
    Or.inl (hsub₄ (hsub₃ (hsub₂ (hsub₁ hcold))))⟩

theorem learns_processReplicationRepair (ho : Routable o) (hv : 0 < v)
    (hlawful : d.ec.Lawful d.cfg.k d.cfg.m) (htask : task.objectID = o) :
    Learns d o v B t (processReplicationRepair d task) fun _ _ => True := by
  subst htask
  refine learns_repo trivial fun snap t₁ htells _ _ => ?_
  cases snap with
  | none => exact learns_pure trivial
  | some snap =>
    obtain ⟨rfl, -⟩ := htells rfl snap rfl
    dsimp only
    split_ifs
    · exact learns_pure trivial
    cases snap.tier with
    | hot => exact learns_processHOTRepair ho hv
    | ec =>
      refine learns_repo trivial fun view t₂ hview hsub hlearned => ?_
      cases view with
      | none => exact learns_pure trivial
      | some view =>
        obtain ⟨-, ver, hver, -, hcode⟩ := hview rfl view rfl
        dsimp only
        rw [hver]
        dsimp only
        split_ifs with hcurrent htier
        · exact learns_pure trivial
        · exact learns_pure trivial
        have htier := not_not.mp htier
        obtain ⟨hB, hk, hm, hpaths⟩ := hcode htier
        have hkpos := hlawful.pos
        have hk' : positiveOr ver.encodingK d.cfg.k = d.cfg.k := by
          rw [hk]
          exact if_pos (by omega)
        have hm' : positiveOr ver.encodingM d.cfg.m = d.cfg.m := by
          rw [hm]
          simp [positiveOr]
        rw [hk', hm']
        exact learns_repairShards hlawful hB hpaths
          (hlearned ⟨rfl, rfl, view, ver, rfl, hver, htier⟩)

end Repair

section Collection

variable {d : Deps} {o : GoString} {v : Int} {B : Blob} {t : Set Fact} {task : TaskRecord}

theorem learns_deleteReplicas {rs : List ReplicaLocation}
    (hrs : ∀ r ∈ rs, ReplicaPlace o v r.nodeID r.path) (hcold : .cold ∈ t) :
    Learns d o v B t (deleteReplicas o rs) fun _ _ => True := by
  induction rs generalizing t with
  | nil => exact learns_pure trivial
  | cons r rest ih =>
    have hpath := (hrs r List.mem_cons_self).path_eq
    have hrest := fun t => @ih t fun r' hr' => hrs r' (List.mem_cons_of_mem _ hr')
    unfold deleteReplicas
    dsimp only
    rw [hpath, if_neg (hotPath_ne_nil o v)]
    refine learns_delete ⟨rfl, hcold⟩ fun reply t₁ hsub => ?_
    split
    · exact learns_fail
    · exact hrest t₁ (hsub hcold)
    · exact hrest t₁ (hsub hcold)
    · exact learns_fail

/-- Replicas are deleted once the version has been seen in tier EC. -/
theorem learns_processReplicationGC (htask : task.objectID = o) :
    Learns d o v B t (processReplicationGC task) fun _ _ => True := by
  subst htask
  refine learns_repo trivial fun snap t₁ htells _ hlearned => ?_
  cases snap with
  | none => exact learns_pure trivial
  | some snap =>
    obtain ⟨rfl, -⟩ := htells rfl snap rfl
    dsimp only
    split_ifs with hcurrent hready
    · exact learns_pure trivial
    · exact learns_fail
    have htier : snap.tier = .ec := by
      by_contra hne
      exact hready (Or.inl hne)
    have hcold : Fact.cold ∈ t₁ := hlearned ⟨rfl, rfl, rfl, snap, rfl, htier⟩
    refine learns_repo trivial fun replicas t₂ hreplicas hsub₂ _ => ?_
    split_ifs
    · exact learns_pure trivial
    refine (learns_deleteReplicas (hreplicas rfl replicas rfl) (hsub₂ hcold)).bind
      fun _ t₃ hsub₃ _ => ?_
    exact learns_repo_last ⟨rfl, rfl, hsub₃ (hsub₂ hcold)⟩

/-- The only version is current, so there is no old one to remove. -/
theorem learns_processOldVersionGC (htask : task.objectID = o) :
    Learns d o v B t (processOldVersionGC task) fun _ _ => True := by
  subst htask
  refine learns_repo trivial fun view t₁ htells _ _ => ?_
  cases view with
  | none => exact learns_pure trivial
  | some view =>
    dsimp only
    rw [if_pos (htells rfl view rfl)]
    exact learns_pure trivial

theorem learns_lateSuccesses (ns : List GoString) :
    Learns d o v B t (lateSuccesses (hotPath o v) B ns) fun out t' =>
      ∀ n ∈ out, n ∈ ns ∧ .replica n ∈ t' := by
  induction ns generalizing t with
  | nil => exact learns_pure (by simp)
  | cons n rest ih =>
    unfold lateSuccesses writeSingleHotReplica
    rw [bind_assoc]
    refine learns_store (Or.inl ⟨rfl, rfl⟩) fun reply t₁ _ hlearned => ?_
    rw [pure_bind]
    refine ih.bind fun out t₂ hsub hout => learns_pure fun n' hn' => ?_
    split_ifs at hn' with hstored
    · rcases List.mem_cons.mp hn' with rfl | hn'
      · obtain err | ⟨code, body⟩ := reply
        · cases hstored
        · have hcode : code = 200 ∨ code = 204 := by
            simpa [Api.stored, isStoreSuccessStatus] using hstored
          exact ⟨List.mem_cons_self, hsub (learned_replica hcode hlearned)⟩
      · obtain ⟨hmem, hfact⟩ := hout n' hn'
        exact ⟨List.mem_cons_of_mem _ hmem, hfact⟩
    · obtain ⟨hmem, hfact⟩ := hout n' hn'
      exact ⟨List.mem_cons_of_mem _ hmem, hfact⟩

theorem learns_observeLate {late : List GoString} (hlate : ∀ n ∈ late, Picked n) :
    Learns d o v B t (observeLateHotReplicaWrites late (hotPath o v) B o v) fun _ _ => True := by
  refine (learns_lateSuccesses late).bind fun ns t₁ _ hns => ?_
  split_ifs
  · exact learns_pure trivial
  refine learns_repo_attempt trivial fun r t₂ _ hsub => ?_
  obtain e | (_ | (snap : ObjectVersionSnapshot)) := r
  · exact learns_pure trivial
  · exact learns_pure trivial
  dsimp only
  split_ifs
  · exact learns_pure trivial
  · refine learns_repo_attempt ⟨rfl, rfl, fun n hn => ?_⟩ fun _ _ _ _ => learns_pure trivial
    exact ⟨hlate n (hns n hn).1, hsub (hns n hn).2⟩

end Collection

section Reading

variable {d : Deps} {o : GoString} {v : Int} {B : Blob} {t : Set Fact}

theorem learns_readFirst (ns : List GoString) :
    Learns d o v B t (readFirst (hotPath o v) ns) fun r _ => ∀ data, r = some data → data = B := by
  induction ns generalizing t with
  | nil => exact learns_pure (by rintro _ ⟨⟩)
  | cons n rest ih =>
    refine learns_retrieve fun reply t' _ htells => ?_
    split
    · obtain ⟨-, hhot, -⟩ := htells _ rfl
      refine learns_pure ?_
      rintro _ ⟨⟩
      exact hhot rfl
    · exact ih

theorem learns_readReplication (nodes : List GoString) :
    Learns d o v B t (readReplication nodes (hotPath o v)) fun data _ => data = B := by
  refine learns_schedule fun arrivals t₁ _ _ => ?_
  refine (learns_readFirst arrivals).bind fun r t₂ _ hr => ?_
  cases r with
  | some data => exact learns_pure (hr data rfl)
  | none => exact learns_fail

theorem learns_fetchChunks {ss : List Blob} (hss : d.ec.shards B = some ss)
    {requests : List ECShardPlacement} (hreq : ∀ p ∈ requests, p.path = chunkKey o p.index)
    {chunks : List (Option Blob)} (hmatch : Coder.Matches chunks ss) (count : Nat) :
    Learns d o v B t (fetchChunks requests chunks count)
      fun fetched _ => Coder.Matches fetched.1 ss := by
  induction requests generalizing chunks count t with
  | nil => exact learns_pure hmatch
  | cons p rest ih =>
    have hrest := fun p hp => hreq p (List.mem_cons_of_mem _ hp)
    unfold fetchChunks
    split_ifs
    · exact ih hrest hmatch count
    · refine learns_retrieve fun reply t' _ htells => ?_
      split
      · obtain ⟨-, -, hchunk⟩ := htells _ rfl
        obtain ⟨ss', hss', -, hdata⟩ :=
          shardAt_eq_some (hchunk p.index (hreq p List.mem_cons_self))
        cases hss.symm.trans hss'
        exact ih hrest (hmatch.set hdata) _
      · exact ih hrest hmatch count

theorem joinChunks_map_some (ss : List Blob) {k : Nat} (hk : k ≤ ss.length) :
    joinChunks (ss.map some) k = .ok (ss.take k).flatten := by
  induction k with
  | zero => rfl
  | succ k ih =>
    have hlt : k < ss.length := hk
    rw [List.take_succ_eq_append_getElem hlt, List.flatten_append]
    unfold joinChunks
    rw [ih hlt.le]
    simp [List.getD, hlt]

/-- The shards of a migrated object give its bytes or none. -/
theorem learns_readEC (hlawful : d.ec.Lawful d.cfg.k d.cfg.m) (hB : B ≠ []) {md : Metadata}
    (hmd : Striped d o B md) (nodes : List GoString) :
    Learns d o v B t (readEC d nodes md) fun data _ => data = B := by
  obtain ⟨ss, hss, hlen, -⟩ := hlawful.shards_ok hB
  have hpos := hlawful.pos
  unfold readEC
  rw [hmd.k, hmd.m, hmd.length]
  dsimp only [Option.getD_some]
  rw [if_neg hmd.named, if_neg (by omega)]
  obtain ⟨first, rest, hplaced⟩ := List.exists_cons_of_ne_nil hmd.placed
  unfold shardRequests
  rw [hplaced]
  dsimp only
  have htotal : ((d.cfg.k : Int) + d.cfg.m).toNat = ss.length := by omega
  rw [htotal]
  refine learns_schedule fun arrivals t₁ _ hperm => ?_
  have hpaths : ∀ p ∈ arrivals, p.path = chunkKey o p.index := fun p hp =>
    hmd.paths p (hplaced ▸ hperm.mem_iff.mp hp)
  refine (learns_fetchChunks hss hpaths (Coder.matches_none ss) 0).bind
    fun fetched t₂ _ hfetched => ?_
  split_ifs
  · exact learns_fail
  rcases Nat.lt_or_ge (Coder.present fetched.1) d.cfg.k with hfew | henough
  · obtain ⟨e, he⟩ := hlawful.few hB hss hfetched hfew
    rw [he]
    exact learns_fail
  · obtain ⟨hlength, htake⟩ := hlawful.read hss hB
    rw [hlawful.restore hB hss hfetched henough]
    dsimp only
    rw [Int.toNat_natCast, joinChunks_map_some ss (by omega)]
    dsimp only
    rw [if_neg (by omega), Int.toNat_natCast, htake]
    exact learns_pure rfl

theorem learns_getDynamicNodes : Learns d o v B t (getDynamicNodes d o) fun r _ =>
    (∀ response, r = .error response → ∃ fields, response = .json 503 fields) ∧
      ∀ nodes, r = .ok nodes → ∀ n ∈ nodes.1, Picked n := by
  refine learns_activeNodes fun active t₁ _ => ?_
  cases active with
  | none =>
    refine learns_pure ⟨?_, by rintro _ ⟨⟩⟩
    rintro _ ⟨⟩
    exact ⟨_, rfl⟩
  | some active =>
    dsimp only
    split
    · rename_i hselect
      refine learns_pure ⟨by rintro _ ⟨⟩, ?_⟩
      rintro _ ⟨⟩
      exact selectDynamicNodes_picked hselect
    · refine learns_pure ⟨?_, by rintro _ ⟨⟩⟩
      rintro _ ⟨⟩
      exact ⟨_, rfl⟩

theorem learns_loadMetadata : Learns d o v B t (loadMetadata o) fun r _ =>
    (∀ response, r = .error response → ∃ code fields, response = .json code fields) ∧
      ∀ md, r = .ok md → Readable d o v B md := by
  refine learns_repo_attempt trivial fun r t₁ htells _ => ?_
  obtain e | (_ | (md : Metadata)) := r
  · refine learns_pure ⟨?_, by rintro _ ⟨⟩⟩
    rintro _ ⟨⟩
    exact ⟨_, _, rfl⟩
  · refine learns_pure ⟨?_, by rintro _ ⟨⟩⟩
    rintro _ ⟨⟩
    exact ⟨_, _, rfl⟩
  · refine learns_pure ⟨by rintro _ ⟨⟩, ?_⟩
    rintro _ ⟨⟩
    exact htells rfl md rfl

/-- Data that a `GET` on the object returns are its bytes. -/
theorem learns_getObject (ho : Routable o) (hlawful : d.ec.Lawful d.cfg.k d.cfg.m) {id : GoString}
    (hid : trimSpace id = o) : Learns d o v B t (getObject d id) fun response _ =>
      ∀ ct data, response = .data ct data → data = B := by
  unfold getObject
  dsimp only
  rw [hid, if_neg ho.ne_nil]
  refine learns_getDynamicNodes.bind fun nodes t₁ _ hnodes => ?_
  obtain response | ⟨replicaNodes, ecNodes⟩ := nodes
  · obtain ⟨fields, rfl⟩ := hnodes.1 _ rfl
    exact learns_pure (by rintro ct data ⟨⟩)
  refine learns_loadMetadata.bind fun md t₂ _ hmd => ?_
  obtain response | md := md
  · obtain ⟨code, fields, rfl⟩ := hmd.1 _ rfl
    exact learns_pure (by rintro ct data ⟨⟩)
  have hanswer : ∀ {p : Job Blob} {t} {answer : Except GoError Blob → Response},
      Learns d o v B t p (fun data _ => data = B) →
      (∀ e ct data, answer (.error e) ≠ .data ct data) →
      (∀ bytes ct data, answer (.ok bytes) = .data ct data → data = bytes) →
      Learns d o v B t (p.attempt >>= fun result => pure (answer result))
        fun response _ => ∀ ct data, response = .data ct data → data = B := by
    intro p t answer hp herr hok
    refine hp.attempt_bind fun result t' _ hresult => learns_pure fun ct data heq => ?_
    cases result with
    | error e => exact absurd heq (herr e ct data)
    | ok bytes => exact (hok bytes ct data heq).trans (hresult bytes rfl)
  dsimp only
  rcases hmd.2 md rfl with ⟨hstrategy, hkey⟩ | ⟨hstrategy, hB, hstriped⟩
  · rw [if_pos hstrategy, hkey]
    refine hanswer (learns_readReplication _) ?_ ?_
    · rintro e ct data ⟨⟩
    · rintro bytes ct data ⟨⟩
      rfl
  · rw [if_neg (by rw [hstrategy]; decide), if_pos hstrategy]
    refine hanswer (learns_readEC hlawful hB hstriped _) ?_ ?_
    · rintro e ct data ⟨⟩
    · rintro bytes ct data ⟨⟩
      rfl

end Reading

end TieredStore.Cluster
