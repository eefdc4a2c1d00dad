import TieredStore.Cluster.Lifetime

/-!
# Reads with nodes down

A durable object is read while some nodes answer and the others fail. `Enough` says what the read
needs: one ACTIVE replica on a node that is up while the object is in tier HOT, and the data shard
count of ACTIVE shards on nodes that are up once it is in tier EC. `durable_get` is the whole
behaviour of `GET`: with enough it returns the bytes of the object, and without it answers 404.
-/

namespace TieredStore.Cluster

open Lib Lib.Prog Lib.Bytes Meta Tiering Api

/-- How a cluster answers whose nodes outside of `up` fail, while the API knows the nodes `active`. -/
def Partly (cfg : Config) (active : ActiveNodes) (up : GoString → Prop) :
    (c : Call) → World → c.Answer → World → Prop
  | .activeNodes, w, r, w' => r = some active ∧ w' = w
  | .retrieve n k, w, r, w' =>
    (up n → Calm cfg (.retrieve n k) w r w') ∧ (¬ up n → Reply.IsFault r ∧ w' = w)
  | c, w, r, w' => Calm cfg c w r w'

/-- What a read of the object needs. -/
structure Enough (d : Deps) (o : GoString) (v : Int) (up : GoString → Prop) (c : Catalog) : Prop where
  replica : ¬ Cold o v c → ∃ n r, c.replica o v n = some r ∧ r.status = .active ∧ up n
  shards : Cold o v c → ∃ I : Finset Int, d.cfg.k ≤ I.card ∧
    ∀ i ∈ I, ∃ r, c.shard o v i = some r ∧ r.status = .active ∧ up r.nodeID

/-- A job that leaves the cluster as it is; its outcome satisfies `R`. -/
def Finds (cfg : Config) (active : ActiveNodes) (up : GoString → Prop) (w : World) {α : Type}
    (p : Job α) (R : Except GoError α → Prop) : Prop :=
  p.Obeys (stateMonitor (routed (Partly cfg active up)) fun _ => True)
    (fun out w' => w' = w ∧ R out) w

section Rules

variable {cfg : Config} {active : ActiveNodes} {up : GoString → Prop} {w : World} {α β : Type}
  {R : Except GoError α → Prop} {R' : Except GoError β → Prop}

theorem finds_pure {a : α} (h : R (.ok a)) : Finds cfg active up w (pure a) R := ⟨rfl, h⟩

theorem finds_fail {e : GoError} (h : R (.error e)) : Finds cfg active up w (.fail e) R := ⟨rfl, h⟩

theorem Finds.bind {p : Job α} {f : α → Job β} (hp : Finds cfg active up w p R)
    (herror : ∀ e, R (.error e) → R' (.error e))
    (hf : ∀ a, R (.ok a) → Finds cfg active up w (f a) R') :
    Finds cfg active up w (p >>= f) R' := by
  refine Obeys.bind hp ?_ ?_
  · rintro e w' ⟨rfl, h⟩
    exact ⟨rfl, herror e h⟩
  · rintro a w' ⟨rfl, h⟩
    exact hf a h

theorem Finds.attempt_bind {p : Job α} {f : Except GoError α → Job β}
    (hp : Finds cfg active up w p R) (hf : ∀ x, R x → Finds cfg active up w (f x) R') :
    Finds cfg active up w (p.attempt >>= f) R' := by
  refine Obeys.attempt_bind hp ?_
  rintro x w' ⟨rfl, h⟩
  exact hf x h

theorem finds_activeNodes {f : Option ActiveNodes → Job β}
    (h : Finds cfg active up w (f (some active)) R') :
    Finds cfg active up w (Job.activeNodes >>= f) R' := by
  refine ⟨trivial, ?_⟩
  rintro r w' ⟨rfl, rfl⟩
  exact h

theorem finds_schedule {xs : List α} {f : List α → Job β}
    (h : ∀ ys : List α, ys.Perm xs → Finds cfg active up w (f ys) R') :
    Finds cfg active up w (Job.schedule xs >>= f) R' := by
  refine Job.obeys_schedule trivial ?_
  rintro ys order w' hperm ⟨e, hserve⟩
  cases hserve
  exact h ys hperm

/-- A node that is up returns the blob, and one that is down fails. -/
theorem finds_retrieve {n k : GoString} {data : Blob} {f : Reply → Job β} (hk : VerbatimKey k)
    (haddr : unaddressed n k = false) (hblob : w.blobs n k = some data)
    (hup : up n → Finds cfg active up w (f (.status 200 data)) R')
    (hdown : ¬ up n → ∀ reply, Reply.IsFault reply → Finds cfg active up w (f reply) R') :
    Finds cfg active up w (Job.retrieve n k >>= f) R' := by
  rw [Job.retrieve_bind]
  refine ⟨trivial, fun r w' hstep => ?_⟩
  obtain ⟨hcalm, hfault⟩ := (routed_retrieve hk).mp hstep
  by_cases hn : up n
  · obtain ⟨e, hserve⟩ := hcalm hn
    cases (serve_retrieve haddr hblob).symm.trans hserve
    exact hup hn
  · obtain ⟨hr, rfl⟩ := hfault hn
    exact hdown hn r hr

theorem finds_read {rc : RepoCall} {a : rc.Answer} {f : Except GoError rc.Answer → Job β}
    (hread : ∀ clocks, atomically (rc.program cfg clocks) w.records = (.ok a, w.records))
    (h : Finds cfg active up w (f (.ok a)) R') :
    Finds cfg active up w ((Job.repo rc).attempt >>= f) R' := by
  rw [Job.repo_attempt_bind]
  refine ⟨trivial, ?_⟩
  rintro r w' ⟨e, hserve⟩
  simp only [serve, hread] at hserve
  cases hserve
  exact h

end Rules

/-! ## Replicas -/

section Replicas

variable {cfg : Config} {active : ActiveNodes} {up : GoString → Prop} {w : World} {B : Blob}

theorem not_status_200 {reply : Reply} (h : Reply.IsFault reply) (data : Blob) :
    reply ≠ .status 200 data := by
  rintro rfl
  exact h.1 rfl

theorem finds_readFirst {key : GoString} (hkey : VerbatimKey key) {ns : List GoString}
    (hns : ∀ n ∈ ns, unaddressed n key = false ∧ w.blobs n key = some B) :
    Finds cfg active up w (readFirst key ns) fun out =>
      ((∃ n ∈ ns, up n) ∧ out = .ok (some B)) ∨ ((∀ n ∈ ns, ¬ up n) ∧ out = .ok none) := by
  induction ns with
  | nil => exact finds_pure (Or.inr ⟨by simp, rfl⟩)
  | cons n rest ih =>
    obtain ⟨haddr, hblob⟩ := hns n List.mem_cons_self
    unfold readFirst
    refine finds_retrieve hkey haddr hblob (fun hup => ?_) fun hdown reply hreply => ?_
    · exact finds_pure (Or.inl ⟨⟨n, List.mem_cons_self, hup⟩, rfl⟩)
    · split
      · exact absurd rfl (not_status_200 hreply _)
      · refine Obeys.mono ?_ (ih fun n' hn' => hns n' (List.mem_cons_of_mem _ hn'))
        rintro out w' ⟨rfl, hout⟩
        refine ⟨rfl, hout.imp ?_ ?_⟩
        · rintro ⟨⟨n', hn', hup⟩, heq⟩
          exact ⟨⟨n', List.mem_cons_of_mem _ hn', hup⟩, heq⟩
        · rintro ⟨hall, heq⟩
          exact ⟨List.forall_mem_cons.mpr ⟨hdown, hall⟩, heq⟩

theorem finds_readReplication {key : GoString} (hkey : VerbatimKey key) {ns : List GoString}
    (hns : ∀ n ∈ ns, unaddressed n key = false ∧ w.blobs n key = some B) :
    Finds cfg active up w (readReplication ns key) fun out =>
      ((∃ n ∈ ns, up n) ∧ out = .ok B) ∨ ((∀ n ∈ ns, ¬ up n) ∧ ∃ e, out = .error e) := by
  refine finds_schedule fun arrivals hperm => ?_
  refine (finds_readFirst hkey fun n hn => hns n (hperm.mem_iff.mp hn)).bind ?_ fun r hr => ?_
  · rintro e (⟨-, ⟨⟩⟩ | ⟨-, ⟨⟩⟩)
  rcases hr with ⟨⟨n, hn, hup⟩, hr⟩ | ⟨hdown, hr⟩
  · cases hr
    exact finds_pure (Or.inl ⟨⟨n, hperm.mem_iff.mp hn, hup⟩, rfl⟩)
  · cases hr
    exact finds_fail (Or.inr ⟨fun n hn => hdown n (hperm.mem_iff.mpr hn), _, rfl⟩)

theorem mem_foldl_addNode {n : GoString} (nodes out : List GoString)
    (hnodes : ∀ n ∈ nodes, n ≠ [] ∧ Trimmed n) :
    n ∈ nodes.foldl addNode out ↔ n ∈ out ∨ n ∈ nodes := by
  induction nodes generalizing out with
  | nil => simp
  | cons n' rest ih =>
    obtain ⟨hne, htrim⟩ := hnodes n' List.mem_cons_self
    rw [List.foldl_cons, ih _ fun m hm => hnodes m (List.mem_cons_of_mem _ hm)]
    unfold addNode
    rw [trimSpace_of_trimmed htrim]
    split_ifs with hskip
    · have hmem := hskip.resolve_left hne
      constructor
      · rintro (h | h)
        · exact Or.inl h
        · exact Or.inr (List.mem_cons_of_mem _ h)
      · rintro (h | h)
        · exact Or.inl h
        · rcases List.mem_cons.mp h with rfl | h
          · exact Or.inl hmem
          · exact Or.inr h
    · simp only [List.mem_append, List.mem_cons, List.not_mem_nil, or_false]
      tauto

end Replicas

/-! ## Shards -/

section Shards

variable {d : Deps} {active : ActiveNodes} {up : GoString → Prop} {w : World} {o : GoString}
  {B : Blob} {ss : List Blob}

/-- A placement that leads to its shard. -/
structure Leads (w : World) (ss : List Blob) (p : ECShardPlacement) : Prop where
  index : 0 ≤ p.index
  addressed : p.nodeID ≠ [] ∧ p.path ≠ []
  verbatim : VerbatimKey p.path
  blob : ∃ s, ss[p.index.toNat]? = some s ∧ s ≠ [] ∧ w.blobs p.nodeID p.path = some s

/-- The shards of the nodes that are up arrive in the table. -/
theorem finds_fetchChunks {requests : List ECShardPlacement} (hreq : ∀ p ∈ requests, Leads w ss p)
    {chunks : List (Option Blob)} (hmatch : Coder.Matches chunks ss) {count : Nat}
    (hcount : Coder.present chunks ≤ count) :
    Finds d.cfg active up w (fetchChunks requests chunks count) fun out =>
      ∃ chunks' count', out = .ok (chunks', count') ∧ Coder.Matches chunks' ss ∧
        Coder.present chunks' ≤ count' ∧ ∀ i : Nat, Coder.Has chunks' i ↔
          Coder.Has chunks i ∨ ∃ p ∈ requests, p.index = i ∧ up p.nodeID := by
  induction requests generalizing chunks count with
  | nil => exact finds_pure ⟨chunks, count, rfl, hmatch, hcount, by simp⟩
  | cons p rest ih =>
    have hrest := fun p' hp' => hreq p' (List.mem_cons_of_mem _ hp')
    obtain ⟨hindex, ⟨hnode, hpath⟩, hkey, s, hs, hne, hblob⟩ := hreq p List.mem_cons_self
    have hlt : p.index.toNat < chunks.length := by
      rw [hmatch.length_eq]
      exact (List.getElem?_eq_some_iff.mp hs).1
    unfold fetchChunks
    rw [if_neg (by rintro (h | h | h | h) <;> first | omega | exact hnode h | exact hpath h)]
    have haddr : unaddressed p.nodeID p.path = false := by
      simp [unaddressed, hnode, hpath]
    refine finds_retrieve hkey haddr hblob (fun hup => ?_) fun hdown reply hreply => ?_
    · refine Obeys.mono ?_ (ih hrest (hmatch.set hs) (le_trans (Coder.present_set_le _ _ _)
        (Nat.succ_le_succ hcount)))
      rintro out w' ⟨rfl, chunks', count', rfl, hmatch', hcount', hhas⟩
      refine ⟨rfl, chunks', count', rfl, hmatch', hcount', fun i => ?_⟩
      rw [hhas, Coder.has_set hlt hne]
      simp only [List.mem_cons, exists_eq_or_imp]
      have hi : (i = p.index.toNat) ↔ (p.index = i ∧ up p.nodeID) := by
        constructor
        · intro hi
          exact ⟨by omega, hup⟩
        · rintro ⟨hi, -⟩
          omega
      rw [hi]
      tauto
    · split
      · exact absurd rfl (not_status_200 hreply _)
      · refine Obeys.mono ?_ (ih hrest hmatch hcount)
        rintro out w' ⟨rfl, chunks', count', rfl, hmatch', hcount', hhas⟩
        refine ⟨rfl, chunks', count', rfl, hmatch', hcount', fun i => ?_⟩
        rw [hhas]
        simp only [List.mem_cons, exists_eq_or_imp]
        tauto

/-- The places whose shards are on nodes that are up. -/
def Standing (up : GoString → Prop) (placements : List ECShardPlacement) (i : Nat) : Prop :=
  ∃ p ∈ placements, p.index = i ∧ up p.nodeID

/-- The shards of the nodes that are up give the bytes of the object when there are enough of them,
and an error otherwise. -/
theorem finds_readEC (hlawful : d.ec.Lawful d.cfg.k d.cfg.m) (hB : B ≠ [])
    (hss : d.ec.shards B = some ss) {md : Metadata} (hmd : Striped d o B md)
    (hleads : ∀ p ∈ parseECShardPlacements md, Leads w ss p) (nodes : List GoString) :
    Finds d.cfg active up w (readEC d nodes md) fun out => ∃ J : Finset Nat,
      (∀ i, i ∈ J ↔ Standing up (parseECShardPlacements md) i) ∧
        ((d.cfg.k ≤ J.card ∧ out = .ok B) ∨ (J.card < d.cfg.k ∧ ∃ e, out = .error e)) := by
  have hlen : ss.length = d.cfg.k + d.cfg.m := by
    obtain ⟨ss', hss', hlen, -⟩ := hlawful.shards_ok hB
    cases hss.symm.trans hss'
    exact hlen
  have hpos := hlawful.pos
  unfold readEC
  rw [hmd.k, hmd.m, hmd.length]
  dsimp only [Option.getD_some]
  rw [if_neg hmd.named, if_neg (by omega)]
  have hrequests : ∀ total, shardRequests nodes md (chunkPrefixOf md) total =
      (parseECShardPlacements md, total) := by
    intro total
    obtain ⟨first, rest, hplaced⟩ := List.exists_cons_of_ne_nil hmd.placed
    unfold shardRequests
    rw [hplaced]
  rw [hrequests]
  dsimp only
  have htotal : ((d.cfg.k : Int) + d.cfg.m).toNat = ss.length := by omega
  rw [htotal]
  refine finds_schedule fun arrivals hperm => ?_
  refine (finds_fetchChunks (fun p hp => hleads p (hperm.mem_iff.mp hp)) (Coder.matches_none ss)
    (Coder.present_replicate _).le).bind ?_ ?_
  · rintro e ⟨_, _, ⟨⟩, -⟩
  rintro _ ⟨chunks, count, ⟨⟩, hmatch, hcount, hhas⟩
  obtain ⟨J, hcard, hJ⟩ := Coder.exists_present chunks
  have hstanding : ∀ i, i ∈ J ↔ Standing up (parseECShardPlacements md) i := by
    intro i
    rw [hJ, hhas, or_iff_right Coder.not_has_replicate]
    unfold Standing
    simp only [hperm.mem_iff]
  rcases Nat.lt_or_ge (Coder.present chunks) d.cfg.k with hfew | henough
  · have herror : ∀ e : GoError, ∃ J : Finset Nat,
        (∀ i, i ∈ J ↔ Standing up (parseECShardPlacements md) i) ∧
          ((d.cfg.k ≤ J.card ∧ Except.error (α := Blob) e = .ok B) ∨
            (J.card < d.cfg.k ∧ ∃ e', Except.error (α := Blob) e = .error e')) := fun e =>
      ⟨J, hstanding, Or.inr ⟨by omega, e, rfl⟩⟩
    split_ifs
    · exact finds_fail (herror _)
    obtain ⟨e, he⟩ := hlawful.few hB hss hmatch hfew
    rw [he]
    exact finds_fail (herror _)
  · obtain ⟨hlength, htake⟩ := hlawful.read hss hB
    rw [if_neg (by omega), hlawful.restore hB hss hmatch henough]
    dsimp only
    rw [Int.toNat_natCast, joinChunks_map_some ss (by omega)]
    dsimp only
    rw [if_neg (by omega), Int.toNat_natCast, htake]
    exact finds_pure ⟨J, hstanding, Or.inl ⟨by omega, rfl⟩⟩

end Shards

/-! ## The whole read -/

section Get

variable {d : Deps} {active : ActiveNodes} {up : GoString → Prop} {w : World} {o : GoString} {v : Int}
  {B : Blob}

/-- The nodes that a read of replicas asks are those with ACTIVE rows. -/
theorem Durable.mem_replicaNodes (ho : Routable o) (h : Durable d o v B w) {obj : ObjectRecord}
    (hcurrent : obj.currentVersion = v) (ver : ObjectVersionRecord) (shards : List ECShardRecord)
    {n : GoString} : n ∈ hotReplicaNodesFromMetadata (normalizedMetadata o obj ver
      (activeReplicas w.records o obj.currentVersion) shards) ↔
      ∃ r, (catalog w.records).replica o v n = some r ∧ r.status = .active := by
  subst hcurrent
  have hrows : ∀ r, r ∈ activeReplicas w.records o obj.currentVersion ↔
      (catalog w.records).replica o obj.currentVersion r.nodeID = some r ∧ r.status = .active :=
    fun r => mem_activeReplicas separated_routable h.kept.tidy.rows ho
  have hplaced : ∀ r, r ∈ placedReplicas (activeReplicas w.records o obj.currentVersion) ↔
      r ∈ activeReplicas w.records o obj.currentVersion := by
    intro r
    unfold placedReplicas
    rw [List.mem_filter, (List.perm_insertionSort _ _).mem_iff]
    refine and_iff_left_of_imp fun hr => decide_eq_true ?_
    exact (h.kept.tidy.replicaPlace ho hr).node_ne_nil
  rw [hotNodes_answer fun r hr => ((hrows r).mp hr).2, mem_foldl_addNode]
  · simp only [List.not_mem_nil, false_or, List.mem_map, hplaced, hrows]
    constructor
    · rintro ⟨r, hr, rfl⟩
      exact ⟨r, hr⟩
    · rintro ⟨r, hr, hactive⟩
      obtain ⟨-, -, rfl, -⟩ := h.kept.tidy.rows.named.replica hr
      exact ⟨r, ⟨hr, hactive⟩, rfl⟩
  · intro n hn
    obtain ⟨r, hr, rfl⟩ := List.mem_map.mp hn
    have hplace := h.kept.tidy.replicaPlace ho ((hplaced r).mp hr)
    exact ⟨hplace.node_ne_nil, hplace.trimmed⟩

/-- The placements that a read of shards follows are those of ACTIVE rows. -/
theorem Durable.mem_placements (ho : Routable o) (h : Durable d o v B w) {obj : ObjectRecord}
    (hcurrent : obj.currentVersion = v) {ver : ObjectVersionRecord} (htier : ver.tier = .ec)
    {replicas : List ReplicaRecord} {p : ECShardPlacement} :
    p ∈ parseECShardPlacements (normalizedMetadata o obj ver replicas
      (if ver.tier = .ec then shardRows w.records o obj.currentVersion else [])) ↔
      ∃ r, (catalog w.records).shard o v p.index = some r ∧ r.status = .active ∧
        p = placementOf r := by
  subst hcurrent
  rw [parse_answer, if_pos htier, if_pos htier, List.mem_map]
  unfold Api.readable
  simp only [List.mem_filter, (List.perm_insertionSort _ _).mem_iff,
    mem_shardRows separated_routable h.kept.tidy.rows ho, decide_eq_true_iff]
  constructor
  · rintro ⟨r, ⟨hr, hplace⟩, rfl⟩
    exact ⟨r, hr, hplace.1, rfl⟩
  · rintro ⟨r, hr, hactive, rfl⟩
    have hplace := h.kept.tidy.placed.shard hr
    exact ⟨r, ⟨hr, hactive, hplace.node_ne_nil, hplace.path_eq ▸ chunkKey_ne_nil _ _⟩, rfl⟩

/-- An ACTIVE shard row leads to its shard. -/
theorem Durable.shardBlob (hlawful : d.ec.Lawful d.cfg.k d.cfg.m) (h : Durable d o v B w) (hB : B ≠ [])
    {ss : List Blob} (hss : d.ec.shards B = some ss) {i : Int} {r : ECShardRecord}
    (hr : (catalog w.records).shard o v i = some r) (hactive : r.status = .active) :
    0 ≤ i ∧ ∃ s, ss[i.toNat]? = some s ∧ s ≠ [] ∧ w.blobs r.nodeID (chunkKey o i) = some s := by
  obtain ⟨s, hs⟩ := Option.ne_none_iff_exists'.mp (h.rows.shardBlob i r hr hactive)
  obtain ⟨ss', hss', hi, hget⟩ := shardAt_eq_some (h.kept.chunkBlobs _ _ _ hs)
  cases hss.symm.trans hss'
  obtain ⟨ss', hss', -, hne, -⟩ := hlawful.shards_ok hB
  cases hss.symm.trans hss'
  exact ⟨hi, s, hget, hne s (List.mem_of_getElem? hget), hs⟩

/-- In tier EC, enough are `k` places with ACTIVE shards on nodes that are up. -/
theorem Durable.enough_iff (hlawful : d.ec.Lawful d.cfg.k d.cfg.m) (h : Durable d o v B w)
    (hcold : Cold o v (catalog w.records)) {J : Finset Nat} (hJ : ∀ i : Nat, i ∈ J ↔
      ∃ r, (catalog w.records).shard o v i = some r ∧ r.status = .active ∧ up r.nodeID) :
    Enough d o v up (catalog w.records) ↔ d.cfg.k ≤ J.card := by
  have hB := h.nonempty hlawful hcold
  obtain ⟨ss, hss, -⟩ := hlawful.shards_ok hB
  constructor
  · intro henough
    obtain ⟨I, hcard, hI⟩ := henough.shards hcold
    have hpos : ∀ i ∈ I, 0 ≤ i := by
      intro i hi
      obtain ⟨r, hr, hactive, -⟩ := hI i hi
      exact (h.shardBlob hlawful hB hss hr hactive).1
    have hsub : I.image Int.toNat ⊆ J := by
      intro n hn
      obtain ⟨i, hi, rfl⟩ := Finset.mem_image.mp hn
      rw [hJ, Int.toNat_of_nonneg (hpos i hi)]
      exact hI i hi
    have hinj : (I.image Int.toNat).card = I.card := by
      refine Finset.card_image_of_injOn fun i hi j hj hij => ?_
      have := hpos i hi
      have := hpos j hj
      omega
    have := Finset.card_le_card hsub
    omega
  · intro hcard
    refine ⟨absurd hcold, fun _ => ⟨J.map Nat.castEmbedding, ?_, fun i hi => ?_⟩⟩
    · rwa [Finset.card_map]
    · obtain ⟨n, hn, rfl⟩ := Finset.mem_map.mp hi
      exact (hJ n).mp hn

/-- What a read gives: the bytes of the object, or an error. -/
def Gives (enough : Prop) (B : Blob) (out : Except GoError Blob) : Prop :=
  (enough ∧ out = .ok B) ∨ (¬ enough ∧ ∃ e, out = .error e)

/-- What `GET` answers: the object, or 404. -/
def Serves (enough : Prop) (B : Blob) (out : Except GoError Response) : Prop :=
  (enough ∧ ∃ ct, out = .ok (.data ct B)) ∨ (¬ enough ∧ ∃ fields, out = .ok (.json 404 fields))

theorem finds_getObject {enough : Prop} (ho : Routable o)
    {nodes : List GoString × List GoString}
    (hselect : selectDynamicNodesForObjectWithLoads d o active d.cfg.hotReplicaCount
      d.cfg.hotWriteQuorum (d.cfg.k + d.cfg.m) = .ok nodes) {md : Metadata}
    (hread : ∀ clocks, atomically ((RepoCall.getNormalizedMetadata o).program d.cfg clocks) w.records =
      (.ok (some md), w.records))
    (hparts : (strategyOf md = lit "replication" ∧ Finds d.cfg active up w
        (readReplication (preferMetadataReplicaNodes md nodes.1) (hotKeyOf o md)) (Gives enough B)) ∨
      (strategyOf md = lit "ec" ∧ Finds d.cfg active up w (readEC d nodes.2 md) (Gives enough B))) :
    Finds d.cfg active up w (getObject d o) (Serves enough B) := by
  have hanswer : ∀ {p : Job Blob} {answer : Except GoError Blob → Response},
      Finds d.cfg active up w p (Gives enough B) →
      (∀ e, ∃ fields, answer (.error e) = .json 404 fields) → (∃ ct, answer (.ok B) = .data ct B) →
      Finds d.cfg active up w (p.attempt >>= fun result => pure (answer result))
        (Serves enough B) := by
    intro p answer hp herror hok
    refine hp.attempt_bind fun x hx => finds_pure ?_
    rcases hx with ⟨henough, rfl⟩ | ⟨hnot, e, rfl⟩
    · obtain ⟨ct, hct⟩ := hok
      exact Or.inl ⟨henough, ct, congrArg _ hct⟩
    · obtain ⟨fields, hfields⟩ := herror e
      exact Or.inr ⟨hnot, fields, congrArg _ hfields⟩
  unfold getObject
  dsimp only
  rw [trimSpace_of_trimmed ho.trimmed, if_neg ho.ne_nil]
  refine Finds.bind (R := fun r => r = .ok (.ok nodes)) ?_ (by rintro _ ⟨⟩) ?_
  · refine finds_activeNodes ?_
    dsimp only
    rw [hselect]
    exact finds_pure rfl
  rintro _ ⟨⟩
  refine Finds.bind (R := fun r => r = .ok (.ok md)) (finds_read hread (finds_pure rfl))
    (by rintro _ ⟨⟩) ?_
  rintro _ ⟨⟩
  dsimp only
  rcases hparts with ⟨hstrategy, hpart⟩ | ⟨hstrategy, hpart⟩
  · rw [if_pos hstrategy]
    exact hanswer hpart (fun e => ⟨_, rfl⟩) ⟨_, rfl⟩
  · rw [if_neg (by rw [hstrategy]; decide), if_pos hstrategy]
    exact hanswer hpart (fun e => ⟨_, rfl⟩) ⟨_, rfl⟩

/-- Replicas of a durable object in tier HOT. -/
theorem Durable.finds_replicas (ho : Verbatim o) (h : Durable d o v B w)
    (hhot : ¬ Cold o v (catalog w.records)) {ns : List GoString}
    (hns : ∀ n, n ∈ ns ↔ ∃ r, (catalog w.records).replica o v n = some r ∧ r.status = .active) :
    Finds d.cfg active up w (readReplication ns (hotPath o v))
      (Gives (Enough d o v up (catalog w.records)) B) := by
  have haddr : ∀ n ∈ ns, unaddressed n (hotPath o v) = false ∧ w.blobs n (hotPath o v) = some B := by
    intro n hn
    obtain ⟨r, hr, hactive⟩ := (hns n).mp hn
    refine ⟨?_, h.rows.replicaBlob hhot n r hr hactive⟩
    simp [unaddressed, (h.kept.tidy.placed.replica hr).node_ne_nil, hotPath_ne_nil]
  refine Obeys.mono ?_ (finds_readReplication (verbatimKey_hotPath ho v) haddr)
  rintro out w' ⟨rfl, ⟨⟨n, hn, hup⟩, rfl⟩ | ⟨hdown, e, rfl⟩⟩
  · obtain ⟨r, hr, hactive⟩ := (hns n).mp hn
    exact ⟨rfl, Or.inl ⟨⟨fun _ => ⟨n, r, hr, hactive, hup⟩, fun hcold => absurd hcold hhot⟩, rfl⟩⟩
  · refine ⟨rfl, Or.inr ⟨fun henough => ?_, e, rfl⟩⟩
    obtain ⟨n, r, hr, hactive, hup⟩ := henough.replica hhot
    exact hdown n ((hns n).mpr ⟨r, hr, hactive⟩) hup

/-- Shards of a durable object in tier EC. -/
theorem Durable.finds_shards (ho : Verbatim o) (hlawful : d.ec.Lawful d.cfg.k d.cfg.m) (h : Durable d o v B w)
    (hcold : Cold o v (catalog w.records)) {md : Metadata} (hmd : Striped d o B md)
    (hplacements : ∀ p, p ∈ parseECShardPlacements md ↔ ∃ r,
      (catalog w.records).shard o v p.index = some r ∧ r.status = .active ∧ p = placementOf r)
    (nodes : List GoString) : Finds d.cfg active up w (readEC d nodes md)
      (Gives (Enough d o v up (catalog w.records)) B) := by
  have hB := h.nonempty hlawful hcold
  obtain ⟨ss, hss, -⟩ := hlawful.shards_ok hB
  have hleads : ∀ p ∈ parseECShardPlacements md, Leads w ss p := by
    intro p hp
    obtain ⟨r, hr, hactive, rfl⟩ := (hplacements p).mp hp
    have hplace := h.kept.tidy.placed.shard hr
    obtain ⟨hi, s, hs, hne, hblob⟩ := h.shardBlob hlawful hB hss hr hactive
    have hpath : (placementOf r).path = chunkKey o (placementOf r).index := hplace.path_eq
    refine ⟨hi, ⟨hplace.node_ne_nil, hpath ▸ chunkKey_ne_nil _ _⟩, hpath ▸ verbatimKey_chunkKey ho _,
      s, hs, hne, ?_⟩
    rw [hpath]
    exact hblob
  refine Obeys.mono ?_ (finds_readEC hlawful hB hss hmd hleads nodes)
  rintro out w' ⟨rfl, J, hJ, hout⟩
  have henough : Enough d o v up (catalog w'.records) ↔ d.cfg.k ≤ J.card := by
    refine h.enough_iff hlawful hcold fun i => (hJ i).trans ?_
    constructor
    · rintro ⟨p, hp, hi, hup⟩
      obtain ⟨r, hr, hactive, rfl⟩ := (hplacements p).mp hp
      rw [hi] at hr
      exact ⟨r, hr, hactive, hup⟩
    · rintro ⟨r, hr, hactive, hup⟩
      have hindex : r.shardIndex = i := (h.kept.tidy.rows.named.shard hr).2.2.1
      have hr' : (catalog w'.records).shard o v r.shardIndex = some r := by
        rw [hindex]
        exact hr
      exact ⟨placementOf r, (hplacements _).mpr ⟨r, hr', hactive, rfl⟩, hindex, hup⟩
  refine ⟨rfl, hout.imp ?_ ?_⟩
  · rintro ⟨hcard, rfl⟩
    exact ⟨henough.mpr hcard, rfl⟩
  · rintro ⟨hcard, e, rfl⟩
    exact ⟨fun hall => absurd (henough.mp hall) (Nat.not_le.mpr hcard), e, rfl⟩

/-- `GET` on a durable object while nodes are down. The API knows enough nodes to choose from, although
it reads from those that the metadata name. The object is returned when enough of these are up, and
404 otherwise. -/
theorem durable_get (ho : Verbatim o) (hlawful : d.ec.Lawful d.cfg.k d.cfg.m)
    (h : Durable d o v B w) {nodes : List GoString × List GoString}
    (hselect : selectDynamicNodesForObjectWithLoads d o active d.cfg.hotReplicaCount
      d.cfg.hotWriteQuorum (d.cfg.k + d.cfg.m) = .ok nodes)
    {out : Except GoError Response} {w' : World}
    (hrun : Exec (routed (Partly d.cfg active up)) (getObject d o) w out w') : w' = w ∧
      ((Enough d o v up (catalog w.records) ∧ ∃ ct, out = .ok (.data ct B)) ∨
        (¬ Enough d o v up (catalog w.records) ∧ ∃ fields, out = .ok (.json 404 fields))) := by
  obtain ⟨obj, hobj, hcurrent⟩ := h.rows.head
  obtain ⟨ver, hver, -⟩ := h.rows.version
  have hver' : (catalog w.records).version o obj.currentVersion = some ver := hcurrent ▸ hver
  have hread : ∀ clocks, atomically ((RepoCall.getNormalizedMetadata o).program d.cfg clocks)
      w.records = (.ok (some (normalizedMetadata o obj ver (activeReplicas w.records o
        obj.currentVersion) (if ver.tier = .ec then shardRows w.records o obj.currentVersion
          else []))), w.records) := by
    intro clocks
    refine (atomically_getNormalizedMetadata h.kept.tidy.rows.typed o).trans ?_
    rw [hobj, Option.bind_some, hver']
    rfl
  have hfinds : Finds d.cfg active up w (getObject d o)
      (Serves (Enough d o v up (catalog w.records)) B) := by
    refine finds_getObject ho.toRoutable hselect hread ?_
    rcases h.readable ho.toRoutable hlawful hobj hver' with ⟨hstrategy, hkey⟩ | ⟨hstrategy, -, hstriped⟩
    · have htier : ver.tier ≠ .ec := by
        intro htier
        rw [strategyOf_answer, htier] at hstrategy
        exact absurd hstrategy (by decide)
      have hhot : ¬ Cold o v (catalog w.records) := by
        rintro ⟨ver', hver', hec⟩
        cases hver.symm.trans hver'
        exact htier hec
      refine Or.inl ⟨hstrategy, ?_⟩
      have hns := fun n => @Durable.mem_replicaNodes d w o v B ho.toRoutable h obj hcurrent ver
        (if ver.tier = .ec then shardRows w.records o obj.currentVersion else []) n
      rw [hkey]
      unfold preferMetadataReplicaNodes
      split
      · rename_i hnil
        obtain ⟨n, r, hr, hactive⟩ := h.rows.replica hhot
        have hmem := (hns n).mpr ⟨r, hr, hactive⟩
        rw [hnil] at hmem
        cases hmem
      · exact h.finds_replicas ho hhot hns
    · have htier : ver.tier = .ec := by
        by_contra hne
        rw [strategyOf_answer] at hstrategy
        cases hver : ver.tier with
        | ec => exact hne hver
        | hot =>
          rw [hver] at hstrategy
          exact absurd hstrategy (by decide)
      exact Or.inr ⟨hstrategy, h.finds_shards ho hlawful ⟨ver, hver, htier⟩ hstriped
        (fun p => h.mem_placements ho.toRoutable hcurrent htier) nodes.2⟩
  exact hfinds.state_exec hrun

end Get

/-! Five bytes are in five shards, and the node of the first one is down. -/

def withoutFirst : (c : Call) → World → c.Answer × World
  | .retrieve n k, w =>
    if n ≠ lit "n1" then serveRouted parityDeps.cfg calmWeather (.retrieve n k) w
    else (badRequest, w)
  | c, w => serveRouted parityDeps.cfg calmWeather c w

theorem routed_of_withoutFirst (c : Call) (w : World) (r : c.Answer) (w' : World)
    (h : Answers withoutFirst c w r w') :
    routed (Partly parityDeps.cfg ⟨sixNodes, none⟩ (· ≠ lit "n1")) c w r w' := by
  obtain rfl : (withoutFirst c w).1 = r := congrArg Prod.fst h
  obtain rfl : (withoutFirst c w).2 = w' := congrArg Prod.snd h
  cases c with
  | activeNodes => exact ⟨rfl, rfl⟩
  | retrieve n k =>
    dsimp only [routed, withoutFirst, serveRouted, Partly]
    split
    · split_ifs with hn
      · exact ⟨fun _ => ⟨calmWeather, rfl⟩, fun h => absurd hn h⟩
      · exact ⟨fun h => absurd h hn, fun _ => ⟨trivial, rfl⟩⟩
    · split_ifs <;> exact ⟨trivial, rfl⟩
  | store n k data | delete n k =>
    dsimp only [routed, withoutFirst, serveRouted]
    split
    · exact ⟨calmWeather, rfl⟩
    · exact ⟨trivial, rfl⟩
  | _ => exact ⟨calmWeather, rfl⟩

/-- The migration has come to its end. -/
def coldLife : Life := migratingLife.advanceAll lifeCalmly (List.replicate 15 1)

theorem reaches_coldLife : Pool.Reaches (Lives parityDeps (lit "a") fiveBytes)
    (lifeSteps parityDeps 7) vacantLife coldLife :=
  reaches_migratingLife.advanceAll lifeSteps_calmly _

/-- Whether a job has answered with data. -/
def answersData : Except GoError Response → Bool
  | .ok (.data _ _) => true
  | _ => false

/-- The `GET` restores the object from the shards that are left. -/
theorem first_shard_restored :
    Cold (lit "a") 7 (catalog coldLife.state.1.records) ∧
    ∃ ct, Exec (routed (Partly parityDeps.cfg ⟨sixNodes, none⟩ (· ≠ lit "n1")))
      (getObject parityDeps (lit "a")) coldLife.state.1 (.ok (.data ct fiveBytes))
      coldLife.state.1 := by
  have htier : ((catalog coldLife.state.1.records).version (lit "a") 7).map (·.tier) =
      some .ec := by decide +kernel
  refine ⟨Option.map_eq_some_iff.mp htier, ?_⟩
  obtain ⟨fields, hput⟩ := Life.created_eq (s := coldLife) (i := 0) (by decide +kernel)
  have hdurable := life_durable (d := parityDeps) verbatim_letter.1 (by decide)
    lawful_parity (vacant_empty _) reaches_coldLife hput
  have hrun := Path.mono routed_of_withoutFirst
    (exec_run withoutFirst (getObject parityDeps (lit "a")) coldLife.state.1)
  have hdata : answersData ((getObject parityDeps (lit "a")).run withoutFirst coldLife.state.1).1 =
      true := by decide +kernel
  have hselect : (selectDynamicNodesForObjectWithLoads parityDeps (lit "a") ⟨sixNodes, none⟩
      parityDeps.cfg.hotReplicaCount parityDeps.cfg.hotWriteQuorum
      (parityDeps.cfg.k + parityDeps.cfg.m)).toBool = true := by decide +kernel
  revert hrun hdata
  generalize (getObject parityDeps (lit "a")).run withoutFirst coldLife.state.1 = result
  intro hrun hdata
  cases hnodes : selectDynamicNodesForObjectWithLoads parityDeps (lit "a") ⟨sixNodes, none⟩
      parityDeps.cfg.hotReplicaCount parityDeps.cfg.hotWriteQuorum
      (parityDeps.cfg.k + parityDeps.cfg.m) with
  | error e =>
    rw [hnodes] at hselect
    cases hselect
  | ok nodes =>
    obtain ⟨hsame, ⟨-, ct, hout⟩ | ⟨-, body, hout⟩⟩ := durable_get verbatim_letter.1
      lawful_parity hdurable hnodes hrun
    · rw [hsame, hout] at hrun
      exact ⟨ct, hrun⟩
    · rw [hout] at hdata
      cases hdata

end TieredStore.Cluster
