import TieredStore.Cluster.Tending
import TieredStore.Api.Quorum

/-!
# The life of an object that is stored once

An object is stored by one `PUT`. Workers may migrate, repair and collect it, and clients may read it,
all at the same time as the `PUT` and as any jobs on other objects, with any failures of nodes and of
the repository.

The `PUT` is the only one to know that the version is not committed yet; this is the fact that its
commit uses up (`writing`). `life_discipline` is the interference rule over all these processes, and
`stored_once` is what follows for every interleaving: a `GET` that answers with data answers with the
bytes of the `PUT`, and from the answer 201 on the version is durable.
-/

namespace TieredStore.Cluster

open Lib Lib.Prog Lib.Bytes Meta Tiering Api

/-! ## The commit -/

section Rows

variable {d : Deps} {o : GoString} {v : Int} {B : Blob} {P : GoString → Prop}
  {blobs : GoString → GoString → Option Blob} {c : Catalog}

/-- The rows of the object while its `PUT` commits. -/
def CommitRows (d : Deps) (o : GoString) (v : Int) (B : Blob)
    (blobs : GoString → GoString → Option Blob) (c : Catalog) : Prop :=
  FreshRows o v B blobs c ∨ (DurableRows d o v B blobs c ∧ ¬ Cold o v c)

/-- A commit whose replicas are there makes the version durable. -/
theorem CommitRows.step (hn : c.Named P) (h : CommitRows d o v B blobs c) {md : Metadata}
    (now : Time) (htier : resolveTier md = .hot)
    (hlength : toInt64 (md.get (lit "original_length")) 0 = B.length) (hnodes : upsertNodes md ≠ [])
    (hblobs : ∀ n ∈ upsertNodes md, blobs n (hotPath o v) = some B) :
    DurableRows d o v B blobs (c.putAll (upsertRows o v md now (c.head o))) ∧
      ¬ Cold o v (c.putAll (upsertRows o v md now (c.head o))) := by
  rw [putAll_upsertRows fun r hr => (hn.head hr).1]
  have hhot : (upsertVersion o v md now).tier ≠ .ec := by
    change resolveTier md ≠ .ec
    rw [htier]
    decide
  have hcold : ∀ {head replica shard}, ¬ Cold o v ⟨head, fun o' v' => if o' = o ∧ v' = v then
      some (upsertVersion o v md now) else c.version o' v', replica, shard⟩ := by
    rintro head replica shard ⟨ver, hver, hec⟩
    dsimp only at hver
    rw [if_pos ⟨rfl, rfl⟩] at hver
    cases hver
    exact hhot hec
  have hreplica : ∀ n r, c.replica o v n = some r → r.status = .active →
      blobs n (hotPath o v) = some B := by
    rcases h with h | ⟨h, hnot⟩
    · exact h.replicaBlob
    · exact h.replicaBlob hnot
  have honly : ∀ v', v' ≠ v → c.version o v' = none := by
    rcases h with h | ⟨h, -⟩
    · exact fun v' _ => h.version v'
    · exact h.only
  have hshard : ∀ i r, c.shard o v i = some r → r.status = .active →
      blobs r.nodeID (chunkKey o i) ≠ none := by
    rcases h with h | ⟨h, -⟩
    · intro i r hr
      cases hr.symm.trans (h.shard i)
    · exact h.shardBlob
  refine ⟨⟨⟨_, if_pos rfl, rfl⟩, ⟨_, if_pos ⟨rfl, rfl⟩, hlength, fun hec => absurd hec hhot⟩, ?_,
    fun _ => ?_, fun _ n r hr hactive => ?_, fun hc => absurd hc hcold, hshard⟩, hcold⟩
  · intro v' hv'
    exact (if_neg fun heq => hv' heq.2).trans (honly v' hv')
  · obtain ⟨n, hn⟩ := List.exists_mem_of_ne_nil _ hnodes
    exact ⟨n, _, if_pos ⟨rfl, rfl, hn⟩, rfl⟩
  · dsimp only at hr
    split at hr
    · rename_i heq
      exact hblobs n heq.2.2
    · exact hreplica n r hr hactive

end Rows

/-- The metadata that a `PUT` commits when it knows of its replicas. -/
def Commits (o : GoString) (v : Int) (B : Blob) (t : Set Fact) (md : Metadata) : Prop :=
  ∃ (at' : Time) (ns : List GoString) (extraMeta : Metadata) (isDirty : Bool),
    at'.unixNano = v ∧ ExtraFields extraMeta ∧ ns ≠ [] ∧ (∀ n ∈ ns, Picked n ∧ .replica n ∈ t) ∧
      md = replicationMetadata v (hotPath o v) B.length ns extraMeta isDirty

section Commit

variable {d : Deps} {o : GoString} {v : Int} {B : Blob} {t : Set Fact} {cfg : Config} {w w' : World}
  {md : Metadata}

theorem Commits.own (ho : Routable o) (hv : 0 < v) (h : Commits o v B t md) :
    Own o (.repo (.upsertNormalizedMetadata o md)) := by
  obtain ⟨at', ns, extraMeta, isDirty, rfl, hextra, -, hns, rfl⟩ := h
  rw [← replicaBlobKey_nil ho hv]
  exact own_commit ho hv (fun n hn => (hns n hn).1) hextra isDirty

/-- What the commit does to the rows. -/
theorem Commits.makes (hv : 0 < v) (h : Commits o v B t md)
    (hblob : ∀ n, .replica n ∈ t → w.blobs n (hotPath o v) = some B) {P : GoString → Prop}
    {clock now : Time} {c c' : Catalog} (hn : c.Named P)
    (hc : CommitRows d o v B w.blobs c)
    (hm : Makes (.upsert o (resolveVersion md clock) md now) c c') :
    DurableRows d o v B w.blobs c' ∧ ¬ Cold o v c' := by
  obtain ⟨at', ns, extraMeta, isDirty, rfl, hextra, hne, hns, rfl⟩ := h
  rw [resolveVersion_replication hextra hv (inInt64_unixNano at')] at hm
  have hnodes : upsertNodes (replicationMetadata at'.unixNano (hotPath o at'.unixNano) B.length ns
      extraMeta isDirty) = ns := by
    unfold upsertNodes
    rw [resolveTier_replication hextra, if_pos rfl, replicaNodes_replication hextra]
    exact List.filter_eq_self.mpr fun n hn => decide_eq_true (hns n hn).1.ne_nil
  cases hm
  refine hc.step hn now (resolveTier_replication hextra) (length_replication hextra) ?_ ?_
  · rw [hnodes]
    exact hne
  · intro n hn
    rw [hnodes] at hn
    exact hblob n (hns n hn).2

/-- The other facts stay, and a commit that succeeds makes the version durable. -/
theorem Kept.commit (ho : Routable o) (hv : 0 < v) (h : Kept d o v B w)
    (ht : ∀ f ∈ t, f.Holds d o v B w) (hfresh : .fresh ∈ t) (hc : Commits o v B t md)
    {r : Except GoError Unit}
    (hstep : Faulty cfg (.repo (.upsertNormalizedMetadata o md)) w r w') :
    Kept d o v B w' ∧ (∀ f : Fact, f ≠ .fresh → f.Holds d o v B w → f.Holds d o v B w') ∧
      (r = .ok () → Fact.committed.Holds d o v B w') := by
  have htidy := Own.tidy ho (hc.own ho hv) h.tidy hstep
  have hrows : FreshRows o v B w.blobs (catalog w.records) := ht _ hfresh
  obtain ⟨hblobs, -⟩ := hstep.steps
  have hblob : ∀ n, .replica n ∈ t → w.blobs n (hotPath o v) = some B := fun n hn =>
    (ht _ hn).resolve_left hrows.not_cold
  have hmakes : ∀ {clock now : Time} {c c' : Catalog}, c.Named Routable →
      CommitRows d o v B w.blobs c → Makes (.upsert o (resolveVersion md clock) md now) c c' →
      DurableRows d o v B w.blobs c' ∧ ¬ Cold o v c' := fun hn hrows hm =>
    hc.makes hv hblob hn hrows hm
  have hafter : CommitRows d o v B w.blobs (catalog w'.records) := by
    have hnames : (RepoCall.upsertNormalizedMetadata o md).Names Routable := ho
    refine (hstep.kept separated_routable hnames h.tidy.rows (J := CommitRows d o v B w.blobs) ?_
      (Or.inl hrows)).2
    rintro _ ⟨now, clock, rfl⟩ c c' hn hJ hm
    exact Or.inr (hmakes hn hJ hm)
  refine ⟨⟨htidy, ?_, ?_, ?_, ?_⟩, fun f hf hw => ?_, ?_⟩
  · rw [hblobs]
    exact h.bare
  · rw [hblobs]
    exact h.replicaBlobs
  · rw [hblobs]
    exact h.chunkBlobs
  · rw [hblobs]
    exact hafter.elim Or.inr fun hdurable => Or.inl hdurable.1
  · cases f with
    | shard n i =>
      change w'.blobs n _ ≠ none
      rw [hblobs]
      exact hw
    | replica n =>
      refine Or.inr ?_
      rw [hblobs]
      exact hw.resolve_left hrows.not_cold
    | cold => exact absurd hw hrows.not_cold
    | committed => exact absurd hrows hw.not_fresh
    | fresh => exact absurd rfl hf
  · rintro rfl
    rcases hstep.answer with ⟨e, ⟨⟩⟩ | ⟨clocks, hanswer⟩
    have hdone := (upsertNormalizedMetadata_alone separated_routable h.tidy.rows cfg (clocks 0)
      (clocks 1) ho md).step_run (J := fun _ => True) (fun _ _ _ _ _ _ => trivial) h.tidy.rows trivial
    change atomically (upsertNormalizedMetadata cfg (clocks 0) (clocks 1) o md) w.records = _
      at hanswer
    unfold atomically at hanswer
    rw [hanswer] at hdone
    change DurableRows d o v B w'.blobs (catalog w'.records)
    rw [hblobs]
    exact (hmakes h.tidy.rows.named (Or.inl hrows) hdone.1).1

end Commit

/-! ## The `PUT` -/

/-- The clock of the `PUT` reads its version. -/
def ReadsClock (v : Int) : (c : Call) → c.Answer → Prop
  | .now, time => Time.unixNano time = v
  | _, _ => True

/-- What a `PUT` knows after a call. The commit uses up that the version is not committed. -/
def noted (o : GoString) (v : Int) (t : Set Fact) : (c : Call) → c.Answer → Set Fact
  | .repo (.upsertNormalizedMetadata _ _), r =>
    {f | (f ∈ t ∧ f ≠ .fresh) ∨ (f = .committed ∧ r = .ok ())}
  | c, r => t ∪ learned o v c r

/-- The monitor of the `PUT`: it acts on facts like a worker, and commits once. -/
def writing (d : Deps) (o : GoString) (v : Int) (B : Blob) : Monitor Call Call.Answer (Set Fact) where
  allow t c := Tends d o v B t c ∨
    (.fresh ∈ t ∧ ∃ md, c = .repo (.upsertNormalizedMetadata o md) ∧ Commits o v B t md)
  next t c r t' := ReadsClock v c r ∧ Tells d o v B c r ∧ t' = noted o v t c r

/-- A part of the `PUT`. -/
def Writes (d : Deps) (o : GoString) (v : Int) (B : Blob) {α : Type} (t : Set Fact) (p : Job α)
    (R : α → Set Fact → Prop) : Prop :=
  p.Obeys (writing d o v B) (fun out t' => ∀ a, out = .ok a → R a t') t

section Put

variable {d : Deps} {o : GoString} {v : Int} {B : Blob} {t : Set Fact} {α β : Type}
  {R : α → Set Fact → Prop} {R' : β → Set Fact → Prop}

theorem noted_of_tends {c : Call} (h : Tends d o v B t c) (r : c.Answer) :
    noted o v t c r = t ∪ learned o v c r := by
  cases c with
  | repo rc =>
    cases rc with
    | upsertNormalizedMetadata => exact h.elim
    | _ => rfl
  | _ => rfl

theorem fresh_notMem_learned {c : Call} {r : c.Answer} : Fact.fresh ∉ learned o v c r := by
  cases c with
  | store n k data =>
    rintro ⟨-, ⟨-, ⟨⟩⟩ | ⟨i, -, ⟨⟩⟩⟩
  | repo rc =>
    cases rc with
    | getObjectVersionSnapshot o' v' => rintro ⟨⟨⟩, -⟩
    | getObjectAdminView o' => rintro ⟨⟨⟩, -⟩
    | _ => rintro ⟨⟩
  | _ => rintro ⟨⟩

/-- Up to the commit and after it, the `PUT` is a worker. -/
theorem Learns.writes {p : Job α} (h : Learns d o v B t p R) :
    Writes d o v B t p fun a t' => t ⊆ t' ∧ R a t' := by
  refine Obeys.simulate (M := fun t t' => t' = t) ?_ ?_ rfl h
  · rintro t _ c rfl hallow
    refine ⟨Or.inl hallow, ?_⟩
    rintro r _ ⟨-, htells, rfl⟩
    exact ⟨_, ⟨htells, rfl⟩, noted_of_tends hallow r⟩
  · rintro out t' _ rfl ⟨hsub, hR⟩ a ha
    exact ⟨hsub, hR a ha⟩

theorem writes_pure {a : α} (h : R a t) : Writes d o v B t (pure a) R := by
  rintro _ ⟨⟩
  exact h

theorem writes_fail {e : GoError} : Writes d o v B t (.fail e) R := by
  rintro _ ⟨⟩

theorem Writes.bind {p : Job α} {f : α → Job β} (hp : Writes d o v B t p R)
    (hf : ∀ a t', R a t' → Writes d o v B t' (f a) R') : Writes d o v B t (p >>= f) R' :=
  Obeys.bind hp (fun _ _ _ => by rintro _ ⟨⟩) fun a t' h => hf a t' (h a rfl)

theorem Writes.attempt_bind {p : Job α} {f : Except GoError α → Job β} (hp : Writes d o v B t p R)
    (hf : ∀ x t', (∀ a, x = .ok a → R a t') → Writes d o v B t' (f x) R') :
    Writes d o v B t (p.attempt >>= f) R' := Obeys.attempt_bind hp hf

theorem writes_now {f : Time → Job β}
    (hf : ∀ time, Time.unixNano time = v → Writes d o v B t (f time) R') :
    Writes d o v B t (Job.now >>= f) R' := by
  refine ⟨Or.inl trivial, ?_⟩
  rintro time _ ⟨hclock, -, rfl⟩
  have hsame : noted o v t .now time = t := Set.union_empty t
  rw [hsame]
  exact hf time hclock

theorem writes_finalizeMetadata {md : Metadata} (hfresh : .fresh ∈ t) (hc : Commits o v B t md) :
    Writes d o v B t (finalizeMetadata o md) fun _ t' => .committed ∈ t' := by
  unfold finalizeMetadata
  rw [Job.repo_attempt_bind]
  refine ⟨Or.inr ⟨hfresh, md, rfl, hc⟩, ?_⟩
  rintro r _ ⟨-, -, rfl⟩
  obtain e | u := r
  · exact writes_fail
  · exact writes_pure (Or.inr ⟨rfl, rfl⟩)

/-- The replicas that count towards the quorum are on their nodes. -/
theorem learns_awaitQuorum {required : Int} {ns written : List GoString}
    (hwritten : ∀ n ∈ written, .replica n ∈ t) :
    Learns d o v B t (awaitQuorum required (hotPath o v) B ns written) fun out t' =>
      (∀ n ∈ out.1, (n ∈ ns ∨ n ∈ written) ∧ .replica n ∈ t') ∧ ∀ n ∈ out.2, n ∈ ns := by
  induction ns generalizing written t with
  | nil => exact learns_pure ⟨fun n hn => ⟨Or.inr hn, hwritten n hn⟩, by simp⟩
  | cons n rest ih =>
    unfold awaitQuorum
    split_ifs
    · unfold writeSingleHotReplica
      rw [bind_assoc]
      refine learns_store (Or.inl ⟨rfl, rfl⟩) fun reply t₁ hsub hlearned => ?_
      rw [pure_bind]
      have hmore : ∀ n' ∈ (if Api.stored reply then written ++ [n] else written),
          (n' ∈ written ∨ n' = n) ∧ .replica n' ∈ t₁ := by
        intro n' hn'
        split_ifs at hn' with hstored
        · rcases List.mem_append.mp hn' with hn' | hn'
          · exact ⟨Or.inl hn', hsub (hwritten n' hn')⟩
          · rw [List.mem_singleton] at hn'
            subst hn'
            obtain err | ⟨code, body⟩ := reply
            · cases hstored
            · have hcode : code = 200 ∨ code = 204 := by
                simpa [Api.stored, isStoreSuccessStatus] using hstored
              exact ⟨Or.inr rfl, learned_replica hcode hlearned⟩
        · exact ⟨Or.inl hn', hsub (hwritten n' hn')⟩
      refine Obeys.mono ?_ (ih fun n' hn' => (hmore n' hn').2)
      rintro out t₂ ⟨hsub₂, hout⟩
      refine ⟨hsub₂, fun a ha => ⟨fun n' hn' => ?_, fun n' hn' => ?_⟩⟩
      · obtain ⟨hmem, hfact⟩ := (hout a ha).1 n' hn'
        refine ⟨?_, hfact⟩
        rcases hmem with hmem | hmem
        · exact Or.inl (List.mem_cons_of_mem _ hmem)
        · rcases (hmore n' hmem).1 with hmem | rfl
          · exact Or.inr hmem
          · exact Or.inl List.mem_cons_self
      · exact List.mem_cons_of_mem _ ((hout a ha).2 n' hn')
    · exact learns_pure ⟨fun n hn => ⟨Or.inr hn, hwritten n hn⟩, fun n hn => hn⟩

/-- A write that succeeds has committed. -/
theorem writes_writeReplicationAndLate (ho : Routable o) (hv : 0 < v) {nodes : List GoString}
    (hnodes : ∀ n ∈ nodes, Picked n) {extraMeta : Metadata} (hextra : ExtraFields extraMeta)
    (hfresh : .fresh ∈ t) : Writes d o v B t (writeReplicationAndLate d.cfg nodes o B extraMeta)
      fun _ t' => .committed ∈ t' := by
  have hwrite : Writes d o v B t (writeReplication d.cfg nodes o B extraMeta) fun result t' =>
      .committed ∈ t' ∧ result.hotReplicaPath = hotPath o v ∧ result.version = v ∧
        ∀ n ∈ result.late, n ∈ nodes := by
    unfold writeReplication
    split_ifs
    · exact writes_fail
    refine writes_now fun time hclock => ?_
    dsimp only
    rw [hclock, buildHotReplicaPath_routable ho hv, if_neg (hotPath_ne_nil o v)]
    refine Writes.bind (Learns.writes (R := fun arrivals _ => arrivals.Perm nodes) ?_)
      fun arrivals t₁ harrivals => ?_
    · rw [← bind_pure (Job.schedule nodes)]
      exact learns_schedule fun ys t' _ hperm => learns_pure hperm
    obtain ⟨hsub₁, hperm⟩ := harrivals
    have hnone : ∀ n ∈ ([] : List GoString), Fact.replica n ∈ t₁ := by simp
    refine (learns_awaitQuorum hnone).writes.bind fun out t₂ hout => ?_
    obtain ⟨hsub₂, hwritten, hlate⟩ := hout
    obtain ⟨written, late⟩ := out
    dsimp only at hwritten hlate ⊢
    split_ifs with hquorum
    · exact writes_fail
    have hne : written ≠ [] := by
      rintro rfl
      have hpos := resolveHotWriteQuorum_pos d.cfg nodes.length
      rw [List.length_nil] at hquorum
      omega
    have hcommits : ∀ isDirty, Commits o v B t₂
        (replicationMetadata v (hotPath o v) B.length written extraMeta isDirty) := by
      intro isDirty
      refine ⟨time, written, extraMeta, isDirty, hclock, hextra, hne, fun n hn => ?_, rfl⟩
      obtain ⟨hmem, hfact⟩ := hwritten n hn
      exact ⟨hnodes n (hperm.mem_iff.mp (hmem.resolve_right (by simp))), hfact⟩
    refine (writes_finalizeMetadata (hsub₂ (hsub₁ hfresh)) (hcommits _)).bind fun _ t₃ hdone => ?_
    exact writes_pure ⟨hdone, rfl, rfl, fun n hn => hperm.mem_iff.mp (hlate n hn)⟩
  refine hwrite.bind fun result t₁ hresult => ?_
  obtain ⟨hdone, hpath, hversion, hlate⟩ := hresult
  split_ifs
  · rw [hpath, hversion]
    refine (learns_observeLate fun n hn => hnodes n (hlate n hn)).writes.bind fun _ t₂ hsub => ?_
    exact writes_pure (hsub.1 hdone)
  · exact writes_pure hdone

/-- The answer 201 is given after the commit. -/
theorem writes_putObject (ho : Routable o) (hv : 0 < v) {id : GoString} (hid : trimSpace id = o)
    (contentType : GoString) (hfresh : .fresh ∈ t) :
    Writes d o v B t (putObject d id (some B) contentType) fun response t' =>
      ∀ fields, response = .json 201 fields → .committed ∈ t' := by
  unfold putObject
  dsimp only
  rw [hid, if_neg ho.ne_nil]
  refine learns_getDynamicNodes.writes.bind fun nodes t₁ hnodes => ?_
  obtain ⟨hsub, herror, hpicked⟩ := hnodes
  obtain response | ⟨replicaNodes, ecNodes⟩ := nodes
  · obtain ⟨fields, rfl⟩ := herror _ rfl
    exact writes_pure (by rintro _ ⟨⟩)
  have hextra : ExtraFields [(lit "content_type", .str (orOctetStream contentType))] := by
    intro e he
    rw [List.mem_singleton] at he
    rw [he]
  refine (writes_writeReplicationAndLate ho hv (hpicked _ rfl) hextra (hsub hfresh)).attempt_bind
    fun x t₂ hx => ?_
  obtain e | result := x
  · exact writes_pure (by rintro _ ⟨⟩)
  · exact writes_pure fun _ _ => hx result rfl

end Put

/-! ## Every interleaving -/

/-- What a process does: it is the `PUT`, it works on the object or reads it, it works on another
object, or it scans. -/
inductive Care where
  | writer
  | own
  | other (a : GoString)
  | scan

/-- The jobs on the object besides the `PUT`. -/
inductive Cares (d : Deps) (o : GoString) : Job (Option Response) → Prop where
  | get {id : GoString} (name : trimSpace id = o) :
      Cares d o (getObject d id >>= fun r => pure (some r))
  | migrate {task : TaskRecord} (name : task.objectID = o) :
      Cares d o (processReplicationToEC d task >>= fun _ => pure none)
  | repair {task : TaskRecord} (name : task.objectID = o) :
      Cares d o (processReplicationRepair d task >>= fun _ => pure none)
  | collect {task : TaskRecord} (name : task.objectID = o) :
      Cares d o (processReplicationGC task >>= fun _ => pure none)
  | collectOld {task : TaskRecord} (name : task.objectID = o) :
      Cares d o (processOldVersionGC task >>= fun _ => pure none)

/-- The processes that may be started. The state remembers which one is the `PUT`: there is at most
one. -/
inductive Lives (d : Deps) (o : GoString) (B : Blob) (i : Nat) :
    Care → Job (Option Response) → World × Option Nat → World × Option Nat → Prop where
  | write {id : GoString} {w : World} (name : trimSpace id = o) (contentType : GoString) :
      Lives d o B i .writer (putObject d id (some B) contentType >>= fun r => pure (some r))
        (w, none) (w, some i)
  | tend {p : Job (Option Response)} {s : World × Option Nat} (job : Cares d o p) :
      Lives d o B i .own p s s
  | other {a : GoString} {p : Job (Option Response)} {s : World × Option Nat} (id : Verbatim a)
      (apart : Apart a o) (job : Works d a p) : Lives d o B i (.other a) p s s
  | scan {u : Upkeep} {s : World × Option Nat} (names : (RepoCall.upkeep u).Names Routable) :
      Lives d o B i .scan (Job.repo (.upkeep u) >>= fun _ => pure none) s s

/-- How the processes are answered; `v` is what the clock of the `PUT` reads. -/
def lifeSteps (d : Deps) (v : Int) (_ : Nat) (care : Care) (c : Call) (s : World × Option Nat)
    (r : c.Answer) (s' : World × Option Nat) : Prop :=
  Clocked (Whole d.cfg) c s.1 r s'.1 ∧ s'.2 = s.2 ∧ (care = .writer → ReadsClock v c r)

def careMonitor (d : Deps) (o : GoString) (v : Int) (B : Blob) :
    Care → Monitor Call Call.Answer (Set Fact)
  | .writer => writing d o v B
  | .own => tending d o v B
  | .other a => confined (Own a) Sane
  | .scan => confined Scans Sane

/-- What the processes answer in the end. -/
def Ends (B : Blob) : Care → Except GoError (Option Response) → Set Fact → Prop
  | .writer, out, t => ∀ fields, out = .ok (some (.json 201 fields)) → .committed ∈ t
  | .own, out, _ => ∀ ct data, out = .ok (some (.data ct data)) → data = B
  | _, _, _ => True

/-- What the processes know is true; only the `PUT` knows that the version is not committed. -/
def Knows (d : Deps) (o : GoString) (v : Int) (B : Blob) (i : Nat) (care : Care) (t : Set Fact)
    (s : World × Option Nat) : Prop :=
  match care with
  | .writer => s.2 = some i ∧ ∀ f ∈ t, f.Holds d o v B s.1
  | .own => .fresh ∉ t ∧ ∀ f ∈ t, f.Holds d o v B s.1
  | .other a => Verbatim a ∧ Apart a o
  | .scan => True

/-- The object is kept, and it is fresh until there is a `PUT`. -/
structure Alive (d : Deps) (o : GoString) (v : Int) (B : Blob) (s : World × Option Nat) : Prop where
  kept : Kept d o v B s.1
  fresh : s.2 = none → FreshRows o v B s.1.blobs (catalog s.1.records)

abbrev Life := Pool Call Call.Answer GoError (Option Response) Care (World × Option Nat)

section Life

variable {d : Deps} {o : GoString} {v : Int} {B : Blob}

/-- The workers and readers act on facts. -/
theorem Cares.learns (ho : Routable o) (hv : 0 < v) (hlawful : d.ec.Lawful d.cfg.k d.cfg.m)
    {p : Job (Option Response)} (h : Cares d o p) (t : Set Fact) :
    Learns d o v B t p fun r _ => ∀ ct data, r = some (.data ct data) → data = B := by
  cases h with
  | get name =>
    refine (learns_getObject ho hlawful name).bind fun r t' _ hr => learns_pure ?_
    rintro ct data ⟨⟩
    exact hr ct data rfl
  | migrate name =>
    exact (learns_processReplicationToEC ho hv name).bind fun _ _ _ _ =>
      learns_pure (by rintro _ _ ⟨⟩)
  | repair name =>
    exact (learns_processReplicationRepair ho hv hlawful name).bind fun _ _ _ _ =>
      learns_pure (by rintro _ _ ⟨⟩)
  | collect name =>
    exact (learns_processReplicationGC name).bind fun _ _ _ _ => learns_pure (by rintro _ _ ⟨⟩)
  | collectOld name =>
    exact (learns_processOldVersionGC name).bind fun _ _ _ _ => learns_pure (by rintro _ _ ⟨⟩)

theorem verbatim_of_care (ho : Verbatim o) (hv : 0 < v) {i : Nat} {care : Care} {t : Set Fact}
    {c : Call} {s : World × Option Nat} (hknows : Knows d o v B i care t s)
    (hallow : (careMonitor d o v B care).allow t c) : c.Verbatim := by
  cases care with
  | writer =>
    rcases hallow with hallow | ⟨-, md, rfl, -⟩
    · exact Own.verbatim ho (hallow.own ho.toRoutable hv)
    · trivial
  | own => exact Own.verbatim ho (Tends.own ho.toRoutable hv hallow)
  | other a => exact Own.verbatim hknows.1 hallow
  | scan =>
    obtain ⟨u, rfl, -⟩ := hallow
    trivial

/-- The routes make no difference to a process, except for what it reads. -/
theorem lifeSteps_cases (ho : Verbatim o) (hv : 0 < v) {i : Nat} {care : Care} {t : Set Fact}
    {c : Call} {s s' : World × Option Nat} {r : c.Answer} (hknows : Knows d o v B i care t s)
    (hallow : (careMonitor d o v B care).allow t c) (hstep : lifeSteps d v i care c s r s') :
    Whole d.cfg c s.1 r s'.1 ∨ (∃ n k, c = .retrieve n k) ∧ s'.1 = s.1 :=
  routed_cases (fun h => h.1) (verbatim_of_care ho hv hknows hallow) hstep.1.1

/-- A call of any process: the object is kept, and so is every fact, except that the commit of the
`PUT` ends that the version is fresh. -/
theorem Alive.call (ho : Verbatim o) (hv : 0 < v) {i : Nat} {care : Care} {t : Set Fact} {c : Call}
    {s s' : World × Option Nat} {r : c.Answer} (hs : Alive d o v B s)
    (hknows : Knows d o v B i care t s) (hallow : (careMonitor d o v B care).allow t c)
    (hstep : lifeSteps d v i care c s r s') :
    Kept d o v B s'.1 ∧
      (∀ f : Fact, f ≠ .fresh ∨ care ≠ .writer → f.Holds d o v B s.1 → f.Holds d o v B s'.1) := by
  rcases lifeSteps_cases ho hv hknows hallow hstep with hwhole | ⟨-, hsame⟩
  swap
  · rw [hsame]
    exact ⟨hs.kept, fun _ _ hf => hf⟩
  have hall : Endures d o v B s.1 s'.1 → Kept d o v B s'.1 ∧
      (∀ f : Fact, f ≠ .fresh ∨ care ≠ .writer → f.Holds d o v B s.1 → f.Holds d o v B s'.1) :=
    fun h => ⟨h.1, fun f _ => h.2 f⟩
  cases care with
  | writer =>
    rcases hallow with hallow | ⟨hfresh, md, rfl, hcommits⟩
    · exact hall (hs.kept.tend ho.toRoutable hv hknows.2 hallow hwhole)
    · obtain ⟨hkept, hfacts, -⟩ := hs.kept.commit ho.toRoutable hv hknows.2 hfresh hcommits hwhole.1
      exact ⟨hkept, fun f hf => hfacts f (hf.resolve_right (by simp))⟩
  | own => exact hall (hs.kept.tend ho.toRoutable hv hknows.2 hallow hwhole)
  | other a =>
    exact hall (hs.kept.foreign ho.toRoutable hv hknows.1.toRoutable hknows.2 hallow hwhole.1)
  | scan => exact hall (hs.kept.scan hallow hwhole.1)

theorem life_discipline (ho : Verbatim o) (hv : 0 < v) (hlawful : d.ec.Lawful d.cfg.k d.cfg.m) :
    Pool.Discipline (Lives d o B) (lifeSteps d v) (careMonitor d o v B) (Ends B) (Alive d o v B)
      (Knows d o v B) where
  onCall := by
    intro i care t c s r s' hs hknows hallow hstep
    obtain ⟨hkept, hfacts⟩ := hs.call ho hv hknows hallow hstep
    have hcases := lifeSteps_cases ho hv hknows hallow hstep
    obtain ⟨hwhole, hsame, hclock⟩ := hstep
    have hclocked : Clocked (Faulty d.cfg) c s.1 r s'.1 :=
      ⟨routed_mono (fun _ _ _ _ h => h.1) _ _ _ _ hwhole.1, hwhole.2⟩
    have htells := hs.kept.tells ho hlawful hclocked
    have hunion : Tends d o v B t c → (∀ f ∈ t, f.Holds d o v B s.1) →
        ∀ f ∈ t ∪ learned o v c r, f.Holds d o v B s'.1 := by
      intro htends ht f hf
      rcases hcases with hstep | ⟨⟨n, k, rfl⟩, hsame⟩
      · rcases hf with hf | hf
        · exact (hs.kept.tend ho.toRoutable hv ht htends hstep).2 f (ht f hf)
        · exact hs.kept.learned ho.toRoutable htends hstep.1 f hf
      · rw [hsame]
        exact ht f (hf.resolve_right id)
    have hnone : care ≠ .writer → s'.2 = none →
        FreshRows o v B s'.1.blobs (catalog s'.1.records) := fun hcare hn =>
      hfacts .fresh (Or.inr hcare) (hs.fresh (hsame ▸ hn))
    cases care with
    | writer =>
      refine ⟨⟨hkept, fun hn => ?_⟩, noted o v t c r, ⟨hclock rfl, htells, rfl⟩,
        hsame.trans hknows.1, ?_⟩
      · cases hknows.1.symm.trans (hsame.symm.trans hn)
      rcases hallow with htends | ⟨hfresh, md, rfl, hcommits⟩
      · rw [noted_of_tends htends]
        exact hunion htends hknows.2
      · obtain ⟨-, hstay, hdone⟩ := hs.kept.commit ho.toRoutable hv hknows.2 hfresh hcommits
          hclocked.1
        rintro f (⟨hf, hne⟩ | ⟨rfl, hr⟩)
        · exact hstay f hne (hknows.2 f hf)
        · exact hdone hr
    | own =>
      refine ⟨⟨hkept, hnone (by simp)⟩, t ∪ learned o v c r, ⟨htells, rfl⟩, ?_,
        hunion hallow hknows.2⟩
      rintro (hf | hf)
      · exact hknows.1 hf
      · exact fresh_notMem_learned hf
    | other a =>
      exact ⟨⟨hkept, hnone (by simp)⟩, t, ⟨hs.kept.tidy.sane hclocked, rfl⟩, hknows⟩
    | scan => exact ⟨⟨hkept, hnone (by simp)⟩, t, ⟨hs.kept.tidy.sane hclocked, rfl⟩, trivial⟩
  onOtherCall := by
    intro i care t c s r s' j care' t' hs hknows hallow hstep hij hother
    obtain ⟨hkept, hfacts⟩ := hs.call ho hv hknows hallow hstep
    have hsame := hstep.2.1
    cases care' with
    | writer =>
      refine ⟨hsame.trans hother.1, fun f hf => hfacts f (Or.inr ?_) (hother.2 f hf)⟩
      -- two processes cannot both be the `PUT`
      rintro rfl
      exact hij (Option.some.inj (hother.1.symm.trans hknows.1))
    | own =>
      refine ⟨hother.1, fun f hf => hfacts f (Or.inl ?_) (hother.2 f hf)⟩
      rintro rfl
      exact hother.1 hf
    | other a => exact hother
    | scan => trivial
  onStart := by
    intro i care p s s' hs hstart
    cases hstart with
    | @write id w name contentType =>
      refine ⟨⟨hs.kept, by rintro ⟨⟩⟩, {.fresh}, ?_, rfl, ?_⟩
      · have hwrites : Writes d o v B {.fresh} (putObject d id (some B) contentType >>= fun r =>
            pure (some r)) fun a t' => ∀ fields, a = some (.json 201 fields) → .committed ∈ t' := by
          refine (writes_putObject ho.toRoutable hv name contentType (Set.mem_singleton _)).bind
            fun r t' hr => writes_pure ?_
          rintro fields ⟨⟩
          exact hr fields rfl
        refine Obeys.mono (fun out t' hout fields heq => ?_) hwrites
        exact hout _ heq fields rfl
      · rintro f rfl
        exact hs.fresh rfl
    | tend job =>
      refine ⟨hs, ∅, Obeys.mono ?_ (job.learns ho.toRoutable hv hlawful ∅), by simp, by simp⟩
      rintro out t' ⟨-, hout⟩ ct data rfl
      exact hout _ rfl ct data rfl
    | other id apart job => exact ⟨hs, ∅, (job.own id.toRoutable).obeys _, id, apart⟩
    | @scan u _ names =>
      refine ⟨hs, ∅, Within.obeys (Q := fun _ => True) ?_ _, trivial⟩
      exact within_repo ⟨u, rfl, names⟩ fun _ _ => within_pure trivial
  onOtherStart := by
    intro i care p s s' j care' t' hs hstart hij hother
    cases hstart with
    | write name contentType =>
      cases care' with
      | writer => cases hother.1
      | own => exact hother
      | other a => exact hother
      | scan => trivial
    | tend | other | scan => exact hother

/-- A cluster that has never seen the object. -/
structure Vacant (o : GoString) (w : World) : Prop where
  tidy : Tidy w
  head : (catalog w.records).head o = none
  version : ∀ v, (catalog w.records).version o v = none
  replica : ∀ v n, (catalog w.records).replica o v n = none
  shard : ∀ v i, (catalog w.records).shard o v i = none
  bare : ∀ n, w.blobs n o = none
  blobs : ∀ n k, BlobKey o k → w.blobs n k = none

theorem Vacant.alive (hv : 0 < v) {w : World} (h : Vacant o w) : Alive d o v B (w, none) := by
  have hfresh : FreshRows o v B w.blobs (catalog w.records) := by
    refine ⟨h.head, h.version, h.shard v, fun n r hr => ?_⟩
    cases hr.symm.trans (h.replica v n)
  refine ⟨⟨h.tidy, h.bare, fun n data hblob => ?_, fun n i data hblob => ?_, Or.inr hfresh⟩,
    fun _ => hfresh⟩
  · cases hblob.symm.trans (h.blobs n _ (Or.inl ⟨v, hv, rfl⟩))
  · cases hblob.symm.trans (h.blobs n _ (Or.inr ⟨i, rfl⟩))

section Runs

variable {w₀ : World} {s : Life}

/-- A `GET` that answers with data answers with the bytes of the object. -/
theorem life_reads (ho : Verbatim o) (hv : 0 < v) (hlawful : d.ec.Lawful d.cfg.k d.cfg.m)
    (hw₀ : Vacant o w₀)
    (hrun : Pool.Reaches (Lives d o B) (lifeSteps d v) (Pool.idle (w₀, none)) s) {i : Nat}
    {ct : GoString} {data : Blob} (hi : s.procs i = some (.own, .ret (some (.data ct data)))) :
    data = B := by
  obtain ⟨-, hprocs⟩ := (life_discipline ho hv hlawful).reaches
    (Pool.Discipline.governed_idle (hw₀.alive hv)) hrun
  obtain ⟨t, hends, -⟩ := hprocs i _ _ hi
  exact hends ct data rfl

/-- After the answer 201 the version is durable. -/
theorem life_durable (ho : Verbatim o) (hv : 0 < v) (hlawful : d.ec.Lawful d.cfg.k d.cfg.m)
    (hw₀ : Vacant o w₀)
    (hrun : Pool.Reaches (Lives d o B) (lifeSteps d v) (Pool.idle (w₀, none)) s) {i : Nat}
    {fields : Metadata} (hi : s.procs i = some (.writer, .ret (some (.json 201 fields)))) :
    Durable d o v B s.state.1 := by
  obtain ⟨halive, hprocs⟩ := (life_discipline ho hv hlawful).reaches
    (Pool.Discipline.governed_idle (hw₀.alive hv)) hrun
  obtain ⟨t, hends, -, hfacts⟩ := hprocs i _ _ hi
  exact ⟨halive.kept, hfacts _ (hends fields rfl)⟩

end Runs

end Life

/-! Five bytes are stored on the nodes of a healthy cluster, and read while they are migrated. -/

/-- A healthy cluster answers every process. -/
def lifeCalmly (_ : Nat) (_ : Care) (c : Call) (s : World × Option Nat) :
    c.Answer × (World × Option Nat) :=
  ((serveRouted parityDeps.cfg calmWeather c s.1).1,
    (serveRouted parityDeps.cfg calmWeather c s.1).2, s.2)

theorem whole_serve (cfg : Config) (e : Weather) (c : Call) (w : World) :
    Whole cfg c w (serve cfg e c w).1 (serve cfg e c w).2 := by
  refine ⟨Or.inl ⟨e, rfl⟩, ?_⟩
  rintro n k data rfl
  simp only [serve]
  split
  · exact Or.inl rfl
  · exact Or.inr rfl

theorem lifeSteps_calmly (i : Nat) (care : Care) (c : Call) (s : World × Option Nat) :
    lifeSteps parityDeps 7 i care c s (lifeCalmly i care c s).1 (lifeCalmly i care c s).2 := by
  refine ⟨clocked_serveRouted (whole_serve _ calmWeather) c s.1, rfl, fun _ => ?_⟩
  cases c with
  | now => exact show Time.unixNano 7 = 7 by decide
  | _ => trivial

def vacantLife : Life := Pool.idle (World.empty, none)

/-- The `PUT` has answered. -/
def storedLife : Life :=
  Pool.advanceAll lifeCalmly ⟨Function.update vacantLife.procs 0 (some (.writer,
    putObject parityDeps (lit "a") (some fiveBytes) [] >>= fun r => pure (some r))),
    (World.empty, some 0)⟩ (List.replicate 10 0)

/-- A migration starts. -/
def migratingLife : Life :=
  storedLife.spawn 1 .own (processReplicationToEC parityDeps storedTask >>= fun _ => pure none)

/-- The migration and the `GET` take turns. -/
def readLife : Life :=
  (migratingLife.spawn 2 .own (getObject parityDeps (lit "a") >>= fun r =>
    pure (some r))).advanceAll lifeCalmly [1, 1, 2, 1, 1, 2, 1, 1, 2, 1, 1, 1, 2, 1, 1, 2, 2]

/-- Whether a process is the `PUT` and has answered 201. -/
def Life.created (s : Life) (i : Nat) : Bool :=
  match s.procs i with
  | some (.writer, .ret (some (.json 201 _))) => true
  | _ => false

/-- Whether a process on the object has answered with data. -/
def Life.returned (s : Life) (i : Nat) : Bool :=
  match s.procs i with
  | some (.own, .ret (some (.data _ _))) => true
  | _ => false

theorem Life.created_eq {s : Life} {i : Nat} (h : s.created i = true) :
    ∃ fields, s.procs i = some (.writer, .ret (some (.json 201 fields))) := by
  unfold created at h
  split at h
  · rename_i hi
    exact ⟨_, hi⟩
  · cases h

theorem Life.returned_eq {s : Life} {i : Nat} (h : s.returned i = true) :
    ∃ ct data, s.procs i = some (.own, .ret (some (.data ct data))) := by
  unfold returned at h
  split at h
  · rename_i hi
    exact ⟨_, _, hi⟩
  · cases h

theorem vacant_empty (o : GoString) : Vacant o World.empty where
  tidy := tidy_empty
  head := rfl
  version _ := rfl
  replica _ _ := rfl
  shard _ _ := rfl
  bare _ := rfl
  blobs _ _ _ := rfl

theorem storedLife_free {j : Nat} (hj : j ≠ 0) : storedLife.procs j = none := by
  refine (Pool.procs_advanceAll_of_notMem ?_).trans (Function.update_of_ne hj _ _)
  simp [hj]

theorem reaches_migratingLife : Pool.Reaches (Lives parityDeps (lit "a") fiveBytes)
    (lifeSteps parityDeps 7) vacantLife migratingLife := by
  have hput : Pool.Reaches (Lives parityDeps (lit "a") fiveBytes) (lifeSteps parityDeps 7)
      vacantLife storedLife := by
    refine .advanceAll lifeSteps_calmly (.tail .refl (.start rfl ?_)) _
    exact .write (by decide +kernel) []
  exact hput.spawn (storedLife_free (by decide)) (.tend (.migrate rfl))

theorem reaches_readLife : Pool.Reaches (Lives parityDeps (lit "a") fiveBytes)
    (lifeSteps parityDeps 7) vacantLife readLife := by
  have hname : trimSpace (lit "a") = lit "a" := by decide +kernel
  have hfree : migratingLife.procs 2 = none := by
    unfold migratingLife Pool.spawn
    dsimp only
    rw [Function.update_of_ne (by decide)]
    exact storedLife_free (by decide)
  exact (reaches_migratingLife.spawn hfree (.tend (.get hname))).advanceAll lifeSteps_calmly _

end TieredStore.Cluster
