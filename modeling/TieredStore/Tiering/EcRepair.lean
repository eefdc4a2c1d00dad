import TieredStore.Cluster.Transport
import TieredStore.Tiering.HotRepair

/-!
# Repair of shards

The repair of an EC version looks up the ACTIVE shard rows, fetches their blobs, restores all shards
and writes the missing ones to new nodes, each under the key of its index. The rows of the new shards
are committed last, in one batch. A repair that fails therefore leaves the rows alone, and one that
reports success has completed the stripe (`obeys_processECRepair`).

The three index spaces meet in `writeMissing`: the missing indices and the targets are paired in
order, and the keys of different indices differ, so no write undoes another
(`obeys_writeMissing`).

Behind the routes of the nodes this holds for ids without a `%` (`ec_repair_completes`): the keys of
different shards then lead to different files, on every route to the same one (`Shows.step`). With a
`%` the path routes may read a shard of another object (`repair_reads_other_object`).
-/

namespace TieredStore.Tiering

open Lib Lib.Prog Lib.Bytes Meta Cluster

/-! ## Rows of a stripe -/

section Rows

variable {P : GoString → Prop} {s : Store} {o : GoString} {v : Int} {total : Int}

/-- The shard placements in the order in which the repair sees them. -/
def shardPlacements (s : Store) (o : GoString) (v : Int) : List ECShardLocation :=
  ((shardRows s o v).map shardLocation).insertionSort fun a b => a.shardIndex ≤ b.shardIndex

/-- An ACTIVE shard row. -/
def ActiveShard (s : Store) (o : GoString) (v i : Int) (r : ECShardRecord) : Prop :=
  (catalog s).shard o v i = some r ∧ r.status = .active

theorem activeByIndex_eq_some (hP : Separated P) (hs : Rows P s) (ho : P o) {i : Int}
    {loc : ECShardLocation} : activeByIndex total (shardPlacements s o v) i = some loc ↔
      ∃ r, ActiveShard s o v i r ∧ 0 ≤ i ∧ i < total ∧ r.nodeID ≠ [] ∧ r.path ≠ [] ∧
        loc = shardLocation r := by
  have hmem : ∀ loc, loc ∈ (shardPlacements s o v).filter (fun loc => loc.status = .active ∧
      0 ≤ loc.shardIndex ∧ loc.shardIndex < total ∧ loc.nodeID ≠ [] ∧ loc.path ≠ [] ∧
      loc.shardIndex = i) ↔ ∃ r, ActiveShard s o v i r ∧ 0 ≤ i ∧ i < total ∧ r.nodeID ≠ [] ∧
        r.path ≠ [] ∧ loc = shardLocation r := by
    intro loc
    rw [List.mem_filter, shardPlacements, (List.perm_insertionSort _ _).mem_iff, List.mem_map]
    constructor
    · rintro ⟨⟨r, hr, rfl⟩, hloc⟩
      obtain ⟨hactive, hpos, hlt, hnode, hpath, rfl⟩ := of_decide_eq_true hloc
      exact ⟨r, ⟨(mem_shardRows hP hs ho).mp hr, hactive⟩, hpos, hlt, hnode, hpath, rfl⟩
    · rintro ⟨r, ⟨hrow, hactive⟩, hpos, hlt, hnode, hpath, rfl⟩
      obtain ⟨-, -, rfl, -⟩ := hs.named.shard hrow
      exact ⟨⟨r, (mem_shardRows hP hs ho).mpr hrow, rfl⟩,
        decide_eq_true ⟨hactive, hpos, hlt, hnode, hpath, rfl⟩⟩
  unfold activeByIndex
  constructor
  · exact fun h => (hmem loc).mp (List.mem_of_getLast? h)
  · intro h
    -- all rows of one index are one row
    obtain ⟨loc', hlast⟩ := Option.ne_none_iff_exists'.mp fun hnone =>
      List.ne_nil_of_mem ((hmem loc).mpr h) (List.getLast?_eq_none_iff.mp hnone)
    obtain ⟨r, hr, -, -, -, -, rfl⟩ := h
    obtain ⟨r', hr', -, -, -, -, hloc'⟩ := (hmem loc').mp (List.mem_of_getLast? hlast)
    cases hr.1.symm.trans hr'.1
    rw [hlast, hloc']

theorem mem_activeShards (hP : Separated P) (hs : Rows P s) (ho : P o) {r : ECShardRecord} :
    r ∈ activeShards s o v ↔ ActiveShard s o v r.shardIndex r := by
  rw [activeShards, List.mem_filter, mem_shardRows hP hs ho, decide_eq_true_iff]
  rfl

/-- The nodes that ACTIVE shard rows name. -/
def usedNodes (s : Store) (o : GoString) (v : Int) : List GoString :=
  (activeShards s o v).map (·.nodeID)

theorem mem_usedNodes (hP : Separated P) (hs : Rows P s) (ho : P o) {n : GoString} :
    n ∈ usedNodes s o v ↔ ∃ i r, ActiveShard s o v i r ∧ r.nodeID = n := by
  rw [usedNodes, List.mem_map]
  constructor
  · rintro ⟨r, hr, rfl⟩
    exact ⟨_, r, (mem_activeShards hP hs ho).mp hr, rfl⟩
  · rintro ⟨i, r, hr, rfl⟩
    obtain ⟨-, -, rfl, -⟩ := hs.named.shard hr.1
    exact ⟨r, (mem_activeShards hP hs ho).mpr hr, rfl⟩

/-- The indices below `n` without an ACTIVE shard row. -/
def missingShards (s : Store) (o : GoString) (v : Int) (n : Nat) : List Nat :=
  (List.range n).filter fun i => ∀ r ∈ activeShards s o v, r.shardIndex ≠ i

theorem no_activeShard_iff (hP : Separated P) (hs : Rows P s) (ho : P o) {i : Int} :
    (∀ r ∈ activeShards s o v, r.shardIndex ≠ i) ↔ ¬ ∃ r, ActiveShard s o v i r := by
  constructor
  · rintro h ⟨r, hr⟩
    obtain ⟨-, -, hi, -⟩ := hs.named.shard hr.1
    rw [← hi] at hr
    exact h r ((mem_activeShards hP hs ho).mpr hr) hi
  · rintro h r hr hi
    rw [mem_activeShards hP hs ho, hi] at hr
    exact h ⟨r, hr⟩

theorem mem_missingShards (hP : Separated P) (hs : Rows P s) (ho : P o) {n i : Nat} :
    i ∈ missingShards s o v n ↔ i < n ∧ ¬ ∃ r, ActiveShard s o v i r := by
  rw [missingShards, List.mem_filter, List.mem_range, decide_eq_true_iff, no_activeShard_iff hP hs ho]

end Rows

/-! ## The situation -/

/-- The stripe of a current EC version of a nonempty object. Every ACTIVE row names a node and the
standard path, and the blob there is the shard of its index. -/
structure Stripe (d : Deps) (task : TaskRecord) (w : World) (k m : Nat) (B : Blob)
    (ss : List Blob) : Prop where
  lawful : d.ec.Lawful k m
  nonempty : B ≠ []
  shards : d.ec.shards B = some ss
  current : ∃ obj ver, (catalog w.records).head task.objectID = some obj ∧
    obj.currentVersion = task.version ∧
    (catalog w.records).version task.objectID task.version = some ver ∧ ver.tier = .ec ∧
    positiveOr ver.encodingK d.cfg.k = k ∧ positiveOr ver.encodingM d.cfg.m = m
  row : ∀ i r, ActiveShard w.records task.objectID task.version i r → r.nodeID ≠ [] ∧
    r.path = chunkKey task.objectID i ∧ 0 ≤ i ∧
    ∃ s, ss[i.toNat]? = some s ∧ w.blobs r.nodeID r.path = some s

/-- A shard that a run has placed. -/
def Placed (w w' : World) (o : GoString) (v i : Int) (r : ECShardRecord) : Prop :=
  ActiveShard w'.records o v i r ∧ ¬ ∃ r', ActiveShard w.records o v i r'

/-- The stripe is complete, and the rows and blobs of before are as they were. The new shards are on
different nodes, and on unused ones when there are enough of them. -/
structure Completes (o : GoString) (v : Int) (healthy : List GoString) (n : Nat) (ss : List Blob)
    (w w' : World) : Prop where
  every : ∀ i < n, ∃ r, ActiveShard w'.records o v i r ∧ r.path = chunkKey o i ∧
    ∃ s, ss[i]? = some s ∧ w'.blobs r.nodeID r.path = some s
  kept : ∀ i r, ActiveShard w.records o v i r → ActiveShard w'.records o v i r ∧
    w'.blobs r.nodeID r.path = w.blobs r.nodeID r.path
  distinct : ∀ i j r r', Placed w w' o v i r → Placed w w' o v j r' → r.nodeID = r'.nodeID → i = j
  unused : (missingShards w.records o v n).length ≤
      (spareNodes healthy (usedNodes w.records o v)).length →
    ∀ i r, Placed w w' o v i r → r.nodeID ∉ usedNodes w.records o v

section Jobs

variable {d : Deps} {healthy : List GoString} {w : World} {o : GoString}

/-- Calls that store and read blobs of the object's shards only. -/
def OnChunks (o : GoString) : Call → Prop
  | .store _ k _ => ∃ i, k = chunkKey o i
  | .retrieve _ k => ∃ i, k = chunkKey o i
  | .delete _ _ => False
  | _ => True

/-- The job knows the cluster, and requests to nodes may fail. It names shards of the object only. -/
abbrev steady (d : Deps) (healthy : List GoString) (o : GoString) :
    Monitor Call Call.Answer World where
  allow _ c := OnChunks o c
  next w c r w' := Steady d.cfg healthy c w r w'

/-- What is fetched are shards at their places. -/
theorem obeys_fetchShards {ss : List Blob} {requests : List (Nat × ECShardLocation)}
    (hreq : ∀ q ∈ requests, q.2.path = chunkKey o q.1 ∧
      ∃ s, ss[q.1]? = some s ∧ w.blobs q.2.nodeID q.2.path = some s)
    {chunks : List (Option Blob)} (hmatch : Coder.Matches chunks ss) :
    (fetchShards requests chunks).Obeys (steady d healthy o)
      (fun out w' => w' = w ∧ ∀ fetched, out = .ok fetched → Coder.Matches fetched ss) w := by
  induction requests generalizing chunks with
  | nil =>
    refine ⟨rfl, ?_⟩
    rintro _ ⟨⟩
    exact hmatch
  | cons q requests ih =>
    obtain ⟨i, loc⟩ := q
    obtain ⟨hpath, s, hs, hblob⟩ := hreq (i, loc) List.mem_cons_self
    have hrest := fun q hq => hreq q (List.mem_cons_of_mem _ hq)
    simp only [fetchShards, fetchSingleBlob, Job.retrieve_bind]
    refine ⟨⟨i, hpath⟩, fun (reply : Reply) w₁ hstep => ?_⟩
    obtain ⟨hsame, hdata⟩ := Faulty.retrieved hstep
    subst w₁
    dsimp only
    split
    · rename_i data
      cases hblob.symm.trans (hdata data rfl).2
      exact ih hrest (hmatch.set hs)
    · exact ih hrest hmatch

/-- The missing shards are written, each under the key of its index, and nothing else is. -/
theorem obeys_writeMissing {ss : List Blob} {jobs : List (Nat × GoString)}
    (hjobs : ∀ q ∈ jobs, ∃ s, ss[q.1]? = some s) (hnodup : (jobs.map (·.1)).Nodup) :
    (writeMissing o (ss.map some) jobs).Obeys (steady d healthy o)
      (fun out w' => w'.records = w.records ∧ ∀ locs, out = .ok locs →
        locs = jobs.map (fun q => ⟨q.1, q.2, chunkKey o q.1, .active⟩) ∧
        (∀ q ∈ jobs, w'.blobs q.2 (chunkKey o q.1) = ss[q.1]?) ∧
        ∀ n k, (∀ q ∈ jobs, k ≠ chunkKey o q.1) → w'.blobs n k = w.blobs n k) w := by
  induction jobs generalizing w with
  | nil =>
    refine ⟨rfl, ?_⟩
    rintro _ ⟨⟩
    exact ⟨rfl, List.forall_mem_nil _, fun _ _ _ => rfl⟩
  | cons q jobs ih =>
    obtain ⟨i, n⟩ := q
    obtain ⟨s, hs⟩ := hjobs (i, n) List.mem_cons_self
    obtain ⟨hfirst, hnodup⟩ := List.nodup_cons.mp hnodup
    have hkeys : ∀ q ∈ jobs, chunkKey o i ≠ chunkKey o q.1 := by
      rintro q hq heq
      refine hfirst (List.mem_map.mpr ⟨q, hq, ?_⟩)
      exact (Int.ofNat_inj.mp (chunkKey_inj heq).2).symm
    have hpayload : ((ss.map some).getD i none).getD [] = s := by
      simp [List.getD, hs]
    simp only [writeMissing, hpayload, writeSingleBlob, Job.store_bind]
    split
    · exact ⟨rfl, by rintro _ ⟨⟩⟩
    refine ⟨⟨i, rfl⟩, fun (reply : Reply) w₁ hstep => ?_⟩
    have hrecords : w₁.records = w.records := Faulty.records hstep (by rintro _ ⟨⟩)
    have hnext : w₁ = w.put n (chunkKey o i) s →
        (writeMissing o (ss.map some) jobs >>= fun locations =>
          pure (⟨i, n, chunkKey o i, .active⟩ :: locations)).Obeys (steady d healthy o)
        (fun out w' => w'.records = w.records ∧ ∀ locs, out = .ok locs →
          locs = ((i, n) :: jobs).map (fun q => ⟨q.1, q.2, chunkKey o q.1, .active⟩) ∧
          (∀ q ∈ (i, n) :: jobs, w'.blobs q.2 (chunkKey o q.1) = ss[q.1]?) ∧
          ∀ n' k, (∀ q ∈ (i, n) :: jobs, k ≠ chunkKey o q.1) → w'.blobs n' k = w.blobs n' k) w₁ := by
      rintro rfl
      refine (ih (fun q hq => hjobs q (List.mem_cons_of_mem _ hq)) hnodup).bind
        (fun e w₂ h => ⟨h.1, by rintro _ ⟨⟩⟩) ?_
      rintro locations w₂ ⟨hrecords', hlocs⟩
      obtain ⟨rfl, hwritten, hother⟩ := hlocs _ rfl
      refine ⟨hrecords', ?_⟩
      rintro _ ⟨⟩
      refine ⟨rfl, ?_, ?_⟩
      · intro q hq
        rcases List.mem_cons.mp hq with rfl | hq
        · rw [hother n _ hkeys, hs]
          exact if_pos ⟨rfl, rfl⟩
        · exact hwritten q hq
      · intro n' k hk
        rw [hother n' k fun q hq => hk q (List.mem_cons_of_mem _ hq)]
        exact if_neg fun h => hk (i, n) List.mem_cons_self h.2
    dsimp only
    split
    · exact ⟨hrecords, by rintro _ ⟨⟩⟩
    · exact hnext (Faulty.stored hstep rfl (Or.inl rfl)).2
    · exact hnext (Faulty.stored hstep rfl (Or.inr rfl)).2
    · exact ⟨hrecords, by rintro _ ⟨⟩⟩

end Jobs

/-! ## The commit -/

section Commit

variable {P : GoString → Prop} {d : Deps} {task : TaskRecord} {healthy : List GoString}
  {w w₁ w' : World} {k m : Nat} {B : Blob} {ss : List Blob}

/-- The rows of the new shards. -/
def newLocations (o : GoString) (jobs : List (Nat × GoString)) : List ECShardLocation :=
  jobs.map fun q => ⟨q.1, q.2, chunkKey o q.1, .active⟩

theorem lastAt_newLocations {o : GoString} {jobs : List (Nat × GoString)}
    (hnodup : (jobs.map (·.1)).Nodup) {q : Nat × GoString} (hq : q ∈ jobs) :
    lastAt (newLocations o jobs) q.1 = some ⟨q.1, q.2, chunkKey o q.1, .active⟩ := by
  refine @lastAt_of_nodup (newLocations o jobs) ?_ _ (List.mem_map.mpr ⟨q, hq, rfl⟩)
  rw [newLocations, List.map_map]
  have hindex := hnodup.map (Nat.cast_injective (R := Int))
  rwa [List.map_map] at hindex

theorem lastAt_newLocations_none {o : GoString} {jobs : List (Nat × GoString)} {i : Int}
    (h : ∀ q ∈ jobs, (q.1 : Int) ≠ i) : lastAt (newLocations o jobs) i = none := by
  cases hlast : lastAt (newLocations o jobs) i with
  | none => rfl
  | some loc =>
    obtain ⟨hmem, hindex⟩ := lastAt_mem hlast
    obtain ⟨q, hq, rfl⟩ := List.mem_map.mp hmem
    exact absurd hindex (h q hq)

/-- A commit of new shards makes its change or none. -/
theorem done_promote (hP : Separated P) {s s' : Store} (hs : Rows P s) {o : GoString} {v : Int}
    {now : Time} {checksum : GoString} {k m : Int} {locs : List ECShardLocation}
    {out : Except GoError Unit}
    (h : atomically (promoteObjectVersionToEC now o v checksum k m locs) s = (out, s')) :
    Done (.promote now o v checksum k m locs) s out s' := by
  have hrun := (promoteObjectVersionToEC_alone hP hs now o v checksum k m locs).step_run
    (J := fun _ => True) (fun _ _ _ _ _ _ => trivial) hs trivial
  rw [show (promoteObjectVersionToEC now o v checksum k m locs).run kvHandler s =
    (out, s') from h] at hrun
  exact hrun.1

/-- The shard rows after the commit. -/
theorem shard_after_promote (hP : Separated P) {s s' : Store} (hs : Rows P s) {o : GoString}
    {v : Int} {now : Time} {checksum : GoString} {k m : Int} {locs : List ECShardLocation}
    (h : atomically (promoteObjectVersionToEC now o v checksum k m locs) s = (.ok (), s'))
    (i : Int) : (catalog s').shard o v i =
      ((lastAt locs i).map (shardRow o v)).or ((catalog s).shard o v i) := by
  have hmakes : Makes (.promote now o v checksum k m locs) (catalog s) (catalog s') :=
    done_promote hP hs h
  generalize catalog s' = c' at hmakes
  cases hmakes with
  | promote now checksum k m hlocs hhead hcurrent hversion =>
    obtain ⟨hid, -⟩ := hs.named.head hhead
    obtain ⟨hid', hv, -⟩ := hs.named.version hversion
    rw [putAll_promoteBatch hid hid' hv]
    exact if_pos ⟨rfl, rfl⟩

/-- Writes under the keys of the missing indices and a commit of their rows complete the stripe. -/
theorem completes_of_commit (hP : Separated P) (hs : Rows P w.records) (ho : P task.objectID)
    (hstripe : Stripe d task w k m B ss) {jobs : List (Nat × GoString)}
    (hindices : jobs.map (·.1) = missingShards w.records task.objectID task.version (k + m))
    (hnodes : (jobs.map (·.2)).Nodup)
    (hfresh : (missingShards w.records task.objectID task.version (k + m)).length ≤
        (spareNodes healthy (usedNodes w.records task.objectID task.version)).length →
      ∀ q ∈ jobs, q.2 ∉ usedNodes w.records task.objectID task.version)
    (hwritten : ∀ q ∈ jobs, w'.blobs q.2 (chunkKey task.objectID q.1) = ss[q.1]?)
    (hother : ∀ n key, (∀ q ∈ jobs, key ≠ chunkKey task.objectID q.1) →
      w'.blobs n key = w.blobs n key) {now : Time} {checksum : GoString} {k' m' : Int}
    (hcommit : atomically (promoteObjectVersionToEC now task.objectID task.version checksum k' m'
      (newLocations task.objectID jobs)) w.records = (.ok (), w'.records)) :
    Completes task.objectID task.version healthy (k + m) ss w w' := by
  have hnodup : (jobs.map (·.1)).Nodup := hindices ▸ List.nodup_range.filter _
  have hmissing : ∀ q ∈ jobs, ¬ ∃ r, ActiveShard w.records task.objectID task.version q.1 r := by
    intro q hq
    have hmem : q.1 ∈ jobs.map (·.1) := List.mem_map.mpr ⟨q, hq, rfl⟩
    rw [hindices, mem_missingShards hP hs ho] at hmem
    exact hmem.2
  have hnew : ∀ q ∈ jobs, ActiveShard w'.records task.objectID task.version q.1
      (shardRow task.objectID task.version ⟨q.1, q.2, chunkKey task.objectID q.1, .active⟩) := by
    intro q hq
    refine ⟨?_, rfl⟩
    rw [shard_after_promote hP hs hcommit, lastAt_newLocations hnodup hq]
    rfl
  have hold : ∀ {i}, (∀ q ∈ jobs, (q.1 : Int) ≠ i) → ∀ r,
      ActiveShard w'.records task.objectID task.version i r ↔
        ActiveShard w.records task.objectID task.version i r := by
    intro i hi r
    unfold ActiveShard
    rw [shard_after_promote hP hs hcommit, lastAt_newLocations_none hi]
    rfl
  have hkept : ∀ i r, ActiveShard w.records task.objectID task.version i r →
      ActiveShard w'.records task.objectID task.version i r ∧
        w'.blobs r.nodeID r.path = w.blobs r.nodeID r.path := by
    intro i r hr
    have hi : ∀ q ∈ jobs, (q.1 : Int) ≠ i := by
      rintro q hq rfl
      exact hmissing q hq ⟨r, hr⟩
    refine ⟨(hold hi r).mpr hr, hother _ _ fun q hq heq => hi q hq ?_⟩
    rw [(hstripe.row i r hr).2.1] at heq
    exact (chunkKey_inj heq).2.symm
  -- a shard that was placed comes from a job
  have hplaced : ∀ {i r}, Placed w w' task.objectID task.version i r →
      ∃ q ∈ jobs, (q.1 : Int) = i ∧ r.nodeID = q.2 := by
    rintro i r ⟨hr, hnone⟩
    by_cases hi : ∀ q ∈ jobs, (q.1 : Int) ≠ i
    · exact absurd ⟨r, (hold hi r).mp hr⟩ hnone
    · push Not at hi
      obtain ⟨q, hq, rfl⟩ := hi
      cases (hnew q hq).1.symm.trans hr.1
      exact ⟨q, hq, rfl, rfl⟩
  refine ⟨?_, hkept, ?_, ?_⟩
  · intro i hi
    by_cases hactive : ∃ r, ActiveShard w.records task.objectID task.version i r
    · obtain ⟨r, hr⟩ := hactive
      obtain ⟨-, hpath, -, s, hshard, hblob⟩ := hstripe.row i r hr
      obtain ⟨hr', hsame⟩ := hkept i r hr
      exact ⟨r, hr', hpath, s, hshard, hsame.trans hblob⟩
    · have hmem : i ∈ jobs.map (·.1) := by
        rw [hindices, mem_missingShards hP hs ho]
        exact ⟨hi, hactive⟩
      obtain ⟨q, hq, rfl⟩ := List.mem_map.mp hmem
      obtain ⟨ss', hss', hlen, -⟩ := hstripe.lawful.shards_ok hstripe.nonempty
      cases hstripe.shards.symm.trans hss'
      exact ⟨_, hnew q hq, rfl, ss[q.1], List.getElem?_eq_getElem (hlen ▸ hi),
        (hwritten q hq).trans (List.getElem?_eq_getElem _)⟩
  · intro i j r r' hr hr' heq
    obtain ⟨q, hq, rfl, hnode⟩ := hplaced hr
    obtain ⟨q', hq', rfl, hnode'⟩ := hplaced hr'
    rw [List.inj_on_of_nodup_map hnodes hq hq' (hnode.symm.trans (heq.trans hnode'))]
  · intro henough i r hr
    obtain ⟨q, hq, -, hnode⟩ := hplaced hr
    rw [hnode]
    exact hfresh henough q hq

end Commit

/-! ## Runs -/

section Runs

variable {P : GoString → Prop} {d : Deps} {task : TaskRecord} {healthy : List GoString}
  {w w' : World} {k m : Nat} {B : Blob} {ss : List Blob}

theorem completes_of_none_missing (hP : Separated P) (hs : Rows P w.records) (ho : P task.objectID)
    (hstripe : Stripe d task w k m B ss)
    (hnone : missingShards w.records task.objectID task.version (k + m) = []) :
    Completes task.objectID task.version healthy (k + m) ss w w := by
  have hplaced : ∀ {i r}, ¬ Placed w w task.objectID task.version i r := fun h => h.2 ⟨_, h.1⟩
  refine ⟨?_, fun i r hr => ⟨hr, rfl⟩, fun _ _ _ _ h => absurd h hplaced,
    fun _ _ _ h => absurd h hplaced⟩
  intro i hi
  have hactive : ∃ r, ActiveShard w.records task.objectID task.version i r := by
    by_contra hactive
    have hmem := (mem_missingShards hP hs ho).mpr ⟨hi, hactive⟩
    rw [hnone] at hmem
    simp at hmem
  obtain ⟨r, hr⟩ := hactive
  obtain ⟨-, hpath, -, s, hshard, hblob⟩ := hstripe.row i r hr
  exact ⟨r, hr, hpath, s, hshard, hblob⟩

/-- What a repair leaves behind. -/
def RepairEnds (task : TaskRecord) (healthy : List GoString) (n : Nat) (ss : List Blob) (w : World)
    (out : Except GoError Unit) (w' : World) : Prop :=
  (out = .ok () → Completes task.objectID task.version healthy n ss w w') ∧
  ∀ e, out = .error e → w'.records = w.records

theorem repairEnds_error {n : Nat} {e : GoError} (h : w'.records = w.records) :
    RepairEnds task healthy n ss w (.error e) w' := ⟨nofun, fun _ _ => h⟩

theorem Stripe.index_lt (hstripe : Stripe d task w k m B ss) {i : Int} {r : ECShardRecord}
    (hr : ActiveShard w.records task.objectID task.version i r) : 0 ≤ i ∧ i < k + m := by
  obtain ⟨-, -, hpos, s, hs', -⟩ := hstripe.row i r hr
  obtain ⟨ss', hss', hlen, -⟩ := hstripe.lawful.shards_ok hstripe.nonempty
  cases hstripe.shards.symm.trans hss'
  obtain ⟨hlt, -⟩ := List.getElem?_eq_some_iff.mp hs'
  omega

section Stripe

variable (hP : Separated P) (hs : Rows P w.records) (ho : P task.objectID)
  (hstripe : Stripe d task w k m B ss)
include hP hs ho hstripe

/-- The repair finds the ACTIVE rows of the stripe. -/
theorem Stripe.activeByIndex_iff {i : Int} {loc : ECShardLocation} :
    activeByIndex (k + m) (shardPlacements w.records task.objectID task.version) i = some loc ↔
      ∃ r, ActiveShard w.records task.objectID task.version i r ∧ loc = shardLocation r := by
  rw [activeByIndex_eq_some hP hs ho]
  constructor
  · rintro ⟨r, hr, -, -, -, -, rfl⟩
    exact ⟨r, hr, rfl⟩
  · rintro ⟨r, hr, rfl⟩
    obtain ⟨hnode, hpath, -⟩ := hstripe.row i r hr
    obtain ⟨hpos, hlt⟩ := hstripe.index_lt hr
    exact ⟨r, hr, hpos, hlt, hnode, hpath ▸ chunkKey_ne_nil _ _, rfl⟩

theorem Stripe.missing_eq : ((List.range (k + m)).filter fun (i : Nat) =>
    activeByIndex (k + m) (shardPlacements w.records task.objectID task.version) i = none) =
      missingShards w.records task.objectID task.version (k + m) := by
  refine List.filter_congr fun i _ => ?_
  rw [decide_eq_decide, no_activeShard_iff hP hs ho, Option.eq_none_iff_forall_ne_some]
  simp only [ne_eq, Stripe.activeByIndex_iff hP hs ho hstripe]
  push Not
  exact ⟨fun h r hr => h _ r hr rfl, fun h loc r hr => absurd hr (h r)⟩

theorem Stripe.mem_active {q : Nat × ECShardLocation} :
    q ∈ ((List.range (k + m)).filterMap fun (i : Nat) =>
        (activeByIndex (k + m) (shardPlacements w.records task.objectID task.version) i).map
          (i, ·)) ↔
      ∃ r, ActiveShard w.records task.objectID task.version q.1 r ∧ q.2 = shardLocation r := by
  simp only [List.mem_filterMap, List.mem_range, Option.map_eq_some_iff,
    Stripe.activeByIndex_iff hP hs ho hstripe]
  constructor
  · rintro ⟨i, -, loc, ⟨r, hr, rfl⟩, rfl⟩
    exact ⟨r, hr, rfl⟩
  · rintro ⟨r, hr, hloc⟩
    have hlt := hstripe.index_lt hr
    exact ⟨q.1, by omega, q.2, ⟨r, hr, hloc⟩, rfl⟩

theorem Stripe.mem_active_nodes {n : GoString} :
    n ∈ ((List.range (k + m)).filterMap fun (i : Nat) =>
        (activeByIndex (k + m) (shardPlacements w.records task.objectID task.version) i).map
          (i, ·)).map (·.2.nodeID) ↔ n ∈ usedNodes w.records task.objectID task.version := by
  rw [mem_usedNodes hP hs ho, List.mem_map]
  constructor
  · rintro ⟨q, hq, rfl⟩
    obtain ⟨r, hr, hloc⟩ := (Stripe.mem_active hP hs ho hstripe).mp hq
    exact ⟨q.1, r, hr, by rw [hloc]; rfl⟩
  · rintro ⟨i, r, hr, rfl⟩
    obtain ⟨i, rfl⟩ := Int.eq_ofNat_of_zero_le (hstripe.index_lt hr).1
    exact ⟨(i, shardLocation r), (Stripe.mem_active hP hs ho hstripe).mpr ⟨r, hr, rfl⟩, rfl⟩

end Stripe

theorem obeys_repairShards (hP : Separated P) (hs : Rows P w.records) (ho : P task.objectID)
    (hstripe : Stripe d task w k m B ss) (htrim : ∀ n ∈ healthy, trimSpace n = n) :
    (repairShards d task k m (shardPlacements w.records task.objectID task.version)).Obeys
      (steady d healthy task.objectID) (RepairEnds task healthy (k + m) ss w) w := by
  have hk := hstripe.lawful.pos
  obtain ⟨ss', hss', hlen, hne, -⟩ := hstripe.lawful.shards_ok hstripe.nonempty
  cases hstripe.shards.symm.trans hss'
  unfold repairShards
  simp only [show ((k : Int) + m).toNat = k + m by omega, Stripe.missing_eq hP hs ho hstripe]
  rw [if_neg (by omega)]
  split
  · rename_i hnone
    exact ⟨fun _ => completes_of_none_missing hP hs ho hstripe hnone, nofun⟩
  rename_i hmissing
  refine Job.obeys_schedule trivial fun requests order w₁ hperm hstep => ?_
  have hsame := Faulty.scheduled hstep
  subst w₁
  refine (@obeys_fetchShards d healthy w task.objectID ss requests ?_ _ (hlen ▸ Coder.matches_none ss)).bind
    (fun _ _ h => repairEnds_error (h.1 ▸ rfl)) ?_
  · intro q hq
    obtain ⟨r, hr, hloc⟩ := (Stripe.mem_active hP hs ho hstripe).mp (hperm.mem_iff.mp hq)
    obtain ⟨-, hpath, -, s, hshard, hblob⟩ := hstripe.row q.1 r hr
    rw [hloc]
    exact ⟨hpath, s, hshard, hblob⟩
  rintro fetched w₁ ⟨hsame, hmatch⟩
  subst w₁
  split
  · exact repairEnds_error rfl
  rename_i hpresent
  rw [hstripe.lawful.restore hstripe.nonempty hstripe.shards (hmatch fetched rfl) (by omega),
    show wrapped (lit "ec reconstruct failed") (.ok (ss.map some)) = pure (ss.map some) from rfl,
    pure_bind, Job.listHealthyNodeIDs_bind]
  refine ⟨trivial, fun r w₁ hstep => ?_⟩
  obtain ⟨rfl | ⟨e, rfl⟩, hsame⟩ := hstep
  swap
  · exact repairEnds_error (hsame ▸ rfl)
  subst w₁
  dsimp only
  split
  · exact repairEnds_error rfl
  rw [pick_congr fun n => Stripe.mem_active_nodes hP hs ho hstripe]
  split
  · exact repairEnds_error rfl
  rename_i htargets
  have hpos : (0 : Int) < (missingShards w.records task.objectID task.version (k + m)).length :=
    Int.natCast_pos.mpr (List.length_pos_iff.mpr hmissing)
  have hcount := @length_pick d (ecRepairKey task.objectID task.version) healthy
    (usedNodes w.records task.objectID task.version) _ hpos
  have hdistinct := @nodup_pick d (ecRepairKey task.objectID task.version) healthy
    (usedNodes w.records task.objectID task.version) _ htrim hpos
  have hunused := @pick_unused d (ecRepairKey task.objectID task.version) healthy
    (usedNodes w.records task.objectID task.version) _ htrim hpos
  generalize pickRepairTargetNodes d (ecRepairKey task.objectID task.version) healthy
    (usedNodes w.records task.objectID task.version)
    (missingShards w.records task.objectID task.version (k + m)).length = targets at *
  have hfst : ((missingShards w.records task.objectID task.version (k + m)).zip targets).map (·.1) =
    missingShards w.records task.objectID task.version (k + m) := List.map_fst_zip (by omega)
  have hsnd : ((missingShards w.records task.objectID task.version (k + m)).zip targets).map (·.2) =
    targets := List.map_snd_zip (by omega)
  generalize hjobs : (missingShards w.records task.objectID task.version (k + m)).zip targets = jobs
    at *
  refine (@obeys_writeMissing d healthy w task.objectID ss jobs ?_ ?_).bind
    (fun _ _ h => repairEnds_error h.1) ?_
  · intro q hq
    have hmem : q.1 ∈ jobs.map (·.1) := List.mem_map.mpr ⟨q, hq, rfl⟩
    rw [hfst, mem_missingShards hP hs ho] at hmem
    exact ⟨_, List.getElem?_eq_getElem (hlen ▸ hmem.1)⟩
  · rw [hfst]
    exact List.nodup_range.filter _
  rintro locs w₁ ⟨hrecords, hlocs⟩
  obtain ⟨rfl, hwritten, hother⟩ := hlocs locs rfl
  rw [← bind_pure (Job.repo _)]
  refine Job.obeys_repo trivial ?_ ?_
  · intro e w₂ hstep
    refine repairEnds_error ?_
    rcases hstep with ⟨weather, hserve⟩ | ⟨-, hsame⟩
    · obtain ⟨hout, rfl⟩ := Prod.mk.inj hserve
      exact (done_promote hP (hrecords ▸ hs) (Prod.ext hout rfl)).trans hrecords
    · rw [hsame, hrecords]
  · intro _ w₂ hstep
    have hstep := @Steady.repo d.cfg _ _ _ _ healthy hstep
    obtain ⟨hblobs, -⟩ := hstep.steps
    rcases hstep.answer with ⟨e, ⟨⟩⟩ | ⟨clocks, hcommit⟩
    refine ⟨fun _ => ?_, nofun⟩
    refine completes_of_commit hP hs ho hstripe hfst (hsnd ▸ hdistinct) ?_
      (fun q hq => hblobs ▸ hwritten q hq) (fun n key hkey => hblobs ▸ hother n key hkey)
      (hrecords ▸ hcommit)
    intro henough q hq
    exact hunused (by exact_mod_cast henough) (hsnd ▸ List.mem_map.mpr ⟨q, hq, rfl⟩)

theorem obeys_processECRepair (hP : Separated P) (hs : Rows P w.records) (ho : P task.objectID)
    (hstripe : Stripe d task w k m B ss) (htrim : ∀ n ∈ healthy, trimSpace n = n) :
    (processECRepair d task).Obeys (steady d healthy task.objectID)
      (RepairEnds task healthy (k + m) ss w) w := by
  obtain ⟨obj, ver, hhead, hcurrent, hversion, hec, hk, hm⟩ := hstripe.current
  have hview := atomically_getObjectAdminView hs.typed task.objectID
  rw [hhead] at hview
  unfold processECRepair
  refine Job.obeys_repo trivial ?_ ?_
  · intro e w₁ hstep
    have hsame := @Steady.read_error d.cfg w w₁ _ healthy _ e hstep fun _ => hview
    exact repairEnds_error (hsame ▸ rfl)
  · intro view w₁ hstep
    obtain ⟨rfl, rfl⟩ := (@Steady.repo d.cfg _ _ _ _ healthy hstep).read fun _ => hview
    obtain ⟨-, hv, -⟩ := hs.named.version hversion
    simp only [Option.map_some, hcurrent, hversion, hv, hec, ne_eq, not_true_eq_false, or_self,
      if_false, hk, hm]
    exact obeys_repairShards hP hs ho hstripe htrim

end Runs

/-! ## Behind the routes of the nodes -/

/-- The blob that a node holds under a key, and the cluster with its blobs named by keys. -/
def held (w : World) (n k : GoString) : Option Blob := (storePath k).bind (w.blobs n)

def keyed (w : World) : World := { w with blobs := held w }

/-- A cluster whose blobs are named by keys shows the shards of an object as another one has them in
its files. -/
structure Shows (o : GoString) (v w : World) : Prop where
  records : v.records = w.records
  blobs : ∀ n i, v.blobs n (chunkKey o i) = held w n (chunkKey o i)

section Routed

variable {d : Deps} {healthy : List GoString} {o : GoString} {v w w' : World} {n path : GoString}
  {i : Int}

theorem shows_keyed (o : GoString) (w : World) : Shows o (keyed w) w := ⟨rfl, fun _ _ => rfl⟩

theorem Shows.put (h : Shows o v w) (hpath : storePath (chunkKey o i) = some path) (n : GoString)
    (data : Blob) : Shows o (v.put n (chunkKey o i) data) (w.put n path data) := by
  refine ⟨h.records, fun n' j => ?_⟩
  by_cases hj : j = i
  · subst hj
    have hsame := h.blobs n' j
    simp only [held, hpath, Option.bind_some, World.put] at hsame ⊢
    simp [hsame]
  · have hkey : chunkKey o j ≠ chunkKey o i := fun heq => hj (chunkKey_inj heq).2
    have hother := h.blobs n' j
    simp only [held, World.put] at hother ⊢
    rw [if_neg fun heq => hkey heq.2, hother]
    cases hpath' : storePath (chunkKey o j) with
    | none => rfl
    | some path' =>
      have hne : path' ≠ path := fun heq => hj (chunkPath_inj (heq ▸ hpath') hpath)
      simp [hne]

theorem unaddressed_chunk (hpath : storePath (chunkKey o i) = some path) :
    unaddressed n path = unaddressed n (chunkKey o i) := by
  obtain ⟨dir, hdir⟩ := exists_chunkPath o
  have hne : path ≠ [] := by simp [hdir i path hpath, chunkName, lit]
  simp [unaddressed, hne, chunkKey_ne_nil]

/-- A store of a shard, seen by its key. -/
theorem Shows.store (h : Shows o v w) (hpath : storePath (chunkKey o i) = some path) {data : Blob}
    {r : Reply} (hstep : Faulty d.cfg (.store n path data) w r w') :
    ∃ v', Faulty d.cfg (.store n (chunkKey o i) data) v r v' ∧ Shows o v' w' := by
  have haddr := unaddressed_chunk (n := n) hpath
  rcases hstep with ⟨e, hserve⟩ | ⟨hfault, rfl | ⟨hnode, left, rfl⟩⟩
  · simp only [serve, haddr] at hserve
    split at hserve <;> cases hserve <;> rename_i hnode
    · exact ⟨v, Or.inl ⟨e, by simp [serve, hnode]⟩, h⟩
    · exact ⟨_, Or.inl ⟨e, by simp [serve, hnode]⟩, h.put hpath n data⟩
  · exact ⟨v, Or.inr ⟨hfault, Or.inl rfl⟩, h⟩
  · exact ⟨_, Or.inr ⟨hfault, Or.inr ⟨haddr ▸ hnode, left, rfl⟩⟩, h.put hpath n _⟩

/-- A read of a shard, seen by its key. -/
theorem Shows.retrieve (h : Shows o v w) (hpath : storePath (chunkKey o i) = some path) {r : Reply}
    (hstep : Faulty d.cfg (.retrieve n path) w r w') :
    Faulty d.cfg (.retrieve n (chunkKey o i)) v r v ∧ w' = w := by
  have haddr := unaddressed_chunk (n := n) hpath
  have hblob : v.blobs n (chunkKey o i) = w.blobs n path := by
    rw [h.blobs, held, hpath, Option.bind_some]
  refine ⟨?_, hstep.retrieved.1⟩
  rcases hstep with ⟨e, hserve⟩ | ⟨hfault, -⟩
  · refine Or.inl ⟨e, ?_⟩
    obtain rfl : (serve d.cfg e (.retrieve n path) w).1 = r := congrArg Prod.fst hserve
    refine Prod.ext ?_ ?_
    · simp only [serve, haddr, hblob]
      split
      · rfl
      · split <;> rfl
    · simp only [serve]
      split
      · rfl
      · split <;> rfl
  · exact Or.inr ⟨hfault, rfl⟩

/-- Without a `%` in the id, a call behind the routes is a call of the cluster that shows the
shards by their keys. -/
theorem Shows.step (hid : Percent.percent ∉ o) (h : Shows o v w) {c : Call} (hc : OnChunks o c)
    {r : c.Answer} (hstep : routed (Steady d.cfg healthy) c w r w') :
    ∃ v', Steady d.cfg healthy c v r v' ∧ Shows o v' w' := by
  cases c with
  | repo rc =>
    rcases hstep with ⟨e, ⟨⟩⟩ | ⟨herr, rfl⟩
    · refine ⟨{ v with records := (atomically (rc.program d.cfg e.clocks) w.records).2 },
        Or.inl ⟨e, ?_⟩, rfl, h.blobs⟩
      rw [← h.records]
      rfl
    · exact ⟨v, Or.inr ⟨herr, rfl⟩, h⟩
  | listHealthyNodeIDs =>
    obtain ⟨hr, rfl⟩ := hstep
    exact ⟨v, ⟨hr, rfl⟩, h⟩
  | store n k data =>
    obtain ⟨i, rfl⟩ := hc
    dsimp only [routed] at hstep
    split at hstep
    · rename_i path hpath
      exact h.store hpath hstep
    · obtain ⟨hfault, rfl⟩ := hstep
      exact ⟨v, Or.inr ⟨hfault, Or.inl rfl⟩, h⟩
  | retrieve n k =>
    obtain ⟨i, rfl⟩ := hc
    have hkey : Percent.percent ∉ chunkKey o i := by
      have hname : Percent.percent ∉ chunkName i := not_mem_chunkName (by decide) i
      simp [chunkKey_eq, hid, hname]
    dsimp only [routed] at hstep
    rw [paramPath_eq_storePath hkey] at hstep
    split at hstep
    · rename_i path hpath
      obtain ⟨hshown, rfl⟩ := h.retrieve hpath hstep
      exact ⟨v, hshown, h⟩
    · obtain ⟨hfault, rfl⟩ := hstep
      exact ⟨v, Or.inr ⟨hfault, rfl⟩, h⟩
  | delete n k => exact hc.elim
  | activeNodes | schedule | now =>
    rcases hstep with ⟨e, ⟨⟩⟩ | ⟨⟨⟩⟩
    exact ⟨v, Or.inl ⟨e, rfl⟩, h⟩

end Routed

section Runs

variable {P : GoString → Prop} {d : Deps} {task : TaskRecord} {healthy : List GoString}
  {w w' : World} {k m : Nat} {B : Blob} {ss : List Blob}

theorem repairEnds_keyed {v : World} {out : Except GoError Unit}
    (hstripe : Stripe d task (keyed w) k m B ss)
    (hends : RepairEnds task healthy (k + m) ss (keyed w) out v) (hshows : Shows task.objectID v w') :
    RepairEnds task healthy (k + m) ss (keyed w) out (keyed w') := by
  refine ⟨fun hout => ?_, fun e he => hshows.records.symm.trans (hends.2 e he)⟩
  obtain ⟨hevery, hkept, hdistinct, hunused⟩ := hends.1 hout
  have hrows : ∀ {i r}, ActiveShard (keyed w').records task.objectID task.version i r ↔
      ActiveShard v.records task.objectID task.version i r := by
    rw [hshows.records]
    exact Iff.rfl
  have hplaced : ∀ {i r}, Placed (keyed w) (keyed w') task.objectID task.version i r →
      Placed (keyed w) v task.objectID task.version i r := fun h => ⟨hrows.mp h.1, h.2⟩
  refine ⟨fun i hi => ?_, fun i r hr => ?_, fun i j r r' hr hr' =>
    hdistinct i j r r' (hplaced hr) (hplaced hr'), fun henough i r hr =>
    hunused henough i r (hplaced hr)⟩
  · obtain ⟨r, hr, hpath, s, hs, hblob⟩ := hevery i hi
    refine ⟨r, hrows.mpr hr, hpath, s, hs, ?_⟩
    rw [hpath, hshows.blobs] at hblob
    rw [hpath]
    exact hblob
  · obtain ⟨hr', hsame⟩ := hkept i r hr
    obtain ⟨-, hpath, -⟩ := hstripe.row i r hr
    refine ⟨hrows.mpr hr', ?_⟩
    rw [hpath, hshows.blobs] at hsame
    rw [hpath]
    exact hsame

end Runs

/-! ## Stripes without their parity shard -/

/-- A body that does not fill four shards of equal length, and its shards. -/
def fiveBytes : Blob := [1, 2, 3, 4, 5]

def fiveBytesShards : List Blob := [[1, 2], [3, 4], [5, 0], [0, 0], [7, 6]]

/-- An object is stored, and migrated while four nodes are healthy. -/
def migratedIn (w : World) (o : GoString) (body : Blob) : World :=
  ((processReplicationToEC parityDeps (newTask (lit "repl-to-ec") o 7 (lit "REPL_TO_EC") 100 0)).run
    (serve parityDeps.cfg { calmWeather with healthy := sixNodes.take 4 })
    ((Api.writeReplicationAndLate parityDeps.cfg (sixNodes.take 3) o body []).run
      (serve parityDeps.cfg calmWeather) w).2).2

def repairOf (o : GoString) : TaskRecord := newTask (lit "repair") o 7 (lit "REPAIR") 100 0

/-- The first four shards of the object are on the first four nodes. -/
def FourShards (w : World) (o : GoString) : Prop :=
  (catalog w.records).head o = some ⟨o, lit "default", 7, .ecActive, 10, 10⟩ ∧
  ((catalog w.records).version o 7).map (fun ver => (ver.tier,
    positiveOr ver.encodingK parityDeps.cfg.k, positiveOr ver.encodingM parityDeps.cfg.m)) =
      some (.ec, 4, 1) ∧
  activeShards w.records o 7 = (List.range 4).map (fun i =>
    ⟨o, 7, i, sixNodes.getD i [], chunkKey o i, .active⟩) ∧
  ∀ i < 4, held w (sixNodes.getD i []) (chunkKey o i) = fiveBytesShards[i]?

instance (w : World) (o : GoString) : Decidable (FourShards w o) :=
  inferInstanceAs (Decidable (_ ∧ _ ∧ _ ∧ _))

theorem FourShards.stripe {w : World} {o : GoString} (hs : Rows Coherence.SlashFree w.records)
    (ho : Coherence.SlashFree o) (h : FourShards w o) :
    Stripe parityDeps (repairOf o) (keyed w) 4 1 fiveBytes fiveBytesShards where
  lawful := lawful_parity
  nonempty := by decide
  shards := by decide +kernel
  current := by
    obtain ⟨hhead, hversion, -⟩ := h
    obtain ⟨ver, hver, hfields⟩ := Option.map_eq_some_iff.mp hversion
    simp only [Prod.mk.injEq] at hfields
    exact ⟨_, ver, hhead, rfl, hver, hfields.1, hfields.2.1, hfields.2.2⟩
  row := by
    obtain ⟨-, -, hshards, hblobs⟩ := h
    intro i r hr
    obtain ⟨-, -, rfl, -⟩ := hs.named.shard hr.1
    have hmem : r ∈ activeShards w.records o 7 :=
      (mem_activeShards separated_slashFree hs ho).mpr hr
    rw [hshards] at hmem
    obtain ⟨j, hj, rfl⟩ := List.mem_map.mp hmem
    have hj : j < 4 := List.mem_range.mp hj
    have hshard : ∀ j < 4, sixNodes.getD j [] ≠ [] ∧ fiveBytesShards[j]?.isSome := by decide
    obtain ⟨hnode, hsome⟩ := hshard j hj
    obtain ⟨s, hs⟩ := Option.isSome_iff_exists.mp hsome
    exact ⟨hnode, rfl, Int.natCast_nonneg j, s, hs, (hblobs j hj).trans hs⟩

/-- A stripe without its parity shard. -/
def degraded : World := migratedIn World.empty (lit "a") fiveBytes

theorem degraded_stripe : Rows Coherence.SlashFree degraded.records ∧
    Stripe parityDeps (repairOf (lit "a")) (keyed degraded) 4 1 fiveBytes fiveBytesShards := by
  have hrows : Rows Coherence.SlashFree degraded.records :=
    rows_iff_entries.mpr (by decide +kernel)
  exact ⟨hrows, FourShards.stripe hrows (by decide +kernel) (by decide +kernel)⟩

/-- The repair of the stripe with six healthy nodes. -/
def repaired (w : World) (o : GoString) : Except GoError Unit × World :=
  (processECRepair parityDeps (repairOf o)).run (serveRouted parityDeps.cfg calmWeather) w

theorem exec_repaired (w : World) (o : GoString) : Exec (routed (Steady parityDeps.cfg sixNodes))
    (processECRepair parityDeps (repairOf o)) w (repaired w o).1 (repaired w o).2 := by
  refine (exec_run (serveRouted parityDeps.cfg calmWeather) _ _).mono ?_
  intro c w r w' h
  obtain rfl : (serveRouted parityDeps.cfg calmWeather c w).1 = r := congrArg Prod.fst h
  obtain rfl : (serveRouted parityDeps.cfg calmWeather c w).2 = w' := congrArg Prod.snd h
  exact routed_serveRouted (fun c w => steady_of_serve (e := calmWeather) rfl) c w

/-- Two objects: the path routes decode the shard keys of the second one to those of the first. -/
def confused : World :=
  migratedIn (migratedIn World.empty (lit "aA") [6, 7, 8, 9, 10]) (lit "a%41") fiveBytes

end TieredStore.Tiering
