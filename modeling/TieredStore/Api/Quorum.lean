import TieredStore.Api.WriteService
import TieredStore.Meta.ReplicaRows

/-!
# A quorum write does not depend on the order of arrival

Every replica write has an outcome that is fixed beforehand, and the results arrive in any order.
The write then succeeds exactly when enough replicas do (`quorum_write`). It commits the metadata
once, after a quorum of successes and with rows for nodes that succeeded; when the late results have
been observed, the rows are those of all nodes that succeeded.

The part before the commit and the part after it see the arrivals as two halves of one list
(`awaitQuorum_arrivals`), so what they record together is the same however the list is cut.
-/

namespace TieredStore.Api

open Lib Lib.Prog Lib.Bytes Meta Cluster

/-! ## Fixed outcomes -/

/-- The outcome of each replica write, and the time at which the write starts. No write to an empty
node id succeeds. -/
structure Arrivals where
  ok : GoString → Bool
  ok_nil : ok [] = false
  time : Time

/-- A store under a key succeeds or fails as its node does; the repository answers. -/
def arrives (cfg : Config) (a : Arrivals) : (c : Call) → World → c.Answer → World → Prop
  | .store n k data, w, r, w' =>
    Faulty cfg (.store n k data) w r w' ∧ (stored r = true ↔ a.ok n = true ∧ k ≠ [])
  | .now, w, r, w' => r = a.time ∧ w' = w
  | c, w, r, w' => Calm cfg c w r w'

abbrev ApiEvent := Event Call Call.Answer

/-- A replica write that succeeded. -/
def ApiEvent.storesReplica : ApiEvent → Bool
  | ⟨.store _ _ _, r⟩ => stored r
  | _ => false

/-- A commit of metadata. -/
def ApiEvent.commits : ApiEvent → Bool
  | ⟨.repo (.upsertNormalizedMetadata _ _), _⟩ => true
  | _ => false

/-- The events of the writes to the nodes of a list. -/
def StoreEvents (ok : GoString → Bool) : List GoString → List ApiEvent → Prop :=
  List.Forall₂ fun n e => ApiEvent.commits e = false ∧ (ApiEvent.storesReplica e = true ↔ ok n = true)

theorem StoreEvents.commits {ok : GoString → Bool} {ns : List GoString} {es : List ApiEvent}
    (h : StoreEvents ok ns es) : ∀ e ∈ es, ApiEvent.commits e = false := by
  induction h with
  | nil => simp
  | cons hhead _ ih =>
    intro e he
    rcases List.mem_cons.mp he with rfl | he
    · exact hhead.1
    · exact ih e he

theorem StoreEvents.count {ok : GoString → Bool} {ns : List GoString} {es : List ApiEvent}
    (h : StoreEvents ok ns es) : es.countP ApiEvent.storesReplica = (ns.filter ok).length := by
  induction h with
  | nil => rfl
  | @cons n e ns es hhead _ ih =>
    rw [List.countP_cons, List.filter_cons, ih]
    by_cases hn : ok n = true
    · rw [if_pos hn, if_pos (hhead.2.mpr hn), List.length_cons]
    · rw [if_neg hn, if_neg fun he => hn (hhead.2.mp he), add_zero]

/-! ## The loops -/

section Loops

variable {α : Type} {cfg : Config} {a : Arrivals} {w : World} {log : List ApiEvent}

/-- The job knows the world and the log. -/
abbrev observing (cfg : Config) (a : Arrivals) :
    Monitor Call Call.Answer (World × List ApiEvent) :=
  stateMonitor (logged (arrives cfg a)) fun _ => True

/-- One replica write: its outcome, the rows as before and one more event. -/
theorem writeSingleHotReplica_observed {path : GoString} {value : Blob} {n : GoString}
    {f : Bool → Job α} {Q : Except GoError α → World × List ApiEvent → Prop} (hpath : path ≠ [])
    (hf : ∀ w' e, w'.records = w.records → ApiEvent.commits e = false →
      (ApiEvent.storesReplica e = true ↔ a.ok n = true) →
      (f (a.ok n)).Obeys (observing cfg a) Q (w', log ++ [e])) :
    (writeSingleHotReplica n path value >>= f).Obeys (observing cfg a) Q (w, log) := by
  refine ⟨trivial, ?_⟩
  rintro r ⟨w', log'⟩ ⟨⟨hstep, hok⟩, rfl⟩
  have hrecords : w'.records = w.records := hstep.records fun rc hrc => by cases hrc
  rw [and_iff_left hpath] at hok
  have hout : stored r = a.ok n := Bool.eq_iff_iff.mpr hok
  change (f (stored r)).Obeys _ _ _
  rw [hout]
  exact hf w' ⟨.store n path value, r⟩ hrecords rfl hok

theorem now_observed {f : Time → Job α} {Q : Except GoError α → World × List ApiEvent → Prop}
    (hf : (f a.time).Obeys (observing cfg a) Q (w, log ++ [⟨.now, a.time⟩])) :
    (Job.now >>= f).Obeys (observing cfg a) Q (w, log) := by
  refine ⟨trivial, ?_⟩
  rintro r ⟨w', log'⟩ ⟨⟨hr, hw⟩, hlog⟩
  obtain rfl : r = a.time := hr
  obtain rfl : w' = w := hw
  obtain rfl : log' = log ++ [⟨.now, a.time⟩] := hlog
  exact hf

theorem schedule_observed {β : Type} {xs : List β} {f : List β → Job α}
    {Q : Except GoError α → World × List ApiEvent → Prop}
    (hf : ∀ order xs', xs'.Perm xs →
      (f xs').Obeys (observing cfg a) Q (w, log ++ [⟨.schedule xs.length, order⟩])) :
    (Job.schedule xs >>= f).Obeys (observing cfg a) Q (w, log) := by
  refine ⟨trivial, ?_⟩
  rintro order ⟨w', log'⟩ ⟨⟨e, he⟩, hlog⟩
  obtain ⟨rfl, rfl⟩ := Prod.mk.inj he
  obtain rfl : log' = log ++ [⟨.schedule xs.length, e.order xs.length⟩] := hlog
  exact hf _ _ (arrange_perm xs (e.order xs.length))

/-- A repository call, at some clock readings; the job sees its error. -/
theorem repo_observed {c : RepoCall} {f : Except GoError c.Answer → Job α}
    {Q : Except GoError α → World × List ApiEvent → Prop}
    (hf : ∀ clocks r s', atomically (c.program cfg clocks) w.records = (r, s') →
      (f r).Obeys (observing cfg a) Q ({ w with records := s' }, log ++ [⟨.repo c, r⟩])) :
    ((Job.repo c).attempt >>= f).Obeys (observing cfg a) Q (w, log) := by
  rw [Job.repo_attempt_bind]
  refine ⟨trivial, ?_⟩
  rintro r ⟨w', log'⟩ ⟨⟨e, he⟩, rfl⟩
  obtain ⟨rfl, rfl⟩ := Prod.mk.inj he
  exact hf e.clocks _ _ rfl

/-- The loop before the commit takes a first part of the arrivals. -/
theorem awaitQuorum_arrivals {required : Int} {path : GoString} {value : Blob}
    {f : List GoString × List GoString → Job α}
    {Q : Except GoError α → World × List ApiEvent → Prop} {arrivals written : List GoString}
    (hpath : path ≠ [])
    (hf : ∀ w' taken rest es, w'.records = w.records → arrivals = taken ++ rest →
      StoreEvents a.ok taken es →
      (rest = [] ∨ required ≤ (written ++ taken.filter a.ok).length) →
      (f (written ++ taken.filter a.ok, rest)).Obeys (observing cfg a) Q (w', log ++ es)) :
    (awaitQuorum required path value arrivals written >>= f).Obeys (observing cfg a) Q (w, log) := by
  induction arrivals generalizing w log written with
  | nil =>
    have := hf w [] [] [] rfl rfl .nil (Or.inl rfl)
    simpa [awaitQuorum] using this
  | cons n arrivals ih =>
    unfold awaitQuorum
    split
    · rw [bind_assoc]
      refine writeSingleHotReplica_observed hpath fun w' e hrecords hcommits hstores => ih ?_
      intro w'' taken rest es hrecords' harrivals hes hrest
      have hwritten : (if a.ok n = true then written ++ [n] else written) ++ taken.filter a.ok =
          written ++ (n :: taken).filter a.ok := by
        by_cases hn : a.ok n = true <;> simp [hn]
      rw [hwritten] at hrest ⊢
      have := hf w'' (n :: taken) rest (e :: es) (hrecords'.trans hrecords)
        (by rw [harrivals, List.cons_append]) (.cons ⟨hcommits, hstores⟩ hes) hrest
      simpa using this
    · rename_i hquorum
      have := hf w [] (n :: arrivals) [] rfl rfl .nil (Or.inr (by simpa using hquorum))
      simpa using this

theorem lateSuccesses_arrivals {path : GoString} {value : Blob} {f : List GoString → Job α}
    {Q : Except GoError α → World × List ApiEvent → Prop} {late : List GoString}
    (hpath : path ≠ [])
    (hf : ∀ w' es, w'.records = w.records → StoreEvents a.ok late es →
      (f (late.filter a.ok)).Obeys (observing cfg a) Q (w', log ++ es)) :
    (lateSuccesses path value late >>= f).Obeys (observing cfg a) Q (w, log) := by
  induction late generalizing w log f with
  | nil =>
    have := hf w [] rfl .nil
    simpa [lateSuccesses] using this
  | cons n late ih =>
    unfold lateSuccesses
    rw [bind_assoc]
    refine writeSingleHotReplica_observed hpath fun w' e hrecords hcommits hstores => ?_
    rw [bind_assoc]
    refine ih fun w'' es hrecords' hes => ?_
    have hnodes : (if a.ok n = true then n :: late.filter a.ok else late.filter a.ok) =
        (n :: late).filter a.ok := by
      by_cases hn : a.ok n = true <;> simp [hn]
    have := hf w'' (e :: es) (hrecords'.trans hrecords) (.cons ⟨hcommits, hstores⟩ hes)
    rw [pure_bind, hnodes]
    simpa using this

end Loops

/-! ## The rows of a commit -/

section Rows

open TaskCoherence (AnyID)

variable {cfg : Config} {s s' : Store} {o : GoString} {v : Int}

/-- The commit of a write: the version is current and HOT, with rows for its nodes. -/
theorem atomically_upsert_replication (hs : Rows AnyID s) (ho : o ≠ []) (hv : 0 < v)
    (h64 : InInt64 v) {path : GoString} {length : Nat} {nodes : List GoString}
    {extraMeta : Metadata} (hextra : ExtraFields extraMeta) (isDirty : Bool) (clock now : Time) :
    ∃ s', atomically (upsertNormalizedMetadata cfg clock now o
        (replicationMetadata v path length nodes extraMeta isDirty)) s = (.ok (), s') ∧
      AddsRows o v nodes s s' ∧ ∃ snap, (catalog s').snapshot o v = some snap ∧
        snap.currentVersion = v ∧ snap.tier = .hot := by
  obtain ⟨found, hfound, hid⟩ := hs.object_found o
  obtain ⟨ref, href, hdue⟩ := hs.tierDueRef_found o v
  have htier := @resolveTier_replication v path length nodes extraMeta isDirty hextra
  have hnodes := @replicaNodes_replication v path length nodes extraMeta isDirty hextra
  have hversion := @resolveVersion_replication v path length nodes extraMeta isDirty hextra hv h64
    clock
  revert htier hnodes hversion
  generalize replicationMetadata v path length nodes extraMeta isDirty = md
  intro htier hnodes hversion
  have heff := @upsertTxn_effect cfg o v md now s found ref hfound href
  have hkeys : ∀ w ∈ upsertWrites cfg o v md now found ref, ¬ IndexKey w.key →
      w ∈ upsertRows o v md now found := by
    intro w hw hindex
    rcases upsertWrites_cases hw with hw | hw
    · exact hw
    · exact absurd ((@indexWrites_dueUpsert AnyID cfg o v _ _ now ref trivial hdue).keys w hw) hindex
  have hrepl : ∀ w ∈ upsertWrites cfg o v md now found ref, keyFamily w.key = lit "repl" →
      ∃ n ∈ nodes, n ≠ [] ∧ w = Write.set (tiKVReplicaKey o v n)
        (.replica ⟨o, v, n, upsertHotPath o v md, .active⟩) := by
    intro w hw hfam
    have hrow := hkeys w hw fun hindex => hindex.family_ne (by decide) hfam
    rcases upsertRows_cases hrow with rfl | rfl | ⟨-, n, hn, hne, rfl⟩
    · exact absurd hfam (by rw [Write.key_set, keyFamily_object]; decide)
    · exact absurd hfam (by rw [Write.key_set, keyFamily_objectVersion]; decide)
    · exact ⟨n, hnodes ▸ hn, hne, rfl⟩
  have hhead : (s.applyAll (upsertWrites cfg o v md now found ref)).get? (tiKVObjectKey o) =
      some (.object (upsertHead o v (resolveState md) now found)) := by
    refine SortedMap.get?_applyAll_of_written ?_
      ⟨_, List.mem_append_left _ List.mem_cons_self, rfl⟩
    intro w hw hkey
    rw [upsertWrites_head hdue hw (by rw [hkey, keyFamily_object])]
    rfl
  have hver : (s.applyAll (upsertWrites cfg o v md now found ref)).get?
      (tiKVObjectVersionKey o v) = some (.objectVersion (upsertVersion o v md now)) := by
    refine SortedMap.get?_applyAll_of_written ?_
      ⟨_, List.mem_append_left _ (List.mem_cons_of_mem _ List.mem_cons_self), rfl⟩
    intro w hw hkey
    have hfam : keyFamily w.key = lit "objv" := by rw [hkey, keyFamily_objectVersion]
    have hrow := hkeys w hw fun hindex => hindex.family_ne (by decide) hfam
    rcases upsertRows_cases hrow with rfl | rfl | ⟨-, n, -, -, rfl⟩
    · exact absurd hfam (by rw [Write.key_set, keyFamily_object]; decide)
    · rfl
    · exact absurd hfam (by rw [Write.key_set, keyFamily_replica]; decide)
  refine ⟨s.applyAll (upsertWrites cfg o v md now found ref), ?_,
    ⟨hs.applyAll (upsertWrites_rows trivial hid), ?_, ?_⟩, ?_⟩
  · unfold upsertNormalizedMetadata
    rw [if_neg ho, hversion]
    exact atomically_txn heff
  · intro n hn hne
    refine ⟨⟨o, v, n, upsertHotPath o v md, .active⟩, ?_, rfl, rfl, rfl, rfl⟩
    refine SortedMap.get?_applyAll_of_written ?_ ?_
    · intro w hw hkey
      obtain ⟨n', -, -, rfl⟩ := hrepl w hw (by rw [hkey, keyFamily_replica])
      obtain rfl := tiKVReplicaKey_node.mp hkey
      rfl
    · refine ⟨Write.set (tiKVReplicaKey o v n) (.replica ⟨o, v, n, upsertHotPath o v md, .active⟩),
        List.mem_append_left _ (List.mem_append_right _ ?_), rfl⟩
      rw [upsertReplicas_eq, upsertNodes, if_pos htier, hnodes]
      exact List.mem_map.mpr ⟨n, List.mem_filter.mpr ⟨hn, by simpa using hne⟩, rfl⟩
  · intro n hn
    refine SortedMap.get?_applyAll_of_untouched ?_
    intro w hw hkey
    obtain ⟨n', hn', -, rfl⟩ := hrepl w hw (by rw [hkey, keyFamily_replica])
    exact hn (tiKVReplicaKey_node.mp hkey ▸ hn')
  · exact ⟨_, Catalog.snapshot_eq_some.mpr ⟨_, _, catalog_head.mpr hhead, catalog_version.mpr hver,
      rfl⟩, rfl, htier⟩

end Rows

/-! ## The whole write -/

section Write

open TaskCoherence (AnyID)

variable {cfg : Config} {a : Arrivals} {w : World} {o : GoString} {value : Blob}
  {nodes : List GoString} {extraMeta : Metadata}

/-- What a finished write leaves behind. -/
structure Written (cfg : Config) (a : Arrivals) (o : GoString) (nodes : List GoString)
    (w' : World) (log : List ApiEvent) : Prop where
  quorum : resolveHotWriteQuorum cfg nodes.length ≤ (nodes.filter a.ok).length
  commit : ∃ before after metadata,
    log = before ++ ⟨.repo (.upsertNormalizedMetadata o metadata), .ok ()⟩ :: after ∧
    (∀ e ∈ before ++ after, ApiEvent.commits e = false) ∧
    resolveHotWriteQuorum cfg nodes.length ≤ before.countP ApiEvent.storesReplica ∧
    ∀ n ∈ toStringSlice (metadata.get (lit "replica_nodes")), n ∈ nodes ∧ a.ok n = true
  rows : ∀ n, ActiveRow w'.records o a.time.unixNano n ↔ n ∈ nodes ∧ a.ok n = true

theorem resolveHotWriteQuorum_pos (cfg : Config) (n : Int) : 0 < resolveHotWriteQuorum cfg n := by
  unfold resolveHotWriteQuorum
  dsimp only
  split_ifs <;> omega

/-- The late observer adds the rows of the late successes. -/
theorem observeLate_arrivals {late : List GoString} {path : GoString} {v : Int}
    {log : List ApiEvent} (hs : Rows AnyID w.records) {snap : ObjectVersionSnapshot}
    (hsnap : (catalog w.records).snapshot o v = some snap) (hcur : snap.currentVersion = v)
    (htier : snap.tier = .hot) (hpath : path ≠ []) {β : Type} {f : Unit → Job β}
    {Q : Except GoError β → World × List ApiEvent → Prop}
    (hf : ∀ w' es, AddsRows o v (late.filter a.ok) w.records w'.records →
      (∀ e ∈ es, ApiEvent.commits e = false) →
      (f ()).Obeys (observing cfg a) Q (w', log ++ es)) :
    (observeLateHotReplicaWrites late path value o v >>= f).Obeys (observing cfg a) Q (w, log) := by
  unfold observeLateHotReplicaWrites
  rw [bind_assoc]
  refine lateSuccesses_arrivals hpath fun w₁ es hrecords hes => ?_
  split
  · rename_i hnone
    refine hf w₁ es ?_ hes.commits
    rw [hnone, hrecords]
    exact addsRows_nil hs
  · have hs₁ : Rows AnyID w₁.records := hrecords ▸ hs
    rw [bind_assoc]
    refine repo_observed fun clocks r s₁ hrun => ?_
    obtain ⟨rfl, rfl⟩ :=
      Prod.mk.inj ((atomically_getObjectVersionSnapshot hs₁.typed o v).symm.trans hrun)
    rw [hrecords, hsnap]
    dsimp only
    rw [if_neg (by simp [hcur, htier]), bind_assoc]
    refine repo_observed fun clocks r s₂ hrun => ?_
    obtain ⟨s', hs', hadds⟩ := @atomically_upsertReplicaLocations _ o v hs (late.filter a.ok)
    obtain ⟨rfl, rfl⟩ := Prod.mk.inj (hs'.symm.trans hrun)
    rw [pure_bind, List.append_assoc, List.append_assoc]
    refine hf _ _ hadds ?_
    intro e he
    simp only [List.mem_append, List.mem_singleton] at he
    rcases he with he | rfl | rfl
    · exact hes.commits e he
    · rfl
    · rfl

/-- The commit of the metadata. -/
theorem finalizeMetadata_observed {v : Int} {path : GoString} {length : Nat}
    {written : List GoString} {isDirty : Bool} {log : List ApiEvent} (hs : Rows AnyID w.records)
    (ho : o ≠ []) (hextra : ExtraFields extraMeta) (hv : 0 < v) (h64 : InInt64 v) {β : Type}
    {f : Unit → Job β} {Q : Except GoError β → World × List ApiEvent → Prop}
    (hf : ∀ w' snap, AddsRows o v written w.records w'.records →
      (catalog w'.records).snapshot o v = some snap → snap.currentVersion = v → snap.tier = .hot →
      (f ()).Obeys (observing cfg a) Q (w', log ++ [⟨.repo (.upsertNormalizedMetadata o
        (replicationMetadata v path length written extraMeta isDirty)), .ok ()⟩])) :
    (finalizeMetadata o (replicationMetadata v path length written extraMeta isDirty) >>= f).Obeys
      (observing cfg a) Q (w, log) := by
  unfold finalizeMetadata
  rw [bind_assoc]
  refine repo_observed fun clocks r s' hrun => ?_
  obtain ⟨s₁, hs₁, hadds, snap, hsnap, hcur, htier⟩ := @atomically_upsert_replication cfg _ o v hs ho
    hv h64 path length written extraMeta hextra isDirty (clocks 0) (clocks 1)
  obtain ⟨rfl, rfl⟩ := Prod.mk.inj (hs₁.symm.trans hrun)
  exact hf _ snap hadds hsnap hcur htier

/-- The parts before and after the commit make up a whole write, wherever the arrivals are cut. -/
theorem written_of_parts {taken rest : List GoString} {w₁ w₂ : World} {es late log : List ApiEvent}
    {order : Order nodes.length} {path : GoString} {length : Nat} {isDirty : Bool}
    (hextra : ExtraFields extraMeta)
    (hfresh : ∀ n, w.records.get? (tiKVReplicaKey o a.time.unixNano n) = none)
    (hperm : (taken ++ rest).Perm nodes) (hes : StoreEvents a.ok taken es)
    (hquorum : resolveHotWriteQuorum cfg nodes.length ≤ (taken.filter a.ok).length)
    (hadds : AddsRows o a.time.unixNano (taken.filter a.ok) w.records w₁.records)
    (hlate : AddsRows o a.time.unixNano (rest.filter a.ok) w₁.records w₂.records)
    (hcommits : ∀ e ∈ late, ApiEvent.commits e = false)
    (hlog : log = (⟨.now, a.time⟩ :: ⟨.schedule nodes.length, order⟩ :: es) ++
      ⟨.repo (.upsertNormalizedMetadata o (replicationMetadata a.time.unixNano path length
        (taken.filter a.ok) extraMeta isDirty)), .ok ()⟩ :: late) :
    Written cfg a o nodes w₂ log := by
  have hmem : ∀ n, n ∈ taken.filter a.ok ∨ n ∈ rest.filter a.ok ↔ n ∈ nodes ∧ a.ok n = true := by
    intro n
    rw [← List.mem_append, ← List.filter_append, List.mem_filter, hperm.mem_iff]
  refine ⟨?_, ⟨_, _, _, hlog, ?_, ?_, ?_⟩, ?_⟩
  · rw [← (hperm.filter a.ok).length_eq, List.filter_append, List.length_append]
    omega
  · intro e he
    rw [List.mem_append, List.mem_cons, List.mem_cons] at he
    rcases he with (rfl | rfl | he) | he
    · rfl
    · rfl
    · exact hes.commits e he
    · exact hcommits e he
  · rw [List.countP_cons_of_neg Bool.false_ne_true, List.countP_cons_of_neg Bool.false_ne_true,
      hes.count]
    exact hquorum
  · intro n hn
    rw [replicaNodes_replication hextra] at hn
    exact (hmem n).mp (Or.inl hn)
  · intro n
    rw [hadds.active_iff hlate hfresh, hmem]
    rintro hn rfl
    exact absurd ((hmem []).mp hn).2 (by rw [a.ok_nil]; decide)

/-- A write ends with an error and the rows as they were, or it is complete. -/
theorem writeReplicationAndLate_observed (hs : Rows AnyID w.records) (ho : o ≠ [])
    (hextra : ExtraFields extraMeta) (hv : 0 < a.time.unixNano)
    (hfresh : ∀ n, w.records.get? (tiKVReplicaKey o a.time.unixNano n) = none) :
    (writeReplicationAndLate cfg nodes o value extraMeta).Obeys (observing cfg a) (fun out x =>
      match out with
      | .error _ => (nodes.filter a.ok).length < resolveHotWriteQuorum cfg nodes.length ∧
          x.1.records = w.records
      | .ok _ => Written cfg a o nodes x.1 x.2) (w, []) := by
  unfold writeReplicationAndLate writeReplication
  split
  · rename_i hnil
    rw [fail_bind]
    refine ⟨?_, rfl⟩
    rw [hnil]
    exact resolveHotWriteQuorum_pos cfg 0
  · rw [bind_assoc]
    refine now_observed ?_
    dsimp only
    have hpath : (if buildHotReplicaPath o a.time.unixNano = [] then o
        else buildHotReplicaPath o a.time.unixNano) ≠ [] := by
      split
      · exact ho
      · assumption
    rw [bind_assoc]
    refine schedule_observed fun order arrivals hperm => ?_
    rw [bind_assoc]
    refine awaitQuorum_arrivals hpath fun w₁ taken rest es hrecords harrivals hes hrest => ?_
    rw [List.nil_append] at hrest ⊢
    dsimp only
    split
    · -- every result has arrived, and they are too few
      rename_i hfew
      obtain rfl : rest = [] := hrest.resolve_right (not_le.mpr hfew)
      rw [fail_bind]
      refine ⟨?_, hrecords⟩
      rw [List.append_nil] at harrivals
      rw [← (hperm.filter a.ok).length_eq, harrivals]
      exact hfew
    · rename_i hquorum
      rw [not_lt] at hquorum
      rw [bind_assoc]
      refine finalizeMetadata_observed (hrecords ▸ hs) ho hextra hv (inInt64_unixNano a.time) ?_
      intro w₂ snap hadds hsnap hcur htier
      rw [hrecords] at hadds
      rw [pure_bind]
      dsimp only
      split
      · refine observeLate_arrivals hadds.rows hsnap hcur htier hpath fun w₃ late hlate hcommits => ?_
        exact written_of_parts hextra hfresh (harrivals ▸ hperm) hes hquorum hadds hlate hcommits
          (by simp only [List.append_assoc, List.nil_append, List.cons_append]; rfl)
      · rename_i hnone
        obtain rfl : rest = [] := not_not.mp hnone
        exact written_of_parts hextra hfresh (harrivals ▸ hperm) hes hquorum hadds
          (addsRows_nil hadds.rows) (List.forall_mem_nil _) (by simp only [List.nil_append, List.cons_append]; rfl)

/-- A quorum write does not depend on the order in which its results arrive. It succeeds exactly
when a quorum of replica writes does; a failed write leaves the rows alone; a successful one commits
once, after a quorum of successes and naming only nodes that succeeded, and after the late results
the ACTIVE rows of the new version are the nodes that succeeded. -/
theorem quorum_write {out : Except GoError WriteResult} {w' : World} {log : List ApiEvent}
    (hs : Rows AnyID w.records) (ho : o ≠ []) (hextra : ExtraFields extraMeta)
    (hv : 0 < a.time.unixNano)
    (hfresh : ∀ n, w.records.get? (tiKVReplicaKey o a.time.unixNano n) = none)
    (hrun : Exec (logged (arrives cfg a)) (writeReplicationAndLate cfg nodes o value extraMeta)
      (w, []) out (w', log)) :
    ((∃ result, out = .ok result) ↔
      resolveHotWriteQuorum cfg nodes.length ≤ (nodes.filter a.ok).length) ∧
    (∀ e, out = .error e → w'.records = w.records) ∧
    ∀ result, out = .ok result →
      (∃ before after metadata,
        log = before ++ ⟨.repo (.upsertNormalizedMetadata o metadata), .ok ()⟩ :: after ∧
        (∀ e ∈ before ++ after, ApiEvent.commits e = false) ∧
        resolveHotWriteQuorum cfg nodes.length ≤ before.countP ApiEvent.storesReplica ∧
        ∀ n ∈ toStringSlice (metadata.get (lit "replica_nodes")), n ∈ nodes ∧ a.ok n = true) ∧
      ∀ n, ActiveRow w'.records o a.time.unixNano n ↔ n ∈ nodes ∧ a.ok n = true := by
  have hend := (@writeReplicationAndLate_observed cfg a w o value nodes extraMeta hs ho hextra hv
    hfresh).state_exec hrun
  cases out with
  | error e =>
    obtain ⟨hfew, hrecords⟩ := hend
    refine ⟨⟨(by rintro ⟨_, hok⟩; cases hok), fun hquorum => absurd hquorum (not_le.mpr hfew)⟩,
      fun _ _ => hrecords, fun _ hok => by cases hok⟩
  | ok result =>
    have hwritten : Written cfg a o nodes w' log := hend
    exact ⟨⟨fun _ => hwritten.quorum, fun _ => ⟨result, rfl⟩⟩, (fun _ herr => by cases herr),
      fun _ _ => ⟨hwritten.commit, hwritten.rows⟩⟩

/-- Every call has an answer: a store that is to fail loses its request. -/
theorem arrives_total (c : Call) (w : World) : ∃ r w', arrives cfg a c w r w' := by
  cases c with
  | store n k data =>
    by_cases hok : a.ok n = true ∧ k ≠ []
    · have hn : n ≠ [] := by
        rintro rfl
        exact absurd hok.1 (by rw [a.ok_nil]; decide)
      have haddr : ¬ unaddressed n k = true := by simp [unaddressed, hn, hok.2]
      exact ⟨.status 204 [], w.put n k data, .inl ⟨calmWeather, if_neg haddr⟩,
        iff_of_true rfl hok⟩
    · exact ⟨.failed [], w, .inr ⟨trivial, .inl rfl⟩, iff_of_false Bool.false_ne_true hok⟩
  | now => exact ⟨a.time, w, rfl, rfl⟩
  | _ => exact ⟨_, _, calmWeather, rfl⟩

/-- Two of three writes succeed, the one in the middle fails. -/
def twoOfThree : Arrivals := ⟨fun n => n = lit "n1" || n = lit "n3", by decide, 7⟩

def threeNodes : List GoString := [lit "n1", lit "n2", lit "n3"]

theorem quorum_write_two_of_three : ∃ result w' log,
    Exec (logged (arrives {} twoOfThree)) (writeReplicationAndLate {} threeNodes (lit "a") [] [])
      (World.empty, []) (.ok result) (w', log) ∧
    ∀ n, ActiveRow w'.records (lit "a") twoOfThree.time.unixNano n ↔
      n ∈ threeNodes ∧ twoOfThree.ok n = true := by
  obtain ⟨out, ⟨w', log⟩, hrun⟩ := exists_exec (logged_total (@arrives_total {} twoOfThree))
    (writeReplicationAndLate {} threeNodes (lit "a") [] []) (World.empty, [])
  obtain ⟨hiff, -, hok⟩ := quorum_write rows_empty (by decide) (by simp [ExtraFields])
    (by decide) (fun _ => rfl) hrun
  obtain ⟨result, rfl⟩ := hiff.mpr (by decide)
  exact ⟨result, w', log, hrun, (hok result rfl).2⟩

end Write

end TieredStore.Api
