import TieredStore.Meta.Reads
import TieredStore.Meta.Changes
import TieredStore.Meta.TaskCoherence

/-!
# Replica rows of a version

A version has at most one replica row for a node, so the nodes of the ACTIVE rows are distinct
(`nodup_activeNodes`). `UpsertReplicaLocations` writes ACTIVE rows for its nodes and leaves the rows
of all other nodes alone (`atomically_upsertReplicaLocations`). The nodes with ACTIVE rows are then
those of before and the new ones (`AddsRows.activeRow_iff`).
-/

namespace TieredStore.Meta

open Lib
open TaskCoherence (AnyID)

section Rows

variable {s s' : Store} {o : GoString} {v : Int}

/-- An ACTIVE replica row of a version. -/
def ActiveRow (s : Store) (o : GoString) (v : Int) (n : GoString) : Prop :=
  ∃ r, s.get? (tiKVReplicaKey o v n) = some (.replica r) ∧ r.objectID = o ∧ r.version = v ∧
    r.nodeID = n ∧ r.status = .active

theorem tiKVReplicaKey_node {n n' : GoString} :
    tiKVReplicaKey o v n = tiKVReplicaKey o v n' ↔ n = n' :=
  ⟨List.append_cancel_left, congrArg _⟩

/-- The store after replica rows for nodes have been added. -/
structure AddsRows (o : GoString) (v : Int) (nodes : List GoString) (s s' : Store) : Prop where
  rows : Rows AnyID s'
  written : ∀ n ∈ nodes, n ≠ [] → ActiveRow s' o v n
  other : ∀ n, n ∉ nodes → s'.get? (tiKVReplicaKey o v n) = s.get? (tiKVReplicaKey o v n)

/-- The rows of a fresh version are those that were added. -/
theorem AddsRows.active_iff {nodes late : List GoString} {s₁ : Store}
    (h : AddsRows o v nodes s s₁) (h' : AddsRows o v late s₁ s')
    (hfresh : ∀ n, s.get? (tiKVReplicaKey o v n) = none) {n : GoString}
    (hne : n ∈ nodes ∨ n ∈ late → n ≠ []) : ActiveRow s' o v n ↔ n ∈ nodes ∨ n ∈ late := by
  by_cases hlate : n ∈ late
  · exact ⟨fun _ => Or.inr hlate, fun hn => h'.written n hlate (hne hn)⟩
  · have hkept := h'.other n hlate
    by_cases hnode : n ∈ nodes
    · refine ⟨fun _ => Or.inl hnode, fun hn => ?_⟩
      unfold ActiveRow
      rw [hkept]
      exact h.written n hnode (hne hn)
    · refine ⟨?_, fun hn => (hn.elim hnode hlate).elim⟩
      rintro ⟨r, hr, -⟩
      rw [hkept, h.other n hnode, hfresh n] at hr
      cases hr

theorem addsRows_nil (hs : Rows AnyID s) : AddsRows o v [] s s :=
  ⟨hs, fun n hn => by simp at hn, fun _ _ => rfl⟩

theorem atomically_upsertReplicaLocations (hs : Rows AnyID s) (nodes : List GoString) :
    ∃ s', atomically (upsertReplicaLocations o v nodes) s = (.ok (), s') ∧
      AddsRows o v nodes s s' := by
  induction nodes generalizing s with
  | nil => exact ⟨s, rfl, addsRows_nil hs⟩
  | cons n nodes ih =>
    by_cases hn : n = []
    · obtain ⟨s', hrun, hadds⟩ := ih hs
      refine ⟨s', ?_, hadds.rows, ?_, ?_⟩
      · rw [← hrun]
        change atomically (ite _ _ _ >>= fun _ => upsertReplicaLocations o v nodes) s = _
        rw [if_pos hn]
        rfl
      · intro n' hn' hne
        rcases List.mem_cons.mp hn' with rfl | hn'
        · exact absurd hn hne
        · exact hadds.written n' hn' hne
      · intro n' hn'
        exact hadds.other n' fun hmem => hn' (List.mem_cons_of_mem _ hmem)
    · have hrow : RowAt AnyID (tiKVReplicaKey o v n) (.replica ⟨o, v, n,
          if buildHotReplicaPath o v = [] then o else buildHotReplicaPath o v, .active⟩) :=
        ⟨rfl, trivial⟩
      obtain ⟨s', hrun, hadds⟩ := ih (hs.applyAll (writeRows_singleton hrow))
      refine ⟨s', ?_, hadds.rows, ?_, ?_⟩
      · rw [← hrun]
        change atomically (ite _ _ _ >>= fun _ => upsertReplicaLocations o v nodes) s = _
        rw [if_neg hn]
        rfl
      · intro n' hn' hne
        by_cases hmem : n' ∈ nodes
        · exact hadds.written n' hmem hne
        · obtain rfl : n' = n := (List.mem_cons.mp hn').resolve_right hmem
          have hget := hadds.other n' hmem
          rw [SortedMap.applyAll_cons, SortedMap.applyAll_nil, SortedMap.get?_apply,
            Write.key_set, if_pos rfl, Write.value_set] at hget
          exact ⟨_, hget, rfl, rfl, rfl, rfl⟩
      · intro n' hn'
        rw [List.mem_cons, not_or] at hn'
        rw [hadds.other n' hn'.2, SortedMap.applyAll_cons, SortedMap.applyAll_nil,
          SortedMap.get?_apply, Write.key_set,
          if_neg fun hkey => hn'.1 (tiKVReplicaKey_node.mp hkey).symm]

/-- Once rows have been added, the ACTIVE ones are those of before and the new ones. -/
theorem AddsRows.activeRow_iff {nodes : List GoString} (h : AddsRows o v nodes s s')
    (hne : [] ∉ nodes) {n : GoString} : ActiveRow s' o v n ↔ ActiveRow s o v n ∨ n ∈ nodes := by
  by_cases hn : n ∈ nodes
  · exact ⟨fun _ => Or.inr hn, fun _ => h.written n hn fun hnil => hne (hnil ▸ hn)⟩
  · rw [or_iff_left hn, ActiveRow, ActiveRow, h.other n hn]

end Rows

/-! ## The listed rows -/

section Listed

variable {P : GoString → Prop} {s : Store} {o : GoString} {v : Int}

/-- The answer of `ListActiveReplicaLocations`. -/
def listedReplicas (s : Store) (o : GoString) (v : Int) : List ReplicaLocation :=
  ((activeReplicas s o v).map replicaLocation).insertionSort fun a b => ¬ b.nodeID < a.nodeID

/-- The nodes of the listed rows. -/
def activeNodes (s : Store) (o : GoString) (v : Int) : List GoString :=
  (listedReplicas s o v).map (·.nodeID)

theorem activeNodes_perm (s : Store) (o : GoString) (v : Int) :
    (activeNodes s o v).Perm ((activeReplicas s o v).map (·.nodeID)) := by
  have h := (List.perm_insertionSort (fun a b : ReplicaLocation => ¬ b.nodeID < a.nodeID)
    ((activeReplicas s o v).map replicaLocation)).map (·.nodeID)
  rwa [List.map_map] at h

theorem mem_listedReplicas {r : ReplicaLocation} :
    r ∈ listedReplicas s o v ↔ ∃ row ∈ activeReplicas s o v, replicaLocation row = r := by
  rw [listedReplicas, (List.perm_insertionSort _ _).mem_iff, List.mem_map]

theorem mem_activeReplicas (hP : Separated P) (hs : Rows P s) (ho : P o) {r : ReplicaRecord} :
    r ∈ activeReplicas s o v ↔ (catalog s).replica o v r.nodeID = some r ∧ r.status = .active := by
  rw [activeReplicas, List.mem_filter, mem_replicaRows hP hs ho, decide_eq_true_iff]

theorem mem_activeNodes (hP : Separated P) (hs : Rows P s) (ho : P o) {n : GoString} :
    n ∈ activeNodes s o v ↔ ActiveRow s o v n := by
  rw [(activeNodes_perm s o v).mem_iff, List.mem_map]
  constructor
  · rintro ⟨r, hr, rfl⟩
    obtain ⟨hrow, hactive⟩ := (mem_activeReplicas hP hs ho).mp hr
    obtain ⟨hget, hid, hv, -⟩ := catalog_replica.mp hrow
    exact ⟨r, hget, hid, hv, rfl, hactive⟩
  · rintro ⟨r, hget, hid, hv, rfl, hactive⟩
    exact ⟨r, (mem_activeReplicas hP hs ho).mpr
      ⟨catalog_replica.mpr ⟨hget, hid, hv, rfl⟩, hactive⟩, rfl⟩

theorem nodup_activeNodes (hP : Separated P) (hs : Rows P s) (ho : P o) :
    (activeNodes s o v).Nodup := by
  rw [(activeNodes_perm s o v).nodup_iff]
  refine List.Nodup.sublist (List.filter_sublist.map _) ?_
  -- rows of one version on one node have one key
  refine List.pairwise_map.mpr (List.pairwise_filterMap.mpr ?_)
  refine (prefixEntries_sorted s _).imp_of_mem ?_
  rintro ⟨k, x⟩ ⟨k', x'⟩ he he' hlt r hr r' hr' heq
  rw [Value.asReplica_eq_some] at hr hr'
  subst hr hr'
  obtain ⟨hget, hpre⟩ := mem_prefixEntries.mp he
  obtain ⟨hget', hpre'⟩ := mem_prefixEntries.mp he'
  obtain ⟨rfl, hr⟩ := hs _ _ hget
  obtain ⟨rfl, hr'⟩ := hs _ _ hget'
  obtain ⟨hid, hv⟩ := (version_scan_iff hP ho hr).mp hpre
  obtain ⟨hid', hv'⟩ := (version_scan_iff hP ho hr').mp hpre'
  have heq : r.nodeID = r'.nodeID := heq
  rw [← hid, ← hv, ← hid', ← hv', heq] at hlt
  exact lt_irrefl _ hlt

end Listed

/-! ## Marking rows -/

section Marked

variable {P : GoString → Prop} {s : Store} {o : GoString}

/-- After a mark, the ACTIVE rows are old ones on other nodes. -/
theorem atomically_markReplicaLocationsDeleted (hP : Separated P) (hs : Rows P s) (ho : P o)
    (v : Int) (nodes : List GoString) :
    ∃ s', atomically (markReplicaLocationsDeleted o v nodes) s = (.ok (), s') ∧
      ∀ n r, (catalog s').replica o v n = some r → r.status = .active →
        n ∉ nodes ∧ (catalog s).replica o v n = some r := by
  induction nodes generalizing s with
  | nil => exact ⟨s, rfl, fun n r hr _ => ⟨List.not_mem_nil, hr⟩⟩
  | cons n nodes ih =>
    have hread : atomically (getJSON Value.asReplica (tiKVReplicaKey o v n)) s =
        (.ok ((catalog s).replica o v n), s) := by
      rw [← bind_pure (getJSON _ _), atomically_getJSON (hs.get_replica hP ho v n) fun _ => rfl]
      rfl
    change ∃ s', atomically (((getJSON Value.asReplica (tiKVReplicaKey o v n)).attempt >>= _) >>=
      fun _ => markReplicaLocationsDeleted o v nodes) s = (.ok (), s') ∧ _
    rw [bind_assoc, atomically_attempt hread]
    cases hrow : (catalog s).replica o v n with
    | none =>
      obtain ⟨s', hrun, hmarked⟩ := ih hs
      refine ⟨s', hrun, fun n' r hr hactive => ?_⟩
      obtain ⟨hmem, hold⟩ := hmarked n' r hr hactive
      refine ⟨fun h => ?_, hold⟩
      rcases List.mem_cons.mp h with rfl | h
      · cases hrow.symm.trans hold
      · exact hmem h
    | some r₀ =>
      obtain ⟨hid, hv, hn, -⟩ := hs.named.replica hrow
      have hat : RowAt P (tiKVReplicaKey o v n) (.replica { r₀ with status := .deleted }) :=
        ⟨by simp [hid, hv, hn], by simpa [hid] using ho⟩
      obtain ⟨s', hrun, hmarked⟩ := ih (hs.applyAll (writeRows_singleton hat))
      refine ⟨s', hrun, fun n' r hr hactive => ?_⟩
      obtain ⟨hmem, hold⟩ := hmarked n' r hr hactive
      rw [catalog_set hP hs hat] at hold
      simp only [Catalog.put, Catalog.setReplica, hid, hv, hn] at hold
      split at hold
      · cases hold
        cases hactive
      · rename_i hne
        refine ⟨fun h => ?_, hold⟩
        rcases List.mem_cons.mp h with rfl | h
        · exact hne ⟨trivial, trivial, rfl⟩
        · exact hmem h

end Marked

end TieredStore.Meta
