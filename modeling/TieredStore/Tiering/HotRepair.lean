import TieredStore.Api.WriteService
import TieredStore.Cluster.Effects
import TieredStore.Meta.ReplicaRows
import TieredStore.Tiering.Processors

/-!
# Repair of replicas

The repair of a HOT version picks nodes that hold no replica row, and falls back to any healthy node
when too few are left. It then counts the rows it found and the copies it wrote. A version has one
row for a node, so a second copy on a node counts twice and adds no row.

A repair that reports success has written a copy to each of its targets
(`processHOTRepair_outcome`), and it repaired the version exactly when the targets are new nodes
(`hot_repair_complete`). Node ids are trimmed when they are ranked, but not when they are compared
with the rows; on ids without surrounding blanks the targets are new exactly when there are enough
unused nodes (`freshTargets_iff`).
-/

namespace TieredStore.Tiering

open Lib Lib.Prog Lib.Bytes Meta Cluster

/-! ## Targets -/

section Targets

variable {d : Deps} {key : GoString} {healthy used : List GoString} {need : Int}

/-- The distinct ids of healthy nodes that are not among the used ones. -/
def spareNodes (healthy used : List GoString) : List GoString :=
  uniqueSortedNodes (healthy.filter (· ∉ used))

/-- The distinct ids that are left when the spare nodes are taken. -/
def restNodes (healthy used : List GoString) : List GoString :=
  uniqueSortedNodes (healthy.filter (· ∉ spareNodes healthy used))

/-- With enough spare nodes, the targets are the first of them. -/
theorem pick_of_enough (hneed : 0 < need) (henough : need ≤ (spareNodes healthy used).length) :
    pickRepairTargetNodes d key healthy used need =
      selectByRendezvous d.rendezvousScore key (healthy.filter (· ∉ used)) need := by
  have hlen := @length_selectByRendezvous d.rendezvousScore key (healthy.filter (· ∉ used)) need
    hneed.le
  unfold spareNodes at henough
  unfold pickRepairTargetNodes
  rw [if_neg (not_le.mpr hneed), if_pos (by omega)]

theorem mem_select_all {score : GoString → GoString → UInt64} {nodes : List GoString}
    (hall : (uniqueSortedNodes nodes).length ≤ need) {n : GoString} :
    n ∈ selectByRendezvous score key nodes need ↔ n ∈ uniqueSortedNodes nodes := by
  rw [mem_selectByRendezvous_iff, and_iff_left_iff_imp]
  intro hn
  have hlt : rank (score key) (uniqueSortedNodes nodes) n < (uniqueSortedNodes nodes).length :=
    List.length_filter_lt_length_iff_exists.mpr ⟨n, hn, by simp⟩
  omega

/-- With too few spare nodes, the targets are all of them and the first of the others. -/
theorem pick_of_few (hfew : (spareNodes healthy used).length < need) :
    pickRepairTargetNodes d key healthy used need =
      selectByRendezvous d.rendezvousScore key (healthy.filter (· ∉ used)) need ++
      selectByRendezvous d.rendezvousScore (key ++ lit ":fallback")
        (healthy.filter (· ∉ spareNodes healthy used))
        (need - (spareNodes healthy used).length) := by
  have hlen := @length_selectByRendezvous d.rendezvousScore key (healthy.filter (· ∉ used)) need
    (by omega)
  unfold spareNodes at hfew ⊢
  unfold pickRepairTargetNodes
  rw [if_neg (by omega), if_neg (by omega), hlen, min_eq_right (by omega)]
  simp only [mem_select_all hfew.le]

theorem length_pick (hneed : 0 < need) :
    ((pickRepairTargetNodes d key healthy used need).length : Int) =
      min need ((spareNodes healthy used).length + (restNodes healthy used).length) := by
  rcases lt_or_ge ((spareNodes healthy used).length : Int) need with hfew | henough
  · rw [pick_of_few hfew, List.length_append, Nat.cast_add, length_selectByRendezvous hneed.le,
      length_selectByRendezvous (by omega)]
    unfold spareNodes restNodes spareNodes at *
    omega
  · rw [pick_of_enough hneed henough, length_selectByRendezvous hneed.le]
    unfold spareNodes at *
    omega

theorem nil_not_mem_pick : [] ∉ pickRepairTargetNodes d key healthy used need := by
  intro h
  unfold pickRepairTargetNodes at h
  split at h
  · simp at h
  · dsimp only at h
    split at h
    · exact (mem_selectByRendezvous h).1 rfl
    · rcases List.mem_append.mp h with h | h <;> exact (mem_selectByRendezvous h).1 rfl

/-- The targets are new nodes, whenever there are enough targets at all. When the spare nodes
suffice, the first of them are not used under a trimmed id; when they do not, the others that are
taken are neither used nor spare. -/
structure FreshTargets (score : GoString → GoString → UInt64) (key : GoString)
    (healthy used : List GoString) (need : Int) : Prop where
  spare : need ≤ (spareNodes healthy used).length → ∀ n ∈ spareNodes healthy used, n ∈ used →
    need ≤ rank (score key) (spareNodes healthy used) n
  all : (spareNodes healthy used).length < need →
    need ≤ (spareNodes healthy used).length + (restNodes healthy used).length →
    ∀ n ∈ spareNodes healthy used, n ∉ used
  rest : (spareNodes healthy used).length < need →
    need ≤ (spareNodes healthy used).length + (restNodes healthy used).length →
    ∀ n ∈ restNodes healthy used, n ∈ used ∨ n ∈ spareNodes healthy used →
    need - (spareNodes healthy used).length ≤
      rank (score (key ++ lit ":fallback")) (restNodes healthy used) n

theorem freshTargets_iff_nodup (hneed : 0 < need) (hused : used.Nodup) :
    FreshTargets d.rendezvousScore key healthy used need ↔
      ((pickRepairTargetNodes d key healthy used need).length = need →
        (used ++ pickRepairTargetNodes d key healthy used need).Nodup) := by
  rw [length_pick hneed, List.nodup_append']
  simp only [hused, true_and]
  rcases lt_or_ge ((spareNodes healthy used).length : Int) need with hfew | henough
  · rw [pick_of_few hfew]
    have hspare : ∀ n, n ∈ selectByRendezvous d.rendezvousScore key (healthy.filter (· ∉ used))
        need ↔ n ∈ spareNodes healthy used := fun n => mem_select_all hfew.le
    have hrest : ∀ n, n ∈ selectByRendezvous d.rendezvousScore (key ++ lit ":fallback")
        (healthy.filter (· ∉ spareNodes healthy used)) (need - (spareNodes healthy used).length) ↔
        n ∈ restNodes healthy used ∧
        (rank (d.rendezvousScore (key ++ lit ":fallback")) (restNodes healthy used) n : Int) <
          need - (spareNodes healthy used).length := fun n => mem_selectByRendezvous_iff
    rw [List.nodup_append']
    simp only [selectByRendezvous_nodup, true_and, List.disjoint_right, List.mem_append, hspare,
      hrest]
    constructor
    · rintro ⟨-, hall, hother⟩ hlen
      have hlen' := (min_eq_left_iff.mp hlen)
      refine ⟨?_, ?_⟩
      · rintro n ⟨hn, hrank⟩ hmem
        have := hother hfew hlen' n hn (Or.inr hmem)
        omega
      · rintro n (hn | ⟨hn, hrank⟩) hmem
        · exact hall hfew hlen' n hn hmem
        · have := hother hfew hlen' n hn (Or.inl hmem)
          omega
    · intro h
      refine ⟨fun henough => absurd hfew (not_lt.mpr henough), ?_, ?_⟩
      · intro _ hlen n hn hmem
        exact (h (min_eq_left hlen)).2 (Or.inl hn) hmem
      · intro _ hlen n hn hmem
        obtain ⟨hdisj, hnew⟩ := h (min_eq_left hlen)
        by_contra hrank
        rw [not_le] at hrank
        rcases hmem with hmem | hmem
        · exact hnew (Or.inr ⟨hn, hrank⟩) hmem
        · exact hdisj ⟨hn, hrank⟩ hmem
  · rw [pick_of_enough hneed henough]
    have hmem : ∀ n, n ∈ selectByRendezvous d.rendezvousScore key (healthy.filter (· ∉ used))
        need ↔ n ∈ spareNodes healthy used ∧
        (rank (d.rendezvousScore key) (spareNodes healthy used) n : Int) < need :=
      fun n => mem_selectByRendezvous_iff
    simp only [selectByRendezvous_nodup, true_and, List.disjoint_right, hmem]
    constructor
    · rintro ⟨hspare, -, -⟩ - n ⟨hn, hrank⟩ hused'
      have := hspare henough n hn hused'
      omega
    · intro h
      refine ⟨?_, fun hfew => absurd henough (not_le.mpr hfew),
        fun hfew => absurd henough (not_le.mpr hfew)⟩
      intro _ n hn hused'
      by_contra hrank
      rw [not_le] at hrank
      exact h (min_eq_left (by omega)) ⟨hn, hrank⟩ hused'

/-- The used nodes count as a set. -/
theorem pick_congr {used' : List GoString} (h : ∀ n, n ∈ used ↔ n ∈ used') :
    pickRepairTargetNodes d key healthy used need = pickRepairTargetNodes d key healthy used' need := by
  simp only [pickRepairTargetNodes, h]

section Trimmed

variable (htrim : ∀ n ∈ healthy, trimSpace n = n)
include htrim

theorem mem_uniqueSortedNodes_filter {p : GoString → Bool} {n : GoString} :
    n ∈ uniqueSortedNodes (healthy.filter p) ↔ n ≠ [] ∧ n ∈ healthy ∧ p n = true := by
  rw [mem_uniqueSortedNodes, and_congr_right_iff]
  intro _
  constructor
  · rintro ⟨n', hn', rfl⟩
    obtain ⟨hmem, hp⟩ := List.mem_filter.mp hn'
    rw [htrim n' hmem]
    exact ⟨hmem, hp⟩
  · rintro ⟨hmem, hp⟩
    exact ⟨n, List.mem_filter.mpr ⟨hmem, hp⟩, htrim n hmem⟩

theorem mem_spareNodes {n : GoString} :
    n ∈ spareNodes healthy used ↔ n ≠ [] ∧ n ∈ healthy ∧ n ∉ used := by
  rw [spareNodes, mem_uniqueSortedNodes_filter htrim, decide_eq_true_iff]

theorem mem_restNodes {n : GoString} :
    n ∈ restNodes healthy used ↔ n ≠ [] ∧ n ∈ healthy ∧ n ∈ used := by
  rw [restNodes, mem_uniqueSortedNodes_filter htrim, decide_eq_true_iff, mem_spareNodes htrim]
  tauto

theorem disjoint_spareNodes : (spareNodes healthy used).Disjoint (restNodes healthy used) := by
  intro n hn hn'
  exact ((mem_spareNodes htrim).mp hn).2.2 ((mem_restNodes htrim).mp hn').2.2

/-- The targets are distinct. -/
theorem nodup_pick (hneed : 0 < need) :
    (pickRepairTargetNodes d key healthy used need).Nodup := by
  rcases lt_or_ge ((spareNodes healthy used).length : Int) need with hfew | henough
  · rw [pick_of_few hfew]
    refine List.nodup_append'.mpr ⟨selectByRendezvous_nodup, selectByRendezvous_nodup, ?_⟩
    intro n hn hn'
    exact disjoint_spareNodes htrim (mem_selectByRendezvous_iff.mp hn).1
      (mem_selectByRendezvous_iff.mp hn').1
  · rw [pick_of_enough hneed henough]
    exact selectByRendezvous_nodup

/-- With enough spare nodes no target is used. -/
theorem pick_unused (hneed : 0 < need) (henough : need ≤ (spareNodes healthy used).length)
    {n : GoString} (hn : n ∈ pickRepairTargetNodes d key healthy used need) : n ∉ used := by
  rw [pick_of_enough hneed henough] at hn
  exact ((mem_spareNodes htrim).mp (mem_selectByRendezvous_iff.mp hn).1).2.2

/-- Spare and other nodes together are all healthy nodes. -/
theorem length_spareNodes_add : (spareNodes healthy used).length +
    (restNodes healthy used).length = (uniqueSortedNodes healthy).length := by
  have hdisj := @disjoint_spareNodes healthy used htrim
  have hnodup : (spareNodes healthy used ++ restNodes healthy used).Nodup :=
    List.nodup_append'.mpr ⟨nodup_uniqueSortedNodes _, nodup_uniqueSortedNodes _, hdisj⟩
  rw [← List.length_append]
  refine ((List.perm_ext_iff_of_nodup hnodup (nodup_uniqueSortedNodes _)).mpr ?_).length_eq
  intro n
  rw [List.mem_append, mem_spareNodes htrim, mem_restNodes htrim, mem_uniqueSortedNodes]
  constructor
  · rintro (⟨hne, hmem, -⟩ | ⟨hne, hmem, -⟩) <;> exact ⟨hne, n, hmem, htrim n hmem⟩
  · rintro ⟨hne, n', hmem, rfl⟩
    rw [htrim n' hmem] at hne ⊢
    by_cases hused : n' ∈ used
    · exact Or.inr ⟨hne, hmem, hused⟩
    · exact Or.inl ⟨hne, hmem, hused⟩

/-- On ids without blanks the targets are new exactly when the spare nodes suffice, or when all
healthy nodes together do not. -/
theorem freshTargets_iff {score : GoString → GoString → UInt64} :
    FreshTargets score key healthy used need ↔ need ≤ (spareNodes healthy used).length ∨
      (uniqueSortedNodes healthy).length < need := by
  have hlen := @length_spareNodes_add healthy used htrim
  constructor
  · intro h
    by_contra hcon
    rw [not_or, not_le, not_lt] at hcon
    obtain ⟨hfew, hall⟩ := hcon
    have hselected := @length_selectByRendezvous score (key ++ lit ":fallback")
      (healthy.filter (· ∉ spareNodes healthy used)) (need - (spareNodes healthy used).length)
      (by omega)
    rw [show uniqueSortedNodes (healthy.filter (· ∉ spareNodes healthy used)) =
      restNodes healthy used from rfl] at hselected
    -- one of the other nodes is taken, and it is used
    obtain ⟨n, hn⟩ := List.exists_mem_of_length_pos (l := selectByRendezvous score
      (key ++ lit ":fallback") (healthy.filter (· ∉ spareNodes healthy used))
      (need - (spareNodes healthy used).length)) (by omega)
    obtain ⟨hrest, hrank⟩ := mem_selectByRendezvous_iff.mp hn
    have := h.rest hfew (by omega) n hrest (Or.inl ((mem_restNodes htrim).mp hrest).2.2)
    change need - _ ≤ (rank _ (restNodes healthy used) n : Int) at this
    change (rank _ (restNodes healthy used) n : Int) < _ at hrank
    omega
  · intro h
    refine ⟨?_, ?_, ?_⟩
    · intro _ n hn hused
      exact absurd hused ((mem_spareNodes htrim).mp hn).2.2
    · intro _ _ n hn
      exact ((mem_spareNodes htrim).mp hn).2.2
    · intro hfew hall
      omega

end Trimmed

end Targets

/-! ## Runs -/

section Runs

variable {P : GoString → Prop} {d : Deps} {task : TaskRecord} {healthy : List GoString}
  {w w' : World} {o : GoString} {v : Int}

/-- The node of a replica holds a copy, under the key of the replica or under the bare object id. -/
def Holds (w : World) (o : GoString) (v : Int) (r : ReplicaLocation) : Prop :=
  (unaddressed r.nodeID (replicaBlobKey o v r.path) = false ∧
    w.blobs r.nodeID (replicaBlobKey o v r.path) ≠ none) ∨
  (unaddressed r.nodeID o = false ∧ w.blobs r.nodeID o ≠ none)

theorem replicaBlobKey_ne_nil {path : GoString} (ho : o ≠ []) : replicaBlobKey o v path ≠ [] := by
  unfold replicaBlobKey
  dsimp only
  by_cases hkey : (if path = [] then buildHotReplicaPath o v else path) = []
  · rwa [if_pos hkey]
  · rwa [if_neg hkey]

theorem unaddressed_replicaBlobKey {n path : GoString}
    (h : unaddressed n (replicaBlobKey o v path) = true) : unaddressed n o = true := by
  simp only [unaddressed, Bool.or_eq_true, decide_eq_true_iff] at h ⊢
  exact h.imp_right fun h => by_contra fun ho => replicaBlobKey_ne_nil ho h

/-- A copy of the version can be read through one of the rows, and stored again. -/
def Readable (w : World) (o : GoString) (v : Int) : Prop :=
  o ≠ [] ∧ ∃ r ∈ listedReplicas w.records o v, Holds w o v r

/-- The job knows the cluster; calls may fail. -/
abbrev reporting (d : Deps) (healthy : List GoString) : Monitor Call Call.Answer World :=
  stateMonitor (Reports d.cfg healthy) fun _ => True

/-- What is fetched is a copy that a replica's node holds. -/
theorem obeys_fetchFromActiveReplicas (rs : List ReplicaLocation) :
    (fetchFromActiveReplicas o v rs).Obeys (reporting d healthy)
      (fun out w' => w' = w ∧ ∀ data, out = .ok data → ∃ r ∈ rs, Holds w o v r) w := by
  induction rs with
  | nil => exact ⟨rfl, nofun⟩
  | cons r rs ih =>
    have hrest : (fetchFromActiveReplicas o v rs).Obeys (reporting d healthy) (fun out w' => w' = w ∧
        ∀ data, out = .ok data → ∃ r' ∈ r :: rs, Holds w o v r') w :=
      ih.mono fun out w' h => ⟨h.1, fun data hdata => (h.2 data hdata).imp fun r' hr' =>
        ⟨List.mem_cons_of_mem _ hr'.1, hr'.2⟩⟩
    simp only [fetchFromActiveReplicas, Job.retrieve_bind]
    refine ⟨trivial, fun reply w₁ hstep => ?_⟩
    obtain ⟨rfl, hdata⟩ := Faulty.retrieved hstep
    dsimp only
    split
    · exact hrest
    · rename_i data
      obtain ⟨haddr, hblob⟩ := hdata data rfl
      exact ⟨rfl, fun _ _ => ⟨r, List.mem_cons_self, Or.inl ⟨haddr, by simp [hblob]⟩⟩⟩
    · split
      · refine ⟨trivial, fun (reply' : Reply) w₂ hstep' => ?_⟩
        obtain ⟨rfl, hdata'⟩ := Faulty.retrieved hstep'
        dsimp only
        split
        · rename_i data
          obtain ⟨haddr, hblob⟩ := hdata' data rfl
          exact ⟨rfl, fun _ _ => ⟨r, List.mem_cons_self, Or.inr ⟨haddr, by simp [hblob]⟩⟩⟩
        · exact hrest
      · exact hrest

/-- The copies are written to some of the targets, and the rows stay. Nothing is written for an
object without an id. -/
theorem obeys_writeReplicas (payload : Blob) (targets : List GoString) :
    (writeReplicas o v payload targets).Obeys (reporting d healthy)
      (fun out w' => w'.records = w.records ∧ ∀ written, out = .ok written →
        written.Sublist targets ∧ (written ≠ [] → o ≠ [])) w := by
  induction targets generalizing w with
  | nil =>
    refine ⟨rfl, ?_⟩
    rintro _ ⟨⟩
    exact ⟨.refl _, fun h => absurd rfl h⟩
  | cons n targets ih =>
    simp only [writeReplicas, writeSingleBlob, Job.store_bind]
    refine ⟨trivial, fun reply w₁ hstep => ?_⟩
    have hrecords : w₁.records = w.records := Faulty.records hstep (by rintro _ ⟨⟩)
    have hnext : ∀ f : List GoString → List GoString, (∀ written, written.Sublist targets →
        (written ≠ [] → o ≠ []) → (f written).Sublist (n :: targets) ∧ (f written ≠ [] → o ≠ [])) →
        (writeReplicas o v payload targets >>= fun out => pure (f out)).Obeys (reporting d healthy)
          (fun out w' => w'.records = w.records ∧ ∀ written, out = .ok written →
            written.Sublist (n :: targets) ∧ (written ≠ [] → o ≠ [])) w₁ := by
      intro f hf
      refine ih.bind (fun e w₂ h => ⟨h.1.trans hrecords, by rintro _ ⟨⟩⟩) fun written w₂ h => ?_
      refine ⟨h.1.trans hrecords, ?_⟩
      rintro _ ⟨⟩
      obtain ⟨hsub, hne⟩ := h.2 _ rfl
      exact hf written hsub hne
    have hlost := hnext id fun written hsub hne => ⟨hsub.cons n, hne⟩
    have hwritten : o ≠ [] → _ := fun ho => hnext (n :: ·) fun written hsub _ =>
      ⟨hsub.cons_cons n, fun _ => ho⟩
    have hstored : ∀ code body, reply = .status code body → code = 200 ∨ code = 204 → o ≠ [] := by
      rintro code body hreply hcode rfl
      have haddr := (Faulty.stored hstep hreply hcode).1
      simp [unaddressed, replicaBlobKey, show buildHotReplicaPath [] v = [] from rfl] at haddr
    dsimp only
    split
    · exact hlost
    · exact hwritten (hstored _ _ rfl (Or.inl rfl))
    · exact hwritten (hstored _ _ rfl (Or.inr rfl))
    · exact hlost

/-- The rows that `processHOTRepair` wants. -/
def replicaTarget (cfg : Config) : Int := if cfg.hotReplicaCount ≤ 0 then 1 else cfg.hotReplicaCount

/-- The nodes to which a repair writes. -/
def repairTargets (d : Deps) (task : TaskRecord) (healthy : List GoString) (s : Store) :
    List GoString :=
  pickRepairTargetNodes d (hotRepairKey task.objectID task.version) healthy
    (activeNodes s task.objectID task.version)
    (replicaTarget d.cfg - (listedReplicas s task.objectID task.version).length)

/-- What a repair that reports success has done: nothing, as there were enough rows, or it read a
copy and placed one on every target. -/
inductive Outcome (d : Deps) (task : TaskRecord) (healthy : List GoString) (w w' : World) : Prop
  | enough (rows : replicaTarget d.cfg ≤ (listedReplicas w.records task.objectID task.version).length)
      (same : w'.records = w.records)
  | placed (missing : (listedReplicas w.records task.objectID task.version).length <
        replicaTarget d.cfg)
      (read : Readable w task.objectID task.version)
      (count : (repairTargets d task healthy w.records).length =
        replicaTarget d.cfg - (listedReplicas w.records task.objectID task.version).length)
      (rows : atomically (upsertReplicaLocations task.objectID task.version
        (repairTargets d task healthy w.records)) w.records = (.ok (), w'.records))

theorem obeys_processHOTRepair (hs : Rows P w.records) :
    (processHOTRepair d task).Obeys (reporting d healthy)
      (fun out w' => out = .ok () → Outcome d task healthy w w') w := by
  unfold processHOTRepair
  refine Job.obeys_repo trivial (fun _ _ _ => nofun) fun replicas w₁ hstep => ?_
  have hlisted : atomically (listActiveReplicaLocations task.objectID task.version) w.records =
      (.ok (listedReplicas w.records task.objectID task.version), w.records) :=
    atomically_listActiveReplicaLocations hs.typed task.objectID task.version
  obtain ⟨rfl, rfl⟩ := Faulty.read hstep fun _ => hlisted
  simp only [show (if d.cfg.hotReplicaCount ≤ 0 then (1 : Int) else d.cfg.hotReplicaCount) =
    replicaTarget d.cfg from rfl]
  split
  · exact nofun
  split
  · rename_i hrows
    exact fun _ => .enough hrows rfl
  rename_i hrows
  rw [Job.listHealthyNodeIDs_bind]
  refine ⟨trivial, fun r w₁ hstep => ?_⟩
  obtain ⟨rfl | ⟨e, rfl⟩, hsame⟩ := hstep
  swap
  · exact nofun
  subst w₁
  dsimp only
  split
  · exact nofun
  split
  · exact nofun
  refine (obeys_fetchFromActiveReplicas _).bind (fun _ _ _ => nofun) ?_
  rintro payload w₂ ⟨hsame, hread⟩
  subst w₂
  refine (obeys_writeReplicas payload _).bind (fun _ _ _ => nofun) ?_
  rintro written w₃ ⟨hrecords, hsub⟩
  obtain ⟨hsub, hid⟩ := hsub written rfl
  split
  · exact nofun
  rename_i hwritten
  refine Job.obeys_repo trivial (fun _ _ _ => nofun) fun _ w₄ hstep => ?_
  rcases Faulty.answer hstep with ⟨e, ⟨⟩⟩ | ⟨clocks, hanswer⟩
  split
  · exact nofun
  rename_i hcount
  -- no target was left out, since there are no more targets than missing rows
  have hlen := @length_pick d (hotRepairKey task.objectID task.version) healthy
    (activeNodes w.records task.objectID task.version) (replicaTarget d.cfg -
      (listedReplicas w.records task.objectID task.version).length) (by omega)
  change written.Sublist (repairTargets d task healthy w.records) at hsub
  change ((repairTargets d task healthy w.records).length : Int) = _ at hlen
  have hle := hsub.length_le
  have hall : written = repairTargets d task healthy w.records := hsub.eq_of_length_le (by omega)
  subst hall
  exact fun _ => .placed (by omega) ⟨hid hwritten, hread payload rfl⟩ (by omega) (hrecords ▸ hanswer)

/-- On a healthy cluster a copy that some node holds is found. -/
theorem run_fetchFromActiveReplicas {e : Weather} {rs : List ReplicaLocation}
    (h : ∃ r ∈ rs, Holds w o v r) : ∃ data,
      (fetchFromActiveReplicas o v rs).run (serve d.cfg e) w = (.ok data, w) := by
  induction rs with
  | nil =>
    obtain ⟨r, hr, -⟩ := h
    simp at hr
  | cons r rs ih =>
    have hrest : ¬ Holds w o v r → ∃ data,
        (fetchFromActiveReplicas o v rs).run (serve d.cfg e) w = (.ok data, w) := by
      intro hr
      refine ih ?_
      obtain ⟨r', hr', hholds⟩ := h
      rcases List.mem_cons.mp hr' with rfl | hr'
      · exact absurd hholds hr
      · exact ⟨r', hr', hholds⟩
    rw [fetchFromActiveReplicas]
    cases haddr : unaddressed r.nodeID (replicaBlobKey o v r.path) with
    | true =>
      rw [run_bind_ok (run_retrieve (serve_retrieve_unaddressed haddr))]
      refine hrest ?_
      simp [Holds, haddr, unaddressed_replicaBlobKey haddr]
    | false =>
      cases hblob : w.blobs r.nodeID (replicaBlobKey o v r.path) with
      | some data =>
        rw [run_bind_ok (run_retrieve (serve_retrieve haddr hblob))]
        exact ⟨data, rfl⟩
      | none =>
        rw [run_bind_ok (run_retrieve (serve_retrieve_none haddr hblob))]
        by_cases hkey : replicaBlobKey o v r.path = o
        · rw [if_neg (not_not.mpr hkey)]
          refine hrest ?_
          rw [hkey] at hblob
          simp [Holds, hkey, hblob]
        · rw [if_pos hkey]
          change ∃ data, (Job.retrieve r.nodeID o >>= _).run _ _ = _
          cases haddr' : unaddressed r.nodeID o with
          | true =>
            rw [run_bind_ok (run_retrieve (serve_retrieve_unaddressed haddr'))]
            refine hrest ?_
            simp [Holds, hblob, haddr']
          | false =>
            cases hblob' : w.blobs r.nodeID o with
            | some data =>
              rw [run_bind_ok (run_retrieve (serve_retrieve haddr' hblob'))]
              exact ⟨data, rfl⟩
            | none =>
              rw [run_bind_ok (run_retrieve (serve_retrieve_none haddr' hblob'))]
              refine hrest ?_
              simp [Holds, hblob, hblob']

theorem run_writeReplicas {e : Weather} (ho : o ≠ []) {payload : Blob} {targets : List GoString}
    (hne : [] ∉ targets) : ∃ w', (writeReplicas o v payload targets).run (serve d.cfg e) w =
      (.ok targets, w') ∧ w'.records = w.records := by
  induction targets generalizing w with
  | nil => exact ⟨w, rfl, rfl⟩
  | cons n targets ih =>
    rw [List.mem_cons, not_or] at hne
    obtain ⟨w', hrun, hrecords⟩ := @ih (w.put n (replicaBlobKey o v []) payload) hne.2
    have haddr : unaddressed n (replicaBlobKey o v []) = false := by
      cases h : unaddressed n (replicaBlobKey o v []) with
      | false => rfl
      | true =>
        have := unaddressed_replicaBlobKey h
        simp [unaddressed, ho, Ne.symm hne.1] at this
    refine ⟨w', ?_, hrecords⟩
    rw [writeReplicas, writeSingleBlob]
    rw [bind_assoc, run_bind_ok (run_store haddr)]
    exact run_bind_ok hrun _

/-- When a copy can be read and there are enough targets, a repair on a healthy cluster succeeds. -/
theorem exists_repair (hs : Rows P w.records)
    (hmissing : (listedReplicas w.records task.objectID task.version).length < replicaTarget d.cfg)
    (hread : Readable w task.objectID task.version)
    (hcount : (repairTargets d task healthy w.records).length =
      replicaTarget d.cfg - (listedReplicas w.records task.objectID task.version).length) :
    ∃ w', Exec (Reports d.cfg healthy) (processHOTRepair d task) w (.ok ()) w' := by
  obtain ⟨ho, hread⟩ := hread
  obtain ⟨e, rfl⟩ : ∃ e : Weather, e.healthy = healthy :=
    ⟨{ calmWeather with healthy := healthy }, rfl⟩
  have hlisted : atomically (listActiveReplicaLocations task.objectID task.version) w.records =
      (.ok (listedReplicas w.records task.objectID task.version), w.records) :=
    atomically_listActiveReplicaLocations hs.typed task.objectID task.version
  have hrows : listedReplicas w.records task.objectID task.version ≠ [] := by
    obtain ⟨r, hr, -⟩ := hread
    exact List.ne_nil_of_mem hr
  have htargets : repairTargets d task e.healthy w.records ≠ [] := by
    rw [← List.length_pos_iff]
    omega
  have hhealthy : e.healthy ≠ [] := by
    intro hnil
    simp [repairTargets, pickRepairTargetNodes, selectByRendezvous, hnil] at htargets
  obtain ⟨data, hfetch⟩ := @run_fetchFromActiveReplicas d w task.objectID task.version e _ hread
  obtain ⟨w₁, hwrite, hrecords⟩ := @run_writeReplicas d w task.objectID task.version e ho data
    (repairTargets d task e.healthy w.records) nil_not_mem_pick
  obtain ⟨s', hplaced, -⟩ := @atomically_upsertReplicaLocations w₁.records task.objectID task.version
    (hrecords ▸ hs.mono fun _ _ => trivial) (repairTargets d task e.healthy w.records)
  refine ⟨{ w₁ with records := s' }, Path.mono (fun _ _ _ _ h => reports_of_serve (e := e) h)
    (exec_answers_iff.mpr ?_)⟩
  unfold processHOTRepair
  refine (run_bind_ok (run_repo (c := .listActiveReplicaLocations _ _) hlisted) _).trans ?_
  simp only [show (if d.cfg.hotReplicaCount ≤ 0 then (1 : Int) else d.cfg.hotReplicaCount) =
    replicaTarget d.cfg from rfl]
  rw [if_neg hrows, if_neg (by omega), run_bind_ok run_listHealthyNodeIDs, if_neg hhealthy,
    show pickRepairTargetNodes d (hotRepairKey task.objectID task.version) e.healthy
      ((listedReplicas w.records task.objectID task.version).map (·.nodeID))
      (replicaTarget d.cfg - (listedReplicas w.records task.objectID task.version).length) =
    repairTargets d task e.healthy w.records from rfl, if_neg htargets, run_bind_ok hfetch,
    run_bind_ok hwrite, if_neg htargets]
  refine (run_bind_ok (run_repo (c := .upsertReplicaLocations _ _ _) hplaced) _).trans ?_
  rw [if_neg (by omega)]
  rfl

/-! ## The rows after a repair -/

theorem replicaTarget_eq (cfg : Config) : replicaTarget cfg = max 1 cfg.hotReplicaCount := by
  unfold replicaTarget
  split <;> omega

/-- The version is repaired: enough rows on distinct nodes are listed, and every node that had an
ACTIVE row has one. -/
structure Repaired (d : Deps) (task : TaskRecord) (w w' : World) : Prop where
  enough : ∃ rows, (atomically (listActiveReplicaLocations task.objectID task.version)
      w'.records).1 = .ok rows ∧ max 1 d.cfg.hotReplicaCount ≤ rows.length ∧
    (rows.map (·.nodeID)).Nodup
  kept : ∀ n, ActiveRow w.records task.objectID task.version n →
    ActiveRow w'.records task.objectID task.version n

/-- When a repair that reports success has repaired the version: enough rows were there, or no copy
could be read and the repair cannot succeed, or its targets are new nodes. -/
def Repairable (d : Deps) (task : TaskRecord) (healthy : List GoString) (w : World) : Prop :=
  max 1 d.cfg.hotReplicaCount ≤ (listedReplicas w.records task.objectID task.version).length ∨
  ¬ Readable w task.objectID task.version ∨
  FreshTargets d.rendezvousScore (hotRepairKey task.objectID task.version) healthy
    (activeNodes w.records task.objectID task.version)
    (max 1 d.cfg.hotReplicaCount - (listedReplicas w.records task.objectID task.version).length)

/-- Two lists of distinct and of any elements: their union is as long as both together exactly when
all elements are distinct. -/
theorem length_union_iff {l l' all : List GoString} (hall : all.Nodup)
    (hmem : ∀ n, n ∈ all ↔ n ∈ l ∨ n ∈ l') : l.length + l'.length ≤ all.length ↔ (l ++ l').Nodup := by
  have hperm : all.Perm (l ++ l').dedup := by
    refine (List.perm_ext_iff_of_nodup hall (List.nodup_dedup _)).mpr fun n => ?_
    rw [hmem, List.mem_dedup, List.mem_append]
  rw [hperm.length_eq, ← List.length_append]
  constructor
  · intro h
    rw [← (List.dedup_sublist (l ++ l')).eq_of_length_le h]
    exact List.nodup_dedup _
  · intro h
    rw [List.dedup_eq_self.mpr h]

theorem rows_upsertReplicaLocations (hP : Separated P) {s s' : Store} (hs : Rows P s) (ho : P o)
    {nodes : List GoString} {out : Except GoError Unit}
    (h : atomically (upsertReplicaLocations o v nodes) s = (out, s')) : Rows P s' := by
  have hrun := (upsertReplicaLocations_alone hP hs ho v nodes).step_run (J := fun _ => True)
    (fun _ _ _ _ _ _ => trivial) hs trivial
  rw [show (upsertReplicaLocations o v nodes).run kvHandler s = (out, s') from h] at hrun
  exact hrun.2.1

/-- After rows for the targets have been placed, the version is repaired exactly when the targets
are new. -/
theorem repaired_iff_nodup (hP : Separated P) (hs : Rows P w.records) (ho : P task.objectID)
    (hcount : (repairTargets d task healthy w.records).length =
      replicaTarget d.cfg - (listedReplicas w.records task.objectID task.version).length)
    (hplaced : atomically (upsertReplicaLocations task.objectID task.version
      (repairTargets d task healthy w.records)) w.records = (.ok (), w'.records)) :
    Repaired d task w w' ↔ (activeNodes w.records task.objectID task.version ++
      repairTargets d task healthy w.records).Nodup := by
  obtain ⟨s', hs', hadds⟩ := @atomically_upsertReplicaLocations w.records task.objectID task.version
    (hs.mono fun _ _ => trivial) (repairTargets d task healthy w.records)
  rw [hplaced] at hs'
  obtain rfl := (Prod.mk.inj hs').2
  have hrows := rows_upsertReplicaLocations hP hs ho hplaced
  have hactive : ∀ n, ActiveRow w'.records task.objectID task.version n ↔
      ActiveRow w.records task.objectID task.version n ∨
      n ∈ repairTargets d task healthy w.records := fun n => hadds.activeRow_iff nil_not_mem_pick
  have hlisted : (atomically (listActiveReplicaLocations task.objectID task.version)
      w'.records).1 = .ok (listedReplicas w'.records task.objectID task.version) := by
    rw [atomically_listActiveReplicaLocations hrows.typed]
    rfl
  have hlen : ∀ s : Store, (activeNodes s task.objectID task.version).length =
    (listedReplicas s task.objectID task.version).length := fun s => List.length_map _
  have hnodup : (activeNodes w'.records task.objectID task.version).Nodup :=
    nodup_activeNodes hP hrows ho
  rw [← length_union_iff hnodup, hlen, hlen]
  · rw [replicaTarget_eq] at hcount
    constructor
    · rintro ⟨⟨rows, hrows', henough, -⟩, -⟩
      cases hlisted.symm.trans hrows'
      omega
    · intro h
      exact ⟨⟨_, hlisted, by omega, hnodup⟩, fun n hn => (hactive n).mpr (Or.inl hn)⟩
  · intro n
    rw [mem_activeNodes hP hrows ho, mem_activeNodes hP hs ho, hactive]

/-- A repair that reports success has repaired the version, whatever requests fail, exactly when its
targets are new nodes or it had nothing to do or no copy to read. -/
theorem hot_repair_complete (hP : Separated P) (hs : Rows P w.records) (ho : P task.objectID)
    (healthy : List GoString) :
    (∀ w', Exec (Reports d.cfg healthy) (processHOTRepair d task) w (.ok ()) w' →
      Repaired d task w w') ↔ Repairable d task healthy w := by
  have houtcome : ∀ {w'}, Exec (Reports d.cfg healthy) (processHOTRepair d task) w (.ok ()) w' →
      Outcome d task healthy w w' := fun hx => (obeys_processHOTRepair hs).state_exec hx rfl
  have hused : (activeNodes w.records task.objectID task.version).Nodup :=
    nodup_activeNodes hP hs ho
  unfold Repairable
  rw [← replicaTarget_eq]
  rcases le_or_gt (replicaTarget d.cfg)
    (listedReplicas w.records task.objectID task.version).length with henough | hmissing
  · refine ⟨fun _ => Or.inl henough, fun _ w' hx => ?_⟩
    cases houtcome hx with
    | placed missing _ _ _ => omega
    | enough _ hsame =>
      refine ⟨⟨listedReplicas w.records task.objectID task.version, ?_, ?_, hused⟩,
        fun n hn => hsame ▸ hn⟩
      · rw [hsame, atomically_listActiveReplicaLocations hs.typed]
        rfl
      · rwa [← replicaTarget_eq]
  · rw [or_iff_right (not_le.mpr hmissing), ← imp_iff_not_or,
      freshTargets_iff_nodup (sub_pos.mpr hmissing) hused]
    constructor
    · intro h hread hcount
      obtain ⟨w', hx⟩ := exists_repair hs hmissing hread hcount
      cases houtcome hx with
      | enough hrows _ => omega
      | placed _ _ _ hplaced => exact (repaired_iff_nodup hP hs ho hcount hplaced).mp (h w' hx)
    · intro h w' hx
      cases houtcome hx with
      | enough hrows _ => omega
      | placed _ hread hcount hplaced =>
        exact (repaired_iff_nodup hP hs ho hcount hplaced).mpr (h hread hcount)

end Runs

/-! ## A repair that finds a new node, and one that does not -/

/-- The cluster after a write to two nodes. -/
def twoCopies : World :=
  ((Api.writeReplicationAndLate {} [lit "n1", lit "n2"] (lit "a") [7, 7, 7, 7] []).run
    (serve {} calmWeather) World.empty).2

def repairTask : TaskRecord := newTask (lit "repair:a:7") (lit "a") 7 (lit "REPAIR") 100 0

theorem twoCopies_rows : Rows Coherence.SlashFree twoCopies.records :=
  rows_iff_entries.mpr (by decide +kernel)

theorem twoCopies_nodes : activeNodes twoCopies.records repairTask.objectID repairTask.version =
    [lit "n1", lit "n2"] := by
  decide +kernel

theorem twoCopies_missing : max 1 smallDeps.cfg.hotReplicaCount -
    (listedReplicas twoCopies.records repairTask.objectID repairTask.version).length = 1 := by
  decide +kernel

/-- With six healthy nodes the repair is complete. -/
theorem hot_repair_six_nodes : Repairable smallDeps repairTask sixNodes twoCopies ∧
    ∀ w', Exec (Reports smallDeps.cfg sixNodes) (processHOTRepair smallDeps repairTask) twoCopies
      (.ok ()) w' → Repaired smallDeps repairTask twoCopies w' := by
  have hid : Coherence.SlashFree repairTask.objectID := by decide +kernel
  have htrim : ∀ n ∈ sixNodes, trimSpace n = n := by decide +kernel
  have hspare : (spareNodes sixNodes [lit "n1", lit "n2"]).length = 4 := by decide +kernel
  have hfresh : Repairable smallDeps repairTask sixNodes twoCopies := by
    refine Or.inr (Or.inr ?_)
    rw [twoCopies_nodes, twoCopies_missing, freshTargets_iff htrim, hspare]
    exact Or.inl (by decide)
  exact ⟨hfresh, (hot_repair_complete separated_slashFree twoCopies_rows hid sixNodes).mpr hfresh⟩

/-- With the two nodes only, a copy is written again where one is, and the repair reports success
with two rows. -/
theorem hot_repair_same_node :
    ((processHOTRepair smallDeps repairTask).run
      (serve {} { calmWeather with healthy := [lit "n1", lit "n2"] }) twoCopies).1 = .ok () ∧
    (atomically (listActiveReplicaLocations (lit "a") 7) ((processHOTRepair smallDeps repairTask).run
      (serve {} { calmWeather with healthy := [lit "n1", lit "n2"] }) twoCopies).2.records).1 =
      .ok [⟨lit "n1", lit "hot/a/00000000000000000007", .active⟩,
        ⟨lit "n2", lit "hot/a/00000000000000000007", .active⟩] ∧
    max 1 smallDeps.cfg.hotReplicaCount = 3 := by
  decide +kernel

end TieredStore.Tiering
