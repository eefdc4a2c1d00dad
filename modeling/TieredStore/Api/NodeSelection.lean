import TieredStore.Cluster.Selection
import TieredStore.Api.Objects

/-!
# Load-aware replica placement

`selectHotReplicaNodes` ranks all nodes and, when it knows their loads, sorts the ranking by load
before it takes the first nodes. Here the penalty of a load is any function and the loads are any
map. Among the nodes that the sort leaves out none has a smaller penalty, nor an equal one and an
earlier rank; without differences in load the selection is the plain one
(`selectHotReplicaNodes_refines`). The object routes select in this way
(`selectHotReplicaNodes_active`).
-/

namespace TieredStore.Api.NodeSelection

open Lib Cluster

/-- `hotReplicaCandidate`. -/
structure HotReplicaCandidate where
  nodeID : GoString
  rendezvousRank : Nat
  loadPenalty : Int

/-- The comparison of the stable sort. -/
def HotReplicaCandidate.less (a b : HotReplicaCandidate) : Bool :=
  if a.loadPenalty ≠ b.loadPenalty then decide (a.loadPenalty < b.loadPenalty)
  else if a.rendezvousRank ≠ b.rendezvousRank then decide (a.rendezvousRank < b.rendezvousRank)
  else decide (a.nodeID < b.nodeID)

section Select

variable {Load : Type} (rendezvousScore : GoString → GoString → UInt64)
  (hotReplicaLoadPenalty : Load → Int) (objectID : GoString) (allNodes : List GoString)
  (loads : List (GoString × Load)) (replicaTarget : Int) (loadAware : Bool)

/-- The penalty of a node, 0 when its load is not known. -/
def penaltyOf (nodeID : GoString) : Int :=
  match loads.lookup nodeID with
  | some load => hotReplicaLoadPenalty load
  | none => 0

def candidatesOf (ranked : List GoString) : List HotReplicaCandidate :=
  ranked.zipIdx.map fun e => ⟨e.1, e.2, penaltyOf hotReplicaLoadPenalty loads e.1⟩

def selectHotReplicaNodes : List GoString :=
  if replicaTarget ≤ 0 then []
  else
    let ranked := selectByRendezvous rendezvousScore (hotReplicaKey objectID) allNodes
      allNodes.length
    if !loadAware || loads.length = 0 || ranked.length ≤ replicaTarget then
      ranked.take (if replicaTarget > ranked.length then (ranked.length : Int)
        else replicaTarget).toNat
    else
      let candidates := (candidatesOf hotReplicaLoadPenalty loads ranked).insertionSort
        fun a b => ¬ b.less a
      (candidates.take (if replicaTarget > candidates.length then (candidates.length : Int)
        else replicaTarget).toNat).map (·.nodeID)

end Select

/-! ## The order of the candidates -/

namespace HotReplicaCandidate

/-- What the candidates are sorted by. -/
def sortKey (a : HotReplicaCandidate) : Int ×ₗ Nat ×ₗ GoString :=
  toLex (a.loadPenalty, toLex (a.rendezvousRank, a.nodeID))

theorem less_iff {a b : HotReplicaCandidate} : a.less b = true ↔ a.sortKey < b.sortKey := by
  unfold less sortKey
  rw [Prod.Lex.toLex_lt_toLex, Prod.Lex.toLex_lt_toLex]
  by_cases hload : a.loadPenalty = b.loadPenalty
  · by_cases hrank : a.rendezvousRank = b.rendezvousRank
    · simp [hload, hrank]
    · simp [hload, hrank]
  · simp [hload]

theorem not_less_iff {a b : HotReplicaCandidate} : ¬ b.less a = true ↔ a.sortKey ≤ b.sortKey := by
  rw [less_iff, not_lt]

instance : Std.Total (fun a b : HotReplicaCandidate => ¬ b.less a) :=
  ⟨fun a b => by
    rw [not_less_iff, not_less_iff]
    exact le_total _ _⟩

instance : IsTrans HotReplicaCandidate (fun a b => ¬ b.less a) :=
  ⟨fun a b c hab hbc => by
    rw [not_less_iff] at *
    exact hab.trans hbc⟩

end HotReplicaCandidate

/-! ## Candidates of a ranking -/

section Candidates

variable {Load : Type} (hotReplicaLoadPenalty : Load → Int) (loads : List (GoString × Load))
  (ranked : List GoString)

theorem map_nodeID_candidatesOf :
    (candidatesOf hotReplicaLoadPenalty loads ranked).map (·.nodeID) = ranked := by
  simp [candidatesOf, Function.comp_def, List.zipIdx_map_fst]

theorem mem_candidatesOf {c : HotReplicaCandidate} :
    c ∈ candidatesOf hotReplicaLoadPenalty loads ranked ↔
      ranked[c.rendezvousRank]? = some c.nodeID ∧
        c.loadPenalty = penaltyOf hotReplicaLoadPenalty loads c.nodeID := by
  unfold candidatesOf
  rw [List.mem_map]
  constructor
  · rintro ⟨⟨n, i⟩, hmem, rfl⟩
    exact ⟨List.mk_mem_zipIdx_iff_getElem?.mp hmem, rfl⟩
  · rintro ⟨hget, hload⟩
    refine ⟨(c.nodeID, c.rendezvousRank), List.mk_mem_zipIdx_iff_getElem?.mpr hget, ?_⟩
    rw [← hload]

/-- The candidates, sorted. -/
def byLoad : List HotReplicaCandidate :=
  (candidatesOf hotReplicaLoadPenalty loads ranked).insertionSort fun a b => ¬ b.less a

theorem byLoad_perm : (byLoad hotReplicaLoadPenalty loads ranked).Perm
    (candidatesOf hotReplicaLoadPenalty loads ranked) := List.perm_insertionSort _ _

theorem map_byLoad_perm :
    ((byLoad hotReplicaLoadPenalty loads ranked).map (·.nodeID)).Perm ranked := by
  have hperm := (byLoad_perm hotReplicaLoadPenalty loads ranked).map (·.nodeID)
  rwa [map_nodeID_candidatesOf] at hperm

theorem byLoad_pairwise : (byLoad hotReplicaLoadPenalty loads ranked).Pairwise
    (fun a b => a.sortKey ≤ b.sortKey) :=
  (List.pairwise_insertionSort (fun a b : HotReplicaCandidate => ¬ b.less a) _).imp
    HotReplicaCandidate.not_less_iff.mp

/-- Without differences in load the candidates stay in the order of the ranking. -/
theorem byLoad_of_equal (h : ∀ a ∈ ranked, ∀ b ∈ ranked,
      penaltyOf hotReplicaLoadPenalty loads a = penaltyOf hotReplicaLoadPenalty loads b) :
    (byLoad hotReplicaLoadPenalty loads ranked).map (·.nodeID) = ranked := by
  have hsorted : (candidatesOf hotReplicaLoadPenalty loads ranked).Pairwise
      (fun a b => ¬ b.less a) := by
    unfold candidatesOf
    rw [List.pairwise_map]
    have hlt : ranked.zipIdx.Pairwise (fun a b => a.2 < b.2) := by
      rw [← List.pairwise_map, List.zipIdx_map_snd]
      exact List.pairwise_lt_range'
    refine hlt.imp_of_mem ?_
    intro a b ha hb hlt
    have hload := h a.1 (List.fst_mem_of_mem_zipIdx ha) b.1 (List.fst_mem_of_mem_zipIdx hb)
    simp [HotReplicaCandidate.less, hload, hlt.ne', hlt.le]
  rw [byLoad, hsorted.insertionSort_eq, map_nodeID_candidatesOf]

/-- A node in front of the sorted candidates has the smaller penalty, or the same one and the
earlier rank. -/
theorem byLoad_front {f : GoString → UInt64} (hranked : ranked.Pairwise (rankedBefore f))
    (t : Nat) {a b : GoString}
    (ha : a ∈ ((byLoad hotReplicaLoadPenalty loads ranked).take t).map (·.nodeID))
    (hb : b ∈ ranked)
    (hbt : b ∉ ((byLoad hotReplicaLoadPenalty loads ranked).take t).map (·.nodeID)) :
    penaltyOf hotReplicaLoadPenalty loads a < penaltyOf hotReplicaLoadPenalty loads b ∨
      penaltyOf hotReplicaLoadPenalty loads a = penaltyOf hotReplicaLoadPenalty loads b ∧
        rankedBefore f a b := by
  obtain ⟨ca, hca, rfl⟩ := List.mem_map.mp ha
  obtain ⟨cb, hcb, rfl⟩ := List.mem_map.mp
    ((map_byLoad_perm hotReplicaLoadPenalty loads ranked).mem_iff.mpr hb)
  have hcand : ∀ c ∈ byLoad hotReplicaLoadPenalty loads ranked, _ := fun c hc =>
    (mem_candidatesOf hotReplicaLoadPenalty loads ranked).mp
      ((byLoad_perm hotReplicaLoadPenalty loads ranked).mem_iff.mp hc)
  obtain ⟨hranka, hloada⟩ := hcand ca (List.mem_of_mem_take hca)
  obtain ⟨hrankb, hloadb⟩ := hcand cb hcb
  have hdrop : cb ∈ (byLoad hotReplicaLoadPenalty loads ranked).drop t := by
    rw [← List.take_append_drop t (byLoad hotReplicaLoadPenalty loads ranked)] at hcb
    exact (List.mem_append.mp hcb).resolve_left fun h => hbt (List.mem_map_of_mem h)
  have hle : ca.sortKey ≤ cb.sortKey := by
    have hsorted := byLoad_pairwise hotReplicaLoadPenalty loads ranked
    rw [← List.take_append_drop t (byLoad hotReplicaLoadPenalty loads ranked)] at hsorted
    exact (List.pairwise_append.mp hsorted).2.2 ca hca cb hdrop
  rw [← hloada, ← hloadb]
  simp only [HotReplicaCandidate.sortKey, Prod.Lex.toLex_le_toLex] at hle
  refine hle.imp_right (And.imp_right fun hrank => ?_)
  -- the ranks are positions in the ranking, and the nodes differ
  have hne : ca.rendezvousRank ≠ cb.rendezvousRank := fun heq => by
    rw [heq, hrankb] at hranka
    exact hbt (Option.some.inj hranka ▸ ha)
  have hlt : ca.rendezvousRank < cb.rendezvousRank := by omega
  obtain ⟨hia, hgeta⟩ := List.getElem?_eq_some_iff.mp hranka
  obtain ⟨hib, hgetb⟩ := List.getElem?_eq_some_iff.mp hrankb
  have hbefore := List.pairwise_iff_getElem.mp hranked _ _ hia hib hlt
  rwa [hgeta, hgetb] at hbefore

end Candidates

/-! ## The selection -/

section Refines

variable {Load : Type} (rendezvousScore : GoString → GoString → UInt64)
  (hotReplicaLoadPenalty : Load → Int) (objectID : GoString) (allNodes : List GoString)
  (loads : List (GoString × Load)) (replicaTarget : Int) (loadAware : Bool)

/-- What load-aware placement selects. -/
structure RefinesPlain (selected : List GoString) : Prop where
  length_eq : (selected.length : Int) = min replicaTarget (nodeIDs allNodes).card
  nodup : selected.Nodup
  members : ∀ n ∈ selected, n ∈ nodeIDs allNodes
  least : loadAware = true → ∀ a ∈ selected, ∀ b ∈ nodeIDs allNodes, b ∉ selected →
    penaltyOf hotReplicaLoadPenalty loads a < penaltyOf hotReplicaLoadPenalty loads b ∨
      penaltyOf hotReplicaLoadPenalty loads a = penaltyOf hotReplicaLoadPenalty loads b ∧
        rankedBefore (rendezvousScore (hotReplicaKey objectID)) a b
  plain : (loadAware = false ∨ ∀ a ∈ nodeIDs allNodes, ∀ b ∈ nodeIDs allNodes,
      penaltyOf hotReplicaLoadPenalty loads a = penaltyOf hotReplicaLoadPenalty loads b) →
    selected = selectByRendezvous rendezvousScore (hotReplicaKey objectID) allNodes replicaTarget

theorem selectByRendezvous_all (key : GoString) :
    selectByRendezvous rendezvousScore key allNodes allNodes.length =
      ranking rendezvousScore key allNodes := by
  rw [selectByRendezvous_eq_take, Int.toNat_natCast]
  refine List.take_of_length_le ?_
  rw [ranking, (List.perm_insertionSort _ _).length_eq]
  exact length_uniqueSortedNodes_le allNodes

theorem take_target {β : Type} (l : List β) (target : Int) :
    l.take (if target > l.length then (l.length : Int) else target).toNat =
      l.take target.toNat := by
  split
  · rename_i h
    rw [Int.toNat_natCast, List.take_length, List.take_of_length_le (by omega)]
  · rfl

variable {replicaTarget} (htarget : 1 ≤ replicaTarget)
include htarget

/-- The selection is the front of the ranking, or of the candidates sorted by load. -/
theorem selectHotReplicaNodes_eq : selectHotReplicaNodes rendezvousScore hotReplicaLoadPenalty
      objectID allNodes loads replicaTarget loadAware =
    if !loadAware || loads.length = 0 ||
        (ranking rendezvousScore (hotReplicaKey objectID) allNodes).length ≤ replicaTarget then
      (ranking rendezvousScore (hotReplicaKey objectID) allNodes).take replicaTarget.toNat
    else ((byLoad hotReplicaLoadPenalty loads
      (ranking rendezvousScore (hotReplicaKey objectID) allNodes)).take replicaTarget.toNat).map
        (·.nodeID) := by
  unfold selectHotReplicaNodes
  rw [if_neg (by omega), selectByRendezvous_all]
  simp only [take_target]
  rfl

omit htarget in
theorem mem_ranking_take {t : Nat} {a b : GoString}
    (ha : a ∈ (ranking rendezvousScore (hotReplicaKey objectID) allNodes).take t)
    (hb : b ∈ nodeIDs allNodes)
    (hbt : b ∉ (ranking rendezvousScore (hotReplicaKey objectID) allNodes).take t) :
    rankedBefore (rendezvousScore (hotReplicaKey objectID)) a b := by
  have hb := (mem_ranking rendezvousScore (hotReplicaKey objectID) allNodes).mpr hb
  have hpairwise := ranking_pairwise rendezvousScore (hotReplicaKey objectID) allNodes
  rw [← List.take_append_drop t (ranking rendezvousScore _ allNodes)] at hb hpairwise
  exact (List.pairwise_append.mp hpairwise).2.2 a ha b ((List.mem_append.mp hb).resolve_left hbt)

/-- Load-aware placement takes the nodes with the least penalties and among those the plain
placement; where the load does not matter it is the plain placement. -/
theorem selectHotReplicaNodes_refines :
    RefinesPlain rendezvousScore hotReplicaLoadPenalty objectID allNodes loads replicaTarget
      loadAware (selectHotReplicaNodes rendezvousScore hotReplicaLoadPenalty objectID allNodes loads
        replicaTarget loadAware) := by
  have hlen := length_ranking rendezvousScore (hotReplicaKey objectID) allNodes
  have hnodup := ranking_nodup rendezvousScore (hotReplicaKey objectID) allNodes
  have hmem := fun n => @mem_ranking rendezvousScore (hotReplicaKey objectID) allNodes n
  rw [selectHotReplicaNodes_eq _ _ _ _ _ _ htarget]
  split
  · -- the load is not used
    rename_i hplain
    constructor
    · rw [List.length_take, hlen]
      omega
    · exact hnodup.sublist (List.take_sublist _ _)
    · exact fun n hn => (hmem n).mp (List.mem_of_mem_take hn)
    · intro haware a ha b hb hbt
      have hbefore := mem_ranking_take _ _ _ ha hb hbt
      by_cases hnone : loads = []
      · subst hnone
        exact Or.inr ⟨rfl, hbefore⟩
      · -- all nodes are selected
        have hall : (ranking rendezvousScore (hotReplicaKey objectID) allNodes).length ≤
            replicaTarget := by simpa [haware, hnone] using hplain
        rw [List.take_of_length_le (by omega)] at hbt
        exact absurd ((hmem b).mpr hb) hbt
    · intro _
      rw [selectByRendezvous_eq_take]
  · -- the candidates are sorted by load
    rename_i hload
    have hperm := map_byLoad_perm hotReplicaLoadPenalty loads
      (ranking rendezvousScore (hotReplicaKey objectID) allNodes)
    have haware : loadAware = true := by
      by_contra h
      simp [h] at hload
    constructor
    · rw [List.length_map, List.length_take, ← List.length_map (·.nodeID), hperm.length_eq, hlen]
      omega
    · rw [List.map_take]
      exact (hperm.nodup_iff.mpr hnodup).sublist (List.take_sublist _ _)
    · intro n hn
      rw [List.map_take] at hn
      exact (hmem n).mp (hperm.mem_iff.mp (List.mem_of_mem_take hn))
    · intro _ a ha b hb hbt
      exact byLoad_front _ _ _ (ranking_pairwise _ _ _) _ ha ((hmem b).mpr hb) hbt
    · rintro (h | hequal)
      · rw [haware] at h
        cases h
      · rw [List.map_take, byLoad_of_equal, selectByRendezvous_eq_take]
        exact fun a ha b hb => hequal a ((hmem a).mp ha) b ((hmem b).mp hb)

end Refines

/-- Two of three nodes, where the loaded one is left out. -/
theorem selectHotReplicaNodes_loaded :
    selectHotReplicaNodes (fun _ n => UInt64.ofNat n.length) (fun load : Int => load) (lit "a")
        [lit "n1", lit "n2", lit "n33"] [(lit "n33", 7)] 2 true = [lit "n1", lit "n2"] ∧
      RefinesPlain (fun _ n => UInt64.ofNat n.length) (fun load : Int => load) (lit "a")
        [lit "n1", lit "n2", lit "n33"] [(lit "n33", 7)] 2 true
        (selectHotReplicaNodes (fun _ n => UInt64.ofNat n.length) (fun load : Int => load) (lit "a")
          [lit "n1", lit "n2", lit "n33"] [(lit "n33", 7)] 2 true) :=
  ⟨by decide, selectHotReplicaNodes_refines _ _ _ _ _ _ (by norm_num)⟩

/-! ## The object routes -/

/-- The positions of a ranking are all different, so the ids of candidates are never compared. -/
theorem map_byLoad_eq {Load : Type} (hotReplicaLoadPenalty : Load → Int)
    (loads : List (GoString × Load)) (ranked : List GoString) :
    (byLoad hotReplicaLoadPenalty loads ranked).map (·.nodeID) =
      (ranked.zipIdx.insertionSort fun a b =>
        penaltyOf hotReplicaLoadPenalty loads a.1 < penaltyOf hotReplicaLoadPenalty loads b.1 ∨
          (penaltyOf hotReplicaLoadPenalty loads a.1 = penaltyOf hotReplicaLoadPenalty loads b.1 ∧
            a.2 ≤ b.2)).map (·.1) := by
  unfold byLoad candidatesOf
  rw [← List.map_insertionSort (fun a b : GoString × Nat =>
    penaltyOf hotReplicaLoadPenalty loads a.1 < penaltyOf hotReplicaLoadPenalty loads b.1 ∨
      (penaltyOf hotReplicaLoadPenalty loads a.1 = penaltyOf hotReplicaLoadPenalty loads b.1 ∧
        a.2 ≤ b.2)), List.map_map]
  · rfl
  · rintro ⟨a, i⟩ ha ⟨b, j⟩ hb
    have hsame : i = j → a = b := by
      rintro rfl
      have hget := (List.mk_mem_zipIdx_iff_getElem?.mp ha).symm.trans
        (List.mk_mem_zipIdx_iff_getElem?.mp hb)
      exact Option.some.inj hget
    rw [HotReplicaCandidate.not_less_iff]
    simp only [HotReplicaCandidate.sortKey, Prod.Lex.toLex_le_toLex]
    refine or_congr Iff.rfl (and_congr_right fun _ => ?_)
    constructor
    · intro hle
      exact hle.lt_or_eq.imp_right fun heq => ⟨heq, (hsame heq).le⟩
    · rintro (hlt | ⟨heq, -⟩)
      · exact hlt.le
      · exact heq.le

/-- The routes select in this way, with the penalties of the loads that they know. -/
theorem selectHotReplicaNodes_active {Load : Type} (d : Tiering.Deps)
    (hotReplicaLoadPenalty : Load → Int)
    (objectID : GoString) (allNodes : List GoString) (loads : List (GoString × Load))
    (replicaTarget : Int) (loadAware : Bool) :
    Api.selectHotReplicaNodes d objectID
        ⟨allNodes, if !loadAware || loads.length = 0 then none
          else some (penaltyOf hotReplicaLoadPenalty loads)⟩ replicaTarget =
      selectHotReplicaNodes d.rendezvousScore hotReplicaLoadPenalty objectID allNodes loads
        replicaTarget loadAware := by
  unfold Api.selectHotReplicaNodes
  by_cases htarget : replicaTarget ≤ 0
  · rw [if_pos htarget, selectHotReplicaNodes, if_pos htarget]
  · rw [if_neg htarget, selectHotReplicaNodes_eq _ _ _ _ _ _ (by omega), selectByRendezvous_all]
    by_cases hplain : (!loadAware || decide (loads.length = 0)) = true
    · simp only [hplain, if_true, Bool.true_or]
    · simp only [Bool.not_eq_true _ ▸ hplain, Bool.false_or, decide_eq_true_eq, Bool.false_eq_true,
        if_false, List.map_take, map_byLoad_eq]

end TieredStore.Api.NodeSelection
