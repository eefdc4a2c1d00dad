import TieredStore.Lib.Ranked
import TieredStore.Cluster.Placement

/-!
# Laws of the rendezvous selection

A selection is the front of a ranking, and the ranking is the one list of the given node ids that
is in the order of the scores. So a selection depends on the set of ids only, a longer selection
continues a shorter one, and a node that leaves the cluster leaves the ranking without moving the
others (`rendezvousLaws`).
-/

namespace TieredStore.Cluster

open Lib Lib.Bytes

variable (score : GoString → GoString → UInt64) (key : GoString) (nodes : List GoString)

/-- The trimmed, nonempty ids among nodes. -/
def nodeIDs (nodes : List GoString) : Finset GoString :=
  ((nodes.map trimSpace).filter (· ≠ [])).toFinset

/-- All node ids in the order of their scores. -/
def ranking : List GoString := (uniqueSortedNodes nodes).insertionSort (rankedBefore (score key))

/-- The nodes without one id. -/
def withoutNode (x : GoString) (nodes : List GoString) : List GoString :=
  nodes.filter (trimSpace · ≠ x)

/-! ## The ranking -/

theorem mem_nodeIDs {nodes : List GoString} {n : GoString} :
    n ∈ nodeIDs nodes ↔ n ∈ uniqueSortedNodes nodes := by
  rw [nodeIDs, List.mem_toFinset, uniqueSortedNodes, (List.perm_insertionSort _ _).mem_iff,
    List.mem_dedup]

theorem mem_ranking {n : GoString} : n ∈ ranking score key nodes ↔ n ∈ nodeIDs nodes := by
  rw [mem_nodeIDs]
  exact (List.perm_insertionSort _ _).mem_iff

theorem ranking_nodup : (ranking score key nodes).Nodup :=
  (List.perm_insertionSort _ _).nodup_iff.mpr (nodup_uniqueSortedNodes nodes)

theorem ranking_pairwise : (ranking score key nodes).Pairwise (rankedBefore (score key)) :=
  List.pairwise_insertionSort _ _

theorem length_ranking : (ranking score key nodes).length = (nodeIDs nodes).card := by
  rw [← List.toFinset_card_of_nodup (ranking_nodup score key nodes)]
  congr 1
  ext n
  rw [List.mem_toFinset, mem_ranking]

/-- A ranked list of the node ids is the ranking. -/
theorem eq_ranking {l : List GoString} (hnodup : l.Nodup)
    (hl : l.Pairwise (rankedBefore (score key))) (hmem : ∀ n, n ∈ l ↔ n ∈ nodeIDs nodes) :
    l = ranking score key nodes := by
  have hperm : l.Perm (ranking score key nodes) := by
    refine (List.perm_ext_iff_of_nodup hnodup (ranking_nodup score key nodes)).mpr fun n => ?_
    rw [hmem, mem_ranking]
  exact hperm.eq_of_pairwise (fun _ _ _ _ => rankedBefore_antisymm) hl
    (ranking_pairwise score key nodes)

theorem nodeIDs_withoutNode (x : GoString) :
    nodeIDs (withoutNode x nodes) = (nodeIDs nodes).erase x := by
  ext n
  simp only [mem_nodeIDs, mem_uniqueSortedNodes, withoutNode, List.mem_filter, Finset.mem_erase]
  constructor
  · rintro ⟨hne, n', ⟨hn', hx⟩, rfl⟩
    exact ⟨by simpa using hx, hne, n', hn', rfl⟩
  · rintro ⟨hx, hne, n', hn', rfl⟩
    exact ⟨hne, n', ⟨hn', by simpa using hx⟩, rfl⟩

theorem ranking_withoutNode (x : GoString) :
    ranking score key (withoutNode x nodes) = (ranking score key nodes).erase x := by
  have hnodup := ranking_nodup score key nodes
  refine (eq_ranking score key _ (hnodup.erase x) ?_ fun n => ?_).symm
  · exact (ranking_pairwise score key nodes).sublist List.erase_sublist
  · rw [hnodup.mem_erase_iff, mem_ranking, nodeIDs_withoutNode, Finset.mem_erase]

theorem selectByRendezvous_eq_take (count : Int) :
    selectByRendezvous score key nodes count = (ranking score key nodes).take count.toNat := by
  unfold selectByRendezvous
  split
  · rename_i h
    rcases Bool.or_eq_true _ _ ▸ h with h | h
    · rw [Int.toNat_of_nonpos (of_decide_eq_true h), List.take_zero]
    · obtain rfl : nodes = [] := of_decide_eq_true h
      simp [ranking, uniqueSortedNodes]
  · rfl

/-! ## The laws -/

/-- What a selection of `count` nodes is, and how it changes with the count and the nodes. -/
structure RendezvousLaws (count : Int) : Prop where
  set_only : ∀ nodes', nodeIDs nodes' = nodeIDs nodes →
    selectByRendezvous score key nodes' count = selectByRendezvous score key nodes count
  length_eq : ((selectByRendezvous score key nodes count).length : Int) =
    max 0 (min count (nodeIDs nodes).card)
  nodup : (selectByRendezvous score key nodes count).Nodup
  members : ∀ n ∈ selectByRendezvous score key nodes count, n ∈ nodeIDs nodes
  grows : selectByRendezvous score key nodes count <+: selectByRendezvous score key nodes (count + 1)
  removal : ∀ x, selectByRendezvous score key (withoutNode x nodes) count =
    ((selectByRendezvous score key nodes (count + 1)).erase x).take count.toNat
  unselected : ∀ x, x ∉ selectByRendezvous score key nodes count →
    selectByRendezvous score key (withoutNode x nodes) count =
      selectByRendezvous score key nodes count
  selected : ∀ x, x ∈ selectByRendezvous score key nodes count → ∃ replacement,
    selectByRendezvous score key (withoutNode x nodes) count =
      (selectByRendezvous score key nodes count).erase x ++ replacement ∧
    replacement.length = (if count < (nodeIDs nodes).card then 1 else 0) ∧
    ∀ n ∈ replacement, n ∉ selectByRendezvous score key nodes count

/-- The laws hold for every score, with ties too, and every count. -/
theorem rendezvousLaws (count : Int) : RendezvousLaws score key nodes count := by
  have hlen := length_ranking score key nodes
  have hnodup := ranking_nodup score key nodes
  constructor
  · intro nodes' hids
    rw [selectByRendezvous_eq_take, selectByRendezvous_eq_take]
    congr 1
    refine eq_ranking score key nodes (ranking_nodup score key nodes')
      (ranking_pairwise score key nodes') fun n => ?_
    rw [mem_ranking, hids]
  · rw [selectByRendezvous_eq_take, List.length_take, hlen]
    omega
  · rw [selectByRendezvous_eq_take]
    exact hnodup.sublist (List.take_sublist _ _)
  · intro n hn
    rw [selectByRendezvous_eq_take] at hn
    exact (mem_ranking score key nodes).mp (List.mem_of_mem_take hn)
  · rw [selectByRendezvous_eq_take, selectByRendezvous_eq_take]
    exact List.take_prefix_take_left (by omega)
  · intro x
    simp only [selectByRendezvous_eq_take, ranking_withoutNode]
    rcases Int.lt_or_le count 0 with hneg | hpos
    · simp [Int.toNat_of_nonpos hneg.le]
    · rw [show (count + 1).toNat = count.toNat + 1 by omega, take_erase]
  · intro x hx
    simp only [selectByRendezvous_eq_take, ranking_withoutNode] at hx ⊢
    exact take_erase_of_not_mem hx
  · intro x hx
    simp only [selectByRendezvous_eq_take, ranking_withoutNode] at hx ⊢
    have hpos : 0 < count.toNat := by
      rcases Nat.eq_zero_or_pos count.toNat with h | h
      · simp [h] at hx
      · exact h
    refine ⟨_, take_erase_of_mem hx, ?_, fun n hn hfront => ?_⟩
    · rw [List.length_drop, List.length_take, hlen]
      split <;> omega
    · -- the ranking has no node twice
      rw [List.drop_take] at hn
      exact List.disjoint_take_drop hnodup (Nat.le_refl _) hfront (List.mem_of_mem_take hn)

end TieredStore.Cluster
