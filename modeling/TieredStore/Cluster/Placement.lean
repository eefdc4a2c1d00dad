import TieredStore.Lib.Bytes

/-!
# Rendezvous placement

`selectByRendezvous` ranks nodes by a score of the key and the node, and takes the first ones. The
score is an arbitrary function here. The selection is a list of distinct, trimmed, nonempty node
ids taken from the given ones (`selectByRendezvous_nodup`, `mem_selectByRendezvous`), and it is as
long as asked when there are enough nodes (`length_selectByRendezvous`). A node is selected exactly
when fewer nodes than asked are ranked before it (`mem_selectByRendezvous_iff`).
-/

namespace TieredStore.Cluster

open Lib Lib.Bytes

/-- The trimmed, nonempty node ids without repetition, in order. -/
def uniqueSortedNodes (nodes : List GoString) : List GoString :=
  ((nodes.map trimSpace).filter (· ≠ [])).dedup.insertionSort fun a b => ¬ b < a

/-- The order of the ranking: higher scores first, then smaller ids. -/
def rankedBefore (score : GoString → UInt64) (a b : GoString) : Prop :=
  score b < score a ∨ (score a = score b ∧ ¬ b < a)

instance (score : GoString → UInt64) : DecidableRel (rankedBefore score) := fun a b => by
  unfold rankedBefore
  infer_instance

def selectByRendezvous (rendezvousScore : GoString → GoString → UInt64) (key : GoString)
    (nodes : List GoString) (count : Int) : List GoString :=
  if count ≤ 0 || nodes = [] then []
  else ((uniqueSortedNodes nodes).insertionSort (rankedBefore (rendezvousScore key))).take
    count.toNat

def hotReplicaKey (objectID : GoString) : GoString := lit "hot:" ++ trimSpace objectID

/-- A placement key that names a version. -/
def versionedKey (kind objectID : GoString) (version : Int) : GoString :=
  kind ++ lit ":" ++ trimSpace objectID ++ lit ":" ++ padInt 20 version

def ecShardKey (objectID : GoString) (version : Int) : GoString :=
  versionedKey (lit "ec") objectID version

def hotRepairKey (objectID : GoString) (version : Int) : GoString :=
  versionedKey (lit "hot-repair") objectID version

def ecRepairKey (objectID : GoString) (version : Int) : GoString :=
  versionedKey (lit "ec-repair") objectID version

section Select

variable {score : GoString → GoString → UInt64} {key : GoString} {nodes : List GoString} {count : Int}

theorem mem_uniqueSortedNodes {n : GoString} :
    n ∈ uniqueSortedNodes nodes ↔ n ≠ [] ∧ ∃ n' ∈ nodes, trimSpace n' = n := by
  unfold uniqueSortedNodes
  rw [(List.perm_insertionSort _ _).mem_iff, List.mem_dedup, List.mem_filter, List.mem_map]
  simp [and_comm]

theorem nodup_uniqueSortedNodes (nodes : List GoString) : (uniqueSortedNodes nodes).Nodup :=
  (List.perm_insertionSort _ _).nodup_iff.mpr (List.nodup_dedup _)

theorem length_uniqueSortedNodes_le (nodes : List GoString) :
    (uniqueSortedNodes nodes).length ≤ nodes.length := by
  unfold uniqueSortedNodes
  rw [(List.perm_insertionSort _ _).length_eq]
  calc _ ≤ ((nodes.map trimSpace).filter (· ≠ [])).length := (List.dedup_sublist _).length_le
    _ ≤ (nodes.map trimSpace).length := List.length_filter_le _ _
    _ = nodes.length := List.length_map _

theorem mem_selectByRendezvous {n : GoString} (h : n ∈ selectByRendezvous score key nodes count) :
    n ≠ [] ∧ ∃ n' ∈ nodes, trimSpace n' = n := by
  unfold selectByRendezvous at h
  split at h
  · simp at h
  · exact mem_uniqueSortedNodes.mp ((List.perm_insertionSort _ _).mem_iff.mp (List.mem_of_mem_take h))

theorem selectByRendezvous_nodup : (selectByRendezvous score key nodes count).Nodup := by
  unfold selectByRendezvous
  split
  · exact List.nodup_nil
  · exact ((List.perm_insertionSort _ _).nodup_iff.mpr (nodup_uniqueSortedNodes nodes)).sublist
      (List.take_sublist _ _)

theorem length_selectByRendezvous (hcount : 0 ≤ count) :
    ((selectByRendezvous score key nodes count).length : Int) =
      min count (uniqueSortedNodes nodes).length := by
  unfold selectByRendezvous
  split
  · rename_i h
    rcases Bool.or_eq_true _ _ ▸ h with h | h
    · have hzero : count = 0 := le_antisymm (of_decide_eq_true h) hcount
      simp [hzero]
    · obtain rfl : nodes = [] := of_decide_eq_true h
      simpa [uniqueSortedNodes] using hcount
  · rw [List.length_take, (List.perm_insertionSort _ _).length_eq]
    omega

/-! ### Ranks -/

theorem rankedBefore_iff {f : GoString → UInt64} {a b : GoString} : rankedBefore f a b ↔
    (f b).toNat < (f a).toNat ∨ ((f a).toNat = (f b).toNat ∧ a ≤ b) := by
  rw [rankedBefore, UInt64.lt_iff_toNat_lt, ← UInt64.toNat_inj, not_lt]

theorem rankedBefore_antisymm {f : GoString → UInt64} {a b : GoString} (h : rankedBefore f a b)
    (h' : rankedBefore f b a) : a = b := by
  rw [rankedBefore_iff] at h h'
  rcases h with h | ⟨heq, h⟩
  · omega
  · rcases h' with h' | ⟨-, h'⟩
    · omega
    · exact le_antisymm h h'

instance (f : GoString → UInt64) : Std.Total (rankedBefore f) := by
  refine ⟨fun a b => ?_⟩
  rw [rankedBefore_iff, rankedBefore_iff]
  rcases le_total a b with hab | hab
  · rcases Nat.lt_or_ge (f a).toNat (f b).toNat with h | h
    · exact Or.inr (Or.inl h)
    · exact Or.inl (h.lt_or_eq.imp_right fun heq => ⟨heq.symm, hab⟩)
  · rcases Nat.lt_or_ge (f b).toNat (f a).toNat with h | h
    · exact Or.inl (Or.inl h)
    · exact Or.inr (h.lt_or_eq.imp_right fun heq => ⟨heq.symm, hab⟩)

instance (f : GoString → UInt64) : IsTrans GoString (rankedBefore f) := by
  refine ⟨fun a b c hab hbc => ?_⟩
  rw [rankedBefore_iff] at *
  rcases hab with hab | ⟨heq, hab⟩
  · left
    omega
  · rcases hbc with hbc | ⟨heq', hbc⟩
    · left
      omega
    · exact Or.inr ⟨heq.trans heq', hab.trans hbc⟩

/-- How many nodes of a list are ranked before a node. -/
def rank (f : GoString → UInt64) (nodes : List GoString) (n : GoString) : Nat :=
  (nodes.filter fun m => m ≠ n ∧ rankedBefore f m n).length

/-- In a ranked list the first `c` nodes are those with fewer than `c` nodes before them. -/
theorem mem_take_iff_rank {f : GoString → UInt64} {l : List GoString}
    (hl : l.Pairwise (rankedBefore f)) (hnodup : l.Nodup) {n : GoString} (hn : n ∈ l) (c : Nat) :
    n ∈ l.take c ↔ rank f l n < c := by
  unfold rank
  induction l generalizing c with
  | nil => simp at hn
  | cons a l ih =>
    obtain ⟨ha, hl⟩ := List.pairwise_cons.mp hl
    obtain ⟨hal, hnodup⟩ := List.nodup_cons.mp hnodup
    cases c with
    | zero => simp
    | succ c =>
      by_cases hna : n = a
      · -- nothing is ranked before the first node
        subst hna
        have hnone : (l.filter fun m => m ≠ n ∧ rankedBefore f m n) = [] := by
          refine List.filter_eq_nil_iff.mpr fun m hm h => ?_
          obtain ⟨hne, hbefore⟩ := of_decide_eq_true h
          exact hne (rankedBefore_antisymm hbefore (ha m hm))
        rw [List.filter_cons_of_neg (by simp), hnone]
        simp
      · have hnl : n ∈ l := (List.mem_cons.mp hn).resolve_left hna
        rw [List.take_succ_cons, List.mem_cons, or_iff_right hna, ih hl hnodup hnl,
          List.filter_cons_of_pos (by simp [Ne.symm hna, ha n hnl]), List.length_cons,
          Nat.succ_lt_succ_iff]

theorem rank_perm {f : GoString → UInt64} {l l' : List GoString} (h : l.Perm l') (n : GoString) :
    rank f l n = rank f l' n := (h.filter _).length_eq

/-- A node is selected exactly when fewer nodes than asked are ranked before it. -/
theorem mem_selectByRendezvous_iff {n : GoString} :
    n ∈ selectByRendezvous score key nodes count ↔ n ∈ uniqueSortedNodes nodes ∧
      (rank (score key) (uniqueSortedNodes nodes) n : Int) < count := by
  unfold selectByRendezvous
  split
  · rename_i h
    rcases Bool.or_eq_true _ _ ▸ h with h | h
    · have hle : count ≤ 0 := of_decide_eq_true h
      simp only [List.not_mem_nil, false_iff]
      omega
    · obtain rfl : nodes = [] := of_decide_eq_true h
      simp [uniqueSortedNodes]
  · rename_i h
    have hpos : ¬ count ≤ 0 := fun hle => h (by simp [hle])
    have hperm := List.perm_insertionSort (rankedBefore (score key)) (uniqueSortedNodes nodes)
    constructor
    · intro hn
      have hmem := List.mem_of_mem_take hn
      rw [mem_take_iff_rank (List.pairwise_insertionSort _ _)
        (hperm.nodup_iff.mpr (nodup_uniqueSortedNodes nodes)) hmem, rank_perm hperm] at hn
      exact ⟨hperm.mem_iff.mp hmem, by omega⟩
    · rintro ⟨hmem, hrank⟩
      rw [mem_take_iff_rank (List.pairwise_insertionSort _ _)
        (hperm.nodup_iff.mpr (nodup_uniqueSortedNodes nodes)) (hperm.mem_iff.mpr hmem),
        rank_perm hperm]
      omega

end Select

end TieredStore.Cluster
