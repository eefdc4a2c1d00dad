import Mathlib.Data.List.Pairwise
import Mathlib.Data.List.Count

/-!
# Ranks in a sorted list

In a list that is sorted by an asymmetric relation, the position of an entry is the number of
entries before it. So the first `c` entries are those with fewer than `c` entries before them.
When an entry leaves the list, the one behind the first `c` moves up (`take_erase_of_mem`), or the
first `c` stay (`take_erase_of_not_mem`).
-/

namespace TieredStore.Lib

variable {α : Type} {R : α → α → Prop} [DecidableRel R] {l : List α} {a : α}

theorem countP_before_head (hasymm : ∀ a b, R a b → ¬ R b a) (hl : (a :: l).Pairwise R) :
    (a :: l).countP (fun b => R b a) = 0 := by
  rw [List.countP_eq_zero]
  intro b hb
  rw [decide_eq_true_eq]
  rcases List.mem_cons.mp hb with rfl | hb
  · exact fun h => hasymm b b h h
  · exact hasymm a b ((List.pairwise_cons.mp hl).1 b hb)

theorem mem_take_iff_count (hasymm : ∀ a b, R a b → ¬ R b a) (hl : l.Pairwise R) (ha : a ∈ l)
    (c : Nat) : a ∈ l.take c ↔ l.countP (fun b => R b a) < c := by
  induction l generalizing c with
  | nil => simp at ha
  | cons b l ih =>
    cases c with
    | zero => simp
    | succ c =>
      by_cases hab : a = b
      · subst hab
        rw [countP_before_head hasymm hl]
        simp
      · have hal := (List.mem_cons.mp ha).resolve_left hab
        obtain ⟨hb, hl⟩ := List.pairwise_cons.mp hl
        rw [List.take_succ_cons, List.mem_cons, or_iff_right hab, ih hl hal,
          List.countP_cons_of_pos (by simpa using hb a hal), Nat.succ_lt_succ_iff]

theorem mem_drop_iff_count (hasymm : ∀ a b, R a b → ¬ R b a) (hl : l.Pairwise R) (ha : a ∈ l)
    (c : Nat) : a ∈ l.drop c ↔ c ≤ l.countP (fun b => R b a) := by
  have hnodup : l.Nodup := hl.imp fun h heq => by
    subst heq
    exact hasymm _ _ h h
  have hapart : a ∈ l.take c ↔ a ∉ l.drop c := by
    constructor
    · exact fun htake hdrop => List.disjoint_take_drop hnodup (Nat.le_refl c) htake hdrop
    · intro hdrop
      rw [← List.take_append_drop c l] at ha
      exact (List.mem_append.mp ha).resolve_right hdrop
  rw [← Nat.not_lt, ← mem_take_iff_count hasymm hl ha c, hapart, not_not]

/-! ## An entry that leaves the list -/

section Erase

variable [BEq α] [LawfulBEq α]

theorem take_erase_of_not_mem {c : Nat} (h : a ∉ l.take c) : (l.erase a).take c = l.take c := by
  induction l generalizing c with
  | nil => simp
  | cons b l ih =>
    cases c with
    | zero => simp
    | succ c =>
      rw [List.take_succ_cons, List.mem_cons, not_or] at h
      rw [List.erase_cons_tail (by simpa using Ne.symm h.1), List.take_succ_cons,
        List.take_succ_cons, ih h.2]

theorem take_erase_of_mem {c : Nat} (h : a ∈ l.take c) :
    (l.erase a).take c = (l.take c).erase a ++ (l.take (c + 1)).drop c := by
  induction l generalizing c with
  | nil => simp at h
  | cons b l ih =>
    cases c with
    | zero => simp at h
    | succ c =>
      rw [List.take_succ_cons, List.take_succ_cons, List.drop_succ_cons]
      by_cases hb : b = a
      · subst hb
        rw [List.erase_cons_head, List.erase_cons_head]
        conv_lhs => rw [← List.take_append_drop c (l.take (c + 1))]
        rw [List.take_take, Nat.min_eq_left (Nat.le_succ c)]
      · have hl : a ∈ l.take c := (List.mem_cons.mp h).resolve_left (Ne.symm hb)
        rw [List.erase_cons_tail (by simpa using hb), List.erase_cons_tail (by simpa using hb),
          List.take_succ_cons, ih hl, List.cons_append]

theorem take_erase (a : α) (l : List α) (c : Nat) :
    (l.erase a).take c = ((l.take (c + 1)).erase a).take c := by
  by_cases h : a ∈ l.take c
  · have htake : a ∈ (l.take (c + 1)).take c := by
      rw [List.take_take, Nat.min_eq_left (Nat.le_succ c)]
      exact h
    rw [take_erase_of_mem h, take_erase_of_mem htake, List.take_take, List.take_take,
      Nat.min_eq_left (Nat.le_succ c), Nat.min_self]
  · have htake : a ∉ (l.take (c + 1)).take c := by
      rw [List.take_take, Nat.min_eq_left (Nat.le_succ c)]
      exact h
    rw [take_erase_of_not_mem h, take_erase_of_not_mem htake, List.take_take,
      Nat.min_eq_left (Nat.le_succ c)]

end Erase

end TieredStore.Lib
