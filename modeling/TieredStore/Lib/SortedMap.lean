import Mathlib

/-!
# Finite maps in key order

A finite map over a linear order, kept as the list of its entries in strictly
increasing key order, so that an iteration of the map is a walk over the list. Two maps
with the same lookups are equal (`SortedMap.ext`). A batch is a list of writes applied
in order; `lastWrite` is the write a batch leaves at a key, and `get?_applyAll` reads
the map after a batch from it.
-/

namespace TieredStore.Lib

/-- A finite map whose entries are listed in strictly increasing key order. -/
structure SortedMap (κ ν : Type) [LinearOrder κ] where
  entries : List (κ × ν)
  sorted : entries.Pairwise (fun a b => a.1 < b.1)

/-- One write of a batch: `none` deletes the key. -/
structure Write (κ ν : Type) where
  key : κ
  value : Option ν
  deriving DecidableEq

namespace Write

variable {κ ν : Type}

def set (k : κ) (v : ν) : Write κ ν := ⟨k, some v⟩

def del (k : κ) : Write κ ν := ⟨k, none⟩

@[simp] theorem key_set (k : κ) (v : ν) : (set k v).key = k := rfl

@[simp] theorem value_set (k : κ) (v : ν) : (set k v).value = some v := rfl

@[simp] theorem key_del (k : κ) : (del k : Write κ ν).key = k := rfl

@[simp] theorem value_del (k : κ) : (del k : Write κ ν).value = none := rfl

end Write

namespace SortedMap

variable {κ ν : Type} [LinearOrder κ]

/-! ## Lookup, insertion and removal on lists of entries -/

def find : List (κ × ν) → κ → Option ν
  | [], _ => none
  | e :: rest, k => if e.1 = k then some e.2 else find rest k

def place (k : κ) (v : ν) : List (κ × ν) → List (κ × ν)
  | [] => [(k, v)]
  | e :: rest =>
    if k < e.1 then (k, v) :: e :: rest
    else if e.1 = k then (k, v) :: rest
    else e :: place k v rest

theorem mem_place {k : κ} {v : ν} {l : List (κ × ν)} {e : κ × ν} (h : e ∈ place k v l) :
    e = (k, v) ∨ e ∈ l := by
  induction l with
  | nil => exact Or.inl (by simpa [place] using h)
  | cons a rest ih =>
    simp only [place] at h
    split at h
    · rcases List.mem_cons.mp h with h | h
      · exact Or.inl h
      · exact Or.inr h
    · split at h
      · rcases List.mem_cons.mp h with h | h
        · exact Or.inl h
        · exact Or.inr (List.mem_cons_of_mem _ h)
      · rcases List.mem_cons.mp h with h | h
        · exact Or.inr (h ▸ List.mem_cons_self)
        · rcases ih h with h | h
          · exact Or.inl h
          · exact Or.inr (List.mem_cons_of_mem _ h)

theorem pairwise_place {k : κ} {v : ν} {l : List (κ × ν)}
    (h : l.Pairwise (fun a b => a.1 < b.1)) : (place k v l).Pairwise (fun a b => a.1 < b.1) := by
  induction l with
  | nil => simp [place]
  | cons a rest ih =>
    obtain ⟨hHead, hRest⟩ := List.pairwise_cons.mp h
    simp only [place]
    split
    · rename_i hlt
      refine List.pairwise_cons.mpr ⟨?_, h⟩
      intro b hb
      rcases List.mem_cons.mp hb with rfl | hb
      · exact hlt
      · exact hlt.trans (hHead b hb)
    · split
      · rename_i heq
        refine List.pairwise_cons.mpr ⟨?_, hRest⟩
        intro b hb
        exact heq ▸ hHead b hb
      · rename_i hlt heq
        refine List.pairwise_cons.mpr ⟨?_, ih hRest⟩
        intro b hb
        rcases mem_place hb with rfl | hb
        · exact lt_of_le_of_ne (not_lt.mp hlt) heq
        · exact hHead b hb

theorem find_place (k : κ) (v : ν) (l : List (κ × ν)) (k' : κ) :
    find (place k v l) k' = if k' = k then some v else find l k' := by
  induction l with
  | nil => simp [place, find, eq_comm]
  | cons a rest ih =>
    simp only [place]
    split
    · simp [find, eq_comm]
    · split
      · rename_i heq
        simp only [find, heq]
        by_cases hk : k' = k
        · simp [hk]
        · simp [hk, Ne.symm hk]
      · rename_i heq
        simp only [find, ih]
        by_cases hk : k' = k
        · subst hk
          simp [heq]
        · simp [hk]

theorem find_filter (p : κ → Bool) (l : List (κ × ν)) (k : κ) :
    find (l.filter (fun e => p e.1)) k = if p k then find l k else none := by
  induction l with
  | nil => simp [find]
  | cons a rest ih =>
    by_cases ha : a.1 = k
    · subst ha
      cases hp : p a.1
      · rw [List.filter_cons_of_neg (by simp [hp]), ih]
        simp [hp]
      · rw [List.filter_cons_of_pos (by simp [hp])]
        simp [find]
    · cases hp : p a.1
      · rw [List.filter_cons_of_neg (by simp [hp]), ih]
        simp [find, ha]
      · rw [List.filter_cons_of_pos (by simp [hp])]
        simp only [find, ha, if_false, ih]

theorem mem_iff_find {l : List (κ × ν)} (h : l.Pairwise (fun a b => a.1 < b.1)) {k : κ} {v : ν} :
    (k, v) ∈ l ↔ find l k = some v := by
  induction l with
  | nil => simp [find]
  | cons a rest ih =>
    obtain ⟨hHead, hRest⟩ := List.pairwise_cons.mp h
    by_cases ha : a.1 = k
    · subst ha
      have hnot : (a.1, v) ∉ rest := fun hm => lt_irrefl a.1 (hHead (a.1, v) hm)
      simp only [find, if_true, List.mem_cons, hnot, or_false, Option.some.injEq]
      constructor
      · intro he
        exact (congrArg Prod.snd he).symm
      · rintro rfl
        rfl
    · have hne : (k, v) ≠ a := fun he => ha (congrArg Prod.fst he.symm)
      simp only [find, ha, if_false, List.mem_cons, hne, false_or]
      exact ih hRest

theorem entries_ext {l l' : List (κ × ν)} (h : l.Pairwise (fun a b => a.1 < b.1))
    (h' : l'.Pairwise (fun a b => a.1 < b.1)) (hf : ∀ k, find l k = find l' k) : l = l' := by
  have nodup : ∀ {m : List (κ × ν)}, m.Pairwise (fun a b => a.1 < b.1) → m.Nodup := by
    intro m hm
    refine List.Pairwise.imp ?_ hm
    rintro a b hlt rfl
    exact lt_irrefl a.1 hlt
  have hmem : ∀ e, e ∈ l ↔ e ∈ l' := by
    rintro ⟨k, v⟩
    rw [mem_iff_find h, mem_iff_find h', hf]
  have hperm := (List.perm_ext_iff_of_nodup (nodup h) (nodup h')).mpr hmem
  refine List.Perm.eq_of_pairwise ?_ h h' hperm
  intro a b _ _ hab hba
  exact absurd hab (not_lt_of_gt hba)

/-! ## The map operations -/

def empty : SortedMap κ ν := ⟨[], List.Pairwise.nil⟩

def get? (m : SortedMap κ ν) (k : κ) : Option ν := find m.entries k

def insert (m : SortedMap κ ν) (k : κ) (v : ν) : SortedMap κ ν :=
  ⟨place k v m.entries, pairwise_place m.sorted⟩

def erase (m : SortedMap κ ν) (k : κ) : SortedMap κ ν :=
  ⟨m.entries.filter (fun e => decide (e.1 ≠ k)), m.sorted.filter _⟩

theorem get?_insert (m : SortedMap κ ν) (k : κ) (v : ν) (k' : κ) :
    (m.insert k v).get? k' = if k' = k then some v else m.get? k' :=
  find_place k v m.entries k'

theorem get?_erase (m : SortedMap κ ν) (k k' : κ) :
    (m.erase k).get? k' = if k' = k then none else m.get? k' := by
  have h := find_filter (fun a => decide (a ≠ k)) m.entries k'
  simp only [get?, erase, h]
  by_cases hk : k' = k <;> simp [hk]

theorem mem_entries {m : SortedMap κ ν} {k : κ} {v : ν} :
    (k, v) ∈ m.entries ↔ m.get? k = some v := mem_iff_find m.sorted

theorem get?_of_mem_entries {m : SortedMap κ ν} {e : κ × ν} (h : e ∈ m.entries) :
    m.get? e.1 = some e.2 := mem_entries.mp h

theorem eq_of_entries {m m' : SortedMap κ ν} (h : m.entries = m'.entries) : m = m' := by
  cases m
  cases m'
  cases h
  rfl

@[ext] theorem ext {m m' : SortedMap κ ν} (h : ∀ k, m.get? k = m'.get? k) : m = m' := by
  have := entries_ext m.sorted m'.sorted h
  cases m
  cases m'
  simpa using this

/-! ## Batches -/

def apply (m : SortedMap κ ν) (w : Write κ ν) : SortedMap κ ν :=
  match w.value with
  | some v => m.insert w.key v
  | none => m.erase w.key

def applyAll (m : SortedMap κ ν) (ws : List (Write κ ν)) : SortedMap κ ν :=
  ws.foldl apply m

/-- What a batch leaves at a key: `none` when no write of the batch touches it. -/
def lastWrite : List (Write κ ν) → κ → Option (Option ν)
  | [], _ => none
  | w :: ws, k => (lastWrite ws k).or (if w.key = k then some w.value else none)

theorem get?_apply (m : SortedMap κ ν) (w : Write κ ν) (k : κ) :
    (m.apply w).get? k = if w.key = k then w.value else m.get? k := by
  unfold apply
  cases h : w.value with
  | none =>
    simp only [get?_erase, eq_comm]
  | some v =>
    simp only [get?_insert, eq_comm]

@[simp] theorem applyAll_nil (m : SortedMap κ ν) : m.applyAll [] = m := rfl

@[simp] theorem applyAll_cons (m : SortedMap κ ν) (w : Write κ ν) (ws : List (Write κ ν)) :
    m.applyAll (w :: ws) = (m.apply w).applyAll ws := rfl

theorem applyAll_append (m : SortedMap κ ν) (ws ws' : List (Write κ ν)) :
    m.applyAll (ws ++ ws') = (m.applyAll ws).applyAll ws' := List.foldl_append

theorem get?_applyAll (m : SortedMap κ ν) (ws : List (Write κ ν)) (k : κ) :
    (m.applyAll ws).get? k = (lastWrite ws k).getD (m.get? k) := by
  induction ws generalizing m with
  | nil => rfl
  | cons w ws ih =>
    rw [applyAll_cons, ih, get?_apply]
    simp only [lastWrite]
    cases lastWrite ws k with
    | some v => rfl
    | none => by_cases hk : w.key = k <;> simp [hk]

@[simp] theorem lastWrite_nil (k : κ) : lastWrite ([] : List (Write κ ν)) k = none := rfl

theorem lastWrite_cons (w : Write κ ν) (ws : List (Write κ ν)) (k : κ) :
    lastWrite (w :: ws) k = (lastWrite ws k).or (if w.key = k then some w.value else none) := rfl

theorem lastWrite_append (ws ws' : List (Write κ ν)) (k : κ) :
    lastWrite (ws ++ ws') k = (lastWrite ws' k).or (lastWrite ws k) := by
  induction ws with
  | nil => simp
  | cons w ws ih => simp [lastWrite_cons, ih, Option.or_assoc]

theorem lastWrite_eq_none {ws : List (Write κ ν)} {k : κ} (h : ∀ w ∈ ws, w.key ≠ k) :
    lastWrite ws k = none := by
  induction ws with
  | nil => rfl
  | cons w ws ih =>
    rw [lastWrite_cons, ih fun w' hw' => h w' (List.mem_cons_of_mem _ hw')]
    simp [h w List.mem_cons_self]

theorem lastWrite_ne_none {ws : List (Write κ ν)} {w : Write κ ν} {k : κ} (hw : w ∈ ws)
    (hk : w.key = k) : lastWrite ws k ≠ none := by
  induction ws with
  | nil => simp at hw
  | cons w' ws ih =>
    rw [lastWrite_cons]
    rcases List.mem_cons.mp hw with rfl | hw
    · cases lastWrite ws k <;> simp [hk]
    · have := ih hw
      cases hl : lastWrite ws k with
      | none => exact absurd hl this
      | some v => simp

theorem mem_of_lastWrite {ws : List (Write κ ν)} {k : κ} {v : Option ν}
    (h : lastWrite ws k = some v) : ∃ w ∈ ws, w.key = k ∧ w.value = v := by
  induction ws with
  | nil => simp at h
  | cons w ws ih =>
    rw [lastWrite_cons] at h
    cases hl : lastWrite ws k with
    | some v' =>
      rw [hl] at h
      obtain ⟨w', hw', hk, hv⟩ := ih (hl.trans (by simpa using h))
      exact ⟨w', List.mem_cons_of_mem _ hw', hk, hv⟩
    | none =>
      rw [hl] at h
      by_cases hk : w.key = k
      · simp only [hk, if_true, Option.none_or, Option.some.injEq] at h
        exact ⟨w, List.mem_cons_self, hk, h⟩
      · simp [hk] at h

/-- A batch that does not touch a key leaves its entry. -/
theorem get?_applyAll_of_untouched {m : SortedMap κ ν} {ws : List (Write κ ν)} {k : κ}
    (h : ∀ w ∈ ws, w.key ≠ k) : (m.applyAll ws).get? k = m.get? k := by
  rw [get?_applyAll, lastWrite_eq_none h]
  rfl

/-- A batch of deletions removes the keys it names. -/
theorem get?_applyAll_deletes {m : SortedMap κ ν} {ws : List (Write κ ν)}
    (h : ∀ w ∈ ws, w.value = none) (k : κ) [Decidable (∃ w ∈ ws, w.key = k)] :
    (m.applyAll ws).get? k = if ∃ w ∈ ws, w.key = k then none else m.get? k := by
  split
  · rename_i hk
    obtain ⟨w, hw, hk⟩ := hk
    rw [get?_applyAll]
    cases hl : lastWrite ws k with
    | none => exact absurd hl (lastWrite_ne_none hw hk)
    | some x =>
      obtain ⟨w', hw', -, rfl⟩ := mem_of_lastWrite hl
      exact h w' hw'
  · rename_i hk
    exact get?_applyAll_of_untouched fun w hw hwk => hk ⟨w, hw, hwk⟩

/-- Deleting keys that are not there changes nothing. -/
theorem applyAll_absent {m : SortedMap κ ν} {ws : List (Write κ ν)}
    (h : ∀ w ∈ ws, w.value = none ∧ m.get? w.key = none) : m.applyAll ws = m := by
  classical
  apply ext
  intro k
  rw [get?_applyAll_deletes fun w hw => (h w hw).1]
  split
  · rename_i hk
    obtain ⟨w, hw, rfl⟩ := hk
    exact (h w hw).2.symm
  · rfl

/-- After deletions that cover a key and insertions, the key is there when it was inserted. -/
theorem isSome_deletes_puts {m : SortedMap κ ν} {dels mid puts : List (Write κ ν)} {k : κ}
    (hdels : ∀ w ∈ dels, w.value = none) (hmid : ∀ w ∈ mid, w.key ≠ k)
    (hputs : ∀ w ∈ puts, w.value ≠ none) (hcover : (m.get? k).isSome → ∃ w ∈ dels, w.key = k) :
    ((m.applyAll (dels ++ mid ++ puts)).get? k).isSome ↔ ∃ w ∈ puts, w.key = k := by
  classical
  rw [applyAll_append, get?_applyAll, applyAll_append, get?_applyAll_of_untouched hmid,
    get?_applyAll_deletes hdels]
  constructor
  · intro h
    cases hl : lastWrite puts k with
    | some x =>
      obtain ⟨w, hw, hk, -⟩ := mem_of_lastWrite hl
      exact ⟨w, hw, hk⟩
    | none =>
      rw [hl, Option.getD_none] at h
      split at h
      · cases h
      · rename_i hnot
        exact absurd (hcover h) hnot
  · rintro ⟨w, hw, hk⟩
    cases hl : lastWrite puts k with
    | none => exact absurd hl (lastWrite_ne_none hw hk)
    | some x =>
      obtain ⟨w', hw', -, rfl⟩ := mem_of_lastWrite hl
      rw [Option.getD_some]
      exact Option.isSome_iff_ne_none.mpr (hputs w' hw')

/-- When all writes to a key agree, the key has their value afterwards. -/
theorem get?_applyAll_of_written {m : SortedMap κ ν} {ws : List (Write κ ν)} {k : κ} {x : Option ν}
    (h : ∀ w ∈ ws, w.key = k → w.value = x) (hmem : ∃ w ∈ ws, w.key = k) :
    (m.applyAll ws).get? k = x := by
  rw [get?_applyAll]
  cases hlast : lastWrite ws k with
  | none =>
    obtain ⟨w, hw, hk⟩ := hmem
    exact absurd hlast (lastWrite_ne_none hw hk)
  | some y =>
    obtain ⟨w, hw, hk, rfl⟩ := mem_of_lastWrite hlast
    exact h w hw hk

/-- Every entry after a batch is a write of the batch or an entry from before it. -/
theorem get?_applyAll_cases {m : SortedMap κ ν} {ws : List (Write κ ν)} {k : κ} {v : ν}
    (h : (m.applyAll ws).get? k = some v) : Write.set k v ∈ ws ∨ m.get? k = some v := by
  rw [get?_applyAll] at h
  cases hl : lastWrite ws k with
  | none =>
    rw [hl] at h
    exact Or.inr h
  | some o =>
    rw [hl] at h
    obtain ⟨w, hw, hk, hv⟩ := mem_of_lastWrite hl
    refine Or.inl ?_
    have : w = Write.set k v := by
      cases w
      simp only at hk hv
      simp only [Write.set, hk, hv]
      simpa using h
    exact this ▸ hw

end SortedMap

end TieredStore.Lib
