import TieredStore.Lib.SortedMap

/-!
# A store with write times, and logs in which events alternate

A store remembers for every key when it was last written, on a clock that counts commits. A
transaction reads a snapshot and may commit when nobody has written its keys since. A snapshot
stays valid at the keys that were not written after it (`Snapshot.write`), so what a committing
transaction read at a key that it writes is what the store holds there (`Snapshot.get`).

The second part is about a log that grows at its head: `Alternates A B` says that between any two
`A` events there is a `B` event, `Since A B` that there is one since the last `A` event.
-/

namespace TieredStore.Lib

/-- A store whose keys remember when they were last written. -/
structure Versioned (κ ν : Type) [LinearOrder κ] where
  rows : SortedMap κ ν
  clock : Nat
  writtenAt : κ → Nat
  bounded : ∀ k, writtenAt k ≤ clock

namespace Versioned

variable {κ ν : Type} [LinearOrder κ]

/-- A store that nobody has written yet. -/
def initial (rows : SortedMap κ ν) : Versioned κ ν := ⟨rows, 0, fun _ => 0, fun _ => le_refl 0⟩

/-- Commit a list of writes. -/
def write (m : Versioned κ ν) (ws : List (Write κ ν)) : Versioned κ ν where
  rows := m.rows.applyAll ws
  clock := m.clock + 1
  writtenAt k := if k ∈ ws.map (·.key) then m.clock + 1 else m.writtenAt k
  bounded k := by
    have := m.bounded k
    split <;> omega

/-- Nobody has written the keys of a transaction since its start. -/
def Unconflicted (m : Versioned κ ν) (start : Nat) (ws : List (Write κ ν)) : Prop :=
  ∀ w ∈ ws, m.writtenAt w.key ≤ start

instance (m : Versioned κ ν) (start : Nat) (ws : List (Write κ ν)) :
    Decidable (m.Unconflicted start ws) := inferInstanceAs (Decidable (∀ w ∈ ws, _))

/-- What was read at a time is still there at the keys that were not written since. -/
def Snapshot (m : Versioned κ ν) (start : Nat) (snap : SortedMap κ ν) : Prop :=
  start ≤ m.clock ∧ ∀ k, m.writtenAt k ≤ start → m.rows.get? k = snap.get? k

variable {m : Versioned κ ν} {start : Nat} {snap : SortedMap κ ν} {ws : List (Write κ ν)}

theorem snapshot_now (m : Versioned κ ν) : m.Snapshot m.clock m.rows :=
  ⟨le_refl _, fun _ _ => rfl⟩

theorem Snapshot.write (h : m.Snapshot start snap) (ws : List (Write κ ν)) :
    (m.write ws).Snapshot start snap := by
  refine ⟨Nat.le_succ_of_le h.1, ?_⟩
  intro k hk
  have hold : k ∉ ws.map (·.key) := by
    intro hmem
    simp only [Versioned.write, if_pos hmem] at hk
    have := h.1
    omega
  simp only [Versioned.write, if_neg hold] at hk
  rw [← h.2 k hk]
  refine SortedMap.get?_applyAll_of_untouched ?_
  rintro w hw rfl
  exact hold (List.mem_map_of_mem hw)

theorem Snapshot.get (h : m.Snapshot start snap) (hfree : m.Unconflicted start ws)
    {w : Write κ ν} (hw : w ∈ ws) : m.rows.get? w.key = snap.get? w.key :=
  h.2 _ (hfree w hw)

end Versioned

/-! ## Alternation -/

section Alternation

variable {ε : Type} {A B : ε → Prop} {e : ε} {l : List ε}

/-- Between any two `A` events of the log there is a `B` event. -/
def Alternates (A B : ε → Prop) (l : List ε) : Prop :=
  ∀ l₁ a l₂ b l₃, l = l₁ ++ a :: (l₂ ++ b :: l₃) → A a → A b → ∃ e ∈ l₂, B e

/-- Since any `A` event of the log there has been a `B` event; the newest event is the head. -/
def Since (A B : ε → Prop) (l : List ε) : Prop :=
  ∀ l₂ b l₃, l = l₂ ++ b :: l₃ → A b → ∃ e ∈ l₂, B e

theorem alternates_nil : Alternates A B [] := by
  intro l₁ a l₂ b l₃ h
  cases l₁ <;> cases h

theorem since_nil : Since A B [] := by
  intro l₂ b l₃ h
  cases l₂ <;> cases h

theorem Alternates.cons (h : Alternates A B l) (he : A e → Since A B l) :
    Alternates A B (e :: l) := by
  intro l₁ a l₂ b l₃ hl ha hb
  cases l₁ with
  | nil =>
    obtain ⟨rfl, rfl⟩ := List.cons.inj hl
    exact he ha l₂ b l₃ rfl hb
  | cons e' l₁ =>
    obtain ⟨rfl, rfl⟩ := List.cons.inj hl
    exact h l₁ a l₂ b l₃ rfl ha hb

/-- An event that is not `A` keeps what there has been since the last `A`. -/
theorem Since.cons (he : ¬ A e) (h : B e ∨ Since A B l) : Since A B (e :: l) := by
  intro l₂ b l₃ hl hb
  cases l₂ with
  | nil =>
    obtain ⟨rfl, rfl⟩ := List.cons.inj hl
    exact absurd hb he
  | cons e' l₂ =>
    obtain ⟨rfl, rfl⟩ := List.cons.inj hl
    rcases h with h | h
    · exact ⟨e, List.mem_cons_self, h⟩
    · obtain ⟨x, hx, hB⟩ := h l₂ b l₃ rfl hb
      exact ⟨x, List.mem_cons_of_mem _ hx, hB⟩

end Alternation

end TieredStore.Lib
