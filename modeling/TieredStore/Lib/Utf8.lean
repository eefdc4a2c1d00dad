import Mathlib

/-!
# UTF-8

Byte strings and the well-formed UTF-8 sequences in them. `toValid` replaces every byte that is not
part of a well-formed sequence by the replacement character U+FFFD; this is what an encoder does
that can only write text. Its results are the strings that it leaves alone (`toValid_toValid`).
-/

namespace TieredStore.Lib.Utf8

/-- The byte is between two bounds. -/
def within (lo hi b : UInt8) : Bool := lo ≤ b && b ≤ hi

/-- A byte that continues a sequence. -/
def isTail (b : UInt8) : Bool := within 0x80 0xBF b

/-- The bytes that may follow the first byte of a sequence of three. -/
def second3 (b₀ b₁ : UInt8) : Bool :=
  if b₀ = 0xE0 then within 0xA0 0xBF b₁
  else if b₀ = 0xED then within 0x80 0x9F b₁
  else isTail b₁

/-- The bytes that may follow the first byte of a sequence of four. -/
def second4 (b₀ b₁ : UInt8) : Bool :=
  if b₀ = 0xF0 then within 0x90 0xBF b₁
  else if b₀ = 0xF4 then within 0x80 0x8F b₁
  else isTail b₁

/-- The well-formed sequences. -/
def isRune : List UInt8 → Bool
  | [b₀] => b₀ < 0x80
  | [b₀, b₁] => within 0xC2 0xDF b₀ && isTail b₁
  | [b₀, b₁, b₂] => within 0xE0 0xEF b₀ && second3 b₀ b₁ && isTail b₂
  | [b₀, b₁, b₂, b₃] => within 0xF0 0xF4 b₀ && second4 b₀ b₁ && isTail b₂ && isTail b₃
  | _ => false

/-- The length of the well-formed sequence at the front, and 0 when there is none. -/
def runeLength (s : List UInt8) : Nat :=
  if isRune (s.take 1) then 1
  else if isRune (s.take 2) then 2
  else if isRune (s.take 3) then 3
  else if isRune (s.take 4) then 4
  else 0

/-- The replacement character. -/
def replacement : List UInt8 := [0xEF, 0xBF, 0xBD]

/-- Copy the next `n` bytes, and then go on with sequences. -/
def toValidFrom : Nat → List UInt8 → List UInt8
  | _, [] => []
  | n + 1, b :: rest => b :: toValidFrom n rest
  | 0, b :: rest =>
    match runeLength (b :: rest) with
    | 0 => replacement ++ toValidFrom 0 rest
    | n + 1 => b :: toValidFrom n rest

/-- Replace what is not UTF-8. -/
def toValid (s : List UInt8) : List UInt8 := toValidFrom 0 s

/-- Well-formed UTF-8. -/
def Valid (s : List UInt8) : Prop := toValid s = s

instance (s : List UInt8) : Decidable (Valid s) := inferInstanceAs (Decidable (_ = _))

variable {s t : List UInt8} {b : UInt8} {n : Nat}

theorem toValidFrom_eq (n : Nat) (s : List UInt8) :
    toValidFrom n s = s.take n ++ toValid (s.drop n) := by
  induction n generalizing s with
  | zero => rfl
  | succ n ih =>
    cases s with
    | nil => rfl
    | cons b rest => simp [toValidFrom, ih]

@[simp] theorem toValid_nil : toValid [] = [] := rfl

theorem toValid_bad (h : runeLength (b :: s) = 0) :
    toValid (b :: s) = replacement ++ toValid s := by
  simp [toValid, toValidFrom, h]

theorem runeLength_le_length (s : List UInt8) : runeLength s ≤ s.length := by
  rcases s with _ | ⟨b₀, _ | ⟨b₁, _ | ⟨b₂, _ | ⟨b₃, s⟩⟩⟩⟩ <;> unfold runeLength <;>
    split_ifs <;> simp_all [show isRune [] = false from rfl]

theorem toValid_rune (h : runeLength s = n + 1) :
    toValid s = s.take (n + 1) ++ toValid (s.drop (n + 1)) := by
  have hlen := runeLength_le_length s
  cases s with
  | nil => simp [h] at hlen
  | cons b rest =>
    rw [toValid, toValidFrom]
    simp only [h]
    rw [toValidFrom_eq]
    rfl

/-- What comes after a sequence does not matter to it. -/
theorem runeLength_take_append (h : runeLength s = n + 1) (t : List UInt8) :
    runeLength (s.take (n + 1) ++ t) = n + 1 := by
  have hlen := runeLength_le_length s
  have htake : ∀ k ≤ n + 1, (s.take (n + 1) ++ t).take k = s.take k := by
    intro k hk
    rw [List.take_append_of_le_length (by rw [List.length_take]; omega), List.take_take,
      Nat.min_eq_left hk]
  unfold runeLength at h ⊢
  split_ifs at h with h₁ h₂ h₃ h₄
  · rw [htake 1 (by omega), if_pos h₁]
    exact h
  · rw [htake 1 (by omega), htake 2 (by omega), if_neg h₁, if_pos h₂]
    exact h
  · rw [htake 1 (by omega), htake 2 (by omega), htake 3 (by omega), if_neg h₁, if_neg h₂, if_pos h₃]
    exact h
  · rw [htake 1 (by omega), htake 2 (by omega), htake 3 (by omega), htake 4 (by omega), if_neg h₁,
      if_neg h₂, if_neg h₃, if_pos h₄]
    exact h

/-- A sequence in front of a string is copied. -/
theorem toValid_rune_append (h : runeLength s = n + 1) (t : List UInt8) :
    toValid (s.take (n + 1) ++ t) = s.take (n + 1) ++ toValid t := by
  have hlen : (s.take (n + 1)).length = n + 1 := by
    have := runeLength_le_length s
    rw [List.length_take]
    omega
  rw [toValid_rune (runeLength_take_append h t), List.take_left' hlen, List.drop_left' hlen]

theorem toValid_replacement_append (t : List UInt8) :
    toValid (replacement ++ t) = replacement ++ toValid t :=
  @toValid_rune_append replacement 2 rfl t

theorem toValid_toValid (s : List UInt8) : toValid (toValid s) = toValid s := by
  -- by the length of the string, one sequence or one bad byte at a time
  induction hn : s.length using Nat.strongRecOn generalizing s with
  | _ n ih =>
    cases s with
    | nil => rfl
    | cons b rest =>
      cases hrune : runeLength (b :: rest) with
      | zero =>
        rw [toValid_bad hrune, toValid_replacement_append,
          ih rest.length (by simp [← hn]) rest rfl]
      | succ k =>
        rw [toValid_rune hrune, toValid_rune_append hrune,
          ih _ (by simp [← hn]) ((b :: rest).drop (k + 1)) rfl]

theorem toValid_eq_nil : toValid s = [] ↔ s = [] := by
  refine ⟨fun h => ?_, fun h => by rw [h]; rfl⟩
  cases s with
  | nil => rfl
  | cons b rest =>
    cases hrune : runeLength (b :: rest) with
    | zero => simp [toValid_bad hrune, replacement] at h
    | succ k => simp [toValid_rune hrune] at h

theorem length_le_length_toValid (s : List UInt8) : s.length ≤ (toValid s).length := by
  induction hn : s.length using Nat.strongRecOn generalizing s with
  | _ n ih =>
    cases s with
    | nil => simp [← hn]
    | cons b rest =>
      cases hrune : runeLength (b :: rest) with
      | zero =>
        have hrest := ih rest.length (by simp [← hn]) rest rfl
        rw [toValid_bad hrune, List.length_append, show replacement.length = 3 from rfl]
        simp only [List.length_cons] at hn
        omega
      | succ k =>
        have hlen := runeLength_le_length (b :: rest)
        have hrest := ih _ (by simp [← hn]) ((b :: rest).drop (k + 1)) rfl
        rw [toValid_rune hrune, List.length_append, List.length_take]
        rw [List.length_drop] at hrest
        omega

theorem second3_of_not_tail {c : UInt8} (h : isTail c = false) : second3 b c = false := by
  unfold second3 isTail within at *
  simp only [Bool.and_eq_false_iff, decide_eq_false_iff_not, UInt8.le_iff_toNat_le] at h
  split_ifs <;> simp only [Bool.and_eq_false_iff, decide_eq_false_iff_not, UInt8.le_iff_toNat_le] <;>
    simp only [UInt8.reduceToNat] at * <;> omega

theorem second4_of_not_tail {c : UInt8} (h : isTail c = false) : second4 b c = false := by
  unfold second4 isTail within at *
  simp only [Bool.and_eq_false_iff, decide_eq_false_iff_not, UInt8.le_iff_toNat_le] at h
  split_ifs <;> simp only [Bool.and_eq_false_iff, decide_eq_false_iff_not, UInt8.le_iff_toNat_le] <;>
    simp only [UInt8.reduceToNat] at * <;> omega

/-- A sequence does not go on in a string that starts with another one. -/
theorem runeLength_append_of_bad (h : runeLength (b :: s) = 0)
    (ht : ∀ c ∈ t.head?, isTail c = false) : runeLength (b :: (s ++ t)) = 0 := by
  cases t with
  | nil => rwa [List.append_nil]
  | cons c t =>
    have hc : isTail c = false := ht c rfl
    have h3 : ∀ b, second3 b c = false := fun b => second3_of_not_tail hc
    have h4 : ∀ b, second4 b c = false := fun b => second4_of_not_tail hc
    rcases s with _ | ⟨b₁, _ | ⟨b₂, _ | ⟨b₃, s⟩⟩⟩ <;> rcases t with _ | ⟨c₁, _ | ⟨c₂, t⟩⟩ <;>
      simp_all [runeLength, isRune]

theorem toValid_append (ht : ∀ c ∈ t.head?, isTail c = false) :
    toValid (s ++ t) = toValid s ++ toValid t := by
  induction hn : s.length using Nat.strongRecOn generalizing s with
  | _ n ih =>
    cases s with
    | nil => rfl
    | cons b rest =>
      cases hrune : runeLength (b :: rest) with
      | zero =>
        rw [List.cons_append, toValid_bad (runeLength_append_of_bad hrune ht), toValid_bad hrune,
          ih rest.length (by simp [← hn]) rfl, List.append_assoc]
      | succ k =>
        have hrest := @ih _ (by simp [← hn]) ((b :: rest).drop (k + 1)) rfl
        conv_lhs => rw [← List.take_append_drop (k + 1) (b :: rest), List.append_assoc]
        rw [toValid_rune_append hrune, hrest, toValid_rune hrune, List.append_assoc]

/-- Text is text in front and text behind, where a sequence ends. -/
theorem valid_append (ht : ∀ c ∈ t.head?, isTail c = false) :
    Valid (s ++ t) ↔ Valid s ∧ Valid t := by
  unfold Valid
  rw [toValid_append ht]
  constructor
  · intro h
    have hs := length_le_length_toValid s
    have ht := length_le_length_toValid t
    have hlen := congrArg List.length h
    rw [List.length_append, List.length_append] at hlen
    exact List.append_inj h (by omega)
  · rintro ⟨hs, ht⟩
    rw [hs, ht]

theorem valid_ascii_append (h : ∀ b ∈ s, b < 0x80) : Valid (s ++ t) ↔ Valid t := by
  induction s with
  | nil => rfl
  | cons b rest ih =>
    have hrune : runeLength [b] = 0 + 1 := by simp [runeLength, isRune, h b List.mem_cons_self]
    have hcons : toValid (b :: (rest ++ t)) = b :: toValid (rest ++ t) :=
      toValid_rune_append hrune (rest ++ t)
    rw [← ih fun b' hb' => h b' (List.mem_cons_of_mem _ hb')]
    unfold Valid
    rw [List.cons_append, hcons, List.cons.injEq]
    exact and_iff_right rfl

/-- ASCII is text. -/
theorem valid_of_ascii (h : ∀ b ∈ s, b < 0x80) : Valid s := by
  have happend := (@valid_ascii_append s [] h).mpr toValid_nil
  rwa [List.append_nil] at happend

end TieredStore.Lib.Utf8
