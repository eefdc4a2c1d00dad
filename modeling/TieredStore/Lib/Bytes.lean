import Mathlib

/-!
# Byte strings

Strings of the source are byte strings. This module has what their keys and numbers
need: the bytewise order, decimal numbers with and without padding, fields separated by
one byte, and the removal of surrounding white space.

Two facts carry most of the later arguments about keys: a number is recovered from its
decimal text (`decimalValue_padInt`), and a field that does not contain the separator
can be split off the front of a string in one way only (`append_sep_inj`).
-/

namespace TieredStore.Lib

instance uint8LinearOrder : LinearOrder UInt8 where
  le_refl := UInt8.le_refl
  le_trans := fun _ _ _ => UInt8.le_trans
  le_antisymm := fun _ _ => UInt8.le_antisymm
  le_total := UInt8.le_total
  lt_iff_le_not_ge := fun a b => by
    simp only [UInt8.lt_iff_toNat_lt, UInt8.le_iff_toNat_le]
    omega
  toDecidableLE := inferInstance
  toDecidableEq := inferInstance
  toDecidableLT := inferInstance

/-- A string of the source: any sequence of bytes. -/
abbrev GoString := List UInt8

/-- The bytes of a stored object or shard. -/
abbrev Blob := List UInt8

/-- Membership by name: a definition that tests it holds no proof of its own. -/
instance GoString.decidableMem (x : GoString) (l : List GoString) : Decidable (x ∈ l) :=
  inferInstance

/-- The bytes of an ASCII literal. -/
def lit (s : String) : GoString := s.toList.map fun c => UInt8.ofNat c.toNat

namespace Bytes

/-! ## Fields -/

theorem append_sep_inj {sep : UInt8} {a b x y : GoString} (ha : sep ∉ a) (hb : sep ∉ b)
    (h : a ++ sep :: x = b ++ sep :: y) : a = b ∧ x = y := by
  induction a generalizing b with
  | nil =>
    cases b with
    | nil => exact ⟨rfl, by simpa using h⟩
    | cons c b =>
      simp only [List.nil_append, List.cons_append, List.cons.injEq] at h
      exact absurd (h.1 ▸ List.mem_cons_self) hb
  | cons c a ih =>
    cases b with
    | nil =>
      simp only [List.nil_append, List.cons_append, List.cons.injEq] at h
      exact absurd (h.1 ▸ List.mem_cons_self) ha
    | cons d b =>
      simp only [List.cons_append, List.cons.injEq] at h
      obtain ⟨rfl, h⟩ := h
      have ha' : sep ∉ a := fun hm => ha (List.mem_cons_of_mem _ hm)
      have hb' : sep ∉ b := fun hm => hb (List.mem_cons_of_mem _ hm)
      obtain ⟨rfl, hxy⟩ := ih ha' hb' h
      exact ⟨rfl, hxy⟩

/-- The same at the back: the last field is determined when it has no separator. -/
theorem append_sep_inj_right {sep : UInt8} {a b x y : GoString} (hx : sep ∉ x) (hy : sep ∉ y)
    (h : a ++ sep :: x = b ++ sep :: y) : a = b ∧ x = y := by
  have hrev := congrArg List.reverse h
  simp only [List.reverse_append, List.reverse_cons, List.append_assoc, List.singleton_append]
    at hrev
  obtain ⟨hxy, hab⟩ := append_sep_inj (by simpa using hx) (by simpa using hy) hrev
  exact ⟨List.reverse_injective hab, List.reverse_injective hxy⟩

/-! ## Decimal numbers -/

/-- The decimal digits of `n`, most significant first, for `n < 10 ^ fuel`. -/
def digitsUpTo : Nat → Nat → GoString
  | 0, _ => []
  | fuel + 1, n =>
    if n < 10 then [UInt8.ofNat (48 + n)]
    else digitsUpTo fuel (n / 10) ++ [UInt8.ofNat (48 + n % 10)]

/-- The decimal text of a natural number. -/
def natText (n : Nat) : GoString := digitsUpTo (n + 1) n

/-- The value of a sequence of decimal digits. -/
def decimalNat (s : GoString) : Nat := s.foldl (fun acc c => 10 * acc + (c.toNat - 48)) 0

def isDigit (c : UInt8) : Bool := 48 ≤ c.toNat && c.toNat ≤ 57

/-- The decimal text of an integer, as `strconv.FormatInt` in base 10. -/
def formatInt (v : Int) : GoString :=
  if v < 0 then 45 :: natText v.natAbs else natText v.natAbs

/-- The decimal text padded with zeros to a total width, as the verb `%0<width>d`: the
sign counts for the width. -/
def padInt (width : Nat) (v : Int) : GoString :=
  if v < 0 then
    45 :: (List.replicate (width - 1 - (natText v.natAbs).length) 48 ++ natText v.natAbs)
  else List.replicate (width - (natText v.natAbs).length) 48 ++ natText v.natAbs

/-- The integer that a decimal text with an optional sign stands for. -/
def decimalValue : GoString → Int
  | 45 :: s => -(decimalNat s : Int)
  | s => decimalNat s

theorem toNat_digit (d : Nat) (hd : d < 10) : (UInt8.ofNat (48 + d)).toNat = 48 + d := by
  simp only [UInt8.toNat_ofNat']
  omega

theorem decimalNat_append_digit (s : GoString) (d : Nat) (hd : d < 10) :
    decimalNat (s ++ [UInt8.ofNat (48 + d)]) = 10 * decimalNat s + d := by
  simp only [decimalNat, List.foldl_append, List.foldl_cons, List.foldl_nil, toNat_digit d hd]
  omega

theorem decimalNat_digitsUpTo {fuel n : Nat} (h : n < 10 ^ fuel) :
    decimalNat (digitsUpTo fuel n) = n := by
  induction fuel generalizing n with
  | zero =>
    simp only [pow_zero, Nat.lt_one_iff] at h
    subst h
    rfl
  | succ fuel ih =>
    simp only [digitsUpTo]
    split
    · rename_i hn
      have := decimalNat_append_digit [] n hn
      simpa [decimalNat] using this
    · have hdiv : n / 10 < 10 ^ fuel := by
        rw [Nat.div_lt_iff_lt_mul (by omega), ← pow_succ]
        exact h
      rw [decimalNat_append_digit _ _ (Nat.mod_lt _ (by omega)), ih hdiv]
      omega

theorem decimalNat_natText (n : Nat) : decimalNat (natText n) = n :=
  decimalNat_digitsUpTo ((Nat.lt_pow_self (by omega)).trans (Nat.pow_lt_pow_right (by omega)
    (Nat.lt_succ_self n)))

theorem isDigit_of_mem_digitsUpTo {fuel n : Nat} {c : UInt8} (h : c ∈ digitsUpTo fuel n) :
    isDigit c = true := by
  have digit (d : Nat) (hd : d < 10) : isDigit (UInt8.ofNat (48 + d)) = true := by
    simp only [isDigit, toNat_digit d hd, Bool.and_eq_true, decide_eq_true_eq]
    omega
  induction fuel generalizing n with
  | zero => simp [digitsUpTo] at h
  | succ fuel ih =>
    simp only [digitsUpTo] at h
    split at h
    · rename_i hn
      rw [List.mem_singleton.mp h]
      exact digit n hn
    · rcases List.mem_append.mp h with h | h
      · exact ih h
      · rw [List.mem_singleton.mp h]
        exact digit _ (Nat.mod_lt _ (by omega))

theorem isDigit_of_mem_natText {n : Nat} {c : UInt8} (h : c ∈ natText n) : isDigit c = true :=
  isDigit_of_mem_digitsUpTo h

theorem digitsUpTo_ne_nil {fuel n : Nat} : digitsUpTo (fuel + 1) n ≠ [] := by
  simp only [digitsUpTo]
  split <;> simp

theorem natText_ne_nil (n : Nat) : natText n ≠ [] := digitsUpTo_ne_nil

theorem decimalNat_zeros_append (k : Nat) (s : GoString) :
    decimalNat (List.replicate k 48 ++ s) = decimalNat s := by
  induction k with
  | zero => rfl
  | succ k ih =>
    rw [← ih]
    simp [decimalNat, List.replicate_succ]

theorem head_ne_minus {s : GoString} (h : ∀ c ∈ s, isDigit c = true) :
    decimalValue s = decimalNat s := by
  cases s with
  | nil => rfl
  | cons c s =>
    have hc := h c List.mem_cons_self
    have hne : c ≠ 45 := by
      rintro rfl
      exact absurd hc (by decide)
    unfold decimalValue
    split
    · rename_i heq
      exact absurd (List.cons.inj heq).1 hne
    · rfl

theorem isDigit_of_mem_padded {k n : Nat} {c : UInt8}
    (h : c ∈ List.replicate k 48 ++ natText n) : isDigit c = true := by
  rcases List.mem_append.mp h with h | h
  · rw [List.eq_of_mem_replicate h]
    decide
  · exact isDigit_of_mem_natText h

/-- A padded number is recovered from its text. -/
theorem decimalValue_padInt (width : Nat) (v : Int) : decimalValue (padInt width v) = v := by
  unfold padInt
  split
  · rename_i hv
    simp only [decimalValue, decimalNat_zeros_append, decimalNat_natText]
    omega
  · rename_i hv
    rw [head_ne_minus (fun c hc => isDigit_of_mem_padded hc), decimalNat_zeros_append,
      decimalNat_natText]
    omega

theorem decimalValue_formatInt (v : Int) : decimalValue (formatInt v) = v := by
  unfold formatInt
  split
  · rename_i hv
    simp only [decimalValue, decimalNat_natText]
    omega
  · rename_i hv
    rw [head_ne_minus (fun c hc => isDigit_of_mem_natText hc), decimalNat_natText]
    omega

theorem padInt_injective (width : Nat) : Function.Injective (padInt width) :=
  Function.LeftInverse.injective (decimalValue_padInt width)

theorem formatInt_injective : Function.Injective formatInt :=
  Function.LeftInverse.injective decimalValue_formatInt

theorem mem_padInt {width : Nat} {v : Int} {c : UInt8} (h : c ∈ padInt width v) :
    c = 45 ∨ isDigit c = true := by
  unfold padInt at h
  split at h
  · rcases List.mem_cons.mp h with h | h
    · exact Or.inl h
    · exact Or.inr (isDigit_of_mem_padded h)
  · exact Or.inr (isDigit_of_mem_padded h)

/-- A padded number ends with a digit. -/
theorem padInt_last (width : Nat) (v : Int) : ∃ t d, padInt width v = t ++ [d] ∧ isDigit d = true := by
  obtain ⟨t, d, hlast⟩ : ∃ t d, natText v.natAbs = t ++ [d] := by
    rcases List.eq_nil_or_concat (natText v.natAbs) with h | ⟨t, d, h⟩
    · exact absurd h (natText_ne_nil _)
    · exact ⟨t, d, by rw [h, List.concat_eq_append]⟩
  have hd : isDigit d = true := isDigit_of_mem_natText (n := v.natAbs) (by simp [hlast])
  unfold padInt
  rw [hlast]
  split
  · exact ⟨45 :: (_ ++ t), d, by simp only [List.cons_append, List.append_assoc]; rfl, hd⟩
  · exact ⟨_ ++ t, d, (List.append_assoc _ _ _).symm, hd⟩

/-- A byte that is no digit and no sign is in no number. -/
theorem not_mem_padInt {c : UInt8} (hc : c ≠ 45 ∧ isDigit c = false) (width : Nat) (v : Int) :
    c ∉ padInt width v := by
  intro h
  rcases mem_padInt h with h | h
  · exact hc.1 h
  · rw [hc.2] at h
    cases h

theorem slash_not_mem_padInt (width : Nat) (v : Int) : (47 : UInt8) ∉ padInt width v :=
  not_mem_padInt (by decide) width v

/-- The value of a text that consists of digits. -/
def parseDigits (d : GoString) : Option Nat :=
  if d ≠ [] ∧ d.all isDigit then some (decimalNat d) else none

/-- `strconv.ParseInt` in base 10 and 64 bits. -/
def parseInt : GoString → Option Int
  | 45 :: d => (parseDigits d).bind fun n => if n ≤ 2 ^ 63 then some (-(n : Int)) else none
  | 43 :: d => (parseDigits d).bind fun n => if n < 2 ^ 63 then some (n : Int) else none
  | d => (parseDigits d).bind fun n => if n < 2 ^ 63 then some (n : Int) else none

/-- The range of a signed 64-bit integer. -/
def InInt64 (v : Int) : Prop := -2 ^ 63 ≤ v ∧ v < 2 ^ 63

theorem parseDigits_padded (k n : Nat) :
    parseDigits (List.replicate k 48 ++ natText n) = some n := by
  have hall : (List.replicate k 48 ++ natText n).all isDigit = true :=
    List.all_eq_true.mpr fun c hc => isDigit_of_mem_padded hc
  have hne : List.replicate k 48 ++ natText n ≠ [] := by simp [natText_ne_nil]
  unfold parseDigits
  rw [if_pos ⟨hne, hall⟩, decimalNat_zeros_append, decimalNat_natText]

theorem parseInt_of_digits {s : GoString} (h : ∀ c ∈ s, isDigit c = true) :
    parseInt s = (parseDigits s).bind fun n => if n < 2 ^ 63 then some (n : Int) else none := by
  unfold parseInt
  split
  · exact absurd (h 45 List.mem_cons_self) (by decide)
  · exact absurd (h 43 List.mem_cons_self) (by decide)
  · rfl

theorem parseInt_padInt {width : Nat} {v : Int} (h : InInt64 v) :
    parseInt (padInt width v) = some v := by
  obtain ⟨hlo, hhi⟩ := h
  unfold padInt
  split
  · rename_i hv
    have hle : v.natAbs ≤ 2 ^ 63 := by omega
    simp only [parseInt, parseDigits_padded, Option.bind_some, if_pos hle, Option.some.injEq]
    omega
  · rename_i hv
    have hlt : v.natAbs < 2 ^ 63 := by omega
    rw [parseInt_of_digits fun c hc => isDigit_of_mem_padded hc, parseDigits_padded]
    simp only [Option.bind_some, if_pos hlt, Option.some.injEq]
    omega

theorem formatInt_eq_padInt (v : Int) : formatInt v = padInt 0 v := by
  simp [formatInt, padInt]

theorem not_mem_formatInt {c : UInt8} (hc : c ≠ 45 ∧ isDigit c = false) (v : Int) :
    c ∉ formatInt v := by
  rw [formatInt_eq_padInt]
  exact not_mem_padInt hc 0 v

theorem parseInt_formatInt {v : Int} (h : InInt64 v) : parseInt (formatInt v) = some v := by
  rw [formatInt_eq_padInt, parseInt_padInt h]

/-! ## Surrounding white space -/

/-- The UTF-8 encodings of the characters that `unicode.IsSpace` accepts. -/
def spaceWords : List GoString :=
  [[9], [10], [11], [12], [13], [32], [0xC2, 0x85], [0xC2, 0xA0], [0xE1, 0x9A, 0x80],
    [0xE2, 0x80, 0x80], [0xE2, 0x80, 0x81], [0xE2, 0x80, 0x82], [0xE2, 0x80, 0x83],
    [0xE2, 0x80, 0x84], [0xE2, 0x80, 0x85], [0xE2, 0x80, 0x86], [0xE2, 0x80, 0x87],
    [0xE2, 0x80, 0x88], [0xE2, 0x80, 0x89], [0xE2, 0x80, 0x8A], [0xE2, 0x80, 0xA8],
    [0xE2, 0x80, 0xA9], [0xE2, 0x80, 0xAF], [0xE2, 0x81, 0x9F], [0xE3, 0x80, 0x80]]

def trimLeft : Nat → GoString → GoString
  | 0, s => s
  | fuel + 1, s =>
    match spaceWords.find? (fun w => w.isPrefixOf s) with
    | some w => trimLeft fuel (s.drop w.length)
    | none => s

def trimRight : Nat → GoString → GoString
  | 0, s => s
  | fuel + 1, s =>
    match spaceWords.find? (fun w => w.isSuffixOf s) with
    | some w => trimRight fuel (s.take (s.length - w.length))
    | none => s

/-- `strings.TrimSpace`. Every step removes at least one byte, so the length is fuel
enough. -/
def trimSpace (s : GoString) : GoString :=
  trimRight s.length (trimLeft s.length s)

/-- No white space at either end. -/
def Trimmed (s : GoString) : Prop := ∀ w ∈ spaceWords, ¬ w <+: s ∧ ¬ w <:+ s

theorem spaceWord_ne_nil {w : GoString} (h : w ∈ spaceWords) : 0 < w.length := by
  have : ∀ w ∈ spaceWords, 0 < w.length := by decide
  exact this w h

theorem trimLeft_clean {fuel : Nat} {s : GoString} (hf : s.length ≤ fuel) :
    ∀ w ∈ spaceWords, ¬ w <+: trimLeft fuel s := by
  induction fuel generalizing s with
  | zero =>
    intro w hw hpre
    have hs : s = [] := List.length_eq_zero_iff.mp (by omega)
    subst hs
    have hle := hpre.length_le
    have hpos := spaceWord_ne_nil hw
    simp only [trimLeft, List.length_nil] at hle
    omega
  | succ fuel ih =>
    simp only [trimLeft]
    split
    · rename_i w hfound
      have hw := List.mem_of_find?_eq_some hfound
      have hp : w <+: s := by simpa using List.find?_some hfound
      have hlen := hp.length_le
      have hpos := spaceWord_ne_nil hw
      exact ih (by simp only [List.length_drop]; omega)
    · rename_i hnone
      intro w hw hp
      have := List.find?_eq_none.mp hnone w hw
      exact this (by simpa using hp)

theorem trimRight_clean {fuel : Nat} {s : GoString} (hf : s.length ≤ fuel) :
    ∀ w ∈ spaceWords, ¬ w <:+ trimRight fuel s := by
  induction fuel generalizing s with
  | zero =>
    intro w hw hsuf
    have hs : s = [] := List.length_eq_zero_iff.mp (by omega)
    subst hs
    have hle := hsuf.length_le
    have hpos := spaceWord_ne_nil hw
    simp only [trimRight, List.length_nil] at hle
    omega
  | succ fuel ih =>
    simp only [trimRight]
    split
    · rename_i w hfound
      have hw := List.mem_of_find?_eq_some hfound
      have hp : w <:+ s := by simpa using List.find?_some hfound
      have hlen := hp.length_le
      have hpos := spaceWord_ne_nil hw
      exact ih (by simp only [List.length_take]; omega)
    · rename_i hnone
      intro w hw hp
      have := List.find?_eq_none.mp hnone w hw
      exact this (by simpa using hp)

theorem trimRight_isPrefixOf (fuel : Nat) (s : GoString) : trimRight fuel s <+: s := by
  induction fuel generalizing s with
  | zero => exact List.prefix_rfl
  | succ fuel ih =>
    simp only [trimRight]
    split
    · exact (ih _).trans (List.take_prefix _ _)
    · exact List.prefix_rfl

theorem trimLeft_length_le (fuel : Nat) (s : GoString) : (trimLeft fuel s).length ≤ s.length := by
  induction fuel generalizing s with
  | zero => exact le_refl _
  | succ fuel ih =>
    simp only [trimLeft]
    split
    · exact (ih _).trans (by simp)
    · exact le_refl _

theorem trimmed_trimSpace (s : GoString) : Trimmed (trimSpace s) := by
  intro w hw
  constructor
  · intro hp
    exact trimLeft_clean (le_refl _) w hw (hp.trans (trimRight_isPrefixOf _ _))
  · exact trimRight_clean (trimLeft_length_le _ _) w hw

theorem trimLeft_eq_self {fuel : Nat} {s : GoString} (h : ∀ w ∈ spaceWords, ¬ w <+: s) :
    trimLeft fuel s = s := by
  cases fuel with
  | zero => rfl
  | succ fuel =>
    have : spaceWords.find? (fun w => w.isPrefixOf s) = none :=
      List.find?_eq_none.mpr fun w hw hp => h w hw (by simpa using hp)
    simp only [trimLeft, this]

theorem trimRight_eq_self {fuel : Nat} {s : GoString} (h : ∀ w ∈ spaceWords, ¬ w <:+ s) :
    trimRight fuel s = s := by
  cases fuel with
  | zero => rfl
  | succ fuel =>
    have : spaceWords.find? (fun w => w.isSuffixOf s) = none :=
      List.find?_eq_none.mpr fun w hw hp => h w hw (by simpa using hp)
    simp only [trimRight, this]

theorem trimSpace_of_trimmed {s : GoString} (h : Trimmed s) : trimSpace s = s := by
  unfold trimSpace
  rw [trimLeft_eq_self fun w hw => (h w hw).1, trimRight_eq_self fun w hw => (h w hw).2]

/-- A string that starts with a printable ASCII byte and ends with a digit is trimmed. -/
theorem trimmed_of_ends {c : UInt8} {s t : GoString} {d : UInt8} (hc : 33 ≤ c.toNat ∧ c.toNat < 127)
    (hd : isDigit d = true) (hs : c :: s = t ++ [d]) : Trimmed (c :: s) := by
  intro w hw
  have hends : ∀ w ∈ spaceWords, ∃ a l z, w = a :: l ∧ w = w.dropLast ++ [z] ∧
      ¬ (33 ≤ a.toNat ∧ a.toNat < 127) ∧ isDigit z = false := by
    simp only [spaceWords, List.forall_mem_cons]
    refine ⟨?_, ?_, ?_, ?_, ?_, ?_, ?_, ?_, ?_, ?_, ?_, ?_, ?_, ?_, ?_, ?_, ?_, ?_, ?_, ?_, ?_, ?_,
      ?_, ?_, ?_, by simp⟩ <;>
      exact ⟨_, _, _, rfl, rfl, by decide, by decide⟩
  obtain ⟨a, l, z, hal, hlz, ha, hz⟩ := hends w hw
  constructor
  · rintro ⟨rest, h⟩
    rw [hal, List.cons_append, List.cons.injEq] at h
    exact ha (h.1 ▸ hc)
  · rintro ⟨front, h⟩
    rw [hs, hlz, ← List.append_assoc] at h
    have := (List.append_inj' h rfl).2
    rw [List.cons.injEq] at this
    rw [this.1, hd] at hz
    cases hz

end Bytes

end TieredStore.Lib
