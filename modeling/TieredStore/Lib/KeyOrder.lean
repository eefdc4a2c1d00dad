import TieredStore.Lib.Bytes

/-!
# The order of composed keys

Keys are compared byte by byte. A field of a fixed width decides before what follows it
(`append_lt_append_iff`), and a natural number padded with zeros to a fixed width is such a field:
its text has the order of the number (`padInt_lt_iff`).
-/

namespace TieredStore.Lib.Bytes

/-- Texts that begin with fields of one width. -/
theorem append_lt_append_iff {a b x y : GoString} (h : a.length = b.length) :
    a ++ x < b ++ y ↔ a < b ∨ a = b ∧ x < y := by
  induction a generalizing b with
  | nil =>
    obtain rfl : b = [] := List.length_eq_zero_iff.mp h.symm
    simp
  | cons c a ih =>
    cases b with
    | nil => simp at h
    | cons d b =>
      have hlen : a.length = b.length := by simpa using h
      simp only [List.cons_append, List.cons_lt_cons_iff, ih hlen, List.cons.injEq]
      tauto

theorem append_lt_append_left_iff {pre x y : GoString} : pre ++ x < pre ++ y ↔ x < y := by
  simp [append_lt_append_iff rfl]

/-! ## Decimal texts -/

theorem foldl_decimal (s : GoString) (acc : Nat) :
    s.foldl (fun acc c => 10 * acc + (c.toNat - 48)) acc = acc * 10 ^ s.length + decimalNat s := by
  induction s generalizing acc with
  | nil => simp [decimalNat]
  | cons c s ih =>
    have hcons : decimalNat (c :: s) = (10 * 0 + (c.toNat - 48)) * 10 ^ s.length + decimalNat s :=
      ih (10 * 0 + (c.toNat - 48))
    rw [List.foldl_cons, ih, hcons, List.length_cons]
    ring

theorem decimalNat_cons (c : UInt8) (s : GoString) :
    decimalNat (c :: s) = (c.toNat - 48) * 10 ^ s.length + decimalNat s := by
  have h := foldl_decimal s (10 * 0 + (c.toNat - 48))
  simpa [decimalNat] using h

theorem decimalNat_lt {s : GoString} (h : ∀ c ∈ s, isDigit c = true) :
    decimalNat s < 10 ^ s.length := by
  induction s with
  | nil => simp [decimalNat]
  | cons c s ih =>
    have hc := h c List.mem_cons_self
    simp only [isDigit, Bool.and_eq_true, decide_eq_true_eq] at hc
    have hs := ih fun c hc => h c (List.mem_cons_of_mem _ hc)
    have hmul : (c.toNat - 48) * 10 ^ s.length ≤ 9 * 10 ^ s.length :=
      Nat.mul_le_mul_right _ (by omega)
    rw [decimalNat_cons, List.length_cons, pow_succ]
    omega

/-- Digits of one length have the order of their values. -/
theorem digits_lt_iff {s t : GoString} (hlen : s.length = t.length)
    (hs : ∀ c ∈ s, isDigit c = true) (ht : ∀ c ∈ t, isDigit c = true) :
    s < t ↔ decimalNat s < decimalNat t := by
  induction s generalizing t with
  | nil =>
    obtain rfl : t = [] := List.length_eq_zero_iff.mp hlen.symm
    simp
  | cons c s ih =>
    cases t with
    | nil => simp at hlen
    | cons d t =>
      have hlen' : s.length = t.length := by simpa using hlen
      have hs' : ∀ c ∈ s, isDigit c = true := fun c hc => hs c (List.mem_cons_of_mem _ hc)
      have ht' : ∀ c ∈ t, isDigit c = true := fun c hc => ht c (List.mem_cons_of_mem _ hc)
      have hslt := decimalNat_lt hs'
      have htlt := decimalNat_lt ht'
      have hc := hs c List.mem_cons_self
      have hd := ht d List.mem_cons_self
      simp only [isDigit, Bool.and_eq_true, decide_eq_true_eq] at hc hd
      rw [List.cons_lt_cons_iff, ih hlen' hs' ht', decimalNat_cons, decimalNat_cons, hlen',
        UInt8.lt_iff_toNat_lt]
      rw [hlen'] at hslt
      rcases lt_trichotomy c.toNat d.toNat with hlt | heq | hgt
      · have hstep : (c.toNat - 48 + 1) * 10 ^ t.length ≤ (d.toNat - 48) * 10 ^ t.length :=
          Nat.mul_le_mul_right _ (by omega)
        rw [add_mul, one_mul] at hstep
        constructor
        · intro
          omega
        · intro
          exact Or.inl hlt
      · obtain rfl := UInt8.toNat_inj.mp heq
        simp
      · have hstep : (d.toNat - 48 + 1) * 10 ^ t.length ≤ (c.toNat - 48) * 10 ^ t.length :=
          Nat.mul_le_mul_right _ (by omega)
        rw [add_mul, one_mul] at hstep
        constructor
        · rintro (hlt | ⟨rfl, -⟩) <;> omega
        · intro
          omega

/-! ## Padded numbers -/

theorem length_digitsUpTo_le {width : Nat} (fuel : Nat) {n : Nat} (hw : 0 < width)
    (h : n < 10 ^ width) : (digitsUpTo fuel n).length ≤ width := by
  induction fuel generalizing n width with
  | zero => simp [digitsUpTo]
  | succ fuel ih =>
    simp only [digitsUpTo]
    split
    · exact hw
    · rename_i hn
      obtain ⟨width, rfl⟩ := Nat.exists_eq_add_one.mpr hw
      have hw' : 0 < width := by
        rcases Nat.eq_zero_or_pos width with rfl | hpos
        · simp at h
          omega
        · exact hpos
      have hdiv : n / 10 < 10 ^ width := by
        rw [Nat.div_lt_iff_lt_mul (by omega), ← pow_succ]
        exact h
      have hlen := ih hw' hdiv
      rw [List.length_append, List.length_singleton]
      omega

variable {width : Nat} {v v' : Int}

theorem padInt_nonneg (hv : 0 ≤ v) : padInt width v =
    List.replicate (width - (natText v.natAbs).length) 48 ++ natText v.natAbs := by
  unfold padInt
  rw [if_neg (by omega)]

theorem length_padInt (hw : 0 < width) (hv : 0 ≤ v) (h : v < 10 ^ width) :
    (padInt width v).length = width := by
  have hnat : v.natAbs < 10 ^ width := by
    zify
    rw [abs_of_nonneg hv]
    exact h
  have hlen : (natText v.natAbs).length ≤ width := length_digitsUpTo_le _ hw hnat
  rw [padInt_nonneg hv, List.length_append, List.length_replicate]
  omega

/-- Padded natural numbers are ordered as their texts. -/
theorem padInt_lt_iff (hw : 0 < width) (hv : 0 ≤ v) (h : v < 10 ^ width) (hv' : 0 ≤ v')
    (h' : v' < 10 ^ width) : padInt width v < padInt width v' ↔ v < v' := by
  have hlen := (length_padInt hw hv h).trans (length_padInt hw hv' h').symm
  rw [padInt_nonneg hv, padInt_nonneg hv'] at hlen ⊢
  rw [digits_lt_iff hlen (fun c hc => isDigit_of_mem_padded hc)
    (fun c hc => isDigit_of_mem_padded hc), decimalNat_zeros_append, decimalNat_zeros_append,
    decimalNat_natText, decimalNat_natText]
  omega

/-- A key that goes on after a padded number. -/
theorem padInt_append_lt_iff (hw : 0 < width) (hv : 0 ≤ v) (h : v < 10 ^ width) (hv' : 0 ≤ v')
    (h' : v' < 10 ^ width) {x y : GoString} :
    padInt width v ++ x < padInt width v' ++ y ↔ v < v' ∨ v = v' ∧ x < y := by
  rw [append_lt_append_iff ((length_padInt hw hv h).trans (length_padInt hw hv' h').symm),
    padInt_lt_iff hw hv h hv' h', (padInt_injective width).eq_iff]

end TieredStore.Lib.Bytes
