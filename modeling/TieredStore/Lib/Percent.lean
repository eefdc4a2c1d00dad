import Mathlib

/-!
# Percent-encoding

A byte is written as itself or as `%` with two hexadecimal digits. `decode` reads a text of such
units, and fails when a `%` is not followed by two digits; with `plus` it also reads `+` as a space.

An encoder is any function that writes each byte as a unit (`IsUnit`); what it writes is read back
(`decode_flatMap`). A text is read as itself exactly when no `%` occurs in it (`decode_eq_self_iff`).
-/

namespace TieredStore.Lib.Percent

/-- The bytes `%`, `+` and space. -/
abbrev percent : UInt8 := 37

abbrev plusSign : UInt8 := 43

abbrev space : UInt8 := 32

def isHex (c : UInt8) : Bool :=
  (48 ≤ c && c ≤ 57) || (97 ≤ c && c ≤ 102) || (65 ≤ c && c ≤ 70)

def unhex (c : UInt8) : UInt8 :=
  if 48 ≤ c && c ≤ 57 then c - 48
  else if 97 ≤ c && c ≤ 102 then c - 97 + 10
  else if 65 ≤ c && c ≤ 70 then c - 65 + 10
  else 0

/-- The upper-case digit of a number below 16. -/
def upperHex (n : UInt8) : UInt8 := if n < 10 then n + 48 else n + 55

def encodeByte (c : UInt8) : List UInt8 := [percent, upperHex (c >>> 4), upperHex (c &&& 15)]

/-- Read a text; `plus` says whether `+` stands for a space. -/
def decode (plus : Bool) : List UInt8 → Option (List UInt8)
  | [] => some []
  | c :: rest =>
    if c = percent then
      match rest with
      | a :: b :: rest =>
        if isHex a && isHex b then (decode plus rest).map ((unhex a <<< 4 ||| unhex b) :: ·) else none
      | _ => none
    else (decode plus rest).map ((if plus && c = plusSign then space else c) :: ·)

theorem decode_cons_of_ne {c : UInt8} (hc : c ≠ percent) (plus : Bool) (rest : List UInt8) :
    decode plus (c :: rest) =
      (decode plus rest).map ((if plus && c = plusSign then space else c) :: ·) := by
  rw [decode.eq_def]
  exact if_neg hc

theorem decode_percent (plus : Bool) (a b : UInt8) (rest : List UInt8) :
    decode plus (percent :: a :: b :: rest) =
      if isHex a && isHex b then (decode plus rest).map ((unhex a <<< 4 ||| unhex b) :: ·)
      else none := by
  rw [decode, if_pos rfl]

/-- The text of a byte is read as that byte, whatever follows. -/
def IsUnit (plus : Bool) (c : UInt8) (u : List UInt8) : Prop :=
  ∀ rest, decode plus (u ++ rest) = (decode plus rest).map (c :: ·)

theorem isUnit_self {plus : Bool} {c : UInt8} (hc : c ≠ percent)
    (hplus : plus = true → c ≠ plusSign) : IsUnit plus c [c] := by
  intro rest
  rw [List.singleton_append, decode_cons_of_ne hc]
  cases plus with
  | false => rfl
  | true => simp [hplus rfl]

theorem isUnit_plus : IsUnit true space [plusSign] := fun rest =>
  decode_cons_of_ne (by decide) true rest

/-- The digits of a byte give the byte back. -/
theorem unhex_upperHex (c : UInt8) : isHex (upperHex (c >>> 4)) = true ∧
    isHex (upperHex (c &&& 15)) = true ∧
    unhex (upperHex (c >>> 4)) <<< 4 ||| unhex (upperHex (c &&& 15)) = c := by
  have hall : ∀ n : Fin 256, isHex (upperHex (UInt8.ofFin n >>> 4)) = true ∧
      isHex (upperHex (UInt8.ofFin n &&& 15)) = true ∧
      unhex (upperHex (UInt8.ofFin n >>> 4)) <<< 4 ||| unhex (upperHex (UInt8.ofFin n &&& 15)) =
        UInt8.ofFin n := by decide +kernel
  exact hall c.toFin

theorem isUnit_encodeByte (plus : Bool) (c : UInt8) : IsUnit plus c (encodeByte c) := by
  intro rest
  obtain ⟨hhi, hlo, hval⟩ := unhex_upperHex c
  change decode plus (percent :: upperHex (c >>> 4) :: upperHex (c &&& 15) :: rest) = _
  rw [decode_percent, hhi, hlo, hval, Bool.and_self, if_pos rfl]

theorem decode_flatMap {plus : Bool} {f : UInt8 → List UInt8} (hf : ∀ c, IsUnit plus c (f c))
    (s : List UInt8) : decode plus (s.flatMap f) = some s := by
  induction s with
  | nil => rfl
  | cons c s ih => rw [List.flatMap_cons, hf c, ih, Option.map_some]

/-- Reading does not lengthen a text, and it shortens one with a `%`. -/
theorem length_decode {plus : Bool} {s t : List UInt8} (h : decode plus s = some t) :
    t.length ≤ s.length ∧ (percent ∈ s → t.length < s.length) := by
  induction s using decode.induct generalizing t with
  | case1 =>
    cases h
    exact ⟨le_rfl, fun hmem => by simp at hmem⟩
  | case2 a b rest hhex ih =>
    rw [decode_percent, if_pos hhex] at h
    obtain ⟨u, hu, rfl⟩ := Option.map_eq_some_iff.mp h
    have hlen := (ih hu).1
    simp only [List.length_cons]
    omega
  | case3 a b rest hhex =>
    rw [decode_percent, if_neg hhex] at h
    cases h
  | case4 rest hshort =>
    rw [decode, if_pos rfl] at h
    · cases h
    · exact hshort
  | case5 c rest hc ih =>
    rw [decode_cons_of_ne hc] at h
    obtain ⟨u, hu, rfl⟩ := Option.map_eq_some_iff.mp h
    obtain ⟨hle, hlt⟩ := ih hu
    simp only [List.length_cons]
    refine ⟨by omega, ?_⟩
    intro hmem
    rcases List.mem_cons.mp hmem with heq | hmem
    · exact absurd heq.symm hc
    · have := hlt hmem
      omega

/-- A text without `%` is read as itself, whatever follows. -/
theorem decode_append {p : List UInt8} (hp : percent ∉ p) (s : List UInt8) :
    decode false (p ++ s) = (decode false s).map (p ++ ·) := by
  induction p with
  | nil => exact Option.map_id'.symm
  | cons c p ih =>
    obtain ⟨hc, hp⟩ := List.ne_and_not_mem_of_not_mem_cons hp
    rw [List.cons_append, decode_cons_of_ne hc.symm, ih hp, Option.map_map]
    rfl

theorem decode_eq_self_iff {s : List UInt8} : decode false s = some s ↔ percent ∉ s := by
  constructor
  · intro h hmem
    exact absurd ((length_decode h).2 hmem) (lt_irrefl _)
  · intro hmem
    have h := decode_append hmem []
    rwa [List.append_nil, decode, Option.map_some, List.append_nil] at h

end TieredStore.Lib.Percent
