import TieredStore.Lib.Bytes

/-!
# Base64 for URLs

The encoding with the alphabet of URLs and without padding: three bytes are four characters,
and the one or two bytes at the end are two or three. The decoder passes over line breaks, and says
where it met a character outside the alphabet. Every text is decoded from its encoding
(`decode_encode`).
-/

namespace TieredStore.Lib.Base64

def alphabet : GoString := lit "ABCDEFGHIJKLMNOPQRSTUVWXYZabcdefghijklmnopqrstuvwxyz0123456789-_"

/-- The character of a number below 64. -/
def digit (v : Nat) : UInt8 := alphabet.getD v 0

/-- The number of a character. -/
def value? (c : UInt8) : Option Nat := alphabet.idxOf? c

/-! ## Six bits at a time -/

def sextets : GoString → List Nat
  | a :: b :: c :: rest =>
    a.toNat / 4 :: (a.toNat % 4 * 16 + b.toNat / 16) :: (b.toNat % 16 * 4 + c.toNat / 64) ::
      c.toNat % 64 :: sextets rest
  | [a, b] => [a.toNat / 4, a.toNat % 4 * 16 + b.toNat / 16, b.toNat % 16 * 4]
  | [a] => [a.toNat / 4, a.toNat % 4 * 16]
  | [] => []

def octets : List Nat → GoString
  | v :: w :: x :: y :: rest =>
    UInt8.ofNat (v * 4 + w / 16) :: UInt8.ofNat (w % 16 * 16 + x / 4) ::
      UInt8.ofNat (x % 4 * 64 + y) :: octets rest
  | [v, w, x] => [UInt8.ofNat (v * 4 + w / 16), UInt8.ofNat (w % 16 * 16 + x / 4)]
  | [v, w] => [UInt8.ofNat (v * 4 + w / 16)]
  | _ => []

def encode (x : GoString) : GoString := (sextets x).map digit

/-- The error at an offset. -/
def corrupt (offset : Nat) : GoString :=
  lit "illegal base64 data at input byte " ++ Bytes.formatInt offset

/-- The numbers of the characters, from an offset on. -/
def readSextets : Nat → GoString → Except GoString (List Nat)
  | _, [] => .ok []
  | offset, c :: rest =>
    if c = 10 ∨ c = 13 then readSextets (offset + 1) rest
    else
      match value? c with
      | none => .error (corrupt offset)
      | some v => (readSextets (offset + 1) rest).map (v :: ·)

def decode (s : GoString) : Except GoString GoString :=
  match readSextets 0 s with
  | .error err => .error err
  | .ok vs => if vs.length % 4 = 1 then .error (corrupt (s.length - 1)) else .ok (octets vs)

/-! ## Round trip -/

theorem digit_spec {v : Nat} (hv : v < 64) :
    value? (digit v) = some v ∧ digit v ≠ 10 ∧ digit v ≠ 13 := by
  have hall : ∀ v : Fin 64, value? (digit v) = some v.val ∧ digit v ≠ 10 ∧ digit v ≠ 13 := by
    decide +kernel
  exact hall ⟨v, hv⟩

theorem sextets_lt (x : GoString) : ∀ v ∈ sextets x, v < 64 := by
  have hbyte : ∀ a : UInt8, a.toNat < 256 := fun a => a.toNat_lt
  fun_induction sextets x with
  | case1 a b c rest ih =>
    have ha := hbyte a
    have hb := hbyte b
    have hc := hbyte c
    simp only [List.mem_cons, forall_eq_or_imp]
    exact ⟨by omega, by omega, by omega, by omega, ih⟩
  | case2 a b =>
    have ha := hbyte a
    have hb := hbyte b
    simp only [List.mem_cons, forall_eq_or_imp, List.not_mem_nil, false_imp_iff, implies_true,
      and_true]
    exact ⟨by omega, by omega, by omega⟩
  | case3 a =>
    have ha := hbyte a
    simp only [List.mem_cons, forall_eq_or_imp, List.not_mem_nil, false_imp_iff, implies_true,
      and_true]
    exact ⟨by omega, by omega⟩
  | case4 => simp

theorem length_sextets_mod (x : GoString) : (sextets x).length % 4 ≠ 1 := by
  fun_induction sextets x with
  | case1 a b c rest ih =>
    simp only [List.length_cons]
    omega
  | case2 | case3 | case4 => simp

/-- A byte is put together again from its parts. -/
theorem ofNat_toNat {a : UInt8} {n : Nat} (h : n = a.toNat) : UInt8.ofNat n = a := by
  rw [h, UInt8.ofNat_toNat]

theorem octets_sextets (x : GoString) : octets (sextets x) = x := by
  have hbyte : ∀ a : UInt8, a.toNat < 256 := fun a => a.toNat_lt
  fun_induction sextets x with
  | case1 a b c rest ih =>
    have hb := hbyte b
    have hc := hbyte c
    rw [octets, ih, ofNat_toNat (a := a) (by omega), ofNat_toNat (a := b) (by omega),
      ofNat_toNat (a := c) (by omega)]
  | case2 a b =>
    have hb := hbyte b
    rw [octets, ofNat_toNat (a := a) (by omega), ofNat_toNat (a := b) (by omega)]
  | case3 a => rw [octets, ofNat_toNat (a := a) (by omega)]
  | case4 => rfl

theorem readSextets_digits {vs : List Nat} (h : ∀ v ∈ vs, v < 64) (offset : Nat) :
    readSextets offset (vs.map digit) = .ok vs := by
  induction vs generalizing offset with
  | nil => rfl
  | cons v vs ih =>
    obtain ⟨hvalue, hlf, hcr⟩ := digit_spec (h v List.mem_cons_self)
    rw [List.map_cons, readSextets, if_neg (not_or.mpr ⟨hlf, hcr⟩), hvalue,
      ih fun w hw => h w (List.mem_cons_of_mem _ hw)]
    rfl

theorem decode_encode (x : GoString) : decode (encode x) = .ok x := by
  unfold decode encode
  rw [readSextets_digits (sextets_lt x)]
  dsimp only
  rw [if_neg (length_sextets_mod x), octets_sextets]

theorem mem_alphabet_of_mem_encode {x : GoString} {c : UInt8} (h : c ∈ encode x) :
    c ∈ alphabet := by
  obtain ⟨v, hv, rfl⟩ := List.mem_map.mp h
  have hlt : v < alphabet.length := sextets_lt x v hv
  rw [digit, List.getD_eq_getElem _ _ hlt]
  exact List.getElem_mem hlt

end TieredStore.Lib.Base64
