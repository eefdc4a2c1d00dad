import TieredStore.Lib.Utf8
import TieredStore.Meta.Objects

/-!
# Metadata and records as JSON

What a value looks like after it has been encoded as JSON and decoded into an `interface{}`: strings
become text, and every number becomes a float. Between processes metadata travels in this form, and
records are stored in it.
-/

namespace TieredStore.Meta

open Lib Lib.Bytes Lib.Utf8

/-- A string after JSON: what is not UTF-8 has been replaced. -/
abbrev jsonText (s : GoString) : GoString := toValid s

/-! ## Paths -/

section Paths

variable {s : GoString}

theorem spaceWord_text {w : GoString} (hw : w ∈ spaceWords) :
    Valid w ∧ ∀ c ∈ w.head?, isTail c = false := by
  have : ∀ w ∈ spaceWords, Valid w ∧ ∀ c ∈ w.head?, isTail c = false := by
    decide +kernel
  exact this w hw

theorem spaceWord_rune {w : GoString} (hw : w ∈ spaceWords) (t : GoString) :
    Valid (w ++ t) ↔ Valid t := by
  have hrune : ∀ w ∈ spaceWords, runeLength w = w.length - 1 + 1 ∧
      w.take (w.length - 1 + 1) = w := by decide +kernel
  obtain ⟨hlen, htake⟩ := hrune w hw
  have happend := toValid_rune_append hlen t
  rw [htake] at happend
  unfold Valid
  rw [happend, List.append_right_inj]

theorem valid_trimLeft (fuel : Nat) : Valid (trimLeft fuel s) ↔ Valid s := by
  induction fuel generalizing s with
  | zero => rfl
  | succ fuel ih =>
    simp only [trimLeft]
    split
    · rename_i w hfound
      obtain ⟨rest, rfl⟩ : w <+: s := by simpa using List.find?_some hfound
      rw [ih, List.drop_left, spaceWord_rune (List.mem_of_find?_eq_some hfound)]
    · rfl

theorem valid_trimRight (fuel : Nat) : Valid (trimRight fuel s) ↔ Valid s := by
  induction fuel generalizing s with
  | zero => rfl
  | succ fuel ih =>
    simp only [trimRight]
    split
    · rename_i w hfound
      obtain ⟨front, rfl⟩ : w <:+ s := by simpa using List.find?_some hfound
      obtain ⟨hw, hhead⟩ := spaceWord_text (List.mem_of_find?_eq_some hfound)
      rw [ih, valid_append hhead, List.length_append, Nat.add_sub_cancel, List.take_left]
      exact (and_iff_left hw).symm
    · rfl

/-- White space at the ends is text. -/
theorem valid_trimSpace : Valid (trimSpace s) ↔ Valid s :=
  (valid_trimRight _).trans (valid_trimLeft _)

theorem valid_padInt (width : Nat) (v : Int) : Valid (padInt width v) := by
  refine valid_of_ascii fun b hb => ?_
  rcases mem_padInt hb with rfl | hdigit
  · decide
  · have hrange : 48 ≤ b.toNat ∧ b.toNat ≤ 57 := by simpa [isDigit] using hdigit
    exact UInt8.lt_iff_toNat_lt.mpr (lt_of_le_of_lt hrange.2 (by decide))

/-- The path of a replica is text exactly when the object id is. -/
theorem valid_buildHotReplicaPath {o : GoString} {v : Int} (h : buildHotReplicaPath o v ≠ []) :
    Valid (buildHotReplicaPath o v) ↔ Valid o := by
  have hhot : ∀ b ∈ lit "hot/", b < 0x80 := by decide +kernel
  have hslash : ∀ b ∈ lit "/", b < 0x80 := by decide +kernel
  unfold buildHotReplicaPath at h ⊢
  dsimp only at h ⊢
  split at h
  · exact absurd rfl h
  · rename_i hid
    rw [if_neg hid]
    split
    · exact valid_trimSpace
    · rw [List.append_assoc, List.append_assoc, valid_ascii_append hhot, valid_append,
        valid_trimSpace]
      · exact and_iff_left ((valid_ascii_append hslash).mpr (valid_padInt 20 v))
      · rintro c ⟨⟩
        decide

end Paths

/-! ## Numbers -/

/-- The float nearest to a number, with 53 bits; of two nearest ones the even one. -/
def roundFloat64 (n : Nat) : Nat :=
  if n < 2 ^ 53 then n
  else
    let unit := 2 ^ (Nat.log2 n - 52)
    let q := n / unit
    let r := n % unit
    if 2 * r < unit ∨ (2 * r = unit ∧ q % 2 = 0) then q * unit else (q + 1) * unit

def float64OfInt (n : Int) : Int := n.sign * roundFloat64 n.natAbs

theorem float64OfInt_of_small {n : Int} (h : n.natAbs < 2 ^ 53) : float64OfInt n = n := by
  rw [float64OfInt, roundFloat64, if_pos h]
  exact Int.sign_mul_natAbs n

theorem truncate_intCast (n : Int) : truncate n = n := by
  unfold truncate
  split <;> simp

/-! ## Values -/

mutual

/-- A value that was encoded as JSON and decoded again. No caller encodes a `json.Number` that is
not an integer. -/
def Any.json : Any → Any
  | .nil => .nil
  | .str s => .str (jsonText s)
  | .named s => .str (jsonText s)
  | .int n => .float64 (float64OfInt n)
  | .int32 n => .float64 (float64OfInt n)
  | .int64 n => .float64 (float64OfInt n)
  | .jsonNumber s => .float64 (float64OfInt ((parseInt s).getD 0))
  | .float64 q => .float64 q
  | .bool b => .bool b
  | .strings xs => .list (xs.map fun s => .str (jsonText s))
  | .list xs => .list (jsonList xs)
  | .map m => .map (jsonMap m)
  | .maps ms => .list (jsonMaps ms)

def jsonList : List Any → List Any
  | [] => []
  | x :: xs => x.json :: jsonList xs

def jsonMap : List (GoString × Any) → List (GoString × Any)
  | [] => []
  | (name, x) :: rest => (jsonText name, x.json) :: jsonMap rest

def jsonMaps : List (List (GoString × Any)) → List Any
  | [] => []
  | m :: rest => .map (jsonMap m) :: jsonMaps rest

end

theorem jsonMaps_eq_map (ms : List (List (GoString × Any))) :
    jsonMaps ms = ms.map fun m => .map (jsonMap m) := by
  induction ms with
  | nil => rfl
  | cons m rest ih => simp only [jsonMaps, List.map_cons, ih]

/-- Metadata after JSON. -/
abbrev Metadata.json (m : Metadata) : Metadata := jsonMap m

/-- Names that are text keep their values. -/
theorem Metadata.get_json {m : Metadata} (h : ∀ e ∈ m, Valid e.1) (name : GoString) :
    m.json.get name = (m.get name).json := by
  induction m with
  | nil => rfl
  | cons e rest ih =>
    obtain ⟨name', x⟩ := e
    have hname : jsonText name' = name' := h _ List.mem_cons_self
    have hrest := ih fun e he => h e (List.mem_cons_of_mem _ he)
    change Metadata.get ((jsonText name', x.json) :: jsonMap rest) name = _
    rw [Metadata.get_cons, Metadata.get_cons, hname]
    split
    · rfl
    · exact hrest

section Conversions

variable {fallback : Int}

theorem toInt64_json_int {n : Int} (h : n.natAbs < 2 ^ 53) :
    toInt64 (Any.int n).json fallback = n := by
  change truncate (float64OfInt n) = n
  rw [truncate_intCast, float64OfInt_of_small h]

/-- The nonempty strings of a list. -/
theorem toStringSlice_json_strings (xs : List GoString) :
    toStringSlice (Any.strings xs).json = (xs.map jsonText).filter (· ≠ []) := by
  change (xs.map fun s => Any.str (jsonText s)).filterMap _ = _
  rw [List.filterMap_map]
  induction xs with
  | nil => rfl
  | cons s rest ih =>
    by_cases hs : jsonText s = [] <;> simp [hs] at ih ⊢ <;> exact ih

end Conversions

/-! ## Records -/

/-- A stored row as it is read back. -/
def Value.readBack : Value → Value
  | .object r => .object { r with objectID := jsonText r.objectID, tenantID := jsonText r.tenantID }
  | .objectVersion r => .objectVersion
      { r with
        objectID := jsonText r.objectID
        checksumSHA256 := jsonText r.checksumSHA256
        contentType := r.contentType.map jsonText }
  | .replica r => .replica
      { r with
        objectID := jsonText r.objectID
        nodeID := jsonText r.nodeID
        path := jsonText r.path }
  | .ecShard r => .ecShard
      { r with
        objectID := jsonText r.objectID
        nodeID := jsonText r.nodeID
        path := jsonText r.path }
  | .task r => .task
      { r with
        taskID := jsonText r.taskID
        objectID := jsonText r.objectID
        taskType := jsonText r.taskType
        lastError := r.lastError.map jsonText }
  | .tierDue r => .tierDue { r with objectID := jsonText r.objectID }
  | .tierDueRef r => .tierDueRef
      { r with objectID := jsonText r.objectID, dueKey := jsonText r.dueKey }
  | .mark => .mark

end TieredStore.Meta
