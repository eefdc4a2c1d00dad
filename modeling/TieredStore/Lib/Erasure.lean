import Mathlib
import TieredStore.Lib.Bytes

/-!
# Erasure-coded byte strings

A coder splits a byte string into `k` data shards of equal length, the last ones padded with
zeros, adds `m` parity shards, and restores all shards from any `k` of them. `Lawful` states this
of the three operations of an encoder; nothing is assumed about how the parity is computed.

What a reader needs is `Lawful.read`: the shards that are restored from any `k` of a byte string,
joined and cut to its length, are the byte string.
-/

namespace TieredStore.Lib

/-- The operations of an encoder. `reconstruct` takes the shards at hand, `none` for a missing
one; a shard of no bytes counts as missing too. -/
structure Coder (ε : Type) where
  split : Blob → Except ε (List Blob)
  encode : List Blob → Except ε (List Blob)
  reconstruct : List (Option Blob) → Except ε (List (Option Blob))

namespace Coder

variable {ε : Type}

/-- The length of the shards of `n` bytes. -/
def shardLength (k n : Nat) : Nat := (n + k - 1) / k

def padded (k : Nat) (B : Blob) : Blob :=
  B ++ List.replicate (k * shardLength k B.length - B.length) 0

/-- The data shards: consecutive pieces of the padded byte string. -/
def dataShards (k : Nat) (B : Blob) : List Blob :=
  (List.range k).map fun i =>
    ((padded k B).drop (i * shardLength k B.length)).take (shardLength k B.length)

/-- The data and parity shards of a byte string. -/
def shards (d : Coder ε) (B : Blob) : Option (List Blob) :=
  (d.split B).toOption.bind fun blank => (d.encode blank).toOption

/-- Whether a chunk counts as present. -/
def isPresent (c : Option Blob) : Bool := c.any fun b => b ≠ []

def present (chunks : List (Option Blob)) : Nat := chunks.countP isPresent

/-- The chunks that are present are the shards at their places. -/
def Matches (chunks : List (Option Blob)) (shards : List Blob) : Prop :=
  List.Forall₂ (fun c s => ∀ b, c = some b → b ≠ [] → b = s) chunks shards

theorem matches_none (ss : List Blob) : Matches (List.replicate ss.length none) ss := by
  induction ss with
  | nil => exact .nil
  | cons s ss ih => exact .cons nofun ih

/-- Matching chunks match with one more shard at hand. -/
theorem Matches.set {chunks : List (Option Blob)} {ss : List Blob} (h : Matches chunks ss) {i : Nat}
    {s : Blob} (hs : ss[i]? = some s) : Matches (chunks.set i (some s)) ss := by
  induction h generalizing i with
  | nil => simp at hs
  | cons hhead htail ih =>
    cases i with
    | zero =>
      refine .cons ?_ htail
      rintro b ⟨⟩ -
      simpa using hs.symm
    | succ i => exact .cons hhead (ih (by simpa using hs))

/-! ## Present chunks -/

section Present

variable {chunks : List (Option Blob)}

/-- The chunk at a place is present. -/
def Has (chunks : List (Option Blob)) (i : Nat) : Prop :=
  ∃ c, chunks[i]? = some c ∧ isPresent c = true

/-- The places of the chunks that are present. -/
theorem exists_present (chunks : List (Option Blob)) : ∃ J : Finset Nat, J.card = present chunks ∧
    ∀ i, i ∈ J ↔ Has chunks i := by
  induction chunks using List.reverseRecOn with
  | nil => exact ⟨∅, rfl, by simp [Has]⟩
  | append_singleton chunks c ih =>
    obtain ⟨J, hcard, hJ⟩ := ih
    have hlast : ∀ i c', (chunks ++ [c])[i]? = some c' ↔
        chunks[i]? = some c' ∨ (i = chunks.length ∧ c' = c) := by
      intro i c'
      rcases Nat.lt_trichotomy i chunks.length with hi | rfl | hi
      · rw [List.getElem?_append_left hi]
        simp [hi.ne]
      · simp [eq_comm]
      · rw [List.getElem?_append_right hi.le, List.getElem?_eq_none (by simp; omega),
          List.getElem?_eq_none hi.le]
        simp [hi.ne']
    by_cases hc : isPresent c = true
    · refine ⟨insert chunks.length J, ?_, fun i => ?_⟩
      · rw [Finset.card_insert_of_notMem, hcard]
        · simp [present, List.countP_append, hc]
        · intro hmem
          obtain ⟨c', hc', -⟩ := (hJ _).mp hmem
          simp at hc'
      · rw [Finset.mem_insert, hJ]
        constructor
        · rintro (rfl | ⟨c', hc', hp⟩)
          · exact ⟨c, (hlast _ _).mpr (Or.inr ⟨rfl, rfl⟩), hc⟩
          · exact ⟨c', (hlast _ _).mpr (Or.inl hc'), hp⟩
        · rintro ⟨c', hc', hp⟩
          rcases (hlast _ _).mp hc' with hc' | ⟨rfl, -⟩
          · exact Or.inr ⟨c', hc', hp⟩
          · exact Or.inl rfl
    · refine ⟨J, ?_, fun i => ?_⟩
      · rw [hcard]
        simp [present, List.countP_append, hc]
      · rw [hJ]
        constructor
        · rintro ⟨c', hc', hp⟩
          exact ⟨c', (hlast _ _).mpr (Or.inl hc'), hp⟩
        · rintro ⟨c', hc', hp⟩
          rcases (hlast _ _).mp hc' with hc' | ⟨-, rfl⟩
          · exact ⟨c', hc', hp⟩
          · exact absurd hp hc

theorem has_set {i j : Nat} {b : Blob} (hj : j < chunks.length) (hb : b ≠ []) :
    Has (chunks.set j (some b)) i ↔ i = j ∨ Has chunks i := by
  by_cases hij : i = j
  · subst hij
    refine iff_of_true ⟨some b, by simp [hj], by simp [isPresent, hb]⟩ (Or.inl rfl)
  · unfold Has
    rw [List.getElem?_set_ne (Ne.symm hij)]
    exact (or_iff_right hij).symm

theorem not_has_replicate {n i : Nat} : ¬ Has (List.replicate n none) i := by
  rintro ⟨c, hc, hp⟩
  rw [List.eq_of_mem_replicate (List.mem_of_getElem? hc)] at hp
  cases hp

theorem present_replicate (n : Nat) : present (List.replicate n none) = 0 := by
  simp [present, isPresent, List.countP_replicate]

theorem present_set_le (chunks : List (Option Blob)) (i : Nat) (c : Option Blob) :
    present (chunks.set i c) ≤ present chunks + 1 := by
  unfold present
  by_cases hi : i < chunks.length
  · rw [List.countP_set hi]
    split_ifs <;> omega
  · rw [List.set_eq_of_length_le (Nat.le_of_not_lt hi)]
    exact Nat.le_succ _

end Present

/-! ## Laws -/

/-- The operations are those of an erasure code with `k` data and `m` parity shards. -/
structure Lawful (d : Coder ε) (k m : Nat) : Prop where
  pos : 0 < k
  split_nil : ∃ e, d.split [] = .error e
  split_ok : ∀ {B}, B ≠ [] → ∃ blank, blank.length = m ∧ d.split B = .ok (dataShards k B ++ blank)
  encode_ok : ∀ {B blank}, B ≠ [] → d.split B = .ok (dataShards k B ++ blank) → ∃ parity,
    parity.length = m ∧ (∀ p ∈ parity, p.length = shardLength k B.length) ∧
    d.encode (dataShards k B ++ blank) = .ok (dataShards k B ++ parity)
  restore : ∀ {B ss chunks}, B ≠ [] → d.shards B = some ss → Matches chunks ss →
    k ≤ present chunks → d.reconstruct chunks = .ok (ss.map some)
  few : ∀ {B ss chunks}, B ≠ [] → d.shards B = some ss → Matches chunks ss →
    present chunks < k → ∃ e, d.reconstruct chunks = .error e

/-! ## Data shards -/

section Data

variable {k : Nat} {B : Blob}

theorem le_mul_shardLength (hk : 0 < k) (n : Nat) : n ≤ k * shardLength k n := by
  have hdiv := Nat.div_add_mod (n + k - 1) k
  have hmod := Nat.mod_lt (n + k - 1) hk
  unfold shardLength
  omega

theorem shardLength_pos (hk : 0 < k) (hB : B ≠ []) : 0 < shardLength k B.length := by
  have hle := le_mul_shardLength hk B.length
  have hlen : 0 < B.length := List.length_pos_of_ne_nil hB
  by_contra h
  rw [Nat.eq_zero_of_not_pos h, Nat.mul_zero] at hle
  omega

theorem length_padded (hk : 0 < k) (B : Blob) :
    (padded k B).length = k * shardLength k B.length := by
  have := le_mul_shardLength hk B.length
  simp only [padded, List.length_append, List.length_replicate]
  omega

@[simp] theorem length_dataShards (k : Nat) (B : Blob) : (dataShards k B).length = k := by
  simp [dataShards]

theorem length_of_mem_dataShards (hk : 0 < k) {s : Blob} (hs : s ∈ dataShards k B) :
    s.length = shardLength k B.length := by
  obtain ⟨i, hi, rfl⟩ := List.mem_map.mp hs
  rw [List.mem_range] at hi
  rw [List.length_take, List.length_drop, length_padded hk]
  have : (i + 1) * shardLength k B.length ≤ k * shardLength k B.length :=
    Nat.mul_le_mul_right _ hi
  rw [Nat.succ_mul] at this
  omega

/-- Consecutive pieces of a list join to its front. -/
theorem flatten_pieces {α : Type} (l : List α) (n k : Nat) :
    ((List.range k).map fun i => (l.drop (i * n)).take n).flatten = l.take (k * n) := by
  induction k with
  | zero => simp
  | succ k ih =>
    rw [List.range_succ, List.map_append, List.flatten_append, ih, Nat.succ_mul, List.take_add]
    simp

theorem flatten_dataShards (hk : 0 < k) (B : Blob) : (dataShards k B).flatten = padded k B := by
  unfold dataShards
  rw [flatten_pieces, ← length_padded hk, List.take_length]

end Data

/-! ## Round trip -/

namespace Lawful

variable {d : Coder ε} {k m : Nat} {B : Blob}

theorem shards_nil (h : d.Lawful k m) : d.shards [] = none := by
  obtain ⟨e, he⟩ := h.split_nil
  simp [shards, he, Except.toOption]

/-- The shards of a nonempty byte string. -/
theorem shards_ok (h : d.Lawful k m) (hB : B ≠ []) : ∃ ss, d.shards B = some ss ∧
    ss.length = k + m ∧ (∀ s ∈ ss, s ≠ []) ∧ ss.take k = dataShards k B := by
  obtain ⟨blank, hblank, hsplit⟩ := h.split_ok hB
  obtain ⟨parity, hlen, hsize, hencode⟩ := h.encode_ok hB hsplit
  have hpos := shardLength_pos h.pos hB
  refine ⟨dataShards k B ++ parity, ?_, by simp [hlen], ?_, ?_⟩
  · simp [shards, hsplit, hencode, Except.toOption]
  · intro s hs
    have hs : s.length = shardLength k B.length := by
      rcases List.mem_append.mp hs with hs | hs
      · exact length_of_mem_dataShards h.pos hs
      · exact hsize s hs
    exact List.ne_nil_of_length_pos (hs ▸ hpos)
  · rw [List.take_append_of_le_length (by simp), List.take_of_length_le (by simp)]

/-- The data shards joined, and cut to the length of the byte string. -/
theorem read (h : d.Lawful k m) {ss : List Blob} (hss : d.shards B = some ss) (hB : B ≠ []) :
    B.length ≤ (ss.take k).flatten.length ∧ (ss.take k).flatten.take B.length = B := by
  obtain ⟨ss', hss', -, -, htake⟩ := h.shards_ok hB
  cases hss.symm.trans hss'
  rw [htake, flatten_dataShards h.pos, length_padded h.pos]
  refine ⟨le_mul_shardLength h.pos _, ?_⟩
  unfold padded
  rw [List.take_append_of_le_length (le_refl _), List.take_length]

end Lawful

/-! ## One parity shard -/

section Parity

/-- The bytes of two shards, added without carry. -/
def xorBlob : Blob → Blob → Blob := List.zipWithAll fun a b => a.getD 0 ^^^ b.getD 0

def xorAll (ss : List Blob) : Blob := ss.foldr xorBlob []

/-- The erasure code with one parity shard, the sum of the data shards. `short` and `few` are its
errors. -/
def xorParity (k : Nat) (short few : ε) : Coder ε where
  split B := if B = [] then .error short else .ok (dataShards k B ++ [[]])
  encode ss := .ok (ss.take k ++ [xorAll (ss.take k)])
  reconstruct chunks :=
    if present chunks < k then .error few
    else .ok (chunks.map fun c =>
      if isPresent c then c else some (xorAll ((chunks.filter isPresent).map (·.getD []))))

theorem getElem?_xorBlob (s t : Blob) (i : Nat) : (xorBlob s t)[i]? =
    if s[i]? = none ∧ t[i]? = none then none else some (s[i]?.getD 0 ^^^ t[i]?.getD 0) := by
  rw [xorBlob, List.getElem?_zipWithAll]
  cases s[i]? <;> cases t[i]? <;> simp

theorem length_xorBlob (s t : Blob) : (xorBlob s t).length = max s.length t.length := by
  unfold xorBlob
  induction s generalizing t with
  | nil => cases t <;> simp [List.zipWithAll]
  | cons x s ih => cases t <;> simp [List.zipWithAll, ih, Nat.succ_max_succ]

theorem xorBlob_left_comm (s t u : Blob) : xorBlob s (xorBlob t u) = xorBlob t (xorBlob s u) := by
  have hbyte : ∀ x y z : UInt8, x ^^^ (y ^^^ z) = y ^^^ (x ^^^ z) := fun x y z => by
    rw [← UInt8.xor_assoc, UInt8.xor_comm x, UInt8.xor_assoc]
  apply List.ext_getElem?
  intro i
  simp only [getElem?_xorBlob]
  cases s[i]? <;> cases t[i]? <;> cases u[i]? <;> simp [hbyte, UInt8.xor_comm]

instance : LeftCommutative xorBlob := ⟨xorBlob_left_comm⟩

/-- A sum with one summand taken away again. -/
theorem xorBlob_cancel {s t : Blob} (h : s.length = t.length) : xorBlob s (xorBlob s t) = t := by
  apply List.ext_getElem?
  intro i
  have hnone : s[i]? = none ↔ t[i]? = none := by simp [h]
  simp only [getElem?_xorBlob, hnone]
  cases t[i]? <;> simp

theorem xorBlob_zero {s p : Blob} (h : s.length = p.length) : xorBlob s (xorBlob p p) = s := by
  apply List.ext_getElem?
  intro i
  have hnone : p[i]? = none ↔ s[i]? = none := by simp [h]
  simp only [getElem?_xorBlob, hnone]
  cases s[i]? <;> simp

theorem length_xorAll {ss : List Blob} {n : Nat} (hss : ∀ s ∈ ss, s.length = n) (hne : ss ≠ []) :
    (xorAll ss).length = n := by
  induction ss with
  | nil => exact absurd rfl hne
  | cons s rest ih =>
    obtain ⟨hs, hrest⟩ := List.forall_mem_cons.mp hss
    rw [xorAll, List.foldr_cons, length_xorBlob, hs]
    by_cases hnil : rest = []
    · simp [hnil]
    · rw [show (rest.foldr xorBlob []).length = n from ih hrest hnil, Nat.max_self]

/-- A shard is the sum of the other shards. -/
theorem xorAll_rest {D before after : List Blob} {s : Blob} {n : Nat}
    (hss : ∀ t ∈ D, t.length = n) (hne : D ≠ [])
    (hsplit : D ++ [xorAll D] = before ++ s :: after) : xorAll (before ++ after) = s := by
  have hall : ∀ t ∈ before ++ s :: after, t.length = n := by
    intro t ht
    rw [← hsplit, List.mem_append, List.mem_singleton] at ht
    rcases ht with ht | rfl
    · exact hss t ht
    · exact length_xorAll hss hne
  have hs : s.length = n := hall s (by simp)
  have hrest : (xorAll (before ++ after)).length = n := by
    refine length_xorAll (fun t ht => hall t ?_) ?_
    · simp only [List.mem_append, List.mem_cons] at ht ⊢
      tauto
    · intro hnil
      have hlen := congrArg List.length hsplit
      obtain ⟨rfl, rfl⟩ := List.append_eq_nil_iff.mp hnil
      simp [hne] at hlen
  have htotal : xorBlob s (xorAll (before ++ after)) = xorBlob (xorAll D) (xorAll D) := by
    calc xorBlob s (xorAll (before ++ after)) = xorAll (before ++ s :: after) :=
          (List.perm_middle.foldr_eq []).symm
      _ = xorAll (D ++ [xorAll D]) := by rw [hsplit]
      _ = xorBlob (xorAll D) (xorAll D) :=
          List.Perm.foldr_eq (@List.perm_append_comm _ D [xorAll D]) []
  rw [← xorBlob_cancel (hs.trans hrest.symm), htotal,
    xorBlob_zero (hs.trans (length_xorAll hss hne).symm)]

/-- Chunks that are all present are the shards. -/
theorem Matches.eq_map {chunks : List (Option Blob)} {ss : List Blob} (h : Matches chunks ss)
    (hall : ∀ c ∈ chunks, isPresent c = true) : chunks = ss.map some := by
  induction h with
  | nil => rfl
  | @cons c s chunks ss hhead htail ih =>
    obtain ⟨hc, hall⟩ := List.forall_mem_cons.mp hall
    obtain ⟨b, hb, hne⟩ : ∃ b, c = some b ∧ b ≠ [] := by
      simpa [isPresent, Option.any_eq_true] using hc
    rw [ih hall, hb, hhead b hb hne, List.map_cons]

theorem Matches.split {c : Option Blob} {before after : List (Option Blob)} {ss : List Blob}
    (h : Matches (before ++ c :: after) ss) : ∃ before' s after', ss = before' ++ s :: after' ∧
      Matches before before' ∧ Matches after after' := by
  induction before generalizing ss with
  | nil =>
    cases h with
    | @cons _ s _ ss _ htail => exact ⟨[], s, ss, rfl, .nil, htail⟩
  | cons c' before ih =>
    cases h with
    | @cons _ s' _ ss hhead htail =>
      obtain ⟨before', s, after', rfl, hbefore, hafter⟩ := ih htail
      exact ⟨s' :: before', s, after', rfl, .cons hhead hbefore, hafter⟩

/-- All shards, or all but one, restore the shards. -/
theorem restore_xorParity {k : Nat} {short few : ε} {D : List Blob} {n : Nat} (hlen : D.length = k)
    (hk : 0 < k) (hD : ∀ s ∈ D, s.length = n) {chunks : List (Option Blob)}
    (hmatch : Matches chunks (D ++ [xorAll D])) (hpresent : k ≤ present chunks) :
    (xorParity k short few).reconstruct chunks = .ok ((D ++ [xorAll D]).map some) := by
  have hne : D ≠ [] := List.ne_nil_of_length_pos (hlen ▸ hk)
  have hcount : chunks.length = k + 1 := by rw [hmatch.length_eq]; simp [hlen]
  dsimp only [xorParity]
  rw [if_neg (Nat.not_lt.mpr hpresent)]
  refine congrArg Except.ok ?_
  by_cases hall : ∀ c ∈ chunks, isPresent c = true
  · rw [← hmatch.eq_map hall]
    exact (List.map_congr_left fun c hc => if_pos (hall c hc)).trans (List.map_id _)
  -- one chunk is missing, and the others are present
  push Not at hall
  obtain ⟨c, hc, hmissing⟩ := hall
  obtain ⟨before, after, rfl⟩ := List.append_of_mem hc
  have hothers : ∀ c ∈ before ++ after, isPresent c = true := by
    rw [← List.countP_eq_length]
    have hle := List.countP_le_length (p := isPresent) (l := before ++ after)
    simp only [present, List.countP_append, List.countP_cons, hmissing, List.length_append,
      List.length_cons, Bool.false_eq_true, if_false] at hpresent hcount hle ⊢
    omega
  obtain ⟨before', s, after', hsplit, hbefore, hafter⟩ := hmatch.split
  obtain rfl := hbefore.eq_map fun c hc => hothers c (List.mem_append_left _ hc)
  obtain rfl := hafter.eq_map fun c hc => hothers c (List.mem_append_right _ hc)
  have hfound : ((before'.map some ++ c :: after'.map some).filter isPresent).map (·.getD []) =
      before' ++ after' := by
    rw [List.filter_append, List.filter_cons_of_neg (by simp [hmissing]), ← List.filter_append,
      List.filter_eq_self.mpr hothers]
    simp
  have hkeep : ∀ {l : List Blob}, (∀ c ∈ l.map some, isPresent c = true) → (l.map some).map
      (fun c => if isPresent c then c else some s) = l.map some := fun hl =>
    (List.map_congr_left fun c hc => if_pos (hl c hc)).trans (List.map_id _)
  rw [hfound, xorAll_rest hD hne hsplit, hsplit, List.map_append, List.map_cons, List.map_append,
    List.map_cons, hkeep fun c hc => hothers c (List.mem_append_left _ hc),
    hkeep fun c hc => hothers c (List.mem_append_right _ hc), if_neg (by simp [hmissing])]

theorem lawful_xorParity {k : Nat} (hk : 0 < k) (short few : ε) :
    (xorParity k short few).Lawful k 1 where
  pos := hk
  split_nil := ⟨short, rfl⟩
  split_ok := fun {B} hB => ⟨[[]], rfl, if_neg hB⟩
  encode_ok := fun {B blank} hB _ => by
    refine ⟨[xorAll (dataShards k B)], rfl, ?_, ?_⟩
    · intro p hp
      rw [List.mem_singleton.mp hp]
      exact length_xorAll (fun s hs => length_of_mem_dataShards hk hs)
        (List.ne_nil_of_length_pos (by simpa using hk))
    · simp [xorParity]
  restore := fun {B ss chunks} hB hss hmatch hpresent => by
    have hshards : (xorParity k short few).shards B =
        some (dataShards k B ++ [xorAll (dataShards k B)]) := by
      simp [shards, xorParity, hB, Except.toOption]
    cases hss.symm.trans hshards
    exact restore_xorParity (length_dataShards k B) hk
      (fun s hs => length_of_mem_dataShards hk hs) hmatch hpresent
  few := fun _ _ _ hfew => ⟨few, if_pos hfew⟩

end Parity

end Coder

end TieredStore.Lib
