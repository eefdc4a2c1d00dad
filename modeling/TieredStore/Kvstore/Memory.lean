import TieredStore.Meta.KV

/-!
# The memory store

`kvstore.Client` with a `memory://` address: a map of keys to values behind one lock. Go walks a
map in any order, so every `range` over a map takes its order from a `RangeOrder`.

A transaction keeps its writes in two maps, one of values set and one of keys deleted, and applies
all deletions before all values. No key is in both maps (`MemTxn.Apart`), so the transaction answers
and leaves what its body would when each call is applied to the store at once
(`runInTxn_sequential`). A prefix scan
returns the entries whose key has the prefix, in key order (`newPrefixIter_exact`).

The steps of the repository programs are those of this store: `kvHandler_iter` and
`kvHandler_txn`.
-/

namespace TieredStore.Kvstore

open Lib Lib.Prog Meta

variable {ν α : Type}

/-- `memoryStore.kv`. -/
abbrev MemoryKV (ν : Type) := SortedMap GoString ν

/-- The order in which `range` walks a map. -/
structure RangeOrder (α : Type) where
  arrange : List α → List α
  perm : ∀ l, (arrange l).Perm l

/-- The keys of a map, in order. -/
def keysOf (m : SortedMap GoString ν) : List GoString := m.entries.map (·.1)

theorem mem_keysOf {m : SortedMap GoString ν} {key : GoString} :
    key ∈ keysOf m ↔ (m.get? key).isSome := by
  rw [keysOf, List.mem_map, Option.isSome_iff_exists]
  constructor
  · rintro ⟨e, he, rfl⟩
    exact ⟨e.2, SortedMap.mem_entries.mp he⟩
  · rintro ⟨v, hv⟩
    exact ⟨(key, v), SortedMap.mem_entries.mpr hv, rfl⟩

theorem keysOf_sorted (m : SortedMap GoString ν) : (keysOf m).Pairwise (· < ·) :=
  List.pairwise_map.mpr m.sorted

/-! ## Transactions -/

inductive TxnCall (ν : Type) where
  | get (key : GoString)
  | set (key : GoString) (value : ν)
  | delete (key : GoString)

def TxnAnswer : TxnCall ν → Type
  | .get _ => Option ν
  | .set _ _ => Unit
  | .delete _ => Unit

/-- The function that `RunInTxn` is given. -/
abbrev Body (ν α : Type) := Prog (TxnCall ν) TxnAnswer GoError α

/-- The memory branch of `Txn`. -/
structure MemTxn (ν : Type) where
  kv : MemoryKV ν
  memSets : MemoryKV ν
  memDels : SortedMap GoString Unit

namespace MemTxn

def begin (kv : MemoryKV ν) : MemTxn ν := ⟨kv, .empty, .empty⟩

def get (t : MemTxn ν) (key : GoString) : Option ν :=
  if (t.memDels.get? key).isSome then none
  else
    match t.memSets.get? key with
    | some value => some value
    | none => t.kv.get? key

def set (t : MemTxn ν) (key : GoString) (value : ν) : MemTxn ν :=
  { t with memDels := t.memDels.erase key, memSets := t.memSets.insert key value }

def delete (t : MemTxn ν) (key : GoString) : MemTxn ν :=
  { t with memSets := t.memSets.erase key, memDels := t.memDels.insert key () }

def handle : (c : TxnCall ν) → MemTxn ν → TxnAnswer c × MemTxn ν
  | .get key, t => (t.get key, t)
  | .set key value, t => ((), t.set key value)
  | .delete key, t => ((), t.delete key)

/-- The end of `RunInTxn`: the deletions, then the values. -/
def commit (dels : RangeOrder GoString) (sets : RangeOrder (GoString × ν)) (t : MemTxn ν) :
    MemoryKV ν :=
  let kv := (dels.arrange (keysOf t.memDels)).foldl SortedMap.erase t.kv
  (sets.arrange t.memSets.entries).foldl (fun kv e => kv.insert e.1 e.2) kv

end MemTxn

def runInTxn (dels : RangeOrder GoString) (sets : RangeOrder (GoString × ν)) (body : Body ν α)
    (kv : MemoryKV ν) : Except GoError α × MemoryKV ν :=
  match body.run MemTxn.handle (.begin kv) with
  | (.error e, _) => (.error e, kv)
  | (.ok a, t) => (.ok a, t.commit dels sets)

/-! ## Batches -/

/-- The memory branch of `Batch`: a write without a value deletes. -/
structure Batch (ν : Type) where
  ops : List (Write GoString ν)

namespace Batch

def set (b : Batch ν) (key : GoString) (value : ν) : Batch ν := ⟨b.ops ++ [Write.set key value]⟩

def delete (b : Batch ν) (key : GoString) : Batch ν := ⟨b.ops ++ [Write.del key]⟩

def commit (b : Batch ν) (kv : MemoryKV ν) : MemoryKV ν := kv.applyAll b.ops

end Batch

/-! ## Calls one after another -/

abbrev TxnEvent (ν : Type) := Event (TxnCall ν) TxnAnswer

/-- A call applied to the store at once. -/
def TxnCall.apply (kv : MemoryKV ν) : TxnCall ν → MemoryKV ν
  | .get _ => kv
  | .set key value => kv.insert key value
  | .delete key => kv.erase key

/-- A call answered by the store itself. -/
def TxnCall.atOnce : (c : TxnCall ν) → MemoryKV ν → TxnAnswer c × MemoryKV ν
  | .get key, kv => (kv.get? key, kv)
  | .set key value, kv => ((), kv.insert key value)
  | .delete key, kv => ((), kv.erase key)

@[simp] theorem TxnCall.atOnce_snd (c : TxnCall ν) (kv : MemoryKV ν) :
    (c.atOnce kv).2 = c.apply kv := by
  cases c <;> rfl

/-- The store after calls, one after another. -/
def sequentially (kv : MemoryKV ν) (calls : List (TxnEvent ν)) : MemoryKV ν :=
  calls.foldl (fun kv c => c.op.apply kv) kv

/-- The batch with the sets and deletes among calls. -/
def batchOf (calls : List (TxnEvent ν)) : Batch ν :=
  calls.foldl (fun b c => match c.op with
    | .get _ => b
    | .set key value => b.set key value
    | .delete key => b.delete key) ⟨[]⟩

/-- The calls that a body makes in a transaction, with their answers. -/
def callsOf (body : Body ν α) (kv : MemoryKV ν) : List (TxnEvent ν) :=
  (body.run (recorded MemTxn.handle) (.begin kv, [])).2.2

theorem sequentially_append (kv : MemoryKV ν) (calls : List (TxnEvent ν)) (c : TxnEvent ν) :
    sequentially kv (calls ++ [c]) = c.op.apply (sequentially kv calls) := by
  simp [sequentially]

theorem commit_batchOf (kv : MemoryKV ν) (calls : List (TxnEvent ν)) :
    (batchOf calls).commit kv = sequentially kv calls := by
  induction calls using List.reverseRecOn with
  | nil => rfl
  | append_singleton calls c ih =>
    rw [sequentially_append, ← ih]
    obtain ⟨op, answer⟩ := c
    cases op with
    | get key => simp [batchOf, TxnCall.apply]
    | set key value =>
      simp [batchOf, TxnCall.apply, Batch.set, Batch.commit, SortedMap.applyAll_append,
        SortedMap.apply]
    | delete key =>
      simp [batchOf, TxnCall.apply, Batch.delete, Batch.commit, SortedMap.applyAll_append,
        SortedMap.apply]

/-! ## The two maps of a transaction -/

namespace MemTxn

/-- No key is both set and deleted. -/
def Apart (t : MemTxn ν) : Prop :=
  ∀ key, (t.memDels.get? key).isSome → t.memSets.get? key = none

theorem apart_handle {t : MemTxn ν} (h : t.Apart) (c : TxnCall ν) : (handle c t).2.Apart := by
  intro key hdel
  cases c with
  | get _ => exact h key hdel
  | set key' value =>
    simp only [handle, set, SortedMap.get?_erase] at hdel
    simp only [handle, set, SortedMap.get?_insert]
    split at hdel
    · cases hdel
    · rename_i hne
      rw [if_neg hne]
      exact h key hdel
  | delete key' =>
    simp only [handle, delete, SortedMap.get?_insert] at hdel
    simp only [handle, delete, SortedMap.get?_erase]
    split
    · rfl
    · rename_i hne
      rw [if_neg hne] at hdel
      exact h key hdel

@[simp] theorem kv_handle (t : MemTxn ν) (c : TxnCall ν) : (handle c t).2.kv = t.kv := by
  cases c <;> rfl

/-- After a call, the transaction reads what the call would leave in a store of what it read. -/
theorem get_handle {t : MemTxn ν} {kv : MemoryKV ν} (h : ∀ key, t.get key = kv.get? key)
    (c : TxnCall ν) (key : GoString) : (handle c t).2.get key = (c.apply kv).get? key := by
  cases c with
  | get _ => exact h key
  | set key' value =>
    simp only [handle, TxnCall.apply, SortedMap.get?_insert, ← h key, get, set,
      SortedMap.get?_erase]
    by_cases hkey : key = key' <;> simp [hkey]
  | delete key' =>
    simp only [handle, TxnCall.apply, SortedMap.get?_erase, ← h key, get, delete,
      SortedMap.get?_insert]
    by_cases hkey : key = key' <;> simp [hkey]

theorem foldl_erase (keys : List GoString) (kv : MemoryKV ν) :
    keys.foldl SortedMap.erase kv = kv.applyAll (keys.map Write.del) := by
  rw [SortedMap.applyAll, List.foldl_map]
  rfl

theorem foldl_insert (entries : List (GoString × ν)) (kv : MemoryKV ν) :
    entries.foldl (fun kv e => kv.insert e.1 e.2) kv =
      kv.applyAll (entries.map fun e => Write.set e.1 e.2) := by
  rw [SortedMap.applyAll, List.foldl_map]
  rfl

/-- A commit leaves what the transaction reads. -/
theorem get?_commit {t : MemTxn ν} (h : t.Apart) (dels : RangeOrder GoString)
    (sets : RangeOrder (GoString × ν)) (key : GoString) :
    (t.commit dels sets).get? key = t.get key := by
  classical
  unfold commit
  rw [foldl_erase, foldl_insert]
  unfold get
  cases hset : t.memSets.get? key with
  | some value =>
    -- the key is set, so it is not deleted
    have hnot : ¬ (t.memDels.get? key).isSome := fun hsome => by
      rw [h key hsome] at hset
      cases hset
    rw [if_neg hnot]
    refine SortedMap.get?_applyAll_of_written ?_ ?_
    · intro w hw hkey
      obtain ⟨e, he, rfl⟩ := List.mem_map.mp hw
      have hget := SortedMap.mem_entries.mp ((sets.perm _).mem_iff.mp he)
      rw [show e.1 = key from hkey, hset] at hget
      exact hget.symm
    · exact ⟨_, List.mem_map_of_mem ((sets.perm _).mem_iff.mpr
        (SortedMap.mem_entries.mpr hset)), rfl⟩
  | none =>
    rw [SortedMap.get?_applyAll_of_untouched, SortedMap.get?_applyAll_deletes]
    · refine if_congr ?_ rfl rfl
      rw [← mem_keysOf, ← (dels.perm (keysOf t.memDels)).mem_iff]
      simp
    · intro w hw
      obtain ⟨k, -, rfl⟩ := List.mem_map.mp hw
      rfl
    · intro w hw hkey
      obtain ⟨e, he, rfl⟩ := List.mem_map.mp hw
      have hget := SortedMap.mem_entries.mp ((sets.perm _).mem_iff.mp he)
      rw [show e.1 = key from hkey, hset] at hget
      cases hget

end MemTxn

/-! ## Whole transactions -/

/-- Every `Get` among calls answers what the calls before it leave. -/
def ReadsSequentially (kv : MemoryKV ν) (calls : List (TxnEvent ν)) : Prop :=
  ∀ earlier later key answer, calls = earlier ++ (⟨.get key, answer⟩ : TxnEvent ν) :: later →
    answer = (sequentially kv earlier).get? key

/-- A transaction that has made calls on a store. -/
structure Staged (kv : MemoryKV ν) (x : MemTxn ν × List (TxnEvent ν)) : Prop where
  kv_eq : x.1.kv = kv
  apart : x.1.Apart
  reads : ∀ key, x.1.get key = (sequentially kv x.2).get? key
  answers : ReadsSequentially kv x.2

theorem staged_begin (kv : MemoryKV ν) : Staged kv (.begin kv, []) where
  kv_eq := rfl
  apart := fun _ h => by cases h
  reads := fun _ => rfl
  answers := fun earlier later key answer h => by simp at h

theorem ReadsSequentially.append {kv : MemoryKV ν} {calls : List (TxnEvent ν)}
    (h : ReadsSequentially kv calls) {c : TxnEvent ν}
    (hc : ∀ key answer, c = ⟨.get key, answer⟩ → answer = (sequentially kv calls).get? key) :
    ReadsSequentially kv (calls ++ [c]) := by
  intro earlier later key answer heq
  cases later using List.reverseRecOn with
  | nil =>
    obtain ⟨rfl, hlast⟩ := List.append_inj' heq rfl
    exact hc key answer (List.singleton_inj.mp hlast)
  | append_singleton later last =>
    rw [← List.cons_append, ← List.append_assoc] at heq
    exact h earlier later key answer (List.append_inj' heq rfl).1

theorem Staged.call {kv : MemoryKV ν} {x : MemTxn ν × List (TxnEvent ν)} (h : Staged kv x)
    (c : TxnCall ν) : Staged kv (recorded MemTxn.handle c x).2 where
  kv_eq := (MemTxn.kv_handle x.1 c).trans h.kv_eq
  apart := MemTxn.apart_handle h.apart c
  reads := fun key => by
    simp only [recorded, sequentially_append]
    exact MemTxn.get_handle h.reads c key
  answers := by
    refine h.answers.append ?_
    rintro key answer heq
    obtain ⟨rfl, hanswer⟩ := Event.mk.injEq .. ▸ heq
    exact (eq_of_heq hanswer).symm.trans (h.reads key)

theorem Staged.run {kv : MemoryKV ν} (body : Body ν α) {x : MemTxn ν × List (TxnEvent ν)}
    (h : Staged kv x) : Staged kv (body.run (recorded MemTxn.handle) x).2 := by
  induction body generalizing x with
  | ret a => exact h
  | fail e => exact h
  | call c k ih => exact ih _ (h.call c)

/-- A transaction answers a call the way a store does on which the calls before it were made. -/
theorem Staged.answer {kv : MemoryKV ν} {x : MemTxn ν × List (TxnEvent ν)} (h : Staged kv x)
    (c : TxnCall ν) : (MemTxn.handle c x.1).1 = (c.atOnce (sequentially kv x.2)).1 := by
  cases c with
  | get key => exact h.reads key
  | set | delete => rfl

/-- So its body ends in the same way on both. -/
theorem Staged.run_atOnce {kv : MemoryKV ν} (body : Body ν α) {x : MemTxn ν × List (TxnEvent ν)}
    (h : Staged kv x) : (body.run (recorded MemTxn.handle) x).1 =
      (body.run TxnCall.atOnce (sequentially kv x.2)).1 := by
  induction body generalizing x with
  | ret a => rfl
  | fail e => rfl
  | call c k ih =>
    have hnext := ih (MemTxn.handle c x.1).1 (h.call c)
    rw [recorded, sequentially_append, ← TxnCall.atOnce_snd] at hnext
    rw [run_call, run_call, ← h.answer]
    exact hnext

/-- A transaction ends the way its body does when each call is applied to the store at once. Its
reads are those of the calls one after another, and it leaves what they leave, which is what a batch
with the same writes leaves; a failed one leaves the store as it was. -/
theorem runInTxn_sequential (dels : RangeOrder GoString) (sets : RangeOrder (GoString × ν))
    (body : Body ν α) (kv : MemoryKV ν) :
    ReadsSequentially kv (callsOf body kv) ∧
      (∀ a, (body.run TxnCall.atOnce kv).1 = .ok a →
        runInTxn dels sets body kv = (.ok a, sequentially kv (callsOf body kv)) ∧
        runInTxn dels sets body kv = (.ok a, (batchOf (callsOf body kv)).commit kv)) ∧
      ∀ e, (body.run TxnCall.atOnce kv).1 = .error e → runInTxn dels sets body kv = (.error e, kv) := by
  have hstaged := (staged_begin kv).run body
  have hrun := run_recorded MemTxn.handle body (.begin kv, [])
  have hout : (body.run (recorded MemTxn.handle) (.begin kv, [])).1 =
      (body.run TxnCall.atOnce kv).1 := (staged_begin kv).run_atOnce body
  have hend : ((body.run (recorded MemTxn.handle) (.begin kv, [])).2.1).commit dels sets =
      sequentially kv (callsOf body kv) :=
    SortedMap.ext fun key => (MemTxn.get?_commit hstaged.apart dels sets key).trans
      (hstaged.reads key)
  refine ⟨hstaged.answers, fun a hok => ?_, fun e herr => ?_⟩
  · have htxn : runInTxn dels sets body kv = (.ok a, sequentially kv (callsOf body kv)) := by
      unfold runInTxn
      rw [hrun, hout, hok, ← hend]
    exact ⟨htxn, by rw [commit_batchOf, htxn]⟩
  · unfold runInTxn
    rw [hrun, hout, herr]

/-- The maps are walked in the order of their keys. -/
def inKeyOrder (α : Type) : RangeOrder α := ⟨id, fun _ => .refl _⟩

/-- A body that sets a key, deletes it and sets another one, and reads both. -/
def moveBody : Body Nat (Option Nat × Option Nat) :=
  .call (.set (lit "a") 1) fun _ => .call (.delete (lit "a")) fun _ =>
    .call (.set (lit "b") 2) fun _ => .call (.get (lit "a")) fun (a : Option Nat) =>
      .call (.get (lit "b")) fun (b : Option Nat) => .ret (a, b)

/-- The two keys are moved in a store that has the first one; a body that then fails leaves it. -/
theorem moved_in_txn :
    (∃ kv', runInTxn (inKeyOrder _) (inKeyOrder _) moveBody (SortedMap.empty.insert (lit "a") 9) =
        (.ok (none, some 2), kv') ∧ kv'.entries = [(lit "b", 2)]) ∧
      runInTxn (inKeyOrder _) (inKeyOrder _) (moveBody >>= fun _ => (.fail [] : Body Nat Unit))
        (SortedMap.empty.insert (lit "a") 9) = (.error [], SortedMap.empty.insert (lit "a") 9) :=
  ⟨⟨_, ((runInTxn_sequential _ _ moveBody _).2.1 _ (by decide +kernel)).1, by decide +kernel⟩,
    (runInTxn_sequential _ _ _ _).2.2 _ (by decide +kernel)⟩

/-! ## Iterators -/

structure Iterator (ν : Type) where
  keys : List GoString
  vals : List ν
  idx : Int

namespace Iterator

def first (it : Iterator ν) : Iterator ν :=
  if it.keys.length = 0 then { it with idx := -1 } else { it with idx := 0 }

def valid (it : Iterator ν) : Bool := decide (0 ≤ it.idx ∧ it.idx < it.keys.length)

def next (it : Iterator ν) : Iterator ν := { it with idx := it.idx + 1 }

def key (it : Iterator ν) : Option GoString :=
  if it.valid then it.keys[it.idx.toNat]? else none

def value (it : Iterator ν) : Option ν :=
  if it.valid then it.vals[it.idx.toNat]? else none

/-- The loop `for ; it.Valid(); it.Next()`, for as many rounds as allowed. -/
def rest : Nat → Iterator ν → List (GoString × ν)
  | 0, _ => []
  | rounds + 1, it =>
    if it.valid then
      match it.key, it.value with
      | some key, some value => (key, value) :: rest rounds it.next
      | _, _ => []
    else []

/-- What the loop `for it.First(); it.Valid(); it.Next()` sees. It ends after the last key. -/
def drain (it : Iterator ν) : List (GoString × ν) := rest (it.keys.length + 1) it.first

end Iterator

/-- The memory branch of `NewIter`. -/
def newIter (range : RangeOrder GoString) (kv : MemoryKV ν) (lower upper : GoString) :
    Iterator ν :=
  let keys := (range.arrange (keysOf kv)).filter fun k =>
    ¬ (0 < lower.length ∧ k < lower) ∧ ¬ (0 < upper.length ∧ ¬ k < upper)
  let keys := keys.insertionSort fun a b => ¬ b < a
  -- every key is one of the map, so every key has a value
  { keys := keys, vals := keys.filterMap kv.get?, idx := -1 }

def newPrefixIter (range : RangeOrder GoString) (kv : MemoryKV ν) (pre : GoString) : Iterator ν :=
  newIter range kv pre (tiKVPrefixUpperBound pre)

theorem Iterator.rest_eq_drop {it : Iterator ν} (hvals : it.vals.length = it.keys.length)
    (rounds i : Nat) (hi : it.idx = i) (hrounds : it.keys.length < rounds + i) :
    rest rounds it = (it.keys.zip it.vals).drop i := by
  induction rounds generalizing it i with
  | zero =>
    rw [List.drop_of_length_le]
    · rfl
    · rw [List.length_zip]
      omega
  | succ rounds ih =>
    unfold rest
    by_cases hlt : i < it.keys.length
    · have hvalid : it.valid = true := by simp [valid, hi, hlt]
      have hrounds' : it.keys.length < rounds + (i + 1) := by omega
      have hzip : i < (it.keys.zip it.vals).length := by
        rw [List.length_zip, hvals, Nat.min_self]
        exact hlt
      have hnext := @ih it.next hvals (i + 1) (by simp [next, hi]) hrounds'
      rw [if_pos hvalid]
      simp only [key, value, hvalid, if_true, hi, Int.toNat_natCast,
        List.getElem?_eq_getElem hlt, List.getElem?_eq_getElem (hvals ▸ hlt)]
      rw [hnext, List.drop_eq_getElem_cons hzip, List.getElem_zip]
      rfl
    · have hvalid : it.valid = false := by simp [valid, hi, hlt]
      rw [if_neg (by simp [hvalid]), List.drop_of_length_le]
      rw [List.length_zip]
      omega

theorem Iterator.drain_eq_zip {it : Iterator ν} (hvals : it.vals.length = it.keys.length) :
    it.drain = it.keys.zip it.vals := by
  unfold drain first
  split
  · rename_i hnil
    obtain hnil : it.keys = [] := List.eq_nil_of_length_eq_zero hnil
    simp [rest, valid, hnil]
  · exact @rest_eq_drop _ { it with idx := 0 } hvals _ 0 rfl (Nat.lt_succ_self _)

/-- The entries of a map at keys that it has. -/
theorem zip_filterMap_get? {kv : MemoryKV ν} {keys : List GoString}
    (h : ∀ k ∈ keys, (kv.get? k).isSome) :
    (keys.filterMap kv.get?).length = keys.length ∧
      keys.zip (keys.filterMap kv.get?) = keys.filterMap fun k => (kv.get? k).map (k, ·) := by
  induction keys with
  | nil => exact ⟨rfl, rfl⟩
  | cons a keys ih =>
    obtain ⟨v, hv⟩ := Option.isSome_iff_exists.mp (h a List.mem_cons_self)
    obtain ⟨hlen, hzip⟩ := ih fun k hk => h k (List.mem_cons_of_mem _ hk)
    rw [List.filterMap_cons_some hv]
    exact ⟨by simp [hlen], by simp [hv, hzip]⟩

section Scan

variable (range : RangeOrder GoString) (kv : MemoryKV ν) (lower upper : GoString)

theorem mem_keys_newIter {k : GoString} : k ∈ (newIter range kv lower upper).keys ↔
    (kv.get? k).isSome ∧ ¬ k < lower ∧ (upper = [] ∨ k < upper) := by
  have hlower : (0 < lower.length ∧ k < lower) ↔ k < lower := by
    refine and_iff_right_of_imp fun hlt => ?_
    cases lower with
    | nil => exact absurd hlt (List.not_lt_nil k)
    | cons b lower => exact Nat.succ_pos _
  have hupper : ¬ (0 < upper.length ∧ ¬ k < upper) ↔ upper = [] ∨ k < upper := by
    rw [List.length_pos_iff, not_and_or, not_not, not_not]
  unfold newIter
  rw [(List.perm_insertionSort _ _).mem_iff, List.mem_filter, (range.perm _).mem_iff, mem_keysOf,
    decide_eq_true_eq, hlower, hupper]

theorem keys_newIter_sorted : (newIter range kv lower upper).keys.Pairwise (· < ·) := by
  have hle : ∀ a b : GoString, ¬ b < a ↔ a ≤ b := fun a b => not_lt
  unfold newIter
  simp only [hle]
  have hnodup : ((range.arrange (keysOf kv)).filter fun k =>
      ¬ (0 < lower.length ∧ k < lower) ∧ ¬ (0 < upper.length ∧ upper ≤ k)).Nodup :=
    ((range.perm _).nodup_iff.mpr ((keysOf_sorted kv).imp ne_of_lt)).filter _
  exact ((List.pairwise_insertionSort (· ≤ ·) _).and
    ((List.perm_insertionSort _ _).nodup_iff.mpr hnodup)).imp fun h => lt_of_le_of_ne h.1 h.2

theorem drain_newIter : (newIter range kv lower upper).drain =
    (newIter range kv lower upper).keys.filterMap fun k => (kv.get? k).map (k, ·) := by
  have hkeys : ∀ k ∈ (newIter range kv lower upper).keys, (kv.get? k).isSome := fun k hk =>
    ((mem_keys_newIter range kv lower upper).mp hk).1
  obtain ⟨hlen, hzip⟩ := zip_filterMap_get? hkeys
  exact (Iterator.drain_eq_zip hlen).trans hzip

/-- A scan returns the entries between the bounds. -/
theorem mem_drain_newIter {k : GoString} {v : ν} :
    (k, v) ∈ (newIter range kv lower upper).drain ↔
      kv.get? k = some v ∧ ¬ k < lower ∧ (upper = [] ∨ k < upper) := by
  rw [drain_newIter, List.mem_filterMap]
  constructor
  · rintro ⟨k', hk', heq⟩
    obtain ⟨v', hv', heq⟩ := Option.map_eq_some_iff.mp heq
    cases heq
    exact ⟨hv', ((mem_keys_newIter range kv lower upper).mp hk').2⟩
  · rintro ⟨hv, hbounds⟩
    refine ⟨k, (mem_keys_newIter range kv lower upper).mpr ⟨?_, hbounds⟩, ?_⟩
    · rw [hv]
      rfl
    · rw [hv]
      rfl

/-- A scan is in strict key order. -/
theorem drain_newIter_sorted :
    (newIter range kv lower upper).drain.Pairwise (fun a b => a.1 < b.1) := by
  rw [drain_newIter, List.pairwise_filterMap]
  refine (keys_newIter_sorted range kv lower upper).imp ?_
  intro a b hlt e he e' he'
  obtain ⟨v, -, rfl⟩ := Option.map_eq_some_iff.mp he
  obtain ⟨v', -, rfl⟩ := Option.map_eq_some_iff.mp he'
  exact hlt

/-- A prefix scan returns exactly the entries whose key has the prefix, in strict key order, since
the keys between its bounds are those with the prefix. -/
theorem newPrefixIter_exact (pre : GoString) :
    (∀ k v, (k, v) ∈ (newPrefixIter range kv pre).drain ↔ kv.get? k = some v ∧ pre <+: k) ∧
      (newPrefixIter range kv pre).drain.Pairwise (fun a b => a.1 < b.1) ∧
      ∀ k, (pre ≤ k ∧ (tiKVPrefixUpperBound pre = [] ∨ k < tiKVPrefixUpperBound pre)) ↔
        pre <+: k := by
  refine ⟨fun k v => ?_, drain_newIter_sorted range kv pre _, fun k => ?_⟩
  · rw [newPrefixIter, mem_drain_newIter, between_bounds_iff]
  · rw [← not_lt]
    exact between_bounds_iff pre k

end Scan

/-! ## The steps of the repository programs -/

theorem kvHandler_iter (range : RangeOrder GoString) (s : Store) (lower upper : GoString) :
    kvHandler (.iter lower upper) s = ((newIter range s lower upper).drain, s) := by
  have hnodup : ∀ {l : List (GoString × Value)}, l.Pairwise (fun a b => a.1 < b.1) → l.Nodup :=
    fun h => h.imp fun hlt heq => absurd (heq ▸ hlt) (lt_irrefl _)
  have hsorted : (iterate s lower upper).Pairwise (fun a b => a.1 < b.1) := s.sorted.filter _
  have hdrain := drain_newIter_sorted range s lower upper
  have hperm : (iterate s lower upper).Perm (newIter range s lower upper).drain := by
    refine (List.perm_ext_iff_of_nodup (hnodup hsorted) (hnodup hdrain)).mpr ?_
    rintro ⟨k, v⟩
    rw [mem_drain_newIter, iterate, List.mem_filter, SortedMap.mem_entries, decide_eq_true_eq]
  refine Prod.ext ?_ rfl
  refine hperm.eq_of_pairwise ?_ hsorted hdrain
  intro a b _ _ hab hba
  exact absurd hab (not_lt_of_gt hba)

/-- A step of a transaction body as a call. -/
def callOf : (o : TxnOp) → Body Value (TxnRes o)
  | .get key => .call (.get key) .ret
  | .set key value => .call (.set key value) .ret
  | .delete key => .call (.delete key) .ret

/-- A transaction that reads the snapshot with the writes of a body so far. -/
structure Reads (s : Store) (t : MemTxn Value) (ws : List KVWrite) : Prop where
  apart : t.Apart
  reads : ∀ key, t.get key = (s.applyAll ws).get? key

theorem Reads.write {s : Store} {t : MemTxn Value} {ws : List KVWrite} (h : Reads s t ws)
    {c : TxnCall Value} {w : KVWrite} (hw : ∀ kv, c.apply kv = SortedMap.apply kv w) :
    Reads s (MemTxn.handle c t).2 (ws ++ [w]) where
  apart := MemTxn.apart_handle h.apart c
  reads := fun key => by
    rw [MemTxn.get_handle h.reads c key, hw, SortedMap.applyAll_append]
    rfl

theorem Reads.run {s : Store} (body : Txn α) {t : MemTxn Value} {ws : List KVWrite}
    (h : Reads s t ws) :
    ((body.translate callOf).run MemTxn.handle t).1 = (body.run (Txn.step s) ws).1 ∧
      Reads s ((body.translate callOf).run MemTxn.handle t).2 (body.run (Txn.step s) ws).2 := by
  induction body generalizing t ws with
  | ret a => exact ⟨rfl, h⟩
  | fail e => exact ⟨rfl, h⟩
  | call o k ih =>
    cases o with
    | get key =>
      have hcall : ((call (TxnOp.get key) k).translate callOf).run MemTxn.handle t =
          ((k ((s.applyAll ws).get? key)).translate callOf).run MemTxn.handle t := by
        rw [← h.reads key]
        rfl
      rw [hcall]
      exact ih _ h
    | set key value => exact ih () (h.write (c := .set key value) fun _ => rfl)
    | delete key => exact ih () (h.write (c := .delete key) fun _ => rfl)

theorem kvHandler_txn (dels : RangeOrder GoString) (sets : RangeOrder (GoString × Value))
    (body : Txn (Option TaskRecord)) (s : Store) :
    kvHandler (.txn body) s = runInTxn dels sets (body.translate callOf) s := by
  have hbegin : Reads s (.begin s) [] := ⟨(staged_begin s).apart, (staged_begin s).reads⟩
  obtain ⟨hout, hreads⟩ := hbegin.run body
  have hend : (((body.translate callOf).run MemTxn.handle (.begin s)).2).commit dels sets =
      s.applyAll (body.run (Txn.step s) []).2 :=
    SortedMap.ext fun key => (MemTxn.get?_commit hreads.apart dels sets key).trans
      (hreads.reads key)
  unfold runInTxn
  simp only [kvHandler, Txn.effect]
  generalize (body.translate callOf).run MemTxn.handle (.begin s) = y at hout hend ⊢
  generalize body.run (Txn.step s) [] = x at hout hend ⊢
  obtain ⟨out, t⟩ := y
  obtain ⟨out', ws⟩ := x
  obtain rfl : out = out' := hout
  cases out with
  | error e => rfl
  | ok a => exact congrArg (Prod.mk _) hend.symm

end TieredStore.Kvstore
