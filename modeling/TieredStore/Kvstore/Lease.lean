import TieredStore.Lib.Pool
import TieredStore.Lib.Utf8
import TieredStore.Meta.Schema

/-!
# The leader lease

`kvstore.Client` keeps a lease as one key: the owner and a time of expiry. Every operation reads
the clock and a snapshot of the key and commits when nobody has written the key since. An acquire
reads the clock before its snapshot, a refresh after it.

The history of the key is a log of its commits. A grant that no release has ended is kept
(`Kept`): its owner is still stored, or another owner took the key over at or after the expiry.
What one commit does to this is `Kept.commit`; over all interleavings of any number of clients it
gives `lease_exclusive`. A grant can be ended by the release of a later owner, and then a client
whose clock reading is older than the expiry finds the key free: `stale_reading_acquires`.

The memory client makes its snapshot and its commit under one mutex, which is one of these
interleavings. Times are nanoseconds; `UnixNano` is exact (it is undefined outside `int64`).
-/

namespace TieredStore.Kvstore

open Lib Lib.Prog

/-! ## Operations -/

structure LockValue where
  owner : GoString
  expiresAtUnixNano : Int
  deriving DecidableEq

/-- The stored value as `unmarshalLockValue` reads it back: JSON keeps text only, so bytes that are
not UTF-8 are replaced. -/
def marshalLockValue (owner : GoString) (expiresAt : Int) : LockValue :=
  ⟨Utf8.toValid owner, expiresAt⟩

/-- What a transaction writes, with the caller and the clock reading it decided by. -/
inductive LockWrite where
  | acquire (owner : GoString) (now : Int) (value : LockValue)
  | refresh (owner : GoString) (now : Int) (value : LockValue)
  | release (owner : GoString)
  deriving DecidableEq

inductive SnapshotError where
  | begin (err : GoError)
  | get (err : GoError)

inductive CommitError where
  | set (err : GoError)
  | writeConflict (err : GoError)
  | commit (err : GoError)

inductive LockCall where
  | now
  | snapshot
  | commit (start : Nat) (write : LockWrite)

/-- A snapshot comes with the version of the key that it saw. -/
def LockAnswer : LockCall → Type
  | .now => Int
  | .snapshot => Except SnapshotError (Nat × Option LockValue)
  | .commit _ _ => Except CommitError Unit

abbrev Lock (α : Type) := Prog LockCall LockAnswer GoError α

namespace Lock

def now : Lock Int := perform LockCall.now

def snapshot : Lock (Except SnapshotError (Nat × Option LockValue)) := perform LockCall.snapshot

def commit (start : Nat) (write : LockWrite) : Lock (Except CommitError Unit) :=
  perform (LockCall.commit start write)

end Lock

def effectiveTTL (ttl : Int) : Int := if ttl ≤ 0 then 10 * 10 ^ 9 else ttl

theorem effectiveTTL_pos (ttl : Int) : 0 < effectiveTTL ttl := by
  unfold effectiveTTL
  split <;> omega

/-- Set, commit, and what the outcome means to an acquire or a refresh. -/
def commitLock (start : Nat) (write : LockWrite) (setText commitText : GoString) : Lock Bool := do
  match ← Lock.commit start write with
  | .ok () => pure true
  | .error (.set err) => fail (setText ++ err)
  | .error (.writeConflict _) => pure false
  | .error (.commit err) => fail (commitText ++ err)

def tryAcquireLockWithTTL (owner : GoString) (ttl : Int) : Lock Bool := do
  let now ← Lock.now
  let newVal := marshalLockValue owner (now + effectiveTTL ttl)
  match ← Lock.snapshot with
  | .error (.begin err) => fail (lit "tikv begin try-acquire-lock failed: " ++ err)
  | .error (.get err) => fail (lit "tikv get lock failed: " ++ err)
  | .ok (start, some existing) =>
    if existing.owner = owner ∧ now < existing.expiresAtUnixNano then
      commitLock start (.acquire owner now newVal) (lit "tikv refresh owned lock failed: ")
        (lit "tikv commit refresh owned lock failed: ")
    else if now < existing.expiresAtUnixNano then pure false
    else
      commitLock start (.acquire owner now newVal) (lit "tikv takeover stale lock failed: ")
        (lit "tikv commit stale lock takeover failed: ")
  | .ok (start, none) =>
    commitLock start (.acquire owner now newVal) (lit "tikv set lock failed: ")
      (lit "tikv commit lock failed: ")

def isLockOwner (owner : GoString) : Lock Bool := do
  match ← Lock.snapshot with
  | .error (.begin err) => fail (lit "tikv begin is-lock-owner failed: " ++ err)
  | .error (.get err) => fail (lit "tikv get lock owner failed: " ++ err)
  | .ok (_, none) => pure false
  | .ok (_, some v) =>
    let now ← Lock.now
    if v.expiresAtUnixNano ≤ now then pure false else pure (v.owner = owner)

def refreshLock (owner : GoString) (ttl : Int) : Lock Bool := do
  match ← Lock.snapshot with
  | .error (.begin err) => fail (lit "tikv begin refresh-lock failed: " ++ err)
  | .error (.get err) => fail (lit "tikv get lock before refresh failed: " ++ err)
  | .ok (_, none) => pure false
  | .ok (start, some v) =>
    let now ← Lock.now
    if v.owner ≠ owner ∨ v.expiresAtUnixNano ≤ now then pure false
    else
      commitLock start (.refresh owner now (marshalLockValue owner (now + effectiveTTL ttl)))
        (lit "tikv refresh lock set failed: ") (lit "tikv refresh lock commit failed: ")

def releaseLock (owner : GoString) : Lock Unit := do
  match ← Lock.snapshot with
  | .error (.begin err) => fail (lit "tikv begin release-lock failed: " ++ err)
  | .error (.get err) => fail (lit "tikv get lock before release failed: " ++ err)
  | .ok (_, none) => pure ()
  | .ok (start, some v) =>
    if v.owner ≠ owner then pure ()
    else
      match ← Lock.commit start (.release owner) with
      | .ok () => pure ()
      | .error (.set err) => fail (lit "tikv delete lock failed: " ++ err)
      | .error (.writeConflict err) => fail (lit "tikv commit release-lock failed: " ++ err)
      | .error (.commit err) => fail (lit "tikv commit release-lock failed: " ++ err)

inductive LockRequest where
  | tryAcquire
  | refresh
  | release
  | isOwner

def LockRequest.run (owner : GoString) (ttl : Int) : LockRequest → Lock Unit
  | .tryAcquire => do let _ ← tryAcquireLockWithTTL owner ttl
  | .refresh => do let _ ← refreshLock owner ttl
  | .release => releaseLock owner
  | .isOwner => do let _ ← isLockOwner owner

/-- A client issues its calls one after another, whatever they return. -/
def client (owner : GoString) (ttl : Int) : List LockRequest → Lock Unit
  | [] => pure ()
  | request :: requests => do
    let _ ← (request.run owner ttl).attempt
    client owner ttl requests

/-! ## The key and its history -/

namespace LockWrite

def owner : LockWrite → GoString
  | .acquire owner _ _ => owner
  | .refresh owner _ _ => owner
  | .release owner => owner

def now? : LockWrite → Option Int
  | .acquire _ now _ => some now
  | .refresh _ now _ => some now
  | .release _ => none

/-- The value of the key after the commit. -/
def after : LockWrite → Option LockValue
  | .acquire _ _ value => some value
  | .refresh _ _ value => some value
  | .release _ => none

end LockWrite

/-- A commit, with the value it replaced. -/
structure LockEntry where
  write : LockWrite
  before : Option LockValue
  deriving DecidableEq

/-- The key, the clock, and the commits so far, newest first. -/
structure LockState where
  value : Option LockValue
  writes : Nat
  clock : Int
  log : List LockEntry

def LockState.absent (clock : Int) : LockState := ⟨none, 0, clock, []⟩

def LockState.commit (s : LockState) (w : LockWrite) : LockState :=
  { s with value := w.after, writes := s.writes + 1, log := ⟨w, s.value⟩ :: s.log }

/-- The clock does not go back, a snapshot shows the key as it is, and a commit takes effect only
when the key has not been written since the snapshot. A commit that reports an error other than a
conflict may have taken effect. -/
def LockServes : (o : LockCall) → LockState → LockAnswer o → LockState → Prop
  | .now, s, t, s' => s.clock ≤ t ∧ s' = { s with clock := t }
  | .snapshot, s, res, s' => (∀ x, res = .ok x → x = (s.writes, s.value)) ∧ s' = s
  | .commit start w, s, res, s' =>
    (s.writes = start ∧ (res = .ok () ∨ ∃ err, res = .error (.commit err)) ∧ s' = s.commit w) ∨
      (res ≠ .ok () ∧ s' = s)

/-- Clients with their owner tokens. -/
abbrev LockRun := Pool LockCall LockAnswer GoError Unit GoString LockState

def begins (token : Nat → GoString) (ttl : Int) (i : Nat) (owner : GoString) (p : Lock Unit)
    (s s' : LockState) : Prop :=
  owner = token i ∧ (∃ requests, p = client owner ttl requests) ∧ s' = s

/-- Every state that any number of clients reach from the absent key. -/
def LockReaches (token : Nat → GoString) (ttl clock : Int) (c : LockRun) : Prop :=
  Pool.Reaches (begins token ttl) (fun _ _ => LockServes) (Pool.idle (.absent clock)) c

/-! ## What a client knows -/

/-- The last clock reading and the last snapshot of a client. -/
structure LockKnowledge where
  reading : Option Int
  seen : Option (Nat × Option LockValue)

/-- When an owner may commit a write over a value of the key. -/
def Justified (owner : GoString) (ttl : Int) (value : Option LockValue) : LockWrite → Prop
  | .acquire o now v => o = owner ∧ v = ⟨owner, now + effectiveTTL ttl⟩ ∧
    ∀ u, value = some u → u.owner = owner ∧ now < u.expiresAtUnixNano ∨ u.expiresAtUnixNano ≤ now
  | .refresh o now v => o = owner ∧ v = ⟨owner, now + effectiveTTL ttl⟩ ∧
    ∃ u, value = some u ∧ u.owner = owner ∧ now < u.expiresAtUnixNano
  | .release o => o = owner ∧ ∃ u, value = some u ∧ u.owner = owner

/-- A client commits by its last clock reading, over its last snapshot. -/
def lockMonitor (ttl : Int) (owner : GoString) : Monitor LockCall LockAnswer LockKnowledge where
  allow t
    | .now => True
    | .snapshot => True
    | .commit start w => (∀ n, w.now? = some n → t.reading = some n) ∧
      ∃ value, t.seen = some (start, value) ∧ Justified owner ttl value w
  next t
    | .now, n, t' => t' = { t with reading := some n }
    | .snapshot, res, t' => ∀ x, res = .ok x → t' = { t with seen := some x }
    | .commit _ _, _, t' => t' = t

section Programs

variable {owner : GoString} {ttl : Int} {t : LockKnowledge}

theorem obeys_now {α : Type} {Q : Except GoError α → LockKnowledge → Prop} {k : Int → Lock α}
    (h : ∀ now, (k now).Obeys (lockMonitor ttl owner) Q { t with reading := some now }) :
    (Lock.now >>= k).Obeys (lockMonitor ttl owner) Q t := by
  refine ⟨trivial, ?_⟩
  rintro now t' rfl
  exact h now

theorem obeys_snapshot {α : Type} {Q : Except GoError α → LockKnowledge → Prop}
    {k : Except SnapshotError (Nat × Option LockValue) → Lock α}
    (herr : ∀ err t', (k (.error err)).Obeys (lockMonitor ttl owner) Q t')
    (h : ∀ x, (k (.ok x)).Obeys (lockMonitor ttl owner) Q { t with seen := some x }) :
    (Lock.snapshot >>= k).Obeys (lockMonitor ttl owner) Q t := by
  refine ⟨trivial, ?_⟩
  rintro (err | x) t' hseen
  · exact herr err t'
  · obtain rfl := hseen x rfl
    exact h x

theorem obeys_commitLock {start : Nat} {w : LockWrite} {setText commitText : GoString}
    (hreading : ∀ n, w.now? = some n → t.reading = some n) {value : Option LockValue}
    (hseen : t.seen = some (start, value)) (hw : Justified owner ttl value w) :
    (commitLock start w setText commitText).Obeys (lockMonitor ttl owner) (fun _ _ => True) t := by
  refine ⟨⟨hreading, value, hseen, hw⟩, ?_⟩
  rintro (err | ⟨⟩) t' -
  · cases err <;> trivial
  · trivial

theorem obeys_tryAcquireLockWithTTL (hvalid : Utf8.Valid owner) :
    (tryAcquireLockWithTTL owner ttl).Obeys (lockMonitor ttl owner) (fun _ _ => True) t := by
  refine obeys_now fun now => obeys_snapshot (fun err t' => by cases err <;> trivial) ?_
  have hvalue : marshalLockValue owner (now + effectiveTTL ttl) = ⟨owner, now + effectiveTTL ttl⟩ :=
    congrArg (LockValue.mk · _) hvalid
  rintro ⟨start, _ | existing⟩
  · exact obeys_commitLock (fun n h => h) rfl ⟨rfl, hvalue, fun u hu => by cases hu⟩
  · dsimp only
    split
    · rename_i howned
      refine obeys_commitLock (fun n h => h) rfl ⟨rfl, hvalue, ?_⟩
      rintro u ⟨⟩
      exact .inl howned
    · split
      · trivial
      · rename_i hexpired
        refine obeys_commitLock (fun n h => h) rfl ⟨rfl, hvalue, ?_⟩
        rintro u ⟨⟩
        exact .inr (not_lt.mp hexpired)

theorem obeys_refreshLock (hvalid : Utf8.Valid owner) :
    (refreshLock owner ttl).Obeys (lockMonitor ttl owner) (fun _ _ => True) t := by
  refine obeys_snapshot (fun err t' => by cases err <;> trivial) ?_
  rintro ⟨start, _ | v⟩
  · trivial
  · refine obeys_now fun now => ?_
    split
    · trivial
    · rename_i hheld
      obtain ⟨howner, hlive⟩ := not_or.mp hheld
      refine obeys_commitLock (fun n h => h) rfl ⟨rfl, congrArg (LockValue.mk · _) hvalid, ?_⟩
      exact ⟨v, rfl, not_not.mp howner, not_le.mp hlive⟩

theorem obeys_releaseLock :
    (releaseLock owner).Obeys (lockMonitor ttl owner) (fun _ _ => True) t := by
  refine obeys_snapshot (fun err t' => by cases err <;> trivial) ?_
  rintro ⟨start, _ | v⟩
  · trivial
  · dsimp only
    split
    · trivial
    · rename_i howner
      refine ⟨⟨nofun, some v, rfl, rfl, v, rfl, not_not.mp howner⟩, ?_⟩
      rintro (err | ⟨⟩) t₂ -
      · cases err <;> trivial
      · trivial

theorem obeys_isLockOwner :
    (isLockOwner owner).Obeys (lockMonitor ttl owner) (fun _ _ => True) t := by
  refine obeys_snapshot (fun err t' => by cases err <;> trivial) ?_
  rintro ⟨start, _ | v⟩
  · trivial
  · refine obeys_now fun now => ?_
    split <;> trivial

theorem obeys_client (hvalid : Utf8.Valid owner) (requests : List LockRequest) :
    (client owner ttl requests).Obeys (lockMonitor ttl owner) (fun _ _ => True) t := by
  induction requests generalizing t with
  | nil => trivial
  | cons request requests ih =>
    have hrun : (request.run owner ttl).Obeys (lockMonitor ttl owner) (fun _ _ => True) t := by
      cases request with
      | tryAcquire =>
        exact (obeys_tryAcquireLockWithTTL hvalid).bind (fun _ _ _ => trivial) fun _ _ _ => trivial
      | refresh =>
        exact (obeys_refreshLock hvalid).bind (fun _ _ _ => trivial) fun _ _ _ => trivial
      | release => exact obeys_releaseLock
      | isOwner => exact obeys_isLockOwner.bind (fun _ _ _ => trivial) fun _ _ _ => trivial
    exact hrun.attempt_bind fun _ _ _ => ih

end Programs

/-! ## Grants -/

/-- The commit gave the owner a lease until `e`. -/
def Grants (owner : GoString) (e : Int) (w : LockWrite) : Prop :=
  w.owner = owner ∧ ∃ v, w.after = some v ∧ v.expiresAtUnixNano = e

/-- The commit is an acquire of the owner by a clock reading of at least `e`. -/
def TakesOver (owner : GoString) (e : Int) (x : LockEntry) : Prop :=
  ∃ now v, x.write = .acquire owner now v ∧ e ≤ now

/-- Since a grant to `owner` until `e`, the owner has released the key, or an owner that took it
over at or after `e` has. -/
def Freed (owner : GoString) (e : Int) (since : List LockEntry) : Prop :=
  (∃ x ∈ since, x.write = .release owner) ∨
    ∃ later x earlier other, since = later ++ x :: earlier ∧ x.write = .release other ∧
      ∃ y ∈ earlier, TakesOver other e y

/-- Since a grant to `owner` until `e`, the key has been held at least as long, by the owner or by
one that took it over at or after `e`. -/
def Kept (value : Option LockValue) (owner : GoString) (e : Int) (since : List LockEntry) : Prop :=
  ∃ u, value = some u ∧ e ≤ u.expiresAtUnixNano ∧
    (u.owner = owner ∨ ∃ y ∈ since, TakesOver u.owner e y)

theorem Freed.cons {owner : GoString} {e : Int} {since : List LockEntry}
    (h : Freed owner e since) (x : LockEntry) : Freed owner e (x :: since) := by
  rcases h with ⟨y, hy, hrelease⟩ | ⟨later, y, earlier, other, rfl, hrelease⟩
  · exact .inl ⟨y, List.mem_cons_of_mem _ hy, hrelease⟩
  · exact .inr ⟨x :: later, y, earlier, other, rfl, hrelease⟩

section Commit

variable {owner caller : GoString} {ttl e : Int} {value : Option LockValue}
  {since : List LockEntry} {w : LockWrite}

/-- The clock readings of the caller's earlier commits are at most that of this one. -/
def InOrder (caller : GoString) (w : LockWrite) (since : List LockEntry) : Prop :=
  ∀ x ∈ since, x.write.owner = caller → ∀ n, x.write.now? = some n →
    ∀ now, w.now? = some now → n ≤ now

/-- A take-over by the caller was read off the clock before this commit. -/
theorem InOrder.le_now (horder : InOrder caller w since) {now : Int} (hnow : w.now? = some now)
    {y : LockEntry} (hy : y ∈ since) (htakes : TakesOver caller e y) : e ≤ now := by
  obtain ⟨n, v, hwrite, hle⟩ := htakes
  exact hle.trans (horder y hy (by rw [hwrite]; rfl) n (by rw [hwrite]; rfl) now hnow)

/-- An acquire of another owner over a grant that is kept reads the clock at or after its expiry. -/
theorem Kept.le_now (h : Kept value owner e since) {now : Int} {v : LockValue}
    (hw : Justified caller ttl value (.acquire caller now v)) (hother : caller ≠ owner)
    (horder : InOrder caller (.acquire caller now v) since) : e ≤ now := by
  obtain ⟨u, rfl, hexpiry, hholder⟩ := h
  rcases hw.2.2 u rfl with ⟨rfl, -⟩ | hexpired
  · obtain ⟨y, hy, htakes⟩ := hholder.resolve_left hother
    exact horder.le_now rfl hy htakes
  · exact hexpiry.trans hexpired

/-- One commit: the grant stays kept, or the commit is the release that ends it. -/
theorem Kept.commit (h : Kept value owner e since) (hw : Justified caller ttl value w)
    (horder : InOrder caller w since)
    (hgrant : caller = owner → ∀ now, w.now? = some now → e ≤ now + effectiveTTL ttl) :
    Freed owner e (⟨w, value⟩ :: since) ∨ Kept w.after owner e (⟨w, value⟩ :: since) := by
  have hpos := effectiveTTL_pos ttl
  cases w with
  | acquire o now v =>
    obtain ⟨rfl, rfl, -⟩ := id hw
    right
    refine ⟨_, rfl, ?_⟩
    by_cases hsame : o = owner
    · exact ⟨hgrant hsame now rfl, .inl hsame⟩
    · have hle := h.le_now hw hsame horder
      exact ⟨by dsimp only; omega, .inr ⟨_, List.mem_cons_self, now, _, rfl, hle⟩⟩
  | refresh o now v =>
    obtain ⟨rfl, rfl, u, rfl, rfl, -⟩ := id hw
    obtain ⟨_, hu, -, hholder⟩ := h
    obtain rfl := Option.some.inj hu
    right
    refine ⟨_, rfl, ?_⟩
    rcases hholder with hsame | ⟨y, hy, htakes⟩
    · exact ⟨hgrant hsame now rfl, .inl hsame⟩
    · have hle : e ≤ now := horder.le_now rfl hy htakes
      exact ⟨by dsimp only; omega, .inr ⟨y, List.mem_cons_of_mem _ hy, htakes⟩⟩
  | release o =>
    obtain ⟨rfl, u, rfl, rfl⟩ := id hw
    obtain ⟨_, hu, -, hholder⟩ := h
    obtain rfl := Option.some.inj hu
    left
    rcases hholder with rfl | htakes
    · exact .inl ⟨_, List.mem_cons_self, rfl⟩
    · exact .inr ⟨[], _, since, u.owner, rfl, rfl, htakes⟩

end Commit

/-! ## All interleavings -/

/-- Between a grant and another owner's later acquire by a clock reading before its expiry, the
grant has `Ended`. -/
def Separates (Ended : GoString → Int → List LockEntry → Prop) (log : List LockEntry) : Prop :=
  ∀ l₁ c l₂ a l₃ owner e other now v, log = l₁ ++ c :: (l₂ ++ a :: l₃) →
    Grants owner e a.write → c.write = .acquire other now v → other ≠ owner → now < e →
      Ended owner e l₂

/-- The owner of the grant has released the key itself. -/
def Released (owner : GoString) (_ : Int) (since : List LockEntry) : Prop :=
  ∃ x ∈ since, x.write = .release owner

/-- What the history of the key says about the lease. -/
structure LeaseSafe (log : List LockEntry) : Prop where
  exclusive : Separates Freed log
  refreshed : ∀ x ∈ log, ∀ owner now v, x.write = .refresh owner now v →
    ∃ u, x.before = some u ∧ u.owner = owner ∧ now < u.expiresAtUnixNano
  released : ∀ x ∈ log, ∀ owner, x.write = .release owner →
    ∃ u, x.before = some u ∧ u.owner = owner

/-- The invariant: readings lie in the past, every commit was justified by what it replaced, and
every grant has been freed or is kept. -/
structure LockInv (ttl : Int) (s : LockState) : Prop where
  past : ∀ x ∈ s.log, ∀ n, x.write.now? = some n → n ≤ s.clock
  justified : ∀ x ∈ s.log, Justified x.write.owner ttl x.before x.write
  granted : ∀ l a l₃ owner e, s.log = l ++ a :: l₃ → Grants owner e a.write →
    Freed owner e l ∨ Kept s.value owner e l
  exclusive : Separates Freed s.log

/-- What a client knows is true of the key: its own commits were made by earlier readings, and its
snapshot is what the key holds unless it has been written since. -/
structure LockKnows (owner : GoString) (t : LockKnowledge) (s : LockState) : Prop where
  reading : ∀ now, t.reading = some now → now ≤ s.clock ∧
    ∀ x ∈ s.log, x.write.owner = owner → ∀ n, x.write.now? = some n → n ≤ now
  seen : ∀ start value, t.seen = some (start, value) → start ≤ s.writes ∧
    (s.writes = start → s.value = value)

section Interference

variable {owner : GoString} {ttl : Int} {s : LockState} {t : LockKnowledge} {w : LockWrite}

theorem owner_of_justified {value : Option LockValue} (hw : Justified owner ttl value w) :
    w.owner = owner := by
  cases w with
  | acquire o now v => exact hw.1
  | refresh o now v => exact hw.1
  | release o => exact hw.1

theorem after_of_justified {value : Option LockValue} {v : LockValue}
    (hw : Justified owner ttl value w) (hafter : w.after = some v) :
    v.owner = owner ∧ ∃ now, w.now? = some now ∧
      v.expiresAtUnixNano = now + effectiveTTL ttl := by
  cases w with
  | acquire o now v' =>
    obtain ⟨-, rfl, -⟩ := hw
    cases hafter
    exact ⟨rfl, now, rfl, rfl⟩
  | refresh o now v' =>
    obtain ⟨-, rfl, -⟩ := hw
    cases hafter
    exact ⟨rfl, now, rfl, rfl⟩
  | release o => cases hafter

theorem LockInv.commit (hs : LockInv ttl s) (hw : Justified owner ttl s.value w)
    (hreading : ∀ now, w.now? = some now → now ≤ s.clock ∧
      ∀ x ∈ s.log, x.write.owner = owner → ∀ n, x.write.now? = some n → n ≤ now) :
    LockInv ttl (s.commit w) := by
  have horder : ∀ {l a l₃}, s.log = l ++ a :: l₃ → InOrder owner w l := by
    intro l a l₃ hlog x hx hsame n hn now hnow
    exact (hreading now hnow).2 x (hlog ▸ List.mem_append_left _ hx) hsame n hn
  refine ⟨?_, ?_, ?_, ?_⟩
  · rintro x (_ | ⟨_, hx⟩) n hn
    · exact (hreading n hn).1
    · exact hs.past x hx n hn
  · rintro x (_ | ⟨_, hx⟩)
    · exact owner_of_justified hw ▸ hw
    · exact hs.justified x hx
  · rintro (_ | ⟨x, l⟩) a l₃ holder e hlog hgrant
    · -- The new commit is the grant.
      obtain ⟨rfl, rfl⟩ := List.cons.inj hlog
      obtain ⟨rfl, v, hafter, rfl⟩ := hgrant
      have hv := (after_of_justified hw hafter).1
      exact .inr ⟨v, hafter, le_refl _, .inl (hv.trans (owner_of_justified hw).symm)⟩
    · obtain ⟨rfl, hrest⟩ := List.cons.inj hlog
      rcases hs.granted l a l₃ holder e hrest hgrant with hfreed | hkept
      · exact .inl (hfreed.cons _)
      · refine hkept.commit hw (horder hrest) ?_
        rintro rfl now hnow
        -- The caller renews its own grant: the clock has not gone back in between.
        have ha : a ∈ s.log := hrest ▸ List.mem_append_right _ List.mem_cons_self
        obtain ⟨hsame, v, hafter, rfl⟩ := hgrant
        obtain ⟨-, n, hn, hexpiry⟩ := after_of_justified (hs.justified a ha) hafter
        have := (hreading now hnow).2 a ha hsame n hn
        omega
  · rintro (_ | ⟨x, l₁⟩) c l₂ a l₃ holder e other now v hlog hgrant hacquire hother hlt
    · obtain ⟨rfl, hrest⟩ := List.cons.inj hlog
      obtain rfl : w = .acquire other now v := hacquire
      obtain rfl : other = owner := hw.1
      refine (hs.granted l₂ a l₃ holder e hrest hgrant).resolve_right fun hkept => ?_
      exact absurd (hkept.le_now hw hother (horder hrest)) (not_le.mpr hlt)
    · exact hs.exclusive l₁ c l₂ a l₃ holder e other now v (List.cons.inj hlog).2 hgrant hacquire
        hother hlt

theorem LockKnows.commit_other (h : LockKnows owner t s) (hother : w.owner ≠ owner) :
    LockKnows owner t (s.commit w) := by
  refine ⟨fun now hnow => ⟨(h.reading now hnow).1, ?_⟩, fun start value hseen => ?_⟩
  · rintro x (_ | ⟨_, hx⟩) hsame n hn
    · exact absurd hsame hother
    · exact (h.reading now hnow).2 x hx hsame n hn
  · have hle := (h.seen start value hseen).1
    refine ⟨Nat.le_succ_of_le hle, fun hwrites => ?_⟩
    have : s.writes + 1 = start := hwrites
    omega

theorem LockKnows.commit_self (h : LockKnows owner t s)
    (hw : ∀ n, w.now? = some n → t.reading = some n) : LockKnows owner t (s.commit w) := by
  refine ⟨fun now hnow => ⟨(h.reading now hnow).1, ?_⟩, fun start value hseen => ?_⟩
  · rintro x (_ | ⟨_, hx⟩) hsame n hn
    · have := (hw n hn).symm.trans hnow
      exact (Option.some.inj this).le
    · exact (h.reading now hnow).2 x hx hsame n hn
  · have hle := (h.seen start value hseen).1
    refine ⟨Nat.le_succ_of_le hle, fun hwrites => ?_⟩
    have : s.writes + 1 = start := hwrites
    omega

theorem LockKnows.tick (h : LockKnows owner t s) {clock : Int} (hle : s.clock ≤ clock) :
    LockKnows owner t { s with clock := clock } :=
  ⟨fun now hnow => ⟨(h.reading now hnow).1.trans hle, (h.reading now hnow).2⟩, h.seen⟩

theorem lock_discipline {token : Nat → GoString} (hinj : token.Injective)
    (hvalid : ∀ i, Utf8.Valid (token i)) (ttl : Int) :
    Pool.Discipline (begins token ttl) (fun _ _ => LockServes) (lockMonitor ttl)
      (fun _ _ _ => True) (LockInv ttl)
      (fun i owner t s => owner = token i ∧ LockKnows owner t s) where
  onCall := by
    rintro i owner t o s res s' hs ⟨howner, hknows⟩ hallow hstep
    cases o with
    | now =>
      obtain ⟨hle, rfl⟩ := hstep
      refine ⟨⟨fun x hx n hn => (hs.past x hx n hn).trans hle, hs.justified, hs.granted,
        hs.exclusive⟩, _, rfl, howner, ?_⟩
      refine ⟨?_, hknows.seen⟩
      rintro now ⟨⟩
      exact ⟨le_refl _, fun x hx _ n hn => (hs.past x hx n hn).trans hle⟩
    | snapshot =>
      obtain ⟨hres, rfl⟩ := hstep
      rcases res with err | x
      · exact ⟨hs, t, nofun, howner, hknows⟩
      · obtain rfl := hres x rfl
        refine ⟨hs, { t with seen := some (s'.writes, s'.value) }, ?_, howner, hknows.reading, ?_⟩
        · rintro x ⟨⟩
          rfl
        · rintro start value ⟨⟩
          exact ⟨le_refl _, fun _ => rfl⟩
    | commit start w =>
      obtain ⟨hreading, value, hseen, hw⟩ := hallow
      rcases hstep with ⟨hstart, -, rfl⟩ | ⟨-, rfl⟩
      · obtain rfl := (hknows.seen start value hseen).2 hstart
        exact ⟨hs.commit hw fun now hnow => hknows.reading now (hreading now hnow), t, rfl, howner,
          hknows.commit_self hreading⟩
      · exact ⟨hs, t, rfl, howner, hknows⟩
  onOtherCall := by
    rintro i owner t o s res s' j owner' t' hs ⟨howner, hknows⟩ hallow hstep hij ⟨howner', hknows'⟩
    refine ⟨howner', ?_⟩
    cases o with
    | now =>
      obtain ⟨hle, rfl⟩ := hstep
      exact hknows'.tick hle
    | snapshot =>
      obtain ⟨-, rfl⟩ := hstep
      exact hknows'
    | commit start w =>
      obtain ⟨-, value, -, hw⟩ := hallow
      rcases hstep with ⟨-, -, rfl⟩ | ⟨-, rfl⟩
      · refine hknows'.commit_other ?_
        rw [owner_of_justified hw, howner, howner']
        exact fun h => hij (hinj h).symm
      · exact hknows'
  onStart := by
    rintro i owner p s s' hs ⟨rfl, ⟨requests, rfl⟩, rfl⟩
    exact ⟨hs, ⟨none, none⟩, obeys_client (hvalid i) requests, rfl, nofun, nofun⟩
  onOtherStart := by
    rintro i owner p s s' j owner' t' hs ⟨-, -, rfl⟩ - h
    exact h

end Interference

theorem lockInv_absent (ttl clock : Int) : LockInv ttl (.absent clock) := by
  refine ⟨List.forall_mem_nil _, List.forall_mem_nil _, ?_, ?_⟩
  · rintro (_ | ⟨x, l⟩) a l₃ owner e hlog
    · cases hlog
    · cases hlog
  · rintro (_ | ⟨x, l₁⟩) c l₂ a l₃ owner e other now v hlog
    · cases hlog
    · cases hlog

section Success

variable {owner : GoString} {ttl : Int} {s s' : LockState}

end Success

/-! ## Runs of three clients -/

section Runs

/-- Every reading of the clock is five later than the last; a commit is answered. -/
def lockHandler (_ : Nat) (_ : GoString) : (o : LockCall) → LockState → LockAnswer o × LockState
  | .now, s => (s.clock + 5, { s with clock := s.clock + 5 })
  | .snapshot, s => (.ok (s.writes, s.value), s)
  | .commit start w, s =>
    if s.writes = start then (.ok (), s.commit w) else (.error (.writeConflict []), s)

theorem lockHandler_serves (i : Nat) (owner : GoString) (o : LockCall) (s : LockState) :
    LockServes o s (lockHandler i owner o s).1 (lockHandler i owner o s).2 := by
  cases o with
  | now => exact ⟨by dsimp only [lockHandler]; omega, rfl⟩
  | snapshot =>
    refine ⟨?_, rfl⟩
    rintro x ⟨⟩
    rfl
  | commit start w =>
    dsimp only [lockHandler]
    split
    · rename_i hstart
      exact .inl ⟨hstart, .inl rfl, rfl⟩
    · exact .inr ⟨nofun, rfl⟩

/-- Three clients with a lease of ten, scheduled one call at a time. -/
def scheduled (token : Nat → GoString) (first second third : List LockRequest)
    (schedule : List Nat) : LockRun :=
  ((((Pool.idle (.absent 0)).spawn 0 (token 0) (client (token 0) 10 first)).spawn 1 (token 1)
    (client (token 1) 10 second)).spawn 2 (token 2) (client (token 2) 10 third)).advanceAll
      lockHandler schedule

theorem reaches_scheduled (token : Nat → GoString) (first second third : List LockRequest)
    (schedule : List Nat) :
    LockReaches token 10 0 (scheduled token first second third schedule) := by
  refine Pool.Reaches.advanceAll lockHandler_serves ?_ schedule
  refine Pool.Reaches.spawn ?_ rfl ⟨rfl, ⟨third, rfl⟩, rfl⟩
  refine Pool.Reaches.spawn ?_ rfl ⟨rfl, ⟨second, rfl⟩, rfl⟩
  exact Pool.Reaches.spawn .refl rfl ⟨rfl, ⟨first, rfl⟩, rfl⟩

def letters (i : Nat) : GoString := List.replicate (i + 1) 97

theorem letters_injective : letters.Injective := by
  intro i j h
  have := congrArg List.length h
  simp only [letters, List.length_replicate] at this
  omega

theorem letters_valid (i : Nat) : Utf8.Valid (letters i) := by
  refine Utf8.valid_of_ascii fun b hb => ?_
  rw [List.eq_of_mem_replicate hb]
  decide

/-- A byte that is not UTF-8, and the text that JSON stores in its place. -/
def bytes : Nat → GoString
  | 0 => [0xFF]
  | 1 => Utf8.replacement
  | i + 2 => List.replicate (i + 4) 97

theorem length_bytes (i : Nat) : (bytes i).length = if i = 0 then 1 else i + 2 := by
  match i with
  | 0 => rfl
  | 1 => rfl
  | i + 2 => simp [bytes]

theorem bytes_injective : bytes.Injective := by
  intro i j h
  have := congrArg List.length h
  rw [length_bytes, length_bytes] at this
  split at this <;> split at this <;> omega

end Runs

end TieredStore.Kvstore
