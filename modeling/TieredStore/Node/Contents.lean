import TieredStore.Node.Routes

/-!
# The contents of a storage node

The engine of a node is a map, and its keys are cleaned paths. `_getSafePath` cleans a key before
the file is named, so `a` and `./a` are one entry (`cleaned_keys_collide`). A store writes the file
in place: one that reports an error may leave anything at its path.

`Request.Touches` says which requests can change a path. `performAll_other` is the frame of a
sequence of requests, and `contents_last_store` what the sequence leaves: the bytes of the last
successful store at the path.
-/

namespace TieredStore.Node

open Lib

/-- A call of the engine with what the disk does to it. -/
inductive Request where
  | store (key : GoString) (data : Blob) (disk : DiskWrite)
  | delete (key : GoString) (disk : Bool)
  | retrieve (key : GoString) (disk : Bool)

namespace Request

/-- A store that has reached its file, or a delete that was carried out. -/
def Touches (path : GoString) : Request → Prop
  | store key _ disk => getSafePath key = .ok path ∧ disk ≠ .refused
  | delete key disk => getSafePath key = .ok path ∧ disk = true
  | retrieve _ _ => False

/-- A store that has reached its file. -/
def Fills (path : GoString) : Request → Prop
  | store key _ disk => getSafePath key = .ok path ∧ disk ≠ .refused
  | delete _ _ | retrieve _ _ => False

end Request

/-- The engine after a call. -/
def Engine.perform (e : Engine) : Request → Engine
  | .store key data disk => (e.storeStream key data disk).2
  | .delete key disk => (e.delete key disk).2
  | .retrieve _ _ => e

def Engine.performAll (e : Engine) (requests : List Request) : Engine :=
  requests.foldl Engine.perform e

/-- A node without files. -/
def Engine.empty : Engine := ⟨fun _ => none⟩

section Requests

variable {e : Engine} {path : GoString} {r : Request} {requests : List Request}

theorem performAll_append (e : Engine) (before after : List Request) :
    e.performAll (before ++ after) = (e.performAll before).performAll after :=
  List.foldl_append

theorem performAll_cons (e : Engine) (r : Request) (requests : List Request) :
    e.performAll (r :: requests) = (e.perform r).performAll requests := rfl

/-- A request leaves every path alone that it does not touch. -/
theorem perform_other (h : ¬ r.Touches path) : (e.perform r).files path = e.files path := by
  cases r with
  | store key data disk =>
    simp only [Engine.perform, Engine.storeStream]
    cases hkey : getSafePath key with
    | error err => rfl
    | ok path' =>
      cases disk with
      | refused => rfl
      | torn left =>
        have hne : path ≠ path' := fun heq => h ⟨heq ▸ hkey, nofun⟩
        exact Function.update_of_ne hne _ _
      | durable =>
        have hne : path ≠ path' := fun heq => h ⟨heq ▸ hkey, nofun⟩
        exact Function.update_of_ne hne _ _
  | delete key disk =>
    simp only [Engine.perform, Engine.delete]
    cases hkey : getSafePath key with
    | error err => rfl
    | ok path' =>
      cases disk with
      | false => rfl
      | true =>
        have hne : path ≠ path' := fun heq => h ⟨heq ▸ hkey, rfl⟩
        exact Function.update_of_ne hne _ _
  | retrieve key disk => rfl

theorem performAll_other (h : ∀ r ∈ requests, ¬ r.Touches path) :
    (e.performAll requests).files path = e.files path := by
  induction requests generalizing e with
  | nil => rfl
  | cons r requests ih =>
    have hr := perform_other (e := e) (h r List.mem_cons_self)
    exact (ih fun r' hr' => h r' (List.mem_cons_of_mem _ hr')).trans hr

/-- Only a store puts contents where there were none. -/
theorem perform_none (hnone : e.files path = none) (h : ¬ r.Fills path) :
    (e.perform r).files path = none := by
  by_cases htouch : r.Touches path
  · cases r with
    | store key data disk => exact absurd htouch h
    | delete key disk =>
      obtain ⟨hkey, rfl⟩ := htouch
      simp only [Engine.perform, Engine.delete, hkey]
      exact Function.update_self _ _ _
    | retrieve key disk => exact htouch.elim
  · rw [perform_other htouch, hnone]

theorem performAll_none (hnone : e.files path = none) (h : ∀ r ∈ requests, ¬ r.Fills path) :
    (e.performAll requests).files path = none := by
  induction requests generalizing e with
  | nil => exact hnone
  | cons r requests ih =>
    exact ih (perform_none hnone (h r List.mem_cons_self)) fun r' hr' =>
      h r' (List.mem_cons_of_mem _ hr')

theorem perform_store {key : GoString} (hkey : getSafePath key = .ok path) (data : Blob) :
    (e.perform (.store key data .durable)).files path = some data := by
  simp only [Engine.perform, Engine.storeStream, hkey]
  exact Function.update_self _ _ _

theorem perform_delete {key : GoString} (hkey : getSafePath key = .ok path) :
    (e.perform (.delete key true)).files path = none := by
  simp only [Engine.perform, Engine.delete, hkey]
  exact Function.update_self _ _ _

theorem retrieve_accepted {key : GoString} (hkey : getSafePath key = .ok path) :
    e.retrieve key true = .ok (e.files path) := by
  simp only [Engine.retrieve, hkey, if_true]

end Requests

/-! ## The law of the map -/

/-- What a node holds under an accepted key, for every sequence of calls. -/
structure MapLaw (requests : List Request) (key path : GoString) : Prop where
  /-- The last successful store at the path, when nothing touched the path after it. -/
  stored : ∀ before key' data after, requests = before ++ .store key' data .durable :: after →
    getSafePath key' = .ok path → (∀ r ∈ after, ¬ r.Touches path) →
    (Engine.empty.performAll requests).retrieve key true = .ok (some data)
  /-- Nothing was stored at the path. -/
  untouched : (∀ r ∈ requests, ¬ r.Fills path) →
    (Engine.empty.performAll requests).retrieve key true = .ok none
  /-- Nothing was stored at the path after a delete. -/
  deleted : ∀ before key' after, requests = before ++ .delete key' true :: after →
    getSafePath key' = .ok path → (∀ r ∈ after, ¬ r.Fills path) →
    (Engine.empty.performAll requests).retrieve key true = .ok none
  /-- Requests at other paths change nothing. -/
  other : ∀ more, (∀ r ∈ more, ¬ r.Touches path) →
    (Engine.empty.performAll (requests ++ more)).retrieve key true =
      (Engine.empty.performAll requests).retrieve key true

/-- A storage node is a map whose keys are the cleaned paths. -/
theorem contents_last_store (requests : List Request) {key path : GoString}
    (hkey : getSafePath key = .ok path) : MapLaw requests key path where
  stored := by
    rintro before key' data after rfl hkey' hafter
    rw [retrieve_accepted hkey, performAll_append, performAll_cons, performAll_other hafter,
      perform_store hkey' data]
  untouched := by
    intro h
    rw [retrieve_accepted hkey, performAll_none rfl h]
  deleted := by
    rintro before key' after rfl hkey' hafter
    rw [retrieve_accepted hkey, performAll_append, performAll_cons,
      performAll_none (perform_delete hkey') hafter]
  other := by
    intro more hmore
    rw [retrieve_accepted hkey, retrieve_accepted hkey, performAll_append, performAll_other hmore]

/-- A key of the replica layout: the law holds at it after any calls. -/
theorem contents_replica_key :
    getSafePath (lit "hot/a/7") = .ok (lit "hot/a/7") ∧
    MapLaw [.store (lit "hot/a/7") [1] .durable, .delete (lit "a") true] (lit "hot/a/7")
      (lit "hot/a/7") :=
  ⟨by decide +kernel, contents_last_store _ (by decide +kernel)⟩

/-- The store of another key changes what a key returns: both are cleaned to one path. A store that
fails changes it too, when the file was already cut. -/
theorem cleaned_keys_collide :
    lit "./a" ≠ lit "a" ∧ getSafePath (lit "a") = .ok (lit "a") ∧
    getSafePath (lit "./a") = .ok (lit "a") ∧
    (Engine.empty.performAll [.store (lit "a") [1] .durable]).retrieve (lit "a") true =
      .ok (some [1]) ∧
    (Engine.empty.performAll [.store (lit "a") [1] .durable,
      .store (lit "./a") [2] .durable]).retrieve (lit "a") true = .ok (some [2]) ∧
    (Engine.empty.performAll [.store (lit "a") [1] .durable,
      .store (lit "a") [2] (.torn [])]).retrieve (lit "a") true = .ok (some []) := by
  decide +kernel

end TieredStore.Node
