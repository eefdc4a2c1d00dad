import TieredStore.Lib.Bytes
import TieredStore.Lib.Percent

/-!
# The routes of a storage node

A storage node keeps each blob in a file named by its key, and clients name the key in a URL:
`POST /store?key=` with `url.QueryEscape`, and `/retrieve/` or `/delete/` with `url.PathEscape`.
net/http decodes the query value and the path once; the path routes then decode the parameter a
second time (`keyFromPathParam`).

* `queryKey_queryEscape`, `pathParam_clientPath`: one decoding gives the key back, for every key.
* `keyFromPathParam_eq_iff`: the second decoding leaves the key alone exactly when it holds no `%`.
* `stored_key_transported`: so the path routes use the key of the store exactly when it holds no
  `%`, and then they read and delete the blob that was stored.
-/

namespace TieredStore.Node

open Lib

/-! ## URLs -/

/-- The two encodings of `net/url` that the clients use. -/
inductive Encoding where
  | pathSegment
  | queryComponent
  deriving DecidableEq

def isAlphanumeric (c : UInt8) : Bool :=
  (97 ≤ c && c ≤ 122) || (65 ≤ c && c ≤ 90) || (48 ≤ c && c ≤ 57)

def shouldEscape (c : UInt8) (mode : Encoding) : Bool :=
  if isAlphanumeric c then false
  else if c ∈ lit "-_.~" then false
  else if c ∈ lit "$&+,/:;=?@" then
    match mode with
    | .pathSegment => decide (c ∈ lit "/;,?")
    | .queryComponent => true
  else true

def escapeByte (mode : Encoding) (c : UInt8) : GoString :=
  if c = Percent.space && mode = .queryComponent then [Percent.plusSign]
  else if shouldEscape c mode then Percent.encodeByte c
  else [c]

def pathEscape (s : GoString) : GoString := s.flatMap (escapeByte .pathSegment)

def queryEscape (s : GoString) : GoString := s.flatMap (escapeByte .queryComponent)

def pathUnescape (s : GoString) : Option GoString := Percent.decode false s

/-- `c.Query("key")` of a raw query value: decoded once, and empty when it cannot be decoded. -/
def queryKey (raw : GoString) : GoString := (Percent.decode true raw).getD []

/-- `c.Param("key")` on the route `route ++ "/*key"`: what follows the route in the decoded path.
net/http and the router turn away a path that cannot be decoded or is not on the route. -/
def pathParam (route target : GoString) : Option GoString :=
  (Percent.decode false target).bind fun path =>
    if (route ++ lit "/").isPrefixOf path then some (path.drop route.length) else none

/-- The path a client requests for a key. -/
def clientPath (route key : GoString) : GoString := route ++ lit "/" ++ pathEscape key

def retrieveRoute : GoString := lit "/retrieve"

def deleteRoute : GoString := lit "/delete"

theorem not_shouldEscape (mode : Encoding) (c : UInt8) (h : shouldEscape c mode = false) :
    c ≠ Percent.percent ∧ (mode = .queryComponent → c ≠ Percent.plusSign) := by
  constructor
  · rintro rfl
    cases mode <;> exact absurd h (by decide)
  · rintro rfl rfl
    exact absurd h (by decide)

theorem isUnit_escapeByte_path (c : UInt8) :
    Percent.IsUnit false c (escapeByte .pathSegment c) := by
  unfold escapeByte
  rw [if_neg (by simp)]
  split
  · exact Percent.isUnit_encodeByte false c
  · rename_i h
    exact Percent.isUnit_self (not_shouldEscape .pathSegment c (by simpa using h)).1
      (fun h => by cases h)

theorem isUnit_escapeByte_query (c : UInt8) :
    Percent.IsUnit true c (escapeByte .queryComponent c) := by
  unfold escapeByte
  split
  · rename_i h
    obtain rfl : c = Percent.space := by simpa using h
    exact Percent.isUnit_plus
  · split
    · exact Percent.isUnit_encodeByte true c
    · rename_i h
      obtain ⟨hpercent, hplus⟩ := not_shouldEscape .queryComponent c (by simpa using h)
      exact Percent.isUnit_self hpercent fun _ => hplus rfl

theorem queryKey_queryEscape (key : GoString) : queryKey (queryEscape key) = key := by
  unfold queryKey queryEscape
  rw [Percent.decode_flatMap isUnit_escapeByte_query, Option.getD_some]

theorem pathParam_clientPath {route : GoString} (hroute : Percent.percent ∉ route)
    (key : GoString) : pathParam route (clientPath route key) = some (47 :: key) := by
  have hslash : Percent.percent ∉ route ++ lit "/" := by
    rw [List.mem_append]
    exact not_or.mpr ⟨hroute, by decide⟩
  have hdecode : Percent.decode false (clientPath route key) = some (route ++ lit "/" ++ key) := by
    unfold clientPath pathEscape
    rw [Percent.decode_append hslash, Percent.decode_flatMap isUnit_escapeByte_path,
      Option.map_some]
  unfold pathParam
  rw [hdecode, Option.bind_some, if_pos (List.isPrefixOf_iff_prefix.mpr (List.prefix_append _ _)),
    List.append_assoc, List.drop_left]
  rfl

/-! ## The engine -/

inductive NodeError where
  | missingQueryKey
  | missingKey
  | invalidKeyEscape
  | invalidKey (key : GoString)
  | io
  deriving DecidableEq

/-- One element of `filepath.Clean`'s pass; `out` holds the elements kept so far, last first. -/
def cleanElement (rooted : Bool) (out : List GoString) (element : GoString) : List GoString :=
  if element = [] || element = lit "." then out
  else if element = lit ".." then
    match out with
    | [] => if rooted then [] else [element]
    | last :: before => if last = lit ".." then element :: out else before
  else element :: out

/-- Go's `filepath.Clean` on a system whose separator is `/`. -/
def clean (path : GoString) : GoString :=
  let rooted := path.head? == some 47
  let out := ((path.splitOn 47).foldl (cleanElement rooted) []).reverse
  if rooted then 47 :: [47].intercalate out
  else if out = [] then lit "."
  else [47].intercalate out

example : clean (lit "a/./b//../c/") = lit "a/c" ∧ clean (lit "../a/..") = lit ".." ∧
    clean (lit "/../a") = lit "/a" := by decide +kernel

/-- `_getSafePath`, relative to the node's directory. -/
def getSafePath (key : GoString) : Except NodeError GoString :=
  let safeKey := clean key
  if lit ".." <:+: safeKey || (lit "/").isPrefixOf safeKey then .error (.invalidKey key)
  else .ok safeKey

/-- The files of a node, by their path below its directory. -/
structure Engine where
  files : GoString → Option Blob

/-- What becomes of a queued write: it may not reach the file (the queue is full, a directory is in
the way), it may leave part of the data in it, or it is durable. -/
inductive DiskWrite where
  | refused
  | torn (left : Blob)
  | durable

def Engine.storeStream (e : Engine) (key : GoString) (data : Blob) (disk : DiskWrite) :
    Except NodeError Nat × Engine :=
  match getSafePath key with
  | .error err => (.error err, e)
  | .ok path =>
    match disk with
    | .refused => (.error .io, e)
    | .torn left => (.error .io, ⟨Function.update e.files path (some left)⟩)
    | .durable => (.ok data.length, ⟨Function.update e.files path (some data)⟩)

/-- Read a file; `disk` says whether the file system carries the call out. -/
def Engine.retrieve (e : Engine) (key : GoString) (disk : Bool) : Except NodeError (Option Blob) :=
  match getSafePath key with
  | .error err => .error err
  | .ok path => if disk then .ok (e.files path) else .error .io

def Engine.delete (e : Engine) (key : GoString) (disk : Bool) : Except NodeError Bool × Engine :=
  match getSafePath key with
  | .error err => (.error err, e)
  | .ok path =>
    if disk then (.ok (e.files path).isSome, ⟨Function.update e.files path none⟩)
    else (.error .io, e)

/-! ## The routes -/

inductive Body where
  | empty
  | error (err : NodeError)
  | keyNotFound
  | data (blob : Blob)
  | notFound (key : GoString)
  | deleted (key : GoString)
  deriving DecidableEq

structure Response where
  status : Nat
  body : Body
  deriving DecidableEq

inductive Method where
  | get
  | head
  deriving DecidableEq

def keyFromPathParam (param : GoString) : Except NodeError GoString :=
  let raw := if (lit "/").isPrefixOf param then param.drop 1 else param
  if raw = [] then .error .missingKey
  else
    match pathUnescape raw with
    | none => .error .invalidKeyEscape
    | some key => .ok key

/-- `POST /store`, with the raw value of the query's `key`. -/
def store (e : Engine) (rawKey : GoString) (data : Blob) (disk : DiskWrite) : Response × Engine :=
  let key := queryKey rawKey
  if key = [] then (⟨400, .error .missingQueryKey⟩, e)
  else
    match e.storeStream key data disk with
    | (.error err, e) => (⟨503, .error err⟩, e)
    | (.ok _, e) => (⟨204, .empty⟩, e)

/-- `GET` and `HEAD /retrieve/*key`, with the router's parameter. -/
def retrieve (e : Engine) (method : Method) (param : GoString) (disk : Bool) : Response :=
  match keyFromPathParam param with
  | .error err => ⟨400, .error err⟩
  | .ok key =>
    match e.retrieve key disk with
    | .error err => ⟨500, .error err⟩
    | .ok none => ⟨404, .keyNotFound⟩
    | .ok (some blob) =>
      match method with
      | .head => ⟨200, .empty⟩
      | .get => ⟨200, .data blob⟩

/-- `DELETE /delete/*key`, with the router's parameter. -/
def delete (e : Engine) (param : GoString) (disk : Bool) : Response × Engine :=
  match keyFromPathParam param with
  | .error err => (⟨400, .error err⟩, e)
  | .ok key =>
    match e.delete key disk with
    | (.error err, e) => (⟨500, .error err⟩, e)
    | (.ok false, e) => (⟨200, .notFound key⟩, e)
    | (.ok true, e) => (⟨200, .deleted key⟩, e)

/-! ## Transport of keys -/

theorem keyFromPathParam_cons {key : GoString} (hkey : key ≠ []) :
    keyFromPathParam (47 :: key) =
      match pathUnescape key with
      | none => .error .invalidKeyEscape
      | some decoded => .ok decoded := by
  have hraw : (if (lit "/").isPrefixOf (47 :: key) then (47 :: key).drop 1 else 47 :: key) = key :=
    if_pos rfl
  unfold keyFromPathParam
  rw [hraw, if_neg hkey]

/-- The second decoding gives the key back exactly when there is no `%` in it. -/
theorem keyFromPathParam_eq_iff {key : GoString} (hkey : key ≠ []) :
    keyFromPathParam (47 :: key) = .ok key ↔ Percent.percent ∉ key := by
  rw [keyFromPathParam_cons hkey, ← Percent.decode_eq_self_iff]
  unfold pathUnescape
  cases Percent.decode false key with
  | none => simp
  | some decoded => simp

theorem store_durable {key path : GoString} (hkey : key ≠ []) (hpath : getSafePath key = .ok path)
    (e : Engine) (data : Blob) : store e (queryEscape key) data .durable =
      (⟨204, .empty⟩, ⟨Function.update e.files path (some data)⟩) := by
  unfold store Engine.storeStream
  rw [queryKey_queryEscape, if_neg hkey, hpath]

/-- A key that `POST /store` takes: not empty, with a safe path, and its file then holds the data. -/
theorem store_accepted {e e' : Engine} {key : GoString} {data : Blob} {disk : DiskWrite} {b : Body}
    (h : store e (queryEscape key) data disk = (⟨204, b⟩, e')) :
    key ≠ [] ∧ ∃ path, getSafePath key = .ok path ∧
      e' = ⟨Function.update e.files path (some data)⟩ := by
  unfold store at h
  rw [queryKey_queryEscape] at h
  by_cases hkey : key = []
  · rw [if_pos hkey] at h
    cases h
  · rw [if_neg hkey] at h
    refine ⟨hkey, ?_⟩
    unfold Engine.storeStream at h
    cases hpath : getSafePath key with
    | error err =>
      rw [hpath] at h
      cases h
    | ok path =>
      rw [hpath] at h
      cases disk with
      | refused => cases h
      | torn left => cases h
      | durable =>
        cases h
        exact ⟨path, rfl, rfl⟩

section Param

variable {key path : GoString} (hkey : key ≠ []) (hplain : Percent.percent ∉ key)
  (hpath : getSafePath key = .ok path)

include hkey hplain hpath

theorem retrieve_plain (e : Engine) : retrieve e .get (47 :: key) true =
    match e.files path with
    | none => ⟨404, .keyNotFound⟩
    | some blob => ⟨200, .data blob⟩ := by
  unfold retrieve Engine.retrieve
  rw [(keyFromPathParam_eq_iff hkey).mpr hplain]
  dsimp only
  rw [hpath]
  cases h : e.files path with
  | none => simp [h]
  | some blob => simp [h]

theorem delete_plain {e : Engine} {blob : Blob} (hblob : e.files path = some blob) :
    delete e (47 :: key) true =
      (⟨200, .deleted key⟩, ⟨Function.update e.files path none⟩) := by
  unfold delete Engine.delete
  rw [(keyFromPathParam_eq_iff hkey).mpr hplain]
  dsimp only
  rw [hpath]
  simp [hblob]

end Param

theorem stored_key_transported {e e' : Engine} {key : GoString} {data : Blob} {disk : DiskWrite}
    (hstore : store e (queryEscape key) data disk = (⟨204, .empty⟩, e')) :
    queryKey (queryEscape key) = key ∧
    ((pathParam retrieveRoute (clientPath retrieveRoute key)).map keyFromPathParam =
      some (.ok key) ↔ Percent.percent ∉ key) ∧
    ((pathParam deleteRoute (clientPath deleteRoute key)).map keyFromPathParam =
      some (.ok key) ↔ Percent.percent ∉ key) ∧
    (Percent.percent ∉ key →
      (pathParam retrieveRoute (clientPath retrieveRoute key)).map (retrieve e' .get · true) =
        some ⟨200, .data data⟩ ∧
      ∃ e'', (pathParam deleteRoute (clientPath deleteRoute key)).map (delete e' · true) =
          some (⟨200, .deleted key⟩, e'') ∧
        (pathParam retrieveRoute (clientPath retrieveRoute key)).map (retrieve e'' .get · true) =
          some ⟨404, .keyNotFound⟩) := by
  obtain ⟨hkey, path, hpath, rfl⟩ := store_accepted hstore
  rw [pathParam_clientPath (by decide), pathParam_clientPath (by decide)]
  simp only [Option.map_some, Option.some.injEq]
  refine ⟨queryKey_queryEscape key, keyFromPathParam_eq_iff hkey, keyFromPathParam_eq_iff hkey, ?_⟩
  intro hplain
  have hblob : (⟨Function.update e.files path (some data)⟩ : Engine).files path = some data :=
    Function.update_self ..
  rw [retrieve_plain hkey hplain hpath, hblob, delete_plain hkey hplain hpath hblob]
  refine ⟨rfl, _, rfl, ?_⟩
  rw [retrieve_plain hkey hplain hpath]
  dsimp only
  rw [Function.update_self]

/-- A nested key with a space, stored, read back and deleted. -/
theorem stored_nested_key_transported :
    (pathParam retrieveRoute (clientPath retrieveRoute (lit "hot/a b/1"))).map
      (retrieve ⟨Function.update (fun _ => none) (lit "hot/a b/1") (some [7])⟩ .get · true) =
        some ⟨200, .data [7]⟩ := by
  have hpath : getSafePath (lit "hot/a b/1") = .ok (lit "hot/a b/1") := by decide +kernel
  exact ((stored_key_transported (store_durable (by decide) hpath ⟨fun _ => none⟩ [7])).2.2.2
    (by decide)).1

/-- The key `a%41` is stored, but the path routes look for `aA`: the blob is not found, and a delete
leaves it in place. -/
theorem percent_key_lost :
    ∃ e', store ⟨fun _ => none⟩ (queryEscape (lit "a%41")) [7] .durable = (⟨204, .empty⟩, e') ∧
      e'.files (lit "a%41") = some [7] ∧
      (pathParam retrieveRoute (clientPath retrieveRoute (lit "a%41"))).map keyFromPathParam =
        some (.ok (lit "aA")) ∧
      (pathParam retrieveRoute (clientPath retrieveRoute (lit "a%41"))).map
        (retrieve e' .get · true) = some ⟨404, .keyNotFound⟩ ∧
      (pathParam deleteRoute (clientPath deleteRoute (lit "a%41"))).map
        (fun param => (delete e' param true).1) = some ⟨200, .notFound (lit "aA")⟩ ∧
      (pathParam deleteRoute (clientPath deleteRoute (lit "a%41"))).map
        (fun param => (delete e' param true).2.files (lit "a%41")) = some (some [7]) := by
  have hpath : getSafePath (lit "a%41") = .ok (lit "a%41") := by decide +kernel
  refine ⟨_, store_durable (by decide) hpath _ _, ?_⟩
  decide +kernel

end TieredStore.Node
