import TieredStore.Cluster.Places
import TieredStore.Node.SafePath

/-!
# Keys on their way to a node

A job names blobs by keys, and a node keeps them in files. `POST /store` takes a key as it is sent,
the path routes decode it once more, and both clean it (`storePath`, `paramPath`). `routed` puts
these routes between the calls of a job and the nodes, so that the blobs of a cluster are named by
their files. `routed_of_store` and its siblings say that it allows what the routes of a node do.

For a key that all routes take as it is, the routes make no difference (`routed_cases`). Objects
whose ids hold no `%` and no `..` and are not `.` have such keys only (`Verbatim`).
-/

namespace TieredStore.Cluster

open Lib Lib.Bytes Meta Tiering

/-! ## Files -/

/-- The file of a key that is sent to `POST /store`. -/
def storePath (k : GoString) : Option GoString :=
  if k = [] then none else (Node.getSafePath k).toOption

/-- The file of a key that is sent to one of the path routes. -/
def paramPath (k : GoString) : Option GoString :=
  match Node.keyFromPathParam (47 :: k) with
  | .error _ => none
  | .ok key => (Node.getSafePath key).toOption

/-- Calls that reach the nodes through their routes. A node turns away a key without a file. -/
def routed (sem : (c : Call) → World → c.Answer → World → Prop) :
    (c : Call) → World → c.Answer → World → Prop
  | .store n k data, w, r, w' =>
    match storePath k with
    | some path => sem (.store n path data) w r w'
    | none => Reply.IsFault r ∧ w' = w
  | .retrieve n k, w, r, w' =>
    match paramPath k with
    | some path => sem (.retrieve n path) w r w'
    | none => Reply.IsFault r ∧ w' = w
  | .delete n k, w, r, w' =>
    match paramPath k with
    | some path => sem (.delete n path) w r w'
    | none => Reply.IsFault r ∧ w' = w
  | c, w, r, w' => sem c w r w'

theorem routed_mono {sem sem' : (c : Call) → World → c.Answer → World → Prop}
    (hsem : ∀ c w r w', sem c w r w' → sem' c w r w') (c : Call) (w : World) (r : c.Answer)
    (w' : World) (h : routed sem c w r w') : routed sem' c w r w' := by
  cases c with
  | store n k data =>
    dsimp only [routed] at h ⊢
    split at h
    · exact hsem _ _ _ _ h
    · exact h
  | retrieve n k | delete n k =>
    dsimp only [routed] at h ⊢
    split at h
    · exact hsem _ _ _ _ h
    · exact h
  | _ => exact hsem _ _ _ _ h

/-- How a healthy cluster answers behind the routes of its nodes. -/
def serveRouted (cfg : Config) (e : Weather) : (c : Call) → World → c.Answer × World
  | .store n k data, w =>
    match storePath k with
    | some path => serve cfg e (.store n path data) w
    | none => (badRequest, w)
  | .retrieve n k, w =>
    match paramPath k with
    | some path => serve cfg e (.retrieve n path) w
    | none => (badRequest, w)
  | .delete n k, w =>
    match paramPath k with
    | some path => serve cfg e (.delete n path) w
    | none => (badRequest, w)
  | c, w => serve cfg e c w

theorem routed_serveRouted {sem : (c : Call) → World → c.Answer → World → Prop} {cfg : Config}
    {e : Weather} (hsem : ∀ c w, sem c w (serve cfg e c w).1 (serve cfg e c w).2) (c : Call)
    (w : World) : routed sem c w (serveRouted cfg e c w).1 (serveRouted cfg e c w).2 := by
  cases c with
  | store n k data =>
    dsimp only [routed, serveRouted]
    split
    · exact hsem _ w
    · exact ⟨trivial, rfl⟩
  | retrieve n k | delete n k =>
    dsimp only [routed, serveRouted]
    split
    · exact hsem _ w
    · exact ⟨trivial, rfl⟩
  | _ => exact hsem _ w

/-! ## The routes of a node -/

section Routes

variable {cfg : Config} {w : World} {n k : GoString}

/-- What a client takes from a response. -/
def replyOf (x : Node.Response) : Reply :=
  match x.body with
  | .data blob => .status x.status blob
  | _ => .status x.status []

/-- The files of one node, and a cluster in which a node has these files. -/
def World.node (w : World) (n : GoString) : Node.Engine := ⟨w.blobs n⟩

def World.withNode (w : World) (n : GoString) (e : Node.Engine) : World :=
  { w with blobs := Function.update w.blobs n e.files }

theorem withNode_node (w : World) (n : GoString) : w.withNode n (w.node n) = w := by
  simp [World.withNode, World.node]

theorem withNode_update (w : World) (n path : GoString) (content : Option Blob) :
    w.withNode n ⟨Function.update (w.blobs n) path content⟩ = { w with
      blobs := fun n' k' => if n' = n ∧ k' = path then content else w.blobs n' k' } := by
  simp only [World.withNode, World.mk.injEq, true_and]
  funext n' k'
  by_cases hn : n' = n
  · subst hn
    by_cases hk : k' = path <;> simp [hk]
  · simp [hn]

theorem withNode_put (w : World) (n path : GoString) (data : Blob) :
    w.withNode n ⟨Function.update (w.blobs n) path (some data)⟩ = w.put n path data :=
  withNode_update w n path (some data)

theorem withNode_drop (w : World) (n path : GoString) :
    w.withNode n ⟨Function.update (w.blobs n) path none⟩ = w.drop n path :=
  withNode_update w n path none

theorem unaddressed_path (hn : n ≠ []) {path : GoString} (h : Node.getSafePath k = .ok path) :
    unaddressed n path = false := by
  have hpath : path ≠ [] := (Node.getSafePath_eq_ok h).1 ▸ Node.clean_ne_nil k
  simp [unaddressed, hn, hpath]

theorem isFault_status (code : Nat) (h : code ≠ 200 ∧ code ≠ 204 ∧ code ≠ 404) :
    (Reply.status code []).IsFault := h

/-- `POST /store`. A write that is torn leaves a part of the data. -/
theorem routed_of_store (hn : n ≠ []) (data : Blob) {disk : Node.DiskWrite}
    (hdisk : ∀ left, disk = .torn left → left <+: data) :
    let x := Node.store (w.node n) (Node.queryEscape k) data disk
    routed (Faulty cfg) (.store n k data) w (replyOf x.1) (w.withNode n x.2) := by
  dsimp only [routed, storePath, Node.store]
  rw [Node.queryKey_queryEscape]
  split_ifs with hk
  · exact ⟨isFault_status 400 (by decide), withNode_node w n⟩
  cases hpath : Node.getSafePath k with
  | error err =>
    simp only [Node.Engine.storeStream, hpath, Except.toOption]
    exact ⟨isFault_status 503 (by decide), withNode_node w n⟩
  | ok path =>
    have haddr := unaddressed_path hn hpath
    simp only [Node.Engine.storeStream, hpath, Except.toOption]
    cases disk with
    | refused => exact Or.inr ⟨isFault_status 503 (by decide), Or.inl (withNode_node w n)⟩
    | torn left =>
      refine Or.inr ⟨isFault_status 503 (by decide), Or.inr ⟨haddr, left.length, ?_⟩⟩
      rw [← List.prefix_iff_eq_take.mp (hdisk left rfl)]
      exact withNode_put w n path left
    | durable =>
      refine Or.inl ⟨calmWeather, ?_⟩
      rw [serve, if_neg (by simp [haddr])]
      exact Prod.ext rfl (withNode_put w n path data).symm

/-- `GET /retrieve`. -/
theorem routed_of_retrieve (hn : n ≠ []) (disk : Bool) :
    routed (Faulty cfg) (.retrieve n k) w
      (replyOf (Node.retrieve (w.node n) .get (47 :: k) disk)) w := by
  dsimp only [routed, paramPath, Node.retrieve]
  cases Node.keyFromPathParam (47 :: k) with
  | error err => exact ⟨isFault_status 400 (by decide), rfl⟩
  | ok key =>
    dsimp only
    cases hpath : Node.getSafePath key with
    | error err =>
      simp only [Node.Engine.retrieve, hpath, Except.toOption]
      exact ⟨isFault_status 500 (by decide), trivial⟩
    | ok path =>
      have haddr := unaddressed_path hn hpath
      simp only [Node.Engine.retrieve, hpath, Except.toOption]
      cases disk with
      | false => exact Or.inr ⟨isFault_status 500 (by decide), rfl⟩
      | true =>
        refine Or.inl ⟨calmWeather, ?_⟩
        cases hblob : w.blobs n path with
        | none => simp [serve_retrieve_none haddr hblob, World.node, hblob, replyOf]
        | some data => simp [serve_retrieve haddr hblob, World.node, hblob, replyOf]

/-- `DELETE /delete`. -/
theorem routed_of_delete (hn : n ≠ []) (disk : Bool) :
    let x := Node.delete (w.node n) (47 :: k) disk
    routed (Faulty cfg) (.delete n k) w (replyOf x.1) (w.withNode n x.2) := by
  dsimp only [routed, paramPath, Node.delete]
  cases Node.keyFromPathParam (47 :: k) with
  | error err => exact ⟨isFault_status 400 (by decide), withNode_node w n⟩
  | ok key =>
    dsimp only
    cases hpath : Node.getSafePath key with
    | error err =>
      simp only [Node.Engine.delete, hpath, Except.toOption]
      exact ⟨isFault_status 500 (by decide), withNode_node w n⟩
    | ok path =>
      have haddr := unaddressed_path hn hpath
      simp only [Node.Engine.delete, hpath, Except.toOption]
      cases disk with
      | false => exact Or.inr ⟨isFault_status 500 (by decide), Or.inl (withNode_node w n)⟩
      | true =>
        refine Or.inl ⟨calmWeather, ?_⟩
        rw [serve, if_neg (by simp [haddr])]
        have hdrop := withNode_drop w n path
        cases hblob : ((w.node n).files path).isSome <;>
          exact Prod.ext rfl hdrop.symm

end Routes

/-! ## Keys that are taken as they are -/

/-- Every route takes the key to the file of the same name. -/
structure VerbatimKey (k : GoString) : Prop where
  store : storePath k = some k
  param : paramPath k = some k

/-- What the call stores or deletes is under a key that is taken as it is. -/
def Call.Verbatim : Call → Prop
  | .store _ k _ => VerbatimKey k
  | .delete _ k => VerbatimKey k
  | _ => True

section Direct

variable {cfg : Config} {sem : (c : Call) → World → c.Answer → World → Prop} {w w' : World}

theorem routed_retrieve {n k : GoString} (hk : VerbatimKey k) {r : Reply} :
    routed sem (.retrieve n k) w r w' ↔ sem (.retrieve n k) w r w' := by
  simp only [routed, hk.param]

/-- For such a call the routes make no difference, unless it reads a blob. -/
theorem routed_cases (hsem : ∀ {c w r w'}, sem c w r w' → Faulty cfg c w r w') {c : Call}
    (hc : c.Verbatim) {r : c.Answer} (h : routed sem c w r w') :
    sem c w r w' ∨ (∃ n k, c = .retrieve n k) ∧ w' = w := by
  cases c with
  | store n k data =>
    simp only [routed, hc.store] at h
    exact Or.inl h
  | delete n k =>
    simp only [routed, hc.param] at h
    exact Or.inl h
  | retrieve n k =>
    refine Or.inr ⟨⟨n, k, rfl⟩, ?_⟩
    dsimp only [routed] at h
    split at h
    · exact (hsem h).retrieved.1
    · exact h.2
  | _ => exact Or.inl h

end Direct

/-- Without a `%` the path routes take a key as `POST /store` does. -/
theorem paramPath_eq_storePath {k : GoString} (hk : Percent.percent ∉ k) :
    paramPath k = storePath k := by
  unfold paramPath storePath
  by_cases hnil : k = []
  · subst hnil
    rfl
  · rw [(Node.keyFromPathParam_eq_iff hnil).mpr hk, if_neg hnil]

theorem verbatimKey_of_names {names : List GoString} (hne : names ≠ [])
    (hnames : ∀ e ∈ names, Node.IsName e)
    (hpercent : Percent.percent ∉ ([47].intercalate names : GoString))
    (hparent : ¬ lit ".." <:+: [47].intercalate names) :
    VerbatimKey ([47].intercalate names) := by
  have hsafe := Node.getSafePath_names hne hnames hparent
  have hnil : ([47].intercalate names : GoString) ≠ [] :=
    (Node.getSafePath_eq_ok hsafe).1 ▸ Node.clean_ne_nil _
  have hstore : storePath ([47].intercalate names) = some ([47].intercalate names) := by
    rw [storePath, if_neg hnil, hsafe]
    rfl
  exact ⟨hstore, (paramPath_eq_storePath hpercent).trans hstore⟩

/-! ## Ids -/

/-- The ids of objects whose keys are taken as they are. -/
structure Verbatim (o : GoString) : Prop extends Routable o where
  no_percent : Percent.percent ∉ o
  no_parent : ¬ lit ".." <:+: o
  not_dot : o ≠ lit "."

/-- Text without dots behind a text adds no `..` to it. -/
theorem parent_infix_append {a b : GoString} (hb : (46 : UInt8) ∉ b) (h : lit ".." <:+: a ++ b) :
    lit ".." <:+: a := by
  obtain ⟨l, r, h⟩ := h
  rcases List.append_eq_append_iff.mp h with ⟨t, rfl, -⟩ | ⟨t, hl, rfl⟩
  · exact ⟨l, t, rfl⟩
  · rcases List.eq_nil_or_concat t with rfl | ⟨t, c, rfl⟩
    · exact ⟨l, [], by simpa using hl⟩
    · -- the last dot would be in the text behind
      have hc : c = 46 := by
        have hlast := congrArg List.getLast? hl
        simpa [lit] using hlast.symm
      exact absurd (by simp [hc]) hb

theorem parent_infix_append_left {a b : GoString} (hb : (46 : UInt8) ∉ b)
    (h : lit ".." <:+: b ++ a) : lit ".." <:+: a := by
  have hrev := List.reverse_infix.mpr h
  rw [List.reverse_append] at hrev
  exact List.reverse_infix.mp (parent_infix_append (by simpa using hb) hrev)

section Keys

variable {o : GoString}

theorem Verbatim.isName (ho : Verbatim o) : Node.IsName o where
  nonempty := ho.ne_nil
  not_dot := ho.not_dot
  not_dotdot := fun heq => ho.no_parent (heq ▸ List.infix_rfl)
  no_slash := ho.slashFree

/-- The key of the replicas. -/
theorem verbatimKey_hotPath (ho : Verbatim o) (v : Int) : VerbatimKey (hotPath o v) := by
  have hkey : hotPath o v = [47].intercalate [lit "hot", o, padInt 20 v] := by
    simp [hotPath, List.intercalate, lit]
  have hnumber : ∀ {c : UInt8}, c ≠ 45 ∧ isDigit c = false → c ∉ padInt 20 v := fun hc =>
    not_mem_padInt hc 20 v
  have hdot : (46 : UInt8) ∉ padInt 20 v := hnumber (by decide)
  have hname : Node.IsName (padInt 20 v) := by
    obtain ⟨t, d, hlast, -⟩ := padInt_last 20 v
    refine ⟨by simp [hlast], ?_, ?_, slash_not_mem_padInt 20 v⟩ <;> intro heq <;>
      exact hdot (heq ▸ by decide)
  have hpercent : Percent.percent ∉ hotPath o v := by
    have hpad : Percent.percent ∉ padInt 20 v := hnumber (by decide)
    have hdir : Percent.percent ∉ lit "hot/" ∧ Percent.percent ∉ lit "/" := by decide
    simp [hotPath, hdir, ho.no_percent, hpad]
  have hparent : ¬ lit ".." <:+: hotPath o v := fun h => by
    unfold hotPath at h
    rw [List.append_assoc, List.append_assoc] at h
    exact ho.no_parent (parent_infix_append (by simp [lit, hdot])
      (parent_infix_append_left (by decide) h))
  rw [hkey] at hpercent hparent ⊢
  refine verbatimKey_of_names (by simp) ?_ hpercent hparent
  simp only [List.mem_cons, List.not_mem_nil, or_false, forall_eq_or_imp, forall_eq]
  exact ⟨⟨by decide, by decide, by decide, by decide⟩, ho.isName, hname⟩

/-- A key without a slash. -/
theorem verbatimKey_of_isName {k : GoString} (hname : Node.IsName k)
    (hpercent : Percent.percent ∉ k) (hparent : ¬ lit ".." <:+: k) : VerbatimKey k := by
  have hkey : k = [47].intercalate [k] := by simp
  rw [hkey] at hpercent hparent ⊢
  exact verbatimKey_of_names (by simp) (by simpa using hname) hpercent hparent

theorem verbatimKey_id (ho : Verbatim o) : VerbatimKey o :=
  verbatimKey_of_isName ho.isName ho.no_percent ho.no_parent

/-- What follows the id in the key of a shard. -/
def chunkName (i : Int) : GoString := lit "_cold_chunk_" ++ formatInt i

theorem chunkKey_eq (o : GoString) (i : Int) : chunkKey o i = o ++ chunkName i := by
  simp [chunkKey, chunkName]

theorem not_mem_chunkName {c : UInt8} (hc : c ∉ lit "_cold_chunk_" ∧ c ≠ 45 ∧ isDigit c = false)
    (i : Int) : c ∉ chunkName i := by
  rw [chunkName, List.mem_append]
  exact not_or.mpr ⟨hc.1, not_mem_formatInt hc.2 i⟩

theorem isName_append_chunkName {t : GoString} (ht : (47 : UInt8) ∉ t) (i : Int) :
    Node.IsName (t ++ chunkName i) := by
  have hscore : (95 : UInt8) ∈ t ++ chunkName i := by simp [chunkName, lit]
  have hslash : (47 : UInt8) ∉ chunkName i := not_mem_chunkName (by decide) i
  refine ⟨List.ne_nil_of_mem hscore, ?_, ?_, by simp [ht, hslash]⟩ <;> intro heq <;>
    exact absurd (heq ▸ hscore) (by decide)

/-- The key of a shard. -/
theorem verbatimKey_chunkKey (ho : Verbatim o) (i : Int) : VerbatimKey (chunkKey o i) := by
  have hpercent : Percent.percent ∉ chunkName i := not_mem_chunkName (by decide) i
  have hdot : (46 : UInt8) ∉ chunkName i := not_mem_chunkName (by decide) i
  rw [chunkKey_eq]
  exact verbatimKey_of_isName (isName_append_chunkName ho.slashFree i)
    (by simp [ho.no_percent, hpercent]) fun h => ho.no_parent (parent_infix_append hdot h)

/-- The files of the shards of an object: one text, and then the name of the shard. -/
theorem exists_chunkPath (o : GoString) : ∃ dir, ∀ i path, storePath (chunkKey o i) = some path →
    path = dir ++ chunkName i := by
  obtain ⟨dir, hdir⟩ := Node.clean_append o
  refine ⟨dir, fun i path h => ?_⟩
  rw [storePath, if_neg (chunkKey_ne_nil o i)] at h
  cases hsafe : Node.getSafePath (chunkKey o i) with
  | error err =>
    rw [hsafe] at h
    cases h
  | ok path' =>
    rw [hsafe] at h
    cases h
    rw [(Node.getSafePath_eq_ok hsafe).1, chunkKey_eq]
    exact hdir _ (not_mem_chunkName (by decide) i) fun t ht => isName_append_chunkName ht i

/-- Different shards of an object are in different files. -/
theorem chunkPath_inj {i j : Int} {path : GoString} (hi : storePath (chunkKey o i) = some path)
    (hj : storePath (chunkKey o j) = some path) : i = j := by
  obtain ⟨dir, hdir⟩ := exists_chunkPath o
  have hname : chunkName i = chunkName j :=
    List.append_cancel_left ((hdir i path hi).symm.trans (hdir j path hj))
  exact formatInt_injective (List.append_cancel_left hname)

end Keys

end TieredStore.Cluster
