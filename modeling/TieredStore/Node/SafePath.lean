import TieredStore.Node.Routes

/-!
# The files a storage node touches

`_getSafePath` cleans the key of a request, turns it away when `..` or a leading `/` is left, and
joins the rest to the node's directory, which cleans once more. Cleaning is a pass over the
elements of a path, so the argument is about elements: those an accepted key keeps are names
(`IsName`), a name is only ever pushed (`foldl_names`), and therefore the resolved path is the
cleaned directory followed by these names (`join_accepted`).

* `requests_confined`: the path is the directory or lies below it, and a request leaves every other
  file alone and does not depend on it.
* `join_inj`: two accepted keys name one file exactly when they have one safe path, which is
  what lets `Engine` keep the files by that path (`storeStream_represents` and its siblings).
-/

namespace TieredStore.Node

open Lib

/-! ## Elements of a path -/

/-- The elements that `clean` keeps of a path, last first. -/
def elements (rooted : Bool) (path : GoString) : List GoString :=
  (path.splitOn 47).foldl (cleanElement rooted) []

/-- An element that `clean` can only push: a name of a file or a directory. -/
structure IsName (element : GoString) : Prop where
  nonempty : element ≠ []
  not_dot : element ≠ lit "."
  not_dotdot : element ≠ lit ".."
  no_slash : 47 ∉ element

theorem cleanElement_name (rooted : Bool) (out : List GoString) {element : GoString}
    (h : IsName element) : cleanElement rooted out element = element :: out := by
  unfold cleanElement
  rw [if_neg (by simp [h.nonempty, h.not_dot]), if_neg h.not_dotdot]

theorem foldl_names (rooted : Bool) {names : List GoString} (h : ∀ e ∈ names, IsName e)
    (out : List GoString) :
    names.foldl (cleanElement rooted) out = names.reverse ++ out := by
  induction names generalizing out with
  | nil => rfl
  | cons e names ih =>
    rw [List.foldl_cons, cleanElement_name rooted out (h e (List.mem_cons_self ..)),
      ih (fun e he => h e (List.mem_cons_of_mem _ he)), List.reverse_cons, List.append_assoc]
    rfl

theorem mem_cleanElement {rooted : Bool} {out : List GoString} {element e : GoString}
    (h : e ∈ cleanElement rooted out element) :
    e ∈ out ∨ e = element ∧ e ≠ [] ∧ e ≠ lit "." := by
  unfold cleanElement at h
  split at h
  · exact .inl h
  · rename_i hkept
    have hkept : element ≠ [] ∧ element ≠ lit "." := by simpa using hkept
    have hself : e = element → e = element ∧ e ≠ [] ∧ e ≠ lit "." := by
      rintro rfl
      exact ⟨rfl, hkept⟩
    split at h
    · split at h
      · split at h
        · exact .inl h
        · exact .inr (hself (List.mem_singleton.mp h))
      · split at h
        · exact (List.mem_cons.mp h).symm.imp_right hself
        · exact .inl (List.mem_cons_of_mem _ h)
    · exact (List.mem_cons.mp h).symm.imp_right hself

theorem mem_foldl_cleanElement {rooted : Bool} {parts out : List GoString} {e : GoString}
    (h : e ∈ parts.foldl (cleanElement rooted) out) :
    e ∈ out ∨ e ∈ parts ∧ e ≠ [] ∧ e ≠ lit "." := by
  induction parts generalizing out with
  | nil => exact .inl h
  | cons part parts ih =>
    rcases ih h with hout | ⟨hmem, hkept⟩
    · rcases mem_cleanElement hout with hold | ⟨rfl, hkept⟩
      · exact .inl hold
      · exact .inr ⟨List.mem_cons_self .., hkept⟩
    · exact .inr ⟨List.mem_cons_of_mem _ hmem, hkept⟩

theorem not_mem_of_mem_splitOn (path : GoString) : ∀ part ∈ path.splitOn 47, 47 ∉ part := by
  -- Along the slashes: before the first one there is none, and what follows it is shorter.
  induction hlength : path.length using Nat.strong_induction_on generalizing path with
  | _ n ih =>
    by_cases hslash : 47 ∈ path
    · obtain ⟨first, rest, rfl, hfirst⟩ := List.eq_append_cons_of_mem hslash
      rw [List.splitOn_append_cons_self_of_not_mem hfirst, List.forall_mem_cons]
      refine ⟨hfirst, ih rest.length ?_ rest rfl⟩
      rw [← hlength, List.length_append, List.length_cons]
      omega
    · rw [List.splitOn_eq_singleton hslash, List.forall_mem_singleton]
      exact hslash

theorem infix_intercalate {e : GoString} {out : List GoString} (h : e ∈ out) :
    e <:+: [47].intercalate out := by
  induction out with
  | nil => cases h
  | cons first out ih =>
    by_cases hout : out = []
    · subst hout
      obtain rfl := List.mem_singleton.mp h
      rw [List.intercalate_singleton]
    · rw [List.intercalate_cons_of_ne_nil hout]
      rcases List.mem_cons.mp h with rfl | h
      · exact ((List.prefix_append _ _).trans (List.prefix_append _ _)).isInfix
      · exact (ih h).trans (List.suffix_append _ _).isInfix

theorem intercalate_append {before after : List GoString} (hbefore : before ≠ [])
    (hafter : after ≠ []) :
    [47].intercalate (before ++ after) =
      [47].intercalate before ++ 47 :: [47].intercalate after := by
  induction before with
  | nil => exact absurd rfl hbefore
  | cons first before ih =>
    by_cases hrest : before = []
    · subst hrest
      rw [List.singleton_append, List.intercalate_cons_of_ne_nil hafter,
        List.intercalate_singleton, List.append_assoc, List.singleton_append]
    · rw [List.cons_append, List.intercalate_cons_of_ne_nil (by simp [hrest]), ih hrest,
        List.intercalate_cons_of_ne_nil hrest]
      simp only [List.append_assoc]

/-- The text of a path from its elements, last first. -/
def render (rooted : Bool) (out : List GoString) : GoString :=
  if rooted then 47 :: [47].intercalate out.reverse
  else if out = [] then lit "."
  else [47].intercalate out.reverse

theorem clean_eq (path : GoString) :
    clean path = render (path.head? == some 47) (elements (path.head? == some 47) path) := by
  unfold clean render elements
  simp only [List.reverse_eq_nil_iff]

/-- More elements go behind a slash, unless the path is the root or the current directory. -/
theorem render_append {rooted : Bool} {out names : List GoString} (hout : out ≠ [])
    (hnames : names ≠ []) :
    render rooted (names.reverse ++ out) = render rooted out ++ 47 :: [47].intercalate names := by
  have happend : names.reverse ++ out ≠ [] := by simp [hout]
  have htext : [47].intercalate (names.reverse ++ out).reverse =
      [47].intercalate out.reverse ++ 47 :: [47].intercalate names := by
    rw [List.reverse_append, List.reverse_reverse, intercalate_append (by simpa using hout) hnames]
  cases rooted with
  | true => exact congrArg (List.cons 47) htext
  | false =>
    unfold render
    rw [if_neg Bool.false_ne_true, if_neg Bool.false_ne_true, if_neg happend, if_neg hout, htext]

/-! ## Accepted keys -/

/-- The names an accepted key keeps, in order; none for a key such as `a/..`. -/
def namesOf (key : GoString) : List GoString := (elements false key).reverse

theorem getSafePath_eq_ok {key safeKey : GoString} (h : getSafePath key = .ok safeKey) :
    safeKey = clean key ∧ ¬ lit ".." <:+: clean key ∧ (clean key).head? ≠ some 47 := by
  dsimp only [getSafePath] at h
  split at h
  · cases h
  · rename_i hsafe
    simp only [Bool.or_eq_true, decide_eq_true_eq, List.isPrefixOf_iff_prefix, not_or] at hsafe
    refine ⟨(Except.ok.inj h).symm, hsafe.1, fun hhead => hsafe.2 ?_⟩
    obtain ⟨rest, hrest⟩ := List.head?_eq_some_iff.mp hhead
    exact ⟨rest, hrest.symm⟩

theorem head_of_accepted {key safeKey : GoString} (h : getSafePath key = .ok safeKey) :
    (key.head? == some 47) = false := by
  obtain ⟨-, -, hhead⟩ := getSafePath_eq_ok h
  rw [Bool.eq_false_iff]
  intro hrooted
  rw [clean_eq, hrooted] at hhead
  exact hhead rfl

theorem clean_accepted {key safeKey : GoString} (h : getSafePath key = .ok safeKey) :
    clean key = render false (namesOf key).reverse := by
  rw [clean_eq, head_of_accepted h, namesOf, List.reverse_reverse]

theorem isName_of_accepted {key safeKey : GoString} (h : getSafePath key = .ok safeKey) :
    ∀ e ∈ namesOf key, IsName e := by
  intro e he
  have hkept : e ∈ elements false key := List.mem_reverse.mp he
  obtain hnil | ⟨hpart, hnonempty, hdot⟩ := mem_foldl_cleanElement hkept
  · cases hnil
  · refine ⟨hnonempty, hdot, ?_, not_mem_of_mem_splitOn key e hpart⟩
    rintro rfl
    obtain ⟨-, hdotdot, -⟩ := getSafePath_eq_ok h
    apply hdotdot
    rw [clean_accepted h, render, if_neg Bool.false_ne_true,
      if_neg (by simpa using List.ne_nil_of_mem he), List.reverse_reverse]
    exact infix_intercalate he

theorem clean_ne_nil (path : GoString) : clean path ≠ [] := by
  rw [clean_eq, render]
  split_ifs with hrooted hnil
  · exact List.cons_ne_nil _ _
  · decide
  · -- an element that is kept is not empty
    obtain ⟨e, he⟩ := List.exists_mem_of_ne_nil _ hnil
    obtain ⟨⟨⟩⟩ | ⟨-, hnonempty, -⟩ := mem_foldl_cleanElement he
    intro hempty
    have hinfix := infix_intercalate (List.mem_reverse.mpr he)
    rw [hempty, List.infix_nil] at hinfix
    exact hnonempty hinfix

theorem head_intercalate {names : List GoString} (hne : names ≠ []) (h : ∀ e ∈ names, IsName e) :
    ([47].intercalate names).head? ≠ some 47 := by
  obtain ⟨e, rest, rfl⟩ := List.exists_cons_of_ne_nil hne
  obtain ⟨hnonempty, -, -, hslash⟩ := h e List.mem_cons_self
  obtain ⟨c, t, rfl⟩ := List.exists_cons_of_ne_nil hnonempty
  have hc : c ≠ 47 := fun heq => hslash (heq ▸ List.mem_cons_self)
  cases rest <;> simp [List.intercalate, hc]

/-- A key that consists of names is its own safe path, unless it holds `..`. -/
theorem getSafePath_names {names : List GoString} (hne : names ≠ []) (h : ∀ e ∈ names, IsName e)
    (hparent : ¬ lit ".." <:+: [47].intercalate names) :
    getSafePath ([47].intercalate names) = .ok ([47].intercalate names) := by
  have hhead := head_intercalate hne h
  have hclean : clean ([47].intercalate names) = [47].intercalate names := by
    rw [clean_eq, beq_eq_false_iff_ne.mpr hhead, elements,
      List.splitOn_intercalate 47 (fun e he => (h e he).no_slash) hne, foldl_names false h,
      List.append_nil, render, if_neg Bool.false_ne_true, if_neg (by simpa using hne),
      List.reverse_reverse]
  have hroot : ¬ lit "/" <+: [47].intercalate names := by
    rintro ⟨rest, hrest⟩
    exact hhead (by rw [← hrest]; rfl)
  dsimp only [getSafePath]
  rw [hclean, if_neg (by simp [hparent, hroot])]

theorem render_cons_append (rooted : Bool) (out : List GoString) (t name : GoString) :
    render rooted ((t ++ name) :: out) = render rooted (t :: out) ++ name := by
  have htext : ∀ l : List GoString,
      [47].intercalate (l ++ [t ++ name]) = [47].intercalate (l ++ [t]) ++ name := by
    intro l
    by_cases hl : l = []
    · simp [hl]
    · rw [intercalate_append hl (by simp), intercalate_append hl (by simp)]
      simp
  simp only [render, List.reverse_cons, htext, reduceCtorEq, if_false]
  split <;> rfl

/-- Names that are put behind a key are kept behind one and the same text. -/
theorem clean_append (key : GoString) : ∃ dir, ∀ name : GoString, 47 ∉ name →
    (∀ t, 47 ∉ t → IsName (t ++ name)) → clean (key ++ name) = dir ++ name := by
  obtain ⟨rooted, hrooted⟩ : ∃ rooted, ∀ name : GoString, 47 ∉ name →
      ((key ++ name).head? == some 47) = rooted := by
    refine ⟨key.head? == some 47, fun name hname => ?_⟩
    cases key with
    | nil =>
      cases name with
      | nil => rfl
      | cons c rest =>
        have hc : c ≠ 47 := fun heq => hname (heq ▸ List.mem_cons_self)
        simp [hc]
    | cons c rest => rfl
  by_cases hslash : (47 : UInt8) ∈ key
  · -- what follows the last slash belongs to the name
    obtain ⟨t, dir, hkey, ht⟩ := List.eq_append_cons_of_mem (List.mem_reverse.mpr hslash)
    obtain rfl : key = dir.reverse ++ 47 :: t.reverse := by
      simpa using congrArg List.reverse hkey
    have ht : (47 : UInt8) ∉ t.reverse := by simpa using ht
    refine ⟨render rooted (t.reverse :: (dir.reverse.splitOn 47).foldl (cleanElement rooted) []),
      fun name hname hisName => ?_⟩
    rw [clean_eq, hrooted name hname, elements, List.append_assoc, List.cons_append,
      List.splitOn_append_cons_self,
      List.splitOn_eq_singleton (show (47 : UInt8) ∉ t.reverse ++ name by simp_all),
      List.foldl_append, List.foldl_cons, List.foldl_nil, cleanElement_name _ _ (hisName _ ht),
      render_cons_append]
  · refine ⟨render rooted [key], fun name hname hisName => ?_⟩
    rw [clean_eq, hrooted name hname, elements,
      List.splitOn_eq_singleton (by simp [hslash, hname]), List.foldl_cons, List.foldl_nil,
      cleanElement_name _ _ (hisName key hslash), render_cons_append]

/-! ## The resolved path -/

/-- Go's `filepath.Join` of two elements: empty elements in front are dropped. -/
def join (dir name : GoString) : GoString :=
  if dir ≠ [] then clean (dir ++ 47 :: name)
  else if name ≠ [] then clean name
  else []

/-- `_getSafePath`, below the node's directory. -/
def resolve (storageDir key : GoString) : Except NodeError GoString :=
  (getSafePath key).map (join storageDir)

theorem foldl_clean_accepted {key safeKey : GoString} (h : getSafePath key = .ok safeKey)
    (rooted : Bool) (out : List GoString) :
    ((clean key).splitOn 47).foldl (cleanElement rooted) out = (namesOf key).reverse ++ out := by
  have hnames := isName_of_accepted h
  rw [clean_accepted h, render, if_neg Bool.false_ne_true, List.reverse_reverse]
  by_cases hnil : namesOf key = []
  · rw [hnil]
    rfl
  · rw [if_neg (by simpa using hnil),
      List.splitOn_intercalate 47 (fun e he => (hnames e he).no_slash) hnil]
    exact foldl_names rooted hnames out

section Directory

variable {storageDir key : GoString} (hdot : clean storageDir ≠ lit ".")
  (hroot : clean storageDir ≠ lit "/")

include hdot in
theorem ne_nil_of_clean_ne_dot : storageDir ≠ [] := by
  rintro rfl
  exact hdot rfl

include hdot hroot in
theorem elements_ne_nil :
    elements (storageDir.head? == some 47) storageDir ≠ [] := by
  intro hnil
  rw [clean_eq, hnil] at hdot hroot
  cases hrooted : storageDir.head? == some 47 with
  | true => exact hroot (by rw [hrooted]; rfl)
  | false => exact hdot (by rw [hrooted]; rfl)

include hdot hroot in
/-- The resolved path is the cleaned directory followed by the names of the key. -/
theorem join_accepted {safeKey : GoString} (h : getSafePath key = .ok safeKey) :
    join storageDir safeKey =
      if namesOf key = [] then clean storageDir
      else clean storageDir ++ 47 :: [47].intercalate (namesOf key) := by
  have hne : storageDir ≠ [] := ne_nil_of_clean_ne_dot hdot
  have hhead : (storageDir ++ 47 :: clean key).head? = storageDir.head? :=
    List.head?_append_of_ne_nil _ hne
  have helements : ∀ rooted, elements rooted (storageDir ++ 47 :: clean key) =
      (namesOf key).reverse ++ elements rooted storageDir := by
    intro rooted
    unfold elements
    rw [List.splitOn_append_cons_self, List.foldl_append, foldl_clean_accepted h]
  obtain ⟨rfl, -, -⟩ := getSafePath_eq_ok h
  rw [join, if_pos hne, clean_eq (storageDir ++ _), hhead, helements]
  split
  · rename_i hnil
    rw [hnil, List.reverse_nil, List.nil_append, ← clean_eq]
  · rename_i hnames
    rw [render_append (elements_ne_nil hdot hroot) hnames, ← clean_eq]

end Directory

/-- The path is the cleaned directory or lies below it, with no way back up. -/
def Confined (storageDir path : GoString) : Prop :=
  path = clean storageDir ∨
    ∃ rest, path = clean storageDir ++ 47 :: rest ∧ lit ".." ∉ rest.splitOn 47

theorem confined_resolve {storageDir key path : GoString} (hdot : clean storageDir ≠ lit ".")
    (hroot : clean storageDir ≠ lit "/") (h : resolve storageDir key = .ok path) :
    Confined storageDir path := by
  unfold resolve at h
  cases hsafe : getSafePath key with
  | error err => rw [hsafe] at h; cases h
  | ok safeKey =>
    rw [hsafe] at h
    obtain rfl : join storageDir safeKey = path := Except.ok.inj h
    have hnames := isName_of_accepted hsafe
    rw [join_accepted hdot hroot hsafe]
    split
    · exact .inl rfl
    · rename_i hne
      refine .inr ⟨[47].intercalate (namesOf key), rfl, fun hmem => ?_⟩
      rw [List.splitOn_intercalate 47 (fun e he => (hnames e he).no_slash) hne] at hmem
      exact (hnames _ hmem).not_dotdot rfl

/-- Two accepted keys name one file exactly when they have one safe path. -/
theorem join_inj {storageDir key key' safeKey safeKey' : GoString}
    (hdot : clean storageDir ≠ lit ".") (hroot : clean storageDir ≠ lit "/")
    (h : getSafePath key = .ok safeKey) (h' : getSafePath key' = .ok safeKey') :
    join storageDir safeKey = join storageDir safeKey' ↔ safeKey = safeKey' := by
  refine ⟨fun hjoin => ?_, congrArg _⟩
  suffices hnames : namesOf key = namesOf key' by
    rw [(getSafePath_eq_ok h).1, (getSafePath_eq_ok h').1, clean_accepted h, clean_accepted h',
      hnames]
  rw [join_accepted hdot hroot h, join_accepted hdot hroot h'] at hjoin
  split at hjoin
  · rename_i hnil
    split at hjoin
    · rename_i hnil'
      rw [hnil, hnil']
    · exact absurd hjoin (by simp)
  · rename_i hne
    split at hjoin
    · exact absurd hjoin (by simp)
    · rename_i hne'
      have htext := (List.cons.inj (List.append_cancel_left hjoin)).2
      have hsplit := congrArg (List.splitOn 47) htext
      rwa [List.splitOn_intercalate 47 (fun e he => (isName_of_accepted h e he).no_slash) hne,
        List.splitOn_intercalate 47 (fun e he => (isName_of_accepted h' e he).no_slash) hne']
        at hsplit

/-! ## Requests on the file system -/

/-- The files of the machine the node runs on, by their path. -/
structure FileSystem where
  files : GoString → Option Blob

namespace FileSystem

/-- `storeStream` with the worker's write, which opens the resolved path itself. -/
def storeStream (fs : FileSystem) (storageDir key : GoString) (data : Blob) (disk : DiskWrite) :
    Except NodeError Nat × FileSystem :=
  match resolve storageDir key with
  | .error err => (.error err, fs)
  | .ok path =>
    match disk with
    | .refused => (.error .io, fs)
    | .torn left => (.error .io, ⟨Function.update fs.files path (some left)⟩)
    | .durable => (.ok data.length, ⟨Function.update fs.files path (some data)⟩)

def retrieve (fs : FileSystem) (storageDir key : GoString) (disk : Bool) :
    Except NodeError (Option Blob) :=
  match resolve storageDir key with
  | .error err => .error err
  | .ok path => if disk then .ok (fs.files path) else .error .io

def delete (fs : FileSystem) (storageDir key : GoString) (disk : Bool) :
    Except NodeError Bool × FileSystem :=
  match resolve storageDir key with
  | .error err => (.error err, fs)
  | .ok path =>
    if disk then (.ok (fs.files path).isSome, ⟨Function.update fs.files path none⟩)
    else (.error .io, fs)

end FileSystem

/-- The engine keeps, by its safe path, what the file system has below the directory. -/
def Represents (storageDir : GoString) (fs : FileSystem) (e : Engine) : Prop :=
  ∀ key safeKey, getSafePath key = .ok safeKey →
    fs.files (join storageDir safeKey) = e.files safeKey

section Requests

variable {storageDir key : GoString} (hdot : clean storageDir ≠ lit ".")
  (hroot : clean storageDir ≠ lit "/")

theorem resolve_error {err : NodeError} (h : getSafePath key = .error err) :
    resolve storageDir key = .error err := by
  rw [resolve, h]
  rfl

theorem resolve_ok {safeKey : GoString} (h : getSafePath key = .ok safeKey) :
    resolve storageDir key = .ok (join storageDir safeKey) := by
  rw [resolve, h]
  rfl

include hdot hroot in
theorem Represents.update {fs : FileSystem} {e : Engine} (hrep : Represents storageDir fs e)
    {safeKey : GoString} (h : getSafePath key = .ok safeKey) (content : Option Blob) :
    Represents storageDir ⟨Function.update fs.files (join storageDir safeKey) content⟩
      ⟨Function.update e.files safeKey content⟩ := by
  intro key' safeKey' h'
  simp only [Function.update_apply, join_inj hdot hroot h' h]
  split
  · rfl
  · exact hrep key' safeKey' h'

include hdot hroot in
theorem storeStream_represents {fs : FileSystem} {e : Engine} (hrep : Represents storageDir fs e)
    (data : Blob) (disk : DiskWrite) :
    (fs.storeStream storageDir key data disk).1 = (e.storeStream key data disk).1 ∧
      Represents storageDir (fs.storeStream storageDir key data disk).2
        (e.storeStream key data disk).2 := by
  unfold FileSystem.storeStream Engine.storeStream
  cases hsafe : getSafePath key with
  | error err =>
    rw [resolve_error hsafe]
    exact ⟨rfl, hrep⟩
  | ok safeKey =>
    rw [resolve_ok hsafe]
    cases disk with
    | refused => exact ⟨rfl, hrep⟩
    | torn left => exact ⟨rfl, hrep.update hdot hroot hsafe (some left)⟩
    | durable => exact ⟨rfl, hrep.update hdot hroot hsafe (some data)⟩

theorem retrieve_represents {fs : FileSystem} {e : Engine} (hrep : Represents storageDir fs e)
    (disk : Bool) : fs.retrieve storageDir key disk = e.retrieve key disk := by
  unfold FileSystem.retrieve Engine.retrieve
  cases hsafe : getSafePath key with
  | error err => rw [resolve_error hsafe]
  | ok safeKey =>
    rw [resolve_ok hsafe]
    dsimp only
    rw [hrep key safeKey hsafe]

include hdot hroot in
theorem delete_represents {fs : FileSystem} {e : Engine} (hrep : Represents storageDir fs e)
    (disk : Bool) :
    (fs.delete storageDir key disk).1 = (e.delete key disk).1 ∧
      Represents storageDir (fs.delete storageDir key disk).2 (e.delete key disk).2 := by
  unfold FileSystem.delete Engine.delete
  cases hsafe : getSafePath key with
  | error err =>
    rw [resolve_error hsafe]
    exact ⟨rfl, hrep⟩
  | ok safeKey =>
    rw [resolve_ok hsafe]
    cases disk with
    | false => exact ⟨rfl, hrep⟩
    | true =>
      refine ⟨?_, hrep.update hdot hroot hsafe none⟩
      exact congrArg (fun c : Option Blob => Except.ok (ε := NodeError) c.isSome)
        (hrep key safeKey hsafe)

theorem storeStream_other {fs : FileSystem} {path : GoString}
    (h : resolve storageDir key ≠ .ok path) (data : Blob) (disk : DiskWrite) :
    (fs.storeStream storageDir key data disk).2.files path = fs.files path := by
  unfold FileSystem.storeStream
  cases hresolve : resolve storageDir key with
  | error err => rfl
  | ok resolved =>
    have hne : path ≠ resolved := fun heq => h (heq ▸ hresolve)
    cases disk with
    | refused => rfl
    | torn left => exact Function.update_of_ne hne _ _
    | durable => exact Function.update_of_ne hne _ _

theorem delete_other {fs : FileSystem} {path : GoString}
    (h : resolve storageDir key ≠ .ok path) (disk : Bool) :
    (fs.delete storageDir key disk).2.files path = fs.files path := by
  unfold FileSystem.delete
  cases hresolve : resolve storageDir key with
  | error err => rfl
  | ok resolved =>
    have hne : path ≠ resolved := fun heq => h (heq ▸ hresolve)
    cases disk with
    | false => rfl
    | true => exact Function.update_of_ne hne _ _

theorem retrieve_congr {fs fs' : FileSystem}
    (h : ∀ path, resolve storageDir key = .ok path → fs.files path = fs'.files path)
    (disk : Bool) : fs.retrieve storageDir key disk = fs'.retrieve storageDir key disk := by
  unfold FileSystem.retrieve
  cases hresolve : resolve storageDir key with
  | error err => rfl
  | ok path =>
    dsimp only
    rw [h path hresolve]

theorem delete_congr {fs fs' : FileSystem}
    (h : ∀ path, resolve storageDir key = .ok path → fs.files path = fs'.files path)
    (disk : Bool) :
    (fs.delete storageDir key disk).1 = (fs'.delete storageDir key disk).1 := by
  unfold FileSystem.delete
  cases hresolve : resolve storageDir key with
  | error err => rfl
  | ok path =>
    cases disk with
    | false => rfl
    | true =>
      exact congrArg (fun c : Option Blob => Except.ok (ε := NodeError) c.isSome) (h path hresolve)

end Requests

/-- What confinement says of the requests for one key: the file they name lies in the directory,
files elsewhere stay as they are, and what is answered does not depend on them. -/
structure RequestsConfined (storageDir key : GoString) : Prop where
  resolved : ∀ path, resolve storageDir key = .ok path → Confined storageDir path
  stored : ∀ (fs : FileSystem) data disk path, ¬ Confined storageDir path →
    (fs.storeStream storageDir key data disk).2.files path = fs.files path
  deleted : ∀ (fs : FileSystem) disk path, ¬ Confined storageDir path →
    (fs.delete storageDir key disk).2.files path = fs.files path
  retrieved : ∀ fs fs' : FileSystem,
    (∀ path, Confined storageDir path → fs.files path = fs'.files path) →
      ∀ disk, fs.retrieve storageDir key disk = fs'.retrieve storageDir key disk ∧
        (fs.delete storageDir key disk).1 = (fs'.delete storageDir key disk).1

/-- **Path confinement**, for every key and every directory that is not `.` or `/`. -/
theorem requests_confined {storageDir : GoString} (hdot : clean storageDir ≠ lit ".")
    (hroot : clean storageDir ≠ lit "/") (key : GoString) : RequestsConfined storageDir key where
  resolved _ := confined_resolve hdot hroot
  stored _ data disk _ houtside :=
    storeStream_other (fun h => houtside (confined_resolve hdot hroot h)) data disk
  deleted _ disk _ houtside :=
    delete_other (fun h => houtside (confined_resolve hdot hroot h)) disk
  retrieved _ _ hsame disk :=
    have hfile := fun path h => hsame path (confined_resolve hdot hroot h)
    ⟨retrieve_congr hfile disk, delete_congr hfile disk⟩

/-- A directory above the working directory, and a key that climbs and comes back. -/
theorem requests_confined_above :
    RequestsConfined (lit "../data/./node1/") (lit "a/../b//c") ∧
      resolve (lit "../data/./node1/") (lit "a/../b//c") = .ok (lit "../data/node1/b/c") :=
  ⟨requests_confined (by decide +kernel) (by decide +kernel) _, by decide +kernel⟩

end TieredStore.Node
