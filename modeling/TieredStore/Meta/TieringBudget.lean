import TieredStore.Meta.TieringPass

/-!
# The budgets of a tiering pass

The selection of a tiering pass is a function of the candidates alone (`chosen`): it takes them by
age, up to a number of objects and up to a number of bytes. What it takes loses its due entry and
has a task row (`Migrated`). With the walk in front, this gives what a whole pass keeps to
(`tiering_budgets`).
-/

namespace TieredStore.Meta.TieringBudget

open Lib Lib.Prog TaskCoherence TaskMoves Tracking DuePairs TieringPass

/-! ## The selection -/

/-- The candidates that the selection loop takes, with the bytes used and the number of selected
ones so far. -/
def chosen (maxObjects maxBytes : Int) (applyByteBudget : Bool) :
    List TieringCandidate → Int → Int → List TieringCandidate
  | [], _, _ => []
  | c :: rest, usedBytes, selected =>
    if selected ≥ maxObjects then []
    else
      let budget := applyByteBudget ∧ maxBytes > 0 ∧ c.sizeBytes > 0
      if budget ∧ wrap64 (usedBytes + c.sizeBytes) > maxBytes then
        chosen maxObjects maxBytes applyByteBudget rest usedBytes selected
      else
        let usedBytes := if budget then wrap64 (usedBytes + c.sizeBytes) else usedBytes
        c :: chosen maxObjects maxBytes applyByteBudget rest usedBytes (selected + 1)

section Selection

variable {maxObjects maxBytes used selected : Int} {budget : Bool} {cs : List TieringCandidate}

theorem chosen_sublist :
    (chosen maxObjects maxBytes budget cs used selected).Sublist cs := by
  induction cs generalizing used selected with
  | nil => exact List.Sublist.refl _
  | cons c rest ih =>
    unfold chosen
    dsimp only
    split
    · exact List.nil_sublist _
    · split
      · exact ih.cons c
      · exact ih.cons_cons c

theorem length_chosen (h : selected ≤ maxObjects) :
    selected + (chosen maxObjects maxBytes budget cs used selected).length ≤ maxObjects := by
  induction cs generalizing used selected with
  | nil => simpa [chosen] using h
  | cons c rest ih =>
    unfold chosen
    dsimp only
    split
    · simpa using h
    · rename_i hroom
      split
      · exact ih h
      · have hnext : selected + 1 ≤ maxObjects := by omega
        have := @ih (if budget ∧ maxBytes > 0 ∧ c.sizeBytes > 0 then wrap64 (used + c.sizeBytes)
          else used) _ hnext
        rw [List.length_cons]
        push_cast
        omega

/-- The selected candidates keep to the byte budget when no sum of sizes overflows. -/
theorem bytes_chosen (hpos : 0 < maxBytes) (hsizes : ∀ c ∈ cs, 0 ≤ c.sizeBytes) (hlow : 0 ≤ used)
    (hused : used ≤ maxBytes) (hfits : used + (cs.map (·.sizeBytes)).sum < 2 ^ 63) :
    used + ((chosen maxObjects maxBytes true cs used selected).map (·.sizeBytes)).sum ≤
      maxBytes := by
  induction cs generalizing used selected with
  | nil => simpa [chosen] using hused
  | cons c rest ih =>
    obtain ⟨hsize, hrest⟩ := List.forall_mem_cons.mp hsizes
    have hsum : 0 ≤ (rest.map (·.sizeBytes)).sum :=
      List.sum_nonneg fun x hx => by
        obtain ⟨c', hc', rfl⟩ := List.mem_map.mp hx
        exact hrest c' hc'
    rw [List.map_cons, List.sum_cons] at hfits
    have hwrap : wrap64 (used + c.sizeBytes) = used + c.sizeBytes :=
      wrap64_eq_self (by omega) (by omega)
    unfold chosen
    dsimp only
    rw [hwrap]
    by_cases hroom : selected ≥ maxObjects
    · rw [if_pos hroom]
      simpa using hused
    · rw [if_neg hroom]
      by_cases hover : ((true : Bool) ∧ maxBytes > 0 ∧ c.sizeBytes > 0) ∧
          used + c.sizeBytes > maxBytes
      · rw [if_pos hover]
        exact ih hrest hlow hused (by omega)
      · rw [if_neg hover, List.map_cons, List.sum_cons]
        by_cases hzero : c.sizeBytes > 0
        · have hnext : used + c.sizeBytes ≤ maxBytes :=
            not_lt.mp fun h => hover ⟨⟨rfl, hpos, hzero⟩, h⟩
          rw [if_pos ⟨rfl, hpos, hzero⟩]
          have := @ih (used + c.sizeBytes) (selected + 1) hrest (by omega) hnext (by omega)
          omega
        · rw [if_neg fun h => hzero h.2.2]
          have := @ih used (selected + 1) hrest hlow hused (by omega)
          omega

/-- Without a byte budget the first candidates are taken. -/
theorem chosen_eq_take :
    chosen maxObjects maxBytes false cs used selected = cs.take (maxObjects - selected).toNat := by
  induction cs generalizing used selected with
  | nil => simp [chosen]
  | cons c rest ih =>
    unfold chosen
    simp only [Bool.false_eq_true, false_and, if_false]
    split
    · rename_i hfull
      rw [show (maxObjects - selected).toNat = 0 by omega, List.take_zero]
    · rename_i hroom
      rw [show (maxObjects - selected).toNat = (maxObjects - (selected + 1)).toNat + 1 by omega,
        List.take_succ_cons, ih]

end Selection

/-- The migrations of some candidates are enqueued: their due pairs are gone and their task rows are
there, and no task row is lost. -/
structure Migrated (cs : List TieringCandidate) (s s' : Store) : Prop where
  cleared : Cleared (cs.map fun c => (c.objectID, c.version)) s s'
  tasks : ∀ c ∈ cs, HasTask s' c.objectID c.version
  kept : ∀ id, taskRow s id ≠ none → taskRow s' id ≠ none

section Migrations

variable {s s₁ s' : Store} {clock now : Time} {c : TieringCandidate}

theorem migrated_nil (s : Store) : Migrated [] s s where
  cleared := cleared_same fun _ => rfl
  tasks := nofun
  kept := fun _ h => h

theorem Migrated.trans {cs cs' : List TieringCandidate} (h : Migrated cs s s₁)
    (h' : Migrated cs' s₁ s') : Migrated (cs ++ cs') s s' where
  cleared := by
    rw [List.map_append]
    exact h.cleared.trans h'.cleared
  tasks := by
    intro c hc
    rcases List.mem_append.mp hc with hc | hc
    · exact h'.kept _ (h.tasks c hc)
    · exact h'.tasks c hc
  kept := fun id hid => h'.kept id (h.kept id hid)

theorem taskKey_not_dueFamily {k : GoString} (h : TaskKey k) : ¬ DueFamily k := fun hk =>
  hk.elim (taskKey_not_due h).1 (taskKey_not_due h).2

/-- A write of a head. -/
theorem cleared_setObject (s : Store) (o : GoString) (x : Value) :
    Cleared [] s (s.applyAll [Write.set (tiKVObjectKey o) x]) ∧
      ∀ id, taskRow (s.applyAll [Write.set (tiKVObjectKey o) x]) id = taskRow s id := by
  have hget : ∀ {k}, keyFamily k ≠ lit "obj" →
      (s.applyAll [Write.set (tiKVObjectKey o) x]).get? k = s.get? k := by
    intro k hk
    refine SortedMap.get?_applyAll_of_untouched fun w hw => ?_
    cases List.mem_singleton.mp hw
    rintro rfl
    exact hk (keyFamily_object o)
  refine ⟨cleared_same fun {k} hk => hget (by rcases hk with hk | hk <;> rw [hk] <;> decide),
    fun id => ?_⟩
  unfold taskRow
  rw [hget (by rw [keyFamily_task]; decide)]

/-- The last part of a migration: the due pair goes, and the head moves on. -/
theorem migrationTail_ok (hs : Bijection s) {m n : Int}
    (h : atomically (removeTieringDueIndexByVersion c.objectID c.version >>= fun _ =>
      markPending now c m) s = (.ok n, s')) :
    Cleared [(c.objectID, c.version)] s s' ∧ ∀ id, taskRow s' id = taskRow s id := by
  obtain ⟨s₁, hrun, hcleared, hsame⟩ := atomically_removeDue hs c.objectID c.version
  have htasks : ∀ id, taskRow s₁ id = taskRow s id := by
    intro id
    unfold taskRow
    rw [hsame (taskKey_not_dueFamily (taskKey_task id))]
  have h := (run_bind_ok hrun _).symm.trans h
  unfold markPending at h
  have h := atomically_getJSON_ok h
  split at h
  · cases h
    exact ⟨hcleared, htasks⟩
  · split at h
    · cases h
      exact ⟨hcleared, htasks⟩
    · rename_i obj _ _
      rw [show atomically (KV.set (tiKVObjectKey c.objectID)
          (.object { obj with state := .migrationPending, updatedAt := now }) >>= fun _ => pure m)
        s₁ = (.ok m, s₁.applyAll [Write.set (tiKVObjectKey c.objectID)
          (.object { obj with state := .migrationPending, updatedAt := now })]) from
        run_bind_ok (atomically_commit _ s₁) _] at h
      cases h
      obtain ⟨hkeep, hrows⟩ := cleared_setObject s₁ c.objectID
        (.object { obj with state := .migrationPending, updatedAt := now })
      refine ⟨by simpa using hcleared.trans hkeep, fun id => (hrows id).trans (htasks id)⟩

/-- A write of a new task row. -/
theorem insertTask_ok {rec : TaskRecord} (hid : rec.taskID ≠ []) {u : Unit}
    (h : atomically (writeTaskRecordWithRunnableIndexLocked clock none rec now) s = (.ok u, s')) :
    Cleared [] s s' ∧
      ∀ id, taskRow s' id = if id = rec.taskID then some rec else taskRow s id := by
  obtain ⟨pre, post, hpre, hpost, hbatch⟩ := taskRecordBatch_around clock none rec now
  unfold writeTaskRecordWithRunnableIndexLocked at h
  rw [if_neg hid, atomically_commit, hbatch] at h
  cases h
  refine ⟨cleared_same fun {k} hk => ?_, taskRow_around hpre hpost _ _⟩
  refine SortedMap.get?_applyAll_of_untouched fun w hw => ?_
  rintro rfl
  exact taskKey_not_dueFamily (keys_around hpre hpost _ _ w hw) hk

theorem enqueueMigration_ok (hs : Bijection s) {n : Int}
    (h : atomically (enqueueMigration clock now c) s = (.ok n, s')) : Migrated [c] s s' := by
  unfold enqueueMigration at h
  have h := atomically_getJSON_ok h
  cases hrow : taskRow s (migrationTask c.objectID c.version) with
  | some rec =>
    rw [show (s.get? (tiKVTaskKey (lit "repl2ec:" ++ c.objectID ++ lit ":" ++
      Bytes.formatInt c.version))).bind Value.asTask = some rec from hrow] at h
    obtain ⟨hcleared, htasks⟩ := migrationTail_ok hs h
    refine ⟨hcleared, ?_, fun id hid => by rw [htasks]; exact hid⟩
    intro c' hc'
    cases List.mem_singleton.mp hc'
    unfold HasTask
    rw [htasks, hrow]
    nofun
  | none =>
    rw [show (s.get? (tiKVTaskKey (lit "repl2ec:" ++ c.objectID ++ lit ":" ++
      Bytes.formatInt c.version))).bind Value.asTask = none from hrow] at h
    obtain ⟨_, s₁, hwrite, h⟩ := run_bind_eq_ok h
    obtain ⟨hkeep, hrows⟩ := insertTask_ok (migrationTask_ne_nil c.objectID c.version) hwrite
    obtain ⟨hcleared, htasks⟩ := migrationTail_ok (hkeep.bijection hs) h
    refine ⟨by simpa using hkeep.trans hcleared, ?_, fun id hid => ?_⟩
    · intro c' hc'
      cases List.mem_singleton.mp hc'
      unfold HasTask
      rw [htasks, hrows]
      split
      · nofun
      · rename_i hne
        exact absurd rfl hne
    · rw [htasks, hrows]
      split
      · nofun
      · exact hid

/-- The selection loop enqueues the migrations of the candidates that it takes. -/
theorem enqueueReported_ok (hs : Bijection s) {maxObjects maxBytes used selected enqueued : Int}
    {budget : Bool} {cs acc : List TieringCandidate} {r : Int × List TieringCandidate}
    (h : atomically (enqueueReported clock now maxObjects maxBytes budget cs used selected enqueued
      acc) s = (.ok r, s')) :
    r.2 = acc ++ chosen maxObjects maxBytes budget cs used selected ∧
      Migrated (chosen maxObjects maxBytes budget cs used selected) s s' := by
  induction cs generalizing used selected enqueued acc s with
  | nil =>
    cases h
    exact ⟨(List.append_nil _).symm, migrated_nil _⟩
  | cons c rest ih =>
    unfold enqueueReported at h
    unfold chosen
    dsimp only at h ⊢
    by_cases hfull : selected ≥ maxObjects
    · rw [if_pos hfull] at h ⊢
      cases h
      exact ⟨(List.append_nil _).symm, migrated_nil _⟩
    · rw [if_neg hfull] at h ⊢
      by_cases hover : (budget ∧ maxBytes > 0 ∧ c.sizeBytes > 0) ∧
          wrap64 (used + c.sizeBytes) > maxBytes
      · rw [if_pos hover] at h ⊢
        exact ih hs h
      · rw [if_neg hover] at h ⊢
        obtain ⟨n, s₁, hfirst, h⟩ := run_bind_eq_ok h
        have hmigrated := enqueueMigration_ok hs hfirst
        obtain ⟨hr, hrest⟩ := ih (hmigrated.cleared.bijection hs) h
        refine ⟨?_, hmigrated.trans hrest⟩
        rw [hr, List.append_assoc, List.singleton_append]

end Migrations

/-! ## Budgets -/

/-- The size of the version at a key. -/
def sizeAt (s : Store) (k : GoString) : Int :=
  (((s.get? k).bind Value.asObjectVersion).map (·.sizeBytes)).getD 0

/-- The sizes are lengths, and their sum is an int64. -/
structure Sized (s : Store) : Prop where
  length : ∀ {k ver}, s.get? k = some (.objectVersion ver) → 0 ≤ ver.sizeBytes
  fits : (s.entries.map fun e => sizeAt s e.1).sum < 2 ^ 63

/-- What a pass has to keep to. -/
structure Budgeted (now before : Time) (maxObjects maxBytes : Int) (budget : Bool) (s s' : Store)
    (r : PassReport) : Prop where
  once : (r.examined.map (·.key)).Nodup
  listed : ∀ due ∈ r.examined, s.get? due.key = some (.tierDue due.record) ∧ Ready now due
  distinct : (r.selected.map (·.dueKey)).Nodup
  count : (r.selected.length : Int) ≤ maxObjects
  bytes : budget = true → 0 < maxBytes → (r.selected.map (·.sizeBytes)).sum ≤ maxBytes
  eligible : ∀ c ∈ r.selected, ∃ due ∈ r.examined, ∃ obj ver, Eligible s before due obj ver ∧
    c = ⟨due.record.objectID, due.record.version, due.key, ver.sizeBytes, obj.updatedAt⟩
  migrating : ∀ c ∈ r.selected, HasTask s' c.objectID c.version ∧
    ∀ k, DueKeyOf c.objectID c.version k → s'.get? k = none
  left : ∀ due ∈ r.examined, ∀ obj ver, Eligible s before due obj ver →
    due.key ∉ r.selected.map (·.dueKey) → s'.get? due.key = s.get? due.key ∧
      s'.get? (tiKVTierDueRefKey due.record.objectID due.record.version) =
        s.get? (tiKVTierDueRefKey due.record.objectID due.record.version)
  oldest : budget = false → ∀ due ∈ r.examined,
    due.record.objectID ≠ [] ∧ 0 < due.record.version → ∀ obj ver, Eligible s before due obj ver →
      due.key ∉ r.selected.map (·.dueKey) →
        (r.selected.length : Int) = maxObjects ∧ ∀ c ∈ r.selected, c.updatedAt ≤ obj.updatedAt

section Order

/-- The order of selection as an order of triples. -/
def rank (c : TieringCandidate) : Int ×ₗ Int ×ₗ GoString :=
  toLex (c.updatedAt, toLex (-c.sizeBytes, c.objectID))

theorem candidateBefore_iff (a b : TieringCandidate) : candidateBefore a b ↔ rank a ≤ rank b := by
  unfold candidateBefore rank
  rw [Prod.Lex.le_iff, Prod.Lex.le_iff]
  refine or_congr Iff.rfl (and_congr Iff.rfl (or_congr ?_ (and_congr ?_ not_lt)))
  · exact neg_lt_neg_iff.symm
  · exact neg_inj.symm

theorem pairwise_candidates (cs : List TieringCandidate) :
    (cs.insertionSort candidateBefore).Pairwise candidateBefore := by
  have : Std.Total candidateBefore :=
    ⟨fun a b => by simpa only [candidateBefore_iff] using le_total (rank a) (rank b)⟩
  have : IsTrans TieringCandidate candidateBefore :=
    ⟨fun a b c => by simpa only [candidateBefore_iff] using le_trans⟩
  exact List.pairwise_insertionSort _ _

theorem updatedAt_le_of_before {a b : TieringCandidate} (h : candidateBefore a b) :
    a.updatedAt ≤ b.updatedAt := h.elim le_of_lt fun h => h.1.le

end Order

section Pass

variable {s s₁ s' : Store} {now before : Time} {cursor : GoString}
  {examined : List TierDueCandidate} {cs : List TieringCandidate}

/-- The sizes of the candidates fit together. -/
theorem gathered_sum_le (hs : Bijection s) (hsize : Sized s)
    (hg : Gathered now before s s₁ cursor examined cs) :
    (∀ c ∈ cs, 0 ≤ c.sizeBytes) ∧ (cs.map (·.sizeBytes)).sum < 2 ^ 63 := by
  have hsizeAt : ∀ c ∈ cs, ∃ ver, s.get? (tiKVObjectVersionKey c.objectID c.version) =
      some (.objectVersion ver) ∧ c.sizeBytes = ver.sizeBytes := by
    intro c hc
    rw [hg.found] at hc
    obtain ⟨due, -, hdue⟩ := List.mem_filterMap.mp hc
    obtain ⟨-, obj, ver, helig, rfl⟩ := candidateAt_eq_some.mp hdue
    obtain ⟨x, hx, hver⟩ := Option.bind_eq_some_iff.mp helig.version
    rw [Value.asObjectVersion_eq_some] at hver
    exact ⟨ver, hx.trans (congrArg some hver), rfl⟩
  have hnonneg : ∀ k, 0 ≤ sizeAt s k := by
    intro k
    unfold sizeAt
    cases hver : (s.get? k).bind Value.asObjectVersion with
    | none => exact le_rfl
    | some ver =>
      obtain ⟨x, hx, hver⟩ := Option.bind_eq_some_iff.mp hver
      rw [Value.asObjectVersion_eq_some] at hver
      exact hsize.length (hx.trans (congrArg some hver))
  have hkeys : (cs.map fun c => tiKVObjectVersionKey c.objectID c.version).Nodup := by
    rw [hg.found, List.Nodup, List.pairwise_map, List.pairwise_filterMap]
    refine (List.pairwise_map.mp (hg.versions hs)).imp fun {a b} hne c hc c' hc' heq => hne ?_
    obtain ⟨-, obj, ver, -, rfl⟩ := candidateAt_eq_some.mp hc
    obtain ⟨-, obj', ver', -, rfl⟩ := candidateAt_eq_some.mp hc'
    obtain ⟨ho, hv⟩ := tiKVObjectVersionKey_inj.mp heq
    exact Prod.ext ho hv
  have hsub : (cs.map fun c => tiKVObjectVersionKey c.objectID c.version) ⊆
      s.entries.map Prod.fst := by
    intro k hk
    obtain ⟨c, hc, rfl⟩ := List.mem_map.mp hk
    obtain ⟨ver, hver, -⟩ := hsizeAt c hc
    exact List.mem_map.mpr ⟨_, SortedMap.mem_entries.mpr hver, rfl⟩
  refine ⟨fun c hc => ?_, ?_⟩
  · obtain ⟨ver, hver, heq⟩ := hsizeAt c hc
    rw [heq]
    exact hsize.length hver
  · obtain ⟨l, hperm, hl⟩ := List.subperm_of_subset hkeys hsub
    have hsum : (cs.map (·.sizeBytes)).sum = (l.map (sizeAt s)).sum := by
      rw [(hperm.map (sizeAt s)).sum_eq, List.map_map]
      refine congrArg List.sum (List.map_congr_left fun c hc => ?_)
      obtain ⟨ver, hver, heq⟩ := hsizeAt c hc
      simp only [Function.comp_apply, sizeAt, hver, heq, Option.bind_some,
        Value.asObjectVersion_eq_some.mpr rfl, Option.map_some, Option.getD_some]
    have hle : (l.map (sizeAt s)).sum ≤ ((s.entries.map Prod.fst).map (sizeAt s)).sum := by
      refine (hl.map (sizeAt s)).sum_le_sum fun x hx => ?_
      obtain ⟨k, -, rfl⟩ := List.mem_map.mp hx
      exact hnonneg k
    rw [hsum]
    refine lt_of_le_of_lt hle ?_
    rw [List.map_map]
    exact hsize.fits

/-- The candidates in the order of selection, cut off where only their number counts. -/
def ranked (maxObjects : Int) (budget : Bool) (cs : List TieringCandidate) :
    List TieringCandidate :=
  if budget = false then (cs.insertionSort candidateBefore).take maxObjects.toNat
  else cs.insertionSort candidateBefore

theorem ranked_sublist (maxObjects : Int) (budget : Bool) (cs : List TieringCandidate) :
    (ranked maxObjects budget cs).Sublist (cs.insertionSort candidateBefore) := by
  unfold ranked
  split
  · exact List.take_sublist _ _
  · exact List.Sublist.refl _

/-- A walk and a selection from its candidates keep to the budgets. -/
theorem gathered_budgeted (hs : Bijection s) (hsize : Sized s) {maxObjects maxBytes : Int}
    (hmax : 0 ≤ maxObjects) {budget : Bool} (hg : Gathered now before s s₁ cursor examined cs)
    (hm : Migrated (chosen maxObjects maxBytes budget (ranked maxObjects budget cs) 0 0) s₁ s')
    (n : Int) : Budgeted now before maxObjects maxBytes budget s s'
      ⟨n, examined, chosen maxObjects maxBytes budget (ranked maxObjects budget cs) 0 0⟩ := by
  have hsub : (chosen maxObjects maxBytes budget (ranked maxObjects budget cs) 0 0).Sublist
      (cs.insertionSort candidateBefore) := chosen_sublist.trans (ranked_sublist _ _ _)
  have hperm := List.perm_insertionSort candidateBefore cs
  have hmem : ∀ {c}, c ∈ chosen maxObjects maxBytes budget (ranked maxObjects budget cs) 0 0 →
      c ∈ cs := fun hc => hperm.mem_iff.mp (hsub.subset hc)
  obtain ⟨gone, hcleared, hgone⟩ := hg.removed
  have hall := hcleared.trans hm.cleared
  refine ⟨?_, fun due hdue => ?_, ?_, ?_, ?_, fun c hc => ?_,
    fun c hc => ⟨hm.tasks c hc, ?_⟩, ?_, ?_⟩
  · rw [List.Nodup, List.pairwise_map]
    exact hg.ordered.imp fun hlt => ne_of_lt hlt
  · exact ⟨(hg.listed due hdue).1, (hg.listed due hdue).2.2⟩
  · exact ((hperm.map _).nodup_iff.mpr hg.dueKeys_nodup).sublist (hsub.map _)
  · have := @length_chosen maxObjects maxBytes 0 0 budget (ranked maxObjects budget cs) hmax
    simpa using this
  · rintro rfl hpos
    obtain ⟨hsizes, hsum⟩ := gathered_sum_le hs hsize hg
    have hle := @bytes_chosen maxObjects maxBytes 0 0 (cs.insertionSort candidateBefore) hpos
      (fun c hc => hsizes c (hperm.mem_iff.mp hc)) le_rfl hpos.le
      (by rw [zero_add, (hperm.map _).sum_eq]; exact hsum)
    simpa [ranked] using hle
  · obtain ⟨due, hdue, -, obj, ver, helig, hc⟩ := hg.mem_candidates.mp (hmem hc)
    exact ⟨due, hdue, obj, ver, helig, hc⟩
  · exact fun k hk => hm.cleared.removed ⟨_, List.mem_map_of_mem hc, hk⟩
  · -- the pair of an eligible entry is not among the removed ones
    intro due hdue obj ver helig hnot
    have hkey := hg.dueKeyOf hs hdue
    have hstay : ∀ {k}, DueKeyOf due.record.objectID due.record.version k →
        s'.get? k = s.get? k := by
      intro k hk
      refine hall.kept hk.family.symm ((gone_of_version hk).not.mpr fun hmem' => ?_)
      rcases List.mem_append.mp hmem' with hmem' | hmem'
      · obtain ⟨due', hdue', hp, hno⟩ := hgone _ hmem'
        obtain rfl := List.inj_on_of_nodup_map (hg.versions hs) hdue hdue' hp
        exact hno obj ver helig
      · obtain ⟨c, hc, hp⟩ := List.mem_map.mp hmem'
        obtain ⟨due', hdue', -, obj', ver', -, rfl⟩ := hg.mem_candidates.mp (hmem hc)
        obtain rfl := List.inj_on_of_nodup_map (hg.versions hs) hdue' hdue hp
        exact hnot (List.mem_map_of_mem hc)
    exact ⟨hstay hkey, hstay (Or.inl rfl)⟩
  · rintro rfl due hdue hvalid obj ver helig hnot
    have htake : chosen maxObjects maxBytes false (ranked maxObjects false cs) 0 0 =
        (cs.insertionSort candidateBefore).take maxObjects.toNat := by
      rw [chosen_eq_take, sub_zero, ranked, if_pos rfl, List.take_take, min_self]
    have hc' := hperm.mem_iff.mpr (hg.mem_candidates.mpr ⟨due, hdue, hvalid, obj, ver, helig, rfl⟩)
    rw [htake] at hnot ⊢
    rw [← List.take_append_drop maxObjects.toNat (cs.insertionSort candidateBefore)] at hc'
    have hdrop := (List.mem_append.mp hc').resolve_left fun hc =>
      hnot (List.mem_map_of_mem hc)
    have hsorted := pairwise_candidates cs
    rw [← List.take_append_drop maxObjects.toNat (cs.insertionSort candidateBefore)] at hsorted
    refine ⟨?_, fun c hc => ?_⟩
    · have hlength := List.length_pos_of_mem hdrop
      rw [List.length_drop] at hlength
      rw [List.length_take]
      omega
    · exact updatedAt_le_of_before ((List.pairwise_append.mp hsorted).2.2 c hc _ hdrop)

end Pass

theorem pairedStore_sized : Sized pairedStore where
  length := by
    have hall : ∀ e ∈ pairedStore.entries,
        e.2.asObjectVersion.all (fun ver => 0 ≤ ver.sizeBytes) = true := by decide +kernel
    intro k ver hget
    exact of_decide_eq_true (hall _ (SortedMap.mem_entries.mpr hget))
  fits := by decide +kernel

end TieredStore.Meta.TieringBudget
