import TieredStore.Meta.DuePairs
import TieredStore.Meta.Reads

/-!
# A tiering pass and its walk over the due index

A tiering pass first walks over the ready entries of the due index, in several windows, and then
enqueues a migration for some of the candidates it has found. `tieringPass` is the pass with a
report of the entries it has examined and of the candidates it has selected; without the report it
is the pass of the source (`tieringPass_enqueued`).

The walk only removes due pairs of versions that are no candidates (`Gathered`), so what it sees of
a version is what the store held at the start, and no entry is in two windows.
-/

namespace TieredStore.Meta.TieringPass

open Lib Lib.Prog TaskCoherence TaskMoves Tracking DuePairs

/-! ## The pass with a report -/

/-- `gatherCandidates`, which also lists the entries that it has examined. -/
def gatherExamined (cfg : Config) (now eligibleBefore : Time) (maxObjects adaptiveMax : Int)
    (applyByteBudget : Bool) :
    Nat → Int → GoString → List TierDueCandidate → List TieringCandidate →
      KV (List TierDueCandidate × List TieringCandidate)
  | 0, _, _, examined, candidates => pure (examined, candidates)
  | rounds + 1, scanLimit, cursor, examined, candidates => do
    let w ← listTieringDueCandidatesReadyWindow cfg now scanLimit cursor
    if w.candidates = [] then pure (examined, candidates)
    else
      let found ← windowCandidates eligibleBefore w.candidates
      let examined := examined ++ w.candidates
      let candidates := candidates ++ found
      if applyByteBudget = false ∧ (candidates.length : Int) ≥ maxObjects then
        pure (examined, candidates)
      else if w.hasMoreReady = false ∨ w.lastKey = cursor then pure (examined, candidates)
      else
        gatherExamined cfg now eligibleBefore maxObjects adaptiveMax applyByteBudget rounds
          (growLimit scanLimit adaptiveMax) w.lastKey examined candidates

/-- `enqueueSelected`, which also lists the candidates that it has selected. -/
def enqueueReported (clock now : Time) (maxObjects maxBytes : Int) (applyByteBudget : Bool) :
    List TieringCandidate → Int → Int → Int → List TieringCandidate →
      KV (Int × List TieringCandidate)
  | [], _, _, enqueued, chosen => pure (enqueued, chosen)
  | c :: rest, usedBytes, selected, enqueued, chosen =>
    if selected ≥ maxObjects then pure (enqueued, chosen)
    else
      let budget := applyByteBudget ∧ maxBytes > 0 ∧ c.sizeBytes > 0
      if budget ∧ wrap64 (usedBytes + c.sizeBytes) > maxBytes then
        enqueueReported clock now maxObjects maxBytes applyByteBudget rest usedBytes selected
          enqueued chosen
      else do
        let usedBytes := if budget then wrap64 (usedBytes + c.sizeBytes) else usedBytes
        let n ← enqueueMigration clock now c
        enqueueReported clock now maxObjects maxBytes applyByteBudget rest usedBytes (selected + 1)
          (enqueued + n) (chosen ++ [c])

/-- What a pass has done. -/
structure PassReport where
  enqueued : Int
  examined : List TierDueCandidate
  selected : List TieringCandidate

/-- `enqueueTieringCandidates` with a report. -/
def tieringPass (cfg : Config) (clock now : Time) (ageThresholdSec maxObjects maxBytes : Int)
    (applyByteBudget : Bool) : KV PassReport := do
  let ageThresholdSec := if ageThresholdSec < 0 then 0 else ageThresholdSec
  let maxObjects := if maxObjects ≤ 0 then 200 else maxObjects
  let eligibleBefore := now + wrap64 (-(Time.seconds ageThresholdSec))
  let plan := resolveTieringDueScanPlan cfg
  let gathered ← gatherExamined cfg now eligibleBefore maxObjects plan.adaptiveMax
    applyByteBudget plan.burstRounds.toNat plan.baseScan [] [] []
  let candidates := gathered.2.insertionSort candidateBefore
  let candidates := if applyByteBudget = false then candidates.take maxObjects.toNat else candidates
  let r ← enqueueReported clock now maxObjects maxBytes applyByteBudget candidates 0 0 0 []
  pure ⟨r.1, gathered.1, r.2⟩

section Report

variable {cfg : Config} {clock now before : Time} {maxObjects maxBytes adaptiveMax : Int}
  {budget : Bool}

theorem gatherExamined_snd {β : Type} (rounds : Nat) (limit : Int) (cursor : GoString)
    (examined : List TierDueCandidate) (cs : List TieringCandidate)
    (f : List TieringCandidate → KV β) :
    (gatherExamined cfg now before maxObjects adaptiveMax budget rounds limit cursor examined cs
      >>= fun g => f g.2) =
    gatherCandidates cfg now before maxObjects adaptiveMax budget rounds limit cursor cs >>= f := by
  induction rounds generalizing limit cursor examined cs with
  | zero => rfl
  | succ rounds ih =>
    unfold gatherExamined gatherCandidates
    simp only [bind_assoc]
    refine bind_congr fun w => ?_
    by_cases hw : w.candidates = []
    · simp only [if_pos hw, pure_bind]
    · simp only [if_neg hw, bind_assoc]
      refine bind_congr fun found => ?_
      split_ifs
      · simp only [pure_bind]
      · simp only [pure_bind]
      · exact ih _ _ _ _

theorem enqueueReported_fst (cs : List TieringCandidate) (used selected enqueued : Int)
    (acc : List TieringCandidate) :
    (enqueueReported clock now maxObjects maxBytes budget cs used selected enqueued acc
      >>= fun r => pure r.1) =
    enqueueSelected clock now maxObjects maxBytes budget cs used selected enqueued := by
  induction cs generalizing used selected enqueued acc with
  | nil => rfl
  | cons c rest ih =>
    unfold enqueueReported enqueueSelected
    dsimp only
    split_ifs
    · simp only [pure_bind]
    · exact ih _ _ _ _
    · rw [bind_assoc]
      exact bind_congr fun n => ih _ _ _ _
    · rw [bind_assoc]
      exact bind_congr fun n => ih _ _ _ _

/-- Without the report the pass is the one of the source. -/
theorem tieringPass_enqueued (cfg : Config) (clock now : Time) (age maxObjects maxBytes : Int)
    (budget : Bool) :
    (do let r ← tieringPass cfg clock now age maxObjects maxBytes budget
        pure r.enqueued) =
      enqueueTieringCandidates cfg clock now age maxObjects maxBytes budget := by
  unfold tieringPass enqueueTieringCandidates
  simp only [bind_assoc, pure_bind]
  rw [← gatherExamined_snd]
  exact bind_congr fun g => enqueueReported_fst _ _ _ _ _

end Report

/-! ## Removed pairs -/

/-- A key of the due index or of its references. -/
def DueFamily (k : GoString) : Prop := keyFamily k = lit "tdue" ∨ keyFamily k = lit "tdue_ref"

/-- A due key of one of the versions. -/
def Gone (gone : List (GoString × Int)) (k : GoString) : Prop := ∃ p ∈ gone, DueKeyOf p.1 p.2 k

/-- The due pairs of some versions are removed, and the rest of the due index is as before. -/
structure Cleared (gone : List (GoString × Int)) (s s' : Store) : Prop where
  removed : ∀ {k}, Gone gone k → s'.get? k = none
  kept : ∀ {k}, DueFamily k → ¬ Gone gone k → s'.get? k = s.get? k

/-- The stores agree outside the due index. -/
def SameRows (s s' : Store) : Prop := ∀ {k}, ¬ DueFamily k → s'.get? k = s.get? k

section Removal

variable {s s₁ s' : Store} {gone gone' : List (GoString × Int)} {o k : GoString} {v : Int}

theorem Gone.dueFamily (h : Gone gone k) : DueFamily k := by
  obtain ⟨p, -, hk⟩ := h
  exact hk.family.symm

theorem gone_append : Gone (gone ++ gone') k ↔ Gone gone k ∨ Gone gone' k := by
  simp only [Gone, List.mem_append, or_and_right, exists_or]

/-- The two due keys of a version are removed together. -/
theorem gone_of_version (h : DueKeyOf o v k) : Gone gone k ↔ (o, v) ∈ gone := by
  constructor
  · rintro ⟨⟨o', v'⟩, hp, hk⟩
    obtain ⟨rfl, rfl⟩ := h.inj hk
    exact hp
  · exact fun hp => ⟨_, hp, h⟩

theorem cleared_same (h : ∀ {k}, DueFamily k → s'.get? k = s.get? k) : Cleared [] s s' where
  removed := fun ⟨_, hp, _⟩ => by cases hp
  kept := fun hk _ => h hk

theorem Cleared.trans (h : Cleared gone s s₁) (h' : Cleared gone' s₁ s') :
    Cleared (gone ++ gone') s s' where
  removed := by
    intro k hk
    by_cases hk' : Gone gone' k
    · exact h'.removed hk'
    · rw [h'.kept hk.dueFamily hk']
      exact h.removed ((gone_append.mp hk).resolve_right hk')
  kept := by
    intro k hfam hk
    rw [gone_append, not_or] at hk
    exact (h'.kept hfam hk.2).trans (h.kept hfam hk.1)

/-- What is left of the due index was there before. -/
theorem Cleared.get (h : Cleared gone s s') (hk : DueFamily k) {x : Value}
    (hget : s'.get? k = some x) : s.get? k = some x ∧ ¬ Gone gone k := by
  have hno : ¬ Gone gone k := fun hgone => by
    rw [h.removed hgone] at hget
    cases hget
  exact ⟨(h.kept hk hno).symm.trans hget, hno⟩

theorem dueFamily_of_due (h : tiKVTierDuePrefix <+: k) : DueFamily k :=
  Or.inl (keyFamily_eq (by decide) h)

theorem prefix_dueKey (t : Time) (o : GoString) (v : Int) :
    tiKVTierDuePrefix <+: tiKVTierDueKey t o v := by
  unfold tiKVTierDueKey tiKVTierDuePrefix
  simp only [List.append_assoc]
  exact List.prefix_append _ _

theorem prefix_dueRefKey (o : GoString) (v : Int) :
    tiKVPrefixTierRef <+: tiKVTierDueRefKey o v := by
  unfold tiKVTierDueRefKey
  simp only [List.append_assoc]
  exact List.prefix_append _ _

/-- Pairs that are left lead to each other. -/
theorem Cleared.bijection (hs : Bijection s) (h : Cleared gone s s') : Bijection s' where
  entry := by
    intro k x hget hpre
    obtain ⟨hget, hno⟩ := h.get (dueFamily_of_due hpre) hget
    obtain ⟨due, ref, hx, hk, href, hkey⟩ := hs.entry k x hget hpre
    have hversion : (due.objectID, due.version) ∉ gone :=
      (gone_of_version (Or.inr ⟨_, hk⟩)).not.mp hno
    refine ⟨due, ref, hx, hk, ?_, hkey⟩
    rw [h.kept (Or.inr (keyFamily_tierDueRef _ _))
      ((gone_of_version (Or.inl rfl)).not.mpr hversion)]
    exact href
  reference := by
    intro k x hget hpre
    have hfam : DueFamily k := Or.inr (keyFamily_eq (by decide) hpre)
    obtain ⟨hget, hno⟩ := h.get hfam hget
    obtain ⟨ref, due, hx, hk, hdue, hkey, hrest⟩ := hs.reference k x hget hpre
    have hversion : (ref.objectID, ref.version) ∉ gone :=
      (gone_of_version (Or.inl hk)).not.mp hno
    refine ⟨ref, due, hx, hk, ?_, hkey, hrest⟩
    rw [h.kept (by rw [hkey]; exact Or.inl (keyFamily_tierDue _ _ _))
      ((gone_of_version (Or.inr ⟨_, hkey⟩)).not.mpr hversion)]
    exact hdue
  unique := by
    intro t t' o v x x' hget hget'
    exact hs.unique t t' o v x x' (h.get (dueFamily_of_due (prefix_dueKey _ _ _)) hget).1
      (h.get (dueFamily_of_due (prefix_dueKey _ _ _)) hget').1

theorem reference_read (hs : Bijection s) (o : GoString) (v : Int) :
    ∃ ref, s.get? (tiKVTierDueRefKey o v) = Option.map Value.tierDueRef ref ∧
      ∀ r ∈ ref, ∃ t, r.dueKey = tiKVTierDueKey t o v := by
  cases hget : s.get? (tiKVTierDueRefKey o v) with
  | none => exact ⟨none, rfl, nofun⟩
  | some x =>
    obtain ⟨ref, -, rfl, hk, -, hkey, -⟩ := hs.reference _ x hget (prefix_dueRefKey o v)
    obtain ⟨rfl, rfl⟩ := tiKVTierDueRefKey_inj.mp hk
    refine ⟨some ref, rfl, ?_⟩
    rintro r ⟨⟩
    exact ⟨_, hkey⟩

/-- The removal of a version's pair, run alone. -/
theorem atomically_removeDue (hs : Bijection s) (o : GoString) (v : Int) :
    ∃ s', atomically (removeTieringDueIndexByVersion o v) s = (.ok (), s') ∧
      Cleared [(o, v)] s s' ∧ SameRows s s' := by
  obtain ⟨ref, href, hkeys⟩ := reference_read hs o v
  have hgone : ∀ {k}, Gone [(o, v)] k ↔ DueKeyOf o v k := by simp [Gone]
  have hwrites : ∀ w ∈ dueRemoval o v ref, w.value = none ∧ DueKeyOf o v w.key := by
    intro w hw
    rcases mem_dueRemoval hw with ⟨r, hr, rfl⟩ | rfl
    · exact ⟨rfl, Or.inr (hkeys r hr)⟩
    · exact ⟨rfl, Or.inl rfl⟩
  have hother : ∀ {k}, ¬ DueKeyOf o v k → (s.applyAll (dueRemoval o v ref)).get? k = s.get? k :=
    fun hk => get_dueBatch (fun w hw => (hwrites w hw).2) hk
  refine ⟨s.applyAll (dueRemoval o v ref), ?_, ⟨fun {k} hk => ?_, fun {k} _ hk => ?_⟩,
    fun {k} hk => hother fun hk' => hk hk'.family.symm⟩
  · unfold removeTieringDueIndexByVersion removeTieringDueIndexByVersionInBatch
    rw [bind_assoc, atomically_getJSON href fun _ => rfl]
    exact atomically_commit _ s
  · classical
    rw [SortedMap.get?_applyAll_deletes fun w hw => (hwrites w hw).1]
    split
    · rfl
    · rename_i hno
      rcases hgone.mp hk with rfl | ⟨t, rfl⟩
      · exact absurd ⟨Write.del (tiKVTierDueRefKey o v), by simp [dueRemoval], rfl⟩ hno
      · -- an entry of the version would be the one that its reference names
        cases hget : s.get? (tiKVTierDueKey t o v) with
        | none => rfl
        | some x =>
          obtain ⟨due, r, -, hk', hr, hkey⟩ := hs.entry _ x hget (prefix_dueKey t o v)
          obtain ⟨-, ho, hv⟩ := tiKVTierDueKey_inj.mp hk'
          rw [← ho, ← hv, href] at hr
          obtain ⟨r', rfl, hr'⟩ := Option.map_eq_some_iff.mp hr
          cases hr'
          have hne : r.dueKey ≠ [] := by
            rw [hkey]
            simp [tiKVTierDueKey, tiKVPrefixTierDue, lit]
          exact absurd ⟨Write.del r.dueKey, by simp [dueRemoval, hne], hkey⟩ hno
  · exact hother (hgone.not.mp hk)

end Removal

/-! ## The walk -/

/-- The row of an object. -/
def headRow (s : Store) (o : GoString) : Option ObjectRecord :=
  (s.get? (tiKVObjectKey o)).bind Value.asObject

/-- The row of a version. -/
def versionRow (s : Store) (o : GoString) (v : Int) : Option ObjectVersionRecord :=
  (s.get? (tiKVObjectVersionKey o v)).bind Value.asObjectVersion

/-- The entry names the current version of an object that waits for its migration: the version is
in tier HOT and old enough. -/
structure Eligible (s : Store) (before : Time) (due : TierDueCandidate) (obj : ObjectRecord)
    (ver : ObjectVersionRecord) : Prop where
  head : headRow s due.record.objectID = some obj
  current : obj.currentVersion = due.record.version
  waiting : Waiting obj
  aged : obj.updatedAt ≤ before
  version : versionRow s due.record.objectID due.record.version = some ver
  hot : ver.tier = .hot

/-- The candidate of a due entry in a store. -/
def candidateAt (s : Store) (before : Time) (due : TierDueCandidate) : Option TieringCandidate :=
  if due.record.objectID = [] ∨ due.record.version ≤ 0 then none
  else
    (headRow s due.record.objectID).bind fun obj =>
      (versionRow s due.record.objectID due.record.version).bind fun ver =>
        if obj.currentVersion = due.record.version ∧
          (obj.state = .hotActive ∨ obj.state = .migrationPending) ∧ obj.updatedAt ≤ before ∧
          ver.tier = .hot
        then some ⟨due.record.objectID, due.record.version, due.key, ver.sizeBytes, obj.updatedAt⟩
        else none

section Walk

variable {β : Type} {s s₁ s' : Store} {now before : Time} {due : TierDueCandidate}

theorem atomically_getJSON_ok {α : Type} {decode : Value → Option α} {k : GoString}
    {f : Option α → KV β} {b : β} (h : atomically (getJSON decode k >>= f) s = (.ok b, s')) :
    atomically (f ((s.get? k).bind decode)) s = (.ok b, s') := by
  rw [getJSON_eq] at h
  change atomically (decodeRow decode k (s.get? k) >>= f) s = _ at h
  cases hget : s.get? k with
  | none =>
    rw [hget] at h
    exact h
  | some x =>
    rw [hget] at h
    cases hdec : decode x with
    | none =>
      simp only [decodeRow, hdec] at h
      cases h
    | some a =>
      simp only [decodeRow, hdec] at h
      rw [Option.bind_some, hdec]
      exact h

theorem SameRows.candidateAt (h : SameRows s s') (before : Time) (due : TierDueCandidate) :
    candidateAt s' before due = candidateAt s before due := by
  have hhead : headRow s' due.record.objectID = headRow s due.record.objectID := by
    unfold headRow
    rw [h (by unfold DueFamily; rw [keyFamily_object]; decide)]
  have hversion : versionRow s' due.record.objectID due.record.version =
      versionRow s due.record.objectID due.record.version := by
    unfold versionRow
    rw [h (by unfold DueFamily; rw [keyFamily_objectVersion]; decide)]
  unfold TieringPass.candidateAt
  rw [hhead, hversion]

theorem dropDueEntry_ok (hs : Bijection s) {o : GoString} {v : Int}
    {r : Option TieringCandidate} (h : atomically (dropDueEntry o v) s = (.ok r, s')) :
    r = none ∧ Cleared [(o, v)] s s' ∧ SameRows s s' := by
  obtain ⟨s₁, hrun, hcleared, hsame⟩ := atomically_removeDue hs o v
  unfold dropDueEntry at h
  rw [atomically_attempt hrun] at h
  cases h
  exact ⟨rfl, hcleared, hsame⟩

theorem candidateAt_eq_some {c : TieringCandidate} : candidateAt s before due = some c ↔
    (due.record.objectID ≠ [] ∧ 0 < due.record.version) ∧ ∃ obj ver, Eligible s before due obj ver ∧
      c = ⟨due.record.objectID, due.record.version, due.key, ver.sizeBytes, obj.updatedAt⟩ := by
  unfold candidateAt
  by_cases hinvalid : due.record.objectID = [] ∨ due.record.version ≤ 0
  · rw [if_pos hinvalid]
    constructor
    · nofun
    · rintro ⟨⟨ho, hv⟩, -⟩
      exact absurd hinvalid (not_or.mpr ⟨ho, not_le.mpr hv⟩)
  · rw [if_neg hinvalid]
    simp only [Option.bind_eq_some_iff, Option.ite_none_right_eq_some, Option.some.injEq]
    rw [not_or, not_le] at hinvalid
    constructor
    · rintro ⟨obj, hobj, ver, hver, ⟨hcurrent, hwait, haged, hhot⟩, rfl⟩
      exact ⟨hinvalid, obj, ver, ⟨hobj, hcurrent, hwait, haged, hver, hhot⟩, rfl⟩
    · rintro ⟨-, obj, ver, h, rfl⟩
      exact ⟨obj, h.head, ver, h.version, ⟨h.current, h.waiting, h.aged, h.hot⟩, rfl⟩

/-- The verdict on an entry is its candidate, and the pair of an eligible entry stays. -/
theorem tieringCandidate_ok (hs : Bijection s) {r : Option TieringCandidate}
    (h : atomically (tieringCandidate before due) s = (.ok r, s')) :
    r = candidateAt s before due ∧ ∃ gone, Cleared gone s s' ∧ SameRows s s' ∧
      ∀ p ∈ gone, p = (due.record.objectID, due.record.version) ∧
        ∀ obj ver, ¬ Eligible s before due obj ver := by
  have hstay : r = candidateAt s before due → s' = s → r = candidateAt s before due ∧
      ∃ gone, Cleared gone s s' ∧ SameRows s s' ∧
        ∀ p ∈ gone, p = (due.record.objectID, due.record.version) ∧
          ∀ obj ver, ¬ Eligible s before due obj ver := by
    rintro hr rfl
    exact ⟨hr, [], cleared_same fun _ => rfl, fun _ => rfl, nofun⟩
  -- an entry that is dropped is not eligible
  have hdrop : (∀ obj ver, ¬ Eligible s before due obj ver) →
      atomically (dropDueEntry due.record.objectID due.record.version) s = (.ok r, s') →
      r = candidateAt s before due ∧ ∃ gone, Cleared gone s s' ∧ SameRows s s' ∧
        ∀ p ∈ gone, p = (due.record.objectID, due.record.version) ∧
          ∀ obj ver, ¬ Eligible s before due obj ver := by
    intro hno hrun
    obtain ⟨rfl, hcleared, hsame⟩ := dropDueEntry_ok hs hrun
    refine ⟨?_, [_], hcleared, hsame, fun p hp => ⟨List.mem_singleton.mp hp, hno⟩⟩
    cases hc : candidateAt s before due with
    | none => rfl
    | some c =>
      obtain ⟨-, obj, ver, helig, -⟩ := candidateAt_eq_some.mp hc
      exact absurd helig (hno obj ver)
  unfold tieringCandidate at h
  dsimp only at h
  split_ifs at h with hinvalid
  · cases h
    exact hstay (by rw [candidateAt, if_pos hinvalid]) rfl
  · have h := atomically_getJSON_ok h
    cases hobj : headRow s due.record.objectID with
    | none =>
      rw [headRow] at hobj
      rw [hobj] at h
      refine hdrop (fun obj ver helig => ?_) h
      have := helig.head
      rw [headRow, hobj] at this
      cases this
    | some obj =>
      have hget := hobj
      rw [headRow] at hget
      rw [hget] at h
      dsimp only at h
      have hsame : ∀ {obj' ver}, Eligible s before due obj' ver → obj' = obj := fun helig =>
        Option.some.inj (helig.head.symm.trans hobj)
      split_ifs at h with hcurrent hstate haged
      · exact hdrop (fun obj' ver helig => hcurrent (hsame helig ▸ helig.current)) h
      · refine hdrop (fun obj' ver helig => ?_) h
        rcases hsame helig ▸ helig.waiting with hw | hw
        · exact hstate.1 hw
        · exact hstate.2 hw
      · cases h
        refine hstay ?_ rfl
        cases hc : candidateAt s before due with
        | none => rfl
        | some c =>
          obtain ⟨-, obj', ver, helig, -⟩ := candidateAt_eq_some.mp hc
          exact absurd (hsame helig ▸ helig.aged) (not_le.mpr haged)
      · have h := atomically_getJSON_ok h
        cases hver : versionRow s due.record.objectID due.record.version with
        | none =>
          rw [versionRow] at hver
          rw [hver] at h
          refine hdrop (fun obj' ver helig => ?_) h
          have := helig.version
          rw [versionRow, hver] at this
          cases this
        | some ver =>
          have hget' := hver
          rw [versionRow] at hget'
          rw [hget'] at h
          dsimp only at h
          split_ifs at h with hhot
          · refine hdrop (fun obj' ver' helig => hhot ?_) h
            cases helig.version.symm.trans hver
            exact helig.hot
          · cases h
            refine hstay (candidateAt_eq_some.mpr
              ⟨?_, obj, ver, ⟨hobj, ?_, ?_, ?_, hver, ?_⟩, rfl⟩).symm rfl
            · rw [not_or, not_le] at hinvalid
              exact hinvalid
            · exact not_not.mp hcurrent
            · exact or_iff_not_imp_left.mpr fun hne => not_not.mp fun hne' => hstate ⟨hne, hne'⟩
            · exact not_lt.mp haged
            · exact not_not.mp hhot

theorem Eligible.of_same (h : SameRows s s') {obj : ObjectRecord} {ver : ObjectVersionRecord}
    (helig : Eligible s before due obj ver) : Eligible s' before due obj ver := by
  obtain ⟨hobj, hcurrent, hwait, haged, hver, hhot⟩ := helig
  refine ⟨?_, hcurrent, hwait, haged, ?_, hhot⟩
  · unfold headRow at hobj ⊢
    rw [h (by unfold DueFamily; rw [keyFamily_object]; decide)]
    exact hobj
  · unfold versionRow at hver ⊢
    rw [h (by unfold DueFamily; rw [keyFamily_objectVersion]; decide)]
    exact hver

theorem windowCandidates_ok (hs : Bijection s) {dues : List TierDueCandidate}
    {cs : List TieringCandidate}
    (h : atomically (windowCandidates before dues) s = (.ok cs, s')) :
    cs = dues.filterMap (candidateAt s before) ∧ ∃ gone, Cleared gone s s' ∧ SameRows s s' ∧
      ∀ p ∈ gone, ∃ due ∈ dues, p = (due.record.objectID, due.record.version) ∧
        ∀ obj ver, ¬ Eligible s before due obj ver := by
  induction dues generalizing s cs with
  | nil =>
    cases h
    exact ⟨rfl, [], cleared_same fun _ => rfl, fun _ => rfl, nofun⟩
  | cons due rest ih =>
    obtain ⟨r, s₁, hfirst, h⟩ := run_bind_eq_ok h
    obtain ⟨cs', s₂, hrest, h⟩ := run_bind_eq_ok h
    cases h
    obtain ⟨rfl, gone, hcleared, hsame, hgone⟩ := tieringCandidate_ok hs hfirst
    obtain ⟨rfl, gone', hcleared', hsame', hgone'⟩ := ih (hcleared.bijection hs) hrest
    refine ⟨?_, gone ++ gone', hcleared.trans hcleared', fun hk => (hsame' hk).trans (hsame hk), ?_⟩
    · rw [List.filterMap_cons, show candidateAt s₁ before = candidateAt s before from
        funext (hsame.candidateAt before)]
      cases candidateAt s before due <;> rfl
    · intro p hp
      rcases List.mem_append.mp hp with hp | hp
      · exact ⟨due, List.mem_cons_self, hgone p hp⟩
      · obtain ⟨due', hdue', hp, hno⟩ := hgone' p hp
        exact ⟨due', List.mem_cons_of_mem _ hdue', hp, fun obj ver helig =>
          hno obj ver (helig.of_same hsame)⟩

end Walk

/-! ## Windows -/

/-- An entry whose time has come, by its key and by its record. -/
def Ready (now : Time) (due : TierDueCandidate) : Prop :=
  dueKeyLate now due.key = false ∧ due.record.eligibleAt ≤ now

/-- An entry of the index as the store holds it. -/
def dueEntry (due : TierDueCandidate) : GoString × Value :=
  (due.key, .tierDue due.record)

section Windows

variable {s s' : Store} {now : Time} {cursor : GoString}

/-- A window lists ready entries behind the cursor, in order, up to its last key. -/
theorem scanDueWindow_ok {es : List (GoString × Value)} {room : Nat} {acc w : DueWindow}
    (hsorted : es.Pairwise fun a b => a.1 < b.1) (hne : ∀ e ∈ es, e.1 ≠ [])
    (h : atomically (scanDueWindow now cursor room es acc) s = (.ok w, s')) :
    s' = s ∧ ∃ new : List TierDueCandidate, w.candidates = acc.candidates ++ new ∧
      (new.map dueEntry).Sublist es ∧
      (∀ due ∈ new, Ready now due ∧ cursor < due.key ∧
        (due.key = w.lastKey ∨ due.key < w.lastKey)) ∧
      (w.lastKey = acc.lastKey ∨ ∃ due ∈ new, due.key = w.lastKey) := by
  induction es generalizing room acc with
  | nil =>
    cases h
    exact ⟨rfl, [], (List.append_nil _).symm, List.Sublist.refl _, nofun, Or.inl rfl⟩
  | cons e rest ih =>
    obtain ⟨key, x⟩ := e
    obtain ⟨hfirst, hsorted⟩ := List.pairwise_cons.mp hsorted
    have hne' : ∀ e ∈ rest, e.1 ≠ [] := fun e he => hne e (List.mem_cons_of_mem _ he)
    have hstop : ∀ {w' : DueWindow}, w'.candidates = acc.candidates → w'.lastKey = acc.lastKey →
        atomically (pure w') s = (.ok w, s') →
        s' = s ∧ ∃ new : List TierDueCandidate, w.candidates = acc.candidates ++ new ∧
          (new.map dueEntry).Sublist ((key, x) :: rest) ∧
          (∀ due ∈ new, Ready now due ∧ cursor < due.key ∧
            (due.key = w.lastKey ∨ due.key < w.lastKey)) ∧
          (w.lastKey = acc.lastKey ∨ ∃ due ∈ new, due.key = w.lastKey) := by
      intro w' hc hl hw
      cases hw
      exact ⟨rfl, [], by rw [hc, List.append_nil], List.nil_sublist _, nofun, Or.inl hl⟩
    unfold scanDueWindow at h
    split_ifs at h with hskip hlate
    · obtain ⟨hs', new, hnew, hsub, hrest⟩ := ih hsorted hne' h
      exact ⟨hs', new, hnew, hsub.cons _, hrest⟩
    · exact hstop rfl rfl h
    · cases hrec : x.asTierDue with
      | none =>
        rw [hrec] at h
        cases h
      | some rec =>
        rw [hrec] at h
        dsimp only at h
        split_ifs at h with hfuture
        · exact hstop rfl rfl h
        · cases room with
          | zero => exact @hstop { acc with hasMoreReady := true } rfl rfl h
          | succ room =>
            obtain ⟨hs', new, hnew, hsub, hall, hlast⟩ := ih hsorted hne' h
            rw [Value.asTierDue_eq_some] at hrec
            subst hrec
            have hbehind : cursor < key := by
              by_cases hcursor : cursor = []
              · rw [hcursor]
                obtain ⟨b, bs, hkey⟩ := List.exists_cons_of_ne_nil (hne _ List.mem_cons_self)
                dsimp only at hkey
                rw [hkey]
                exact List.nil_lt_cons b bs
              · exact not_not.mp fun hno => hskip ⟨hcursor, hno⟩
            -- the last key is this one, or a later one of the rest
            have hkey : key = w.lastKey ∨ key < w.lastKey := by
              rcases hlast with hlast | ⟨due, hdue, hlast⟩
              · exact Or.inl hlast.symm
              · refine Or.inr (hlast ▸ hfirst (dueEntry due) ?_)
                exact hsub.subset (List.mem_map_of_mem hdue)
            refine ⟨hs', ⟨key, rec⟩ :: new, ?_, ?_, ?_, ?_⟩
            · rw [hnew, List.append_assoc, List.singleton_append]
            · exact hsub.cons_cons (key, .tierDue rec)
            · refine List.forall_mem_cons.mpr ⟨⟨⟨?_, not_lt.mp hfuture⟩, hbehind, hkey⟩, hall⟩
              exact Bool.eq_false_iff.mpr hlate
            · refine Or.inr ?_
              rcases hlast with hlast | ⟨due, hdue, hlast⟩
              · exact ⟨_, List.mem_cons_self, hlast.symm⟩
              · exact ⟨due, List.mem_cons_of_mem _ hdue, hlast⟩

theorem window_ok {cfg : Config} {limit : Int} {w : DueWindow}
    (h : atomically (listTieringDueCandidatesReadyWindow cfg now limit cursor) s = (.ok w, s')) :
    s' = s ∧ (w.candidates.Pairwise fun a b => a.key < b.key) ∧
      ∀ due ∈ w.candidates, s.get? due.key = some (.tierDue due.record) ∧
        tiKVTierDuePrefix <+: due.key ∧ Ready now due ∧ cursor < due.key ∧
        (due.key = w.lastKey ∨ due.key < w.lastKey) := by
  unfold listTieringDueCandidatesReadyWindow at h
  dsimp only at h
  rw [atomically_iter] at h
  have hsorted := prefixEntries_sorted s tiKVTierDuePrefix
  have hne : ∀ e ∈ prefixEntries s tiKVTierDuePrefix, e.1 ≠ [] := by
    intro e he hnil
    have hpre := (mem_prefixEntries.mp he).2
    rw [hnil, List.prefix_nil] at hpre
    exact absurd hpre (by decide)
  obtain ⟨hs', new, hnew, hsub, hall, -⟩ := scanDueWindow_ok hsorted hne h
  rw [List.nil_append] at hnew
  rw [hnew]
  refine ⟨hs', ?_, fun due hdue => ?_⟩
  · have hmap := hsorted.sublist hsub
    rw [List.pairwise_map] at hmap
    exact hmap
  · obtain ⟨hget, hpre⟩ := mem_prefixEntries.mp (hsub.subset (List.mem_map_of_mem hdue))
    exact ⟨hget, hpre, hall due hdue⟩

/-- What the walk has done when its cursor stands at a key. -/
structure Gathered (now before : Time) (s₀ s : Store) (cursor : GoString)
    (examined : List TierDueCandidate) (cs : List TieringCandidate) : Prop where
  removed : ∃ gone, Cleared gone s₀ s ∧ ∀ p ∈ gone, ∃ due ∈ examined,
    p = (due.record.objectID, due.record.version) ∧ ∀ obj ver, ¬ Eligible s₀ before due obj ver
  same : SameRows s₀ s
  found : cs = examined.filterMap (candidateAt s₀ before)
  listed : ∀ due ∈ examined, s₀.get? due.key = some (.tierDue due.record) ∧
    tiKVTierDuePrefix <+: due.key ∧ Ready now due
  ordered : examined.Pairwise fun a b => a.key < b.key
  behind : ∀ due ∈ examined, due.key = cursor ∨ due.key < cursor

variable {before : Time} {s₀ : Store} {examined : List TierDueCandidate}
  {cs : List TieringCandidate}

theorem gathered_start (s : Store) : Gathered now before s s [] [] [] where
  removed := ⟨[], cleared_same fun _ => rfl, nofun⟩
  same := fun _ => rfl
  found := rfl
  listed := nofun
  ordered := List.Pairwise.nil
  behind := nofun

/-- One more window. -/
theorem Gathered.window (hs₀ : Bijection s₀) (hg : Gathered now before s₀ s cursor examined cs)
    {cfg : Config} {limit : Int} {w : DueWindow} {s₁ : Store} {found : List TieringCandidate}
    (hw : atomically (listTieringDueCandidatesReadyWindow cfg now limit cursor) s = (.ok w, s₁))
    (hnew : w.candidates ≠ [])
    (hfound : atomically (windowCandidates before w.candidates) s₁ = (.ok found, s')) :
    Gathered now before s₀ s' w.lastKey (examined ++ w.candidates) (cs ++ found) := by
  obtain ⟨rfl, hordered, hlisted⟩ := window_ok hw
  obtain ⟨gone, hcleared, hgone⟩ := hg.removed
  obtain ⟨rfl, gone', hcleared', hsame', hgone'⟩ :=
    windowCandidates_ok (hcleared.bijection hs₀) hfound
  refine ⟨⟨gone ++ gone', hcleared.trans hcleared', ?_⟩, fun hk => (hsame' hk).trans (hg.same hk),
    ?_, ?_, ?_, ?_⟩
  · intro p hp
    rcases List.mem_append.mp hp with hp | hp
    · obtain ⟨due, hdue, hrest⟩ := hgone p hp
      exact ⟨due, List.mem_append_left _ hdue, hrest⟩
    · obtain ⟨due, hdue, hp, hno⟩ := hgone' p hp
      exact ⟨due, List.mem_append_right _ hdue, hp, fun obj ver helig =>
        hno obj ver (helig.of_same hg.same)⟩
  · rw [List.filterMap_append, ← hg.found,
      show candidateAt _ before = candidateAt s₀ before from
        funext (SameRows.candidateAt hg.same before)]
  · intro due hdue
    rcases List.mem_append.mp hdue with hdue | hdue
    · exact hg.listed due hdue
    · obtain ⟨hget, hpre, hready, -⟩ := hlisted due hdue
      exact ⟨(hcleared.get (dueFamily_of_due hpre) hget).1, hpre, hready⟩
  · refine List.pairwise_append.mpr ⟨hg.ordered, hordered, fun a ha b hb => ?_⟩
    obtain ⟨-, -, -, hbehind, -⟩ := hlisted b hb
    rcases hg.behind a ha with heq | hlt
    · rw [heq]
      exact hbehind
    · exact lt_trans hlt hbehind
  · intro due hdue
    rcases List.mem_append.mp hdue with hdue | hdue
    · -- the first new key lies between the cursor and the last key
      obtain ⟨first, hfirst⟩ := List.exists_mem_of_ne_nil _ hnew
      obtain ⟨-, -, -, hbehind, hlast⟩ := hlisted first hfirst
      have hcursor : cursor < w.lastKey := by
        rcases hlast with heq | hlt
        · rw [← heq]
          exact hbehind
        · exact lt_trans hbehind hlt
      rcases hg.behind due hdue with heq | hlt
      · rw [heq]
        exact Or.inr hcursor
      · exact Or.inr (lt_trans hlt hcursor)
    · exact (hlisted due hdue).2.2.2.2

/-- The walk over all windows. -/
theorem gatherExamined_ok (hs₀ : Bijection s₀) {cfg : Config} {maxObjects adaptiveMax : Int}
    {budget : Bool} {rounds : Nat} {limit : Int} (hg : Gathered now before s₀ s cursor examined cs)
    {g : List TierDueCandidate × List TieringCandidate}
    (h : atomically (gatherExamined cfg now before maxObjects adaptiveMax budget rounds limit cursor
      examined cs) s = (.ok g, s')) :
    ∃ last, Gathered now before s₀ s' last g.1 g.2 := by
  induction rounds generalizing limit cursor examined cs s with
  | zero =>
    cases h
    exact ⟨cursor, hg⟩
  | succ rounds ih =>
    unfold gatherExamined at h
    obtain ⟨w, s₁, hw, h⟩ := run_bind_eq_ok h
    by_cases hnew : w.candidates = []
    · rw [if_pos hnew] at h
      cases h
      obtain ⟨rfl, -⟩ := window_ok hw
      exact ⟨cursor, hg⟩
    · rw [if_neg hnew] at h
      obtain ⟨found, s₂, hfound, h⟩ := run_bind_eq_ok h
      have hg' := hg.window hs₀ hw hnew hfound
      dsimp only at h
      split_ifs at h
      · cases h
        exact ⟨w.lastKey, hg'⟩
      · cases h
        exact ⟨w.lastKey, hg'⟩
      · exact ih hg' h

end Windows

section Entries

variable {s s₁ : Store} {now before : Time} {cursor : GoString}
  {examined : List TierDueCandidate} {cs : List TieringCandidate}

/-- The key of an entry is that of its version. -/
theorem Gathered.dueKeyOf (hs : Bijection s)
    (hg : Gathered now before s s₁ cursor examined cs) {due : TierDueCandidate}
    (hdue : due ∈ examined) : DueKeyOf due.record.objectID due.record.version due.key := by
  obtain ⟨hget, hpre, -⟩ := hg.listed due hdue
  obtain ⟨rec, -, hrec, hk, -⟩ := hs.entry _ _ hget hpre
  cases hrec
  exact Or.inr ⟨_, hk⟩

/-- Two examined entries are entries of different versions. -/
theorem Gathered.versions (hs : Bijection s)
    (hg : Gathered now before s s₁ cursor examined cs) :
    (examined.map fun due => (due.record.objectID, due.record.version)).Nodup := by
  rw [List.Nodup, List.pairwise_map]
  refine List.Pairwise.imp_of_mem (fun {a b} ha hb hlt heq => ?_) hg.ordered
  obtain ⟨ho, hv⟩ := Prod.mk.inj heq
  have hka := hg.dueKeyOf hs ha
  have hkb := hg.dueKeyOf hs hb
  obtain ⟨hgeta, hprea, -⟩ := hg.listed a ha
  obtain ⟨hgetb, hpreb, -⟩ := hg.listed b hb
  obtain ⟨da, -, hda, hkeya, -⟩ := hs.entry _ _ hgeta hprea
  obtain ⟨db, -, hdb, hkeyb, -⟩ := hs.entry _ _ hgetb hpreb
  cases hda
  cases hdb
  rw [← ho, ← hv] at hkeyb
  have hsame := hs.unique _ _ _ _ _ _ (hkeya ▸ hgeta) (hkeyb ▸ hgetb)
  rw [← hkeya, ← hkeyb] at hsame
  rw [hsame] at hlt
  exact lt_irrefl _ hlt

theorem Gathered.mem_candidates (hg : Gathered now before s s₁ cursor examined cs)
    {c : TieringCandidate} : c ∈ cs ↔ ∃ due ∈ examined,
      (due.record.objectID ≠ [] ∧ 0 < due.record.version) ∧
      ∃ obj ver, Eligible s before due obj ver ∧
        c = ⟨due.record.objectID, due.record.version, due.key, ver.sizeBytes, obj.updatedAt⟩ := by
  rw [hg.found, List.mem_filterMap]
  simp only [candidateAt_eq_some]

theorem Gathered.dueKeys_nodup (hg : Gathered now before s s₁ cursor examined cs) :
    (cs.map (·.dueKey)).Nodup := by
  rw [hg.found, List.Nodup, List.pairwise_map, List.pairwise_filterMap]
  refine hg.ordered.imp fun {a b} hlt c hc c' hc' heq => ?_
  obtain ⟨-, obj, ver, -, rfl⟩ := candidateAt_eq_some.mp hc
  obtain ⟨-, obj', ver', -, rfl⟩ := candidateAt_eq_some.mp hc'
  exact absurd heq (ne_of_lt hlt)

end Entries

end TieredStore.Meta.TieringPass
