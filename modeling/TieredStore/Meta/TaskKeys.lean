import TieredStore.Meta.Background

/-!
# Owners of task index keys

A parser of an index key gives back the fields from which the key was built, when the type has
no slash and the id is not empty. The id that a key of a task index names is the key's owner
(`taskIndexOwner`), so keys of different tasks differ.
-/

namespace TieredStore.Meta

open Lib Lib.Bytes

/-! ## Parsers after builders -/

theorem stripFamily_append (pre rest : GoString) : stripFamily pre (pre ++ rest) = some rest := by
  simp [stripFamily]

/-- A text is split at its slashes and put together again. -/
theorem splitOn_cons_intercalate (id : GoString) :
    ∃ a as, id.splitOn slash = a :: as ∧ [slash].intercalate (a :: as) = id := by
  cases h : id.splitOn slash with
  | nil => exact absurd h (List.splitOn_ne_nil slash id)
  | cons a as => exact ⟨a, as, rfl, h ▸ List.intercalate_splitOn slash⟩

variable {ty id : GoString}

theorem tiKVParseTaskReadyKey_build (hty : slash ∉ ty) (hid : id ≠ []) (p : Int) (t : Time) :
    tiKVParseTaskReadyKey (tiKVTaskReadyKey ty p t id) = some (t.unixNano, ty, id) := by
  obtain ⟨a, as, hsplit, hjoin⟩ := splitOn_cons_intercalate id
  have hts : parseInt (padInt 20 t.unixNano) = some t.unixNano :=
    parseInt_padInt (inInt64_unixNano t)
  unfold tiKVParseTaskReadyKey tiKVTaskReadyKey
  simp only [List.append_assoc, List.cons_append, List.nil_append, stripFamily_append,
    Option.bind_eq_bind, Option.bind_some,
    List.splitOn_append_cons_self_of_not_mem (slash_not_mem_encodePriorityDesc p),
    List.splitOn_append_cons_self_of_not_mem (slash_not_mem_encodeInt64 t.unixNano),
    List.splitOn_append_cons_self_of_not_mem hty, hsplit, hjoin, if_neg hid]
  rw [tiKVEncodeInt64, hts]
  rfl

theorem tiKVParseTaskWaitKey_build (hty : slash ∉ ty) (hid : id ≠ []) (t : Time) :
    tiKVParseTaskWaitKey (tiKVTaskWaitKey ty t id) = some (t.unixNano, ty, id) := by
  obtain ⟨a, as, hsplit, hjoin⟩ := splitOn_cons_intercalate id
  have hts : parseInt (padInt 20 t.unixNano) = some t.unixNano :=
    parseInt_padInt (inInt64_unixNano t)
  unfold tiKVParseTaskWaitKey tiKVTaskWaitKey
  simp only [List.append_assoc, List.cons_append, List.nil_append, stripFamily_append,
    Option.bind_eq_bind, Option.bind_some,
    List.splitOn_append_cons_self_of_not_mem (slash_not_mem_encodeInt64 t.unixNano),
    List.splitOn_append_cons_self_of_not_mem hty, hsplit, hjoin, if_neg hid]
  rw [tiKVEncodeInt64, hts]
  rfl

theorem tiKVParseTaskTerminalKey_build (hid : id ≠ []) (t : Time) :
    tiKVParseTaskTerminalKey (tiKVTaskTerminalKey t id) = some (t.unixNano, id) := by
  obtain ⟨a, as, hsplit, hjoin⟩ := splitOn_cons_intercalate id
  have hts : parseInt (padInt 20 t.unixNano) = some t.unixNano :=
    parseInt_padInt (inInt64_unixNano t)
  unfold tiKVParseTaskTerminalKey tiKVTaskTerminalKey
  simp only [List.append_assoc, List.cons_append, List.nil_append, stripFamily_append,
    Option.bind_eq_bind, Option.bind_some,
    List.splitOn_append_cons_self_of_not_mem (slash_not_mem_encodeInt64 t.unixNano),
    hsplit, hjoin, if_neg hid]
  rw [tiKVEncodeInt64, hts]
  rfl

/-- An index key gives back the time, the type and the id it was built from. -/
theorem taskIndexKeys_roundtrip (hty : slash ∉ ty) (hid : id ≠ []) (priority : Int) {t : Time}
    (ht : InInt64 t) :
    tiKVParseTaskReadyKey (tiKVTaskReadyKey ty priority t id) = some (t, ty, id) ∧
      tiKVParseTaskWaitKey (tiKVTaskWaitKey ty t id) = some (t, ty, id) ∧
      tiKVParseTaskTerminalKey (tiKVTaskTerminalKey t id) = some (t, id) ∧
      (∀ ty' t' id', slash ∉ ty' → InInt64 t' → id' ≠ [] →
        tiKVTaskWaitKey ty t id = tiKVTaskWaitKey ty' t' id' → t = t' ∧ ty = ty' ∧ id = id') ∧
      ∀ t' id', InInt64 t' → id' ≠ [] →
        tiKVTaskTerminalKey t id = tiKVTaskTerminalKey t' id' → t = t' ∧ id = id' := by
  have hnano : ∀ {t : Time}, InInt64 t → t.unixNano = t := fun h => wrap64_eq_self h.1 h.2
  have hready := tiKVParseTaskReadyKey_build hty hid priority t
  have hwait := tiKVParseTaskWaitKey_build hty hid t
  have hterminal := tiKVParseTaskTerminalKey_build hid t
  rw [hnano ht] at hready hwait hterminal
  refine ⟨hready, hwait, hterminal, ?_, ?_⟩
  · intro ty' t' id' hty' ht' hid' heq
    rw [heq, tiKVParseTaskWaitKey_build hty' hid' t', hnano ht'] at hwait
    cases hwait
    exact ⟨rfl, rfl, rfl⟩
  · intro t' id' ht' hid' heq
    rw [heq, tiKVParseTaskTerminalKey_build hid' t', hnano ht'] at hterminal
    cases hterminal
    exact ⟨rfl, rfl⟩

theorem repairKey_roundtrip :
    tiKVParseTaskReadyKey (tiKVTaskReadyKey (lit "REPAIR") 7 (-5) (lit "repair:a/b:1")) =
      some (-5, lit "REPAIR", lit "repair:a/b:1") :=
  (taskIndexKeys_roundtrip (by decide) (by decide) 7 ⟨by decide, by decide⟩).1

/-! ## Owners -/

/-- The task that an index key names, by the parser of the key's family. -/
def taskIndexOwner (k : GoString) : Option GoString :=
  if keyFamily k = lit "task_ready" then (tiKVParseTaskReadyKey k).map (·.2.2)
  else if keyFamily k = lit "task_wait" then (tiKVParseTaskWaitKey k).map (·.2.2)
  else (tiKVParseTaskTerminalKey k).map (·.2)

theorem taskIndexOwner_of_ready {k : GoString} (hk : keyFamily k = lit "task_ready") :
    taskIndexOwner k = (tiKVParseTaskReadyKey k).map (·.2.2) := if_pos hk

theorem taskIndexOwner_of_wait {k : GoString} (hk : keyFamily k = lit "task_wait") :
    taskIndexOwner k = (tiKVParseTaskWaitKey k).map (·.2.2) := by
  unfold taskIndexOwner
  rw [if_neg (by rw [hk]; decide), if_pos hk]

theorem taskIndexOwner_of_terminal {k : GoString} (hk : keyFamily k = lit "task_terminal") :
    taskIndexOwner k = (tiKVParseTaskTerminalKey k).map (·.2) := by
  unfold taskIndexOwner
  rw [if_neg (by rw [hk]; decide), if_neg (by rw [hk]; decide)]

theorem taskIndexOwner_ready (hty : slash ∉ ty) (hid : id ≠ []) (p : Int) (t : Time) :
    taskIndexOwner (tiKVTaskReadyKey ty p t id) = some id := by
  rw [taskIndexOwner_of_ready (keyFamily_taskReady _ _ _ _), tiKVParseTaskReadyKey_build hty hid]
  rfl

theorem taskIndexOwner_wait (hty : slash ∉ ty) (hid : id ≠ []) (t : Time) :
    taskIndexOwner (tiKVTaskWaitKey ty t id) = some id := by
  rw [taskIndexOwner_of_wait (keyFamily_taskWait _ _ _), tiKVParseTaskWaitKey_build hty hid]
  rfl

theorem taskIndexOwner_terminal (hid : id ≠ []) (t : Time) :
    taskIndexOwner (tiKVTaskTerminalKey t id) = some id := by
  rw [taskIndexOwner_of_terminal (keyFamily_taskTerminal _ _), tiKVParseTaskTerminalKey_build hid]
  rfl

end TieredStore.Meta
