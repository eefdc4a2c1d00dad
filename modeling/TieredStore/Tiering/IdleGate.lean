import Mathlib
import TieredStore.Meta.Schema

/-!
# The idle-window gate of the policy scanner

The scanner runs on two tickers. A periodic tick runs a pass, a threshold tick runs one when the
cluster has been idle for some checks in a row and the last such pass is long enough ago; under
strategy C every tick goes through this gate before it may enqueue migrations. The counter of idle
checks and the time of the last trigger are shared by both tickers.

A busy check resets the counter, a failed check leaves it alone. So an idle streak may be
interrupted by failed checks and still open the gate (`gate_opens_after_failure`). When no check
fails within a streak, every trigger comes after enough idle checks in a row and after the cooldown
(`gated_of_steady`).

The decision of `isIdleWindow` on a list of heartbeats is not looked into: its outcome is an input.
-/

namespace TieredStore.Tiering

open Lib

/-! ## The scanner -/

inductive TieringPolicyVariant where
  | a
  | b
  | c
  deriving DecidableEq, Repr

/-- The outcome of `isIdleWindow`. -/
inductive IdleWindow where
  | idle
  | busy
  | failed
  deriving DecidableEq, Repr

inductive TickSource where
  | periodic
  | threshold
  deriving DecidableEq, Repr

structure PolicyScannerConfig where
  thresholdCooldown : Int
  idleStableRounds : Int
  policyVariant : TieringPolicyVariant := .a
  ageThresholdSec : Int := 3600
  maxObjects : Int := 0
  maxBytes : Int := 0
  repairEnabled : Bool := false
  repairMaxObjects : Int := 0
  oldVersionReaperEnabled : Bool := false
  oldVersionRetentionN : Int := 0
  oldVersionRetentionAge : Int := 0
  oldVersionMaxTasks : Int := 0
  taskHistoryReaperEnabled : Bool := false
  taskHistoryRetentionSec : Int := 0
  taskHistoryReaperMaxTasks : Int := 0
  taskHistoryReaperInterval : Int := 0
  deriving DecidableEq, Repr

structure PolicyScanner where
  cfg : PolicyScannerConfig
  lastThresholdTrigger : Time
  lastHistoryReaperRun : Time
  idleStableCount : Int
  deriving DecidableEq, Repr

/-- A setting that is not positive gets its default. -/
def orDefault (x default : Int) : Int := if x ≤ 0 then default else x

def newPolicyScanner (cfg : PolicyScannerConfig) : PolicyScanner where
  cfg := { cfg with
    thresholdCooldown := orDefault cfg.thresholdCooldown (Time.seconds 60)
    idleStableRounds := orDefault cfg.idleStableRounds 3
    maxObjects := orDefault cfg.maxObjects 200
    repairMaxObjects := orDefault cfg.repairMaxObjects 200
    oldVersionRetentionN := orDefault cfg.oldVersionRetentionN 1
    oldVersionMaxTasks := orDefault cfg.oldVersionMaxTasks 200
    taskHistoryRetentionSec := orDefault cfg.taskHistoryRetentionSec (7 * 24 * 3600)
    taskHistoryReaperMaxTasks := orDefault cfg.taskHistoryReaperMaxTasks 200
    taskHistoryReaperInterval := orDefault cfg.taskHistoryReaperInterval (Time.seconds 900) }
  lastThresholdTrigger := Time.zero
  lastHistoryReaperRun := Time.zero
  idleStableCount := 0

/-- The calls of a pass on the store. -/
inductive ScanCall where
  | tieringA (ageThresholdSec maxObjects : Int)
  | tieringB (ageThresholdSec maxObjects maxBytes : Int)
  | tieringC (ageThresholdSec maxObjects maxBytes : Int)
  | repair (maxObjects : Int)
  | oldVersions (keepLatest minAgeSec maxTasks : Int)
  | purgeHistory (olderThan : Time) (limit : Int)
  deriving DecidableEq, Repr

/-- A tick: its source, the outcome of the idle check if it makes one, and its clock readings. -/
structure Tick where
  source : TickSource
  check : IdleWindow
  gateNow : Time
  reaperNow : Time
  deriving DecidableEq, Repr

namespace PolicyScanner

def enqueueTieringPolicy (s : PolicyScanner) : ScanCall :=
  match s.cfg.policyVariant with
  | .b => .tieringB s.cfg.ageThresholdSec s.cfg.maxObjects s.cfg.maxBytes
  | .c => .tieringC s.cfg.ageThresholdSec s.cfg.maxObjects s.cfg.maxBytes
  | .a => .tieringA s.cfg.ageThresholdSec s.cfg.maxObjects

/-- The gate, written out in both `runThresholdPass` and `strategyCGatePass`: whether it opens, or
an error. -/
def idleGate (check : IdleWindow) (now : Time) (s : PolicyScanner) :
    Except Unit Bool × PolicyScanner :=
  match check with
  | .failed => (.error (), s)
  | .busy => (.ok false, { s with idleStableCount := 0 })
  | .idle =>
    let s := { s with idleStableCount := wrap64 (s.idleStableCount + 1) }
    if s.idleStableCount < s.cfg.idleStableRounds then (.ok false, s)
    else if s.lastThresholdTrigger.isZero = false ∧
        now.sub s.lastThresholdTrigger < s.cfg.thresholdCooldown then (.ok false, s)
    else (.ok true, { s with lastThresholdTrigger := now })

def strategyCGatePass (t : Tick) (s : PolicyScanner) : Except Unit Bool × PolicyScanner :=
  idleGate t.check t.gateNow s

def runTaskHistoryReaper (t : Tick) (s : PolicyScanner) : List ScanCall × PolicyScanner :=
  if s.cfg.taskHistoryReaperEnabled = false ∨ s.cfg.taskHistoryRetentionSec ≤ 0 ∨
      s.cfg.taskHistoryReaperMaxTasks ≤ 0 then ([], s)
  else if s.lastHistoryReaperRun.isZero = false ∧
      t.reaperNow.sub s.lastHistoryReaperRun < s.cfg.taskHistoryReaperInterval then ([], s)
  else
    ([.purgeHistory (t.reaperNow + wrap64 (-(Time.seconds s.cfg.taskHistoryRetentionSec)))
        s.cfg.taskHistoryReaperMaxTasks],
      { s with lastHistoryReaperRun := t.reaperNow })

/-- The maintenance of a pass: repair, old versions, task history. -/
def runMaintenance (t : Tick) (s : PolicyScanner) : List ScanCall × PolicyScanner :=
  let repair := if s.cfg.repairEnabled then [ScanCall.repair s.cfg.repairMaxObjects] else []
  let old := if s.cfg.oldVersionReaperEnabled then
    [ScanCall.oldVersions s.cfg.oldVersionRetentionN s.cfg.oldVersionRetentionAge
      s.cfg.oldVersionMaxTasks] else []
  let (purge, s) := s.runTaskHistoryReaper t
  (repair ++ old ++ purge, s)

def runPolicyAndRepair (t : Tick) (s : PolicyScanner) : List ScanCall × PolicyScanner :=
  let (tieringAllowed, s) :=
    if s.cfg.policyVariant = .c then
      match s.strategyCGatePass t with
      | (.error _, s) => (false, s)
      | (.ok ready, s) => (ready, s)
    else (true, s)
  let tiering := if tieringAllowed then [s.enqueueTieringPolicy] else []
  let (calls, s) := s.runMaintenance t
  (tiering ++ calls, s)

def runThresholdPass (t : Tick) (s : PolicyScanner) : List ScanCall × PolicyScanner :=
  if s.cfg.policyVariant = .c then s.runPolicyAndRepair t
  else
    match s.idleGate t.check t.gateNow with
    | (.ok true, s) => s.runPolicyAndRepair t
    | (_, s) => ([], s)

/-- One round of the loop of `Run`. -/
def tick (t : Tick) (s : PolicyScanner) : List ScanCall × PolicyScanner :=
  match t.source with
  | .periodic => s.runPolicyAndRepair t
  | .threshold => s.runThresholdPass t

/-- The scanner after some ticks. -/
def after (s : PolicyScanner) (ticks : List Tick) : PolicyScanner :=
  ticks.foldl (fun s t => (s.tick t).2) s

/-- The tick makes an idle check. -/
def gated (s : PolicyScanner) (t : Tick) : Bool :=
  s.cfg.policyVariant = .c ∨ t.source = .threshold

/-- The tick goes through the gate and enqueues migrations. -/
def triggers (s : PolicyScanner) (t : Tick) : Bool :=
  s.gated t && (s.tick t).1.contains s.enqueueTieringPolicy

/-! ## One tick -/

section Step

variable {s : PolicyScanner} {t : Tick}

/-- What the gate does with a check. -/
theorem idleGate_cases (check : IdleWindow) (now : Time) (s : PolicyScanner) :
    (check = .failed ∧ s.idleGate check now = (.error (), s)) ∨
    (check = .busy ∧ s.idleGate check now = (.ok false, { s with idleStableCount := 0 })) ∨
    (check = .idle ∧ s.idleGate check now =
      (.ok false, { s with idleStableCount := wrap64 (s.idleStableCount + 1) })) ∨
    (check = .idle ∧ s.cfg.idleStableRounds ≤ wrap64 (s.idleStableCount + 1) ∧
      (s.lastThresholdTrigger = Time.zero ∨
        s.cfg.thresholdCooldown ≤ now.sub s.lastThresholdTrigger) ∧
      s.idleGate check now = (.ok true, { s with
        idleStableCount := wrap64 (s.idleStableCount + 1)
        lastThresholdTrigger := now })) := by
  unfold idleGate
  cases check with
  | failed => exact Or.inl ⟨rfl, rfl⟩
  | busy => exact Or.inr (Or.inl ⟨rfl, rfl⟩)
  | idle =>
    refine Or.inr (Or.inr ?_)
    dsimp only
    split
    · exact Or.inl ⟨rfl, rfl⟩
    · rename_i hrounds
      split
      · exact Or.inl ⟨rfl, rfl⟩
      · rename_i hcool
        refine Or.inr ⟨rfl, by omega, ?_, rfl⟩
        by_cases hzero : s.lastThresholdTrigger = Time.zero
        · exact Or.inl hzero
        · have hset : s.lastThresholdTrigger.isZero = false := by
            simpa [Time.isZero] using hzero
          exact Or.inr (not_lt.mp fun hlt => hcool ⟨hset, hlt⟩)

/-- The scanners agree in what the gate reads. -/
structure SameGate (s s' : PolicyScanner) : Prop where
  cfg : s'.cfg = s.cfg
  last : s'.lastThresholdTrigger = s.lastThresholdTrigger
  count : s'.idleStableCount = s.idleStableCount

theorem enqueueTieringPolicy_congr {s s' : PolicyScanner} (h : s'.cfg = s.cfg) :
    s'.enqueueTieringPolicy = s.enqueueTieringPolicy := by
  unfold enqueueTieringPolicy
  rw [h]

theorem idleGate_cfg (check : IdleWindow) (now : Time) (s : PolicyScanner) :
    (s.idleGate check now).2.cfg = s.cfg := by
  rcases idleGate_cases check now s with ⟨-, h⟩ | ⟨-, h⟩ | ⟨-, h⟩ | ⟨-, -, -, h⟩ <;> rw [h]

theorem runTaskHistoryReaper_cases (t : Tick) (s : PolicyScanner) :
    SameGate s (s.runTaskHistoryReaper t).2 ∧ ∀ call ∈ (s.runTaskHistoryReaper t).1,
      ∃ olderThan limit, call = .purgeHistory olderThan limit := by
  unfold runTaskHistoryReaper
  split
  · exact ⟨⟨rfl, rfl, rfl⟩, by simp⟩
  · split
    · exact ⟨⟨rfl, rfl, rfl⟩, by simp⟩
    · exact ⟨⟨rfl, rfl, rfl⟩, by simp⟩

theorem enqueueTieringPolicy_cases (s : PolicyScanner) :
    (∃ age n, s.enqueueTieringPolicy = .tieringA age n) ∨
      (∃ age n b, s.enqueueTieringPolicy = .tieringB age n b) ∨
      ∃ age n b, s.enqueueTieringPolicy = .tieringC age n b := by
  unfold enqueueTieringPolicy
  cases s.cfg.policyVariant with
  | a => exact Or.inl ⟨_, _, rfl⟩
  | b => exact Or.inr (Or.inl ⟨_, _, _, rfl⟩)
  | c => exact Or.inr (Or.inr ⟨_, _, _, rfl⟩)

/-- The maintenance leaves the gate alone and enqueues no migrations. -/
theorem runMaintenance_cases (t : Tick) (s s' : PolicyScanner) :
    SameGate s (s.runMaintenance t).2 ∧ s'.enqueueTieringPolicy ∉ (s.runMaintenance t).1 := by
  obtain ⟨hgate, hpurge⟩ := runTaskHistoryReaper_cases t s
  refine ⟨hgate, fun hmem => ?_⟩
  have hcalls : ∀ call ∈ (s.runMaintenance t).1, (∃ n, call = .repair n) ∨
      (∃ n age k, call = .oldVersions n age k) ∨ ∃ at' n, call = .purgeHistory at' n := by
    intro call hcall
    simp only [runMaintenance, List.mem_append] at hcall
    rcases hcall with (hcall | hcall) | hcall
    · split at hcall
      · exact Or.inl ⟨_, List.mem_singleton.mp hcall⟩
      · simp at hcall
    · split at hcall
      · exact Or.inr (Or.inl ⟨_, _, _, List.mem_singleton.mp hcall⟩)
      · simp at hcall
    · exact Or.inr (Or.inr (hpurge call hcall))
  rcases hcalls _ hmem with ⟨_, h⟩ | ⟨_, _, _, h⟩ | ⟨_, _, h⟩ <;>
    rcases enqueueTieringPolicy_cases s' with ⟨_, _, h'⟩ | ⟨_, _, _, h'⟩ | ⟨_, _, _, h'⟩ <;>
    · rw [h'] at h
      cases h

/-- A pass under strategies A and B enqueues migrations. -/
theorem runPolicyAndRepair_open (h : s.cfg.policyVariant ≠ .c) :
    SameGate s (s.runPolicyAndRepair t).2 ∧
      s.enqueueTieringPolicy ∈ (s.runPolicyAndRepair t).1 := by
  have hpass : s.runPolicyAndRepair t =
      (s.enqueueTieringPolicy :: (s.runMaintenance t).1, (s.runMaintenance t).2) := by
    unfold runPolicyAndRepair
    rw [if_neg h]
    rfl
  rw [hpass]
  exact ⟨(runMaintenance_cases t s s).1, List.mem_cons_self⟩

/-- A pass under strategy C goes through the gate. -/
theorem runPolicyAndRepair_gated (h : s.cfg.policyVariant = .c) :
    SameGate (s.idleGate t.check t.gateNow).2 (s.runPolicyAndRepair t).2 ∧
      (s.enqueueTieringPolicy ∈ (s.runPolicyAndRepair t).1 ↔
        (s.idleGate t.check t.gateNow).1 = .ok true) := by
  have hcfg := idleGate_cfg t.check t.gateNow s
  unfold runPolicyAndRepair strategyCGatePass
  rw [if_pos h]
  generalize s.idleGate t.check t.gateNow = gate at hcfg ⊢
  obtain ⟨ready, s'⟩ := gate
  obtain ⟨hgate, hnot⟩ := runMaintenance_cases t s' s
  have hcall : s'.enqueueTieringPolicy = s.enqueueTieringPolicy := enqueueTieringPolicy_congr hcfg
  cases ready with
  | error e => exact ⟨hgate, by simpa using hnot⟩
  | ok ready =>
    cases ready with
    | false => exact ⟨hgate, by simpa using hnot⟩
    | true => exact ⟨hgate, by simp [hcall]⟩

/-- A tick that makes no check leaves the gate alone. -/
theorem tick_ungated (h : s.gated t = false) : SameGate s (s.tick t).2 := by
  simp only [gated, decide_eq_false_iff_not, not_or] at h
  unfold tick
  cases hsource : t.source with
  | periodic => exact (runPolicyAndRepair_open h.1).1
  | threshold => exact absurd hsource h.2

/-- A tick that makes a check moves the gate as the check says, and triggers when it opens. -/
theorem tick_gated (h : s.gated t = true) :
    SameGate (s.idleGate t.check t.gateNow).2 (s.tick t).2 ∧
      (s.triggers t = true ↔ (s.idleGate t.check t.gateNow).1 = .ok true) := by
  have htriggers : s.triggers t = true ↔ s.enqueueTieringPolicy ∈ (s.tick t).1 := by
    simp [triggers, h]
  rw [htriggers]
  simp only [gated, decide_eq_true_eq] at h
  unfold tick
  by_cases hc : s.cfg.policyVariant = .c
  · cases t.source with
    | periodic => exact runPolicyAndRepair_gated hc
    | threshold =>
      dsimp only [runThresholdPass]
      rw [if_pos hc]
      exact runPolicyAndRepair_gated hc
  · rw [h.resolve_left hc]
    dsimp only [runThresholdPass]
    rw [if_neg hc]
    have hcfg := idleGate_cfg t.check t.gateNow s
    generalize s.idleGate t.check t.gateNow = gate at hcfg ⊢
    obtain ⟨ready, s'⟩ := gate
    have hcall : s'.enqueueTieringPolicy = s.enqueueTieringPolicy :=
      enqueueTieringPolicy_congr hcfg
    cases ready with
    | error e => exact ⟨⟨rfl, rfl, rfl⟩, by simp⟩
    | ok ready =>
      cases ready with
      | false => exact ⟨⟨rfl, rfl, rfl⟩, by simp⟩
      | true =>
        obtain ⟨hgate, hmem⟩ := @runPolicyAndRepair_open s' t (by rwa [show s'.cfg = s.cfg from hcfg])
        exact ⟨hgate, by simpa [hcall] using hmem⟩

end Step

/-! ## Runs -/

/-- The idle checks that some ticks make, in order. -/
def checks (s : PolicyScanner) (ticks : List Tick) : List IdleWindow :=
  (ticks.filter s.gated).map Tick.check

/-- The last check that gave a result. -/
def lastResult (cs : List IdleWindow) : Option IdleWindow := (cs.filter (· ≠ .failed)).getLast?

/-- No check fails within an idle streak: when a check fails, the last result before it was busy,
or there was none. -/
def Steady (cs : List IdleWindow) : Prop :=
  ∀ i, (h : i < cs.length) → cs[i] = .failed → lastResult (cs.take i) ≠ some .idle

instance : DecidablePred Steady := fun cs =>
  inferInstanceAs (Decidable (∀ i, (h : i < cs.length) → _ → _))

/-- Every trigger of the run comes after enough idle checks in a row, its own included, and after
the cooldown since any earlier trigger. -/
def Gated (s : PolicyScanner) (ticks : List Tick) : Prop :=
  ∀ pre t post, ticks = pre ++ t :: post → (s.after pre).triggers t = true →
    (s.checks (pre ++ [t])).reverse.take s.cfg.idleStableRounds.toNat =
      List.replicate s.cfg.idleStableRounds.toNat .idle ∧
    ∀ pre' t' post', pre = pre' ++ t' :: post' → (s.after pre').triggers t' = true →
      s.cfg.thresholdCooldown ≤ t.gateNow - t'.gateNow

/-- The length of the idle streak at the end of some checks. -/
def streak (cs : List IdleWindow) : Nat := (cs.reverse.takeWhile (· = .idle)).length

theorem streak_idle (cs : List IdleWindow) : streak (cs ++ [.idle]) = streak cs + 1 := by
  simp [streak]

theorem lastResult_idle (cs : List IdleWindow) : lastResult (cs ++ [.idle]) = some .idle := by
  simp [lastResult]

theorem take_of_streak {cs : List IdleWindow} {n : Nat} (h : n ≤ streak cs) :
    cs.reverse.take n = List.replicate n .idle := by
  have htake : cs.reverse.take n = (cs.reverse.takeWhile (· = .idle)).take n := by
    conv_lhs => rw [← List.takeWhile_append_dropWhile (p := (· = IdleWindow.idle)) (l := cs.reverse)]
    exact List.take_append_of_le_length h
  rw [htake, List.eq_replicate_iff]
  refine ⟨List.length_take_of_le h, fun c hc => ?_⟩
  simpa using List.mem_takeWhile_imp (List.mem_of_mem_take hc)

/-- What holds of the gate between ticks, after the ticks `pre`. -/
structure GateInv (s₀ : PolicyScanner) (pre : List Tick) (s : PolicyScanner) : Prop where
  cfg : s.cfg = s₀.cfg
  range : -2 ^ 63 ≤ s.idleStableCount
  count : s.idleStableCount ≤ streak (s₀.checks pre)
  reset : lastResult (s₀.checks pre) ≠ some .idle → s.idleStableCount = 0
  known : s.lastThresholdTrigger = Time.zero ∨ ∃ t ∈ pre, s.lastThresholdTrigger = t.gateNow
  latest : ∀ pre' t' post', pre = pre' ++ t' :: post' → (s₀.after pre').triggers t' = true →
    s.lastThresholdTrigger ≠ Time.zero ∧ t'.gateNow ≤ s.lastThresholdTrigger

section Runs

variable {s₀ s : PolicyScanner} {pre : List Tick} {t : Tick}

theorem checks_append (t : Tick) : s₀.checks (pre ++ [t]) =
    s₀.checks pre ++ if s₀.gated t = true then [t.check] else [] := by
  cases h : s₀.gated t <;> simp [checks, h]

theorem after_append (s : PolicyScanner) (pre : List Tick) (t : Tick) :
    s.after (pre ++ [t]) = ((s.after pre).tick t).2 := by
  simp [after]

/-- A split of a list with one more entry is a split of the list, or is at the new entry. -/
theorem append_singleton_split {α : Type} {l l' r : List α} {a b : α}
    (h : l ++ [a] = l' ++ b :: r) : (l' = l ∧ b = a) ∨ ∃ r', l = l' ++ b :: r' := by
  rcases List.eq_nil_or_concat r with rfl | ⟨r', c, rfl⟩
  · obtain ⟨hl, hb⟩ := List.append_inj' h rfl
    exact Or.inl ⟨hl.symm, (List.cons.inj hb).1.symm⟩
  · rw [List.concat_eq_append, ← List.cons_append, ← List.append_assoc] at h
    exact Or.inr ⟨r', (List.append_inj' h rfl).1⟩

/-- The step of the invariant, from what the tick does to the counter and to the last trigger. -/
theorem GateInv.extend (h : GateInv s₀ pre (s₀.after pre)) (hclock : t.gateNow ≠ Time.zero)
    (hmono : ∀ t' ∈ pre, t'.gateNow ≤ t.gateNow) (hcfg : s.cfg = (s₀.after pre).cfg)
    (hrange : -2 ^ 63 ≤ s.idleStableCount)
    (hcount : s.idleStableCount ≤ streak (s₀.checks (pre ++ [t])))
    (hreset : lastResult (s₀.checks (pre ++ [t])) ≠ some .idle → s.idleStableCount = 0)
    (hlast : s.lastThresholdTrigger = if (s₀.after pre).triggers t = true then t.gateNow
      else (s₀.after pre).lastThresholdTrigger) : GateInv s₀ (pre ++ [t]) s where
  cfg := hcfg.trans h.cfg
  range := hrange
  count := hcount
  reset := hreset
  known := by
    rw [hlast]
    split
    · exact Or.inr ⟨t, by simp, rfl⟩
    · exact h.known.imp id fun ⟨t', ht', heq⟩ => ⟨t', List.mem_append_left _ ht', heq⟩
  latest := by
    intro pre' t' post' hsplit htriggers
    rw [hlast]
    rcases append_singleton_split hsplit with ⟨rfl, rfl⟩ | ⟨post, hpre⟩
    · rw [if_pos htriggers]
      exact ⟨hclock, le_rfl⟩
    · obtain ⟨hset, hle⟩ := h.latest pre' t' post hpre htriggers
      split
      · exact ⟨hclock, hmono t' (by simp [hpre])⟩
      · exact ⟨hset, hle⟩

theorem GateInv.tick (h : GateInv s₀ pre (s₀.after pre)) (hclock : t.gateNow ≠ Time.zero)
    (hmono : ∀ t' ∈ pre, t'.gateNow ≤ t.gateNow)
    (hfail : s₀.gated t = true → t.check = .failed → lastResult (s₀.checks pre) ≠ some .idle) :
    GateInv s₀ (pre ++ [t]) (s₀.after (pre ++ [t])) := by
  have hgated : (s₀.after pre).gated t = s₀.gated t := by
    unfold gated
    rw [h.cfg]
  rw [after_append]
  cases hg : s₀.gated t with
  | false =>
    have hsame := tick_ungated (hgated.trans hg)
    have hnot : (s₀.after pre).triggers t = false := by simp [triggers, hgated, hg]
    have hchecks : s₀.checks (pre ++ [t]) = s₀.checks pre := by simp [checks_append, hg]
    refine h.extend hclock hmono hsame.cfg ?_ ?_ ?_ ?_
    · rw [hsame.count]
      exact h.range
    · rw [hsame.count, hchecks]
      exact h.count
    · rw [hsame.count, hchecks]
      exact h.reset
    · rw [hnot]
      exact hsame.last
  | true =>
    obtain ⟨hsame, htriggers⟩ := tick_gated (hgated.trans hg)
    have hchecks : s₀.checks (pre ++ [t]) = s₀.checks pre ++ [t.check] := by
      simp [checks_append, hg]
    have hcfg := hsame.cfg.trans (idleGate_cfg _ _ _)
    have hrange := h.range
    have hcount := h.count
    have hup := wrap64_le (x := (s₀.after pre).idleStableCount + 1) (by omega)
    have hlow := le_wrap64 ((s₀.after pre).idleStableCount + 1)
    rcases idleGate_cases t.check t.gateNow (s₀.after pre) with ⟨hcheck, hgate⟩ | ⟨hcheck, hgate⟩ |
      ⟨hcheck, hgate⟩ | ⟨hcheck, -, -, hgate⟩ <;>
      rw [hgate] at hsame htriggers <;> rw [hcheck] at hchecks
    · -- the check failed after a busy one, so that the counter is 0
      have hzero := h.reset (hfail hg hcheck)
      refine h.extend hclock hmono hcfg ?_ ?_ ?_ ?_
      · rw [hsame.count]
        exact h.range
      · rw [hsame.count, hzero]
        omega
      · rw [hsame.count]
        exact fun _ => hzero
      · rw [if_neg (by simp [htriggers])]
        exact hsame.last
    · refine h.extend hclock hmono hcfg ?_ ?_ ?_ ?_
      · rw [hsame.count]
        exact (by decide : (-2 ^ 63 : Int) ≤ 0)
      · rw [hsame.count]
        exact Int.natCast_nonneg _
      · rw [hsame.count]
        exact fun _ => rfl
      · rw [if_neg (by simp [htriggers])]
        exact hsame.last
    · refine h.extend hclock hmono hcfg (hsame.count ▸ hlow) ?_ ?_ ?_
      · rw [hsame.count, hchecks, streak_idle]
        push_cast
        omega
      · rw [hchecks, lastResult_idle]
        exact fun hne => absurd rfl hne
      · rw [if_neg (by simp [htriggers])]
        exact hsame.last
    · refine h.extend hclock hmono hcfg (hsame.count ▸ hlow) ?_ ?_ ?_
      · rw [hsame.count, hchecks, streak_idle]
        push_cast
        omega
      · rw [hchecks, lastResult_idle]
        exact fun hne => absurd rfl hne
      · rw [if_pos (htriggers.mpr rfl)]
        exact hsame.last

theorem gateInv_new (cfg : PolicyScannerConfig) :
    GateInv (newPolicyScanner cfg) [] (newPolicyScanner cfg) where
  cfg := rfl
  range := (by decide : (-2 ^ 63 : Int) ≤ 0)
  count := le_rfl
  reset := fun _ => rfl
  known := Or.inl rfl
  latest := fun pre' t' post' hsplit => by simp at hsplit

/-- A check of the run is a check after those of the ticks before. -/
theorem Steady.failed {ticks post : List Tick} (hsteady : Steady (s₀.checks ticks))
    (hsplit : ticks = pre ++ t :: post) (hg : s₀.gated t = true) (hcheck : t.check = .failed) :
    lastResult (s₀.checks pre) ≠ some .idle := by
  have hchecks : s₀.checks ticks = s₀.checks pre ++ .failed :: s₀.checks post := by
    rw [hsplit]
    simp [checks, hg, hcheck]
  rw [hchecks] at hsteady
  have hat := hsteady (s₀.checks pre).length (by simp) (by simp)
  simpa using hat

/-- The invariant along a run. -/
theorem gateInv_after (cfg : PolicyScannerConfig) {ticks : List Tick}
    (hmono : ticks.Pairwise fun a b => a.gateNow ≤ b.gateNow)
    (hclock : ∀ t ∈ ticks, t.gateNow ≠ Time.zero)
    (hsteady : Steady ((newPolicyScanner cfg).checks ticks)) {pre post : List Tick}
    (hsplit : ticks = pre ++ post) :
    GateInv (newPolicyScanner cfg) pre ((newPolicyScanner cfg).after pre) := by
  induction pre using List.reverseRecOn generalizing post with
  | nil => exact gateInv_new cfg
  | append_singleton pre t ih =>
    rw [List.append_assoc, List.singleton_append] at hsplit
    refine (ih hsplit).tick (hclock t (by simp [hsplit])) ?_ fun hg hcheck =>
      hsteady.failed hsplit hg hcheck
    intro t' ht'
    rw [hsplit, List.pairwise_append] at hmono
    exact hmono.2.2 t' ht' t List.mem_cons_self

theorem sub_le_of_le {now last : Time} (h : last ≤ now) : now.sub last ≤ now - last :=
  max_le (le_trans (by decide) (sub_nonneg.mpr h)) (min_le_right _ _)

end Runs

/-- In a run with a clock that does not go back, and in which no check fails within an idle streak,
the gate does what it is for. -/
theorem gated_of_steady (cfg : PolicyScannerConfig) {ticks : List Tick}
    (hmono : ticks.Pairwise fun a b => a.gateNow ≤ b.gateNow)
    (hclock : ∀ t ∈ ticks, t.gateNow ≠ Time.zero)
    (hsteady : Steady ((newPolicyScanner cfg).checks ticks)) :
    (newPolicyScanner cfg).Gated ticks := by
  intro pre t post hsplit htriggers
  have hinv := gateInv_after cfg hmono hclock hsteady hsplit
  have hgated : ((newPolicyScanner cfg).after pre).gated t = true := by
    simp only [triggers, Bool.and_eq_true] at htriggers
    exact htriggers.1
  have hopen := (tick_gated hgated).2.mp htriggers
  rcases idleGate_cases t.check t.gateNow ((newPolicyScanner cfg).after pre) with ⟨-, hgate⟩ |
    ⟨-, hgate⟩ | ⟨-, hgate⟩ | ⟨hcheck, hrounds, hcool, -⟩
  · rw [hgate] at hopen
    cases hopen
  · rw [hgate] at hopen
    cases hopen
  · rw [hgate] at hopen
    cases hopen
  · have hrange := hinv.range
    have hcount := hinv.count
    have hup := wrap64_le (x := ((newPolicyScanner cfg).after pre).idleStableCount + 1) (by omega)
    rw [hinv.cfg] at hrounds hcool
    constructor
    · refine take_of_streak ?_
      have hg : (newPolicyScanner cfg).gated t = true := by
        rw [← hgated]
        unfold gated
        rw [hinv.cfg]
      rw [checks_append, if_pos hg, hcheck, streak_idle]
      omega
    · intro pre' t' post' hpre htriggers'
      obtain ⟨hset, hle⟩ := hinv.latest pre' t' post' hpre htriggers'
      obtain ⟨t₀, ht₀, hlast⟩ := hinv.known.resolve_left hset
      have hbefore : ((newPolicyScanner cfg).after pre).lastThresholdTrigger ≤ t.gateNow := by
        rw [hlast]
        rw [hsplit, List.pairwise_append] at hmono
        exact hmono.2.2 t₀ ht₀ t List.mem_cons_self
      calc (newPolicyScanner cfg).cfg.thresholdCooldown
          ≤ t.gateNow.sub ((newPolicyScanner cfg).after pre).lastThresholdTrigger :=
            hcool.resolve_left hset
        _ ≤ t.gateNow - ((newPolicyScanner cfg).after pre).lastThresholdTrigger :=
            sub_le_of_le hbefore
        _ ≤ t.gateNow - t'.gateNow := sub_le_sub_left hle _

/-- Threshold ticks under strategy A, with two idle rounds and a cooldown of 10. -/
def pairScanner : PolicyScannerConfig := { thresholdCooldown := 10, idleStableRounds := 2 }

def thresholdTicks (l : List (IdleWindow × Time)) : List Tick :=
  l.map fun p => ⟨.threshold, p.1, p.2, p.2⟩

/-- A failed check before the streak does no harm. -/
theorem pairScanner_gated : (newPolicyScanner pairScanner).Gated
    (thresholdTicks [(.idle, 1), (.busy, 2), (.failed, 3), (.idle, 4), (.idle, 5), (.idle, 16)]) :=
  gated_of_steady pairScanner (by decide) (by decide) (by decide)

/-- A failed check within the streak is passed over: the third tick triggers, although the check
before it failed. -/
theorem gate_opens_after_failure :
    let ticks := thresholdTicks [(.idle, 1), (.failed, 2), (.idle, 3)]
    ticks.Pairwise (fun a b => a.gateNow ≤ b.gateNow) ∧ (∀ t ∈ ticks, t.gateNow ≠ Time.zero) ∧
      ((newPolicyScanner pairScanner).after (ticks.take 2)).triggers
        ⟨.threshold, .idle, 3, 3⟩ = true ∧
      ¬ (newPolicyScanner pairScanner).Gated ticks := by
  refine ⟨by decide, by decide, by decide, fun hgated => ?_⟩
  have htrigger := (hgated (thresholdTicks [(.idle, 1), (.failed, 2)]) ⟨.threshold, .idle, 3, 3⟩ []
    rfl (by decide)).1
  exact absurd htrigger (by decide)

end PolicyScanner

end TieredStore.Tiering
