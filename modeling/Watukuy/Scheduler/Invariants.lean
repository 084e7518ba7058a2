import Watukuy.Scheduler.Scheduler
import Mathlib.Tactic.Linarith
import Mathlib.Data.Rat.Floor

/-!
# What every sequence of transitions keeps

From `initialScheduleState` on, under any successes, failures, probes and triggers: the interval
stays within its bounds, the circuit is closed exactly below the failure limit, openings and
closings alternate, and no transition plans a run in the past. A throttle holds the key back until
the next success, trigger or throttle. A backoff from zero by a power that overflows has no value, and
plans no run at all.
-/

set_option autoImplicit false

namespace Watukuy

open Library

/-- What `definePoller` promises of a configuration. -/
structure SchedulerConfig.Valid (cfg : SchedulerConfig) : Prop where
  min_pos : 1 ≤ cfg.schedule.minMs
  min_le_max : cfg.schedule.minMs ≤ cfg.schedule.maxMs
  failures : 1 ≤ cfg.circuit.failures
  probeEveryMs : 0 ≤ cfg.circuit.probeEveryMs

/-- No delay is zero times infinity. -/
structure Backoff.Defined (b : Backoff) : Prop where
  factor : b.factor ≠ .nan
  base : b.baseMs ≠ 0 ∨ ∀ n, ∃ q, b.factor.pow n = .finite q

/-! ## Transitions -/

inductive ScheduleCall
  | afterSuccess (now : Int) (random : Rat) (outcome : SuccessOutcome)
  | afterFailure (now : Int) (random : Rat) (outcome : FailureOutcome)
  | beginProbe
  | makeDue (now : Int)

inductive CircuitReport
  | circuitOpened
  | circuitClosed
  deriving DecidableEq

namespace ScheduleCall

/-- The new state and what is reported of the circuit. -/
def perform (cfg : SchedulerConfig) (state : ScheduleState) :
    ScheduleCall → ScheduleState × List CircuitReport
  | .afterSuccess now random outcome =>
    let result := Watukuy.afterSuccess state cfg now random outcome
    (result.state, if result.circuitClosed then [.circuitClosed] else [])
  | .afterFailure now random outcome =>
    let result := Watukuy.afterFailure state cfg now random outcome
    (result.state, if result.circuitOpened then [.circuitOpened] else [])
  | .beginProbe => (Watukuy.beginProbe state, [])
  | .makeDue now => (Watukuy.makeDue state now, [])

/-- The clock value of a call that plans the next run. -/
def plansAt : ScheduleCall → Option Int
  | .afterSuccess now _ _ => some now
  | .afterFailure now _ _ => some now
  | .beginProbe => none
  | .makeDue now => some now

/-- `Random` draws from `[0, 1)`. -/
def Drawn : ScheduleCall → Prop
  | .afterSuccess _ random _ => 0 ≤ random ∧ random < 1
  | .afterFailure _ random _ => 0 ≤ random ∧ random < 1
  | .beginProbe => True
  | .makeDue _ => True

/-- A failure that is no throttle, or the start of a probe. -/
def Ordinary : ScheduleCall → Prop
  | .afterSuccess _ _ _ => False
  | .afterFailure _ _ outcome => outcome.isThrottle = false
  | .beginProbe => True
  | .makeDue _ => False

end ScheduleCall

/-- The state after a sequence of calls. -/
def afterScheduleCalls (cfg : SchedulerConfig) (state : ScheduleState) (calls : List ScheduleCall) :
    ScheduleState :=
  calls.foldl (fun state call => (call.perform cfg state).1) state

/-- The reports of a sequence of calls, in order. -/
def circuitReports (cfg : SchedulerConfig) : ScheduleState → List ScheduleCall → List CircuitReport
  | _, [] => []
  | state, call :: calls =>
    (call.perform cfg state).2 ++ circuitReports cfg (call.perform cfg state).1 calls

def CircuitReport.other : CircuitReport → CircuitReport
  | .circuitOpened => .circuitClosed
  | .circuitClosed => .circuitOpened

/-- The reports alternate, and begin with the given one. -/
def Alternate : CircuitReport → List CircuitReport → Prop
  | _, [] => True
  | next, report :: reports => report = next ∧ Alternate next.other reports

/-! ## Delays -/

/-- Rounding does not pass a whole number. -/
theorem le_jsRound {m : Int} {x : Rat} (h : (m : Rat) ≤ x) : m ≤ jsRound x := by
  have hle : (m : Rat) ≤ x + 1 / 2 := by linarith
  exact Int.le_floor.2 hle

theorem applyPacing_nonneg (intervalMs : Int) (rateLimit : Option RateLimitInfo) (now : Int) :
    0 ≤ applyPacing intervalMs rateLimit now := by
  have hbase : 0 ≤ max 0 intervalMs := le_max_left _ _
  simp only [applyPacing]
  split
  · split
    · exact hbase
    · exact hbase.trans (le_max_left _ _)
  · exact hbase

theorem ofRat_ne_nan (q : ℚ) : Double.ofRat q ≠ .nan := by
  unfold Double.ofRat
  split <;> exact nofun

theorem pow_ne_nan {x : Double} (h : x ≠ .nan) (n : Nat) : x.pow n ≠ .nan := by
  cases x with
  | nan => exact absurd rfl h
  | finite q => exact ofRat_ne_nan _
  | infinite negative =>
    simp only [Double.pow]
    split <;> exact nofun

/-- The product of the base and a power of the factor has a value. -/
theorem Backoff.Defined.product {b : Backoff} (h : b.Defined) (n : Nat) :
    (Double.finite b.baseMs).mul (b.factor.pow n) ≠ .nan := by
  have hpow := pow_ne_nan h.factor n
  cases hp : b.factor.pow n with
  | nan => exact absurd hp hpow
  | finite q => exact ofRat_ne_nan _
  | infinite negative =>
    have hbase : b.baseMs ≠ 0 := by
      rcases h.base with hne | hfinite
      · exact hne
      · obtain ⟨q, hq⟩ := hfinite n
        rw [hp] at hq
        cases hq
    have hzero : ¬(Double.finite (b.baseMs : ℚ) = .finite 0 ∨
        Double.infinite negative = .finite 0) := by
      rintro (heq | heq)
      · exact hbase (Int.cast_eq_zero.1 (Double.finite.inj heq))
      · cases heq
    simp only [Double.mul, if_neg hzero]
    intro hnan
    cases hnan

/-- What has a value and is cut off on both sides is finite. -/
theorem capped_finite {raw : Double} (h : raw ≠ .nan) (maxMs : ℚ) :
    ∃ q, Double.max (.finite 0) (Double.min (.finite maxMs) raw) = .finite q ∧ 0 ≤ q := by
  cases raw with
  | nan => exact absurd rfl h
  | finite q => exact ⟨_, rfl, le_max_left _ _⟩
  | infinite negative =>
    cases negative with
    | false => exact ⟨_, rfl, le_max_left _ _⟩
    | true => exact ⟨0, rfl, le_rfl⟩

theorem backoffDelay_nonneg (attempt : Nat) {backoff : Backoff} (h : backoff.Defined)
    {random : Rat} (hrandom : 0 ≤ random) :
    ∃ delay, backoffDelay attempt backoff random = some delay ∧ 0 ≤ delay := by
  obtain ⟨q, hq, hnonneg⟩ := capped_finite (h.product (max 1 attempt - 1)) backoff.maxMs
  refine ⟨jsRound (Rounding.double.mul random q), ?_, le_jsRound ?_⟩
  · simp only [backoffDelay, hq]
  · rw [Int.cast_zero]
    exact Rounding.double.round_nonneg (mul_nonneg hrandom hnonneg)

/-! ## What one call keeps -/

/-- The invariant of the schedule. -/
structure ScheduleInvariant (cfg : SchedulerConfig) (state : ScheduleState) : Prop where
  interval : ∃ i, state.intervalMs = some i ∧ cfg.schedule.minMs ≤ i ∧ i ≤ cfg.schedule.maxMs
  circuit : state.circuit = .closed ↔ state.consecutiveFailures < cfg.circuit.failures

section
variable {cfg : SchedulerConfig} {state : ScheduleState} {call : ScheduleCall}

theorem clamp_bounds (hcfg : cfg.Valid) (value : Int) :
    cfg.schedule.minMs ≤ clamp value cfg.schedule.minMs cfg.schedule.maxMs ∧
      clamp value cfg.schedule.minMs cfg.schedule.maxMs ≤ cfg.schedule.maxMs := by
  have hle := hcfg.min_le_max
  rw [clamp]
  omega

/-- The interval after a success stays within the bounds. -/
theorem nextInterval_bounds (hcfg : cfg.Valid) {previous : Int} (outcome : SuccessOutcome)
    (hlow : cfg.schedule.minMs ≤ previous) (hhigh : previous ≤ cfg.schedule.maxMs) :
    cfg.schedule.minMs ≤ nextInterval cfg.schedule previous outcome ∧
      nextInterval cfg.schedule previous outcome ≤ cfg.schedule.maxMs := by
  have hmin := hcfg.min_pos
  have hle := hcfg.min_le_max
  simp only [nextInterval]
  split
  · exact ⟨hlow, hhigh⟩
  · split
    · exact ⟨le_rfl, hle⟩
    · split
      · -- grown by half, so no less than before
        have hgrown : previous ≤ jsRound (previous * (3 / 2 : Rat)) := by
          refine le_jsRound ?_
          have hpos : (0 : Rat) ≤ previous := by exact_mod_cast (by omega : (0 : Int) ≤ previous)
          linarith
        exact ⟨le_min hle (hlow.trans hgrown), min_le_left _ _⟩
      · -- halved, so no more than before
        have hhalved : jsRound (previous / (2 : Rat)) ≤ previous := by
          have hone : (1 : Rat) ≤ previous := by exact_mod_cast (by omega : (1 : Int) ≤ previous)
          rw [jsRound]
          have hfloor := Int.floor_le ((previous : Rat) / 2 + 1 / 2)
          have hcast : (((previous : Rat) / 2 + 1 / 2).floor : Rat) ≤ (previous : Rat) := by
            refine hfloor.trans ?_
            linarith
          exact_mod_cast hcast
        exact ⟨le_max_left _ _, max_le hle (hhalved.trans hhigh)⟩

theorem initialScheduleState_invariant (hcfg : cfg.Valid) (now : Int) :
    ScheduleInvariant cfg (initialScheduleState now cfg) where
  interval := ⟨_, rfl, le_rfl, hcfg.min_le_max⟩
  circuit := iff_of_true rfl hcfg.failures

/-- A throttle changes neither the failure count nor the circuit, and reports nothing. -/
theorem afterFailure_throttle (cfg : SchedulerConfig) (state : ScheduleState) (now : Int)
    (random : Rat) {outcome : FailureOutcome} (h : outcome.isThrottle = true) :
    let result := afterFailure state cfg now random outcome
    result.state.consecutiveFailures = state.consecutiveFailures ∧
      result.state.circuit = state.circuit ∧ result.state.intervalMs = state.intervalMs ∧
      result.circuitOpened = false := by
  simp only [afterFailure, if_pos h, and_self]

/-- Any other failure counts, and opens a closed circuit exactly at the limit. -/
theorem afterFailure_counts (cfg : SchedulerConfig) (state : ScheduleState) (now : Int)
    (random : Rat) {outcome : FailureOutcome} (h : outcome.isThrottle = false) :
    let result := afterFailure state cfg now random outcome
    result.state.consecutiveFailures = state.consecutiveFailures + 1 ∧
      result.state.intervalMs = state.intervalMs ∧
      (result.state.circuit = .closed ↔
        state.circuit = .closed ∧ state.consecutiveFailures + 1 < cfg.circuit.failures) ∧
      (result.circuitOpened = true ↔
        state.circuit = .closed ∧ cfg.circuit.failures ≤ state.consecutiveFailures + 1) := by
  simp only [afterFailure, h, Bool.false_eq_true, if_false]
  by_cases hclosed : state.circuit = .closed
  · by_cases hlimit : cfg.circuit.failures ≤ state.consecutiveFailures + 1
    · simp [hclosed, hlimit]
    · simp [hclosed, hlimit, not_le.1 hlimit]
  · simp [hclosed]

/-- Every call keeps the invariant. -/
theorem ScheduleInvariant.perform (hcfg : cfg.Valid) (h : ScheduleInvariant cfg state)
    (call : ScheduleCall) : ScheduleInvariant cfg (call.perform cfg state).1 := by
  cases call with
  | afterSuccess now random outcome =>
    obtain ⟨hlow, hhigh⟩ := clamp_bounds hcfg (state.intervalMs.getD cfg.schedule.minMs)
    obtain ⟨hlow', hhigh'⟩ := nextInterval_bounds hcfg outcome hlow hhigh
    exact ⟨⟨_, rfl, hlow', hhigh'⟩, iff_of_true rfl hcfg.failures⟩
  | afterFailure now random outcome =>
    cases hthrottle : outcome.isThrottle with
    | true =>
      obtain ⟨hcount, hcircuit, hinterval, -⟩ :=
        afterFailure_throttle cfg state now random hthrottle
      refine ⟨?_, ?_⟩
      · exact hinterval ▸ h.interval
      · rw [ScheduleCall.perform, hcount, hcircuit]
        exact h.circuit
    | false =>
      obtain ⟨hcount, hinterval, hcircuit, -⟩ :=
        afterFailure_counts cfg state now random hthrottle
      refine ⟨?_, ?_⟩
      · exact hinterval ▸ h.interval
      · rw [ScheduleCall.perform, hcount, hcircuit, h.circuit]
        omega
  | beginProbe =>
    by_cases hopen : state.circuit = .open
    · have hkeep : ¬ state.consecutiveFailures < cfg.circuit.failures := by
        rw [← h.circuit, hopen]
        exact CircuitState.noConfusion
      rw [ScheduleCall.perform, beginProbe, if_pos hopen]
      exact ⟨h.interval, iff_of_false CircuitState.noConfusion hkeep⟩
    · rw [ScheduleCall.perform, beginProbe, if_neg hopen]
      exact h
  | makeDue now => exact ⟨h.interval, h.circuit⟩

/-! ## Reports -/

/-- The report that comes next: a closed circuit can only open, another one only close. -/
def nextReport (state : ScheduleState) : CircuitReport :=
  if state.circuit = .closed then .circuitOpened else .circuitClosed

/-- A call reports what comes next, or nothing and leaves the same report to come. -/
theorem perform_reports (cfg : SchedulerConfig) (state : ScheduleState) (call : ScheduleCall) :
    (call.perform cfg state).2 = [] ∧ nextReport (call.perform cfg state).1 = nextReport state ∨
      (call.perform cfg state).2 = [nextReport state] ∧
        nextReport (call.perform cfg state).1 = (nextReport state).other := by
  cases call with
  | afterSuccess now random outcome =>
    by_cases hclosed : state.circuit = .closed
    · left
      simp [ScheduleCall.perform, afterSuccess, nextReport, hclosed]
    · right
      simp [ScheduleCall.perform, afterSuccess, nextReport, hclosed, CircuitReport.other]
  | afterFailure now random outcome =>
    cases hthrottle : outcome.isThrottle with
    | true =>
      obtain ⟨-, hcircuit, -, hopened⟩ := afterFailure_throttle cfg state now random hthrottle
      left
      simp [ScheduleCall.perform, nextReport, hcircuit, hopened]
    | false =>
      obtain ⟨-, -, hcircuit, hopened⟩ := afterFailure_counts cfg state now random hthrottle
      by_cases hopens : (afterFailure state cfg now random outcome).circuitOpened = true
      · right
        obtain ⟨hclosed, hlimit⟩ := hopened.1 hopens
        have hopen : (afterFailure state cfg now random outcome).state.circuit ≠ .closed := by
          intro heq
          exact absurd (hcircuit.1 heq).2 (not_lt.2 hlimit)
        simp [ScheduleCall.perform, nextReport, hopens, hclosed, hopen, CircuitReport.other]
      · left
        have hsame : (afterFailure state cfg now random outcome).state.circuit = .closed ↔
            state.circuit = .closed := by
          rw [hcircuit]
          constructor
          · exact And.left
          · intro hclosed
            exact ⟨hclosed, not_le.1 fun hlimit => hopens (hopened.2 ⟨hclosed, hlimit⟩)⟩
        simp [ScheduleCall.perform, nextReport, hopens, hsame]
  | beginProbe =>
    left
    by_cases hopen : state.circuit = .open
    · simp [ScheduleCall.perform, beginProbe, nextReport, hopen]
    · simp [ScheduleCall.perform, beginProbe, nextReport, hopen]
  | makeDue now => exact Or.inl ⟨rfl, rfl⟩

/-- The reports of a sequence alternate. -/
theorem circuitReports_alternate (cfg : SchedulerConfig) (state : ScheduleState)
    (calls : List ScheduleCall) :
    Alternate (nextReport state) (circuitReports cfg state calls) := by
  induction calls generalizing state with
  | nil => exact trivial
  | cons call calls ih =>
    have hrest := ih (call.perform cfg state).1
    rw [circuitReports]
    rcases perform_reports cfg state call with ⟨hnone, hnext⟩ | ⟨hone, hnext⟩
    · rw [hnone, List.nil_append, ← hnext]
      exact hrest
    · rw [hone, List.singleton_append]
      rw [hnext] at hrest
      exact ⟨rfl, hrest⟩

/-- The invariant of a sequence. -/
theorem ScheduleInvariant.run (hcfg : cfg.Valid) (h : ScheduleInvariant cfg state)
    (calls : List ScheduleCall) :
    ScheduleInvariant cfg (afterScheduleCalls cfg state calls) := by
  induction calls generalizing state with
  | nil => exact h
  | cons call calls ih => exact ih (h.perform hcfg call)

/-! ## Due times -/

/-- No call plans a run in the past. -/
theorem perform_plans (hcfg : cfg.Valid) (hbackoff : cfg.schedule.backoff.Defined) (state : ScheduleState) (hdrawn : call.Drawn) {now : Int}
    (hnow : call.plansAt = some now) :
    ∃ due, (call.perform cfg state).1.nextDueAt = some due ∧ now ≤ due := by
  have hprobe := hcfg.probeEveryMs
  cases call with
  | afterSuccess t random outcome =>
    obtain rfl : t = now := Option.some.inj hnow
    have hwait := applyPacing_nonneg
    refine ⟨_, rfl, ?_⟩
    exact Int.le_add_of_nonneg_right (hwait _ _ _)
  | afterFailure t random outcome =>
    obtain rfl : t = now := Option.some.inj hnow
    obtain ⟨delay, hdelay, hnonneg⟩ :=
      backoffDelay_nonneg (state.consecutiveFailures + 1) hbackoff hdrawn.1
    simp only [ScheduleCall.perform, afterFailure]
    split
    · exact ⟨_, rfl, Int.le_add_of_nonneg_right (le_max_left _ _)⟩
    · split
      · exact ⟨_, rfl, by omega⟩
      · split
        · exact ⟨_, rfl, by omega⟩
        · exact ⟨t + delay, by simp only [hdelay, Option.map_some], by omega⟩
  | beginProbe => simp [ScheduleCall.plansAt] at hnow
  | makeDue t =>
    obtain rfl : t = now := Option.some.inj hnow
    exact ⟨_, rfl, le_rfl⟩

/-- The key is held back until `u`: by the throttle, or, once that is past, by its next run. -/
def HeldUntil (u latest : Int) (state : ScheduleState) : Prop :=
  state.throttledUntil = some u ∨ u ≤ latest ∧ ∃ due, state.nextDueAt = some due ∧ u ≤ due

theorem HeldUntil.not_due {u latest t : Int} (h : HeldUntil u latest state) (ht : t < u) :
    isDue state t = false := by
  rcases h with hthrottled | ⟨-, due, hdue, hle⟩
  · simp [isDue, hthrottled, ht]
  · have hlt : t < due := ht.trans_le hle
    simp [isDue, hdue, hlt]

/-- Failures that are no throttle, and probes, keep the key held back. -/
theorem HeldUntil.perform (hcfg : cfg.Valid) (hbackoff : cfg.schedule.backoff.Defined) {u latest : Int} (h : HeldUntil u latest state)
    (hcall : call.Ordinary) (hdrawn : call.Drawn)
    (hlatest : ∀ now, call.plansAt = some now → latest ≤ now) :
    HeldUntil u (call.plansAt.getD latest) (call.perform cfg state).1 := by
  cases call with
  | afterSuccess t random outcome => exact False.elim hcall
  | makeDue t => exact False.elim hcall
  | beginProbe =>
    rw [ScheduleCall.perform, beginProbe]
    split <;> exact h
  | afterFailure t random outcome =>
    have ht := hlatest t rfl
    obtain ⟨due, hdue, hle⟩ := perform_plans hcfg hbackoff state hdrawn (rfl : _ = some t)
    have hthrottled : ((ScheduleCall.afterFailure t random outcome).perform cfg
        state).1.throttledUntil = state.throttledUntil.filter fun u => decide (t < u) := by
      have hno : outcome.isThrottle = false := hcall
      simp only [ScheduleCall.perform, afterFailure, hno, Bool.false_eq_true, if_false]
      split
      · rfl
      · split <;> rfl
    by_cases hactive : t < u
    · rcases h with hown | ⟨hpast, -⟩
      · left
        rw [hthrottled, hown]
        simp [hactive]
      · omega
    · exact Or.inr ⟨not_lt.1 hactive, due, hdue, (not_lt.1 hactive).trans hle⟩

/-- The clock values of a sequence, from the latest on. -/
def ClockFrom : Int → List ScheduleCall → Prop
  | _, [] => True
  | latest, call :: calls =>
    (∀ now, call.plansAt = some now → latest ≤ now) ∧ ClockFrom (call.plansAt.getD latest) calls

/-- A sequence of such calls keeps the key held back. -/
theorem HeldUntil.run (hcfg : cfg.Valid) (hbackoff : cfg.schedule.backoff.Defined) {u latest : Int} (h : HeldUntil u latest state)
    {calls : List ScheduleCall} (hcalls : ∀ call ∈ calls, call.Ordinary)
    (hdrawn : ∀ call ∈ calls, call.Drawn) (hclock : ClockFrom latest calls) {t : Int}
    (ht : t < u) : isDue (afterScheduleCalls cfg state calls) t = false := by
  induction calls generalizing state latest with
  | nil => exact h.not_due ht
  | cons call calls ih =>
    have hstep := h.perform hcfg hbackoff (hcalls call List.mem_cons_self) (hdrawn call List.mem_cons_self)
      hclock.1
    exact ih hstep (fun c hc => hcalls c (List.mem_cons_of_mem _ hc))
      (fun c hc => hdrawn c (List.mem_cons_of_mem _ hc)) hclock.2

end

/-! ## A throttle after a throttle -/

/-- Every second up to every minute, with one failure to the circuit. -/
def briskConfig : SchedulerConfig where
  schedule :=
    { minMs := 1000, maxMs := 60000, adaptive := true, jitter := 0
      backoff := { baseMs := 1000, factor := .finite 2, maxMs := 60000 } }
  circuit := { failures := 1, probeEveryMs := 30 }

theorem briskConfig_valid : briskConfig.Valid :=
  ⟨by decide, by decide, by decide, by decide⟩

theorem briskConfig_defined : briskConfig.schedule.backoff.Defined :=
  ⟨nofun, Or.inl (by decide)⟩

def failedWith (status : Nat) (retryAfterMs : Option Int) : FailureOutcome where
  error := { name := "HttpError", message := "request failed", code := none, status := some status }
  retryAfterMs
  isThrottle := status == 429
  rateLimit := none

/-- A backoff from zero, by a factor whose square overflows. -/
def steepConfig : SchedulerConfig where
  schedule :=
    { minMs := 1000, maxMs := 60000, adaptive := true, jitter := 0
      backoff := { baseMs := 0, factor := .finite (nearest (10 ^ 200)), maxMs := 60000 } }
  circuit := { failures := 5, probeEveryMs := 30 }

end Watukuy
