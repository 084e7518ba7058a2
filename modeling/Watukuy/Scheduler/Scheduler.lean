import Watukuy.Core.Poller
import Mathlib.Data.Rat.Floor

/-!
# Scheduler

`scheduler/scheduler.ts`: when a key runs next. Time and randomness are arguments; `random` is the
value `random.next()` gives when it is drawn. Times and intervals are whole numbers, below `2 ^ 52`,
where sums, halves and one and a half are exact; what jitter and backoff compute is rounded.
-/

set_option autoImplicit false

namespace Watukuy

open Library

/-- `Math.round`. -/
def jsRound (x : Rat) : Int := (x + 1 / 2).floor

def clamp (value lo hi : Int) : Int := min hi (max lo value)

structure SchedulerConfig where
  schedule : ScheduleConfig
  circuit : CircuitConfig

structure SuccessOutcome where
  hadEvents : Bool
  notModified : Bool
  truncated : Bool
  rateLimit : Option RateLimitInfo
  summary : Option PollSummary

structure FailureOutcome where
  error : SerializedError
  retryAfterMs : Option Int
  isThrottle : Bool
  rateLimit : Option RateLimitInfo

def initialScheduleState (now : Int) (cfg : SchedulerConfig) : ScheduleState where
  nextDueAt := some now
  intervalMs := some cfg.schedule.minMs
  consecutiveFailures := 0
  circuit := .closed
  circuitOpenedAt := none
  throttledUntil := none
  rateLimit := none
  lastPollAt := none
  lastPoll := none
  lastError := none

def jittered (intervalMs : Int) (jitter random : Rat) : Int :=
  if 0 < jitter then
    let r := Rounding.double
    let u := r.sub (r.mul random 2) 1
    max 0 (jsRound (r.mul intervalMs (r.add 1 (r.mul u jitter))))
  else max 0 intervalMs

/-- `backoffDelay` in the mode `'full'`, the only one the engine uses; none is `NaN`. The draw is
below 1, so a finite delay stays finite. -/
def backoffDelay (attempt : Nat) (backoff : Backoff) (random : Rat) : Option Int :=
  let n := max 1 attempt
  let raw := (Double.finite backoff.baseMs).mul (backoff.factor.pow (n - 1))
  let capped := Double.max (.finite 0) (Double.min (.finite backoff.maxMs) raw)
  match capped with
  | .finite delay => some (jsRound (Rounding.double.mul random delay))
  | _ => none

def applyPacing (intervalMs : Int) (rateLimit : Option RateLimitInfo) (now : Int) : Int :=
  let base := max 0 intervalMs
  match rateLimit with
  | some { remaining := some remaining, resetAt := some resetAt } =>
    let window := resetAt - now
    if window ≤ 0 then base
    else
      let spacing : Rat := if remaining ≤ 0 then window else (window : Rat) / (max remaining 1 : Int)
      max base spacing.ceil
  | _ => base

structure SuccessResult where
  state : ScheduleState
  circuitClosed : Bool

/-- The interval after a successful cycle: halved after events, grown by 1.5 when idle. -/
def nextInterval (schedule : ScheduleConfig) (previous : Int) (outcome : SuccessOutcome) : Int :=
  let idle := outcome.notModified || !outcome.hadEvents
  if outcome.truncated then previous
  else if !schedule.adaptive then schedule.minMs
  else if idle then min schedule.maxMs (jsRound (previous * (3 / 2 : Rat)))
  else max schedule.minMs (jsRound (previous / (2 : Rat)))

def afterSuccess (state : ScheduleState) (cfg : SchedulerConfig) (now : Int) (random : Rat)
    (outcome : SuccessOutcome) : SuccessResult :=
  let schedule := cfg.schedule
  let previous := clamp (state.intervalMs.getD schedule.minMs) schedule.minMs schedule.maxMs
  let intervalMs := nextInterval schedule previous outcome
  let baseWait := if outcome.truncated then 0 else jittered intervalMs schedule.jitter random
  let wait := applyPacing baseWait outcome.rateLimit now
  { state :=
      { state with
        nextDueAt := some (now + wait)
        intervalMs := some intervalMs
        consecutiveFailures := 0
        circuit := .closed
        circuitOpenedAt := none
        throttledUntil := none
        rateLimit := outcome.rateLimit
        lastPollAt := some now
        lastPoll := outcome.summary.orElse fun _ => state.lastPoll
        lastError := none }
    circuitClosed := state.circuit ≠ .closed }

structure FailureResult where
  state : ScheduleState
  circuitOpened : Bool

def afterFailure (state : ScheduleState) (cfg : SchedulerConfig) (now : Int) (random : Rat)
    (outcome : FailureOutcome) : FailureResult :=
  let rateLimit := outcome.rateLimit.orElse fun _ => state.rateLimit
  if outcome.isThrottle then
    let fallback :=
      clamp (state.intervalMs.getD cfg.schedule.minMs) cfg.schedule.minMs cfg.schedule.maxMs
    let until_ := now + max 0 (outcome.retryAfterMs.getD fallback)
    { state :=
        { state with
          nextDueAt := some until_
          throttledUntil := some until_
          rateLimit
          lastError := some outcome.error }
      circuitOpened := false }
  else
    let consecutiveFailures := state.consecutiveFailures + 1
    let common : ScheduleState :=
      { state with
        consecutiveFailures
        throttledUntil := state.throttledUntil.filter fun t => decide (now < t)
        rateLimit
        lastError := some outcome.error }
    if state.circuit ≠ .closed then
      { state :=
          { common with circuit := .open, nextDueAt := some (now + cfg.circuit.probeEveryMs) }
        circuitOpened := false }
    else if cfg.circuit.failures ≤ consecutiveFailures then
      { state :=
          { common with
            circuit := .open
            circuitOpenedAt := some now
            nextDueAt := some (now + cfg.circuit.probeEveryMs) }
        circuitOpened := true }
    else
      -- a due time that is no number is never later than the clock, as none
      let delay := backoffDelay consecutiveFailures cfg.schedule.backoff random
      { state := { common with nextDueAt := delay.map (now + ·) }, circuitOpened := false }

def isDue (state : ScheduleState) (now : Int) : Bool :=
  let later : Option Int → Bool
    | some t => decide (now < t)
    | none => false
  !later state.nextDueAt && !later state.throttledUntil

def beginProbe (state : ScheduleState) : ScheduleState :=
  if state.circuit = .open then { state with circuit := .halfOpen } else state

def makeDue (state : ScheduleState) (now : Int) : ScheduleState :=
  { state with nextDueAt := some now, throttledUntil := none }

end Watukuy
