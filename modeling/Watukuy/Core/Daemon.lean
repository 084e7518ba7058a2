import Watukuy.Core.Engine

/-!
# The daemon

`runOne` and `nextDueFromState` of `core/engine.ts`: the daemon runs a key that is due and notes when
it is due next. Of `loop`, the handlers of the promise of `runOne` are modelled; the timetable of the
other keys and the timer are left out.
-/

set_option autoImplicit false

namespace Watukuy

open Library

variable {ι : Type}

/-- `MAX_SLEEP_MS`. -/
def maxSleepMs : Int := 30000

def nextDueFromState (poller : ResolvedPoller ι) (state : Option PollerState) (now : Int) : Int :=
  match state with
  | none => now
  | some state =>
    let next := state.schedule.nextDueAt.getD now
    let next := (state.schedule.throttledUntil.map (max next)).getD next
    let next :=
      match poller.reconcileEveryMs with
      | some everyMs =>
        min next (((state.lanes.reconcile.bind (·.lastRunAt)).map (· + everyMs)).getD now)
      | none => next
    let next := if backfillActive state then min next now else next
    max next now

/-- When `runOne` wants the key to run again, before delivery retries. -/
def nextDue (deps : RunnerDeps ι) (result : RunKeyResult) (now : Int) : Int :=
  if result.reason = some .leased then now + max 1000 (deps.leaseTtlMs / 2)
  else if result.reason = some .paused then now + maxSleepMs
  else nextDueFromState deps.poller result.state now

def runOne (deps : RunnerDeps ι) (opts : RunKeyOptions) : Proc ι (RunKeyResult × Int) := do
  let result ← runKey deps opts
  let at_ ← now
  let next := nextDue deps result at_
  return (result, (result.nextRetryAt.map (min next)).getD next)

/-- The handlers `loop` attaches to `runOne`: what it notes as the next due time. -/
def noteNext (deps : RunnerDeps ι) : Except JsError (RunKeyResult × Int) → Proc ι Int
  | .ok (_, next) => return next
  | .error _ => do
    let at_ ← now
    return at_ + deps.poller.schedule.minMs

end Watukuy
