import Watukuy.Core.Runner

/-!
# Operations of the engine

The administrative operations of `core/engine.ts` on one key: `trigger`, `pause`, `resume`,
`backfill`, `resetCursor`, `replay`, the parked rows. What they do to the daemon's timetable
(`nextDue`, `requestWake`) is left out.
-/

set_option autoImplicit false

namespace Watukuy

open Library

variable {ι : Type}

/-- The schedule an operation starts from. -/
def scheduleOrInitial (deps : RunnerDeps ι) (state : Option PollerState) (at_ : Int) :
    ScheduleState :=
  (state.map (·.schedule)).getD (initialScheduleState at_ (schedulerConfig deps.poller))

def trigger (deps : RunnerDeps ι) : Proc ι Unit := do
  let at_ ← now
  let state ← store .loadState
  let schedule := makeDue (scheduleOrInitial deps state at_) at_
  store (.saveStateUnfenced { schedule := some schedule, updatedAt := some at_ })

def pause : Proc ι Unit := do
  let at_ ← now
  store (.saveStateUnfenced { paused := some true, updatedAt := some at_ })

def resume : Proc ι Unit := do
  let at_ ← now
  store (.saveStateUnfenced { paused := some false, updatedAt := some at_ })

/-- The raw texts of `BackfillOptions`; `to_` may be absent, `null` or a text. -/
structure BackfillOptions where
  from_ : Option String
  to_ : Option (Option String)
  force : Bool

/-- The target of a backfill: the given end, or where the live lane is now. -/
def backfillTarget (strategy : CursorStrategy ι) (to_ : Option (Option String))
    (state : Option PollerState) : Except JsError (Option CursorVal) :=
  match to_ with
  | none => .ok ((state.bind (·.lanes.live)).bind (·.cursor))
  | some none => .ok none
  | some (some raw) => do
    let cursor ← strategy.fromRaw (some raw)
    return some (← strategy.serialize cursor)

def backfill (deps : RunnerDeps ι) (options : BackfillOptions) : Proc ι Unit := do
  let poller := deps.poller
  Task.when (poller.cursor.isSnapshotDiff = true) (throw
    { kind := .config
      name := "ConfigError"
      message := "poller '" ++ poller.name ++
        "' uses snapshotDiff; backfill is meaningless (every cycle is a full scan)" })
  let strategy := getStrategy poller.cursor
  let state ← store .loadState
  let start ← Task.ofExcept (strategy.fromRaw options.from_)
  let cursor ← Task.ofExcept (strategy.serialize start)
  let target ← Task.ofExcept (backfillTarget strategy options.to_ state)
  let at_ ← now
  let lanes : Lanes := (state.map (·.lanes)).getD {}
  let lane : LaneCursor := { cursor := some cursor, target, done := false, force := options.force }
  store (.saveStateUnfenced
    { lanes := some { lanes with backfill := some lane }, updatedAt := some at_ })

structure ResetCursorOptions where
  to_ : Option String
  clearSnapshot : Bool

/-- The cursor a reset goes to; none is the strategy's initial one. -/
def resetTarget (strategy : CursorStrategy ι) : Option String → Except JsError (Option CursorVal)
  | none => .ok none
  | some raw => do
    let cursor ← strategy.fromRaw (some raw)
    return some (← strategy.serialize cursor)

def resetCursor (deps : RunnerDeps ι) (options : ResetCursorOptions) : Proc ι Unit := do
  let strategy := getStrategy deps.poller.cursor
  let state ← store .loadState
  let cursor ← Task.ofExcept (resetTarget strategy options.to_)
  let at_ ← now
  let lanes : Lanes := (state.map (·.lanes)).getD {}
  store (.saveStateUnfenced
    { lanes := some { lanes with live := some { cursor } }
      schedule := some (makeDue (scheduleOrInitial deps state at_) at_)
      updatedAt := some at_ })
  Task.when (options.clearSnapshot = true) (store .clearItems)

def parkedRetry (ids : List String) : Proc ι Nat := store (.retryParked ids)

def parkedDiscard (ids : List String) : Proc ι Nat := store (.discardParked ids)

/-- `partitions.remove`. -/
def removePartition : Proc ι Unit := store .deleteKey

/-! ## Replay -/

/-- `acquireWithRetry`: `n` tries. -/
def acquireWithRetry (deps : RunnerDeps ι) : Nat → Proc ι Lease
  | 0 => throw
    { kind := .store
      name := "WatukuyError"
      message := "could not acquire lease for " ++ deps.key.poller ++ "/" ++ deps.key.partition ++
        ": another instance is polling it" }
  | n + 1 => do
    let at_ ← now
    match ← store (.acquireLease deps.instanceId deps.leaseTtlMs at_) with
    | some lease => return lease
    | none => acquireWithRetry deps n

/-- The outbox rows of logged events, numbered from `sequence + 1`. -/
def replayRows (at_ : Int) : Nat → List (LoggedEvent ι) → List (OutboxRow ι)
  | _, [] => []
  | sequence, l :: rest =>
    { eventId := l.event.id
      sequence := sequence + 1
      event := { l.event with lane := .replay, sequence := sequence + 1, attempt := 0 }
      status := .pending
      attempts := 0
      nextAttemptAt := none
      lastError := none
      createdAt := at_ } :: replayRows at_ (sequence + 1) rest

def replayLoop (lease : Lease) (fromTime : Int) (toTime : Option Int) :
    Nat → Nat → Option Nat → Nat → Proc ι Nat
  | 0, _, _, _ => diverge
  | fuel + 1, sequence, afterSequence, replayed => do
    let logged ← store (.readLog { fromTime := some fromTime, toTime, afterSequence } 500)
    if logged.isEmpty then return replayed
    else
      let at_ ← now
      let rows := replayRows at_ sequence logged
      let sequence := sequence + logged.length
      store (.commitPoll lease
        { statePatch := { sequence := some sequence, updatedAt := some at_ }
          upserts := []
          deletes := []
          events := rows
          log := false })
      if logged.length < 500 then return replayed + rows.length
      else
        replayLoop lease fromTime toTime fuel sequence (logged.getLast?.map (·.sequence))
          (replayed + rows.length)

def replay (deps : RunnerDeps ι) (fromTime : Int) (toTime : Option Int) : Proc ι Nat := do
  Task.when (deps.poller.log = false) (throw
    { kind := .replayUnavailable
      name := "ReplayUnavailableError"
      message := "replay is unavailable for poller '" ++ deps.poller.name ++
        "': enable it with log: \x7b retention: '7d' \x7d in definePoller" })
  let lease ← acquireWithRetry deps 20
  let body : Proc ι Nat := do
    let state ← store .loadState
    replayLoop lease fromTime toTime deps.fuel ((state.map (·.sequence)).getD 0) none 0
  body.finallyDo (store (.releaseLease lease))

/-! ## The calls on a key -/

/-- What a daemon or a user asks for on one key. -/
inductive EngineCall where
  | runKey (opts : RunKeyOptions)
  | trigger
  | pause
  | resume
  | backfill (options : BackfillOptions)
  | resetCursor (options : ResetCursorOptions)
  | replay (fromTime : Int) (toTime : Option Int)
  | parkedRetry (ids : List String)
  | parkedDiscard (ids : List String)
  | removePartition

/-- The program of a call on an instance. -/
def EngineCall.prog (deps : RunnerDeps ι) : EngineCall → Prog (Op ι) Ans Unit
  | .runKey opts => (Watukuy.runKey deps opts).forget
  | .trigger => (Watukuy.trigger deps).forget
  | .pause => Watukuy.pause.forget
  | .resume => Watukuy.resume.forget
  | .backfill options => (Watukuy.backfill deps options).forget
  | .resetCursor options => (Watukuy.resetCursor deps options).forget
  | .replay fromTime toTime => (Watukuy.replay deps fromTime toTime).forget
  | .parkedRetry ids => (Watukuy.parkedRetry ids).forget
  | .parkedDiscard ids => (Watukuy.parkedDiscard ids).forget
  | .removePartition => Watukuy.removePartition.forget

end Watukuy
