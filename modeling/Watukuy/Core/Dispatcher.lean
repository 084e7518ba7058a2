import Watukuy.Core.Effects
import Watukuy.Scheduler.Scheduler

/-!
# The dispatcher

`core/dispatcher.ts` and `core/lease-keeper.ts`: draining the outbox to the consumer, and the
heartbeat of a lease. A round of a drain starts its workers as threads; when one of them rejects,
the drain rejects at once while the others go on in the background.
-/

set_option autoImplicit false

namespace Watukuy

open Library

variable {ι : Type}

/-! ## The lease keeper -/

/-- `beat`, once per `renewEveryMs` until the keeper is stopped. -/
def heartbeat (deps : RunnerDeps ι) (run : Nat) (lease : Lease) : Nat → Proc ι Unit
  | 0 => diverge
  | n + 1 => do
    if ← call (.keeperStopped run) then return ()
    else
      let at_ ← now
      match ← (store (.renewLease lease deps.leaseTtlMs at_)).attempt with
      | .ok false => call (.keeperLose run)
      | _ => heartbeat deps run lease n

/-- `renewNow`: false when the lease is gone. -/
def renewNow (deps : RunnerDeps ι) (run : Nat) (lease : Lease) : Proc ι Bool := do
  if ← call (.keeperStopped run) then
    let lost ← call (.keeperLost run)
    return !lost
  else
    let at_ ← now
    let ok ← store (.renewLease lease deps.leaseTtlMs at_)
    Task.when (ok = false) (call (.keeperLose run))
    return ok

/-! ## Groups -/

/-- The ordering key of an event. -/
def orderingKey (poller : ResolvedPoller ι) (event : WatukuyEvent ι) : String :=
  match poller.delivery.orderingKey with
  | some f => f event
  | none => event.subject

/-- Add a row to the group of its key, or open a group for it. -/
def addToGroup (key : String) (row : OutboxRow ι) : List (Group ι) → List (Group ι)
  | [] => [{ key, rows := [row] }]
  | g :: gs =>
    if g.key = key then { g with rows := g.rows ++ [row] } :: gs
    else g :: addToGroup key row gs

def groupByOrderingKey (poller : ResolvedPoller ι) (rows : List (OutboxRow ι)) :
    List (Group ι) :=
  rows.foldl (fun groups row => addToGroup (orderingKey poller row.event) row groups) []

/-! ## Workers -/

/-- How a worker goes on after a row. -/
inductive RowEnd where
  | next
  | leaveGroup
  | stop
  deriving DecidableEq

/-- `signal.aborted || result.halted`. -/
def stopped (run drain : Nat) : Proc ι Bool := do
  if ← aborted run then return true
  else
    let mem ← call (.peekDrain drain)
    return mem.result.halted

/-- The parked row of an event whose attempts are exhausted. -/
def poisonRow (poller : ResolvedPoller ι) (group : String) (row : OutboxRow ι)
    (error : SerializedError) (failedAt parkedAt : Int) : ParkedRow ι where
  id := row.eventId
  kind := .poison
  event := some row.event
  item := none
  error :=
    { name := error.name
      message := error.message
      code := error.code
      status := error.status
      history :=
        (row.lastError.toList.map fun e => (row.createdAt, e.message)) ++
          [(failedAt, error.message)] }
  attempts := row.attempts + 1
  parkedAt := parkedAt
  holdKey := if poller.delivery.poisonHoldKey then some group else none

/-- The `catch` of a failed delivery: park the event or schedule a retry. -/
def onDeliveryError (deps : RunnerDeps ι) (lease : Lease) (drain : Nat) (group : String)
    (row : OutboxRow ι) (err : JsError) : Proc ι RowEnd :=
  let delivery := deps.poller.delivery
  let error := serializeError err
  if delivery.retryAttempts ≤ row.attempts + 1 then do
    let failedAt ← now
    let parkedAt ← now
    store (.parkEvent lease (poisonRow deps.poller group row error failedAt parkedAt))
    call (.noteDrain drain .parked)
    if delivery.poisonAction = .halt then
      call (.noteDrain drain .halted)
      return .stop
    else if delivery.poisonHoldKey then
      call (.noteDrain drain (.block group))
      return .leaveGroup
    else return .next
  else do
    let draw ← random
    let failedAt ← now
    -- without a value the comparison with the clock fails, and the row is due as without a delay
    let nextAttemptAt := failedAt + (backoffDelay (row.attempts + 1) delivery.retryBackoff draw).getD 0
    store (.recordAttempt lease row.eventId error (some nextAttemptAt))
    call (.noteDrain drain .failed)
    call (.noteDrain drain (.retryAt nextAttemptAt))
    call (.noteDrain drain (.block group))
    return .leaveGroup

/-- `deliver` and `ackEvents` of one row. -/
def deliverAndAck (lease : Lease) (row : OutboxRow ι) : Proc ι Unit := do
  deliver { row.event with attempt := row.attempts + 1 }
  store (.ackEvents lease [row.eventId])

/-- One row of a group. -/
def deliverRow (deps : RunnerDeps ι) (lease : Lease) (drain : Nat) (group : String)
    (row : OutboxRow ι) : Proc ι RowEnd := do
  let startedAt ← now
  match row.nextAttemptAt.filter fun t => decide (startedAt < t) with
  | some t =>
    call (.noteDrain drain (.retryAt t))
    call (.noteDrain drain (.block group))
    return .leaveGroup
  | none =>
    match ← (deliverAndAck lease row).attempt with
    | .ok _ =>
      call (.noteDrain drain .delivered)
      return .next
    | .error err =>
      if err.isLeaseLost then throw err
      else onDeliveryError deps lease drain group row err

/-- The rows of a group, strictly in order. Answers whether the worker takes another group. -/
def deliverRows (deps : RunnerDeps ι) (lease : Lease) (run drain : Nat) (group : String) :
    List (OutboxRow ι) → Proc ι Bool
  | [] => return true
  | row :: rest => do
    if ← stopped run drain then return false
    else
      match ← deliverRow deps lease drain group row with
      | .next => deliverRows deps lease run drain group rest
      | .leaveGroup => return true
      | .stop => return false

/-- `worker`: groups from the queue until it is empty. It never takes more than `n` groups, where
`n` exceeds the length of the queue. -/
def worker (deps : RunnerDeps ι) (lease : Lease) (run drain : Nat) : Nat → Proc ι Unit
  | 0 => diverge
  | n + 1 => do
    match ← call (.shift drain) with
    | none => return ()
    | some group =>
      if ← stopped run drain then return ()
      else if ← deliverRows deps lease run drain group.key group.rows then
        worker deps lease run drain n
      else return ()

/-- A worker as a thread: its outcome settles its promise. -/
def workerThread (deps : RunnerDeps ι) (lease : Lease) (run drain n : Nat) :
    Prog (Op ι) Ans Unit :=
  (worker deps lease run drain n).prog.bind fun res => .call (.workerDone drain res) .ret

/-! ## Draining -/

/-- The groups of the loaded rows that are neither held nor blocked. -/
def openGroups (poller : ResolvedPoller ι) (rows : List (OutboxRow ι))
    (held blocked : List String) : List (Group ι) :=
  (groupByOrderingKey poller rows).filter fun g => g.key ∉ held ∧ g.key ∉ blocked

/-- The loop of `drainOutbox`; `window` widens while everything loaded is held or blocked. -/
def drainLoop (deps : RunnerDeps ι) (lease : Lease) (run drain : Nat) :
    Nat → Nat → Proc ι Unit
  | 0, _ => diverge
  | fuel + 1, window => do
    if ← stopped run drain then return ()
    else
      let rows ← store (.loadPending window)
      if rows.isEmpty then return ()
      else
        let held ← store .heldKeys
        let mem ← call (.peekDrain drain)
        let groups := openGroups deps.poller rows held mem.blocked
        if groups.isEmpty then
          if rows.length < window ∨ deps.dispatchBatchSize * 16 ≤ window then return ()
          else drainLoop deps lease run drain fuel (window * 2)
        else
          call (.startRound deps lease run drain groups)
          let progress ← Task.request (.joinRound drain) id
          if progress = 0 then return ()
          else drainLoop deps lease run drain fuel window

def drainOutbox (deps : RunnerDeps ι) (lease : Lease) (run : Nat) : Proc ι DrainResult := do
  if deps.hasConsumer then
    let drain ← call .newDrain
    drainLoop deps lease run drain deps.fuel deps.dispatchBatchSize
    let remaining ← store .countPending
    let mem ← call (.peekDrain drain)
    return { mem.result with remaining }
  else
    let remaining ← store .countPending
    return { remaining }

end Watukuy
