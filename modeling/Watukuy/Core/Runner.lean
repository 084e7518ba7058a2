import Watukuy.Core.Dispatcher
import Watukuy.Diff.Diff
import Watukuy.Diff.EventId
import Watukuy.Http.Client

/-!
# The runner

`core/runner.ts`: `runKey` takes the lease of a key, drains its outbox and runs the cycles of its
lanes. A cycle fetches pages until its listing ends, commits each page, deletes what a full scan
did not see, and saves its lane and schedule.

The local variables of `runCycle` are a record, `CycleLocals`, so that the `catch` of the source
sees what was assigned before the throw.
-/

set_option autoImplicit false

namespace Watukuy

open Library Block

variable {ι : Type}

/-! ## Helpers of the module -/

/-- `FULL_SCAN_PAGE_CAP`. -/
def fullScanPageCap : Nat := 10000

def isAbortError (err : JsError) : Bool :=
  err.name == "AbortError" || "watukuy: lease lost".toList.isPrefixOf err.message.toList

def schedulerConfig (poller : ResolvedPoller ι) : SchedulerConfig where
  schedule := poller.schedule
  circuit := poller.circuit

def emptyState (now : Int) (poller : ResolvedPoller ι) : PollerState where
  lanes := {}
  schedule := initialScheduleState now (schedulerConfig poller)
  paused := false
  schemaVersion := none
  sequence := 0
  createdAt := now
  updatedAt := now

def reconcileDue (poller : ResolvedPoller ι) (state : PollerState) (now : Int) : Bool :=
  match poller.reconcileEveryMs with
  | none => false
  | some everyMs =>
    match state.lanes.reconcile.bind (·.lastRunAt) with
    | none => true
    | some last => decide (last + everyMs ≤ now)

def backfillActive (state : PollerState) : Bool :=
  match state.lanes.backfill with
  | some lane => !lane.done
  | none => false

/-! ## Events -/

/-- What distinguishes one event of a commit from the others. -/
structure EventSpec (ι : Type) where
  type : EventType
  identity : String
  /-- Version or hash. -/
  version : String
  data : Option ι
  previous : Option ι

/-- The outbox row `buildEventRow` builds. -/
def eventRow (deps : RunnerDeps ι) (lane : Lane) (spec : EventSpec ι) (sequence : Nat)
    (cursor : CursorVal) (now : Int) : OutboxRow ι :=
  let id := eventId deps.crypto
    { source := deps.poller.source
      partition := deps.key.partition
      identity := spec.identity
      version := spec.version
      schemaVersion := deps.poller.schemaVersion
      type := spec.type }
  { eventId := id
    sequence
    event :=
      { id
        type := spec.type
        source := deps.poller.source
        subject := spec.identity
        time := now
        poller := deps.key.poller
        partition := deps.key.partition
        lane
        sequence
        cursor
        data := spec.data
        previous := spec.previous
        attempt := 0 }
    status := .pending
    attempts := 0
    nextAttemptAt := none
    lastError := none
    createdAt := now }

/-- `buildEventRow` for each event in turn, numbered from `sequence + 1`. -/
def buildRows (deps : RunnerDeps ι) (lane : Lane) (cursor : CursorVal) :
    Nat → List (EventSpec ι) → Proc ι (List (OutboxRow ι))
  | _, [] => return []
  | sequence, spec :: rest => do
    let at_ ← now
    let rows ← buildRows deps lane cursor (sequence + 1) rest
    return eventRow deps lane spec (sequence + 1) cursor at_ :: rows

def changeSpec (c : Change ι) : EventSpec ι where
  type := c.type
  identity := c.identity
  version := c.version.getD c.hash
  data := some c.item
  previous := c.previous

/-- The `deleted` event of a stored row. -/
def deleteSpec (poller : ResolvedPoller ι) (identity : String) (row : ItemRow ι) :
    EventSpec ι where
  type := .deleted
  identity := identity
  version := row.version.getD row.hash
  data := if poller.retain = .payload then row.payload else none
  previous := if poller.retain = .payload then row.payload else none

/-- The re-emitted event of a known, unchanged item in a forced backfill. -/
def forcedSpec (poller : ResolvedPoller ι) (identity : String) (item : ι) (row : ItemRow ι) :
    EventSpec ι where
  type := .updated
  identity := identity
  version := row.version.getD row.hash
  data := some item
  previous := if poller.retain = .payload then row.payload else none

/-- The events a forced backfill adds: one for each occurrence of a known, unchanged identity. -/
def forcedSpecs (poller : ResolvedPoller ι) (valid : List ι)
    (existing : OrderedMap String (ItemRow ι)) (changes : List (Change ι)) :
    List (EventSpec ι) :=
  (valid.map poller.identity).filterMap fun identity =>
    match identity with
    | .string s =>
      if s ∈ changes.map (·.identity) then none
      else
        match valid.reverse.find? fun item => poller.identity item = .string s, existing.get s with
        | some item, some row => some (forcedSpec poller s item row)
        | _, _ => none
    | _ => none

/-! ## Pages -/

/-- `validateItems`: the parsed valid items, and the invalid ones with their issues. -/
def validateItems (poller : ResolvedPoller ι) :
    List ι → Except JsError (List ι × List (ι × List ValidationIssue))
  | [] => .ok ([], [])
  | item :: rest =>
    match poller.validate with
    | none => do
      let (valid, invalid) ← validateItems poller rest
      return (item :: valid, invalid)
    | some validate => do
      match ← validate item with
      | .ok value =>
        let (valid, invalid) ← validateItems poller rest
        return (value :: valid, invalid)
      | .error issues =>
        let (valid, invalid) ← validateItems poller rest
        return (valid, (item, issues) :: invalid)

/-- The parked row of a quarantined item. -/
def quarantineRow (deps : RunnerDeps ι) (now : Int) (inv : ι × List ValidationIssue) :
    ParkedRow ι where
  id := "invalid:" ++
    String.ofList ((deps.crypto.sha256Hex (deps.poller.itemJson inv.1)).toList.take 32)
  kind := .invalid
  event := none
  item := some inv.1
  error :=
    { name := "ValidationError"
      message := "; ".intercalate (inv.2.map (·.message))
      issues := inv.2 }
  attempts := 0
  parkedAt := now
  holdKey := none

structure PageCommit (ι : Type) where
  upserts : List (ItemRow ι)
  events : List (OutboxRow ι)
  parked : List (ParkedRow ι)
  sequence : Nat
  created : Nat
  updated : Nat
  /-- What the page adds to `seen`. -/
  identities : List IdentityValue

/-- What stays fixed during a cycle. -/
structure Cycle (ι : Type) where
  deps : RunnerDeps ι
  lease : Lease
  run : Nat
  deadline : Option Int
  lane : Lane
  /-- `laneState`. -/
  start : LaneCursor
  target : Option CursorVal
  startedAt : Int

namespace Cycle

/-- The reconcile lane pages from 1, whatever the poller's strategy. -/
def config (c : Cycle ι) : CursorConfig ι :=
  if c.lane = .reconcile then .page { initial := some 1 } else c.deps.poller.cursor

def strategy (c : Cycle ι) : CursorStrategy ι := getStrategy c.config

def isFullScan (c : Cycle ι) : Bool := c.lane = .reconcile || c.config.isSnapshotDiff

def force (c : Cycle ι) : Bool := c.lane = .backfill && c.start.force

def pageCap (c : Cycle ι) : Nat :=
  if c.isFullScan then fullScanPageCap else c.deps.poller.maxPagesPerCycle

end Cycle

/-- The events of a page: its changes, then what a forced backfill re-emits. -/
def pageSpecs (c : Cycle ι) (valid : List ι) (existing : OrderedMap String (ItemRow ι))
    (changes : List (Change ι)) : List (EventSpec ι) :=
  changes.map changeSpec ++
    if c.force then forcedSpecs c.deps.poller valid existing changes else []

/-- `processPage`. -/
def processPage (c : Cycle ι) (rawItems : List ι) (sequenceStart : Nat)
    (cursorAfterPage : CursorVal) : Proc ι (PageCommit ι) := do
  let poller := c.deps.poller
  let at_ ← now
  let (valid, invalid) ← Task.ofExcept (validateItems poller rawItems)
  Task.when (invalid ≠ [] ∧ poller.onInvalid = .fail)
    (throw (validationError ((invalid.head?.map (·.2)).getD [])))
  let parked :=
    if poller.onInvalid = .quarantine then invalid.map (quarantineRow c.deps at_) else []
  let identities := valid.map poller.identity
  let existing ← store (.loadVersions identities)
  let (candidates, _) ← Task.ofExcept (prepareCandidates c.deps.crypto poller valid existing)
  let diff := diffCandidates poller existing at_ c.isFullScan candidates
  let specs := pageSpecs c valid existing diff.changes
  let events ← buildRows c.deps c.lane cursorAfterPage sequenceStart specs
  return {
    upserts := diff.upserts
    events
    parked
    sequence := sequenceStart + specs.length
    created := (specs.filter fun s => s.type = .created).length
    updated := (specs.filter fun s => s.type = .updated).length
    identities := if c.isFullScan then identities else [] }

/-! ## The cycle -/

/-- The local variables of `runCycle`. -/
structure CycleLocals where
  state : PollerState
  sequence : Nat
  cursor : CursorVal
  summary : PollSummary
  seen : List IdentityValue
  lastRateLimit : Option RateLimitInfo
  lastDrain : Option DrainResult
  sawNotModified : Bool
  halted : Bool
  done : Bool

/-- `openCircuitForHalt`. -/
def openCircuitForHalt (deps : RunnerDeps ι) (lease : Lease) (state : PollerState) :
    Proc ι PollerState := do
  let at_ ← now
  let schedule : ScheduleState :=
    { state.schedule with
      circuit := .open
      circuitOpenedAt := some at_
      nextDueAt := some (at_ + deps.poller.circuit.probeEveryMs)
      consecutiveFailures := max state.schedule.consecutiveFailures deps.poller.circuit.failures
      lastError := some
        { name := "PoisonHalt"
          message := "poison event with action \"halt\"; circuit opened"
          code := none
          status := none } }
  store (.saveState lease { schedule := some schedule, updatedAt := some at_ })
  return { state with schedule, updatedAt := at_ }

/-- The client behind `ctx.http` of a cycle. -/
def Cycle.http (c : Cycle ι) : HttpClientDeps CycleLocals where
  crypto := c.deps.crypto
  lease := c.lease
  run := c.run
  charged := c.deps.hasBudget && c.deps.poller.budgeted
  defaultCost := c.deps.poller.budgetCost
  onNotModified s := { s with sawNotModified := true }
  onRateLimit info s := { s with lastRateLimit := some info }

/-- `deps.deadline !== null && clock.now() >= deps.deadline`. -/
def pastDeadline (c : Cycle ι) : Proc ι Bool :=
  match c.deadline with
  | none => return false
  | some deadline => do
    let at_ ← now
    return decide (deadline ≤ at_)

/-- `laneNext`: the lane as persisted with a page. -/
def laneNext (c : Cycle ι) (cursor : CursorVal) : LaneCursor :=
  match c.lane with
  | .backfill => { c.start with cursor := some cursor, done := false, force := c.force }
  | .reconcile => { c.start with cursor := some cursor, done := false }
  | _ => { c.start with cursor := some cursor }

/-- The batch of a page. -/
def pageBatch (c : Cycle ι) (s : CycleLocals) (commit : PageCommit ι) (cursor : CursorVal)
    (updatedAt : Int) : CommitBatch ι where
  statePatch :=
    { lanes := some (s.state.lanes.set c.lane (laneNext c cursor))
      schedule := some s.state.schedule
      schemaVersion := some (some c.deps.poller.schemaVersion)
      sequence := some s.sequence
      updatedAt := some updatedAt }
  upserts := commit.upserts
  deletes := []
  events := commit.events
  log := c.deps.poller.log
  parked := commit.parked

/-- Whether a backfill has reached its target. -/
def targetReached (c : Cycle ι) (cursor : CursorVal) : Except JsError Bool :=
  match c.target with
  | some target => if c.lane = .backfill then c.strategy.reached cursor target else .ok false
  | none => .ok false

def CycleLocals.countPage (s : CycleLocals) : CycleLocals :=
  { s with summary := { s.summary with pages := s.summary.pages + 1 } }

/-- The variables after `processPage`. -/
def CycleLocals.afterPage (s : CycleLocals) (adv : AdvanceResult ι) (commit : PageCommit ι) :
    CycleLocals :=
  { s with
    sequence := commit.sequence
    cursor := adv.cursor
    done := adv.done
    seen := s.seen ++ commit.identities
    summary :=
      { s.summary with
        items := s.summary.items + adv.items.length
        events :=
          { s.summary.events with
            created := s.summary.events.created + commit.created
            updated := s.summary.events.updated + commit.updated } } }

/-- The variables after the commit of a page. -/
def CycleLocals.afterCommit (c : Cycle ι) (cursor : CursorVal) (savedAt : Int) (s : CycleLocals) :
    CycleLocals :=
  { s with
    state :=
      { s.state with
        lanes := s.state.lanes.set c.lane (laneNext c cursor)
        sequence := s.sequence
        schemaVersion := some c.deps.poller.schemaVersion
        updatedAt := savedAt } }

/-- The commit of a page. -/
def savePage (c : Cycle ι) (commit : PageCommit ι) (cursor : CursorVal) :
    Body ι CycleLocals Unit := do
  let s ← locals
  let updatedAt ← await now
  await (store (.commitPoll c.lease (pageBatch c s commit cursor updatedAt)))
  let savedAt ← await now
  assign (CycleLocals.afterCommit c cursor savedAt)

/-- A page up to its commit. Answers whether the page has events. -/
def commitPage (c : Cycle ι) (page : Page ι) : Body ι CycleLocals Bool := do
  assign CycleLocals.countPage
  let at_ ← await now
  let s ← locals
  let adv ← await (Task.ofExcept (c.strategy.advance s.cursor
    { items := page.items, pageCursor := page.cursor, hasMore := page.hasMore, now := at_ }))
  let cursor ← await (Task.ofExcept (c.strategy.serialize adv.cursor))
  let commit ← await (processPage c adv.items s.sequence cursor)
  assign fun s => s.afterPage adv commit
  let reached ← await (Task.ofExcept (targetReached c adv.cursor))
  when (reached = true) (assign fun s => { s with done := true })
  savePage c commit cursor
  return !commit.events.isEmpty

/-- Drain after a page commit with events; a poison halt opens the circuit. Answers whether it
halted. -/
def drainPage (c : Cycle ι) : Body ι CycleLocals Bool := do
  let drain ← await (drainOutbox c.deps c.lease c.run)
  assign fun s => { s with lastDrain := some drain }
  if drain.halted then
    let s ← locals
    let state ← await (openCircuitForHalt c.deps c.lease s.state)
    assign fun s => { s with state, halted := true, done := true }
    return true
  else return false

/-- How the loop over the pages of one fetch call goes on after a page. -/
inductive PageEnd where
  | next
  /-- `break`. -/
  | leave
  /-- `break outer`. -/
  | leaveOuter
  deriving DecidableEq

def truncate_ (s : CycleLocals) : CycleLocals :=
  { s with summary := { s.summary with truncated := true } }

/-- The guards at the end of a page. -/
def afterPage (c : Cycle ι) : Body ι CycleLocals PageEnd := do
  let held ← await (renewNow c.deps c.run c.lease)
  if held then
    let s ← locals
    if s.done then return .leave
    else if ← await (aborted c.run) then return .leave
    else if ← await (pastDeadline c) then
      assign truncate_
      return .leaveOuter
    else if c.pageCap ≤ s.summary.pages then
      assign truncate_
      return .leaveOuter
    else return .next
  else throw (leaseLostError c.deps.key.poller c.deps.key.partition c.lease.epoch)

/-- The body of `for await (const page of pages)`. -/
def onPage (c : Cycle ι) (page : Page ι) : Body ι CycleLocals PageEnd := do
  if ← commitPage c page then
    if ← drainPage c then return .leaveOuter
    else afterPage c
  else afterPage c

/-- How one fetch call ended: with its pages counted, or by leaving the outer loop. -/
inductive FetchEnd where
  | pages (pagesInCall : Nat)
  | outer

/-- `for await (const page of pages)` together with the requests the fetch function makes. -/
def forAwait (c : Cycle ι) : UserCode ι → Nat → Body ι CycleLocals FetchEnd
  | .finish, pagesInCall => return .pages pagesInCall
  | .raise e, _ => throw e
  | .page page rest, pagesInCall => do
    await (call (.next page rest))
    match ← onPage c page with
    | .next => forAwait c rest (pagesInCall + 1)
    | .leave => return .pages (pagesInCall + 1)
    | .leaveOuter => return .outer
  | .request r k, pagesInCall => do
    let res ← (request c.http r).attempt
    await (call (.resume res))
    forAwait c (k res) pagesInCall

/-- The cursor of a request: `overlap` and the like apply to the first of a cycle only. -/
def fetchCursor (c : Cycle ι) (s : CycleLocals) : Proc ι CursorVal :=
  if s.summary.pages = 0 then do
    let at_ ← now
    Task.ofExcept (c.strategy.forFetch s.cursor at_)
  else return s.cursor

/-- One fetch call and its pages. -/
def fetchPages (c : Cycle ι) : Body ι CycleLocals FetchEnd := do
  let s ← locals
  let cursor ← await (fetchCursor c s)
  let ctx : FetchContext :=
    { cursor, page := s.summary.pages + 1, lane := c.lane, attempt := 1 }
  let code ← await (call (.fetch c.lane ctx))
  forAwait c code 0

/-- The outer loop. Every round that does not end it takes a page, so the page cap bounds it. -/
def scan (c : Cycle ι) : Nat → Body ι CycleLocals Unit
  | 0 => await diverge
  | n + 1 => do
    let s ← locals
    if s.done then return ()
    else
      await (throwIfAborted c.run)
      if ← await (pastDeadline c) then assign truncate_
      else if c.pageCap ≤ s.summary.pages then assign truncate_
      else
        match ← fetchPages c with
        | .outer => return ()
        | .pages pagesInCall =>
          -- an empty iterable, or one that is exhausted, ends the cycle
          when (pagesInCall ≠ 1) (assign fun s => { s with done := true })
          scan c n

/-- The batch of the delete phase. -/
def deleteBatch (c : Cycle ι) (s : CycleLocals) (missing : List String)
    (events : List (OutboxRow ι)) (updatedAt : Int) : CommitBatch ι where
  statePatch :=
    { schedule := some s.state.schedule
      sequence := some s.sequence
      updatedAt := some updatedAt }
  upserts := []
  deletes := missing
  events := events
  log := c.deps.poller.log

/-- `sequence += n`. -/
def CycleLocals.advance (n : Nat) (s : CycleLocals) : CycleLocals :=
  { s with sequence := s.sequence + n }

/-- The variables after the delete commit of `n` events. -/
def CycleLocals.afterDeletes (n : Nat) (savedAt : Int) (s : CycleLocals) : CycleLocals :=
  { s with
    state := { s.state with sequence := s.sequence, updatedAt := savedAt }
    summary :=
      { s.summary with events := { s.summary.events with deleted := s.summary.events.deleted + n } } }

/-- The `deleted` events and their commit. -/
def deleteMissing (c : Cycle ι) (missing : List String) : Body ι CycleLocals Unit := do
  let rows ← await (store (.loadVersions (missing.map .string)))
  let specs := missing.filterMap fun id => (rows.get id).map (deleteSpec c.deps.poller id)
  let s ← locals
  let cursor ← await (Task.ofExcept (c.strategy.serialize s.cursor))
  let events ← await (buildRows c.deps c.lane cursor s.sequence specs)
  assign (CycleLocals.advance specs.length)
  let s ← locals
  let updatedAt ← await now
  await (store (.commitPoll c.lease (deleteBatch c s missing events updatedAt)))
  let savedAt ← await now
  assign (CycleLocals.afterDeletes events.length savedAt)
  when (events ≠ []) do
    let drain ← await (drainOutbox c.deps c.lease c.run)
    assign fun s => { s with lastDrain := some drain }

/-- Full scans: everything not seen is deleted once the whole listing completed. -/
def deletePhase (c : Cycle ι) : Body ι CycleLocals Unit := do
  let s ← locals
  when (s.done && c.isFullScan && !s.summary.truncated && !s.sawNotModified && !s.halted) do
    let batches ← await (store .streamIdentities)
    let missing := batches.flatMap fun ids => detectDeletes ids s.seen
    when (missing ≠ []) (deleteMissing c missing)

structure TickPollResult where
  lane : Lane
  items : Nat
  events : Nat
  delivered : Nat
  durationMs : Int
  error : Option SerializedError

structure CycleResult where
  state : PollerState
  result : TickPollResult
  drain : Option DrainResult
  aborted : Bool

def EventCounts.total (e : EventCounts) : Nat := e.created + e.updated + e.deleted

/-- `laneFinal`: the lane as persisted at the end of the cycle. -/
def laneFinal (c : Cycle ι) (done : Bool) (cursor : CursorVal) (endedAt : Int) :
    Except JsError LaneCursor :=
  match c.lane with
  | .reconcile =>
    .ok { cursor := none, lastRunAt := if done then some endedAt else c.start.lastRunAt, done }
  | .backfill => do
    let raw ← c.strategy.serialize cursor
    return { cursor := some raw, target := c.start.target, done, force := c.force }
  | _ => do
    let raw ← c.strategy.serialize cursor
    return { cursor := some raw }

/-- The schedule after a cycle that did not fail. -/
def scheduleAfter (c : Cycle ι) (s : CycleLocals) (at_ : Int) (draw : Rat) : ScheduleState :=
  if s.halted then
    { s.state.schedule with lastPoll := some s.summary, lastPollAt := some at_ }
  else if c.lane = .live then
    (afterSuccess s.state.schedule (schedulerConfig c.deps.poller) at_ draw
      { hadEvents := 0 < s.summary.events.total
        notModified := s.summary.notModified
        truncated := s.summary.truncated
        rateLimit := s.lastRateLimit
        summary := some s.summary }).state
  else { s.state.schedule with lastPoll := some s.summary }

/-- A finished listing hands its cursor to the strategy. -/
def CycleLocals.complete (c : Cycle ι) (s : CycleLocals) : CycleLocals :=
  { s with cursor := if s.done then c.strategy.onCycleComplete s.cursor else s.cursor }

/-- The summary at the end of the cycle. -/
def CycleLocals.summarize (c : Cycle ι) (endedAt : Int) (s : CycleLocals) : CycleLocals :=
  { s with
    summary :=
      { s.summary with
        durationMs := endedAt - c.startedAt
        notModified := s.sawNotModified && s.summary.items == 0 } }

/-- The variables after the end-of-cycle save. -/
def CycleLocals.afterSave (lanes : Lanes) (schedule : ScheduleState) (updatedAt : Int)
    (s : CycleLocals) : CycleLocals :=
  { s with state := { s.state with lanes, schedule, sequence := s.sequence, updatedAt } }

/-- The patch of the end-of-cycle save. -/
def finalPatch (s : CycleLocals) (lanes : Lanes) (schedule : ScheduleState) (updatedAt : Int) :
    StatePatch where
  lanes := some lanes
  schedule := some schedule
  sequence := some s.sequence
  updatedAt := some updatedAt

/-- The result of a cycle that did not fail. -/
def cycleResult (c : Cycle ι) (s : CycleLocals) : CycleResult where
  state := s.state
  result :=
    { lane := c.lane
      items := s.summary.items
      events := s.summary.events.total
      delivered := (s.lastDrain.map (·.delivered)).getD 0
      durationMs := s.summary.durationMs
      error := none }
  drain := s.lastDrain
  aborted := false

/-- The end-of-cycle bookkeeping. -/
def finishCycle (c : Cycle ι) : Body ι CycleLocals CycleResult := do
  assign (CycleLocals.complete c)
  let s ← locals
  let endedAt ← await now
  let lane ← await (Task.ofExcept (laneFinal c s.done s.cursor endedAt))
  assign (CycleLocals.summarize c endedAt)
  let s ← locals
  let at_ ← await now
  let draw ← await random
  let schedule := scheduleAfter c s at_ draw
  let updatedAt ← await now
  let lanes := s.state.lanes.set c.lane lane
  await (store (.saveState c.lease (finalPatch s lanes schedule updatedAt)))
  assign (CycleLocals.afterSave lanes schedule updatedAt)
  await (call (.pollEnd c.lane))
  let s ← locals
  return cycleResult c s

/-- The result of a cycle that ended with an error. -/
def errorResult (c : Cycle ι) (s : CycleLocals) (events : Nat) (err : JsError) (endedAt : Int)
    (aborted : Bool) : CycleResult where
  state := s.state
  result :=
    { lane := c.lane
      items := s.summary.items
      events
      delivered := (s.lastDrain.map (·.delivered)).getD 0
      durationMs := endedAt - c.startedAt
      error := some (serializeError err) }
  drain := s.lastDrain
  aborted

/-- The schedule after a failed cycle. -/
def scheduleAfterFailure (c : Cycle ι) (s : CycleLocals) (err : JsError) (at_ : Int)
    (draw : Rat) : ScheduleState :=
  if c.lane = .live then
    (afterFailure s.state.schedule (schedulerConfig c.deps.poller) at_ draw
      { error := serializeError err
        retryAfterMs := err.retryAfterMs
        isThrottle := err.isThrottle
        rateLimit := err.rateLimit }).state
  else { s.state.schedule with lastError := some (serializeError err) }

/-- The patch of a failed cycle. -/
def failurePatch (s : CycleLocals) (schedule : ScheduleState) (updatedAt : Int) : StatePatch where
  schedule := some schedule
  sequence := some s.sequence
  updatedAt := some updatedAt

/-- The variables after the save of a failed cycle. -/
def CycleLocals.afterFailure (schedule : ScheduleState) (s : CycleLocals) : CycleLocals :=
  { s with state := { s.state with schedule, sequence := s.sequence } }

/-- A failed cycle: save the schedule, report the error. -/
def failCycle (c : Cycle ι) (err : JsError) : Body ι CycleLocals CycleResult := do
  let s ← locals
  let at_ ← await now
  let draw ← await random
  let schedule := scheduleAfterFailure c s err at_ draw
  let updatedAt ← await now
  let saved ← await (store (.saveState c.lease (failurePatch s schedule updatedAt))).attempt
  match saved with
  | .error e =>
    when (e.isLeaseLost = true) (throw e)
  | .ok _ => pure ()
  assign (CycleLocals.afterFailure schedule)
  let endedAt ← await now
  await (call (.pollEnd c.lane))
  let s ← locals
  return errorResult c s s.summary.events.total err endedAt false

/-- The `catch` of `runCycle`. -/
def onCycleError (c : Cycle ι) (err : JsError) : Body ι CycleLocals CycleResult := do
  if err.isLeaseLost then throw err
  else
    let reason ← await (call (.signal c.run))
    let lost ← await (call (.keeperLost c.run))
    if reason.isSome ∧ lost then
      throw (leaseLostError c.deps.key.poller c.deps.key.partition c.lease.epoch)
    else if reason.isSome ∧ isAbortError err then
      let s ← locals
      let endedAt ← await now
      return errorResult c s 0 err endedAt true
    else failCycle c err

/-- The `try` of `runCycle`. -/
def cycleBody (c : Cycle ι) : Body ι CycleLocals CycleResult := do
  scan c (c.pageCap + 1)
  deletePhase c
  finishCycle c

/-- The variables a cycle starts with. -/
def CycleLocals.init (lane : Lane) (state : PollerState) (cursor : CursorVal) (startedAt : Int) :
    CycleLocals where
  state
  sequence := state.sequence
  cursor
  summary :=
    { lane
      startedAt
      durationMs := 0
      pages := 0
      items := 0
      events := { created := 0, updated := 0, deleted := 0 }
      notModified := false
      truncated := false }
  seen := []
  lastRateLimit := state.schedule.rateLimit
  lastDrain := none
  sawNotModified := false
  halted := false
  done := false

/-- The cursor a cycle starts with. -/
def startCursor (c : Cycle ι) : Except JsError CursorVal :=
  match c.start.cursor with
  | some raw => c.strategy.deserialize raw
  | none => .ok c.strategy.initial

/-- The target of a backfill. -/
def startTarget (c : Cycle ι) : Except JsError (Option CursorVal) :=
  match c.start.target with
  | some raw => if c.lane = .backfill then (c.strategy.deserialize raw).map some else .ok none
  | none => .ok none

/-- `runCycle`. -/
def runCycle (deps : RunnerDeps ι) (lease : Lease) (run : Nat) (deadline : Option Int)
    (startState : PollerState) (lane : Lane) : Proc ι CycleResult := do
  let startedAt ← now
  call (.pollStart lane)
  let start := (startState.lanes.get lane).getD { cursor := none }
  let c : Cycle ι := { deps, lease, run, deadline, lane, start, target := none, startedAt }
  let cursor ← Task.ofExcept (startCursor c)
  let target ← Task.ofExcept (startTarget c)
  let c := { c with target }
  Block.run (MonadExceptOf.tryCatch (cycleBody c) (onCycleError c))
    (.init lane startState cursor startedAt)

/-! ## runKey -/

inductive RunReason where
  | notDue
  | paused
  | leased
  | aborted
  deriving DecidableEq

structure RunKeyOptions where
  deadline : Option Int
  force : Bool

structure RunKeyResult where
  ran : Bool := false
  reason : Option RunReason := none
  results : List TickPollResult := []
  state : Option PollerState := none
  nextRetryAt : Option Int := none
  leaseLost : Bool := false
  drainedBefore : Nat := 0

/-- The local variables of `runKey` under the lease. -/
structure KeyLocals where
  out : RunKeyResult
  state : PollerState

def noteRetry (out : RunKeyResult) (drain : Option DrainResult) : RunKeyResult :=
  match drain.bind (·.nextRetryAt) with
  | none => out
  | some t => { out with nextRetryAt := earliest out.nextRetryAt t }

/-- What `runKey` fixes once it has the lease. -/
structure Held (ι : Type) where
  deps : RunnerDeps ι
  opts : RunKeyOptions
  lease : Lease
  run : Nat

/-- Run the cycle of a lane. Answers whether it was aborted. -/
def runLane (h : Held ι) (lane : Lane) : Body ι KeyLocals Bool := do
  let s ← locals
  let r ← await (runCycle h.deps h.lease h.run h.opts.deadline s.state lane)
  assign fun s =>
    { state := r.state
      out := noteRetry { s.out with results := s.out.results ++ [r.result] } r.drain }
  when (r.aborted = true) (assign fun s => { s with out := { s.out with reason := some .aborted } })
  return r.aborted

def liveLane (h : Held ι) (halted : Bool) : Body ι KeyLocals Bool := do
  let at_ ← await now
  let s ← locals
  if !halted && (h.opts.force || isDue s.state.schedule at_) then
    when (s.state.schedule.circuit = .open) (assign fun s =>
      { s with state := { s.state with schedule := beginProbe s.state.schedule } })
    runLane h .live
  else return false

def reconcileLane (h : Held ι) (halted : Bool) : Body ι KeyLocals Bool := do
  let at_ ← await now
  let s ← locals
  if !halted && reconcileDue h.deps.poller s.state at_ then
    if ← await (aborted h.run) then return false
    else runLane h .reconcile
  else return false

def backfillLane (h : Held ι) (halted : Bool) : Body ι KeyLocals Bool := do
  let s ← locals
  if !halted && backfillActive s.state then
    if ← await (aborted h.run) then return false
    else runLane h .backfill
  else return false

/-- The lanes in their order; an aborted one ends the run. -/
def runLanes (h : Held ι) (halted : Bool) : Body ι KeyLocals Unit := do
  if ← liveLane h halted then return ()
  else if ← reconcileLane h halted then return ()
  else if ← backfillLane h halted then return ()
  else assign fun s => { s with out := { s.out with state := some s.state } }

/-- Drain what a previous crash left behind. Answers whether it halted. -/
def drainBefore (h : Held ι) : Body ι KeyLocals Bool := do
  let drained ← await (drainOutbox h.deps h.lease h.run)
  assign fun s =>
    { s with out := { noteRetry s.out (some drained) with drainedBefore := drained.delivered } }
  when (drained.halted = true) do
    let s ← locals
    let state ← await (openCircuitForHalt h.deps h.lease s.state)
    assign fun s => { s with state }
  return drained.halted

/-- The `try` of `runKey`. -/
def underLease (h : Held ι) : Body ι KeyLocals Unit := do
  let loaded ← await (store .loadState)
  let at_ ← await now
  assign fun s => { s with state := loaded.getD (emptyState at_ h.deps.poller) }
  let s ← locals
  if s.state.paused then assign fun s => { s with out := { s.out with reason := some .paused } }
  else
    assign fun s => { s with out := { s.out with ran := true } }
    let halted ← drainBefore h
    runLanes h halted

/-- The `catch` of `runKey`. -/
def onKeyError (h : Held ι) (err : JsError) : Body ι KeyLocals Unit := do
  let lost ← await (call (.keeperLost h.run))
  if err.isLeaseLost || lost then
    assign fun s => { s with out := { s.out with leaseLost := true } }
  else throw err

/-- The `finally` of `runKey`. -/
def release (h : Held ι) : Proc ι Unit := do
  call (.keeperStop h.run)
  let _ ← (store (.releaseLease h.lease)).attempt
  return ()

/-- `runKey` from the moment it has the lease. -/
def runHeld (deps : RunnerDeps ι) (opts : RunKeyOptions) (pre : PollerState) (lease : Lease) :
    Proc ι RunKeyResult := do
  let run ← call .newRun
  let h : Held ι := { deps, opts, lease, run }
  call (.keeperStart deps run lease)
  let body : Body ι KeyLocals RunKeyResult := do
    MonadExceptOf.tryCatch (underLease h) (onKeyError h)
    let s ← locals
    return s.out
  (body.run { out := { state := some pre }, state := pre }).finallyDo (release h)

/-- The pending events, when there is a consumer for them. -/
def countPending (deps : RunnerDeps ι) : Proc ι Nat :=
  if deps.hasConsumer then store .countPending else return 0

/-- Acquire the lease and run the key under it. -/
def runLeased (deps : RunnerDeps ι) (opts : RunKeyOptions) (pre : PollerState) :
    Proc ι RunKeyResult := do
  let at_ ← now
  match ← store (.acquireLease deps.instanceId deps.leaseTtlMs at_) with
  | none => return { reason := some .leased, state := some pre }
  | some lease => runHeld deps opts pre lease

def runKey (deps : RunnerDeps ι) (opts : RunKeyOptions) : Proc ι RunKeyResult := do
  let now0 ← now
  let loaded ← store .loadState
  let pre := loaded.getD (emptyState now0 deps.poller)
  if pre.paused then return { reason := some .paused, state := some pre }
  else
    let pending ← countPending deps
    let liveDue := opts.force || isDue pre.schedule now0
    if !liveDue && !reconcileDue deps.poller pre now0 && !backfillActive pre && pending = 0 then
      return { reason := some .notDue, state := some pre }
    else runLeased deps opts pre

end Watukuy
