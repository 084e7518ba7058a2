import Watukuy.Cycle.Contract

/-!
# What an execution knows of its lanes and of its schedule

`LaneView` follows the state a `runKey` execution has in memory: its lanes, its schedule, the latest
reading of the clock, and, for the cycle it is in, the cursor, whether the strategy reported the
listing done, and whether a drain halted. `laneContract` says what an execution does in view of that:
when it fetches, which schedule it saves, and when it marks a lane as complete.
-/

set_option autoImplicit false

namespace Watukuy

open Library

variable {ι : Type}

structure LaneView (ι : Type) where
  /-- The latest reading of the clock. -/
  clock : Option Int := none
  /-- The lanes of the state in memory. -/
  lanes : Lanes := {}
  /-- The schedule of the state in memory. -/
  schedule : Option ScheduleState := none
  /-- The lane of the cycle; none before the first one. -/
  lane : Option Lane := none
  /-- The lane cursor the cycle started with. -/
  start : LaneCursor := { cursor := none }
  /-- The schedule the cycle started with. -/
  opened : Option ScheduleState := none
  /-- The cursor of the cycle. -/
  cursor : Option CursorVal := none
  /-- A page that was taken and is not counted yet. -/
  taken : Option (Page ι) := none
  /-- The strategy reported `done` for the last page. -/
  ended : Bool := false
  /-- The last page reached the target of the backfill. -/
  reached : Bool := false
  /-- What the last fetch call of the cycle goes on with; none before the first one. -/
  code : Option (UserCode ι) := none
  /-- How many pages the running fetch call gave. -/
  inCall : Nat := 0
  /-- The keeper was asked about the lease, and the signal has not been read since. -/
  guarded : Bool := false
  /-- The signal was read as aborted right after the renewal that follows a page. -/
  aborted : Bool := false
  /-- The delete phase of the cycle began. -/
  sweeping : Bool := false
  /-- The last save carried lanes. -/
  filed : Bool := false
  /-- When a reconcile or backfill cycle last ended with an error. -/
  failedAt : Option Int := none
  /-- The drain under way, or the last one. -/
  drain : Option Nat := none
  /-- Its last round was looked at, or the drain is over. -/
  peeked : Bool := true
  /-- The last look at the drain showed a halt, outside a delete phase. -/
  halted : Bool := false
  /-- The first reading of the clock after the halt. -/
  haltedAt : Option Int := none
  /-- The schedule was saved since. -/
  posted : Bool := false
  /-- After the halt a store call failed or another cycle began, or a delete phase halted. -/
  spoiled : Bool := false

/-! ## The strategy of a lane -/

/-- The cursor configuration of a lane. -/
def Deployment.config (d : Deployment ι) (lane : Lane) : CursorConfig ι :=
  if lane = .reconcile then .page { initial := some 1 } else d.poller.cursor

def Deployment.strategy (d : Deployment ι) (lane : Lane) : CursorStrategy ι :=
  getStrategy (d.config lane)

/-- The cursor a cycle of the lane starts with. -/
def Deployment.startCursor (d : Deployment ι) (lane : Lane) (start : LaneCursor) :
    Except JsError CursorVal :=
  match start.cursor with
  | some raw => (d.strategy lane).deserialize raw
  | none => .ok (d.strategy lane).initial

/-- The cursor lies at or past the target of the lane. -/
def Deployment.reaches (d : Deployment ι) (lane : Lane) (start : LaneCursor) (cursor : CursorVal) :
    Bool :=
  match start.target with
  | none => false
  | some raw =>
    match (d.strategy lane).deserialize raw with
    | .error _ => false
    | .ok target =>
      match (d.strategy lane).reached cursor target with
      | .error _ => false
      | .ok b => decide (lane = .backfill) && b

namespace LaneView

/-! ## What an answer tells -/

/-- The clock read `t`. -/
def tick (d : Deployment ι) (v : LaneView ι) (t : Int) : LaneView ι :=
  { v with
    clock := some (v.clock.elim t (max t))
    schedule := v.schedule.orElse fun _ =>
      some (initialScheduleState t (schedulerConfig d.poller))
    haltedAt := if v.halted then v.haltedAt.orElse fun _ => some t else v.haltedAt }

/-- The strategy takes the page `page` at the time `t`. -/
def advance (d : Deployment ι) (v : LaneView ι) (page : Page ι) (t : Int) : LaneView ι :=
  match v.lane, v.cursor with
  | some lane, some cursor =>
    match (d.strategy lane).advance cursor
      { items := page.items, pageCursor := page.cursor, hasMore := page.hasMore, now := t } with
    | .ok adv =>
      { v with
        taken := none
        cursor := some adv.cursor
        ended := adv.done
        reached := d.reaches lane v.start adv.cursor }
    | .error _ => { v with taken := none, cursor := none }
  | _, _ => { v with taken := none }

/-- A reading of the clock; the first one after a page counts the page. -/
def read (d : Deployment ι) (v : LaneView ι) (t : Int) : LaneView ι :=
  match v.taken with
  | none => v.tick d t
  | some page => (v.tick d t).advance d page t

/-- A cycle begins; an open circuit is probed. -/
def begin (d : Deployment ι) (v : LaneView ι) (lane : Lane) : LaneView ι :=
  let start := (v.lanes.get lane).getD { cursor := none }
  let schedule := if lane = .live then v.schedule.map beginProbe else v.schedule
  { v with
    schedule
    lane := some lane
    start
    opened := schedule
    cursor := (d.startCursor lane start).toOption
    taken := none
    ended := false
    reached := false
    code := none
    inCall := 0
    guarded := false
    aborted := false
    sweeping := false
    filed := false
    halted := false
    haltedAt := none
    posted := false
    spoiled := v.spoiled || v.halted }

/-- A store call failed. -/
def fail (v : LaneView ι) : LaneView ι :=
  { v with peeked := true, spoiled := v.spoiled || v.halted }

/-- A save was made, or at least tried. -/
def file (v : LaneView ι) (p : StatePatch) : LaneView ι :=
  { v with filed := p.lanes.isSome, schedule := p.schedule.orElse fun _ => v.schedule }

/-- A look at the drain; a halt in a delete phase is kept apart. -/
def look (v : LaneView ι) (halted : Bool) : LaneView ι :=
  { v with
    peeked := true
    halted := if v.sweeping then v.halted else halted
    haltedAt := if v.sweeping then v.haltedAt else none
    posted := if v.sweeping then v.posted else false
    spoiled := v.spoiled || (v.sweeping && halted) }

/-- The answer of a store call. -/
def learnStore (v : LaneView ι) : (o : StoreOp ι) → Except JsError o.Result → LaneView ι
  | .loadState, a =>
    match a with
    | .ok st =>
      { v with lanes := (st.map (·.lanes)).getD {}, schedule := st.map (·.schedule) }
    | .error _ => v.fail
  | .saveState _ p, a =>
    match a with
    | .ok _ => { v.file p with lanes := p.lanes.getD v.lanes, posted := true }
    | .error _ => (v.file p).fail
  | .commitPoll _ b, a =>
    match a with
    | .ok _ =>
      { v with
        lanes := b.statePatch.lanes.getD v.lanes
        schedule := b.statePatch.schedule.orElse fun _ => v.schedule }
    | .error _ => v.fail
  | .streamIdentities, a =>
    match a with
    | .ok _ => { v with sweeping := true }
    | .error _ => { v.fail with sweeping := true }
  | _, a =>
    match a with
    | .ok _ => v
    | .error _ => v.fail

/-- The view after an answer. -/
def learn (d : Deployment ι) (v : LaneView ι) : (o : Op ι) → Ans o → LaneView ι
  | .store o, a => v.learnStore o a
  | .now, t => v.read d t
  | .pollStart lane, _ => v.begin d lane
  | .pollEnd lane, _ =>
    { v with failedAt := if lane ≠ .live ∧ v.filed = false then v.clock else v.failedAt }
  | .fetch _ _, u => { v with code := some u, inCall := 0, aborted := false }
  | .resume res, _ =>
    { v with
      code := match v.code with
        | some (.request _ k) => some (k res)
        | u => u
      aborted := false }
  | .next page rest, _ =>
    { v with code := some rest, taken := some page, inCall := v.inCall + 1, aborted := false }
  | .keeperStopped _, _ => { v with guarded := true }
  | .signal _, reason =>
    { v with aborted := v.aborted || (v.guarded && reason.isSome), guarded := false }
  | .newDrain, i => { v with drain := some i, peeked := true }
  | .startRound _ _ _ _ _, _ => { v with peeked := false }
  | .joinRound _, a =>
    match a with
    | .ok _ => v
    | .error _ => { v with peeked := true, halted := false }
  | .peekDrain _, m => v.look m.result.halted
  | _, _ => v

/-! ## What an execution does -/

/-- The time `t` is not before the latest reading of the clock. -/
def Past (v : LaneView ι) (t : Int) : Prop := ∀ u, v.clock = some u → u ≤ t

/-- The key is due from the latest reading of the clock on. -/
def Due (v : LaneView ι) : Prop :=
  ∃ s, v.schedule = some s ∧ ∀ t, v.Past t → isDue s t = true

/-- The listing is complete: the strategy reported `done`, the target was reached, or the iterable that a
fetch call of the cycle returned was consumed to its end. -/
def Complete (v : LaneView ι) : Prop :=
  v.ended = true ∨ v.reached = true ∨ (v.code = some .finish ∧ v.inCall ≠ 1)

/-- The loop over the pages was cut: by a halt, or on an abort between two pages of an iterable. -/
def Cut (v : LaneView ι) : Prop :=
  v.halted = true ∨ (2 ≤ v.inCall ∧ v.aborted = true)

/-- The lane is persisted as complete. -/
def Completes (v : LaneView ι) (last : LaneCursor) : Prop :=
  (v.lane = some .backfill ∧ last.done = true) ∨
    (v.lane = some .reconcile ∧ last.lastRunAt ≠ v.start.lastRunAt)

/-- The lanes of a patch: those in memory, with the lane of the cycle replaced. -/
def Files (v : LaneView ι) (p : StatePatch) : Prop :=
  ∀ lanes, p.lanes = some lanes → ∃ lane last, v.lane = some lane ∧
    lanes = v.lanes.set lane last ∧ (v.Completes last → v.Complete ∨ v.Cut)

/-- The schedule a poison halt at the time `t` leaves. -/
def HaltSchedule (d : Deployment ι) (t : Int) (s : ScheduleState) : Prop :=
  s.circuit = .open ∧ s.nextDueAt = some (t + d.poller.circuit.probeEveryMs)

/-- A halt is pending, and nothing came in between. -/
def Halting (v : LaneView ι) : Prop := v.halted = true ∧ v.spoiled = false

/-- The calls of a `runKey` execution; `forced` says that it may ignore the schedule. -/
def allow (d : Deployment ι) (forced : Prop) (v : LaneView ι) : Op ι → Prop
  | .pollStart lane => v.peeked = true ∧ (lane = .live → forced ∨ v.Due)
  | .fetch lane _ => v.lane = some lane ∧ v.schedule = v.opened ∧ ¬v.Halting ∧ v.peeked = true
  | .store (.saveState _ p) =>
    v.peeked = true ∧ v.Files p ∧
      (v.Halting → ∃ t s, v.haltedAt = some t ∧ p.schedule = some s ∧ HaltSchedule d t s)
  | .store (.commitPoll _ b) => v.peeked = true ∧ v.Files b.statePatch ∧ ¬v.Halting
  | .store .streamIdentities => v.peeked = true ∧ v.halted = false
  | .store (.releaseLease _) =>
    v.peeked = true ∧ (v.Halting → ∃ t s, v.haltedAt = some t ∧ v.posted = true ∧
      v.schedule = some s ∧ HaltSchedule d t s)
  | .newDrain => v.peeked = true ∧ v.halted = false
  | .peekDrain i => v.drain = none ∨ v.drain = some i
  | .startRound _ _ _ i _ => v.drain = some i
  | .joinRound i => v.drain = some i
  | _ => True

end LaneView

/-- The contract of an execution about its lanes and its schedule. -/
@[reducible] def laneContract (d : Deployment ι) (forced : Prop) : Contract (Op ι) Ans where
  View := LaneView ι
  allow := LaneView.allow d forced
  learn := LaneView.learn d

end Watukuy
