import Mathlib.Data.Prod.Lex
import Mathlib.Order.Defs.LinearOrder
import Watukuy.Library.Bisect

/-!
# The virtual clock

`VirtualClock` of `testing/virtual-clock.ts` as steps of one state. A call of `advance`, `advanceTo`,
`runNext` or `runAll` runs until it has fired a timer; it goes on when the callback has returned and
`flush()` is through. Whatever the callback calls comes as a step in between, and while no callback
runs any other code may call, or another call may go on.

Numbers are those of `T`, with an order and an addition, exact or rounded.
-/

set_option autoImplicit false

namespace Watukuy

open Library

/-- A pending timer; its callback is told by the steps that follow its firing. -/
structure VirtualTimer (T : Type) where
  /-- The handle, and the insertion sequence. -/
  id : Nat
  dueAt : T
  deriving DecidableEq

/-- Timers are ordered by `(dueAt, id)`. -/
def VirtualTimer.key {T : Type} (timer : VirtualTimer T) : T ×ₗ Nat := toLex (timer.dueAt, timer.id)

/-- A call that has fired a timer, and how it goes on. -/
inductive ClockCall (T : Type) where
  /-- The loop of `#runUntil`. -/
  | runUntil (target : T)
  | runNext
  /-- `runAll` after `fired` timers; without a bound when `maxTimers` is not finite. -/
  | runAll (fired : Nat) (maxTimers : Option Nat)
  deriving DecidableEq

/-- `DEFAULT_FLUSH_ROUNDS`. -/
def defaultFlushRounds : Nat := 20

structure VirtualClock (T : Type) where
  now : T
  seq : Nat := 0
  timers : List (VirtualTimer T) := []
  /-- The calls whose callback is running, the innermost first. -/
  running : List (ClockCall T) := []
  /-- The calls that await `flush()`, each with the rounds that are left. -/
  awaiting : List (ClockCall T × Nat) := []

/-- What the clock throws. -/
inductive ClockError where
  /-- `advance() requires a non-negative finite number of ms`. -/
  | advance
  /-- `advanceTo() target must be a finite timestamp`. -/
  | timestamp
  /-- `advanceTo() cannot move backwards`. -/
  | backwards
  /-- `VirtualClock.runAll() fired … timers and … are still pending`. -/
  | runAll (maxTimers pending : Nat)
  deriving DecidableEq

/-- What a step tells. -/
inductive ClockAnswer (T : Type) where
  | done
  /-- `setTimeout` returns a handle. -/
  | handle (id : Nat)
  | fired (timer : VirtualTimer T)
  /-- `runNext` resolves: did it fire a timer? -/
  | resolved (fired : Bool)
  | rejected (error : ClockError)
  deriving DecidableEq

namespace VirtualClock

variable {T : Type} [LinearOrder T]

/-- When the next timer is due. -/
def nextDueAt (s : VirtualClock T) : Option T := s.timers.head?.map (·.dueAt)

/-- `#insert`. -/
def insert (s : VirtualClock T) (timer : VirtualTimer T) : VirtualClock T :=
  { s with
    timers := splice s.timers (bisect (fun other => decide (other.dueAt ≤ timer.dueAt)) s.timers)
      timer }

/-- The delay of `setTimeout`; `none` is a number that is not finite. -/
def delay [Zero T] : Option T → T
  | some ms => if 0 < ms then ms else 0
  | none => 0

/-- `setTimeout(fn, ms)`. -/
def setTimeout [Zero T] [Add T] (s : VirtualClock T) (ms : Option T) :
    VirtualClock T × ClockAnswer T :=
  let timer : VirtualTimer T := { id := s.seq + 1, dueAt := s.now + delay ms }
  ({ s with seq := s.seq + 1 }.insert timer, .handle timer.id)

/-- `clearTimeout(handle)`; `none` is a handle that is no number. -/
def clearTimeout (s : VirtualClock T) (handle : Option Nat) : VirtualClock T :=
  match handle with
  | some handle => { s with timers := s.timers.eraseP fun timer => timer.id = handle }
  | none => s

/-- `#fire` up to the callback, for a call that goes on as `call`. -/
def fire (s : VirtualClock T) (timer : VirtualTimer T) (call : ClockCall T) :
    VirtualClock T × ClockAnswer T :=
  ({ s with
      now := if s.now < timer.dueAt then timer.dueAt else s.now
      running := call :: s.running }, .fired timer)

/-- `#runUntil(target)` up to its next callback, or to its end. -/
def runUntil (s : VirtualClock T) (target : T) : VirtualClock T × ClockAnswer T :=
  match s.timers with
  | head :: timers =>
    if target < head.dueAt then ({ s with now := target }, .done)
    else { s with timers }.fire head (.runUntil target)
  | [] => ({ s with now := target }, .done)

/-- `advance(ms)`; `none` is a number that is not finite. -/
def advance [Zero T] [Add T] (s : VirtualClock T) (ms : Option T) :
    VirtualClock T × ClockAnswer T :=
  match ms with
  | some ms => if ms < 0 then (s, .rejected .advance) else s.runUntil (s.now + ms)
  | none => (s, .rejected .advance)

/-- `advanceTo(timestamp)`; `none` is what `toMs` does not take for a finite timestamp. -/
def advanceTo (s : VirtualClock T) (timestamp : Option T) : VirtualClock T × ClockAnswer T :=
  match timestamp with
  | some target => if target < s.now then (s, .rejected .backwards) else s.runUntil target
  | none => (s, .rejected .timestamp)

def runNext (s : VirtualClock T) : VirtualClock T × ClockAnswer T :=
  match s.timers with
  | timer :: timers => { s with timers }.fire timer .runNext
  | [] => (s, .resolved false)

/-- The loop of `runAll` up to its next callback, or to its end. -/
def runAll (s : VirtualClock T) (fired : Nat) (maxTimers : Option Nat) :
    VirtualClock T × ClockAnswer T :=
  match s.timers with
  | timer :: timers =>
    match maxTimers.filter (· ≤ fired) with
    | some bound => (s, .rejected (.runAll bound s.timers.length))
    | none => { s with timers }.fire timer (.runAll (fired + 1) maxTimers)
  | [] => (s, .done)

/-- A call goes on after its flush. -/
def resume (s : VirtualClock T) : ClockCall T → VirtualClock T × ClockAnswer T
  | .runUntil target => s.runUntil target
  | .runNext => (s, .resolved true)
  | .runAll fired maxTimers => s.runAll fired maxTimers

end VirtualClock

/-! ## Steps -/

inductive ClockEvent (T : Type) where
  | setTimeout (ms : Option T)
  | clearTimeout (handle : Option Nat)
  | advance (ms : Option T)
  | advanceTo (timestamp : Option T)
  | runNext
  | runAll (maxTimers : Option Nat)
  /-- The innermost callback returns. -/
  | returns
  /-- The innermost callback throws: the call that fired its timer rejects. -/
  | throws
  /-- A call that awaits `flush()` goes through a round, or on when there is none left. -/
  | round (call : Nat)
  deriving DecidableEq

section Steps

variable {T : Type} [LinearOrder T] [Zero T] [Add T]

/-- One step; `none` when the event cannot happen. -/
def VirtualClock.step (s : VirtualClock T) :
    ClockEvent T → Option (VirtualClock T × ClockAnswer T)
  | .setTimeout ms => some (s.setTimeout ms)
  | .clearTimeout handle => some (s.clearTimeout handle, .done)
  | .advance ms => some (s.advance ms)
  | .advanceTo timestamp => some (s.advanceTo timestamp)
  | .runNext => some s.runNext
  | .runAll maxTimers => some (s.runAll 0 maxTimers)
  | .returns =>
    match s.running with
    | call :: running =>
      some ({ s with running, awaiting := s.awaiting ++ [(call, defaultFlushRounds)] }, .done)
    | [] => none
  | .throws =>
    match s.running with
    | _ :: running => some ({ s with running }, .done)
    | [] => none
  | .round i =>
    -- microtasks run when no callback is on the stack
    if s.running ≠ [] then none
    else
      match s.awaiting[i]? with
      | some (call, rounds + 1) =>
        some ({ s with awaiting := s.awaiting.set i (call, rounds) }, .done)
      | some (call, 0) => some ({ s with awaiting := s.awaiting.eraseIdx i }.resume call)
      | none => none

/-- A step that was taken. -/
structure ClockMoment (T : Type) where
  before : VirtualClock T
  event : ClockEvent T
  answer : ClockAnswer T
  after : VirtualClock T

/-- The timer that fired. -/
def ClockMoment.fired (m : ClockMoment T) : Option (VirtualTimer T) :=
  match m.answer with
  | .fired timer => some timer
  | _ => none

/-- The moments of some events. -/
def VirtualClock.moments (s : VirtualClock T) : List (ClockEvent T) → Option (List (ClockMoment T))
  | [] => some []
  | event :: events =>
    (s.step event).bind fun r => (r.1.moments events).map fun later =>
      { before := s, event, answer := r.2, after := r.1 } :: later

/-- `new VirtualClock(start)`. -/
def VirtualClock.fresh (start : T) : VirtualClock T where
  now := start

end Steps

end Watukuy
