import Mathlib.Algebra.Order.Floor.Ring
import Mathlib.Data.Rat.Floor
import Mathlib.Algebra.Order.Ring.Rat
import Watukuy.Core.Types
import Watukuy.Library.OrderedMap

/-!
# The budget manager

`budget/manager.ts` for one budget, as steps between awaits and calls to code outside. The pump
waits for `store.take`, and it calls out to `clock.setTimeout` and to the hook `onBudgetWait`:
anything may happen before these return, so that a timer may fire inside the call that sets it.
Waiters are numbered by `#waiterSeq`, which the budgets of a manager share. Weights and costs are
exact rational numbers.
-/

set_option autoImplicit false

namespace Watukuy

open Library

inductive Fairness
  | roundRobin
  | weighted
  deriving DecidableEq

/-- One budget as the manager resolved it. -/
structure ManagerConfig where
  name : String
  fairness : Fairness
  maxWaitMs : Option Int
  /-- `onBudgetWait` is set. -/
  hooked : Bool

inductive AbortState
  | live
  | aborted (reason : Option JsError)

structure AcquireOptions where
  requester : String
  weight : ℚ
  lane : Lane
  /-- `none` for what is no finite number. -/
  cost : Option ℚ
  signal : Option AbortState
  /-- `none` stands for the policy's; `some none` is `null`. -/
  maxWaitMs : Option (Option Int)

/-- `LANE_RANK`. -/
def laneRank : Lane → Int
  | .live => 0
  | .reconcile => 1
  | .backfill => 2
  | .replay => 3

/-- The fields of a waiter that never change. -/
structure Waiter where
  seq : Nat
  requester : String
  weight : ℚ
  lane : Lane
  cost : ℚ
  enqueuedAt : Int
  deadlineAt : Option Int
  signal : Bool
  deriving DecidableEq

/-- The others. -/
structure WaiterStatus where
  deadlineArmed : Bool := false
  timeoutHandle : Option Nat := none
  settled : Bool := false

structure ServedStats where
  count : Int
  weight : ℚ
  /-- `-1` when never served. -/
  lastSeq : Int
  deriving DecidableEq

abbrev Served := OrderedMap String ServedStats

inductive TimerCallback
  | expire (w : Waiter)
  | wake (token : Nat)
  deriving DecidableEq

structure PendingTimer where
  handle : Nat
  callback : TimerCallback
  ms : Int
  deriving DecidableEq

/-- Where `#pump` is. -/
inductive PumpPhase
  /-- It does not run: `pumping` is false. -/
  | idle
  /-- It awaits `store.take` for a waiter. -/
  | taking (w : Waiter)
  /-- It is in `onBudgetWait`. -/
  | hook
  /-- It is in `#armDeadlines`, called at `now`: in the `setTimeout` that answers `handle` for `w`,
  with `rest` still to be looked at. -/
  | deadlineTimer (now : Int) (retryInMs : Option ℚ) (w : Waiter) (handle : Nat)
    (rest : List Waiter)
  /-- It is in the `setTimeout` of `#scheduleWake`. -/
  | wakeTimer (token handle : Nat)

/-- An entry of the manager, with the clock it uses. -/
structure BudgetManager where
  clock : Int
  waiterSeq : Nat := 0
  queue : List Waiter := []
  status : Nat → WaiterStatus := fun _ => {}
  /-- The waiters whose signals have `onAbort`. -/
  listeners : List Waiter := []
  served : Served := OrderedMap.empty
  grantSeq : Int := 0
  phase : PumpPhase := .idle
  repump : Bool := false
  wakeToken : Option Nat := none
  wakeHandle : Option Nat := none
  timers : List PendingTimer := []
  nextHandle : Nat := 0
  nextToken : Nat := 0

/-- What a step shows. -/
inductive BudgetLabel
  | threw (error : JsError)
  /-- `acquire` returned a promise that is resolved. -/
  | resolvedAtOnce
  | rejectedAtOnce (error : JsError)
  | queued (w : Waiter)
  /-- `store.take` is called for the waiter. -/
  | picked (w : Waiter)
  /-- That call has taken `cost` tokens. -/
  | took (seq : Nat) (cost : ℚ)
  | resolved (w : Waiter)
  | rejected (w : Waiter) (error : JsError)
  /-- `onBudgetWait` is called. -/
  | waited (requester : String) (waitMs : Int)
  deriving DecidableEq

def abortError : JsError := ⟨.plain, "AbortError", "budget acquire aborted"⟩

def abortReason (reason : Option JsError) : JsError := reason.getD abortError

def budgetTimeoutError (budget : String) (waitedMs : Int) : JsError where
  kind := .plain
  name := "BudgetTimeoutError"
  message := "budget '" ++ budget ++ "' had no tokens after waiting " ++ toString waitedMs ++ "ms"

/-! ## Who is next -/

/-- The lowest `served / weight` ratio. -/
def minRatio (served : Served) : Option ℚ :=
  (served.entries.map fun e => (e.2.count : ℚ) / e.2.weight).min?

/-- `#stats`. -/
def requesterStats (served : Served) (requester : String) (weight : ℚ) : Served × ServedStats :=
  let stats : ServedStats :=
    match served.get requester with
    | none =>
      { count := ((minRatio served).map fun ratio => ⌊ratio * weight⌋).getD 0, weight, lastSeq := -1 }
    | some stats => { stats with weight }
  (served.set requester stats, stats)

/-- `#compare`: a negative number puts `a` first. -/
def compareWaiters (fairness : Fairness) (served : Served) (a b : Waiter) : Served × ℚ :=
  let laneDelta := laneRank a.lane - laneRank b.lane
  if laneDelta ≠ 0 then (served, laneDelta)
  else
    let (served, sa) := requesterStats served a.requester a.weight
    let (served, sb) := requesterStats served b.requester b.weight
    let ratioDelta : ℚ := sa.count / a.weight - sb.count / b.weight
    if fairness = .weighted ∧ ratioDelta ≠ 0 then (served, ratioDelta)
    else if sa.lastSeq ≠ sb.lastSeq then (served, sa.lastSeq - sb.lastSeq)
    else (served, a.seq - b.seq)

/-- One candidate of `#pick`. -/
def pickStep (fairness : Fairness) (status : Nat → WaiterStatus) :
    Served × Option Waiter → Waiter → Served × Option Waiter
  | (served, best), candidate =>
    if (status candidate.seq).settled then (served, best)
    else
      match best with
      | none => (served, some candidate)
      | some b =>
        let (served, delta) := compareWaiters fairness served candidate b
        (served, if delta < 0 then some candidate else some b)

namespace BudgetManager

variable (cfg : ManagerConfig)

/-- `#pick`. -/
def pick (s : BudgetManager) : Served × Option Waiter :=
  s.queue.foldl (pickStep cfg.fairness s.status) (s.served, none)

/-! ## Timers -/

def setTimeout (s : BudgetManager) (callback : TimerCallback) (ms : Int) : BudgetManager :=
  { s with
    timers := s.timers ++ [{ handle := s.nextHandle, callback, ms }]
    nextHandle := s.nextHandle + 1 }

/-- `clearTimeout`, unless there is no handle. -/
def clearTimeout (s : BudgetManager) (handle : Option Nat) : BudgetManager :=
  { s with timers := s.timers.filter fun t => some t.handle ≠ handle }

def setStatus (s : BudgetManager) (w : Waiter) (f : WaiterStatus → WaiterStatus) : BudgetManager :=
  { s with status := Function.update s.status w.seq (f (s.status w.seq)) }

/-- `#cancelWake`. -/
def cancelWake (s : BudgetManager) : BudgetManager :=
  { s.clearTimeout s.wakeHandle with wakeHandle := none, wakeToken := none }

/-- `#settle`. -/
def settle (s : BudgetManager) (w : Waiter) : BudgetManager :=
  { (s.clearTimeout (s.status w.seq).timeoutHandle).setStatus w
      (fun st => { st with settled := true, timeoutHandle := none }) with
    queue := s.queue.eraseP fun x => x.seq = w.seq
    listeners := s.listeners.filter fun x => x.seq ≠ w.seq }

/-! ## The pump -/

/-- A round of the pump, up to its first wait. -/
def round (s : BudgetManager) : BudgetManager × List BudgetLabel :=
  let s := { s with repump := false }.cancelWake
  let (served, best) := s.pick cfg
  match best with
  | some w => ({ s with served, phase := .taking w }, [.picked w])
  | none => ({ s with served, phase := .idle }, [])

/-- The end of a round. -/
def endRound (s : BudgetManager) : BudgetManager × List BudgetLabel :=
  if s.repump then s.round cfg else ({ s with phase := .idle }, [])

/-- The next waiter of the round. -/
def next (s : BudgetManager) : BudgetManager × List BudgetLabel :=
  let (served, best) := s.pick cfg
  match best with
  | some w => ({ s with served, phase := .taking w }, [.picked w])
  | none => { s with served }.endRound cfg

/-- `#pump`. -/
def pump (s : BudgetManager) : BudgetManager × List BudgetLabel :=
  match s.phase with
  | .idle => s.round cfg
  | _ => ({ s with repump := true }, [])

/-- Show labels before those of a step. -/
def showing (labels : List BudgetLabel) (r : BudgetManager × List BudgetLabel) :
    BudgetManager × List BudgetLabel := (r.1, labels ++ r.2)

/-- `#grant`, and the next waiter unless there is a hook to call. -/
def grant (s : BudgetManager) (w : Waiter) : BudgetManager × List BudgetLabel :=
  let s := s.settle w
  let (served, stats) := requesterStats s.served w.requester w.weight
  let stats := { stats with count := stats.count + 1, lastSeq := s.grantSeq + 1 }
  let s := { s with served := served.set w.requester stats, grantSeq := s.grantSeq + 1 }
  let waitMs := max 0 (s.clock - w.enqueuedAt)
  if 0 < waitMs ∧ cfg.hooked then
    ({ s with phase := .hook }, [.resolved w, .waited w.requester waitMs])
  else showing [.resolved w] (s.next cfg)

/-- `#settle`, and the promise is rejected. -/
def fail (s : BudgetManager) (w : Waiter) (error : JsError) : BudgetManager × List BudgetLabel :=
  (s.settle w, [.rejected w error])

/-- `#abort`. -/
def abort (s : BudgetManager) (w : Waiter) (reason : Option JsError) :
    BudgetManager × List BudgetLabel :=
  if (s.status w.seq).settled then (s, [])
  else
    let (s, labels) := s.fail w (abortReason reason)
    showing labels (s.pump cfg)

/-- `#expire`. -/
def expire (s : BudgetManager) (w : Waiter) : BudgetManager × List BudgetLabel :=
  if (s.status w.seq).settled then (s, [])
  else
    let (s, labels) := s.fail w (budgetTimeoutError cfg.name (max 0 (s.clock - w.enqueuedAt)))
    showing labels (s.pump cfg)

/-- The end of a round whose take was refused: `#scheduleWake`, if someone waits. -/
def scheduleWake (s : BudgetManager) (retryInMs : Option ℚ) : BudgetManager × List BudgetLabel :=
  if s.queue = [] then s.endRound cfg
  else
    let ms := max 1 ⌈retryInMs.getD 1000⌉
    let s := s.cancelWake
    let token := s.nextToken
    let s := { s with wakeToken := some token, nextToken := token + 1 }
    ({ s.setTimeout (.wake token) ms with phase := .wakeTimer token s.nextHandle }, [])

/-- `#armDeadlines` up to its next `setTimeout`. -/
def armDeadlines (s : BudgetManager) (now : Int) (retryInMs : Option ℚ) :
    List Waiter → BudgetManager × List BudgetLabel
  | [] => s.scheduleWake cfg retryInMs
  | w :: rest =>
    let status := s.status w.seq
    match w.deadlineAt with
    | none => s.armDeadlines now retryInMs rest
    | some deadlineAt =>
      if status.settled || status.deadlineArmed then s.armDeadlines now retryInMs rest
      else
        let s := s.setStatus w fun st => { st with deadlineArmed := true }
        let delay := deadlineAt - now
        if delay ≤ 0 then
          let (s, labels) := s.expire cfg w
          showing labels (s.armDeadlines now retryInMs rest)
        else
          ({ s.setTimeout (.expire w) delay with
              phase := .deadlineTimer now retryInMs w s.nextHandle rest }, [])

end BudgetManager

/-! ## Steps -/

inductive BudgetEvent
  | acquire (opts : AcquireOptions)
  /-- The signal of a waiter is aborted. -/
  | abort (seq : Nat) (reason : Option JsError)
  /-- The clock runs a pending timer, due or not. -/
  | fire (handle : Nat)
  /-- `store.take` resolves; a wait that is no finite number is `none`. -/
  | taken
  | refused (retryInMs : Option ℚ)
  /-- `store.take` rejects. -/
  | failed (error : JsError)
  /-- `clock.setTimeout` or the hook returns. -/
  | returns
  /-- Another budget of the manager numbers a waiter. -/
  | elsewhere
  | tick (ms : Nat)

namespace BudgetManager

variable (cfg : ManagerConfig)

def configError (message : String) : JsError where
  kind := .config
  name := "ConfigError"
  message := "budget '" ++ cfg.name ++ "': " ++ message

/-- The waiter of an `acquire`. -/
def newWaiter (s : BudgetManager) (opts : AcquireOptions) (cost : ℚ) : Waiter where
  seq := s.waiterSeq + 1
  requester := opts.requester
  weight := opts.weight
  lane := opts.lane
  cost := cost
  enqueuedAt := s.clock
  deadlineAt := (opts.maxWaitMs.getD cfg.maxWaitMs).map fun ms => s.clock + max 0 ms
  signal := opts.signal.isSome

/-- It joins the queue, and listens to its signal. -/
def push (s : BudgetManager) (w : Waiter) : BudgetManager :=
  { s.setStatus w (fun _ => {}) with
    waiterSeq := w.seq
    queue := s.queue ++ [w]
    listeners := if w.signal then s.listeners ++ [w] else s.listeners }

def enqueue (s : BudgetManager) (w : Waiter) : BudgetManager × List BudgetLabel :=
  showing [.queued w] ((s.push w).pump cfg)

def acquire (s : BudgetManager) (opts : AcquireOptions) : BudgetManager × List BudgetLabel :=
  match opts.cost with
  | none => (s, [.threw (configError cfg "cost must be a finite number >= 0")])
  | some cost =>
    if cost < 0 then (s, [.threw (configError cfg "cost must be a finite number >= 0")])
    else if ¬ 0 < opts.weight then (s, [.threw (configError cfg "weight must be > 0")])
    else if cost = 0 then (s, [.resolvedAtOnce])
    else
      match opts.signal with
      | some (.aborted reason) => (s, [.rejectedAtOnce (abortReason reason)])
      | _ => s.enqueue cfg (s.newWaiter cfg opts cost)

/-- The callback of a timer. -/
def runCallback (s : BudgetManager) : TimerCallback → BudgetManager × List BudgetLabel
  | .expire w => s.expire cfg w
  | .wake token =>
    if s.wakeToken = some token then { s with wakeToken := none, wakeHandle := none }.pump cfg
    else (s, [])

/-- The pump goes on after an answer of the store for `w`. -/
def onAnswer (s : BudgetManager) (w : Waiter) (unsettled : BudgetManager × List BudgetLabel) :
    BudgetManager × List BudgetLabel :=
  if (s.status w.seq).settled then s.next cfg else unsettled

/-- One step with its labels; `none` when the event cannot happen. -/
def step (s : BudgetManager) : BudgetEvent → Option (BudgetManager × List BudgetLabel)
  | .acquire opts => some (s.acquire cfg opts)
  | .abort seq reason =>
    (s.listeners.find? fun w => w.seq = seq).map fun w =>
      { s with listeners := s.listeners.filter fun x => x.seq ≠ seq }.abort cfg w reason
  | .fire handle =>
    (s.timers.find? fun t => t.handle = handle).map fun t =>
      { s with timers := s.timers.filter fun x => x.handle ≠ handle }.runCallback cfg t.callback
  | .taken =>
    match s.phase with
    | .taking w => some (showing [.took w.seq w.cost] (s.onAnswer cfg w (s.grant cfg w)))
    | _ => none
  | .refused retryInMs =>
    match s.phase with
    | .taking w => some (s.onAnswer cfg w (s.armDeadlines cfg s.clock retryInMs s.queue))
    | _ => none
  | .failed error =>
    match s.phase with
    | .taking w =>
      some (s.onAnswer cfg w (showing [.rejected w error] ((s.settle w).next cfg)))
    | _ => none
  | .returns =>
    match s.phase with
    | .hook => some (s.next cfg)
    | .deadlineTimer now retryInMs w handle rest =>
      some ((s.setStatus w fun st => { st with timeoutHandle := some handle }).armDeadlines cfg now
        retryInMs rest)
    | .wakeTimer token handle =>
      some ((if s.wakeToken = some token then { s with wakeHandle := some handle } else s).endRound
        cfg)
    | _ => none
  | .elsewhere => some ({ s with waiterSeq := s.waiterSeq + 1 }, [])
  | .tick ms => some ({ s with clock := s.clock + ms }, [])

/-- A run with the labels it has shown. -/
def run (s : BudgetManager) : List BudgetEvent → Option (BudgetManager × List BudgetLabel)
  | [] => some (s, [])
  | e :: events =>
    (s.step cfg e).bind fun r => (r.1.run events).map fun r' => (r'.1, r.2 ++ r'.2)

end BudgetManager

end Watukuy
