import Watukuy.Library.Roles
import Watukuy.Cycle.Stays
import Watukuy.Cycle.Obeys

/-!
# Who may load, deliver and acknowledge

`MainView` is what the main thread of an execution knows of its lease and of the drain under way;
`WorkerView` is the group a worker has in hand and how far its first row is. `deliveries` says what
each of them does in view of that: a round is started with the groups of the loaded rows that are
neither held nor blocked; a worker delivers the first row of its group, and it acknowledges, parks or
schedules that row before it goes on.
-/

set_option autoImplicit false

namespace Watukuy

open Library Task

variable {ι : Type}

/-! ## Views -/

/-- What a main thread knows of its drains. -/
structure MainView (ι : Type) where
  /-- The lease, from its grant to its release. -/
  lease : Option Lease := none
  /-- The drain under way, or the last one, unless a worker of it rejected. -/
  drain : Option Nat := none
  /-- A round was started and has not been joined. -/
  joining : Bool := false
  /-- The rows loaded for the next round. -/
  rows : Option (List (OutboxRow ι)) := none
  /-- The held keys, as asked for after that. -/
  held : Option (List String) := none
  /-- The blocked keys, as looked at after that. -/
  blocked : Option (List String) := none

/-- How far the first row of a worker's group is. -/
inductive Stage where
  /-- It waits to be delivered. -/
  | ready
  /-- Its handler resolved. -/
  | delivered
  /-- Its handler or its acknowledgement rejected. -/
  | failed
  | parked
  /-- Its next attempt is scheduled. -/
  | recorded
  deriving DecidableEq

/-- What a worker knows. -/
structure WorkerView (ι : Type) where
  lease : Lease
  drain : Nat
  key : String := ""
  /-- The rows of its group that are left. -/
  rest : List (OutboxRow ι) := []
  stage : Stage := .ready
  /-- Its promise is settled. -/
  ended : Bool := false

inductive ThreadView (ι : Type) where
  | main (v : MainView ι)
  | worker (v : WorkerView ι)
  | keeper (lease : Lease)

/-! ## What an answer tells -/

def MainView.learn (v : MainView ι) : (o : Op ι) → Ans o → MainView ι
  | .store (.acquireLease _ _ _), a =>
    match a with
    | .ok (some l) => { v with lease := some l }
    | _ => v
  | .store (.releaseLease _), _ => { v with lease := none }
  | .store (.loadPending _), a =>
    match a with
    | .ok rows => { v with rows := some rows, held := none, blocked := none }
    | .error _ => v
  | .store .heldKeys, a =>
    match a with
    | .ok held => { v with held := some held, blocked := none }
    | .error _ => v
  | .newDrain, i => { v with drain := some i, rows := none, held := none, blocked := none }
  | .peekDrain _, m => { v with blocked := some m.blocked }
  | .startRound _ _ _ _ _, _ =>
    { v with joining := true, rows := none, held := none, blocked := none }
  | .joinRound _, a =>
    match a with
    | .ok _ => { v with joining := false }
    | .error _ => { v with joining := false, drain := none }
  | _, _ => v

/-- The note that a row is parked ends the row, unless its key is held or the poller halts. -/
def WorkerView.note (d : Deployment ι) (v : WorkerView ι) : DrainNote → WorkerView ι
  | .parked =>
    if d.poller.delivery.poisonAction = .halt ∨ d.poller.delivery.poisonHoldKey = true then v
    else { v with rest := v.rest.tail, stage := .ready }
  | .halted => { v with rest := [], stage := .ready }
  | .block _ => { v with rest := [], stage := .ready }
  | _ => v

def WorkerView.learn (d : Deployment ι) (v : WorkerView ι) : (o : Op ι) → Ans o → WorkerView ι
  | .shift _, a =>
    match a with
    | some g => { v with key := g.key, rest := g.rows, stage := .ready }
    | none => v
  | .deliver _, a =>
    match a with
    | .ok _ => { v with stage := .delivered }
    | .error _ => { v with stage := .failed }
  | .store (.ackEvents _ _), a =>
    match a with
    | .ok _ => { v with rest := v.rest.tail, stage := .ready }
    | .error _ => { v with stage := .failed }
  | .store (.recordAttempt _ _ _ _), a =>
    match a with
    | .ok _ => { v with stage := .recorded }
    | .error _ => v
  | .store (.parkEvent _ _), a =>
    match a with
    | .ok _ => { v with stage := .parked }
    | .error _ => v
  | .noteDrain _ note, _ => v.note d note
  | .workerDone _ _, _ => { v with ended := true }
  | _, _ => v

/-- The view of a thread after an answer. -/
def ThreadView.learn (d : Deployment ι) : ThreadView ι → (o : Op ι) → Ans o → ThreadView ι
  | .main v, o, a => .main (v.learn o a)
  | .worker v, o, a => .worker (v.learn d o a)
  | .keeper l, _, _ => .keeper l

/-! ## What a thread does -/

/-- The store calls of a main thread. -/
def MainView.allowStore (v : MainView ι) : StoreOp ι → Prop
  | .acquireLease _ _ _ => v.lease = none
  | .renewLease l _ _ => v.lease = some l
  | .releaseLease l => v.lease = some l ∧ v.joining = false
  | .saveState l _ => v.lease = some l
  | .commitPoll l _ => v.lease = some l
  | .setValidator l _ _ => v.lease = some l
  | .loadPending _ => v.joining = false
  | .heldKeys => v.joining = false ∧ v.rows.isSome ∧ v.held = none
  | .ackEvents _ _ => False
  | .recordAttempt _ _ _ _ => False
  | .parkEvent _ _ => False
  | _ => True

/-- The groups of a round: those of the loaded rows that are neither held nor blocked. -/
def MainView.Groups (d : Deployment ι) (v : MainView ι) (groups : List (Group ι)) : Prop :=
  ∃ rows held blocked, v.rows = some rows ∧ v.held = some held ∧ v.blocked = some blocked ∧
    groups = openGroups d.poller rows held blocked

/-- The calls of a main thread. -/
def MainView.allow (d : Deployment ι) (v : MainView ι) : Op ι → Prop
  | .store o => v.allowStore o
  | .keeperStart deps _ l => deps.In d ∧ v.lease = some l
  | .fetch _ _ => v.lease.isSome ∧ v.joining = false
  | .newDrain => v.lease.isSome ∧ v.joining = false
  | .peekDrain i => v.drain = some i ∧ v.joining = false
  | .startRound deps l _ i groups =>
    deps.In d ∧ v.lease = some l ∧ v.drain = some i ∧ v.joining = false ∧ v.Groups d groups
  | .joinRound i => v.drain = some i ∧ v.joining = true
  | .shift _ => False
  | .deliver _ => False
  | .noteDrain _ _ => False
  | .workerDone _ _ => False
  | _ => True

/-- The store calls of a worker, about the first row of its group. -/
def WorkerView.allowStore (d : Deployment ι) (v : WorkerView ι) : StoreOp ι → Prop
  | .ackEvents l ids =>
    l = v.lease ∧ v.stage = .delivered ∧ ∃ row rest, v.rest = row :: rest ∧ ids = [row.eventId]
  | .recordAttempt l id _ _ =>
    l = v.lease ∧ v.stage = .failed ∧ ∃ row rest, v.rest = row :: rest ∧ id = row.eventId
  | .parkEvent l parked =>
    l = v.lease ∧ v.stage = .failed ∧ ∃ row rest error failedAt parkedAt, v.rest = row :: rest ∧
      parked = poisonRow d.poller v.key row error failedAt parkedAt
  | _ => False

/-- The notes a worker leaves. -/
def WorkerView.allowNote (d : Deployment ι) (v : WorkerView ι) : DrainNote → Prop
  | .parked => v.stage = .parked
  | .halted => v.stage = .parked ∧ d.poller.delivery.poisonAction = .halt
  | .block key => key = v.key ∧ (v.stage = .parked → d.poller.delivery.poisonAction ≠ .halt)
  | _ => True

/-- The calls of a worker. A worker that resolves has left its notes. -/
def WorkerView.allow (d : Deployment ι) (v : WorkerView ι) : Op ι → Prop
  | .store o => v.ended = false ∧ v.allowStore d o
  | .now => True
  | .random => True
  | .signal _ => True
  | .peekDrain i => i = v.drain
  | .shift i => i = v.drain ∧ v.ended = false ∧ v.rest = [] ∧ v.stage = .ready
  | .deliver e =>
    v.ended = false ∧ v.stage = .ready ∧
      ∃ row rest, v.rest = row :: rest ∧ e = { row.event with attempt := row.attempts + 1 }
  | .noteDrain i note => i = v.drain ∧ v.ended = false ∧ v.allowNote d note
  | .workerDone i res => i = v.drain ∧ v.ended = false ∧ (res = .ok () → v.stage = .ready)
  | .diverge => True
  | _ => False

/-- The calls of a heartbeat. -/
def keeperAllow (lease : Lease) : Op ι → Prop
  | .store (.renewLease l _ _) => l = lease
  | .now => True
  | .keeperLose _ => True
  | .keeperStopped _ => True
  | .diverge => True
  | _ => False

def ThreadView.allow (d : Deployment ι) : ThreadView ι → Op ι → Prop
  | .main v, o => v.allow d o
  | .worker v, o => v.allow d o
  | .keeper l, o => keeperAllow l o

/-- What a forked thread begins with. -/
def forkView : (o : Op ι) → Ans o → ThreadView ι
  | .keeperStart _ _ lease, _ => .keeper lease
  | .startRound _ lease _ i _, _ => .worker { lease, drain := i }
  | _, _ => .main {}

/-- The roles of the threads of the system. -/
@[reducible] def deliveries (d : Deployment ι) : Roles (system ι) where
  contract :=
    { View := ThreadView ι
      allow := ThreadView.allow d
      learn := ThreadView.learn d }
  origin := .main {}
  seed := forkView

end Watukuy
