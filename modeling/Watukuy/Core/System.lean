import Watukuy.Core.Engine
import Watukuy.Library.Threads

/-!
# The system

Any number of `runKey` executions and administrative operations on one key, interleaved call by
call. The world holds the record of the key and the memory of every execution: the abort signal
and keeper of each run, the variables each drain shares with its workers.

A store call may fail before it takes effect or after it did; the clock, the random source, the
fetch functions, the API, the budget and the consumer answer as the environment chooses. An abort
from outside may strike at any time. A crash needs no step of its own: it is threads that take no
further step.
-/

set_option autoImplicit false

namespace Watukuy

open Library

variable (ι : Type)

/-- The abort controller and lease keeper of one `runKey` execution. -/
structure RunMem where
  abortReason : Option JsError := none
  keeperStopped : Bool := false
  keeperLost : Bool := false

structure World where
  store : KeyRecord ι
  runs : List RunMem := []
  drains : List (DrainMem ι) := []

/-- What the environment decides about a call. -/
inductive Choice where
  /-- Nothing to decide. -/
  | ok
  /-- The store rejects and has done nothing. -/
  | failBefore (e : JsError)
  /-- The store has done its work and rejects all the same. -/
  | failAfter (e : JsError)
  | time (t : Int)
  | draw (q : Rat)
  | code (u : UserCode ι)
  | response (r : Except JsError RawResponse)
  | settle (r : Except JsError Unit)

variable {ι}

/-- Perform a store call under a choice. -/
def performStore (o : StoreOp ι) (c : Choice ι) (rec : KeyRecord ι) :
    Option (Except JsError o.Result × KeyRecord ι) :=
  match c with
  | .ok => some (o.run rec)
  | .failBefore e => some (.error e, rec)
  | .failAfter e =>
    match o.run rec with
    | (.ok _, rec') => some (.error e, rec')
    | (.error _, _) => none
  | _ => none

namespace World

def run (w : World ι) (i : Nat) : RunMem := w.runs.getD i {}

def drain (w : World ι) (i : Nat) : DrainMem ι := w.drains.getD i {}

def setRun (w : World ι) (i : Nat) (f : RunMem → RunMem) : World ι :=
  { w with runs := w.runs.modify i f }

def setDrain (w : World ι) (i : Nat) (f : DrainMem ι → DrainMem ι) : World ι :=
  { w with drains := w.drains.modify i f }

end World

/-- `controller.abort(reason)`: the first reason stays. -/
def RunMem.abort (m : RunMem) (reason : JsError) : RunMem :=
  { m with abortReason := m.abortReason.orElse fun _ => some reason }

/-- What a worker leaves in the shared variables when it settles. -/
def DrainMem.settleWorker (m : DrainMem ι) (res : Except JsError Unit) : DrainMem ι :=
  match res with
  | .ok _ => { m with running := m.running - 1 }
  | .error e =>
    { m with running := m.running - 1, rejected := m.rejected.orElse fun _ => some e }

/-- The number of workers of a round. -/
def workerCount (deps : RunnerDeps ι) (groups : List (Group ι)) : Nat :=
  min deps.poller.delivery.concurrency groups.length

/-- The shared variables at the start of a round. -/
def DrainMem.startRound (m : DrainMem ι) (deps : RunnerDeps ι) (groups : List (Group ι)) :
    DrainMem ι :=
  { m with queue := groups, progress := 0, running := workerCount deps groups, rejected := none }

/-- Perform a call: its answer and the world after it. -/
def perform : (o : Op ι) → Choice ι → World ι → Option (Ans o × World ι)
  | .store o, c, w => (performStore o c w.store).map fun r => (r.1, { w with store := r.2 })
  | .now, .time t, w => some (t, w)
  | .random, .draw q, w => some (q, w)
  | .pollStart _, .ok, w => some ((), w)
  | .pollEnd _, .ok, w => some ((), w)
  | .newRun, .ok, w => some (w.runs.length, { w with runs := w.runs ++ [{}] })
  | .signal i, .ok, w => some ((w.run i).abortReason, w)
  | .keeperStart _ _ _, .ok, w => some ((), w)
  | .keeperStop i, .ok, w => some ((), w.setRun i fun m => { m with keeperStopped := true })
  | .keeperLose i, .ok, w =>
    some ((), w.setRun i fun m =>
      { m.abort leaseLostReason with keeperLost := true, keeperStopped := true })
  | .keeperLost i, .ok, w => some ((w.run i).keeperLost, w)
  | .keeperStopped i, .ok, w => some ((w.run i).keeperStopped, w)
  | .fetch _ _, .code u, w => some (u, w)
  | .resume _, .ok, w => some ((), w)
  | .next _ _, .ok, w => some ((), w)
  | .charge _, .settle r, w => some (r, w)
  | .http _, .response r, w => some (r, w)
  | .newDrain, .ok, w => some (w.drains.length, { w with drains := w.drains ++ [{}] })
  | .peekDrain i, .ok, w => some (w.drain i, w)
  | .noteDrain i note, .ok, w => some ((), w.setDrain i fun m => m.note note)
  | .startRound deps _ _ i groups, .ok, w =>
    some ((), w.setDrain i fun m => m.startRound deps groups)
  | .joinRound i, .ok, w =>
    match (w.drain i).rejected with
    | some e => some (.error e, w)
    | none => if (w.drain i).running = 0 then some (.ok (w.drain i).progress, w) else none
  | .shift i, .ok, w => some ((w.drain i).queue.head?, w.setDrain i fun m =>
      { m with queue := m.queue.tail })
  | .workerDone i res, .ok, w => some ((), w.setDrain i fun m => m.settleWorker res)
  | .deliver _, .settle r, w => some (r, w)
  | _, _, _ => none

/-- The threads a call leaves behind: the heartbeat of a keeper, the workers of a round. -/
def forks : (o : Op ι) → Ans o → List (Prog (Op ι) Ans Unit)
  | .keeperStart deps run lease, _ => [(heartbeat deps run lease deps.fuel).forget]
  | .startRound deps lease run drain groups, _ =>
    List.replicate (workerCount deps groups)
      (workerThread deps lease run drain (groups.length + 1))
  | _, _ => []

/-- `controller.abort(reason)` from outside: a tick deadline or `stop`. -/
structure OuterAbort where
  run : Nat
  reason : JsError

/-- The machine of the system. -/
def system (ι : Type) : Machine (Op ι) Ans where
  World := World ι
  Choice := Choice ι
  Drift := OuterAbort
  perform := perform
  forks := forks
  drift d w := w.setRun d.run fun m => m.abort d.reason

/-- The world of a key that was never written. -/
def World.fresh (key : PKey) : World ι where
  store := .fresh key

/-! ## Reading a step -/

/-- The step took effect on the store: the call resolved, or rejected only after its work. -/
def tookEffect {o : StoreOp ι} (c : Choice ι) (a : Except JsError o.Result) : Bool :=
  match c, a with
  | .ok, .ok _ => true
  | .failAfter _, _ => true
  | _, _ => false

/-- The ways a store call can go. -/
theorem performStore_cases {o : StoreOp ι} {c : Choice ι} {rec rec' : KeyRecord ι}
    {a : Except JsError o.Result} (h : performStore o c rec = some (a, rec')) :
    (c = .ok ∧ o.run rec = (a, rec')) ∨ (∃ e, c = .failBefore e ∧ a = .error e ∧ rec' = rec) ∨
      ∃ e x, c = .failAfter e ∧ a = .error e ∧ o.run rec = (.ok x, rec') := by
  cases c with
  | ok => exact Or.inl ⟨rfl, Option.some.inj h⟩
  | failBefore e =>
    obtain ⟨rfl, rfl⟩ := Prod.mk.inj (Option.some.inj h)
    exact Or.inr (Or.inl ⟨e, rfl, rfl, rfl⟩)
  | failAfter e =>
    unfold performStore at h
    dsimp only at h
    split at h
    · rename_i x r hr
      obtain ⟨rfl, rfl⟩ := Prod.mk.inj (Option.some.inj h)
      exact Or.inr (Or.inr ⟨e, x, rfl, rfl, hr⟩)
    · cases h
  | _ => cases h

end Watukuy
