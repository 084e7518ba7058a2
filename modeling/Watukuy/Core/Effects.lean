import Watukuy.Library.Program
import Watukuy.Core.Poller
import Watukuy.Core.Hash
import Watukuy.Stores.MemoryStore

/-!
# Effects

The calls the engine's async functions make: the store, the clock and the random source, the abort
signal and lease keeper of a `runKey` execution, the memory a drain shares with its workers, the
user's fetch function, the API and the consumer. A `Proc` is an async function over these calls.

Hooks are left out (a hook can neither fail nor change anything), except that `pollStart` and
`pollEnd` stay visible: they mark where a cycle begins and ends.
-/

set_option autoImplicit false

namespace Watukuy

open Library

variable (ι : Type)

/-! ## What a call carries -/

/-- `RunnerDeps`, without the ports. `fuel` bounds the loops the source leaves unbounded; it is a
parameter of the model only. -/
structure RunnerDeps where
  crypto : Crypto
  poller : ResolvedPoller ι
  key : PKey
  instanceId : String
  hasBudget : Bool
  hasConsumer : Bool
  dispatchBatchSize : Nat
  leaseTtlMs : Int
  fuel : Nat

structure DrainResult where
  delivered : Nat := 0
  parked : Nat := 0
  failed : Nat := 0
  nextRetryAt : Option Int := none
  halted : Bool := false
  remaining : Nat := 0
  deriving DecidableEq

/-- The rows of one ordering key, in load order. -/
structure Group where
  key : String
  rows : List (OutboxRow ι)

/-- The variables of a `drainOutbox` call that its workers share. -/
structure DrainMem where
  result : DrainResult := {}
  blocked : List String := []
  queue : List (Group ι) := []
  progress : Nat := 0
  /-- Workers of the current round that have not settled. -/
  running : Nat := 0
  /-- The first rejection of a worker. -/
  rejected : Option JsError := none

/-- An assignment of a worker to the shared variables. -/
inductive DrainNote where
  | delivered
  | parked
  | halted
  | failed
  | retryAt (at_ : Int)
  | block (key : String)

variable {ι}

/-- `Math.min` over the retries seen so far. -/
def earliest : Option Int → Int → Option Int
  | none, t => some t
  | some u, t => some (min u t)

def DrainMem.note (m : DrainMem ι) : DrainNote → DrainMem ι
  | .delivered =>
    { m with
      result := { m.result with delivered := m.result.delivered + 1 }, progress := m.progress + 1 }
  | .parked =>
    { m with result := { m.result with parked := m.result.parked + 1 }, progress := m.progress + 1 }
  | .halted => { m with result := { m.result with halted := true } }
  | .failed => { m with result := { m.result with failed := m.result.failed + 1 } }
  | .retryAt t =>
    { m with result := { m.result with nextRetryAt := earliest m.result.nextRetryAt t } }
  | .block key => { m with blocked := key :: m.blocked }

variable (ι)

/-- What goes over the wire for a request. -/
structure WireRequest where
  method : String
  url : String
  ifNoneMatch : Option String
  ifModifiedSince : Option String

/-! ## The calls -/

inductive Op where
  | store (o : StoreOp ι)
  | now
  | random
  | pollStart (lane : Lane)
  | pollEnd (lane : Lane)
  /-- The abort controller and the lease keeper of a new `runKey` execution. -/
  | newRun
  /-- The reason the signal of a run was aborted with, if it was. -/
  | signal (run : Nat)
  | keeperStart (deps : RunnerDeps ι) (run : Nat) (lease : Lease)
  | keeperStop (run : Nat)
  /-- `lost = true`, abort with `watukuy: lease lost`, stop. -/
  | keeperLose (run : Nat)
  | keeperLost (run : Nat)
  | keeperStopped (run : Nat)
  /-- Call a fetch function. -/
  | fetch (lane : Lane) (ctx : FetchContext)
  /-- Hand the fetch function the outcome of its request. -/
  | resume (res : Except JsError HttpResponse)
  /-- Take a page from the fetch function; `rest` is what it would go on with. -/
  | next (page : Page ι) (rest : UserCode ι)
  | charge (cost : Nat)
  | http (req : WireRequest)
  | newDrain
  | peekDrain (drain : Nat)
  | noteDrain (drain : Nat) (note : DrainNote)
  /-- Start the workers of a round. -/
  | startRound (deps : RunnerDeps ι) (lease : Lease) (run drain : Nat) (groups : List (Group ι))
  /-- `await Promise.all(workers)`; answers with the progress of the round. -/
  | joinRound (drain : Nat)
  /-- `queue.shift()`. -/
  | shift (drain : Nat)
  | workerDone (drain : Nat) (res : Except JsError Unit)
  | deliver (event : WatukuyEvent ι)
  /-- The end of the fuel: no answer ever comes. -/
  | diverge

variable {ι}

@[reducible] def Ans : Op ι → Type
  | .store o => Except JsError o.Result
  | .now => Int
  | .random => Rat
  | .newRun => Nat
  | .signal _ => Option JsError
  | .keeperLost _ => Bool
  | .keeperStopped _ => Bool
  | .fetch _ _ => UserCode ι
  | .charge _ => Except JsError Unit
  | .http _ => Except JsError RawResponse
  | .newDrain => Nat
  | .peekDrain _ => DrainMem ι
  | .joinRound _ => Except JsError Nat
  | .shift _ => Option (Group ι)
  | .deliver _ => Except JsError Unit
  | .diverge => Empty
  | _ => Unit

/-- An async function. -/
abbrev Proc (ι : Type) (α : Type) := Task (Op ι) Ans JsError α

/-- The body of an async function with local variables `σ`. -/
abbrev Body (ι σ α : Type) := Block (Op ι) Ans σ JsError α

/-- A call that cannot reject. -/
def call (o : Op ι) : Proc ι (Ans o) := Task.request o .ok

/-- A call of the store. -/
def store (o : StoreOp ι) : Proc ι o.Result := Task.request (.store o) id

def now : Proc ι Int := call .now

def random : Proc ι Rat := call .random

/-- `signal.aborted`. -/
def aborted (run : Nat) : Proc ι Bool := do
  let reason ← call (.signal run)
  return reason.isSome

/-- Deliver an event to the consumer. -/
def deliver (event : WatukuyEvent ι) : Proc ι Unit := Task.request (.deliver event) id

/-- `watukuy: lease lost`, the abort reason of a lost lease. -/
def leaseLostReason : JsError where
  kind := .plain
  name := "Error"
  message := "watukuy: lease lost"

/-- Run out of fuel. -/
def diverge {α : Type} : Proc ι α := Task.request .diverge fun x => x.elim

/-! ## Rules -/

section Rules

variable {C : Contract (Op ι) Ans} {v : C.View}

@[simp] theorem wp_call (o : Op ι) (Q : Ans o → C.View → Prop) (E : JsError → C.View → Prop) :
    (call o).wp C Q E v ↔ C.allow v o ∧ ∀ a, Q a (C.learn v o a) := by
  simp [call]

@[simp] theorem wp_now (Q : Int → C.View → Prop) (E : JsError → C.View → Prop) :
    (now : Proc ι Int).wp C Q E v ↔ C.allow v .now ∧ ∀ t, Q t (C.learn v .now t) :=
  wp_call .now Q E

@[simp] theorem wp_random (Q : Rat → C.View → Prop) (E : JsError → C.View → Prop) :
    (random : Proc ι Rat).wp C Q E v ↔ C.allow v .random ∧ ∀ q, Q q (C.learn v .random q) :=
  wp_call .random Q E

@[simp] theorem wp_store (o : StoreOp ι) (Q : o.Result → C.View → Prop)
    (E : JsError → C.View → Prop) :
    (store o).wp C Q E v ↔
      C.allow v (.store o) ∧ (∀ x, Q x (C.learn v (.store o) (.ok x))) ∧
        ∀ e, E e (C.learn v (.store o) (.error e)) := by
  unfold store
  rw [Task.wp_request]
  refine and_congr_right fun _ => ⟨fun h => ⟨fun x => (h _).1 x rfl, fun e => (h _).2 e rfl⟩, ?_⟩
  rintro ⟨hok, herr⟩ a
  refine ⟨fun x hx => ?_, fun e he => ?_⟩
  · obtain rfl : a = .ok x := hx
    exact hok x
  · obtain rfl : a = .error e := he
    exact herr e

@[simp] theorem wp_diverge {α : Type} (Q : α → C.View → Prop) (E : JsError → C.View → Prop) :
    (diverge : Proc ι α).wp C Q E v ↔ C.allow v .diverge := by
  unfold diverge
  rw [Task.wp_request]
  exact ⟨fun h => h.1, fun h => ⟨h, fun a => a.elim⟩⟩

end Rules

end Watukuy
