import Watukuy.Core.Types

/-!
# The consumer of a subscription

`SubscribeConsumer` of `core/consumers.ts`: the dispatcher delivers events to it, and the iterator
that `subscribe()` returns hands them out. Its methods run to completion, so each is a function of the
consumer; what it does to promises is listed as effects, in order. A promise is named by the number of
the call that made it: the `deliver` calls and the calls of the iterator are numbered separately.
-/

set_option autoImplicit false

namespace Watukuy

variable {ι : Type}

/-- `Pending`: an event and the promise of its delivery. -/
structure Pending (ι : Type) where
  event : WatukuyEvent ι
  promise : Nat

/-- What a method does to promises. -/
inductive Effect (ι : Type) where
  /-- The promise of a delivery resolves. -/
  | resolve (promise : Nat)
  | reject (promise : Nat) (reason : JsError)
  /-- The promise of a pull is fulfilled with an event. -/
  | hand (pull : Nat) (pending : Pending ι)
  /-- The promise of a pull is fulfilled with `done: true`. -/
  | finish (pull : Nat)

structure SubscribeConsumer (ι : Type) where
  puller : Option Nat := none
  inflight : Option (Pending ι) := none
  queue : List (Pending ι) := []
  closed : Bool := false
  closeReason : Option JsError := none
  iterated : Bool := false

/-- `new Error(message)`. -/
def plainError (message : String) : JsError := { kind := .plain, name := "Error", message }

namespace SubscribeConsumer

def pump (c : SubscribeConsumer ι) : SubscribeConsumer ι × List (Effect ι) :=
  match c.puller, c.inflight, c.queue with
  | some puller, none, next :: rest =>
    ({ c with puller := none, inflight := some next, queue := rest }, [.hand puller next])
  | _, _, _ => (c, [])

def settleInflight (c : SubscribeConsumer ι) (ok : Bool) (reason : Option JsError) :
    SubscribeConsumer ι × List (Effect ι) :=
  match c.inflight with
  | none => (c, [])
  | some f =>
    let settled := if ok then .resolve f.promise
      else .reject f.promise (reason.getD (plainError "event not acknowledged"))
    ({ c with inflight := none }, [settled])

def close (c : SubscribeConsumer ι) (reason : Option JsError) :
    SubscribeConsumer ι × List (Effect ι) :=
  if c.closed then (c, [])
  else
    let c := { c with closed := true, closeReason := reason }
    let (c, settled) :=
      c.settleInflight false (some (reason.getD (plainError "subscriber closed while event in flight")))
    let dropped := c.queue.map fun p =>
      .reject p.promise (reason.getD (plainError "subscriber closed"))
    ({ c with queue := [], puller := none }, settled ++ dropped ++ c.puller.toList.map .finish)

/-- The constructor: the reason of a signal that is already aborted closes the consumer. -/
def create (aborted : Option (Option JsError)) : SubscribeConsumer ι :=
  match aborted with
  | none => {}
  | some reason => (close {} reason).1

def deliver (c : SubscribeConsumer ι) (event : WatukuyEvent ι) (promise : Nat) :
    SubscribeConsumer ι × List (Effect ι) :=
  if c.closed then (c, [.reject promise (c.closeReason.getD (plainError "subscriber closed"))])
  else pump { c with queue := c.queue ++ [{ event, promise }] }

/-- `[Symbol.asyncIterator]()`. -/
def asyncIterator (c : SubscribeConsumer ι) : Except JsError (SubscribeConsumer ι) :=
  if c.iterated then .error (plainError "a watukuy subscription can only be iterated once")
  else .ok { c with iterated := true }

/-- `next()` of the iterator. -/
def next (c : SubscribeConsumer ι) (pull : Nat) : SubscribeConsumer ι × List (Effect ι) :=
  let (c, settled) := c.settleInflight true none
  if c.closed then (c, settled ++ [.finish pull])
  else
    let (c, handed) := pump { c with puller := some pull }
    (c, settled ++ handed)

/-- `return()` of the iterator. -/
def return_ (c : SubscribeConsumer ι) (pull : Nat) : SubscribeConsumer ι × List (Effect ι) :=
  let (c, settled) := c.settleInflight true none
  let (c, dropped) := c.close none
  (c, settled ++ dropped ++ [.finish pull])

/-- `throw(err)` of the iterator. -/
def throw_ (c : SubscribeConsumer ι) (pull : Nat) (err : Option JsError) :
    SubscribeConsumer ι × List (Effect ι) :=
  let (c, settled) := c.settleInflight false err
  let (c, dropped) := c.close err
  (c, settled ++ dropped ++ [.finish pull])

end SubscribeConsumer

/-! ## Sessions -/

/-- A call of a consumer or of its iterator. -/
inductive ConsumerCall (ι : Type) where
  | deliver (event : WatukuyEvent ι)
  | next
  | return_
  | throw_ (err : Option JsError)
  | close (reason : Option JsError)
  /-- The signal of the subscription aborts: its listener closes the consumer. -/
  | abort (reason : Option JsError)

/-- A consumer, and the numbers of the next delivery and of the next pull. -/
structure Session (ι : Type) where
  consumer : SubscribeConsumer ι
  delivers : Nat := 0
  pulls : Nat := 0

/-- A call and what it does. -/
def Session.call (s : Session ι) : ConsumerCall ι → Session ι × List (Effect ι)
  | .deliver event =>
    let (c, fx) := s.consumer.deliver event s.delivers
    ({ s with consumer := c, delivers := s.delivers + 1 }, fx)
  | .next =>
    let (c, fx) := s.consumer.next s.pulls
    ({ s with consumer := c, pulls := s.pulls + 1 }, fx)
  | .return_ =>
    let (c, fx) := s.consumer.return_ s.pulls
    ({ s with consumer := c, pulls := s.pulls + 1 }, fx)
  | .throw_ err =>
    let (c, fx) := s.consumer.throw_ s.pulls err
    ({ s with consumer := c, pulls := s.pulls + 1 }, fx)
  | .close reason =>
    let (c, fx) := s.consumer.close reason
    ({ s with consumer := c }, fx)
  | .abort reason =>
    let (c, fx) := s.consumer.close reason
    ({ s with consumer := c }, fx)

/-- What a session shows: its calls, each followed by its effects. -/
inductive Moment (ι : Type) where
  | called (call : ConsumerCall ι)
  | effect (e : Effect ι)

/-- The session after some calls. -/
def Session.run (s : Session ι) : List (ConsumerCall ι) → Session ι
  | [] => s
  | call :: calls => (s.call call).1.run calls

/-- What some calls show. -/
def Session.log (s : Session ι) : List (ConsumerCall ι) → List (Moment ι)
  | [] => []
  | call :: calls =>
    .called call :: (s.call call).2.map .effect ++ (s.call call).1.log calls

/-- A session whose signal, if there is one, may already be aborted. -/
def Session.start (aborted : Option (Option JsError)) : Session ι := { consumer := .create aborted }

end Watukuy
