import Watukuy.Core.System

/-!
# The calls of the dispatcher

`DrainCall` lists the calls that draining, renewing the lease and the heartbeat are made of. None of
them reads or writes what a cycle computes with, so a cycle may be reasoned about without them.
`ForkedCall` lists those among them that the threads of a call make: workers and heartbeats.
-/

set_option autoImplicit false

namespace Watukuy

open Library Task

variable {ι : Type}

/-- The store calls of a drain. -/
def DrainStoreCall : StoreOp ι → Prop
  | .renewLease _ _ _ => True
  | .loadPending _ => True
  | .countPending => True
  | .heldKeys => True
  | .ackEvents _ _ => True
  | .recordAttempt _ _ _ _ => True
  | .parkEvent _ _ => True
  | _ => False

/-- The calls of a drain, of `renewNow` and of the heartbeat. -/
def DrainCall : Op ι → Prop
  | .store o => DrainStoreCall o
  | .now => True
  | .random => True
  | .signal _ => True
  | .keeperLose _ => True
  | .keeperLost _ => True
  | .keeperStopped _ => True
  | .newDrain => True
  | .peekDrain _ => True
  | .noteDrain _ _ => True
  | .startRound _ _ _ _ _ => True
  | .joinRound _ => True
  | .shift _ => True
  | .workerDone _ _ => True
  | .deliver _ => True
  | .diverge => True
  | _ => False

/-- The store calls of a worker, and of the heartbeat. -/
def ForkedStoreCall : StoreOp ι → Prop
  | .renewLease _ _ _ => True
  | .ackEvents _ _ => True
  | .recordAttempt _ _ _ _ => True
  | .parkEvent _ _ => True
  | _ => False

/-- The calls of a worker, and of the heartbeat. -/
def ForkedCall : Op ι → Prop
  | .store o => ForkedStoreCall o
  | .now => True
  | .random => True
  | .signal _ => True
  | .keeperLose _ => True
  | .keeperStopped _ => True
  | .peekDrain _ => True
  | .noteDrain _ _ => True
  | .shift _ => True
  | .workerDone _ _ => True
  | .deliver _ => True
  | .diverge => True
  | _ => False

theorem ForkedCall.drain {o : Op ι} (h : ForkedCall o) : DrainCall o := by
  cases o with
  | store o => cases o <;> first | exact h.elim | trivial
  | _ => first | exact h.elim | trivial

section Uses

variable (deps : RunnerDeps ι) (lease : Lease) (run drain : Nat)

theorem forked_call {o : Op ι} (h : ForkedCall o) : (call o).Uses ForkedCall := uses_request h _

theorem forked_store {o : StoreOp ι} (h : ForkedStoreCall o) : (store o).Uses ForkedCall :=
  uses_request (o := Op.store o) h _

theorem call_uses {o : Op ι} (h : DrainCall o) : (call o).Uses DrainCall := uses_request h _

theorem store_uses {o : StoreOp ι} (h : DrainStoreCall o) : (store o).Uses DrainCall :=
  uses_request (o := Op.store o) h _

theorem diverge_uses {α : Type} : (diverge : Proc ι α).Uses DrainCall :=
  uses_request (o := Op.diverge) trivial _

/-! The keeper -/

theorem heartbeat_uses (n : Nat) : (heartbeat deps run lease n).Uses ForkedCall := by
  induction n with
  | zero => exact uses_request (o := Op.diverge) trivial _
  | succ n ih =>
    apply Uses.bind (uses_request trivial _)
    intro isStopped
    apply Uses.ite (uses_pure ())
    apply Uses.bind (uses_request trivial _)
    intro at_
    apply Uses.bind (Uses.attempt (uses_request trivial _))
    intro r
    split
    · exact uses_request trivial _
    · exact ih

theorem stopped_uses : (stopped run drain : Proc ι Bool).Uses ForkedCall := by
  have haborted : (aborted run : Proc ι Bool).Uses ForkedCall :=
    Uses.bind (forked_call trivial) fun reason => uses_pure _
  refine Uses.bind haborted fun b => Uses.ite (uses_pure true) ?_
  exact Uses.bind (forked_call trivial) fun mem => uses_pure _

theorem onDeliveryError_uses (group : String) (row : OutboxRow ι) (err : JsError) :
    (onDeliveryError deps lease drain group row err).Uses ForkedCall := by
  refine Uses.ite ?_ ?_
  · refine Uses.bind (forked_call trivial) fun failedAt => Uses.bind (forked_call trivial) fun parkedAt =>
      Uses.bind (forked_store trivial) fun _ => Uses.bind (forked_call trivial) fun _ => Uses.ite ?_ (Uses.ite ?_ ?_)
    · exact Uses.bind (forked_call trivial) fun _ => uses_pure _
    · exact Uses.bind (forked_call trivial) fun _ => uses_pure _
    · exact uses_pure _
  · refine Uses.bind (forked_call trivial) fun draw => Uses.bind (forked_call trivial) fun failedAt =>
      Uses.bind (forked_store trivial) fun _ => Uses.bind (forked_call trivial) fun _ => ?_
    exact Uses.bind (forked_call trivial) fun _ => Uses.bind (forked_call trivial) fun _ => uses_pure _

theorem deliverRow_uses (group : String) (row : OutboxRow ι) :
    (deliverRow deps lease drain group row).Uses ForkedCall := by
  refine Uses.bind (forked_call trivial) fun startedAt => ?_
  split
  · exact Uses.bind (forked_call trivial) fun _ => Uses.bind (forked_call trivial) fun _ => uses_pure _
  · have hdeliver : (deliverAndAck lease row).Uses ForkedCall :=
      Uses.bind (uses_request (o := Op.deliver _) trivial _) fun _ => forked_store trivial
    refine Uses.bind (Uses.attempt hdeliver) fun r => ?_
    split
    · exact Uses.bind (forked_call trivial) fun _ => uses_pure _
    · exact Uses.ite (uses_throw _) (onDeliveryError_uses deps lease drain group row _)

theorem deliverRows_uses (group : String) (rows : List (OutboxRow ι)) :
    (deliverRows deps lease run drain group rows).Uses ForkedCall := by
  induction rows with
  | nil => exact uses_pure true
  | cons row rest ih =>
    refine Uses.bind (stopped_uses run drain) fun b => Uses.ite (uses_pure false) ?_
    refine Uses.bind (deliverRow_uses deps lease drain group row) fun e => ?_
    cases e with
    | next => exact ih
    | leaveGroup => exact uses_pure true
    | stop => exact uses_pure false

theorem worker_uses (n : Nat) : (worker deps lease run drain n).Uses ForkedCall := by
  induction n with
  | zero => exact (uses_request (o := Op.diverge) trivial _)
  | succ n ih =>
    refine Uses.bind (forked_call trivial) fun next => ?_
    cases next with
    | none => exact uses_pure ()
    | some group =>
      refine Uses.bind (stopped_uses run drain) fun b => Uses.ite (uses_pure ()) ?_
      exact Uses.bind (deliverRows_uses deps lease run drain group.key group.rows) fun b =>
        Uses.ite ih (uses_pure ())

theorem workerThread_uses (n : Nat) : (workerThread deps lease run drain n).Uses ForkedCall :=
  (Prog.wp_bind _ _ _ _).2 <| Prog.wp_mono (fun _ _ _ => ⟨trivial, fun _ => trivial⟩)
    (worker_uses deps lease run drain n)

theorem drainLoop_uses (fuel window : Nat) :
    (drainLoop deps lease run drain fuel window).Uses DrainCall := by
  induction fuel generalizing window with
  | zero => exact diverge_uses
  | succ fuel ih =>
    refine Uses.bind (Uses.mono (fun _ => ForkedCall.drain) (stopped_uses run drain)) fun b => Uses.ite (uses_pure ()) ?_
    refine Uses.bind (store_uses trivial) fun rows => Uses.ite (uses_pure ()) ?_
    refine Uses.bind (store_uses trivial) fun held => Uses.bind (call_uses trivial) fun mem => ?_
    refine Uses.ite (Uses.ite (uses_pure ()) (ih _)) ?_
    refine Uses.bind (call_uses trivial) fun _ => ?_
    refine Uses.bind (uses_request (o := Op.joinRound drain) trivial _) fun progress => ?_
    exact Uses.ite (uses_pure ()) (ih _)

theorem drainOutbox_uses : (drainOutbox deps lease run).Uses DrainCall := by
  refine Uses.ite ?_ ?_
  · refine Uses.bind (call_uses trivial) fun drain =>
      Uses.bind (drainLoop_uses deps lease run drain _ _) fun _ => ?_
    exact Uses.bind (store_uses trivial) fun remaining => Uses.bind (call_uses trivial) fun mem => uses_pure _
  · exact Uses.bind (store_uses trivial) fun remaining => uses_pure _

/-- The threads a call forks drain, or renew the lease. -/
theorem forks_forked (o : Op ι) (a : Ans o) : ∀ p ∈ forks o a, p.Uses ForkedCall := by
  intro p hp
  cases o with
  | keeperStart deps run lease =>
    rw [List.mem_singleton.1 hp]
    exact (heartbeat_uses deps lease run _).forget
  | startRound deps lease run drain groups =>
    rw [List.eq_of_mem_replicate hp]
    exact workerThread_uses deps lease run drain _
  | _ => simp [forks] at hp

theorem forks_uses (o : Op ι) (a : Ans o) : ∀ p ∈ forks o a, p.Uses DrainCall := by
  intro p hp
  exact Prog.Uses.mono (fun _ => ForkedCall.drain) (forks_forked o a p hp)

end Uses

end Watukuy
