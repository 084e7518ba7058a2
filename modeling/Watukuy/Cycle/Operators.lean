import Watukuy.Cycle.Stays
import Watukuy.Cycle.Obeys

/-!
# Operators act on request

Executions neither retry nor discard parked events, and they write no state without their lease:
those calls are made by operators, for the requests of a run (`requestsObeyed`).
-/

set_option autoImplicit false

namespace Watukuy

open Library Task

variable {ι : Type}

/-- The request writes the state without a lease. -/
def EngineCall.Unfenced : EngineCall → Prop
  | .trigger => True
  | .pause => True
  | .resume => True
  | .backfill _ => True
  | .resetCursor _ => True
  | _ => False

/-- The request saves the flag. -/
def EngineCall.SavesPaused : EngineCall → Prop
  | .pause => True
  | .resume => True
  | _ => False

/-- The operators' calls are made for requests among `S`. -/
def Requested (S : EngineCall → Prop) : Op ι → Prop
  | .store (.saveState _ patch) => patch.paused = none
  | .store (.saveStateUnfenced patch) =>
    ∃ call, S call ∧ call.Unfenced ∧ (patch.paused = none ∨ call.SavesPaused)
  | .store (.commitPoll _ batch) => batch.statePatch.paused = none
  | .store .clearItems => ∃ options, S (.resetCursor options)
  | .store .deleteKey => S .removePartition
  | .store (.retryParked ids) => S (.parkedRetry ids)
  | .store (.discardParked ids) => S (.parkedDiscard ids)
  | .store (.readLog _ _) => ∃ fromTime toTime, S (.replay fromTime toTime)
  | _ => True

theorem DrainCall.requested {S : EngineCall → Prop} {o : Op ι} (h : DrainCall o) : Requested S o := by
  cases o with
  | store o => cases o <;> first | exact h.elim | trivial
  | _ => trivial

/-- An execution makes no call of an operator. -/
theorem executionRequested (S : EngineCall → Prop) (deps : RunnerDeps ι) (lease : Lease) :
    ExecutionKept (only (Requested S)) (fun _ => True) deps lease where
  plain v o _ ho := by
    refine ⟨?_, fun _ => trivial⟩
    cases o with
    | store o =>
      cases o with
      | saveState l patch => exact ho.2
      | commitPoll l batch => exact ho.2
      | _ => first | exact ho.elim | trivial
    | _ => trivial
  drain run := (drainOutbox_uses deps lease run).stays fun _ _ _ ho => ⟨ho.requested, fun _ => trivial⟩

section Requests

variable {S : EngineCall → Prop} {deps : RunnerDeps ι}

theorem requested_call {o : Op ι} (h : Requested S o) : (call o).Uses (Requested S) :=
  uses_request h _

theorem requested_store {o : StoreOp ι} (h : Requested S (.store o)) :
    (store o).Uses (Requested S) := uses_request (o := Op.store o) h _

theorem runHeld_requested (opts : RunKeyOptions) (pre : PollerState) (lease : Lease) :
    (runHeld deps opts pre lease).Uses (Requested S) := by
  apply Uses.bind
  · exact requested_call trivial
  intro run
  apply Uses.bind
  · exact requested_call trivial
  intro _
  apply Uses.finallyDo
  · exact ((heldBody_stays (h := ⟨deps, opts, lease, run⟩)
      (executionRequested S deps lease)).run _).uses
  apply Uses.bind
  · exact requested_call trivial
  intro _
  apply Uses.bind
  · exact Uses.attempt (requested_store trivial)
  intro _
  exact uses_pure ()

theorem runKey_requested (opts : RunKeyOptions) : (runKey deps opts).Uses (Requested S) := by
  apply Uses.bind
  · exact requested_call trivial
  intro now0
  apply Uses.bind
  · exact requested_store trivial
  intro loaded
  apply Uses.ite (uses_pure _)
  apply Uses.bind
  · exact Uses.ite (requested_store trivial) (uses_pure 0)
  intro pending
  apply Uses.ite (uses_pure _)
  apply Uses.bind
  · exact requested_call trivial
  intro at_
  apply Uses.bind
  · exact requested_store trivial
  intro got
  cases got with
  | none => exact uses_pure _
  | some lease => exact runHeld_requested opts _ lease

end Requests

/-! ## The calls of an operation -/

/-- The operation reads the log. -/
def EngineCall.Replays (request : EngineCall) : Prop :=
  ∃ fromTime toTime, request = .replay fromTime toTime

/-- The store calls that an operation makes. -/
def EngineCall.MakesStore (request : EngineCall) : StoreOp ι → Prop
  | .loadState => True
  | .saveStateUnfenced patch => request.Unfenced ∧ (patch.paused = none ∨ request.SavesPaused)
  | .clearItems => ∃ options, request = .resetCursor options
  | .deleteKey => request = .removePartition
  | .retryParked ids => request = .parkedRetry ids
  | .discardParked ids => request = .parkedDiscard ids
  | .acquireLease _ _ _ => request.Replays
  | .releaseLease _ => request.Replays
  | .readLog _ _ => request.Replays
  | .commitPoll _ batch =>
    request.Replays ∧ batch.statePatch.lanes = none ∧ batch.statePatch.paused = none
  | _ => False

/-- The calls that an operation makes. -/
def EngineCall.Makes (request : EngineCall) : Op ι → Prop
  | .store o => request.MakesStore o
  | .now => True
  | .diverge => request.Replays
  | _ => False

section Makes

variable {request : EngineCall} {deps : RunnerDeps ι}

theorem makes_store {o : StoreOp ι} (h : request.MakesStore o) : (store o).Uses request.Makes :=
  uses_request (o := Op.store o) h _

theorem makes_now : (now : Proc ι Int).Uses request.Makes := uses_request (o := Op.now) trivial _

theorem ofExcept_makes {α : Type} (r : Except JsError α) :
    (Task.ofExcept r : Proc ι α).Uses request.Makes := trivial

theorem trigger_makes : (trigger deps).Uses EngineCall.trigger.Makes := by
  apply Uses.bind makes_now
  intro at_
  apply Uses.bind
  · exact makes_store trivial
  intro state
  exact makes_store ⟨trivial, .inl rfl⟩

theorem pause_makes : (pause : Proc ι Unit).Uses EngineCall.pause.Makes := by
  apply Uses.bind makes_now
  intro at_
  exact makes_store ⟨trivial, .inr trivial⟩

theorem resume_makes : (resume : Proc ι Unit).Uses EngineCall.resume.Makes := by
  apply Uses.bind makes_now
  intro at_
  exact makes_store ⟨trivial, .inr trivial⟩

theorem backfill_makes (options : BackfillOptions) :
    (backfill deps options).Uses (EngineCall.backfill options).Makes := by
  apply Uses.bind (Uses.when (uses_throw _))
  intro _
  apply Uses.bind
  · exact makes_store trivial
  intro state
  apply Uses.bind (ofExcept_makes _)
  intro start
  apply Uses.bind (ofExcept_makes _)
  intro cursor
  apply Uses.bind (ofExcept_makes _)
  intro target
  apply Uses.bind makes_now
  intro at_
  exact makes_store ⟨trivial, .inl rfl⟩

theorem resetCursor_makes (options : ResetCursorOptions) :
    (resetCursor deps options).Uses (EngineCall.resetCursor options).Makes := by
  apply Uses.bind
  · exact makes_store trivial
  intro state
  apply Uses.bind (ofExcept_makes _)
  intro cursor
  apply Uses.bind makes_now
  intro at_
  apply Uses.bind
  · exact makes_store ⟨trivial, .inl rfl⟩
  intro _
  exact Uses.when (makes_store ⟨options, rfl⟩)

theorem acquireWithRetry_makes (h : request.Replays) (n : Nat) :
    (acquireWithRetry deps n).Uses request.Makes := by
  induction n with
  | zero => exact uses_throw _
  | succ n ih =>
    apply Uses.bind makes_now
    intro at_
    apply Uses.bind
    · exact makes_store h
    intro got
    cases got with
    | none => exact ih
    | some lease => exact uses_pure _

theorem replayLoop_makes (h : request.Replays) (lease : Lease) (fromTime : Int)
    (toTime : Option Int) (fuel sequence : Nat) (afterSequence : Option Nat) (replayed : Nat) :
    (replayLoop (ι := ι) lease fromTime toTime fuel sequence afterSequence replayed).Uses
      request.Makes := by
  induction fuel generalizing sequence afterSequence replayed with
  | zero => exact uses_request (o := Op.diverge) h _
  | succ fuel ih =>
    apply Uses.bind
    · exact makes_store h
    intro logged
    apply Uses.ite (uses_pure _)
    apply Uses.bind makes_now
    intro at_
    apply Uses.bind
    · exact makes_store ⟨h, rfl, rfl⟩
    intro _
    exact Uses.ite (uses_pure _) (ih _ _ _)

theorem replay_makes (h : request.Replays) (fromTime : Int) (toTime : Option Int) :
    (replay deps fromTime toTime).Uses request.Makes := by
  apply Uses.bind (Uses.when (uses_throw _))
  intro _
  apply Uses.bind (acquireWithRetry_makes h 20)
  intro lease
  apply Uses.finallyDo
  · apply Uses.bind
    · exact makes_store trivial
    intro state
    exact replayLoop_makes h _ _ _ _ _ _ _
  · exact makes_store h

/-- Whatever is asked for besides an execution, only the calls of that operation are made. -/
theorem EngineCall.makes (request : EngineCall) (deps : RunnerDeps ι)
    (h : ∀ opts, request ≠ .runKey opts) : (request.prog deps).Uses request.Makes := by
  cases request with
  | runKey opts => exact absurd rfl (h opts)
  | trigger => exact trigger_makes.forget
  | pause => exact pause_makes.forget
  | resume => exact resume_makes.forget
  | backfill options => exact (backfill_makes options).forget
  | resetCursor options => exact (resetCursor_makes options).forget
  | replay fromTime toTime => exact (replay_makes ⟨_, _, rfl⟩ fromTime toTime).forget
  | parkedRetry ids => exact Uses.forget (makes_store (o := .retryParked ids) rfl)
  | parkedDiscard ids => exact Uses.forget (makes_store (o := .discardParked ids) rfl)
  | removePartition => exact Uses.forget (makes_store (o := .deleteKey) rfl)

theorem EngineCall.Makes.requested {S : EngineCall → Prop} (hS : S request) {o : Op ι}
    (h : request.Makes o) : Requested S o := by
  cases o with
  | store o =>
    cases o with
    | saveStateUnfenced patch => exact ⟨request, hS, h⟩
    | clearItems =>
      obtain ⟨options, rfl⟩ := h
      exact ⟨options, hS⟩
    | deleteKey =>
      obtain rfl : request = .removePartition := h
      exact hS
    | retryParked ids =>
      obtain rfl : request = .parkedRetry ids := h
      exact hS
    | discardParked ids =>
      obtain rfl : request = .parkedDiscard ids := h
      exact hS
    | readLog _ _ =>
      obtain ⟨fromTime, toTime, rfl⟩ := h
      exact ⟨fromTime, toTime, hS⟩
    | commitPoll l batch => exact h.2.2
    | _ => first | exact h.elim | trivial
  | _ => first | exact h.elim | trivial

end Makes

/-- In every run, the operators' calls are made for requests. -/
theorem requestsObeyed (d : Deployment ι) (S : EngineCall → Prop) :
    Obeys (system ι) (d.entry S) (only (Requested S)) () where
  entry_keeps p hp := by
    obtain ⟨deps, call, -, hS, rfl⟩ := hp
    cases call with
    | runKey opts => exact (runKey_requested opts).forget
    | _ =>
      refine Prog.Uses.mono (fun _ => EngineCall.Makes.requested hS) (EngineCall.makes _ deps ?_)
      intro opts h
      cases h
  forks_keep o a p hp := Prog.Uses.mono (fun _ => DrainCall.requested) (forks_uses o a p hp)

end Watukuy
