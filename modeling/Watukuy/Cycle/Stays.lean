import Watukuy.Cycle.LaneCalls

/-!
# Executions keep what drains and plain calls keep

`PlainCall` lists the calls an execution makes besides those of its drains. An invariant of the view
that plain calls and drains keep is kept by every execution, however it ends.
-/

set_option autoImplicit false

namespace Watukuy

open Library Task
open Block (assign await locals)

variable {ι : Type}

/-- The store calls of an execution under its lease, outside its drains. None of them pauses or
resumes the key. -/
def PlainStoreCall (lease : Lease) : StoreOp ι → Prop
  | .renewLease l _ _ => l = lease
  | .loadState => True
  | .saveState l p => l = lease ∧ p.paused = none
  | .loadVersions _ => True
  | .streamIdentities => True
  | .commitPoll l b => l = lease ∧ b.statePatch.paused = none
  | .countPending => True
  | .getValidator _ => True
  | .setValidator l _ _ => l = lease
  | _ => False

/-- The calls of an execution under its lease, outside its drains. -/
def PlainCall (lease : Lease) : Op ι → Prop
  | .store o => PlainStoreCall lease o
  | .now => True
  | .random => True
  | .pollStart _ => True
  | .pollEnd _ => True
  | .signal _ => True
  | .keeperLose _ => True
  | .keeperLost _ => True
  | .keeperStopped _ => True
  | .fetch _ _ => True
  | .resume _ => True
  | .next _ _ => True
  | .charge _ => True
  | .http _ => True
  | .diverge => True
  | _ => False

/-- The invariant `I` of the view is kept by what executions are made of. -/
structure ExecutionKept (C : Contract (Op ι) Ans) (I : C.View → Prop) (deps : RunnerDeps ι)
    (lease : Lease) : Prop where
  plain : ∀ v o, I v → PlainCall lease o → C.allow v o ∧ ∀ a, I (C.learn v o a)
  drain : ∀ run, (drainOutbox deps lease run).Stays C I

section Calls

variable {C : Contract (Op ι) Ans} {I : C.View → Prop} {deps : RunnerDeps ι} {lease : Lease}
  (hK : ExecutionKept C I deps lease)
include hK

theorem stays_plain {o : Op ι} (h : PlainCall lease o) {ε α : Type} (f : Ans o → Except ε α) :
    (Task.request o f : Task (Op ι) Ans ε α).Stays C I :=
  stays_request (fun v hv => hK.plain v o hv h) f

theorem stays_call {o : Op ι} (h : PlainCall lease o) : (call o).Stays C I := stays_plain hK h _

theorem stays_store {o : StoreOp ι} (h : PlainStoreCall lease o) : (store o).Stays C I :=
  stays_plain (o := Op.store o) hK h _

theorem stays_now : (now : Proc ι Int).Stays C I := stays_call hK trivial

theorem stays_diverge {α : Type} : (diverge : Proc ι α).Stays C I :=
  stays_plain (o := Op.diverge) hK trivial _

theorem aborted_stays (run : Nat) : (aborted run : Proc ι Bool).Stays C I := by
  apply Stays.bind
  · exact stays_call hK trivial
  intro reason
  exact stays_pure _

theorem renewNow_stays (run : Nat) : (renewNow deps run lease).Stays C I := by
  apply Stays.bind
  · exact stays_call hK trivial
  intro isStopped
  apply Stays.ite
  · apply Stays.bind
    · exact stays_call hK trivial
    intro lost
    exact stays_pure _
  apply (stays_now hK).bind
  intro at_
  apply Stays.bind
  · exact stays_store hK rfl
  intro ok
  apply Stays.bind
  · exact Stays.when (stays_call hK trivial)
  intro _
  exact stays_pure _

theorem openCircuitForHalt_stays (state : PollerState) :
    (openCircuitForHalt deps lease state).Stays C I := by
  apply (stays_now hK).bind
  intro at_
  apply Stays.bind
  · exact stays_store hK ⟨rfl, rfl⟩
  intro _
  exact stays_pure _

end Calls

/-! ## A cycle -/

section Cycle

variable {C : Contract (Op ι) Ans} {I : C.View → Prop} {c : Cycle ι}
  (hK : ExecutionKept C I c.deps c.lease)
include hK

theorem buildRows_stays (cursor : CursorVal) (n : Nat) (specs : List (EventSpec ι)) :
    (buildRows c.deps c.lane cursor n specs).Stays C I := by
  induction specs generalizing n with
  | nil => exact stays_pure []
  | cons spec rest ih =>
    apply (stays_now hK).bind
    intro at_
    apply (ih (n + 1)).bind
    intro rows
    exact stays_pure _

theorem processPage_stays (items : List ι) (n : Nat) (cursor : CursorVal) :
    (processPage c items n cursor).Stays C I := by
  apply (stays_now hK).bind
  intro at_
  apply (stays_ofExcept _).bind
  intro validated
  apply (Stays.when (stays_throw _)).bind
  intro _
  apply Stays.bind
  · exact stays_store hK trivial
  intro existing
  apply (stays_ofExcept _).bind
  intro prepared
  apply (buildRows_stays hK _ _ _).bind
  intro events
  exact stays_pure _

theorem throwIfAborted_stays : (throwIfAborted c.run : Proc ι Unit).Stays C I := by
  apply Stays.bind
  · exact stays_call hK trivial
  intro reason
  cases reason with
  | none => exact stays_pure ()
  | some e => exact stays_throw e

theorem pastDeadline_stays : (pastDeadline c).Stays C I := by
  unfold pastDeadline
  split
  · exact stays_pure false
  · apply (stays_now hK).bind
    intro at_
    exact stays_pure _

theorem fetchCursor_stays (s : CycleLocals) : (fetchCursor c s).Stays C I := by
  apply Stays.ite
  · apply (stays_now hK).bind
    intro at_
    exact stays_ofExcept _
  · exact stays_pure _

theorem prepareRequest_stays (r : HttpRequest) : (prepareRequest c.http r).Stays C I := by
  apply (throwIfAborted_stays hK).bind
  intro _
  apply Stays.bind
  · apply Stays.when
    exact stays_plain hK (o := Op.charge _) trivial _
  intro _
  apply Stays.ite
  · have hload : (loadValidator (c.http.crypto.hashUrl r.url)).Stays C I := by
      apply Stays.bind
      · exact Stays.attempt (stays_store hK trivial)
      intro r
      split <;> exact stays_pure _
    apply hload.bind
    intro stored
    exact stays_pure _
  · exact stays_pure _

theorem settleResponse_stays (r : HttpRequest) (raw : RawResponse) (rl : Option RateLimitInfo) :
    (settleResponse c.http r raw rl).Stays C I := by
  apply Stays.ite (stays_pure _)
  apply Stays.ite
  · apply Stays.bind
    · apply Stays.when
      apply Stays.ite (stays_pure ())
      apply (stays_now hK).bind
      intro storedAt
      apply Stays.bind
      · exact Stays.attempt (stays_store hK rfl)
      intro _
      exact stays_pure ()
    intro _
    exact stays_pure _
  · apply (stays_now hK).bind
    intro readAt
    exact Stays.ite (stays_throw _) (stays_pure _)

theorem request_stays (r : HttpRequest) : (request c.http r).Stays C I := by
  apply (Block.stays_await (prepareRequest_stays hK r)).bind
  intro wire
  apply Block.Stays.bind
  · apply Block.Stays.bind
    · apply Block.stays_await
      exact stays_plain hK (o := Op.http wire) trivial _
    intro raw
    apply (Block.Stays.when (Block.stays_assign _)).bind
    intro _
    apply (Block.stays_await (stays_now hK)).bind
    intro receivedAt
    apply Block.Stays.bind
    · exact Block.Stays.forSome fun info => Block.stays_assign _
    intro _
    exact Block.stays_pure _
  intro sent
  exact Block.stays_await (settleResponse_stays hK r sent.1 sent.2)

theorem savePage_stays (commit : PageCommit ι) (cursor : CursorVal) :
    (savePage c commit cursor).Stays C I := by
  apply Block.stays_locals.bind
  intro s
  apply (Block.stays_await (stays_now hK)).bind
  intro updatedAt
  apply Block.Stays.bind
  · exact Block.stays_await (stays_store hK ⟨rfl, rfl⟩)
  intro _
  apply (Block.stays_await (stays_now hK)).bind
  intro savedAt
  exact Block.stays_assign _

theorem commitPage_stays (page : Page ι) : (commitPage c page).Stays C I := by
  apply (Block.stays_assign _).bind
  intro _
  apply (Block.stays_await (stays_now hK)).bind
  intro at_
  apply Block.stays_locals.bind
  intro s
  apply (Block.stays_await (stays_ofExcept _)).bind
  intro adv
  apply (Block.stays_await (stays_ofExcept _)).bind
  intro cursor
  apply (Block.stays_await (processPage_stays hK _ _ _)).bind
  intro commit
  apply (Block.stays_assign _).bind
  intro _
  apply (Block.stays_await (stays_ofExcept _)).bind
  intro reached
  apply (Block.Stays.when (Block.stays_assign _)).bind
  intro _
  apply (savePage_stays hK commit cursor).bind
  intro _
  exact Block.stays_pure _

theorem drainPage_stays : (drainPage c).Stays C I := by
  apply (Block.stays_await (hK.drain c.run)).bind
  intro drain
  apply (Block.stays_assign _).bind
  intro _
  apply Block.Stays.ite
  · apply Block.stays_locals.bind
    intro s
    apply (Block.stays_await (openCircuitForHalt_stays hK _)).bind
    intro state
    apply (Block.stays_assign _).bind
    intro _
    exact Block.stays_pure true
  · exact Block.stays_pure false

theorem afterPage_stays : (afterPage c).Stays C I := by
  apply (Block.stays_await (renewNow_stays hK c.run)).bind
  intro held
  apply Block.Stays.ite _ (Block.stays_throw _)
  apply Block.stays_locals.bind
  intro s
  apply Block.Stays.ite (Block.stays_pure _)
  apply (Block.stays_await (aborted_stays hK c.run)).bind
  intro stop
  apply Block.Stays.ite (Block.stays_pure _)
  apply (Block.stays_await (pastDeadline_stays hK)).bind
  intro late
  have htruncate : (do assign truncate_; return PageEnd.leaveOuter : Body ι CycleLocals PageEnd).Stays C I :=
    (Block.stays_assign _).bind fun _ => Block.stays_pure _
  exact Block.Stays.ite htruncate (Block.Stays.ite htruncate (Block.stays_pure _))

theorem onPage_stays (page : Page ι) : (onPage c page).Stays C I := by
  apply (commitPage_stays hK page).bind
  intro hasEvents
  apply Block.Stays.ite _ (afterPage_stays hK)
  apply (drainPage_stays hK).bind
  intro halted
  exact Block.Stays.ite (Block.stays_pure _) (afterPage_stays hK)

theorem forAwait_stays (u : UserCode ι) (n : Nat) : (forAwait c u n).Stays C I := by
  induction u generalizing n with
  | finish => exact Block.stays_pure _
  | raise e => exact Block.stays_throw e
  | page page rest ih =>
    apply Block.Stays.bind
    · exact Block.stays_await (stays_call hK trivial)
    intro _
    apply (onPage_stays hK page).bind
    intro e
    cases e with
    | next => exact ih (n + 1)
    | leave => exact Block.stays_pure _
    | leaveOuter => exact Block.stays_pure _
  | request r k ih =>
    apply (request_stays hK r).attempt.bind
    intro res
    apply Block.Stays.bind
    · exact Block.stays_await (stays_call hK trivial)
    intro _
    exact ih res n

theorem fetchPages_stays : (fetchPages c).Stays C I := by
  apply Block.stays_locals.bind
  intro s
  apply (Block.stays_await (fetchCursor_stays hK s)).bind
  intro cursor
  apply Block.Stays.bind
  · exact Block.stays_await (stays_call hK trivial)
  intro code
  exact forAwait_stays hK code 0

theorem scan_stays (n : Nat) : (scan c n).Stays C I := by
  induction n with
  | zero => exact Block.stays_await (stays_diverge hK)
  | succ n ih =>
    apply Block.stays_locals.bind
    intro s
    apply Block.Stays.ite (Block.stays_pure ())
    apply (Block.stays_await (throwIfAborted_stays hK)).bind
    intro _
    apply (Block.stays_await (pastDeadline_stays hK)).bind
    intro late
    apply Block.Stays.ite (Block.stays_assign _)
    apply Block.Stays.ite (Block.stays_assign _)
    apply (fetchPages_stays hK).bind
    intro e
    cases e with
    | outer => exact Block.stays_pure ()
    | pages k => exact (Block.Stays.when (Block.stays_assign _)).bind fun _ => ih

theorem deleteMissing_stays (missing : List String) : (deleteMissing c missing).Stays C I := by
  apply Block.Stays.bind
  · exact Block.stays_await (stays_store hK trivial)
  intro rows
  apply Block.stays_locals.bind
  intro s
  apply (Block.stays_await (stays_ofExcept _)).bind
  intro cursor
  apply (Block.stays_await (buildRows_stays hK _ _ _)).bind
  intro events
  apply (Block.stays_assign _).bind
  intro _
  apply Block.stays_locals.bind
  intro s
  apply (Block.stays_await (stays_now hK)).bind
  intro updatedAt
  apply Block.Stays.bind
  · exact Block.stays_await (stays_store hK ⟨rfl, rfl⟩)
  intro _
  apply (Block.stays_await (stays_now hK)).bind
  intro savedAt
  apply (Block.stays_assign _).bind
  intro _
  apply Block.Stays.when
  apply (Block.stays_await (hK.drain c.run)).bind
  intro drain
  exact Block.stays_assign _

theorem deletePhase_stays : (deletePhase c).Stays C I := by
  apply Block.stays_locals.bind
  intro s
  apply Block.Stays.when
  apply Block.Stays.bind
  · exact Block.stays_await (stays_store hK trivial)
  intro batches
  exact Block.Stays.when (deleteMissing_stays hK _)

theorem finishCycle_stays : (finishCycle c).Stays C I := by
  apply (Block.stays_assign _).bind
  intro _
  apply Block.stays_locals.bind
  intro s
  apply (Block.stays_await (stays_now hK)).bind
  intro endedAt
  apply (Block.stays_await (stays_ofExcept _)).bind
  intro lane
  apply (Block.stays_assign _).bind
  intro _
  apply Block.stays_locals.bind
  intro s
  apply (Block.stays_await (stays_now hK)).bind
  intro at_
  apply Block.Stays.bind
  · exact Block.stays_await (stays_call hK trivial)
  intro draw
  apply (Block.stays_await (stays_now hK)).bind
  intro updatedAt
  apply Block.Stays.bind
  · exact Block.stays_await (stays_store hK ⟨rfl, rfl⟩)
  intro _
  apply (Block.stays_assign _).bind
  intro _
  apply Block.Stays.bind
  · exact Block.stays_await (stays_call hK trivial)
  intro _
  exact Block.stays_locals.bind fun s => Block.stays_pure _

theorem failCycle_stays (err : JsError) : (failCycle c err).Stays C I := by
  apply Block.stays_locals.bind
  intro s
  apply (Block.stays_await (stays_now hK)).bind
  intro at_
  apply Block.Stays.bind
  · exact Block.stays_await (stays_call hK trivial)
  intro draw
  apply (Block.stays_await (stays_now hK)).bind
  intro updatedAt
  apply Block.Stays.bind
  · apply Block.stays_await
    apply Stays.attempt
    exact stays_store hK ⟨rfl, rfl⟩
  intro saved
  have hrest : (do
      assign (CycleLocals.afterFailure (scheduleAfterFailure c s err at_ draw))
      let endedAt ← await now
      await (call (.pollEnd c.lane))
      let s ← locals
      return errorResult c s s.summary.events.total err endedAt false : Body ι CycleLocals CycleResult).Stays
        C I := by
    apply (Block.stays_assign _).bind
    intro _
    apply (Block.stays_await (stays_now hK)).bind
    intro endedAt
    apply Block.Stays.bind
    · exact Block.stays_await (stays_call hK trivial)
    intro _
    exact Block.stays_locals.bind fun s => Block.stays_pure _
  cases saved with
  | error e => exact (Block.Stays.when (Block.stays_throw e)).bind fun _ => hrest
  | ok _ => exact hrest

theorem onCycleError_stays (err : JsError) : (onCycleError c err).Stays C I := by
  apply Block.Stays.ite (Block.stays_throw err)
  apply Block.Stays.bind
  · exact Block.stays_await (stays_call hK trivial)
  intro reason
  apply Block.Stays.bind
  · exact Block.stays_await (stays_call hK trivial)
  intro lost
  apply Block.Stays.ite (Block.stays_throw _)
  apply Block.Stays.ite _ (failCycle_stays hK err)
  apply Block.stays_locals.bind
  intro s
  apply (Block.stays_await (stays_now hK)).bind
  intro endedAt
  exact Block.stays_pure _

theorem cycleBody_stays : (cycleBody c).Stays C I := by
  apply (scan_stays hK _).bind
  intro _
  apply (deletePhase_stays hK).bind
  intro _
  exact finishCycle_stays hK

end Cycle

/-! ## An execution -/

section Key

variable {C : Contract (Op ι) Ans} {I : C.View → Prop}

theorem runCycle_stays {deps : RunnerDeps ι} {lease : Lease} (hK : ExecutionKept C I deps lease)
    (run : Nat) (deadline : Option Int) (state : PollerState) (lane : Lane) :
    (runCycle deps lease run deadline state lane).Stays C I := by
  apply (stays_now hK).bind
  intro startedAt
  apply Stays.bind
  · exact stays_call hK trivial
  intro _
  apply (stays_ofExcept _).bind
  intro cursor
  apply (stays_ofExcept _).bind
  intro target
  apply Block.Stays.run
  apply Block.Stays.tryCatch
  · exact cycleBody_stays hK
  · intro err
    exact onCycleError_stays hK err

variable {h : Held ι} (hK : ExecutionKept C I h.deps h.lease)
include hK

theorem runLane_stays (lane : Lane) : (runLane h lane).Stays C I := by
  apply Block.stays_locals.bind
  intro s
  apply (Block.stays_await (runCycle_stays hK _ _ _ _)).bind
  intro r
  apply (Block.stays_assign _).bind
  intro _
  apply (Block.Stays.when (Block.stays_assign _)).bind
  intro _
  exact Block.stays_pure _

theorem liveLane_stays (halted : Bool) : (liveLane h halted).Stays C I := by
  apply (Block.stays_await (stays_now hK)).bind
  intro at_
  apply Block.stays_locals.bind
  intro s
  apply Block.Stays.ite _ (Block.stays_pure false)
  apply (Block.Stays.when (Block.stays_assign _)).bind
  intro _
  exact runLane_stays hK .live

theorem reconcileLane_stays (halted : Bool) : (reconcileLane h halted).Stays C I := by
  apply (Block.stays_await (stays_now hK)).bind
  intro at_
  apply Block.stays_locals.bind
  intro s
  apply Block.Stays.ite _ (Block.stays_pure false)
  apply (Block.stays_await (aborted_stays hK h.run)).bind
  intro stop
  exact Block.Stays.ite (Block.stays_pure false) (runLane_stays hK .reconcile)

theorem backfillLane_stays (halted : Bool) : (backfillLane h halted).Stays C I := by
  apply Block.stays_locals.bind
  intro s
  apply Block.Stays.ite _ (Block.stays_pure false)
  apply (Block.stays_await (aborted_stays hK h.run)).bind
  intro stop
  exact Block.Stays.ite (Block.stays_pure false) (runLane_stays hK .backfill)

theorem runLanes_stays (halted : Bool) : (runLanes h halted).Stays C I := by
  apply (liveLane_stays hK halted).bind
  intro cut
  apply Block.Stays.ite (Block.stays_pure ())
  apply (reconcileLane_stays hK halted).bind
  intro cut
  apply Block.Stays.ite (Block.stays_pure ())
  apply (backfillLane_stays hK halted).bind
  intro cut
  exact Block.Stays.ite (Block.stays_pure ()) (Block.stays_assign _)

theorem drainBefore_stays : (drainBefore h).Stays C I := by
  apply (Block.stays_await (hK.drain h.run)).bind
  intro drained
  apply (Block.stays_assign _).bind
  intro _
  apply Block.Stays.bind
  · apply Block.Stays.when
    apply Block.stays_locals.bind
    intro s
    apply (Block.stays_await (openCircuitForHalt_stays hK _)).bind
    intro state
    exact Block.stays_assign _
  intro _
  exact Block.stays_pure _

theorem underLease_stays : (underLease h).Stays C I := by
  apply Block.Stays.bind
  · exact Block.stays_await (stays_store hK trivial)
  intro loaded
  apply (Block.stays_await (stays_now hK)).bind
  intro at_
  apply (Block.stays_assign _).bind
  intro _
  apply Block.stays_locals.bind
  intro s
  apply Block.Stays.ite (Block.stays_assign _)
  apply (Block.stays_assign _).bind
  intro _
  apply (drainBefore_stays hK).bind
  intro halted
  exact runLanes_stays hK halted

/-- What `runKey` does between taking its lease and giving it back. -/
theorem heldBody_stays : (do
    MonadExceptOf.tryCatch (underLease h) (onKeyError h)
    let s ← locals
    return s.out : Body ι KeyLocals RunKeyResult).Stays C I := by
  apply Block.Stays.bind
  · apply Block.Stays.tryCatch (underLease_stays hK)
    intro err
    apply Block.Stays.bind
    · exact Block.stays_await (stays_call hK trivial)
    intro lost
    exact Block.Stays.ite (Block.stays_assign _) (Block.stays_throw err)
  intro _
  exact Block.stays_locals.bind fun s => Block.stays_pure _

end Key

end Watukuy
