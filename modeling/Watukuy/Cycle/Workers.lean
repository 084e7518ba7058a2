import Watukuy.Cycle.Drains

/-!
# What workers keep

A worker looks at the signal and at the drain before each group and before each row, and goes on only
when neither stops it. An invariant of the view that such a look and the delivery of a row keep is
kept by the worker, whatever it is handed. `Unguarded` calls are those a worker makes besides the
delivery and the acknowledgement of a row.
-/

set_option autoImplicit false

namespace Watukuy

open Library Task

variable {ι : Type}

/-- All calls but those whose rejection is dealt with. -/
def Unguarded : Op ι → Prop
  | .deliver _ => False
  | .store (.ackEvents _ _) => False
  | _ => True

section Unguarded

variable {deps : RunnerDeps ι} {lease : Lease} {drain : Nat}

theorem unguarded_call {o : Op ι} (ho : Unguarded o) : (call o).Uses Unguarded := uses_request ho _

theorem onDeliveryError_unguarded (group : String) (row : OutboxRow ι) (err : JsError) :
    (onDeliveryError deps lease drain group row err).Uses Unguarded := by
  unfold onDeliveryError
  dsimp only
  split
  · refine Uses.bind (unguarded_call trivial) fun failedAt => ?_
    refine Uses.bind (unguarded_call trivial) fun parkedAt => ?_
    refine Uses.bind (uses_request (o := Op.store (.parkEvent lease _)) trivial _) fun _ => ?_
    refine Uses.bind (unguarded_call trivial) fun _ => ?_
    refine Uses.ite ?_ (Uses.ite ?_ (uses_pure _))
    · exact Uses.bind (unguarded_call trivial) fun _ => uses_pure _
    · exact Uses.bind (unguarded_call trivial) fun _ => uses_pure _
  · refine Uses.bind (unguarded_call trivial) fun draw => ?_
    refine Uses.bind (unguarded_call trivial) fun failedAt => ?_
    refine Uses.bind (uses_request (o := Op.store (.recordAttempt lease _ _ _)) trivial _) fun _ => ?_
    refine Uses.bind (unguarded_call trivial) fun _ => ?_
    refine Uses.bind (unguarded_call trivial) fun _ => ?_
    exact Uses.bind (unguarded_call trivial) fun _ => uses_pure _

end Unguarded

/-- The invariant `I` of the view is kept by what workers are made of; `J` holds after a look that
does not stop the worker. -/
structure WorkerKept (C : Contract (Op ι) Ans) (I J : C.View → Prop) (deps : RunnerDeps ι)
    (lease : Lease) (run drain : Nat) : Prop where
  shift : ∀ v, I v → C.allow v (.shift drain) ∧ ∀ a, I (C.learn v (.shift drain) a)
  diverge : ∀ v, I v → C.allow v .diverge
  looks : ∀ v, I v → (stopped run drain : Proc ι Bool).wp C (fun b w => I w ∧ (b = false → J w))
    (fun _ => I) v
  row : ∀ group row v, J v → (deliverRow deps lease drain group row).wp C (fun _ => I) (fun _ => I) v

section Kept

variable {C : Contract (Op ι) Ans} {I J : C.View → Prop} {deps : RunnerDeps ι} {lease : Lease}
  {run drain : Nat}

theorem WorkerKept.rows (hK : WorkerKept C I J deps lease run drain) (group : String)
    (rows : List (OutboxRow ι)) : (deliverRows deps lease run drain group rows).Stays C I := by
  induction rows with
  | nil => exact stays_pure true
  | cons row rest ih =>
    intro v hv
    unfold deliverRows
    rw [wp_bind]
    refine wp_mono ?_ (fun _ _ hw => hw) (hK.looks v hv)
    rintro b w ⟨hw, hgo⟩
    rw [wp_ite]
    refine ⟨fun _ => hw, fun hfree => ?_⟩
    rw [wp_bind]
    refine wp_mono ?_ (fun _ _ hu => hu) (hK.row group row w (hgo (by simpa using hfree)))
    intro e u hu
    cases e with
    | next => exact ih u hu
    | leaveGroup => exact hu
    | stop => exact hu

/-- A worker keeps the invariant. -/
theorem WorkerKept.worker (hK : WorkerKept C I J deps lease run drain) (n : Nat) :
    (Watukuy.worker deps lease run drain n).Stays C I := by
  induction n with
  | zero =>
    intro v hv
    unfold Watukuy.worker
    rw [wp_diverge]
    exact hK.diverge v hv
  | succ n ih =>
    refine Stays.bind (stays_request hK.shift _) ?_
    intro next
    cases next with
    | none => exact stays_pure ()
    | some group =>
      intro v hv
      dsimp only
      rw [wp_bind]
      refine wp_mono ?_ (fun _ _ hw => hw) (hK.looks v hv)
      rintro b w ⟨hw, -⟩
      rw [wp_ite]
      refine ⟨fun _ => hw, fun _ => ?_⟩
      exact Stays.bind (hK.rows group.key group.rows) (fun b => Stays.ite ih (stays_pure ())) w hw

end Kept

end Watukuy
