import Watukuy.Core.Daemon
import Watukuy.Cycle.LaneObeys
import Watukuy.Run.Scenarios

/-!
# When the daemon runs a failed lane again

A failed reconcile or backfill cycle leaves its lane as it was: due. The daemon's next due time is
then the time at which it computes it, so the lane backs off exactly when the clock has moved on in
the meantime.
-/

set_option autoImplicit false

namespace Watukuy

open Library Task LaneView

variable {ι : Type}

/-! ## The next due time -/

section Due

variable {poller : ResolvedPoller ι} {state : PollerState} {t now : Int}

theorem now_le_nextDue (poller : ResolvedPoller ι) (state : PollerState) (now : Int) :
    now ≤ nextDueFromState poller (some state) now := by
  simp only [nextDueFromState]
  exact Int.le_max_right _ _

/-- The last reconcile run lies `everyMs` before a time at which the next one is due. -/
theorem reconcileDue_le (hdue : reconcileDue poller state t = true) (hnow : now ≤ t) (next : Int) :
    (match poller.reconcileEveryMs with
      | some everyMs =>
        min next (((state.lanes.reconcile.bind (·.lastRunAt)).map (· + everyMs)).getD now)
      | none => next) ≤ t := by
  unfold reconcileDue at hdue
  cases hevery : poller.reconcileEveryMs with
  | none =>
    rw [hevery] at hdue
    cases hdue
  | some everyMs =>
    rw [hevery] at hdue
    cases hlast : state.lanes.reconcile.bind (·.lastRunAt) with
    | none => exact (min_le_right _ _).trans hnow
    | some last =>
      rw [hlast] at hdue
      simp only [decide_eq_true_eq] at hdue
      exact (min_le_right _ _).trans hdue

/-- A lane that is due brings the next due time forward to the present. -/
theorem nextDue_le (h : reconcileDue poller state t = true ∨ backfillActive state = true)
    (hnow : now ≤ t) : nextDueFromState poller (some state) now ≤ t := by
  simp only [nextDueFromState]
  apply max_le _ hnow
  rcases h with hdue | hactive
  · have hbound := reconcileDue_le hdue hnow
    split
    · exact (min_le_left _ _).trans (hbound _)
    · exact hbound _
  · rw [if_pos hactive]
    exact (min_le_right _ _).trans hnow

end Due

/-! ## What is watched of the daemon -/

/-- The last reading of the clock, and the state `runKey` loaded first. -/
structure Watch where
  latest : Option Int := none
  first : Option PollerState := none

/-- The watch after an answer. -/
def Watch.learn (d : Deployment ι) (w : Watch) : (o : Op ι) → Ans o → Watch
  | .now, t => { w with latest := some t }
  | .store .loadState, .ok loaded =>
    { w with
      first := w.first.orElse fun _ =>
        some (Option.getD loaded (emptyState (w.latest.getD 0) d.poller)) }
  | _, _ => w

/-- A contract that allows all calls and watches. -/
@[reducible] def daemonWatch (d : Deployment ι) : Contract (Op ι) Ans where
  View := Watch
  allow _ _ := True
  learn := Watch.learn d

theorem Watch.keep (d : Deployment ι) {w : Watch} {pre : PollerState} (h : w.first = some pre)
    (o : Op ι) (a : Ans o) : (w.learn d o a).first = some pre := by
  unfold Watch.learn
  split
  · exact h
  · simp [h]
  · exact h

/-- The deployment an instance belongs to. -/
def RunnerDeps.deployment (deps : RunnerDeps ι) : Deployment ι where
  crypto := deps.crypto
  poller := deps.poller
  key := deps.key

/-! ## The condition -/

/-- The clock read `now` when the next due time was computed, and it had moved past `t`: no delivery
retry is due by `t`, and if the execution was cut short after the failure, the state it loaded first
may put the next due time off as well. After an execution that rejected, `minMs` is added. -/
def MovedPast (deps : RunnerDeps ι) (first : Option PollerState) (t now : Int) :
    Except JsError (RunKeyResult × Int) → Prop
  | .ok (out, _) =>
    (t < now ∨ (Short out ∧ t < nextDueFromState deps.poller first now)) ∧
      ∀ retry, out.nextRetryAt = some retry → t < retry
  | .error _ => t < now + deps.poller.schedule.minMs

theorem lt_earlier {t next : Int} (retry : Option Int) :
    t < (retry.map (min next)).getD next ↔ t < next ∧ ∀ u, retry = some u → t < u := by
  cases retry with
  | none => simp
  | some u => simp

/-- `runOne` with the handlers of `loop`. -/
def daemonRun (deps : RunnerDeps ι) (opts : RunKeyOptions) :
    Proc ι (Except JsError (RunKeyResult × Int) × Int) := do
  let result ← (runOne deps opts).attempt
  let next ← noteNext deps result
  return (result, next)

/-- The daemon runs a key whose lane failed at `t` again after `t` exactly when the clock moved on. -/
theorem failed_lane_backs_off (deps : RunnerDeps ι) (opts : RunKeyOptions) :
    (daemonRun deps opts).wp
      ((laneContract deps.deployment (opts.force = true)).both (daemonWatch deps.deployment))
      (fun r x => ∀ t, x.1.failedAt = some t → ∃ now, x.2.latest = some now ∧
        (t < r.2 ↔ MovedPast deps x.2.first t now r.1))
      (fun _ _ => False) ({}, {}) := by
  unfold daemonRun
  rw [Task.wp_bind, wp_attempt]
  -- an execution that rejects is noted `minMs` later
  have hrejected : ∀ (e : JsError) (x : LaneView ι × Watch),
      Task.wp ((laneContract deps.deployment (opts.force = true)).both (daemonWatch deps.deployment))
        (do
          let next ← noteNext deps (.error e)
          return ((.error e : Except JsError (RunKeyResult × Int)), next))
        (fun r x => ∀ t, x.1.failedAt = some t → ∃ now, x.2.latest = some now ∧
          (t < r.2 ↔ MovedPast deps x.2.first t now r.1))
        (fun _ _ => False) x := by
    intro e x
    rw [Task.wp_bind]
    unfold noteNext
    rw [Task.wp_bind, wp_now]
    refine ⟨⟨trivial, trivial⟩, ?_⟩
    intro now t _
    exact ⟨now, rfl, Iff.rfl⟩
  unfold runOne
  rw [Task.wp_bind]
  refine runKey_lane (I := fun pre (w : Watch) => w.first = some pre) ⟨rfl, rfl, rfl⟩ id
    (fun _ _ => trivial) ?_ ⟨rfl, rfl, rfl, rfl, rfl⟩ ?_ ?_ ?_
  · intro pre w o a hw
    exact Watch.keep _ hw o a
  · intro now0 loaded
    rfl
  · intro pre out v w hreported hfirst
    rw [Task.wp_bind, wp_now]
    refine ⟨⟨trivial, trivial⟩, ?_⟩
    intro now
    have hfirst : w.first = some pre := hfirst
    have hsame : (v.read deps.deployment now).failedAt = v.failedAt := by
      unfold LaneView.read
      split
      · rfl
      · unfold LaneView.advance
        split
        · split <;> rfl
        · rfl
    intro t ht
    have ht : v.failedAt = some t := hsame.symm.trans ht
    refine ⟨now, rfl, ?_⟩
    change t < (out.nextRetryAt.map (min (nextDue deps out now))).getD (nextDue deps out now) ↔
      (t < now ∨ (Short out ∧ t < nextDueFromState deps.poller w.first now)) ∧ _
    rw [lt_earlier, hfirst]
    refine and_congr_left fun _ => ?_
    cases hreported with
    | left state hstate howed ran =>
      rcases ran with ⟨hreason, hlost⟩ | hnone
      · have hdue : nextDue deps out now = nextDueFromState deps.poller (some state) now := by
          simp [nextDue, hreason, hstate]
        have hwhole : ¬Short out := by
          rintro (hl | hr)
          · rw [hlost] at hl
            cases hl
          · rw [hreason] at hr
            cases hr
        rw [hdue]
        constructor
        · intro hlt
          left
          by_contra hle
          have hbound := nextDue_le (howed t ht) (not_lt.1 hle)
          exact absurd hlt (not_lt.2 hbound)
        · rintro (hlt | ⟨hshort, -⟩)
          · exact hlt.trans_le (now_le_nextDue _ state now)
          · exact absurd hshort hwhole
      · rw [hnone] at ht
        cases ht
    | cut hstate short reason =>
      have hdue : nextDue deps out now = nextDueFromState deps.poller (some pre) now := by
        rcases reason with hreason | hreason <;> simp [nextDue, hreason, hstate]
      rw [hdue]
      constructor
      · intro hlt
        exact Or.inr ⟨short, hlt⟩
      · rintro (hlt | ⟨-, hlt⟩)
        · exact hlt.trans_le (now_le_nextDue _ pre now)
        · exact hlt
  · intro e x
    exact hrejected e x

/-! ## A lane that fails again and again -/

/-- The clock stands still at 0, and the fetch function of the reconcile lane throws. -/
def stalled : Op Sample → Choice Sample
  | .fetch .reconcile _ => .code (.raise { kind := .plain, name := "Error", message := "down" })
  | o => calm 0 (onePage []) o

/-- An instance of a poller that reconciles every 5 milliseconds. -/
def reconcilingInstance : RunnerDeps Sample :=
  instanceOf (sampleOf { samplePoller with reconcileEveryMs := some 5 }) false

set_option maxRecDepth 100000 in
/-- The reconcile lane fails at 0, and the daemon notes 0 as the next due time. -/
theorem failed_lane_due_at_once :
    ¬(daemonRun reconcilingInstance { deadline := none, force := false }).wp
      ((laneContract reconcilingInstance.deployment False).both
        (daemonWatch reconcilingInstance.deployment))
      (fun r x => ∀ t, x.1.failedAt = some t → t < r.2) (fun _ _ => False) ({}, {}) := by
  intro h
  have hrun : ((system Sample).solo ((laneContract reconcilingInstance.deployment False).both
        (daemonWatch reconcilingInstance.deployment)) stalled 100
      (daemonRun reconcilingInstance { deadline := none, force := false }).prog ({}, {})
      (World.fresh reconcilingInstance.key)).any (fun r =>
        (r.1.toOption.map (·.2)) == some 0 && r.2.1.failedAt == some 0) = true := by
    decide +kernel
  obtain ⟨⟨r, x⟩, hsolo, hr⟩ := (Option.any_eq_true _ _).1 hrun
  have hpost := solo_post h hsolo
  simp only [Bool.and_eq_true, beq_iff_eq] at hr
  cases r with
  | error e => exact hpost
  | ok r =>
    have hnext : r.2 = 0 := Option.some.inj hr.1
    have hlater : (0 : Int) < r.2 := hpost 0 hr.2
    omega

end Watukuy
