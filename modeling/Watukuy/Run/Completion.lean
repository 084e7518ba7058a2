import Watukuy.Cycle.LaneObeys
import Watukuy.Run.Scenarios

/-!
# Lanes are marked complete when they are complete

In every run, a cycle that saves its lane as complete has a complete listing, or its page loop was
cut: by a poison halt after a page, or by an abort between two pages of one iterable. In a run whose
cycles save only uncut loops, no lane is marked complete too early.
-/

set_option autoImplicit false

namespace Watukuy

open Library LaneView

variable {ι : Type}

/-- What thread `t` knows of its lanes after the steps `tr`. -/
def laneAt (d : Deployment ι) (t : Nat) (tr : List (Label (system ι))) : LaneView ι :=
  (laneContract d True).observe {} t tr

/-- The patch of a fenced write. -/
def StoreOp.fencedPatch : StoreOp ι → Option StatePatch
  | .saveState _ p => some p
  | .commitPoll _ b => some b.statePatch
  | _ => none

/-- The lanes mark the lane of the cycle as complete: `done` of a backfill, a new `lastRunAt` of a
reconcile. -/
def LaneView.Marks (v : LaneView ι) (lanes : Lanes) : Prop :=
  (v.lane = some .backfill ∧ ∃ last ∈ lanes.backfill, last.done = true) ∨
    (v.lane = some .reconcile ∧ ∃ last ∈ lanes.reconcile, last.lastRunAt ≠ v.start.lastRunAt)

/-- A step that marks a lane as complete does so for a complete listing. -/
def MarksComplete (d : Deployment ι) (pre : List (Label (system ι))) : Label (system ι) → Prop
  | .act t (.store so) _ _ => ∀ p ∈ so.fencedPatch, ∀ lanes ∈ p.lanes,
      (laneAt d t pre).Marks lanes → (laneAt d t pre).Complete
  | _ => True

/-- A step that saves the lanes of a cycle does so after a page loop that was not cut, unless the
listing was complete all the same. -/
def SavesUncut (d : Deployment ι) (pre : List (Label (system ι))) : Label (system ι) → Prop
  | .act t (.store so) _ _ => ∀ p ∈ so.fencedPatch, p.lanes.isSome →
      (laneAt d t pre).Cut → (laneAt d t pre).Complete
  | _ => True

instance (v : LaneView ι) : Decidable v.Complete := by
  unfold LaneView.Complete
  infer_instance

instance (v : LaneView ι) : Decidable v.Cut := by
  unfold LaneView.Cut
  infer_instance

instance (v : LaneView ι) (lanes : Lanes) : Decidable (v.Marks lanes) := by
  unfold LaneView.Marks
  infer_instance

instance (d : Deployment ι) (pre : List (Label (system ι))) (l : Label (system ι)) :
    Decidable (MarksComplete d pre l) := by
  unfold MarksComplete
  split <;> infer_instance

instance (d : Deployment ι) (pre : List (Label (system ι))) (l : Label (system ι)) :
    Decidable (SavesUncut d pre l) := by
  unfold SavesUncut
  split <;> infer_instance

theorem LaneView.Marks.completes {v : LaneView ι} {lane : Lane} {last : LaneCursor}
    (hlane : v.lane = some lane) (h : v.Marks (v.lanes.set lane last)) : v.Completes last := by
  rcases h with ⟨hl, next, hnext, hdone⟩ | ⟨hl, next, hnext, hrun⟩
  · left
    rw [hlane] at hl
    obtain rfl := Option.some.inj hl
    obtain rfl : last = next := Option.some.inj hnext
    exact ⟨hlane, hdone⟩
  · right
    rw [hlane] at hl
    obtain rfl := Option.some.inj hl
    obtain rfl : last = next := Option.some.inj hnext
    exact ⟨hlane, hrun⟩

/-- What a cycle saves marks its lane as complete only if the listing is complete or was cut. -/
theorem marks_of_files {v : LaneView ι} {p : StatePatch} (h : v.Files p) {lanes : Lanes}
    (hlanes : p.lanes = some lanes) (hmarks : v.Marks lanes) : v.Complete ∨ v.Cut := by
  obtain ⟨lane, last, hlane, rfl, hcomplete⟩ := h lanes hlanes
  exact hcomplete (hmarks.completes hlane)

section Runs

variable {d : Deployment ι} {S : EngineCall → Prop} {w : World ι} {tr : List (Label (system ι))}
  {c : Config (system ι)}

/-- In a run whose cycles save only after uncut loops, lanes are marked complete when they are. -/
theorem lanes_marked_when_complete (h : Run (system ι) (d.entry S) w tr c)
    (huncut : Throughout (SavesUncut d) tr) : Throughout (MarksComplete d) tr := by
  intro pre l post htr
  have hsaves := huncut pre l post htr
  subst htr
  cases l with
  | start p => trivial
  | drift x => trivial
  | act t o ch a =>
    obtain ⟨c₁, k, w', hpre, ht, -⟩ := h.act_at
    have hallow : (laneContract d True).allow (laneAt d t pre) o :=
      hpre.allow (obeysLanes d fun _ _ _ => trivial) ht
    cases o with
    | store so =>
      intro p hp lanes hlanes hmarks
      have hfiles : (laneAt d t pre).Files p := by
        cases so with
        | saveState l q =>
          obtain rfl : q = p := Option.some.inj hp
          exact hallow.2.1
        | commitPoll l b =>
          obtain rfl : b.statePatch = p := Option.some.inj hp
          exact hallow.2.1
        | _ => cases hp
      rcases marks_of_files hfiles hlanes hmarks with hcomplete | hcut
      · exact hcomplete
      · exact hsaves p hp (by rw [hlanes]; rfl) hcut
    | _ => trivial

end Runs

/-! ## Sample runs -/

/-- The deployment that reconciles every 5 milliseconds. -/
def reconciling : Deployment Sample := sampleOf { samplePoller with reconcileEveryMs := some 5 }

/-- The live lane lists nothing; the reconcile lane lists three pages in one fetch call. -/
def threePages : Op Sample → Choice Sample
  | .fetch .reconcile _ => .code (iterable [[("a", "1")], [("b", "1")], [("c", "1")]])
  | o => calm 20 (onePage []) o

/-- A run of live and reconcile lane; an abort strikes after `n` steps. -/
def abortedReconcile (n : Nat) : List (Scene Sample) :=
  [ .ask (instanceOf reconciling false) (.runKey { deadline := none, force := false }),
    .run 0 n threePages,
    .abort { run := 0, reason := leaseLostReason },
    .run 0 200 threePages ]

theorem abortedReconcile_cast (n : Nat) : Cast reconciling (fun _ => True) (abortedReconcile n) :=
  .ask (instanceOf_in _ _) trivial (.run (.abort (.run .nil)))

set_option maxRecDepth 100000 in
/-- An abort after the second page of three: the lane is marked complete, without its third page. -/
theorem aborted_reconcile_marked : ∃ tr c,
    Run (system Sample) (reconciling.entry fun _ => True) (World.fresh reconciling.key) tr c ∧
    ¬Throughout (MarksComplete reconciling) tr ∧
    (World.store (ι := Sample) c.world).items.keys = ["a", "b"] := by
  obtain ⟨tr, c, hrun, hcheck⟩ := play_run (abortedReconcile_cast 55)
    (fun tr c => decide (¬Throughout (MarksComplete reconciling) tr ∧
      (World.store (ι := Sample) c.world).items.keys = ["a", "b"])) (by decide +kernel)
  exact ⟨tr, c, hrun, of_decide_eq_true hcheck⟩

set_option maxRecDepth 100000 in
theorem lanes_marked_when_complete_sample : ∃ tr c,
    Run (system Sample) (reconciling.entry fun _ => True) (World.fresh reconciling.key) tr c ∧
    Throughout (SavesUncut reconciling) tr ∧ Throughout (MarksComplete reconciling) tr := by
  obtain ⟨tr, c, hrun, hcheck⟩ := play_run (abortedReconcile_cast 200)
    (fun tr _ => decide (Throughout (SavesUncut reconciling) tr)) (by decide +kernel)
  have huncut := of_decide_eq_true hcheck
  exact ⟨tr, c, hrun, huncut, lanes_marked_when_complete hrun huncut⟩

end Watukuy
