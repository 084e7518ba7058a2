import Watukuy.Cycle.LaneKey
import Watukuy.Cycle.Operators

/-!
# All programs keep to the lane contract

`runKey_lane` follows an execution from its first call, next to a second contract that only watches.
The administrative operations and the forked threads make no call the lane contract is about.
-/

set_option autoImplicit false

namespace Watukuy

open Library Task LaneView

variable {ι : Type} {d : Deployment ι} {forced : Prop}

/-! ## An execution from its first call -/

section Watched

variable {D : Contract (Op ι) Ans} {I : PollerState → D.View → Prop}

/-- An execution reports, whatever else is watched: `I pre` says that `pre` is the state it loaded
first. -/
theorem runKey_lane {deps : RunnerDeps ι} (hdeps : deps.In d) {opts : RunKeyOptions}
    (hforced : opts.force = true → forced) (hallow : ∀ w o, D.allow w o)
    (hkeep : ∀ pre w o a, I pre w → I pre (D.learn w o a))
    {v : LaneView ι} {w : D.View} (hv : Unbegun v)
    (hload : ∀ now0 loaded, I (Option.getD loaded (emptyState now0 d.poller))
      (D.learn (D.learn w .now now0) (.store .loadState) (.ok loaded)))
    {Q : RunKeyResult → LaneView ι × D.View → Prop} {E : JsError → LaneView ι × D.View → Prop}
    (hQ : ∀ pre r v w, Reported d pre v r → I pre w → Q r (v, w)) (hE : ∀ e x, E e x) :
    (runKey deps opts).wp ((laneContract d forced).both D) Q E (v, w) := by
  unfold runKey
  rw [Task.wp_bind, wp_now]
  refine ⟨⟨trivial, hallow _ _⟩, ?_⟩
  intro now0
  rw [Task.wp_bind, wp_store]
  refine ⟨⟨trivial, hallow _ _⟩, ?_, fun e => hE e _⟩
  intro loaded
  dsimp only
  have hpre : I (Option.getD loaded (emptyState now0 deps.poller))
      (D.learn (D.learn w .now now0) (.store .loadState) (.ok loaded)) := by
    rw [hdeps.poller]
    exact hload now0 loaded
  have hread := hv.tick (d := d) now0
  have hloaded : Unbegun ((v.read d now0).learnStore .loadState (.ok loaded)) := { hread with }
  rw [wp_ite]
  refine ⟨fun _ => ?_, fun _ => ?_⟩
  · exact hQ _ _ _ _ (.left _ rfl (owed_none hloaded.failedAt) (Or.inr hloaded.failedAt)) hpre
  rw [Task.wp_bind]
  -- the rest of the execution, once the pending events are counted
  have hrest : ∀ (v : LaneView ι) (w : D.View) (c : Prop) [Decidable c], Unbegun v →
      I (Option.getD loaded (emptyState now0 deps.poller)) w →
      Task.wp ((laneContract d forced).both D)
        (if c then
          return { reason := some .notDue, state := some (Option.getD loaded (emptyState now0 deps.poller)) }
        else runLeased deps opts (Option.getD loaded (emptyState now0 deps.poller))) Q E (v, w) := by
    intro v w c _ hv hw
    rw [wp_ite]
    refine ⟨fun _ => ?_, fun _ => ?_⟩
    · exact hQ _ _ _ _ (.left _ rfl (owed_none hv.failedAt) (Or.inr hv.failedAt)) hw
    · refine wp_beside (I := I (Option.getD loaded (emptyState now0 deps.poller))) ?_ hw ?_
      · intro w o hw
        exact ⟨hallow w o, fun a => hkeep _ w o a hw⟩
      · refine runLeased_lane hdeps hforced hv ?_ ?_
        · intro r v' hr w' hw'
          exact hQ _ r v' w' hr hw'
        · intro e v' w' _
          exact hE e _
  unfold countPending
  rw [wp_ite]
  refine ⟨fun _ => ?_, fun _ => ?_⟩
  · rw [wp_store]
    refine ⟨⟨trivial, hallow _ _⟩, ?_, fun e => hE e _⟩
    intro pending
    exact hrest _ _ _ hloaded (hkeep _ _ _ _ hpre)
  · exact hrest _ _ _ hloaded hpre

end Watched

/-! ## The other programs -/

/-- No drain waits to be looked at, and none has halted. -/
structure Calm (v : LaneView ι) : Prop where
  peeked : v.peeked = true
  halted : v.halted = false

/-- The store calls of the operations that take no lease. -/
def OperatorStoreCall : StoreOp ι → Prop
  | .loadState => True
  | .saveStateUnfenced _ => True
  | .deleteKey => True
  | .clearItems => True
  | .retryParked _ => True
  | .discardParked _ => True
  | _ => False

/-- The calls of the operations that take no lease. -/
def OperatorCall : Op ι → Prop
  | .store o => OperatorStoreCall o
  | .now => True
  | _ => False

/-- The store calls of administrative operations. -/
def AdminStoreCall : StoreOp ι → Prop
  | .saveState _ _ => False
  | .commitPoll _ b => b.statePatch.lanes = none
  | _ => True

/-- The calls of administrative operations. -/
def AdminCall : Op ι → Prop
  | .store o => AdminStoreCall o
  | .now => True
  | .diverge => True
  | _ => False

theorem EngineCall.Makes.admin {request : EngineCall} {o : Op ι} (h : request.Makes o) :
    AdminCall o := by
  cases o with
  | store o =>
    cases o with
    | commitPoll l batch => exact h.2.1
    | _ => first | exact h.elim | trivial
  | _ => first | exact h.elim | trivial

/-- Only a replay takes a lease. -/
theorem EngineCall.Makes.operates {request : EngineCall} {o : Op ι} (h : request.Makes o)
    (hreplay : ¬request.Replays) : OperatorCall o := by
  cases o with
  | store o =>
    cases o with
    | commitPoll l batch => exact hreplay h.1
    | _ => trivial
  | _ => trivial

section Admin

variable {v : LaneView ι}

theorem Calm.allowed (h : Calm v) {o : Op ι} (ho : AdminCall o) :
    (laneContract d forced).allow v o := by
  have hidle : ¬v.Halting := by
    rintro ⟨hhalt, -⟩
    rw [h.halted] at hhalt
    cases hhalt
  cases o with
  | store o =>
    cases o with
    | saveState l p => exact ho.elim
    | commitPoll l b =>
      refine ⟨h.peeked, ?_, hidle⟩
      intro lanes hlanes
      have hnone : b.statePatch.lanes = none := ho
      rw [hnone] at hlanes
      cases hlanes
    | streamIdentities => exact ⟨h.peeked, h.halted⟩
    | releaseLease l => exact ⟨h.peeked, fun hhalt => absurd hhalt hidle⟩
    | _ => trivial
  | now => trivial
  | diverge => trivial
  | _ => exact ho.elim

theorem Calm.read (h : Calm v) (t : Int) : Calm (v.read d t) := by
  have htick : Calm (v.tick d t) := ⟨h.peeked, h.halted⟩
  unfold LaneView.read
  split
  · exact htick
  · unfold LaneView.advance
    split
    · split <;> exact ⟨htick.peeked, htick.halted⟩
    · exact ⟨htick.peeked, htick.halted⟩

theorem Calm.learn (h : Calm v) {o : Op ι} (ho : AdminCall o) (a : Ans o) :
    Calm (v.learn d o a) := by
  have hstore : ∀ (o : StoreOp ι) (a : Except JsError o.Result), Calm (v.learnStore o a) := by
    intro o a
    cases o <;> cases a <;>
      first
        | exact ⟨h.peeked, h.halted⟩
        | exact ⟨rfl, h.halted⟩
  cases o with
  | store o => exact hstore o a
  | now => exact h.read a
  | diverge => exact h
  | _ => exact ho.elim

/-- A program of administrative calls keeps to the lane contract. -/
theorem admin_keeps {p : Prog (Op ι) Ans Unit} (hp : p.Uses AdminCall) :
    Keeps (laneContract d forced) {} p := by
  refine hp.wp_inv (I := Calm) ?_ (fun _ _ _ => trivial) ⟨rfl, rfl⟩
  intro v o hv ho
  exact ⟨hv.allowed ho, fun a => hv.learn ho a⟩

end Admin

/-! ## The system -/

theorem engineCall_lane {deps : RunnerDeps ι} (hdeps : deps.In d) {call : EngineCall}
    (hforced : ∀ opts, call = .runKey opts → opts.force = true → forced) :
    Keeps (laneContract d forced) {} (call.prog deps) := by
  cases call with
  | runKey opts =>
    have hrun : (runKey deps opts).wp ((laneContract d forced).both (only fun _ => True))
        (fun _ _ => True) (fun _ _ => True) ({}, ()) := by
      refine runKey_lane (I := fun _ _ => True) hdeps (hforced opts rfl) ?_ ?_ ?_ ?_ ?_ ?_
      · intro w o
        trivial
      · intro pre w o a _
        trivial
      · exact ⟨rfl, rfl, rfl, rfl, rfl⟩
      · intro now0 loaded
        trivial
      · intro pre r v w _ _
        trivial
      · intro e x
        trivial
    refine (wp_forget _).2 ?_
    have hfst := Prog.wp_fst (Q := fun _ _ => True) (Prog.wp_mono (fun _ _ _ => trivial) hrun)
    exact Prog.wp_mono (fun r _ _ => by cases r <;> trivial) hfst
  | _ =>
    refine admin_keeps (Prog.Uses.mono (fun _ => EngineCall.Makes.admin)
      (EngineCall.makes _ deps ?_))
    intro opts h
    cases h

/-- The calls of a forked thread are allowed as long as it starts no drain of its own. -/
theorem forked_lane {v : LaneView ι} (hv : v.drain = none) {o : Op ι} (ho : ForkedCall o) :
    (laneContract d forced).allow v o ∧
      ∀ a, ((laneContract d forced).learn v o a).drain = none := by
  have hread : ∀ t, (v.read d t).drain = none := by
    intro t
    unfold LaneView.read
    split
    · exact hv
    · unfold LaneView.advance
      split
      · split <;> exact hv
      · exact hv
  cases o with
  | store o =>
    cases o <;> first | exact ho.elim | exact ⟨trivial, fun a => by cases a <;> exact hv⟩
  | now => exact ⟨trivial, hread⟩
  | peekDrain i => exact ⟨Or.inl hv, fun _ => hv⟩
  | diverge => exact ⟨trivial, fun a => a.elim⟩
  | _ => first | exact ho.elim | exact ⟨trivial, fun _ => hv⟩

/-- All programs of the system keep to the lane contract. -/
theorem obeysLanes (d : Deployment ι) {S : EngineCall → Prop}
    (hforced : ∀ opts, S (.runKey opts) → opts.force = true → forced) :
    Obeys (system ι) (d.entry S) (laneContract d forced) {} where
  entry_keeps p hp := by
    obtain ⟨deps, call, hdeps, hS, rfl⟩ := hp
    refine engineCall_lane hdeps ?_
    rintro opts rfl
    exact hforced opts hS
  forks_keep o a p hp := by
    refine (forks_forked o a p hp).wp_inv (I := fun v : LaneView ι => v.drain = none) ?_
      (fun _ _ _ => trivial) rfl
    intro v o hv ho
    exact forked_lane hv ho

end Watukuy
