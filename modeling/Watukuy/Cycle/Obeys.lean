import Watukuy.Cycle.RunKey

/-!
# All programs keep to the contract

The administrative operations write what `administers` lists, and nothing else. `obeys`: in every run
of the system, each call is one its thread's view allows.
-/

set_option autoImplicit false

namespace Watukuy

open Library Task

variable {ι : Type} {d : Deployment ι}

/-! ## Administrative operations -/

/-- A lane as an administrative operation among `S` writes it. -/
structure AdminLane (d : Deployment ι) (S : EngineCall → Prop) (lane : Lane) (next : LaneCursor) :
    Prop where
  lane : lane = .live ∨ lane = .backfill
  force : next.force = true → ∃ options, S (.backfill options) ∧ options.force = true
  target : next.target.isSome → d.poller.cursor.isSnapshotDiff = false

/-- A replay commit: logged events once more, numbered on from what the view knows. -/
structure ReplayStep (v : CycleView ι) (l : Lease) (b : CommitBatch ι) : Prop where
  lease : v.lease = some l
  ready : v.ready = true
  upserts : b.upserts = []
  deletes : b.deletes = []
  lanes : b.statePatch.lanes = none
  lane : ∀ r ∈ b.events, r.event.lane = .replay
  parked : b.parked = []
  stamped : ∀ r ∈ b.events, r.Stamped
  numbered : ∃ base, v.sequence ≤ base ∧ Numbered base b.events ∧
    b.statePatch.sequence = some (base + b.events.length)

/-- The store calls of the administrative operations among `S`. -/
def administers (d : Deployment ι) (S : EngineCall → Prop) (v : CycleView ι) : StoreOp ι → Prop
  | .saveStateUnfenced p =>
    p.sequence = none ∧ p.schemaVersion = none ∧ ∀ lanes, p.lanes = some lanes →
      ∃ lane next, AdminLane d S lane next ∧ lanes = v.lanes.set lane next
  | .clearItems => ∃ options, S (.resetCursor options) ∧ options.clearSnapshot = true
  | .deleteKey => S .removePartition
  | .commitPoll l b => (∃ fromTime toTime, S (.replay fromTime toTime)) ∧ ReplayStep v l b
  | _ => False

section Admin

variable {S : EngineCall → Prop} {deps : RunnerDeps ι} {E : JsError → CycleView ι → Prop}

/-- A program of the system keeps to the contract from any view. -/
abbrev Safe (d : Deployment ι) (S : EngineCall → Prop) {α : Type} (m : Proc ι α) : Prop :=
  ∀ v : CycleView ι, m.wp (cycleContract d (administers d S)) (fun _ _ => True) (fun _ _ => True) v

/-- A save without lanes. -/
theorem saveUnfenced_safe {p : StatePatch} (hseq : p.sequence = none) (hschema : p.schemaVersion = none)
    (hlanes : p.lanes = none) : Safe d S (store (.saveStateUnfenced p)) := by
  intro v
  rw [wp_store]
  refine ⟨Or.inr ⟨hseq, hschema, fun lanes h => ?_⟩, fun _ => trivial, fun _ => trivial⟩
  rw [hlanes] at h
  cases h

theorem trigger_safe : Safe d S (trigger deps) := by
  intro v
  unfold trigger
  rw [Task.wp_bind]
  refine now_keeps fun at_ => ?_
  rw [Task.wp_bind, wp_store]
  exact ⟨Or.inl trivial, fun _ => saveUnfenced_safe rfl rfl rfl _, fun _ => trivial⟩

theorem pause_safe : Safe d S (pause : Proc ι Unit) := by
  intro v
  unfold pause
  rw [Task.wp_bind]
  exact now_keeps fun at_ => saveUnfenced_safe rfl rfl rfl _

theorem resume_safe : Safe d S (resume : Proc ι Unit) := by
  intro v
  unfold resume
  rw [Task.wp_bind]
  exact now_keeps fun at_ => saveUnfenced_safe rfl rfl rfl _

theorem backfill_safe (hdeps : deps.In d) {options : BackfillOptions} (hS : S (.backfill options)) :
    Safe d S (backfill deps options) := by
  intro v
  unfold backfill
  rw [Task.wp_bind, wp_when]
  refine ⟨fun _ => trivial, fun hdiff => ?_⟩
  rw [hdeps.poller, Bool.not_eq_true] at hdiff
  have hmain : Safe d S (do
      let strategy := getStrategy deps.poller.cursor
      let state ← store .loadState
      let start ← Task.ofExcept (strategy.fromRaw options.from_)
      let cursor ← Task.ofExcept (strategy.serialize start)
      let target ← Task.ofExcept (backfillTarget strategy options.to_ state)
      let at_ ← now
      let lanes : Lanes := (state.map (·.lanes)).getD {}
      let lane : LaneCursor := { cursor := some cursor, target, done := false, force := options.force }
      store (.saveStateUnfenced
        { lanes := some { lanes with backfill := some lane }, updatedAt := some at_ })) := by
    intro v
    dsimp only
    rw [Task.wp_bind, wp_store]
    refine ⟨Or.inl trivial, fun state => ?_, fun _ => trivial⟩
    rw [Task.wp_bind, wp_ofExcept]
    refine ⟨fun start _ => ?_, fun _ _ => trivial⟩
    rw [Task.wp_bind, wp_ofExcept]
    refine ⟨fun cursor _ => ?_, fun _ _ => trivial⟩
    rw [Task.wp_bind, wp_ofExcept]
    refine ⟨fun target _ => ?_, fun _ _ => trivial⟩
    rw [Task.wp_bind]
    refine now_keeps fun at_ => ?_
    rw [wp_store]
    refine ⟨Or.inr ⟨rfl, rfl, fun lanes hlanes => ?_⟩, fun _ => trivial, fun _ => trivial⟩
    refine ⟨.backfill, _, ⟨Or.inr rfl, fun hforce => ?_, fun _ => hdiff⟩, (Option.some.inj hlanes).symm⟩
    exact ⟨options, hS, hforce⟩
  exact hmain v

theorem resetCursor_safe {options : ResetCursorOptions} (hS : S (.resetCursor options)) :
    Safe d S (resetCursor deps options) := by
  intro v
  unfold resetCursor
  dsimp only
  rw [Task.wp_bind, wp_store]
  refine ⟨Or.inl trivial, fun state => ?_, fun _ => trivial⟩
  rw [Task.wp_bind, wp_ofExcept]
  refine ⟨fun cursor _ => ?_, fun _ _ => trivial⟩
  rw [Task.wp_bind]
  refine now_keeps fun at_ => ?_
  rw [Task.wp_bind, wp_store]
  refine ⟨Or.inr ⟨rfl, rfl, fun lanes hlanes => ?_⟩, fun _ => ?_, fun _ => trivial⟩
  · refine ⟨.live, { cursor }, ⟨Or.inl rfl, fun hforce => ?_, fun htarget => ?_⟩,
      (Option.some.inj hlanes).symm⟩
    · cases hforce
    · cases htarget
  · rw [wp_when]
    refine ⟨fun hclear => ?_, fun _ => trivial⟩
    rw [wp_store]
    exact ⟨Or.inr ⟨options, hS, hclear⟩, fun _ => trivial, fun _ => trivial⟩

theorem replayRows_lane (at_ : Int) (logged : List (LoggedEvent ι)) (n : Nat) :
    ∀ r ∈ replayRows at_ n logged, r.event.lane = .replay := by
  induction logged generalizing n with
  | nil =>
    intro r hr
    cases hr
  | cons l rest ih =>
    intro r hr
    rcases List.mem_cons.1 hr with rfl | hr
    · rfl
    · exact ih (n + 1) r hr

theorem replayRows_stamped (at_ : Int) (logged : List (LoggedEvent ι)) (n : Nat) :
    ∀ r ∈ replayRows at_ n logged, r.Stamped := by
  induction logged generalizing n with
  | nil =>
    intro r hr
    cases hr
  | cons l rest ih =>
    intro r hr
    rcases List.mem_cons.1 hr with rfl | hr
    · exact ⟨rfl, rfl⟩
    · exact ih (n + 1) r hr

theorem replayRows_numbered (at_ : Int) (logged : List (LoggedEvent ι)) (n : Nat) :
    Numbered n (replayRows at_ n logged) := by
  induction logged generalizing n with
  | nil => exact Numbered.nil n
  | cons l rest ih => exact Numbered.cons rfl (ih (n + 1))

theorem replayRows_length (at_ : Int) (logged : List (LoggedEvent ι)) (n : Nat) :
    (replayRows at_ n logged).length = logged.length := by
  induction logged generalizing n with
  | nil => rfl
  | cons l rest ih => simp [replayRows, ih]

/-- The loop of a replay under its lease, with the stored sequence in hand. -/
theorem replayLoop_safe {from₀ : Int} {to₀ : Option Int} (hS : S (.replay from₀ to₀)) (lease : Lease)
    (fromTime : Int) (toTime : Option Int) (fuel sequence : Nat) (afterSequence : Option Nat)
    (replayed : Nat) {v : CycleView ι} (hlease : v.lease = some lease) (hready : v.ready = true)
    (hseq : v.sequence ≤ sequence) :
    (replayLoop (ι := ι) lease fromTime toTime fuel sequence afterSequence replayed).wp
      (cycleContract d (administers d S)) (fun _ _ => True) (fun _ _ => True) v := by
  induction fuel generalizing sequence afterSequence replayed v with
  | zero =>
    unfold replayLoop
    rw [wp_diverge]
    trivial
  | succ fuel ih =>
    unfold replayLoop
    rw [Task.wp_bind, wp_store]
    refine ⟨Or.inl trivial, fun logged => ?_, fun _ => trivial⟩
    rw [wp_ite]
    refine ⟨fun _ => trivial, fun _ => ?_⟩
    rw [Task.wp_bind]
    refine now_keeps fun at_ => ?_
    dsimp only
    have hlength := replayRows_length at_ logged sequence
    rw [Task.wp_bind, wp_store]
    refine ⟨Or.inr ⟨⟨_, _, hS⟩, ?_⟩, fun _ => ?_, fun _ => trivial⟩
    · exact
        { lease := hlease
          ready := hready
          upserts := rfl
          deletes := rfl
          lanes := rfl
          lane := replayRows_lane at_ logged sequence
          parked := rfl
          stamped := replayRows_stamped at_ logged sequence
          numbered := ⟨sequence, hseq, replayRows_numbered at_ logged sequence, by rw [hlength]⟩ }
    · rw [wp_ite]
      exact ⟨fun _ => trivial, fun _ => ih _ _ _ hlease hready (Nat.le_refl _)⟩

/-- An acquired lease is all that the view knows. -/
theorem acquireWithRetry_safe (n : Nat) (v : CycleView ι) :
    (acquireWithRetry deps n).wp (cycleContract d (administers d S))
      (fun lease w => w = { lease := some lease }) (fun _ _ => True) v := by
  induction n generalizing v with
  | zero => trivial
  | succ n ih =>
    unfold acquireWithRetry
    rw [Task.wp_bind]
    refine now_keeps fun at_ => ?_
    rw [Task.wp_bind, wp_store]
    refine ⟨Or.inl trivial, fun got => ?_, fun _ => trivial⟩
    cases got with
    | none => exact ih _
    | some lease => rfl

theorem replay_safe {fromTime : Int} {toTime : Option Int} (hS : S (.replay fromTime toTime)) :
    Safe d S (replay deps fromTime toTime) := by
  intro v
  unfold replay
  rw [Task.wp_bind, wp_when]
  refine ⟨fun _ => trivial, fun _ => ?_⟩
  rw [Task.wp_bind]
  refine wp_mono (fun lease w hw => ?_) (fun _ _ _ => trivial) (acquireWithRetry_safe 20 v)
  dsimp only
  have hrelease : Safe d S (store (.releaseLease lease)) := by
    intro w
    rw [wp_store]
    exact ⟨Or.inl trivial, fun _ => trivial, fun _ => trivial⟩
  subst hw
  rw [wp_finallyDo, Task.wp_bind, wp_store]
  refine ⟨Or.inl trivial, fun state => ?_, fun _ => hrelease _⟩
  exact wp_mono (fun _ w _ => hrelease w) (fun _ w _ => hrelease w)
    (replayLoop_safe hS lease _ _ _ _ _ _ rfl rfl (Nat.le_refl _))

end Admin

/-! ## The system -/

/-- The programs of the calls `S` on the instances of a deployment. -/
def Deployment.entry (d : Deployment ι) (S : EngineCall → Prop) (p : Prog (Op ι) Ans Unit) : Prop :=
  ∃ deps call, deps.In d ∧ S call ∧ p = EngineCall.prog deps call

theorem engineCall_keeps {S : EngineCall → Prop} {deps : RunnerDeps ι} (hdeps : deps.In d)
    {call : EngineCall} (hS : S call) :
    Keeps (cycleContract d (administers d S)) {} (call.prog deps) := by
  cases call with
  | runKey opts =>
    exact (wp_forget _).2 (runKey_keeps hdeps opts (fun _ _ => trivial) fun _ _ => trivial)
  | trigger => exact (wp_forget _).2 (trigger_safe _)
  | pause => exact (wp_forget _).2 (pause_safe _)
  | resume => exact (wp_forget _).2 (resume_safe _)
  | backfill options => exact (wp_forget _).2 (backfill_safe hdeps hS _)
  | resetCursor options => exact (wp_forget _).2 (resetCursor_safe hS _)
  | replay fromTime toTime => exact (wp_forget _).2 (replay_safe hS _)
  | parkedRetry ids =>
    refine (wp_forget _).2 ?_
    exact (wp_store _ _ _).2 ⟨Or.inl trivial, fun _ => trivial, fun _ => trivial⟩
  | parkedDiscard ids =>
    refine (wp_forget _).2 ?_
    exact (wp_store _ _ _).2 ⟨Or.inl trivial, fun _ => trivial, fun _ => trivial⟩
  | removePartition =>
    refine (wp_forget _).2 ?_
    exact (wp_store _ _ _).2 ⟨Or.inr hS, fun _ => trivial, fun _ => trivial⟩

/-- All programs of the system keep to the contract. -/
theorem obeys (d : Deployment ι) (S : EngineCall → Prop) :
    Obeys (system ι) (d.entry S) (cycleContract d (administers d S)) {} where
  entry_keeps p hp := by
    obtain ⟨deps, call, hdeps, hS, rfl⟩ := hp
    exact engineCall_keeps hdeps hS
  forks_keep o a p hp := by
    refine (forks_uses o a p hp).wp_inv (I := fun _ => True) (fun v o _ ho => ?_)
      (fun _ _ _ => trivial) trivial
    exact ⟨drainCall_allowed v ho, fun _ => trivial⟩

end Watukuy
