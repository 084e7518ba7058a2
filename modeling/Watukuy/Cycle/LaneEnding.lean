import Watukuy.Cycle.LanePages

/-!
# The end of a cycle, as the lane contract sees it

The end-of-cycle save marks a lane as complete only when it is done, and a pending halt keeps its
schedule. A failed cycle saves its schedule and notes when it failed. `Cycled` is what a cycle hands
back.
-/

set_option autoImplicit false

namespace Watukuy

open Library Task LaneView

variable {ι : Type} {d : Deployment ι} {forced : Prop} {c : Cycle ι} {o : Origin} {s : CycleLocals}
  {v : LaneView ι} {F : JsError → CycleLocals → LaneView ι → Prop}

/-! ## The delete phase -/

theorem Stands.of_eq {v w : LaneView ι} (h : v.Stands d) (hhalted : w.halted = v.halted)
    (hspoiled : w.spoiled = false → v.spoiled = false) (hat : w.haltedAt = v.haltedAt)
    (hposted : w.posted = v.posted) (hschedule : w.schedule = v.schedule) : w.Stands d := by
  rintro ⟨hh, hsp⟩
  obtain ⟨t, sch, ht, hp, hs, hhalt⟩ := h ⟨hhalted ▸ hh, hspoiled hsp⟩
  refine ⟨t, sch, hat.trans ht, hposted.trans hp, hschedule.trans hs, hhalt⟩

theorem Ending.aside {w : LaneView ι} (h : Ending d c o s v) (hw : Aside v w) : Ending d c o s w := by
  have hbase := h.toBase.aside hw
  obtain ⟨⟨cl, g, a, rfl, hab⟩, -⟩ := hw
  refine
    { h with
      toBase := hbase
      stands := h.stands
      done := ?_ }
  intro hdone
  rcases h.done hdone with hcomplete | hhalt | ⟨hin, haborted⟩
  · exact Or.inl hcomplete
  · exact Or.inr (Or.inl hhalt)
  · exact Or.inr (Or.inr ⟨hin, hab haborted⟩)

theorem Ending.broken (h : Ending d c o s v) (hh : v.halted = false) : Broken d c o s v :=
  h.toBase.broken hh

theorem deleteMissing_lane (h : Ending d c o s v) (hsweeping : v.sweeping = true)
    (hidle : v.halted = false) (missing : List String)
    {Q : Unit → CycleLocals → LaneView ι → Prop} (hQ : ∀ s' w, Ending d c o s' w → Q () s' w)
    (hF : ∀ e s' w, Broken d c o s' w → F e s' w) :
    Block.wp (laneContract d forced) (deleteMissing c missing) Q F s v := by
  have hfail : ∀ e s' w, s'.state = s.state → Aside v w → F e s' w := by
    intro e s' w hstate hw
    exact hF e s' w ((h.toBase.aside hw).vary hstate |>.broken (hw.halted.trans hidle))
  have hload : (store (.loadVersions (missing.map .string)) : Proc ι _).Uses QuietCall :=
    quiet_store (o := .loadVersions _) trivial
  unfold deleteMissing
  rw [Block.wp_bind, Block.wp_await]
  refine quiet_keeps hload h.ready hidle ?_ (fun e w hw => hfail e s w rfl hw)
  intro rows w hw
  rw [Block.wp_bind, Block.wp_locals, Block.wp_bind, Block.wp_await, wp_ofExcept]
  refine ⟨?_, fun e _ => hfail e s w rfl hw⟩
  intro cursor _
  rw [Block.wp_bind, Block.wp_await]
  refine quiet_keeps (buildRows_quiet _ _ _ _ _) (hw.ready h.ready) (hw.halted.trans hidle) ?_
    (fun e w' hw' => hfail e s w' rfl (hw.trans hw'))
  intro events w₁ hw₁
  have hw₁ := hw.trans hw₁
  rw [Block.wp_bind, Block.wp_assign, Block.wp_bind, Block.wp_locals, Block.wp_bind,
    Block.wp_await]
  refine now_level (hw₁.ready h.ready) (calm_idle (hw₁.halted.trans hidle)) ?_
  intro updatedAt w₂ hw₂ _
  have hw₂ := hw₁.trans hw₂
  have hend := h.aside hw₂
  have hidle₂ : w₂.halted = false := hw₂.halted.trans hidle
  rw [Block.wp_bind, Block.wp_await, wp_store]
  refine ⟨⟨hend.ready.peeked, ?_, fun hhalt => ?_⟩, ?_, ?_⟩
  · intro lanes hlanes
    cases hlanes
  · exact Bool.noConfusion (hidle₂.symm.trans hhalt.1)
  rotate_left
  · intro e
    have hsame : w₂.learn d (.store (.commitPoll c.lease
        (deleteBatch c (s.advance (missing.filterMap fun id =>
          (rows.get id).map (deleteSpec c.deps.poller id)).length) missing events updatedAt)))
        (.error e) = w₂ := fail_eq hend.ready.peeked hidle₂
    have hbroken := hfail e (s.advance (missing.filterMap fun id =>
          (rows.get id).map (deleteSpec c.deps.poller id)).length) w₂ rfl hw₂
    rw [← hsame] at hbroken
    exact hbroken
  intro _
  -- the commit carries the schedule of the state in memory
  have hcommit : ∀ s', s'.state.lanes = s.state.lanes → s'.state.schedule = s.state.schedule →
      s'.halted = s.halted → s'.done = s.done → s'.cursor = s.cursor →
      Ending d c o s' { w₂ with schedule := some s.state.schedule } := by
    intro s' hl hsch hh hd hcur
    refine
      { hend with
        lanes := by rw [hl]; exact hend.lanes
        progress := by rw [hl]; exact hend.progress
        ready := ⟨hend.ready.taken, rfl, hend.ready.peeked⟩
        after := hend.after
        schedule := by rw [hsch]
        halted := hend.halted.trans hh.symm
        stands := stands_idle hidle₂
        done := fun hdone => hend.done (hd ▸ hdone)
        serial := fun hhalt => ?_ }
    have hs : s.halted = true := hh ▸ hhalt
    rw [← hend.halted, hidle₂] at hs
    cases hs
  have hview : ∀ b : CommitBatch ι, b.statePatch.lanes = none →
      b.statePatch.schedule = some s.state.schedule →
      w₂.learn d (.store (.commitPoll c.lease b)) (.ok ()) =
        { w₂ with schedule := some s.state.schedule } := by
    intro b hl hsch
    simp [LaneView.learn, LaneView.learnStore, hl, hsch]
  rw [Block.wp_bind, Block.wp_await]
  rw [show (laneContract d forced).learn w₂ (.store (.commitPoll c.lease _)) (.ok ()) = _ from
    hview _ rfl rfl]
  have hready : LaneView.Ready { w₂ with schedule := some s.state.schedule } :=
    ⟨hend.ready.taken, rfl, hend.ready.peeked⟩
  refine now_level hready (calm_idle hidle₂) ?_
  intro savedAt w₃ hw₃ _
  rw [Block.wp_bind, Block.wp_assign, Block.wp_when]
  have hafter := fun s' hl hsch hh hd hcur => (hcommit s' hl hsch hh hd hcur).aside hw₃
  refine ⟨fun _ => ?_, fun _ => hQ _ _ (hafter _ rfl rfl rfl rfl rfl)⟩
  have hsweep₃ : w₃.sweeping = true := by
    obtain ⟨⟨cl, g, a, rfl, -⟩, -⟩ := hw₃
    obtain ⟨⟨cl', g', a', rfl, -⟩, -⟩ := hw₂
    exact hsweeping
  have hidle₃ : w₃.halted = false := hw₃.halted.trans hidle₂
  rw [Block.wp_bind, Block.wp_await]
  refine drainOutbox_lane (hw₃.ready hready) hidle₃ ?_ ?_
  · rintro r _ ⟨dr, g, a, hh, ht, po, sp, rfl, -, -, hsweep, hab⟩
    obtain rfl := hsweep hsweep₃
    have hlast := hafter
      ((s.advance (missing.filterMap fun id =>
          (rows.get id).map (deleteSpec c.deps.poller id)).length).afterDeletes events.length savedAt)
      rfl rfl rfl rfl rfl
    rw [Block.wp_assign]
    refine hQ _ _
      { hlast with
        toBase :=
          { hlast.toBase.vary rfl with
            ready := ⟨hlast.ready.taken, hlast.ready.schedule, rfl⟩
            after := hlast.after }
        halted := ?_
        haltedAt := by rintro ⟨⟩
        stands := stands_idle rfl
        done := ?_ }
    · exact hidle₃.symm.trans hlast.halted
    · intro hdone
      rcases hlast.done hdone with hcomplete | hhalt | ⟨hin, haborted⟩
      · exact Or.inl hcomplete
      · rw [hidle₃] at hhalt
        cases hhalt
      · exact Or.inr (Or.inr ⟨hin, hab haborted⟩)
  · rintro e _ ⟨dr, g, a, hh, ht, po, sp, rfl, -, hsweep⟩
    obtain rfl := hsweep hsweep₃
    have hlast := hafter
      ((s.advance (missing.filterMap fun id =>
          (rows.get id).map (deleteSpec c.deps.poller id)).length).afterDeletes events.length savedAt)
      rfl rfl rfl rfl rfl
    exact hF e _ _
      { hlast.toBase with
        ready := ⟨hlast.ready.taken, hlast.ready.schedule, rfl⟩
        after := hlast.after
        calm := by rintro ⟨⟩ }

theorem deletePhase_lane (h : Ending d c o s v)
    {Q : Unit → CycleLocals → LaneView ι → Prop} (hQ : ∀ s' w, Ending d c o s' w → Q () s' w)
    (hF : ∀ e s' w, Broken d c o s' w → F e s' w) :
    Block.wp (laneContract d forced) (deletePhase c) Q F s v := by
  unfold deletePhase
  rw [Block.wp_bind, Block.wp_locals, Block.wp_when]
  refine ⟨fun hphase => ?_, fun _ => hQ s v h⟩
  simp only [Bool.and_eq_true, Bool.not_eq_true'] at hphase
  have hidle : v.halted = false := h.halted.trans hphase.2
  have hsweep : Ending d c o s { v with sweeping := true } :=
    { h with
      ready := ⟨h.ready.taken, h.ready.schedule, h.ready.peeked⟩
      after := h.after
      stands := stands_idle hidle }
  rw [Block.wp_bind, Block.wp_await, wp_store]
  refine ⟨⟨h.ready.peeked, hidle⟩, ?_, ?_⟩
  · intro batches
    rw [Block.wp_when]
    exact ⟨fun _ => deleteMissing_lane hsweep rfl hidle _ hQ hF, fun _ => hQ s _ hsweep⟩
  · intro e
    have hsame : v.learn d (.store .streamIdentities) (.error e) = { v with sweeping := true } := by
      change { v.fail with sweeping := true } = _
      rw [fail_eq h.ready.peeked hidle]
    have hbroken := hF e s _ (hsweep.broken hidle)
    rw [← hsame] at hbroken
    exact hbroken

/-! ## The end-of-cycle save -/

/-- What a cycle hands back, unless it was aborted. -/
structure Concluded (d : Deployment ι) (c : Cycle ι) (o : Origin) (r : CycleResult) (v : LaneView ι) :
    Prop where
  lane : v.lane = some c.lane
  lanes : v.lanes = r.state.lanes
  schedule : v.schedule = some r.state.schedule
  ready : v.Ready
  stands : v.Stands d
  after : v.After o.time
  /-- Either nothing failed, or a lane failed just now and did not move on. -/
  outcome :
    (v.failedAt = o.failedAt ∧ (c.lane ≠ .reconcile → r.state.lanes.progress.1 = o.progress.1)) ∨
      (c.lane ≠ .live ∧ v.failedAt = v.clock ∧ r.state.lanes.progress = o.progress)

/-- Nothing keeps the lease from being released. -/
structure LaneView.Sound (d : Deployment ι) (v : LaneView ι) : Prop where
  peeked : v.peeked = true
  stands : v.Stands d

theorem Broken.sound (h : Broken d c o s v) : v.Sound d where
  peeked := h.ready.peeked
  stands := by
    rintro ⟨hhalt, hspoiled⟩
    rw [h.calm hhalt] at hspoiled
    cases hspoiled

theorem Concluded.sound {r : CycleResult} (h : Concluded d c o r v) : v.Sound d :=
  ⟨h.ready.peeked, h.stands⟩

/-- The lane of the end-of-cycle save is complete only if the cycle is done. -/
theorem laneFinal_completes (hlane : v.lane = some c.lane) (hstart : v.start = c.start) {done : Bool}
    {cursor : CursorVal} {endedAt : Int} {last : LaneCursor}
    (h : laneFinal c done cursor endedAt = .ok last) (hc : v.Completes last) : done = true := by
  rcases hc with ⟨hl, hlast⟩ | ⟨hl, hlast⟩
  · have hb : c.lane = .backfill := Option.some.inj (hlane.symm.trans hl)
    simp only [laneFinal, hb] at h
    cases hraw : c.strategy.serialize cursor with
    | error e =>
      rw [hraw] at h
      cases h
    | ok raw =>
      rw [hraw] at h
      rw [← Except.ok.inj h] at hlast
      exact hlast
  · have hr : c.lane = .reconcile := Option.some.inj (hlane.symm.trans hl)
    simp only [laneFinal, hr] at h
    rw [← Except.ok.inj h, hstart] at hlast
    cases done with
    | true => rfl
    | false => exact absurd rfl hlast

/-- With a cursor that can be persisted, the lane can be. -/
theorem laneFinal_total (done : Bool) {cursor raw : CursorVal} (endedAt : Int)
    (h : c.strategy.serialize cursor = .ok raw) : ∃ last, laneFinal c done cursor endedAt = .ok last := by
  unfold laneFinal
  rw [h]
  cases c.lane <;> exact ⟨_, rfl⟩

/-- A halt survives the bookkeeping of the cycle. -/
theorem haltSchedule_after {t at_ : Int} {draw : Rat} (hs : s.halted = true)
    (h : HaltSchedule d t s.state.schedule) : HaltSchedule d t (scheduleAfter c s at_ draw) := by
  unfold scheduleAfter
  rw [if_pos hs]
  exact h

theorem progress_set_fst (lanes : Lanes) {lane : Lane} (h : lane ≠ .reconcile) (last : LaneCursor) :
    (lanes.set lane last).progress.1 = lanes.progress.1 := by
  cases lane with
  | reconcile => exact absurd rfl h
  | _ => rfl

/-- A save that keeps a pending halt. -/
theorem stands_posted {schedule : ScheduleState} (hposted : v.posted = true)
    (hschedule : v.schedule = some schedule)
    (hkept : v.Halting → ∃ t, v.haltedAt = some t ∧ HaltSchedule d t schedule) : v.Stands d := by
  intro hhalting
  obtain ⟨t, ht, hhalt⟩ := hkept hhalting
  exact ⟨t, schedule, ht, hposted, hschedule, hhalt⟩

theorem finishCycle_lane (h : Ending d c o s v)
    {Q : CycleResult → CycleLocals → LaneView ι → Prop}
    (hQ : ∀ r s' w, r.aborted = false → Concluded d c o r w → Q r s' w)
    (hF : ∀ e s' w, Broken d c o s' w → F e s' w) :
    Block.wp (laneContract d forced) (finishCycle c) Q F s v := by
  unfold finishCycle
  rw [Block.wp_bind, Block.wp_assign, Block.wp_bind, Block.wp_locals, Block.wp_bind, Block.wp_await]
  refine now_level h.ready h.haltedAt ?_
  intro endedAt w₁ hw₁ _
  have h₁ := h.aside hw₁
  rw [Block.wp_bind, Block.wp_await, wp_ofExcept]
  refine ⟨?_, ?_⟩
  rotate_left
  · -- a halted cycle has a cursor that can be persisted
    intro e he
    have hidle : w₁.halted = false := by
      cases hhalt : w₁.halted with
      | false => rfl
      | true =>
        have hs : s.halted = true := h₁.halted.symm.trans hhalt
        obtain ⟨hdone, raw, hraw⟩ := h₁.serial hs
        obtain ⟨raw', hraw'⟩ := serialize_complete c hraw
        have hserial : c.strategy.serialize (s.complete c).cursor = .ok raw' := by
          simpa [CycleLocals.complete, hdone] using hraw'
        obtain ⟨last, hlast⟩ := laneFinal_total (s.complete c).done endedAt hserial
        rw [hlast] at he
        cases he
    have hbase : Base d c o (s.complete c) w₁ := h₁.toBase.vary rfl
    exact hF e _ w₁ (hbase.broken hidle)
  intro last hlast
  rw [Block.wp_bind, Block.wp_assign, Block.wp_bind, Block.wp_locals, Block.wp_bind, Block.wp_await]
  refine now_level h₁.ready h₁.haltedAt ?_
  intro at_ w₂ hw₂ _
  have h₂ := h₁.aside hw₂
  rw [Block.wp_bind, Block.wp_await, wp_random]
  refine ⟨trivial, ?_⟩
  intro draw
  rw [Block.wp_bind, Block.wp_await]
  refine now_level h₂.ready h₂.haltedAt ?_
  intro updatedAt w₃ hw₃ _
  have h₃ := h₂.aside hw₃
  dsimp only
  -- the schedule that is saved keeps a pending halt
  have hkept : w₃.Halting → ∃ t, w₃.haltedAt = some t ∧
      HaltSchedule d t (scheduleAfter c ((s.complete c).summarize c endedAt) at_ draw) := by
    intro hhalting
    obtain ⟨t, sch, ht, -, hsch, hhalt⟩ := h₃.stands hhalting
    refine ⟨t, ht, haltSchedule_after (h₃.halted.symm.trans hhalting.1) ?_⟩
    rw [h₃.schedule] at hsch
    rw [← Option.some.inj hsch] at hhalt
    exact hhalt
  rw [Block.wp_bind, Block.wp_await, wp_store]
  refine ⟨⟨h₃.ready.peeked, ?_, ?_⟩, ?_, ?_⟩
  · intro lanes hlanes
    refine ⟨c.lane, last, h₃.lane, ?_, ?_⟩
    · rw [h₃.lanes]
      exact (Option.some.inj hlanes).symm
    · intro hcompletes
      exact h₃.done (laneFinal_completes h₃.lane h₃.start hlast hcompletes)
  · intro hhalting
    obtain ⟨t, ht, hschedule⟩ := hkept hhalting
    exact ⟨t, _, ht, rfl, hschedule⟩
  · intro _
    rw [Block.wp_bind, Block.wp_assign, Block.wp_bind, Block.wp_await, wp_call]
    refine ⟨trivial, ?_⟩
    intro _
    rw [Block.wp_bind, Block.wp_locals]
    refine hQ _ _ _ rfl
      { lane := h₃.lane
        lanes := rfl
        schedule := rfl
        ready := ⟨h₃.ready.taken, rfl, h₃.ready.peeked⟩
        stands := stands_posted rfl rfl hkept
        after := h₃.after
        outcome := Or.inl ⟨?_, ?_⟩ }
    · exact (if_neg fun hfailed => Bool.noConfusion hfailed.2).trans h₃.failedAt
    · intro hlane
      rw [← h₃.progress]
      exact progress_set_fst _ hlane last
  · intro e
    refine hF e _ _
      { h₃.toBase with
        lanes := h₃.lanes
        progress := h₃.progress
        ready := ⟨h₃.ready.taken, rfl, rfl⟩
        after := h₃.after
        calm := ?_ }
    intro hhalt
    change (_ || w₃.halted) = true
    rw [show w₃.halted = true from hhalt, Bool.or_true]

/-! ## A failed cycle -/

theorem Broken.tick (h : Broken d c o s v) (t : Int) : Broken d c o s (v.tick d t) := by
  obtain ⟨sch, hsch⟩ := Option.isSome_iff_exists.1 h.ready.schedule
  exact
    { h with
      ready := ⟨h.ready.taken, by simp [LaneView.tick, hsch], h.ready.peeked⟩
      after := h.after.tick d t }

theorem Broken.now (h : Broken d c o s v) {Q : Int → LaneView ι → Prop} {E : JsError → LaneView ι → Prop}
    (hQ : ∀ t w, Broken d c o s w → Q t w) :
    (now : Proc ι Int).wp (laneContract d forced) Q E v := by
  rw [wp_now]
  refine ⟨trivial, ?_⟩
  intro t
  have hread : v.read d t = v.tick d t := read_eq_tick d h.ready.taken t
  change Q t (v.read d t)
  rw [hread]
  exact hQ t _ (h.tick t)

/-- After a save, or the attempt of one, that carries the schedule of a failed cycle. -/
structure Failed (d : Deployment ι) (c : Cycle ι) (o : Origin) (s : CycleLocals) (v : LaneView ι) :
    Prop extends Broken d c o s v where
  schedule : v.schedule = some s.state.schedule
  filed : v.filed = false

theorem Failed.tick (h : Failed d c o s v) (t : Int) : Failed d c o s (v.tick d t) :=
  { h with
    toBroken := h.toBroken.tick t
    schedule := by simp [LaneView.tick, h.schedule] }

/-- The result of a failed cycle: the lanes did not move on. -/
theorem Failed.report (h : Failed d c o s v) (err : JsError) {t : Int}
    {Q : CycleResult → CycleLocals → LaneView ι → Prop}
    (hQ : ∀ r w, r.aborted = false → Concluded d c o r w → Q r s w) :
    Block.wp (laneContract d forced) (do
      Block.await (call (.pollEnd c.lane))
      let s ← Block.locals
      return errorResult c s s.summary.events.total err t false) Q F s v := by
  rw [Block.wp_bind, Block.wp_await, wp_call]
  refine ⟨trivial, ?_⟩
  intro _
  rw [Block.wp_bind, Block.wp_locals]
  refine hQ _ _ rfl
    { lane := h.lane
      lanes := h.lanes
      schedule := h.schedule
      ready := ⟨h.ready.taken, h.ready.schedule, h.ready.peeked⟩
      stands := h.sound.stands
      after := h.after
      outcome := ?_ }
  by_cases hlane : c.lane = .live
  · left
    refine ⟨(if_neg fun hfailed => hfailed.1 hlane).trans h.failedAt, ?_⟩
    intro _
    rw [← h.progress]
    rfl
  · right
    exact ⟨hlane, if_pos ⟨hlane, h.filed⟩, h.progress⟩

theorem failCycle_lane (h : Broken d c o s v) (err : JsError)
    {Q : CycleResult → CycleLocals → LaneView ι → Prop}
    (hQ : ∀ r s' w, r.aborted = false → Concluded d c o r w → Q r s' w)
    (hF : ∀ e s' w, w.Sound d → F e s' w) :
    Block.wp (laneContract d forced) (failCycle c err) Q F s v := by
  unfold failCycle
  rw [Block.wp_bind, Block.wp_locals, Block.wp_bind, Block.wp_await]
  refine h.now ?_
  intro at_ w₁ h₁
  rw [Block.wp_bind, Block.wp_await, wp_random]
  refine ⟨trivial, ?_⟩
  intro draw
  rw [Block.wp_bind, Block.wp_await]
  refine Broken.now h₁ ?_
  intro updatedAt w₂ h₂
  dsimp only
  -- a halt that precedes the failure is spoiled, so the schedule is free
  have hcalm : ¬w₂.Halting := by
    rintro ⟨hhalt, hspoiled⟩
    rw [h₂.calm hhalt] at hspoiled
    cases hspoiled
  rw [Block.wp_bind, Block.wp_await, Task.wp_attempt, wp_store]
  refine ⟨⟨h₂.ready.peeked, ?_, fun hhalting => absurd hhalting hcalm⟩, ?_, ?_⟩
  · intro lanes hlanes
    cases hlanes
  · intro _
    rw [Block.wp_bind, Block.wp_assign, Block.wp_bind, Block.wp_await]
    have hfailed : Failed d c o (s.afterFailure (scheduleAfterFailure c s err at_ draw))
        (w₂.learn d (.store (.saveState c.lease
          (failurePatch s (scheduleAfterFailure c s err at_ draw) updatedAt))) (.ok ())) :=
      { h₂ with
        lanes := h₂.lanes
        progress := h₂.progress
        ready := ⟨h₂.ready.taken, rfl, h₂.ready.peeked⟩
        after := h₂.after
        calm := h₂.calm
        schedule := rfl
        filed := rfl }
    rw [wp_now]
    refine ⟨trivial, ?_⟩
    intro endedAt
    have hread := read_eq_tick d hfailed.ready.taken endedAt
    rw [show (laneContract d forced).learn _ .now endedAt = _ from hread]
    exact (hfailed.tick endedAt).report err fun r w => hQ r _ w
  · intro e
    have hfailed : Failed d c o (s.afterFailure (scheduleAfterFailure c s err at_ draw))
        (w₂.learn d (.store (.saveState c.lease
          (failurePatch s (scheduleAfterFailure c s err at_ draw) updatedAt))) (.error e)) :=
      { h₂ with
        lanes := h₂.lanes
        progress := h₂.progress
        ready := ⟨h₂.ready.taken, rfl, rfl⟩
        after := h₂.after
        calm := fun hhalt => by
          change (_ || w₂.halted) = true
          rw [show w₂.halted = true from hhalt, Bool.or_true]
        schedule := rfl
        filed := rfl }
    -- a lost lease is thrown on, any other failure of the save is swallowed
    rw [Block.wp_bind, Block.wp_when]
    refine ⟨fun _ => hF e _ _ hfailed.toBroken.sound, fun _ => ?_⟩
    rw [Block.wp_bind, Block.wp_assign, Block.wp_bind, Block.wp_await, wp_now]
    refine ⟨trivial, ?_⟩
    intro endedAt
    have hread := read_eq_tick d hfailed.ready.taken endedAt
    rw [show (laneContract d forced).learn _ .now endedAt = _ from hread]
    exact (hfailed.tick endedAt).report err fun r w => hQ r _ w

theorem onCycleError_lane (h : Broken d c o s v) (err : JsError)
    {Q : CycleResult → CycleLocals → LaneView ι → Prop}
    (hQ : ∀ r s' w, r.aborted = false → Concluded d c o r w → Q r s' w)
    (hcut : ∀ r s' w, r.aborted = true → w.Sound d → Q r s' w)
    (hF : ∀ e s' w, w.Sound d → F e s' w) :
    Block.wp (laneContract d forced) (onCycleError c err) Q F s v := by
  unfold onCycleError
  rw [Block.wp_ite]
  refine ⟨fun _ => hF err s v h.sound, fun _ => ?_⟩
  rw [Block.wp_bind, Block.wp_await, wp_call]
  refine ⟨trivial, ?_⟩
  intro reason
  rw [Block.wp_bind, Block.wp_await, wp_call]
  refine ⟨trivial, ?_⟩
  intro lost
  have hread : Broken d c o s (v.learn d (.signal c.run) reason) :=
    { h with
      ready := ⟨h.ready.taken, h.ready.schedule, h.ready.peeked⟩
      after := h.after }
  rw [Block.wp_ite]
  refine ⟨fun _ => hF _ s _ hread.sound, fun _ => ?_⟩
  rw [Block.wp_ite]
  refine ⟨fun _ => ?_, fun _ => failCycle_lane hread err hQ hF⟩
  rw [Block.wp_bind, Block.wp_locals, Block.wp_bind, Block.wp_await]
  refine Broken.now hread ?_
  intro endedAt w hw
  exact hcut _ _ w rfl hw.sound

end Watukuy
