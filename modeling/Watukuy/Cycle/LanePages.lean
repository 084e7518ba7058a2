import Watukuy.Cycle.LaneCalls

/-!
# The pages of a cycle, as the lane contract sees them

`Level` is the invariant of the page loop: lanes, schedule and cursor in memory are those of the view,
and no drain halted. `Broken` is what is left when a cycle fails, `Ending` what the loop ends with: a
lane that is done is complete, or its loop was cut.
-/

set_option autoImplicit false

namespace Watukuy

open Library Task LaneView

variable {ι : Type} {d : Deployment ι} {forced : Prop}

/-! ## What a cycle starts from -/

/-- How far reconcile and backfill have come, as their lanes tell. -/
def Lanes.progress (lanes : Lanes) : Option Int × Bool :=
  (lanes.reconcile.bind (·.lastRunAt), lanes.backfill.elim false fun lane => !lane.done)

/-- What an execution knew when the cycle began. -/
structure Origin where
  progress : Option Int × Bool
  /-- The clock had read this. -/
  time : Int
  failedAt : Option Int

/-- The lane cursor of the cycle agrees with the progress it started from. -/
structure Fits (c : Cycle ι) (o : Origin) : Prop where
  reconcile : c.lane = .reconcile → c.start.lastRunAt = o.progress.1
  backfill : c.lane = .backfill → o.progress.2 = true

theorem progress_laneNext {c : Cycle ι} {o : Origin} (h : Fits c o) {lanes : Lanes}
    (hl : lanes.progress = o.progress) (cursor : CursorVal) :
    (lanes.set c.lane (laneNext c cursor)).progress = o.progress := by
  rw [← hl]
  cases hlane : c.lane with
  | live | replay => rfl
  | reconcile =>
    have hstart := h.reconcile hlane
    rw [← hl] at hstart
    simpa [Lanes.progress, Lanes.set, laneNext, hlane] using hstart
  | backfill =>
    have hdone := h.backfill hlane
    rw [← hl] at hdone
    simpa [Lanes.progress, Lanes.set, laneNext, hlane] using hdone.symm

/-- The page cursor of a lane is no completion. -/
theorem not_completes_laneNext {c : Cycle ι} {v : LaneView ι} (hlane : v.lane = some c.lane)
    (hstart : v.start = c.start) (cursor : CursorVal) : ¬v.Completes (laneNext c cursor) := by
  rintro (⟨hl, hdone⟩ | ⟨hl, hrun⟩)
  · rw [hlane] at hl
    simp [laneNext, Option.some.inj hl] at hdone
  · rw [hlane] at hl
    simp [laneNext, Option.some.inj hl, hstart] at hrun

/-! ## The strategy of the lane -/

section Strategy

variable {c : Cycle ι}

theorem strategy_eq (hdeps : c.deps.In d) : c.strategy = d.strategy c.lane := by
  simp [Cycle.strategy, Cycle.config, Deployment.strategy, Deployment.config, hdeps.poller]

theorem startCursor_eq (hdeps : c.deps.In d) : startCursor c = d.startCursor c.lane c.start := by
  cases h : c.start.cursor <;> simp [startCursor, Deployment.startCursor, h, strategy_eq hdeps]

/-- The target of the view is that of the cycle. -/
theorem reaches_eq (hdeps : c.deps.In d) (htarget : startTarget c = .ok c.target) {cursor : CursorVal}
    {b : Bool} (h : targetReached c cursor = .ok b) : d.reaches c.lane c.start cursor = b := by
  unfold targetReached at h
  unfold startTarget at htarget
  unfold Deployment.reaches
  rw [strategy_eq hdeps] at h htarget
  cases hraw : c.start.target with
  | none =>
    rw [hraw] at htarget
    rw [← Except.ok.inj htarget] at h
    exact Except.ok.inj h
  | some raw =>
    rw [hraw] at htarget
    dsimp only at htarget ⊢
    by_cases hlane : c.lane = .backfill
    · rw [if_pos hlane] at htarget
      cases hdes : (d.strategy c.lane).deserialize raw with
      | error e =>
        rw [hdes] at htarget
        cases htarget
      | ok target =>
        rw [hdes] at htarget
        have htarget : some target = c.target := Except.ok.inj htarget
        rw [← htarget] at h
        dsimp only at h
        rw [if_pos hlane] at h
        dsimp only
        rw [h]
        simp [hlane]
    · rw [if_neg hlane] at htarget
      rw [← Except.ok.inj htarget] at h
      have hb : false = b := Except.ok.inj h
      rw [← hb]
      cases (d.strategy c.lane).deserialize raw with
      | error e => rfl
      | ok target =>
        cases hreached : (d.strategy c.lane).reached cursor target <;> simp [hreached, hlane]

/-- A cursor that can be persisted still can when the cycle completes. -/
theorem serialize_complete (c : Cycle ι) {cursor raw : CursorVal}
    (h : c.strategy.serialize cursor = .ok raw) :
    ∃ raw', c.strategy.serialize (c.strategy.onCycleComplete cursor) = .ok raw' := by
  unfold Cycle.strategy at h ⊢
  cases hc : c.config with
  | custom cfg =>
    rw [hc] at h
    exact ⟨raw, h⟩
  | _ => exact ⟨_, rfl⟩

end Strategy

/-! ## The agreement between two pages -/

/-- What a cycle and its view agree on, whatever happens. -/
structure Base (d : Deployment ι) (c : Cycle ι) (o : Origin) (s : CycleLocals) (v : LaneView ι) :
    Prop where
  deps : c.deps.In d
  fits : Fits c o
  target : startTarget c = .ok c.target
  lane : v.lane = some c.lane
  start : v.start = c.start
  lanes : v.lanes = s.state.lanes
  progress : s.state.lanes.progress = o.progress
  ready : v.Ready
  after : v.After o.time
  failedAt : v.failedAt = o.failedAt

/-- What is left of the agreement when a cycle fails. -/
structure Broken (d : Deployment ι) (c : Cycle ι) (o : Origin) (s : CycleLocals) (v : LaneView ι) :
    Prop extends Base d c o s v where
  calm : v.halted = true → v.spoiled = true

/-- Between two pages. -/
structure Level (d : Deployment ι) (c : Cycle ι) (o : Origin) (s : CycleLocals) (v : LaneView ι) :
    Prop extends Base d c o s v where
  schedule : v.schedule = some s.state.schedule
  opened : v.opened = v.schedule
  cursor : v.cursor = some s.cursor
  sweeping : v.sweeping = false
  idle : v.halted = false
  halted : s.halted = false

/-- A halt is on record: the schedule was saved with the circuit open. -/
def LaneView.Stands (d : Deployment ι) (v : LaneView ι) : Prop :=
  v.Halting → ∃ t s, v.haltedAt = some t ∧ v.posted = true ∧ v.schedule = some s ∧
    HaltSchedule d t s

/-- After the page loop. -/
structure Ending (d : Deployment ι) (c : Cycle ι) (o : Origin) (s : CycleLocals) (v : LaneView ι) :
    Prop extends Base d c o s v where
  schedule : v.schedule = some s.state.schedule
  halted : v.halted = s.halted
  haltedAt : v.halted = true → v.haltedAt.isSome
  stands : v.Stands d
  done : s.done = true → v.Complete ∨ v.Cut
  serial : s.halted = true → s.done = true ∧ ∃ raw, c.strategy.serialize s.cursor = .ok raw

section Agreement

variable {c : Cycle ι} {o : Origin} {s s' : CycleLocals} {v w : LaneView ι}

theorem Base.aside (h : Base d c o s v) (hw : Aside v w) : Base d c o s w := by
  have hready := hw.ready h.ready
  have hafter := hw.later _ h.after
  obtain ⟨⟨cl, g, a, rfl, -⟩, -⟩ := hw
  exact { h with ready := hready, after := hafter }

theorem Level.aside (h : Level d c o s v) (hw : Aside v w) : Level d c o s w := by
  have hbase := h.toBase.aside hw
  obtain ⟨⟨cl, g, a, rfl, -⟩, -⟩ := hw
  exact { h with toBase := hbase }

theorem Level.broken (h : Level d c o s v) : Broken d c o s v := by
  refine { h with calm := ?_ }
  intro hhalt
  rw [h.idle] at hhalt
  cases hhalt

theorem stands_idle (h : v.halted = false) : v.Stands d := by
  rintro ⟨hhalt, -⟩
  rw [h] at hhalt
  cases hhalt

theorem Level.ending (h : Level d c o s v) (hdone : s.done = true → v.Complete ∨ v.Cut) :
    Ending d c o s v := by
  refine
    { h with
      halted := h.idle.trans h.halted.symm
      haltedAt := calm_idle h.idle
      stands := stands_idle h.idle
      done := hdone
      serial := ?_ }
  intro hs
  rw [h.halted] at hs
  cases hs

/-- A change of the variables that leaves state, cursor and halt alone. -/
theorem Level.vary (h : Level d c o s v) (hstate : s'.state = s.state) (hcursor : s'.cursor = s.cursor)
    (hhalted : s'.halted = s.halted) : Level d c o s' v := by
  refine
    { h with
      lanes := ?_
      progress := ?_
      schedule := ?_
      cursor := ?_
      halted := hhalted.trans h.halted }
  · rw [hstate]
    exact h.lanes
  · rw [hstate]
    exact h.progress
  · rw [hstate]
    exact h.schedule
  · rw [hcursor]
    exact h.cursor

/-- A request of the fetch function. -/
theorem Level.remark (h : Level d c o s v) (hs : Remarked s s') : Level d c o s' v := by
  obtain ⟨n, r, rfl⟩ := hs
  exact h.vary rfl rfl rfl

/-- A change of the variables that leaves the state alone. -/
theorem Base.vary (h : Base d c o s v) (hstate : s'.state = s.state) : Base d c o s' v := by
  refine { h with lanes := ?_, progress := ?_ }
  · rw [hstate]
    exact h.lanes
  · rw [hstate]
    exact h.progress

theorem Base.broken (h : Base d c o s v) (hh : v.halted = false) : Broken d c o s v := by
  refine { h with calm := ?_ }
  intro hhalt
  rw [hh] at hhalt
  cases hhalt

end Agreement

/-! ## One page -/

/-- A page was taken from the fetch function. -/
def LaneView.take (v : LaneView ι) (page : Page ι) (rest : UserCode ι) : LaneView ι :=
  { v with code := some rest, taken := some page, inCall := v.inCall + 1, aborted := false }

/-- After a page, up to the guards of the loop. -/
structure Counted (d : Deployment ι) (c : Cycle ι) (o : Origin) (rest : UserCode ι) (n : Nat)
    (s : CycleLocals) (v : LaneView ι) : Prop extends Level d c o s v where
  code : v.code = some rest
  inCall : v.inCall = n
  done : s.done = true → v.ended = true ∨ v.reached = true
  serial : ∃ raw, c.strategy.serialize s.cursor = .ok raw

section Page

variable {c : Cycle ι} {o : Origin} {s : CycleLocals} {v : LaneView ι} {page : Page ι}
  {rest : UserCode ι} {n : Nat} {F : JsError → CycleLocals → LaneView ι → Prop}

theorem Counted.aside {w : LaneView ι} (h : Counted d c o rest n s v) (hw : Aside v w) :
    Counted d c o rest n s w := by
  have hlevel := h.toLevel.aside hw
  obtain ⟨⟨cl, g, a, rfl, -⟩, -⟩ := hw
  exact { h with toLevel := hlevel }

/-- The view after the reading of the clock that counts a page. -/
theorem count_ok (h : Level d c o s v) {t : Int} {adv : AdvanceResult ι}
    (hadv : c.strategy.advance s.cursor
      { items := page.items, pageCursor := page.cursor, hasMore := page.hasMore, now := t } =
        .ok adv) :
    (v.take page rest).learn d .now t =
      { v with
        clock := some (v.clock.elim t (max t))
        code := some rest
        inCall := v.inCall + 1
        aborted := false
        cursor := some adv.cursor
        ended := adv.done
        reached := d.reaches c.lane c.start adv.cursor } := by
  have htick := tick_eq d (v := v.take page rest) h.ready.schedule (calm_idle h.idle) t
  rw [strategy_eq h.deps] at hadv
  have hnone := h.ready.taken
  change LaneView.advance d ((v.take page rest).tick d t) page t = _
  rw [htick]
  simp [LaneView.take, LaneView.advance, h.lane, h.cursor, hadv, h.start, hnone]

/-- The same when the strategy rejects the page. -/
theorem count_error (h : Level d c o s v) {t : Int} {e : JsError}
    (hadv : c.strategy.advance s.cursor
      { items := page.items, pageCursor := page.cursor, hasMore := page.hasMore, now := t } =
        .error e) :
    (v.take page rest).learn d .now t =
      { v with
        clock := some (v.clock.elim t (max t))
        code := some rest
        inCall := v.inCall + 1
        aborted := false
        cursor := none } := by
  have htick := tick_eq d (v := v.take page rest) h.ready.schedule (calm_idle h.idle) t
  rw [strategy_eq h.deps] at hadv
  have hnone := h.ready.taken
  change LaneView.advance d ((v.take page rest).tick d t) page t = _
  rw [htick]
  simp [LaneView.take, LaneView.advance, h.lane, h.cursor, hadv, hnone]

theorem after_max {u t : Int} (h : v.After u) {w : LaneView ι}
    (hw : w.clock = some (v.clock.elim t (max t))) : w.After u := by
  obtain ⟨x, hx, hux⟩ := h
  refine ⟨max t x, by rw [hw, hx]; rfl, ?_⟩
  omega

/-- The commit of a page. -/
theorem savePage_lane (h : Counted d c o rest n s v) {commit : PageCommit ι} {cursor : CursorVal}
    {Q : Unit → CycleLocals → LaneView ι → Prop}
    (hQ : ∀ s' w, Counted d c o rest n s' w → Q () s' w)
    (hF : ∀ e s' w, Broken d c o s' w → F e s' w) :
    Block.wp (laneContract d forced) (savePage c commit cursor) Q F s v := by
  unfold savePage
  rw [Block.wp_bind, Block.wp_locals, Block.wp_bind, Block.wp_await]
  refine now_level h.ready (calm_idle h.idle) ?_
  intro updatedAt w hw _
  have hc := h.aside hw
  rw [Block.wp_bind, Block.wp_await, wp_store]
  refine ⟨⟨hc.ready.peeked, ?_, fun hhalt => ?_⟩, ?_, ?_⟩
  · intro lanes hlanes
    refine ⟨c.lane, laneNext c cursor, hc.lane, ?_, ?_⟩
    · rw [hc.lanes]
      exact (Option.some.inj hlanes).symm
    · intro hcompletes
      exact absurd hcompletes (not_completes_laneNext hc.lane hc.start cursor)
  · exact Bool.noConfusion (hc.idle.symm.trans hhalt.1)
  · intro _
    have hsaved : ∀ at_, Counted d c o rest n (s.afterCommit c cursor at_)
        (w.learn d (.store (.commitPoll c.lease (pageBatch c s commit cursor updatedAt))) (.ok ())) := by
      intro at_
      exact
        { hc with
          lanes := rfl
          progress := progress_laneNext hc.fits hc.progress cursor
          ready := ⟨hc.ready.taken, rfl, hc.ready.peeked⟩
          schedule := rfl
          opened := hc.opened.trans hc.schedule }
    rw [Block.wp_bind, Block.wp_await]
    refine now_level (hsaved 0).ready (calm_idle (hsaved 0).idle) ?_
    intro at_ w' hw' _
    exact hQ _ _ ((hsaved at_).aside hw')
  · intro e
    have hsame : w.learn d (.store (.commitPoll c.lease (pageBatch c s commit cursor updatedAt)))
        (.error e) = w := fail_eq hc.ready.peeked hc.idle
    have hbroken := hF e s w hc.toLevel.broken
    rw [← hsame] at hbroken
    exact hbroken

theorem commitPage_lane (h : Level d c o s v) {Q : Bool → CycleLocals → LaneView ι → Prop}
    (hQ : ∀ b s' w, Counted d c o rest (v.inCall + 1) s' w → Q b s' w)
    (hF : ∀ e s' w, Broken d c o s' w → F e s' w) :
    Block.wp (laneContract d forced) (commitPage c page) Q F s (v.take page rest) := by
  unfold commitPage
  rw [Block.wp_bind, Block.wp_assign, Block.wp_bind, Block.wp_await, wp_now]
  refine ⟨trivial, ?_⟩
  intro t
  rw [Block.wp_bind, Block.wp_locals, Block.wp_bind, Block.wp_await, wp_ofExcept]
  refine ⟨?_, ?_⟩
  rotate_left
  · -- the strategy rejects the page
    intro e hadv
    change F e s.countPage ((v.take page rest).learn d .now t)
    rw [count_error h hadv]
    refine hF e _ _ (Base.broken ?_ h.idle)
    exact { h.toBase with
      lanes := h.lanes, ready := ⟨h.ready.taken, h.ready.schedule, h.ready.peeked⟩
      after := after_max h.after rfl }
  intro adv hadv
  -- the view counts the page as the strategy did
  have hcount : (v.take page rest).learn d .now t = _ := count_ok h hadv
  have hlevel : ∀ s', s'.state = s.state → s'.cursor = adv.cursor → s'.halted = s.halted →
      Level d c o s' ((v.take page rest).learn d .now t) := by
    intro s' hstate hcursor hhalted
    rw [hcount]
    refine
      { h with
        lanes := by rw [hstate]; exact h.lanes
        progress := by rw [hstate]; exact h.progress
        ready := ⟨h.ready.taken, h.ready.schedule, h.ready.peeked⟩
        after := after_max h.after rfl
        schedule := by rw [hstate]; exact h.schedule
        cursor := by rw [hcursor]
        halted := hhalted.trans h.halted }
  have hbase : Level d c o { s.countPage with cursor := adv.cursor }
      ((v.take page rest).learn d .now t) := hlevel _ rfl rfl rfl
  rw [Block.wp_bind, Block.wp_await, wp_ofExcept]
  refine ⟨?_, ?_⟩
  rotate_left
  · intro e _
    have hfailed : Base d c o s.countPage ((v.take page rest).learn d .now t) :=
      hbase.toBase.vary rfl
    exact hF e _ _ (hfailed.broken hbase.idle)
  intro cursor hcursor
  rw [Block.wp_bind, Block.wp_await]
  refine quiet_keeps (processPage_quiet _ _ _ _) hbase.ready hbase.idle ?_ ?_
  rotate_left
  · intro e w hw
    have hfailed : Base d c o s.countPage w := (hbase.aside hw).toBase.vary rfl
    exact hF e _ _ (hfailed.broken (hbase.aside hw).idle)
  intro commit w hw
  have hcounted : ∀ done, (done = true → w.ended = true ∨ w.reached = true) →
      Counted d c o rest (v.inCall + 1) { s.countPage.afterPage adv commit with done } w := by
    intro done hdone
    have hl : Level d c o { s.countPage.afterPage adv commit with done } w :=
      (hlevel { s.countPage.afterPage adv commit with done } rfl rfl rfl).aside hw
    refine
      { hl with
        code := ?_
        inCall := ?_
        done := hdone
        serial := ⟨cursor, hcursor⟩ }
    · obtain ⟨⟨cl, g, a, rfl, -⟩, -⟩ := hw
      rw [hcount]
    · obtain ⟨⟨cl, g, a, rfl, -⟩, -⟩ := hw
      rw [hcount]
  have hended : w.ended = adv.done := by
    obtain ⟨⟨cl, g, a, rfl, -⟩, -⟩ := hw
    rw [hcount]
  have hreached : w.reached = d.reaches c.lane c.start adv.cursor := by
    obtain ⟨⟨cl, g, a, rfl, -⟩, -⟩ := hw
    rw [hcount]
  have hplain : Counted d c o rest (v.inCall + 1) (s.countPage.afterPage adv commit) w := by
    refine hcounted adv.done ?_
    intro hdone
    exact Or.inl (hended.trans hdone)
  rw [Block.wp_bind, Block.wp_assign, Block.wp_bind, Block.wp_await, wp_ofExcept]
  refine ⟨?_, fun e _ => hF e _ _ hplain.toLevel.broken⟩
  intro reached htarget
  rw [Block.wp_bind, Block.wp_when]
  refine ⟨fun hr => ?_, fun _ => ?_⟩
  · rw [Block.wp_assign, Block.wp_bind]
    refine savePage_lane (hcounted true ?_) (fun s' w' h' => hQ _ _ _ h') hF
    intro _
    right
    rw [hreached, reaches_eq h.deps h.target htarget, hr]
  · rw [Block.wp_bind]
    exact savePage_lane hplain (fun s' w' h' => hQ _ _ _ h') hF

/-! ## After a page -/

/-- Opening the circuit for a halt the drain has just reported. -/
theorem openCircuitForHalt_lane {deps : RunnerDeps ι} {lease : Lease} {state : PollerState}
    (hdeps : deps.In d) (hready : v.Ready) (hhalted : v.halted = true) (hnone : v.haltedAt = none)
    {Q : PollerState → LaneView ι → Prop} {E : JsError → LaneView ι → Prop}
    (hQ : ∀ at_ schedule, HaltSchedule d at_ schedule →
      Q { state with schedule, updatedAt := at_ }
        { v with
          clock := some (v.clock.elim at_ (max at_)), haltedAt := some at_, filed := false
          schedule := some schedule, posted := true })
    (hE : ∀ e at_ schedule, E e
        { v with
          clock := some (v.clock.elim at_ (max at_)), haltedAt := some at_, filed := false
          schedule := some schedule, peeked := true, spoiled := v.spoiled || v.halted }) :
    (openCircuitForHalt deps lease state).wp (laneContract d forced) Q E v := by
  unfold openCircuitForHalt
  rw [Task.wp_bind, wp_now]
  refine ⟨trivial, ?_⟩
  intro at_
  obtain ⟨sch, hsch⟩ := Option.isSome_iff_exists.1 hready.schedule
  have htick : (laneContract d forced).learn v .now at_ =
      { v with clock := some (v.clock.elim at_ (max at_)), haltedAt := some at_ } := by
    change v.read d at_ = _
    rw [read_eq_tick d hready.taken]
    simp [tick, hsch, hhalted, hnone]
  rw [htick]
  dsimp only
  rw [Task.wp_bind, wp_store, hdeps.poller]
  refine ⟨⟨hready.peeked, ?_, ?_⟩, ?_, ?_⟩
  · intro lanes hlanes
    cases hlanes
  · intro _
    exact ⟨at_, _, rfl, rfl, rfl, rfl⟩
  · intro _
    exact hQ at_ _ ⟨rfl, rfl⟩
  · intro e
    exact hE e at_ _

theorem drainPage_lane (h : Counted d c o rest n s v)
    {Q : Bool → CycleLocals → LaneView ι → Prop}
    (hnext : ∀ s' w, Counted d c o rest n s' w → Q false s' w)
    (hhalt : ∀ s' w, Ending d c o s' w → Q true s' w)
    (hF : ∀ e s' w, Broken d c o s' w → F e s' w) :
    Block.wp (laneContract d forced) (drainPage c) Q F s v := by
  unfold drainPage
  rw [Block.wp_bind, Block.wp_await]
  refine drainOutbox_lane h.ready h.idle ?_ ?_
  rotate_left
  · rintro e _ ⟨dr, g, a, hh, ht, po, sp, rfl, hcalm, -⟩
    exact hF e s _
      { h.toBase with
        ready := ⟨h.ready.taken, h.ready.schedule, rfl⟩
        after := h.after
        calm := hcalm }
  rintro r _ ⟨dr, g, a, hh, ht, po, sp, rfl, hnone, hkept, -, -⟩
  obtain ⟨rfl, rfl⟩ := hkept h.sweeping
  rw [Block.wp_bind, Block.wp_assign, Block.wp_ite]
  refine ⟨fun hr => ?_, fun hr => ?_⟩
  · rw [Block.wp_bind, Block.wp_locals, Block.wp_bind, Block.wp_await]
    refine openCircuitForHalt_lane h.deps ?_ ?_ ?_ ?_ ?_
    · exact ⟨h.ready.taken, h.ready.schedule, rfl⟩
    · exact hr
    · exact hnone hr
    · intro at_ schedule hschedule
      rw [Block.wp_bind, Block.wp_assign, Block.wp_pure]
      refine hhalt _ _
        { h.toBase with
          ready := ⟨h.ready.taken, rfl, rfl⟩
          after := after_max h.after rfl
          schedule := rfl
          halted := hr
          haltedAt := fun _ => rfl
          stands := fun _ => ⟨at_, schedule, rfl, rfl, rfl, hschedule⟩
          done := fun _ => Or.inr (Or.inl hr)
          serial := fun _ => ⟨rfl, h.serial⟩ }
    · intro e at_ schedule
      exact hF e _ _
        { h.toBase with
          ready := ⟨h.ready.taken, rfl, rfl⟩
          after := after_max h.after rfl
          calm := fun _ => by rw [hr, Bool.or_true] }
  · rw [Bool.not_eq_true] at hr
    refine hnext _ _
      { h with
        toBase :=
          { h.toBase with
            ready := ⟨h.ready.taken, h.ready.schedule, rfl⟩
            after := h.after }
        idle := hr }

/-- The question to the keeper after a page. -/
theorem renewNow_lane (hv : v.Ready) (hh : v.halted = false) {deps : RunnerDeps ι} {run : Nat}
    {lease : Lease} {Q : Bool → LaneView ι → Prop} {E : JsError → LaneView ι → Prop}
    (hQ : ∀ b w, Aside v w → w.guarded = true → Q b w) (hE : ∀ e w, Aside v w → E e w) :
    (renewNow deps run lease).wp (laneContract d forced) Q E v := by
  have hguard : Aside v (v.learn d (.keeperStopped run) true) :=
    quiet_aside hv hh (o := .keeperStopped run) trivial true
  unfold renewNow
  rw [Task.wp_bind, wp_call]
  refine ⟨trivial, ?_⟩
  intro isStopped
  rw [wp_ite]
  refine ⟨fun _ => ?_, fun _ => ?_⟩
  · rw [Task.wp_bind, wp_call]
    exact ⟨trivial, fun lost => hQ _ _ hguard rfl⟩
  · rw [Task.wp_bind]
    have hready := hguard.ready hv
    have hidle := calm_idle (hguard.halted.trans hh)
    refine now_tick hready hidle ?_
    intro at_
    rw [← tick_eq d hready.schedule hidle at_]
    have haside := hguard.trans (tick_aside d hready.schedule hidle at_)
    have hguarded : ((v.learn d (.keeperStopped run) true).tick d at_).guarded = true := rfl
    generalize (v.learn d (.keeperStopped run) true).tick d at_ = w at haside hguarded
    rw [Task.wp_bind, wp_store]
    refine ⟨trivial, fun ok => ?_, fun e => ?_⟩
    · rw [Task.wp_bind, wp_when, wp_call]
      exact ⟨fun _ => ⟨trivial, fun _ => hQ ok w haside hguarded⟩, fun _ => hQ ok w haside hguarded⟩
    · have hfail : w.learn d (.store (.renewLease lease deps.leaseTtlMs at_)) (.error e) = w :=
        fail_eq (haside.ready hv).peeked (haside.halted.trans hh)
      have hdone := hE e w haside
      rw [← hfail] at hdone
      exact hdone

/-- How the page loop goes on after a page. -/
def Onward (d : Deployment ι) (c : Cycle ι) (o : Origin) (rest : UserCode ι) (n : Nat)
    (s : CycleLocals) (v : LaneView ι) : PageEnd → Prop
  | .next => Counted d c o rest n s v ∧ s.done = false
  | .leave => Counted d c o rest n s v ∧ (s.done = true ∨ v.aborted = true)
  | .leaveOuter => Ending d c o s v

theorem Level.truncate (h : Level d c o s v) (hdone : s.done = false) :
    Ending d c o (truncate_ s) v := by
  have hl : Level d c o (truncate_ s) v := h.vary rfl rfl rfl
  refine hl.ending ?_
  intro hd
  rw [show s.done = true from hd] at hdone
  cases hdone

/-- The guards at the end of a page. -/
theorem afterPage_lane (h : Counted d c o rest n s v) {Q : PageEnd → CycleLocals → LaneView ι → Prop}
    (hQ : ∀ e s' w, Onward d c o rest n s' w e → Q e s' w)
    (hF : ∀ e s' w, Broken d c o s' w → F e s' w) :
    Block.wp (laneContract d forced) (afterPage c) Q F s v := by
  unfold afterPage
  rw [Block.wp_bind, Block.wp_await]
  refine renewNow_lane h.ready h.idle ?_ ?_
  rotate_left
  · intro e w hw
    exact hF e s w (h.toLevel.aside hw).broken
  intro held w hw hguarded
  have hc := h.aside hw
  rw [Block.wp_ite]
  refine ⟨fun _ => ?_, fun _ => hF _ s w hc.toLevel.broken⟩
  rw [Block.wp_bind, Block.wp_locals, Block.wp_ite]
  refine ⟨fun hdone => hQ .leave s w ⟨hc, Or.inl hdone⟩, fun hdone => ?_⟩
  rw [Bool.not_eq_true] at hdone
  rw [Block.wp_bind, Block.wp_await]
  unfold aborted
  rw [Task.wp_bind, wp_call]
  refine ⟨trivial, ?_⟩
  intro reason
  have hread : Aside w (w.learn d (.signal c.run) reason) :=
    quiet_aside hc.ready hc.idle (o := .signal c.run) trivial reason
  rw [Task.wp_pure, Block.wp_ite]
  refine ⟨fun hab => ?_, fun _ => ?_⟩
  · refine hQ .leave s _ ⟨hc.aside hread, Or.inr ?_⟩
    change (w.aborted || (w.guarded && Option.isSome reason)) = true
    rw [hguarded, hab, Bool.true_and, Bool.or_true]
  have hnext := hc.aside hread
  rw [Block.wp_bind, Block.wp_await]
  refine quiet_keeps (pastDeadline_quiet c) hnext.ready hnext.idle ?_ ?_
  rotate_left
  · intro e w' hw'
    exact hF e s w' (hnext.toLevel.aside hw').broken
  intro past w' hw'
  have hlast := hnext.aside hw'
  have hcut : Q .leaveOuter (truncate_ s) w' := hQ _ _ _ (hlast.toLevel.truncate hdone)
  rw [Block.wp_ite]
  refine ⟨fun _ => hcut, fun _ => ?_⟩
  rw [Block.wp_ite]
  exact ⟨fun _ => hcut, fun _ => hQ .next s w' ⟨hlast, hdone⟩⟩

theorem onPage_lane (h : Level d c o s v) {Q : PageEnd → CycleLocals → LaneView ι → Prop}
    (hQ : ∀ e s' w, Onward d c o rest (v.inCall + 1) s' w e → Q e s' w)
    (hF : ∀ e s' w, Broken d c o s' w → F e s' w) :
    Block.wp (laneContract d forced) (onPage c page) Q F s (v.take page rest) := by
  unfold onPage
  rw [Block.wp_bind]
  refine commitPage_lane h ?_ hF
  intro b s' w hcounted
  rw [Block.wp_ite]
  refine ⟨fun _ => ?_, fun _ => afterPage_lane hcounted hQ hF⟩
  rw [Block.wp_bind]
  refine drainPage_lane hcounted ?_ ?_ hF
  · intro s' w h
    exact afterPage_lane h hQ hF
  · intro s' w h
    exact hQ .leaveOuter s' w h

/-! ## The loop over the pages -/

/-- After a fetch call. -/
def Gathered (d : Deployment ι) (c : Cycle ι) (o : Origin) (s : CycleLocals) (v : LaneView ι) :
    FetchEnd → Prop
  | .pages n => Level d c o s v ∧ v.inCall = n ∧
      (s.done = true → v.ended = true ∨ v.reached = true) ∧
      (s.done = true ∨ v.code = some .finish ∨ (1 ≤ n ∧ v.aborted = true))
  | .outer => Ending d c o s v

theorem forAwait_lane (u : UserCode ι) (n : Nat) {s : CycleLocals} {v : LaneView ι}
    (h : Level d c o s v) (hcode : v.code = some u) (hcount : v.inCall = n) (hdone : s.done = false)
    {Q : FetchEnd → CycleLocals → LaneView ι → Prop}
    (hQ : ∀ e s' w, Gathered d c o s' w e → Q e s' w)
    (hF : ∀ e s' w, Broken d c o s' w → F e s' w) :
    Block.wp (laneContract d forced) (forAwait c u n) Q F s v := by
  induction u generalizing n s v with
  | finish =>
    refine hQ (.pages n) s v ⟨h, hcount, fun hd => ?_, Or.inr (Or.inl hcode)⟩
    rw [hdone] at hd
    cases hd
  | raise e => exact hF e s v h.broken
  | page page rest ih =>
    unfold forAwait
    rw [Block.wp_bind, Block.wp_await, wp_call]
    refine ⟨trivial, ?_⟩
    intro _
    rw [Block.wp_bind]
    refine onPage_lane h ?_ hF
    intro e s' w honward
    cases e with
    | next =>
      obtain ⟨hcounted, hd⟩ := honward
      exact ih (n + 1) hcounted.toLevel hcounted.code (by rw [hcounted.inCall, hcount]) hd
    | leave =>
      obtain ⟨hcounted, hleft⟩ := honward
      refine hQ (.pages (n + 1)) s' w
        ⟨hcounted.toLevel, by rw [hcounted.inCall, hcount], hcounted.done, ?_⟩
      rcases hleft with hd | hab
      · exact Or.inl hd
      · exact Or.inr (Or.inr ⟨by omega, hab⟩)
    | leaveOuter => exact hQ .outer s' w honward
  | request r k ih =>
    -- the fetch function goes on with whatever the request resolved to
    have hresume : ∀ res s' w, Remarked s s' → Aside v w →
        Block.wp (laneContract d forced) (do
          Block.await (call (.resume res))
          forAwait c (k res) n) Q F s' w := by
      intro res s' w hs hw
      have hl := (h.aside hw).remark hs
      rw [Block.wp_bind, Block.wp_await, wp_call]
      refine ⟨trivial, ?_⟩
      intro _
      have hwcode : w.code = some (.request r k) := by
        obtain ⟨⟨cl, g, a, rfl, -⟩, -⟩ := hw
        exact hcode
      have hwcount : w.inCall = n := by
        obtain ⟨⟨cl, g, a, rfl, -⟩, -⟩ := hw
        exact hcount
      have hsdone : s'.done = false := by
        obtain ⟨m, rl, rfl⟩ := hs
        exact hdone
      refine ih res n ?_ ?_ hwcount hsdone
      · exact { hl with ready := ⟨hl.ready.taken, hl.ready.schedule, hl.ready.peeked⟩, after := hl.after }
      · simp only [LaneView.learn, hwcode]
    unfold forAwait
    rw [Block.wp_bind, Block.wp_attempt]
    refine (request_within c r).wp_inv (I := Aside v) ?_ ?_ ?_ (Aside.refl v)
    · intro w op hw hop
      refine ⟨quiet_allowed w hop, ?_⟩
      intro a
      exact hw.trans (quiet_aside (hw.ready h.ready) (hw.halted.trans h.idle) hop a)
    · intro res s' w hs hw
      exact hresume (.ok res) s' w hs hw
    · intro e s' w hs hw
      exact hresume (.error e) s' w hs hw

theorem fetchPages_lane (h : Level d c o s v) (hdone : s.done = false)
    {Q : FetchEnd → CycleLocals → LaneView ι → Prop}
    (hQ : ∀ e s' w, Gathered d c o s' w e → Q e s' w)
    (hF : ∀ e s' w, Broken d c o s' w → F e s' w) :
    Block.wp (laneContract d forced) (fetchPages c) Q F s v := by
  unfold fetchPages
  rw [Block.wp_bind, Block.wp_locals, Block.wp_bind, Block.wp_await]
  refine quiet_keeps (fetchCursor_quiet c s) h.ready h.idle ?_ ?_
  rotate_left
  · intro e w hw
    exact hF e s w (h.aside hw).broken
  intro cursor w hw
  have hl := h.aside hw
  rw [Block.wp_bind, Block.wp_await, wp_call]
  refine ⟨⟨hl.lane, hl.opened.symm, fun hhalt => ?_, hl.ready.peeked⟩, ?_⟩
  · exact Bool.noConfusion (hl.idle.symm.trans hhalt.1)
  · intro u
    refine forAwait_lane u 0 ?_ rfl rfl hdone hQ hF
    exact { hl with ready := ⟨hl.ready.taken, hl.ready.schedule, hl.ready.peeked⟩, after := hl.after }

theorem scan_lane (fuel : Nat) {s : CycleLocals} {v : LaneView ι} (h : Level d c o s v)
    (hcomplete : s.done = true → v.Complete ∨ v.Cut)
    {Q : Unit → CycleLocals → LaneView ι → Prop} (hQ : ∀ s' w, Ending d c o s' w → Q () s' w)
    (hF : ∀ e s' w, Broken d c o s' w → F e s' w) :
    Block.wp (laneContract d forced) (scan c fuel) Q F s v := by
  induction fuel generalizing s v with
  | zero =>
    unfold scan
    rw [Block.wp_await, wp_diverge]
    trivial
  | succ fuel ih =>
    unfold scan
    rw [Block.wp_bind, Block.wp_locals, Block.wp_ite]
    refine ⟨fun _ => hQ s v (h.ending hcomplete), fun hdone => ?_⟩
    rw [Bool.not_eq_true] at hdone
    rw [Block.wp_bind, Block.wp_await]
    refine quiet_keeps (throwIfAborted_quiet c.run) h.ready h.idle ?_ ?_
    rotate_left
    · intro e w hw
      exact hF e s w (h.aside hw).broken
    intro _ w hw
    have hl := h.aside hw
    rw [Block.wp_bind, Block.wp_await]
    refine quiet_keeps (pastDeadline_quiet c) hl.ready hl.idle ?_ ?_
    rotate_left
    · intro e w' hw'
      exact hF e s w' (hl.aside hw').broken
    intro past w' hw'
    have hl := hl.aside hw'
    have hcut : Q () (truncate_ s) w' := hQ _ _ (hl.truncate hdone)
    rw [Block.wp_ite]
    refine ⟨fun _ => hcut, fun _ => ?_⟩
    rw [Block.wp_ite]
    refine ⟨fun _ => hcut, fun _ => ?_⟩
    rw [Block.wp_bind]
    refine fetchPages_lane hl hdone ?_ hF
    intro e s' w hgathered
    cases e with
    | outer => exact hQ s' w hgathered
    | pages count =>
      obtain ⟨hlevel, hcount, hended, hleft⟩ := hgathered
      have hstrategy : s'.done = true → w.Complete := by
        intro hd
        rcases hended hd with he | hr
        · exact Or.inl he
        · exact Or.inr (Or.inl hr)
      rw [Block.wp_bind, Block.wp_when]
      refine ⟨fun hne => ?_, fun _ => ?_⟩
      · rw [Block.wp_assign]
        refine ih (hlevel.vary rfl rfl rfl) ?_
        intro _
        rcases hleft with hd | hfinish | ⟨hpage, hab⟩
        · exact Or.inl (hstrategy hd)
        · exact Or.inl (Or.inr (Or.inr ⟨hfinish, by rw [hcount]; exact hne⟩))
        · exact Or.inr (Or.inr ⟨by omega, hab⟩)
      · exact ih hlevel fun hd => Or.inl (hstrategy hd)

end Page

end Watukuy
