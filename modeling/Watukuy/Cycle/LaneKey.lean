import Watukuy.Cycle.LaneEnding
import Watukuy.Cycle.RunKey

/-!
# An execution, as the lane contract sees it

`Between` is the agreement between the cycles of an execution. The lanes run one after the other; a
lane that failed stays due (`Owed`), and an execution that is cut short reports the state it began
with.
-/

set_option autoImplicit false

namespace Watukuy

open Library Task LaneView

variable {ι : Type} {d : Deployment ι} {forced : Prop} {v : LaneView ι}

/-! ## Due times move on -/

theorem isDue_mono {s : ScheduleState} {t u : Int} (h : isDue s t = true) (htu : t ≤ u) :
    isDue s u = true := by
  cases hn : s.nextDueAt <;> cases hh : s.throttledUntil <;> simp [isDue, hn, hh] at h ⊢ <;> omega

theorem reconcileDue_mono {poller : ResolvedPoller ι} {state : PollerState} {t u : Int}
    (h : reconcileDue poller state t = true) (htu : t ≤ u) : reconcileDue poller state u = true := by
  unfold reconcileDue at h ⊢
  cases he : poller.reconcileEveryMs with
  | none =>
    rw [he] at h
    cases h
  | some every =>
    rw [he] at h
    cases hl : state.lanes.reconcile.bind (·.lastRunAt) with
    | none => rfl
    | some last =>
      rw [hl] at h
      simp only [decide_eq_true_eq] at h ⊢
      omega

/-- The reconcile lane is due by its last run alone. -/
theorem reconcileDue_congr {poller : ResolvedPoller ι} {state state' : PollerState} {t : Int}
    (h : state'.lanes.progress.1 = state.lanes.progress.1) :
    reconcileDue poller state' t = reconcileDue poller state t := by
  have hlast : state'.lanes.reconcile.bind (·.lastRunAt) = state.lanes.reconcile.bind (·.lastRunAt) := h
  unfold reconcileDue
  rw [hlast]

theorem backfillActive_eq (state : PollerState) : backfillActive state = state.lanes.progress.2 := by
  unfold backfillActive Lanes.progress
  cases state.lanes.backfill <;> rfl

theorem beginProbe_closed {s : ScheduleState} (h : s.circuit ≠ .open) : beginProbe s = s := if_neg h

/-! ## A cycle -/

theorem LaneView.Stands.tick (h : v.Stands d) (t : Int) : (v.tick d t).Stands d := by
  rintro ⟨hhalt, hspoiled⟩
  obtain ⟨u, s, hu, hposted, hs, hschedule⟩ := h ⟨hhalt, hspoiled⟩
  have hhalt : v.halted = true := hhalt
  refine ⟨u, s, by simp [LaneView.tick, hhalt, hu], hposted, by simp [LaneView.tick, hs], hschedule⟩

theorem LaneView.Ready.tick (h : v.Ready) (t : Int) : (v.tick d t).Ready := by
  obtain ⟨s, hs⟩ := Option.isSome_iff_exists.1 h.schedule
  exact ⟨h.taken, by simp [LaneView.tick, hs], h.peeked⟩

theorem LaneView.Due.tick (h : v.Due) (t : Int) : (v.tick d t).Due := by
  obtain ⟨s, hs, hdue⟩ := h
  refine ⟨s, by simp [LaneView.tick, hs], ?_⟩
  intro u hu
  apply hdue
  intro w hw
  have hmax : w ≤ max t w := Int.le_max_right t w
  exact hmax.trans (hu _ (by simp [LaneView.tick, hw]))

/-- Between two cycles of an execution. -/
structure Between (d : Deployment ι) (deps : RunnerDeps ι) (state : PollerState) (v : LaneView ι) :
    Prop where
  deps : deps.In d
  lanes : v.lanes = state.lanes
  schedule : v.schedule = some state.schedule
  ready : v.Ready
  stands : v.Stands d

theorem Between.tick {deps : RunnerDeps ι} {state : PollerState} (h : Between d deps state v) (t : Int) :
    Between d deps state (v.tick d t) where
  deps := h.deps
  lanes := h.lanes
  schedule := by simp [LaneView.tick, h.schedule]
  ready := h.ready.tick t
  stands := h.stands.tick t

theorem Between.now {deps : RunnerDeps ι} {state : PollerState} (h : Between d deps state v)
    {Q : Int → LaneView ι → Prop} {E : JsError → LaneView ι → Prop}
    (hQ : ∀ t, Q t (v.tick d t)) : (now : Proc ι Int).wp (laneContract d forced) Q E v := by
  rw [wp_now]
  refine ⟨trivial, ?_⟩
  intro t
  have hread : v.read d t = v.tick d t := read_eq_tick d h.ready.taken t
  change Q t (v.read d t)
  rw [hread]
  exact hQ t

/-- The state a cycle of the lane starts with: an open circuit is probed by the live lane. -/
def probe (lane : Lane) (state : PollerState) : PollerState :=
  { state with schedule := if lane = .live then beginProbe state.schedule else state.schedule }

/-- What is known when the cycle begins. -/
def origin (state : PollerState) (time : Int) (v : LaneView ι) : Origin where
  progress := state.lanes.progress
  time := time
  failedAt := v.failedAt

theorem begin_schedule {deps : RunnerDeps ι} {state : PollerState} (h : Between d deps state v)
    (lane : Lane) : (v.begin d lane).schedule = some (probe lane state).schedule := by
  by_cases hlane : lane = .live <;> simp [LaneView.begin, probe, hlane, h.schedule]

theorem Between.sound {deps : RunnerDeps ι} {state : PollerState} (h : Between d deps state v) :
    v.Sound d := ⟨h.ready.peeked, h.stands⟩

/-- The cycle of a lane. -/
def cycleOf (deps : RunnerDeps ι) (lease : Lease) (run : Nat) (deadline : Option Int)
    (state : PollerState) (lane : Lane) (target : Option CursorVal) (startedAt : Int) : Cycle ι where
  deps := deps
  lease := lease
  run := run
  deadline := deadline
  lane := lane
  start := (state.lanes.get lane).getD { cursor := none }
  target := target
  startedAt := startedAt

/-- The first page loop of a cycle starts level. -/
theorem Between.level {deps : RunnerDeps ι} {lease : Lease} {run : Nat} {deadline : Option Int}
    {state : PollerState} {lane : Lane} {target : Option CursorVal} {startedAt time : Int}
    {cursor : CursorVal} {w : LaneView ι} (h : Between d deps state w) (hafter : w.After time)
    (hactive : lane = .backfill → backfillActive state = true)
    (hcursor : startCursor (cycleOf deps lease run deadline state lane target startedAt) = .ok cursor)
    (htarget : startTarget (cycleOf deps lease run deadline state lane target startedAt) = .ok target) :
    Level d (cycleOf deps lease run deadline state lane target startedAt) (origin state time w)
      (.init lane (probe lane state) cursor startedAt) (w.begin d lane) := by
  have hschedule := begin_schedule h lane
  refine
    { deps := h.deps
      fits := ⟨?_, ?_⟩
      target := htarget
      lane := rfl
      start := ?_
      lanes := h.lanes
      progress := rfl
      ready := ⟨rfl, by rw [hschedule]; rfl, h.ready.peeked⟩
      after := hafter
      failedAt := rfl
      schedule := hschedule
      opened := rfl
      cursor := ?_
      sweeping := rfl
      idle := rfl
      halted := rfl }
  · rintro rfl
    change (state.lanes.reconcile.getD { cursor := none }).lastRunAt = _
    cases hr : state.lanes.reconcile <;> simp [origin, Lanes.progress, hr]
  · rintro rfl
    rw [← hactive rfl, backfillActive_eq]
    rfl
  · simp only [LaneView.begin, h.lanes, cycleOf]
  · change (d.startCursor lane ((w.lanes.get lane).getD { cursor := none })).toOption = some cursor
    rw [startCursor_eq h.deps] at hcursor
    simp only [cycleOf] at hcursor
    rw [h.lanes, hcursor]
    rfl

theorem runCycle_lane {deps : RunnerDeps ι} {lease : Lease} {run : Nat} {deadline : Option Int}
    {state : PollerState} {lane : Lane} (h : Between d deps state v) {time : Int}
    (hafter : v.After time) (hdue : lane = .live → forced ∨ v.Due)
    (hactive : lane = .backfill → backfillActive state = true)
    {Q : CycleResult → LaneView ι → Prop} {E : JsError → LaneView ι → Prop}
    (hQ : ∀ c r w, c.lane = lane → r.aborted = false →
      Concluded d c (origin state time v) r w → Q r w)
    (hcut : ∀ r w, r.aborted = true → w.Sound d → Q r w) (hE : ∀ e w, w.Sound d → E e w) :
    (runCycle deps lease run deadline (probe lane state) lane).wp (laneContract d forced) Q E v := by
  unfold runCycle
  rw [Task.wp_bind]
  refine h.now ?_
  intro startedAt
  have hb := h.tick startedAt
  rw [Task.wp_bind, wp_call]
  refine ⟨⟨hb.ready.peeked, fun hlane => (hdue hlane).imp_right fun hd => hd.tick startedAt⟩, ?_⟩
  intro _
  have hidle : ((v.tick d startedAt).begin d lane).halted = false := rfl
  have hsound : ((v.tick d startedAt).begin d lane).Sound d := ⟨hb.ready.peeked, stands_idle hidle⟩
  rw [Task.wp_bind, wp_ofExcept]
  refine ⟨?_, fun e _ => hE e _ hsound⟩
  intro cursor hcursor
  rw [Task.wp_bind, wp_ofExcept]
  refine ⟨?_, fun e _ => hE e _ hsound⟩
  intro target htarget
  dsimp only
  rw [Block.wp_run, Block.wp_tryCatch]
  have hlevel : Level d (cycleOf deps lease run deadline state lane target startedAt)
      (origin state time v) (.init lane (probe lane state) cursor startedAt)
      ((v.tick d startedAt).begin d lane) :=
    hb.level (hafter.tick d startedAt) hactive hcursor htarget
  have herror : ∀ e s' w, Broken d (cycleOf deps lease run deadline state lane target startedAt)
      (origin state time v) s' w →
      Block.wp (laneContract d forced)
        (onCycleError (cycleOf deps lease run deadline state lane target startedAt) e)
        (fun r _ => Q r) (fun e _ => E e) s' w := by
    intro e s' w hw
    refine onCycleError_lane hw e ?_ ?_ ?_
    · intro r s'' w' ha hr
      exact hQ _ r w' rfl ha hr
    · intro r s'' w' ha hr
      exact hcut r w' ha hr
    · intro e' s'' w' hr
      exact hE e' w' hr
  unfold cycleBody
  rw [Block.wp_bind]
  refine scan_lane _ hlevel ?_ ?_ herror
  · intro hd
    cases hd
  intro s' w hend
  rw [Block.wp_bind]
  refine deletePhase_lane hend ?_ herror
  intro s' w hend
  refine finishCycle_lane hend ?_ herror
  intro r s' w ha hr
  exact hQ _ r w rfl ha hr

/-! ## The lanes, one after the other -/

/-- A lane that failed at `v.failedAt` is still due then. -/
def Owed (d : Deployment ι) (state : PollerState) (v : LaneView ι) : Prop :=
  ∀ t, v.failedAt = some t →
    reconcileDue d.poller state t = true ∨ backfillActive state = true

theorem owed_none {state : PollerState} (h : v.failedAt = none) : Owed d state v := by
  intro t ht
  rw [h] at ht
  cases ht

section Key

variable {h : Held ι} {s : KeyLocals} {pre : PollerState} {F : JsError → KeyLocals → LaneView ι → Prop}

/-- The lanes have not ended: the state to report is still the one loaded first. -/
structure Opened (pre : PollerState) (out : RunKeyResult) : Prop where
  state : out.state = some pre
  reason : out.reason = none
  leaseLost : out.leaseLost = false

theorem Opened.retry {out : RunKeyResult} (h : Opened pre out) (r : Option DrainResult) :
    Opened pre (noteRetry out r) := by
  unfold noteRetry
  split
  · exact h
  · exact ⟨h.state, h.reason, h.leaseLost⟩

/-- The execution was cut short: it lost its lease, or a cycle was aborted. -/
def Short (out : RunKeyResult) : Prop := out.leaseLost = true ∨ out.reason = some .aborted

/-- What an execution that ended reports: the state it left, or, cut short, the one it began with. -/
inductive Reported (d : Deployment ι) (pre : PollerState) (v : LaneView ι) (out : RunKeyResult) :
    Prop where
  | left (state : PollerState) (h : out.state = some state) (owed : Owed d state v)
    (ran : out.reason = none ∧ out.leaseLost = false ∨ v.failedAt = none)
  | cut (h : out.state = some pre) (short : Short out)
    (reason : out.reason = none ∨ out.reason = some .aborted)

/-- After the cycle of a lane, unless it was aborted. -/
structure Passed (d : Deployment ι) (h : Held ι) (pre : PollerState) (lane : Lane)
    (o : Origin) (s : KeyLocals) (v : LaneView ι) : Prop extends Between d h.deps s.state v where
  out : Opened pre s.out
  after : v.After o.time
  outcome :
    (v.failedAt = o.failedAt ∧ (lane ≠ .reconcile → s.state.lanes.progress.1 = o.progress.1)) ∨
      (lane ≠ .live ∧ v.failedAt = v.clock ∧ s.state.lanes.progress = o.progress)

theorem runLane_lane {lane : Lane} {state : PollerState} {time : Int} (hb : Between d h.deps state v)
    (hstate : s.state = probe lane state) (hout : Opened pre s.out) (hafter : v.After time)
    (hdue : lane = .live → forced ∨ v.Due)
    (hactive : lane = .backfill → backfillActive state = true)
    {Q : Bool → KeyLocals → LaneView ι → Prop}
    (hQ : ∀ s' w, Passed d h pre lane (origin state time v) s' w → Q false s' w)
    (hcut : ∀ s' w, w.Sound d → Reported d pre w s'.out → Q true s' w)
    (hF : ∀ e s' w, w.Sound d → Opened pre s'.out → F e s' w) :
    Block.wp (laneContract d forced) (runLane h lane) Q F s v := by
  unfold runLane
  rw [Block.wp_bind, Block.wp_locals, Block.wp_bind, Block.wp_await, hstate]
  have hopened : ∀ results r, Opened pre (noteRetry { s.out with results } r) := by
    intro results r
    have hnoted : Opened pre { s.out with results } := ⟨hout.state, hout.reason, hout.leaseLost⟩
    exact hnoted.retry r
  refine runCycle_lane hb hafter hdue hactive ?_ ?_ ?_
  · intro c r w hlane ha hr
    rw [Block.wp_bind, Block.wp_assign, Block.wp_bind, Block.wp_when]
    refine ⟨fun hab => ?_, fun _ => ?_⟩
    · rw [ha] at hab
      cases hab
    rw [Block.wp_pure, ha]
    refine hQ _ w
      { deps := hb.deps
        lanes := hr.lanes
        schedule := hr.schedule
        ready := hr.ready
        stands := hr.stands
        out := ?_
        after := hr.after
        outcome := ?_ }
    · exact hopened _ _
    · rw [← hlane]
      exact hr.outcome
  · intro r w ha hsound
    rw [Block.wp_bind, Block.wp_assign, Block.wp_bind, Block.wp_when]
    refine ⟨fun _ => ?_, fun hab => absurd ha hab⟩
    rw [Block.wp_assign, Block.wp_pure, ha]
    exact hcut _ w hsound (.cut (hopened _ _).state (Or.inr rfl) (Or.inr rfl))
  · intro e w hsound
    exact hF e s w hsound hout

theorem liveLane_lane {halted : Bool} (hb : Between d h.deps s.state v)
    (hforced : h.opts.force = true → forced) (hout : Opened pre s.out) (hfailed : v.failedAt = none)
    {Q : Bool → KeyLocals → LaneView ι → Prop}
    (hQ : ∀ s' w, Between d h.deps s'.state w → Opened pre s'.out → w.failedAt = none →
      Q false s' w)
    (hcut : ∀ s' w, w.Sound d → Reported d pre w s'.out → Q true s' w)
    (hF : ∀ e s' w, w.Sound d → Opened pre s'.out → F e s' w) :
    Block.wp (laneContract d forced) (liveLane h halted) Q F s v := by
  unfold liveLane
  rw [Block.wp_bind, Block.wp_await]
  refine hb.now ?_
  intro at_
  have hb' := hb.tick at_
  have hafter := tick_after d v at_
  rw [Block.wp_bind, Block.wp_locals, Block.wp_ite]
  refine ⟨fun hcond => ?_, fun _ => hQ s _ hb' hout hfailed⟩
  simp only [Bool.and_eq_true, Bool.or_eq_true] at hcond
  have hdue : Lane.live = .live → forced ∨ (v.tick d at_).Due := by
    intro _
    refine hcond.2.imp hforced ?_
    intro hd
    refine ⟨s.state.schedule, hb'.schedule, ?_⟩
    intro t ht
    exact isDue_mono hd (hafter.past ht)
  have hpassed : ∀ s' w, Passed d h pre .live (origin s.state at_ (v.tick d at_)) s' w → Q false s' w := by
    intro s' w hp
    refine hQ s' w hp.toBetween hp.out ?_
    rcases hp.outcome with ⟨hsame, -⟩ | ⟨hne, -⟩
    · exact hsame.trans hfailed
    · exact absurd rfl hne
  have hlive : Lane.live = .backfill → backfillActive s.state = true := by
    intro hne
    cases hne
  rw [Block.wp_bind, Block.wp_when]
  refine ⟨fun _ => ?_, fun hclosed => ?_⟩
  · rw [Block.wp_assign]
    have hprobe : probe .live s.state =
        { s.state with schedule := beginProbe s.state.schedule } := by simp [probe]
    refine runLane_lane hb' ?_ ?_ hafter hdue hlive hpassed hcut hF
    · exact hprobe.symm
    · exact hout
  · have hprobe : s.state = probe .live s.state := by simp [probe, beginProbe_closed hclosed]
    exact runLane_lane hb' hprobe hout hafter hdue hlive hpassed hcut hF

theorem aborted_lane (hb : Between d h.deps s.state v) {run : Nat} {Q : Bool → LaneView ι → Prop}
    {E : JsError → LaneView ι → Prop}
    (hQ : ∀ b w, Between d h.deps s.state w → w.failedAt = v.failedAt →
      (∀ t, v.After t → w.After t) → Q b w) :
    (aborted run).wp (laneContract d forced) Q E v := by
  unfold aborted
  rw [Task.wp_bind, wp_call]
  refine ⟨trivial, ?_⟩
  intro reason
  exact hQ _ _
    { hb with ready := ⟨hb.ready.taken, hb.ready.schedule, hb.ready.peeked⟩, stands := hb.stands } rfl
    fun _ ht => ht

/-- The reconcile lane, when it failed, stays due by its last run. -/
def Late (d : Deployment ι) (state : PollerState) (v : LaneView ι) : Prop :=
  ∀ t, v.failedAt = some t → reconcileDue d.poller state t = true

theorem reconcileLane_lane {halted : Bool} (hb : Between d h.deps s.state v)
    (hout : Opened pre s.out) (hfailed : v.failedAt = none)
    {Q : Bool → KeyLocals → LaneView ι → Prop}
    (hQ : ∀ s' w, Between d h.deps s'.state w → Opened pre s'.out → Late d s'.state w →
      (∃ t, w.After t) → Q false s' w)
    (hcut : ∀ s' w, w.Sound d → Reported d pre w s'.out → Q true s' w)
    (hF : ∀ e s' w, w.Sound d → Opened pre s'.out → F e s' w) :
    Block.wp (laneContract d forced) (reconcileLane h halted) Q F s v := by
  have hlate : ∀ w : LaneView ι, w.failedAt = none → Late d s.state w := by
    intro w hnone t ht
    rw [hnone] at ht
    cases ht
  unfold reconcileLane
  rw [Block.wp_bind, Block.wp_await]
  refine hb.now ?_
  intro at_
  have hb' := hb.tick at_
  have hafter := tick_after d v at_
  have hnone : (v.tick d at_).failedAt = none := hfailed
  rw [Block.wp_bind, Block.wp_locals, Block.wp_ite]
  refine ⟨fun hcond => ?_, fun _ => hQ s _ hb' hout (hlate _ hnone) ⟨at_, hafter⟩⟩
  simp only [Bool.and_eq_true] at hcond
  have hdue := hcond.2
  rw [hb.deps.poller] at hdue
  rw [Block.wp_bind, Block.wp_await]
  refine aborted_lane hb' ?_
  intro b w hbw hsame hkept
  rw [Block.wp_ite]
  refine ⟨fun _ => hQ s w hbw hout (hlate w (hsame.trans hnone)) ⟨at_, hkept at_ hafter⟩, fun _ => ?_⟩
  have hprobe : s.state = probe .reconcile s.state := rfl
  refine runLane_lane hbw hprobe hout (hkept at_ hafter) ?_ ?_ ?_ hcut hF
  · intro hne
    cases hne
  · intro hne
    cases hne
  intro s' w' hp
  refine hQ s' w' hp.toBetween hp.out ?_ ⟨at_, hp.after⟩
  intro t ht
  rcases hp.outcome with ⟨hnone', -⟩ | ⟨-, hclock, hprogress⟩
  · rw [hnone', show (origin s.state at_ w).failedAt = none from hsame.trans hnone] at ht
    cases ht
  · -- the lane failed at `t`, after it was found due
    obtain ⟨u, hu, hat⟩ := hp.after
    have htu : u = t := by
      rw [hclock, hu] at ht
      exact Option.some.inj ht
    rw [reconcileDue_congr (congrArg Prod.fst hprogress)]
    exact reconcileDue_mono hdue (hat.trans htu.le)

theorem backfillLane_lane {halted : Bool} (hb : Between d h.deps s.state v)
    (hout : Opened pre s.out) (hlate : Late d s.state v) (hclock : ∃ t, v.After t)
    {Q : Bool → KeyLocals → LaneView ι → Prop}
    (hQ : ∀ s' w, Between d h.deps s'.state w → s'.out.reason = none ∧ s'.out.leaseLost = false → Owed d s'.state w → Q false s' w)
    (hcut : ∀ s' w, w.Sound d → Reported d pre w s'.out → Q true s' w)
    (hF : ∀ e s' w, w.Sound d → Opened pre s'.out → F e s' w) :
    Block.wp (laneContract d forced) (backfillLane h halted) Q F s v := by
  unfold backfillLane
  rw [Block.wp_bind, Block.wp_locals, Block.wp_ite]
  refine ⟨fun hcond => ?_, fun _ => hQ s v hb ⟨hout.reason, hout.leaseLost⟩ fun t ht => Or.inl (hlate t ht)⟩
  simp only [Bool.and_eq_true] at hcond
  rw [Block.wp_bind, Block.wp_await]
  refine aborted_lane hb ?_
  intro b w hbw hsame hkept
  obtain ⟨time, htime⟩ := hclock
  have hlate' : Late d s.state w := fun t ht => hlate t (hsame ▸ ht)
  rw [Block.wp_ite]
  refine ⟨fun _ => hQ s w hbw ⟨hout.reason, hout.leaseLost⟩ fun t ht => Or.inl (hlate' t ht), fun _ => ?_⟩
  have hprobe : s.state = probe .backfill s.state := rfl
  refine runLane_lane hbw hprobe hout (hkept time htime) ?_ (fun _ => hcond.2) ?_ hcut hF
  · intro hne
    cases hne
  intro s' w' hp
  refine hQ s' w' hp.toBetween ⟨hp.out.reason, hp.out.leaseLost⟩ ?_
  intro t ht
  rcases hp.outcome with ⟨hfailed, hprogress⟩ | ⟨-, -, hprogress⟩
  · left
    rw [reconcileDue_congr (hprogress (by simp))]
    exact hlate' t (hfailed.symm.trans ht)
  · right
    rw [backfillActive_eq, hprogress, ← hcond.2, backfillActive_eq]
    rfl

theorem runLanes_lane {halted : Bool} (hb : Between d h.deps s.state v)
    (hforced : h.opts.force = true → forced) (hout : Opened pre s.out) (hfailed : v.failedAt = none)
    {Q : Unit → KeyLocals → LaneView ι → Prop}
    (hQ : ∀ s' w, w.Sound d → Reported d pre w s'.out → Q () s' w)
    (hF : ∀ e s' w, w.Sound d → Opened pre s'.out → F e s' w) :
    Block.wp (laneContract d forced) (runLanes h halted) Q F s v := by
  unfold runLanes
  rw [Block.wp_bind]
  refine liveLane_lane hb hforced hout hfailed ?_ ?_ hF
  rotate_left
  · intro s' w hsound hr
    exact hQ s' w hsound hr
  intro s₁ w₁ hb₁ hout₁ hfailed₁
  rw [Block.wp_ite]
  refine ⟨(fun hne => nomatch hne), fun _ => ?_⟩
  rw [Block.wp_bind]
  refine reconcileLane_lane hb₁ hout₁ hfailed₁ ?_ ?_ hF
  rotate_left
  · intro s' w hsound hr
    exact hQ s' w hsound hr
  intro s₂ w₂ hb₂ hout₂ hlate₂ hclock₂
  rw [Block.wp_ite]
  refine ⟨(fun hne => nomatch hne), fun _ => ?_⟩
  rw [Block.wp_bind]
  refine backfillLane_lane hb₂ hout₂ hlate₂ hclock₂ ?_ ?_ hF
  rotate_left
  · intro s' w hsound hr
    exact hQ s' w hsound hr
  intro s₃ w₃ hb₃ hreason howed
  rw [Block.wp_ite]
  refine ⟨(fun hne => nomatch hne), fun _ => ?_⟩
  rw [Block.wp_assign]
  exact hQ _ w₃ hb₃.sound (.left _ rfl howed (Or.inl hreason))

/-! ## The drain before the lanes -/

/-- No cycle has begun, and no drain has halted. -/
structure Unbegun (v : LaneView ι) : Prop where
  taken : v.taken = none
  peeked : v.peeked = true
  halted : v.halted = false
  sweeping : v.sweeping = false
  failedAt : v.failedAt = none

theorem Unbegun.tick (hv : Unbegun v) (t : Int) : Unbegun (v.read d t) := by
  rw [read_eq_tick d hv.taken t]
  exact { hv with }

theorem Unbegun.fail (hv : Unbegun v) : Unbegun v.fail := { hv with peeked := rfl }

theorem Unbegun.sound (hv : Unbegun v) : v.Sound d := ⟨hv.peeked, stands_idle hv.halted⟩

theorem drainBefore_lane (hb : Between d h.deps s.state v) (hv : Unbegun v) (hout : Opened pre s.out)
    {Q : Bool → KeyLocals → LaneView ι → Prop}
    (hQ : ∀ b s' w, Between d h.deps s'.state w → Opened pre s'.out → w.failedAt = none → Q b s' w)
    (hF : ∀ e s' w, w.Sound d → Opened pre s'.out → F e s' w) :
    Block.wp (laneContract d forced) (drainBefore h) Q F s v := by
  unfold drainBefore
  rw [Block.wp_bind, Block.wp_await]
  refine drainOutbox_lane hb.ready hv.halted ?_ ?_
  rotate_left
  · rintro e _ ⟨dr, g, a, hh, ht, po, sp, rfl, hcalm, -⟩
    refine hF e s _ ⟨rfl, ?_⟩ hout
    rintro ⟨hhalt, hspoiled⟩
    rw [show sp = true from hcalm hhalt] at hspoiled
    cases hspoiled
  rintro r _ ⟨dr, g, a, hh, ht, po, sp, rfl, hnone, hkept, -, -⟩
  obtain ⟨rfl, rfl⟩ := hkept hv.sweeping
  have hnote : Opened pre { noteRetry s.out (some r) with drainedBefore := r.delivered } :=
    ⟨(hout.retry _).state, (hout.retry _).reason, (hout.retry _).leaseLost⟩
  have hready : ∀ schedule, schedule.isSome → LaneView.Ready
      { v with
        drain := dr, guarded := g, aborted := a, peeked := true, halted := r.halted, haltedAt := ht,
        posted := po, schedule } := fun schedule hs => ⟨hb.ready.taken, hs, rfl⟩
  rw [Block.wp_bind, Block.wp_assign, Block.wp_bind, Block.wp_when]
  refine ⟨fun hr => ?_, fun hr => ?_⟩
  · rw [Block.wp_bind, Block.wp_locals, Block.wp_bind, Block.wp_await]
    refine openCircuitForHalt_lane hb.deps (hready _ hb.ready.schedule) hr (hnone hr) ?_ ?_
    · intro at_ schedule hschedule
      rw [Block.wp_assign]
      refine hQ _ _ _
        { deps := hb.deps
          lanes := hb.lanes
          schedule := rfl
          ready := ⟨hb.ready.taken, rfl, rfl⟩
          stands := fun _ => ⟨at_, schedule, rfl, rfl, rfl, hschedule⟩ } hnote hv.failedAt
    · intro e at_ schedule
      refine hF e _ _ ⟨rfl, ?_⟩ hnote
      rintro ⟨-, hspoiled⟩
      rw [show (v.spoiled || r.halted) = true by rw [hr, Bool.or_true]] at hspoiled
      cases hspoiled
  · rw [Bool.not_eq_true] at hr
    exact hQ _ _ _
      { deps := hb.deps
        lanes := hb.lanes
        schedule := hb.schedule
        ready := hready _ hb.ready.schedule
        stands := stands_idle hr } hnote hv.failedAt

/-! ## The lease -/

theorem underLease_lane (hdeps : h.deps.In d) (hv : Unbegun v) (hforced : h.opts.force = true → forced)
    (hout : Opened pre s.out) {Q : Unit → KeyLocals → LaneView ι → Prop}
    (hQ : ∀ s' w, w.Sound d → Reported d pre w s'.out → Q () s' w)
    (hF : ∀ e s' w, w.Sound d → Opened pre s'.out → F e s' w) :
    Block.wp (laneContract d forced) (underLease h) Q F s v := by
  unfold underLease
  rw [Block.wp_bind, Block.wp_await, wp_store]
  refine ⟨trivial, ?_, fun e => hF e s _ hv.fail.sound hout⟩
  intro loaded
  have hloaded : Unbegun (v.learnStore .loadState (.ok loaded)) := { hv with }
  rw [Block.wp_bind, Block.wp_await, wp_now]
  refine ⟨trivial, ?_⟩
  intro at_
  have hread : (v.learnStore .loadState (.ok loaded)).read d at_ =
      (v.learnStore .loadState (.ok loaded)).tick d at_ := read_eq_tick d hloaded.taken at_
  have hb : Between d h.deps (loaded.getD (emptyState at_ h.deps.poller))
      ((v.learnStore .loadState (.ok loaded)).tick d at_) := by
    refine
      { deps := hdeps
        lanes := ?_
        schedule := ?_
        ready := ⟨hloaded.taken, ?_, hloaded.peeked⟩
        stands := stands_idle hloaded.halted }
    · cases loaded <;> rfl
    · cases loaded with
      | none => simp [LaneView.tick, LaneView.learnStore, emptyState, hdeps.poller]
      | some state => rfl
    · cases loaded <;> rfl
  have hunbegun := hloaded.tick (d := d) at_
  rw [hread] at hunbegun
  rw [Block.wp_bind, Block.wp_assign, Block.wp_bind, Block.wp_locals]
  rw [show (laneContract d forced).learn
    ((laneContract d forced).learn v (.store .loadState) (.ok loaded)) .now at_ = _ from hread,
    Block.wp_ite]
  refine ⟨fun _ => ?_, fun _ => ?_⟩
  · rw [Block.wp_assign]
    exact hQ _ _ hb.sound (.left pre hout.state (owed_none hunbegun.failedAt) (Or.inr hunbegun.failedAt))
  rw [Block.wp_bind, Block.wp_assign, Block.wp_bind]
  refine drainBefore_lane ?_ hunbegun ?_ ?_ hF
  · exact hb
  · exact ⟨hout.state, hout.reason, hout.leaseLost⟩
  intro b s' w hb' hout' hfailed
  exact runLanes_lane hb' hforced hout' hfailed hQ hF

theorem Reported.congr {w : LaneView ι} {out : RunKeyResult} (hr : Reported d pre v out)
    (hw : w.failedAt = v.failedAt) : Reported d pre w out := by
  cases hr with
  | left state hstate howed ran =>
    exact .left state hstate (fun t ht => howed t (hw.symm.trans ht)) (ran.imp_right hw.trans)
  | cut hstate short reason => exact .cut hstate short reason

theorem release_lane (hv : v.Sound d) {Q : Unit → LaneView ι → Prop} {E : JsError → LaneView ι → Prop}
    (hQ : ∀ w, w.failedAt = v.failedAt → Q () w) :
    (release h).wp (laneContract d forced) Q E v := by
  unfold release
  rw [Task.wp_bind, wp_call]
  refine ⟨trivial, ?_⟩
  intro _
  rw [Task.wp_bind, wp_attempt, wp_store]
  exact ⟨⟨hv.peeked, hv.stands⟩, fun _ => hQ _ rfl, fun _ => hQ _ rfl⟩

theorem runHeld_lane {deps : RunnerDeps ι} (hdeps : deps.In d) {opts : RunKeyOptions}
    (hforced : opts.force = true → forced) {lease : Lease} (hv : Unbegun v)
    {Q : RunKeyResult → LaneView ι → Prop} {E : JsError → LaneView ι → Prop}
    (hQ : ∀ r w, Reported d pre w r → Q r w) (hE : ∀ e w, E e w) :
    (runHeld deps opts pre lease).wp (laneContract d forced) Q E v := by
  unfold runHeld
  rw [Task.wp_bind, wp_call]
  refine ⟨trivial, ?_⟩
  intro run
  dsimp only
  rw [Task.wp_bind, wp_call]
  refine ⟨trivial, ?_⟩
  intro _
  have hrun : Unbegun ((laneContract d forced).learn v .newRun run) := hv
  rw [wp_finallyDo, Block.wp_run, Block.wp_bind, Block.wp_tryCatch]
  refine underLease_lane hdeps hrun hforced ⟨rfl, rfl, rfl⟩ ?_ ?_
  · intro s w hsound hr
    rw [Block.wp_bind, Block.wp_locals, Block.wp_pure]
    refine release_lane hsound ?_
    intro w' hw'
    exact hQ _ w' (hr.congr hw')
  · intro e s w hsound hstate
    unfold onKeyError
    rw [Block.wp_bind, Block.wp_await, wp_call]
    refine ⟨trivial, ?_⟩
    intro lost
    rw [Block.wp_ite]
    refine ⟨fun _ => ?_, fun _ => ?_⟩
    · rw [Block.wp_assign, Block.wp_bind, Block.wp_locals, Block.wp_pure]
      refine release_lane hsound ?_
      intro w' _
      exact hQ _ w' (.cut hstate.state (Or.inl rfl) (Or.inl hstate.reason))
    · rw [Block.wp_throw]
      exact release_lane hsound fun w' _ => hE e w'

theorem runLeased_lane {deps : RunnerDeps ι} (hdeps : deps.In d) {opts : RunKeyOptions}
    (hforced : opts.force = true → forced) (hv : Unbegun v)
    {Q : RunKeyResult → LaneView ι → Prop} {E : JsError → LaneView ι → Prop}
    (hQ : ∀ r w, Reported d pre w r → Q r w) (hE : ∀ e w, E e w) :
    (runLeased deps opts pre).wp (laneContract d forced) Q E v := by
  unfold runLeased
  rw [Task.wp_bind, wp_now]
  refine ⟨trivial, ?_⟩
  intro at_
  have hread := hv.tick (d := d) at_
  rw [Task.wp_bind, wp_store]
  refine ⟨trivial, ?_, fun e => hE e _⟩
  intro got
  cases got with
  | none => exact hQ _ _ (.left pre rfl (owed_none hread.failedAt) (Or.inr hread.failedAt))
  | some lease => exact runHeld_lane hdeps hforced hread hQ hE

end Key

end Watukuy
