import Watukuy.Cycle.LaneView

/-!
# Calls that leave the lanes alone

Most calls of a cycle only let time pass (`QuietCall`, `Aside`). A drain changes what the view knows
of drains, and nothing else: `Drained` is the view after it, `Drowned` after a drain that rejected.
-/

set_option autoImplicit false

namespace Watukuy

open Library Task

variable {ι : Type} {d : Deployment ι} {forced : Prop}

/-! ## Calls that let time pass -/

namespace LaneView

/-- The clock has read `t` or a later time. -/
def After (v : LaneView ι) (t : Int) : Prop := ∃ u, v.clock = some u ∧ t ≤ u

theorem After.past {v : LaneView ι} {t u : Int} (h : v.After t) (hu : v.Past u) : t ≤ u := by
  obtain ⟨s, hs, hts⟩ := h
  exact hts.trans (hu s hs)

theorem After.mono {v : LaneView ι} {t u : Int} (h : v.After t) (hu : u ≤ t) : v.After u := by
  obtain ⟨s, hs, hts⟩ := h
  exact ⟨s, hs, hu.trans hts⟩

theorem tick_after (d : Deployment ι) (v : LaneView ι) (t : Int) : (v.tick d t).After t := by
  cases hc : v.clock with
  | none => exact ⟨t, by simp [tick, hc], Int.le_refl t⟩
  | some u => exact ⟨max t u, by simp [tick, hc], Int.le_max_left t u⟩

theorem After.tick {v : LaneView ι} {u : Int} (h : v.After u) (d : Deployment ι) (t : Int) :
    (v.tick d t).After u := by
  obtain ⟨s, hs, hus⟩ := h
  refine ⟨max t s, by simp [LaneView.tick, hs], ?_⟩
  omega

/-- No page waits to be counted, the state is loaded, and no round waits to be looked at. -/
structure Ready (v : LaneView ι) : Prop where
  taken : v.taken = none
  schedule : v.schedule.isSome
  peeked : v.peeked = true

/-- Only the clock and the readings of the keeper and the signal have changed. -/
structure Aside (v w : LaneView ι) : Prop where
  view : ∃ clock guarded aborted, w = { v with clock, guarded, aborted } ∧
    (v.aborted = true → aborted = true)
  later : ∀ t, v.After t → w.After t

theorem Aside.refl (v : LaneView ι) : Aside v v :=
  ⟨⟨v.clock, v.guarded, v.aborted, rfl, fun h => h⟩, fun _ h => h⟩

theorem Aside.trans {u v w : LaneView ι} (h : Aside u v) (h' : Aside v w) : Aside u w := by
  obtain ⟨⟨c, g, a, rfl, ha⟩, hl⟩ := h
  obtain ⟨⟨c', g', a', rfl, ha'⟩, hl'⟩ := h'
  exact ⟨⟨c', g', a', rfl, fun hab => ha' (ha hab)⟩, fun t ht => hl' t (hl t ht)⟩

theorem Aside.ready {v w : LaneView ι} (h : Aside v w) (hv : v.Ready) : w.Ready := by
  obtain ⟨⟨c, g, a, rfl, -⟩, -⟩ := h
  exact ⟨hv.taken, hv.schedule, hv.peeked⟩

theorem Aside.halted {v w : LaneView ι} (h : Aside v w) : w.halted = v.halted := by
  obtain ⟨⟨c, g, a, rfl, -⟩, -⟩ := h
  rfl

/-- Without a page to count, a reading of the clock is a tick. -/
theorem read_eq_tick (d : Deployment ι) {v : LaneView ι} (h : v.taken = none) (t : Int) :
    v.read d t = v.tick d t := by
  simp [read, h]

theorem tick_eq (d : Deployment ι) {v : LaneView ι} (hs : v.schedule.isSome)
    (hh : v.halted = true → v.haltedAt.isSome) (t : Int) :
    v.tick d t = { v with clock := some (v.clock.elim t (max t)) } := by
  obtain ⟨s, hs⟩ := Option.isSome_iff_exists.1 hs
  cases hhalt : v.halted with
  | false => simp [tick, hs, hhalt]
  | true =>
    obtain ⟨u, hu⟩ := Option.isSome_iff_exists.1 (hh hhalt)
    simp [tick, hs, hhalt, hu]

theorem tick_aside (d : Deployment ι) {v : LaneView ι} (hs : v.schedule.isSome)
    (hh : v.halted = true → v.haltedAt.isSome) (t : Int) : Aside v (v.tick d t) := by
  refine ⟨⟨_, v.guarded, v.aborted, tick_eq d hs hh t, fun h => h⟩, ?_⟩
  intro u hu
  exact hu.tick d t

/-- A failed store call changes nothing while no drain halted. -/
theorem fail_eq {v : LaneView ι} (hp : v.peeked = true) (hh : v.halted = false) : v.fail = v := by
  cases v
  simp only at hp hh
  subst hp hh
  simp [fail]

end LaneView

open LaneView

/-- The store calls that let time pass. -/
def QuietStoreCall : StoreOp ι → Prop
  | .loadVersions _ => True
  | .getValidator _ => True
  | .setValidator _ _ _ => True
  | .renewLease _ _ _ => True
  | .countPending => True
  | _ => False

/-- The calls that let time pass. -/
def QuietCall : Op ι → Prop
  | .store o => QuietStoreCall o
  | .now => True
  | .random => True
  | .signal _ => True
  | .keeperLose _ => True
  | .keeperLost _ => True
  | .keeperStopped _ => True
  | .charge _ => True
  | .http _ => True
  | .diverge => True
  | _ => False

theorem quiet_allowed (v : LaneView ι) {o : Op ι} (h : QuietCall o) :
    (laneContract d forced).allow v o := by
  cases o with
  | store o => cases o <;> first | exact h.elim | trivial
  | _ => first | exact h.elim | trivial

theorem calm_idle {v : LaneView ι} (hh : v.halted = false) :
    v.halted = true → v.haltedAt.isSome := by
  intro hhalt
  rw [hh] at hhalt
  cases hhalt

theorem quiet_aside {v : LaneView ι} (hv : v.Ready) (hh : v.halted = false) {o : Op ι}
    (h : QuietCall o) (a : Ans o) : Aside v (v.learn d o a) := by
  have hstore : ∀ (so : StoreOp ι) (b : Except JsError so.Result), QuietStoreCall so →
      v.learnStore so b = v := by
    intro so b hso
    have hfail := fail_eq hv.peeked hh
    cases so <;> first | exact hso.elim | (cases b <;> first | rfl | exact hfail)
  cases o with
  | store so =>
    have heq : v.learn d (.store so) a = v := hstore so a h
    rw [heq]
    exact Aside.refl v
  | now =>
    have heq : v.learn d .now a = v.tick d a := read_eq_tick d hv.taken a
    rw [heq]
    exact tick_aside d hv.schedule (calm_idle hh) a
  | signal run =>
    refine ⟨⟨v.clock, false, _, rfl, ?_⟩, fun _ ht => ht⟩
    intro hab
    rw [hab, Bool.true_or]
  | keeperStopped run => exact ⟨⟨v.clock, true, v.aborted, rfl, fun hab => hab⟩, fun _ ht => ht⟩
  | _ => first | exact Aside.refl v | exact h.elim

section Quiet

variable {v : LaneView ι} {E : JsError → LaneView ι → Prop}

/-- A task of quiet calls. -/
theorem quiet_keeps {α : Type} {m : Proc ι α} (hm : m.Uses QuietCall) (hv : v.Ready)
    (hh : v.halted = false) {Q : α → LaneView ι → Prop} (hQ : ∀ a w, Aside v w → Q a w)
    (hE : ∀ e w, Aside v w → E e w) : m.wp (laneContract d forced) Q E v := by
  refine hm.wp_inv (I := Aside v) ?_ hQ hE (Aside.refl v)
  intro w o hw ho
  refine ⟨quiet_allowed w ho, ?_⟩
  intro a
  exact hw.trans (quiet_aside (hw.ready hv) (hw.halted.trans hh) ho a)

/-- A reading of the clock, when no page waits to be counted. -/
theorem now_tick (hv : v.Ready) (hh : v.halted = true → v.haltedAt.isSome)
    {Q : Int → LaneView ι → Prop}
    (hQ : ∀ t, Q t { v with clock := some (v.clock.elim t (max t)) }) :
    (now : Proc ι Int).wp (laneContract d forced) Q E v := by
  rw [wp_now]
  refine ⟨trivial, ?_⟩
  intro t
  have heq : (laneContract d forced).learn v .now t =
      { v with clock := some (v.clock.elim t (max t)) } :=
    (read_eq_tick d hv.taken t).trans (tick_eq d hv.schedule hh t)
  rw [heq]
  exact hQ t

theorem now_level (hv : v.Ready) (hh : v.halted = true → v.haltedAt.isSome)
    {Q : Int → LaneView ι → Prop} (hQ : ∀ t w, Aside v w → w.After t → Q t w) :
    (now : Proc ι Int).wp (laneContract d forced) Q E v := by
  refine now_tick hv hh ?_
  intro t
  rw [← tick_eq d hv.schedule hh t]
  exact hQ t _ (tick_aside d hv.schedule hh t) (tick_after d v t)

end Quiet

section Uses

variable {ι : Type}

theorem quiet_call {o : Op ι} (h : QuietCall o) : (call o).Uses QuietCall := uses_request h _

theorem quiet_store {o : StoreOp ι} (h : QuietStoreCall o) : (store o).Uses QuietCall :=
  uses_request (o := Op.store o) h _

theorem quiet_now : (now : Proc ι Int).Uses QuietCall := quiet_call trivial

theorem uses_ofExcept {S : Op ι → Prop} {α : Type} (r : Except JsError α) :
    (Task.ofExcept r : Proc ι α).Uses S := trivial

theorem buildRows_quiet (deps : RunnerDeps ι) (lane : Lane) (cursor : CursorVal)
    (specs : List (EventSpec ι)) (n : Nat) :
    (buildRows deps lane cursor n specs).Uses QuietCall := by
  induction specs generalizing n with
  | nil => exact uses_pure _
  | cons spec rest ih =>
    apply Uses.bind quiet_now
    intro at_
    apply Uses.bind (ih (n + 1))
    intro rows
    exact uses_pure _

theorem processPage_quiet (c : Cycle ι) (items : List ι) (n : Nat) (cursor : CursorVal) :
    (processPage c items n cursor).Uses QuietCall := by
  apply Uses.bind quiet_now
  intro at_
  apply Uses.bind (uses_ofExcept _)
  rintro ⟨valid, invalid⟩
  apply Uses.bind (Uses.when (uses_throw _))
  intro _
  apply Uses.bind
  · exact quiet_store trivial
  intro existing
  apply Uses.bind (uses_ofExcept _)
  rintro ⟨candidates, unchanged⟩
  apply Uses.bind (buildRows_quiet _ _ _ _ _)
  intro events
  exact uses_pure _

theorem aborted_quiet (run : Nat) : (aborted run : Proc ι Bool).Uses QuietCall := by
  apply Uses.bind
  · exact quiet_call trivial
  intro reason
  exact uses_pure _

theorem renewNow_quiet (deps : RunnerDeps ι) (run : Nat) (lease : Lease) :
    (renewNow deps run lease).Uses QuietCall := by
  apply Uses.bind
  · exact quiet_call trivial
  intro isStopped
  apply Uses.ite
  · apply Uses.bind
    · exact quiet_call trivial
    intro lost
    exact uses_pure _
  · apply Uses.bind quiet_now
    intro at_
    apply Uses.bind
    · exact quiet_store trivial
    intro ok
    apply Uses.bind
    · exact Uses.when (quiet_call trivial)
    intro _
    exact uses_pure _

theorem throwIfAborted_quiet (run : Nat) : (throwIfAborted run : Proc ι Unit).Uses QuietCall := by
  apply Uses.bind
  · exact quiet_call trivial
  intro reason
  cases reason with
  | none => exact uses_pure _
  | some e => exact uses_throw _

theorem pastDeadline_quiet (c : Cycle ι) : (pastDeadline c).Uses QuietCall := by
  unfold pastDeadline
  split
  · exact uses_pure _
  · apply Uses.bind quiet_now
    intro at_
    exact uses_pure _

theorem fetchCursor_quiet (c : Cycle ι) (s : CycleLocals) :
    (fetchCursor c s).Uses QuietCall := by
  apply Uses.ite _ (uses_pure _)
  apply Uses.bind quiet_now
  intro at_
  exact uses_ofExcept _

/-- A request notes a 304 and the rate limit in the variables of the cycle, and nothing else. -/
def Remarked (s s' : CycleLocals) : Prop :=
  ∃ notModified rateLimit,
    s' = { s with sawNotModified := notModified, lastRateLimit := rateLimit }

theorem Remarked.refl (s : CycleLocals) : Remarked s s := ⟨s.sawNotModified, s.lastRateLimit, rfl⟩

theorem Remarked.trans {s₁ s₂ s₃ : CycleLocals} (h : Remarked s₁ s₂) (h' : Remarked s₂ s₃) :
    Remarked s₁ s₃ := by
  obtain ⟨n, r, rfl⟩ := h
  obtain ⟨n', r', rfl⟩ := h'
  exact ⟨n', r', rfl⟩

theorem prepareRequest_quiet {σ : Type} (h : HttpClientDeps σ) (r : HttpRequest) :
    (prepareRequest h r : Proc ι WireRequest).Uses QuietCall := by
  apply Uses.bind (throwIfAborted_quiet _)
  intro _
  apply Uses.bind (Uses.when (uses_request (o := Op.charge _) trivial _))
  intro _
  apply Uses.ite _ (uses_pure _)
  apply Uses.bind
  · exact Uses.bind (Uses.attempt (quiet_store trivial)) fun r => by cases r <;> exact uses_pure _
  · intro stored
    exact uses_pure _

theorem settleResponse_quiet {σ : Type} (h : HttpClientDeps σ) (r : HttpRequest) (raw : RawResponse)
    (rl : Option RateLimitInfo) : (settleResponse h r raw rl : Proc ι HttpResponse).Uses QuietCall := by
  apply Uses.ite (uses_pure _)
  apply Uses.ite
  · apply Uses.bind (Uses.when _)
    · intro _
      exact uses_pure _
    · apply Uses.ite (uses_pure _)
      apply Uses.bind quiet_now
      intro at_
      exact Uses.bind (Uses.attempt (quiet_store trivial)) fun _ => uses_pure _
  · apply Uses.bind quiet_now
    intro at_
    exact Uses.ite (uses_throw _) (uses_pure _)

theorem request_within (c : Cycle ι) (r : HttpRequest) :
    (request c.http r : Body ι CycleLocals HttpResponse).Within QuietCall Remarked := by
  have hrefl := Remarked.refl
  have htrans : ∀ s₁ s₂ s₃, Remarked s₁ s₂ → Remarked s₂ s₃ → Remarked s₁ s₃ :=
    fun _ _ _ => Remarked.trans
  apply Block.Within.bind htrans (Block.within_await hrefl (prepareRequest_quiet _ r))
  intro wire
  apply Block.Within.bind htrans
  · apply Block.Within.bind htrans
    · exact Block.within_await hrefl (uses_request (o := Op.http wire) trivial _)
    · intro raw
      apply Block.Within.bind htrans (Block.within_when hrefl (Block.within_assign fun s => ⟨_, _, rfl⟩))
      intro _
      apply Block.Within.bind htrans (Block.within_await hrefl quiet_now)
      intro at_
      apply Block.Within.bind htrans
      · exact Block.within_forSome hrefl fun info => Block.within_assign fun s => ⟨_, _, rfl⟩
      · intro _
        exact Block.within_pure hrefl _
  · rintro ⟨raw, rl⟩
    exact Block.within_await hrefl (settleResponse_quiet _ r raw rl)

end Uses

/-! ## Drains -/

/-- Inside the drain `i`: no error so far. -/
def Draining (v : LaneView ι) (i : Nat) (w : LaneView ι) : Prop :=
  ∃ guarded aborted peeked halted haltedAt posted spoiled,
    w = { v with
      drain := some i, guarded, aborted, peeked, halted, haltedAt, posted, spoiled } ∧
    (halted = true → haltedAt = none) ∧ (v.sweeping = false → spoiled = v.spoiled) ∧
    (v.sweeping = true → halted = false) ∧ (v.aborted = true → aborted = true)

/-- After a drain that rejected. -/
def Drowned (v w : LaneView ι) : Prop :=
  ∃ drain guarded aborted halted haltedAt posted spoiled,
    w = { v with
      drain, guarded, aborted, peeked := true, halted, haltedAt, posted, spoiled } ∧
    (halted = true → spoiled = true) ∧ (v.sweeping = true → halted = false)

/-- After a drain with the result `r`. -/
def Drained (v : LaneView ι) (r : DrainResult) (w : LaneView ι) : Prop :=
  ∃ drain guarded aborted halted haltedAt posted spoiled,
    w = { v with
      drain, guarded, aborted, peeked := true, halted, haltedAt, posted, spoiled } ∧
    (halted = true → haltedAt = none) ∧ (v.sweeping = false → spoiled = v.spoiled ∧ halted = r.halted) ∧
    (v.sweeping = true → halted = false) ∧ (v.aborted = true → aborted = true)

section Drain

variable {v w : LaneView ι} {deps : RunnerDeps ι} {lease : Lease} {run i : Nat}

theorem Draining.fail (h : Draining v i w) : Drowned v w.fail := by
  obtain ⟨g, a, p, hh, ht, po, sp, rfl, hnone, hsp, hsweep, hab⟩ := h
  refine ⟨some i, g, a, hh, ht, po, sp || hh, rfl, ?_, hsweep⟩
  intro hhalt
  simp [hhalt]

theorem Draining.peek (h : Draining v i w) (m : DrainMem ι) :
    Draining v i (w.learn d (.peekDrain i) m) ∧
      (v.sweeping = false → (w.learn d (.peekDrain i) m).halted = m.result.halted) ∧
        (w.learn d (.peekDrain i) m).peeked = true := by
  obtain ⟨g, a, p, hh, ht, po, sp, rfl, hnone, hsp, hsweep, hab⟩ := h
  refine ⟨⟨g, a, true, _, _, _, _, rfl, ?_, ?_, ?_, hab⟩, ?_, rfl⟩
  · intro hhalt
    by_cases hv : v.sweeping = true
    · simp only [hv, if_true] at hhalt ⊢
      exact hnone hhalt
    · simp [hv]
  · intro hv
    simp [hv, hsp hv]
  · intro hv
    simp [hv, hsweep hv]
  · intro hv
    simp [LaneView.learn, LaneView.look, hv]

theorem Draining.drain_eq (h : Draining v i w) : w.drain = some i := by
  obtain ⟨g, a, p, hh, ht, po, sp, rfl, -⟩ := h
  rfl

/-- The last look at a drain. -/
theorem Draining.over (h : Draining v i w) (m : DrainMem ι) {r : DrainResult}
    (hr : r.halted = m.result.halted) : Drained v r (w.learn d (.peekDrain i) m) := by
  obtain ⟨⟨g, a, p, hh, ht, po, sp, heq, hnone, hsp, hsweep, hab⟩, hhalt, hpeek⟩ :=
    h.peek (d := d) m
  rw [heq] at hhalt hpeek ⊢
  obtain rfl : p = true := hpeek
  refine ⟨some i, g, a, hh, ht, po, sp, rfl, hnone, ?_, hsweep, hab⟩
  intro hv
  exact ⟨hsp hv, (hhalt hv).trans hr.symm⟩

theorem Draining.round (h : Draining v i w) (deps : RunnerDeps ι) (lease : Lease) (run : Nat)
    (groups : List (Group ι)) :
    Draining v i (w.learn d (.startRound deps lease run i groups) ()) := by
  obtain ⟨g, a, p, hh, ht, po, sp, rfl, hrest⟩ := h
  exact ⟨g, a, false, hh, ht, po, sp, rfl, hrest⟩

theorem Draining.reject (h : Draining v i w) (e : JsError) :
    Drowned v (w.learn d (.joinRound i) (.error e)) := by
  obtain ⟨g, a, p, hh, ht, po, sp, rfl, -⟩ := h
  refine ⟨some i, g, a, false, ht, po, sp, rfl, ?_, fun _ => rfl⟩
  intro hfalse
  cases hfalse

/-- A look at the signal and at the drain. -/
theorem stopped_lane (h : Draining v i w) {Q : Bool → LaneView ι → Prop}
    {E : JsError → LaneView ι → Prop} (hQ : ∀ b w, Draining v i w → Q b w) :
    (stopped run i).wp (laneContract d forced) Q E w := by
  unfold stopped
  rw [Task.wp_bind]
  unfold aborted
  rw [Task.wp_bind, wp_call]
  refine ⟨trivial, ?_⟩
  intro reason
  have hsignal : Draining v i (w.learn d (.signal run) reason) := by
    obtain ⟨g, a, p, hh, ht, po, sp, rfl, hnone, hsp, hsweep, hab⟩ := h
    refine ⟨false, _, p, hh, ht, po, sp, rfl, hnone, hsp, hsweep, ?_⟩
    intro haborted
    rw [hab haborted, Bool.true_or]
  rw [wp_pure, wp_ite]
  refine ⟨fun _ => hQ _ _ hsignal, fun _ => ?_⟩
  rw [Task.wp_bind, wp_call]
  refine ⟨Or.inr hsignal.drain_eq, ?_⟩
  intro m
  exact hQ _ _ (hsignal.peek (d := d) m).1

/-- A store call of the drain. -/
theorem drainStore_lane (h : Draining v i w) (o : StoreOp ι)
    (hallow : (laneContract d forced).allow w (.store o))
    (hok : ∀ x, w.learnStore o (.ok x) = w) (herror : ∀ e, w.learnStore o (.error e) = w.fail)
    {Q : o.Result → LaneView ι → Prop} {E : JsError → LaneView ι → Prop} (hQ : ∀ x, Q x w)
    (hE : ∀ e w, Drowned v w → E e w) : (store o).wp (laneContract d forced) Q E w := by
  rw [wp_store]
  refine ⟨hallow, ?_, ?_⟩
  · intro x
    change Q x (w.learnStore o (.ok x))
    rw [hok]
    exact hQ x
  · intro e
    change E e (w.learnStore o (.error e))
    rw [herror]
    exact hE e _ h.fail

theorem drainLoop_lane (fuel window : Nat) (h : Draining v i w)
    {E : JsError → LaneView ι → Prop} (hE : ∀ e w, Drowned v w → E e w) :
    (drainLoop deps lease run i fuel window).wp (laneContract d forced) (fun _ => Draining v i) E w := by
  induction fuel generalizing window w with
  | zero =>
    unfold drainLoop
    rw [wp_diverge]
    trivial
  | succ fuel ih =>
    unfold drainLoop
    rw [Task.wp_bind]
    refine stopped_lane h ?_
    intro b w h
    rw [wp_ite]
    refine ⟨fun _ => h, fun _ => ?_⟩
    rw [Task.wp_bind]
    refine drainStore_lane h (.loadPending window) trivial (fun _ => rfl) (fun _ => rfl) ?_ hE
    intro rows
    rw [wp_ite]
    refine ⟨fun _ => h, fun _ => ?_⟩
    rw [Task.wp_bind]
    refine drainStore_lane h .heldKeys trivial (fun _ => rfl) (fun _ => rfl) ?_ hE
    intro held
    rw [Task.wp_bind, wp_call]
    refine ⟨Or.inr h.drain_eq, ?_⟩
    intro mem
    have hpeek := (h.peek (d := d) mem).1
    dsimp only
    rw [wp_ite]
    refine ⟨fun _ => ?_, fun _ => ?_⟩
    · rw [wp_ite]
      exact ⟨fun _ => hpeek, fun _ => ih _ hpeek⟩
    rw [Task.wp_bind, wp_call]
    refine ⟨hpeek.drain_eq, ?_⟩
    intro _
    have hround := hpeek.round (d := d) deps lease run (openGroups deps.poller rows held mem.blocked)
    rw [Task.wp_bind, wp_request]
    refine ⟨hround.drain_eq, ?_⟩
    intro a'
    cases a' with
    | ok progress =>
      refine ⟨?_, (fun e he => nomatch he)⟩
      intro x _
      rw [wp_ite]
      exact ⟨fun _ => hround, fun _ => ih _ hround⟩
    | error e =>
      refine ⟨(fun x hx => nomatch hx), ?_⟩
      intro e' _
      exact hE _ _ (hround.reject (d := d) e)

theorem drainOutbox_lane (hv : v.Ready) (hh : v.halted = false) {Q : DrainResult → LaneView ι → Prop}
    {E : JsError → LaneView ι → Prop} (hQ : ∀ r w, Drained v r w → Q r w)
    (hE : ∀ e w, Drowned v w → E e w) :
    (drainOutbox deps lease run).wp (laneContract d forced) Q E v := by
  unfold drainOutbox
  rw [wp_ite]
  refine ⟨fun _ => ?_, fun _ => ?_⟩
  · rw [Task.wp_bind, wp_call]
    refine ⟨⟨hv.peeked, hh⟩, ?_⟩
    intro i
    have hnew : Draining v i (v.learn d .newDrain i) := by
      refine ⟨v.guarded, v.aborted, true, v.halted, v.haltedAt, v.posted, v.spoiled, rfl, ?_,
        fun _ => rfl, fun _ => hh, fun hab => hab⟩
      intro hhalt
      rw [hh] at hhalt
      cases hhalt
    rw [Task.wp_bind]
    refine wp_mono ?_ (fun _ _ hE => hE) (drainLoop_lane _ _ hnew hE)
    intro _ w h
    rw [Task.wp_bind]
    refine drainStore_lane h .countPending trivial (fun _ => rfl) (fun _ => rfl) ?_ hE
    intro remaining
    rw [Task.wp_bind, wp_call]
    refine ⟨Or.inr h.drain_eq, ?_⟩
    intro mem
    exact hQ _ _ (h.over (d := d) mem rfl)
  · rw [Task.wp_bind, wp_store]
    have hnone : v.halted = true → v.haltedAt = none := by
      intro hhalt
      rw [hh] at hhalt
      cases hhalt
    have hpeeked := hv.peeked
    refine ⟨trivial, ?_, ?_⟩
    · intro remaining
      apply hQ
      refine ⟨v.drain, v.guarded, v.aborted, v.halted, v.haltedAt, v.posted, v.spoiled, ?_, hnone,
        fun _ => ⟨rfl, hh⟩, fun _ => hh, fun hab => hab⟩
      rw [← hpeeked]
      rfl
    · intro e
      apply hE
      change Drowned v v.fail
      rw [fail_eq hpeeked hh]
      refine ⟨v.drain, v.guarded, v.aborted, v.halted, v.haltedAt, v.posted, v.spoiled, ?_, ?_,
        fun _ => hh⟩
      · rw [← hpeeked]
      · intro hhalt
        rw [hh] at hhalt
        cases hhalt

end Drain

end Watukuy
