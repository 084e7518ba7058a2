import Watukuy.Cycle.Ending

/-!
# `runKey` keeps to the contract

A cycle as a whole, from the state it starts with to the state it hands back, and the lanes of a
`runKey` execution one after the other.
-/

set_option autoImplicit false

namespace Watukuy

open Library Task

variable {ι : Type} {d : Deployment ι} {extra : CycleView ι → StoreOp ι → Prop} {c : Cycle ι}
  {s : CycleLocals} {v : CycleView ι} {F : JsError → CycleLocals → CycleView ι → Prop}

/-! ## A cycle as a whole -/

theorem cycleBody_keeps (hm : Mid d c s v) (hfetches : v.fetches = []) (hdone : s.done = false)
    (hhalted : s.halted = false)
    (htrunc : s.summary.truncated = false)
    {Q : CycleResult → CycleLocals → CycleView ι → Prop} (hQ : ∀ r s' w, Cycled d c r w → Q r s' w)
    (hF : ∀ e s' w, Failing d c s' w → F e s' w) :
    Block.wp (cycleContract d extra) (cycleBody c) Q F s v := by
  unfold cycleBody
  rw [Block.wp_bind]
  refine scan_keeps _ hm (fun _ h => ?_) (fun _ _ => Or.inl hfetches) hhalted htrunc
    (fun s' w h => ?_) hF
  · rw [hdone] at h
    cases h
  rw [Block.wp_bind]
  exact deletePhase_keeps h (fun s' w h => finishCycle_keeps h hQ hF) hF

/-- The execution holds a lease, has loaded the state under it, and works on a state that agrees
with the view. -/
structure Ready (d : Deployment ι) (deps : RunnerDeps ι) (lease : Lease) (state : PollerState)
    (v : CycleView ι) : Prop where
  deps : deps.In d
  lease : v.lease = some lease
  ready : v.ready = true
  sequence : v.sequence ≤ state.sequence
  lanes : state.lanes = v.lanes

theorem Ready.begin {deps : RunnerDeps ι} {lease : Lease} {state : PollerState}
    (h : Ready d deps lease state v) {lane : Lane} {c : Cycle ι} {cursor : CursorVal} {startedAt : Int}
    (hdeps : c.deps = deps) (hlease : c.lease = lease) (hlane : c.lane = lane)
    (hstart : c.start = (state.lanes.get lane).getD { cursor := none })
    (htarget : c.target.isSome → c.start.target.isSome)
    (hcursor : c.lane = .reconcile → c.start.cursor.getD (.page 1) = cursor ∧ ∃ n, cursor = .page n) :
    Mid d c (.init lane state cursor startedAt) (v.begin lane) where
  inCycle :=
    { deps := hdeps ▸ h.deps
      lease := hlease ▸ h.lease
      ready := h.ready
      lane := hlane
      start := by rw [hstart, h.lanes]; rfl }
  target := htarget
  sweep hlane := by
    obtain ⟨hcur, n, hn⟩ := hcursor hlane
    exact ⟨n, hcur.trans hn⟩
  lanes := h.lanes
  pages := rfl
  seen _ := rfl
  cursor hlane := by
    obtain ⟨hcur, n, rfl⟩ := hcursor hlane
    change CursorVal.page n = sweepCursor c.start.cursor []
    rw [sweepCursor, hcur]
    rfl
  notModified := rfl
  halted := rfl
  validator := rfl
  response := rfl
  streamed := rfl
  deleted := rfl
  sequence := h.sequence
  committed := rfl

theorem startTarget_isSome {target : Option CursorVal} (h : startTarget c = .ok target) :
    target.isSome → c.start.target.isSome := by
  unfold startTarget at h
  cases hstart : c.start.target with
  | none =>
    rw [hstart] at h
    cases h
    simp
  | some raw => simp

theorem startCursor_reconcile (hlane : c.lane = .reconcile) {cursor : CursorVal}
    (h : startCursor c = .ok cursor) :
    c.start.cursor.getD (.page 1) = cursor ∧ ∃ n, cursor = .page n := by
  unfold startCursor at h
  rw [strategy_reconcile hlane] at h
  cases hstart : c.start.cursor with
  | none =>
    rw [hstart] at h
    cases h
    exact ⟨rfl, 1, rfl⟩
  | some raw =>
    rw [hstart] at h
    cases raw with
    | page n =>
      cases h
      exact ⟨rfl, n, rfl⟩
    | _ => cases h

theorem runCycle_keeps {deps : RunnerDeps ι} {lease : Lease} {run : Nat} {deadline : Option Int}
    {state : PollerState} {lane : Lane} (h : Ready d deps lease state v)
    (hlane : lane ≠ .backfill → v.lane = .live)
    {Q : CycleResult → CycleView ι → Prop} {E : JsError → CycleView ι → Prop}
    (hQ : ∀ r w, w.lane = lane → (r.aborted = false → Ready d deps lease r.state w) → Q r w)
    (hE : ∀ e w, E e w) :
    (runCycle deps lease run deadline state lane).wp (cycleContract d extra) Q E v := by
  unfold runCycle
  rw [Task.wp_bind]
  refine now_keeps fun startedAt => ?_
  rw [Task.wp_bind, wp_call]
  refine ⟨⟨h.ready, hlane⟩, fun _ => ?_⟩
  rw [Task.wp_bind, wp_ofExcept]
  refine ⟨fun cursor hcursor => ?_, fun e _ => hE e _⟩
  rw [Task.wp_bind, wp_ofExcept]
  refine ⟨fun target htarget => ?_, fun e _ => hE e _⟩
  dsimp only
  rw [Block.wp_run, Block.wp_tryCatch]
  have hresult : ∀ c : Cycle ι, c.deps = deps → c.lease = lease → c.lane = lane →
      ∀ r (_ : CycleLocals) w, Cycled d c r w → Q r w := by
    intro c hdeps hlease hlane r s' w hr
    refine hQ r w (hr.inCycle.lane.symm.trans hlane) fun ha =>
      ⟨h.deps, hlease ▸ hr.inCycle.lease, hr.inCycle.ready, ?_, ?_⟩
    · exact (hr.agrees ha).1
    · exact (hr.agrees ha).2
  refine cycleBody_keeps (h.begin rfl rfl rfl rfl ?_ fun hlane => ?_) rfl rfl rfl rfl
    (hresult _ rfl rfl rfl) fun e s' w hfailing =>
      onCycleError_keeps hfailing (hresult _ rfl rfl rfl) fun e _ w => hE e w
  · exact startTarget_isSome htarget
  · exact startCursor_reconcile hlane hcursor

/-! ## runKey -/

section Key

variable {h : Held ι} {s : KeyLocals} {F : JsError → KeyLocals → CycleView ι → Prop}

/-- `Ready`, for the variables of `runKey`. -/
abbrev KeyReady (d : Deployment ι) (h : Held ι) (s : KeyLocals) (v : CycleView ι) : Prop :=
  Ready d h.deps h.lease s.state v

theorem runLane_keeps {lane : Lane} (hr : KeyReady d h s v) (hlane : lane ≠ .backfill → v.lane = .live)
    {Q : Bool → KeyLocals → CycleView ι → Prop}
    (hQ : ∀ a s' w, w.lane = lane → (a = false → KeyReady d h s' w) → Q a s' w)
    (hF : ∀ e s' w, F e s' w) :
    Block.wp (cycleContract d extra) (runLane h lane) Q F s v := by
  unfold runLane
  rw [Block.wp_bind, Block.wp_locals, Block.wp_bind, Block.wp_await]
  refine runCycle_keeps hr hlane (fun r w hw hready => ?_) fun e w => hF e s w
  rw [Block.wp_bind, Block.wp_assign, Block.wp_bind, Block.wp_when]
  exact ⟨fun _ => hQ _ _ _ hw hready, fun _ => hQ _ _ _ hw hready⟩

theorem Ready.read {deps : RunnerDeps ι} {lease : Lease} {state : PollerState}
    (h : Ready d deps lease state v) (a : Bool) : Ready d deps lease state (v.read a) :=
  { h with }

theorem liveLane_keeps {halted : Bool} (hr : KeyReady d h s v) (hlane : v.lane = .live)
    {Q : Bool → KeyLocals → CycleView ι → Prop}
    (hQ : ∀ a s' w, w.lane = .live → (a = false → KeyReady d h s' w) → Q a s' w)
    (hF : ∀ e s' w, F e s' w) :
    Block.wp (cycleContract d extra) (liveLane h halted) Q F s v := by
  unfold liveLane
  rw [Block.wp_bind, Block.wp_await]
  refine now_keeps fun at_ => ?_
  rw [Block.wp_bind, Block.wp_locals, Block.wp_ite]
  refine ⟨fun _ => ?_, fun _ => hQ _ _ _ hlane fun _ => hr⟩
  rw [Block.wp_bind, Block.wp_when]
  have hlive : Lane.live ≠ .backfill → v.lane = .live := fun _ => hlane
  refine ⟨fun _ => runLane_keeps ?_ hlive hQ hF, fun _ => runLane_keeps hr hlive hQ hF⟩
  exact ⟨hr.deps, hr.lease, hr.ready, hr.sequence, hr.lanes⟩

theorem reconcileLane_keeps {halted : Bool} (hr : KeyReady d h s v) (hlane : v.lane = .live)
    {Q : Bool → KeyLocals → CycleView ι → Prop}
    (hQ : ∀ a s' w, (a = false → KeyReady d h s' w) → Q a s' w) (hF : ∀ e s' w, F e s' w) :
    Block.wp (cycleContract d extra) (reconcileLane h halted) Q F s v := by
  unfold reconcileLane
  rw [Block.wp_bind, Block.wp_await]
  refine now_keeps fun at_ => ?_
  rw [Block.wp_bind, Block.wp_locals, Block.wp_ite]
  refine ⟨fun _ => ?_, fun _ => hQ _ _ _ fun _ => hr⟩
  rw [Block.wp_bind, Block.wp_await]
  refine aborted_keeps fun a => ?_
  rw [Block.wp_ite]
  refine ⟨fun _ => hQ _ _ _ fun _ => hr.read a, fun _ => ?_⟩
  exact runLane_keeps (hr.read a) (fun _ => hlane) (fun a s' w _ => hQ a s' w) hF

theorem backfillLane_keeps {halted : Bool} (hr : KeyReady d h s v)
    {Q : Bool → KeyLocals → CycleView ι → Prop}
    (hQ : ∀ a s' w, (a = false → KeyReady d h s' w) → Q a s' w) (hF : ∀ e s' w, F e s' w) :
    Block.wp (cycleContract d extra) (backfillLane h halted) Q F s v := by
  unfold backfillLane
  rw [Block.wp_bind, Block.wp_locals, Block.wp_ite]
  refine ⟨fun _ => ?_, fun _ => hQ _ _ _ fun _ => hr⟩
  rw [Block.wp_bind, Block.wp_await]
  refine aborted_keeps fun a => ?_
  rw [Block.wp_ite]
  refine ⟨fun _ => hQ _ _ _ fun _ => hr.read a, fun _ => ?_⟩
  have hlane : Lane.backfill ≠ .backfill → (v.read a).lane = .live := fun hne => absurd rfl hne
  exact runLane_keeps (hr.read a) hlane (fun a s' w _ => hQ a s' w) hF

theorem runLanes_keeps {halted : Bool} (hr : KeyReady d h s v) (hlane : v.lane = .live)
    {Q : Unit → KeyLocals → CycleView ι → Prop} (hQ : ∀ u s' w, Q u s' w) (hF : ∀ e s' w, F e s' w) :
    Block.wp (cycleContract d extra) (runLanes h halted) Q F s v := by
  unfold runLanes
  rw [Block.wp_bind]
  refine liveLane_keeps hr hlane (fun a s' w hw hr => ?_) hF
  rw [Block.wp_ite]
  refine ⟨fun _ => hQ _ _ _, fun ha => ?_⟩
  rw [Block.wp_bind]
  refine reconcileLane_keeps (hr (Bool.eq_false_of_not_eq_true ha)) hw (fun a s' w hr => ?_) hF
  rw [Block.wp_ite]
  refine ⟨fun _ => hQ _ _ _, fun ha => ?_⟩
  rw [Block.wp_bind]
  refine backfillLane_keeps (hr (Bool.eq_false_of_not_eq_true ha)) (fun a s' w hr => ?_) hF
  rw [Block.wp_ite]
  exact ⟨fun _ => hQ _ _ _, fun _ => hQ _ _ _⟩

theorem drainBefore_keeps (hr : KeyReady d h s v) (hlane : v.lane = .live)
    {Q : Bool → KeyLocals → CycleView ι → Prop}
    (hQ : ∀ a s' w, KeyReady d h s' w → w.lane = .live → Q a s' w) (hF : ∀ e s' w, F e s' w) :
    Block.wp (cycleContract d extra) (drainBefore h) Q F s v := by
  unfold drainBefore
  rw [Block.wp_bind, Block.wp_await]
  refine settled_keeps (drainOutbox_uses _ _ _) ?_ fun e w _ => hF _ _ _
  rintro r _ ⟨g, a, x, rfl, -⟩
  rw [Block.wp_bind, Block.wp_assign, Block.wp_bind, Block.wp_when]
  refine ⟨fun _ => ?_, fun _ => hQ _ _ _ { hr with } hlane⟩
  rw [Block.wp_bind, Block.wp_locals, Block.wp_bind, Block.wp_await]
  refine openCircuitForHalt_keeps ?_ ?_ (fun schedule at_ => ?_) fun e => hF _ _ _
  · exact hr.lease
  · exact hr.ready
  · exact hQ _ _ _ { hr with } hlane

theorem underLease_keeps (hdeps : h.deps.In d) (hlease : v.lease = some h.lease)
    (hlane : v.lane = .live)
    {Q : Unit → KeyLocals → CycleView ι → Prop} (hQ : ∀ u s' w, Q u s' w) (hF : ∀ e s' w, F e s' w) :
    Block.wp (cycleContract d extra) (underLease h) Q F s v := by
  unfold underLease
  rw [Block.wp_bind, Block.wp_await, wp_store]
  refine ⟨Or.inl trivial, fun loaded => ?_, fun e => hF _ _ _⟩
  rw [Block.wp_bind, Block.wp_await]
  refine now_keeps fun at_ => ?_
  rw [Block.wp_bind, Block.wp_assign, Block.wp_bind, Block.wp_locals, Block.wp_ite]
  refine ⟨fun _ => hQ _ _ _, fun _ => ?_⟩
  rw [Block.wp_bind, Block.wp_assign, Block.wp_bind]
  refine drainBefore_keeps (v := v.learn (.store .loadState) (.ok loaded)) ?_ hlane
    (fun a s' w hr hw => runLanes_keeps hr hw hQ hF) hF
  refine ⟨hdeps, hlease, by simp [CycleView.learn, hlease], ?_, ?_⟩
  · cases loaded <;> exact Nat.le_refl _
  · cases loaded <;> rfl

theorem runHeld_keeps {deps : RunnerDeps ι} (hdeps : deps.In d) {opts : RunKeyOptions}
    {pre : PollerState} {lease : Lease} (hlease : v.lease = some lease) (hlane : v.lane = .live)
    {Q : RunKeyResult → CycleView ι → Prop} {E : JsError → CycleView ι → Prop}
    (hQ : ∀ r w, Q r w) (hE : ∀ e w, E e w) :
    (runHeld deps opts pre lease).wp (cycleContract d extra) Q E v := by
  unfold runHeld
  rw [Task.wp_bind, wp_call]
  refine ⟨trivial, fun run => ?_⟩
  dsimp only
  rw [Task.wp_bind, wp_call]
  refine ⟨trivial, fun _ => ?_⟩
  have hrelease : ∀ h : Held ι, ∀ w : CycleView ι, ∀ R : CycleView ι → Prop, (∀ w, R w) →
      (release h).wp (cycleContract d extra) (fun _ => R) E w := by
    intro h w R hR
    unfold release
    rw [Task.wp_bind, wp_call]
    refine ⟨trivial, fun _ => ?_⟩
    rw [Task.wp_bind, wp_attempt, wp_store]
    exact ⟨Or.inl trivial, fun _ => hR _, fun _ => hR _⟩
  rw [wp_finallyDo, Block.wp_run, Block.wp_bind, Block.wp_tryCatch]
  refine underLease_keeps hdeps hlease hlane (fun _ s' w => ?_) fun e s' w => ?_
  · exact hrelease _ _ _ fun w => hQ _ w
  · unfold onKeyError
    rw [Block.wp_bind, Block.wp_await, wp_call]
    refine ⟨trivial, fun lost => ?_⟩
    rw [Block.wp_ite]
    exact ⟨fun _ => hrelease _ _ _ fun w => hQ _ w, fun _ => hrelease _ _ _ fun w => hE _ w⟩

theorem runKey_keeps {deps : RunnerDeps ι} (hdeps : deps.In d) (opts : RunKeyOptions)
    {Q : RunKeyResult → CycleView ι → Prop} {E : JsError → CycleView ι → Prop}
    (hQ : ∀ r w, Q r w) (hE : ∀ e w, E e w) :
    (runKey deps opts).wp (cycleContract d extra) Q E v := by
  unfold runKey
  rw [Task.wp_bind]
  refine now_keeps fun now0 => ?_
  rw [Task.wp_bind, wp_store]
  refine ⟨Or.inl trivial, fun loaded => ?_, fun e => hE e _⟩
  dsimp only
  rw [wp_ite]
  refine ⟨fun _ => hQ _ _, fun _ => ?_⟩
  rw [Task.wp_bind]
  have hleased : ∀ w : CycleView ι,
      (runLeased deps opts (Option.getD loaded (emptyState now0 deps.poller))).wp
        (cycleContract d extra) Q E w := by
    intro w
    unfold runLeased
    rw [Task.wp_bind]
    refine now_keeps fun at_ => ?_
    rw [Task.wp_bind, wp_store]
    refine ⟨Or.inl trivial, fun got => ?_, fun e => hE e _⟩
    cases got with
    | none => exact hQ _ _
    | some lease => exact runHeld_keeps hdeps rfl rfl hQ hE
  unfold countPending
  rw [wp_ite]
  refine ⟨fun _ => ?_, fun _ => ?_⟩
  · rw [wp_store]
    refine ⟨Or.inl trivial, fun pending => ?_, fun e => hE e _⟩
    rw [wp_ite]
    exact ⟨fun _ => hQ _ _, fun _ => hleased _⟩
  · rw [wp_pure, wp_ite]
    exact ⟨fun _ => hQ _ _, fun _ => hleased _⟩

end Key

end Watukuy
