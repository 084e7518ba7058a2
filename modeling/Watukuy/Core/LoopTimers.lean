import Watukuy.Core.Daemon
import Watukuy.Library.OrderedMap

/-!
# The timers of the daemon

`requestWake`, `loop` and `stop` of `core/engine.ts` as steps of one state. A pass of `loop` clears
the stored timer, waits for `allKeys()`, and stores a new one when it comes back. Between the two
any other step may come: a wake, the end of a run, another pass.
-/

set_option autoImplicit false

namespace Watukuy

open Library

/-- `_status`. -/
inductive EngineStatus
  | idle
  | running
  | stopping
  | stopped
  deriving DecidableEq

/-- A timer that `loop` has scheduled. -/
structure LoopTimer where
  handle : Nat
  due : Int
  deriving DecidableEq

structure LoopState where
  status : EngineStatus
  /-- What the clock reads. -/
  clock : Int
  timer : Option Nat := none
  /-- The timers of `loop` that are pending in the clock. -/
  pending : List LoopTimer := []
  /-- The handle of the next timer. -/
  handles : Nat := 0
  wakeRequested : Bool := false
  /-- The callbacks that `requestWake` has queued. -/
  microtasks : Nat := 0
  /-- The passes that wait for `allKeys()`, each with the time at which it began. -/
  passes : List Int := []
  nextDue : OrderedMap String Int := OrderedMap.empty
  /-- The run in flight of each key. -/
  inflight : OrderedMap String Nat := OrderedMap.empty
  /-- The number of the next run. -/
  runs : Nat := 0
  /-- The calls of `stop` that wait, each for the runs that were in flight. -/
  stops : List (List Nat) := []

namespace LoopState

def requestWake (s : LoopState) : LoopState :=
  if s.status ≠ .running ∨ s.wakeRequested = true then s
  else { s with wakeRequested := true, microtasks := s.microtasks + 1 }

/-- `clearTimeout` of the stored timer. -/
def clearTimer (s : LoopState) : LoopState :=
  match s.timer with
  | some handle =>
    { s with timer := none, pending := s.pending.filter fun timer => timer.handle ≠ handle }
  | none => s

/-- `loop` up to `allKeys()`. -/
def beginPass (s : LoopState) : LoopState :=
  if s.status ≠ .running then s
  else
    let cleared := s.clearTimer
    { cleared with passes := cleared.passes ++ [s.clock] }

/-- One key of a pass: it is started when it is due, else it counts for `soonest`. -/
def startDue (now : Int) (acc : LoopState × Int) (id : String) : LoopState × Int :=
  let (s, soonest) := acc
  if (s.inflight.get id).isSome then (s, soonest)
  else
    let due := (s.nextDue.get id).getD now
    if due ≤ now then
      ({ s with inflight := s.inflight.set id s.runs, runs := s.runs + 1 }, soonest)
    else (s, min soonest due)

/-- `loop` from `allKeys()` on, for a pass that began at `now`. -/
def endPass (s : LoopState) (now : Int) (keys : List String) : LoopState :=
  let (s, soonest) := keys.foldl (startDue now) (s, now + maxSleepMs)
  if s.status ≠ .running then s
  else
    let delay := max 0 (min soonest (now + maxSleepMs) - now)
    { s with
      timer := some s.handles
      pending := s.pending ++ [{ handle := s.handles, due := s.clock + delay }]
      handles := s.handles + 1 }

/-- `stop` up to its first wait. -/
def stop (s : LoopState) : LoopState :=
  if s.status = .idle ∨ s.status = .stopped then { s with status := .stopped }
  else
    let stopping := { s with status := .stopping }.clearTimer
    if stopping.inflight.values = [] then { stopping with status := .stopped }
    else { stopping with stops := stopping.stops ++ [stopping.inflight.values] }

/-- The `finally` of a run. -/
def finishRun (s : LoopState) (id : String) : LoopState :=
  { s with inflight := s.inflight.erase id }.requestWake

end LoopState

/-! ## Steps -/

inductive LoopEvent
  /-- Some method calls `requestWake`. -/
  | requestWake
  /-- A callback of `requestWake` runs. -/
  | microtask
  /-- `allKeys()` resolves for a pass, with the ids of the keys. -/
  | resume (pass : Nat) (keys : List String)
  /-- `allKeys()` rejects for a pass. -/
  | reject (pass : Nat)
  /-- A timer fires. -/
  | fire (handle : Nat)
  /-- Some method notes when a key is due. -/
  | note (id : String) (due : Int)
  | finishRun (id : String)
  | stop
  /-- A call of `stop` ends its wait. -/
  | stopped (call : Nat)
  | tick (ms : Nat)

/-- One step; `none` when the event cannot happen. -/
def LoopState.step (s : LoopState) : LoopEvent → Option LoopState
  | .requestWake => some s.requestWake
  | .microtask =>
    if s.microtasks = 0 then none
    else some { s with microtasks := s.microtasks - 1, wakeRequested := false }.beginPass
  | .resume pass keys =>
    s.passes[pass]?.map fun now => { s with passes := s.passes.eraseIdx pass }.endPass now keys
  | .reject pass => s.passes[pass]?.map fun _ => { s with passes := s.passes.eraseIdx pass }
  | .fire handle =>
    if s.pending.any fun timer => timer.handle = handle ∧ timer.due ≤ s.clock then
      some { s with
        timer := none
        pending := s.pending.filter fun timer => timer.handle ≠ handle }.beginPass
    else none
  | .note id due => some { s with nextDue := s.nextDue.set id due }
  | .finishRun id => if (s.inflight.get id).isSome then some (s.finishRun id) else none
  | .stop => some s.stop
  | .stopped call =>
    s.stops[call]?.bind fun awaited =>
      if ∀ run ∈ awaited, run ∉ s.inflight.values then
        some { s with status := .stopped, stops := s.stops.eraseIdx call }
      else none
  | .tick ms => some { s with clock := s.clock + ms }

/-- The state after some events. -/
def LoopState.after (s : LoopState) : List LoopEvent → Option LoopState
  | [] => some s
  | e :: events => (s.step e).bind fun s' => s'.after events

/-- The daemon when `start` has set the status. -/
def LoopState.started (now : Int) : LoopState where
  status := .running
  clock := now

@[simp] theorem LoopState.after_nil (s : LoopState) : s.after [] = some s := rfl

theorem LoopState.after_append (s : LoopState) (events later : List LoopEvent) :
    s.after (events ++ later) = (s.after events).bind fun s' => s'.after later := by
  induction events generalizing s with
  | nil => rfl
  | cons e events ih =>
    rw [List.cons_append, LoopState.after, LoopState.after]
    cases s.step e with
    | none => rfl
    | some s' => exact ih s'

/-! ## One timer -/

namespace LoopState

/-- At most one timer is pending, and none once the daemon has stopped. -/
structure OneTimer (s : LoopState) : Prop where
  one : s.pending.length ≤ 1
  stopped : s.status = .stopped → s.pending = []

/-- The pending timer is the stored one, only a running daemon has one, and no call of `stop` waits
in a running daemon. -/
structure Stored (s : LoopState) : Prop where
  pending : s.pending.map LoopTimer.handle = s.timer.toList
  running : s.status ≠ .running → s.timer = none
  stops : s.status = .running → s.stops = []

/-- A pass that comes back from `allKeys()` in a running daemon: it will store a timer. -/
def Arms (s : LoopState) : LoopEvent → Prop
  | .resume pass _ => pass < s.passes.length ∧ s.status = .running
  | _ => False

variable {s s' : LoopState} {e : LoopEvent}

theorem Stored.oneTimer (h : s.Stored) : s.OneTimer := by
  have hlength : s.pending.length = s.timer.toList.length := by
    rw [← h.pending, List.length_map]
  constructor
  · rw [hlength]
    cases s.timer <;> simp
  · intro hstopped
    have hnone := h.running (by rw [hstopped]; exact EngineStatus.noConfusion)
    rw [hnone] at hlength
    exact List.eq_nil_of_length_eq_zero hlength

/-- Without its timer, the state has none pending. -/
theorem filter_stored (h : s.pending.map LoopTimer.handle = s.timer.toList) {handle : Nat}
    (htimer : s.timer = some handle) :
    s.pending.filter (fun timer => timer.handle ≠ handle) = [] := by
  rw [htimer, Option.toList_some, List.map_eq_singleton_iff] at h
  obtain ⟨timer, hpending, hhandle⟩ := h
  rw [hpending, List.filter_cons_of_neg (by simp [hhandle]), List.filter_nil]

theorem clearTimer_stored (h : s.pending.map LoopTimer.handle = s.timer.toList) :
    s.clearTimer.pending = [] ∧ s.clearTimer.timer = none := by
  cases htimer : s.timer with
  | none =>
    have hclear : s.clearTimer = s := by simp only [LoopState.clearTimer, htimer]
    rw [htimer, Option.toList_none, List.map_eq_nil_iff] at h
    rw [hclear]
    exact ⟨h, htimer⟩
  | some handle =>
    simp only [LoopState.clearTimer, htimer, filter_stored h htimer, and_self]

@[simp] theorem clearTimer_status (s : LoopState) : s.clearTimer.status = s.status := by
  rw [LoopState.clearTimer]
  split <;> rfl

@[simp] theorem clearTimer_stops (s : LoopState) : s.clearTimer.stops = s.stops := by
  rw [LoopState.clearTimer]
  split <;> rfl

theorem stored_of_none (hpending : s.pending = []) (htimer : s.timer = none)
    (hstops : s.status = .running → s.stops = []) : s.Stored where
  pending := by rw [hpending, htimer]; rfl
  running _ := htimer
  stops := hstops

/-- The fields that no step but those of a timer and of `stop` touches. -/
theorem Stored.congr (h : s.Stored) (hstatus : s'.status = s.status) (htimer : s'.timer = s.timer)
    (hpending : s'.pending = s.pending) (hstops : s'.stops = s.stops) : s'.Stored := by
  refine ⟨?_, ?_, ?_⟩
  · rw [hpending, htimer]
    exact h.pending
  · rw [hstatus, htimer]
    exact h.running
  · rw [hstatus, hstops]
    exact h.stops

theorem Stored.requestWake (h : s.Stored) : s.requestWake.Stored := by
  rw [LoopState.requestWake]
  split
  · exact h
  · exact h.congr rfl rfl rfl rfl

theorem Stored.beginPass (h : s.Stored) : s.beginPass.Stored := by
  obtain ⟨hpending, htimer⟩ := clearTimer_stored h.pending
  rw [LoopState.beginPass]
  split
  · exact h
  · refine stored_of_none hpending htimer fun hrunning => ?_
    exact (clearTimer_stops s).trans (h.stops ((clearTimer_status s).symm.trans hrunning))

/-- Starting what is due touches neither the timers nor the passes. -/
theorem foldl_startDue (now : Int) (keys : List String) (acc : LoopState × Int) :
    (keys.foldl (startDue now) acc).1.status = acc.1.status ∧
      (keys.foldl (startDue now) acc).1.timer = acc.1.timer ∧
      (keys.foldl (startDue now) acc).1.pending = acc.1.pending ∧
      (keys.foldl (startDue now) acc).1.stops = acc.1.stops ∧
      (keys.foldl (startDue now) acc).1.passes = acc.1.passes := by
  induction keys generalizing acc with
  | nil => exact ⟨rfl, rfl, rfl, rfl, rfl⟩
  | cons id keys ih =>
    obtain ⟨hstatus, htimer, hpending, hstops, hpasses⟩ := ih (startDue now acc id)
    rw [List.foldl_cons, hstatus, htimer, hpending, hstops, hpasses]
    simp only [startDue]
    split
    · exact ⟨rfl, rfl, rfl, rfl, rfl⟩
    · split <;> exact ⟨rfl, rfl, rfl, rfl, rfl⟩

/-- A pass that comes back in a running daemon adds a timer and stores it. -/
theorem endPass_running (now : Int) (keys : List String) (h : s.status = .running) :
    (s.endPass now keys).status = .running ∧ (s.endPass now keys).stops = s.stops ∧
      (s.endPass now keys).passes = s.passes ∧ ∃ timer : LoopTimer,
        (s.endPass now keys).timer = some timer.handle ∧
          (s.endPass now keys).pending = s.pending ++ [timer] := by
  obtain ⟨hstatus, -, hpending, hstops, hpasses⟩ := foldl_startDue now keys (s, now + maxSleepMs)
  simp only [endPass]
  generalize keys.foldl (startDue now) (s, now + maxSleepMs) = acc
    at hstatus hpending hstops hpasses ⊢
  rw [if_neg (by rw [hstatus, h]; exact fun hne => hne rfl)]
  let timer : LoopTimer :=
    ⟨acc.1.handles, acc.1.clock + max 0 (min acc.2 (now + maxSleepMs) - now)⟩
  exact ⟨hstatus.trans h, hstops, hpasses, timer, rfl,
    congrArg (fun pending => pending ++ [timer]) hpending⟩

/-- In any other it leaves the timers alone. -/
theorem Stored.endPass (h : s.Stored) (now : Int) (keys : List String)
    (hstatus : s.status ≠ .running) : (s.endPass now keys).Stored := by
  obtain ⟨hsame, htimer, hpending, hstops, -⟩ := foldl_startDue now keys (s, now + maxSleepMs)
  simp only [LoopState.endPass]
  rw [if_pos (by rw [hsame]; exact hstatus)]
  exact h.congr hsame htimer hpending hstops

theorem Stored.stop (h : s.Stored) : s.stop.Stored := by
  rw [LoopState.stop]
  split
  · next hended =>
    have hnone : s.timer = none := h.running (by rcases hended with heq | heq <;> simp [heq])
    exact ⟨h.pending, fun _ => hnone, fun hstopped => by cases hstopped⟩
  · let stopping : LoopState := { s with status := .stopping }
    obtain ⟨hpending, htimer⟩ := @clearTimer_stored stopping h.pending
    dsimp only
    split
    · exact stored_of_none hpending htimer fun hstopped => by cases hstopped
    · refine stored_of_none hpending htimer fun hrunning => ?_
      have hstatus : stopping.clearTimer.status = .running := hrunning
      rw [clearTimer_status] at hstatus
      cases hstatus

/-- Every step keeps the pending timer stored, as long as no pass stores a second one. -/
theorem Stored.step (h : s.Stored) (hstep : s.step e = some s')
    (harms : s.Arms e → s.timer = none) : s'.Stored := by
  cases e with
  | requestWake =>
    rw [LoopState.step, Option.some.injEq] at hstep
    exact hstep ▸ h.requestWake
  | microtask =>
    simp only [LoopState.step] at hstep
    split at hstep
    · cases hstep
    · rw [Option.some.injEq] at hstep
      subst hstep
      refine Stored.beginPass ?_
      exact h.congr rfl rfl rfl rfl
  -- the one step that may store a second timer: `harms` says that none is stored
  | resume pass keys =>
    simp only [LoopState.step, Option.map_eq_some_iff] at hstep
    obtain ⟨now, hpass, rfl⟩ := hstep
    let left : LoopState := { s with passes := s.passes.eraseIdx pass }
    have hleft : left.Stored := h.congr rfl rfl rfl rfl
    by_cases hstatus : s.status = .running
    · have hlt := (List.getElem?_eq_some_iff.1 hpass).1
      -- with no timer stored nothing is pending, so the new one is all there is
      have hnone := harms ⟨hlt, hstatus⟩
      have hempty := h.pending
      rw [hnone, Option.toList_none, List.map_eq_nil_iff] at hempty
      obtain ⟨hrunning, hstops, -, timer, htimer, hpending⟩ :=
        @endPass_running left now keys hstatus
      refine ⟨?_, fun hne => absurd hrunning hne, fun _ => hstops.trans (h.stops hstatus)⟩
      have hone : left.pending ++ [timer] = [timer] := congrArg (· ++ [timer]) hempty
      rw [hpending, htimer, hone]
      rfl
    · exact hleft.endPass now keys hstatus
  | reject pass =>
    simp only [LoopState.step, Option.map_eq_some_iff] at hstep
    obtain ⟨now, -, rfl⟩ := hstep
    exact h.congr rfl rfl rfl rfl
  | fire handle =>
    simp only [LoopState.step] at hstep
    split at hstep
    · next hdue =>
      rw [Option.some.injEq] at hstep
      subst hstep
      -- the only pending timer is the stored one, so it is the one that fires
      have hfired : s.timer = some handle := by
        obtain ⟨timer, hmem, hhandle⟩ := List.any_eq_true.1 hdue
        have hin := List.mem_map_of_mem (f := LoopTimer.handle) hmem
        rw [h.pending, (of_decide_eq_true hhandle).1] at hin
        exact Option.mem_toList.1 hin
      refine Stored.beginPass ?_
      exact stored_of_none (filter_stored h.pending hfired) rfl h.stops
    · cases hstep
  | note id due =>
    rw [LoopState.step, Option.some.injEq] at hstep
    exact hstep ▸ h.congr rfl rfl rfl rfl
  | finishRun id =>
    simp only [LoopState.step] at hstep
    split at hstep
    · rw [Option.some.injEq] at hstep
      subst hstep
      refine Stored.requestWake ?_
      exact h.congr rfl rfl rfl rfl
    · cases hstep
  | stop =>
    rw [LoopState.step, Option.some.injEq] at hstep
    exact hstep ▸ h.stop
  | stopped call =>
    simp only [LoopState.step, Option.bind_eq_some_iff] at hstep
    obtain ⟨awaited, hcall, hstep⟩ := hstep
    split at hstep
    · rw [Option.some.injEq] at hstep
      subst hstep
      -- a call of `stop()` that is under way has left `running` behind
      have hstatus : s.status ≠ .running := by
        intro hrunning
        rw [h.stops hrunning] at hcall
        cases hcall
      exact ⟨h.pending, fun _ => h.running hstatus, fun hstopped => by cases hstopped⟩
    · cases hstep
  | tick ms =>
    rw [LoopState.step, Option.some.injEq] at hstep
    exact hstep ▸ h.congr rfl rfl rfl rfl

/-- A pass that stores a second timer leaves two pending. -/
theorem two_pending (h : s.Stored) (hstep : s.step e = some s') (harms : s.Arms e)
    (htimer : s.timer ≠ none) : s'.pending.length = 2 := by
  cases e with
  | resume pass keys =>
    simp only [LoopState.step, Option.map_eq_some_iff] at hstep
    obtain ⟨now, -, rfl⟩ := hstep
    let left : LoopState := { s with passes := s.passes.eraseIdx pass }
    -- the pass adds its timer to the one that is pending already
    obtain ⟨-, -, -, timer, -, hpending⟩ := @endPass_running left now keys harms.2
    have hlength : s.pending.length = 1 := by
      rw [← List.length_map LoopTimer.handle, h.pending]
      obtain ⟨handle, hhandle⟩ := Option.ne_none_iff_exists'.1 htimer
      rw [hhandle, Option.toList_some, List.length_singleton]
    rw [hpending, List.length_append, List.length_singleton]
    exact congrArg (· + 1) hlength
  | _ => exact False.elim harms

theorem Arms.step (h : s.Arms e) : ∃ s', s.step e = some s' := by
  cases e with
  | resume pass keys =>
    have hpass : s.passes[pass]? = some (s.passes.get ⟨pass, h.1⟩) :=
      List.getElem?_eq_getElem h.1
    simp only [LoopState.step, hpass, Option.map_some]
    exact ⟨_, rfl⟩
  | _ => exact False.elim h

theorem after_cons (events : List LoopEvent) (hstep : s.step e = some s') :
    s.after (e :: events) = s'.after events := by
  rw [LoopState.after, hstep, Option.bind_some]

/-- The two sides agree in every run from a state whose pending timer is stored. -/
theorem Stored.run_iff (h : s.Stored) (events : List LoopEvent) :
    (∀ earlier later t, events = earlier ++ later → s.after earlier = some t → t.OneTimer) ↔
      ∀ earlier e later t, events = earlier ++ e :: later → s.after earlier = some t →
        t.Arms e → t.timer = none := by
  induction events generalizing s with
  | nil =>
    constructor
    · intro _ earlier e later t hsplit
      exact absurd hsplit.symm (by simp)
    · intro _ earlier later t hsplit hafter
      obtain ⟨rfl, -⟩ := List.append_eq_nil_iff.1 hsplit.symm
      rw [after_nil, Option.some.injEq] at hafter
      exact hafter ▸ h.oneTimer
  | cons e events ih =>
    constructor
    · intro hone
      -- the first event arms no second timer, else two are pending after it
      have hfirst : s.Arms e → s.timer = none := by
        intro harms
        by_contra htimer
        obtain ⟨s', hstep⟩ := harms.step
        have htwo := two_pending h hstep harms htimer
        have hbound := (hone [e] events s' rfl (by rw [after_cons [] hstep, after_nil])).one
        omega
      intro earlier e' later t hsplit hafter harms
      cases earlier with
      | nil =>
        obtain ⟨rfl, -⟩ := List.cons.inj hsplit
        rw [after_nil, Option.some.injEq] at hafter
        subst hafter
        exact hfirst harms
      | cons e₁ earlier =>
        obtain ⟨rfl, hrest⟩ := List.cons.inj hsplit
        cases hstep : s.step e with
        | none => simp [LoopState.after, hstep] at hafter
        | some s' =>
          rw [after_cons earlier hstep] at hafter
          refine (ih (h.step hstep hfirst)).1 ?_ earlier e' later t hrest hafter harms
          intro earlier later t hsplit hafter
          exact hone (e :: earlier) later t (by rw [hsplit, List.cons_append])
            ((after_cons earlier hstep).trans hafter)
    · intro harms earlier later t hsplit hafter
      cases earlier with
      | nil =>
        rw [after_nil, Option.some.injEq] at hafter
        exact hafter ▸ h.oneTimer
      | cons e₁ earlier =>
        obtain ⟨rfl, hrest⟩ := List.cons.inj hsplit
        cases hstep : s.step e with
        | none => simp [LoopState.after, hstep] at hafter
        | some s' =>
          rw [after_cons earlier hstep] at hafter
          refine (ih (h.step hstep (harms [] e events s rfl rfl))).2 ?_ earlier later t hrest
            hafter
          intro earlier e' later t hsplit hafter
          exact harms (e :: earlier) e' later t (by rw [hsplit, List.cons_append])
            ((after_cons earlier hstep).trans hafter)

theorem started_stored (now : Int) : (started now).Stored :=
  stored_of_none rfl rfl fun _ => rfl

/-! ## Passes that do not overlap -/

/-- At most one pass waits for `allKeys()`, and no timer is stored meanwhile. -/
structure Alone (s : LoopState) : Prop where
  one : s.passes.length ≤ 1
  timer : s.passes ≠ [] → s.timer = none

/-- The event begins a pass. -/
def Begins (s : LoopState) : LoopEvent → Prop
  | .microtask => s.microtasks ≠ 0 ∧ s.status = .running
  | .fire handle =>
    (s.pending.any fun timer => timer.handle = handle ∧ timer.due ≤ s.clock) = true ∧
      s.status = .running
  | _ => False

theorem Alone.beginPass (h : s.Alone) (hpasses : s.status = .running → s.passes = []) :
    s.beginPass.Alone := by
  have hclear : s.clearTimer.passes = s.passes := by
    rw [LoopState.clearTimer]
    split <;> rfl
  have hnone : s.clearTimer.timer = none := by
    rw [LoopState.clearTimer]
    split
    · rfl
    · assumption
  rw [LoopState.beginPass]
  split
  · exact h
  · next hrunning =>
    refine ⟨?_, fun _ => hnone⟩
    have hempty := hpasses (not_not.1 hrunning)
    simp [hclear, hempty]

theorem Alone.leave (h : s.Alone) (pass : Nat) (hpass : pass < s.passes.length) :
    s.passes.eraseIdx pass = [] := by
  have hone := h.one
  refine List.eq_nil_of_length_eq_zero ?_
  rw [List.length_eraseIdx_of_lt hpass]
  omega

theorem alone_of_nil (h : s.passes = []) : s.Alone where
  one := by rw [h]; exact Nat.zero_le 1
  timer hne := absurd h hne

theorem endPass_passes (now : Int) (keys : List String) :
    (s.endPass now keys).passes = s.passes := by
  obtain ⟨-, -, -, -, hpasses⟩ := foldl_startDue now keys (s, now + maxSleepMs)
  simp only [endPass]
  split <;> exact hpasses

/-- A pass stays alone when the next one waits for it. -/
theorem Alone.step (h : s.Alone) (hstep : s.step e = some s')
    (hbegins : s.Begins e → s.passes = []) : s'.Alone := by
  cases e with
  | requestWake =>
    rw [LoopState.step, Option.some.injEq] at hstep
    rw [← hstep, LoopState.requestWake]
    split
    · exact h
    · exact ⟨h.one, h.timer⟩
  | microtask =>
    simp only [LoopState.step] at hstep
    split at hstep
    · cases hstep
    · next hqueued =>
      rw [Option.some.injEq] at hstep
      subst hstep
      -- the new pass is the only one, since it waits for the others
      exact Alone.beginPass ⟨h.one, h.timer⟩ fun hrunning => hbegins ⟨hqueued, hrunning⟩
  -- the only pass leaves: none is left
  | resume pass keys =>
    simp only [LoopState.step, Option.map_eq_some_iff] at hstep
    obtain ⟨now, hpass, rfl⟩ := hstep
    have hlt := (List.getElem?_eq_some_iff.1 hpass).1
    exact alone_of_nil ((endPass_passes now keys).trans (h.leave pass hlt))
  | reject pass =>
    simp only [LoopState.step, Option.map_eq_some_iff] at hstep
    obtain ⟨now, hpass, rfl⟩ := hstep
    have hlt := (List.getElem?_eq_some_iff.1 hpass).1
    exact alone_of_nil (h.leave pass hlt)
  | fire handle =>
    simp only [LoopState.step] at hstep
    split at hstep
    · next hdue =>
      rw [Option.some.injEq] at hstep
      subst hstep
      exact Alone.beginPass ⟨h.one, fun _ => rfl⟩ fun hrunning => hbegins ⟨hdue, hrunning⟩
    · cases hstep
  | note id due =>
    rw [LoopState.step, Option.some.injEq] at hstep
    exact hstep ▸ ⟨h.one, h.timer⟩
  | finishRun id =>
    simp only [LoopState.step] at hstep
    split at hstep
    · rw [Option.some.injEq] at hstep
      rw [← hstep, LoopState.finishRun, LoopState.requestWake]
      split <;> exact ⟨h.one, h.timer⟩
    · cases hstep
  | stop =>
    rw [LoopState.step, Option.some.injEq] at hstep
    rw [← hstep, LoopState.stop]
    have hclear : ∀ t : LoopState, t.Alone → t.clearTimer.Alone := by
      intro t ht
      rw [LoopState.clearTimer]
      split
      · exact ⟨ht.one, fun _ => rfl⟩
      · exact ht
    have hstopping := hclear { s with status := .stopping } ⟨h.one, h.timer⟩
    split
    · exact ⟨h.one, h.timer⟩
    · dsimp only
      split <;> exact ⟨hstopping.one, hstopping.timer⟩
  | stopped call =>
    simp only [LoopState.step, Option.bind_eq_some_iff] at hstep
    obtain ⟨awaited, -, hstep⟩ := hstep
    split at hstep
    · rw [Option.some.injEq] at hstep
      exact hstep ▸ ⟨h.one, h.timer⟩
    · cases hstep
  | tick ms =>
    rw [LoopState.step, Option.some.injEq] at hstep
    exact hstep ▸ ⟨h.one, h.timer⟩

/-- While passes do not overlap, none comes back to find a timer stored. -/
theorem Alone.run (h : s.Alone) {events : List LoopEvent}
    (hbegins : ∀ earlier e later t, events = earlier ++ e :: later → s.after earlier = some t →
      t.Begins e → t.passes = [])
    {earlier later : List LoopEvent} {t : LoopState} (hsplit : events = earlier ++ e :: later)
    (hafter : s.after earlier = some t) (harms : t.Arms e) : t.timer = none := by
  induction earlier generalizing s events with
  | nil =>
    rw [after_nil, Option.some.injEq] at hafter
    subst hafter
    cases e with
    | resume pass keys =>
      refine h.timer fun hnil => ?_
      have hlt := harms.1
      rw [hnil] at hlt
      exact Nat.not_lt_zero _ hlt
    | _ => exact False.elim harms
  | cons e₁ earlier ih =>
    cases hstep : s.step e₁ with
    | none => simp [LoopState.after, hstep] at hafter
    | some s₁ =>
      rw [after_cons earlier hstep] at hafter
      refine ih (h.step hstep (hbegins [] e₁ _ s hsplit rfl)) ?_ rfl hafter
      intro earlier' e' later' t' hsplit' hafter' hbegins'
      refine hbegins (e₁ :: earlier') e' later' t' ?_ ((after_cons earlier' hstep).trans hafter')
        hbegins'
      rw [hsplit, List.cons_append, hsplit', List.cons_append]

/-- Passes that do not overlap keep one timer. -/
theorem one_timer_of_alone (now : Int) {events : List LoopEvent}
    (hbegins : ∀ earlier e later s, events = earlier ++ e :: later →
      (started now).after earlier = some s → s.Begins e → s.passes = [])
    {earlier later : List LoopEvent} (hsplit : events = earlier ++ later)
    (hafter : (started now).after earlier = some s) : s.OneTimer := by
  have halone : (started now).Alone := alone_of_nil rfl
  refine ((started_stored now).run_iff events).2 ?_ earlier later s hsplit hafter
  intro earlier e later t hsplit hafter harms
  exact halone.run hbegins hsplit hafter harms

end LoopState

/-- In every state of a run at most one timer of `loop` is pending, and none after `stop`, exactly
when no pass comes back from `allKeys()` to a running daemon that has a timer stored. -/
theorem one_loop_timer_iff (now : Int) (events : List LoopEvent) :
    (∀ earlier later s, events = earlier ++ later →
        (LoopState.started now).after earlier = some s → s.OneTimer) ↔
      ∀ earlier e later s, events = earlier ++ e :: later →
        (LoopState.started now).after earlier = some s → s.Arms e → s.timer = none :=
  (LoopState.started_stored now).run_iff events

/-- Two wakes, each before the pass of the other comes back, leave two timers; `stop` clears one. -/
def overlappingPasses : List LoopEvent :=
  [.requestWake, .microtask, .requestWake, .microtask, .resume 0 [], .resume 0 []]

theorem loop_timer_lost :
    (((LoopState.started 0).after overlappingPasses).map fun s => s.pending.length) = some 2 ∧
      (((LoopState.started 0).after (overlappingPasses ++ [.stop])).map fun s =>
        (s.status, s.pending.length)) = some (.stopped, 1) := by
  decide

end Watukuy
