import Watukuy.Cursor.Backfill
import Watukuy.Cycle.Turns

/-!
# The page loop over a keyset API

The walks of a keyset API are what the page loop of `runCycle` does with the cursor of its lane when
the fetch function asks the API for one page a call: `Turns.cycle` for the live lane,
`Turns.backfill` for a backfill. A turn reads the clock when its page arrives.
-/

set_option autoImplicit false

namespace Watukuy

open Library

namespace Feed

variable {K : Type} [LinearOrder K] {ids : IdKind K}

/-- The page of a fetch function for a cursor. -/
def answer (f : Feed ids) (cursor : CursorVal) : Page (Entry K) where
  items := f.page cursor
  hasMore := some (f.hasMore cursor)

/-- A cycle whose pages arrive at the times `clock`. -/
def cycleBy (f : Feed ids) (clock : Nat → Int) (cursor : CursorVal) : Nat → Except JsError (Walk K)
  | 0 => .ok { cursor, done := false, fetched := [] }
  | n + 1 => do
    let w ← cycleBy f clock cursor n
    if w.done then return w
    else
      let asked ←
        if n = 0 then (timestampStrategy f.config).forFetch w.cursor (clock n) else .ok w.cursor
      f.request asked (clock n) w

/-- The same poller with a clock that does not go back. -/
def withClock (f : Feed ids) (clock : Nat → Int) : Feed ids :=
  { f with start := clock 0, elapsed := fun n => (clock (n + 1) - clock n).toNat }

theorem now_withClock (f : Feed ids) {clock : Nat → Int} (h : Monotone clock) (n : Nat) :
    (f.withClock clock).now n = clock n := by
  induction n with
  | zero => rfl
  | succ n ih =>
    have hle : clock n ≤ clock (n + 1) := h (Nat.le_succ n)
    rw [now, ih]
    simp only [withClock]
    omega

/-- At the times of a clock that does not go back, it is the cycle of such a poller. -/
theorem cycleBy_eq (f : Feed ids) {clock : Nat → Int} (h : Monotone clock) (cursor : CursorVal)
    (n : Nat) : f.cycleBy clock cursor n = (f.withClock clock).cycle cursor n := by
  induction n with
  | zero => rfl
  | succ n ih =>
    rw [cycleBy, cycle, ih, now_withClock f h]
    rfl

/-- Where nothing is rewound, a walk is a cycle from the initial cursor. -/
theorem walk_eq_cycle (f : Feed ids) (h : f.overlapMs ≤ 0) (n : Nat) :
    f.walk n = f.cycle (timestampStrategy f.config).initial n := by
  -- without an overlap the cursor asked with is the lane's own
  have hsame : ∀ cursor t, (timestampStrategy f.config).forFetch cursor t = .ok cursor := by
    intro cursor t
    have hle : f.config.overlapMs ≤ 0 := h
    simp only [timestampStrategy, if_pos hle]
    split <;> rfl
  induction n with
  | zero => rfl
  | succ n ih =>
    rw [walk, cycle, ih]
    refine congrArg _ (funext fun w => ?_)
    rw [hsame, ite_self]
    rfl

theorem cycleBy_congr (f : Feed ids) {clock clock' : Nat → Int} {cursor : CursorVal} {n : Nat}
    (h : ∀ k < n, clock k = clock' k) : f.cycleBy clock cursor n = f.cycleBy clock' cursor n := by
  induction n with
  | zero => rfl
  | succ n ih =>
    rw [cycleBy, cycleBy, ih fun k hk => h k (hk.trans (Nat.lt_succ_self n)), h n (Nat.lt_succ_self n)]

/-- The turn after a page that was not the last. -/
theorem cycleBy_succ (f : Feed ids) {clock : Nat → Int} {cursor asked : CursorVal} {n : Nat}
    {w : Walk K} (hw : f.cycleBy clock cursor n = .ok w) (hdone : w.done = false)
    (hasked : (if n = 0 then (timestampStrategy f.config).forFetch w.cursor (clock n)
      else .ok w.cursor) = .ok asked) :
    f.cycleBy clock cursor (n + 1) = f.request asked (clock n) w := by
  rw [cycleBy, hw]
  simp only [bind, Except.bind, hdone, Bool.false_eq_true, if_false]
  by_cases hzero : n = 0
  · rw [if_pos hzero] at hasked ⊢
    rw [hasked]
  · rw [if_neg hzero] at hasked ⊢
    rw [Except.ok.inj hasked]

/-- A request whose `advance` is known. -/
theorem request_of_advance (f : Feed ids) {asked : CursorVal} {t : Int} {w : Walk K}
    {adv : AdvanceResult (Entry K)}
    (h : (timestampStrategy f.config).advance w.cursor
      { items := f.page asked, pageCursor := none, hasMore := some (f.hasMore asked), now := t } =
        .ok adv) :
    f.request asked t w =
      .ok { cursor := adv.cursor, done := adv.done, fetched := w.fetched ++ f.page asked } := by
  rw [request, h]
  rfl

end Feed

section

variable {K : Type} [LinearOrder K] {ids : IdKind K} {f : Feed ids} {c : Cycle (Entry K)}
  {s s' : CycleLocals} {asked : List CursorVal} {next : CursorVal} {t : Int}

theorem strategy_of_config (hconfig : c.config = .timestamp f.config) :
    c.strategy = timestampStrategy f.config := by
  rw [Cycle.strategy, hconfig]
  rfl

/-- What a turn asks with; the timestamp strategy does not look at the clock for it. -/
theorem LoopTurn.asks {api : CursorVal → Page (Entry K)} (hconfig : c.config = .timestamp f.config)
    (h : LoopTurn c api s next s' t) :
    (if s.summary.pages = 0 then (timestampStrategy f.config).forFetch s.cursor t else .ok s.cursor) =
      .ok next := by
  split
  · next hpages =>
    obtain ⟨t₀, hfirst⟩ := h.first hpages
    rw [strategy_of_config hconfig] at hfirst
    exact hfirst
  · next hpages => rw [h.later hpages]

/-- The turns of a live lane are a cycle, at the times the pages arrived. -/
theorem LoopTurns.cycle (hconfig : c.config = .timestamp f.config) (hlane : c.lane ≠ .backfill)
    (hfresh : s.summary.pages = 0) (hdone : s.done = false) (h : LoopTurns c f.answer s asked s') :
    ∃ clock w, f.cycleBy clock s.cursor asked.length = .ok w ∧ s'.cursor = w.cursor ∧
      w.fetched = asked.flatMap f.page ∧ s'.summary.pages = asked.length ∧
      (s'.done = w.done ∨ s'.halted = true ∧ s'.done = true) := by
  -- a turn is one more page of the cycle; the turns before it have left the clock alone
  induction h with
  | start => exact ⟨fun _ => 0, _, rfl, rfl, rfl, hfresh, Or.inl hdone⟩
  | @turn s₁ s₂ asked next t h hmore hturn ih =>
    obtain ⟨clock, w, hw, hcursor, hfetched, hpages, hend⟩ := ih
    have hwdone : w.done = false := by
      rcases hend with heq | ⟨-, hset⟩
      · rw [← heq, hmore]
      · rw [hmore] at hset
        cases hset
    obtain ⟨adv, reached, hadv, hreached, hmoved, hset⟩ := hturn.advanced.moved
    -- only a backfill stops at its target
    have hlive : reached = false := by
      unfold targetReached at hreached
      split at hreached
      · rw [if_neg hlane] at hreached
        exact (Except.ok.inj hreached).symm
      · exact (Except.ok.inj hreached).symm
    have hasks := hturn.asks hconfig
    rw [hpages, hcursor] at hasks
    rw [strategy_of_config hconfig, hcursor] at hadv
    -- the clock of the turns so far, and `t` for this one
    refine ⟨Function.update clock asked.length t,
      { cursor := adv.cursor, done := adv.done, fetched := w.fetched ++ f.page next },
      ?_, hmoved, ?_, ?_, ?_⟩
    · have hbefore : f.cycleBy (Function.update clock asked.length t) s.cursor asked.length = .ok w := by
        rw [← hw]
        exact f.cycleBy_congr fun k hk => Function.update_of_ne hk.ne _ _
      have hclock : Function.update clock asked.length t asked.length = t := Function.update_self ..
      rw [List.length_append, List.length_singleton,
        f.cycleBy_succ hbefore hwdone (by rw [hclock]; exact hasks), hclock]
      exact f.request_of_advance hadv
    · rw [hfetched, List.flatMap_append]
      simp
    · rw [hturn.advanced.pages, hpages, List.length_append]
      rfl
    · rw [hlive, Bool.or_false] at hset
      exact hset

/-- A fresh cycle of a live lane over the API, however it is interrupted. -/
theorem scan_cycle (hconfig : c.config = .timestamp f.config) (hlane : c.lane ≠ .backfill)
    (hfresh : s.summary.pages = 0) (hdone : s.done = false) (fuel : Nat) :
    Block.wp (fetchLog (Entry K)) (scan c fuel)
      (fun _ s' log => Answered f.answer log → ∃ clock w,
        f.cycleBy clock s.cursor log.length = .ok w ∧ s'.cursor = w.cursor ∧
        w.fetched = log.flatMap (fun x => f.page x.1.cursor) ∧
        (s'.done = w.done ∨ s'.halted = true ∧ s'.done = true))
      (fun _ _ _ => True) s [] := by
  refine Block.wp_mono (fun _ s' log h hanswered => ?_) (fun _ _ _ h => h)
    (scan_turns fuel (LoopTurns.start : LoopTurns c f.answer s [] s))
  obtain ⟨last, hturns, hs'⟩ := h hanswered
  obtain ⟨clock, w, hw, hcursor, hfetched, -, hend⟩ := hturns.cycle hconfig hlane hfresh hdone
  rw [List.length_map] at hw
  rw [List.flatMap_map] at hfetched
  refine ⟨clock, w, hw, ?_⟩
  rcases hs' with rfl | rfl
  · exact ⟨hcursor, hfetched, hend⟩
  · exact ⟨hcursor, hfetched, hend⟩

end

/-! ## The backfill lane -/

section

variable {b : BackfillLane} {c : Cycle (Entry UnitText)} {s s' : CycleLocals}
  {asked : List CursorVal}

theorem BackfillLane.runFrom_snoc (b : BackfillLane) (st : BackfillState) (xs : List BackfillTurn)
    (x : BackfillTurn) : b.runFrom st (xs ++ [x]) = (b.runFrom st xs).bind (b.turn · x) := by
  induction xs generalizing st with
  | nil =>
    simp only [List.nil_append, BackfillLane.runFrom, bind, Except.bind]
    cases b.turn st x <;> rfl
  | cons y xs ih =>
    simp only [List.cons_append, BackfillLane.runFrom, bind, Except.bind]
    cases b.turn st y with
    | error e => rfl
    | ok st' => exact ih st'

/-- The turns of a cycle of the backfill lane, from where the lane stands. -/
theorem LoopTurns.backfill (hconfig : c.config = .timestamp b.config) (hlane : c.lane = .backfill)
    (htarget : c.target = some b.target) {st : BackfillState} (hcursor : st.cursor = s.cursor)
    (hdone : st.done = s.done) (h : LoopTurns c b.toFeed.answer s asked s') :
    ∃ xs st', b.runFrom st xs = .ok st' ∧ s'.cursor = st'.cursor ∧
      st'.fetched = st.fetched ++ asked.flatMap b.page ∧
      (s'.done = st'.done ∨ s'.halted = true ∧ s'.done = true) := by
  induction h with
  | start => exact ⟨[], st, rfl, hcursor.symm, by simp, Or.inl hdone.symm⟩
  | @turn s₁ s₂ asked next t h hmore hturn ih =>
    obtain ⟨xs, st₁, hrun, hcursor₁, hfetched, hend⟩ := ih
    have hstdone : st₁.done = false := by
      rcases hend with heq | ⟨-, hset⟩
      · rw [← heq, hmore]
      · rw [hmore] at hset
        cases hset
    obtain ⟨adv, reached, hadv, hreached, hmoved, hset⟩ := hturn.advanced.moved
    have hasks := hturn.asks hconfig
    rw [hcursor₁] at hasks
    rw [strategy_of_config hconfig, hcursor₁] at hadv
    -- the lane's target is the one its model stops at
    have hgoal : (timestampStrategy b.config).reached adv.cursor b.target = .ok reached := by
      rw [← hreached, targetReached, htarget, strategy_of_config hconfig]
      exact (if_pos hlane).symm
    have hasked : b.fetchCursor ⟨decide (s₁.summary.pages = 0), t⟩ st₁.cursor = .ok next := by
      simpa [BackfillLane.fetchCursor] using hasks
    refine ⟨xs ++ [⟨decide (s₁.summary.pages = 0), t⟩],
      { cursor := adv.cursor, done := adv.done || reached
        fetched := st₁.fetched ++ b.page next, pages := st₁.pages ++ [adv.items] },
      ?_, hmoved, ?_, hset⟩
    · rw [b.runFrom_snoc, hrun]
      show b.turn st₁ _ = _
      have hadv' : (timestampStrategy b.config).advance st₁.cursor
          { items := b.page next, pageCursor := none, hasMore := some (b.hasMore next), now := t } =
            .ok adv := hadv
      simp only [BackfillLane.turn, hstdone, Bool.false_eq_true, if_false, hasked, bind, Except.bind,
        hadv', hgoal]
      rfl
    · rw [hfetched, List.flatMap_append, List.append_assoc]
      simp

end

end Watukuy
