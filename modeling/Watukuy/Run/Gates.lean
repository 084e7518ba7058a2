import Watukuy.Run.Completion

/-!
# The gates of the lanes

A throttle and an open circuit gate the live lane: it fetches only when the schedule is due. The
reconcile and backfill lanes look at neither. In a run that begins their cycles only past the gates,
no fetch of any lane is gated, for the schedule as the execution has it in memory when it fetches.
-/

set_option autoImplicit false

namespace Watukuy

open Library LaneView

variable {ι : Type}

/-- At the time `t` the schedule is throttled, or the circuit is open and not to be probed yet. -/
def Gated (s : ScheduleState) (t : Int) : Prop :=
  (∃ until_ ∈ s.throttledUntil, t < until_) ∨ (s.circuit = .open ∧ ∃ due ∈ s.nextDueAt, t < due)

/-- Once open, a gate stays open. -/
theorem gated_mono {s : ScheduleState} {t u : Int} (h : Gated s u) (htu : t ≤ u) : Gated s t := by
  rcases h with ⟨until_, hs, hlt⟩ | ⟨hopen, due, hs, hlt⟩
  · exact Or.inl ⟨until_, hs, htu.trans_lt hlt⟩
  · exact Or.inr ⟨hopen, due, hs, htu.trans_lt hlt⟩

/-- A probe of a schedule that is due passes the gates. -/
theorem beginProbe_not_gated {s : ScheduleState} {t : Int} (h : isDue s t = true) :
    ¬Gated (beginProbe s) t := by
  have hdue : (∀ until_ ∈ s.throttledUntil, until_ ≤ t) ∧ ∀ due ∈ s.nextDueAt, due ≤ t := by
    cases hn : s.nextDueAt <;> cases hu : s.throttledUntil <;> simp [isDue, hn, hu] at h ⊢ <;> omega
  have hkept : (beginProbe s).throttledUntil = s.throttledUntil := by
    unfold beginProbe
    split <;> rfl
  rintro (⟨until_, hs, hlt⟩ | ⟨hopen, due, hs, hlt⟩)
  · rw [hkept] at hs
    exact absurd hlt (not_lt.2 (hdue.1 until_ hs))
  · unfold beginProbe at hopen
    split at hopen
    · cases hopen
    · contradiction

/-- The schedule in memory lets a fetch pass, from the latest reading of the clock on. -/
def LaneView.Open (v : LaneView ι) : Prop :=
  ∀ s, v.schedule = some s → ∀ t, v.Past t → ¬Gated s t

instance (s : ScheduleState) (t : Int) : Decidable (Gated s t) := by
  unfold Gated
  infer_instance

/-- What is open at the latest reading of the clock is open from then on. -/
theorem open_iff (v : LaneView ι) {u : Int} (hclock : v.clock = some u) :
    v.Open ↔ ∀ s ∈ v.schedule, ¬Gated s u := by
  have hlatest : v.Past u := by
    intro t ht
    rw [hclock] at ht
    exact (Option.some.inj ht).ge
  constructor
  · intro h s hs
    exact h s hs u hlatest
  · intro h s hs t ht hgated
    exact h s hs (gated_mono hgated (ht u hclock))

/-- Before the first reading of the clock, open means that there is nothing to wait for. -/
theorem open_iff_none (v : LaneView ι) (hclock : v.clock = none) :
    v.Open ↔ ∀ s ∈ v.schedule, s.throttledUntil = none ∧ (s.circuit = .open → s.nextDueAt = none) := by
  have hany : ∀ t, v.Past t := by
    intro t u hu
    rw [hclock] at hu
    cases hu
  constructor
  · intro h s hs
    refine ⟨?_, ?_⟩
    · cases hu : s.throttledUntil with
      | none => rfl
      | some u => exact absurd (Or.inl ⟨u, hu, by omega⟩) (h s hs (u - 1) (hany _))
    · intro hopen
      cases hu : s.nextDueAt with
      | none => rfl
      | some u => exact absurd (Or.inr ⟨hopen, u, hu, by omega⟩) (h s hs (u - 1) (hany _))
  · intro h s hs t _ hgated
    obtain ⟨hnone, hdue⟩ := h s hs
    rcases hgated with ⟨u, hu, -⟩ | ⟨hopen, u, hu, -⟩
    · rw [hnone] at hu
      cases hu
    · rw [hdue hopen] at hu
      cases hu

instance (v : LaneView ι) : Decidable v.Open :=
  match hclock : v.clock with
  | some _ => decidable_of_iff _ (open_iff v hclock).symm
  | none => decidable_of_iff _ (open_iff_none v hclock).symm

/-- No lane fetches while it is gated. -/
def FetchesOpen (d : Deployment ι) (pre : List (Label (system ι))) : Label (system ι) → Prop
  | .act t (.fetch _ _) _ _ => (laneAt d t pre).Open
  | _ => True

/-- A reconcile or backfill cycle begins past the gates. -/
def BeginsOpen (d : Deployment ι) (pre : List (Label (system ι))) : Label (system ι) → Prop
  | .act t (.pollStart lane) _ _ => lane ≠ .live → (laneAt d t pre).Open
  | _ => True

instance (d : Deployment ι) (pre : List (Label (system ι))) (l : Label (system ι)) :
    Decidable (FetchesOpen d pre l) := by
  unfold FetchesOpen
  rcases l with _ | ⟨t, o, ch, a⟩ | _
  · infer_instance
  · rcases o <;> infer_instance
  · infer_instance

instance (d : Deployment ι) (pre : List (Label (system ι))) (l : Label (system ι)) :
    Decidable (BeginsOpen d pre l) := by
  unfold BeginsOpen
  rcases l with _ | ⟨t, o, ch, a⟩ | _
  · infer_instance
  · rcases o <;> infer_instance
  · infer_instance

/-! ## From the beginning of a cycle to its fetches -/

namespace LaneView

variable {d : Deployment ι} {v : LaneView ι}

/-- The schedule the cycle began with lets a fetch pass. -/
def Admitted (v : LaneView ι) : Prop :=
  ∀ s, v.opened = some s → ∀ t, v.Past t → ¬Gated s t

theorem Admitted.later {w : LaneView ι} (h : v.Admitted) (hopened : w.opened = v.opened)
    (hpast : ∀ t, w.Past t → v.Past t) : w.Admitted := by
  intro s hs t ht
  exact h s (hopened ▸ hs) t (hpast t ht)

theorem tick_past {t u : Int} (h : (v.tick d t).Past u) : v.Past u := by
  intro w hw
  have hmax : w ≤ max t w := Int.le_max_right t w
  exact hmax.trans (h _ (by simp [tick, hw]))

theorem read_opened (t : Int) : (v.read d t).opened = v.opened ∧
    (v.read d t).clock = (v.tick d t).clock := by
  unfold read
  split
  · exact ⟨rfl, rfl⟩
  · unfold advance
    split
    · split <;> exact ⟨rfl, rfl⟩
    · exact ⟨rfl, rfl⟩

theorem learnStore_opened (o : StoreOp ι) (a : Except JsError o.Result) :
    (v.learnStore o a).opened = v.opened ∧ (v.learnStore o a).clock = v.clock := by
  cases o <;> cases a <;> exact ⟨rfl, rfl⟩

/-- Only the beginning of a cycle changes the schedule it began with. -/
theorem Admitted.learn (h : v.Admitted) {o : Op ι} (a : Ans o)
    (hbegin : ∀ lane, o = .pollStart lane → (v.begin d lane).Admitted) : (v.learn d o a).Admitted := by
  cases o with
  | store o =>
    obtain ⟨hopened, hclock⟩ := learnStore_opened (v := v) o a
    refine h.later hopened ?_
    intro t ht u hu
    exact ht u (hclock.trans hu)
  | now =>
    obtain ⟨hopened, hclock⟩ := read_opened (d := d) (v := v) a
    refine h.later hopened ?_
    intro t ht
    apply tick_past (d := d) (t := a)
    intro u hu
    exact ht u (hclock.trans hu)
  | pollStart lane => exact hbegin lane rfl
  | joinRound i => cases a <;> exact h
  | diverge => exact a.elim
  | _ => exact h

/-- A cycle of the live lane begins due. -/
theorem begin_admitted_live (h : v.Due) : (v.begin d .live).Admitted := by
  obtain ⟨s, hs, hdue⟩ := h
  intro s' hs' t ht
  have hprobe : some (beginProbe s) = some s' := by
    rw [← hs']
    simp [begin, hs]
  rw [← Option.some.inj hprobe]
  exact beginProbe_not_gated (hdue t ht)

theorem begin_admitted {lane : Lane} (hlane : lane ≠ .live) (h : v.Open) : (v.begin d lane).Admitted := by
  intro s hs t ht
  refine h s ?_ t ht
  rw [← hs]
  simp [begin, hlane]

end LaneView

section Runs

variable {d : Deployment ι} {S : EngineCall → Prop} {w : World ι} {tr : List (Label (system ι))}
  {c : Config (system ι)}

theorem laneAt_act (d : Deployment ι) (t t' : Nat) (tr : List (Label (system ι))) (o : Op ι)
    (ch : (system ι).Choice) (a : Ans o) :
    laneAt d t' (tr ++ [.act t o ch a]) =
      if t = t' then (laneAt d t tr).learn d o a else laneAt d t' tr := by
  by_cases h : t = t'
  · rw [if_pos h, ← h]
    exact observe_act_self t tr o ch a
  · rw [if_neg h]
    exact observe_act_ne h tr o ch a

/-- In a run whose reconcile and backfill cycles begin past the gates, every cycle does. -/
theorem all_admitted (hcalm : ∀ opts, S (.runKey opts) → opts.force = false)
    (h : Run (system ι) (d.entry S) w tr c) (hbegins : Throughout (BeginsOpen d) tr) (t : Nat) :
    (laneAt d t tr).Admitted := by
  have hobeys : Obeys (system ι) (d.entry S) (laneContract d False) {} := by
    refine obeysLanes d ?_
    intro opts hS hforce
    rw [hcalm opts hS] at hforce
    cases hforce
  refine Run.assume hobeys (J := fun tr _ => ∀ t, (laneAt d t tr).Admitted) ?_ ?_ ?_ ?_ h hbegins t
  · intro t s hs
    cases hs
  · intro tr c q _ hJ t
    rw [laneAt, observe_start]
    exact hJ t
  · intro tr c t o ch a w' _ hJ hallow _ hl t'
    rw [laneAt_act]
    split
    · rename_i ht
      refine (hJ t).learn a ?_
      rintro lane rfl
      by_cases hlane : lane = .live
      · subst hlane
        rcases hallow.2 rfl with hforced | hdue
        · exact hforced.elim
        · exact begin_admitted_live hdue
      · exact begin_admitted hlane (hl hlane)
    · exact hJ t'
  · intro tr c x _ hJ t
    rw [laneAt, observe_drift]
    exact hJ t

/-- In a run without forced executions whose reconcile and backfill cycles begin past the gates, no
lane fetches while the schedule is throttled or the circuit is open. -/
theorem fetches_past_gates (hcalm : ∀ opts, S (.runKey opts) → opts.force = false)
    (h : Run (system ι) (d.entry S) w tr c) (hbegins : Throughout (BeginsOpen d) tr) :
    Throughout (FetchesOpen d) tr := by
  intro pre l post htr
  subst htr
  cases l with
  | start p => trivial
  | drift x => trivial
  | act t o ch a =>
    cases o with
    | fetch lane ctx =>
      obtain ⟨c₁, k, w', hpre, ht, -⟩ := h.act_at
      have hallow : (laneContract d True).allow (laneAt d t pre) (.fetch lane ctx) :=
        hpre.allow (obeysLanes d fun _ _ _ => trivial) ht
      intro s hs
      exact all_admitted hcalm hpre hbegins.take t s (hallow.2.1 ▸ hs)
    | _ => trivial

end Runs

/-! ## Sample runs -/

/-- The API answers the live lane with 429 and `Retry-After: 1`. -/
def throttled : Op Sample → Choice Sample
  | .fetch .live _ =>
    .code (.raise
      { kind := .http 429 (some 1000) none, name := "HttpError", message := "HTTP 429" })
  | o => calm 20 (onePage []) o

/-- One execution of the reconciling deployment under a policy. -/
def reconcileOnce (policy : Op Sample → Choice Sample) : List (Scene Sample) :=
  [ .ask (instanceOf reconciling false) (.runKey { deadline := none, force := false }),
    .run 0 200 policy ]

/-- No execution is forced. -/
def Unforced : EngineCall → Prop
  | .runKey opts => opts.force = false
  | _ => True

theorem reconcileOnce_cast (policy : Op Sample → Choice Sample) :
    Cast reconciling Unforced (reconcileOnce policy) := .ask (instanceOf_in _ _) rfl (.run .nil)

set_option maxRecDepth 100000 in
/-- A 429 throttles the key until 1020, and the reconcile lane fetches at 20 all the same. -/
theorem throttled_reconcile_fetches : ∃ tr c,
    Run (system Sample) (reconciling.entry Unforced) (World.fresh reconciling.key) tr c ∧
    ¬Throughout (FetchesOpen reconciling) tr := by
  obtain ⟨tr, c, hrun, hcheck⟩ := play_run (reconcileOnce_cast throttled)
    (fun tr _ => decide (¬Throughout (FetchesOpen reconciling) tr)) (by decide +kernel)
  exact ⟨tr, c, hrun, of_decide_eq_true hcheck⟩

set_option maxRecDepth 100000 in
theorem fetches_past_gates_sample : ∃ tr c,
    Run (system Sample) (reconciling.entry Unforced) (World.fresh reconciling.key) tr c ∧
    Throughout (BeginsOpen reconciling) tr ∧ Throughout (FetchesOpen reconciling) tr := by
  obtain ⟨tr, c, hrun, hcheck⟩ := play_run (reconcileOnce_cast threePages)
    (fun tr _ => decide (Throughout (BeginsOpen reconciling) tr)) (by decide +kernel)
  have hbegins := of_decide_eq_true hcheck
  exact ⟨tr, c, hrun, hbegins, fetches_past_gates (fun _ h => h) hrun hbegins⟩

end Watukuy
