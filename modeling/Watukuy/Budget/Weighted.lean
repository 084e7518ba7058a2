import Mathlib.Algebra.Order.AbsoluteValue.Basic
import Mathlib.Tactic.Linarith
import Mathlib.Tactic.NormNum
import Watukuy.Budget.Fairness

/-!
# Weighted shares

While two requesters wait in one lane, the pump serves the one with the lower ratio of grants to
weight, so the difference of their ratios comes down to one grant each. The ratios are those of whole
lives: how far apart two requesters begin is how far one of them may get ahead.
-/

set_option autoImplicit false

namespace Watukuy

open Library

theorem Served.granted_count (served : Served) (w : Waiter) (grantSeq : Int) {r : String}
    (hr : (served.get r).isSome) :
    (served.granted w grantSeq).count r =
      served.count r + if r = w.requester then 1 else 0 := by
  simp only [Served.granted]
  split
  · next h =>
    subst h
    rw [Served.count, OrderedMap.get_set_self, ← requesterStats_count served w.requester w.weight hr]
    rfl
  · next h =>
    rw [Served.count, OrderedMap.get_set_ne _ h, Int.add_zero]
    exact (requesterStats_extends served w.requester w.weight).count r hr

theorem Served.granted_seen (served : Served) (w : Waiter) (grantSeq : Int) {r : String}
    (hr : (served.get r).isSome) : ((served.granted w grantSeq).get r).isSome := by
  simp only [Served.granted]
  by_cases h : r = w.requester
  · rw [h, OrderedMap.get_set_self]
    rfl
  · rw [OrderedMap.get_set_ne _ h]
    exact (requesterStats_extends served w.requester w.weight).seen r hr

def BudgetLabel.grants (requester : String) : BudgetLabel → Bool
  | .resolved w => w.requester = requester
  | _ => false

/-- The grants a requester receives. -/
def grantsTo (requester : String) (labels : List BudgetLabel) : Nat :=
  labels.countP (BudgetLabel.grants requester)

theorem grantsTo_append (requester : String) (labels labels' : List BudgetLabel) :
    grantsTo requester (labels ++ labels') = grantsTo requester labels + grantsTo requester labels' :=
  List.countP_append

theorem grantsTo_eq_zero {requester : String} {labels : List BudgetLabel}
    (h : ∀ w, .resolved w ∈ labels → w.requester ≠ requester) : grantsTo requester labels = 0 := by
  refine List.countP_eq_zero.2 fun label hlabel => ?_
  cases label with
  | resolved w => exact fun heq => h w hlabel (of_decide_eq_true heq)
  | _ => exact Bool.false_ne_true

namespace BudgetManager

variable {c : ManagerConfig} {s s' : BudgetManager} {w : Waiter}

/-- The requester waits in the lane, and all its requests have the weight. -/
structure Backlogged (s : BudgetManager) (requester : String) (weight : ℚ) (lane : Lane) : Prop where
  waits : s.Waits requester lane
  weight : ∀ x ∈ s.queue, x.requester = requester → x.weight = weight

instance (requester : String) (weight : ℚ) (lane : Lane) :
    Decidable (s.Backlogged requester weight lane) :=
  decidable_of_iff (s.Waits requester lane ∧ ∀ x ∈ s.queue, x.requester = requester → x.weight = weight)
    ⟨fun h => ⟨h.1, h.2⟩, fun h => ⟨h.1, h.2⟩⟩

/-- How far the ratio of `a` is ahead of that of `b`. -/
def lead (s : BudgetManager) (a b : String) (wa wb : ℚ) : ℚ :=
  s.served.count a / wa - s.served.count b / wb

/-- Both are known, and neither is ahead by more than one grant. -/
structure Level (s : BudgetManager) (a b : String) (wa wb : ℚ) : Prop where
  seen_a : (s.served.get a).isSome
  seen_b : (s.served.get b).isSome
  lower : -(1 / wb) ≤ s.lead a b wa wb
  upper : s.lead a b wa wb ≤ 1 / wa

instance (a b : String) (wa wb : ℚ) : Decidable (s.Level a b wa wb) :=
  decidable_of_iff ((s.served.get a).isSome ∧ (s.served.get b).isSome ∧
      -(1 / wb) ≤ s.lead a b wa wb ∧ s.lead a b wa wb ≤ 1 / wa)
    ⟨fun h => ⟨h.1, h.2.1, h.2.2.1, h.2.2.2⟩, fun h => ⟨h.1, h.2, h.3, h.4⟩⟩

theorem Grants.grantsTo {r : BudgetManager × List BudgetLabel} (h : Grants c s r w)
    (requester : String) : grantsTo requester r.2 = if requester = w.requester then 1 else 0 := by
  obtain ⟨rest, hlabels, hrest⟩ := h.shown
  have hzero : List.countP (BudgetLabel.grants requester) rest = 0 :=
    grantsTo_eq_zero fun x hx => absurd hx (hrest x)
  have htook : ¬BudgetLabel.grants requester (.took w.seq w.cost) = true := Bool.false_ne_true
  have hown : BudgetLabel.grants requester (.resolved w) = true ↔ requester = w.requester :=
    decide_eq_true_iff.trans eq_comm
  rw [hlabels, Watukuy.grantsTo, List.countP_cons, List.countP_cons, hzero, if_neg htook,
    Nat.zero_add, Nat.add_zero]
  exact if_congr hown rfl rfl

/-- The ratios change by the grants. -/
theorem count_step {e : BudgetEvent} {r : BudgetManager × List BudgetLabel}
    (hstep : s.step c e = some r) {requester : String} (hseen : (s.served.get requester).isSome) :
    (r.1.served.get requester).isSome ∧
      r.1.served.count requester = s.served.count requester + grantsTo requester r.2 := by
  rcases step_moves hstep with hmoves | ⟨w, hgrants⟩
  · refine ⟨hmoves.served.seen _ hseen, ?_⟩
    rw [hmoves.served.count _ hseen, grantsTo_eq_zero fun w hw => absurd hw (hmoves.ungranted w)]
    exact (Int.add_zero _).symm
  · have hgranted := Served.granted_seen s.served w s.grantSeq hseen
    refine ⟨hgrants.served.seen _ hgranted, ?_⟩
    rw [hgrants.served.count _ hgranted, Served.granted_count _ _ _ hseen, hgrants.grantsTo]
    split <;> rfl

theorem lead_step {a b : String} (wa wb : ℚ) {e : BudgetEvent}
    {r : BudgetManager × List BudgetLabel} (hstep : s.step c e = some r)
    (ha : (s.served.get a).isSome) (hb : (s.served.get b).isSome) :
    r.1.lead a b wa wb =
      s.lead a b wa wb + (grantsTo a r.2 / wa - grantsTo b r.2 / wb) := by
  rw [lead, lead, (count_step hstep ha).2, (count_step hstep hb).2]
  push_cast
  ring

/-- How far `a` may get ahead of `b`, from a lead of `d` on. -/
structure Bounded (s : BudgetManager) (a b : String) (wa wb : ℚ) (lane : Lane) (d : ℚ) : Prop where
  upper : s.lead a b wa wb ≤ 1 / wa + max 0 d
  taking : ∀ w, s.phase = .taking w → w.lane = lane → w.requester = a →
    s.lead a b wa wb ≤ max 0 d

section Weighted

variable {a b : String} {wa wb d : ℚ} {lane : Lane} (hfair : c.fairness = .weighted)

include hfair in
/-- Between two that wait in the lane, the one that is picked is not ahead. -/
theorem Least.not_ahead (h : s.Least c w) (hwaits : s.Backlogged a wa lane)
    (hother : s.Backlogged b wb lane) (ha : w.requester = a) (hlane : w.lane = lane) :
    s.lead a b wa wb ≤ 0 := by
  obtain ⟨x, hx, hunsettled, hrequester, hxlane⟩ := hother.waits
  have hle := h.le x hx hunsettled
  rw [Waiter.key, Waiter.key, hlane, hxlane, hfair, Prod.Lex.toLex_le_toLex,
    Prod.Lex.toLex_le_toLex] at hle
  simp only [lt_irrefl, true_and, false_or, Waiter.ratio, if_true, ha, hrequester,
    hwaits.weight w h.mem ha, hother.weight x hx hrequester] at hle
  exact sub_nonpos.2 (hle.elim le_of_lt fun h => h.1.le)

include hfair in
/-- Whoever gets ahead has been picked when it was not: it gets ahead by one grant. -/
theorem Bounded.step (h : s.Bounded a b wa wb lane d) (hab : a ≠ b) (hwb : 0 < wb)
    (ha : (s.served.get a).isSome) (hb : (s.served.get b).isSome) {e : BudgetEvent}
    {r : BudgetManager × List BudgetLabel} (hstep : s.step c e = some r)
    (hwaits : r.1.Backlogged a wa lane) (hother : r.1.Backlogged b wb lane)
    (hlane : ∀ w, .resolved w ∈ r.2 → w.requester = a → w.lane = lane) :
    r.1.Bounded a b wa wb lane d := by
  have hlead := lead_step wa wb hstep ha hb
  have hpicked : ∀ x, r.1.Least c x → x.lane = lane → x.requester = a →
      r.1.lead a b wa wb ≤ max 0 d := fun x hx hxlane hxa =>
    (hx.not_ahead hfair hwaits hother hxa hxlane).trans (le_max_left 0 d)
  rcases step_moves hstep with hmoves | ⟨w, hgrants⟩
  · have hsame : r.1.lead a b wa wb = s.lead a b wa wb := by
      rw [hlead, grantsTo_eq_zero fun w hw => absurd hw (hmoves.ungranted w),
        grantsTo_eq_zero fun w hw => absurd hw (hmoves.ungranted w)]
      simp
    refine ⟨hsame ▸ h.upper, fun x hx hxlane hxa => ?_⟩
    rcases hmoves.chosen x hx with hleast | hbefore
    · exact hpicked x hleast hxlane hxa
    · exact hsame ▸ h.taking x hbefore hxlane hxa
  · refine ⟨?_, fun x hx => hpicked x (hgrants.chosen x hx)⟩
    rw [hlead, hgrants.grantsTo, hgrants.grantsTo]
    by_cases hwa' : a = w.requester
    · -- the grant to `a`: the pick found it not ahead
      have htaking := h.taking w hgrants.taking
        (hlane w ((hgrants.resolved w).2 rfl) hwa'.symm) hwa'.symm
      rw [if_pos hwa', if_neg fun hwb' => hab (hwa'.trans hwb'.symm)]
      simp only [Nat.cast_one, Nat.cast_zero, zero_div, sub_zero]
      linarith
    · have hdown : 0 ≤ ((if b = w.requester then 1 else 0 : ℕ) : ℚ) / wb :=
        div_nonneg (Nat.cast_nonneg _) hwb.le
      have hupper := h.upper
      rw [if_neg hwa']
      simp only [Nat.cast_zero, zero_div, zero_sub]
      linarith

include hfair in
/-- Over a run the lead changes by the grants, and it stays bounded. -/
theorem Bounded.run (h : s.Bounded a b wa wb lane d) (hab : a ≠ b) (hwb : 0 < wb)
    (ha : (s.served.get a).isSome) (hb : (s.served.get b).isSome) {events : List BudgetEvent}
    {r : BudgetManager × List BudgetLabel} (hrun : s.run c events = some r)
    (hwaits : Throughout c (fun s => s.Backlogged a wa lane ∧ s.Backlogged b wb lane) s events)
    (hlane : ∀ w, .resolved w ∈ r.2 → w.requester = a → w.lane = lane) :
    r.1.Bounded a b wa wb lane d ∧
      r.1.lead a b wa wb =
        s.lead a b wa wb + (grantsTo a r.2 / wa - grantsTo b r.2 / wb) := by
  induction events generalizing s r with
  | nil =>
    obtain rfl := Option.some.inj hrun
    refine ⟨h, ?_⟩
    simp [Watukuy.grantsTo]
  | cons e events ih =>
    obtain ⟨r₁, hstep, hrest⟩ := Option.bind_eq_some_iff.1 hrun
    obtain ⟨r₂, hrun₂, rfl⟩ := Option.map_eq_some_iff.1 hrest
    have hlater := hwaits.2 r₁ hstep
    have hbounded := h.step hfair hab hwb ha hb hstep hlater.first.1 hlater.first.2
      fun w hw => hlane w (List.mem_append_left _ hw)
    obtain ⟨hend, hlead⟩ := ih hbounded (count_step hstep ha).1 (count_step hstep hb).1 hrun₂ hlater
      fun w hw => hlane w (List.mem_append_right _ hw)
    refine ⟨hend, ?_⟩
    rw [hlead, lead_step wa wb hstep ha hb, grantsTo_append, grantsTo_append]
    push_cast
    ring

include hfair in
/-- One that is not too far behind at first gets ahead by at most one grant of each. -/
theorem grants_ahead (hab : a ≠ b) (hwa : 0 < wa) (hwb : 0 < wb) (hlevel : s.Level a b wa wb)
    {events : List BudgetEvent} {r : BudgetManager × List BudgetLabel}
    (hrun : s.run c events = some r)
    (hwaits : Throughout c (fun s => s.Backlogged a wa lane ∧ s.Backlogged b wb lane) s events)
    (hlane : ∀ w, .resolved w ∈ r.2 → w.requester = a → w.lane = lane) :
    (grantsTo a r.2 : ℚ) / wa - grantsTo b r.2 / wb ≤ 1 / wa + 1 / wb := by
  have hstart : s.Bounded a b wa wb lane (s.lead a b wa wb) :=
    ⟨(le_max_right 0 _).trans (le_add_of_nonneg_left (one_div_nonneg.2 hwa.le)),
      fun _ _ _ _ => le_max_right 0 _⟩
  obtain ⟨hend, hlead⟩ := hstart.run hfair hab hwb hlevel.seen_a hlevel.seen_b hrun hwaits hlane
  have hlower := hlevel.lower
  have hupper := hend.upper
  have hpos : 0 ≤ 1 / wb := one_div_nonneg.2 hwb.le
  rcases le_total 0 (s.lead a b wa wb) with hd | hd
  · rw [max_eq_right hd] at hupper
    linarith
  · rw [max_eq_left hd] at hupper
    linarith

end Weighted

end BudgetManager

open BudgetManager in
/-- While two requesters wait in a lane and get no grant in another one, their grants by weight
differ by at most one grant of each, if they begin level. -/
theorem weighted_fair {c : ManagerConfig} (hfair : c.fairness = .weighted) {a b : String}
    (hab : a ≠ b) {wa wb : ℚ} (hwa : 0 < wa) (hwb : 0 < wb) {lane : Lane} {s₀ s₁ : BudgetManager}
    (hlevel : s₀.Level a b wa wb) {events : List BudgetEvent} {labels : List BudgetLabel}
    (hrun : s₀.run c events = some (s₁, labels))
    (hwaits : Throughout c (fun s => s.Backlogged a wa lane ∧ s.Backlogged b wb lane) s₀ events)
    (hlane : ∀ w, .resolved w ∈ labels → w.requester = a ∨ w.requester = b → w.lane = lane) :
    |(grantsTo a labels : ℚ) / wa - grantsTo b labels / wb| ≤ 1 / wa + 1 / wb := by
  have hswapped : s₀.lead b a wb wa = -s₀.lead a b wa wb := (neg_sub _ _).symm
  have hlevel' : s₀.Level b a wb wa :=
    ⟨hlevel.seen_b, hlevel.seen_a, by rw [hswapped]; exact neg_le_neg hlevel.upper,
      by rw [hswapped]; exact neg_le.1 hlevel.lower⟩
  have hwaits' : Throughout c (fun s => s.Backlogged b wb lane ∧ s.Backlogged a wa lane) s₀
      events := hwaits.imp fun _ h => ⟨h.2, h.1⟩
  have ha := grants_ahead hfair hab hwa hwb hlevel hrun hwaits
    fun w hw heq => hlane w hw (.inl heq)
  have hb := grants_ahead hfair hab.symm hwb hwa hlevel' hrun hwaits'
    fun w hw heq => hlane w hw (.inr heq)
  exact abs_le.2 ⟨by linarith, ha⟩

def weightedBudget : ManagerConfig := { erpBudget with fairness := .weighted }

/-- `a` and `b` are served once each, and then both ask again. -/
def evenly : List BudgetEvent :=
  [requestOf "a" 1, .taken, requestOf "b" 1, .taken, requestOf "a" 1, requestOf "a" 1,
    requestOf "b" 1, requestOf "b" 1]

theorem weighted_fair_sample :
    ∃ s₀ l₀ s₁ labels, ({ clock := 0 } : BudgetManager).run weightedBudget evenly = some (s₀, l₀) ∧
      s₀.run weightedBudget [.taken] = some (s₁, labels) ∧
      |(grantsTo "a" labels : ℚ) / 1 - grantsTo "b" labels / 1| ≤ 1 / 1 + 1 / 1 := by
  have hshown : ((({ clock := 0 } : BudgetManager).run weightedBudget evenly).bind fun r₀ =>
      (r₀.1.run weightedBudget [.taken]).map fun r₁ => decide
        (r₀.1.Level "a" "b" 1 1 ∧ BudgetManager.Throughout weightedBudget
            (fun s => s.Backlogged "a" 1 .live ∧ s.Backlogged "b" 1 .live) r₀.1 [.taken] ∧
          r₁.2 = [.took 3 1, .resolved (waiterOf 3 "a"), .picked (waiterOf 5 "b")])) =
      some true := by decide +kernel
  obtain ⟨⟨s₀, l₀⟩, h₀, hshown⟩ := Option.bind_eq_some_iff.1 hshown
  obtain ⟨⟨s₁, labels⟩, h₁, hshown⟩ := Option.map_eq_some_iff.1 hshown
  obtain ⟨hlevel, hwaits, hlabels⟩ := of_decide_eq_true hshown
  refine ⟨s₀, l₀, s₁, labels, h₀, h₁, ?_⟩
  refine weighted_fair rfl (by decide) one_pos one_pos hlevel h₁ hwaits fun w hw _ => ?_
  have hmem : .resolved w ∈ labels := hw
  rw [show labels = _ from hlabels] at hmem
  simp only [List.mem_cons, BudgetLabel.resolved.injEq, reduceCtorEq, List.not_mem_nil, or_false,
    false_or] at hmem
  rw [hmem]
  rfl

/-- `a` is served once, then `b` four times, and then both ask again. -/
def returningLater : List BudgetEvent :=
  [requestOf "a" 1, .taken, requestOf "b" 1, .taken, requestOf "b" 1, .taken, requestOf "b" 1,
    .taken, requestOf "b" 1, .taken, requestOf "a" 1, requestOf "a" 1, requestOf "a" 1,
    requestOf "a" 1, requestOf "b" 1]

/-- The one that comes back is served three times in a row while the other one waits. -/
theorem returning_catches_up :
    ∃ s₀ l₀ s₁ labels,
      ({ clock := 0 } : BudgetManager).run weightedBudget returningLater = some (s₀, l₀) ∧
      s₀.run weightedBudget [.taken, .taken, .taken] = some (s₁, labels) ∧
      BudgetManager.Throughout weightedBudget
        (fun s => s.Backlogged "a" 1 .live ∧ s.Backlogged "b" 1 .live) s₀
        [.taken, .taken, .taken] ∧
      (1 : ℚ) / 1 + 1 / 1 < |(grantsTo "a" labels : ℚ) / 1 - grantsTo "b" labels / 1| := by
  have hshown :
      ((({ clock := 0 } : BudgetManager).run weightedBudget returningLater).bind fun r₀ =>
        (r₀.1.run weightedBudget [.taken, .taken, .taken]).map fun r₁ => decide
          (BudgetManager.Throughout weightedBudget
              (fun s => s.Backlogged "a" 1 .live ∧ s.Backlogged "b" 1 .live) r₀.1
              [.taken, .taken, .taken] ∧
            grantsTo "a" r₁.2 = 3 ∧ grantsTo "b" r₁.2 = 0)) = some true := by decide +kernel
  obtain ⟨⟨s₀, l₀⟩, h₀, hshown⟩ := Option.bind_eq_some_iff.1 hshown
  obtain ⟨⟨s₁, labels⟩, h₁, hshown⟩ := Option.map_eq_some_iff.1 hshown
  obtain ⟨hwaits, ha, hb⟩ := of_decide_eq_true hshown
  refine ⟨s₀, l₀, s₁, labels, h₀, h₁, hwaits, ?_⟩
  rw [show grantsTo "a" labels = 3 from ha, show grantsTo "b" labels = 0 from hb]
  norm_num

end Watukuy
