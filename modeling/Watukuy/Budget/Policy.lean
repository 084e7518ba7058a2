import Watukuy.Core.DefinePoller
import Watukuy.Budget.Consumption
import Watukuy.Budget.Manager

/-!
# Budget policies

`budget/policy.ts`: the checks of a budget and its defaults. A field that should be a number may be
something else, `other`. The policies that some configuration resolves to are the valid ones; where the
window is finite, a bucket gets what it relies on (`BudgetPolicy.Resolved`).
-/

set_option autoImplicit false

namespace Watukuy

open Library

/-- A value in the place of a number. -/
inductive NumberInput where
  | number (n : Double)
  | other

inductive FairnessInput where
  | known (fairness : Fairness)
  /-- Another value; its JSON text. -/
  | other (json : String)

structure BudgetInput where
  requests : NumberInput
  per : Duration
  burst : Option NumberInput := none
  fairness : Option FairnessInput := none
  maxWait : Option Duration := none

/-- `ResolvedBudgetPolicy`. -/
structure ResolvedBudgetPolicy where
  requests : ℚ
  perMs : Double
  burst : ℚ
  fairness : Fairness
  maxWaitMs : Option Double

section Checks

variable (numberText : ℚ → String)

def blameBudget (name : String) : String := "budget '" ++ name ++ "'"

/-- A field that must be a finite number from 1 on. -/
def requireFinite (name field : String) : NumberInput → Except JsError ℚ
  | .number (.finite q) => do
    require (decide (1 ≤ q)) (blameBudget name ++ (": " ++ field ++ " must be a finite number >= 1"))
    return q
  | _ => .error (configError (blameBudget name ++ (": " ++ field ++ " must be a finite number >= 1")))

def requireFairness (name : String) : FairnessInput → Except JsError Fairness
  | .known fairness => .ok fairness
  | .other json =>
    .error (configError (blameBudget name ++
      (": fairness must be 'round-robin' or 'weighted', got " ++ json)))

def resolveMaxWait (name : String) (maxWait : Option Duration) :
    Except JsError (Option Double) :=
  match maxWait with
  | some d => (parseDuration numberText d (blameBudget name ++ " maxWait")).map some
  | none => .ok none

/-- `resolveBudgetPolicy` of a configuration object. -/
def resolveBudgetPolicy (name : String) (config : BudgetInput) :
    Except JsError ResolvedBudgetPolicy := do
  require (decide (name ≠ "")) "budget name must be a non-empty string"
  let requests ← requireFinite name "requests" config.requests
  let perMs ← parseDuration numberText config.per (blameBudget name ++ " per")
  require (!perMs.le (.finite 0)) (blameBudget name ++ ": per must be > 0")
  let burst ← requireFinite name "burst" (config.burst.getD (.number (.finite requests)))
  let fairness ← requireFairness name (config.fairness.getD (.known .roundRobin))
  let maxWaitMs ← resolveMaxWait numberText name config.maxWait
  return { requests, perMs, burst, fairness, maxWaitMs }

end Checks

variable {numberText : ℚ → String}

namespace ResolvedBudgetPolicy

/-- What a resolved policy promises. -/
structure Valid (r : ResolvedBudgetPolicy) : Prop where
  requests : 1 ≤ r.requests
  perMs : Double.lt (.finite 0) r.perMs = true
  burst : 1 ≤ r.burst
  maxWaitMs : ∀ ms ∈ r.maxWaitMs, Double.le (.finite 0) ms = true

/-- The policy of a bucket; none if the window is infinite. -/
def bucket (r : ResolvedBudgetPolicy) : Option BudgetPolicy :=
  match r.perMs with
  | .finite perMs => some { requests := r.requests, perMs, burst := r.burst }
  | _ => none

theorem bucket_resolved {r : ResolvedBudgetPolicy} (h : r.Valid) {policy : BudgetPolicy}
    (hpolicy : r.bucket = some policy) : policy.Resolved := by
  unfold bucket at hpolicy
  split at hpolicy
  · next perMs hper =>
    obtain rfl := Option.some.inj hpolicy
    have hpos := h.perMs
    rw [hper] at hpos
    simp only [Double.lt, decide_eq_true_eq] at hpos
    exact ⟨h.requests, hpos, h.burst⟩
  · cases hpolicy

/-- A configuration that resolves to the policy. -/
def input (r : ResolvedBudgetPolicy) : BudgetInput where
  requests := .number (.finite r.requests)
  per := .ofMs r.perMs
  burst := some (.number (.finite r.burst))
  fairness := some (.known r.fairness)
  maxWait := r.maxWaitMs.map .ofMs

end ResolvedBudgetPolicy

theorem requireFinite_ok_iff (name field : String) (value : NumberInput) (q : ℚ) :
    requireFinite name field value = .ok q ↔ value = .number (.finite q) ∧ 1 ≤ q := by
  cases value with
  | number n =>
    cases n with
    | finite r =>
      simp only [requireFinite, bind_ok_iff, require_ok_iff, exists_const, decide_eq_true_eq,
        NumberInput.number.injEq, Double.finite.injEq]
      constructor
      · rintro ⟨hle, hr⟩
        obtain rfl := Except.ok.inj hr
        exact ⟨rfl, hle⟩
      · rintro ⟨rfl, hle⟩
        exact ⟨hle, rfl⟩
    | _ => simp [requireFinite]
  | other => simp [requireFinite]

theorem resolveMaxWait_ok_iff (name : String) (maxWait : Option Duration) (w : Option Double) :
    resolveMaxWait numberText name maxWait = .ok w ↔
      (maxWait = none ∧ w = none) ∨ ∃ d q, maxWait = some d ∧ w = some q ∧ d.Means q := by
  cases maxWait with
  | none =>
    constructor
    · intro h
      exact Or.inl ⟨rfl, (Except.ok.inj h).symm⟩
    · rintro (⟨-, rfl⟩ | ⟨d, q, hd, -, -⟩)
      · rfl
      · cases hd
  | some d =>
    cases hparse : parseDuration numberText d (blameBudget name ++ " maxWait") with
    | error e =>
      simp only [resolveMaxWait, hparse, Except.map]
      constructor
      · intro h
        cases h
      · rintro (⟨hd, -⟩ | ⟨d', q, hd, -, hq⟩)
        · cases hd
        · obtain rfl := Option.some.inj hd
          rw [(parseDuration_ok_iff numberText d _ q).2 hq] at hparse
          cases hparse
    | ok r =>
      have hr := (parseDuration_ok_iff numberText d _ r).1 hparse
      simp only [resolveMaxWait, hparse, Except.map, Except.ok.injEq]
      constructor
      · rintro rfl
        exact Or.inr ⟨d, r, rfl, rfl, hr⟩
      · rintro (⟨hd, -⟩ | ⟨d', q, hd, rfl, hq⟩)
        · cases hd
        · obtain rfl := Option.some.inj hd
          rw [(parseDuration_ok_iff numberText d _ q).2 hq, Except.ok.injEq] at hparse
          rw [hparse]

/-- The policies that `resolveBudgetPolicy` gives are the valid ones: the buckets get what they rely
on. -/
theorem budget_policies_resolve (name : String) (r : ResolvedBudgetPolicy) :
    ((∃ config, resolveBudgetPolicy numberText name config = .ok r) ↔ name ≠ "" ∧ r.Valid) ∧
      (r.Valid → ∀ policy, r.bucket = some policy → policy.Resolved) := by
  refine ⟨⟨?_, ?_⟩, fun h policy hpolicy => r.bucket_resolved h hpolicy⟩
  · rintro ⟨config, h⟩
    simp only [resolveBudgetPolicy, bind_ok_iff, require_ok_iff, requireFinite_ok_iff,
      parseDuration_ok_iff, resolveMaxWait_ok_iff, decide_eq_true_eq, exists_const] at h
    obtain ⟨hname, requests, ⟨-, hrequests⟩, perMs, hmeans, hper, burst, ⟨-, hburst⟩, fairness, -,
      wait, hwait, hr⟩ := h
    obtain rfl := Except.ok.inj hr
    refine ⟨hname, hrequests, (pos_of_means hmeans).1 hper, hburst, ?_⟩
    rintro q rfl
    rcases hwait with ⟨-, hnone⟩ | ⟨d, q', -, hq, hmeans⟩
    · cases hnone
    · obtain rfl := Option.some.inj hq
      exact hmeans.nonneg
  · rintro ⟨hname, h⟩
    have hper := Duration.means_ofMs (Double.le_iff.2 (Or.inl h.perMs))
    refine ⟨r.input, ?_⟩
    simp only [resolveBudgetPolicy, bind_ok_iff, require_ok_iff, requireFinite_ok_iff,
      parseDuration_ok_iff, resolveMaxWait_ok_iff, decide_eq_true_eq, exists_const]
    refine ⟨hname, r.requests, ⟨rfl, h.requests⟩, r.perMs, hper, (pos_of_means hper).2 h.perMs,
      r.burst, ⟨rfl, h.burst⟩, r.fairness, rfl, r.maxWaitMs, ?_, rfl⟩
    cases hq : r.maxWaitMs with
    | none => exact Or.inl ⟨by simp [ResolvedBudgetPolicy.input, hq], rfl⟩
    | some q =>
      refine Or.inr ⟨.ofMs q, q, ?_, rfl, Duration.means_ofMs (h.maxWaitMs q hq)⟩
      simp [ResolvedBudgetPolicy.input, hq]

end Watukuy
