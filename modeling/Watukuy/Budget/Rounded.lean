import Watukuy.Budget.Consumption

/-!
# Whole numbers under rounding

With whole parameters, and contents up to `2 ^ 53`, no content of a bucket is rounded: a refill that
would not fit is cut off at the capacity, which does. So the bucket is that of exact arithmetic. The
wait that a refused call is told is a quotient, and rounded; it is the exact one as long as the rounding
is finer than what the tolerance leaves of a token.
-/

set_option autoImplicit false

namespace Watukuy

open Library

/-- The whole numbers that doubles have in one piece. -/
structure Small (x : ℚ) : Prop where
  whole : x ∈ wholes
  low : -2 ^ 53 ≤ x
  high : x ≤ 2 ^ 53

section
variable (r : Rounding) {x y cap : ℚ}

theorem Small.mem (h : Small x) : x ∈ r.format := by
  obtain ⟨n, rfl⟩ := mem_wholes.1 h.whole
  refine r.whole_mem n (abs_le.2 ⟨?_, ?_⟩)
  · exact_mod_cast h.low
  · exact_mod_cast h.high

theorem small_full : Small (2 ^ 53) := ⟨⟨2 ^ 53, by norm_num⟩, by norm_num, le_rfl⟩

theorem epsilon_bounds :
    0 < epsilon r ∧ epsilon r ≤ 1 / 1000000000 + 1 / 1000000000 / 2 ^ 53 := by
  have hclose : |epsilon r - 1 / 1000000000| ≤ |1 / 1000000000| / 2 ^ 53 :=
    r.error_le (by rw [abs_of_pos (by norm_num)]; norm_num)
  rw [abs_of_pos (by norm_num : (0 : ℚ) < 1 / 1000000000)] at hclose
  obtain ⟨hlow, hhigh⟩ := abs_le.1 hclose
  norm_num at hlow hhigh ⊢
  constructor <;> linarith

/-- Between small whole numbers the tolerance decides nothing. -/
theorem covers_round (hx : Small x) (hy : Small y) : r.add x (epsilon r) ≥ y ↔ y ≤ x := by
  obtain ⟨hpos, hle⟩ := epsilon_bounds r
  constructor
  · intro h
    by_contra hlt
    have hone := add_one_le_of_wholes hx.whole hy.whole (not_le.1 hlt)
    -- `x` itself is nearer than `y`
    have hnear : |r.add x (epsilon r) - (x + epsilon r)| ≤ |x - (x + epsilon r)| :=
      r.near _ x (hx.mem r)
    rw [sub_add_cancel_left, abs_neg, abs_of_pos hpos] at hnear
    have hhigh := (abs_le.1 hnear).2
    norm_num at hle
    linarith
  · intro h
    exact h.trans (r.le_round (le_add_of_nonneg_right hpos.le) (hx.mem r))

/-- What is cut off at a small number is never rounded. -/
theorem min_round (hcap : Small cap) (hx : Small x) (hnonneg : 0 ≤ x) (hy : y ∈ wholes)
    (hgain : 0 ≤ y) : min cap (r.add x (r.round y)) = min cap (x + y) := by
  have hover : 2 ^ 53 ≤ x + y → min cap (r.add x (r.round y)) = min cap (x + y) := by
    intro hle
    have hround : 2 ^ 53 ≤ x + r.round y := by
      rcases le_total y (2 ^ 53) with hsmall | hlarge
      · rwa [r.round_eq (Small.mem r ⟨hy, by linarith, hsmall⟩)]
      · have hfull := r.le_round hlarge (small_full.mem r)
        linarith
    have hadd : 2 ^ 53 ≤ r.add x (r.round y) := r.le_round hround (small_full.mem r)
    rw [min_eq_left (hcap.high.trans hadd), min_eq_left (hcap.high.trans hle)]
  rcases le_total (2 ^ 53) (x + y) with hle | hle
  · exact hover hle
  · have hy' : Small y := ⟨hy, by linarith, by linarith⟩
    have hsum : Small (x + y) := ⟨wholes.add_mem hx.whole hy, by linarith, hle⟩
    rw [r.round_eq (hy'.mem r), Rounding.add, r.round_eq (hsum.mem r)]

end

/-! ## Calls and buckets -/

/-- A bucket as calls of small numbers leave it. -/
structure Bucket.Sized (b : Bucket) : Prop where
  scaled : Small b.scaled
  nonneg : 0 ≤ b.scaled
  updatedAt : b.updatedAt ∈ wholes
  time : |b.updatedAt| ≤ 2 ^ 52

/-- A call whose numbers are whole, and whose capacity and time are not too large. -/
structure BudgetCall.Sized (call : BudgetCall) : Prop where
  whole : call.Whole
  resolved : call.policy.Resolved
  capacity : call.capacity * call.policy.perMs ≤ 2 ^ 53
  time : |call.now| ≤ 2 ^ 52

section
variable (r : Rounding) {call : BudgetCall} {bucket : Option Bucket} {b : Bucket}

theorem BudgetCall.Sized.cap (h : call.Sized) : Small (call.capacity * call.policy.perMs) where
  whole := wholes.mul_mem h.whole.capacity h.whole.policy.perMs
  low := by
    have hburst : 0 ≤ call.capacity := (zero_le_one.trans h.resolved.burst).trans
      call.burst_le_capacity
    have hnonneg := mul_nonneg hburst h.resolved.perMs.le
    linarith
  high := h.capacity

theorem BudgetCall.Sized.full (h : call.Sized) :
    Small (call.policy.burst * call.policy.perMs) where
  whole := wholes.mul_mem h.whole.policy.burst h.whole.policy.perMs
  low := by
    have hnonneg := mul_nonneg (zero_le_one.trans h.resolved.burst) h.resolved.perMs.le
    linarith
  high := (mul_le_mul_of_nonneg_right call.burst_le_capacity h.resolved.perMs.le).trans h.capacity

theorem BudgetCall.Sized.need (h : call.Sized) (hcost : call.cost > 0) :
    Small (call.cost * call.policy.perMs) where
  whole := wholes.mul_mem h.whole.cost h.whole.policy.perMs
  low := by
    have hnonneg := mul_nonneg hcost.le h.resolved.perMs.le
    linarith
  high := by
    refine (mul_le_mul_of_nonneg_right ?_ h.resolved.perMs.le).trans h.capacity
    rw [BudgetCall.capacity, if_pos hcost]
    exact le_max_right _ _

/-- A refill of small numbers is exact. -/
theorem BudgetCall.Sized.filled_round (h : call.Sized) (hb : ∀ b, bucket = some b → b.Sized) :
    call.filled r bucket = call.filled .exact bucket := by
  have hcap : r.mul call.capacity call.policy.perMs = call.capacity * call.policy.perMs :=
    r.round_eq (h.cap.mem r)
  have hfull : r.mul call.policy.burst call.policy.perMs =
      call.policy.burst * call.policy.perMs := r.round_eq (h.full.mem r)
  cases bucket with
  | none =>
    simp only [BudgetCall.filled, refilled, hcap, hfull, Rounding.exact_mul]
  | some b =>
    have hbucket := hb b rfl
    have helapsed : r.sub call.now b.updatedAt = call.now - b.updatedAt := by
      have hlow := abs_le.1 h.time
      have hhigh := abs_le.1 hbucket.time
      refine r.round_eq (Small.mem r ⟨wholes.sub_mem h.whole.now hbucket.updatedAt, ?_, ?_⟩)
      · norm_num at hlow hhigh ⊢
        linarith
      · norm_num at hlow hhigh ⊢
        linarith
    rw [BudgetCall.filled, BudgetCall.filled, refilled_exact]
    simp only [refilled, hcap, helapsed]
    by_cases hlate : call.now - b.updatedAt > 0
    · have hgain : (call.now - b.updatedAt) * call.policy.requests ∈ wholes :=
        wholes.mul_mem (wholes.sub_mem h.whole.now hbucket.updatedAt) h.whole.policy.requests
      have hpos : 0 ≤ (call.now - b.updatedAt) * call.policy.requests :=
        mul_nonneg hlate.le (zero_le_one.trans h.resolved.requests)
      rw [if_pos hlate, if_pos hlate, Rounding.mul,
        min_round r h.cap hbucket.scaled hbucket.nonneg hgain hpos]
    · rw [if_neg hlate, if_neg hlate]

theorem BudgetCall.Sized.filled_sized (h : call.Sized) (hb : ∀ b, bucket = some b → b.Sized) :
    (call.filled .exact bucket).Sized := by
  have hwhole := h.whole.filled fun b hbucket =>
    ⟨(hb b hbucket).scaled.whole, (hb b hbucket).updatedAt⟩
  have hnonneg : 0 ≤ (call.filled .exact bucket).scaled :=
    refilled_nonneg h.resolved call.burst_le_capacity fun b hbucket => (hb b hbucket).nonneg
  have hle : (call.filled .exact bucket).scaled ≤ call.capacity * call.policy.perMs := refilled_le
  refine ⟨⟨hwhole.scaled, by linarith, hle.trans h.capacity⟩, hnonneg, hwhole.updatedAt, ?_⟩
  rw [BudgetCall.filled, refilled_updatedAt]
  cases bucket with
  | none => exact h.time
  | some b =>
    rcases max_choice call.now b.updatedAt with heq | heq
    · rw [Option.map_some, Option.elim_some, heq]
      exact h.time
    · rw [Option.map_some, Option.elim_some, heq]
      exact (hb b rfl).time

/-- What a call leaves, from the content that it finds. -/
theorem BudgetCall.leaves_take (call : BudgetCall) (bucket : Option Bucket) :
    call.leaves r bucket =
      ⟨if call.cost > 0 ∧ r.add (call.filled r bucket).scaled (epsilon r) ≥
            r.mul call.cost call.policy.perMs then
          max 0 (r.sub (call.filled r bucket).scaled (r.mul call.cost call.policy.perMs))
        else (call.filled r bucket).scaled,
        (call.filled r bucket).updatedAt⟩ := by
  obtain ⟨name, request, policy, now⟩ := call
  cases request with
  | peek => simp [leaves, filled, capacity, cost]
  | take cost =>
    by_cases hcost : cost > 0
    · have hcap : capacity ⟨name, .take cost, policy, now⟩ = max policy.burst cost := if_pos hcost
      by_cases hfits : r.add (refilled r policy now (max policy.burst cost) bucket).scaled
            (epsilon r) ≥ r.mul cost policy.perMs <;>
        simp [leaves, filled, hcap, BudgetCall.cost, hcost, hfits]
    · have hcap : capacity ⟨name, .take cost, policy, now⟩ = policy.burst := if_neg hcost
      simp [leaves, filled, hcap, BudgetCall.cost, hcost]

/-- A call of small numbers pays exactly when the content covers it, whatever the rounding. -/
theorem BudgetCall.Sized.leaves_eq (h : call.Sized) (hb : ∀ b, bucket = some b → b.Sized) :
    call.leaves r bucket =
      ⟨if call.cost > 0 ∧ call.cost * call.policy.perMs ≤ (call.filled .exact bucket).scaled then
          (call.filled .exact bucket).scaled - call.cost * call.policy.perMs
        else (call.filled .exact bucket).scaled,
        (call.filled .exact bucket).updatedAt⟩ := by
  have hfilled := h.filled_sized hb
  rw [call.leaves_take r, h.filled_round r hb]
  by_cases hcost : call.cost > 0
  · have hneed := h.need hcost
    have hmul : r.mul call.cost call.policy.perMs = call.cost * call.policy.perMs :=
      r.round_eq (hneed.mem r)
    rw [hmul]
    by_cases hfits : call.cost * call.policy.perMs ≤ (call.filled .exact bucket).scaled
    · have hrest : r.sub (call.filled .exact bucket).scaled (call.cost * call.policy.perMs) =
          (call.filled .exact bucket).scaled - call.cost * call.policy.perMs := by
        have hpaid := mul_nonneg hcost.le h.resolved.perMs.le
        have hhigh := hfilled.scaled.high
        exact r.round_eq (Small.mem r
          ⟨wholes.sub_mem hfilled.scaled.whole hneed.whole, by linarith, by linarith⟩)
      rw [if_pos ⟨hcost, (covers_round r hfilled.scaled hneed).2 hfits⟩, if_pos ⟨hcost, hfits⟩,
        hrest, max_eq_right (sub_nonneg.2 hfits)]
    · rw [if_neg fun hand => hfits ((covers_round r hfilled.scaled hneed).1 hand.2),
        if_neg fun hand => hfits hand.2]
  · rw [if_neg fun hand => hcost hand.1, if_neg fun hand => hcost hand.1]

theorem BudgetCall.Sized.leaves_sized (h : call.Sized) (hb : ∀ b, bucket = some b → b.Sized) :
    (call.leaves r bucket).Sized := by
  have hfilled := h.filled_sized hb
  rw [h.leaves_eq r hb]
  split
  · next hand =>
    have hpaid := mul_nonneg hand.1.le h.resolved.perMs.le
    have hhigh := hfilled.scaled.high
    exact ⟨⟨wholes.sub_mem hfilled.scaled.whole (h.need hand.1).whole, by linarith, by linarith⟩,
      sub_nonneg.2 hand.2, hfilled.updatedAt, hfilled.time⟩
  · exact hfilled

end

/-! ## Sequences -/

section
variable (r : Rounding) {name : String} {buckets : Buckets} {calls : List BudgetCall}

/-- Calls of small numbers leave a bucket of small numbers. -/
theorem sized_afterCalls (hcalls : ∀ call ∈ calls, call.name = name → call.Sized)
    (h : ∀ b, buckets.get name = some b → b.Sized) :
    ∀ b, (afterCalls r buckets calls).get name = some b → b.Sized := by
  induction calls generalizing buckets with
  | nil => exact h
  | cons call calls ih =>
    refine ih (fun c hc => hcalls c (List.mem_cons_of_mem _ hc)) ?_
    intro b hb
    -- a call on another bucket leaves this one alone
    by_cases hname : call.name = name
    · have hleaves := (call.perform_self r buckets).1
      rw [hname] at hleaves
      obtain rfl := Option.some.inj (hleaves.symm.trans hb)
      exact (hcalls call List.mem_cons_self hname).leaves_sized r h
    · rw [BudgetCall.perform_other r (Ne.symm hname)] at hb
      exact h b hb

end

/-! ## When a refused call fits -/

section
variable (r : Rounding) {deficit requests : ℚ}

/-- Rounding a number and what the tolerance leaves of it takes little off. -/
theorem sub_round {x : ℚ} (hx : 1 ≤ x) :
    x * (1 - 1 / 2 ^ 52) ≤ r.sub (r.round x) (epsilon r) + epsilon r := by
  obtain ⟨hpos, hle⟩ := epsilon_bounds r
  have hround := (abs_le.1 (r.error_le (x := x) (by rw [abs_of_nonneg (by linarith)]; linarith))).1
  rw [abs_of_nonneg (by linarith)] at hround
  -- away from zero, so the error of the subtraction is relative too
  have hlarge : 1 / 2 ≤ r.round x - epsilon r := by
    norm_num at hle hround ⊢
    linarith
  have hsub := (abs_le.1 (r.error_le (x := r.round x - epsilon r)
    (by rw [abs_of_nonneg (by linarith)]; linarith))).1
  rw [abs_of_nonneg (by linarith)] at hsub
  unfold Rounding.sub
  norm_num at hround hsub ⊢
  linarith

/-- The wait is the first number of milliseconds that earns the deficit. -/
theorem retryIn_exact {policy : BudgetPolicy} (hdeficit : deficit ∈ wholes)
    (hrequests : policy.requests ∈ wholes) (hpos : 0 < deficit) (hlow : 1 ≤ policy.requests)
    (hhigh : policy.requests < 1000000000)
    (hsize : deficit ≤ 2 ^ 51 * (1 - policy.requests / 1000000000)) :
    retryIn r policy deficit ∈ wholes ∧ 1 ≤ retryIn r policy deficit ∧
      deficit ≤ retryIn r policy deficit * policy.requests ∧
      ∀ t ∈ wholes, t < retryIn r policy deficit → t * policy.requests < deficit := by
  obtain ⟨heps, htol⟩ := epsilon_bounds r
  have hq : 0 < policy.requests := zero_lt_one.trans_le hlow
  have hwhole : retryIn r policy deficit ∈ wholes := max_mem_wholes wholes.one_mem ⟨_, rfl⟩
  have hone : 1 ≤ retryIn r policy deficit := le_max_left _ _
  refine ⟨hwhole, hone, ?_, ?_⟩
  · -- a wait that is too short misses a whole token, more than rounding and tolerance take
    by_contra hlt
    have hgap := add_one_le_of_wholes (wholes.mul_mem hwhole hrequests) hdeficit (not_le.1 hlt)
    have hlarge : 1 ≤ deficit / policy.requests := by
      rw [le_div_iff₀ hq]
      nlinarith
    have hround := sub_round r hlarge
    have hceil : r.sub (r.div deficit policy.requests) (epsilon r) ≤ retryIn r policy deficit :=
      (Int.le_ceil _).trans (le_max_right _ _)
    have hwait : deficit / policy.requests * (1 - 1 / 2 ^ 52) ≤
        retryIn r policy deficit + epsilon r := by
      have hsub : r.sub (r.round (deficit / policy.requests)) (epsilon r) ≤
        retryIn r policy deficit := hceil
      linarith
    have hscale : deficit * (1 - 1 / 2 ^ 52) ≤
        (retryIn r policy deficit + epsilon r) * policy.requests := by
      have hmul := mul_le_mul_of_nonneg_right hwait hq.le
      rwa [mul_right_comm, div_mul_cancel₀ _ hq.ne'] at hmul
    have hmax := add_one_le_of_wholes hrequests (⟨1000000000, by norm_num⟩ : (1000000000 : ℚ) ∈ wholes)
      hhigh
    have hpaid := mul_le_mul_of_nonneg_right htol hq.le
    norm_num at hscale hpaid hsize
    linarith
  · intro t ht htr
    by_contra hle
    rw [not_lt] at hle
    have htop : deficit / policy.requests ≤ t := (div_le_iff₀ hq).2 hle
    rcases lt_max_iff.1 htr with hlt | hlt
    · have hzero : t ≤ 0 := by
        have hgap := add_one_le_of_wholes ht wholes.one_mem hlt
        linarith
      have hquot := div_pos hpos hq
      linarith
    · -- the quotient does not round past the next whole number
      obtain ⟨z, rfl⟩ := mem_wholes.1 ht
      have hnext : (⌈deficit / policy.requests⌉ : ℚ) ∈ r.format := by
        have hquot : deficit / policy.requests ≤ 2 ^ 53 := by
          rw [div_le_iff₀ hq]
          nlinarith
        have hhigh' : ⌈deficit / policy.requests⌉ ≤ 2 ^ 53 := by
          refine Int.ceil_le.2 ?_
          exact_mod_cast hquot
        have hlow' := Int.ceil_nonneg (div_nonneg hpos.le hq.le)
        exact r.whole_mem _ (abs_le.2 ⟨by omega, hhigh'⟩)
      have hbelow : (z : ℚ) < r.sub (r.div deficit policy.requests) (epsilon r) :=
        Int.lt_ceil.1 (Int.cast_lt.1 hlt)
      have hdiv : r.div deficit policy.requests ≤ ⌈deficit / policy.requests⌉ :=
        r.round_le (Int.le_ceil _) hnext
      have hsub : r.sub (r.div deficit policy.requests) (epsilon r) ≤
          ⌈deficit / policy.requests⌉ := r.round_le (by linarith) hnext
      have hceil : ⌈deficit / policy.requests⌉ ≤ z := Int.ceil_le.2 htop
      have hcast : ((⌈deficit / policy.requests⌉ : ℤ) : ℚ) ≤ z := by exact_mod_cast hceil
      linarith

/-- No wait is longer than the deficit. -/
theorem retryIn_le {policy : BudgetPolicy} (hdeficit : deficit ∈ wholes)
    (hlow : 1 ≤ policy.requests) {wait : ℚ} (hpos : 0 < deficit)
    (hfirst : ∀ t ∈ wholes, t < wait → t * policy.requests < deficit) : wait ≤ deficit := by
  by_contra hlt
  have hless := hfirst deficit hdeficit (not_le.1 hlt)
  nlinarith

end

section
variable (r : Rounding) {name : String} {policy : BudgetPolicy} {cost now t : ℚ}
  {buckets : Buckets} {filled : Bucket}

/-- The take at a later time, before which the bucket is left alone: it fits exactly when the refill
has earned what was missing. -/
theorem later_take (hcall : BudgetCall.Sized ⟨name, .take cost, policy, t⟩) (hpos : cost > 0)
    (hget : buckets.get name = some filled) (hfilled : filled.Sized) (hat : filled.updatedAt = now)
    (hfull : filled.scaled ≤ max policy.burst cost * policy.perMs) (ht : now ≤ t) :
    (cost * policy.perMs - filled.scaled ≤ (t - now) * policy.requests →
      ∃ remaining, (takeTokens r buckets name cost policy t).2 = .ok remaining) ∧
    ((t - now) * policy.requests < cost * policy.perMs - filled.scaled →
      ∃ wait, (takeTokens r buckets name cost policy t).2 = .retry wait) := by
  have hcap : BudgetCall.capacity ⟨name, .take cost, policy, t⟩ = max policy.burst cost :=
    if_pos hpos
  have hb : ∀ b, some filled = some b → b.Sized := by
    rintro _ ⟨⟩
    exact hfilled
  have hround := hcall.filled_round r hb
  have hsized := hcall.filled_sized hb
  have hneed := hcall.need hpos
  simp only [BudgetCall.filled, hcap] at hround hsized
  have hlater := refilled_later hat hfull ht
  have hmul : r.mul cost policy.perMs = cost * policy.perMs := r.round_eq (hneed.mem r)
  have hfits := covers_round r hsized.scaled hneed
  constructor
  · intro hearned
    have hroom : cost * policy.perMs ≤ max policy.burst cost * policy.perMs :=
      mul_le_mul_of_nonneg_right (le_max_right _ _) hcall.resolved.perMs.le
    refine ⟨_, congrArg Prod.snd (takeTokens_paid (r := r) rfl hpos ?_)⟩
    rw [hget, hround, hmul]
    refine hfits.2 ?_
    show cost * policy.perMs ≤ _
    rw [hlater]
    exact le_min hroom (by linarith)
  · intro hearned
    refine ⟨_, congrArg Prod.snd (takeTokens_refused (r := r) rfl hpos ?_)⟩
    rw [hget, hround, hmul]
    refine mt hfits.1 (not_le.2 ?_)
    show _ < cost * policy.perMs
    rw [hlater]
    exact (min_le_right _ _).trans_lt (by linarith)

end

/-- A refused call is told the first whole time at which it fits: it is granted then, and refused
at every whole time before. Calls on other buckets may come in between. -/
theorem retry_exact (r : Rounding) {name : String} {calls between : List BudgetCall}
    {policy : BudgetPolicy} {cost now wait : ℚ} {refused : Buckets}
    (hcalls : ∀ call ∈ calls, call.name = name → call.Sized)
    (hcall : BudgetCall.Sized ⟨name, .take cost, policy, now⟩)
    (hhigh : policy.requests < 1000000000)
    (hneed : cost * policy.perMs ≤ 2 ^ 51 * (1 - policy.requests / 1000000000))
    (hnow : |now| ≤ 2 ^ 51)
    (hpast : ∀ b, (afterCalls r .empty calls).get name = some b → b.updatedAt ≤ now)
    (h : takeTokens r (afterCalls r .empty calls) name cost policy now = (refused, .retry wait))
    (hbetween : ∀ call ∈ between, call.name ≠ name) :
    (∃ remaining, (takeTokens r (afterCalls r refused between) name cost policy (now + wait)).2 =
      .ok remaining) ∧
    ∀ t ∈ wholes, now ≤ t → t < now + wait →
      ∃ wait', (takeTokens r (afterCalls r refused between) name cost policy t).2 = .retry wait' := by
  have hpos : cost > 0 := by
    by_contra hfree
    rw [takeTokens_free hfree] at h
    simp at h
  have hcap : BudgetCall.capacity ⟨name, .take cost, policy, now⟩ = max policy.burst cost :=
    if_pos hpos
  have hb : ∀ b, (afterCalls r .empty calls).get name = some b → b.Sized :=
    sized_afterCalls r hcalls (by rintro b ⟨⟩)
  have hround := hcall.filled_round r hb
  have hsized := hcall.filled_sized hb
  simp only [BudgetCall.filled, hcap] at hround hsized
  generalize hfilled : refilled .exact policy now (max policy.burst cost)
    ((afterCalls r .empty calls).get name) = filled at hround hsized
  have hneed' := hcall.need hpos
  have hmul : r.mul cost policy.perMs = cost * policy.perMs := r.round_eq (hneed'.mem r)
  have hfull : filled.scaled ≤ max policy.burst cost * policy.perMs := hfilled ▸ refilled_le
  have hat : filled.updatedAt = now := by
    rw [← hfilled, refilled_updatedAt]
    cases hbucket : (afterCalls r .empty calls).get name with
    | none => rfl
    | some b => exact max_eq_left (hpast b hbucket)
  by_cases hfits : r.add filled.scaled (epsilon r) ≥ r.mul cost policy.perMs
  · -- a take that is paid for is not told to wait
    rw [takeTokens_paid hround hpos hfits] at h
    simp at h
  · rw [takeTokens_refused hround hpos hfits] at h
    obtain ⟨hrefused, hwait⟩ := Prod.mk.inj h
    have hshort : 0 < cost * policy.perMs - filled.scaled := by
      rw [hmul] at hfits
      exact sub_pos.2 (not_le.1 fun hle => hfits ((covers_round r hsized.scaled hneed').2 hle))
    -- the deficit is a small whole number, so nothing of it is rounded
    have hdeficit : cost * policy.perMs - filled.scaled ∈ wholes :=
      wholes.sub_mem hneed'.whole hsized.scaled.whole
    have hsub : r.sub (r.mul cost policy.perMs) filled.scaled =
        cost * policy.perMs - filled.scaled := by
      have hnonneg := hsized.nonneg
      have hmax : cost * policy.perMs ≤ 2 ^ 53 := hneed'.high
      rw [hmul]
      exact r.round_eq (Small.mem r ⟨hdeficit, by linarith, by linarith⟩)
    have hless : cost * policy.perMs - filled.scaled ≤ cost * policy.perMs :=
      sub_le_self _ hsized.nonneg
    obtain ⟨hwhole, hone, hearned, hbefore⟩ := retryIn_exact r hdeficit hcall.whole.policy.requests
      hshort hcall.resolved.requests hhigh (hless.trans hneed)
    rw [hsub] at hwait
    rw [TakeResult.retry.inj hwait] at hwhole hone hearned hbefore
    have hget : (afterCalls r refused between).get name = some filled := by
      rw [afterCalls_other hbetween, ← hrefused, OrderedMap.get_set_self]
    -- the wait stays within the times that are whole numbers of doubles
    have hlong : wait ≤ 2 ^ 51 := by
      refine (retryIn_le hdeficit hcall.resolved.requests hshort hbefore).trans
        (hless.trans (hneed.trans ?_))
      have hrequests : 1 ≤ policy.requests := hcall.resolved.requests
      linarith
    have hlater : ∀ t ∈ wholes, now ≤ t → t ≤ now + wait →
        BudgetCall.Sized ⟨name, .take cost, policy, t⟩ := by
      intro t ht hfrom hto
      refine ⟨⟨hcall.whole.policy, hcall.whole.cost, ht⟩, hcall.resolved, hcall.capacity, ?_⟩
      obtain ⟨hmin, hmax⟩ := abs_le.1 hnow
      norm_num at hmin hmax hlong
      exact abs_le.2 ⟨by norm_num; linarith, by norm_num; linarith⟩
    constructor
    · have hat' := hlater (now + wait) (wholes.add_mem hcall.whole.now hwhole) (by linarith) le_rfl
      refine (later_take r hat' hpos hget hsized hat hfull (by linarith)).1 ?_
      rw [add_sub_cancel_left]
      exact hearned
    · intro t ht hfrom hto
      exact (later_take r (hlater t ht hfrom hto.le) hpos hget hsized hat hfull hfrom).2
        (hbefore (t - now) (wholes.sub_mem ht hcall.whole.now) (by linarith))

/-- Three tokens asked of a full bucket of two fit after half a second, not before. -/
theorem retry_exact_sample :
    (∃ remaining, (takeTokens .double (takeTokens .double .empty "erp" 3 twoPerSecond 0).1 "erp" 3
        twoPerSecond (0 + 500)).2 = .ok remaining) ∧
    ∀ t ∈ wholes, 0 ≤ t → t < 0 + 500 →
      ∃ wait, (takeTokens .double (takeTokens .double .empty "erp" 3 twoPerSecond 0).1 "erp" 3
        twoPerSecond t).2 = .retry wait := by
  have hcall : BudgetCall.Sized ⟨"erp", .take 3, twoPerSecond, 0⟩ :=
    ⟨⟨twoPerSecond_whole, ⟨3, rfl⟩, ⟨0, rfl⟩⟩, twoPerSecond_resolved, by decide +kernel,
      by decide +kernel⟩
  exact @retry_exact .double "erp" [] [] twoPerSecond 3 0 500 _ nofun hcall (by decide +kernel)
    (by decide +kernel) (by decide +kernel) nofun (Prod.ext rfl (by decide +kernel)) nofun

/-- Almost a thousand million requests a second. -/
def crowded : BudgetPolicy := ⟨999999999, 1000, 1000000⟩

/-- The rounded quotient loses what the bucket lacks: the call comes back too early. -/
theorem retry_early :
    let spent := (takeTokens .double .empty "erp" 1000000 crowded 0).1
    let refused := takeTokens .double spent "erp" 1000000 crowded 0
    refused.2 = .retry 1 ∧
      (takeTokens .double refused.1 "erp" 1000000 crowded (0 + 1)).2 = .retry 1 := by
  decide +kernel

end Watukuy
