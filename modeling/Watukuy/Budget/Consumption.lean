import Mathlib.Algebra.Ring.Subring.Basic
import Mathlib.Tactic.Linarith
import Mathlib.Tactic.Ring
import Mathlib.Tactic.FieldSimp
import Watukuy.Budget.MemoryStore

/-!
# What a budget lets through

With whole parameters every content of a bucket is whole, and a call takes exactly what it is
granted. The stored tokens less those refilled since a fixed time never grow, which bounds what is
granted in any stretch of time. The arithmetic here is exact; `Budget/Rounded` says when that of
doubles is the same.
-/

set_option autoImplicit false

namespace Watukuy

open Library

/-! ## Whole numbers -/

/-- The rational numbers that are integers. -/
def wholes : Subring ℚ := (Int.castRingHom ℚ).range

theorem mem_wholes {x : ℚ} : x ∈ wholes ↔ ∃ z : ℤ, (z : ℚ) = x := Iff.rfl

theorem max_mem_wholes {x y : ℚ} (hx : x ∈ wholes) (hy : y ∈ wholes) : max x y ∈ wholes := by
  rcases max_choice x y with h | h <;> rw [h] <;> assumption

theorem min_mem_wholes {x y : ℚ} (hx : x ∈ wholes) (hy : y ∈ wholes) : min x y ∈ wholes := by
  rcases min_choice x y with h | h <;> rw [h] <;> assumption

/-- Whole numbers are one apart. -/
theorem add_one_le_of_wholes {x y : ℚ} (hx : x ∈ wholes) (hy : y ∈ wholes) (h : x < y) :
    x + 1 ≤ y := by
  obtain ⟨a, rfl⟩ := mem_wholes.1 hx
  obtain ⟨b, rfl⟩ := mem_wholes.1 hy
  have hab : a < b := Int.cast_lt.1 h
  exact_mod_cast hab

/-- Between whole numbers the tolerance decides nothing. -/
theorem covers_iff {x y : ℚ} (hx : x ∈ wholes) (hy : y ∈ wholes) :
    x + 1 / 1000000000 ≥ y ↔ y ≤ x := by
  constructor
  · intro h
    by_contra hlt
    have hone := add_one_le_of_wholes hx hy (not_le.1 hlt)
    linarith
  · intro h
    linarith

/-! ## Whole calls and buckets -/

/-- What `resolveBudgetPolicy` lets through. -/
structure BudgetPolicy.Resolved (policy : BudgetPolicy) : Prop where
  requests : 1 ≤ policy.requests
  perMs : 0 < policy.perMs
  burst : 1 ≤ policy.burst

structure BudgetPolicy.Whole (policy : BudgetPolicy) : Prop where
  requests : policy.requests ∈ wholes
  perMs : policy.perMs ∈ wholes
  burst : policy.burst ∈ wholes

/-- The cost that a call asks for. -/
def BudgetCall.cost (call : BudgetCall) : ℚ :=
  match call.request with
  | .take cost => cost
  | .peek => 0

structure BudgetCall.Whole (call : BudgetCall) : Prop where
  policy : call.policy.Whole
  cost : call.cost ∈ wholes
  now : call.now ∈ wholes

structure Bucket.Whole (bucket : Bucket) : Prop where
  scaled : bucket.scaled ∈ wholes
  updatedAt : bucket.updatedAt ∈ wholes

/-- The capacity of the bucket for one call. -/
def BudgetCall.capacity (call : BudgetCall) : ℚ :=
  if call.cost > 0 then max call.policy.burst call.cost else call.policy.burst

/-- The bucket as a call refills it. -/
def BudgetCall.filled (r : Rounding) (call : BudgetCall) (bucket : Option Bucket) : Bucket :=
  refilled r call.policy call.now call.capacity bucket

theorem BudgetCall.capacity_le (call : BudgetCall) :
    call.capacity ≤ max call.policy.burst call.cost := by
  unfold capacity
  split
  · exact le_rfl
  · exact le_max_left _ _

theorem BudgetCall.burst_le_capacity (call : BudgetCall) :
    call.policy.burst ≤ call.capacity := by
  unfold capacity
  split
  · exact le_max_left _ _
  · exact le_rfl

theorem BudgetCall.Whole.capacity {call : BudgetCall} (hcall : call.Whole) :
    call.capacity ∈ wholes := by
  unfold BudgetCall.capacity
  split
  · exact max_mem_wholes hcall.policy.burst hcall.cost
  · exact hcall.policy.burst

/-! ## What a refill does -/

section
variable {policy : BudgetPolicy} {now capacity : ℚ} {bucket : Option Bucket} {b : Bucket}

theorem refilled_exact : refilled .exact policy now capacity (some b) =
    if now - b.updatedAt > 0 then
      ⟨min (capacity * policy.perMs) (b.scaled + (now - b.updatedAt) * policy.requests), now⟩
    else if b.scaled > capacity * policy.perMs then
      { b with scaled := capacity * policy.perMs }
    else b := rfl

/-- A refill keeps whole contents whole. -/
theorem refilled_whole (hp : policy.Whole) (hnow : now ∈ wholes) (hcapacity : capacity ∈ wholes)
    (hbucket : ∀ b, bucket = some b → b.Whole) :
    (refilled .exact policy now capacity bucket).Whole := by
  have hcap : capacity * policy.perMs ∈ wholes := wholes.mul_mem hcapacity hp.perMs
  cases bucket with
  | none =>
    have hburst := wholes.mul_mem hp.burst hp.perMs
    exact ⟨min_mem_wholes hcap hburst, hnow⟩
  | some b =>
    have hb := hbucket b rfl
    have helapsed := wholes.sub_mem hnow hb.updatedAt
    have hgain := wholes.add_mem hb.scaled (wholes.mul_mem helapsed hp.requests)
    rw [refilled_exact]
    split
    · exact ⟨min_mem_wholes hcap hgain, hnow⟩
    · split
      · exact ⟨hcap, hb.updatedAt⟩
      · exact hb

/-- A refill never exceeds the capacity. -/
theorem refilled_le :
    (refilled .exact policy now capacity bucket).scaled ≤ capacity * policy.perMs := by
  cases bucket with
  | none => exact min_le_left _ _
  | some b =>
    rw [refilled_exact]
    split
    · exact min_le_left _ _
    · split
      · exact le_rfl
      · next h => exact not_lt.1 h

/-- A refill adds at most what the elapsed time earns. -/
theorem refilled_gain :
    (refilled .exact policy now capacity (some b)).scaled ≤ b.scaled +
      policy.requests * ((refilled .exact policy now capacity (some b)).updatedAt - b.updatedAt) := by
  rw [refilled_exact]
  split
  · have hmin := min_le_right (capacity * policy.perMs)
      (b.scaled + (now - b.updatedAt) * policy.requests)
    linarith
  · split
    · next h =>
      simp only [sub_self, mul_zero, add_zero]
      exact le_of_lt h
    · simp

/-- A refill moves the bucket to the clock value, unless the bucket is past it. -/
theorem refilled_updatedAt :
    (refilled .exact policy now capacity bucket).updatedAt =
      (bucket.map Bucket.updatedAt).elim now (max now) := by
  cases bucket with
  | none => rfl
  | some b =>
    rw [refilled_exact, Option.map_some, Option.elim_some]
    split
    · next h => exact (max_eq_left (le_of_lt (sub_pos.1 h))).symm
    · next h =>
      have hle : now ≤ b.updatedAt := by linarith
      rw [max_eq_right hle]
      split <;> rfl

theorem refilled_nonneg (hp : policy.Resolved) (hcapacity : policy.burst ≤ capacity)
    (hbucket : ∀ b, bucket = some b → 0 ≤ b.scaled) :
    0 ≤ (refilled .exact policy now capacity bucket).scaled := by
  have hburst : 0 ≤ policy.burst * policy.perMs :=
    mul_nonneg (zero_le_one.trans hp.burst) (le_of_lt hp.perMs)
  have hcap : 0 ≤ capacity * policy.perMs :=
    hburst.trans (mul_le_mul_of_nonneg_right hcapacity (le_of_lt hp.perMs))
  cases bucket with
  | none => exact le_min hcap hburst
  | some b =>
    have hb := hbucket b rfl
    rw [refilled_exact]
    split
    · next h =>
      have hgain : 0 ≤ (now - b.updatedAt) * policy.requests :=
        mul_nonneg (le_of_lt h) (zero_le_one.trans hp.requests)
      exact le_min hcap (add_nonneg hb hgain)
    · split
      · exact hcap
      · exact hb

/-- A bucket that has just been refilled holds the refill since then, up to the capacity. -/
theorem refilled_later {t : ℚ} (hat : b.updatedAt = now)
    (hfull : b.scaled ≤ capacity * policy.perMs) (ht : now ≤ t) :
    (refilled .exact policy t capacity (some b)).scaled =
      min (capacity * policy.perMs) (b.scaled + (t - now) * policy.requests) := by
  rw [refilled_exact, hat]
  split
  · rfl
  · next h =>
    have heq : t - now = 0 := le_antisymm (not_lt.1 h) (sub_nonneg.2 ht)
    rw [if_neg (not_lt.2 hfull), heq, zero_mul, add_zero, min_eq_right hfull]

end

/-! ## What a call leaves -/

theorem BudgetCall.Whole.filled {call : BudgetCall} (hcall : call.Whole) {bucket : Option Bucket}
    (hbucket : ∀ b, bucket = some b → b.Whole) : (call.filled .exact bucket).Whole :=
  refilled_whole hcall.policy hcall.now hcall.capacity hbucket

theorem BudgetCall.spends_nonneg (call : BudgetCall) (bucket : Option Bucket) :
    0 ≤ call.spends .exact bucket := by
  unfold BudgetCall.spends
  cases call.request with
  | peek => exact le_rfl
  | take cost =>
    by_cases hcost : cost > 0
    · simp only [if_pos hcost]
      split
      · exact le_of_lt hcost
      · exact le_rfl
    · simp [hcost]

/-- A call leaves the refilled bucket less what it is granted. -/
theorem BudgetCall.Whole.leaves_eq {call : BudgetCall} (hcall : call.Whole)
    {bucket : Option Bucket} (hbucket : ∀ b, bucket = some b → b.Whole) :
    call.leaves .exact bucket =
      ⟨(call.filled .exact bucket).scaled - call.spends .exact bucket * call.policy.perMs,
        (call.filled .exact bucket).updatedAt⟩ := by
  have hfilled := hcall.filled hbucket
  obtain ⟨name, request, policy, now⟩ := call
  cases request with
  | peek => simp [BudgetCall.leaves, BudgetCall.filled, BudgetCall.spends, BudgetCall.capacity,
      BudgetCall.cost]
  | take cost =>
    by_cases hcost : cost > 0
    · have hneed : cost * policy.perMs ∈ wholes := wholes.mul_mem hcall.cost hcall.policy.perMs
      have hcap : BudgetCall.capacity ⟨name, .take cost, policy, now⟩ = max policy.burst cost :=
        if_pos hcost
      simp only [BudgetCall.filled, hcap] at hfilled ⊢
      simp only [BudgetCall.leaves, BudgetCall.spends, if_pos hcost]
      by_cases hfits : Rounding.exact.add
          (refilled .exact policy now (max policy.burst cost) bucket).scaled (epsilon .exact) ≥
          Rounding.exact.mul cost policy.perMs
      · have hle := (covers_iff hfilled.scaled hneed).1 hfits
        rw [if_pos hfits, if_pos hfits, Rounding.exact_sub, Rounding.exact_mul,
          max_eq_right (sub_nonneg.2 hle)]
      · rw [if_neg hfits, if_neg hfits, zero_mul, sub_zero]
    · simp [BudgetCall.leaves, BudgetCall.filled, BudgetCall.spends, BudgetCall.capacity,
        BudgetCall.cost, hcost]

theorem BudgetCall.Whole.leaves {call : BudgetCall} (hcall : call.Whole)
    {bucket : Option Bucket} (hbucket : ∀ b, bucket = some b → b.Whole) :
    (call.leaves .exact bucket).Whole := by
  have hfilled := hcall.filled hbucket
  have hspends : call.spends .exact bucket ∈ wholes := by
    have hcost := hcall.cost
    obtain ⟨name, request, policy, now⟩ := call
    cases request with
    | peek => exact wholes.zero_mem
    | take cost =>
      simp only [BudgetCall.spends]
      split
      · split
        · exact hcost
        · exact wholes.zero_mem
      · exact wholes.zero_mem
  rw [hcall.leaves_eq hbucket]
  have hpaid := wholes.mul_mem hspends hcall.policy.perMs
  exact ⟨wholes.sub_mem hfilled.scaled hpaid, hfilled.updatedAt⟩

theorem BudgetCall.leaves_nonneg {call : BudgetCall} (hp : call.policy.Resolved)
    (hcall : call.Whole) {bucket : Option Bucket} (hwhole : ∀ b, bucket = some b → b.Whole)
    (hbucket : ∀ b, bucket = some b → 0 ≤ b.scaled) : 0 ≤ (call.leaves .exact bucket).scaled := by
  have hfilled : 0 ≤ (call.filled .exact bucket).scaled :=
    refilled_nonneg hp call.burst_le_capacity hbucket
  by_cases hspends : call.spends .exact bucket = 0
  · rw [hcall.leaves_eq hwhole, hspends, zero_mul, sub_zero]
    exact hfilled
  · obtain ⟨name, request, policy, now⟩ := call
    cases request with
    | peek => exact absurd rfl hspends
    | take cost =>
      simp only [BudgetCall.spends] at hspends
      simp only [BudgetCall.leaves]
      split at hspends
      · next hcost =>
        split at hspends
        · next hfits =>
          rw [if_pos hcost, if_pos hfits]
          exact le_max_left _ _
        · exact absurd rfl hspends
      · exact absurd rfl hspends

/-! ## What a stretch of time is granted -/

/-- The tokens granted under a name from one time to another, both included. -/
def consumed (name : String) (start stop : ℚ) (log : List (BudgetCall × BudgetReply)) : ℚ :=
  ((log.filter fun e => e.1.name = name ∧ start ≤ e.1.now ∧ e.1.now ≤ stop).map
    fun e => e.2.granted e.1).sum

/-- The largest cost asked for under a name until a time. -/
def largestCost (name : String) (stop : ℚ) (calls : List BudgetCall) : ℚ :=
  ((calls.filter fun call => call.name = name ∧ call.now ≤ stop).map BudgetCall.cost).foldr max 0

/-- The calls on a bucket come in the order of their clock values. -/
def Chronological (name : String) (calls : List BudgetCall) : Prop :=
  calls.Pairwise fun a b => a.name = name → b.name = name → a.now ≤ b.now

instance (name : String) (calls : List BudgetCall) : Decidable (Chronological name calls) :=
  inferInstanceAs (Decidable (calls.Pairwise _))

/-- The calls on a bucket are whole and have one policy. -/
def Uniform (name : String) (policy : BudgetPolicy) (calls : List BudgetCall) : Prop :=
  ∀ call ∈ calls, call.name = name → call.policy = policy ∧ call.Whole

/-- The bucket of a name before a sequence of calls. -/
structure Awaits (name : String) (calls : List BudgetCall) (buckets : Buckets) : Prop where
  whole : ∀ b, buckets.get name = some b → b.Whole
  nonneg : ∀ b, buckets.get name = some b → 0 ≤ b.scaled
  past : ∀ b, buckets.get name = some b → ∀ call ∈ calls, call.name = name →
    b.updatedAt ≤ call.now

section
variable {name : String} {policy : BudgetPolicy} {start stop : ℚ} {buckets : Buckets}
  {call : BudgetCall} {calls : List BudgetCall}

/-- The entry of one call counts when it is on the bucket and within the time. -/
theorem consumed_cons (e : BudgetCall × BudgetReply) (log : List (BudgetCall × BudgetReply)) :
    consumed name start stop (e :: log) =
      (if e.1.name = name ∧ start ≤ e.1.now ∧ e.1.now ≤ stop then e.2.granted e.1 else 0) +
        consumed name start stop log := by
  unfold consumed
  rw [List.filter_cons]
  split
  · next h => rw [if_pos (of_decide_eq_true h), List.map_cons, List.sum_cons]
  · next h => rw [if_neg (fun hc => h (decide_eq_true hc)), zero_add]

/-- Calls after the time count nothing. -/
theorem consumed_late (h : ∀ call ∈ calls, call.name = name → stop < call.now) :
    consumed name start stop (served .exact buckets calls) = 0 := by
  induction calls generalizing buckets with
  | nil => rfl
  | cons call calls ih =>
    have hrest : consumed name start stop (served .exact (call.perform .exact buckets).1 calls) = 0 :=
      ih fun c hc => h c (List.mem_cons_of_mem _ hc)
    rw [served, consumed_cons, hrest, add_zero]
    refine if_neg ?_
    rintro ⟨hname, -, hstop⟩
    exact absurd hstop (not_le.2 (h call List.mem_cons_self hname))

theorem largestCost_cons :
    largestCost name stop (call :: calls) =
      if call.name = name ∧ call.now ≤ stop then max call.cost (largestCost name stop calls)
      else largestCost name stop calls := by
  unfold largestCost
  rw [List.filter_cons]
  split
  · next h => rw [if_pos (of_decide_eq_true h), List.map_cons, List.foldr_cons]
  · next h => rw [if_neg (fun hc => h (decide_eq_true hc))]

theorem largestCost_le_cons :
    largestCost name stop calls ≤ largestCost name stop (call :: calls) := by
  rw [largestCost_cons]
  split
  · exact le_max_right _ _
  · exact le_rfl

theorem Uniform.tail (h : Uniform name policy (call :: calls)) : Uniform name policy calls :=
  fun c hc => h c (List.mem_cons_of_mem _ hc)

theorem Chronological.tail (h : Chronological name (call :: calls)) : Chronological name calls :=
  (List.pairwise_cons.1 h).2

/-- A call on another bucket leaves the wait as it was. -/
theorem Awaits.other (h : Awaits name (call :: calls) buckets) (hname : name ≠ call.name) :
    Awaits name calls (call.perform .exact buckets).1 := by
  have hget := BudgetCall.perform_other .exact hname buckets
  constructor
  · intro b hb
    exact h.whole b (hget ▸ hb)
  · intro b hb
    exact h.nonneg b (hget ▸ hb)
  · intro b hb c hc
    exact h.past b (hget ▸ hb) c (List.mem_cons_of_mem _ hc)

/-- A call on the bucket moves it to the clock value of the call. -/
theorem Awaits.updatedAt (h : Awaits name (call :: calls) buckets) (hname : call.name = name) :
    (call.filled .exact (buckets.get name)).updatedAt = call.now := by
  rw [BudgetCall.filled, refilled_updatedAt]
  cases hb : buckets.get name with
  | none => rfl
  | some b => exact max_eq_left (h.past b hb call List.mem_cons_self hname)

theorem Awaits.own (h : Awaits name (call :: calls) buckets) (hname : call.name = name)
    (hp : policy.Resolved) (hu : Uniform name policy (call :: calls))
    (hc : Chronological name (call :: calls)) : Awaits name calls (call.perform .exact buckets).1 := by
  obtain ⟨hpolicy, hcall⟩ := hu call List.mem_cons_self hname
  have hat := h.updatedAt hname
  have hleaves := (call.perform_self .exact buckets).1
  rw [hname] at hleaves
  constructor
  · intro b hb
    obtain rfl := Option.some.inj (hleaves.symm.trans hb)
    exact hcall.leaves h.whole
  · intro b hb
    obtain rfl := Option.some.inj (hleaves.symm.trans hb)
    exact BudgetCall.leaves_nonneg (hpolicy ▸ hp) hcall h.whole h.nonneg
  · intro b hb c hmem hcname
    obtain rfl := Option.some.inj (hleaves.symm.trans hb)
    rw [hcall.leaves_eq h.whole]
    have hnow : call.now ≤ c.now := (List.pairwise_cons.1 hc).1 c hmem hname hcname
    simp only [hat]
    exact hnow

/-- What later calls are granted is paid by the stored tokens and by the refill. -/
theorem consumed_le_stored (hp : policy.Resolved) (h : Awaits name calls buckets)
    (hu : Uniform name policy calls) (hc : Chronological name calls) {b : Bucket}
    (hb : buckets.get name = some b) (hstop : b.updatedAt ≤ stop) :
    consumed name start stop (served .exact buckets calls) * policy.perMs ≤
      b.scaled + policy.requests * (stop - b.updatedAt) := by
  have hrequests : 0 ≤ policy.requests := zero_le_one.trans hp.requests
  induction calls generalizing buckets b with
  | nil =>
    have hrefill := mul_nonneg hrequests (sub_nonneg.2 hstop)
    have hstored := h.nonneg b hb
    simp only [served, consumed, List.filter_nil, List.map_nil, List.sum_nil, zero_mul]
    exact add_nonneg hstored hrefill
  | cons call calls ih =>
    by_cases hname : call.name = name
    · obtain ⟨hpolicy, hcall⟩ := hu call List.mem_cons_self hname
      by_cases hnow : call.now ≤ stop
      · -- the grant and the stored tokens together grow by the refill at most
        have hleaves := (call.perform_self .exact buckets).1
        have hgrant := (call.perform_self .exact buckets).2
        have hat := h.updatedAt hname
        rw [hname] at hleaves hgrant
        have heq := hcall.leaves_eq h.whole
        have hrest := ih (h.own hname hp hu hc) hu.tail hc.tail hleaves
          (by rw [heq]; exact hat.trans_le hnow)
        have hgain : (call.filled .exact (some b)).scaled ≤ b.scaled +
            call.policy.requests * ((call.filled .exact (some b)).updatedAt - b.updatedAt) :=
          refilled_gain
        rw [hb] at heq hat hgrant
        rw [hb, heq] at hrest
        rw [hpolicy] at hrest hgain
        simp only [hat] at hrest hgain
        have hspends := mul_nonneg (call.spends_nonneg (some b)) (le_of_lt hp.perMs)
        rw [served, consumed_cons, add_mul, hgrant]
        split <;> linarith
      · have hlate : ∀ c ∈ call :: calls, c.name = name → stop < c.now := by
          intro c hmem hcname
          rcases List.mem_cons.1 hmem with rfl | hmem
          · exact not_le.1 hnow
          · exact (not_le.1 hnow).trans_le
              ((List.pairwise_cons.1 hc).1 c hmem hname hcname)
        rw [consumed_late hlate, zero_mul]
        exact add_nonneg (h.nonneg b hb) (mul_nonneg hrequests (sub_nonneg.2 hstop))
    · have hother : name ≠ call.name := Ne.symm hname
      have hget := BudgetCall.perform_other .exact hother buckets
      have hrest := ih (h.other hother) hu.tail hc.tail (hget.trans hb) hstop
      rw [served, consumed_cons, if_neg (fun hin => hname hin.1), zero_add]
      exact hrest

/-- From its first call on, a stretch of time is granted a full bucket and the refill. -/
theorem consumed_le_capacity (hp : policy.Resolved) (h : Awaits name calls buckets)
    (hu : Uniform name policy calls) (hc : Chronological name calls) (hstart : start ≤ stop) :
    consumed name start stop (served .exact buckets calls) * policy.perMs ≤
      max policy.burst (largestCost name stop calls) * policy.perMs +
        policy.requests * (stop - start) := by
  have hrequests : 0 ≤ policy.requests := zero_le_one.trans hp.requests
  have hrefill := mul_nonneg hrequests (sub_nonneg.2 hstart)
  have hburst : 0 ≤ policy.burst := zero_le_one.trans hp.burst
  have hfull : ∀ m, 0 ≤ max policy.burst m * policy.perMs := fun m =>
    mul_nonneg (hburst.trans (le_max_left _ _)) (le_of_lt hp.perMs)
  induction calls generalizing buckets with
  | nil =>
    simp only [served, consumed, List.filter_nil, List.map_nil, List.sum_nil, zero_mul]
    exact add_nonneg (hfull _) hrefill
  | cons call calls ih =>
    have hmono : max policy.burst (largestCost name stop calls) * policy.perMs ≤
        max policy.burst (largestCost name stop (call :: calls)) * policy.perMs :=
      mul_le_mul_of_nonneg_right (max_le_max_left _ largestCost_le_cons) (le_of_lt hp.perMs)
    by_cases hname : call.name = name
    · obtain ⟨hpolicy, hcall⟩ := hu call List.mem_cons_self hname
      by_cases hnow : call.now ≤ stop
      · by_cases hbefore : start ≤ call.now
        · -- the first call of the stretch finds at most its own capacity
          have hleaves := (call.perform_self .exact buckets).1
          have hgrant := (call.perform_self .exact buckets).2
          have hat := h.updatedAt hname
          rw [hname] at hleaves hgrant
          have heq := hcall.leaves_eq h.whole
          have hwithin : (call.leaves .exact (buckets.get name)).updatedAt ≤ stop := by
            rw [heq]
            exact hat.trans_le hnow
          have hrest : consumed name start stop (served .exact (call.perform .exact buckets).1 calls) * _ ≤ _ :=
            consumed_le_stored hp (h.own hname hp hu hc) hu.tail hc.tail hleaves hwithin
          have hfilled : (call.filled .exact (buckets.get name)).scaled ≤
              call.capacity * call.policy.perMs := refilled_le
          have hcap : call.capacity * policy.perMs ≤
              max policy.burst (largestCost name stop (call :: calls)) * policy.perMs := by
            refine mul_le_mul_of_nonneg_right (call.capacity_le.trans ?_) (le_of_lt hp.perMs)
            rw [hpolicy, largestCost_cons, if_pos ⟨hname, hnow⟩]
            exact max_le_max_left _ (le_max_left _ _)
          have hless : policy.requests * (stop - call.now) ≤ policy.requests * (stop - start) :=
            mul_le_mul_of_nonneg_left (sub_le_sub_left hbefore _) hrequests
          rw [heq] at hrest
          rw [hpolicy] at hrest hfilled
          simp only [hat] at hrest
          rw [served, consumed_cons, add_mul, hgrant, if_pos ⟨hname, hbefore, hnow⟩]
          linarith
        · have hrest := ih (h.own hname hp hu hc) hu.tail hc.tail
          rw [served, consumed_cons, if_neg (fun hin => hbefore hin.2.1), zero_add]
          exact hrest.trans (add_le_add_left hmono _)
      · have hrest := ih (h.own hname hp hu hc) hu.tail hc.tail
        rw [served, consumed_cons, if_neg (fun hin => hnow hin.2.2), zero_add]
        exact hrest.trans (add_le_add_left hmono _)
    · have hrest := ih (h.other (Ne.symm hname)) hu.tail hc.tail
      rw [served, consumed_cons, if_neg (fun hin => hname hin.1), zero_add]
      exact hrest.trans (add_le_add_left hmono _)

end

/-! ## Clock values that go back -/

section
variable {name : String} {buckets : Buckets} {call : BudgetCall} {calls : List BudgetCall}

/-- After whole calls a bucket is whole. -/
theorem whole_afterCalls (hcalls : ∀ call ∈ calls, call.name = name → call.Whole)
    (h : ∀ b, buckets.get name = some b → b.Whole) :
    ∀ b, (afterCalls .exact buckets calls).get name = some b → b.Whole := by
  induction calls generalizing buckets with
  | nil => exact h
  | cons call calls ih =>
    refine ih (fun c hc => hcalls c (List.mem_cons_of_mem _ hc)) ?_
    intro b hb
    by_cases hname : call.name = name
    · have hleaves := (call.perform_self .exact buckets).1
      rw [hname] at hleaves
      obtain rfl := Option.some.inj (hleaves.symm.trans hb)
      exact (hcalls call List.mem_cons_self hname).leaves h
    · rw [BudgetCall.perform_other .exact (Ne.symm hname)] at hb
      exact h b hb

/-- No call takes a bucket back in time. -/
theorem BudgetCall.Whole.le_updatedAt (hcall : call.Whole) {bucket : Option Bucket}
    (hbucket : ∀ b, bucket = some b → b.Whole) :
    call.now ≤ (call.leaves .exact bucket).updatedAt ∧
      ∀ b, bucket = some b → b.updatedAt ≤ (call.leaves .exact bucket).updatedAt := by
  have hat : (call.leaves .exact bucket).updatedAt =
      (bucket.map Bucket.updatedAt).elim call.now (max call.now) := by
    rw [hcall.leaves_eq hbucket, BudgetCall.filled, refilled_updatedAt]
  rw [hat]
  cases bucket with
  | none => exact ⟨le_rfl, nofun⟩
  | some b =>
    refine ⟨le_max_left _ _, ?_⟩
    rintro _ ⟨⟩
    exact le_max_right _ _

/-- A bucket that is there stays there, and its time does not go back. -/
theorem updatedAt_afterCalls (hcalls : ∀ call ∈ calls, call.name = name → call.Whole)
    (h : ∀ b, buckets.get name = some b → b.Whole) {b : Bucket}
    (hb : buckets.get name = some b) :
    ∃ b', (afterCalls .exact buckets calls).get name = some b' ∧ b.updatedAt ≤ b'.updatedAt := by
  induction calls generalizing buckets b with
  | nil => exact ⟨b, hb, le_rfl⟩
  | cons call calls ih =>
    have htail := fun c hc => hcalls c (List.mem_cons_of_mem _ hc)
    by_cases hname : call.name = name
    · have hcall := hcalls call List.mem_cons_self hname
      have hleaves := (call.perform_self .exact buckets).1
      rw [hname] at hleaves
      have hwhole : ∀ b, (call.perform .exact buckets).1.get name = some b → b.Whole := by
        intro b hb
        obtain rfl := Option.some.inj (hleaves.symm.trans hb)
        exact hcall.leaves h
      obtain ⟨b', hb', hle⟩ := ih htail hwhole hleaves
      exact ⟨b', hb', ((hcall.le_updatedAt h).2 b hb).trans hle⟩
    · have hget := BudgetCall.perform_other .exact (Ne.symm hname) buckets
      exact ih htail (fun b hb => h b (hget ▸ hb)) (hget.trans hb)

/-- The time of a bucket is at or past every call on it. -/
theorem now_le_updatedAt (hcalls : ∀ call ∈ calls, call.name = name → call.Whole)
    (h : ∀ b, buckets.get name = some b → b.Whole) {earlier : BudgetCall}
    (hmem : earlier ∈ calls) (hname : earlier.name = name) :
    ∃ b, (afterCalls .exact buckets calls).get name = some b ∧ earlier.now ≤ b.updatedAt := by
  obtain ⟨before, later, rfl⟩ := List.append_of_mem hmem
  have hbefore : ∀ b, (afterCalls .exact buckets before).get name = some b → b.Whole :=
    whole_afterCalls (fun c hc => hcalls c (List.mem_append_left _ hc)) h
  have hcall := hcalls earlier hmem hname
  have hleaves := (earlier.perform_self .exact (afterCalls .exact buckets before)).1
  rw [hname] at hleaves
  have hwhole : ∀ b, (earlier.perform .exact (afterCalls .exact buckets before)).1.get name = some b →
      b.Whole := by
    intro b hb
    obtain rfl := Option.some.inj (hleaves.symm.trans hb)
    exact hcall.leaves hbefore
  obtain ⟨b', hb', hle⟩ := updatedAt_afterCalls
    (fun c hc => hcalls c (List.mem_append_right _ (List.mem_cons_of_mem _ hc))) hwhole hleaves
  rw [afterCalls_append, afterCalls_cons]
  exact ⟨b', hb', (hcall.le_updatedAt hbefore).1.trans hle⟩

/-- A call whose clock value is not past the bucket adds nothing to it. -/
theorem BudgetCall.Whole.leaves_le (hcall : call.Whole) (hperMs : 0 ≤ call.policy.perMs)
    {b : Bucket} (hb : b.Whole) (hpast : call.now ≤ b.updatedAt) :
    (call.leaves .exact (some b)).scaled ≤ b.scaled := by
  have hbucket : ∀ b', some b = some b' → b'.Whole := by
    rintro _ ⟨⟩
    exact hb
  have hgain : (call.filled .exact (some b)).scaled ≤ b.scaled +
      call.policy.requests * ((call.filled .exact (some b)).updatedAt - b.updatedAt) := refilled_gain
  have hat : (call.filled .exact (some b)).updatedAt = b.updatedAt := by
    rw [BudgetCall.filled, refilled_updatedAt]
    exact max_eq_right hpast
  have hspends := mul_nonneg (call.spends_nonneg (some b)) hperMs
  rw [hat, sub_self, mul_zero, add_zero] at hgain
  rw [hcall.leaves_eq hbucket]
  exact (sub_le_self _ hspends).trans hgain

end

/-- A budget is never exceeded: what a bucket grants in any stretch of time is at most a full
bucket, or the largest cost asked for so far, and the refill of that time. A call whose clock value
is before that of an earlier call adds nothing to the bucket. -/
theorem consumption_bounded {name : String} {policy : BudgetPolicy} (hp : policy.Resolved)
    {calls : List BudgetCall} (hcalls : Uniform name policy calls) :
    (Chronological name calls → ∀ start width : ℚ, 0 ≤ width →
      consumed name start (start + width) (served .exact .empty calls) ≤
        max policy.burst (largestCost name (start + width) calls) +
          policy.requests * width / policy.perMs) ∧
    ∀ before call after, calls = before ++ call :: after → call.name = name →
      (∃ earlier ∈ before, earlier.name = name ∧ call.now < earlier.now) →
      ∃ b b', (afterCalls .exact .empty before).get name = some b ∧
        (afterCalls .exact .empty (before ++ [call])).get name = some b' ∧ b'.scaled ≤ b.scaled := by
  have hfresh : Awaits name calls .empty := ⟨nofun, nofun, nofun⟩
  constructor
  · intro hc start width hwidth
    have hle : consumed name start (start + width) (served .exact .empty calls) * _ ≤ _ :=
      consumed_le_capacity hp hfresh hcalls hc (le_add_of_nonneg_right hwidth)
    have hperMs : policy.perMs ≠ 0 := ne_of_gt hp.perMs
    have hsum : max policy.burst (largestCost name (start + width) calls) * policy.perMs +
        policy.requests * (start + width - start) =
        (max policy.burst (largestCost name (start + width) calls) +
          policy.requests * width / policy.perMs) * policy.perMs := by
      rw [add_sub_cancel_left, add_mul, div_mul_cancel₀ _ hperMs]
    rw [hsum] at hle
    exact le_of_mul_le_mul_right hle hp.perMs
  · rintro before call after rfl hname ⟨earlier, hmem, hename, hnow⟩
    have hbefore : ∀ c ∈ before, c.name = name → c.Whole := fun c hc hcname =>
      (hcalls c (List.mem_append_left _ hc) hcname).2
    obtain ⟨hpolicy, hcall⟩ := hcalls call (List.mem_append_right _ List.mem_cons_self) hname
    obtain ⟨b, hb, hat⟩ := now_le_updatedAt hbefore hfresh.whole hmem hename
    have hwhole := whole_afterCalls hbefore hfresh.whole b hb
    have hleaves := (call.perform_self .exact (afterCalls .exact .empty before)).1
    rw [hname, hb] at hleaves
    refine ⟨b, call.leaves .exact (some b), hb, ?_, ?_⟩
    · rw [afterCalls_append]
      exact hleaves
    · exact hcall.leaves_le (hpolicy ▸ le_of_lt hp.perMs) hwhole (le_of_lt (hnow.trans_le hat))

/-- Two requests a second, two at once. -/
def twoPerSecond : BudgetPolicy := ⟨2, 1000, 2⟩

/-- A call of a sample run: its cost and its clock value. -/
def sampleTake (c : ℤ × ℤ) : BudgetCall := ⟨"erp", .take c.1, twoPerSecond, c.2⟩

theorem twoPerSecond_whole : twoPerSecond.Whole := ⟨⟨2, rfl⟩, ⟨1000, rfl⟩, ⟨2, rfl⟩⟩

theorem twoPerSecond_resolved : twoPerSecond.Resolved := by
  constructor <;> decide +kernel

theorem uniform_sample (cs : List (ℤ × ℤ)) :
    Uniform "erp" twoPerSecond (cs.map sampleTake) := by
  intro call hmem _
  obtain ⟨c, -, rfl⟩ := List.mem_map.1 hmem
  exact ⟨rfl, twoPerSecond_whole, ⟨c.1, rfl⟩, ⟨c.2, rfl⟩⟩

/-- Small and large takes within a second and a half, and one at an earlier time. -/
theorem consumption_bounded_sample :
    consumed "erp" 0 1500 (served .exact .empty
        ([(1, 0), (3, 0), (3, 1000), (1, 1100), (1, 1500)].map sampleTake)) ≤
      max 2 (largestCost "erp" 1500
        ([(1, 0), (3, 0), (3, 1000), (1, 1100), (1, 1500)].map sampleTake)) + 2 * 1500 / 1000 ∧
    ∃ b b', (afterCalls .exact .empty ([(1, 0), (1, 1000)].map sampleTake)).get "erp" = some b ∧
      (afterCalls .exact .empty ([(1, 0), (1, 1000)].map sampleTake ++ [sampleTake (1, 400)])).get "erp" =
        some b' ∧ b'.scaled ≤ b.scaled := by
  constructor
  · have h := (consumption_bounded twoPerSecond_resolved (uniform_sample
      [(1, 0), (3, 0), (3, 1000), (1, 1100), (1, 1500)])).1 (by decide +kernel) 0 1500
      (by decide +kernel)
    rw [zero_add] at h
    exact h
  · exact (consumption_bounded twoPerSecond_resolved (uniform_sample
      [(1, 0), (1, 1000), (1, 400)])).2 ([(1, 0), (1, 1000)].map sampleTake) (sampleTake (1, 400))
      [] rfl rfl ⟨sampleTake (1, 1000), by decide +kernel, rfl, by decide +kernel⟩

end Watukuy
