import Mathlib.Algebra.Order.Floor.Ring
import Mathlib.Data.Rat.Floor
import Mathlib.Algebra.Order.Ring.Rat
import Watukuy.Library.Double
import Watukuy.Library.OrderedMap

/-!
# The in-memory token bucket

`budget/memory-store.ts`: one bucket per budget name, driven by the clock value of each call. Every
operation rounds its result: the code computes with `Rounding.double`, up to what overflows;
`Rounding.exact` is the arithmetic its comments speak of.
-/

set_option autoImplicit false

namespace Watukuy

open Library

/-- `requests` per `perMs` milliseconds, with a `burst` capacity. -/
structure BudgetPolicy where
  requests : ℚ
  perMs : ℚ
  burst : ℚ
  deriving DecidableEq

/-- The contents are kept in token-milliseconds. -/
structure Bucket where
  scaled : ℚ
  updatedAt : ℚ
  deriving DecidableEq

abbrev Buckets := OrderedMap String Bucket

inductive TakeResult
  | ok (remaining : ℚ)
  | retry (retryInMs : ℚ)
  deriving DecidableEq

section
variable (r : Rounding)

/-- `EPSILON`. -/
def epsilon : ℚ := r.round (1 / 1000000000)

/-- What `#refill` makes of the bucket under a name. -/
def refilled (policy : BudgetPolicy) (now capacityTokens : ℚ) : Option Bucket → Bucket
  | none => ⟨min (r.mul capacityTokens policy.perMs) (r.mul policy.burst policy.perMs), now⟩
  | some bucket =>
    let cap := r.mul capacityTokens policy.perMs
    let elapsed := r.sub now bucket.updatedAt
    if elapsed > 0 then
      ⟨min cap (r.add bucket.scaled (r.mul elapsed policy.requests)), now⟩
    else if bucket.scaled > cap then { bucket with scaled := cap }
    else bucket

/-- `#refill`. -/
def refill (buckets : Buckets) (name : String) (policy : BudgetPolicy) (now capacityTokens : ℚ) :
    Buckets × Bucket :=
  let bucket := refilled r policy now capacityTokens (buckets.get name)
  (buckets.set name bucket, bucket)

/-- The wait for a deficit, in whole milliseconds. -/
def retryIn (policy : BudgetPolicy) (deficit : ℚ) : ℚ :=
  max 1 (⌈r.sub (r.div deficit policy.requests) (epsilon r)⌉ : ℚ)

def takeTokens (buckets : Buckets) (name : String) (cost : ℚ) (policy : BudgetPolicy) (now : ℚ) :
    Buckets × TakeResult :=
  if ¬ cost > 0 then
    let (buckets, bucket) := refill r buckets name policy now policy.burst
    (buckets, .ok (r.div bucket.scaled policy.perMs))
  else
    let capacity := max policy.burst cost
    let (buckets, bucket) := refill r buckets name policy now capacity
    let need := r.mul cost policy.perMs
    if r.add bucket.scaled (epsilon r) ≥ need then
      let scaled := max 0 (r.sub bucket.scaled need)
      (buckets.set name { bucket with scaled }, .ok (r.div scaled policy.perMs))
    else
      let deficit := r.sub need bucket.scaled
      (buckets, .retry (retryIn r policy deficit))

def peekTokens (buckets : Buckets) (name : String) (policy : BudgetPolicy) (now : ℚ) :
    Buckets × ℚ :=
  let (buckets, bucket) := refill r buckets name policy now policy.burst
  (buckets, r.div bucket.scaled policy.perMs)

end

/-! ## Sequences of calls -/

inductive BudgetRequest
  | take (cost : ℚ)
  | peek
  deriving DecidableEq

/-- One call of the store. -/
structure BudgetCall where
  name : String
  request : BudgetRequest
  policy : BudgetPolicy
  now : ℚ
  deriving DecidableEq

inductive BudgetReply
  | taken (result : TakeResult)
  | available (tokens : ℚ)
  deriving DecidableEq

/-- The tokens a reply grants to its call. A cost of zero or less is granted and charges
nothing. -/
def BudgetReply.granted (call : BudgetCall) : BudgetReply → ℚ
  | .taken (.ok _) =>
    match call.request with
    | .take cost => max 0 cost
    | .peek => 0
  | _ => 0

section
variable (r : Rounding)

def BudgetCall.perform (call : BudgetCall) (buckets : Buckets) : Buckets × BudgetReply :=
  match call.request with
  | .take cost =>
    let (buckets, result) := takeTokens r buckets call.name cost call.policy call.now
    (buckets, .taken result)
  | .peek =>
    let (buckets, tokens) := peekTokens r buckets call.name call.policy call.now
    (buckets, .available tokens)

/-- The buckets after a sequence of calls. -/
def afterCalls (buckets : Buckets) (calls : List BudgetCall) : Buckets :=
  calls.foldl (fun buckets call => (call.perform r buckets).1) buckets

/-- The calls of a sequence with their replies. -/
def served : Buckets → List BudgetCall → List (BudgetCall × BudgetReply)
  | _, [] => []
  | buckets, call :: calls =>
    (call, (call.perform r buckets).2) :: served (call.perform r buckets).1 calls

@[simp] theorem afterCalls_nil (buckets : Buckets) : afterCalls r buckets [] = buckets := rfl

@[simp] theorem afterCalls_cons (buckets : Buckets) (call : BudgetCall)
    (calls : List BudgetCall) :
    afterCalls r buckets (call :: calls) = afterCalls r (call.perform r buckets).1 calls := rfl

theorem afterCalls_append (buckets : Buckets) (calls later : List BudgetCall) :
    afterCalls r buckets (calls ++ later) = afterCalls r (afterCalls r buckets calls) later :=
  List.foldl_append

/-! ## What each call does -/

/-- The bucket that a call leaves under its name. -/
def BudgetCall.leaves (call : BudgetCall) (bucket : Option Bucket) : Bucket :=
  match call.request with
  | .peek => refilled r call.policy call.now call.policy.burst bucket
  | .take cost =>
    if cost > 0 then
      let filled := refilled r call.policy call.now (max call.policy.burst cost) bucket
      if r.add filled.scaled (epsilon r) ≥ r.mul cost call.policy.perMs then
        { filled with scaled := max 0 (r.sub filled.scaled (r.mul cost call.policy.perMs)) }
      else filled
    else refilled r call.policy call.now call.policy.burst bucket

/-- The tokens that a call is granted from its bucket. -/
def BudgetCall.spends (call : BudgetCall) (bucket : Option Bucket) : ℚ :=
  match call.request with
  | .peek => 0
  | .take cost =>
    if cost > 0 then
      let filled := refilled r call.policy call.now (max call.policy.burst cost) bucket
      if r.add filled.scaled (epsilon r) ≥ r.mul cost call.policy.perMs then cost else 0
    else 0

variable {r} {buckets : Buckets} {name : String} {policy : BudgetPolicy} {cost now : ℚ}

/-- A cost of zero or less only refills. -/
theorem takeTokens_free (hcost : ¬ cost > 0) :
    takeTokens r buckets name cost policy now =
      (buckets.set name (refilled r policy now policy.burst (buckets.get name)),
        .ok (r.div (refilled r policy now policy.burst (buckets.get name)).scaled
          policy.perMs)) := by
  rw [takeTokens, if_pos hcost]
  rfl

/-- A cost that the refilled bucket covers is taken from it. -/
theorem takeTokens_paid {filled : Bucket}
    (hfilled : refilled r policy now (max policy.burst cost) (buckets.get name) = filled)
    (hcost : cost > 0) (hfits : r.add filled.scaled (epsilon r) ≥ r.mul cost policy.perMs) :
    takeTokens r buckets name cost policy now =
      ((buckets.set name filled).set name
          { filled with scaled := max 0 (r.sub filled.scaled (r.mul cost policy.perMs)) },
        .ok (r.div (max 0 (r.sub filled.scaled (r.mul cost policy.perMs))) policy.perMs)) := by
  subst hfilled
  rw [takeTokens, if_neg (not_not.2 hcost)]
  exact if_pos hfits

/-- A cost that it does not cover is refused, and the bucket keeps its refill. -/
theorem takeTokens_refused {filled : Bucket}
    (hfilled : refilled r policy now (max policy.burst cost) (buckets.get name) = filled)
    (hcost : cost > 0) (hfits : ¬ r.add filled.scaled (epsilon r) ≥ r.mul cost policy.perMs) :
    takeTokens r buckets name cost policy now =
      (buckets.set name filled,
        .retry (retryIn r policy (r.sub (r.mul cost policy.perMs) filled.scaled))) := by
  subst hfilled
  rw [takeTokens, if_neg (not_not.2 hcost)]
  exact if_neg hfits

/-- A call leaves its own bucket as `leaves` says, and is granted what `spends` says. -/
theorem BudgetCall.perform_self (r : Rounding) (call : BudgetCall) (buckets : Buckets) :
    (call.perform r buckets).1.get call.name = some (call.leaves r (buckets.get call.name)) ∧
      (call.perform r buckets).2.granted call = call.spends r (buckets.get call.name) := by
  obtain ⟨name, request, policy, now⟩ := call
  cases request with
  | peek =>
    refine ⟨?_, rfl⟩
    exact OrderedMap.get_set_self _ _ _
  | take cost =>
    by_cases hcost : cost > 0
    · by_cases hfits : r.add (refilled r policy now (max policy.burst cost)
          (buckets.get name)).scaled (epsilon r) ≥ r.mul cost policy.perMs
      · have htake := takeTokens_paid rfl hcost hfits
        constructor
        · simp only [perform, htake, leaves, if_pos hcost, if_pos hfits, OrderedMap.get_set_self]
        · simp only [perform, htake, spends, if_pos hcost, if_pos hfits,
            BudgetReply.granted]
          exact max_eq_right (le_of_lt hcost)
      · have htake := takeTokens_refused rfl hcost hfits
        constructor
        · simp only [perform, htake, leaves, if_pos hcost, if_neg hfits, OrderedMap.get_set_self]
        · simp only [perform, htake, spends, if_pos hcost, if_neg hfits, BudgetReply.granted]
    · have htake : takeTokens r buckets name cost policy now = _ := takeTokens_free hcost
      constructor
      · simp only [perform, htake, leaves, if_neg hcost, OrderedMap.get_set_self]
      · simp only [perform, htake, spends, if_neg hcost, BudgetReply.granted]
        exact max_eq_left (not_lt.1 hcost)

/-- A call touches no bucket but its own. -/
theorem BudgetCall.perform_other (r : Rounding) {call : BudgetCall} {name : String}
    (h : name ≠ call.name) (buckets : Buckets) : (call.perform r buckets).1.get name = buckets.get name := by
  obtain ⟨own, request, policy, now⟩ := call
  have hset := fun (m : Buckets) b => OrderedMap.get_set_ne m h b
  cases request with
  | peek => exact hset _ _
  | take cost =>
    by_cases hcost : cost > 0
    · by_cases hfits : r.add (refilled r policy now (max policy.burst cost)
          (buckets.get own)).scaled (epsilon r) ≥ r.mul cost policy.perMs
      · have htake := takeTokens_paid rfl hcost hfits
        simp only [perform, htake]
        rw [hset, hset]
      · have htake := takeTokens_refused rfl hcost hfits
        simp only [perform, htake]
        rw [hset]
    · have htake : takeTokens r buckets own cost policy now = _ := takeTokens_free hcost
      simp only [perform, htake]
      rw [hset]

/-- Calls on other buckets leave a bucket alone. -/
theorem afterCalls_other {name : String} {calls : List BudgetCall}
    (h : ∀ call ∈ calls, call.name ≠ name) (buckets : Buckets) :
    (afterCalls r buckets calls).get name = buckets.get name := by
  induction calls generalizing buckets with
  | nil => rfl
  | cons call calls ih =>
    rw [afterCalls_cons, ih (fun c hc => h c (List.mem_cons_of_mem _ hc)),
      BudgetCall.perform_other r (h call List.mem_cons_self).symm]

end

end Watukuy
