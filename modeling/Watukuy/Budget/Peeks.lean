import Watukuy.Budget.Rounded
import Mathlib.Tactic.GCongr

/-!
# Peeks between takes

A peek clamps the bucket to its burst, so a bucket that is peeked at may hold less than it would
have held, but never less than the smaller of that and the burst. A take whose cost fits the burst
cannot tell the two apart. A take above the burst can, and `Unmoved` says when it does not. All this
is for small whole numbers, whose refills are exact: refills that are rounded add up to different
contents, so that there every peek may be noticed.
-/

set_option autoImplicit false

namespace Watukuy

open Library

/-! ## The reply of one call -/

/-- What a positive cost is told when the refilled bucket holds so much. -/
def BudgetPolicy.answer (r : Rounding) (policy : BudgetPolicy) (cost held : ℚ) : TakeResult :=
  let need := r.mul cost policy.perMs
  if r.add held (epsilon r) ≥ need then .ok (r.div (max 0 (r.sub held need)) policy.perMs)
  else .retry (retryIn r policy (r.sub need held))

def BudgetCall.isTake (call : BudgetCall) : Bool :=
  match call.request with
  | .take _ => true
  | .peek => false

/-- A peek at the same bucket at the same time. -/
def BudgetCall.peeking (call : BudgetCall) : BudgetCall := { call with request := .peek }

@[simp] theorem BudgetCall.peeking_isTake (call : BudgetCall) : call.peeking.isTake = false := rfl

/-- What a call is told, from the bucket that it finds. -/
def BudgetCall.reply (r : Rounding) (call : BudgetCall) (bucket : Option Bucket) : BudgetReply :=
  let held := (call.filled r bucket).scaled
  match call.request with
  | .peek => .available (r.div held call.policy.perMs)
  | .take cost =>
    .taken (if cost > 0 then call.policy.answer r cost held else .ok (r.div held call.policy.perMs))

/-- The takes of a sequence with their replies. -/
def takeReplies (r : Rounding) (buckets : Buckets) (calls : List BudgetCall) :
    List (BudgetCall × BudgetReply) :=
  (served r buckets calls).filter fun e => e.1.isTake

theorem BudgetCall.perform_reply (r : Rounding) (call : BudgetCall) (buckets : Buckets) :
    (call.perform r buckets).2 = call.reply r (buckets.get call.name) := by
  obtain ⟨name, request, policy, now⟩ := call
  cases request with
  | peek => simp [perform, peekTokens, refill, reply, filled, capacity, cost]
  | take cost =>
    by_cases hcost : cost > 0
    · have hcap : capacity ⟨name, .take cost, policy, now⟩ = max policy.burst cost := if_pos hcost
      by_cases hfits : r.add (refilled r policy now (max policy.burst cost)
          (buckets.get name)).scaled (epsilon r) ≥ r.mul cost policy.perMs
      · simp only [perform, takeTokens_paid rfl hcost hfits, reply, filled, hcap, if_pos hcost,
          BudgetPolicy.answer, if_pos hfits]
      · simp only [perform, takeTokens_refused rfl hcost hfits, reply, filled, hcap, if_pos hcost,
          BudgetPolicy.answer, if_neg hfits]
    · have hcap : capacity ⟨name, .take cost, policy, now⟩ = policy.burst := if_neg hcost
      simp only [perform, takeTokens_free hcost, reply, filled, hcap, if_neg hcost]

theorem BudgetCall.reply_take {r : Rounding} {call : BudgetCall} {bucket : Option Bucket}
    (htake : call.isTake = true) (hcost : call.cost > 0) :
    call.reply r bucket =
      .taken (call.policy.answer r call.cost (call.filled r bucket).scaled) := by
  obtain ⟨name, request, policy, now⟩ := call
  cases request with
  | peek => exact absurd htake Bool.noConfusion
  | take cost => exact congrArg BudgetReply.taken (if_pos hcost)

/-! ## Levels -/

/-- The content of a bucket at a time, before any clamp. -/
def Bucket.level (bucket : Bucket) (policy : BudgetPolicy) (t : ℚ) : ℚ :=
  bucket.scaled + (t - bucket.updatedAt) * policy.requests

/-- The content of a full bucket. -/
def BudgetPolicy.full (policy : BudgetPolicy) : ℚ := policy.burst * policy.perMs

section
variable {policy : BudgetPolicy} {t : ℚ} {b b' : Bucket}

/-- A refill is the level, clamped. -/
theorem refilled_level (capacity : ℚ) (ht : b.updatedAt ≤ t) :
    refilled .exact policy t capacity (some b) =
      ⟨min (capacity * policy.perMs) (b.level policy t), t⟩ := by
  rw [refilled_exact]
  simp only [Bucket.level]
  split
  · rfl
  · next h =>
    have heq : b.updatedAt = t := le_antisymm ht (sub_nonpos.1 (not_lt.1 h))
    have hlevel : b.scaled + (t - b.updatedAt) * policy.requests = b.scaled := by
      rw [heq, sub_self, zero_mul, add_zero]
    rw [hlevel]
    split
    · next hover => rw [min_eq_left (le_of_lt hover), heq]
    · next hover =>
      rw [min_eq_right (not_lt.1 hover), ← heq]

theorem Bucket.level_later (b : Bucket) (s : ℚ) :
    b.level policy t = b.level policy s + (t - s) * policy.requests := by
  simp only [Bucket.level]
  ring

theorem Bucket.level_now (x : ℚ) : Bucket.level ⟨x, t⟩ policy t = x := by
  simp only [Bucket.level, sub_self, zero_mul, add_zero]

/-- A bucket that is peeked at holds no more than the other, and no less up to the burst. -/
structure Trails (policy : BudgetPolicy) (t : ℚ) (b b' : Bucket) : Prop where
  past : b.updatedAt ≤ t
  past' : b'.updatedAt ≤ t
  low : min (b.level policy t) policy.full ≤ b'.level policy t
  high : b'.level policy t ≤ b.level policy t

theorem Trails.refl (h : b.updatedAt ≤ t) : Trails policy t b b :=
  ⟨h, h, min_le_left _ _, le_rfl⟩

theorem Trails.of_scaled {x x' : ℚ} (h : min x policy.full ≤ x' ∧ x' ≤ x) :
    Trails policy t ⟨x, t⟩ ⟨x', t⟩ := by
  refine ⟨le_rfl, le_rfl, ?_, ?_⟩ <;> rw [Bucket.level_now, Bucket.level_now]
  · exact h.1
  · exact h.2

/-- Both earn the same as time passes. -/
theorem Trails.later {s : ℚ} (h : Trails policy s b b') (hp : policy.Resolved) (hst : s ≤ t) :
    Trails policy t b b' := by
  have hgain : 0 ≤ (t - s) * policy.requests :=
    mul_nonneg (sub_nonneg.2 hst) (zero_le_one.trans hp.requests)
  refine ⟨h.past.trans hst, h.past'.trans hst, ?_, ?_⟩
  · rw [b.level_later s, b'.level_later s]
    rcases min_le_iff.1 h.low with hlow | hlow
    · exact (min_le_left _ _).trans (by linarith)
    · exact (min_le_right _ _).trans (by linarith)
  · rw [b.level_later s, b'.level_later s]
    have hhigh := h.high
    linarith

end

/-! ## A peek -/

section
variable (r : Rounding) {call : BudgetCall} {t : ℚ} {b b' : Bucket}

/-- What a call finds is the level, clamped to its capacity. -/
theorem filled_level (hb : b.updatedAt ≤ call.now) :
    call.filled .exact (some b) =
      ⟨min (call.capacity * call.policy.perMs) (b.level call.policy call.now), call.now⟩ :=
  refilled_level call.capacity hb

/-- A peek leaves the level, clamped to the burst. -/
theorem leaves_peek (hsized : call.Sized) (hbucket : b.Sized) (hpeek : call.isTake = false)
    (hb : b.updatedAt ≤ call.now) :
    call.leaves r (some b) =
      ⟨min call.policy.full (b.level call.policy call.now), call.now⟩ := by
  have hfree : ¬call.cost > 0 := by
    obtain ⟨name, request, policy, now⟩ := call
    cases request with
    | take cost => exact absurd hpeek Bool.noConfusion
    | peek => exact lt_irrefl 0
  have hcap : call.capacity = call.policy.burst := if_neg hfree
  rw [hsized.leaves_eq r (by rintro _ ⟨⟩; exact hbucket), filled_level hb, hcap,
    if_neg fun hand => hfree hand.1]
  rfl

theorem Trails.peek (h : Trails call.policy call.now b b') (hsized : call.Sized)
    (hbucket : b'.Sized) (hpeek : call.isTake = false) :
    Trails call.policy call.now b (call.leaves r (some b')) := by
  rw [leaves_peek r hsized hbucket hpeek h.past']
  refine ⟨h.past, le_rfl, ?_, ?_⟩
  · rw [Bucket.level_now]
    exact le_min (min_le_right _ _) h.low
  · rw [Bucket.level_now]
    exact (min_le_right _ _).trans h.high

end

/-! ## A take -/

/-- A take does not depend on what the bucket holds above its burst: the burst covers the cost, or
the bucket holds no more than the burst, or the take is refused and the wait, in whole
milliseconds, is the wait from the burst. -/
def BudgetCall.Unmoved (r : Rounding) (call : BudgetCall) (bucket : Option Bucket) : Prop :=
  let held := (call.filled r bucket).scaled
  let need := r.mul call.cost call.policy.perMs
  let full := r.mul call.policy.burst call.policy.perMs
  need ≤ full ∨ held ≤ full ∨
    held < need ∧ retryIn r call.policy (r.sub need held) = retryIn r call.policy (r.sub need full)

/-- The same with exact products and differences. -/
def BudgetPolicy.Blind (r : Rounding) (policy : BudgetPolicy) (need held : ℚ) : Prop :=
  need ≤ policy.full ∨ held ≤ policy.full ∨
    held < need ∧ retryIn r policy (need - held) = retryIn r policy (need - policy.full)

section
variable {r : Rounding} {policy : BudgetPolicy} {cost held held' need : ℚ}

/-- The wait grows with the deficit. -/
theorem retryIn_mono (hp : policy.Resolved) {d d' : ℚ} (h : d ≤ d') :
    retryIn r policy d ≤ retryIn r policy d' := by
  have hdiv : r.div d policy.requests ≤ r.div d' policy.requests :=
    r.mono (div_le_div_of_nonneg_right h (zero_le_one.trans hp.requests))
  have hsub : r.sub (r.div d policy.requests) (epsilon r) ≤
      r.sub (r.div d' policy.requests) (epsilon r) := r.mono (sub_le_sub_right hdiv _)
  have hceil := Int.ceil_mono hsub
  refine max_le_max_left _ ?_
  exact_mod_cast hceil

theorem small_sub {x y : ℚ} (hx : Small x) (hy : Small y) (hx0 : 0 ≤ x) (hy0 : 0 ≤ y) :
    Small (x - y) := by
  have hhigh := hx.high
  have hhigh' := hy.high
  exact ⟨wholes.sub_mem hx.whole hy.whole, by linarith, by linarith⟩

/-- The answer in small numbers. -/
theorem answer_eq (hneed : Small (cost * policy.perMs)) (hneed0 : 0 ≤ cost * policy.perMs)
    (hheld : Small held) (hheld0 : 0 ≤ held) :
    policy.answer r cost held =
      if cost * policy.perMs ≤ held then .ok (r.div (held - cost * policy.perMs) policy.perMs)
      else .retry (retryIn r policy (cost * policy.perMs - held)) := by
  have hmul : r.mul cost policy.perMs = cost * policy.perMs := r.round_eq (hneed.mem r)
  have hrest : r.sub held (cost * policy.perMs) = held - cost * policy.perMs :=
    r.round_eq ((small_sub hheld hneed hheld0 hneed0).mem r)
  have hlack : r.sub (cost * policy.perMs) held = cost * policy.perMs - held :=
    r.round_eq ((small_sub hneed hheld hneed0 hheld0).mem r)
  have hcovers := covers_round r hheld hneed
  simp only [BudgetPolicy.answer, hmul, hrest, hlack]
  by_cases hfits : cost * policy.perMs ≤ held
  · rw [if_pos hfits, if_pos (hcovers.2 hfits), max_eq_right (sub_nonneg.2 hfits)]
  · rw [if_neg hfits, if_neg (mt hcovers.1 hfits)]

/-- A content that is no more, and no less up to the burst, is all the same. -/
theorem Blind.same (hp : policy.Resolved) (hneed : held ≤ need)
    (hlow : min held policy.full ≤ held') (hhigh : held' ≤ held) (h : policy.Blind r need held) :
    held' = held ∨
      held < need ∧ retryIn r policy (need - held') = retryIn r policy (need - held) := by
  rcases le_total held policy.full with hle | hle
  · rw [min_eq_left hle] at hlow
    exact Or.inl (le_antisymm hhigh hlow)
  · rw [min_eq_right hle] at hlow
    rcases h with hcover | hfull | ⟨hshort, hends⟩
    · exact Or.inl (le_antisymm hhigh (hneed.trans (hcover.trans hlow)))
    · exact Or.inl (le_antisymm hhigh (hfull.trans hlow))
    · refine Or.inr ⟨hshort, le_antisymm ?_ ?_⟩
      · rw [hends]
        exact retryIn_mono hp (by linarith)
      · exact retryIn_mono hp (by linarith)

end

section
variable {r : Rounding} {call : BudgetCall} {b b' : Bucket}

theorem BudgetCall.full_le_capacity (hp : call.policy.Resolved) :
    call.policy.full ≤ call.capacity * call.policy.perMs :=
  mul_le_mul_of_nonneg_right call.burst_le_capacity (le_of_lt hp.perMs)

theorem filled_updatedAt (hb : b.updatedAt ≤ call.now) :
    (call.filled .exact (some b)).updatedAt = call.now := by
  rw [filled_level hb]

/-- For small numbers the products and differences are exact. -/
theorem BudgetCall.Sized.unmoved_iff (h : call.Sized) {bucket : Option Bucket}
    (hb : ∀ b, bucket = some b → b.Sized) (hcost : call.cost > 0) :
    call.Unmoved r bucket ↔
      call.policy.Blind r (call.cost * call.policy.perMs) (call.filled .exact bucket).scaled := by
  have hfilled := h.filled_sized hb
  have hneed := h.need hcost
  have hneed0 := mul_nonneg hcost.le h.resolved.perMs.le
  have hfull0 : 0 ≤ call.policy.burst * call.policy.perMs :=
    mul_nonneg (zero_le_one.trans h.resolved.burst) h.resolved.perMs.le
  have hmul : r.mul call.cost call.policy.perMs = call.cost * call.policy.perMs :=
    r.round_eq (hneed.mem r)
  have hfull : r.mul call.policy.burst call.policy.perMs = call.policy.full :=
    r.round_eq (h.full.mem r)
  have hlack : r.sub (call.cost * call.policy.perMs) (call.filled .exact bucket).scaled =
      call.cost * call.policy.perMs - (call.filled .exact bucket).scaled :=
    r.round_eq ((small_sub hneed hfilled.scaled hneed0 hfilled.nonneg).mem r)
  have hlack' : r.sub (call.cost * call.policy.perMs) call.policy.full =
      call.cost * call.policy.perMs - call.policy.full :=
    r.round_eq ((small_sub hneed h.full hneed0 hfull0).mem r)
  simp only [BudgetCall.Unmoved, BudgetPolicy.Blind, h.filled_round r hb, hmul, hfull, hlack,
    hlack']

/-- A take whose cost fits the burst finds the same in both buckets. -/
theorem filled_fitting (h : Trails call.policy call.now b b') (hcost : call.cost ≤ call.policy.burst) :
    call.filled .exact (some b') = call.filled .exact (some b) := by
  have hcap : call.capacity * call.policy.perMs = call.policy.full := by
    rw [BudgetCall.capacity]
    split
    · rw [max_eq_left hcost, BudgetPolicy.full]
    · rfl
  rw [filled_level h.past, filled_level h.past', hcap]
  have heq : min call.policy.full (b'.level call.policy call.now) =
      min call.policy.full (b.level call.policy call.now) := by
    apply le_antisymm
    · exact min_le_min_left _ h.high
    · refine le_min (min_le_left _ _) ?_
      rw [min_comm]
      exact h.low
  rw [heq]

/-- One above the burst finds no more than it asks for, and in the trailing bucket no more than
in the other, and no less up to the burst. -/
theorem filled_above (hp : call.policy.Resolved) (h : Trails call.policy call.now b b')
    (hcost : call.policy.burst < call.cost) :
    (call.filled .exact (some b)).scaled ≤ call.cost * call.policy.perMs ∧
      min (call.filled .exact (some b)).scaled call.policy.full ≤
        (call.filled .exact (some b')).scaled ∧
      (call.filled .exact (some b')).scaled ≤ (call.filled .exact (some b)).scaled := by
  have hpos : call.cost > 0 := (zero_lt_one.trans_le hp.burst).trans hcost
  have hcap : call.capacity = call.cost := by
    rw [BudgetCall.capacity, if_pos hpos, max_eq_right (le_of_lt hcost)]
  have hfull := call.full_le_capacity hp
  rw [filled_level h.past, filled_level h.past']
  refine ⟨?_, ?_, ?_⟩
  · rw [hcap]
    exact min_le_left _ _
  · refine le_min ((min_le_right _ _).trans hfull) ?_
    exact (min_le_min_right _ (min_le_right _ _)).trans h.low
  · exact min_le_min_left _ h.high

/-- An unmoved take is told the same from the trailing bucket, which trails on. -/
theorem Trails.take (h : Trails call.policy call.now b b') (hsized : call.Sized) (hb : b.Sized)
    (hb' : b'.Sized) (htake : call.isTake = true) (hunmoved : call.Unmoved r (some b)) :
    call.reply r (some b') = call.reply r (some b) ∧
      Trails call.policy call.now (call.leaves r (some b)) (call.leaves r (some b')) := by
  have hown : ∀ x, some b = some x → x.Sized := by
    rintro _ ⟨⟩
    exact hb
  have hown' : ∀ x, some b' = some x → x.Sized := by
    rintro _ ⟨⟩
    exact hb'
  have hround := hsized.filled_round r hown
  have hround' := hsized.filled_round r hown'
  have hleaves := hsized.leaves_eq r hown
  have hleaves' := hsized.leaves_eq r hown'
  by_cases hcost : call.cost ≤ call.policy.burst
  · have hfilled := filled_fitting h hcost
    constructor
    · rw [BudgetCall.reply, BudgetCall.reply, hround, hround', hfilled]
    · rw [hleaves, hleaves', hfilled]
      exact Trails.refl (filled_updatedAt h.past).le
  · have habove := not_le.1 hcost
    have hpos : call.cost > 0 := (zero_lt_one.trans_le hsized.resolved.burst).trans habove
    obtain ⟨hneed, hlow, hhigh⟩ := filled_above hsized.resolved h habove
    have hanswer := @answer_eq r call.policy _ _ (hsized.need hpos)
      (mul_nonneg hpos.le hsized.resolved.perMs.le) (hsized.filled_sized hown).scaled
      (hsized.filled_sized hown).nonneg
    have hanswer' := @answer_eq r call.policy _ _ (hsized.need hpos)
      (mul_nonneg hpos.le hsized.resolved.perMs.le) (hsized.filled_sized hown').scaled
      (hsized.filled_sized hown').nonneg
    rw [BudgetCall.reply_take htake hpos, BudgetCall.reply_take htake hpos, hround, hround',
      hanswer, hanswer', hleaves, hleaves', filled_updatedAt h.past, filled_updatedAt h.past']
    rcases Blind.same hsized.resolved hneed hlow hhigh ((hsized.unmoved_iff hown hpos).1 hunmoved)
      with hsame | ⟨hshort, hwait⟩
    · rw [hsame]
      exact ⟨rfl, Trails.refl le_rfl⟩
    · -- refused from both, with one wait
      have hshort' := hhigh.trans_lt hshort
      rw [if_neg (not_le.2 hshort), if_neg (not_le.2 hshort'), hwait,
        if_neg fun hand => absurd hand.2 (not_le.2 hshort),
        if_neg fun hand => absurd hand.2 (not_le.2 hshort')]
      exact ⟨rfl, Trails.of_scaled ⟨hlow, hhigh⟩⟩

end

/-! ## Sequences -/

/-- Calls on one bucket under its policy. -/
def OnBucket (name : String) (policy : BudgetPolicy) (calls : List BudgetCall) : Prop :=
  ∀ call ∈ calls, call.name = name ∧ call.policy = policy

/-- The clock values never decrease. -/
def InOrder (calls : List BudgetCall) : Prop := calls.Pairwise fun a b => a.now ≤ b.now

instance (name : String) (policy : BudgetPolicy) (calls : List BudgetCall) :
    Decidable (OnBucket name policy calls) :=
  inferInstanceAs (Decidable (∀ call ∈ calls, _))

instance (calls : List BudgetCall) : Decidable (InOrder calls) :=
  inferInstanceAs (Decidable (calls.Pairwise _))

/-- The calls are the takes with peeks between them. -/
structure Peeked (takes calls : List BudgetCall) : Prop where
  takes_eq : calls.filter BudgetCall.isTake = takes
  inOrder : InOrder calls

section
variable {r : Rounding} {name : String} {policy : BudgetPolicy} {call : BudgetCall}
  {calls : List BudgetCall} {buckets : Buckets}

theorem takeReplies_take (htake : call.isTake = true) :
    takeReplies r buckets (call :: calls) =
      (call, call.reply r (buckets.get call.name)) ::
        takeReplies r (call.perform r buckets).1 calls := by
  rw [takeReplies, served, List.filter_cons, if_pos htake, call.perform_reply, takeReplies]

theorem takeReplies_peek (hpeek : call.isTake = false) :
    takeReplies r buckets (call :: calls) = takeReplies r (call.perform r buckets).1 calls := by
  rw [takeReplies, served, List.filter_cons, if_neg (by simp [hpeek]), takeReplies]

theorem takeReplies_append (before : List BudgetCall) (buckets : Buckets) :
    takeReplies r buckets (before ++ calls) =
      takeReplies r buckets before ++ takeReplies r (afterCalls r buckets before) calls := by
  induction before generalizing buckets with
  | nil => rfl
  | cons call before ih =>
    cases htake : call.isTake with
    | true =>
      rw [List.cons_append, takeReplies_take htake, takeReplies_take htake, ih, List.cons_append,
        afterCalls_cons]
    | false =>
      rw [List.cons_append, takeReplies_peek htake, takeReplies_peek htake, ih, afterCalls_cons]

/-- As long as every take is unmoved, the takes are told the same with peeks as without. -/
theorem takeReplies_unmoved (hp : policy.Resolved) {takes : List BudgetCall}
    {buckets' : Buckets} {t : ℚ} {b b' : Bucket} (hon : OnBucket name policy calls)
    (hsized : ∀ call ∈ calls, call.Sized) (hb : b.Sized) (hb' : b'.Sized)
    (hcalls : Peeked takes calls) (hlate : ∀ call ∈ calls, t ≤ call.now)
    (hget : buckets.get name = some b) (hget' : buckets'.get name = some b')
    (htrails : Trails policy t b b')
    (hunmoved : ∀ before call after, takes = before ++ call :: after →
      call.Unmoved r ((afterCalls r buckets before).get name)) :
    takeReplies r buckets' calls = takeReplies r buckets takes := by
  induction calls generalizing takes buckets buckets' t b b' with
  | nil =>
    rw [← hcalls.takes_eq]
    rfl
  | cons call calls ih =>
    obtain ⟨hname, hpolicy⟩ := hon call List.mem_cons_self
    obtain ⟨hfirst, hrest⟩ := List.pairwise_cons.1 hcalls.inOrder
    have hon' : OnBucket name policy calls := fun c hc => hon c (List.mem_cons_of_mem _ hc)
    have hcall := hsized call List.mem_cons_self
    have hsized' : ∀ c ∈ calls, c.Sized := fun c hc => hsized c (List.mem_cons_of_mem _ hc)
    have hleft : (call.leaves r (some b)).Sized := hcall.leaves_sized r (by rintro _ ⟨⟩; exact hb)
    have hleft' : (call.leaves r (some b')).Sized :=
      hcall.leaves_sized r (by rintro _ ⟨⟩; exact hb')
    have hnow : Trails call.policy call.now b b' := by
      rw [hpolicy]
      exact htrails.later hp (hlate call List.mem_cons_self)
    have hafter' := (call.perform_self r buckets').1
    rw [hname, hget'] at hafter'
    have htakes := hcalls.takes_eq
    cases htake : call.isTake with
    | false =>
      rw [List.filter_cons_of_neg (by simp [htake])] at htakes
      rw [takeReplies_peek htake]
      have htrails' := hnow.peek r hcall hb' htake
      rw [hpolicy] at htrails'
      exact ih hon' hsized' hb hleft' ⟨htakes, hrest⟩ hfirst hget hafter' htrails' hunmoved
    | true =>
      rw [List.filter_cons_of_pos htake] at htakes
      subst htakes
      have hown := hunmoved [] call _ rfl
      rw [afterCalls_nil, hget] at hown
      obtain ⟨hreply, htrails'⟩ := hnow.take hcall hb hb' htake hown
      rw [hpolicy] at htrails'
      have hafter := (call.perform_self r buckets).1
      rw [hname, hget] at hafter
      rw [takeReplies_take htake, takeReplies_take htake, hname, hget, hget', hreply]
      refine congrArg _ (ih hon' hsized' hleft hleft' ⟨rfl, hrest⟩ hfirst hafter hafter'
        htrails' ?_)
      intro before c after hsplit
      exact hunmoved (call :: before) c after (by rw [hsplit, List.cons_append])

theorem leaves_updatedAt {bucket : Option Bucket} (hsized : call.Sized)
    (h : ∀ b, bucket = some b → b.Sized ∧ b.updatedAt ≤ call.now) :
    (call.leaves r bucket).updatedAt = call.now := by
  rw [hsized.leaves_eq r fun b hb => (h b hb).1, BudgetCall.filled, refilled_updatedAt]
  cases bucket with
  | none => rfl
  | some b => exact max_eq_left (h b rfl).2

/-- Calls in order leave the bucket no later than the calls to come. -/
theorem afterCalls_past {t : ℚ} {b : Bucket} (hon : OnBucket name policy calls)
    (hsized : ∀ call ∈ calls, call.Sized) (horder : InOrder calls)
    (hlate : ∀ call ∈ calls, call.now ≤ t) (hget : buckets.get name = some b) (hbucket : b.Sized)
    (hb : b.updatedAt ≤ t) (hpast : ∀ call ∈ calls, b.updatedAt ≤ call.now) :
    ∃ b', (afterCalls r buckets calls).get name = some b' ∧ b'.Sized ∧ b'.updatedAt ≤ t := by
  induction calls generalizing buckets b with
  | nil => exact ⟨b, hget, hbucket, hb⟩
  | cons call calls ih =>
    obtain ⟨hfirst, hrest⟩ := List.pairwise_cons.1 horder
    have hcall := hsized call List.mem_cons_self
    have hat : (call.leaves r (some b)).updatedAt = call.now := by
      refine leaves_updatedAt hcall ?_
      rintro _ ⟨⟩
      exact ⟨hbucket, hpast call List.mem_cons_self⟩
    have hafter := (call.perform_self r buckets).1
    rw [(hon call List.mem_cons_self).1, hget] at hafter
    refine ih (fun c hc => hon c (List.mem_cons_of_mem _ hc))
      (fun c hc => hsized c (List.mem_cons_of_mem _ hc)) hrest
      (fun c hc => hlate c (List.mem_cons_of_mem _ hc)) hafter
      (hcall.leaves_sized r (by rintro _ ⟨⟩; exact hbucket)) ?_ ?_
    · rw [hat]
      exact hlate call List.mem_cons_self
    · intro c hc
      rw [hat]
      exact hfirst c hc

theorem BudgetCall.Sized.peeking (h : call.Sized) : call.peeking.Sized := by
  have hcap : call.peeking.capacity = call.policy.burst := if_neg (lt_irrefl 0)
  refine ⟨⟨h.whole.policy, wholes.zero_mem, h.whole.now⟩, h.resolved, ?_, h.time⟩
  rw [hcap]
  exact h.full.high

/-- A peek right before a take changes what it is told, unless it is unmoved. -/
theorem reply_moved (hsized : call.Sized) (htake : call.isTake = true) {b : Bucket}
    (hbucket : b.Sized) (hb : b.updatedAt ≤ call.now) (hmoved : ¬ call.Unmoved r (some b)) :
    call.reply r (some (call.peeking.leaves r (some b))) ≠ call.reply r (some b) := by
  have hp := hsized.resolved
  have hown : ∀ x, some b = some x → x.Sized := by
    rintro _ ⟨⟩
    exact hbucket
  have hover : ¬ call.cost ≤ call.policy.burst := by
    intro hfits
    exact hmoved (Or.inl (r.mono (mul_le_mul_of_nonneg_right hfits hp.perMs.le)))
  have hpos : call.cost > 0 := (zero_lt_one.trans_le hp.burst).trans (not_le.1 hover)
  have hneed0 := mul_nonneg hpos.le hp.perMs.le
  rw [hsized.unmoved_iff hown hpos, BudgetPolicy.Blind, not_or, not_or, not_and] at hmoved
  obtain ⟨hshort, hheld, hends⟩ := hmoved
  have hheld := not_le.1 hheld
  have hlevel : call.policy.full ≤ b.level call.policy call.now := by
    rw [filled_level hb] at hheld
    exact hheld.le.trans (min_le_right _ _)
  have hpeeked : call.peeking.leaves r (some b) = ⟨call.policy.full, call.now⟩ := by
    rw [leaves_peek r hsized.peeking hbucket call.peeking_isTake hb]
    exact congrArg (fun x => Bucket.mk x call.now) (min_eq_left hlevel)
  have hsized' : (⟨call.policy.full, call.now⟩ : Bucket).Sized :=
    hpeeked ▸ hsized.peeking.leaves_sized r hown
  have hown' : ∀ x, some (⟨call.policy.full, call.now⟩ : Bucket) = some x → x.Sized := by
    rintro _ ⟨⟩
    exact hsized'
  have hfound : (call.filled .exact (some ⟨call.policy.full, call.now⟩)).scaled =
      call.policy.full := by
    rw [filled_level le_rfl, Bucket.level_now]
    exact min_eq_right (call.full_le_capacity hp)
  rw [hpeeked, BudgetCall.reply_take htake hpos, BudgetCall.reply_take htake hpos,
    hsized.filled_round r hown, hsized.filled_round r hown', hfound,
    answer_eq (hsized.need hpos) hneed0 hsized'.scaled hsized'.nonneg,
    answer_eq (hsized.need hpos) hneed0 (hsized.filled_sized hown).scaled
      (hsized.filled_sized hown).nonneg, if_neg hshort]
  intro heq
  split at heq
  · exact TakeResult.noConfusion (BudgetReply.taken.inj heq)
  · next hfits =>
    exact hends (not_le.1 hfits) (TakeResult.retry.inj (BudgetReply.taken.inj heq)).symm

/-- A sequence of takes with a peek inserted right before one of them. -/
theorem Peeked.insert (before : List BudgetCall) {after : List BudgetCall}
    (htakes : ∀ c ∈ before ++ call :: after, c.isTake = true)
    (horder : InOrder (before ++ call :: after)) :
    Peeked (before ++ call :: after) (before ++ call.peeking :: call :: after) := by
  obtain ⟨hbefore, hafter, hcross⟩ := List.pairwise_append.1 horder
  obtain ⟨hcall, -⟩ := List.pairwise_cons.1 hafter
  constructor
  · have hkeep := List.filter_eq_self.2 htakes
    rw [List.filter_append] at hkeep ⊢
    rw [List.filter_cons_of_neg (by simp), hkeep]
  · refine List.pairwise_append.2 ⟨hbefore, List.pairwise_cons.2 ⟨?_, hafter⟩, ?_⟩
    · intro c hc
      rcases List.mem_cons.1 hc with rfl | hlater
      · exact le_rfl
      · exact hcall c hlater
    · intro a ha c hc
      rcases List.mem_cons.1 hc with rfl | hlater
      · exact hcross a ha call List.mem_cons_self
      · exact hcross a ha c hlater

/-- The replies after it differ, unless the take is unmoved. -/
theorem takeReplies_moved (calls : List BudgetCall) (hsized : call.Sized) {b : Bucket}
    (hon : call.name = name) (htake : call.isTake = true) (hget : buckets.get name = some b)
    (hbucket : b.Sized) (hb : b.updatedAt ≤ call.now) (hmoved : ¬ call.Unmoved r (some b)) :
    takeReplies r buckets (call.peeking :: call :: calls) ≠
      takeReplies r buckets (call :: calls) := by
  obtain rfl := hon
  have hpeeked := (call.peeking.perform_self r buckets).1
  have hown : call.peeking.name = call.name := rfl
  rw [hown, hget] at hpeeked
  rw [takeReplies_peek call.peeking_isTake, takeReplies_take htake, takeReplies_take htake,
    hpeeked, hget]
  intro heq
  exact reply_moved hsized htake hbucket hb hmoved (Prod.mk.inj (List.cons.inj heq).1).2

end

/-- For calls of small whole numbers: exactly when no take after the first depends on what the bucket
holds above its burst, the takes are told the same with any peeks between them as without. -/
theorem peeks_unnoticed (r : Rounding) {name : String} {policy : BudgetPolicy} {buckets : Buckets}
    {first : BudgetCall} {takes : List BudgetCall} (hon : OnBucket name policy (first :: takes))
    (hsized : ∀ call ∈ first :: takes, call.Sized)
    (htakes : ∀ call ∈ first :: takes, call.isTake = true) (horder : InOrder (first :: takes))
    (hpast : ∀ b, buckets.get name = some b → b.Sized ∧ b.updatedAt ≤ first.now) :
    (∀ calls, OnBucket name policy (first :: calls) → (∀ call ∈ calls, call.Sized) →
      Peeked (first :: takes) (first :: calls) →
      takeReplies r buckets (first :: calls) = takeReplies r buckets (first :: takes)) ↔
    ∀ before call after, takes = before ++ call :: after →
      call.Unmoved r ((afterCalls r buckets (first :: before)).get name) := by
  have hfirst : first.isTake = true := htakes first List.mem_cons_self
  have hname : first.name = name := (hon first List.mem_cons_self).1
  have hown := hsized first List.mem_cons_self
  obtain ⟨hlate, -⟩ := List.pairwise_cons.1 horder
  have hleft := (first.perform_self r buckets).1
  rw [hname] at hleft
  have hat := leaves_updatedAt (r := r) hown hpast
  have hleaves := hown.leaves_sized r fun b hb => (hpast b hb).1
  constructor
  · rintro hsame before call after rfl
    by_contra hmoved
    have hin : ∀ c, c ∈ before ∨ c ∈ [call] → c ∈ first :: (before ++ call :: after) := by
      intro c hc
      simp only [List.mem_singleton] at hc
      rcases hc with hc | rfl <;> simp [*]
    have hcall := hin call (Or.inr (by simp))
    obtain ⟨hbefore, hafter, hcross⟩ := List.pairwise_append.1 (List.pairwise_cons.1 horder).2
    -- the take finds the bucket that the first take left or a later one
    have hfrom : (first.leaves r (buckets.get name)).updatedAt ≤ call.now := by
      rw [hat]
      exact hlate call (by simp)
    obtain ⟨b, hb, hbucket, hbpast⟩ := afterCalls_past (fun c hc => hon c (hin c (Or.inl hc)))
      (fun c hc => hsized c (hin c (Or.inl hc))) hbefore
      (fun c hc => hcross c hc call List.mem_cons_self) hleft hleaves hfrom (fun c hc => by
        rw [hat]
        exact hlate c (List.mem_append_left _ hc))
    have hb' : (afterCalls r buckets (first :: before)).get name = some b := hb
    rw [hb'] at hmoved
    -- and a peek goes right before it
    have hdiffer := takeReplies_moved after (hsized call hcall) (hon call hcall).1
      (htakes call hcall) hb' hbucket hbpast hmoved
    have hadded : ∀ c ∈ before ++ call.peeking :: call :: after,
        c = call.peeking ∨ c ∈ first :: (before ++ call :: after) := by
      intro c hc
      simp only [List.mem_cons, List.mem_append] at hc ⊢
      tauto
    have hinserted := hsame (before ++ call.peeking :: call :: after) ?_ ?_
      (Peeked.insert (first :: before) htakes horder)
    · have hsplit : ∀ rest, first :: (before ++ rest) = (first :: before) ++ rest := fun _ => rfl
      rw [hsplit, hsplit, takeReplies_append, takeReplies_append] at hinserted
      exact hdiffer (List.append_cancel_left hinserted)
    · intro c hc
      rcases List.mem_cons.1 hc with rfl | hc
      · exact hon c List.mem_cons_self
      rcases hadded c hc with rfl | hc
      · exact hon call hcall
      · exact hon c hc
    · intro c hc
      rcases hadded c hc with rfl | hc
      · exact (hsized call hcall).peeking
      · exact hsized c hc
  · intro hunmoved calls hon' hsized' hpeeked
    have hcalls : Peeked takes calls := by
      refine ⟨?_, (List.pairwise_cons.1 hpeeked.inOrder).2⟩
      have heq := hpeeked.takes_eq
      rw [List.filter_cons_of_pos hfirst] at heq
      exact (List.cons.inj heq).2
    have hp : policy.Resolved := (hon first List.mem_cons_self).2 ▸ hown.resolved
    rw [takeReplies_take hfirst, takeReplies_take hfirst]
    exact congrArg _ (takeReplies_unmoved hp (fun c hc => hon' c (List.mem_cons_of_mem _ hc))
      hsized' hleaves hleaves hcalls (List.pairwise_cons.1 hpeeked.inOrder).1 hleft hleft
      (Trails.refl hat.le) hunmoved)

/-- A token a second, and no more than one saved. -/
def onePerSecond : BudgetPolicy := ⟨1, 1000, 1⟩

/-- A take of whole numbers. -/
theorem onePerSecond_sized {cost now : ℕ} (hcost : cost ≤ 1000) (hnow : now ≤ 1000000) :
    BudgetCall.Sized ⟨"erp", .take cost, onePerSecond, now⟩ := by
  refine ⟨⟨⟨⟨1, rfl⟩, ⟨1000, rfl⟩, ⟨1, rfl⟩⟩, ⟨cost, rfl⟩, ⟨now, rfl⟩⟩,
    ⟨le_rfl, by norm_num [onePerSecond], le_rfl⟩, ?_, ?_⟩
  · have hle : BudgetCall.capacity ⟨"erp", .take cost, onePerSecond, now⟩ ≤ 1000 := by
      have hcost' : (cost : ℚ) ≤ 1000 := by exact_mod_cast hcost
      refine (BudgetCall.capacity_le _).trans (max_le ?_ hcost')
      norm_num [onePerSecond]
    refine (mul_le_mul_of_nonneg_right hle (by norm_num [onePerSecond])).trans ?_
    norm_num [onePerSecond]
  · have hnow' : (now : ℚ) ≤ 1000000 := by exact_mod_cast hnow
    rw [abs_of_nonneg (Nat.cast_nonneg now)]
    exact hnow'.trans (by norm_num)

/-- A take of three that is refused, and one after the two seconds that it was told to wait. -/
theorem peeks_unnoticed_sample :
    let first : BudgetCall := ⟨"erp", .take (3 : ℕ), onePerSecond, (0 : ℕ)⟩
    let again : BudgetCall := ⟨"erp", .take (3 : ℕ), onePerSecond, (2000 : ℕ)⟩
    (∀ calls, OnBucket "erp" onePerSecond (first :: calls) → (∀ call ∈ calls, call.Sized) →
        Peeked [first, again] (first :: calls) →
        takeReplies .double .empty (first :: calls) = takeReplies .double .empty [first, again]) ↔
      ∀ before call after, [again] = before ++ call :: after →
        call.Unmoved .double ((afterCalls .double .empty (first :: before)).get "erp") := by
  refine peeks_unnoticed .double (by decide +kernel) ?_ (by decide +kernel) (by decide +kernel)
    nofun
  intro call hcall
  simp only [List.mem_cons, List.not_mem_nil, or_false] at hcall
  rcases hcall with rfl | rfl
  · exact onePerSecond_sized (by norm_num) (by norm_num)
  · exact onePerSecond_sized (by norm_num) (by norm_num)

/-- A number of requests that is not whole, in a day. -/
def fractional : BudgetPolicy := ⟨nearest (12 / 10), 86400000, 10⟩

/-- Peeked at before it comes back, the take is refused again. Where refills are rounded, a peek is
noticed below the burst as well. -/
theorem peek_clamps :
    (let first : BudgetCall := ⟨"erp", .take 3, onePerSecond, 0⟩
     let peek : BudgetCall := ⟨"erp", .peek, onePerSecond, 2000⟩
     let again : BudgetCall := ⟨"erp", .take 3, onePerSecond, 2000⟩
     Peeked [first, again] [first, peek, again] ∧
      takeReplies .double .empty [first, again] =
        [(first, .taken (.retry 2000)), (again, .taken (.ok 0))] ∧
      takeReplies .double .empty [first, peek, again] =
        [(first, .taken (.retry 2000)), (again, .taken (.retry 2000))]) ∧
    (let first : BudgetCall := ⟨"erp", .take 10, fractional, 0⟩
     let peek : BudgetCall := ⟨"erp", .peek, fractional, 3⟩
     let again : BudgetCall := ⟨"erp", .take 1, fractional, 72000000⟩
     takeReplies .double .empty [first, peek, again] ≠
      takeReplies .double .empty [first, again]) :=
  ⟨⟨⟨by decide +kernel, by decide +kernel⟩, by decide +kernel, by decide +kernel⟩,
    by decide +kernel⟩

end Watukuy
