import Watukuy.Budget.MemoryStore
import Mathlib.Data.String.Basic

/-!
# The Redis token bucket

`stores/redis/redis-budget.ts` and its script `BUDGET_TAKE`: one hash for each budget name, under a
key that encodes the name. The script refills, saves and replies in one atomic step. Numbers travel
as decimal texts of full precision, so a field is the number that it encodes. Call by call the
store replies and keeps what the in-memory bucket replies and keeps, as both round alike.
-/

set_option autoImplicit false

namespace Watukuy

open Library

/-! ## Keys -/

/-- The characters that `encodeURIComponent` keeps. -/
def uriUnreserved (c : Char) : Bool := c.isAlphanum || "-_.!~*'()".toList.contains c

def percentDigit (n : Nat) : Char := "0123456789ABCDEF".toList.getD n '0'

/-- One byte of an encoded component. -/
def percentEncoded (byte : UInt8) : List Char :=
  let c := Char.ofNat byte.toNat
  if uriUnreserved c then [c]
  else ['%', percentDigit (byte.toNat / 16), percentDigit (byte.toNat % 16)]

/-- `encodeURIComponent`, byte by byte of the UTF-8 text. -/
def encodeURIComponent (text : String) : String :=
  String.ofList (text.toUTF8.data.toList.flatMap percentEncoded)

def bucketKey (root name : String) : String := root ++ "budget:" ++ encodeURIComponent name

theorem percentDigit_inj {m n : Nat} (hm : m < 16) (hn : n < 16) (h : percentDigit m = percentDigit n) :
    m = n := by
  have hall : ∀ i j : Fin 16, percentDigit i = percentDigit j → i = j := by decide
  exact congrArg Fin.val (hall ⟨m, hm⟩ ⟨n, hn⟩ h)

theorem byteChar_inj {a b : UInt8} (h : Char.ofNat a.toNat = Char.ofNat b.toNat) : a = b := by
  have hvalid : ∀ c : UInt8, (Char.ofNat c.toNat).toNat = c.toNat := by
    intro c
    have hc := c.toNat_lt
    have hscalar : c.toNat.isValidChar := Or.inl (by omega)
    rw [Char.ofNat, dif_pos hscalar]
    rfl
  have hnat := congrArg Char.toNat h
  rw [hvalid, hvalid] at hnat
  exact UInt8.toNat_inj.1 hnat

/-- The encoding of a byte tells where it ends and which byte it is. -/
theorem percentEncoded_append {a b : UInt8} {x y : List Char}
    (h : percentEncoded a ++ x = percentEncoded b ++ y) : a = b ∧ x = y := by
  have hpercent : uriUnreserved '%' = false := by decide
  unfold percentEncoded at h
  by_cases ha : uriUnreserved (Char.ofNat a.toNat) <;>
    by_cases hb : uriUnreserved (Char.ofNat b.toNat)
  · simp only [if_pos ha, if_pos hb, List.cons_append, List.nil_append, List.cons.injEq] at h
    exact ⟨byteChar_inj h.1, h.2⟩
  · simp only [if_pos ha, if_neg hb, List.cons_append, List.nil_append, List.cons.injEq] at h
    rw [h.1, hpercent] at ha
    exact absurd ha Bool.false_ne_true
  · simp only [if_neg ha, if_pos hb, List.cons_append, List.nil_append, List.cons.injEq] at h
    rw [← h.1, hpercent] at hb
    exact absurd hb Bool.false_ne_true
  · simp only [if_neg ha, if_neg hb, List.cons_append, List.nil_append, List.cons.injEq] at h
    obtain ⟨-, hhigh, hlow, hrest⟩ := h
    have halt := a.toNat_lt
    have hblt := b.toNat_lt
    have hdiv := percentDigit_inj (by omega) (by omega) hhigh
    have hmod := percentDigit_inj (by omega) (by omega) hlow
    exact ⟨UInt8.toNat_inj.1 (by omega), hrest⟩

theorem flatMap_percentEncoded_inj {xs ys : List UInt8}
    (h : xs.flatMap percentEncoded = ys.flatMap percentEncoded) : xs = ys := by
  have hcons : ∀ b : UInt8, percentEncoded b ≠ [] := by
    intro b
    by_cases hkept : uriUnreserved (Char.ofNat b.toNat) <;> simp [percentEncoded, hkept]
  induction xs generalizing ys with
  | nil =>
    cases ys with
    | nil => rfl
    | cons y ys => exact absurd (List.append_eq_nil_iff.1 h.symm).1 (hcons y)
  | cons x xs ih =>
    cases ys with
    | nil => exact absurd (List.append_eq_nil_iff.1 h).1 (hcons x)
    | cons y ys =>
      obtain ⟨rfl, hrest⟩ := percentEncoded_append h
      rw [ih hrest]

/-- Distinct names have distinct keys. -/
theorem bucketKey_inj {root name other : String} (h : bucketKey root name = bucketKey root other) :
    name = other := by
  have hencoded : encodeURIComponent name = encodeURIComponent other :=
    (String.append_right_inj _).1 h
  have hbytes := flatMap_percentEncoded_inj (String.ofList_injective hencoded)
  exact String.toByteArray_inj.1 (ByteArray.ext (Array.toList_inj.1 hbytes))

/-! ## The script -/

/-- The bucket hash. -/
structure BucketHash where
  scaled : ℚ
  updated_at : ℚ
  deriving DecidableEq

abbrev BucketHashes := OrderedMap String BucketHash

/-- The arguments of `BUDGET_TAKE`. -/
structure BudgetArgs where
  cost : ℚ
  requests : ℚ
  perMs : ℚ
  burst : ℚ
  now : ℚ

section
variable (r : Rounding)

/-- `refill` of the script: the scaled content and the time of the refilled bucket. -/
def BudgetArgs.refill (args : BudgetArgs) (hash : Option BucketHash) (capacityTokens : ℚ) :
    ℚ × ℚ :=
  let cap := r.mul capacityTokens args.perMs
  match hash with
  | none => (min cap (r.mul args.burst args.perMs), args.now)
  | some ⟨scaled, updated⟩ =>
    let elapsed := r.sub args.now updated
    if elapsed > 0 then (min cap (r.add scaled (r.mul elapsed args.requests)), args.now)
    else if scaled > cap then (cap, updated)
    else (scaled, updated)

/-- `save` of the script. -/
def saveBucket (hashes : BucketHashes) (key : String) (scaled updated : ℚ) : BucketHashes :=
  hashes.set key ⟨scaled, updated⟩

/-- `BUDGET_TAKE`. -/
def budgetTake (hashes : BucketHashes) (key : String) (args : BudgetArgs) :
    BucketHashes × String × ℚ :=
  if ¬ args.cost > 0 then
    let (scaled, updated) := args.refill r (hashes.get key) args.burst
    (saveBucket hashes key scaled updated, "1", r.div scaled args.perMs)
  else
    let capacity := max args.burst args.cost
    let (scaled, updated) := args.refill r (hashes.get key) capacity
    let need := r.mul args.cost args.perMs
    if r.add scaled (epsilon r) ≥ need then
      let scaled := max 0 (r.sub scaled need)
      (saveBucket hashes key scaled updated, "1", r.div scaled args.perMs)
    else
      let deficit := r.sub need scaled
      let retry : ℚ := max 1 (⌈r.sub (r.div deficit args.requests) (epsilon r)⌉ : ℚ)
      (saveBucket hashes key scaled updated, "0", retry)

/-! ## The store -/

/-- `RedisBudgetStore.run`. -/
def runBudgetTake (root : String) (hashes : BucketHashes) (name : String) (cost : ℚ)
    (policy : BudgetPolicy) (now : ℚ) : BucketHashes × Bool × ℚ :=
  let (hashes, flag, value) := budgetTake r hashes (bucketKey root name)
    { cost, requests := policy.requests, perMs := policy.perMs, burst := policy.burst, now }
  (hashes, flag == "1", value)

/-- `RedisBudgetStore.take`. -/
def redisTake (root : String) (hashes : BucketHashes) (name : String) (cost : ℚ)
    (policy : BudgetPolicy) (now : ℚ) : BucketHashes × TakeResult :=
  let (hashes, ok, value) := runBudgetTake r root hashes name cost policy now
  (hashes, if ok then .ok value else .retry value)

/-- `RedisBudgetStore.peek`. -/
def redisPeek (root : String) (hashes : BucketHashes) (name : String) (policy : BudgetPolicy)
    (now : ℚ) : BucketHashes × ℚ :=
  let (hashes, _, remaining) := runBudgetTake r root hashes name 0 policy now
  (hashes, remaining)

/-- A call of the store served by Redis. -/
def BudgetCall.performRedis (root : String) (call : BudgetCall) (hashes : BucketHashes) :
    BucketHashes × BudgetReply :=
  match call.request with
  | .take cost =>
    let (hashes, result) := redisTake r root hashes call.name cost call.policy call.now
    (hashes, .taken result)
  | .peek =>
    let (hashes, tokens) := redisPeek r root hashes call.name call.policy call.now
    (hashes, .available tokens)

/-- The hashes after a sequence of calls. -/
def redisAfterCalls (root : String) (hashes : BucketHashes) (calls : List BudgetCall) :
    BucketHashes :=
  calls.foldl (fun hashes call => (call.performRedis r root hashes).1) hashes

/-- The calls of a sequence with their replies. -/
def redisServed (root : String) : BucketHashes → List BudgetCall → List (BudgetCall × BudgetReply)
  | _, [] => []
  | hashes, call :: calls =>
    (call, (call.performRedis r root hashes).2) ::
      redisServed root (call.performRedis r root hashes).1 calls

end

/-! ## Agreement with the in-memory store -/

/-- The hash that holds a bucket. -/
def Bucket.hash (bucket : Bucket) : BucketHash := ⟨bucket.scaled, bucket.updatedAt⟩

/-- Every name has the same content and time in both stores. -/
def SameBuckets (root : String) (hashes : BucketHashes) (buckets : Buckets) : Prop :=
  ∀ name, hashes.get (bucketKey root name) = (buckets.get name).map Bucket.hash

section
variable {r : Rounding} {root name : String} {hashes : BucketHashes} {buckets : Buckets}

/-- The script refills a hash as the in-memory store refills the bucket. -/
theorem refill_hash (args : BudgetArgs) (capacity : ℚ) (bucket : Option Bucket) :
    args.refill r (bucket.map Bucket.hash) capacity =
      ((refilled r ⟨args.requests, args.perMs, args.burst⟩ args.now capacity bucket).scaled,
        (refilled r ⟨args.requests, args.perMs, args.burst⟩ args.now capacity bucket).updatedAt) := by
  cases bucket with
  | none => rfl
  | some b =>
    simp only [BudgetArgs.refill, refilled, Option.map_some, Bucket.hash]
    split
    · rfl
    · split <;> rfl

/-- Saving under the key of a name is setting its bucket. -/
theorem SameBuckets.save (h : SameBuckets root hashes buckets) (bucket : Bucket) :
    SameBuckets root (saveBucket hashes (bucketKey root name) bucket.scaled bucket.updatedAt)
      (buckets.set name bucket) := by
  intro other
  by_cases hname : other = name
  · rw [hname, saveBucket, OrderedMap.get_set_self, OrderedMap.get_set_self]
    rfl
  · have hkey : bucketKey root other ≠ bucketKey root name := mt bucketKey_inj hname
    rw [saveBucket, OrderedMap.get_set_ne _ hkey, OrderedMap.get_set_ne _ hname]
    exact h other

/-- Setting the bucket of a name twice is setting it once. -/
theorem SameBuckets.of_twice {first second : Bucket}
    (h : SameBuckets root hashes (buckets.set name second)) :
    SameBuckets root hashes ((buckets.set name first).set name second) := by
  intro other
  rw [h other]
  by_cases hname : other = name
  · rw [hname, OrderedMap.get_set_self, OrderedMap.get_set_self]
  · rw [OrderedMap.get_set_ne _ hname, OrderedMap.get_set_ne _ hname,
      OrderedMap.get_set_ne _ hname]

/-- One take. -/
theorem SameBuckets.take (h : SameBuckets root hashes buckets) (name : String) (cost : ℚ)
    (policy : BudgetPolicy) (now : ℚ) :
    (redisTake r root hashes name cost policy now).2 =
        (takeTokens r buckets name cost policy now).2 ∧
      SameBuckets root (redisTake r root hashes name cost policy now).1
        (takeTokens r buckets name cost policy now).1 := by
  by_cases hcost : cost > 0
  · generalize hfilled : refilled r policy now (max policy.burst cost) (buckets.get name) = filled
    by_cases hfits : r.add filled.scaled (epsilon r) ≥ r.mul cost policy.perMs
    · rw [takeTokens_paid hfilled hcost hfits]
      simp only [redisTake, runBudgetTake, budgetTake, hcost, not_true_eq_false, if_false, h name,
        refill_hash, hfilled, if_pos hfits]
      exact ⟨rfl, (h.save { filled with scaled := _ }).of_twice⟩
    · rw [takeTokens_refused hfilled hcost hfits]
      simp only [redisTake, runBudgetTake, budgetTake, hcost, not_true_eq_false, if_false, h name,
        refill_hash, hfilled, if_neg hfits]
      exact ⟨rfl, h.save filled⟩
  · rw [takeTokens_free hcost]
    simp only [redisTake, runBudgetTake, budgetTake, hcost, not_false_eq_true, if_true, h name,
      refill_hash]
    exact ⟨rfl, h.save _⟩

/-- One peek: the script at no cost. -/
theorem SameBuckets.peek (h : SameBuckets root hashes buckets) (name : String)
    (policy : BudgetPolicy) (now : ℚ) :
    (redisPeek r root hashes name policy now).2 = (peekTokens r buckets name policy now).2 ∧
      SameBuckets root (redisPeek r root hashes name policy now).1
        (peekTokens r buckets name policy now).1 := by
  have hfree : ¬ (0 : ℚ) > 0 := lt_irrefl 0
  simp only [redisPeek, runBudgetTake, budgetTake, hfree, not_false_eq_true, if_true, h name,
    refill_hash]
  exact ⟨rfl, h.save _⟩

/-- One call. -/
theorem SameBuckets.perform (h : SameBuckets root hashes buckets) (call : BudgetCall) :
    (call.performRedis r root hashes).2 = (call.perform r buckets).2 ∧
      SameBuckets root (call.performRedis r root hashes).1 (call.perform r buckets).1 := by
  obtain ⟨name, request, policy, now⟩ := call
  cases request with
  | take cost =>
    obtain ⟨hreply, hsame⟩ := h.take name cost policy now
    exact ⟨congrArg BudgetReply.taken hreply, hsame⟩
  | peek =>
    obtain ⟨hreply, hsame⟩ := h.peek name policy now
    exact ⟨congrArg BudgetReply.available hreply, hsame⟩

/-- A sequence of calls. -/
theorem SameBuckets.run (h : SameBuckets root hashes buckets) (calls : List BudgetCall) :
    redisServed r root hashes calls = served r buckets calls ∧
      SameBuckets root (redisAfterCalls r root hashes calls) (afterCalls r buckets calls) := by
  induction calls generalizing hashes buckets with
  | nil => exact ⟨rfl, h⟩
  | cons call calls ih =>
    obtain ⟨hreply, hsame⟩ := h.perform call
    obtain ⟨hserved, hafter⟩ := ih hsame
    constructor
    · rw [redisServed, served, hreply, hserved]
    · exact hafter

end

/-- From new stores on, both reply the same to every sequence of calls, and hold the same content
and time under every name, however results are rounded. -/
theorem redis_budget_agrees (r : Rounding) (root : String) (calls : List BudgetCall) :
    redisServed r root .empty calls = served r .empty calls ∧
      SameBuckets root (redisAfterCalls r root .empty calls) (afterCalls r .empty calls) := by
  have hnew : SameBuckets root .empty .empty := fun _ => rfl
  exact hnew.run calls

end Watukuy
