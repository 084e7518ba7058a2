import Watukuy.Library.OrderedMap
import Mathlib.Algebra.Order.Field.Rat

/-!
# Data of the engine

The records of `core/store-types.ts`, `core/event.ts`, `core/poller-types.ts`, `core/errors.ts` and
`core/http-types.ts`, over a type `ι` of items.

* Instants and durations are integers (epoch milliseconds), fractions are rationals.
* A cursor in memory and the JSON text persisted for it are one type, `CursorVal`: each strategy
  reads back exactly the shape it writes.
* What a `fetch` function does is a tree, `UserCode`: the requests it makes through `ctx.http`, in
  view of every answer, and the pages it yields. A promise of one page is a tree with one page.
-/

set_option autoImplicit false

namespace Watukuy

open Library

/-! ## Errors -/

/-- Rate-limit headers of a response, as far as the scheduler reads them. -/
structure RateLimitInfo where
  remaining : Option Int
  resetAt : Option Int
  deriving DecidableEq

structure ValidationIssue where
  message : String
  path : List String
  deriving DecidableEq

/-- The error classes the code distinguishes by `instanceof`. -/
inductive ErrorKind where
  | leaseLost (epoch : Nat)
  | http (status : Nat) (retryAfterMs : Option Int) (rateLimit : Option RateLimitInfo)
  | validation (issues : List ValidationIssue)
  | config
  | replayUnavailable
  | store
  | plain
  deriving DecidableEq

/-- A thrown value. -/
structure JsError where
  kind : ErrorKind
  name : String
  message : String
  deriving DecidableEq

structure SerializedError where
  name : String
  message : String
  code : Option String
  status : Option Nat
  deriving DecidableEq

namespace JsError

/-- `code` of a `WatukuyError`. -/
def code (e : JsError) : Option String :=
  match e.kind with
  | .leaseLost _ => some "LEASE_LOST"
  | .http _ _ _ => some "HTTP"
  | .validation _ => some "VALIDATION"
  | .config => some "CONFIG"
  | .replayUnavailable => some "REPLAY_UNAVAILABLE"
  | .store => some "STORE"
  | .plain => none

def isLeaseLost (e : JsError) : Bool :=
  match e.kind with
  | .leaseLost _ => true
  | _ => false

/-- `HttpError.isThrottle`; other errors are no throttle. -/
def isThrottle (e : JsError) : Bool :=
  match e.kind with
  | .http status retryAfterMs _ => status == 429 || (status == 503 && retryAfterMs.isSome)
  | _ => false

def retryAfterMs (e : JsError) : Option Int :=
  match e.kind with
  | .http _ retryAfterMs _ => retryAfterMs
  | _ => none

def rateLimit (e : JsError) : Option RateLimitInfo :=
  match e.kind with
  | .http _ _ rateLimit => rateLimit
  | _ => none

end JsError

/-- `serializeError`, without stacks and causes. -/
def serializeError (e : JsError) : SerializedError where
  name := e.name
  message := e.message
  code := e.code
  status :=
    match e.kind with
    | .http status _ _ => some status
    | _ => none

/-- `new LeaseLostError(poller, partition, epoch)`. -/
def leaseLostError (poller partition : String) (epoch : Nat) : JsError where
  kind := .leaseLost epoch
  name := "LeaseLostError"
  message := "lease lost for " ++ poller ++ "/" ++ (if partition = "" then "-" else partition) ++
    " (epoch " ++ toString epoch ++ "); another instance owns it now"

/-- `new ValidationError(issues)`. -/
def validationError (issues : List ValidationIssue) : JsError where
  kind := .validation issues
  name := "ValidationError"
  message := "item failed schema validation: " ++ "; ".intercalate (issues.map (·.message))

/-! ## Lanes, events and cursors -/

inductive Lane where
  | live
  | backfill
  | reconcile
  | replay
  deriving DecidableEq, Repr

inductive EventType where
  | created
  | updated
  | deleted
  deriving DecidableEq, Repr

def EventType.text : EventType → String
  | .created => "created"
  | .updated => "updated"
  | .deleted => "deleted"

/-- A cursor of any strategy, in memory and as persisted. -/
inductive CursorVal where
  | null
  | page (page : Nat)
  | token (value : Option String)
  | keyset (value tieBreak : Option String)
  | custom (text : String)
  deriving DecidableEq

/-- What `poller.identity` may return at run time. `number` and `bigint` carry `String(value)`. -/
inductive IdentityValue where
  | string (s : String)
  | number (text : String)
  | bigint (text : String)
  | other (typeName : String)
  deriving DecidableEq

variable (ι : Type)

/-- `WatukuyEvent`. `time` is the instant whose ISO 8601 text the source stores. -/
structure WatukuyEvent where
  id : String
  type : EventType
  source : String
  subject : String
  time : Int
  poller : String
  partition : String
  lane : Lane
  sequence : Nat
  cursor : CursorVal
  data : Option ι
  previous : Option ι
  attempt : Nat

/-! ## Rows of the store -/

structure PKey where
  poller : String
  partition : String
  deriving DecidableEq

structure Lease where
  owner : String
  epoch : Nat
  expiresAt : Int
  deriving DecidableEq

inductive CircuitState where
  | closed
  | open
  | halfOpen
  deriving DecidableEq, Repr

structure EventCounts where
  created : Nat
  updated : Nat
  deleted : Nat
  deriving DecidableEq

structure PollSummary where
  lane : Lane
  startedAt : Int
  durationMs : Int
  pages : Nat
  items : Nat
  events : EventCounts
  notModified : Bool
  truncated : Bool
  deriving DecidableEq

structure ScheduleState where
  nextDueAt : Option Int
  intervalMs : Option Int
  consecutiveFailures : Nat
  circuit : CircuitState
  circuitOpenedAt : Option Int
  throttledUntil : Option Int
  rateLimit : Option RateLimitInfo
  lastPollAt : Option Int
  lastPoll : Option PollSummary
  lastError : Option SerializedError
  deriving DecidableEq

/-- `LaneCursor`; an absent optional field reads as `none` or `false`, as it does in the source. -/
structure LaneCursor where
  cursor : Option CursorVal
  target : Option CursorVal := none
  done : Bool := false
  lastRunAt : Option Int := none
  force : Bool := false
  deriving DecidableEq

/-- `Partial<Record<Lane, LaneCursor>>`; no code stores a `replay` lane. -/
structure Lanes where
  live : Option LaneCursor := none
  backfill : Option LaneCursor := none
  reconcile : Option LaneCursor := none
  deriving DecidableEq

def Lanes.get (lanes : Lanes) : Lane → Option LaneCursor
  | .live => lanes.live
  | .backfill => lanes.backfill
  | .reconcile => lanes.reconcile
  | .replay => none

/-- `{ ...lanes, [lane]: next }`. -/
def Lanes.set (lanes : Lanes) (lane : Lane) (next : LaneCursor) : Lanes :=
  match lane with
  | .live => { lanes with live := some next }
  | .backfill => { lanes with backfill := some next }
  | .reconcile => { lanes with reconcile := some next }
  | .replay => lanes

structure PollerState where
  lanes : Lanes
  schedule : ScheduleState
  paused : Bool
  schemaVersion : Option Nat
  sequence : Nat
  createdAt : Int
  updatedAt : Int
  deriving DecidableEq

/-- `Partial<Omit<PollerState, 'createdAt'>>`. -/
structure StatePatch where
  lanes : Option Lanes := none
  schedule : Option ScheduleState := none
  paused : Option Bool := none
  schemaVersion : Option (Option Nat) := none
  sequence : Option Nat := none
  updatedAt : Option Int := none
  deriving DecidableEq

structure ItemRow where
  identity : String
  version : Option String
  hash : String
  schemaVersion : Nat
  payload : Option ι
  seenAt : Int

inductive OutboxStatus where
  | pending
  | delivered
  deriving DecidableEq

structure OutboxRow where
  eventId : String
  sequence : Nat
  event : WatukuyEvent ι
  status : OutboxStatus
  attempts : Nat
  nextAttemptAt : Option Int
  lastError : Option SerializedError
  createdAt : Int

inductive ParkedKind where
  | poison
  | invalid
  deriving DecidableEq

structure ParkedError where
  name : String
  message : String
  code : Option String := none
  status : Option Nat := none
  history : List (Int × String) := []
  issues : List ValidationIssue := []

structure ParkedRow where
  id : String
  kind : ParkedKind
  event : Option (WatukuyEvent ι)
  item : Option ι
  error : ParkedError
  attempts : Nat
  parkedAt : Int
  holdKey : Option String

structure Validator where
  etag : Option String
  lastModified : Option String
  storedAt : Int

structure LoggedEvent where
  sequence : Nat
  event : WatukuyEvent ι
  createdAt : Int

structure CommitBatch where
  statePatch : StatePatch
  upserts : List (ItemRow ι)
  deletes : List String
  events : List (OutboxRow ι)
  log : Bool
  parked : List (ParkedRow ι) := []

/-! ## Requests and fetch functions -/

/-- A request through `ctx.http`. `url` is the final URL, query included. -/
structure HttpRequest where
  url : String
  method : String := "GET"
  ifNoneMatch : Option String := none
  ifModifiedSince : Option String := none
  cost : Option Nat := none
  validators : Option Bool := none
  throwOnError : Bool := true

/-- A response of the API. `rateLimit` and `retryAfterMs` are what the header parsers give at the
instant they are called, `problemDetail` the title or detail of a Problem Details body. -/
structure RawResponse where
  status : Nat
  etag : Option String
  lastModified : Option String
  body : String
  problemDetail : Option String
  rateLimit : Int → Option RateLimitInfo
  retryAfterMs : Int → Option Int

def RawResponse.ok (r : RawResponse) : Bool := 200 ≤ r.status && r.status ≤ 299

/-- What `ctx.http` resolves to. A 304 has no body. -/
structure HttpResponse where
  status : Nat
  ok : Bool
  notModified : Bool
  body : Option String

structure Page where
  items : List ι
  cursor : Option String := none
  hasMore : Option Bool := none

/-- The part of `FetchContext` that is data. -/
structure FetchContext where
  cursor : CursorVal
  page : Nat
  lane : Lane
  attempt : Nat

/-- What a call of a fetch function does from some point on: it ends, rejects, yields a page, or
makes a request and goes on with its outcome. -/
inductive UserCode where
  | finish
  | raise (e : JsError)
  | page (p : Page ι) (rest : UserCode)
  | request (r : HttpRequest) (k : Except JsError HttpResponse → UserCode)

variable {ι : Type}

instance : (u : UserCode ι) → Decidable (u = .finish)
  | .finish => isTrue rfl
  | .raise _ => isFalse (by simp)
  | .page _ _ => isFalse (by simp)
  | .request _ _ => isFalse (by simp)

instance : (o : Option (UserCode ι)) → Decidable (o = some .finish)
  | none => isFalse (by simp)
  | some u => decidable_of_iff (u = .finish) (by simp)

end Watukuy
