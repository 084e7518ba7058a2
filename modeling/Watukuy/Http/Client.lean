import Watukuy.Core.Effects

/-!
# The HTTP helper

`http/client.ts`: one request of `ctx.http`, with conditional headers from the stored validators.
The client lives in the body of a cycle: `onNotModified` and `onRateLimit` assign to the cycle's
local variables `σ`.
-/

set_option autoImplicit false

namespace Watukuy

open Library Block

variable {ι σ : Type}

structure HttpClientDeps (σ : Type) where
  crypto : Crypto
  lease : Lease
  run : Nat
  /-- A budget is configured for the poller. -/
  charged : Bool
  defaultCost : Nat
  onNotModified : σ → σ
  onRateLimit : RateLimitInfo → σ → σ

/-- A header value counts when it is present and not empty. -/
def truthy (value : Option String) : Option String := value.filter fun s => s ≠ ""

/-- `new HttpError(...)`. -/
def httpError (r : HttpRequest) (raw : RawResponse) (retryAfterMs : Option Int)
    (rateLimit : Option RateLimitInfo) : JsError where
  kind := .http raw.status retryAfterMs rateLimit
  name := "HttpError"
  message := r.method ++ " " ++ r.url ++ " responded " ++ toString raw.status ++
    match truthy raw.problemDetail with
    | some detail => ": " ++ detail
    | none => ""

/-- `storeValidators`: a failure is logged and swallowed. -/
def storeValidators (lease : Lease) (urlHash : String) (raw : RawResponse) : Proc ι Unit :=
  if raw.etag.isNone && raw.lastModified.isNone then pure ()
  else do
    let storedAt ← now
    let validator : Validator := { etag := raw.etag, lastModified := raw.lastModified, storedAt }
    let _ ← (store (.setValidator lease urlHash validator)).attempt
    return ()

/-- The stored validator of a URL; a failure to load it is logged and swallowed. -/
def loadValidator (urlHash : String) : Proc ι (Option Validator) := do
  match ← (store (.getValidator urlHash)).attempt with
  | .ok validator => return validator
  | .error _ => return none

/-- The request with the conditional headers of a stored validator. -/
def wireRequest (r : HttpRequest) (stored : Option Validator) : WireRequest where
  method := r.method
  url := r.url
  ifNoneMatch := r.ifNoneMatch.orElse fun _ => truthy (stored.bind (·.etag))
  ifModifiedSince := r.ifModifiedSince.orElse fun _ => truthy (stored.bind (·.lastModified))

/-- `useValidators`: GET and HEAD unless the caller decides. -/
def usesValidators (r : HttpRequest) : Bool :=
  r.validators.getD (r.method == "GET" || r.method == "HEAD")

/-- `signal.throwIfAborted()`. -/
def throwIfAborted (run : Nat) : Proc ι Unit := do
  match ← call (.signal run) with
  | some reason => throw reason
  | none => return ()

/-- Before the request goes out: the abort test, the budget, the validators. -/
def prepareRequest (d : HttpClientDeps σ) (r : HttpRequest) : Proc ι WireRequest := do
  throwIfAborted d.run
  let cost := r.cost.getD d.defaultCost
  Task.when (0 < cost ∧ d.charged) (Task.request (.charge cost) id)
  if usesValidators r then
    let stored ← loadValidator (d.crypto.hashUrl r.url)
    return wireRequest r stored
  else return wireRequest r none

/-- The exchange with the API; a 304 and the rate-limit headers are noted in the cycle. -/
def sendRequest (d : HttpClientDeps σ) (wire : WireRequest) :
    Body ι σ (RawResponse × Option RateLimitInfo) := do
  let raw ← await (Task.request (.http wire) id)
  when (raw.status = 304) (assign d.onNotModified)
  let receivedAt ← await now
  let rateLimit := raw.rateLimit receivedAt
  forSome rateLimit fun info => assign (d.onRateLimit info)
  return (raw, rateLimit)

/-- What the caller gets: no body on 304, new validators stored on 2xx, an error otherwise. -/
def settleResponse (d : HttpClientDeps σ) (r : HttpRequest) (raw : RawResponse)
    (rateLimit : Option RateLimitInfo) : Proc ι HttpResponse :=
  if raw.status = 304 then
    return { status := raw.status, ok := true, notModified := true, body := none }
  else if raw.ok then do
    Task.when (usesValidators r) (storeValidators d.lease (d.crypto.hashUrl r.url) raw)
    return { status := raw.status, ok := true, notModified := false, body := some raw.body }
  else do
    let readAt ← now
    if r.throwOnError then throw (httpError r raw (raw.retryAfterMs readAt) rateLimit)
    else return { status := raw.status, ok := false, notModified := false, body := some raw.body }

/-- `request` of `createHttpClient`. -/
def request (d : HttpClientDeps σ) (r : HttpRequest) : Body ι σ HttpResponse := do
  let wire ← await (prepareRequest d r)
  let (raw, rateLimit) ← sendRequest d wire
  await (settleResponse d r raw rateLimit)

end Watukuy
