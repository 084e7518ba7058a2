import Watukuy.Library.Double
import Watukuy.Cursor.Strategies

/-!
# Resolved pollers

`ResolvedPoller` of `core/poller-types.ts`: the configuration of one poller with all defaults
applied. The selectors of the user (`identity`, `version`, `orderingKey`) are functions on items;
`canonical` is the canonical JSON text of what `fingerprint` selects, `itemJson` the text
`safeJson` gives. The fetch functions belong to the environment.
-/

set_option autoImplicit false

namespace Watukuy

open Library

inductive OnInvalid where
  | quarantine
  | skip
  | fail
  deriving DecidableEq

inductive OnSchemaChange where
  | rebaseline
  | emit
  deriving DecidableEq

inductive PoisonAction where
  | park
  | halt
  deriving DecidableEq

inductive Retain where
  | hash
  | payload
  deriving DecidableEq

structure Backoff where
  baseMs : Int
  factor : Double
  maxMs : Int

structure ScheduleConfig where
  minMs : Int
  maxMs : Int
  adaptive : Bool
  jitter : Rat
  backoff : Backoff

structure CircuitConfig where
  failures : Nat
  probeEveryMs : Int

variable (ι : Type)

structure DeliveryConfig where
  orderingKey : Option (WatukuyEvent ι → String)
  concurrency : Nat
  retryAttempts : Nat
  retryBackoff : Backoff
  poisonAction : PoisonAction
  poisonHoldKey : Bool

structure ResolvedPoller where
  name : String
  source : String
  /-- Standard Schema `validate`: it may throw, report issues, or return the parsed item. -/
  validate : Option (ι → Except JsError (Except (List ValidationIssue) ι))
  identity : ι → IdentityValue
  version : Option (ι → String)
  canonical : ι → Except JsError String
  itemJson : ι → String
  schemaVersion : Nat
  cursor : CursorConfig ι
  schedule : ScheduleConfig
  budgeted : Bool
  budgetCost : Nat
  delivery : DeliveryConfig ι
  retain : Retain
  /-- `reconcile.everyMs`, when there is a reconcile lane. -/
  reconcileEveryMs : Option Int
  onInvalid : OnInvalid
  onSchemaChange : OnSchemaChange
  maxPagesPerCycle : Nat
  circuit : CircuitConfig
  log : Bool

end Watukuy
