import Watukuy.Library.RedisDb
import Watukuy.Budget.RedisBudget
import Watukuy.Stores.RedisStore
import Watukuy.Stores.Keyspace

/-!
# The Redis store, command by command

`stores/redis/scripts.ts` and the methods of `stores/redis/redis-store.ts`: the keys and texts of the
layout, the Lua scripts with their `KEYS` and `ARGV`, and what a method sends and reads back. All
keys of all pollers are in one database. Where the server may choose, in the order of a hash and in
the pages of `HSCAN`, a method takes the choice as an argument.
-/

set_option autoImplicit false

namespace Watukuy

open Library Redis

variable {ι : Type}

/-! ## Texts -/

/-- `JSON.stringify` and `JSON.parse` on a type of JSON data: what a text does not give back as it was,
such as `undefined`, `NaN` or a date, is no value of it. -/
structure JsonCodec (α : Type) where
  stringify : α → String
  parse : String → Option α
  parse_stringify : ∀ a, parse (stringify a) = some a

/-- The texts of what the store keeps. -/
structure RedisJson (ι : Type) where
  items : JsonCodec (ItemRow ι)
  rows : JsonCodec (OutboxRow ι)
  attemptInfo : JsonCodec AttemptInfo
  parked : JsonCodec (ParkedRow ι)
  validators : JsonCodec Validator
  logged : JsonCodec (LoggedEvent ι)
  lanes : JsonCodec Lanes
  schedule : JsonCodec ScheduleState
  /-- The text of an object without members. -/
  lanes_empty : lanes.stringify {} = "\x7b\x7d"
  /-- The empty text is no JSON. -/
  parse_empty : logged.parse "" = none

def jsonBool (b : Bool) : String := if b then "true" else "false"

def parseBool (text : String) : Option Bool :=
  if text = "true" then some true else if text = "false" then some false else none

/-- A number or `null`. -/
def jsonNullable : Option Nat → String
  | some n => toString n
  | none => "null"

def parseNullable (text : String) : Option (Option Nat) :=
  if text = "null" then some none else text.toNat?.map some

/-- A value that is read from a text, or the error of `JSON.parse`. -/
def parsed {α : Type} : Option α → Command α
  | some a => pure a
  | none => throw .unreadable

/-! ## Keys -/

/-- The keys of one `(poller, partition)`: `KeySet`. -/
inductive KeyPart : Kind → Type where
  | meta_ : KeyPart .hash
  | state : KeyPart .hash
  | items : KeyPart .hash
  | outbox : KeyPart .zset
  | rows : KeyPart .hash
  | attempts : KeyPart .hash
  | errors : KeyPart .hash
  | parked : KeyPart .hash
  | hold : KeyPart .hash
  | validators : KeyPart .hash
  | log : KeyPart .zset

def KeyPart.suffix : {k : Kind} → KeyPart k → String
  | _, .meta_ => ":meta"
  | _, .state => ":state"
  | _, .items => ":items"
  | _, .outbox => ":outbox"
  | _, .rows => ":outbox:rows"
  | _, .attempts => ":outbox:attempts"
  | _, .errors => ":outbox:errors"
  | _, .parked => ":parked"
  | _, .hold => ":parked:hold"
  | _, .validators => ":validators"
  | _, .log => ":log"

/-! ## Scripts -/

namespace RedisScripts

/-- `LEASE_LOST`. -/
def leaseLost : String := "LEASE_LOST"

/-- `KEYS[i]`, counted from 1. -/
def keyAt (keys : List String) (i : Nat) : String := keys.getD (i - 1) ""

/-- `FENCE`. -/
def fenced (KEYS ARGV : List String) : Command Bool := do
  let owner ← hget (keyAt KEYS 1) "lease_owner"
  let epoch ← hget (keyAt KEYS 1) "lease_epoch"
  return owner == some (← arg ARGV 1) && epoch == some (← arg ARGV 2)

/-- The rest of a fenced script, or the sentinel. -/
def underFence (KEYS ARGV : List String) (body : Command Unit) : Command String := do
  if ← fenced KEYS ARGV then
    body
    return "OK"
  else return leaseLost

/-- The zero state of `APPLY_STATE`, with `ZERO = emptyPollerState(0)`. -/
def zeroState (json : RedisJson ι) (now0 : String) : List (String × String) :=
  [("lanes", "\x7b\x7d"), ("schedule", json.schedule.stringify (emptyPollerState 0).schedule),
    ("paused", "false"), ("schemaVersion", "null"), ("sequence", "0"), ("createdAt", now0),
    ("updatedAt", now0)]

def initState (json : RedisJson ι) (skey now0 : String) : Command Unit := do
  if ← exists_ skey then pure () else hset skey (zeroState json now0)

/-- A field of a patch; the time of creation stays. -/
def overlay (skey field value : String) : Command Unit :=
  if field ≠ "createdAt" then hset skey [(field, value)] else pure ()

/-- The rounds of a loop whose body takes `stride` arguments from `i` on; the sum of the replies. -/
def times (stride : Nat) (body : Nat → Command Nat) : Nat → Nat → Command Nat
  | 0, _ => pure 0
  | n + 1, i => do
    let moved ← body i
    let more ← times stride body n (i + stride)
    return moved + more

/-- A segment of the arguments: a count and its rounds; the index behind it. -/
def segment (ARGV : List String) (stride : Nat) (body : Nat → Command Nat) (i : Nat) :
    Command Nat := do
  let n ← toNumber (← arg ARGV i)
  let _ ← times stride body n.toNat (i + 1)
  return i + 1 + stride * n.toNat

def overlayAt (ARGV : List String) (skey : String) (i : Nat) : Command Nat := do
  let field ← arg ARGV i
  let value ← arg ARGV (i + 1)
  overlay skey field value
  return 0

/-- `APPLY_STATE`: the index behind the patch. -/
def applyState (json : RedisJson ι) (ARGV : List String) (skey now0 : String) (from_ : Nat) :
    Command Nat := do
  initState json skey now0
  segment ARGV 2 (overlayAt ARGV skey) from_

/-- `DROP_OUTBOX`. -/
def dropOutbox (zset rows att err id : String) : Command Unit := do
  let _ ← zrem zset [id]
  let _ ← hdel rows [id]
  let _ ← hdel att [id]
  let _ ← hdel err [id]
  return ()

/-- The hold of a parked row: set, or deleted where the row holds nothing back. -/
def setHold (key id hasHold hold : String) : Command Unit :=
  if hasHold = "1" then hset key [(id, hold)]
  else do
    let _ ← hdel key [id]
    return ()

/-- `ACQUIRE_LEASE` refuses. -/
def heldByOther (KEYS ARGV : List String) : Command Bool := do
  match ← hget (keyAt KEYS 1) "lease_owner" with
  | none => return false
  | some owner =>
    if owner = (← arg ARGV 1) then return false
    else
      -- `tonumber` of no number is `nil`
      match (← hget (keyAt KEYS 1) "lease_expires_at").bind String.toInt? with
      | none => return false
      | some expires => return decide (expires > (← toNumber (← arg ARGV 2)))

/-- `ACQUIRE_LEASE`: the new epoch. -/
def acquireLease (KEYS ARGV : List String) : Command (Option String) := do
  if ← heldByOther KEYS ARGV then return none
  else
    let epoch ← hincrby (keyAt KEYS 1) "epoch_counter" 1
    hset (keyAt KEYS 1) [("lease_owner", ← arg ARGV 1), ("lease_epoch", toString epoch),
      ("lease_expires_at", ← arg ARGV 3)]
    sadd (keyAt KEYS 2) (← arg ARGV 4)
    return some (toString epoch)

/-- `RENEW_LEASE`. -/
def renewLease (KEYS ARGV : List String) : Command Nat := do
  if ← fenced KEYS ARGV then
    hset (keyAt KEYS 1) [("lease_expires_at", ← arg ARGV 3)]
    return 1
  else return 0

/-- `RELEASE_LEASE`. -/
def releaseLease (KEYS ARGV : List String) : Command Nat := do
  if ← fenced KEYS ARGV then
    let _ ← hdel (keyAt KEYS 1) ["lease_owner", "lease_epoch", "lease_expires_at"]
    return 1
  else return 1

/-- `SAVE_STATE`. -/
def saveState (json : RedisJson ι) (KEYS ARGV : List String) : Command String :=
  underFence KEYS ARGV do
    let _ ← applyState json ARGV (keyAt KEYS 2) (← arg ARGV 4) 5
    sadd (keyAt KEYS 3) (← arg ARGV 3)

/-- `SAVE_STATE_UNFENCED`. -/
def saveStateUnfenced (json : RedisJson ι) (KEYS ARGV : List String) : Command Unit := do
  let _ ← applyState json ARGV (keyAt KEYS 1) (← arg ARGV 2) 3
  sadd (keyAt KEYS 2) (← arg ARGV 1)

def commitUpsert (KEYS ARGV : List String) (i : Nat) : Command Nat := do
  hset (keyAt KEYS 3) [(← arg ARGV i, ← arg ARGV (i + 1))]
  return 0

def commitDelete (KEYS ARGV : List String) (i : Nat) : Command Nat := do
  let _ ← hdel (keyAt KEYS 3) [← arg ARGV i]
  return 0

/-- The pending index of a committed row. -/
def setPending (key status seq id : String) : Command Unit :=
  if status = "pending" then zadd key seq id
  else do
    let _ ← zrem key [id]
    return ()

def addLogged (key seq logged : String) : Command Unit :=
  if logged ≠ "" then zadd key seq logged else pure ()

def commitEvent (KEYS ARGV : List String) (i : Nat) : Command Nat := do
  let id ← arg ARGV i
  let seq ← arg ARGV (i + 1)
  let status ← arg ARGV (i + 2)
  let row ← arg ARGV (i + 3)
  let logged ← arg ARGV (i + 4)
  hset (keyAt KEYS 5) [(id, row)]
  let _ ← hdel (keyAt KEYS 6) [id]
  let _ ← hdel (keyAt KEYS 7) [id]
  setPending (keyAt KEYS 4) status seq id
  addLogged (keyAt KEYS 10) seq logged
  return 0

def commitParked (KEYS ARGV : List String) (i : Nat) : Command Nat := do
  let id ← arg ARGV i
  let row ← arg ARGV (i + 1)
  let hasHold ← arg ARGV (i + 2)
  let hold ← arg ARGV (i + 3)
  hset (keyAt KEYS 8) [(id, row)]
  setHold (keyAt KEYS 9) id hasHold hold
  return 0

/-- The part of `COMMIT_POLL` past the fence: the state, and four segments one behind the other. -/
def commitBody (json : RedisJson ι) (KEYS ARGV : List String) : Command Unit := do
  let i ← applyState json ARGV (keyAt KEYS 2) (← arg ARGV 4) 5
  let i ← segment ARGV 2 (commitUpsert KEYS ARGV) i
  let i ← segment ARGV 1 (commitDelete KEYS ARGV) i
  let i ← segment ARGV 5 (commitEvent KEYS ARGV) i
  let _ ← segment ARGV 4 (commitParked KEYS ARGV) i
  sadd (keyAt KEYS 11) (← arg ARGV 3)

/-- `COMMIT_POLL`. -/
def commitPoll (json : RedisJson ι) (KEYS ARGV : List String) : Command String :=
  underFence KEYS ARGV (commitBody json KEYS ARGV)

/-- The rounds of `ACK_EVENTS` over the rest of `ARGV`. -/
def dropAll (KEYS : List String) : List String → Command Unit
  | [] => pure ()
  | id :: ids => do
    dropOutbox (keyAt KEYS 2) (keyAt KEYS 3) (keyAt KEYS 4) (keyAt KEYS 5) id
    dropAll KEYS ids

/-- `ACK_EVENTS`. -/
def ackEvents (KEYS ARGV : List String) : Command String :=
  underFence KEYS ARGV (dropAll KEYS (ARGV.drop 2))

/-- `RECORD_ATTEMPT`. -/
def recordAttempt (KEYS ARGV : List String) : Command String :=
  underFence KEYS ARGV do
    if ← hexists (keyAt KEYS 2) (← arg ARGV 3) then
      let _ ← hincrby (keyAt KEYS 3) (← arg ARGV 3) 1
      hset (keyAt KEYS 4) [(← arg ARGV 3, ← arg ARGV 4)]
    else pure ()

/-- The outbox row that `PARK_EVENT` drops. -/
def dropParked (KEYS : List String) (hasEvent eventId : String) : Command Unit :=
  if hasEvent = "1" then
    dropOutbox (keyAt KEYS 4) (keyAt KEYS 5) (keyAt KEYS 6) (keyAt KEYS 7) eventId
  else pure ()

/-- `PARK_EVENT`. -/
def parkEvent (KEYS ARGV : List String) : Command String :=
  underFence KEYS ARGV do
    hset (keyAt KEYS 2) [(← arg ARGV 4, ← arg ARGV 5)]
    setHold (keyAt KEYS 3) (← arg ARGV 4) (← arg ARGV 6) (← arg ARGV 7)
    dropParked KEYS (← arg ARGV 8) (← arg ARGV 9)
    sadd (keyAt KEYS 8) (← arg ARGV 3)

/-- `SET_VALIDATOR`. -/
def setValidator (KEYS ARGV : List String) : Command String :=
  underFence KEYS ARGV do
    hset (keyAt KEYS 2) [(← arg ARGV 4, ← arg ARGV 5)]
    sadd (keyAt KEYS 3) (← arg ARGV 3)

/-- A row of `RETRY_PARKED`: 1 where it is still parked. -/
def retryRow (KEYS ARGV : List String) (i : Nat) : Command Nat := do
  let pid ← arg ARGV i
  let eid ← arg ARGV (i + 1)
  let seq ← arg ARGV (i + 2)
  let row ← arg ARGV (i + 3)
  if ← hexists (keyAt KEYS 1) pid then
    hset (keyAt KEYS 4) [(eid, row)]
    let _ ← hdel (keyAt KEYS 5) [eid]
    let _ ← hdel (keyAt KEYS 6) [eid]
    zadd (keyAt KEYS 3) seq eid
    let _ ← hdel (keyAt KEYS 1) [pid]
    let _ ← hdel (keyAt KEYS 2) [pid]
    return 1
  else return 0

/-- `RETRY_PARKED`. -/
def retryParked (KEYS ARGV : List String) : Command Nat := do
  let n ← toNumber (← arg ARGV 1)
  times 4 (retryRow KEYS ARGV) n.toNat 2

/-- `DISCARD_PARKED`. -/
def discardParked (KEYS : List String) : List String → Command Nat
  | [] => pure 0
  | id :: ids => do
    let removed ← hdel (keyAt KEYS 1) [id]
    let _ ← hdel (keyAt KEYS 2) [id]
    let more ← discardParked KEYS ids
    return removed + more

end RedisScripts

end Watukuy
