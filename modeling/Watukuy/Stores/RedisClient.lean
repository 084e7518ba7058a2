import Watukuy.Stores.RedisScripts
import Watukuy.Stores.Selects

/-!
# The methods of the Redis store

`stores/redis/redis-store.ts` over the scripts: the arguments that each method flattens, and what it
makes of the replies.
-/

set_option autoImplicit false

namespace Watukuy

open Library Redis

variable {ι : Type}

/-- What the server may choose in its replies: the order of the values and members of a key, and the
pages in which `HSCAN` goes over the fields of a hash, where a field may come up again. -/
structure RedisServer where
  order : List String → List String
  order_perm : ∀ values, (order values).Perm values
  pages : List String → List (List String)
  pages_all : ∀ fields f, f ∈ (pages fields).flatten ↔ f ∈ fields

/-- The options of `RedisStore`. -/
structure RedisClient (ι : Type) where
  keyPrefix : String
  json : RedisJson ι

namespace RedisClient

variable (c : RedisClient ι)

/-! ## Keys and arguments -/

/-- `keys`. -/
def keyName (key : PKey) {k : Kind} (part : KeyPart k) : String :=
  c.keyPrefix ++ "p:" ++ encodeURIComponent key.poller ++ ":" ++ encodeURIComponent key.partition ++
    part.suffix

def keysSet : String := c.keyPrefix ++ "keys"

/-- `member`. -/
def member (key : PKey) : String := MemoryStore.id key

/-- The pairs of `patchArgs`. -/
def patchPairs (patch : StatePatch) : List (String × String) :=
  (patch.lanes.map fun v => ("lanes", c.json.lanes.stringify v)).toList ++
    ((patch.schedule.map fun v => ("schedule", c.json.schedule.stringify v)).toList ++
      ((patch.paused.map fun v => ("paused", jsonBool v)).toList ++
        ((patch.schemaVersion.map fun v => ("schemaVersion", jsonNullable v)).toList ++
          ((patch.sequence.map fun v => ("sequence", toString v)).toList ++
            (patch.updatedAt.map fun v => ("updatedAt", toString v)).toList))))

def flatPairs (pairs : List (String × String)) : List String := pairs.flatMap fun p => [p.1, p.2]

/-- `patchArgs`. -/
def patchArgs (patch : StatePatch) : List String :=
  toString (patch.updatedAt.getD 0) :: toString (c.patchPairs patch).length ::
    flatPairs (c.patchPairs patch)

def upsertArgs (row : ItemRow ι) : List String := [row.identity, c.json.items.stringify row]

def statusText : OutboxStatus → String
  | .pending => "pending"
  | .delivered => "delivered"

def eventArgs (log : Bool) (row : OutboxRow ι) : List String :=
  [row.eventId, toString row.sequence, statusText row.status, c.json.rows.stringify row,
    if log then
      c.json.logged.stringify
        { sequence := row.sequence, event := row.event, createdAt := row.createdAt }
    else ""]

def parkedArgs (row : ParkedRow ι) : List String :=
  [row.id, c.json.parked.stringify row, if row.holdKey.isSome then "1" else "0",
    row.holdKey.getD ""]

/-- The arguments of `commitPoll`. -/
def commitArgs (key : PKey) (batch : CommitBatch ι) : List String :=
  member key :: (c.patchArgs batch.statePatch ++
    (toString batch.upserts.length :: batch.upserts.flatMap c.upsertArgs ++
      (toString batch.deletes.length :: batch.deletes ++
        (toString batch.events.length :: batch.events.flatMap (c.eventArgs batch.log) ++
          (toString batch.parked.length :: batch.parked.flatMap c.parkedArgs)))))

/-! ## Leases -/

/-- `Number` of a decimal text. -/
def number (text : String) : Int := text.toInt?.getD 0

def acquireLease (key : PKey) (owner : String) (ttlMs now : Int) : Command (Option Lease) := do
  let expiresAt := now + ttlMs
  let reply ← RedisScripts.acquireLease [c.keyName key .meta_, c.keysSet]
    [owner, toString now, toString expiresAt, member key]
  return reply.map fun epoch => { owner, epoch := (number epoch).toNat, expiresAt }

def renewLease (key : PKey) (lease : Lease) (ttlMs now : Int) : Command Bool := do
  let reply ← RedisScripts.renewLease [c.keyName key .meta_]
    [lease.owner, toString lease.epoch, toString (now + ttlMs)]
  return reply == 1

def releaseLease (key : PKey) (lease : Lease) : Command Unit := do
  let _ ← RedisScripts.releaseLease [c.keyName key .meta_] [lease.owner, toString lease.epoch]
  return ()

def getLease (key : PKey) : Command (Option Lease) := do
  let reply ← hmget (c.keyName key .meta_) ["lease_owner", "lease_epoch", "lease_expires_at"]
  return reply[0]?.join.map fun owner =>
    { owner
      epoch := ((reply[1]?.join.map number).getD 0).toNat
      expiresAt := (reply[2]?.join.map number).getD 0 }

/-! ## Fenced writes -/

/-- `fenced`. -/
def fenced (key : PKey) (lease : Lease) (script : List String → List String → Command String)
    (keys args : List String) : Command (Except JsError Unit) := do
  let reply ← script keys ([lease.owner, toString lease.epoch] ++ args)
  return if reply = RedisScripts.leaseLost then
    .error (leaseLostError key.poller key.partition lease.epoch)
  else .ok ()

/-- `saveState`, `commitPoll`, `ackEvents`, `recordAttempt`, `parkEvent` and `setValidator`. -/
def write (key : PKey) (lease : Lease) : FencedWrite ι → Command (Except JsError Unit)
  | .saveState patch =>
    fenced key lease (RedisScripts.saveState c.json)
      [c.keyName key .meta_, c.keyName key .state, c.keysSet] (member key :: c.patchArgs patch)
  | .commitPoll batch =>
    fenced key lease (RedisScripts.commitPoll c.json)
      [c.keyName key .meta_, c.keyName key .state, c.keyName key .items, c.keyName key .outbox,
        c.keyName key .rows, c.keyName key .attempts, c.keyName key .errors, c.keyName key .parked,
        c.keyName key .hold, c.keyName key .log, c.keysSet]
      (c.commitArgs key batch)
  | .ackEvents eventIds =>
    fenced key lease RedisScripts.ackEvents
      [c.keyName key .meta_, c.keyName key .outbox, c.keyName key .rows, c.keyName key .attempts,
        c.keyName key .errors]
      eventIds
  | .recordAttempt eventId error nextAttemptAt =>
    fenced key lease RedisScripts.recordAttempt
      [c.keyName key .meta_, c.keyName key .rows, c.keyName key .attempts, c.keyName key .errors]
      [eventId, c.json.attemptInfo.stringify { lastError := some error, nextAttemptAt }]
  | .parkEvent row =>
    fenced key lease RedisScripts.parkEvent
      [c.keyName key .meta_, c.keyName key .parked, c.keyName key .hold, c.keyName key .outbox,
        c.keyName key .rows, c.keyName key .attempts, c.keyName key .errors, c.keysSet]
      ([member key] ++ c.parkedArgs row ++
        [if row.event.isSome then "1" else "0", (row.event.map (·.id)).getD ""])
  | .setValidator urlHash validator =>
    fenced key lease RedisScripts.setValidator
      [c.keyName key .meta_, c.keyName key .validators, c.keysSet]
      [member key, urlHash, c.json.validators.stringify validator]

/-! ## State -/

/-- A field of the state hash, with its fallback. -/
def field {α : Type} (hash : OrderedMap String String) (name : String) (fallback : α)
    (parse : String → Option α) : Command α :=
  match hash.get name with
  | some raw => parsed (parse raw)
  | none => pure fallback

def readState (hash : OrderedMap String String) : Command PollerState := do
  let zero := emptyPollerState 0
  return {
    lanes := ← field hash "lanes" zero.lanes c.json.lanes.parse
    schedule := ← field hash "schedule" zero.schedule c.json.schedule.parse
    paused := ← field hash "paused" zero.paused parseBool
    schemaVersion := ← field hash "schemaVersion" zero.schemaVersion parseNullable
    sequence := ← field hash "sequence" zero.sequence String.toNat?
    createdAt := ← field hash "createdAt" zero.createdAt String.toInt?
    updatedAt := ← field hash "updatedAt" zero.updatedAt String.toInt? }

def loadState (key : PKey) : Command (Option PollerState) := do
  let hash ← hgetall (c.keyName key .state)
  if hash.keys.length = 0 then return none
  else return some (← c.readState hash)

def saveStateUnfenced (key : PKey) (patch : StatePatch) : Command Unit :=
  RedisScripts.saveStateUnfenced c.json [c.keyName key .state, c.keysSet]
    (member key :: c.patchArgs patch)

/-! ## Keys -/

/-- `listKeys`, but for the order of its result. -/
def listKeys (server : RedisServer) (poller : Option String) : Command (List PKey) := do
  let members ← smembers c.keysSet
  return (server.order members).filterMap fun m =>
    (MemoryStore.readId m).filter fun key => poller.all fun p => decide (key.poller = p)

def deleteKey (key : PKey) : Command Unit := do
  del (c.keyName key .meta_)
  del (c.keyName key .state)
  del (c.keyName key .items)
  del (c.keyName key .outbox)
  del (c.keyName key .rows)
  del (c.keyName key .attempts)
  del (c.keyName key .errors)
  del (c.keyName key .parked)
  del (c.keyName key .hold)
  del (c.keyName key .validators)
  del (c.keyName key .log)
  srem c.keysSet (member key)

/-! ## Items -/

def clearItems (key : PKey) : Command Unit := del (c.keyName key .items)

/-- The rows that were found, put into a map. -/
def collect {α : Type} (parse : String → Option α) :
    List (String × Option String) → OrderedMap String α → Command (OrderedMap String α)
  | [], out => pure out
  | (_, none) :: rest, out => collect parse rest out
  | (id, some json) :: rest, out => do
    let row ← parsed (parse json)
    collect parse rest (out.set id row)

def loadVersions (key : PKey) (identities : List String) :
    Command (OrderedMap String (ItemRow ι)) :=
  if identities.length = 0 then pure OrderedMap.empty
  else do
    let values ← hmget (c.keyName key .items) identities
    collect c.json.items.parse (identities.zip values) OrderedMap.empty

def countItems (key : PKey) : Command Nat := hlen (c.keyName key .items)

/-- One page of `streamIdentities`: what was seen, and the buffer. -/
def buffered (seen buffer : List String) : List String → List String × List String
  | [] => (seen, buffer)
  | identity :: rest =>
    if identity ∈ seen then buffered seen buffer rest
    else buffered (seen ++ [identity]) (buffer ++ [identity]) rest

/-- The batches of `streamIdentities` over the pages of `HSCAN`; the batch size is 1000. -/
def streamPages (seen buffer : List String) : List (List String) → List (List String)
  | [] => if buffer.length > 0 then [buffer] else []
  | page :: pages =>
    let (seen, buffer) := buffered seen buffer page
    let full := buffer.length / 1000
    KeyRecord.slices 1000 full (buffer.take (full * 1000)) ++
      streamPages seen (buffer.drop (full * 1000)) pages

def streamIdentities (server : RedisServer) (key : PKey) : Command (List (List String)) := do
  let hash ← hgetall (c.keyName key .items)
  return streamPages [] [] (server.pages hash.keys)

/-! ## The outbox -/

/-- The last error of a row, where one is kept apart. -/
def withError (row : OutboxRow ι) : Option String → Command (OutboxRow ι)
  | some err => do
    let info ← parsed (c.json.attemptInfo.parse err)
    return { row with lastError := info.lastError, nextAttemptAt := info.nextAttemptAt }
  | none => pure row

def withAttempts (row : OutboxRow ι) : Option String → OutboxRow ι
  | some extra => { row with attempts := row.attempts + (number extra).toNat }
  | none => row

/-- The rows of some ids with their attempts and errors, as `loadPending` reads them. -/
def readPending : List (Option String × Option String × Option String) →
    Command (List (OutboxRow ι))
  | [] => pure []
  | (none, _, _) :: rest => readPending rest
  | (some json, extra, err) :: rest => do
    let row ← parsed (c.json.rows.parse json)
    let row ← c.withError (withAttempts row extra) err
    let more ← readPending rest
    return row :: more

def loadPending (key : PKey) (limit : Nat) : Command (List (OutboxRow ι)) :=
  if limit = 0 then pure []
  else do
    let ids ← zrangebyscore (c.keyName key .outbox) none 0 limit
    if ids.length = 0 then return []
    else
      let rows ← hmget (c.keyName key .rows) ids
      let attempts ← hmget (c.keyName key .attempts) ids
      let errors ← hmget (c.keyName key .errors) ids
      c.readPending (rows.zip (attempts.zip errors))

def countPending (key : PKey) : Command Nat := zcard (c.keyName key .outbox)

/-! ## Parked rows -/

/-- `JSON.parse` of each text. -/
def parsedAll {α : Type} (parse : String → Option α) : List String → Command (List α)
  | [] => pure []
  | text :: rest => do
    let a ← parsed (parse text)
    let more ← parsedAll parse rest
    return a :: more

def listParked (server : RedisServer) (key : PKey) (kind : Option ParkedKind)
    (limit : Option Nat) : Command (List (ParkedRow ι)) := do
  let values ← hvals (c.keyName key .parked)
  let rows ← parsedAll c.json.parked.parse (server.order values)
  return RedisRecord.listParked rows kind limit

def countParked (key : PKey) : Command Nat := hlen (c.keyName key .parked)

/-- The row that `retryParked` writes for a parked row, if it does. -/
def retriable (row : ParkedRow ι) : Option (OutboxRow ι) :=
  if row.kind = .poison then row.event.map fun event => KeyRecord.retriedRow event row.parkedAt
  else none

/-- The arguments of `RETRY_PARKED` behind the count, and the count. -/
def retryArgs : List (String × Option String) → Command (Nat × List String)
  | [] => pure (0, [])
  | (_, none) :: rest => retryArgs rest
  | (id, some json) :: rest => do
    let row ← parsed (c.json.parked.parse json)
    let (n, args) ← retryArgs rest
    return match retriable row with
      | some outbox =>
        (n + 1, id :: outbox.eventId :: toString outbox.sequence ::
          c.json.rows.stringify outbox :: args)
      | none => (n, args)

def retryParked (key : PKey) (ids : List String) : Command Nat :=
  if ids.length = 0 then pure 0
  else do
    let values ← hmget (c.keyName key .parked) ids
    let (n, args) ← c.retryArgs (ids.zip values)
    if n = 0 then return 0
    else
      RedisScripts.retryParked
        [c.keyName key .parked, c.keyName key .hold, c.keyName key .outbox, c.keyName key .rows,
          c.keyName key .attempts, c.keyName key .errors]
        (toString n :: args)

def discardParked (key : PKey) (ids : List String) : Command Nat :=
  if ids.length = 0 then pure 0
  else RedisScripts.discardParked [c.keyName key .parked, c.keyName key .hold] ids

def heldKeys (server : RedisServer) (key : PKey) : Command (Set String) := do
  let values ← hvals (c.keyName key .hold)
  return { k | k ∈ server.order values }

/-! ## Validators and the log -/

def getValidator (key : PKey) (urlHash : String) : Command (Option Validator) := do
  match (← hmget (c.keyName key .validators) [urlHash])[0]?.join with
  | none => return none
  | some json => return some (← parsed (c.json.validators.parse json))

/-- The loop of `readLog`, over the pages of the members. Each round but the last is over a full
page, so the rounds are no more than `fuel` where that is above the number of members. -/
def readPages (keep : LoggedEvent ι → Bool) (log : String) (above : Option Int) (limit page : Nat) :
    Nat → Nat → List (LoggedEvent ι) → Command (List (LoggedEvent ι))
  | 0, _, _ => throw .unreadable
  | fuel + 1, offset, out => do
    let members ← zrangebyscore log above offset page
    let entries ← parsedAll c.json.logged.parse members
    let scanned := RedisRecord.scanPage keep limit out entries
    if scanned.2 then return scanned.1
    else if members.length < page then return scanned.1
    else readPages keep log above limit page fuel (offset + page) scanned.1

/-- How many members a sorted set has; it bounds the loops over its pages. -/
def rounds (log : String) : Command Nat := do return (← zcard log) + 1

def readLog (key : PKey) (range : KeyRecord.LogRange) (limit : Nat) :
    Command (List (LoggedEvent ι)) :=
  if limit = 0 then pure []
  else do
    let fuel ← rounds (c.keyName key .log)
    c.readPages
      (fun e => (range.fromTime.all fun t => decide (t ≤ e.createdAt)) &&
        (range.toTime.all fun t => decide (e.createdAt ≤ t)))
      (c.keyName key .log) (range.afterSequence.map Int.ofNat) limit
      (max limit RedisRecord.logPage) fuel 0 []

/-- The first loop of `pruneLog`. -/
def stalePages (log : String) (olderThan : Int) : Nat → Nat → Command (List String)
  | 0, _ => throw .unreadable
  | fuel + 1, offset => do
    let members ← zrangebyscore log none offset RedisRecord.logPage
    let entries ← parsedAll c.json.logged.parse members
    let stale := ((members.zip entries).filter fun m => m.2.createdAt < olderThan).map Prod.fst
    if members.length < RedisRecord.logPage then return stale
    else
      let more ← stalePages log olderThan fuel (offset + RedisRecord.logPage)
      return stale ++ more

/-- The second loop of `pruneLog`. -/
def removeStale (log : String) : Nat → List String → Command Nat
  | 0, _ => pure 0
  | batches + 1, stale => do
    let removed ← zrem log (stale.take RedisRecord.zremBatch)
    let more ← removeStale log batches (stale.drop RedisRecord.zremBatch)
    return removed + more

def pruneLog (key : PKey) (olderThan : Int) : Command Nat := do
  let log := c.keyName key .log
  let fuel ← rounds log
  let stale ← c.stalePages log olderThan fuel 0
  removeStale log ((stale.length + RedisRecord.zremBatch - 1) / RedisRecord.zremBatch) stale

end RedisClient

end Watukuy
