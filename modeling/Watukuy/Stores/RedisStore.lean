import Watukuy.Stores.MemoryStore
import Watukuy.Library.Sorting
import Mathlib.Data.String.Basic

/-!
# The Redis store

`stores/redis/scripts.ts` and its callers in `stores/redis/redis-store.ts`, for one key: the scripts
about a lease and the fenced ones. Every script is atomic. A record has one field for each Redis key
of the layout; numbers travel as decimal texts, which compare as the numbers do, and a JSON text is
the value it encodes. Only the members of the `:log` set are told apart by their text, `logText`.
-/

set_option autoImplicit false

namespace Watukuy

open Library

variable {ι : Type}

/-- The `:meta` hash. -/
structure RedisMeta where
  leaseOwner : Option String := none
  leaseEpoch : Option Nat := none
  leaseExpiresAt : Option Int := none
  epochCounter : Nat := 0

/-- `AttemptInfo`, the value of the `:outbox:errors` hash. -/
structure AttemptInfo where
  lastError : Option SerializedError
  nextAttemptAt : Option Int

structure RedisRecord (ι : Type) where
  key : PKey
  meta_ : RedisMeta := {}
  state : Option PollerState := none
  items : OrderedMap String (ItemRow ι) := OrderedMap.empty
  /-- The scores of the pending event ids. -/
  outbox : OrderedMap String Nat := OrderedMap.empty
  rows : OrderedMap String (OutboxRow ι) := OrderedMap.empty
  attempts : OrderedMap String Nat := OrderedMap.empty
  errors : OrderedMap String AttemptInfo := OrderedMap.empty
  parked : OrderedMap String (ParkedRow ι) := OrderedMap.empty
  hold : OrderedMap String String := OrderedMap.empty
  validators : OrderedMap String Validator := OrderedMap.empty
  /-- The logged events by their text. -/
  log : OrderedMap String (LoggedEvent ι) := OrderedMap.empty
  /-- The key is a member of the set of all keys. -/
  listed : Bool := false

namespace RedisRecord

/-! ## Helpers of the scripts -/

/-- `FENCE`. -/
def fenced (rec : RedisRecord ι) (lease : Lease) : Bool :=
  rec.meta_.leaseOwner == some lease.owner && rec.meta_.leaseEpoch == some lease.epoch

/-- `APPLY_STATE`, with the arguments of `patchArgs`. -/
def applyState (rec : RedisRecord ι) (patch : StatePatch) : RedisRecord ι :=
  let base := rec.state.getD (emptyPollerState (patch.updatedAt.getD 0))
  { rec with
    state := some
      { lanes := patch.lanes.getD base.lanes
        schedule := patch.schedule.getD base.schedule
        paused := patch.paused.getD base.paused
        schemaVersion := patch.schemaVersion.getD base.schemaVersion
        sequence := patch.sequence.getD base.sequence
        createdAt := base.createdAt
        updatedAt := patch.updatedAt.getD base.updatedAt } }

/-- `DROP_OUTBOX`. -/
def dropOutbox (rec : RedisRecord ι) (id : String) : RedisRecord ι :=
  { rec with
    outbox := rec.outbox.erase id
    rows := rec.rows.erase id
    attempts := rec.attempts.erase id
    errors := rec.errors.erase id }

/-- `HSET` of a field that may be absent: an absent value is deleted. -/
def setOrDelete (m : OrderedMap String String) (id : String) : Option String → OrderedMap String String
  | some value => m.set id value
  | none => m.erase id

/-! ## Leases -/

/-- `ACQUIRE_LEASE` refuses: another owner's lease has not expired. -/
def heldByOther (rec : RedisRecord ι) (owner : String) (now : Int) : Bool :=
  match rec.meta_.leaseOwner with
  | some current =>
    current != owner &&
      match rec.meta_.leaseExpiresAt with
      | some expires => decide (now < expires)
      | none => false
  | none => false

/-- `ACQUIRE_LEASE`. -/
def acquireLease (rec : RedisRecord ι) (owner : String) (ttlMs now : Int) :
    Option Lease × RedisRecord ι :=
  if rec.heldByOther owner now then (none, rec)
  else
    let epoch := rec.meta_.epochCounter + 1
    let expiresAt := now + ttlMs
    (some { owner, epoch, expiresAt },
      { rec with
        meta_ :=
          { leaseOwner := some owner
            leaseEpoch := some epoch
            leaseExpiresAt := some expiresAt
            epochCounter := epoch }
        listed := true })

/-- `RENEW_LEASE`. -/
def renewLease (rec : RedisRecord ι) (lease : Lease) (ttlMs now : Int) : Bool × RedisRecord ι :=
  if rec.fenced lease then
    (true, { rec with meta_ := { rec.meta_ with leaseExpiresAt := some (now + ttlMs) } })
  else (false, rec)

/-- `RELEASE_LEASE`. -/
def releaseLease (rec : RedisRecord ι) (lease : Lease) : RedisRecord ι :=
  if rec.fenced lease then
    { rec with
      meta_ :=
        { rec.meta_ with leaseOwner := none, leaseEpoch := none, leaseExpiresAt := none } }
  else rec

/-- `getLease`. -/
def getLease (rec : RedisRecord ι) : Option Lease :=
  rec.meta_.leaseOwner.map fun owner =>
    { owner
      epoch := rec.meta_.leaseEpoch.getD 0
      expiresAt := rec.meta_.leaseExpiresAt.getD 0 }

/-! ## Fenced writes -/

/-- The part of `SAVE_STATE` past the fence. -/
def saveState (rec : RedisRecord ι) (patch : StatePatch) : RedisRecord ι :=
  { rec.applyState patch with listed := true }

/-- One event of `COMMIT_POLL`. -/
def commitEvent (logText : LoggedEvent ι → String) (log : Bool) (rec : RedisRecord ι)
    (row : OutboxRow ι) : RedisRecord ι :=
  let logged : LoggedEvent ι :=
    { sequence := row.sequence, event := row.event, createdAt := row.createdAt }
  { rec with
    rows := rec.rows.set row.eventId row
    attempts := rec.attempts.erase row.eventId
    errors := rec.errors.erase row.eventId
    outbox :=
      if row.status = .pending then rec.outbox.set row.eventId row.sequence
      else rec.outbox.erase row.eventId
    log := if log then rec.log.set (logText logged) logged else rec.log }

/-- One parked row of `COMMIT_POLL`. -/
def setParked (rec : RedisRecord ι) (row : ParkedRow ι) : RedisRecord ι :=
  { rec with
    parked := rec.parked.set row.id row
    hold := setOrDelete rec.hold row.id row.holdKey }

/-- The part of `COMMIT_POLL` past the fence. -/
def commitPoll (logText : LoggedEvent ι → String) (rec : RedisRecord ι) (batch : CommitBatch ι) :
    RedisRecord ι :=
  let applied := rec.applyState batch.statePatch
  let stored : RedisRecord ι :=
    { applied with items := (applied.items.setAll (·.identity) batch.upserts).eraseAll batch.deletes }
  let queued := batch.events.foldl (commitEvent logText batch.log) stored
  { batch.parked.foldl setParked queued with listed := true }

/-- The part of `ACK_EVENTS` past the fence. -/
def ackEvents (rec : RedisRecord ι) (eventIds : List String) : RedisRecord ι :=
  eventIds.foldl dropOutbox rec

/-- The part of `RECORD_ATTEMPT` past the fence. -/
def recordAttempt (rec : RedisRecord ι) (eventId : String) (info : AttemptInfo) : RedisRecord ι :=
  if (rec.rows.get eventId).isSome then
    { rec with
      attempts := rec.attempts.set eventId ((rec.attempts.get eventId).getD 0 + 1)
      errors := rec.errors.set eventId info }
  else rec

/-- The part of `PARK_EVENT` past the fence. -/
def parkEvent (rec : RedisRecord ι) (row : ParkedRow ι) : RedisRecord ι :=
  let parked := rec.setParked row
  let dropped :=
    match row.event with
    | some event => parked.dropOutbox event.id
    | none => parked
  { dropped with listed := true }

/-- The part of `SET_VALIDATOR` past the fence. -/
def setValidator (rec : RedisRecord ι) (urlHash : String) (validator : Validator) :
    RedisRecord ι :=
  { rec with validators := rec.validators.set urlHash validator, listed := true }

/-! ## Administration -/

/-- `SAVE_STATE_UNFENCED`. -/
def saveStateUnfenced (rec : RedisRecord ι) (patch : StatePatch) : RedisRecord ι :=
  { rec.applyState patch with listed := true }

/-- `DEL` of all keys of the layout, and `SREM` from the set of all keys. -/
def deleteKey (rec : RedisRecord ι) : RedisRecord ι := { key := rec.key }

def clearItems (rec : RedisRecord ι) : RedisRecord ι := { rec with items := OrderedMap.empty }

/-- One row of `RETRY_PARKED`: the parked id and the row written for it. -/
def retryOne (rec : RedisRecord ι) (id : String) (row : OutboxRow ι) : Nat × RedisRecord ι :=
  if (rec.parked.get id).isSome then
    (1,
      { rec with
        rows := rec.rows.set row.eventId row
        attempts := rec.attempts.erase row.eventId
        errors := rec.errors.erase row.eventId
        outbox := rec.outbox.set row.eventId row.sequence
        parked := rec.parked.erase id
        hold := rec.hold.erase id })
  else (0, rec)

/-- `RETRY_PARKED`. -/
def retryRows (rec : RedisRecord ι) : List (String × OutboxRow ι) → Nat × RedisRecord ι
  | [] => (0, rec)
  | (id, row) :: args =>
    let (n, rec) := rec.retryOne id row
    let (m, rec) := retryRows rec args
    (n + m, rec)

/-- The arguments of `RETRY_PARKED`: the poison rows read before. -/
def retryArgs (rec : RedisRecord ι) (ids : List String) : List (String × OutboxRow ι) :=
  ids.filterMap fun id =>
    match rec.parked.get id with
    | some { kind := .poison, event := some event, parkedAt, .. } =>
      some (id, KeyRecord.retriedRow event parkedAt)
    | _ => none

def retryParked (rec : RedisRecord ι) (ids : List String) : Nat × RedisRecord ι :=
  let args := rec.retryArgs ids
  if args.isEmpty then (0, rec) else rec.retryRows args

/-- `DISCARD_PARKED`. -/
def discardParked (rec : RedisRecord ι) : List String → Nat × RedisRecord ι
  | [] => (0, rec)
  | id :: ids =>
    let removed := if (rec.parked.get id).isSome then 1 else 0
    let (n, rec) :=
      discardParked { rec with parked := rec.parked.erase id, hold := rec.hold.erase id } ids
    (removed + n, rec)

/-! ## Sorted sets

`ZRANGEBYSCORE` replies by score, and by member where scores are equal. -/

def zrange (m : OrderedMap String Nat) : List String :=
  (m.entries.insertionSort (ByRank Prod.snd Prod.fst)).map Prod.fst

/-- `LOG_PAGE`. -/
def logPage : Nat := 500

/-- `ZREM_BATCH`. -/
def zremBatch : Nat := 1000

/-- The members of the `:log` set, with their texts. -/
def logMembers (rec : RedisRecord ι) : List (String × LoggedEvent ι) :=
  rec.log.entries.insertionSort (ByRank (fun m => m.2.sequence) Prod.fst)

/-- The first loop of `pruneLog`, over the pages of the members `rest`. -/
def stalePages (olderThan : Int) (rest : List (String × LoggedEvent ι)) : List String :=
  let stale := ((rest.take logPage).filter fun m => m.2.createdAt < olderThan).map Prod.fst
  if (rest.take logPage).length < logPage then stale
  else stale ++ stalePages olderThan (rest.drop logPage)
termination_by rest.length
decreasing_by
  simp only [List.length_take, logPage, not_lt, List.length_drop] at *
  omega

/-- `ZREM`: how many members were there. -/
def zrem (log : OrderedMap String (LoggedEvent ι)) : List String →
    Nat × OrderedMap String (LoggedEvent ι)
  | [] => (0, log)
  | m :: ms =>
    let removed := if (log.get m).isSome then 1 else 0
    let (n, log) := zrem (log.erase m) ms
    (removed + n, log)

/-- The second loop of `pruneLog`. -/
def zremBatches (log : OrderedMap String (LoggedEvent ι)) (stale : List String) :
    Nat × OrderedMap String (LoggedEvent ι) :=
  if stale.isEmpty then (0, log)
  else
    let (n, log) := zrem log (stale.take zremBatch)
    let (m, log) := zremBatches log (stale.drop zremBatch)
    (n + m, log)
termination_by stale.length
decreasing_by
  rename_i hne
  rw [List.isEmpty_iff] at hne
  have hpos := List.length_pos_of_ne_nil hne
  simp only [List.length_drop, zremBatch]
  omega

def pruneLog (rec : RedisRecord ι) (olderThan : Int) : Nat × RedisRecord ι :=
  let (n, log) := zremBatches rec.log (stalePages olderThan rec.logMembers)
  (n, { rec with log })

/-! ## Reads

`HVALS` replies in any order: the reads that use it take its reply as an argument. -/

/-- One id of `loadPending`: the attempts and the last error are kept apart from the row. -/
def pendingRow (rec : RedisRecord ι) (id : String) : Option (OutboxRow ι) :=
  (rec.rows.get id).map fun row =>
    let row :=
      match rec.attempts.get id with
      | some extra => { row with attempts := row.attempts + extra }
      | none => row
    match rec.errors.get id with
    | some info => { row with lastError := info.lastError, nextAttemptAt := info.nextAttemptAt }
    | none => row

def loadPending (rec : RedisRecord ι) (limit : Nat) : List (OutboxRow ι) :=
  ((zrange rec.outbox).take limit).filterMap rec.pendingRow

def countPending (rec : RedisRecord ι) : Nat := rec.outbox.keys.length

def listParked (values : List (ParkedRow ι)) (kind : Option ParkedKind) (limit : Option Nat) :
    List (ParkedRow ι) :=
  let rows := (values.filter fun r => kind.all fun k => r.kind = k).insertionSort
    fun a b => a.parkedAt ≤ b.parkedAt
  rows.take (limit.getD rows.length)

def countParked (rec : RedisRecord ι) : Nat := rec.parked.keys.length

/-- The inner loop of `readLog`: what is collected, and whether it returns. -/
def scanPage (keep : LoggedEvent ι → Bool) (limit : Nat) :
    List (LoggedEvent ι) → List (LoggedEvent ι) → List (LoggedEvent ι) × Bool
  | out, [] => (out, false)
  | out, m :: ms =>
    if keep m then
      if limit ≤ (out ++ [m]).length then (out ++ [m], true)
      else scanPage keep limit (out ++ [m]) ms
    else scanPage keep limit out ms

/-- The outer loop of `readLog`, over the pages of the members `rest`. -/
def readPages (keep : LoggedEvent ι → Bool) (limit : Nat) (out rest : List (LoggedEvent ι)) :
    List (LoggedEvent ι) :=
  let scanned := scanPage keep limit out (rest.take (max limit logPage))
  if scanned.2 then scanned.1
  else if (rest.take (max limit logPage)).length < max limit logPage then scanned.1
  else readPages keep limit scanned.1 (rest.drop (max limit logPage))
termination_by rest.length
decreasing_by
  rename_i hfull
  have hpage : 0 < max limit logPage := lt_max_of_lt_right (by decide)
  rw [List.length_take, not_lt] at hfull
  rw [List.length_drop]
  omega

def readLog (rec : RedisRecord ι) (range : KeyRecord.LogRange) (limit : Nat) :
    List (LoggedEvent ι) :=
  if limit = 0 then []
  else
    readPages
      (fun e => (range.fromTime.all fun t => decide (t ≤ e.createdAt)) &&
        (range.toTime.all fun t => decide (e.createdAt ≤ t)))
      limit []
      ((rec.logMembers.map Prod.snd).filter fun e =>
        range.afterSequence.all fun s => decide (s < e.sequence))

/-! ## What the writes leave alone -/

theorem commitEvents_meta (logText : LoggedEvent ι → String) (log : Bool)
    (rows : List (OutboxRow ι)) (rec : RedisRecord ι) :
    (rows.foldl (commitEvent logText log) rec).meta_ = rec.meta_ := by
  induction rows generalizing rec with
  | nil => rfl
  | cons row rows ih => exact ih _

theorem setParkeds_meta (rows : List (ParkedRow ι)) (rec : RedisRecord ι) :
    (rows.foldl setParked rec).meta_ = rec.meta_ := by
  induction rows generalizing rec with
  | nil => rfl
  | cons row rows ih => exact ih _

theorem commitPoll_meta (logText : LoggedEvent ι → String) (rec : RedisRecord ι)
    (batch : CommitBatch ι) : (rec.commitPoll logText batch).meta_ = rec.meta_ := by
  simp only [commitPoll, setParkeds_meta, commitEvents_meta]
  rfl

theorem ackEvents_meta (rec : RedisRecord ι) (eventIds : List String) :
    (rec.ackEvents eventIds).meta_ = rec.meta_ := by
  unfold ackEvents
  induction eventIds generalizing rec with
  | nil => rfl
  | cons id ids ih => exact ih _

theorem recordAttempt_meta (rec : RedisRecord ι) (eventId : String) (info : AttemptInfo) :
    (rec.recordAttempt eventId info).meta_ = rec.meta_ := by
  unfold recordAttempt
  split <;> rfl

theorem parkEvent_meta (rec : RedisRecord ι) (row : ParkedRow ι) :
    (rec.parkEvent row).meta_ = rec.meta_ := by
  unfold parkEvent
  cases row.event <;> rfl

theorem retryRows_meta (args : List (String × OutboxRow ι)) (rec : RedisRecord ι) :
    (rec.retryRows args).2.meta_ = rec.meta_ := by
  induction args generalizing rec with
  | nil => rfl
  | cons arg args ih =>
    refine (ih (rec.retryOne arg.1 arg.2).2).trans ?_
    unfold retryOne
    split <;> rfl

theorem retryParked_meta (rec : RedisRecord ι) (ids : List String) :
    (rec.retryParked ids).2.meta_ = rec.meta_ := by
  unfold retryParked
  dsimp only
  split
  · rfl
  · exact retryRows_meta _ rec

theorem discardParked_meta (ids : List String) (rec : RedisRecord ι) :
    (rec.discardParked ids).2.meta_ = rec.meta_ := by
  induction ids generalizing rec with
  | nil => rfl
  | cons id ids ih => exact ih _

end RedisRecord

end Watukuy
