import Watukuy.Stores.MemoryStore

/-!
# The SQLite store

`stores/sqlite/sqlite-store.ts`, for one key: the key's row of the `pollers` table, and its rows of
the other tables by their primary key. Each method is one statement or one transaction. A JSON text
is the value it encodes: the values are JSON data, which come back from `JSON.parse` of their text as
they are, and no text in a column has a `U+0000`.
-/

set_option autoImplicit false

namespace Watukuy

open Library

variable {ι : Type}

/-- A row of the `pollers` table, with the defaults of the columns. -/
structure PollersRow where
  state : Option PollerState := none
  leaseOwner : Option String := none
  leaseEpoch : Nat := 0
  leaseExpiresAt : Option Int := none
  epochCounter : Nat := 0

structure SqliteRecord (ι : Type) where
  key : PKey
  pollers : Option PollersRow := none
  items : OrderedMap String (ItemRow ι) := OrderedMap.empty
  outbox : OrderedMap String (OutboxRow ι) := OrderedMap.empty
  parked : OrderedMap String (ParkedRow ι) := OrderedMap.empty
  validators : OrderedMap String Validator := OrderedMap.empty
  log : OrderedMap Nat (LoggedEvent ι) := OrderedMap.empty

/-- `lease_expires_at <= now`, which a null does not satisfy. -/
def PollersRow.expired (row : PollersRow) (now : Int) : Bool :=
  row.leaseExpiresAt.any fun t => t ≤ now

namespace SqliteRecord

/-! ## Leases -/

/-- The `WHERE` of the upsert. -/
def mayAcquire (row : PollersRow) (owner : String) (now : Int) : Bool :=
  row.leaseOwner.isNone || row.expired now || row.leaseOwner == some owner

def acquireLease (rec : SqliteRecord ι) (owner : String) (ttlMs now : Int) :
    Option Lease × SqliteRecord ι :=
  match rec.pollers with
  | none =>
    (some { owner, epoch := 1, expiresAt := now + ttlMs },
      { rec with
        pollers := some
          { leaseOwner := some owner
            leaseEpoch := 1
            leaseExpiresAt := some (now + ttlMs)
            epochCounter := 1 } })
  | some row =>
    if mayAcquire row owner now then
      (some { owner, epoch := row.epochCounter + 1, expiresAt := now + ttlMs },
        { rec with
          pollers := some
            { row with
              leaseOwner := some owner
              epochCounter := row.epochCounter + 1
              leaseEpoch := row.epochCounter + 1
              leaseExpiresAt := some (now + ttlMs) } })
    else (none, rec)

/-- The `WHERE` of the updates of a lease. -/
def leased (rec : SqliteRecord ι) (lease : Lease) : Option PollersRow :=
  rec.pollers.filter fun row =>
    row.leaseOwner == some lease.owner && row.leaseEpoch == lease.epoch

def renewLease (rec : SqliteRecord ι) (lease : Lease) (ttlMs now : Int) : Bool × SqliteRecord ι :=
  match rec.leased lease with
  | some row =>
    (true, { rec with pollers := some { row with leaseExpiresAt := some (now + ttlMs) } })
  | none => (false, rec)

def releaseLease (rec : SqliteRecord ι) (lease : Lease) : SqliteRecord ι :=
  match rec.leased lease with
  | some row =>
    { rec with pollers := some { row with leaseOwner := none, leaseExpiresAt := none } }
  | none => rec

/-- `toLease`. -/
def toLease (row : PollersRow) : Option Lease :=
  row.leaseOwner.map fun owner =>
    { owner, epoch := row.leaseEpoch, expiresAt := row.leaseExpiresAt.getD 0 }

def getLease (rec : SqliteRecord ι) : Option Lease := rec.pollers.bind toLease

/-- `fence`. -/
def fence (rec : SqliteRecord ι) (lease : Lease) : Bool :=
  match rec.getLease with
  | some current => current.owner == lease.owner && current.epoch == lease.epoch
  | none => false

/-! ## Writes -/

def writeState (rec : SqliteRecord ι) (patch : StatePatch) : SqliteRecord ι :=
  let row := rec.pollers.getD {}
  let base := row.state.getD (emptyPollerState (patch.updatedAt.getD 0))
  { rec with
    pollers := some
      { row with
        state := some
          { lanes := patch.lanes.getD base.lanes
            schedule := patch.schedule.getD base.schedule
            paused := patch.paused.getD base.paused
            schemaVersion := patch.schemaVersion.getD base.schemaVersion
            sequence := patch.sequence.getD base.sequence
            createdAt := base.createdAt
            updatedAt := patch.updatedAt.getD base.updatedAt } } }

def writeParked (rec : SqliteRecord ι) (row : ParkedRow ι) : SqliteRecord ι :=
  { rec with parked := rec.parked.set row.id row }

/-- The part of `commitPoll` past the fence. -/
def commitPoll (rec : SqliteRecord ι) (batch : CommitBatch ι) : SqliteRecord ι :=
  let stored : SqliteRecord ι :=
    { rec with
      items := (rec.items.setAll (·.identity) batch.upserts).eraseAll batch.deletes
      outbox := rec.outbox.setAll (·.eventId) batch.events }
  let parked := batch.parked.foldl writeParked stored
  let logged : SqliteRecord ι :=
    if batch.log then
      { parked with
        log := parked.log.setAll (·.sequence) (batch.events.map fun row =>
          { sequence := row.sequence, event := row.event, createdAt := row.createdAt }) }
    else parked
  logged.writeState batch.statePatch

/-- The part of `recordAttempt` past the fence. -/
def recordAttempt (rec : SqliteRecord ι) (eventId : String) (error : Option SerializedError)
    (nextAttemptAt : Option Int) : SqliteRecord ι :=
  match rec.outbox.get eventId with
  | none => rec
  | some row =>
    { rec with
      outbox := rec.outbox.set eventId
        { row with attempts := row.attempts + 1, lastError := error, nextAttemptAt } }

/-- The part of `parkEvent` past the fence. -/
def parkEvent (rec : SqliteRecord ι) (row : ParkedRow ι) : SqliteRecord ι :=
  let parked := rec.writeParked row
  match row.event with
  | some event => { parked with outbox := parked.outbox.erase event.id }
  | none => parked

/-! ## Administration -/

/-- `deleteKey`: the rows of the key are deleted from every table. -/
def deleteKey (rec : SqliteRecord ι) : SqliteRecord ι := { key := rec.key }

def clearItems (rec : SqliteRecord ι) : SqliteRecord ι := { rec with items := OrderedMap.empty }

/-- One id of `retryParked`. -/
def retryOne (rec : SqliteRecord ι) (id : String) : Nat × SqliteRecord ι :=
  match rec.parked.get id with
  | some { kind := .poison, event := some event, parkedAt, .. } =>
    (1,
      { rec with
        outbox := rec.outbox.set event.id (KeyRecord.retriedRow event parkedAt)
        parked := rec.parked.erase id })
  | _ => (0, rec)

def retryParked (rec : SqliteRecord ι) : List String → Nat × SqliteRecord ι
  | [] => (0, rec)
  | id :: ids =>
    let (n, rec) := rec.retryOne id
    let (m, rec) := retryParked rec ids
    (n + m, rec)

def discardParked (rec : SqliteRecord ι) : List String → Nat × SqliteRecord ι
  | [] => (0, rec)
  | id :: ids =>
    let removed := if (rec.parked.get id).isSome then 1 else 0
    let (n, rec) := discardParked { rec with parked := rec.parked.erase id } ids
    (removed + n, rec)

def pruneLog (rec : SqliteRecord ι) (olderThan : Int) : Nat × SqliteRecord ι :=
  let stale := (rec.log.values.filter fun e => e.createdAt < olderThan).map (·.sequence)
  (stale.length, { rec with log := rec.log.eraseAll stale })

/-! ## What the writes leave alone -/

/-- The columns about the lease. -/
def columns (rec : SqliteRecord ι) : PollersRow := { rec.pollers.getD {} with state := none }

theorem columns_congr {rec rec' : SqliteRecord ι} (h : rec'.pollers = rec.pollers) :
    rec'.columns = rec.columns := by
  rw [columns, columns, h]

theorem getLease_eq (rec : SqliteRecord ι) : rec.getLease = toLease rec.columns := by
  unfold getLease columns
  cases rec.pollers <;> rfl

theorem writeState_columns (rec : SqliteRecord ι) (patch : StatePatch) :
    (rec.writeState patch).columns = rec.columns := rfl

theorem writeParkeds_pollers (rows : List (ParkedRow ι)) (rec : SqliteRecord ι) :
    (rows.foldl writeParked rec).pollers = rec.pollers := by
  induction rows generalizing rec with
  | nil => rfl
  | cons row rows ih => exact ih _

theorem commitPoll_columns (rec : SqliteRecord ι) (batch : CommitBatch ι) :
    (rec.commitPoll batch).columns = rec.columns := by
  have hparked := writeParkeds_pollers batch.parked
    { rec with
      items := (rec.items.setAll (·.identity) batch.upserts).eraseAll batch.deletes
      outbox := rec.outbox.setAll (·.eventId) batch.events }
  unfold commitPoll
  dsimp only
  rw [writeState_columns]
  split
  · exact columns_congr hparked
  · exact columns_congr hparked

theorem recordAttempt_pollers (rec : SqliteRecord ι) (eventId : String)
    (error : Option SerializedError) (nextAttemptAt : Option Int) :
    (rec.recordAttempt eventId error nextAttemptAt).pollers = rec.pollers := by
  unfold recordAttempt
  split <;> rfl

theorem parkEvent_pollers (rec : SqliteRecord ι) (row : ParkedRow ι) :
    (rec.parkEvent row).pollers = rec.pollers := by
  unfold parkEvent
  cases row.event <;> rfl

theorem retryParked_pollers (ids : List String) (rec : SqliteRecord ι) :
    (rec.retryParked ids).2.pollers = rec.pollers := by
  induction ids generalizing rec with
  | nil => rfl
  | cons id ids ih =>
    refine (ih (rec.retryOne id).2).trans ?_
    unfold retryOne
    split <;> rfl

theorem discardParked_pollers (ids : List String) (rec : SqliteRecord ι) :
    (rec.discardParked ids).2.pollers = rec.pollers := by
  induction ids generalizing rec with
  | nil => rfl
  | cons id ids ih => exact ih _

end SqliteRecord

end Watukuy
