import Watukuy.Stores.MemoryStore
import Watukuy.Stores.SqliteStore
import Watukuy.Library.Select
import Watukuy.Library.Upsert
import Watukuy.Library.Sorting

/-!
# The Postgres store

`stores/postgres/postgres-store.ts`, for one key: the key's row of the `pollers` table, and its rows
of the other tables by their primary key. A commit is one transaction of multi-row statements. A
JSON text is the value it encodes: the values are JSON data, which come back from `JSON.parse` of their
text as they are, and no text has a `U+0000`, which Postgres refuses.

The store leaves what the memory store leaves, but for the log: it logs the events that remain when
each event id is written once, so an id that comes twice leaves one entry where the memory store
leaves two.
-/

set_option autoImplicit false

namespace Watukuy

open Library Library.OrderedMap

variable {ι : Type}

structure PostgresRecord (ι : Type) where
  key : PKey
  pollers : Option PollersRow := none
  items : OrderedMap String (ItemRow ι) := OrderedMap.empty
  outbox : OrderedMap String (OutboxRow ι) := OrderedMap.empty
  parked : OrderedMap String (ParkedRow ι) := OrderedMap.empty
  validators : OrderedMap String Validator := OrderedMap.empty
  log : OrderedMap Nat (LoggedEvent ι) := OrderedMap.empty

/-- `ITEM_ROWS_PER_STATEMENT`. -/
def itemRowsPerStatement : Nat := 200

/-- `OUTBOX_ROWS_PER_STATEMENT`. -/
def outboxRowsPerStatement : Nat := 100

/-- `IDS_PER_STATEMENT`. -/
def idsPerStatement : Nat := 5000

/-- The log row of an event. -/
def OutboxRow.logRow (row : OutboxRow ι) : LoggedEvent ι where
  sequence := row.sequence
  event := row.event
  createdAt := row.createdAt

/-- What `toStoreError` makes of a statement that the server rejects: it names a row twice. -/
def conflictError : JsError where
  kind := .store
  name := "StoreError"
  message := "PostgresStore: ON CONFLICT DO UPDATE command cannot affect row a second time"

namespace PostgresRecord

/-- `toLease`. -/
def toLease (row : PollersRow) : Option Lease :=
  row.leaseOwner.map fun owner =>
    { owner, epoch := row.leaseEpoch, expiresAt := row.leaseExpiresAt.getD 0 }

def getLease (rec : PostgresRecord ι) : Option Lease := rec.pollers.bind toLease

/-- The state column. -/
def loadState (rec : PostgresRecord ι) : Option PollerState := rec.pollers.bind (·.state)

/-- The test of `fenced`. -/
def leased (rec : PostgresRecord ι) (lease : Lease) : Bool :=
  match rec.getLease with
  | some current => current.owner == lease.owner && current.epoch == lease.epoch
  | none => false

/-- `writeState`, with the state that `fenced` has read. -/
def writeState (rec : PostgresRecord ι) (current : Option PollerState) (patch : StatePatch) :
    PostgresRecord ι :=
  let base := current.getD (emptyPollerState (patch.updatedAt.getD 0))
  { rec with
    pollers := some
      { rec.pollers.getD {} with
        state := some
          { lanes := patch.lanes.getD base.lanes
            schedule := patch.schedule.getD base.schedule
            paused := patch.paused.getD base.paused
            schemaVersion := patch.schemaVersion.getD base.schemaVersion
            sequence := patch.sequence.getD base.sequence
            createdAt := base.createdAt
            updatedAt := patch.updatedAt.getD base.updatedAt } } }

/-- The statements of `commitPoll` before `writeState`; `none` when the server rejects one. -/
def writeRows (rec : PostgresRecord ι) (batch : CommitBatch ι) : Option (PostgresRecord ι) := do
  let items ← upsertAll (·.identity) itemRowsPerStatement (dedupe (·.identity) batch.upserts)
    rec.items
  let items := (chunks batch.deletes idsPerStatement).foldl eraseAll items
  let events := dedupe (·.eventId) batch.events
  let outbox ← upsertAll (·.eventId) outboxRowsPerStatement events rec.outbox
  let parked ← upsertAll (·.id) outboxRowsPerStatement (dedupe (·.id) batch.parked) rec.parked
  let log ←
    if batch.log then
      upsertAll (·.sequence) itemRowsPerStatement
        ((dedupe (·.sequence) events).map OutboxRow.logRow) rec.log
    else some rec.log
  return { rec with items, outbox, parked, log }

def commitPoll (rec : PostgresRecord ι) (lease : Lease) (batch : CommitBatch ι) :
    Except JsError Unit × PostgresRecord ι :=
  if rec.leased lease then
    match rec.writeRows batch with
    | some written => (.ok (), written.writeState rec.loadState batch.statePatch)
    | none => (.error conflictError, rec)
  else (.error (leaseLostError rec.key.poller rec.key.partition lease.epoch), rec)

/-- `readLog`. -/
def readLog (rec : PostgresRecord ι) (range : KeyRecord.LogRange) (limit : Nat) :
    List (LoggedEvent ι) :=
  ((rec.log.values.filter fun e =>
      (range.afterSequence.all fun s => decide (s < e.sequence)) &&
      (range.fromTime.all fun t => decide (t ≤ e.createdAt)) &&
      (range.toTime.all fun t => decide (e.createdAt ≤ t))).insertionSort fun a b =>
    a.sequence ≤ b.sequence).take limit

/-! ## Leases -/

/-- The `WHERE` of the upsert. -/
def mayAcquire (row : PollersRow) (owner : String) (now : Int) : Bool :=
  row.leaseOwner.isNone || row.expired now || row.leaseOwner == some owner

def acquireLease (rec : PostgresRecord ι) (owner : String) (ttlMs now : Int) :
    Option Lease × PostgresRecord ι :=
  match rec.pollers with
  | none =>
    (some { owner, epoch := 1, expiresAt := now + ttlMs },
      { rec with
        pollers := some
          { leaseOwner := some owner
            leaseEpoch := 1
            leaseExpiresAt := some (now + ttlMs)
            epochCounter := 1 } })
  | some row =>
    if mayAcquire row owner now then
      (some { owner, epoch := row.epochCounter + 1, expiresAt := now + ttlMs },
        { rec with
          pollers := some
            { row with
              leaseOwner := some owner
              epochCounter := row.epochCounter + 1
              leaseEpoch := row.epochCounter + 1
              leaseExpiresAt := some (now + ttlMs) } })
    else (none, rec)

/-- The row that the updates of a lease find. -/
def heldRow (rec : PostgresRecord ι) (lease : Lease) : Option PollersRow :=
  rec.pollers.filter fun row =>
    row.leaseOwner == some lease.owner && row.leaseEpoch == lease.epoch

def renewLease (rec : PostgresRecord ι) (lease : Lease) (ttlMs now : Int) :
    Bool × PostgresRecord ι :=
  match rec.heldRow lease with
  | some row =>
    (true, { rec with pollers := some { row with leaseExpiresAt := some (now + ttlMs) } })
  | none => (false, rec)

def releaseLease (rec : PostgresRecord ι) (lease : Lease) : PostgresRecord ι :=
  match rec.heldRow lease with
  | some row =>
    { rec with pollers := some { row with leaseOwner := none, leaseExpiresAt := none } }
  | none => rec

/-! ## Other writes -/

/-- The part of `ackEvents` past the fence. -/
def ackEvents (rec : PostgresRecord ι) (eventIds : List String) : PostgresRecord ι :=
  { rec with outbox := (chunks eventIds idsPerStatement).foldl eraseAll rec.outbox }

/-- The part of `recordAttempt` past the fence. -/
def recordAttempt (rec : PostgresRecord ι) (eventId : String) (error : Option SerializedError)
    (nextAttemptAt : Option Int) : PostgresRecord ι :=
  match rec.outbox.get eventId with
  | none => rec
  | some row =>
    { rec with
      outbox := rec.outbox.set eventId
        { row with attempts := row.attempts + 1, lastError := error, nextAttemptAt } }

/-- The part of `parkEvent` past the fence. -/
def parkEvent (rec : PostgresRecord ι) (row : ParkedRow ι) : PostgresRecord ι :=
  let parked := { rec with parked := rec.parked.set row.id row }
  match row.event with
  | some event => { parked with outbox := parked.outbox.eraseAll [event.id] }
  | none => parked

/-- The part of `setValidator` past the fence. -/
def setValidator (rec : PostgresRecord ι) (urlHash : String) (validator : Validator) :
    PostgresRecord ι :=
  { rec with validators := rec.validators.set urlHash validator }

/-- `deleteKey`: the rows of the key are deleted from every table. -/
def deleteKey (rec : PostgresRecord ι) : PostgresRecord ι := { key := rec.key }

def clearItems (rec : PostgresRecord ι) : PostgresRecord ι :=
  { rec with items := OrderedMap.empty }

/-- One id of `retryParked`. -/
def retryOne (rec : PostgresRecord ι) (id : String) : Nat × PostgresRecord ι :=
  match rec.parked.get id with
  | some { kind := .poison, event := some event, parkedAt, .. } =>
    (1,
      { rec with
        outbox := rec.outbox.set event.id (KeyRecord.retriedRow event parkedAt)
        parked := rec.parked.erase id })
  | _ => (0, rec)

def retryParked (rec : PostgresRecord ι) : List String → Nat × PostgresRecord ι
  | [] => (0, rec)
  | id :: ids =>
    let (n, rec) := rec.retryOne id
    let (m, rec) := retryParked rec ids
    (n + m, rec)

def discardParked (rec : PostgresRecord ι) (ids : List String) : Nat × PostgresRecord ι :=
  if ids.isEmpty then (0, rec)
  else
    let (n, parked) := rec.parked.deleteEach (chunks ids idsPerStatement)
    (n, { rec with parked })

def pruneLog (rec : PostgresRecord ι) (olderThan : Int) : Nat × PostgresRecord ι :=
  let stale := (rec.log.values.filter fun e => e.createdAt < olderThan).map (·.sequence)
  (stale.length, { rec with log := rec.log.eraseAll stale })

/-! ## The statements -/

/-- The rows that the log statements write. -/
def loggedRows (events : List (OutboxRow ι)) : List (LoggedEvent ι) :=
  (dedupe (·.sequence) (dedupe (·.eventId) events)).map OutboxRow.logRow

theorem nodup_loggedRows (events : List (OutboxRow ι)) :
    ((loggedRows events).map (·.sequence)).Nodup := by
  rw [loggedRows, List.map_map]
  exact nodup_dedupe (fun row : OutboxRow ι => row.sequence) (dedupe (·.eventId) events)

/-- No statement is rejected, and each table gets its rows. -/
theorem writeRows_eq (rec : PostgresRecord ι) (batch : CommitBatch ι) :
    rec.writeRows batch = some
      { rec with
        items := (rec.items.setAll (·.identity) (dedupe (·.identity) batch.upserts)).eraseAll
          batch.deletes
        outbox := rec.outbox.setAll (·.eventId) (dedupe (·.eventId) batch.events)
        parked := rec.parked.setAll (·.id) (dedupe (·.id) batch.parked)
        log :=
          if batch.log then rec.log.setAll (·.sequence) (loggedRows batch.events)
          else rec.log } := by
  have hitems := upsertAll_eq (by decide : 0 < itemRowsPerStatement)
    (nodup_dedupe (fun row : ItemRow ι => row.identity) batch.upserts) rec.items
  have houtbox := upsertAll_eq (by decide : 0 < outboxRowsPerStatement)
    (nodup_dedupe (fun row : OutboxRow ι => row.eventId) batch.events) rec.outbox
  have hparked := upsertAll_eq (by decide : 0 < outboxRowsPerStatement)
    (nodup_dedupe (fun row : ParkedRow ι => row.id) batch.parked) rec.parked
  have hlog := upsertAll_eq (by decide : 0 < itemRowsPerStatement)
    (nodup_loggedRows batch.events) rec.log
  rw [loggedRows] at hlog
  simp only [writeRows, hitems, houtbox, hparked, hlog, eraseAll_chunks
    (by decide : 0 < idsPerStatement), Option.bind_eq_bind, Option.bind_some, loggedRows]
  split <;> rfl

end PostgresRecord

/-! ## Agreement with the memory store -/

/-- The same rows in every table but the log, and the same state and lease. -/
structure SameTables (mem : KeyRecord ι) (rec : PostgresRecord ι) : Prop where
  key : rec.key = mem.key
  lease : rec.getLease = mem.lease
  state : rec.loadState = mem.state
  items : ∀ identity, rec.items.get identity = mem.items.get identity
  outbox : ∀ eventId, rec.outbox.get eventId = mem.outbox.get eventId
  parked : ∀ id, rec.parked.get id = mem.parked.get id

/-- The same log: one entry for each sequence, and the same entries. -/
structure SameLog (mem : KeyRecord ι) (rec : PostgresRecord ι) : Prop where
  nodup : (mem.log.map (·.sequence)).Nodup
  get_iff : ∀ sequence entry,
    rec.log.get sequence = some entry ↔ entry ∈ mem.log ∧ entry.sequence = sequence

/-- The events of a commit have pairwise distinct ids, and sequences that are new to the log. -/
structure FreshEvents (log : List (LoggedEvent ι)) (events : List (OutboxRow ι)) : Prop where
  ids : (events.map (·.eventId)).Nodup
  sequences : (events.map (·.sequence)).Nodup
  new : ∀ row ∈ events, ∀ entry ∈ log, entry.sequence ≠ row.sequence

section
variable {mem : KeyRecord ι} {rec : PostgresRecord ι} {batch : CommitBatch ι} {lease : Lease}
  {events : List (OutboxRow ι)}

theorem PostgresRecord.mem_loggedRows {entry : LoggedEvent ι}
    (h : entry ∈ PostgresRecord.loggedRows events) : ∃ row ∈ events, row.logRow = entry := by
  obtain ⟨row, hrow, rfl⟩ := List.mem_map.1 h
  exact ⟨row, mem_of_mem_dedupe (mem_of_mem_dedupe hrow), rfl⟩

/-- Distinct ids and sequences lose no event. -/
theorem FreshEvents.mem_loggedRows {log : List (LoggedEvent ι)} (h : FreshEvents log events)
    {row : OutboxRow ι} (hrow : row ∈ events) :
    row.logRow ∈ PostgresRecord.loggedRows events := by
  refine List.mem_map_of_mem (mem_dedupe_of_nodup ?_ (mem_dedupe_of_nodup h.ids hrow))
  -- what is left of the events has distinct sequences, too
  have hkept : ∀ a ∈ dedupe (·.eventId) events, ∀ b ∈ dedupe (·.eventId) events,
      a.sequence = b.sequence → a = b := fun a ha b hb hab =>
    List.inj_on_of_nodup_map h.sequences (mem_of_mem_dedupe ha) (mem_of_mem_dedupe hb) hab
  exact (List.Nodup.of_map _ (nodup_dedupe (fun row : OutboxRow ι => row.eventId) events)).map_on
    hkept

/-- Both stores test the lease alike. -/
theorem SameTables.leased (h : SameTables mem rec) (lease : Lease) :
    rec.leased lease = mem.holds lease := by
  rw [PostgresRecord.leased, h.lease]
  rfl

/-- The statements and the row by row writes leave the same tables. -/
theorem SameTables.commit (h : SameTables mem rec) {written : PostgresRecord ι}
    (hwritten : rec.writeRows batch = some written) :
    SameTables (mem.commit batch) (written.writeState rec.loadState batch.statePatch) := by
  rw [PostgresRecord.writeRows_eq, Option.some.injEq] at hwritten
  subst hwritten
  constructor
  · exact h.key
  · have hkeep : (mem.commit batch).lease = mem.lease := rfl
    rw [hkeep, ← h.lease]
    simp only [PostgresRecord.getLease, PostgresRecord.writeState]
    cases rec.pollers <;> rfl
  · simp only [PostgresRecord.writeState, PostgresRecord.loadState, Option.bind_some,
      KeyRecord.commit, KeyRecord.applyPatch, ← h.state]
  · intro identity
    simp only [PostgresRecord.writeState, KeyRecord.commit, get_eraseAll, get_setAll_dedupe]
    rw [get_setAll, get_setAll _ _ mem.items, h.items]
  · intro eventId
    simp only [PostgresRecord.writeState, KeyRecord.commit, get_setAll_dedupe]
    rw [get_setAll, get_setAll _ _ mem.outbox, h.outbox]
  · intro id
    simp only [PostgresRecord.writeState, KeyRecord.commit, get_setAll_dedupe]
    rw [get_setAll, get_setAll _ _ mem.parked, h.parked]

theorem commit_log (mem : KeyRecord ι) (batch : CommitBatch ι) :
    (mem.commit batch).log =
      if batch.log then mem.log ++ batch.events.map OutboxRow.logRow else mem.log := rfl

/-- A log that is the same is read the same. -/
theorem SameLog.readLog (h : SameLog mem rec) (range : KeyRecord.LogRange) (limit : Nat) :
    rec.readLog range limit = mem.readLog range limit := by
  have hmem : ∀ entry, entry ∈ rec.log.values ↔ entry ∈ mem.log := by
    intro entry
    rw [mem_values_iff]
    constructor
    · rintro ⟨k, hk⟩
      exact ((h.get_iff k entry).1 hk).1
    · intro hentry
      exact ⟨entry.sequence, (h.get_iff _ _).2 ⟨hentry, rfl⟩⟩
  have hkeys : rec.log.values.map (·.sequence) = rec.log.keys := by
    rw [values, keys, List.map_map]
    refine List.map_congr_left ?_
    rintro ⟨k, entry⟩ hentry
    exact ((h.get_iff k entry).1 (find_of_mem rec.log.nodup hentry)).2
  -- both are the sorted list of one set of entries
  have hsorted : ∀ {l : List (LoggedEvent ι)}, (l.map (·.sequence)).Nodup →
      (l.insertionSort fun a b => a.sequence ≤ b.sequence).Pairwise
        fun a b => a.sequence < b.sequence := by
    intro l hl
    let le : LoggedEvent ι → LoggedEvent ι → Prop := fun a b => a.sequence ≤ b.sequence
    have hperm := List.perm_insertionSort le l
    have : Std.Total le := ⟨fun a b => Nat.le_total a.sequence b.sequence⟩
    have : IsTrans (LoggedEvent ι) le := ⟨fun _ _ _ => Nat.le_trans⟩
    exact increasing_of_sorted (fun e : LoggedEvent ι => e.sequence)
      (List.pairwise_insertionSort le l) ((hperm.map _).nodup_iff.2 hl)
  rw [PostgresRecord.readLog, KeyRecord.readLog]
  congr 1
  refine eq_of_increasing (fun e : LoggedEvent ι => e.sequence) (hsorted ?_) (hsorted ?_) ?_
  · exact List.Nodup.sublist (List.filter_sublist.map _) (hkeys ▸ keys_nodup rec.log)
  · exact List.Nodup.sublist (List.filter_sublist.map _) h.nodup
  · intro entry
    rw [List.mem_insertionSort, List.mem_insertionSort, List.mem_filter, List.mem_filter, hmem]

/-- The log of fresh events is the same. -/
theorem SameLog.append (h : SameLog mem rec) (hfresh : FreshEvents mem.log events) :
    ((mem.log ++ events.map OutboxRow.logRow).map (·.sequence)).Nodup ∧
      ∀ sequence entry, (rec.log.setAll (·.sequence)
          (PostgresRecord.loggedRows events)).get sequence = some entry ↔
        entry ∈ mem.log ++ events.map OutboxRow.logRow ∧ entry.sequence = sequence := by
  have hrows := PostgresRecord.nodup_loggedRows events
  have hsequences : ((events.map OutboxRow.logRow).map (·.sequence)).Nodup := by
    rw [List.map_map]
    exact hfresh.sequences
  constructor
  · rw [List.map_append, List.nodup_append]
    refine ⟨h.nodup, hsequences, ?_⟩
    rintro s hs t ht rfl
    obtain ⟨entry, hentry, rfl⟩ := List.mem_map.1 hs
    obtain ⟨logged, hlogged, heq⟩ := List.mem_map.1 ht
    obtain ⟨row, hrow, rfl⟩ := List.mem_map.1 hlogged
    exact hfresh.new row hrow entry hentry heq.symm
  · intro sequence entry
    rw [List.mem_append]
    constructor
    · intro hget
      rcases get_setAll_cases (fun e : LoggedEvent ι => e.sequence) _ _ hget with
        ⟨hentry, hkey⟩ | hold
      · obtain ⟨row, hrow, rfl⟩ := PostgresRecord.mem_loggedRows hentry
        exact ⟨Or.inr (List.mem_map_of_mem hrow), hkey⟩
      · obtain ⟨hentry, hkey⟩ := (h.get_iff sequence entry).1 hold
        exact ⟨Or.inl hentry, hkey⟩
    · rintro ⟨hentry | hentry, rfl⟩
      · have hold := (h.get_iff entry.sequence entry).2 ⟨hentry, rfl⟩
        rw [get_setAll_of_not_mem (fun e : LoggedEvent ι => e.sequence) _ _ ?_, hold]
        intro hmem
        obtain ⟨logged, hlogged, heq⟩ := List.mem_map.1 hmem
        obtain ⟨row, hrow, rfl⟩ := PostgresRecord.mem_loggedRows hlogged
        exact hfresh.new row hrow entry hentry heq.symm
      · obtain ⟨row, hrow, rfl⟩ := List.mem_map.1 hentry
        exact get_setAll_of_mem (fun e : LoggedEvent ι => e.sequence) hrows _
          (hfresh.mem_loggedRows hrow)

/-- And only of fresh events. -/
theorem FreshEvents.of_same (h : SameLog mem rec)
    (hnodup : ((mem.log ++ events.map OutboxRow.logRow).map (·.sequence)).Nodup)
    (hsame : ∀ sequence entry, (rec.log.setAll (·.sequence)
        (PostgresRecord.loggedRows events)).get sequence = some entry ↔
      entry ∈ mem.log ++ events.map OutboxRow.logRow ∧ entry.sequence = sequence) :
    FreshEvents mem.log events := by
  rw [List.map_append, List.nodup_append, List.map_map] at hnodup
  obtain ⟨-, hsequences, hcross⟩ := hnodup
  have hnew : ∀ row ∈ events, ∀ entry ∈ mem.log, entry.sequence ≠ row.sequence := by
    intro row hrow entry hentry
    exact hcross _ (List.mem_map_of_mem hentry) _ (List.mem_map_of_mem hrow)
  refine ⟨?_, hsequences, hnew⟩
  -- every event is among those that remain of their ids
  have hkept : ∀ row ∈ events, row ∈ dedupe (·.eventId) events := by
    intro row hrow
    have hget := (hsame row.sequence row.logRow).2
      ⟨List.mem_append_right _ (List.mem_map_of_mem hrow), rfl⟩
    rcases get_setAll_cases (fun e : LoggedEvent ι => e.sequence) _ _ hget with
      ⟨hentry, -⟩ | hold
    · obtain ⟨other, hother, heq⟩ := List.mem_map.1 hentry
      have hremains := mem_of_mem_dedupe hother
      have hsequence : other.sequence = row.sequence := congrArg LoggedEvent.sequence heq
      have hsame := List.inj_on_of_nodup_map hsequences (mem_of_mem_dedupe hremains) hrow hsequence
      exact hsame ▸ hremains
    · have hentry := ((h.get_iff _ _).1 hold).1
      exact absurd rfl (hnew row hrow _ hentry)
  have hinj : ∀ a ∈ events, ∀ b ∈ events, a.eventId = b.eventId → a = b :=
    fun a ha b hb hab => List.inj_on_of_nodup_map
      (nodup_dedupe (fun row : OutboxRow ι => row.eventId) events) (hkept a ha) (hkept b hb) hab
  exact (List.Nodup.of_map _ hsequences).map_on hinj

end

/-- From stores that agree, a commit is answered alike and leaves the same tables; and the same log
exactly when it is refused, logs nothing, or its events are fresh. -/
theorem commitPoll_agrees_iff {mem : KeyRecord ι} {rec : PostgresRecord ι}
    (htables : SameTables mem rec) (hlog : SameLog mem rec) (lease : Lease)
    (batch : CommitBatch ι) :
    let left := mem.fenced lease fun mem => mem.commit batch
    let right := rec.commitPoll lease batch
    right.1 = left.1 ∧ SameTables left.2 right.2 ∧
      (SameLog left.2 right.2 ↔
        (mem.holds lease = true → batch.log = true → FreshEvents mem.log batch.events)) := by
  have hleased := htables.leased lease
  intro left right
  cases hholds : mem.holds lease with
  | false =>
    have hleft : left = (.error (leaseLostError mem.key.poller mem.key.partition lease.epoch),
        mem) := by
      simp only [left, KeyRecord.fenced, hholds, Bool.false_eq_true, if_false]
    have hright : right = (.error (leaseLostError mem.key.poller mem.key.partition lease.epoch),
        rec) := by
      simp only [right, PostgresRecord.commitPoll, hleased, hholds, Bool.false_eq_true, if_false,
        htables.key]
    rw [hleft, hright]
    exact ⟨rfl, htables, iff_of_true hlog nofun⟩
  | true =>
    have hleft : left = (.ok (), mem.commit batch) := by
      simp only [left, KeyRecord.fenced, hholds, if_true]
    obtain ⟨written, hwritten⟩ : ∃ written, rec.writeRows batch = some written :=
      ⟨_, rec.writeRows_eq batch⟩
    have hright : right = (.ok (), written.writeState rec.loadState batch.statePatch) := by
      simp only [right, PostgresRecord.commitPoll, hleased, hholds, if_true, hwritten]
    rw [hleft, hright]
    refine ⟨rfl, htables.commit hwritten, ?_⟩
    rw [PostgresRecord.writeRows_eq, Option.some.injEq] at hwritten
    subst hwritten
    cases hlogs : batch.log with
    | false =>
      refine iff_of_true ⟨?_, ?_⟩ nofun
      · rw [commit_log, hlogs]
        exact hlog.nodup
      · rw [commit_log, hlogs]
        exact hlog.get_iff
    | true =>
      have happended : (mem.commit batch).log = mem.log ++ batch.events.map OutboxRow.logRow := by
        rw [commit_log, hlogs, if_pos rfl]
      constructor
      · rintro ⟨hnodup, hsame⟩ - -
        rw [happended] at hnodup hsame
        exact FreshEvents.of_same hlog hnodup hsame
      · intro hfresh
        obtain ⟨hnodup, hsame⟩ := hlog.append (hfresh rfl rfl)
        refine ⟨?_, ?_⟩
        · rw [happended]
          exact hnodup
        · rw [happended]
          exact hsame

/-! ## An id that comes twice -/

/-- A row as a forced backfill emits it. -/
def reemittedRow (id : String) (sequence : Nat) : OutboxRow Unit where
  eventId := id
  sequence := sequence
  event :=
    { id, type := .updated, source := "watukuy/orders", subject := id, time := 0
      poller := "orders", partition := "", lane := .backfill, sequence, cursor := .null
      data := none, previous := none, attempt := 0 }
  status := .pending
  attempts := 0
  nextAttemptAt := none
  lastError := none
  createdAt := 0

/-- A commit of two events with the given ids. -/
def twoEvents (first second : String) : CommitBatch Unit where
  statePatch := {}
  upserts := []
  deletes := []
  events := [reemittedRow first 1, reemittedRow second 2]
  log := true

def ordersLease : Lease := { owner := "a", epoch := 1, expiresAt := 60000 }

/-- A leased key that holds nothing yet, in memory and in Postgres. -/
def leasedRecord : KeyRecord Unit :=
  { KeyRecord.fresh { poller := "orders", partition := "" } with
    lease := some ordersLease, epochCounter := 1 }

def leasedRow : PostgresRecord Unit where
  key := { poller := "orders", partition := "" }
  pollers := some
    { leaseOwner := some "a", leaseEpoch := 1, leaseExpiresAt := some 60000, epochCounter := 1 }

theorem leased_sameTables : SameTables leasedRecord leasedRow :=
  ⟨rfl, rfl, rfl, fun _ => rfl, fun _ => rfl, fun _ => rfl⟩

theorem leased_sameLog : SameLog leasedRecord leasedRow where
  nodup := List.nodup_nil
  get_iff _ _ := iff_of_false nofun fun h => nomatch h.1

/-- Two events with distinct ids are committed alike. -/
theorem commitPoll_agrees_sample :
    let left := leasedRecord.fenced ordersLease fun mem => mem.commit (twoEvents "e" "f")
    let right := leasedRow.commitPoll ordersLease (twoEvents "e" "f")
    right.1 = left.1 ∧ SameTables left.2 right.2 ∧
      (SameLog left.2 right.2 ↔
        (leasedRecord.holds ordersLease = true → (twoEvents "e" "f").log = true →
          FreshEvents leasedRecord.log (twoEvents "e" "f").events)) :=
  commitPoll_agrees_iff leased_sameTables leased_sameLog ordersLease (twoEvents "e" "f")

/-- Two with one id leave two log entries in memory and one in Postgres. -/
theorem repeated_id_logged_once :
    ((leasedRecord.fenced ordersLease fun mem =>
        mem.commit (twoEvents "e" "e")).2.log.map (·.sequence)) = [1, 2] ∧
      (leasedRow.commitPoll ordersLease (twoEvents "e" "e")).2.log.keys = [2] := by
  decide +kernel

end Watukuy
