import Watukuy.Core.Types
import Mathlib.Data.List.Sort

/-!
# The memory store

`stores/memory/memory-store.ts`, for one key: a record with the state, the lease, the items, the
outbox, the parked rows, the validators and the log. A key without a record behaves as one with
the fresh record. Each method is atomic; `StoreOp` names the calls, `StoreOp.run` performs them.
-/

set_option autoImplicit false

namespace Watukuy

open Library

variable {ι : Type}

structure KeyRecord (ι : Type) where
  key : PKey
  state : Option PollerState
  lease : Option Lease
  epochCounter : Nat
  items : OrderedMap String (ItemRow ι)
  outbox : OrderedMap String (OutboxRow ι)
  parked : OrderedMap String (ParkedRow ι)
  validators : OrderedMap String Validator
  log : List (LoggedEvent ι)

/-- `emptyPollerState`. -/
def emptyPollerState (now : Int) : PollerState where
  lanes := {}
  schedule :=
    { nextDueAt := none
      intervalMs := none
      consecutiveFailures := 0
      circuit := .closed
      circuitOpenedAt := none
      throttledUntil := none
      rateLimit := none
      lastPollAt := none
      lastPoll := none
      lastError := none }
  paused := false
  schemaVersion := none
  sequence := 0
  createdAt := now
  updatedAt := now

namespace KeyRecord

/-- The record of a key that was never written. -/
def fresh (key : PKey) : KeyRecord ι where
  key := key
  state := none
  lease := none
  epochCounter := 0
  items := OrderedMap.empty
  outbox := OrderedMap.empty
  parked := OrderedMap.empty
  validators := OrderedMap.empty
  log := []

/-- The lease test of `fence`: owner and epoch are those of the stored lease. -/
def holds (rec : KeyRecord ι) (lease : Lease) : Bool :=
  match rec.lease with
  | some l => l.owner == lease.owner && l.epoch == lease.epoch
  | none => false

/-- A fenced write. -/
def fenced (rec : KeyRecord ι) (lease : Lease) (write : KeyRecord ι → KeyRecord ι) :
    Except JsError Unit × KeyRecord ι :=
  if rec.holds lease then (.ok (), write rec)
  else (.error (leaseLostError rec.key.poller rec.key.partition lease.epoch), rec)

/-! ## Leases -/

/-- The lease belongs to another owner and has not expired. -/
def heldByOther (rec : KeyRecord ι) (owner : String) (now : Int) : Bool :=
  match rec.lease with
  | some current => decide (now < current.expiresAt) && current.owner != owner
  | none => false

def acquireLease (rec : KeyRecord ι) (owner : String) (ttlMs now : Int) :
    Option Lease × KeyRecord ι :=
  if rec.heldByOther owner now then (none, rec)
  else
    let lease : Lease := { owner, epoch := rec.epochCounter + 1, expiresAt := now + ttlMs }
    (some lease, { rec with epochCounter := rec.epochCounter + 1, lease := some lease })

def renewLease (rec : KeyRecord ι) (lease : Lease) (ttlMs now : Int) : Bool × KeyRecord ι :=
  if rec.holds lease then
    (true, { rec with lease := rec.lease.map fun l => { l with expiresAt := now + ttlMs } })
  else (false, rec)

def releaseLease (rec : KeyRecord ι) (lease : Lease) : KeyRecord ι :=
  if rec.holds lease then { rec with lease := none } else rec

/-! ## State -/

/-- `applyPatch`. -/
def applyPatch (rec : KeyRecord ι) (patch : StatePatch) : KeyRecord ι :=
  let base := rec.state.getD (emptyPollerState (patch.updatedAt.getD 0))
  { rec with
    state := some
      { lanes := patch.lanes.getD base.lanes
        schedule := patch.schedule.getD base.schedule
        paused := patch.paused.getD base.paused
        schemaVersion := patch.schemaVersion.getD base.schemaVersion
        sequence := patch.sequence.getD base.sequence
        createdAt := base.createdAt
        updatedAt := patch.updatedAt.getD base.updatedAt } }

/-! ## Items -/

/-- The stored rows of some identities; a key that is no string finds nothing. -/
def loadVersions (rec : KeyRecord ι) : List IdentityValue → OrderedMap String (ItemRow ι)
  | identities =>
    identities.foldl
      (fun out id =>
        match id with
        | .string s =>
          match rec.items.get s with
          | some row => out.set s row
          | none => out
        | _ => out)
      OrderedMap.empty

/-- Slices of length `n`; `fuel` bounds their number. -/
def slices (n : Nat) : Nat → List String → List (List String)
  | 0, _ => []
  | _ + 1, [] => []
  | fuel + 1, l => l.take n :: slices n fuel (l.drop n)

/-- `streamIdentities`, with the default batch size. -/
def streamIdentities (rec : KeyRecord ι) : List (List String) :=
  slices 1000 rec.items.keys.length rec.items.keys

/-! ## Commits -/

def commit (rec : KeyRecord ι) (batch : CommitBatch ι) : KeyRecord ι :=
  let rec' := rec.applyPatch batch.statePatch
  { rec' with
    items := (rec.items.setAll (·.identity) batch.upserts).eraseAll batch.deletes
    outbox := rec.outbox.setAll (·.eventId) batch.events
    parked := rec.parked.setAll (·.id) batch.parked
    log :=
      if batch.log then
        rec.log ++ batch.events.map fun r =>
          { sequence := r.sequence, event := r.event, createdAt := r.createdAt }
      else rec.log }

/-! ## Outbox and parked rows -/

def pendingRows (rec : KeyRecord ι) : List (OutboxRow ι) :=
  (rec.outbox.values.filter fun r => r.status = .pending).insertionSort fun a b =>
    a.sequence ≤ b.sequence

def loadPending (rec : KeyRecord ι) (limit : Nat) : List (OutboxRow ι) :=
  rec.pendingRows.take limit

def countPending (rec : KeyRecord ι) : Nat :=
  (rec.outbox.values.filter fun r => r.status = .pending).length

def ack (rec : KeyRecord ι) (eventIds : List String) : KeyRecord ι :=
  { rec with outbox := rec.outbox.eraseAll eventIds }

def noteAttempt (rec : KeyRecord ι) (eventId : String) (error : Option SerializedError)
    (nextAttemptAt : Option Int) : KeyRecord ι :=
  match rec.outbox.get eventId with
  | none => rec
  | some row =>
    { rec with
      outbox := rec.outbox.set eventId
        { row with attempts := row.attempts + 1, lastError := error, nextAttemptAt } }

def park (rec : KeyRecord ι) (row : ParkedRow ι) : KeyRecord ι :=
  { rec with
    parked := rec.parked.set row.id row
    outbox :=
      match row.event with
      | some event => rec.outbox.erase event.id
      | none => rec.outbox }

/-- The row `retryParked` writes for a parked event. -/
def retriedRow (event : WatukuyEvent ι) (parkedAt : Int) : OutboxRow ι where
  eventId := event.id
  sequence := event.sequence
  event := event
  status := .pending
  attempts := 0
  nextAttemptAt := none
  lastError := none
  createdAt := parkedAt

/-- One id of `retryParked`. -/
def retryOne (rec : KeyRecord ι) (id : String) : Nat × KeyRecord ι :=
  match rec.parked.get id with
  | some { kind := .poison, event := some event, parkedAt, .. } =>
    (1,
      { rec with
        outbox := rec.outbox.set event.id (retriedRow event parkedAt)
        parked := rec.parked.erase id })
  | _ => (0, rec)

def retryParked (rec : KeyRecord ι) : List String → Nat × KeyRecord ι
  | [] => (0, rec)
  | id :: ids =>
    let (n, rec) := rec.retryOne id
    let (m, rec) := retryParked rec ids
    (n + m, rec)

def discardParked (rec : KeyRecord ι) (ids : List String) : Nat × KeyRecord ι :=
  ((ids.eraseDups.filter fun id => (rec.parked.get id).isSome).length,
    { rec with parked := rec.parked.eraseAll ids })

def heldKeys (rec : KeyRecord ι) : List String :=
  rec.parked.values.filterMap (·.holdKey)

def listParked (rec : KeyRecord ι) (kind : Option ParkedKind) (limit : Option Nat) :
    List (ParkedRow ι) :=
  let rows := (rec.parked.values.filter fun r => kind.all fun k => r.kind = k).insertionSort
    fun a b => a.parkedAt ≤ b.parkedAt
  rows.take (limit.getD rows.length)

/-! ## Log -/

structure LogRange where
  afterSequence : Option Nat := none
  fromTime : Option Int := none
  toTime : Option Int := none

def readLog (rec : KeyRecord ι) (range : LogRange) (limit : Nat) : List (LoggedEvent ι) :=
  ((rec.log.filter fun e =>
      (range.afterSequence.all fun s => decide (s < e.sequence)) &&
      (range.fromTime.all fun t => decide (t ≤ e.createdAt)) &&
      (range.toTime.all fun t => decide (e.createdAt ≤ t))).insertionSort fun a b =>
    a.sequence ≤ b.sequence).take limit

def pruneLog (rec : KeyRecord ι) (olderThan : Int) : Nat × KeyRecord ι :=
  let log := rec.log.filter fun e => olderThan ≤ e.createdAt
  (rec.log.length - log.length, { rec with log })

end KeyRecord

/-! ## The calls -/

/-- The methods of `StateStore` the engine calls on a key. -/
inductive StoreOp (ι : Type) where
  | acquireLease (owner : String) (ttlMs now : Int)
  | renewLease (lease : Lease) (ttlMs now : Int)
  | releaseLease (lease : Lease)
  | loadState
  | saveState (lease : Lease) (patch : StatePatch)
  | saveStateUnfenced (patch : StatePatch)
  | deleteKey
  | clearItems
  | loadVersions (identities : List IdentityValue)
  | streamIdentities
  | commitPoll (lease : Lease) (batch : CommitBatch ι)
  | loadPending (limit : Nat)
  | countPending
  | ackEvents (lease : Lease) (eventIds : List String)
  | recordAttempt (lease : Lease) (eventId : String) (error : SerializedError)
      (nextAttemptAt : Option Int)
  | parkEvent (lease : Lease) (row : ParkedRow ι)
  | retryParked (ids : List String)
  | discardParked (ids : List String)
  | heldKeys
  | getValidator (urlHash : String)
  | setValidator (lease : Lease) (urlHash : String) (validator : Validator)
  | readLog (range : KeyRecord.LogRange) (limit : Nat)

namespace StoreOp

/-- What a call resolves to. -/
@[reducible] def Result : StoreOp ι → Type
  | .acquireLease _ _ _ => Option Lease
  | .renewLease _ _ _ => Bool
  | .loadState => Option PollerState
  | .loadVersions _ => OrderedMap String (ItemRow ι)
  | .streamIdentities => List (List String)
  | .loadPending _ => List (OutboxRow ι)
  | .countPending => Nat
  | .retryParked _ => Nat
  | .discardParked _ => Nat
  | .heldKeys => List String
  | .getValidator _ => Option Validator
  | .readLog _ _ => List (LoggedEvent ι)
  | _ => Unit

/-- Perform a call on the record of the key. -/
def run : (o : StoreOp ι) → KeyRecord ι → Except JsError o.Result × KeyRecord ι
  | .acquireLease owner ttlMs now, rec =>
    let (lease, rec) := rec.acquireLease owner ttlMs now
    (.ok lease, rec)
  | .renewLease lease ttlMs now, rec =>
    let (ok, rec) := rec.renewLease lease ttlMs now
    (.ok ok, rec)
  | .releaseLease lease, rec => (.ok (), rec.releaseLease lease)
  | .loadState, rec => (.ok rec.state, rec)
  | .saveState lease patch, rec => rec.fenced lease fun rec => rec.applyPatch patch
  | .saveStateUnfenced patch, rec => (.ok (), rec.applyPatch patch)
  | .deleteKey, rec => (.ok (), .fresh rec.key)
  | .clearItems, rec => (.ok (), { rec with items := OrderedMap.empty })
  | .loadVersions identities, rec => (.ok (rec.loadVersions identities), rec)
  | .streamIdentities, rec => (.ok rec.streamIdentities, rec)
  | .commitPoll lease batch, rec => rec.fenced lease fun rec => rec.commit batch
  | .loadPending limit, rec => (.ok (rec.loadPending limit), rec)
  | .countPending, rec => (.ok rec.countPending, rec)
  | .ackEvents lease eventIds, rec => rec.fenced lease fun rec => rec.ack eventIds
  | .recordAttempt lease eventId error nextAttemptAt, rec =>
    rec.fenced lease fun rec => rec.noteAttempt eventId (some error) nextAttemptAt
  | .parkEvent lease row, rec => rec.fenced lease fun rec => rec.park row
  | .retryParked ids, rec =>
    let (n, rec) := rec.retryParked ids
    (.ok n, rec)
  | .discardParked ids, rec =>
    let (n, rec) := rec.discardParked ids
    (.ok n, rec)
  | .heldKeys, rec => (.ok rec.heldKeys, rec)
  | .getValidator urlHash, rec => (.ok (rec.validators.get urlHash), rec)
  | .setValidator lease urlHash validator, rec =>
    rec.fenced lease fun rec =>
      { rec with validators := rec.validators.set urlHash validator }
  | .readLog range limit, rec => (.ok (rec.readLog range limit), rec)

end StoreOp

/-! ## What reading the items gives -/

/-- The loop of `loadVersions` from `out` on. -/
theorem get_loadVersions_from (rec : KeyRecord ι) (ids : List IdentityValue) (s : String)
    (out : OrderedMap String (ItemRow ι))
    (hout : ∀ a row, out.get a = some row → rec.items.get a = some row) :
    (ids.foldl (fun out id =>
        match id with
        | .string s =>
          match rec.items.get s with
          | some row => out.set s row
          | none => out
        | _ => out) out).get s =
      if .string s ∈ ids then rec.items.get s else out.get s := by
  induction ids generalizing out with
  | nil =>
    simp
  | cons id rest ih =>
    rw [List.foldl_cons]
    cases id with
    | string a =>
      dsimp only
      cases hrow : rec.items.get a with
      | none =>
        rw [ih out hout]
        by_cases hs : s = a
        · have hnone : out.get s = none := by
            cases hget : out.get s with
            | none => rfl
            | some row =>
              have hstored := hout s row hget
              rw [hs, hrow] at hstored
              cases hstored
          rw [hnone, hs, hrow]
          simp
        · simp [hs]
      | some row =>
        rw [ih (out.set a row)]
        · by_cases hs : s = a
          · simp [hs, hrow]
          · simp [hs, OrderedMap.get_set_ne out hs]
        · intro b row' hget
          rw [OrderedMap.get_set] at hget
          split at hget
          · rename_i hb
            rw [hb, hrow, hget]
          · exact hout b row' hget
    | _ =>
      rw [ih out hout]
      simp

theorem get_loadVersions (rec : KeyRecord ι) (ids : List IdentityValue) (s : String) :
    (rec.loadVersions ids).get s = if .string s ∈ ids then rec.items.get s else none :=
  get_loadVersions_from rec ids s OrderedMap.empty (fun a row h => by simp at h)

/-- The stored identities, batch by batch, are the keys of the items. -/
theorem streamIdentities_flatten (rec : KeyRecord ι) :
    rec.streamIdentities.flatten = rec.items.keys := by
  have hslices : ∀ n fuel (l : List String), 0 < n → l.length ≤ fuel →
      (KeyRecord.slices n fuel l).flatten = l := by
    intro n fuel
    induction fuel with
    | zero =>
      intro l _ hl
      rw [List.length_eq_zero_iff.1 (Nat.le_zero.1 hl)]
      rfl
    | succ fuel ih =>
      intro l hn hl
      cases l with
      | nil => rfl
      | cons x xs =>
        have hdrop : ((x :: xs).drop n).length ≤ fuel := by
          rw [List.length_drop]
          omega
        rw [KeyRecord.slices, List.flatten_cons, ih _ hn hdrop, List.take_append_drop]
        simp
  exact hslices 1000 _ _ (by omega) (Nat.le_refl _)

end Watukuy
