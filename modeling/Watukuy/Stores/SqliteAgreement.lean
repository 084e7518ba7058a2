import Watukuy.Stores.Deletion
import Watukuy.Stores.Selects

/-!
# The SQLite store and the memory store

`SameRows` says that the rows of a key are the record of the memory store: the same values under the
same keys, and one entry of the log for each sequence. Every call keeps the relation, and its reply
is that of the memory store as long as the calls since the last deletion give no two rows one
sequence: the log of the memory store would hold both rows, the table of SQLite the last.
-/

set_option autoImplicit false

namespace Watukuy

open Library

variable {ι : Type}

/-! ## Calls -/

namespace SqliteStore

/-- `IN_CHUNK`. -/
def inChunk : Nat := 500

def next : TableOp ι → SqliteRecord ι → SqliteRecord ι
  | .call (.lease o), r => (run o r).2
  | .call (.saveStateUnfenced patch), r => r.writeState patch
  | .call (.retryParked ids), r => (r.retryParked ids).2
  | .call (.discardParked ids), r => (r.discardParked ids).2
  | .call (.pruneLog olderThan), r => (r.pruneLog olderThan).2
  | .deleteKey, r => r.deleteKey
  | .clearItems, r => r.clearItems
  | _, r => r

/-- The replies to a call. Texts are compared as they are. -/
def Replies (r : SqliteRecord ι) : (o : TableOp ι) → o.Result → Prop
  | .call (.lease o), res => res = (run o r).1
  | .call .getLease, res => res = r.getLease
  | .call .loadState, res => res = r.pollers.bind (·.state)
  | .call (.saveStateUnfenced _), _ => True
  | .call (.loadPending limit), res => LoadsPending limit r.outbox res
  | .call .countPending, res => res = selectPending r.outbox
  | .call (.listParked kind limit), res => ListsParked id kind limit r.parked res
  | .call .countParked, res => res = r.parked.keys.length
  | .call (.retryParked ids), res => res = (r.retryParked ids).1
  | .call (.discardParked ids), res => res = (r.discardParked ids).1
  | .call .heldKeys, res => res = selectHeldKeys r.parked
  | .call (.getValidator urlHash), res => res = r.validators.get urlHash
  | .call (.readLog range limit), res => ReadsLog range limit r.log res
  | .call (.pruneLog olderThan), res => res = (r.pruneLog olderThan).1
  | .deleteKey, _ => True
  | .clearItems, _ => True
  | .loadVersions identities, res => LoadsVersions inChunk identities r.items res
  | .streamIdentities, res => res = selectIdentities id r.items
  | .countItems, res => res = r.items.keys.length

/-- The rows of a key after some calls. -/
def after (key : PKey) (ops : List (TableOp ι)) : SqliteRecord ι :=
  ops.foldl (fun r o => next o r) { key }

/-- The parked rows of a commit, one after the other. -/
theorem writeParkeds_eq (rows : List (ParkedRow ι)) (r : SqliteRecord ι) :
    rows.foldl SqliteRecord.writeParked r = { r with parked := r.parked.setAll (·.id) rows } := by
  induction rows generalizing r with
  | nil => rfl
  | cons row rows ih => exact ih (r.writeParked row)

/-- No call changes the key of the rows. -/
theorem apply_key (w : FencedWrite ι) (r : SqliteRecord ι) : (apply w r).key = r.key := by
  cases w with
  | commitPoll batch =>
    simp only [apply, SqliteRecord.commitPoll, SqliteRecord.writeState, writeParkeds_eq]
    split <;> rfl
  | recordAttempt id error next =>
    simp only [apply, SqliteRecord.recordAttempt]
    cases r.outbox.get id <;> rfl
  | parkEvent row =>
    simp only [apply, SqliteRecord.parkEvent]
    cases row.event <;> rfl
  | _ => rfl

theorem next_key (o : TableOp ι) (r : SqliteRecord ι) : (next o r).key = r.key := by
  cases o with
  | call o =>
    cases o with
    | lease o =>
      cases o with
      | acquireLease owner ttlMs now =>
        simp only [next, run, SqliteRecord.acquireLease]
        cases r.pollers with
        | none => rfl
        | some row =>
          dsimp only
          split <;> rfl
      | renewLease l ttlMs now =>
        simp only [next, run, SqliteRecord.renewLease]
        cases r.leased l <;> rfl
      | releaseLease l =>
        simp only [next, run, SqliteRecord.releaseLease]
        cases r.leased l <;> rfl
      | write l w =>
        simp only [next, run, write]
        split
        · exact apply_key w r
        · rfl
    | retryParked ids =>
      have hone : ∀ (r : SqliteRecord ι) (id : String), (r.retryOne id).2.key = r.key := by
        intro r id
        simp only [SqliteRecord.retryOne]
        split <;> rfl
      simp only [next]
      induction ids generalizing r with
      | nil => rfl
      | cons id ids ih => exact (ih _).trans (hone r id)
    | discardParked ids =>
      simp only [next]
      induction ids generalizing r with
      | nil => rfl
      | cons id ids ih => exact ih _
    | _ => rfl
  | _ => rfl

theorem after_snoc (key : PKey) (ops : List (TableOp ι)) (o : TableOp ι) :
    after key (ops ++ [o]) = next o (after key ops) := by
  simp [after, List.foldl_append]

theorem after_key (key : PKey) (ops : List (TableOp ι)) :
    (after key ops : SqliteRecord ι).key = key := by
  induction ops using List.reverseRecOn with
  | nil => rfl
  | append_singleton ops o ih => rw [after_snoc, next_key, ih]

end SqliteStore

/-! ## The relation -/

/-- The rows of a key are those of a record of the memory store. -/
structure SameRows (rec : KeyRecord ι) (r : SqliteRecord ι) : Prop where
  key : r.key = rec.key
  dated : SqliteStore.Dated r
  lease : r.getLease = rec.lease
  counter : r.columns.epochCounter = rec.epochCounter
  state : r.pollers.bind (·.state) = rec.state
  items : ∀ id, r.items.get id = rec.items.get id
  identified : Identified r.items
  outbox : ∀ id, r.outbox.get id = rec.outbox.get id
  parked : ∀ id, r.parked.get id = rec.parked.get id
  validators : ∀ urlHash, r.validators.get urlHash = rec.validators.get urlHash
  log : SameEntries rec.log r.log

theorem sameRows_fresh (key : PKey) :
    SameRows (.fresh key : KeyRecord ι) ({ key } : SqliteRecord ι) where
  key := rfl
  dated owner ho := by cases ho
  lease := rfl
  counter := rfl
  state := rfl
  items _ := rfl
  identified id row hrow := by cases hrow
  outbox _ := rfl
  parked _ := rfl
  validators _ := rfl
  log :=
    { nodup := List.nodup_nil
      get_iff := fun sequence entry => by
        constructor
        · intro h
          cases h
        · intro h
          cases h.1 }

/-! ## Maps with the same values -/

section Maps

variable {κ ν : Type} [DecidableEq κ] {m m' : OrderedMap κ ν}

theorem get_setAll_congr (h : ∀ k, m.get k = m'.get k) (key : ν → κ) (vs : List ν) (k : κ) :
    (m.setAll key vs).get k = (m'.setAll key vs).get k := by
  rw [OrderedMap.get_setAll, OrderedMap.get_setAll key vs m', h]

theorem get_eraseAll_congr (h : ∀ k, m.get k = m'.get k) (ks : List κ) (k : κ) :
    (m.eraseAll ks).get k = (m'.eraseAll ks).get k := by
  rw [OrderedMap.get_eraseAll, OrderedMap.get_eraseAll, h]

theorem get_erase_congr (h : ∀ k, m.get k = m'.get k) (a k : κ) :
    (m.erase a).get k = (m'.erase a).get k := by
  rw [OrderedMap.get_erase, OrderedMap.get_erase, h]

theorem get_set_congr (h : ∀ k, m.get k = m'.get k) (a : κ) (v : ν) (k : κ) :
    (m.set a v).get k = (m'.set a v).get k := by
  rw [OrderedMap.get_set, OrderedMap.get_set, h]

/-- The keys of a list that a map has are as many as the keys of the map that the list has. -/
theorem length_found (h : ∀ k, m.get k = m'.get k) (ks : List κ) :
    (m.deleteAny ks).1 = (ks.eraseDups.filter fun k => (m'.get k).isSome).length := by
  apply List.Perm.length_eq
  refine (List.perm_ext_iff_of_nodup (m.keys_nodup.filter _) ((nodup_eraseDups ks).filter _)).2 ?_
  intro k
  rw [List.mem_filter, List.mem_filter, List.mem_eraseDups, OrderedMap.mem_keys_iff, h]
  simp [and_comm]

end Maps

theorem Identified.commit {items : OrderedMap String (ItemRow ι)} (h : Identified items)
    (rows : List (ItemRow ι)) (ids : List String) :
    Identified ((items.setAll (·.identity) rows).eraseAll ids) := by
  intro id row hrow
  rw [OrderedMap.get_eraseAll] at hrow
  split at hrow
  · cases hrow
  · rcases OrderedMap.get_setAll_cases _ _ _ hrow with ⟨-, hid⟩ | hold
    · exact hid
    · exact h id row hold

/-! ## Leases -/

namespace SameRows

variable {rec : KeyRecord ι} {r : SqliteRecord ι}

theorem fence (h : SameRows rec r) (l : Lease) : r.fence l = rec.holds l := by
  rw [SqliteRecord.fence, h.lease]
  rfl

theorem register (h : SameRows rec r) : SqliteStore.register r = MemoryStore.register rec := by
  rw [SqliteStore.register, MemoryStore.register, h.lease, h.counter]

/-- A write keeps the columns of the lease. -/
theorem columns (h : SameRows rec r) {rec' : KeyRecord ι} {r' : SqliteRecord ι}
    (hlease : rec'.lease = rec.lease) (hcounter : rec'.epochCounter = rec.epochCounter)
    (hcolumns : r'.columns = r.columns) :
    SqliteStore.Dated r' ∧ r'.getLease = rec'.lease ∧
      r'.columns.epochCounter = rec'.epochCounter := by
  refine ⟨h.dated.congr hcolumns, ?_, ?_⟩
  · rw [SqliteRecord.getLease_eq, hcolumns, ← SqliteRecord.getLease_eq, h.lease, hlease]
  · rw [hcolumns, h.counter, hcounter]

/-- The columns of the lease change, and nothing else. -/
theorem leased (h : SameRows rec r) {row : PollersRow} {lease : Option Lease} {counter : Nat}
    (hstate : row.state = r.pollers.bind (·.state))
    (hdated : SqliteStore.Dated { r with pollers := some row })
    (hlease : SqliteRecord.toLease row = lease) (hcounter : row.epochCounter = counter) :
    SameRows { rec with lease, epochCounter := counter } { r with pollers := some row } :=
  { h with
    dated := hdated
    lease := hlease
    counter := hcounter
    state := hstate.trans h.state }

theorem acquireLease (h : SameRows rec r) (owner : String) (ttlMs now : Int) :
    (r.acquireLease owner ttlMs now).1 = (rec.acquireLease owner ttlMs now).1 ∧
      SameRows (rec.acquireLease owner ttlMs now).2 (r.acquireLease owner ttlMs now).2 := by
  have hblocks := SqliteStore.register_blocks h.dated owner now
  rw [h.register, MemoryStore.register_blocks] at hblocks
  have hcounter := h.counter
  cases hp : r.pollers with
  | none =>
    -- the first row of the key
    have hfree : rec.heldByOther owner now = false := by
      rw [Bool.eq_false_iff]
      intro hheld
      obtain ⟨row, hrow, -⟩ := hblocks.1 hheld
      rw [hp] at hrow
      cases hrow
    have hzero : rec.epochCounter = 0 := by
      rw [← hcounter, SqliteRecord.columns, hp]
      rfl
    simp only [SqliteRecord.acquireLease, KeyRecord.acquireLease, hp, hfree, Bool.false_eq_true,
      if_false, hzero]
    refine ⟨trivial, h.leased ?_ (fun _ _ => ⟨_, rfl⟩) rfl rfl⟩
    rw [hp]
    rfl
  | some row =>
    have hrow : row.epochCounter = rec.epochCounter := by
      rw [← hcounter, SqliteRecord.columns, hp]
      rfl
    cases hm : SqliteRecord.mayAcquire row owner now with
    | true =>
      have hfree : rec.heldByOther owner now = false := by
        rw [Bool.eq_false_iff]
        intro hheld
        obtain ⟨row', hrow', hno⟩ := hblocks.1 hheld
        rw [hp, Option.some.injEq] at hrow'
        rw [← hrow', hm] at hno
        cases hno
      simp only [SqliteRecord.acquireLease, KeyRecord.acquireLease, hp, hm, hfree,
        Bool.false_eq_true, if_false, if_true, hrow]
      refine ⟨trivial, h.leased ?_ (fun _ _ => ⟨_, rfl⟩) rfl rfl⟩
      rw [hp]
      rfl
    | false =>
      have hheld : rec.heldByOther owner now = true := hblocks.2 ⟨row, hp, hm⟩
      simp only [SqliteRecord.acquireLease, KeyRecord.acquireLease, hp, hm, hheld,
        Bool.false_eq_true, if_false, if_true]
      exact ⟨trivial, h⟩

/-- The lease that is in force is the one of the row. -/
theorem held (h : SameRows rec r) {l : Lease} (hholds : rec.holds l = true) :
    ∃ row owner, r.leased l = some row ∧ r.pollers = some row ∧ row.leaseOwner = some owner ∧
      rec.lease = SqliteRecord.toLease row := by
  rcases SqliteStore.leased_cases r l with ⟨hfence, -⟩ | ⟨row, hfence, hleased, hp⟩
  · rw [h.fence, hholds] at hfence
    cases hfence
  · have hlease : rec.lease = SqliteRecord.toLease row := by
      rw [← h.lease, SqliteRecord.getLease, hp]
      rfl
    cases ho : row.leaseOwner with
    | none =>
      rw [KeyRecord.holds, hlease, SqliteRecord.toLease, ho] at hholds
      cases hholds
    | some owner => exact ⟨row, owner, hleased, hp, ho, hlease⟩

theorem not_held (h : SameRows rec r) {l : Lease} (hholds : rec.holds l = false) :
    r.leased l = none := by
  rcases SqliteStore.leased_cases r l with ⟨-, hleased⟩ | ⟨row, hfence, -⟩
  · exact hleased
  · rw [h.fence, hholds] at hfence
    cases hfence

theorem renewLease (h : SameRows rec r) (l : Lease) (ttlMs now : Int) :
    (r.renewLease l ttlMs now).1 = (rec.renewLease l ttlMs now).1 ∧
      SameRows (rec.renewLease l ttlMs now).2 (r.renewLease l ttlMs now).2 := by
  cases hholds : rec.holds l with
  | true =>
    obtain ⟨row, owner, hleased, hp, ho, hlease⟩ := h.held hholds
    simp only [SqliteRecord.renewLease, KeyRecord.renewLease, hleased, hholds, if_true]
    refine ⟨trivial, h.leased ?_ (fun _ _ => ⟨_, rfl⟩) ?_ ?_⟩
    · rw [hp]
      rfl
    · rw [hlease]
      simp [SqliteRecord.toLease, ho]
    · rw [← h.counter, SqliteRecord.columns, hp]
      rfl
  | false =>
    simp only [SqliteRecord.renewLease, KeyRecord.renewLease, h.not_held hholds, hholds,
      Bool.false_eq_true, if_false]
    exact ⟨trivial, h⟩

theorem releaseLease (h : SameRows rec r) (l : Lease) :
    SameRows (rec.releaseLease l) (r.releaseLease l) := by
  cases hholds : rec.holds l with
  | true =>
    obtain ⟨row, owner, hleased, hp, ho, hlease⟩ := h.held hholds
    simp only [SqliteRecord.releaseLease, KeyRecord.releaseLease, hleased, hholds, if_true]
    refine h.leased ?_ ?_ rfl ?_
    · rw [hp]
      rfl
    · intro owner hnone
      cases hnone
    · rw [← h.counter, SqliteRecord.columns, hp]
      rfl
  | false =>
    simp only [SqliteRecord.releaseLease, KeyRecord.releaseLease, h.not_held hholds, hholds,
      Bool.false_eq_true, if_false]
    exact h

/-! ## Writes -/

theorem patched (h : SameRows rec r) (patch : StatePatch) :
    SameRows (rec.applyPatch patch) (r.writeState patch) := by
  have hsame : (rec.applyPatch patch).lease = rec.lease := rfl
  obtain ⟨hdated, hlease, hcounter⟩ := h.columns hsame rfl (r.writeState_columns patch)
  have hbase : (r.pollers.getD {}).state = rec.state := by
    rw [← h.state]
    cases r.pollers <;> rfl
  refine { h with dated := hdated, lease := hlease, counter := hcounter, state := ?_ }
  simp only [SqliteRecord.writeState, KeyRecord.applyPatch, Option.bind_some, hbase]

/-- The rows of the tables other than `pollers`. -/
theorem tables (h : SameRows rec r) {rec' : KeyRecord ι} {r' : SqliteRecord ι}
    (hrec : rec'.key = rec.key ∧ rec'.lease = rec.lease ∧ rec'.epochCounter = rec.epochCounter ∧
      rec'.state = rec.state) (hr : r'.key = r.key ∧ r'.pollers = r.pollers)
    (hitems : (∀ id, r'.items.get id = rec'.items.get id) ∧ Identified r'.items)
    (houtbox : ∀ id, r'.outbox.get id = rec'.outbox.get id)
    (hparked : ∀ id, r'.parked.get id = rec'.parked.get id)
    (hvalidators : ∀ urlHash, r'.validators.get urlHash = rec'.validators.get urlHash)
    (hlog : SameEntries rec'.log r'.log) : SameRows rec' r' := by
  obtain ⟨hkey, hlease, hcounter, hstate⟩ := hrec
  obtain ⟨hdated, hlease', hcounter'⟩ := h.columns hlease hcounter
    (SqliteRecord.columns_congr hr.2)
  exact
    { key := by rw [hr.1, h.key, hkey]
      dated := hdated
      lease := hlease'
      counter := hcounter'
      state := by rw [hr.2, h.state, hstate]
      items := hitems.1
      identified := hitems.2
      outbox := houtbox
      parked := hparked
      validators := hvalidators
      log := hlog }

theorem commitPoll (h : SameRows rec r) (batch : CommitBatch ι)
    (hnew : (rec.log.map (·.sequence) ++ (FencedWrite.commitPoll batch).logs).Nodup) :
    SameRows (rec.commit batch) (r.commitPoll batch) := by
  let mid : KeyRecord ι :=
    { rec with
      items := (rec.items.setAll (·.identity) batch.upserts).eraseAll batch.deletes
      outbox := rec.outbox.setAll (·.eventId) batch.events
      parked := rec.parked.setAll (·.id) batch.parked
      log := (rec.commit batch).log }
  have hmid : rec.commit batch = mid.applyPatch batch.statePatch := rfl
  rw [hmid]
  -- the tables first, then the state
  refine SameRows.patched (show SameRows mid _ from ?_) batch.statePatch
  rw [SqliteStore.writeParkeds_eq]
  have hitems : (∀ id, ((r.items.setAll (·.identity) batch.upserts).eraseAll batch.deletes).get id =
      mid.items.get id) ∧
      Identified ((r.items.setAll (·.identity) batch.upserts).eraseAll batch.deletes) :=
    ⟨get_eraseAll_congr (get_setAll_congr h.items _ _) _, h.identified.commit _ _⟩
  have houtbox := get_setAll_congr h.outbox (·.eventId) batch.events
  have hparked := get_setAll_congr h.parked (·.id) batch.parked
  cases hlog : batch.log with
  | false =>
    refine h.tables ⟨rfl, rfl, rfl, rfl⟩ ⟨rfl, rfl⟩ hitems houtbox hparked h.validators ?_
    simp only [mid, KeyRecord.commit, hlog, Bool.false_eq_true, if_false]
    exact h.log
  | true =>
    refine h.tables ⟨rfl, rfl, rfl, rfl⟩ ⟨rfl, rfl⟩ hitems houtbox hparked h.validators ?_
    simp only [mid, KeyRecord.commit, hlog, if_true]
    simp only [FencedWrite.logs, hlog, if_true] at hnew
    have hmap : batch.events.map (·.sequence) =
        (batch.events.map OutboxRow.logged).map (·.sequence) := by
      rw [List.map_map]
      rfl
    rw [hmap] at hnew
    exact h.log.append hnew (List.nodup_append.1 hnew).2.1 fun _ => Iff.rfl

theorem recordAttempt (h : SameRows rec r) (eventId : String) (error : Option SerializedError)
    (nextAttemptAt : Option Int) :
    SameRows (rec.noteAttempt eventId error nextAttemptAt)
      (r.recordAttempt eventId error nextAttemptAt) := by
  have hrow := h.outbox eventId
  cases hget : rec.outbox.get eventId with
  | none =>
    rw [hget] at hrow
    simp only [KeyRecord.noteAttempt, SqliteRecord.recordAttempt, hget, hrow]
    exact h
  | some row =>
    rw [hget] at hrow
    simp only [KeyRecord.noteAttempt, SqliteRecord.recordAttempt, hget, hrow]
    exact h.tables ⟨rfl, rfl, rfl, rfl⟩ ⟨rfl, rfl⟩ ⟨h.items, h.identified⟩
      (get_set_congr h.outbox _ _) h.parked h.validators h.log

theorem parkEvent (h : SameRows rec r) (row : ParkedRow ι) :
    SameRows (rec.park row) (r.parkEvent row) := by
  have hparked := get_set_congr h.parked row.id row
  cases hevent : row.event with
  | none =>
    simp only [KeyRecord.park, SqliteRecord.parkEvent, SqliteRecord.writeParked, hevent]
    exact h.tables ⟨rfl, rfl, rfl, rfl⟩ ⟨rfl, rfl⟩ ⟨h.items, h.identified⟩ h.outbox hparked
      h.validators h.log
  | some event =>
    simp only [KeyRecord.park, SqliteRecord.parkEvent, SqliteRecord.writeParked, hevent]
    exact h.tables ⟨rfl, rfl, rfl, rfl⟩ ⟨rfl, rfl⟩ ⟨h.items, h.identified⟩
      (get_erase_congr h.outbox _) hparked h.validators h.log

/-- A write that passes the fence. -/
theorem apply (h : SameRows rec r) (w : FencedWrite ι)
    (hnew : (rec.log.map (·.sequence) ++ w.logs).Nodup) :
    SameRows (MemoryStore.apply w rec) (SqliteStore.apply w r) := by
  cases w with
  | saveState patch => exact h.patched patch
  | commitPoll batch => exact h.commitPoll batch hnew
  | ackEvents ids =>
    exact h.tables ⟨rfl, rfl, rfl, rfl⟩ ⟨rfl, rfl⟩ ⟨h.items, h.identified⟩
      (get_eraseAll_congr h.outbox ids) h.parked h.validators h.log
  | recordAttempt id error next => exact h.recordAttempt id (some error) next
  | parkEvent row => exact h.parkEvent row
  | setValidator urlHash validator =>
    exact h.tables ⟨rfl, rfl, rfl, rfl⟩ ⟨rfl, rfl⟩ ⟨h.items, h.identified⟩ h.outbox h.parked
      (get_set_congr h.validators _ _) h.log

/-- A call about a lease, or a write under one. -/
theorem run (h : SameRows rec r) (o : LeaseOp ι) (hnew : LogsNew rec (.call (.lease o))) :
    (SqliteStore.run o r).1 = (MemoryStore.run o rec).1 ∧
      SameRows (MemoryStore.run o rec).2 (SqliteStore.run o r).2 := by
  cases o with
  | acquireLease owner ttlMs now =>
    obtain ⟨hanswer, hrows⟩ := h.acquireLease owner ttlMs now
    exact ⟨congrArg LeaseAnswer.acquired hanswer, hrows⟩
  | renewLease l ttlMs now =>
    obtain ⟨hanswer, hrows⟩ := h.renewLease l ttlMs now
    exact ⟨congrArg LeaseAnswer.renewed hanswer, hrows⟩
  | releaseLease l => exact ⟨rfl, h.releaseLease l⟩
  | write l w =>
    cases hholds : rec.holds l with
    | true =>
      simp only [SqliteStore.run, SqliteStore.write, MemoryStore.run, MemoryStore.write_eq,
        KeyRecord.fenced, h.fence, hholds, if_true]
      exact ⟨trivial, h.apply w (hnew l w rfl hholds)⟩
    | false =>
      simp only [SqliteStore.run, SqliteStore.write, MemoryStore.run, MemoryStore.write_eq,
        KeyRecord.fenced, h.fence, hholds, h.key, Bool.false_eq_true, if_false]
      exact ⟨trivial, h⟩

/-! ## Administration -/

theorem retryOne (h : SameRows rec r) (id : String) :
    (r.retryOne id).1 = (rec.retryOne id).1 ∧ SameRows (rec.retryOne id).2 (r.retryOne id).2 := by
  have hkept : True ∧ SameRows rec r := ⟨trivial, h⟩
  have hparked := h.parked id
  cases hget : rec.parked.get id with
  | none =>
    rw [hget] at hparked
    simp only [SqliteRecord.retryOne, KeyRecord.retryOne, hparked, hget]
    exact hkept
  | some row =>
    rw [hget] at hparked
    obtain ⟨pid, kind, event, item, error, attempts, parkedAt, holdKey⟩ := row
    cases kind with
    | invalid =>
      simp only [SqliteRecord.retryOne, KeyRecord.retryOne, hparked, hget]
      exact hkept
    | poison =>
      cases event with
      | none =>
        simp only [SqliteRecord.retryOne, KeyRecord.retryOne, hparked, hget]
        exact hkept
      | some event =>
        simp only [SqliteRecord.retryOne, KeyRecord.retryOne, hparked, hget]
        exact ⟨trivial, h.tables ⟨rfl, rfl, rfl, rfl⟩ ⟨rfl, rfl⟩ ⟨h.items, h.identified⟩
          (get_set_congr h.outbox _ _) (get_erase_congr h.parked _) h.validators h.log⟩

theorem retryParked (h : SameRows rec r) (ids : List String) :
    (r.retryParked ids).1 = (rec.retryParked ids).1 ∧
      SameRows (rec.retryParked ids).2 (r.retryParked ids).2 := by
  induction ids generalizing rec r with
  | nil => exact ⟨rfl, h⟩
  | cons id ids ih =>
    obtain ⟨hone, hrows⟩ := h.retryOne id
    obtain ⟨hrest, hrows⟩ := ih hrows
    refine ⟨?_, hrows⟩
    simp only [SqliteRecord.retryParked, KeyRecord.retryParked, hone, hrest]

/-- The ids are deleted one by one. -/
theorem discardParked_eq (ids : List String) (r : SqliteRecord ι) :
    r.discardParked ids =
      ((r.parked.deleteAny ids).1, { r with parked := (r.parked.deleteAny ids).2 }) := by
  have hone : ∀ (m : OrderedMap String (ParkedRow ι)) (id : String),
      (m.deleteAny [id]).1 = if (m.get id).isSome then 1 else 0 := by
    intro m id
    rw [length_found (fun _ => rfl)]
    by_cases hid : (m.get id).isSome <;> simp [hid, List.eraseDups_cons]
  induction ids generalizing r with
  | nil => simp [SqliteRecord.discardParked, OrderedMap.deleteAny, OrderedMap.eraseAll]
  | cons id ids ih =>
    have hsplit := r.parked.deleteAny_append [id] ids
    rw [SqliteRecord.discardParked, ih, ← List.singleton_append, hsplit, hone]
    rfl

theorem discardParked (h : SameRows rec r) (ids : List String) :
    (r.discardParked ids).1 = (rec.discardParked ids).1 ∧
      SameRows (rec.discardParked ids).2 (r.discardParked ids).2 := by
  rw [discardParked_eq]
  refine ⟨length_found h.parked ids, ?_⟩
  exact h.tables ⟨rfl, rfl, rfl, rfl⟩ ⟨rfl, rfl⟩ ⟨h.items, h.identified⟩ h.outbox
    (get_eraseAll_congr h.parked ids) h.validators h.log

theorem pruneLog (h : SameRows rec r) (olderThan : Int) :
    (r.pruneLog olderThan).1 = (rec.pruneLog olderThan).1 ∧
      SameRows (rec.pruneLog olderThan).2 (r.pruneLog olderThan).2 := by
  obtain ⟨hcount, hlog⟩ := h.log.prune olderThan
  exact ⟨hcount, h.tables ⟨rfl, rfl, rfl, rfl⟩ ⟨rfl, rfl⟩ ⟨h.items, h.identified⟩ h.outbox h.parked
    h.validators hlog⟩

/-! ## One call -/

/-- Each call keeps the relation. -/
theorem step (h : SameRows rec r) (o : TableOp ι) (hnew : LogsNew rec o) :
    SameRows (MemoryStore.serve o rec).2 (SqliteStore.next o r) := by
  cases o with
  | call o =>
    cases o with
    | lease o => exact (h.run o hnew).2
    | saveStateUnfenced patch => exact h.patched patch
    | retryParked ids => exact (h.retryParked ids).2
    | discardParked ids => exact (h.discardParked ids).2
    | pruneLog olderThan => exact (h.pruneLog olderThan).2
    | _ => exact h
  | deleteKey =>
    have hfresh := sameRows_fresh (ι := ι) rec.key
    rw [← h.key] at hfresh
    simpa only [MemoryStore.serve, SqliteStore.next, SqliteRecord.deleteKey, h.key] using hfresh
  | clearItems =>
    refine h.tables ⟨rfl, rfl, rfl, rfl⟩ ⟨rfl, rfl⟩ ⟨fun _ => rfl, ?_⟩ h.outbox h.parked
      h.validators h.log
    intro id row hrow
    cases hrow
  | _ => exact h

/-- The same reply, while the sequences tell the order. -/
theorem reply (h : SameRows rec r) (hd : Distinct rec.outbox) (o : TableOp ι)
    (hnew : LogsNew rec o) {res : o.Result} (hres : SqliteStore.Replies r o res) :
    o.SameResult res (MemoryStore.serve o rec).1 := by
  cases o with
  | call o =>
    cases o with
    | lease o => exact hres.trans (h.run o hnew).1
    | getLease => exact hres.trans h.lease
    | loadState => exact hres.trans h.state
    | saveStateUnfenced patch => rfl
    | loadPending limit => exact loadsPending_eq hd h.outbox hres
    | countPending => exact hres.trans (selectPending_eq h.outbox)
    | listParked kind limit => exact listsParked_same h.parked hres
    | countParked => exact hres.trans (OrderedMap.keys_perm h.parked).length_eq
    | retryParked ids => exact hres.trans (h.retryParked ids).1
    | discardParked ids => exact hres.trans (h.discardParked ids).1
    | heldKeys => exact hres.trans (selectHeldKeys_eq h.parked)
    | getValidator urlHash => exact hres.trans (h.validators urlHash)
    | readLog range limit => exact h.log.readLog_eq hres
    | pruneLog olderThan => exact hres.trans (h.pruneLog olderThan).1
  | deleteKey => trivial
  | clearItems => trivial
  | loadVersions identities =>
    exact loadsVersions_same h.items h.identified (by decide : 0 < SqliteStore.inChunk) hres
  | streamIdentities =>
    simp only [SqliteStore.Replies] at hres
    rw [hres]
    exact selectIdentities_perm h.items Function.injective_id
  | countItems => exact hres.trans (OrderedMap.keys_perm h.items).length_eq

/-! ## All calls -/

theorem exists_reply (r : SqliteRecord ι) (o : TableOp ι) : ∃ res, SqliteStore.Replies r o res := by
  cases o with
  | call o =>
    cases o with
    | saveStateUnfenced patch => exact ⟨(), trivial⟩
    | loadPending limit => exact exists_selected _ _ _ _
    | listParked kind limit => exact exists_selected _ _ _ _
    | readLog range limit => exact exists_selected _ _ _ _
    | _ => exact ⟨_, rfl⟩
  | deleteKey => exact ⟨(), trivial⟩
  | clearItems => exact ⟨(), trivial⟩
  | loadVersions identities => exact exists_loadsVersions _ _ _
  | streamIdentities => exact ⟨_, rfl⟩
  | countItems => exact ⟨_, rfl⟩

section

variable {key : PKey} {ops : List (TableOp ι)}

/-- The relation holds after every history without ties. -/
theorem served (h : NoTies key (recent ops)) :
    SameRows (MemoryStore.served key ops) (SqliteStore.after key ops) := by
  induction ops using List.reverseRecOn with
  | nil => exact sameRows_fresh key
  | append_singleton ops o ih =>
    rw [served_snoc, SqliteStore.after_snoc]
    by_cases ho : o = .deleteKey
    · -- whatever came before, nothing is left of it
      subst ho
      have hfresh := sameRows_fresh (ι := ι) key
      have hkey := SqliteStore.after_key key ops
      simpa only [MemoryStore.serve, served_key, SqliteStore.next, SqliteRecord.deleteKey, hkey]
        using hfresh
    · exact (ih (h.before ho)).step o h.logsNew

end

end SameRows

/-! ## A key that comes back -/

/-- A commit of one event, with sequence 1. -/
def oneEvent (id : String) : CommitBatch Unit where
  statePatch := {}
  upserts := []
  deletes := []
  events := [KeyRecord.retriedRow (numberedEvent id 1) 0]
  log := true

/-- Two events with sequence 1, and a deletion between them. -/
def recreatedHistory : List (TableOp Unit) :=
  [.call (.lease (.acquireLease "node-a" 30000 0)),
    .call (.lease (.write firstLease (.commitPoll (oneEvent "a")))),
    .deleteKey,
    .call (.lease (.acquireLease "node-a" 30000 0)),
    .call (.lease (.write firstLease (.commitPoll (oneEvent "b"))))]

theorem recreatedHistory_noTies :
    NoTies tieKey (recent (recreatedHistory ++ [.call (.loadPending 10)])) := by
  have hcommitted : committedIn tieKey (recent (recreatedHistory ++ [.call (.loadPending 10)])) =
      (oneEvent "b").events := rfl
  have hparked : parkedIn tieKey (recent (recreatedHistory ++ [.call (.loadPending 10)])) = [] := rfl
  constructor
  · rw [hcommitted]
    exact List.nodup_singleton _
  · rw [hparked]
    intro e he
    cases he
  · rw [hparked]
    intro e he
    cases he

end Watukuy
