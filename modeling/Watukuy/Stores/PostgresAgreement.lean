import Watukuy.Stores.PostgresStore
import Watukuy.Stores.SqliteAgreement

/-!
# The Postgres store and the memory store

The rows of a key in Postgres are rows as SQLite keeps them (`PostgresRecord.rows`), and the
statements about a lease are the same. A write differs in its statements, which name many rows each.
Every call keeps the relation to the memory store as long as no logged commit names an event id
twice, and its reply is then that of the memory store, under any collation of the texts.
-/

set_option autoImplicit false

namespace Watukuy

open Library

variable {ι γ : Type} [LinearOrder γ]

/-! ## Calls -/

namespace PostgresStore

/-- A fenced write. -/
def write (lease : Lease) (w : FencedWrite ι) (rec : PostgresRecord ι) :
    Except JsError Unit × PostgresRecord ι :=
  match w with
  | .commitPoll batch => rec.commitPoll lease batch
  | .saveState patch => fenced fun rec => rec.writeState rec.loadState patch
  | .ackEvents eventIds => fenced fun rec => rec.ackEvents eventIds
  | .recordAttempt eventId error nextAttemptAt =>
    fenced fun rec => rec.recordAttempt eventId (some error) nextAttemptAt
  | .parkEvent row => fenced fun rec => rec.parkEvent row
  | .setValidator urlHash validator => fenced fun rec => rec.setValidator urlHash validator
where
  /-- A transaction that tests the lease first. -/
  fenced (f : PostgresRecord ι → PostgresRecord ι) : Except JsError Unit × PostgresRecord ι :=
    if rec.leased lease then (.ok (), f rec)
    else (.error (leaseLostError rec.key.poller rec.key.partition lease.epoch), rec)

def run (o : LeaseOp ι) (rec : PostgresRecord ι) : LeaseAnswer × PostgresRecord ι :=
  match o with
  | .acquireLease owner ttlMs now =>
    let (lease, rec) := rec.acquireLease owner ttlMs now
    (.acquired lease, rec)
  | .renewLease lease ttlMs now =>
    let (ok, rec) := rec.renewLease lease ttlMs now
    (.renewed ok, rec)
  | .releaseLease lease => (.released, rec.releaseLease lease)
  | .write lease w =>
    let (res, rec) := write lease w rec
    (.written res, rec)

def next : TableOp ι → PostgresRecord ι → PostgresRecord ι
  | .call (.lease o), rec => (run o rec).2
  | .call (.saveStateUnfenced patch), rec => rec.writeState rec.loadState patch
  | .call (.retryParked ids), rec => (rec.retryParked ids).2
  | .call (.discardParked ids), rec => (rec.discardParked ids).2
  | .call (.pruneLog olderThan), rec => (rec.pruneLog olderThan).2
  | .deleteKey, rec => rec.deleteKey
  | .clearItems, rec => rec.clearItems
  | _, rec => rec

/-- The replies to a call; `collate` gives the place of a text in the collation of the database. -/
def Replies (collate : String → γ) (rec : PostgresRecord ι) : (o : TableOp ι) → o.Result → Prop
  | .call (.lease o), res => res = (run o rec).1
  | .call .getLease, res => res = rec.getLease
  | .call .loadState, res => res = rec.loadState
  | .call (.saveStateUnfenced _), _ => True
  | .call (.loadPending limit), res => LoadsPending limit rec.outbox res
  | .call .countPending, res => res = selectPending rec.outbox
  | .call (.listParked kind limit), res => ListsParked collate kind limit rec.parked res
  | .call .countParked, res => res = rec.parked.keys.length
  | .call (.retryParked ids), res => res = (rec.retryParked ids).1
  | .call (.discardParked ids), res => res = (rec.discardParked ids).1
  | .call .heldKeys, res => res = selectHeldKeys rec.parked
  | .call (.getValidator urlHash), res => res = rec.validators.get urlHash
  | .call (.readLog range limit), res => ReadsLog range limit rec.log res
  | .call (.pruneLog olderThan), res => res = (rec.pruneLog olderThan).1
  | .deleteKey, _ => True
  | .clearItems, _ => True
  | .loadVersions identities, res => LoadsVersions idsPerStatement identities rec.items res
  | .streamIdentities, res => res = selectIdentities collate rec.items
  | .countItems, res => res = rec.items.keys.length

/-- The rows of a key after some calls. -/
def after (key : PKey) (ops : List (TableOp ι)) : PostgresRecord ι :=
  ops.foldl (fun rec o => next o rec) { key }

theorem after_snoc (key : PKey) (ops : List (TableOp ι)) (o : TableOp ι) :
    after key (ops ++ [o]) = next o (after key ops) := by
  simp [after, List.foldl_append]

end PostgresStore

/-- No logged commit of the calls names an event id twice. -/
def LoggedOnce (key : PKey) (ops : List (StateOp ι)) : Prop :=
  ∀ batch, .commitPoll batch ∈ acceptedIn (.fresh key) ops → batch.log = true →
    (batch.events.map (·.eventId)).Nodup

/-- The next call does not log an event id twice. -/
def LogsOnce (mem : KeyRecord ι) (o : TableOp ι) : Prop :=
  ∀ l batch, o = .call (.lease (.write l (.commitPoll batch))) → mem.holds l = true →
    batch.log = true → (batch.events.map (·.eventId)).Nodup

/-! ## The rows -/

namespace PostgresRecord

/-- The rows, as SQLite keeps them. -/
def rows (rec : PostgresRecord ι) : SqliteRecord ι where
  key := rec.key
  pollers := rec.pollers
  items := rec.items
  outbox := rec.outbox
  parked := rec.parked
  validators := rec.validators
  log := rec.log

variable (rec : PostgresRecord ι)

theorem rows_acquireLease (owner : String) (ttlMs now : Int) :
    (rec.acquireLease owner ttlMs now).1 = (rec.rows.acquireLease owner ttlMs now).1 ∧
      (rec.acquireLease owner ttlMs now).2.rows = (rec.rows.acquireLease owner ttlMs now).2 := by
  have hpollers : rec.rows.pollers = rec.pollers := rfl
  simp only [acquireLease, SqliteRecord.acquireLease, hpollers]
  cases rec.pollers with
  | none => exact ⟨rfl, rfl⟩
  | some row =>
    have hsame : mayAcquire row owner now = SqliteRecord.mayAcquire row owner now := rfl
    dsimp only
    rw [hsame]
    split <;> exact ⟨rfl, rfl⟩

theorem rows_renewLease (l : Lease) (ttlMs now : Int) :
    (rec.renewLease l ttlMs now).1 = (rec.rows.renewLease l ttlMs now).1 ∧
      (rec.renewLease l ttlMs now).2.rows = (rec.rows.renewLease l ttlMs now).2 := by
  have hsame : rec.heldRow l = rec.rows.leased l := rfl
  simp only [renewLease, SqliteRecord.renewLease, hsame]
  cases rec.rows.leased l <;> exact ⟨rfl, rfl⟩

theorem rows_releaseLease (l : Lease) :
    (rec.releaseLease l).rows = rec.rows.releaseLease l := by
  have hsame : rec.heldRow l = rec.rows.leased l := rfl
  simp only [releaseLease, SqliteRecord.releaseLease, hsame]
  cases rec.rows.leased l <;> rfl

theorem rows_writeState (patch : StatePatch) :
    (rec.writeState rec.loadState patch).rows = rec.rows.writeState patch := by
  simp only [writeState, SqliteRecord.writeState, loadState, rows]
  cases rec.pollers <;> rfl

theorem rows_recordAttempt (id : String) (error : Option SerializedError) (next : Option Int) :
    (rec.recordAttempt id error next).rows = rec.rows.recordAttempt id error next := by
  simp only [recordAttempt, SqliteRecord.recordAttempt, rows]
  cases rec.outbox.get id <;> rfl

theorem rows_parkEvent (row : ParkedRow ι) :
    (rec.parkEvent row).rows = rec.rows.parkEvent row := by
  simp only [parkEvent, SqliteRecord.parkEvent, SqliteRecord.writeParked, rows]
  cases row.event <;> rfl

theorem rows_ackEvents (ids : List String) :
    (rec.ackEvents ids).rows = { rec.rows with outbox := rec.rows.outbox.eraseAll ids } := by
  have hchunks := OrderedMap.eraseAll_chunks (by decide : 0 < idsPerStatement) ids rec.outbox
  simp only [ackEvents, rows, hchunks]

theorem rows_retryParked (ids : List String) :
    (rec.retryParked ids).1 = (rec.rows.retryParked ids).1 ∧
      (rec.retryParked ids).2.rows = (rec.rows.retryParked ids).2 := by
  have hone : ∀ (rec : PostgresRecord ι) (id : String),
      (rec.retryOne id).1 = (rec.rows.retryOne id).1 ∧
        (rec.retryOne id).2.rows = (rec.rows.retryOne id).2 := by
    intro rec id
    have hparked : rec.rows.parked = rec.parked := rfl
    simp only [retryOne, SqliteRecord.retryOne, hparked]
    cases rec.parked.get id with
    | none => exact ⟨rfl, rfl⟩
    | some row =>
      obtain ⟨_, kind, event, _, _, _, _, _⟩ := row
      cases kind with
      | invalid => exact ⟨rfl, rfl⟩
      | poison => cases event <;> exact ⟨rfl, rfl⟩
  induction ids generalizing rec with
  | nil => exact ⟨rfl, rfl⟩
  | cons id ids ih =>
    obtain ⟨hn, hrows⟩ := hone rec id
    obtain ⟨hm, hrest⟩ := ih (rec.retryOne id).2
    rw [hrows] at hm hrest
    refine ⟨?_, hrest⟩
    simp only [retryParked, SqliteRecord.retryParked, hn, hm]

/-- The chunks delete what the ids delete one by one. -/
theorem rows_discardParked (ids : List String) :
    (rec.discardParked ids).1 = (rec.rows.discardParked ids).1 ∧
      (rec.discardParked ids).2.rows = (rec.rows.discardParked ids).2 := by
  rw [SameRows.discardParked_eq]
  cases ids with
  | nil =>
    have hnone : rec.parked.deleteAny [] = (0, rec.parked) := by
      simp [OrderedMap.deleteAny, OrderedMap.eraseAll]
    simp only [discardParked, rows, hnone]
    exact ⟨rfl, rfl⟩
  | cons id ids =>
    have hflat := chunks_flatten (by decide : 0 < idsPerStatement) (id :: ids)
    simp only [discardParked, OrderedMap.deleteEach_eq, hflat, rows]
    exact ⟨rfl, rfl⟩

theorem rows_commitPoll_key (l : Lease) (batch : CommitBatch ι) :
    (rec.commitPoll l batch).2.key = rec.key := by
  simp only [commitPoll, writeRows_eq]
  split <;> rfl

end PostgresRecord

/-- No call changes the key of the rows. -/
theorem PostgresStore.next_key (o : TableOp ι) (rec : PostgresRecord ι) :
    (next o rec).key = rec.key := by
  -- a call that SQLite would perform alike
  have hkept : ∀ {rec' : PostgresRecord ι}, rec'.rows = SqliteStore.next o rec.rows →
      rec'.key = rec.key := by
    intro rec' heq
    have hkey := SqliteStore.next_key o rec.rows
    rw [← heq] at hkey
    exact hkey
  cases o with
  | call o =>
    cases o with
    | lease o =>
      cases o with
      | acquireLease owner ttlMs now => exact hkept (rec.rows_acquireLease owner ttlMs now).2
      | renewLease l ttlMs now => exact hkept (rec.rows_renewLease l ttlMs now).2
      | releaseLease l => exact hkept (rec.rows_releaseLease l)
      | write l w =>
        have hfenced : ∀ f : PostgresRecord ι → PostgresRecord ι, (f rec).key = rec.key →
            (write.fenced l rec f).2.key = rec.key := by
          intro f hf
          rw [write.fenced]
          split
          · exact hf
          · rfl
        cases w with
        | commitPoll batch => exact rec.rows_commitPoll_key l batch
        | saveState patch =>
          apply hfenced
          rfl
        | ackEvents ids =>
          apply hfenced
          rfl
        | recordAttempt id error next =>
          apply hfenced
          rw [PostgresRecord.recordAttempt]
          cases rec.outbox.get id <;> rfl
        | parkEvent row =>
          apply hfenced
          rw [PostgresRecord.parkEvent]
          cases row.event <;> rfl
        | setValidator urlHash validator =>
          apply hfenced
          rfl
    | retryParked ids => exact hkept (rec.rows_retryParked ids).2
    | discardParked ids => exact hkept (rec.rows_discardParked ids).2
    | _ => rfl
  | _ => rfl

theorem PostgresStore.after_key (key : PKey) (ops : List (TableOp ι)) :
    (after key ops : PostgresRecord ι).key = key := by
  induction ops using List.reverseRecOn with
  | nil => rfl
  | append_singleton ops o ih => rw [after_snoc, next_key, ih]

/-! ## One call -/

section Steps

variable {mem : KeyRecord ι} {rec : PostgresRecord ι}

theorem SameRows.leasedTest (h : SameRows mem rec.rows) (l : Lease) :
    rec.leased l = mem.holds l := h.fence l

/-- The statements of a commit whose logged events have distinct ids. -/
theorem SameRows.commitRows (h : SameRows mem rec.rows) (batch : CommitBatch ι)
    (hnew : (mem.log.map (·.sequence) ++ (FencedWrite.commitPoll batch).logs).Nodup)
    (honce : batch.log = true → (batch.events.map (·.eventId)).Nodup)
    {written : PostgresRecord ι} (hwritten : rec.writeRows batch = some written) :
    SameRows (mem.commit batch) (written.writeState rec.loadState batch.statePatch).rows := by
  rw [PostgresRecord.writeRows_eq, Option.some.injEq] at hwritten
  let mid : KeyRecord ι :=
    { mem with
      items := (mem.items.setAll (·.identity) batch.upserts).eraseAll batch.deletes
      outbox := mem.outbox.setAll (·.eventId) batch.events
      parked := mem.parked.setAll (·.id) batch.parked
      log := (mem.commit batch).log }
  have hmid : mem.commit batch = mid.applyPatch batch.statePatch := rfl
  have hstate : written.loadState = rec.loadState := by rw [← hwritten]; rfl
  rw [hmid, ← hstate, PostgresRecord.rows_writeState]
  -- the tables first, then the state
  apply SameRows.patched
  have hlog : SameEntries mid.log written.rows.log := by
    rw [← hwritten]
    cases hlogs : batch.log with
    | false =>
      simp only [mid, KeyRecord.commit, PostgresRecord.rows, hlogs, Bool.false_eq_true, if_false]
      exact h.log
    | true =>
      simp only [mid, KeyRecord.commit, PostgresRecord.rows, hlogs, if_true]
      simp only [FencedWrite.logs, hlogs, if_true] at hnew
      obtain ⟨-, hsequences, hcross⟩ := List.nodup_append.1 hnew
      have hmap : batch.events.map (·.sequence) =
          (batch.events.map OutboxRow.logRow).map (·.sequence) := by
        rw [List.map_map]
        rfl
      have hfresh : FreshEvents mem.log batch.events :=
        { ids := honce hlogs
          sequences := hsequences
          new := fun row hrow entry hentry =>
            hcross _ (List.mem_map_of_mem hentry) _ (List.mem_map_of_mem hrow) }
      rw [hmap] at hnew
      refine h.log.append hnew (PostgresRecord.nodup_loggedRows batch.events) ?_
      intro e
      constructor
      · intro he
        obtain ⟨row, hrow, rfl⟩ := PostgresRecord.mem_loggedRows he
        exact List.mem_map_of_mem hrow
      · intro he
        obtain ⟨row, hrow, rfl⟩ := List.mem_map.1 he
        exact hfresh.mem_loggedRows hrow
  refine h.tables ⟨rfl, rfl, rfl, rfl⟩ ?_ ?_ ?_ ?_ ?_ hlog
  · rw [← hwritten]
    exact ⟨rfl, rfl⟩
  · rw [← hwritten]
    refine ⟨?_, h.identified.commit _ _⟩
    apply get_eraseAll_congr
    intro id
    rw [OrderedMap.get_setAll_dedupe]
    exact get_setAll_congr h.items _ _ id
  · rw [← hwritten]
    intro id
    refine (OrderedMap.get_setAll_dedupe _ _ _ id).trans ?_
    exact get_setAll_congr h.outbox _ _ id
  · rw [← hwritten]
    intro id
    refine (OrderedMap.get_setAll_dedupe _ _ _ id).trans ?_
    exact get_setAll_congr h.parked _ _ id
  · rw [← hwritten]
    exact h.validators

theorem SameRows.commits (h : SameRows mem rec.rows) (l : Lease) (batch : CommitBatch ι)
    (hnew : mem.holds l = true →
      (mem.log.map (·.sequence) ++ (FencedWrite.commitPoll batch).logs).Nodup)
    (honce : mem.holds l = true → batch.log = true → (batch.events.map (·.eventId)).Nodup) :
    (rec.commitPoll l batch).1 = (mem.fenced l fun mem => mem.commit batch).1 ∧
      SameRows (mem.fenced l fun mem => mem.commit batch).2 (rec.commitPoll l batch).2.rows := by
  cases hholds : mem.holds l with
  | false =>
    have hkey : rec.key = mem.key := h.key
    simp only [PostgresRecord.commitPoll, KeyRecord.fenced, h.leasedTest, hholds, hkey,
      Bool.false_eq_true, if_false]
    exact ⟨trivial, h⟩
  | true =>
    obtain ⟨written, hwritten⟩ : ∃ written, rec.writeRows batch = some written :=
      ⟨_, rec.writeRows_eq batch⟩
    simp only [PostgresRecord.commitPoll, KeyRecord.fenced, h.leasedTest, hholds, if_true, hwritten]
    exact ⟨trivial, h.commitRows batch (hnew hholds) (honce hholds) hwritten⟩

/-- A fenced write other than a commit. -/
theorem SameRows.fencedWrite (h : SameRows mem rec.rows) (l : Lease) {w : FencedWrite ι}
    {f : PostgresRecord ι → PostgresRecord ι}
    (hf : mem.holds l = true → SameRows (MemoryStore.apply w mem) (f rec).rows) :
    (PostgresStore.write.fenced l rec f).1 = (mem.fenced l (MemoryStore.apply w)).1 ∧
      SameRows (mem.fenced l (MemoryStore.apply w)).2 (PostgresStore.write.fenced l rec f).2.rows := by
  have hkey : rec.key = mem.key := h.key
  cases hholds : mem.holds l with
  | false =>
    simp only [PostgresStore.write.fenced, KeyRecord.fenced, h.leasedTest, hholds, hkey,
      Bool.false_eq_true, if_false]
    exact ⟨trivial, h⟩
  | true =>
    simp only [PostgresStore.write.fenced, KeyRecord.fenced, h.leasedTest, hholds, if_true]
    exact ⟨trivial, hf hholds⟩

theorem SameRows.postgresWrite (h : SameRows mem rec.rows) (l : Lease) (w : FencedWrite ι)
    (hnew : LogsNew mem (.call (.lease (.write l w))))
    (honce : LogsOnce mem (.call (.lease (.write l w)))) :
    (PostgresStore.write l w rec).1 = (mem.fenced l (MemoryStore.apply w)).1 ∧
      SameRows (mem.fenced l (MemoryStore.apply w)).2 (PostgresStore.write l w rec).2.rows := by
  have hlogs : mem.holds l = true → (mem.log.map (·.sequence) ++ w.logs).Nodup := hnew l w rfl
  -- what SQLite writes
  have happly := fun hholds => h.apply w (hlogs hholds)
  cases w with
  | commitPoll batch => exact h.commits l batch hlogs (honce l batch rfl)
  | saveState patch =>
    apply h.fencedWrite l
    intro hholds
    rw [PostgresRecord.rows_writeState]
    exact happly hholds
  | ackEvents ids =>
    apply h.fencedWrite l
    intro hholds
    rw [PostgresRecord.rows_ackEvents]
    exact happly hholds
  | recordAttempt id error next =>
    apply h.fencedWrite l
    intro hholds
    rw [PostgresRecord.rows_recordAttempt]
    exact happly hholds
  | parkEvent row =>
    apply h.fencedWrite l
    intro hholds
    rw [PostgresRecord.rows_parkEvent]
    exact happly hholds
  | setValidator urlHash validator => exact h.fencedWrite l happly

/-- A call about a lease, or a write under one. -/
theorem SameRows.postgresRun (h : SameRows mem rec.rows) (o : LeaseOp ι)
    (hnew : LogsNew mem (.call (.lease o))) (honce : LogsOnce mem (.call (.lease o))) :
    (PostgresStore.run o rec).1 = (MemoryStore.run o mem).1 ∧
      SameRows (MemoryStore.run o mem).2 (PostgresStore.run o rec).2.rows := by
  cases o with
  | acquireLease owner ttlMs now =>
    obtain ⟨hanswer, hrows⟩ := rec.rows_acquireLease owner ttlMs now
    obtain ⟨hmem, hsame⟩ := h.acquireLease owner ttlMs now
    rw [← hrows] at hsame
    exact ⟨congrArg LeaseAnswer.acquired (hanswer.trans hmem), hsame⟩
  | renewLease l ttlMs now =>
    obtain ⟨hanswer, hrows⟩ := rec.rows_renewLease l ttlMs now
    obtain ⟨hmem, hsame⟩ := h.renewLease l ttlMs now
    rw [← hrows] at hsame
    exact ⟨congrArg LeaseAnswer.renewed (hanswer.trans hmem), hsame⟩
  | releaseLease l =>
    have hsame := h.releaseLease l
    rw [← rec.rows_releaseLease] at hsame
    exact ⟨rfl, hsame⟩
  | write l w =>
    obtain ⟨hanswer, hsame⟩ := h.postgresWrite l w hnew honce
    rw [← MemoryStore.write_eq] at hanswer hsame
    exact ⟨congrArg LeaseAnswer.written hanswer, hsame⟩

/-- Each call keeps the relation. -/
theorem SameRows.postgresStep (h : SameRows mem rec.rows) (o : TableOp ι) (hnew : LogsNew mem o)
    (honce : LogsOnce mem o) :
    SameRows (MemoryStore.serve o mem).2 (PostgresStore.next o rec).rows := by
  -- what SQLite makes of its rows
  have hstep := h.step o hnew
  cases o with
  | call o =>
    cases o with
    | lease o => exact (h.postgresRun o hnew honce).2
    | saveStateUnfenced patch =>
      simp only [PostgresStore.next, PostgresRecord.rows_writeState]
      exact hstep
    | retryParked ids =>
      simp only [PostgresStore.next, (rec.rows_retryParked ids).2]
      exact hstep
    | discardParked ids =>
      simp only [PostgresStore.next, (rec.rows_discardParked ids).2]
      exact hstep
    | _ => exact hstep
  | _ => exact hstep

/-- The same reply, while the sequences tell the order. -/
theorem SameRows.postgresReply {collate : String → γ} (hcollate : Function.Injective collate)
    (h : SameRows mem rec.rows) (hd : Distinct mem.outbox) (o : TableOp ι) (hnew : LogsNew mem o)
    (honce : LogsOnce mem o) {res : o.Result} (hres : PostgresStore.Replies collate rec o res) :
    o.SameResult res (MemoryStore.serve o mem).1 := by
  cases o with
  | call o =>
    cases o with
    | lease o => exact hres.trans (h.postgresRun o hnew honce).1
    | getLease => exact hres.trans h.lease
    | loadState => exact hres.trans h.state
    | saveStateUnfenced patch => rfl
    | loadPending limit => exact loadsPending_eq hd h.outbox hres
    | countPending => exact hres.trans (selectPending_eq h.outbox)
    | listParked kind limit => exact listsParked_same h.parked hres
    | countParked => exact hres.trans (OrderedMap.keys_perm h.parked).length_eq
    | retryParked ids => exact hres.trans ((rec.rows_retryParked ids).1.trans (h.retryParked ids).1)
    | discardParked ids =>
      exact hres.trans ((rec.rows_discardParked ids).1.trans (h.discardParked ids).1)
    | heldKeys => exact hres.trans (selectHeldKeys_eq h.parked)
    | getValidator urlHash => exact hres.trans (h.validators urlHash)
    | readLog range limit => exact h.log.readLog_eq hres
    | pruneLog olderThan => exact hres.trans (h.pruneLog olderThan).1
  | deleteKey => trivial
  | clearItems => trivial
  | loadVersions identities =>
    exact loadsVersions_same h.items h.identified (by decide : 0 < idsPerStatement) hres
  | streamIdentities =>
    simp only [PostgresStore.Replies] at hres
    rw [hres]
    exact selectIdentities_perm h.items hcollate
  | countItems => exact hres.trans (OrderedMap.keys_perm h.items).length_eq

end Steps

/-! ## All calls -/

theorem exists_postgresReply (collate : String → γ) (rec : PostgresRecord ι) (o : TableOp ι) :
    ∃ res, PostgresStore.Replies collate rec o res := by
  cases o with
  | call o =>
    cases o with
    | saveStateUnfenced patch => exact ⟨(), trivial⟩
    | loadPending limit => exact exists_selected _ _ _ _
    | listParked kind limit => exact exists_selected _ _ _ _
    | readLog range limit => exact exists_selected _ _ _ _
    | _ => exact ⟨_, rfl⟩
  | deleteKey => exact ⟨(), trivial⟩
  | clearItems => exact ⟨(), trivial⟩
  | loadVersions identities => exact exists_loadsVersions _ _ _
  | streamIdentities => exact ⟨_, rfl⟩
  | countItems => exact ⟨_, rfl⟩

section

variable {key : PKey} {ops : List (TableOp ι)} {o : TableOp ι}

theorem LoggedOnce.before (h : LoggedOnce key (recent (ops ++ [o]))) (ho : o ≠ .deleteKey) :
    LoggedOnce key (recent ops) := by
  by_cases hcall : ∃ call, o = .call call
  · obtain ⟨call, rfl⟩ := hcall
    rw [recent_call] at h
    intro batch hbatch
    refine h batch ?_
    rw [acceptedIn_append]
    exact List.mem_append_left _ hbatch
  · rw [recent_items ops (fun call heq => hcall ⟨call, heq⟩) ho] at h
    exact h

theorem LoggedOnce.logsOnce (h : LoggedOnce key (recent (ops ++ [o]))) :
    LogsOnce (MemoryStore.served key ops) o := by
  rintro l batch rfl hholds
  obtain ⟨items, heq⟩ := served_eq key ops
  rw [heq] at hholds
  rw [recent_call] at h
  refine h batch ?_
  rw [acceptedIn_append]
  refine List.mem_append_right _ ?_
  have haccepted : acceptedBy (MemoryStore.after key (recent ops))
      (.lease (.write l (.commitPoll batch))) = some (.commitPoll batch) := if_pos hholds
  rw [acceptedIn]
  refine List.mem_append_left _ ?_
  exact Option.mem_toList.2 haccepted

/-- The relation holds after every history without ties and repeated ids. -/
theorem SameRows.postgresServed (h : NoTies key (recent ops)) (honce : LoggedOnce key (recent ops)) :
    SameRows (MemoryStore.served key ops) (PostgresStore.after key ops).rows := by
  induction ops using List.reverseRecOn with
  | nil => exact sameRows_fresh key
  | append_singleton ops o ih =>
    rw [served_snoc, PostgresStore.after_snoc]
    by_cases ho : o = .deleteKey
    · -- whatever came before, nothing is left of it
      subst ho
      have hkey := PostgresStore.after_key key ops
      simp only [MemoryStore.serve, served_key, PostgresStore.next, PostgresRecord.deleteKey, hkey]
      exact sameRows_fresh key
    · exact (ih (h.before ho) (honce.before ho)).postgresStep o h.logsNew honce.logsOnce

end

end Watukuy
