import Watukuy.Stores.RedisJson
import Watukuy.Stores.RedisReads
import Watukuy.Stores.SqliteAgreement

/-!
# Runs of the Redis store

Calls of any clients on any keys, one after the other, on one database. Every call succeeds and
replies as the memory store does after the calls on its own key: the commands follow the records
(`RedisClient.Serves`), and the record of a key follows the one of the memory store (`Refines`).
-/

set_option autoImplicit false

namespace Watukuy

open Library Redis

variable {ι : Type}

/-! ## Calls on one record -/

namespace RedisStore

variable (logText : LoggedEvent ι → String)

/-- The record after a call. -/
def serve : TableOp ι → RedisRecord ι → RedisRecord ι
  | .call o, r => next logText o r
  | .deleteKey, r => r.deleteKey
  | .clearItems, r => r.clearItems
  | _, r => r

/-- The replies to a call. -/
def Answers (r : RedisRecord ι) : (o : TableOp ι) → o.Result → Prop
  | .call o, res => Replies logText r o res
  | .deleteKey, _ => True
  | .clearItems, _ => True
  | .loadVersions identities, out =>
    ∀ id, out.get id = if id ∈ identities then r.items.get id else none
  | .streamIdentities, batches => batches.flatten.Perm r.items.keys
  | .countItems, n => n = r.items.keys.length

/-- The record of a key after some calls. -/
def served (key : PKey) (ops : List (TableOp ι)) : RedisRecord ι :=
  ops.foldl (fun r o => serve logText o r) { key }

end RedisStore

namespace RedisClient

variable (c : RedisClient ι)

/-! ## Methods -/

def performLease (key : PKey) : LeaseOp ι → Command LeaseAnswer
  | .acquireLease owner ttlMs now => do return .acquired (← c.acquireLease key owner ttlMs now)
  | .renewLease lease ttlMs now => do return .renewed (← c.renewLease key lease ttlMs now)
  | .releaseLease lease => do
    c.releaseLease key lease
    return .released
  | .write lease w => do return .written (← c.write key lease w)

def performCall (server : RedisServer) (key : PKey) : (o : StateOp ι) → Command o.Result
  | .lease o => c.performLease key o
  | .getLease => c.getLease key
  | .loadState => c.loadState key
  | .saveStateUnfenced patch => c.saveStateUnfenced key patch
  | .loadPending limit => c.loadPending key limit
  | .countPending => c.countPending key
  | .listParked kind limit => c.listParked server key kind limit
  | .countParked => c.countParked key
  | .retryParked ids => c.retryParked key ids
  | .discardParked ids => c.discardParked key ids
  | .heldKeys => c.heldKeys server key
  | .getValidator urlHash => c.getValidator key urlHash
  | .readLog range limit => c.readLog key range limit
  | .pruneLog olderThan => c.pruneLog key olderThan

def perform (server : RedisServer) (key : PKey) : (o : TableOp ι) → Command o.Result
  | .call o => c.performCall server key o
  | .deleteKey => c.deleteKey key
  | .clearItems => c.clearItems key
  | .loadVersions identities => c.loadVersions key identities
  | .streamIdentities => c.streamIdentities server key
  | .countItems => c.countItems key

/-- A call of a method with a key, and what the server chooses in its replies. -/
structure Call (ι : Type) where
  key : PKey
  op : TableOp ι
  server : RedisServer

/-- Calls one after the other. -/
def run : List (Call ι) → Command Unit
  | [] => pure ()
  | call :: calls => do
    let _ ← c.perform call.server call.key call.op
    run calls

/-- The calls with their keys. -/
def Call.named (call : Call ι) : PKey × TableOp ι := (call.key, call.op)

/-! ## One call -/

section Calls

variable {c} {key : PKey} {rec rec' : RedisRecord ι} {α : Type}

/-- The command succeeds, `Q` holds of its reply, and it takes the record of the key to `rec'`. -/
def Serves (c : RedisClient ι) (key : PKey) (rec : RedisRecord ι) (cmd : Command α)
    (Q : α → Prop) (rec' : RedisRecord ι) : Prop :=
  ∀ recs, recs key = rec →
    c.layout.Meets recs cmd fun a recs' => Q a ∧ recs' = Function.update recs key rec'

theorem Steps.serves {cmd : Command α} {a : α} {Q : α → Prop} (h : c.Steps key rec cmd a rec')
    (hQ : Q a) : c.Serves key rec cmd Q rec' := by
  intro recs hrec
  refine (h recs hrec).mono ?_
  rintro b recs' ⟨rfl, rfl⟩
  exact ⟨hQ, rfl⟩

theorem Reads.serves {cmd : Command α} {Q : α → Prop} (h : c.Reads key rec cmd Q) :
    c.Serves key rec cmd Q rec := by
  intro recs hrec
  refine (h recs hrec).mono ?_
  rintro b recs' ⟨hb, rfl⟩
  refine ⟨hb, ?_⟩
  rw [← hrec, Function.update_eq_self]

/-- A fenced write, past the fence or not. -/
theorem steps_write (hkey : rec.key = key) (lease : Lease) (w : FencedWrite ι) :
    c.Steps key rec (c.write key lease w) (RedisStore.write c.json.logged.stringify lease w rec).1
      (RedisStore.write c.json.logged.stringify lease w rec).2 := by
  have hstep : c.Steps key rec (c.write key lease w)
      (if rec.fenced lease then .ok ()
        else .error (leaseLostError key.poller key.partition lease.epoch))
      (if rec.fenced lease then RedisStore.apply c.json.logged.stringify w rec else rec) := by
    cases w with
    | saveState patch => exact steps_saveState lease patch
    | commitPoll batch => exact steps_commitPoll lease batch
    | ackEvents eventIds => exact steps_ackEvents lease eventIds
    | recordAttempt eventId error nextAttemptAt =>
      exact steps_recordAttempt lease eventId error nextAttemptAt
    | parkEvent row => exact steps_parkEvent lease row
    | setValidator urlHash validator => exact steps_setValidator lease urlHash validator
  unfold RedisStore.write
  rw [hkey]
  -- the record names the key in the error as the caller does
  by_cases hf : rec.fenced lease = true
  · rw [if_pos hf, if_pos hf] at hstep
    rw [if_pos hf]
    exact hstep
  · rw [if_neg hf, if_neg hf] at hstep
    rw [if_neg hf]
    exact hstep

theorem steps_performLease (hkey : rec.key = key) (o : LeaseOp ι) :
    c.Steps key rec (c.performLease key o) (RedisStore.run c.json.logged.stringify o rec).1
      (RedisStore.run c.json.logged.stringify o rec).2 := by
  cases o with
  | acquireLease owner ttlMs now => exact (steps_acquireLease owner ttlMs now).bind (steps_pure _)
  | renewLease lease ttlMs now => exact (steps_renewLease lease ttlMs now).bind (steps_pure _)
  | releaseLease lease => exact (steps_releaseLease lease).bind (steps_pure _)
  | write lease w => exact (steps_write hkey lease w).bind (steps_pure _)

/-- Every call on a key succeeds, replies as its record does, and leaves what the record becomes. -/
theorem serves_perform (server : RedisServer) (hkey : rec.key = key) (htexts : Texts c.json rec)
    (o : TableOp ι) :
    c.Serves key rec (c.perform server key o)
      (RedisStore.Answers c.json.logged.stringify rec o)
      (RedisStore.serve c.json.logged.stringify o rec) := by
  cases o with
  | call o =>
    cases o with
    | lease o => exact (steps_performLease hkey o).serves rfl
    | getLease => exact steps_getLease.serves rfl
    | loadState => exact steps_loadState.serves rfl
    | saveStateUnfenced patch => exact (steps_saveStateUnfenced patch).serves rfl
    | loadPending limit => exact (steps_loadPending limit).serves rfl
    | countPending => exact steps_countPending.serves rfl
    | listParked kind limit => exact (reads_listParked server kind limit).serves
    | countParked => exact steps_countParked.serves rfl
    | retryParked ids => exact (steps_retryParked ids).serves rfl
    | discardParked ids => exact (steps_discardParked ids).serves rfl
    | heldKeys => exact (reads_heldKeys server).serves
    | getValidator urlHash => exact (steps_getValidator urlHash).serves rfl
    | readLog range limit => exact (steps_readLog htexts range limit).serves rfl
    | pruneLog olderThan => exact (steps_pruneLog htexts olderThan).serves rfl
  | deleteKey => exact steps_deleteKey.serves trivial
  | clearItems => exact steps_clearItems.serves trivial
  | loadVersions identities =>
    refine (steps_loadVersions identities).serves ?_
    intro id
    refine get_found rec identities OrderedMap.empty id ?_
    intro row hrow
    cases hrow
  | streamIdentities => exact (reads_streamIdentities server).serves
  | countItems => exact steps_countItems.serves rfl

end Calls

end RedisClient

/-! ## Keys and texts

A record stays with its key, and a call adds members to the log under their own texts. -/

section Grows

variable {logText : LoggedEvent ι → String} {r r₁ r₂ : RedisRecord ι} {α : Type}

/-- The key stays, and what is new in the log stands under its text. -/
structure Grows (logText : LoggedEvent ι → String) (r r' : RedisRecord ι) : Prop where
  key : r'.key = r.key
  log : ∀ text e, r'.log.get text = some e → r.log.get text = some e ∨ text = logText e

theorem Grows.refl (r : RedisRecord ι) : Grows logText r r :=
  ⟨rfl, fun _ _ h => Or.inl h⟩

theorem Grows.trans (h : Grows logText r r₁) (h' : Grows logText r₁ r₂) : Grows logText r r₂ where
  key := h'.key.trans h.key
  log := by
    intro text e he
    rcases h'.log text e he with hold | htext
    · exact h.log text e hold
    · exact Or.inr htext

/-- The log does not change. -/
theorem Grows.of_log (hkey : r₁.key = r.key) (hlog : r₁.log = r.log) : Grows logText r r₁ where
  key := hkey
  log := by
    intro text e he
    rw [hlog] at he
    exact Or.inl he

theorem Grows.foldl {f : RedisRecord ι → α → RedisRecord ι}
    (h : ∀ r a, Grows logText r (f r a)) (as : List α) (r : RedisRecord ι) :
    Grows logText r (as.foldl f r) := by
  induction as generalizing r with
  | nil => exact .refl r
  | cons a as ih => exact (h r a).trans (ih (f r a))

theorem grows_commitEvent (log : Bool) (r : RedisRecord ι) (row : OutboxRow ι) :
    Grows logText r (r.commitEvent logText log row) where
  key := rfl
  log := by
    intro text e he
    cases log with
    | false => exact Or.inl he
    | true =>
      simp only [RedisRecord.commitEvent, if_true, OrderedMap.get_set] at he
      split at he
      · next htext =>
        obtain rfl := Option.some.inj he
        exact Or.inr htext
      · exact Or.inl he

theorem grows_commitPoll (r : RedisRecord ι) (batch : CommitBatch ι) :
    Grows logText r (r.commitPoll logText batch) := by
  have hevents : ∀ (rows : List (OutboxRow ι)) r, Grows logText r
      (rows.foldl (RedisRecord.commitEvent logText batch.log) r) :=
    fun rows r => Grows.foldl (grows_commitEvent batch.log) rows r
  have hparked : ∀ (rows : List (ParkedRow ι)) r, Grows logText r
      (rows.foldl RedisRecord.setParked r) :=
    fun rows r => Grows.foldl (f := RedisRecord.setParked) (fun _ _ => .of_log rfl rfl) rows r
  have hstored : Grows logText r { r.applyState batch.statePatch with
      items := ((r.applyState batch.statePatch).items.setAll (·.identity) batch.upserts).eraseAll
        batch.deletes } := .of_log rfl rfl
  have hall := hstored.trans ((hevents batch.events _).trans (hparked batch.parked _))
  exact ⟨hall.key, hall.log⟩

theorem grows_write (l : Lease) (w : FencedWrite ι) (r : RedisRecord ι) :
    Grows logText r (RedisStore.write logText l w r).2 := by
  unfold RedisStore.write
  split
  · cases w with
    | commitPoll batch => exact grows_commitPoll r batch
    | ackEvents ids =>
      exact Grows.foldl (f := RedisRecord.dropOutbox) (fun _ _ => .of_log rfl rfl) ids r
    | recordAttempt id error next =>
      simp only [RedisStore.apply, RedisRecord.recordAttempt]
      split
      · exact .of_log rfl rfl
      · exact .refl r
    | parkEvent row =>
      simp only [RedisStore.apply, RedisRecord.parkEvent]
      cases row.event <;> exact .of_log rfl rfl
    | _ => exact .of_log rfl rfl
  · exact .refl r

theorem grows_retryParked (ids : List String) (r : RedisRecord ι) :
    Grows logText r (r.retryParked ids).2 := by
  have hrows : ∀ (args : List (String × OutboxRow ι)) (r : RedisRecord ι),
      Grows logText r (r.retryRows args).2 := by
    intro args
    induction args with
    | nil => exact .refl
    | cons arg args ih =>
      intro r
      have hone : Grows logText r (r.retryOne arg.1 arg.2).2 := by
        unfold RedisRecord.retryOne
        split
        · exact .of_log rfl rfl
        · exact .refl r
      exact hone.trans (ih _)
  unfold RedisRecord.retryParked
  dsimp only
  split
  · exact .refl r
  · exact hrows _ r

theorem grows_discardParked (ids : List String) (r : RedisRecord ι) :
    Grows logText r (r.discardParked ids).2 := by
  induction ids generalizing r with
  | nil => exact .refl r
  | cons id ids ih =>
    have hone : Grows logText r
        { r with parked := r.parked.erase id, hold := r.hold.erase id } := .of_log rfl rfl
    exact hone.trans (ih _)

theorem grows_pruneLog (olderThan : Int) (r : RedisRecord ι) :
    Grows logText r (r.pruneLog olderThan).2 where
  key := rfl
  log := by
    intro text e he
    simp only [RedisRecord.pruneLog, zremBatches_eq, zrem_log, OrderedMap.get_eraseAll] at he
    split at he
    · cases he
    · exact Or.inl he

theorem grows_run (o : LeaseOp ι) (r : RedisRecord ι) :
    Grows logText r (RedisStore.run logText o r).2 := by
  cases o with
  | acquireLease owner ttlMs now =>
    simp only [RedisStore.run, RedisRecord.acquireLease]
    split
    · exact .refl r
    · exact .of_log rfl rfl
  | renewLease l ttlMs now =>
    simp only [RedisStore.run, RedisRecord.renewLease]
    split
    · exact .of_log rfl rfl
    · exact .refl r
  | releaseLease l =>
    simp only [RedisStore.run, RedisRecord.releaseLease]
    split
    · exact .of_log rfl rfl
    · exact .refl r
  | write l w => exact grows_write l w r

theorem grows_serve (o : TableOp ι) (r : RedisRecord ι) :
    Grows logText r (RedisStore.serve logText o r) := by
  cases o with
  | call o =>
    cases o with
    | lease o => exact grows_run o r
    | saveStateUnfenced patch => exact .of_log rfl rfl
    | retryParked ids => exact grows_retryParked ids r
    | discardParked ids => exact grows_discardParked ids r
    | pruneLog olderThan => exact grows_pruneLog olderThan r
    | _ => exact .refl r
  | deleteKey =>
    refine ⟨rfl, ?_⟩
    intro text e he
    cases he
  | clearItems => exact .of_log rfl rfl
  | _ => exact .refl r

end Grows

/-! ## All calls -/

namespace RedisClient

variable {c : RedisClient ι} {recs : RedisRecords ι}

/-- One call on the records of all keys. -/
def next (c : RedisClient ι) (key : PKey) (o : TableOp ι) (recs : RedisRecords ι) : RedisRecords ι :=
  Function.update recs key (RedisStore.serve c.json.logged.stringify o (recs key))

/-- The records after some calls. -/
def records (c : RedisClient ι) (calls : List (Call ι)) : RedisRecords ι :=
  (calls.map Call.named).foldl (fun recs call => c.next call.1 call.2 recs) fun key => { key }

/-- Each record is the one of its key, and its log has the texts of its entries. -/
def Kept (c : RedisClient ι) (recs : RedisRecords ι) : Prop :=
  ∀ key, (recs key).key = key ∧ Texts c.json (recs key)

theorem Kept.next (h : c.Kept recs) (key : PKey) (o : TableOp ι) : c.Kept (c.next key o recs) := by
  intro key'
  unfold RedisClient.next
  by_cases hkey : key' = key
  · subst hkey
    rw [Function.update_self]
    have hgrows : Grows c.json.logged.stringify _ _ := grows_serve o (recs key')
    refine ⟨hgrows.key.trans (h key').1, ?_⟩
    intro text e he
    -- an entry from before, or one that the call has added under its text
    rcases hgrows.log text e he with hold | htext
    · exact (h key').2 text e hold
    · exact htext
  · rw [Function.update_of_ne hkey]
    exact h key'

theorem kept_fresh : c.Kept fun key => { key } := by
  intro key
  refine ⟨rfl, ?_⟩
  intro text e he
  cases he

theorem Kept.perform (h : c.Kept recs) (server : RedisServer) (key : PKey) (o : TableOp ι) :
    c.layout.Meets recs (c.perform server key o) fun a recs' =>
      RedisStore.Answers c.json.logged.stringify (recs key) o a ∧ recs' = c.next key o recs :=
  serves_perform server (h key).1 (h key).2 o recs rfl

theorem Kept.run (h : c.Kept recs) (calls : List (Call ι)) :
    c.layout.Meets recs (c.run calls) fun _ recs' => c.Kept recs' ∧
      recs' = (calls.map Call.named).foldl (fun recs call => c.next call.1 call.2 recs) recs := by
  induction calls generalizing recs with
  | nil => exact Layout.meets_pure ⟨h, rfl⟩
  | cons call calls ih =>
    refine (h.perform call.server call.key call.op).bind ?_
    rintro a recs' ⟨-, rfl⟩
    exact ih (h.next call.key call.op)

/-- The record of a key is the one that the calls on it leave. -/
theorem records_key (calls : List (Call ι)) (key : PKey) :
    c.records calls key =
      RedisStore.served c.json.logged.stringify key (callsOn key (calls.map Call.named)) := by
  have hlocal : Local (fun key (recs : RedisRecords ι) => recs key) c.next
      (fun _ o r => RedisStore.serve c.json.logged.stringify o r) := by
    constructor
    · intro key o recs
      exact Function.update_self ..
    · intro key key' o recs hne
      exact Function.update_of_ne hne ..
  exact hlocal.cell_run (calls.map Call.named) _ key

/-- A database without the keys of the store shows fresh records. -/
theorem shows_fresh {rest : Db}
    (hrest : ∀ {k : Kind} (s : RedisSlot k), rest (c.slotName s) = Value.none_) :
    c.layout.Shows rest rest fun key => { key } where
  slots := by
    intro k s
    show (rest (c.slotName s)).Holds k (c.slotContent _ s)
    rw [hrest s]
    have hnone : Value.none_.as k = some OrderedMap.empty := by cases k <;> rfl
    refine ⟨OrderedMap.empty, hnone, ?_⟩
    intro f
    cases s with
    | keysSet =>
      show none = listing _ f
      simp [listing]
    | of key part =>
      cases part with
      | meta_ =>
        show none = RedisMeta.field {} f
        simp [RedisMeta.field]
      | _ => rfl
  others := fun _ _ => rfl

end RedisClient

/-! ## The memory store -/

section Agreement

variable {logText : LoggedEvent ι → String} {rec : KeyRecord ι} {r : RedisRecord ι} {key : PKey}
  {ops : List (TableOp ι)}

theorem refines_fresh (key : PKey) : Refines logText (.fresh key) { key } where
  key := rfl
  whole := .free rfl rfl
  lease := rfl
  counter := rfl
  state := rfl
  items := rfl
  outbox := ⟨fun _ => rfl, fun _ => rfl⟩
  parked := rfl
  hold := fun _ => rfl
  validators := rfl
  log := rfl

/-- Each call keeps the relation. -/
theorem Refines.serve (hText : ∀ e e' : LoggedEvent ι, logText e = logText e' →
    e.sequence = e'.sequence) (h : Refines logText rec r) (o : TableOp ι) (hnew : LogsNew rec o) :
    Refines logText (MemoryStore.serve o rec).2 (RedisStore.serve logText o r) := by
  cases o with
  | call o => exact h.step hText o fun l w heq => hnew l w (congrArg TableOp.call heq)
  | deleteKey =>
    have hfresh : Refines logText _ _ := refines_fresh rec.key
    rw [← h.key] at hfresh
    simpa only [MemoryStore.serve, RedisStore.serve, RedisRecord.deleteKey, h.key] using hfresh
  | clearItems =>
    exact ⟨h.key, whole_of_meta h.whole rfl, h.lease, h.counter, h.state, rfl,
      h.outbox.congr ⟨rfl, rfl, rfl, rfl⟩, h.parked, h.hold, h.validators, h.log⟩
  | _ => exact h

/-- The same reply, while the sequences tell the order. -/
theorem Refines.answers (hText : ∀ e e' : LoggedEvent ι, logText e = logText e' →
    e.sequence = e'.sequence) (h : Refines logText rec r) (hd : Distinct rec.outbox)
    (hl : (rec.log.map (·.sequence)).Nodup) (o : TableOp ι) (hnew : LogsNew rec o)
    {res : o.Result} (hres : RedisStore.Answers logText r o res) :
    o.SameResult res (MemoryStore.serve o rec).1 := by
  cases o with
  | call o => exact h.reply hText hd hl o (fun l w heq => hnew l w (congrArg TableOp.call heq)) hres
  | deleteKey => trivial
  | clearItems => trivial
  | loadVersions identities =>
    intro id
    show res.get id = (rec.loadVersions (identities.map .string)).get id
    rw [hres id, get_loadVersions, h.items]
    simp
  | streamIdentities =>
    show res.flatten.Perm rec.streamIdentities.flatten
    rw [streamIdentities_flatten, ← h.items]
    exact hres
  | countItems => exact hres.trans (congrArg (fun m => m.keys.length) h.items)

/-- The relation holds after every history without ties. -/
theorem NoTies.refines_served (hText : ∀ e e' : LoggedEvent ι, logText e = logText e' →
    e.sequence = e'.sequence) (h : NoTies key (recent ops)) :
    Refines logText (MemoryStore.served key ops) (RedisStore.served logText key ops) := by
  induction ops using List.reverseRecOn with
  | nil => exact refines_fresh key
  | append_singleton ops o ih =>
    have hserved : RedisStore.served logText key (ops ++ [o]) =
        RedisStore.serve logText o (RedisStore.served logText key ops) := by
      simp [RedisStore.served, List.foldl_append]
    rw [served_snoc, hserved]
    by_cases ho : o = .deleteKey
    · -- whatever came before, nothing is left of it
      subst ho
      have hkey : (RedisStore.served logText key ops).key = key :=
        (Grows.foldl (f := fun r o => RedisStore.serve logText o r)
          (fun r o => grows_serve o r) ops { key }).key
      have hfresh : Refines logText _ _ := refines_fresh key
      simpa only [MemoryStore.serve, served_key, RedisStore.serve, RedisRecord.deleteKey, hkey]
        using hfresh
    · exact (ih (h.before ho)).serve hText o h.logsNew

end Agreement

/-- On a database without the keys of the store every run of calls, on any keys, succeeds: a call
after it replies as the memory store does after the calls on the same key, as long as those since
its last deletion give no two rows one sequence. Keys of others are left alone. -/
theorem redis_serves_memory (c : RedisClient ι) (rest : Db)
    (hrest : ∀ {k : Kind} (s : RedisSlot k), rest (c.slotName s) = Value.none_)
    (calls : List (RedisClient.Call ι)) :
    ∃ db, c.run calls rest = .ok () db ∧
      (∀ name, (∀ {k : Kind} (s : RedisSlot k), c.slotName s ≠ name) → db name = rest name) ∧
      ∀ call : RedisClient.Call ι, ∃ res db',
        c.perform call.server call.key call.op db = .ok res db' ∧
          (NoTies call.key (recent (callsOn call.key (calls.map (·.named)) ++ [call.op])) →
            call.op.SameResult res (MemoryStore.serve call.op
              (MemoryStore.served call.key (callsOn call.key (calls.map (·.named))))).1) := by
  have hText : ∀ e e' : LoggedEvent ι, c.json.logged.stringify e = c.json.logged.stringify e' →
      e.sequence = e'.sequence := by
    intro e e' heq
    have hparse := congrArg c.json.logged.parse heq
    rw [c.json.logged.parse_stringify, c.json.logged.parse_stringify] at hparse
    rw [Option.some.inj hparse]
  have hfresh := RedisClient.kept_fresh (c := c)
  -- the commands follow the records through the whole run, with ties or without
  obtain ⟨done, recs, db, hrun, hshows, hkept, hrecs⟩ :=
    hfresh.run calls rest rest (RedisClient.shows_fresh hrest)
  refine ⟨db, hrun, hshows.others, ?_⟩
  rintro ⟨key, o, server⟩
  obtain ⟨res, recs', db', hperform, -, hanswers, -⟩ := hkept.perform server key o rest db hshows
  refine ⟨res, db', hperform, ?_⟩
  intro hties
  -- a deletion leaves no recent calls, so it says nothing about those before it
  by_cases ho : o = .deleteKey
  · subst ho
    trivial
  · have hrec : recs key = RedisStore.served c.json.logged.stringify key
        (callsOn key (calls.map (·.named))) := by
      rw [hrecs]
      exact RedisClient.records_key calls key
    rw [hrec] at hanswers
    have hbefore := hties.before ho
    obtain ⟨items, heq⟩ := served_eq key (callsOn key (calls.map (·.named)))
    refine (hbefore.refines_served hText).answers hText hbefore.distinct_served ?_ o
      hties.logsNew hanswers
    rw [heq]
    exact hbefore.logs.1

/-! ## A sample run -/

/-- The server replies in the order in which it keeps the entries, in one page. -/
def plainServer : RedisServer where
  order := fun values => values
  order_perm := fun values => List.Perm.refl values
  pages := fun fields => [fields]
  pages_all := fun fields f => by simp

/-- A client whose items are empty objects. -/
def unitClient : RedisClient Unit where
  keyPrefix := "watukuy:"
  json := redisJson unitShape fun _ => nofun

/-- A call on another key, then those of `recreatedHistory`. -/
def callsOfTwo : List (RedisClient.Call Unit) :=
  { key := { tieKey with partition := "eu" }, op := .call (.saveStateUnfenced {}),
    server := plainServer } ::
    recreatedHistory.map fun op => { key := tieKey, op, server := plainServer }

/-- The event after the deletion is loaded, whose sequence is that of the one before. -/
theorem redis_serves_memory_sample : ∃ db,
    unitClient.run callsOfTwo Db.empty = .ok () db ∧ ∃ rows db',
      unitClient.perform plainServer tieKey (.call (.loadPending 10)) db = .ok rows db' ∧
        rows = (MemoryStore.serve (.call (.loadPending 10))
          (MemoryStore.served tieKey recreatedHistory)).1 := by
  obtain ⟨db, hrun, -, hcalls⟩ :=
    redis_serves_memory unitClient Db.empty (fun _ => rfl) callsOfTwo
  obtain ⟨rows, db', hperform, hsame⟩ := hcalls ⟨tieKey, .call (.loadPending 10), plainServer⟩
  have hcallsOn : callsOn tieKey (callsOfTwo.map (·.named)) = recreatedHistory := rfl
  rw [hcallsOn] at hsame
  exact ⟨db, hrun, rows, db', hperform, hsame recreatedHistory_noTies⟩

end Watukuy
