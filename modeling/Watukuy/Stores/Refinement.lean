import Watukuy.Stores.Leases
import Std.Data.String.ToNat

/-!
# The Redis store and the memory store

`RedisStore` keeps one logical row in up to four hashes and sorted sets; `Refines` says which record
of the memory store such a split record stands for. Every call keeps the relation (`Refines.step`),
and the replies are the same (`Refines.reply`) as long as no two pending rows share a sequence: the
memory store would return those in the order of their insertion, Redis in the order of their ids.
-/

set_option autoImplicit false

namespace Watukuy

open Library

variable {ι : Type}

/-! ## The calls -/

/-- The calls of a store on one key. -/
inductive StateOp (ι : Type) where
  | lease (o : LeaseOp ι)
  | getLease
  | loadState
  | saveStateUnfenced (patch : StatePatch)
  | loadPending (limit : Nat)
  | countPending
  | listParked (kind : Option ParkedKind) (limit : Option Nat)
  | countParked
  | retryParked (ids : List String)
  | discardParked (ids : List String)
  | heldKeys
  | getValidator (urlHash : String)
  | readLog (range : KeyRecord.LogRange) (limit : Nat)
  | pruneLog (olderThan : Int)

/-- What a call resolves to; a write may reject. -/
@[reducible] def StateOp.Result : StateOp ι → Type
  | .lease _ => LeaseAnswer
  | .getLease => Option Lease
  | .loadState => Option PollerState
  | .saveStateUnfenced _ => Unit
  | .loadPending _ => List (OutboxRow ι)
  | .countPending => Nat
  | .listParked _ _ => List (ParkedRow ι)
  | .countParked => Nat
  | .retryParked _ => Nat
  | .discardParked _ => Nat
  | .heldKeys => Set String
  | .getValidator _ => Option Validator
  | .readLog _ _ => List (LoggedEvent ι)
  | .pruneLog _ => Nat

namespace MemoryStore

def perform : (o : StateOp ι) → KeyRecord ι → o.Result × KeyRecord ι
  | .lease o, rec => run o rec
  | .getLease, rec => (rec.lease, rec)
  | .loadState, rec => (rec.state, rec)
  | .saveStateUnfenced patch, rec => ((), rec.applyPatch patch)
  | .loadPending limit, rec => (rec.loadPending limit, rec)
  | .countPending, rec => (rec.countPending, rec)
  | .listParked kind limit, rec => (rec.listParked kind limit, rec)
  | .countParked, rec => (rec.parked.keys.length, rec)
  | .retryParked ids, rec => rec.retryParked ids
  | .discardParked ids, rec => rec.discardParked ids
  | .heldKeys, rec => ({ k | k ∈ rec.heldKeys }, rec)
  | .getValidator urlHash, rec => (rec.validators.get urlHash, rec)
  | .readLog range limit, rec => (rec.readLog range limit, rec)
  | .pruneLog olderThan, rec => rec.pruneLog olderThan

/-- The record of a key after some calls. -/
def after (key : PKey) (ops : List (StateOp ι)) : KeyRecord ι :=
  ops.foldl (fun rec o => (perform o rec).2) (.fresh key)

end MemoryStore

namespace RedisStore

def next (logText : LoggedEvent ι → String) : StateOp ι → RedisRecord ι → RedisRecord ι
  | .lease o, r => (run logText o r).2
  | .saveStateUnfenced patch, r => r.saveStateUnfenced patch
  | .retryParked ids, r => (r.retryParked ids).2
  | .discardParked ids, r => (r.discardParked ids).2
  | .pruneLog olderThan, r => (r.pruneLog olderThan).2
  | _, r => r

/-- The replies to a call. `HVALS` gives the values of a hash in some order. -/
def Replies (logText : LoggedEvent ι → String) (r : RedisRecord ι) : (o : StateOp ι) → o.Result → Prop
  | .lease o, res => res = (run logText o r).1
  | .getLease, res => res = r.getLease
  | .loadState, res => res = r.state
  | .saveStateUnfenced _, res => res = ()
  | .loadPending limit, res => res = r.loadPending limit
  | .countPending, res => res = r.countPending
  | .listParked kind limit, res =>
    ∃ values : List (ParkedRow ι), values.Perm r.parked.values ∧
      res = RedisRecord.listParked values kind limit
  | .countParked, res => res = r.countParked
  | .retryParked ids, res => res = (r.retryParked ids).1
  | .discardParked ids, res => res = (r.discardParked ids).1
  | .heldKeys, res =>
    ∃ values : List String, values.Perm r.hold.values ∧ res = { k | k ∈ values }
  | .getValidator urlHash, res => res = r.validators.get urlHash
  | .readLog range limit, res => res = r.readLog range limit
  | .pruneLog olderThan, res => res = (r.pruneLog olderThan).1

/-- The record of a key after some calls. -/
def after (logText : LoggedEvent ι → String) (key : PKey) (ops : List (StateOp ι)) : RedisRecord ι :=
  ops.foldl (fun r o => next logText o r) { key }

end RedisStore

/-- The same parked rows, except for the order of rows that were parked at the same time: both are
the first rows of one set, by the time they were parked. -/
def SameParked (limit : Option Nat) (rows rows' : List (ParkedRow ι)) : Prop :=
  ∃ all all' : List (ParkedRow ι), all.Perm all' ∧
    all.Pairwise (fun a b => a.parkedAt ≤ b.parkedAt) ∧
    all'.Pairwise (fun a b => a.parkedAt ≤ b.parkedAt) ∧
    rows = all.take (limit.getD all.length) ∧ rows' = all'.take (limit.getD all'.length)

def SameResult : (o : StateOp ι) → o.Result → o.Result → Prop
  | .listParked _ limit, rows, rows' => SameParked limit rows rows'
  | _, res, res' => res = res'

/-! ## The text of a logged event -/

/-- `JSON.stringify` of `{ sequence, event, createdAt }`. -/
def loggedText (eventText : WatukuyEvent ι → String) (e : LoggedEvent ι) : String :=
  "\x7b\"sequence\":" ++ (Nat.repr e.sequence ++ (",\"event\":" ++ eventText e.event ++
    ",\"createdAt\":" ++ toString e.createdAt ++ "\x7d"))

/-- The text tells the sequence. -/
theorem sequence_of_loggedText (eventText : WatukuyEvent ι → String) {e e' : LoggedEvent ι}
    (h : loggedText eventText e = loggedText eventText e') : e.sequence = e'.sequence := by
  have hdigits : ∀ (n : Nat) (rest : List Char),
      ((Nat.repr n).toList ++ ',' :: rest).takeWhile Char.isDigit = (Nat.repr n).toList := by
    intro n rest
    rw [List.takeWhile_append_of_pos, List.takeWhile_cons_of_neg (by decide), List.append_nil]
    intro c hc
    rw [Nat.toList_repr] at hc
    exact Nat.isDigit_of_mem_toDigits (by decide) (by decide) hc
  have hlist := congrArg String.toList h
  simp only [loggedText, String.toList_append, List.append_cancel_left_eq] at hlist
  have hcut := congrArg (List.takeWhile Char.isDigit) hlist
  have hcomma : (",\"event\":").toList = ',' :: ("\"event\":").toList := by decide
  simp only [hcomma, List.cons_append, hdigits] at hcut
  exact Nat.repr_injective (String.toList_inj.1 hcut)

/-! ## The outbox

The outbox of the memory store, against the row hash, the pending set, and the hashes of attempts
and errors. -/

/-- The score of a row in the pending set. -/
def OutboxRow.score (row : OutboxRow ι) : Option Nat :=
  if row.status = .pending then some row.sequence else none

/-- The split rows of `r` are those of the outbox `m`. -/
structure Outboxes (m : OrderedMap String (OutboxRow ι)) (r : RedisRecord ι) : Prop where
  rows : ∀ id, m.get id = r.pendingRow id
  scores : ∀ id, r.outbox.get id = (m.get id).bind OutboxRow.score

/-- The same four Redis keys of the outbox. -/
structure SameOutbox (r r' : RedisRecord ι) : Prop where
  rows : r'.rows = r.rows
  attempts : r'.attempts = r.attempts
  errors : r'.errors = r.errors
  outbox : r'.outbox = r.outbox

section Outbox

variable {m : OrderedMap String (OutboxRow ι)} {r r' : RedisRecord ι}

theorem Outboxes.congr (h : Outboxes m r) (hr : SameOutbox r r') : Outboxes m r' := by
  constructor
  · intro id
    rw [h.rows, RedisRecord.pendingRow, RedisRecord.pendingRow, hr.rows, hr.attempts, hr.errors]
  · intro id
    rw [hr.outbox]
    exact h.scores id

theorem pendingRow_isSome (r : RedisRecord ι) (id : String) :
    (r.pendingRow id).isSome = (r.rows.get id).isSome := by
  simp [RedisRecord.pendingRow]

/-- A new row without attempts, as `COMMIT_POLL` and `RETRY_PARKED` write it. -/
theorem Outboxes.put (h : Outboxes m r) (row : OutboxRow ι)
    (hrows : r'.rows = r.rows.set row.eventId row)
    (hattempts : r'.attempts = r.attempts.erase row.eventId)
    (herrors : r'.errors = r.errors.erase row.eventId)
    (houtbox : r'.outbox =
      if row.status = .pending then r.outbox.set row.eventId row.sequence
      else r.outbox.erase row.eventId) : Outboxes (m.set row.eventId row) r' := by
  constructor
  · intro id
    rw [RedisRecord.pendingRow, hrows, hattempts, herrors, OrderedMap.get_set, OrderedMap.get_set,
      OrderedMap.get_erase, OrderedMap.get_erase]
    by_cases hid : id = row.eventId
    · simp [hid]
    · simp only [hid, if_false]
      exact h.rows id
  · intro id
    rw [houtbox, OrderedMap.get_set]
    by_cases hid : id = row.eventId
    · by_cases hp : row.status = .pending <;> simp [hid, hp, OutboxRow.score]
    · by_cases hp : row.status = .pending <;>
        simp [hid, hp, OrderedMap.get_set, OrderedMap.get_erase, h.scores]

theorem Outboxes.drop (h : Outboxes m r) (id : String) : Outboxes (m.erase id) (r.dropOutbox id) := by
  constructor
  · intro a
    simp only [RedisRecord.pendingRow, RedisRecord.dropOutbox, OrderedMap.get_erase]
    by_cases ha : a = id
    · simp [ha]
    · simp only [ha, if_false]
      exact h.rows a
  · intro a
    simp only [RedisRecord.dropOutbox, OrderedMap.get_erase]
    by_cases ha : a = id
    · simp [ha]
    · simp only [ha, if_false]
      exact h.scores a

/-- A dropped row takes its attempts and its error along, so that a later row of the id starts
without them. -/
theorem Outboxes.drops (h : Outboxes m r) (ids : List String) :
    Outboxes (m.eraseAll ids) (r.ackEvents ids) := by
  induction ids generalizing m r with
  | nil => exact h
  | cons id ids ih => exact ih (h.drop id)

theorem Outboxes.attempt {rec : KeyRecord ι} (h : Outboxes rec.outbox r) (id : String)
    (error : SerializedError) (nextAttemptAt : Option Int) :
    Outboxes (rec.noteAttempt id (some error) nextAttemptAt).outbox
      (r.recordAttempt id { lastError := some error, nextAttemptAt }) := by
  have hrow := h.rows id
  have hsome := pendingRow_isSome r id
  unfold KeyRecord.noteAttempt RedisRecord.recordAttempt
  cases hm : rec.outbox.get id with
  | none =>
    rw [← hrow, hm] at hsome
    simp only [← hsome, Option.isSome_none]
    exact h
  | some row =>
    rw [← hrow, hm] at hsome
    simp only [← hsome, Option.isSome_some, if_true]
    constructor
    · intro a
      by_cases ha : a = id
      · subst ha
        rw [hm] at hrow
        simp only [RedisRecord.pendingRow, OrderedMap.get_set_self] at hrow ⊢
        obtain ⟨row₀, hrow₀, hdressed⟩ := Option.map_eq_some_iff.1 hrow.symm
        rw [hrow₀, Option.map_some, ← hdressed]
        cases r.attempts.get a <;> cases r.errors.get a <;> simp [Nat.add_assoc]
      · simp only [RedisRecord.pendingRow, OrderedMap.get_set_ne _ ha]
        exact h.rows a
    · intro a
      by_cases ha : a = id
      · subst ha
        simp only [OrderedMap.get_set_self]
        rw [h.scores, hm]
        rfl
      · simp only [OrderedMap.get_set_ne _ ha]
        exact h.scores a

/-- The rows of a commit. -/
theorem Outboxes.commit (h : Outboxes m r) (logText : LoggedEvent ι → String) (log : Bool)
    (rows : List (OutboxRow ι)) :
    Outboxes (m.setAll (·.eventId) rows) (rows.foldl (RedisRecord.commitEvent logText log) r) := by
  induction rows generalizing m r with
  | nil => exact h
  | cons row rows ih => exact ih (h.put row rfl rfl rfl rfl)

/-! ## What the outbox is asked for -/

/-- No two pending rows share a sequence. -/
def Distinct (m : OrderedMap String (OutboxRow ι)) : Prop :=
  ∀ id id' row row', m.get id = some row → m.get id' = some row' → row.status = .pending →
    row'.status = .pending → row.sequence = row'.sequence → id = id'

theorem scores_iff (h : Outboxes m r) {id : String} {n : Nat} :
    (id, n) ∈ r.outbox.entries ↔ ∃ row, m.get id = some row ∧ row.status = .pending ∧
      row.sequence = n := by
  have hget : (id, n) ∈ r.outbox.entries ↔ r.outbox.get id = some n :=
    ⟨OrderedMap.find_of_mem r.outbox.nodup, OrderedMap.mem_of_find⟩
  rw [hget, h.scores]
  cases m.get id with
  | none => simp
  | some row => by_cases hp : row.status = .pending <;> simp [OutboxRow.score, hp]

theorem filterMap_take {α β : Type} {f : α → Option β} {l : List α}
    (h : ∀ a ∈ l, (f a).isSome) (n : Nat) : (l.take n).filterMap f = (l.filterMap f).take n := by
  induction l generalizing n with
  | nil => simp
  | cons a l ih =>
    obtain ⟨b, hb⟩ := Option.isSome_iff_exists.1 (h a List.mem_cons_self)
    cases n with
    | zero => rfl
    | succ n =>
      rw [List.take_succ_cons, List.filterMap_cons_some hb, List.filterMap_cons_some hb,
        List.take_succ_cons, ih fun x hx => h x (List.mem_cons_of_mem _ hx)]

theorem mem_zrange (m : OrderedMap String Nat) (id : String) :
    id ∈ RedisRecord.zrange m ↔ ∃ n, (id, n) ∈ m.entries := by
  simp [RedisRecord.zrange]

/-- The rows of the pending set, in its order. -/
theorem pending_increasing (h : Outboxes m r) (hd : Distinct m) :
    ((RedisRecord.zrange r.outbox).filterMap r.pendingRow).Pairwise
      fun a b => a.sequence < b.sequence := by
  have hscores : (r.outbox.entries.map Prod.snd).Nodup := by
    refine List.Nodup.map_on ?_ (List.Nodup.of_map _ r.outbox.nodup)
    rintro ⟨id, n⟩ hp ⟨id', n'⟩ hp' rfl
    obtain ⟨row, hrow, hpending, hseq⟩ := (scores_iff h).1 hp
    obtain ⟨row', hrow', hpending', hseq'⟩ := (scores_iff h).1 hp'
    rw [hd id id' row row' hrow hrow' hpending hpending' (hseq.trans hseq'.symm)]
  have hsorted := insertionSort_byRank Prod.snd Prod.fst r.outbox.entries
  have hperm := List.perm_insertionSort (ByRank Prod.snd Prod.fst) r.outbox.entries
  have hincreasing := increasing_of_sorted Prod.snd hsorted ((hperm.map Prod.snd).nodup_iff.2 hscores)
  unfold RedisRecord.zrange
  rw [List.filterMap_map, List.pairwise_filterMap]
  refine hincreasing.imp_of_mem ?_
  rintro ⟨id, n⟩ ⟨id', n'⟩ hp hp' hlt row hrow row' hrow'
  -- the score of a row is its sequence
  obtain ⟨row₀, hrow₀, -, hseq⟩ := (scores_iff h).1 (hperm.mem_iff.1 hp)
  obtain ⟨row₀', hrow₀', -, hseq'⟩ := (scores_iff h).1 (hperm.mem_iff.1 hp')
  have hsame : row = row₀ := Option.some.inj (hrow.symm.trans ((h.rows id).symm.trans hrow₀))
  have hsame' : row' = row₀' := Option.some.inj (hrow'.symm.trans ((h.rows id').symm.trans hrow₀'))
  rw [hsame, hsame', hseq, hseq']
  exact hlt

theorem pendingRows_increasing {rec : KeyRecord ι} (hd : Distinct rec.outbox) :
    rec.pendingRows.Pairwise fun a b => a.sequence < b.sequence := by
  refine increasing_of_sorted OutboxRow.sequence (List.pairwise_insertionSort _ _) ?_
  have hperm := List.perm_insertionSort (fun a b : OutboxRow ι => a.sequence ≤ b.sequence)
    (rec.outbox.values.filter fun r => r.status = .pending)
  refine (hperm.map _).nodup_iff.2 ?_
  rw [OrderedMap.values, List.filter_map, List.map_map]
  refine List.Nodup.map_on ?_ ((List.Nodup.of_map _ rec.outbox.nodup).filter _)
  rintro ⟨id, row⟩ hp ⟨id', row'⟩ hp' hseq
  obtain ⟨hmem, hpending⟩ := List.mem_filter.1 hp
  obtain ⟨hmem', hpending'⟩ := List.mem_filter.1 hp'
  have hget := OrderedMap.find_of_mem rec.outbox.nodup hmem
  have hget' := OrderedMap.find_of_mem rec.outbox.nodup hmem'
  have hid := hd id id' row row' hget hget' (by simpa using hpending) (by simpa using hpending') hseq
  subst hid
  rw [Option.some.inj (hget.symm.trans hget')]

/-- Both stores load the same rows. -/
theorem loadPending_eq {rec : KeyRecord ι} (h : Outboxes rec.outbox r) (hd : Distinct rec.outbox)
    (limit : Nat) : r.loadPending limit = rec.loadPending limit := by
  have hall : (RedisRecord.zrange r.outbox).filterMap r.pendingRow = rec.pendingRows := by
    refine eq_of_increasing OutboxRow.sequence (pending_increasing h hd) (pendingRows_increasing hd) ?_
    intro row
    rw [KeyRecord.pendingRows, List.mem_insertionSort, List.mem_filter, OrderedMap.mem_values_iff,
      List.mem_filterMap]
    constructor
    · rintro ⟨id, hid, hrow⟩
      obtain ⟨n, hn⟩ := (mem_zrange r.outbox id).1 hid
      obtain ⟨row₀, hrow₀, hpending, -⟩ := (scores_iff h).1 hn
      obtain rfl := Option.some.inj (hrow.symm.trans ((h.rows id).symm.trans hrow₀))
      exact ⟨⟨id, hrow₀⟩, by simpa using hpending⟩
    · rintro ⟨⟨id, hrow⟩, hpending⟩
      refine ⟨id, (mem_zrange r.outbox id).2 ⟨row.sequence, ?_⟩, (h.rows id).symm.trans hrow⟩
      exact (scores_iff h).2 ⟨row, hrow, by simpa using hpending, rfl⟩
  have hsome : ∀ id ∈ RedisRecord.zrange r.outbox, (r.pendingRow id).isSome := by
    intro id hid
    obtain ⟨n, hn⟩ := (mem_zrange r.outbox id).1 hid
    obtain ⟨row, hrow, -⟩ := (scores_iff h).1 hn
    rw [← h.rows, hrow]
    rfl
  rw [RedisRecord.loadPending, filterMap_take hsome, hall, KeyRecord.loadPending]

theorem countPending_eq {rec : KeyRecord ι} (h : Outboxes rec.outbox r) :
    r.countPending = rec.countPending := by
  have hkeys : r.outbox.keys.Perm
      ((rec.outbox.entries.filter fun p => p.2.status = .pending).map Prod.fst) := by
    refine (List.perm_ext_iff_of_nodup r.outbox.keys_nodup
      (rec.outbox.nodup.sublist (List.filter_sublist.map _))).2 ?_
    intro id
    simp only [OrderedMap.keys, List.mem_map, List.mem_filter, Prod.exists, exists_and_right,
      exists_eq_right]
    constructor
    · rintro ⟨n, hn⟩
      obtain ⟨row, hrow, hpending, -⟩ := (scores_iff h).1 hn
      exact ⟨row, OrderedMap.mem_of_find hrow, by simpa using hpending⟩
    · rintro ⟨row, hrow, hpending⟩
      have hget := OrderedMap.find_of_mem rec.outbox.nodup hrow
      exact ⟨row.sequence, (scores_iff h).2 ⟨row, hget, by simpa using hpending, rfl⟩⟩
  rw [RedisRecord.countPending, hkeys.length_eq, KeyRecord.countPending, OrderedMap.values,
    List.filter_map, List.length_map, List.length_map]
  rfl

end Outbox

/-! ## The simulation -/

/-- The hold hash has the hold keys of the parked rows. -/
def Holds (parked : OrderedMap String (ParkedRow ι)) (hold : OrderedMap String String) : Prop :=
  ∀ id, hold.get id = (parked.get id).bind (·.holdKey)

/-- The event as the log keeps it. -/
def OutboxRow.logged (row : OutboxRow ι) : LoggedEvent ι :=
  { sequence := row.sequence, event := row.event, createdAt := row.createdAt }

/-- The record that the split record `r` stands for. -/
structure Refines (logText : LoggedEvent ι → String) (rec : KeyRecord ι) (r : RedisRecord ι) :
    Prop where
  key : r.key = rec.key
  whole : RedisStore.Whole r
  lease : r.getLease = rec.lease
  counter : r.meta_.epochCounter = rec.epochCounter
  state : r.state = rec.state
  items : r.items = rec.items
  outbox : Outboxes rec.outbox r
  parked : r.parked = rec.parked
  hold : Holds rec.parked r.hold
  validators : r.validators = rec.validators
  log : r.log.entries = rec.log.map fun e => (logText e, e)

section Parts

variable {parked : OrderedMap String (ParkedRow ι)} {hold : OrderedMap String String}
  {r : RedisRecord ι} {logText : LoggedEvent ι → String}

theorem Holds.set (h : Holds parked hold) (row : ParkedRow ι) :
    Holds (parked.set row.id row) (RedisRecord.setOrDelete hold row.id row.holdKey) := by
  intro id
  by_cases hid : id = row.id
  · subst hid
    cases hk : row.holdKey <;> simp [RedisRecord.setOrDelete, hk]
  · have hsame := h id
    cases hk : row.holdKey <;>
      simpa [RedisRecord.setOrDelete, OrderedMap.get_set_ne _ hid, OrderedMap.get_erase_ne _ hid]

theorem Holds.erase (h : Holds parked hold) (id : String) :
    Holds (parked.erase id) (hold.erase id) := by
  intro a
  rw [OrderedMap.get_erase, OrderedMap.get_erase]
  by_cases ha : a = id
  · simp [ha]
  · simp only [ha, if_false]
    exact h a

/-- The events of a commit touch the outbox and the log. -/
theorem commitEvents_rest (logText : LoggedEvent ι → String) (log : Bool)
    (rows : List (OutboxRow ι)) (r : RedisRecord ι) :
    ∃ rs as es ob lg, rows.foldl (RedisRecord.commitEvent logText log) r =
      { r with rows := rs, attempts := as, errors := es, outbox := ob, log := lg } := by
  induction rows generalizing r with
  | nil => exact ⟨r.rows, r.attempts, r.errors, r.outbox, r.log, rfl⟩
  | cons row rows ih =>
    obtain ⟨rs, as, es, ob, lg, heq⟩ := ih (r.commitEvent logText log row)
    exact ⟨rs, as, es, ob, lg, heq⟩

/-- The parked rows of a commit touch the parked rows and their hold keys. -/
theorem setParkeds_rest (rows : List (ParkedRow ι)) (r : RedisRecord ι)
    (h : Holds r.parked r.hold) :
    ∃ hs, rows.foldl RedisRecord.setParked r =
      { r with parked := r.parked.setAll (·.id) rows, hold := hs } ∧
        Holds (r.parked.setAll (·.id) rows) hs := by
  induction rows generalizing r with
  | nil => exact ⟨r.hold, rfl, h⟩
  | cons row rows ih => exact ih (r.setParked row) (h.set row)

/-- The logged events of a commit go to the end, each under a text of its own. -/
theorem commitEvents_log (hText : ∀ e e' : LoggedEvent ι, logText e = logText e' →
    e.sequence = e'.sequence) (rows : List (OutboxRow ι)) {logged : List (LoggedEvent ι)}
    (h : r.log.entries = logged.map fun e => (logText e, e))
    (hn : (logged.map (·.sequence) ++ rows.map (·.sequence)).Nodup) :
    (rows.foldl (RedisRecord.commitEvent logText true) r).log.entries =
      (logged ++ rows.map (·.logged)).map fun e => (logText e, e) := by
  induction rows generalizing r logged with
  | nil => simpa using h
  | cons row rows ih =>
    have hfresh : logText row.logged ∉ r.log.keys := by
      intro hmem
      rw [OrderedMap.keys, h, List.map_map] at hmem
      obtain ⟨e, he, htext⟩ := List.mem_map.1 hmem
      have hseq : e.sequence = row.sequence := hText e row.logged htext
      refine (List.nodup_append.1 hn).2.2 e.sequence (List.mem_map_of_mem he) row.sequence ?_ hseq
      exact List.mem_cons_self
    have hstep : (r.commitEvent logText true row).log.entries =
        (logged ++ [row.logged]).map fun e => (logText e, e) := by
      have hset := r.log.entries_set_of_fresh hfresh row.logged
      rw [h] at hset
      rw [List.map_append]
      exact hset
    have hrest := ih hstep (by simpa [List.append_assoc, OutboxRow.logged] using hn)
    simpa [List.append_assoc] using hrest

theorem commitEvents_unlogged (rows : List (OutboxRow ι)) (r : RedisRecord ι) :
    (rows.foldl (RedisRecord.commitEvent logText false) r).log = r.log := by
  induction rows generalizing r with
  | nil => rfl
  | cons row rows ih => exact ih _

end Parts

/-! ## One call -/

/-- The rows a write commits. -/
def FencedWrite.rows : FencedWrite ι → List (OutboxRow ι)
  | .commitPoll batch => batch.events
  | _ => []

/-- The sequences a write adds to the log. -/
def FencedWrite.logs : FencedWrite ι → List Nat
  | .commitPoll batch => if batch.log then batch.events.map (·.sequence) else []
  | _ => []

section Steps

variable {logText : LoggedEvent ι → String} {rec : KeyRecord ι} {r r' : RedisRecord ι}

theorem whole_of_meta (hw : RedisStore.Whole r) (h : r'.meta_ = r.meta_) : RedisStore.Whole r' :=
  hw.congr h

theorem Refines.fenced (h : Refines logText rec r) (l : Lease) : r.fenced l = rec.holds l := by
  have hholds := RedisStore.register_holds h.whole l
  have hmemory := MemoryStore.register_holds rec l
  have hsame : RedisStore.register r = MemoryStore.register rec := by
    rw [RedisStore.register, MemoryStore.register, h.lease, h.counter]
  rw [hsame, hmemory] at hholds
  exact Bool.eq_iff_iff.2 hholds.symm

theorem Refines.heldByOther (h : Refines logText rec r) (owner : String) (now : Int) :
    r.heldByOther owner now = rec.heldByOther owner now := by
  have hblocks := RedisStore.register_blocks h.whole owner now
  have hmemory := MemoryStore.register_blocks rec owner now
  have hsame : RedisStore.register r = MemoryStore.register rec := by
    rw [RedisStore.register, MemoryStore.register, h.lease, h.counter]
  rw [hsame, hmemory] at hblocks
  exact Bool.eq_iff_iff.2 hblocks.symm

/-- The lease changes, and nothing else. -/
theorem Refines.leased (h : Refines logText rec r) {m : RedisMeta} {lease : Option Lease}
    {counter : Nat} {listed : Bool} (hwhole : RedisStore.Whole { r with meta_ := m })
    (hlease : ({ r with meta_ := m } : RedisRecord ι).getLease = lease)
    (hcounter : m.epochCounter = counter) :
    Refines logText { rec with lease, epochCounter := counter } { r with meta_ := m, listed } where
  key := h.key
  whole := whole_of_meta hwhole rfl
  lease := hlease
  counter := hcounter
  state := h.state
  items := h.items
  outbox := h.outbox.congr ⟨rfl, rfl, rfl, rfl⟩
  parked := h.parked
  hold := h.hold
  validators := h.validators
  log := h.log

/-- `applyPatch` and `APPLY_STATE`. -/
theorem Refines.patched (h : Refines logText rec r) (patch : StatePatch) (listed : Bool) :
    Refines logText (rec.applyPatch patch) { r.applyState patch with listed } where
  key := h.key
  whole := whole_of_meta h.whole rfl
  lease := h.lease
  counter := h.counter
  state := by simp only [RedisRecord.applyState, KeyRecord.applyPatch, h.state]
  items := h.items
  outbox := h.outbox.congr ⟨rfl, rfl, rfl, rfl⟩
  parked := h.parked
  hold := h.hold
  validators := h.validators
  log := h.log

/-- A parked row, with the row of the outbox that it takes the place of. -/
theorem Refines.park (h : Refines logText rec r) (row : ParkedRow ι) :
    Refines logText (rec.park row) (r.parkEvent row) := by
  have houtbox : Outboxes (rec.park row).outbox (r.parkEvent row) := by
    unfold KeyRecord.park RedisRecord.parkEvent
    cases row.event with
    | none => exact h.outbox.congr ⟨rfl, rfl, rfl, rfl⟩
    | some event =>
      have hset : Outboxes rec.outbox (r.setParked row) := h.outbox.congr ⟨rfl, rfl, rfl, rfl⟩
      exact (hset.drop event.id).congr ⟨rfl, rfl, rfl, rfl⟩
  have hrest : ∃ rs as es ob, r.parkEvent row =
      { r with
        parked := r.parked.set row.id row
        hold := RedisRecord.setOrDelete r.hold row.id row.holdKey
        rows := rs, attempts := as, errors := es, outbox := ob, listed := true } := by
    unfold RedisRecord.parkEvent
    cases row.event <;> exact ⟨_, _, _, _, rfl⟩
  obtain ⟨rs, as, es, ob, hrest⟩ := hrest
  rw [hrest] at houtbox ⊢
  exact
    { key := h.key
      whole := whole_of_meta h.whole rfl
      lease := h.lease
      counter := h.counter
      state := h.state
      items := h.items
      outbox := houtbox
      parked := congrArg (fun p => p.set row.id row) h.parked
      hold := h.hold.set row
      validators := h.validators
      log := h.log }

theorem Refines.commit (hText : ∀ e e' : LoggedEvent ι, logText e = logText e' →
    e.sequence = e'.sequence) (h : Refines logText rec r) (batch : CommitBatch ι)
    (hn : (rec.log.map (·.sequence) ++
      if batch.log then batch.events.map (·.sequence) else []).Nodup) :
    Refines logText (rec.commit batch) (r.commitPoll logText batch) := by
  -- the state and the items first, then the events, then the parked rows
  have hpatched := h.patched batch.statePatch r.listed
  let stored : RedisRecord ι :=
    { r.applyState batch.statePatch with
      items := ((r.applyState batch.statePatch).items.setAll (·.identity) batch.upserts).eraseAll
        batch.deletes }
  have hqueued : Outboxes (rec.outbox.setAll (·.eventId) batch.events)
      (batch.events.foldl (RedisRecord.commitEvent logText batch.log) stored) :=
    Outboxes.commit (r := stored) (h.outbox.congr ⟨rfl, rfl, rfl, rfl⟩) logText batch.log batch.events
  have hlog : (batch.events.foldl (RedisRecord.commitEvent logText batch.log) stored).log.entries =
      (rec.commit batch).log.map fun e => (logText e, e) := by
    have hstored : stored.log.entries = rec.log.map fun e => (logText e, e) := h.log
    cases hb : batch.log with
    | true =>
      rw [hb, if_pos rfl] at hn
      simpa [KeyRecord.commit, hb, OutboxRow.logged] using
        commitEvents_log hText batch.events hstored hn
    | false => simpa [KeyRecord.commit, hb, commitEvents_unlogged] using hstored
  obtain ⟨rs, as, es, ob, lg, hevents⟩ := commitEvents_rest logText batch.log
    batch.events stored
  have hcommit : r.commitPoll logText batch = { batch.parked.foldl RedisRecord.setParked
      (batch.events.foldl (RedisRecord.commitEvent logText batch.log) stored) with
        listed := true } := rfl
  rw [hevents] at hqueued hlog hcommit
  obtain ⟨hs, hparkeds, hholds⟩ := setParkeds_rest batch.parked
    { stored with rows := rs, attempts := as, errors := es, outbox := ob, log := lg }
    (show Holds stored.parked stored.hold from h.parked ▸ h.hold)
  rw [hcommit, hparkeds]
  exact
    { key := h.key
      whole := whole_of_meta h.whole rfl
      lease := h.lease
      counter := h.counter
      state := hpatched.state
      items := by
        have hitems := h.items
        simp only [stored, RedisRecord.applyState, KeyRecord.commit, hitems]
      outbox := hqueued.congr ⟨rfl, rfl, rfl, rfl⟩
      parked := congrArg (fun p => p.setAll (·.id) batch.parked) h.parked
      hold := by
        rw [show stored.parked = rec.parked from h.parked] at hholds
        exact hholds
      validators := h.validators
      log := hlog }

/-- A fenced write, past the fence. -/
theorem Refines.apply (hText : ∀ e e' : LoggedEvent ι, logText e = logText e' →
    e.sequence = e'.sequence) (h : Refines logText rec r) (w : FencedWrite ι)
    (hn : (rec.log.map (·.sequence) ++ w.logs).Nodup) :
    Refines logText (MemoryStore.apply w rec) (RedisStore.apply logText w r) := by
  cases w with
  | saveState patch => exact h.patched patch true
  | commitPoll batch => exact h.commit hText batch hn
  | ackEvents ids =>
    have houtbox := h.outbox.drops ids
    have hrest : ∀ (ids : List String) (r : RedisRecord ι), ∃ rs as es ob, r.ackEvents ids =
        { r with rows := rs, attempts := as, errors := es, outbox := ob } := by
      intro ids
      induction ids with
      | nil => exact fun r => ⟨_, _, _, _, rfl⟩
      | cons id ids ih =>
        intro r
        obtain ⟨rs, as, es, ob, heq⟩ := ih (r.dropOutbox id)
        exact ⟨rs, as, es, ob, heq⟩
    obtain ⟨rs, as, es, ob, hrest⟩ := hrest ids r
    simp only [MemoryStore.apply, RedisStore.apply, KeyRecord.ack]
    rw [hrest] at houtbox ⊢
    exact { h with whole := whole_of_meta h.whole rfl, outbox := houtbox }
  | recordAttempt id error next =>
    have houtbox := h.outbox.attempt id error next
    simp only [MemoryStore.apply, RedisStore.apply]
    have hmemory : rec.noteAttempt id (some error) next =
        { rec with outbox := (rec.noteAttempt id (some error) next).outbox } := by
      unfold KeyRecord.noteAttempt
      split <;> rfl
    have hredis : r.recordAttempt id { lastError := some error, nextAttemptAt := next } =
        { r with
          attempts := (r.recordAttempt id { lastError := some error, nextAttemptAt := next }).attempts
          errors := (r.recordAttempt id { lastError := some error, nextAttemptAt := next }).errors } := by
      unfold RedisRecord.recordAttempt
      split <;> rfl
    rw [hmemory, hredis]
    rw [hredis] at houtbox
    exact { h with whole := whole_of_meta h.whole rfl, outbox := houtbox }
  | parkEvent row => exact h.park row
  | setValidator urlHash validator =>
    have hvalidators := congrArg (fun v => v.set urlHash validator) h.validators
    exact
      { h with
        whole := whole_of_meta h.whole rfl
        outbox := h.outbox.congr ⟨rfl, rfl, rfl, rfl⟩
        validators := hvalidators }

/-- A call about a lease, or under one. -/
theorem Refines.run (hText : ∀ e e' : LoggedEvent ι, logText e = logText e' →
    e.sequence = e'.sequence) (h : Refines logText rec r) (o : LeaseOp ι)
    (hn : ∀ l w, o = .write l w → rec.holds l = true →
      (rec.log.map (·.sequence) ++ w.logs).Nodup) :
    (RedisStore.run logText o r).1 = (MemoryStore.run o rec).1 ∧
      Refines logText (MemoryStore.run o rec).2 (RedisStore.run logText o r).2 := by
  have hcounter := h.counter
  cases o with
  | acquireLease owner ttlMs now =>
    have hheld := h.heldByOther owner now
    simp only [RedisStore.run, MemoryStore.run, RedisRecord.acquireLease, KeyRecord.acquireLease,
      hheld, hcounter]
    split
    · exact ⟨rfl, h⟩
    · exact ⟨rfl, h.leased (.held owner _ _ rfl rfl rfl) rfl rfl⟩
  | renewLease lease ttlMs now =>
    have hfenced := h.fenced lease
    simp only [RedisStore.run, MemoryStore.run, RedisRecord.renewLease, KeyRecord.renewLease, hfenced]
    split
    · rename_i hholds
      refine ⟨rfl, ?_⟩
      have hlease := h.lease
      rw [← hfenced] at hholds
      cases h.whole with
      | free ho he => simp [RedisRecord.fenced, ho] at hholds
      | held owner epoch expiresAt ho he hx =>
        refine h.leased (.held owner epoch _ ho he rfl) ?_ hcounter
        rw [← hlease]
        simp [RedisRecord.getLease, ho]
    · exact ⟨rfl, h⟩
  | releaseLease lease =>
    have hfenced := h.fenced lease
    simp only [RedisStore.run, MemoryStore.run, RedisRecord.releaseLease, KeyRecord.releaseLease,
      hfenced]
    split
    · exact ⟨trivial, h.leased (.free rfl rfl) rfl hcounter⟩
    · exact ⟨trivial, h⟩
  | write lease w =>
    have hfenced := h.fenced lease
    have hkey := h.key
    simp only [RedisStore.run, MemoryStore.run, RedisStore.write, MemoryStore.write_eq,
      KeyRecord.fenced, hfenced, hkey]
    split
    · rename_i hholds
      exact ⟨rfl, h.apply hText w (hn lease w rfl hholds)⟩
    · exact ⟨rfl, h⟩

/-! ## Parked rows that come back or go -/

/-- One parked row that goes back to the outbox. -/
theorem Refines.retried (h : Refines logText rec r) (id : String) (event : WatukuyEvent ι)
    (parkedAt : Int) :
    Refines logText
      { rec with
        outbox := rec.outbox.set event.id (KeyRecord.retriedRow event parkedAt)
        parked := rec.parked.erase id }
      { r with
        rows := r.rows.set event.id (KeyRecord.retriedRow event parkedAt)
        attempts := r.attempts.erase event.id
        errors := r.errors.erase event.id
        outbox := r.outbox.set event.id event.sequence
        parked := r.parked.erase id
        hold := r.hold.erase id } :=
  { h with
    whole := whole_of_meta h.whole rfl
    outbox := h.outbox.put (KeyRecord.retriedRow event parkedAt) rfl rfl rfl rfl
    parked := congrArg (fun p => p.erase id) h.parked
    hold := h.hold.erase id }

/-- The script moves the rows that the memory store moves: what was read before the script is still
there, or another id of the same call has moved it. -/
theorem Refines.retryRows (h : Refines logText rec r) {r₀ : RedisRecord ι}
    (hread : ∀ id row, rec.parked.get id = some row → r₀.parked.get id = some row)
    (ids : List String) :
    (r.retryRows (r₀.retryArgs ids)).1 = (rec.retryParked ids).1 ∧
      Refines logText (rec.retryParked ids).2 (r.retryRows (r₀.retryArgs ids)).2 := by
  induction ids generalizing rec r with
  | nil => exact ⟨rfl, h⟩
  | cons id ids ih =>
    -- an id that the memory store skips, the script skips too, or does not find
    have hnone : rec.retryOne id = (0, rec) → (r₀.retryArgs (id :: ids) = r₀.retryArgs ids ∨
        ∃ row, r₀.retryArgs (id :: ids) = (id, row) :: r₀.retryArgs ids ∧ rec.parked.get id = none) →
        (r.retryRows (r₀.retryArgs (id :: ids))).1 = (rec.retryParked (id :: ids)).1 ∧
          Refines logText (rec.retryParked (id :: ids)).2
            (r.retryRows (r₀.retryArgs (id :: ids))).2 := by
      intro hone hargs
      have hmemory : rec.retryParked (id :: ids) = rec.retryParked ids := by
        rw [KeyRecord.retryParked, hone]
        simp
      have hredis : r.retryRows (r₀.retryArgs (id :: ids)) = r.retryRows (r₀.retryArgs ids) := by
        rcases hargs with hsame | ⟨row, hcons, hgone⟩
        · rw [hsame]
        · rw [← h.parked] at hgone
          rw [hcons, RedisRecord.retryRows, RedisRecord.retryOne, hgone]
          simp
      rw [hmemory, hredis]
      exact ih h hread
    -- only a parked event is retried: a row that is gone or holds an invalid item is not
    cases hparked : rec.parked.get id with
    | none =>
      refine hnone (by simp [KeyRecord.retryOne, hparked]) ?_
      unfold RedisRecord.retryArgs
      rw [List.filterMap_cons]
      split
      · exact Or.inl rfl
      · rename_i row hrow
        split at hrow
        · obtain rfl := Option.some.inj hrow
          exact Or.inr ⟨_, rfl, hparked⟩
        · cases hrow
    | some row =>
      have hrow := hread id row hparked
      obtain ⟨pid, kind, event, item, error, attempts, parkedAt, holdKey⟩ := row
      cases kind with
      | invalid =>
        refine hnone (by simp [KeyRecord.retryOne, hparked]) (Or.inl ?_)
        simp [RedisRecord.retryArgs, hrow]
      | poison =>
        cases event with
        | none =>
          refine hnone (by simp [KeyRecord.retryOne, hparked]) (Or.inl ?_)
          simp [RedisRecord.retryArgs, hrow]
        | some event =>
          have hargs : r₀.retryArgs (id :: ids) =
              (id, KeyRecord.retriedRow event parkedAt) :: r₀.retryArgs ids := by
            simp [RedisRecord.retryArgs, hrow]
          have hthere : (r.parked.get id).isSome := by simp [h.parked, hparked]
          have hone : rec.retryOne id = (1, { rec with
              outbox := rec.outbox.set event.id (KeyRecord.retriedRow event parkedAt)
              parked := rec.parked.erase id }) := by simp [KeyRecord.retryOne, hparked]
          -- what was read of the other ids is still there after this one has moved
          obtain ⟨hcount, hrest⟩ := ih (h.retried id event parkedAt) (by
            intro a row ha
            simp only [OrderedMap.get_erase] at ha
            split at ha
            · cases ha
            · exact hread a row ha)
          rw [hargs, RedisRecord.retryRows, RedisRecord.retryOne, if_pos hthere, KeyRecord.retryParked,
            hone]
          exact ⟨congrArg (1 + ·) hcount, hrest⟩

theorem Refines.retryParked (h : Refines logText rec r) (ids : List String) :
    (r.retryParked ids).1 = (rec.retryParked ids).1 ∧
      Refines logText (rec.retryParked ids).2 (r.retryParked ids).2 := by
  have hargs : r.retryParked ids = r.retryRows (r.retryArgs ids) := by
    unfold RedisRecord.retryParked
    dsimp only
    cases r.retryArgs ids <;> rfl
  rw [hargs]
  refine h.retryRows ?_ ids
  intro id row hrow
  rw [h.parked]
  exact hrow

theorem nodup_eraseDups {α : Type} [DecidableEq α] : ∀ l : List α, l.eraseDups.Nodup
  | [] => List.nodup_nil
  | a :: as => by
    rw [List.eraseDups_cons, List.nodup_cons, List.mem_eraseDups]
    exact ⟨by simp, nodup_eraseDups _⟩
termination_by l => l.length
decreasing_by
  have hle := List.length_filter_le (fun b => !b == a) as
  rw [List.length_cons]
  omega

/-- `DISCARD_PARKED` counts each id once. -/
theorem discardParked_count (ids : List String) (r : RedisRecord ι) {found : List String}
    (hn : found.Nodup) (hmem : ∀ a, a ∈ found ↔ a ∈ ids ∧ (r.parked.get a).isSome) :
    (r.discardParked ids).1 = found.length := by
  induction ids generalizing r found with
  | nil =>
    have hnil : found = [] := List.eq_nil_iff_forall_not_mem.2 fun a ha => by
      have h := (hmem a).1 ha
      simp at h
    rw [hnil]
    rfl
  | cons id ids ih =>
    have hmem' : ∀ a, a ∈ found.erase id ↔ a ∈ ids ∧ ((r.parked.erase id).get a).isSome := by
      intro a
      rw [hn.mem_erase_iff, hmem, OrderedMap.get_erase]
      by_cases ha : a = id <;> simp [ha]
    have hrest := ih { r with parked := r.parked.erase id, hold := r.hold.erase id } (hn.erase id) hmem'
    rw [RedisRecord.discardParked]
    dsimp only
    rw [hrest]
    by_cases hid : (r.parked.get id).isSome
    · have hin : id ∈ found := (hmem id).2 ⟨List.mem_cons_self, hid⟩
      have hlength := List.length_erase_of_mem hin
      have hpos := List.length_pos_of_mem hin
      simp only [hid, if_true]
      omega
    · have hout : id ∉ found := fun hin => hid ((hmem id).1 hin).2
      simp [hid, List.erase_of_not_mem hout]

theorem Refines.discardParked (h : Refines logText rec r) (ids : List String) :
    (r.discardParked ids).1 = (rec.discardParked ids).1 ∧
      Refines logText (rec.discardParked ids).2 (r.discardParked ids).2 := by
  constructor
  · refine discardParked_count ids r ((nodup_eraseDups ids).filter _) ?_
    intro a
    rw [List.mem_filter, List.mem_eraseDups, h.parked]
  · induction ids generalizing rec r with
    | nil => exact h
    | cons id ids ih =>
      have hnext : Refines logText { rec with parked := rec.parked.erase id }
          { r with parked := r.parked.erase id, hold := r.hold.erase id } :=
        { h with
          whole := whole_of_meta h.whole rfl
          outbox := h.outbox.congr ⟨rfl, rfl, rfl, rfl⟩
          parked := congrArg (fun p => p.erase id) h.parked
          hold := h.hold.erase id }
      exact ih hnext

end Steps

/-! ## The log -/

section Log

variable {logText : LoggedEvent ι → String} {rec : KeyRecord ι} {r : RedisRecord ι}

/-- The pages of `pruneLog` are all members. -/
theorem stalePages_eq (olderThan : Int) (rest : List (String × LoggedEvent ι)) :
    RedisRecord.stalePages olderThan rest =
      (rest.filter fun m => m.2.createdAt < olderThan).map Prod.fst := by
  fun_induction RedisRecord.stalePages with
  | case1 rest stale hlast =>
    have hall : rest.take RedisRecord.logPage = rest := by
      refine List.take_of_length_le ?_
      rw [List.length_take] at hlast
      omega
    simp only [stale, hall]
  | case2 rest stale hmore ih =>
    rw [ih, ← List.map_append, ← List.filter_append, List.take_append_drop]

theorem zrem_append (log : OrderedMap String (LoggedEvent ι)) (ms ms' : List String) :
    RedisRecord.zrem log (ms ++ ms') =
      ((RedisRecord.zrem log ms).1 + (RedisRecord.zrem (RedisRecord.zrem log ms).2 ms').1,
        (RedisRecord.zrem (RedisRecord.zrem log ms).2 ms').2) := by
  induction ms generalizing log with
  | nil => simp [RedisRecord.zrem]
  | cons m ms ih => simp [RedisRecord.zrem, ih, Nat.add_assoc]

/-- Batches of `ZREM` remove what one call would. -/
theorem zremBatches_eq (log : OrderedMap String (LoggedEvent ι)) (stale : List String) :
    RedisRecord.zremBatches log stale = RedisRecord.zrem log stale := by
  fun_induction RedisRecord.zremBatches with
  | case1 log stale hempty =>
    rw [List.isEmpty_iff] at hempty
    rw [hempty]
    rfl
  | case2 log stale hempty n log₁ hbatch m log₂ hrest ih =>
    have hsplit := zrem_append log (stale.take RedisRecord.zremBatch)
      (stale.drop RedisRecord.zremBatch)
    rw [List.take_append_drop, hbatch] at hsplit
    rw [hsplit, ← ih, hrest]

theorem zrem_log (log : OrderedMap String (LoggedEvent ι)) (ms : List String) :
    (RedisRecord.zrem log ms).2 = log.eraseAll ms := by
  induction ms generalizing log with
  | nil => rfl
  | cons m ms ih => exact ih (log.erase m)

theorem zrem_count (log : OrderedMap String (LoggedEvent ι)) {ms : List String} (hn : ms.Nodup)
    (hmem : ∀ m ∈ ms, m ∈ log.keys) : (RedisRecord.zrem log ms).1 = ms.length := by
  induction ms generalizing log with
  | nil => rfl
  | cons m ms ih =>
    obtain ⟨hm, hms⟩ := List.nodup_cons.1 hn
    have hthere := (OrderedMap.mem_keys_iff log m).1 (hmem m List.mem_cons_self)
    have hrest := ih (log.erase m) hms (by
      intro a ha
      have hne : a ≠ m := fun heq => hm (heq ▸ ha)
      rw [OrderedMap.mem_keys_iff, OrderedMap.get_erase_ne log hne, ← OrderedMap.mem_keys_iff]
      exact hmem a (List.mem_cons_of_mem _ ha))
    simp only [RedisRecord.zrem, hthere, if_true, hrest, List.length_cons]
    omega

theorem Refines.pruneLog (h : Refines logText rec r) (olderThan : Int) :
    (r.pruneLog olderThan).1 = (rec.pruneLog olderThan).1 ∧
      Refines logText (rec.pruneLog olderThan).2 (r.pruneLog olderThan).2 := by
  -- the texts of the stale entries
  let stale : List String :=
    (r.log.entries.filter fun m => m.2.createdAt < olderThan).map Prod.fst
  have hperm : (RedisRecord.stalePages olderThan r.logMembers).Perm stale := by
    rw [stalePages_eq]
    exact ((List.perm_insertionSort _ _).filter _).map _
  have hnodup : stale.Nodup := r.log.nodup.sublist (List.filter_sublist.map _)
  have hstale : stale.length = (rec.log.filter fun e => e.createdAt < olderThan).length := by
    simp only [stale, List.length_map]
    rw [h.log, List.filter_map, List.length_map]
    rfl
  have hkept : ((r.log.eraseAll (RedisRecord.stalePages olderThan r.logMembers)).entries) =
      (rec.log.filter fun e => olderThan ≤ e.createdAt).map fun e => (logText e, e) := by
    have hgone : ∀ p ∈ r.log.entries,
        (decide (p.1 ∉ RedisRecord.stalePages olderThan r.logMembers) =
          decide (olderThan ≤ p.2.createdAt)) := by
      intro p hp
      rw [decide_eq_decide, hperm.mem_iff, ← not_lt, not_iff_not]
      simp only [stale, List.mem_map, List.mem_filter, decide_eq_true_eq]
      constructor
      · rintro ⟨q, ⟨hq, hold⟩, hkey⟩
        have hget := OrderedMap.find_of_mem (v := q.2) (k := q.1) r.log.nodup hq
        have hget' := OrderedMap.find_of_mem (v := p.2) (k := p.1) r.log.nodup hp
        rw [hkey] at hget
        rwa [← Option.some.inj (hget.symm.trans hget')]
      · intro hold
        exact ⟨p, ⟨hp, hold⟩, rfl⟩
    rw [OrderedMap.entries_eraseAll, List.filter_congr hgone, h.log, List.filter_map]
    rfl
  constructor
  · have hcount := zrem_count r.log (hperm.nodup_iff.2 hnodup) (by
      intro m hm
      obtain ⟨p, hp, rfl⟩ := List.mem_map.1 (hperm.mem_iff.1 hm)
      exact List.mem_map_of_mem (List.mem_of_mem_filter hp))
    have hsplit := List.length_eq_length_filter_add (l := rec.log)
      (fun e => decide (e.createdAt < olderThan))
    have hnot : (rec.log.filter fun e => !decide (e.createdAt < olderThan)) =
        rec.log.filter fun e => olderThan ≤ e.createdAt := by
      refine List.filter_congr ?_
      intro e _
      rw [← decide_not, decide_eq_decide, not_lt]
    rw [hnot] at hsplit
    simp only [RedisRecord.pruneLog, KeyRecord.pruneLog, zremBatches_eq, hcount, hperm.length_eq,
      hstale]
    omega
  · have hlog : (r.pruneLog olderThan).2 =
        { r with log := r.log.eraseAll (RedisRecord.stalePages olderThan r.logMembers) } := by
      simp only [RedisRecord.pruneLog, zremBatches_eq, zrem_log]
    rw [hlog]
    exact
      { h with
        whole := whole_of_meta h.whole rfl
        outbox := h.outbox.congr ⟨rfl, rfl, rfl, rfl⟩
        log := hkept }

/-- One page of `readLog`, while there is room. -/
theorem scanPage_eq (keep : LoggedEvent ι → Bool) {limit : Nat} {out : List (LoggedEvent ι)}
    (hroom : out.length < limit) (ms : List (LoggedEvent ι)) :
    RedisRecord.scanPage keep limit out ms =
      ((out ++ ms.filter keep).take limit, decide (limit ≤ (out ++ ms.filter keep).length)) := by
  induction ms generalizing out with
  | nil =>
    have hfits : out.take limit = out := List.take_of_length_le (by omega)
    simp [RedisRecord.scanPage, hfits, hroom]
  | cons m ms ih =>
    rw [RedisRecord.scanPage]
    cases hm : keep m with
    | false => simp [hm, ih hroom]
    | true =>
      have hcons : out ++ (m :: ms).filter keep = (out ++ [m]) ++ ms.filter keep := by simp [hm]
      rw [hcons]
      by_cases hfull : limit ≤ (out ++ [m]).length
      · have hlength : limit = (out ++ [m]).length := by
          rw [List.length_append, List.length_singleton] at hfull ⊢
          omega
        have htake : ((out ++ [m]) ++ ms.filter keep).take limit = out ++ [m] := by
          rw [hlength, List.take_left]
        have hover : limit ≤ ((out ++ [m]) ++ ms.filter keep).length := by
          rw [List.length_append]
          omega
        simp only [if_true, hfull, htake, hover, decide_true]
      · simp only [if_true, hfull, if_false]
        exact ih (not_le.1 hfull)

/-- The pages of `readLog` give the first entries in range. -/
theorem readPages_eq (keep : LoggedEvent ι → Bool) {limit : Nat} (out rest : List (LoggedEvent ι))
    (hroom : out.length < limit) :
    RedisRecord.readPages keep limit out rest = (out ++ rest.filter keep).take limit := by
  fun_induction RedisRecord.readPages with
  | case1 out rest scanned hfull =>
    have hscan := scanPage_eq keep hroom (rest.take (max limit RedisRecord.logPage))
    simp only [scanned, hscan, decide_eq_true_eq] at hfull ⊢
    -- the page alone fills the limit
    have hsplit : rest.filter keep = (rest.take (max limit RedisRecord.logPage)).filter keep ++
        (rest.drop (max limit RedisRecord.logPage)).filter keep := by
      rw [← List.filter_append, List.take_append_drop]
    rw [hsplit, ← List.append_assoc]
    exact (List.take_append_of_le_length hfull).symm
  | case2 out rest scanned hopen hlast =>
    have hscan := scanPage_eq keep hroom (rest.take (max limit RedisRecord.logPage))
    have hall : rest.take (max limit RedisRecord.logPage) = rest := by
      refine List.take_of_length_le ?_
      rw [List.length_take] at hlast
      omega
    simp only [scanned, hscan, hall]
  | case3 out rest scanned hopen hmore ih =>
    have hscan := scanPage_eq keep hroom (rest.take (max limit RedisRecord.logPage))
    have hopen' : (out ++ (rest.take (max limit RedisRecord.logPage)).filter keep).length < limit := by
      simpa only [scanned, hscan, decide_eq_true_eq, not_le] using hopen
    have htaken : scanned.1 = out ++ (rest.take (max limit RedisRecord.logPage)).filter keep := by
      simp only [scanned, hscan]
      exact List.take_of_length_le (by omega)
    rw [ih (htaken ▸ hopen'), htaken, List.append_assoc, ← List.filter_append,
      List.take_append_drop]

/-- The members of the log set are the log, sorted. -/
theorem members_increasing (h : Refines logText rec r) (hn : (rec.log.map (·.sequence)).Nodup) :
    (r.logMembers.map Prod.snd).Pairwise fun a b => a.sequence < b.sequence := by
  have hperm := List.perm_insertionSort
    (ByRank (fun m : String × LoggedEvent ι => m.2.sequence) Prod.fst) r.log.entries
  have hseqs : (r.log.entries.map fun m => m.2.sequence) = rec.log.map (·.sequence) := by
    rw [h.log, List.map_map]
    rfl
  have hdistinct : (r.logMembers.map fun m => m.2.sequence).Nodup := by
    refine (hperm.map _).nodup_iff.2 ?_
    rw [hseqs]
    exact hn
  rw [List.pairwise_map]
  exact increasing_of_sorted (fun m : String × LoggedEvent ι => m.2.sequence)
    (insertionSort_byRank _ _ _) hdistinct

theorem Refines.readLog (h : Refines logText rec r) (hn : (rec.log.map (·.sequence)).Nodup)
    (range : KeyRecord.LogRange) (limit : Nat) : r.readLog range limit = rec.readLog range limit := by
  unfold RedisRecord.readLog KeyRecord.readLog
  split
  · rename_i hzero
    rw [hzero, List.take_zero]
  · rename_i hpos
    rw [readPages_eq _ [] _ (Nat.pos_of_ne_zero hpos), List.nil_append, List.filter_filter]
    refine congrArg (List.take limit) ?_
    refine eq_of_increasing LoggedEvent.sequence
      ((members_increasing h hn).sublist List.filter_sublist) ?_ ?_
    · refine increasing_of_sorted LoggedEvent.sequence (List.pairwise_insertionSort _ _) ?_
      exact ((List.perm_insertionSort _ _).map _).nodup_iff.2
        (hn.sublist (List.filter_sublist.map _))
    · intro e
      have hmember : e ∈ r.logMembers.map Prod.snd ↔ e ∈ rec.log := by
        rw [RedisRecord.logMembers, ((List.perm_insertionSort _ _).map _).mem_iff, h.log,
          List.map_map]
        simp
      rw [List.mem_insertionSort, List.mem_filter, List.mem_filter, hmember]
      simp only [Bool.and_eq_true]
      tauto

end Log

end Watukuy
