import Watukuy.Stores.Refinement
import Watukuy.Core.Text

/-!
# One store for the other

What a sequence of calls commits and parks (`committedIn`, `parkedIn`) tells where each pending row
comes from (`Rooted`). When no two of them share a sequence, no two pending rows do, and every call
has the same result in both stores. A parked event that shares its sequence with a pending row of
another event comes back among the pending rows in a place of its own in each store.
-/

set_option autoImplicit false

namespace Watukuy

open Library

variable {ι : Type}

/-! ## Replies -/

section Replies

variable {logText : LoggedEvent ι → String} {rec : KeyRecord ι} {r : RedisRecord ι}

/-- Each call keeps the relation. -/
theorem Refines.step (hText : ∀ e e' : LoggedEvent ι, logText e = logText e' →
    e.sequence = e'.sequence) (h : Refines logText rec r) (o : StateOp ι)
    (hn : ∀ l w, o = .lease (.write l w) → rec.holds l = true →
      (rec.log.map (·.sequence) ++ w.logs).Nodup) :
    Refines logText (MemoryStore.perform o rec).2 (RedisStore.next logText o r) := by
  cases o with
  | lease o => exact (h.run hText o fun l w heq => hn l w (congrArg StateOp.lease heq)).2
  | saveStateUnfenced patch => exact h.patched patch true
  | retryParked ids => exact (h.retryParked ids).2
  | discardParked ids => exact (h.discardParked ids).2
  | pruneLog olderThan => exact (h.pruneLog olderThan).2
  | _ => exact h

theorem Refines.listParked (h : Refines logText rec r) {values : List (ParkedRow ι)}
    (hvalues : values.Perm r.parked.values) (kind : Option ParkedKind) (limit : Option Nat) :
    SameParked limit (RedisRecord.listParked values kind limit) (rec.listParked kind limit) := by
  have hperm := hvalues.filter fun r => kind.all fun k => r.kind = k
  rw [h.parked] at hperm
  refine ⟨_, _, ?_, List.pairwise_insertionSort _ _, List.pairwise_insertionSort _ _, rfl, rfl⟩
  exact (List.perm_insertionSort _ _).trans (hperm.trans (List.perm_insertionSort _ _).symm)

theorem Refines.heldKeys (h : Refines logText rec r) {values : List String}
    (hvalues : values.Perm r.hold.values) (k : String) : k ∈ values ↔ k ∈ rec.heldKeys := by
  rw [hvalues.mem_iff, OrderedMap.mem_values_iff, KeyRecord.heldKeys, List.mem_filterMap]
  constructor
  · rintro ⟨id, hid⟩
    rw [h.hold id, Option.bind_eq_some_iff] at hid
    obtain ⟨row, hrow, hk⟩ := hid
    exact ⟨row, (OrderedMap.mem_values_iff _ _).2 ⟨id, hrow⟩, hk⟩
  · rintro ⟨row, hrow, hk⟩
    obtain ⟨id, hid⟩ := (OrderedMap.mem_values_iff _ _).1 hrow
    exact ⟨id, by rw [h.hold id, hid]; exact hk⟩

/-- The same results, while the sequences tell the order. -/
theorem Refines.reply (hText : ∀ e e' : LoggedEvent ι, logText e = logText e' →
    e.sequence = e'.sequence) (h : Refines logText rec r) (hd : Distinct rec.outbox)
    (hl : (rec.log.map (·.sequence)).Nodup) (o : StateOp ι)
    (hn : ∀ l w, o = .lease (.write l w) → rec.holds l = true →
      (rec.log.map (·.sequence) ++ w.logs).Nodup) {res : o.Result}
    (hres : RedisStore.Replies logText r o res) :
    SameResult o res (MemoryStore.perform o rec).1 := by
  cases o with
  | lease o =>
    have hrun := (h.run hText o fun l w heq => hn l w (congrArg StateOp.lease heq)).1
    exact hres.trans hrun
  | getLease => exact hres.trans h.lease
  | loadState => exact hres.trans h.state
  | saveStateUnfenced patch => exact hres
  | loadPending limit => exact hres.trans (loadPending_eq h.outbox hd limit)
  | countPending => exact hres.trans (countPending_eq h.outbox)
  | listParked kind limit =>
    obtain ⟨values, hvalues, rfl⟩ := hres
    exact h.listParked hvalues kind limit
  | countParked => exact hres.trans (congrArg (fun p => p.keys.length) h.parked)
  | retryParked ids => exact hres.trans (h.retryParked ids).1
  | discardParked ids => exact hres.trans (h.discardParked ids).1
  | heldKeys =>
    obtain ⟨values, hvalues, rfl⟩ := hres
    exact Set.ext (h.heldKeys hvalues)
  | getValidator urlHash => exact hres.trans (congrArg (fun v => v.get urlHash) h.validators)
  | readLog range limit => exact hres.trans (h.readLog hl range limit)
  | pruneLog olderThan => exact hres.trans (h.pruneLog olderThan).1

end Replies

/-! ## Where rows come from -/

/-- The event of a poison row, which `retryParked` puts back. -/
def ParkedRow.poison? (row : ParkedRow ι) : Option (WatukuyEvent ι) :=
  match row.kind with
  | .poison => row.event
  | .invalid => none

/-- The events a write parks. -/
def FencedWrite.parks : FencedWrite ι → List (WatukuyEvent ι)
  | .commitPoll batch => batch.parked.filterMap ParkedRow.poison?
  | .parkEvent row => row.poison?.toList
  | _ => []

/-- The write of a call, if it passes the fence. -/
def acceptedBy (rec : KeyRecord ι) : StateOp ι → Option (FencedWrite ι)
  | .lease (.write l w) => if rec.holds l then some w else none
  | _ => none

/-- The writes that pass the fence, from a record on. -/
def acceptedIn (rec : KeyRecord ι) : List (StateOp ι) → List (FencedWrite ι)
  | [] => []
  | o :: ops => (acceptedBy rec o).toList ++ acceptedIn (MemoryStore.perform o rec).2 ops

/-- The rows that some calls commit to a key. -/
def committedIn (key : PKey) (ops : List (StateOp ι)) : List (OutboxRow ι) :=
  (acceptedIn (.fresh key) ops).flatMap FencedWrite.rows

/-- The poison events that some calls park under a key. -/
def parkedIn (key : PKey) (ops : List (StateOp ι)) : List (WatukuyEvent ι) :=
  (acceptedIn (.fresh key) ops).flatMap FencedWrite.parks

/-- No two rows share a sequence: neither two committed rows, nor a parked event and what else is
committed or parked under another id. -/
structure NoTies (key : PKey) (ops : List (StateOp ι)) : Prop where
  committed : ((committedIn key ops).map (·.sequence)).Nodup
  between : ∀ e ∈ parkedIn key ops, ∀ row ∈ committedIn key ops, row.sequence = e.sequence →
    row.eventId = e.id
  parked : ∀ e ∈ parkedIn key ops, ∀ e' ∈ parkedIn key ops, e.sequence = e'.sequence → e.id = e'.id

/-- Every row of the outbox was committed or parked, every parked event was parked, and every logged
event was committed. -/
structure Rooted (rec : KeyRecord ι) (rows : List (OutboxRow ι))
    (events : List (WatukuyEvent ι)) : Prop where
  pending : ∀ id row, rec.outbox.get id = some row →
    (∃ c ∈ rows, c.eventId = id ∧ c.sequence = row.sequence) ∨
      ∃ e ∈ events, e.id = id ∧ e.sequence = row.sequence
  parked : ∀ id row e, rec.parked.get id = some row → row.poison? = some e → e ∈ events
  log : List.Sublist (rec.log.map (·.sequence)) (rows.map (·.sequence))

section Traces

variable {rec rec' : KeyRecord ι} {rows : List (OutboxRow ι)} {events : List (WatukuyEvent ι)}

/-- Rows and parked rows that were there before, and a log that has not grown. -/
theorem Rooted.shrink (h : Rooted rec rows events)
    (hrows : ∀ id row, rec'.outbox.get id = some row →
      ∃ row₀, rec.outbox.get id = some row₀ ∧ row₀.sequence = row.sequence)
    (hparked : ∀ id row, rec'.parked.get id = some row → rec.parked.get id = some row)
    (hlog : List.Sublist rec'.log rec.log) : Rooted rec' rows events := by
  constructor
  · intro id row hrow
    obtain ⟨row₀, hrow₀, hseq⟩ := hrows id row hrow
    rw [← hseq]
    exact h.pending id row₀ hrow₀
  · intro id row e hrow he
    exact h.parked id row e (hparked id row hrow) he
  · exact (hlog.map _).trans h.log

theorem Rooted.more (h : Rooted rec rows events) (rows' : List (OutboxRow ι))
    (events' : List (WatukuyEvent ι)) : Rooted rec (rows ++ rows') (events ++ events') := by
  constructor
  · intro id row hrow
    rcases h.pending id row hrow with ⟨c, hc, hid⟩ | ⟨e, he, hid⟩
    · exact Or.inl ⟨c, List.mem_append_left _ hc, hid⟩
    · exact Or.inr ⟨e, List.mem_append_left _ he, hid⟩
  · intro id row e hrow he
    exact List.mem_append_left _ (h.parked id row e hrow he)
  · rw [List.map_append]
    exact h.log.trans (List.sublist_append_left _ _)

theorem Rooted.noted (h : Rooted rec rows events) (eventId : String)
    (error : Option SerializedError) (nextAttemptAt : Option Int) :
    Rooted (rec.noteAttempt eventId error nextAttemptAt) rows events := by
  unfold KeyRecord.noteAttempt
  split
  · exact h
  · rename_i row hrow
    refine h.shrink ?_ (fun _ _ hrow => hrow) (List.Sublist.refl _)
    intro id row' hrow'
    simp only [OrderedMap.get_set] at hrow'
    split at hrow'
    · rename_i hid
      obtain rfl := Option.some.inj hrow'
      exact ⟨row, hid ▸ hrow, rfl⟩
    · exact ⟨row', hrow', rfl⟩

theorem Rooted.commits (h : Rooted rec rows events) (batch : CommitBatch ι) :
    Rooted (rec.commit batch) (rows ++ batch.events)
      (events ++ batch.parked.filterMap ParkedRow.poison?) := by
  constructor
  · intro id row hrow
    rcases OrderedMap.get_setAll_cases _ _ _ hrow with ⟨hmem, hid⟩ | hold
    · exact Or.inl ⟨row, List.mem_append_right _ hmem, hid, rfl⟩
    · exact (h.more batch.events _).pending id row hold
  · intro id row e hrow he
    rcases OrderedMap.get_setAll_cases _ _ _ hrow with ⟨hmem, -⟩ | hold
    · exact List.mem_append_right _ (List.mem_filterMap.2 ⟨row, hmem, he⟩)
    · exact List.mem_append_left _ (h.parked id row e hold he)
  · simp only [KeyRecord.commit]
    split
    · rw [List.map_append, List.map_append, List.map_map]
      exact h.log.append (List.Sublist.refl _)
    · rw [List.map_append]
      exact h.log.trans (List.sublist_append_left _ _)

theorem Rooted.park (h : Rooted rec rows events) (row : ParkedRow ι) :
    Rooted (rec.park row) rows (events ++ row.poison?.toList) := by
  constructor
  · intro id row' hrow'
    have hold : rec.outbox.get id = some row' := by
      simp only [KeyRecord.park] at hrow'
      split at hrow'
      · rw [OrderedMap.get_erase] at hrow'
        split at hrow'
        · cases hrow'
        · exact hrow'
      · exact hrow'
    rcases h.pending id row' hold with hc | ⟨e, he, hid⟩
    · exact Or.inl hc
    · exact Or.inr ⟨e, List.mem_append_left _ he, hid⟩
  · intro id row' e hrow' he
    simp only [KeyRecord.park, OrderedMap.get_set] at hrow'
    split at hrow'
    · obtain rfl := Option.some.inj hrow'
      exact List.mem_append_right _ (by simp [he])
    · exact List.mem_append_left _ (h.parked id row' e hrow' he)
  · exact h.log

/-- A write that passes the fence. -/
theorem Rooted.apply (h : Rooted rec rows events) (w : FencedWrite ι) :
    Rooted (MemoryStore.apply w rec) (rows ++ w.rows) (events ++ w.parks) := by
  -- a write that brings no rows and no events
  have hkept : ∀ {rec' : KeyRecord ι}, Rooted rec' rows events →
      Rooted rec' (rows ++ []) (events ++ []) := by
    intro rec' h'
    rw [List.append_nil, List.append_nil]
    exact h'
  cases w with
  | saveState patch =>
    exact hkept (h.shrink (fun _ row hrow => ⟨row, hrow, rfl⟩) (fun _ _ hrow => hrow)
      (List.Sublist.refl _))
  | commitPoll batch => exact h.commits batch
  | ackEvents ids =>
    refine hkept (h.shrink ?_ (fun _ _ hrow => hrow) (List.Sublist.refl _))
    intro id row hrow
    simp only [MemoryStore.apply, KeyRecord.ack, OrderedMap.get_eraseAll] at hrow
    split at hrow
    · cases hrow
    · exact ⟨row, hrow, rfl⟩
  | recordAttempt id error next => exact hkept (h.noted id (some error) next)
  | parkEvent row =>
    have hpark := h.park row
    rw [← List.append_nil rows] at hpark
    exact hpark
  | setValidator urlHash validator =>
    exact hkept (h.shrink (fun _ row hrow => ⟨row, hrow, rfl⟩) (fun _ _ hrow => hrow)
      (List.Sublist.refl _))

theorem Rooted.retried (h : Rooted rec rows events) (ids : List String) :
    Rooted (rec.retryParked ids).2 rows events := by
  induction ids generalizing rec with
  | nil => exact h
  | cons id ids ih =>
    refine ih ?_
    split
    · rename_i event item error attempts parkedAt holdKey hparked
      constructor
      · intro a row hrow
        simp only [OrderedMap.get_set] at hrow
        split at hrow
        · rename_i ha
          obtain rfl := Option.some.inj hrow
          exact Or.inr ⟨event, h.parked id _ event hparked rfl, ha.symm, rfl⟩
        · exact h.pending a row hrow
      · intro a row e hrow he
        simp only [OrderedMap.get_erase] at hrow
        split at hrow
        · cases hrow
        · exact h.parked a row e hrow he
      · exact h.log
    · exact h

/-- One call, with what it commits and parks. -/
theorem Rooted.step (h : Rooted rec rows events) (o : StateOp ι) :
    Rooted (MemoryStore.perform o rec).2
      (rows ++ (acceptedBy rec o).toList.flatMap FencedWrite.rows)
      (events ++ (acceptedBy rec o).toList.flatMap FencedWrite.parks) := by
  have hkept : ∀ {rec' : KeyRecord ι}, Rooted rec' rows events →
      Rooted rec' (rows ++ []) (events ++ []) := by
    intro rec' h'
    rw [List.append_nil, List.append_nil]
    exact h'
  cases o with
  | lease o =>
    cases o with
    | acquireLease owner ttlMs now =>
      refine hkept ?_
      simp only [MemoryStore.perform, MemoryStore.run, KeyRecord.acquireLease]
      split
      · exact h
      · exact ⟨h.pending, h.parked, h.log⟩
    | renewLease lease ttlMs now =>
      refine hkept ?_
      simp only [MemoryStore.perform, MemoryStore.run, KeyRecord.renewLease]
      split
      · exact ⟨h.pending, h.parked, h.log⟩
      · exact h
    | releaseLease lease =>
      refine hkept ?_
      simp only [MemoryStore.perform, MemoryStore.run, KeyRecord.releaseLease]
      split
      · exact ⟨h.pending, h.parked, h.log⟩
      · exact h
    | write lease w =>
      simp only [MemoryStore.perform, MemoryStore.run, MemoryStore.write_eq, KeyRecord.fenced,
        acceptedBy]
      split
      · simpa using h.apply w
      · exact hkept h
  | saveStateUnfenced patch => exact hkept ⟨h.pending, h.parked, h.log⟩
  | retryParked ids => exact hkept (h.retried ids)
  | discardParked ids =>
    refine hkept (h.shrink (fun _ row hrow => ⟨row, hrow, rfl⟩) ?_ (List.Sublist.refl _))
    intro id row hrow
    simp only [MemoryStore.perform, KeyRecord.discardParked, OrderedMap.get_eraseAll] at hrow
    split at hrow
    · cases hrow
    · exact hrow
  | pruneLog olderThan =>
    exact hkept (h.shrink (fun _ row hrow => ⟨row, hrow, rfl⟩) (fun _ _ hrow => hrow)
      List.filter_sublist)
  | _ => exact hkept h

end Traces

/-! ## All calls -/

theorem acceptedIn_append (rec : KeyRecord ι) (ops ops' : List (StateOp ι)) :
    acceptedIn rec (ops ++ ops') = acceptedIn rec ops ++
      acceptedIn (ops.foldl (fun rec o => (MemoryStore.perform o rec).2) rec) ops' := by
  induction ops generalizing rec with
  | nil => rfl
  | cons o ops ih => simp [acceptedIn, ih]

section Histories

variable {key : PKey} {ops ops' : List (StateOp ι)}

theorem after_append (ops ops' : List (StateOp ι)) : MemoryStore.after key (ops ++ ops') =
    ops'.foldl (fun rec o => (MemoryStore.perform o rec).2) (MemoryStore.after key ops) := by
  simp [MemoryStore.after, List.foldl_append]

theorem committedIn_append (ops ops' : List (StateOp ι)) :
    committedIn key (ops ++ ops') = committedIn key ops ++
      (acceptedIn (MemoryStore.after key ops) ops').flatMap FencedWrite.rows := by
  rw [committedIn, acceptedIn_append, List.flatMap_append]
  rfl

theorem parkedIn_append (ops ops' : List (StateOp ι)) :
    parkedIn key (ops ++ ops') = parkedIn key ops ++
      (acceptedIn (MemoryStore.after key ops) ops').flatMap FencedWrite.parks := by
  rw [parkedIn, acceptedIn_append, List.flatMap_append]
  rfl

theorem rooted_after (key : PKey) (ops : List (StateOp ι)) :
    Rooted (MemoryStore.after key ops) (committedIn key ops) (parkedIn key ops) := by
  induction ops using List.reverseRecOn with
  | nil =>
    constructor
    · intro id row hrow
      cases hrow
    · intro id row e hrow
      cases hrow
    · exact List.Sublist.refl _
  | append_singleton ops o ih =>
    have hstep := ih.step o
    rw [after_append, committedIn_append, parkedIn_append]
    simpa [acceptedIn] using hstep

/-- A shorter history has no ties either. -/
theorem NoTies.prefix_ (h : NoTies key (ops ++ ops')) : NoTies key ops := by
  have hrows : ∀ row ∈ committedIn key ops, row ∈ committedIn key (ops ++ ops') := by
    intro row hrow
    rw [committedIn_append]
    exact List.mem_append_left _ hrow
  have hevents : ∀ e ∈ parkedIn key ops, e ∈ parkedIn key (ops ++ ops') := by
    intro e he
    rw [parkedIn_append]
    exact List.mem_append_left _ he
  refine ⟨?_, ?_, ?_⟩
  · have hcommitted := h.committed
    rw [committedIn_append, List.map_append] at hcommitted
    exact (List.nodup_append.1 hcommitted).1
  · intro e he row hrow
    exact h.between e (hevents e he) row (hrows row hrow)
  · intro e he e' he'
    exact h.parked e (hevents e he) e' (hevents e' he')

/-- Without ties no two pending rows share a sequence. -/
theorem NoTies.distinct (h : NoTies key ops) : Distinct (MemoryStore.after key ops).outbox := by
  have hrooted := rooted_after key ops
  intro id id' row row' hrow hrow' _ _ hseq
  rcases hrooted.pending id row hrow with ⟨c, hc, rfl, hcs⟩ | ⟨e, he, rfl, hes⟩ <;>
    rcases hrooted.pending id' row' hrow' with ⟨c', hc', rfl, hcs'⟩ | ⟨e', he', rfl, hes'⟩
  · have hsame := List.inj_on_of_nodup_map h.committed hc hc' (hcs.trans (hseq.trans hcs'.symm))
    rw [hsame]
  · exact h.between e' he' c hc (hcs.trans (hseq.trans hes'.symm))
  · exact (h.between e he c' hc' (hcs'.trans (hseq.symm.trans hes.symm))).symm
  · exact h.parked e he e' he' (hes.trans (hseq.trans hes'.symm))

/-- The log stays without ties when a call is made that adds to it. -/
theorem NoTies.logs (h : NoTies key ops) :
    ((MemoryStore.after key ops).log.map (·.sequence)).Nodup ∧
      ∀ pre o post, ops = pre ++ o :: post → ∀ l w, o = .lease (.write l w) →
        (MemoryStore.after key pre).holds l = true →
        ((MemoryStore.after key pre).log.map (·.sequence) ++ w.logs).Nodup := by
  constructor
  · exact h.committed.sublist (rooted_after key ops).log
  · rintro pre o post rfl l w rfl hholds
    have hbefore := (rooted_after key pre).log
    have hlogs : List.Sublist w.logs (w.rows.map (·.sequence)) := by
      cases w with
      | commitPoll batch =>
        simp only [FencedWrite.logs, FencedWrite.rows]
        split
        · exact List.Sublist.refl _
        · exact List.nil_sublist _
      | _ => exact List.Sublist.refl _
    rw [List.append_cons] at h
    have hcommitted := h.prefix_.committed
    rw [committedIn_append, List.map_append] at hcommitted
    refine hcommitted.sublist (hbefore.append ?_)
    simpa [acceptedIn, acceptedBy, hholds] using hlogs

/-- The relation holds after every history without ties. -/
theorem NoTies.refines {logText : LoggedEvent ι → String}
    (hText : ∀ e e' : LoggedEvent ι, logText e = logText e' → e.sequence = e'.sequence)
    (h : NoTies key ops) :
    Refines logText (MemoryStore.after key ops) (RedisStore.after logText key ops) := by
  induction ops using List.reverseRecOn with
  | nil =>
    exact
      { key := rfl
        whole := .free rfl rfl
        lease := rfl
        counter := rfl
        state := rfl
        items := rfl
        outbox := ⟨fun id => rfl, fun id => rfl⟩
        parked := rfl
        hold := fun id => rfl
        validators := rfl
        log := rfl }
  | append_singleton ops o ih =>
    have hstep := (ih h.prefix_).step hText o fun l w => h.logs.2 ops o [] rfl l w
    rw [after_append]
    simpa [RedisStore.after] using hstep

end Histories

/-- In every history without ties each call has the same result in both stores, whatever the order
in which Redis replies with the values of a hash. -/
theorem redis_refines_memory (eventText : WatukuyEvent ι → String) (key : PKey)
    (ops : List (StateOp ι)) (h : NoTies key ops) :
    ∀ pre o post, ops = pre ++ o :: post → ∀ res : o.Result,
      RedisStore.Replies (loggedText eventText) (RedisStore.after (loggedText eventText) key pre) o
        res →
      SameResult o res (MemoryStore.perform o (MemoryStore.after key pre)).1 := by
  have hText : ∀ e e' : LoggedEvent ι, loggedText eventText e = loggedText eventText e' →
      e.sequence = e'.sequence := fun _ _ => sequence_of_loggedText eventText
  rintro pre o post rfl res hres
  have hpre : NoTies key pre := h.prefix_
  exact (hpre.refines hText).reply hText hpre.distinct hpre.logs.1 o
    (fun l w => h.logs.2 pre o post rfl l w) hres

/-! ## Ties -/

section Ties

/-- An event with the sequence `n`. -/
def numberedEvent (id : String) (n : Nat) : WatukuyEvent Unit where
  id := id
  type := .created
  source := "watukuy/orders"
  subject := id
  time := 0
  poller := "orders"
  partition := ""
  lane := .live
  sequence := n
  cursor := .null
  data := none
  previous := none
  attempt := 0

def parkedPoison (event : WatukuyEvent Unit) : ParkedRow Unit where
  id := event.id
  kind := .poison
  event := some event
  item := none
  error := { name := "Error", message := "refused" }
  attempts := 10
  parkedAt := 0
  holdKey := none

def firstLease : Lease := { owner := "node-a", epoch := 1, expiresAt := 30000 }

/-- Commit the event `b`, park the event `a`, retry it, and load both; `n` is the sequence of `a`. -/
def retriedHistory (n : Nat) : List (StateOp Unit) :=
  [.lease (.acquireLease "node-a" 30000 0),
    .lease (.write firstLease (.commitPoll
      { statePatch := {}
        upserts := []
        deletes := []
        events := [KeyRecord.retriedRow (numberedEvent "b" 1) 0]
        log := true })),
    .lease (.write firstLease (.parkEvent (parkedPoison (numberedEvent "a" n)))),
    .retryParked ["a"],
    .loadPending 10]

def tieKey : PKey := { poller := "orders", partition := "" }

def idText (event : WatukuyEvent Unit) : String := quote event.id

/-- The second event has a sequence of its own: both stores load the two in the same order. -/
theorem redis_refines_memory_sample :
    SameResult (.loadPending 10 : StateOp Unit)
      ((RedisStore.after (loggedText idText) tieKey ((retriedHistory 2).take 4)).loadPending 10)
      (MemoryStore.perform (.loadPending 10) (MemoryStore.after tieKey ((retriedHistory 2).take 4))).1 := by
  refine redis_refines_memory idText tieKey (retriedHistory 2) ?_ _ _ [] rfl _ rfl
  have hcommitted : committedIn tieKey (retriedHistory 2) =
      [KeyRecord.retriedRow (numberedEvent "b" 1) 0] := rfl
  have hparked : parkedIn tieKey (retriedHistory 2) = [numberedEvent "a" 2] := rfl
  constructor
  · rw [hcommitted]
    exact List.nodup_singleton _
  · rw [hcommitted, hparked]
    intro e he row hrow hseq
    obtain rfl := List.mem_singleton.1 he
    obtain rfl := List.mem_singleton.1 hrow
    exact absurd hseq (by decide)
  · rw [hparked]
    intro e he e' he' _
    rw [List.mem_singleton.1 he, List.mem_singleton.1 he']

/-- The parked event has the sequence of the committed one: only one row is committed, and still the
memory store loads `b` first, Redis `a`. -/
theorem retried_tie_differs :
    ¬∀ (eventText : WatukuyEvent Unit → String) (key : PKey) (ops : List (StateOp Unit)),
      ((committedIn key ops).map (·.sequence)).Nodup →
      ∀ pre o post, ops = pre ++ o :: post → ∀ res : o.Result,
        RedisStore.Replies (loggedText eventText) (RedisStore.after (loggedText eventText) key pre)
          o res →
        SameResult o res (MemoryStore.perform o (MemoryStore.after key pre)).1 := by
  intro h
  have hsame := h idText tieKey (retriedHistory 1) (List.nodup_singleton 1)
    ((retriedHistory 1).take 4) (.loadPending 10) [] rfl _ rfl
  have hids := congrArg (List.map OutboxRow.eventId) hsame
  revert hids
  decide +kernel

end Ties

end Watukuy
