import Watukuy.Run.Sequences
import Watukuy.Cycle.DeliveryObeys

/-!
# What moves the events of a key

Six calls of the store move rows between the outbox and the parked table (`Moved`); all others leave
both as they are. Every row lies under the id of its event (`Filed`), in the store as in the hands of
the threads that load and deliver it.
-/

set_option autoImplicit false

namespace Watukuy

open Library KeyRecord

variable {ι : Type}

/-! ## Moves -/

/-- The calls that move rows. -/
def StoreOp.Moving : StoreOp ι → Prop
  | .deleteKey => True
  | .commitPoll _ _ => True
  | .ackEvents _ _ => True
  | .recordAttempt _ _ _ _ => True
  | .parkEvent _ _ => True
  | .retryParked _ => True
  | .discardParked _ => True
  | _ => False

/-- What a call that took effect, or did not, has done to the outbox and to the parked rows. -/
inductive Moved (rec : KeyRecord ι) : StoreOp ι → Bool → KeyRecord ι → Prop
  | still {o : StoreOp ι} {e : Bool} {rec' : KeyRecord ι} (outbox : rec'.outbox = rec.outbox)
      (parked : rec'.parked = rec.parked) (idle : o.Moving → e = false) : Moved rec o e rec'
  | commit (l : Lease) (b : CommitBatch ι) (hold : rec.holds l = true) :
      Moved rec (.commitPoll l b) true (rec.commit b)
  | ack (l : Lease) (ids : List String) (hold : rec.holds l = true) :
      Moved rec (.ackEvents l ids) true (rec.ack ids)
  | record (l : Lease) (id : String) (error : SerializedError) (next : Option Int)
      (hold : rec.holds l = true) :
      Moved rec (.recordAttempt l id error next) true (rec.noteAttempt id (some error) next)
  | park (l : Lease) (row : ParkedRow ι) (hold : rec.holds l = true) :
      Moved rec (.parkEvent l row) true (rec.park row)
  | retry (ids : List String) : Moved rec (.retryParked ids) true (rec.retryParked ids).2
  | discard (ids : List String) : Moved rec (.discardParked ids) true (rec.discardParked ids).2

/-- A call that moves nothing keeps the outbox and the parked rows. -/
theorem run_still {o : StoreOp ι} (ho : ¬o.Moving) (rec : KeyRecord ι) :
    (o.run rec).2.outbox = rec.outbox ∧ (o.run rec).2.parked = rec.parked := by
  have hfenced : ∀ (l : Lease) (write : KeyRecord ι → KeyRecord ι),
      (write rec).outbox = rec.outbox → (write rec).parked = rec.parked →
      (rec.fenced l write).2.outbox = rec.outbox ∧ (rec.fenced l write).2.parked = rec.parked := by
    intro l write h h'
    unfold KeyRecord.fenced
    split
    · exact ⟨h, h'⟩
    · exact ⟨rfl, rfl⟩
  cases o with
  | acquireLease owner ttlMs now =>
    simp only [StoreOp.run, KeyRecord.acquireLease]
    split <;> exact ⟨rfl, rfl⟩
  | renewLease l ttlMs now =>
    simp only [StoreOp.run, KeyRecord.renewLease]
    split <;> exact ⟨rfl, rfl⟩
  | releaseLease l =>
    simp only [StoreOp.run, KeyRecord.releaseLease]
    split <;> exact ⟨rfl, rfl⟩
  | saveState l p => exact hfenced l _ rfl rfl
  | setValidator l k x => exact hfenced l _ rfl rfl
  | _ => first | exact ⟨rfl, rfl⟩ | exact absurd trivial ho

/-- A fenced write moves rows for the holder, or nothing. -/
theorem moved_fenced (o : StoreOp ι) (write : KeyRecord ι → KeyRecord ι) {l : Lease}
    (hok : ∀ rec x rec', o.run rec = (.ok x, rec') → rec.holds l = true ∧ rec' = write rec)
    (herror : ∀ rec e rec', o.run rec = (.error e, rec') → rec' = rec)
    (hmove : ∀ rec, rec.holds l = true → Moved rec o true (write rec)) {ch : Choice ι}
    {rec rec' : KeyRecord ι} {a : Except JsError o.Result}
    (h : performStore o ch rec = some (a, rec')) : Moved rec o (tookEffect ch a) rec' := by
  rcases performStore_fenced o write hok herror h with ⟨heffect, hhold, rfl⟩ | ⟨heffect, -, rfl⟩
  · rw [heffect]
    exact hmove rec hhold
  · exact .still rfl rfl fun _ => heffect

/-- An unfenced write that never rejects. -/
theorem moved_unfenced (o : StoreOp ι) (write : KeyRecord ι → KeyRecord ι)
    (hrun : ∀ rec, ∃ x, o.run rec = (.ok x, write rec))
    (hmove : ∀ rec, Moved rec o true (write rec)) {ch : Choice ι}
    {rec rec' : KeyRecord ι} {a : Except JsError o.Result}
    (h : performStore o ch rec = some (a, rec')) : Moved rec o (tookEffect ch a) rec' := by
  obtain ⟨x, hx⟩ := hrun rec
  rcases performStore_effect h with ⟨heffect, y, hy, -⟩ | ⟨heffect, e, -, rfl | he⟩
  · rw [heffect]
    rw [hx] at hy
    rw [← (Prod.mk.inj hy).2]
    exact hmove rec
  · exact .still rfl rfl fun _ => heffect
  · rw [hx] at he
    cases (Prod.mk.inj he).1

theorem performStore_moved {o : StoreOp ι} (hdel : o ≠ .deleteKey) {ch : Choice ι}
    {rec rec' : KeyRecord ι} {a : Except JsError o.Result}
    (h : performStore o ch rec = some (a, rec')) : Moved rec o (tookEffect ch a) rec' := by
  have hstill : ¬o.Moving → Moved rec o (tookEffect ch a) rec' := by
    intro ho
    obtain ⟨hout, hparked⟩ := run_still ho rec
    have hidle : o.Moving → tookEffect ch a = false := fun hm => absurd hm ho
    rcases performStore_effect h with ⟨-, x, hrun, -⟩ | ⟨-, e, -, rfl | hrun⟩
    · rw [hrun] at hout hparked
      exact .still hout hparked hidle
    · exact .still rfl rfl hidle
    · rw [hrun] at hout hparked
      exact .still hout hparked hidle
  cases o with
  | deleteKey => exact absurd rfl hdel
  | commitPoll l b =>
    exact moved_fenced (.commitPoll l b) (fun rec => rec.commit b)
      (fun _ _ _ hr => fenced_ok (fun rec => rec.commit b) hr)
      (fun _ _ _ hr => fenced_error (fun rec => rec.commit b) hr) (fun _ hold => .commit l b hold) h
  | ackEvents l ids =>
    exact moved_fenced (.ackEvents l ids) (fun rec => rec.ack ids)
      (fun _ _ _ hr => fenced_ok (fun rec => rec.ack ids) hr)
      (fun _ _ _ hr => fenced_error (fun rec => rec.ack ids) hr) (fun _ hold => .ack l ids hold) h
  | recordAttempt l id error next =>
    exact moved_fenced (.recordAttempt l id error next)
      (fun rec => rec.noteAttempt id (some error) next)
      (fun _ _ _ hr => fenced_ok (fun rec => rec.noteAttempt id (some error) next) hr)
      (fun _ _ _ hr => fenced_error (fun rec => rec.noteAttempt id (some error) next) hr)
      (fun _ hold => .record l id error next hold) h
  | parkEvent l row =>
    exact moved_fenced (.parkEvent l row) (fun rec => rec.park row)
      (fun _ _ _ hr => fenced_ok (fun rec => rec.park row) hr)
      (fun _ _ _ hr => fenced_error (fun rec => rec.park row) hr) (fun _ hold => .park l row hold) h
  | retryParked ids =>
    exact moved_unfenced (.retryParked ids) (fun rec => (rec.retryParked ids).2)
      (fun rec => ⟨_, rfl⟩) (fun _ => .retry ids) h
  | discardParked ids =>
    exact moved_unfenced (.discardParked ids) (fun rec => (rec.discardParked ids).2)
      (fun rec => ⟨_, rfl⟩) (fun _ => .discard ids) h
  | _ => exact hstill (fun hm => hm.elim)

/-- A call that resolved took effect. -/
theorem tookEffect_ok {o : StoreOp ι} {ch : Choice ι} {rec rec' : KeyRecord ι} {x : o.Result}
    (h : performStore o ch rec = some (.ok x, rec')) : tookEffect ch (Except.ok x) = true := by
  rcases performStore_effect h with ⟨heffect, -⟩ | ⟨-, e, he, -⟩
  · exact heffect
  · cases he

/-! ## Rows under the ids of their events -/

namespace KeyRecord

/-- Every row lies under the id of its event. -/
structure Filed (rec : KeyRecord ι) : Prop where
  outbox : ∀ id row, rec.outbox.get id = some row → row.eventId = id ∧ row.Stamped
  parked : ∀ id row, rec.parked.get id = some row → row.id = id ∧ ∀ e ∈ row.event, e.id = id

theorem filed_fresh (key : PKey) : (fresh key : KeyRecord ι).Filed := by
  constructor
  · intro id row h
    cases h
  · intro id row h
    cases h

/-- Setting a stamped row under its id keeps the rows filed. -/
theorem Filed.setOutbox {rec : KeyRecord ι} (h : rec.Filed) {id : String} (row : OutboxRow ι)
    (hid : row.eventId = id) (hrow : row.Stamped) :
    ({ rec with outbox := rec.outbox.set id row } : KeyRecord ι).Filed := by
  refine ⟨?_, h.parked⟩
  intro id' row' hget
  simp only [OrderedMap.get_set] at hget
  split at hget
  · rename_i heq
    obtain rfl := Option.some.inj hget
    exact ⟨hid.trans heq.symm, hrow⟩
  · exact h.outbox id' row' hget

theorem Filed.eraseOutbox {rec : KeyRecord ι} (h : rec.Filed) (ids : List String) :
    ({ rec with outbox := rec.outbox.eraseAll ids } : KeyRecord ι).Filed := by
  refine ⟨?_, h.parked⟩
  intro id row hget
  simp only [OrderedMap.get_eraseAll] at hget
  split at hget
  · cases hget
  · exact h.outbox id row hget

theorem Filed.eraseParked {rec : KeyRecord ι} (h : rec.Filed) (ids : List String) :
    ({ rec with parked := rec.parked.eraseAll ids } : KeyRecord ι).Filed := by
  refine ⟨h.outbox, ?_⟩
  intro id row hget
  simp only [OrderedMap.get_eraseAll] at hget
  split at hget
  · cases hget
  · exact h.parked id row hget

/-- One id of a retry: a parked event goes back to the outbox, or nothing happens. -/
theorem retryOne_cases (rec : KeyRecord ι) (id : String) :
    (∃ row event, rec.parked.get id = some row ∧ row.event = some event ∧
      (rec.retryOne id).2 =
        { rec with
          outbox := rec.outbox.set event.id (retriedRow event row.parkedAt)
          parked := rec.parked.erase id }) ∨ (rec.retryOne id).2 = rec := by
  unfold KeyRecord.retryOne
  split
  · rename_i hget
    exact Or.inl ⟨_, _, hget, rfl, rfl⟩
  · exact Or.inr rfl

/-- What each id of a retry preserves, the retry preserves. -/
theorem retryParked_preserves {P : KeyRecord ι → Prop}
    (step : ∀ rec id, P rec → P (rec.retryOne id).2) {rec : KeyRecord ι} (h : P rec)
    (ids : List String) : P (rec.retryParked ids).2 := by
  induction ids generalizing rec with
  | nil => exact h
  | cons id ids ih => exact ih (step rec id h)

theorem Filed.retryOne {rec : KeyRecord ι} (h : rec.Filed) (id : String) :
    (rec.retryOne id).2.Filed := by
  rcases retryOne_cases rec id with ⟨row, event, hget, hevent, heq⟩ | heq
  · rw [heq]
    exact (h.setOutbox (retriedRow event row.parkedAt) rfl ⟨rfl, rfl⟩).eraseParked [id]
  · rw [heq]
    exact h

end KeyRecord

/-- What a moving call carries lies under the ids of its events. -/
def StoreOp.Filed : StoreOp ι → Prop
  | .commitPoll _ b => (∀ r ∈ b.events, r.Stamped) ∧ ∀ r ∈ b.parked, r.event = none
  | .parkEvent _ row => ∀ e ∈ row.event, e.id = row.id
  | _ => True

theorem Moved.filed {rec rec' : KeyRecord ι} {o : StoreOp ι} {e : Bool} (h : Moved rec o e rec')
    (hrec : rec.Filed) (ho : o.Filed) : rec'.Filed := by
  cases h with
  | still hout hparked _ =>
    constructor
    · rw [hout]
      exact hrec.outbox
    · rw [hparked]
      exact hrec.parked
  | commit l b hold =>
    obtain ⟨hevents, hquarantined⟩ := ho
    constructor
    · intro id row hget
      rcases OrderedMap.get_setAll_cases _ _ _ hget with ⟨hmem, hid⟩ | hget
      · exact ⟨hid, hevents row hmem⟩
      · exact hrec.outbox id row hget
    · intro id row hget
      rcases OrderedMap.get_setAll_cases _ _ _ hget with ⟨hmem, hid⟩ | hget
      · refine ⟨hid, ?_⟩
        rw [hquarantined row hmem]
        intro e he
        cases he
      · exact hrec.parked id row hget
  | ack l ids hold => exact hrec.eraseOutbox ids
  | record l id error next hold =>
    unfold KeyRecord.noteAttempt
    split
    · exact hrec
    · rename_i row hget
      obtain ⟨hid, hrow⟩ := hrec.outbox id row hget
      exact hrec.setOutbox _ hid ⟨hrow.id, hrow.status⟩
  | park l row hold =>
    have hstored : ({ rec with parked := rec.parked.set row.id row } : KeyRecord ι).Filed := by
      refine ⟨hrec.outbox, ?_⟩
      intro id row' hget
      simp only [OrderedMap.get_set] at hget
      split at hget
      · rename_i heq
        obtain rfl := Option.some.inj hget
        rw [heq]
        exact ⟨rfl, ho⟩
      · exact hrec.parked id row' hget
    unfold KeyRecord.park
    split
    · exact hstored.eraseOutbox [_]
    · exact hstored
  | retry ids => exact retryParked_preserves (fun _ id h => h.retryOne id) hrec ids
  | discard ids => exact hrec.eraseParked ids

/-! ## Where an event is -/

namespace KeyRecord

/-- The event is pending or parked. -/
def Keeps (rec : KeyRecord ι) (id : String) : Prop :=
  (rec.outbox.get id).isSome ∨ (rec.parked.get id).isSome

theorem keeps_retryOne {rec : KeyRecord ι} (h : rec.Filed) (id : String) {id' : String}
    (hid : rec.Keeps id') : (rec.retryOne id).2.Keeps id' := by
  rcases retryOne_cases rec id with ⟨row, event, hget, hrow, heq⟩ | heq
  · have hevent : event.id = id := (h.parked id row hget).2 event hrow
    rw [heq]
    unfold KeyRecord.Keeps at hid ⊢
    simp only [OrderedMap.get_set, OrderedMap.get_erase, hevent]
    by_cases hsame : id' = id
    · exact Or.inl (by simp [hsame])
    · simpa [hsame] using hid
  · rw [heq]
    exact hid

theorem keeps_retryParked {rec : KeyRecord ι} (h : rec.Filed) (ids : List String) {id' : String}
    (hid : rec.Keeps id') : (rec.retryParked ids).2.Keeps id' :=
  (retryParked_preserves (P := fun rec => rec.Filed ∧ rec.Keeps id')
    (fun _ id h => ⟨h.1.retryOne id, keeps_retryOne h.1 id h.2⟩) ⟨h, hid⟩ ids).2

/-- A retry takes nothing out of the outbox. -/
theorem outbox_retryOne (rec : KeyRecord ι) (id : String) {id' : String}
    (hid : (rec.outbox.get id').isSome) : ((rec.retryOne id).2.outbox.get id').isSome := by
  rcases retryOne_cases rec id with ⟨row, event, hget, hrow, heq⟩ | heq
  · rw [heq, OrderedMap.get_set]
    split
    · rfl
    · exact hid
  · rw [heq]
    exact hid

end KeyRecord

/-! ## Where a row comes from -/

/-- Two rows stand for the same event. -/
structure OutboxRow.Same (row row' : OutboxRow ι) : Prop where
  id : row.eventId = row'.eventId
  sequence : row.sequence = row'.sequence
  event : row.event = row'.event

/-- The rows a retry leaves in the outbox were there before, or their events were parked. -/
theorem KeyRecord.retryParked_row {rec : KeyRecord ι} {ids : List String} {id : String}
    {row : OutboxRow ι} (h : (rec.retryParked ids).2.outbox.get id = some row) :
    rec.outbox.get id = some row ∨ ∃ id' ∈ ids, ∃ q event, rec.parked.get id' = some q ∧
      q.event = some event ∧ event.id = id ∧ row = retriedRow event q.parkedAt := by
  induction ids generalizing rec with
  | nil => exact Or.inl h
  | cons id₁ ids ih =>
    have hrest := @ih (rec.retryOne id₁).2 h
    rcases retryOne_cases rec id₁ with ⟨q, event, hget, hevent, heq⟩ | heq
    · rw [heq] at hrest
      rcases hrest with hout | ⟨id', hid', q', event', hget', hevent', rest⟩
      · simp only [OrderedMap.get_set] at hout
        split at hout
        · rename_i hid
          exact Or.inr ⟨id₁, List.mem_cons_self, q, event, hget, hevent, hid.symm,
            (Option.some.inj hout).symm⟩
        · exact Or.inl hout
      · simp only [OrderedMap.get_erase] at hget'
        split at hget'
        · cases hget'
        · exact Or.inr ⟨id', List.mem_cons_of_mem _ hid', q', event', hget', hevent', rest⟩
    · rw [heq] at hrest
      rcases hrest with hout | ⟨id', hid', rest⟩
      · exact Or.inl hout
      · exact Or.inr ⟨id', List.mem_cons_of_mem _ hid', rest⟩

/-- Where a row of the outbox comes from. -/
inductive Arrived (rec : KeyRecord ι) (id : String) (row : OutboxRow ι) : StoreOp ι → Bool → Prop
  | stayed (o : StoreOp ι) (e : Bool) (row₀ : OutboxRow ι) (get : rec.outbox.get id = some row₀)
      (same : row.Same row₀) : Arrived rec id row o e
  | committed (l : Lease) (b : CommitBatch ι) (mem : row ∈ b.events) :
      Arrived rec id row (.commitPoll l b) true
  | retried (ids : List String) (id' : String) (mem : id' ∈ ids) (q : ParkedRow ι)
      (event : WatukuyEvent ι) (get : rec.parked.get id' = some q) (event_eq : q.event = some event)
      (id_eq : event.id = id) (row_eq : row = retriedRow event q.parkedAt) :
      Arrived rec id row (.retryParked ids) true

theorem Moved.arrived {rec rec' : KeyRecord ι} {o : StoreOp ι} {e : Bool} (h : Moved rec o e rec')
    {id : String} {row : OutboxRow ι} (hget : rec'.outbox.get id = some row) :
    Arrived rec id row o e := by
  have hstayed : ∀ {o e}, rec.outbox.get id = some row → Arrived rec id row o e := by
    intro o e hold
    exact .stayed o e row hold ⟨rfl, rfl, rfl⟩
  cases h with
  | still hout hparked _ =>
    rw [hout] at hget
    exact hstayed hget
  | commit l b hold =>
    rcases OrderedMap.get_setAll_cases _ _ _ hget with ⟨hmem, -⟩ | hget
    · exact .committed l b hmem
    · exact hstayed hget
  | ack l ids hold =>
    simp only [KeyRecord.ack, OrderedMap.get_eraseAll] at hget
    split at hget
    · cases hget
    · exact hstayed hget
  | record l id' error next hold =>
    unfold KeyRecord.noteAttempt at hget
    split at hget
    · exact hstayed hget
    · rename_i row₀ hrow₀
      simp only [OrderedMap.get_set] at hget
      split at hget
      · rename_i hid
        obtain rfl := Option.some.inj hget
        rw [← hid] at hrow₀
        exact .stayed _ _ row₀ hrow₀ ⟨rfl, rfl, rfl⟩
      · exact hstayed hget
  | park l q hold =>
    unfold KeyRecord.park at hget
    simp only at hget
    split at hget
    · rw [OrderedMap.get_erase] at hget
      split at hget
      · cases hget
      · exact hstayed hget
    · exact hstayed hget
  | retry ids =>
    rcases KeyRecord.retryParked_row hget with hold | ⟨id', hid', q, event, hget, hevent, hid, hrow⟩
    · exact hstayed hold
    · exact .retried ids id' hid' q event hget hevent hid hrow
  | discard ids => exact hstayed hget

/-- A retry puts no row into the parked table. -/
theorem KeyRecord.retryParked_parked {rec : KeyRecord ι} {ids : List String} {id : String}
    {q : ParkedRow ι} (h : (rec.retryParked ids).2.parked.get id = some q) :
    rec.parked.get id = some q := by
  induction ids generalizing rec with
  | nil => exact h
  | cons id₁ ids ih =>
    have hrest := @ih (rec.retryOne id₁).2 h
    rcases retryOne_cases rec id₁ with ⟨q', event, -, -, heq⟩ | heq
    · rw [heq, OrderedMap.get_erase] at hrest
      split at hrest
      · cases hrest
      · exact hrest
    · rw [heq] at hrest
      exact hrest

/-- Where a parked row comes from. -/
inductive Shelved (rec : KeyRecord ι) (id : String) (q : ParkedRow ι) : StoreOp ι → Bool → Prop
  | stayed (o : StoreOp ι) (e : Bool) (get : rec.parked.get id = some q) : Shelved rec id q o e
  | quarantined (l : Lease) (b : CommitBatch ι) (mem : q ∈ b.parked) (id_eq : q.id = id) :
      Shelved rec id q (.commitPoll l b) true
  | parked (l : Lease) (id_eq : q.id = id) : Shelved rec id q (.parkEvent l q) true

theorem Moved.shelved {rec rec' : KeyRecord ι} {o : StoreOp ι} {e : Bool} (h : Moved rec o e rec')
    {id : String} {q : ParkedRow ι} (hget : rec'.parked.get id = some q) : Shelved rec id q o e := by
  cases h with
  | still hout hparked _ =>
    rw [hparked] at hget
    exact .stayed _ _ hget
  | commit l b hold =>
    rcases OrderedMap.get_setAll_cases _ _ _ hget with ⟨hmem, hid⟩ | hget
    · exact .quarantined l b hmem hid
    · exact .stayed _ _ hget
  | ack l ids hold => exact .stayed _ _ hget
  | record l id' error next hold =>
    unfold KeyRecord.noteAttempt at hget
    split at hget <;> exact .stayed _ _ hget
  | park l row hold =>
    simp only [KeyRecord.park, OrderedMap.get_set] at hget
    split at hget
    · rename_i hid
      obtain rfl := Option.some.inj hget
      exact .parked l hid.symm
    · exact .stayed _ _ hget
  | retry ids => exact .stayed _ _ (KeyRecord.retryParked_parked hget)
  | discard ids =>
    simp only [KeyRecord.discardParked, OrderedMap.get_eraseAll] at hget
    split at hget
    · cases hget
    · exact .stayed _ _ hget

/-- Only a retry or a discard takes a row out of the parked table. -/
theorem Moved.still_parked {rec rec' : KeyRecord ι} {o : StoreOp ι} {e : Bool}
    (h : Moved rec o e rec') (hretry : ∀ ids, o ≠ .retryParked ids)
    (hdiscard : ∀ ids, o ≠ .discardParked ids) {id : String} (hid : (rec.parked.get id).isSome) :
    (rec'.parked.get id).isSome := by
  cases h with
  | still hout hparked _ =>
    rw [hparked]
    exact hid
  | commit l b hold =>
    simp only [KeyRecord.commit, OrderedMap.isSome_get_setAll]
    exact Or.inr hid
  | ack l ids hold => exact hid
  | record l id' error next hold =>
    unfold KeyRecord.noteAttempt
    split <;> exact hid
  | park l row hold =>
    simp only [KeyRecord.park, OrderedMap.get_set]
    split
    · rfl
    · exact hid
  | retry ids => exact absurd rfl (hretry ids)
  | discard ids => exact absurd rfl (hdiscard ids)

/-- What a retry makes of an id: nothing, or its parked event is pending again. -/
theorem KeyRecord.retryParked_cases {rec : KeyRecord ι} (h : rec.Filed) (ids : List String)
    (id : String) :
    ((rec.retryParked ids).2.parked.get id = rec.parked.get id ∧
        (rec.retryParked ids).2.outbox.get id = rec.outbox.get id) ∨
      ∃ q event, rec.parked.get id = some q ∧ q.event = some event ∧
        (rec.retryParked ids).2.parked.get id = none ∧
        (rec.retryParked ids).2.outbox.get id = some (retriedRow event q.parkedAt) := by
  induction ids generalizing rec with
  | nil => exact Or.inl ⟨rfl, rfl⟩
  | cons id₁ ids ih =>
    have hrest := @ih (rec.retryOne id₁).2 (h.retryOne id₁)
    have hstep : (rec.retryParked (id₁ :: ids)).2 = ((rec.retryOne id₁).2.retryParked ids).2 := rfl
    rw [hstep]
    rcases retryOne_cases rec id₁ with ⟨q, event, hget, hevent, heq⟩ | heq
    · obtain rfl : event.id = id₁ := (h.parked id₁ q hget).2 event hevent
      rw [heq] at hrest ⊢
      simp only [OrderedMap.get_set, OrderedMap.get_erase] at hrest
      by_cases hsame : id = event.id
      · -- its own turn: nothing is parked under the id any more
        subst hsame
        simp only [if_true] at hrest
        rcases hrest with ⟨hparked, hout⟩ | ⟨q', event', hget', -⟩
        · exact Or.inr ⟨q, event, hget, hevent, hparked, hout⟩
        · cases hget'
      · simp only [if_neg hsame] at hrest
        exact hrest
    · rw [heq] at hrest ⊢
      exact hrest

/-! ## Loads -/

section Loads

variable {rec : KeyRecord ι} {limit : Nat} {r p : OutboxRow ι}

theorem mem_pendingRows :
    p ∈ rec.pendingRows ↔ (∃ id, rec.outbox.get id = some p) ∧ p.status = .pending := by
  unfold KeyRecord.pendingRows
  rw [List.mem_insertionSort, List.mem_filter, OrderedMap.mem_values_iff]
  simp

theorem pendingRows_sorted (rec : KeyRecord ι) :
    rec.pendingRows.Pairwise fun a b => a.sequence ≤ b.sequence := by
  have : Std.Total fun a b : OutboxRow ι => a.sequence ≤ b.sequence :=
    ⟨fun a b => Nat.le_total a.sequence b.sequence⟩
  have : IsTrans (OutboxRow ι) fun a b => a.sequence ≤ b.sequence :=
    ⟨fun _ _ _ h h' => Nat.le_trans h h'⟩
  exact List.pairwise_insertionSort _ _

theorem loadPending_sorted (rec : KeyRecord ι) (limit : Nat) :
    (rec.loadPending limit).Pairwise fun a b => a.sequence ≤ b.sequence :=
  (pendingRows_sorted rec).sublist (List.take_sublist limit _)

/-- The rows loaded are pending rows of the store. -/
theorem loadPending_mem (h : r ∈ rec.loadPending limit) : ∃ id, rec.outbox.get id = some r :=
  (mem_pendingRows.1 (List.mem_of_mem_take h)).1

/-- A load that has a row has all rows before it. -/
theorem loadPending_closed (hr : r ∈ rec.loadPending limit) (hp : p ∈ rec.pendingRows)
    (hlt : p.sequence < r.sequence) : p ∈ rec.loadPending limit := by
  unfold KeyRecord.loadPending at hr ⊢
  have hsorted := pendingRows_sorted rec
  rw [← List.take_append_drop limit rec.pendingRows] at hp hsorted
  rcases List.mem_append.1 hp with hp | hp
  · exact hp
  · have hle := (List.pairwise_append.1 hsorted).2.2 r hr p hp
    omega

/-- No event is loaded twice. -/
theorem loadPending_distinct (h : rec.Filed) (limit : Nat) :
    ((rec.loadPending limit).map (·.eventId)).Nodup := by
  have hids : ∀ kv ∈ rec.outbox.entries, kv.2.eventId = kv.1 :=
    fun kv hmem => (h.outbox kv.1 kv.2 (OrderedMap.find_of_mem rec.outbox.nodup hmem)).1
  have hkeys : rec.outbox.values.map (·.eventId) = rec.outbox.entries.map Prod.fst := by
    rw [OrderedMap.values, List.map_map]
    exact List.map_congr_left hids
  have hvalues : (rec.outbox.values.map (·.eventId)).Nodup := by
    rw [hkeys]
    exact rec.outbox.nodup
  have hfiltered := hvalues.sublist
    ((List.filter_sublist (p := fun r => r.status == .pending) (l := rec.outbox.values)).map (·.eventId))
  have hsorted : (rec.pendingRows.map (·.eventId)).Nodup :=
    ((List.perm_insertionSort _ _).map _).nodup_iff.2 hfiltered
  exact hsorted.sublist ((List.take_sublist limit _).map _)

end Loads

/-! ## Steps -/

section Steps

variable {t : Nat} {o : Op ι} {ch : Choice ι} {a : Ans o} {w w' : World ι} {id : String}

/-- Where a row of the outbox comes from, after a step. -/
theorem step_arrived (hdel : o ≠ .store .deleteKey) (hw : perform o ch w = some (a, w'))
    {row : OutboxRow ι} (hget : w'.store.outbox.get id = some row) :
    (∃ row₀, w.store.outbox.get id = some row₀ ∧ row.Same row₀) ∨
      row ∈ stepRows (.act t o ch a) ∨
      ∃ ids id' q event, o = .store (.retryParked ids) ∧ id' ∈ ids ∧
        w.store.parked.get id' = some q ∧ q.event = some event ∧ event.id = id ∧
        row = retriedRow event q.parkedAt := by
  cases o with
  | store so =>
    have hmoved := performStore_moved (fun heq => hdel (congrArg Op.store heq)) (perform_store hw)
    have harrived := hmoved.arrived hget
    generalize heffect : tookEffect ch a = e at harrived
    cases harrived with
    | stayed _ _ row₀ hold hsame => exact Or.inl ⟨row₀, hold, hsame⟩
    | committed l b hmem =>
      rw [show stepRows (.act t (.store (.commitPoll l b)) ch a) = b.events from if_pos heffect]
      exact Or.inr (Or.inl hmem)
    | retried ids id' hid' q event hq hevent hid hrow =>
      exact Or.inr (Or.inr ⟨ids, id', q, event, rfl, hid', hq, hevent, hid, hrow⟩)
  | _ =>
    rw [perform_other (fun so => by simp) hw] at hget
    exact Or.inl ⟨row, hget, rfl, rfl, rfl⟩

/-- Where a parked row comes from, after a step. -/
theorem step_shelved (hdel : o ≠ .store .deleteKey) (hw : perform o ch w = some (a, w'))
    {q : ParkedRow ι} (hget : w'.store.parked.get id = some q) :
    w.store.parked.get id = some q ∨
      (∃ l b, o = .store (.commitPoll l b) ∧ q ∈ b.parked ∧ q.id = id) ∨
      ∃ l, o = .store (.parkEvent l q) ∧ q.id = id := by
  cases o with
  | store so =>
    have hmoved := performStore_moved (fun heq => hdel (congrArg Op.store heq)) (perform_store hw)
    have hshelved := hmoved.shelved hget
    generalize tookEffect ch a = e at hshelved
    cases hshelved with
    | stayed _ _ hold => exact Or.inl hold
    | quarantined l b hmem hid => exact Or.inr (Or.inl ⟨l, b, rfl, hmem, hid⟩)
    | parked l hid => exact Or.inr (Or.inr ⟨l, rfl, hid⟩)
  | _ =>
    rw [perform_other (fun so => by simp) hw] at hget
    exact Or.inl hget

/-- Only a retry or a discard takes a row out of the parked table. -/
theorem step_still_parked (hdel : o ≠ .store .deleteKey) (hretry : ∀ ids, o ≠ .store (.retryParked ids))
    (hdiscard : ∀ ids, o ≠ .store (.discardParked ids)) (hw : perform o ch w = some (a, w'))
    (hid : (w.store.parked.get id).isSome) : (w'.store.parked.get id).isSome := by
  cases o with
  | store so =>
    have hmoved := performStore_moved (fun heq => hdel (congrArg Op.store heq)) (perform_store hw)
    exact hmoved.still_parked (fun ids heq => hretry ids (congrArg Op.store heq))
      (fun ids heq => hdiscard ids (congrArg Op.store heq)) hid
  | _ =>
    rw [perform_other (fun so => by simp) hw]
    exact hid

end Steps

end Watukuy
