import Watukuy.Run.Rounds

/-!
# The rows of a drain

A drain takes rows out of the outbox or schedules their next attempt, and adds none. The rows that are
loaded, queued or in the hands of a worker are in line (`InLine`): what is pending of their keys is
among them or behind them. So the row for which a worker blocks its key comes before all that is pending
of the key (`Barred`), and a row that is gone was attempted (`tended`).
-/

set_option autoImplicit false

namespace Watukuy

open Library KeyRecord

variable {ι : Type}

/-! ## What happened to a row -/

/-- The handler was called for the row. -/
def Attempted (tr : List (Label (system ι))) (row : OutboxRow ι) : Prop :=
  ∃ t ch a, .act t (.deliver { row.event with attempt := row.attempts + 1 }) ch a ∈ tr

/-- The row failed, and its next attempt was scheduled. -/
def Rescheduled (tr : List (Label (system ι))) (row : OutboxRow ι) : Prop :=
  ∃ t l error next ch a, .act t (.store (.recordAttempt l row.eventId error next)) ch a ∈ tr ∧
    tookEffect ch a = true

/-- The clock read a time before the next attempt of the row. -/
def NotDue (tr : List (Label (system ι))) (row : OutboxRow ι) : Prop :=
  ∃ at_ now, row.nextAttemptAt = some at_ ∧ (∃ t ch, .act t .now ch now ∈ tr) ∧ now < at_

/-- Why the row blocks its ordering key: it failed, it is not due, or it is parked and holds the key. -/
def Blocker (poller : ResolvedPoller ι) (tr : List (Label (system ι))) (rec : KeyRecord ι)
    (row : OutboxRow ι) : Prop :=
  Rescheduled tr row ∨ NotDue tr row ∨ (poller.delivery.poisonHoldKey = true ∧
    ∃ q, rec.parked.get row.eventId = some q ∧ q.holdKey = some (orderingKey poller row.event))

section Monotone

variable {tr : List (Label (system ι))} {row : OutboxRow ι}

theorem Attempted.snoc (h : Attempted tr row) (l : Label (system ι)) : Attempted (tr ++ [l]) row := by
  obtain ⟨t, ch, a, hmem⟩ := h
  exact ⟨t, ch, a, List.mem_append_left _ hmem⟩

theorem Rescheduled.snoc (h : Rescheduled tr row) (l : Label (system ι)) :
    Rescheduled (tr ++ [l]) row := by
  obtain ⟨t, lease, error, next, ch, a, hmem, heffect⟩ := h
  exact ⟨t, lease, error, next, ch, a, List.mem_append_left _ hmem, heffect⟩

theorem Rescheduled.of_id {row' : OutboxRow ι} (h : Rescheduled tr row)
    (hid : row.eventId = row'.eventId) : Rescheduled tr row' := by
  unfold Rescheduled at h ⊢
  rw [← hid]
  exact h

theorem NotDue.snoc (h : NotDue tr row) (l : Label (system ι)) : NotDue (tr ++ [l]) row := by
  obtain ⟨at_, now, hnext, ⟨t, ch, hmem⟩, hlt⟩ := h
  exact ⟨at_, now, hnext, ⟨t, ch, List.mem_append_left _ hmem⟩, hlt⟩

end Monotone

/-! ## Rows in line -/

/-- The row is one of `rec₀`, as it was there unless it was attempted and failed. -/
def Carried (rec₀ : KeyRecord ι) (tr : List (Label (system ι))) (row : OutboxRow ι) : Prop :=
  ∃ r, rec₀.outbox.get row.eventId = some r ∧ row.Same r ∧
    (row = r ∨ (Attempted tr r ∧ Rescheduled tr r))

/-- The rows of the keys `K`, in order: what is pending of these keys is among them or behind them. -/
structure InLine (poller : ResolvedPoller ι) (rec₀ : KeyRecord ι) (tr : List (Label (system ι)))
    (rec : KeyRecord ι) (K : String → Prop) (rows : List (OutboxRow ι)) : Prop where
  carried : ∀ r ∈ rows, Carried rec₀ tr r
  keyed : ∀ r ∈ rows, K (orderingKey poller r.event)
  sorted : rows.Pairwise fun a b => a.sequence ≤ b.sequence
  closed : ∀ id p, rec.outbox.get id = some p → K (orderingKey poller p.event) →
    id ∈ rows.map (·.eventId) ∨ ∀ r ∈ rows, r.sequence ≤ p.sequence

/-- Every row of the outbox is one of `rec₀`, and pending. -/
def Inherits (rec₀ : KeyRecord ι) (tr : List (Label (system ι))) (rec : KeyRecord ι) : Prop :=
  ∀ id p, rec.outbox.get id = some p → p.eventId = id ∧ p.status = .pending ∧ Carried rec₀ tr p

/-- The outbox has lost rows at most, and the others stand for the same events. -/
def Fewer (rec rec' : KeyRecord ι) : Prop :=
  ∀ id p', rec'.outbox.get id = some p' →
    ∃ p, rec.outbox.get id = some p ∧ p'.Same p ∧ p'.status = p.status

section Line

variable {poller : ResolvedPoller ι} {rec₀ rec rec' : KeyRecord ι} {tr : List (Label (system ι))}
  {K : String → Prop} {rows : List (OutboxRow ι)} {r : OutboxRow ι}

theorem Carried.snoc (h : Carried rec₀ tr r) (l : Label (system ι)) : Carried rec₀ (tr ++ [l]) r := by
  obtain ⟨r₀, hget, hsame, hstate⟩ := h
  refine ⟨r₀, hget, hsame, hstate.imp_right ?_⟩
  rintro ⟨hattempted, hfailed⟩
  exact ⟨hattempted.snoc l, hfailed.snoc l⟩

/-- The row of `rec₀` was attempted when the traced one was. -/
theorem Carried.attempted (h : Carried rec₀ tr r) (hr : Attempted tr r) {r₀ : OutboxRow ι}
    (hget : rec₀.outbox.get r.eventId = some r₀) : Attempted tr r₀ := by
  obtain ⟨r₁, hget₁, -, hstate⟩ := h
  rw [hget] at hget₁
  obtain rfl := Option.some.inj hget₁
  rcases hstate with rfl | ⟨hattempted, -⟩
  · exact hr
  · exact hattempted

/-- A carried row and the pending one of its id stand for the same event. -/
theorem Carried.same (h : Carried rec₀ tr r) (hrec : Inherits rec₀ tr rec) {id : String}
    {p : OutboxRow ι} (hget : rec.outbox.get id = some p) (hid : r.eventId = id) : r.Same p := by
  obtain ⟨r₀, hr₀, hsame, -⟩ := h
  obtain ⟨hp, -, p₀, hp₀, hsame', -⟩ := hrec id p hget
  rw [hp, ← hid, hr₀] at hp₀
  obtain rfl := Option.some.inj hp₀
  exact ⟨hsame.id.trans hsame'.id.symm, hsame.sequence.trans hsame'.sequence.symm,
    hsame.event.trans hsame'.event.symm⟩

theorem Carried.stamped (h : Carried rec₀ tr r) (hrec : rec₀.Filed) : r.event.id = r.eventId := by
  obtain ⟨r₀, hget, hsame, -⟩ := h
  rw [hsame.event, hsame.id]
  exact (hrec.outbox _ r₀ hget).2.id

theorem InLine.snoc (h : InLine poller rec₀ tr rec K rows) (l : Label (system ι))
    (hfewer : Fewer rec rec') : InLine poller rec₀ (tr ++ [l]) rec' K rows := by
  refine ⟨fun r hr => (h.carried r hr).snoc l, h.keyed, h.sorted, ?_⟩
  intro id p' hget hkey
  obtain ⟨p, hp, hsame, -⟩ := hfewer id p' hget
  rw [hsame.event] at hkey
  rw [hsame.sequence]
  exact h.closed id p hp hkey

/-- Once the first row is gone, the others are in line. -/
theorem InLine.tail (h : InLine poller rec₀ tr rec K (r :: rows))
    (hgone : rec.outbox.get r.eventId = none) : InLine poller rec₀ tr rec K rows := by
  refine ⟨fun r' hr' => h.carried r' (List.mem_cons_of_mem _ hr'),
    fun r' hr' => h.keyed r' (List.mem_cons_of_mem _ hr'), (List.pairwise_cons.1 h.sorted).2, ?_⟩
  intro id p hget hkey
  rcases h.closed id p hget hkey with hmem | hbehind
  · refine Or.inl ?_
    rw [List.map_cons, List.mem_cons] at hmem
    rcases hmem with rfl | hmem
    · rw [hgone] at hget
      cases hget
    · exact hmem
  · exact Or.inr fun r' hr' => hbehind r' (List.mem_cons_of_mem _ hr')

theorem InLine.nil : InLine poller rec₀ tr rec K [] := by
  refine ⟨?_, ?_, List.Pairwise.nil, fun _ _ _ _ => Or.inr ?_⟩
  · intro r hr
    cases hr
  · intro r hr
    cases hr
  · intro r hr
    cases hr

/-- The first row comes before everything that is pending of its keys. -/
theorem InLine.first (h : InLine poller rec₀ tr rec K (r :: rows)) (hrec : Inherits rec₀ tr rec)
    {id : String} {p : OutboxRow ι} (hget : rec.outbox.get id = some p)
    (hkey : K (orderingKey poller p.event)) : r.sequence ≤ p.sequence := by
  rcases h.closed id p hget hkey with hmem | hbehind
  · -- the row of this event in the line has the sequence of the pending one
    obtain ⟨r', hr', hid⟩ := List.mem_map.1 hmem
    have hsequence : r'.sequence = p.sequence := ((h.carried r' hr').same hrec hget hid).sequence
    rw [← hsequence]
    rcases List.mem_cons.1 hr' with rfl | hr'
    · exact le_rfl
    · exact (List.pairwise_cons.1 h.sorted).1 r' hr'
  · exact hbehind r List.mem_cons_self

/-- The rows of one key, out of a line. -/
theorem InLine.group (h : InLine poller rec₀ tr rec (fun _ => True) rows)
    (hrec : Inherits rec₀ tr rec) (key : String) :
    InLine poller rec₀ tr rec (· = key)
      (rows.filter fun r => orderingKey poller r.event = key) := by
  refine ⟨fun r hr => h.carried r (List.mem_of_mem_filter hr), ?_, h.sorted.sublist List.filter_sublist,
    ?_⟩
  · intro r hr
    simpa using (List.mem_filter.1 hr).2
  · intro id p hget hkey
    rcases h.closed id p hget trivial with hmem | hbehind
    · obtain ⟨r, hr, hid⟩ := List.mem_map.1 hmem
      have hsame := (h.carried r hr).same hrec hget hid
      refine Or.inl (List.mem_map.2 ⟨r, List.mem_filter.2 ⟨hr, ?_⟩, hid⟩)
      rw [hsame.event, hkey]
      simp
    · exact Or.inr fun r hr => hbehind r (List.mem_of_mem_filter hr)

end Line

/-! ## The calls of workers -/

/-- What a call of a worker makes of the store, about the first row of its group. -/
inductive Touches (d : Deployment ι) (x : HandView ι) (rec rec' : KeyRecord ι) (ch : Choice ι) :
    (o : StoreOp ι) → Except JsError o.Result → Prop
  | still (o : StoreOp ι) (a : Except JsError o.Result) (outbox : rec'.outbox = rec.outbox)
      (parked : rec'.parked = rec.parked) (failed : ∀ u, a ≠ .ok u) : Touches d x rec rec' ch o a
  | acked (l : Lease) (r : OutboxRow ι) (rest : List (OutboxRow ι)) (a : Except JsError Unit)
      (head : x.rest = r :: rest) (write : rec' = rec.ack [r.eventId]) :
      Touches d x rec rec' ch (.ackEvents l [r.eventId]) a
  | recorded (l : Lease) (r : OutboxRow ι) (rest : List (OutboxRow ι)) (error : SerializedError)
      (next : Option Int) (a : Except JsError Unit) (head : x.rest = r :: rest)
      (effect : tookEffect (o := .recordAttempt l r.eventId error next) ch a = true)
      (write : rec' = rec.noteAttempt r.eventId (some error) next) :
      Touches d x rec rec' ch (.recordAttempt l r.eventId error next) a
  | shelved (l : Lease) (r : OutboxRow ι) (rest : List (OutboxRow ι)) (error : SerializedError)
      (failedAt parkedAt : Int) (a : Except JsError Unit) (head : x.rest = r :: rest)
      (write : rec' = rec.park (poisonRow d.poller x.key r error failedAt parkedAt)) :
      Touches d x rec rec' ch
        (.parkEvent l (poisonRow d.poller x.key r error failedAt parkedAt)) a

section Touches

variable {d : Deployment ι} {x : HandView ι} {rec rec' : KeyRecord ι} {ch : Choice ι}
  {so : StoreOp ι} {a : Except JsError so.Result}

theorem touches (hallow : x.allowStore d so) (h : performStore so ch rec = some (a, rec')) :
    Touches d x rec rec' ch so a := by
  have hok : ∀ u, a = .ok u → tookEffect ch a = true := by
    rintro u rfl
    exact tookEffect_ok h
  cases so with
  | ackEvents l ids =>
    obtain ⟨r, rest, hrest, rfl⟩ := hallow
    have hmoved := performStore_moved (by simp) h
    generalize tookEffect ch a = effect at hmoved hok
    cases hmoved with
    | still hout hparked hidle =>
      exact .still _ _ hout hparked fun u hu => Bool.noConfusion ((hidle trivial).symm.trans (hok u hu))
    | ack _ _ _ => exact .acked l r rest a hrest rfl
  | recordAttempt l id error next =>
    obtain ⟨r, rest, hrest, rfl⟩ := hallow
    have hmoved := performStore_moved (by simp) h
    generalize heffect : tookEffect ch a = effect at hmoved hok
    cases hmoved with
    | still hout hparked hidle =>
      exact .still _ _ hout hparked fun u hu => Bool.noConfusion ((hidle trivial).symm.trans (hok u hu))
    | record _ _ _ _ _ => exact .recorded l r rest error next a hrest heffect rfl
  | parkEvent l q =>
    obtain ⟨r, rest, error, failedAt, parkedAt, hrest, rfl⟩ := hallow
    have hmoved := performStore_moved (by simp) h
    generalize tookEffect ch a = effect at hmoved hok
    cases hmoved with
    | still hout hparked hidle =>
      exact .still _ _ hout hparked fun u hu => Bool.noConfusion ((hidle trivial).symm.trans (hok u hu))
    | park _ _ _ => exact .shelved l r rest error failedAt parkedAt a hrest rfl
  | _ => exact hallow.elim

theorem Touches.fewer (h : Touches d x rec rec' ch so a) : Fewer rec rec' := by
  intro id p' hget
  cases h with
  | still _ _ hout _ _ =>
    rw [hout] at hget
    exact ⟨p', hget, ⟨rfl, rfl, rfl⟩, rfl⟩
  | acked l r rest a _ hwrite =>
    rw [hwrite] at hget
    simp only [KeyRecord.ack, OrderedMap.get_eraseAll] at hget
    split at hget
    · cases hget
    · exact ⟨p', hget, ⟨rfl, rfl, rfl⟩, rfl⟩
  | recorded l r rest error next a _ _ hwrite =>
    rw [hwrite] at hget
    unfold KeyRecord.noteAttempt at hget
    split at hget
    · exact ⟨p', hget, ⟨rfl, rfl, rfl⟩, rfl⟩
    · rename_i p hp
      simp only [OrderedMap.get_set] at hget
      split at hget
      · rename_i hid
        obtain rfl := Option.some.inj hget
        exact ⟨p, by rw [hid, hp], ⟨rfl, rfl, rfl⟩, rfl⟩
      · exact ⟨p', hget, ⟨rfl, rfl, rfl⟩, rfl⟩
  | shelved l r rest error failedAt parkedAt a _ hwrite =>
    rw [hwrite] at hget
    simp only [KeyRecord.park, poisonRow, OrderedMap.get_erase] at hget
    split at hget
    · cases hget
    · exact ⟨p', hget, ⟨rfl, rfl, rfl⟩, rfl⟩

/-- Only the row at hand changes: it is gone, or its next attempt is scheduled. -/
theorem Touches.changed (h : Touches d x rec rec' ch so a)
    (hstamped : ∀ r ∈ x.rest, r.event.id = r.eventId) (t : Nat) (id : String) :
    rec'.outbox.get id = rec.outbox.get id ∨ ∃ r rest, x.rest = r :: rest ∧ r.eventId = id ∧
      (rec'.outbox.get id = none ∨ Rescheduled [.act t (.store so) ch a] r) := by
  by_cases hhead : ∃ r rest, x.rest = r :: rest ∧ r.eventId = id
  · obtain ⟨r, rest, hrest, rfl⟩ := hhead
    cases h with
    | still _ _ hout _ _ => exact Or.inl (by rw [hout])
    | acked l r' rest' a hrest' hwrite =>
      obtain ⟨rfl, rfl⟩ := List.cons.inj (hrest.symm.trans hrest')
      refine Or.inr ⟨r, rest, hrest, rfl, Or.inl ?_⟩
      rw [hwrite]
      simp [KeyRecord.ack, OrderedMap.get_eraseAll]
    | recorded l r' rest' error next a hrest' heffect hwrite =>
      obtain ⟨rfl, rfl⟩ := List.cons.inj (hrest.symm.trans hrest')
      exact Or.inr ⟨r, rest, hrest, rfl,
        Or.inr ⟨t, l, error, next, ch, a, List.mem_singleton_self _, heffect⟩⟩
    | shelved l r' rest' error failedAt parkedAt a hrest' hwrite =>
      obtain ⟨rfl, rfl⟩ := List.cons.inj (hrest.symm.trans hrest')
      refine Or.inr ⟨r, rest, hrest, rfl, Or.inl ?_⟩
      rw [hwrite]
      simp only [KeyRecord.park, poisonRow, OrderedMap.get_erase]
      rw [if_pos (hstamped r (by simp [hrest])).symm]
  · -- the call is about another row
    have hne : ∀ r rest, x.rest = r :: rest → id ≠ r.eventId :=
      fun r rest hrest hid => hhead ⟨r, rest, hrest, hid.symm⟩
    refine Or.inl ?_
    cases h with
    | still _ _ hout _ _ => rw [hout]
    | acked l r rest a hrest hwrite =>
      rw [hwrite]
      simp [KeyRecord.ack, OrderedMap.get_eraseAll, hne r rest hrest]
    | recorded l r rest error next a hrest _ hwrite =>
      rw [hwrite]
      unfold KeyRecord.noteAttempt
      split
      · rfl
      · simp [OrderedMap.get_set, hne r rest hrest]
    | shelved l r rest error failedAt parkedAt a hrest hwrite =>
      rw [hwrite]
      simp only [KeyRecord.park, poisonRow, OrderedMap.get_erase]
      rw [if_neg]
      rw [hstamped r (by simp [hrest])]
      exact hne r rest hrest

/-- A parked row stays, or the row at hand takes its place. -/
theorem Touches.parked (h : Touches d x rec rec' ch so a) {id : String} {q : ParkedRow ι}
    (hq : rec.parked.get id = some q) : rec'.parked.get id = some q ∨ ∃ r rest q', x.rest = r :: rest ∧
      r.eventId = id ∧ rec'.parked.get id = some q' ∧
      q'.holdKey = if d.poller.delivery.poisonHoldKey then some x.key else none := by
  cases h with
  | still _ _ _ hparked _ => exact Or.inl (by rw [hparked, hq])
  | acked l r rest a _ hwrite => exact Or.inl (by rw [hwrite]; exact hq)
  | recorded l r rest error next a _ _ hwrite =>
    refine Or.inl ?_
    rw [hwrite]
    unfold KeyRecord.noteAttempt
    split <;> exact hq
  | shelved l r rest error failedAt parkedAt a hrest hwrite =>
    rw [hwrite]
    simp only [KeyRecord.park, OrderedMap.get_set]
    by_cases hid : id = r.eventId
    · exact Or.inr ⟨r, rest, _, hrest, hid.symm, if_pos hid, rfl⟩
    · exact Or.inl ((if_neg hid).trans hq)

end Touches

/-- What a step makes of the store, when a thread takes it in the view `v`. -/
structure Advances (d : Deployment ι) (l : Label (system ι)) (v : CrewView ι) (rec rec' : KeyRecord ι) :
    Prop where
  fewer : Fewer rec rec'
  changed : ∀ id, rec'.outbox.get id = rec.outbox.get id ∨ ∃ x r rest, v = .hand x ∧
    x.step = .tried ∧ x.rest = r :: rest ∧ r.eventId = id ∧
    (rec'.outbox.get id = none ∨ Rescheduled [l] r)
  parked : ∀ id q, rec.parked.get id = some q → rec'.parked.get id = some q ∨
    ∃ x r rest q', v = .hand x ∧ x.rest = r :: rest ∧ r.eventId = id ∧
      rec'.parked.get id = some q' ∧
      q'.holdKey = if d.poller.delivery.poisonHoldKey then some x.key else none

/-- A step that leaves the rows where they are. -/
theorem Advances.still {d : Deployment ι} {l : Label (system ι)} {v : CrewView ι}
    {rec rec' : KeyRecord ι} (hout : rec'.outbox = rec.outbox) (hparked : rec'.parked = rec.parked) :
    Advances d l v rec rec' := by
  refine ⟨?_, fun id => Or.inl (by rw [hout]), fun id q hq => Or.inl (by rw [hparked, hq])⟩
  intro id p' hget
  rw [hout] at hget
  exact ⟨p', hget, ⟨rfl, rfl, rfl⟩, rfl⟩

section Advances

variable {d : Deployment ι} {v : CrewView ι} {t : Nat} {o : Op ι} {ch : Choice ι} {a : Ans o}
  {w w' : World ι}

theorem advances (hallow : v.allow d o)
    (hstamped : ∀ x, v = .hand x → ∀ r ∈ x.rest, r.event.id = r.eventId)
    (hw : perform o ch w = some (a, w')) : Advances d (.act t o ch a) v w.store w'.store := by
  cases o with
  | store so =>
    have hstore := perform_store hw
    cases v with
    | drainer m =>
      have hquiet : ¬so.Moving := by
        cases so <;> first | exact hallow.elim | exact id
      have hmoved := performStore_moved (by rintro rfl; exact hquiet trivial) hstore
      generalize tookEffect ch a = effect at hmoved
      generalize w'.store = rec' at hmoved ⊢
      cases hmoved with
      | still hout hparked _ => exact .still hout hparked
      | _ => exact absurd trivial hquiet
    | hand x =>
      obtain ⟨-, hstep, hwork⟩ := hallow
      have htouch := touches hwork hstore
      refine ⟨htouch.fewer, ?_, ?_⟩
      · intro id
        rcases htouch.changed (hstamped x rfl) t id with hsame | ⟨r, rest, hrest, hid, hend⟩
        · exact Or.inl hsame
        · exact Or.inr ⟨x, r, rest, rfl, hstep, hrest, hid, hend⟩
      · intro id q hq
        rcases htouch.parked hq with hsame | ⟨r, rest, q', hrest, hid, hget, hhold⟩
        · exact Or.inl hsame
        · exact Or.inr ⟨x, r, rest, q', rfl, hrest, hid, hget, hhold⟩
  | _ =>
    have hsame : w'.store = w.store := perform_other (fun so => by simp) hw
    rw [hsame]
    exact .still rfl rfl

end Advances

/-! ## What is known of a worker -/

/-- A step that neither halts the drain nor sees the signal aborted. -/
def Unstopped : Label (system ι) → Prop
  | .act _ (.noteDrain _ .halted) _ _ => False
  | .act _ (.signal _) _ reason => Option.isNone reason = true
  | _ => True

structure HandKept (d : Deployment ι) (rec₀ : KeyRecord ι) (tr : List (Label (system ι)))
    (rec : KeyRecord ι) (x : HandView ι) : Prop where
  line : InLine d.poller rec₀ tr rec (· = x.key) x.rest
  tried : x.step ≠ .ready → ∃ r rest, x.rest = r :: rest ∧ Attempted tr r
  gone : x.step = .acked ∨ x.step = .shelved → ∀ r ∈ x.rest.head?, rec.outbox.get r.eventId = none
  held : x.step = .shelved → d.poller.delivery.poisonHoldKey = true → ∀ r ∈ x.rest.head?,
    ∃ q, rec.parked.get r.eventId = some q ∧ q.holdKey = some x.key
  recorded : x.step = .recorded → ∀ r ∈ x.rest.head?, Rescheduled tr r
  clock : ∀ now ∈ x.clock, ∃ t ch, .act t .now ch now ∈ tr
  stopped : x.stopped = false

section Hands

variable {d : Deployment ι} {rec₀ rec rec' : KeyRecord ι} {tr : List (Label (system ι))}
  {l : Label (system ι)} {v : CrewView ι} {x y : HandView ι}

/-- A worker that turns to the rows `y.rest`. -/
theorem HandKept.turn (h : HandKept d rec₀ tr rec x)
    (hline : InLine d.poller rec₀ tr rec (· = y.key) y.rest) (hstep : y.step = .ready)
    (hclock : y.clock = x.clock) (hstopped : y.stopped = x.stopped) : HandKept d rec₀ tr rec y := by
  have hready : ∀ s, s ≠ .ready → y.step ≠ s := by
    rintro s hs rfl
    exact hs hstep
  refine ⟨hline, fun hne => absurd hstep hne, ?_, fun hs => absurd hs (hready _ (by simp)),
    fun hs => absurd hs (hready _ (by simp)), ?_, hstopped.trans h.stopped⟩
  · rintro (hs | hs)
    · exact absurd hs (hready _ (by simp))
    · exact absurd hs (hready _ (by simp))
  · rw [hclock]
    exact h.clock

/-- The key of a parked row at hand is kept. -/
theorem Advances.holds (hadv : Advances d l v rec rec')
    (hhands : ∀ y, v = .hand y → HandKept d rec₀ tr rec y)
    (hhold : d.poller.delivery.poisonHoldKey = true) {r r₀ : OutboxRow ι}
    (hr₀ : rec₀.outbox.get r.eventId = some r₀) {key : String}
    (hkey : orderingKey d.poller r₀.event = key) {q : ParkedRow ι}
    (hq : rec.parked.get r.eventId = some q) (hheld : q.holdKey = some key) :
    ∃ q', rec'.parked.get r.eventId = some q' ∧ q'.holdKey = some key := by
  rcases hadv.parked _ q hq with hsame | ⟨y, r', rest, q', rfl, hrest, hid, hget, hnew⟩
  · exact ⟨q, hsame, hheld⟩
  · -- the row that takes its place stands for the same event, so for the same key
    refine ⟨q', hget, ?_⟩
    have hline := (hhands y rfl).line
    have hmem : r' ∈ y.rest := by simp [hrest]
    obtain ⟨r₁, hr₁, hsame, -⟩ := hline.carried r' hmem
    rw [hid, hr₀] at hr₁
    obtain rfl := Option.some.inj hr₁
    rw [hnew, if_pos hhold, ← hkey, ← hline.keyed r' hmem, hsame.event]

/-- The worker stays as it is while the run goes on. -/
theorem HandKept.snoc (h : HandKept d rec₀ tr rec x) (hadv : Advances d l v rec rec')
    (hhands : ∀ y, v = .hand y → HandKept d rec₀ tr rec y) :
    HandKept d rec₀ (tr ++ [l]) rec' x := by
  refine ⟨h.line.snoc l hadv.fewer, ?_, ?_, ?_, ?_, ?_, h.stopped⟩
  · intro hstep
    obtain ⟨r, rest, hrest, hattempted⟩ := h.tried hstep
    exact ⟨r, rest, hrest, hattempted.snoc l⟩
  · intro hstep r hr
    cases hget : rec'.outbox.get r.eventId with
    | none => rfl
    | some p' =>
      obtain ⟨p, hp, -⟩ := hadv.fewer _ p' hget
      rw [h.gone hstep r hr] at hp
      cases hp
  · intro hstep hhold r hr
    obtain ⟨q, hq, hheld⟩ := h.held hstep hhold r hr
    have hmem := List.mem_of_mem_head? hr
    obtain ⟨r₀, hr₀, hsame, -⟩ := h.line.carried r hmem
    refine hadv.holds hhands hhold hr₀ ?_ hq hheld
    rw [← hsame.event]
    exact h.line.keyed r hmem
  · intro hstep r hr
    exact (h.recorded hstep r hr).snoc l
  · intro now hnow
    obtain ⟨t, ch, hmem⟩ := h.clock now hnow
    exact ⟨t, ch, List.mem_append_left _ hmem⟩

end Hands

section Learn

variable {d : Deployment ι} {rec₀ : KeyRecord ι} {tr : List (Label (system ι))} {t : Nat} {o : Op ι}
  {ch : Choice ι} {a : Ans o} {w w' : World ι} {x : HandView ι}

/-- What a worker makes of the store keeps what is known of it. -/
theorem HandKept.store {so : StoreOp ι} {a : Except JsError so.Result} (hrec : rec₀.Filed)
    (h : HandKept d rec₀ tr w.store x) (hallow : x.allow d (.store so))
    (hw : perform (.store so) ch w = some (a, w'))
    (h' : HandKept d rec₀ (tr ++ [.act t (.store so) ch a]) w'.store x) :
    HandKept d rec₀ (tr ++ [.act t (.store so) ch a]) w'.store (x.learn d (.store so) a) := by
  obtain ⟨-, hstep, hwork⟩ := hallow
  have hstore := perform_store hw
  have htouch := touches hwork hstore
  have htried := h'.tried (by rw [hstep]; simp)
  cases htouch with
  | still so a _ _ hfailed =>
    cases a with
    | ok u => exact absurd rfl (hfailed u)
    | error e =>
      have hsame : x.learn d (.store so) (.error e) = x := by
        cases so <;> rfl
      rw [hsame]
      exact h'
  | acked l r rest a hrest hwrite =>
    cases a with
    | error e => exact h'
    | ok u =>
      refine ⟨h'.line, fun _ => htried, ?_, (fun hs => by cases hs), (fun hs => by cases hs), h'.clock,
        h'.stopped⟩
      -- the row is gone from the outbox
      intro _ r' hr'
      rw [show (x.learn d (.store (.ackEvents l [r.eventId])) (.ok u)).rest = r :: rest from hrest,
        List.head?_cons, Option.mem_some_iff] at hr'
      subst hr'
      rw [hwrite]
      simp [KeyRecord.ack, OrderedMap.get_eraseAll]
  | recorded l r rest error next a hrest heffect hwrite =>
    cases a with
    | error e => exact h'
    | ok u =>
      refine ⟨h'.line, fun _ => htried, ?_, (fun hs => by cases hs), ?_, h'.clock, h'.stopped⟩
      · rintro (hs | hs) <;> cases hs
      · intro _ r' hr'
        rw [show (x.learn d (.store (.recordAttempt l r.eventId error next)) (.ok u)).rest = r :: rest
          from hrest, List.head?_cons, Option.mem_some_iff] at hr'
        subst hr'
        exact ⟨t, l, error, next, ch, .ok u, by simp, heffect⟩
  | shelved l r rest error failedAt parkedAt a hrest hwrite =>
    cases a with
    | error e => exact h'
    | ok u =>
      have hhead : ∀ r' ∈ x.rest.head?, r' = r := by
        intro r' hr'
        rw [hrest, List.head?_cons, Option.mem_some_iff] at hr'
        exact hr'.symm
      refine ⟨h'.line, fun _ => htried, ?_, ?_, (fun hs => by cases hs), h'.clock, h'.stopped⟩
      · -- parking takes the row out of the outbox, and files it with the key if keys are held
        intro _ r' hr'
        obtain rfl := hhead r' hr'
        rw [hwrite]
        simp only [KeyRecord.park, poisonRow, OrderedMap.get_erase]
        rw [if_pos ((h.line.carried r' (by simp [hrest])).stamped hrec).symm]
      · intro _ hhold r' hr'
        obtain rfl := hhead r' hr'
        rw [hwrite]
        refine ⟨poisonRow d.poller x.key r' error failedAt parkedAt, ?_, if_pos hhold⟩
        simp [KeyRecord.park, poisonRow]

/-- What is known of a worker, after a step of its own. -/
theorem HandKept.learn (hrec : rec₀.Filed) (h : HandKept d rec₀ tr w.store x) (hallow : x.allow d o)
    (hw : perform o ch w = some (a, w')) (hrun : Unstopped (.act t o ch a))
    (hhalted : ∀ i, (w.drain i).result.halted = false)
    (hqueue : ∀ i, ∀ g ∈ (w.drain i).queue, InLine d.poller rec₀ tr w.store (· = g.key) g.rows) :
    HandKept d rec₀ (tr ++ [.act t o ch a]) w'.store (x.learn d o a) := by
  have hadv : Advances d (.act t o ch a) (.hand x) w.store w'.store := by
    refine advances hallow ?_ hw
    rintro _ ⟨⟩ r hr
    exact (h.line.carried r hr).stamped hrec
  have h' : HandKept d rec₀ (tr ++ [.act t o ch a]) w'.store x := by
    refine h.snoc hadv ?_
    rintro _ ⟨⟩
    exact h
  cases o with
  | store so => exact h.store hrec hallow hw h'
  | now =>
    refine ⟨h'.line, h'.tried, h'.gone, h'.held, h'.recorded, ?_, h'.stopped⟩
    intro now hnow
    obtain rfl : a = now := Option.some.inj hnow
    exact ⟨t, ch, by simp⟩
  | signal i =>
    refine ⟨h'.line, h'.tried, h'.gone, h'.held, h'.recorded, h'.clock, ?_⟩
    have hnone : a = none := Option.isNone_iff_eq_none.1 hrun
    simp [HandView.learn, hnone, h'.stopped]
  | peekDrain i =>
    refine ⟨h'.line, h'.tried, h'.gone, h'.held, h'.recorded, h'.clock, ?_⟩
    have hmem : a = w.drain i := by
      cases ch <;> simp only [perform, Option.some.injEq, Prod.mk.injEq, reduceCtorEq] at hw
      exact hw.1.symm
    simp [HandView.learn, hmem, hhalted i, h'.stopped]
  | shift i =>
    cases a with
    | none => exact ⟨h'.line, h'.tried, h'.gone, h'.held, h'.recorded, h'.clock, h'.stopped⟩
    | some g =>
      have hmem := List.mem_of_mem_head? (shift_answer hw).1
      exact h'.turn ((hqueue i g hmem).snoc _ hadv.fewer) rfl rfl rfl
  | deliver e =>
    obtain ⟨-, -, r, rest, hrest, rfl⟩ := hallow
    refine ⟨h'.line, fun _ => ⟨r, rest, hrest, t, ch, a, by simp⟩, ?_, (fun hs => by cases hs),
      (fun hs => by cases hs), h'.clock, h'.stopped⟩
    rintro (hs | hs) <;> cases hs
  | noteDrain i note =>
    obtain ⟨-, hallow⟩ := hallow
    -- a row that is gone makes room for the next one
    have htail : x.step = .acked ∨ x.step = .shelved →
        InLine d.poller rec₀ (tr ++ [.act t (.noteDrain i note) ch a]) w'.store (· = x.key)
          x.rest.tail := by
      intro hstep
      cases hrest : x.rest with
      | nil => exact InLine.nil
      | cons r rest =>
        have hline := h'.line
        rw [hrest] at hline
        exact hline.tail (h'.gone hstep r (by simp [hrest]))
    cases note with
    | delivered => exact h'.turn (htail (Or.inl hallow)) rfl rfl rfl
    | parked =>
      change HandKept d rec₀ _ w'.store (x.note d .parked)
      unfold HandView.note
      dsimp only
      split
      · exact h'
      · exact h'.turn (htail (Or.inr hallow)) rfl rfl rfl
    | halted => exact hrun.elim
    | block key => exact h'.turn InLine.nil rfl rfl rfl
    | failed => exact h'
    | retryAt at_ => exact h'
  | workerDone i res => exact ⟨h'.line, h'.tried, h'.gone, h'.held, h'.recorded, h'.clock, h'.stopped⟩
  | _ => exact h'

end Learn

/-! ## What is known of the main thread -/

/-- The held keys a thread was last told. -/
def heldAnswers : Contract (Op ι) Ans where
  View := List String
  allow _ _ := True
  learn held
    | .store .heldKeys, a =>
      match a with
      | .ok held' => held'
      | .error _ => held
    | _, _ => held

def lastHeld (t : Nat) (tr : List (Label (system ι))) : List String := heldAnswers.observe [] t tr

/-- A row of `rec₀` that comes before all that is pending of its key blocks the key. -/
def Barred (poller : ResolvedPoller ι) (rec₀ : KeyRecord ι) (tr : List (Label (system ι)))
    (rec : KeyRecord ι) (key : String) : Prop :=
  ∃ id r, rec₀.outbox.get id = some r ∧ orderingKey poller r.event = key ∧
    Blocker poller tr rec r ∧
    ∀ id' p, rec.outbox.get id' = some p → orderingKey poller p.event = key → r.sequence ≤ p.sequence

structure Sees (d : Deployment ι) (rec₀ : KeyRecord ι) (tr : List (Label (system ι)))
    (rec : KeyRecord ι) (t : Nat) (m : DrainerView ι) : Prop where
  line : ∀ rows, m.rows = some rows → InLine d.poller rec₀ tr rec (fun _ => True) rows
  load : ∀ rows, m.rows = some rows → lastLoad t tr = rows
  held : ∀ key ∈ m.held, key ∈ lastHeld t tr
  barred : ∀ key ∈ m.blocked, Barred d.poller rec₀ tr rec key
  stopped : m.stopped = false

section Main

variable {d : Deployment ι} {rec₀ rec rec' : KeyRecord ι} {tr : List (Label (system ι))}
  {l : Label (system ι)} {v : CrewView ι}

theorem Barred.snoc (hrec : rec₀.Filed) {key : String} (h : Barred d.poller rec₀ tr rec key)
    (hadv : Advances d l v rec rec') (hhands : ∀ y, v = .hand y → HandKept d rec₀ tr rec y) :
    Barred d.poller rec₀ (tr ++ [l]) rec' key := by
  obtain ⟨id, r, hr, hkey, hblocker, hfirst⟩ := h
  refine ⟨id, r, hr, hkey, ?_, ?_⟩
  · rcases hblocker with hfailed | hearly | ⟨hhold, q, hq, hheld⟩
    · exact Or.inl (hfailed.snoc l)
    · exact Or.inr (Or.inl (hearly.snoc l))
    · have hown : rec₀.outbox.get r.eventId = some r := by
        rw [(hrec.outbox id r hr).1]
        exact hr
      exact Or.inr (Or.inr ⟨hhold, hadv.holds hhands hhold hown rfl hq hheld⟩)
  · intro id' p' hget hkey'
    obtain ⟨p, hp, hsame, -⟩ := hadv.fewer id' p' hget
    rw [hsame.sequence]
    refine hfirst id' p hp ?_
    rw [← hsame.event]
    exact hkey'

theorem lastLoad_other {t u : Nat} (hne : t ≠ u) (o : Op ι) (ch : Choice ι) (a : Ans o) :
    lastLoad u (tr ++ [.act t o ch a]) = lastLoad u tr := observe_act_ne hne tr o ch a

/-- The main thread stays as it is while other threads go on. -/
theorem Sees.snoc (hrec : rec₀.Filed) {t : Nat} {m : DrainerView ι} (h : Sees d rec₀ tr rec t m)
    (hadv : Advances d l v rec rec') (hhands : ∀ y, v = .hand y → HandKept d rec₀ tr rec y)
    (hload : lastLoad t (tr ++ [l]) = lastLoad t tr)
    (hheld : lastHeld t (tr ++ [l]) = lastHeld t tr) : Sees d rec₀ (tr ++ [l]) rec' t m := by
  refine ⟨fun rows hrows => (h.line rows hrows).snoc l hadv.fewer, ?_, ?_,
    fun key hkey => (h.barred key hkey).snoc hrec hadv hhands, h.stopped⟩
  · intro rows hrows
    rw [hload]
    exact h.load rows hrows
  · intro key hkey
    rw [hheld]
    exact h.held key hkey

/-- The rows of a load are in line. -/
theorem inLine_load (hrec : Inherits rec₀ tr rec) (limit : Nat) :
    InLine d.poller rec₀ tr rec (fun _ => True) (rec.loadPending limit) := by
  refine ⟨?_, fun _ _ => trivial, loadPending_sorted rec limit, ?_⟩
  · intro r hr
    obtain ⟨id, hget⟩ := loadPending_mem hr
    exact (hrec id r hget).2.2
  · intro id p hget _
    obtain ⟨hid, hstatus, -⟩ := hrec id p hget
    by_cases hmem : p ∈ rec.loadPending limit
    · exact Or.inl (List.mem_map.2 ⟨p, hmem, hid⟩)
    · refine Or.inr fun r hr => ?_
      by_contra hlt
      exact hmem (loadPending_closed hr (mem_pendingRows.2 ⟨⟨id, hget⟩, hstatus⟩) (by omega))

end Main

section Learn

variable {d : Deployment ι} {rec₀ : KeyRecord ι} {tr : List (Label (system ι))} {t : Nat} {o : Op ι}
  {ch : Choice ι} {a : Ans o} {w w' : World ι} {m : DrainerView ι}

/-- What is known of the main thread, after a step of its own. -/
theorem Sees.learn (hrec : rec₀.Filed) (h : Sees d rec₀ tr w.store t m) (hallow : m.allow d o)
    (hw : perform o ch w = some (a, w')) (hrun : Unstopped (.act t o ch a))
    (hinherits : Inherits rec₀ tr w.store) (hhalted : ∀ i, (w.drain i).result.halted = false)
    (hbarred : ∀ i, ∀ key ∈ (w.drain i).blocked, Barred d.poller rec₀ tr w.store key) :
    Sees d rec₀ (tr ++ [.act t o ch a]) w'.store t (m.learn o a) := by
  have hadv : Advances d (.act t o ch a) (.drainer m) w.store w'.store :=
    advances hallow (by rintro _ ⟨⟩) hw
  have hhands : ∀ y, CrewView.drainer m = .hand y → HandKept d rec₀ tr w.store y := by
    rintro _ ⟨⟩
  have hload : lastLoad t (tr ++ [.act t o ch a]) = loads.learn (lastLoad t tr) o a :=
    observe_act_self t tr o ch a
  have hheld : lastHeld t (tr ++ [.act t o ch a]) = heldAnswers.learn (lastHeld t tr) o a :=
    observe_act_self t tr o ch a
  cases o with
  | store so =>
    cases so with
    | loadPending limit =>
      cases a with
      | error e => exact h.snoc hrec hadv hhands hload hheld
      | ok rows =>
        obtain ⟨hstore, hread⟩ := performStore_read (fun _ => rfl) (perform_store hw)
        obtain rfl := hread rows rfl
        -- what is loaded is in line, whatever the limit
        refine ⟨?_, ?_, ?_, fun key hkey => (h.barred key hkey).snoc hrec hadv hhands, h.stopped⟩
        · rintro _ ⟨⟩
          exact (inLine_load hinherits limit).snoc _ hadv.fewer
        · rintro _ ⟨⟩
          exact hload
        · intro key hkey
          rw [hheld]
          exact h.held key hkey
    | heldKeys =>
      cases a with
      | error e => exact h.snoc hrec hadv hhands hload hheld
      | ok keys =>
        exact ⟨fun rows hrows => (h.line rows hrows).snoc _ hadv.fewer,
          fun rows hrows => hload.trans (h.load rows hrows), fun key hkey => hheld ▸ hkey,
          fun key hkey => (h.barred key hkey).snoc hrec hadv hhands, h.stopped⟩
    | countPending => exact h.snoc hrec hadv hhands hload hheld
    | _ => exact hallow.elim
  | signal i =>
    have hkept := h.snoc hrec hadv hhands hload hheld
    refine ⟨hkept.line, hkept.load, hkept.held, hkept.barred, ?_⟩
    have hnone : a = none := Option.isNone_iff_eq_none.1 hrun
    simp [DrainerView.learn, hnone, h.stopped]
  | peekDrain i =>
    have hkept := h.snoc hrec hadv hhands hload hheld
    obtain rfl : a = w.drain i := by
      cases ch <;> simp only [perform, Option.some.injEq, Prod.mk.injEq, reduceCtorEq] at hw
      exact hw.1.symm
    refine ⟨hkept.line, hkept.load, hkept.held, ?_, ?_⟩
    · exact fun key hkey => (hbarred i key hkey).snoc hrec hadv hhands
    · simp [DrainerView.learn, hhalted i, h.stopped]
  | joinRound i =>
    have hkept := h.snoc hrec hadv hhands hload hheld
    cases a with
    | ok n => exact ⟨hkept.line, hkept.load, hkept.held, hkept.barred, hkept.stopped⟩
    | error e => exact ⟨hkept.line, hkept.load, hkept.held, hkept.barred, hkept.stopped⟩
  | _ =>
    have hkept := h.snoc hrec hadv hhands hload hheld
    exact ⟨hkept.line, hkept.load, hkept.held, hkept.barred, hkept.stopped⟩

end Learn

/-! ## The rows, the queue and the threads -/

/-- In a run of drains from `rec₀`. -/
structure Tended (d : Deployment ι) (rec₀ : KeyRecord ι) (tr : List (Label (system ι)))
    (vs : List (CrewView ι)) (w : World ι) : Prop where
  inherits : Inherits rec₀ tr w.store
  kept : ∀ id r, rec₀.outbox.get id = some r → w.store.outbox.get id = some r ∨ Attempted tr r
  queue : ∀ i, ∀ g ∈ (w.drain i).queue, InLine d.poller rec₀ tr w.store (· = g.key) g.rows
  halted : ∀ i, (w.drain i).result.halted = false
  barred : ∀ i, ∀ key ∈ (w.drain i).blocked, Barred d.poller rec₀ tr w.store key
  hands : ∀ (t : Nat) x, vs[t]? = some (.hand x) → HandKept d rec₀ tr w.store x
  drainers : ∀ (t : Nat) m, vs[t]? = some (.drainer m) → Sees d rec₀ tr w.store t m

section Tended

variable {d : Deployment ι} {rec₀ : KeyRecord ι} {tr : List (Label (system ι))}
  {vs : List (CrewView ι)} {t : Nat} {o : Op ι} {ch : Choice ι} {a : Ans o} {w w' : World ι}
  {v : CrewView ι}

/-- The row at hand of a worker that has called the handler was attempted. -/
theorem HandKept.attempted {x : HandView ι} (h : HandKept d rec₀ tr w.store x)
    (hstep : x.step = .tried) {r : OutboxRow ι} {rest : List (OutboxRow ι)} (hrest : x.rest = r :: rest)
    {r₀ : OutboxRow ι} (hr₀ : rec₀.outbox.get r.eventId = some r₀) : Attempted tr r₀ := by
  obtain ⟨r', rest', hrest', hattempted⟩ := h.tried (by rw [hstep]; simp)
  obtain ⟨rfl, rfl⟩ := List.cons.inj (hrest.symm.trans hrest')
  exact (h.line.carried r (by simp [hrest])).attempted hattempted hr₀

theorem Tended.rows (h : Tended d rec₀ tr vs w) (hrec : rec₀.Filed) (hv : vs[t]? = some v)
    {l : Label (system ι)} (hadv : Advances d l v w.store w'.store) :
    Inherits rec₀ (tr ++ [l]) w'.store ∧
      ∀ id r, rec₀.outbox.get id = some r → w'.store.outbox.get id = some r ∨
        Attempted (tr ++ [l]) r := by
  constructor
  · intro id p' hget
    obtain ⟨p, hp, hsame, hstatus⟩ := hadv.fewer id p' hget
    obtain ⟨hid, hpending, r₀, hr₀, hsame₀, hstate⟩ := h.inherits id p hp
    refine ⟨hsame.id.trans hid, hstatus.trans hpending, r₀, by rw [hsame.id]; exact hr₀, ?_, ?_⟩
    · exact ⟨hsame.id.trans hsame₀.id, hsame.sequence.trans hsame₀.sequence,
        hsame.event.trans hsame₀.event⟩
    · rcases hadv.changed id with hunchanged | ⟨x, r, rest, rfl, hstep, hrest, rfl, hend⟩
      · rw [hunchanged, hp] at hget
        obtain rfl := Option.some.inj hget
        refine hstate.imp_right ?_
        rintro ⟨hattempted, hfailed⟩
        exact ⟨hattempted.snoc l, hfailed.snoc l⟩
      · -- the row at hand changed, and is pending: its next attempt is scheduled
        have hhand := h.hands t x hv
        rw [hid] at hr₀
        refine Or.inr ⟨(hhand.attempted hstep hrest hr₀).snoc l, ?_⟩
        rcases hend with hnone | hfailed
        · rw [hnone] at hget
          cases hget
        · have hid₀ : r.eventId = r₀.eventId := ((hrec.outbox _ r₀ hr₀).1).symm
          obtain ⟨u, lease, error, next, ch, a, hmem, heffect⟩ := hfailed.of_id hid₀
          exact ⟨u, lease, error, next, ch, a, List.mem_append_right _ hmem, heffect⟩
  · intro id r hr
    rcases h.kept id r hr with hget | hattempted
    · rcases hadv.changed id with hunchanged | ⟨x, r', rest, rfl, hstep, hrest, rfl, -⟩
      · exact Or.inl (hunchanged.trans hget)
      · exact Or.inr (((h.hands t x hv).attempted hstep hrest hr).snoc l)
    · exact Or.inr (hattempted.snoc l)

/-- The key of a note is barred by the first row of the worker that leaves it. -/
theorem HandKept.bars {x : HandView ι} (h : HandKept d rec₀ tr w.store x)
    (hinherits : Inherits rec₀ tr w.store) {r : OutboxRow ι} {rest : List (OutboxRow ι)}
    (hrest : x.rest = r :: rest) (hblock : x.Blocking d r) :
    Barred d.poller rec₀ tr w.store x.key := by
  have hmem : r ∈ x.rest := by simp [hrest]
  have hhead : r ∈ x.rest.head? := by simp [hrest]
  obtain ⟨r₀, hr₀, hsame, hstate⟩ := h.line.carried r hmem
  have hkey : orderingKey d.poller r₀.event = x.key := by
    rw [← hsame.event]
    exact h.line.keyed r hmem
  refine ⟨r.eventId, r₀, hr₀, hkey, ?_, ?_⟩
  · rcases hblock with hstep | ⟨hstep, hhold⟩ | ⟨hstep, at_, now, hnext, hclock, hlt⟩
    · exact Or.inl ((h.recorded hstep r hhead).of_id hsame.id)
    · refine Or.inr (Or.inr ⟨hhold, ?_⟩)
      rw [← hsame.id, hkey]
      exact h.held hstep hhold r hhead
    · -- the row is as it was when the drain began, or it has failed since
      rcases hstate with rfl | ⟨-, hfailed⟩
      · exact Or.inr (Or.inl ⟨at_, now, hnext, h.clock now hclock, hlt⟩)
      · exact Or.inl hfailed
  · intro id' p hget hkey'
    have hline := h.line
    rw [hrest] at hline
    rw [← hsame.sequence]
    exact hline.first hinherits hget hkey'

theorem Tended.act (h : Tended d rec₀ tr vs w) (hrec : rec₀.Filed) (hv : vs[t]? = some v)
    (hallow : v.allow d o) (hw : perform o ch w = some (a, w')) (hrun : Unstopped (.act t o ch a)) :
    Tended d rec₀ (tr ++ [.act t o ch a]) ((rounds d).step vs (.act t o ch a)) w' := by
  have hhands : ∀ y, v = .hand y → HandKept d rec₀ tr w.store y := by
    rintro y rfl
    exact h.hands t y hv
  have hadv : Advances d (.act t o ch a) v w.store w'.store := by
    refine advances hallow ?_ hw
    intro x hx r hr
    exact ((hhands x hx).line.carried r hr).stamped hrec
  obtain ⟨hinherits, hkept⟩ := h.rows hrec hv hadv
  refine ⟨hinherits, hkept, ?_, ?_, ?_, ?_, ?_⟩
  · -- a group comes in with a round, from the rows that were loaded for it
    intro j g hg
    have hold : g ∈ (w.drain j).queue →
        InLine d.poller rec₀ (tr ++ [.act t o ch a]) w'.store (· = g.key) g.rows :=
      fun hmem => (h.queue j g hmem).snoc _ hadv.fewer
    rcases perform_drain hw j with heq | ⟨i, note, rfl, -, heq⟩ |
      ⟨deps, l, run, i, groups, rfl, -, heq⟩ | ⟨i, rfl, -, heq⟩ | ⟨i, res, rfl, -, heq⟩
    · rw [heq] at hg
      exact hold hg
    · rw [heq] at hg
      refine hold ?_
      cases note <;> exact hg
    · rw [heq] at hg
      cases v with
      | drainer m =>
        obtain ⟨-, -, -, -, rows, hrows, rfl⟩ := hallow
        rw [(openGroups_mem hg).1]
        exact (((h.drainers t m hv).line rows hrows).group h.inherits g.key).snoc _ hadv.fewer
      | hand x => exact hallow.elim
    · rw [heq] at hg
      exact hold (List.mem_of_mem_tail hg)
    · rw [heq] at hg
      refine hold ?_
      cases res <;> exact hg
  · -- only a note halts a drain, and in this run none does
    intro j
    rcases perform_drain hw j with heq | ⟨i, note, rfl, -, heq⟩ |
      ⟨deps, l, run, i, groups, rfl, -, heq⟩ | ⟨i, rfl, -, heq⟩ | ⟨i, res, rfl, -, heq⟩
    · rw [heq]
      exact h.halted j
    · rw [heq]
      cases note <;> first | exact h.halted j | exact hrun.elim
    · rw [heq]
      exact h.halted j
    · rw [heq]
      exact h.halted j
    · rw [heq]
      cases res <;> exact h.halted j
  · -- a key is added by a worker, for the first of its rows
    intro j key hkey
    have hold : key ∈ (w.drain j).blocked →
        Barred d.poller rec₀ (tr ++ [.act t o ch a]) w'.store key :=
      fun hmem => (h.barred j key hmem).snoc hrec hadv hhands
    rcases perform_drain hw j with heq | ⟨i, note, rfl, -, heq⟩ |
      ⟨deps, l, run, i, groups, rfl, -, heq⟩ | ⟨i, rfl, -, heq⟩ | ⟨i, res, rfl, -, heq⟩
    · rw [heq] at hkey
      exact hold hkey
    · rw [heq] at hkey
      cases note with
      | block key' =>
        rcases List.mem_cons.1 hkey with rfl | hkey
        · cases v with
          | drainer m => exact hallow.elim
          | hand x =>
            obtain ⟨-, rfl, r, rest, hrest, hblock⟩ := hallow
            exact ((hhands x rfl).bars h.inherits hrest hblock).snoc hrec hadv hhands
        · exact hold hkey
      | _ => exact hold hkey
    · rw [heq] at hkey
      exact hold hkey
    · rw [heq] at hkey
      exact hold hkey
    · rw [heq] at hkey
      refine hold ?_
      cases res <;> exact hkey
  · intro u x hx
    rcases step_act_cases hx with ⟨v₀, rfl, hv₀, heq⟩ | ⟨-, hold⟩ | ⟨-, heq, -⟩
    · obtain rfl : v₀ = v := Option.some.inj (hv₀.symm.trans hv)
      cases v₀ with
      | hand x₀ =>
        obtain rfl : x = x₀.learn d o a := CrewView.hand.inj heq
        exact (hhands x₀ rfl).learn hrec hallow hw hrun h.halted h.queue
      | drainer m => cases heq
    · exact (h.hands u x hold).snoc hadv hhands
    · -- a new worker has nothing in hand
      cases o <;> simp only [rounds, crewSeed, reduceCtorEq] at heq
      obtain rfl := CrewView.hand.inj heq
      refine ⟨InLine.nil, fun hne => absurd rfl hne, ?_, (fun hs => by cases hs),
        (fun hs => by cases hs), ?_, rfl⟩
      · rintro (hs | hs) <;> cases hs
      · intro now hnow
        cases hnow
  · intro u m hm
    rcases step_act_cases hm with ⟨v₀, rfl, hv₀, heq⟩ | ⟨hne, hold⟩ | ⟨-, heq, hfork⟩
    · obtain rfl : v₀ = v := Option.some.inj (hv₀.symm.trans hv)
      cases v₀ with
      | drainer m₀ =>
        obtain rfl : m = m₀.learn o a := CrewView.drainer.inj heq
        exact (h.drainers u m₀ hv₀).learn hrec hallow hw hrun h.inherits h.halted h.barred
      | hand x => cases heq
    · refine (h.drainers u m hold).snoc hrec hadv hhands ?_ ?_
      · exact lastLoad_other hne.symm o ch a
      · exact observe_act_ne hne.symm tr o ch a
    · -- a drain forks workers only
      refine absurd ?_ hfork
      cases o with
      | startRound deps l run i groups => cases heq
      | keeperStart deps run l => cases v <;> exact hallow.elim
      | _ => rfl

theorem Tended.quiet (h : Tended d rec₀ tr vs w) (hrec : rec₀.Filed) {l : Label (system ι)}
    {vs' : List (CrewView ι)} (hstore : w'.store = w.store) (hdrain : ∀ i, w'.drain i = w.drain i)
    (hhands : ∀ (t : Nat) x, vs'[t]? = some (.hand x) → vs[t]? = some (.hand x))
    (hdrainers : ∀ (t : Nat) m, vs'[t]? = some (.drainer m) → vs[t]? = some (.drainer m) ∨ m = {})
    (hload : ∀ t, lastLoad t (tr ++ [l]) = lastLoad t tr)
    (hheld : ∀ t, lastHeld t (tr ++ [l]) = lastHeld t tr) : Tended d rec₀ (tr ++ [l]) vs' w' := by
  have hadv : Advances d l (.drainer {}) w.store w'.store := by
    rw [hstore]
    exact .still rfl rfl
  have hnone : ∀ y, CrewView.drainer {} = .hand y → HandKept d rec₀ tr w.store y := by
    rintro _ ⟨⟩
  -- the store and the drains are as they were
  refine ⟨?_, ?_, ?_, ?_, ?_, ?_, ?_⟩
  · intro id p hget
    rw [hstore] at hget
    obtain ⟨hid, hstatus, hcarried⟩ := h.inherits id p hget
    exact ⟨hid, hstatus, hcarried.snoc l⟩
  · intro id r hr
    rw [hstore]
    exact (h.kept id r hr).imp_right fun hattempted => hattempted.snoc l
  · intro i g hg
    rw [hdrain] at hg
    exact (h.queue i g hg).snoc l hadv.fewer
  · intro i
    rw [hdrain]
    exact h.halted i
  · intro i key hkey
    rw [hdrain] at hkey
    exact (h.barred i key hkey).snoc hrec hadv hnone
  · intro t x hx
    exact (h.hands t x (hhands t x hx)).snoc hadv hnone
  · intro t m hm
    rcases hdrainers t m hm with hold | rfl
    · exact (h.drainers t m hold).snoc hrec hadv hnone (hload t) (hheld t)
    · refine ⟨?_, ?_, ?_, ?_, rfl⟩
      · intro rows hrows
        cases hrows
      · intro rows hrows
        cases hrows
      · intro key hkey
        cases hkey
      · intro key hkey
        cases hkey

/-- What holds in every run of drains that nothing stops. -/
theorem tended {lease : Lease} {run : Nat} {c : Config (system ι)} (hrec : w.store.Filed)
    (hw : w.drains = []) (h : Run (system ι) (d.drains lease run) w tr c)
    (hrun : Throughout (fun _ l => Unstopped l) tr) :
    Tended d w.store tr ((rounds d).views tr) c.world := by
  refine Run.roles (roundsObeyed d lease run) (J := Tended d w.store) ?_ ?_ ?_ ?_ h hrun
  · refine ⟨?_, fun id r hr => Or.inl hr, ?_, ?_, ?_, ?_, ?_⟩
    · intro id p hget
      obtain ⟨hid, hstamped⟩ := hrec.outbox id p hget
      exact ⟨hid, hstamped.status, p, by rw [hid]; exact hget, ⟨rfl, rfl, rfl⟩, Or.inl rfl⟩
    · intro i g hg
      simp [World.drain, hw] at hg
    · intro i
      simp [World.drain, hw]
    · intro i key hkey
      simp [World.drain, hw] at hkey
    · intro t x hx
      simp at hx
    · intro t m hm
      simp at hm
  · intro tr c q _ _ hJ
    refine hJ.quiet hrec rfl (fun _ => rfl) ?_ ?_ (fun t => observe_start t tr q)
      fun t => observe_start t tr q
    · intro t x hx
      rcases step_start_cases hx with hold | ⟨-, heq⟩
      · exact hold
      · cases heq
    · intro t m hm
      exact (step_start_cases hm).imp_right fun hnew => CrewView.drainer.inj hnew.2
  · intro tr c t o k ch a w' v _ hJ _ hv hallow hw hl
    exact hJ.act hrec hv hallow hw hl
  · intro tr c x _ hJ
    exact hJ.quiet hrec rfl (fun _ => rfl) (fun t x hx => hx) (fun t m hm => Or.inl hm)
      (fun t => observe_drift t tr x) fun t => observe_drift t tr x

end Tended

end Watukuy
