import Watukuy.Run.Crew

/-!
# Parked events hold their keys

The groups of a drain against the parked table (`Upheld`): a group that is opened lacks no earlier
pending event of its key (`Lined`), and only its first row can be parked under the key. A retry puts
events back into the outbox, but none of a key that no parked event holds. So this stays so as long as
every round asks for the held keys with the rows up to date (`UpToDate`).
-/

set_option autoImplicit false

namespace Watukuy

open Library KeyRecord

variable {ι : Type}

/-! ## Rows and keys -/

/-- A row as commits and retries write it, where the id of an event fixes its key. -/
structure TidyRow (poller : ResolvedPoller ι) (keyOf : String → String) (row : OutboxRow ι) : Prop where
  stamped : row.Stamped
  sequence : row.event.sequence = row.sequence
  attempt : row.event.attempt = 0
  key : orderingKey poller row.event = keyOf row.eventId

/-- A store whose parked events hold their keys. -/
structure Tidy (poller : ResolvedPoller ι) (keyOf : String → String) (rec : KeyRecord ι) : Prop where
  filed : rec.Filed
  outbox : ∀ id row, rec.outbox.get id = some row → TidyRow poller keyOf row
  parked : ∀ id q, rec.parked.get id = some q → q.holdKey = q.event.map (orderingKey poller) ∧
    ∀ e ∈ q.event, e.attempt = 0 ∧ orderingKey poller e = keyOf e.id

/-- A group in hand: its rows in order, and no earlier pending event of its key is missing. -/
structure Lined (poller : ResolvedPoller ι) (keyOf : String → String) (rec : KeyRecord ι) (key : String)
    (rows : List (OutboxRow ι)) : Prop where
  fits : ∀ row ∈ rows, TidyRow poller keyOf row
  keyed : ∀ row ∈ rows, orderingKey poller row.event = key
  sorted : rows.Pairwise fun a b => a.sequence ≤ b.sequence
  distinct : (rows.map (·.eventId)).Nodup
  closed : ∀ row ∈ rows, ∀ id p, rec.outbox.get id = some p → keyOf id = key →
    p.sequence < row.sequence → id ∈ rows.map (·.eventId)
  /-- A pending row of one of these events is not older. -/
  behind : ∀ row ∈ rows, ∀ p, rec.outbox.get row.eventId = some p → row.sequence ≤ p.sequence

/-- No parked event holds the key. -/
def Unheld (rec : KeyRecord ι) (key : String) : Prop :=
  ∀ id q, rec.parked.get id = some q → q.holdKey ≠ some key

/-- Only the first row in hand may be parked under the key. -/
def OwnHeld (rec : KeyRecord ι) (key : String) (rows : List (OutboxRow ι)) : Prop :=
  ∀ id q, rec.parked.get id = some q → q.holdKey = some key →
    ∃ row ∈ rows.head?, row.eventId = id ∧ ∃ e ∈ q.event, e.sequence = row.sequence

section Stores

variable {poller : ResolvedPoller ι} {keyOf : String → String} {rec rec' : KeyRecord ι} {key : String}
  {rows : List (OutboxRow ι)}

theorem Unheld.own (h : Unheld rec key) : OwnHeld rec key rows :=
  fun id q hget hkey => absurd hkey (h id q hget)

/-- A group stays in line while no row of its key arrives. -/
theorem Lined.less (h : Lined poller keyOf rec key rows)
    (hless : ∀ id p, rec'.outbox.get id = some p → keyOf id = key →
      ∃ p₀, rec.outbox.get id = some p₀ ∧ p.sequence = p₀.sequence) :
    Lined poller keyOf rec' key rows := by
  refine ⟨h.fits, h.keyed, h.sorted, h.distinct, ?_, ?_⟩
  · intro row hrow id p hget hkey hlt
    obtain ⟨p₀, hget₀, hseq⟩ := hless id p hget hkey
    exact h.closed row hrow id p₀ hget₀ hkey (hseq ▸ hlt)
  · intro row hrow p hget
    have hkey : keyOf row.eventId = key := (h.fits row hrow).key.symm.trans (h.keyed row hrow)
    obtain ⟨p₀, hget₀, hseq⟩ := hless _ p hget hkey
    rw [hseq]
    exact h.behind row hrow p₀ hget₀

/-- The group without its first row, once that is no longer pending. -/
theorem Lined.tail {row : OutboxRow ι} (h : Lined poller keyOf rec key (row :: rows))
    (hgone : rec.outbox.get row.eventId = none) : Lined poller keyOf rec key rows := by
  have hmem : ∀ {x}, x ∈ rows → x ∈ row :: rows := List.mem_cons_of_mem _
  refine ⟨fun x hx => h.fits x (hmem hx), fun x hx => h.keyed x (hmem hx),
    (List.pairwise_cons.1 h.sorted).2, ?_, ?_, fun x hx => h.behind x (hmem hx)⟩
  · have hdistinct := h.distinct
    rw [List.map_cons] at hdistinct
    exact (List.nodup_cons.1 hdistinct).2
  · intro x hx id p hget hkey hlt
    have hid := h.closed x (hmem hx) id p hget hkey hlt
    rw [List.map_cons] at hid
    rcases List.mem_cons.1 hid with rfl | hid
    · rw [hgone] at hget
      cases hget
    · exact hid

/-- A group in hand stays in line over a retry: the events it lacks are not parked under its key. -/
theorem Lined.retry (h : Lined poller keyOf rec key rows) (hrec : Tidy poller keyOf rec)
    (hown : OwnHeld rec key rows) (ids : List String) :
    Lined poller keyOf (rec.retryParked ids).2 key rows := by
  -- a pending row of the key was pending before, or it is the first row in hand
  have hcases : ∀ id p, (rec.retryParked ids).2.outbox.get id = some p → keyOf id = key →
      rec.outbox.get id = some p ∨ ∃ row ∈ rows.head?, row.eventId = id ∧ p.sequence = row.sequence := by
    intro id p hget hkey
    rcases KeyRecord.retryParked_row hget with hold | ⟨id', -, q, event, hq, hevent, rfl, rfl⟩
    · exact Or.inl hold
    · obtain ⟨hhold, hevents⟩ := hrec.parked id' q hq
      obtain ⟨-, hkeyOf⟩ := hevents event hevent
      have hid : event.id = id' := (hrec.filed.parked id' q hq).2 event hevent
      have hheld : q.holdKey = some key := by
        rw [hhold, hevent, Option.map_some, hkeyOf, hkey]
      obtain ⟨row, hrow, hrowid, e, he, hseq⟩ := hown id' q hq hheld
      rw [hevent] at he
      obtain rfl := Option.some.inj he
      exact Or.inr ⟨row, hrow, hrowid.trans hid.symm, hseq⟩
  refine ⟨h.fits, h.keyed, h.sorted, h.distinct, ?_, ?_⟩
  · intro row hrow id p hget hkey hlt
    rcases hcases id p hget hkey with hold | ⟨first, hfirst, rfl, -⟩
    · exact h.closed row hrow id p hold hkey hlt
    · exact List.mem_map.2 ⟨first, List.mem_of_mem_head? hfirst, rfl⟩
  · intro row hrow p hget
    have hkey : keyOf row.eventId = key := (h.fits row hrow).key.symm.trans (h.keyed row hrow)
    rcases hcases _ p hget hkey with hold | ⟨first, hfirst, hid, hseq⟩
    · exact h.behind row hrow p hold
    · obtain rfl : first = row :=
        List.inj_on_of_nodup_map h.distinct (List.mem_of_mem_head? hfirst) hrow hid
      exact hseq.ge

theorem Unheld.less (h : Unheld rec key)
    (hless : ∀ id q, rec'.parked.get id = some q → q.holdKey = some key → rec.parked.get id = some q) :
    Unheld rec' key := by
  intro id q hget hkey
  exact h id q (hless id q hget hkey) hkey

theorem OwnHeld.less (h : OwnHeld rec key rows)
    (hless : ∀ id q, rec'.parked.get id = some q → q.holdKey = some key → rec.parked.get id = some q) :
    OwnHeld rec' key rows := by
  intro id q hget hkey
  exact h id q (hless id q hget hkey) hkey

end Stores

/-! ## What a step moves -/

section Steps

variable {d : Deployment ι} {keyOf : String → String} {vs : List (ThreadView ι)} {w w' : World ι}
  {t : Nat} {o : Op ι} {ch : Choice ι} {a : Ans o} {v : ThreadView ι} {key : String}
  {rows : List (OutboxRow ι)}

theorem DrainOrOperator.no_delete (h : DrainOrOperator o) : o ≠ .store .deleteKey := by
  rintro rfl
  exact h

theorem DrainOrOperator.no_commit (h : DrainOrOperator o) {l : Lease} {b : CommitBatch ι} :
    o ≠ .store (.commitPoll l b) := by
  rintro rfl
  exact h

/-- A drain commits nothing. -/
theorem DrainOrOperator.no_rows (h : DrainOrOperator o) : stepRows (.act t o ch a) = [] := by
  cases o with
  | store so => cases so <;> first | rfl | exact h.elim
  | _ => rfl

/-- A row of the outbox was there before, or a retry put it there. -/
theorem drain_arrived (h : DrainOrOperator o) (hw : perform o ch w = some (a, w')) {id : String}
    {p : OutboxRow ι} (hget : w'.store.outbox.get id = some p) :
    (∃ p₀, w.store.outbox.get id = some p₀ ∧ p.Same p₀) ∨
      ∃ ids id' q event, o = .store (.retryParked ids) ∧ id' ∈ ids ∧
        w.store.parked.get id' = some q ∧ q.event = some event ∧ event.id = id ∧
        p = retriedRow event q.parkedAt := by
  rcases step_arrived (t := 0) h.no_delete hw hget with hold | hnew | hretried
  · exact Or.inl hold
  · rw [h.no_rows] at hnew
    cases hnew
  · exact Or.inr hretried

/-- A parked row was there before, or a worker parks it. -/
theorem drain_shelved (h : DrainOrOperator o) (hw : perform o ch w = some (a, w')) {id : String}
    {q : ParkedRow ι} (hget : w'.store.parked.get id = some q) :
    w.store.parked.get id = some q ∨ ∃ l, o = .store (.parkEvent l q) ∧ q.id = id := by
  rcases step_shelved h.no_delete hw hget with hold | ⟨l, b, heq, -⟩ | hparked
  · exact Or.inl hold
  · exact absurd heq h.no_commit
  · exact Or.inr hparked

/-- A retry, or nothing. -/
theorem retry_cases {ids : List String} {a : Ans (.store (.retryParked ids) : Op ι)}
    (hw : perform (.store (.retryParked ids)) ch w = some (a, w')) :
    w'.store = (w.store.retryParked ids).2 ∨
      (w'.store.outbox = w.store.outbox ∧ w'.store.parked = w.store.parked) := by
  have hmoved := performStore_moved (by simp) (perform_store hw)
  generalize w'.store = rec' at hmoved ⊢
  generalize tookEffect ch a = e at hmoved
  cases hmoved with
  | still hout hparked _ => exact Or.inr ⟨hout, hparked⟩
  | retry _ => exact Or.inl rfl

/-- Groups in hand stay in line. -/
theorem Lined.step (h : Lined d.poller keyOf w.store key rows) (hcalls : DrainOrOperator o)
    (hrec : Tidy d.poller keyOf w.store) (hown : OwnHeld w.store key rows)
    (hw : perform o ch w = some (a, w')) : Lined d.poller keyOf w'.store key rows := by
  by_cases hretry : ∃ ids, o = .store (.retryParked ids)
  · obtain ⟨ids, rfl⟩ := hretry
    rcases retry_cases hw with heq | ⟨hout, -⟩
    · rw [heq]
      exact h.retry hrec hown ids
    · refine h.less ?_
      intro id p hget _
      rw [hout] at hget
      exact ⟨p, hget, rfl⟩
  · refine h.less ?_
    intro id p hget _
    rcases drain_arrived hcalls hw hget with ⟨p₀, hold, hsame⟩ | ⟨ids, -, -, -, heq, -⟩
    · exact ⟨p₀, hold, hsame.sequence⟩
    · exact absurd ⟨ids, heq⟩ hretry

/-- A key that no parked event holds is not held after a step that parks nothing under it. -/
theorem Unheld.step (h : Unheld w.store key) (hcalls : DrainOrOperator o)
    (hw : perform o ch w = some (a, w'))
    (hpark : ∀ l q, o = .store (.parkEvent l q) → q.holdKey ≠ some key) : Unheld w'.store key := by
  intro id q hget
  rcases drain_shelved hcalls hw hget with hold | ⟨l, heq, -⟩
  · exact h id q hold
  · exact hpark l q heq

theorem OwnHeld.step (h : OwnHeld w.store key rows) (hcalls : DrainOrOperator o)
    (hw : perform o ch w = some (a, w'))
    (hpark : ∀ l q, o = .store (.parkEvent l q) → q.holdKey = some key →
      ∃ row ∈ rows.head?, row.eventId = q.id ∧ ∃ e ∈ q.event, e.sequence = row.sequence) :
    OwnHeld w'.store key rows := by
  intro id q hget hkey
  rcases drain_shelved hcalls hw hget with hold | ⟨l, heq, rfl⟩
  · exact h id q hold hkey
  · exact hpark l q heq hkey

/-- No pending row of an unheld key arrives. -/
theorem Unheld.arrived (h : Unheld w.store key) (hcalls : DrainOrOperator o)
    (hrec : Tidy d.poller keyOf w.store) (hw : perform o ch w = some (a, w')) {id : String}
    {p : OutboxRow ι} (hget : w'.store.outbox.get id = some p) (hkey : keyOf id = key) :
    ∃ p₀, w.store.outbox.get id = some p₀ ∧ p.sequence = p₀.sequence := by
  rcases drain_arrived hcalls hw hget with ⟨p₀, hold, hsame⟩ |
    ⟨ids, id', q, event, -, -, hq, hevent, rfl, -⟩
  · exact ⟨p₀, hold, hsame.sequence⟩
  · obtain ⟨hhold, hevents⟩ := hrec.parked id' q hq
    refine absurd ?_ (h id' q hq)
    rw [hhold, hevent, Option.map_some, (hevents event hevent).2, hkey]

/-- What a worker parks: its first row, under the key of its group. -/
theorem parks_first (hhold : d.poller.delivery.poisonHoldKey = true) {l : Lease} {q : ParkedRow ι}
    (hallow : v.allow d (.store (.parkEvent l q))) :
    ∃ x row rest, v = .worker x ∧ x.ended = false ∧ x.stage = .failed ∧ x.rest = row :: rest ∧
      q.id = row.eventId ∧ q.event = some row.event ∧ q.holdKey = some x.key := by
  cases v with
  | worker x =>
    obtain ⟨hended, -, hstage, row, rest, error, failedAt, parkedAt, hrest, rfl⟩ := hallow
    exact ⟨x, row, rest, rfl, hended, hstage, hrest, rfl, rfl, if_pos hhold⟩
  | main m => exact hallow.elim
  | keeper l => exact hallow.elim

end Steps

/-! ## The invariant -/

/-- For a row of an unheld key that a main thread has loaded: nothing before it is missing. -/
structure RowClear (poller : ResolvedPoller ι) (keyOf : String → String) (rec : KeyRecord ι)
    (rows : List (OutboxRow ι)) (row : OutboxRow ι) : Prop where
  closed : ∀ id p, rec.outbox.get id = some p → keyOf id = orderingKey poller row.event →
    p.sequence < row.sequence → id ∈ rows.map (·.eventId)
  behind : ∀ p, rec.outbox.get row.eventId = some p → row.sequence ≤ p.sequence
  unheld : Unheld rec (orderingKey poller row.event)

/-- The rows a main thread has loaded, in view of the held and the blocked keys. -/
structure Sight (poller : ResolvedPoller ι) (keyOf : String → String) (rec : KeyRecord ι)
    (blocked : List String) (heldKeys seen : Option (List String)) (rows : List (OutboxRow ι)) :
    Prop where
  fits : ∀ row ∈ rows, TidyRow poller keyOf row
  sorted : rows.Pairwise fun a b => a.sequence ≤ b.sequence
  distinct : (rows.map (·.eventId)).Nodup
  clear : ∀ held ∈ heldKeys, ∀ row ∈ rows, orderingKey poller row.event ∉ held →
    orderingKey poller row.event ∉ blocked → RowClear poller keyOf rec rows row
  peeked : ∀ b ∈ seen, b = blocked

/-- The group a worker has in hand. -/
structure InHand (poller : ResolvedPoller ι) (keyOf : String → String) (rec : KeyRecord ι)
    (x : WorkerView ι) : Prop where
  lined : Lined poller keyOf rec x.key x.rest
  own : OwnHeld rec x.key x.rest
  clean : x.stage.clean = true → Unheld rec x.key

/-- What holds of the groups and rows after every step. -/
structure Upheld (poller : ResolvedPoller ι) (keyOf : String → String) (vs : List (ThreadView ι))
    (w : World ι) : Prop where
  crew : Crew vs w
  apart : Apart vs w
  tidy : Tidy poller keyOf w.store
  hands : ∀ (t : Nat) x, vs[t]? = some (.worker x) → x.ended = false → x.rest ≠ [] →
    InHand poller keyOf w.store x
  queues : ∀ g ∈ (w.drain 0).queue, Lined poller keyOf w.store g.key g.rows ∧ Unheld w.store g.key
  sights : ∀ (t : Nat) m, vs[t]? = some (.main m) → m.drain.isSome → ∀ rows ∈ m.rows,
    Sight poller keyOf w.store (w.drain 0).blocked m.held m.blocked rows

section Act

variable {d : Deployment ι} {keyOf : String → String} {vs : List (ThreadView ι)} {w w' : World ι}
  {t : Nat} {o : Op ι} {ch : Choice ι} {a : Ans o} {v : ThreadView ι}

/-- The store stays tidy. -/
theorem Upheld.tidy_act (h : Upheld d.poller keyOf vs w) (hcalls : DrainOrOperator o)
    (hhold : d.poller.delivery.poisonHoldKey = true) (hv : vs[t]? = some v) (hallow : v.allow d o)
    (hw : perform o ch w = some (a, w')) : Tidy d.poller keyOf w'.store := by
  have hfiled : w'.store.Filed := by
    cases o with
    | store so =>
      refine (performStore_moved ?_ (perform_store hw)).filed h.tidy.filed ?_
      · rintro rfl
        exact hcalls.elim
      · cases so with
        | commitPoll l b => exact hcalls.elim
        | parkEvent l q =>
          obtain ⟨x, row, rest, rfl, hended, -, hrest, hid, hevent, -⟩ := parks_first hhold hallow
          have hrow := (h.hands t x hv hended (by simp [hrest])).lined.fits row (by simp [hrest])
          intro e he
          rw [hevent] at he
          obtain rfl := Option.some.inj he
          rw [hid]
          exact hrow.stamped.id
        | _ => trivial
    | _ =>
      rw [perform_other (fun so => by simp) hw]
      exact h.tidy.filed
  refine ⟨hfiled, ?_, ?_⟩
  · intro id p hget
    rcases drain_arrived hcalls hw hget with ⟨p₀, hold, hsame⟩ |
      ⟨ids, id', q, event, -, -, hq, hevent, -, rfl⟩
    · have hp₀ := h.tidy.outbox id p₀ hold
      refine ⟨(hfiled.outbox id p hget).2, ?_, ?_, ?_⟩
      · rw [hsame.event, hsame.sequence, hp₀.sequence]
      · rw [hsame.event, hp₀.attempt]
      · rw [hsame.event, hsame.id, hp₀.key]
    · obtain ⟨hattempt, hkey⟩ := (h.tidy.parked id' q hq).2 event hevent
      exact ⟨⟨rfl, rfl⟩, rfl, hattempt, hkey⟩
  · intro id q hget
    rcases drain_shelved hcalls hw hget with hold | ⟨l, rfl, rfl⟩
    · exact h.tidy.parked id q hold
    · obtain ⟨x, row, rest, rfl, hended, -, hrest, hid, hevent, hkey⟩ := parks_first hhold hallow
      have hhand := h.hands t x hv hended (by simp [hrest])
      have hrow := hhand.lined.fits row (by simp [hrest])
      have hrowkey := hhand.lined.keyed row (by simp [hrest])
      rw [hevent, hkey, Option.map_some, hrowkey]
      refine ⟨rfl, ?_⟩
      intro e he
      obtain rfl := Option.some.inj he
      refine ⟨hrow.attempt, ?_⟩
      rw [hrow.key, hrow.stamped.id]

/-- The groups in the hands of workers. -/
theorem Upheld.hands_act (h : Upheld d.poller keyOf vs w) (hcalls : DrainOrOperator o)
    (hhold : d.poller.delivery.poisonHoldKey = true) (hv : vs[t]? = some v) (hallow : v.allow d o)
    (hw : perform o ch w = some (a, w')) (u : Nat) (x : WorkerView ι)
    (hx : ((deliveries d).step vs (.act t o ch a))[u]? = some (.worker x)) (hended : x.ended = false)
    (hrest : x.rest ≠ []) : InHand d.poller keyOf w'.store x := by
  rcases worker_after hhold hv hallow hw hx hended hrest with ⟨hne, hold⟩ | ⟨rfl, x₀, rfl, -, hlive, hturn⟩
  · -- another worker: what `t` parks, it parks under its own key
    have hhand := h.hands u x hold hended hrest
    have hother : ∀ l q, o = .store (.parkEvent l q) → q.holdKey ≠ some x.key := by
      rintro l q rfl hkey
      obtain ⟨y, row, rest, rfl, hended', -, hrest', -, -, hkey'⟩ := parks_first hhold hallow
      rw [hkey'] at hkey
      exact hne (h.apart.apart u t x y hold hv hended hended' hrest (by simp [hrest'])
        (Option.some.inj hkey).symm)
    exact ⟨hhand.lined.step hcalls h.tidy hhand.own hw,
      hhand.own.step hcalls hw fun l q heq hkey => absurd hkey (hother l q heq),
      fun hclean => (hhand.clean hclean).step hcalls hw hother⟩
  · cases hturn with
    -- the worker keeps its group: at most it parks the first row of it
    | same _ hkey hsame hclean =>
      have hhand := h.hands u x₀ hv hlive (hsame ▸ hrest)
      refine ⟨?_, ?_, ?_⟩
      · rw [hkey, hsame]
        exact hhand.lined.step hcalls h.tidy hhand.own hw
      · rw [hkey, hsame]
        refine hhand.own.step hcalls hw ?_
        rintro l q rfl -
        obtain ⟨y, row, rest, heq, -, -, hrest', hid, hevent, -⟩ := parks_first hhold hallow
        obtain rfl := ThreadView.worker.inj heq
        refine ⟨row, by simp [hrest'], hid.symm, row.event, hevent, ?_⟩
        exact (hhand.lined.fits row (by simp [hrest'])).sequence
      · intro hnow
        rw [hkey]
        refine (hhand.clean (hclean hnow)).step hcalls hw ?_
        rintro l q rfl
        obtain ⟨y, row, rest, heq, -, hstage, -⟩ := parks_first hhold hallow
        obtain rfl := ThreadView.worker.inj heq
        have hbad := hclean hnow
        rw [hstage] at hbad
        cases hbad
    | left _ hnil => exact absurd hnil hrest
    -- a group from the queue brings its facts along
    | taken g hhead hkey hrows hstage =>
      have hfew := h.crew.few
      have hdrain := h.crew.workers u x₀ hv
      have hzero : x₀.drain = 0 := by omega
      rw [hzero] at hhead
      obtain ⟨hlined, hunheld⟩ := h.queues g (List.mem_of_mem_head? hhead)
      rw [perform_other (fun so => by simp) hw]
      refine ⟨?_, ?_, ?_⟩
      · rw [hkey, hrows]
        exact hlined
      · rw [hkey]
        exact hunheld.own
      · intro _
        rw [hkey]
        exact hunheld
    -- the acknowledged row left the outbox, the rest of the group is in line
    | acked l row hkey hhead hstage hgone =>
      have hhand := h.hands u x₀ hv hlive (by simp [hhead])
      have hlined := hhand.lined.step hcalls h.tidy hhand.own hw
      have hunheld : Unheld w'.store x₀.key := by
        refine (hhand.clean (by rw [hstage]; rfl)).step hcalls hw ?_
        intro l' q heq
        cases heq
      rw [hhead] at hlined
      refine ⟨?_, ?_, ?_⟩
      · rw [hkey]
        exact hlined.tail hgone
      · rw [hkey]
        exact hunheld.own
      · intro _
        rw [hkey]
        exact hunheld

/-- A group that is opened is in line, and its key is not held. -/
theorem Sight.opens {m : MainView ι} {rec : KeyRecord ι} {blocked : List String}
    {rows : List (OutboxRow ι)} (h : Sight d.poller keyOf rec blocked m.held m.blocked rows) (hrows : m.rows = some rows)
    {groups : List (Group ι)} (hgroups : m.Groups d groups) {g : Group ι} (hg : g ∈ groups) :
    Lined d.poller keyOf rec g.key g.rows ∧ Unheld rec g.key := by
  obtain ⟨rows', held, blocked', hrows', hheld, hblocked, rfl⟩ := hgroups
  obtain rfl : rows' = rows := Option.some.inj (hrows'.symm.trans hrows)
  obtain ⟨heq, hfree, hopen⟩ := openGroups_mem hg
  rw [h.peeked blocked' hblocked] at hopen
  have hmem : ∀ {row}, row ∈ g.rows → row ∈ rows' ∧ orderingKey d.poller row.event = g.key := by
    intro row hrow
    rw [heq] at hrow
    obtain ⟨hrow, hkey⟩ := List.mem_filter.1 hrow
    exact ⟨hrow, by simpa using hkey⟩
  have hclear : ∀ {row}, row ∈ g.rows → RowClear d.poller keyOf rec rows' row := by
    intro row hrow
    obtain ⟨hrow, hkey⟩ := hmem hrow
    exact h.clear held hheld row hrow (by rw [hkey]; exact hfree) (by rw [hkey]; exact hopen)
  refine ⟨⟨fun row hrow => h.fits row (hmem hrow).1, fun row hrow => (hmem hrow).2, ?_, ?_, ?_, ?_⟩, ?_⟩
  · rw [heq]
    exact h.sorted.sublist List.filter_sublist
  · rw [heq]
    exact h.distinct.sublist (List.filter_sublist.map _)
  · intro row hrow id p hget hkey hlt
    have hrowkey := (hmem hrow).2
    obtain ⟨row', hrow', rfl⟩ := List.mem_map.1
      ((hclear hrow).closed id p hget (by rw [hkey, hrowkey]) hlt)
    refine List.mem_map.2 ⟨row', ?_, rfl⟩
    rw [heq]
    refine List.mem_filter.2 ⟨hrow', ?_⟩
    rw [(h.fits row' hrow').key, hkey]
    simp
  · intro row hrow p hget
    exact (hclear hrow).behind p hget
  · -- the key of a group is the key of one of its rows
    have hne := openGroups_rows hg
    obtain ⟨row, hrow⟩ := List.exists_mem_of_ne_nil _ hne
    rw [← (hmem hrow).2]
    exact (hclear hrow).unheld

/-- The queued groups. -/
theorem Upheld.queues_act (h : Upheld d.poller keyOf vs w) (hcalls : DrainOrOperator o)
    (hhold : d.poller.delivery.poisonHoldKey = true) (hv : vs[t]? = some v) (hallow : v.allow d o)
    (hw : perform o ch w = some (a, w')) :
    ∀ g ∈ (w'.drain 0).queue, Lined d.poller keyOf w'.store g.key g.rows ∧ Unheld w'.store g.key := by
  intro g hg
  have hqueued := h.crew.queued hv hallow hw
  cases hqueued with
  | shifted hqueue =>
    rw [hqueue] at hg
    rw [perform_other (fun so => by simp) hw]
    exact h.queues g (List.mem_of_mem_tail hg)
  | filled deps l run groups hqueue _ =>
    rw [hqueue] at hg
    rw [perform_other (fun so => by simp) hw]
    cases v with
    | main m =>
      obtain ⟨-, -, hdrain, -, hgroups⟩ := hallow
      obtain ⟨rows, hrows⟩ : ∃ rows, m.rows = some rows := ⟨_, hgroups.choose_spec.choose_spec.choose_spec.1⟩
      exact (h.sights t m hv (by rw [hdrain]; rfl) rows hrows).opens hrows hgroups hg
    | worker x => exact hallow.elim
    | keeper l => exact hallow.elim
  | same _ _ _ hqueue =>
    rw [hqueue] at hg
    obtain ⟨hlined, hunheld⟩ := h.queues g hg
    refine ⟨hlined.step hcalls h.tidy hunheld.own hw, hunheld.step hcalls hw ?_⟩
    rintro l q rfl hkey
    obtain ⟨x, row, rest, rfl, hended, -, hrest, -, -, hkey'⟩ := parks_first hhold hallow
    rw [hkey'] at hkey
    refine h.apart.taken t x hv hended (by simp [hrest]) ?_
    rw [Option.some.inj hkey]
    exact List.mem_map.2 ⟨g, hg, rfl⟩

/-- For each key of the loaded rows that is neither held nor blocked, every earlier pending event is
among the loaded rows. -/
def UpToDate (poller : ResolvedPoller ι) (rec : KeyRecord ι) (blocked : List String)
    (rows : List (OutboxRow ι)) : Prop :=
  ∀ row ∈ rows, orderingKey poller row.event ∉ rec.heldKeys →
    orderingKey poller row.event ∉ blocked →
    ∀ p ∈ rec.pendingRows, orderingKey poller p.event = orderingKey poller row.event →
      p.sequence < row.sequence →
      ∃ row' ∈ rows, row'.eventId = p.eventId ∧ row'.sequence = p.sequence

/-- What a main thread sees after an answer. -/
inductive Looks (w : World ι) (m m' : MainView ι) : Op ι → Prop
  | same (o : Op ι) (rows : m'.rows = m.rows) (held : m'.held = m.held)
      (blocked : m'.blocked = m.blocked) (drain : m'.drain = m.drain) : Looks w m m' o
  | out (o : Op ι) (drain : m'.drain = none) : Looks w m m' o
  | dropped (o : Op ι) (rows : m'.rows = none) : Looks w m m' o
  | loaded (limit : Nat) (rows : m'.rows = some (w.store.loadPending limit)) (held : m'.held = none)
      (blocked : m'.blocked = none) : Looks w m m' (.store (.loadPending limit))
  | asked (rows : m'.rows = m.rows) (held : m'.held = some w.store.heldKeys)
      (blocked : m'.blocked = none) (drain : m'.drain = m.drain) : Looks w m m' (.store .heldKeys)
  | peeked (i : Nat) (rows : m'.rows = m.rows) (held : m'.held = m.held)
      (blocked : m'.blocked = some (w.drain i).blocked) (drain : m'.drain = m.drain) :
      Looks w m m' (.peekDrain i)

theorem main_looks (hw : perform o ch w = some (a, w')) (m : MainView ι) :
    Looks w m (m.learn o a) o := by
  cases o with
  | store so =>
    cases so with
    | loadPending limit =>
      cases a with
      | error e => exact .same _ rfl rfl rfl rfl
      | ok rows =>
        obtain ⟨-, hread⟩ := performStore_read (fun _ => rfl) (perform_store hw)
        obtain rfl := hread rows rfl
        exact .loaded limit rfl rfl rfl
    | heldKeys =>
      cases a with
      | error e => exact .same _ rfl rfl rfl rfl
      | ok keys =>
        obtain ⟨-, hread⟩ := performStore_read (fun _ => rfl) (perform_store hw)
        obtain rfl := hread keys rfl
        exact .asked rfl rfl rfl rfl
    | acquireLease owner ttlMs now =>
      cases a with
      | error e => exact .same _ rfl rfl rfl rfl
      | ok got => cases got <;> exact .same _ rfl rfl rfl rfl
    | _ => exact .same _ rfl rfl rfl rfl
  | newDrain => exact .dropped _ rfl
  | startRound deps l run i groups => exact .dropped _ rfl
  | joinRound i =>
    cases a with
    | ok n => exact .same _ rfl rfl rfl rfl
    | error e => exact .out _ rfl
  | peekDrain i =>
    have ha : a = w.drain i := by
      cases ch <;> simp only [perform, Option.some.injEq, Prod.mk.injEq, reduceCtorEq] at hw
      exact hw.1.symm
    subst ha
    exact .peeked i rfl rfl rfl rfl
  | _ => exact .same _ rfl rfl rfl rfl

/-- While no worker is left, no event is parked and no note is made. -/
theorem idle_calls (hidle : vs.countP ThreadView.live = 0) (hv : vs[t]? = some v)
    (hallow : v.allow d o) :
    (∀ l q, o ≠ .store (.parkEvent l q)) ∧ ∀ i note, o ≠ .noteDrain i note := by
  have hended : ∀ x, v = .worker x → x.ended = true := by
    rintro x rfl
    exact all_ended hidle hv
  constructor
  · rintro l q rfl
    cases v with
    | worker x =>
      have hx := hended x rfl
      rw [hallow.1] at hx
      cases hx
    | main m => exact hallow.elim
    | keeper l => exact hallow.elim
  · rintro i note rfl
    cases v with
    | worker x =>
      have hx := hended x rfl
      rw [hallow.2.1] at hx
      cases hx
    | main m => exact hallow.elim
    | keeper l => exact hallow.elim

/-- Only notes block keys. -/
theorem blocked_same (hnote : ∀ i note, o ≠ .noteDrain i note) (hw : perform o ch w = some (a, w'))
    (j : Nat) : (w'.drain j).blocked = (w.drain j).blocked := by
  rcases perform_drain hw j with heq | ⟨i, note, heq, -⟩ | ⟨deps, l, run, i, groups, -, -, heq⟩ |
    ⟨i, -, -, heq⟩ | ⟨i, res, -, -, heq⟩
  · rw [heq]
  · exact absurd heq (hnote i note)
  · rw [heq]
    rfl
  · rw [heq]
  · rw [heq]
    cases res <;> rfl

/-- Loaded rows stay as good while no event is parked. -/
theorem Sight.step {blocked : List String} {held seen : Option (List String)}
    {rows : List (OutboxRow ι)} (h : Sight d.poller keyOf w.store blocked held seen rows)
    (hcalls : DrainOrOperator o) (hrec : Tidy d.poller keyOf w.store)
    (hpark : ∀ l q, o ≠ .store (.parkEvent l q)) (hw : perform o ch w = some (a, w')) :
    Sight d.poller keyOf w'.store blocked held seen rows := by
  refine ⟨h.fits, h.sorted, h.distinct, ?_, h.peeked⟩
  intro keys hkeys row hrow hheld hopen
  have hclear := h.clear keys hkeys row hrow hheld hopen
  refine ⟨?_, ?_, hclear.unheld.step hcalls hw fun l q heq => absurd heq (hpark l q)⟩
  · intro id p hget hkey hlt
    obtain ⟨p₀, hget₀, hseq⟩ := hclear.unheld.arrived hcalls hrec hw hget hkey
    exact hclear.closed id p₀ hget₀ hkey (hseq ▸ hlt)
  · intro p hget
    obtain ⟨p₀, hget₀, hseq⟩ := hclear.unheld.arrived hcalls hrec hw hget (h.fits row hrow).key.symm
    rw [hseq]
    exact hclear.behind p₀ hget₀

/-- A key that is not among the held ones is unheld. -/
theorem unheld_of_not_mem {rec : KeyRecord ι} {key : String} (h : key ∉ rec.heldKeys) :
    Unheld rec key := by
  intro id q hget hkey
  exact h (List.mem_filterMap.2 ⟨q, (OrderedMap.mem_values_iff _ q).2 ⟨id, hget⟩, hkey⟩)

/-- What the held keys say of a row of a load that is up to date. -/
theorem UpToDate.clear {rec : KeyRecord ι} {blocked : List String} {rows : List (OutboxRow ι)}
    (h : UpToDate d.poller rec blocked rows) (hrec : Tidy d.poller keyOf rec)
    (hdistinct : (rows.map (·.eventId)).Nodup) {row : OutboxRow ι} (hrow : row ∈ rows)
    (hfits : TidyRow d.poller keyOf row) (hheld : orderingKey d.poller row.event ∉ rec.heldKeys)
    (hopen : orderingKey d.poller row.event ∉ blocked) : RowClear d.poller keyOf rec rows row := by
  have hearlier : ∀ id p, rec.outbox.get id = some p → keyOf id = orderingKey d.poller row.event →
      p.sequence < row.sequence → ∃ row' ∈ rows, row'.eventId = id ∧ row'.sequence = p.sequence := by
    intro id p hget hkey hlt
    have htidy := hrec.outbox id p hget
    have hid := (hrec.filed.outbox id p hget).1
    have hpending := mem_pendingRows.2 ⟨⟨id, hget⟩, htidy.stamped.status⟩
    obtain ⟨row', hrow', hid', hseq⟩ :=
      h row hrow hheld hopen p hpending (by rw [htidy.key, hid, hkey]) hlt
    exact ⟨row', hrow', hid'.trans hid, hseq⟩
  refine ⟨?_, ?_, unheld_of_not_mem hheld⟩
  · intro id p hget hkey hlt
    obtain ⟨row', hrow', hid, -⟩ := hearlier id p hget hkey hlt
    exact List.mem_map.2 ⟨row', hrow', hid⟩
  · intro p hget
    by_contra hlt
    obtain ⟨row', hrow', hid, hseq⟩ := hearlier _ p hget hfits.key.symm (by omega)
    obtain rfl : row' = row := List.inj_on_of_nodup_map hdistinct hrow' hrow hid
    omega

/-- The rows the main threads have loaded. -/
theorem Upheld.sights_act (h : Upheld d.poller keyOf vs w) (hcalls : DrainOrOperator o)
    (hv : vs[t]? = some v) (hallow : v.allow d o)
    (hasks : ∀ m rows, o = .store .heldKeys → v = .main m → m.rows = some rows →
      UpToDate d.poller w.store (w.drain 0).blocked rows)
    (hw : perform o ch w = some (a, w')) (u : Nat) (m : MainView ι)
    (hm : ((deliveries d).step vs (.act t o ch a))[u]? = some (.main m)) (hdrain : m.drain.isSome)
    (rows : List (OutboxRow ι)) (hrows : rows ∈ m.rows) :
    Sight d.poller keyOf w'.store (w'.drain 0).blocked m.held m.blocked rows := by
  -- what was in sight stays so
  have hframe : ∀ (u : Nat) m₀, vs[u]? = some (.main m₀) → m₀.drain.isSome → m₀.rows = some rows →
      Sight d.poller keyOf w'.store (w'.drain 0).blocked m₀.held m₀.blocked rows := by
    intro u m₀ hm₀ hdrain₀ hrows₀
    have hidle := h.crew.resting u m₀ hm₀ hdrain₀ (h.crew.loaded u m₀ hm₀ (by rw [hrows₀]; rfl))
    obtain ⟨hpark, hnote⟩ := idle_calls hidle hv hallow
    rw [blocked_same hnote hw]
    exact (h.sights u m₀ hm₀ hdrain₀ rows hrows₀).step hcalls h.tidy hpark hw
  rcases step_act_cases hm with ⟨v₀, rfl, hv₀, heq⟩ | ⟨-, hold⟩ | ⟨-, heq, -⟩
  · obtain rfl : v₀ = v := Option.some.inj (hv₀.symm.trans hv)
    cases v₀ with
    | main m₀ =>
      obtain rfl : m = m₀.learn o a := ThreadView.main.inj heq
      have hlooks := main_looks hw m₀
      generalize m₀.learn o a = m at hlooks hdrain hrows ⊢
      cases hlooks with
      | same _ hsame hheld hblocked hd =>
        rw [hheld, hblocked]
        exact hframe u m₀ hv (hd ▸ hdrain) (hsame ▸ hrows)
      | out _ hnone =>
        rw [hnone] at hdrain
        cases hdrain
      | dropped _ hnone =>
        rw [hnone] at hrows
        cases hrows
      | loaded limit hloaded hheld hblocked =>
        rw [hloaded] at hrows
        obtain rfl := Option.some.inj hrows
        rw [hheld, hblocked]
        refine ⟨?_, loadPending_sorted _ _, loadPending_distinct h.tidy.filed limit, ?_, ?_⟩
        · intro row hrow
          obtain ⟨id, hget⟩ := loadPending_mem hrow
          exact h.tidy.outbox id row hget
        · intro keys hkeys
          cases hkeys
        · intro b hb
          cases hb
      | asked hsame hheld hblocked hd =>
        have hrows₀ : m₀.rows = some rows := hsame ▸ hrows
        have hsight := hframe u m₀ hv (hd ▸ hdrain) hrows₀
        have hstore : w'.store = w.store := (performStore_read (fun _ => rfl) (perform_store hw)).1
        rw [hheld, hblocked, hstore]
        refine ⟨hsight.fits, hsight.sorted, hsight.distinct, ?_, ?_⟩
        · intro keys hkeys row hrow hnotheld hopen
          obtain rfl := Option.some.inj hkeys
          have hidle := h.crew.resting u m₀ hv (hd ▸ hdrain) (h.crew.loaded u m₀ hv (by rw [hrows₀]; rfl))
          rw [blocked_same (idle_calls hidle hv hallow).2 hw] at hopen
          exact (hasks m₀ rows rfl rfl hrows₀).clear h.tidy hsight.distinct hrow
            (hsight.fits row hrow) hnotheld hopen
        · intro b hb
          cases hb
      | peeked i hsame hheld hblocked hd =>
        have hsight := hframe u m₀ hv (hd ▸ hdrain) (hsame ▸ hrows)
        have hfew := h.crew.few
        have hi := h.crew.mains u m₀ i hv hallow.1
        obtain rfl : i = 0 := by omega
        rw [hheld, hblocked]
        refine ⟨hsight.fits, hsight.sorted, hsight.distinct, hsight.clear, ?_⟩
        intro b hb
        rw [← Option.some.inj hb]
        exact (blocked_same (by simp) hw 0).symm
    | worker x => cases heq
    | keeper l => cases heq
  · exact hframe u m hold hdrain hrows
  · cases o <;> simp only [deliveries, forkView, reduceCtorEq] at heq
    all_goals
      obtain rfl := ThreadView.main.inj heq
      cases hdrain

/-- A step of a thread. -/
theorem Upheld.act (h : Upheld d.poller keyOf vs w) (hcalls : DrainOrOperator o)
    (hhold : d.poller.delivery.poisonHoldKey = true) (hv : vs[t]? = some v) (hallow : v.allow d o)
    (hasks : ∀ m rows, o = .store .heldKeys → v = .main m → m.rows = some rows →
      UpToDate d.poller w.store (w.drain 0).blocked rows)
    (hw : perform o ch w = some (a, w')) (hfew : w'.drains.length ≤ 1) :
    Upheld d.poller keyOf ((deliveries d).step vs (.act t o ch a)) w' where
  crew := h.crew.act hv hallow hw hfew
  apart := h.apart.act h.crew hhold hv hallow hw
  tidy := h.tidy_act hcalls hhold hv hallow hw
  hands := h.hands_act hcalls hhold hv hallow hw
  queues := h.queues_act hcalls hhold hv hallow hw
  sights := h.sights_act hcalls hv hallow hasks hw

/-- A new thread has no group and no rows. -/
theorem Upheld.start (h : Upheld d.poller keyOf vs w) (l : Lease) (p : Prog (Op ι) Ans Unit) :
    Upheld d.poller keyOf ((drainRoles d l).step vs (.start p)) w := by
  refine ⟨h.crew.start l p, h.apart.start l p, h.tidy, ?_, h.queues, ?_⟩
  · intro u x hx
    exact h.hands u x (start_worker hx)
  · intro u m hm hdrain
    rcases step_start_cases hm with hold | ⟨-, heq⟩
    · exact h.sights u m hold hdrain
    · obtain rfl := ThreadView.main.inj heq
      cases hdrain

/-- Only the store and the drains matter. -/
theorem Upheld.withRuns (h : Upheld d.poller keyOf vs w) (runs : List RunMem) :
    Upheld d.poller keyOf vs { w with runs } where
  crew := ⟨h.crew.few, h.crew.mains, h.crew.one, h.crew.workers, h.crew.count, h.crew.resting,
    h.crew.loaded⟩
  apart := ⟨h.apart.queue, h.apart.taken, h.apart.apart⟩
  tidy := h.tidy
  hands := h.hands
  queues := h.queues
  sights := h.sights

theorem upheld_init (hw : w.drains = []) (hrec : Tidy d.poller keyOf w.store) :
    Upheld d.poller keyOf [] w := by
  refine ⟨crew_init w hw, apart_init w hw, hrec, ?_, ?_, ?_⟩
  · intro t x hx
    simp at hx
  · intro g hg
    simp [World.drain, hw] at hg
  · intro t m hm
    simp at hm

end Act

end Watukuy
