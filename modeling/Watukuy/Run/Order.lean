import Watukuy.Cycle.Operators
import Watukuy.Run.Conservation

/-!
# Events of one key are delivered in order

A load answers the first pending rows by sequence, and its held keys are asked for after it. So the
group of a key that is not held lacks no earlier event of the key that is still to be delivered
(`Ripe`); its worker takes the rows one by one and leaves the group with the first failure.
`delivered_in_order`: while no one puts events back or takes any away, an event is delivered only
after all earlier events of its ordering key.
-/

set_option autoImplicit false

namespace Watukuy

open Library KeyRecord

variable {ι : Type}

/-! ## Groups on their way -/

/-- The groups queued and those in the hands of workers satisfy `P`. -/
structure Dealt (P : String → List (OutboxRow ι) → Prop) (vs : List (ThreadView ι)) (w : World ι) :
    Prop where
  workers : ∀ (t : Nat) x, vs[t]? = some (.worker x) → P x.key x.rest
  queues : ∀ i, ∀ g ∈ (w.drain i).queue, P g.key g.rows

section Dealt

variable {P Q : String → List (OutboxRow ι) → Prop} {d : Deployment ι} {vs : List (ThreadView ι)}
  {t : Nat} {o : Op ι} {ch : Choice ι} {a : Ans o} {w w' : World ι}

theorem Dealt.mono (h : Dealt P vs w) (hPQ : ∀ key rows, P key rows → Q key rows) : Dealt Q vs w :=
  ⟨fun t x hx => hPQ _ _ (h.workers t x hx), fun i g hg => hPQ _ _ (h.queues i g hg)⟩

theorem dealt_init (w : World ι) (hw : w.drains = []) : Dealt P [] w := by
  constructor
  · intro t x hx
    simp at hx
  · intro i g hg
    simp [World.drain, hw] at hg

theorem Dealt.start (h : Dealt P vs w) (p : Prog (Op ι) Ans Unit) :
    Dealt P ((deliveries d).step vs (.start p)) w := by
  refine ⟨?_, h.queues⟩
  intro u x hx
  rcases step_start_cases hx with hold | ⟨-, heq⟩
  · exact h.workers u x hold
  · cases heq

/-- A group changes hands, and its worker drops the first row when it is acknowledged. -/
theorem Dealt.act (h : Dealt P vs w) (hhold : d.poller.delivery.poisonHoldKey = true)
    (hnil : ∀ key, P key [])
    (htail : ∀ (t : Nat) x, vs[t]? = some (.worker x) → x.stage = .delivered →
      P x.key x.rest → P x.key x.rest.tail)
    {v : ThreadView ι} (hv : vs[t]? = some v) (hallow : v.allow d o)
    (hopen : ∀ m groups, v = .main m → m.Groups d groups → ∀ g ∈ groups, P g.key g.rows)
    (hw : perform o ch w = some (a, w')) :
    Dealt P ((deliveries d).step vs (.act t o ch a)) w' := by
  constructor
  · intro u x hx
    rcases step_act_cases hx with ⟨v₀, rfl, hv₀, heq⟩ | ⟨-, hold⟩ | ⟨-, heq, -⟩
    · obtain rfl : v₀ = v := Option.some.inj (hv₀.symm.trans hv)
      cases v₀ with
      | worker x₀ =>
        obtain rfl : x = x₀.learn d o a := ThreadView.worker.inj heq
        have hx₀ := h.workers u x₀ hv
        generalize hkey : (x₀.learn d o a).key = key
        generalize hrest : (x₀.learn d o a).rest = rest
        have hhanded := worker_handed (d := d) hw x₀
        rw [hkey, hrest] at hhanded
        cases hhanded with
        | same => exact hx₀
        | left => exact hnil _
        | taken i g hhead => exact h.queues i g (List.mem_of_mem_head? hhead)
        | acked l ids => exact htail u x₀ hv hallow.2.2.1 hx₀
        | passed i _ hfree => exact absurd hhold hfree
      | main m => cases heq
      | keeper l => cases heq
    · exact h.workers u x hold
    · cases o <;> simp only [deliveries, forkView, reduceCtorEq] at heq
      obtain rfl := ThreadView.worker.inj heq
      exact hnil _
  · intro i g hg
    rcases queue_cases hw hg with hold | ⟨deps, l, run, groups, rfl, hmem⟩
    · exact h.queues i g hold
    · cases v with
      | main m => exact hopen m groups rfl hallow.2.2.2.2 g hmem
      | worker x => exact hallow.elim
      | keeper l => exact hallow.elim

end Dealt

/-! ## Rows and their commits -/

/-- The row stands for an event that was committed. -/
def FromCommit (tr : List (Label (system ι))) (row : OutboxRow ι) : Prop :=
  ∃ r ∈ committedRows tr, r.eventId = row.eventId ∧ r.sequence = row.sequence ∧ r.event = row.event

/-- The event was committed and has not been delivered. -/
def Due (tr : List (Label (system ι))) (r : OutboxRow ι) : Prop :=
  r ∈ committedRows tr ∧ r.eventId ∉ deliveredIds tr

/-- The ids of the committed events are distinct. -/
def DistinctIds (tr : List (Label (system ι))) : Prop := ((committedRows tr).map (·.eventId)).Nodup

section Commits

variable {tr : List (Label (system ι))} {l : Label (system ι)} {r row : OutboxRow ι}

theorem committedRows_mono (h : r ∈ committedRows tr) : r ∈ committedRows (tr ++ [l]) := by
  rw [committedRows_append]
  exact List.mem_append_left _ h

theorem FromCommit.snoc (h : FromCommit tr row) : FromCommit (tr ++ [l]) row := by
  obtain ⟨r, hr, heq⟩ := h
  exact ⟨r, committedRows_mono hr, heq⟩

/-- An event that is due was due before, or this step commits it. -/
theorem Due.of_snoc (h : Due (tr ++ [l]) r) : Due tr r ∨ r ∈ stepRows l := by
  obtain ⟨hmem, hfresh⟩ := h
  rw [committedRows_append] at hmem
  rw [deliveredIds_append, List.mem_append, not_or] at hfresh
  rcases List.mem_append.1 hmem with hold | hnew
  · exact Or.inl ⟨hold, hfresh.1⟩
  · exact Or.inr hnew

/-- Rows of one id stand for one commit. -/
theorem DistinctIds.eq (h : DistinctIds tr) (hr : r ∈ committedRows tr) (hrow : FromCommit tr row)
    (hid : r.eventId = row.eventId) : r.sequence = row.sequence ∧ r.event = row.event := by
  obtain ⟨r', hr', hid', hseq, hevent⟩ := hrow
  obtain rfl : r' = r := List.inj_on_of_nodup_map h hr' hr (hid'.trans hid.symm)
  exact ⟨hseq, hevent⟩

theorem DistinctIds.of_snoc (h : DistinctIds (tr ++ [l])) : DistinctIds tr := by
  unfold DistinctIds at h ⊢
  rw [committedRows_append, List.map_append] at h
  exact h.of_append_left

end Commits

/-! ## Groups without a gap -/

/-- The rows of a group: in order, and no earlier event of their key is due elsewhere. -/
structure Ripe (poller : ResolvedPoller ι) (tr : List (Label (system ι))) (key : String)
    (rows : List (OutboxRow ι)) : Prop where
  keyed : ∀ row ∈ rows, orderingKey poller row.event = key
  sorted : rows.Pairwise fun a b => a.sequence ≤ b.sequence
  closed : ∀ row ∈ rows, ∀ r, Due tr r → orderingKey poller r.event = key →
    r.sequence < row.sequence → ∃ row' ∈ rows, row'.eventId = r.eventId

section Ripe

variable {poller : ResolvedPoller ι} {tr : List (Label (system ι))} {l : Label (system ι)}
  {key : String} {rows : List (OutboxRow ι)}

theorem ripe_nil : Ripe poller tr key [] := by
  refine ⟨?_, List.Pairwise.nil, ?_⟩
  · intro row hrow
    cases hrow
  · intro row hrow
    cases hrow

/-- A group whose first row was delivered goes on without it. -/
theorem Ripe.tail (h : Ripe poller tr key rows)
    (hhead : ∀ row ∈ rows.head?, row.eventId ∈ deliveredIds tr) : Ripe poller tr key rows.tail := by
  cases rows with
  | nil => exact h
  | cons row rest =>
    refine ⟨fun x hx => h.keyed x (List.mem_cons_of_mem _ hx), (List.pairwise_cons.1 h.sorted).2, ?_⟩
    intro x hx r hr hkey hlt
    obtain ⟨x', hx', hid⟩ := h.closed x (List.mem_cons_of_mem _ hx) r hr hkey hlt
    rcases List.mem_cons.1 hx' with rfl | hx'
    · exact absurd (hid ▸ hhead x' rfl) hr.2
    · exact ⟨x', hx', hid⟩

/-- Later commits have larger sequences than the rows in hand. -/
theorem Ripe.snoc (h : Ripe poller tr key rows) (hnew : ∀ row ∈ rows, ∀ r ∈ stepRows l,
    row.sequence < r.sequence) : Ripe poller (tr ++ [l]) key rows := by
  refine ⟨h.keyed, h.sorted, ?_⟩
  intro row hrow r hr hkey hlt
  rcases hr.of_snoc with hold | hfresh
  · exact h.closed row hrow r hold hkey hlt
  · have hlater := hnew row hrow r hfresh
    omega

end Ripe

/-! ## What a main thread has loaded -/

/-- What the rows a main thread has loaded lack: events parked since before the held keys were asked
for, or events of a key that was held then. -/
def Sighted (poller : ResolvedPoller ι) (tr : List (Label (system ι))) (rec : KeyRecord ι)
    (rows : Option (List (OutboxRow ι))) (held : Option (List String)) : Prop :=
  ∀ loaded ∈ rows, loaded.Pairwise (fun a b => a.sequence ≤ b.sequence) ∧
    ∀ row ∈ loaded, ∀ r, Due tr r →
      orderingKey poller r.event = orderingKey poller row.event → r.sequence < row.sequence →
      (∃ row' ∈ loaded, row'.eventId = r.eventId) ∨
        match held with
        | none => (rec.parked.get r.eventId).isSome
        | some keys => orderingKey poller r.event ∈ keys

/-- What holds after every step. -/
structure Ordered (d : Deployment ι) (tr : List (Label (system ι))) (vs : List (ThreadView ι))
    (w : World ι) : Prop where
  committed : ∀ id row, w.store.outbox.get id = some row → FromCommit tr row
  handled : Handled (FromCommit tr) vs w
  plain : ∀ r ∈ committedRows tr, ':' ∉ r.eventId.toList
  /-- A parked row is a quarantined item, or it holds the key of its event. -/
  parked : ∀ id q, w.store.parked.get id = some q →
    ':' ∈ id.toList ∨
      ∃ r ∈ committedRows tr, r.eventId = id ∧ q.holdKey = some (orderingKey d.poller r.event)
  dealt : Dealt (Ripe d.poller tr) vs w
  sighted : ∀ (t : Nat) m, vs[t]? = some (.main m) → Sighted d.poller tr w.store m.rows m.held

/-- Requests that neither put events back nor take any away. -/
def EngineCall.KeepsOrder : EngineCall → Prop
  | .replay _ _ => False
  | .parkedRetry _ => False
  | .parkedDiscard _ => False
  | .removePartition => False
  | _ => True

theorem EngineCall.KeepsOrder.keepsKey {call : EngineCall} (h : call.KeepsOrder) : call.KeepsKey := by
  cases call <;> first | exact h.elim | trivial

section Commits

variable {d : Deployment ι}

/-- The id of an event is a hex text. -/
theorem NumberedRows.plain {deps : RunnerDeps ι} {lane : Lane} {cursor : CursorVal}
    {specs : List (EventSpec ι)} {n : Nat} {rows : List (OutboxRow ι)}
    (h : NumberedRows deps lane cursor n specs rows) : ∀ r ∈ rows, ':' ∉ r.eventId.toList := by
  induction specs generalizing n rows with
  | nil =>
    obtain rfl : rows = [] := h
    intro r hr
    cases hr
  | cons spec rest ih =>
    obtain ⟨at_, tail, rfl, htail⟩ := h
    intro r hr
    rcases List.mem_cons.1 hr with rfl | hr
    · exact colon_not_mem_toHex _
    · exact ih htail r hr

theorem quarantineRow_colon (deps : RunnerDeps ι) (at_ : Int) (inv : ι × List ValidationIssue) :
    ':' ∈ (quarantineRow deps at_ inv).id.toList := by
  simp [quarantineRow]

/-- The ids of a commit: hex texts for events, texts with a colon for quarantined items. -/
theorem commit_ids {v : CycleView ι} {l : Lease} {b : CommitBatch ι}
    (h : (cycleContract d (administers d EngineCall.KeepsOrder)).allow v (.store (.commitPoll l b))) :
    (∀ r ∈ b.events, ':' ∉ r.eventId.toList) ∧ ∀ q ∈ b.parked, ':' ∈ q.id.toList := by
  have hnone : b.parked = [] → ∀ q ∈ b.parked, ':' ∈ q.id.toList := by
    intro hempty q hq
    rw [hempty] at hq
    cases hq
  rcases h with ⟨-, -, ⟨⟨p⟩⟩ | ⟨⟨p⟩⟩⟩ | ⟨⟨fromTime, toTime, hreplay⟩, -⟩
  · refine ⟨p.events_eq.plain, ?_⟩
    rcases p.parked_eq with hempty | hquarantined
    · exact hnone hempty
    · intro q hq
      rw [hquarantined] at hq
      obtain ⟨inv, -, rfl⟩ := List.mem_map.1 hq
      exact quarantineRow_colon _ _ inv
  · exact ⟨p.events_eq.plain, hnone p.parked_eq⟩
  · exact hreplay.elim

end Commits

section Runs

variable {d : Deployment ι} {tr : List (Label (system ι))} {vs : List (ThreadView ι)}
  {w w' : World ι} {t : Nat} {o : Op ι} {ch : Choice ι} {a : Ans o}

/-- An event that is due is pending or parked. -/
theorem Conserved.due (h : Conserved tr vs w) (hdiscarded : discardedIds tr = []) {r : OutboxRow ι}
    (hr : Due tr r) : w.store.Keeps r.eventId := by
  rcases h.accounted r hr.1 with hkeep | hdelivered | hgone
  · exact hkeep
  · exact absurd hdelivered hr.2
  · rw [hdiscarded] at hgone
    cases hgone

/-- A parked event that was committed holds its key. -/
theorem Ordered.holds (h : Ordered d tr vs w) (hids : DistinctIds tr) {r : OutboxRow ι}
    (hr : r ∈ committedRows tr) (hparked : (w.store.parked.get r.eventId).isSome) :
    orderingKey d.poller r.event ∈ w.store.heldKeys := by
  obtain ⟨q, hq⟩ := Option.isSome_iff_exists.1 hparked
  have hmem : q ∈ w.store.parked.values := (OrderedMap.mem_values_iff _ q).2 ⟨_, hq⟩
  rcases h.parked _ q hq with hcolon | ⟨r', hr', hid, hkey⟩
  · exact absurd hcolon (h.plain r hr)
  · obtain rfl : r' = r := List.inj_on_of_nodup_map hids hr' hr hid
    exact List.mem_filterMap.2 ⟨q, hmem, hkey⟩

/-- An event that is due and comes before a row in hand was due before this step. -/
theorem due_before {l : Label (system ι)}
    (hlater : ∀ row, FromCommit tr row → ∀ r ∈ stepRows l, row.sequence < r.sequence)
    {row r : OutboxRow ι} (hrow : FromCommit tr row) (hr : Due (tr ++ [l]) r)
    (hlt : r.sequence < row.sequence) : Due tr r := by
  rcases hr.of_snoc with hr | hnew
  · exact hr
  · have hpast := hlater row hrow r hnew
    omega

/-- Rows in hand stay as good as they were while no row leaves the parked table. -/
theorem Sighted.snoc {poller : ResolvedPoller ι} {rec rec' : KeyRecord ι} {l : Label (system ι)}
    {rows : Option (List (OutboxRow ι))} {held : Option (List String)}
    (h : Sighted poller tr rec rows held) (hrows : ∀ row ∈ rows.getD [], FromCommit tr row)
    (hstay : ∀ id, (rec.parked.get id).isSome → (rec'.parked.get id).isSome)
    (hlater : ∀ row, FromCommit tr row → ∀ r ∈ stepRows l, row.sequence < r.sequence) :
    Sighted poller (tr ++ [l]) rec' rows held := by
  intro loaded hloaded
  obtain ⟨hsorted, hclosed⟩ := h loaded hloaded
  rw [Option.mem_def.1 hloaded] at hrows
  refine ⟨hsorted, ?_⟩
  intro row hrow r hr hkey hlt
  refine (hclosed row hrow r (due_before hlater (hrows row hrow) hr hlt) hkey hlt).imp_right ?_
  intro hheld
  cases held with
  | none => exact hstay _ hheld
  | some keys => exact hheld

/-- What a main thread knows of its rows after an answer. -/
theorem Ordered.sight (h : Ordered d tr vs w) (hc : Conserved tr vs w) (hids : DistinctIds tr)
    (hdiscarded : discardedIds tr = []) {m : MainView ι} (hv : vs[t]? = some (.main m))
    (hasks : o = .store .heldKeys → m.held = none) (hw : perform o ch w = some (a, w'))
    (hstay : ∀ id, (w.store.parked.get id).isSome → (w'.store.parked.get id).isSome)
    (hlater : ∀ row, FromCommit tr row → ∀ r ∈ stepRows (.act t o ch a), row.sequence < r.sequence) :
    Sighted d.poller (tr ++ [.act t o ch a]) w'.store (m.learn o a).rows (m.learn o a).held := by
  have hm := h.sighted t m hv
  have hrows : ∀ row ∈ m.rows.getD [], FromCommit tr row := h.handled.views t _ hv
  have hasked := main_asked hw m
  generalize (m.learn o a).rows = rows at hasked ⊢
  generalize (m.learn o a).held = held at hasked ⊢
  cases hasked with
  | same => exact hm.snoc hrows hstay hlater
  | dropped =>
    intro loaded hloaded
    cases hloaded
  | loaded limit =>
    intro loaded hloaded
    obtain rfl := Option.some.inj hloaded
    refine ⟨loadPending_sorted _ _, ?_⟩
    intro row hrow r hr hkey hlt
    obtain ⟨id, hget⟩ := loadPending_mem hrow
    have hdue := due_before hlater (h.committed id row hget) hr hlt
    rcases hc.due hdiscarded hdue with hout | hparked
    · -- a pending event before a loaded row was loaded with it
      obtain ⟨row', hget'⟩ := Option.isSome_iff_exists.1 hout
      obtain ⟨hid, hstamped⟩ := hc.filed.outbox _ row' hget'
      obtain ⟨hseq, -⟩ := hids.eq hdue.1 (h.committed _ row' hget') hid.symm
      have hpending := mem_pendingRows.2 ⟨⟨_, hget'⟩, hstamped.status⟩
      exact Or.inl ⟨row', loadPending_closed hrow hpending (by omega), hid⟩
    · exact Or.inr (hstay _ hparked)
  | held =>
    intro loaded hloaded
    obtain ⟨hsorted, hclosed⟩ := hm loaded hloaded
    rw [Option.mem_def.1 hloaded] at hrows
    refine ⟨hsorted, ?_⟩
    intro row hrow r hr hkey hlt
    have hdue := due_before hlater (hrows row hrow) hr hlt
    refine (hclosed row hrow r hdue hkey hlt).imp_right ?_
    intro hparked
    rw [hasks rfl] at hparked
    exact h.holds hids hdue.1 hparked

/-- The groups of a round are ripe: what they lack is held, or delivered. -/
theorem Ordered.opens (h : Ordered d tr vs w) (hids : DistinctIds tr) {m : MainView ι} (hv : vs[t]? = some (.main m))
    {groups : List (Group ι)} (hgroups : m.Groups d groups) {g : Group ι} (hg : g ∈ groups) :
    Ripe d.poller tr g.key g.rows := by
  obtain ⟨rows, held, blocked, hrows, hheld, -, rfl⟩ := hgroups
  obtain ⟨heq, hfree, -⟩ := openGroups_mem hg
  obtain ⟨hsorted, hclosed⟩ := h.sighted t m hv rows hrows
  have hmem : ∀ {row}, row ∈ g.rows → row ∈ rows ∧ orderingKey d.poller row.event = g.key := by
    intro row hrow
    rw [heq] at hrow
    obtain ⟨hrow, hkey⟩ := List.mem_filter.1 hrow
    exact ⟨hrow, by simpa using hkey⟩
  refine ⟨fun row hrow => (hmem hrow).2, ?_, ?_⟩
  · rw [heq]
    exact hsorted.sublist List.filter_sublist
  · intro row hrow r hr hkey hlt
    obtain ⟨hrow, hrowkey⟩ := hmem hrow
    have hcases := hclosed row hrow r hr (hkey.trans hrowkey.symm) hlt
    rw [hheld] at hcases
    rcases hcases with ⟨row', hrow', hid⟩ | hheldkey
    · have hcommitted := h.handled.views t _ hv row' (by simpa [ThreadView.rows, hrows] using hrow')
      obtain ⟨-, hevent⟩ := hids.eq hr.1 hcommitted hid.symm
      refine ⟨row', ?_, hid⟩
      rw [heq]
      refine List.mem_filter.2 ⟨hrow', ?_⟩
      rw [← hevent]
      simpa using hkey
    · rw [hkey] at hheldkey
      exact absurd hheldkey hfree

/-- A worker parks an event that was committed, and holds its key. -/
theorem Ordered.parks (h : Ordered d tr vs w) (hhold : d.poller.delivery.poisonHoldKey = true)
    {v : ThreadView ι} (hv : vs[t]? = some v) {l : Lease} {q : ParkedRow ι}
    (hallow : v.allow d (.store (.parkEvent l q))) :
    ∃ r ∈ committedRows tr, r.eventId = q.id ∧ q.holdKey = some (orderingKey d.poller r.event) := by
  cases v with
  | worker x =>
    obtain ⟨-, -, -, row, rest, error, failedAt, parkedAt, hrest, rfl⟩ := hallow
    obtain ⟨r, hr, hid, -, hevent⟩ := h.handled.views t _ hv row (by simp [ThreadView.rows, hrest])
    have hkey := (h.dealt.workers t x hv).keyed row (by simp [hrest])
    refine ⟨r, hr, hid, ?_⟩
    simp only [poisonRow]
    rw [if_pos hhold, hevent, hkey]
  | main m => exact hallow.elim
  | keeper l => exact hallow.elim

/-- A step of a thread keeps the order. -/
theorem Ordered.act (h : Ordered d tr vs w) (hc : Conserved tr vs w)
    (hhold : d.poller.delivery.poisonHoldKey = true)
    (hids : DistinctIds (tr ++ [.act t o ch a])) (hdiscarded : discardedIds tr = [])
    (hlater : ∀ row, FromCommit tr row → ∀ r ∈ stepRows (.act t o ch a), row.sequence < r.sequence)
    (hrequested : Requested EngineCall.KeepsOrder o) {v : ThreadView ι} (hv : vs[t]? = some v)
    (hallow : v.allow d o) {u : CycleView ι}
    (hcycle : (cycleContract d (administers d EngineCall.KeepsOrder)).allow u o)
    (hw : perform o ch w = some (a, w')) :
    Ordered d (tr ++ [.act t o ch a]) ((deliveries d).step vs (.act t o ch a)) w' := by
  have hnodup := hids.of_snoc
  -- operators neither remove the key nor retry nor discard in these runs
  have hdel : o ≠ .store .deleteKey := by
    rintro rfl
    exact hrequested
  have hretry : ∀ ids, o ≠ .store (.retryParked ids) := by
    rintro ids rfl
    exact hrequested
  have hdiscard : ∀ ids, o ≠ .store (.discardParked ids) := by
    rintro ids rfl
    exact hrequested
  have hstay : ∀ id, (w.store.parked.get id).isSome → (w'.store.parked.get id).isSome :=
    fun id hid => step_still_parked hdel hretry hdiscard hw hid
  have hsnoc : ∀ row, FromCommit tr row → FromCommit (tr ++ [.act t o ch a]) row :=
    fun row hrow => hrow.snoc
  have hripe : ∀ key rows, (∀ row ∈ rows, FromCommit tr row) → Ripe d.poller tr key rows →
      Ripe d.poller (tr ++ [.act t o ch a]) key rows :=
    fun key rows hrows hr => hr.snoc fun row hrow => hlater row (hrows row hrow)
  refine ⟨?_, (h.handled.act h.committed hv hallow hw).mono hsnoc, ?_, ?_, ?_, ?_⟩
  · intro id row hget
    -- a row of the outbox was there before, or this step committed it
    rcases step_arrived hdel hw hget with ⟨row₀, hold, hsame⟩ | hnew | ⟨ids, -, -, -, heq, -⟩
    · obtain ⟨r, hr, hid, hseq, hevent⟩ := h.committed id row₀ hold
      exact ⟨r, committedRows_mono hr, hid.trans hsame.id.symm, hseq.trans hsame.sequence.symm,
        hevent.trans hsame.event.symm⟩
    · refine ⟨row, ?_, rfl, rfl, rfl⟩
      rw [committedRows_append]
      exact List.mem_append_right _ hnew
    · exact absurd heq (hretry ids)
  · intro r hr
    rw [committedRows_append] at hr
    rcases List.mem_append.1 hr with hr | hr
    · exact h.plain r hr
    · cases o with
      | store so =>
        cases so with
        | commitPoll l b =>
          simp only [stepRows] at hr
          split at hr
          · exact (commit_ids hcycle).1 r hr
          · cases hr
        | _ => cases hr
      | _ => cases hr
  · intro id q hget
    -- a parked row was there before, came with a page, or was just parked by its worker
    rcases step_shelved hdel hw hget with hold | ⟨l, b, rfl, hmem, rfl⟩ | ⟨l, rfl, rfl⟩
    · refine (h.parked id q hold).imp_right ?_
      rintro ⟨r, hr, hrest⟩
      exact ⟨r, committedRows_mono hr, hrest⟩
    · exact Or.inl ((commit_ids hcycle).2 q hmem)
    · obtain ⟨r, hr, hrest⟩ := h.parks hhold hv hallow
      exact Or.inr ⟨r, committedRows_mono hr, hrest⟩
  -- ripeness is carried together with where the rows come from: both are needed for the next step
  · have hdealt : Dealt (fun key rows => Ripe d.poller tr key rows ∧ ∀ row ∈ rows, FromCommit tr row)
        ((deliveries d).step vs (.act t o ch a)) w' := by
      have hboth : Dealt (fun key rows => Ripe d.poller tr key rows ∧
          ∀ row ∈ rows, FromCommit tr row) vs w :=
        ⟨fun t x hx => ⟨h.dealt.workers t x hx, h.handled.views t _ hx⟩,
          fun i g hg => ⟨h.dealt.queues i g hg, h.handled.queues i g hg⟩⟩
      have hnone : ∀ row ∈ ([] : List (OutboxRow ι)), FromCommit tr row := by
        intro row hrow
        cases hrow
      refine hboth.act hhold (fun key => ⟨ripe_nil, hnone⟩) ?_ hv hallow ?_ hw
      · rintro t x hx hstage ⟨hripe, hrows⟩
        exact ⟨hripe.tail (hc.told t x hx hstage), fun row hrow => hrows row (List.mem_of_mem_tail hrow)⟩
      · rintro m groups rfl hgroups g hg
        refine ⟨h.opens hnodup hv hgroups hg, ?_⟩
        obtain ⟨rows, held, blocked, hrows, -, -, rfl⟩ := hgroups
        obtain ⟨heq, -, -⟩ := openGroups_mem hg
        intro row hrow
        rw [heq] at hrow
        exact h.handled.views t _ hv row (by simpa [ThreadView.rows, hrows] using List.mem_of_mem_filter hrow)
    exact hdealt.mono fun key rows hboth => hripe key rows hboth.2 hboth.1
  · intro u m hm
    rcases step_act_cases hm with ⟨v₀, rfl, hv₀, heq⟩ | ⟨-, hold⟩ | ⟨-, heq, -⟩
    · obtain rfl : v₀ = v := Option.some.inj (hv₀.symm.trans hv)
      cases v₀ with
      | main m₀ =>
        obtain rfl : m = m₀.learn o a := ThreadView.main.inj heq
        -- what the main thread loads it sees in the order of the outbox
        refine h.sight hc hnodup hdiscarded hv ?_ hw hstay hlater
        rintro rfl
        exact hallow.2.2
      | worker x => cases heq
      | keeper l => cases heq
    · exact (h.sighted u m hold).snoc (h.handled.views u _ hold) hstay hlater
    · cases o <;> simp only [deliveries, forkView, reduceCtorEq] at heq
      all_goals
        obtain rfl := ThreadView.main.inj heq
        intro loaded hloaded
        cases hloaded

/-- A step that commits and delivers nothing, and keeps the store. -/
theorem Ordered.quiet (h : Ordered d tr vs w) {l : Label (system ι)} {vs' : List (ThreadView ι)}
    (hstore : w'.store = w.store) (hdrains : w'.drains = w.drains)
    (hviews : ∀ (u : Nat) v, vs'[u]? = some v → vs[u]? = some v ∨ v = .main {})
    (hrows : stepRows l = []) : Ordered d (tr ++ [l]) vs' w' := by
  have hlater : ∀ row, FromCommit tr row → ∀ r ∈ stepRows l, row.sequence < r.sequence := by
    intro row _ r hr
    rw [hrows] at hr
    cases hr
  have hdrain : ∀ i, w'.drain i = w.drain i := by
    intro i
    unfold World.drain
    rw [hdrains]
  have hcommitted : committedRows (tr ++ [l]) = committedRows tr := by
    rw [committedRows_append, hrows, List.append_nil]
  refine ⟨?_, ⟨?_, ?_⟩, ?_, ?_, ⟨?_, ?_⟩, ?_⟩
  · intro id row hget
    rw [hstore] at hget
    exact (h.committed id row hget).snoc
  · intro u v hv r hr
    rcases hviews u v hv with hold | rfl
    · exact (h.handled.views u v hold r hr).snoc
    · cases hr
  · intro i g hg r hr
    rw [hdrain] at hg
    exact (h.handled.queues i g hg r hr).snoc
  · rw [hcommitted]
    exact h.plain
  · rw [hstore, hcommitted]
    exact h.parked
  · intro u x hx
    rcases hviews u _ hx with hold | heq
    · exact (h.dealt.workers u x hold).snoc fun row hrow => hlater row (h.handled.views u _ hold row hrow)
    · cases heq
  · intro i g hg
    rw [hdrain] at hg
    exact (h.dealt.queues i g hg).snoc fun row hrow => hlater row (h.handled.queues i g hg row hrow)
  · intro u m hm
    rcases hviews u _ hm with hold | heq
    · rw [hstore]
      exact (h.sighted u m hold).snoc (h.handled.views u _ hold) (fun _ => id) hlater
    · obtain rfl := ThreadView.main.inj heq
      intro loaded hloaded
      cases hloaded

/-- Executions discard nothing. -/
theorem nothing_discarded {c : Config (system ι)}
    (h : Run (system ι) (d.entry EngineCall.KeepsOrder) (World.fresh d.key) tr c) :
    discardedIds tr = [] := by
  refine Run.invariant (requestsObeyed d _) (J := fun tr _ => discardedIds tr = []) rfl ?_ ?_ ?_ h
  · intro tr c p _ hJ
    rw [discardedIds_append, hJ]
    rfl
  · intro tr c t o ch a w' _ hJ hallow _
    rw [discardedIds_append, hJ, List.nil_append]
    cases o with
    | store so => cases so <;> first | rfl | exact hallow.elim
    | _ => rfl
  · intro tr c x _ hJ
    rw [discardedIds_append, hJ]
    rfl

/-- A commit numbers its rows past those of all earlier commits. -/
theorem Sequenced.later {rec : KeyRecord ι} {l : Label (system ι)} (h : Sequenced (tr ++ [l]) rec)
    {row r : OutboxRow ι} (hrow : FromCommit tr row) (hr : r ∈ stepRows l) :
    row.sequence < r.sequence := by
  obtain ⟨r', hr', -, hseq, -⟩ := hrow
  have hpair := h.increasing
  rw [committedRows_append] at hpair
  rw [← hseq]
  exact (List.pairwise_append.1 hpair).2.2 r' hr' r hr

theorem ordered (hhold : d.poller.delivery.poisonHoldKey = true) {c : Config (system ι)}
    (h : Run (system ι) (d.entry EngineCall.KeepsOrder) (World.fresh d.key) tr c)
    (hids : DistinctIds tr) : Ordered d tr ((deliveries d).views tr) c.world := by
  have hkeeps : ∀ call, EngineCall.KeepsOrder call → call.KeepsKey := fun _ hcall => hcall.keepsKey
  have hdistinct : Throughout (fun pre l => DistinctIds (pre ++ [l])) tr := by
    rintro pre l post rfl
    rw [List.append_cons] at hids
    unfold DistinctIds at hids ⊢
    rw [committedRows, List.flatMap_append, List.map_append] at hids
    exact hids.of_append_left
  refine Run.roles (rolesObeyed d _) (J := Ordered d) ?_ ?_ ?_ ?_ h hdistinct
  · refine ⟨?_, handled_init _ rfl, ?_, ?_, dealt_init _ rfl, ?_⟩
    · intro id row hget
      cases hget
    · intro r hr
      cases hr
    · intro id q hget
      cases hget
    · intro t m hm
      simp at hm
  · intro tr c q _ _ hJ
    refine hJ.quiet rfl rfl ?_ rfl
    intro u v hv
    exact (step_start_cases hv).imp_right And.right
  · intro tr c t o k ch a w' v hr hJ ht hv hallow hw hdist
    have hnext := sequenced hkeeps (Run.act hr ht hw)
    exact hJ.act (conserved hkeeps hr) hhold hdist (nothing_discarded hr)
      (fun row hrow r hnew => hnext.later hrow hnew) (hr.allow (requestsObeyed d _) ht) hv hallow
      (hr.allow (obeys d _) ht) hw
  · intro tr c x _ hJ
    exact hJ.quiet rfl rfl (fun u v hv => Or.inl hv) rfl

/-- A delivery is the delivery of the first row of a worker. -/
theorem deliver_allowed {v : ThreadView ι} {e : WatukuyEvent ι} (h : v.allow d (.deliver e)) :
    ∃ x row rest, v = .worker x ∧ x.rest = row :: rest ∧
      e = { row.event with attempt := row.attempts + 1 } := by
  cases v with
  | worker x =>
    obtain ⟨-, -, row, rest, hrest, heq⟩ := h
    exact ⟨x, row, rest, rfl, hrest, heq⟩
  | main m => exact h.elim
  | keeper l => exact h.elim

/-- In every run of any number of instances, whatever the concurrency, the failures and the
takeovers, in which parked events hold their keys, the committed events have distinct ids and no one
replays, retries or discards events: an event is delivered successfully only after every earlier event
of its ordering key was. -/
theorem delivered_in_order {c : Config (system ι)}
    (hhold : d.poller.delivery.poisonHoldKey = true)
    (h : Run (system ι) (d.entry EngineCall.KeepsOrder) (World.fresh d.key) tr c)
    (hids : ((committedRows tr).map (·.eventId)).Nodup) :
    ∀ pre l post, tr = pre ++ l :: post → ∀ r₁ ∈ committedRows tr, ∀ r₂ ∈ committedRows tr,
      orderingKey d.poller r₁.event = orderingKey d.poller r₂.event → r₁.sequence < r₂.sequence →
      r₂.eventId ∈ stepDelivered l → r₁.eventId ∈ deliveredIds pre := by
  rintro pre l post rfl r₁ hr₁ r₂ hr₂ hkey hlt hdelivered
  obtain ⟨t, e, ch, rfl, hid⟩ := delivered_by hdelivered
  obtain ⟨c₁, k, w', hpre, ht, hw⟩ := h.act_at
  -- the worker has the row of `r₂` in hand, as the first row of a group without a gap
  obtain ⟨v, hv, hallow⟩ := hpre.mayCall (rolesObeyed d _) ht
  obtain ⟨x, row, rest, rfl, hrest, rfl⟩ := deliver_allowed hallow
  have hsplit : committedRows (pre ++ .act t
      (.deliver { row.event with attempt := row.attempts + 1 }) ch (.ok ()) :: post) =
        committedRows pre ++ committedRows post := by
    simp [committedRows, stepRows]
  have hdistinct : DistinctIds pre := by
    rw [hsplit, List.map_append] at hids
    exact hids.of_append_left
  have hordered := ordered hhold hpre hdistinct
  have hcommitted : FromCommit pre row :=
    hordered.handled.views t _ hv row (by simp [ThreadView.rows, hrest])
  have hstamped := (conserved (fun _ hcall => hcall.keepsKey) hpre).handled.views t _ hv row
    (by simp [ThreadView.rows, hrest])
  obtain ⟨r, hr, hrid, hseq, hevent⟩ := hcommitted
  have hmono : ∀ {r}, r ∈ committedRows pre →
      r ∈ committedRows (pre ++ .act t
        (.deliver { row.event with attempt := row.attempts + 1 }) ch (.ok ()) :: post) := by
    intro r hr
    rw [hsplit]
    exact List.mem_append_left _ hr
  obtain rfl : r = r₂ := by
    refine List.inj_on_of_nodup_map hids (hmono hr) hr₂ ?_
    rw [hrid, ← hstamped.id, hid]
  -- `r₁` was committed before it
  have hearlier : r₁ ∈ committedRows pre := by
    have hpair := (sequenced (fun _ hcall => EngineCall.KeepsOrder.keepsKey hcall) h).increasing
    rw [hsplit] at hr₁ hpair
    rcases List.mem_append.1 hr₁ with hold | hnew
    · exact hold
    · have hle := (List.pairwise_append.1 hpair).2.2 r hr r₁ hnew
      omega
  by_contra hfresh
  have hripe := hordered.dealt.workers t x hv
  have hrowkey := hripe.keyed row (by simp [hrest])
  obtain ⟨row', hrow', hid'⟩ := hripe.closed row (by simp [hrest]) r₁ ⟨hearlier, hfresh⟩
    (by rw [hkey, hevent, hrowkey]) (by omega)
  have hcommitted' := hordered.handled.views t _ hv row' hrow'
  obtain ⟨hseq', -⟩ := hdistinct.eq hearlier hcommitted' hid'.symm
  have hsorted := hripe.sorted
  rw [hrest] at hrow' hsorted
  rcases List.mem_cons.1 hrow' with rfl | hrow'
  · omega
  · have hle := (List.pairwise_cons.1 hsorted).1 row' hrow'
    omega

end Runs

/-! ## A sample run -/

/-- An item is created and changed without a consumer; then both events are delivered. -/
def lateConsumer : List (Scene Sample) :=
  [ .ask (instanceOf (sampleOf samplePoller) false) forced,
    .run 0 200 (calm 5 (onePage [("a", "1")])),
    .ask (instanceOf (sampleOf samplePoller) false) forced,
    .run 2 200 (calm 15 (onePage [("a", "2")])),
    .ask (instanceOf (sampleOf samplePoller) true) forced,
    .run 4 16 (calm 25 .finish),
    .run 6 30 (calm 25 .finish) ]

set_option maxRecDepth 100000 in
theorem delivered_in_order_sample : ∃ tr c,
    Run (system Sample) ((sampleOf samplePoller).entry EngineCall.KeepsOrder)
      (World.fresh (sampleOf samplePoller).key) tr c ∧
    (committedRows tr).map (·.sequence) = [1, 2] ∧
    deliveredIds tr = (committedRows tr).map (·.eventId) ∧
    ∀ pre l post, tr = pre ++ l :: post → ∀ r₁ ∈ committedRows tr, ∀ r₂ ∈ committedRows tr,
      orderingKey samplePoller r₁.event = orderingKey samplePoller r₂.event →
      r₁.sequence < r₂.sequence → r₂.eventId ∈ stepDelivered l → r₁.eventId ∈ deliveredIds pre := by
  have hcast : Cast (sampleOf samplePoller) EngineCall.KeepsOrder lateConsumer :=
    .ask (instanceOf_in _ _) trivial (.run (.ask (instanceOf_in _ _) trivial (.run
      (.ask (instanceOf_in _ _) trivial (.run (.run .nil))))))
  obtain ⟨tr, c, hrun, hcheck⟩ := play_run hcast
    (fun tr _ => decide ((committedRows tr).map (·.sequence) = [1, 2] ∧
      deliveredIds tr = (committedRows tr).map (·.eventId) ∧
      ((committedRows tr).map OutboxRow.eventId).Nodup)) (by decide +kernel)
  obtain ⟨hrows, hdelivered, hids⟩ := of_decide_eq_true hcheck
  exact ⟨tr, c, hrun, hrows, hdelivered, delivered_in_order rfl hrun hids⟩

end Watukuy
