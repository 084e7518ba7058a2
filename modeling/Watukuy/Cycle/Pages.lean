import Watukuy.Cycle.Requests

/-!
# The pages of a cycle keep to the contract

`Mid` is the invariant of the page loop: what the variables of `runCycle` hold between two pages, in
terms of the view. One lemma for each function of the loop carries it on, and `Failing` is what is
left of it when a page fails. `Scanned` is what the loop ends with: a full scan that ended with
`done` did so in one of the ways of `ScanEnd`.
-/

set_option autoImplicit false

namespace Watukuy

open Library Task

variable {ι : Type} {d : Deployment ι} {extra : CycleView ι → StoreOp ι → Prop}

/-! ## Strategies of full scans -/

/-- A strategy of a full scan keeps all items and pages while the page says so. -/
theorem advance_fullScan {c : Cycle ι} (hfull : c.isFullScan = true) {cursor : CursorVal}
    {input : AdvanceInput ι} {adv : AdvanceResult ι}
    (h : c.strategy.advance cursor input = .ok adv) :
    adv.items = input.items ∧ adv.done = (input.hasMore != some true) := by
  unfold Cycle.isFullScan at hfull
  unfold Cycle.strategy Cycle.config at h
  split at h
  · simp only [getStrategy, pageStrategy] at h
    split at h
    · rename_i hmore
      cases h
      simp [hmore]
    · rename_i hmore
      cases h
      simp [hmore]
  · rename_i hlane
    cases hcur : c.deps.poller.cursor with
    | snapshotDiff =>
      rw [hcur] at h
      cases h
      exact ⟨rfl, rfl⟩
    | _ => simp [hlane, Cycle.config, hcur, CursorConfig.isSnapshotDiff] at hfull

/-- The strategy of the reconcile lane. -/
theorem strategy_reconcile {c : Cycle ι} (h : c.lane = .reconcile) :
    c.strategy = pageStrategy { initial := some 1 } := by
  simp [Cycle.strategy, Cycle.config, h, getStrategy]

theorem sweepCursor_append {start : Option CursorVal} {pages : List (Page ι)} {page : Page ι} {n : Nat}
    (hstart : start.getD (.page 1) = .page n) {input : AdvanceInput ι} (hmore : input.hasMore = page.hasMore)
    {adv : AdvanceResult ι}
    (h : (pageStrategy { initial := some 1 }).advance (sweepCursor start pages) input = .ok adv) :
    adv.cursor = sweepCursor start (pages ++ [page]) := by
  simp only [sweepCursor, hstart, pageStrategy, hmore] at h ⊢
  split at h <;> rename_i hm <;> cases h <;> simp [hm, pageNumber, Nat.add_assoc]

/-! ## One page -/

theorem buildRows_keeps {deps : RunnerDeps ι} {lane : Lane} {cursor : CursorVal} {v : CycleView ι}
    {E : JsError → CycleView ι → Prop} (specs : List (EventSpec ι)) {n : Nat}
    {Q : List (OutboxRow ι) → CycleView ι → Prop}
    (hQ : ∀ rows, NumberedRows deps lane cursor n specs rows → Q rows v) :
    (buildRows deps lane cursor n specs).wp (cycleContract d extra) Q E v := by
  induction specs generalizing n Q with
  | nil => exact hQ [] rfl
  | cons spec rest ih =>
    unfold buildRows
    simp only [Task.wp_bind]
    refine now_keeps fun at_ => ih fun rows hrows => ?_
    exact hQ _ ⟨at_, rows, rfl, hrows⟩

theorem NumberedRows.length_eq {deps : RunnerDeps ι} {lane : Lane} {cursor : CursorVal}
    {specs : List (EventSpec ι)} {n : Nat} {rows : List (OutboxRow ι)}
    (h : NumberedRows deps lane cursor n specs rows) : rows.length = specs.length := by
  induction specs generalizing n rows with
  | nil =>
    obtain rfl : rows = [] := h
    rfl
  | cons spec rest ih =>
    obtain ⟨at_, tail, rfl, htail⟩ := h
    simp [ih htail]

/-- What `processPage` computes, in terms of the rows it loaded. -/
structure PageWork (d : Deployment ι) (c : Cycle ι) (items : List ι) (base : Nat)
    (cursor : CursorVal) (commit : PageCommit ι) where
  valid : List ι
  invalid : List (ι × List ValidationIssue)
  validated : validateItems d.poller items = .ok (valid, invalid)
  rows : OrderedMap String (ItemRow ι)
  at_ : Int
  candidates : List (DiffCandidate ι)
  unchanged : List String
  prepared : prepareCandidates d.crypto d.poller valid rows = .ok (candidates, unchanged)
  upserts_eq : commit.upserts =
    (diffCandidates d.poller rows at_ c.isFullScan candidates).upserts
  events_eq : NumberedRows c.deps c.lane cursor base
    (pageSpecs c valid rows
      (diffCandidates d.poller rows at_ c.isFullScan candidates).changes) commit.events
  sequence_eq : commit.sequence = base + commit.events.length
  parked_eq : commit.parked = [] ∨ commit.parked = invalid.map (quarantineRow c.deps at_)
  identities_eq : commit.identities = if c.isFullScan then valid.map d.poller.identity else []

/-- The view after a load of rows. -/
def CycleView.load (v : CycleView ι)
    (x : Option (List IdentityValue × OrderedMap String (ItemRow ι))) : CycleView ι :=
  { v with loaded := x }

theorem processPage_keeps {c : Cycle ι} (hc : c.deps.In d) {items : List ι} {base : Nat}
    {cursor : CursorVal} {v : CycleView ι} {Q : PageCommit ι → CycleView ι → Prop}
    {E : JsError → CycleView ι → Prop}
    (hQ : ∀ commit w, ∀ p : PageWork d c items base cursor commit,
      w = v.load (some (p.valid.map d.poller.identity, p.rows)) → Q commit w)
    (hE : ∀ e x, E e (v.load x)) :
    (processPage c items base cursor).wp (cycleContract d extra) Q E v := by
  unfold processPage
  simp only [Task.wp_bind]
  refine now_keeps fun at_ => ?_
  rw [wp_ofExcept]
  refine ⟨?_, fun e _ => hE e v.loaded⟩
  rintro ⟨valid, invalid⟩ hvalid
  rw [wp_when]
  refine ⟨fun _ => hE _ v.loaded, fun _ => ?_⟩
  rw [wp_store]
  refine ⟨Or.inl trivial, fun rows => ?_, fun e => hE e v.loaded⟩
  rw [wp_ofExcept]
  refine ⟨?_, fun e _ => hE e _⟩
  rintro ⟨candidates, unchanged⟩ hprep
  refine buildRows_keeps _ fun events hevents => ?_
  rw [wp_pure]
  rw [hc.poller] at hvalid hprep hevents
  rw [hc.crypto] at hprep
  have hlen := hevents.length_eq
  refine hQ _ _
    { valid, invalid, rows, at_, candidates, unchanged
      validated := hvalid
      prepared := hprep
      upserts_eq := ?_
      events_eq := hevents
      sequence_eq := ?_
      parked_eq := ?_
      identities_eq := ?_ } ?_
  · rw [hc.poller]
  · rw [hlen, hc.poller]
  · dsimp only
    split
    · exact Or.inr rfl
    · exact Or.inl rfl
  · rw [hc.poller]
  · change v.load (some (valid.map c.deps.poller.identity, rows)) =
      v.load (some (valid.map d.poller.identity, rows))
    rw [hc.poller]

/-! ## Between two pages -/

/-- How the variables of a cycle and its view agree, but for what a commit writes. -/
structure Steady (d : Deployment ι) (c : Cycle ι) (s : CycleLocals) (v : CycleView ι) : Prop where
  inCycle : InCycle d v c
  target : c.target.isSome → c.start.target.isSome
  sweep : c.lane = .reconcile → ∃ n, c.start.cursor.getD (.page 1) = .page n
  lanes : s.state.lanes = v.lanes
  pages : s.summary.pages = v.pages.length
  seen : c.isFullScan = true → s.seen = seenIn d.poller v.pages
  cursor : c.lane = .reconcile → s.cursor = sweepCursor c.start.cursor v.pages
  notModified : s.sawNotModified = v.notModified
  halted : s.halted = v.halted
  validator : v.validator = none
  response : v.response = none
  streamed : v.streamed = none
  deleted : v.deleted = []

/-- Between two pages of a cycle. -/
structure Mid (d : Deployment ι) (c : Cycle ι) (s : CycleLocals) (v : CycleView ι) : Prop
    extends Steady d c s v where
  sequence : v.sequence ≤ s.sequence
  committed : v.committed = v.pages.length

/-- What is left of the agreement when a cycle fails. -/
structure Failing (d : Deployment ι) (c : Cycle ι) (s : CycleLocals) (v : CycleView ι) : Prop where
  inCycle : InCycle d v c
  sequence : v.sequence ≤ s.sequence
  lanes : s.state.lanes = v.lanes

theorem Mid.failing {c : Cycle ι} {s : CycleLocals} {v : CycleView ι} (h : Mid d c s v) :
    Failing d c s v := ⟨h.inCycle, h.sequence, h.lanes⟩

/-- The listing ended with the last page, as far as the lane can tell. -/
def Ended (v : CycleView ι) : Prop :=
  LastPage v ∨ (v.lane = .backfill ∧ v.start.target.isSome)

/-- A page whose rows are computed and not yet committed. -/
structure Computed (d : Deployment ι) (c : Cycle ι) (s : CycleLocals) (v : CycleView ι)
    (commit : PageCommit ι) (cursor : CursorVal) where
  steady : Steady d c s v
  before : List (Page ι)
  page : Page ι
  pages_eq : v.pages = before ++ [page]
  committed_eq : v.committed = before.length
  items : List ι
  full_items : c.isFullScan = true → items = page.items
  base : Nat
  base_ge : v.sequence ≤ base
  work : PageWork d c items base cursor commit
  loaded_eq : v.loaded = some (work.valid.map d.poller.identity, work.rows)
  sequence_eq : s.sequence = commit.sequence
  cursor_eq : c.lane = .reconcile → cursor = sweepCursor c.start.cursor v.pages

section Page

variable {c : Cycle ι} {s : CycleLocals} {v : CycleView ι} {page : Page ι} {rest : UserCode ι}
  {commit : PageCommit ι} {cursor : CursorVal}

theorem fullScan_iff (hc : InCycle d v c) : c.isFullScan = true ↔ d.fullScan v.lane = true := by
  unfold Cycle.isFullScan Deployment.fullScan Cycle.config
  rw [← hc.lane, hc.deps.poller]
  split
  · rename_i h
    simp [h]
  · rfl

/-- The commit of a computed page is a page step. -/
def Computed.step (h : Computed d c s v commit cursor) (updatedAt : Int) :
    PageStep d v (pageBatch c s commit cursor updatedAt) where
  cycle := c
  inCycle := h.steady.inCycle
  before := h.before
  page := h.page
  pages_eq := h.pages_eq
  committed_eq := h.committed_eq
  streamed_eq := h.steady.streamed
  items := h.items
  valid := h.work.valid
  invalid := h.work.invalid
  full_items := h.full_items
  validated := h.work.validated
  rows := h.work.rows
  loaded_eq := h.loaded_eq
  at_ := h.work.at_
  candidates := h.work.candidates
  unchanged := h.work.unchanged
  prepared := h.work.prepared
  base := h.base
  base_ge := h.base_ge
  cursor := cursor
  cursor_eq hlane := by
    rw [← h.steady.inCycle.start]
    exact h.cursor_eq (h.steady.inCycle.lane.trans hlane)
  upserts_eq := h.work.upserts_eq
  deletes_eq := rfl
  events_eq := h.work.events_eq
  sequence_eq := congrArg some (h.sequence_eq.trans h.work.sequence_eq)
  lanes_eq := by rw [← h.steady.inCycle.lane, ← h.steady.lanes]; rfl
  parked_eq := h.work.parked_eq

theorem Computed.failing (h : Computed d c s v commit cursor) : Failing d c s v := by
  refine ⟨h.steady.inCycle, ?_, h.steady.lanes⟩
  have hseq := h.work.sequence_eq
  have hbase := h.base_ge
  rw [h.sequence_eq]
  omega

theorem savePage_keeps (h : Computed d c s v commit cursor)
    {Q : Unit → CycleLocals → CycleView ι → Prop} {F : JsError → CycleLocals → CycleView ι → Prop}
    (hQ : ∀ at_ b w, w = v.commitOk b → Mid d c (s.afterCommit c cursor at_) w →
      Q () (s.afterCommit c cursor at_) w)
    (hF : ∀ e w, Failing d c s w → F e s w) :
    Block.wp (cycleContract d extra) (savePage c commit cursor) Q F s v := by
  have hs := h.steady
  unfold savePage
  rw [Block.wp_bind, Block.wp_locals, Block.wp_bind, Block.wp_await]
  refine now_keeps fun updatedAt => ?_
  rw [Block.wp_bind, Block.wp_await, wp_store]
  refine ⟨Or.inl ⟨hs.inCycle.lease, hs.inCycle.ready, Or.inl ⟨h.step updatedAt⟩⟩, ?_, ?_⟩
  · intro _
    rw [Block.wp_bind, Block.wp_await]
    refine now_keeps fun at_ => ?_
    refine hQ at_ _ _ rfl
      { hs with
        inCycle := { hs.inCycle with }
        lanes := rfl
        deleted := ?_
        sequence := Nat.le_refl _
        committed := rfl }
    exact (List.append_nil v.deleted).trans hs.deleted
  · intro e
    exact hF e _ ⟨{ hs.inCycle with }, Nat.le_refl _, hs.lanes⟩

theorem seenIn_append (poller : ResolvedPoller ι) (pages : List (Page ι)) (page : Page ι) :
    seenIn poller (pages ++ [page]) =
      seenIn poller pages ++ (validOf poller page.items).map poller.identity := by
  simp [seenIn]

/-- The view after a page was taken. -/
def CycleView.take (v : CycleView ι) (page : Page ι) (rest : UserCode ι) : CycleView ι :=
  { v with
    code := rest, pages := v.pages ++ [page], inCall := v.inCall + 1, aborted := false }

theorem InCycle.take (h : InCycle d v c) (page : Page ι) (rest : UserCode ι) :
    InCycle d (v.take page rest) c := { h with }

theorem Mid.failing_take (h : Mid d c s v)
    {x : Option (List IdentityValue × OrderedMap String (ItemRow ι))} :
    Failing d c s.countPage ((v.take page rest).load x) :=
  ⟨{ h.inCycle with }, h.sequence, h.lanes⟩

/-- The cursor of a sweep after one more page, in memory and as persisted. -/
theorem Mid.sweep_next (hm : Mid d c s v) {at_ : Int} {adv : AdvanceResult ι}
    (hadv : c.strategy.advance s.cursor
      { items := page.items, pageCursor := page.cursor, hasMore := page.hasMore, now := at_ } =
        .ok adv)
    (hcursor : c.strategy.serialize adv.cursor = .ok cursor) (hlane : c.lane = .reconcile) :
    adv.cursor = sweepCursor c.start.cursor (v.pages ++ [page]) ∧
      cursor = sweepCursor c.start.cursor (v.pages ++ [page]) := by
  obtain ⟨n, hstart⟩ := hm.sweep hlane
  rw [strategy_reconcile hlane] at hadv hcursor
  rw [hm.cursor hlane] at hadv
  have hnext : adv.cursor = sweepCursor c.start.cursor (v.pages ++ [page]) :=
    sweepCursor_append hstart rfl hadv
  refine ⟨hnext, ?_⟩
  simp only [hnext, sweepCursor, hstart, pageStrategy, pageNumber, Except.ok.injEq] at hcursor ⊢
  exact hcursor.symm

/-- What a page adds to `seen`. -/
theorem Mid.seen_next (hm : Mid d c s v) {items : List ι} {base : Nat}
    (work : PageWork d c items base cursor commit) (hfull : c.isFullScan = true)
    (hitems : items = page.items) :
    s.seen ++ commit.identities = seenIn d.poller (v.pages ++ [page]) := by
  have hvalid : validOf d.poller page.items = work.valid := by
    rw [← hitems, validOf, work.validated]
  rw [seenIn_append, hm.seen hfull, hvalid, work.identities_eq, if_pos hfull]

/-- The computed page in the variables of the cycle. -/
def Mid.computed (hm : Mid d c s v) {at_ : Int} {adv : AdvanceResult ι}
    (hadv : c.strategy.advance s.cursor
      { items := page.items, pageCursor := page.cursor, hasMore := page.hasMore, now := at_ } =
        .ok adv)
    (hcursor : c.strategy.serialize adv.cursor = .ok cursor)
    (work : PageWork d c adv.items s.sequence cursor commit) (done : Bool) :
    Computed d c
      { s.countPage.afterPage adv commit with done }
      ((v.take page rest).load (some (work.valid.map d.poller.identity, work.rows)))
      commit cursor where
  steady :=
    { hm.toSteady with
      inCycle := { hm.inCycle with }
      pages := by
        have hlen : (v.pages ++ [page]).length = v.pages.length + 1 := by simp
        exact (congrArg (· + 1) hm.pages).trans hlen.symm
      seen := fun hfull => hm.seen_next work hfull (advance_fullScan hfull hadv).1
      cursor := fun hlane => (hm.sweep_next hadv hcursor hlane).1 }
  before := v.pages
  page := page
  pages_eq := rfl
  committed_eq := hm.committed
  items := adv.items
  full_items hfull := (advance_fullScan hfull hadv).1
  base := s.sequence
  base_ge := hm.sequence
  work := work
  loaded_eq := rfl
  sequence_eq := rfl
  cursor_eq hlane := (hm.sweep_next hadv hcursor hlane).2

/-- After a page, up to the guards of the loop. -/
structure Paged (d : Deployment ι) (c : Cycle ι) (rest : UserCode ι) (n : Nat) (s : CycleLocals)
    (v : CycleView ι) : Prop where
  mid : Mid d c s v
  code : v.code = rest
  inCall : v.inCall = n
  fetched : v.fetches ≠ []
  halted : s.halted = false
  truncated : s.summary.truncated = false
  ended : c.isFullScan = true → s.done = true → Ended v
  more : c.isFullScan = true → s.done = false → GoesOn v

theorem targetReached_target (hc : InCycle d v c) (htarget : c.target.isSome → c.start.target.isSome)
    {cursor : CursorVal} (h : targetReached c cursor = .ok true) :
    v.lane = .backfill ∧ v.start.target.isSome := by
  unfold targetReached at h
  cases ht : c.target with
  | none => simp [ht] at h
  | some target =>
    rw [ht] at h
    dsimp only at h
    split at h
    · rename_i hlane
      rw [← hc.lane, ← hc.start]
      exact ⟨hlane, htarget (by rw [ht]; rfl)⟩
    · cases h

theorem commitPage_keeps (hm : Mid d c s v) (hfetched : v.fetches ≠ []) (hhalted : s.halted = false)
    (htrunc : s.summary.truncated = false)
    {Q : Bool → CycleLocals → CycleView ι → Prop} {F : JsError → CycleLocals → CycleView ι → Prop}
    (hQ : ∀ b s' w, Paged d c rest (v.inCall + 1) s' w → Q b s' w)
    (hF : ∀ e s' w, Failing d c s' w → F e s' w) :
    Block.wp (cycleContract d extra) (commitPage c page) Q F s (v.take page rest) := by
  unfold commitPage
  rw [Block.wp_bind, Block.wp_assign, Block.wp_bind, Block.wp_await]
  refine now_keeps fun t => ?_
  rw [Block.wp_bind, Block.wp_locals, Block.wp_bind, Block.wp_await, wp_ofExcept]
  refine ⟨fun adv hadv => ?_, fun e _ => hF _ _ _ hm.failing_take⟩
  rw [Block.wp_bind, Block.wp_await, wp_ofExcept]
  refine ⟨fun cursor hcursor => ?_, fun e _ => hF _ _ _ hm.failing_take⟩
  rw [Block.wp_bind, Block.wp_await]
  refine processPage_keeps hm.inCycle.deps (fun commit w work hw => ?_)
    fun e x => hF _ _ _ hm.failing_take
  rw [hw, Block.wp_bind, Block.wp_assign, Block.wp_bind, Block.wp_await, wp_ofExcept]
  have hcomputed : ∀ done, Computed d c { s.countPage.afterPage adv commit with done }
      ((v.take page rest).load (some (work.valid.map d.poller.identity, work.rows))) commit cursor :=
    fun done => hm.computed hadv hcursor work done
  refine ⟨fun reached hreached => ?_, fun e _ => hF _ _ _ (hcomputed adv.done).failing⟩
  -- whatever `done` is by now, the page is saved
  have hsave : ∀ done, (c.isFullScan = true → done = true → Ended (v.take page rest)) →
      (c.isFullScan = true → done = false → GoesOn (v.take page rest)) →
      Block.wp (cycleContract d extra) (savePage c commit cursor)
        (fun _ s' w => Q (!commit.events.isEmpty) s' w) F
        { s.countPage.afterPage adv commit with done }
        ((v.take page rest).load (some (work.valid.map d.poller.identity, work.rows))) := by
    intro done hended hmore
    refine savePage_keeps (hcomputed done) (fun at_ b w hw hmid => ?_) fun e w => hF e _ w
    refine hQ _ _ _ ⟨hmid, ?_, ?_, ?_, hhalted, htrunc, fun hfull hdone => ?_, fun hfull hdone => ?_⟩
    · rw [hw]; rfl
    · rw [hw]; rfl
    · rw [hw]
      exact hfetched
    · rw [hw]
      exact hended hfull hdone
    · rw [hw]
      exact hmore hfull hdone
  rw [Block.wp_bind, Block.wp_when]
  refine ⟨fun hr => ?_, fun _ => ?_⟩
  · rw [Block.wp_assign, Block.wp_bind]
    refine hsave true (fun _ _ => Or.inr ?_) fun _ hdone => nomatch hdone
    exact targetReached_target (hm.inCycle.take page rest) hm.target (hr ▸ hreached)
  · rw [Block.wp_bind]
    have hlast : (v.take page rest).pages.getLast? = some page := by simp [CycleView.take]
    refine hsave adv.done (fun hfull hdone => ?_) fun hfull hdone => ?_
    · rw [(advance_fullScan hfull hadv).2] at hdone
      exact Or.inl ⟨by simp [CycleView.take], page, hlast, by simpa using hdone⟩
    · rw [(advance_fullScan hfull hadv).2] at hdone
      exact Or.inr ⟨page, hlast, by simpa using hdone⟩

/-! ## The guards after a page -/

theorem drainOutbox_keeps {deps : RunnerDeps ι} {lease : Lease} {run : Nat}
    (hstreamed : v.streamed = none) (hhalted : v.halted = false)
    {Q : DrainResult → CycleView ι → Prop} {E : JsError → CycleView ι → Prop}
    (hQ : ∀ r g a, Q r (v.settle g a r.halted)) (hE : ∀ e g a h, E e (v.settle g a h)) :
    (drainOutbox deps lease run).wp (cycleContract d extra) Q E v := by
  unfold drainOutbox
  rw [wp_ite]
  refine ⟨fun _ => ?_, fun _ => ?_⟩
  · rw [Task.wp_bind, wp_call]
    refine ⟨trivial, fun drain => ?_⟩
    rw [Task.wp_bind]
    refine settled_keeps (drainLoop_uses deps lease run drain _ _) ?_ ?_
    · rintro _ _ ⟨g, a, h, rfl, -⟩
      rw [Task.wp_bind, wp_store]
      refine ⟨Or.inl trivial, fun remaining => ?_, fun e => hE e g a h⟩
      rw [Task.wp_bind, wp_call]
      refine ⟨trivial, fun mem => ?_⟩
      have hmem := hQ { mem.result with remaining } g a
      simp only [CycleView.learn, CycleView.settle, hstreamed, Option.isSome_none] at hmem ⊢
      exact hmem
    · rintro e _ ⟨g, a, h, rfl, -⟩
      exact hE e g a h
  · rw [Task.wp_bind, wp_store]
    refine ⟨Or.inl trivial, fun remaining => ?_, fun e => hE e v.guarded v.aborted v.halted⟩
    have hv : v.settle v.guarded v.aborted false = v := by
      rw [← hhalted]
      rfl
    have hnone : Q { remaining } (v.settle v.guarded v.aborted false) :=
      hQ { remaining } v.guarded v.aborted
    rw [hv] at hnone
    exact hnone

/-- Opening the circuit after a poison halt changes the schedule only. -/
theorem openCircuitForHalt_keeps {deps : RunnerDeps ι} {lease : Lease} {state : PollerState}
    (hlease : v.lease = some lease) (hready : v.ready = true)
    {Q : PollerState → CycleView ι → Prop} {E : JsError → CycleView ι → Prop}
    (hQ : ∀ schedule at_, Q { state with schedule, updatedAt := at_ } v) (hE : ∀ e, E e v) :
    (openCircuitForHalt deps lease state).wp (cycleContract d extra) Q E v := by
  unfold openCircuitForHalt
  rw [Task.wp_bind]
  refine now_keeps fun at_ => ?_
  rw [Task.wp_bind, wp_store]
  refine ⟨Or.inl ⟨hlease, hready, ?_, ?_⟩, fun _ => hQ _ at_, hE⟩
  · intro n hn
    cases hn
  · intro lanes hlanes
    cases hlanes

/-- The view after a question to the keeper. -/
def CycleView.guard (v : CycleView ι) : CycleView ι := { v with guarded := true }

theorem renewNow_keeps {deps : RunnerDeps ι} {run : Nat} {lease : Lease}
    {Q : Bool → CycleView ι → Prop} {E : JsError → CycleView ι → Prop} (hQ : ∀ b, Q b v.guard)
    (hE : ∀ e, E e v.guard) : (renewNow deps run lease).wp (cycleContract d extra) Q E v := by
  unfold renewNow
  rw [Task.wp_bind, wp_call]
  refine ⟨trivial, fun isStopped => ?_⟩
  rw [wp_ite]
  refine ⟨fun _ => ?_, fun _ => ?_⟩
  · rw [Task.wp_bind, wp_call]
    exact ⟨trivial, fun lost => hQ _⟩
  · rw [Task.wp_bind]
    refine now_keeps fun at_ => ?_
    rw [Task.wp_bind, wp_store]
    refine ⟨Or.inl trivial, fun ok => ?_, hE⟩
    rw [Task.wp_bind, wp_when, wp_call]
    exact ⟨fun _ => ⟨trivial, fun _ => hQ ok⟩, fun _ => hQ ok⟩

theorem aborted_keeps {run : Nat} {Q : Bool → CycleView ι → Prop} {E : JsError → CycleView ι → Prop}
    (hQ : ∀ a, Q a (v.read a)) :
    (aborted run).wp (cycleContract d extra) Q E v := by
  unfold aborted
  rw [Task.wp_bind, wp_call]
  exact ⟨trivial, fun reason => hQ reason.isSome⟩

theorem pastDeadline_keeps {Q : Bool → CycleView ι → Prop} {E : JsError → CycleView ι → Prop}
    (hQ : ∀ b, Q b v) : (pastDeadline c).wp (cycleContract d extra) Q E v := by
  unfold pastDeadline
  split
  · exact hQ false
  · rw [Task.wp_bind]
    exact now_keeps fun _ => hQ _

/-- The agreement does not depend on the readings of the signal. -/
theorem Mid.read (h : Mid d c s v) (a : Bool) : Mid d c s (v.read a) :=
  { h with inCycle := { h.inCycle with } }

theorem Mid.guard (h : Mid d c s v) : Mid d c s v.guard :=
  { h with inCycle := { h.inCycle with } }

theorem Mid.truncate (h : Mid d c s v) : Mid d c (truncate_ s) v := { h with }

/-- Why the loop over the pages goes on, or is left. -/
def Leaving (s : CycleLocals) (v : CycleView ι) : PageEnd → Prop
  | .next => s.halted = false ∧ s.summary.truncated = false ∧ s.done = false
  | .leave => s.halted = false ∧ s.summary.truncated = false ∧ (s.done = true ∨ v.aborted = true)
  | .leaveOuter => s.summary.truncated = false → s.done = true

/-- After the guards of a page. -/
structure Left (d : Deployment ι) (c : Cycle ι) (rest : UserCode ι) (n : Nat) (e : PageEnd)
    (s : CycleLocals) (v : CycleView ι) : Prop where
  mid : Mid d c s v
  code : v.code = rest
  inCall : v.inCall = n
  fetched : v.fetches ≠ []
  ended : c.isFullScan = true → s.done = true → s.halted = false → Ended v
  more : c.isFullScan = true → s.done = false → GoesOn v
  leaving : Leaving s v e

theorem afterPage_keeps {n : Nat} (h : Paged d c rest n s v)
    {Q : PageEnd → CycleLocals → CycleView ι → Prop}
    {F : JsError → CycleLocals → CycleView ι → Prop}
    (hQ : ∀ e s' w, Left d c rest n e s' w → Q e s' w)
    (hF : ∀ e s' w, Failing d c s' w → F e s' w) :
    Block.wp (cycleContract d extra) (afterPage c) Q F s v := by
  have hended : c.isFullScan = true → s.done = true → s.halted = false → Ended v :=
    fun hfull hdone _ => h.ended hfull hdone
  unfold afterPage
  rw [Block.wp_bind, Block.wp_await]
  refine renewNow_keeps (fun held => ?_) fun e => hF e s _ h.mid.guard.failing
  rw [Block.wp_ite]
  refine ⟨fun _ => ?_, fun _ => hF _ s _ h.mid.guard.failing⟩
  rw [Block.wp_bind, Block.wp_locals, Block.wp_ite]
  refine ⟨fun hdone => ?_, fun hdone => ?_⟩
  · exact hQ .leave s _
      ⟨h.mid.guard, h.code, h.inCall, h.fetched, hended, h.more, h.halted, h.truncated, Or.inl hdone⟩
  rw [Bool.not_eq_true] at hdone
  rw [Block.wp_bind, Block.wp_await]
  refine aborted_keeps fun a => ?_
  rw [Block.wp_ite]
  refine ⟨fun ha => ?_, fun _ => ?_⟩
  · refine hQ .leave s _
      ⟨h.mid.guard.read a, h.code, h.inCall, h.fetched, hended, h.more, h.halted, h.truncated,
        Or.inr ?_⟩
    simp [CycleView.read, CycleView.guard, ha]
  have hcut : Q .leaveOuter (truncate_ s) (v.guard.read a) := by
    refine hQ _ _ _ ⟨(h.mid.guard.read a).truncate, h.code, h.inCall, h.fetched, hended, h.more, ?_⟩
    rintro ⟨⟩
  rw [Block.wp_bind, Block.wp_await]
  refine pastDeadline_keeps fun past => ?_
  rw [Block.wp_ite]
  refine ⟨fun _ => hcut, fun _ => ?_⟩
  rw [Block.wp_ite]
  refine ⟨fun _ => hcut, fun _ => ?_⟩
  exact hQ .next s _
    ⟨h.mid.guard.read a, h.code, h.inCall, h.fetched, hended, h.more, h.halted, h.truncated, hdone⟩

theorem drainPage_keeps {n : Nat} (h : Paged d c rest n s v)
    {Q : Bool → CycleLocals → CycleView ι → Prop}
    {F : JsError → CycleLocals → CycleView ι → Prop}
    (hnext : ∀ s' w, Paged d c rest n s' w → Q false s' w)
    (hhalt : ∀ s' w, Left d c rest n .leaveOuter s' w → Q true s' w)
    (hF : ∀ e s' w, Failing d c s' w → F e s' w) :
    Block.wp (cycleContract d extra) (drainPage c) Q F s v := by
  have hm := h.mid
  unfold drainPage
  rw [Block.wp_bind, Block.wp_await]
  refine drainOutbox_keeps hm.streamed (hm.halted.symm.trans h.halted) (fun r g a => ?_)
    fun e g a x => hF e s _ ⟨{ hm.inCycle with }, hm.sequence, hm.lanes⟩
  rw [Block.wp_bind, Block.wp_assign, Block.wp_ite]
  refine ⟨fun hr => ?_, fun hr => ?_⟩
  · rw [Block.wp_bind, Block.wp_locals, Block.wp_bind, Block.wp_await]
    refine openCircuitForHalt_keeps ?_ ?_ (fun schedule at_ => ?_)
      fun e => hF e _ _ ⟨{ hm.inCycle with }, hm.sequence, hm.lanes⟩
    · exact hm.inCycle.lease
    · exact hm.inCycle.ready
    rw [Block.wp_bind, Block.wp_assign, Block.wp_pure]
    refine hhalt _ _ ⟨{ hm with inCycle := { hm.inCycle with }, halted := hr.symm }, h.code,
      h.inCall, h.fetched, (fun _ _ hhalted => nomatch hhalted), (fun _ hdone => nomatch hdone),
      fun _ => rfl⟩
  · rw [Bool.not_eq_true] at hr
    refine hnext _ _ ⟨{ hm with inCycle := { hm.inCycle with }, halted := h.halted.trans hr.symm },
      h.code, h.inCall, h.fetched, h.halted, h.truncated, h.ended, h.more⟩

theorem onPage_keeps (hm : Mid d c s v) (hfetched : v.fetches ≠ []) (hhalted : s.halted = false)
    (htrunc : s.summary.truncated = false)
    {Q : PageEnd → CycleLocals → CycleView ι → Prop}
    {F : JsError → CycleLocals → CycleView ι → Prop}
    (hQ : ∀ e s' w, Left d c rest (v.inCall + 1) e s' w → Q e s' w)
    (hF : ∀ e s' w, Failing d c s' w → F e s' w) :
    Block.wp (cycleContract d extra) (onPage c page) Q F s (v.take page rest) := by
  unfold onPage
  rw [Block.wp_bind]
  refine commitPage_keeps hm hfetched hhalted htrunc (fun b s' w h => ?_) hF
  rw [Block.wp_ite]
  refine ⟨fun _ => ?_, fun _ => afterPage_keeps h hQ hF⟩
  rw [Block.wp_bind]
  refine drainPage_keeps h (fun s' w h => ?_) (fun s' w h => hQ _ _ _ h) hF
  exact afterPage_keeps h hQ hF

/-! ## The loop over the pages -/

/-- After a fetch call: an exhausted or aborted iterable, or a listing that ended. -/
structure Fetched (d : Deployment ι) (c : Cycle ι) (e : FetchEnd) (s : CycleLocals)
    (v : CycleView ι) : Prop where
  mid : Mid d c s v
  fetched : v.fetches ≠ []
  ended : c.isFullScan = true → s.done = true → s.halted = false → Ended v
  more : c.isFullScan = true → s.done = false → v.inCall ≠ 0 → GoesOn v
  leaving :
    match e with
    | .pages n => s.halted = false ∧ s.summary.truncated = false ∧ n = v.inCall ∧
        (s.done = true ∨ v.code = .finish ∨ (1 ≤ v.inCall ∧ v.aborted = true))
    | .outer => s.summary.truncated = false → s.done = true

/-- The agreement does not depend on what the fetch function goes on with. -/
theorem Mid.exchange (hm : Mid d c s v) {res : Except JsError HttpResponse} {s' : CycleLocals}
    {w : CycleView ι} (h : Exchange s v res s' w) (u : UserCode ι) :
    Mid d c s' { w with code := u, validator := none, response := none, aborted := false } := by
  obtain ⟨⟨hs, hn⟩, ⟨x, raw, n, g, a, rfl⟩, -⟩ := h
  rw [hs]
  exact { hm with
    inCycle := { hm.inCycle with }
    notModified := hn
    validator := rfl
    response := rfl }

theorem forAwait_keeps (u : UserCode ι) (n : Nat) {s : CycleLocals} {v : CycleView ι}
    (hm : Mid d c s v) (hfetched : v.fetches ≠ []) (hcode : v.code = u) (hcount : v.inCall = n)
    (hmore : c.isFullScan = true → n ≠ 0 → GoesOn v) (hdone : s.done = false)
    (hhalted : s.halted = false) (htrunc : s.summary.truncated = false)
    {Q : FetchEnd → CycleLocals → CycleView ι → Prop}
    {F : JsError → CycleLocals → CycleView ι → Prop}
    (hQ : ∀ e s' w, Fetched d c e s' w → Q e s' w)
    (hF : ∀ e s' w, Failing d c s' w → F e s' w) :
    Block.wp (cycleContract d extra) (forAwait c u n) Q F s v := by
  induction u generalizing n s v with
  | finish =>
    refine hQ _ _ _
      ⟨hm, hfetched, fun _ hd => ?_, fun hfull _ hn => hmore hfull (hcount ▸ hn), hhalted, htrunc,
        hcount.symm, Or.inr (Or.inl hcode)⟩
    rw [hdone] at hd
    cases hd
  | raise e => exact hF e s v hm.failing
  | page page rest ih =>
    unfold forAwait
    rw [Block.wp_bind, Block.wp_await, wp_call]
    refine ⟨⟨hcode, hm.committed⟩, fun _ => ?_⟩
    rw [Block.wp_bind]
    refine onPage_keeps hm hfetched hhalted htrunc (fun e s' w h => ?_) hF
    have hw : w.inCall = n + 1 := by rw [h.inCall, hcount]
    cases e with
    | next =>
      obtain ⟨hh, ht, hd⟩ := h.leaving
      exact ih (n + 1) h.mid h.fetched h.code hw (fun hfull _ => h.more hfull hd) hd hh ht
    | leave =>
      obtain ⟨hh, ht, hl⟩ := h.leaving
      refine hQ _ _ _
        ⟨h.mid, h.fetched, h.ended, fun hfull hd _ => h.more hfull hd, hh, ht, hw.symm, ?_⟩
      rcases hl with hl | hl
      · exact Or.inl hl
      · exact Or.inr (Or.inr ⟨by omega, hl⟩)
    | leaveOuter =>
      exact hQ _ _ _ ⟨h.mid, h.fetched, h.ended, fun hfull hd _ => h.more hfull hd, h.leaving⟩
  | request r k ih =>
    -- the fetch function goes on with whatever the request resolved to
    have hresume : ∀ res s' w, Exchange s v res s' w →
        Block.wp (cycleContract d extra) (do
          Block.await (call (.resume res))
          forAwait c (k res) n) Q F s' w := by
      intro res s' w h
      have hmid := hm.exchange h (k res)
      obtain ⟨⟨hs, -⟩, ⟨x, raw, nm, g, a, rfl⟩, hsettles⟩ := h
      rw [Block.wp_bind, Block.wp_await, wp_call]
      refine ⟨⟨⟨r, k, hcode⟩, hsettles⟩, fun _ => ?_⟩
      simp only [CycleView.learn, hcode]
      rw [hs] at hmid ⊢
      exact ih res n hmid hfetched rfl hcount hmore hdone hhalted htrunc
    unfold forAwait
    rw [Block.wp_bind, Block.wp_attempt]
    exact Block.wp_mono (fun res => hresume (.ok res)) (fun e => hresume (.error e))
      (request_keeps hm.inCycle hcode hm.notModified hm.validator hm.response)

theorem fetchCursor_keeps (hm : Mid d c s v) {Q : CursorVal → CycleView ι → Prop}
    {E : JsError → CycleView ι → Prop}
    (hQ : ∀ cursor, (c.lane = .reconcile → cursor = sweepCursor c.start.cursor v.pages) →
      Q cursor v) (hE : ∀ e, E e v) :
    (fetchCursor c s).wp (cycleContract d extra) Q E v := by
  unfold fetchCursor
  rw [wp_ite]
  refine ⟨fun _ => ?_, fun _ => hQ _ hm.cursor⟩
  rw [Task.wp_bind]
  refine now_keeps fun t => ?_
  rw [wp_ofExcept]
  refine ⟨fun cursor h => hQ _ fun hlane => ?_, fun e _ => hE e⟩
  rw [strategy_reconcile hlane] at h
  have heq : s.cursor = cursor := Except.ok.inj h
  rw [← heq]
  exact hm.cursor hlane

theorem fetchPages_keeps (hm : Mid d c s v) (hmore : c.isFullScan = true → GoesOn v)
    (hdone : s.done = false) (hhalted : s.halted = false) (htrunc : s.summary.truncated = false)
    {Q : FetchEnd → CycleLocals → CycleView ι → Prop}
    {F : JsError → CycleLocals → CycleView ι → Prop}
    (hQ : ∀ e s' w, Fetched d c e s' w → Q e s' w)
    (hF : ∀ e s' w, Failing d c s' w → F e s' w) :
    Block.wp (cycleContract d extra) (fetchPages c) Q F s v := by
  unfold fetchPages
  rw [Block.wp_bind, Block.wp_locals, Block.wp_bind, Block.wp_await]
  refine fetchCursor_keeps hm (fun cursor hcursor => ?_) fun e => hF e s v hm.failing
  rw [Block.wp_bind, Block.wp_await, wp_call]
  refine ⟨⟨hm.inCycle.lane, congrArg (· + 1) hm.pages, hm.committed, ?_, ?_⟩, fun u => ?_⟩
  · intro hlane
    rw [← hm.inCycle.start]
    exact hcursor hlane
  · intro hfull
    rw [hm.inCycle.lane] at hfull
    exact hmore ((fullScan_iff hm.inCycle).2 hfull)
  · refine forAwait_keeps u 0 ?_ ?_ rfl rfl (fun _ hn => absurd rfl hn) hdone hhalted htrunc hQ hF
    · exact { hm with inCycle := { hm.inCycle with } }
    · simp [CycleView.learn]

/-- After the page loop. -/
structure Scanned (d : Deployment ι) (c : Cycle ι) (s : CycleLocals) (v : CycleView ι) : Prop where
  mid : Mid d c s v
  ended : c.isFullScan = true → s.done = true → s.halted = false → ScanEnd v
  done : s.summary.truncated = false → s.done = true

theorem Ended.scanEnd (h : Ended v) : ScanEnd v := by
  rcases h with h | h
  · exact Or.inl h
  · exact Or.inr (Or.inr (Or.inr h))

theorem scan_keeps (fuel : Nat) {s : CycleLocals} {v : CycleView ι} (hm : Mid d c s v)
    (hended : c.isFullScan = true → s.done = true → ScanEnd v)
    (hmore : c.isFullScan = true → s.done = false → GoesOn v) (hhalted : s.halted = false)
    (htrunc : s.summary.truncated = false)
    {Q : Unit → CycleLocals → CycleView ι → Prop}
    {F : JsError → CycleLocals → CycleView ι → Prop}
    (hQ : ∀ s' w, Scanned d c s' w → Q () s' w)
    (hF : ∀ e s' w, Failing d c s' w → F e s' w) :
    Block.wp (cycleContract d extra) (scan c fuel) Q F s v := by
  induction fuel generalizing s v with
  | zero =>
    unfold scan
    rw [Block.wp_await, wp_diverge]
    trivial
  | succ n ih =>
    unfold scan
    rw [Block.wp_bind, Block.wp_locals, Block.wp_ite]
    refine ⟨fun hdone => ?_, fun hdone => ?_⟩
    · exact hQ _ _ ⟨hm, fun hfull _ _ => hended hfull hdone, fun _ => hdone⟩
    rw [Bool.not_eq_true] at hdone
    rw [Block.wp_bind, Block.wp_await]
    refine throwIfAborted_keeps ?_ fun e => hF e _ _ (hm.read true).failing
    have hcut : Q () (truncate_ s) (v.read false) := by
      refine hQ _ _ ⟨(hm.read false).truncate, fun _ hd => ?_, fun ht => nomatch ht⟩
      rw [show s.done = true from hd] at hdone
      cases hdone
    rw [Block.wp_bind, Block.wp_await]
    refine pastDeadline_keeps fun past => ?_
    rw [Block.wp_ite]
    refine ⟨fun _ => hcut, fun _ => ?_⟩
    rw [Block.wp_ite]
    refine ⟨fun _ => hcut, fun _ => ?_⟩
    rw [Block.wp_bind]
    refine fetchPages_keeps (hm.read false) (fun hfull => hmore hfull hdone) hdone hhalted htrunc
      (fun e s' w h => ?_) hF
    cases e with
    | outer =>
      exact hQ _ _ ⟨h.mid, fun hf hd hh => (h.ended hf hd hh).scanEnd, h.leaving⟩
    | pages count =>
      obtain ⟨hh, ht, hcount, hleft⟩ := h.leaving
      rw [Block.wp_bind, Block.wp_when]
      refine ⟨fun hne => ?_, fun _ => ?_⟩
      · refine ih { h.mid with } (fun hfull _ => ?_) (fun _ hd => nomatch hd) hh ht
        rcases hleft with hd | hleft
        · exact (h.ended hfull hd hh).scanEnd
        · rcases hleft with hfinish | ⟨hpage, hab⟩
          · exact Or.inr (Or.inl ⟨h.fetched, hcount ▸ hne, hfinish⟩)
          · exact Or.inr (Or.inr (Or.inl ⟨by omega, hab⟩))
      · -- one page was taken
        rename_i hone
        refine ih h.mid (fun hf hd => (h.ended hf hd hh).scanEnd) (fun hf hd => h.more hf hd ?_) hh ht
        rw [← hcount, not_not.1 hone]
        decide

end Page

end Watukuy
