import Watukuy.Core.System

/-!
# What a runKey execution may do

`CycleView` is what an execution has learned so far from the answers to its calls: its lease, the
state it works on, and, for the cycle it is in, the pages taken, the rows loaded, the commits made.
`CycleView.allow` says which calls an execution may make in view of that.

The contract is stated for a deployment, what all instances of one poller share. `extra` adds
further calls of the store for the other programs of a system (administrative writes).
-/

set_option autoImplicit false

namespace Watukuy

open Library

variable {ι : Type}

/-- What the instances of one poller share. -/
structure Deployment (ι : Type) where
  crypto : Crypto
  poller : ResolvedPoller ι
  key : PKey

/-- The instance belongs to the deployment. -/
structure RunnerDeps.In (deps : RunnerDeps ι) (d : Deployment ι) : Prop where
  crypto : deps.crypto = d.crypto
  poller : deps.poller = d.poller
  key : deps.key = d.key

structure CycleView (ι : Type) where
  lease : Option Lease := none
  /-- The state was loaded under the lease. -/
  ready : Bool := false
  /-- The local sequence is at least this. -/
  sequence : Nat := 0
  /-- The lanes of the state in memory. -/
  lanes : Lanes := {}
  /-- The lane of the cycle; the live lane before the first one. -/
  lane : Lane := .live
  /-- The lane cursor the cycle started with. -/
  start : LaneCursor := { cursor := none }
  /-- The fetch calls of the cycle, with what each of them does. -/
  fetches : List (FetchContext × UserCode ι) := []
  /-- What the running fetch call goes on with. -/
  code : UserCode ι := .finish
  /-- The validator loaded for the request under way. -/
  validator : Option Validator := none
  /-- The response to the request under way. -/
  response : Option RawResponse := none
  /-- The pages taken in the cycle. -/
  pages : List (Page ι) := []
  /-- How many of them the running fetch call gave. -/
  inCall : Nat := 0
  /-- The keeper was asked about the lease, and the signal has not been read since. -/
  guarded : Bool := false
  /-- The signal was read as aborted right after the renewal that follows a page. -/
  aborted : Bool := false
  /-- Some response of the cycle was a 304. -/
  notModified : Bool := false
  /-- The last reading of a drain's `halted` before the delete phase. -/
  halted : Bool := false
  /-- The identities of the last `loadVersions`, and its answer. -/
  loaded : Option (List IdentityValue × OrderedMap String (ItemRow ι)) := none
  /-- How many pages of the cycle are committed. -/
  committed : Nat := 0
  /-- The stored identities, as streamed in the cycle. -/
  streamed : Option (List String) := none
  /-- The deletes committed in the cycle. -/
  deleted : List String := []

namespace CycleView

/-- A cycle begins. -/
def begin (v : CycleView ι) (lane : Lane) : CycleView ι where
  lease := v.lease
  ready := v.ready
  sequence := v.sequence
  lanes := v.lanes
  lane := lane
  start := (v.lanes.get lane).getD { cursor := none }

/-- The view after a commit that resolved. -/
def commitOk (v : CycleView ι) (b : CommitBatch ι) : CycleView ι :=
  { v with
    sequence := b.statePatch.sequence.getD v.sequence
    lanes := b.statePatch.lanes.getD v.lanes
    loaded := none
    committed := v.pages.length
    deleted := v.deleted ++ b.deletes }

/-- The view after a commit that rejected: it may have taken effect nevertheless. -/
def commitFailed (v : CycleView ι) (b : CommitBatch ι) : CycleView ι :=
  { v with
    sequence := b.statePatch.sequence.getD v.sequence
    loaded := none
    streamed := none }

/-- The view after a reading of the signal. -/
def read (v : CycleView ι) (aborted : Bool) : CycleView ι :=
  { v with aborted := v.aborted || (v.guarded && aborted), guarded := false }

/-- The view after an answer. -/
def learn (v : CycleView ι) : (o : Op ι) → Ans o → CycleView ι
  | .store (.acquireLease _ _ _), a =>
    match a with
    | .ok (some l) => { lease := some l }
    | _ => v
  | .store .loadState, a =>
    match a with
    | .ok st =>
      { v with
        ready := v.lease.isSome
        sequence := (st.map (·.sequence)).getD 0
        lanes := (st.map (·.lanes)).getD {} }
    | .error _ => v
  | .store (.loadVersions ids), a =>
    match a with
    | .ok rows => { v with loaded := some (ids, rows) }
    | .error _ => v
  | .store .streamIdentities, a =>
    match a with
    | .ok batches => { v with streamed := some batches.flatten }
    | .error _ => v
  | .store (.commitPoll _ b), a =>
    match a with
    | .ok _ => v.commitOk b
    | .error _ => v.commitFailed b
  | .store (.saveState _ p), a =>
    match a with
    | .ok _ =>
      { v with sequence := p.sequence.getD v.sequence, lanes := p.lanes.getD v.lanes }
    | .error _ => { v with sequence := p.sequence.getD v.sequence }
  | .store (.getValidator _), a =>
    match a with
    | .ok x => { v with validator := x }
    | .error _ => { v with validator := none }
  | .pollStart lane, _ => v.begin lane
  | .fetch _ ctx, u =>
    { v with code := u, inCall := 0, aborted := false, fetches := v.fetches ++ [(ctx, u)] }
  | .http _, a =>
    match a with
    | .ok raw =>
      { v with response := some raw, notModified := v.notModified || raw.status == 304 }
    | .error _ => v
  | .resume res, _ =>
    { v with
      code := match v.code with
        | .request _ k => k res
        | u => u
      validator := none
      response := none
      aborted := false }
  | .next page rest, _ =>
    { v with code := rest, pages := v.pages ++ [page], inCall := v.inCall + 1, aborted := false }
  | .keeperStopped _, _ => { v with guarded := true }
  | .signal _, reason => v.read reason.isSome
  | .peekDrain _, m =>
    { v with halted := if v.streamed.isSome then v.halted else m.result.halted }
  | _, _ => v

end CycleView

/-! ## The steps of a cycle -/

/-- The valid items of a page. -/
def validOf (poller : ResolvedPoller ι) (items : List ι) : List ι :=
  match validateItems poller items with
  | .ok (valid, _) => valid
  | .error _ => []

/-- The identities of the valid items of some pages. -/
def seenIn (poller : ResolvedPoller ι) (pages : List (Page ι)) : List IdentityValue :=
  pages.flatMap fun p => (validOf poller p.items).map poller.identity

/-- The page cursor of a sweep that started at `start` and took `pages`. -/
def sweepCursor (start : Option CursorVal) (pages : List (Page ι)) : CursorVal :=
  match start.getD (.page 1) with
  | .page n => .page (n + (pages.filter fun p => p.hasMore = some true).length)
  | c => c

/-- Rows for the events `specs`, numbered from `n + 1`. -/
def NumberedRows (deps : RunnerDeps ι) (lane : Lane) (cursor : CursorVal) :
    Nat → List (EventSpec ι) → List (OutboxRow ι) → Prop
  | _, [], rows => rows = []
  | n, spec :: specs, rows =>
    ∃ at_ rest, rows = eventRow deps lane spec (n + 1) cursor at_ :: rest ∧
      NumberedRows deps lane cursor (n + 1) specs rest

/-- The rows have increasing sequences past `n`, as many as there are rows. -/
def Numbered (n : Nat) (rows : List (OutboxRow ι)) : Prop :=
  (∀ r ∈ rows, n < r.sequence ∧ r.sequence ≤ n + rows.length) ∧
    rows.Pairwise fun a b => a.sequence < b.sequence

theorem Numbered.nil (n : Nat) : Numbered n ([] : List (OutboxRow ι)) := by
  constructor
  · intro r hr
    cases hr
  · exact List.Pairwise.nil

theorem Numbered.cons {n : Nat} {r : OutboxRow ι} {rows : List (OutboxRow ι)}
    (hr : r.sequence = n + 1) (h : Numbered (n + 1) rows) : Numbered n (r :: rows) := by
  obtain ⟨hbound, hpair⟩ := h
  constructor
  · intro r' hmem
    rw [List.length_cons]
    rcases List.mem_cons.1 hmem with rfl | hmem
    · omega
    · have hb := hbound r' hmem
      omega
  · apply List.pairwise_cons.2
    refine ⟨?_, hpair⟩
    intro r' hmem
    have hb := hbound r' hmem
    omega

theorem NumberedRows.numbered {deps : RunnerDeps ι} {lane : Lane} {cursor : CursorVal}
    {specs : List (EventSpec ι)} {n : Nat} {rows : List (OutboxRow ι)}
    (h : NumberedRows deps lane cursor n specs rows) : Numbered n rows := by
  induction specs generalizing n rows with
  | nil =>
    obtain rfl : rows = [] := h
    exact Numbered.nil n
  | cons spec rest ih =>
    obtain ⟨at_, tail, rfl, htail⟩ := h
    exact Numbered.cons rfl (ih htail)

/-- A pending row under the id of its event. -/
structure OutboxRow.Stamped (row : OutboxRow ι) : Prop where
  id : row.event.id = row.eventId
  status : row.status = .pending

theorem NumberedRows.stamped {deps : RunnerDeps ι} {lane : Lane} {cursor : CursorVal}
    {specs : List (EventSpec ι)} {n : Nat} {rows : List (OutboxRow ι)}
    (h : NumberedRows deps lane cursor n specs rows) : ∀ r ∈ rows, r.Stamped := by
  induction specs generalizing n rows with
  | nil =>
    obtain rfl : rows = [] := h
    intro r hr
    cases hr
  | cons spec rest ih =>
    obtain ⟨at_, tail, rfl, htail⟩ := h
    intro r hr
    rcases List.mem_cons.1 hr with rfl | hr
    · exact ⟨rfl, rfl⟩
    · exact ih htail r hr

/-- The cycle `c` is the one the view is in. -/
structure InCycle (d : Deployment ι) (v : CycleView ι) (c : Cycle ι) : Prop where
  deps : c.deps.In d
  lease : v.lease = some c.lease
  ready : v.ready = true
  lane : c.lane = v.lane
  start : c.start = v.start

/-- A page commit: the batch computed from the rows loaded for the valid items of the last page. -/
structure PageStep (d : Deployment ι) (v : CycleView ι) (b : CommitBatch ι) where
  cycle : Cycle ι
  inCycle : InCycle d v cycle
  before : List (Page ι)
  page : Page ι
  pages_eq : v.pages = before ++ [page]
  committed_eq : v.committed = before.length
  streamed_eq : v.streamed = none
  items : List ι
  valid : List ι
  invalid : List (ι × List ValidationIssue)
  full_items : cycle.isFullScan = true → items = page.items
  validated : validateItems d.poller items = .ok (valid, invalid)
  rows : OrderedMap String (ItemRow ι)
  loaded_eq : v.loaded = some (valid.map d.poller.identity, rows)
  at_ : Int
  candidates : List (DiffCandidate ι)
  unchanged : List String
  prepared : prepareCandidates d.crypto d.poller valid rows = .ok (candidates, unchanged)
  base : Nat
  base_ge : v.sequence ≤ base
  cursor : CursorVal
  cursor_eq : v.lane = .reconcile → cursor = sweepCursor v.start.cursor v.pages
  upserts_eq : b.upserts =
    (diffCandidates d.poller rows at_ cycle.isFullScan candidates).upserts
  deletes_eq : b.deletes = []
  events_eq : NumberedRows cycle.deps cycle.lane cursor base
    (pageSpecs cycle valid rows
      (diffCandidates d.poller rows at_ cycle.isFullScan candidates).changes) b.events
  sequence_eq : b.statePatch.sequence = some (base + b.events.length)
  lanes_eq : b.statePatch.lanes = some (v.lanes.set v.lane (laneNext cycle cursor))
  parked_eq : b.parked = [] ∨ b.parked = invalid.map (quarantineRow cycle.deps at_)

/-- The last page of the fetch call ends the listing. -/
def LastPage (v : CycleView ι) : Prop :=
  1 ≤ v.inCall ∧ ∃ p, v.pages.getLast? = some p ∧ p.hasMore ≠ some true

/-- The listing goes on: nothing was fetched yet, or the last page says that there are more. -/
def GoesOn (v : CycleView ι) : Prop :=
  v.fetches = [] ∨ ∃ p, v.pages.getLast? = some p ∧ p.hasMore = some true

/-- How the page loop of a full scan can end with `done`: the strategy says so after the last page;
a fetch call that gave other than one page is exhausted; one that gave several is left on an abort; a
backfill lane reached its target. -/
def ScanEnd (v : CycleView ι) : Prop :=
  LastPage v ∨ (v.fetches ≠ [] ∧ v.inCall ≠ 1 ∧ v.code = .finish) ∨
    (2 ≤ v.inCall ∧ v.aborted = true) ∨ (v.lane = .backfill ∧ v.start.target.isSome)

/-- Whether the lane is swept for deletes. -/
def Deployment.fullScan (d : Deployment ι) (lane : Lane) : Bool :=
  lane = .reconcile || d.poller.cursor.isSnapshotDiff

/-- The stored identities may be streamed: the delete phase begins. -/
structure MayStream (d : Deployment ι) (v : CycleView ι) : Prop where
  fullScan : d.fullScan v.lane = true
  ended : ScanEnd v
  committed : v.committed = v.pages.length
  fresh : v.notModified = false

/-- The delete commit: what was streamed and not seen. -/
structure DeleteStep (d : Deployment ι) (v : CycleView ι) (b : CommitBatch ι) where
  cycle : Cycle ι
  inCycle : InCycle d v cycle
  phase : MayStream d v
  ids : List String
  streamed_eq : v.streamed = some ids
  deleted_eq : v.deleted = []
  deletes_ne : b.deletes ≠ []
  mem_deletes : ∀ id, id ∈ b.deletes ↔ id ∈ ids ∧ .string id ∉ seenIn d.poller v.pages
  nodup_deletes : ids.Nodup → b.deletes.Nodup
  rows : OrderedMap String (ItemRow ι)
  loaded_eq : v.loaded = some (b.deletes.map .string, rows)
  base : Nat
  base_ge : v.sequence ≤ base
  cursor : CursorVal
  upserts_eq : b.upserts = []
  events_eq : NumberedRows cycle.deps cycle.lane cursor base
    (b.deletes.filterMap fun id => (rows.get id).map (deleteSpec d.poller id)) b.events
  sequence_eq : b.statePatch.sequence = some (base + b.events.length)
  lanes_eq : b.statePatch.lanes = none
  parked_eq : b.parked = []

/-- The delete phase is over: what was streamed and not seen is deleted. -/
def Swept (d : Deployment ι) (v : CycleView ι) : Prop :=
  ∃ ids, v.streamed = some ids ∧
    ∀ id, id ∈ v.deleted ↔ id ∈ ids ∧ .string id ∉ seenIn d.poller v.pages

/-- The lane as saved at the end of a cycle. -/
structure FinalLane (v : CycleView ι) (last : LaneCursor) : Prop where
  sweep : v.lane = .reconcile → last.cursor = none
  force : last.force = true → v.start.force = true
  target : last.target = none ∨ last.target = v.start.target

/-- The save at the end of a cycle. -/
structure FinalSave (d : Deployment ι) (v : CycleView ι) (p : StatePatch) (lanes : Lanes) :
    Prop where
  committed : v.committed = v.pages.length
  lanes_eq : ∃ last : LaneCursor, lanes = v.lanes.set v.lane last ∧ FinalLane v last
  swept : ∀ schedule summary, p.schedule = some schedule → schedule.lastPoll = some summary →
    d.fullScan v.lane = true → summary.truncated = false → v.notModified = false →
    v.halted = false → Swept d v

/-- A fenced save: the sequence never falls, lanes are written at the end of a cycle only. -/
structure MaySave (d : Deployment ι) (v : CycleView ι) (l : Lease) (p : StatePatch) : Prop where
  lease : v.lease = some l
  ready : v.ready = true
  sequence : ∀ n, p.sequence = some n → v.sequence ≤ n
  lanes : ∀ lanes, p.lanes = some lanes → FinalSave d v p lanes

/-- What a fetch function gets for a request, in view of the response. -/
def Settles (response : Option RawResponse) (res : Except JsError HttpResponse) : Prop :=
  match response with
  | none => ∃ e, res = .error e
  | some raw =>
    if raw.status = 304 then
      res = .ok { status := raw.status, ok := true, notModified := true, body := none }
    else if raw.ok = true then
      res = .ok
        { status := raw.status, ok := true, notModified := false, body := some raw.body }
    else ∀ r, res = .ok r → r.notModified = false ∧ r.ok = false

namespace CycleView

/-- The calls of the store an execution may make. -/
def allowStore (d : Deployment ι) (v : CycleView ι) : StoreOp ι → Prop
  | .saveState l p => MaySave d v l p
  | .saveStateUnfenced _ => False
  | .deleteKey => False
  | .clearItems => False
  | .streamIdentities => MayStream d v
  | .commitPoll l b =>
    v.lease = some l ∧ v.ready = true ∧ (Nonempty (PageStep d v b) ∨ Nonempty (DeleteStep d v b))
  | .getValidator h => ∃ r k, v.code = .request r k ∧ h = d.crypto.hashUrl r.url
  | .setValidator l h x =>
    v.lease = some l ∧ ∃ r k raw, v.code = .request r k ∧ v.response = some raw ∧
      h = d.crypto.hashUrl r.url ∧ x.etag = raw.etag ∧ x.lastModified = raw.lastModified ∧
      raw.ok = true
  | _ => True

/-- The calls an execution may make. -/
def allow (d : Deployment ι) (extra : CycleView ι → StoreOp ι → Prop) (v : CycleView ι) :
    Op ι → Prop
  | .store o => v.allowStore d o ∨ extra v o
  | .pollStart lane => v.ready = true ∧ (lane ≠ .backfill → v.lane = .live)
  | .fetch lane ctx =>
    lane = v.lane ∧ ctx.page = v.pages.length + 1 ∧ v.committed = v.pages.length ∧
      (lane = .reconcile → ctx.cursor = sweepCursor v.start.cursor v.pages) ∧
      (d.fullScan lane = true → GoesOn v)
  | .http wire =>
    v.response = none ∧ ∃ r k, v.code = .request r k ∧ wire = wireRequest r v.validator
  | .resume res => (∃ r k, v.code = .request r k) ∧ Settles v.response res
  | .next page rest => v.code = .page page rest ∧ v.committed = v.pages.length
  | _ => True

end CycleView

/-- The contract of `runKey` executions. -/
@[reducible] def cycleContract (d : Deployment ι) (extra : CycleView ι → StoreOp ι → Prop) :
    Contract (Op ι) Ans where
  View := CycleView ι
  allow := CycleView.allow d extra
  learn := CycleView.learn

end Watukuy
