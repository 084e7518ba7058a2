import Watukuy.Run.Closing

/-!
# Why a drain leaves its loop

`DrainerView` is what the main thread of a drain has seen of its round, `HandView` what a worker has
seen of its group. `rounds` says what each of them does in view of that: a worker that leaves a row has
tried it, or has read on the clock that it is not due; the main thread counts what remains only when it
was stopped, when nothing that it loaded is open, or after a round without progress.
-/

set_option autoImplicit false

namespace Watukuy

open Library Task

variable {ι : Type}

/-! ## Views -/

/-- What the main thread of a drain has seen. -/
structure DrainerView (ι : Type) where
  /-- It has begun a drain, so it has a consumer. -/
  begun : Bool := false
  /-- It has seen the signal aborted or the drain halted. -/
  stopped : Bool := false
  rows : Option (List (OutboxRow ι)) := none
  held : List String := []
  blocked : List String := []
  /-- A round was started and has not been joined. -/
  joining : Bool := false
  /-- The progress of the round that was joined since the rows were loaded. -/
  progress : Option Nat := none

/-- What a worker has done with the first row of its group. -/
inductive HandStep where
  | ready
  /-- The handler was called. -/
  | tried
  /-- The row is acknowledged. -/
  | acked
  /-- The row is parked. -/
  | shelved
  /-- Its next attempt is scheduled. -/
  | recorded
  deriving DecidableEq

/-- What a worker has seen. -/
structure HandView (ι : Type) where
  key : String := ""
  /-- The rows of its group that are left. -/
  rest : List (OutboxRow ι) := []
  step : HandStep := .ready
  /-- The last reading of the clock. -/
  clock : Option Int := none
  /-- It has found the queue empty. -/
  empty : Bool := false
  stopped : Bool := false
  /-- Its promise is settled. -/
  ended : Bool := false

inductive CrewView (ι : Type) where
  | drainer (v : DrainerView ι)
  | hand (v : HandView ι)

/-! ## What an answer tells -/

def DrainerView.learn (v : DrainerView ι) : (o : Op ι) → Ans o → DrainerView ι
  | .newDrain, _ => { v with begun := true }
  | .signal _, reason => { v with stopped := v.stopped || reason.isSome }
  | .peekDrain _, m => { v with stopped := v.stopped || m.result.halted, blocked := m.blocked }
  | .store (.loadPending _), a =>
    match a with
    | .ok rows => { v with rows := some rows, progress := none }
    | .error _ => v
  | .store .heldKeys, a =>
    match a with
    | .ok held => { v with held := held, progress := none }
    | .error _ => v
  | .startRound _ _ _ _ _, _ => { v with joining := true, progress := none }
  | .joinRound _, a =>
    match a with
    | .ok progress => { v with joining := false, progress := some progress }
    | .error _ => { v with joining := false }
  | _, _ => v

/-- A note that ends the row, or the group. -/
def HandView.note (d : Deployment ι) (v : HandView ι) : DrainNote → HandView ι
  | .delivered => { v with rest := v.rest.tail, step := .ready }
  | .parked =>
    if d.poller.delivery.poisonAction = .halt ∨ d.poller.delivery.poisonHoldKey = true then v
    else { v with rest := v.rest.tail, step := .ready }
  | .halted => { v with rest := [], step := .ready, stopped := true }
  | .block _ => { v with rest := [], step := .ready }
  | _ => v

def HandView.learn (d : Deployment ι) (v : HandView ι) : (o : Op ι) → Ans o → HandView ι
  | .now, t => { v with clock := some t }
  | .signal _, reason => { v with stopped := v.stopped || reason.isSome }
  | .peekDrain _, m => { v with stopped := v.stopped || m.result.halted }
  | .shift _, a =>
    match a with
    | some g => { v with key := g.key, rest := g.rows, step := .ready }
    | none => { v with empty := true }
  | .deliver _, _ => { v with step := .tried }
  | .store (.ackEvents _ _), a =>
    match a with
    | .ok _ => { v with step := .acked }
    | .error _ => v
  | .store (.recordAttempt _ _ _ _), a =>
    match a with
    | .ok _ => { v with step := .recorded }
    | .error _ => v
  | .store (.parkEvent _ _), a =>
    match a with
    | .ok _ => { v with step := .shelved }
    | .error _ => v
  | .noteDrain _ note, _ => v.note d note
  | .workerDone _ _, _ => { v with ended := true }
  | _, _ => v

def CrewView.learn (d : Deployment ι) : CrewView ι → (o : Op ι) → Ans o → CrewView ι
  | .drainer v, o, a => .drainer (v.learn o a)
  | .hand v, o, a => .hand (v.learn d o a)

/-! ## What a thread does -/

/-- Why the loop was left. -/
def DrainerView.Left (d : Deployment ι) (v : DrainerView ι) : Prop :=
  v.stopped = true ∨ ∃ rows, v.rows = some rows ∧
    (rows = [] ∨ openGroups d.poller rows v.held v.blocked = [] ∨ v.progress = some 0)

/-- The calls of the main thread of a drain. -/
def DrainerView.allow (d : Deployment ι) (v : DrainerView ι) : Op ι → Prop
  | .store (.loadPending _) => v.joining = false
  | .store .heldKeys => v.joining = false
  | .store .countPending => v.begun = true → v.Left d
  | .newDrain => v.joining = false
  | .signal _ => True
  | .peekDrain _ => True
  | .startRound deps _ _ _ groups =>
    deps.In d ∧ v.begun = true ∧ v.joining = false ∧ groups ≠ [] ∧ ∃ rows, v.rows = some rows ∧
      groups = openGroups d.poller rows v.held v.blocked
  | .joinRound _ => v.joining = true
  | .diverge => True
  | _ => False

/-- The store calls of a worker, about a row that it has tried. -/
def HandView.allowStore (d : Deployment ι) (v : HandView ι) : StoreOp ι → Prop
  | .ackEvents _ ids => ∃ row rest, v.rest = row :: rest ∧ ids = [row.eventId]
  | .recordAttempt _ id _ _ => ∃ row rest, v.rest = row :: rest ∧ id = row.eventId
  | .parkEvent _ parked => ∃ row rest error failedAt parkedAt, v.rest = row :: rest ∧
      parked = poisonRow d.poller v.key row error failedAt parkedAt
  | _ => False

/-- The first row of the group is not due, by the last reading of the clock. -/
def HandView.Early (v : HandView ι) (row : OutboxRow ι) : Prop :=
  ∃ at_ t, row.nextAttemptAt = some at_ ∧ v.clock = some t ∧ t < at_

/-- A worker blocks its key for its first row: it has failed, it holds the key, or it is not due. -/
def HandView.Blocking (d : Deployment ι) (v : HandView ι) (row : OutboxRow ι) : Prop :=
  v.step = .recorded ∨ (v.step = .shelved ∧ d.poller.delivery.poisonHoldKey = true) ∨
    (v.step = .ready ∧ v.Early row)

/-- The notes a worker leaves. -/
def HandView.allowNote (d : Deployment ι) (v : HandView ι) : DrainNote → Prop
  | .delivered => v.step = .acked
  | .parked => v.step = .shelved
  | .halted => v.step = .shelved
  | .block key => key = v.key ∧ ∃ row rest, v.rest = row :: rest ∧ v.Blocking d row
  | _ => True

/-- The calls of a worker. One that resolves was stopped, or has found the queue empty. -/
def HandView.allow (d : Deployment ι) (v : HandView ι) : Op ι → Prop
  | .store o => v.ended = false ∧ v.step = .tried ∧ v.allowStore d o
  | .now => True
  | .random => True
  | .signal _ => True
  | .peekDrain _ => True
  | .shift _ => v.ended = false ∧ v.rest = [] ∧ v.step = .ready
  | .deliver e =>
    v.ended = false ∧ v.step = .ready ∧
      ∃ row rest, v.rest = row :: rest ∧ e = { row.event with attempt := row.attempts + 1 }
  | .noteDrain _ note => v.ended = false ∧ v.allowNote d note
  | .workerDone _ res =>
    v.ended = false ∧ (res = .ok () → v.stopped = true ∨ (v.empty = true ∧ v.rest = []))
  | .diverge => True
  | _ => False

def CrewView.allow (d : Deployment ι) : CrewView ι → Op ι → Prop
  | .drainer v, o => v.allow d o
  | .hand v, o => v.allow d o

/-- What a forked thread begins with. -/
def crewSeed : (o : Op ι) → Ans o → CrewView ι
  | .startRound _ _ _ _ _, _ => .hand {}
  | _, _ => .drainer {}

/-- The roles of the threads of drains. -/
@[reducible] def rounds (d : Deployment ι) : Roles (system ι) where
  contract :=
    { View := CrewView ι
      allow := CrewView.allow d
      learn := CrewView.learn d }
  origin := .drainer {}
  seed := crewSeed

variable {d : Deployment ι}

/-! ## Workers -/

section Workers

variable {deps : RunnerDeps ι} {lease : Lease} {run drain : Nat} {group : String}
  {row : OutboxRow ι} {rest : List (OutboxRow ι)} {x : HandView ι}

/-- The worker has the rows `rest` of the group `key` left, and its promise is not settled. -/
structure HandView.At (x : HandView ι) (key : String) (rest : List (OutboxRow ι)) (step : HandStep) :
    Prop where
  key : x.key = key
  rest : x.rest = rest
  step : x.step = step
  ended : x.ended = false

/-- A worker as it is after a row. -/
structure HandView.Past (x : HandView ι) (key : String) (rest : List (OutboxRow ι)) (e : RowEnd) :
    Prop where
  at_ : x.At key (if e = .next then rest else []) .ready
  stop : e = .stop → x.stopped = true

theorem stopped_hand {v : CrewView ι} (hv : v = .hand x) (hx : x.At group rest .ready)
    {Q : Bool → CrewView ι → Prop} {E : JsError → CrewView ι → Prop}
    (hQ : ∀ b y, HandView.At y group rest .ready →
      (b = true → y.stopped = true) → Q b (.hand y)) :
    (stopped run drain : Proc ι Bool).wp (rounds d).contract Q E v := by
  subst hv
  unfold stopped aborted
  rw [Task.wp_bind, Task.wp_bind, wp_call]
  refine ⟨trivial, ?_⟩
  intro reason
  rw [Task.wp_pure, wp_ite]
  refine ⟨fun haborted => ?_, fun _ => ?_⟩
  · refine hQ true _ ⟨hx.key, hx.rest, hx.step, hx.ended⟩ fun _ => ?_
    simp [HandView.learn, haborted]
  · rw [Task.wp_bind, wp_call]
    refine ⟨trivial, fun mem => ?_⟩
    refine hQ _ _ ⟨hx.key, hx.rest, hx.step, hx.ended⟩ fun hhalted => ?_
    simp [HandView.learn, hhalted]

/-- A note that does not end the worker. -/
theorem note_hand {v : CrewView ι} (hv : v = .hand x) {note : DrainNote} (hx : x.ended = false)
    (hallow : x.allowNote d note) {Q : Unit → CrewView ι → Prop} {E : JsError → CrewView ι → Prop}
    (hQ : Q () (.hand (x.note d note))) :
    (call (.noteDrain drain note)).wp (rounds d).contract Q E v := by
  subst hv
  rw [wp_call]
  exact ⟨⟨hx, hallow⟩, fun _ => hQ⟩

theorem onDeliveryError_hand (hdeps : deps.In d) (hx : x.At group (row :: rest) .tried)
    (err : JsError) {Q : RowEnd → CrewView ι → Prop} {E : JsError → CrewView ι → Prop}
    (hQ : ∀ e y, HandView.Past y group rest e → Q e (.hand y))
    (hE : ∀ e y, HandView.ended y = false → E e (.hand y)) :
    (onDeliveryError deps lease drain group row err).wp (rounds d).contract Q E (.hand x) := by
  unfold onDeliveryError
  rw [wp_ite]
  refine ⟨fun _ => ?_, fun _ => ?_⟩
  · -- the attempts are exhausted: the row is parked
    rw [Task.wp_bind, wp_now]
    refine ⟨trivial, ?_⟩
    intro failedAt
    rw [Task.wp_bind, wp_now]
    refine ⟨trivial, ?_⟩
    intro parkedAt
    rw [Task.wp_bind, wp_store]
    refine ⟨⟨hx.ended, hx.step, row, rest, serializeError err, failedAt, parkedAt, hx.rest, ?_⟩, ?_, ?_⟩
    · rw [hdeps.poller, ← hx.key]
      rfl
    · -- parked: the drain halts, or the key is held, or the worker goes on
      intro _
      rw [Task.wp_bind]
      refine note_hand rfl ?_ ?_ ?_
      · exact hx.ended
      · exact rfl
      rw [wp_ite, hdeps.poller]
      refine ⟨fun hhalt => ?_, fun hgo => ?_⟩
      · simp only [HandView.note, hhalt, true_or, if_true]
        rw [Task.wp_bind]
        refine note_hand rfl ?_ ?_ ?_
        · exact hx.ended
        · exact rfl
        exact hQ .stop _ ⟨⟨hx.key, rfl, rfl, hx.ended⟩, fun _ => rfl⟩
      · rw [wp_ite]
        refine ⟨fun hheld => ?_, fun hfree => ?_⟩
        · simp only [HandView.note, hheld, or_true, if_true]
          rw [Task.wp_bind]
          refine note_hand rfl ?_ ?_ ?_
          · exact hx.ended
          · exact ⟨hx.key.symm, row, rest, hx.rest, Or.inr (Or.inl ⟨rfl, hheld⟩)⟩
          exact hQ .leaveGroup _ ⟨⟨hx.key, rfl, rfl, hx.ended⟩, fun h => by cases h⟩
        · -- the poller neither halts nor holds the key: on to the next row
          have hneither : ¬(d.poller.delivery.poisonAction = .halt ∨
              d.poller.delivery.poisonHoldKey = true) := by
            rintro (h | h)
            · exact hgo h
            · exact hfree h
          simp only [HandView.note, if_neg hneither]
          refine hQ .next _ ⟨⟨hx.key, ?_, rfl, hx.ended⟩, fun h => by cases h⟩
          exact congrArg List.tail hx.rest
    · intro e
      exact hE e _ hx.ended
  · -- another attempt is scheduled
    rw [Task.wp_bind, wp_random]
    refine ⟨trivial, ?_⟩
    intro draw
    rw [Task.wp_bind, wp_now]
    refine ⟨trivial, ?_⟩
    intro failedAt
    rw [Task.wp_bind, wp_store]
    refine ⟨⟨hx.ended, hx.step, row, rest, hx.rest, rfl⟩, ?_, ?_⟩
    · intro _
      rw [Task.wp_bind]
      refine note_hand rfl ?_ ?_ ?_
      · exact hx.ended
      · exact trivial
      rw [Task.wp_bind]
      refine note_hand rfl ?_ ?_ ?_
      · exact hx.ended
      · exact trivial
      rw [Task.wp_bind]
      refine note_hand rfl ?_ ?_ ?_
      · exact hx.ended
      · exact ⟨hx.key.symm, row, rest, hx.rest, Or.inl rfl⟩
      exact hQ .leaveGroup _ ⟨⟨hx.key, rfl, rfl, hx.ended⟩, fun h => by cases h⟩
    · intro e
      exact hE e _ hx.ended

theorem deliverRow_hand (hdeps : deps.In d) (hx : x.At group (row :: rest) .ready)
    {Q : RowEnd → CrewView ι → Prop} {E : JsError → CrewView ι → Prop}
    (hQ : ∀ e y, HandView.Past y group rest e → Q e (.hand y))
    (hE : ∀ e y, HandView.ended y = false → E e (.hand y)) :
    (deliverRow deps lease drain group row).wp (rounds d).contract Q E (.hand x) := by
  unfold deliverRow
  rw [Task.wp_bind, wp_now]
  refine ⟨trivial, ?_⟩
  intro startedAt
  split
  · -- its next attempt is not due yet
    rename_i at_ hearly
    obtain ⟨hnext, hlt⟩ := Option.filter_eq_some_iff.1 hearly
    rw [Task.wp_bind]
    refine note_hand rfl ?_ ?_ ?_
    · exact hx.ended
    · exact trivial
    rw [Task.wp_bind]
    refine note_hand rfl ?_ ?_ ?_
    · exact hx.ended
    · exact ⟨hx.key.symm, row, rest, hx.rest,
        Or.inr (Or.inr ⟨hx.step, at_, startedAt, hnext, rfl, of_decide_eq_true hlt⟩)⟩
    exact hQ .leaveGroup _ ⟨⟨hx.key, rfl, rfl, hx.ended⟩, fun h => by cases h⟩
  · have herror : ∀ err y, HandView.At y group (row :: rest) .tried →
        (if err.isLeaseLost then throw err
          else onDeliveryError deps lease drain group row err : Proc ι RowEnd).wp
          (rounds d).contract Q E (.hand y) := by
      intro err y hy
      rw [wp_ite]
      refine ⟨fun _ => ?_, fun _ => onDeliveryError_hand hdeps hy err hQ hE⟩
      exact hE err y hy.ended
    -- the handler, then the acknowledgement; an error of either counts against the row
    rw [Task.wp_bind, wp_attempt]
    unfold deliverAndAck deliver
    rw [Task.wp_bind, wp_request]
    refine ⟨⟨hx.ended, hx.step, row, rest, hx.rest, rfl⟩, ?_⟩
    intro res
    refine ⟨?_, ?_⟩
    · rintro - rfl
      rw [wp_store]
      refine ⟨⟨hx.ended, rfl, row, rest, hx.rest, rfl⟩, ?_, ?_⟩
      · intro _
        rw [Task.wp_bind]
        refine note_hand rfl ?_ ?_ ?_
        · exact hx.ended
        · exact rfl
        refine hQ .next _ ⟨⟨hx.key, ?_, rfl, hx.ended⟩, fun h => by cases h⟩
        exact congrArg List.tail hx.rest
      · intro e
        exact herror e _ ⟨hx.key, hx.rest, rfl, hx.ended⟩
    · rintro e rfl
      exact herror e _ ⟨hx.key, hx.rest, rfl, hx.ended⟩

theorem deliverRows_hand (hdeps : deps.In d) (rows : List (OutboxRow ι)) (hx : x.At group rows .ready)
    {Q : Bool → CrewView ι → Prop} {E : JsError → CrewView ι → Prop}
    (hgo : ∀ y, HandView.At y group [] .ready → Q true (.hand y))
    (hstop : ∀ y, HandView.ended y = false → y.stopped = true → Q false (.hand y))
    (hE : ∀ e y, HandView.ended y = false → E e (.hand y)) :
    (deliverRows deps lease run drain group rows).wp (rounds d).contract Q E (.hand x) := by
  induction rows generalizing x with
  | nil => exact hgo x hx
  | cons row rest ih =>
    unfold deliverRows
    rw [Task.wp_bind]
    refine stopped_hand rfl hx ?_
    intro b y hy hstopped
    rw [wp_ite]
    refine ⟨fun hb => hstop y hy.ended (hstopped hb), fun _ => ?_⟩
    rw [Task.wp_bind]
    refine deliverRow_hand hdeps hy ?_ hE
    intro e z hz
    cases e with
    | next => exact ih hz.at_
    | leaveGroup => exact hgo z hz.at_
    | stop => exact hstop z hz.at_.ended (hz.stop rfl)

theorem worker_hand (hdeps : deps.In d) (n : Nat) (hx : x.At group [] .ready)
    {Q : Unit → CrewView ι → Prop} {E : JsError → CrewView ι → Prop}
    (hQ : ∀ y, HandView.ended y = false → (y.stopped = true ∨ (y.empty = true ∧ y.rest = [])) →
      Q () (.hand y))
    (hE : ∀ e y, HandView.ended y = false → E e (.hand y)) :
    (worker deps lease run drain n).wp (rounds d).contract Q E (.hand x) := by
  induction n generalizing x group with
  | zero =>
    unfold worker
    rw [wp_diverge]
    trivial
  | succ n ih =>
    unfold worker
    rw [Task.wp_bind, wp_call]
    refine ⟨⟨hx.ended, hx.rest, hx.step⟩, ?_⟩
    intro next
    cases next with
    | none => exact hQ _ hx.ended (Or.inr ⟨rfl, hx.rest⟩)
    | some g =>
      dsimp only
      rw [Task.wp_bind]
      have hat : HandView.At (x.learn d (.shift drain) (some g)) g.key g.rows .ready :=
        ⟨rfl, rfl, rfl, hx.ended⟩
      refine stopped_hand rfl hat ?_
      intro b y hy hstopped
      rw [wp_ite]
      refine ⟨fun hb => hQ y hy.ended (Or.inl (hstopped hb)), fun _ => ?_⟩
      rw [Task.wp_bind]
      refine deliverRows_hand hdeps g.rows hy ?_ ?_ hE
      · intro z hz
        exact ih hz
      · intro z hended hstop
        exact hQ z hended (Or.inl hstop)

theorem workerThread_hand (hdeps : deps.In d) (n : Nat) :
    Keeps (rounds d).contract (.hand {}) (workerThread deps lease run drain n) := by
  unfold workerThread
  refine (Prog.wp_bind _ _ _ _).2 (Prog.wp_mono ?_
    (worker_hand (Q := fun _ v => ∃ y, v = CrewView.hand y ∧ y.ended = false ∧
        (y.stopped = true ∨ (y.empty = true ∧ y.rest = [])))
      (E := fun _ v => ∃ y, v = CrewView.hand y ∧ y.ended = false) hdeps n ⟨rfl, rfl, rfl, rfl⟩
      (fun y hended hleft => ⟨y, rfl, hended, hleft⟩) fun _ y hended => ⟨y, rfl, hended⟩))
  intro res v hv
  cases res with
  | ok _ =>
    obtain ⟨y, rfl, hended, hleft⟩ := hv
    exact ⟨⟨hended, fun _ => hleft⟩, fun _ => trivial⟩
  | error e =>
    obtain ⟨y, rfl, hended⟩ := hv
    exact ⟨⟨hended, fun h => by cases h⟩, fun _ => trivial⟩

end Workers

/-! ## Drains -/

section Drains

variable {deps : RunnerDeps ι} {lease : Lease} {run drain : Nat} {m : DrainerView ι}

/-- In a drain, between two rounds. -/
structure DrainerView.Between (m : DrainerView ι) : Prop where
  begun : m.begun = true
  joining : m.joining = false

theorem stopped_drainer (hm : m.Between) {Q : Bool → CrewView ι → Prop}
    {E : JsError → CrewView ι → Prop} (hQ : ∀ b m', DrainerView.Between m' →
      (b = true → m'.stopped = true) → Q b (.drainer m')) :
    (stopped run drain : Proc ι Bool).wp (rounds d).contract Q E (.drainer m) := by
  unfold stopped aborted
  rw [Task.wp_bind, Task.wp_bind, wp_call]
  refine ⟨trivial, ?_⟩
  intro reason
  rw [Task.wp_pure, wp_ite]
  refine ⟨fun haborted => ?_, fun _ => ?_⟩
  · refine hQ true _ ⟨hm.begun, hm.joining⟩ fun _ => ?_
    simp [DrainerView.learn, haborted]
  · rw [Task.wp_bind, wp_call]
    refine ⟨trivial, fun mem => ?_⟩
    refine hQ _ _ ⟨hm.begun, hm.joining⟩ fun hhalted => ?_
    simp [DrainerView.learn, hhalted]

theorem drainLoop_drainer (hdeps : deps.In d) (fuel window : Nat) (hm : m.Between)
    {Q : Unit → CrewView ι → Prop} {E : JsError → CrewView ι → Prop}
    (hQ : ∀ m', DrainerView.Left d m' → Q () (.drainer m'))
    (hE : ∀ e v, E e v) :
    (drainLoop deps lease run drain fuel window).wp (rounds d).contract Q E (.drainer m) := by
  induction fuel generalizing window m with
  | zero =>
    unfold drainLoop
    rw [wp_diverge]
    trivial
  | succ fuel ih =>
    unfold drainLoop
    rw [Task.wp_bind]
    refine stopped_drainer hm ?_
    intro b m hm hstopped
    rw [wp_ite]
    refine ⟨fun hb => hQ m (Or.inl (hstopped hb)), fun _ => ?_⟩
    rw [Task.wp_bind, wp_store]
    refine ⟨hm.joining, ?_, fun e => hE e _⟩
    intro rows
    rw [wp_ite]
    refine ⟨fun hempty => hQ _ (Or.inr ⟨rows, rfl, Or.inl (List.isEmpty_iff.1 hempty)⟩), fun _ => ?_⟩
    rw [Task.wp_bind, wp_store]
    refine ⟨hm.joining, ?_, fun e => hE e _⟩
    intro held
    rw [Task.wp_bind, wp_call]
    refine ⟨trivial, ?_⟩
    intro mem
    dsimp only
    rw [wp_ite, hdeps.poller]
    refine ⟨fun hnone => ?_, fun hsome => ?_⟩
    · -- nothing is open: the window is widened, or the loop is left
      rw [wp_ite]
      refine ⟨fun _ => ?_, fun _ => ih (window * 2) ⟨hm.begun, hm.joining⟩⟩
      exact hQ _ (Or.inr ⟨rows, rfl, Or.inr (Or.inl (List.isEmpty_iff.1 hnone))⟩)
    · -- a round of workers, and the loop goes on if it has made progress
      rw [Task.wp_bind, wp_call]
      refine ⟨⟨hdeps, hm.begun, hm.joining, ?_, rows, rfl, rfl⟩, ?_⟩
      · intro hnil
        exact hsome (List.isEmpty_iff.2 hnil)
      intro _
      rw [Task.wp_bind, wp_request]
      refine ⟨rfl, ?_⟩
      intro res
      refine ⟨?_, ?_⟩
      · rintro progress rfl
        rw [wp_ite]
        refine ⟨fun hzero => ?_, fun _ => ih window ⟨hm.begun, rfl⟩⟩
        exact hQ _ (Or.inr ⟨rows, rfl, Or.inr (Or.inr (congrArg some hzero))⟩)
      · rintro e rfl
        exact hE e _

theorem drainOutbox_drainer (hdeps : deps.In d) :
    Keeps (rounds d).contract (.drainer {}) (drainOutbox deps lease run).forget := by
  refine (wp_forget _).2 ?_
  unfold drainOutbox
  rw [wp_ite]
  refine ⟨fun _ => ?_, fun _ => ?_⟩
  · rw [Task.wp_bind, wp_call]
    refine ⟨rfl, ?_⟩
    intro drain
    rw [Task.wp_bind]
    refine drainLoop_drainer hdeps _ _ ⟨rfl, rfl⟩ ?_ fun _ _ => trivial
    intro m hleft
    rw [Task.wp_bind, wp_store]
    refine ⟨fun _ => hleft, ?_, fun _ => trivial⟩
    intro remaining
    rw [Task.wp_bind, wp_call]
    exact ⟨trivial, fun _ => trivial⟩
  · rw [Task.wp_bind, wp_store]
    refine ⟨(fun h => by cases h), fun _ => trivial, fun _ => trivial⟩

end Drains

/-- In every run of drains, the threads keep to these roles. -/
theorem roundsObeyed (d : Deployment ι) (lease : Lease) (run : Nat) :
    (rounds d).Obeyed (d.drains lease run) where
  entry_keeps p hp := by
    obtain ⟨deps, hdeps, rfl⟩ := hp
    exact drainOutbox_drainer hdeps
  forks_keep v o a hallow p hp := by
    cases o with
    | startRound deps lease run drain groups =>
      rw [List.eq_of_mem_replicate hp]
      cases v with
      | drainer m => exact workerThread_hand hallow.1 _
      | hand x => exact hallow.elim
    | keeperStart deps run lease => cases v <;> exact hallow.elim
    | _ => simp [system, forks] at hp

end Watukuy
