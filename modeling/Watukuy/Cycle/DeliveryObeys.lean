import Watukuy.Cycle.Deliveries
import Watukuy.Cycle.LaneObeys

/-!
# All programs keep to their roles

A worker goes through its rows one by one (`deliverRows_role`); a drain asks for the rows, for the
held keys and for the blocked ones before each round (`drainLoop_role`). With the rules of
`Cycle/Stays`, an execution keeps to its role from the grant of its lease to the release.
-/

set_option autoImplicit false

namespace Watukuy

open Library Task

variable {ι : Type} {d : Deployment ι}

/-! ## Workers -/

section Workers

variable {deps : RunnerDeps ι} {lease : Lease} {run drain : Nat} {group : String}
  {row : OutboxRow ι} {rest : List (OutboxRow ι)} {stage : Stage}

/-- The view of a worker that has the rows `rest` of a group left. -/
@[reducible] def atRow (lease : Lease) (drain : Nat) (key : String) (rest : List (OutboxRow ι))
    (stage : Stage) : ThreadView ι :=
  .worker { lease, drain, key, rest, stage }

/-- A worker that has not settled its promise. -/
def Working (lease : Lease) (drain : Nat) (v : ThreadView ι) : Prop :=
  ∃ key rest stage, v = atRow lease drain key rest stage

/-- A worker as it is after a row. -/
def AfterRow (lease : Lease) (drain : Nat) (key : String) (rest : List (OutboxRow ι)) (e : RowEnd)
    (v : ThreadView ι) : Prop :=
  v = atRow lease drain key (if e = .next then rest else []) .ready

theorem stopped_role {v : ThreadView ι} (hv : v = atRow lease drain group rest stage)
    {Q : Bool → ThreadView ι → Prop} {E : JsError → ThreadView ι → Prop} (hQ : ∀ b, Q b v) :
    (stopped run drain : Proc ι Bool).wp (deliveries d).contract Q E v := by
  subst hv
  unfold stopped aborted
  rw [Task.wp_bind, Task.wp_bind, wp_call]
  refine ⟨trivial, ?_⟩
  intro reason
  rw [Task.wp_pure, wp_ite]
  refine ⟨fun _ => hQ true, fun _ => ?_⟩
  rw [Task.wp_bind, wp_call]
  exact ⟨rfl, fun mem => hQ _⟩

/-- A note that does not end the row. -/
theorem note_role {v : ThreadView ι} (hv : v = atRow lease drain group rest stage) {note : DrainNote}
    (hallow : (⟨lease, drain, group, rest, stage, false⟩ : WorkerView ι).allowNote d note)
    {Q : Unit → ThreadView ι → Prop} {E : JsError → ThreadView ι → Prop}
    (hQ : Q () (.worker ((⟨lease, drain, group, rest, stage, false⟩ : WorkerView ι).note d note))) :
    (call (.noteDrain drain note)).wp (deliveries d).contract Q E v := by
  subst hv
  rw [wp_call]
  exact ⟨⟨rfl, rfl, hallow⟩, fun _ => hQ⟩

theorem onDeliveryError_role (hdeps : deps.In d) {v : ThreadView ι}
    (hv : v = atRow lease drain group (row :: rest) .failed) (err : JsError)
    {Q : RowEnd → ThreadView ι → Prop} {E : JsError → ThreadView ι → Prop}
    (hQ : ∀ e w, AfterRow lease drain group rest e w → Q e w)
    (hE : ∀ e w, Working lease drain w → E e w) :
    (onDeliveryError deps lease drain group row err).wp (deliveries d).contract Q E v := by
  subst hv
  unfold onDeliveryError
  rw [wp_ite]
  refine ⟨fun _ => ?_, fun _ => ?_⟩
  · -- the attempts are exhausted
    rw [Task.wp_bind, wp_now]
    refine ⟨trivial, ?_⟩
    intro failedAt
    rw [Task.wp_bind, wp_now]
    refine ⟨trivial, ?_⟩
    intro parkedAt
    rw [Task.wp_bind, wp_store]
    refine ⟨⟨rfl, rfl, rfl, row, rest, serializeError err, failedAt, parkedAt, rfl, ?_⟩, ?_, ?_⟩
    · rw [hdeps.poller]
      rfl
    · intro _
      rw [Task.wp_bind]
      refine note_role rfl ?_ ?_
      · exact rfl
      -- a halt, a held key, or on to the next row
      rw [wp_ite, hdeps.poller]
      refine ⟨fun hhalt => ?_, fun hgo => ?_⟩
      · simp only [WorkerView.note, hhalt, true_or, if_true]
        rw [Task.wp_bind]
        refine note_role rfl ?_ ?_
        · exact ⟨rfl, hhalt⟩
        exact hQ .stop _ rfl
      · rw [wp_ite]
        refine ⟨fun hheld => ?_, fun hfree => ?_⟩
        · simp only [WorkerView.note, hheld, or_true, if_true]
          rw [Task.wp_bind]
          refine note_role rfl ?_ ?_
          · exact ⟨rfl, fun _ => hgo⟩
          exact hQ .leaveGroup _ rfl
        · have hnote : (⟨lease, drain, group, row :: rest, .parked, false⟩ : WorkerView ι).note d
              .parked = ⟨lease, drain, group, rest, .ready, false⟩ := by
            simp [WorkerView.note, hgo, hfree]
          exact hQ .next _ (congrArg ThreadView.worker hnote)
    · intro e
      -- the store rejected: the row stays as it is in the view
      exact hE e _ ⟨_, _, _, rfl⟩
  · -- another attempt is scheduled
    rw [Task.wp_bind, wp_random]
    refine ⟨trivial, ?_⟩
    intro draw
    rw [Task.wp_bind, wp_now]
    refine ⟨trivial, ?_⟩
    intro failedAt
    rw [Task.wp_bind, wp_store]
    refine ⟨⟨rfl, rfl, rfl, row, rest, rfl, rfl⟩, ?_, ?_⟩
    · intro _
      rw [Task.wp_bind]
      refine note_role rfl ?_ ?_
      · exact trivial
      rw [Task.wp_bind]
      refine note_role rfl ?_ ?_
      · exact trivial
      rw [Task.wp_bind]
      refine note_role rfl ?_ ?_
      · exact ⟨rfl, fun h => by cases h⟩
      exact hQ .leaveGroup _ rfl
    · intro e
      exact hE e _ ⟨_, _, _, rfl⟩

theorem deliverRow_role (hdeps : deps.In d) {v : ThreadView ι}
    (hv : v = atRow lease drain group (row :: rest) .ready)
    {Q : RowEnd → ThreadView ι → Prop} {E : JsError → ThreadView ι → Prop}
    (hQ : ∀ e w, AfterRow lease drain group rest e w → Q e w)
    (hE : ∀ e w, Working lease drain w → E e w) :
    (deliverRow deps lease drain group row).wp (deliveries d).contract Q E v := by
  subst hv
  unfold deliverRow
  rw [Task.wp_bind, wp_now]
  refine ⟨trivial, ?_⟩
  intro startedAt
  split
  · -- its next attempt is not due yet
    rw [Task.wp_bind]
    refine note_role rfl ?_ ?_
    · exact trivial
    rw [Task.wp_bind]
    refine note_role rfl ?_ ?_
    · exact ⟨rfl, fun h => by cases h⟩
    exact hQ .leaveGroup _ rfl
  · have herror : ∀ err w, w = atRow lease drain group (row :: rest) .failed →
        (if err.isLeaseLost then throw err
          else onDeliveryError deps lease drain group row err : Proc ι RowEnd).wp
          (deliveries d).contract Q E w := by
      intro err w hw
      rw [wp_ite]
      refine ⟨fun _ => ?_, fun _ => onDeliveryError_role hdeps hw err hQ hE⟩
      exact hE err w ⟨_, _, _, hw⟩
    rw [Task.wp_bind, wp_attempt]
    unfold deliverAndAck deliver
    rw [Task.wp_bind, wp_request]
    refine ⟨⟨rfl, rfl, row, rest, rfl, rfl⟩, ?_⟩
    intro res
    refine ⟨?_, ?_⟩
    · rintro - rfl
      rw [wp_store]
      refine ⟨⟨rfl, rfl, rfl, row, rest, rfl, rfl⟩, ?_, ?_⟩
      · intro _
        rw [Task.wp_bind]
        refine note_role rfl ?_ ?_
        · exact trivial
        exact hQ .next _ rfl
      · intro e
        exact herror e _ rfl
    · rintro e rfl
      exact herror e _ rfl

theorem deliverRows_role (hdeps : deps.In d) (rows : List (OutboxRow ι)) {v : ThreadView ι}
    (hv : v = atRow lease drain group rows .ready) {Q : Bool → ThreadView ι → Prop}
    {E : JsError → ThreadView ι → Prop}
    (hQ : ∀ b key rest, (b = true → rest = []) → Q b (atRow lease drain key rest .ready))
    (hE : ∀ e w, Working lease drain w → E e w) :
    (deliverRows deps lease run drain group rows).wp (deliveries d).contract Q E v := by
  induction rows generalizing v with
  | nil =>
    subst hv
    exact hQ true group [] fun _ => rfl
  | cons row rest ih =>
    unfold deliverRows
    rw [Task.wp_bind]
    refine stopped_role hv ?_
    intro b
    rw [wp_ite]
    refine ⟨fun _ => ?_, fun _ => ?_⟩
    · subst hv
      exact hQ false group _ fun h => nomatch h
    · rw [Task.wp_bind]
      refine deliverRow_role hdeps hv ?_ hE
      intro e w hw
      cases e with
      | next => exact ih hw
      | leaveGroup =>
        rw [show w = _ from hw]
        exact hQ true group [] fun _ => rfl
      | stop =>
        rw [show w = _ from hw]
        exact hQ false group [] fun h => nomatch h

theorem worker_role (hdeps : deps.In d) (n : Nat) {v : ThreadView ι}
    (hv : v = atRow lease drain group [] .ready) {Q : Unit → ThreadView ι → Prop}
    {E : JsError → ThreadView ι → Prop}
    (hQ : ∀ key rest, Q () (atRow lease drain key rest .ready))
    (hE : ∀ e w, Working lease drain w → E e w) :
    (worker deps lease run drain n).wp (deliveries d).contract Q E v := by
  induction n generalizing v group with
  | zero =>
    subst hv
    unfold worker
    rw [wp_diverge]
    trivial
  | succ n ih =>
    subst hv
    unfold worker
    rw [Task.wp_bind, wp_call]
    refine ⟨⟨rfl, rfl, rfl, rfl⟩, ?_⟩
    intro next
    cases next with
    | none => exact hQ group []
    | some g =>
      dsimp only
      rw [Task.wp_bind]
      refine stopped_role (rfl : _ = atRow lease drain g.key g.rows .ready) ?_
      intro b
      rw [wp_ite]
      refine ⟨fun _ => hQ _ _, fun _ => ?_⟩
      rw [Task.wp_bind]
      refine deliverRows_role hdeps g.rows rfl ?_ hE
      intro b key rest hb
      rw [wp_ite]
      refine ⟨fun htrue => ?_, fun _ => hQ key rest⟩
      rw [hb htrue]
      exact ih rfl

/-- A worker keeps to its role. -/
theorem workerThread_role (hdeps : deps.In d) (n : Nat) :
    Keeps (deliveries d).contract (.worker { lease, drain })
      (workerThread deps lease run drain n) := by
  unfold workerThread
  refine (Prog.wp_bind _ _ _ _).2 (Prog.wp_mono ?_
    (worker_role (Q := fun _ w => ∃ key rest, w = atRow lease drain key rest .ready)
      (E := fun _ => Working lease drain) hdeps n rfl (fun key rest => ⟨key, rest, rfl⟩)
      fun _ _ hw => hw))
  intro res w hw
  cases res with
  | ok _ =>
    obtain ⟨key, rest, rfl⟩ := hw
    exact ⟨⟨rfl, rfl, fun _ => rfl⟩, fun _ => trivial⟩
  | error e =>
    obtain ⟨key, rest, stage, rfl⟩ := hw
    exact ⟨⟨rfl, rfl, fun h => nomatch h⟩, fun _ => trivial⟩

end Workers

/-! ## Heartbeats -/

theorem heartbeat_role (deps : RunnerDeps ι) (run : Nat) (lease : Lease) (n : Nat) :
    Keeps (deliveries d).contract (.keeper lease) (heartbeat deps run lease n).forget := by
  refine (wp_forget _).2 ?_
  induction n with
  | zero =>
    unfold heartbeat
    rw [wp_diverge]
    trivial
  | succ n ih =>
    unfold heartbeat
    rw [Task.wp_bind, wp_call]
    refine ⟨trivial, ?_⟩
    intro isStopped
    rw [wp_ite]
    refine ⟨fun _ => trivial, fun _ => ?_⟩
    rw [Task.wp_bind, wp_now]
    refine ⟨trivial, ?_⟩
    intro at_
    rw [Task.wp_bind, wp_attempt, wp_store]
    refine ⟨rfl, ?_, ?_⟩
    · intro ok
      cases ok with
      | false => exact (wp_call _ _ _).2 ⟨trivial, fun _ => trivial⟩
      | true => exact ih
    · intro e
      exact ih

/-! ## Drains -/

section Drains

variable {deps : RunnerDeps ι} {lease : Lease} {run drain : Nat} {v : ThreadView ι}

/-- A main thread that holds the lease, between two rounds. -/
def Holding (lease : Lease) (v : ThreadView ι) : Prop :=
  ∃ m, v = .main m ∧ m.lease = some lease ∧ m.joining = false

/-- In the drain `drain`. -/
def Draws (lease : Lease) (drain : Nat) (m : MainView ι) : Prop :=
  m.lease = some lease ∧ m.joining = false ∧ m.drain = some drain

theorem Draws.holding {m : MainView ι} (h : Draws lease drain m) : Holding lease (.main m) :=
  ⟨m, rfl, h.1, h.2.1⟩

theorem stopped_drawing {m : MainView ι} (h : Draws lease drain m) (hv : v = .main m)
    {Q : Bool → ThreadView ι → Prop} {E : JsError → ThreadView ι → Prop}
    (hQ : ∀ b m, Draws lease drain m → Q b (.main m)) :
    (stopped run drain : Proc ι Bool).wp (deliveries d).contract Q E v := by
  subst hv
  unfold stopped aborted
  rw [Task.wp_bind, Task.wp_bind, wp_call]
  refine ⟨trivial, ?_⟩
  intro reason
  rw [Task.wp_pure, wp_ite]
  refine ⟨fun _ => hQ true _ h, fun _ => ?_⟩
  rw [Task.wp_bind, wp_call]
  exact ⟨⟨h.2.2, h.2.1⟩, fun mem => hQ _ _ h⟩

theorem drainLoop_role (hdeps : deps.In d) (fuel window : Nat) {m : MainView ι}
    (h : Draws lease drain m) (hv : v = .main m) {Q : Unit → ThreadView ι → Prop}
    {E : JsError → ThreadView ι → Prop} (hQ : ∀ m, Draws lease drain m → Q () (.main m))
    (hE : ∀ e w, Holding lease w → E e w) :
    (drainLoop deps lease run drain fuel window).wp (deliveries d).contract Q E v := by
  induction fuel generalizing window m v with
  | zero =>
    subst hv
    unfold drainLoop
    rw [wp_diverge]
    trivial
  | succ fuel ih =>
    unfold drainLoop
    rw [Task.wp_bind]
    refine stopped_drawing h hv ?_
    intro b m h
    rw [wp_ite]
    refine ⟨fun _ => hQ m h, fun _ => ?_⟩
    rw [Task.wp_bind, wp_store]
    refine ⟨h.2.1, ?_, fun e => hE e _ h.holding⟩
    intro rows
    rw [wp_ite]
    refine ⟨fun _ => hQ _ h, fun _ => ?_⟩
    rw [Task.wp_bind, wp_store]
    refine ⟨⟨h.2.1, rfl, rfl⟩, ?_, fun e => hE e _ (Draws.holding h)⟩
    intro held
    rw [Task.wp_bind, wp_call]
    refine ⟨⟨h.2.2, h.2.1⟩, ?_⟩
    intro mem
    dsimp only
    rw [wp_ite]
    refine ⟨fun _ => ?_, fun _ => ?_⟩
    · rw [wp_ite]
      refine ⟨fun _ => hQ _ h, fun _ => ?_⟩
      refine ih (window * 2) ?_ rfl
      exact h
    · rw [Task.wp_bind, wp_call]
      refine ⟨⟨hdeps, h.1, h.2.2, h.2.1, rows, held, mem.blocked, rfl, rfl, rfl, ?_⟩, ?_⟩
      · rw [hdeps.poller]
      intro _
      rw [Task.wp_bind, wp_request]
      refine ⟨⟨h.2.2, rfl⟩, ?_⟩
      intro res
      refine ⟨?_, ?_⟩
      · rintro progress rfl
        rw [wp_ite]
        refine ⟨fun _ => hQ _ ⟨h.1, rfl, h.2.2⟩, fun _ => ?_⟩
        refine ih window ?_ rfl
        exact ⟨h.1, rfl, h.2.2⟩
      · rintro e rfl
        exact hE e _ ⟨_, rfl, h.1, rfl⟩

/-- A drain, from the first call to the last. -/
theorem drainOutbox_role (hdeps : deps.In d) :
    (drainOutbox deps lease run).Stays (deliveries d).contract (Holding lease) := by
  rintro v ⟨m, rfl, hlease, hjoining⟩
  have hcount : ∀ {α : Type} (f : Nat → Proc ι α) (m : MainView ι),
      m.lease = some lease → m.joining = false →
      (∀ n, (f n).wp (deliveries d).contract (fun _ => Holding lease) (fun _ => Holding lease)
        (.main m)) →
      (store .countPending >>= f).wp (deliveries d).contract (fun _ => Holding lease)
        (fun _ => Holding lease) (.main m) := by
    intro α f m hl hj hf
    rw [Task.wp_bind, wp_store]
    exact ⟨trivial, hf, fun _ => ⟨m, rfl, hl, hj⟩⟩
  unfold drainOutbox
  rw [wp_ite]
  refine ⟨fun _ => ?_, fun _ => hcount _ m hlease hjoining fun _ => ⟨m, rfl, hlease, hjoining⟩⟩
  rw [Task.wp_bind, wp_call]
  refine ⟨⟨by rw [hlease]; rfl, hjoining⟩, ?_⟩
  intro drain
  rw [Task.wp_bind]
  refine drainLoop_role hdeps _ _ ?_ rfl ?_ ?_
  · exact ⟨hlease, hjoining, rfl⟩
  · intro m h
    refine hcount _ m h.1 h.2.1 ?_
    intro remaining
    rw [Task.wp_bind, wp_call]
    exact ⟨⟨h.2.2, h.2.1⟩, fun _ => ⟨_, rfl, h.1, h.2.1⟩⟩
  · intro e w hw
    exact hw

end Drains

/-! ## Executions -/

/-- What an execution does under its lease keeps the lease. -/
theorem executionKept {deps : RunnerDeps ι} (hdeps : deps.In d) (lease : Lease) :
    ExecutionKept (deliveries d).contract (Holding lease) deps lease where
  plain v o hv ho := by
    obtain ⟨m, rfl, hlease, hjoining⟩ := hv
    have hkeep : ∀ m' : MainView ι, m'.lease = m.lease → m'.joining = m.joining →
        Holding lease (.main m') := fun m' hl hj => ⟨m', rfl, hl.trans hlease, hj.trans hjoining⟩
    cases o with
    | store o =>
      cases o with
      | renewLease l ttl t => exact ⟨ho ▸ hlease, fun _ => hkeep _ rfl rfl⟩
      | saveState l p => exact ⟨ho.1 ▸ hlease, fun _ => hkeep _ rfl rfl⟩
      | commitPoll l b => exact ⟨ho.1 ▸ hlease, fun _ => hkeep _ rfl rfl⟩
      | setValidator l k x => exact ⟨ho ▸ hlease, fun _ => hkeep _ rfl rfl⟩
      | loadState => exact ⟨trivial, fun _ => hkeep _ rfl rfl⟩
      | loadVersions ids => exact ⟨trivial, fun _ => hkeep _ rfl rfl⟩
      | streamIdentities => exact ⟨trivial, fun _ => hkeep _ rfl rfl⟩
      | countPending => exact ⟨trivial, fun _ => hkeep _ rfl rfl⟩
      | getValidator k => exact ⟨trivial, fun _ => hkeep _ rfl rfl⟩
      | _ => exact ho.elim
    | fetch lane ctx => exact ⟨⟨by rw [hlease]; rfl, hjoining⟩, fun _ => hkeep _ rfl rfl⟩
    | diverge => exact ⟨trivial, fun a => a.elim⟩
    | _ => first | exact ho.elim | exact ⟨trivial, fun _ => hkeep _ rfl rfl⟩
  drain run := drainOutbox_role hdeps

/-- A main thread without a lease. -/
def Free (v : ThreadView ι) : Prop := ∃ m, v = .main m ∧ m.lease = none ∧ m.joining = false

section Executions

variable {deps : RunnerDeps ι} {v : ThreadView ι}

theorem release_role (h : Held ι) (hv : Holding h.lease v) {Q : Unit → ThreadView ι → Prop}
    {E : JsError → ThreadView ι → Prop} (hQ : ∀ w, Q () w) :
    (release h).wp (deliveries d).contract Q E v := by
  obtain ⟨m, rfl, hlease, hjoining⟩ := hv
  unfold release
  rw [Task.wp_bind, wp_call]
  refine ⟨trivial, ?_⟩
  intro _
  rw [Task.wp_bind, wp_attempt, wp_store]
  exact ⟨⟨hlease, hjoining⟩, fun _ => hQ _, fun _ => hQ _⟩

theorem runHeld_role (hdeps : deps.In d) (opts : RunKeyOptions) (pre : PollerState) {lease : Lease}
    (hv : Holding lease v) :
    (runHeld deps opts pre lease).wp (deliveries d).contract (fun _ _ => True) (fun _ _ => True)
      v := by
  obtain ⟨m, rfl, hlease, hjoining⟩ := hv
  unfold runHeld
  rw [Task.wp_bind, wp_call]
  refine ⟨trivial, ?_⟩
  intro run
  dsimp only
  rw [Task.wp_bind, wp_call]
  refine ⟨⟨hdeps, hlease⟩, ?_⟩
  intro _
  rw [wp_finallyDo]
  have hbody := (heldBody_stays (h := ⟨deps, opts, lease, run⟩) (executionKept hdeps lease)).run
    { out := { state := some pre }, state := pre } (.main m) ⟨m, rfl, hlease, hjoining⟩
  refine wp_mono ?_ ?_ hbody
  · intro r w hw
    exact release_role _ hw fun _ => trivial
  · intro e w hw
    exact release_role _ hw fun _ => trivial

theorem runKey_role (hdeps : deps.In d) (opts : RunKeyOptions) (hv : Free v) :
    (runKey deps opts).wp (deliveries d).contract (fun _ _ => True) (fun _ _ => True) v := by
  obtain ⟨m, rfl, hlease, hjoining⟩ := hv
  have hleased : ∀ pre, (runLeased deps opts pre).wp (deliveries d).contract (fun _ _ => True)
      (fun _ _ => True) (.main m) := by
    intro pre
    unfold runLeased
    rw [Task.wp_bind, wp_now]
    refine ⟨trivial, ?_⟩
    intro at_
    rw [Task.wp_bind, wp_store]
    refine ⟨hlease, ?_, fun _ => trivial⟩
    intro got
    cases got with
    | none => trivial
    | some lease => exact runHeld_role hdeps opts pre ⟨_, rfl, rfl, hjoining⟩
  unfold runKey
  rw [Task.wp_bind, wp_now]
  refine ⟨trivial, ?_⟩
  intro now0
  rw [Task.wp_bind, wp_store]
  refine ⟨trivial, ?_, fun _ => trivial⟩
  intro loaded
  dsimp only
  rw [wp_ite]
  refine ⟨fun _ => trivial, fun _ => ?_⟩
  rw [Task.wp_bind]
  unfold countPending
  rw [wp_ite]
  refine ⟨fun _ => ?_, fun _ => ?_⟩
  · rw [wp_store]
    refine ⟨trivial, ?_, fun _ => trivial⟩
    intro pending
    rw [wp_ite]
    exact ⟨fun _ => trivial, fun _ => hleased _⟩
  · rw [Task.wp_pure, wp_ite]
    exact ⟨fun _ => trivial, fun _ => hleased _⟩

end Executions

/-! ## Administrative operations -/

section Admin

variable {deps : RunnerDeps ι} {v : ThreadView ι}

/-- An operation that takes no lease keeps to its role. -/
theorem operator_role {p : Prog (Op ι) Ans Unit} (hp : p.Uses OperatorCall) :
    Keeps (deliveries d).contract (.main {}) p := by
  refine hp.wp_inv (I := Free) ?_ (fun _ _ _ => trivial) ⟨{}, rfl, rfl, rfl⟩
  rintro v o ⟨m, rfl, hlease, hjoining⟩ ho
  cases o with
  | store o =>
    cases o <;> first | exact ho.elim | exact ⟨trivial, fun _ => ⟨m, rfl, hlease, hjoining⟩⟩
  | now => exact ⟨trivial, fun _ => ⟨m, rfl, hlease, hjoining⟩⟩
  | _ => exact ho.elim

theorem replayLoop_role (lease : Lease) (fromTime : Int) (toTime : Option Int)
    (fuel sequence : Nat) (afterSequence : Option Nat) (replayed : Nat) (hv : Holding lease v) :
    (replayLoop (ι := ι) lease fromTime toTime fuel sequence afterSequence replayed).wp
      (deliveries d).contract (fun _ => Holding lease) (fun _ => Holding lease) v := by
  induction fuel generalizing sequence afterSequence replayed v with
  | zero =>
    obtain ⟨m, rfl, -, -⟩ := hv
    unfold replayLoop
    rw [wp_diverge]
    trivial
  | succ fuel ih =>
    obtain ⟨m, rfl, hlease, hjoining⟩ := hv
    unfold replayLoop
    rw [Task.wp_bind, wp_store]
    refine ⟨trivial, ?_, fun _ => ⟨m, rfl, hlease, hjoining⟩⟩
    intro logged
    rw [wp_ite]
    refine ⟨fun _ => ⟨m, rfl, hlease, hjoining⟩, fun _ => ?_⟩
    rw [Task.wp_bind, wp_now]
    refine ⟨trivial, ?_⟩
    intro at_
    dsimp only
    rw [Task.wp_bind, wp_store]
    refine ⟨hlease, ?_, fun _ => ⟨m, rfl, hlease, hjoining⟩⟩
    intro _
    rw [wp_ite]
    exact ⟨fun _ => ⟨m, rfl, hlease, hjoining⟩, fun _ => ih _ _ _ ⟨m, rfl, hlease, hjoining⟩⟩

theorem acquireWithRetry_role (n : Nat) (hv : Free v) :
    (acquireWithRetry deps n).wp (deliveries d).contract Holding (fun _ _ => True) v := by
  induction n generalizing v with
  | zero => trivial
  | succ n ih =>
    obtain ⟨m, rfl, hlease, hjoining⟩ := hv
    unfold acquireWithRetry
    rw [Task.wp_bind, wp_now]
    refine ⟨trivial, ?_⟩
    intro at_
    rw [Task.wp_bind, wp_store]
    refine ⟨hlease, ?_, fun _ => trivial⟩
    intro got
    cases got with
    | none => exact ih ⟨m, rfl, hlease, hjoining⟩
    | some lease => exact ⟨_, rfl, rfl, hjoining⟩

theorem replay_role (fromTime : Int) (toTime : Option Int) (hv : Free v) :
    (replay deps fromTime toTime).wp (deliveries d).contract (fun _ _ => True) (fun _ _ => True)
      v := by
  unfold replay
  rw [Task.wp_bind, wp_when]
  refine ⟨fun _ => trivial, fun _ => ?_⟩
  rw [Task.wp_bind]
  refine wp_mono ?_ (fun _ _ _ => trivial) (acquireWithRetry_role 20 hv)
  intro lease w hw
  have hrelease : ∀ w, Holding lease w →
      (store (.releaseLease lease) : Proc ι Unit).wp (deliveries d).contract (fun _ _ => True)
        (fun _ _ => True) w := by
    rintro w ⟨m, rfl, hlease, hjoining⟩
    rw [wp_store]
    exact ⟨⟨hlease, hjoining⟩, fun _ => trivial, fun _ => trivial⟩
  obtain ⟨m, rfl, hlease, hjoining⟩ := hw
  dsimp only
  rw [wp_finallyDo, Task.wp_bind, wp_store]
  refine ⟨trivial, ?_, fun _ => hrelease _ ⟨m, rfl, hlease, hjoining⟩⟩
  intro state
  refine wp_mono (fun _ w hw => hrelease w hw) (fun _ w hw => hrelease w hw) ?_
  exact replayLoop_role lease _ _ _ _ _ _ ⟨m, rfl, hlease, hjoining⟩

end Admin

/-! ## The system -/

theorem engineCall_role {deps : RunnerDeps ι} (hdeps : deps.In d) (call : EngineCall) :
    Keeps (deliveries d).contract (.main {}) (call.prog deps) := by
  have hfree : Free (.main {} : ThreadView ι) := ⟨{}, rfl, rfl, rfl⟩
  cases call with
  | runKey opts => exact (wp_forget _).2 (runKey_role hdeps opts hfree)
  | replay fromTime toTime => exact (wp_forget _).2 (replay_role fromTime toTime hfree)
  | _ =>
    refine operator_role (Prog.Uses.mono (fun _ h => EngineCall.Makes.operates h ?_)
      (EngineCall.makes _ deps ?_))
    · rintro ⟨fromTime, toTime, h⟩
      cases h
    · intro opts h
      cases h

/-- All programs of the system keep to their roles. -/
theorem rolesObeyed (d : Deployment ι) (S : EngineCall → Prop) :
    (deliveries d).Obeyed (d.entry S) where
  entry_keeps p hp := by
    obtain ⟨deps, call, hdeps, -, rfl⟩ := hp
    exact engineCall_role hdeps call
  forks_keep v o a hallow p hp := by
    cases o with
    | keeperStart deps run lease =>
      rw [List.mem_singleton.1 hp]
      exact heartbeat_role deps run lease _
    | startRound deps lease run drain groups =>
      rw [List.eq_of_mem_replicate hp]
      have hdeps : deps.In d := by
        cases v with
        | main m => exact hallow.1
        | worker w => exact hallow.elim
        | keeper l => exact hallow.elim
      exact workerThread_role hdeps _
    | _ => simp [system, forks] at hp

end Watukuy
