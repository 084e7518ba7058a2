import Watukuy.Run.Closing

/-!
# Stopping with a subscriber

`stop()` waits for the executions in flight; when its timeout elapses it aborts them, waits again, and
then closes the consumers. A worker reads the signal in the slice in which it delivers, so nothing is
delivered after the abort; but the abort settles no delivery. `stop_unblocked` says that `stop()` is
not held up by a delivery after the timeout, if none is unsettled at that moment, and
`stop_deadlocks` that it is otherwise.
-/

set_option autoImplicit false

namespace Watukuy

open Library Task

variable {ι : Type}

/-! ## Slices -/

/-- A thread may be suspended before the call: it is an `await`, or follows one. The other calls are
made in the slice of the call before them. -/
def Op.Suspends : Op ι → Prop
  | .now => False
  | .random => False
  | .newRun => False
  | .keeperStart _ _ _ => False
  | .keeperStop _ => False
  | .keeperLose _ => False
  | .keeperLost _ => False
  | .newDrain => False
  | .peekDrain _ => False
  | .noteDrain _ _ => False
  | .startRound _ _ _ _ _ => False
  | .shift _ => False
  | .workerDone _ _ => False
  | _ => True

/-- Whether the signal was read as not aborted in the slice of the thread, after a call. -/
def readInSlice (b : Bool) : (o : Op ι) → Ans o → Bool
  | .signal _, reason => reason.isNone
  | .now, _ => b
  | .random, _ => b
  | .newRun, _ => b
  | .keeperStart _ _ _, _ => b
  | .keeperStop _, _ => b
  | .keeperLose _, _ => b
  | .keeperLost _, _ => b
  | .newDrain, _ => b
  | .peekDrain _, _ => b
  | .noteDrain _ _, _ => b
  | .startRound _ _ _ _ _, _ => b
  | .shift _, _ => b
  | .workerDone _ _, _ => b
  | _, _ => false

def Op.Delivers : Op ι → Prop
  | .deliver _ => True
  | _ => False

def Op.Silent (o : Op ι) : Prop := ¬o.Delivers

/-- A delivery is made in a slice in which the signal was read as not aborted. -/
@[reducible] def slices : Contract (Op ι) Ans where
  View := Bool
  allow b o := o.Delivers → b = true
  learn := readInSlice

/-- The signal is read as aborted. -/
def ReadsAborted : Label (system ι) → Prop
  | .act _ (.signal _) _ reason => reason.isSome = true
  | _ => True

/-- A call before which a thread may be suspended ends a slice in which the signal was not aborted. -/
theorem slice_ends {o : Op ι} (ho : o.Suspends) {t : Nat} {ch : Choice ι} {a : Ans o}
    (hread : ReadsAborted (.act t o ch a)) (b : Bool) : readInSlice b o a = false := by
  cases o with
  | signal i =>
    cases a with
    | none => cases hread
    | some reason => rfl
  | _ => first | exact ho.elim | rfl

/-- Any other call belongs to the slice it is made in. -/
theorem slice_goes_on {o : Op ι} (ho : ¬o.Suspends) (b : Bool) (a : Ans o) :
    readInSlice b o a = b := by
  cases o with
  | store so => exact (ho trivial).elim
  | _ => first | exact (ho trivial).elim | rfl

section Workers

variable {deps : RunnerDeps ι} {lease : Lease} {run drain : Nat}

/-- A call that delivers nothing. -/
theorem silent_stays {α : Type} {m : Proc ι α} (hm : m.Uses Op.Silent) :
    m.Stays slices fun _ => True := by
  refine Uses.stays ?_ hm
  intro b o _ ho
  exact ⟨fun hdelivers => (ho hdelivers).elim, fun _ => trivial⟩

theorem silent_call {o : Op ι} (ho : o.Silent) : (call o).Uses Op.Silent :=
  uses_request ho _

theorem onDeliveryError_silent (group : String) (row : OutboxRow ι) (err : JsError) :
    (onDeliveryError deps lease drain group row err).Stays slices fun _ => True := by
  apply silent_stays
  refine Uses.mono ?_ (onDeliveryError_unguarded group row err)
  intro o ho hdelivers
  cases o with
  | deliver e => exact ho
  | _ => exact hdelivers

theorem stopped_slice (b : Bool) : (stopped run drain : Proc ι Bool).wp slices
    (fun stop b => True ∧ (stop = false → b = true)) (fun _ _ => True) b := by
  unfold stopped aborted
  rw [wp_bind, wp_bind, wp_call]
  refine ⟨fun h => h.elim, ?_⟩
  intro reason
  rw [wp_pure, wp_ite]
  refine ⟨fun _ => ⟨trivial, nofun⟩, fun hnone => ?_⟩
  rw [wp_bind, wp_call]
  refine ⟨fun h => h.elim, ?_⟩
  intro mem
  refine ⟨trivial, fun _ => ?_⟩
  simpa [readInSlice] using hnone

/-- What a worker does with the outcome of a delivery has no slice of its own. -/
theorem afterDelivery_slice (deps : RunnerDeps ι) (lease : Lease) (drain : Nat) (group : String)
    (row : OutboxRow ι) (r : Except JsError Unit) (b : Bool) :
    (match r with
      | .ok _ => do
        call (.noteDrain drain .delivered)
        return .next
      | .error err =>
        if err.isLeaseLost then throw err
        else onDeliveryError deps lease drain group row err : Proc ι RowEnd).wp slices
      (fun _ _ => True) (fun _ _ => True) b := by
  cases r with
  | ok _ =>
    refine silent_stays ?_ b trivial
    exact Uses.bind (silent_call id) fun _ => uses_pure _
  | error err =>
    dsimp only
    rw [wp_ite]
    exact ⟨fun _ => trivial, fun _ => onDeliveryError_silent group row err b trivial⟩

theorem deliverRow_slice (group : String) (row : OutboxRow ι) :
    (deliverRow deps lease drain group row).wp slices (fun _ _ => True) (fun _ _ => True) true := by
  unfold deliverRow
  rw [wp_bind, wp_now]
  refine ⟨fun h => h.elim, ?_⟩
  intro startedAt
  split
  · refine silent_stays ?_ _ trivial
    refine Uses.bind (silent_call id) fun _ => ?_
    exact Uses.bind (silent_call id) fun _ => uses_pure _
  · rw [wp_bind, wp_attempt]
    have hrest := afterDelivery_slice deps lease drain group row
    unfold deliverAndAck deliver
    rw [wp_bind, wp_request]
    refine ⟨fun _ => rfl, ?_⟩
    intro a
    refine ⟨fun _ _ => ?_, fun err _ => hrest (.error err) _⟩
    rw [wp_store]
    exact ⟨fun h => h.elim, fun _ => hrest (.ok ()) _, fun err => hrest (.error err) _⟩

theorem worker_slices (n : Nat) : (worker deps lease run drain n).Stays slices fun _ => True := by
  have hkept : WorkerKept slices (fun _ => True) (fun b => b = true) deps lease run drain := by
    refine ⟨?_, ?_, ?_, ?_⟩
    · intro b _
      exact ⟨fun h => h.elim, fun _ => trivial⟩
    · intro b _ hdelivers
      exact hdelivers.elim
    · intro b _
      exact stopped_slice b
    · rintro group row b rfl
      exact deliverRow_slice group row
  exact hkept.worker n

/-- The threads of the system: none of them starts in a slice that has read the signal. -/
@[reducible] def slicing : Roles (system ι) where
  contract := slices
  origin := false
  seed _ _ := false

/-- A thread whose role has no deliveries. -/
theorem Keeps.silent {C : Contract (Op ι) Ans} {I : C.View → Prop} {v : C.View}
    {p : Prog (Op ι) Ans Unit} (hI : ∀ v o, I v → C.allow v o →
      o.Silent ∧ ∀ a, I (C.learn v o a)) (hv : I v) (h : Keeps C v p) (b : Bool) :
    Keeps slices b p := by
  have huses : p.Uses Op.Silent := Prog.uses_of_wp hI hv h
  refine huses.wp_inv (I := fun _ => True) ?_ (fun _ _ _ => trivial) trivial
  intro b o _ ho
  exact ⟨fun hdelivers => (ho hdelivers).elim, fun _ => trivial⟩

theorem slicesObeyed (d : Deployment ι) (S : EngineCall → Prop) : slicing.Obeyed (d.entry S) where
  entry_keeps p hp := by
    have hmain : Keeps (deliveries d).contract (.main {}) p := (rolesObeyed d S).entry_keeps p hp
    refine Keeps.silent (I := fun v => ∃ m, v = ThreadView.main m) ?_ ⟨_, rfl⟩ hmain false
    rintro v o ⟨m, rfl⟩ hallow
    refine ⟨?_, fun a => ⟨_, rfl⟩⟩
    intro hdelivers
    cases o with
    | deliver e => exact hallow
    | _ => exact hdelivers
  forks_keep v o a hallow p hp := by
    cases o with
    | keeperStart deps run lease =>
      rw [List.mem_singleton.1 hp]
      refine Keeps.silent (I := fun v => v = ThreadView.keeper lease) ?_ rfl
        (heartbeat_role (d := d) deps run lease deps.fuel) false
      rintro v o rfl hallow
      refine ⟨?_, fun a => rfl⟩
      intro hdelivers
      cases o with
      | deliver e => exact hallow
      | _ => exact hdelivers
    | startRound deps lease run drain groups =>
      rw [List.eq_of_mem_replicate hp]
      refine (Prog.wp_bind _ _ _ _).2 (Prog.wp_mono ?_ (worker_slices _ false trivial))
      intro r b _
      exact ⟨fun h => h.elim, fun _ => trivial⟩
    | _ => simp [system, forks] at hp

end Workers

/-! ## Stopping -/

inductive StopPhase where
  | running
  /-- `stop()` waits for the executions in flight, until its timeout. -/
  | waiting
  /-- It has aborted them and waits again. -/
  | timedOut
  | stopped
  deriving DecidableEq

/-- The engine, its subscription and `stop()`. -/
structure Stopping (ι : Type) where
  sub : Subscribed ι
  phase : StopPhase := .running
  /-- The abort signal of the engine. -/
  aborted : Bool := false
  /-- The threads of the executions `stop()` waits for. -/
  pending : List Nat := []

/-- `watukuy: engine stopped`, for what `stop()` closes. -/
def stoppedReason : JsError := plainError "watukuy: engine stopped"

inductive StopLabel (ι : Type) where
  | sub (l : SubLabel ι)
  | stop (drain : Bool) (pending : List Nat)
  | timeout
  | closes

/-- Every thread is suspended: the timeout fires when no slice is under way. -/
def Subscribed.Between (s : Subscribed ι) : Prop :=
  ∀ (t : Nat) o k, s.sys.threads[t]? = some (Prog.call o k) →
    o.Suspends ∧ (o.Delivers → s.waiting t ≠ none)

/-- One step. The signals of the executions follow that of the engine: whoever reads one after the
abort reads it aborted. -/
inductive StopStep (entry : Prog (Op ι) Ans Unit → Prop) (s : Stopping ι) :
    StopLabel ι → Stopping ι → Prop where
  | sub {l : SubLabel ι} {s' : Subscribed ι} (step : SubStep entry s.sub l s')
      (follows : s.aborted = true → ∀ l', l = .sys l' → ReadsAborted l') :
      StopStep entry s (.sub l) { s with sub := s' }
  | stop (drain : Bool) (pending : List Nat) (running : s.phase = .running) :
      StopStep entry s (.stop drain pending)
        { s with phase := .waiting, aborted := s.aborted || !drain, pending }
  | timeout (waiting : s.phase = .waiting) (between : s.sub.Between) :
      StopStep entry s .timeout { s with phase := .timedOut, aborted := true }
  | closes (waits : s.phase = .waiting ∨ s.phase = .timedOut)
      (settled : ∀ t ∈ s.pending, ∀ o k, s.sub.sys.threads[t]? ≠ some (Prog.call o k)) :
      StopStep entry s .closes
        { s with sub := s.sub.calls (.close (some stoppedReason)), phase := .stopped }

/-- A run from a world in which nothing has been started, all of whose steps satisfy `G`. -/
inductive StopRun (entry : Prog (Op ι) Ans Unit → Prop) (w : World ι)
    (G : Stopping ι → StopLabel ι → Prop) : List (StopLabel ι) → Stopping ι → Prop where
  | nil (aborted : Option (Option JsError)) : StopRun entry w G [] { sub := .start w aborted }
  | step {tr : List (StopLabel ι)} {l : StopLabel ι} {s s' : Stopping ι} (h : StopRun entry w G tr s)
      (hs : StopStep entry s l s') (hG : G s l) : StopRun entry w G (tr ++ [l]) s'

/-- What a step is for the system and its loop. -/
def StopLabel.sub? : StopLabel ι → Option (SubLabel ι)
  | .sub l => some l
  | .closes => some (.closes (some stoppedReason))
  | _ => none

def subSteps (tr : List (StopLabel ι)) : List (SubLabel ι) := tr.filterMap StopLabel.sub?

/-- No thread awaits a delivery that is not settled. -/
def Subscribed.Settled (s : Subscribed ι) : Prop :=
  ∀ (t p : Nat), s.waiting t = some p → resultIn (effectsOf s.log) p ≠ none

section Runs

variable {entry : Prog (Op ι) Ans Unit → Prop} {w : World ι} {G : Stopping ι → StopLabel ι → Prop}
  {tr : List (StopLabel ι)} {s s' : Stopping ι} {l : StopLabel ι}

/-- Stopping adds nothing to what the system and its loop may do. -/
theorem StopRun.sub (h : StopRun entry w G tr s) :
    SubRun entry w (fun _ _ => True) (subSteps tr) s.sub := by
  induction h with
  | nil aborted => exact .nil aborted
  | @step tr l s s' h hs hG ih =>
    have happend : subSteps (tr ++ [l]) = subSteps tr ++ l.sub?.toList := by
      rw [subSteps, List.filterMap_append]
      cases l <;> rfl
    rw [happend]
    cases hs with
    | sub step follows => exact ih.step step trivial
    | closes waits settled => exact ih.step (.closes _) trivial
    | stop drain pending running =>
      rw [show (StopLabel.stop drain pending : StopLabel ι).sub? = none from rfl, Option.toList_none,
        List.append_nil]
      exact ih
    | timeout waiting between =>
      rw [show (StopLabel.timeout : StopLabel ι).sub? = none from rfl, Option.toList_none,
        List.append_nil]
      exact ih

/-- After the timeout no thread is in a slice that delivers, and no delivery is awaited in vain. -/
structure Quieted (steps : List (SubLabel ι)) (s : Stopping ι) : Prop where
  aborted : s.aborted = true
  settled : s.sub.Settled
  suspended : ∀ t : Nat, ((slicing (ι := ι)).views (sysSteps steps))[t]? = some true →
    ∀ o k, s.sub.sys.threads[t]? = some (Prog.call o k) →
      o.Suspends ∧ (o.Delivers → s.sub.waiting t ≠ none)

variable {d : Deployment ι} {S : EngineCall → Prop}

theorem resultIn_stays {fx fx' : List (Effect ι)} {p : Nat} (h : resultIn fx p ≠ none) :
    resultIn (fx ++ fx') p ≠ none := by
  rw [resultIn_append]
  cases hr : resultIn fx p with
  | none => exact absurd hr h
  | some a => simp

/-- A call of the consumer leaves the threads as they are. -/
theorem Quieted.calls {steps : List (SubLabel ι)} {l : SubLabel ι} {sub : Subscribed ι}
    (h : Quieted steps s) (hsys : sub.sys = s.sub.sys) (hwaiting : sub.waiting = s.sub.waiting)
    (hlog : ∃ fx, effectsOf sub.log = effectsOf s.sub.log ++ fx)
    (hsteps : sysSteps (steps ++ [l]) = sysSteps steps) :
    Quieted (steps ++ [l]) { s with sub } := by
  obtain ⟨fx, hfx⟩ := hlog
  refine ⟨h.aborted, ?_, ?_⟩
  · intro t p ht
    rw [show ({ s with sub } : Stopping ι).sub.log = sub.log from rfl, hfx]
    exact resultIn_stays (h.settled t p (by rw [← hwaiting]; exact ht))
  · rw [hsteps]
    intro t hview o k ht
    rw [show ({ s with sub } : Stopping ι).sub.waiting t = s.sub.waiting t from congrFun hwaiting t]
    exact h.suspended t hview o k (by rw [← hsys]; exact ht)

/-- After the timeout no thread is about to call `deliver`. -/
theorem Quieted.silent {steps : List (SubLabel ι)} (h : Quieted steps s)
    (hrun : Run (system ι) (d.entry S) w (sysSteps steps) s.sub.sys) {t : Nat} {e : WatukuyEvent ι}
    {k : Ans (.deliver e : Op ι) → Prog (Op ι) Ans Unit}
    (ht : s.sub.sys.threads[t]? = some (.call (.deliver e) k)) : s.sub.waiting t ≠ none := by
  obtain ⟨b, hb, hallow⟩ := hrun.mayCall (slicesObeyed d S) ht
  have hread : b = true := hallow trivial
  exact (h.suspended t (hread ▸ hb) _ k ht).2 trivial

theorem Quieted.system {steps : List (SubLabel ι)} (h : Quieted steps s) {l : Label (system ι)}
    {c : Config (system ι)} (hrun : Run (system ι) (d.entry S) w (sysSteps steps) s.sub.sys)
    (hs : Step (system ι) (d.entry S) s.sub.sys l c) (hread : ReadsAborted l) :
    Quieted (steps ++ [.sys l]) { s with sub := { s.sub with sys := c, waiting := s.sub.resumed l } } := by
  have hsteps : sysSteps (steps ++ [.sys l]) = sysSteps steps ++ [l] := sysSteps_append steps (.sys l)
  have hcast := hrun.inRole (slicesObeyed d S)
  refine ⟨h.aborted, ?_, ?_⟩
  · intro t p ht
    -- a step of the system may only end the waiting of its own thread
    refine h.settled t p ?_
    cases l with
    | act u o ch a =>
      cases o with
      | deliver e =>
        simp only [Subscribed.resumed, Function.update_apply] at ht
        split at ht
        · cases ht
        · exact ht
      | _ => exact ht
    | _ => exact ht
  · rw [hsteps, Roles.views_append]
    intro t hview o k ht
    cases hs with
    | drift x => exact h.suspended t hview o k ht
    | start hp =>
      rcases step_start_cases hview with hold | ⟨-, heq⟩
      · refine h.suspended t hold o k ?_
        have hlt : t < s.sub.sys.threads.length := by
          rw [← hcast.length]
          exact (List.getElem?_eq_some_iff.1 hold).1
        rw [List.getElem?_append_left hlt] at ht
        exact ht
      · cases heq
    | @act u o' k' ch a w' hu hw =>
      rcases step_act_cases hview with ⟨b, rfl, hb, heq⟩ | ⟨hne, hold⟩ | ⟨-, heq, -⟩
      · -- the slice of the thread that took the step is over
        exfalso
        have hlearn : true = readInSlice b o' a := heq
        -- a call that suspends ends the slice after its reading; any other goes on in it
        by_cases hsuspends : o'.Suspends
        · rw [slice_ends hsuspends hread b] at hlearn
          cases hlearn
        · rw [slice_goes_on hsuspends b a] at hlearn
          subst hlearn
          exact hsuspends (h.suspended t hb o' k' hu).1
      · have hlt : t < s.sub.sys.threads.length := by
          rw [← hcast.length]
          exact (List.getElem?_eq_some_iff.1 hold).1
        -- the other threads are where they were
        have hthread : s.sub.sys.threads[t]? = some (.call o k) := by
          rw [← ht]
          simp only [Config.resume]
          rw [List.getElem?_append_left (by rw [List.length_set]; exact hlt),
            List.getElem?_set_ne (Ne.symm hne)]
        obtain ⟨hsuspends, hwaits⟩ := h.suspended t hold o k hthread
        refine ⟨hsuspends, fun hdelivers => ?_⟩
        have hsame : s.sub.resumed (.act u o' ch a) t = s.sub.waiting t := by
          cases o' with
          | deliver e => exact Function.update_of_ne hne _ _
          | _ => rfl
        rw [show ({ s with sub := { s.sub with sys := s.sub.sys.resume u o' a k' w'
                                               waiting := s.sub.resumed (.act u o' ch a) } } :
          Stopping ι).sub.waiting t = s.sub.waiting t from hsame]
        exact hwaits hdelivers
      · cases heq

/-- When the timeout elapses, no delivery is unsettled that a thread awaits. -/
def InTime (s : Stopping ι) : StopLabel ι → Prop
  | .timeout => s.sub.Settled
  | _ => True

theorem Quieted.step {steps : List (SubLabel ι)} (h : Quieted steps s)
    (hrun : SubRun (d.entry S) w (fun _ _ => True) steps s.sub) {l : SubLabel ι} {s' : Subscribed ι}
    (hs : SubStep (d.entry S) s.sub l s') (hread : ∀ l', l = .sys l' → ReadsAborted l') :
    Quieted (steps ++ [l]) { s with sub := s' } := by
  have hsame : ∀ {l : SubLabel ι}, l.sys? = none → sysSteps (steps ++ [l]) = sysSteps steps := by
    intro l hl
    rw [sysSteps_append, hl, Option.toList_none, List.append_nil]
  have hshows : ∀ call, effectsOf (s.sub.log ++ s.sub.session.shows call) =
      effectsOf s.sub.log ++ (s.sub.session.call call).2 := by
    intro call
    rw [effectsOf_append, effectsOf_shows]
  have hnone : effectsOf s.sub.log = effectsOf s.sub.log ++ [] := (List.append_nil _).symm
  cases hs with
  | sys step settled => exact h.system hrun.system step (hread _ rfl)
  | send at_ free => exact absurd free (h.silent hrun.system at_)
  | begins fresh => exact h.calls rfl rfl ⟨_, hshows .next⟩ (hsame rfl)
  | takes pulling answered => exact h.calls rfl rfl ⟨[], hnone⟩ (hsame rfl)
  | leaves pulling answered => exact h.calls rfl rfl ⟨[], hnone⟩ (hsame rfl)
  | completes body => exact h.calls rfl rfl ⟨_, hshows .next⟩ (hsame rfl)
  | abrupt body abrupt => exact h.calls rfl rfl ⟨_, hshows .return_⟩ (hsame rfl)
  | closes reason => exact h.calls rfl rfl ⟨_, hshows (.close reason)⟩ (hsame rfl)

theorem StopRun.quieted (h : StopRun (d.entry S) w InTime tr s) (htimedOut : s.phase = .timedOut) :
    Quieted (subSteps tr) s := by
  induction h with
  | nil aborted => cases htimedOut
  | @step tr l s s' h hs hG ih =>
    have happend : subSteps (tr ++ [l]) = subSteps tr ++ l.sub?.toList := by
      rw [subSteps, List.filterMap_append]
      cases l <;> rfl
    rw [happend]
    cases hs with
    | sub step follows =>
      have hquiet := ih htimedOut
      exact hquiet.step h.sub step (follows hquiet.aborted)
    | stop drain pending running => cases htimedOut
    | closes waits settled => cases htimedOut
    | timeout waiting between =>
      rw [show (StopLabel.timeout : StopLabel ι).sub? = none from rfl, Option.toList_none,
        List.append_nil]
      exact ⟨rfl, hG, fun t _ o k ht => between t o k ht⟩

/-- In every run of the system, of a subscription with its loop, and of `stop()`, in which no thread
awaits an unsettled delivery when the timeout elapses: while `stop()` waits after its timeout, no
thread awaits an unsettled delivery. -/
theorem stop_unblocked (h : StopRun (d.entry S) w InTime tr s) (htimedOut : s.phase = .timedOut) :
    ∀ (t p : Nat), s.sub.waiting t = some p → resultIn (effectsOf s.sub.log) p ≠ none :=
  (h.quieted htimedOut).settled

/-! ## Waiting in vain -/

/-- The steps that may settle a delivery: of the loop, and of whoever closes the consumer. -/
def SubLabel.Settles : SubLabel ι → Prop
  | .begins => True
  | .ends _ _ => True
  | .closes _ => True
  | _ => False

/-- Nothing else settles a delivery that is awaited. -/
theorem awaited_stays {steps : List (SubLabel ι)} {s s' : Subscribed ι} {l : SubLabel ι}
    (hc : Coupled steps s) (hs : SubStep entry s l s') (hl : ¬l.Settles) {t p : Nat}
    (ht : s.waiting t = some p) (hp : resultIn (effectsOf s.log) p = none) :
    s'.waiting t = some p ∧ resultIn (effectsOf s'.log) p = none := by
  cases hs with
  | takes pulling answered => exact ⟨ht, hp⟩
  | leaves pulling answered => exact ⟨ht, hp⟩
  | begins fresh => exact (hl trivial).elim
  | completes body => exact (hl trivial).elim
  | abrupt body abrupt => exact (hl trivial).elim
  | closes reason => exact (hl trivial).elim
  | @sys l c step settled =>
    refine ⟨?_, hp⟩
    cases l with
    | act u o ch a =>
      cases o with
      | deliver e =>
        by_cases hut : t = u
        · subst hut
          obtain ⟨q, hq, hresult⟩ := settled t e ch a rfl
          obtain rfl := Option.some.inj (ht.symm.trans hq)
          rw [hp] at hresult
          cases hresult
        · exact (Function.update_of_ne hut _ _).trans ht
      | _ => exact ht
    | _ => exact ht
  | @send u e k at_ free =>
    have hut : t ≠ u := by
      rintro rfl
      rw [ht] at free
      cases free
    refine ⟨(Function.update_of_ne hut _ _).trans ht, ?_⟩
    -- a call of `deliver` settles no delivery but its own
    obtain ⟨e', k', -, he'⟩ := hc.waits t p ht
    have hlt : p < s.session.delivers := by
      rw [← hc.sound.delivers]
      exact (List.getElem?_eq_some_iff.1 he').1
    rw [show ({ s.calls (.deliver e) with
          waiting := Function.update s.waiting u (some s.session.delivers) } : Subscribed ι).log =
        s.log ++ s.session.shows (.deliver e) from rfl, effectsOf_append, effectsOf_shows,
      resultIn_append, hp, Option.none_or]
    cases hresult : resultIn (s.session.call (.deliver e)).2 p with
    | none => rfl
    | some a =>
      rcases result_mem hresult with ⟨-, hmem⟩ | ⟨r, -, hmem⟩
      · obtain ⟨fx₁, fx₂, hfx⟩ := List.append_of_mem hmem
        exact (call_resolves hfx).1.elim
      · have hown := (reject_deliver hmem).1
        omega

/-- `stop()` waits after its timeout, and a delivery that a thread awaits is unsettled. -/
def Stuck (s : Stopping ι) : Prop :=
  s.phase = .timedOut ∧ ∃ t p : Nat, s.sub.waiting t = some p ∧
    resultIn (effectsOf s.sub.log) p = none

/-- While an execution that `stop()` waits for is not over, only the loop, or whoever else closes the
consumer, brings `stop()` out of that. -/
theorem stuck_stays (h : StopRun entry w G tr s) (hs : StopStep entry s l s') (hstuck : Stuck s)
    {t : Nat} (ht : t ∈ s.pending)
    (hopen : ∃ o k, s.sub.sys.threads[t]? = some (Prog.call o k)) :
    Stuck s' ∨ ∃ l', l = .sub l' ∧ l'.Settles := by
  obtain ⟨hphase, u, p, hu, hp⟩ := hstuck
  cases hs with
  | @sub l' sub step follows =>
    by_cases hl : l'.Settles
    · exact Or.inr ⟨l', rfl, hl⟩
    · obtain ⟨hu', hp'⟩ := awaited_stays h.sub.coupled step hl hu hp
      exact Or.inl ⟨hphase, u, p, hu', hp'⟩
  | stop drain pending running =>
    rw [hphase] at running
    cases running
  | timeout waiting between =>
    rw [hphase] at waiting
    cases waiting
  | closes waits settled =>
    obtain ⟨o, k, hthread⟩ := hopen
    exact absurd hthread (settled t ht o k)

/-- A run of the system and its loop, before `stop()` is called. -/
theorem StopRun.before {steps : List (SubLabel ι)} {sub : Subscribed ι}
    (hG : ∀ s l, G s (.sub l)) (h : SubRun entry w (fun _ _ => True) steps sub) :
    StopRun entry w G (steps.map .sub) { sub } := by
  induction h with
  | nil aborted => exact .nil aborted
  | step h hs _ ih =>
    rw [List.map_append]
    exact ih.step (.sub hs nofun) (hG _ _)

end Runs

/-! ## Sample runs -/

/-- A check of `Between`. -/
def Subscribed.between (s : Subscribed ι) : Bool :=
  (List.range s.sys.threads.length).all fun t =>
    match s.sys.threads[t]? with
    | some (.call (.store _) _) => true
    | some (.call (.keeperStopped _) _) => true
    | some (.call (.joinRound _) _) => true
    | some (.call (.deliver _) _) => (s.waiting t).isSome
    | some (.ret _) => true
    | _ => false

theorem between_sound {s : Subscribed ι} (h : s.between = true) : s.Between := by
  intro t o k ht
  have hlt : t < s.sys.threads.length := (List.getElem?_eq_some_iff.1 ht).1
  have hcheck := List.all_eq_true.1 h t (List.mem_range.2 hlt)
  rw [ht] at hcheck
  cases o with
  | store so => exact ⟨trivial, fun hdelivers => hdelivers.elim⟩
  | keeperStopped run => exact ⟨trivial, fun hdelivers => hdelivers.elim⟩
  | joinRound i => exact ⟨trivial, fun hdelivers => hdelivers.elim⟩
  | deliver e => exact ⟨trivial, fun _ => Option.isSome_iff_ne_none.1 hcheck⟩
  | _ => cases hcheck

/-- A check of `Settled`. -/
def Subscribed.settled (s : Subscribed ι) : Bool :=
  (List.range s.sys.threads.length).all fun t =>
    match s.waiting t with
    | none => true
    | some p => (resultIn (effectsOf s.log) p).isSome

theorem settled_sound {steps : List (SubLabel ι)} {s : Subscribed ι} (hc : Coupled steps s)
    (h : s.settled = true) : s.Settled := by
  intro t p ht
  obtain ⟨e, k, hthread, -⟩ := hc.waits t p ht
  have hlt : t < s.sys.threads.length := (List.getElem?_eq_some_iff.1 hthread).1
  have hcheck := List.all_eq_true.1 h t (List.mem_range.2 hlt)
  rw [ht] at hcheck
  exact Option.isSome_iff_ne_none.1 hcheck

/-- The event of `a` is in flight and the body for it runs. -/
def inBody : List (Cue Sample) :=
  [ polls (sampleOf samplePoller), .begins, .run 0 60 (calm 5 (onePage [("a", "1")])),
    .run 2 60 (calm 5 .finish), .takes ]

/-- `stop()` is called, and its timeout elapses. -/
theorem StopRun.stopped {entry : Prog (Op ι) Ans Unit → Prop} {w : World ι}
    {G : Stopping ι → StopLabel ι → Prop} {steps : List (SubLabel ι)} {sub : Subscribed ι}
    (hG : ∀ s l, G s (.sub l)) (h : SubRun entry w (fun _ _ => True) steps sub)
    (hbetween : sub.Between) (hstop : G { sub } (.stop true [0]))
    (htimeout : G { sub, phase := .waiting, pending := [0] } .timeout) :
    StopRun entry w G (steps.map .sub ++ [.stop true [0]] ++ [.timeout])
      { sub, phase := .timedOut, aborted := true, pending := [0] } :=
  ((StopRun.before hG h).step (.stop true [0] rfl) hstop).step (.timeout rfl hbetween) htimeout

set_option maxRecDepth 100000 in
/-- The body completes before the timeout: the worker awaits a delivery that is settled. -/
theorem stop_unblocked_sample : ∃ tr s,
    StopRun ((sampleOf samplePoller).entry EngineCall.KeepsKey) (World.fresh (sampleOf samplePoller).key)
      InTime tr s ∧ s.phase = .timedOut ∧ (s.sub.waiting 2).isSome = true ∧
    ∀ (t p : Nat), s.sub.waiting t = some p → resultIn (effectsOf s.sub.log) p ≠ none := by
  obtain ⟨steps, sub, hrun, hcheck⟩ := cues_run (fun _ _ => true)
    (World.fresh (sampleOf samplePoller).key) none (fun _ _ _ => trivial)
    (inBody ++ [.ends .completes])
    (List.forall_mem_cons.2 ⟨polls_admitted _, by simp [Cue.Admitted]⟩)
    (fun _ s => s.between && (s.settled && (s.waiting 2).isSome)) (by decide +kernel)
  obtain ⟨hbetween, hrest⟩ := Bool.and_eq_true_iff.1 hcheck
  obtain ⟨hsettled, hwaiting⟩ := Bool.and_eq_true_iff.1 hrest
  have hstopped := StopRun.stopped (G := InTime) (fun _ _ => trivial) hrun (between_sound hbetween)
    trivial (settled_sound hrun.coupled hsettled)
  exact ⟨_, _, hstopped, rfl, hwaiting, stop_unblocked hstopped rfl⟩

/-- Thread `t` joins a round. -/
def Subscribed.joins (s : Subscribed ι) (t : Nat) : Bool :=
  match s.sys.threads[t]? with
  | some (.call (.joinRound _) _) => true
  | _ => false

theorem joins_sound {s : Subscribed ι} {t : Nat} (h : s.joins t = true) :
    ∃ i k, s.sys.threads[t]? = some (Prog.call (Op.joinRound i) k) := by
  unfold Subscribed.joins at h
  split at h
  · rename_i i k ht
    exact ⟨i, k, ht⟩
  · cases h

set_option maxRecDepth 100000 in
/-- The body does not ask for the next event: after the timeout `stop()` waits for the execution, the
execution for its worker, and the worker for a delivery that no step but one of the loop settles. -/
theorem stop_deadlocks : ∃ tr s,
    StopRun ((sampleOf samplePoller).entry EngineCall.KeepsKey) (World.fresh (sampleOf samplePoller).key)
      (fun _ _ => True) tr s ∧ Stuck s ∧ 0 ∈ s.pending ∧
    (∃ i k, s.sub.sys.threads[0]? = some (Prog.call (Op.joinRound i) k)) ∧
    ∀ l s', StopStep ((sampleOf samplePoller).entry EngineCall.KeepsKey) s l s' →
      Stuck s' ∨ ∃ l', l = .sub l' ∧ l'.Settles := by
  obtain ⟨steps, sub, hrun, hcheck⟩ := cues_run (fun _ _ => true)
    (World.fresh (sampleOf samplePoller).key) none (fun _ _ _ => trivial) inBody
    (List.forall_mem_cons.2 ⟨polls_admitted _, by simp [Cue.Admitted]⟩)
    (fun _ s => s.between && (s.joins 0 && (decide (s.waiting 2 = some 0) &&
      (resultIn (effectsOf s.log) 0).isNone))) (by decide +kernel)
  obtain ⟨hbetween, hrest⟩ := Bool.and_eq_true_iff.1 hcheck
  obtain ⟨hjoins, hrest⟩ := Bool.and_eq_true_iff.1 hrest
  obtain ⟨hwaiting, hnone⟩ := Bool.and_eq_true_iff.1 hrest
  have hstopped := StopRun.stopped (G := fun _ _ => True) (fun _ _ => trivial) hrun
    (between_sound hbetween) trivial trivial
  have hstuck : Stuck { sub, phase := .timedOut, aborted := true, pending := [0] } :=
    ⟨rfl, 2, 0, of_decide_eq_true hwaiting, Option.isNone_iff_eq_none.1 hnone⟩
  obtain ⟨i, k, hthread⟩ := joins_sound hjoins
  refine ⟨_, _, hstopped, hstuck, List.mem_singleton_self 0, ⟨i, k, hthread⟩, ?_⟩
  intro l s' hs
  exact stuck_stays hstopped hs hstuck (List.mem_singleton_self 0) ⟨_, k, hthread⟩

end Watukuy
