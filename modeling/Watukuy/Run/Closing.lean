import Watukuy.Cycle.Workers
import Watukuy.Run.Crew
import Watukuy.Run.Retries
import Watukuy.Run.Sessions

/-!
# Closing a subscription

A worker schedules a retry or parks a row after its delivery or its acknowledgement rejected. The
consumer rejects a delivery only when it is closed: what is outstanding then, and what is sent to it
afterwards. Where nothing is, and no acknowledgement fails, a drain changes nothing but what it
acknowledges.
-/

set_option autoImplicit false

namespace Watukuy

open Library Task

variable {ι : Type}

/-! ## Penalties -/

/-- The drains under a lease, and nothing else. -/
def Deployment.drains (d : Deployment ι) (lease : Lease) (run : Nat) (p : Prog (Op ι) Ans Unit) :
    Prop :=
  ∃ deps : RunnerDeps ι, deps.In d ∧ p = (drainOutbox deps lease run).forget

/-- The calls that count an attempt against an event. -/
def Penalizes : Op ι → Prop
  | .store (.recordAttempt _ _ _ _) => True
  | .store (.parkEvent _ _) => True
  | _ => False

/-- The worker threw, or has an error to deal with. -/
def Rejected : Except JsError Unit → Bool
  | .ok _ => false
  | .error e => !e.isLeaseLost

/-- Whether what the thread waited for last rejected, other than for the loss of its lease. -/
def afterRejection (b : Bool) : (o : Op ι) → Ans o → Bool
  | .deliver _, a => Rejected a
  | .store (.ackEvents _ _), a => Rejected a
  | _, _ => b

/-- A thread counts an attempt only after a rejection. -/
@[reducible] def penalties : Contract (Op ι) Ans where
  View := Bool
  allow b o := Penalizes o → b = true
  learn := afterRejection

section Penalties

variable {deps : RunnerDeps ι} {lease : Lease} {run drain : Nat}

theorem unguarded_learn {o : Op ι} (ho : Unguarded o) (b : Bool) (a : Ans o) :
    afterRejection b o a = b := by
  cases o with
  | store so => cases so <;> first | exact ho.elim | rfl
  | deliver e => exact ho.elim
  | _ => rfl

theorem plain_call {o : Op ι} (ho : ¬Penalizes o) : (call o).Stays penalties fun _ => True :=
  stays_request (fun _ _ => ⟨fun hpenalizes => (ho hpenalizes).elim, fun _ => trivial⟩) _

theorem stopped_penalties : (stopped run drain : Proc ι Bool).Stays penalties fun _ => True := by
  have haborted : (aborted run : Proc ι Bool).Stays penalties fun _ => True := by
    refine Stays.bind (plain_call id) ?_
    intro reason
    exact stays_pure _
  refine Stays.bind haborted ?_
  intro b
  refine Stays.ite (stays_pure true) ?_
  refine Stays.bind (plain_call id) ?_
  intro mem
  exact stays_pure _

/-- With a rejection to deal with, every call is allowed that does not reject itself. -/
theorem onDeliveryError_penalties (group : String) (row : OutboxRow ι) (err : JsError) :
    (onDeliveryError deps lease drain group row err).wp penalties (fun _ _ => True) (fun _ _ => True)
      true := by
  refine (onDeliveryError_unguarded group row err).wp_const ?_ (fun _ => trivial) fun _ => trivial
  intro o ho
  exact ⟨fun _ => rfl, fun a => unguarded_learn ho true a⟩

theorem deliverRow_penalties (group : String) (row : OutboxRow ι) :
    (deliverRow deps lease drain group row).Stays penalties fun _ => True := by
  refine Stays.bind (plain_call id) ?_
  intro startedAt
  split
  · refine Stays.bind (plain_call id) ?_
    intro _
    refine Stays.bind (plain_call id) ?_
    intro _
    exact stays_pure _
  · intro b _
    have hgo : ∀ (r : Except JsError Unit) b', Rejected r = b' →
        (match r with
          | .ok _ => do
            call (.noteDrain drain .delivered)
            return .next
          | .error err =>
            if err.isLeaseLost then throw err
            else onDeliveryError deps lease drain group row err : Proc ι RowEnd).wp penalties
          (fun _ _ => True) (fun _ _ => True) b' := by
      rintro r b' rfl
      cases r with
      | ok _ =>
        exact Stays.bind (plain_call id) (fun _ => stays_pure _) _ trivial
      | error err =>
        dsimp only
        rw [wp_ite]
        refine ⟨fun _ => trivial, fun hkept => ?_⟩
        rw [show Rejected (.error err) = true by simpa [Rejected] using hkept]
        exact onDeliveryError_penalties group row err
    rw [wp_bind, wp_attempt]
    unfold deliverAndAck deliver
    rw [wp_bind, wp_request]
    refine ⟨nofun, ?_⟩
    intro a
    refine ⟨fun _ _ => ?_, fun err herr => hgo (.error err) _ (congrArg Rejected herr.symm)⟩
    rw [wp_store]
    refine ⟨nofun, ?_, ?_⟩
    · intro x
      exact hgo (.ok ()) _ rfl
    · intro err
      exact hgo (.error err) _ rfl

theorem worker_penalties (n : Nat) :
    (worker deps lease run drain n).Stays penalties fun _ => True := by
  have hkept : WorkerKept penalties (fun _ => True) (fun _ => True) deps lease run drain := by
    refine ⟨?_, ?_, ?_, ?_⟩
    · intro v _
      exact ⟨fun hpenalizes => hpenalizes.elim, fun _ => trivial⟩
    · intro v _ hpenalizes
      exact hpenalizes.elim
    · intro v hv
      exact wp_mono (fun _ _ _ => ⟨trivial, fun _ => trivial⟩) (fun _ _ h => h) (stopped_penalties v hv)
    · intro group row v hv
      exact deliverRow_penalties group row v hv
  exact hkept.worker n

/-- The threads of the drains: none of them has an error to deal with at its start. -/
@[reducible] def penalized : Roles (system ι) where
  contract := penalties
  origin := false
  seed _ _ := false

theorem Deployment.drains.entry {d : Deployment ι} {p : Prog (Op ι) Ans Unit}
    (h : d.drains lease run p) : d.drainEntry lease run p := by
  obtain ⟨deps, hdeps, rfl⟩ := h
  exact ⟨deps, hdeps, Or.inl rfl⟩

/-- A thread whose role has neither deliveries nor penalties. -/
theorem Keeps.plain {C : Contract (Op ι) Ans} {I : C.View → Prop} {v : C.View}
    {p : Prog (Op ι) Ans Unit} (hI : ∀ v o, I v → C.allow v o →
      (¬Penalizes o ∧ Unguarded o) ∧ ∀ a, I (C.learn v o a)) (hv : I v) (h : Keeps C v p) :
    Keeps penalties false p := by
  have huses : p.Uses fun o => ¬Penalizes o ∧ Unguarded o := Prog.uses_of_wp hI hv h
  refine huses.wp_const ?_ fun _ => trivial
  rintro o ⟨hplain, hunguarded⟩
  exact ⟨fun hpenalizes => (hplain hpenalizes).elim, fun a => unguarded_learn hunguarded false a⟩

theorem penaltiesObeyed (d : Deployment ι) (lease : Lease) (run : Nat) :
    penalized.Obeyed (d.drains lease run) where
  entry_keeps p hp := by
    have hmain : Keeps (deliveries d).contract (.main { lease := some lease }) p :=
      (drainRolesObeyed d lease run).entry_keeps p hp.entry
    refine Keeps.plain (I := fun v => ∃ m, v = ThreadView.main m) ?_ ⟨_, rfl⟩ hmain
    rintro v o ⟨m, rfl⟩ hallow
    refine ⟨?_, fun a => ⟨_, rfl⟩⟩
    cases o with
    | store so => cases so <;> first | exact hallow.elim | exact ⟨id, trivial⟩
    | deliver e => exact hallow.elim
    | _ => exact ⟨id, trivial⟩
  forks_keep v o a hallow p hp := by
    cases o with
    | keeperStart deps run lease =>
      rw [List.mem_singleton.1 hp]
      refine Keeps.plain (I := fun v => v = ThreadView.keeper lease) ?_ rfl
        (heartbeat_role (d := d) deps run lease deps.fuel)
      rintro v o rfl hallow
      refine ⟨?_, fun a => rfl⟩
      cases o with
      | store so => cases so <;> first | exact hallow.elim | exact ⟨id, trivial⟩
      | deliver e => exact hallow.elim
      | _ => exact ⟨id, trivial⟩
    | startRound deps lease run drain groups =>
      rw [List.eq_of_mem_replicate hp]
      refine (Prog.wp_bind _ _ _ _).2 (Prog.wp_mono ?_ (worker_penalties _ false trivial))
      intro r b _
      exact ⟨fun h => h.elim, fun _ => trivial⟩
    | _ => simp [system, forks] at hp

theorem drainsObeyed (d : Deployment ι) (lease : Lease) (run : Nat) :
    Obeys (system ι) (d.drains lease run) (only DrainCall) () where
  entry_keeps p hp := by
    obtain ⟨deps, -, rfl⟩ := hp
    exact (drainOutbox_uses deps lease run).forget
  forks_keep o a p hp := forks_uses o a p hp

end Penalties

/-! ## Runs without rejections -/

/-- A step in which nothing rejects that a worker deals with. -/
def Lossless : Label (system ι) → Prop
  | .act _ (.deliver _) _ a => Rejected a = false
  | .act _ (.store (.ackEvents _ _)) _ a => Rejected a = false
  | _ => True

/-- The ids a step acknowledges. -/
def stepAcked : Label (system ι) → List String
  | .act _ (.store (.ackEvents _ ids)) ch a => if tookEffect ch a then ids else []
  | _ => []

def ackedIds (tr : List (Label (system ι))) : List String := tr.flatMap stepAcked

section Runs

variable {d : Deployment ι} {lease : Lease} {run : Nat} {w : World ι} {tr : List (Label (system ι))}
  {c : Config (system ι)} {o : Op ι} {ch : Choice ι} {a : Ans o} {w' w'' : World ι} {t : Nat}

theorem ackedIds_append (tr : List (Label (system ι))) (l : Label (system ι)) :
    ackedIds (tr ++ [l]) = ackedIds tr ++ stepAcked l := by
  simp [ackedIds]

/-- What a drain without rejections makes of the rows of `w`. -/
structure Untouched (w : World ι) (tr : List (Label (system ι))) (w' : World ι) : Prop where
  parked : w'.store.parked = w.store.parked
  rows : ∀ id row, w.store.outbox.get id = some row →
    id ∈ ackedIds tr ∨ w'.store.outbox.get id = some row

theorem Untouched.quiet (h : Untouched w tr w') (l : Label (system ι))
    (hparked : w''.store.parked = w'.store.parked) (hrows : w''.store.outbox = w'.store.outbox) :
    Untouched w (tr ++ [l]) w'' := by
  refine ⟨hparked.trans h.parked, ?_⟩
  intro id row hrow
  rw [ackedIds_append, hrows]
  exact (h.rows id row hrow).imp_left (List.mem_append_left _)

/-- A step that counts no attempt. -/
theorem Untouched.act (h : Untouched w tr w') (hdrain : DrainCall o) (hplain : ¬Penalizes o)
    (hw : perform o ch w' = some (a, w'')) : Untouched w (tr ++ [.act t o ch a]) w'' := by
  cases o with
  | store so =>
    have hdel : so ≠ .deleteKey := by
      rintro rfl
      exact hdrain
    have hmoved := performStore_moved hdel (perform_store hw)
    generalize heffect : tookEffect ch a = effect at hmoved
    generalize hrec : w''.store = rec at hmoved
    cases hmoved with
    | still hout hparked _ => exact h.quiet _ (hrec ▸ hparked) (hrec ▸ hout)
    | commit l b _ => exact hdrain.elim
    | record l id error next _ => exact (hplain trivial).elim
    | park l row _ => exact (hplain trivial).elim
    | retry ids => exact hdrain.elim
    | discard ids => exact hdrain.elim
    | ack l ids hold =>
      refine ⟨(congrArg KeyRecord.parked hrec).trans h.parked, ?_⟩
      intro id row hrow
      rw [ackedIds_append, hrec]
      rcases h.rows id row hrow with hacked | hget
      · exact Or.inl (List.mem_append_left _ hacked)
      · by_cases hmem : id ∈ ids
        · refine Or.inl (List.mem_append_right _ ?_)
          rw [show stepAcked (.act t (.store (.ackEvents l ids)) ch a) = ids from if_pos heffect]
          exact hmem
        · refine Or.inr ?_
          simpa [KeyRecord.ack, OrderedMap.get_eraseAll, hmem] using hget
  | _ =>
    have hrec : w''.store = w'.store := perform_other (fun so => by simp) hw
    exact h.quiet _ (congrArg KeyRecord.parked hrec) (congrArg KeyRecord.outbox hrec)

/-- Nobody has an error to deal with. -/
theorem calm_view {b : Bool} (hb : b = false) (hl : Lossless (.act t o ch a)) :
    afterRejection b o a = false := by
  cases o with
  | store so => cases so <;> first | exact hl | exact hb
  | deliver e => exact hl
  | _ => exact hb

/-- In a run of drains without rejections, only acknowledged rows change. -/
theorem untouched (h : Run (system ι) (d.drains lease run) w tr c)
    (hl : Throughout (fun _ l => Lossless l) tr) :
    Untouched w tr c.world ∧ ∀ b ∈ (penalized (ι := ι)).views tr, b = false := by
  refine Run.roles (penaltiesObeyed d lease run)
    (J := fun tr vs w' => Untouched w tr w' ∧ ∀ b ∈ vs, b = false) ?_ ?_ ?_ ?_ h hl
  · refine ⟨⟨rfl, fun id row hrow => Or.inr hrow⟩, ?_⟩
    intro b hb
    cases hb
  · intro tr c q _ _ hJ
    refine ⟨hJ.1.quiet _ rfl rfl, ?_⟩
    intro b hb
    obtain ⟨u, hu⟩ := List.mem_iff_getElem?.1 hb
    rcases step_start_cases hu with hold | ⟨-, rfl⟩
    · exact hJ.2 b (List.mem_of_getElem? hold)
    · rfl
  · intro tr c t o k ch a w' v hr hJ ht hv hallow hw hl
    have hcalm : v = false := hJ.2 v (List.mem_of_getElem? hv)
    have hdrain : DrainCall o := hr.allow (drainsObeyed d lease run) ht
    have hplain : ¬Penalizes o := by
      intro hpenalizes
      rw [hallow hpenalizes] at hcalm
      cases hcalm
    refine ⟨hJ.1.act hdrain hplain hw, ?_⟩
    intro b hb
    obtain ⟨u, hu⟩ := List.mem_iff_getElem?.1 hb
    rcases step_act_cases hu with ⟨v₀, rfl, hv₀, rfl⟩ | ⟨-, hold⟩ | ⟨-, rfl, -⟩
    · exact calm_view (hJ.2 v₀ (List.mem_of_getElem? hv₀)) hl
    · exact hJ.2 b (List.mem_of_getElem? hold)
    · rfl
  · intro tr c x _ hJ
    exact ⟨hJ.1.quiet _ rfl rfl, hJ.2⟩

end Runs

/-! ## Rejections of the consumer -/

section Consumer

variable {c : SubscribeConsumer ι} {s : Session ι} {p : Nat} {r : JsError}

theorem reject_settleInflight {ok : Bool} {reason : Option JsError}
    (h : .reject p r ∈ (c.settleInflight ok reason).2) : ok = false ∧ c.inflight.isSome ∧
      ∀ q ∈ reason, r = q := by
  unfold SubscribeConsumer.settleInflight at h
  split at h
  · cases h
  · rename_i f hinflight
    cases ok with
    | true => simp at h
    | false =>
      refine ⟨rfl, by rw [hinflight]; rfl, ?_⟩
      intro q hq
      obtain rfl := Option.mem_def.1 hq
      simpa using (Effect.reject.inj (List.mem_singleton.1 h)).2

theorem reject_pump : .reject p r ∉ c.pump.2 := by
  intro h
  unfold SubscribeConsumer.pump at h
  split at h <;> simp at h

/-- Closing rejects what is outstanding, for the reason it is given. -/
theorem reject_close {reason : Option JsError} (h : .reject p r ∈ (c.close reason).2) :
    c.outstanding ≠ [] ∧ ∀ q ∈ reason, r = q := by
  unfold SubscribeConsumer.close at h
  split at h
  · cases h
  · dsimp only at h
    rw [List.mem_append, List.mem_append] at h
    rcases h with (h | h) | h
    · obtain ⟨-, hsome, hreason⟩ := reject_settleInflight h
      refine ⟨?_, ?_⟩
      · intro hnil
        rw [SubscribeConsumer.outstanding, List.append_eq_nil_iff] at hnil
        rw [Option.toList_eq_nil_iff.1 hnil.1] at hsome
        cases hsome
      · intro q hq
        obtain rfl := Option.mem_def.1 hq
        exact hreason _ rfl
    · obtain ⟨f, hf, heq⟩ := List.mem_map.1 h
      rw [(settleInflight_queue _ _ _).1] at hf
      refine ⟨?_, ?_⟩
      · intro hnil
        rw [SubscribeConsumer.outstanding, List.append_eq_nil_iff] at hnil
        rw [hnil.2] at hf
        cases hf
      · intro q hq
        obtain rfl := Option.mem_def.1 hq
        exact (Effect.reject.inj heq).2.symm
    · simp at h

/-- `return()` resolves what is in flight and rejects the queue. -/
theorem reject_return (h : .reject p r ∈ (s.call .return_).2) : s.consumer.queue ≠ [] := by
  have hmem : .reject p r ∈ (s.consumer.settleInflight true none).2 ++
      (((s.consumer.settleInflight true none).1.close none).2 ++ [.finish s.pulls]) := by
    rw [← List.append_assoc]
    exact h
  rw [List.mem_append, List.mem_append] at hmem
  rcases hmem with hsettled | hclosed | hfinish
  · cases (reject_settleInflight hsettled).1
  · intro hnil
    refine (reject_close hclosed).1 ?_
    rw [SubscribeConsumer.outstanding, settleInflight_inflight, (settleInflight_queue _ _ _).1, hnil]
    rfl
  · simp at hfinish

theorem reject_next (h : .reject p r ∈ (s.call .next).2) : False := by
  simp only [Session.call, SubscribeConsumer.next] at h
  split at h
  · rcases List.mem_append.1 h with hsettled | hfinish
    · cases (reject_settleInflight hsettled).1
    · simp at hfinish
  · rcases List.mem_append.1 h with hsettled | hpump
    · cases (reject_settleInflight hsettled).1
    · exact reject_pump hpump

theorem reject_deliver {e : WatukuyEvent ι} (h : .reject p r ∈ (s.call (.deliver e)).2) :
    p = s.delivers ∧ s.consumer.closed = true ∧ ∀ q ∈ s.consumer.closeReason, r = q := by
  simp only [Session.call, SubscribeConsumer.deliver] at h
  split at h
  · rename_i hclosed
    obtain ⟨hown, rfl⟩ := Effect.reject.inj (List.mem_singleton.1 h)
    refine ⟨hown, hclosed, ?_⟩
    intro q hq
    rw [Option.mem_def.1 hq]
    rfl
  · exact (reject_pump h).elim

end Consumer

/-! ## The drains and the loop -/

/-- A step that closes the consumer finds nothing outstanding that it would reject, nothing is sent to
a closed consumer, and no acknowledgement fails: save for a lost lease, which ends the drain. -/
def ClosesIdle (s : Subscribed ι) : SubLabel ι → Prop
  | .send _ _ => s.session.consumer.closed = true →
    ∃ r ∈ s.session.consumer.closeReason, r.isLeaseLost = true
  | .ends _ how => how = .completes ∨ s.session.consumer.queue = []
  | .closes reason => s.session.consumer.outstanding = [] ∨ ∃ r ∈ reason, r.isLeaseLost = true
  | .sys (.act _ (.store (.ackEvents _ _)) _ a) => Rejected a = false
  | _ => True

section Idle

variable {d : Deployment ι} {lease : Lease} {run : Nat} {entry : Prog (Op ι) Ans Unit → Prop}
  {w : World ι} {tr : List (SubLabel ι)} {s s' : Subscribed ι} {l : SubLabel ι}

/-- The consumer rejects only with the loss of a lease. -/
def Unrejected (s : Subscribed ι) : Prop :=
  ∀ p r, .reject p r ∈ effectsOf s.log → r.isLeaseLost = true

theorem Unrejected.call (h : Unrejected s) {call : ConsumerCall ι}
    (hlog : s'.log = s.log ++ s.session.shows call)
    (hcall : ∀ p r, .reject p r ∈ (s.session.call call).2 → r.isLeaseLost = true) :
    Unrejected s' := by
  intro p r hr
  rw [hlog, effectsOf_append, effectsOf_shows] at hr
  rcases List.mem_append.1 hr with hold | hnew
  · exact h p r hold
  · exact hcall p r hnew

theorem Unrejected.step (h : Unrejected s) (hs : SubStep entry s l s') (hG : ClosesIdle s l) :
    Unrejected s' := by
  cases hs with
  | sys step settled => exact h
  | takes pulling answered => exact h
  | leaves pulling answered => exact h
  | send at_ free =>
    refine h.call rfl ?_
    intro p r hr
    obtain ⟨-, hclosed, hreason⟩ := reject_deliver hr
    obtain ⟨q, hq, hlost⟩ := hG hclosed
    rw [hreason q hq]
    exact hlost
  | begins fresh => exact h.call rfl fun p r hr => (reject_next hr).elim
  | completes body => exact h.call rfl fun p r hr => (reject_next hr).elim
  | abrupt body abrupt =>
    refine h.call rfl ?_
    intro p r hr
    rcases hG with hcompletes | hnil
    · exact absurd hcompletes abrupt
    · exact absurd hnil (reject_return hr)
  | closes reason =>
    refine h.call rfl ?_
    intro p r hr
    obtain ⟨hsome, hreason⟩ := reject_close hr
    rcases hG with hnil | ⟨q, hq, hlost⟩
    · exact absurd hnil hsome
    · rw [hreason q hq]
      exact hlost

/-- A consumer that was closed before it was used has rejected nothing. -/
theorem SubRun.unrejected (h : SubRun entry w ClosesIdle tr s) : Unrejected s := by
  induction h with
  | nil aborted =>
    intro p r hr
    cases hr
  | step h hs hG ih => exact ih.step hs hG

theorem SubRun.lossless (h : SubRun entry w ClosesIdle tr s) :
    Throughout (fun _ l => Lossless l) (sysSteps tr) := by
  induction h with
  | nil aborted => exact throughout_nil
  | @step tr l s s' h hs hG ih =>
    rw [sysSteps_append]
    cases hs with
    | @sys l c step settled =>
      refine throughout_snoc.2 ⟨ih, ?_⟩
      cases l with
      | act t o ch a =>
        cases o with
        | store so => cases so <;> exact hG
        | deliver e =>
          obtain ⟨p, -, hresult⟩ := settled t e ch a rfl
          cases a with
          | ok u => rfl
          | error r =>
            have hlost := h.unrejected p r (result_error hresult)
            simp [Lossless, Rejected, hlost]
        | _ => trivial
      | _ => trivial
    | _ =>
      simp only [SubLabel.sys?, Option.toList_none, List.append_nil]
      exact ih

/-- In every run of the drains under a lease and a loop over the subscription, from any outbox, in
which the steps that close the consumer find nothing to reject: no event is parked, and every row that
was not acknowledged is in the outbox as it was, with its attempts. -/
theorem closing_burns_nothing (h : SubRun (d.drains lease run) w ClosesIdle tr s) :
    (World.store (ι := ι) s.sys.world).parked = w.store.parked ∧
      ∀ id row, w.store.outbox.get id = some row → id ∈ ackedIds (sysSteps tr) ∨
        (World.store (ι := ι) s.sys.world).outbox.get id = some row := by
  have huntouched := (untouched h.system h.lossless).1
  exact ⟨huntouched.parked, huntouched.rows⟩

end Idle

/-! ## Sample runs -/

/-- Two events of the item `s` are pending. -/
def pendingWorld : World Sample where
  store :=
    { KeyRecord.fresh (sampleOf samplePoller).key with
      lease := some drainLease
      epochCounter := 1
      outbox := (OrderedMap.empty.set "1" (KeyRecord.retriedRow (sampleEvent "1" 1) 0)).set "2"
        (KeyRecord.retriedRow (sampleEvent "2" 2) 0) }
  runs := [{}]

/-- A drain of them. -/
def drainsThem : Cue Sample :=
  .start (drainOutbox (instanceOf (sampleOf samplePoller) true) drainLease 0).forget

theorem drainsThem_admitted : drainsThem.Admitted ((sampleOf samplePoller).drains drainLease 0) :=
  ⟨instanceOf (sampleOf samplePoller) true, instanceOf_in _ _, rfl⟩

/-- A check of `ClosesIdle`. -/
def closesIdle (s : Subscribed ι) : SubLabel ι → Bool
  | .send _ _ => !s.session.consumer.closed || s.session.consumer.closeReason.any (·.isLeaseLost)
  | .ends _ how => decide (how = .completes) || s.session.consumer.queue.isEmpty
  | .closes reason => s.session.consumer.outstanding.isEmpty || reason.any (·.isLeaseLost)
  | .sys (.act _ (.store (.ackEvents _ _)) _ a) => !Rejected a
  | _ => true

theorem closesIdle_sound (s : Subscribed ι) (l : SubLabel ι) (h : closesIdle s l = true) :
    ClosesIdle s l := by
  cases l with
  | send t e =>
    intro hclosed
    simpa [closesIdle, hclosed, Option.any_eq_true] using h
  | ends f how => simpa [closesIdle, ClosesIdle] using h
  | closes reason => simpa [closesIdle, ClosesIdle, Option.any_eq_true] using h
  | sys l =>
    cases l with
    | act t o ch a =>
      cases o with
      | store so =>
        cases so with
        | ackEvents lease ids => simpa [closesIdle, ClosesIdle] using h
        | _ => trivial
      | _ => trivial
    | _ => trivial
  | _ => trivial

/-- The loop breaks on the first event, when the drain has been aborted. -/
def brokenLoop : List (Cue Sample) :=
  [ drainsThem, .begins, .run 0 10 (calm 5 .finish), .run 1 10 (calm 5 .finish), .takes,
    .abort ⟨0, plainError "watukuy: engine stopped"⟩, .ends .breaks, .run 1 20 (calm 5 .finish) ]

set_option maxRecDepth 100000 in
theorem closing_burns_nothing_sample : ∃ tr s,
    SubRun ((sampleOf samplePoller).drains drainLease 0) pendingWorld ClosesIdle tr s ∧
    s.session.consumer.closed = true ∧ ackedIds (sysSteps tr) = ["1"] ∧
    (World.store (ι := Sample) s.sys.world).parked = pendingWorld.store.parked ∧
    ∀ id row, pendingWorld.store.outbox.get id = some row → id ∈ ackedIds (sysSteps tr) ∨
      (World.store (ι := Sample) s.sys.world).outbox.get id = some row := by
  obtain ⟨tr, s, hrun, hcheck⟩ := cues_run closesIdle pendingWorld none closesIdle_sound brokenLoop
    (List.forall_mem_cons.2 ⟨drainsThem_admitted, by simp [Cue.Admitted]⟩)
    (fun tr s => s.session.consumer.closed && decide (ackedIds (sysSteps tr) = ["1"]))
    (by decide +kernel)
  obtain ⟨hclosed, hacked⟩ := Bool.and_eq_true_iff.1 hcheck
  exact ⟨tr, s, hrun, hclosed, of_decide_eq_true hacked, closing_burns_nothing hrun⟩

/-- The subscription is closed while the first event is in flight. -/
def abortedLoop : List (Cue Sample) :=
  [ drainsThem, .begins, .run 0 10 (calm 5 .finish), .run 1 10 (calm 5 .finish), .takes,
    .closes (some (plainError "watukuy: engine stopped")), .run 1 20 (calm 5 .finish) ]

set_option maxRecDepth 100000 in
/-- With one attempt for a delivery, closing the subscription parks the event that is in flight. -/
theorem closing_parks : ∃ tr s,
    SubRun ((sampleOf samplePoller).drains drainLease 0) pendingWorld (fun _ _ => True) tr s ∧
    ackedIds (sysSteps tr) = [] ∧ pendingWorld.store.parked.get "1" = none ∧
    (pendingWorld.store.outbox.get "1").isSome = true ∧
    (World.store (ι := Sample) s.sys.world).outbox.get "1" = none ∧
    ((World.store (ι := Sample) s.sys.world).parked.get "1").isSome = true := by
  obtain ⟨tr, s, hrun, hcheck⟩ := cues_run (fun _ _ => true) pendingWorld none
    (fun _ _ _ => trivial) abortedLoop
    (List.forall_mem_cons.2 ⟨drainsThem_admitted, by simp [Cue.Admitted]⟩)
    (fun tr s => decide (ackedIds (sysSteps tr) = []) &&
      (((World.store (ι := Sample) s.sys.world).outbox.get "1").isNone &&
        ((World.store (ι := Sample) s.sys.world).parked.get "1").isSome))
    (by decide +kernel)
  obtain ⟨hacked, hmoved⟩ := Bool.and_eq_true_iff.1 hcheck
  obtain ⟨hout, hparked⟩ := Bool.and_eq_true_iff.1 hmoved
  exact ⟨tr, s, hrun, of_decide_eq_true hacked, rfl, rfl, Option.isNone_iff_eq_none.1 hout, hparked⟩

end Watukuy
