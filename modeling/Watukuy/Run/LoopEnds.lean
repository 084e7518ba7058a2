import Watukuy.Cycle.Workers
import Watukuy.Run.Conservation
import Watukuy.Run.Sessions

/-!
# What a loop acknowledges

An event is acknowledged when its delivery has resolved, and a delivery resolves when the loop ends
the body for its event while the delivery is in flight: the consumer cannot tell a `throw` from a
`break`. Where no body ends by a throw while its delivery is in flight, only events whose body ended
normally are acknowledged; and where the deliveries that reject have attempts left, all others stay
pending.
-/

set_option autoImplicit false

namespace Watukuy

open Library Task

variable {ι : Type}

/-! ## Parking -/

/-- A row is parked when its attempts are exhausted. -/
def Exhausting (d : Deployment ι) : Op ι → Prop
  | .store (.parkEvent _ row) => d.poller.delivery.retryAttempts ≤ row.attempts
  | .startRound deps _ _ _ _ => deps.In d
  | _ => True

section Parking

variable {d : Deployment ι} {deps : RunnerDeps ι} {lease : Lease} {run drain : Nat}

theorem exhausting_call {o : Op ι} (h : Exhausting d o) : (call o).Uses (Exhausting d) :=
  uses_request h _

theorem stopped_exhausting : (stopped run drain : Proc ι Bool).Uses (Exhausting d) := by
  have haborted : (aborted run : Proc ι Bool).Uses (Exhausting d) := by
    refine Uses.bind (exhausting_call trivial) ?_
    intro reason
    exact uses_pure _
  apply Uses.bind haborted
  intro b
  apply Uses.ite (uses_pure true)
  refine Uses.bind (exhausting_call trivial) ?_
  intro mem
  exact uses_pure _

theorem onDeliveryError_exhausting (hdeps : deps.In d) (group : String) (row : OutboxRow ι)
    (err : JsError) : (onDeliveryError deps lease drain group row err).Uses (Exhausting d) := by
  unfold onDeliveryError
  dsimp only
  split
  · rename_i hexhausted
    refine Uses.bind (exhausting_call trivial) ?_
    intro failedAt
    refine Uses.bind (exhausting_call trivial) ?_
    intro parkedAt
    refine Uses.bind (uses_request (o := Op.store (.parkEvent lease _)) ?_ _) ?_
    · rw [hdeps.poller] at hexhausted
      exact hexhausted
    · intro _
      refine Uses.bind (exhausting_call trivial) ?_
      intro _
      apply Uses.ite
      · exact Uses.bind (exhausting_call trivial) fun _ => uses_pure _
      · apply Uses.ite
        · exact Uses.bind (exhausting_call trivial) fun _ => uses_pure _
        · exact uses_pure _
  · refine Uses.bind (exhausting_call trivial) ?_
    intro draw
    refine Uses.bind (exhausting_call trivial) ?_
    intro failedAt
    refine Uses.bind (uses_request (o := Op.store (.recordAttempt lease _ _ _)) trivial _) ?_
    intro _
    refine Uses.bind (exhausting_call trivial) ?_
    intro _
    refine Uses.bind (exhausting_call trivial) ?_
    intro _
    exact Uses.bind (exhausting_call trivial) fun _ => uses_pure _

theorem deliverRow_exhausting (hdeps : deps.In d) (group : String) (row : OutboxRow ι) :
    (deliverRow deps lease drain group row).Uses (Exhausting d) := by
  refine Uses.bind (exhausting_call trivial) ?_
  intro startedAt
  split
  · refine Uses.bind (exhausting_call trivial) ?_
    intro _
    exact Uses.bind (exhausting_call trivial) fun _ => uses_pure _
  · have hdeliver : (deliverAndAck lease row).Uses (Exhausting d) := by
      refine Uses.bind (uses_request (o := Op.deliver _) trivial _) ?_
      intro _
      exact uses_request (o := Op.store (.ackEvents lease _)) trivial _
    apply Uses.bind (Uses.attempt hdeliver)
    intro r
    split
    · exact Uses.bind (exhausting_call trivial) fun _ => uses_pure _
    · exact Uses.ite (uses_throw _) (onDeliveryError_exhausting hdeps group row _)

theorem worker_exhausting (hdeps : deps.In d) (n : Nat) :
    (worker deps lease run drain n).Uses (Exhausting d) := by
  have hkept : WorkerKept (only (Exhausting d)) (fun _ => True) (fun _ => True) deps lease run drain := by
    have hstays : ∀ {α : Type} {m : Proc ι α}, m.Uses (Exhausting d) →
        m.Stays (only (Exhausting d)) fun _ => True :=
      fun hm => Uses.stays (fun _ _ _ ho => ⟨ho, fun _ => trivial⟩) hm
    refine ⟨?_, ?_, ?_, ?_⟩
    · intro v _
      exact ⟨trivial, fun _ => trivial⟩
    · intro v _
      trivial
    · intro v hv
      exact wp_mono (fun _ _ _ => ⟨trivial, fun _ => trivial⟩) (fun _ _ h => h)
        (hstays stopped_exhausting v hv)
    · intro group row v hv
      exact hstays (deliverRow_exhausting hdeps group row) v hv
  exact Stays.uses (hkept.worker n)

/-- The threads of the system, and the calls each of them makes. -/
@[reducible] def parking (d : Deployment ι) : Roles (system ι) where
  contract := only (Exhausting d)
  origin := ()
  seed _ _ := ()

/-- In every run, rows are parked when their attempts are exhausted. -/
theorem parkingObeyed (d : Deployment ι) (S : EngineCall → Prop) : (parking d).Obeyed (d.entry S) where
  entry_keeps p hp := by
    have hmain : Keeps (deliveries d).contract (.main {}) p := (rolesObeyed d S).entry_keeps p hp
    refine Prog.uses_of_wp (I := fun v => ∃ m, v = ThreadView.main m) ?_ ⟨{}, rfl⟩ hmain
    rintro v o ⟨m, rfl⟩ hallow
    refine ⟨?_, fun a => ⟨_, rfl⟩⟩
    cases o with
    | store so => cases so <;> first | exact hallow.elim | trivial
    | startRound deps l run i groups => exact hallow.1
    | _ => trivial
  forks_keep v o a hallow p hp := by
    cases o with
    | keeperStart deps run lease =>
      rw [List.mem_singleton.1 hp]
      refine Prog.uses_of_wp (I := fun v => v = ThreadView.keeper lease) ?_ rfl
        (heartbeat_role (d := d) deps run lease deps.fuel)
      rintro v o rfl hallow
      refine ⟨?_, fun a => rfl⟩
      cases o with
      | store so => cases so <;> first | exact hallow.elim | trivial
      | startRound deps l run i groups => exact hallow.elim
      | _ => trivial
    | startRound deps lease run drain groups =>
      rw [List.eq_of_mem_replicate hp]
      have hworker : (worker deps lease run drain (groups.length + 1)).Uses (Exhausting d) :=
        worker_exhausting (show deps.In d from hallow) (groups.length + 1)
      exact (Prog.wp_bind _ _ _ _).2
        (Prog.wp_mono (fun _ _ _ => ⟨trivial, fun _ => trivial⟩) hworker)
    | _ => simp [system, forks] at hp

end Parking

/-! ## Rows that are not delivered -/

/-- A delivery that rejects has attempts left. -/
def AttemptsLeft (d : Deployment ι) : Label (system ι) → Prop
  | .act _ (.deliver e) _ a =>
    match a with
    | .ok _ => True
    | .error _ => e.attempt < d.poller.delivery.retryAttempts
  | _ => True

/-- What was not delivered stays in the outbox. -/
structure Stayed (d : Deployment ι) (tr : List (Label (system ι))) (vs : List (ThreadView ι))
    (w : World ι) : Prop where
  /-- A row that failed was delivered before, or has attempts left. -/
  failed : ∀ (t : Nat) x, vs[t]? = some (.worker x) → x.stage = .failed → ∀ row ∈ x.rest.head?,
    row.eventId ∈ deliveredIds tr ∨ row.attempts + 1 < d.poller.delivery.retryAttempts
  rows : ∀ r ∈ committedRows tr, (w.store.outbox.get r.eventId).isSome ∨ r.eventId ∈ deliveredIds tr

section Stayed

variable {d : Deployment ι} {S : EngineCall → Prop} {tr : List (Label (system ι))}
  {vs : List (ThreadView ι)} {w w' : World ι} {t : Nat} {o : Op ι} {ch : Choice ι} {a : Ans o}

theorem delivered_mono {id : String} (l : Label (system ι)) (h : id ∈ deliveredIds tr) :
    id ∈ deliveredIds (tr ++ [l]) := by
  rw [deliveredIds_append]
  exact List.mem_append_left _ h

/-- A row has failed because it had before, or its delivery or its acknowledgement rejected. -/
theorem learn_failed {x : WorkerView ι} (h : (x.learn d o a).stage = .failed) :
    (x.learn d o a).rest = x.rest ∧ (x.stage = .failed ∨
      (∃ e, o = .deliver e ∧ ∀ (ch : Choice ι), AttemptsLeft d (.act t o ch a) →
        e.attempt < d.poller.delivery.retryAttempts) ∨
      ∃ l ids, o = .store (.ackEvents l ids)) := by
  cases o with
  | store so =>
    cases so with
    | ackEvents l ids =>
      cases a with
      | ok _ => cases h
      | error e => exact ⟨rfl, Or.inr (Or.inr ⟨l, ids, rfl⟩)⟩
    | recordAttempt l id error next =>
      cases a with
      | ok _ => cases h
      | error e => exact ⟨rfl, Or.inl h⟩
    | parkEvent l row =>
      cases a with
      | ok _ => cases h
      | error e => exact ⟨rfl, Or.inl h⟩
    | _ => exact ⟨rfl, Or.inl h⟩
  | shift i =>
    cases a with
    | some g => cases h
    | none => exact ⟨rfl, Or.inl h⟩
  | deliver e =>
    cases a with
    | ok _ => cases h
    | error err => exact ⟨rfl, Or.inr (Or.inl ⟨e, rfl, fun _ hleft => hleft⟩)⟩
  | noteDrain i note =>
    cases note with
    | parked =>
      simp only [WorkerView.learn, WorkerView.note] at h ⊢
      split at h
      · rename_i hhold
        rw [if_pos hhold]
        exact ⟨rfl, Or.inl h⟩
      · cases h
    | halted => cases h
    | block key => cases h
    | _ => exact ⟨rfl, Or.inl h⟩
  | _ => exact ⟨rfl, Or.inl h⟩

theorem Stayed.failed_act (h : Stayed d tr vs w) (hc : Conserved tr vs w) {v : ThreadView ι}
    (hv : vs[t]? = some v) (hallow : v.allow d o) (hleft : AttemptsLeft d (.act t o ch a)) :
    ∀ (u : Nat) x, ((deliveries d).step vs (.act t o ch a))[u]? = some (.worker x) →
      x.stage = .failed → ∀ row ∈ x.rest.head?,
        row.eventId ∈ deliveredIds (tr ++ [.act t o ch a]) ∨
          row.attempts + 1 < d.poller.delivery.retryAttempts := by
  intro u x hx hstage row hrow
  rcases step_act_cases hx with ⟨v₀, rfl, hv₀, heq⟩ | ⟨-, hold⟩ | ⟨-, heq, -⟩
  · obtain rfl : v₀ = v := Option.some.inj (hv₀.symm.trans hv)
    cases v₀ with
    | worker x₀ =>
      obtain rfl : x = x₀.learn d o a := ThreadView.worker.inj heq
      obtain ⟨hrest, hcases⟩ := learn_failed (t := u) hstage
      rw [hrest] at hrow
      rcases hcases with hstage | ⟨e, rfl, hattempt⟩ | ⟨l, ids, rfl⟩
      · exact (h.failed u x₀ hv hstage row hrow).imp_left (delivered_mono _)
      · obtain ⟨-, -, row', rest, hrest', rfl⟩ := hallow
        rw [hrest', List.head?_cons, Option.mem_some_iff] at hrow
        subst hrow
        exact Or.inr (hattempt ch hleft)
      · obtain ⟨-, -, hdelivered, -⟩ := hallow
        exact Or.inl (delivered_mono _ (hc.told u x₀ hv hdelivered row hrow))
    | main m => cases heq
    | keeper l => cases heq
  · exact (h.failed u x hold hstage row hrow).imp_left (delivered_mono _)
  · cases o <;> simp only [deliveries, forkView, reduceCtorEq] at heq
    obtain rfl := ThreadView.worker.inj heq
    cases hstage

theorem Stayed.rows_act (h : Stayed d tr vs w) (hc : Conserved tr vs w) (hdel : o ≠ .store .deleteKey)
    {v : ThreadView ι} (hv : vs[t]? = some v) (hallow : v.allow d o) (hexhausting : Exhausting d o)
    {u : CycleView ι} (hcycle : (cycleContract d (administers d S)).allow u o)
    (hw : perform o ch w = some (a, w')) :
    ∀ r ∈ committedRows (tr ++ [.act t o ch a]), (w'.store.outbox.get r.eventId).isSome ∨
      r.eventId ∈ deliveredIds (tr ++ [.act t o ch a]) := by
  intro r hr
  rw [committedRows_append] at hr
  cases hgone : w'.store.outbox.get r.eventId with
  | some row => exact Or.inl rfl
  | none =>
    right
    cases o with
    | store so =>
      have hmoved := performStore_moved (fun heq => hdel (congrArg Op.store heq)) (perform_store hw)
      have hso := call_filed hc.handled hv hallow hcycle
      rcases List.mem_append.1 hr with hr | hr
      · rcases h.rows r hr with hid | hdelivered
        · rcases hmoved.leaves hso hid hgone with ⟨l, ids, rfl, hmem⟩ | ⟨l, parked, rfl, hid, -⟩
          · exact delivered_mono _ (hc.acked hv hallow hmem)
          · -- the row that is parked has failed
            cases v with
            | worker x =>
              obtain ⟨-, -, hstage, row, rest, error, failedAt, parkedAt, hrest, rfl⟩ := hallow
              have hrow : row ∈ x.rest.head? := by simp [hrest]
              rcases h.failed t x hv hstage row hrow with hdelivered | hleft
              · rw [hid]
                exact delivered_mono _ hdelivered
              · have hdone : d.poller.delivery.retryAttempts ≤ row.attempts + 1 := hexhausting
                omega
            | main m => exact hallow.elim
            | keeper l => exact hallow.elim
        · exact delivered_mono _ hdelivered
      · -- a row of this step
        cases so with
        | commitPoll l b =>
          rcases performStore_commit (perform_store hw) with ⟨heffect, -, hrec⟩ | ⟨heffect, -, -⟩
          · rw [show stepRows (.act t (.store (.commitPoll l b)) ch a) = b.events from
              if_pos heffect] at hr
            have hsome : (w'.store.outbox.get r.eventId).isSome := by
              rw [hrec]
              simp only [KeyRecord.commit, OrderedMap.isSome_get_setAll]
              exact Or.inl (List.mem_map.2 ⟨r, hr, rfl⟩)
            rw [hgone] at hsome
            cases hsome
          · rw [show stepRows (.act t (.store (.commitPoll l b)) ch a) = [] from
              if_neg (by rw [heffect]; simp)] at hr
            cases hr
        | _ => cases hr
    | _ =>
      have hrec : w'.store = w.store := perform_other (fun so => by simp) hw
      rcases List.mem_append.1 hr with hr | hr
      · rw [hrec] at hgone
        refine delivered_mono _ ((h.rows r hr).resolve_left ?_)
        rw [hgone]
        rintro ⟨⟩
      · cases hr

theorem Stayed.quiet (h : Stayed d tr vs w) {l : Label (system ι)} {vs' : List (ThreadView ι)}
    (hrec : w'.store = w.store) (hrows : stepRows l = [])
    (hviews : ∀ (t : Nat) x, vs'[t]? = some (.worker x) → vs[t]? = some (.worker x)) :
    Stayed d (tr ++ [l]) vs' w' := by
  constructor
  · intro u x hx hstage row hrow
    exact (h.failed u x (hviews u x hx) hstage row hrow).imp_left (delivered_mono l)
  · intro r hr
    rw [committedRows_append, hrows, List.append_nil] at hr
    rw [hrec]
    exact (h.rows r hr).imp_right (delivered_mono l)

/-- Where the deliveries that reject have attempts left, what was not delivered stays pending. -/
theorem stayed (hS : ∀ call, S call → call.KeepsKey) {c : Config (system ι)}
    (h : Run (system ι) (d.entry S) (World.fresh d.key) tr c)
    (hleft : Throughout (fun _ l => AttemptsLeft d l) tr) :
    Stayed d tr ((deliveries d).views tr) c.world := by
  refine Run.roles (rolesObeyed d _) (J := Stayed d) ?_ ?_ ?_ ?_ h hleft
  · constructor
    · intro t x hx
      simp at hx
    · intro r hr
      cases hr
  · intro tr c q _ _ hJ
    refine hJ.quiet rfl rfl ?_
    intro t x hx
    rcases step_start_cases hx with hold | ⟨-, heq⟩
    · exact hold
    · cases heq
  · intro tr c t o k ch a w' v hr hJ ht hv hallow hw hl
    have hcycle := hr.allow (obeys d _) ht
    have hconserved := conserved hS hr
    have hdel : o ≠ .store .deleteKey := by
      rintro rfl
      exact allow_keepsKey hS hcycle
    obtain ⟨_, _, hexhausting⟩ := hr.mayCall (parkingObeyed d _) ht
    exact ⟨hJ.failed_act hconserved hv hallow hl,
      hJ.rows_act hconserved hdel hv hallow hexhausting hcycle hw⟩
  · intro tr c x _ hJ
    exact hJ.quiet rfl rfl fun _ _ hx => hx

end Stayed

/-! ## Bodies -/

/-- A body for the event ended in one of the ways `N`. -/
def EndedBy (N : BodyEnd → Prop) (tr : List (SubLabel ι)) (id : String) : Prop :=
  ∃ f how, .ends f how ∈ tr ∧ N how ∧ f.event.id = id

/-- Where `N` are the normal ends of a body: a body ends in another way only when no delivery is in
flight any more, and a delivery that rejects has attempts left. -/
def EndsApart (d : Deployment ι) (N : BodyEnd → Prop) (s : Subscribed ι) : SubLabel ι → Prop
  | .ends _ how => N how ∨ s.session.consumer.inflight = none
  | .sys l => AttemptsLeft d l
  | _ => True

section Ends

variable {d : Deployment ι} {N : BodyEnd → Prop} {entry : Prog (Op ι) Ans Unit → Prop} {w : World ι}
  {G : Subscribed ι → SubLabel ι → Prop} {tr : List (SubLabel ι)} {s s' : Subscribed ι} {l : SubLabel ι}

/-- What resolved did so when a body for it ended normally. -/
def Resolved (N : BodyEnd → Prop) (tr : List (SubLabel ι)) (log : List (Moment ι)) : Prop :=
  ∀ p, .resolve p ∈ effectsOf log →
    ∃ f how, .ends f how ∈ tr ∧ N how ∧ f.promise = p ∧ f ∈ handedBy (effectsOf log)

theorem Resolved.idle {log : List (Moment ι)} (h : Resolved N tr log) (l : SubLabel ι) :
    Resolved N (tr ++ [l]) log := by
  intro p hp
  obtain ⟨f, how, hended, hrest⟩ := h p hp
  exact ⟨f, how, List.mem_append_left _ hended, hrest⟩

/-- A call resolves the delivery in flight, if any. -/
theorem Resolved.call (h : Resolved N tr s.log) (call : ConsumerCall ι)
    (hends : call.Asks → ∀ f ∈ s.session.consumer.inflight, ∃ how, .ends f how ∈ tr ++ [l] ∧ N how ∧
      f ∈ handedBy (effectsOf s.log)) :
    Resolved N (tr ++ [l]) (s.log ++ s.session.shows call) := by
  intro p hp
  rw [effectsOf_append, effectsOf_shows, handedBy_append] at *
  rcases List.mem_append.1 hp with hold | hnew
  · obtain ⟨f, how, hended, hnormal, hpromise, hf⟩ := h p hold
    exact ⟨f, how, List.mem_append_left _ hended, hnormal, hpromise, List.mem_append_left _ hf⟩
  · obtain ⟨fx₁, fx₂, hfx⟩ := List.append_of_mem hnew
    obtain ⟨hasks, -, f, hf, hpromise⟩ := call_resolves hfx
    obtain ⟨how, hended, hnormal, hhanded⟩ := hends hasks f hf
    exact ⟨f, how, hended, hnormal, hpromise, List.mem_append_left _ hhanded⟩

/-- The delivery in flight is that of the body. -/
theorem Coupled.inflight_body (h : Coupled tr s) {f g : Pending ι} (hbody : s.loop = .body f)
    (hg : g ∈ s.session.consumer.inflight) : g = f ∧ g ∈ handedBy (effectsOf s.log) := by
  have hhas := h.flying g hg
  refine ⟨?_, h.body g hhas⟩
  rcases hhas with hbody' | ⟨n, hpulling, -⟩
  · exact Loop.body.inj (hbody'.symm.trans hbody)
  · rw [hbody] at hpulling
    cases hpulling

theorem Resolved.step (h : Resolved N tr s.log) (hc : Coupled tr s) (hN : N .completes)
    (hs : SubStep entry s l s') (hG : EndsApart d N s l) : Resolved N (tr ++ [l]) s'.log := by
  have hlast : l ∈ tr ++ [l] := List.mem_append_right _ (List.mem_singleton_self l)
  cases hs with
  | sys step settled => exact h.idle _
  | takes pulling answered => exact h.idle _
  | leaves pulling answered => exact h.idle _
  | send at_ free => exact h.call _ fun hasks => hasks.elim
  | closes reason => exact h.call _ fun hasks => hasks.elim
  | begins fresh =>
    refine h.call _ ?_
    intro _ f hf
    -- nothing is in flight before the first pull
    rcases hc.flying f hf with hbody | ⟨n, hpulling, -⟩
    · rw [fresh] at hbody
      cases hbody
    · rw [fresh] at hpulling
      cases hpulling
  | @completes f body =>
    refine h.call _ ?_
    intro _ g hg
    obtain ⟨rfl, hhanded⟩ := hc.inflight_body body hg
    exact ⟨.completes, hlast, hN, hhanded⟩
  | @abrupt f how body abrupt =>
    refine h.call _ ?_
    intro _ g hg
    obtain ⟨rfl, hhanded⟩ := hc.inflight_body body hg
    rcases hG with hnormal | hnone
    · exact ⟨how, hlast, hnormal, hhanded⟩
    · rw [hnone] at hg
      cases hg

theorem SubRun.resolved (hN : N .completes) (h : SubRun entry w (EndsApart d N) tr s) :
    Resolved N tr s.log := by
  induction h with
  | nil aborted =>
    intro p hp
    cases hp
  | step h hs hG ih => exact ih.step h.coupled hN hs hG

/-- The event that is delivered is that of the thread's call. -/
theorem deliver_event {c c' : Config (system ι)} {t : Nat} {e e' : WatukuyEvent ι} {ch : Choice ι}
    {a : Ans (.deliver e : Op ι)} {k : Ans (.deliver e' : Op ι) → Prog (Op ι) Ans Unit}
    (h : Step (system ι) entry c (.act t (.deliver e) ch a) c')
    (ht : c.threads[t]? = some (.call (.deliver e') k)) : e' = e := by
  cases h with
  | act ht' hw =>
    obtain ⟨heq, -⟩ := Prog.call.inj (Option.some.inj (ht.symm.trans ht'))
    exact Op.deliver.inj heq

/-- What was delivered has a body that ended normally. -/
theorem SubRun.delivered (hN : N .completes) (h : SubRun entry w (EndsApart d N) tr s) :
    ∀ id ∈ deliveredIds (sysSteps tr), EndedBy N tr id := by
  induction h with
  | nil aborted =>
    intro id hid
    cases hid
  | @step tr l s s' h hs hG ih =>
    intro id hid
    have hmono : EndedBy N tr id → EndedBy N (tr ++ [l]) id := by
      rintro ⟨f, how, hended, hrest⟩
      exact ⟨f, how, List.mem_append_left _ hended, hrest⟩
    rw [sysSteps_append] at hid
    cases hs with
    | @sys l c step settled =>
      rw [show (SubLabel.sys l).sys?.toList = [l] from rfl, deliveredIds_append] at hid
      rcases List.mem_append.1 hid with hold | hnew
      · exact hmono (ih id hold)
      · obtain ⟨t, e, ch, rfl, rfl⟩ := delivered_by hnew
        have hcoupled := h.coupled
        obtain ⟨p, hwaiting, hresult⟩ := settled t e ch (.ok ()) rfl
        -- the promise that resolved is that of a body that ended normally, and its event is `e`
        obtain ⟨f, how, hended, hnormal, hpromise, hhanded⟩ :=
          h.resolved hN p (result_ok hresult)
        obtain ⟨e', k, hthread, he'⟩ := hcoupled.waits t p hwaiting
        have hevent := hcoupled.sound.events f (List.mem_append_left _ hhanded)
        rw [hpromise, he'] at hevent
        refine ⟨f, how, List.mem_append_left _ hended, hnormal, ?_⟩
        rw [← Option.some.inj hevent, deliver_event step hthread]
    | _ =>
      simp only [SubLabel.sys?, Option.toList_none, List.append_nil] at hid
      exact hmono (ih id hid)

theorem SubRun.attemptsLeft (h : SubRun entry w (EndsApart d N) tr s) :
    Throughout (fun _ l => AttemptsLeft d l) (sysSteps tr) := by
  induction h with
  | nil aborted => exact throughout_nil
  | step h hs hG ih =>
    rw [sysSteps_append]
    cases hs with
    | sys step settled => exact throughout_snoc.2 ⟨ih, hG⟩
    | _ =>
      simp only [SubLabel.sys?, Option.toList_none, List.append_nil]
      exact ih

/-- In every run of the system and a loop over the subscription in which a body ends otherwise than
by `N` only when no delivery is in flight any more, and in which the deliveries that reject have
attempts left: an event is acknowledged only when a body for it has ended by `N`, and until then it
is pending. -/
theorem acked_after_body (hN : N .completes)
    (h : SubRun (d.entry EngineCall.KeepsKey) (World.fresh d.key) (EndsApart d N) tr s) :
    (∀ (t : Nat) l ids k,
      s.sys.threads[t]? = some (Prog.call (Op.store (StoreOp.ackEvents l ids)) k) →
        ∀ id ∈ ids, EndedBy N tr id) ∧
      ∀ r ∈ committedRows (sysSteps tr), EndedBy N tr r.eventId ∨
        ∃ row, (World.store (ι := ι) s.sys.world).outbox.get r.eventId = some row ∧
          row.status = .pending := by
  have hrun := h.system
  have hconserved := conserved (fun _ hcall => hcall) hrun
  have hstayed := stayed (fun _ hcall => hcall) hrun h.attemptsLeft
  constructor
  · intro t l ids k ht id hid
    obtain ⟨v, hv, hallow⟩ := hrun.mayCall (rolesObeyed d _) ht
    exact h.delivered hN id (hconserved.acked hv hallow hid)
  · intro r hr
    rcases hstayed.rows r hr with hout | hdelivered
    · obtain ⟨row, hget⟩ := Option.isSome_iff_exists.1 hout
      exact Or.inr ⟨row, hget, (hconserved.filed.outbox _ row hget).2.status⟩
    · exact Or.inl (h.delivered hN _ hdelivered)

end Ends

/-! ## Sample runs -/

/-- A check of `EndsApart`, where a throw is the only end that is not normal. -/
def thrownApart (d : Deployment ι) (s : Subscribed ι) : SubLabel ι → Bool
  | .ends _ how => decide (how ≠ .throws) || s.session.consumer.inflight.isNone
  | .sys (.act _ (.deliver e) _ (.error _)) => decide (e.attempt < d.poller.delivery.retryAttempts)
  | _ => true

theorem thrownApart_sound (d : Deployment ι) (s : Subscribed ι) (l : SubLabel ι)
    (h : thrownApart d s l = true) : EndsApart d (· ≠ .throws) s l := by
  cases l with
  | ends f how => simpa [thrownApart, EndsApart] using h
  | sys l =>
    cases l with
    | act t o ch a =>
      cases o with
      | deliver e =>
        cases a with
        | ok u => trivial
        | error err =>
          have hleft : e.attempt < d.poller.delivery.retryAttempts := of_decide_eq_true h
          exact hleft
      | _ => trivial
    | _ => trivial
  | _ => trivial

/-- Three attempts for a delivery. -/
def patientPoller : ResolvedPoller Sample :=
  { samplePoller with delivery := { samplePoller.delivery with retryAttempts := 3 } }

/-- The loop completes its body for `a`. The subscription is closed while the event of `b` is in
flight; then the body throws. -/
def closedLoop : List (Cue Sample) :=
  [ polls (sampleOf patientPoller), .begins,
    .run 0 60 (calm 5 (onePage [("a", "1"), ("b", "1")])), .run 2 60 (calm 5 .finish),
    .takes, .ends .completes, .run 2 60 (calm 5 .finish),
    .takes, .closes none, .ends .throws, .run 2 60 (calm 5 .finish) ]

set_option maxRecDepth 100000 in
theorem acked_after_body_sample : ∃ tr s,
    SubRun ((sampleOf patientPoller).entry EngineCall.KeepsKey) (World.fresh (sampleOf patientPoller).key)
      (EndsApart (sampleOf patientPoller) (· ≠ .throws)) tr s ∧
    (committedRows (sysSteps tr)).map (·.event.subject) = ["a", "b"] ∧
    (deliveredIds (sysSteps tr)).length = 1 ∧
    ∀ r ∈ committedRows (sysSteps tr), EndedBy (· ≠ .throws) tr r.eventId ∨
      ∃ row, (World.store (ι := Sample) s.sys.world).outbox.get r.eventId = some row ∧
        row.status = .pending := by
  obtain ⟨tr, s, hrun, hcheck⟩ := cues_run (thrownApart (sampleOf patientPoller))
    (World.fresh (sampleOf patientPoller).key) none (thrownApart_sound _) closedLoop
    (List.forall_mem_cons.2 ⟨polls_admitted _, by simp [Cue.Admitted]⟩)
    (fun tr _ => decide ((committedRows (sysSteps tr)).map (·.event.subject) = ["a", "b"] ∧
      (deliveredIds (sysSteps tr)).length = 1))
    (by decide +kernel)
  obtain ⟨hrows, hdelivered⟩ := of_decide_eq_true hcheck
  exact ⟨tr, s, hrun, hrows, hdelivered, (acked_after_body nofun hrun).2⟩

/-- The body for the event of `a` throws while it is in flight. -/
def thrownLoop : List (Cue Sample) :=
  [ polls (sampleOf samplePoller), .begins, .run 0 60 (calm 5 (onePage [("a", "1")])),
    .run 2 60 (calm 5 .finish), .takes, .ends .throws, .run 2 60 (calm 5 .finish) ]

/-- Every body ended by a throw. -/
def onlyThrows (tr : List (SubLabel ι)) : Bool :=
  tr.all fun l =>
    match l with
    | .ends _ how => decide (how = .throws)
    | _ => true

theorem not_endedBy {tr : List (SubLabel ι)} (h : onlyThrows tr = true) (id : String) :
    ¬EndedBy (· ≠ .throws) tr id := by
  rintro ⟨f, how, hended, hnormal, -⟩
  exact hnormal (of_decide_eq_true (List.all_eq_true.1 h _ hended))

/-- A body for the event threw. -/
def threwFor (id : String) (tr : List (SubLabel ι)) : Bool :=
  tr.any fun l =>
    match l with
    | .ends f .throws => decide (f.event.id = id)
    | _ => false

theorem endedBy_threw {tr : List (SubLabel ι)} {id : String} (h : threwFor id tr = true) :
    EndedBy (· = .throws) tr id := by
  obtain ⟨l, hl, hthrew⟩ := List.any_eq_true.1 h
  split at hthrew
  · exact ⟨_, .throws, hl, rfl, of_decide_eq_true hthrew⟩
  · cases hthrew

set_option maxRecDepth 100000 in
/-- An event whose body threw is acknowledged: it is neither pending nor parked. -/
theorem thrown_body_acked : ∃ tr s,
    SubRun ((sampleOf samplePoller).entry EngineCall.KeepsKey) (World.fresh (sampleOf samplePoller).key)
      (fun _ _ => True) tr s ∧
    ∃ r ∈ committedRows (sysSteps tr), EndedBy (· = .throws) tr r.eventId ∧
      ¬EndedBy (· ≠ .throws) tr r.eventId ∧
      (World.store (ι := Sample) s.sys.world).outbox.get r.eventId = none ∧
      (World.store (ι := Sample) s.sys.world).parked.get r.eventId = none := by
  obtain ⟨tr, s, hrun, hcheck⟩ := cues_run (fun _ _ => true)
    (World.fresh (sampleOf samplePoller).key) none (fun _ _ _ => trivial) thrownLoop
    (List.forall_mem_cons.2 ⟨polls_admitted _, by simp [Cue.Admitted]⟩)
    (fun tr s => onlyThrows tr && ((committedRows (sysSteps tr)).any fun r =>
      threwFor r.eventId tr && (((World.store (ι := Sample) s.sys.world).outbox.get r.eventId).isNone &&
        ((World.store (ι := Sample) s.sys.world).parked.get r.eventId).isNone)))
    (by decide +kernel)
  obtain ⟨hthrows, hgone⟩ := Bool.and_eq_true_iff.1 hcheck
  obtain ⟨r, hr, hcheck⟩ := List.any_eq_true.1 hgone
  obtain ⟨hthrew, hnone⟩ := Bool.and_eq_true_iff.1 hcheck
  obtain ⟨hout, hparked⟩ := Bool.and_eq_true_iff.1 hnone
  exact ⟨tr, s, hrun, r, hr, endedBy_threw hthrew, not_endedBy hthrows _, Option.isNone_iff_eq_none.1 hout,
    Option.isNone_iff_eq_none.1 hparked⟩

end Watukuy
