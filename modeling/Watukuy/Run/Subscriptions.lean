import Watukuy.Core.Consumers
import Mathlib.Data.List.Perm.Basic
import Mathlib.Data.List.Perm.Subperm
import Mathlib.Data.List.Nodup
import Mathlib.Data.List.Range

/-!
# The protocol of a subscription

A delivery that is outstanding waits in the queue or is in flight. Each method settles some of the
outstanding promises and hands out events from the front of the queue (`Moves`). So over a whole
session (`Sound`) every promise is settled once or outstanding, and the events go out in the order of
their deliveries. `subscription_protocol` assembles what a session shows.
-/

set_option autoImplicit false

namespace Watukuy

variable {ι : Type}

/-! ## What effects show -/

def Effect.settled : Effect ι → Option Nat
  | .resolve promise => some promise
  | .reject promise _ => some promise
  | _ => none

def Effect.handed : Effect ι → Option (Pending ι)
  | .hand _ pending => some pending
  | _ => none

def Effect.resolved : Effect ι → Option Nat
  | .resolve promise => some promise
  | _ => none

/-- The promises of deliveries that are settled, in order. -/
def settledBy (fx : List (Effect ι)) : List Nat := fx.filterMap Effect.settled

/-- The deliveries whose events are handed out, in order. -/
def handedBy (fx : List (Effect ι)) : List (Pending ι) := fx.filterMap Effect.handed

section Effects

variable {fx fx' : List (Effect ι)}

@[simp] theorem settledBy_nil : settledBy ([] : List (Effect ι)) = [] := rfl

@[simp] theorem handedBy_nil : handedBy ([] : List (Effect ι)) = [] := rfl

@[simp] theorem settledBy_append : settledBy (fx ++ fx') = settledBy fx ++ settledBy fx' :=
  List.filterMap_append

@[simp] theorem handedBy_append : handedBy (fx ++ fx') = handedBy fx ++ handedBy fx' :=
  List.filterMap_append

@[simp] theorem settledBy_singleton (e : Effect ι) : settledBy [e] = e.settled.toList := by
  cases e <;> rfl

@[simp] theorem handedBy_singleton (e : Effect ι) : handedBy [e] = e.handed.toList := by
  cases e <;> rfl

@[simp] theorem settledBy_finish (pulls : List Nat) :
    settledBy (pulls.map (.finish : Nat → Effect ι)) = [] := by
  induction pulls with
  | nil => rfl
  | cons pull pulls ih => exact ih

@[simp] theorem handedBy_finish (pulls : List Nat) :
    handedBy (pulls.map (.finish : Nat → Effect ι)) = [] := by
  induction pulls with
  | nil => rfl
  | cons pull pulls ih => exact ih

theorem settledBy_reject (ps : List (Pending ι)) (reason : JsError) :
    settledBy (ps.map fun p => (.reject p.promise reason : Effect ι)) = ps.map (·.promise) := by
  induction ps with
  | nil => rfl
  | cons p ps ih => exact congrArg (List.cons p.promise) ih

theorem handedBy_reject (ps : List (Pending ι)) (reason : JsError) :
    handedBy (ps.map fun p => (.reject p.promise reason : Effect ι)) = [] := by
  induction ps with
  | nil => rfl
  | cons p ps ih => exact ih

end Effects

/-! ## One method -/

namespace SubscribeConsumer

/-- The deliveries that are outstanding. -/
def outstanding (c : SubscribeConsumer ι) : List (Pending ι) := c.inflight.toList ++ c.queue

def promises (c : SubscribeConsumer ι) : List Nat := c.outstanding.map (·.promise)

end SubscribeConsumer

/-- What a method makes of the outstanding deliveries. -/
structure Moves (c c' : SubscribeConsumer ι) (fx : List (Effect ι)) : Prop where
  settled : (settledBy fx ++ c'.promises).Perm c.promises
  line : List.Sublist (handedBy fx ++ c'.queue) c.queue
  inflight : ∀ f ∈ c'.inflight, f ∈ c.inflight ∨ f ∈ handedBy fx
  closed : c.closed = true → c'.closed = true

section Methods

variable {c c' c'' : SubscribeConsumer ι} {fx fx' : List (Effect ι)}

theorem Moves.refl (c : SubscribeConsumer ι) : Moves c c [] :=
  ⟨List.Perm.refl _, List.Sublist.refl _, fun _ hf => Or.inl hf, id⟩

theorem Moves.trans (h : Moves c c' fx) (h' : Moves c' c'' fx') : Moves c c'' (fx ++ fx') := by
  refine ⟨?_, ?_, ?_, fun hc => h'.closed (h.closed hc)⟩
  · rw [settledBy_append, List.append_assoc]
    exact (h'.settled.append_left _).trans h.settled
  · rw [handedBy_append, List.append_assoc]
    exact (h'.line.append_left _).trans h.line
  · intro f hf
    rw [handedBy_append, List.mem_append]
    rcases h'.inflight f hf with hold | hnew
    · exact (h.inflight f hold).imp_right Or.inl
    · exact Or.inr (Or.inr hnew)

/-- Pulls that are finished settle no delivery. -/
theorem Moves.finish (h : Moves c c' fx) (pulls : List Nat) : Moves c c' (fx ++ pulls.map .finish) := by
  refine ⟨?_, ?_, ?_, h.closed⟩
  · simpa using h.settled
  · simpa using h.line
  · simpa using h.inflight

theorem moves_pump (c : SubscribeConsumer ι) : Moves c c.pump.1 c.pump.2 := by
  unfold SubscribeConsumer.pump
  split
  · rename_i puller next rest hpuller hinflight hqueue
    refine ⟨?_, ?_, ?_, id⟩
    · simp [SubscribeConsumer.promises, SubscribeConsumer.outstanding, Effect.settled, hinflight,
        hqueue]
    · simp [Effect.handed, hqueue]
    · intro f hf
      exact Or.inr (List.mem_singleton.2 (Option.some.inj hf).symm)
  · exact Moves.refl c

theorem moves_settleInflight (c : SubscribeConsumer ι) (ok : Bool) (reason : Option JsError) :
    Moves c (c.settleInflight ok reason).1 (c.settleInflight ok reason).2 := by
  unfold SubscribeConsumer.settleInflight
  split
  · exact Moves.refl c
  · rename_i f hinflight
    refine ⟨?_, ?_, ?_, id⟩
    · cases ok <;> simp [SubscribeConsumer.promises, SubscribeConsumer.outstanding,
        Effect.settled, hinflight]
    · cases ok <;> simp [Effect.handed]
    · intro f' hf'
      cases hf'

theorem settleInflight_inflight (c : SubscribeConsumer ι) (ok : Bool) (reason : Option JsError) :
    (c.settleInflight ok reason).1.inflight = none := by
  unfold SubscribeConsumer.settleInflight
  split
  · assumption
  · rfl

theorem settleInflight_queue (c : SubscribeConsumer ι) (ok : Bool) (reason : Option JsError) :
    (c.settleInflight ok reason).1.queue = c.queue ∧
      (c.settleInflight ok reason).1.puller = c.puller ∧
      (c.settleInflight ok reason).1.closed = c.closed := by
  unfold SubscribeConsumer.settleInflight
  split <;> exact ⟨rfl, rfl, rfl⟩

/-- A closed consumer has nothing outstanding. -/
def SubscribeConsumer.Shut (c : SubscribeConsumer ι) : Prop :=
  c.closed = true ∧ c.outstanding = []

theorem moves_close (c : SubscribeConsumer ι) (reason : Option JsError) :
    Moves c (c.close reason).1 (c.close reason).2 := by
  unfold SubscribeConsumer.close
  split
  · exact Moves.refl c
  · dsimp only
    refine Moves.finish (@Moves.trans _ _ ({ c with closed := true, closeReason := reason }.settleInflight
      false (some (reason.getD (plainError "subscriber closed while event in flight")))).1 _ _ _ ?_ ?_) _
    · have hsettle := moves_settleInflight { c with closed := true, closeReason := reason } false
        (some (reason.getD (plainError "subscriber closed while event in flight")))
      exact ⟨hsettle.settled, hsettle.line, hsettle.inflight, fun _ => hsettle.closed rfl⟩
    · -- the queue is rejected, and nothing is left in flight
      have hnone := settleInflight_inflight { c with closed := true, closeReason := reason } false
        (some (reason.getD (plainError "subscriber closed while event in flight")))
      generalize ({ c with closed := true, closeReason := reason }.settleInflight false
        (some (reason.getD (plainError "subscriber closed while event in flight")))).1 = c₁ at hnone ⊢
      refine ⟨?_, ?_, fun f hf => Or.inl hf, id⟩
      · simp [SubscribeConsumer.promises, SubscribeConsumer.outstanding, settledBy_reject, hnone]
      · simp [handedBy_reject]

theorem close_shut (c : SubscribeConsumer ι) (hc : c.closed = true → c.outstanding = [])
    (reason : Option JsError) : (c.close reason).1.Shut := by
  unfold SubscribeConsumer.close
  split
  · rename_i hclosed
    exact ⟨hclosed, hc hclosed⟩
  · dsimp only
    constructor
    · exact (settleInflight_queue _ _ _).2.2
    · simp [SubscribeConsumer.outstanding, settleInflight_inflight]

theorem pump_closed (c : SubscribeConsumer ι) : c.pump.1.closed = c.closed := by
  unfold SubscribeConsumer.pump
  split <;> rfl

theorem resolved_pump (c : SubscribeConsumer ι) : c.pump.2.filterMap Effect.resolved = [] := by
  unfold SubscribeConsumer.pump
  split <;> rfl

theorem resolved_close (c : SubscribeConsumer ι) (reason : Option JsError) :
    (c.close reason).2.filterMap Effect.resolved = [] := by
  have hdropped : ∀ (ps : List (Pending ι)) (r : JsError),
      (ps.map fun p => (.reject p.promise r : Effect ι)).filterMap Effect.resolved = [] := by
    intro ps r
    induction ps with
    | nil => rfl
    | cons p ps ih => exact ih
  unfold SubscribeConsumer.close
  split
  · rfl
  · dsimp only
    rw [List.filterMap_append, List.filterMap_append, hdropped, List.append_nil]
    unfold SubscribeConsumer.settleInflight
    cases c.puller <;> split <;> rfl

end Methods

/-! ## One call -/

/-- The delivery a call brings. -/
def Session.arrived (s : Session ι) : ConsumerCall ι → List (Pending ι)
  | .deliver event => [{ event, promise := s.delivers }]
  | _ => []

/-- The calls that ask for the next event, or leave the loop normally. -/
def ConsumerCall.Asks : ConsumerCall ι → Prop
  | .next => True
  | .return_ => True
  | _ => False

/-- The calls that close the consumer. -/
def ConsumerCall.Closes : ConsumerCall ι → Prop
  | .deliver _ => False
  | .next => False
  | _ => True

section Calls

variable {s : Session ι}

/-- What was outstanding or arrives is settled, or still outstanding. -/
theorem call_moves (s : Session ι) (call : ConsumerCall ι) :
    Moves { s.consumer with queue := s.consumer.queue ++ s.arrived call } (s.call call).1.consumer
      (s.call call).2 := by
  have hquiet : ∀ c' fx, s.arrived call = [] → Moves s.consumer c' fx →
      Moves { s.consumer with queue := s.consumer.queue ++ s.arrived call } c' fx := by
    intro c' fx hnone h
    rw [hnone, List.append_nil]
    exact h
  cases call with
  | deliver event =>
    simp only [Session.call, Session.arrived]
    unfold SubscribeConsumer.deliver
    split
    · refine ⟨?_, ?_, fun f hf => Or.inl hf, id⟩
      · have hperm := (List.perm_append_singleton s.delivers s.consumer.promises).symm
        simpa [SubscribeConsumer.promises, SubscribeConsumer.outstanding, Effect.settled] using hperm
      · simp [Effect.handed]
    · exact moves_pump _
  | next =>
    refine hquiet _ _ rfl ?_
    simp only [Session.call]
    unfold SubscribeConsumer.next
    have hsettle := moves_settleInflight s.consumer true none
    dsimp only
    split
    · simpa using hsettle.finish [s.pulls]
    · refine hsettle.trans ?_
      have hpump := moves_pump
        { (s.consumer.settleInflight true none).1 with puller := some s.pulls }
      exact ⟨hpump.settled, hpump.line, hpump.inflight, hpump.closed⟩
  | return_ =>
    have hsettle := moves_settleInflight s.consumer true none
    exact hquiet _ _ rfl ((hsettle.trans (moves_close _ none)).finish [s.pulls])
  | throw_ err =>
    have hsettle := moves_settleInflight s.consumer false err
    exact hquiet _ _ rfl ((hsettle.trans (moves_close _ err)).finish [s.pulls])
  | close reason => exact hquiet _ _ rfl (moves_close _ reason)
  | abort reason => exact hquiet _ _ rfl (moves_close _ reason)

theorem settleInflight_shut {c : SubscribeConsumer ι} (h : c.closed = true → c.outstanding = [])
    (ok : Bool) (reason : Option JsError) (hclosed : (c.settleInflight ok reason).1.closed = true) :
    (c.settleInflight ok reason).1.outstanding = [] := by
  obtain ⟨hqueue, -, hsame⟩ := settleInflight_queue c ok reason
  have hempty := h (hsame ▸ hclosed)
  simp only [SubscribeConsumer.outstanding, List.append_eq_nil_iff] at hempty ⊢
  rw [settleInflight_inflight, hqueue]
  exact ⟨rfl, hempty.2⟩

/-- A closed consumer stays without outstanding deliveries. -/
theorem call_shut (h : s.consumer.closed = true → s.consumer.outstanding = [])
    (call : ConsumerCall ι) :
    (s.call call).1.consumer.closed = true → (s.call call).1.consumer.outstanding = [] := by
  have hsettled := settleInflight_shut h
  cases call with
  | deliver event =>
    simp only [Session.call]
    unfold SubscribeConsumer.deliver
    split
    · exact h
    · rename_i hopen
      intro hclosed
      rw [pump_closed] at hclosed
      exact absurd hclosed hopen
  | next =>
    simp only [Session.call]
    unfold SubscribeConsumer.next
    dsimp only
    split
    · exact hsettled true none
    · rename_i hopen
      intro hclosed
      rw [pump_closed] at hclosed
      exact absurd hclosed hopen
  | return_ => exact fun _ => (close_shut _ (hsettled true none) none).2
  | throw_ err => exact fun _ => (close_shut _ (hsettled false err) err).2
  | close reason => exact fun _ => (close_shut _ h reason).2
  | abort reason => exact fun _ => (close_shut _ h reason).2

theorem call_closes (h : s.consumer.closed = true → s.consumer.outstanding = [])
    (call : ConsumerCall ι) (hcall : call.Closes) : (s.call call).1.consumer.Shut := by
  have hsettled := settleInflight_shut h
  cases call with
  | deliver event => exact hcall.elim
  | next => exact hcall.elim
  | return_ => exact close_shut _ (hsettled true none) none
  | throw_ err => exact close_shut _ (hsettled false err) err
  | close reason => exact close_shut _ h reason
  | abort reason => exact close_shut _ h reason

theorem not_resolved {fx fx₁ fx₂ : List (Effect ι)} {p : Nat} (h : fx.filterMap Effect.resolved = [])
    (heq : fx = fx₁ ++ .resolve p :: fx₂) : False := by
  rw [heq, List.filterMap_append, List.append_eq_nil_iff] at h
  cases h.2

/-- What is in flight settles first. -/
theorem settled_first {c : SubscribeConsumer ι} {rest fx₁ fx₂ : List (Effect ι)} {p : Nat}
    (h : (c.settleInflight true none).2 ++ rest = fx₁ ++ .resolve p :: fx₂)
    (hrest : rest.filterMap Effect.resolved = []) : fx₁ = [] ∧ ∃ f ∈ c.inflight, f.promise = p := by
  unfold SubscribeConsumer.settleInflight at h
  split at h
  · exact (not_resolved hrest h).elim
  · rename_i f hinflight
    cases fx₁ with
    | nil =>
      obtain ⟨hp, -⟩ := List.cons.inj h
      exact ⟨rfl, f, hinflight, Effect.resolve.inj hp⟩
    | cons e fx₁ => exact (not_resolved hrest (List.cons.inj h).2).elim

/-- Only `next` and `return` resolve a delivery: the one in flight, before all else they do. -/
theorem call_resolves {call : ConsumerCall ι} {fx₁ fx₂ : List (Effect ι)} {p : Nat}
    (h : (s.call call).2 = fx₁ ++ .resolve p :: fx₂) :
    call.Asks ∧ fx₁ = [] ∧ ∃ f ∈ s.consumer.inflight, f.promise = p := by
  cases call with
  | deliver event =>
    refine (not_resolved ?_ h).elim
    simp only [Session.call]
    unfold SubscribeConsumer.deliver
    split
    · rfl
    · exact resolved_pump _
  | next =>
    simp only [Session.call] at h
    unfold SubscribeConsumer.next at h
    dsimp only at h
    split at h
    · exact ⟨trivial, settled_first h rfl⟩
    · exact ⟨trivial, settled_first h (resolved_pump _)⟩
  | return_ =>
    have hshape : (s.consumer.settleInflight true none).2 ++
        (((s.consumer.settleInflight true none).1.close none).2 ++ [.finish s.pulls]) =
          fx₁ ++ .resolve p :: fx₂ := by
      rw [← List.append_assoc]
      exact h
    refine ⟨trivial, settled_first hshape ?_⟩
    rw [List.filterMap_append, resolved_close]
    rfl
  | throw_ err =>
    refine (not_resolved ?_ h).elim
    have hrejected : (s.consumer.settleInflight false err).2.filterMap Effect.resolved = [] := by
      unfold SubscribeConsumer.settleInflight
      split <;> rfl
    simp only [Session.call, SubscribeConsumer.throw_, List.filterMap_append, hrejected,
      resolved_close]
    rfl
  | close reason => exact (not_resolved (resolved_close _ reason) h).elim
  | abort reason => exact (not_resolved (resolved_close _ reason) h).elim

end Calls

/-! ## Whole sessions -/

def Moment.effect? : Moment ι → Option (Effect ι)
  | .effect e => some e
  | .called _ => none

/-- The event of a call that delivers one. -/
def Moment.delivery? : Moment ι → Option (WatukuyEvent ι)
  | .called (.deliver event) => some event
  | _ => none

/-- The effects of a session, in order. -/
def effectsOf (log : List (Moment ι)) : List (Effect ι) := log.filterMap Moment.effect?

/-- The events delivered, in the order of the calls: that of promise `p` is at place `p`. -/
def deliveriesOf (log : List (Moment ι)) : List (WatukuyEvent ι) := log.filterMap Moment.delivery?

/-- What a session has shown, against its state. -/
structure Sound (log : List (Moment ι)) (s : Session ι) : Prop where
  settled : (settledBy (effectsOf log) ++ s.consumer.promises).Perm (List.range s.delivers)
  line : ((handedBy (effectsOf log) ++ s.consumer.queue).map (·.promise)).Pairwise (· < ·)
  events : ∀ f ∈ handedBy (effectsOf log) ++ s.consumer.queue,
    (deliveriesOf log)[f.promise]? = some f.event
  delivers : (deliveriesOf log).length = s.delivers
  inflight : ∀ f ∈ s.consumer.inflight, f ∈ handedBy (effectsOf log)
  shut : s.consumer.closed = true → s.consumer.outstanding = []
  /-- A delivery that resolved was handed out, and then the iterator was asked. -/
  asked : ∀ pre p post, log = pre ++ .effect (.resolve p) :: post →
    ∃ before call, pre = before ++ [.called call] ∧ call.Asks ∧ p ∉ settledBy (effectsOf pre) ∧
      ∃ f ∈ handedBy (effectsOf before), f.promise = p

section Sessions

variable {s : Session ι} {log : List (Moment ι)}

@[simp] theorem effectsOf_append (log log' : List (Moment ι)) :
    effectsOf (log ++ log') = effectsOf log ++ effectsOf log' := List.filterMap_append

@[simp] theorem deliveriesOf_append (log log' : List (Moment ι)) :
    deliveriesOf (log ++ log') = deliveriesOf log ++ deliveriesOf log' := List.filterMap_append

@[simp] theorem effectsOf_effects (fx : List (Effect ι)) : effectsOf (fx.map .effect) = fx := by
  induction fx with
  | nil => rfl
  | cons e fx ih => exact congrArg (List.cons e) ih

@[simp] theorem deliveriesOf_effects (fx : List (Effect ι)) :
    deliveriesOf (fx.map (.effect : Effect ι → Moment ι)) = [] := by
  induction fx with
  | nil => rfl
  | cons e fx ih => exact ih

@[simp] theorem effectsOf_called (call : ConsumerCall ι) : effectsOf [.called call] = [] := rfl

/-- What one call shows. -/
def Session.shows (s : Session ι) (call : ConsumerCall ι) : List (Moment ι) :=
  .called call :: (s.call call).2.map .effect

theorem effectsOf_shows (call : ConsumerCall ι) : effectsOf (s.shows call) = (s.call call).2 :=
  effectsOf_effects _

theorem deliveriesOf_shows (call : ConsumerCall ι) :
    deliveriesOf (s.shows call) = (s.arrived call).map (·.event) := by
  have heffects : deliveriesOf ((s.call call).2.map (.effect : Effect ι → Moment ι)) = [] :=
    deliveriesOf_effects _
  cases call with
  | deliver event => exact congrArg (List.cons event) heffects
  | next => exact heffects
  | return_ => exact heffects
  | throw_ err => exact heffects
  | close reason => exact heffects
  | abort reason => exact heffects

theorem delivers_call (call : ConsumerCall ι) :
    (s.call call).1.delivers = s.delivers + (s.arrived call).length := by
  cases call <;> rfl

theorem arrived_promise {call : ConsumerCall ι} {f : Pending ι} (h : f ∈ s.arrived call) :
    s.arrived call = [f] ∧ f.promise = s.delivers := by
  cases call with
  | deliver event =>
    obtain rfl := List.mem_singleton.1 h
    exact ⟨rfl, rfl⟩
  | _ => cases h

/-- Every event in line was delivered. -/
theorem Sound.below (h : Sound log s) {f : Pending ι}
    (hf : f ∈ handedBy (effectsOf log) ++ s.consumer.queue) : f.promise < s.delivers := by
  rw [← h.delivers]
  exact (List.getElem?_eq_some_iff.1 (h.events f hf)).1

/-- A delivery in flight is not settled. -/
theorem Sound.unsettled (h : Sound log s) {f : Pending ι} (hf : f ∈ s.consumer.inflight) :
    f.promise ∉ settledBy (effectsOf log) := by
  have hnodup : (settledBy (effectsOf log) ++ s.consumer.promises).Nodup :=
    h.settled.nodup_iff.2 List.nodup_range
  intro hmem
  refine (List.nodup_append.1 hnodup).2.2 _ hmem _ ?_ rfl
  refine List.mem_map.2 ⟨f, ?_, rfl⟩
  exact List.mem_append_left _ (Option.mem_toList.2 hf)

/-- Where an entry of two lists stands. -/
theorem split_append {α : Type} {as bs pre post : List α} {x : α} (h : as ++ bs = pre ++ x :: post) :
    (∃ post', as = pre ++ x :: post') ∨ ∃ pre', pre = as ++ pre' ∧ bs = pre' ++ x :: post := by
  rcases List.append_eq_append_iff.1 h with ⟨pre', rfl, hbs⟩ | ⟨rest, rfl, hrest⟩
  · exact Or.inr ⟨pre', rfl, hbs⟩
  · cases rest with
    | nil => exact Or.inr ⟨[], by simp, by simpa using hrest.symm⟩
    | cons y rest =>
      obtain ⟨rfl, -⟩ := List.cons.inj hrest
      exact Or.inl ⟨rest, rfl⟩

/-- Each call keeps a session sound. -/
theorem Sound.call (h : Sound log s) (call : ConsumerCall ι) :
    Sound (log ++ s.shows call) (s.call call).1 := by
  have hmoves := call_moves s call
  have heffects : effectsOf (log ++ s.shows call) = effectsOf log ++ (s.call call).2 := by
    rw [effectsOf_append, effectsOf_shows]
  have hdeliveries : deliveriesOf (log ++ s.shows call) =
      deliveriesOf log ++ (s.arrived call).map (·.event) := by
    rw [deliveriesOf_append, deliveriesOf_shows]
  -- what is handed out or queued was so before, or it is the delivery of this call
  have hline : List.Sublist (handedBy (effectsOf (log ++ s.shows call)) ++ (s.call call).1.consumer.queue)
      ((handedBy (effectsOf log) ++ s.consumer.queue) ++ s.arrived call) := by
    rw [heffects, handedBy_append, List.append_assoc, List.append_assoc]
    exact hmoves.line.append_left _
  refine ⟨?_, ?_, ?_, ?_, ?_, call_shut h.shut call, ?_⟩
  · rw [heffects, settledBy_append, List.append_assoc]
    refine (hmoves.settled.append_left _).trans ?_
    have hpromises : SubscribeConsumer.promises
        { s.consumer with queue := s.consumer.queue ++ s.arrived call } =
          s.consumer.promises ++ (s.arrived call).map (·.promise) := by
      simp [SubscribeConsumer.promises, SubscribeConsumer.outstanding]
    have hrange : List.range (s.call call).1.delivers =
        List.range s.delivers ++ (s.arrived call).map (·.promise) := by
      rw [delivers_call]
      cases call with
      | deliver event => exact List.range_succ
      | _ => exact (List.append_nil _).symm
    rw [hpromises, hrange, ← List.append_assoc]
    exact h.settled.append_right _
  · refine (List.Pairwise.sublist (hline.map _) ?_)
    rw [List.map_append, List.pairwise_append]
    refine ⟨h.line, ?_, ?_⟩
    · cases call with
      | deliver event => exact List.pairwise_singleton _ _
      | _ => exact List.Pairwise.nil
    · intro p hp q hq
      obtain ⟨f, hf, rfl⟩ := List.mem_map.1 hp
      obtain ⟨g, hg, rfl⟩ := List.mem_map.1 hq
      rw [(arrived_promise hg).2]
      exact h.below hf
  · intro f hf
    rw [hdeliveries]
    rcases List.mem_append.1 (hline.subset hf) with hold | hnew
    · have hlt : f.promise < (deliveriesOf log).length := by
        rw [h.delivers]
        exact h.below hold
      rw [List.getElem?_append_left hlt]
      exact h.events f hold
    · obtain ⟨heq, hp⟩ := arrived_promise hnew
      rw [heq, hp, ← h.delivers]
      simp
  · rw [hdeliveries, delivers_call, List.length_append, List.length_map, h.delivers]
  · intro f hf
    rw [heffects, handedBy_append, List.mem_append]
    exact (hmoves.inflight f hf).imp_left (h.inflight f)
  · intro pre p post heq
    rcases split_append heq with ⟨post', hold⟩ | ⟨pre', rfl, hnew⟩
    · exact h.asked pre p post' hold
    · cases pre' with
      | nil =>
        obtain ⟨hcall, -⟩ := List.cons.inj hnew
        cases hcall
      | cons m pre' =>
        obtain ⟨rfl, hrest⟩ := List.cons.inj hnew
        obtain ⟨fx₁, fx₂', hfx, rfl, hfx₂⟩ := List.map_eq_append_iff.1 hrest
        obtain ⟨e, fx₂, rfl, he, -⟩ := List.map_eq_cons_iff.1 hfx₂
        obtain rfl := Moment.effect.inj he
        obtain ⟨hasks, rfl, f, hf, rfl⟩ := call_resolves hfx
        refine ⟨log, call, rfl, hasks, ?_, f, h.inflight f hf, rfl⟩
        have hunsettled := h.unsettled hf
        simpa using hunsettled

theorem Sound.run (h : Sound log s) (calls : List (ConsumerCall ι)) :
    Sound (log ++ s.log calls) (s.run calls) := by
  induction calls generalizing log s with
  | nil =>
    have hlog : log ++ s.log [] = log := List.append_nil log
    rw [hlog]
    exact h
  | cons call calls ih =>
    have hnext := ih (h.call call)
    rw [List.append_assoc] at hnext
    exact hnext

/-- A session begins with nothing outstanding. -/
theorem sound_start (aborted : Option (Option JsError)) :
    Sound ([] : List (Moment ι)) (Session.start aborted) := by
  have houtstanding : (Session.start aborted : Session ι).consumer.outstanding = [] := by
    cases aborted with
    | none => rfl
    | some reason => rfl
  obtain ⟨hinflight, hqueue⟩ := List.append_eq_nil_iff.1 houtstanding
  refine ⟨?_, ?_, ?_, rfl, ?_, fun _ => houtstanding, ?_⟩
  · have hpromises : (Session.start aborted : Session ι).consumer.promises = [] :=
      congrArg (List.map Pending.promise) houtstanding
    rw [hpromises]
    exact List.Perm.refl _
  · rw [hqueue]
    exact List.Pairwise.nil
  · intro f hf
    rw [hqueue] at hf
    cases hf
  · intro f hf
    have hmem := Option.mem_toList.2 hf
    rw [hinflight] at hmem
    cases hmem
  · intro pre p post heq
    simp at heq

theorem run_append (calls calls' : List (ConsumerCall ι)) :
    s.run (calls ++ calls') = (s.run calls).run calls' := by
  induction calls generalizing s with
  | nil => rfl
  | cons call calls ih => exact ih

/-- A consumer that has been closed stays closed. -/
theorem closed_run (h : s.consumer.closed = true) (calls : List (ConsumerCall ι)) :
    (s.run calls).consumer.closed = true := by
  induction calls generalizing s with
  | nil => exact h
  | cons call calls ih => exact ih ((call_moves s call).closed h)

/-- In a sound session without outstanding deliveries every promise is settled. -/
theorem Sound.all_settled (h : Sound log s) (hshut : s.consumer.outstanding = []) {p : Nat}
    (hp : p < s.delivers) : p ∈ settledBy (effectsOf log) := by
  have hpromises : s.consumer.promises = [] := congrArg (List.map Pending.promise) hshut
  have hsettled := h.settled
  rw [hpromises, List.append_nil] at hsettled
  exact hsettled.mem_iff.2 (List.mem_range.2 hp)

end Sessions

/-- For every order of calls of a consumer, its iterator and its signal. A delivery is named by its
place among the calls of `deliver`.
* Events are handed out in the order of their deliveries, each at most once.
* Every promise of a delivery settles at most once.
* It resolves only if its event was handed out before, it was not settled since, and the present call
  is `next` or `return`.
* After `close`, `return`, `throw` or an abort every promise is settled, and later deliveries are
  rejected at once. -/
theorem subscription_protocol (aborted : Option (Option JsError)) (calls : List (ConsumerCall ι)) :
    let log := (Session.start aborted).log calls
    ((handedBy (effectsOf log)).map (·.promise)).Pairwise (· < ·) ∧
    (∀ f ∈ handedBy (effectsOf log), (deliveriesOf log)[f.promise]? = some f.event) ∧
    (settledBy (effectsOf log)).Nodup ∧
    (∀ pre p post, log = pre ++ .effect (.resolve p) :: post →
      ∃ before call, pre = before ++ [.called call] ∧ call.Asks ∧ p ∉ settledBy (effectsOf pre) ∧
        ∃ f ∈ handedBy (effectsOf before), f.promise = p) ∧
    ∀ before call after, calls = before ++ call :: after → call.Closes →
      (∀ p < (deliveriesOf ((Session.start aborted).log (before ++ [call]))).length,
        p ∈ settledBy (effectsOf ((Session.start aborted).log (before ++ [call])))) ∧
      ∀ mid event rest, after = mid ++ .deliver event :: rest →
        ∃ reason, (((Session.start aborted).run (before ++ call :: mid)).call (.deliver event)).2 =
          [.reject ((Session.start aborted).run (before ++ call :: mid)).delivers reason] := by
  have hsound : ∀ calls, Sound ((Session.start aborted : Session ι).log calls)
      ((Session.start aborted).run calls) := fun calls => (sound_start aborted).run calls
  have h := hsound calls
  refine ⟨?_, ?_, ?_, h.asked, ?_⟩
  · exact h.line.sublist ((List.sublist_append_left _ _).map _)
  · intro f hf
    exact h.events f (List.mem_append_left _ hf)
  · have hnodup := h.settled.nodup_iff.2 List.nodup_range
    exact (List.nodup_append.1 hnodup).1
  · rintro before call after rfl hcloses
    -- the consumer is shut by the call
    have hshut : ((Session.start aborted).run (before ++ [call])).consumer.Shut := by
      rw [run_append]
      exact call_closes (hsound before).shut _ hcloses
    constructor
    · intro p hp
      have hclosed := hsound (before ++ [call])
      rw [hclosed.delivers] at hp
      exact hclosed.all_settled hshut.2 hp
    · rintro mid event rest rfl
      have hclosed : ((Session.start aborted).run (before ++ call :: mid)).consumer.closed = true := by
        rw [List.append_cons, run_append]
        exact closed_run hshut.1 mid
      generalize (Session.start aborted).run (before ++ call :: mid) = s at hclosed ⊢
      refine ⟨s.consumer.closeReason.getD (plainError "subscriber closed"), ?_⟩
      simp only [Session.call, SubscribeConsumer.deliver]
      rw [if_pos hclosed]

end Watukuy
