import Watukuy.Run.Crew
import Watukuy.Run.Subscriptions

/-!
# A loop over a subscription

The workers of the drains deliver to one `SubscribeConsumer`, and `for await (const event of
engine.subscribe(name))` takes the events from it. A worker's call of `deliver` and the end of its
`await` are two steps here: the promise of the call settles in between. The loop asks for the next
event when its body completes; when the body breaks or throws, it calls `return()`.
-/

set_option autoImplicit false

namespace Watukuy

open Library

variable {ι : Type}

/-! ## What promises answer -/

def Effect.result? (promise : Nat) : Effect ι → Option (Except JsError Unit)
  | .resolve p => if p = promise then some (.ok ()) else none
  | .reject p reason => if p = promise then some (.error reason) else none
  | _ => none

/-- What a pull is answered: an event, or the end of the iteration. -/
def Effect.answer? (pull : Nat) : Effect ι → Option (Option (Pending ι))
  | .hand n f => if n = pull then some (some f) else none
  | .finish n => if n = pull then some none else none
  | _ => none

/-- The outcome of a delivery, once its promise has settled. -/
def resultIn (fx : List (Effect ι)) (promise : Nat) : Option (Except JsError Unit) :=
  fx.findSome? (·.result? promise)

def answerIn (fx : List (Effect ι)) (pull : Nat) : Option (Option (Pending ι)) :=
  fx.findSome? (·.answer? pull)

/-! ## The loop -/

/-- Where the `for await` loop is. -/
inductive Loop (ι : Type) where
  | fresh
  | pulling (pull : Nat)
  | body (pending : Pending ι)
  | left

/-- How the body ends for an event. -/
inductive BodyEnd where
  | completes
  | breaks
  | throws
  deriving DecidableEq

/-- An abrupt completion of the body calls `return()`. -/
def BodyEnd.call : BodyEnd → ConsumerCall ι
  | .completes => .next
  | .breaks => .return_
  | .throws => .return_

/-- The system, its consumer and the loop. -/
structure Subscribed (ι : Type) where
  sys : Config (system ι)
  session : Session ι
  /-- What the session has shown. -/
  log : List (Moment ι)
  /-- The promise whose settlement a thread awaits. -/
  waiting : Nat → Option Nat
  loop : Loop ι

/-- The state after a call of the consumer. -/
def Subscribed.calls (s : Subscribed ι) (call : ConsumerCall ι) : Subscribed ι :=
  { s with session := (s.session.call call).1, log := s.log ++ s.session.shows call }

/-- Who awaits a delivery after a step of the system. -/
def Subscribed.resumed (s : Subscribed ι) : Label (system ι) → Nat → Option Nat
  | .act t (.deliver _) _ _ => Function.update s.waiting t none
  | _ => s.waiting

def Subscribed.start (w : World ι) (aborted : Option (Option JsError)) : Subscribed ι where
  sys := ⟨w, []⟩
  session := .start aborted
  log := []
  waiting := fun _ => none
  loop := .fresh

inductive SubLabel (ι : Type) where
  | sys (l : Label (system ι))
  /-- A worker calls `deliver`. -/
  | send (t : Nat) (event : WatukuyEvent ι)
  /-- The loop asks for its first event. -/
  | begins
  /-- The body starts. -/
  | takes (f : Pending ι)
  /-- The iterator is done. -/
  | leaves
  | ends (f : Pending ι) (how : BodyEnd)
  /-- `engine.stop()` closes the consumer, or the signal of the subscription aborts. -/
  | closes (reason : Option JsError)

/-- One step. The answer of a delivery is what its promise settled with. -/
inductive SubStep (entry : Prog (Op ι) Ans Unit → Prop) (s : Subscribed ι) :
    SubLabel ι → Subscribed ι → Prop where
  | sys {l : Label (system ι)} {c : Config (system ι)} (step : Step (system ι) entry s.sys l c)
      (settled : ∀ t e ch a, l = .act t (.deliver e) ch a →
        ∃ p, s.waiting t = some p ∧ resultIn (effectsOf s.log) p = some a) :
      SubStep entry s (.sys l) { s with sys := c, waiting := s.resumed l }
  | send {t : Nat} {e : WatukuyEvent ι} {k : Ans (.deliver e : Op ι) → Prog (Op ι) Ans Unit}
      (at_ : s.sys.threads[t]? = some (.call (.deliver e) k)) (free : s.waiting t = none) :
      SubStep entry s (.send t e)
        { s.calls (.deliver e) with
          waiting := Function.update s.waiting t (some s.session.delivers) }
  | begins (fresh : s.loop = .fresh) :
      SubStep entry s .begins { s.calls .next with loop := .pulling s.session.pulls }
  | takes {n : Nat} {f : Pending ι} (pulling : s.loop = .pulling n)
      (answered : answerIn (effectsOf s.log) n = some (some f)) :
      SubStep entry s (.takes f) { s with loop := .body f }
  | leaves {n : Nat} (pulling : s.loop = .pulling n)
      (answered : answerIn (effectsOf s.log) n = some none) :
      SubStep entry s .leaves { s with loop := .left }
  | completes {f : Pending ι} (body : s.loop = .body f) :
      SubStep entry s (.ends f .completes) { s.calls .next with loop := .pulling s.session.pulls }
  | abrupt {f : Pending ι} {how : BodyEnd} (body : s.loop = .body f) (abrupt : how ≠ .completes) :
      SubStep entry s (.ends f how) { s.calls .return_ with loop := .left }
  | closes (reason : Option JsError) :
      SubStep entry s (.closes reason) (s.calls (.close reason))

/-- A run from a world in which nothing has been started, all of whose steps satisfy `G`. -/
inductive SubRun (entry : Prog (Op ι) Ans Unit → Prop) (w : World ι)
    (G : Subscribed ι → SubLabel ι → Prop) : List (SubLabel ι) → Subscribed ι → Prop where
  | nil (aborted : Option (Option JsError)) : SubRun entry w G [] (.start w aborted)
  | step {tr : List (SubLabel ι)} {l : SubLabel ι} {s s' : Subscribed ι} (h : SubRun entry w G tr s)
      (hs : SubStep entry s l s') (hG : G s l) : SubRun entry w G (tr ++ [l]) s'

def SubLabel.sys? : SubLabel ι → Option (Label (system ι))
  | .sys l => some l
  | _ => none

/-- The steps of the system. -/
def sysSteps (tr : List (SubLabel ι)) : List (Label (system ι)) := tr.filterMap SubLabel.sys?

section Runs

variable {entry : Prog (Op ι) Ans Unit → Prop} {w : World ι} {G : Subscribed ι → SubLabel ι → Prop}
  {tr : List (SubLabel ι)} {s s' : Subscribed ι} {l : SubLabel ι}

theorem sysSteps_append (tr : List (SubLabel ι)) (l : SubLabel ι) :
    sysSteps (tr ++ [l]) = sysSteps tr ++ l.sys?.toList := by
  rw [sysSteps, List.filterMap_append]
  cases l <;> rfl

theorem SubStep.system {steps : List (Label (system ι))} (hs : SubStep entry s l s')
    (h : Run (system ι) entry w steps s.sys) :
    Run (system ι) entry w (steps ++ l.sys?.toList) s'.sys := by
  have hnil : steps ++ [] = steps := List.append_nil steps
  cases hs with
  | sys step settled => exact h.step step
  | _ => exact hnil.symm ▸ h

/-- The system runs as it does with any consumer. -/
theorem SubRun.system (h : SubRun entry w G tr s) : Run (system ι) entry w (sysSteps tr) s.sys := by
  induction h with
  | nil aborted => exact .nil
  | step h hs hG ih =>
    rw [sysSteps_append]
    exact hs.system ih

end Runs

/-! ## Pulls -/

theorem answerIn_append (fx fx' : List (Effect ι)) (n : Nat) :
    answerIn (fx ++ fx') n = (answerIn fx n).or (answerIn fx' n) := by
  simp [answerIn, List.findSome?_append]

theorem resultIn_append (fx fx' : List (Effect ι)) (p : Nat) :
    resultIn (fx ++ fx') p = (resultIn fx p).or (resultIn fx' p) := by
  simp [resultIn, List.findSome?_append]

/-- What an outcome comes from. -/
theorem result_mem {fx : List (Effect ι)} {p : Nat} {a : Except JsError Unit}
    (h : resultIn fx p = some a) :
    (a = .ok () ∧ .resolve p ∈ fx) ∨ ∃ r, a = .error r ∧ .reject p r ∈ fx := by
  obtain ⟨e, he, hr⟩ := List.exists_of_findSome?_eq_some h
  cases e with
  | resolve q =>
    simp only [Effect.result?] at hr
    split at hr
    · rename_i hq
      exact Or.inl ⟨(Option.some.inj hr).symm, hq ▸ he⟩
    · cases hr
  | reject q reason =>
    simp only [Effect.result?] at hr
    split at hr
    · rename_i hq
      exact Or.inr ⟨reason, (Option.some.inj hr).symm, hq ▸ he⟩
    · cases hr
  | hand m g => cases hr
  | finish m => cases hr

theorem result_ok {fx : List (Effect ι)} {p : Nat} (h : resultIn fx p = some (.ok ())) :
    .resolve p ∈ fx := by
  rcases result_mem h with ⟨-, hmem⟩ | ⟨r, heq, -⟩
  · exact hmem
  · cases heq

theorem result_error {fx : List (Effect ι)} {p : Nat} {r : JsError}
    (h : resultIn fx p = some (.error r)) : .reject p r ∈ fx := by
  rcases result_mem h with ⟨heq, -⟩ | ⟨q, heq, hmem⟩
  · cases heq
  · exact Except.error.inj heq ▸ hmem

@[simp] theorem answerIn_nil (n : Nat) : answerIn ([] : List (Effect ι)) n = none := rfl

theorem answerIn_finish (m n : Nat) :
    answerIn [(.finish m : Effect ι)] n = if m = n then some none else none := by
  by_cases h : m = n <;> simp [answerIn, Effect.answer?, h]

theorem answerIn_reject (ps : List (Pending ι)) (reason : JsError) (n : Nat) :
    answerIn (ps.map fun p => (.reject p.promise reason : Effect ι)) n = none := by
  induction ps with
  | nil => rfl
  | cons p ps ih => exact ih

/-- A pull that is handed an event has an answer. -/
theorem answered_of_hand {fx : List (Effect ι)} {n : Nat} {f : Pending ι} (h : .hand n f ∈ fx) :
    answerIn fx n ≠ none := by
  intro hnone
  have hall := List.findSome?_eq_none_iff.1 hnone _ h
  simp [Effect.answer?] at hall

/-- What a method does to the pulls and to the delivery in flight; `new` is the pull it makes. -/
structure Pulled (c c' : SubscribeConsumer ι) (fx : List (Effect ι)) (new : Option Nat) : Prop where
  hand : ∀ n f, .hand n f ∈ fx → c'.inflight = some f ∧ answerIn fx n = some (some f)
  puller : ∀ n, c'.puller = some n → answerIn fx n = none ∧ (c.puller = some n ∨ new = some n)
  inflight : ∀ f, c'.inflight = some f → c.inflight = some f ∨ ∃ n, .hand n f ∈ fx
  answered : ∀ n a, answerIn fx n = some a → c.puller = some n ∨ new = some n

section Pulled

variable {c c' c'' : SubscribeConsumer ι} {fx fx' : List (Effect ι)} {new : Option Nat}

theorem Pulled.widen (h : Pulled c c' fx none) (pull : Option Nat) : Pulled c c' fx pull := by
  refine ⟨h.hand, ?_, h.inflight, ?_⟩
  · intro n hn
    obtain ⟨hnone, hold | hnew⟩ := h.puller n hn
    · exact ⟨hnone, Or.inl hold⟩
    · cases hnew
  · intro n a ha
    rcases h.answered n a ha with hold | hnew
    · exact Or.inl hold
    · cases hnew

/-- Nothing is answered. -/
theorem pulled_quiet (hfx : ∀ n, answerIn fx n = none) (hpuller : c'.puller = c.puller)
    (hinflight : ∀ f, c'.inflight = some f → c.inflight = some f) : Pulled c c' fx none := by
  refine ⟨?_, ?_, fun f hf => Or.inl (hinflight f hf), ?_⟩
  · intro n f hf
    exact absurd (hfx n) (answered_of_hand hf)
  · intro n hn
    exact ⟨hfx n, Or.inl (hpuller ▸ hn)⟩
  · intro n a ha
    rw [hfx n] at ha
    cases ha

/-- First a part that answers nothing. -/
theorem Pulled.after (h : Pulled c' c'' fx' new) (hfx : ∀ n, answerIn fx n = none)
    (hpuller : c'.puller = c.puller ∨ c'.puller = new)
    (hinflight : ∀ f, c'.inflight = some f → c.inflight = some f) : Pulled c c'' (fx ++ fx') new := by
  have hanswer : ∀ n, answerIn (fx ++ fx') n = answerIn fx' n := by
    intro n
    rw [answerIn_append, hfx, Option.none_or]
  have hcases : ∀ n, c'.puller = some n ∨ new = some n → c.puller = some n ∨ new = some n := by
    rintro n (hn | hn)
    · rcases hpuller with hsame | hsame
      · exact Or.inl (hsame ▸ hn)
      · exact Or.inr (hsame ▸ hn)
    · exact Or.inr hn
  refine ⟨?_, ?_, ?_, ?_⟩
  · intro n f hf
    rcases List.mem_append.1 hf with hf | hf
    · exact absurd (hfx n) (answered_of_hand hf)
    · rw [hanswer]
      exact h.hand n f hf
  · intro n hn
    rw [hanswer]
    obtain ⟨hnone, hn⟩ := h.puller n hn
    exact ⟨hnone, hcases n hn⟩
  · intro f hf
    rcases h.inflight f hf with hold | ⟨n, hn⟩
    · exact Or.inl (hinflight f hold)
    · exact Or.inr ⟨n, List.mem_append_right _ hn⟩
  · intro n a ha
    rw [hanswer] at ha
    exact hcases n (h.answered n a ha)

theorem pulled_pump (c : SubscribeConsumer ι) : Pulled c c.pump.1 c.pump.2 none := by
  unfold SubscribeConsumer.pump
  split
  · rename_i puller next rest hpuller hinflight hqueue
    refine ⟨?_, ?_, ?_, ?_⟩
    · intro n f hf
      obtain ⟨rfl, rfl⟩ := Effect.hand.inj (List.mem_singleton.1 hf)
      exact ⟨rfl, by simp [answerIn, Effect.answer?]⟩
    · intro n hn
      cases hn
    · intro f hf
      obtain rfl := Option.some.inj hf
      exact Or.inr ⟨puller, List.mem_singleton_self _⟩
    · intro n a ha
      have hn : puller = n := by
        by_contra hne
        simp [answerIn, Effect.answer?, hne] at ha
      exact Or.inl (hn ▸ hpuller)
  · exact pulled_quiet (fun n => rfl) rfl fun f => id

theorem answerIn_settleInflight (c : SubscribeConsumer ι) (ok : Bool) (reason : Option JsError)
    (n : Nat) : answerIn (c.settleInflight ok reason).2 n = none := by
  unfold SubscribeConsumer.settleInflight
  split
  · rfl
  · cases ok <;> rfl

theorem settleInflight_keeps (c : SubscribeConsumer ι) (ok : Bool) (reason : Option JsError)
    (f : Pending ι) (h : (c.settleInflight ok reason).1.inflight = some f) : c.inflight = some f := by
  rw [settleInflight_inflight] at h
  cases h

theorem pulled_close (c : SubscribeConsumer ι) (reason : Option JsError) :
    Pulled c (c.close reason).1 (c.close reason).2 none := by
  unfold SubscribeConsumer.close
  split
  · exact pulled_quiet (fun n => rfl) rfl fun f => id
  · dsimp only
    rw [List.append_assoc]
    -- what was in flight and the queue are rejected, and then the puller is finished
    have hpuller := (settleInflight_queue { c with closed := true, closeReason := reason } false
      (some (reason.getD (plainError "subscriber closed while event in flight")))).2.1
    have hnone := settleInflight_inflight { c with closed := true, closeReason := reason } false
      (some (reason.getD (plainError "subscriber closed while event in flight")))
    have hquiet := answerIn_settleInflight { c with closed := true, closeReason := reason } false
      (some (reason.getD (plainError "subscriber closed while event in flight")))
    generalize { c with closed := true, closeReason := reason }.settleInflight false
      (some (reason.getD (plainError "subscriber closed while event in flight"))) = r
      at hpuller hnone hquiet ⊢
    obtain ⟨c₁, settled⟩ := r
    have hanswer : ∀ n a, answerIn (settled ++ ((c₁.queue.map fun p =>
        (.reject p.promise (reason.getD (plainError "subscriber closed")) : Effect ι)) ++
          c₁.puller.toList.map .finish)) n = some a → c₁.puller = some n ∧ a = none := by
      intro n a ha
      rw [answerIn_append, hquiet, Option.none_or, answerIn_append, answerIn_reject,
        Option.none_or] at ha
      cases hp : c₁.puller with
      | none =>
        rw [hp] at ha
        cases ha
      | some m =>
        rw [hp, Option.toList_some, List.map_singleton, answerIn_finish] at ha
        split at ha
        · rename_i hm
          exact ⟨congrArg some hm, (Option.some.inj ha).symm⟩
        · cases ha
    refine ⟨?_, ?_, ?_, ?_⟩
    · intro n f hf
      -- a rejection or a finish hands nothing out
      simp only [List.mem_append, List.mem_map, reduceCtorEq, and_false, exists_false, or_false] at hf
      exact absurd (hquiet n) (answered_of_hand hf)
    · intro n hn
      cases hn
    · intro f hf
      rw [show c₁.inflight = none from hnone] at hf
      cases hf
    · intro n a ha
      exact Or.inl (hpuller ▸ (hanswer n a ha).1)

end Pulled

/-- The pull a call makes. -/
def Session.pull? (s : Session ι) : ConsumerCall ι → Option Nat
  | .next => some s.pulls
  | .return_ => some s.pulls
  | .throw_ _ => some s.pulls
  | _ => none

/-- Finishing the new pull at the end. -/
theorem Pulled.finished {c c' : SubscribeConsumer ι} {fx : List (Effect ι)} {pull : Nat}
    (h : Pulled c c' fx none) (hpull : ∀ n, c.puller = some n → n < pull) :
    Pulled c c' (fx ++ [.finish pull]) (some pull) := by
  have hanswer : ∀ n, n < pull → answerIn (fx ++ [.finish pull]) n = answerIn fx n := by
    intro n hn
    rw [answerIn_append, answerIn_finish, if_neg (by omega), Option.or_none]
  refine ⟨?_, ?_, ?_, ?_⟩
  · intro n f hf
    have hmem : .hand n f ∈ fx := by simpa using hf
    obtain ⟨hinflight, ha⟩ := h.hand n f hmem
    have hlt : n < pull := by
      rcases h.answered n _ ha with hold | hnew
      · exact hpull n hold
      · cases hnew
    exact ⟨hinflight, (hanswer n hlt).trans ha⟩
  · intro n hn
    obtain ⟨hnone, hold | hnew⟩ := h.puller n hn
    · exact ⟨(hanswer n (hpull n hold)).trans hnone, Or.inl hold⟩
    · cases hnew
  · intro f hf
    rcases h.inflight f hf with hold | ⟨n, hn⟩
    · exact Or.inl hold
    · exact Or.inr ⟨n, List.mem_append_left _ hn⟩
  · intro n a ha
    rw [answerIn_append, answerIn_finish] at ha
    cases hfx : answerIn fx n with
    | some b =>
      rcases h.answered n b hfx with hold | hnew
      · exact Or.inl hold
      · cases hnew
    | none =>
      rw [hfx, Option.none_or] at ha
      split at ha
      · rename_i hn
        exact Or.inr (congrArg some hn)
      · cases ha

theorem pulled_call (s : Session ι) (hpull : ∀ n, s.consumer.puller = some n → n < s.pulls)
    (call : ConsumerCall ι) :
    Pulled s.consumer (s.call call).1.consumer (s.call call).2 (s.pull? call) := by
  have hsettled : ∀ ok reason, (s.consumer.settleInflight ok reason).1.puller = s.consumer.puller :=
    fun ok reason => (settleInflight_queue s.consumer ok reason).2.1
  cases call with
  | deliver event =>
    simp only [Session.call, Session.pull?]
    unfold SubscribeConsumer.deliver
    split
    · exact pulled_quiet (fun n => rfl) rfl fun f => id
    · have hpump := pulled_pump
        { s.consumer with queue := s.consumer.queue ++ [{ event, promise := s.delivers }] }
      exact ⟨hpump.hand, hpump.puller, hpump.inflight, hpump.answered⟩
  | next =>
    simp only [Session.call, Session.pull?]
    unfold SubscribeConsumer.next
    dsimp only
    split
    · exact (pulled_quiet (answerIn_settleInflight _ _ _) (hsettled _ _)
        (settleInflight_keeps _ _ _)).finished hpull
    · have hpump := (pulled_pump
        { (s.consumer.settleInflight true none).1 with puller := some s.pulls }).widen (some s.pulls)
      exact hpump.after (answerIn_settleInflight _ _ _) (Or.inr rfl) (settleInflight_keeps _ _ _)
  | return_ =>
    have hclose := (pulled_close (s.consumer.settleInflight true none).1 none).after
      (answerIn_settleInflight s.consumer true none) (Or.inl (hsettled true none))
      (settleInflight_keeps _ _ _)
    exact hclose.finished hpull
  | throw_ err =>
    have hclose := (pulled_close (s.consumer.settleInflight false err).1 err).after
      (answerIn_settleInflight s.consumer false err) (Or.inl (hsettled false err))
      (settleInflight_keeps _ _ _)
    exact hclose.finished hpull
  | close reason => exact pulled_close _ reason
  | abort reason => exact pulled_close _ reason

/-- After the call nothing that was in flight before is in flight, unless an event is delivered. -/
theorem call_inflight (s : Session ι) (h : s.consumer.closed = true → s.consumer.outstanding = [])
    {call : ConsumerCall ι}
    (hcall : ∀ e, call ≠ .deliver e) {f : Pending ι}
    (hf : (s.call call).1.consumer.inflight = some f) : ∃ n, .hand n f ∈ (s.call call).2 := by
  have hshut : ∀ {c : SubscribeConsumer ι}, c.outstanding = [] → c.inflight = some f → False := by
    intro c hc hin
    rw [SubscribeConsumer.outstanding, hin] at hc
    cases hc
  cases call with
  | deliver event => exact absurd rfl (hcall event)
  | next =>
    simp only [Session.call] at hf ⊢
    unfold SubscribeConsumer.next at hf ⊢
    dsimp only at hf ⊢
    split at hf
    · rw [settleInflight_inflight] at hf
      cases hf
    · rename_i hopen
      rw [if_neg hopen]
      have hpump := pulled_pump
        { (s.consumer.settleInflight true none).1 with puller := some s.pulls }
      rcases hpump.inflight f hf with hold | ⟨n, hn⟩
      · rw [show (s.consumer.settleInflight true none).1.inflight = none from
          settleInflight_inflight _ _ _] at hold
        cases hold
      · exact ⟨n, List.mem_append_right _ hn⟩
  | return_ => exact (hshut (call_closes h .return_ trivial).2 hf).elim
  | throw_ err => exact (hshut (call_closes h (.throw_ err) trivial).2 hf).elim
  | close reason => exact (hshut (call_closes h (.close reason) trivial).2 hf).elim
  | abort reason => exact (hshut (call_closes h (.abort reason) trivial).2 hf).elim

/-! ## The loop and the session -/

/-- The loop has the event in hand: its body runs, or will. -/
def Subscribed.HasEvent (s : Subscribed ι) (f : Pending ι) : Prop :=
  s.loop = .body f ∨ ∃ n, s.loop = .pulling n ∧ answerIn (effectsOf s.log) n = some (some f)

/-- What the loop does, against what the session shows. -/
structure Coupled (tr : List (SubLabel ι)) (s : Subscribed ι) : Prop where
  sound : Sound s.log s.session
  pulls : ∀ n, s.session.consumer.puller = some n → n < s.session.pulls
  puller : ∀ n, s.session.consumer.puller = some n →
    s.loop = .pulling n ∧ answerIn (effectsOf s.log) n = none
  answered : ∀ n a, answerIn (effectsOf s.log) n = some a → n < s.session.pulls
  /-- What is handed out is in the hands of the loop until its body has ended. -/
  current : ∀ f ∈ handedBy (effectsOf s.log), s.HasEvent f ∨ ∃ how, .ends f how ∈ tr
  body : ∀ f, s.HasEvent f → f ∈ handedBy (effectsOf s.log)
  flying : ∀ f, s.session.consumer.inflight = some f → s.HasEvent f
  /-- What resolves a delivery is the end of the body for its event. -/
  resolved : ∀ p, .resolve p ∈ effectsOf s.log →
    ∃ f how, .ends f how ∈ tr ∧ f.promise = p ∧ f ∈ handedBy (effectsOf s.log)
  waits : ∀ t p, s.waiting t = some p → ∃ e k, s.sys.threads[t]? = some (.call (.deliver e) k) ∧
    (deliveriesOf s.log)[p]? = some e

section Coupled

variable {tr : List (SubLabel ι)} {s s' : Subscribed ι} {l : SubLabel ι}

theorem hand_of_answer {fx : List (Effect ι)} {n : Nat} {f : Pending ι}
    (h : answerIn fx n = some (some f)) : .hand n f ∈ fx := by
  obtain ⟨e, he, ha⟩ := List.exists_of_findSome?_eq_some h
  cases e with
  | hand m g =>
    simp only [Effect.answer?] at ha
    split at ha
    · rename_i hm
      obtain rfl := Option.some.inj (Option.some.inj ha)
      exact hm ▸ he
    · cases ha
  | finish m =>
    simp only [Effect.answer?] at ha
    split at ha <;> simp at ha
  | resolve p => cases ha
  | reject p r => cases ha

theorem handedBy_of_hand {fx : List (Effect ι)} {n : Nat} {f : Pending ι} (h : .hand n f ∈ fx) :
    f ∈ handedBy fx := List.mem_filterMap.2 ⟨_, h, rfl⟩

theorem hand_of_handedBy {fx : List (Effect ι)} {f : Pending ι} (h : f ∈ handedBy fx) :
    ∃ n, .hand n f ∈ fx := by
  obtain ⟨e, he, hf⟩ := List.mem_filterMap.1 h
  cases e with
  | hand m g =>
    obtain rfl := Option.some.inj hf
    exact ⟨m, he⟩
  | _ => cases hf

theorem pull_lt (s : Session ι) (call : ConsumerCall ι) :
    s.pulls ≤ (s.call call).1.pulls ∧ ∀ n, s.pull? call = some n → n = s.pulls ∧ n < (s.call call).1.pulls := by
  constructor
  · cases call <;> simp [Session.call]
  · intro n hn
    cases call <;> simp only [Session.pull?, Option.some.injEq, reduceCtorEq] at hn
    all_goals
      subst hn
      exact ⟨rfl, Nat.lt_succ_self _⟩

/-- What the loop makes of a call. -/
inductive LoopStep (tr : List (SubLabel ι)) (l : SubLabel ι) (s : Subscribed ι) :
    ConsumerCall ι → Loop ι → Prop
  | stays {call : ConsumerCall ι} (pull : s.session.pull? call = none) (asks : ¬call.Asks) :
      LoopStep tr l s call s.loop
  | next (idle : ∀ n, s.loop ≠ .pulling n)
      (ended : ∀ f, s.loop = .body f → ∃ how, .ends f how ∈ tr ++ [l]) :
      LoopStep tr l s .next (.pulling s.session.pulls)
  | return_ (idle : ∀ n, s.loop ≠ .pulling n)
      (ended : ∀ f, s.loop = .body f → ∃ how, .ends f how ∈ tr ++ [l]) :
      LoopStep tr l s .return_ .left

/-- `return()` finishes its pull. -/
theorem return_finishes (s : Session ι) : answerIn (s.call .return_).2 s.pulls ≠ none := by
  intro hnone
  have hmem : .finish s.pulls ∈ (s.call .return_).2 :=
    List.mem_append_right _ (List.mem_singleton_self _)
  have hall := List.findSome?_eq_none_iff.1 hnone _ hmem
  simp [Effect.answer?] at hall

/-- A step that calls the consumer: the session and its log go on by the call, and the loop makes
of it what it may. -/
structure Subscribed.Called (tr : List (SubLabel ι)) (l : SubLabel ι) (s : Subscribed ι)
    (call : ConsumerCall ι) (s' : Subscribed ι) : Prop where
  session : s'.session = (s.session.call call).1
  log : s'.log = s.log ++ s.session.shows call
  loop : LoopStep tr l s call s'.loop

section Called

variable {call : ConsumerCall ι}

theorem Subscribed.Called.effects (hc : s.Called tr l call s') :
    effectsOf s'.log = effectsOf s.log ++ (s.session.call call).2 := by
  rw [hc.log, effectsOf_append, effectsOf_shows]

/-- A pull is answered as before, or by the call. -/
theorem Subscribed.Called.answerIn (hc : s.Called tr l call s') (n : Nat) :
    answerIn (effectsOf s'.log) n =
      (Watukuy.answerIn (effectsOf s.log) n).or (Watukuy.answerIn (s.session.call call).2 n) := by
  rw [hc.effects, answerIn_append]

/-- A pull that is still to come has no answer. -/
theorem Coupled.unanswered (h : Coupled tr s) {n : Nat} (hn : s.session.pulls ≤ n) :
    answerIn (effectsOf s.log) n = none := by
  cases ha : answerIn (effectsOf s.log) n with
  | none => rfl
  | some a =>
    have hlt := h.answered n a ha
    omega

/-- An event that is handed out by the call goes to the loop. -/
theorem Coupled.handed (h : Coupled tr s) (hc : s.Called tr l call s') {n : Nat} {f : Pending ι}
    (hf : .hand n f ∈ (s.session.call call).2) : s'.HasEvent f := by
  have hpulled := pulled_call s.session h.pulls call
  obtain ⟨hinflight, ha⟩ := hpulled.hand n f hf
  have hold : s.session.consumer.puller = some n → s.loop = .pulling n ∧
      answerIn (effectsOf s'.log) n = some (some f) := by
    intro hn
    obtain ⟨hpulling, hnone⟩ := h.puller n hn
    exact ⟨hpulling, by rw [hc.answerIn, hnone, Option.none_or, ha]⟩
  have hloop := hc.loop
  generalize hl : s'.loop = loop at hloop
  cases hloop with
  | stays hpull _ =>
    -- without a pull of its own, the call answers the one that waits
    rcases hpulled.answered n _ ha with hn | hn
    · obtain ⟨hpulling, hanswered⟩ := hold hn
      exact Or.inr ⟨n, hl.trans hpulling, hanswered⟩
    · rw [hpull] at hn
      cases hn
  | next hidle _ =>
    -- the loop does not wait, so it is the pull of this `next()` that is answered
    rcases hpulled.answered n _ ha with hn | hn
    · exact absurd (hold hn).1 (hidle n)
    · obtain rfl := Option.some.inj hn
      exact Or.inr ⟨_, hl, by rw [hc.answerIn, h.unanswered le_rfl, Option.none_or, ha]⟩
  | return_ _ _ =>
    -- `return()` closes the consumer, and nothing is in flight then
    have hshut := (call_closes h.sound.shut .return_ trivial).2
    rw [SubscribeConsumer.outstanding, hinflight] at hshut
    cases hshut

/-- As long as the loop stays where it is, it keeps its event. -/
theorem Subscribed.HasEvent.stays (hc : s.Called tr l call s') (hsame : s'.loop = s.loop)
    {f : Pending ι} (hf : s.HasEvent f) : s'.HasEvent f := by
  refine hf.imp hsame.trans ?_
  rintro ⟨n, hpulling, ha⟩
  exact ⟨n, hsame.trans hpulling, by rw [hc.answerIn, ha, Option.some_or]⟩

/-- A loop that does not wait has the event in its body, and the body has ended. -/
theorem Subscribed.HasEvent.over {f : Pending ι} (hf : s.HasEvent f)
    (hidle : ∀ n, s.loop ≠ .pulling n)
    (hended : ∀ f, s.loop = .body f → ∃ how, .ends f how ∈ tr ++ [l]) :
    ∃ how, .ends f how ∈ tr ++ [l] := by
  rcases hf with hbody | ⟨n, hpulling, -⟩
  · exact hended f hbody
  · exact absurd hpulling (hidle n)

/-- What the loop has in hand stays there, or its body has ended. -/
theorem Subscribed.HasEvent.kept (hc : s.Called tr l call s') {f : Pending ι} (hf : s.HasEvent f) :
    s'.HasEvent f ∨ ∃ how, .ends f how ∈ tr ++ [l] := by
  have hloop := hc.loop
  generalize hl : s'.loop = loop at hloop
  cases hloop with
  | stays _ _ => exact Or.inl (hf.stays hc hl)
  | next hidle hended => exact Or.inr (hf.over hidle hended)
  | return_ hidle hended => exact Or.inr (hf.over hidle hended)

/-- The pull that waits is the one the loop waits for. -/
theorem Coupled.puller_called (h : Coupled tr s) (hc : s.Called tr l call s') {n : Nat}
    (hn : s'.session.consumer.puller = some n) :
    s'.loop = .pulling n ∧ answerIn (effectsOf s'.log) n = none := by
  rw [hc.session] at hn
  obtain ⟨hnone, hcases⟩ := (pulled_call s.session h.pulls call).puller n hn
  have hloop := hc.loop
  generalize hl : s'.loop = loop at hloop
  cases hloop with
  | stays hpull _ =>
    rcases hcases with hold | hpulled
    · obtain ⟨hpulling, hold⟩ := h.puller n hold
      exact ⟨hpulling, by rw [hc.answerIn, hold, Option.none_or, hnone]⟩
    · rw [hpull] at hpulled
      cases hpulled
  | next hidle _ =>
    rcases hcases with hold | hpulled
    · exact absurd (h.puller n hold).1 (hidle n)
    · obtain rfl := Option.some.inj hpulled
      exact ⟨rfl, by rw [hc.answerIn, h.unanswered le_rfl, Option.none_or, hnone]⟩
  | return_ hidle _ =>
    rcases hcases with hold | hpulled
    · exact absurd (h.puller n hold).1 (hidle n)
    · obtain rfl := Option.some.inj hpulled
      exact absurd hnone (return_finishes s.session)

/-- Only pulls that were made are answered. -/
theorem Coupled.answered_called (h : Coupled tr s) (hc : s.Called tr l call s') {n : Nat}
    {a : Option (Pending ι)} (ha : answerIn (effectsOf s'.log) n = some a) :
    n < s'.session.pulls := by
  obtain ⟨hpulls, hnew⟩ := pull_lt s.session call
  rw [hc.answerIn] at ha
  rw [hc.session]
  cases hold : answerIn (effectsOf s.log) n with
  | some b => exact Nat.lt_of_lt_of_le (h.answered n b hold) hpulls
  | none =>
    rw [hold, Option.none_or] at ha
    rcases (pulled_call s.session h.pulls call).answered n a ha with hn | hpull
    · exact Nat.lt_of_lt_of_le (h.pulls n hn) hpulls
    · exact (hnew n hpull).2

/-- What the loop has in hand has been handed out. -/
theorem Coupled.body_called (h : Coupled tr s) (hc : s.Called tr l call s') {f : Pending ι}
    (hf : s'.HasEvent f) : f ∈ handedBy (effectsOf s'.log) := by
  rw [hc.effects, handedBy_append, List.mem_append]
  have hfrom : ∀ n, answerIn (effectsOf s'.log) n = some (some f) → (∀ hn :
      answerIn (effectsOf s.log) n = some (some f), f ∈ handedBy (effectsOf s.log)) →
      f ∈ handedBy (effectsOf s.log) ∨ f ∈ handedBy (s.session.call call).2 := by
    intro n ha hold
    rw [hc.answerIn] at ha
    cases hcase : answerIn (effectsOf s.log) n with
    | some b =>
      rw [hcase, Option.some_or] at ha
      exact Or.inl (hold (hcase.trans ha))
    | none =>
      rw [hcase, Option.none_or] at ha
      exact Or.inr (handedBy_of_hand (hand_of_answer ha))
  have hloop := hc.loop
  generalize hl : s'.loop = loop at hloop
  unfold Subscribed.HasEvent at hf
  rw [hl] at hf
  cases hloop with
  | stays _ _ =>
    rcases hf with hbody | ⟨n, hpulling, ha⟩
    · exact Or.inl (h.body f (Or.inl hbody))
    · exact hfrom n ha fun hold => h.body f (Or.inr ⟨n, hpulling, hold⟩)
  | next _ _ =>
    rcases hf with hbody | ⟨n, hpulling, ha⟩
    · cases hbody
    · obtain rfl := Loop.pulling.inj hpulling
      refine hfrom _ ha fun hold => ?_
      rw [h.unanswered le_rfl] at hold
      cases hold
  | return_ _ _ =>
    rcases hf with hbody | ⟨n, hpulling, -⟩
    · cases hbody
    · cases hpulling

/-- What is in flight is in the hands of the loop. -/
theorem Coupled.flying_called (h : Coupled tr s) (hc : s.Called tr l call s') {f : Pending ι}
    (hf : s'.session.consumer.inflight = some f) : s'.HasEvent f := by
  rw [hc.session] at hf
  have hcall : (∀ e, call ≠ .deliver e) → s'.HasEvent f := by
    intro hcall
    obtain ⟨n, hn⟩ := call_inflight s.session h.sound.shut hcall hf
    exact h.handed hc hn
  rcases (pulled_call s.session h.pulls call).inflight f hf with hold | ⟨n, hn⟩
  · have hloop := hc.loop
    generalize hl : s'.loop = loop at hloop
    cases hloop with
    | stays _ _ => exact (h.flying f hold).stays hc hl
    | next _ _ => exact hcall fun e => nofun
    | return_ _ _ => exact hcall fun e => nofun
  · exact h.handed hc hn

/-- A delivery that the call resolves is that of the event whose body has ended. -/
theorem Coupled.resolved_called (h : Coupled tr s) (hc : s.Called tr l call s') {p : Nat}
    (hp : .resolve p ∈ effectsOf s'.log) :
    ∃ f how, .ends f how ∈ tr ++ [l] ∧ f.promise = p ∧ f ∈ handedBy (effectsOf s'.log) := by
  rw [hc.effects] at hp
  rcases List.mem_append.1 hp with hold | hfresh
  · obtain ⟨f, how, hended, hpromise, hf⟩ := h.resolved p hold
    refine ⟨f, how, List.mem_append_left _ hended, hpromise, ?_⟩
    rw [hc.effects, handedBy_append]
    exact List.mem_append_left _ hf
  · obtain ⟨fx₁, fx₂, hfx⟩ := List.append_of_mem hfresh
    obtain ⟨hasks, -, f, hf, hpromise⟩ := call_resolves hfx
    have hhas := h.flying f hf
    have hended : ∃ how, .ends f how ∈ tr ++ [l] := by
      have hloop := hc.loop
      generalize s'.loop = loop at hloop
      cases hloop with
      | stays _ hno => exact absurd hasks hno
      | next hidle hended => exact hhas.over hidle hended
      | return_ hidle hended => exact hhas.over hidle hended
    obtain ⟨how, hended⟩ := hended
    refine ⟨f, how, hended, hpromise, ?_⟩
    rw [hc.effects, handedBy_append]
    exact List.mem_append_left _ (h.body f hhas)

theorem Coupled.calls (h : Coupled tr s) (hc : s.Called tr l call s')
    (hwaits : ∀ t p, s'.waiting t = some p → ∃ e k,
      s'.sys.threads[t]? = some (.call (.deliver e) k) ∧ (deliveriesOf s'.log)[p]? = some e) :
    Coupled (tr ++ [l]) s' := by
  have hpulled := pulled_call s.session h.pulls call
  obtain ⟨hpulls, hnew⟩ := pull_lt s.session call
  have hsound : Sound s'.log s'.session := by
    rw [hc.session, hc.log]
    exact h.sound.call call
  refine ⟨hsound, ?_, fun n => h.puller_called hc, fun n a => h.answered_called hc, ?_,
    fun f => h.body_called hc, fun f => h.flying_called hc, fun p => h.resolved_called hc, hwaits⟩
  · intro n hn
    rw [hc.session] at hn ⊢
    rcases (hpulled.puller n hn).2 with hold | hpull
    · exact Nat.lt_of_lt_of_le (h.pulls n hold) hpulls
    · exact (hnew n hpull).2
  · intro f hf
    rw [hc.effects, handedBy_append] at hf
    rcases List.mem_append.1 hf with hold | hfresh
    · rcases h.current f hold with hhas | ⟨how, hended⟩
      · exact hhas.kept hc
      · exact Or.inr ⟨how, List.mem_append_left _ hended⟩
    · obtain ⟨n, hn⟩ := hand_of_handedBy hfresh
      exact Or.inl (h.handed hc hn)

end Called

/-- A step that leaves the session as it is. -/
theorem Coupled.idle (h : Coupled tr s) (hsession : s'.session = s.session) (hlog : s'.log = s.log)
    (hhas : ∀ f, s'.HasEvent f ↔ s.HasEvent f)
    (hpuller : ∀ n, s.session.consumer.puller = some n → s'.loop = .pulling n)
    (hwaits : ∀ t p, s'.waiting t = some p → ∃ e k,
      s'.sys.threads[t]? = some (.call (.deliver e) k) ∧ (deliveriesOf s'.log)[p]? = some e) :
    Coupled (tr ++ [l]) s' := by
  refine ⟨?_, ?_, ?_, ?_, ?_, ?_, ?_, ?_, hwaits⟩
  · rw [hsession, hlog]
    exact h.sound
  · rw [hsession]
    exact h.pulls
  · rw [hsession, hlog]
    exact fun n hn => ⟨hpuller n hn, (h.puller n hn).2⟩
  · rw [hsession, hlog]
    exact h.answered
  · rw [hlog]
    intro f hf
    refine (h.current f hf).imp (hhas f).2 ?_
    rintro ⟨how, hended⟩
    exact ⟨how, List.mem_append_left _ hended⟩
  · rw [hlog]
    exact fun f hf => h.body f ((hhas f).1 hf)
  · rw [hsession]
    exact fun f hf => (hhas f).2 (h.flying f hf)
  · rw [hlog]
    intro p hp
    obtain ⟨f, how, hended, hrest⟩ := h.resolved p hp
    exact ⟨f, how, List.mem_append_left _ hended, hrest⟩

variable {entry : Prog (Op ι) Ans Unit → Prop} {w : World ι} {G : Subscribed ι → SubLabel ι → Prop}

/-- A thread that awaits a delivery stays at its call. -/
theorem Coupled.awaits (h : Coupled tr s) {l : Label (system ι)} {c : Config (system ι)}
    (hstep : Step (system ι) entry s.sys l c) {t p : Nat} (ht : s.resumed l t = some p) :
    ∃ e k, c.threads[t]? = some (.call (.deliver e) k) ∧ (deliveriesOf s.log)[p]? = some e := by
  have hkeep : ∀ e k ps, s.sys.threads[t]? = some (.call (.deliver e) k) →
      (s.sys.threads ++ ps)[t]? = some (.call (.deliver e) k) := by
    intro e k ps hthread
    rw [List.getElem?_append_left (List.getElem?_eq_some_iff.1 hthread).1]
    exact hthread
  cases hstep with
  | start hp =>
    obtain ⟨e, k, hthread, he⟩ := h.waits t p ht
    exact ⟨e, k, hkeep e k _ hthread, he⟩
  | drift d => exact h.waits t p ht
  | @act u o k₀ ch a w' hu hw =>
    have hwaiting : s.waiting t = some p := by
      cases o with
      | deliver e =>
        simp only [Subscribed.resumed, Function.update_apply] at ht
        split at ht
        · cases ht
        · exact ht
      | _ => exact ht
    obtain ⟨e, k, hthread, he⟩ := h.waits t p hwaiting
    have hne : u ≠ t := by
      rintro rfl
      obtain ⟨rfl, -⟩ := Prog.call.inj (Option.some.inj (hu.symm.trans hthread))
      simp [Subscribed.resumed] at ht
    refine ⟨e, k, ?_, he⟩
    simp only [Config.resume]
    rw [List.getElem?_append_left, List.getElem?_set_ne hne]
    · exact hthread
    · rw [List.length_set]
      exact (List.getElem?_eq_some_iff.1 hthread).1

theorem deliveriesOf_append_get {log log' : List (Moment ι)} {p : Nat} {e : WatukuyEvent ι}
    (h : (deliveriesOf log)[p]? = some e) : (deliveriesOf (log ++ log'))[p]? = some e := by
  rw [deliveriesOf_append, List.getElem?_append_left (List.getElem?_eq_some_iff.1 h).1]
  exact h

theorem Coupled.step (h : Coupled tr s) (hs : SubStep entry s l s') : Coupled (tr ++ [l]) s' := by
  -- the log only grows, so a waiting delivery keeps its place in it
  have hwaits : ∀ call t p, s.waiting t = some p → ∃ e k,
      s.sys.threads[t]? = some (.call (.deliver e) k) ∧
        (deliveriesOf (s.log ++ s.session.shows call))[p]? = some e := by
    intro call t p ht
    obtain ⟨e, k, hthread, he⟩ := h.waits t p ht
    exact ⟨e, k, hthread, deliveriesOf_append_get he⟩
  cases hs with
  | sys step settled =>
    exact h.idle rfl rfl (fun f => Iff.rfl) (fun n hn => (h.puller n hn).1)
      fun t p ht => h.awaits step ht
  | @send t e k at_ free =>
    refine h.calls ⟨rfl, rfl, .stays rfl id⟩ ?_
    intro u p hu
    -- the new delivery is the last one of the log, the others were there before
    by_cases hut : u = t
    · subst hut
      obtain rfl : s.session.delivers = p := by simpa using hu
      refine ⟨e, k, at_, ?_⟩
      rw [show (s.calls (.deliver e)).log = s.log ++ s.session.shows (.deliver e) from rfl,
        deliveriesOf_append, deliveriesOf_shows, ← h.sound.delivers]
      simp [Session.arrived]
    · exact hwaits _ u p (by simpa [Function.update_apply, hut] using hu)
  | begins fresh =>
    refine h.calls ⟨rfl, rfl, .next ?_ ?_⟩ (hwaits .next)
    · intro n
      rw [fresh]
      rintro ⟨⟩
    · intro f hf
      rw [fresh] at hf
      cases hf
  | @takes n f pulling answered =>
    -- the loop moves on, the session stays: the answered pull becomes the body
    refine h.idle rfl rfl ?_ ?_ h.waits
    · intro g
      constructor
      · rintro (hbody | ⟨m, hpulling, -⟩)
        · obtain rfl := Loop.body.inj hbody
          exact Or.inr ⟨n, pulling, answered⟩
        · cases hpulling
      · rintro (hbody | ⟨m, hpulling, ha⟩)
        · rw [pulling] at hbody
          cases hbody
        · obtain rfl := Loop.pulling.inj (pulling.symm.trans hpulling)
          obtain rfl := Option.some.inj (Option.some.inj (answered.symm.trans ha))
          exact Or.inl rfl
    · intro m hm
      obtain ⟨hpulling, hnone⟩ := h.puller m hm
      obtain rfl := Loop.pulling.inj (pulling.symm.trans hpulling)
      rw [answered] at hnone
      cases hnone
  | @leaves n pulling answered =>
    refine h.idle rfl rfl ?_ ?_ h.waits
    · intro g
      constructor
      · rintro (hbody | ⟨m, hpulling, -⟩)
        · cases hbody
        · cases hpulling
      · rintro (hbody | ⟨m, hpulling, ha⟩)
        · rw [pulling] at hbody
          cases hbody
        · obtain rfl := Loop.pulling.inj (pulling.symm.trans hpulling)
          rw [answered] at ha
          cases ha
    · intro m hm
      obtain ⟨hpulling, hnone⟩ := h.puller m hm
      obtain rfl := Loop.pulling.inj (pulling.symm.trans hpulling)
      rw [answered] at hnone
      cases hnone
  | @completes f body =>
    refine h.calls ⟨rfl, rfl, .next ?_ ?_⟩ (hwaits .next)
    · intro n
      rw [body]
      rintro ⟨⟩
    · intro g hg
      obtain rfl := Loop.body.inj (body.symm.trans hg)
      exact ⟨.completes, List.mem_append_right _ (List.mem_singleton_self _)⟩
  | @abrupt f how body _ =>
    refine h.calls ⟨rfl, rfl, .return_ ?_ ?_⟩ (hwaits .return_)
    · intro n
      rw [body]
      rintro ⟨⟩
    · intro g hg
      obtain rfl := Loop.body.inj (body.symm.trans hg)
      exact ⟨how, List.mem_append_right _ (List.mem_singleton_self _)⟩
  | closes reason => exact h.calls ⟨rfl, rfl, .stays rfl id⟩ (hwaits (.close reason))

theorem SubRun.coupled (h : SubRun entry w G tr s) : Coupled tr s := by
  induction h with
  | nil aborted =>
    have hsound : Sound ([] : List (Moment ι)) (Session.start aborted) := sound_start aborted
    have hcreate : (Session.start aborted : Session ι).consumer.puller = none ∧
        (Session.start aborted : Session ι).consumer.inflight = none := by
      cases aborted <;> exact ⟨rfl, rfl⟩
    refine ⟨hsound, ?_, ?_, ?_, ?_, ?_, ?_, ?_, ?_⟩
    · intro n hn
      cases hcreate.1.symm.trans hn
    · intro n hn
      cases hcreate.1.symm.trans hn
    · intro n a ha
      cases ha
    · intro f hf
      cases hf
    · rintro f (hbody | ⟨n, hpulling, -⟩)
      · cases hbody
      · cases hpulling
    · intro f hf
      cases hcreate.2.symm.trans hf
    · intro p hp
      cases hp
    · intro t p ht
      cases ht
  | step h hs hG ih => exact ih.step hs

end Coupled

end Watukuy
