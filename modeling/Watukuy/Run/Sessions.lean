import Watukuy.Run.ForAwait
import Watukuy.Run.Scenarios

/-!
# Scenarios with a subscription

A cue starts a program, lets a thread go on, or is a step of the loop or of whoever closes the
subscription. `Subscribed.plays` computes the run of a list of cues, and `plays_run` says that it is
one of the runs of the system with its loop.
-/

set_option autoImplicit false

namespace Watukuy

open Library

variable {ι : Type}

/-- A cue of a scenario. -/
inductive Cue (ι : Type) where
  | start (p : Prog (Op ι) Ans Unit)
  /-- Thread `t` takes up to `n` steps; it waits where a delivery is not settled. -/
  | run (t n : Nat) (policy : Op ι → Choice ι)
  | abort (x : OuterAbort)
  | begins
  | takes
  | leaves
  | ends (how : BodyEnd)
  | closes (reason : Option JsError)

/-- One step of thread `t`, if it can take one. -/
def Subscribed.advance (s : Subscribed ι) (t : Nat) (policy : Op ι → Choice ι) :
    Option (SubLabel ι × Subscribed ι) :=
  match s.sys.threads[t]? with
  | some (.call (.deliver e) k) =>
    match s.waiting t with
    | none =>
      some (.send t e, { s.calls (.deliver e) with
        waiting := Function.update s.waiting t (some s.session.delivers) })
    | some p =>
      match resultIn (effectsOf s.log) p with
      | none => none
      | some a =>
        some (.sys (.act t (.deliver e) (.settle a) a),
          { s with
            sys := s.sys.resume t (.deliver e) a k s.sys.world
            waiting := Function.update s.waiting t none })
  | some (.call o k) =>
    match perform o (policy o) s.sys.world with
    | none => none
    | some (a, w') =>
      some (.sys (.act t o (policy o) a),
        { s with
          sys := s.sys.resume t o a k w'
          waiting := s.resumed (.act t o (policy o) a) })
  | _ => none

/-- The steps of a cue: its first one, and for a thread that goes on the others. -/
def Subscribed.follow (s : Subscribed ι) : Cue ι → Option (SubLabel ι × Subscribed ι)
  | .start p => some (.sys (.start p), { s with sys := ⟨s.sys.world, s.sys.threads ++ [p]⟩ })
  | .run t _ policy => s.advance t policy
  | .abort x =>
    some (.sys (.drift x),
      { s with sys := ⟨(system ι).drift x s.sys.world, s.sys.threads⟩ })
  | .begins =>
    match s.loop with
    | .fresh => some (.begins, { s.calls .next with loop := .pulling s.session.pulls })
    | _ => none
  | .takes =>
    match s.loop with
    | .pulling n =>
      match answerIn (effectsOf s.log) n with
      | some (some f) => some (.takes f, { s with loop := .body f })
      | _ => none
    | _ => none
  | .leaves =>
    match s.loop with
    | .pulling n =>
      match answerIn (effectsOf s.log) n with
      | some none => some (.leaves, { s with loop := .left })
      | _ => none
    | _ => none
  | .ends .completes =>
    match s.loop with
    | .body f =>
      some (.ends f .completes, { s.calls .next with loop := .pulling s.session.pulls })
    | _ => none
  | .ends how =>
    match s.loop with
    | .body f => some (.ends f how, { s.calls .return_ with loop := .left })
    | _ => none
  | .closes reason => some (.closes reason, s.calls (.close reason))

/-- A thread that goes on until it waits, ends, or has taken `n` steps all of which pass `check`. -/
def Subscribed.goes (check : Subscribed ι → SubLabel ι → Bool) (t : Nat) (policy : Op ι → Choice ι) :
    Nat → Subscribed ι → List (SubLabel ι) × Subscribed ι
  | 0, s => ([], s)
  | n + 1, s =>
    match s.advance t policy with
    | none => ([], s)
    | some (l, s') =>
      if check s l then
        let (tr, s'') := s'.goes check t policy n
        (l :: tr, s'')
      else ([], s)

/-- The run of a list of cues, unless a step fails the check. -/
def Subscribed.plays (check : Subscribed ι → SubLabel ι → Bool) :
    Subscribed ι → List (Cue ι) → Option (List (SubLabel ι) × Subscribed ι)
  | s, [] => some ([], s)
  | s, .run t n policy :: cues =>
    let (tr, s') := s.goes check t policy n
    (s'.plays check cues).map fun r => (tr ++ r.1, r.2)
  | s, cue :: cues =>
    match s.follow cue with
    | none => none
    | some (l, s') =>
      if check s l then (s'.plays check cues).map fun r => (l :: r.1, r.2) else none

section Plays

variable {entry : Prog (Op ι) Ans Unit → Prop} {w : World ι} {G : Subscribed ι → SubLabel ι → Prop}
  {tr tr' : List (SubLabel ι)} {s s' : Subscribed ι} {l : SubLabel ι}
  {check : Subscribed ι → SubLabel ι → Bool}

theorem advance_step {t : Nat} {policy : Op ι → Choice ι} (h : s.advance t policy = some (l, s')) :
    SubStep entry s l s' := by
  unfold Subscribed.advance at h
  split at h
  · rename_i e k ht
    split at h
    · rename_i hfree
      obtain ⟨rfl, rfl⟩ := Prod.mk.inj (Option.some.inj h)
      exact .send ht hfree
    · rename_i p hwaiting
      split at h
      · cases h
      · rename_i a ha
        obtain ⟨rfl, rfl⟩ := Prod.mk.inj (Option.some.inj h)
        refine .sys (.act ht rfl) ?_
        rintro t' e' ch' a' ⟨⟩
        exact ⟨p, hwaiting, ha⟩
  · rename_i o k hdeliver ht
    split at h
    · cases h
    · rename_i a w' hw
      obtain ⟨rfl, rfl⟩ := Prod.mk.inj (Option.some.inj h)
      refine .sys (.act ht hw) ?_
      intro t' e' ch' a' heq
      cases heq
      exact (hdeliver e' k rfl HEq.rfl).elim
  · cases h

/-- A cue that starts a program starts one of `entry`. -/
def Cue.Admitted (entry : Prog (Op ι) Ans Unit → Prop) : Cue ι → Prop
  | .start p => entry p
  | _ => True

theorem follow_step {cue : Cue ι} (hentry : cue.Admitted entry) (h : s.follow cue = some (l, s')) :
    SubStep entry s l s' := by
  cases cue with
  | start p =>
    simp only [Subscribed.follow, Option.some.injEq, Prod.mk.injEq] at h
    obtain ⟨rfl, rfl⟩ := h
    refine .sys (.start hentry) ?_
    intro t e ch a heq
    cases heq
  | run t n policy => exact advance_step h
  | abort x =>
    simp only [Subscribed.follow, Option.some.injEq, Prod.mk.injEq] at h
    obtain ⟨rfl, rfl⟩ := h
    refine .sys (Step.drift (M := system ι) x) ?_
    intro t e ch a heq
    cases heq
  | begins =>
    simp only [Subscribed.follow] at h
    split at h
    · rename_i hfresh
      obtain ⟨rfl, rfl⟩ := Prod.mk.inj (Option.some.inj h)
      exact .begins hfresh
    · cases h
  -- a cue that does not fit the state of the loop is not followed
  | takes =>
    simp only [Subscribed.follow] at h
    split at h
    · rename_i n hpulling
      split at h
      · rename_i f ha
        obtain ⟨rfl, rfl⟩ := Prod.mk.inj (Option.some.inj h)
        exact .takes hpulling ha
      · cases h
    · cases h
  | leaves =>
    simp only [Subscribed.follow] at h
    split at h
    · rename_i n hpulling
      split at h
      · rename_i ha
        obtain ⟨rfl, rfl⟩ := Prod.mk.inj (Option.some.inj h)
        exact .leaves hpulling ha
      · cases h
    · cases h
  | ends how =>
    cases how with
    | completes =>
      simp only [Subscribed.follow] at h
      split at h
      · rename_i f hbody
        obtain ⟨rfl, rfl⟩ := Prod.mk.inj (Option.some.inj h)
        exact .completes hbody
      · cases h
    | breaks =>
      simp only [Subscribed.follow] at h
      split at h
      · rename_i f hbody
        obtain ⟨rfl, rfl⟩ := Prod.mk.inj (Option.some.inj h)
        exact .abrupt hbody nofun
      · cases h
    | throws =>
      simp only [Subscribed.follow] at h
      split at h
      · rename_i f hbody
        obtain ⟨rfl, rfl⟩ := Prod.mk.inj (Option.some.inj h)
        exact .abrupt hbody nofun
      · cases h
  | closes reason =>
    simp only [Subscribed.follow, Option.some.injEq, Prod.mk.injEq] at h
    obtain ⟨rfl, rfl⟩ := h
    exact .closes reason

theorem goes_run (hcheck : ∀ s l, check s l = true → G s l) (t : Nat) (policy : Op ι → Choice ι)
    (n : Nat) (h : SubRun entry w G tr s) :
    SubRun entry w G (tr ++ (s.goes check t policy n).1) (s.goes check t policy n).2 := by
  have hnil : SubRun entry w G (tr ++ []) s := by
    rw [List.append_nil]
    exact h
  induction n generalizing tr s with
  | zero => exact hnil
  | succ n ih =>
    simp only [Subscribed.goes]
    split
    · exact hnil
    · rename_i l s₁ hl
      split
      · rename_i hpass
        have hstep := h.step (advance_step hl) (hcheck s l hpass)
        have hrest := ih hstep (by rw [List.append_nil]; exact hstep)
        rw [List.append_assoc] at hrest
        exact hrest
      · exact hnil

/-- What a list of cues computes is a run. -/
theorem plays_run (hcheck : ∀ s l, check s l = true → G s l) {cues : List (Cue ι)}
    (hentry : ∀ cue ∈ cues, cue.Admitted entry) (h : SubRun entry w G tr s)
    (hplays : s.plays check cues = some (tr', s')) : SubRun entry w G (tr ++ tr') s' := by
  induction cues generalizing tr tr' s with
  | nil =>
    obtain ⟨rfl, rfl⟩ := Prod.mk.inj (Option.some.inj hplays)
    rw [List.append_nil]
    exact h
  | cons cue cues ih =>
    have hrest : ∀ cue ∈ cues, cue.Admitted entry := fun c hc => hentry c (List.mem_cons_of_mem cue hc)
    have hother : ∀ l s₁, SubStep entry s l s₁ → check s l = true →
        (s₁.plays check cues).map (fun r => (l :: r.1, r.2)) = some (tr', s') →
          SubRun entry w G (tr ++ tr') s' := by
      intro l s₁ hstep hpass hmap
      obtain ⟨r, hr, heq⟩ := Option.map_eq_some_iff.1 hmap
      obtain ⟨rfl, rfl⟩ := Prod.mk.inj heq
      have hrun := ih hrest (h.step hstep (hcheck s l hpass)) hr
      rw [List.append_assoc] at hrun
      exact hrun
    cases cue with
    | run t n policy =>
      obtain ⟨r, hr, heq⟩ := Option.map_eq_some_iff.1 hplays
      obtain ⟨rfl, rfl⟩ := Prod.mk.inj heq
      have hrun := ih hrest (goes_run hcheck t policy n h) hr
      rw [List.append_assoc] at hrun
      exact hrun
    | _ =>
      simp only [Subscribed.plays] at hplays
      split at hplays
      · cases hplays
      · rename_i l s₁ hl
        split at hplays
        · rename_i hpass
          exact hother l s₁ (follow_step (hentry _ List.mem_cons_self) hl) hpass hplays
        · cases hplays

/-- A check of what the cues compute is a check of a run. -/
theorem cues_run (check : Subscribed ι → SubLabel ι → Bool) (w : World ι)
    (aborted : Option (Option JsError)) (hcheck : ∀ s l, check s l = true → G s l) (cues : List (Cue ι))
    (hentry : ∀ cue ∈ cues, cue.Admitted entry)
    (test : List (SubLabel ι) → Subscribed ι → Bool)
    (h : ((Subscribed.start w aborted).plays check cues).any (fun r => test r.1 r.2) = true) :
    ∃ tr s, SubRun entry w G tr s ∧ test tr s = true := by
  cases hplays : (Subscribed.start w aborted).plays check cues with
  | none =>
    rw [hplays] at h
    cases h
  | some r =>
    rw [hplays] at h
    have hrun := plays_run hcheck hentry (.nil aborted) hplays
    rw [List.nil_append] at hrun
    exact ⟨r.1, r.2, hrun, h⟩

end Plays

/-- The polls of a deployment on samples, by one instance with a consumer. -/
def polls (d : Deployment Sample) : Cue Sample := .start (forced.prog (instanceOf d true))

theorem polls_admitted (d : Deployment Sample) :
    (polls d).Admitted (d.entry EngineCall.KeepsKey) :=
  ⟨instanceOf d true, forced, instanceOf_in d true, trivial, rfl⟩

end Watukuy
