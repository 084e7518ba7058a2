import Mathlib.Algebra.Order.Ring.Int
import Mathlib.Algebra.Order.Monoid.Unbundled.Basic
import Watukuy.Testing.VirtualClock

/-!
# The order of the virtual clock

The pending timers stay in order, the least of them fires, each at most once and none that was
cancelled: so it is in every run. An advance ends by setting the clock to its target, and an advance
that overlaps may have moved the clock past that target meanwhile (`Overtaken`). Only then does the
clock run backwards (`clock_orderly_iff`), and while it does not, the timers of a whole run fire in order
(`fired_in_order`).
-/

set_option autoImplicit false

namespace Watukuy

open Library

variable {T : Type} [LinearOrder T]

namespace VirtualTimer

theorem key_lt_iff {a b : VirtualTimer T} :
    a.key < b.key ↔ a.dueAt < b.dueAt ∨ (a.dueAt = b.dueAt ∧ a.id < b.id) :=
  Prod.Lex.toLex_lt_toLex

theorem dueAt_le {a b : VirtualTimer T} (h : a.key < b.key) : a.dueAt ≤ b.dueAt := by
  rcases key_lt_iff.1 h with hlt | ⟨heq, -⟩
  · exact hlt.le
  · exact heq.le

end VirtualTimer

namespace VirtualClock

/-- The event ends an advance, and the clock is past its target. -/
def Overtaken (s : VirtualClock T) : ClockEvent T → Prop
  | .round call => ∃ target, s.awaiting[call]? = some (.runUntil target, 0) ∧
      (∀ due ∈ s.nextDueAt, target < due) ∧ target < s.now
  | _ => False

instance (s : VirtualClock T) (e : ClockEvent T) : Decidable (s.Overtaken e) :=
  match e with
  | .round call =>
    match h : s.awaiting[call]? with
    | some (.runUntil target, 0) =>
      decidable_of_iff ((∀ due ∈ s.nextDueAt, target < due) ∧ target < s.now)
        (by simp [Overtaken, h])
    | some (.runUntil _, _ + 1) | some (.runNext, _) | some (.runAll _ _, _) | none =>
      .isFalse (by simp [Overtaken, h])
  | .setTimeout _ | .clearTimeout _ | .advance _ | .advanceTo _ | .runNext | .runAll _ | .returns
  | .throws => .isFalse id

/-- The pending timers are in order, under handles of their own. -/
structure Tidy (s : VirtualClock T) : Prop where
  sorted : s.timers.Pairwise fun a b => a.key < b.key
  issued : ∀ timer ∈ s.timers, timer.id ≤ s.seq
  distinct : (s.timers.map VirtualTimer.id).Nodup

/-! ## What a step can do -/

/-- What a step makes of the clock and of its timers. -/
inductive Turn [Zero T] [Add T] (s : VirtualClock T) (e : ClockEvent T) (s' : VirtualClock T) :
    ClockAnswer T → Prop
  /-- Nothing. -/
  | still {a : ClockAnswer T} (now : s'.now = s.now) (seq : s'.seq = s.seq)
      (timers : s'.timers = s.timers) (silent : ∀ timer, a ≠ .fired timer)
      (ahead : ¬s.Overtaken e) : Turn s e s' a
  | schedule (delay : T) (nonneg : 0 ≤ delay) (now : s'.now = s.now) (seq : s'.seq = s.seq + 1)
      (timers : s'.timers = (s.insert { id := s.seq + 1, dueAt := s.now + delay }).timers)
      (ahead : ¬s.Overtaken e) : Turn s e s' (.handle (s.seq + 1))
  | cancel (handle : Nat) (event : e = .clearTimeout (some handle)) (now : s'.now = s.now)
      (seq : s'.seq = s.seq) (timers : s'.timers = s.timers.eraseP fun timer => timer.id = handle) :
      Turn s e s' .done
  | fire (timer : VirtualTimer T) (head : s.timers = timer :: s'.timers)
      (now : s'.now = max s.now timer.dueAt) (seq : s'.seq = s.seq) (ahead : ¬s.Overtaken e) :
      Turn s e s' (.fired timer)
  /-- An advance ends. -/
  | land (target : T) (now : s'.now = target) (seq : s'.seq = s.seq) (timers : s'.timers = s.timers)
      (overtaken : s.Overtaken e ↔ target < s.now) : Turn s e s' .done

theorem delay_nonneg [Zero T] (ms : Option T) : 0 ≤ delay ms := by
  cases ms with
  | none => exact le_rfl
  | some ms =>
    simp only [delay]
    split
    · next hpos => exact hpos.le
    · exact le_rfl

section Turn

variable [Zero T] [Add T] {s s' : VirtualClock T} {e : ClockEvent T} {a : ClockAnswer T}

theorem fire_turn {rest : VirtualClock T} {timer : VirtualTimer T} (call : ClockCall T)
    (hnow : rest.now = s.now) (hseq : rest.seq = s.seq) (htimers : s.timers = timer :: rest.timers)
    (hahead : ¬s.Overtaken e) : Turn s e (rest.fire timer call).1 (rest.fire timer call).2 := by
  refine .fire timer htimers ?_ hseq hahead
  simp only [fire, hnow]
  split
  · next hlt => exact (max_eq_right hlt.le).symm
  · next hge => exact (max_eq_left (not_lt.1 hge)).symm

/-- The loop of an advance, from a state with the clock and the timers of `s`. -/
theorem runUntil_turn {r : VirtualClock T} (target : T) (hnow : r.now = s.now)
    (hseq : r.seq = s.seq) (htimers : r.timers = s.timers)
    (hovertaken : s.Overtaken e ↔ (∀ due ∈ s.nextDueAt, target < due) ∧ target < s.now) :
    Turn s e (r.runUntil target).1 (r.runUntil target).2 := by
  unfold runUntil
  split
  · next head timers heq =>
    have hpending : s.timers = head :: timers := htimers.symm.trans heq
    have hdue : s.nextDueAt = some head.dueAt := by
      rw [nextDueAt, hpending]
      rfl
    split
    · next hlate =>
      refine .land target rfl hseq htimers ?_
      rw [hovertaken, hdue]
      exact ⟨fun h => h.2, fun h => ⟨fun due hd => Option.some.inj hd ▸ hlate, h⟩⟩
    · next hdueNow =>
      refine fire_turn (.runUntil target) hnow hseq hpending ?_
      rw [hovertaken, hdue]
      exact fun h => hdueNow (h.1 _ rfl)
  · next heq =>
    refine .land target rfl hseq htimers ?_
    rw [hovertaken, nextDueAt, ← htimers, heq]
    exact ⟨fun h => h.2, fun h => ⟨nofun, h⟩⟩

theorem runAll_turn {r : VirtualClock T} (fired : Nat) (maxTimers : Option Nat)
    (hnow : r.now = s.now) (hseq : r.seq = s.seq) (htimers : r.timers = s.timers)
    (hahead : ¬s.Overtaken e) : Turn s e (r.runAll fired maxTimers).1 (r.runAll fired maxTimers).2 := by
  unfold runAll
  split
  · next timer timers heq =>
    split
    · exact .still hnow hseq htimers nofun hahead
    · exact fire_turn (.runAll (fired + 1) maxTimers) hnow hseq (htimers.symm.trans heq) hahead
  · exact .still hnow hseq htimers nofun hahead

end Turn

section Steps

variable [AddZeroClass T] [AddLeftMono T] {s s' : VirtualClock T} {e : ClockEvent T}
  {a : ClockAnswer T}

/-- Every step is one of the turns. -/
theorem step_turn (h : s.step e = some (s', a)) : Turn s e s' a := by
  cases e with
  | setTimeout ms =>
    obtain ⟨rfl, rfl⟩ := Prod.mk.inj (Option.some.inj h)
    exact .schedule (delay ms) (delay_nonneg ms) rfl rfl rfl id
  | clearTimeout handle =>
    obtain ⟨rfl, rfl⟩ := Prod.mk.inj (Option.some.inj h)
    cases handle with
    | none => exact .still rfl rfl rfl nofun id
    | some handle => exact .cancel handle rfl rfl rfl rfl
  | advance ms =>
    simp only [step, Option.some.injEq] at h
    cases ms with
    | none =>
      obtain ⟨rfl, rfl⟩ := Prod.mk.inj h
      exact .still rfl rfl rfl nofun id
    | some ms =>
      simp only [advance] at h
      split at h
      · obtain ⟨rfl, rfl⟩ := Prod.mk.inj h
        exact .still rfl rfl rfl nofun id
      · next hnonneg =>
        -- the target of a new advance is not behind
        have hahead : s.now ≤ s.now + ms := le_add_of_nonneg_right (not_lt.1 hnonneg)
        have hturn : Turn s (.advance (some ms)) _ _ :=
          runUntil_turn (r := s) (s.now + ms) rfl rfl rfl
            ⟨False.elim, fun hlt => absurd hlt.2 (not_lt.2 hahead)⟩
        rw [h] at hturn
        exact hturn
  | advanceTo timestamp =>
    simp only [step, Option.some.injEq] at h
    cases timestamp with
    | none =>
      obtain ⟨rfl, rfl⟩ := Prod.mk.inj h
      exact .still rfl rfl rfl nofun id
    | some target =>
      simp only [advanceTo] at h
      split at h
      · obtain ⟨rfl, rfl⟩ := Prod.mk.inj h
        exact .still rfl rfl rfl nofun id
      · next hahead =>
        have hturn : Turn s (.advanceTo (some target)) _ _ :=
          runUntil_turn (r := s) target rfl rfl rfl
            ⟨False.elim, fun hlt => absurd hlt.2 hahead⟩
        rw [h] at hturn
        exact hturn
  | runNext =>
    simp only [step, runNext, Option.some.injEq] at h
    split at h
    · next timer timers heq =>
      have hturn : Turn s .runNext ({ s with timers }.fire timer .runNext).1
          ({ s with timers }.fire timer .runNext).2 :=
        fire_turn .runNext rfl rfl heq id
      rw [h] at hturn
      exact hturn
    · obtain ⟨rfl, rfl⟩ := Prod.mk.inj h
      exact .still rfl rfl rfl nofun id
  | runAll maxTimers =>
    simp only [step, Option.some.injEq] at h
    have hturn : Turn s (.runAll maxTimers) _ _ :=
      runAll_turn (r := s) 0 maxTimers rfl rfl rfl id
    rw [h] at hturn
    exact hturn
  | returns =>
    simp only [step] at h
    split at h
    · obtain ⟨rfl, rfl⟩ := Prod.mk.inj (Option.some.inj h)
      exact .still rfl rfl rfl nofun id
    · cases h
  | throws =>
    simp only [step] at h
    split at h
    · obtain ⟨rfl, rfl⟩ := Prod.mk.inj (Option.some.inj h)
      exact .still rfl rfl rfl nofun id
    · cases h
  | round i =>
    simp only [step] at h
    split at h
    · cases h
    · split at h
      · next call rounds hcall =>
        obtain ⟨rfl, rfl⟩ := Prod.mk.inj (Option.some.inj h)
        refine .still rfl rfl rfl nofun ?_
        rintro ⟨target, hlast, -⟩
        rw [hcall] at hlast
        cases hlast
      · next call hcall =>
        have hother : (∀ target, call ≠ .runUntil target) → ¬s.Overtaken (.round i) := by
          rintro hne ⟨target, hlast, -⟩
          rw [hcall] at hlast
          cases hlast
          exact hne target rfl
        cases call with
        | runUntil target =>
          have hends : s.Overtaken (.round i) ↔
              (∀ due ∈ s.nextDueAt, target < due) ∧ target < s.now := by
            constructor
            · rintro ⟨target', hlast, hends⟩
              rw [hcall] at hlast
              cases hlast
              exact hends
            · intro hends
              exact ⟨target, hcall, hends⟩
          have hturn : Turn s (.round i) _ _ :=
            runUntil_turn (r := { s with awaiting := s.awaiting.eraseIdx i }) target rfl rfl rfl hends
          have heq : { s with awaiting := s.awaiting.eraseIdx i }.runUntil target = (s', a) :=
            Option.some.inj h
          rw [heq] at hturn
          exact hturn
        | runNext =>
          obtain ⟨rfl, rfl⟩ := Prod.mk.inj (Option.some.inj h)
          exact .still rfl rfl rfl nofun (hother nofun)
        | runAll fired maxTimers =>
          have hturn : Turn s (.round i) _ _ :=
            runAll_turn (r := { s with awaiting := s.awaiting.eraseIdx i }) fired maxTimers rfl rfl rfl
              (hother nofun)
          have heq : { s with awaiting := s.awaiting.eraseIdx i }.runAll fired maxTimers = (s', a) :=
            Option.some.inj h
          rw [heq] at hturn
          exact hturn
      · cases h

end Steps

/-! ## What a step preserves -/

/-- The handle was issued, and its timer is no longer pending. -/
structure Gone (s : VirtualClock T) (id : Nat) : Prop where
  issued : id ≤ s.seq
  absent : ∀ timer ∈ s.timers, timer.id ≠ id

section Kept

variable {s s' : VirtualClock T} {e : ClockEvent T} {a : ClockAnswer T}

theorem mem_insert {timer other : VirtualTimer T} :
    other ∈ (s.insert timer).timers ↔ other = timer ∨ other ∈ s.timers :=
  mem_splice

/-- A timer that was not due before the pending ones is inserted behind them. -/
theorem Tidy.insert_sorted (hs : s.Tidy) (dueAt : T) :
    (s.insert { id := s.seq + 1, dueAt }).timers.Pairwise fun a b => a.key < b.key := by
  refine pairwise_splice hs.sorted ?_ ?_ ?_
  · refine hs.sorted.imp ?_
    intro a b hlt hb
    exact decide_eq_true ((VirtualTimer.dueAt_le hlt).trans (of_decide_eq_true hb))
  · intro a ha hdue
    refine VirtualTimer.key_lt_iff.2 ?_
    rcases (of_decide_eq_true hdue).lt_or_eq with hlt | heq
    · exact .inl hlt
    · exact .inr ⟨heq, Nat.lt_succ_of_le (hs.issued a ha)⟩
  · intro b _ hlate
    exact VirtualTimer.key_lt_iff.2 (.inl (not_le.1 (of_decide_eq_false hlate)))

theorem Tidy.insert_distinct (hs : s.Tidy) (dueAt : T) :
    ((s.insert { id := s.seq + 1, dueAt }).timers.map VirtualTimer.id).Nodup := by
  refine ((splice_perm s.timers _ _).map VirtualTimer.id).nodup_iff.2 ?_
  refine List.nodup_cons.2 ⟨?_, hs.distinct⟩
  intro hmem
  obtain ⟨timer, htimer, heq⟩ := List.mem_map.1 hmem
  have hissued := hs.issued timer htimer
  rw [heq] at hissued
  exact Nat.not_succ_le_self s.seq hissued

/-- The head of pending timers in order is the least of them. -/
theorem Tidy.head_least (hs : s.Tidy) {timer : VirtualTimer T} {timers : List (VirtualTimer T)}
    (h : s.timers = timer :: timers) : ∀ other ∈ s.timers, timer.key ≤ other.key := by
  have hsorted := hs.sorted
  rw [h] at hsorted ⊢
  intro other hother
  rcases List.mem_cons.1 hother with rfl | hother
  · exact le_rfl
  · exact ((List.pairwise_cons.1 hsorted).1 other hother).le

/-- A cancelled timer is pending no more. -/
theorem Tidy.cancelled (hs : s.Tidy) {id : Nat} (hissued : id ≤ s.seq) :
    (s.clearTimeout (some id)).Gone id := by
  refine ⟨hissued, ?_⟩
  intro timer htimer heq
  have hids : (s.timers.eraseP fun timer => timer.id = id).map VirtualTimer.id =
      (s.timers.map VirtualTimer.id).erase id := by
    rw [List.erase_eq_eraseP', List.eraseP_map]
    rfl
  have hmem : timer.id ∈ (s.timers.map VirtualTimer.id).erase id :=
    hids ▸ List.mem_map_of_mem htimer
  rw [heq] at hmem
  exact hs.distinct.not_mem_erase hmem

section Turns

variable [Zero T] [Add T]

theorem Turn.seq_le (h : Turn s e s' a) : s.seq ≤ s'.seq := by
  cases h with
  | still _ hseq => exact hseq.ge
  | schedule _ _ _ hseq =>
    rw [hseq]
    exact Nat.le_succ _
  | cancel _ _ _ hseq => exact hseq.ge
  | fire _ _ _ hseq => exact hseq.ge
  | land _ _ hseq => exact hseq.ge

/-- Only timers under a new handle become pending. -/
theorem Turn.pending (h : Turn s e s' a) {timer : VirtualTimer T} (htimer : timer ∈ s'.timers) :
    timer ∈ s.timers ∨ timer.id = s.seq + 1 := by
  cases h with
  | still _ _ htimers =>
    rw [htimers] at htimer
    exact .inl htimer
  | schedule _ _ _ _ htimers =>
    rw [htimers] at htimer
    rcases mem_insert.1 htimer with rfl | hold
    · exact .inr rfl
    · exact .inl hold
  | cancel _ _ _ _ htimers =>
    rw [htimers] at htimer
    exact .inl (List.mem_of_mem_eraseP htimer)
  | fire _ hhead =>
    rw [hhead]
    exact .inl (List.mem_cons_of_mem _ htimer)
  | land _ _ _ htimers =>
    rw [htimers] at htimer
    exact .inl htimer

theorem Tidy.turn (hs : s.Tidy) (h : Turn s e s' a) : s'.Tidy := by
  cases h with
  | still _ hseq htimers =>
    exact ⟨htimers ▸ hs.sorted, htimers ▸ hseq ▸ hs.issued, htimers ▸ hs.distinct⟩
  | schedule delay _ _ hseq htimers =>
    refine ⟨htimers ▸ hs.insert_sorted _, ?_, htimers ▸ hs.insert_distinct _⟩
    intro timer htimer
    rw [htimers] at htimer
    rw [hseq]
    rcases mem_insert.1 htimer with rfl | hold
    · exact le_rfl
    · exact (hs.issued timer hold).trans (Nat.le_succ _)
  | cancel handle _ _ hseq htimers =>
    have hsub : s'.timers.Sublist s.timers := htimers ▸ List.eraseP_sublist
    refine ⟨hs.sorted.sublist hsub, ?_, hs.distinct.sublist (hsub.map _)⟩
    intro timer htimer
    rw [hseq]
    exact hs.issued timer (hsub.subset htimer)
  | fire timer hhead _ hseq =>
    have hsub : s'.timers.Sublist s.timers := hhead ▸ List.sublist_cons_self _ _
    refine ⟨hs.sorted.sublist hsub, ?_, hs.distinct.sublist (hsub.map _)⟩
    intro timer htimer
    rw [hseq]
    exact hs.issued timer (hsub.subset htimer)
  | land _ _ hseq htimers =>
    exact ⟨htimers ▸ hs.sorted, htimers ▸ hseq ▸ hs.issued, htimers ▸ hs.distinct⟩

/-- The least pending timer fires, and is pending no more. -/
theorem Turn.fires {timer : VirtualTimer T} (hs : s.Tidy) (h : Turn s e s' (.fired timer)) :
    timer ∈ s.timers ∧ (∀ other ∈ s.timers, timer.key ≤ other.key) ∧ s'.Gone timer.id := by
  cases h with
  | still _ _ _ hsilent => exact absurd rfl (hsilent timer)
  | fire _ hhead _ hseq =>
    have hmem : timer ∈ s.timers := hhead ▸ List.mem_cons_self
    refine ⟨hmem, hs.head_least hhead, hseq ▸ hs.issued timer hmem, ?_⟩
    have hdistinct := hs.distinct
    rw [hhead, List.map_cons, List.nodup_cons] at hdistinct
    intro other hother heq
    exact hdistinct.1 (List.mem_map.2 ⟨other, hother, heq⟩)

theorem Gone.turn {id : Nat} (hgone : s.Gone id) (h : Turn s e s' a) : s'.Gone id := by
  refine ⟨hgone.issued.trans h.seq_le, ?_⟩
  intro timer htimer heq
  rcases h.pending htimer with hold | hnew
  · exact hgone.absent timer hold heq
  · have hissued := hgone.issued
    omega

/-- A timer that is gone does not fire. -/
theorem Gone.silent {timer : VirtualTimer T} (hgone : s.Gone timer.id) :
    ¬Turn s e s' (.fired timer) := by
  intro h
  cases h with
  | still _ _ _ hsilent => exact hsilent timer rfl
  | fire _ hhead => exact hgone.absent timer (hhead ▸ List.mem_cons_self) rfl

/-- The clock goes back exactly when an advance that was overtaken ends. -/
theorem Turn.forward_iff (h : Turn s e s' a) : s.now ≤ s'.now ↔ ¬s.Overtaken e := by
  cases h with
  | still hnow _ _ _ hahead => exact iff_of_true hnow.ge hahead
  | schedule _ _ hnow _ _ hahead => exact iff_of_true hnow.ge hahead
  | cancel _ hevent hnow =>
    refine iff_of_true hnow.ge ?_
    rw [hevent]
    exact id
  | fire _ _ hnow _ hahead =>
    refine iff_of_true ?_ hahead
    rw [hnow]
    exact le_max_left _ _
  | land _ hnow _ _ hovertaken =>
    rw [hovertaken, hnow]
    exact not_lt.symm

end Turns

end Kept

/-! ## Runs -/

theorem fresh_tidy (start : T) : (fresh start).Tidy where
  sorted := List.Pairwise.nil
  issued := by
    intro timer htimer
    cases htimer
  distinct := List.nodup_nil

omit [LinearOrder T] in
/-- The timer that a moment fires is the one its answer names. -/
theorem mem_fired {m : ClockMoment T} {timer : VirtualTimer T} :
    timer ∈ m.fired ↔ m.answer = .fired timer := by
  rw [Option.mem_def, ClockMoment.fired]
  split
  · next other heq => rw [heq, Option.some.injEq, ClockAnswer.fired.injEq]
  · next hother => exact iff_of_false nofun (hother timer)

section Runs

variable [AddZeroClass T] {s : VirtualClock T} {event : ClockEvent T} {events : List (ClockEvent T)}
  {ms : List (ClockMoment T)}

theorem moments_cons (h : s.moments (event :: events) = some ms) :
    ∃ s' a later, s.step event = some (s', a) ∧ s'.moments events = some later ∧
      ms = { before := s, event, answer := a, after := s' } :: later := by
  rw [moments, Option.bind_eq_some_iff] at h
  obtain ⟨⟨s', a⟩, hstep, hlater⟩ := h
  obtain ⟨later, hmoments, heq⟩ := Option.map_eq_some_iff.1 hlater
  exact ⟨s', a, later, hstep, hmoments, heq.symm⟩

variable [AddLeftMono T]

/-- What every turn keeps holds before and after every moment. -/
theorem moments_kept {I : VirtualClock T → Prop}
    (hkeep : ∀ {s s' : VirtualClock T} {e : ClockEvent T} {a : ClockAnswer T},
      I s → Turn s e s' a → I s')
    (hs : I s) (h : s.moments events = some ms) :
    ∀ m ∈ ms, I m.before ∧ I m.after ∧ m.before.step m.event = some (m.after, m.answer) := by
  induction events generalizing s ms with
  | nil =>
    cases h
    intro m hm
    cases hm
  | cons event events ih =>
    obtain ⟨s', a, later, hstep, hmoments, rfl⟩ := moments_cons h
    have hs' : I s' := hkeep hs (step_turn hstep)
    intro m hm
    rcases List.mem_cons.1 hm with rfl | hm
    · exact ⟨hs, hs', hstep⟩
    · exact ih hs' hmoments m hm

theorem Gone.never_fires {id : Nat} (hgone : s.Gone id) (h : s.moments events = some ms) :
    ∀ m ∈ ms, ∀ timer ∈ m.fired, timer.id ≠ id := by
  intro m hm timer hfired heq
  obtain ⟨hbefore, -, hstep⟩ := moments_kept Gone.turn hgone h m hm
  rw [mem_fired.1 hfired] at hstep
  subst heq
  exact hbefore.silent (step_turn hstep)

/-- No timer fires twice. -/
theorem Tidy.once (hs : s.Tidy) (h : s.moments events = some ms) :
    ((ms.filterMap ClockMoment.fired).map VirtualTimer.id).Nodup := by
  induction events generalizing s ms with
  | nil =>
    cases h
    exact List.nodup_nil
  | cons event events ih =>
    obtain ⟨s', a, later, hstep, hmoments, rfl⟩ := moments_cons h
    have hlater := ih (hs.turn (step_turn hstep)) hmoments
    cases hfired : ClockMoment.fired { before := s, event, answer := a, after := s' } with
    | none =>
      rw [List.filterMap_cons_none hfired]
      exact hlater
    | some timer =>
      rw [List.filterMap_cons_some hfired, List.map_cons, List.nodup_cons]
      refine ⟨?_, hlater⟩
      have hanswer : a = .fired timer := mem_fired.1 hfired
      rw [hanswer] at hstep
      obtain ⟨-, -, hgone⟩ := (step_turn hstep).fires hs
      intro hmem
      obtain ⟨other, hother, heq⟩ := List.mem_map.1 hmem
      obtain ⟨m, hm, hagain⟩ := List.mem_filterMap.1 hother
      exact hgone.never_fires hmoments m hm other hagain heq

/-- No timer fires after it was cancelled. -/
theorem Tidy.never_after_cancel (hs : s.Tidy) (h : s.moments events = some ms) :
    ms.Pairwise fun m later => ∀ id, m.event = .clearTimeout (some id) → id ≤ m.before.seq →
      ∀ timer ∈ later.fired, timer.id ≠ id := by
  induction events generalizing s ms with
  | nil =>
    cases h
    exact List.Pairwise.nil
  | cons event events ih =>
    obtain ⟨s', a, later, hstep, hmoments, rfl⟩ := moments_cons h
    refine List.pairwise_cons.2 ⟨?_, ih (hs.turn (step_turn hstep)) hmoments⟩
    intro m hm id hevent hissued
    dsimp only at hevent hissued
    subst hevent
    obtain ⟨rfl, -⟩ := Prod.mk.inj (Option.some.inj hstep)
    exact (hs.cancelled hissued).never_fires hmoments m hm

end Runs

end VirtualClock

/-- What is said of a virtual clock, of a run's moments. -/
structure Orderly (moments : List (ClockMoment T)) : Prop where
  /-- The pending timers stay in order. -/
  sorted : ∀ m ∈ moments, m.after.timers.Pairwise fun a b => a.key < b.key
  /-- The timer that fires is the least of those pending. -/
  least : ∀ m ∈ moments, ∀ timer ∈ m.fired,
    timer ∈ m.before.timers ∧ ∀ other ∈ m.before.timers, timer.key ≤ other.key
  once : ((moments.filterMap ClockMoment.fired).map VirtualTimer.id).Nodup
  /-- A handle that was issued does not fire once it is cancelled. -/
  cancelled : moments.Pairwise fun m later => ∀ id, m.event = .clearTimeout (some id) →
    id ≤ m.before.seq → ∀ timer ∈ later.fired, timer.id ≠ id
  /-- Time never moves backwards. -/
  forward : ∀ m ∈ moments, m.before.now ≤ m.after.now

/-! ## Calls that do not overlap -/

namespace VirtualClock

/-- The event begins no call while another has not ended. -/
def Alone (s : VirtualClock T) : ClockEvent T → Prop
  | .advance _ | .advanceTo _ | .runNext | .runAll _ => s.running = [] ∧ s.awaiting = []
  | _ => True

/-- At most one call has not ended, and the clock is not past its target. -/
structure Sole (s : VirtualClock T) : Prop where
  one : s.running.length + s.awaiting.length ≤ 1
  ahead : ∀ target, .runUntil target ∈ s.running ++ s.awaiting.map Prod.fst → s.now ≤ target

section Alone

variable {s s' : VirtualClock T} {e : ClockEvent T} {a : ClockAnswer T}

theorem sole_of_idle (hrunning : s.running = []) (hawaiting : s.awaiting = []) : s.Sole := by
  refine ⟨?_, ?_⟩
  · rw [hrunning, hawaiting]
    exact Nat.zero_le 1
  · intro target hcall
    rw [hrunning, hawaiting] at hcall
    cases hcall

theorem fire_sole {timer : VirtualTimer T} {call : ClockCall T} (hrunning : s.running = [])
    (hawaiting : s.awaiting = [])
    (hahead : ∀ target, call = .runUntil target → s.now ≤ target ∧ timer.dueAt ≤ target) :
    (s.fire timer call).1.Sole := by
  refine ⟨?_, ?_⟩
  · simp only [fire, hrunning, hawaiting]
    exact le_rfl
  · intro target hcall
    simp only [fire, hrunning, hawaiting, List.map_nil, List.append_nil, List.mem_singleton] at hcall
    obtain ⟨hnow, hdue⟩ := hahead target hcall.symm
    simp only [fire]
    split
    · exact hdue
    · exact hnow

theorem runUntil_sole {target : T} (hrunning : s.running = []) (hawaiting : s.awaiting = [])
    (hahead : s.now ≤ target) : (s.runUntil target).1.Sole := by
  unfold runUntil
  split
  · next head timers heq =>
    split
    · exact sole_of_idle hrunning hawaiting
    · next hdue =>
      refine fire_sole hrunning hawaiting ?_
      rintro _ ⟨⟩
      exact ⟨hahead, not_lt.1 hdue⟩
  · exact sole_of_idle hrunning hawaiting

theorem runAll_sole {fired : Nat} {maxTimers : Option Nat} (hrunning : s.running = [])
    (hawaiting : s.awaiting = []) : (s.runAll fired maxTimers).1.Sole := by
  unfold runAll
  split
  · split
    · exact sole_of_idle hrunning hawaiting
    · exact fire_sole hrunning hawaiting nofun
  · exact sole_of_idle hrunning hawaiting

/-- A call that goes on was the only one. -/
theorem resume_sole {call : ClockCall T} (hrunning : s.running = []) (hawaiting : s.awaiting = [])
    (hahead : ∀ target, call = .runUntil target → s.now ≤ target) : (s.resume call).1.Sole := by
  cases call with
  | runUntil target => exact runUntil_sole hrunning hawaiting (hahead target rfl)
  | runNext => exact sole_of_idle hrunning hawaiting
  | runAll fired maxTimers => exact runAll_sole hrunning hawaiting

theorem Sole.step [AddZeroClass T] [AddLeftMono T] (hs : s.Sole) (halone : s.Alone e)
    (h : s.step e = some (s', a)) : s'.Sole := by
  cases e with
  | setTimeout ms =>
    obtain ⟨rfl, -⟩ := Prod.mk.inj (Option.some.inj h)
    exact ⟨hs.one, hs.ahead⟩
  | clearTimeout handle =>
    obtain ⟨rfl, -⟩ := Prod.mk.inj (Option.some.inj h)
    cases handle with
    | none => exact hs
    | some handle => exact ⟨hs.one, hs.ahead⟩
  | advance ms =>
    have hs' : s' = (s.advance ms).1 := congrArg Prod.fst (Option.some.inj h).symm
    rw [hs']
    cases ms with
    | none => exact hs
    | some ms =>
      simp only [advance]
      split
      · exact hs
      · next hnonneg =>
        -- no other call is under way, so this one becomes the only one
        exact runUntil_sole halone.1 halone.2 (le_add_of_nonneg_right (not_lt.1 hnonneg))
  | advanceTo timestamp =>
    have hs' : s' = (s.advanceTo timestamp).1 := congrArg Prod.fst (Option.some.inj h).symm
    rw [hs']
    cases timestamp with
    | none => exact hs
    | some target =>
      simp only [advanceTo]
      split
      · exact hs
      · next hahead => exact runUntil_sole halone.1 halone.2 (not_lt.1 hahead)
  | runNext =>
    have hs' : s' = s.runNext.1 := congrArg Prod.fst (Option.some.inj h).symm
    rw [hs', runNext]
    split
    · exact fire_sole halone.1 halone.2 nofun
    · exact hs
  | runAll maxTimers =>
    have hs' : s' = (s.runAll 0 maxTimers).1 := congrArg Prod.fst (Option.some.inj h).symm
    rw [hs']
    exact runAll_sole halone.1 halone.2
  | returns =>
    -- the call goes from running to awaiting: there are as many as before
    obtain ⟨hone, hahead⟩ := hs
    simp only [VirtualClock.step] at h
    split at h
    · next call running hrunning =>
      obtain ⟨rfl, -⟩ := Prod.mk.inj (Option.some.inj h)
      rw [hrunning] at hone hahead
      refine ⟨?_, ?_⟩
      · simp only [List.length_append, List.length_cons, List.length_nil] at hone ⊢
        omega
      · intro target hcall
        refine hahead target ?_
        simp only [List.map_append, List.map_cons, List.map_nil, List.mem_append, List.mem_cons,
          List.not_mem_nil, or_false] at hcall ⊢
        tauto
    · cases h
  | throws =>
    obtain ⟨hone, hahead⟩ := hs
    simp only [VirtualClock.step] at h
    split at h
    · next call running hrunning =>
      obtain ⟨rfl, -⟩ := Prod.mk.inj (Option.some.inj h)
      rw [hrunning] at hone hahead
      refine ⟨?_, ?_⟩
      · simp only [List.length_cons] at hone ⊢
        omega
      · intro target hcall
        exact hahead target (List.mem_cons_of_mem _ hcall)
    · cases h
  | round i =>
    simp only [VirtualClock.step] at h
    split at h
    · cases h
    · next hidle =>
      have hrunning : s.running = [] := not_not.1 hidle
      split at h
      · next call rounds hcall =>
        obtain ⟨rfl, -⟩ := Prod.mk.inj (Option.some.inj h)
        refine ⟨?_, ?_⟩
        · simp only [List.length_set]
          exact hs.one
        · intro target hmem
          refine hs.ahead target ?_
          simp only [List.map_set, hrunning, List.nil_append] at hmem ⊢
          rcases List.mem_or_eq_of_mem_set hmem with hold | hset
          · exact hold
          · rw [hset]
            exact List.mem_map.2 ⟨_, List.mem_of_getElem? hcall, rfl⟩
      · next call hcall =>
        have hs' : s' = ({ s with awaiting := s.awaiting.eraseIdx i }.resume call).1 :=
          congrArg Prod.fst (Option.some.inj h).symm
        have hlt : i < s.awaiting.length := (List.getElem?_eq_some_iff.1 hcall).1
        have hone := hs.one
        -- it was the only call under way, so none is left beside it
        have hlast : s.awaiting.eraseIdx i = [] := by
          rw [← List.length_eq_zero_iff, List.length_eraseIdx_of_lt hlt]
          omega
        rw [hs']
        refine resume_sole hrunning hlast ?_
        rintro target rfl
        refine hs.ahead target (List.mem_append_right _ ?_)
        exact List.mem_map.2 ⟨_, List.mem_of_getElem? hcall, rfl⟩
      · cases h

/-- An advance that is the only call is not overtaken. -/
theorem Sole.not_overtaken (hs : s.Sole) : ¬s.Overtaken e := by
  cases e with
  | round i =>
    rintro ⟨target, hcall, -, hbehind⟩
    refine absurd (hs.ahead target (List.mem_append_right _ ?_)) (not_le.2 hbehind)
    exact List.mem_map.2 ⟨_, List.mem_of_getElem? hcall, rfl⟩
  | setTimeout | clearTimeout | advance | advanceTo | runNext | runAll | returns | throws => exact id

theorem Sole.never_overtaken [AddZeroClass T] [AddLeftMono T] {events : List (ClockEvent T)}
    {ms : List (ClockMoment T)} (hs : s.Sole) (h : s.moments events = some ms)
    (halone : ∀ m ∈ ms, m.before.Alone m.event) : ∀ m ∈ ms, ¬m.before.Overtaken m.event := by
  induction events generalizing s ms with
  | nil =>
    cases h
    intro m hm
    cases hm
  | cons event events ih =>
    obtain ⟨s', a, later, hstep, hmoments, rfl⟩ := moments_cons h
    obtain ⟨hhead, htail⟩ := List.forall_mem_cons.1 halone
    intro m hm
    rcases List.mem_cons.1 hm with rfl | hm
    · exact hs.not_overtaken
    · exact ih (hs.step hhead hstep) hmoments htail m hm

end Alone

end VirtualClock

/-! ## The order of a whole run -/

namespace VirtualClock

/-- No pending timer comes before `timer`, and none to come will. -/
structure Past (s : VirtualClock T) (timer : VirtualTimer T) : Prop where
  dueAt : timer.dueAt ≤ s.now
  issued : timer.id ≤ s.seq
  later : ∀ other ∈ s.timers, timer.key < other.key

section Past

variable [AddZeroClass T] [AddLeftMono T] {s s' : VirtualClock T} {e : ClockEvent T}
  {a : ClockAnswer T} {timer : VirtualTimer T} {events : List (ClockEvent T)}
  {ms : List (ClockMoment T)}

/-- While the clock does not go back, what is past stays so. -/
theorem Past.turn (hpast : s.Past timer) (h : Turn s e s' a) (hahead : ¬s.Overtaken e) :
    s'.Past timer := by
  refine ⟨hpast.dueAt.trans (h.forward_iff.2 hahead), hpast.issued.trans h.seq_le, ?_⟩
  intro other hother
  cases h with
  | still _ _ htimers =>
    rw [htimers] at hother
    exact hpast.later other hother
  | schedule delay hnonneg _ _ htimers =>
    rw [htimers] at hother
    rcases mem_insert.1 hother with rfl | hold
    · -- the new timer is not due before the clock, and its handle is larger
      have hdue : timer.dueAt ≤ s.now + delay := hpast.dueAt.trans (le_add_of_nonneg_right hnonneg)
      refine VirtualTimer.key_lt_iff.2 ?_
      rcases hdue.lt_or_eq with hlt | heq
      · exact .inl hlt
      · exact .inr ⟨heq, Nat.lt_succ_of_le hpast.issued⟩
    · exact hpast.later other hold
  | cancel _ _ _ _ htimers =>
    rw [htimers] at hother
    exact hpast.later other (List.mem_of_mem_eraseP hother)
  | fire _ hhead =>
    exact hpast.later other (hhead ▸ List.mem_cons_of_mem _ hother)
  | land _ _ _ htimers =>
    rw [htimers] at hother
    exact hpast.later other hother

omit [AddLeftMono T] in
theorem Turn.past (hs : s.Tidy) (h : Turn s e s' (.fired timer)) : s'.Past timer := by
  cases h with
  | still _ _ _ hsilent => exact absurd rfl (hsilent timer)
  | fire _ hhead hnow hseq =>
    have hsorted := hs.sorted
    rw [hhead] at hsorted
    refine ⟨?_, ?_, (List.pairwise_cons.1 hsorted).1⟩
    · rw [hnow]
      exact le_max_right _ _
    · rw [hseq]
      exact hs.issued timer (hhead ▸ List.mem_cons_self)

/-- What is past does not fire. -/
theorem Past.fires_later (hpast : s.Past timer) (h : s.moments events = some ms)
    (hahead : ∀ m ∈ ms, ¬m.before.Overtaken m.event) :
    ∀ m ∈ ms, ∀ other ∈ m.fired, timer.key < other.key := by
  induction events generalizing s ms with
  | nil =>
    cases h
    intro m hm
    cases hm
  | cons event events ih =>
    obtain ⟨s', a, later, hstep, hmoments, rfl⟩ := moments_cons h
    obtain ⟨hhead, htail⟩ := List.forall_mem_cons.1 hahead
    intro m hm other hother
    rcases List.mem_cons.1 hm with rfl | hm
    · have hanswer : a = .fired other := mem_fired.1 hother
      rw [hanswer] at hstep
      cases step_turn hstep with
      | still _ _ _ hsilent => exact absurd rfl (hsilent other)
      | fire _ hmem => exact hpast.later other (hmem ▸ List.mem_cons_self)
    · exact ih (hpast.turn (step_turn hstep) hhead) hmoments htail m hm other hother

theorem Tidy.fired_in_order (hs : s.Tidy) (h : s.moments events = some ms)
    (hahead : ∀ m ∈ ms, ¬m.before.Overtaken m.event) :
    (ms.filterMap ClockMoment.fired).Pairwise fun a b => a.key < b.key := by
  induction events generalizing s ms with
  | nil =>
    cases h
    exact List.Pairwise.nil
  | cons event events ih =>
    obtain ⟨s', a, later, hstep, hmoments, rfl⟩ := moments_cons h
    obtain ⟨-, htail⟩ := List.forall_mem_cons.1 hahead
    have hlater := ih (hs.turn (step_turn hstep)) hmoments htail
    cases hfired : ClockMoment.fired { before := s, event, answer := a, after := s' } with
    | none =>
      rw [List.filterMap_cons_none hfired]
      exact hlater
    | some timer =>
      rw [List.filterMap_cons_some hfired, List.pairwise_cons]
      refine ⟨?_, hlater⟩
      have hanswer : a = .fired timer := mem_fired.1 hfired
      rw [hanswer] at hstep
      intro other hother
      obtain ⟨m, hm, hagain⟩ := List.mem_filterMap.1 hother
      exact ((step_turn hstep).past hs).fires_later hmoments htail m hm other hagain

end Past

end VirtualClock

section Orderly

variable [AddZeroClass T] [AddLeftMono T] {start : T} {events : List (ClockEvent T)}
  {ms : List (ClockMoment T)}

open VirtualClock

/-- While no advance ends behind the clock, the timers of a whole run fire in order. -/
theorem fired_in_order (h : (fresh start).moments events = some ms)
    (hahead : ∀ m ∈ ms, ¬m.before.Overtaken m.event) :
    (ms.filterMap ClockMoment.fired).Pairwise fun a b => a.key < b.key :=
  (fresh_tidy start).fired_in_order h hahead

/-- Every run is orderly, but for an advance that ends behind the clock. -/
theorem clock_orderly_iff (h : (fresh start).moments events = some ms) :
    Orderly ms ↔ ∀ m ∈ ms, ¬m.before.Overtaken m.event := by
  have hkept := moments_kept Tidy.turn (fresh_tidy start) h
  constructor
  · intro horderly m hm
    obtain ⟨-, -, hstep⟩ := hkept m hm
    exact (step_turn hstep).forward_iff.1 (horderly.forward m hm)
  · intro hahead
    refine ⟨?_, ?_, (fresh_tidy start).once h, (fresh_tidy start).never_after_cancel h, ?_⟩
    · intro m hm
      exact (hkept m hm).2.1.sorted
    · intro m hm timer hfired
      obtain ⟨hbefore, -, hstep⟩ := hkept m hm
      rw [mem_fired.1 hfired] at hstep
      obtain ⟨hmem, hleast, -⟩ := (step_turn hstep).fires hbefore
      exact ⟨hmem, hleast⟩
    · intro m hm
      obtain ⟨-, -, hstep⟩ := hkept m hm
      exact (step_turn hstep).forward_iff.2 (hahead m hm)

/-- The second timer fires first, and its callback cancels the first one. -/
theorem clock_orderly_sample :
    ∃ ms, (fresh (0 : ℤ)).moments ([.setTimeout (some 10), .setTimeout (some 5), .advance (some 20),
        .clearTimeout (some 1), .returns] ++ List.replicate 21 (.round 0)) = some ms ∧
      (∃ m ∈ ms, m.answer = .fired { id := 2, dueAt := 5 }) ∧ Orderly ms := by
  have hrun := (Option.some_get (x := (fresh (0 : ℤ)).moments ([.setTimeout (some 10),
    .setTimeout (some 5), .advance (some 20), .clearTimeout (some 1), .returns] ++
    List.replicate 21 (.round 0))) (by decide)).symm
  exact ⟨_, hrun, by decide, (clock_orderly_iff hrun).2 (by decide)⟩

/-- `advance(100)` awaits the flush after a timer, `advance(200)` moves the clock from 10 to 210, and
the first one ends with 100. -/
theorem clock_runs_backwards :
    ∃ ms, (fresh (0 : ℤ)).moments ([.setTimeout (some 10), .advance (some 100), .returns,
        .advance (some 200)] ++ List.replicate 21 (.round 0)) = some ms ∧
      (∃ m ∈ ms, m.before.now = 210 ∧ m.after.now = 100) ∧ ¬Orderly ms := by
  refine ⟨_, rfl, by decide, ?_⟩
  intro horderly
  exact absurd horderly.forward (by decide)

/-- The clock never goes back while no call begins before the one before it has ended. -/
theorem now_forward_of_alone (h : (fresh start).moments events = some ms)
    (halone : ∀ m ∈ ms, m.before.Alone m.event) : ∀ m ∈ ms, m.before.now ≤ m.after.now := by
  have hahead := (sole_of_idle rfl rfl).never_overtaken h halone
  intro m hm
  obtain ⟨-, -, hstep⟩ := moments_kept Tidy.turn (fresh_tidy start) h m hm
  exact (step_turn hstep).forward_iff.2 (hahead m hm)

end Orderly

end Watukuy
