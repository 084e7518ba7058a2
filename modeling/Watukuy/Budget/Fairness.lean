import Watukuy.Budget.Waiters

/-!
# Round robin

A pick and its grant are steps apart, but only one pick is under way at a time: whoever is granted
twice has been picked for the second time after the first grant. From then on a requester that waits
in the same lane was served longer ago, so it comes first.
-/

set_option autoImplicit false

namespace Watukuy

open Library

/-! ## What a step serves and picks -/

/-- The statistics after a grant. -/
def Served.granted (served : Served) (w : Waiter) (grantSeq : Int) : Served :=
  let (served, stats) := requesterStats served w.requester w.weight
  served.set w.requester { stats with count := stats.count + 1, lastSeq := grantSeq + 1 }

theorem Served.granted_lastSeq (served : Served) (w : Waiter) (grantSeq : Int) (r : String) :
    (served.granted w grantSeq).lastSeq r =
      if r = w.requester then grantSeq + 1 else served.lastSeq r := by
  simp only [Served.granted]
  split
  · next h =>
    rw [h, Served.lastSeq, OrderedMap.get_set_self]
    rfl
  · next h =>
    rw [Served.lastSeq, OrderedMap.get_set_ne _ h]
    exact (requesterStats_extends served w.requester w.weight).lastSeq r

namespace BudgetManager

variable {c : ManagerConfig} {s s' : BudgetManager} {w : Waiter}

/-- No waiter comes before `w`, which waits. -/
structure Least (c : ManagerConfig) (s : BudgetManager) (w : Waiter) : Prop where
  mem : w ∈ s.queue
  le : ∀ x ∈ s.queue, (s.status x.seq).settled = false →
    w.key c.fairness s.served ≤ x.key c.fairness s.served

/-- A piece of a step without a grant. Who is being taken for was being taken for before, or comes
first at the end. -/
structure Moves (c : ManagerConfig) (s : BudgetManager) (r : BudgetManager × List BudgetLabel) :
    Prop where
  served : s.served.Extends r.1.served
  grantSeq : r.1.grantSeq = s.grantSeq
  ungranted : ∀ w, .resolved w ∉ r.2
  picked : ∀ w, .picked w ∈ r.2 → r.1.Least c w
  chosen : ∀ w, r.1.phase = .taking w → r.1.Least c w ∨ s.phase = .taking w

theorem Moves.silent {r : BudgetManager} (hserved : r.served = s.served)
    (hgrantSeq : r.grantSeq = s.grantSeq) (hphase : ∀ w, r.phase = .taking w → s.phase = .taking w) :
    Moves c s (r, []) where
  served := hserved ▸ Served.Extends.refl _
  grantSeq := hgrantSeq
  ungranted _ := List.not_mem_nil
  picked _ h := absurd h List.not_mem_nil
  chosen w h := .inr (hphase w h)

/-- The same piece, from where the pump was taking for someone. -/
theorem Moves.of_idle {r : BudgetManager × List BudgetLabel}
    (h : Moves c { s with phase := .idle } r) : Moves c s r where
  served := h.served
  grantSeq := h.grantSeq
  ungranted := h.ungranted
  picked := h.picked
  chosen w hw := (h.chosen w hw).imp_right fun hidle => PumpPhase.noConfusion hidle

theorem pick_moves (h : (s.pick c).2 = some w) :
    Moves c { s with phase := .idle }
      ({ s with served := (s.pick c).1, phase := .taking w }, [.picked w]) := by
  have hleast : ({ s with served := (s.pick c).1, phase := .taking w }).Least c w :=
    ⟨(pick_mem h).1, fun x hx hunsettled => pick_le h hx hunsettled⟩
  refine ⟨pick_extends c s, rfl, fun x hx => ?_, fun x hx => ?_, fun x hx => .inl ?_⟩
  · exact BudgetLabel.noConfusion (List.mem_singleton.1 hx)
  · obtain rfl := BudgetLabel.picked.inj (List.mem_singleton.1 hx)
    exact hleast
  · obtain rfl := PumpPhase.taking.inj hx
    exact hleast

theorem round_moves : Moves c { s with phase := .idle } (s.round c) := by
  simp only [BudgetManager.round]
  cases hpick : ({ s with repump := false }.cancelWake.pick c).2 with
  | none =>
    exact ⟨pick_extends c { s with repump := false }.cancelWake, rfl,
      fun _ h => absurd h List.not_mem_nil, fun _ h => absurd h List.not_mem_nil,
      fun _ h => PumpPhase.noConfusion h⟩
  | some w =>
    have hmoves := pick_moves hpick
    exact ⟨hmoves.served, hmoves.grantSeq, hmoves.ungranted, hmoves.picked, hmoves.chosen⟩

theorem endRound_moves : Moves c { s with phase := .idle } (s.endRound c) := by
  rw [BudgetManager.endRound]
  split
  · exact round_moves
  · exact .silent rfl rfl fun _ h => PumpPhase.noConfusion h

theorem next_moves : Moves c { s with phase := .idle } (s.next c) := by
  simp only [BudgetManager.next]
  cases hpick : (s.pick c).2 with
  | none =>
    have hend := endRound_moves (c := c) (s := { s with served := (s.pick c).1 })
    exact ⟨(pick_extends c s).trans hend.served, hend.grantSeq, hend.ungranted, hend.picked,
      hend.chosen⟩
  | some w => exact pick_moves hpick

theorem pump_moves : Moves c s (s.pump c) := by
  rw [BudgetManager.pump]
  split
  · exact (round_moves (c := c) (s := s)).of_idle
  · exact .silent rfl rfl fun _ h => h

theorem Moves.showing {r : BudgetManager × List BudgetLabel} (h : Moves c s r)
    {labels : List BudgetLabel} (hresolved : ∀ w, .resolved w ∉ labels)
    (hpicked : ∀ w, .picked w ∉ labels) : Moves c s (showing labels r) where
  served := h.served
  grantSeq := h.grantSeq
  ungranted w hw := (List.mem_append.1 hw).elim (hresolved w) (h.ungranted w)
  picked w hw := (List.mem_append.1 hw).elim (fun hmem => absurd hmem (hpicked w)) (h.picked w)
  chosen := h.chosen

/-- A state that differs from `s` in nothing that a pick or a grant looks at. -/
theorem Moves.from {r : BudgetManager × List BudgetLabel} (h : Moves c s' r)
    (hserved : s'.served = s.served) (hgrantSeq : s'.grantSeq = s.grantSeq)
    (hphase : ∀ w, s'.phase = .taking w → s.phase = .taking w) : Moves c s r where
  served := hserved ▸ h.served
  grantSeq := h.grantSeq.trans hgrantSeq
  ungranted := h.ungranted
  picked := h.picked
  chosen w hw := (h.chosen w hw).imp_right (hphase w)

theorem fails_moves (error : JsError) :
    Moves c s (BudgetManager.showing (s.fail w error).2 ((s.fail w error).1.pump c)) := by
  have hpump := pump_moves (c := c) (s := s.settle w)
  exact (hpump.showing (fun x hx => by cases List.mem_singleton.1 hx) fun x hx => by
    cases List.mem_singleton.1 hx).from rfl rfl fun _ h => h

theorem abort_moves (reason : Option JsError) : Moves c s (s.abort c w reason) := by
  simp only [BudgetManager.abort]
  split
  · exact .silent rfl rfl fun _ h => h
  · exact fails_moves _

theorem expire_moves : Moves c s (s.expire c w) := by
  simp only [BudgetManager.expire]
  split
  · exact .silent rfl rfl fun _ h => h
  · exact fails_moves _

theorem scheduleWake_moves (retryInMs : Option ℚ) :
    Moves c { s with phase := .idle } (s.scheduleWake c retryInMs) := by
  simp only [BudgetManager.scheduleWake]
  split
  · exact endRound_moves
  · exact .silent rfl rfl fun _ h => PumpPhase.noConfusion h

/-- While the pump runs, a deadline only shows that its waiter is rejected. -/
theorem expire_busy (h : s.phase ≠ .idle) :
    (s.expire c w).1.phase = s.phase ∧ (s.expire c w).1.served = s.served ∧
      (s.expire c w).1.grantSeq = s.grantSeq ∧
      ∀ label ∈ (s.expire c w).2, ∃ error, label = .rejected w error := by
  simp only [BudgetManager.expire]
  split
  · exact ⟨rfl, rfl, rfl, fun _ h => absurd h List.not_mem_nil⟩
  · have hpump : ∀ error, (s.fail w error).1.pump c =
        ({ (s.fail w error).1 with repump := true }, []) := by
      intro error
      have hphase : (s.fail w error).1.phase ≠ .idle := h
      rw [BudgetManager.pump]
      split
      · next hidle => exact absurd hidle hphase
      · rfl
    rw [hpump]
    exact ⟨rfl, rfl, rfl, fun label hlabel => ⟨_, List.mem_singleton.1 hlabel⟩⟩

theorem armDeadlines_moves (h : s.phase ≠ .idle) (now : Int) (retryInMs : Option ℚ)
    (rest : List Waiter) :
    Moves c { s with phase := .idle } (s.armDeadlines c now retryInMs rest) := by
  induction rest generalizing s with
  | nil => exact scheduleWake_moves retryInMs
  | cons w rest ih =>
    simp only [BudgetManager.armDeadlines]
    split
    · exact ih h
    split
    · exact ih h
    split
    · obtain ⟨hphase, hserved, hgrantSeq, hlabels⟩ := expire_busy (c := c) (w := w)
        (s := s.setStatus w fun st => { st with deadlineArmed := true }) h
      have hloop := ih (hphase ▸ h)
      refine (hloop.showing (fun x hx => ?_) fun x hx => ?_).from hserved hgrantSeq
        fun _ h => PumpPhase.noConfusion h
      · obtain ⟨error, heq⟩ := hlabels _ hx
        cases heq
      · obtain ⟨error, heq⟩ := hlabels _ hx
        cases heq
    · exact .silent rfl rfl fun _ h => PumpPhase.noConfusion h

theorem acquire_moves (opts : AcquireOptions) : Moves c s (s.acquire c opts) := by
  have hshows : ∀ label : BudgetLabel, (∀ w, label ≠ .resolved w) → (∀ w, label ≠ .picked w) →
      Moves c s (s, [label]) := by
    intro label hresolved hpicked
    exact (Moves.silent (c := c) (s := s) rfl rfl fun _ h => h).showing
      (fun w hw => hresolved w (List.mem_singleton.1 hw).symm)
      fun w hw => hpicked w (List.mem_singleton.1 hw).symm
  rw [BudgetManager.acquire]
  split
  · exact hshows _ (fun _ h => BudgetLabel.noConfusion h) fun _ h => BudgetLabel.noConfusion h
  split
  · exact hshows _ (fun _ h => BudgetLabel.noConfusion h) fun _ h => BudgetLabel.noConfusion h
  split
  · exact hshows _ (fun _ h => BudgetLabel.noConfusion h) fun _ h => BudgetLabel.noConfusion h
  split
  · exact hshows _ (fun _ h => BudgetLabel.noConfusion h) fun _ h => BudgetLabel.noConfusion h
  split
  · exact hshows _ (fun _ h => BudgetLabel.noConfusion h) fun _ h => BudgetLabel.noConfusion h
  · refine (pump_moves.showing (fun x hx => ?_) fun x hx => ?_).from rfl rfl fun _ h => h
    · cases List.mem_singleton.1 hx
    · cases List.mem_singleton.1 hx

/-- A step with a grant: the waiter that was being taken for is served. -/
structure Grants (c : ManagerConfig) (s : BudgetManager) (r : BudgetManager × List BudgetLabel)
    (w : Waiter) : Prop where
  taking : s.phase = .taking w
  served : (s.served.granted w s.grantSeq).Extends r.1.served
  grantSeq : r.1.grantSeq = s.grantSeq + 1
  shown : ∃ rest, r.2 = .took w.seq w.cost :: .resolved w :: rest ∧ ∀ x, .resolved x ∉ rest
  picked : ∀ x, .picked x ∈ r.2 → r.1.Least c x
  chosen : ∀ x, r.1.phase = .taking x → r.1.Least c x

theorem Grants.resolved {r : BudgetManager × List BudgetLabel} (h : Grants c s r w) (x : Waiter) :
    .resolved x ∈ r.2 ↔ x = w := by
  obtain ⟨rest, hlabels, hrest⟩ := h.shown
  rw [hlabels]
  constructor
  · intro hx
    rcases List.mem_cons.1 hx with htook | hx
    · cases htook
    rcases List.mem_cons.1 hx with hresolved | hx
    · exact BudgetLabel.resolved.inj hresolved
    · exact absurd hx (hrest x)
  · rintro rfl
    exact List.mem_cons_of_mem _ List.mem_cons_self

theorem grant_grants (h : s.phase = .taking w) :
    Grants c s (showing [.took w.seq w.cost] (s.grant c w)) w := by
  simp only [BudgetManager.grant]
  split
  · refine ⟨h, Served.Extends.refl _, rfl, ⟨_, rfl, fun x hx => ?_⟩, fun x hx => ?_,
      fun _ h => PumpPhase.noConfusion h⟩
    · cases List.mem_singleton.1 hx
    · simp [BudgetManager.showing] at hx
  · have hnext := next_moves (c := c)
      (s := { s.settle w with
        served := s.served.granted w s.grantSeq
        grantSeq := s.grantSeq + 1 })
    refine ⟨h, hnext.served, hnext.grantSeq, ⟨_, rfl, hnext.ungranted⟩, fun x hx => ?_,
      fun x hx => (hnext.chosen x hx).resolve_right fun hidle => PumpPhase.noConfusion hidle⟩
    -- the labels are the take, the grant, and what the pump picks next
    rcases List.mem_cons.1 hx with htook | hx
    · cases htook
    rcases List.mem_cons.1 hx with hresolved | hx
    · cases hresolved
    · exact hnext.picked x hx

/-- Every step grants to whom it was taking for, or to nobody. -/
theorem step_moves {e : BudgetEvent} {r : BudgetManager × List BudgetLabel}
    (hstep : s.step c e = some r) : Moves c s r ∨ ∃ w, Grants c s r w := by
  cases e with
  | acquire opts =>
    obtain rfl := Option.some.inj hstep
    exact .inl (acquire_moves opts)
  | abort seq reason =>
    obtain ⟨w, hfind, rfl⟩ := Option.map_eq_some_iff.1 hstep
    exact .inl ((abort_moves reason).from rfl rfl fun _ h => h)
  -- a timer rejects a waiter or runs the pump; neither grants
  | fire handle =>
    obtain ⟨t, hfind, rfl⟩ := Option.map_eq_some_iff.1 hstep
    refine .inl ?_
    cases t.callback with
    | expire w => exact expire_moves.from rfl rfl fun _ h => h
    | wake token =>
      simp only [runCallback]
      split
      · exact pump_moves.from rfl rfl fun _ h => h
      · exact .silent rfl rfl fun _ h => h
  | taken =>
    simp only [BudgetManager.step] at hstep
    split at hstep
    · next w hphase =>
      obtain rfl := Option.some.inj hstep
      -- a waiter that was settled in the meantime gets no grant
      rw [onAnswer]
      split
      · refine .inl (next_moves.of_idle.showing (fun x hx => ?_) fun x hx => ?_)
        · cases List.mem_singleton.1 hx
        · cases List.mem_singleton.1 hx
      · exact .inr ⟨w, grant_grants hphase⟩
    · cases hstep
  | refused retryInMs =>
    simp only [BudgetManager.step] at hstep
    split at hstep
    · next w hphase =>
      obtain rfl := Option.some.inj hstep
      refine .inl (Moves.of_idle ?_)
      rw [onAnswer]
      split
      · exact next_moves
      · exact armDeadlines_moves (by rw [hphase]; exact PumpPhase.noConfusion) _ _ _
    · cases hstep
  | failed error =>
    simp only [BudgetManager.step] at hstep
    split at hstep
    · next w hphase =>
      obtain rfl := Option.some.inj hstep
      refine .inl (Moves.of_idle ?_)
      rw [onAnswer]
      split
      · exact next_moves
      · refine ((next_moves (s := s.settle w)).showing (fun x hx => ?_) fun x hx => ?_).from rfl rfl
          fun _ h => PumpPhase.noConfusion h
        · cases List.mem_singleton.1 hx
        · cases List.mem_singleton.1 hx
    · cases hstep
  | returns =>
    simp only [BudgetManager.step] at hstep
    split at hstep
    · obtain rfl := Option.some.inj hstep
      exact .inl next_moves.of_idle
    · next now retryInMs w handle rest hphase =>
      obtain rfl := Option.some.inj hstep
      refine .inl (Moves.of_idle ((armDeadlines_moves ?_ now retryInMs rest).from rfl rfl
        fun _ h => PumpPhase.noConfusion h))
      exact fun hidle => PumpPhase.noConfusion (hphase.symm.trans hidle)
    · next token handle hphase =>
      obtain rfl := Option.some.inj hstep
      refine .inl (Moves.of_idle ?_)
      split
      · exact endRound_moves.from rfl rfl fun _ h => PumpPhase.noConfusion h
      · exact endRound_moves
    · cases hstep
  | elsewhere =>
    obtain rfl := Option.some.inj hstep
    exact .inl (.silent rfl rfl fun _ h => h)
  | tick ms =>
    obtain rfl := Option.some.inj hstep
    exact .inl (.silent rfl rfl fun _ h => h)

/-! ## Runs -/

/-- The requester has a request waiting in the lane. -/
def Waits (s : BudgetManager) (requester : String) (lane : Lane) : Prop :=
  ∃ x ∈ s.queue, (s.status x.seq).settled = false ∧ x.requester = requester ∧ x.lane = lane

instance (requester : String) (lane : Lane) : Decidable (s.Waits requester lane) :=
  inferInstanceAs (Decidable (∃ x ∈ s.queue, _))

/-- `P` holds of every state of a run, from its first to its last. -/
def Throughout (c : ManagerConfig) (P : BudgetManager → Prop) :
    BudgetManager → List BudgetEvent → Prop
  | s, [] => P s
  | s, e :: events => P s ∧ ∀ r ∈ s.step c e, Throughout c P r.1 events

instance Throughout.decidable {P : BudgetManager → Prop} [DecidablePred P] :
    ∀ (s : BudgetManager) (events : List BudgetEvent), Decidable (Throughout c P s events)
  | s, [] => inferInstanceAs (Decidable (P s))
  | s, e :: events =>
    have (r : BudgetManager) : Decidable (Throughout c P r events) :=
      Throughout.decidable r events
    inferInstanceAs (Decidable (P s ∧ ∀ r ∈ s.step c e, Throughout c P r.1 events))

theorem Throughout.first {P : BudgetManager → Prop} {events : List BudgetEvent}
    (h : Throughout c P s events) : P s := by
  cases events with
  | nil => exact h
  | cons e events => exact h.1

theorem Throughout.imp {P Q : BudgetManager → Prop} (hPQ : ∀ s, P s → Q s)
    {events : List BudgetEvent} (h : Throughout c P s events) : Throughout c Q s events := by
  induction events generalizing s with
  | nil => exact hPQ s h
  | cons e events ih => exact ⟨hPQ s h.1, fun r hr => ih (h.2 r hr)⟩

/-- No grant is later than the latest. -/
structure Numbered (s : BudgetManager) : Prop where
  grantSeq : 0 ≤ s.grantSeq
  lastSeq : ∀ r, s.served.lastSeq r ≤ s.grantSeq

theorem Numbered.fresh (clock : Int) : ({ clock } : BudgetManager).Numbered :=
  ⟨Int.le_refl 0, fun _ => show (-1 : Int) ≤ 0 by decide⟩

theorem Numbered.step (h : s.Numbered) {e : BudgetEvent} {r : BudgetManager × List BudgetLabel}
    (hstep : s.step c e = some r) : r.1.Numbered := by
  rcases step_moves hstep with hmoves | ⟨w, hgrants⟩
  · refine ⟨hmoves.grantSeq ▸ h.grantSeq, fun x => ?_⟩
    rw [hmoves.served.lastSeq, hmoves.grantSeq]
    exact h.lastSeq x
  · refine ⟨hgrants.grantSeq ▸ Int.le_add_one h.grantSeq, fun x => ?_⟩
    rw [hgrants.served.lastSeq, Served.granted_lastSeq, hgrants.grantSeq]
    split
    · exact Int.le_refl _
    · exact Int.le_add_one (h.lastSeq x)

theorem Numbered.run (h : s.Numbered) {events : List BudgetEvent}
    {r : BudgetManager × List BudgetLabel} (hrun : s.run c events = some r) : r.1.Numbered := by
  induction events generalizing s r with
  | nil =>
    obtain rfl := Option.some.inj hrun
    exact h
  | cons e events ih =>
    obtain ⟨r₁, hstep, hrest⟩ := Option.bind_eq_some_iff.1 hrun
    obtain ⟨r₂, hrun₂, rfl⟩ := Option.map_eq_some_iff.1 hrest
    have hlater : r₂.1.Numbered := ih (h.step hstep) hrun₂
    exact hlater

/-! ## Who was served longer ago -/

section RoundRobin

variable {a b : String} {lane : Lane} (hfair : c.fairness = .roundRobin)
include hfair

/-- While `b` waits in the lane and was served before `a`, nobody takes for `a` there. -/
theorem Least.not_last (h : s.Least c w) (hwaits : s.Waits b lane)
    (hlast : s.served.lastSeq b < s.served.lastSeq a) (hlane : w.lane = lane) :
    w.requester ≠ a := by
  rintro rfl
  obtain ⟨x, hx, hunsettled, rfl, rfl⟩ := hwaits
  have hle := h.le x hx hunsettled
  rw [Waiter.key, Waiter.key, hlane, hfair, Prod.Lex.toLex_le_toLex, Prod.Lex.toLex_le_toLex,
    Prod.Lex.toLex_le_toLex] at hle
  simp only [lt_irrefl, true_and, false_or, Waiter.ratio, reduceCtorEq, if_false] at hle
  rcases hle with hlt | ⟨heq, -⟩
  · exact lt_asymm hlast hlt
  · exact hlast.ne' heq

/-- `b` was served before `a`, and nobody takes for `a` in the lane. -/
structure Behind (s : BudgetManager) (a b : String) (lane : Lane) : Prop where
  last : s.served.lastSeq b < s.served.lastSeq a
  taking : ∀ w, s.phase = .taking w → w.lane = lane → w.requester ≠ a

/-- The grant to `a` puts `b` before it. -/
theorem Grants.behind {r : BudgetManager × List BudgetLabel} (h : Grants c s r w)
    (hs : s.Numbered) (hb : b ≠ w.requester) (hwaits : r.1.Waits b lane) :
    r.1.Behind w.requester b lane := by
  have hlast : r.1.served.lastSeq b < r.1.served.lastSeq w.requester := by
    rw [h.served.lastSeq, h.served.lastSeq, Served.granted_lastSeq, Served.granted_lastSeq,
      if_neg hb, if_pos rfl]
    exact Int.lt_add_one_of_le (hs.lastSeq b)
  exact ⟨hlast, fun x hx hlane => (h.chosen x hx).not_last hfair hwaits hlast hlane⟩

/-- As long as `b` waits and gets no grant, it stays before `a`. -/
theorem Behind.step (h : s.Behind a b lane) (hs : s.Numbered) {e : BudgetEvent}
    {r : BudgetManager × List BudgetLabel} (hstep : s.step c e = some r)
    (hwaits : r.1.Waits b lane) (hb : ∀ w, .resolved w ∈ r.2 → w.requester ≠ b) :
    r.1.Behind a b lane := by
  rcases step_moves hstep with hmoves | ⟨w, hgrants⟩
  · have hlast : r.1.served.lastSeq b < r.1.served.lastSeq a := by
      rw [hmoves.served.lastSeq, hmoves.served.lastSeq]
      exact h.last
    refine ⟨hlast, fun x hx hlane => ?_⟩
    rcases hmoves.chosen x hx with hleast | hbefore
    · exact hleast.not_last hfair hwaits hlast hlane
    · exact h.taking x hbefore hlane
  · have hw : b ≠ w.requester := (hb w ((hgrants.resolved w).2 rfl)).symm
    by_cases ha : a = w.requester
    · rw [ha]
      exact hgrants.behind hfair hs hw hwaits
    · have hlast : r.1.served.lastSeq b < r.1.served.lastSeq a := by
        rw [hgrants.served.lastSeq, hgrants.served.lastSeq, Served.granted_lastSeq,
          Served.granted_lastSeq, if_neg hw, if_neg ha]
        exact h.last
      exact ⟨hlast, fun x hx hlane => (hgrants.chosen x hx).not_last hfair hwaits hlast hlane⟩

theorem Behind.run (h : s.Behind a b lane) (hs : s.Numbered) {events : List BudgetEvent}
    {r : BudgetManager × List BudgetLabel} (hrun : s.run c events = some r)
    (hwaits : Throughout c (fun s => s.Waits b lane) s events)
    (hb : ∀ w, .resolved w ∈ r.2 → w.requester ≠ b) : r.1.Behind a b lane := by
  induction events generalizing s r with
  | nil =>
    obtain rfl := Option.some.inj hrun
    exact h
  | cons e events ih =>
    obtain ⟨r₁, hstep, hrest⟩ := Option.bind_eq_some_iff.1 hrun
    obtain ⟨r₂, hrun₂, rfl⟩ := Option.map_eq_some_iff.1 hrest
    have hlater := hwaits.2 r₁ hstep
    have hbehind : r₂.1.Behind a b lane :=
      ih (h.step hfair hs hstep hlater.first fun w hw => hb w (List.mem_append_left _ hw))
        (hs.step hstep) hrun₂ hlater fun w hw => hb w (List.mem_append_right _ hw)
    exact hbehind

end RoundRobin

end BudgetManager

open BudgetManager in
/-- Under round robin, between two grants to one requester in a lane, every other requester that
waits there all the time is granted something. And whoever is picked, nobody waits in a lane of
higher priority. -/
theorem round_robin_fair {c : ManagerConfig} (hfair : c.fairness = .roundRobin) {clock : Int}
    {past between : List BudgetEvent} {first second : BudgetEvent} {s₀ s₁ s₂ s₃ : BudgetManager}
    {l₀ l₁ l₂ l₃ : List BudgetLabel}
    (hpast : ({ clock } : BudgetManager).run c past = some (s₀, l₀))
    (hfirst : s₀.step c first = some (s₁, l₁)) (hbetween : s₁.run c between = some (s₂, l₂))
    (hsecond : s₂.step c second = some (s₃, l₃)) :
    (∀ (w₁ w₂ : Waiter) (b : String), .resolved w₁ ∈ l₁ → .resolved w₂ ∈ l₃ →
      w₁.requester = w₂.requester → w₁.lane = w₂.lane → b ≠ w₁.requester →
      Throughout c (fun s => s.Waits b w₁.lane) s₁ between →
      ∃ w, .resolved w ∈ l₂ ∧ w.requester = b) ∧
    ∀ w, .picked w ∈ l₁ → ∀ x ∈ s₁.queue, (s₁.status x.seq).settled = false →
      laneRank w.lane ≤ laneRank x.lane := by
  have hnumbered := (Numbered.fresh clock).run hpast
  constructor
  · intro w₁ w₂ b hw₁ hw₂ hsame hlane hb hwaits
    by_contra hnone
    have hother : ∀ w, .resolved w ∈ l₂ → w.requester ≠ b := fun w hw heq => hnone ⟨w, hw, heq⟩
    rcases step_moves hfirst with hmoves | ⟨w, hgrants⟩
    · exact hmoves.ungranted w₁ hw₁
    obtain rfl := (hgrants.resolved w₁).1 hw₁
    have hbehind := (hgrants.behind hfair hnumbered hb hwaits.first).run hfair
      (hnumbered.step hfirst) hbetween hwaits hother
    rcases step_moves hsecond with hmoves | ⟨w, hgrants₂⟩
    · exact hmoves.ungranted w₂ hw₂
    obtain rfl := (hgrants₂.resolved w₂).1 hw₂
    exact hbehind.taking w₂ hgrants₂.taking hlane.symm hsame.symm
  · intro w hw x hx hunsettled
    have hleast : s₁.Least c w := by
      rcases step_moves hfirst with hmoves | ⟨w', hgrants⟩
      · exact hmoves.picked w hw
      · exact hgrants.picked w hw
    have hle := hleast.le x hx hunsettled
    rw [Waiter.key, Waiter.key, Prod.Lex.toLex_le_toLex] at hle
    rcases hle with hlt | ⟨heq, -⟩
    · exact hlt.le
    · exact heq.le

/-- A live request of one token by the clock 0. -/
def waiterOf (seq : Nat) (requester : String) : Waiter where
  seq := seq
  requester := requester
  weight := 1
  lane := .live
  cost := 1
  enqueuedAt := 0
  deadlineAt := none
  signal := false

/-- Requests of `a`, `a`, `b` and `b`: between the two grants to `a`, `b` is granted something. -/
theorem round_robin_fair_sample :
    ∃ s₀ l₀ s₁ l₁ s₂ l₂ s₃ l₃, ({ clock := 0 } : BudgetManager).run erpBudget
        [requestOf "a" 1, requestOf "a" 1, requestOf "b" 1, requestOf "b" 1] = some (s₀, l₀) ∧
      s₀.step erpBudget .taken = some (s₁, l₁) ∧ s₁.run erpBudget [.taken] = some (s₂, l₂) ∧
      s₂.step erpBudget .taken = some (s₃, l₃) ∧
      .resolved (waiterOf 1 "a") ∈ l₁ ∧ .resolved (waiterOf 2 "a") ∈ l₃ ∧
      ∃ w, .resolved w ∈ l₂ ∧ w.requester = "b" := by
  have hshown : ((({ clock := 0 } : BudgetManager).run erpBudget
      [requestOf "a" 1, requestOf "a" 1, requestOf "b" 1, requestOf "b" 1]).bind fun r₀ =>
        (r₀.1.step erpBudget .taken).bind fun r₁ => (r₁.1.run erpBudget [.taken]).bind fun r₂ =>
          (r₂.1.step erpBudget .taken).map fun r₃ => decide
            (.resolved (waiterOf 1 "a") ∈ r₁.2 ∧ .resolved (waiterOf 2 "a") ∈ r₃.2 ∧
              BudgetManager.Throughout erpBudget (·.Waits "b" .live) r₁.1 [.taken])) =
      some true := by decide +kernel
  obtain ⟨⟨s₀, l₀⟩, h₀, hshown⟩ := Option.bind_eq_some_iff.1 hshown
  obtain ⟨⟨s₁, l₁⟩, h₁, hshown⟩ := Option.bind_eq_some_iff.1 hshown
  obtain ⟨⟨s₂, l₂⟩, h₂, hshown⟩ := Option.bind_eq_some_iff.1 hshown
  obtain ⟨⟨s₃, l₃⟩, h₃, hshown⟩ := Option.map_eq_some_iff.1 hshown
  obtain ⟨hfirst, hsecond, hwaits⟩ := of_decide_eq_true hshown
  refine ⟨s₀, l₀, s₁, l₁, s₂, l₂, s₃, l₃, h₀, h₁, h₂, h₃, hfirst, hsecond, ?_⟩
  exact (round_robin_fair rfl h₀ h₁ h₂ h₃).1 _ _ "b" hfirst hsecond rfl rfl (by decide) hwaits

end Watukuy
