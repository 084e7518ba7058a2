import Watukuy.Cycle.Drains
import Watukuy.Cycle.Stays

/-!
# The page loop, turn by turn

A fetch function that hands over one page a call makes each round of the page loop of `runCycle` one
turn: the cursor it is asked with, the page, `advance`, and the target of a backfill. `scan_turns`
says that the loop makes such turns and nothing else, whatever the store, the clock and the drains
answer.
-/

set_option autoImplicit false

namespace Watukuy

open Library Task
open Block (assign await locals)

variable {ι : Type}

/-- The fetch calls of a cycle, with what each of them does. -/
@[reducible] def fetchLog (ι : Type) : Contract (Op ι) Ans where
  View := List (FetchContext × UserCode ι)
  allow _ _ := True
  learn
    | log, .fetch _ ctx, u => log ++ [(ctx, u)]
    | log, _, _ => log

/-- The fetch function makes its requests and hands over one page, unless it throws. -/
def UserCode.Gives (page : Page ι) : UserCode ι → Prop
  | .page p rest => p = page ∧ rest = .finish
  | .request _ k => ∀ res, (k res).Gives page
  | .raise _ => True
  | .finish => False

/-- Each fetch call hands over the page that the API has for its cursor. -/
def Answered (api : CursorVal → Page ι) (log : List (FetchContext × UserCode ι)) : Prop :=
  ∀ x ∈ log, x.2.Gives (api x.1.cursor)

/-- What `advance` and the target make of a page. A poison halt ends the loop by itself. -/
structure PageMoved (c : Cycle ι) (s : CycleLocals) (page : Page ι) (s' : CycleLocals) (t : Int) :
    Prop where
  moved : ∃ adv reached, c.strategy.advance s.cursor
      { items := page.items, pageCursor := page.cursor, hasMore := page.hasMore, now := t } = .ok adv ∧
    targetReached c adv.cursor = .ok reached ∧ s'.cursor = adv.cursor ∧
      (s'.done = (adv.done || reached) ∨ s'.halted = true ∧ s'.done = true)
  pages : s'.summary.pages = s.summary.pages + 1

/-- One turn of the page loop: the first request of a cycle goes through `forFetch`. -/
structure LoopTurn (c : Cycle ι) (api : CursorVal → Page ι) (s : CycleLocals) (asked : CursorVal)
    (s' : CycleLocals) (t : Int) : Prop where
  first : s.summary.pages = 0 → ∃ t₀, c.strategy.forFetch s.cursor t₀ = .ok asked
  later : s.summary.pages ≠ 0 → asked = s.cursor
  advanced : PageMoved c s (api asked) s' t

/-- Turn after turn, with the cursors that were asked with. -/
inductive LoopTurns (c : Cycle ι) (api : CursorVal → Page ι) (s : CycleLocals) :
    List CursorVal → CycleLocals → Prop where
  | start : LoopTurns c api s [] s
  | turn {s' s'' : CycleLocals} {asked : List CursorVal} {next : CursorVal} {t : Int}
      (h : LoopTurns c api s asked s') (hdone : s'.done = false) (hturn : LoopTurn c api s' next s'' t) :
      LoopTurns c api s (asked ++ [next]) s''

/-- The loop from `s` made turns with the cursors of the log, and may have noted that it was cut
short. -/
def Looped (c : Cycle ι) (api : CursorVal → Page ι) (s s' : CycleLocals)
    (log : List (FetchContext × UserCode ι)) : Prop :=
  ∃ last, LoopTurns c api s (log.map (·.1.cursor)) last ∧ (s' = last ∨ s' = truncate_ last)

section

variable {c : Cycle ι} {api : CursorVal → Page ι} {s s' : CycleLocals} {page : Page ι} {t : Int}
  {log : List (FetchContext × UserCode ι)}

/-! ## One page -/

/-- What is no fetch call leaves the log. -/
theorem quiet_logs {α : Type} {m : Proc ι α} (hm : m.Uses QuietCall) {Q : α → (fetchLog ι).View → Prop}
    {E : JsError → (fetchLog ι).View → Prop} (hQ : ∀ a, Q a log) (hE : ∀ e, E e log) :
    m.wp (fetchLog ι) Q E log := by
  refine Uses.wp_const hm (fun o ho => ⟨trivial, fun a => ?_⟩) hQ hE
  cases o with
  | fetch lane ctx => exact ho.elim
  | _ => rfl

theorem drain_logs {α : Type} {m : Proc ι α} (hm : m.Uses DrainCall) {Q : α → (fetchLog ι).View → Prop}
    {E : JsError → (fetchLog ι).View → Prop} (hQ : ∀ a, Q a log) (hE : ∀ e, E e log) :
    m.wp (fetchLog ι) Q E log := by
  refine Uses.wp_const hm (fun o ho => ⟨trivial, fun a => ?_⟩) hQ hE
  cases o with
  | fetch lane ctx => exact ho.elim
  | _ => rfl

theorem commitPage_turns {Q : Bool → CycleLocals → (fetchLog ι).View → Prop}
    {F : JsError → CycleLocals → (fetchLog ι).View → Prop}
    (hQ : ∀ b s' t, PageMoved c s page s' t → Q b s' log) (hF : ∀ e s', F e s' log) :
    Block.wp (fetchLog ι) (commitPage c page) Q F s log := by
  unfold commitPage
  rw [Block.wp_bind, Block.wp_assign, Block.wp_bind, Block.wp_await, wp_now]
  refine ⟨trivial, fun t => ?_⟩
  rw [Block.wp_bind, Block.wp_locals, Block.wp_bind, Block.wp_await, Task.wp_ofExcept]
  refine ⟨fun adv hadv => ?_, fun e _ => hF e _⟩
  rw [Block.wp_bind, Block.wp_await, Task.wp_ofExcept]
  refine ⟨fun cursor _ => ?_, fun e _ => hF e _⟩
  rw [Block.wp_bind, Block.wp_await]
  refine quiet_logs (processPage_quiet ..) (fun commit => ?_) fun e => hF e _
  rw [Block.wp_bind, Block.wp_assign, Block.wp_bind, Block.wp_await, Task.wp_ofExcept]
  refine ⟨fun reached hreached => ?_, fun e _ => hF e _⟩
  rw [Block.wp_bind, Block.wp_when]
  -- what is stored of the page changes no local that the loop reads
  have hsave : ∀ s' : CycleLocals, PageMoved c s page s' t →
      Block.wp (fetchLog ι) (do
        savePage c commit cursor
        return !commit.events.isEmpty) Q F s' log := by
    intro s' h
    rw [Block.wp_bind]
    unfold savePage
    rw [Block.wp_bind, Block.wp_locals, Block.wp_bind, Block.wp_await, wp_now]
    refine ⟨trivial, fun updatedAt => ?_⟩
    rw [Block.wp_bind, Block.wp_await, wp_store]
    refine ⟨trivial, fun _ => ?_, fun e => hF e _⟩
    rw [Block.wp_bind, Block.wp_await, wp_now]
    refine ⟨trivial, fun savedAt => ?_⟩
    rw [Block.wp_assign, Block.wp_pure]
    exact hQ _ _ t ⟨h.moved, h.pages⟩
  refine ⟨fun hr => ?_, fun hr => ?_⟩
  · rw [Block.wp_assign]
    refine hsave _ ⟨⟨adv, reached, hadv, hreached, rfl, Or.inl ?_⟩, rfl⟩
    simp [hr]
  · refine hsave _ ⟨⟨adv, reached, hadv, hreached, rfl, Or.inl ?_⟩, rfl⟩
    simp [CycleLocals.afterPage, CycleLocals.countPage, hr]

/-- A drain after the page, and the circuit that a poison halt opens. -/
theorem drainPage_turns (h : PageMoved c s page s' t) {Q : Bool → CycleLocals → (fetchLog ι).View → Prop}
    {F : JsError → CycleLocals → (fetchLog ι).View → Prop}
    (hQ : ∀ b s', PageMoved c s page s' t → Q b s' log) (hF : ∀ e s', F e s' log) :
    Block.wp (fetchLog ι) (drainPage c) Q F s' log := by
  unfold drainPage
  rw [Block.wp_bind, Block.wp_await]
  refine drain_logs (drainOutbox_uses ..) (fun drain => ?_) fun e => hF e _
  rw [Block.wp_bind, Block.wp_assign, Block.wp_ite]
  refine ⟨fun _ => ?_, fun _ => hQ _ _ ⟨h.moved, h.pages⟩⟩
  rw [Block.wp_bind, Block.wp_locals, Block.wp_bind, Block.wp_await]
  unfold openCircuitForHalt
  rw [Task.wp_bind, wp_now]
  refine ⟨trivial, fun at_ => ?_⟩
  rw [Task.wp_bind, wp_store]
  refine ⟨trivial, fun _ => ?_, fun e => hF e _⟩
  rw [Task.wp_pure, Block.wp_bind, Block.wp_assign, Block.wp_pure]
  obtain ⟨⟨adv, reached, hadv, hreached, hcursor, -⟩, hpages⟩ := h
  -- the halt ends the loop whatever the page said
  exact hQ _ _ ⟨⟨adv, reached, hadv, hreached, hcursor, Or.inr ⟨rfl, rfl⟩⟩, hpages⟩

/-- The guards after a page. -/
theorem afterPage_turns (h : PageMoved c s page s' t)
    {Q : PageEnd → CycleLocals → (fetchLog ι).View → Prop}
    {F : JsError → CycleLocals → (fetchLog ι).View → Prop}
    (hQ : ∀ e s', PageMoved c s page s' t → Q e s' log) (hF : ∀ e s', F e s' log) :
    Block.wp (fetchLog ι) (afterPage c) Q F s' log := by
  unfold afterPage
  rw [Block.wp_bind, Block.wp_await]
  refine quiet_logs (renewNow_quiet ..) (fun held => ?_) fun e => hF e _
  rw [Block.wp_ite]
  refine ⟨fun _ => ?_, fun _ => hF _ _⟩
  rw [Block.wp_bind, Block.wp_locals, Block.wp_ite]
  refine ⟨fun _ => hQ _ _ h, fun _ => ?_⟩
  rw [Block.wp_bind, Block.wp_await]
  refine quiet_logs (aborted_quiet _) (fun stopped => ?_) fun e => hF e _
  rw [Block.wp_ite]
  refine ⟨fun _ => hQ _ _ h, fun _ => ?_⟩
  rw [Block.wp_bind, Block.wp_await]
  refine quiet_logs (pastDeadline_quiet c) (fun past => ?_) fun e => hF e _
  -- the deadline and the page limit note the same cut
  have hcut : Q .leaveOuter (truncate_ s') log := hQ _ _ ⟨h.moved, h.pages⟩
  rw [Block.wp_ite]
  refine ⟨fun _ => hcut, fun _ => ?_⟩
  rw [Block.wp_ite]
  exact ⟨fun _ => hcut, fun _ => hQ _ _ h⟩

theorem onPage_turns {Q : PageEnd → CycleLocals → (fetchLog ι).View → Prop}
    {F : JsError → CycleLocals → (fetchLog ι).View → Prop}
    (hQ : ∀ e s' t, PageMoved c s page s' t → Q e s' log) (hF : ∀ e s', F e s' log) :
    Block.wp (fetchLog ι) (onPage c page) Q F s log := by
  unfold onPage
  rw [Block.wp_bind]
  refine commitPage_turns (fun b s' t h => ?_) hF
  rw [Block.wp_ite]
  refine ⟨fun _ => ?_, fun _ => afterPage_turns h (fun e s' h' => hQ e s' t h') hF⟩
  rw [Block.wp_bind]
  refine drainPage_turns h (fun b s' h' => ?_) hF
  rw [Block.wp_ite]
  exact ⟨fun _ => hQ _ s' t h', fun _ => afterPage_turns h' (fun e s' h'' => hQ e s' t h'') hF⟩

/-! ## One fetch call -/

/-- Requests move nothing. -/
theorem PageMoved.remarked {r : CycleLocals} (hr : Remarked s r) (h : PageMoved c r page s' t) :
    PageMoved c s page s' t := by
  obtain ⟨m, rl, rfl⟩ := hr
  exact ⟨h.moved, h.pages⟩

theorem forAwait_turns (u : UserCode ι) (hu : u.Gives page) {r : CycleLocals} (hr : Remarked s r)
    {Q : FetchEnd → CycleLocals → (fetchLog ι).View → Prop}
    {F : JsError → CycleLocals → (fetchLog ι).View → Prop}
    (hQ : ∀ e s' t, e = .pages 1 ∨ e = .outer → PageMoved c s page s' t → Q e s' log)
    (hF : ∀ e s', F e s' log) :
    Block.wp (fetchLog ι) (forAwait c u 0) Q F r log := by
  -- on what is left of the fetch function: its requests come before its one page
  induction u generalizing r with
  | finish => exact hu.elim
  | raise e => exact hF e r
  | page p rest ih =>
    obtain ⟨rfl, rfl⟩ := hu
    unfold forAwait
    rw [Block.wp_bind, Block.wp_await, wp_call]
    refine ⟨trivial, fun _ => ?_⟩
    rw [Block.wp_bind]
    refine onPage_turns (fun e s' t h => ?_) hF
    have h' := h.remarked hr
    cases e with
    | next => exact hQ (.pages 1) s' t (Or.inl rfl) h'
    | leave => exact hQ (.pages 1) s' t (Or.inl rfl) h'
    | leaveOuter => exact hQ .outer s' t (Or.inr rfl) h'
  | request req k ih =>
    have hresume : ∀ res r', Remarked r r' →
        Block.wp (fetchLog ι) (do
          Block.await (call (.resume res))
          forAwait c (k res) 0) Q F r' log := by
      intro res r' hr'
      rw [Block.wp_bind, Block.wp_await, wp_call]
      exact ⟨trivial, fun _ => ih res (hu res) (hr.trans hr')⟩
    unfold forAwait
    rw [Block.wp_bind, Block.wp_attempt]
    refine (request_within c req).wp_inv (I := fun v => v = log) ?_ ?_ ?_ rfl
    · rintro v o rfl ho
      refine ⟨trivial, fun a => ?_⟩
      cases o with
      | fetch lane ctx => exact ho.elim
      | _ => rfl
    · rintro res s' v hs rfl
      exact hresume (.ok res) s' hs
    · rintro e s' v hs rfl
      exact hresume (.error e) s' hs

/-- A fetch call that handed over something else stays in the log. -/
theorem unanswered_kept (api : CursorVal → Page ι) (deps : RunnerDeps ι) (lease : Lease) :
    ExecutionKept (fetchLog ι) (fun log => ¬Answered api log) deps lease := by
  have hkeep : ∀ log (o : Op ι), ¬Answered api log →
      (fetchLog ι).allow log o ∧ ∀ a, ¬Answered api ((fetchLog ι).learn log o a) := by
    intro log o hlog
    refine ⟨trivial, fun a => ?_⟩
    cases o with
    | fetch lane ctx => exact fun h => hlog fun x hx => h x (List.mem_append_left _ hx)
    | _ => exact hlog
  exact ⟨fun log o hlog _ => hkeep log o hlog,
    fun run => Uses.stays (fun log o hlog _ => hkeep log o hlog) (drainOutbox_uses ..)⟩

theorem fetchPages_turns {Q : FetchEnd → CycleLocals → (fetchLog ι).View → Prop}
    (hQ : ∀ e s' ctx u t, e = .pages 1 ∨ e = .outer → LoopTurn c api s ctx.cursor s' t →
      Q e s' (log ++ [(ctx, u)]))
    (hother : ∀ e s' log', ¬Answered api log' → Q e s' log') :
    Block.wp (fetchLog ι) (fetchPages c) Q (fun _ _ _ => True) s log := by
  -- the call itself, once the cursor is known
  have hcall : ∀ ctx : FetchContext,
      (s.summary.pages = 0 → ∃ t₀, c.strategy.forFetch s.cursor t₀ = .ok ctx.cursor) →
      (s.summary.pages ≠ 0 → ctx.cursor = s.cursor) →
      Block.wp (fetchLog ι) (do
        let code ← await (call (.fetch c.lane ctx))
        forAwait c code 0) Q (fun _ _ _ => True) s log := by
    intro ctx hfirst hlater
    rw [Block.wp_bind, Block.wp_await, wp_call]
    refine ⟨trivial, fun u => ?_⟩
    by_cases hu : u.Gives (api ctx.cursor)
    · refine forAwait_turns u hu (Remarked.refl s) (fun e s' t he h => ?_) fun _ _ => trivial
      exact hQ e s' ctx u t he ⟨hfirst, hlater, h⟩
    · have hlog : ¬Answered api (log ++ [(ctx, u)]) := fun h =>
        hu (h (ctx, u) (List.mem_append_right _ (List.mem_singleton_self _)))
      exact Block.wp_mono hother (fun _ _ _ _ => trivial)
        (forAwait_stays (unanswered_kept api c.deps c.lease) u 0 s _ hlog)
  unfold fetchPages
  rw [Block.wp_bind, Block.wp_locals, Block.wp_bind, Block.wp_await]
  unfold fetchCursor
  rw [Task.wp_ite]
  refine ⟨fun hfirst => ?_, fun hlater => ?_⟩
  · rw [Task.wp_bind, wp_now]
    refine ⟨trivial, fun t₀ => ?_⟩
    rw [Task.wp_ofExcept]
    exact ⟨fun asked hasked => hcall _ (fun _ => ⟨t₀, hasked⟩) fun h => absurd hfirst h,
      fun _ _ => trivial⟩
  · exact hcall _ (fun h => absurd h hlater) fun _ => rfl

/-! ## The loop -/

/-- Whatever the store, the clock, the signal and the drains answer, the page loop makes turns, with
the cursors of its fetch calls. -/
theorem scan_turns (fuel : Nat) {s₀ : CycleLocals} (h : LoopTurns c api s₀ (log.map (·.1.cursor)) s) :
    Block.wp (fetchLog ι) (scan c fuel)
      (fun _ s' log' => Answered api log' → Looped c api s₀ s' log') (fun _ _ _ => True) s log := by
  -- on the calls that are left, with the turns made so far carried from `s₀`
  induction fuel generalizing s log with
  | zero =>
    unfold scan
    rw [Block.wp_await, wp_diverge]
    trivial
  | succ n ih =>
    unfold scan
    rw [Block.wp_bind, Block.wp_locals, Block.wp_ite]
    refine ⟨fun _ _ => ⟨s, h, Or.inl rfl⟩, fun hdone => ?_⟩
    rw [Block.wp_bind, Block.wp_await]
    refine quiet_logs (throwIfAborted_quiet _) (fun _ => ?_) fun _ => trivial
    rw [Block.wp_bind, Block.wp_await]
    refine quiet_logs (pastDeadline_quiet c) (fun late => ?_) fun _ => trivial
    have hcut : Answered api log → Looped c api s₀ (truncate_ s) log := fun _ => ⟨s, h, Or.inr rfl⟩
    rw [Block.wp_ite]
    refine ⟨fun _ => hcut, fun _ => ?_⟩
    rw [Block.wp_ite]
    refine ⟨fun _ => hcut, fun _ => ?_⟩
    rw [Block.wp_bind]
    refine fetchPages_turns
      (fun e s' ctx u t he (hturn : LoopTurn c api s ctx.cursor s' t) => ?_) fun e s' log' hlog => ?_
    · have hturns : LoopTurns c api s₀ ((log ++ [(ctx, u)]).map (·.1.cursor)) s' := by
        rw [List.map_append]
        exact h.turn (Bool.eq_false_iff.2 hdone) hturn
      rcases he with rfl | rfl
      · rw [Block.wp_bind, Block.wp_when]
        exact ⟨fun hne => absurd rfl hne, fun _ => ih hturns⟩
      · exact fun _ => ⟨s', hturns, Or.inl rfl⟩
    · -- a call that was answered otherwise: nothing is said of the rest
      have hkept := unanswered_kept api c.deps c.lease
      have hrest : ∀ {m : Body ι CycleLocals Unit}, m.Stays (fetchLog ι) (fun log => ¬Answered api log) →
          Block.wp (fetchLog ι) m (fun _ s'' log'' => Answered api log'' → Looped c api s₀ s'' log'')
            (fun _ _ _ => True) s' log' := fun hm =>
        Block.wp_mono (fun _ _ _ hnot hanswered => absurd hanswered hnot) (fun _ _ _ _ => trivial)
          (hm s' log' hlog)
      cases e with
      | outer => exact hrest (Block.stays_pure ())
      | pages k =>
        exact hrest ((Block.Stays.when (Block.stays_assign _)).bind fun _ => scan_stays hkept n)

end

end Watukuy
