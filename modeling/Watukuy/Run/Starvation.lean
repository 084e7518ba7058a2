import Watukuy.Run.Lines

/-!
# Which keys a drain reaches

A drain loads a window of rows, gives the open groups to workers and goes on until nothing is open or a
round makes no progress. `drain_starves_no_key`: where the loop is left with the last load reaching
every ordering key that is not held, each row that was pending when the drain began has been attempted,
or an earlier row blocks its key. A full window without progress breaks it (`full_window_starves`).
-/

set_option autoImplicit false

namespace Watukuy

open Library KeyRecord

variable {ι : Type}

/-! ## The drain of a call -/

/-- The drain a call is about. -/
def Op.drainIndex : Op ι → Option Nat
  | .peekDrain i => some i
  | .noteDrain i _ => some i
  | .startRound _ _ _ i _ => some i
  | .joinRound i => some i
  | .shift i => some i
  | .workerDone i _ => some i
  | _ => none

section Crew

variable {d : Deployment ι} {ts : List (ThreadView ι)} {vs : List (CrewView ι)} {t : Nat} {o : Op ι}
  {ch : Choice ι} {a : Ans o} {w w' : World ι} {tr : List (Label (system ι))}

/-- Every call is about the one drain there is. -/
theorem Crew.index (h : Crew ts w) {v : ThreadView ι} (hv : ts[t]? = some v) (hallow : v.allow d o)
    {i : Nat} (ho : o.drainIndex = some i) : i = 0 ∧ 0 < w.drains.length := by
  have hfew := h.few
  have hlt : i < w.drains.length := by
    cases v with
    | main m =>
      cases o <;> cases ho
      · exact h.mains t m i hv hallow.1
      · exact hallow.elim
      · exact h.mains t m i hv hallow.2.2.1
      · exact h.mains t m i hv hallow.1
      · exact hallow.elim
      · exact hallow.elim
    | worker x =>
      have hx := h.workers t x hv
      cases o <;> cases ho
      · rw [show i = x.drain from hallow]
        exact hx
      · rw [hallow.1]
        exact hx
      · exact hallow.elim
      · exact hallow.elim
      · rw [hallow.1]
        exact hx
      · rw [hallow.1]
        exact hx
    | keeper l => cases o <;> cases ho <;> exact hallow.elim
  omega

/-- In every run of one drain, its threads are a crew. -/
theorem crew_run {lease : Lease} {run : Nat} {c : Config (system ι)} (hw : w.drains = [])
    (h : Run (system ι) (d.drains lease run) w tr c) (hone : drainsStarted tr ≤ 1) :
    Crew ((drainRoles d lease).views tr) c.world ∧ c.world.drains.length = drainsStarted tr := by
  have hsteps : Throughout (fun pre l => drainsStarted (pre ++ [l]) ≤ 1) tr := by
    rintro pre l post rfl
    rw [List.append_cons, drainsStarted, List.countP_append] at hone
    exact Nat.le_trans (Nat.le_add_right _ _) hone
  refine Run.roles (drainRolesObeyed d lease run)
    (J := fun tr ts w => Crew ts w ∧ w.drains.length = drainsStarted tr) ?_ ?_ ?_ ?_
    (h.mono fun _ hp => hp.entry) hsteps
  · exact ⟨crew_init w hw, by simp [hw, drainsStarted]⟩
  · intro tr c q _ _ hJ
    refine ⟨hJ.1.start lease q, ?_⟩
    rw [drainsStarted_append]
    exact hJ.2
  · intro tr c t o k ch a w' v _ hJ _ hv hallow hw hl
    have hlength : w'.drains.length = drainsStarted (tr ++ [.act t o ch a]) := by
      rw [drainsStarted_append, ← hJ.2]
      exact length_drains hw
    exact ⟨hJ.1.act hv hallow hw (hlength ▸ hl), hlength⟩
  · intro tr c x _ hJ
    refine ⟨?_, ?_⟩
    · exact ⟨hJ.1.few, hJ.1.mains, hJ.1.one, hJ.1.workers, hJ.1.count, hJ.1.resting, hJ.1.loaded⟩
    · rw [drainsStarted_append]
      exact hJ.2

/-! ## Workers that have not settled -/

def CrewView.live : CrewView ι → Bool
  | .hand x => !x.ended
  | .drainer _ => false

/-- The call with which a worker settles its promise. -/
def Op.settles : Op ι → Bool
  | .workerDone _ _ => true
  | _ => false

theorem HandView.learn_ended (x : HandView ι) (o : Op ι) (a : Ans o) :
    (x.learn d o a).ended = (x.ended || o.settles) := by
  cases o with
  | store so =>
    cases so <;> first | exact (Bool.or_false _).symm | (cases a <;> exact (Bool.or_false _).symm)
  | shift i => cases a <;> exact (Bool.or_false _).symm
  | noteDrain i note =>
    cases note with
    | parked =>
      simp only [HandView.learn, HandView.note, Op.settles, Bool.or_false]
      split <;> rfl
    | _ => exact (Bool.or_false _).symm
  | workerDone i res => exact (Bool.or_true _).symm
  | _ => exact (Bool.or_false _).symm

theorem ThreadView.learn_live (v : ThreadView ι) (o : Op ι) (a : Ans o) :
    (v.learn d o a).live = (v.live && !o.settles) := by
  cases v with
  | worker x =>
    have hended : (x.learn d o a).ended = (x.ended || o.settles) := by
      rcases (x.learn_drain (d := d) o a).2 with hsame | ⟨htrue, i, res, rfl⟩
      · cases o with
        | workerDone i res => exact (Bool.or_true _).symm
        | _ => exact hsame.trans (Bool.or_false _).symm
      · rw [htrue]
        exact (Bool.or_true _).symm
    simp [ThreadView.learn, ThreadView.live, hended]
  | main m => rfl
  | keeper l => rfl

theorem CrewView.learn_live (v : CrewView ι) (o : Op ι) (a : Ans o) :
    (v.learn d o a).live = (v.live && !o.settles) := by
  cases v with
  | hand x => simp [CrewView.learn, CrewView.live, x.learn_ended]
  | drainer m => rfl

/-- In both kinds of views, the same workers have not settled. -/
theorem live_alike (d : Deployment ι) (lease : Lease) (tr : List (Label (system ι))) :
    ((rounds d).views tr).countP CrewView.live =
      ((drainRoles d lease).views tr).countP ThreadView.live := by
  have halike : ((rounds d).views tr).map CrewView.live =
      ((drainRoles d lease).views tr).map ThreadView.live := by
    refine Roles.views_alike (rounds d) (drainRoles d lease) CrewView.live ThreadView.live rfl ?_ ?_ tr
    · intro o a
      cases o <;> rfl
    · intro v v' o a hlive
      exact (v.learn_live o a).trans ((congrArg (· && !o.settles) hlive).trans (v'.learn_live o a).symm)
  have hcount : ∀ {α : Type} (f : α → Bool) (l : List α), l.countP f = (l.map f).countP id := by
    intro α f l
    rw [List.countP_map]
    rfl
  rw [hcount CrewView.live, hcount ThreadView.live, halike]

end Crew

/-! ## Keys attended to -/

/-- The key of a round: it is blocked, the round has made progress, its group is queued, or an unsettled
worker has rows of it in hand. -/
def Attended (vs : List (CrewView ι)) (m : DrainMem ι) (key : String) : Prop :=
  key ∈ m.blocked ∨ 1 ≤ m.progress ∨ (∃ g ∈ m.queue, g.key = key ∧ g.rows ≠ []) ∨
    ∃ (u : Nat) (x : HandView ι), vs[u]? = some (.hand x) ∧ x.ended = false ∧ x.key = key ∧ x.rest ≠ []

/-- While groups are queued, a worker has not settled. -/
def Staffed (vs : List (CrewView ι)) (m : DrainMem ι) : Prop :=
  m.queue ≠ [] → ∃ (u : Nat) (x : HandView ι), vs[u]? = some (.hand x) ∧ x.ended = false

/-- The round of the one drain and its workers. -/
structure Manned (d : Deployment ι) (vs : List (CrewView ι)) (w : World ι) : Prop where
  attended : ∀ (t : Nat) m rows, vs[t]? = some (.drainer m) → m.joining = true →
    (w.drain 0).rejected = none → m.rows = some rows →
    ∀ r ∈ rows, orderingKey d.poller r.event ∈ m.held ∨
      Attended vs (w.drain 0) (orderingKey d.poller r.event)
  staffed : ∀ (t : Nat) m, vs[t]? = some (.drainer m) → m.joining = true →
    (w.drain 0).rejected = none → Staffed vs (w.drain 0)
  vacant : ∀ (u : Nat) x, vs[u]? = some (.hand x) → x.ended = false → x.empty = true →
    (w.drain 0).queue = []
  /-- After a round without progress, everything loaded is held or blocked. -/
  spent : ∀ (t : Nat) m rows, vs[t]? = some (.drainer m) → m.progress = some 0 →
    m.rows = some rows → ∀ r ∈ rows, orderingKey d.poller r.event ∈ m.held ∨
      orderingKey d.poller r.event ∈ (w.drain 0).blocked
  seen : ∀ (t : Nat) m, vs[t]? = some (.drainer m) → ∀ key ∈ m.blocked, key ∈ (w.drain 0).blocked
  begun : ∀ (t : Nat) m, vs[t]? = some (.drainer m) → m.begun = true → 0 < w.drains.length
  single : ∀ (t u : Nat) m m', vs[t]? = some (.drainer m) → vs[u]? = some (.drainer m') →
    m.begun = true → m'.begun = true → t = u
  joining : ∀ (t : Nat) m, vs[t]? = some (.drainer m) → m.joining = true → m.begun = true

section Attended

variable {vs vs' : List (CrewView ι)} {m m' : DrainMem ι} {key : String}

/-- A key stays attended to when each way in which it is leads to one. -/
theorem Attended.mono (h : Attended vs m key) (hblocked : ∀ k ∈ m.blocked, k ∈ m'.blocked)
    (hprogress : m.progress ≤ m'.progress)
    (hqueue : ∀ g ∈ m.queue, g.rows ≠ [] → Attended vs' m' g.key)
    (hhands : ∀ (u : Nat) x, vs[u]? = some (.hand x) → x.ended = false → x.rest ≠ [] →
      Attended vs' m' x.key) : Attended vs' m' key := by
  rcases h with hmem | hone | ⟨g, hg, rfl, hrows⟩ | ⟨u, x, hx, hended, rfl, hrest⟩
  · exact Or.inl (hblocked key hmem)
  · exact Or.inr (Or.inl (Nat.le_trans hone hprogress))
  · exact hqueue g hg hrows
  · exact hhands u x hx hended hrest

theorem Attended.queued {g : Group ι} (hg : g ∈ m.queue) (hrows : g.rows ≠ []) :
    Attended vs m g.key := Or.inr (Or.inr (Or.inl ⟨g, hg, rfl, hrows⟩))

theorem Attended.inHand {u : Nat} {x : HandView ι} (hx : vs[u]? = some (.hand x))
    (hended : x.ended = false) (hrest : x.rest ≠ []) : Attended vs m x.key :=
  Or.inr (Or.inr (Or.inr ⟨u, x, hx, hended, rfl, hrest⟩))

end Attended

/-! ## Steps of the main thread -/

section Steps

variable {d : Deployment ι} {vs : List (CrewView ι)} {t : Nat} {o : Op ι} {ch : Choice ι} {a : Ans o}
  {w w' : World ι}

/-- What a call of the main thread tells it, besides a round that begins or is joined. -/
theorem DrainerView.learn_plain (m : DrainerView ι)
    (hround : ∀ deps l run i gs, o ≠ .startRound deps l run i gs) (hjoin : ∀ i, o ≠ .joinRound i)
    (hallow : m.allow d o) (hw : perform o ch w = some (a, w')) :
    (m.learn o a).joining = m.joining ∧
      (((m.learn o a).rows = m.rows ∧ (m.learn o a).held = m.held ∧
          (m.learn o a).progress = m.progress) ∨
        (m.joining = false ∧ (m.learn o a).progress = none)) ∧
      ((m.learn o a).blocked = m.blocked ∨
        ∃ i, o = .peekDrain i ∧ (m.learn o a).blocked = (w.drain i).blocked) ∧
      ((m.learn o a).begun = m.begun ∨ o = .newDrain) := by
  cases o with
  | store so =>
    cases so with
    | loadPending limit =>
      cases a with
      | ok rows => exact ⟨rfl, Or.inr ⟨hallow, rfl⟩, Or.inl rfl, Or.inl rfl⟩
      | error e => exact ⟨rfl, Or.inl ⟨rfl, rfl, rfl⟩, Or.inl rfl, Or.inl rfl⟩
    | heldKeys =>
      cases a with
      | ok held => exact ⟨rfl, Or.inr ⟨hallow, rfl⟩, Or.inl rfl, Or.inl rfl⟩
      | error e => exact ⟨rfl, Or.inl ⟨rfl, rfl, rfl⟩, Or.inl rfl, Or.inl rfl⟩
    | countPending => exact ⟨rfl, Or.inl ⟨rfl, rfl, rfl⟩, Or.inl rfl, Or.inl rfl⟩
    | _ => exact hallow.elim
  | newDrain => exact ⟨rfl, Or.inl ⟨rfl, rfl, rfl⟩, Or.inl rfl, Or.inr rfl⟩
  | startRound deps l run i groups => exact absurd rfl (hround deps l run i groups)
  | joinRound i => exact absurd rfl (hjoin i)
  | peekDrain i =>
    obtain rfl : a = w.drain i := by
      cases ch <;> simp only [perform, Option.some.injEq, Prod.mk.injEq, reduceCtorEq] at hw
      exact hw.1.symm
    exact ⟨rfl, Or.inl ⟨rfl, rfl, rfl⟩, Or.inr ⟨i, rfl, rfl⟩, Or.inl rfl⟩
  | _ => exact ⟨rfl, Or.inl ⟨rfl, rfl, rfl⟩, Or.inl rfl, Or.inl rfl⟩

variable {v : CrewView ι}

/-- The workers after a step. -/
theorem hand_after (hv : vs[t]? = some v) {u : Nat} {x : HandView ι}
    (hx : ((rounds d).step vs (.act t o ch a))[u]? = some (.hand x)) :
    (∃ x₀, u = t ∧ v = .hand x₀ ∧ x = x₀.learn d o a) ∨ (u ≠ t ∧ vs[u]? = some (.hand x)) ∨
      (x = {} ∧ ∃ deps l run i gs, o = .startRound deps l run i gs) := by
  rcases step_act_cases hx with ⟨v₀, rfl, hv₀, heq⟩ | ⟨hne, hold⟩ | ⟨-, heq, -⟩
  · obtain rfl : v₀ = v := Option.some.inj (hv₀.symm.trans hv)
    cases v₀ with
    | hand x₀ => exact Or.inl ⟨x₀, rfl, rfl, CrewView.hand.inj heq⟩
    | drainer m => cases heq
  · exact Or.inr (Or.inl ⟨hne, hold⟩)
  · cases o <;> simp only [rounds, crewSeed, reduceCtorEq] at heq
    exact Or.inr (Or.inr ⟨CrewView.hand.inj heq, _, _, _, _, _, rfl⟩)

/-- The main threads after a step. -/
theorem drainer_after (hv : vs[t]? = some v) (hallow : v.allow d o) {u : Nat} {m : DrainerView ι}
    (hm : ((rounds d).step vs (.act t o ch a))[u]? = some (.drainer m)) :
    (∃ m₀, u = t ∧ v = .drainer m₀ ∧ m = m₀.learn o a) ∨ (u ≠ t ∧ vs[u]? = some (.drainer m)) := by
  rcases step_act_cases hm with ⟨v₀, rfl, hv₀, heq⟩ | ⟨hne, hold⟩ | ⟨-, heq, hfork⟩
  · obtain rfl : v₀ = v := Option.some.inj (hv₀.symm.trans hv)
    cases v₀ with
    | drainer m₀ => exact Or.inl ⟨m₀, rfl, rfl, CrewView.drainer.inj heq⟩
    | hand x => cases heq
  · exact Or.inr ⟨hne, hold⟩
  · refine absurd ?_ hfork
    cases o with
    | startRound deps l run i groups => cases heq
    | keeperStart deps run l => cases v <;> exact hallow.elim
    | _ => rfl

/-- A worker is where it was after a step of the main thread. -/
theorem hand_kept {m : DrainerView ι} (hv : vs[t]? = some (.drainer m)) {u : Nat} {x : HandView ι}
    (hx : vs[u]? = some (.hand x)) :
    ((rounds d).step vs (.act t o ch a))[u]? = some (.hand x) := by
  refine step_act_other ?_ hx
  rintro rfl
  rw [hv] at hx
  cases hx

/-- A worker was there before a step of the main thread that begins no round. -/
theorem hand_back {m : DrainerView ι} (hv : vs[t]? = some (.drainer m))
    (hround : ∀ deps l run i gs, o ≠ .startRound deps l run i gs) {u : Nat} {x : HandView ι}
    (hx : ((rounds d).step vs (.act t o ch a))[u]? = some (.hand x)) : vs[u]? = some (.hand x) := by
  rcases hand_after hv hx with ⟨x₀, -, hx₀, -⟩ | ⟨-, hold⟩ | ⟨-, deps, l, run, i, gs, heq⟩
  · cases hx₀
  · exact hold
  · exact absurd heq (hround deps l run i gs)

/-- A main thread after a step of one. -/
theorem main_after {m : DrainerView ι} (hv : vs[t]? = some (.drainer m)) (hallow : m.allow d o)
    {u : Nat} {m' : DrainerView ι}
    (hm' : ((rounds d).step vs (.act t o ch a))[u]? = some (.drainer m')) :
    (u = t ∧ m' = m.learn o a) ∨ (u ≠ t ∧ vs[u]? = some (.drainer m')) := by
  rcases drainer_after (v := .drainer m) hv hallow hm' with ⟨m₀, rfl, hm₀, rfl⟩ | hold
  · obtain rfl := CrewView.drainer.inj hm₀
    exact Or.inl ⟨rfl, rfl⟩
  · exact Or.inr hold

/-- A key stays attended to while the variables of the drain and the workers stay as they are. -/
theorem Attended.still {vs' : List (CrewView ι)} {mem : DrainMem ι} {key : String}
    (h : Attended vs mem key)
    (hhands : ∀ (u : Nat) x, vs[u]? = some (.hand x) → vs'[u]? = some (.hand x)) :
    Attended vs' mem key := by
  refine h.mono (fun _ hk => hk) le_rfl (fun g hg hrows => .queued hg hrows) ?_
  exact fun u x hx hended hrest => .inHand (hhands u x hx) hended hrest

theorem Staffed.still {vs' : List (CrewView ι)} {mem : DrainMem ι} (h : Staffed vs mem)
    (hhands : ∀ (u : Nat) x, vs[u]? = some (.hand x) → vs'[u]? = some (.hand x)) :
    Staffed vs' mem := by
  intro hne
  obtain ⟨u, x, hx, hended⟩ := h hne
  exact ⟨u, x, hhands u x hx, hended⟩

/-- Who has begun a drain is the only one, while nobody else begins one. -/
theorem Manned.single_of (h : Manned d vs w) {vs' : List (CrewView ι)}
    (hold : ∀ (u : Nat) m', vs'[u]? = some (.drainer m') → m'.begun = true →
      ∃ m₀, vs[u]? = some (.drainer m₀) ∧ m₀.begun = true)
    (u u' : Nat) (m₁ m₂ : DrainerView ι) (hm₁ : vs'[u]? = some (.drainer m₁))
    (hm₂ : vs'[u']? = some (.drainer m₂)) (hb₁ : m₁.begun = true) (hb₂ : m₂.begun = true) :
    u = u' := by
  obtain ⟨n₁, hn₁, hbn₁⟩ := hold u m₁ hm₁ hb₁
  obtain ⟨n₂, hn₂, hbn₂⟩ := hold u' m₂ hm₂ hb₂
  exact h.single u u' n₁ n₂ hn₁ hn₂ hbn₁ hbn₂

/-- A call of the main thread that neither begins nor joins a round. -/
theorem Manned.plain (h : Manned d vs w) {m : DrainerView ι} (hv : vs[t]? = some (.drainer m))
    (hallow : m.allow d o) (hw : perform o ch w = some (a, w'))
    (hround : ∀ deps l run i gs, o ≠ .startRound deps l run i gs) (hjoin : ∀ i, o ≠ .joinRound i)
    (hindex : ∀ i, o.drainIndex = some i → i = 0) (hfew : w'.drains.length ≤ 1) :
    Manned d ((rounds d).step vs (.act t o ch a)) w' := by
  obtain ⟨hjoining, hlook, hblocked, hbegun⟩ := m.learn_plain hround hjoin hallow hw
  have hdrain : w'.drain 0 = w.drain 0 := by
    rcases perform_drain hw 0 with heq | ⟨i, note, rfl, -, -⟩ | ⟨deps, l, run, i, groups, rfl, -, -⟩ |
      ⟨i, rfl, -, -⟩ | ⟨i, res, rfl, -, -⟩
    · exact heq
    · exact hallow.elim
    · exact absurd rfl (hround _ _ _ _ _)
    · exact hallow.elim
    · exact hallow.elim
  have hlength : w.drains.length ≤ w'.drains.length := by
    rw [length_drains (t := t) hw]
    exact Nat.le_add_right _ _
  have hhands : ∀ (u : Nat) x, vs[u]? = some (.hand x) →
      ((rounds d).step vs (.act t o ch a))[u]? = some (.hand x) := fun _ _ hx => hand_kept hv hx
  have hmains : ∀ (u : Nat) m', ((rounds d).step vs (.act t o ch a))[u]? = some (.drainer m') →
      (u = t ∧ m' = m.learn o a) ∨ (u ≠ t ∧ vs[u]? = some (.drainer m')) :=
    fun _ _ hm' => main_after hv hallow hm'
  have hattended : ∀ key, Attended vs (w.drain 0) key →
      Attended ((rounds d).step vs (.act t o ch a)) (w'.drain 0) key := by
    intro key hkey
    rw [hdrain]
    exact hkey.still hhands
  -- a thread that begins a drain is the only one that has
  have hnew : o = .newDrain → ∀ (u : Nat) m', vs[u]? = some (.drainer m') → m'.begun = false := by
    rintro rfl u m' hm'
    cases hb : m'.begun with
    | false => rfl
    | true =>
      have hpos := h.begun u m' hm' hb
      have hadd := length_drains (t := t) hw
      simp only [beginsDrain, if_true] at hadd
      omega
  refine ⟨?_, ?_, ?_, ?_, ?_, ?_, ?_, ?_⟩
  · -- a thread that waits for its round reads nothing new
    intro u m' rows hm' hj hrejected hrows r hr
    rw [hdrain] at hrejected
    rcases hmains u m' hm' with ⟨rfl, rfl⟩ | ⟨-, hold⟩
    · rw [hjoining] at hj
      rcases hlook with ⟨hsame, hheld, -⟩ | ⟨hnot, -⟩
      · rw [hsame] at hrows
        rw [hheld]
        exact (h.attended u m rows hv hj hrejected hrows r hr).imp_right (hattended _)
      · rw [hnot] at hj
        cases hj
    · exact (h.attended u m' rows hold hj hrejected hrows r hr).imp_right (hattended _)
  · intro u m' hm' hj hrejected hne
    rw [hdrain] at hrejected hne
    have hstaffed : Staffed vs (w.drain 0) := by
      rcases hmains u m' hm' with ⟨rfl, rfl⟩ | ⟨-, hold⟩
      · exact h.staffed u m hv (hjoining ▸ hj) hrejected
      · exact h.staffed u m' hold hj hrejected
    exact hstaffed.still hhands hne
  · intro u x hx hended hempty
    rw [hdrain]
    exact h.vacant u x (hand_back hv hround hx) hended hempty
  · -- rows or keys that are read anew follow no round
    intro u m' rows hm' hzero hrows r hr
    rw [hdrain]
    rcases hmains u m' hm' with ⟨rfl, rfl⟩ | ⟨-, hold⟩
    · rcases hlook with ⟨hsame, hheld, hprogress⟩ | ⟨-, hnone⟩
      · rw [hsame] at hrows
        rw [hprogress] at hzero
        rw [hheld]
        exact h.spent u m rows hv hzero hrows r hr
      · rw [hnone] at hzero
        cases hzero
    · exact h.spent u m' rows hold hzero hrows r hr
  · intro u m' hm' key hkey
    rw [hdrain]
    rcases hmains u m' hm' with ⟨rfl, rfl⟩ | ⟨-, hold⟩
    · rcases hblocked with hsame | ⟨i, rfl, hpeek⟩
      · rw [hsame] at hkey
        exact h.seen u m hv key hkey
      · rw [hpeek, hindex i rfl] at hkey
        exact hkey
    · exact h.seen u m' hold key hkey
  · intro u m' hm' hb
    rcases hmains u m' hm' with ⟨rfl, rfl⟩ | ⟨-, hold⟩
    · rcases hbegun with hsame | rfl
      · exact Nat.lt_of_lt_of_le (h.begun u m hv (hsame ▸ hb)) hlength
      · have hadd := length_drains (t := u) hw
        simp only [beginsDrain, if_true] at hadd
        omega
    · exact Nat.lt_of_lt_of_le (h.begun u m' hold hb) hlength
  · -- this thread has begun before, or begins now and nobody had
    intro u u' m₁ m₂ hm₁ hm₂ hb₁ hb₂
    have hother : ∀ (u : Nat) m', vs[u]? = some (.drainer m') → m'.begun = true →
        m.begun = true ∨ (m.learn o a).begun = false := by
      intro u m' hold hb
      by_cases hbm : m.begun = true
      · exact Or.inl hbm
      · rcases hbegun with hsame | hbegins
        · refine Or.inr ?_
          rw [hsame]
          simpa using hbm
        · rw [hnew hbegins u m' hold] at hb
          cases hb
    rcases hmains u m₁ hm₁ with ⟨rfl, rfl⟩ | ⟨-, hold₁⟩
    · rcases hmains u' m₂ hm₂ with ⟨rfl, -⟩ | ⟨-, hold₂⟩
      · rfl
      · rcases hother u' m₂ hold₂ hb₂ with hbm | hfalse
        · exact h.single u u' m m₂ hv hold₂ hbm hb₂
        · rw [hfalse] at hb₁
          cases hb₁
    · rcases hmains u' m₂ hm₂ with ⟨rfl, rfl⟩ | ⟨-, hold₂⟩
      · rcases hother u m₁ hold₁ hb₁ with hbm | hfalse
        · exact h.single u u' m₁ m hold₁ hv hb₁ hbm
        · rw [hfalse] at hb₂
          cases hb₂
      · exact h.single u u' m₁ m₂ hold₁ hold₂ hb₁ hb₂
  · intro u m' hm' hj
    rcases hmains u m' hm' with ⟨rfl, rfl⟩ | ⟨-, hold⟩
    · have hb := h.joining u m hv (hjoining ▸ hj)
      rcases hbegun with hsame | rfl
      · rw [hsame]
        exact hb
      · rfl
    · exact h.joining u m' hold hj

/-- No worker is left. -/
theorem hands_ended (hidle : vs.countP CrewView.live = 0) {u : Nat} {x : HandView ι}
    (hx : vs[u]? = some (.hand x)) : x.ended = true := by
  have hdead := List.countP_eq_zero.1 hidle _ (List.mem_of_getElem? hx)
  simpa [CrewView.live] using hdead

/-- The group of a loaded row that is neither held nor blocked is open. -/
theorem open_group {poller : ResolvedPoller ι} {rows : List (OutboxRow ι)} {held blocked : List String}
    {r : OutboxRow ι} (hr : r ∈ rows) (hheld : orderingKey poller r.event ∉ held)
    (hblocked : orderingKey poller r.event ∉ blocked) :
    ∃ g ∈ openGroups poller rows held blocked, g.key = orderingKey poller r.event ∧ g.rows ≠ [] := by
  obtain ⟨g, hg, hkey⟩ := List.mem_map.1 ((grouped poller rows).cover r hr)
  refine ⟨g, List.mem_filter.2 ⟨hg, ?_⟩, hkey, ?_⟩
  · rw [hkey]
    simp [hheld, hblocked]
  · rw [(grouped poller rows).rows_eq g hg]
    refine List.ne_nil_of_mem (a := r) (List.mem_filter.2 ⟨hr, ?_⟩)
    simp [hkey]

/-- A round begins: all its groups are queued. -/
theorem Manned.round (h : Manned d vs w) (hconcurrency : 1 ≤ d.poller.delivery.concurrency)
    {m : DrainerView ι} (hv : vs[t]? = some (.drainer m)) {deps : RunnerDeps ι} {l : Lease} {run : Nat}
    {groups : List (Group ι)} {u : Unit} (hallow : m.allow d (.startRound deps l run 0 groups))
    (hw : perform (.startRound deps l run 0 groups) ch w = some (u, w')) (hpos : 0 < w.drains.length)
    (hidle : vs.countP CrewView.live = 0) :
    Manned d ((rounds d).step vs (.act t (.startRound deps l run 0 groups) ch u)) w' := by
  have hw' : w' = w.setDrain 0 fun m' => m'.startRound deps groups := by
    cases ch <;> simp only [perform, Option.some.injEq, Prod.mk.injEq, reduceCtorEq] at hw
    exact hw.2.symm
  have hdrain : w'.drain 0 = (w.drain 0).startRound deps groups := by
    rw [hw', drain_setDrain_self hpos]
  have hlength : w'.drains.length = w.drains.length := by rw [hw', length_setDrain]
  have hhands : ∀ (v : Nat) x,
      ((rounds d).step vs (.act t (.startRound deps l run 0 groups) ch u))[v]? = some (.hand x) →
      x.ended = true ∨ x = {} := by
    intro v x hx
    rcases hand_after hv hx with ⟨x₀, -, hx₀, -⟩ | ⟨-, hold⟩ | ⟨rfl, -⟩
    · cases hx₀
    · exact Or.inl (hands_ended hidle hold)
    · exact Or.inr rfl
  have hmains : ∀ (v : Nat) m',
      ((rounds d).step vs (.act t (.startRound deps l run 0 groups) ch u))[v]? = some (.drainer m') →
      (v = t ∧ m' = { m with joining := true, progress := none }) ∨
        (v ≠ t ∧ vs[v]? = some (.drainer m')) := by
    intro v m' hm'
    exact main_after (o := .startRound deps l run 0 groups) hv hallow hm'
  obtain ⟨hdeps, hbegun, -, hne, rows, hrows, hgroups⟩ := hallow
  -- no other thread is in a round
  have hother : ∀ (v : Nat) m', v ≠ t → vs[v]? = some (.drainer m') → m'.joining = false := by
    intro v m' hvt hm'
    cases hj : m'.joining with
    | false => rfl
    | true => exact absurd (h.single v t m' m hm' hv (h.joining v m' hm' hj) hbegun) hvt
  refine ⟨?_, ?_, ?_, ?_, ?_, ?_, ?_, ?_⟩
  · -- a loaded row is held, blocked by an earlier round, or in a queued group
    intro v m' rows' hm' hj _ hrows' r hr
    rcases hmains v m' hm' with ⟨rfl, rfl⟩ | ⟨hvt, hold⟩
    · obtain rfl : rows = rows' := Option.some.inj (hrows.symm.trans hrows')
      by_cases hheld : orderingKey d.poller r.event ∈ m.held
      · exact Or.inl hheld
      · refine Or.inr ?_
        rw [hdrain]
        by_cases hblocked : orderingKey d.poller r.event ∈ m.blocked
        · exact Or.inl (h.seen v m hv _ hblocked)
        · obtain ⟨g, hg, hkey, hfull⟩ := open_group hr hheld hblocked
          rw [← hkey]
          exact Attended.queued (m := (w.drain 0).startRound deps groups) (hgroups ▸ hg) hfull
    · rw [hother v m' hvt hold] at hj
      cases hj
  · -- there is a group, so there is a worker
    intro v m' _ _ _ _
    have hcount : 0 < ((system ι).forks (.startRound deps l run 0 groups) u).length := by
      have hforks : ((system ι).forks (.startRound deps l run 0 groups) u).length =
          workerCount deps groups := List.length_replicate
      have hgroup : 0 < groups.length := List.length_pos_iff.2 hne
      rw [hforks, workerCount, hdeps.poller]
      omega
    refine ⟨vs.length, {}, ?_, rfl⟩
    simp only [Roles.step]
    rw [List.getElem?_append_right (by simp), List.length_modify, Nat.sub_self,
      List.getElem?_replicate, if_pos hcount]
    rfl
  · intro v x hx hended hempty
    rcases hhands v x hx with htrue | rfl
    · rw [htrue] at hended
      cases hended
    · cases hempty
  · intro v m' rows' hm' hzero hrows' r hr
    rcases hmains v m' hm' with ⟨-, rfl⟩ | ⟨-, hold⟩
    · cases hzero
    · rw [hdrain]
      exact h.spent v m' rows' hold hzero hrows' r hr
  · intro v m' hm' key hkey
    rw [hdrain]
    rcases hmains v m' hm' with ⟨-, rfl⟩ | ⟨-, hold⟩
    · exact h.seen t m hv key hkey
    · exact h.seen v m' hold key hkey
  · intro v m' _ _
    rw [hlength]
    exact hpos
  · refine h.single_of ?_
    intro v m' hm' hb
    rcases hmains v m' hm' with ⟨rfl, rfl⟩ | ⟨-, hold⟩
    · exact ⟨m, hv, hb⟩
    · exact ⟨m', hold, hb⟩
  · intro v m' hm' hj
    rcases hmains v m' hm' with ⟨-, rfl⟩ | ⟨-, hold⟩
    · exact hbegun
    · exact h.joining v m' hold hj

/-- A round is joined: after one without progress, everything is held or blocked. -/
theorem Manned.join (h : Manned d vs w) {m : DrainerView ι} (hv : vs[t]? = some (.drainer m))
    {res : Except JsError Nat} (hallow : m.allow d (.joinRound 0))
    (hw : perform (.joinRound 0) ch w = some (res, w'))
    (hcount : (w.drain 0).running = vs.countP CrewView.live) :
    Manned d ((rounds d).step vs (.act t (.joinRound 0) ch res)) w' := by
  have hworld : w' = w ∧ ((∃ e, res = .error e) ∨ ((w.drain 0).rejected = none ∧
      (w.drain 0).running = 0 ∧ res = .ok (w.drain 0).progress)) := by
    cases ch with
    | ok =>
      simp only [perform] at hw
      split at hw
      · rename_i e he
        obtain ⟨rfl, rfl⟩ := Prod.mk.inj (Option.some.inj hw)
        exact ⟨rfl, Or.inl ⟨e, rfl⟩⟩
      · rename_i hnone
        split at hw
        · rename_i hzero
          obtain ⟨rfl, rfl⟩ := Prod.mk.inj (Option.some.inj hw)
          exact ⟨rfl, Or.inr ⟨hnone, hzero, rfl⟩⟩
        · cases hw
    | _ => simp only [perform, reduceCtorEq] at hw
  obtain ⟨rfl, hres⟩ := hworld
  have hhands : ∀ (u : Nat) x, vs[u]? = some (.hand x) →
      ((rounds d).step vs (.act t (.joinRound 0) ch res))[u]? = some (.hand x) :=
    fun _ _ hx => hand_kept hv hx
  have hmains : ∀ (u : Nat) m', ((rounds d).step vs (.act t (.joinRound 0) ch res))[u]? =
      some (.drainer m') → (u = t ∧ m' = m.learn (.joinRound 0) res) ∨
        (u ≠ t ∧ vs[u]? = some (.drainer m')) :=
    fun _ _ hm' => main_after (o := .joinRound 0) hv hallow hm'
  have hlearn : (m.learn (.joinRound 0) res).joining = false ∧
      (m.learn (.joinRound 0) res).rows = m.rows ∧ (m.learn (.joinRound 0) res).held = m.held ∧
      (m.learn (.joinRound 0) res).blocked = m.blocked ∧
      (m.learn (.joinRound 0) res).begun = m.begun := by
    cases res <;> exact ⟨rfl, rfl, rfl, rfl, rfl⟩
  obtain ⟨hjoined, hrowsEq, hheldEq, hblockedEq, hbegunEq⟩ := hlearn
  refine ⟨?_, ?_, ?_, ?_, ?_, ?_, ?_, ?_⟩
  · intro u m' rows hm' hj hrejected hrows r hr
    rcases hmains u m' hm' with ⟨rfl, rfl⟩ | ⟨-, hold⟩
    · rw [hjoined] at hj
      cases hj
    · refine (h.attended u m' rows hold hj hrejected hrows r hr).imp_right ?_
      exact fun hkey => hkey.still hhands
  · intro u m' hm' hj hrejected
    rcases hmains u m' hm' with ⟨rfl, rfl⟩ | ⟨-, hold⟩
    · rw [hjoined] at hj
      cases hj
    · exact (h.staffed u m' hold hj hrejected).still hhands
  · intro u x hx
    exact h.vacant u x (hand_back hv (fun _ _ _ _ _ heq => by cases heq) hx)
  · -- what the round has left without progress is held or blocked
    intro u m' rows hm' hzero hrows r hr
    rcases hmains u m' hm' with ⟨rfl, rfl⟩ | ⟨-, hold⟩
    · rw [hrowsEq] at hrows
      rw [hheldEq]
      rcases hres with ⟨e, rfl⟩ | ⟨hrejected, hrunning, rfl⟩
      · exact h.spent u m rows hv hzero hrows r hr
      · -- nobody is left, so nothing is queued, and no key is attended to without being blocked
        have hprogress : (w'.drain 0).progress = 0 := Option.some.inj hzero
        rw [hrunning] at hcount
        refine (h.attended u m rows hv hallow hrejected hrows r hr).imp_right ?_
        rintro (hmem | hone | ⟨g, hg, -, -⟩ | ⟨u', x, hx, hended, -, -⟩)
        · exact hmem
        · omega
        · obtain ⟨u', x, hx, hended⟩ := h.staffed u m hv hallow hrejected (List.ne_nil_of_mem hg)
          rw [hands_ended hcount.symm hx] at hended
          cases hended
        · rw [hands_ended hcount.symm hx] at hended
          cases hended
    · exact h.spent u m' rows hold hzero hrows r hr
  · intro u m' hm' key hkey
    rcases hmains u m' hm' with ⟨rfl, rfl⟩ | ⟨-, hold⟩
    · exact h.seen u m hv key (hblockedEq ▸ hkey)
    · exact h.seen u m' hold key hkey
  · intro u m' hm' hb
    rcases hmains u m' hm' with ⟨rfl, rfl⟩ | ⟨-, hold⟩
    · exact h.begun u m hv (hbegunEq ▸ hb)
    · exact h.begun u m' hold hb
  · refine h.single_of ?_
    intro u m' hm' hb
    rcases hmains u m' hm' with ⟨rfl, rfl⟩ | ⟨-, hold⟩
    · exact ⟨m, hv, hbegunEq ▸ hb⟩
    · exact ⟨m', hold, hb⟩
  · intro u m' hm' hj
    rcases hmains u m' hm' with ⟨rfl, rfl⟩ | ⟨-, hold⟩
    · rw [hjoined] at hj
      cases hj
    · exact h.joining u m' hold hj

/-! ## Steps of the workers -/

/-- What a step of a worker preserves, from the variables `m` of the drain to `m'`. -/
structure Carries (vs vs' : List (CrewView ι)) (m m' : DrainMem ι) : Prop where
  attended : m'.rejected = none → ∀ key, Attended vs m key → Attended vs' m' key
  staffed : m'.rejected = none → Staffed vs m → Staffed vs' m'
  rejected : m'.rejected = none → m.rejected = none
  blocked : ∀ key ∈ m.blocked, key ∈ m'.blocked
  vacant : (∀ (u : Nat) x, vs[u]? = some (.hand x) → x.ended = false → x.empty = true → m.queue = []) →
    ∀ (u : Nat) x, vs'[u]? = some (.hand x) → x.ended = false → x.empty = true → m'.queue = []

variable {x : HandView ι} {m m' : DrainMem ι}

theorem hand_self (hv : vs[t]? = some (.hand x)) :
    ((rounds d).step vs (.act t o ch a))[t]? = some (.hand (x.learn d o a)) :=
  step_act_self (R := rounds d) (v := .hand x) hv

/-- The worker goes on, and what it leaves is attended to. -/
theorem Carries.on (hv : vs[t]? = some (.hand x))
    (hround : ∀ deps l run i gs, o ≠ .startRound deps l run i gs) (hqueue : m'.queue = m.queue)
    (hprogress : m.progress ≤ m'.progress)
    (hblocked : ∀ key ∈ m.blocked, key ∈ m'.blocked) (hrejected : m'.rejected = m.rejected)
    (hended : (x.learn d o a).ended = x.ended) (hempty : (x.learn d o a).empty = x.empty)
    (hrest : x.ended = false → x.rest ≠ [] →
      Attended ((rounds d).step vs (.act t o ch a)) m' x.key) :
    Carries vs ((rounds d).step vs (.act t o ch a)) m m' := by
  refine ⟨?_, ?_, fun h => hrejected ▸ h, hblocked, ?_⟩
  · intro _ key hkey
    refine hkey.mono hblocked hprogress ?_ ?_
    · intro g hg hrows
      exact .queued (hqueue ▸ hg) hrows
    · intro u y hy hlive hne
      by_cases hut : u = t
      · subst hut
        obtain rfl := CrewView.hand.inj (Option.some.inj (hv.symm.trans hy))
        exact hrest hlive hne
      · exact .inHand (step_act_other hut hy) hlive hne
  · intro _ hstaffed hne
    rw [hqueue] at hne
    obtain ⟨u, y, hy, hlive⟩ := hstaffed hne
    by_cases hut : u = t
    · subst hut
      obtain rfl := CrewView.hand.inj (Option.some.inj (hv.symm.trans hy))
      exact ⟨u, _, hand_self hv, hended.trans hlive⟩
    · exact ⟨u, y, step_act_other hut hy, hlive⟩
  · intro hvacant u y hy hlive hfound
    rw [hqueue]
    rcases hand_after hv hy with ⟨x₀, rfl, hx₀, rfl⟩ | ⟨-, hold⟩ | ⟨-, deps, l, run, i, gs, rfl⟩
    · obtain rfl := CrewView.hand.inj hx₀
      exact hvacant u x hv (hended ▸ hlive) (hempty ▸ hfound)
    · exact hvacant u y hold hlive hfound
    · exact absurd rfl (hround _ _ _ _ _)

/-- A worker takes a group, or finds none. -/
theorem Carries.shift {i : Nat} {next : Option (Group ι)} (hv : vs[t]? = some (.hand x))
    (hrest : x.rest = []) (hended : x.ended = false) (hnext : m.queue.head? = next) :
    Carries vs ((rounds d).step vs (.act t (.shift i) ch next)) m { m with queue := m.queue.tail } := by
  have hlive : ((x.learn d (.shift i) next)).ended = false := by
    cases next <;> exact hended
  refine ⟨?_, ?_, id, fun _ hkey => hkey, ?_⟩
  · intro _ key hkey
    refine hkey.mono (fun _ hk => hk) le_rfl ?_ ?_
    · intro g hg hrows
      -- the group is taken by this worker, or stays in the queue
      cases hqueue : m.queue with
      | nil =>
        rw [hqueue] at hg
        cases hg
      | cons g₀ gs =>
        rw [hqueue] at hg hnext
        rcases List.mem_cons.1 hg with rfl | hg
        · obtain rfl : some g = next := hnext
          exact Attended.inHand (x := x.learn d (.shift i) (some g)) (hand_self hv) hlive hrows
        · exact .queued (m := { m with queue := gs }) hg hrows
    · intro u y hy hlive' hne
      by_cases hut : u = t
      · subst hut
        obtain rfl := CrewView.hand.inj (Option.some.inj (hv.symm.trans hy))
        exact absurd hrest hne
      · exact .inHand (step_act_other hut hy) hlive' hne
  · exact fun _ _ _ => ⟨t, _, hand_self hv, hlive⟩
  · intro hvacant u y hy hlive' hfound
    have htail : m.queue = [] → m.queue.tail = [] := fun hnil => by rw [hnil]; rfl
    rcases hand_after hv hy with ⟨x₀, rfl, hx₀, rfl⟩ | ⟨-, hold⟩ | ⟨-, deps, l, run, j, gs, hround⟩
    · obtain rfl := CrewView.hand.inj hx₀
      cases next with
      | none => exact htail (List.head?_eq_none_iff.1 hnext)
      | some g => exact htail (hvacant u x hv hended hfound)
    · exact htail (hvacant u y hold hlive' hfound)
    · cases hround

/-- A worker settles its promise. -/
theorem Carries.settle {i : Nat} {res : Except JsError Unit} {u : Unit} (hv : vs[t]? = some (.hand x))
    (hstopped : x.stopped = false)
    (hleft : res = .ok () → x.stopped = true ∨ (x.empty = true ∧ x.rest = []))
    (hvacant : x.empty = true → m.queue = []) :
    Carries vs ((rounds d).step vs (.act t (.workerDone i res) ch u)) m (m.settleWorker res) := by
  have hback : ∀ (u' : Nat) y,
      ((rounds d).step vs (.act t (.workerDone i res) ch u))[u']? = some (.hand y) → y.ended = false →
      vs[u']? = some (.hand y) := by
    intro u' y hy hlive
    rcases hand_after hv hy with ⟨x₀, rfl, -, rfl⟩ | ⟨-, hold⟩ | ⟨-, deps, l, run, j, gs, hround⟩
    · cases hlive
    · exact hold
    · cases hround
  cases res with
  | error e =>
    -- from now on the round is rejected
    have hrejected : ((m.settleWorker (.error e)).rejected) ≠ none := by
      simp [DrainMem.settleWorker]
    refine ⟨fun h => absurd h hrejected, fun h => absurd h hrejected, fun h => absurd h hrejected,
      fun _ hkey => hkey, ?_⟩
    intro hall u' y hy hlive hfound
    exact hall u' y (hback u' y hy hlive) hlive hfound
  | ok _ =>
    have hgone : x.empty = true ∧ x.rest = [] := by
      rcases hleft rfl with htrue | hgone
      · rw [hstopped] at htrue
        cases htrue
      · exact hgone
    refine ⟨?_, ?_, id, fun _ hkey => hkey, ?_⟩
    · intro _ key hkey
      refine hkey.mono (fun _ hk => hk) le_rfl
        (fun g hg hrows => .queued (m := m.settleWorker _) hg hrows) ?_
      intro u' y hy hlive hne
      by_cases hut : u' = t
      · subst hut
        obtain rfl := CrewView.hand.inj (Option.some.inj (hv.symm.trans hy))
        exact absurd hgone.2 hne
      · exact .inHand (step_act_other hut hy) hlive hne
    · intro _ _ hne
      exact absurd (hvacant hgone.1) hne
    · intro hall u' y hy hlive hfound
      exact hall u' y (hback u' y hy hlive) hlive hfound

/-- Besides its notes, its turns and its end, a call of a worker leaves its group as it is. -/
theorem HandView.learn_plain (x : HandView ι) (hallow : x.allow d o)
    (hnote : ∀ i note, o ≠ .noteDrain i note) (hshift : ∀ i, o ≠ .shift i) :
    (x.learn d o a).key = x.key ∧ (x.learn d o a).rest = x.rest ∧
      (x.learn d o a).empty = x.empty := by
  cases o with
  | store so => cases so <;> first | exact hallow.2.2.elim | (cases a <;> exact ⟨rfl, rfl, rfl⟩)
  | noteDrain i note => exact absurd rfl (hnote i note)
  | shift i => exact absurd rfl (hshift i)
  | _ => exact ⟨rfl, rfl, rfl⟩

theorem carries_note (hv : vs[t]? = some (.hand x)) {i : Nat} {note : DrainNote} {u : Unit}
    (hallow : x.allow d (.noteDrain i note)) (hrun : Unstopped (.act t (.noteDrain i note) ch u)) :
    Carries vs ((rounds d).step vs (.act t (.noteDrain i note) ch u)) m (m.note note) := by
  have hended : (x.learn d (.noteDrain i note) u).ended = x.ended :=
    (x.learn_ended (d := d) (.noteDrain i note) u).trans (Bool.or_false _)
  have hround : ∀ deps l run j gs, (Op.noteDrain i note : Op ι) ≠ .startRound deps l run j gs := by
    intro deps l run j gs heq
    cases heq
  cases note with
  | delivered =>
    exact .on hv hround rfl (Nat.le_succ _) (fun _ hk => hk) rfl hended rfl
      fun _ _ => Or.inr (Or.inl (Nat.succ_pos _))
  | parked =>
    refine .on hv hround rfl (Nat.le_succ _) (fun _ hk => hk) rfl hended ?_
      fun _ _ => Or.inr (Or.inl (Nat.succ_pos _))
    change (x.note d .parked).empty = x.empty
    unfold HandView.note
    dsimp only
    split <;> rfl
  | halted => exact hrun.elim
  | failed =>
    exact .on hv hround rfl le_rfl (fun _ hk => hk) rfl hended rfl
      fun hlive hne => Attended.inHand (x := x) (hand_self hv) hlive hne
  | retryAt at_ =>
    exact .on hv hround rfl le_rfl (fun _ hk => hk) rfl hended rfl
      fun hlive hne => Attended.inHand (x := x) (hand_self hv) hlive hne
  | block key =>
    obtain ⟨-, rfl, -⟩ := hallow
    exact .on hv hround rfl le_rfl (fun _ hk => List.mem_cons_of_mem _ hk) rfl hended rfl
      fun _ _ => Or.inl List.mem_cons_self

theorem carries (h : Manned d vs w) (hv : vs[t]? = some (.hand x)) (hallow : x.allow d o)
    (hw : perform o ch w = some (a, w')) (hrun : Unstopped (.act t o ch a))
    (hstopped : x.stopped = false)
    (hindex : ∀ i, o.drainIndex = some i → i = 0 ∧ 0 < w.drains.length) :
    Carries vs ((rounds d).step vs (.act t o ch a)) (w.drain 0) (w'.drain 0) := by
  by_cases hplain : (∃ i note, o = .noteDrain i note) ∨ (∃ i, o = .shift i) ∨
      ∃ i res, o = .workerDone i res
  · rcases hplain with ⟨i, note, rfl⟩ | ⟨i, rfl⟩ | ⟨i, res, rfl⟩
    · obtain ⟨rfl, hpos⟩ := hindex i rfl
      have hdrain : w'.drain 0 = (w.drain 0).note note := by
        cases ch <;> simp only [perform, Option.some.injEq, Prod.mk.injEq, reduceCtorEq] at hw
        rw [← hw.2, drain_setDrain_self hpos]
      rw [hdrain]
      exact carries_note hv hallow hrun
    · obtain ⟨rfl, hpos⟩ := hindex i rfl
      obtain ⟨hended, hrest, -⟩ := hallow
      have hanswer : (w.drain 0).queue.head? = a ∧
          w'.drain 0 = { w.drain 0 with queue := (w.drain 0).queue.tail } := by
        cases ch <;> simp only [perform, Option.some.injEq, Prod.mk.injEq, reduceCtorEq] at hw
        exact ⟨hw.1, by rw [← hw.2, drain_setDrain_self hpos]⟩
      rw [hanswer.2]
      exact .shift hv hrest hended hanswer.1
    · obtain ⟨rfl, hpos⟩ := hindex i rfl
      obtain ⟨hended, hleft⟩ := hallow
      have hdrain : w'.drain 0 = (w.drain 0).settleWorker res := by
        cases ch <;> simp only [perform, Option.some.injEq, Prod.mk.injEq, reduceCtorEq] at hw
        rw [← hw.2, drain_setDrain_self hpos]
      rw [hdrain]
      exact .settle hv hstopped hleft fun hempty => h.vacant t x hv hended hempty
  · -- the variables of the drain and the group stay as they are
    simp only [not_or] at hplain
    obtain ⟨hnote, hshift, hdone⟩ := hplain
    have hround : ∀ deps l run i gs, o ≠ .startRound deps l run i gs := by
      rintro deps l run i gs rfl
      exact hallow.elim
    have hdrain : w'.drain 0 = w.drain 0 := by
      rcases perform_drain hw 0 with heq | ⟨i, note, rfl, -, -⟩ |
        ⟨deps, l, run, i, groups, rfl, -, -⟩ | ⟨i, rfl, -, -⟩ | ⟨i, res, rfl, -, -⟩
      · exact heq
      · exact absurd ⟨i, note, rfl⟩ hnote
      · exact absurd rfl (hround _ _ _ _ _)
      · exact absurd ⟨i, rfl⟩ hshift
      · exact absurd ⟨i, res, rfl⟩ hdone
    have hsettles : o.settles = false := by
      cases o with
      | workerDone i res => exact absurd ⟨i, res, rfl⟩ hdone
      | _ => rfl
    obtain ⟨hkey, hrest, hempty⟩ := x.learn_plain (a := a) hallow
      (fun i note heq => hnote ⟨i, note, heq⟩) fun i heq => hshift ⟨i, heq⟩
    have hended : (x.learn d o a).ended = x.ended := by rw [x.learn_ended, hsettles, Bool.or_false]
    rw [hdrain]
    refine .on hv hround rfl le_rfl (fun _ hk => hk) rfl hended hempty ?_
    intro hlive hne
    rw [← hkey]
    exact .inHand (hand_self hv) (hended.trans hlive) (by rw [hrest]; exact hne)

theorem Manned.hand (h : Manned d vs w) (hv : vs[t]? = some (.hand x)) (hallow : x.allow d o)
    (hw : perform o ch w = some (a, w')) (hrun : Unstopped (.act t o ch a))
    (hstopped : x.stopped = false)
    (hindex : ∀ i, o.drainIndex = some i → i = 0 ∧ 0 < w.drains.length) :
    Manned d ((rounds d).step vs (.act t o ch a)) w' := by
  have hcarries := carries h hv hallow hw hrun hstopped hindex
  have hlength : w.drains.length ≤ w'.drains.length := by
    rw [length_drains (t := t) hw]
    exact Nat.le_add_right _ _
  have hmains : ∀ (u : Nat) m', ((rounds d).step vs (.act t o ch a))[u]? = some (.drainer m') →
      vs[u]? = some (.drainer m') := by
    intro u m' hm'
    rcases drainer_after (v := .hand x) hv hallow hm' with ⟨m₀, -, hm₀, -⟩ | ⟨-, hold⟩
    · cases hm₀
    · exact hold
  refine ⟨?_, ?_, hcarries.vacant h.vacant, ?_, ?_, ?_, ?_, ?_⟩
  · intro u m' rows hm' hj hrejected hrows r hr
    exact (h.attended u m' rows (hmains u m' hm') hj (hcarries.rejected hrejected) hrows r hr).imp_right
      (hcarries.attended hrejected _)
  · intro u m' hm' hj hrejected
    exact hcarries.staffed hrejected (h.staffed u m' (hmains u m' hm') hj (hcarries.rejected hrejected))
  · intro u m' rows hm' hzero hrows r hr
    exact (h.spent u m' rows (hmains u m' hm') hzero hrows r hr).imp_right (hcarries.blocked _)
  · intro u m' hm' key hkey
    exact hcarries.blocked key (h.seen u m' (hmains u m' hm') key hkey)
  · intro u m' hm' hb
    exact Nat.lt_of_lt_of_le (h.begun u m' (hmains u m' hm') hb) hlength
  · intro u u' m₁ m₂ hm₁ hm₂
    exact h.single u u' m₁ m₂ (hmains u m₁ hm₁) (hmains u' m₂ hm₂)
  · intro u m' hm'
    exact h.joining u m' (hmains u m' hm')

end Steps

/-! ## Runs of one drain -/

/-- The thread that begins a drain. -/
def beginner : Label (system ι) → Option Nat
  | .act t .newDrain _ _ => some t
  | _ => none

/-- The thread has begun a drain. -/
def Begun (t : Nat) (tr : List (Label (system ι))) : Prop := ∃ l ∈ tr, beginner l = some t

instance (t : Nat) (tr : List (Label (system ι))) : Decidable (Begun t tr) := by
  unfold Begun
  infer_instance

section Runs

variable {d : Deployment ι} {lease : Lease} {run : Nat} {w : World ι} {tr : List (Label (system ι))}
  {c : Config (system ι)}

theorem DrainerView.learn_begun {m : DrainerView ι} (hm : m.begun = true) (o : Op ι) (a : Ans o) :
    (m.learn o a).begun = true := by
  cases o with
  | store so => cases so <;> first | exact hm | (cases a <;> exact hm)
  | joinRound i => cases a <;> exact hm
  | newDrain => rfl
  | _ => exact hm

/-- In every run of one drain that nothing stops, its round is manned. -/
theorem manned (hrec : w.store.Filed) (hconcurrency : 1 ≤ d.poller.delivery.concurrency)
    (hw : w.drains = []) (h : Run (system ι) (d.drains lease run) w tr c) (hone : drainsStarted tr ≤ 1)
    (hrun : Throughout (fun _ l => Unstopped l) tr) :
    Manned d ((rounds d).views tr) c.world := by
  have hsteps : Throughout (fun pre l => drainsStarted (pre ++ [l]) ≤ 1 ∧
      Throughout (fun _ l => Unstopped l) (pre ++ [l])) tr := by
    rintro pre l post rfl
    rw [List.append_cons] at hone hrun
    refine ⟨?_, hrun.take⟩
    rw [drainsStarted, List.countP_append] at hone
    exact Nat.le_trans (Nat.le_add_right _ _) hone
  refine Run.roles (roundsObeyed d lease run) (J := fun _ vs w => Manned d vs w) ?_ ?_ ?_ ?_ h hsteps
  · -- nobody is there yet
    refine ⟨?_, ?_, ?_, ?_, ?_, ?_, ?_, ?_⟩ <;> intro t <;> simp
  · -- a thread starts: it has begun nothing, and the others are where they were
    intro tr c q _ _ hJ
    have hhands : ∀ (u : Nat) x, ((rounds d).step ((rounds d).views tr) (.start q))[u]? =
        some (.hand x) → ((rounds d).views tr)[u]? = some (.hand x) := by
      intro u x hx
      rcases step_start_cases hx with hold | ⟨-, heq⟩
      · exact hold
      · cases heq
    have hmains : ∀ (u : Nat) m, ((rounds d).step ((rounds d).views tr) (.start q))[u]? =
        some (.drainer m) → ((rounds d).views tr)[u]? = some (.drainer m) ∨ m = {} := by
      intro u m hm
      exact (step_start_cases hm).imp_right fun hnew => CrewView.drainer.inj hnew.2
    have hattended : ∀ key, Attended ((rounds d).views tr) (c.world.drain 0) key →
        Attended ((rounds d).step ((rounds d).views tr) (.start q)) (c.world.drain 0) key := by
      intro key hkey
      exact hkey.still fun u x hx => step_start_old hx
    refine ⟨?_, ?_, fun u x hx => hJ.vacant u x (hhands u x hx), ?_, ?_, ?_, ?_, ?_⟩
    · intro u m rows hm hj hrejected hrows r hr
      rcases hmains u m hm with hold | rfl
      · exact (hJ.attended u m rows hold hj hrejected hrows r hr).imp_right (hattended _)
      · cases hj
    · intro u m hm hj hrejected
      rcases hmains u m hm with hold | rfl
      · exact (hJ.staffed u m hold hj hrejected).still fun u x hx => step_start_old hx
      · cases hj
    · intro u m rows hm hzero hrows r hr
      rcases hmains u m hm with hold | rfl
      · exact hJ.spent u m rows hold hzero hrows r hr
      · cases hzero
    · intro u m hm key hkey
      rcases hmains u m hm with hold | rfl
      · exact hJ.seen u m hold key hkey
      · cases hkey
    · intro u m hm hb
      rcases hmains u m hm with hold | rfl
      · exact hJ.begun u m hold hb
      · cases hb
    · refine hJ.single_of ?_
      intro u m hm hb
      rcases hmains u m hm with hold | rfl
      · exact ⟨m, hold, hb⟩
      · cases hb
    · intro u m hm hj
      rcases hmains u m hm with hold | rfl
      · exact hJ.joining u m hold hj
      · cases hj
  · -- a call: the crew counts as many live workers as these roles do
    intro tr c t o k ch a w' v hr hJ ht hv hallow hw' hlabel
    obtain ⟨hone, hrun⟩ := hlabel
    have hone' : drainsStarted tr ≤ 1 := by
      rw [drainsStarted, List.countP_append] at hone
      exact Nat.le_trans (Nat.le_add_right _ _) hone
    obtain ⟨hcrew, hlength⟩ := crew_run (d := d) hw hr hone'
    obtain ⟨vd, hvd, hallowd⟩ :=
      (hr.mono fun _ hp => hp.entry).mayCall (drainRolesObeyed d lease run) ht
    have hindex : ∀ i, o.drainIndex = some i → i = 0 ∧ 0 < c.world.drains.length :=
      fun i hi => hcrew.index hvd hallowd hi
    have hcount : (c.world.drain 0).running = ((rounds d).views tr).countP CrewView.live :=
      hcrew.count.trans (live_alike d lease tr).symm
    have hl : Unstopped (.act t o ch a) := (throughout_snoc.1 hrun).2
    cases v with
    | hand x =>
      have htended := tended hrec hw hr (throughout_snoc.1 hrun).1
      exact hJ.hand hv hallow hw' hl (htended.hands t x hv).stopped hindex
    | drainer m =>
      by_cases hround : ∃ deps l run i gs, o = .startRound deps l run i gs
      · obtain ⟨deps, l, run', i, gs, rfl⟩ := hround
        obtain ⟨rfl, hpos⟩ := hindex i rfl
        refine hJ.round hconcurrency hv hallow hw' hpos ?_
        rw [live_alike d lease tr]
        cases vd with
        | main md =>
          obtain ⟨-, -, hdrain, hjoining, -⟩ := hallowd
          exact hcrew.resting t md hvd (by rw [hdrain]; rfl) hjoining
        | worker x => exact hallowd.elim
        | keeper l => exact hallowd.elim
      · by_cases hjoin : ∃ i, o = .joinRound i
        · obtain ⟨i, rfl⟩ := hjoin
          obtain ⟨rfl, -⟩ := hindex i rfl
          exact hJ.join hv hallow hw' hcount
        · have hlength' : w'.drains.length = drainsStarted (tr ++ [.act t o ch a]) := by
            rw [drainsStarted_append, ← hlength]
            exact length_drains hw'
          exact hJ.plain hv hallow hw' (fun deps l run i gs heq => hround ⟨deps, l, run, i, gs, heq⟩)
            (fun i heq => hjoin ⟨i, heq⟩) (fun i hi => (hindex i hi).1) (hlength' ▸ hone)
  · intro tr c x _ hJ
    exact ⟨hJ.attended, hJ.staffed, hJ.vacant, hJ.spent, hJ.seen, hJ.begun, hJ.single, hJ.joining⟩

/-- A thread that has begun a drain knows it. -/
theorem begun_view (h : Run (system ι) (d.drains lease run) w tr c) {t : Nat} (hb : Begun t tr) :
    ∃ m, ((rounds d).views tr)[t]? = some (.drainer m) ∧ m.begun = true := by
  refine Run.roles (roundsObeyed d lease run)
    (J := fun tr vs _ => ∀ t, Begun t tr → ∃ m, vs[t]? = some (.drainer m) ∧ m.begun = true)
    (p := fun _ _ => True) ?_ ?_ ?_ ?_ h (fun _ _ _ _ => trivial) t hb
  · rintro t ⟨l, hmem, -⟩
    cases hmem
  · rintro tr c q - - hJ t ⟨l, hmem, hl⟩
    rcases List.mem_append.1 hmem with hmem | hmem
    · obtain ⟨m, hm, hbegun⟩ := hJ t ⟨l, hmem, hl⟩
      exact ⟨m, step_start_old hm, hbegun⟩
    · rw [List.mem_singleton.1 hmem] at hl
      cases hl
  · rintro tr c t o k ch a w' v - hJ - hv hallow - - u ⟨l, hmem, hl⟩
    have hself : ∀ m, v = .drainer m → (m.learn o a).begun = true →
        ∃ m', ((rounds d).step ((rounds d).views tr) (.act t o ch a))[t]? = some (.drainer m') ∧
          m'.begun = true := by
      rintro m rfl hbegun
      exact ⟨_, step_act_self (R := rounds d) (v := .drainer m) hv, hbegun⟩
    rcases List.mem_append.1 hmem with hmem | hmem
    · obtain ⟨m, hm, hbegun⟩ := hJ u ⟨l, hmem, hl⟩
      by_cases hut : u = t
      · subst hut
        exact hself m (Option.some.inj (hv.symm.trans hm)) (DrainerView.learn_begun hbegun o a)
      · exact ⟨m, step_act_other hut hm, hbegun⟩
    · obtain rfl := List.mem_singleton.1 hmem
      cases o with
      | newDrain =>
        obtain rfl : t = u := Option.some.inj hl
        cases v with
        | drainer m => exact hself m rfl rfl
        | hand x => exact hallow.elim
      | _ => cases hl
  · rintro tr c x - hJ t ⟨l, hmem, hl⟩
    rcases List.mem_append.1 hmem with hmem | hmem
    · exact hJ t ⟨l, hmem, hl⟩
    · rw [List.mem_singleton.1 hmem] at hl
      cases hl

end Runs

/-! ## The end of a drain -/

/-- A parked event that is not later holds the ordering key of the row. -/
def HeldBefore (poller : ResolvedPoller ι) (rec : KeyRecord ι) (row : OutboxRow ι) : Prop :=
  ∃ q ∈ rec.parked.values, q.holdKey = some (orderingKey poller row.event) ∧
    ∀ e ∈ q.event, e.sequence ≤ row.sequence

/-- The row was attempted, or an earlier one blocks its key: it is parked and holds the key, or it is
one of `rec₀` that failed, is not due, or was parked with the key held. -/
def Spared (poller : ResolvedPoller ι) (rec₀ : KeyRecord ι) (tr : List (Label (system ι)))
    (rec : KeyRecord ι) (row : OutboxRow ι) : Prop :=
  Attempted tr row ∨ HeldBefore poller rec row ∨
    ∃ r ∈ rec₀.outbox.values, orderingKey poller r.event = orderingKey poller row.event ∧
      r.sequence ≤ row.sequence ∧ Blocker poller tr rec r

/-- The thread that counts what remains. -/
def exits : Label (system ι) → Option Nat
  | .act t (.store .countPending) _ _ => some t
  | _ => none

/-- Where a drain counts what remains, its last load has reached every key that is not held, and a held
key is held by an earlier event than those that are pending. -/
def Reaching (poller : ResolvedPoller ι) (w : World ι) (pre : List (Label (system ι)))
    (l : Label (system ι)) : Prop :=
  ∀ t ∈ exits l, Begun t pre → ∀ p ∈ (World.store ((system ι).after w pre)).outbox.values,
    HeldBefore poller (World.store ((system ι).after w pre)) p ∨
      (orderingKey poller p.event ∉ lastHeld t pre ∧
        ∃ r ∈ lastLoad t pre, orderingKey poller r.event = orderingKey poller p.event)

instance (poller : ResolvedPoller ι) (rec : KeyRecord ι) (row : OutboxRow ι) :
    Decidable (HeldBefore poller rec row) := by
  unfold HeldBefore
  infer_instance

instance (poller : ResolvedPoller ι) (w : World ι) (pre : List (Label (system ι)))
    (l : Label (system ι)) : Decidable (Reaching poller w pre l) := by
  unfold Reaching
  infer_instance

instance (l : Label (system ι)) : Decidable (Unstopped l) := by
  unfold Unstopped
  rcases l with _ | ⟨t, o, ch, a⟩ | _
  case act =>
    rcases o
    case noteDrain i note => rcases note <;> infer_instance
    all_goals infer_instance
  all_goals infer_instance

section Ends

variable {d : Deployment ι} {lease : Lease} {run : Nat} {w : World ι} {tr : List (Label (system ι))}
  {c : Config (system ι)}

/-- Where a drain that nothing stopped leaves its loop, the key of each loaded row is held or barred. -/
theorem left_barred {vs : List (CrewView ι)} {rec₀ : KeyRecord ι} (hmanned : Manned d vs w)
    (htended : Tended d rec₀ tr vs w) {t : Nat} {m : DrainerView ι} (hm : vs[t]? = some (.drainer m))
    (hleft : m.Left d) {r : OutboxRow ι} (hr : r ∈ lastLoad t tr)
    (hheld : orderingKey d.poller r.event ∉ lastHeld t tr) :
    Barred d.poller rec₀ tr w.store (orderingKey d.poller r.event) := by
  have hsees := htended.drainers t m hm
  have hfree : orderingKey d.poller r.event ∉ m.held := fun hmem => hheld (hsees.held _ hmem)
  rcases hleft with hstopped | ⟨rows, hrows, hwhy⟩
  · rw [hsees.stopped] at hstopped
    cases hstopped
  · rw [hsees.load rows hrows] at hr
    rcases hwhy with rfl | hnone | hzero
    · cases hr
    · -- nothing loaded is open
      by_cases hblocked : orderingKey d.poller r.event ∈ m.blocked
      · exact hsees.barred _ hblocked
      · obtain ⟨g, hg, -⟩ := open_group hr hfree hblocked
        rw [hnone] at hg
        cases hg
    · -- a round without progress
      rcases hmanned.spent t m rows hm hzero hrows r hr with hmem | hblocked
      · exact absurd hmem hfree
      · exact htended.barred 0 _ hblocked

/-- From every store whose rows lie under the ids of their events, in every run of one drain that
neither an abort nor a halt stops, with a concurrency of at least one: when the drain returns with its
last load reaching every key that is not held, every row that was pending at its start was attempted, or
an earlier row of its key blocks it. -/
theorem drain_starves_no_key (hrec : w.store.Filed) (hconcurrency : 1 ≤ d.poller.delivery.concurrency)
    (hw : w.drains = []) (h : Run (system ι) (d.drains lease run) w tr c) (hone : drainsStarted tr ≤ 1)
    (hrun : Throughout (fun _ l => Unstopped l) tr)
    (hreaching : Throughout (Reaching d.poller w) tr) :
    ∀ pre t ch a post, tr = pre ++ .act t (.store .countPending) ch a :: post → Begun t pre →
      ∀ row ∈ w.store.outbox.values,
        Spared d.poller w.store pre (World.store ((system ι).after w pre)) row := by
  rintro pre t ch a post rfl hbegun row hrow
  obtain ⟨c₁, k, w', hpre, ht, -⟩ := h.act_at
  have hone' : drainsStarted pre ≤ 1 := by
    rw [drainsStarted, List.countP_append] at hone
    exact Nat.le_trans (Nat.le_add_right _ _) hone
  have htended := tended hrec hw hpre hrun.take
  have hmanned := manned hrec hconcurrency hw hpre hone' hrun.take
  obtain ⟨m, hm, hmbegun⟩ := begun_view hpre hbegun
  obtain ⟨v, hv, hallow⟩ := hpre.mayCall (roundsObeyed d lease run) ht
  obtain rfl := Option.some.inj (hm.symm.trans hv)
  have hleft : m.Left d := hallow hmbegun
  rw [← hpre.world_eq]
  obtain ⟨id, hget⟩ := (OrderedMap.mem_values_iff _ _).1 hrow
  rcases htended.kept id row hget with hstill | hattempted
  · -- the row is pending: its key is held, or the last load has reached it
    have hreach := hreaching pre _ post rfl t rfl hbegun row
    rw [← hpre.world_eq] at hreach
    rcases hreach ((OrderedMap.mem_values_iff _ _).2 ⟨id, hstill⟩) with hheld | ⟨hfree, r, hr, hkey⟩
    · exact Or.inr (Or.inl hheld)
    · rw [← hkey] at hfree
      obtain ⟨id', r₀, hr₀, hkey₀, hblocker, hfirst⟩ := left_barred hmanned htended hm hleft hr hfree
      refine Or.inr (Or.inr ⟨r₀, (OrderedMap.mem_values_iff _ _).2 ⟨id', hr₀⟩, hkey₀.trans hkey, ?_,
        hblocker⟩)
      exact hfirst id row hstill hkey.symm
  · exact Or.inl hattempted

end Ends

/-! ## A full window -/

/-- A delivery is tried twice before its event is parked. -/
def twicePoller : ResolvedPoller Sample :=
  { samplePoller with delivery := { samplePoller.delivery with retryAttempts := 2 } }

/-- An event of the item `a` and a later one of the item `b` are pending. -/
def twoKeys : KeyRecord Sample :=
  { KeyRecord.fresh (sampleOf twicePoller).key with
    lease := some drainLease
    epochCounter := 1
    outbox :=
      (OrderedMap.empty.set "1" (retriedRow { sampleEvent "1" 1 with subject := "a" } 0)).set "2"
        (retriedRow { sampleEvent "2" 2 with subject := "b" } 0) }

def twoKeysWorld : World Sample := { store := twoKeys }

/-- A drain that loads `size` rows at a time; the consumer rejects the event of `a`. -/
def drainBy (size : Nat) : List (Directive (system Sample)) :=
  let deps := { instanceOf (sampleOf twicePoller) true with dispatchBatchSize := size }
  [ .start (drainOutbox deps drainLease 0).forget,
    .run 0 7 (rejectsA []),
    .run 1 40 (rejectsA []),
    .run 0 40 (rejectsA []) ]

theorem drainBy_entry (size : Nat) : ∀ p, .start p ∈ drainBy size →
    (sampleOf twicePoller).drains drainLease 0 p := by
  intro p hp
  simp only [drainBy, List.mem_cons, Directive.start.injEq, reduceCtorEq, List.not_mem_nil,
    or_false] at hp
  exact ⟨{ instanceOf (sampleOf twicePoller) true with dispatchBatchSize := size }, ⟨rfl, rfl, rfl⟩, hp⟩

theorem twoKeys_filed : twoKeys.Filed := by
  constructor
  · intro id row hget
    simp only [twoKeys, OrderedMap.get_set, OrderedMap.get_empty] at hget
    split at hget
    · rename_i hid
      obtain rfl := Option.some.inj hget
      exact ⟨hid.symm, rfl, rfl⟩
    · split at hget
      · rename_i hid
        obtain rfl := Option.some.inj hget
        exact ⟨hid.symm, rfl, rfl⟩
      · cases hget
  · intro id q hget
    cases hget

/-- The id of the event a step hands to the consumer. -/
def attemptedId : Label (system ι) → Option String
  | .act _ (.deliver e) _ _ => some e.id
  | _ => none

/-- The id of the event whose next attempt a step schedules. -/
def scheduledId : Label (system ι) → Option String
  | .act _ (.store (.recordAttempt _ id _ _)) _ _ => some id
  | _ => none

/-- A row that is first of its key and due, and that no step is about. -/
theorem not_spared {poller : ResolvedPoller ι} {rec₀ rec : KeyRecord ι} {tr : List (Label (system ι))}
    {row : OutboxRow ι} (hattempted : ∀ l ∈ tr, attemptedId l ≠ some row.event.id)
    (hscheduled : ∀ l ∈ tr, scheduledId l ≠ some row.eventId)
    (hheld : ¬HeldBefore poller rec row) (hparked : rec.parked.get row.eventId = none)
    (hfirst : ∀ r ∈ rec₀.outbox.values, orderingKey poller r.event = orderingKey poller row.event →
      r.eventId = row.eventId ∧ r.nextAttemptAt = none) : ¬Spared poller rec₀ tr rec row := by
  rintro (⟨t, ch, a, hmem⟩ | hbefore | ⟨r, hr, hkey, -, hblocker⟩)
  · exact hattempted _ hmem rfl
  · exact hheld hbefore
  · obtain ⟨hid, hdue⟩ := hfirst r hr hkey
    rcases hblocker with ⟨t, l, error, next, ch, a, hmem, -⟩ | ⟨at_, now, hnext, -⟩ | ⟨-, q, hq, -⟩
    · exact hscheduled _ hmem (congrArg some hid)
    · rw [hdue] at hnext
      cases hnext
    · rw [hid, hparked] at hq
      cases hq

/-- The thread that is told what remains. -/
def countedBy : Label (system ι) → Option Nat
  | .act t (.store .countPending) _ a =>
    match a with
    | .ok _ => some t
    | .error _ => none
  | _ => none

theorem countedBy_eq {l : Label (system ι)} {t : Nat} (h : countedBy l = some t) :
    ∃ ch n, l = .act t (.store .countPending) ch (.ok n) := by
  cases l with
  | act t' o ch a =>
    cases o with
    | store so =>
      cases so with
      | countPending =>
        cases a with
        | ok n =>
          obtain rfl := Option.some.inj h
          exact ⟨ch, n, rfl⟩
        | error e => cases h
      | _ => cases h
    | _ => cases h
  | _ => cases h

set_option maxRecDepth 100000 in
/-- The drain loads the event of `a` alone. It fails, the round makes no progress, and the drain
returns: the event of `b` was pending, and nothing blocks its key. -/
theorem full_window_starves : ∃ tr c,
    Run (system Sample) ((sampleOf twicePoller).drains drainLease 0) twoKeysWorld tr c ∧
    twoKeys.Filed ∧ drainsStarted tr = 1 ∧ Throughout (fun _ l => Unstopped l) tr ∧
    ∃ pre t ch n post, tr = pre ++ .act t (.store .countPending) ch (.ok n) :: post ∧ Begun t pre ∧
      ∃ row ∈ twoKeys.outbox.values,
        ¬Spared twicePoller twoKeys pre (World.store ((system Sample).after twoKeysWorld pre)) row := by
  obtain ⟨tr, c, hrun, hcheck⟩ := exec_run (w := twoKeysWorld) (drainBy_entry 1)
    (fun tr _ => decide (drainsStarted tr = 1 ∧ Throughout (fun _ l => Unstopped l) tr ∧
      (∃ l ∈ tr[24]?, countedBy l = some 0) ∧ Begun 0 (tr.take 24) ∧
      (∀ l ∈ tr.take 24, attemptedId l ≠ some "2" ∧ scheduledId l ≠ some "2") ∧
      ∃ row ∈ twoKeys.outbox.values, row.event.id = "2" ∧ row.eventId = "2" ∧
        ¬HeldBefore twicePoller
          (World.store ((system Sample).after twoKeysWorld (tr.take 24))) row ∧
        ((World.store ((system Sample).after twoKeysWorld (tr.take 24))).parked.get "2").isNone = true ∧
        ∀ r ∈ twoKeys.outbox.values,
          orderingKey twicePoller r.event = orderingKey twicePoller row.event →
            r.eventId = row.eventId ∧ r.nextAttemptAt = none)) (by decide +kernel)
  obtain ⟨hone, hunstopped, ⟨l, hl, hcounted⟩, hbegun, hidle, row, hrow, hid, hid', hheld, hparked,
    hfirst⟩ := of_decide_eq_true hcheck
  obtain ⟨ch, n, rfl⟩ := countedBy_eq hcounted
  obtain ⟨hlt, hat⟩ := List.getElem?_eq_some_iff.1 hl
  refine ⟨tr, c, hrun, twoKeys_filed, hone, hunstopped, tr.take 24, 0, ch, n, tr.drop 25, ?_, hbegun,
    row, hrow, not_spared ?_ ?_ hheld ?_ hfirst⟩
  · rw [← hat, List.getElem_cons_drop, List.take_append_drop]
  · rw [hid]
    exact fun l hl => (hidle l hl).1
  · rw [hid']
    exact fun l hl => (hidle l hl).2
  · rw [hid']
    exact Option.isNone_iff_eq_none.1 hparked

set_option maxRecDepth 100000 in
/-- With both events in one window, the one of `b` is delivered, and that of `a` blocks its key. -/
theorem drain_starves_no_key_sample : ∃ tr c,
    Run (system Sample) ((sampleOf twicePoller).drains drainLease 0) twoKeysWorld tr c ∧
    (∃ l ∈ tr, countedBy l = some 0) ∧
    ∀ pre t ch a post, tr = pre ++ .act t (.store .countPending) ch a :: post → Begun t pre →
      ∀ row ∈ twoKeysWorld.store.outbox.values,
        Spared twicePoller twoKeysWorld.store pre
          (World.store ((system Sample).after twoKeysWorld pre)) row := by
  obtain ⟨tr, c, hrun, hcheck⟩ := exec_run (w := twoKeysWorld) (drainBy_entry 10)
    (fun tr _ => decide ((∃ l ∈ tr, countedBy l = some 0) ∧ drainsStarted tr ≤ 1 ∧
      Throughout (fun _ l => Unstopped l) tr ∧
      Throughout (Reaching twicePoller twoKeysWorld) tr)) (by decide +kernel)
  obtain ⟨hcounted, hone, hunstopped, hreaching⟩ := of_decide_eq_true hcheck
  exact ⟨tr, c, hrun, hcounted,
    drain_starves_no_key twoKeys_filed le_rfl rfl hrun hone hunstopped hreaching⟩

end Watukuy
