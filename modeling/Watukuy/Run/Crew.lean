import Watukuy.Run.Conservation

/-!
# One drain and its workers

Threads drain the outbox under a lease while operators retry and discard parked events. While no
second drain begins (`Crew`), the workers that have not settled are those of the current round, and
the main thread loads rows only when there are none. The groups of a round have different keys, and
they keep to different workers (`Apart`).
-/

set_option autoImplicit false

namespace Watukuy

open Library Task

variable {ι : Type}

/-! ## Programs -/

/-- What is started on the key: drains under the lease, and operators who retry or discard. -/
def Deployment.drainEntry (d : Deployment ι) (lease : Lease) (run : Nat) (p : Prog (Op ι) Ans Unit) :
    Prop :=
  ∃ deps : RunnerDeps ι, deps.In d ∧ (p = (drainOutbox deps lease run).forget ∨
    ∃ ids, p = (EngineCall.parkedRetry ids).prog deps ∨ p = (EngineCall.parkedDiscard ids).prog deps)

/-- The calls of drains and of operators who retry or discard. -/
def DrainOrOperator : Op ι → Prop
  | .store (.retryParked _) => True
  | .store (.discardParked _) => True
  | o => DrainCall o

theorem DrainCall.orOperator {o : Op ι} (h : DrainCall o) : DrainOrOperator o := by
  cases o with
  | store o => cases o <;> first | exact h | trivial
  | _ => exact h

/-- In every run, only those calls are made. -/
theorem drainCallsObeyed (d : Deployment ι) (lease : Lease) (run : Nat) :
    Obeys (system ι) (d.drainEntry lease run) (only DrainOrOperator) () where
  entry_keeps p hp := by
    have hdrain : ∀ deps : RunnerDeps ι, (drainOutbox deps lease run).Uses DrainOrOperator :=
      fun deps => Uses.mono (fun _ => DrainCall.orOperator) (drainOutbox_uses deps lease run)
    obtain ⟨deps, -, rfl | ⟨ids, rfl | rfl⟩⟩ := hp
    · exact (hdrain deps).forget
    · exact Uses.forget (uses_request (o := Op.store (.retryParked ids)) trivial _)
    · exact Uses.forget (uses_request (o := Op.store (.discardParked ids)) trivial _)
  forks_keep o a p hp := Prog.Uses.mono (fun _ => DrainCall.orOperator) (forks_uses o a p hp)

/-- The roles of the threads: those that are started have the lease. -/
@[reducible] def drainRoles (d : Deployment ι) (lease : Lease) : Roles (system ι) where
  contract := (deliveries d).contract
  origin := .main { lease := some lease }
  seed := forkView

theorem drainRolesObeyed (d : Deployment ι) (lease : Lease) (run : Nat) :
    (drainRoles d lease).Obeyed (d.drainEntry lease run) where
  entry_keeps p hp := by
    have hheld : Holding lease (.main { lease := some lease } : ThreadView ι) := ⟨_, rfl, rfl, rfl⟩
    obtain ⟨deps, hdeps, rfl | ⟨ids, rfl | rfl⟩⟩ := hp
    · have hdrain : (drainOutbox deps lease run).Stays (deliveries d).contract (Holding lease) :=
        drainOutbox_role hdeps
      exact (wp_forget _).2 (wp_mono (fun _ _ _ => trivial) (fun _ _ _ => trivial) (hdrain _ hheld))
    · refine (wp_forget _).2 ((wp_store _ _ _).2 ⟨trivial, ?_, ?_⟩)
      · exact fun _ => trivial
      · exact fun _ => trivial
    · refine (wp_forget _).2 ((wp_store _ _ _).2 ⟨trivial, ?_, ?_⟩)
      · exact fun _ => trivial
      · exact fun _ => trivial
  forks_keep v o a hallow p hp := (rolesObeyed d fun _ => True).forks_keep v o a hallow p hp

/-! ## The threads of one drain -/

section Drains

variable {w : World ι} {i : Nat} {f : DrainMem ι → DrainMem ι}

theorem length_setDrain (w : World ι) (i : Nat) (f : DrainMem ι → DrainMem ι) :
    (w.setDrain i f).drains.length = w.drains.length := by
  simp [World.setDrain]

theorem drain_setDrain_self (h : i < w.drains.length) : (w.setDrain i f).drain i = f (w.drain i) := by
  simp [World.setDrain, World.drain, List.getD_eq_getElem?_getD, h]

end Drains

/-- A worker whose promise is not settled. -/
def ThreadView.live : ThreadView ι → Bool
  | .worker x => !x.ended
  | _ => false

/-- The threads of at most one drain. -/
structure Crew (vs : List (ThreadView ι)) (w : World ι) : Prop where
  few : w.drains.length ≤ 1
  mains : ∀ (t : Nat) m i, vs[t]? = some (.main m) → m.drain = some i → i < w.drains.length
  one : ∀ (t u : Nat) m m', vs[t]? = some (.main m) → vs[u]? = some (.main m') → m.drain.isSome →
    m'.drain.isSome → t = u
  workers : ∀ (t : Nat) x, vs[t]? = some (.worker x) → x.drain < w.drains.length
  count : (w.drain 0).running = vs.countP ThreadView.live
  /-- Between two rounds of the drain no worker is left. -/
  resting : ∀ (t : Nat) m, vs[t]? = some (.main m) → m.drain.isSome → m.joining = false →
    vs.countP ThreadView.live = 0
  loaded : ∀ (t : Nat) m, vs[t]? = some (.main m) → m.rows.isSome → m.joining = false

/-- What a step of a thread may make of its view, when it neither begins a drain nor a round. Here
`n` is the number of workers that have not settled. -/
inductive Proceeds (n : Nat) : ThreadView ι → ThreadView ι → Prop
  | main (m m' : MainView ι)
      (drain : m'.drain = none ∨ (m'.drain = m.drain ∧ (m'.joining = m.joining ∨ n = 0)))
      (loaded : m'.rows.isSome → m'.joining = false) : Proceeds n (.main m) (.main m')
  | worker (x x' : WorkerView ι) (drain : x'.drain = x.drain)
      (ended : x.ended = true → x'.ended = true) : Proceeds n (.worker x) (.worker x')
  | keeper (l : Lease) : Proceeds n (.keeper l) (.keeper l)

section Crew

variable {d : Deployment ι} {vs : List (ThreadView ι)} {w w' : World ι} {t : Nat} {o : Op ι}
  {ch : Choice ι} {a : Ans o} {v : ThreadView ι}

theorem all_ended (hcount : vs.countP ThreadView.live = 0) {u : Nat} {x : WorkerView ι}
    (hx : vs[u]? = some (.worker x)) : x.ended = true := by
  have hdead := List.countP_eq_zero.1 hcount _ (List.mem_of_getElem? hx)
  simpa [ThreadView.live] using hdead

theorem Proceeds.live {n : Nat} {v v' : ThreadView ι} (h : Proceeds n v v') (hlive : v'.live = true) :
    v.live = true := by
  cases h with
  | main => exact hlive
  | worker x x' _ hended =>
    simp only [ThreadView.live, Bool.not_eq_eq_eq_not, Bool.not_true] at hlive ⊢
    cases hx : x.ended with
    | false => rfl
    | true =>
      rw [hended hx] at hlive
      cases hlive
  | keeper => exact hlive

/-- How the number of unsettled workers changes with a step that forks none. -/
theorem countP_step (hv : vs[t]? = some v) (hfork : (forkView o a).live = false) :
    ((deliveries d).step vs (.act t o ch a)).countP ThreadView.live + (if v.live then 1 else 0) =
      vs.countP ThreadView.live + (if (v.learn d o a).live then 1 else 0) := by
  have hnone : (List.replicate ((system ι).forks o a).length (forkView o a)).countP ThreadView.live =
      0 := by
    rw [List.countP_eq_zero]
    intro x hx
    rw [List.eq_of_mem_replicate hx, hfork]
    simp
  simp only [Roles.step, List.countP_append]
  rw [hnone]
  exact countP_modify ThreadView.live (fun v => v.learn d o a) hv

/-- A step that neither begins a drain nor a round. -/
theorem Crew.proceed (h : Crew vs w) (hv : vs[t]? = some v)
    (hview : Proceeds (vs.countP ThreadView.live) v (v.learn d o a))
    (hfork : (forkView o a).live = false) (hmain : ∀ m, forkView o a = .main m → m = {})
    (hlength : w'.drains.length = w.drains.length)
    (hrunning : (w'.drain 0).running + (if v.live then 1 else 0) =
      (w.drain 0).running + (if (v.learn d o a).live then 1 else 0)) :
    Crew ((deliveries d).step vs (.act t o ch a)) w' := by
  have hcount : ((deliveries d).step vs (.act t o ch a)).countP ThreadView.live +
      (if v.live then 1 else 0) =
      vs.countP ThreadView.live + (if (v.learn d o a).live then 1 else 0) := countP_step hv hfork
  have hless : ((deliveries d).step vs (.act t o ch a)).countP ThreadView.live ≤
      vs.countP ThreadView.live := by
    by_cases hlive : (v.learn d o a).live = true
    · rw [if_pos hlive, if_pos (hview.live hlive)] at hcount
      omega
    · rw [if_neg hlive] at hcount
      omega
  -- a main thread after the step: as it was, or out of its drain
  have hmains : ∀ (u : Nat) m, ((deliveries d).step vs (.act t o ch a))[u]? = some (.main m) →
      (m.rows.isSome → m.joining = false) ∧ (m.drain = none ∨ ∃ m₀, vs[u]? = some (.main m₀) ∧
        m.drain = m₀.drain ∧ (m.joining = m₀.joining ∨ vs.countP ThreadView.live = 0)) := by
    intro u m hm
    rcases step_act_cases hm with ⟨v₀, rfl, hv₀, heq⟩ | ⟨-, hold⟩ | ⟨-, heq, -⟩
    · obtain rfl : v₀ = v := Option.some.inj (hv₀.symm.trans hv)
      rw [show v₀.learn d o a = .main m from heq.symm] at hview
      cases hview with
      | main m₀ _ hdrain hloaded =>
        exact ⟨hloaded, hdrain.imp_right fun hd => ⟨m₀, hv, hd⟩⟩
    · exact ⟨h.loaded u m hold, Or.inr ⟨m, hold, rfl, Or.inl rfl⟩⟩
    · rw [hmain m heq.symm]
      exact ⟨(fun hrows => nomatch hrows), Or.inl rfl⟩
  have hsome : ∀ (u : Nat) m, ((deliveries d).step vs (.act t o ch a))[u]? = some (.main m) →
      m.drain.isSome → ∃ m₀, vs[u]? = some (.main m₀) ∧ m.drain = m₀.drain ∧
        (m.joining = m₀.joining ∨ vs.countP ThreadView.live = 0) := by
    intro u m hm hdrain
    rcases (hmains u m hm).2 with hnone | hold
    · rw [hnone] at hdrain
      cases hdrain
    · exact hold
  refine ⟨?_, ?_, ?_, ?_, ?_, ?_, ?_⟩
  · rw [hlength]
    exact h.few
  · intro u m i hm hdrain
    obtain ⟨m₀, hm₀, heq, -⟩ := hsome u m hm (by rw [hdrain]; rfl)
    rw [hlength]
    exact h.mains u m₀ i hm₀ (heq ▸ hdrain)
  · intro u u' m m' hm hm' hdrain hdrain'
    obtain ⟨m₀, hm₀, heq, -⟩ := hsome u m hm hdrain
    obtain ⟨m₁, hm₁, heq', -⟩ := hsome u' m' hm' hdrain'
    exact h.one u u' m₀ m₁ hm₀ hm₁ (heq ▸ hdrain) (heq' ▸ hdrain')
  · intro u x hx
    rw [hlength]
    rcases step_act_cases hx with ⟨v₀, rfl, hv₀, heq⟩ | ⟨-, hold⟩ | ⟨-, heq, -⟩
    · obtain rfl : v₀ = v := Option.some.inj (hv₀.symm.trans hv)
      rw [show v₀.learn d o a = .worker x from heq.symm] at hview
      cases hview with
      | worker x₀ _ hdrain _ =>
        rw [hdrain]
        exact h.workers u x₀ hv
    · exact h.workers u x hold
    · cases o <;> simp only [deliveries, forkView, reduceCtorEq] at heq
      cases hfork
  · rw [h.count] at hrunning
    omega
  · intro u m hm hdrain hjoining
    obtain ⟨m₀, hm₀, heq, hsame | hzero⟩ := hsome u m hm hdrain
    · have hzero := h.resting u m₀ hm₀ (heq ▸ hdrain) (hsame ▸ hjoining)
      omega
    · omega
  · exact fun u m hm => (hmains u m hm).1

/-- A drain begins: it is the only one. -/
theorem Crew.newDrain (h : Crew vs w) {m : MainView ι} (hv : vs[t]? = some (.main m))
    (hallow : m.allow d .newDrain) {i : Nat}
    (hw : perform (.newDrain : Op ι) ch w = some (i, w')) (hfew : w'.drains.length ≤ 1) :
    Crew ((deliveries d).step vs (.act t .newDrain ch i)) w' := by
  obtain ⟨rfl, hw'⟩ : i = w.drains.length ∧ w' = { w with drains := w.drains ++ [{}] } := by
    cases ch <;> simp only [perform, Option.some.injEq, Prod.mk.injEq, reduceCtorEq] at hw
    exact ⟨hw.1.symm, hw.2.symm⟩
  have hempty : w.drains.length = 0 := by
    rw [hw', List.length_append, List.length_singleton] at hfew
    omega
  have hlength : w'.drains.length = 1 := by
    rw [hw', List.length_append, List.length_singleton, hempty]
  -- there were no workers, and no main thread had a drain
  have hnone : ∀ (u : Nat) m, vs[u]? = some (.main m) → m.drain = none := by
    intro u m hm
    cases hdrain : m.drain with
    | none => rfl
    | some i =>
      have hlt := h.mains u m i hm hdrain
      omega
  have hidle : vs.countP ThreadView.live = 0 := by
    rw [List.countP_eq_zero]
    intro v hmem
    obtain ⟨u, hu⟩ := List.mem_iff_getElem?.1 hmem
    cases v with
    | main m => simp [ThreadView.live]
    | keeper l => simp [ThreadView.live]
    | worker x =>
      have hlt := h.workers u x hu
      omega
  have hcount : ((deliveries d).step vs (.act t .newDrain ch w.drains.length)).countP
        ThreadView.live + (if (ThreadView.main m).live then 1 else 0) =
      vs.countP ThreadView.live +
        (if ((ThreadView.main m).learn d Op.newDrain w.drains.length).live then 1 else 0) :=
    countP_step hv rfl
  have hmains : ∀ (u : Nat) m', ((deliveries d).step vs (.act t .newDrain ch w.drains.length))[u]? =
      some (.main m') → (u = t ∧ m' = m.learn .newDrain w.drains.length) ∨
        (m'.drain = none ∧ vs[u]? = some (.main m')) := by
    intro u m' hm'
    rcases step_act_cases hm' with ⟨v₀, rfl, hv₀, heq⟩ | ⟨-, hold⟩ | ⟨-, -, hfork⟩
    · obtain rfl : v₀ = .main m := Option.some.inj (hv₀.symm.trans hv)
      exact Or.inl ⟨rfl, ThreadView.main.inj heq⟩
    · exact Or.inr ⟨hnone u m' hold, hold⟩
    · exact absurd rfl hfork
  refine ⟨hfew, ?_, ?_, ?_, ?_, ?_, ?_⟩
  · intro u m' j hm' hdrain
    rcases hmains u m' hm' with ⟨-, rfl⟩ | ⟨hdrop, -⟩
    · rw [hlength, ← Option.some.inj hdrain, hempty]
      exact Nat.one_pos
    · rw [hdrop] at hdrain
      cases hdrain
  · intro u u' m₀ m₁ hm₀ hm₁ hdrain hdrain'
    rcases hmains u m₀ hm₀ with ⟨rfl, -⟩ | ⟨hdrop, -⟩
    · rcases hmains u' m₁ hm₁ with ⟨rfl, -⟩ | ⟨hdrop, -⟩
      · rfl
      · rw [hdrop] at hdrain'
        cases hdrain'
    · rw [hdrop] at hdrain
      cases hdrain
  · intro u x hx
    rcases step_act_cases hx with ⟨v₀, rfl, hv₀, heq⟩ | ⟨-, hold⟩ | ⟨-, -, hfork⟩
    · obtain rfl : v₀ = .main m := Option.some.inj (hv₀.symm.trans hv)
      cases heq
    · have hlt := h.workers u x hold
      omega
    · exact absurd rfl hfork
  · rw [hw', drain_append, h.count]
    simpa [ThreadView.live, ThreadView.learn] using hcount.symm
  · intro u m' hm' hdrain hjoining
    have hsame : ((deliveries d).step vs (.act t .newDrain ch w.drains.length)).countP
        ThreadView.live = vs.countP ThreadView.live := by
      simpa [ThreadView.live, ThreadView.learn] using hcount
    rw [hsame, hidle]
  · intro u m' hm' hrows
    rcases hmains u m' hm' with ⟨-, rfl⟩ | ⟨-, hold⟩
    · exact hallow.2
    · exact h.loaded u m' hold hrows

/-- A round begins: its workers are the only ones. -/
theorem Crew.startRound (h : Crew vs w) {m : MainView ι} (hv : vs[t]? = some (.main m))
    {deps : RunnerDeps ι} {l : Lease} {run i : Nat} {groups : List (Group ι)} {u : Unit}
    (hallow : m.allow d (.startRound deps l run i groups))
    (hw : perform (.startRound deps l run i groups) ch w = some (u, w')) :
    Crew ((deliveries d).step vs (.act t (.startRound deps l run i groups) ch u)) w' := by
  obtain ⟨-, -, hdrain, hjoining, -⟩ := hallow
  have hw' : w' = w.setDrain i fun m => m.startRound deps groups := by
    cases ch <;> simp only [perform, Option.some.injEq, Prod.mk.injEq, reduceCtorEq] at hw
    exact hw.2.symm
  have hi := h.mains t m i hv hdrain
  have hlength : w'.drains.length = w.drains.length := by rw [hw', length_setDrain]
  have hidle := h.resting t m hv (by rw [hdrain]; rfl) hjoining
  -- there is one drain at most, so it has the index 0
  have hfew := h.few
  obtain rfl : i = 0 := by omega
  -- a main thread after the step is the one that took it, or one from before
  have hmains : ∀ (v : Nat) m', ((deliveries d).step vs
      (.act t (.startRound deps l run 0 groups) ch u))[v]? = some (.main m') →
        (v = t ∧ m' = m.learn (.startRound deps l run 0 groups) u) ∨
          (v ≠ t ∧ vs[v]? = some (.main m')) := by
    intro v m' hm'
    rcases step_act_cases hm' with ⟨v₀, rfl, hv₀, heq⟩ | ⟨hne, hold⟩ | ⟨-, heq, -⟩
    · obtain rfl : v₀ = .main m := Option.some.inj (hv₀.symm.trans hv)
      exact Or.inl ⟨rfl, ThreadView.main.inj heq⟩
    · exact Or.inr ⟨hne, hold⟩
    · cases heq
  refine ⟨?_, ?_, ?_, ?_, ?_, ?_, ?_⟩
  · rw [hlength]
    exact h.few
  · intro v m' j hm' hd
    rw [hlength]
    rcases hmains v m' hm' with ⟨-, rfl⟩ | ⟨-, hold⟩
    · exact h.mains t m j hv hd
    · exact h.mains v m' j hold hd
  · intro v v' m₀ m₁ hm₀ hm₁ hd hd'
    have hold : ∀ (v : Nat) m', ((deliveries d).step vs
        (.act t (.startRound deps l run 0 groups) ch u))[v]? = some (.main m') → m'.drain.isSome →
        ∃ m₀, vs[v]? = some (.main m₀) ∧ m₀.drain.isSome := by
      intro v m' hm' hd
      rcases hmains v m' hm' with ⟨rfl, rfl⟩ | ⟨-, hold⟩
      · exact ⟨m, hv, hd⟩
      · exact ⟨m', hold, hd⟩
    obtain ⟨n₀, hn₀, hnd₀⟩ := hold v m₀ hm₀ hd
    obtain ⟨n₁, hn₁, hnd₁⟩ := hold v' m₁ hm₁ hd'
    exact h.one v v' n₀ n₁ hn₀ hn₁ hnd₀ hnd₁
  · intro v x hx
    rw [hlength]
    rcases step_act_cases hx with ⟨v₀, rfl, hv₀, heq⟩ | ⟨-, hold⟩ | ⟨-, heq, -⟩
    · obtain rfl : v₀ = .main m := Option.some.inj (hv₀.symm.trans hv)
      cases heq
    · exact h.workers v x hold
    · obtain rfl := ThreadView.worker.inj heq
      exact hi
  · -- the old workers have settled; the new ones are those of the round
    rw [hw', drain_setDrain_self hi]
    simp only [Roles.step, List.countP_append]
    have hold := countP_modify ThreadView.live
      (fun v => v.learn d (.startRound deps l run 0 groups) u) hv
    rw [hidle] at hold
    simp only [ThreadView.live, ThreadView.learn, Bool.false_eq_true, if_false, Nat.add_zero] at hold
    have hnew : (List.replicate (workerCount deps groups)
        (.worker { lease := l, drain := 0 } : ThreadView ι)).countP ThreadView.live =
          workerCount deps groups := by
      rw [List.countP_eq_length.2 ?_, List.length_replicate]
      intro x hx
      rw [List.eq_of_mem_replicate hx]
      rfl
    have hforks : ((system ι).forks (.startRound deps l run 0 groups) u).length =
        workerCount deps groups := List.length_replicate
    rw [hforks]
    exact (Nat.zero_add _).symm.trans (congrArg₂ (· + ·) hold.symm hnew.symm)
  · intro v m' hm' hd hj
    rcases hmains v m' hm' with ⟨-, rfl⟩ | ⟨hne, hold⟩
    · cases hj
    -- only one main thread has a drain
    · exact absurd (h.one v t m' m hold hv hd (by rw [hdrain]; rfl)) hne
  · intro v m' hm' hrows
    rcases hmains v m' hm' with ⟨-, rfl⟩ | ⟨-, hold⟩
    · cases hrows
    · exact h.loaded v m' hold hrows

/-- A round is joined when all its workers have settled. -/
theorem joined {i n : Nat} (hw : perform (.joinRound i) ch w = some (.ok n, w')) :
    (w.drain i).running = 0 := by
  cases ch with
  | ok =>
    simp only [perform] at hw
    split at hw
    · simp only [Option.some.injEq, Prod.mk.injEq, reduceCtorEq, false_and] at hw
    · split at hw
      · assumption
      · cases hw
  | _ => simp only [perform, reduceCtorEq] at hw

/-- The call neither begins a drain nor a round. -/
def Op.Within : Op ι → Prop
  | .newDrain => False
  | .startRound _ _ _ _ _ => False
  | _ => True

/-- A worker stays in its drain, and it settles with its last call. -/
theorem WorkerView.learn_drain (x : WorkerView ι) (o : Op ι) (a : Ans o) :
    (x.learn d o a).drain = x.drain ∧ ((x.learn d o a).ended = x.ended ∨
      ((x.learn d o a).ended = true ∧ ∃ i res, o = .workerDone i res)) := by
  have hnote : ∀ note, (x.note d note).drain = x.drain ∧ (x.note d note).ended = x.ended := by
    intro note
    cases note with
    | parked =>
      simp only [WorkerView.note]
      split <;> exact ⟨rfl, rfl⟩
    | _ => exact ⟨rfl, rfl⟩
  cases o with
  | store so => cases so <;> first | exact ⟨rfl, Or.inl rfl⟩ | (cases a <;> exact ⟨rfl, Or.inl rfl⟩)
  | shift i => cases a <;> exact ⟨rfl, Or.inl rfl⟩
  | deliver e => cases a <;> exact ⟨rfl, Or.inl rfl⟩
  | noteDrain i note => exact ⟨(hnote note).1, Or.inl (hnote note).2⟩
  | workerDone i res => exact ⟨rfl, Or.inr ⟨rfl, i, res, rfl⟩⟩
  | _ => exact ⟨rfl, Or.inl rfl⟩

/-- Only a begin of a drain or of a round, and a join, change where a main thread is. -/
theorem MainView.learn_place {m : MainView ι} (ho : o.Within) (hjoin : ∀ i, o ≠ .joinRound i) :
    (m.learn o a).drain = m.drain ∧ (m.learn o a).joining = m.joining := by
  cases o with
  | store so =>
    cases so with
    | acquireLease owner ttlMs now =>
      cases a with
      | error e => exact ⟨rfl, rfl⟩
      | ok got => cases got <;> exact ⟨rfl, rfl⟩
    | loadPending limit => cases a <;> exact ⟨rfl, rfl⟩
    | heldKeys => cases a <;> exact ⟨rfl, rfl⟩
    | _ => exact ⟨rfl, rfl⟩
  | newDrain => exact ho.elim
  | startRound deps l run i groups => exact ho.elim
  | joinRound i => exact absurd rfl (hjoin i)
  | _ => exact ⟨rfl, rfl⟩

/-- What a step within a round makes of a view. -/
theorem Crew.proceeds (h : Crew vs w) (hv : vs[t]? = some v) (hallow : v.allow d o)
    (ho : o.Within) (hw : perform o ch w = some (a, w')) :
    Proceeds (vs.countP ThreadView.live) v (v.learn d o a) := by
  cases v with
  | keeper l => exact .keeper l
  | worker x =>
    obtain ⟨hdrain, hended⟩ := x.learn_drain (d := d) o a
    refine .worker x _ hdrain ?_
    intro hx
    rcases hended with heq | ⟨htrue, -⟩
    · rw [heq, hx]
    · exact htrue
  | main m =>
    refine .main m _ ?_ ?_
    · by_cases hjoin : ∃ i, o = .joinRound i
      · obtain ⟨i, rfl⟩ := hjoin
        cases a with
        | error e => exact Or.inl rfl
        | ok n =>
          refine Or.inr ⟨rfl, Or.inr ?_⟩
          have hi := h.mains t m i hv hallow.1
          have hfew := h.few
          obtain rfl : i = 0 := by omega
          rw [← h.count]
          exact joined hw
      · have hplace := MainView.learn_place (m := m) (a := a) ho fun i heq => hjoin ⟨i, heq⟩
        exact Or.inr ⟨hplace.1, Or.inl hplace.2⟩
    · generalize hrows : (m.learn o a).rows = rows
      generalize hheld : (m.learn o a).held = held
      have hasked := main_asked hw m
      rw [hrows, hheld] at hasked
      intro hsome
      by_cases hjoin : ∃ i, o = .joinRound i
      · obtain ⟨i, rfl⟩ := hjoin
        cases a <;> rfl
      · rw [(MainView.learn_place (m := m) (a := a) ho fun i heq => hjoin ⟨i, heq⟩).2]
        cases hasked with
        | same => exact h.loaded t m hv hsome
        | dropped => cases hsome
        | loaded limit => exact hallow
        | held => exact h.loaded t m hv hsome

theorem forkView_within (ho : o.Within) :
    (forkView o a).live = false ∧ ∀ m, forkView o a = .main m → m = {} := by
  cases o <;> first | exact ho.elim | exact ⟨rfl, fun m hm => (ThreadView.main.inj hm).symm⟩ |
    exact ⟨rfl, fun m hm => nomatch hm⟩

theorem drains_within (ho : o.Within) (hw : perform o ch w = some (a, w')) :
    w'.drains.length = w.drains.length := by
  cases o with
  | newDrain => exact ho.elim
  | startRound deps l run i groups => exact ho.elim
  | store so =>
    simp only [perform, Option.map_eq_some_iff, Prod.mk.injEq] at hw
    obtain ⟨r, -, -, rfl⟩ := hw
    rfl
  | joinRound i =>
    cases ch with
    | ok =>
      simp only [perform] at hw
      split at hw
      · simp only [Option.some.injEq, Prod.mk.injEq] at hw
        rw [← hw.2]
      · split at hw
        · simp only [Option.some.injEq, Prod.mk.injEq] at hw
          rw [← hw.2]
        · cases hw
    | _ => simp only [perform, reduceCtorEq] at hw
  | diverge => exact a.elim
  | _ =>
    cases ch <;> simp only [perform, Option.some.injEq, Prod.mk.injEq, reduceCtorEq] at hw
    obtain ⟨-, rfl⟩ := hw
    first | rfl | exact length_setDrain _ _ _

/-- The number of unsettled workers goes down with the last call of a worker. -/
theorem Crew.running (h : Crew vs w) (hv : vs[t]? = some v) (hallow : v.allow d o) (ho : o.Within)
    (hw : perform o ch w = some (a, w')) :
    (w'.drain 0).running + (if v.live then 1 else 0) =
      (w.drain 0).running + (if (v.learn d o a).live then 1 else 0) := by
  by_cases hdone : ∃ i res, o = .workerDone i res
  · obtain ⟨i, res, rfl⟩ := hdone
    cases v with
    | worker x =>
      obtain ⟨rfl, hended, -⟩ := hallow
      have hi := h.workers t x hv
      have hfew := h.few
      have hzero : x.drain = 0 := by omega
      have hw' : w' = w.setDrain x.drain fun m => m.settleWorker res := by
        cases ch <;> simp only [perform, Option.some.injEq, Prod.mk.injEq, reduceCtorEq] at hw
        exact hw.2.symm
      have hlive : (ThreadView.worker x).live = true := by simp [ThreadView.live, hended]
      have hpos : 0 < vs.countP ThreadView.live :=
        List.countP_pos_iff.2 ⟨_, List.mem_of_getElem? hv, hlive⟩
      rw [hzero] at hw' hi
      rw [hw', drain_setDrain_self hi, hlive]
      have hrunning : ((w.drain 0).settleWorker res).running = (w.drain 0).running - 1 := by
        cases res <;> rfl
      rw [hrunning, h.count]
      simp only [ThreadView.learn, WorkerView.learn, ThreadView.live, Bool.not_true, if_true,
        Bool.false_eq_true, if_false]
      omega
    | main m => exact hallow.elim
    | keeper l => exact hallow.elim
  · have hsame : (w'.drain 0).running = (w.drain 0).running := by
      rcases perform_drain hw 0 with heq | ⟨i, note, rfl, -, heq⟩ | ⟨deps, l, run, i, groups, rfl, -, -⟩ |
        ⟨i, rfl, -, heq⟩ | ⟨i, res, rfl, -, -⟩
      · rw [heq]
      · rw [heq]
        cases note <;> rfl
      · exact ho.elim
      · rw [heq]
      · exact absurd ⟨i, res, rfl⟩ hdone
    have hlive : (v.learn d o a).live = v.live := by
      cases v with
      | worker x =>
        rcases (x.learn_drain (d := d) o a).2 with heq | ⟨-, hdone'⟩
        · simp only [ThreadView.learn, ThreadView.live, heq]
        · exact absurd hdone' hdone
      | main m => rfl
      | keeper l => rfl
    rw [hsame, hlive]

/-- The threads of one drain stay so. -/
theorem Crew.act (h : Crew vs w) (hv : vs[t]? = some v) (hallow : v.allow d o)
    (hw : perform o ch w = some (a, w')) (hfew : w'.drains.length ≤ 1) :
    Crew ((deliveries d).step vs (.act t o ch a)) w' := by
  by_cases ho : o.Within
  · obtain ⟨hfork, hmain⟩ := forkView_within (a := a) ho
    exact h.proceed hv (h.proceeds hv hallow ho hw) hfork hmain (drains_within ho hw)
      (h.running hv hallow ho hw)
  · cases o with
    | newDrain =>
      cases v with
      | main m => exact h.newDrain hv hallow hw hfew
      | worker x => exact hallow.elim
      | keeper l => exact hallow.elim
    | startRound deps l run i groups =>
      cases v with
      | main m => exact h.startRound hv hallow hw
      | worker x => exact hallow.elim
      | keeper l => exact hallow.elim
    | _ => exact absurd trivial ho

end Crew

/-! ## Turns of a worker -/

/-- Neither the delivery of the first row nor its acknowledgement has failed. -/
def Stage.clean : Stage → Bool
  | .ready => true
  | .delivered => true
  | _ => false

/-- How a worker goes on after an answer, when parked events hold their keys. -/
inductive Turn (w w' : World ι) (x y : WorkerView ι) : Op ι → Prop
  | same (o : Op ι) (key : y.key = x.key) (rest : y.rest = x.rest)
      (clean : y.stage.clean = true → x.stage.clean = true) : Turn w w' x y o
  | left (o : Op ι) (rest : y.rest = []) : Turn w w' x y o
  | taken (g : Group ι) (head : (w.drain x.drain).queue.head? = some g) (key : y.key = g.key)
      (rest : y.rest = g.rows) (stage : y.stage = .ready) : Turn w w' x y (.shift x.drain)
  | acked (l : Lease) (row : OutboxRow ι) (key : y.key = x.key) (rest : x.rest = row :: y.rest)
      (stage : x.stage = .delivered) (gone : w'.store.outbox.get row.eventId = none) :
      Turn w w' x y (.store (.ackEvents l [row.eventId]))

section Turns

variable {d : Deployment ι} {vs : List (ThreadView ι)} {w w' : World ι} {t : Nat} {o : Op ι}
  {ch : Choice ι} {a : Ans o} {v : ThreadView ι}

/-- An acknowledgement that resolved took the rows out of the outbox. -/
theorem acked_gone {l : Lease} {ids : List String} {u : Unit}
    (hw : perform (.store (.ackEvents l ids)) ch w = some (.ok u, w')) {id : String} (hid : id ∈ ids) :
    w'.store.outbox.get id = none := by
  have hp := perform_store hw
  have hmoved := performStore_moved (by simp) hp
  rw [tookEffect_ok hp] at hmoved
  generalize w'.store = rec' at hmoved ⊢
  cases hmoved with
  | still _ _ hidle => cases hidle trivial
  | ack _ _ _ => simp [KeyRecord.ack, OrderedMap.get_eraseAll, hid]

theorem worker_turn (hhold : d.poller.delivery.poisonHoldKey = true) {x : WorkerView ι}
    (hallow : x.allow d o) (hw : perform o ch w = some (a, w')) :
    Turn w w' x (x.learn d o a) o := by
  cases o with
  | store so =>
    cases so with
    | ackEvents l ids =>
      cases a with
      | ok _ =>
        obtain ⟨-, -, hstage, row, rest, hrest, rfl⟩ := hallow
        refine .acked l row rfl ?_ hstage (acked_gone hw (List.mem_singleton_self _))
        change x.rest = row :: x.rest.tail
        rw [hrest]
        rfl
      | error e => exact .same _ rfl rfl fun h => nomatch h
    | recordAttempt l id error next =>
      cases a with
      | ok _ => exact .same _ rfl rfl fun h => nomatch h
      | error e => exact .same _ rfl rfl fun h => h
    | parkEvent l row =>
      cases a with
      | ok _ => exact .same _ rfl rfl fun h => nomatch h
      | error e => exact .same _ rfl rfl id
    | _ => exact .same _ rfl rfl id
  | shift i =>
    obtain ⟨rfl, -, hrest, -⟩ := hallow
    cases a with
    | none => exact .left _ hrest
    | some g => exact .taken g (shift_answer hw).1 rfl rfl rfl
  | deliver e =>
    have hclean : x.stage.clean = true := by
      rw [hallow.2.1]
      rfl
    cases a <;> exact .same _ rfl rfl fun _ => hclean
  | noteDrain i note =>
    cases note with
    | parked =>
      have hnote : x.note d .parked = x := if_pos (Or.inr hhold)
      refine .same _ ?_ ?_ ?_
      · exact congrArg WorkerView.key hnote
      · exact congrArg WorkerView.rest hnote
      · intro h
        have hstage : (x.note d .parked).stage = x.stage := congrArg WorkerView.stage hnote
        rw [← hstage]
        exact h
    | halted => exact .left _ rfl
    | block key => exact .left _ rfl
    | _ => exact .same _ rfl rfl id
  | _ => exact .same _ rfl rfl id

/-! ## Groups apart -/

/-- The groups queued and those in the hands of unsettled workers have different keys. -/
structure Apart (vs : List (ThreadView ι)) (w : World ι) : Prop where
  queue : ((w.drain 0).queue.map (·.key)).Nodup
  taken : ∀ (t : Nat) x, vs[t]? = some (.worker x) → x.ended = false → x.rest ≠ [] →
    x.key ∉ (w.drain 0).queue.map (·.key)
  apart : ∀ (t u : Nat) x y, vs[t]? = some (.worker x) → vs[u]? = some (.worker y) →
    x.ended = false → y.ended = false → x.rest ≠ [] → y.rest ≠ [] → x.key = y.key → t = u

theorem apart_init (w : World ι) (hw : w.drains = []) : Apart [] w := by
  refine ⟨?_, ?_, ?_⟩
  · simp [World.drain, hw]
  · intro t x hx
    simp at hx
  · intro t u x y hx
    simp at hx

/-- An unsettled worker with rows after a step: another thread, or the one that took its turn. -/
theorem worker_after (hhold : d.poller.delivery.poisonHoldKey = true) (hv : vs[t]? = some v)
    (hallow : v.allow d o) (hw : perform o ch w = some (a, w')) {u : Nat} {x : WorkerView ι}
    (hx : ((deliveries d).step vs (.act t o ch a))[u]? = some (.worker x)) (hended : x.ended = false)
    (hrest : x.rest ≠ []) :
    (u ≠ t ∧ vs[u]? = some (.worker x)) ∨
      (u = t ∧ ∃ x₀, v = .worker x₀ ∧ x = x₀.learn d o a ∧ x₀.ended = false ∧ Turn w w' x₀ x o) := by
  rcases step_act_cases hx with ⟨v₀, rfl, hv₀, heq⟩ | ⟨hne, hold⟩ | ⟨-, heq, -⟩
  · obtain rfl : v₀ = v := Option.some.inj (hv₀.symm.trans hv)
    cases v₀ with
    | worker x₀ =>
      obtain rfl : x = x₀.learn d o a := ThreadView.worker.inj heq
      refine Or.inr ⟨rfl, x₀, rfl, rfl, ?_, worker_turn hhold hallow hw⟩
      rcases (x₀.learn_drain (d := d) o a).2 with hsame | ⟨htrue, -⟩
      · rw [← hsame, hended]
      · rw [htrue] at hended
        cases hended
    | main m => cases heq
    | keeper l => cases heq
  · exact Or.inl ⟨hne, hold⟩
  · cases o <;> simp only [deliveries, forkView, reduceCtorEq] at heq
    obtain rfl := ThreadView.worker.inj heq
    exact absurd rfl hrest

/-- What a step makes of the queue of the drain. -/
inductive Queued (vs : List (ThreadView ι)) (w w' : World ι) : Op ι → Prop
  | shifted (queue : (w'.drain 0).queue = (w.drain 0).queue.tail) : Queued vs w w' (.shift 0)
  | filled (deps : RunnerDeps ι) (l : Lease) (run : Nat) (groups : List (Group ι))
      (queue : (w'.drain 0).queue = groups) (idle : vs.countP ThreadView.live = 0) :
      Queued vs w w' (.startRound deps l run 0 groups)
  | same (o : Op ι) (shift : ∀ i, o ≠ .shift i) (round : ∀ deps l run i gs, o ≠ .startRound deps l run i gs)
      (queue : (w'.drain 0).queue = (w.drain 0).queue) : Queued vs w w' o

theorem Crew.queued (h : Crew vs w) (hv : vs[t]? = some v) (hallow : v.allow d o)
    (hw : perform o ch w = some (a, w')) : Queued vs w w' o := by
  have hfew := h.few
  by_cases hshift : ∃ i, o = .shift i
  · obtain ⟨i, rfl⟩ := hshift
    cases v with
    | worker x =>
      obtain ⟨rfl, -⟩ := hallow
      have hi := h.workers t x hv
      have hzero : x.drain = 0 := by omega
      rw [hzero] at hi hw ⊢
      refine .shifted ?_
      cases ch <;> simp only [perform, Option.some.injEq, Prod.mk.injEq, reduceCtorEq] at hw
      rw [← hw.2, drain_setDrain_self hi]
    | main m => exact hallow.elim
    | keeper l => exact hallow.elim
  · by_cases hround : ∃ deps l run i gs, o = .startRound deps l run i gs
    · obtain ⟨deps, l, run, i, groups, rfl⟩ := hround
      cases v with
      | main m =>
        obtain ⟨-, -, hdrain, hjoining, -⟩ := hallow
        have hi := h.mains t m i hv hdrain
        obtain rfl : i = 0 := by omega
        refine .filled deps l run groups ?_ (h.resting t m hv (by rw [hdrain]; rfl) hjoining)
        cases ch <;> simp only [perform, Option.some.injEq, Prod.mk.injEq, reduceCtorEq] at hw
        rw [← hw.2, drain_setDrain_self hi]
        rfl
      | worker x => exact hallow.elim
      | keeper l => exact hallow.elim
    · refine .same o (fun i heq => hshift ⟨i, heq⟩)
        (fun deps l run i gs heq => hround ⟨deps, l, run, i, gs, heq⟩) ?_
      rcases perform_drain hw 0 with heq | ⟨i, note, -, -, heq⟩ | ⟨deps, l, run, i, groups, rfl, -, -⟩ |
        ⟨i, rfl, -, -⟩ | ⟨i, res, -, -, heq⟩
      · rw [heq]
      · rw [heq]
        cases note <;> rfl
      · exact absurd ⟨deps, l, run, i, groups, rfl⟩ hround
      · exact absurd ⟨i, rfl⟩ hshift
      · rw [heq]
        cases res <;> rfl

theorem keys_openGroups (poller : ResolvedPoller ι) (rows : List (OutboxRow ι))
    (held blocked : List String) : ((openGroups poller rows held blocked).map (·.key)).Nodup :=
  (List.filter_sublist.map _).nodup (grouped poller rows).keys

/-- Groups stay apart. -/
theorem Apart.act (h : Apart vs w) (hcrew : Crew vs w)
    (hhold : d.poller.delivery.poisonHoldKey = true) (hv : vs[t]? = some v) (hallow : v.allow d o)
    (hw : perform o ch w = some (a, w')) : Apart ((deliveries d).step vs (.act t o ch a)) w' := by
  have hqueued := hcrew.queued hv hallow hw
  -- a worker with rows had a group of this key, or it has taken the first one of the queue
  have hgroup : ∀ (u : Nat) x, ((deliveries d).step vs (.act t o ch a))[u]? = some (.worker x) →
      x.ended = false → x.rest ≠ [] →
      (∃ x₀, vs[u]? = some (.worker x₀) ∧ x₀.ended = false ∧ x₀.rest ≠ [] ∧ x₀.key = x.key) ∨
        (u = t ∧ o = .shift 0 ∧ ∃ g, (w.drain 0).queue.head? = some g ∧ x.key = g.key) := by
    intro u x hx hended hrest
    rcases worker_after hhold hv hallow hw hx hended hrest with ⟨-, hold⟩ | ⟨rfl, x₀, rfl, -, hlive, hturn⟩
    · exact Or.inl ⟨x, hold, hended, hrest, rfl⟩
    · have hfew := hcrew.few
      have hdrain := hcrew.workers u x₀ hv
      have hzero : x₀.drain = 0 := by omega
      cases hturn with
      | same _ hkey hsame _ => exact Or.inl ⟨x₀, hv, hlive, hsame ▸ hrest, hkey.symm⟩
      | left _ hnil => exact absurd hnil hrest
      | taken g hhead hkey _ _ =>
        rw [hzero] at hhead ⊢
        exact Or.inr ⟨rfl, rfl, g, hhead, hkey⟩
      | acked l row hkey hhead _ _ =>
        refine Or.inl ⟨x₀, hv, hlive, ?_, hkey.symm⟩
        rw [hhead]
        exact List.cons_ne_nil _ _
  refine ⟨?_, ?_, ?_⟩
  · cases hqueued with
    | shifted hqueue =>
      rw [hqueue, List.map_tail]
      exact h.queue.sublist (List.tail_sublist _)
    | filled deps l run groups hqueue hidle =>
      cases v with
      | main m =>
        obtain ⟨-, -, -, -, rows, held, blocked, -, -, -, rfl⟩ := hallow
        rw [hqueue]
        exact keys_openGroups _ _ _ _
      | worker x => exact hallow.elim
      | keeper l => exact hallow.elim
    | same _ _ _ hqueue =>
      rw [hqueue]
      exact h.queue
  · intro u x hx hended hrest
    rcases hgroup u x hx hended hrest with ⟨x₀, hx₀, hlive, hne, hkey⟩ | ⟨-, rfl, g, hhead, hkey⟩
    · rw [← hkey]
      cases hqueued with
      | shifted hqueue =>
        rw [hqueue, List.map_tail]
        exact fun hmem => h.taken u x₀ hx₀ hlive hne (List.mem_of_mem_tail hmem)
      | filled deps l run groups hqueue hidle =>
        rw [all_ended hidle hx₀] at hlive
        cases hlive
      | same _ _ _ hqueue =>
        rw [hqueue]
        exact h.taken u x₀ hx₀ hlive hne
    · rw [hkey]
      cases hqueued with
      | shifted hqueue =>
        rw [hqueue, List.map_tail]
        obtain ⟨rest, hrest⟩ := List.head?_eq_some_iff.1 hhead
        have hnodup := h.queue
        rw [hrest, List.map_cons] at hnodup ⊢
        exact (List.nodup_cons.1 hnodup).1
      | same _ hne _ _ => exact absurd rfl (hne 0)
  · intro u u' x y hx hy hex hey hrx hry hkey
    rcases hgroup u x hx hex hrx with ⟨x₀, hx₀, hlx, hnx, hkx⟩ | ⟨rfl, rfl, g, hhead, hkx⟩
    · rcases hgroup u' y hy hey hry with ⟨y₀, hy₀, hly, hny, hky⟩ | ⟨rfl, rfl, g, hhead, hky⟩
      · exact h.apart u u' x₀ y₀ hx₀ hy₀ hlx hly hnx hny (by rw [hkx, hky, hkey])
      · -- a group in the hands of a worker is not in the queue
        refine absurd ?_ (h.taken u x₀ hx₀ hlx hnx)
        rw [hkx, hkey, hky]
        exact List.mem_map.2 ⟨g, List.mem_of_mem_head? hhead, rfl⟩
    · rcases hgroup u' y hy hey hry with ⟨y₀, hy₀, hly, hny, hky⟩ | ⟨rfl, -, -⟩
      · refine absurd ?_ (h.taken u' y₀ hy₀ hly hny)
        rw [hky, ← hkey, hkx]
        exact List.mem_map.2 ⟨g, List.mem_of_mem_head? hhead, rfl⟩
      · rfl

/-! ## Starts -/

/-- A started thread has no drain yet. -/
theorem Crew.start (h : Crew vs w) (l : Lease) (p : Prog (Op ι) Ans Unit) :
    Crew ((drainRoles d l).step vs (.start p)) w := by
  have hmains : ∀ (u : Nat) m, ((drainRoles d l).step vs (.start p))[u]? = some (.main m) →
      vs[u]? = some (.main m) ∨ m = { lease := some l } := by
    intro u m hm
    exact (step_start_cases hm).imp_right fun hnew => ThreadView.main.inj hnew.2
  have hsome : ∀ (u : Nat) m, ((drainRoles d l).step vs (.start p))[u]? = some (.main m) →
      m.drain.isSome → vs[u]? = some (.main m) := by
    intro u m hm hdrain
    rcases hmains u m hm with hold | rfl
    · exact hold
    · cases hdrain
  have hcount : ((drainRoles d l).step vs (.start p)).countP ThreadView.live =
      vs.countP ThreadView.live := by
    simp [Roles.step, ThreadView.live]
  refine ⟨h.few, ?_, ?_, ?_, h.count.trans hcount.symm, ?_, ?_⟩
  · intro u m i hm hdrain
    exact h.mains u m i (hsome u m hm (by rw [hdrain]; rfl)) hdrain
  · intro u u' m m' hm hm' hdrain hdrain'
    exact h.one u u' m m' (hsome u m hm hdrain) (hsome u' m' hm' hdrain') hdrain hdrain'
  · intro u x hx
    rcases step_start_cases hx with hold | ⟨-, heq⟩
    · exact h.workers u x hold
    · cases heq
  · intro u m hm hdrain hjoining
    rw [hcount]
    exact h.resting u m (hsome u m hm hdrain) hdrain hjoining
  · intro u m hm hrows
    rcases hmains u m hm with hold | rfl
    · exact h.loaded u m hold hrows
    · rfl

theorem start_worker {l : Lease} {p : Prog (Op ι) Ans Unit} {u : Nat} {x : WorkerView ι}
    (hx : ((drainRoles d l).step vs (.start p))[u]? = some (.worker x)) :
    vs[u]? = some (.worker x) := by
  rcases step_start_cases hx with hold | ⟨-, heq⟩
  · exact hold
  · cases heq

theorem Apart.start (h : Apart vs w) (l : Lease) (p : Prog (Op ι) Ans Unit) :
    Apart ((drainRoles d l).step vs (.start p)) w :=
  ⟨h.queue, fun u x hx => h.taken u x (start_worker hx),
    fun u u' x y hx hy => h.apart u u' x y (start_worker hx) (start_worker hy)⟩

theorem crew_init (w : World ι) (hw : w.drains = []) : Crew [] w := by
  refine ⟨?_, ?_, ?_, ?_, ?_, ?_, ?_⟩
  · simp [hw]
  · intro t m i hm
    simp at hm
  · intro t u m m' hm
    simp at hm
  · intro t x hx
    simp at hx
  · simp [World.drain, hw]
  · intro t m hm
    simp at hm
  · intro t m hm
    simp at hm

end Turns

end Watukuy
