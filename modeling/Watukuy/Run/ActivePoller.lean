import Watukuy.Run.Conservation

/-!
# One active poller

`acquireLease` refuses another owner as long as the lease has not expired. It does not refuse the owner
that holds the lease already, and `releaseLease` does not wait for the workers of a drain that rejected.
Where neither matters (`TakesTurns`), one execution at a time holds the lease, all fetches and deliveries
are its own, and the store refuses none of its calls (`active_poller`).
-/

set_option autoImplicit false

namespace Watukuy

open Library

variable {ι : Type}

/-! ## Leases in the store -/

namespace KeyRecord

variable {rec : KeyRecord ι} {l : Lease}

theorem holds_of_lease_eq {rec' : KeyRecord ι} (h : rec'.lease = rec.lease) :
    rec'.holds l = rec.holds l := by
  rw [holds, holds, h]

/-- A lease that has not expired is not granted to another owner. -/
theorem acquireLease_refused {owner : String} {ttlMs now : Int} (hholds : rec.holds l = true)
    (howner : l.owner ≠ owner) (hunexpired : ∀ current ∈ rec.lease, now < current.expiresAt) :
    rec.acquireLease owner ttlMs now = (none, rec) := by
  cases hlease : rec.lease with
  | none =>
    rw [holds, hlease] at hholds
    cases hholds
  | some current =>
    have hnow : now < current.expiresAt := hunexpired current hlease
    simp only [holds, hlease, Bool.and_eq_true, beq_iff_eq] at hholds
    have hheld : rec.heldByOther owner now = true := by
      simp only [heldByOther, hlease, Bool.and_eq_true, decide_eq_true_eq, bne_iff_ne]
      exact ⟨hnow, hholds.1 ▸ howner⟩
    rw [acquireLease, if_pos hheld]

theorem fenced_holds {lease : Lease} {write : KeyRecord ι → KeyRecord ι}
    (h : (write rec).lease = rec.lease) : (rec.fenced lease write).2.holds l = rec.holds l := by
  unfold fenced
  split
  · exact holds_of_lease_eq h
  · rfl

theorem renewLease_holds {lease : Lease} {ttlMs now : Int} :
    (rec.renewLease lease ttlMs now).2.holds l = rec.holds l := by
  unfold renewLease
  split
  · cases hlease : rec.lease with
    | none => simp [holds, hlease]
    | some current => simp [holds, hlease]
  · rfl

end KeyRecord

open KeyRecord

/-- The calls that grant or give up a lease. -/
def StoreOp.Hands : StoreOp ι → Prop
  | .acquireLease _ _ _ => True
  | .releaseLease _ => True
  | .deleteKey => True
  | _ => False

theorem StoreOp.run_holds {o : StoreOp ι} (ho : ¬o.Hands) (rec : KeyRecord ι) (l : Lease) :
    (o.run rec).2.holds l = rec.holds l := by
  cases o with
  | acquireLease owner ttlMs now => exact absurd trivial ho
  | releaseLease lease => exact absurd trivial ho
  | deleteKey => exact absurd trivial ho
  | renewLease lease ttlMs now => exact renewLease_holds
  | saveState lease patch => exact fenced_holds rfl
  | commitPoll lease batch => exact fenced_holds rfl
  | ackEvents lease ids => exact fenced_holds rfl
  | parkEvent lease row => exact fenced_holds rfl
  | setValidator lease hash validator => exact fenced_holds rfl
  | recordAttempt lease eventId error nextAttemptAt =>
    refine fenced_holds ?_
    unfold noteAttempt
    split <;> rfl
  | retryParked ids => exact holds_of_lease_eq (retryParked_same rec ids).2.2.1
  | _ => rfl

/-- Whoever holds the lease still does after any other call. -/
theorem performStore_holds {o : StoreOp ι} (ho : ¬o.Hands) {ch : Choice ι} {rec rec' : KeyRecord ι}
    {a : Except JsError o.Result} (h : performStore o ch rec = some (a, rec')) (l : Lease) :
    rec'.holds l = rec.holds l := by
  have hrun := StoreOp.run_holds ho rec l
  rcases performStore_effect h with ⟨-, x, heq, -⟩ | ⟨-, e, -, hsame | heq⟩
  · rw [heq] at hrun
    exact hrun
  · rw [hsame]
  · rw [heq] at hrun
    exact hrun

/-- The lease a call is made under. -/
def StoreOp.under : StoreOp ι → Option Lease
  | .renewLease l _ _ => some l
  | .saveState l _ => some l
  | .commitPoll l _ => some l
  | .ackEvents l _ => some l
  | .recordAttempt l _ _ _ => some l
  | .parkEvent l _ => some l
  | .setValidator l _ _ => some l
  | _ => none

/-! ## Leases of threads -/

/-- The lease of an execution, from its grant to its release. -/
def ThreadView.held : ThreadView ι → Option Lease
  | .main m => m.lease
  | _ => none

/-- The lease under which a worker goes on, until its promise is settled. -/
def ThreadView.unsettled : ThreadView ι → Option Lease
  | .worker x => if x.ended then none else some x.lease
  | _ => none

/-- A note settles nothing. -/
theorem WorkerView.note_same (d : Deployment ι) (x : WorkerView ι) (note : DrainNote) :
    (x.note d note).ended = x.ended ∧ (x.note d note).lease = x.lease := by
  cases note with
  | parked =>
    simp only [WorkerView.note]
    split <;> exact ⟨rfl, rfl⟩
  | _ => exact ⟨rfl, rfl⟩

section Learn

variable {d : Deployment ι} {v : ThreadView ι} {o : Op ι} {a : Ans o} {l : Lease}

/-- A call that grants no lease adds none. -/
theorem held_of_learn (hacquire : ∀ owner ttlMs now, o ≠ .store (.acquireLease owner ttlMs now))
    (h : (v.learn d o a).held = some l) : v.held = some l := by
  cases v with
  | worker x => cases h
  | keeper lease => cases h
  | main m =>
    cases o with
    | store so =>
      cases so with
      | acquireLease owner ttlMs now => exact absurd rfl (hacquire owner ttlMs now)
      | releaseLease lease => cases h
      | loadPending limit => cases a <;> exact h
      | heldKeys => cases a <;> exact h
      | _ => exact h
    | joinRound i => cases a <;> exact h
    | _ => exact h

/-- Whoever holds a lease keeps it until it releases it. -/
theorem held_learn (hallow : v.allow d o) (hrelease : ∀ lease, o ≠ .store (.releaseLease lease))
    (h : v.held = some l) : (v.learn d o a).held = some l := by
  cases v with
  | worker x => cases h
  | keeper lease => cases h
  | main m =>
    cases o with
    | store so =>
      cases so with
      | acquireLease owner ttlMs now =>
        -- an execution asks for a lease once
        have hnone : m.lease = none := hallow
        exact absurd (hnone.symm.trans h) (by rintro ⟨⟩)
      | releaseLease lease => exact absurd rfl (hrelease lease)
      | loadPending limit => cases a <;> exact h
      | heldKeys => cases a <;> exact h
      | _ => exact h
    | joinRound i => cases a <;> exact h
    | _ => exact h

theorem unsettled_of_learn (h : (v.learn d o a).unsettled = some l) : v.unsettled = some l := by
  cases v with
  | main m => cases h
  | keeper lease => cases h
  | worker x =>
    have hkeep : ∀ y : WorkerView ι, y.ended = x.ended → y.lease = x.lease →
        (ThreadView.worker y).unsettled = some l → (ThreadView.worker x).unsettled = some l := by
      intro y hended hlease hy
      simp only [ThreadView.unsettled, hended, hlease] at hy
      exact hy
    cases o with
    | store so =>
      cases so with
      | ackEvents lease ids => cases a <;> exact h
      | recordAttempt lease id error at_ => cases a <;> exact h
      | parkEvent lease row => cases a <;> exact h
      | _ => exact h
    | shift i => cases a <;> exact h
    | deliver e => cases a <;> exact h
    | noteDrain i note =>
      obtain ⟨hended, hlease⟩ := x.note_same d note
      exact hkeep _ hended hlease h
    | workerDone i res => cases h
    | _ => exact h

theorem held_forkView (o : Op ι) (a : Ans o) : (forkView o a).held = none := by
  cases o <;> rfl

/-- A worker goes on under the lease of the execution that started it. -/
theorem unsettled_forkView (hallow : v.allow d o) (h : (forkView o a).unsettled = some l) :
    v.held = some l ∧ ∀ lease, o ≠ .store (.releaseLease lease) := by
  cases o with
  | startRound deps lease run drain groups =>
    obtain rfl : lease = l := Option.some.inj h
    refine ⟨?_, by rintro lease ⟨⟩⟩
    cases v with
    | main m => exact hallow.2.1
    | worker x => exact hallow.elim
    | keeper lease' => exact hallow.elim
  | _ => cases h

end Learn

/-! ## At most one execution holds the lease -/

/-- The store does not reject the call before it performs it. -/
def Choice.reaches : Choice ι → Bool
  | .failBefore _ => false
  | _ => true

/-- At most one execution holds a lease, the store agrees, and all workers are its own. -/
structure OneHolder (vs : List (ThreadView ι)) (rec : KeyRecord ι) : Prop where
  one : ∀ (t u : Nat) (v v' : ThreadView ι) (l l' : Lease), vs[t]? = some v → vs[u]? = some v' →
    v.held = some l → v'.held = some l' → t = u
  stored : ∀ (t : Nat) (v : ThreadView ι) (l : Lease), vs[t]? = some v → v.held = some l →
    rec.holds l = true
  crew : ∀ (t : Nat) (v : ThreadView ι) (l : Lease), vs[t]? = some v → v.unsettled = some l →
    ∃ (u : Nat) (v' : ThreadView ι), vs[u]? = some v' ∧ v'.held = some l

section Steps

variable {d : Deployment ι} {vs : List (ThreadView ι)} {w w' : World ι} {t : Nat} {o : Op ι}
  {ch : Choice ι} {a : Ans o} {v : ThreadView ι}

/-- Whoever holds a lease after a call that grants none held it before. -/
theorem held_before (hacquire : ∀ owner ttlMs now, o ≠ .store (.acquireLease owner ttlMs now)) {u : Nat}
    {v' : ThreadView ι} {l : Lease} (hv' : ((deliveries d).step vs (.act t o ch a))[u]? = some v')
    (hheld : v'.held = some l) : ∃ v₀, vs[u]? = some v₀ ∧ v₀.held = some l := by
  rcases step_act_cases hv' with ⟨v₀, rfl, hv₀, rfl⟩ | ⟨-, hold⟩ | ⟨-, rfl, -⟩
  · exact ⟨v₀, hv₀, held_of_learn hacquire hheld⟩
  · exact ⟨v', hold, hheld⟩
  · exact absurd ((held_forkView o a).symm.trans hheld) (by rintro ⟨⟩)

/-- A worker that goes on after a call did so before, or its execution just started it. -/
theorem unsettled_before (hv : vs[t]? = some v) (hallow : v.allow d o) {u : Nat} {v' : ThreadView ι}
    {l : Lease} (hv' : ((deliveries d).step vs (.act t o ch a))[u]? = some v')
    (hunsettled : v'.unsettled = some l) :
    (∃ (u : Nat) (v₀ : ThreadView ι), vs[u]? = some v₀ ∧ v₀.unsettled = some l) ∨
      v.held = some l ∧ ∀ lease, o ≠ .store (.releaseLease lease) := by
  rcases step_act_cases hv' with ⟨v₀, rfl, hv₀, rfl⟩ | ⟨-, hold⟩ | ⟨-, rfl, -⟩
  · exact .inl ⟨u, v₀, hv₀, unsettled_of_learn hunsettled⟩
  · exact .inl ⟨u, v', hold, hunsettled⟩
  · exact .inr (unsettled_forkView hallow hunsettled)

/-- Nothing is granted or given up. -/
theorem OneHolder.keep (h : OneHolder vs w.store) (hv : vs[t]? = some v) (hallow : v.allow d o)
    (hacquire : ∀ owner ttlMs now, o ≠ .store (.acquireLease owner ttlMs now))
    (hrelease : ∀ lease, o ≠ .store (.releaseLease lease))
    (hholds : ∀ l, w'.store.holds l = w.store.holds l) :
    OneHolder ((deliveries d).step vs (.act t o ch a)) w'.store := by
  have hafter : ∀ (u : Nat) (v₀ : ThreadView ι) (l : Lease), vs[u]? = some v₀ → v₀.held = some l →
      ∃ v', ((deliveries d).step vs (.act t o ch a))[u]? = some v' ∧ v'.held = some l := by
    intro u v₀ l hv₀ hheld
    by_cases hut : u = t
    · subst hut
      obtain rfl : v₀ = v := Option.some.inj (hv₀.symm.trans hv)
      exact ⟨_, step_act_self hv, held_learn hallow hrelease hheld⟩
    · exact ⟨v₀, step_act_other hut hv₀, hheld⟩
  constructor
  · intro u u' v₁ v₂ l l' hv₁ hv₂ hheld₁ hheld₂
    obtain ⟨x, hx, hxl⟩ := held_before hacquire hv₁ hheld₁
    obtain ⟨y, hy, hyl⟩ := held_before hacquire hv₂ hheld₂
    exact h.one u u' x y l l' hx hy hxl hyl
  · intro u v₁ l hv₁ hheld
    obtain ⟨x, hx, hxl⟩ := held_before hacquire hv₁ hheld
    rw [hholds]
    exact h.stored u x l hx hxl
  · intro u v₁ l hv₁ hunsettled
    rcases unsettled_before hv hallow hv₁ hunsettled with ⟨u₀, v₀, hv₀, hbefore⟩ | ⟨hheld, -⟩
    · obtain ⟨u', x, hx, hxl⟩ := h.crew u₀ v₀ l hv₀ hbefore
      obtain ⟨v', hv', hheld⟩ := hafter u' x l hx hxl
      exact ⟨u', v', hv', hheld⟩
    · obtain ⟨v', hv', hheld'⟩ := hafter t v l hv hheld
      exact ⟨t, v', hv', hheld'⟩

/-- An execution that no worker goes on for gives its lease up. -/
theorem OneHolder.release {lease : Lease} (ho : o = .store (.releaseLease lease))
    (h : OneHolder vs w.store) (hv : vs[t]? = some v) (hallow : v.allow d o)
    (hsettled : ∀ v' ∈ vs, v'.unsettled ≠ some lease) :
    OneHolder ((deliveries d).step vs (.act t o ch a)) w'.store := by
  subst ho
  cases v with
  | worker x => exact hallow.2.elim
  | keeper l => exact hallow.elim
  | main m =>
    have hheld : (ThreadView.main m).held = some lease := hallow.1
    -- nobody holds a lease any more
    have hnone : ∀ (u : Nat) (v' : ThreadView ι) (l : Lease),
        ((deliveries d).step vs (.act t (.store (.releaseLease lease)) ch a))[u]? = some v' →
        v'.held ≠ some l := by
      intro u v' l hv' hafter
      have hacquire : ∀ owner ttlMs now, (.store (.releaseLease lease) : Op ι) ≠
          .store (.acquireLease owner ttlMs now) := by
        rintro owner ttlMs now ⟨⟩
      obtain ⟨x, hx, hxl⟩ := held_before hacquire hv' hafter
      obtain rfl := h.one u t x _ l lease hx hv hxl hheld
      obtain rfl := Option.some.inj (hv'.symm.trans (step_act_self hv))
      cases hafter
    constructor
    · intro u u' v₁ v₂ l l' hv₁ _ hheld₁ _
      exact absurd hheld₁ (hnone u v₁ l hv₁)
    · intro u v₁ l hv₁ hheld₁
      exact absurd hheld₁ (hnone u v₁ l hv₁)
    · intro u v₁ l hv₁ hunsettled
      rcases unsettled_before hv hallow hv₁ hunsettled with ⟨u₀, v₀, hv₀, hbefore⟩ | ⟨-, hother⟩
      · obtain ⟨u', x, hx, hxl⟩ := h.crew u₀ v₀ l hv₀ hbefore
        obtain rfl := h.one u' t x _ l lease hx hv hxl hheld
        obtain rfl : l = lease := by
          rw [hv] at hx
          obtain rfl := Option.some.inj hx
          exact Option.some.inj (hxl.symm.trans hheld)
        exact absurd hbefore (hsettled v₀ (List.mem_of_getElem? hv₀))
      · exact absurd rfl (hother lease)

/-- While an execution of another owner holds an unexpired lease, none is granted. -/
theorem acquire_refused {owner : String} {ttlMs now : Int} {rec rec' : KeyRecord ι} {l : Lease}
    {a : Except JsError (StoreOp.acquireLease (ι := ι) owner ttlMs now).Result}
    (hholds : rec.holds l = true) (howner : ch.reaches = true → l.owner ≠ owner)
    (hunexpired : ∀ current ∈ rec.lease, now < current.expiresAt)
    (h : performStore (.acquireLease owner ttlMs now) ch rec = some (a, rec')) :
    rec' = rec ∧ ∀ l', a ≠ .ok (some l') := by
  have hrun : ch.reaches = true →
      (StoreOp.acquireLease owner ttlMs now).run rec = (.ok none, rec) := by
    intro hch
    have hrefused : rec.acquireLease owner ttlMs now = (none, rec) :=
      acquireLease_refused hholds (howner hch) hunexpired
    simp only [StoreOp.run, hrefused]
  rcases performStore_cases h with ⟨rfl, heq⟩ | ⟨e, rfl, rfl, rfl⟩ | ⟨e, x, rfl, rfl, heq⟩
  · rw [hrun rfl] at heq
    obtain ⟨rfl, rfl⟩ := Prod.mk.inj heq
    exact ⟨rfl, by rintro l' ⟨⟩⟩
  · exact ⟨rfl, by rintro l' ⟨⟩⟩
  · rw [hrun rfl] at heq
    obtain ⟨-, rfl⟩ := Prod.mk.inj heq
    exact ⟨rfl, by rintro l' ⟨⟩⟩

/-- An execution asks for a lease. -/
theorem OneHolder.acquire {owner : String} {ttlMs now : Int} (h : OneHolder vs w.store)
    (hv : vs[t]? = some v) {a : Ans (.store (.acquireLease (ι := ι) owner ttlMs now))}
    (hallow : v.allow d (.store (.acquireLease owner ttlMs now)))
    (hrefused : ∀ v' ∈ vs, ∀ l ∈ v'.held, w'.store = w.store ∧ ∀ l', a ≠ .ok (some l'))
    (hw : perform (.store (.acquireLease owner ttlMs now)) ch w = some (a, w')) :
    OneHolder ((deliveries d).step vs (.act t (.store (.acquireLease owner ttlMs now)) ch a)) w'.store := by
  cases v with
  | worker x => exact hallow.2.elim
  | keeper l => exact hallow.elim
  | main m =>
    have hnone : m.lease = none := hallow
    by_cases hgrant : ∃ l, a = .ok (some l)
    · obtain ⟨l, rfl⟩ := hgrant
      -- nobody else holds a lease
      have hfree : ∀ (u : Nat) (v' : ThreadView ι) (l' : Lease), vs[u]? = some v' →
          v'.held ≠ some l' := by
        intro u v' l' hv' hheld
        exact (hrefused v' (List.mem_of_getElem? hv') l' hheld).2 l rfl
      have hself : ∀ (u : Nat) (v' : ThreadView ι) (l' : Lease), ((deliveries d).step vs
          (.act t (.store (.acquireLease owner ttlMs now)) ch (.ok (some l))))[u]? = some v' →
          v'.held = some l' → u = t ∧ l' = l := by
        intro u v' l' hv' hheld
        rcases step_act_cases hv' with ⟨v₀, rfl, hv₀, rfl⟩ | ⟨-, hold⟩ | ⟨-, rfl, -⟩
        · obtain rfl := Option.some.inj (hv₀.symm.trans hv)
          exact ⟨rfl, (Option.some.inj hheld).symm⟩
        · exact absurd hheld (hfree u v' l' hold)
        · cases hheld
      constructor
      · intro u u' v₁ v₂ l₁ l₂ hv₁ hv₂ hheld₁ hheld₂
        exact (hself u v₁ l₁ hv₁ hheld₁).1.trans (hself u' v₂ l₂ hv₂ hheld₂).1.symm
      · intro u v₁ l₁ hv₁ hheld₁
        obtain ⟨-, rfl⟩ := hself u v₁ l₁ hv₁ hheld₁
        rcases performStore_acquire (perform_store hw) with ⟨-, hno⟩ | ⟨l', -, hrec, hl'⟩
        · exact absurd rfl (hno l₁)
        · obtain rfl := hl' l₁ rfl
          rw [hrec]
          simp [holds]
      · intro u v₁ l₁ hv₁ hunsettled
        rcases unsettled_before hv hallow hv₁ hunsettled with ⟨u₀, v₀, hv₀, hbefore⟩ | ⟨hheld, -⟩
        · obtain ⟨u', x, hx, hxl⟩ := h.crew u₀ v₀ l₁ hv₀ hbefore
          exact absurd hxl (hfree u' x l₁ hx)
        · exact absurd hheld (hfree t _ l₁ hv)
    · -- the execution goes on without a lease
      have hlearn : (ThreadView.main m).learn d (.store (.acquireLease owner ttlMs now)) a =
          .main m := by
        cases a with
        | error e => rfl
        | ok got =>
          cases got with
          | none => rfl
          | some l => exact absurd ⟨l, rfl⟩ hgrant
      have hback : ∀ (u : Nat) (v' : ThreadView ι), ((deliveries d).step vs
          (.act t (.store (.acquireLease owner ttlMs now)) ch a))[u]? = some v' → vs[u]? = some v' := by
        intro u v' hv'
        rcases step_act_cases hv' with ⟨v₀, rfl, hv₀, rfl⟩ | ⟨-, hold⟩ | ⟨-, -, hfork⟩
        · obtain rfl := Option.some.inj (hv₀.symm.trans hv)
          rw [hv]
          exact congrArg some hlearn.symm
        · exact hold
        · exact absurd rfl hfork
      constructor
      · intro u u' v₁ v₂ l₁ l₂ hv₁ hv₂
        exact h.one u u' v₁ v₂ l₁ l₂ (hback u v₁ hv₁) (hback u' v₂ hv₂)
      · intro u v₁ l₁ hv₁ hheld₁
        have hbefore := hback u v₁ hv₁
        rw [(hrefused v₁ (List.mem_of_getElem? hbefore) l₁ hheld₁).1]
        exact h.stored u v₁ l₁ hbefore hheld₁
      · intro u v₁ l₁ hv₁ hunsettled
        obtain ⟨u', x, hx, hxl⟩ := h.crew u v₁ l₁ (hback u v₁ hv₁) hunsettled
        by_cases hut : u' = t
        · subst hut
          obtain rfl := Option.some.inj (hx.symm.trans hv)
          exact absurd (hnone.symm.trans hxl) (by rintro ⟨⟩)
        · exact ⟨u', x, step_act_other hut hx, hxl⟩

end Steps

/-! ## Runs -/

/-- A holder renews its lease or gives it up before the lease expires. -/
def Unexpired (d : Deployment ι) (w : World ι) (pre : List (Label (system ι))) :
    Label (system ι) → Prop
  | .act _ (.store (.acquireLease _ _ now)) _ _ =>
    (∃ v ∈ (deliveries d).views pre, v.held.isSome) →
      ∀ current ∈ (World.store ((system ι).after w pre)).lease, now < current.expiresAt
  | _ => True

/-- No execution asks for a lease that one of the same owner holds, and none gives a lease up while a
worker of its goes on. -/
def TakesTurns (d : Deployment ι) (pre : List (Label (system ι))) : Label (system ι) → Prop
  | .act _ (.store (.acquireLease owner _ _)) ch _ =>
    Choice.reaches (ι := ι) ch = true → ∀ v ∈ (deliveries d).views pre, ∀ l ∈ v.held, l.owner ≠ owner
  | .act _ (.store (.releaseLease lease)) _ _ =>
    ∀ v ∈ (deliveries d).views pre, v.unsettled ≠ some lease
  | _ => True

/-- The store refuses the call: the lease is lost. -/
def StoreOp.Refused (o : StoreOp ι) (a : Except JsError o.Result) : Prop :=
  match o, a with
  | .renewLease _ _ _, .ok renewed => renewed = false
  | _, .error e => e.isLeaseLost = true
  | _, .ok _ => False

/-- Only a heartbeat that goes on after the release of its lease is refused. -/
def Unrefused (d : Deployment ι) (pre : List (Label (system ι))) : Label (system ι) → Prop
  | .act t (.store o) .ok a =>
    o.Refused a → ∃ l, ((deliveries d).views pre)[t]? = some (.keeper l) ∧
      ∀ v ∈ (deliveries d).views pre, v.held ≠ some l
  | _ => True

/-- The calls that poll the API or hand an event to the consumer. -/
def Op.Polls : Op ι → Prop
  | .fetch _ _ => True
  | .deliver _ => True
  | _ => False

/-- The thread goes on under the lease. -/
def ThreadView.Works (v : ThreadView ι) (l : Lease) : Prop := v.held = some l ∨ v.unsettled = some l

/-- One active poller: at most one execution holds a lease, any two fetches or deliveries are made under
the lease it holds, and no call under it is refused. -/
structure ActivePoller (d : Deployment ι) (tr : List (Label (system ι))) (c : Config (system ι)) :
    Prop where
  holder : OneHolder ((deliveries d).views tr) (World.store (ι := ι) c.world)
  alone : ∀ (t t' : Nat) (o o' : Op ι) k k', c.threads[t]? = some (.call o k) → o.Polls →
    c.threads[t']? = some (.call o' k') → o'.Polls →
    ∃ (u : Nat) (v v' holder : ThreadView ι) (l : Lease), ((deliveries d).views tr)[u]? = some holder ∧
      holder.held = some l ∧ ((deliveries d).views tr)[t]? = some v ∧ v.Works l ∧
      ((deliveries d).views tr)[t']? = some v' ∧ v'.Works l
  unrefused : Throughout (Unrefused d) tr

section Runs

variable {d : Deployment ι} {w w' : World ι} {tr : List (Label (system ι))}

/-- A call under a lease that is held is not refused. -/
theorem run_unrefused {o : StoreOp ι} {rec : KeyRecord ι}
    (h : ∀ l, o.under = some l → rec.holds l = true) : ¬o.Refused (o.run rec).1 := by
  have hfenced : ∀ (l : Lease) (write : KeyRecord ι → KeyRecord ι), rec.holds l = true →
      (rec.fenced l write).1 = .ok () := by
    intro l write hl
    rw [KeyRecord.fenced, if_pos hl]
  cases o with
  | renewLease l ttlMs now =>
    have hrun : ((StoreOp.renewLease l ttlMs now).run rec).1 = .ok true := by
      simp only [StoreOp.run, renewLease, if_pos (h l rfl)]
    rw [hrun]
    rintro ⟨⟩
  | saveState l patch =>
    simp only [StoreOp.run, hfenced l _ (h l rfl)]
    exact not_false
  | commitPoll l batch =>
    simp only [StoreOp.run, hfenced l _ (h l rfl)]
    exact not_false
  | ackEvents l ids =>
    simp only [StoreOp.run, hfenced l _ (h l rfl)]
    exact not_false
  | recordAttempt l id error nextAttemptAt =>
    simp only [StoreOp.run, hfenced l _ (h l rfl)]
    exact not_false
  | parkEvent l row =>
    simp only [StoreOp.run, hfenced l _ (h l rfl)]
    exact not_false
  | setValidator l hash validator =>
    simp only [StoreOp.run, hfenced l _ (h l rfl)]
    exact not_false
  | _ => exact not_false

/-- A call is made under a lease of its thread. -/
theorem under_of_allow {v : ThreadView ι} {o : StoreOp ι} {l : Lease} (hallow : v.allow d (.store o))
    (hunder : o.under = some l) : v.held = some l ∨ v.unsettled = some l ∨ v = .keeper l := by
  cases v with
  | main m =>
    cases o with
    | renewLease lease ttlMs now =>
      obtain rfl := Option.some.inj hunder
      exact .inl hallow
    | saveState lease patch =>
      obtain rfl := Option.some.inj hunder
      exact .inl hallow
    | commitPoll lease batch =>
      obtain rfl := Option.some.inj hunder
      exact .inl hallow
    | setValidator lease hash validator =>
      obtain rfl := Option.some.inj hunder
      exact .inl hallow
    | ackEvents lease ids => exact hallow.elim
    | recordAttempt lease id error nextAttemptAt => exact hallow.elim
    | parkEvent lease row => exact hallow.elim
    | _ => cases hunder
  | worker x =>
    have hended : x.ended = false := hallow.1
    have hlease : x.lease = l → (ThreadView.worker x).unsettled = some l := by
      rintro rfl
      simp [ThreadView.unsettled, hended]
    refine .inr (.inl (hlease ?_))
    cases o with
    | ackEvents lease ids => exact hallow.2.1.symm.trans (Option.some.inj hunder)
    | recordAttempt lease id error nextAttemptAt =>
      exact hallow.2.1.symm.trans (Option.some.inj hunder)
    | parkEvent lease row => exact hallow.2.1.symm.trans (Option.some.inj hunder)
    | _ => exact hallow.2.elim
  | keeper lease =>
    cases o with
    | renewLease lease' ttlMs now =>
      obtain rfl : lease' = lease := hallow
      obtain rfl := Option.some.inj hunder
      exact .inr (.inr rfl)
    | _ => exact hallow.elim

/-- The holder's calls are not refused. -/
theorem OneHolder.unrefused {t : Nat} {o : Op ι} {ch : Choice ι} {a : Ans o} {v : ThreadView ι}
    (h : OneHolder ((deliveries d).views tr) w.store) (hv : ((deliveries d).views tr)[t]? = some v)
    (hallow : v.allow d o) (hw : perform o ch w = some (a, w')) :
    Unrefused d tr (.act t o ch a) := by
  cases o with
  | store so =>
    cases ch with
    | ok =>
      intro hrefused
      have hrun : so.run w.store = (a, w'.store) := Option.some.inj (perform_store hw)
      by_contra hkeeper
      have hnot : ¬so.Refused (so.run w.store).1 := by
        refine run_unrefused fun l hunder => ?_
        rcases under_of_allow hallow hunder with hheld | hunsettled | rfl
        · exact h.stored t v l hv hheld
        · obtain ⟨u, v', hv', hheld⟩ := h.crew t v l hv hunsettled
          exact h.stored u v' l hv' hheld
        · by_contra hlost
          refine hkeeper ⟨l, hv, fun v' hv' hheld => hlost ?_⟩
          obtain ⟨u, hu⟩ := List.mem_iff_getElem?.1 hv'
          exact h.stored u v' l hu hheld
      rw [hrun] at hnot
      exact hnot hrefused
    | _ => trivial
  | _ => trivial

/-- A thread that fetches or delivers goes on under a lease. -/
theorem works_of_polls {v : ThreadView ι} {o : Op ι} (hallow : v.allow d o) (ho : o.Polls) :
    ∃ l, v.Works l := by
  cases v with
  | main m =>
    cases o with
    | fetch args resume =>
      obtain ⟨l, hl⟩ := Option.isSome_iff_exists.1 hallow.1
      exact ⟨l, .inl hl⟩
    | deliver e => exact hallow.elim
    | _ => exact ho.elim
  | worker x =>
    cases o with
    | fetch args resume => exact hallow.elim
    | deliver e =>
      have hended : x.ended = false := hallow.1
      exact ⟨x.lease, .inr (by simp [ThreadView.unsettled, hended])⟩
    | _ => exact ho.elim
  | keeper l =>
    cases o with
    | fetch args resume => exact hallow.elim
    | deliver e => exact hallow.elim
    | _ => exact ho.elim

/-- The lease a thread goes on under is held. -/
theorem OneHolder.holder {vs : List (ThreadView ι)} {rec : KeyRecord ι} (h : OneHolder vs rec) {t : Nat}
    {v : ThreadView ι} {l : Lease} (hv : vs[t]? = some v) (hworks : v.Works l) :
    ∃ (u : Nat) (holder : ThreadView ι), vs[u]? = some holder ∧ holder.held = some l := by
  rcases hworks with hheld | hunsettled
  · exact ⟨t, v, hv, hheld⟩
  · exact h.crew t v l hv hunsettled

/-- All leases that threads go on under are one. -/
theorem OneHolder.works_eq {vs : List (ThreadView ι)} {rec : KeyRecord ι} (h : OneHolder vs rec)
    {t t' : Nat} {v v' : ThreadView ι} {l l' : Lease} (hv : vs[t]? = some v) (hworks : v.Works l)
    (hv' : vs[t']? = some v') (hworks' : v'.Works l') : l' = l := by
  obtain ⟨u, holder, hu, hheld⟩ := h.holder hv hworks
  obtain ⟨u', holder', hu', hheld'⟩ := h.holder hv' hworks'
  obtain rfl := h.one u' u holder' holder l' l hu' hu hheld' hheld
  obtain rfl := Option.some.inj (hu'.symm.trans hu)
  exact Option.some.inj (hheld'.symm.trans hheld)

theorem OneHolder.nil (rec : KeyRecord ι) : OneHolder [] rec := by
  constructor
  · intro t u v v' l l' hv
    simp at hv
  · intro t v l hv
    simp at hv
  · intro t v l hv
    simp at hv

/-- A started execution holds no lease. -/
theorem OneHolder.start {vs : List (ThreadView ι)} {rec : KeyRecord ι} (h : OneHolder vs rec)
    (q : Prog (Op ι) Ans Unit) : OneHolder ((deliveries d).step vs (.start q)) rec := by
  have hback : ∀ (u : Nat) (v : ThreadView ι) (l : Lease),
      ((deliveries d).step vs (.start q))[u]? = some v → v.Works l → vs[u]? = some v := by
    intro u v l hv hworks
    rcases step_start_cases hv with hold | ⟨-, rfl⟩
    · exact hold
    · rcases hworks with hnone | hnone <;> cases hnone
  constructor
  · intro u u' v₁ v₂ l l' hv₁ hv₂ hheld₁ hheld₂
    exact h.one u u' v₁ v₂ l l' (hback u v₁ l hv₁ (.inl hheld₁)) (hback u' v₂ l' hv₂ (.inl hheld₂))
      hheld₁ hheld₂
  · intro u v₁ l hv₁ hheld₁
    exact h.stored u v₁ l (hback u v₁ l hv₁ (.inl hheld₁)) hheld₁
  · intro u v₁ l hv₁ hunsettled
    obtain ⟨u', x, hx, hxl⟩ := h.crew u v₁ l (hback u v₁ l hv₁ (.inr hunsettled)) hunsettled
    exact ⟨u', x, step_start_old hx, hxl⟩

/-- One step of a run keeps the lease with one execution. -/
theorem OneHolder.act {w₀ : World ι} {t : Nat} {o : Op ι} {ch : Choice ι} {a : Ans o} {v : ThreadView ι}
    (h : OneHolder ((deliveries d).views tr) w.store) (hafter : w = (system ι).after w₀ tr)
    (hv : ((deliveries d).views tr)[t]? = some v) (hallow : v.allow d o)
    (hdel : o ≠ .store .deleteKey) (hw : perform o ch w = some (a, w'))
    (hunexpired : Unexpired d w₀ tr (.act t o ch a)) (hturns : TakesTurns d tr (.act t o ch a)) :
    OneHolder ((deliveries d).step ((deliveries d).views tr) (.act t o ch a)) w'.store := by
  cases o with
  | store so =>
    cases so with
    | acquireLease owner ttlMs now =>
      refine h.acquire hv hallow ?_ hw
      intro v' hv' l hl
      obtain ⟨u, hu⟩ := List.mem_iff_getElem?.1 hv'
      refine acquire_refused (h.stored u v' l hu hl) (fun hch => hturns hch v' hv' l hl) ?_
        (perform_store hw)
      intro current hcurrent
      rw [hafter] at hcurrent
      exact hunexpired ⟨v', hv', by rw [hl]; rfl⟩ current hcurrent
    | releaseLease lease => exact h.release rfl hv hallow hturns
    | deleteKey => exact absurd rfl hdel
    | _ =>
      refine h.keep hv hallow (by rintro owner ttlMs now ⟨⟩) (by rintro lease ⟨⟩) fun l => ?_
      exact performStore_holds id (perform_store hw) l
  | _ =>
    refine h.keep hv hallow (by rintro owner ttlMs now ⟨⟩) (by rintro lease ⟨⟩) fun l => ?_
    rw [perform_other (by rintro so ⟨⟩) hw]

/-- In every run in which the key stays, whatever instances overlap and whatever fails: as long as no
lease expires under its holder, no execution asks for the lease while one of the same owner holds it,
and none gives it up while a worker of its goes on, there is one active poller. -/
theorem active_poller {w₀ : World ι} {c : Config (system ι)}
    (h : Run (system ι) (d.entry EngineCall.KeepsKey) w₀ tr c)
    (hunexpired : Throughout (Unexpired d w₀) tr) (hturns : Throughout (TakesTurns d) tr) :
    ActivePoller d tr c := by
  have hall : Throughout (fun pre l => Unexpired d w₀ pre l ∧ TakesTurns d pre l) tr :=
    fun pre l post heq => ⟨hunexpired pre l post heq, hturns pre l post heq⟩
  obtain ⟨hholder, hunrefused⟩ : OneHolder ((deliveries d).views tr) (World.store (ι := ι) c.world) ∧
      Throughout (Unrefused d) tr := by
    refine Run.roles (rolesObeyed d _)
      (J := fun tr vs (w : World ι) => OneHolder vs w.store ∧ Throughout (Unrefused d) tr)
      ?_ ?_ ?_ ?_ h hall
    · exact ⟨OneHolder.nil _, throughout_nil⟩
    · rintro tr c q - - ⟨hholder, hunrefused⟩
      exact ⟨hholder.start q, throughout_snoc.2 ⟨hunrefused, trivial⟩⟩
    · rintro tr c t o k ch a w' v hr ⟨hholder, hunrefused⟩ ht hv hallow hw ⟨hunexpired, hturns⟩
      have hdel : o ≠ .store .deleteKey := by
        rintro rfl
        exact hr.allow (requestsObeyed d _) ht
      exact ⟨hholder.act hr.world_eq hv hallow hdel hw hunexpired hturns,
        throughout_snoc.2 ⟨hunrefused, hholder.unrefused hv hallow hw⟩⟩
    · rintro tr c x - ⟨hholder, hunrefused⟩
      exact ⟨hholder, throughout_snoc.2 ⟨hunrefused, trivial⟩⟩
  refine ⟨hholder, ?_, hunrefused⟩
  intro t t' o o' k k' ht ho ht' ho'
  obtain ⟨v, hv, hallow⟩ := h.mayCall (rolesObeyed d _) ht
  obtain ⟨v', hv', hallow'⟩ := h.mayCall (rolesObeyed d _) ht'
  obtain ⟨l, hworks⟩ := works_of_polls hallow ho
  obtain ⟨l', hworks'⟩ := works_of_polls hallow' ho'
  obtain rfl := hholder.works_eq hv hworks hv' hworks'
  obtain ⟨u, holder, hu, hheld⟩ := hholder.holder hv hworks
  exact ⟨u, v, v', holder, _, hu, hheld, hv, hworks, hv', hworks'⟩

end Runs

/-! ## Sample runs -/

instance (d : Deployment ι) (w : World ι) (pre : List (Label (system ι))) (l : Label (system ι)) :
    Decidable (Unexpired d w pre l) := by
  unfold Unexpired
  rcases l with _ | ⟨t, ⟨o⟩ | _, ch, a⟩ | _
  case act.store => rcases o <;> infer_instance
  all_goals infer_instance

instance (d : Deployment ι) (pre : List (Label (system ι))) (l : Label (system ι)) :
    Decidable (TakesTurns d pre l) := by
  unfold TakesTurns
  rcases l with _ | ⟨t, ⟨o⟩ | _, ch, a⟩ | _
  case act.store => rcases o <;> infer_instance
  all_goals infer_instance

/-- The thread is about to fetch. -/
def fetching : Prog (Op ι) Ans Unit → Bool
  | .call (.fetch _ _) _ => true
  | _ => false

/-- Two passes of one instance overlap. -/
def overlappingHolders : List (Scene Sample) :=
  let policy := calm 5 (onePage [("a", "1")])
  [ .ask (instanceOf (sampleOf samplePoller) false) forced,
    .run 0 14 policy,
    .ask (instanceOf (sampleOf samplePoller) false) forced,
    .run 2 14 policy ]

set_option maxRecDepth 100000 in
/-- The second pass is granted the lease that the first one holds, and both are about to fetch. -/
theorem overlapping_passes_fetch : ∃ tr c,
    Run (system Sample) ((sampleOf samplePoller).entry EngineCall.KeepsKey)
      (World.fresh (sampleOf samplePoller).key) tr c ∧
    Throughout (Unexpired (sampleOf samplePoller) (World.fresh (sampleOf samplePoller).key)) tr ∧
    c.threads.countP fetching = 2 ∧ ¬ActivePoller (sampleOf samplePoller) tr c := by
  have hcast : Cast (sampleOf samplePoller) EngineCall.KeepsKey overlappingHolders :=
    .ask (instanceOf_in _ _) trivial (.run (.ask (instanceOf_in _ _) trivial (.run .nil)))
  obtain ⟨tr, c, hrun, hcheck⟩ := play_run hcast
    (fun tr c => decide (
      Throughout (Unexpired (sampleOf samplePoller) (World.fresh (sampleOf samplePoller).key)) tr ∧
      c.threads.countP fetching = 2 ∧
      (((deliveries (sampleOf samplePoller)).views tr)[0]?.bind ThreadView.held).isSome ∧
      (((deliveries (sampleOf samplePoller)).views tr)[2]?.bind ThreadView.held).isSome))
    (by decide +kernel)
  obtain ⟨hunexpired, hfetching, hfirst, hsecond⟩ := of_decide_eq_true hcheck
  obtain ⟨l, hl⟩ := Option.isSome_iff_exists.1 hfirst
  obtain ⟨l', hl'⟩ := Option.isSome_iff_exists.1 hsecond
  obtain ⟨v, hv, hheld⟩ := Option.bind_eq_some_iff.1 hl
  obtain ⟨v', hv', hheld'⟩ := Option.bind_eq_some_iff.1 hl'
  refine ⟨tr, c, hrun, hunexpired, hfetching, fun h => ?_⟩
  have hone := h.holder.one 0 2 v v' l l' hv hv' hheld hheld'
  cases hone

/-- A pass of another instance while a pass delivers, and one after it. -/
def alternatingPasses : List (Scene Sample) :=
  let policy := calm 5 (onePage [("a", "1")])
  let other := { instanceOf (sampleOf samplePoller) true with instanceId := "b" }
  [ .ask (instanceOf (sampleOf samplePoller) true) forced,
    .run 0 36 policy,
    .ask other forced,
    .run 3 200 policy,
    .run 2 30 policy,
    .run 0 200 policy,
    .ask other forced,
    .run 4 200 policy ]

set_option maxRecDepth 100000 in
theorem active_poller_sample : ∃ tr c,
    Run (system Sample) ((sampleOf samplePoller).entry EngineCall.KeepsKey)
      (World.fresh (sampleOf samplePoller).key) tr c ∧
    Throughout (Unexpired (sampleOf samplePoller) (World.fresh (sampleOf samplePoller).key)) tr ∧
    Throughout (TakesTurns (sampleOf samplePoller)) tr ∧ (deliveredIds tr).length = 1 ∧
    ActivePoller (sampleOf samplePoller) tr c := by
  have hcast : Cast (sampleOf samplePoller) EngineCall.KeepsKey alternatingPasses :=
    .ask (instanceOf_in _ _) trivial (.run (.ask ⟨rfl, rfl, rfl⟩ trivial
      (.run (.run (.run (.ask ⟨rfl, rfl, rfl⟩ trivial (.run .nil)))))))
  obtain ⟨tr, c, hrun, hcheck⟩ := play_run hcast
    (fun tr _ => decide (
      Throughout (Unexpired (sampleOf samplePoller) (World.fresh (sampleOf samplePoller).key)) tr ∧
      Throughout (TakesTurns (sampleOf samplePoller)) tr ∧ (deliveredIds tr).length = 1))
    (by decide +kernel)
  obtain ⟨hunexpired, hturns, hdelivered⟩ := of_decide_eq_true hcheck
  exact ⟨tr, c, hrun, hunexpired, hturns, hdelivered, active_poller hrun hunexpired hturns⟩

end Watukuy
