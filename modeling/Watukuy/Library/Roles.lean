import Watukuy.Library.Threads

/-!
# What started and forked threads know

A thread that is started begins with a view of its own; a thread that is forked begins with what the
call that forked it hands over. `Roles` adds this to a contract, and `Roles.views` lists what the
threads of a run know, one view for each thread.

* `Run.inRole`: when all programs obey their roles, every thread keeps to its view.
* `Run.roles`: an invariant of the steps, the views and the world may be proved one allowed step at a
  time, in runs all whose steps satisfy a condition.
* `Roles.views_alike`: two kinds of views of one run that show the same.
* `countP_modify`: how a step of one thread changes the number of threads of a kind.
-/

set_option autoImplicit false

namespace Watukuy.Library

variable {Op : Type} {Ans : Op → Type}

/-- A contract with the views that threads begin with. -/
structure Roles (M : Machine Op Ans) where
  contract : Contract Op Ans
  /-- The view of a started thread. -/
  origin : contract.View
  /-- The view of the threads a call forks. -/
  seed : (o : Op) → Ans o → contract.View

namespace Roles

variable {M : Machine Op Ans} (R : Roles M)

/-- What the threads know after one more step. -/
def step (vs : List R.contract.View) : Label M → List R.contract.View
  | .start _ => vs ++ [R.origin]
  | .act t o _ a =>
    vs.modify t (fun v => R.contract.learn v o a) ++
      List.replicate (M.forks o a).length (R.seed o a)
  | .drift _ => vs

/-- What the threads know after the steps `tr`. -/
def views (tr : List (Label M)) : List R.contract.View := tr.foldl R.step []

@[simp] theorem views_nil : R.views [] = [] := rfl

theorem views_append (tr : List (Label M)) (l : Label M) :
    R.views (tr ++ [l]) = R.step (R.views tr) l := by
  rw [views, List.foldl_append]
  rfl

/-- All programs keep to their roles. -/
structure Obeyed (entry : Prog Op Ans Unit → Prop) : Prop where
  entry_keeps : ∀ p, entry p → Keeps R.contract R.origin p
  forks_keep : ∀ v o (a : Ans o), R.contract.allow v o →
    ∀ p ∈ M.forks o a, Keeps R.contract (R.seed o a) p

end Roles

section Views

variable {M : Machine Op Ans} {R : Roles M} {vs : List R.contract.View} {t u : Nat} {o : Op}
  {ch : M.Choice} {a : Ans o} {v : R.contract.View}

/-- The threads after a step: the one that took it, the others, the new ones. -/
theorem step_act_cases (h : (R.step vs (.act t o ch a))[u]? = some v) :
    (∃ v₀, u = t ∧ vs[t]? = some v₀ ∧ v = R.contract.learn v₀ o a) ∨ (u ≠ t ∧ vs[u]? = some v) ∨
      (vs.length ≤ u ∧ v = R.seed o a ∧ M.forks o a ≠ []) := by
  simp only [Roles.step] at h
  rcases Nat.lt_or_ge u vs.length with hlt | hge
  · rw [List.getElem?_append_left (by simpa using hlt)] at h
    by_cases hu : t = u
    · subst hu
      rw [List.getElem?_modify_eq] at h
      obtain ⟨v₀, hv₀, rfl⟩ := Option.map_eq_some_iff.1 h
      exact Or.inl ⟨v₀, rfl, hv₀, rfl⟩
    · rw [List.getElem?_modify_ne _ _ hu] at h
      exact Or.inr (Or.inl ⟨fun heq => hu heq.symm, h⟩)
  · rw [List.getElem?_append_right (by simpa using hge)] at h
    have hmem := List.mem_of_getElem? h
    refine Or.inr (Or.inr ⟨hge, List.eq_of_mem_replicate hmem, ?_⟩)
    intro hnil
    rw [hnil] at hmem
    cases hmem

/-- The threads after a start. -/
theorem step_start_cases {p : Prog Op Ans Unit} (h : (R.step vs (.start p))[u]? = some v) :
    vs[u]? = some v ∨ (u = vs.length ∧ v = R.origin) := by
  simp only [Roles.step] at h
  rcases Nat.lt_or_ge u vs.length with hlt | hge
  · rw [List.getElem?_append_left hlt] at h
    exact Or.inl h
  · rw [List.getElem?_append_right hge] at h
    obtain ⟨hlt, rfl⟩ := List.getElem?_eq_some_iff.1 h
    simp only [List.length_singleton] at hlt
    refine Or.inr ⟨by omega, ?_⟩
    simp

/-- The thread that took the step. -/
theorem step_act_self (h : vs[t]? = some v) :
    (R.step vs (.act t o ch a))[t]? = some (R.contract.learn v o a) := by
  have hlt : t < vs.length := (List.getElem?_eq_some_iff.1 h).1
  simp only [Roles.step]
  rw [List.getElem?_append_left (by simpa using hlt), List.getElem?_modify_eq, h]
  rfl

/-- Another thread. -/
theorem step_act_other (hne : u ≠ t) (h : vs[u]? = some v) :
    (R.step vs (.act t o ch a))[u]? = some v := by
  have hlt : u < vs.length := (List.getElem?_eq_some_iff.1 h).1
  simp only [Roles.step]
  rw [List.getElem?_append_left (by simpa using hlt), List.getElem?_modify_ne _ _ hne.symm, h]

theorem step_start_old {p : Prog Op Ans Unit} (h : vs[u]? = some v) :
    (R.step vs (.start p))[u]? = some v := by
  have hlt : u < vs.length := (List.getElem?_eq_some_iff.1 h).1
  simp only [Roles.step]
  rw [List.getElem?_append_left hlt]
  exact h

end Views

section Alike

variable {M : Machine Op Ans} {β : Type}

/-- In two roles, the threads of a run show the same, when what a view shows after a step depends on
what it showed before. -/
theorem Roles.views_alike (R R' : Roles M) (f : R.contract.View → β) (f' : R'.contract.View → β)
    (origin : f R.origin = f' R'.origin)
    (seed : ∀ o (a : Ans o), f (R.seed o a) = f' (R'.seed o a))
    (learn : ∀ v v' o (a : Ans o), f v = f' v' →
      f (R.contract.learn v o a) = f' (R'.contract.learn v' o a)) (tr : List (Label M)) :
    (R.views tr).map f = (R'.views tr).map f' := by
  induction tr using List.reverseRecOn with
  | nil => rfl
  | append_singleton tr l ih =>
    rw [Roles.views_append, Roles.views_append]
    cases l with
    | start p => simp [Roles.step, ih, origin]
    | act t o ch a =>
      have hmodify : ∀ (vs : List R.contract.View) (vs' : List R'.contract.View),
          vs.map f = vs'.map f' →
          (vs.modify t fun v => R.contract.learn v o a).map f =
            (vs'.modify t fun v => R'.contract.learn v o a).map f' := by
        intro vs vs' heq
        refine List.ext_getElem? ?_
        intro i
        have hi : (vs[i]?).map f = (vs'[i]?).map f' := by
          rw [← List.getElem?_map, ← List.getElem?_map, heq]
        rw [List.getElem?_map, List.getElem?_map]
        by_cases hti : t = i
        · subst hti
          rw [List.getElem?_modify_eq, List.getElem?_modify_eq]
          cases hv : vs[t]? with
          | none =>
            rw [hv] at hi
            rw [Option.map_eq_none_iff.1 hi.symm]
            rfl
          | some v =>
            rw [hv] at hi
            obtain ⟨v', hv', hshow⟩ := Option.map_eq_some_iff.1 hi.symm
            rw [hv']
            exact congrArg some (learn v v' o a hshow.symm)
        · rw [List.getElem?_modify_ne _ _ hti, List.getElem?_modify_ne _ _ hti]
          exact hi
      simp only [Roles.step, List.map_append, List.map_replicate, seed]
      rw [hmodify _ _ ih]
    | drift x => exact ih

end Alike

/-- The number of elements of a kind, when one element changes. -/
theorem countP_modify {α : Type} (p : α → Bool) (f : α → α) {l : List α} {i : Nat} {x : α}
    (h : l[i]? = some x) :
    (l.modify i f).countP p + (if p x then 1 else 0) = l.countP p + (if p (f x) then 1 else 0) := by
  induction l generalizing i with
  | nil => simp at h
  | cons y l ih =>
    cases i with
    | zero =>
      obtain rfl : y = x := by simpa using h
      simp only [List.modify_zero_cons, List.countP_cons]
      omega
    | succ i =>
      have hrest := ih (by simpa using h)
      simp only [List.modify_succ_cons, List.countP_cons]
      omega

section Runs

variable {M : Machine Op Ans} {R : Roles M} {entry : Prog Op Ans Unit → Prop} {w : M.World}
  {tr : List (Label M)} {c : Config M}

/-- Each thread has a view and keeps to the contract in it. -/
structure Roles.Cast (R : Roles M) (vs : List R.contract.View) (threads : List (Prog Op Ans Unit)) :
    Prop where
  length : vs.length = threads.length
  keeps : ∀ (t : Nat) v p, vs[t]? = some v → threads[t]? = some p → Keeps R.contract v p

/-- Every thread of a run keeps to its role. -/
theorem Run.inRole (hO : R.Obeyed entry) (h : Run M entry w tr c) : R.Cast (R.views tr) c.threads := by
  induction h with
  | nil => exact ⟨rfl, fun t v p hv => by simp at hv⟩
  | @start tr c p h hp ih =>
    rw [Roles.views_append]
    refine ⟨by simp [Roles.step, ih.length], ?_⟩
    intro t v q hv hq
    rcases step_start_cases hv with hold | ⟨rfl, rfl⟩
    · have hlt : t < c.threads.length := by
        rw [← ih.length]
        exact (List.getElem?_eq_some_iff.1 hold).1
      rw [List.getElem?_append_left hlt] at hq
      exact ih.keeps t v q hold hq
    · rw [ih.length, List.getElem?_concat_length] at hq
      obtain rfl := Option.some.inj hq
      exact hO.entry_keeps _ hp
  | @act tr c t o k ch a w' h ht hw ih =>
    have hlt : t < c.threads.length := (List.getElem?_eq_some_iff.1 ht).1
    rw [Roles.views_append]
    refine ⟨by simp [Roles.step, Config.resume, ih.length], ?_⟩
    intro u v q hv hq
    simp only [Config.resume] at hq
    rcases step_act_cases hv with ⟨v₀, rfl, hv₀, rfl⟩ | ⟨hne, hold⟩ | ⟨hge, rfl, -⟩
    · rw [List.getElem?_append_left (by simpa using hlt), List.getElem?_set_self hlt] at hq
      obtain rfl := Option.some.inj hq
      exact (ih.keeps u v₀ _ hv₀ ht).2 a
    · have hu : u < c.threads.length := by
        rw [← ih.length]
        exact (List.getElem?_eq_some_iff.1 hold).1
      rw [List.getElem?_append_left (by simpa using hu), List.getElem?_set_ne hne.symm] at hq
      exact ih.keeps u v q hold hq
    · rw [ih.length] at hge
      rw [List.getElem?_append_right (by simpa using hge)] at hq
      have hself : t < (R.views tr).length := by
        rw [ih.length]
        exact hlt
      have hallow := (ih.keeps t _ _ (List.getElem?_eq_getElem hself) ht).1
      exact hO.forks_keep _ o a hallow q (List.mem_of_getElem? hq)
  | drift d h ih =>
    rw [Roles.views_append]
    exact ih

/-- The thread that takes a step has a view, and the view allows the call. -/
theorem Run.mayCall (hO : R.Obeyed entry) (h : Run M entry w tr c) {t : Nat} {o : Op}
    {k : Ans o → Prog Op Ans Unit} (ht : c.threads[t]? = some (.call o k)) :
    ∃ v, (R.views tr)[t]? = some v ∧ R.contract.allow v o := by
  have hcast := h.inRole hO
  have hlt : t < (R.views tr).length := by
    rw [hcast.length]
    exact (List.getElem?_eq_some_iff.1 ht).1
  have hview : (R.views tr)[t]? = some (R.views tr)[t] := List.getElem?_eq_getElem hlt
  exact ⟨_, hview, (hcast.keeps t _ _ hview ht).1⟩

/-- An invariant of the steps, the views and the world, in runs all whose steps satisfy `p`. -/
theorem Run.roles (hO : R.Obeyed entry) {p : List (Label M) → Label M → Prop}
    {J : List (Label M) → List R.contract.View → M.World → Prop} (init : J [] [] w)
    (start : ∀ tr c q, Run M entry w tr c → entry q → J tr (R.views tr) c.world →
      J (tr ++ [.start q]) (R.step (R.views tr) (.start q)) c.world)
    (act : ∀ tr c t o k ch a w' v, Run M entry w tr c → J tr (R.views tr) c.world →
      c.threads[t]? = some (.call o k) → (R.views tr)[t]? = some v → R.contract.allow v o →
      M.perform o ch c.world = some (a, w') → p tr (.act t o ch a) →
      J (tr ++ [.act t o ch a]) (R.step (R.views tr) (.act t o ch a)) w')
    (drift : ∀ tr c d, Run M entry w tr c → J tr (R.views tr) c.world →
      J (tr ++ [.drift d]) (R.views tr) (M.drift d c.world))
    (h : Run M entry w tr c) (hp : Throughout p tr) : J tr (R.views tr) c.world := by
  induction h with
  | nil => exact init
  | @start tr c q h hq ih =>
    rw [Roles.views_append]
    exact start tr c q h hq (ih (throughout_snoc.1 hp).1)
  | @act tr c t o k ch a w' h ht hw ih =>
    obtain ⟨hp, hl⟩ := throughout_snoc.1 hp
    obtain ⟨v, hv, hallow⟩ := h.mayCall hO ht
    rw [Roles.views_append]
    exact act tr c t o k ch a w' v h (ih hp) ht hv hallow hw hl
  | @drift tr c d h ih =>
    rw [Roles.views_append]
    exact drift tr c d h (ih (throughout_snoc.1 hp).1)

end Runs

end Watukuy.Library
