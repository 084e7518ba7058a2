import Watukuy.Library.Program
import Mathlib.Logic.Function.Basic
import Mathlib.Data.List.Induction

/-!
# Interleaved programs on a shared world

A machine performs the calls of programs on a world. What a call does may depend on a choice of
the environment (which failure strikes, what the clock reads, what a remote party answers). A run
interleaves any number of threads, started at any time; a thread that takes no further step is one
that crashed. A call may fork further threads, which then live on their own.

* `Run M entry w tr c`: from the world `w`, the steps `tr` lead to the configuration `c`, and every
  thread was started with a program of `entry` or forked.
* `Throughout p tr`: every step of the run satisfies `p` after the steps before it.
* `Contract.observe`: what a thread has learned in a run.
* `Run.allow`, `Run.invariant`, `Run.assume`: when all programs obey a contract, every call of a run
  is one it allows, and an invariant may be proved one allowed step at a time.
* `exec`, `exec_sound`: a run computed from a list of directives. `Machine.solo` runs one program alone.
-/

set_option autoImplicit false

namespace Watukuy.Library

variable {Op : Type} {Ans : Op → Type}

/-- Calls performed on a shared world. -/
structure Machine (Op : Type) (Ans : Op → Type) where
  World : Type
  /-- What the environment decides about one call. -/
  Choice : Type
  /-- What the environment may do between calls. -/
  Drift : Type
  perform : (o : Op) → Choice → World → Option (Ans o × World)
  /-- The threads a call leaves behind. -/
  forks : (o : Op) → Ans o → List (Prog Op Ans Unit)
  drift : Drift → World → World

/-- One step of a run. -/
inductive Label (M : Machine Op Ans) : Type where
  | start (p : Prog Op Ans Unit)
  | act (t : Nat) (o : Op) (c : M.Choice) (a : Ans o)
  | drift (d : M.Drift)

/-- The world and the threads, numbered in the order in which they came up. -/
structure Config (M : Machine Op Ans) where
  world : M.World
  threads : List (Prog Op Ans Unit)

/-- The configuration after thread `t` got the answer `a` to its call `o`. -/
def Config.resume {M : Machine Op Ans} (c : Config M) (t : Nat) (o : Op) (a : Ans o)
    (k : Ans o → Prog Op Ans Unit) (w : M.World) : Config M :=
  ⟨w, c.threads.set t (k a) ++ M.forks o a⟩

/-- The runs from the world `w` whose threads start with programs of `entry`. -/
inductive Run (M : Machine Op Ans) (entry : Prog Op Ans Unit → Prop) (w : M.World) :
    List (Label M) → Config M → Prop where
  | nil : Run M entry w [] ⟨w, []⟩
  | start {tr : List (Label M)} {c : Config M} {p : Prog Op Ans Unit} (h : Run M entry w tr c)
      (hp : entry p) : Run M entry w (tr ++ [.start p]) ⟨c.world, c.threads ++ [p]⟩
  | act {tr : List (Label M)} {c : Config M} {t : Nat} {o : Op} {k : Ans o → Prog Op Ans Unit}
      {ch : M.Choice} {a : Ans o} {w' : M.World} (h : Run M entry w tr c)
      (ht : c.threads[t]? = some (.call o k)) (hw : M.perform o ch c.world = some (a, w')) :
      Run M entry w (tr ++ [.act t o ch a]) (c.resume t o a k w')
  | drift {tr : List (Label M)} {c : Config M} (d : M.Drift) (h : Run M entry w tr c) :
      Run M entry w (tr ++ [.drift d]) ⟨M.drift d c.world, c.threads⟩

namespace Run

variable {M : Machine Op Ans} {entry : Prog Op Ans Unit → Prop} {w : M.World}

theorem mono {entry' : Prog Op Ans Unit → Prop} (h : ∀ p, entry p → entry' p)
    {tr : List (Label M)} {c : Config M} (hr : Run M entry w tr c) : Run M entry' w tr c := by
  induction hr with
  | nil => exact .nil
  | start _ hp ih => exact .start ih (h _ hp)
  | act _ ht hw ih => exact .act ih ht hw
  | drift d _ ih => exact .drift d ih

/-- The last step of a nonempty run. -/
inductive Last (M : Machine Op Ans) (entry : Prog Op Ans Unit → Prop) (w : M.World)
    (tr : List (Label M)) : Label M → Config M → Prop where
  | start {c : Config M} {p : Prog Op Ans Unit} (h : Run M entry w tr c) (hp : entry p) :
      Last M entry w tr (.start p) ⟨c.world, c.threads ++ [p]⟩
  | act {c : Config M} {t : Nat} {o : Op} {k : Ans o → Prog Op Ans Unit} {ch : M.Choice}
      {a : Ans o} {w' : M.World} (h : Run M entry w tr c)
      (ht : c.threads[t]? = some (.call o k)) (hw : M.perform o ch c.world = some (a, w')) :
      Last M entry w tr (.act t o ch a) (c.resume t o a k w')
  | drift {c : Config M} (d : M.Drift) (h : Run M entry w tr c) :
      Last M entry w tr (.drift d) ⟨M.drift d c.world, c.threads⟩

theorem last {tr : List (Label M)} {l : Label M} {c : Config M}
    (h : Run M entry w (tr ++ [l]) c) : Last M entry w tr l c := by
  generalize htr : tr ++ [l] = tr' at h
  cases h with
  | nil => simp at htr
  | start h hp =>
    obtain ⟨rfl, hl⟩ := List.append_inj' htr rfl
    obtain rfl := List.singleton_inj.1 hl
    exact .start h hp
  | act h ht hw =>
    obtain ⟨rfl, hl⟩ := List.append_inj' htr rfl
    obtain rfl := List.singleton_inj.1 hl
    exact .act h ht hw
  | drift d h =>
    obtain ⟨rfl, hl⟩ := List.append_inj' htr rfl
    obtain rfl := List.singleton_inj.1 hl
    exact .drift d h

/-- Every prefix of a run is a run. -/
theorem prefix_run {tr₁ tr₂ : List (Label M)} {c : Config M}
    (h : Run M entry w (tr₁ ++ tr₂) c) : ∃ c₁, Run M entry w tr₁ c₁ := by
  induction tr₂ using List.reverseRecOn generalizing c with
  | nil => exact ⟨c, by simpa using h⟩
  | append_singleton tr₂ l ih =>
    rw [← List.append_assoc] at h
    cases h.last with
    | start hr _ => exact ih hr
    | act hr _ _ => exact ih hr
    | drift _ hr => exact ih hr

/-- Every call of a run was made by a thread of the configuration before it. -/
theorem act_at {pre post : List (Label M)} {t : Nat} {o : Op} {ch : M.Choice} {a : Ans o}
    {c : Config M} (h : Run M entry w (pre ++ .act t o ch a :: post) c) :
    ∃ (c₁ : Config M) (k : Ans o → Prog Op Ans Unit) (w' : M.World), Run M entry w pre c₁ ∧
      c₁.threads[t]? = some (.call o k) ∧ M.perform o ch c₁.world = some (a, w') := by
  have hsplit : pre ++ .act t o ch a :: post = (pre ++ [.act t o ch a]) ++ post := by simp
  rw [hsplit] at h
  obtain ⟨c₂, h₂⟩ := h.prefix_run
  cases h₂.last with
  | act hr ht hw => exact ⟨_, _, _, hr, ht, hw⟩

end Run

/-! ## Single steps -/

/-- One step of a run, on configurations. -/
inductive Step (M : Machine Op Ans) (entry : Prog Op Ans Unit → Prop) (c : Config M) :
    Label M → Config M → Prop where
  | start {p : Prog Op Ans Unit} (hp : entry p) : Step M entry c (.start p) ⟨c.world, c.threads ++ [p]⟩
  | act {t : Nat} {o : Op} {k : Ans o → Prog Op Ans Unit} {ch : M.Choice} {a : Ans o} {w' : M.World}
      (ht : c.threads[t]? = some (.call o k)) (hw : M.perform o ch c.world = some (a, w')) :
      Step M entry c (.act t o ch a) (c.resume t o a k w')
  | drift (d : M.Drift) : Step M entry c (.drift d) ⟨M.drift d c.world, c.threads⟩

theorem Run.step {M : Machine Op Ans} {entry : Prog Op Ans Unit → Prop} {w : M.World}
    {tr : List (Label M)} {l : Label M} {c c' : Config M} (h : Run M entry w tr c)
    (hs : Step M entry c l c') : Run M entry w (tr ++ [l]) c' := by
  cases hs with
  | start hp => exact .start h hp
  | act ht hw => exact .act h ht hw
  | drift d => exact .drift d h

/-! ## The world after given steps -/

section After

variable {M : Machine Op Ans}

/-- The world after a step. -/
def Machine.afterStep (M : Machine Op Ans) (w : M.World) : Label M → M.World
  | .start _ => w
  | .act _ o ch _ =>
    match M.perform o ch w with
    | some (_, w') => w'
    | none => w
  | .drift d => M.drift d w

/-- The world after the steps `tr`. -/
def Machine.after (M : Machine Op Ans) (w : M.World) (tr : List (Label M)) : M.World :=
  tr.foldl M.afterStep w

theorem after_append (w : M.World) (tr : List (Label M)) (l : Label M) :
    M.after w (tr ++ [l]) = M.afterStep (M.after w tr) l := by
  simp [Machine.after]

/-- A run leads to the world after its steps. -/
theorem Run.world_eq {entry : Prog Op Ans Unit → Prop} {w : M.World} {tr : List (Label M)}
    {c : Config M} (h : Run M entry w tr c) : c.world = M.after w tr := by
  induction h with
  | nil => rfl
  | start h hp ih =>
    rw [after_append, ← ih]
    rfl
  | act h ht hw ih =>
    rw [after_append, ← ih]
    simp only [Machine.afterStep]
    rw [hw]
    rfl
  | drift d h ih =>
    rw [after_append, ← ih]
    rfl

end After

/-! ## Properties of all steps -/

section Throughout

variable {M : Machine Op Ans} {p q : List (Label M) → Label M → Prop} {tr : List (Label M)}
  {l : Label M}

/-- Every step satisfies `p` after the steps before it. -/
def Throughout (p : List (Label M) → Label M → Prop) (tr : List (Label M)) : Prop :=
  ∀ pre l post, tr = pre ++ l :: post → p pre l

theorem throughout_nil : Throughout p ([] : List (Label M)) := by
  intro pre l post h
  simp at h

theorem throughout_snoc : Throughout p (tr ++ [l]) ↔ Throughout p tr ∧ p tr l := by
  constructor
  · intro h
    refine ⟨fun pre l' post heq => h pre l' (post ++ [l]) ?_, h tr l [] rfl⟩
    rw [heq]
    simp
  · rintro ⟨h, hl⟩ pre l' post heq
    rcases List.eq_nil_or_concat post with rfl | ⟨post, last, rfl⟩
    · obtain ⟨rfl, hlast⟩ := List.append_inj' heq rfl
      obtain rfl := List.singleton_inj.1 hlast
      exact hl
    · have hsplit : tr ++ [l] = (pre ++ l' :: post) ++ [last] := by simpa using heq
      exact h pre l' post (List.append_inj' hsplit rfl).1

theorem Throughout.mono (h : ∀ pre l, p pre l → q pre l) (hp : Throughout p tr) : Throughout q tr :=
  fun pre l post heq => h pre l (hp pre l post heq)

theorem Throughout.take {post : List (Label M)} (h : Throughout p (tr ++ post)) : Throughout p tr := by
  intro pre l rest heq
  refine h pre l (rest ++ post) ?_
  rw [heq]
  simp

theorem throughout_iff :
    Throughout p tr ↔ ∀ i ∈ List.range tr.length, ∀ l ∈ tr[i]?, p (tr.take i) l := by
  constructor
  · intro h i _ l hl
    obtain ⟨hlt, heq⟩ := List.getElem?_eq_some_iff.1 hl
    refine h (tr.take i) l (tr.drop (i + 1)) ?_
    rw [← heq, List.getElem_cons_drop, List.take_append_drop]
  · rintro h pre l post rfl
    have hi := h pre.length (by simp) l (by simp)
    simpa using hi

instance [∀ pre l, Decidable (p pre l)] : Decidable (Throughout p tr) :=
  decidable_of_iff _ throughout_iff.symm

end Throughout

/-! ## What the threads of a run observe -/

section Observe

variable {M : Machine Op Ans} {entry : Prog Op Ans Unit → Prop} {w : M.World}
  {C : Contract Op Ans} {v₀ : C.View}

/-- The view of thread `t` after one step. -/
def Contract.observeStep (C : Contract Op Ans) (t : Nat) (v : C.View) : Label M → C.View
  | .act t' o _ a => if t' = t then C.learn v o a else v
  | _ => v

/-- The view of thread `t` after the steps `tr`: what it learned from the answers to its calls. -/
def Contract.observe (C : Contract Op Ans) (v₀ : C.View) (t : Nat) (tr : List (Label M)) :
    C.View :=
  tr.foldl (C.observeStep t) v₀

@[simp] theorem observe_nil (t : Nat) : C.observe v₀ t ([] : List (Label M)) = v₀ := rfl

theorem observe_append (t : Nat) (tr : List (Label M)) (l : Label M) :
    C.observe v₀ t (tr ++ [l]) = C.observeStep t (C.observe v₀ t tr) l := by
  rw [Contract.observe, List.foldl_append]
  rfl

@[simp] theorem observe_start (t : Nat) (tr : List (Label M)) (p : Prog Op Ans Unit) :
    C.observe v₀ t (tr ++ [.start p]) = C.observe v₀ t tr := observe_append t tr _

@[simp] theorem observe_drift (t : Nat) (tr : List (Label M)) (d : M.Drift) :
    C.observe v₀ t (tr ++ [.drift d]) = C.observe v₀ t tr := observe_append t tr _

@[simp] theorem observe_act_self (t : Nat) (tr : List (Label M)) (o : Op) (ch : M.Choice)
    (a : Ans o) :
    C.observe v₀ t (tr ++ [.act t o ch a]) = C.learn (C.observe v₀ t tr) o a := by
  rw [observe_append, Contract.observeStep, if_pos rfl]

theorem observe_act_ne {t t' : Nat} (h : t' ≠ t) (tr : List (Label M)) (o : Op) (ch : M.Choice)
    (a : Ans o) : C.observe v₀ t (tr ++ [.act t' o ch a]) = C.observe v₀ t tr := by
  rw [observe_append, Contract.observeStep, if_neg h]

/-- A program that keeps to the contract `C` from the view `v`. -/
def Keeps (C : Contract Op Ans) (v : C.View) (p : Prog Op Ans Unit) : Prop :=
  p.wp C (fun _ _ => True) v

/-- Every program that may come up keeps to the contract from the view `v₀`. -/
structure Obeys (M : Machine Op Ans) (entry : Prog Op Ans Unit → Prop) (C : Contract Op Ans)
    (v₀ : C.View) : Prop where
  entry_keeps : ∀ p, entry p → Keeps C v₀ p
  forks_keep : ∀ o (a : Ans o), ∀ p ∈ M.forks o a, Keeps C v₀ p

/-- The threads keep to the contract in their views; a thread that is not there has seen nothing. -/
structure Kept (C : Contract Op Ans) (v₀ : C.View) (threads : List (Prog Op Ans Unit))
    (views : Nat → C.View) : Prop where
  keeps : ∀ t p, threads[t]? = some p → Keeps C (views t) p
  fresh : ∀ t, threads.length ≤ t → views t = v₀

theorem Kept.append {threads : List (Prog Op Ans Unit)} {views : Nat → C.View}
    (h : Kept C v₀ threads views) {ps : List (Prog Op Ans Unit)} (hps : ∀ p ∈ ps, Keeps C v₀ p) :
    Kept C v₀ (threads ++ ps) views := by
  refine ⟨fun t p ht => ?_, fun t ht => ?_⟩
  · rcases Nat.lt_or_ge t threads.length with hlt | hge
    · rw [List.getElem?_append_left hlt] at ht
      exact h.keeps t p ht
    · rw [List.getElem?_append_right hge] at ht
      rw [h.fresh t hge]
      exact hps p (List.mem_of_getElem? ht)
  · rw [List.length_append] at ht
    exact h.fresh t (by omega)

theorem Kept.set {threads : List (Prog Op Ans Unit)} {views views' : Nat → C.View}
    (h : Kept C v₀ threads views) {t : Nat} (hlt : t < threads.length) {p : Prog Op Ans Unit}
    (hp : Keeps C (views' t) p) (hne : ∀ t', t' ≠ t → views' t' = views t') :
    Kept C v₀ (threads.set t p) views' := by
  refine ⟨fun t' p' ht' => ?_, fun t' ht' => ?_⟩
  · rcases eq_or_ne t' t with rfl | heq
    · rw [List.getElem?_set_self hlt, Option.some.injEq] at ht'
      rw [← ht']
      exact hp
    · rw [List.getElem?_set_ne (Ne.symm heq)] at ht'
      rw [hne t' heq]
      exact h.keeps t' p' ht'
  · rw [List.length_set] at ht'
    rw [hne t' (by omega)]
    exact h.fresh t' ht'

/-- In a run of programs that obey a contract, every thread keeps to it in its view. -/
theorem Run.kept (hO : Obeys M entry C v₀) {tr : List (Label M)} {c : Config M}
    (h : Run M entry w tr c) : Kept C v₀ c.threads fun t => C.observe v₀ t tr := by
  induction h with
  | nil => exact ⟨fun t p ht => by simp at ht, fun _ _ => rfl⟩
  | start h hp ih =>
    simp only [observe_start]
    refine ih.append fun q hq => ?_
    rw [List.mem_singleton.1 hq]
    exact hO.entry_keeps _ hp
  | @act tr c t o k ch a w' h ht hw ih =>
    have hlt : t < c.threads.length := (List.getElem?_eq_some_iff.1 ht).1
    have hcall : Keeps C (C.observe v₀ t tr) (.call o k) := ih.keeps t _ ht
    refine (ih.set hlt ?_ fun t' hne => observe_act_ne (Ne.symm hne) tr o ch a).append
      (hO.forks_keep o a)
    rw [observe_act_self]
    exact hcall.2 a
  | drift d h ih =>
    simp only [observe_drift]
    exact ih

/-- In a run of programs that obey a contract, every call is one the contract allows. -/
theorem Run.allow (hO : Obeys M entry C v₀) {tr : List (Label M)} {c : Config M} {t : Nat}
    {o : Op} {k : Ans o → Prog Op Ans Unit} (h : Run M entry w tr c)
    (ht : c.threads[t]? = some (.call o k)) : C.allow (C.observe v₀ t tr) o :=
  ((h.kept hO).keeps t _ ht).1

/-- An invariant of the steps taken and the world may be proved one allowed step at a time. -/
theorem Run.invariant (hO : Obeys M entry C v₀) {J : List (Label M) → M.World → Prop}
    (init : J [] w)
    (start : ∀ tr c p, Run M entry w tr c → J tr c.world → J (tr ++ [.start p]) c.world)
    (act : ∀ tr c t o ch a w', Run M entry w tr c → J tr c.world →
      C.allow (C.observe v₀ t tr) o → M.perform o ch c.world = some (a, w') →
      J (tr ++ [.act t o ch a]) w')
    (drift : ∀ tr c d, Run M entry w tr c → J tr c.world →
      J (tr ++ [.drift d]) (M.drift d c.world))
    {tr : List (Label M)} {c : Config M} (h : Run M entry w tr c) : J tr c.world := by
  induction h with
  | nil => exact init
  | @start tr c p h _ ih => exact start tr c p h ih
  | @act tr c t o k ch a w' h ht hw ih => exact act tr c t o ch a w' h ih (h.allow hO ht) hw
  | @drift tr c d h ih => exact drift tr c d h ih

/-- The same in runs all whose steps satisfy `p`. -/
theorem Run.assume (hO : Obeys M entry C v₀) {p : List (Label M) → Label M → Prop}
    {J : List (Label M) → M.World → Prop} (init : J [] w)
    (start : ∀ tr c q, Run M entry w tr c → J tr c.world → J (tr ++ [.start q]) c.world)
    (act : ∀ tr c t o ch a w', Run M entry w tr c → J tr c.world →
      C.allow (C.observe v₀ t tr) o → M.perform o ch c.world = some (a, w') →
      p tr (.act t o ch a) → J (tr ++ [.act t o ch a]) w')
    (drift : ∀ tr c d, Run M entry w tr c → J tr c.world →
      J (tr ++ [.drift d]) (M.drift d c.world))
    {tr : List (Label M)} {c : Config M} (h : Run M entry w tr c) (hp : Throughout p tr) :
    J tr c.world := by
  refine Run.invariant hO (J := fun tr w => Throughout p tr → J tr w) (fun _ => init) ?_ ?_ ?_ h hp
  · intro tr c q hr hJ hp
    exact start tr c q hr (hJ (throughout_snoc.1 hp).1)
  · intro tr c t o ch a w' hr hJ hallow hw hp
    obtain ⟨hp, hl⟩ := throughout_snoc.1 hp
    exact act tr c t o ch a w' hr (hJ hp) hallow hw hl
  · intro tr c d hr hJ hp
    exact drift tr c d hr (hJ (throughout_snoc.1 hp).1)

end Observe

/-! ## Runs by directives -/

/-- An order to the machine: start a program, let a thread take up to `n` steps under a policy for
the choices, or drift. -/
inductive Directive (M : Machine Op Ans) : Type where
  | start (p : Prog Op Ans Unit)
  | run (t n : Nat) (policy : Op → M.Choice)
  | drift (d : M.Drift)

variable {M : Machine Op Ans}

/-- Up to `n` steps of thread `t`; fewer when it ends. -/
def execRun (t : Nat) (policy : Op → M.Choice) :
    Nat → Config M → Option (List (Label M) × Config M)
  | 0, c => some ([], c)
  | n + 1, c =>
    match c.threads[t]? with
    | some (.call o k) =>
      match M.perform o (policy o) c.world with
      | some (a, w') =>
        match execRun t policy n (c.resume t o a k w') with
        | some (tr, c') => some (.act t o (policy o) a :: tr, c')
        | none => none
      | none => none
    | _ => some ([], c)

/-- Carry out a list of directives. -/
def exec : Config M → List (Directive M) → Option (List (Label M) × Config M)
  | c, [] => some ([], c)
  | c, d :: ds =>
    let first :=
      match d with
      | .start p => some ([.start p], ⟨c.world, c.threads ++ [p]⟩)
      | .run t n policy => execRun t policy n c
      | .drift d => some ([.drift d], ⟨M.drift d c.world, c.threads⟩)
    match first with
    | none => none
    | some (tr, c') =>
      match exec c' ds with
      | none => none
      | some (tr', c'') => some (tr ++ tr', c'')

/-! A program that runs alone -/

/-- Run a program alone, for at most `n` calls: its result, and the view of `C` at its end. -/
def Machine.solo {α : Type} (M : Machine Op Ans) (C : Contract Op Ans) (policy : Op → M.Choice) :
    Nat → Prog Op Ans α → C.View → M.World → Option (α × C.View)
  | _, .ret a, v, _ => some (a, v)
  | 0, .call _ _, _, _ => none
  | n + 1, .call o k, v, w =>
    match M.perform o (policy o) w with
    | some (a, w') => M.solo C policy n (k a) (C.learn v o a) w'
    | none => none

/-- What a program guarantees, it guarantees when it runs alone. -/
theorem solo_post {α : Type} {C : Contract Op Ans} {policy : Op → M.Choice} {n : Nat}
    {p : Prog Op Ans α} {Q : α → C.View → Prop} {v v' : C.View} {w : M.World} {a : α} (h : p.wp C Q v)
    (hs : M.solo C policy n p v w = some (a, v')) : Q a v' := by
  induction n generalizing p v w with
  | zero =>
    cases p with
    | ret b =>
      obtain ⟨rfl, rfl⟩ := Prod.mk.inj (Option.some.inj hs)
      exact h
    | call o k => cases hs
  | succ n ih =>
    cases p with
    | ret b =>
      obtain ⟨rfl, rfl⟩ := Prod.mk.inj (Option.some.inj hs)
      exact h
    | call o k =>
      simp only [Machine.solo] at hs
      split at hs
      · exact ih (h.2 _) hs
      · cases hs

variable {entry : Prog Op Ans Unit → Prop} {w : M.World}

theorem execRun_sound {t : Nat} {policy : Op → M.Choice} {n : Nat} {tr tr' : List (Label M)}
    {c c' : Config M} (h : Run M entry w tr c) (he : execRun t policy n c = some (tr', c')) :
    Run M entry w (tr ++ tr') c' := by
  induction n generalizing tr tr' c with
  | zero =>
    obtain ⟨rfl, rfl⟩ := Prod.mk.inj (Option.some.inj he)
    rw [List.append_nil]
    exact h
  | succ n ih =>
    unfold execRun at he
    split at he
    · rename_i o k ht
      split at he
      · rename_i a w' hw
        split at he
        · rename_i tr₁ c₁ hrest
          obtain ⟨rfl, rfl⟩ := Prod.mk.inj (Option.some.inj he)
          have hrun := ih (.act h ht hw) hrest
          rw [List.append_assoc] at hrun
          exact hrun
        · cases he
      · cases he
    · obtain ⟨rfl, rfl⟩ := Prod.mk.inj (Option.some.inj he)
      rw [List.append_nil]
      exact h

/-- What `exec` computes is a run. -/
theorem exec_sound {tr tr' : List (Label M)} {c c' : Config M} {ds : List (Directive M)}
    (h : Run M entry w tr c) (hds : ∀ p, .start p ∈ ds → entry p)
    (he : exec c ds = some (tr', c')) : Run M entry w (tr ++ tr') c' := by
  induction ds generalizing tr tr' c with
  | nil =>
    obtain ⟨rfl, rfl⟩ := Prod.mk.inj (Option.some.inj he)
    rw [List.append_nil]
    exact h
  | cons d ds ih =>
    unfold exec at he
    dsimp only at he
    split at he
    · cases he
    · rename_i tr₁ c₁ hfirst
      split at he
      · cases he
      · rename_i tr₂ c₂ hrest
        obtain ⟨rfl, rfl⟩ := Prod.mk.inj (Option.some.inj he)
        have hstep : Run M entry w (tr ++ tr₁) c₁ := by
          cases d with
          | start p =>
            obtain ⟨rfl, rfl⟩ := Prod.mk.inj (Option.some.inj hfirst)
            exact .start h (hds p List.mem_cons_self)
          | run t n policy => exact execRun_sound h hfirst
          | drift d =>
            obtain ⟨rfl, rfl⟩ := Prod.mk.inj (Option.some.inj hfirst)
            exact .drift d h
        have hrun := ih hstep (fun p hp => hds p (List.mem_cons_of_mem d hp)) hrest
        rw [List.append_assoc] at hrun
        exact hrun

/-- The environment of what `execRun` computes decides by the policy. -/
theorem execRun_choice {t : Nat} {policy : Op → M.Choice} {n : Nat} {tr : List (Label M)}
    {c c' : Config M} (he : execRun t policy n c = some (tr, c')) {t' : Nat} {o : Op} {ch : M.Choice}
    {a : Ans o} (hmem : .act t' o ch a ∈ tr) : ch = policy o := by
  induction n generalizing tr c with
  | zero =>
    obtain ⟨rfl, rfl⟩ := Prod.mk.inj (Option.some.inj he)
    cases hmem
  | succ n ih =>
    unfold execRun at he
    split at he
    · split at he
      · split at he
        · rename_i tr₁ c₁ hrest
          obtain ⟨rfl, rfl⟩ := Prod.mk.inj (Option.some.inj he)
          rcases List.mem_cons.1 hmem with heq | hmem
          · cases heq
            rfl
          · exact ih hrest hmem
        · cases he
      · cases he
    · obtain ⟨rfl, rfl⟩ := Prod.mk.inj (Option.some.inj he)
      cases hmem

/-- The environment of what `exec` computes decides by the policies of the directives. -/
theorem exec_choice {tr : List (Label M)} {c c' : Config M} {ds : List (Directive M)}
    (he : exec c ds = some (tr, c')) {t : Nat} {o : Op} {ch : M.Choice} {a : Ans o}
    (hmem : .act t o ch a ∈ tr) : ∃ t' n policy, .run t' n policy ∈ ds ∧ ch = policy o := by
  induction ds generalizing tr c with
  | nil =>
    obtain ⟨rfl, rfl⟩ := Prod.mk.inj (Option.some.inj he)
    cases hmem
  | cons d ds ih =>
    unfold exec at he
    dsimp only at he
    split at he
    · cases he
    · rename_i tr₁ c₁ hfirst
      split at he
      · cases he
      · rename_i tr₂ c₂ hrest
        obtain ⟨rfl, rfl⟩ := Prod.mk.inj (Option.some.inj he)
        rcases List.mem_append.1 hmem with hmem | hmem
        · cases d with
          | start p =>
            obtain ⟨rfl, rfl⟩ := Prod.mk.inj (Option.some.inj hfirst)
            cases List.mem_singleton.1 hmem
          | run t' n policy => exact ⟨t', n, policy, List.mem_cons_self, execRun_choice hfirst hmem⟩
          | drift d =>
            obtain ⟨rfl, rfl⟩ := Prod.mk.inj (Option.some.inj hfirst)
            cases List.mem_singleton.1 hmem
        · obtain ⟨t', n, policy, hd, hch⟩ := ih hrest hmem
          exact ⟨t', n, policy, List.mem_cons_of_mem _ hd, hch⟩

/-- A check of what `exec` computes is a check of a run whose environment decides by the policies. -/
theorem exec_run_choice {w : M.World} {ds : List (Directive M)} (hds : ∀ p, .start p ∈ ds → entry p)
    (check : List (Label M) → Config M → Bool)
    (h : (exec ⟨w, []⟩ ds).any (fun r => check r.1 r.2) = true) :
    ∃ tr c, Run M entry w tr c ∧ check tr c = true ∧
      ∀ (t : Nat) (o : Op) (ch : M.Choice) (a : Ans o), .act t o ch a ∈ tr →
        ∃ t' n policy, .run t' n policy ∈ ds ∧ ch = policy o := by
  cases hexec : exec ⟨w, []⟩ ds with
  | none =>
    rw [hexec] at h
    cases h
  | some r =>
    rw [hexec] at h
    have hrun : Run M entry w ([] ++ r.1) r.2 := exec_sound .nil hds hexec
    rw [List.nil_append] at hrun
    exact ⟨r.1, r.2, hrun, h, fun t o ch a hmem => exec_choice hexec hmem⟩

/-- A check of what `exec` computes is a check of a run. -/
theorem exec_run {w : M.World} {ds : List (Directive M)} (hds : ∀ p, .start p ∈ ds → entry p)
    (check : List (Label M) → Config M → Bool)
    (h : (exec ⟨w, []⟩ ds).any (fun r => check r.1 r.2) = true) :
    ∃ tr c, Run M entry w tr c ∧ check tr c = true := by
  obtain ⟨tr, c, hrun, hcheck, -⟩ := exec_run_choice hds check h
  exact ⟨tr, c, hrun, hcheck⟩

end Watukuy.Library
