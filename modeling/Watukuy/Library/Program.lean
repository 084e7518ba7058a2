import Mathlib.Logic.Basic

/-!
# Programs over a signature of calls, and contracts on them

A program is a tree of calls: each node names an operation and continues with every possible
answer. A contract says which operation a caller may issue in view of the answers it has received
so far. `Prog.wp` is the weakest precondition of a program under a contract: from a view that
satisfies it, every call on every path of the program is allowed, and the results satisfy the
postcondition.

`Task` adds failures (a promise that may reject) and `Block` adds local variables that survive a
failure (the body of an async function, whose `catch` still sees what was assigned before the
throw). The `wp` of each construct is a rewriting rule.
-/

set_option autoImplicit false

namespace Watukuy.Library

variable {Op : Type} {Ans : Op → Type} {α β σ ε : Type}

/-- A program: it returns, or issues a call and continues with its answer. -/
inductive Prog (Op : Type) (Ans : Op → Type) (α : Type) : Type where
  | ret (a : α)
  | call (o : Op) (k : Ans o → Prog Op Ans α)

namespace Prog

/-- Sequencing. -/
def bind : Prog Op Ans α → (α → Prog Op Ans β) → Prog Op Ans β
  | .ret a, f => f a
  | .call o k, f => .call o fun x => (k x).bind f

instance : Monad (Prog Op Ans) where
  pure := .ret
  bind := bind

end Prog

/-- What a caller may do. `allow v o`: the operation `o` may be issued in the view `v`.
`learn v o a`: the view after the answer `a`. -/
structure Contract (Op : Type) (Ans : Op → Type) where
  View : Type
  allow : View → Op → Prop
  learn : View → (o : Op) → Ans o → View

namespace Prog

variable (C : Contract Op Ans)

/-- Weakest precondition of a program under the contract `C`. -/
def wp : Prog Op Ans α → (α → C.View → Prop) → C.View → Prop
  | .ret a, Q, v => Q a v
  | .call o k, Q, v => C.allow v o ∧ ∀ a, (k a).wp Q (C.learn v o a)

variable {C}

theorem wp_bind (p : Prog Op Ans α) (f : α → Prog Op Ans β) (Q : β → C.View → Prop)
    (v : C.View) : (p.bind f).wp C Q v ↔ p.wp C (fun a w => (f a).wp C Q w) v := by
  induction p generalizing v with
  | ret a => rfl
  | call o k ih =>
    simp only [bind, wp]
    exact and_congr_right fun _ => forall_congr' fun a => ih a _

/-- The postcondition may be weakened. -/
theorem wp_mono {p : Prog Op Ans α} {Q Q' : α → C.View → Prop} (h : ∀ a v, Q a v → Q' a v)
    {v : C.View} (hp : p.wp C Q v) : p.wp C Q' v := by
  induction p generalizing v with
  | ret a => exact h a v hp
  | call o k ih => exact ⟨hp.1, fun a => ih a (hp.2 a)⟩

end Prog

/-- The contract that allows the operations of `S` and records nothing. -/
def only (S : Op → Prop) : Contract Op Ans where
  View := Unit
  allow _ o := S o
  learn _ _ _ := ()

namespace Prog

/-- Every call of the program is an operation of `S`. -/
def Uses (S : Op → Prop) (p : Prog Op Ans α) : Prop :=
  p.wp (only S) (fun _ _ => True) ()

/-- A program whose operations are allowed in the view `v` and leave it as it is keeps `v`. -/
theorem Uses.wp_const {C : Contract Op Ans} {S : Op → Prop} {p : Prog Op Ans α}
    (hp : p.Uses S) {v : C.View}
    (hS : ∀ o, S o → C.allow v o ∧ ∀ a, C.learn v o a = v) {Q : α → C.View → Prop}
    (hQ : ∀ a, Q a v) : p.wp C Q v := by
  induction p with
  | ret a => exact hQ a
  | call o k ih =>
    refine ⟨(hS o hp.1).1, fun a => ?_⟩
    rw [(hS o hp.1).2 a]
    exact ih a (hp.2 a)

/-- A program whose operations are allowed wherever `I` holds and preserve `I` keeps `I`. -/
theorem Uses.wp_inv {C : Contract Op Ans} {S : Op → Prop} {p : Prog Op Ans α} (hp : p.Uses S)
    {I : C.View → Prop}
    (hS : ∀ v o, I v → S o → C.allow v o ∧ ∀ a, I (C.learn v o a)) {Q : α → C.View → Prop}
    (hQ : ∀ a v, I v → Q a v) {v : C.View} (hv : I v) : p.wp C Q v := by
  induction p generalizing v with
  | ret a => exact hQ a v hv
  | call o k ih =>
    obtain ⟨ha, hi⟩ := hS v o hv hp.1
    exact ⟨ha, fun a => ih a (hp.2 a) (hi a)⟩

/-- What a contract allows in the views with `I` are the operations of a program that keeps to it. -/
theorem uses_of_wp {C : Contract Op Ans} {S : Op → Prop} {I : C.View → Prop}
    (hS : ∀ v o, I v → C.allow v o → S o ∧ ∀ a, I (C.learn v o a)) {p : Prog Op Ans α}
    {Q : α → C.View → Prop} {v : C.View} (hv : I v) (hp : p.wp C Q v) : p.Uses S := by
  induction p generalizing v with
  | ret a => trivial
  | call o k ih =>
    obtain ⟨ho, hlearn⟩ := hS v o hv hp.1
    exact ⟨ho, fun a => ih a (hlearn a) (hp.2 a)⟩

theorem Uses.mono {S S' : Op → Prop} (h : ∀ o, S o → S' o) {p : Prog Op Ans α} (hp : p.Uses S) :
    p.Uses S' := by
  induction p with
  | ret a => trivial
  | call o k ih => exact ⟨h o hp.1, fun a => ih a (hp.2 a)⟩

end Prog

/-! ## Two contracts at once -/

/-- What two contracts allow and record. -/
@[reducible] def Contract.both (C D : Contract Op Ans) : Contract Op Ans where
  View := C.View × D.View
  allow x o := C.allow x.1 o ∧ D.allow x.2 o
  learn x o a := (C.learn x.1 o a, D.learn x.2 o a)

namespace Prog

variable {C D : Contract Op Ans}

/-- A program that keeps to two contracts keeps to both at once. -/
theorem wp_both {p : Prog Op Ans α} {Q : α → C.View → Prop} {R : α → D.View → Prop} {v : C.View}
    {w : D.View} (h : p.wp C Q v) (h' : p.wp D R w) :
    p.wp (C.both D) (fun a x => Q a x.1 ∧ R a x.2) (v, w) := by
  induction p generalizing v w with
  | ret a => exact ⟨h, h'⟩
  | call o k ih => exact ⟨⟨h.1, h'.1⟩, fun a => ih a (h.2 a) (h'.2 a)⟩

/-- What holds under two contracts holds under the first. -/
theorem wp_fst {p : Prog Op Ans α} {Q : α → C.View → Prop} {x : C.View × D.View}
    (h : p.wp (C.both D) (fun a y => Q a y.1) x) : p.wp C Q x.1 := by
  induction p generalizing x with
  | ret a => exact h
  | call o k ih => exact ⟨h.1.1, fun a => ih a (h.2 a)⟩

/-- A contract that allows all calls, and an invariant that all answers keep. -/
theorem wp_always {I : D.View → Prop} (hI : ∀ v o, I v → D.allow v o ∧ ∀ a, I (D.learn v o a))
    (p : Prog Op Ans α) {w : D.View} (hw : I w) : p.wp D (fun _ => I) w := by
  induction p generalizing w with
  | ret a => exact hw
  | call o k ih =>
    obtain ⟨hallow, hkeep⟩ := hI w o hw
    exact ⟨hallow, fun a => ih a (hkeep a)⟩

end Prog

/-! ## Tasks: programs that may fail -/

/-- A program that resolves to a value or rejects with an error. -/
structure Task (Op : Type) (Ans : Op → Type) (ε α : Type) : Type where
  prog : Prog Op Ans (Except ε α)

namespace Task

/-- Issue `o` and read its answer with `f`. -/
def request (o : Op) (f : Ans o → Except ε α) : Task Op Ans ε α :=
  ⟨.call o fun a => .ret (f a)⟩

/-- Continue with the result of `m`, whether it is a value or an error. -/
def settle (m : Task Op Ans ε α) (f : Except ε α → Task Op Ans ε β) : Task Op Ans ε β :=
  ⟨m.prog.bind fun r => (f r).prog⟩

/-- A computed result that may be an error. -/
def ofExcept (r : Except ε α) : Task Op Ans ε α := ⟨.ret r⟩

/-- Sequencing; a rejection skips the continuation. -/
def bind (m : Task Op Ans ε α) (f : α → Task Op Ans ε β) : Task Op Ans ε β :=
  m.settle fun
    | .ok a => f a
    | .error e => ofExcept (.error e)

/-- Run `h` on the error of a rejected `m`. -/
def tryCatch (m : Task Op Ans ε α) (h : ε → Task Op Ans ε α) : Task Op Ans ε α :=
  m.settle fun
    | .ok a => ofExcept (.ok a)
    | .error e => h e

/-- Run `m` for its effects only. -/
def forget (m : Task Op Ans ε α) : Prog Op Ans Unit := m.prog.bind fun _ => .ret ()

/-- The outcome of `m` as a value. -/
def attempt (m : Task Op Ans ε α) : Task Op Ans ε (Except ε α) := m.settle fun r => ofExcept (.ok r)

/-- `try m finally fin`: the result of `m` stands unless `fin` rejects. -/
def finallyDo (m : Task Op Ans ε α) (fin : Task Op Ans ε Unit) : Task Op Ans ε α :=
  m.settle fun r => fin.bind fun _ => ofExcept r

instance : Monad (Task Op Ans ε) where
  pure a := ofExcept (.ok a)
  bind := bind

instance : MonadExceptOf ε (Task Op Ans ε) where
  throw e := ofExcept (.error e)
  tryCatch := tryCatch

/-- `if (c) m`. -/
def when (c : Prop) [Decidable c] (m : Task Op Ans ε Unit) : Task Op Ans ε Unit :=
  if c then m else pure ()

section Rules

variable {C : Contract Op Ans}

/-- The postcondition of a task: `Q` on a value, `E` on an error. -/
def post (Q : α → C.View → Prop) (E : ε → C.View → Prop) : Except ε α → C.View → Prop
  | .ok a, v => Q a v
  | .error e, v => E e v

/-- Weakest precondition of a task, with a postcondition for each way to settle. -/
def wp (C : Contract Op Ans) (m : Task Op Ans ε α) (Q : α → C.View → Prop)
    (E : ε → C.View → Prop) (v : C.View) : Prop :=
  m.prog.wp C (post Q E) v

variable {Q : α → C.View → Prop} {E : ε → C.View → Prop} {v : C.View}

theorem wp_mono {m : Task Op Ans ε α} {Q' : α → C.View → Prop} {E' : ε → C.View → Prop}
    (hQ : ∀ a w, Q a w → Q' a w) (hE : ∀ e w, E e w → E' e w) (h : wp C m Q E v) :
    wp C m Q' E' v := by
  refine Prog.wp_mono (fun r w hr => ?_) h
  cases r with
  | ok a => exact hQ a w hr
  | error e => exact hE e w hr

theorem wp_settle (m : Task Op Ans ε β) (f : Except ε β → Task Op Ans ε α) :
    wp C (m.settle f) Q E v ↔
      wp C m (fun b w => wp C (f (.ok b)) Q E w) (fun e w => wp C (f (.error e)) Q E w) v := by
  unfold wp settle
  rw [Prog.wp_bind]
  constructor <;> refine Prog.wp_mono fun r w h => ?_ <;> cases r <;> exact h

@[simp] theorem wp_pure (a : α) : wp C (pure a : Task Op Ans ε α) Q E v ↔ Q a v := Iff.rfl

@[simp] theorem wp_throw (e : ε) : wp C (throw e : Task Op Ans ε α) Q E v ↔ E e v := Iff.rfl

theorem wp_ofExcept (r : Except ε α) :
    wp C (ofExcept r : Task Op Ans ε α) Q E v ↔
      (∀ a, r = .ok a → Q a v) ∧ ∀ e, r = .error e → E e v := by
  cases r <;> simp [ofExcept, wp, Prog.wp, post]

@[simp] theorem wp_request (o : Op) (f : Ans o → Except ε α) :
    wp C (request o f) Q E v ↔
      C.allow v o ∧ ∀ a, (∀ x, f a = .ok x → Q x (C.learn v o a)) ∧
        ∀ e, f a = .error e → E e (C.learn v o a) := by
  refine and_congr_right fun _ => forall_congr' fun a => ?_
  exact wp_ofExcept (f a)

@[simp] theorem wp_bind (m : Task Op Ans ε β) (f : β → Task Op Ans ε α) :
    wp C (m >>= f) Q E v ↔ wp C m (fun b w => wp C (f b) Q E w) E v :=
  wp_settle m _

@[simp] theorem wp_tryCatch (m : Task Op Ans ε α) (h : ε → Task Op Ans ε α) :
    wp C (MonadExceptOf.tryCatch m h) Q E v ↔ wp C m Q (fun e w => wp C (h e) Q E w) v :=
  wp_settle m _

@[simp] theorem wp_attempt (m : Task Op Ans ε α) {R : Except ε α → C.View → Prop} :
    wp C m.attempt R E v ↔ wp C m (fun a => R (.ok a)) (fun e => R (.error e)) v :=
  wp_settle m _

theorem wp_forget (m : Task Op Ans ε α) :
    m.forget.wp C (fun _ _ => True) v ↔ wp C m (fun _ _ => True) (fun _ _ => True) v := by
  unfold forget wp
  rw [Prog.wp_bind]
  constructor <;> refine Prog.wp_mono fun r w _ => ?_
  · cases r <;> trivial
  · trivial

theorem wp_when (c : Prop) [Decidable c] (m : Task Op Ans ε Unit) {R : Unit → C.View → Prop} :
    wp C (when c m) R E v ↔ (c → wp C m R E v) ∧ (¬c → R () v) := by
  by_cases hc : c <;> simp [when, hc]

theorem wp_ite (c : Prop) [Decidable c] (m n : Task Op Ans ε α) :
    wp C (if c then m else n) Q E v ↔ (c → wp C m Q E v) ∧ (¬c → wp C n Q E v) := by
  by_cases hc : c <;> simp [hc]

@[simp] theorem wp_finallyDo (m : Task Op Ans ε α) (fin : Task Op Ans ε Unit) :
    wp C (finallyDo m fin) Q E v ↔
      wp C m (fun a w => wp C fin (fun _ => Q a) E w)
        (fun e w => wp C fin (fun _ => E e) E w) v := by
  unfold finallyDo
  rw [wp_settle]
  constructor <;> refine wp_mono (fun a w h => ?_) (fun e w h => ?_)
  · exact (wp_bind fin _).1 h
  · exact (wp_bind fin _).1 h
  · exact (wp_bind fin _).2 h
  · exact (wp_bind fin _).2 h

end Rules

/-- A task under a second contract that allows all calls and keeps `I`. -/
theorem wp_beside {C D : Contract Op Ans} {I : D.View → Prop}
    (hI : ∀ v o, I v → D.allow v o ∧ ∀ a, I (D.learn v o a)) {m : Task Op Ans ε α}
    {Q : α → C.View × D.View → Prop} {E : ε → C.View × D.View → Prop} {v : C.View} {w : D.View}
    (hw : I w)
    (h : wp C m (fun a v => ∀ w, I w → Q a (v, w)) (fun e v => ∀ w, I w → E e (v, w)) v) :
    wp (C.both D) m Q E (v, w) := by
  refine Prog.wp_mono ?_ (Prog.wp_both h (Prog.wp_always hI m.prog hw))
  rintro r ⟨v', w'⟩ ⟨hr, hw'⟩
  cases r with
  | ok a => exact hr w' hw'
  | error e => exact hr w' hw'

/-- Every call of the task is an operation of `S`. -/
def Uses (S : Op → Prop) (m : Task Op Ans ε α) : Prop := m.prog.Uses S

section Uses

variable {S : Op → Prop}

@[simp] theorem uses_pure (a : α) : (pure a : Task Op Ans ε α).Uses S := trivial

@[simp] theorem uses_throw (e : ε) : (throw e : Task Op Ans ε α).Uses S := trivial

theorem uses_request {o : Op} (h : S o) (f : Ans o → Except ε α) :
    (request o f : Task Op Ans ε α).Uses S := ⟨h, fun _ => trivial⟩

theorem Uses.settle {m : Task Op Ans ε β} {f : Except ε β → Task Op Ans ε α} (hm : m.Uses S)
    (hf : ∀ r, (f r).Uses S) : (m.settle f).Uses S :=
  (Prog.wp_bind _ _ _ _).2 (Prog.wp_mono (fun r _ _ => hf r) hm)

theorem Uses.bind {m : Task Op Ans ε β} {f : β → Task Op Ans ε α} (hm : m.Uses S)
    (hf : ∀ b, (f b).Uses S) : (m >>= f).Uses S := by
  refine Uses.settle hm fun r => ?_
  cases r with
  | ok b => exact hf b
  | error e => trivial

theorem Uses.attempt {m : Task Op Ans ε α} (hm : m.Uses S) : m.attempt.Uses S :=
  Uses.settle hm fun _ => trivial

theorem Uses.when {c : Prop} [Decidable c] {m : Task Op Ans ε Unit} (hm : m.Uses S) :
    (when c m).Uses S := by
  unfold Task.when
  split
  · exact hm
  · trivial

theorem Uses.ite {c : Prop} [Decidable c] {m n : Task Op Ans ε α} (hm : m.Uses S)
    (hn : n.Uses S) : (if c then m else n).Uses S := by
  split
  · exact hm
  · exact hn

theorem Uses.mono {S' : Op → Prop} (h : ∀ o, S o → S' o) {m : Task Op Ans ε α} (hm : m.Uses S) :
    m.Uses S' :=
  Prog.Uses.mono h hm

theorem Uses.finallyDo {m : Task Op Ans ε α} {fin : Task Op Ans ε Unit} (hm : m.Uses S)
    (hfin : fin.Uses S) : (finallyDo m fin).Uses S :=
  Uses.settle hm fun _ => Uses.settle hfin fun r => by cases r <;> trivial

theorem Uses.forget {m : Task Op Ans ε α} (hm : m.Uses S) : m.forget.Uses S :=
  (Prog.wp_bind _ _ _ _).2 (Prog.wp_mono (fun _ _ _ => trivial) hm)

end Uses

theorem Uses.wp_const {C : Contract Op Ans} {S : Op → Prop} {m : Task Op Ans ε α}
    (hm : m.Uses S) {v : C.View}
    (hS : ∀ o, S o → C.allow v o ∧ ∀ a, C.learn v o a = v) {Q : α → C.View → Prop}
    {E : ε → C.View → Prop} (hQ : ∀ a, Q a v) (hE : ∀ e, E e v) : wp C m Q E v := by
  refine Prog.Uses.wp_const hm hS fun r => ?_
  cases r with
  | ok a => exact hQ a
  | error e => exact hE e

theorem Uses.wp_inv {C : Contract Op Ans} {S : Op → Prop} {m : Task Op Ans ε α}
    (hm : m.Uses S) {I : C.View → Prop}
    (hS : ∀ v o, I v → S o → C.allow v o ∧ ∀ a, I (C.learn v o a)) {Q : α → C.View → Prop}
    {E : ε → C.View → Prop} (hQ : ∀ a v, I v → Q a v) (hE : ∀ e v, I v → E e v) {v : C.View}
    (hv : I v) : wp C m Q E v := by
  refine Prog.Uses.wp_inv hm hS (fun r w hw => ?_) hv
  cases r with
  | ok a => exact hQ a w hw
  | error e => exact hE e w hw

/-! ### Tasks that keep an invariant of the view -/

/-- From a view with `I`, the task makes allowed calls only, and `I` holds however it settles. -/
def Stays (C : Contract Op Ans) (I : C.View → Prop) (m : Task Op Ans ε α) : Prop :=
  ∀ v, I v → wp C m (fun _ => I) (fun _ => I) v

section Stays

variable {C : Contract Op Ans} {I : C.View → Prop}

theorem stays_pure (a : α) : (pure a : Task Op Ans ε α).Stays C I := fun _ hv => hv

theorem stays_throw (e : ε) : (throw e : Task Op Ans ε α).Stays C I := fun _ hv => hv

theorem stays_ofExcept (r : Except ε α) : (ofExcept r : Task Op Ans ε α).Stays C I := by
  intro v hv
  cases r <;> exact hv

theorem stays_request {o : Op} (h : ∀ v, I v → C.allow v o ∧ ∀ a, I (C.learn v o a))
    (f : Ans o → Except ε α) : (request o f : Task Op Ans ε α).Stays C I := by
  intro v hv
  obtain ⟨hallow, hkeep⟩ := h v hv
  rw [wp_request]
  exact ⟨hallow, fun a => ⟨fun _ _ => hkeep a, fun _ _ => hkeep a⟩⟩

theorem Uses.stays {S : Op → Prop} (hS : ∀ v o, I v → S o → C.allow v o ∧ ∀ a, I (C.learn v o a))
    {m : Task Op Ans ε α} (hm : m.Uses S) : m.Stays C I := by
  intro v hv
  exact hm.wp_inv hS (fun _ _ h => h) (fun _ _ h => h) hv

theorem Stays.bind {m : Task Op Ans ε β} {f : β → Task Op Ans ε α} (hm : m.Stays C I)
    (hf : ∀ b, (f b).Stays C I) : (m >>= f).Stays C I := by
  intro v hv
  rw [wp_bind]
  exact wp_mono (fun b w hw => hf b w hw) (fun _ _ hw => hw) (hm v hv)

theorem Stays.attempt {m : Task Op Ans ε α} (hm : m.Stays C I) : m.attempt.Stays C I := by
  intro v hv
  rw [wp_attempt]
  exact hm v hv

theorem Stays.ite {c : Prop} [Decidable c] {m n : Task Op Ans ε α} (hm : m.Stays C I)
    (hn : n.Stays C I) : (if c then m else n).Stays C I := by
  split
  · exact hm
  · exact hn

theorem Stays.when {c : Prop} [Decidable c] {m : Task Op Ans ε Unit} (hm : m.Stays C I) :
    (when c m).Stays C I := Stays.ite hm (stays_pure ())

theorem Stays.finallyDo {m : Task Op Ans ε α} {fin : Task Op Ans ε Unit} (hm : m.Stays C I)
    (hfin : fin.Stays C I) : (finallyDo m fin).Stays C I := by
  intro v hv
  rw [wp_finallyDo]
  refine wp_mono ?_ ?_ (hm v hv)
  · intro a w hw
    exact hfin w hw
  · intro e w hw
    exact hfin w hw

/-- Under a contract that only lists operations, to stay is to use them. -/
theorem Stays.uses {S : Op → Prop} {m : Task Op Ans ε α} (hm : m.Stays (only S) fun _ => True) :
    m.Uses S :=
  Prog.wp_mono (fun _ _ _ => trivial) (hm () trivial)

end Stays

end Task

/-! ## Blocks: tasks with local variables -/

/-- A task with local variables `σ`, which keep their last values when it rejects. -/
structure Block (Op : Type) (Ans : Op → Type) (σ ε α : Type) : Type where
  prog : σ → Prog Op Ans (Except ε α × σ)

namespace Block

/-- Continue with the result of `m` and the variables it leaves. -/
def settle (m : Block Op Ans σ ε α) (f : Except ε α → Block Op Ans σ ε β) :
    Block Op Ans σ ε β :=
  ⟨fun s => (m.prog s).bind fun r => (f r.1).prog r.2⟩

/-- A computed result that may be an error. -/
def ofExcept (r : Except ε α) : Block Op Ans σ ε α := ⟨fun s => .ret (r, s)⟩

/-- Sequencing; a rejection skips the continuation and keeps the variables. -/
def bind (m : Block Op Ans σ ε α) (f : α → Block Op Ans σ ε β) : Block Op Ans σ ε β :=
  m.settle fun
    | .ok a => f a
    | .error e => ofExcept (.error e)

/-- Run `h` on the error of a rejected `m`, in the variables it leaves. -/
def tryCatch (m : Block Op Ans σ ε α) (h : ε → Block Op Ans σ ε α) : Block Op Ans σ ε α :=
  m.settle fun
    | .ok a => ofExcept (.ok a)
    | .error e => h e

/-- The outcome of `m` as a value. -/
def attempt (m : Block Op Ans σ ε α) : Block Op Ans σ ε (Except ε α) :=
  m.settle fun r => ofExcept (.ok r)

/-- Await a task. -/
def await (m : Task Op Ans ε α) : Block Op Ans σ ε α :=
  ⟨fun s => m.prog.bind fun r => .ret (r, s)⟩

/-- The current values of the variables. -/
def locals : Block Op Ans σ ε σ := ⟨fun s => .ret (.ok s, s)⟩

/-- Assign to the variables. -/
def assign (f : σ → σ) : Block Op Ans σ ε Unit := ⟨fun s => .ret (.ok (), f s)⟩

/-- Run a block as a task, started with the variables `s`. -/
def run (m : Block Op Ans σ ε α) (s : σ) : Task Op Ans ε α :=
  ⟨(m.prog s).bind fun r => .ret r.1⟩

instance : Monad (Block Op Ans σ ε) where
  pure a := ofExcept (.ok a)
  bind := bind

instance : MonadExceptOf ε (Block Op Ans σ ε) where
  throw e := ofExcept (.error e)
  tryCatch := tryCatch

/-- `if (c) m`. -/
def when (c : Prop) [Decidable c] (m : Block Op Ans σ ε Unit) : Block Op Ans σ ε Unit :=
  if c then m else pure ()

/-- `if (x) m(x)`. -/
def forSome (x : Option β) (m : β → Block Op Ans σ ε Unit) : Block Op Ans σ ε Unit :=
  match x with
  | some b => m b
  | none => pure ()

section Rules

variable {C : Contract Op Ans}

/-- The postcondition of a block: `Q` on a value, `E` on an error, both with the variables. -/
def post (Q : α → σ → C.View → Prop) (E : ε → σ → C.View → Prop) (r : Except ε α × σ) :
    C.View → Prop :=
  match r.1 with
  | .ok a => Q a r.2
  | .error e => E e r.2

/-- Weakest precondition of a block started with the variables `s`. -/
def wp (C : Contract Op Ans) (m : Block Op Ans σ ε α) (Q : α → σ → C.View → Prop)
    (E : ε → σ → C.View → Prop) (s : σ) (v : C.View) : Prop :=
  (m.prog s).wp C (post Q E) v

variable {Q : α → σ → C.View → Prop} {E : ε → σ → C.View → Prop} {s : σ} {v : C.View}

theorem wp_mono {m : Block Op Ans σ ε α} {Q' : α → σ → C.View → Prop}
    {E' : ε → σ → C.View → Prop} (hQ : ∀ a s w, Q a s w → Q' a s w)
    (hE : ∀ e s w, E e s w → E' e s w) (h : wp C m Q E s v) : wp C m Q' E' s v := by
  refine Prog.wp_mono (fun r w hr => ?_) h
  obtain ⟨r, s'⟩ := r
  cases r with
  | ok a => exact hQ a s' w hr
  | error e => exact hE e s' w hr

theorem wp_settle (m : Block Op Ans σ ε β) (f : Except ε β → Block Op Ans σ ε α) :
    wp C (m.settle f) Q E s v ↔
      wp C m (fun b s' w => wp C (f (.ok b)) Q E s' w)
        (fun e s' w => wp C (f (.error e)) Q E s' w) s v := by
  unfold wp settle
  rw [Prog.wp_bind]
  constructor <;> refine Prog.wp_mono fun r w h => ?_ <;> obtain ⟨r, s'⟩ := r <;> cases r <;>
    exact h

@[simp] theorem wp_pure (a : α) : wp C (pure a : Block Op Ans σ ε α) Q E s v ↔ Q a s v := Iff.rfl

@[simp] theorem wp_throw (e : ε) : wp C (throw e : Block Op Ans σ ε α) Q E s v ↔ E e s v :=
  Iff.rfl

theorem wp_ofExcept (r : Except ε α) :
    wp C (ofExcept r : Block Op Ans σ ε α) Q E s v ↔
      (∀ a, r = .ok a → Q a s v) ∧ ∀ e, r = .error e → E e s v := by
  cases r <;> simp [ofExcept, wp, Prog.wp, post]

@[simp] theorem wp_locals (R : σ → σ → C.View → Prop) :
    wp C (locals : Block Op Ans σ ε σ) R E s v ↔ R s s v := Iff.rfl

@[simp] theorem wp_assign (f : σ → σ) (R : Unit → σ → C.View → Prop) :
    wp C (assign f : Block Op Ans σ ε Unit) R E s v ↔ R () (f s) v := Iff.rfl

@[simp] theorem wp_await (m : Task Op Ans ε α) :
    wp C (await m : Block Op Ans σ ε α) Q E s v ↔
      m.wp C (fun a w => Q a s w) (fun e w => E e s w) v := by
  unfold wp await Task.wp
  rw [Prog.wp_bind]
  constructor <;> refine Prog.wp_mono fun r w h => ?_ <;> cases r <;> exact h

@[simp] theorem wp_bind (m : Block Op Ans σ ε β) (f : β → Block Op Ans σ ε α) :
    wp C (m >>= f) Q E s v ↔ wp C m (fun b s' w => wp C (f b) Q E s' w) E s v := by
  change wp C (bind m f) Q E s v ↔ _
  unfold bind
  rw [wp_settle]
  rfl

@[simp] theorem wp_tryCatch (m : Block Op Ans σ ε α) (h : ε → Block Op Ans σ ε α) :
    wp C (MonadExceptOf.tryCatch m h) Q E s v ↔
      wp C m Q (fun e s' w => wp C (h e) Q E s' w) s v := by
  change wp C (tryCatch m h) Q E s v ↔ _
  unfold tryCatch
  rw [wp_settle]
  rfl

@[simp] theorem wp_attempt (m : Block Op Ans σ ε α) {R : Except ε α → σ → C.View → Prop} :
    wp C m.attempt R E s v ↔ wp C m (fun a => R (.ok a)) (fun e => R (.error e)) s v := by
  unfold attempt
  rw [wp_settle]
  rfl

theorem wp_when (c : Prop) [Decidable c] (m : Block Op Ans σ ε Unit)
    {R : Unit → σ → C.View → Prop} :
    wp C (when c m) R E s v ↔ (c → wp C m R E s v) ∧ (¬c → R () s v) := by
  by_cases hc : c <;> simp [when, hc]

theorem wp_forSome (x : Option β) (m : β → Block Op Ans σ ε Unit)
    {R : Unit → σ → C.View → Prop} :
    wp C (forSome x m) R E s v ↔ (∀ b, x = some b → wp C (m b) R E s v) ∧ (x = none → R () s v) := by
  cases x <;> simp [forSome]

theorem wp_ite (c : Prop) [Decidable c] (m n : Block Op Ans σ ε α) :
    wp C (if c then m else n) Q E s v ↔ (c → wp C m Q E s v) ∧ (¬c → wp C n Q E s v) := by
  by_cases hc : c <;> simp [hc]

@[simp] theorem wp_run (m : Block Op Ans σ ε α) (R : α → C.View → Prop) (F : ε → C.View → Prop) :
    (m.run s).wp C R F v ↔ wp C m (fun a _ => R a) (fun e _ => F e) s v := by
  unfold run Task.wp wp
  rw [Prog.wp_bind]
  constructor <;> refine Prog.wp_mono fun r w h => ?_ <;> obtain ⟨r, s'⟩ := r <;> cases r <;>
    exact h

end Rules

/-- Every call of the block is an operation of `S`, and it changes the variables within `R`. -/
def Within (S : Op → Prop) (R : σ → σ → Prop) (m : Block Op Ans σ ε α) : Prop :=
  ∀ s, (m.prog s).wp (only S) (fun r _ => R s r.2) ()

section Within

variable {S : Op → Prop} {R : σ → σ → Prop}

theorem within_pure (hR : ∀ s, R s s) (a : α) :
    (pure a : Block Op Ans σ ε α).Within S R := fun s => hR s

theorem within_assign {f : σ → σ} (hf : ∀ s, R s (f s)) :
    (assign f : Block Op Ans σ ε Unit).Within S R := fun s => hf s

theorem within_locals (hR : ∀ s, R s s) : (locals : Block Op Ans σ ε σ).Within S R :=
  fun s => hR s

theorem within_await (hR : ∀ s, R s s) {m : Task Op Ans ε α} (hm : m.Uses S) :
    (await m : Block Op Ans σ ε α).Within S R := by
  intro s
  refine (Prog.wp_bind _ _ _ _).2 (Prog.wp_mono ?_ hm)
  intro r _ _
  exact hR s

theorem Within.bind (htrans : ∀ s₁ s₂ s₃, R s₁ s₂ → R s₂ s₃ → R s₁ s₃)
    {m : Block Op Ans σ ε β} {f : β → Block Op Ans σ ε α} (hm : m.Within S R)
    (hf : ∀ b, (f b).Within S R) : (m >>= f).Within S R := by
  intro s
  refine (Prog.wp_bind _ _ _ _).2 (Prog.wp_mono ?_ (hm s))
  rintro ⟨r, s'⟩ _ hr
  cases r with
  | ok b => exact Prog.wp_mono (fun _ _ h => htrans s s' _ hr h) (hf b s')
  | error e => exact hr

theorem Within.ite {c : Prop} [Decidable c] {m n : Block Op Ans σ ε α} (hm : m.Within S R)
    (hn : n.Within S R) : (if c then m else n).Within S R := by
  split
  · exact hm
  · exact hn

theorem within_when (hR : ∀ s, R s s) {c : Prop} [Decidable c] {m : Block Op Ans σ ε Unit}
    (hm : m.Within S R) : (when c m).Within S R := by
  exact hm.ite (within_pure hR ())

theorem within_forSome (hR : ∀ s, R s s) {x : Option β} {m : β → Block Op Ans σ ε Unit}
    (hm : ∀ b, (m b).Within S R) : (forSome x m).Within S R := by
  cases x with
  | none => exact within_pure hR ()
  | some b => exact hm b

/-- A block of operations that preserve `I` keeps `I` and changes the variables within `R`. -/
theorem Within.wp_inv {C : Contract Op Ans} {m : Block Op Ans σ ε α} (hm : m.Within S R)
    {I : C.View → Prop} (hS : ∀ v o, I v → S o → C.allow v o ∧ ∀ a, I (C.learn v o a))
    {Q : α → σ → C.View → Prop} {E : ε → σ → C.View → Prop} {s : σ} {v : C.View}
    (hQ : ∀ a s' w, R s s' → I w → Q a s' w) (hE : ∀ e s' w, R s s' → I w → E e s' w)
    (hv : I v) : wp C m Q E s v := by
  have hgen : ∀ (p : Prog Op Ans (Except ε α × σ)) (w : C.View), I w →
      p.wp (only S) (fun r _ => R s r.2) () → p.wp C (post Q E) w := by
    intro p
    induction p with
    | ret r =>
      intro w hw hr
      obtain ⟨r, s'⟩ := r
      cases r with
      | ok a => exact hQ a s' w hr hw
      | error e => exact hE e s' w hr hw
    | call o k ih =>
      intro w hw hp
      obtain ⟨hallow, hkeep⟩ := hS w o hw hp.1
      exact ⟨hallow, fun a => ih a _ (hkeep a) (hp.2 a)⟩
  exact hgen _ v hv (hm s)

end Within

/-! ### Blocks that keep an invariant of the view -/

/-- From a view with `I`, the block makes allowed calls only, and `I` holds however it settles. -/
def Stays (C : Contract Op Ans) (I : C.View → Prop) (m : Block Op Ans σ ε α) : Prop :=
  ∀ s v, I v → wp C m (fun _ _ => I) (fun _ _ => I) s v

section Stays

variable {C : Contract Op Ans} {I : C.View → Prop}

theorem stays_pure (a : α) : (pure a : Block Op Ans σ ε α).Stays C I := fun _ _ hv => hv

theorem stays_throw (e : ε) : (throw e : Block Op Ans σ ε α).Stays C I := fun _ _ hv => hv

theorem stays_locals : (locals : Block Op Ans σ ε σ).Stays C I := fun _ _ hv => hv

theorem stays_assign (f : σ → σ) : (assign f : Block Op Ans σ ε Unit).Stays C I := fun _ _ hv => hv

theorem stays_await {m : Task Op Ans ε α} (hm : m.Stays C I) :
    (await m : Block Op Ans σ ε α).Stays C I := by
  intro s v hv
  rw [wp_await]
  exact hm v hv

theorem Within.stays {S : Op → Prop} {R : σ → σ → Prop}
    (hS : ∀ v o, I v → S o → C.allow v o ∧ ∀ a, I (C.learn v o a)) {m : Block Op Ans σ ε α}
    (hm : m.Within S R) : m.Stays C I := by
  intro s v hv
  exact hm.wp_inv hS (fun _ _ _ _ h => h) (fun _ _ _ _ h => h) hv

theorem Stays.bind {m : Block Op Ans σ ε β} {f : β → Block Op Ans σ ε α} (hm : m.Stays C I)
    (hf : ∀ b, (f b).Stays C I) : (m >>= f).Stays C I := by
  intro s v hv
  rw [wp_bind]
  exact wp_mono (fun b s' w hw => hf b s' w hw) (fun _ _ _ hw => hw) (hm s v hv)

theorem Stays.attempt {m : Block Op Ans σ ε α} (hm : m.Stays C I) : m.attempt.Stays C I := by
  intro s v hv
  rw [wp_attempt]
  exact hm s v hv

theorem Stays.tryCatch {m : Block Op Ans σ ε α} {h : ε → Block Op Ans σ ε α} (hm : m.Stays C I)
    (hh : ∀ e, (h e).Stays C I) : (MonadExceptOf.tryCatch m h).Stays C I := by
  intro s v hv
  rw [wp_tryCatch]
  exact wp_mono (fun _ _ _ hw => hw) (fun e s' w hw => hh e s' w hw) (hm s v hv)

theorem Stays.ite {c : Prop} [Decidable c] {m n : Block Op Ans σ ε α} (hm : m.Stays C I)
    (hn : n.Stays C I) : (if c then m else n).Stays C I := by
  split
  · exact hm
  · exact hn

theorem Stays.when {c : Prop} [Decidable c] {m : Block Op Ans σ ε Unit} (hm : m.Stays C I) :
    (when c m).Stays C I := Stays.ite hm (stays_pure ())

theorem Stays.forSome {x : Option β} {m : β → Block Op Ans σ ε Unit} (hm : ∀ b, (m b).Stays C I) :
    (forSome x m).Stays C I := by
  cases x with
  | none => exact stays_pure ()
  | some b => exact hm b

theorem Stays.run {m : Block Op Ans σ ε α} (hm : m.Stays C I) (s : σ) : (m.run s).Stays C I := by
  intro v hv
  rw [wp_run]
  exact hm s v hv

end Stays

end Block

end Watukuy.Library
