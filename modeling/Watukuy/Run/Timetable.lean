import Watukuy.Core.Daemon
import Watukuy.Run.Scenarios

/-!
# The timetable of the daemon

`loop` of `core/engine.ts` on one key, with the operations that make the key due at once: `trigger`,
`resume`, `backfill`, `resetCursor`. A run in flight, the operations, its heartbeat and workers and
any other call on the key take turns, call by call, on the world of the system.

The daemon keeps `nextDue` in memory. An operation sets it to its `now` after its write; the
completion of a run sets it from the state that run has read, whatever it was set to in between. The
operations a run must still see are `owed` (`operations_kept`).
-/

set_option autoImplicit false

namespace Watukuy

open Library

variable {ι : Type}

/-! ## The parties -/

/-- The operations that make a key due at once. -/
inductive Operation where
  | trigger
  | resume
  | backfill (options : BackfillOptions)
  | resetCursor (options : ResetCursorOptions)

/-- What an operation does before it sets the due entry. -/
def Operation.task (deps : RunnerDeps ι) : Operation → Proc ι Unit
  | .trigger => Watukuy.trigger deps
  | .resume => Watukuy.resume
  | .backfill options => Watukuy.backfill deps options
  | .resetCursor options => Watukuy.resetCursor deps options

/-- An operation under way: the rest of its program, its `now`, and the moment of its write. -/
structure Operating (ι : Type) where
  rest : Prog (Op ι) Ans (Except JsError Unit)
  at_ : Option Int := none
  wrote : Option Nat := none

/-- `runOne` with the handlers `loop` attaches to it. -/
def handledRun (deps : RunnerDeps ι) : Proc ι Int := do
  let r ← (runOne deps { deadline := none, force := false }).attempt
  noteNext deps r

/-- The run in flight: the rest of its program, the moment of its last state read, and whether its
promise has set the due entry (`finally` is still to come). -/
structure Flight (ι : Type) where
  rest : Prog (Op ι) Ans (Except JsError Int)
  read : Option Nat := none
  settled : Bool := false

def Flight.start (deps : RunnerDeps ι) : Flight ι where
  rest := (handledRun deps).prog

/-- The daemon on one key. `passes` are the calls of `loop` that have read the clock and not come to
the key yet; `owed` the moments of the writes whose operations have set the entry and that no
completed run has read. -/
structure Daemon (ι : Type) where
  world : World ι
  clock : Int
  due : Option Int
  moment : Nat := 0
  flight : Option (Flight ι) := none
  passes : List Int := []
  operations : List (Operating ι) := []
  helpers : List (Prog (Op ι) Ans Unit) := []
  owed : List Nat := []

/-! ## Its steps -/

/-- The reading of the clock after a call. -/
def clockAfter (clock : Int) : (o : Op ι) → Ans o → Int
  | .now, t => t
  | _, _ => clock

/-- Perform a call: its answer, and the daemon with the threads the call leaves behind. -/
def Daemon.perform (s : Daemon ι) (o : Op ι) (ch : Choice ι) : Option (Ans o × Daemon ι) :=
  (Watukuy.perform o ch s.world).map fun r =>
    (r.1, { s with
      world := r.2, clock := clockAfter s.clock o r.1, moment := s.moment + 1
      helpers := s.helpers ++ forks o r.1 })

/-- The moment of the last state read after a call. -/
def readAfter (read : Option Nat) (moment : Nat) : (o : Op ι) → Ans o → Option Nat
  | .store .loadState, .ok _ => some moment
  | _, _ => read

/-- The `now` of an operation after a call. -/
def nowAfter (at_ : Option Int) : (o : Op ι) → Ans o → Option Int
  | .now, t => some t
  | _, _ => at_

/-- The moment of the write of an operation after a call. -/
def wroteAfter (wrote : Option Nat) (moment : Nat) : (o : Op ι) → Choice ι → Ans o → Option Nat
  | .store (.saveStateUnfenced _), ch, a => if tookEffect ch a then some moment else wrote
  | _, _, _ => wrote

/-- What happens next. -/
inductive Move (ι : Type) where
  /-- `loop` is called and reads the clock. -/
  | pass (t : Int)
  /-- A pass comes to the key. -/
  | visit (i : Nat)
  /-- The run in flight makes its next call. -/
  | fly (ch : Choice ι)
  /-- The promise of `runOne` settles: `then`, `catch`. -/
  | settle
  /-- `finally`. -/
  | land
  /-- The user calls an operation. -/
  | ask (operation : Operation)
  | operate (i : Nat) (ch : Choice ι)
  /-- An operation has done its work: `nextDue.set`. -/
  | note (i : Nat)
  /-- Any other call on the key. -/
  | request (request : EngineCall)
  | help (i : Nat) (ch : Choice ι)
  | abort (x : OuterAbort)

/-- The run has read the state after the write of moment `w`. -/
def Flight.Saw (fl : Flight ι) (w : Nat) : Prop := ∃ r ∈ fl.read, w < r

instance (fl : Flight ι) (w : Nat) : Decidable (fl.Saw w) := by
  unfold Flight.Saw
  infer_instance

namespace Daemon

/-- A pass with the reading `t` comes to the key: a key that is not in flight and due is run. -/
def visit (deps : RunnerDeps ι) (s : Daemon ι) (t : Int) : Daemon ι :=
  if s.flight.isNone ∧ s.due.getD t ≤ t then { s with flight := some (.start deps) } else s

def step (deps : RunnerDeps ι) (s : Daemon ι) : Move ι → Option (Daemon ι)
  | .pass t => some { s with clock := t, passes := s.passes ++ [t] }
  | .visit i =>
    (s.passes[i]?).map fun t => { s.visit deps t with passes := s.passes.eraseIdx i }
  | .fly ch =>
    match s.flight with
    | some ⟨.call o k, read, false⟩ =>
      (s.perform o ch).map fun r =>
        { r.2 with flight := some { rest := k r.1, read := readAfter read s.moment o r.1 } }
    | _ => none
  | .settle =>
    match s.flight with
    | some ⟨.ret (.ok next), read, false⟩ =>
      let fl : Flight ι := { rest := .ret (.ok next), read, settled := true }
      some { s with
        due := some next, flight := some fl
        owed := s.owed.filter fun w => decide (¬fl.Saw w) }
    | _ => none
  | .land =>
    match s.flight with
    | some ⟨_, _, true⟩ => some { s with flight := none }
    | _ => none
  | .ask operation =>
    some { s with operations := s.operations ++ [{ rest := (operation.task deps).prog }] }
  | .operate i ch =>
    match s.operations[i]? with
    | some ⟨.call o k, at_, wrote⟩ =>
      (s.perform o ch).map fun r =>
        let next : Operating ι :=
          ⟨k r.1, nowAfter at_ o r.1, wroteAfter wrote s.moment o ch r.1⟩
        { r.2 with operations := s.operations.set i next }
    | _ => none
  | .note i =>
    match s.operations[i]? with
    | some ⟨.ret (.ok _), some t, wrote⟩ =>
      some { s with
        due := some t, owed := s.owed ++ wrote.toList, operations := s.operations.eraseIdx i }
    | _ => none
  | .request request => some { s with helpers := s.helpers ++ [request.prog deps] }
  | .help i ch =>
    match s.helpers[i]? with
    | some (.call o k) =>
      (s.perform o ch).map fun r =>
        { r.2 with helpers := r.2.helpers.set i (k r.1) }
    | _ => none
  | .abort x => some { s with world := (system ι).drift x s.world }

/-- The daemon when it starts on a key. -/
def opened (record : KeyRecord ι) (clock : Int) (due : Option Int) : Daemon ι where
  world := { store := record }
  clock := clock
  due := due

end Daemon

/-! ## Timely runs -/

/-- The clock does not go back behind `clock`. -/
def Choice.From (clock : Int) : Choice ι → Prop
  | .time t => clock ≤ t
  | _ => True

/-- A state read gets its answer. -/
def Choice.Answers : Op ι → Choice ι → Prop
  | .store .loadState, .ok => True
  | .store .loadState, _ => False
  | _, _ => True

/-- The clock does not go back, the state reads of a run get their answers, and no operation wrote
after the last state read of a run that settles now and set the entry before it. -/
def Daemon.Timely (s : Daemon ι) : Move ι → Prop
  | .pass t => s.clock ≤ t
  | .fly ch => ch.From s.clock ∧
    match s.flight with
    | some ⟨.call o _, _, _⟩ => ch.Answers o
    | _ => True
  | .operate _ ch => ch.From s.clock
  | .help _ ch => ch.From s.clock
  | .settle => ∀ fl ∈ s.flight, ∀ r ∈ fl.read, ∀ w ∈ s.owed, ¬r < w
  | _ => True

/-- The states of the runs whose steps are timely. -/
inductive Daemon.Reached (deps : RunnerDeps ι) (s₀ : Daemon ι) : Daemon ι → Prop where
  | start : Reached deps s₀ s₀
  | step {s s' : Daemon ι} {m : Move ι} (h : Reached deps s₀ s) (timely : s.Timely m)
      (hstep : s.step deps m = some s') : Reached deps s₀ s'

/-! ## A run that completes has read the state -/

/-- Has the program asked for the state? -/
@[reducible] def asking : Contract (Op ι) Ans where
  View := Bool
  allow _ _ := True
  learn
    | _, .store .loadState, _ => true
    | v, _, _ => v

theorem asking_keeps (v : Bool) (o : Op ι) (hv : v = true) :
    (asking (ι := ι)).allow v o ∧ ∀ a, (asking (ι := ι)).learn v o a = true := by
  subst hv
  refine ⟨trivial, fun a => ?_⟩
  cases o with
  | store so => cases so <;> rfl
  | _ => rfl

/-- What has asked goes on having asked. -/
theorem asked_rest {α : Type} (m : Proc ι α) :
    m.wp asking (fun _ v => v = true) (fun _ v => v = true) true := by
  refine Prog.wp_mono ?_ (Prog.wp_always (I := fun v => v = true) asking_keeps m.prog rfl)
  rintro (e | a) v hv <;> exact hv

/-- `runKey` asks for the state before anything can end it. -/
theorem runKey_asks (deps : RunnerDeps ι) (opts : RunKeyOptions) :
    (runKey deps opts).wp asking (fun _ v => v = true) (fun _ v => v = true) false := by
  unfold runKey
  rw [Task.wp_bind, wp_now]
  refine ⟨trivial, fun t => ?_⟩
  rw [Task.wp_bind, wp_store]
  exact ⟨trivial, fun loaded => asked_rest _, fun e => rfl⟩

theorem handledRun_asks (deps : RunnerDeps ι) :
    (handledRun deps).wp asking (fun _ v => v = true) (fun _ v => v = true) false := by
  unfold handledRun runOne
  rw [Task.wp_bind, Task.wp_attempt, Task.wp_bind]
  refine Task.wp_mono ?_ ?_ (runKey_asks deps _)
  · rintro result v rfl
    refine Task.wp_mono ?_ ?_ (asked_rest _)
    · rintro r w rfl
      exact asked_rest _
    · rintro e w rfl
      exact asked_rest _
  · rintro e v rfl
    exact asked_rest _

/-! ## An operation that completes has written -/

/-- Has the program read the clock, and has it written? -/
@[reducible] def noting : Contract (Op ι) Ans where
  View := Bool × Bool
  allow _ _ := True
  learn
    | v, .now, _ => (true, v.2)
    | v, .store (.saveStateUnfenced _), .ok _ => (v.1, true)
    | v, _, _ => v

/-- A write that resolves, after the clock was read. -/
theorem save_notes (patch : StatePatch) :
    (store (.saveStateUnfenced patch) : Proc ι Unit).wp noting (fun _ v => v = (true, true))
      (fun _ _ => True) (true, false) := by
  rw [wp_store]
  exact ⟨trivial, fun _ => rfl, fun _ => trivial⟩

theorem operation_notes (deps : RunnerDeps ι) (operation : Operation) :
    (operation.task deps).wp noting (fun _ v => v = (true, true)) (fun _ _ => True)
      (false, false) := by
  cases operation with
  | trigger =>
    show (trigger deps).wp noting _ _ _
    unfold trigger
    rw [Task.wp_bind, wp_now]
    refine ⟨trivial, fun t => ?_⟩
    rw [Task.wp_bind, wp_store]
    exact ⟨trivial, fun state => save_notes _, fun e => trivial⟩
  | resume =>
    show Task.wp noting resume _ _ _
    unfold resume
    rw [Task.wp_bind, wp_now]
    exact ⟨trivial, fun t => save_notes _⟩
  | backfill options =>
    show (backfill deps options).wp noting _ _ _
    unfold backfill
    rw [Task.wp_bind, Task.wp_when]
    refine ⟨fun _ => trivial, fun _ => ?_⟩
    rw [Task.wp_bind, wp_store]
    refine ⟨trivial, fun state => ?_, fun e => trivial⟩
    rw [Task.wp_bind, Task.wp_ofExcept]
    refine ⟨fun start _ => ?_, fun e _ => trivial⟩
    rw [Task.wp_bind, Task.wp_ofExcept]
    refine ⟨fun cursor _ => ?_, fun e _ => trivial⟩
    rw [Task.wp_bind, Task.wp_ofExcept]
    refine ⟨fun target _ => ?_, fun e _ => trivial⟩
    rw [Task.wp_bind, wp_now]
    exact ⟨trivial, fun t => save_notes _⟩
  | resetCursor options =>
    show (resetCursor deps options).wp noting _ _ _
    unfold resetCursor
    rw [Task.wp_bind, wp_store]
    refine ⟨trivial, fun state => ?_, fun e => trivial⟩
    rw [Task.wp_bind, Task.wp_ofExcept]
    refine ⟨fun cursor _ => ?_, fun e _ => trivial⟩
    rw [Task.wp_bind, wp_now]
    refine ⟨trivial, fun t => ?_⟩
    rw [Task.wp_bind]
    refine Task.wp_mono ?_ (fun e v h => h) (save_notes _)
    rintro u v rfl
    rw [Task.wp_when]
    refine ⟨fun _ => ?_, fun _ => rfl⟩
    rw [wp_store]
    exact ⟨trivial, fun _ => rfl, fun _ => trivial⟩

/-! ## The invariant -/

/-- What holds of the daemon in timely runs. -/
structure Daemon.Kept (s : Daemon ι) : Prop where
  /-- The key is due as long as a write is owed a run. -/
  due : s.owed ≠ [] → ∃ t ∈ s.due, t ≤ s.clock
  owed : ∀ w ∈ s.owed, w < s.moment
  wrote : ∀ op ∈ s.operations, ∀ w ∈ op.wrote, w < s.moment
  clocked : ∀ op ∈ s.operations, ∀ t ∈ op.at_, t ≤ s.clock
  notes : ∀ op ∈ s.operations, ∃ v : Bool × Bool,
    op.rest.wp noting (Task.post (fun _ v => v = (true, true)) fun _ _ => True) v ∧
      (v.1 = true → op.at_.isSome) ∧ (v.2 = true → op.wrote.isSome)
  read : ∀ fl ∈ s.flight, ∀ r ∈ fl.read, r < s.moment ∧ r ∉ s.owed ∧
    ∀ op ∈ s.operations, r ∉ op.wrote
  asks : ∀ fl ∈ s.flight, fl.settled = false →
    fl.rest.wp asking (Task.post (fun _ v => v = true) fun _ v => v = true) fl.read.isSome

section

variable {deps : RunnerDeps ι} {s s' s₀ : Daemon ι} {o : Op ι} {a : Ans o} {ch : Choice ι}
  {m : Move ι}

theorem clockAfter_from {w w' : World ι} {clock : Int}
    (h : perform o ch w = some (a, w')) (hfrom : ch.From clock) :
    clock ≤ clockAfter clock o a := by
  cases o with
  | now =>
    cases ch with
    | time t =>
      obtain ⟨rfl, -⟩ := Prod.mk.inj (Option.some.inj h)
      exact hfrom
    | _ => cases h
  | _ => exact le_rfl

/-- What a call leaves of the daemon: its threads and the table are as they were. -/
theorem Daemon.perform_eq (h : s.perform o ch = some (a, s')) : ∃ w,
    Watukuy.perform o ch s.world = some (a, w) ∧
      s' = { s with
        world := w, clock := clockAfter s.clock o a, moment := s.moment + 1
        helpers := s.helpers ++ forks o a } := by
  obtain ⟨r, hr, heq⟩ := Option.map_eq_some_iff.1 h
  obtain ⟨rfl, rfl⟩ := Prod.mk.inj heq
  exact ⟨r.2, hr, rfl⟩

/-- Time passes. -/
theorem Daemon.Kept.perform (h : s.Kept) (hp : s.perform o ch = some (a, s'))
    (hfrom : ch.From s.clock) : s'.Kept := by
  obtain ⟨w, hw, rfl⟩ := Daemon.perform_eq hp
  have hclock := clockAfter_from hw hfrom
  refine ⟨?_, ?_, ?_, ?_, h.notes, ?_, h.asks⟩
  · intro howed
    obtain ⟨t, ht, hle⟩ := h.due howed
    exact ⟨t, ht, hle.trans hclock⟩
  · intro w hw
    exact Nat.lt_succ_of_lt (h.owed w hw)
  · intro op hop w hw
    exact Nat.lt_succ_of_lt (h.wrote op hop w hw)
  · intro op hop t ht
    exact (h.clocked op hop t ht).trans hclock
  · intro fl hfl r hr
    obtain ⟨hlt, hrest⟩ := h.read fl hfl r hr
    exact ⟨Nat.lt_succ_of_lt hlt, hrest⟩

theorem readAfter_cases (read : Option Nat) (moment : Nat) (o : Op ι) (a : Ans o) :
    readAfter read moment o a = read ∨ readAfter read moment o a = some moment := by
  unfold readAfter
  split
  · exact Or.inr rfl
  · exact Or.inl rfl

/-- A call of a run that is let have its answer keeps the account of what was asked. -/
theorem isSome_readAfter {w w' : World ι} {read : Option Nat} {moment : Nat}
    (h : perform o ch w = some (a, w')) (hanswers : ch.Answers o) :
    (readAfter read moment o a).isSome = (asking (ι := ι)).learn read.isSome o a := by
  cases o with
  | store so =>
    cases so with
    | loadState =>
      cases ch with
      | ok =>
        obtain ⟨rfl, -⟩ := Prod.mk.inj (Option.some.inj h)
        rfl
      | _ => exact hanswers.elim
    | _ => rfl
  | _ => rfl

/-- The next call of the run in flight. -/
theorem Daemon.Kept.fly (h : s.Kept) {o : Op ι} {k : Ans o → Prog (Op ι) Ans (Except JsError Int)}
    {read : Option Nat} {a : Ans o} (hfl : s.flight = some ⟨.call o k, read, false⟩)
    (hp : s.perform o ch = some (a, s')) (hfrom : ch.From s.clock) (hanswers : ch.Answers o) :
    Daemon.Kept { s' with flight := some ⟨k a, readAfter read s.moment o a, false⟩ } := by
  have hkept := h.perform hp hfrom
  obtain ⟨w, hw, rfl⟩ := Daemon.perform_eq hp
  refine ⟨hkept.due, hkept.owed, hkept.wrote, hkept.clocked, hkept.notes, ?_, ?_⟩
  · rintro fl ⟨⟩ r hr
    rcases readAfter_cases read s.moment o a with heq | heq
    · -- no new read
      dsimp only at hr
      rw [heq] at hr
      exact hkept.read _ hfl r hr
    · dsimp only at hr
      rw [heq] at hr
      obtain rfl := Option.some.inj hr
      refine ⟨Nat.lt_succ_self _, ?_, ?_⟩
      · intro hmem
        exact lt_irrefl _ (h.owed _ hmem)
      · intro op hop hmem
        exact lt_irrefl _ (h.wrote op hop _ hmem)
  · rintro fl ⟨⟩ -
    dsimp only
    rw [isSome_readAfter hw hanswers]
    exact (h.asks _ hfl rfl).2 a

theorem wroteAfter_cases (wrote : Option Nat) (moment : Nat) (o : Op ι) (ch : Choice ι) (a : Ans o) :
    wroteAfter wrote moment o ch a = wrote ∨ wroteAfter wrote moment o ch a = some moment := by
  unfold wroteAfter
  split
  · split
    · exact Or.inr rfl
    · exact Or.inl rfl
  · exact Or.inl rfl

/-- A write that resolves has taken effect. -/
theorem isSome_wroteAfter {w w' : World ι} {wrote : Option Nat} {moment : Nat} {v : Bool × Bool}
    (h : perform o ch w = some (a, w')) (hv : v.2 = true → wrote.isSome)
    (hlearn : ((noting (ι := ι)).learn v o a).2 = true) :
    (wroteAfter wrote moment o ch a).isSome := by
  cases o with
  | store so =>
    cases so with
    | saveStateUnfenced patch =>
      cases a with
      | error e =>
        have hwrote := hv hlearn
        unfold wroteAfter
        dsimp only
        split
        · rfl
        · exact hwrote
      | ok u =>
        cases ch with
        | ok => rfl
        | failAfter e => rfl
        | failBefore e =>
          obtain ⟨hne, -⟩ := Prod.mk.inj (Option.some.inj h)
          cases hne
        | _ => cases h
    | _ => exact hv hlearn
  | _ => exact hv hlearn

theorem isSome_nowAfter {at_ : Option Int} {v : Bool × Bool} (hv : v.1 = true → at_.isSome)
    (hlearn : ((noting (ι := ι)).learn v o a).1 = true) : (nowAfter at_ o a).isSome := by
  cases o with
  | now => rfl
  | store so =>
    cases so with
    | saveStateUnfenced patch =>
      cases a with
      | _ => exact hv hlearn
    | _ => exact hv hlearn
  | _ => exact hv hlearn

theorem nowAfter_le {at_ : Option Int} {clock : Int} (h : ∀ t ∈ at_, t ≤ clockAfter clock o a) :
    ∀ t ∈ nowAfter at_ o a, t ≤ clockAfter clock o a := by
  cases o with
  | now =>
    rintro t ⟨⟩
    exact le_rfl
  | _ => exact h

/-- The next call of an operation. -/
theorem Daemon.Kept.operate (h : s.Kept) {o : Op ι}
    {k : Ans o → Prog (Op ι) Ans (Except JsError Unit)} {at_ : Option Int} {wrote : Option Nat}
    {a : Ans o} {i : Nat} (hop : s.operations[i]? = some ⟨.call o k, at_, wrote⟩)
    (hp : s.perform o ch = some (a, s')) (hfrom : ch.From s.clock) :
    Daemon.Kept { s' with
      operations := s.operations.set i
        ⟨k a, nowAfter at_ o a, wroteAfter wrote s.moment o ch a⟩ } := by
  have hmem := List.mem_of_getElem? hop
  have hkept := h.perform hp hfrom
  obtain ⟨w, hw, rfl⟩ := Daemon.perform_eq hp
  refine ⟨hkept.due, hkept.owed, ?_, ?_, ?_, ?_, hkept.asks⟩
  · intro op hop' x hx
    rcases List.mem_or_eq_of_mem_set hop' with hold | rfl
    · exact hkept.wrote op hold x hx
    · dsimp only at hx
      rcases wroteAfter_cases wrote s.moment o ch a with heq | heq <;> rw [heq] at hx
      · exact hkept.wrote _ hmem x hx
      · obtain rfl := Option.some.inj hx
        exact Nat.lt_succ_self _
  · intro op hop'
    rcases List.mem_or_eq_of_mem_set hop' with hold | rfl
    · exact hkept.clocked op hold
    · exact nowAfter_le (hkept.clocked _ hmem)
  · intro op hop'
    rcases List.mem_or_eq_of_mem_set hop' with hold | rfl
    · exact hkept.notes op hold
    · obtain ⟨v, hwp, hat, hwrote⟩ := h.notes _ hmem
      exact ⟨_, hwp.2 a, isSome_nowAfter hat, isSome_wroteAfter hw hwrote⟩
  · intro fl hfl r hr
    obtain ⟨hlt, howed, hops⟩ := h.read fl hfl r hr
    refine ⟨Nat.lt_succ_of_lt hlt, howed, ?_⟩
    intro op hop' hmem'
    rcases List.mem_or_eq_of_mem_set hop' with hold | rfl
    · exact hops op hold hmem'
    · dsimp only at hmem'
      rcases wroteAfter_cases wrote s.moment o ch a with heq | heq <;> rw [heq] at hmem'
      · exact hops _ hmem hmem'
      · obtain rfl := Option.some.inj hmem'
        exact lt_irrefl _ hlt

/-- An operation that has done its work has read the clock and written. -/
theorem Daemon.Kept.noted (h : s.Kept) {u : Unit} {at_ : Option Int} {wrote : Option Nat}
    (hmem : ⟨.ret (.ok u), at_, wrote⟩ ∈ s.operations) :
    ∃ t w, at_ = some t ∧ wrote = some w ∧ t ≤ s.clock := by
  obtain ⟨v, hwp, hat, hwrote⟩ := h.notes _ hmem
  obtain rfl : v = (true, true) := hwp
  obtain ⟨t, rfl⟩ := Option.isSome_iff_exists.1 (hat rfl)
  obtain ⟨w, rfl⟩ := Option.isSome_iff_exists.1 (hwrote rfl)
  exact ⟨t, w, rfl, rfl, h.clocked _ hmem t rfl⟩

/-- In a timely run a run that settles has read all the state that is owed to the key. -/
theorem Daemon.Kept.saw (h : s.Kept) {next : Int} {read : Option Nat}
    (hfl : s.flight = some ⟨.ret (.ok next), read, false⟩) (timely : s.Timely .settle) {w : Nat}
    (hw : w ∈ s.owed) : Flight.Saw (ι := ι) ⟨.ret (.ok next), read, true⟩ w := by
  have hasked : read.isSome = true := h.asks _ hfl rfl
  obtain ⟨r, rfl⟩ := Option.isSome_iff_exists.1 hasked
  obtain ⟨-, howed, -⟩ := h.read _ hfl r rfl
  refine ⟨r, rfl, ?_⟩
  have hne : r ≠ w := fun heq => howed (heq ▸ hw)
  have hnot := timely _ hfl r rfl w hw
  omega

/-- One step of a timely run. -/
theorem Daemon.Kept.step (h : s.Kept) (timely : s.Timely m) (hstep : s.step deps m = some s') :
    s'.Kept := by
  cases m with
  | pass t =>
    obtain rfl := Option.some.inj hstep
    have hle : s.clock ≤ t := timely
    -- what was due stays due, what was read stays past
    refine ⟨?_, h.owed, h.wrote, ?_, h.notes, h.read, h.asks⟩
    · intro howed
      obtain ⟨x, hx, hle'⟩ := h.due howed
      exact ⟨x, hx, hle'.trans hle⟩
    · intro op hop x hx
      exact (h.clocked op hop x hx).trans hle
  | visit i =>
    obtain ⟨t, -, rfl⟩ := Option.map_eq_some_iff.1 hstep
    unfold Daemon.visit
    split
    · -- a run starts and has read nothing yet
      refine ⟨h.due, h.owed, h.wrote, h.clocked, h.notes, ?_, ?_⟩
      · rintro fl ⟨⟩ r ⟨⟩
      · rintro fl ⟨⟩ -
        exact handledRun_asks deps
    · exact ⟨h.due, h.owed, h.wrote, h.clocked, h.notes, h.read, h.asks⟩
  | fly ch =>
    simp only [Daemon.step] at hstep
    split at hstep
    · rename_i o k read hfl
      obtain ⟨r, hr, rfl⟩ := Option.map_eq_some_iff.1 hstep
      obtain ⟨hfrom, hanswers⟩ := timely
      rw [hfl] at hanswers
      exact h.fly hfl hr hfrom hanswers
    · cases hstep
  | settle =>
    simp only [Daemon.step] at hstep
    split at hstep
    · rename_i next read hfl
      obtain rfl := Option.some.inj hstep
      -- a flight that settles has seen all that was owed when it read the state
      have hnone : s.owed.filter (fun w =>
          decide (¬Flight.Saw (ι := ι) ⟨.ret (.ok next), read, true⟩ w)) = [] := by
        rw [List.filter_eq_nil_iff]
        intro w hw
        simpa using h.saw hfl timely hw
      rw [hnone]
      refine ⟨fun hne => absurd rfl hne, nofun, h.wrote, h.clocked, h.notes, ?_, ?_⟩
      · rintro fl ⟨⟩ r hr
        obtain ⟨hlt, -, hops⟩ := h.read _ hfl r hr
        exact ⟨hlt, nofun, hops⟩
      · rintro fl ⟨⟩ hsettled
        cases hsettled
    · cases hstep
  | land =>
    simp only [Daemon.step] at hstep
    split at hstep
    · obtain rfl := Option.some.inj hstep
      exact ⟨h.due, h.owed, h.wrote, h.clocked, h.notes, nofun, nofun⟩
    · cases hstep
  | ask operation =>
    obtain rfl := Option.some.inj hstep
    -- a new operation has read nothing and written nothing
    have hnew : ∀ op ∈ s.operations ++ [(⟨(operation.task deps).prog, none, none⟩ : Operating ι)],
        op ∈ s.operations ∨ op = ⟨(operation.task deps).prog, none, none⟩ := by simp
    refine ⟨h.due, h.owed, ?_, ?_, ?_, ?_, h.asks⟩
    · intro op hop w hw
      rcases hnew op hop with hop | rfl
      · exact h.wrote op hop w hw
      · cases hw
    · intro op hop t ht
      rcases hnew op hop with hop | rfl
      · exact h.clocked op hop t ht
      · cases ht
    · intro op hop
      rcases hnew op hop with hop | rfl
      · exact h.notes op hop
      · exact ⟨_, operation_notes deps operation, nofun, nofun⟩
    · intro fl hfl r hr
      obtain ⟨hlt, howed, hops⟩ := h.read fl hfl r hr
      refine ⟨hlt, howed, ?_⟩
      intro op hop hmem
      rcases hnew op hop with hop | rfl
      · exact hops op hop hmem
      · cases hmem
  | operate i ch =>
    simp only [Daemon.step] at hstep
    split at hstep
    · rename_i o k at_ wrote hop
      obtain ⟨r, hr, rfl⟩ := Option.map_eq_some_iff.1 hstep
      exact h.operate hop hr timely
    · cases hstep
  | note i =>
    simp only [Daemon.step] at hstep
    split at hstep
    · rename_i u t wrote hop
      obtain rfl := Option.some.inj hstep
      have hmem := List.mem_of_getElem? hop
      obtain ⟨t', w, ht, rfl, hle⟩ := h.noted hmem
      obtain rfl := Option.some.inj ht
      -- what the operation wrote is owed from now on, and due at the time it read
      refine ⟨fun _ => ⟨t, rfl, hle⟩, ?_, ?_, ?_, ?_, ?_, h.asks⟩
      · intro x hx
        rcases List.mem_append.1 hx with hx | hx
        · exact h.owed x hx
        · obtain rfl := List.mem_singleton.1 hx
          exact h.wrote _ hmem _ rfl
      · intro op hop'
        exact h.wrote op (List.mem_of_mem_eraseIdx hop')
      · intro op hop'
        exact h.clocked op (List.mem_of_mem_eraseIdx hop')
      · intro op hop'
        exact h.notes op (List.mem_of_mem_eraseIdx hop')
      · intro fl hfl r hr
        obtain ⟨hlt, howed, hops⟩ := h.read fl hfl r hr
        refine ⟨hlt, ?_, fun op hop' => hops op (List.mem_of_mem_eraseIdx hop')⟩
        intro hx
        rcases List.mem_append.1 hx with hx | hx
        · exact howed hx
        · obtain rfl := List.mem_singleton.1 hx
          exact hops _ hmem rfl
    · cases hstep
  | request request =>
    obtain rfl := Option.some.inj hstep
    exact ⟨h.due, h.owed, h.wrote, h.clocked, h.notes, h.read, h.asks⟩
  | help i ch =>
    simp only [Daemon.step] at hstep
    split at hstep
    · obtain ⟨r, hr, rfl⟩ := Option.map_eq_some_iff.1 hstep
      have hkept := h.perform hr timely
      exact ⟨hkept.due, hkept.owed, hkept.wrote, hkept.clocked, hkept.notes, hkept.read, hkept.asks⟩
    · cases hstep
  | abort x =>
    obtain rfl := Option.some.inj hstep
    exact ⟨h.due, h.owed, h.wrote, h.clocked, h.notes, h.read, h.asks⟩

theorem Daemon.Reached.kept (hs₀ : s₀.Kept) (h : Daemon.Reached deps s₀ s) : s.Kept := by
  induction h with
  | start => exact hs₀
  | step _ timely hstep ih => exact ih.step timely hstep

theorem Daemon.opened_kept (record : KeyRecord ι) (clock : Int) (due : Option Int) :
    (Daemon.opened record clock due).Kept :=
  ⟨fun h => absurd rfl h, nofun, nofun, nofun, nofun, nofun, nofun⟩

theorem Daemon.perform_due {r : Ans o × Daemon ι} (h : s.perform o ch = some r) :
    r.2.due = s.due := by
  obtain ⟨w, -, heq⟩ := Daemon.perform_eq (a := r.1) h
  rw [heq]

/-- Only an operation and a run that settles change the due entry. -/
theorem Daemon.step_due (hstep : s.step deps m = some s') :
    s'.due = s.due ∨ (∃ i, m = .note i) ∨ m = .settle := by
  cases m with
  | settle => exact Or.inr (Or.inr rfl)
  | note i => exact Or.inr (Or.inl ⟨i, rfl⟩)
  | pass t =>
    obtain rfl := Option.some.inj hstep
    exact Or.inl rfl
  | visit i =>
    obtain ⟨t, -, rfl⟩ := Option.map_eq_some_iff.1 hstep
    unfold Daemon.visit
    split <;> exact Or.inl rfl
  | fly ch =>
    simp only [Daemon.step] at hstep
    split at hstep
    · obtain ⟨r, hr, rfl⟩ := Option.map_eq_some_iff.1 hstep
      exact Or.inl (Daemon.perform_due hr)
    · cases hstep
  | land =>
    simp only [Daemon.step] at hstep
    split at hstep
    · obtain rfl := Option.some.inj hstep
      exact Or.inl rfl
    · cases hstep
  | ask operation =>
    obtain rfl := Option.some.inj hstep
    exact Or.inl rfl
  | operate i ch =>
    simp only [Daemon.step] at hstep
    split at hstep
    · obtain ⟨r, hr, rfl⟩ := Option.map_eq_some_iff.1 hstep
      exact Or.inl (Daemon.perform_due hr)
    · cases hstep
  | request request =>
    obtain rfl := Option.some.inj hstep
    exact Or.inl rfl
  | help i ch =>
    simp only [Daemon.step] at hstep
    split at hstep
    · obtain ⟨r, hr, rfl⟩ := Option.map_eq_some_iff.1 hstep
      exact Or.inl (Daemon.perform_due hr)
    · cases hstep
  | abort x =>
    obtain rfl := Option.some.inj hstep
    exact Or.inl rfl

/-- A key that is due and not in flight is run by the pass that reads the clock next. -/
theorem Daemon.pass_starts (hdue : ∃ t ∈ s.due, t ≤ s.clock) (hflight : s.flight = none) {t : Int}
    (ht : s.clock ≤ t) :
    ∃ s₁ s₂, s.step deps (.pass t) = some s₁ ∧ s₁.step deps (.visit s.passes.length) = some s₂ ∧
      s₂.flight = some (.start deps) := by
  obtain ⟨x, hx, hle⟩ := hdue
  let s₁ : Daemon ι := { s with clock := t, passes := s.passes ++ [t] }
  have hgo : s₁.flight.isNone ∧ s₁.due.getD t ≤ t := by
    dsimp only [s₁]
    rw [hflight, Option.mem_def.1 hx]
    exact ⟨rfl, hle.trans ht⟩
  have hvisit : s₁.visit deps t = { s₁ with flight := some (.start deps) } := if_pos hgo
  have hpass : s₁.passes[s.passes.length]? = some t := List.getElem?_concat_length
  refine ⟨s₁, { s₁.visit deps t with passes := s₁.passes.eraseIdx s.passes.length }, rfl, ?_, ?_⟩
  · simp only [Daemon.step, hpass, Option.map_some]
  · rw [hvisit]

end

/-! ## Playing moves -/

section

instance (clock : Int) (ch : Choice ι) : Decidable (ch.From clock) := by
  unfold Choice.From
  split <;> infer_instance

instance (o : Op ι) (ch : Choice ι) : Decidable (ch.Answers o) := by
  unfold Choice.Answers
  rcases o with ⟨o⟩ | _
  case store => rcases o <;> rcases ch <;> infer_instance
  all_goals infer_instance

instance Daemon.decidableTimely (s : Daemon ι) (m : Move ι) : Decidable (s.Timely m) := by
  unfold Daemon.Timely
  split
  case h_2 => split <;> infer_instance
  all_goals infer_instance

/-- Part of a scenario: one move, or up to `n` calls of one party. -/
inductive Stretch (ι : Type) where
  | move (m : Move ι)
  | fly (n : Nat) (policy : Op ι → Choice ι)
  | operate (i n : Nat) (policy : Op ι → Choice ι)

/-- The next call of the run in flight. -/
def Daemon.flying (s : Daemon ι) : Option (Op ι) :=
  match s.flight with
  | some ⟨.call o _, _, false⟩ => some o
  | _ => none

/-- The next call of an operation. -/
def Daemon.operating (s : Daemon ι) (i : Nat) : Option (Op ι) :=
  match s.operations[i]? with
  | some ⟨.call o _, _, _⟩ => some o
  | _ => none

/-- One move, and whether all moves were timely. -/
def Daemon.move (deps : RunnerDeps ι) (s : Daemon ι × Bool) (m : Move ι) :
    Option (Daemon ι × Bool) :=
  (s.1.step deps m).map fun s' => (s', s.2 && decide (s.1.Timely m))

/-- Up to `n` calls of one party. -/
def Daemon.calls (deps : RunnerDeps ι) (next : Daemon ι → Option (Op ι)) (m : Choice ι → Move ι)
    (policy : Op ι → Choice ι) : Nat → Daemon ι × Bool → Option (Daemon ι × Bool)
  | 0, s => some s
  | n + 1, s =>
    match next s.1 with
    | some o => (Daemon.move deps s (m (policy o))).bind (Daemon.calls deps next m policy n)
    | none => some s

def Daemon.turn (deps : RunnerDeps ι) (s : Daemon ι × Bool) :
    Stretch ι → Option (Daemon ι × Bool)
  | .move m => Daemon.move deps s m
  | .fly n policy => Daemon.calls deps (·.flying) .fly policy n s
  | .operate i n policy => Daemon.calls deps (·.operating i) (.operate i) policy n s

/-- The state a scenario leads to, and whether all its moves were timely. -/
def Daemon.play (deps : RunnerDeps ι) : List (Stretch ι) → Daemon ι × Bool → Option (Daemon ι × Bool)
  | [], s => some s
  | turn :: turns, s => (Daemon.turn deps s turn).bind (Daemon.play deps turns)

variable {deps : RunnerDeps ι} {s₀ : Daemon ι} {s s' : Daemon ι × Bool}

/-- What is timely up to here has been reached. -/
def Daemon.Sure (deps : RunnerDeps ι) (s₀ : Daemon ι) (s : Daemon ι × Bool) : Prop :=
  s.2 = true → Daemon.Reached deps s₀ s.1

theorem Daemon.Sure.move {m : Move ι} (h : Daemon.Sure deps s₀ s)
    (hm : Daemon.move deps s m = some s') : Daemon.Sure deps s₀ s' := by
  obtain ⟨s'', hstep, rfl⟩ := Option.map_eq_some_iff.1 hm
  intro hsure
  simp only [Bool.and_eq_true, decide_eq_true_eq] at hsure
  exact .step (h hsure.1) hsure.2 hstep

theorem Daemon.Sure.calls {next : Daemon ι → Option (Op ι)} {m : Choice ι → Move ι}
    {policy : Op ι → Choice ι} {n : Nat} (h : Daemon.Sure deps s₀ s)
    (hc : Daemon.calls deps next m policy n s = some s') : Daemon.Sure deps s₀ s' := by
  induction n generalizing s with
  | zero =>
    obtain rfl := Option.some.inj hc
    exact h
  | succ n ih =>
    simp only [Daemon.calls] at hc
    split at hc
    · obtain ⟨s'', hm, hrest⟩ := Option.bind_eq_some_iff.1 hc
      exact ih (h.move hm) hrest
    · obtain rfl := Option.some.inj hc
      exact h

theorem Daemon.Sure.turn {turn : Stretch ι} (h : Daemon.Sure deps s₀ s)
    (ht : Daemon.turn deps s turn = some s') : Daemon.Sure deps s₀ s' := by
  cases turn with
  | move m => exact h.move ht
  | fly n policy => exact h.calls ht
  | operate i n policy => exact h.calls ht

theorem Daemon.Sure.play {turns : List (Stretch ι)} (h : Daemon.Sure deps s₀ s)
    (hp : Daemon.play deps turns s = some s') : Daemon.Sure deps s₀ s' := by
  induction turns generalizing s with
  | nil =>
    obtain rfl := Option.some.inj hp
    exact h
  | cons turn turns ih =>
    obtain ⟨s'', ht, hrest⟩ := Option.bind_eq_some_iff.1 hp
    exact ih (h.turn ht) hrest

end

/-! ## Sample runs -/

/-- A daemon on an instance without a consumer. -/
def dailyDeps : RunnerDeps Sample := instanceOf (sampleOf samplePoller) false

def dailyStart : Daemon Sample := .opened (KeyRecord.fresh (sampleOf samplePoller).key) 0 none

/-- Nothing fails, and the API lists nothing. -/
def quiet (at_ : Int) : Op Sample → Choice Sample := calm at_ (onePage [])

end Watukuy
