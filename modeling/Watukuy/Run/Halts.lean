import Watukuy.Run.Gates
import Watukuy.Run.Retries

/-!
# Poison halts

A poison event whose action is `halt` ends its drain. The execution that began the drain is to open
the circuit until a probe is due, and to fetch no more. `HaltLog` is what an observer of the calls
notes about one execution: the drains it began, whether one of them halted, when it read the clock
after that, and the schedule it saved last.

The halt of a drain that follows a delete commit is dropped, another lane begins its cycle after a
halt, and a store call that fails is followed by the bookkeeping of a failure. Up to the first such
step every halt is honoured.
-/

set_option autoImplicit false

namespace Watukuy

open Library LaneView

variable {ι : Type}

/-! ## What an observer notes -/

/-- What the calls of a run tell of the halts of one execution. -/
structure HaltLog where
  /-- The drains the execution began, the last one first. -/
  drains : List Nat := []
  /-- One of them hit a poison event and halted. -/
  hit : Bool := false
  /-- The first reading of the clock since the execution looked at a drain: the time of the halt. -/
  at_ : Option Int := none
  /-- The schedule the execution saved last. -/
  saved : Option ScheduleState := none
  /-- The state has been written since, by another thread or without the lease. -/
  overwritten : Bool := false

/-- The call writes the state of the key. -/
def StoreOp.writesState : StoreOp ι → Bool
  | .saveState _ _ => true
  | .saveStateUnfenced _ => true
  | .commitPoll _ _ => true
  | .deleteKey => true
  | _ => false

namespace HaltLog

/-- A worker notes that its drain halts. -/
def hear (n : HaltLog) : Op ι → HaltLog
  | .noteDrain i .halted => { n with hit := n.hit || n.drains.contains i }
  | _ => n

/-- The execution wrote a schedule, unless it left the one that is stored. -/
def save (n : HaltLog) (schedule : Option ScheduleState) : HaltLog :=
  match schedule with
  | some s => { n with saved := some s, overwritten := false }
  | none => n

/-- A call of the execution. -/
def own (n : HaltLog) : (o : Op ι) → Choice ι → Ans o → HaltLog
  | .newDrain, _, i => { n with drains := i :: n.drains }
  | .peekDrain _, _, _ => { n with at_ := none }
  | .now, _, t => { n with at_ := n.at_.orElse fun _ => some t }
  | .store o, ch, a =>
    match o.fencedPatch with
    | some p => if tookEffect ch a then n.save p.schedule else n
    | none => if tookEffect ch a && o.writesState then { n with overwritten := true } else n
  | _, _, _ => n

/-- A call of another thread. -/
def foreign (n : HaltLog) : (o : Op ι) → Choice ι → Ans o → HaltLog
  | .store o, ch, a =>
    if tookEffect ch a && o.writesState then { n with overwritten := true } else n
  | _, _, _ => n

/-- What thread `t` makes of a step. -/
def note (t : Nat) (n : HaltLog) : Label (system ι) → HaltLog
  | .act u o ch a => if u = t then (n.hear o).own o ch a else (n.hear o).foreign o ch a
  | _ => n

end HaltLog

/-- What is known of the halts of thread `t` after the steps `tr`. -/
def haltLog (t : Nat) (tr : List (Label (system ι))) : HaltLog := tr.foldl (HaltLog.note t) {}

/-! ## Halts that are honoured -/

/-- The execution waits for a round of the drain `i`, outside a delete phase. -/
structure LaneView.Waits (v : LaneView ι) (i : Nat) : Prop where
  drain : v.drain = some i
  peeked : v.peeked = false
  sweeping : v.sweeping = false

/-- The call rejected: a call of the store, or the join of a round. -/
def rejects : (o : Op ι) → Ans o → Bool
  | .store _, a => match a with
    | .ok _ => false
    | .error _ => true
  | .joinRound _, a => match a with
    | .ok _ => false
    | .error _ => true
  | _, _ => false

/-- The call begins a cycle. -/
def beginsCycle : Op ι → Bool
  | .pollStart _ => true
  | _ => false

/-- The drain that a note halts. -/
def haltedDrain : Op ι → Option Nat
  | .noteDrain i .halted => some i
  | _ => none

/-- A step that does not come in the way of a halt: after a halt the execution begins no cycle and no
call of it rejects, and a drain halts only while the execution that began it waits for the round and
is not past a delete commit. -/
def LetsHalt (d : Deployment ι) (pre : List (Label (system ι))) : Label (system ι) → Prop
  | .act t o _ a =>
    ((beginsCycle o || rejects o a) = true → (haltLog t pre).hit = false) ∧
      ∀ i ∈ haltedDrain o, ∀ u, i ∈ (haltLog u pre).drains → (laneAt d u pre).Waits i
  | _ => True

/-- After a halt no page is fetched, and when the lease is released the circuit is open until
`probeEveryMs` after the halt: so the execution saved it, and so it is stored unless another thread
has written the state since. -/
def HonoursHalt (d : Deployment ι) (w : World ι) (pre : List (Label (system ι))) :
    Label (system ι) → Prop
  | .act t (.fetch _ _) _ _ => (haltLog t pre).hit = false
  | .act t (.store (.releaseLease _)) _ _ =>
    (haltLog t pre).hit = true → ∃ at_ s, (haltLog t pre).at_ = some at_ ∧
      (haltLog t pre).saved = some s ∧ HaltSchedule d at_ s ∧
        ((haltLog t pre).overwritten = false →
          ((system ι).after w pre).store.state.map (·.schedule) = some s)
  | _ => True

/-! ## The halts of the drains -/

section Drains

variable {o : Op ι} {ch : Choice ι} {a : Ans o} {w w' : World ι}

theorem halted_note {m : DrainMem ι} {note : DrainNote} (h : (m.note note).result.halted = true) :
    m.result.halted = true ∨ note = .halted := by
  cases note with
  | halted => exact Or.inr rfl
  | _ => exact Or.inl h

theorem note_halted {m : DrainMem ι} (note : DrainNote) (h : m.result.halted = true) :
    (m.note note).result.halted = true := by
  cases note with
  | halted => rfl
  | _ => exact h

/-- A drain halts only by a note. -/
theorem halted_noted (hw : perform o ch w = some (a, w')) {j : Nat}
    (h : (w'.drain j).result.halted = true) :
    (w.drain j).result.halted = true ∨ o = .noteDrain j .halted := by
  rcases perform_drain hw j with heq | ⟨i, note, ho, rfl, heq⟩ | ⟨deps, l, run, i, groups, -, -, heq⟩ |
      ⟨i, -, -, heq⟩ | ⟨i, res, -, -, heq⟩
  · exact Or.inl (heq ▸ h)
  · rw [heq] at h
    rcases halted_note h with hold | rfl
    · exact Or.inl hold
    · exact Or.inr ho
  · rw [heq] at h
    exact Or.inl h
  · rw [heq] at h
    exact Or.inl h
  · rw [heq] at h
    cases res <;> exact Or.inl h

/-- A drain that has halted stays so. -/
theorem halted_stays (hw : perform o ch w = some (a, w')) {j : Nat}
    (h : (w.drain j).result.halted = true) : (w'.drain j).result.halted = true := by
  rcases perform_drain hw j with heq | ⟨i, note, -, -, heq⟩ | ⟨deps, l, run, i, groups, -, -, heq⟩ |
      ⟨i, -, -, heq⟩ | ⟨i, res, -, -, heq⟩ <;> rw [heq]
  · exact h
  · exact note_halted note h
  · exact h
  · exact h
  · cases res <;> exact h

theorem length_le (hw : perform o ch w = some (a, w')) : w.drains.length ≤ w'.drains.length := by
  rw [length_drains (t := 0) hw]
  exact Nat.le_add_right _ _

end Drains

/-! ## What an execution knows of its halts -/

/-- The view of an execution agrees with what is known of its halts. -/
structure Heard (d : Deployment ι) (v : LaneView ι) (n : HaltLog) (w : World ι) : Prop where
  calm : v.spoiled = false
  drain : v.drain = n.drains.head?
  begun : ∀ i ∈ n.drains, i < w.drains.length
  known : ∀ i ∈ n.drains, (w.drain i).result.halted = true → n.hit = true
  /-- A halt is in the drain under way until the execution looks. -/
  pending : n.hit = true → v.sweeping = false ∧ (v.peeked = false ∨ v.halted = true) ∧
    ∃ i, v.drain = some i ∧ (w.drain i).result.halted = true
  seen : v.halted = true → n.hit = true ∧ v.haltedAt = n.at_
  posted : v.halted = true → v.posted = true → ∃ at_ s, n.at_ = some at_ ∧ n.saved = some s ∧
    HaltSchedule d at_ s

section Heard

variable {d : Deployment ι} {v : LaneView ι} {n : HaltLog} {o : Op ι} {ch : Choice ι} {a : Ans o}
  {w w' : World ι}

/-- An execution that has begun no drain knows of no halt. -/
theorem Heard.fresh (hdrains : n.drains = []) (hhit : n.hit = false) : Heard d {} n w where
  calm := rfl
  drain := by rw [hdrains]; rfl
  begun i hi := by
    rw [hdrains] at hi
    cases hi
  known i hi := by
    rw [hdrains] at hi
    cases hi
  pending h := by
    rw [hhit] at h
    cases h
  seen h := by cases h
  posted h := by cases h

theorem Heard.idle (h : Heard d v n w) (hhit : n.hit = false) : v.halted = false := by
  cases hhalted : v.halted with
  | false => rfl
  | true =>
    rw [(h.seen hhalted).1] at hhit
    cases hhit

/-- Once the execution has looked and seen no halt, there is none. -/
theorem Heard.unhit (h : Heard d v n w) (hpeeked : v.peeked = true) (hidle : v.halted = false) :
    n.hit = false := by
  cases hhit : n.hit with
  | false => rfl
  | true =>
    obtain ⟨-, hwaits | hhalted, -⟩ := h.pending hhit
    · rw [hpeeked] at hwaits
      cases hwaits
    · rw [hidle] at hhalted
      cases hhalted

/-- A step that makes none of the drains halt. -/
theorem Heard.move (h : Heard d v n w) (hw : perform o ch w = some (a, w'))
    (hquiet : ∀ i ∈ n.drains, o ≠ .noteDrain i .halted) : Heard d v n w' :=
  { h with
    begun := by
      intro i hi
      exact (h.begun i hi).trans_le (length_le hw)
    known := by
      intro i hi hhalted
      rcases halted_noted hw hhalted with hold | hnote
      · exact h.known i hi hold
      · exact absurd hnote (hquiet i hi)
    pending := by
      intro hhit
      obtain ⟨hsweeping, hseen, i, hdrain, hhalted⟩ := h.pending hhit
      exact ⟨hsweeping, hseen, i, hdrain, halted_stays hw hhalted⟩ }

/-- The drain the execution waits for halts. -/
theorem Heard.strike (h : Heard d v n w) {i : Nat} {a : Unit} (hi : i ∈ n.drains)
    (hwaits : v.Waits i) (hw : perform (.noteDrain i .halted : Op ι) ch w = some (a, w')) :
    Heard d v { n with hit := true } w' where
  calm := h.calm
  drain := h.drain
  begun j hj := (h.begun j hj).trans_le (length_le hw)
  known j hj _ := rfl
  pending _ := by
    refine ⟨hwaits.sweeping, Or.inl hwaits.peeked, i, hwaits.drain, ?_⟩
    cases ch <;> simp only [perform, Option.some.injEq, Prod.mk.injEq, reduceCtorEq] at hw
    rw [← hw.2, drain_setDrain_self (h.begun i hi)]
    rfl
  seen hhalted := ⟨rfl, (h.seen hhalted).2⟩
  posted := h.posted

theorem Heard.overwrite (h : Heard d v n w) (b : Bool) :
    Heard d v { n with overwritten := b } w :=
  { h with }

theorem foreign_eq (n : HaltLog) (o : Op ι) (ch : Choice ι) (a : Ans o) :
    ∃ b, n.foreign o ch a = { n with overwritten := b } := by
  cases o with
  | store so =>
    simp only [HaltLog.foreign]
    split
    · exact ⟨true, rfl⟩
    · exact ⟨n.overwritten, rfl⟩
  | _ => exact ⟨n.overwritten, rfl⟩

/-- What a call tells of a halt: nothing, or that a drain of the execution halts. -/
theorem hear_cases (n : HaltLog) (o : Op ι) :
    (n.hear o = n ∧ ∀ i ∈ n.drains, o ≠ .noteDrain i .halted) ∨
      ∃ i ∈ n.drains, o = .noteDrain i .halted ∧ n.hear o = { n with hit := true } := by
  cases o with
  | noteDrain i note =>
    cases note with
    | halted =>
      by_cases hi : i ∈ n.drains
      · right
        refine ⟨i, hi, rfl, ?_⟩
        simp [HaltLog.hear, hi]
      · left
        refine ⟨?_, ?_⟩
        · simp [HaltLog.hear, hi]
        · rintro j hj heq
          cases heq
          exact hi hj
    | _ => exact Or.inl ⟨rfl, nofun⟩
  | _ => exact Or.inl ⟨rfl, nofun⟩

/-- A step of another thread. -/
theorem Heard.other (h : Heard d v n w) (hw : perform o ch w = some (a, w'))
    (hwaits : ∀ i, o = .noteDrain i .halted → i ∈ n.drains → v.Waits i) :
    Heard d v ((n.hear o).foreign o ch a) w' := by
  obtain ⟨b, hforeign⟩ := foreign_eq (n.hear o) o ch a
  rw [hforeign]
  apply Heard.overwrite
  rcases hear_cases n o with ⟨heq, hquiet⟩ | ⟨i, hi, rfl, heq⟩
  · rw [heq]
    exact h.move hw hquiet
  · rw [heq]
    exact h.strike hi (hwaits i rfl hi) hw

/-! ## The steps of the execution -/

theorem save_eq (n : HaltLog) (schedule : Option ScheduleState) :
    (n.save schedule).drains = n.drains ∧ (n.save schedule).hit = n.hit ∧
      (n.save schedule).at_ = n.at_ := by
  cases schedule <;> exact ⟨rfl, rfl, rfl⟩

/-- A call of the store leaves the log as it is, save for what was saved. -/
theorem own_store (n : HaltLog) (so : StoreOp ι) (ch : Choice ι) (a : Except JsError so.Result) :
    (n.own (.store so) ch a).drains = n.drains ∧ (n.own (.store so) ch a).hit = n.hit ∧
      (n.own (.store so) ch a).at_ = n.at_ := by
  simp only [HaltLog.own]
  split
  · split
    · exact save_eq n _
    · exact ⟨rfl, rfl, rfl⟩
  · split <;> exact ⟨rfl, rfl, rfl⟩

/-- A reading of the clock tells nothing of halts but their time. -/
theorem read_eq (d : Deployment ι) (v : LaneView ι) (t : Int) :
    (v.read d t).spoiled = v.spoiled ∧ (v.read d t).drain = v.drain ∧
      (v.read d t).sweeping = v.sweeping ∧ (v.read d t).peeked = v.peeked ∧
      (v.read d t).halted = v.halted ∧ (v.read d t).posted = v.posted ∧
      (v.read d t).haltedAt = (v.tick d t).haltedAt := by
  unfold LaneView.read
  split
  · exact ⟨rfl, rfl, rfl, rfl, rfl, rfl, rfl⟩
  · unfold LaneView.advance
    split
    · split <;> exact ⟨rfl, rfl, rfl, rfl, rfl, rfl, rfl⟩
    · exact ⟨rfl, rfl, rfl, rfl, rfl, rfl, rfl⟩

/-- The clock is read: the first reading after a halt is its time. -/
theorem Heard.read (h : Heard d v n w) (t : Int) :
    Heard d (v.read d t) { n with at_ := n.at_.orElse fun _ => some t } w := by
  obtain ⟨hspoiled, hdrain, hsweeping, hpeeked, hhalted, hposted, hat⟩ := read_eq d v t
  constructor
  · exact hspoiled.trans h.calm
  · exact hdrain.trans h.drain
  · exact h.begun
  · exact h.known
  · intro hhit
    rw [hdrain, hsweeping, hpeeked, hhalted]
    exact h.pending hhit
  · intro hseen
    rw [hhalted] at hseen
    obtain ⟨hhit, htime⟩ := h.seen hseen
    refine ⟨hhit, ?_⟩
    rw [hat, tick, if_pos hseen, htime]
  · intro hseen hsaved
    obtain ⟨at_, s, htime, hrest⟩ := h.posted (hhalted ▸ hseen) (hposted ▸ hsaved)
    refine ⟨at_, s, ?_, hrest⟩
    rw [htime]
    rfl

/-- The execution looks at the drain. -/
theorem Heard.look (h : Heard d v n w) {i : Nat} (hi : v.drain = some i) :
    Heard d (v.look (w.drain i).result.halted) { n with at_ := none } w := by
  have hmem : i ∈ n.drains := by
    apply List.mem_of_mem_head?
    rw [← h.drain, hi]
    rfl
  by_cases hsweeping : v.sweeping = true
  · -- no drain has halted when the delete phase begins, nor during it
    have hhit : n.hit = false := by
      cases hhit : n.hit with
      | false => rfl
      | true => rw [(h.pending hhit).1] at hsweeping; cases hsweeping
    have hcalm : (w.drain i).result.halted = false := by
      cases hhalted : (w.drain i).result.halted with
      | false => rfl
      | true => rw [h.known i hmem hhalted] at hhit; cases hhit
    have hidle := h.idle hhit
    constructor
    · simp [LaneView.look, h.calm, hcalm]
    · exact h.drain
    · exact h.begun
    · exact h.known
    · intro hhit'
      rw [hhit] at hhit'
      cases hhit'
    · intro hhalted
      simp [LaneView.look, hsweeping, hidle] at hhalted
    · intro hhalted
      simp [LaneView.look, hsweeping, hidle] at hhalted
  · have houtside : v.sweeping = false := Bool.eq_false_iff.2 hsweeping
    constructor
    · simp [LaneView.look, h.calm, houtside]
    · exact h.drain
    · exact h.begun
    · exact h.known
    · intro hhit
      obtain ⟨-, -, j, hj, hhalted⟩ := h.pending hhit
      rw [hi] at hj
      obtain rfl := Option.some.inj hj
      refine ⟨houtside, Or.inr ?_, i, hi, hhalted⟩
      simpa [LaneView.look, houtside] using hhalted
    · intro hhalted
      simp only [LaneView.look, houtside, Bool.false_eq_true, if_false] at hhalted ⊢
      exact ⟨h.known i hmem hhalted, trivial⟩
    · intro _ hposted
      simp [LaneView.look, houtside] at hposted

/-- Where no halt is known, what the execution learns says nothing of halts. -/
theorem Heard.unhurt {v' : LaneView ι} {n' : HaltLog} (h : Heard d v n w) (hhit : n.hit = false)
    (hspoiled : v'.spoiled = false) (hdrain : v'.drain = v.drain) (hhalted : v'.halted = false)
    (hdrains : n'.drains = n.drains) (hhit' : n'.hit = n.hit) : Heard d v' n' w where
  calm := hspoiled
  drain := by rw [hdrain, hdrains]; exact h.drain
  begun := by rw [hdrains]; exact h.begun
  known := by rw [hdrains, hhit']; exact h.known
  pending hh := by
    rw [hhit', hhit] at hh
    cases hh
  seen hh := by
    rw [hhalted] at hh
    cases hh
  posted hh := by
    rw [hhalted] at hh
    cases hh

/-- A call of the store rejects, before any halt. -/
theorem Heard.reject (h : Heard d v n w) (hhit : n.hit = false) (so : StoreOp ι) (e : JsError)
    (ch : Choice ι) :
    Heard d (v.learnStore so (.error e)) (n.own (.store so) ch (.error e)) w := by
  have hidle := h.idle hhit
  obtain ⟨hdrains, hhit', -⟩ := own_store n so ch (.error e)
  have hcalm : (v.spoiled || v.halted) = false := by
    rw [h.calm, hidle]
    rfl
  cases so <;> exact h.unhurt hhit hcalm rfl hidle hdrains hhit'

/-- A call of the store resolves. -/
theorem Heard.resolve (h : Heard d v n w) {so : StoreOp ι} (hallow : v.allow d True (.store so))
    {x : so.Result} (heffect : tookEffect ch (.ok x : Except JsError so.Result) = true) :
    Heard d (v.learnStore so (.ok x)) (n.own (.store so) ch (.ok x)) w := by
  have hkept : so.fencedPatch = none →
      Heard d v (n.own (.store so) ch (.ok x)) w := by
    intro hnone
    simp only [HaltLog.own, hnone]
    split
    · exact h.overwrite true
    · exact h
  cases so with
  | loadState =>
    have hsame := hkept rfl
    exact
      { hsame with
        pending := hsame.pending }
  | saveState l p =>
    obtain ⟨hdrains, hhit, hat⟩ := own_store n (.saveState l p) ch (.ok x)
    constructor
    · exact h.calm
    · rw [hdrains]
      exact h.drain
    · rw [hdrains]
      exact h.begun
    · rw [hdrains, hhit]
      exact h.known
    · rw [hhit]
      exact h.pending
    · rw [hhit, hat]
      exact h.seen
    · intro hhalted _
      -- the contract says which schedule is saved after a halt
      obtain ⟨at_, s, htime, hschedule, hhalt⟩ := hallow.2.2 ⟨hhalted, h.calm⟩
      refine ⟨at_, s, ?_, ?_, hhalt⟩
      · rw [hat, ← (h.seen hhalted).2]
        exact htime
      · simp [HaltLog.own, StoreOp.fencedPatch, heffect, hschedule, HaltLog.save]
  | commitPoll l b =>
    have hidle : v.halted = false := by
      cases hhalted : v.halted with
      | false => rfl
      | true => exact absurd ⟨hhalted, h.calm⟩ hallow.2.2
    obtain ⟨hdrains, hhit, hat⟩ := own_store n (.commitPoll l b) ch (.ok x)
    exact h.unhurt (h.unhit hallow.1 hidle) h.calm rfl hidle hdrains hhit
  | streamIdentities =>
    obtain ⟨hdrains, hhit, hat⟩ := own_store n (.streamIdentities) ch (.ok x)
    exact h.unhurt (h.unhit hallow.1 hallow.2) h.calm rfl hallow.2 hdrains hhit
  | _ => exact hkept rfl

/-- A step of the execution itself. -/
theorem Heard.act {m : MainView ι} (h : Heard d v n w) (hallow : v.allow d True o)
    (hmain : m.allow d o) (hown : ∀ i, m.drain = some i → i ∈ n.drains)
    (hw : perform o ch w = some (a, w'))
    (hlet : (beginsCycle o || rejects o a) = true → n.hit = false) :
    Heard d (v.learn d o a) ((n.hear o).own o ch a) w' := by
  have hmove : (∀ i, o ≠ .noteDrain i .halted) → Heard d v n w' := fun hquiet =>
    h.move hw fun i _ => hquiet i
  cases o with
  | store so =>
    have hstore := hmove (by rintro i ⟨⟩)
    cases a with
    | ok x =>
      refine hstore.resolve hallow ?_
      simp only [perform, Option.map_eq_some_iff, Prod.mk.injEq] at hw
      obtain ⟨⟨b, rec⟩, hr, rfl, -⟩ := hw
      exact tookEffect_ok hr
    | error e => exact hstore.reject (hlet rfl) so e ch
  | now => exact (hmove (by rintro i ⟨⟩)).read a
  | pollStart lane =>
    have hhit := hlet rfl
    refine (hmove (by rintro i ⟨⟩)).unhurt hhit ?_ rfl rfl rfl rfl
    simp [LaneView.begin, LaneView.learn, h.calm, h.idle hhit]
  | newDrain =>
    -- a drain begins only when no halt is pending
    have hhit := h.unhit hallow.1 hallow.2
    have hidle : v.halted = false := hallow.2
    have hnew : a = w.drains.length := by
      cases ch <;> simp only [perform, Option.some.injEq, Prod.mk.injEq, reduceCtorEq] at hw
      exact hw.1.symm
    have hold := hmove (by rintro i ⟨⟩)
    have hlength : w'.drains.length = w.drains.length + 1 := length_drains (t := 0) hw
    constructor
    · exact h.calm
    · rfl
    · intro i hi
      rcases List.mem_cons.1 hi with rfl | hi
      · rw [hnew, hlength]
        exact Nat.lt_succ_self _
      · exact hold.begun i hi
    · intro i hi hhalted
      rcases List.mem_cons.1 hi with rfl | hi
      · rcases halted_noted hw hhalted with hbefore | hnote
        · -- no drain was at the index of the new one
          rw [hnew] at hbefore
          simp [World.drain, List.getD_eq_getElem?_getD] at hbefore
        · cases hnote
      · exact hold.known i hi hhalted
    · intro hhit'
      rw [show n.hit = true from hhit'] at hhit
      cases hhit
    · intro hhalted
      rw [show v.halted = true from hhalted] at hidle
      cases hidle
    · intro hhalted
      rw [show v.halted = true from hhalted] at hidle
      cases hidle
  | startRound deps l run i groups =>
    have hold := hmove (by rintro i ⟨⟩)
    exact
      { hold with
        pending := by
          intro hhit
          obtain ⟨hsweeping, -, hdrain⟩ := hold.pending hhit
          exact ⟨hsweeping, Or.inl rfl, hdrain⟩ }
  | joinRound i =>
    cases a with
    | ok progress => exact hmove (by rintro i ⟨⟩)
    | error e => exact (hmove (by rintro i ⟨⟩)).unhurt (hlet rfl) h.calm rfl rfl rfl rfl
  | peekDrain i =>
    -- the look tells the view what the log knows already
    obtain ⟨rfl, rfl⟩ : a = w.drain i ∧ w' = w := by
      cases ch <;> simp only [perform, Option.some.injEq, Prod.mk.injEq, reduceCtorEq] at hw
      exact ⟨hw.1.symm, hw.2.symm⟩
    refine h.look ?_
    rcases hallow with hnone | hsome
    · -- the execution has begun the drain it looks at
      have hmem := hown i hmain.1
      have hdrain := h.drain
      rw [hnone, eq_comm, List.head?_eq_none_iff] at hdrain
      rw [hdrain] at hmem
      cases hmem
    · exact hsome
  | noteDrain i note => exact hmain.elim
  | diverge => exact a.elim
  | _ =>
    have hold := hmove (by rintro i ⟨⟩)
    exact
      { hold with
        pending := hold.pending }

end Heard

/-! ## What is stored -/

section Stored

variable {n : HaltLog} {o : Op ι} {ch : Choice ι} {a : Ans o} {w w' : World ι}

/-- The schedule the execution saved last is stored, unless the state has been written since. -/
def Stored (n : HaltLog) (w : World ι) : Prop :=
  ∀ s, n.saved = some s → n.overwritten = false → w.store.state.map (·.schedule) = some s

theorem hear_saved (n : HaltLog) (o : Op ι) :
    (n.hear o).saved = n.saved ∧ (n.hear o).overwritten = n.overwritten := by
  rcases hear_cases n o with ⟨heq, -⟩ | ⟨i, -, -, heq⟩ <;> rw [heq] <;> exact ⟨rfl, rfl⟩

theorem Stored.keep (h : Stored n w) (hstate : w'.store.state = w.store.state) : Stored n w' := by
  intro s hs hkept
  rw [hstate]
  exact h s hs hkept

theorem Stored.gone (n : HaltLog) (w : World ι) : Stored { n with overwritten := true } w := by
  intro s _ hkept
  cases hkept

theorem Stored.hear (h : Stored n w) (o : Op ι) : Stored (n.hear o) w := by
  obtain ⟨hsaved, hover⟩ := hear_saved n o
  intro s hs hkept
  exact h s (hsaved ▸ hs) (hover ▸ hkept)

/-- A call that does not write the state, or did not come to it. -/
theorem state_kept {so : StoreOp ι} {a : Except JsError so.Result}
    (hw : perform (.store so) ch w = some (a, w'))
    (h : (tookEffect ch a && so.writesState) = false) : w'.store.state = w.store.state := by
  have hstore := perform_store hw
  have hrun : so.writesState = false → (so.run w.store).2.state = w.store.state := by
    intro hquiet
    cases so with
    | saveState l p => cases hquiet
    | saveStateUnfenced p => cases hquiet
    | commitPoll l b => cases hquiet
    | deleteKey => cases hquiet
    | _ =>
      apply StoreOp.run_state rfl
      nofun
  cases hwrites : so.writesState with
  | false =>
    have hsame := hrun hwrites
    rcases performStore_effect hstore with ⟨-, x, heq, -⟩ | ⟨-, e, -, heq | heq⟩
    · rw [heq] at hsame
      exact hsame
    · rw [heq]
    · rw [heq] at hsame
      exact hsame
  | true =>
    rw [hwrites, Bool.and_true] at h
    cases so with
    | saveState l p =>
      rcases performStore_save hstore with ⟨heffect, -⟩ | ⟨-, -, heq⟩
      · rw [heffect] at h
        cases h
      · rw [heq]
    | commitPoll l b =>
      rcases performStore_commit hstore with ⟨heffect, -⟩ | ⟨-, -, heq⟩
      · rw [heffect] at h
        cases h
      · rw [heq]
    | saveStateUnfenced p =>
      rcases performStore_effect hstore with ⟨heffect, -⟩ | ⟨-, e, -, heq | heq⟩
      · rw [heffect] at h
        cases h
      · rw [heq]
      · cases (Prod.mk.inj heq).1
    | deleteKey =>
      rcases performStore_effect hstore with ⟨heffect, -⟩ | ⟨-, e, -, heq | heq⟩
      · rw [heffect] at h
        cases h
      · rw [heq]
      · cases (Prod.mk.inj heq).1
    | _ => cases hwrites

/-- A step of another thread. -/
theorem Stored.other (h : Stored n w) (hw : perform o ch w = some (a, w')) :
    Stored ((n.hear o).foreign o ch a) w' := by
  have hn := h.hear o
  generalize n.hear o = n₁ at hn
  cases o with
  | store so =>
    simp only [HaltLog.foreign]
    split
    · exact Stored.gone n₁ w'
    · next hquiet => exact hn.keep (state_kept hw (Bool.eq_false_iff.2 hquiet))
  | _ => exact hn.keep (congrArg KeyRecord.state (perform_other (fun so => by simp) hw))

/-- A write under the lease. -/
theorem Stored.save (h : Stored n w) {p : StatePatch}
    (hw : w'.store.state = (w.store.applyPatch p).state) : Stored (n.save p.schedule) w' := by
  intro s hs hkept
  cases hp : p.schedule with
  | some s' =>
    rw [hp] at hs
    rw [hw, KeyRecord.applyPatch, hp]
    exact hs
  | none =>
    rw [hp] at hs hkept
    obtain ⟨state, hstate, hsched⟩ := Option.map_eq_some_iff.1 (h s hs hkept)
    rw [hw, KeyRecord.applyPatch, hp, hstate]
    exact congrArg some hsched

/-- A step of the execution itself. -/
theorem Stored.act (h : Stored n w) (hw : perform o ch w = some (a, w')) :
    Stored ((n.hear o).own o ch a) w' := by
  have hn := h.hear o
  generalize n.hear o = n₁ at hn
  cases o with
  | store so =>
    simp only [HaltLog.own]
    split
    · next p hpatch =>
      have hwrites : so.writesState = true := by
        cases so <;> first | rfl | cases hpatch
      split
      · next heffect =>
        apply hn.save
        cases so with
        | saveState l p' =>
          obtain rfl := Option.some.inj hpatch
          rcases performStore_save (perform_store hw) with ⟨-, -, heq⟩ | ⟨hnone, -⟩
          · rw [heq]
          · rw [heffect] at hnone
            cases hnone
        | commitPoll l b =>
          obtain rfl := Option.some.inj hpatch
          rcases performStore_commit (perform_store hw) with ⟨-, -, heq⟩ | ⟨hnone, -⟩
          · rw [heq]
            rfl
          · rw [heffect] at hnone
            cases hnone
        | _ => cases hpatch
      · next hidle =>
        refine hn.keep (state_kept hw ?_)
        rw [Bool.eq_false_iff.2 hidle]
        rfl
    · split
      · exact Stored.gone n₁ w'
      · next hquiet => exact hn.keep (state_kept hw (Bool.eq_false_iff.2 hquiet))
  | _ => exact hn.keep (congrArg KeyRecord.state (perform_other (fun so => by simp) hw))

end Stored

/-! ## Runs -/

section Runs

variable {d : Deployment ι} {S : EngineCall → Prop} {w w' : World ι} {tr : List (Label (system ι))}
  {c : Config (system ι)} {vs : List (ThreadView ι)} {t : Nat} {o : Op ι} {ch : Choice ι} {a : Ans o}
  {v : ThreadView ι}

theorem haltLog_append (t : Nat) (tr : List (Label (system ι))) (l : Label (system ι)) :
    haltLog t (tr ++ [l]) = (haltLog t tr).note t l := by
  rw [haltLog, List.foldl_append]
  rfl

/-- The threads that took a step. -/
def actors (tr : List (Label (system ι))) : List Nat :=
  tr.filterMap fun
    | .act t _ _ _ => some t
    | _ => none

theorem haltLog_self (t : Nat) (tr : List (Label (system ι))) (o : Op ι) (ch : Choice ι) (a : Ans o) :
    haltLog t (tr ++ [.act t o ch a]) = ((haltLog t tr).hear o).own o ch a :=
  (haltLog_append t tr _).trans (if_pos rfl)

theorem haltLog_other {t u : Nat} (hne : u ≠ t) (tr : List (Label (system ι))) (o : Op ι)
    (ch : Choice ι) (a : Ans o) :
    haltLog u (tr ++ [.act t o ch a]) = ((haltLog u tr).hear o).foreign o ch a :=
  (haltLog_append u tr _).trans (if_neg hne.symm)

theorem laneAt_self (d : Deployment ι) (t : Nat) (tr : List (Label (system ι))) (o : Op ι)
    (ch : Choice ι) (a : Ans o) :
    laneAt d t (tr ++ [.act t o ch a]) = (laneAt d t tr).learn d o a :=
  observe_act_self t tr o ch a

theorem laneAt_other (d : Deployment ι) {t u : Nat} (hne : u ≠ t) (tr : List (Label (system ι)))
    (o : Op ι) (ch : Choice ι) (a : Ans o) :
    laneAt d u (tr ++ [.act t o ch a]) = laneAt d u tr :=
  observe_act_ne hne.symm tr o ch a

/-- A thread without drains hears of no halt. -/
theorem hear_none {n : HaltLog} (hdrains : n.drains = []) (o : Op ι) : n.hear o = n := by
  rcases hear_cases n o with ⟨heq, -⟩ | ⟨i, hi, -⟩
  · exact heq
  · rw [hdrains] at hi
    cases hi

theorem hear_drains (n : HaltLog) (o : Op ι) : (n.hear o).drains = n.drains := by
  rcases hear_cases n o with ⟨heq, -⟩ | ⟨i, -, -, heq⟩ <;> rw [heq]

/-- A log without drains and halts. -/
structure HaltLog.Blank (n : HaltLog) : Prop where
  drains : n.drains = []
  hit : n.hit = false

theorem HaltLog.Blank.foreign {n : HaltLog} (h : n.Blank) (o : Op ι) (ch : Choice ι) (a : Ans o) :
    ((n.hear o).foreign o ch a).Blank := by
  obtain ⟨b, heq⟩ := foreign_eq (n.hear o) o ch a
  rw [heq, hear_none h.drains]
  exact ⟨h.drains, h.hit⟩

/-- A thread that begins no drain. -/
theorem HaltLog.Blank.own {n : HaltLog} (h : n.Blank) (ho : o ≠ .newDrain) :
    ((n.hear o).own o ch a).Blank := by
  rw [hear_none h.drains]
  cases o with
  | store so =>
    obtain ⟨hdrains, hhit, -⟩ := own_store n so ch a
    exact ⟨hdrains.trans h.drains, hhit.trans h.hit⟩
  | newDrain => exact absurd rfl ho
  | _ => exact ⟨h.drains, h.hit⟩

/-- The drain in the view of a main thread is one it has begun. -/
theorem own_drains {m : MainView ι} {n : HaltLog} (h : ∀ i, m.drain = some i → i ∈ n.drains) :
    ∀ i, (m.learn o a).drain = some i → i ∈ ((n.hear o).own o ch a).drains := by
  intro i hi
  have hn : m.drain = some i → i ∈ (n.hear o).drains := by
    rw [hear_drains]
    exact h i
  cases o with
  | store so =>
    obtain ⟨hdrains, -⟩ := own_store (n.hear (.store so)) so ch a
    rw [hdrains]
    apply hn
    rw [← hi]
    cases so with
    | acquireLease owner ttlMs now =>
      cases a with
      | ok lease => cases lease <;> rfl
      | error e => rfl
    | loadPending limit => cases a <;> rfl
    | heldKeys => cases a <;> rfl
    | _ => rfl
  | newDrain =>
    obtain rfl := Option.some.inj hi
    exact List.mem_cons_self
  | joinRound j =>
    cases a with
    | ok progress => exact hn hi
    | error e => cases hi
  | diverge => exact a.elim
  | _ => exact hn hi

/-- A thread that took no step has begun no drain. -/
theorem drains_nil {u : Nat} (h : u ∉ actors tr) : (haltLog u tr).drains = [] := by
  induction tr using List.reverseRecOn with
  | nil => rfl
  | append_singleton tr l ih =>
    simp only [actors, List.filterMap_append, List.mem_append, not_or] at h
    have hold := ih h.1
    cases l with
    | start p =>
      rw [haltLog_append]
      exact hold
    | drift x =>
      rw [haltLog_append]
      exact hold
    | act t o ch a =>
      have hne : u ≠ t := by
        rintro rfl
        exact h.2 (by simp)
      obtain ⟨b, hlog⟩ := foreign_eq ((haltLog u tr).hear o) o ch a
      have hsame := congrArg HaltLog.drains ((haltLog_other hne tr o ch a).trans hlog)
      exact hsame.trans ((hear_drains _ o).trans hold)

instance (v : LaneView ι) (i : Nat) : Decidable (v.Waits i) :=
  decidable_of_iff (v.drain = some i ∧ v.peeked = false ∧ v.sweeping = false)
    ⟨fun ⟨h, h', h''⟩ => ⟨h, h', h''⟩, fun h => ⟨h.drain, h.peeked, h.sweeping⟩⟩

instance (d : Deployment ι) (pre : List (Label (system ι))) (l : Label (system ι)) :
    Decidable (LetsHalt d pre l) :=
  match l with
  | .start _ => isTrue trivial
  | .drift _ => isTrue trivial
  | .act t o _ a =>
    decidable_of_iff
      (((beginsCycle o || rejects o a) = true → (haltLog t pre).hit = false) ∧
        ∀ i ∈ haltedDrain o, ∀ u ∈ actors pre, i ∈ (haltLog u pre).drains →
          (laneAt d u pre).Waits i) (by
      refine and_congr_right fun _ => forall₂_congr fun i _ => ⟨fun h u hi => ?_, fun h u _ => h u⟩
      refine h u ?_ hi
      by_contra hu
      rw [drains_nil hu] at hi
      cases hi)

/-- Every execution agrees with what is known of its halts. -/
structure HaltsKnown (d : Deployment ι) (tr : List (Label (system ι))) (vs : List (ThreadView ι))
    (w : World ι) : Prop where
  heard : ∀ (t : Nat) m, vs[t]? = some (.main m) → Heard d (laneAt d t tr) (haltLog t tr) w
  own : ∀ (t : Nat) m i, vs[t]? = some (.main m) → m.drain = some i → i ∈ (haltLog t tr).drains
  blank : ∀ t : Nat, (∀ m, vs[t]? ≠ some (.main m)) → (haltLog t tr).Blank
  stored : ∀ t, Stored (haltLog t tr) w

theorem HaltsKnown.start (h : HaltsKnown d tr vs w) (p : Prog (Op ι) Ans Unit)
    (hfresh : laneAt d vs.length tr = {}) :
    HaltsKnown d (tr ++ [.start p]) ((deliveries d).step vs (.start p)) w := by
  have hlog : ∀ t, haltLog t (tr ++ [.start p]) = haltLog t tr := fun t => haltLog_append t tr _
  have hlane : ∀ t, laneAt d t (tr ++ [.start p]) = laneAt d t tr := fun t => observe_start t tr p
  constructor
  · intro t m hm
    rw [hlog, hlane]
    rcases step_start_cases hm with hold | ⟨rfl, -⟩
    · exact h.heard t m hold
    · have hblank := h.blank vs.length (by simp)
      rw [hfresh]
      exact Heard.fresh hblank.drains hblank.hit
  · intro t m i hm hi
    rw [hlog]
    rcases step_start_cases hm with hold | ⟨-, heq⟩
    · exact h.own t m i hold hi
    · obtain rfl : m = {} := ThreadView.main.inj heq
      cases hi
  · intro t hnone
    rw [hlog]
    exact h.blank t fun m hm => hnone m (step_start_old hm)
  · intro t
    rw [hlog]
    exact h.stored t

theorem HaltsKnown.act (h : HaltsKnown d tr vs w) (hv : vs[t]? = some v) (hallow : v.allow d o)
    (hlane : (laneAt d t tr).allow d True o) (hw : perform o ch w = some (a, w'))
    (hfresh : ∀ u, vs.length ≤ u → laneAt d u tr = {}) (hlet : LetsHalt d tr (.act t o ch a)) :
    HaltsKnown d (tr ++ [.act t o ch a]) ((deliveries d).step vs (.act t o ch a)) w' := by
  have hlt : t < vs.length := (List.getElem?_eq_some_iff.1 hv).1
  constructor
  · intro u m hm
    rcases step_act_cases hm with ⟨v₀, rfl, hv₀, heq⟩ | ⟨hne, hold⟩ | ⟨hge, -, -⟩
    · cases v₀ with
      | main m₀ =>
        obtain rfl := Option.some.inj (hv₀.symm.trans hv)
        rw [laneAt_self, haltLog_self]
        exact (h.heard u m₀ hv).act hlane hallow (fun i => h.own u m₀ i hv) hw hlet.1
      | worker x => cases heq
      | keeper l => cases heq
    · rw [laneAt_other d hne, haltLog_other hne]
      refine (h.heard u m hold).other hw ?_
      rintro i rfl hi
      exact hlet.2 i rfl u hi
    · have hne : u ≠ t := by omega
      have hblank := (h.blank u (by rw [List.getElem?_eq_none hge]; nofun)).foreign o ch a
      rw [laneAt_other d hne, haltLog_other hne, hfresh u hge]
      exact Heard.fresh hblank.drains hblank.hit
  · intro u m i hm hi
    rcases step_act_cases hm with ⟨v₀, rfl, hv₀, heq⟩ | ⟨hne, hold⟩ | ⟨-, heq, -⟩
    · cases v₀ with
      | main m₀ =>
        obtain rfl := Option.some.inj (hv₀.symm.trans hv)
        obtain rfl : m = m₀.learn o a := ThreadView.main.inj heq
        rw [haltLog_self]
        exact own_drains (fun i => h.own u m₀ i hv) i hi
      | worker x => cases heq
      | keeper l => cases heq
    · obtain ⟨b, hlog⟩ := foreign_eq ((haltLog u tr).hear o) o ch a
      rw [haltLog_other hne, hlog]
      change i ∈ ((haltLog u tr).hear o).drains
      rw [hear_drains]
      exact h.own u m i hold hi
    · -- a forked main thread would know nothing
      have hnone : m.drain = none := by
        cases o <;> simp only [deliveries, forkView, ThreadView.main.injEq, reduceCtorEq] at heq <;>
          rw [heq]
      rw [hnone] at hi
      cases hi
  · intro u hnone
    by_cases hu : u = t
    · subst hu
      have hself : ((deliveries d).step vs (.act u o ch a))[u]? = some (v.learn d o a) :=
        step_act_self hv
      have hblank := h.blank u (by
        intro m hm
        obtain rfl := Option.some.inj (hm.symm.trans hv)
        exact hnone _ hself)
      rw [haltLog_self]
      apply hblank.own
      rintro rfl
      -- only a main thread begins drains
      cases v with
      | main m => exact hnone _ hself
      | worker x => exact hallow
      | keeper l => exact hallow
    · rw [haltLog_other hu]
      apply HaltLog.Blank.foreign
      apply h.blank u
      intro m hm
      exact hnone m (step_act_other hu hm)
  · intro u
    by_cases hu : u = t
    · subst hu
      rw [haltLog_self]
      exact (h.stored u).act hw
    · rw [haltLog_other hu]
      exact (h.stored u).other hw

/-- Up to the first step that comes in the way of a halt, every execution agrees with what is known
of its halts. -/
theorem halts_known (h : Run (system ι) (d.entry S) w tr c) (hlet : Throughout (LetsHalt d) tr) :
    HaltsKnown d tr ((deliveries d).views tr) c.world := by
  have hobeys : Obeys (system ι) (d.entry S) (laneContract d True) {} :=
    obeysLanes d fun _ _ _ => trivial
  -- a thread that is not there has seen nothing
  have hfresh : ∀ {tr : List (Label (system ι))} {c : Config (system ι)},
      Run (system ι) (d.entry S) w tr c → ∀ u, ((deliveries d).views tr).length ≤ u →
        laneAt d u tr = {} := by
    intro tr c hr u hu
    rw [(hr.inRole (rolesObeyed d S)).length] at hu
    exact (hr.kept hobeys).fresh u hu
  refine Run.roles (rolesObeyed d S) (J := fun tr vs w => HaltsKnown d tr vs w) ?_ ?_ ?_ ?_ h hlet
  · constructor
    · intro t m hm
      cases hm
    · intro t m i hm
      cases hm
    · intro t _
      exact ⟨rfl, rfl⟩
    · intro t s hs
      cases hs
  · intro tr c q hr _ hJ
    exact hJ.start q (hfresh hr _ le_rfl)
  · intro tr c t o k ch a w' v hr hJ ht hv hallow hw hl
    exact hJ.act hv hallow (hr.allow hobeys ht) hw (hfresh hr) hl
  · intro tr c x _ hJ
    have hlog : ∀ t, haltLog t (tr ++ [.drift x]) = haltLog t tr := fun t => haltLog_append t tr _
    have hlane : ∀ t, laneAt d t (tr ++ [.drift x]) = laneAt d t tr := fun t => observe_drift t tr x
    constructor
    · intro t m hm
      rw [hlog, hlane]
      have hheard := hJ.heard t m hm
      exact
        { hheard with
          pending := hheard.pending }
    · intro t m i hm hi
      rw [hlog]
      exact hJ.own t m i hm hi
    · intro t hnone
      rw [hlog]
      exact hJ.blank t hnone
    · intro t
      rw [hlog]
      exact hJ.stored t

/-- Up to the first step that comes in the way of a halt, every halt is honoured. -/
theorem halts_honoured (h : Run (system ι) (d.entry S) w tr c) :
    Throughout (fun pre l => Throughout (LetsHalt d) pre → HonoursHalt d w pre l) tr := by
  rintro pre l post rfl hlet
  cases l with
  | start p => trivial
  | drift x => trivial
  | act t o ch a =>
    obtain ⟨c₁, k, w', hpre, ht, -⟩ := h.act_at
    have hknown := halts_known hpre hlet
    have hallow : (laneAt d t pre).allow d True o := hpre.allow (obeysLanes d fun _ _ _ => trivial) ht
    obtain ⟨v, hv, hrole⟩ := hpre.mayCall (rolesObeyed d S) ht
    -- a thread that is no main thread knows of no halt
    have hhit : (haltLog t pre).hit = true → ∃ m, v = .main m := by
      intro hhit
      cases v with
      | main m => exact ⟨m, rfl⟩
      | _ =>
        have hblank := (hknown.blank t (by rw [hv]; nofun)).hit
        rw [hblank] at hhit
        cases hhit
    cases o with
    | fetch lane ctx =>
      change (haltLog t pre).hit = false
      cases hset : (haltLog t pre).hit with
      | false => rfl
      | true =>
        obtain ⟨m, rfl⟩ := hhit hset
        have hheard := hknown.heard t m hv
        obtain ⟨-, hcalm, hpeeked⟩ := hallow.2
        have hidle : (laneAt d t pre).halted = false :=
          Bool.eq_false_iff.2 fun hhalted => hcalm ⟨hhalted, hheard.calm⟩
        rw [hheard.unhit hpeeked hidle] at hset
        cases hset
    | store so =>
      cases so with
      | releaseLease lease =>
        intro hset
        obtain ⟨m, rfl⟩ := hhit hset
        have hheard := hknown.heard t m hv
        have hhalted : (laneAt d t pre).halted = true := by
          rcases (hheard.pending hset).2.1 with hwaits | hhalted
          · rw [hallow.1] at hwaits
            cases hwaits
          · exact hhalted
        obtain ⟨-, -, -, hposted, -⟩ := hallow.2 ⟨hhalted, hheard.calm⟩
        obtain ⟨at_, s, htime, hsaved, hhalt⟩ := hheard.posted hhalted hposted
        refine ⟨at_, s, htime, hsaved, hhalt, ?_⟩
        intro hkept
        rw [← hpre.world_eq]
        exact hknown.stored t s hsaved hkept
      | _ => trivial
    | _ => trivial

end Runs

/-! ## Sample runs -/

/-- The execution releases its lease after a halt. -/
def ReleasesHalted (pre : List (Label (system ι))) : Label (system ι) → Prop
  | .act t (.store (.releaseLease _)) _ _ => (haltLog t pre).hit = true
  | _ => False

/-- The execution releases its lease after a halt and has saved a schedule that is not open. -/
def ReleasesShut (pre : List (Label (system ι))) : Label (system ι) → Prop
  | .act t (.store (.releaseLease _)) _ _ =>
    (haltLog t pre).hit = true ∧ ∀ s ∈ (haltLog t pre).saved, s.circuit ≠ .open
  | _ => False

instance (pre : List (Label (system ι))) (l : Label (system ι)) :
    Decidable (ReleasesHalted pre l) := by
  unfold ReleasesHalted
  rcases l with _ | ⟨t, ⟨o⟩ | _, ch, a⟩ | _
  case act.store => rcases o <;> infer_instance
  all_goals infer_instance

instance (pre : List (Label (system ι))) (l : Label (system ι)) : Decidable (ReleasesShut pre l) := by
  unfold ReleasesShut
  rcases l with _ | ⟨t, ⟨o⟩ | _, ch, a⟩ | _
  case act.store => rcases o <;> infer_instance
  all_goals infer_instance

/-- A halt that is honoured does not leave the circuit shut. -/
theorem HonoursHalt.not_shut {d : Deployment ι} {w : World ι} {pre : List (Label (system ι))}
    {l : Label (system ι)} (h : HonoursHalt d w pre l) : ¬ReleasesShut pre l := by
  intro hshut
  cases l with
  | act t o ch a =>
    cases o with
    | store so =>
      cases so with
      | releaseLease lease =>
        obtain ⟨at_, s, -, hsaved, hhalt, -⟩ := h hshut.1
        exact hshut.2 s hsaved hhalt.1
      | _ => exact hshut
    | _ => exact hshut
  | _ => exact hshut

/-- A poison event halts its drain. -/
def halting : Deployment Sample :=
  sampleOf
    { samplePoller with
      delivery := { samplePoller.delivery with poisonAction := .halt, poisonHoldKey := false } }

/-- The handler rejects. -/
def refuses (at_ : Int) : Op Sample → Choice Sample
  | .deliver _ => .settle (.error { kind := .plain, name := "Error", message := "refused" })
  | o => calm at_ .finish o

/-- The event of a page is delivered; a cycle later it is deleted, and the handler rejects that. -/
def deletedPoison : List (Scene Sample) :=
  [ .ask (instanceOf halting true) forced,
    .run 0 36 (calm 5 (onePage [("a", "1")])), .run 2 11 (calm 6 .finish), .run 0 19 (calm 7 .finish),
    .ask (instanceOf halting true) forced,
    .run 3 44 (calm 15 (onePage [])), .run 5 13 (refuses 16), .run 3 14 (calm 17 .finish) ]

/-- The handler rejects the event of a page. -/
def pagePoison : List (Scene Sample) :=
  [ .ask (instanceOf halting true) forced,
    .run 0 36 (calm 5 (onePage [("a", "1")])), .run 2 13 (refuses 6), .run 0 16 (calm 7 .finish) ]

set_option maxRecDepth 100000 in
/-- A poison event after a delete commit: the circuit stays closed. -/
theorem deleted_poison_missed : ∃ tr c,
    Run (system Sample) (halting.entry fun _ => True) (World.fresh halting.key) tr c ∧
    ¬Throughout (HonoursHalt halting (World.fresh halting.key)) tr := by
  have hcast : Cast halting (fun _ => True) deletedPoison :=
    .ask (instanceOf_in _ _) trivial (.run (.run (.run
      (.ask (instanceOf_in _ _) trivial (.run (.run (.run .nil)))))))
  obtain ⟨tr, c, hrun, hcheck⟩ := play_run hcast
    (fun tr _ => decide (¬Throughout (fun pre l => ¬ReleasesShut pre l) tr)) (by decide +kernel)
  refine ⟨tr, c, hrun, fun h => of_decide_eq_true hcheck ?_⟩
  exact h.mono fun pre l => HonoursHalt.not_shut

set_option maxRecDepth 100000 in
theorem halts_honoured_sample : ∃ tr c,
    Run (system Sample) (halting.entry fun _ => True) (World.fresh halting.key) tr c ∧
    Throughout (LetsHalt halting) tr ∧ ¬Throughout (fun pre l => ¬ReleasesHalted pre l) tr ∧
    Throughout (fun pre l => Throughout (LetsHalt halting) pre →
      HonoursHalt halting (World.fresh halting.key) pre l) tr := by
  have hcast : Cast halting (fun _ => True) pagePoison :=
    .ask (instanceOf_in _ _) trivial (.run (.run (.run .nil)))
  obtain ⟨tr, c, hrun, hcheck⟩ := play_run hcast
    (fun tr _ => decide (Throughout (LetsHalt halting) tr ∧
      ¬Throughout (fun pre l => ¬ReleasesHalted pre l) tr)) (by decide +kernel)
  obtain ⟨hlet, hhalted⟩ := of_decide_eq_true hcheck
  exact ⟨tr, c, hrun, hlet, hhalted, halts_honoured hrun⟩

end Watukuy
