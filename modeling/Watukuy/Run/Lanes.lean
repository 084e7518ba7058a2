import Watukuy.Run.Fencing

/-!
# Lanes in all runs

The system writes into a lane what `laneNext`, the end of a cycle and the administrative operations
put there. A property of lane cursors that these keep (`LaneLaw`) holds in every run of all lanes, as
stored and in the memory of the executions. `unforced`: without a forced backfill, no lane is ever
forced. `untargeted`: the lanes of a `snapshotDiff` poller never have a target.
-/

set_option autoImplicit false

namespace Watukuy

open Library KeyRecord

variable {ι : Type}

/-- All lanes satisfy `P`. -/
def Lanes.All (P : LaneCursor → Prop) (lanes : Lanes) : Prop :=
  ∀ lane next, lanes.get lane = some next → P next

theorem Lanes.all_empty (P : LaneCursor → Prop) : ({} : Lanes).All P := by
  intro lane next h
  cases lane <;> cases h

theorem Lanes.get_set (lanes : Lanes) (lane lane' : Lane) (next : LaneCursor) :
    (lanes.set lane next).get lane' =
      if lane = lane' ∧ lane ≠ .replay then some next else lanes.get lane' := by
  cases lane <;> cases lane' <;> rfl

section All

variable {P : LaneCursor → Prop} {lanes : Lanes}

theorem Lanes.All.set (h : lanes.All P) {lane : Lane} {next : LaneCursor} (hnext : P next) :
    (lanes.set lane next).All P := by
  intro lane' next' hget
  rw [Lanes.get_set] at hget
  split at hget
  · rw [← Option.some.inj hget]
    exact hnext
  · exact h lane' next' hget

theorem Lanes.All.start (h : lanes.All P) (hempty : P { cursor := none }) (lane : Lane) :
    P ((lanes.get lane).getD { cursor := none }) := by
  cases hget : lanes.get lane with
  | none => exact hempty
  | some next => exact h lane next hget

theorem Lanes.All.patch (h : lanes.All P) {patch : Option Lanes}
    (hpatch : ∀ l, patch = some l → l.All P) : (patch.getD lanes).All P := by
  cases patch with
  | none => exact h
  | some l => exact hpatch l rfl

end All

/-- The stored lanes after a call: unchanged, gone, or as patched. -/
theorem lanes_performStore {so : StoreOp ι} {ch : Choice ι} {rec rec' : KeyRecord ι}
    {a : Except JsError so.Result} (h : performStore so ch rec = some (a, rec')) :
    rec'.lanes = rec.lanes ∨ rec'.lanes = {} ∨
      ∃ p, so.patch = some p ∧ rec'.lanes = p.lanes.getD rec.lanes := by
  cases so with
  | acquireLease owner ttlMs now =>
    rcases performStore_acquire h with ⟨hrec, -⟩ | ⟨l, -, hrec, -⟩ <;> rw [hrec] <;> exact Or.inl rfl
  | saveState l p =>
    rcases performStore_save h with ⟨-, -, hrec⟩ | ⟨-, -, hrec⟩ <;> rw [hrec]
    · exact Or.inr (Or.inr ⟨p, rfl, lanes_applyPatch rec p⟩)
    · exact Or.inl rfl
  | saveStateUnfenced p =>
    rcases performStore_saveUnfenced h with hrec | hrec <;> rw [hrec]
    · exact Or.inr (Or.inr ⟨p, rfl, lanes_applyPatch rec p⟩)
    · exact Or.inl rfl
  | commitPoll l b =>
    rcases performStore_commit h with ⟨-, -, hrec⟩ | ⟨-, -, hrec⟩ <;> rw [hrec]
    · exact Or.inr (Or.inr ⟨b.statePatch, rfl, lanes_applyPatch rec b.statePatch⟩)
    · exact Or.inl rfl
  | clearItems =>
    rcases performStore_effect h with ⟨-, x, hrun, -⟩ | ⟨-, e, -, hrec | hrun⟩
    · rw [← (Prod.mk.inj hrun).2]
      exact Or.inl rfl
    · rw [hrec]
      exact Or.inl rfl
    · cases (Prod.mk.inj hrun).1
  | deleteKey =>
    rcases performStore_effect h with ⟨-, x, hrun, -⟩ | ⟨-, e, -, hrec | hrun⟩
    · rw [← (Prod.mk.inj hrun).2]
      exact Or.inr (Or.inl rfl)
    · rw [hrec]
      exact Or.inl rfl
    · cases (Prod.mk.inj hrun).1
  | _ =>
    refine Or.inl (performStore_same ?_ h).lanes
    trivial

/-- The lanes in memory after an answer: unchanged, as patched, as loaded, or gone. -/
theorem lanes_learn {v : CycleView ι} {o : Op ι} {ch : Choice ι} {w w' : World ι} {a : Ans o}
    (hw : perform o ch w = some (a, w')) :
    (v.learn o a).lanes = v.lanes ∨ (v.learn o a).lanes = {} ∨
      (v.learn o a).lanes = w.store.lanes ∨
        ∃ so p lanes, o = .store so ∧ so.patch = some p ∧ p.lanes = some lanes ∧
          (v.learn o a).lanes = lanes := by
  cases o with
  | store so =>
    have hp := perform_store hw
    have hpatch : ∀ p : StatePatch, so.patch = some p →
        p.lanes.getD v.lanes = v.lanes ∨ ∃ so' p' lanes, Op.store so = .store so' ∧
          so'.patch = some p' ∧ p'.lanes = some lanes ∧ p.lanes.getD v.lanes = lanes := by
      intro p hsp
      cases hl : p.lanes with
      | none => exact Or.inl rfl
      | some lanes => exact Or.inr ⟨so, p, lanes, rfl, hsp, hl, rfl⟩
    cases so with
    | acquireLease owner ttlMs now =>
      cases a with
      | error e => exact Or.inl rfl
      | ok got =>
        cases got with
        | none => exact Or.inl rfl
        | some l => exact Or.inr (Or.inl rfl)
    | loadState =>
      cases a with
      | error e => exact Or.inl rfl
      | ok st =>
        have hread := (performStore_read (fun _ => rfl) hp).2 st rfl
        refine Or.inr (Or.inr (Or.inl ?_))
        rw [hread]
        rfl
    | saveState l p =>
      cases a with
      | error e => exact Or.inl rfl
      | ok x =>
        rcases hpatch p rfl with h | h
        · exact Or.inl h
        · exact Or.inr (Or.inr (Or.inr h))
    | commitPoll l b =>
      cases a with
      | error e => exact Or.inl rfl
      | ok x =>
        rcases hpatch b.statePatch rfl with h | h
        · exact Or.inl h
        · exact Or.inr (Or.inr (Or.inr h))
    | loadVersions ids | streamIdentities | getValidator h => cases a <;> exact Or.inl rfl
    | _ => exact Or.inl rfl
  | http req => cases a <;> exact Or.inl rfl
  | _ => exact Or.inl rfl

/-- The lane cursor of the cycle changes only when a cycle begins. -/
theorem start_learn (v : CycleView ι) (o : Op ι) (a : Ans o) :
    (v.learn o a).start = v.start ∨ (v.learn o a).start = { cursor := none } ∨
      ∃ lane, (v.learn o a).start = (v.lanes.get lane).getD { cursor := none } := by
  cases o with
  | store so =>
    cases so with
    | acquireLease owner ttlMs now =>
      cases a with
      | error e => exact Or.inl rfl
      | ok got => cases got <;> first | exact Or.inl rfl | exact Or.inr (Or.inl rfl)
    | loadState | saveState _ _ | commitPoll _ _ | loadVersions _ | streamIdentities
    | getValidator _ => cases a <;> exact Or.inl rfl
    | _ => exact Or.inl rfl
  | http req => cases a <;> exact Or.inl rfl
  | pollStart lane => exact Or.inr (Or.inr ⟨lane, rfl⟩)
  | _ => exact Or.inl rfl

/-! ## Laws of lanes -/

section Runs

variable {d : Deployment ι} {S : EngineCall → Prop} {P : LaneCursor → Prop}

/-- What the system writes into a lane satisfies `P`. -/
structure LaneLaw (d : Deployment ι) (S : EngineCall → Prop) (P : LaneCursor → Prop) : Prop where
  empty : P { cursor := none }
  next : ∀ (c : Cycle ι) cursor, P c.start → P (laneNext c cursor)
  final : ∀ (v : CycleView ι) last, P v.start → FinalLane v last → P last
  admin : ∀ lane next, AdminLane d S lane next → P next

/-- The lanes satisfy `P`, as stored and in memory. -/
structure LanesHold (P : LaneCursor → Prop) (views : Nat → CycleView ι) (rec : KeyRecord ι) :
    Prop where
  stored : rec.lanes.All P
  memory : ∀ t, (views t).lanes.All P
  start : ∀ t, P (views t).start

/-- The lanes of the patches the contract allows. -/
theorem LaneLaw.patch (law : LaneLaw d S P) {v : CycleView ι} {so : StoreOp ι} {p : StatePatch}
    (hstart : P v.start) (hlanes : v.lanes.All P)
    (hallow : (cycleContract d (administers d S)).allow v (.store so)) (hp : so.patch = some p) :
    ∀ lanes, p.lanes = some lanes → lanes.All P := by
  intro lanes heq
  cases so with
  | saveState l q =>
    obtain rfl := Option.some.inj hp
    rcases hallow with hallow | hallow
    · obtain ⟨last, rfl, hlast⟩ := (hallow.lanes lanes heq).lanes_eq
      exact hlanes.set (law.final v last hstart hlast)
    · exact hallow.elim
  | saveStateUnfenced q =>
    obtain rfl := Option.some.inj hp
    rcases hallow with hallow | ⟨-, -, hallow⟩
    · exact hallow.elim
    · obtain ⟨lane, next, hadmin, rfl⟩ := hallow lanes heq
      exact hlanes.set (law.admin lane next hadmin)
  | commitPoll l b =>
    obtain rfl := Option.some.inj hp
    rcases hallow with ⟨-, -, ⟨⟨page⟩⟩ | ⟨⟨deletes⟩⟩⟩ | ⟨-, hreplay⟩
    · rw [page.lanes_eq] at heq
      rw [← Option.some.inj heq]
      refine hlanes.set (law.next page.cycle _ ?_)
      rw [page.inCycle.start]
      exact hstart
    · rw [deletes.lanes_eq] at heq
      cases heq
    · rw [hreplay.lanes] at heq
      cases heq
  | _ => cases hp

theorem LanesHold.act (law : LaneLaw d S P) {tr : List (Label (system ι))} {w w' : World ι} {t : Nat}
    {o : Op ι} {ch : Choice ι} {a : Ans o} (h : LanesHold P (viewAt tr) w.store)
    (hallow : (cycleContract d (administers d S)).allow (viewAt tr t) o)
    (hw : perform o ch w = some (a, w')) :
    LanesHold P (viewAt (tr ++ [.act t o ch a])) w'.store := by
  refine ⟨?_, fun t' => ?_, fun t' => ?_⟩
  · cases o with
    | store so =>
      rcases lanes_performStore (perform_store hw) with heq | heq | ⟨p, hp, heq⟩
      · rw [heq]
        exact h.stored
      · rw [heq]
        exact Lanes.all_empty P
      · rw [heq]
        exact h.stored.patch (law.patch (h.start t) (h.memory t) hallow hp)
    | _ =>
      rw [perform_other (fun so => by simp) hw]
      exact h.stored
  · rw [viewAt_act]
    split
    · rcases lanes_learn (v := viewAt tr t) hw with heq | heq | heq | ⟨so, p, lanes, rfl, hp, hl, heq⟩
      · rw [heq]
        exact h.memory t
      · rw [heq]
        exact Lanes.all_empty P
      · rw [heq]
        exact h.stored
      · rw [heq]
        exact law.patch (h.start t) (h.memory t) hallow hp lanes hl
    · exact h.memory t'
  · rw [viewAt_act]
    split
    · rcases start_learn (viewAt tr t) o a with heq | heq | ⟨lane, heq⟩
      · rw [heq]
        exact h.start t
      · rw [heq]
        exact law.empty
      · rw [heq]
        exact (h.memory t).start law.empty lane
    · exact h.start t'

/-- A law of lanes holds of all lanes in every run. -/
theorem lanesHold (law : LaneLaw d S P) {tr : List (Label (system ι))} {c : Config (system ι)}
    (h : Run (system ι) (d.entry S) (World.fresh d.key) tr c) :
    LanesHold P (viewAt tr) (World.store (ι := ι) c.world) := by
  refine views_invariant (J := LanesHold P) ?_ (fun _ hJ hallow hw => hJ.act law hallow hw) h
  exact ⟨Lanes.all_empty P, fun _ => Lanes.all_empty P, fun _ => law.empty⟩

/-! ## Forced lanes and targets -/

/-- The backfills among the calls are not forced. -/
def NoForce (S : EngineCall → Prop) : Prop := ∀ options, S (.backfill options) → options.force = false

theorem unforced_law (hforce : NoForce S) : LaneLaw d S fun next => next.force = false where
  empty := rfl
  next c cursor h := by
    unfold laneNext
    split
    · simp [Cycle.force, h]
    · exact h
    · exact h
  final v last h hlast := by
    by_contra hf
    rw [Bool.not_eq_false] at hf
    rw [hlast.force hf] at h
    cases h
  admin lane next h := by
    by_contra hf
    rw [Bool.not_eq_false] at hf
    obtain ⟨options, hbackfill, hoptions⟩ := h.force hf
    rw [hforce options hbackfill] at hoptions
    cases hoptions

/-- Without forced backfills, no lane is ever forced. -/
theorem unforced (hforce : NoForce S) {tr : List (Label (system ι))} {c : Config (system ι)}
    (h : Run (system ι) (d.entry S) (World.fresh d.key) tr c) :
    LanesHold (fun next => next.force = false) (viewAt tr) (World.store (ι := ι) c.world) :=
  lanesHold (unforced_law hforce) h

theorem untargeted_law (hdiff : d.poller.cursor.isSnapshotDiff = true) :
    LaneLaw d S fun next => next.target = none where
  empty := rfl
  next c cursor h := by
    unfold laneNext
    split <;> exact h
  final v last h hlast := by
    rcases hlast.target with hnone | hkept
    · exact hnone
    · rw [hkept, h]
  admin lane next h := by
    cases htarget : next.target with
    | none => rfl
    | some target =>
      have hno := h.target (by rw [htarget]; rfl)
      rw [hdiff] at hno
      cases hno

/-- The lanes of a `snapshotDiff` poller have no target. -/
theorem untargeted (hdiff : d.poller.cursor.isSnapshotDiff = true) {tr : List (Label (system ι))}
    {c : Config (system ι)} (h : Run (system ι) (d.entry S) (World.fresh d.key) tr c) :
    LanesHold (fun next => next.target = none) (viewAt tr) (World.store (ι := ι) c.world) :=
  lanesHold (untargeted_law hdiff) h

end Runs

end Watukuy
