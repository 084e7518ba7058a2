import Watukuy.Core.Partitions
import Watukuy.Cycle.Operators
import Watukuy.Run.Fence

/-!
# Partitions that come back

The flag of a partition is what was last written to it: by a refresh that misses the partition, or by
`pause` and `resume`. No refresh takes the flag back, so a partition that comes back is paused until
someone resumes it. An execution answers `paused` only when a state that it loads says so.
-/

set_option autoImplicit false

namespace Watukuy

open Library Task

variable {ι : Type}

/-! ## What becomes of the flag -/

/-- What a partition has seen: the last call of `pause` or `resume`, and whether a refresh has
removed it since. -/
structure PartitionHistory where
  removed : Bool := false
  /-- `true` for `pause`. -/
  lastCall : Option Bool := none

def PartitionHistory.note (partition : String) (h : PartitionHistory) :
    PartitionLabel → PartitionHistory
  | .removed key => if key = partition then { h with removed := true } else h
  | .paused key => if key = partition then { removed := false, lastCall := some true } else h
  | .resumed key => if key = partition then { removed := false, lastCall := some false } else h
  | .refreshed _ => h

/-- The history of a partition after some labels. -/
def PartitionHistory.after (partition : String) (h : PartitionHistory)
    (labels : List PartitionLabel) : PartitionHistory :=
  labels.foldl (PartitionHistory.note partition) h

theorem PartitionHistory.after_append (partition : String) (h : PartitionHistory)
    (labels labels' : List PartitionLabel) :
    h.after partition (labels ++ labels') = (h.after partition labels).after partition labels' :=
  List.foldl_append

/-- The flag that the history leaves. -/
def PartitionHistory.paused (h : PartitionHistory) : Bool := h.removed || h.lastCall == some true

/-- A refresh has removed the partition since its last `pause` or `resume`, and that was no
`pause`. -/
structure PartitionHistory.Dropped (h : PartitionHistory) : Prop where
  removed : h.removed = true
  call : h.lastCall ≠ some true

theorem applyPatch_paused (rec : KeyRecord ι) (paused : Bool) (updatedAt : Int) :
    (rec.applyPatch { paused := some paused, updatedAt := some updatedAt }).paused = paused := rfl

theorem applyPatch_keepsPaused (rec : KeyRecord ι) {patch : StatePatch} (h : patch.paused = none) :
    (rec.applyPatch patch).paused = rec.paused := by
  have hbase : (rec.applyPatch patch).paused =
      (rec.state.getD (emptyPollerState (patch.updatedAt.getD 0))).paused := by
    simp only [KeyRecord.paused, KeyRecord.applyPatch, Option.any_some, h, Option.getD_none]
  rw [hbase, KeyRecord.paused]
  cases rec.state with
  | none => rfl
  | some state => rfl

theorem fenced_paused (rec : KeyRecord ι) (lease : Lease) {write : KeyRecord ι → KeyRecord ι}
    (h : (write rec).paused = rec.paused) : (rec.fenced lease write).2.paused = rec.paused := by
  rw [KeyRecord.fenced]
  split
  · exact h
  · rfl

/-- No other call of the store touches the flag. -/
theorem StoreOp.run_keepsPaused {o : StoreOp ι} (h : o.keepsPaused = true) (rec : KeyRecord ι) :
    (o.run rec).2.paused = rec.paused := by
  have hstate : o.patch = none → o ≠ .deleteKey → (o.run rec).2.paused = rec.paused := by
    intro hpatch hdelete
    exact congrArg (Option.any (·.paused)) (StoreOp.run_state hpatch hdelete rec)
  cases o with
  | saveState lease patch =>
    exact fenced_paused rec lease (applyPatch_keepsPaused rec (Option.isNone_iff_eq_none.1 h))
  | saveStateUnfenced patch => exact applyPatch_keepsPaused rec (Option.isNone_iff_eq_none.1 h)
  | commitPoll lease batch =>
    exact fenced_paused rec lease (applyPatch_keepsPaused rec (Option.isNone_iff_eq_none.1 h))
  | deleteKey => cases h
  | _ =>
    apply hstate rfl
    nofun

namespace PartitionSystem

variable {c : PartitionConfig} {s s' : PartitionSystem ι} {labels : List PartitionLabel}

/-- The flags are what the histories leave. -/
def Recounts (s : PartitionSystem ι) (h : String → PartitionHistory) : Prop :=
  ∀ partition, (s.store partition).paused = (h partition).paused

theorem Recounts.congr {h : String → PartitionHistory} (hs : s.Recounts h)
    (hstore : s'.store = s.store) : s'.Recounts h := by
  intro partition
  rw [hstore]
  exact hs partition

/-- A label that tells of a save of the flag. -/
inductive Saves (partition : String) : Bool → PartitionLabel → Prop
  | removed : Saves partition true (.removed partition)
  | paused : Saves partition true (.paused partition)
  | resumed : Saves partition false (.resumed partition)

theorem Recounts.save {h : String → PartitionHistory} (hs : s.Recounts h) {partition : String}
    {paused : Bool} {label : PartitionLabel} (hlabel : Saves partition paused label)
    (updatedAt : Int) :
    (s.savePaused partition paused updatedAt).Recounts fun p => (h p).note p label := by
  intro p
  by_cases hp : p = partition
  · subst hp
    have hflag : ((s.savePaused p paused updatedAt).store p).paused = paused := by
      simp only [savePaused, Function.update_self]
      exact applyPatch_paused _ paused updatedAt
    rw [hflag]
    cases hlabel <;> simp [PartitionHistory.note, PartitionHistory.paused]
  · have hkeep : (s.savePaused partition paused updatedAt).store p = s.store p :=
      Function.update_of_ne hp _ _
    have hnote : (h p).note p label = h p := by
      cases hlabel <;> exact if_neg fun heq => hp heq.symm
    rw [hkeep]
    exact (hs p).trans (congrArg PartitionHistory.paused hnote.symm)

/-- The end of a refresh says nothing of any flag. -/
theorem Recounts.advance {h : String → PartitionHistory} (hs : s.Recounts h) (i : Nat) (now : Int)
    (list gone : List String) :
    (s.advance i now list gone).1.Recounts fun p =>
      (h p).after p (s.advance i now list gone).2 := by
  cases gone with
  | nil => exact hs
  | cons key gone => exact hs

theorem Recounts.onAnswer {h : String → PartitionHistory} (hs : s.Recounts h) (i : Nat)
    (now : Int) (answer : PartitionsAnswer) :
    (s.onAnswer c i now answer).1.Recounts fun p =>
      (h p).after p (s.onAnswer c i now answer).2 := by
  cases answer with
  | failed => exact hs
  | notArray => exact hs
  | array entries =>
    simp only [PartitionSystem.onAnswer]
    split
    · exact hs
    · exact hs.advance i now _ _

/-- A save, whatever its outcome, and what the task goes on with. -/
theorem Recounts.onSave {h : String → PartitionHistory} (hs : s.Recounts h) (i : Nat)
    {partition : String} {paused : Bool} {label : PartitionLabel}
    (hlabel : Saves partition paused label) (updatedAt : Int)
    (next : PartitionSystem ι → PartitionSystem ι × List PartitionLabel)
    (hnext : ∀ (s : PartitionSystem ι) (h : String → PartitionHistory), s.Recounts h →
      (next s).1.Recounts fun p => (h p).after p (next s).2)
    (outcome : StoreOutcome) :
    (s.onSave i partition paused updatedAt label next outcome).1.Recounts fun p =>
      (h p).after p (s.onSave i partition paused updatedAt label next outcome).2 := by
  have hsaved := hs.save hlabel updatedAt
  cases outcome with
  | failBefore => exact hs
  | failAfter => exact hsaved
  | ok => exact hnext _ _ hsaved

theorem Recounts.onFinish {h : String → PartitionHistory} (hs : s.Recounts h) (i : Nat)
    (outcome : StoreOutcome) (call : PartitionCall) :
    (s.onFinish i outcome call).1.Recounts fun p =>
      (h p).after p (s.onFinish i outcome call).2 := by
  cases call with
  | refresh force => exact hs
  | pause partition => exact hs.onSave i .paused s.clock _ (fun s h hs => hs.congr rfl) outcome
  | resume partition => exact hs.onSave i .resumed s.clock _ (fun s h hs => hs.congr rfl) outcome

/-- Every step recounts what its labels say. -/
theorem Recounts.step {h : String → PartitionHistory} (hs : s.Recounts h)
    {e : PartitionEvent ι} (hstep : s.step c e = some (s', labels)) :
    s'.Recounts fun p => (h p).after p labels := by
  cases e with
  | call call =>
    obtain ⟨rfl, rfl⟩ := Prod.mk.inj (Option.some.inj hstep)
    exact hs
  | answer i answer =>
    simp only [PartitionSystem.step] at hstep
    split at hstep
    · next now _ =>
      have hanswer := hs.onAnswer (c := c) i now answer
      rw [Option.some.inj hstep] at hanswer
      exact hanswer
    · cases hstep
  | remove i outcome =>
    simp only [PartitionSystem.step] at hstep
    split at hstep
    · next now key gone list _ =>
      have hsave := hs.onSave i (.removed : Saves key true _) now
        (fun s => { s with nextDue := s.nextDue.erase key }.advance i now list gone)
        (fun s h hs => Recounts.advance (s := { s with nextDue := s.nextDue.erase key })
          (hs.congr rfl) i now list gone) outcome
      rw [Option.some.inj hstep] at hsave
      exact hsave
    · cases hstep
  | finish i outcome =>
    simp only [PartitionSystem.step] at hstep
    split at hstep
    · next call _ =>
      have hfinish := hs.onFinish i outcome call
      rw [Option.some.inj hstep] at hfinish
      exact hfinish
    · cases hstep
  | store partition op =>
    simp only [PartitionSystem.step] at hstep
    split at hstep
    · next hkeeps =>
      obtain ⟨rfl, rfl⟩ := Prod.mk.inj (Option.some.inj hstep)
      intro p
      by_cases hp : p = partition
      · subst hp
        have hflag : (op.run (s.store p)).2.paused = (s.store p).paused :=
          StoreOp.run_keepsPaused hkeeps _
        simp only [Function.update_self]
        exact hflag.trans (hs p)
      · simp only [Function.update_of_ne hp]
        exact hs p
    · cases hstep
  | restart =>
    obtain ⟨rfl, rfl⟩ := Prod.mk.inj (Option.some.inj hstep)
    exact hs
  | tick ms =>
    obtain ⟨rfl, rfl⟩ := Prod.mk.inj (Option.some.inj hstep)
    exact hs

/-- A run recounts what its labels say. -/
theorem Recounts.run {h : String → PartitionHistory} (hs : s.Recounts h)
    {events : List (PartitionEvent ι)} (hrun : s.run c events = some (s', labels)) :
    s'.Recounts fun p => (h p).after p labels := by
  induction events generalizing s h labels with
  | nil =>
    obtain ⟨rfl, rfl⟩ := Prod.mk.inj (Option.some.inj hrun)
    exact hs
  | cons e events ih =>
    obtain ⟨⟨s₁, shown⟩, hstep, hrest⟩ := Option.bind_eq_some_iff.1 hrun
    obtain ⟨⟨s₂, later⟩, hrun₂, heq⟩ := Option.map_eq_some_iff.1 hrest
    obtain ⟨rfl, rfl⟩ := Prod.mk.inj heq
    intro p
    have hlater := ih (hs.step hstep) hrun₂ p
    exact hlater.trans (congrArg PartitionHistory.paused
      (PartitionHistory.after_append p (h p) shown later).symm)

/-- A store without rows pauses nothing. -/
theorem Recounts.fresh (clock : Int) :
    (fresh c clock : PartitionSystem ι).Recounts fun _ => {} := fun _ => rfl

end PartitionSystem

/-! ## The calls of the runs -/

/-- A store call that keeps the flag; `PartitionSystem.step` lets those happen at any time. -/
def KeepsPaused : Op ι → Prop
  | .store o => o.keepsPaused = true
  | _ => True

/-- Anything but `pause`, `resume` and `partitions.remove`. -/
def EngineCall.KeepsPaused : EngineCall → Prop
  | .pause => False
  | .resume => False
  | .removePartition => False
  | _ => True

theorem Requested.keepsPaused {o : Op ι} (h : Requested EngineCall.KeepsPaused o) :
    KeepsPaused o := by
  cases o with
  | store o =>
    cases o with
    | saveState lease patch => exact Option.isNone_iff_eq_none.2 h
    | saveStateUnfenced patch =>
      obtain ⟨call, hcall, -, hkeeps | hsaves⟩ := h
      · exact Option.isNone_iff_eq_none.2 hkeeps
      · cases call <;> first | exact hcall.elim | exact hsaves.elim
    | commitPoll lease batch => exact Option.isNone_iff_eq_none.2 h
    | deleteKey => exact h.elim
    | _ => exact rfl
  | _ => exact trivial

/-- Runs and the other operations keep the flag with every call they make. -/
theorem callsKeepPaused (d : Deployment ι) :
    Obeys (system ι) (d.entry EngineCall.KeepsPaused) (only KeepsPaused) () where
  entry_keeps p hp :=
    Prog.Uses.mono (fun _ => Requested.keepsPaused) ((requestsObeyed d _).entry_keeps p hp)
  forks_keep o a p hp :=
    Prog.Uses.mono (fun _ => Requested.keepsPaused) ((requestsObeyed d _).forks_keep o a p hp)

/-- In every run of these, from any state, the flag stays as it is. -/
theorem run_keepsPaused {d : Deployment ι} {w : World ι} {tr : List (Label (system ι))}
    {c : Config (system ι)} (h : Run (system ι) (d.entry EngineCall.KeepsPaused) w tr c) :
    (World.store (ι := ι) c.world).paused = w.store.paused := by
  refine Run.invariant (callsKeepPaused d)
    (J := fun _ (w' : World ι) => w'.store.paused = w.store.paused) rfl (fun _ _ _ _ hJ => hJ) ?_
    (fun _ _ _ _ hJ => hJ) h
  intro tr c t o ch a w' _ hJ hallow hw
  by_cases ho : ∃ so, o = .store so
  · obtain ⟨so, rfl⟩ := ho
    have hrun := StoreOp.run_keepsPaused hallow (World.store (ι := ι) c.world)
    rcases performStore_effect (perform_store hw) with ⟨-, x, heq, -⟩ | ⟨-, e, -, heq | heq⟩
    · rw [heq] at hrun
      exact hrun.trans hJ
    · rw [heq]
      exact hJ
    · rw [heq] at hrun
      exact hrun.trans hJ
  · have hsame := perform_other (fun so h => ho ⟨so, h⟩) hw
    exact (congrArg KeyRecord.paused hsame).trans hJ

/-! ## When an execution answers `paused` -/

/-- The flags that the loads of a program have read. -/
@[reducible] def flagsRead : Contract (Op ι) Ans where
  View := List Bool
  allow _ _ := True
  learn
    | flags, .store .loadState, .ok state => flags ++ [Option.any (·.paused) state]
    | flags, _, _ => flags

/-- What has been read first stays first. -/
theorem flagsRead_first (flags : List Bool) (o : Op ι) (h : flags.head? = some false) :
    (flagsRead (ι := ι)).allow flags o ∧ ∀ a, (flagsRead.learn flags o a).head? = some false := by
  refine ⟨trivial, fun a => ?_⟩
  simp only
  split
  · cases flags with
    | nil => cases h
    | cons flag flags => exact h
  · exact h

theorem uses_any {ε α : Type} (m : Task (Op ι) Ans ε α) : m.Uses fun _ => True :=
  Prog.wp_always (D := only fun _ => True) (I := fun _ => True) (fun _ _ _ => ⟨trivial, fun _ => trivial⟩)
    m.prog trivial

/-- The answer does not become `paused`. -/
def Unpaused (s s' : KeyLocals) : Prop :=
  s.out.reason ≠ some .paused → s'.out.reason ≠ some .paused

theorem Unpaused.refl (s : KeyLocals) : Unpaused s s := id

theorem Unpaused.trans (s₁ s₂ s₃ : KeyLocals) (h : Unpaused s₁ s₂) (h' : Unpaused s₂ s₃) :
    Unpaused s₁ s₃ := fun hs => h' (h hs)

theorem noteRetry_reason (out : RunKeyResult) (drain : Option DrainResult) :
    (noteRetry out drain).reason = out.reason := by
  unfold noteRetry
  split <;> rfl

section Execution

variable {h : Held ι}

theorem runLane_unpaused (lane : Lane) : (runLane h lane).Within (fun _ => True) Unpaused := by
  apply Block.Within.bind Unpaused.trans (Block.within_locals Unpaused.refl)
  intro s
  apply Block.Within.bind Unpaused.trans (Block.within_await Unpaused.refl (uses_any _))
  intro r
  apply Block.Within.bind Unpaused.trans
  · refine Block.within_assign fun s hs => ?_
    rw [noteRetry_reason]
    exact hs
  intro _
  apply Block.Within.bind Unpaused.trans
  · exact Block.within_when Unpaused.refl (Block.within_assign fun _ _ => nofun)
  intro _
  exact Block.within_pure Unpaused.refl _

theorem liveLane_unpaused (halted : Bool) : (liveLane h halted).Within (fun _ => True) Unpaused := by
  apply Block.Within.bind Unpaused.trans (Block.within_await Unpaused.refl (uses_any _))
  intro at_
  apply Block.Within.bind Unpaused.trans (Block.within_locals Unpaused.refl)
  intro s
  refine Block.Within.ite ?_ (Block.within_pure Unpaused.refl _)
  apply Block.Within.bind Unpaused.trans
  · exact Block.within_when Unpaused.refl (Block.within_assign fun _ hs => hs)
  intro _
  exact runLane_unpaused .live

/-- The end of the other lanes: unless the run is aborted, the lane runs. -/
theorem laneUnlessAborted_unpaused (lane : Lane) :
    (do if ← Block.await (aborted h.run) then return false else runLane h lane :
      Body ι KeyLocals Bool).Within (fun _ => True) Unpaused := by
  apply Block.Within.bind Unpaused.trans (Block.within_await Unpaused.refl (uses_any _))
  intro stop
  exact Block.Within.ite (Block.within_pure Unpaused.refl _) (runLane_unpaused lane)

theorem reconcileLane_unpaused (halted : Bool) :
    (reconcileLane h halted).Within (fun _ => True) Unpaused := by
  apply Block.Within.bind Unpaused.trans (Block.within_await Unpaused.refl (uses_any _))
  intro at_
  apply Block.Within.bind Unpaused.trans (Block.within_locals Unpaused.refl)
  intro s
  exact Block.Within.ite (laneUnlessAborted_unpaused .reconcile) (Block.within_pure Unpaused.refl _)

theorem backfillLane_unpaused (halted : Bool) :
    (backfillLane h halted).Within (fun _ => True) Unpaused := by
  apply Block.Within.bind Unpaused.trans (Block.within_locals Unpaused.refl)
  intro s
  exact Block.Within.ite (laneUnlessAborted_unpaused .backfill) (Block.within_pure Unpaused.refl _)

theorem runLanes_unpaused (halted : Bool) : (runLanes h halted).Within (fun _ => True) Unpaused := by
  have hreturn : (pure () : Body ι KeyLocals Unit).Within (fun _ => True) Unpaused :=
    Block.within_pure Unpaused.refl ()
  apply Block.Within.bind Unpaused.trans (liveLane_unpaused halted)
  intro cut
  apply Block.Within.ite hreturn
  apply Block.Within.bind Unpaused.trans (reconcileLane_unpaused halted)
  intro cut
  apply Block.Within.ite hreturn
  apply Block.Within.bind Unpaused.trans (backfillLane_unpaused halted)
  intro cut
  exact Block.Within.ite hreturn (Block.within_assign fun _ hs => hs)

theorem drainBefore_unpaused : (drainBefore h).Within (fun _ => True) Unpaused := by
  apply Block.Within.bind Unpaused.trans (Block.within_await Unpaused.refl (uses_any _))
  intro drained
  apply Block.Within.bind Unpaused.trans
  · refine Block.within_assign fun s hs => ?_
    show (noteRetry s.out (some drained)).reason ≠ some .paused
    rw [noteRetry_reason]
    exact hs
  intro _
  apply Block.Within.bind Unpaused.trans
  · apply Block.within_when Unpaused.refl
    apply Block.Within.bind Unpaused.trans (Block.within_locals Unpaused.refl)
    intro s
    apply Block.Within.bind Unpaused.trans (Block.within_await Unpaused.refl (uses_any _))
    intro state
    exact Block.within_assign fun _ hs => hs
  intro _
  exact Block.within_pure Unpaused.refl _

/-- Under the lease: the first reading said no, and the answer `paused` was read. -/
structure ReadUnderLease (out : RunKeyResult) (flags : List Bool) : Prop where
  first : flags.head? = some false
  seen : out.reason = some .paused → true ∈ flags

theorem underLease_reads {s : KeyLocals} (hs : s.out.reason = none) {flags : List Bool}
    (hfirst : flags.head? = some false) :
    (underLease h).wp flagsRead (fun _ s' w => ReadUnderLease s'.out w)
      (fun _ s' w => ReadUnderLease s'.out w) s flags := by
  have hnone : ∀ s' : KeyLocals, s'.out.reason ≠ some .paused → ∀ w : List Bool,
      w.head? = some false → ReadUnderLease s'.out w :=
    fun s' hs' w hw => ⟨hw, fun hp => absurd hp hs'⟩
  unfold underLease
  rw [Block.wp_bind, Block.wp_await, wp_store]
  refine ⟨trivial, fun loaded => ?_, fun e => hnone s (by rw [hs]; exact nofun) _ hfirst⟩
  have hread := (flagsRead_first flags (.store .loadState) hfirst).2 (.ok loaded)
  rw [Block.wp_bind, Block.wp_await, wp_now]
  refine ⟨trivial, fun t => ?_⟩
  rw [Block.wp_bind, Block.wp_assign, Block.wp_bind, Block.wp_locals, Block.wp_ite]
  refine ⟨fun hpaused => ?_, fun _ => ?_⟩
  · -- the state it loaded is paused, so a row was there and its flag has just been read
    refine ⟨hread, fun _ => List.mem_append_right _ ?_⟩
    cases loaded with
    | none => cases hpaused
    | some state => exact List.mem_singleton.2 hpaused.symm
  · rw [Block.wp_bind, Block.wp_assign]
    have hrest := (drainBefore_unpaused (h := h)).bind Unpaused.trans (runLanes_unpaused (h := h))
    refine hrest.wp_inv (C := flagsRead) (I := fun w => List.head? w = some false)
      (fun w o hw _ => flagsRead_first w o hw) (fun _ s' w hR hw => hnone s' (hR ?_) w hw)
      (fun _ s' w hR hw => hnone s' (hR ?_) w hw) hread
    · rw [show _ = _ from hs]
      exact nofun
    · rw [show _ = _ from hs]
      exact nofun

end Execution

variable {deps : RunnerDeps ι} {opts : RunKeyOptions}

/-- What follows the first reading keeps the answer's ground. -/
theorem release_reads (h : Held ι) {P : List Bool → Prop} {flags : List Bool}
    (hP : P flags) : (release h).wp flagsRead (fun _ => P) (fun _ => P) flags := by
  unfold release
  rw [Task.wp_bind, wp_call]
  refine ⟨trivial, fun a => ?_⟩
  rw [Task.wp_bind, Task.wp_attempt, wp_store]
  exact ⟨trivial, fun _ => hP, fun _ => hP⟩

theorem runHeld_reads (pre : PollerState) (lease : Lease) {flags : List Bool}
    (hfirst : flags.head? = some false) :
    (runHeld deps opts pre lease).wp flagsRead ReadUnderLease
      (fun _ w => w.head? = some false) flags := by
  unfold runHeld
  rw [Task.wp_bind, wp_call]
  refine ⟨trivial, fun run => ?_⟩
  rw [Task.wp_bind, wp_call]
  refine ⟨trivial, fun _ => ?_⟩
  rw [Task.wp_finallyDo, Block.wp_run, Block.wp_bind, Block.wp_tryCatch]
  refine Block.wp_mono ?_ ?_ (underLease_reads (h := ⟨deps, opts, lease, run⟩) rfl hfirst)
  · intro _ s w hs
    exact Task.wp_mono (fun _ _ hw => hw) (fun _ _ hw => ReadUnderLease.first hw)
      (release_reads (P := ReadUnderLease s.out) _ hs)
  · intro e s w hs
    unfold onKeyError
    rw [Block.wp_bind, Block.wp_await, wp_call]
    refine ⟨trivial, fun lost => ?_⟩
    rw [Block.wp_ite]
    refine ⟨fun _ => ?_, fun _ => release_reads (P := fun w => w.head? = some false) _ hs.first⟩
    exact Task.wp_mono (fun _ _ hw => hw) (fun _ _ hw => ReadUnderLease.first hw)
      (release_reads (P := ReadUnderLease { s.out with leaseLost := true }) _ ⟨hs.first, hs.seen⟩)

/-- How `runKey` answers to the flags it reads. -/
structure PausedAnswer (out : RunKeyResult) (flags : List Bool) : Prop where
  /-- It answers `paused` only when it has read so, -/
  seen : out.reason = some .paused → true ∈ flags
  /-- and always when its first reading says so. -/
  first : flags.head? = some true → out.reason = some .paused

theorem PausedAnswer.of_first {out : RunKeyResult} {flags : List Bool}
    (hfirst : flags.head? = some false) (hseen : out.reason = some .paused → true ∈ flags) :
    PausedAnswer out flags := ⟨hseen, fun h => by rw [hfirst] at h; cases h⟩

theorem runLeased_reads (pre : PollerState) {flags : List Bool}
    (hfirst : flags.head? = some false) :
    (runLeased deps opts pre).wp flagsRead PausedAnswer (fun _ w => w.head? ≠ some true)
      flags := by
  unfold runLeased
  rw [Task.wp_bind, wp_now]
  refine ⟨trivial, fun t => ?_⟩
  rw [Task.wp_bind, wp_store]
  refine ⟨trivial, fun got => ?_, fun _ h => by rw [hfirst] at h; cases h⟩
  cases got with
  | none => exact .of_first hfirst nofun
  | some lease =>
    refine Task.wp_mono (fun out w hw => .of_first hw.first hw.seen) ?_
      (runHeld_reads pre lease hfirst)
    intro _ w hw h
    rw [hw] at h
    cases h

theorem runKey_reads (deps : RunnerDeps ι) (opts : RunKeyOptions) :
    (runKey deps opts).wp flagsRead PausedAnswer (fun _ flags => flags.head? ≠ some true) [] := by
  unfold runKey
  rw [Task.wp_bind, wp_now]
  refine ⟨trivial, fun now0 => ?_⟩
  rw [Task.wp_bind, wp_store]
  refine ⟨trivial, fun loaded => ?_, fun _ => nofun⟩
  rw [Task.wp_ite]
  cases hflag : loaded.any (·.paused) with
  | true =>
    have hpre : (loaded.getD (emptyState now0 deps.poller)).paused = true := by
      cases loaded with
      | none => cases hflag
      | some state => exact hflag
    refine ⟨fun _ => ⟨fun _ => ?_, fun _ => rfl⟩, fun hnot => absurd hpre hnot⟩
    exact List.mem_singleton.2 hflag.symm
  | false =>
    have hpre : (loaded.getD (emptyState now0 deps.poller)).paused ≠ true := by
      cases loaded with
      | none => exact nofun
      | some state => exact fun h => by cases h.symm.trans hflag
    have hread : (flagsRead.learn [] (.store .loadState) (.ok loaded) : List Bool).head? = some false :=
      congrArg some hflag
    refine ⟨fun h => absurd h hpre, fun _ => ?_⟩
    rw [Task.wp_bind]
    have hcount : (countPending deps : Proc ι Nat).Stays flagsRead fun w => w.head? = some false :=
      (uses_any _).stays fun w o hw _ => flagsRead_first w o hw
    refine Task.wp_mono (fun pending w hw => ?_) (fun _ w hw => ?_) (hcount _ hread)
    · rw [Task.wp_ite]
      refine ⟨fun _ => .of_first hw nofun, fun _ => runLeased_reads _ hw⟩
    · rw [hw]
      exact nofun

/-! ## Partitions after a refresh -/

/-- The history of a partition over a run that has shown these labels. -/
def partitionHistory (partition : String) (labels : List PartitionLabel) : PartitionHistory :=
  PartitionHistory.after partition {} labels

theorem PartitionHistory.paused_eq_false {h : PartitionHistory} (hcall : h.lastCall ≠ some true) :
    h.paused = false ↔ ¬h.Dropped := by
  rw [PartitionHistory.paused, Bool.or_eq_false_iff, beq_eq_false_iff_ne, Bool.eq_false_iff]
  constructor
  · intro hpaused hdropped
    exact hpaused.1 hdropped.removed
  · intro hdropped
    exact ⟨fun hremoved => hdropped ⟨hremoved, hcall⟩, hcall⟩

/-- When a refresh ends, the listed partitions that nobody has paused since are unpaused exactly
when no refresh has removed one of them since it was last resumed. The flag decides the answer of
`runKey`. -/
theorem unpaused_iff (c : PartitionConfig) (clock : Int) {events : List (PartitionEvent ι)}
    {s : PartitionSystem ι} {labels : List PartitionLabel} {list : List String}
    (hrun : (PartitionSystem.fresh c clock).run c events =
      some (s, labels ++ [.refreshed list])) :
    ((∀ p ∈ list, (partitionHistory p labels).lastCall ≠ some true → (s.store p).paused = false) ↔
      ∀ p ∈ list, ¬(partitionHistory p labels).Dropped) ∧
    ∀ (deps : RunnerDeps ι) (opts : RunKeyOptions),
      (runKey deps opts).wp flagsRead PausedAnswer (fun _ flags => flags.head? ≠ some true) [] := by
  refine ⟨?_, runKey_reads⟩
  have hflag : ∀ p, (s.store p).paused = (partitionHistory p labels).paused := by
    intro p
    have hrecount := (PartitionSystem.Recounts.fresh clock).run hrun p
    -- the end of the refresh is no event of any partition
    exact hrecount.trans (congrArg PartitionHistory.paused
      (PartitionHistory.after_append p {} labels [.refreshed list]))
  constructor
  · intro hall p hp hdropped
    have hpaused := hall p hp hdropped.call
    rw [hflag, PartitionHistory.paused_eq_false hdropped.call] at hpaused
    exact hpaused hdropped
  · intro hkept p hp hcall
    rw [hflag, PartitionHistory.paused_eq_false hcall]
    exact hkept p hp

def tenants : PartitionConfig where
  poller := "orders"
  partitionsRefreshMs := 60000

/-- Refreshes that answer `[a]`, `[]` and `[a]`. -/
def returning : List (PartitionEvent Unit) :=
  [.call (.refresh true), .answer 0 (.array [some "a"]), .finish 0 .ok,
    .call (.refresh true), .answer 0 (.array []), .remove 0 .ok, .finish 0 .ok,
    .call (.refresh true), .answer 0 (.array [some "a"])]

/-- The same, then `resume` and one more refresh. -/
def returningResumed : List (PartitionEvent Unit) :=
  returning ++ [.finish 0 .ok, .call (.resume "a"), .finish 0 .ok, .call (.refresh true),
    .answer 0 (.array [some "a"])]

/-- Once resumed, the partition stays unpaused over the next refresh. -/
theorem unpaused_after_resume :
    ∃ s : PartitionSystem Unit,
      (PartitionSystem.fresh tenants 0).run tenants returningResumed =
        some (s, [.refreshed ["a"], .removed "a", .refreshed [], .refreshed ["a"], .resumed "a"] ++
          [.refreshed ["a"]]) ∧
      ∀ p ∈ ["a"], (s.store p).paused = false := by
  refine ⟨_, rfl, ?_⟩
  have hrun : (PartitionSystem.fresh tenants 0).run tenants returningResumed =
      some (_, [.refreshed ["a"], .removed "a", .refreshed [], .refreshed ["a"], .resumed "a"] ++
        [.refreshed ["a"]]) := rfl
  have hkept : ∀ p ∈ ["a"], ¬(partitionHistory p
      [.refreshed ["a"], .removed "a", .refreshed [], .refreshed ["a"], .resumed "a"]).Dropped := by
    intro p hp hdropped
    obtain rfl := List.mem_singleton.1 hp
    exact absurd hdropped.removed (by decide)
  intro p hp
  refine (unpaused_iff tenants 0 hrun).1.2 hkept p hp ?_
  obtain rfl := List.mem_singleton.1 hp
  decide

/-- A partition that leaves the list and comes back is paused, although nobody has paused it. -/
theorem returning_stays_paused :
    ∃ s : PartitionSystem Unit,
      (PartitionSystem.fresh tenants 0).run tenants returning =
        some (s, [.refreshed ["a"], .removed "a", .refreshed []] ++ [.refreshed ["a"]]) ∧
      (partitionHistory "a" [.refreshed ["a"], .removed "a", .refreshed []]).lastCall = none ∧
      (s.store "a").paused = true :=
  ⟨_, rfl, rfl, rfl⟩

end Watukuy
