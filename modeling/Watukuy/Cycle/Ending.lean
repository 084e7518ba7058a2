import Watukuy.Cycle.Pages

/-!
# The end of a cycle keeps to the contract

The delete phase deletes what was streamed and not seen; the end-of-cycle save writes the lane; a
failed cycle saves its schedule only.
-/

set_option autoImplicit false

namespace Watukuy

open Library Task

variable {ι : Type} {d : Deployment ι} {extra : CycleView ι → StoreOp ι → Prop} {c : Cycle ι}
  {s : CycleLocals} {v : CycleView ι} {F : JsError → CycleLocals → CycleView ι → Prop}

/-! ## The delete phase -/

/-- After the delete phase. -/
structure Over (d : Deployment ι) (c : Cycle ι) (s : CycleLocals) (v : CycleView ι) : Prop where
  inCycle : InCycle d v c
  sequence : v.sequence ≤ s.sequence
  lanes : s.state.lanes = v.lanes
  committed : v.committed = v.pages.length
  swept : d.fullScan v.lane = true → s.summary.truncated = false → v.notModified = false →
    v.halted = false → Swept d v

theorem Over.failing (h : Over d c s v) : Failing d c s v := ⟨h.inCycle, h.sequence, h.lanes⟩

/-- The stored identities are streamed, and those to delete are known. -/
structure Streamed (d : Deployment ι) (c : Cycle ι) (ids missing : List String) (s : CycleLocals)
    (v : CycleView ι) : Prop where
  inCycle : InCycle d v c
  sequence : v.sequence ≤ s.sequence
  lanes : s.state.lanes = v.lanes
  phase : MayStream d v
  streamed : v.streamed = some ids
  mem_missing : ∀ id, id ∈ missing ↔ id ∈ ids ∧ .string id ∉ seenIn d.poller v.pages
  nodup_missing : ids.Nodup → missing.Nodup
  deleted : v.deleted = []

theorem Streamed.failing {ids missing : List String} (h : Streamed d c ids missing s v) :
    Failing d c s v := ⟨h.inCycle, h.sequence, h.lanes⟩

theorem deleteMissing_keeps {ids missing : List String} (h : Streamed d c ids missing s v)
    (hne : missing ≠ [])
    {Q : Unit → CycleLocals → CycleView ι → Prop}
    (hQ : ∀ s' w, Over d c s' w → Q () s' w) (hF : ∀ e s' w, Failing d c s' w → F e s' w) :
    Block.wp (cycleContract d extra) (deleteMissing c missing) Q F s v := by
  unfold deleteMissing
  rw [Block.wp_bind, Block.wp_await, wp_store]
  refine ⟨Or.inl trivial, fun rows => ?_, fun e => hF e s v h.failing⟩
  have hload : Streamed d c ids missing s (v.load (some (missing.map .string, rows))) :=
    { h with inCycle := { h.inCycle with }, phase := { h.phase with } }
  rw [Block.wp_bind, Block.wp_locals, Block.wp_bind, Block.wp_await, wp_ofExcept]
  refine ⟨fun cursor _ => ?_, fun e _ => hF e s _ hload.failing⟩
  rw [Block.wp_bind, Block.wp_await]
  refine buildRows_keeps _ fun events hevents => ?_
  have hlen := hevents.length_eq
  rw [Block.wp_bind, Block.wp_assign, Block.wp_bind, Block.wp_locals, Block.wp_bind,
    Block.wp_await]
  refine now_keeps fun updatedAt => ?_
  rw [Block.wp_bind, Block.wp_await, wp_store]
  have hfilter := h.inCycle.deps.poller
  refine ⟨Or.inl ⟨h.inCycle.lease, h.inCycle.ready, Or.inr ⟨
    { cycle := c
      inCycle := hload.inCycle
      phase := hload.phase
      ids := ids
      streamed_eq := h.streamed
      deleted_eq := h.deleted
      deletes_ne := hne
      mem_deletes := h.mem_missing
      nodup_deletes := h.nodup_missing
      rows := rows
      loaded_eq := rfl
      base := s.sequence
      base_ge := h.sequence
      cursor := cursor
      upserts_eq := rfl
      events_eq := ?_
      sequence_eq := congrArg (fun n => some (s.sequence + n)) hlen.symm
      lanes_eq := rfl
      parked_eq := rfl }⟩⟩, fun _ => ?_, fun e => ?_⟩
  · rw [← hfilter]
    exact hevents
  rotate_left
  · exact hF e _ _ ⟨{ h.inCycle with }, Nat.le_refl _, h.lanes⟩
  rw [Block.wp_bind, Block.wp_await]
  refine now_keeps fun savedAt => ?_
  rw [Block.wp_bind, Block.wp_assign, Block.wp_when]
  -- the drain after the commit changes nothing of this
  have hover : ∀ g a x s', s'.sequence = s.sequence + events.length →
      s'.state.lanes = s.state.lanes → x = v.halted →
      Over d c s' ((v.commitOk
        (deleteBatch c (s.advance events.length) missing events updatedAt)).settle g a x) := by
    intro g a x s' hseq hlanes hx
    refine ⟨{ h.inCycle with }, hseq.ge, hlanes.trans h.lanes, rfl, fun _ _ _ _ => ?_⟩
    refine ⟨ids, h.streamed, fun id => ?_⟩
    change id ∈ v.deleted ++ missing ↔ _
    rw [h.deleted, List.nil_append]
    exact h.mem_missing id
  rw [← hlen]
  refine ⟨fun _ => ?_, fun _ => hQ _ _ (hover v.guarded v.aborted v.halted _ rfl rfl rfl)⟩
  rw [Block.wp_bind, Block.wp_await]
  have hsome : v.streamed.isSome := by rw [h.streamed]; rfl
  refine settled_keeps (drainOutbox_uses _ _ _) ?_ ?_
  · rintro _ _ ⟨g, a, x, rfl, hx⟩
    exact hQ _ _ (hover g a x _ rfl rfl (hx hsome))
  · rintro e _ ⟨g, a, x, rfl, hx⟩
    refine hF _ _ _ (hover g a x ((s.advance events.length).afterDeletes events.length savedAt) rfl rfl
      (hx hsome)).failing

theorem nodup_flatMap_detectDeletes {batches : List (List String)} (h : batches.flatten.Nodup)
    (seen : List IdentityValue) : (batches.flatMap fun ids => detectDeletes ids seen).Nodup := by
  rw [List.nodup_flatten] at h
  refine List.nodup_flatMap.2 ⟨fun ids hids => nodup_detectDeletes (h.1 ids hids) seen, ?_⟩
  refine h.2.imp fun hdisjoint id hid hid' => ?_
  exact hdisjoint (mem_detectDeletes.1 hid).1 (mem_detectDeletes.1 hid').1

theorem deletePhase_keeps (h : Scanned d c s v)
    {Q : Unit → CycleLocals → CycleView ι → Prop}
    (hQ : ∀ s' w, Over d c s' w → Q () s' w) (hF : ∀ e s' w, Failing d c s' w → F e s' w) :
    Block.wp (cycleContract d extra) (deletePhase c) Q F s v := by
  have hm := h.mid
  unfold deletePhase
  rw [Block.wp_bind, Block.wp_locals, Block.wp_when]
  refine ⟨fun hphase => ?_, fun hphase => hQ _ _ ?_⟩
  · simp only [Bool.and_eq_true, Bool.not_eq_true'] at hphase
    obtain ⟨⟨⟨⟨hdone, hfull⟩, htrunc⟩, hfresh⟩, hhalted⟩ := hphase
    have hmay : MayStream d v :=
      { fullScan := (fullScan_iff hm.inCycle).1 hfull
        ended := h.ended hfull hdone hhalted
        committed := hm.committed
        fresh := hm.notModified.symm.trans hfresh }
    rw [Block.wp_bind, Block.wp_await, wp_store]
    refine ⟨Or.inl hmay, fun batches => ?_, fun e => hF e s v hm.failing⟩
    have hmem : ∀ id, id ∈ (batches.flatMap fun ids => detectDeletes ids s.seen) ↔
        id ∈ batches.flatten ∧ .string id ∉ seenIn d.poller v.pages := by
      intro id
      simp only [List.mem_flatMap, mem_detectDeletes, hm.seen hfull, List.mem_flatten]
      constructor
      · rintro ⟨ids, hids, hid, hnot⟩
        exact ⟨⟨ids, hids, hid⟩, hnot⟩
      · rintro ⟨⟨ids, hids, hid⟩, hnot⟩
        exact ⟨ids, hids, hid, hnot⟩
    have hstreamed : Streamed d c batches.flatten (batches.flatMap fun ids => detectDeletes ids s.seen) s
        { v with streamed := some batches.flatten } :=
      { inCycle := { hm.inCycle with }
        sequence := hm.sequence
        lanes := hm.lanes
        phase := { hmay with }
        streamed := rfl
        mem_missing := hmem
        nodup_missing := fun hnodup => nodup_flatMap_detectDeletes hnodup s.seen
        deleted := hm.deleted }
    rw [Block.wp_when]
    refine ⟨fun hne => deleteMissing_keeps hstreamed hne hQ hF, fun hnone => hQ _ _ ?_⟩
    refine ⟨hstreamed.inCycle, hm.sequence, hm.lanes, hm.committed, fun _ _ _ _ => ?_⟩
    rw [ne_eq, not_not] at hnone
    refine ⟨batches.flatten, rfl, fun id => ?_⟩
    have hid := hmem id
    rw [hnone, ← hm.deleted] at hid
    exact hid
  · refine ⟨hm.inCycle, hm.sequence, hm.lanes, hm.committed, fun hfull htrunc hfresh hhalted => ?_⟩
    refine absurd ?_ hphase
    have hs : s.halted = false := hm.halted.trans hhalted
    have hn : s.sawNotModified = false := hm.notModified.trans hfresh
    simp [h.done htrunc, (fullScan_iff hm.inCycle).2 hfull, htrunc, hn, hs]

/-! ## The end of a cycle -/

/-- What a cycle hands back: its state agrees with the view, unless it was aborted. -/
structure Cycled (d : Deployment ι) (c : Cycle ι) (r : CycleResult) (v : CycleView ι) : Prop where
  inCycle : InCycle d v c
  agrees : r.aborted = false → v.sequence ≤ r.state.sequence ∧ r.state.lanes = v.lanes

theorem laneFinal_eq {done : Bool} {cursor : CursorVal} {endedAt : Int} {last : LaneCursor}
    (hc : InCycle d v c) (h : laneFinal c done cursor endedAt = .ok last) : FinalLane v last := by
  have hstart := hc.start
  have hvlane := hc.lane
  unfold laneFinal at h
  cases hlane : c.lane with
  | reconcile =>
    rw [hlane] at h
    cases h
    exact ⟨fun _ => rfl, (fun hforce => nomatch hforce), Or.inl rfl⟩
  | backfill =>
    rw [hlane] at h
    cases hraw : c.strategy.serialize cursor with
    | error e =>
      rw [hraw] at h
      cases h
    | ok raw =>
      rw [hraw] at h
      cases h
      refine ⟨fun hsweep => ?_, fun hforce => ?_, Or.inr (by rw [← hstart])⟩
      · rw [← hvlane, hlane] at hsweep
        cases hsweep
      · rw [← hstart]
        simpa [Cycle.force, hlane] using hforce
  | live | replay =>
    rw [hlane] at h
    cases hraw : c.strategy.serialize cursor with
    | error e =>
      rw [hraw] at h
      cases h
    | ok raw =>
      rw [hraw] at h
      cases h
      refine ⟨fun hsweep => ?_, (fun hforce => nomatch hforce), Or.inl rfl⟩
      rw [← hvlane, hlane] at hsweep
      cases hsweep

theorem scheduleAfter_lastPoll (at_ : Int) (draw : Rat) :
    (scheduleAfter c s at_ draw).lastPoll = some s.summary := by
  unfold scheduleAfter
  split
  · rfl
  split
  · rfl
  · rfl

theorem Over.finalSave (h : Over d c s v) {last : LaneCursor} {done : Bool} {cursor : CursorVal}
    {endedAt at_ updatedAt : Int} {draw : Rat} (hlast : laneFinal c done cursor endedAt = .ok last) :
    MaySave d v c.lease
      (finalPatch s (s.state.lanes.set c.lane last) (scheduleAfter c s at_ draw) updatedAt) := by
  refine ⟨h.inCycle.lease, h.inCycle.ready, fun n hn => ?_, fun lanes hlanes => ?_⟩
  · rw [← Option.some.inj hn]
    exact h.sequence
  refine ⟨h.committed, ⟨last, ?_, laneFinal_eq h.inCycle hlast⟩,
    fun schedule summary hs hp hfull htrunc hnot hhalt => ?_⟩
  · rw [← Option.some.inj hlanes, h.lanes, h.inCycle.lane]
  · have hsummary : s.summary = summary := by
      rw [← Option.some.inj hs, scheduleAfter_lastPoll] at hp
      exact Option.some.inj hp
    exact h.swept hfull (hsummary ▸ htrunc) hnot hhalt

theorem finishCycle_keeps (h : Over d c s v) {Q : CycleResult → CycleLocals → CycleView ι → Prop}
    (hQ : ∀ r s' w, Cycled d c r w → Q r s' w) (hF : ∀ e s' w, Failing d c s' w → F e s' w) :
    Block.wp (cycleContract d extra) (finishCycle c) Q F s v := by
  have hcomplete : Over d c (s.complete c) v := { h with }
  unfold finishCycle
  rw [Block.wp_bind, Block.wp_assign, Block.wp_bind, Block.wp_locals, Block.wp_bind,
    Block.wp_await]
  refine now_keeps fun endedAt => ?_
  rw [Block.wp_bind, Block.wp_await, wp_ofExcept]
  refine ⟨fun last hlast => ?_, fun e _ => hF e _ v hcomplete.failing⟩
  have hsummary : Over d c ((s.complete c).summarize c endedAt) v := { h with }
  rw [Block.wp_bind, Block.wp_assign, Block.wp_bind, Block.wp_locals, Block.wp_bind,
    Block.wp_await]
  refine now_keeps fun at_ => ?_
  rw [Block.wp_bind, Block.wp_await, wp_random]
  refine ⟨trivial, fun draw => ?_⟩
  rw [Block.wp_bind, Block.wp_await]
  refine now_keeps fun updatedAt => ?_
  rw [Block.wp_bind, Block.wp_await, wp_store]
  refine ⟨Or.inl (hsummary.finalSave hlast), fun _ => ?_, fun e => hF e _ _ ?_⟩
  · rw [Block.wp_bind, Block.wp_assign, Block.wp_bind, Block.wp_await, wp_call]
    refine ⟨trivial, fun _ => hQ _ _ _ ⟨{ h.inCycle with }, fun _ => ⟨Nat.le_refl _, rfl⟩⟩⟩
  · exact ⟨{ h.inCycle with }, Nat.le_refl _, h.lanes⟩

/-! ## A failed cycle -/

theorem failCycle_keeps {err : JsError} (h : Failing d c s v)
    {Q : CycleResult → CycleLocals → CycleView ι → Prop} (hQ : ∀ r s' w, Cycled d c r w → Q r s' w)
    (hF : ∀ e s' w, F e s' w) :
    Block.wp (cycleContract d extra) (failCycle c err) Q F s v := by
  unfold failCycle
  rw [Block.wp_bind, Block.wp_locals, Block.wp_bind, Block.wp_await]
  refine now_keeps fun at_ => ?_
  rw [Block.wp_bind, Block.wp_await, wp_random]
  refine ⟨trivial, fun draw => ?_⟩
  rw [Block.wp_bind, Block.wp_await]
  refine now_keeps fun updatedAt => ?_
  rw [Block.wp_bind, Block.wp_await, wp_attempt, wp_store]
  have hsave : MaySave d v c.lease
      (failurePatch s (scheduleAfterFailure c s err at_ draw) updatedAt) := by
    refine ⟨h.inCycle.lease, h.inCycle.ready, fun n hn => ?_, fun lanes hlanes => ?_⟩
    · rw [← Option.some.inj hn]
      exact h.sequence
    · cases hlanes
  -- whether or not the save was refused, the cycle reports its error
  have hreport : Block.wp (cycleContract d extra) (do
      Block.assign (CycleLocals.afterFailure (scheduleAfterFailure c s err at_ draw))
      let endedAt ← Block.await now
      Block.await (call (.pollEnd c.lane))
      let s ← Block.locals
      return errorResult c s s.summary.events.total err endedAt false) Q F s
        { v with sequence := s.sequence } := by
    rw [Block.wp_bind, Block.wp_assign, Block.wp_bind, Block.wp_await]
    refine now_keeps fun endedAt => ?_
    rw [Block.wp_bind, Block.wp_await, wp_call]
    exact ⟨trivial, fun _ => hQ _ _ _
      ⟨{ h.inCycle with }, fun _ => ⟨Nat.le_refl _, h.lanes⟩⟩⟩
  refine ⟨Or.inl hsave, fun _ => ?_, fun e => ?_⟩
  · exact hreport
  · dsimp only
    rw [Block.wp_bind, Block.wp_when]
    exact ⟨fun _ => hF _ _ _, fun _ => hreport⟩

theorem onCycleError_keeps {err : JsError} (h : Failing d c s v)
    {Q : CycleResult → CycleLocals → CycleView ι → Prop} (hQ : ∀ r s' w, Cycled d c r w → Q r s' w)
    (hF : ∀ e s' w, F e s' w) :
    Block.wp (cycleContract d extra) (onCycleError c err) Q F s v := by
  unfold onCycleError
  rw [Block.wp_ite]
  refine ⟨fun _ => hF _ _ _, fun _ => ?_⟩
  rw [Block.wp_bind, Block.wp_await, wp_call]
  refine ⟨trivial, fun reason => ?_⟩
  rw [Block.wp_bind, Block.wp_await, wp_call]
  refine ⟨trivial, fun lost => ?_⟩
  have hread : Failing d c s (v.read reason.isSome) := { h with inCycle := { h.inCycle with } }
  rw [Block.wp_ite]
  refine ⟨fun _ => hF _ _ _, fun _ => ?_⟩
  rw [Block.wp_ite]
  refine ⟨fun _ => ?_, fun _ => failCycle_keeps hread hQ hF⟩
  rw [Block.wp_bind, Block.wp_locals, Block.wp_bind, Block.wp_await]
  exact now_keeps fun endedAt => hQ _ _ _ ⟨hread.inCycle, fun ha => nomatch ha⟩

end Watukuy
