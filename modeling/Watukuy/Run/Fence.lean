import Watukuy.Core.System

/-!
# What a store call changes

`performStore_effect` splits a call into those that took effect and those that did not. Only a few
calls touch the items, the sequence or the lanes of a key, or grant a lease; all others are `Minor`.
A fenced write takes effect only for the holder of the lease.
-/

set_option autoImplicit false

namespace Watukuy

open Library

variable {ι : Type}

namespace KeyRecord

/-- The stored sequence. -/
def sequence (rec : KeyRecord ι) : Nat := (rec.state.map (·.sequence)).getD 0

/-- The stored lanes. -/
def lanes (rec : KeyRecord ι) : Lanes := (rec.state.map (·.lanes)).getD {}

theorem sequence_applyPatch (rec : KeyRecord ι) (p : StatePatch) :
    (rec.applyPatch p).sequence = p.sequence.getD rec.sequence := by
  cases hstate : rec.state <;> simp [sequence, applyPatch, hstate, emptyPollerState]

theorem lanes_applyPatch (rec : KeyRecord ι) (p : StatePatch) :
    (rec.applyPatch p).lanes = p.lanes.getD rec.lanes := by
  cases hstate : rec.state <;> simp [lanes, applyPatch, hstate, emptyPollerState]

/-- Two leases the record holds are one and the same term. -/
theorem holds_epoch {rec : KeyRecord ι} {l l' : Lease} (h : rec.holds l = true)
    (h' : rec.holds l' = true) : l.epoch = l'.epoch := by
  unfold holds at h h'
  cases hl : rec.lease with
  | none =>
    rw [hl] at h
    cases h
  | some cur =>
    rw [hl] at h h'
    simp only [Bool.and_eq_true, beq_iff_eq] at h h'
    rw [← h.2, h'.2]

/-- No lease was granted: at most the current one was extended or released. -/
structure LeaseKept (rec rec' : KeyRecord ι) : Prop where
  epoch : rec'.epochCounter = rec.epochCounter
  holds : ∀ l, rec'.holds l = true → rec.holds l = true
  term : ∀ l, rec'.lease = some l → ∃ l₀, rec.lease = some l₀ ∧ l₀.epoch = l.epoch

theorem LeaseKept.of_eq {rec rec' : KeyRecord ι} (hl : rec'.lease = rec.lease)
    (he : rec'.epochCounter = rec.epochCounter) : LeaseKept rec rec' := by
  refine ⟨he, ?_, ?_⟩
  · intro l h
    rw [KeyRecord.holds, hl] at h
    exact h
  · intro l h
    exact ⟨l, hl ▸ h, rfl⟩

/-- Items and sequence are as they were, and no lease was granted. -/
structure Fixed (rec rec' : KeyRecord ι) : Prop extends LeaseKept rec rec' where
  items : rec'.items = rec.items
  sequence : rec'.sequence = rec.sequence

/-- What the calls besides commits, saves and acquisitions leave as it is. -/
structure Same (rec rec' : KeyRecord ι) : Prop extends Fixed rec rec' where
  lanes : rec'.lanes = rec.lanes

theorem Same.refl (rec : KeyRecord ι) : Same rec rec :=
  ⟨⟨LeaseKept.of_eq rfl rfl, rfl, rfl⟩, rfl⟩

/-- A save of no sequence. -/
theorem applyPatch_fixed (rec : KeyRecord ι) {p : StatePatch} (hp : p.sequence = none) :
    Fixed rec (rec.applyPatch p) := by
  refine ⟨LeaseKept.of_eq rfl rfl, rfl, ?_⟩
  rw [sequence_applyPatch, hp]
  rfl

theorem renewLease_same (rec : KeyRecord ι) (lease : Lease) (ttlMs now : Int) :
    Same rec (rec.renewLease lease ttlMs now).2 := by
  unfold renewLease
  split
  · refine ⟨⟨⟨rfl, fun l h => ?_, fun l h => ?_⟩, rfl, rfl⟩, rfl⟩
    · cases hl : rec.lease with
      | none => simp [KeyRecord.holds, hl] at h
      | some cur => simpa [KeyRecord.holds, hl] using h
    · cases hl : rec.lease with
      | none => simp [hl] at h
      | some cur =>
        refine ⟨cur, rfl, ?_⟩
        simp only [hl, Option.map_some, Option.some.injEq] at h
        rw [← h]
  · exact Same.refl rec

theorem releaseLease_same (rec : KeyRecord ι) (lease : Lease) :
    Same rec (rec.releaseLease lease) := by
  unfold releaseLease
  split
  · refine ⟨⟨⟨rfl, fun l h => ?_, fun l h => ?_⟩, rfl, rfl⟩, rfl⟩
    · simp [KeyRecord.holds] at h
    · simp at h
  · exact Same.refl rec

theorem retryParked_same (rec : KeyRecord ι) (ids : List String) :
    (rec.retryParked ids).2.state = rec.state ∧ (rec.retryParked ids).2.items = rec.items ∧
      (rec.retryParked ids).2.lease = rec.lease ∧
      (rec.retryParked ids).2.epochCounter = rec.epochCounter := by
  induction ids generalizing rec with
  | nil => exact ⟨rfl, rfl, rfl, rfl⟩
  | cons id ids ih =>
    obtain ⟨hs, hi, hl, he⟩ := ih (rec.retryOne id).2
    have hone : (rec.retryOne id).2.state = rec.state ∧ (rec.retryOne id).2.items = rec.items ∧
        (rec.retryOne id).2.lease = rec.lease ∧
        (rec.retryOne id).2.epochCounter = rec.epochCounter := by
      unfold retryOne
      split <;> exact ⟨rfl, rfl, rfl, rfl⟩
    obtain ⟨hs', hi', hl', he'⟩ := hone
    exact ⟨hs.trans hs', hi.trans hi', hl.trans hl', he.trans he'⟩

/-- A write that touches neither state, items nor lease. -/
theorem Same.of_eq {rec rec' : KeyRecord ι} (hs : rec'.state = rec.state)
    (hi : rec'.items = rec.items) (hl : rec'.lease = rec.lease)
    (he : rec'.epochCounter = rec.epochCounter) : Same rec rec' := by
  refine ⟨⟨LeaseKept.of_eq hl he, hi, ?_⟩, ?_⟩
  · rw [KeyRecord.sequence, hs]
    rfl
  · rw [KeyRecord.lanes, hs]
    rfl

theorem fenced_same {rec : KeyRecord ι} {lease : Lease} {write : KeyRecord ι → KeyRecord ι}
    (h : Same rec (write rec)) : Same rec (rec.fenced lease write).2 := by
  unfold fenced
  split
  · exact h
  · exact Same.refl rec

end KeyRecord

open KeyRecord

/-- The state patch of a call. -/
def StoreOp.patch : StoreOp ι → Option StatePatch
  | .saveState _ p => some p
  | .saveStateUnfenced p => some p
  | .commitPoll _ b => some b.statePatch
  | _ => none

theorem fenced_state (rec : KeyRecord ι) (lease : Lease) {write : KeyRecord ι → KeyRecord ι}
    (h : (write rec).state = rec.state) : (rec.fenced lease write).2.state = rec.state := by
  unfold fenced
  split
  · exact h
  · rfl

/-- Only the calls with a patch and the deletion of the key write the state. -/
theorem StoreOp.run_state {o : StoreOp ι} (hpatch : o.patch = none) (hdelete : o ≠ .deleteKey)
    (rec : KeyRecord ι) : (o.run rec).2.state = rec.state := by
  cases o with
  | acquireLease owner ttlMs now =>
    simp only [StoreOp.run, KeyRecord.acquireLease]
    split <;> rfl
  | renewLease lease ttlMs now =>
    simp only [StoreOp.run, KeyRecord.renewLease]
    split <;> rfl
  | releaseLease lease =>
    simp only [StoreOp.run, KeyRecord.releaseLease]
    split <;> rfl
  | saveState lease patch => cases hpatch
  | saveStateUnfenced patch => cases hpatch
  | commitPoll lease batch => cases hpatch
  | deleteKey => exact absurd rfl hdelete
  | recordAttempt lease eventId error nextAttemptAt =>
    refine fenced_state rec lease ?_
    unfold noteAttempt
    split <;> rfl
  | ackEvents lease ids => exact fenced_state rec lease rfl
  | parkEvent lease row => exact fenced_state rec lease rfl
  | setValidator lease hash validator => exact fenced_state rec lease rfl
  | retryParked ids => exact (retryParked_same rec ids).1
  | _ => rfl

/-- The calls that leave items, sequence and lanes as they are and grant no lease. -/
def StoreOp.Minor : StoreOp ι → Prop
  | .acquireLease _ _ _ => False
  | .saveState _ _ => False
  | .saveStateUnfenced _ => False
  | .commitPoll _ _ => False
  | .clearItems => False
  | .deleteKey => False
  | _ => True

theorem StoreOp.Minor.same {o : StoreOp ι} (ho : o.Minor) (rec : KeyRecord ι) :
    Same rec (o.run rec).2 := by
  cases o with
  | acquireLease _ _ _ => exact ho.elim
  | saveState _ _ => exact ho.elim
  | saveStateUnfenced _ => exact ho.elim
  | commitPoll _ _ => exact ho.elim
  | clearItems => exact ho.elim
  | deleteKey => exact ho.elim
  | renewLease lease ttlMs now => exact renewLease_same rec lease ttlMs now
  | releaseLease lease => exact releaseLease_same rec lease
  | ackEvents lease ids => exact fenced_same (Same.of_eq rfl rfl rfl rfl)
  | recordAttempt lease id e t =>
    refine fenced_same ?_
    unfold noteAttempt
    split
    · exact Same.refl rec
    · exact Same.of_eq rfl rfl rfl rfl
  | parkEvent lease row => exact fenced_same (Same.of_eq rfl rfl rfl rfl)
  | setValidator lease h x => exact fenced_same (Same.of_eq rfl rfl rfl rfl)
  | retryParked ids =>
    obtain ⟨hs, hi, hl, he⟩ := retryParked_same rec ids
    exact Same.of_eq hs hi hl he
  | discardParked ids => exact Same.of_eq rfl rfl rfl rfl
  | loadState | loadVersions _ | streamIdentities | loadPending _ | countPending | heldKeys
  | getValidator _ | readLog _ _ => exact Same.refl rec

/-- A call took effect, or it rejected and at most ran into a refusal of the store. -/
theorem performStore_effect {o : StoreOp ι} {ch : Choice ι} {rec rec' : KeyRecord ι}
    {a : Except JsError o.Result} (h : performStore o ch rec = some (a, rec')) :
    (tookEffect ch a = true ∧ ∃ x, o.run rec = (.ok x, rec') ∧ (∀ y, a = .ok y → y = x)) ∨
      (tookEffect ch a = false ∧ ∃ e, a = .error e ∧ (rec' = rec ∨ o.run rec = (.error e, rec'))) := by
  rcases performStore_cases h with ⟨rfl, hrun⟩ | ⟨e, rfl, rfl, rfl⟩ | ⟨e, x, rfl, rfl, hrun⟩
  · cases a with
    | ok x => exact Or.inl ⟨rfl, x, hrun, fun y hy => (Except.ok.inj hy).symm⟩
    | error e => exact Or.inr ⟨rfl, e, rfl, Or.inr hrun⟩
  · exact Or.inr ⟨rfl, e, rfl, Or.inl rfl⟩
  · exact Or.inl ⟨rfl, x, hrun, fun y hy => nomatch hy⟩

/-- Only an acquisition grants a lease. -/
theorem performStore_leaseKept {o : StoreOp ι} (hacq : ∀ owner ttlMs now, o ≠ .acquireLease owner ttlMs now)
    (hdel : o ≠ .deleteKey) {ch : Choice ι} {rec rec' : KeyRecord ι} {a : Except JsError o.Result}
    (h : performStore o ch rec = some (a, rec')) : LeaseKept rec rec' := by
  have hrefl : LeaseKept rec rec := LeaseKept.of_eq rfl rfl
  have hfenced : ∀ (lease : Lease) (write : KeyRecord ι → KeyRecord ι),
      LeaseKept rec (write rec) → LeaseKept rec (rec.fenced lease write).2 := by
    intro lease write hwrite
    unfold fenced
    split
    · exact hwrite
    · exact hrefl
  have hrun : LeaseKept rec (o.run rec).2 := by
    cases o with
    | acquireLease owner ttlMs now => exact absurd rfl (hacq owner ttlMs now)
    | deleteKey => exact absurd rfl hdel
    | saveState l p => exact hfenced l _ (LeaseKept.of_eq rfl rfl)
    | commitPoll l b => exact hfenced l _ (LeaseKept.of_eq rfl rfl)
    | saveStateUnfenced p => exact LeaseKept.of_eq rfl rfl
    | clearItems => exact LeaseKept.of_eq rfl rfl
    | _ => exact (StoreOp.Minor.same (by trivial) rec).toLeaseKept
  rcases performStore_effect h with ⟨-, x, heq, -⟩ | ⟨-, e, -, rfl | heq⟩
  · rw [heq] at hrun
    exact hrun
  · exact hrefl
  · rw [heq] at hrun
    exact hrun

theorem performStore_same {o : StoreOp ι} (ho : o.Minor) {ch : Choice ι} {rec rec' : KeyRecord ι}
    {a : Except JsError o.Result} (h : performStore o ch rec = some (a, rec')) : Same rec rec' := by
  have hsame := ho.same rec
  rcases performStore_effect h with ⟨-, x, hrun, -⟩ | ⟨-, e, -, rfl | hrun⟩
  · rw [hrun] at hsame
    exact hsame
  · exact Same.refl rec'
  · rw [hrun] at hsame
    exact hsame

/-- A fenced write resolves for the holder only. -/
theorem fenced_ok (write : KeyRecord ι → KeyRecord ι) {rec rec' : KeyRecord ι} {lease : Lease}
    {x : Unit} (h : rec.fenced lease write = (.ok x, rec')) :
    rec.holds lease = true ∧ rec' = write rec := by
  unfold fenced at h
  split at h
  · rename_i hholds
    exact ⟨hholds, (Prod.mk.inj h).2.symm⟩
  · cases h

/-- A refused write changes nothing. -/
theorem fenced_error (write : KeyRecord ι → KeyRecord ι) {rec rec' : KeyRecord ι} {lease : Lease}
    {e : JsError}
    (h : rec.fenced lease write = (.error e, rec')) : rec' = rec := by
  unfold fenced at h
  split at h
  · cases h
  · exact (Prod.mk.inj h).2.symm

/-- How a fenced write can go: it takes effect for the holder, or rejects and changes nothing. -/
theorem performStore_fenced (o : StoreOp ι) (write : KeyRecord ι → KeyRecord ι) {l : Lease}
    (hok : ∀ rec x rec', o.run rec = (.ok x, rec') → rec.holds l = true ∧ rec' = write rec)
    (herror : ∀ rec e rec', o.run rec = (.error e, rec') → rec' = rec) {ch : Choice ι}
    {rec rec' : KeyRecord ι} {a : Except JsError o.Result}
    (h : performStore o ch rec = some (a, rec')) :
    (tookEffect ch a = true ∧ rec.holds l = true ∧ rec' = write rec) ∨
      (tookEffect ch a = false ∧ (∃ e, a = .error e) ∧ rec' = rec) := by
  rcases performStore_effect h with ⟨ht, x, hrun, -⟩ | ⟨ht, e, ha, hrec | hrun⟩
  · exact Or.inl ⟨ht, hok rec x rec' hrun⟩
  · exact Or.inr ⟨ht, ⟨e, ha⟩, hrec⟩
  · exact Or.inr ⟨ht, ⟨e, ha⟩, herror rec e rec' hrun⟩

/-- How a commit can go. -/
theorem performStore_commit {l : Lease} {b : CommitBatch ι} {ch : Choice ι}
    {rec rec' : KeyRecord ι} {a : Except JsError (StoreOp.commitPoll l b).Result}
    (h : performStore (.commitPoll l b) ch rec = some (a, rec')) :
    (tookEffect ch a = true ∧ rec.holds l = true ∧ rec' = rec.commit b) ∨
      (tookEffect ch a = false ∧ (∃ e, a = .error e) ∧ rec' = rec) :=
  performStore_fenced (.commitPoll l b) (fun rec => rec.commit b)
    (fun _ _ _ hr => fenced_ok (fun rec => rec.commit b) hr)
    (fun _ _ _ hr => fenced_error (fun rec => rec.commit b) hr) h

/-- How a fenced save can go. -/
theorem performStore_save {l : Lease} {p : StatePatch} {ch : Choice ι} {rec rec' : KeyRecord ι}
    {a : Except JsError (StoreOp.saveState (ι := ι) l p).Result}
    (h : performStore (.saveState l p) ch rec = some (a, rec')) :
    (tookEffect ch a = true ∧ rec.holds l = true ∧ rec' = rec.applyPatch p) ∨
      (tookEffect ch a = false ∧ (∃ e, a = .error e) ∧ rec' = rec) :=
  performStore_fenced (.saveState l p) (fun rec => rec.applyPatch p)
    (fun _ _ _ hr => fenced_ok (fun rec => rec.applyPatch p) hr)
    (fun _ _ _ hr => fenced_error (fun rec => rec.applyPatch p) hr) h

/-- A save without the fence. -/
theorem performStore_saveUnfenced {p : StatePatch} {ch : Choice ι} {rec rec' : KeyRecord ι}
    {a : Except JsError (StoreOp.saveStateUnfenced (ι := ι) p).Result}
    (h : performStore (.saveStateUnfenced p) ch rec = some (a, rec')) :
    rec' = rec.applyPatch p ∨ rec' = rec := by
  rcases performStore_effect h with ⟨-, x, hrun, -⟩ | ⟨-, e, -, hrec | hrun⟩
  · exact Or.inl (Prod.mk.inj hrun).2.symm
  · exact Or.inr hrec
  · cases (Prod.mk.inj hrun).1

/-- A call that only reads. -/
theorem performStore_read {o : StoreOp ι} {read : KeyRecord ι → o.Result}
    (hrun : ∀ rec, o.run rec = (.ok (read rec), rec)) {ch : Choice ι} {rec rec' : KeyRecord ι}
    {a : Except JsError o.Result} (h : performStore o ch rec = some (a, rec')) :
    rec' = rec ∧ ∀ x, a = .ok x → x = read rec := by
  rcases performStore_effect h with ⟨-, x, hx, hy⟩ | ⟨-, e, rfl, hrec | he⟩
  · rw [hrun] at hx
    obtain ⟨hread, hrec⟩ := Prod.mk.inj hx
    refine ⟨hrec.symm, fun y ha => ?_⟩
    rw [hy y ha]
    exact (Except.ok.inj hread).symm
  · exact ⟨hrec, fun x hx => nomatch hx⟩
  · rw [hrun] at he
    cases (Prod.mk.inj he).1

/-- An acquisition is refused, or grants a lease of a new term. -/
theorem performStore_acquire {owner : String} {ttlMs now : Int} {ch : Choice ι}
    {rec rec' : KeyRecord ι} {a : Except JsError (StoreOp.acquireLease (ι := ι) owner ttlMs now).Result}
    (h : performStore (.acquireLease owner ttlMs now) ch rec = some (a, rec')) :
    (rec' = rec ∧ ∀ l, a ≠ .ok (some l)) ∨
      ∃ l : Lease, l.epoch = rec.epochCounter + 1 ∧
        rec' = { rec with epochCounter := rec.epochCounter + 1, lease := some l } ∧
        ∀ l', a = .ok (some l') → l' = l := by
  have hgrant : ∀ r rec', rec.acquireLease owner ttlMs now = (r, rec') →
      (rec' = rec ∧ r = none) ∨ ∃ l : Lease, l.epoch = rec.epochCounter + 1 ∧
        rec' = { rec with epochCounter := rec.epochCounter + 1, lease := some l } ∧ r = some l := by
    intro r rec' hr
    unfold KeyRecord.acquireLease at hr
    split at hr
    · obtain ⟨rfl, rfl⟩ := Prod.mk.inj hr
      exact Or.inl ⟨rfl, rfl⟩
    · obtain ⟨rfl, rfl⟩ := Prod.mk.inj hr
      exact Or.inr ⟨_, rfl, rfl, rfl⟩
  rcases performStore_effect h with ⟨-, x, hrun, hx⟩ | ⟨-, e, rfl, hrec | hrun⟩
  · obtain ⟨hx', hrec⟩ := Prod.mk.inj hrun
    rcases hgrant x rec' (Prod.ext (Except.ok.inj hx') hrec) with ⟨hrec, hnone⟩ | ⟨l, he, hrec, hl⟩
    · refine Or.inl ⟨hrec, fun l ha => ?_⟩
      cases (hx _ ha).trans hnone
    · refine Or.inr ⟨l, he, hrec, fun l' ha => ?_⟩
      exact Option.some.inj ((hx _ ha).trans hl)
  · exact Or.inl ⟨hrec, fun l ha => nomatch ha⟩
  · cases (Prod.mk.inj hrun).1

/-! ## Steps of the system -/

/-- A store call performs on the record of the key. -/
theorem perform_store {o : StoreOp ι} {ch : Choice ι} {w w' : World ι} {a : Ans (.store o)}
    (h : perform (.store o) ch w = some (a, w')) :
    performStore o ch w.store = some (a, w'.store) := by
  have hmap : (performStore o ch w.store).map (fun r => (r.1, { w with store := r.2 })) =
      some (a, w') := h
  obtain ⟨r, hr, heq⟩ := Option.map_eq_some_iff.1 hmap
  obtain ⟨rfl, rfl⟩ := Prod.mk.inj heq
  exact hr

/-- Every other call leaves the record alone. -/
theorem perform_other {o : Op ι} (ho : ∀ so, o ≠ .store so) {ch : Choice ι} {w w' : World ι}
    {a : Ans o} (h : perform o ch w = some (a, w')) : w'.store = w.store := by
  cases o with
  | store so => exact absurd rfl (ho so)
  | joinRound i =>
    cases ch <;> simp only [perform] at h <;> try cases h
    split at h
    · cases h
      rfl
    · split at h
      · cases h
        rfl
      · cases h
  | _ => cases ch <;> cases h <;> rfl

end Watukuy
