import Watukuy.Cycle.Obeys
import Watukuy.Run.Fence

/-!
# Fencing

Leases are numbered, so that of all threads that ever had one, at most one holds the current lease
(`Terms`). What holds of the record and the holder's view when a lease is granted, and what the
holder's own steps and the others' unfenced writes keep, holds as long as the lease does
(`Knows.act`). `fenced` uses this for what the holder has read: its sequence, the rows it loaded, the
identities it streamed (`Current`) are still what the store has, in all runs of the system in which
nobody removes the partition, clears its items or replays its log.
-/

set_option autoImplicit false

namespace Watukuy

open Library KeyRecord

variable {ι : Type}

/-- The contract that only watches. -/
@[reducible] def watch (ι : Type) : Contract (Op ι) Ans where
  View := CycleView ι
  allow _ _ := True
  learn := CycleView.learn

/-- What thread `t` has learned in the steps `tr`. -/
def viewAt (tr : List (Label (system ι))) (t : Nat) : CycleView ι := (watch ι).observe {} t tr

theorem observe_eq_viewAt (d : Deployment ι) (extra : CycleView ι → StoreOp ι → Prop)
    (tr : List (Label (system ι))) (t : Nat) :
    (cycleContract d extra).observe {} t tr = viewAt tr t := rfl

section ViewAt

variable (tr : List (Label (system ι)))

@[simp] theorem viewAt_nil (t : Nat) : viewAt ([] : List (Label (system ι))) t = {} := rfl

@[simp] theorem viewAt_start (p : Prog (Op ι) Ans Unit) (t : Nat) :
    viewAt (tr ++ [.start p]) t = viewAt tr t := observe_start t tr p

@[simp] theorem viewAt_drift (x : OuterAbort) (t : Nat) :
    viewAt (tr ++ [.drift x]) t = viewAt tr t := observe_drift t tr x

theorem viewAt_act (t t' : Nat) (o : Op ι) (ch : Choice ι) (a : Ans o) :
    viewAt (tr ++ [.act t o ch a]) t' =
      if t = t' then (viewAt tr t).learn o a else viewAt tr t' := by
  rcases eq_or_ne t t' with rfl | h
  · rw [if_pos rfl]
    exact observe_act_self t tr o ch a
  · rw [if_neg h]
    exact observe_act_ne h tr o ch a

end ViewAt

/-! ## Terms -/

/-- Leases are numbered apart. -/
structure Terms (views : Nat → CycleView ι) (rec : KeyRecord ι) : Prop where
  counter : ∀ l, rec.lease = some l → l.epoch ≤ rec.epochCounter
  epoch : ∀ t l, (views t).lease = some l → l.epoch ≤ rec.epochCounter
  distinct : ∀ t t' l l', t ≠ t' → (views t).lease = some l → (views t').lease = some l' →
    l.epoch ≠ l'.epoch

/-- Only one thread holds the lease. -/
theorem Terms.holder_unique {views : Nat → CycleView ι} {rec : KeyRecord ι} (h : Terms views rec)
    {t t' : Nat} {l l' : Lease} (hl : (views t).lease = some l) (hl' : (views t').lease = some l')
    (hh : rec.holds l = true) (hh' : rec.holds l' = true) : t' = t := by
  by_contra hne
  exact h.distinct t t' l l' (Ne.symm hne) hl hl' (holds_epoch hh hh')

/-- A step that grants no lease. -/
theorem Terms.kept {views views' : Nat → CycleView ι} {rec rec' : KeyRecord ι} (h : Terms views rec)
    (hleases : ∀ t, (views' t).lease = (views t).lease) (hrec : LeaseKept rec rec') :
    Terms views' rec' := by
  refine ⟨?_, ?_, ?_⟩
  · intro l hl
    obtain ⟨l₀, hl₀, he⟩ := hrec.term l hl
    rw [hrec.epoch, ← he]
    exact h.counter l₀ hl₀
  · intro t l hl
    rw [hrec.epoch]
    exact h.epoch t l (hleases t ▸ hl)
  · intro t₁ t₂ l l' hne hl hl'
    exact h.distinct t₁ t₂ l l' hne (hleases t₁ ▸ hl) (hleases t₂ ▸ hl')

/-- After a grant to thread `t`, a lease is an old one or the one just granted. -/
theorem lease_after_grant {views views' : Nat → CycleView ι} {t : Nat} {l : Lease}
    (hother : ∀ t', t' ≠ t → views' t' = views t')
    (hself : views' t = views t ∨ views' t = { lease := some l }) {t' : Nat} {l' : Lease}
    (hl' : (views' t').lease = some l') :
    (views' t' = views t' ∧ (views t').lease = some l') ∨
      (t' = t ∧ views' t' = { lease := some l } ∧ l' = l) := by
  have hkept : views' t' = views t' → views' t' = views t' ∧ (views t').lease = some l' := by
    intro heq
    exact ⟨heq, heq ▸ hl'⟩
  rcases eq_or_ne t' t with rfl | hne
  · rcases hself with heq | heq
    · exact Or.inl (hkept heq)
    · rw [heq] at hl'
      exact Or.inr ⟨rfl, heq, (Option.some.inj hl').symm⟩
  · exact Or.inl (hkept (hother t' hne))

/-- A grant numbers the lease past all others. -/
theorem Terms.grant {views views' : Nat → CycleView ι} {rec : KeyRecord ι} (h : Terms views rec)
    {t : Nat} {l : Lease} (hother : ∀ t', t' ≠ t → views' t' = views t')
    (hself : views' t = views t ∨ views' t = { lease := some l })
    (hepoch : l.epoch = rec.epochCounter + 1) :
    Terms views' { rec with epochCounter := rec.epochCounter + 1, lease := some l } := by
  refine ⟨?_, ?_, ?_⟩
  · intro l' hl'
    obtain rfl : l = l' := Option.some.inj hl'
    exact hepoch.le
  · intro t' l' hl'
    rcases lease_after_grant hother hself hl' with ⟨-, hold⟩ | ⟨-, -, rfl⟩
    · exact Nat.le_succ_of_le (h.epoch t' l' hold)
    · exact hepoch.le
  · intro t₁ t₂ l₁ l₂ hne h₁ h₂
    rcases lease_after_grant hother hself h₁ with ⟨-, hold₁⟩ | ⟨ht₁, -, rfl⟩
    · rcases lease_after_grant hother hself h₂ with ⟨-, hold₂⟩ | ⟨-, -, rfl⟩
      · exact h.distinct t₁ t₂ l₁ l₂ hne hold₁ hold₂
      · have hle := h.epoch t₁ l₁ hold₁
        omega
    · rcases lease_after_grant hother hself h₂ with ⟨-, hold₂⟩ | ⟨ht₂, -, -⟩
      · have hle := h.epoch t₂ l₂ hold₂
        omega
      · exact absurd (ht₁.trans ht₂.symm) hne

/-- Only the grant of a lease changes the lease of a view. -/
theorem learn_lease (v : CycleView ι) {o : Op ι}
    (ho : ∀ owner ttlMs now, o ≠ .store (.acquireLease owner ttlMs now)) (a : Ans o) :
    (v.learn o a).lease = v.lease := by
  cases o with
  | store so =>
    cases so with
    | acquireLease owner ttlMs now => exact absurd rfl (ho owner ttlMs now)
    | loadState | loadVersions _ | streamIdentities | commitPoll _ _ | saveState _ _
    | getValidator _ => cases a <;> rfl
    | _ => rfl
  | http req => cases a <;> rfl
  | _ => rfl

section Step

variable {tr : List (Label (system ι))} {w w' : World ι} {t : Nat} {o : Op ι} {ch : Choice ι}
  {a : Ans o}

theorem viewAt_other {t' : Nat} (hne : t' ≠ t) :
    viewAt (tr ++ [.act t o ch a]) t' = viewAt tr t' := by
  rw [viewAt_act, if_neg (Ne.symm hne)]

theorem viewAt_self : viewAt (tr ++ [.act t o ch a]) t = (viewAt tr t).learn o a := by
  rw [viewAt_act, if_pos rfl]

/-- A step that is no acquisition leaves all leases as they are. -/
theorem viewAt_lease (ho : ∀ owner ttlMs now, o ≠ .store (.acquireLease owner ttlMs now)) (t' : Nat) :
    (viewAt (tr ++ [.act t o ch a]) t').lease = (viewAt tr t').lease := by
  rcases eq_or_ne t' t with rfl | hne
  · rw [viewAt_self, learn_lease _ ho]
  · rw [viewAt_other hne]

variable (tr t) in
/-- How an acquisition can go. -/
theorem acquire_cases {owner : String} {ttlMs now : Int}
    {a : Ans (.store (.acquireLease (ι := ι) owner ttlMs now))}
    (hw : perform (.store (.acquireLease owner ttlMs now)) ch w = some (a, w')) :
    (w'.store = w.store ∧
        viewAt (tr ++ [.act t (.store (.acquireLease owner ttlMs now)) ch a]) t = viewAt tr t) ∨
      ∃ l : Lease, l.epoch = w.store.epochCounter + 1 ∧
        w'.store = { w.store with epochCounter := w.store.epochCounter + 1, lease := some l } ∧
        (viewAt (tr ++ [.act t (.store (.acquireLease owner ttlMs now)) ch a]) t = viewAt tr t ∨
          viewAt (tr ++ [.act t (.store (.acquireLease owner ttlMs now)) ch a]) t =
            { lease := some l }) := by
  rw [viewAt_self]
  rcases performStore_acquire (perform_store hw) with ⟨hrec, hno⟩ | ⟨l, hepoch, hrec, hl⟩
  · refine Or.inl ⟨hrec, ?_⟩
    cases a with
    | error e => rfl
    | ok got =>
      cases got with
      | none => rfl
      | some l => exact absurd rfl (hno l)
  · refine Or.inr ⟨l, hepoch, hrec, ?_⟩
    cases a with
    | error e => exact Or.inl rfl
    | ok got =>
      cases got with
      | none => exact Or.inl rfl
      | some l' =>
        rw [← hl l' rfl]
        exact Or.inr rfl

/-- The record after a step that is no acquisition. -/
theorem perform_leaseKept (hacq : ∀ owner ttlMs now, o ≠ .store (.acquireLease owner ttlMs now))
    (hdel : o ≠ .store .deleteKey) (hw : perform o ch w = some (a, w')) :
    LeaseKept w.store w'.store := by
  cases o with
  | store so =>
    refine performStore_leaseKept ?_ ?_ (perform_store hw)
    · intro owner ttlMs now heq
      exact hacq owner ttlMs now (congrArg Op.store heq)
    · intro heq
      exact hdel (congrArg Op.store heq)
  | _ =>
    rw [perform_other (fun so => by simp) hw]
    exact LeaseKept.of_eq rfl rfl

theorem Terms.act (h : Terms (viewAt tr) w.store) (hdel : o ≠ .store .deleteKey)
    (hw : perform o ch w = some (a, w')) :
    Terms (viewAt (tr ++ [.act t o ch a])) w'.store := by
  by_cases hacq : ∃ owner ttlMs now, o = .store (.acquireLease owner ttlMs now)
  · obtain ⟨owner, ttlMs, now, rfl⟩ := hacq
    rcases acquire_cases tr t hw with ⟨hrec, hview⟩ | ⟨l, hepoch, hrec, hview⟩
    · rw [hrec]
      refine h.kept ?_ (LeaseKept.of_eq rfl rfl)
      intro t'
      rcases eq_or_ne t' t with rfl | hne
      · rw [hview]
      · rw [viewAt_other hne]
    · rw [hrec]
      exact h.grant (fun t' hne => viewAt_other hne) hview hepoch
  · push Not at hacq
    exact h.kept (viewAt_lease hacq) (perform_leaseKept hacq hdel hw)

end Step

theorem Terms.init (key : PKey) : Terms (fun _ => {}) (KeyRecord.fresh key : KeyRecord ι) := by
  refine ⟨?_, ?_, ?_⟩
  · intro l hl
    cases hl
  · intro t l hl
    cases hl
  · intro t t' l l' _ hl
    cases hl

/-! ## What the holder knows -/

/-- `P` holds of whoever holds the lease. -/
def OfHolder (P : Nat → Prop) (views : Nat → CycleView ι) (rec : KeyRecord ι) : Prop :=
  ∀ t l, (views t).lease = some l → rec.holds l = true → P t

/-- What holds of the holder outlasts a step when it starts with every lease, the holder's own steps
keep it, and so do the steps of others, who cannot write under the lease. -/
theorem OfHolder.act {P P' : Nat → Prop} {tr : List (Label (system ι))} {w w' : World ι} {t : Nat}
    {o : Op ι} {ch : Choice ι} {a : Ans o} (h : OfHolder P (viewAt tr) w.store)
    (hterms : Terms (viewAt tr) w.store) (hdel : o ≠ .store .deleteKey)
    (hw : perform o ch w = some (a, w'))
    (hgrant : ∀ l, viewAt (tr ++ [.act t o ch a]) t = { lease := some l } → P' t)
    (hrefused : (∃ owner ttlMs now, o = .store (.acquireLease owner ttlMs now)) →
      w'.store = w.store → ∀ t', viewAt (tr ++ [.act t o ch a]) t' = viewAt tr t' → P t' → P' t')
    (hself : (∀ owner ttlMs now, o ≠ .store (.acquireLease owner ttlMs now)) →
      ∀ l, (viewAt tr t).lease = some l → w.store.holds l = true → P t → P' t)
    (hother : (∀ owner ttlMs now, o ≠ .store (.acquireLease owner ttlMs now)) →
      (∃ l, (viewAt tr t).lease = some l ∧ w.store.holds l = true) ∨ ∀ t', t' ≠ t → P t' → P' t') :
    OfHolder P' (viewAt (tr ++ [.act t o ch a])) w'.store := by
  by_cases hacq : ∃ owner ttlMs now, o = .store (.acquireLease owner ttlMs now)
  · obtain ⟨owner, ttlMs, now, rfl⟩ := hacq
    intro t' l' hl' hh
    rcases acquire_cases tr t hw with ⟨hrec, hview⟩ | ⟨l, hepoch, hrec, hview⟩
    · have hsame : viewAt (tr ++ [.act t (.store (.acquireLease owner ttlMs now)) ch a]) t' =
          viewAt tr t' := by
        rcases eq_or_ne t' t with rfl | hne
        · exact hview
        · exact viewAt_other hne
      rw [hsame] at hl'
      rw [hrec] at hh
      exact hrefused ⟨owner, ttlMs, now, rfl⟩ hrec t' hsame (h t' l' hl' hh)
    · rcases lease_after_grant (fun t' hne => viewAt_other hne) hview hl' with ⟨-, hold⟩ | ⟨rfl, heq, -⟩
      · -- an older lease is not the one just granted
        have hle := hterms.epoch t' l' hold
        rw [hrec] at hh
        simp only [KeyRecord.holds, Bool.and_eq_true, beq_iff_eq] at hh
        omega
      · exact hgrant _ heq
  · push Not at hacq
    have hkept := perform_leaseKept hacq hdel hw
    intro t' l' hl' hh
    rw [viewAt_lease hacq] at hl'
    have hheld := hkept.holds l' hh
    rcases eq_or_ne t' t with rfl | hne
    · exact hself hacq l' hl' hheld (h t' l' hl' hheld)
    · rcases hother hacq with ⟨l, hl, hholds⟩ | hkeep
      · -- another thread's lease is not the current one
        exact absurd (hterms.holder_unique hl hl' hholds hheld) hne
      · exact hkeep t' hne (h t' l' hl' hheld)

/-- `K` relates the record to the view of whoever holds the lease. -/
def Knows (K : KeyRecord ι → CycleView ι → Prop) (views : Nat → CycleView ι) (rec : KeyRecord ι) :
    Prop :=
  OfHolder (fun t => K rec (views t)) views rec

theorem Knows.init (K : KeyRecord ι → CycleView ι → Prop) (rec : KeyRecord ι) :
    Knows K (fun _ => {}) rec := by
  intro t l hl
  cases hl

/-- What the holder knows outlasts a step. -/
theorem Knows.act {K : KeyRecord ι → CycleView ι → Prop} {tr : List (Label (system ι))}
    {w w' : World ι} {t : Nat} {o : Op ι} {ch : Choice ι} {a : Ans o}
    (h : Knows K (viewAt tr) w.store) (hterms : Terms (viewAt tr) w.store)
    (hdel : o ≠ .store .deleteKey) (hw : perform o ch w = some (a, w'))
    (hgrant : ∀ rec l, K rec { lease := some l })
    (hself : (∀ owner ttlMs now, o ≠ .store (.acquireLease owner ttlMs now)) →
      ∀ l, (viewAt tr t).lease = some l → w.store.holds l = true → K w.store (viewAt tr t) →
        K w'.store ((viewAt tr t).learn o a))
    (hother : (∀ owner ttlMs now, o ≠ .store (.acquireLease owner ttlMs now)) →
      (∃ l, (viewAt tr t).lease = some l ∧ w.store.holds l = true) ∨
        ∀ v, K w.store v → K w'.store v) :
    Knows K (viewAt (tr ++ [.act t o ch a])) w'.store := by
  refine OfHolder.act h hterms hdel hw ?_ ?_ ?_ ?_
  · intro l heq
    rw [heq]
    exact hgrant _ _
  · intro _ hrec t' hview hK
    rw [hview, hrec]
    exact hK
  · intro hacq l hl hholds hK
    rw [viewAt_self]
    exact hself hacq l hl hholds hK
  · intro hacq
    rcases hother hacq with hheld | hkeep
    · exact Or.inl hheld
    · refine Or.inr fun t' hne hK => ?_
      rw [viewAt_other hne]
      exact hkeep _ hK

/-! ## What the holder has read -/

/-- What the holder has read is what the store has. -/
structure Current (rec : KeyRecord ι) (v : CycleView ι) : Prop where
  sequence : v.ready = true → rec.sequence ≤ v.sequence
  loaded : ∀ ids rows, v.loaded = some (ids, rows) → rows = rec.loadVersions ids
  streamed : ∀ ids, v.streamed = some ids → v.deleted = [] → ids = rec.items.keys

/-- The view knows no more than before. -/
structure Tame (v v' : CycleView ι) : Prop where
  lease : v'.lease = v.lease
  ready : v'.ready = v.ready
  sequence : v'.sequence = v.sequence
  loaded : v'.loaded = v.loaded ∨ v'.loaded = none
  streamed : (v'.streamed = v.streamed ∧ v'.deleted = v.deleted) ∨ v'.streamed = none

theorem Tame.refl (v : CycleView ι) : Tame v v := ⟨rfl, rfl, rfl, Or.inl rfl, Or.inl ⟨rfl, rfl⟩⟩

theorem Current.tame {rec rec' : KeyRecord ι} {v v' : CycleView ι} (h : Current rec v)
    (hrec : Fixed rec rec') (hv : Tame v v') : Current rec' v' := by
  have hload : ∀ ids, rec'.loadVersions ids = rec.loadVersions ids := by
    intro ids
    unfold KeyRecord.loadVersions
    rw [hrec.items]
  refine ⟨fun hready => ?_, fun ids rows hl => ?_, fun ids hs hdel => ?_⟩
  · rw [hrec.sequence, hv.sequence]
    exact h.sequence (hv.ready ▸ hready)
  · rw [hload]
    rcases hv.loaded with heq | hnone
    · exact h.loaded ids rows (heq ▸ hl)
    · rw [hnone] at hl
      cases hl
  · rw [hrec.items]
    rcases hv.streamed with ⟨hstr, hd⟩ | hnone
    · exact h.streamed ids (hstr ▸ hs) (hd ▸ hdel)
    · rw [hnone] at hs
      cases hs

/-- The calls an answer to which teaches something about the store. -/
def StoreOp.Telling : StoreOp ι → Prop
  | .acquireLease _ _ _ => True
  | .loadState => True
  | .loadVersions _ => True
  | .streamIdentities => True
  | .commitPoll _ _ => True
  | .saveState _ _ => True
  | _ => False

theorem learn_tame {v : CycleView ι} {o : Op ι} (ho : ∀ so, o = .store so → ¬so.Telling)
    (a : Ans o) : Tame v (v.learn o a) := by
  cases o with
  | store so =>
    cases so with
    | getValidator h => cases a <;> exact ⟨rfl, rfl, rfl, Or.inl rfl, Or.inl ⟨rfl, rfl⟩⟩
    | acquireLease _ _ _ | loadState | loadVersions _ | streamIdentities | commitPoll _ _
    | saveState _ _ => exact absurd trivial (ho _ rfl)
    | _ => exact Tame.refl v
  | pollStart lane => exact ⟨rfl, rfl, rfl, Or.inr rfl, Or.inr rfl⟩
  | http req => cases a <;> exact ⟨rfl, rfl, rfl, Or.inl rfl, Or.inl ⟨rfl, rfl⟩⟩
  | _ => exact ⟨rfl, rfl, rfl, Or.inl rfl, Or.inl ⟨rfl, rfl⟩⟩

/-! ## Fencing in all runs -/

/-- The call leaves the items alone but for the commits of cycles. -/
def EngineCall.KeepsItems : EngineCall → Prop
  | .resetCursor options => options.clearSnapshot = false
  | .replay _ _ => False
  | .removePartition => False
  | _ => True

section Runs

variable {d : Deployment ι} {S : EngineCall → Prop}

/-- What a call of the contract may commit or save, when no call of `S` touches the items. -/
theorem allow_commit (hS : ∀ call, S call → call.KeepsItems) {v : CycleView ι} {l : Lease}
    {b : CommitBatch ι}
    (h : (cycleContract d (administers d S)).allow v (.store (.commitPoll l b))) :
    v.lease = some l ∧ v.ready = true ∧ (Nonempty (PageStep d v b) ∨ Nonempty (DeleteStep d v b)) := by
  rcases h with h | ⟨⟨fromTime, toTime, hreplay⟩, -⟩
  · exact h
  · exact (hS _ hreplay).elim

theorem allow_clearItems (hS : ∀ call, S call → call.KeepsItems) {v : CycleView ι} :
    ¬(cycleContract d (administers d S)).allow v (.store .clearItems) := by
  rintro (h | ⟨options, hreset, hclear⟩)
  · exact h
  · rw [hS _ hreset] at hclear
    cases hclear

theorem allow_deleteKey (hS : ∀ call, S call → call.KeepsItems) {v : CycleView ι} :
    ¬(cycleContract d (administers d S)).allow v (.store .deleteKey) := by
  rintro (h | h)
  · exact h
  · exact hS _ h

/-- What a call does to the items: a commit of the holder takes effect, or they stay. -/
inductive ItemsStep (d : Deployment ι) (v : CycleView ι) (rec : KeyRecord ι) :
    (o : Op ι) → Choice ι → Ans o → KeyRecord ι → Prop where
  | commit {l : Lease} {b : CommitBatch ι} {ch : Choice ι} {a : Ans (.store (.commitPoll l b))}
      (effect : tookEffect ch a = true) (lease : v.lease = some l) (holds : rec.holds l = true)
      (step : Nonempty (PageStep d v b) ∨ Nonempty (DeleteStep d v b)) :
      ItemsStep d v rec (.store (.commitPoll l b)) ch a (rec.commit b)
  | refused {l : Lease} {b : CommitBatch ι} {ch : Choice ι} {e : JsError}
      (effect : tookEffect (o := .commitPoll (ι := ι) l b) ch (.error e) = false)
      (step : Nonempty (PageStep d v b) ∨ Nonempty (DeleteStep d v b)) :
      ItemsStep d v rec (.store (.commitPoll l b)) ch (.error e) rec
  | quiet {o : Op ι} {ch : Choice ι} {a : Ans o} {rec' : KeyRecord ι}
      (calls : ∀ l b, o ≠ .store (.commitPoll l b)) (items : rec'.items = rec.items) :
      ItemsStep d v rec o ch a rec'

theorem itemsStep (hS : ∀ call, S call → call.KeepsItems) {v : CycleView ι} {w w' : World ι} {o : Op ι}
    {ch : Choice ι} {a : Ans o} (hallow : (cycleContract d (administers d S)).allow v o)
    (hw : perform o ch w = some (a, w')) : ItemsStep d v w.store o ch a w'.store := by
  cases o with
  | store so =>
    have hp := perform_store hw
    cases so with
    | acquireLease owner ttlMs now =>
      rcases performStore_acquire hp with ⟨hrec, -⟩ | ⟨l, -, hrec, -⟩
      · exact .quiet (by simp) (by rw [hrec])
      · exact .quiet (by simp) (by rw [hrec])
    | saveState l p =>
      rcases performStore_save hp with ⟨-, -, hrec⟩ | ⟨-, -, hrec⟩
      · exact .quiet (by simp) (by rw [hrec]; rfl)
      · exact .quiet (by simp) (by rw [hrec])
    | saveStateUnfenced p =>
      rcases performStore_saveUnfenced hp with hrec | hrec
      · exact .quiet (by simp) (by rw [hrec]; rfl)
      · exact .quiet (by simp) (by rw [hrec])
    | commitPoll l b =>
      obtain ⟨hlease, -, hstep⟩ := allow_commit hS hallow
      rcases performStore_commit hp with ⟨heffect, hholds, hrec⟩ | ⟨heffect, ⟨e, rfl⟩, hrec⟩
      · rw [hrec]
        exact .commit heffect hlease hholds hstep
      · rw [hrec]
        exact .refused heffect hstep
    | clearItems => exact absurd hallow (allow_clearItems hS)
    | deleteKey => exact absurd hallow (allow_deleteKey hS)
    | _ => exact .quiet (by simp) (performStore_same (by trivial) hp).items
  | _ =>
    refine .quiet (by simp) ?_
    rw [perform_other (fun so => by simp) hw]

theorem commitSequence_le {v : CycleView ι} {b : CommitBatch ι}
    (h : Nonempty (PageStep d v b) ∨ Nonempty (DeleteStep d v b)) :
    ∃ n, b.statePatch.sequence = some n ∧ v.sequence ≤ n := by
  rcases h with ⟨⟨p⟩⟩ | ⟨⟨p⟩⟩
  · have hbase := p.base_ge
    exact ⟨_, p.sequence_eq, by omega⟩
  · have hbase := p.base_ge
    exact ⟨_, p.sequence_eq, by omega⟩

section Reads

variable {rec rec' : KeyRecord ι} {v : CycleView ι}

theorem Current.grant (rec : KeyRecord ι) (l : Lease) : Current rec { lease := some l } := by
  refine ⟨?_, ?_, ?_⟩
  · intro hr
    cases hr
  · intro ids rows hl
    cases hl
  · intro ids hs
    cases hs

/-- The holder loads the state. -/
theorem Current.loadState (h : Current rec v) {a : Except JsError (Option PollerState)}
    (ha : ∀ st, a = .ok st → st = rec.state) : Current rec (v.learn (.store .loadState) a) := by
  cases a with
  | error e => exact h
  | ok st =>
    refine ⟨fun _ => ?_, h.loaded, h.streamed⟩
    rw [ha st rfl]
    exact Nat.le_refl _

/-- The holder loads rows. -/
theorem Current.loadVersions (h : Current rec v) {ids : List IdentityValue}
    {a : Except JsError (OrderedMap String (ItemRow ι))}
    (ha : ∀ rows, a = .ok rows → rows = rec.loadVersions ids) :
    Current rec (v.learn (.store (.loadVersions ids)) a) := by
  cases a with
  | error e => exact h
  | ok rows =>
    refine ⟨h.sequence, ?_, h.streamed⟩
    intro ids' rows' hl
    obtain ⟨rfl, rfl⟩ := Prod.mk.inj (Option.some.inj hl)
    exact ha rows rfl

/-- The holder streams the stored identities. -/
theorem Current.streamIdentities (h : Current rec v) {a : Except JsError (List (List String))}
    (ha : ∀ batches, a = .ok batches → batches = rec.streamIdentities) :
    Current rec (v.learn (.store .streamIdentities) a) := by
  cases a with
  | error e => exact h
  | ok batches =>
    refine ⟨h.sequence, h.loaded, ?_⟩
    intro ids hs _
    rw [← Option.some.inj hs, ha batches rfl]
    exact streamIdentities_flatten rec

/-- The holder's commit took effect. -/
theorem Current.commit {l : Lease} {b : CommitBatch ι} {n : Nat} (hseq : b.statePatch.sequence = some n)
    (hstep : Nonempty (PageStep d v b) ∨ Nonempty (DeleteStep d v b))
    (a : Ans (.store (.commitPoll l b))) :
    Current (rec.commit b) (v.learn (.store (.commitPoll l b)) a) := by
  have hcommit : (rec.commit b).sequence = n := by
    change (rec.applyPatch b.statePatch).sequence = n
    rw [sequence_applyPatch, hseq]
    rfl
  have hview : (v.learn (.store (.commitPoll l b)) a).sequence = n := by
    cases a <;> exact congrArg (Option.getD · _) hseq
  refine ⟨?_, ?_, ?_⟩
  · intro _
    rw [hcommit, hview]
  · intro ids rows hl
    cases a <;> cases hl
  · intro ids hs hdel
    cases a with
    | error e => cases hs
    | ok x =>
      rcases hstep with ⟨⟨p⟩⟩ | ⟨⟨p⟩⟩
      · cases p.streamed_eq.symm.trans hs
      · have hdeleted : v.deleted ++ b.deletes = [] := hdel
        exact absurd (List.append_eq_nil_iff.1 hdeleted).2 p.deletes_ne

/-- The holder's commit was rejected and did nothing. -/
theorem Current.commitFailed (h : Current rec v) {l : Lease} {b : CommitBatch ι} {n : Nat}
    (hseq : b.statePatch.sequence = some n) (hle : v.sequence ≤ n) (e : JsError) :
    Current rec (v.learn (.store (.commitPoll l b)) (.error e)) := by
  refine ⟨?_, ?_, ?_⟩
  · intro hready
    have hview : (v.learn (.store (.commitPoll l b)) (.error e)).sequence = n :=
      congrArg (Option.getD · _) hseq
    rw [hview]
    exact (h.sequence hready).trans hle
  · intro ids rows hl
    cases hl
  · intro ids hs
    cases hs

/-- The holder saves; whether the save took effect, no item changes. -/
theorem Current.save (h : Current rec v) {l : Lease} {p : StatePatch} (hitems : rec'.items = rec.items)
    (hseq : v.ready = true → rec'.sequence ≤ p.sequence.getD v.sequence)
    (a : Ans (.store (.saveState l p))) : Current rec' (v.learn (.store (.saveState l p)) a) := by
  have hload : ∀ ids, rec'.loadVersions ids = rec.loadVersions ids := by
    intro ids
    unfold KeyRecord.loadVersions
    rw [hitems]
  refine ⟨?_, ?_, ?_⟩
  · intro hready
    cases a <;> exact hseq hready
  · intro ids rows hl
    rw [hload]
    cases a <;> exact h.loaded ids rows hl
  · intro ids hs hdel
    rw [hitems]
    cases a <;> exact h.streamed ids hs hdel

end Reads

/-! ## The invariant -/

/-- Leases are numbered apart, and the holder's knowledge is current. -/
structure Fenced (views : Nat → CycleView ι) (rec : KeyRecord ι) : Prop extends Terms views rec where
  current : Knows Current views rec
  nodup : ∀ t ids, (views t).streamed = some ids → ids.Nodup

/-- A save of the holder that took effect: the stored sequence is the one it saved. -/
theorem saved_sequence {rec : KeyRecord ι} {n : Nat} {p : StatePatch} (hle : rec.sequence ≤ n) :
    (rec.applyPatch p).sequence ≤ p.sequence.getD n := by
  rw [sequence_applyPatch]
  cases p.sequence with
  | none => exact hle
  | some m => exact Nat.le_refl m

/-- A refused save: the sequence it carries is no smaller than the stored one. -/
theorem unsaved_sequence {m n : Nat} {p : StatePatch} (hle : m ≤ n)
    (hp : ∀ k, p.sequence = some k → n ≤ k) : m ≤ p.sequence.getD n := by
  cases hseq : p.sequence with
  | none => exact hle
  | some k => exact hle.trans (hp k hseq)

section Act

variable {tr : List (Label (system ι))} {w w' : World ι} {t : Nat} {o : Op ι} {ch : Choice ι}
  {a : Ans o}

theorem Fenced.nodup_act (h : Fenced (viewAt tr) w.store) (hw : perform o ch w = some (a, w')) :
    ∀ t' ids, (viewAt (tr ++ [.act t o ch a]) t').streamed = some ids → ids.Nodup := by
  intro t' ids hids
  rcases eq_or_ne t' t with rfl | hne
  rotate_left
  · rw [viewAt_other hne] at hids
    exact h.nodup t' ids hids
  rw [viewAt_self] at hids
  have hold : ((viewAt tr t').learn o a).streamed = (viewAt tr t').streamed → ids.Nodup := by
    intro heq
    exact h.nodup t' ids (heq ▸ hids)
  cases o with
  | store so =>
    cases so with
    | streamIdentities =>
      obtain ⟨-, hread⟩ := performStore_read (fun _ => rfl) (perform_store hw)
      cases a with
      | error e => exact hold rfl
      | ok batches =>
        rw [← Option.some.inj hids, hread batches rfl, streamIdentities_flatten]
        exact OrderedMap.keys_nodup _
    | acquireLease owner ttlMs now =>
      cases a with
      | error e => exact hold rfl
      | ok got =>
        cases got with
        | none => exact hold rfl
        | some l => cases hids
    | commitPoll l b =>
      cases a with
      | error e => cases hids
      | ok x => exact hold rfl
    | loadState | loadVersions _ | saveState _ _ | getValidator _ => cases a <;> exact hold rfl
    | _ => exact hold rfl
  | http req => cases a <;> exact hold rfl
  | pollStart lane => cases hids
  | _ => exact hold rfl

theorem Fenced.act (hS : ∀ call, S call → call.KeepsItems) (h : Fenced (viewAt tr) w.store)
    (hallow : (cycleContract d (administers d S)).allow (viewAt tr t) o)
    (hw : perform o ch w = some (a, w')) : Fenced (viewAt (tr ++ [.act t o ch a])) w'.store := by
  have hdel : o ≠ .store .deleteKey := by
    rintro rfl
    exact allow_deleteKey hS hallow
  refine ⟨h.toTerms.act hdel hw, h.current.act h.toTerms hdel hw Current.grant ?_ ?_, h.nodup_act hw⟩
  · -- a step of the holder itself
    intro hacq l hl hhold hcur
    have htame : Fixed w.store w'.store → (∀ so, o = .store so → ¬so.Telling) →
        Current w'.store ((viewAt tr t).learn o a) := by
      intro hrec ho
      exact hcur.tame hrec (learn_tame ho a)
    cases o with
    | store so =>
      have hp := perform_store hw
      cases so with
      | acquireLease owner ttlMs now => exact absurd rfl (hacq owner ttlMs now)
      | loadState =>
        obtain ⟨hrec, hread⟩ := performStore_read (fun _ => rfl) hp
        rw [hrec]
        exact hcur.loadState hread
      | loadVersions ids =>
        obtain ⟨hrec, hread⟩ := performStore_read (fun _ => rfl) hp
        rw [hrec]
        exact hcur.loadVersions hread
      | streamIdentities =>
        obtain ⟨hrec, hread⟩ := performStore_read (fun _ => rfl) hp
        rw [hrec]
        exact hcur.streamIdentities hread
      | commitPoll l' b =>
        obtain ⟨-, -, hstep⟩ := allow_commit hS hallow
        -- the answer may be lost: the view takes the sequence of the batch either way
        obtain ⟨n, hseq, hle⟩ := commitSequence_le hstep
        rcases performStore_commit hp with ⟨-, -, hrec⟩ | ⟨-, ⟨e, rfl⟩, hrec⟩
        · rw [hrec]
          exact Current.commit hseq hstep a
        · rw [hrec]
          exact hcur.commitFailed hseq hle e
      | saveState l' p =>
        rcases hallow with hallow | hallow
        rotate_left
        · exact hallow.elim
        rcases performStore_save hp with ⟨-, -, hrec⟩ | ⟨-, -, hrec⟩
        · rw [hrec]
          -- a save changes no item row, so what was loaded stays current
          have hitems : (w.store.applyPatch p).items = w.store.items := rfl
          exact hcur.save hitems (fun hready => saved_sequence (hcur.sequence hready)) a
        · rw [hrec]
          exact hcur.save rfl
            (fun hready => unsaved_sequence (hcur.sequence hready) hallow.sequence) a
      | saveStateUnfenced p =>
        refine htame ?_ ?_
        · rcases hallow with hallow | ⟨hseq, -⟩
          · exact hallow.elim
          rcases performStore_saveUnfenced hp with heq | heq
          · rw [heq]
            exact applyPatch_fixed _ hseq
          · rw [heq]
            exact (Same.refl _).toFixed
        · intro so hso
          cases hso
          exact id
      | clearItems => exact absurd hallow (allow_clearItems hS)
      | deleteKey => exact absurd rfl hdel
      | _ =>
        refine htame (performStore_same (by trivial) hp).toFixed ?_
        intro so hso
        cases hso
        exact id
    | _ =>
      refine htame ?_ (fun so => by simp)
      rw [perform_other (fun so => by simp) hw]
      exact (Same.refl _).toFixed
  · -- a step of another thread: a write under the lease, or nothing the holder knows of
    intro hacq
    have hfixed : Fixed w.store w'.store → ∀ v, Current w.store v → Current w'.store v := by
      intro hrec v hcur
      exact hcur.tame hrec (Tame.refl v)
    cases o with
    | store so =>
      have hp := perform_store hw
      cases so with
      | acquireLease owner ttlMs now => exact absurd rfl (hacq owner ttlMs now)
      | commitPoll l b =>
        obtain ⟨hlease, -, -⟩ := allow_commit hS hallow
        rcases performStore_commit hp with ⟨-, hhold, -⟩ | ⟨-, -, hrec⟩
        -- it took effect, so the thread that made it holds the lease itself
        · exact Or.inl ⟨l, hlease, hhold⟩
        · rw [hrec]
          exact Or.inr fun v hcur => hcur
      | saveState l p =>
        rcases hallow with hallow | hallow
        rotate_left
        · exact hallow.elim
        rcases performStore_save hp with ⟨-, hhold, -⟩ | ⟨-, -, hrec⟩
        · exact Or.inl ⟨l, hallow.lease, hhold⟩
        · rw [hrec]
          exact Or.inr fun v hcur => hcur
      | saveStateUnfenced p =>
        refine Or.inr (hfixed ?_)
        rcases hallow with hallow | ⟨hseq, -⟩
        · exact hallow.elim
        rcases performStore_saveUnfenced hp with heq | heq
        · rw [heq]
          exact applyPatch_fixed _ hseq
        · rw [heq]
          exact (Same.refl _).toFixed
      | clearItems => exact absurd hallow (allow_clearItems hS)
      | deleteKey => exact absurd rfl hdel
      | _ => exact Or.inr (hfixed (performStore_same (by trivial) hp).toFixed)
    | _ =>
      rw [perform_other (fun so => by simp) hw]
      exact Or.inr fun v hcur => hcur

end Act

theorem Fenced.init (key : PKey) : Fenced (fun _ => {}) (KeyRecord.fresh key : KeyRecord ι) where
  toTerms := Terms.init key
  current := Knows.init Current _
  nodup _ _ hids := by cases hids

/-- An invariant of the views and the record may be proved one allowed call at a time. -/
theorem views_invariant {J : (Nat → CycleView ι) → KeyRecord ι → Prop}
    (init : J (fun _ => {}) (KeyRecord.fresh d.key))
    (act : ∀ {tr : List (Label (system ι))} {c : Config (system ι)} {w w' : World ι} {t : Nat}
      {o : Op ι} {ch : Choice ι} {a : Ans o}, Run (system ι) (d.entry S) (World.fresh d.key) tr c →
      J (viewAt tr) w.store → (cycleContract d (administers d S)).allow (viewAt tr t) o →
      perform o ch w = some (a, w') → J (viewAt (tr ++ [.act t o ch a])) w'.store)
    {tr : List (Label (system ι))} {c : Config (system ι)}
    (h : Run (system ι) (d.entry S) (World.fresh d.key) tr c) :
    J (viewAt tr) (World.store (ι := ι) c.world) := by
  refine Run.invariant (obeys d S) (J := fun tr (w : World ι) => J (viewAt tr) w.store) ?_ ?_ ?_
    ?_ h
  · exact init
  · intro tr c p _ hJ
    rw [funext (viewAt_start tr p)]
    exact hJ
  · intro tr c t o ch a w' hr hJ hallow hw
    exact act hr hJ hallow hw
  · intro tr c x _ hJ
    rw [funext (viewAt_drift tr x)]
    exact hJ

/-- An invariant of the views and the record in runs all whose steps satisfy `p`. -/
theorem views_assume {p : List (Label (system ι)) → Label (system ι) → Prop}
    {J : (Nat → CycleView ι) → KeyRecord ι → Prop} (init : J (fun _ => {}) (KeyRecord.fresh d.key))
    (act : ∀ {tr : List (Label (system ι))} {c : Config (system ι)} {w w' : World ι} {t : Nat}
      {o : Op ι} {ch : Choice ι} {a : Ans o}, Run (system ι) (d.entry S) (World.fresh d.key) tr c →
      J (viewAt tr) w.store → (cycleContract d (administers d S)).allow (viewAt tr t) o →
      perform o ch w = some (a, w') → p tr (.act t o ch a) →
      J (viewAt (tr ++ [.act t o ch a])) w'.store)
    {tr : List (Label (system ι))} {c : Config (system ι)}
    (h : Run (system ι) (d.entry S) (World.fresh d.key) tr c) (hp : Throughout p tr) :
    J (viewAt tr) (World.store (ι := ι) c.world) := by
  refine Run.assume (obeys d S) (J := fun tr (w : World ι) => J (viewAt tr) w.store) ?_ ?_ ?_
    ?_ h hp
  · exact init
  · intro tr c q _ hJ
    rw [funext (viewAt_start tr q)]
    exact hJ
  · intro tr c t o ch a w' hr hJ hallow hw hl
    exact act hr hJ hallow hw hl
  · intro tr c x _ hJ
    rw [funext (viewAt_drift tr x)]
    exact hJ

/-- In every run, leases are numbered apart and the holder's knowledge is current. -/
theorem fenced (hS : ∀ call, S call → call.KeepsItems) {tr : List (Label (system ι))}
    {c : Config (system ι)} (h : Run (system ι) (d.entry S) (World.fresh d.key) tr c) :
    Fenced (viewAt tr) (World.store (ι := ι) c.world) := by
  exact views_invariant (J := Fenced) (Fenced.init d.key)
    (fun _ hJ hallow hw => hJ.act hS hallow hw) h

end Runs

end Watukuy
