import Watukuy.Run.Fencing
import Watukuy.Run.Scenarios

/-!
# Sequence numbers

Every commit numbers its rows on from the sequence its thread knows, and stores the last number with
them. A thread that writes holds the lease, and the holder's sequence is never behind the stored one
(`Leading`); so the rows of all commits, in the order of the commits, are numbered upwards
(`sequences_increase`): in all lanes, by backfills and replays, whatever fails.
-/

set_option autoImplicit false

namespace Watukuy

open Library KeyRecord

variable {ι : Type}

/-- The rows a step commits. -/
def stepRows : Label (system ι) → List (OutboxRow ι)
  | .act _ (.store (.commitPoll _ b)) ch a => if tookEffect ch a then b.events else []
  | _ => []

/-- The rows of the commits that took effect, in the order of the commits. -/
def committedRows (tr : List (Label (system ι))) : List (OutboxRow ι) := tr.flatMap stepRows

theorem committedRows_append (tr : List (Label (system ι))) (l : Label (system ι)) :
    committedRows (tr ++ [l]) = committedRows tr ++ stepRows l := by
  simp [committedRows]

/-! ## The holder's sequence -/

/-- The view's sequence is not behind the stored one. -/
def Leading (rec : KeyRecord ι) (v : CycleView ι) : Prop := v.ready = true → rec.sequence ≤ v.sequence

/-- The call keeps the record of the key. -/
def EngineCall.KeepsKey : EngineCall → Prop
  | .removePartition => False
  | _ => True

section Runs

variable {d : Deployment ι} {S : EngineCall → Prop}

/-- What a thread may commit: rows numbered on from the sequence it knows, which is stored with them. -/
theorem allow_numbered {v : CycleView ι} {l : Lease} {b : CommitBatch ι}
    (h : (cycleContract d (administers d S)).allow v (.store (.commitPoll l b))) :
    v.lease = some l ∧ v.ready = true ∧ ∃ base, v.sequence ≤ base ∧ Numbered base b.events ∧
      b.statePatch.sequence = some (base + b.events.length) := by
  rcases h with ⟨hlease, hready, ⟨⟨p⟩⟩ | ⟨⟨p⟩⟩⟩ | ⟨-, h⟩
  · exact ⟨hlease, hready, p.base, p.base_ge, p.events_eq.numbered, p.sequence_eq⟩
  · exact ⟨hlease, hready, p.base, p.base_ge, p.events_eq.numbered, p.sequence_eq⟩
  · exact ⟨h.lease, h.ready, h.numbered⟩

theorem allow_keepsKey (hS : ∀ call, S call → call.KeepsKey) {v : CycleView ι} :
    ¬(cycleContract d (administers d S)).allow v (.store .deleteKey) := by
  rintro (h | h)
  · exact h
  · exact hS _ h

/-- The stored sequence after a commit. -/
theorem sequence_commit {rec : KeyRecord ι} {b : CommitBatch ι} {n : Nat}
    (h : b.statePatch.sequence = some n) : (rec.commit b).sequence = n := by
  change (rec.applyPatch b.statePatch).sequence = n
  rw [sequence_applyPatch, h]
  rfl

/-- Only loads, commits, saves and grants change the sequence a view knows. -/
theorem learn_sequence (v : CycleView ι) {o : Op ι} (ho : ∀ so, o = .store so → ¬so.Telling)
    (a : Ans o) : (v.learn o a).sequence = v.sequence ∧ (v.learn o a).ready = v.ready := by
  have htame := learn_tame (v := v) ho a
  exact ⟨htame.sequence, htame.ready⟩

variable {tr : List (Label (system ι))} {w w' : World ι} {t : Nat} {o : Op ι} {ch : Choice ι}
  {a : Ans o}

/-- The stored sequence changes by commits and saves only. -/
theorem sequence_quiet (hno : ∀ so, o = .store so → so.patch = none ∧ so ≠ .deleteKey)
    (hw : perform o ch w = some (a, w')) : w'.store.sequence = w.store.sequence := by
  cases o with
  | store so =>
    obtain ⟨hpatch, hdel⟩ := hno so rfl
    have hp := perform_store hw
    cases so with
    | saveState l p => cases hpatch
    | saveStateUnfenced p => cases hpatch
    | commitPoll l b => cases hpatch
    | deleteKey => exact absurd rfl hdel
    | acquireLease owner ttlMs now =>
      rcases performStore_acquire hp with ⟨hrec, -⟩ | ⟨l, -, hrec, -⟩ <;> rw [hrec]
      rfl
    | clearItems =>
      rcases performStore_effect hp with ⟨-, x, hrun, -⟩ | ⟨-, e, -, hrec | hrun⟩
      · rw [← (Prod.mk.inj hrun).2]
        rfl
      · rw [hrec]
      · cases (Prod.mk.inj hrun).1
    | _ => exact (performStore_same (by trivial) hp).sequence
  | _ => rw [perform_other (fun so => by simp) hw]

/-- A save without the fence carries no sequence. -/
theorem sequence_unfenced {p : StatePatch} {a : Ans (.store (.saveStateUnfenced p))}
    {v : CycleView ι}
    (hallow : (cycleContract d (administers d S)).allow v (.store (.saveStateUnfenced p)))
    (hw : perform (.store (.saveStateUnfenced p)) ch w = some (a, w')) :
    w'.store.sequence = w.store.sequence := by
  rcases hallow with hallow | ⟨hseq, -⟩
  · exact hallow.elim
  · rcases performStore_saveUnfenced (perform_store hw) with hrec | hrec
    · rw [hrec, sequence_applyPatch, hseq]
      rfl
    · rw [hrec]

/-- The holder's sequence leads in every step. -/
theorem Leading.act (hS : ∀ call, S call → call.KeepsKey)
    (h : Knows Leading (viewAt tr) w.store) (hterms : Terms (viewAt tr) w.store)
    (hallow : (cycleContract d (administers d S)).allow (viewAt tr t) o)
    (hw : perform o ch w = some (a, w')) :
    Knows Leading (viewAt (tr ++ [.act t o ch a])) w'.store := by
  have hdel : o ≠ .store .deleteKey := by
    rintro rfl
    exact allow_keepsKey hS hallow
  have hgrant : ∀ (rec : KeyRecord ι) l, Leading rec { lease := some l } := by
    intro rec l hready
    cases hready
  apply h.act hterms hdel hw hgrant
  · -- a step of the holder itself
    intro hacq l hl hhold hlead hready
    have hquiet : w'.store.sequence = w.store.sequence → (∀ so, o = .store so → ¬so.Telling) →
        w'.store.sequence ≤ ((viewAt tr t).learn o a).sequence := by
      intro hrec ho
      obtain ⟨hseq, hkept⟩ := learn_sequence (viewAt tr t) ho a
      rw [hrec, hseq]
      exact hlead (hkept ▸ hready)
    cases o with
    | store so =>
      have hp := perform_store hw
      cases so with
      | acquireLease owner ttlMs now => exact absurd rfl (hacq owner ttlMs now)
      | deleteKey => exact absurd rfl hdel
      | loadState =>
        obtain ⟨hrec, hread⟩ := performStore_read (fun _ => rfl) hp
        rw [hrec]
        cases a with
        | error e => exact hlead hready
        | ok st =>
          rw [hread st rfl]
          exact Nat.le_refl _
      | commitPoll l' b =>
        obtain ⟨-, hready', base, hbase, -, hseq⟩ := allow_numbered hallow
        -- the view counts on with the batch even when the answer is lost
        have hview : ((viewAt tr t).learn (.store (.commitPoll l' b)) a).sequence =
            base + b.events.length := by
          cases a <;> exact congrArg (Option.getD · _) hseq
        rw [hview]
        rcases performStore_commit hp with ⟨-, -, hrec⟩ | ⟨-, -, hrec⟩
        · rw [hrec, sequence_commit hseq]
        -- a refused commit: the view is ahead by the rows that were not stored
        · have hle := hlead hready'
          rw [hrec]
          omega
      | saveState l' p =>
        rcases hallow with hallow | hallow
        rotate_left
        · exact hallow.elim
        have hview : ((viewAt tr t).learn (.store (.saveState l' p)) a).sequence =
            p.sequence.getD (viewAt tr t).sequence := by
          cases a <;> rfl
        rw [hview]
        rcases performStore_save hp with ⟨-, -, hrec⟩ | ⟨-, -, hrec⟩
        · rw [hrec]
          exact saved_sequence (hlead hallow.ready)
        · rw [hrec]
          exact unsaved_sequence (hlead hallow.ready) hallow.sequence
      | saveStateUnfenced p =>
        refine hquiet (sequence_unfenced hallow hw) ?_
        intro so hso
        cases hso
        exact id
      -- a read leaves both sequences alone
      | loadVersions ids =>
        rw [sequence_quiet (by rintro so hso; cases hso; exact ⟨rfl, by simp⟩) hw]
        cases a <;> exact hlead hready
      | streamIdentities =>
        rw [sequence_quiet (by rintro so hso; cases hso; exact ⟨rfl, by simp⟩) hw]
        cases a <;> exact hlead hready
      | _ =>
        refine hquiet (sequence_quiet (by rintro so hso; cases hso; exact ⟨rfl, by simp⟩) hw) ?_
        intro so hso
        cases hso
        exact id
    | _ => exact hquiet (sequence_quiet (fun so => by simp) hw) (fun so => by simp)
  · -- a step of another thread: a write under the lease, or one that keeps the sequence
    intro hacq
    have hkeep : w'.store.sequence = w.store.sequence →
        ∀ v, Leading w.store v → Leading w'.store v := by
      intro hrec v hlead hready
      rw [hrec]
      exact hlead hready
    cases o with
    | store so =>
      have hp := perform_store hw
      cases so with
      | acquireLease owner ttlMs now => exact absurd rfl (hacq owner ttlMs now)
      | deleteKey => exact absurd rfl hdel
      | commitPoll l b =>
        obtain ⟨hlease, -, -⟩ := allow_numbered hallow
        rcases performStore_commit hp with ⟨-, hhold, -⟩ | ⟨-, -, hrec⟩
        · exact Or.inl ⟨l, hlease, hhold⟩
        · exact Or.inr (hkeep (by rw [hrec]))
      | saveState l p =>
        rcases hallow with hallow | hallow
        rotate_left
        · exact hallow.elim
        rcases performStore_save hp with ⟨-, hhold, -⟩ | ⟨-, -, hrec⟩
        · exact Or.inl ⟨l, hallow.lease, hhold⟩
        · exact Or.inr (hkeep (by rw [hrec]))
      | saveStateUnfenced p => exact Or.inr (hkeep (sequence_unfenced hallow hw))
      | _ =>
        exact Or.inr (hkeep
          (sequence_quiet (by rintro so hso; cases hso; exact ⟨rfl, by simp⟩) hw))
    | _ => exact Or.inr (hkeep (sequence_quiet (fun so => by simp) hw))

/-! ## The committed rows -/

/-- The rows committed so far are numbered upwards, up to the stored sequence. -/
structure Sequenced (tr : List (Label (system ι))) (rec : KeyRecord ι) : Prop where
  increasing : (committedRows tr).Pairwise fun a b => a.sequence < b.sequence
  bounded : ∀ r ∈ committedRows tr, r.sequence ≤ rec.sequence

/-- A step that commits nothing. -/
theorem Sequenced.quiet {rec rec' : KeyRecord ι} (h : Sequenced tr rec) {l : Label (system ι)}
    (hrows : stepRows l = []) (hseq : rec.sequence ≤ rec'.sequence) :
    Sequenced (tr ++ [l]) rec' := by
  have hsame : committedRows (tr ++ [l]) = committedRows tr := by
    rw [committedRows_append, hrows, List.append_nil]
  constructor
  · rw [hsame]
    exact h.increasing
  · intro r hr
    rw [hsame] at hr
    exact (h.bounded r hr).trans hseq

/-- A commit of rows numbered past the stored sequence. -/
theorem Sequenced.commit {rec : KeyRecord ι} (h : Sequenced tr rec) {l : Label (system ι)}
    {b : CommitBatch ι} (hrows : stepRows l = b.events) {base : Nat}
    (hevents : Numbered base b.events) (hbase : rec.sequence ≤ base)
    (hseq : b.statePatch.sequence = some (base + b.events.length)) :
    Sequenced (tr ++ [l]) (rec.commit b) := by
  obtain ⟨hbound, hpair⟩ := hevents
  constructor
  · rw [committedRows_append, hrows]
    apply List.pairwise_append.2
    refine ⟨h.increasing, hpair, ?_⟩
    intro r hr r' hr'
    have hold := h.bounded r hr
    have hnew := (hbound r' hr').1
    omega
  · intro r hr
    rw [committedRows_append, hrows] at hr
    rw [sequence_commit hseq]
    rcases List.mem_append.1 hr with hr | hr
    · have hold := h.bounded r hr
      omega
    · exact (hbound r hr).2

theorem Sequenced.act (h : Sequenced tr w.store)
    (hlead : Knows Leading (viewAt tr) w.store)
    (hdel : o ≠ .store .deleteKey)
    (hallow : (cycleContract d (administers d S)).allow (viewAt tr t) o)
    (hw : perform o ch w = some (a, w')) : Sequenced (tr ++ [.act t o ch a]) w'.store := by
  cases o with
  | store so =>
    have hp := perform_store hw
    cases so with
    | deleteKey => exact absurd rfl hdel
    | commitPoll l b =>
      obtain ⟨hlease, hready, base, hbase, hnum, hseq⟩ := allow_numbered hallow
      rcases performStore_commit hp with ⟨heffect, hhold, hrec⟩ | ⟨heffect, -, hrec⟩
      · have hrows : stepRows (.act t (.store (.commitPoll l b)) ch a) = b.events := if_pos heffect
        have hle := hlead t l hlease hhold hready
        rw [hrec]
        exact h.commit hrows hnum (hle.trans hbase) hseq
      · have hrows : stepRows (.act t (.store (.commitPoll l b)) ch a) = [] :=
          if_neg (by rw [heffect]; simp)
        exact h.quiet hrows (by rw [hrec])
    | saveState l p =>
      rcases hallow with hallow | hallow
      rotate_left
      · exact hallow.elim
      rcases performStore_save hp with ⟨-, hhold, hrec⟩ | ⟨-, -, hrec⟩
      · have hle := hlead t l hallow.lease hhold hallow.ready
        refine h.quiet rfl ?_
        rw [hrec, sequence_applyPatch]
        exact unsaved_sequence (Nat.le_refl _) fun k hk => hle.trans (hallow.sequence k hk)
      · exact h.quiet rfl (by rw [hrec])
    | saveStateUnfenced p => exact h.quiet rfl (sequence_unfenced hallow hw).ge
    | _ =>
      exact h.quiet rfl
        (sequence_quiet (by rintro so hso; cases hso; exact ⟨rfl, by simp⟩) hw).ge
  | _ => exact h.quiet rfl (sequence_quiet (fun so => by simp) hw).ge

/-- In every run in which the key stays, leases are numbered apart and the holder's sequence leads. -/
theorem leading (hS : ∀ call, S call → call.KeepsKey) {c : Config (system ι)}
    (h : Run (system ι) (d.entry S) (World.fresh d.key) tr c) :
    Terms (viewAt tr) (World.store (ι := ι) c.world) ∧
      Knows Leading (viewAt tr) (World.store (ι := ι) c.world) := by
  refine views_invariant (J := fun views rec => Terms views rec ∧ Knows Leading views rec)
    ⟨Terms.init d.key, Knows.init Leading _⟩ ?_ h
  intro tr c w w' t o ch a _ hJ hallow hw
  have hdel : o ≠ .store .deleteKey := by
    rintro rfl
    exact allow_keepsKey hS hallow
  exact ⟨hJ.1.act hdel hw, Leading.act hS hJ.2 hJ.1 hallow hw⟩

/-- In every run in which the key stays, the committed rows are numbered upwards. -/
theorem sequenced (hS : ∀ call, S call → call.KeepsKey) {c : Config (system ι)}
    (h : Run (system ι) (d.entry S) (World.fresh d.key) tr c) :
    Sequenced tr (World.store (ι := ι) c.world) := by
  refine Run.invariant (obeys d S) (J := fun tr (w : World ι) => Sequenced tr w.store) ?_ ?_ ?_ ?_ h
  · constructor
    · exact List.Pairwise.nil
    · intro r hr
      cases hr
  · intro tr c p _ hJ
    exact hJ.quiet rfl (Nat.le_refl _)
  · intro tr c t o ch a w' hr hJ hallow hw
    have hdel : o ≠ .store .deleteKey := by
      rintro rfl
      exact allow_keepsKey hS hallow
    exact hJ.act (leading hS hr).2 hdel hallow hw
  · intro tr c x _ hJ
    exact hJ.quiet rfl (Nat.le_refl _)

/-- In every run in which the key stays, whatever the lanes, the failures and the takeovers: the rows
of the commits that took effect have pairwise distinct sequences, those of a later commit are larger
than those of an earlier one, and the stored sequence is never below a committed one. -/
theorem sequences_increase {c : Config (system ι)}
    (h : Run (system ι) (d.entry EngineCall.KeepsKey) (World.fresh d.key) tr c) :
    ((committedRows tr).map (·.sequence)).Nodup ∧
      (∀ pre l mid l' post, tr = pre ++ l :: mid ++ l' :: post →
        ∀ r ∈ stepRows l, ∀ r' ∈ stepRows l', r.sequence < r'.sequence) ∧
      ∀ r ∈ committedRows tr, r.sequence ≤ (World.store (ι := ι) c.world).sequence := by
  have hseq := sequenced (fun _ hcall => hcall) h
  refine ⟨?_, ?_, hseq.bounded⟩
  · have hpair := hseq.increasing
    apply List.pairwise_map.2
    exact hpair.imp fun hlt => Nat.ne_of_lt hlt
  · rintro pre l mid l' post rfl r hr r' hr'
    have hpair := hseq.increasing
    have hsplit : committedRows (pre ++ l :: mid ++ l' :: post) =
        committedRows pre ++ (stepRows l ++ (committedRows mid ++ (stepRows l' ++ committedRows post))) := by
      simp [committedRows]
    rw [hsplit] at hpair
    have hlater := (List.pairwise_append.1 (List.pairwise_append.1 hpair).2.1).2.2
    apply hlater r hr r'
    simp [hr']

end Runs

/-! ## A sample run -/

/-- The sample poller with a log to replay. -/
def loggedPoller : ResolvedPoller Sample := { samplePoller with log := true }

/-- A cycle commits two items, a replay commits their events once more, a cycle commits a change. -/
def sampleReplay : List (Scene Sample) :=
  [ .ask (instanceOf (sampleOf loggedPoller) false) forced,
    .run 0 200 (calm 5 (onePage [("a", "1"), ("b", "1")])),
    .ask (instanceOf (sampleOf loggedPoller) false) (.replay 0 none),
    .run 2 200 (calm 20 .finish),
    .ask (instanceOf (sampleOf loggedPoller) false) forced,
    .run 3 200 (calm 30 (onePage [("a", "2"), ("b", "1")])) ]

set_option maxRecDepth 100000 in
theorem sequences_increase_sample : ∃ tr c,
    Run (system Sample) ((sampleOf loggedPoller).entry EngineCall.KeepsKey)
      (World.fresh (sampleOf loggedPoller).key) tr c ∧
    (committedRows tr).map (·.sequence) = [1, 2, 3, 4, 5] ∧
    ∀ r ∈ committedRows tr, r.sequence ≤ (World.store (ι := Sample) c.world).sequence := by
  have hcast : Cast (sampleOf loggedPoller) EngineCall.KeepsKey sampleReplay :=
    .ask (instanceOf_in _ _) trivial (.run (.ask (instanceOf_in _ _) trivial (.run
      (.ask (instanceOf_in _ _) trivial (.run .nil)))))
  obtain ⟨tr, c, hrun, hcheck⟩ := play_run hcast
    (fun tr _ => decide ((committedRows tr).map (·.sequence) = [1, 2, 3, 4, 5])) (by decide +kernel)
  exact ⟨tr, c, hrun, of_decide_eq_true hcheck, (sequences_increase hrun).2.2⟩

end Watukuy
