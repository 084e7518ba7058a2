import Watukuy.Run.Lanes
import Watukuy.Run.Scenarios

/-!
# Full scans

A cycle of a full scan deletes what it has not seen, so it must have seen the listing to its end.
Two steps make the code take a listing for ended that goes on (`CutsListing`): an abort read after
the second or a later page of one fetch call, and a page that lacks `hasMore` while its fetch call
goes on. In runs without these, deletes come from consumed listings only.
-/

set_option autoImplicit false

namespace Watukuy

open Library

variable {ι : Type}

/-- The listing was consumed to its end: the cycle fetched, its last fetch call has nothing left to do,
that call ended the listing or gave it as a whole, every page is committed, and no answer was a 304. -/
structure Consumed (v : CycleView ι) : Prop where
  fetched : v.fetches ≠ []
  finished : v.code = .finish
  ended : LastPage v ∨ v.inCall ≠ 1
  committed : v.committed = v.pages.length
  fresh : v.notModified = false

/-- The step makes a full scan take a listing for ended that goes on. -/
def CutsListing (d : Deployment ι) (v : CycleView ι) : (o : Op ι) → Ans o → Prop
  | .signal _, reason =>
    reason.isSome ∧ v.guarded = true ∧ d.fullScan v.lane = true ∧ 2 ≤ v.inCall ∧ v.code ≠ .finish ∧
      v.notModified = false
  | .next page rest, _ => d.fullScan v.lane = true ∧ page.hasMore ≠ some true ∧ rest ≠ .finish
  | _, _ => False

/-- No step takes a listing for ended that goes on. -/
def KeepsListing (d : Deployment ι) (pre : List (Label (system ι))) : Label (system ι) → Prop
  | .act t o _ a => ¬CutsListing d (viewAt pre t) o a
  | _ => True

/-- The batch deletes rows, or emits a deletion outside a replay. -/
def CommitBatch.Deletes (b : CommitBatch ι) : Prop :=
  b.deletes ≠ [] ∨ ∃ r ∈ b.events, r.event.type = .deleted ∧ r.event.lane ≠ .replay

/-- A commit that deletes belongs to a cycle whose listing was consumed. -/
def DeletesConsumed (pre : List (Label (system ι))) : Label (system ι) → Prop
  | .act t (.store (.commitPoll _ b)) _ _ => b.Deletes → Consumed (viewAt pre t)
  | _ => True

instance (v : CycleView ι) : Decidable (LastPage v) :=
  decidable_of_iff (1 ≤ v.inCall ∧ (v.pages.getLast?.any fun p => p.hasMore ≠ some true) = true) <| by
    simp [LastPage, Option.any_eq_true]

instance (v : CycleView ι) : Decidable (Consumed v) :=
  decidable_of_iff (v.fetches.isEmpty = false ∧ v.code = .finish ∧ (LastPage v ∨ v.inCall ≠ 1) ∧
      v.committed = v.pages.length ∧ v.notModified = false)
    ⟨fun h => ⟨List.isEmpty_eq_false_iff.1 h.1, h.2.1, h.2.2.1, h.2.2.2.1, h.2.2.2.2⟩,
      fun h => ⟨List.isEmpty_eq_false_iff.2 h.1, h.2, h.3, h.4, h.5⟩⟩

instance (b : CommitBatch ι) : Decidable b.Deletes := by
  unfold CommitBatch.Deletes
  infer_instance

instance (d : Deployment ι) (v : CycleView ι) (o : Op ι) (a : Ans o) : Decidable (CutsListing d v o a) := by
  unfold CutsListing
  split <;> infer_instance

instance (d : Deployment ι) (pre : List (Label (system ι))) (l : Label (system ι)) :
    Decidable (KeepsListing d pre l) := by
  unfold KeepsListing
  rcases l with _ | ⟨t, o, ch, a⟩ | _ <;> infer_instance

instance (pre : List (Label (system ι))) (l : Label (system ι)) : Decidable (DeletesConsumed pre l) := by
  unfold DeletesConsumed
  rcases l with _ | ⟨t, ⟨o⟩ | _, ch, a⟩ | _
  case act.store => rcases o <;> infer_instance
  all_goals infer_instance

/-! ## Page commits delete nothing -/

theorem NumberedRows.events {deps : RunnerDeps ι} {lane : Lane} {cursor : CursorVal}
    {specs : List (EventSpec ι)} {n : Nat} {rows : List (OutboxRow ι)}
    (h : NumberedRows deps lane cursor n specs rows) :
    ∀ r ∈ rows, ∃ spec ∈ specs, r.event.type = spec.type ∧ r.event.subject = spec.identity := by
  induction specs generalizing n rows with
  | nil =>
    intro r hr
    rw [show rows = [] from h] at hr
    cases hr
  | cons spec rest ih =>
    obtain ⟨at_, tail, rfl, htail⟩ := h
    intro r hr
    rcases List.mem_cons.1 hr with rfl | hr
    · exact ⟨spec, List.mem_cons_self, rfl, rfl⟩
    · obtain ⟨spec', hmem, heq⟩ := ih htail r hr
      exact ⟨spec', List.mem_cons_of_mem _ hmem, heq⟩

theorem diffCandidates_types {poller : ResolvedPoller ι} {existing : OrderedMap String (ItemRow ι)}
    {at_ : Int} {touch : Bool} (candidates : List (DiffCandidate ι)) :
    ∀ c ∈ (diffCandidates poller existing at_ touch candidates).changes, c.type ≠ .deleted := by
  induction candidates with
  | nil =>
    intro c hc
    cases hc
  | cons candidate rest ih =>
    intro c hc
    rcases List.mem_append.1 hc with hc | hc
    · unfold diffCandidate at hc
      split at hc
      · rw [List.mem_singleton.1 hc]
        simp
      · dsimp only at hc
        split at hc
        · cases hc
        split at hc
        · rw [List.mem_singleton.1 hc]
          simp
        split at hc <;> cases hc
    · exact ih c hc

theorem forcedSpecs_types {poller : ResolvedPoller ι} {valid : List ι}
    {existing : OrderedMap String (ItemRow ι)} {changes : List (Change ι)} :
    ∀ spec ∈ forcedSpecs poller valid existing changes, spec.type = .updated := by
  intro spec hspec
  obtain ⟨identity, -, h⟩ := List.mem_filterMap.1 hspec
  split at h
  · split at h
    · cases h
    split at h
    · rw [← Option.some.inj h]
      rfl
    · cases h
  · cases h

/-- The events of a page are no deletions. -/
theorem pageSpecs_types {c : Cycle ι} {valid : List ι} {existing : OrderedMap String (ItemRow ι)}
    {at_ : Int} {touch : Bool} (candidates : List (DiffCandidate ι)) :
    ∀ spec ∈ pageSpecs c valid existing
      (diffCandidates c.deps.poller existing at_ touch candidates).changes, spec.type ≠ .deleted := by
  intro spec hspec
  rcases List.mem_append.1 hspec with hspec | hspec
  · obtain ⟨change, hchange, rfl⟩ := List.mem_map.1 hspec
    exact diffCandidates_types candidates change hchange
  · split at hspec
    · rw [forcedSpecs_types spec hspec]
      simp
    · cases hspec

variable {d : Deployment ι} {S : EngineCall → Prop}

theorem PageStep.not_deletes {v : CycleView ι} {b : CommitBatch ι} (p : PageStep d v b) : ¬b.Deletes := by
  rintro (hdeletes | ⟨r, hr, htype, -⟩)
  · exact hdeletes p.deletes_eq
  · obtain ⟨spec, hspec, heq, -⟩ := p.events_eq.events r hr
    rw [← p.inCycle.deps.poller] at hspec
    rw [heq] at htype
    exact pageSpecs_types _ spec hspec htype

/-! ## What an execution knows of its listing -/

/-- A full scan takes the listing for ended only when its fetch call has. -/
structure Whole (d : Deployment ι) (v : CycleView ι) : Prop where
  last : d.fullScan v.lane = true → LastPage v → v.code = .finish
  cut : d.fullScan v.lane = true → v.aborted = true →
    v.code = .finish ∨ v.inCall < 2 ∨ v.notModified = true

theorem Whole.fresh {v : CycleView ι} (hcall : v.inCall = 0) (haborted : v.aborted = false) :
    Whole d v := by
  constructor
  · intro _ hlast
    have hpos := hlast.1
    omega
  · intro _ hab
    rw [haborted] at hab
    cases hab

/-- The view knows the same of its listing. -/
theorem Whole.same {v w : CycleView ι} (h : Whole d v) (hlane : w.lane = v.lane)
    (hpages : w.pages = v.pages) (hcall : w.inCall = v.inCall) (hcode : w.code = v.code)
    (haborted : w.aborted = v.aborted) (hfresh : w.notModified = v.notModified) : Whole d w := by
  constructor
  · intro hfull hlast
    rw [hcode]
    apply h.last (hlane ▸ hfull)
    rw [LastPage, ← hcall, ← hpages]
    exact hlast
  · intro hfull hab
    rw [hcode, hcall, hfresh]
    exact h.cut (hlane ▸ hfull) (haborted ▸ hab)

theorem Whole.learn {v : CycleView ι} (h : Whole d v) {o : Op ι} {a : Ans o}
    {extra : CycleView ι → StoreOp ι → Prop} (hallow : (cycleContract d extra).allow v o)
    (hkeeps : ¬CutsListing d v o a) : Whole d (v.learn o a) := by
  cases o with
  | store so =>
    cases so with
    | acquireLease owner ttlMs now =>
      cases a with
      | error e => exact h
      | ok got =>
        cases got with
        | none => exact h
        | some l => exact Whole.fresh rfl rfl
    | loadState | loadVersions _ | streamIdentities | commitPoll _ _ | saveState _ _
    | getValidator _ => cases a <;> exact h.same rfl rfl rfl rfl rfl rfl
    | _ => exact h
  | pollStart lane => exact Whole.fresh rfl rfl
  | fetch lane ctx => exact Whole.fresh rfl rfl
  | http req =>
    cases a with
    | error e => exact h
    | ok raw =>
      constructor
      · intro hfull hlast
        exact h.last hfull hlast
      · intro hfull hab
        rcases h.cut hfull hab with hcut | hcut | hcut
        · exact Or.inl hcut
        · exact Or.inr (Or.inl hcut)
        · exact Or.inr (Or.inr (by simp [CycleView.learn, hcut]))
  | resume res =>
    obtain ⟨⟨r, k, hcode⟩, -⟩ := hallow
    constructor
    · intro hfull hlast
      -- the code is not at its end yet: it goes on with the response
      have hfinish : v.code = .finish := h.last hfull hlast
      rw [hcode] at hfinish
      cases hfinish
    · intro _ hab
      cases hab
  | next page rest =>
    constructor
    · intro hfull hlast
      -- more pages behind one that says `hasMore: false` would cut the listing
      obtain ⟨-, p, hp, hmore⟩ := hlast
      by_contra hrest
      refine hkeeps ⟨hfull, ?_, hrest⟩
      have heq : page = p := by simpa [CycleView.learn] using hp
      rw [heq]
      exact hmore
    · intro _ hab
      cases hab
  | signal run =>
    constructor
    · intro hfull hlast
      exact h.last hfull hlast
    · intro hfull hab
      rcases Bool.or_eq_true_iff.1 hab with hab | hab
      · exact h.cut hfull hab
      · -- the abort is read after a page: only then the listing may be cut
        obtain ⟨hguarded, hreason⟩ := Bool.and_eq_true_iff.1 hab
        by_contra hcut
        simp only [not_or, Nat.not_lt, Bool.not_eq_true] at hcut
        exact hkeeps ⟨hreason, hguarded, hfull, hcut.2.1, hcut.1, hcut.2.2⟩
  | _ => exact h.same rfl rfl rfl rfl rfl rfl

/-- In a run that cuts no listing, every execution knows its listing. -/
theorem whole {tr : List (Label (system ι))} {c : Config (system ι)}
    (h : Run (system ι) (d.entry S) (World.fresh d.key) tr c) (hkeeps : Throughout (KeepsListing d) tr)
    (t : Nat) : Whole d (viewAt tr t) := by
  refine views_assume (J := fun views _ => ∀ t, Whole d (views t)) ?_ ?_ h hkeeps t
  · intro t
    exact Whole.fresh rfl rfl
  · intro tr c w w' t o ch a _ hJ hallow _ hl t'
    rw [viewAt_act]
    split
    · exact (hJ t).learn hallow hl
    · exact hJ t'

/-- Before the first fetch of a cycle there are no pages. -/
structure Idle (v : CycleView ι) : Prop where
  code : v.fetches = [] → v.code = .finish
  pages : v.fetches = [] → v.pages = []
  inCall : v.fetches = [] → v.inCall = 0

theorem Idle.fresh {v : CycleView ι} (hcode : v.code = .finish) (hpages : v.pages = [])
    (hcall : v.inCall = 0) : Idle v :=
  ⟨fun _ => hcode, fun _ => hpages, fun _ => hcall⟩

theorem Idle.same {v w : CycleView ι} (h : Idle v) (hfetches : w.fetches = v.fetches)
    (hcode : w.code = v.code) (hpages : w.pages = v.pages) (hcall : w.inCall = v.inCall) :
    Idle w := by
  constructor
  · rw [hfetches, hcode]
    exact h.code
  · rw [hfetches, hpages]
    exact h.pages
  · rw [hfetches, hcall]
    exact h.inCall

theorem Idle.learn {v : CycleView ι} (h : Idle v) {o : Op ι} {a : Ans o}
    {extra : CycleView ι → StoreOp ι → Prop} (hallow : (cycleContract d extra).allow v o) :
    Idle (v.learn o a) := by
  cases o with
  | store so =>
    cases so with
    | acquireLease owner ttlMs now =>
      cases a with
      | error e => exact h
      | ok got =>
        cases got with
        | none => exact h
        | some l => exact Idle.fresh rfl rfl rfl
    | loadState | loadVersions _ | streamIdentities | commitPoll _ _ | saveState _ _
    | getValidator _ => cases a <;> exact h.same rfl rfl rfl rfl
    | _ => exact h
  | pollStart lane => exact Idle.fresh rfl rfl rfl
  | fetch lane ctx =>
    have hne : (v.learn (.fetch lane ctx) a).fetches ≠ [] := by simp [CycleView.learn]
    exact ⟨fun hnil => absurd hnil hne, fun hnil => absurd hnil hne, fun hnil => absurd hnil hne⟩
  | next page rest =>
    -- code that yields a page was fetched
    have hne : v.fetches ≠ [] := by
      intro hnil
      have hcode := hallow.1
      rw [h.code hnil] at hcode
      cases hcode
    exact ⟨fun hnil => absurd hnil hne, fun hnil => absurd hnil hne, fun hnil => absurd hnil hne⟩
  | resume res =>
    have hne : v.fetches ≠ [] := by
      intro hnil
      obtain ⟨⟨r, k, hcode⟩, -⟩ := hallow
      rw [h.code hnil] at hcode
      cases hcode
    exact ⟨fun hnil => absurd hnil hne, fun hnil => absurd hnil hne, fun hnil => absurd hnil hne⟩
  | http req => cases a <;> exact h.same rfl rfl rfl rfl
  | _ => exact h.same rfl rfl rfl rfl

theorem idle {tr : List (Label (system ι))} {c : Config (system ι)}
    (h : Run (system ι) (d.entry S) (World.fresh d.key) tr c) (t : Nat) : Idle (viewAt tr t) := by
  refine views_invariant (J := fun views _ => ∀ t, Idle (views t)) ?_ ?_ h t
  · intro t
    exact Idle.fresh rfl rfl rfl
  · intro tr c w w' t o ch a _ hJ hallow _ t'
    rw [viewAt_act]
    split
    · exact (hJ t).learn hallow
    · exact hJ t'

/-- What the delete phase starts from was consumed. -/
theorem MayStream.consumed {v : CycleView ι} (hmay : MayStream d v) (hwhole : Whole d v)
    (hidle : Idle v) (htarget : d.poller.cursor.isSnapshotDiff = true → v.start.target = none) :
    Consumed v := by
  rcases hmay.ended with hlast | ⟨hne, hcall, hfinish⟩ | ⟨hcall, hab⟩ | ⟨hlane, hsome⟩
  · have hne : v.fetches ≠ [] := by
      intro hnil
      have hpos := hlast.1
      rw [hidle.inCall hnil] at hpos
      omega
    exact ⟨hne, hwhole.last hmay.fullScan hlast, Or.inl hlast, hmay.committed, hmay.fresh⟩
  · exact ⟨hne, hfinish, Or.inr hcall, hmay.committed, hmay.fresh⟩
  · have hne : v.fetches ≠ [] := by
      intro hnil
      rw [hidle.inCall hnil] at hcall
      omega
    rcases hwhole.cut hmay.fullScan hab with hfinish | hlt | hnot
    · exact ⟨hne, hfinish, Or.inr (by omega), hmay.committed, hmay.fresh⟩
    · omega
    · rw [hmay.fresh] at hnot
      cases hnot
  · have hfull := hmay.fullScan
    simp only [Deployment.fullScan, hlane, reduceCtorEq, decide_false, Bool.false_or] at hfull
    rw [htarget hfull] at hsome
    cases hsome

/-- In a run that cuts no listing, deletes come from consumed listings only. -/
theorem deletes_only_consumed {tr : List (Label (system ι))} {c : Config (system ι)}
    (h : Run (system ι) (d.entry S) (World.fresh d.key) tr c)
    (hkeeps : Throughout (KeepsListing d) tr) : Throughout DeletesConsumed tr := by
  intro pre l post htr
  subst htr
  cases l with
  | act t o ch a =>
    obtain ⟨c₁, k, w', hpre, ht, -⟩ := h.act_at
    have hallow := hpre.allow (obeys d S) ht
    rw [observe_eq_viewAt] at hallow
    cases o with
    | store so =>
      cases so with
      | commitPoll l b =>
        intro hdeletes
        rcases hallow with ⟨-, -, ⟨⟨p⟩⟩ | ⟨⟨p⟩⟩⟩ | ⟨-, hreplay⟩
        · exact absurd hdeletes p.not_deletes
        · exact p.phase.consumed (whole hpre hkeeps.take t) (idle hpre t) fun hdiff =>
            (untargeted hdiff hpre).start t
        · rcases hdeletes with hne | ⟨r, hr, -, hlane⟩
          · exact absurd hreplay.deletes hne
          · exact absurd (hreplay.lane r hr) hlane
      | _ => trivial
    | _ => trivial
  | start p => trivial
  | drift x => trivial

/-! ## Sample runs -/

/-- Three pages are listed in one fetch call; in the second cycle an abort strikes after `n` steps. -/
def abortedScan (n : Nat) : List (Scene Sample) :=
  let pages := iterable [[("a", "1")], [("b", "1")], [("c", "1")]]
  [ .ask (instanceOf (sampleOf samplePoller) false) forced,
    .run 0 200 (calm 5 pages),
    .ask (instanceOf (sampleOf samplePoller) false) forced,
    .run 2 n (calm 20 pages),
    .abort { run := 1, reason := leaseLostReason },
    .run 2 200 (calm 20 pages) ]

theorem abortedScan_cast (n : Nat) : Cast (sampleOf samplePoller) (fun _ => True) (abortedScan n) :=
  .ask (instanceOf_in _ _) trivial (.run (.ask (instanceOf_in _ _) trivial (.run (.abort (.run .nil)))))

set_option maxRecDepth 100000 in
/-- An abort after the second page of three: the cycle deletes the third. -/
theorem aborted_scan_deletes : ∃ tr c,
    Run (system Sample) ((sampleOf samplePoller).entry fun _ => True)
      (World.fresh (sampleOf samplePoller).key) tr c ∧
    ¬Throughout DeletesConsumed tr ∧
    (World.store (ι := Sample) c.world).items.keys = ["a", "b"] := by
  obtain ⟨tr, c, hrun, hcheck⟩ := play_run (abortedScan_cast 27)
    (fun tr c => decide (¬Throughout DeletesConsumed tr ∧
      (World.store (ι := Sample) c.world).items.keys = ["a", "b"])) (by decide +kernel)
  exact ⟨tr, c, hrun, of_decide_eq_true hcheck⟩

/-- The second cycle lists two of the three pages; an abort strikes after its last page. -/
def shrunkScan : List (Scene Sample) :=
  [ .ask (instanceOf (sampleOf samplePoller) false) forced,
    .run 0 200 (calm 5 (iterable [[("a", "1")], [("b", "1")], [("c", "1")]])),
    .ask (instanceOf (sampleOf samplePoller) false) forced,
    .run 2 32 (calm 20 (iterable [[("a", "1")], [("b", "1")]])),
    .abort { run := 1, reason := leaseLostReason },
    .run 2 200 (calm 20 (iterable [[("a", "1")], [("b", "1")]])) ]

theorem shrunkScan_cast : Cast (sampleOf samplePoller) (fun _ => True) shrunkScan :=
  .ask (instanceOf_in _ _) trivial (.run (.ask (instanceOf_in _ _) trivial (.run (.abort (.run .nil)))))

set_option maxRecDepth 100000 in
theorem deletes_only_consumed_sample : ∃ tr c,
    Run (system Sample) ((sampleOf samplePoller).entry fun _ => True)
      (World.fresh (sampleOf samplePoller).key) tr c ∧
    Throughout (KeepsListing (sampleOf samplePoller)) tr ∧
    (World.store (ι := Sample) c.world).items.keys = ["a", "b"] ∧ Throughout DeletesConsumed tr := by
  obtain ⟨tr, c, hrun, hcheck⟩ := play_run shrunkScan_cast
    (fun tr c => decide (Throughout (KeepsListing (sampleOf samplePoller)) tr ∧
      (World.store (ι := Sample) c.world).items.keys = ["a", "b"])) (by decide +kernel)
  obtain ⟨hkeeps, hkeys⟩ := of_decide_eq_true hcheck
  exact ⟨tr, c, hrun, hkeeps, hkeys, deletes_only_consumed hrun hkeeps⟩

end Watukuy
