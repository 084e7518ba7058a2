import Watukuy.Run.ChangeStream
import Watukuy.Run.Dedup

/-!
# Runs as histories

Whatever engines, executions and aborts a run interleaves, its commits are a history of pages and
deletes, one after another: the stored rows are those of the history, and the committed events are its
events. What is proved of histories holds of the commits of every run.
-/

set_option autoImplicit false

namespace Watukuy

open Library KeyRecord

variable {ι : Type}

/-- The deployment on items that have passed validation. -/
def Deployment.parsed (d : Deployment ι) : Deployment ι :=
  { d with poller := { d.poller with validate := none } }

/-- What a consumer learns from a row of the outbox. -/
def OutboxRow.entry (d : Deployment ι) (row : OutboxRow ι) : LogEntry String String String where
  id := row.eventId
  key := row.event.subject
  value := (row.delta d).2.after

/-- The commits of a run so far are those of a history. -/
def Recorded (d : Deployment ι) (tr : List (Label (system ι))) (rec : KeyRecord ι) : Prop :=
  ∃ steps : List (PollStep ι), (∀ step ∈ steps, step.poller = d.parsed.poller) ∧
    (pollSteps (pageDiff d.crypto) (KeyRecord.fresh d.key) steps).1.items = rec.items ∧
    (committedRows tr).map (·.entry d) = (eventsOf d.parsed steps).map (·.entry d.parsed)

section
variable {d : Deployment ι} {S : EngineCall → Prop}

theorem validateItems_parsed (items : List ι) : validateItems d.parsed.poller items = .ok (items, []) := by
  induction items with
  | nil => rfl
  | cons item items ih =>
    rw [validateItems]
    simp only [Deployment.parsed, bind, Except.bind] at ih ⊢
    rw [ih]
    rfl

theorem prepareCandidates_parsed (items : List ι) (rows : OrderedMap String (ItemRow ι)) :
    prepareCandidates d.crypto d.parsed.poller items rows =
      prepareCandidates d.crypto d.poller items rows := by
  have hentries : ∀ entries : List (String × ι), candidatesOf d.crypto d.parsed.poller rows entries =
      candidatesOf d.crypto d.poller rows entries := by
    intro entries
    induction entries with
    | nil => rfl
    | cons entry entries ih =>
      rw [candidatesOf, candidatesOf, ih]
      rfl
  have hlatest : latestItems d.parsed.poller items = latestItems d.poller items := rfl
  rw [prepareCandidates, prepareCandidates, hlatest]
  simp only [hentries]

theorem diffCandidates_parsed (rows : OrderedMap String (ItemRow ι)) (now : Int) (touch : Bool)
    (candidates : List (DiffCandidate ι)) :
    diffCandidates d.parsed.poller rows now touch candidates =
      diffCandidates d.poller rows now touch candidates := by
  induction candidates with
  | nil => rfl
  | cons c candidates ih =>
    rw [diffCandidates, diffCandidates, ih]
    rfl

/-- The entries of numbered rows are those of their events. -/
theorem NumberedRows.entries {deps : RunnerDeps ι} (hdeps : deps.In d) {lane : Lane}
    {cursor : CursorVal} {specs : List (EventSpec ι)} {n : Nat} {rows : List (OutboxRow ι)}
    (h : NumberedRows deps lane cursor n specs rows) :
    rows.map (·.entry d) = specs.map (·.entry d.parsed) := by
  induction specs generalizing n rows with
  | nil =>
    obtain rfl : rows = [] := h
    rfl
  | cons spec rest ih =>
    obtain ⟨at_, tail, rfl, htail⟩ := h
    rw [List.map_cons, List.map_cons, ih htail]
    congr 1
    simp only [OutboxRow.entry, EventSpec.entry, EventSpec.id, eventRow, hdeps.crypto, hdeps.poller,
      hdeps.key, Deployment.parsed]
    rfl

theorem Recorded.quiet {tr : List (Label (system ι))} {rec rec' : KeyRecord ι} (h : Recorded d tr rec)
    {l : Label (system ι)} (hrows : stepRows l = []) (hitems : rec'.items = rec.items) :
    Recorded d (tr ++ [l]) rec' := by
  obtain ⟨steps, hpoller, hstored, hevents⟩ := h
  refine ⟨steps, hpoller, hstored.trans hitems.symm, ?_⟩
  rw [committedRows_append, hrows, List.append_nil, hevents]

/-- One more step of the history. -/
theorem Recorded.step {tr : List (Label (system ι))} {rec : KeyRecord ι} (h : Recorded d tr rec)
    {l : Label (system ι)} {b : CommitBatch ι} (hrows : stepRows l = b.events) (step : PollStep ι)
    (hpoller : step.poller = d.parsed.poller) {specs : List (EventSpec ι)}
    (hstep : ∀ rec₀ : KeyRecord ι, rec₀.items = rec.items →
      (pollStep (pageDiff d.crypto) rec₀ step).1.items = (rec.commit b).items ∧
        (pollStep (pageDiff d.crypto) rec₀ step).2 = .ok specs)
    (hspecs : b.events.map (·.entry d) = specs.map (·.entry d.parsed)) :
    Recorded d (tr ++ [l]) (rec.commit b) := by
  obtain ⟨steps, hpollers, hstored, hevents⟩ := h
  obtain ⟨hitems, hcommitted⟩ := hstep _ hstored
  refine ⟨steps ++ [step], ?_, ?_, ?_⟩
  · intro s hs
    rcases List.mem_append.1 hs with hs | hs
    · exact hpollers s hs
    · rw [List.mem_singleton.1 hs]
      exact hpoller
  · rw [pollSteps_snoc]
    exact hitems
  · rw [committedRows_append, hrows, eventsOf_snoc, List.map_append, List.map_append, hevents, hspecs]
    congr 2
    exact (congrArg committedBy hcommitted).symm

theorem loadVersions_congr {rec rec' : KeyRecord ι} (h : rec'.items = rec.items)
    (ids : List IdentityValue) : rec'.loadVersions ids = rec.loadVersions ids := by
  unfold KeyRecord.loadVersions
  rw [h]

/-- The page a commit of the holder was computed from. -/
def PageStep.pollPage {v : CycleView ι} {b : CommitBatch ι} (p : PageStep d v b) : PollPage ι where
  poller := d.parsed.poller
  now := p.at_
  fullScan := p.cycle.isFullScan
  force := p.cycle.force
  items := p.valid

/-- A page commit is a step of a history. -/
theorem PageStep.process {v : CycleView ι} {b : CommitBatch ι} (p : PageStep d v b)
    {rec : KeyRecord ι} (hrows : p.rows = rec.loadVersions (p.valid.map d.poller.identity)) :
    p.pollPage.process (pageDiff d.crypto) rec =
      .ok (pageSpecs p.cycle p.valid p.rows
        (diffCandidates d.poller p.rows p.at_ p.cycle.isFullScan p.candidates).changes, b.upserts) := by
  have hdiff : pageDiff d.crypto d.parsed.poller p.rows p.at_ p.cycle.isFullScan p.valid =
      .ok (diffCandidates d.poller p.rows p.at_ p.cycle.isFullScan p.candidates) := by
    rw [pageDiff, prepareCandidates_parsed, p.prepared]
    exact congrArg Except.ok (diffCandidates_parsed ..)
  have hvalid : p.pollPage.process (pageDiff d.crypto) rec =
      p.pollPage.diff (pageDiff d.crypto) rec p.valid :=
    process_of_valid (validateItems_parsed p.valid) (by simp)
  have hloaded : rec.loadVersions (p.valid.map p.pollPage.poller.identity) = p.rows := hrows.symm
  have hpage : pageDiff d.crypto p.pollPage.poller p.rows p.pollPage.now p.pollPage.fullScan p.valid =
      .ok (diffCandidates d.poller p.rows p.at_ p.cycle.isFullScan p.candidates) := hdiff
  rw [hvalid, PollPage.diff, hloaded, hpage, p.upserts_eq, pageSpecs, p.inCycle.deps.poller]
  rfl

/-- A delete commit is a step of a history. -/
theorem DeleteStep.specs {v : CycleView ι} {b : CommitBatch ι} (p : DeleteStep d v b)
    {rec : KeyRecord ι} (hrows : p.rows = rec.loadVersions (b.deletes.map .string)) :
    (b.deletes.filterMap fun id => (p.rows.get id).map (deleteSpec d.poller id)) =
      rec.deleteSpecs d.parsed.poller b.deletes := by
  rw [hrows]
  rfl

theorem pollStep_page_ok {diff : DiffPage ι} {page : PollPage ι} {rec : KeyRecord ι}
    {specs : List (EventSpec ι)} {upserts : List (ItemRow ι)}
    (h : page.process diff rec = .ok (specs, upserts)) :
    (pollStep diff rec (.page page)).1.items = rec.items.setAll (·.identity) upserts ∧
      (pollStep diff rec (.page page)).2 = .ok specs := by
  simp only [pollStep, h, and_self]

/-- A commit of the holder. -/
theorem Recorded.commitStep {tr : List (Label (system ι))} {rec : KeyRecord ι} (h : Recorded d tr rec)
    {v : CycleView ι} (hcur : Current rec v) {l : Label (system ι)} {b : CommitBatch ι}
    (hrows : stepRows l = b.events)
    (hstep : Nonempty (PageStep d v b) ∨ Nonempty (DeleteStep d v b)) :
    Recorded d (tr ++ [l]) (rec.commit b) := by
  rcases hstep with ⟨⟨p⟩⟩ | ⟨⟨p⟩⟩
  · have hloaded := hcur.loaded _ _ p.loaded_eq
    refine h.step hrows (.page p.pollPage) rfl (fun rec₀ hrec₀ => ?_)
      (p.events_eq.entries p.inCycle.deps)
    rw [commit_items_page p.deletes_eq, ← hrec₀]
    exact pollStep_page_ok (p.process (hloaded.trans (loadVersions_congr hrec₀ _).symm))
  · have hloaded := hcur.loaded _ _ p.loaded_eq
    refine h.step hrows (.delete d.parsed.poller b.deletes) rfl (fun rec₀ hrec₀ => ?_)
      (p.events_eq.entries p.inCycle.deps)
    rw [commit_items_delete p.upserts_eq, ← hrec₀,
      p.specs (hloaded.trans (loadVersions_congr hrec₀ _).symm)]
    exact ⟨rfl, rfl⟩

theorem Recorded.act (hS : ∀ call, S call → call.KeepsItems) {tr : List (Label (system ι))}
    {w w' : World ι} {t : Nat} {o : Op ι} {ch : Choice ι} {a : Ans o} (h : Recorded d tr w.store)
    (hfenced : Fenced (viewAt tr) w.store)
    (hallow : (cycleContract d (administers d S)).allow (viewAt tr t) o)
    (hw : perform o ch w = some (a, w')) : Recorded d (tr ++ [.act t o ch a]) w'.store := by
  have hstep := itemsStep hS hallow hw
  generalize w'.store = rec' at hstep ⊢
  cases hstep with
  | commit heffect hlease hholds hstep =>
    exact h.commitStep (hfenced.current t _ hlease hholds) (if_pos heffect) hstep
  | refused heffect _ => exact h.quiet (if_neg (by rw [heffect]; simp)) rfl
  | quiet hcalls hitems => exact h.quiet (stepRows_quiet hcalls) hitems

/-- The commits of every run are those of a history. -/
theorem run_history (hS : ∀ call, S call → call.KeepsItems) {tr : List (Label (system ι))}
    {c : Config (system ι)} (h : Run (system ι) (d.entry S) (World.fresh d.key) tr c) :
    Recorded d tr (World.store (ι := ι) c.world) := by
  refine Run.invariant (obeys d S) (J := fun tr (w : World ι) => Recorded d tr w.store) ?_ ?_ ?_ ?_ h
  · refine ⟨[], ?_, rfl, rfl⟩
    intro step hstep
    cases hstep
  · intro tr c p _ hJ
    exact hJ.quiet rfl rfl
  · intro tr c t o ch a w' hr hJ hallow hw
    exact hJ.act hS (fenced hS hr) hallow hw
  · intro tr c x _ hJ
    exact hJ.quiet rfl rfl

/-- A consumer of a run that deduplicates by event id: it ends with the stored items of the run if it
converges on the history of the run. -/
theorem run_converges (hS : ∀ call, S call → call.KeepsItems) {tr : List (Label (system ι))}
    {c : Config (system ι)} (h : Run (system ι) (d.entry S) (World.fresh d.key) tr c) :
    ∃ steps : List (PollStep ι), (∀ step ∈ steps, step.poller = d.parsed.poller) ∧
      (Converges d.parsed steps ↔
        ∀ deliveries, Redelivers (committedRows tr) deliveries →
          (Replica.empty.receiveAll (deliveries.map (·.entry d))).snapshot =
            contents (World.store (ι := ι) c.world).items) := by
  obtain ⟨steps, hpoller, hstored, hevents⟩ := run_history hS h
  refine ⟨steps, hpoller, ?_⟩
  have hafter : storedAfter d.parsed steps = contents (World.store (ι := ι) c.world).items := by
    rw [← hstored]
    rfl
  rw [converges_iff, hafter, ← hevents]
  constructor
  · intro hconverges deliveries hdeliveries
    rw [(hdeliveries.map (·.entry d)).receiveAll]
    exact hconverges
  · exact fun hall => hall _ (Redelivers.self _)

end

end Watukuy
