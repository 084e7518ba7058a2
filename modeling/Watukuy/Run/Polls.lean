import Watukuy.Diff.PageDiff
import Watukuy.Run.ChangeStream

/-!
# Pages against the stored record

A page as `processPage` and `commitPoll` see it, without clocks and leases: what it emits, the rows it
writes, and the runs that such pages make. `PageStep.process` and `run_history` connect them with the
runs of the system.
-/

set_option autoImplicit false

namespace Watukuy

open Library

variable {ι : Type}

/-- A page that a lane of a poller processes. -/
structure PollPage (ι : Type) where
  poller : ResolvedPoller ι
  now : Int
  /-- `isFullScan`. -/
  fullScan : Bool
  /-- A backfill with `force`. -/
  force : Bool
  items : List ι

/-- The diff of a page against the rows loaded for it. -/
abbrev DiffPage (ι : Type) :=
  ResolvedPoller ι → OrderedMap String (ItemRow ι) → Int → Bool → List ι →
    Except JsError (DiffResult ι)

/-- The events and the rows of a page whose items are valid. -/
def PollPage.diff (page : PollPage ι) (diff : DiffPage ι) (rec : KeyRecord ι) (valid : List ι) :
    Except JsError (List (EventSpec ι) × List (ItemRow ι)) := do
  let existing := rec.loadVersions (valid.map page.poller.identity)
  let result ← diff page.poller existing page.now page.fullScan valid
  return (result.changes.map changeSpec ++
    (if page.force then forcedSpecs page.poller valid existing result.changes else []),
    result.upserts)

/-- What `processPage` emits and writes. -/
def PollPage.process (page : PollPage ι) (diff : DiffPage ι) (rec : KeyRecord ι) :
    Except JsError (List (EventSpec ι) × List (ItemRow ι)) := do
  let (valid, invalid) ← validateItems page.poller page.items
  if invalid ≠ [] ∧ page.poller.onInvalid = .fail then
    .error (validationError ((invalid.head?.map (·.2)).getD []))
  else page.diff diff rec valid

/-- A commit of a run: a page, or the rows that a full scan of a poller deletes. -/
inductive PollStep (ι : Type) where
  | page (page : PollPage ι)
  | delete (poller : ResolvedPoller ι) (missing : List String)

/-- The `deleted` events of stored rows. -/
def KeyRecord.deleteSpecs (rec : KeyRecord ι) (poller : ResolvedPoller ι) (missing : List String) :
    List (EventSpec ι) :=
  let rows := rec.loadVersions (missing.map .string)
  missing.filterMap fun id => (rows.get id).map (deleteSpec poller id)

/-- One step: a page that fails commits nothing. -/
def pollStep (diff : DiffPage ι) (rec : KeyRecord ι) :
    PollStep ι → KeyRecord ι × Except JsError (List (EventSpec ι))
  | .delete poller missing =>
    ({ rec with items := rec.items.eraseAll missing }, .ok (rec.deleteSpecs poller missing))
  | .page page =>
    match page.process diff rec with
    | .error e => (rec, .error e)
    | .ok (events, upserts) =>
      ({ rec with items := rec.items.setAll (·.identity) upserts }, .ok events)

/-- A run: the record at its end and what each step emitted. -/
def pollSteps (diff : DiffPage ι) (rec : KeyRecord ι) :
    List (PollStep ι) → KeyRecord ι × List (Except JsError (List (EventSpec ι)))
  | [] => (rec, [])
  | step :: steps =>
    let (rec, first) := pollStep diff rec step
    let (rec, rest) := pollSteps diff rec steps
    (rec, first :: rest)

/-- What a page does that does not fail. -/
theorem process_ok {diff : DiffPage ι} {page : PollPage ι} {rec : KeyRecord ι}
    {events : List (EventSpec ι)} {upserts : List (ItemRow ι)}
    (h : page.process diff rec = .ok (events, upserts)) :
    ∃ valid invalid result, validateItems page.poller page.items = .ok (valid, invalid) ∧
      ¬(invalid ≠ [] ∧ page.poller.onInvalid = .fail) ∧
      diff page.poller (rec.loadVersions (valid.map page.poller.identity)) page.now
        page.fullScan valid = .ok result ∧
      events = result.changes.map changeSpec ++ (if page.force then
        forcedSpecs page.poller valid (rec.loadVersions (valid.map page.poller.identity))
          result.changes else []) ∧
      upserts = result.upserts := by
  obtain ⟨⟨valid, invalid⟩, hvalid, h⟩ := bind_eq_ok.1 h
  by_cases hinvalid : invalid ≠ [] ∧ page.poller.onInvalid = .fail
  · simp only [if_pos hinvalid] at h
    cases h
  · simp only [if_neg hinvalid] at h
    obtain ⟨result, hresult, h⟩ := bind_eq_ok.1 h
    obtain ⟨hevents, hupserts⟩ := Prod.mk.inj (Except.ok.inj h)
    exact ⟨valid, invalid, result, hvalid, hinvalid, hresult, hevents.symm, hupserts.symm⟩

/-- A page whose items are valid is their diff. -/
theorem process_of_valid {diff : DiffPage ι} {page : PollPage ι} {rec : KeyRecord ι}
    {valid : List ι} {invalid : List (ι × List ValidationIssue)}
    (hvalid : validateItems page.poller page.items = .ok (valid, invalid))
    (hinvalid : ¬(invalid ≠ [] ∧ page.poller.onInvalid = .fail)) :
    page.process diff rec = page.diff diff rec valid := by
  simp only [PollPage.process, hvalid, bind, Except.bind]
  exact if_neg hinvalid

/-- A forced page emits an event for each of its items that is known. -/
theorem forced_reemits {diff : DiffPage ι} {page : PollPage ι} {rec : KeyRecord ι}
    {events : List (EventSpec ι)} {upserts : List (ItemRow ι)} (hforce : page.force = true)
    (h : page.process diff rec = .ok (events, upserts)) {valid : List ι}
    {invalid : List (ι × List ValidationIssue)}
    (hvalid : validateItems page.poller page.items = .ok (valid, invalid)) {item : ι}
    (hitem : item ∈ valid) {identity : String} (hid : page.poller.identity item = .string identity)
    (hknown : (rec.items.get identity).isSome) : ∃ spec ∈ events, spec.identity = identity := by
  obtain ⟨valid', invalid', result, hvalid', -, -, rfl, -⟩ := process_ok h
  rw [hvalid] at hvalid'
  obtain ⟨rfl, rfl⟩ := Prod.mk.inj (Except.ok.inj hvalid')
  have hmem : IdentityValue.string identity ∈ valid.map page.poller.identity :=
    List.mem_map.2 ⟨item, hitem, hid⟩
  obtain ⟨row, hrow⟩ := Option.isSome_iff_exists.1 hknown
  by_cases hchanged : identity ∈ result.changes.map (·.identity)
  · obtain ⟨change, hchange, rfl⟩ := List.mem_map.1 hchanged
    exact ⟨changeSpec change, List.mem_append_left _ (List.mem_map_of_mem hchange), rfl⟩
  · -- an unchanged item is emitted again with the last item of its identity
    have hfind : (valid.reverse.find? fun i => page.poller.identity i = .string identity).isSome := by
      rw [List.find?_isSome]
      exact ⟨item, List.mem_reverse.2 hitem, by simp [hid]⟩
    obtain ⟨last, hlast⟩ := Option.isSome_iff_exists.1 hfind
    have hloaded : (rec.loadVersions (valid.map page.poller.identity)).get identity = some row := by
      rw [get_loadVersions, if_pos hmem, hrow]
    refine ⟨forcedSpec page.poller identity last row, ?_, rfl⟩
    rw [if_pos hforce]
    refine List.mem_append_right _ (List.mem_filterMap.2 ⟨.string identity, hmem, ?_⟩)
    simp only [if_neg hchanged, hlast, hloaded]

/-- A run in two parts. -/
theorem pollSteps_append (diff : DiffPage ι) (rec : KeyRecord ι) (before after : List (PollStep ι)) :
    (pollSteps diff rec (before ++ after)).1 =
      (pollSteps diff (pollSteps diff rec before).1 after).1 := by
  induction before generalizing rec with
  | nil => rfl
  | cons step before ih => exact ih (pollStep diff rec step).1

end Watukuy
