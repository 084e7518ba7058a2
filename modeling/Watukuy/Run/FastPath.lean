import Watukuy.Run.Polls
import Watukuy.Run.Scenarios

/-!
# The version fast path

With a faithful version selector, and rows that come from items at their versions, a page that skips
the items whose stored version still holds changes and writes what it would with every item hashed.
What it writes comes from items again, so the same holds over whole runs.
-/

set_option autoImplicit false

namespace Watukuy

open Library

variable {ι : Type}

/-- Items of one identity with one version have one fingerprint. -/
def FaithfulVersions (crypto : Crypto) (poller : ResolvedPoller ι) : Prop :=
  ∀ version, poller.version = some version → ∀ a b identity,
    identityOf poller a = .ok identity → identityOf poller b = .ok identity →
    version a = version b → fingerprintOf crypto poller a = fingerprintOf crypto poller b

/-- A stored row with a version, of the schema of the poller, holds the hash of some item at that
version. -/
def Grounded (crypto : Crypto) (poller : ResolvedPoller ι)
    (rows : OrderedMap String (ItemRow ι)) : Prop :=
  ∀ version, poller.version = some version → ∀ identity row v, rows.get identity = some row →
    row.version = some v → row.schemaVersion = poller.schemaVersion →
    ∃ item, identityOf poller item = .ok identity ∧ version item = v ∧
      fingerprintOf crypto poller item = .ok row.hash

/-- What a page emits and writes. -/
def DiffResult.output (d : DiffResult ι) : List (Change ι) × List (ItemRow ι) :=
  (d.changes, d.upserts)

section
variable {crypto : Crypto} {poller : ResolvedPoller ι} {existing : OrderedMap String (ItemRow ι)}
  {now : Int} {touch : Bool}

/-- An item that the fast path skips is unchanged when it is hashed. -/
theorem entryDiff_skipped (now : Int) (hf : FaithfulVersions crypto poller)
    (hg : Grounded crypto poller existing) {identity : String} {item : ι}
    (hid : identityOf poller item = .ok identity)
    (hfast : fastPath poller (poller.version.map fun f => f item) (existing.get identity) = true) :
    ∃ d, entryDiff crypto poller existing now false true (identity, item) = .ok d ∧
      d.output = ([], []) := by
  obtain ⟨row, v, hrow, hv, hversion, hschema⟩ := fastPath_iff.1 hfast
  obtain ⟨version, hselector, hvitem⟩ := Option.map_eq_some_iff.1 hv
  obtain ⟨source, hsource, hvsource, hhash⟩ :=
    hg version hselector identity row v hrow hversion hschema
  have hsame : fingerprintOf crypto poller item = .ok row.hash :=
    (hf version hselector item source identity hid hsource (hvitem.trans hvsource.symm)).trans hhash
  have hcandidate : candidateOf crypto poller (identity, item) =
      .ok { identity, item, version := row.version, hash := row.hash } := by
    simp only [candidateOf, hsame, hv, hversion]
    rfl
  have hdiff : entryDiff crypto poller existing now false true (identity, item) =
      .ok (diffCandidate poller existing now false
        { identity, item, version := row.version, hash := row.hash }) := by
    simp only [entryDiff, not_true, false_and, if_false, hcandidate]
    rfl
  exact ⟨_, hdiff, by simp [diffCandidate, hrow, hschema, DiffResult.output]⟩

/-- One latest item. -/
theorem entryDiff_output (now : Int) (hf : FaithfulVersions crypto poller)
    (hg : Grounded crypto poller existing) {entry : String × ι}
    (hid : identityOf poller entry.2 = .ok entry.1) :
    (entryDiff crypto poller existing now false false entry).map DiffResult.output =
      (entryDiff crypto poller existing now false true entry).map DiffResult.output := by
  obtain ⟨identity, item⟩ := entry
  by_cases hfast : fastPath poller (poller.version.map fun f => f item) (existing.get identity) =
      true
  · obtain ⟨d, hd, hout⟩ := entryDiff_skipped now hf hg hid hfast
    rw [hd]
    simp only [entryDiff, hfast]
    exact congrArg Except.ok hout.symm
  · simp only [entryDiff, hfast]
    simp

/-- The outputs of two parts make the output of both. -/
theorem output_append (x y : Except JsError (DiffResult ι)) :
    (do return (← x).append (← y)).map DiffResult.output =
      (do
        let a ← x.map DiffResult.output
        let b ← y.map DiffResult.output
        return (a.1 ++ b.1, a.2 ++ b.2)) := by
  cases x <;> cases y <;> rfl

/-- The latest items of a page. -/
theorem entriesDiff_output (hf : FaithfulVersions crypto poller)
    (hg : Grounded crypto poller existing) {entries : List (String × ι)}
    (hid : ∀ entry ∈ entries, identityOf poller entry.2 = .ok entry.1) :
    (entriesDiff crypto poller existing now false false entries).map DiffResult.output =
      (entriesDiff crypto poller existing now false true entries).map DiffResult.output := by
  induction entries with
  | nil => rfl
  | cons entry entries ih =>
    have hfirst := entryDiff_output now hf hg (hid entry List.mem_cons_self)
    have hrest := ih fun e he => hid e (List.mem_cons_of_mem _ he)
    rw [entriesDiff, entriesDiff, output_append, output_append, hfirst, hrest]

/-- A page: the fast path emits and writes what hashing every item does. -/
theorem pageDiff_output (now : Int) (hf : FaithfulVersions crypto poller)
    (hg : Grounded crypto poller existing) (items : List ι) :
    (pageDiff crypto poller existing now false items).map DiffResult.output =
      (pageDiffHashed crypto poller existing now false items).map DiffResult.output := by
  rw [pageDiff_eq, pageDiffHashed_eq]
  cases hlatest : latestItems poller items with
  | error e => rfl
  | ok latest => exact entriesDiff_output hf hg fun entry he => (mem_latestItems hlatest he).2

end

/-! ## Runs -/

/-- Two pollers of one schema version select the same. -/
def AgreeOnSchema (p q : ResolvedPoller ι) : Prop :=
  p.schemaVersion = q.schemaVersion →
    p.identity = q.identity ∧ p.version = q.version ∧ p.canonical = q.canonical

/-- The pollers of a run: faithful, and agreeing on each schema version. -/
structure Deployed (crypto : Crypto) (pollers : ResolvedPoller ι → Prop) : Prop where
  faithful : ∀ p, pollers p → FaithfulVersions crypto p
  agree : ∀ p q, pollers p → pollers q → AgreeOnSchema p q

/-- The pages of a run are of its pollers and of no full scan. -/
def PagesOf (pollers : ResolvedPoller ι → Prop) (steps : List (PollStep ι)) : Prop :=
  ∀ page, .page page ∈ steps → pollers page.poller ∧ page.fullScan = false

section
variable {crypto : Crypto} {poller : ResolvedPoller ι} {existing : OrderedMap String (ItemRow ι)}
  {now : Int}

/-- A row that hashing every item writes is the row of some item of the page. -/
theorem entriesDiff_upserts {touch : Bool} {entries : List (String × ι)} {d : DiffResult ι}
    (h : entriesDiff crypto poller existing now touch true entries = .ok d) {row : ItemRow ι}
    (hrow : row ∈ d.upserts) :
    ∃ entry ∈ entries, ∃ hash, fingerprintOf crypto poller entry.2 = .ok hash ∧
      row = rowFor poller
        { identity := entry.1, item := entry.2,
          version := (poller.version.map fun f => f entry.2), hash } now := by
  induction entries generalizing d with
  | nil =>
    cases h
    cases hrow
  | cons entry entries ih =>
    obtain ⟨first, rest, hfirst, hrest, rfl⟩ := entriesDiff_cons_ok h
    rcases List.mem_append.1 hrow with hrow | hrow
    · obtain ⟨hash, hhash, rfl⟩ := entryDiff_ok (by simp) hfirst
      exact ⟨entry, List.mem_cons_self, hash, hhash, mem_diffCandidate_upserts hrow⟩
    · obtain ⟨e, he, hash, hhash, heq⟩ := ih hrest hrow
      exact ⟨e, List.mem_cons_of_mem _ he, hash, hhash, heq⟩

/-- The rows that a page loads are grounded when the stored ones are. -/
theorem Grounded.loaded {rec : KeyRecord ι} (h : Grounded crypto poller rec.items)
    (ids : List IdentityValue) : Grounded crypto poller (rec.loadVersions ids) := by
  intro version hversion identity row v hrow
  rw [get_loadVersions] at hrow
  split at hrow
  · exact h version hversion identity row v hrow
  · cases hrow

/-- Rows that are left are grounded. -/
theorem Grounded.erase {rows : OrderedMap String (ItemRow ι)} (h : Grounded crypto poller rows)
    (ids : List String) : Grounded crypto poller (rows.eraseAll ids) := by
  intro version hversion identity row v hrow
  rw [OrderedMap.get_eraseAll] at hrow
  split at hrow
  · cases hrow
  · exact h version hversion identity row v hrow

/-- The identity of an item is a matter of the selector. -/
theorem identityOf_congr {p q : ResolvedPoller ι} (hsame : p.identity = q.identity) {item : ι}
    {identity : String} (h : identityOf p item = .ok identity) :
    identityOf q item = .ok identity := by
  unfold identityOf at h ⊢
  rw [← hsame]
  cases hvalue : p.identity item with
  | other typeName =>
    rw [hvalue] at h
    cases h
  | _ =>
    rw [hvalue] at h
    exact h

/-- What a page writes comes from its items, for every poller of the run. -/
theorem Grounded.page {p q : ResolvedPoller ι} {rows : OrderedMap String (ItemRow ι)}
    (hagree : AgreeOnSchema p q) (h : Grounded crypto q rows) {items : List ι} {d : DiffResult ι}
    (hd : pageDiffHashed crypto p existing now false items = .ok d) :
    Grounded crypto q (rows.setAll (·.identity) d.upserts) := by
  intro version hversion identity row v hrow hv hschema
  rcases OrderedMap.get_setAll_cases _ _ _ hrow with ⟨hmem, hkey⟩ | hold
  · rw [pageDiffHashed_eq] at hd
    obtain ⟨latest, hlatest, hd⟩ := bind_eq_ok.1 hd
    obtain ⟨entry, hentry, hash, hhash, rfl⟩ := entriesDiff_upserts hd hmem
    obtain ⟨hidentity, hselector, hcanonical⟩ := hagree hschema
    have hid : identityOf p entry.2 = .ok entry.1 := (mem_latestItems hlatest hentry).2
    have hkey' : entry.1 = identity := hkey
    subst hkey'
    have hversions : p.version = some version := hselector.trans hversion
    have hvitem : version entry.2 = v := by
      simpa [rowFor, hversions] using hv
    have hprint : fingerprintOf crypto q entry.2 = .ok hash := by
      simpa [fingerprintOf, hcanonical] using hhash
    exact ⟨entry.2, identityOf_congr hidentity hid, hvitem, hprint⟩
  · exact h version hversion identity row v hold hv hschema

/-- The valid items of a page, with the fast path and with every item hashed. -/
theorem diff_eq {page : PollPage ι} (hf : FaithfulVersions crypto page.poller) {rec : KeyRecord ι}
    (hg : Grounded crypto page.poller rec.items) (hscan : page.fullScan = false) (valid : List ι) :
    page.diff (pageDiff crypto) rec valid = page.diff (pageDiffHashed crypto) rec valid := by
  have hout := pageDiff_output page.now hf
    (hg.loaded (valid.map page.poller.identity)) valid
  simp only [PollPage.diff, hscan]
  revert hout
  generalize pageDiff crypto page.poller _ page.now false valid = x
  generalize pageDiffHashed crypto page.poller _ page.now false valid = y
  intro hout
  cases x with
  | error e =>
    cases y with
    | error e' => rw [Except.error.inj hout]
    | ok d => cases hout
  | ok d =>
    cases y with
    | error e => cases hout
    | ok d' =>
      obtain ⟨hchanges, hupserts⟩ := Prod.mk.inj (Except.ok.inj hout)
      simp only [bind, Except.bind, pure, Except.pure, hchanges, hupserts]

theorem process_eq {page : PollPage ι} (hf : FaithfulVersions crypto page.poller)
    {rec : KeyRecord ι} (hg : Grounded crypto page.poller rec.items)
    (hscan : page.fullScan = false) :
    page.process (pageDiff crypto) rec = page.process (pageDiffHashed crypto) rec := by
  have hdiff := diff_eq hf hg hscan
  simp only [PollPage.process, hdiff]

/-- A step of a run, with the fast path and with every item hashed. -/
theorem pollStep_eq {pollers : ResolvedPoller ι → Prop} (hdeployed : Deployed crypto pollers)
    {rec : KeyRecord ι} (hg : ∀ p, pollers p → Grounded crypto p rec.items) {step : PollStep ι}
    (hstep : PagesOf pollers [step]) :
    pollStep (pageDiff crypto) rec step = pollStep (pageDiffHashed crypto) rec step := by
  cases step with
  | delete p missing => rfl
  | page page =>
    obtain ⟨hp, hscan⟩ := hstep page (List.mem_singleton.2 rfl)
    have hprocess := process_eq (hdeployed.faithful page.poller hp) (hg page.poller hp) hscan
    simp only [pollStep, hprocess]

/-- A step of a run whose items are hashed leaves grounded rows. -/
theorem Grounded.step {pollers : ResolvedPoller ι → Prop} (hdeployed : Deployed crypto pollers)
    {rec : KeyRecord ι} (hg : ∀ p, pollers p → Grounded crypto p rec.items) {step : PollStep ι}
    (hstep : PagesOf pollers [step]) :
    ∀ q, pollers q → Grounded crypto q (pollStep (pageDiffHashed crypto) rec step).1.items := by
  intro q hq
  cases step with
  | delete p missing => exact (hg q hq).erase missing
  | page page =>
    obtain ⟨hp, hscan⟩ := hstep page (List.mem_singleton.2 rfl)
    simp only [pollStep]
    cases hprocess : page.process (pageDiffHashed crypto) rec with
    | error e => exact hg q hq
    | ok out =>
      obtain ⟨events, upserts⟩ := out
      obtain ⟨valid, -, result, -, -, hresult, -, rfl⟩ := process_ok hprocess
      rw [hscan] at hresult
      exact Grounded.page (hdeployed.agree page.poller q hp hq) (hg q hq) hresult

/-- A run emits and stores with the fast path what it does with every item hashed. -/
theorem pollSteps_eq {pollers : ResolvedPoller ι → Prop} (hdeployed : Deployed crypto pollers)
    {rec : KeyRecord ι} (hg : ∀ p, pollers p → Grounded crypto p rec.items)
    {steps : List (PollStep ι)} (hsteps : PagesOf pollers steps) :
    pollSteps (pageDiff crypto) rec steps = pollSteps (pageDiffHashed crypto) rec steps := by
  induction steps generalizing rec with
  | nil => rfl
  | cons step steps ih =>
    have hstep : PagesOf pollers [step] := fun page hmem =>
      hsteps page (List.mem_singleton.1 hmem ▸ List.mem_cons_self)
    have hrest : PagesOf pollers steps := fun page hmem =>
      hsteps page (List.mem_cons_of_mem _ hmem)
    have hfirst := pollStep_eq hdeployed hg hstep
    have hnext := Grounded.step hdeployed hg hstep
    simp only [pollSteps]
    rw [hfirst, ih hnext hrest]

end

/-! ## The result -/

/-- With faithful versions, and rows that come from items at their versions, the fast path changes and
writes what hashing every item does: on every page, and over every run of pages that are no full
scans. -/
theorem fastPath_eq_hashing (crypto : Crypto) :
    (∀ (poller : ResolvedPoller ι) (existing : OrderedMap String (ItemRow ι)) (now : Int)
      (items : List ι), FaithfulVersions crypto poller → Grounded crypto poller existing →
      (pageDiff crypto poller existing now false items).map DiffResult.output =
        (pageDiffHashed crypto poller existing now false items).map DiffResult.output) ∧
    ∀ (pollers : ResolvedPoller ι → Prop) (rec : KeyRecord ι) (steps : List (PollStep ι)),
      Deployed crypto pollers → (∀ p, pollers p → Grounded crypto p rec.items) →
      PagesOf pollers steps →
      pollSteps (pageDiff crypto) rec steps = pollSteps (pageDiffHashed crypto) rec steps := by
  constructor
  · intro poller existing now items hf hg
    exact pageDiff_output now hf hg items
  · intro pollers rec steps hdeployed hg hsteps
    exact pollSteps_eq hdeployed hg hsteps

/-- Items that are their own version. -/
def versionedPoller : ResolvedPoller Sample :=
  { samplePoller with version := some fun item => item.2 }

theorem versionedPoller_faithful : FaithfulVersions sampleCrypto versionedPoller := by
  intro version hversion a b identity _ _ hsame
  obtain rfl := Option.some.inj hversion
  exact congrArg (fun text => Except.ok (sampleCrypto.sha256Hex text)) hsame

/-- A row that the fast path skips, and a run that skips it again. -/
theorem fastPath_eq_hashing_sample :
    let row : ItemRow Sample :=
      { identity := "a", version := some "1", hash := sampleCrypto.sha256Hex "1"
        schemaVersion := 1, payload := none, seenAt := 0 }
    let rows : OrderedMap String (ItemRow Sample) := OrderedMap.empty.set "a" row
    let stored : KeyRecord Sample :=
      { KeyRecord.fresh { poller := "orders", partition := "" } with items := rows }
    let page (items : List Sample) : PollStep Sample :=
      .page { poller := versionedPoller, now := 5, fullScan := false, force := true, items }
    let steps := [page [("a", "1"), ("b", "2")], .delete versionedPoller ["b"], page [("b", "2"), ("a", "3")]]
    ((pageDiff sampleCrypto versionedPoller rows 5 false [("a", "1")]).map DiffResult.output =
      (pageDiffHashed sampleCrypto versionedPoller rows 5 false [("a", "1")]).map
        DiffResult.output) ∧
    pollSteps (pageDiff sampleCrypto) stored steps =
      pollSteps (pageDiffHashed sampleCrypto) stored steps := by
  intro row rows stored page steps
  have hgrounded : Grounded sampleCrypto versionedPoller rows := by
    intro version hversion identity r v hrow hv _
    obtain rfl := Option.some.inj hversion
    rw [OrderedMap.get_set] at hrow
    split at hrow
    · rename_i hid
      obtain rfl := Option.some.inj hrow
      obtain rfl := Option.some.inj hv
      exact ⟨("a", "1"), congrArg Except.ok hid.symm, rfl, rfl⟩
    · cases hrow
  constructor
  · exact (fastPath_eq_hashing sampleCrypto).1 versionedPoller rows 5 [("a", "1")]
      versionedPoller_faithful hgrounded
  · refine (fastPath_eq_hashing sampleCrypto).2 (fun p => p = versionedPoller) stored steps ⟨?_, ?_⟩
      ?_ ?_
    · rintro p rfl
      exact versionedPoller_faithful
    · rintro p q rfl rfl _
      exact ⟨rfl, rfl, rfl⟩
    · rintro p rfl
      exact hgrounded
    · intro p hp
      simp only [steps, page, List.mem_cons, List.not_mem_nil, or_false, PollStep.page.injEq,
        reduceCtorEq, false_or] at hp
      rcases hp with rfl | rfl <;> exact ⟨rfl, rfl⟩

end Watukuy
