import Watukuy.Run.Repolls
import Watukuy.Run.Fencing

/-!
# Coerced identities

The diff stores an item under the text of its identity; the runner looks rows up and keeps `seen` by
the identity as the selector returns it. Cycles over an unchanged listing are silent exactly when on
each page every such text is the string identity of an item of the page.
-/

set_option autoImplicit false

namespace Watukuy

open Library

variable {ι : Type}

/-! ## Cycles -/

/-- What a part of a cycle leaves: the record, the events, and the error that ended it. -/
structure Polled (ι : Type) where
  stored : KeyRecord ι
  events : List (EventSpec ι)
  failed : Option JsError

/-- The pages of a cycle, up to the first one that fails. -/
def scanPages (diff : DiffPage ι) (rec : KeyRecord ι) : List (PollPage ι) → Polled ι
  | [] => { stored := rec, events := [], failed := none }
  | page :: pages =>
    match page.process diff rec with
    | .error e => { stored := rec, events := [], failed := some e }
    | .ok (events, upserts) =>
      let rest :=
        scanPages diff { rec with items := rec.items.setAll (·.identity) upserts } pages
      { rest with events := events ++ rest.events }

/-- A cycle that is not forced: its pages, with the times they are processed at. -/
structure PollCycle (ι : Type) where
  fullScan : Bool
  pages : List (Int × List ι)

def PollCycle.pollPages (c : PollCycle ι) (poller : ResolvedPoller ι) : List (PollPage ι) :=
  c.pages.map fun p => { poller, now := p.1, fullScan := c.fullScan, force := false, items := p.2 }

/-- What a page adds to `seen`. -/
def seenOf (poller : ResolvedPoller ι) (items : List ι) : List IdentityValue :=
  match validateItems poller items with
  | .ok (valid, _) => valid.map poller.identity
  | .error _ => []

def PollCycle.seen (c : PollCycle ι) (poller : ResolvedPoller ι) : List IdentityValue :=
  c.pages.flatMap fun p => seenOf poller p.2

/-- The stored identities that a full scan has not seen. -/
def KeyRecord.missing (rec : KeyRecord ι) (seen : List IdentityValue) : List String :=
  rec.streamIdentities.flatMap fun ids => detectDeletes ids seen

/-- A cycle: a full scan that completed deletes what it has not seen. -/
def pollCycle (diff : DiffPage ι) (poller : ResolvedPoller ι) (rec : KeyRecord ι)
    (c : PollCycle ι) : Polled ι :=
  let scanned := scanPages diff rec (c.pollPages poller)
  if c.fullScan ∧ scanned.failed = none then
    let missing := scanned.stored.missing (c.seen poller)
    { scanned with
      stored := { scanned.stored with items := scanned.stored.items.eraseAll missing }
      events := scanned.events ++ scanned.stored.deleteSpecs poller missing }
  else scanned

/-- The events of cycles, one after another. -/
def pollCycles (diff : DiffPage ι) (poller : ResolvedPoller ι) (rec : KeyRecord ι) :
    List (PollCycle ι) → List (List (EventSpec ι))
  | [] => []
  | c :: cycles =>
    let first := pollCycle diff poller rec c
    first.events :: pollCycles diff poller first.stored cycles

/-- A cycle over a listing fetches pages of it; a full scan fetches all of them. -/
structure PollCycle.Over (c : PollCycle ι) (listing : List (List ι)) : Prop where
  pages : ∀ p ∈ c.pages, p.2 ∈ listing
  all : c.fullScan = true → ∀ items ∈ listing, ∃ p ∈ c.pages, p.2 = items

/-- The items of the pages of a listing are looked up under the identities they are stored under. -/
def FindableListing (poller : ResolvedPoller ι) (listing : List (List ι)) : Prop :=
  ∀ items ∈ listing, ∀ valid invalid, validateItems poller items = .ok (valid, invalid) →
    Findable poller valid

/-- Each stored row is of an identity of the listing. -/
def OnlyListed (poller : ResolvedPoller ι) (listing : List (List ι))
    (rows : OrderedMap String (ItemRow ι)) : Prop :=
  ∀ identity, (rows.get identity).isSome →
    ∃ item, Listed poller listing item ∧ identityOf poller item = .ok identity

/-- Each item of the listing is reflected. -/
def Known (crypto : Crypto) (poller : ResolvedPoller ι) (listing : List (List ι))
    (rows : OrderedMap String (ItemRow ι)) : Prop :=
  ∀ item identity, Listed poller listing item → identityOf poller item = .ok identity →
    Reflects crypto poller rows (identity, item)

section
variable {crypto : Crypto} {poller : ResolvedPoller ι} {listing : List (List ι)}
  {rec : KeyRecord ι} {pages : List (PollPage ι)}

/-- The pages are of the poller and of the listing. -/
def Drawn (poller : ResolvedPoller ι) (listing : List (List ι)) (pages : List (PollPage ι)) : Prop :=
  ∀ page ∈ pages, page.poller = poller ∧ page.items ∈ listing

theorem PollCycle.Over.drawn {c : PollCycle ι} (h : c.Over listing) :
    Drawn poller listing (c.pollPages poller) := by
  intro page hpage
  obtain ⟨p, hp, rfl⟩ := List.mem_map.1 hpage
  exact ⟨rfl, h.pages p hp⟩

theorem Drawn.tail {page : PollPage ι} (h : Drawn poller listing (page :: pages)) :
    Drawn poller listing pages := fun p hp => h p (List.mem_cons_of_mem _ hp)

/-- A scan that completed processed its first page, and then the others. -/
theorem scanPages_cons {diff : DiffPage ι} {page : PollPage ι}
    (h : (scanPages diff rec (page :: pages)).failed = none) :
    ∃ events upserts, page.process diff rec = .ok (events, upserts) ∧
      (scanPages diff { rec with items := rec.items.setAll (·.identity) upserts } pages).failed =
        none ∧
      scanPages diff rec (page :: pages) =
        let rest := scanPages diff { rec with items := rec.items.setAll (·.identity) upserts } pages
        { rest with events := events ++ rest.events } := by
  rw [scanPages] at h ⊢
  cases hprocess : page.process diff rec with
  | error e =>
    rw [hprocess] at h
    cases h
  | ok out =>
    obtain ⟨events, upserts⟩ := out
    rw [hprocess] at h
    exact ⟨events, upserts, rfl, h, rfl⟩

/-! ## The pages of a scan -/

/-- A scan that completed reflects the items of its pages and what was reflected before. -/
theorem reflects_scan (hone : OneContent crypto poller listing)
    (hdrawn : Drawn poller listing pages)
    (hdone : (scanPages (pageDiff crypto) rec pages).failed = none) {item : ι}
    (hlisted : Listed poller listing item) {identity : String}
    (hid : identityOf poller item = .ok identity)
    (h : Reflects crypto poller rec.items (identity, item) ∨ ∃ page ∈ pages, ∃ valid invalid,
      validateItems poller page.items = .ok (valid, invalid) ∧ item ∈ valid) :
    Reflects crypto poller (scanPages (pageDiff crypto) rec pages).stored.items
      (identity, item) := by
  induction pages generalizing rec with
  | nil =>
    rcases h with h | ⟨page, hpage, -⟩
    · exact h
    · cases hpage
  | cons page pages ih =>
    obtain ⟨events, upserts, hprocess, hrest, hscan⟩ := scanPages_cons hdone
    obtain ⟨hpoller, hpage⟩ := hdrawn page List.mem_cons_self
    obtain ⟨valid, invalid, -, hvalid, -⟩ := process_ok hprocess
    rw [hpoller] at hvalid
    rw [hscan]
    refine ih hdrawn.tail hrest ?_
    rcases h with h | ⟨page', hpage', valid', invalid', hvalid', hitem⟩
    · exact Or.inl (reflects_page hone hpoller hpage hprocess hvalid hlisted hid (Or.inl h))
    · rcases List.mem_cons.1 hpage' with rfl | hlater
      · rw [hvalid] at hvalid'
        obtain ⟨rfl, rfl⟩ := Prod.mk.inj (Except.ok.inj hvalid')
        exact Or.inl (reflects_page hone hpoller hpage hprocess hvalid hlisted hid (Or.inr hitem))
      · exact Or.inr ⟨page', hlater, valid', invalid', hvalid', hitem⟩

/-- A page stores rows of the identities of its items only. -/
theorem onlyListed_page {page : PollPage ι} (hpoller : page.poller = poller)
    (hpage : page.items ∈ listing) {events : List (EventSpec ι)} {upserts : List (ItemRow ι)}
    (hprocess : page.process (pageDiff crypto) rec = .ok (events, upserts))
    (h : OnlyListed poller listing rec.items) :
    OnlyListed poller listing (rec.items.setAll (·.identity) upserts) := by
  intro identity hstored
  rcases (OrderedMap.isSome_get_setAll _ _ _ _).1 hstored with hmem | hold
  · obtain ⟨valid, invalid, result, hvalid, -, hresult, -, rfl⟩ := process_ok hprocess
    rw [hpoller] at hvalid hresult
    rw [pageDiff_eq] at hresult
    obtain ⟨latest, hlatest, hresult⟩ := bind_eq_ok.1 hresult
    by_cases hkey : identity ∈ latest.entries.map Prod.fst
    · obtain ⟨entry, hentry, rfl⟩ := List.mem_map.1 hkey
      obtain ⟨hitem, hid⟩ := mem_latestItems hlatest hentry
      exact ⟨entry.2, ⟨page.items, hpage, valid, invalid, hvalid, hitem⟩, hid⟩
    · exact absurd hmem (entriesDiff_keys hresult hkey)
  · exact h identity hold

theorem onlyListed_scan (hdrawn : Drawn poller listing pages)
    (hdone : (scanPages (pageDiff crypto) rec pages).failed = none)
    (h : OnlyListed poller listing rec.items) :
    OnlyListed poller listing (scanPages (pageDiff crypto) rec pages).stored.items := by
  induction pages generalizing rec with
  | nil => exact h
  | cons page pages ih =>
    obtain ⟨events, upserts, hprocess, hrest, hscan⟩ := scanPages_cons hdone
    obtain ⟨hpoller, hpage⟩ := hdrawn page List.mem_cons_self
    rw [hscan]
    exact ih hdrawn.tail hrest (onlyListed_page hpoller hpage hprocess h)

/-! ## Deletes -/

theorem mem_missing {seen : List IdentityValue} {identity : String} :
    identity ∈ rec.missing seen ↔ (rec.items.get identity).isSome ∧ .string identity ∉ seen := by
  rw [← OrderedMap.mem_keys_iff, ← streamIdentities_flatten rec, KeyRecord.missing,
    List.mem_flatMap, List.mem_flatten]
  constructor
  · rintro ⟨ids, hids, hmem⟩
    obtain ⟨hid, hunseen⟩ := mem_detectDeletes.1 hmem
    exact ⟨⟨ids, hids, hid⟩, hunseen⟩
  · rintro ⟨⟨ids, hids, hid⟩, hunseen⟩
    exact ⟨ids, hids, mem_detectDeletes.2 ⟨hid, hunseen⟩⟩

/-- What a full scan has seen is of the listing. -/
theorem listed_of_seen {c : PollCycle ι} (hover : c.Over listing) {identity : String}
    (h : .string identity ∈ c.seen poller) :
    ∃ item, Listed poller listing item ∧ identityOf poller item = .ok identity := by
  obtain ⟨p, hp, hmem⟩ := List.mem_flatMap.1 h
  unfold seenOf at hmem
  split at hmem
  · rename_i valid invalid hvalid
    obtain ⟨item, hitem, hid⟩ := List.mem_map.1 hmem
    refine ⟨item, ⟨p.2, hover.pages p hp, valid, invalid, hvalid, hitem⟩, ?_⟩
    rw [identityOf, hid]
  · cases hmem

/-- A full scan sees what is looked up on one of its pages. -/
theorem seen_of_page {c : PollCycle ι} {items : List ι} (hp : ∃ p ∈ c.pages, p.2 = items)
    {valid : List ι} {invalid : List (ι × List ValidationIssue)}
    (hvalid : validateItems poller items = .ok (valid, invalid)) {identity : IdentityValue}
    (hid : identity ∈ valid.map poller.identity) : identity ∈ c.seen poller := by
  obtain ⟨p, hp, rfl⟩ := hp
  refine List.mem_flatMap.2 ⟨p, hp, ?_⟩
  rw [seenOf, hvalid]
  exact hid

/-- A cycle that completed: its scan, and what is left of the rows. -/
theorem pollCycle_done {c : PollCycle ι} (h : (pollCycle (pageDiff crypto) poller rec c).failed = none) :
    (scanPages (pageDiff crypto) rec (c.pollPages poller)).failed = none ∧
      ∀ identity, (pollCycle (pageDiff crypto) poller rec c).stored.items.get identity =
        if c.fullScan = true ∧ .string identity ∉ c.seen poller then none
        else (scanPages (pageDiff crypto) rec (c.pollPages poller)).stored.items.get identity := by
  unfold pollCycle at h ⊢
  generalize scanPages (pageDiff crypto) rec (c.pollPages poller) = scanned at h ⊢
  by_cases hfull : c.fullScan = true ∧ scanned.failed = none
  · simp only [if_pos hfull, OrderedMap.get_eraseAll, mem_missing]
    refine ⟨hfull.2, fun identity => ?_⟩
    cases hrow : scanned.stored.items.get identity with
    | none => simp
    | some row => simp [hfull.1]
  · simp only [if_neg hfull] at h ⊢
    refine ⟨h, fun identity => ?_⟩
    have hlive : ¬c.fullScan = true := fun htrue => hfull ⟨htrue, h⟩
    simp [hlive]

/-- A row that a cycle does not delete is reflected as its scan left it. -/
theorem reflects_cycle {c : PollCycle ι}
    (hdone : (pollCycle (pageDiff crypto) poller rec c).failed = none) {item : ι}
    {identity : String} (hkept : c.fullScan = true → .string identity ∈ c.seen poller)
    (h : Reflects crypto poller
      (scanPages (pageDiff crypto) rec (c.pollPages poller)).stored.items (identity, item)) :
    Reflects crypto poller (pollCycle (pageDiff crypto) poller rec c).stored.items
      (identity, item) := by
  obtain ⟨row, hrow, hsettled⟩ := h
  refine ⟨row, ?_, hsettled⟩
  rw [(pollCycle_done hdone).2, if_neg fun hgone => hgone.2 (hkept hgone.1)]
  exact hrow

/-! ## Listings whose items are found again -/

/-- The pages of the listing can be processed. -/
def Accepted (poller : ResolvedPoller ι) (listing : List (List ι)) : Prop :=
  ∀ items ∈ listing, ∃ valid invalid, validateItems poller items = .ok (valid, invalid) ∧
    ¬(invalid ≠ [] ∧ poller.onInvalid = .fail) ∧
    ∀ item ∈ valid, ∃ identity, identityOf poller item = .ok identity

/-- A scan that completed has accepted its pages. -/
theorem accepted_scan (hdrawn : Drawn poller listing pages)
    (hdone : (scanPages (pageDiff crypto) rec pages).failed = none) :
    Accepted poller (pages.map (·.items)) := by
  induction pages generalizing rec with
  | nil =>
    intro items hitems
    cases hitems
  | cons page pages ih =>
    obtain ⟨events, upserts, hprocess, hrest, -⟩ := scanPages_cons hdone
    obtain ⟨hpoller, -⟩ := hdrawn page List.mem_cons_self
    intro items hitems
    rcases List.mem_cons.1 hitems with rfl | hitems
    · obtain ⟨valid, invalid, result, hvalid, hinvalid, hresult, -⟩ := process_ok hprocess
      rw [hpoller] at hvalid hinvalid hresult
      rw [pageDiff_eq] at hresult
      obtain ⟨latest, hlatest, -⟩ := bind_eq_ok.1 hresult
      refine ⟨valid, invalid, hvalid, hinvalid, fun item hitem => ?_⟩
      exact (mem_keys_latestItems hlatest hitem).imp fun _ hid => hid.1
    · exact ih hdrawn.tail hrest items hitems

/-- A page of known items that are found again emits nothing, and the items stay known. -/
theorem known_page (hone : OneContent crypto poller listing) (hfind : FindableListing poller listing)
    (haccepted : Accepted poller listing) {page : PollPage ι} (hpoller : page.poller = poller)
    (hpage : page.items ∈ listing) (hforce : page.force = false)
    (h : Known crypto poller listing rec.items) :
    ∃ upserts, page.process (pageDiff crypto) rec = .ok ([], upserts) ∧
      Known crypto poller listing (rec.items.setAll (·.identity) upserts) := by
  obtain ⟨valid, invalid, hvalid, hinvalid, hids⟩ := haccepted page.items hpage
  have hfound := hfind page.items hpage valid invalid hvalid
  have hreflects : ∀ item ∈ valid, ∃ identity, identityOf poller item = .ok identity ∧
      Reflects crypto poller rec.items (identity, item) := by
    intro item hitem
    obtain ⟨identity, hid⟩ := hids item hitem
    exact ⟨identity, hid, h item identity ⟨page.items, hpage, valid, invalid, hvalid, hitem⟩ hid⟩
  subst hpoller
  obtain ⟨upserts, hprocess, -⟩ := process_silent hforce hvalid hinvalid hfound hreflects
  refine ⟨upserts, hprocess, fun item identity hlisted hid => ?_⟩
  exact reflects_page hone rfl hpage hprocess hvalid hlisted hid (Or.inl (h item identity hlisted hid))

theorem scan_silent (hone : OneContent crypto poller listing) (hfind : FindableListing poller listing)
    (haccepted : Accepted poller listing) (hdrawn : Drawn poller listing pages)
    (hforce : ∀ page ∈ pages, page.force = false) (h : Known crypto poller listing rec.items) :
    (scanPages (pageDiff crypto) rec pages).failed = none ∧
      (scanPages (pageDiff crypto) rec pages).events = [] ∧
      Known crypto poller listing (scanPages (pageDiff crypto) rec pages).stored.items := by
  induction pages generalizing rec with
  | nil => exact ⟨rfl, rfl, h⟩
  | cons page pages ih =>
    obtain ⟨hpoller, hpage⟩ := hdrawn page List.mem_cons_self
    obtain ⟨upserts, hprocess, hknown⟩ := known_page hone hfind haccepted hpoller hpage
      (hforce page List.mem_cons_self) h
    rw [scanPages, hprocess]
    have hknown' : Known crypto poller listing
        ({ rec with items := rec.items.setAll (·.identity) upserts } : KeyRecord ι).items := hknown
    exact ih hdrawn.tail (fun p hp => hforce p (List.mem_cons_of_mem _ hp)) hknown'

/-- What holds between the cycles over a listing whose items are found again. -/
structure AtRest (crypto : Crypto) (poller : ResolvedPoller ι) (listing : List (List ι))
    (rec : KeyRecord ι) : Prop where
  known : Known crypto poller listing rec.items
  listed : OnlyListed poller listing rec.items

/-- Nothing is missing in a full scan of the listing. -/
theorem missing_eq_nil (hfind : FindableListing poller listing) {c : PollCycle ι}
    (hover : c.Over listing) (hfull : c.fullScan = true) (h : OnlyListed poller listing rec.items) :
    rec.missing (c.seen poller) = [] := by
  rw [List.eq_nil_iff_forall_not_mem]
  intro identity hmem
  obtain ⟨hstored, hunseen⟩ := mem_missing.1 hmem
  obtain ⟨item, ⟨items, hitems, valid, invalid, hvalid, hitem⟩, hid⟩ := h identity hstored
  have hfound := hfind items hitems valid invalid hvalid item hitem identity hid
  exact hunseen (seen_of_page (hover.all hfull items hitems) hvalid hfound)

/-- A cycle at rest is silent and stays at rest. -/
theorem AtRest.cycle (hone : OneContent crypto poller listing)
    (hfind : FindableListing poller listing) (haccepted : Accepted poller listing)
    {c : PollCycle ι} (hover : c.Over listing) (h : AtRest crypto poller listing rec) :
    (pollCycle (pageDiff crypto) poller rec c).events = [] ∧
      AtRest crypto poller listing (pollCycle (pageDiff crypto) poller rec c).stored := by
  have hforce : ∀ page ∈ c.pollPages poller, page.force = false := by
    intro page hpage
    obtain ⟨p, -, rfl⟩ := List.mem_map.1 hpage
    rfl
  obtain ⟨hdone, hquiet, hknown⟩ := scan_silent hone hfind haccepted hover.drawn hforce h.known
  have honly := onlyListed_scan hover.drawn hdone h.listed
  unfold pollCycle
  by_cases hfull : c.fullScan = true
  · have hnone := missing_eq_nil hfind hover hfull honly
    simp only [if_pos (And.intro hfull hdone), hnone, hquiet, KeyRecord.deleteSpecs]
    exact ⟨rfl, hknown, honly⟩
  · have hlive : ¬(c.fullScan = true ∧
        (scanPages (pageDiff crypto) rec (c.pollPages poller)).failed = none) := fun h => hfull h.1
    simp only [if_neg hlive]
    exact ⟨hquiet, hknown, honly⟩

theorem AtRest.cycles (hone : OneContent crypto poller listing)
    (hfind : FindableListing poller listing) (haccepted : Accepted poller listing)
    {cycles : List (PollCycle ι)} (hover : ∀ c ∈ cycles, c.Over listing)
    (h : AtRest crypto poller listing rec) :
    ∀ events ∈ pollCycles (pageDiff crypto) poller rec cycles, events = [] := by
  induction cycles generalizing rec with
  | nil => simp [pollCycles]
  | cons c cycles ih =>
    obtain ⟨hquiet, hrest⟩ := h.cycle hone hfind haccepted (hover c List.mem_cons_self)
    intro events hevents
    rcases List.mem_cons.1 hevents with rfl | hevents
    · exact hquiet
    · exact ih (fun c' hc' => hover c' (List.mem_cons_of_mem _ hc')) hrest events hevents

/-- A cycle covers the listing: it fetches each of its pages. -/
def PollCycle.Covers (c : PollCycle ι) (listing : List (List ι)) : Prop :=
  ∀ items ∈ listing, ∃ p ∈ c.pages, p.2 = items

theorem PollCycle.Covers.page {c : PollCycle ι} (h : c.Covers listing) (poller : ResolvedPoller ι)
    {items : List ι} (hitems : items ∈ listing) :
    ∃ page ∈ c.pollPages poller, page.items = items := by
  obtain ⟨p, hp, rfl⟩ := h items hitems
  exact ⟨_, List.mem_map_of_mem hp, rfl⟩

/-- A cycle that covers the listing and completes has accepted it. -/
theorem accepted_cycle {c : PollCycle ι} (hover : c.Over listing) (hcovers : c.Covers listing)
    (hdone : (pollCycle (pageDiff crypto) poller rec c).failed = none) :
    Accepted poller listing := by
  intro items hitems
  obtain ⟨page, hpage, rfl⟩ := hcovers.page poller hitems
  exact accepted_scan hover.drawn (pollCycle_done hdone).1 page.items (List.mem_map_of_mem hpage)

/-- An item of the listing is reflected by a cycle that covers it and does not delete its row. -/
theorem reflects_covered (hone : OneContent crypto poller listing) {c : PollCycle ι}
    (hover : c.Over listing) (hcovers : c.Covers listing)
    (hdone : (pollCycle (pageDiff crypto) poller rec c).failed = none) {item : ι}
    (hlisted : Listed poller listing item) {identity : String}
    (hid : identityOf poller item = .ok identity)
    (hkept : c.fullScan = true → .string identity ∈ c.seen poller) :
    Reflects crypto poller (pollCycle (pageDiff crypto) poller rec c).stored.items
      (identity, item) := by
  have hlisted' := hlisted
  obtain ⟨items, hitems, valid, invalid, hvalid, hitem⟩ := hlisted'
  obtain ⟨page, hpage, rfl⟩ := hcovers.page poller hitems
  exact reflects_cycle hdone hkept (reflects_scan hone hover.drawn (pollCycle_done hdone).1 hlisted
    hid (Or.inr ⟨page, hpage, valid, invalid, hvalid, hitem⟩))

/-- After a first cycle over a listing whose items are found again, the store is at rest. -/
theorem atRest_first (hone : OneContent crypto poller listing)
    (hfind : FindableListing poller listing) {c : PollCycle ι} (hover : c.Over listing)
    (hcovers : c.Covers listing) (hrows : c.fullScan = true ∨ OnlyListed poller listing rec.items)
    (hdone : (pollCycle (pageDiff crypto) poller rec c).failed = none) :
    AtRest crypto poller listing (pollCycle (pageDiff crypto) poller rec c).stored := by
  constructor
  · intro item identity hlisted hid
    refine reflects_covered hone hover hcovers hdone hlisted hid fun _ => ?_
    obtain ⟨items, hitems, valid, invalid, hvalid, hitem⟩ := hlisted
    have hfound := hfind items hitems valid invalid hvalid item hitem identity hid
    exact seen_of_page (hcovers items hitems) hvalid hfound
  · intro identity hstored
    obtain ⟨hscan, hget⟩ := pollCycle_done hdone
    rw [hget] at hstored
    split at hstored
    · cases hstored
    · rename_i hleft
      rcases hrows with hfull | honly
      · have hseen : .string identity ∈ c.seen poller := by
          by_contra hunseen
          exact hleft ⟨hfull, hunseen⟩
        exact listed_of_seen hover hseen
      · exact onlyListed_scan hover.drawn hscan honly identity hstored

/-! ## Listings with items that are not found again -/

/-- The latest items of the pages can be processed again: they can be hashed, or their rows are
found and reflect them. -/
def Repeatable (crypto : Crypto) (poller : ResolvedPoller ι) (listing : List (List ι))
    (rows : OrderedMap String (ItemRow ι)) : Prop :=
  ∀ items ∈ listing, ∀ valid invalid, validateItems poller items = .ok (valid, invalid) →
    ∀ latest, latestItems poller valid = .ok latest → ∀ entry ∈ latest.entries,
      (∃ hash, fingerprintOf crypto poller entry.2 = .ok hash) ∨
        (.string entry.1 ∈ valid.map poller.identity ∧ Reflects crypto poller rows entry)

/-- Of the items of a page that did not fail, each was hashed or skipped. -/
theorem entriesDiff_hashed {existing : OrderedMap String (ItemRow ι)} {now : Int} {touch : Bool}
    {entries : List (String × ι)} {d : DiffResult ι}
    (h : entriesDiff crypto poller existing now touch false entries = .ok d) :
    ∀ entry ∈ entries, (∃ hash, fingerprintOf crypto poller entry.2 = .ok hash) ∨
      (existing.get entry.1).isSome := by
  induction entries generalizing d with
  | nil => simp
  | cons entry entries ih =>
    obtain ⟨first, rest, hfirst, hrest, rfl⟩ := entriesDiff_cons_ok h
    intro e he
    rcases List.mem_cons.1 he with rfl | he
    · by_cases hfast : fastPath poller (poller.version.map fun f => f e.2) (existing.get e.1) =
          true
      · obtain ⟨row, v, hrow, -⟩ := fastPath_iff.1 hfast
        exact Or.inr (by simp [hrow])
      · obtain ⟨hash, hhash, -⟩ := entryDiff_ok (fun hskip => hfast hskip.2) hfirst
        exact Or.inl ⟨hash, hhash⟩
    · exact ih hrest e he

/-- Items that can be hashed, or whose rows reflect them, do not fail. -/
theorem entriesDiff_total (now : Int) (touch : Bool)
    {existing : OrderedMap String (ItemRow ι)} {entries : List (String × ι)}
    (h : ∀ entry ∈ entries, (∃ hash, fingerprintOf crypto poller entry.2 = .ok hash) ∨
      Reflects crypto poller existing entry) :
    ∃ d, entriesDiff crypto poller existing now touch false entries = .ok d := by
  induction entries with
  | nil => exact ⟨{}, rfl⟩
  | cons entry entries ih =>
    obtain ⟨rest, hrest⟩ := ih fun e he => h e (List.mem_cons_of_mem _ he)
    have hfirst : ∃ first, entryDiff crypto poller existing now touch false entry = .ok first := by
      rcases h entry List.mem_cons_self with ⟨hash, hhash⟩ | hreflects
      · rw [entryDiff]
        split
        · exact ⟨{}, rfl⟩
        · simp only [candidateOf, hhash]
          exact ⟨_, rfl⟩
      · obtain ⟨first, hfirst, -⟩ := entryDiff_silent now touch hreflects
        exact ⟨first, hfirst⟩
    obtain ⟨first, hfirst⟩ := hfirst
    refine ⟨first.append rest, ?_⟩
    rw [entriesDiff, hfirst, hrest]
    rfl

/-- A page without changes has found the rows of all its latest items. -/
theorem found_of_silent {existing : OrderedMap String (ItemRow ι)} {now : Int} {touch : Bool}
    {entries : List (String × ι)} {d : DiffResult ι}
    (h : entriesDiff crypto poller existing now touch false entries = .ok d)
    (hquiet : d.changes = []) : ∀ entry ∈ entries, (existing.get entry.1).isSome := by
  induction entries generalizing d with
  | nil => simp
  | cons entry entries ih =>
    obtain ⟨first, rest, hfirst, hrest, rfl⟩ := entriesDiff_cons_ok h
    obtain ⟨hquiet₁, hquiet₂⟩ := List.append_eq_nil_iff.1 hquiet
    intro e he
    rcases List.mem_cons.1 he with rfl | he
    · cases hrow : existing.get e.1 with
      | some row => rfl
      | none =>
        -- an item without a row is created
        have hskip : ¬(¬false = true ∧ fastPath poller (poller.version.map fun f => f e.2)
            (existing.get e.1) = true) := by simp [hrow, fastPath]
        obtain ⟨hash, -, rfl⟩ := entryDiff_ok hskip hfirst
        simp [diffCandidate, hrow] at hquiet₁
    · exact ih hrest hquiet₂ e he

/-- A page that is repeatable and not forced: it does not fail, and if it is silent, its items are found. -/
theorem repeatable_page (haccepted : Accepted poller listing) {page : PollPage ι}
    (hpoller : page.poller = poller) (hpage : page.items ∈ listing) (hforce : page.force = false)
    (h : Repeatable crypto poller listing rec.items) :
    ∃ events upserts, page.process (pageDiff crypto) rec = .ok (events, upserts) ∧
      (events = [] → ∀ valid invalid, validateItems poller page.items = .ok (valid, invalid) →
        Findable poller valid) := by
  subst hpoller
  obtain ⟨valid, invalid, hvalid, hinvalid, hids⟩ := haccepted page.items hpage
  obtain ⟨latest, hlatest⟩ := latestItems_ok hids
  have hloaded : ∀ entry ∈ latest.entries,
      (∃ hash, fingerprintOf crypto page.poller entry.2 = .ok hash) ∨
        Reflects crypto page.poller (rec.loadVersions (valid.map page.poller.identity)) entry := by
    intro entry hentry
    rcases h page.items hpage valid invalid hvalid latest hlatest entry hentry with
      hhash | ⟨hfound, row, hrow, hsettled⟩
    · exact Or.inl hhash
    · refine Or.inr ⟨row, ?_, hsettled⟩
      rw [get_loadVersions, if_pos hfound]
      exact hrow
  obtain ⟨result, hresult⟩ := entriesDiff_total page.now page.fullScan hloaded
  have hprocess : page.process (pageDiff crypto) rec =
      .ok (result.changes.map changeSpec, result.upserts) := by
    rw [process_of_valid hvalid hinvalid, PollPage.diff, pageDiff_eq, hlatest]
    simp [bind, Except.bind, hresult, hforce, pure, Except.pure]
  refine ⟨_, _, hprocess, ?_⟩
  intro hquiet valid' invalid' hvalid' item hitem identity hid
  rw [hvalid] at hvalid'
  obtain ⟨rfl, rfl⟩ := Prod.mk.inj (Except.ok.inj hvalid')
  obtain ⟨identity', hid', hkey⟩ := mem_keys_latestItems hlatest hitem
  rw [hid] at hid'
  obtain rfl := Except.ok.inj hid'
  obtain ⟨entry, hentry, rfl⟩ := List.mem_map.1 hkey
  have hrow := found_of_silent hresult (List.map_eq_nil_iff.1 hquiet) entry hentry
  rw [get_loadVersions] at hrow
  split at hrow
  · assumption
  · cases hrow

/-- What is repeatable stays so when a page of the listing is committed. -/
theorem Repeatable.page (hone : OneContent crypto poller listing) {page : PollPage ι}
    (hpoller : page.poller = poller) (hpage : page.items ∈ listing) {events : List (EventSpec ι)}
    {upserts : List (ItemRow ι)}
    (hprocess : page.process (pageDiff crypto) rec = .ok (events, upserts))
    (h : Repeatable crypto poller listing rec.items) :
    Repeatable crypto poller listing (rec.items.setAll (·.identity) upserts) := by
  intro items hitems valid invalid hvalid latest hlatest entry hentry
  refine (h items hitems valid invalid hvalid latest hlatest entry hentry).imp id ?_
  rintro ⟨hfound, hreflects⟩
  obtain ⟨hitem, hid⟩ := mem_latestItems hlatest hentry
  obtain ⟨valid', invalid', -, hvalid', -⟩ := process_ok hprocess
  rw [hpoller] at hvalid'
  exact ⟨hfound, reflects_page hone hpoller hpage hprocess hvalid'
    ⟨items, hitems, valid, invalid, hvalid, hitem⟩ hid (Or.inl hreflects)⟩

/-- A scan that is silent has found the items of all its pages. -/
theorem findable_of_silent (hone : OneContent crypto poller listing)
    (haccepted : Accepted poller listing) (hdrawn : Drawn poller listing pages)
    (hforce : ∀ page ∈ pages, page.force = false) (h : Repeatable crypto poller listing rec.items)
    (hquiet : (scanPages (pageDiff crypto) rec pages).events = []) :
    FindableListing poller (pages.map (·.items)) := by
  induction pages generalizing rec with
  | nil =>
    intro items hitems
    cases hitems
  | cons page pages ih =>
    obtain ⟨hpoller, hpage⟩ := hdrawn page List.mem_cons_self
    obtain ⟨events, upserts, hprocess, hfound⟩ := repeatable_page haccepted hpoller hpage
      (hforce page List.mem_cons_self) h
    rw [scanPages, hprocess] at hquiet
    obtain ⟨hnone, hrest⟩ := List.append_eq_nil_iff.1 hquiet
    intro items hitems
    rcases List.mem_cons.1 hitems with rfl | hitems
    · exact hfound hnone
    · exact ih hdrawn.tail (fun p hp => hforce p (List.mem_cons_of_mem _ hp))
        (h.page hone hpoller hpage hprocess) hrest items hitems

/-- Of the latest items of the pages of a scan that completed, each was hashed or found. -/
theorem hashed_scan (hdrawn : Drawn poller listing pages)
    (hdone : (scanPages (pageDiff crypto) rec pages).failed = none) :
    ∀ page ∈ pages, ∀ valid invalid, validateItems poller page.items = .ok (valid, invalid) →
      ∀ latest, latestItems poller valid = .ok latest → ∀ entry ∈ latest.entries,
        (∃ hash, fingerprintOf crypto poller entry.2 = .ok hash) ∨
          .string entry.1 ∈ valid.map poller.identity := by
  induction pages generalizing rec with
  | nil => simp
  | cons page pages ih =>
    obtain ⟨events, upserts, hprocess, hrest, -⟩ := scanPages_cons hdone
    obtain ⟨hpoller, -⟩ := hdrawn page List.mem_cons_self
    intro page' hpage' valid invalid hvalid latest hlatest entry hentry
    rcases List.mem_cons.1 hpage' with rfl | hpage'
    · obtain ⟨valid', invalid', result, hvalid', -, hresult, -⟩ := process_ok hprocess
      rw [hpoller] at hvalid' hresult
      rw [hvalid] at hvalid'
      obtain ⟨rfl, rfl⟩ := Prod.mk.inj (Except.ok.inj hvalid')
      rw [pageDiff_eq, hlatest] at hresult
      refine (entriesDiff_hashed hresult entry hentry).imp id fun hrow => ?_
      rw [get_loadVersions] at hrow
      split at hrow
      · assumption
      · cases hrow
    · exact ih hdrawn.tail hrest page' hpage' valid invalid hvalid latest hlatest entry hentry

/-- After a first cycle that covers the listing, its pages are repeatable. -/
theorem repeatable_first (hone : OneContent crypto poller listing) {c : PollCycle ι}
    (hover : c.Over listing) (hcovers : c.Covers listing)
    (hdone : (pollCycle (pageDiff crypto) poller rec c).failed = none) :
    Repeatable crypto poller listing
      (pollCycle (pageDiff crypto) poller rec c).stored.items := by
  intro items hitems valid invalid hvalid latest hlatest entry hentry
  obtain ⟨hitem, hid⟩ := mem_latestItems hlatest hentry
  obtain ⟨page, hpage, rfl⟩ := hcovers.page poller hitems
  refine (hashed_scan hover.drawn (pollCycle_done hdone).1 page hpage valid invalid hvalid latest
    hlatest entry hentry).imp id fun hfound => ⟨hfound, ?_⟩
  exact reflects_covered hone hover hcovers hdone ⟨_, hitems, valid, invalid, hvalid, hitem⟩ hid
    fun _ => seen_of_page (hcovers _ hitems) hvalid hfound

end

/-! ## The result -/

/-- The cycle of a live lane that fetches all pages of a listing. -/
def liveCycle (listing : List (List ι)) : PollCycle ι where
  fullScan := false
  pages := listing.map fun items => (0, items)

theorem liveCycle_items (listing : List (List ι)) (poller : ResolvedPoller ι) :
    ((liveCycle listing).pollPages poller).map (·.items) = listing := by
  simp [liveCycle, PollCycle.pollPages, Function.comp_def]

/-- After a first cycle that fetched an unchanged listing, all later cycles are silent if and only if
the coerced identity of each item is the string identity of some item of its page. -/
theorem coercion_silent_iff (crypto : Crypto) (poller : ResolvedPoller ι)
    (listing : List (List ι)) (hone : OneContent crypto poller listing) (rec : KeyRecord ι)
    (first : PollCycle ι) (hover : first.Over listing) (hcovers : first.Covers listing)
    (hrows : first.fullScan = true ∨ OnlyListed poller listing rec.items)
    (hdone : (pollCycle (pageDiff crypto) poller rec first).failed = none) :
    (∀ later : List (PollCycle ι), (∀ c ∈ later, c.Over listing) →
      ∀ events ∈ pollCycles (pageDiff crypto) poller
        (pollCycle (pageDiff crypto) poller rec first).stored later, events = []) ↔
    FindableListing poller listing := by
  have haccepted := accepted_cycle hover hcovers hdone
  constructor
  · intro hsilent
    have hlive : (liveCycle listing).Over listing := by
      refine ⟨fun p hp => ?_, nofun⟩
      obtain ⟨items, hitems, rfl⟩ := List.mem_map.1 hp
      exact hitems
    have hforce : ∀ page ∈ (liveCycle listing).pollPages poller, page.force = false := by
      intro page hpage
      obtain ⟨p, -, rfl⟩ := List.mem_map.1 hpage
      rfl
    have hquiet := hsilent [liveCycle listing] (by simpa using hlive) _ (List.mem_singleton.2 rfl)
    have hfound := findable_of_silent hone haccepted hlive.drawn hforce
      (repeatable_first hone hover hcovers hdone) hquiet
    rwa [liveCycle_items] at hfound
  · intro hfind later hlater
    exact (atRest_first hone hfind hover hcovers hrows hdone).cycles hone hfind haccepted hlater

/-- Identities that are numbers. -/
def numberPoller : ResolvedPoller Sample :=
  { samplePoller with identity := fun item => .number item.1 }

/-- A number is stored under its text and never found again: each live cycle creates it anew, each
full scan deletes it as well. -/
theorem coercion_repeats :
    let listing : List (List Sample) := [[("7", "x")]]
    let first := pollCycle (pageDiff sampleCrypto) numberPoller
      (KeyRecord.fresh { poller := "orders", partition := "" }) (liveCycle listing)
    let sweep : PollCycle Sample := { fullScan := true, pages := [(0, [("7", "x")])] }
    (first.failed = none ∧ numberPoller.identity ("7", "x") = .number "7") ∧
      (pollCycles (pageDiff sampleCrypto) numberPoller first.stored [liveCycle listing]).map
        (·.map (·.type)) = [[.created]] ∧
      (pollCycles (pageDiff sampleCrypto) numberPoller first.stored [sweep]).map
        (·.map (·.type)) = [[.created, .deleted]] := by
  refine ⟨⟨rfl, rfl⟩, rfl, rfl⟩

/-- With string identities the later cycles of two pages are silent. -/
theorem coercion_silent_iff_sample :
    let listing : List (List Sample) := [[("a", "1")], [("b", "2")]]
    let first : PollCycle Sample :=
      { fullScan := true, pages := [(0, [("a", "1")]), (1, [("b", "2")])] }
    let stored := (pollCycle (pageDiff sampleCrypto) versionedPoller
      (KeyRecord.fresh { poller := "orders", partition := "" }) first).stored
    (∀ later : List (PollCycle Sample), (∀ c ∈ later, c.Over listing) →
      ∀ events ∈ pollCycles (pageDiff sampleCrypto) versionedPoller stored later, events = []) ↔
    FindableListing versionedPoller listing := by
  intro listing first stored
  have hone : OneContent sampleCrypto versionedPoller listing :=
    versionedPoller_oneContent (by simp [listing])
  have hover : first.Over listing := ⟨by simp [first, listing], by simp [first, listing]⟩
  have hcovers : first.Covers listing := by simp [PollCycle.Covers, first, listing]
  exact coercion_silent_iff sampleCrypto versionedPoller listing hone _ first hover hcovers
    (Or.inl rfl) rfl

end Watukuy
