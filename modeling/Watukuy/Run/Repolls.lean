import Watukuy.Run.FastPath

/-!
# Polling a page again

A commit of a page settles its items: the stored row of each is of the schema of the poller and has
the version of the item, and its hash where there is no version to go by. Pages of a listing in which
each identity has one content keep what is settled, and a settled page changes nothing.
-/

set_option autoImplicit false

namespace Watukuy

open Library

variable {ι : Type}

/-- What a row records of the content of its item. -/
def ItemRow.mark (row : ItemRow ι) : String × Option String × Nat :=
  (row.hash, row.version, row.schemaVersion)

/-- What the store records of the contents of the items. -/
def marks (items : OrderedMap String (ItemRow ι)) : String → Option (String × Option String × Nat) :=
  fun identity => (items.get identity).map (·.mark)

/-- The row of an item that is not changed by processing the item again. -/
structure SettledBy (crypto : Crypto) (poller : ResolvedPoller ι) (item : ι) (row : ItemRow ι) :
    Prop where
  schema : row.schemaVersion = poller.schemaVersion
  version : row.version = poller.version.map fun f => f item
  hashed : poller.version = none → fingerprintOf crypto poller item = .ok row.hash

/-- The stored rows reflect a latest item of a page. -/
def Reflects (crypto : Crypto) (poller : ResolvedPoller ι) (items : OrderedMap String (ItemRow ι))
    (entry : String × ι) : Prop :=
  ∃ row, items.get entry.1 = some row ∧ SettledBy crypto poller entry.2 row

/-- Two items with the same content. -/
structure SameContent (crypto : Crypto) (poller : ResolvedPoller ι) (a b : ι) : Prop where
  fingerprint : fingerprintOf crypto poller a = fingerprintOf crypto poller b
  version : (poller.version.map fun f => f a) = poller.version.map fun f => f b

/-- The items of a page are looked up under the identities they are stored under. -/
def Findable (poller : ResolvedPoller ι) (valid : List ι) : Prop :=
  ∀ item ∈ valid, ∀ identity, identityOf poller item = .ok identity →
    .string identity ∈ valid.map poller.identity

section
variable {crypto : Crypto} {poller : ResolvedPoller ι} {existing items : OrderedMap String (ItemRow ι)}
  {now : Int} {touch : Bool}

theorem StringIdentities.findable (h : StringIdentities poller) (valid : List ι) :
    Findable poller valid := by
  intro item hitem identity hid
  rw [← identityOf_string h hid]
  exact List.mem_map_of_mem hitem

theorem SettledBy.congr {a b : ι} {row : ItemRow ι} (h : SettledBy crypto poller a row)
    (hsame : SameContent crypto poller a b) : SettledBy crypto poller b row where
  schema := h.schema
  version := h.version.trans hsame.version
  hashed hnone := hsame.fingerprint ▸ h.hashed hnone

/-! ## What a page settles -/

/-- A row that is written for an item settles it. -/
theorem settledBy_rowFor (now : Int) {entry : String × ι} {hash : String}
    (hhash : fingerprintOf crypto poller entry.2 = .ok hash) :
    SettledBy crypto poller entry.2 (rowFor poller
      { identity := entry.1, item := entry.2,
        version := (poller.version.map fun f => f entry.2), hash } now) where
  schema := rfl
  version := rfl
  hashed _ := hhash

/-- An item writes its row, or is settled already. -/
theorem entryDiff_writes {entry : String × ι} {d : DiffResult ι}
    (h : entryDiff crypto poller existing now touch false entry = .ok d) :
    (d.upserts = [] ∧ Reflects crypto poller existing entry) ∨
      ∃ row, d.upserts = [row] ∧ row.identity = entry.1 ∧ SettledBy crypto poller entry.2 row := by
  by_cases hfast : fastPath poller (poller.version.map fun f => f entry.2) (existing.get entry.1) =
      true
  · left
    obtain ⟨row, v, hrow, hv, hversion, hschema⟩ := fastPath_iff.1 hfast
    rw [entryDiff, if_pos ⟨by simp, hfast⟩] at h
    cases h
    refine ⟨rfl, row, hrow, hschema, hversion.trans hv.symm, fun hnoversion => ?_⟩
    rw [hnoversion] at hv
    cases hv
  · obtain ⟨hash, hhash, rfl⟩ := entryDiff_ok (fun hskip => hfast hskip.2) h
    have hwritten := settledBy_rowFor now hhash
    simp only [diffCandidate]
    split
    · exact Or.inr ⟨_, rfl, rfl, hwritten⟩
    · rename_i row hrow
      split
      · exact Or.inr ⟨_, rfl, rfl, hwritten⟩
      · split
        · exact Or.inr ⟨_, rfl, rfl, hwritten⟩
        · rename_i hsame
          split
          · exact Or.inr ⟨_, rfl, rfl, hwritten⟩
          · rename_i hschema
            dsimp only
            split
            · exact Or.inr ⟨_, rfl, rfl, hwritten⟩
            · rename_i huntouched
              -- the hash, the schema and the version of the row are those of the item
              rw [not_ne_iff] at hsame hschema
              rw [not_or, not_ne_iff] at huntouched
              exact Or.inl ⟨rfl, row, hrow, hschema, huntouched.2, fun _ => by rw [hhash, hsame]⟩

/-- The row an item leaves settles it. -/
theorem entryDiff_reflects {entry : String × ι} {d : DiffResult ι}
    (hrow : ∀ row, existing.get entry.1 = some row → items.get entry.1 = some row)
    (h : entryDiff crypto poller existing now touch false entry = .ok d) :
    Reflects crypto poller (items.setAll (·.identity) d.upserts) entry := by
  rcases entryDiff_writes h with ⟨hnone, row, hget, hsettled⟩ | ⟨row, hone, hid, hsettled⟩
  · rw [hnone]
    exact ⟨row, hrow row hget, hsettled⟩
  · rw [hone]
    refine ⟨row, ?_, hsettled⟩
    rw [← hid]
    exact OrderedMap.get_set_self items row.identity row

theorem entryDiff_keys {entry : String × ι} {d : DiffResult ι}
    (h : entryDiff crypto poller existing now touch false entry = .ok d) {identity : String}
    (hid : identity ≠ entry.1) : identity ∉ d.upserts.map (·.identity) := by
  rcases entryDiff_writes h with ⟨hnone, -⟩ | ⟨row, hone, hrow, -⟩
  · simp [hnone]
  · rw [hone, List.map_singleton, List.mem_singleton, hrow]
    exact hid

/-- A page writes rows of its identities only. -/
theorem entriesDiff_keys {entries : List (String × ι)} {d : DiffResult ι}
    (h : entriesDiff crypto poller existing now touch false entries = .ok d) {identity : String}
    (hid : identity ∉ entries.map Prod.fst) : identity ∉ d.upserts.map (·.identity) := by
  induction entries generalizing d with
  | nil =>
    cases h
    simp
  | cons entry entries ih =>
    obtain ⟨first, rest, hfirst, hrest, rfl⟩ := entriesDiff_cons_ok h
    rw [List.map_cons, List.mem_cons, not_or] at hid
    have hupserts : (first.append rest).upserts = first.upserts ++ rest.upserts := rfl
    rw [hupserts, List.map_append, List.mem_append, not_or]
    exact ⟨entryDiff_keys hfirst hid.1, ih hrest hid.2⟩

/-- After the page, the row of each of its latest items settles the item. -/
theorem entriesDiff_reflects (items : OrderedMap String (ItemRow ι))
    {entries : List (String × ι)} {d : DiffResult ι} (hnodup : (entries.map Prod.fst).Nodup)
    (hrows : ∀ entry ∈ entries, ∀ row, existing.get entry.1 = some row →
      items.get entry.1 = some row)
    (h : entriesDiff crypto poller existing now touch false entries = .ok d) :
    ∀ entry ∈ entries, Reflects crypto poller (items.setAll (·.identity) d.upserts) entry := by
  induction entries generalizing d items with
  | nil => simp
  | cons entry entries ih =>
    obtain ⟨first, rest, hfirst, hrest, rfl⟩ := entriesDiff_cons_ok h
    rw [List.map_cons, List.nodup_cons] at hnodup
    have hupserts : items.setAll (·.identity) (first.append rest).upserts =
        (items.setAll (·.identity) first.upserts).setAll (·.identity) rest.upserts :=
      setAll_append ..
    rw [hupserts]
    intro e he
    rcases List.mem_cons.1 he with rfl | he
    · -- the rest of the page leaves the first row alone
      obtain ⟨row, hget, hsettled⟩ := entryDiff_reflects (hrows e List.mem_cons_self) hfirst
      refine ⟨row, ?_, hsettled⟩
      rw [OrderedMap.get_setAll_of_not_mem _ _ _ (entriesDiff_keys hrest hnodup.1)]
      exact hget
    · refine ih _ hnodup.2 (fun e' he' => ?_) hrest e he
      have hne : e'.1 ≠ entry.1 := by
        intro heq
        exact hnodup.1 (heq ▸ List.mem_map_of_mem he')
      rw [OrderedMap.get_setAll_of_not_mem _ _ _ (entryDiff_keys hfirst hne)]
      exact hrows e' (List.mem_cons_of_mem _ he')

/-! ## A settled page -/

/-- A settled item changes nothing: a row that is written records what the stored one does. -/
theorem entryDiff_silent (now : Int) (touch : Bool) {entry : String × ι}
    (hsettled : Reflects crypto poller existing entry) :
    ∃ d, entryDiff crypto poller existing now touch false entry = .ok d ∧ d.changes = [] ∧
      ∀ row ∈ d.upserts, marks existing row.identity = some row.mark := by
  obtain ⟨row, hget, hrow⟩ := hsettled
  cases hselector : poller.version with
  | some version =>
    have hfast : fastPath poller (poller.version.map fun f => f entry.2) (existing.get entry.1) =
        true := by
      refine fastPath_iff.2 ⟨row, version entry.2, hget, ?_, ?_, hrow.schema⟩
      · rw [hselector]
        rfl
      · rw [hrow.version, hselector]
        rfl
    exact ⟨{}, if_pos ⟨by simp, hfast⟩, rfl, by simp⟩
  | none =>
    have hhash := hrow.hashed hselector
    have hversion : row.version = none := by rw [hrow.version, hselector]; rfl
    have hskip : ¬(¬false = true ∧ fastPath poller (poller.version.map fun f => f entry.2)
        (existing.get entry.1) = true) := by
      simp [hselector, hget, fastPath]
    refine ⟨diffCandidate poller existing now touch
      { identity := entry.1, item := entry.2, version := none, hash := row.hash }, ?_, ?_, ?_⟩
    · rw [entryDiff, if_neg hskip]
      simp only [candidateOf, hhash, hselector]
      rfl
    · simp [diffCandidate, hget, hrow.schema]
    · intro row' hrow'
      obtain rfl := mem_diffCandidate_upserts hrow'
      simp [marks, rowFor, hget, ItemRow.mark, hversion, hrow.schema]

theorem entriesDiff_silent (now : Int) (touch : Bool) {entries : List (String × ι)}
    (hsettled : ∀ entry ∈ entries, Reflects crypto poller existing entry) :
    ∃ d, entriesDiff crypto poller existing now touch false entries = .ok d ∧ d.changes = [] ∧
      ∀ row ∈ d.upserts, marks existing row.identity = some row.mark := by
  induction entries with
  | nil => exact ⟨{}, rfl, rfl, by simp⟩
  | cons entry entries ih =>
    obtain ⟨first, hfirst, hquiet, hmarks⟩ := entryDiff_silent now touch
      (hsettled entry List.mem_cons_self)
    obtain ⟨rest, hrest, hquiet', hmarks'⟩ := ih fun e he => hsettled e (List.mem_cons_of_mem _ he)
    refine ⟨first.append rest, ?_, ?_, ?_⟩
    · rw [entriesDiff, hfirst, hrest]
      rfl
    · simp [DiffResult.append, hquiet, hquiet']
    · intro row hrow
      rcases List.mem_append.1 hrow with hrow | hrow
      · exact hmarks row hrow
      · exact hmarks' row hrow

/-- Rows that record what the stored ones do leave what is recorded. -/
theorem marks_setAll {rows : List (ItemRow ι)}
    (h : ∀ row ∈ rows, marks items row.identity = some row.mark) :
    marks (items.setAll (·.identity) rows) = marks items := by
  induction rows generalizing items with
  | nil => rfl
  | cons row rows ih =>
    have hfirst : marks (items.set row.identity row) = marks items := by
      funext identity
      simp only [marks, OrderedMap.get_set]
      split
      · rename_i hid
        rw [hid]
        exact (h row List.mem_cons_self).symm
      · rfl
    have hstep : items.setAll (·.identity) (row :: rows) =
        (items.set row.identity row).setAll (·.identity) rows := rfl
    rw [hstep, ih, hfirst]
    intro row' hrow'
    rw [hfirst]
    exact h row' (List.mem_cons_of_mem _ hrow')

/-! ## Pages of a listing -/

theorem foldlM_kept {valid : List ι} {m m' : OrderedMap String ι}
    (h : valid.foldlM (fun m item => do return m.set (← identityOf poller item) item) m = .ok m') :
    (∀ key, (m.get key).isSome → (m'.get key).isSome) ∧
      ∀ item ∈ valid, ∃ identity, identityOf poller item = .ok identity ∧
        (m'.get identity).isSome := by
  induction valid generalizing m with
  | nil =>
    cases h
    exact ⟨fun _ hkey => hkey, by simp⟩
  | cons item valid ih =>
    rw [List.foldlM_cons] at h
    obtain ⟨m₁, hm₁, h⟩ := bind_eq_ok.1 h
    obtain ⟨identity, hid, hm₁⟩ := bind_eq_ok.1 hm₁
    obtain rfl := Except.ok.inj hm₁
    obtain ⟨hkept, hfound⟩ := ih h
    refine ⟨fun key hkey => hkept key ?_, fun x hx => ?_⟩
    · rw [OrderedMap.get_set]
      split
      · rfl
      · exact hkey
    · rcases List.mem_cons.1 hx with rfl | hx
      · exact ⟨identity, hid, hkept identity (by simp)⟩
      · exact hfound x hx

/-- Each item of a page has an entry among the latest ones. -/
theorem mem_keys_latestItems {valid : List ι} {latest : OrderedMap String ι}
    (h : latestItems poller valid = .ok latest) {item : ι} (hitem : item ∈ valid) :
    ∃ identity, identityOf poller item = .ok identity ∧
      identity ∈ latest.entries.map Prod.fst := by
  obtain ⟨identity, hid, hfound⟩ := (foldlM_kept h).2 item hitem
  exact ⟨identity, hid, (latest.mem_keys_iff identity).2 hfound⟩

/-- Items that all have identities have latest items. -/
theorem latestItems_ok {valid : List ι}
    (h : ∀ item ∈ valid, ∃ identity, identityOf poller item = .ok identity) :
    ∃ latest, latestItems poller valid = .ok latest := by
  unfold latestItems
  generalize (OrderedMap.empty : OrderedMap String ι) = start
  induction valid generalizing start with
  | nil => exact ⟨start, rfl⟩
  | cons item valid ih =>
    obtain ⟨identity, hid⟩ := h item List.mem_cons_self
    obtain ⟨latest, hlatest⟩ := ih (fun x hx => h x (List.mem_cons_of_mem _ hx))
      (start.set identity item)
    refine ⟨latest, ?_⟩
    rw [List.foldlM_cons, hid]
    exact hlatest

/-- A row that is loaded is stored. -/
theorem get_of_loaded {rec : KeyRecord ι} {ids : List IdentityValue} {identity : String}
    {row : ItemRow ι} (h : (rec.loadVersions ids).get identity = some row) :
    rec.items.get identity = some row := by
  rw [get_loadVersions] at h
  split at h
  · exact h
  · cases h

/-- The rows loaded for the latest items of a page are the stored ones. -/
theorem Findable.loaded {valid : List ι} (h : Findable poller valid) {latest : OrderedMap String ι}
    (hlatest : latestItems poller valid = .ok latest) (rec : KeyRecord ι) :
    ∀ entry ∈ latest.entries,
      (rec.loadVersions (valid.map poller.identity)).get entry.1 = rec.items.get entry.1 := by
  intro entry hentry
  obtain ⟨hmem, hid⟩ := mem_latestItems hlatest hentry
  rw [get_loadVersions, if_pos (h entry.2 hmem entry.1 hid)]

/-- The valid items of the pages of a listing. -/
def Listed (poller : ResolvedPoller ι) (listing : List (List ι)) (item : ι) : Prop :=
  ∃ items ∈ listing, ∃ valid invalid,
    validateItems poller items = .ok (valid, invalid) ∧ item ∈ valid

/-- Each identity of a listing has one content. -/
def OneContent (crypto : Crypto) (poller : ResolvedPoller ι) (listing : List (List ι)) : Prop :=
  ∀ a b identity, Listed poller listing a → Listed poller listing b →
    identityOf poller a = .ok identity → identityOf poller b = .ok identity →
    SameContent crypto poller a b

/-- A page of a listing that is committed: its items are reflected, and what was reflected still is. -/
theorem reflects_page {listing : List (List ι)} (hone : OneContent crypto poller listing)
    {page : PollPage ι} (hpoller : page.poller = poller) (hpage : page.items ∈ listing)
    {rec : KeyRecord ι} {events : List (EventSpec ι)} {upserts : List (ItemRow ι)}
    (h : page.process (pageDiff crypto) rec = .ok (events, upserts)) {valid : List ι}
    {invalid : List (ι × List ValidationIssue)}
    (hvalid : validateItems poller page.items = .ok (valid, invalid)) {item : ι}
    (hlisted : Listed poller listing item) {identity : String} (hid : identityOf poller item = .ok identity)
    (hor : Reflects crypto poller rec.items (identity, item) ∨ item ∈ valid) :
    Reflects crypto poller (rec.items.setAll (·.identity) upserts) (identity, item) := by
  subst hpoller
  obtain ⟨valid', invalid', result, hvalid', -, hresult, -, rfl⟩ := process_ok h
  rw [hvalid] at hvalid'
  obtain ⟨rfl, rfl⟩ := Prod.mk.inj (Except.ok.inj hvalid')
  rw [pageDiff_eq] at hresult
  obtain ⟨latest, hlatest, hresult⟩ := bind_eq_ok.1 hresult
  by_cases hkey : identity ∈ latest.entries.map Prod.fst
  · -- the page has the identity, with the same content
    obtain ⟨⟨identity', other⟩, hentry, rfl⟩ := List.mem_map.1 hkey
    obtain ⟨hother, hidother⟩ := mem_latestItems hlatest hentry
    obtain ⟨row, hrow, hsettled⟩ := entriesDiff_reflects rec.items latest.nodup
      (fun _ _ _ hloaded => get_of_loaded hloaded) hresult _ hentry
    have hsame := hone other item identity' ⟨page.items, hpage, valid, invalid, hvalid, hother⟩
      hlisted hidother hid
    exact ⟨row, hrow, hsettled.congr hsame⟩
  · rcases hor with ⟨row, hrow, hsettled⟩ | hitem
    · refine ⟨row, ?_, hsettled⟩
      rw [OrderedMap.get_setAll_of_not_mem _ _ _ (entriesDiff_keys hresult hkey)]
      exact hrow
    · obtain ⟨identity', hid', hmem⟩ := mem_keys_latestItems hlatest hitem
      rw [hid] at hid'
      obtain rfl := Except.ok.inj hid'
      exact absurd hmem hkey

/-- A page whose items are reflected emits nothing and leaves what is recorded. -/
theorem process_silent {page : PollPage ι} (hforce : page.force = false) {rec : KeyRecord ι}
    {valid : List ι} {invalid : List (ι × List ValidationIssue)}
    (hvalid : validateItems page.poller page.items = .ok (valid, invalid))
    (hinvalid : ¬(invalid ≠ [] ∧ page.poller.onInvalid = .fail))
    (hfind : Findable page.poller valid)
    (hreflects : ∀ item ∈ valid, ∃ identity, identityOf page.poller item = .ok identity ∧
      Reflects crypto page.poller rec.items (identity, item)) :
    ∃ upserts, page.process (pageDiff crypto) rec = .ok ([], upserts) ∧
      marks (rec.items.setAll (·.identity) upserts) = marks rec.items := by
  obtain ⟨latest, hlatest⟩ := latestItems_ok fun item hitem =>
    (hreflects item hitem).imp fun _ hid => hid.1
  have hentries : ∀ entry ∈ latest.entries, Reflects crypto page.poller
      (rec.loadVersions (valid.map page.poller.identity)) entry := by
    intro entry hentry
    obtain ⟨hmem, hid⟩ := mem_latestItems hlatest hentry
    obtain ⟨identity, hid', row, hrow, hsettled⟩ := hreflects entry.2 hmem
    rw [hid] at hid'
    obtain rfl := Except.ok.inj hid'
    exact ⟨row, (hfind.loaded hlatest rec entry hentry).trans hrow, hsettled⟩
  obtain ⟨result, hresult, hquiet, hmarks⟩ := entriesDiff_silent page.now page.fullScan
    hentries
  refine ⟨result.upserts, ?_, marks_setAll fun row hrow => ?_⟩
  · rw [process_of_valid hvalid hinvalid, PollPage.diff, pageDiff_eq, hlatest]
    simp only [bind, Except.bind, hresult, hforce, hquiet, pure, Except.pure]
    rfl
  · -- the rows that were loaded are stored
    obtain ⟨loaded, hloaded, hmark⟩ := Option.map_eq_some_iff.1 (hmarks row hrow)
    exact Option.map_eq_some_iff.2 ⟨loaded, get_of_loaded hloaded, hmark⟩

/-! ## Runs over a listing -/

/-- The pages of the steps are pages of a listing. -/
def PagesIn (poller : ResolvedPoller ι) (listing : List (List ι)) (steps : List (PollStep ι)) :
    Prop :=
  ∀ page, .page page ∈ steps → page.poller = poller ∧ page.items ∈ listing

/-- The steps do not delete an identity. -/
def Spares (identity : String) (steps : List (PollStep ι)) : Prop :=
  ∀ poller missing, .delete poller missing ∈ steps → identity ∉ missing

/-- A run of pages of a listing, and of deletes that spare its identities. -/
structure ListingRun (poller : ResolvedPoller ι) (listing : List (List ι))
    (steps : List (PollStep ι)) : Prop where
  pages : PagesIn poller listing steps
  spared : ∀ item identity, Listed poller listing item → identityOf poller item = .ok identity →
    Spares identity steps

theorem PagesIn.tail {listing : List (List ι)} {step : PollStep ι} {steps : List (PollStep ι)}
    (h : PagesIn poller listing (step :: steps)) : PagesIn poller listing steps :=
  fun page hpage => h page (List.mem_cons_of_mem _ hpage)

theorem Spares.tail {identity : String} {step : PollStep ι} {steps : List (PollStep ι)}
    (h : Spares identity (step :: steps)) : Spares identity steps :=
  fun p missing hmem => h p missing (List.mem_cons_of_mem _ hmem)

/-- A step keeps what is reflected. -/
theorem reflects_step {listing : List (List ι)} (hone : OneContent crypto poller listing)
    {step : PollStep ι} {steps : List (PollStep ι)} (hpages : PagesIn poller listing (step :: steps))
    {item : ι} (hlisted : Listed poller listing item) {identity : String}
    (hid : identityOf poller item = .ok identity) (hspared : Spares identity (step :: steps))
    {rec : KeyRecord ι} (h : Reflects crypto poller rec.items (identity, item)) :
    Reflects crypto poller (pollStep (pageDiff crypto) rec step).1.items (identity, item) := by
  cases step with
  | delete p missing =>
    obtain ⟨row, hrow, hsettled⟩ := h
    have hkept := hspared p missing List.mem_cons_self
    refine ⟨row, ?_, hsettled⟩
    simp only [pollStep, OrderedMap.get_eraseAll, if_neg hkept]
    exact hrow
  | page page =>
    obtain ⟨hpoller, hpage⟩ := hpages page List.mem_cons_self
    simp only [pollStep]
    cases hprocess : page.process (pageDiff crypto) rec with
    | error e => exact h
    | ok out =>
      obtain ⟨events, upserts⟩ := out
      obtain ⟨valid, invalid, -, hvalid, -⟩ := process_ok hprocess
      rw [hpoller] at hvalid
      exact reflects_page hone hpoller hpage hprocess hvalid hlisted hid (Or.inl h)

/-- A run keeps what is reflected. -/
theorem reflects_steps {listing : List (List ι)} (hone : OneContent crypto poller listing)
    {steps : List (PollStep ι)} (hpages : PagesIn poller listing steps) {item : ι}
    (hlisted : Listed poller listing item) {identity : String}
    (hid : identityOf poller item = .ok identity) (hspared : Spares identity steps)
    {rec : KeyRecord ι} (h : Reflects crypto poller rec.items (identity, item)) :
    Reflects crypto poller (pollSteps (pageDiff crypto) rec steps).1.items (identity, item) := by
  induction steps generalizing rec with
  | nil => exact h
  | cons step steps ih =>
    have hfirst := reflects_step hone hpages hlisted hid hspared h
    exact ih hpages.tail hspared.tail hfirst

/-- After a run that commits a page, its items are reflected. -/
theorem reflects_committed {listing : List (List ι)} (hone : OneContent crypto poller listing)
    {before after : List (PollStep ι)} {page : PollPage ι}
    (hrun : ListingRun poller listing (before ++ .page page :: after)) {rec : KeyRecord ι}
    {events : List (EventSpec ι)}
    (hcommitted : (pollStep (pageDiff crypto) (pollSteps (pageDiff crypto) rec before).1
      (.page page)).2 = .ok events) :
    ∃ valid invalid, validateItems poller page.items = .ok (valid, invalid) ∧
      ¬(invalid ≠ [] ∧ poller.onInvalid = .fail) ∧
      ∀ item ∈ valid, ∃ identity, identityOf poller item = .ok identity ∧
        Reflects crypto poller
          (pollSteps (pageDiff crypto) rec (before ++ .page page :: after)).1.items
          (identity, item) := by
  have hlater : PagesIn poller listing (.page page :: after) := fun p hp =>
    hrun.pages p (List.mem_append_right _ hp)
  obtain ⟨hpoller, hpage⟩ := hlater page List.mem_cons_self
  rw [pollSteps_append]
  generalize (pollSteps (pageDiff crypto) rec before).1 = start at hcommitted ⊢
  simp only [pollSteps]
  simp only [pollStep] at hcommitted ⊢
  cases hprocess : page.process (pageDiff crypto) start with
  | error e =>
    rw [hprocess] at hcommitted
    cases hcommitted
  | ok out =>
    obtain ⟨events', upserts⟩ := out
    obtain ⟨valid, invalid, result, hvalid, hinvalid, hresult, -⟩ := process_ok hprocess
    rw [hpoller] at hvalid hinvalid hresult
    refine ⟨valid, invalid, hvalid, hinvalid, fun item hitem => ?_⟩
    rw [pageDiff_eq] at hresult
    obtain ⟨latest, hlatest, -⟩ := bind_eq_ok.1 hresult
    obtain ⟨identity, hid, -⟩ := mem_keys_latestItems hlatest hitem
    have hlisted : Listed poller listing item := ⟨_, hpage, valid, invalid, hvalid, hitem⟩
    have hspared : Spares identity after := fun p missing hmem =>
      hrun.spared item identity hlisted hid p missing
        (List.mem_append_right _ (List.mem_cons_of_mem _ hmem))
    have hfirst := reflects_page hone hpoller hpage hprocess hvalid hlisted hid (Or.inr hitem)
    exact ⟨identity, hid, reflects_steps hone hlater.tail hlisted hid hspared hfirst⟩

end

/-! ## The result -/

/-- Processing a page again that a run over a listing has committed emits nothing, in any lane that
is not forced, and leaves the hash, the version and the schema version of every row. -/
theorem repoll_silent (crypto : Crypto) (poller : ResolvedPoller ι) (hid : StringIdentities poller)
    (listing : List (List ι)) (hone : OneContent crypto poller listing) (rec : KeyRecord ι)
    (before after : List (PollStep ι)) (page : PollPage ι)
    (hrun : ListingRun poller listing (before ++ .page page :: after))
    (events : List (EventSpec ι))
    (hcommitted : (pollStep (pageDiff crypto) (pollSteps (pageDiff crypto) rec before).1
      (.page page)).2 = .ok events)
    (again : PollPage ι) (hpoller : again.poller = poller) (hitems : again.items = page.items)
    (hforce : again.force = false) :
    let polled := (pollSteps (pageDiff crypto) rec (before ++ .page page :: after)).1
    let repolled := pollStep (pageDiff crypto) polled (.page again)
    repolled.2 = .ok [] ∧ marks repolled.1.items = marks polled.items := by
  intro polled repolled
  obtain ⟨valid, invalid, hvalid, hinvalid, hreflects⟩ := reflects_committed hone hrun hcommitted
  subst hpoller
  rw [← hitems] at hvalid
  obtain ⟨upserts, hprocess, hmarks⟩ := process_silent hforce hvalid hinvalid (hid.findable valid)
    hreflects
  have hstep : repolled = ({ polled with items := polled.items.setAll (·.identity) upserts },
      .ok []) := by
    simp only [repolled, pollStep]
    rw [hprocess]
  rw [hstep]
  exact ⟨rfl, hmarks⟩

/-- A listing of two samples with two identities. -/
theorem versionedPoller_oneContent {listing : List (List Sample)}
    (h : ∀ items ∈ listing, ∀ item ∈ items, item = ("a", "1") ∨ item = ("b", "2")) :
    OneContent sampleCrypto versionedPoller listing := by
  have hvalid : ∀ items : List Sample, validateItems versionedPoller items = .ok (items, []) := by
    intro items
    induction items with
    | nil => rfl
    | cons item items ih =>
      rw [validateItems, ih]
      rfl
  have hlisted : ∀ item, Listed versionedPoller listing item →
      item = ("a", "1") ∨ item = ("b", "2") := by
    rintro item ⟨items, hitems, valid, invalid, hitem, hmem⟩
    rw [hvalid] at hitem
    obtain ⟨rfl, -⟩ := Prod.mk.inj (Except.ok.inj hitem)
    exact h items hitems item hmem
  intro a b identity ha hb hida hidb
  rcases hlisted a ha with rfl | rfl <;> rcases hlisted b hb with rfl | rfl
  · exact ⟨rfl, rfl⟩
  · cases hida
    simp [identityOf, versionedPoller, samplePoller] at hidb
  · cases hida
    simp [identityOf, versionedPoller, samplePoller] at hidb
  · exact ⟨rfl, rfl⟩

/-- Two pages that share an item; the first one is processed again by a full scan. -/
theorem repoll_silent_sample :
    let first : List Sample := [("a", "1")]
    let second : List Sample := [("b", "2"), ("a", "1")]
    let page (now : Int) (fullScan : Bool) (items : List Sample) : PollPage Sample :=
      { poller := versionedPoller, now, fullScan, force := false, items }
    let stored : KeyRecord Sample := KeyRecord.fresh { poller := "orders", partition := "" }
    let polled := (pollSteps (pageDiff sampleCrypto) stored
      [.page (page 1 false first), .page (page 2 true second)]).1
    let repolled := pollStep (pageDiff sampleCrypto) polled (.page (page 3 true first))
    repolled.2 = .ok [] ∧ marks repolled.1.items = marks polled.items := by
  intro first second page stored polled repolled
  have hone : OneContent sampleCrypto versionedPoller [first, second] :=
    versionedPoller_oneContent (by
      rintro items hitems item hitem
      simp only [first, second, List.mem_cons, List.not_mem_nil, or_false] at hitems
      rcases hitems with rfl | rfl
      · exact Or.inl (List.mem_singleton.1 hitem)
      · simpa [or_comm] using hitem)
  refine repoll_silent sampleCrypto versionedPoller (fun item => ⟨item.1, rfl⟩) [first, second]
    hone stored [] [.page (page 2 true second)] (page 1 false first) ⟨?_, ?_⟩ _ rfl
    (page 3 true first) rfl rfl rfl
  · intro other hother
    simp only [List.nil_append, List.mem_cons, List.not_mem_nil, or_false,
      PollStep.page.injEq] at hother
    rcases hother with rfl | rfl <;> exact ⟨rfl, by simp [page]⟩
  · intro item identity _ _ p missing hmem
    simp at hmem

end Watukuy
