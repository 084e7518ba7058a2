import Watukuy.Run.Coercion
import Watukuy.Run.FullScans

/-!
# What a completed sweep deletes

A full scan deletes the stored identities it has not seen, and it sees the string identities of the
items that pass validation. So it deletes exactly what is no longer listed if and only if every listed
identity that is stored is the string identity of some valid item of the listing: an item that fails
validation loses its row although it is listed.
-/

set_option autoImplicit false

namespace Watukuy

open Library

variable {ι : Type}

/-- An item that passes validation on a page of the cycle has the identity. -/
def PollCycle.Stores (c : PollCycle ι) (poller : ResolvedPoller ι) (identity : String) : Prop :=
  ∃ p ∈ c.pages, ∃ valid invalid, validateItems poller p.2 = .ok (valid, invalid) ∧
    ∃ item ∈ valid, identityOf poller item = .ok identity

/-- An item of a page of the cycle has the identity, whether or not it passes validation. -/
def PollCycle.Carries (c : PollCycle ι) (poller : ResolvedPoller ι) (identity : String) : Prop :=
  c.Stores poller identity ∨
    ∃ p ∈ c.pages, ∃ valid invalid, validateItems poller p.2 = .ok (valid, invalid) ∧
      ∃ refused ∈ invalid, identityOf poller refused.1 = .ok identity

/-- The cycle emits `deleted` for exactly the stored identities that no item carries, and removes
exactly their rows. -/
def DeletesUnlisted (crypto : Crypto) (poller : ResolvedPoller ι) (rec : KeyRecord ι)
    (c : PollCycle ι) : Prop :=
  ∀ identity,
    ((∃ spec ∈ (pollCycle (pageDiff crypto) poller rec c).events,
        spec.type = .deleted ∧ spec.identity = identity) ↔
      (rec.items.get identity).isSome ∧ ¬c.Carries poller identity) ∧
    ((rec.items.get identity).isSome ∧
        (pollCycle (pageDiff crypto) poller rec c).stored.items.get identity = none ↔
      (rec.items.get identity).isSome ∧ ¬c.Carries poller identity)

/-- Each identity that is listed, and stored or about to be, is the string identity of an item that
passes validation. -/
def PollCycle.Recognised (c : PollCycle ι) (poller : ResolvedPoller ι) (rec : KeyRecord ι) : Prop :=
  ∀ identity, c.Carries poller identity →
    (rec.items.get identity).isSome ∨ c.Stores poller identity →
    ∃ p ∈ c.pages, ∃ valid invalid, validateItems poller p.2 = .ok (valid, invalid) ∧
      ∃ item ∈ valid, poller.identity item = .string identity

section
variable {crypto : Crypto} {poller : ResolvedPoller ι} {rec : KeyRecord ι} {c : PollCycle ι}
  {identity : String}

/-- What a full scan sees. -/
theorem mem_seen : .string identity ∈ c.seen poller ↔
    ∃ p ∈ c.pages, ∃ valid invalid, validateItems poller p.2 = .ok (valid, invalid) ∧
      ∃ item ∈ valid, poller.identity item = .string identity := by
  rw [PollCycle.seen, List.mem_flatMap]
  constructor
  · rintro ⟨p, hp, hmem⟩
    unfold seenOf at hmem
    split at hmem
    · rename_i valid invalid hvalid
      exact ⟨p, hp, valid, invalid, hvalid, List.mem_map.1 hmem⟩
    · cases hmem
  · rintro ⟨p, hp, valid, invalid, hvalid, hitem⟩
    refine ⟨p, hp, ?_⟩
    rw [seenOf, hvalid]
    exact List.mem_map.2 hitem

theorem PollCycle.stores_of_seen (h : .string identity ∈ c.seen poller) : c.Stores poller identity := by
  obtain ⟨p, hp, valid, invalid, hvalid, item, hitem, hid⟩ := mem_seen.1 h
  exact ⟨p, hp, valid, invalid, hvalid, item, hitem, by rw [identityOf, hid]⟩

/-! ## The rows a scan leaves -/

section Diff

variable {valid : List ι} {now : Int} {fullScan : Bool} {result : DiffResult ι}

/-- After the upserts of a diff, the rows are those before it and those of its items. -/
theorem isSome_diff (h : pageDiff crypto poller (rec.loadVersions (valid.map poller.identity)) now
      fullScan valid = .ok result) :
    ((rec.items.setAll (·.identity) result.upserts).get identity).isSome ↔
      (rec.items.get identity).isSome ∨ ∃ item ∈ valid, identityOf poller item = .ok identity := by
  rw [pageDiff_eq] at h
  obtain ⟨latest, hlatest, hentries⟩ := bind_eq_ok.1 h
  constructor
  · intro hsome
    rcases (OrderedMap.isSome_get_setAll _ _ _ _).1 hsome with hmem | hold
    · right
      by_cases hkey : identity ∈ latest.entries.map Prod.fst
      · obtain ⟨entry, hentry, rfl⟩ := List.mem_map.1 hkey
        obtain ⟨hitem, hid⟩ := mem_latestItems hlatest hentry
        exact ⟨entry.2, hitem, hid⟩
      · exact absurd hmem (entriesDiff_keys hentries hkey)
    · exact Or.inl hold
  · rintro (hold | ⟨item, hitem, hid⟩)
    · exact (OrderedMap.isSome_get_setAll _ _ _ _).2 (Or.inr hold)
    · obtain ⟨identity', hid', hkey⟩ := mem_keys_latestItems hlatest hitem
      rw [hid] at hid'
      obtain rfl := Except.ok.inj hid'
      obtain ⟨entry, hentry, rfl⟩ := List.mem_map.1 hkey
      obtain ⟨row, hrow, -⟩ := entriesDiff_reflects rec.items latest.nodup
        (fun e _ row hget => get_of_loaded hget) hentries entry hentry
      rw [hrow]
      rfl

/-- After the upserts of a diff, the rows reflect its latest items. -/
theorem reflects_diff (h : pageDiff crypto poller (rec.loadVersions (valid.map poller.identity)) now
      fullScan valid = .ok result) {latest : OrderedMap String ι}
    (hlatest : latestItems poller valid = .ok latest) :
    ∀ entry ∈ latest.entries,
      Reflects crypto poller (rec.items.setAll (·.identity) result.upserts) entry := by
  rw [pageDiff_eq, hlatest] at h
  exact entriesDiff_reflects rec.items latest.nodup (fun e _ row hget => get_of_loaded hget) h

end Diff

/-- After a page, the rows are those before it and those of its valid items. -/
theorem isSome_page {page : PollPage ι} {events : List (EventSpec ι)} {upserts : List (ItemRow ι)}
    (h : page.process (pageDiff crypto) rec = .ok (events, upserts)) :
    ((rec.items.setAll (·.identity) upserts).get identity).isSome ↔
      (rec.items.get identity).isSome ∨ ∃ valid invalid,
        validateItems page.poller page.items = .ok (valid, invalid) ∧
        ∃ item ∈ valid, identityOf page.poller item = .ok identity := by
  obtain ⟨valid, invalid, result, hvalid, -, hresult, -, rfl⟩ := process_ok h
  rw [isSome_diff hresult]
  refine or_congr_right ⟨fun hitem => ⟨valid, invalid, hvalid, hitem⟩, ?_⟩
  rintro ⟨valid', invalid', hvalid', hitem⟩
  rw [hvalid] at hvalid'
  obtain ⟨rfl, rfl⟩ := Prod.mk.inj (Except.ok.inj hvalid')
  exact hitem

/-- After a scan that completed, the rows are those before it and those of the valid items of its
pages. -/
theorem isSome_scan {pages : List (PollPage ι)}
    (hdone : (scanPages (pageDiff crypto) rec pages).failed = none) :
    ((scanPages (pageDiff crypto) rec pages).stored.items.get identity).isSome ↔
      (rec.items.get identity).isSome ∨ ∃ page ∈ pages, ∃ valid invalid,
        validateItems page.poller page.items = .ok (valid, invalid) ∧
        ∃ item ∈ valid, identityOf page.poller item = .ok identity := by
  induction pages generalizing rec with
  | nil => simp [scanPages]
  | cons page pages ih =>
    obtain ⟨events, upserts, hprocess, hrest, hscan⟩ := scanPages_cons hdone
    rw [hscan, ih hrest, isSome_page hprocess]
    simp only [List.exists_mem_cons_iff]
    exact or_assoc

theorem isSome_scanned
    (hdone : (scanPages (pageDiff crypto) rec (c.pollPages poller)).failed = none) :
    ((scanPages (pageDiff crypto) rec (c.pollPages poller)).stored.items.get identity).isSome ↔
      (rec.items.get identity).isSome ∨ c.Stores poller identity := by
  rw [isSome_scan hdone]
  refine or_congr_right ⟨?_, ?_⟩
  · rintro ⟨page, hpage, h⟩
    obtain ⟨p, hp, rfl⟩ := List.mem_map.1 hpage
    exact ⟨p, hp, h⟩
  · rintro ⟨p, hp, h⟩
    exact ⟨_, List.mem_map_of_mem hp, h⟩

/-- A page deletes nothing. -/
theorem process_types {page : PollPage ι} {events : List (EventSpec ι)} {upserts : List (ItemRow ι)}
    (h : page.process (pageDiff crypto) rec = .ok (events, upserts)) :
    ∀ spec ∈ events, spec.type ≠ .deleted := by
  intro spec hspec
  obtain ⟨valid, invalid, result, -, -, hresult, rfl, -⟩ := process_ok h
  obtain ⟨⟨candidates, unchanged⟩, -, hresult⟩ := bind_eq_ok.1 hresult
  obtain rfl := Except.ok.inj hresult
  rcases List.mem_append.1 hspec with hspec | hspec
  · obtain ⟨change, hchange, rfl⟩ := List.mem_map.1 hspec
    exact diffCandidates_types candidates change hchange
  · split at hspec
    · rw [forcedSpecs_types spec hspec]
      simp
    · cases hspec

/-- The pages of a scan delete nothing. -/
theorem scanPages_types {pages : List (PollPage ι)} :
    ∀ spec ∈ (scanPages (pageDiff crypto) rec pages).events, spec.type ≠ .deleted := by
  induction pages generalizing rec with
  | nil =>
    intro spec hspec
    cases hspec
  | cons page pages ih =>
    intro spec hspec
    rw [scanPages] at hspec
    split at hspec
    · cases hspec
    · rename_i events upserts hprocess
      rcases List.mem_append.1 hspec with hspec | hspec
      · exact process_types hprocess spec hspec
      · exact ih spec hspec

/-! ## The delete phase -/

/-- The `deleted` events are those of the stored identities. -/
theorem mem_deleteSpecs (poller : ResolvedPoller ι) (rec : KeyRecord ι) (missing : List String)
    (identity : String) :
    (∃ spec ∈ rec.deleteSpecs poller missing, spec.type = .deleted ∧ spec.identity = identity) ↔
      identity ∈ missing ∧ (rec.items.get identity).isSome := by
  constructor
  · rintro ⟨spec, hspec, -, rfl⟩
    obtain ⟨id, hid, hrow⟩ := List.mem_filterMap.1 hspec
    obtain ⟨row, hloaded, rfl⟩ := Option.map_eq_some_iff.1 hrow
    have hget : rec.items.get (deleteSpec poller id row).identity = some row := get_of_loaded hloaded
    exact ⟨hid, by rw [hget]; rfl⟩
  · rintro ⟨hid, hstored⟩
    obtain ⟨row, hrow⟩ := Option.isSome_iff_exists.1 hstored
    have hloaded : (rec.loadVersions (missing.map .string)).get identity = some row := by
      rw [get_loadVersions, if_pos (List.mem_map_of_mem hid), hrow]
    refine ⟨deleteSpec poller identity row, List.mem_filterMap.2 ⟨identity, hid, ?_⟩, rfl, rfl⟩
    rw [hloaded]
    rfl

/-- What a full scan that completed emits as deleted. -/
theorem deleted_iff (hfull : c.fullScan = true)
    (hdone : (pollCycle (pageDiff crypto) poller rec c).failed = none) :
    (∃ spec ∈ (pollCycle (pageDiff crypto) poller rec c).events,
        spec.type = .deleted ∧ spec.identity = identity) ↔
      ((rec.items.get identity).isSome ∨ c.Stores poller identity) ∧
        .string identity ∉ c.seen poller := by
  have hscanned := (pollCycle_done hdone).1
  rw [← isSome_scanned hscanned]
  unfold pollCycle
  simp only [if_pos (And.intro hfull hscanned)]
  have hphase := mem_deleteSpecs poller
    (scanPages (pageDiff crypto) rec (c.pollPages poller)).stored
    ((scanPages (pageDiff crypto) rec (c.pollPages poller)).stored.missing (c.seen poller)) identity
  rw [mem_missing] at hphase
  constructor
  · rintro ⟨spec, hspec, htype, hid⟩
    rcases List.mem_append.1 hspec with hspec | hspec
    · exact absurd htype (scanPages_types spec hspec)
    · exact (hphase.1 ⟨spec, hspec, htype, hid⟩).1
  · rintro ⟨hstored, hunseen⟩
    obtain ⟨spec, hspec, htype, hid⟩ := hphase.2 ⟨⟨hstored, hunseen⟩, hstored⟩
    exact ⟨spec, List.mem_append_right _ hspec, htype, hid⟩

/-- The rows a full scan that completed removes. -/
theorem removed_iff (hfull : c.fullScan = true)
    (hdone : (pollCycle (pageDiff crypto) poller rec c).failed = none) :
    (rec.items.get identity).isSome ∧
        (pollCycle (pageDiff crypto) poller rec c).stored.items.get identity = none ↔
      (rec.items.get identity).isSome ∧ .string identity ∉ c.seen poller := by
  obtain ⟨hscanned, hget⟩ := pollCycle_done hdone
  rw [hget]
  refine and_congr_right fun hstored => ?_
  have hkept := (isSome_scanned hscanned).2 (Or.inl hstored)
  by_cases hunseen : .string identity ∉ c.seen poller
  · simp [hfull, hunseen]
  · rw [if_neg fun h => hunseen h.2]
    constructor
    · intro hnone
      rw [hnone] at hkept
      cases hkept
    · exact fun h => absurd h hunseen

/-- A full scan that completed deletes exactly what is no longer listed if and only if each identity
that is listed, and stored or about to be, is the string identity of an item that passes validation. -/
theorem deletes_unlisted_iff (hfull : c.fullScan = true)
    (hdone : (pollCycle (pageDiff crypto) poller rec c).failed = none) :
    DeletesUnlisted crypto poller rec c ↔ c.Recognised poller rec := by
  unfold DeletesUnlisted PollCycle.Recognised
  simp only [deleted_iff hfull hdone, removed_iff hfull hdone, ← mem_seen]
  constructor
  · intro h identity hcarried hstored
    by_contra hunseen
    exact ((h identity).1.1 ⟨hstored, hunseen⟩).2 hcarried
  · intro h identity
    constructor
    · constructor
      · rintro ⟨hstored, hunseen⟩
        have hnot : ¬c.Carries poller identity := fun hcarried => hunseen (h identity hcarried hstored)
        refine ⟨hstored.resolve_right fun hlisted => hnot (Or.inl hlisted), hnot⟩
      · rintro ⟨hstored, hnot⟩
        exact ⟨Or.inl hstored, fun hseen => hnot (Or.inl (PollCycle.stores_of_seen hseen))⟩
    · refine and_congr_right fun hstored => ?_
      exact ⟨fun hunseen hcarried => hunseen (h identity hcarried (Or.inl hstored)),
        fun hnot hseen => hnot (Or.inl (PollCycle.stores_of_seen hseen))⟩

end

/-- Every item of the cycle passes validation. -/
def PollCycle.Accepted (c : PollCycle ι) (poller : ResolvedPoller ι) : Prop :=
  ∀ p ∈ c.pages, ∃ valid, validateItems poller p.2 = .ok (valid, [])

/-- Nothing is lost for an item that passes validation under a string identity. -/
theorem PollCycle.Accepted.recognised {c : PollCycle ι} {poller : ResolvedPoller ι} {rec : KeyRecord ι}
    (h : c.Accepted poller) (hid : StringIdentities poller) : c.Recognised poller rec := by
  intro identity hcarried _
  rcases hcarried with ⟨p, hp, valid, invalid, hvalid, item, hitem, hidentity⟩ |
    ⟨p, hp, valid, invalid, hvalid, refused, hrefused, -⟩
  · exact ⟨p, hp, valid, invalid, hvalid, item, hitem, identityOf_string hid hidentity⟩
  · obtain ⟨valid', hvalid'⟩ := h p hp
    rw [hvalid] at hvalid'
    obtain ⟨-, rfl⟩ := Prod.mk.inj (Except.ok.inj hvalid')
    cases hrefused

/-! ## The delete commits of a run -/

section Runs

variable {d : Deployment ι} {S : EngineCall → Prop}

/-- What a cycle of pages sees. -/
theorem seenIn_eq (poller : ResolvedPoller ι) (pages : List (Page ι)) (fullScan : Bool) :
    seenIn poller pages =
      ({ fullScan, pages := pages.map fun p => (0, p.items) } : PollCycle ι).seen poller := by
  rw [seenIn, PollCycle.seen, List.flatMap_map]
  refine congrArg (List.flatMap · pages) (funext fun p => ?_)
  rw [validOf, seenOf]
  cases validateItems poller p.items <;> rfl

/-- A commit that takes effect deletes what the store has and the pages of its cycle have not shown. -/
def DeletesMissing (d : Deployment ι) (pre : List (Label (system ι))) : Label (system ι) → Prop
  | .act t (.store (.commitPoll _ b)) ch a => tookEffect ch a = true → b.deletes ≠ [] →
      ∀ identity, identity ∈ b.deletes ↔
        identity ∈ (World.store (ι := ι) ((system ι).after (World.fresh d.key) pre)).missing
          (seenIn d.poller (viewAt pre t).pages)
  | _ => True

/-- In every run, each delete commit deletes what is missing. -/
theorem run_deletes_missing (hS : ∀ call, S call → call.KeepsItems) {tr : List (Label (system ι))}
    {c : Config (system ι)} (h : Run (system ι) (d.entry S) (World.fresh d.key) tr c) :
    Throughout (DeletesMissing d) tr := by
  intro pre l post htr
  subst htr
  cases l with
  | act t o ch a =>
    obtain ⟨c₁, k, w', hpre, ht, hw⟩ := h.act_at
    have hallow := hpre.allow (obeys d S) ht
    rw [observe_eq_viewAt] at hallow
    cases o with
    | store so =>
      cases so with
      | commitPoll l b =>
        intro heffect hdeletes identity
        obtain ⟨hlease, -, hstep⟩ := allow_commit hS hallow
        rcases hstep with ⟨⟨p⟩⟩ | ⟨⟨p⟩⟩
        · exact absurd p.deletes_eq hdeletes
        · -- the holder's knowledge of the store is current
          rcases performStore_commit (perform_store hw) with ⟨-, hholds, -⟩ | ⟨hnone, -, -⟩
          · have hcurrent := (fenced hS hpre).current t l hlease hholds
            rw [← hpre.world_eq, p.mem_deletes, mem_missing, ← OrderedMap.mem_keys_iff,
              hcurrent.streamed _ p.streamed_eq p.deleted_eq]
          · rw [heffect] at hnone
            cases hnone
      | _ => trivial
    | _ => trivial
  | start p => trivial
  | drift x => trivial

/-- A delete commit of a run deletes what `pollCycle` would over the pages of its cycle. -/
theorem run_deletes_like_cycle (hS : ∀ call, S call → call.KeepsItems) {tr : List (Label (system ι))}
    {c : Config (system ι)} (h : Run (system ι) (d.entry S) (World.fresh d.key) tr c)
    {pre post : List (Label (system ι))} {t : Nat} {l : Lease} {b : CommitBatch ι} {ch : Choice ι}
    {a : Ans (.store (.commitPoll l b) : Op ι)}
    (htr : tr = pre ++ .act t (.store (.commitPoll l b)) ch a :: post)
    (heffect : tookEffect ch a = true) (hdeletes : b.deletes ≠ []) (identity : String) :
    identity ∈ b.deletes ↔
      identity ∈ (World.store (ι := ι) ((system ι).after (World.fresh d.key) pre)).missing
        (({ fullScan := true, pages := (viewAt pre t).pages.map fun p => (0, p.items) } :
          PollCycle ι).seen d.poller) := by
  rw [← seenIn_eq]
  exact run_deletes_missing hS h pre _ post htr heffect hdeletes identity

end Runs

/-! ## Sample sweeps -/

/-- Items without a content are refused. -/
def strictPoller : ResolvedPoller Sample :=
  { samplePoller with
    validate := some fun item =>
      .ok (if item.2 = "" then .error [{ message := "empty", path := [] }] else .ok item) }

/-- An item that is listed but refused loses its row, and its deletion is emitted. -/
theorem refused_deleted :
    let rec₀ : KeyRecord Sample := KeyRecord.fresh { poller := "orders", partition := "" }
    let first : PollCycle Sample := { fullScan := true, pages := [(0, [("a", "1")])] }
    let stored := (pollCycle (pageDiff sampleCrypto) strictPoller rec₀ first).stored
    let second : PollCycle Sample := { fullScan := true, pages := [(1, [("a", "")])] }
    let cycle := pollCycle (pageDiff sampleCrypto) strictPoller stored second
    cycle.failed = none ∧ second.Carries strictPoller "a" ∧
      (∃ spec ∈ cycle.events, spec.type = .deleted ∧ spec.identity = "a") ∧
      ¬DeletesUnlisted sampleCrypto strictPoller stored second := by
  intro rec₀ first stored second cycle
  have hcarries : second.Carries strictPoller "a" :=
    Or.inr ⟨_, List.mem_cons_self, [], [(("a", ""), _)], rfl, _, List.mem_cons_self, rfl⟩
  have hdone : cycle.failed = none := rfl
  have hstored : (stored.items.get "a").isSome := rfl
  have hseen : second.seen strictPoller = [] := rfl
  have hunseen : .string "a" ∉ second.seen strictPoller := by
    rw [hseen]
    exact List.not_mem_nil
  have hdeleted := (deleted_iff rfl hdone).2 ⟨Or.inl hstored, hunseen⟩
  exact ⟨hdone, hcarries, hdeleted, fun h => ((h "a").1.1 hdeleted).2 hcarries⟩

/-- The record after a sweep over `a` and `x`. -/
def sweptRecord : KeyRecord Sample :=
  (pollCycle (pageDiff sampleCrypto) strictPoller
    (KeyRecord.fresh { poller := "orders", partition := "" })
    { fullScan := true, pages := [(0, [("a", "1"), ("x", "1")])] }).stored

/-- A sweep that does not list `x` any more. -/
def laterSweep : PollCycle Sample where
  fullScan := true
  pages := [(1, [("a", "2")]), (2, [("b", "1")])]

theorem laterSweep_accepted : laterSweep.Accepted strictPoller := by
  intro p hp
  rcases List.mem_cons.1 hp with rfl | hp
  · exact ⟨_, rfl⟩
  · obtain rfl := List.mem_singleton.1 hp
    exact ⟨_, rfl⟩

/-- A stored row is deleted once no page lists it; the rows that are listed stay. -/
theorem deletes_unlisted_iff_sample :
    let deleted := fun identity =>
      ∃ spec ∈ (pollCycle (pageDiff sampleCrypto) strictPoller sweptRecord laterSweep).events,
        spec.type = .deleted ∧ spec.identity = identity
    DeletesUnlisted sampleCrypto strictPoller sweptRecord laterSweep ∧ deleted "x" ∧ ¬deleted "a" := by
  have hdone : (pollCycle (pageDiff sampleCrypto) strictPoller sweptRecord laterSweep).failed = none :=
    rfl
  have hstored : (sweptRecord.items.get "x").isSome := rfl
  have hseen : laterSweep.seen strictPoller = [.string "a", .string "b"] := rfl
  have hrecognised : laterSweep.Recognised strictPoller sweptRecord :=
    laterSweep_accepted.recognised fun item => ⟨item.1, rfl⟩
  have hunlisted := (deletes_unlisted_iff rfl hdone).2 hrecognised
  refine ⟨hunlisted, (hunlisted "x").1.2 ⟨hstored, fun hcarried => ?_⟩, fun hdeleted => ?_⟩
  · have hmem := mem_seen.2 (hrecognised "x" hcarried (Or.inl hstored))
    rw [hseen] at hmem
    simp at hmem
  · have hmem : .string "a" ∈ laterSweep.seen strictPoller := by
      rw [hseen]
      exact List.mem_cons_self
    exact ((hunlisted "a").1.1 hdeleted).2 (Or.inl (PollCycle.stores_of_seen hmem))

end Watukuy
