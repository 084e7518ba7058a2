import Watukuy.Http.Client
import Watukuy.Run.Deletes

/-!
# Conditional scans

A full scan whose fetch function requests each page of a listing with its own URL through `ctx.http`.
The server answers 304 exactly when the stored ETag is the one the page has now; for a 304 the fetch
function hands over no items. One 304 keeps the cycle from deleting anything. So while every cycle
finds a page unchanged, the stored identities are all those that were ever listed.
-/

set_option autoImplicit false

namespace Watukuy

open Library

variable {ι : Type}

/-! ## Requests -/

/-- A page of a listing as the server has it. -/
structure ServedPage (ι : Type) where
  url : String
  etag : String
  lastModified : Option String
  items : List ι
  tagged : etag ≠ ""

/-- A page when a cycle comes to it, with the times its validators and its rows are stored at. -/
structure Visit (ι : Type) where
  page : ServedPage ι
  storedAt : Int
  now : Int

/-- The request as it goes out. -/
def Visit.wire (v : Visit ι) (crypto : Crypto) (rec : KeyRecord ι) : WireRequest :=
  wireRequest { url := v.page.url } (rec.validators.get (crypto.hashUrl v.page.url))

/-- The server answers 304. -/
def Visit.notModified (v : Visit ι) (crypto : Crypto) (rec : KeyRecord ι) : Bool :=
  (v.wire crypto rec).ifNoneMatch == some v.page.etag

/-- The record with the validators of the page stored. -/
def Visit.remember (v : Visit ι) (crypto : Crypto) (rec : KeyRecord ι) : KeyRecord ι :=
  { rec with
    validators := rec.validators.set (crypto.hashUrl v.page.url)
      { etag := some v.page.etag, lastModified := v.page.lastModified, storedAt := v.storedAt } }

/-- The record after the request: a 2xx stores the validators of the page. -/
def Visit.stored (v : Visit ι) (crypto : Crypto) (rec : KeyRecord ι) : KeyRecord ι :=
  if v.notModified crypto rec then rec else v.remember crypto rec

/-- The items the fetch function hands over. -/
def Visit.items (v : Visit ι) (crypto : Crypto) (rec : KeyRecord ι) : List ι :=
  if v.notModified crypto rec then [] else v.page.items

/-- The page for the runner. -/
def Visit.pollPage (v : Visit ι) (crypto : Crypto) (poller : ResolvedPoller ι) (rec : KeyRecord ι) :
    PollPage ι where
  poller := poller
  now := v.now
  fullScan := true
  force := false
  items := v.items crypto rec

/-! ## Cycles -/

/-- What a conditional scan leaves, with the variables of its cycle that the delete phase looks at. -/
structure ConditionalScan (ι : Type) where
  stored : KeyRecord ι
  events : List (EventSpec ι)
  failed : Option JsError
  sawNotModified : Bool
  seen : List IdentityValue

/-- The pages of a cycle, up to the first one that fails. -/
def visitPages (crypto : Crypto) (poller : ResolvedPoller ι) (rec : KeyRecord ι) :
    List (Visit ι) → ConditionalScan ι
  | [] => { stored := rec, events := [], failed := none, sawNotModified := false, seen := [] }
  | v :: visits =>
    match (v.pollPage crypto poller rec).process (pageDiff crypto) (v.stored crypto rec) with
    | .error e =>
      { stored := v.stored crypto rec, events := [], failed := some e,
        sawNotModified := v.notModified crypto rec, seen := [] }
    | .ok (events, upserts) =>
      let asked := v.stored crypto rec
      let rest :=
        visitPages crypto poller { asked with items := asked.items.setAll (·.identity) upserts } visits
      { rest with
        events := events ++ rest.events
        sawNotModified := v.notModified crypto rec || rest.sawNotModified
        seen := seenOf poller (v.items crypto rec) ++ rest.seen }

/-- A cycle: it deletes what it has not seen, unless an answer was 304. -/
def conditionalCycle (crypto : Crypto) (poller : ResolvedPoller ι) (rec : KeyRecord ι)
    (visits : List (Visit ι)) : Polled ι :=
  let scanned := visitPages crypto poller rec visits
  if scanned.failed = none ∧ scanned.sawNotModified = false then
    let missing := scanned.stored.missing scanned.seen
    { stored := { scanned.stored with items := scanned.stored.items.eraseAll missing }
      events := scanned.events ++ scanned.stored.deleteSpecs poller missing
      failed := none }
  else { stored := scanned.stored, events := scanned.events, failed := scanned.failed }

/-- Cycles one after another, up to the first one that fails. -/
def conditionalCycles (crypto : Crypto) (poller : ResolvedPoller ι) (rec : KeyRecord ι) :
    List (List (Visit ι)) → Polled ι
  | [] => { stored := rec, events := [], failed := none }
  | c :: cycles =>
    let first := conditionalCycle crypto poller rec c
    match first.failed with
    | some _ => first
    | none =>
      let rest := conditionalCycles crypto poller first.stored cycles
      { rest with events := first.events ++ rest.events }

/-- The listing a cycle finds. -/
def listingOf (visits : List (Visit ι)) : List (ServedPage ι) := visits.map (·.page)

/-- A valid item of the page has the identity. -/
def ServedPage.Lists (p : ServedPage ι) (poller : ResolvedPoller ι) (identity : String) : Prop :=
  ∃ valid invalid, validateItems poller p.items = .ok (valid, invalid) ∧
    ∃ item ∈ valid, identityOf poller item = .ok identity

/-- The listing of the cycle has the identity. -/
def Lists (poller : ResolvedPoller ι) (visits : List (Visit ι)) (identity : String) : Prop :=
  ∃ p ∈ listingOf visits, p.Lists poller identity

/-- The server of a run of cycles: the pages of a listing have different URLs, an ETag names what a URL
serves, and URLs have different hashes. -/
structure Serves (crypto : Crypto) (cycles : List (List (Visit ι))) : Prop where
  urls : ∀ c ∈ cycles, ((listingOf c).map (·.url)).Nodup
  etags : ∀ c ∈ cycles, ∀ c' ∈ cycles, ∀ p ∈ listingOf c, ∀ q ∈ listingOf c', p.url = q.url →
    p.etag = q.etag → p.items = q.items
  hashes : ∀ c ∈ cycles, ∀ c' ∈ cycles, ∀ p ∈ listingOf c, ∀ q ∈ listingOf c',
    crypto.hashUrl p.url = crypto.hashUrl q.url → p.url = q.url

/-- From each cycle to the next, a page stays as it is. -/
def Gradual (cycles : List (List (Visit ι))) : Prop :=
  cycles.IsChain fun c c' => ∃ p ∈ listingOf c', ∃ q ∈ listingOf c, p.url = q.url ∧ p.etag = q.etag

section
variable {crypto : Crypto} {poller : ResolvedPoller ι} {rec : KeyRecord ι} {v : Visit ι}
  {visits : List (Visit ι)}

/-! ## One request -/

/-- The answer is 304 when the ETag of the page is stored for its URL. -/
theorem notModified_iff : v.notModified crypto rec = true ↔
    ∃ stored, rec.validators.get (crypto.hashUrl v.page.url) = some stored ∧
      stored.etag = some v.page.etag := by
  have htagged : v.page.etag ≠ "" := v.page.tagged
  simp only [Visit.notModified, Visit.wire, wireRequest, beq_iff_eq]
  cases hstored : rec.validators.get (crypto.hashUrl v.page.url) with
  | none => simp [truthy]
  | some stored =>
    cases hetag : stored.etag with
    | none => simp [truthy, hetag]
    | some etag =>
      simp only [truthy, Option.bind_some, hetag, Option.some.injEq, exists_eq_left']
      rw [Option.orElse_none, Option.filter_eq_some_iff]
      constructor
      · exact fun h => Option.some.inj h.1
      · rintro rfl
        exact ⟨rfl, by simpa using htagged⟩

@[simp] theorem Visit.stored_items : (v.stored crypto rec).items = rec.items := by
  unfold Visit.stored
  split <;> rfl

/-- After the request, the ETag of the page is stored for its URL. -/
theorem Visit.remembered (v : Visit ι) (crypto : Crypto) (rec : KeyRecord ι) : ∃ stored,
    (v.stored crypto rec).validators.get (crypto.hashUrl v.page.url) = some stored ∧
      stored.etag = some v.page.etag := by
  by_cases hsame : v.notModified crypto rec = true
  · rw [Visit.stored, if_pos hsame]
    exact notModified_iff.1 hsame
  · rw [Visit.stored, if_neg hsame]
    exact ⟨_, OrderedMap.get_set_self _ _ _, rfl⟩

/-- The request leaves the validators of other URLs. -/
theorem Visit.stored_other {hash : String} (hne : hash ≠ crypto.hashUrl v.page.url) :
    (v.stored crypto rec).validators.get hash = rec.validators.get hash := by
  unfold Visit.stored
  split
  · rfl
  · exact OrderedMap.get_set_ne _ hne _

/-- A scan that completed processed its first page, and then the others. -/
theorem visitPages_cons (h : (visitPages crypto poller rec (v :: visits)).failed = none) :
    ∃ events upserts, (v.pollPage crypto poller rec).process (pageDiff crypto) (v.stored crypto rec) =
        .ok (events, upserts) ∧
      ∃ next : KeyRecord ι, next = { v.stored crypto rec with
          items := (v.stored crypto rec).items.setAll (·.identity) upserts } ∧
        (visitPages crypto poller next visits).failed = none ∧
        visitPages crypto poller rec (v :: visits) =
          let rest := visitPages crypto poller next visits
          { rest with
            events := events ++ rest.events
            sawNotModified := v.notModified crypto rec || rest.sawNotModified
            seen := seenOf poller (v.items crypto rec) ++ rest.seen } := by
  rw [visitPages] at h ⊢
  cases hprocess : (v.pollPage crypto poller rec).process (pageDiff crypto) (v.stored crypto rec) with
  | error e =>
    rw [hprocess] at h
    cases h
  | ok out =>
    obtain ⟨events, upserts⟩ := out
    rw [hprocess] at h
    exact ⟨events, upserts, rfl, _, rfl, h, rfl⟩

/-- What an answer brings: nothing on 304. -/
theorem Visit.lists {identity : String} : (∃ valid invalid,
    validateItems poller (v.items crypto rec) = .ok (valid, invalid) ∧
      ∃ item ∈ valid, identityOf poller item = .ok identity) ↔
    v.notModified crypto rec = false ∧ v.page.Lists poller identity := by
  unfold Visit.items
  cases hsame : v.notModified crypto rec with
  | true =>
    simp only [if_true, Bool.true_eq_false, false_and, iff_false]
    rintro ⟨valid, invalid, hvalid, item, hitem, -⟩
    obtain ⟨rfl, rfl⟩ := Prod.mk.inj (Except.ok.inj hvalid)
    cases hitem
  | false => simp [ServedPage.Lists]

/-! ## The pages of a scan -/

/-- The hashes of the URLs of the pages. -/
def urlHashes (crypto : Crypto) (visits : List (Visit ι)) : List String :=
  visits.map fun v => crypto.hashUrl v.page.url

/-- An answer depends on the validators of its URL only. -/
theorem notModified_congr {rec' : KeyRecord ι}
    (h : rec'.validators.get (crypto.hashUrl v.page.url) =
      rec.validators.get (crypto.hashUrl v.page.url)) :
    v.notModified crypto rec' = v.notModified crypto rec := by
  rw [Visit.notModified, Visit.wire, h]
  rfl

/-- The first page leaves the answers for the others as they are. -/
theorem notModified_rest (next : KeyRecord ι)
    (hnext : next.validators = (v.stored crypto rec).validators)
    (hnodup : (urlHashes crypto (v :: visits)).Nodup) :
    ∀ v' ∈ visits, v'.notModified crypto next = v'.notModified crypto rec := by
  intro v' hv'
  refine notModified_congr ?_
  rw [hnext]
  refine Visit.stored_other fun heq => ?_
  rw [urlHashes, List.map_cons, List.nodup_cons] at hnodup
  exact hnodup.1 (heq ▸ List.mem_map_of_mem hv')

/-- A scan leaves the validators of URLs it does not visit. -/
theorem visitPages_other (hdone : (visitPages crypto poller rec visits).failed = none) {hash : String}
    (hnot : hash ∉ urlHashes crypto visits) :
    (visitPages crypto poller rec visits).stored.validators.get hash = rec.validators.get hash := by
  induction visits generalizing rec with
  | nil => rfl
  | cons v visits ih =>
    obtain ⟨events, upserts, -, next, hnext, hrest, hscan⟩ := visitPages_cons hdone
    rw [urlHashes, List.map_cons, List.mem_cons, not_or] at hnot
    rw [hscan]
    have hother := ih hrest hnot.2
    rw [hnext] at hother ⊢
    exact hother.trans (Visit.stored_other hnot.1)

/-- After a scan, the ETags of its pages are stored for their URLs. -/
theorem visitPages_remembers (hdone : (visitPages crypto poller rec visits).failed = none)
    (hnodup : (urlHashes crypto visits).Nodup) :
    ∀ v ∈ visits, ∃ stored, (visitPages crypto poller rec visits).stored.validators.get
        (crypto.hashUrl v.page.url) = some stored ∧ stored.etag = some v.page.etag := by
  induction visits generalizing rec with
  | nil =>
    intro v hv
    cases hv
  | cons v₀ visits ih =>
    obtain ⟨events, upserts, -, next, hnext, hrest, hscan⟩ := visitPages_cons hdone
    rw [urlHashes, List.map_cons, List.nodup_cons] at hnodup
    intro v hv
    rw [hscan]
    rcases List.mem_cons.1 hv with rfl | hv
    · -- the other pages have other URLs
      obtain ⟨stored, hget, hetag⟩ := Visit.remembered v crypto rec
      refine ⟨stored, ?_, hetag⟩
      have hother := visitPages_other hrest hnodup.1
      rw [hnext] at hother ⊢
      exact hother.trans hget
    · exact ih hrest hnodup.2 v hv

/-- A scan saw a 304 when a page is as its stored ETag says. -/
theorem sawNotModified_iff (hdone : (visitPages crypto poller rec visits).failed = none)
    (hnodup : (urlHashes crypto visits).Nodup) :
    (visitPages crypto poller rec visits).sawNotModified = true ↔
      ∃ v ∈ visits, v.notModified crypto rec = true := by
  induction visits generalizing rec with
  | nil => simp [visitPages]
  | cons v visits ih =>
    obtain ⟨events, upserts, -, next, hnext, hrest, hscan⟩ := visitPages_cons hdone
    have hanswers := notModified_rest next (by rw [hnext]) hnodup
    rw [urlHashes, List.map_cons, List.nodup_cons] at hnodup
    rw [hscan, Bool.or_eq_true, ih hrest hnodup.2, List.exists_mem_cons_iff]
    refine or_congr_right (exists_congr fun v' => and_congr_right fun hv' => ?_)
    rw [hanswers v' hv']

/-- After a scan, the rows are those before it and those of the pages that were not answered 304. -/
theorem isSome_visitPages {identity : String}
    (hdone : (visitPages crypto poller rec visits).failed = none)
    (hnodup : (urlHashes crypto visits).Nodup) :
    ((visitPages crypto poller rec visits).stored.items.get identity).isSome ↔
      (rec.items.get identity).isSome ∨
        ∃ v ∈ visits, v.notModified crypto rec = false ∧ v.page.Lists poller identity := by
  induction visits generalizing rec with
  | nil => simp [visitPages]
  | cons v visits ih =>
    obtain ⟨events, upserts, hprocess, next, hnext, hrest, hscan⟩ := visitPages_cons hdone
    have hanswers := notModified_rest next (by rw [hnext]) hnodup
    rw [urlHashes, List.map_cons, List.nodup_cons] at hnodup
    have hpage : (next.items.get identity).isSome ↔ (rec.items.get identity).isSome ∨
        (v.notModified crypto rec = false ∧ v.page.Lists poller identity) := by
      rw [hnext, isSome_page hprocess, Visit.stored_items]
      exact or_congr_right Visit.lists
    rw [hscan, ih hrest hnodup.2, hpage, List.exists_mem_cons_iff, or_assoc]
    refine or_congr_right (or_congr_right (exists_congr fun v' => and_congr_right fun hv' => ?_))
    rw [hanswers v' hv']

/-- The pages of a scan delete nothing. -/
theorem visitPages_types :
    ∀ spec ∈ (visitPages crypto poller rec visits).events, spec.type ≠ .deleted := by
  induction visits generalizing rec with
  | nil =>
    intro spec hspec
    cases hspec
  | cons v visits ih =>
    intro spec hspec
    rw [visitPages] at hspec
    split at hspec
    · cases hspec
    · rename_i events upserts hprocess
      rcases List.mem_append.1 hspec with hspec | hspec
      · exact process_types hprocess spec hspec
      · exact ih spec hspec

/-- What a scan sees. -/
theorem seen_visitPages (hdone : (visitPages crypto poller rec visits).failed = none)
    (hnodup : (urlHashes crypto visits).Nodup) {v : Visit ι} (hv : v ∈ visits)
    (hasked : v.notModified crypto rec = false) {valid : List ι}
    {invalid : List (ι × List ValidationIssue)}
    (hvalid : validateItems poller v.page.items = .ok (valid, invalid)) {item : ι}
    (hitem : item ∈ valid) :
    poller.identity item ∈ (visitPages crypto poller rec visits).seen := by
  induction visits generalizing rec with
  | nil => cases hv
  | cons v₀ visits ih =>
    obtain ⟨events, upserts, -, next, hnext, hrest, hscan⟩ := visitPages_cons hdone
    have hanswers := notModified_rest next (by rw [hnext]) hnodup
    rw [urlHashes, List.map_cons, List.nodup_cons] at hnodup
    rw [hscan, List.mem_append]
    rcases List.mem_cons.1 hv with rfl | hv
    · left
      rw [Visit.items, if_neg (by simp [hasked]), seenOf, hvalid]
      exact List.mem_map_of_mem hitem
    · exact Or.inr (ih hrest hnodup.2 hv (by rw [hanswers v hv, hasked]))

/-! ## One cycle -/

/-- A cycle that completed completed its scan. -/
theorem scan_done (hdone : (conditionalCycle crypto poller rec visits).failed = none) :
    (visitPages crypto poller rec visits).failed = none := by
  unfold conditionalCycle at hdone
  by_cases h : (visitPages crypto poller rec visits).failed = none ∧
      (visitPages crypto poller rec visits).sawNotModified = false
  · exact h.1
  · simp only [if_neg h] at hdone
    exact hdone

/-- One 304, and the cycle is its scan. -/
theorem conditionalCycle_notModified (h : (visitPages crypto poller rec visits).sawNotModified = true) :
    (conditionalCycle crypto poller rec visits).stored = (visitPages crypto poller rec visits).stored ∧
      (conditionalCycle crypto poller rec visits).events =
        (visitPages crypto poller rec visits).events := by
  unfold conditionalCycle
  simp [h]

/-- A cycle that has seen everything that is stored is its scan. -/
theorem conditionalCycle_seen
    (hseen : ∀ identity, ((visitPages crypto poller rec visits).stored.items.get identity).isSome →
      .string identity ∈ (visitPages crypto poller rec visits).seen) :
    (conditionalCycle crypto poller rec visits).stored = (visitPages crypto poller rec visits).stored ∧
      (conditionalCycle crypto poller rec visits).events =
        (visitPages crypto poller rec visits).events := by
  have hmissing : (visitPages crypto poller rec visits).stored.missing
      (visitPages crypto poller rec visits).seen = [] := by
    rw [List.eq_nil_iff_forall_not_mem]
    intro identity hmem
    obtain ⟨hstored, hunseen⟩ := mem_missing.1 hmem
    exact hunseen (hseen identity hstored)
  unfold conditionalCycle
  simp only [hmissing]
  split
  · exact ⟨rfl, List.append_nil _⟩
  · exact ⟨rfl, rfl⟩

/-! ## Cycles -/

/-- What the record knows of the cycles so far, the last of which found the listing of `last`. -/
structure Follows (crypto : Crypto) (poller : ResolvedPoller ι) (all past : List (List (Visit ι)))
    (last : List (Visit ι)) (rec : KeyRecord ι) : Prop where
  /-- The stored identities are those that were listed. -/
  rows : ∀ identity, (rec.items.get identity).isSome ↔ ∃ c ∈ past, Lists poller c identity
  remembers : ∀ p ∈ listingOf last, ∃ stored,
    rec.validators.get (crypto.hashUrl p.url) = some stored ∧ stored.etag = some p.etag
  /-- An ETag is stored of pages that were visited. -/
  visited : ∀ c ∈ all, ∀ p ∈ listingOf c, ∀ stored,
    rec.validators.get (crypto.hashUrl p.url) = some stored → stored.etag = some p.etag →
      ∃ c' ∈ past, ∃ q ∈ listingOf c', p.url = q.url ∧ p.etag = q.etag

variable {all past : List (List (Visit ι))} {last c : List (Visit ι)}

/-- The pages of a cycle have different hashes. -/
theorem Serves.hashed (h : Serves crypto all) (hc : c ∈ all) : (urlHashes crypto c).Nodup := by
  have hurls := h.urls c hc
  rw [listingOf, List.map_map] at hurls
  rw [urlHashes]
  refine (List.nodup_map_iff_inj_on hurls.of_map).2 fun v hv v' hv' heq => ?_
  have hurl := h.hashes c hc c hc v.page (List.mem_map_of_mem hv) v'.page (List.mem_map_of_mem hv') heq
  exact List.inj_on_of_nodup_map hurls hv hv' hurl

/-- After a scan, the record knows of its pages. -/
theorem Follows.scan (hserves : Serves crypto all) (hpast : ∀ c ∈ past, c ∈ all) (hc : c ∈ all)
    (hrows : ∀ identity, (rec.items.get identity).isSome ↔ ∃ c ∈ past, Lists poller c identity)
    (hvisited : ∀ c ∈ all, ∀ p ∈ listingOf c, ∀ stored,
      rec.validators.get (crypto.hashUrl p.url) = some stored → stored.etag = some p.etag →
        ∃ c' ∈ past, ∃ q ∈ listingOf c', p.url = q.url ∧ p.etag = q.etag)
    (hdone : (visitPages crypto poller rec c).failed = none) :
    Follows crypto poller all (past ++ [c]) c (visitPages crypto poller rec c).stored := by
  have hnodup := hserves.hashed hc
  refine ⟨fun identity => ?_, ?_, ?_⟩
  · rw [isSome_visitPages hdone hnodup, hrows identity]
    simp only [List.mem_append, List.mem_singleton, or_and_right, exists_or, exists_eq_left]
    constructor
    · rintro (hold | ⟨v, hv, -, hlists⟩)
      · exact Or.inl hold
      · exact Or.inr ⟨v.page, List.mem_map_of_mem hv, hlists⟩
    · rintro (hold | ⟨p, hp, hlists⟩)
      · exact Or.inl hold
      · obtain ⟨v, hv, rfl⟩ := List.mem_map.1 hp
        cases hsame : v.notModified crypto rec with
        | false => exact Or.inr ⟨v, hv, hsame, hlists⟩
        | true =>
          -- the page was visited before, with the same items
          obtain ⟨stored, hget, hetag⟩ := notModified_iff.1 hsame
          obtain ⟨c', hc', q, hq, hurl, htag⟩ := hvisited c hc v.page hp stored hget hetag
          have hitems := hserves.etags c hc c' (hpast c' hc') v.page hp q hq hurl htag
          refine Or.inl ⟨c', hc', q, hq, ?_⟩
          rw [ServedPage.Lists, ← hitems]
          exact hlists
  · intro p hp
    obtain ⟨v, hv, rfl⟩ := List.mem_map.1 hp
    exact visitPages_remembers hdone hnodup v hv
  · intro c₁ hc₁ p hp stored hget hetag
    by_cases hmem : crypto.hashUrl p.url ∈ urlHashes crypto c
    · obtain ⟨v, hv, hhash⟩ := List.mem_map.1 hmem
      have hpage : v.page ∈ listingOf c := List.mem_map_of_mem hv
      have hurl := hserves.hashes c hc c₁ hc₁ v.page hpage p hp hhash
      obtain ⟨stored', hget', hetag'⟩ := visitPages_remembers hdone hnodup v hv
      rw [hhash, hget, Option.some.injEq] at hget'
      rw [← hget', hetag, Option.some.injEq] at hetag'
      exact ⟨c, by simp, v.page, hpage, hurl.symm, hetag'⟩
    · rw [visitPages_other hdone hmem] at hget
      obtain ⟨c', hc', hq⟩ := hvisited c₁ hc₁ p hp stored hget hetag
      exact ⟨c', List.mem_append_left _ hc', hq⟩

/-- A cycle that finds a page as it was deletes nothing. -/
theorem Follows.step (hserves : Serves crypto all) (hpast : ∀ c ∈ past, c ∈ all) (hc : c ∈ all)
    (h : Follows crypto poller all past last rec)
    (hshared : ∃ p ∈ listingOf c, ∃ q ∈ listingOf last, p.url = q.url ∧ p.etag = q.etag)
    (hdone : (conditionalCycle crypto poller rec c).failed = none) :
    Follows crypto poller all (past ++ [c]) c (conditionalCycle crypto poller rec c).stored ∧
      ∀ spec ∈ (conditionalCycle crypto poller rec c).events, spec.type ≠ .deleted := by
  have hscan := scan_done hdone
  have hsaw : (visitPages crypto poller rec c).sawNotModified = true := by
    obtain ⟨p, hp, q, hq, hurl, hetag⟩ := hshared
    obtain ⟨v, hv, rfl⟩ := List.mem_map.1 hp
    refine (sawNotModified_iff hscan (hserves.hashed hc)).2 ⟨v, hv, notModified_iff.2 ?_⟩
    rw [hurl, hetag]
    exact h.remembers q hq
  obtain ⟨hstored, hevents⟩ := conditionalCycle_notModified hsaw
  rw [hstored, hevents]
  exact ⟨Follows.scan hserves hpast hc h.rows h.visited hscan, visitPages_types⟩

/-- The first cycle of a key finds nothing to delete. -/
theorem Follows.first (hid : StringIdentities poller) (key : PKey) (hserves : Serves crypto all)
    (hc : c ∈ all) (hdone : (conditionalCycle crypto poller (KeyRecord.fresh key) c).failed = none) :
    Follows crypto poller all [c] c (conditionalCycle crypto poller (KeyRecord.fresh key) c).stored ∧
      ∀ spec ∈ (conditionalCycle crypto poller (KeyRecord.fresh key) c).events,
        spec.type ≠ .deleted := by
  have hscan := scan_done hdone
  have hnodup := hserves.hashed hc
  have hasked : ∀ v : Visit ι, v.notModified crypto (KeyRecord.fresh key) = false := by
    intro v
    rw [Bool.eq_false_iff]
    intro hsame
    obtain ⟨stored, hget, -⟩ := notModified_iff.1 hsame
    cases hget
  have hseen : ∀ identity,
      ((visitPages crypto poller (KeyRecord.fresh key) c).stored.items.get identity).isSome →
        .string identity ∈ (visitPages crypto poller (KeyRecord.fresh key) c).seen := by
    intro identity hstored
    rcases (isSome_visitPages hscan hnodup).1 hstored with hold | ⟨v, hv, -, valid, invalid, hvalid,
      item, hitem, hidentity⟩
    · cases hold
    · rw [← identityOf_string hid hidentity]
      exact seen_visitPages hscan hnodup hv (hasked v) hvalid hitem
  obtain ⟨hstored, hevents⟩ := conditionalCycle_seen hseen
  rw [hstored, hevents]
  have hrows : ∀ identity, ((KeyRecord.fresh key : KeyRecord ι).items.get identity).isSome ↔
      ∃ c ∈ [], Lists poller c identity := by
    simp [KeyRecord.fresh]
  have hfollows := Follows.scan hserves (by simp) hc hrows (by
    intro _ _ _ _ _ hget
    cases hget) hscan
  exact ⟨hfollows, visitPages_types⟩

/-- Cycles that each find a page as it was in the one before. -/
theorem Follows.cycles (hserves : Serves crypto all) {cycles : List (List (Visit ι))}
    (hpast : ∀ c ∈ past, c ∈ all) (hcycles : ∀ c ∈ cycles, c ∈ all)
    (h : Follows crypto poller all past last rec) (hgradual : Gradual (last :: cycles))
    (hdone : (conditionalCycles crypto poller rec cycles).failed = none) :
    (∀ identity, ((conditionalCycles crypto poller rec cycles).stored.items.get identity).isSome ↔
        ∃ c ∈ past ++ cycles, Lists poller c identity) ∧
      ∀ spec ∈ (conditionalCycles crypto poller rec cycles).events, spec.type ≠ .deleted := by
  induction cycles generalizing past last rec with
  | nil =>
    refine ⟨fun identity => ?_, ?_⟩
    · rw [List.append_nil]
      exact h.rows identity
    · intro spec hspec
      cases hspec
  | cons c cycles ih =>
    have hc := hcycles c List.mem_cons_self
    rw [Gradual, List.isChain_cons_cons] at hgradual
    rw [conditionalCycles] at hdone ⊢
    cases hfailed : (conditionalCycle crypto poller rec c).failed with
    | some e =>
      simp only [hfailed] at hdone
      cases hdone
    | none =>
      simp only [hfailed] at hdone ⊢
      obtain ⟨hnext, hquiet⟩ := h.step hserves hpast hc hgradual.1 hfailed
      have hpast' : ∀ c' ∈ past ++ [c], c' ∈ all := by
        intro c' hc'
        rcases List.mem_append.1 hc' with hc' | hc'
        · exact hpast c' hc'
        · rw [List.mem_singleton.1 hc']
          exact hc
      have hrest := ih hpast' (fun c' hc' => hcycles c' (List.mem_cons_of_mem _ hc')) hnext hgradual.2
        hdone
      rw [List.append_assoc, List.singleton_append] at hrest
      refine ⟨hrest.1, fun spec hspec => ?_⟩
      rcases List.mem_append.1 hspec with hspec | hspec
      · exact hquiet spec hspec
      · exact hrest.2 spec hspec

/-- While every cycle finds a page unchanged, nothing is deleted: the stored identities are all that
were ever listed. -/
theorem conditionalCycles_keep (hid : StringIdentities poller) (key : PKey) {first : List (Visit ι)}
    {cycles : List (List (Visit ι))} (hserves : Serves crypto (first :: cycles))
    (hgradual : Gradual (first :: cycles))
    (hdone : (conditionalCycles crypto poller (KeyRecord.fresh key) (first :: cycles)).failed = none) :
    (∀ identity, ((conditionalCycles crypto poller (KeyRecord.fresh key)
        (first :: cycles)).stored.items.get identity).isSome ↔
        ∃ c ∈ first :: cycles, Lists poller c identity) ∧
      ∀ spec ∈ (conditionalCycles crypto poller (KeyRecord.fresh key) (first :: cycles)).events,
        spec.type ≠ .deleted := by
  rw [conditionalCycles] at hdone ⊢
  cases hfailed : (conditionalCycle crypto poller (KeyRecord.fresh key) first).failed with
  | some e =>
    simp only [hfailed] at hdone
    cases hdone
  | none =>
    simp only [hfailed] at hdone ⊢
    obtain ⟨hfollows, hquiet⟩ := Follows.first hid key hserves List.mem_cons_self hfailed
    have hrest := hfollows.cycles hserves (by simp) (fun c hc => List.mem_cons_of_mem _ hc) hgradual
      hdone
    refine ⟨hrest.1, fun spec hspec => ?_⟩
    rcases List.mem_append.1 hspec with hspec | hspec
    · exact hquiet spec hspec
    · exact hrest.2 spec hspec

/-- A scan whose pages are all answered 304 changes nothing. -/
theorem visitPages_unchanged (poller : ResolvedPoller ι)
    (hsame : ∀ v ∈ visits, v.notModified crypto rec = true) :
    (visitPages crypto poller rec visits).stored = rec ∧
      (visitPages crypto poller rec visits).events = [] ∧
      (visitPages crypto poller rec visits).failed = none := by
  induction visits with
  | nil => exact ⟨rfl, rfl, rfl⟩
  | cons v visits ih =>
    obtain ⟨hstored, hevents, hfailed⟩ := ih fun v' hv' => hsame v' (List.mem_cons_of_mem _ hv')
    have hv := hsame v List.mem_cons_self
    have hrec : v.stored crypto rec = rec := if_pos hv
    have hitems : v.items crypto rec = [] := if_pos hv
    have hprocess : (v.pollPage crypto poller rec).process (pageDiff crypto) (v.stored crypto rec) =
        .ok ([], []) := by
      rw [PollPage.process, Visit.pollPage, hitems]
      rfl
    rw [visitPages, hprocess, hrec]
    have hsetAll : { rec with items := rec.items.setAll (·.identity) [] } = rec := rfl
    simp only [hsetAll]
    exact ⟨hstored, hevents, hfailed⟩

/-- Cycles over a listing that has not changed since change nothing. -/
theorem conditionalCycles_unchanged {v : Visit ι}
    (hsame : ∀ v' ∈ v :: visits, v'.notModified crypto rec = true) (n : Nat) :
    conditionalCycles crypto poller rec (List.replicate n (v :: visits)) =
      { stored := rec, events := [], failed := none } := by
  obtain ⟨hstored, hevents, hfailed⟩ := visitPages_unchanged poller hsame
  have hcycle : conditionalCycle crypto poller rec (v :: visits) =
      { stored := rec, events := [], failed := none } := by
    have hsaw : (visitPages crypto poller rec (v :: visits)).sawNotModified = true := by
      obtain ⟨events, upserts, -, next, -, -, hscan⟩ := visitPages_cons hfailed
      rw [hscan, hsame v List.mem_cons_self]
      rfl
    unfold conditionalCycle
    simp only [hsaw, hstored, hevents, hfailed]
    rfl
  induction n with
  | zero => rfl
  | succ n ih =>
    rw [List.replicate_succ, conditionalCycles, hcycle]
    simp only [ih]
    rfl

end

/-! ## Runs

`visitPages` computes a page as `PollPage.process` does, which is what page commits of runs do
(`PageStep.process`). Here is the guard of `conditionalCycle`. -/

section Runs

variable {d : Deployment ι} {S : EngineCall → Prop}

/-- A commit of a cycle that was answered 304 deletes nothing. -/
def UnmodifiedKept (pre : List (Label (system ι))) : Label (system ι) → Prop
  | .act t (.store (.commitPoll _ b)) _ _ => (viewAt pre t).notModified = true → b.deletes = []
  | _ => True

theorem run_unmodified_kept (hS : ∀ call, S call → call.KeepsItems) {tr : List (Label (system ι))}
    {c : Config (system ι)} (h : Run (system ι) (d.entry S) (World.fresh d.key) tr c) :
    Throughout UnmodifiedKept tr := by
  intro pre l post htr
  subst htr
  cases l with
  | act t o ch a =>
    obtain ⟨c₁, k, w', hpre, ht, hw⟩ := h.act_at
    have hallow := hpre.allow (obeys d S) ht
    rw [observe_eq_viewAt] at hallow
    cases o with
    | store so =>
      cases so with
      | commitPoll l b =>
        intro hunmodified
        obtain ⟨-, -, ⟨⟨p⟩⟩ | ⟨⟨p⟩⟩⟩ := allow_commit hS hallow
        · exact p.deletes_eq
        · have hfresh := p.phase.fresh
          rw [hunmodified] at hfresh
          cases hfresh
      | _ => trivial
    | _ => trivial
  | start p => trivial
  | drift x => trivial

end Runs

/-! ## A page that shrinks -/

/-- The first of two pages with an item each. -/
def firstPage : ServedPage Sample where
  url := "i?p=1"
  etag := "one"
  lastModified := none
  items := [("a", "1")]
  tagged := by decide

def secondPage : ServedPage Sample where
  url := "i?p=2"
  etag := "two"
  lastModified := none
  items := [("b", "1")]
  tagged := by decide

/-- The second page without its item. -/
def emptiedPage : ServedPage Sample where
  url := "i?p=2"
  etag := "three"
  lastModified := none
  items := []
  tagged := by decide

def visitAt (now : Int) (page : ServedPage ι) : Visit ι := { page, storedAt := now, now }

def fullListing : List (Visit Sample) := [visitAt 0 firstPage, visitAt 0 secondPage]

def shrunkListing : List (Visit Sample) := [visitAt 1 firstPage, visitAt 1 emptiedPage]

/-- Two cycles, and any number of cycles over the listing that the second one found. -/
def shrinkingCycles (n : Nat) : List (List (Visit Sample)) :=
  fullListing :: shrunkListing :: List.replicate n shrunkListing

theorem mem_shrinkingCycles {n : Nat} {c : List (Visit Sample)} (h : c ∈ shrinkingCycles n) :
    c = fullListing ∨ c = shrunkListing := by
  rcases List.mem_cons.1 h with rfl | h
  · exact Or.inl rfl
  · rcases List.mem_cons.1 h with rfl | h
    · exact Or.inr rfl
    · exact Or.inr (List.eq_of_mem_replicate h)

theorem mem_shrinkingListing {n : Nat} {c : List (Visit Sample)} (h : c ∈ shrinkingCycles n)
    {p : ServedPage Sample} (hp : p ∈ listingOf c) :
    p = firstPage ∨ p = secondPage ∨ p = emptiedPage := by
  rcases mem_shrinkingCycles h with rfl | rfl
  · rcases List.mem_pair.1 hp with rfl | rfl
    · exact Or.inl rfl
    · exact Or.inr (Or.inl rfl)
  · rcases List.mem_pair.1 hp with rfl | rfl
    · exact Or.inl rfl
    · exact Or.inr (Or.inr rfl)

theorem shrinkingCycles_serves (n : Nat) : Serves sampleCrypto (shrinkingCycles n) where
  urls c hc := by
    rcases mem_shrinkingCycles hc with rfl | rfl
    · decide
    · decide
  etags c hc c' hc' p hp q hq hurl hetag := by
    have htags : firstPage.etag ≠ secondPage.etag ∧ firstPage.etag ≠ emptiedPage.etag ∧
        secondPage.etag ≠ emptiedPage.etag := by decide
    rcases mem_shrinkingListing hc hp with rfl | rfl | rfl <;>
      rcases mem_shrinkingListing hc' hq with rfl | rfl | rfl
    · rfl
    · exact absurd hetag htags.1
    · exact absurd hetag htags.2.1
    · exact absurd hetag.symm htags.1
    · rfl
    · exact absurd hetag htags.2.2
    · exact absurd hetag.symm htags.2.1
    · exact absurd hetag.symm htags.2.2
    · rfl
  hashes c hc c' hc' p hp q hq hhash := by
    have hne : sampleCrypto.hashUrl "i?p=1" ≠ sampleCrypto.hashUrl "i?p=2" := by decide
    rcases mem_shrinkingListing hc hp with rfl | rfl | rfl <;>
      rcases mem_shrinkingListing hc' hq with rfl | rfl | rfl
    · rfl
    · exact absurd hhash hne
    · exact absurd hhash hne
    · exact absurd hhash.symm hne
    · rfl
    · rfl
    · exact absurd hhash.symm hne
    · rfl
    · rfl

theorem shrinkingCycles_gradual (n : Nat) : Gradual (shrinkingCycles n) := by
  have hshared : ∀ c : List (Visit Sample), c = fullListing ∨ c = shrunkListing →
      ∃ p ∈ listingOf shrunkListing, ∃ q ∈ listingOf c, p.url = q.url ∧ p.etag = q.etag := by
    rintro c (rfl | rfl)
    · exact ⟨firstPage, List.mem_cons_self, firstPage, List.mem_cons_self, rfl, rfl⟩
    · exact ⟨firstPage, List.mem_cons_self, firstPage, List.mem_cons_self, rfl, rfl⟩
  refine List.isChain_cons_cons.2 ⟨hshared _ (Or.inl rfl), ?_⟩
  induction n with
  | zero => exact List.IsChain.singleton _
  | succ n ih => exact List.isChain_cons_cons.2 ⟨hshared _ (Or.inr rfl), ih⟩

/-- The record of the sample poller before its first cycle. -/
def unpolled : KeyRecord Sample := KeyRecord.fresh { poller := "orders", partition := "" }

theorem shrinkingCycles_done (n : Nat) :
    (conditionalCycles sampleCrypto samplePoller unpolled (shrinkingCycles n)).failed = none := by
  have hserves := shrinkingCycles_serves 0
  obtain ⟨hshared, -⟩ := List.isChain_cons_cons.1 (shrinkingCycles_gradual 0)
  have hone : (conditionalCycle sampleCrypto samplePoller unpolled fullListing).failed = none := rfl
  have htwo : (conditionalCycle sampleCrypto samplePoller
      (conditionalCycle sampleCrypto samplePoller unpolled fullListing).stored
        shrunkListing).failed = none := rfl
  obtain ⟨hfirst, -⟩ := Follows.first samplePoller_strings _ hserves List.mem_cons_self hone
  obtain ⟨hsecond, -⟩ := hfirst.step hserves (by simp [shrinkingCycles])
    (by simp [shrinkingCycles]) hshared htwo
  -- from here on, both pages are as their stored ETags say
  have hsame : ∀ v ∈ shrunkListing, v.notModified sampleCrypto (conditionalCycle sampleCrypto
      samplePoller (conditionalCycle sampleCrypto samplePoller unpolled fullListing).stored
        shrunkListing).stored = true := by
    intro v hv
    exact notModified_iff.2 (hsecond.remembers v.page (List.mem_map_of_mem hv))
  rw [shrinkingCycles, conditionalCycles]
  simp only [hone]
  rw [conditionalCycles]
  simp only [htwo]
  rw [shrunkListing] at hsame ⊢
  rw [conditionalCycles_unchanged hsame n]

end Watukuy
