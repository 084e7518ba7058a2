import Watukuy.Run.Deletes
import Watukuy.Run.Histories

/-!
# Validators and commits

A fetch function reads a whole listing under one URL: a 304 gives it no items, a 2xx the listing. The
request stores the validators it was answered, the commits of its cycle write the rows later. A cycle
that stops in between leaves the ETag of a listing that was never committed, and the next cycle is
answered 304.

* `Ledger` notes which ETag each cycle was answered with, and for which one all commits were made last.
* `ListingStage` says where a cycle of such a fetch function stands, `KnowsRows` what the stored rows
  have of its listing.
* `no_change_lost`: in runs in which every 304 is answered for the ETag of the ledger, a cycle that
  completes leaves the rows of the listing, and the events since any earlier step lead to them.
-/

set_option autoImplicit false

namespace Watukuy

open Library KeyRecord

variable {ι : Type}

/-! ## The server -/

/-- A server with a listing under one URL, and a fetch function that reads it whole. -/
structure ListingServer (ι : Type) where
  request : HttpRequest
  /-- The items in a body. -/
  parse : String → List ι
  /-- What the fetch function throws for a response without a listing. -/
  refused : JsError
  /-- The listing an ETag stands for. -/
  listing : String → List ι
  /-- The current ETag, after the steps so far. -/
  etag : List (Label (system ι)) → String

/-- A single page without a next one. -/
def wholePage (items : List ι) : UserCode ι := .page { items } .finish

namespace ListingServer

variable (srv : ListingServer ι)

/-- What the fetch function makes of its response: `{ items: [] }` of a 304, the whole listing of a
2xx. -/
def read : Except JsError HttpResponse → UserCode ι
  | .error e => .raise e
  | .ok res =>
    if res.notModified then wholePage []
    else if res.ok then wholePage (srv.parse (res.body.getD ""))
    else .raise srv.refused

def fetch : UserCode ι := .request srv.request srv.read

/-- A response to `wire` while `etag` is current: 304 exactly when it is the `If-None-Match`, and
otherwise, unless the request fails, the listing. -/
structure Responds (etag : String) (wire : WireRequest) (raw : RawResponse) : Prop where
  same : raw.status = 304 → wire.ifNoneMatch = some etag
  changed : raw.ok = true → wire.ifNoneMatch ≠ some etag
  tagged : raw.ok = true → raw.etag = some etag
  body : raw.ok = true → srv.parse raw.body = srv.listing etag

/-- Every fetch call is one of the fetch function. -/
def Fetches (_pre : List (Label (system ι))) : Label (system ι) → Prop
  | .act _ (.fetch _ _) _ u => u = srv.fetch
  | _ => True

/-- Every response is one of the server. -/
def Answers (pre : List (Label (system ι))) : Label (system ι) → Prop
  | .act _ (.http wire) _ (.ok raw) => srv.Responds (srv.etag pre) wire raw
  | _ => True

end ListingServer

/-! ## The ledger -/

/-- The record of the key after the steps `tr`. -/
def storeAfter (d : Deployment ι) (tr : List (Label (system ι))) : KeyRecord ι :=
  World.store (ι := ι) ((system ι).after (World.fresh d.key) tr)

/-- The commit is the last one of its listing: it deletes, or it leaves nothing to delete. -/
def LastCommit (d : Deployment ι) (pre : List (Label (system ι))) (t : Nat) (b : CommitBatch ι) :
    Prop :=
  b.deletes ≠ [] ∨ ((storeAfter d pre).commit b).missing (seenIn d.poller (viewAt pre t).pages) = []

instance (d : Deployment ι) (pre : List (Label (system ι))) (t : Nat) (b : CommitBatch ι) :
    Decidable (LastCommit d pre t b) := by
  unfold LastCommit
  infer_instance

/-- What a run has done with the listings of the server. -/
structure Ledger where
  /-- The ETag the cycle of a thread was answered with. -/
  answered : Nat → Option String := fun _ => none
  /-- The ETag of the listing whose commits were made last, if all of them were. -/
  written : Option String := none

/-- One more step. The commit of a cycle that was answered 304 changes nothing. -/
def Ledger.next (srv : ListingServer ι) (d : Deployment ι) (g : Ledger)
    (pre : List (Label (system ι))) : Label (system ι) → Ledger
  | .act t (.pollStart _) _ _ => { g with answered := Function.update g.answered t none }
  | .act t (.http _) _ (.ok raw) =>
    if raw.status = 304 ∨ raw.ok = true then
      { g with answered := Function.update g.answered t (some (srv.etag pre)) }
    else g
  | .act t (.store (.commitPoll _ b)) ch a =>
    if tookEffect ch a = true ∧ (viewAt pre t).notModified = false then
      { g with written := if LastCommit d pre t b then g.answered t else none }
    else g
  | _ => g

/-- The ledger of a run. -/
def ledger (srv : ListingServer ι) (d : Deployment ι) (tr : List (Label (system ι))) : Ledger :=
  (tr.foldl (fun s l => (s.1 ++ [l], s.2.next srv d s.1 l)) (([] : List (Label (system ι))), {})).2

/-- A 304 is answered only for the listing whose commits were made last, all of them. -/
def KeepsUp (srv : ListingServer ι) (d : Deployment ι) (pre : List (Label (system ι))) :
    Label (system ι) → Prop
  | .act _ (.http _) _ (.ok raw) => raw.status = 304 → (ledger srv d pre).written = some (srv.etag pre)
  | _ => True

/-! ## What a listing leaves -/

/-- A valid item of the listing has the identity. -/
def Includes (poller : ResolvedPoller ι) (listing : List ι) (identity : String) : Prop :=
  ∃ item ∈ validOf poller listing, identityOf poller item = .ok identity

/-- The rows have the listing: a row for each identity, which reflects its latest item. -/
structure Covers (d : Deployment ι) (listing : List ι) (rows : OrderedMap String (ItemRow ι)) :
    Prop where
  stored : ∀ identity, Includes d.poller listing identity → (rows.get identity).isSome
  reflects : ∀ latest, latestItems d.poller (validOf d.poller listing) = .ok latest →
    ∀ entry ∈ latest.entries, Reflects d.crypto d.poller rows entry

/-- The rows are those of the listing. -/
structure Mirrors (d : Deployment ι) (listing : List ι) (rows : OrderedMap String (ItemRow ι)) :
    Prop extends Covers d listing rows where
  only : ∀ identity, (rows.get identity).isSome → Includes d.poller listing identity

/-- The end-of-cycle save of a cycle that completed without an error: it was not cut short, and no
consumer halted it. -/
def Completes (v : CycleView ι) (p : StatePatch) : Prop :=
  p.lanes.isSome ∧ v.halted = false ∧
    ∃ schedule ∈ p.schedule, ∃ summary ∈ schedule.lastPoll, summary.truncated = false

/-- A cycle that completes leaves the rows of the listing it was answered, and the events committed
since any earlier step lead from the contents then to those now. -/
def CaughtUp (srv : ListingServer ι) (d : Deployment ι) (pre : List (Label (system ι))) :
    Label (system ι) → Prop
  | .act t (.store (.saveState _ p)) ch a =>
    tookEffect ch a = true → Completes (viewAt pre t) p →
      (∃ etag, (ledger srv d pre).answered t = some etag ∧
        Mirrors d (srv.listing etag) (storeAfter d pre).items) ∧
      ∀ earlier since, pre = earlier ++ since →
        Leads (contents (storeAfter d earlier).items) (changeLog d since)
          (contents (storeAfter d pre).items)
  | _ => True

section
variable {d : Deployment ι} {srv : ListingServer ι} {listing : List ι} {rec : KeyRecord ι}
  {rows : OrderedMap String (ItemRow ι)}

theorem mem_seenIn_page (hid : StringIdentities d.poller) {page : Page ι} {identity : String} :
    .string identity ∈ seenIn d.poller [page] ↔ Includes d.poller page.items identity := by
  have hsingle : seenIn d.poller [page] = (validOf d.poller page.items).map d.poller.identity := by
    simp [seenIn]
  rw [hsingle, List.mem_map]
  refine exists_congr fun item => and_congr_right fun _ => ⟨fun h => ?_, identityOf_string hid⟩
  rw [identityOf, h]

/-- Deletes of what is not listed leave the listing. -/
theorem Covers.eraseAll (h : Covers d listing rows) {ids : List String}
    (hunlisted : ∀ id ∈ ids, ¬Includes d.poller listing id) : Covers d listing (rows.eraseAll ids) := by
  have hkept : ∀ identity, Includes d.poller listing identity →
      (rows.eraseAll ids).get identity = rows.get identity := by
    intro identity hlisted
    rw [OrderedMap.get_eraseAll, if_neg fun hmem => hunlisted identity hmem hlisted]
  constructor
  · intro identity hlisted
    rw [hkept identity hlisted]
    exact h.stored identity hlisted
  · intro latest hlatest entry hentry
    obtain ⟨hmem, hident⟩ := mem_latestItems hlatest hentry
    obtain ⟨row, hrow, hsettled⟩ := h.reflects latest hlatest entry hentry
    exact ⟨row, (hkept _ ⟨entry.2, hmem, hident⟩).trans hrow, hsettled⟩

/-- Rows that have the listing mirror it once nothing is missing from it. -/
theorem Covers.mirrors (hid : StringIdentities d.poller) {page : Page ι}
    (h : Covers d page.items rec.items) (hmissing : rec.missing (seenIn d.poller [page]) = []) :
    Mirrors d page.items rec.items := by
  refine ⟨h, fun identity hstored => ?_⟩
  by_contra hunlisted
  have hmem : identity ∈ rec.missing (seenIn d.poller [page]) :=
    mem_missing.2 ⟨hstored, fun hseen => hunlisted ((mem_seenIn_page hid).1 hseen)⟩
  rw [hmissing] at hmem
  exact List.not_mem_nil hmem

/-- The commit of a page leaves its items. -/
theorem PageStep.covers {v : CycleView ι} {b : CommitBatch ι} (p : PageStep d v b)
    (hrows : p.rows = rec.loadVersions (p.valid.map d.poller.identity)) :
    Covers d p.items (rec.commit b).items := by
  have hvalid : validOf d.poller p.items = p.valid := by rw [validOf, p.validated]
  have hdiff : pageDiff d.crypto d.poller (rec.loadVersions (p.valid.map d.poller.identity)) p.at_
      p.cycle.isFullScan p.valid =
        .ok (diffCandidates d.poller p.rows p.at_ p.cycle.isFullScan p.candidates) := by
    rw [← hrows, pageDiff, p.prepared]
    rfl
  rw [commit_items_page p.deletes_eq, p.upserts_eq]
  constructor
  · rintro identity ⟨item, hitem, hident⟩
    rw [hvalid] at hitem
    exact (isSome_diff hdiff).2 (Or.inr ⟨item, hitem, hident⟩)
  · intro latest hlatest
    rw [hvalid] at hlatest
    exact reflects_diff hdiff hlatest

/-- The commit of a page without items changes nothing. -/
theorem PageStep.commit_nothing {v : CycleView ι} {b : CommitBatch ι} (p : PageStep d v b)
    (hitems : p.items = []) : (rec.commit b).items = rec.items := by
  have hvalid := p.validated
  rw [hitems] at hvalid
  have hnone : p.valid = [] := (Prod.mk.inj (Except.ok.inj hvalid)).1.symm
  have hprep := p.prepared
  rw [hnone] at hprep
  have hcandidates : p.candidates = [] := (Prod.mk.inj (Except.ok.inj hprep)).1.symm
  rw [commit_items_page p.deletes_eq, p.upserts_eq, hcandidates]
  rfl

end

/-! ## The stages of a cycle -/

/-- The page a fetch call gives. -/
def ListingServer.page (srv : ListingServer ι) (notModified : Bool) (etag : String) : Page ι :=
  { items := if notModified then [] else srv.listing etag }

/-- No page of the cycle was taken. -/
structure Pageless (v : CycleView ι) : Prop where
  pages : v.pages = []
  inCall : v.inCall = 0
  streamed : v.streamed = none
  deleted : v.deleted = []

/-- Where a cycle stands, and the ETag it was answered with. -/
inductive ListingStage (srv : ListingServer ι) (v : CycleView ι) (answered : Option String) : Prop where
  | idle (pageless : Pageless v) (fetches : v.fetches = []) (code : v.code = .finish)
      (response : v.response = none) (fresh : v.notModified = false)
  | asking (pageless : Pageless v) (fetches : v.fetches ≠ []) (code : v.code = srv.fetch)
      (response : v.response = none) (fresh : v.notModified = false)
  | asked (pageless : Pageless v) (fetches : v.fetches ≠ []) (code : v.code = srv.fetch)
      (raw : RawResponse) (response : v.response = some raw)
      (same : raw.status = 304 → v.notModified = true ∧ answered.isSome)
      (changed : raw.ok = true → v.notModified = false ∧
        ∃ etag, answered = some etag ∧ srv.parse raw.body = srv.listing etag)
  | given (pageless : Pageless v) (fetches : v.fetches ≠ []) (etag : String)
      (code : v.code = .page (srv.page v.notModified etag) .finish) (answered_eq : answered = some etag)
  | taken (fetches : v.fetches ≠ []) (etag : String) (code : v.code = .finish)
      (pages : v.pages = [srv.page v.notModified etag]) (inCall : v.inCall = 1)
      (answered_eq : answered = some etag)
  | failed (pageless : Pageless v) (fetches : v.fetches ≠ []) (e : JsError) (code : v.code = .raise e)

section
variable {d : Deployment ι} {srv : ListingServer ι} {v w : CycleView ι} {answered : Option String}

/-- Without a page, the loop over the pages has not ended. -/
theorem Pageless.not_ended (h : Pageless v) (hcode : v.fetches ≠ [] → v.code ≠ .finish)
    (htarget : v.start.target = none) : ¬ScanEnd v := by
  have hcall := h.inCall
  rintro (⟨hpos, -⟩ | ⟨hfetches, -, hfinish⟩ | ⟨htwo, -⟩ | ⟨-, hsome⟩)
  · omega
  · exact hcode hfetches hfinish
  · omega
  · rw [htarget] at hsome
    cases hsome

/-- A cycle whose loop has ended took its page. -/
theorem ListingStage.pages_of_ended (h : ListingStage srv v answered) (hended : ScanEnd v)
    (htarget : v.start.target = none) : v.pages ≠ [] := by
  cases h with
  | idle hnone hfetches _ _ _ =>
    exact absurd hended (hnone.not_ended (fun hne => absurd hfetches hne) htarget)
  | asking hnone _ hcode _ _ =>
    exact absurd hended (hnone.not_ended (fun _ => by rw [hcode]; exact nofun) htarget)
  | asked hnone _ hcode _ _ _ _ =>
    exact absurd hended (hnone.not_ended (fun _ => by rw [hcode]; exact nofun) htarget)
  | given hnone _ _ hcode _ =>
    exact absurd hended (hnone.not_ended (fun _ => by rw [hcode]; exact nofun) htarget)
  | taken _ _ _ hpages _ _ => rw [hpages]; exact List.cons_ne_nil _ _
  | failed hnone _ _ hcode =>
    exact absurd hended (hnone.not_ended (fun _ => by rw [hcode]; exact nofun) htarget)

/-- The page of a cycle is that of the listing it was answered. -/
theorem ListingStage.page_of_pages (h : ListingStage srv v answered) (hpages : v.pages ≠ []) :
    ∃ etag, v.pages = [srv.page v.notModified etag] ∧ answered = some etag := by
  cases h with
  | taken _ etag _ hpage _ hanswered => exact ⟨etag, hpage, hanswered⟩
  | idle hnone _ _ _ _ => exact absurd hnone.pages hpages
  | asking hnone _ _ _ _ => exact absurd hnone.pages hpages
  | asked hnone _ _ _ _ _ _ => exact absurd hnone.pages hpages
  | given hnone _ _ _ _ => exact absurd hnone.pages hpages
  | failed hnone _ _ _ => exact absurd hnone.pages hpages

/-- A cycle that streamed the stored identities took its page. -/
theorem ListingStage.pages_of_streamed (h : ListingStage srv v answered) (hsome : v.streamed.isSome) :
    v.pages ≠ [] := by
  cases h with
  | taken _ _ _ hpages _ _ =>
    rw [hpages]
    exact List.cons_ne_nil _ _
  | idle hnone _ _ _ _ | asking hnone _ _ _ _ | asked hnone _ _ _ _ _ _ | given hnone _ _ _ _
  | failed hnone _ _ _ =>
    rw [hnone.streamed] at hsome
    cases hsome

/-- A fetch call of the cycle goes on with a request only before its response. -/
theorem ListingStage.asking_of_request (h : ListingStage srv v answered)
    {r : HttpRequest} {k : Except JsError HttpResponse → UserCode ι} (hcode : v.code = .request r k)
    (hresponse : v.response = none) : Pageless v ∧ v.fetches ≠ [] ∧ v.notModified = false := by
  cases h with
  | idle _ _ hcode' _ _ => rw [hcode] at hcode'; cases hcode'
  | asking hnone hfetches _ _ hfresh => exact ⟨hnone, hfetches, hfresh⟩
  | asked _ _ _ _ hraw _ _ => rw [hresponse] at hraw; cases hraw
  | given _ _ _ hcode' _ => rw [hcode] at hcode'; cases hcode'
  | taken _ _ hcode' _ _ _ => rw [hcode] at hcode'; cases hcode'
  | failed _ _ _ hcode' => rw [hcode] at hcode'; cases hcode'

/-- The view is in the same cycle at the same page. -/
theorem ListingStage.same (h : ListingStage srv v answered) (hfetches : w.fetches = v.fetches)
    (hcode : w.code = v.code) (hpages : w.pages = v.pages) (hcall : w.inCall = v.inCall)
    (hresponse : w.response = v.response) (hfresh : w.notModified = v.notModified)
    (hnone : v.pages = [] → w.streamed = v.streamed ∧ w.deleted = v.deleted) :
    ListingStage srv w answered := by
  have hpageless : Pageless v → Pageless w := by
    intro hv
    obtain ⟨hstreamed, hdeleted⟩ := hnone hv.pages
    exact ⟨hpages.trans hv.pages, hcall.trans hv.inCall, hstreamed.trans hv.streamed,
      hdeleted.trans hv.deleted⟩
  cases h with
  | idle hv hf hc hr hn =>
    exact .idle (hpageless hv) (hfetches.trans hf) (hcode.trans hc) (hresponse.trans hr)
      (hfresh.trans hn)
  | asking hv hf hc hr hn =>
    exact .asking (hpageless hv) (hfetches ▸ hf) (hcode.trans hc) (hresponse.trans hr)
      (hfresh.trans hn)
  | asked hv hf hc raw hr hsame hchanged =>
    rw [← hfresh] at hsame hchanged
    exact .asked (hpageless hv) (hfetches ▸ hf) (hcode.trans hc) raw (hresponse.trans hr) hsame hchanged
  | given hv hf etag hc ha =>
    rw [← hfresh] at hc
    exact .given (hpageless hv) (hfetches ▸ hf) etag (hcode.trans hc) ha
  | taken hf etag hc hp hi ha =>
    rw [← hfresh] at hp
    exact .taken (hfetches ▸ hf) etag (hcode.trans hc) (hpages.trans hp) (hcall.trans hi) ha
  | failed hv hf e hc => exact .failed (hpageless hv) (hfetches ▸ hf) e (hcode.trans hc)

theorem ListingStage.fresh (hnone : Pageless v) (hfetches : v.fetches = []) (hcode : v.code = .finish)
    (hresponse : v.response = none) (hfresh : v.notModified = false) : ListingStage srv v answered :=
  .idle hnone hfetches hcode hresponse hfresh

/-- What the fetch function makes of what its request settled to. -/
theorem ListingServer.read_settled {raw : RawResponse} {res : Except JsError HttpResponse}
    {notModified : Bool} (hsettles : Settles (some raw) res)
    (hsame : raw.status = 304 → notModified = true ∧ answered.isSome)
    (hchanged : raw.ok = true → notModified = false ∧
      ∃ etag, answered = some etag ∧ srv.parse raw.body = srv.listing etag) :
    (∃ etag, srv.read res = .page (srv.page notModified etag) .finish ∧ answered = some etag) ∨
      ∃ e, srv.read res = .raise e := by
  unfold Settles at hsettles
  dsimp only at hsettles
  split at hsettles
  · rename_i h304
    obtain ⟨rfl, hsome⟩ := hsame h304
    obtain ⟨etag, rfl⟩ := Option.isSome_iff_exists.1 hsome
    rw [hsettles]
    exact Or.inl ⟨etag, rfl, rfl⟩
  split at hsettles
  · rename_i hok
    obtain ⟨rfl, etag, rfl, hparse⟩ := hchanged hok
    rw [hsettles]
    refine Or.inl ⟨etag, ?_, rfl⟩
    simp [ListingServer.read, ListingServer.page, wholePage, hparse]
  · cases res with
    | error e => exact Or.inr ⟨e, rfl⟩
    | ok r =>
      obtain ⟨hfresh, hnot⟩ := hsettles r rfl
      refine Or.inr ⟨srv.refused, ?_⟩
      simp [ListingServer.read, hfresh, hnot]

end

/-! ## The ledger of one more step -/

section
variable {d : Deployment ι} {srv : ListingServer ι} {g : Ledger} {pre : List (Label (system ι))}
  {t t' : Nat} {o : Op ι} {ch : Choice ι} {a : Ans o}

theorem ledger_append (srv : ListingServer ι) (d : Deployment ι) (tr : List (Label (system ι)))
    (l : Label (system ι)) : ledger srv d (tr ++ [l]) = (ledger srv d tr).next srv d tr l := by
  have hsteps : ∀ tr : List (Label (system ι)),
      (tr.foldl (fun s l => (s.1 ++ [l], s.2.next srv d s.1 l))
        (([] : List (Label (system ι))), ({} : Ledger))).1 = tr := by
    intro tr
    induction tr using List.reverseRecOn with
    | nil => rfl
    | append_singleton tr l ih => rw [List.foldl_append, List.foldl_cons, List.foldl_nil, ih]
  rw [ledger, List.foldl_append, List.foldl_cons, List.foldl_nil, hsteps]
  rfl

/-- A step leaves what the cycles of other threads were answered. -/
theorem Ledger.answered_other (hne : t' ≠ t) :
    (g.next srv d pre (.act t o ch a)).answered t' = g.answered t' := by
  cases o with
  | store so =>
    cases so with
    | commitPoll l b =>
      simp only [Ledger.next]
      split <;> rfl
    | _ => rfl
  | pollStart lane => exact Function.update_of_ne hne _ _
  | http wire =>
    cases a with
    | error e => rfl
    | ok raw =>
      simp only [Ledger.next]
      split
      · exact Function.update_of_ne hne _ _
      · rfl
  | _ => rfl

/-- Only a commit changes which listing is written. -/
theorem Ledger.written_kept (hcommit : ∀ l b, o ≠ .store (.commitPoll l b)) :
    (g.next srv d pre (.act t o ch a)).written = g.written := by
  cases o with
  | store so =>
    cases so with
    | commitPoll l b => exact absurd rfl (hcommit l b)
    | _ => rfl
  | http wire =>
    cases a with
    | error e => rfl
    | ok raw =>
      simp only [Ledger.next]
      split <;> rfl
  | _ => rfl

end

/-! ## What every thread knows -/

section Steps

variable {d : Deployment ι} {srv : ListingServer ι} {S : EngineCall → Prop}
  {pre : List (Label (system ι))} {w w' : World ι} {t : Nat} {o : Op ι} {ch : Choice ι} {a : Ans o}

/-- Every thread is at a stage of a cycle of the fetch function. -/
def Staged (srv : ListingServer ι) (d : Deployment ι) (tr : List (Label (system ι))) : Prop :=
  ∀ t, ListingStage srv (viewAt tr t) ((ledger srv d tr).answered t)

theorem fullScan_of_snapshotDiff (hdiff : d.poller.cursor.isSnapshotDiff = true) (lane : Lane) :
    d.fullScan lane = true := by
  rw [Deployment.fullScan, hdiff, Bool.or_true]

/-- A step of the thread itself. -/
theorem ListingStage.learn
    (h : ListingStage srv (viewAt pre t) ((ledger srv d pre).answered t))
    (hS : ∀ call, S call → call.KeepsItems) (hdiff : d.poller.cursor.isSnapshotDiff = true)
    (htarget : (viewAt pre t).start.target = none)
    (hallow : (cycleContract d (administers d S)).allow (viewAt pre t) o)
    (hcalls : srv.Fetches pre (.act t o ch a)) (hanswers : srv.Answers pre (.act t o ch a)) :
    ListingStage srv ((viewAt pre t).learn o a)
      (((ledger srv d pre).next srv d pre (.act t o ch a)).answered t) := by
  generalize hg : ledger srv d pre = g at h ⊢
  generalize hv : viewAt pre t = v at h hallow htarget ⊢
  cases o with
  | store so =>
    cases so with
    | acquireLease owner ttlMs now =>
      cases a with
      | error e => exact h
      | ok got =>
        cases got with
        | none => exact h
        | some l => exact .fresh ⟨rfl, rfl, rfl, rfl⟩ rfl rfl rfl rfl
    | streamIdentities =>
      have hmay : MayStream d v := by
        rcases hallow with hmay | hadmin
        · exact hmay
        · exact hadmin.elim
      have hpages := h.pages_of_ended hmay.ended htarget
      cases a with
      | error e => exact h
      | ok batches => exact h.same rfl rfl rfl rfl rfl rfl fun hnone => absurd hnone hpages
    | commitPoll l b =>
      have hpages : v.pages ≠ [] := by
        obtain ⟨-, -, ⟨⟨p⟩⟩ | ⟨⟨p⟩⟩⟩ := allow_commit hS hallow
        · rw [p.pages_eq]
          simp
        · exact h.pages_of_ended p.phase.ended htarget
      have hanswered : (g.next srv d pre (.act t (.store (.commitPoll l b)) ch a)).answered t =
          g.answered t := by
        simp only [Ledger.next]
        split <;> rfl
      rw [hanswered]
      cases a with
      | error e => exact h.same rfl rfl rfl rfl rfl rfl fun hnone => absurd hnone hpages
      | ok x => exact h.same rfl rfl rfl rfl rfl rfl fun hnone => absurd hnone hpages
    | loadState | loadVersions _ | saveState _ _ | getValidator _ =>
      cases a <;> exact h.same rfl rfl rfl rfl rfl rfl fun _ => ⟨rfl, rfl⟩
    | _ => exact h
  | pollStart lane => exact .fresh ⟨rfl, rfl, rfl, rfl⟩ rfl rfl rfl rfl
  | fetch lane ctx =>
    obtain rfl : a = srv.fetch := hcalls
    -- a listing of one page does not go on, so this is the first fetch call
    have hgoes : GoesOn v := hallow.2.2.2.2 (fullScan_of_snapshotDiff hdiff lane)
    have hne' : v.fetches ++ [(ctx, srv.fetch)] ≠ [] := by simp
    cases h with
    | idle hnone _ _ hresponse hfresh =>
      exact .asking ⟨hnone.pages, rfl, hnone.streamed, hnone.deleted⟩ hne' rfl hresponse hfresh
    | taken hne _ _ hpages _ _ =>
      rcases hgoes with hnil | ⟨p, hp, hmore⟩
      · exact absurd hnil hne
      · rw [hpages] at hp
        obtain rfl := Option.some.inj hp
        cases hmore
    | asking hnone hne _ _ _ | asked hnone hne _ _ _ _ _ | given hnone hne _ _ _
    | failed hnone hne _ _ =>
      rcases hgoes with hnil | ⟨p, hp, -⟩
      · exact absurd hnil hne
      · rw [hnone.pages] at hp
        cases hp
  | http wire =>
    obtain ⟨hresponse, r, k, hcode, -⟩ := hallow
    obtain ⟨hnone, hfetches, hfresh⟩ := h.asking_of_request hcode hresponse
    have hfetch : v.code = srv.fetch := by
      cases h with
      | asking _ _ hfetch _ _ => exact hfetch
      | asked _ _ hfetch _ _ _ _ => exact hfetch
      | idle _ _ hcode' _ _ | given _ _ _ hcode' _ | taken _ _ hcode' _ _ _ | failed _ _ _ hcode' =>
        rw [hcode] at hcode'
        cases hcode'
    cases a with
    | error e => exact .asking hnone hfetches hfetch hresponse hfresh
    | ok raw =>
      have hbody : srv.Responds (srv.etag pre) wire raw := hanswers
      have hlearn : v.learn (.http wire) (.ok raw) =
          { v with response := some raw, notModified := v.notModified || raw.status == 304 } := rfl
      rw [hlearn, hfresh, Bool.false_or]
      refine .asked ⟨hnone.pages, hnone.inCall, hnone.streamed, hnone.deleted⟩ hfetches hfetch raw rfl
        ?_ ?_
      · intro h304
        simp [Ledger.next, h304]
      · intro hok
        have hne : raw.status ≠ 304 := by
          intro h304
          simp [RawResponse.ok, h304] at hok
        refine ⟨by simp [hne], srv.etag pre, ?_, hbody.body hok⟩
        simp [Ledger.next, hok]
  | resume res =>
    obtain ⟨⟨r, k, hcode⟩, hsettles⟩ := hallow
    have hlearn : v.learn (.resume res) a =
        { v with code := k res, validator := none, response := none, aborted := false } := by
      simp only [CycleView.learn, hcode]
    rw [hlearn]
    cases h with
    | idle _ _ hcode' _ _ | given _ _ _ hcode' _ | taken _ _ hcode' _ _ _ | failed _ _ _ hcode' =>
      rw [hcode] at hcode'
      cases hcode'
    | asking hnone hfetches hfetch hresponse _ =>
      rw [hfetch] at hcode
      obtain ⟨-, rfl⟩ := UserCode.request.inj hcode
      rw [hresponse] at hsettles
      obtain ⟨e, rfl⟩ := hsettles
      exact .failed ⟨hnone.pages, hnone.inCall, hnone.streamed, hnone.deleted⟩ hfetches e rfl
    | asked hnone hfetches hfetch raw hresponse hsame hchanged =>
      rw [hfetch] at hcode
      obtain ⟨-, rfl⟩ := UserCode.request.inj hcode
      rw [hresponse] at hsettles
      have hnone' : Pageless { v with
          code := srv.read res, validator := none, response := none, aborted := false } :=
        ⟨hnone.pages, hnone.inCall, hnone.streamed, hnone.deleted⟩
      rcases ListingServer.read_settled hsettles hsame hchanged with ⟨etag, hread, hanswered⟩ | ⟨e, hread⟩
      · exact .given hnone' hfetches etag hread hanswered
      · exact .failed hnone' hfetches e hread
  | next page rest =>
    obtain ⟨hcode, -⟩ := hallow
    cases h with
    | given hnone hfetches etag hcode' hanswered =>
      rw [hcode] at hcode'
      obtain ⟨rfl, rfl⟩ := UserCode.page.inj hcode'
      refine .taken hfetches etag rfl ?_ ?_ hanswered
      · simp [CycleView.learn, hnone.pages]
      · simp [CycleView.learn, hnone.inCall]
    | idle _ _ hcode' _ _ | asking _ _ hcode' _ _ | asked _ _ hcode' _ _ _ _ | taken _ _ hcode' _ _ _
    | failed _ _ _ hcode' =>
      rw [hcode] at hcode'
      cases hcode'
  | _ => exact h.same rfl rfl rfl rfl rfl rfl fun _ => ⟨rfl, rfl⟩

/-- What the holder of the lease and the ledger know of the stored rows. -/
structure KnowsRows (d : Deployment ι) (g : Ledger) (rec : KeyRecord ι) (t : Nat) (v : CycleView ι) :
    Prop where
  /-- After a 304, the rows are those of the listing it was answered for. -/
  same : v.notModified = true → (g.answered t).isSome ∧ g.written = g.answered t
  /-- Once the page is committed, the rows have its items. -/
  covered : v.notModified = false → v.committed = v.pages.length → ∀ page, v.pages = [page] →
    Covers d page.items rec.items
  deleted : v.deleted ≠ [] → v.streamed.isSome ∧ g.written = g.answered t

theorem KnowsRows.fresh {d : Deployment ι} {g : Ledger} {rec : KeyRecord ι} {v : CycleView ι}
    (hfresh : v.notModified = false) (hpages : v.pages = []) (hdeleted : v.deleted = []) :
    KnowsRows d g rec t v where
  same h := by rw [hfresh] at h; cases h
  covered _ _ page hpage := by rw [hpages] at hpage; cases hpage
  deleted h := absurd hdeleted h

/-- The same view of the same rows. -/
theorem KnowsRows.mono {g g' : Ledger} {rec rec' : KeyRecord ι} {v v' : CycleView ι}
    (h : KnowsRows d g rec t v) (hanswered : g'.answered t = g.answered t)
    (hwritten : g'.written = g.written) (hitems : rec'.items = rec.items)
    (hfresh : v'.notModified = v.notModified) (hpages : v'.pages = v.pages)
    (hcommitted : v'.committed = v.committed) (hdeleted : v'.deleted = v.deleted)
    (hstreamed : v'.deleted ≠ [] → v.streamed.isSome → v'.streamed.isSome) :
    KnowsRows d g' rec' t v' where
  same hsame := by
    rw [hanswered, hwritten]
    exact h.same (hfresh ▸ hsame)
  covered hfresh' hcommitted' page hpage := by
    rw [hitems]
    rw [hfresh] at hfresh'
    rw [hcommitted, hpages] at hcommitted'
    rw [hpages] at hpage
    exact h.covered hfresh' hcommitted' page hpage
  deleted hne := by
    obtain ⟨hsome, heq⟩ := h.deleted (hdeleted ▸ hne)
    rw [hanswered, hwritten]
    exact ⟨hstreamed hne hsome, heq⟩

/-- A step of the holder that neither commits nor acquires. -/
theorem KnowsRows.learn {rec rec' : KeyRecord ι}
    (h : KnowsRows d (ledger srv d pre) rec t (viewAt pre t))
    (hstage : ListingStage srv (viewAt pre t) ((ledger srv d pre).answered t))
    (hallow : (cycleContract d (administers d S)).allow (viewAt pre t) o)
    (hkeeps : KeepsUp srv d pre (.act t o ch a)) (hitems : rec'.items = rec.items)
    (hacq : ∀ owner ttlMs now, o ≠ .store (.acquireLease owner ttlMs now))
    (hcommit : ∀ l b, o ≠ .store (.commitPoll l b)) :
    KnowsRows d ((ledger srv d pre).next srv d pre (.act t o ch a)) rec' t ((viewAt pre t).learn o a) := by
  have hwritten : ((ledger srv d pre).next srv d pre (.act t o ch a)).written =
      (ledger srv d pre).written := Ledger.written_kept hcommit
  cases o with
  | store so =>
    cases so with
    | acquireLease owner ttlMs now => exact absurd rfl (hacq owner ttlMs now)
    | commitPoll l b => exact absurd rfl (hcommit l b)
    | streamIdentities =>
      cases a with
      | error e => exact h.mono rfl rfl hitems rfl rfl rfl rfl fun _ hsome => hsome
      | ok batches => exact h.mono rfl rfl hitems rfl rfl rfl rfl fun _ _ => rfl
    | loadState | loadVersions _ | saveState _ _ | getValidator _ =>
      cases a <;> exact h.mono rfl rfl hitems rfl rfl rfl rfl fun _ hsome => hsome
    | _ => exact h.mono rfl rfl hitems rfl rfl rfl rfl fun _ hsome => hsome
  | pollStart lane => exact KnowsRows.fresh rfl rfl rfl
  | http wire =>
    obtain ⟨hresponse, r, k, hcode, -⟩ := hallow
    obtain ⟨hnone, -, hfresh⟩ := hstage.asking_of_request hcode hresponse
    cases a with
    | error e => exact h.mono rfl rfl hitems rfl rfl rfl rfl fun _ hsome => hsome
    | ok raw =>
      refine ⟨fun h304 => ?_, fun _ _ page hpage => ?_, fun hne => absurd hnone.deleted hne⟩
      · have hstatus : raw.status = 304 := by
          have hor : (viewAt pre t).notModified || raw.status == 304 := h304
          simpa [hfresh] using hor
        rw [hwritten, hkeeps hstatus]
        simp [Ledger.next, hstatus]
      · have hpages : (viewAt pre t).pages = [page] := hpage
        rw [hnone.pages] at hpages
        cases hpages
  | next page rest =>
    obtain ⟨-, hcommitted⟩ := hallow
    -- the page just taken is not committed yet
    refine ⟨h.same, fun _ hall => ?_, h.deleted⟩
    have hlength : (viewAt pre t).committed = ((viewAt pre t).pages ++ [page]).length := hall
    rw [hcommitted, List.length_append, List.length_singleton] at hlength
    omega
  | _ => exact h.mono rfl rfl hitems rfl rfl rfl rfl fun _ hsome => hsome

section Commits

variable {rec : KeyRecord ι} {l : Lease} {b : CommitBatch ι} {a : Ans (.store (.commitPoll l b) : Op ι)}

/-- What a commit of the holder that took effect must keep: the ledger, and what the holder knows. -/
def Books (srv : ListingServer ι) (d : Deployment ι) (g : Ledger) (rec : KeyRecord ι) (t : Nat)
    (v : CycleView ι) : Prop :=
  (∀ etag, g.written = some etag → Mirrors d (srv.listing etag) rec.items) ∧ KnowsRows d g rec t v

/-- The page of a cycle that was answered 304 changes nothing. -/
theorem Books.commit_same (h : Books srv d (ledger srv d pre) rec t (viewAt pre t))
    (hdiff : d.poller.cursor.isSnapshotDiff = true) (p : PageStep d (viewAt pre t) b) {etag : String}
    (hpages : (viewAt pre t).pages = [srv.page (viewAt pre t).notModified etag])
    (hsame : (viewAt pre t).notModified = true) :
    Books srv d ((ledger srv d pre).next srv d pre (.act t (.store (.commitPoll l b)) ch a))
      (rec.commit b) t ((viewAt pre t).learn (.store (.commitPoll l b)) a) := by
  have hledger : (ledger srv d pre).next srv d pre (.act t (.store (.commitPoll l b)) ch a) =
      ledger srv d pre := by
    simp [Ledger.next, hsame]
  have hpage : p.page = srv.page true etag := by
    have heq := p.pages_eq
    rw [hpages, hsame] at heq
    simpa using (congrArg List.getLast? heq).symm
  have hitems : (rec.commit b).items = rec.items := by
    refine p.commit_nothing ?_
    rw [p.full_items ((fullScan_iff p.inCycle).2 (fullScan_of_snapshotDiff hdiff _)), hpage]
    rfl
  obtain ⟨hwritten, hheld⟩ := h
  rw [hledger]
  constructor
  · rw [hitems]
    exact hwritten
  · have hnone := p.streamed_eq
    cases a with
    | error e =>
      refine hheld.mono rfl rfl hitems rfl rfl rfl rfl fun _ hsome => ?_
      rw [hnone] at hsome
      cases hsome
    | ok x =>
      refine ⟨hheld.same, fun hfresh => ?_, fun hne => ?_⟩
      · have hfresh' : (viewAt pre t).notModified = false := hfresh
        rw [hsame] at hfresh'
        cases hfresh'
      · have hdeleted : (viewAt pre t).deleted ++ b.deletes ≠ [] := hne
        rw [p.deletes_eq, List.append_nil] at hdeleted
        exact hheld.deleted hdeleted

/-- The page of a cycle that was answered its listing. -/
theorem Books.commit_page (h : Books srv d (ledger srv d pre) rec t (viewAt pre t))
    (hid : StringIdentities d.poller) (hdiff : d.poller.cursor.isSnapshotDiff = true)
    (p : PageStep d (viewAt pre t) b) (hcur : Current rec (viewAt pre t)) (hrec : rec = storeAfter d pre)
    {etag : String} (hpages : (viewAt pre t).pages = [srv.page (viewAt pre t).notModified etag])
    (hanswered : (ledger srv d pre).answered t = some etag)
    (hfresh : (viewAt pre t).notModified = false) (heffect : tookEffect ch a = true) :
    Books srv d ((ledger srv d pre).next srv d pre (.act t (.store (.commitPoll l b)) ch a))
      (rec.commit b) t ((viewAt pre t).learn (.store (.commitPoll l b)) a) := by
  have hledger : (ledger srv d pre).next srv d pre (.act t (.store (.commitPoll l b)) ch a) =
      { ledger srv d pre with
        written := if LastCommit d pre t b then (ledger srv d pre).answered t else none } := by
    simp only [Ledger.next]
    exact if_pos ⟨heffect, hfresh⟩
  rw [hfresh] at hpages
  have hpage : p.page = srv.page false etag := by
    have heq := p.pages_eq
    rw [hpages] at heq
    simpa using (congrArg List.getLast? heq).symm
  have hcovers : Covers d (srv.page false etag).items (rec.commit b).items := by
    rw [← hpage, ← p.full_items ((fullScan_iff p.inCycle).2 (fullScan_of_snapshotDiff hdiff _))]
    exact p.covers (hcur.loaded _ _ p.loaded_eq)
  -- nothing was deleted in the cycle so far
  have hdeleted : (viewAt pre t).deleted = [] := by
    by_contra hne
    have hsome := (h.2.deleted hne).1
    rw [p.streamed_eq] at hsome
    cases hsome
  rw [hledger]
  constructor
  · intro etag' hwritten
    dsimp only at hwritten
    split at hwritten
    · rename_i hlast
      rw [hanswered] at hwritten
      obtain rfl := Option.some.inj hwritten
      rcases hlast with hne | hmissing
      · exact absurd p.deletes_eq hne
      · rw [← hrec, hpages] at hmissing
        exact hcovers.mirrors hid hmissing
    · cases hwritten
  · refine ⟨fun hsame => ?_, fun _ _ page hpage' => ?_, fun hne => ?_⟩
    · have hsame' : (viewAt pre t).notModified = true := by cases a <;> exact hsame
      rw [hfresh] at hsame'
      cases hsame'
    · have hpage'' : (viewAt pre t).pages = [page] := by cases a <;> exact hpage'
      rw [hpages] at hpage''
      rw [← List.singleton_inj.1 hpage'']
      exact hcovers
    · refine absurd ?_ hne
      cases a with
      | error e => exact hdeleted
      | ok x => exact List.append_eq_nil_iff.2 ⟨hdeleted, p.deletes_eq⟩

/-- The deletes of a cycle that was answered its listing. -/
theorem Books.commit_deletes (h : Books srv d (ledger srv d pre) rec t (viewAt pre t))
    (hid : StringIdentities d.poller) (p : DeleteStep d (viewAt pre t) b)
    (hcur : Current rec (viewAt pre t)) {etag : String}
    (hpages : (viewAt pre t).pages = [srv.page (viewAt pre t).notModified etag])
    (hanswered : (ledger srv d pre).answered t = some etag) (heffect : tookEffect ch a = true) :
    Books srv d ((ledger srv d pre).next srv d pre (.act t (.store (.commitPoll l b)) ch a))
      (rec.commit b) t ((viewAt pre t).learn (.store (.commitPoll l b)) a) := by
  have hfresh := p.phase.fresh
  have hledger : (ledger srv d pre).next srv d pre (.act t (.store (.commitPoll l b)) ch a) =
      { ledger srv d pre with written := some etag } := by
    rw [← hanswered]
    simp only [Ledger.next]
    have hlast : LastCommit d pre t b := Or.inl p.deletes_ne
    rw [if_pos ⟨heffect, hfresh⟩, if_pos hlast]
  rw [hfresh] at hpages
  have hids : p.ids = rec.items.keys := hcur.streamed _ p.streamed_eq p.deleted_eq
  have hcovered := h.2.covered hfresh p.phase.committed _ hpages
  have hseen : ∀ id, .string id ∈ seenIn d.poller (viewAt pre t).pages ↔
      Includes d.poller (srv.page false etag).items id := by
    intro id
    rw [hpages]
    exact mem_seenIn_page hid
  have hmirrors : Mirrors d (srv.page false etag).items (rec.commit b).items := by
    rw [commit_items_delete p.upserts_eq]
    refine ⟨hcovered.eraseAll fun id hmem => ?_, fun id hsome => ?_⟩
    · rw [← hseen]
      exact ((p.mem_deletes id).1 hmem).2
    · rw [← hseen]
      by_contra hunseen
      rw [OrderedMap.get_eraseAll] at hsome
      split at hsome
      · cases hsome
      · rename_i hkept
        refine hkept ((p.mem_deletes id).2 ⟨?_, hunseen⟩)
        rw [hids, OrderedMap.mem_keys_iff]
        exact hsome
  rw [hledger]
  constructor
  · intro etag' hwritten
    obtain rfl := Option.some.inj hwritten
    exact hmirrors
  · refine ⟨fun hsame => ?_, fun _ _ page hpage => ?_, fun hne => ?_⟩
    · have hsame' : (viewAt pre t).notModified = true := by cases a <;> exact hsame
      rw [hfresh] at hsame'
      cases hsame'
    · have hpage' : (viewAt pre t).pages = [page] := by cases a <;> exact hpage
      rw [hpages] at hpage'
      rw [← List.singleton_inj.1 hpage']
      exact hmirrors.toCovers
    · cases a with
      | error e => exact absurd p.deleted_eq hne
      | ok x =>
        refine ⟨?_, hanswered.symm⟩
        have hstreamed : (viewAt pre t).streamed.isSome := by rw [p.streamed_eq]; rfl
        exact hstreamed

/-- A commit of the holder that took effect. -/
theorem Books.commit (h : Books srv d (ledger srv d pre) rec t (viewAt pre t))
    (hid : StringIdentities d.poller) (hdiff : d.poller.cursor.isSnapshotDiff = true)
    (hstage : ListingStage srv (viewAt pre t) ((ledger srv d pre).answered t))
    (htarget : (viewAt pre t).start.target = none) (hcur : Current rec (viewAt pre t))
    (hrec : rec = storeAfter d pre)
    (hstep : Nonempty (PageStep d (viewAt pre t) b) ∨ Nonempty (DeleteStep d (viewAt pre t) b))
    (heffect : tookEffect ch a = true) :
    Books srv d ((ledger srv d pre).next srv d pre (.act t (.store (.commitPoll l b)) ch a))
      (rec.commit b) t ((viewAt pre t).learn (.store (.commitPoll l b)) a) := by
  rcases hstep with ⟨⟨p⟩⟩ | ⟨⟨p⟩⟩
  · obtain ⟨etag, hpages, hanswered⟩ := hstage.page_of_pages (by rw [p.pages_eq]; simp)
    cases hsame : (viewAt pre t).notModified with
    | true => exact h.commit_same hdiff p hpages hsame
    | false => exact h.commit_page hid hdiff p hcur hrec hpages hanswered hsame heffect
  · obtain ⟨etag, hpages, hanswered⟩ :=
      hstage.page_of_pages (hstage.pages_of_ended p.phase.ended htarget)
    exact h.commit_deletes hid p hcur hpages hanswered heffect

/-- A commit that did nothing. -/
theorem KnowsRows.commit_failed (h : KnowsRows d (ledger srv d pre) rec t (viewAt pre t))
    (hstep : Nonempty (PageStep d (viewAt pre t) b) ∨ Nonempty (DeleteStep d (viewAt pre t) b))
    (e : JsError) : KnowsRows d (ledger srv d pre) rec t
      ((viewAt pre t).learn (.store (.commitPoll l b)) (.error e)) := by
  refine h.mono rfl rfl rfl rfl rfl rfl rfl fun hne hsome => ?_
  rcases hstep with ⟨⟨p⟩⟩ | ⟨⟨p⟩⟩
  · rw [p.streamed_eq] at hsome
    cases hsome
  · exact absurd p.deleted_eq hne

end Commits

/-! ## The books of a run -/

/-- The stages of all threads, the rows of the listing that is written, and what the holder knows. -/
structure Booked (srv : ListingServer ι) (d : Deployment ι) (tr : List (Label (system ι)))
    (rec : KeyRecord ι) : Prop where
  staged : ∀ t, ListingStage srv (viewAt tr t) ((ledger srv d tr).answered t)
  written : ∀ etag, (ledger srv d tr).written = some etag → Mirrors d (srv.listing etag) rec.items
  holding : OfHolder (fun t => KnowsRows d (ledger srv d tr) rec t (viewAt tr t)) (viewAt tr) rec

theorem Booked.books {rec : KeyRecord ι} (h : Booked srv d pre rec) {l : Lease}
    (hl : (viewAt pre t).lease = some l) (hholds : rec.holds l = true) :
    Books srv d (ledger srv d pre) rec t (viewAt pre t) :=
  ⟨h.written, h.holding t l hl hholds⟩

/-- The stages of all threads after a step. -/
theorem Booked.staged_act {rec : KeyRecord ι} (h : Booked srv d pre rec)
    (hS : ∀ call, S call → call.KeepsItems) (hdiff : d.poller.cursor.isSnapshotDiff = true)
    (htarget : (viewAt pre t).start.target = none)
    (hallow : (cycleContract d (administers d S)).allow (viewAt pre t) o)
    (hfetches : srv.Fetches pre (.act t o ch a)) (hanswers : srv.Answers pre (.act t o ch a))
    (t' : Nat) :
    ListingStage srv (viewAt (pre ++ [.act t o ch a]) t')
      ((ledger srv d (pre ++ [.act t o ch a])).answered t') := by
  rw [ledger_append]
  rcases eq_or_ne t' t with rfl | hne
  · rw [viewAt_self]
    exact (h.staged t').learn hS hdiff htarget hallow hfetches hanswers
  · rw [viewAt_other hne, Ledger.answered_other hne]
    exact h.staged t'

/-- A step after which the items, and which listing is written, are as before. -/
theorem Booked.quiet (h : Booked srv d pre w.store) (hterms : Terms (viewAt pre) w.store)
    (hdel : o ≠ .store .deleteKey) (hw : perform o ch w = some (a, w'))
    (hstaged : ∀ t', ListingStage srv (viewAt (pre ++ [.act t o ch a]) t')
      ((ledger srv d (pre ++ [.act t o ch a])).answered t'))
    (hitems : w'.store.items = w.store.items)
    (hwritten : (ledger srv d (pre ++ [.act t o ch a])).written = (ledger srv d pre).written)
    (hself : KnowsRows d (ledger srv d pre) w.store t (viewAt pre t) →
      (∀ owner ttlMs now, o ≠ .store (.acquireLease owner ttlMs now)) →
      KnowsRows d (ledger srv d (pre ++ [.act t o ch a])) w'.store t ((viewAt pre t).learn o a)) :
    Booked srv d (pre ++ [.act t o ch a]) w'.store := by
  have hkept : ∀ t', (ledger srv d (pre ++ [.act t o ch a])).answered t' =
        (ledger srv d pre).answered t' → viewAt (pre ++ [.act t o ch a]) t' = viewAt pre t' →
      KnowsRows d (ledger srv d pre) w.store t' (viewAt pre t') →
      KnowsRows d (ledger srv d (pre ++ [.act t o ch a])) w'.store t'
        (viewAt (pre ++ [.act t o ch a]) t') := by
    intro t' hanswered hview hheld
    rw [hview]
    exact hheld.mono hanswered hwritten hitems rfl rfl rfl rfl fun _ hsome => hsome
  refine ⟨hstaged, ?_, OfHolder.act h.holding hterms hdel hw ?_ ?_ ?_ ?_⟩
  · rw [hwritten, hitems]
    exact h.written
  · intro l hview
    rw [hview]
    exact KnowsRows.fresh rfl rfl rfl
  · rintro ⟨owner, ttlMs, now, rfl⟩ _ t' hview hheld
    refine hkept t' ?_ hview hheld
    rw [ledger_append]
    rfl
  · intro hacq l _ _ hheld
    rw [viewAt_self]
    exact hself hheld hacq
  · intro _
    refine Or.inr fun t' hne hheld => hkept t' ?_ (viewAt_other hne) hheld
    rw [ledger_append, Ledger.answered_other hne]

theorem Booked.act (hid : StringIdentities d.poller) (hS : ∀ call, S call → call.KeepsItems)
    (hdiff : d.poller.cursor.isSnapshotDiff = true) (h : Booked srv d pre w.store)
    (hfenced : Fenced (viewAt pre) w.store)
    (huntargeted : LanesHold (fun next => next.target = none) (viewAt pre) w.store)
    (hrec : w.store = storeAfter d pre)
    (hallow : (cycleContract d (administers d S)).allow (viewAt pre t) o)
    (hw : perform o ch w = some (a, w')) (hfetches : srv.Fetches pre (.act t o ch a))
    (hanswers : srv.Answers pre (.act t o ch a)) (hkeeps : KeepsUp srv d pre (.act t o ch a)) :
    Booked srv d (pre ++ [.act t o ch a]) w'.store := by
  have hdel : o ≠ .store .deleteKey := by
    rintro rfl
    exact allow_deleteKey hS hallow
  have hstaged := h.staged_act hS hdiff (huntargeted.start t) hallow hfetches hanswers
  have hstep := itemsStep hS hallow hw
  obtain ⟨rec', hrec'⟩ : ∃ rec', w'.store = rec' := ⟨_, rfl⟩
  rw [hrec'] at hstep
  cases hstep with
  | commit heffect hlease hholds hstep =>
    -- only a commit under the current lease writes rows, and only this one writes the ledger
    have hbooks := (h.books hlease hholds).commit hid hdiff (h.staged t) (huntargeted.start t)
      (hfenced.current t _ hlease hholds) hrec hstep heffect
    rw [← ledger_append, ← hrec'] at hbooks
    refine ⟨hstaged, hbooks.1, OfHolder.act h.holding hfenced.toTerms hdel hw ?_ ?_ ?_ ?_⟩
    · intro l' hview
      rw [hview]
      exact KnowsRows.fresh rfl rfl rfl
    · rintro ⟨_, _, _, heq⟩
      cases heq
    · intro _ _ _ _ _
      rw [viewAt_self]
      exact hbooks.2
    · exact fun _ => Or.inl ⟨_, hlease, hholds⟩
  | @refused l b _ e heffect hstep =>
    -- a commit that took no effect is not entered
    have hledger : ledger srv d (pre ++ [.act t (.store (.commitPoll l b)) ch (.error e)]) =
        ledger srv d pre := by
      rw [ledger_append]
      simp [Ledger.next, heffect]
    refine h.quiet hfenced.toTerms hdel hw hstaged (congrArg _ hrec') (by rw [hledger]) fun hheld _ => ?_
    rw [hledger, hrec']
    exact hheld.commit_failed hstep e
  | quiet hcalls hitems =>
    have hitems' : w'.store.items = w.store.items := (congrArg _ hrec').trans hitems
    refine h.quiet hfenced.toTerms hdel hw hstaged hitems' ?_ fun hheld hacq => ?_
    · rw [ledger_append, Ledger.written_kept hcalls]
    · rw [ledger_append]
      exact hheld.learn (h.staged t) hallow hkeeps hitems' hacq hcalls

theorem Booked.skip {rec : KeyRecord ι} (h : Booked srv d pre rec) {l : Label (system ι)}
    (hview : ∀ t, viewAt (pre ++ [l]) t = viewAt pre t)
    (hledger : ledger srv d (pre ++ [l]) = ledger srv d pre) : Booked srv d (pre ++ [l]) rec := by
  rw [← funext_iff] at hview
  refine ⟨?_, ?_, ?_⟩
  · rw [hview, hledger]
    exact h.staged
  · rw [hledger]
    exact h.written
  · rw [hview, hledger]
    exact h.holding

end Steps

/-! ## Runs -/

section Runs

variable {d : Deployment ι} {srv : ListingServer ι} {S : EngineCall → Prop}

/-- In a run of the server in which the commits keep up with the validators, the books are kept. -/
theorem booked (hid : StringIdentities d.poller) (hS : ∀ call, S call → call.KeepsItems)
    (hdiff : d.poller.cursor.isSnapshotDiff = true) {tr : List (Label (system ι))}
    {c : Config (system ι)} (h : Run (system ι) (d.entry S) (World.fresh d.key) tr c)
    (hfetches : Throughout srv.Fetches tr) (hanswers : Throughout srv.Answers tr)
    (hkeeps : Throughout (KeepsUp srv d) tr) : Booked srv d tr (World.store (ι := ι) c.world) := by
  have hall : Throughout (fun pre l => srv.Fetches pre l ∧ srv.Answers pre l ∧ KeepsUp srv d pre l)
      tr := fun pre l post heq =>
    ⟨hfetches pre l post heq, hanswers pre l post heq, hkeeps pre l post heq⟩
  refine Run.assume (obeys d S) (J := fun tr (w : World ι) => Booked srv d tr w.store) ?_ ?_ ?_ ?_ h
    hall
  · refine ⟨fun t => .fresh ⟨rfl, rfl, rfl, rfl⟩ rfl rfl rfl rfl, ?_, ?_⟩
    · intro etag hwritten
      cases hwritten
    · intro t l hl
      cases hl
  · intro tr c p _ hJ
    exact hJ.skip (viewAt_start tr p) (ledger_append srv d tr _)
  · intro tr c t o ch a w' hr hJ hallow hw hstep
    exact hJ.act hid hS hdiff (fenced hS hr) (untargeted hdiff hr) (congrArg World.store hr.world_eq)
      hallow hw hstep.1 hstep.2.1 hstep.2.2
  · intro tr c x _ hJ
    exact hJ.skip (viewAt_drift tr x) (ledger_append srv d tr _)

/-- The save of a cycle that completed finds the rows of the listing it was answered. -/
theorem Booked.completed {tr : List (Label (system ι))} {rec : KeyRecord ι} (h : Booked srv d tr rec)
    (hid : StringIdentities d.poller) (hdiff : d.poller.cursor.isSnapshotDiff = true) {t : Nat}
    {l : Lease} {p : StatePatch} (hfenced : Fenced (viewAt tr) rec)
    (hmay : MaySave d (viewAt tr t) l p) (hholds : rec.holds l = true)
    (hcompletes : Completes (viewAt tr t) p) :
    ∃ etag, (ledger srv d tr).answered t = some etag ∧ Mirrors d (srv.listing etag) rec.items := by
  obtain ⟨hlanes, hhalted, schedule, hschedule, summary, hsummary, htruncated⟩ := hcompletes
  obtain ⟨lanes, hlanes⟩ := Option.isSome_iff_exists.1 hlanes
  have hsave := hmay.lanes lanes hlanes
  have hheld := h.holding t l hmay.lease hholds
  cases hsame : (viewAt tr t).notModified with
  | true =>
    -- answered 304: the listing is the one written last, in full
    obtain ⟨hsome, hwritten⟩ := hheld.same hsame
    obtain ⟨etag, hanswered⟩ := Option.isSome_iff_exists.1 hsome
    exact ⟨etag, hanswered, h.written etag (hwritten.trans hanswered)⟩
  | false =>
    -- the delete phase is over
    obtain ⟨ids, hstreamed, hdeleted⟩ := hsave.swept schedule summary hschedule hsummary
      (fullScan_of_snapshotDiff hdiff _) htruncated hsame hhalted
    have hpages := (h.staged t).pages_of_streamed (by rw [hstreamed]; rfl)
    obtain ⟨etag, hpage, hanswered⟩ := (h.staged t).page_of_pages hpages
    refine ⟨etag, hanswered, ?_⟩
    rw [hsame] at hpage
    by_cases hnone : (viewAt tr t).deleted = []
    · -- it had nothing to delete
      have hcovered := hheld.covered hsame hsave.committed _ hpage
      refine hcovered.mirrors hid (List.eq_nil_iff_forall_not_mem.2 fun identity hmem => ?_)
      obtain ⟨hstored, hunseen⟩ := mem_missing.1 hmem
      have hkeys := (hfenced.current t l hmay.lease hholds).streamed ids hstreamed hnone
      have hgone : identity ∈ (viewAt tr t).deleted := by
        refine (hdeleted identity).2 ⟨?_, ?_⟩
        · rw [hkeys, OrderedMap.mem_keys_iff]
          exact hstored
        · rw [hpage]
          exact hunseen
      rw [hnone] at hgone
      exact List.not_mem_nil hgone
    · exact h.written etag ((hheld.deleted hnone).2.trans hanswered)

/-- The events of the last steps of a run lead from the contents before them. -/
theorem leads_since (hid : StringIdentities d.poller) {earlier since : List (Label (system ι))}
    {c : Config (system ι)}
    (h : Run (system ι) (d.entry EngineCall.Plain) (World.fresh d.key) (earlier ++ since) c) :
    Leads (contents (storeAfter d earlier).items) (changeLog d since)
      (contents (storeAfter d (earlier ++ since)).items) := by
  obtain ⟨c₁, hearlier⟩ := h.prefix_run
  have hbefore := streaming hid (fun _ hcall => hcall.keepsItems) plain_noForce hearlier
  have hafter := streaming hid (fun _ hcall => hcall.keepsItems) plain_noForce h
  have hsplit : changeLog d (earlier ++ since) = changeLog d earlier ++ changeLog d since := by
    simp [changeLog, committedRows]
  have hleads := hafter.leads
  rw [hsplit] at hleads
  -- replaying the events before gives the contents then
  have hrest := hleads.drop
  rw [hbefore.leads.replay_eq, hearlier.world_eq, h.world_eq] at hrest
  exact hrest

end Runs

/-! ## Sample runs -/

/-- The sample listings. -/
def sampleListing (etag : String) : List Sample :=
  if etag = "v1" then [("a", "1"), ("c", "1")] else [("b", "1"), ("c", "2")]

/-- A server whose listing changes after `n` steps. -/
def sampleServer (n : Nat) : ListingServer Sample where
  request := { url := "/orders" }
  parse := sampleListing
  refused := { kind := .plain, name := "Error", message := "refused" }
  listing := sampleListing
  etag pre := if pre.length < n then "v1" else "v2"

/-- The response to a request while `etag` is current. -/
def sampleResponse (etag : String) (wire : WireRequest) : RawResponse where
  status := if wire.ifNoneMatch = some etag then 304 else 200
  etag := some etag
  lastModified := none
  body := etag
  problemDetail := none
  rateLimit _ := none
  retryAfterMs _ := none

/-- The environment while `etag` is current and nothing else fails. -/
def serving (srv : ListingServer Sample) (at_ : Int) (etag : String) : Op Sample → Choice Sample
  | .http wire => .response (.ok (sampleResponse etag wire))
  | o => calm at_ srv.fetch o

/-- A cycle stores the rows of the first listing. The next one stores the ETag of the second listing and
crashes before the commit of its page; the one after that is answered 304. -/
def crashedCycle : List (Scene Sample) :=
  [ .ask (instanceOf (sampleOf samplePoller) false) forced,
    .run 0 200 (serving (sampleServer 50) 5 "v1"),
    .ask (instanceOf (sampleOf samplePoller) false) forced,
    .run 2 21 (serving (sampleServer 50) 20 "v2"),
    .ask (instanceOf (sampleOf samplePoller) false) forced,
    .run 4 200 (serving (sampleServer 50) 200 "v2") ]

/-- Two cycles find the first listing, one the second. -/
def changedListing : List (Scene Sample) :=
  [ .ask (instanceOf (sampleOf samplePoller) false) forced,
    .run 0 200 (serving (sampleServer 100) 5 "v1"),
    .ask (instanceOf (sampleOf samplePoller) false) forced,
    .run 2 200 (serving (sampleServer 100) 20 "v1"),
    .ask (instanceOf (sampleOf samplePoller) false) forced,
    .run 4 200 (serving (sampleServer 100) 40 "v2") ]

section
variable {srv : ListingServer Sample} {d : Deployment Sample} {pre : List (Label (system Sample))}

instance (etag : String) (wire : WireRequest) (raw : RawResponse) :
    Decidable (srv.Responds etag wire raw) :=
  decidable_of_iff ((raw.status = 304 → wire.ifNoneMatch = some etag) ∧
      (raw.ok = true → wire.ifNoneMatch ≠ some etag) ∧ (raw.ok = true → raw.etag = some etag) ∧
      (raw.ok = true → srv.parse raw.body = srv.listing etag))
    ⟨fun h => ⟨h.1, h.2.1, h.2.2.1, h.2.2.2⟩, fun h => ⟨h.1, h.2, h.3, h.4⟩⟩

instance (l : Label (system Sample)) : Decidable (srv.Answers pre l) := by
  unfold ListingServer.Answers
  split <;> infer_instance

instance (l : Label (system Sample)) : Decidable (KeepsUp srv d pre l) := by
  unfold KeepsUp
  split <;> infer_instance

instance (v : CycleView Sample) (p : StatePatch) : Decidable (Completes v p) := by
  unfold Completes
  infer_instance

/-- The save of a cycle that completed finds a row of the identity, when it was answered the ETag. -/
def FindsRow (srv : ListingServer Sample) (d : Deployment Sample) (etag identity : String)
    (pre : List (Label (system Sample))) : Label (system Sample) → Prop
  | .act t (.store (.saveState _ p)) ch a =>
    tookEffect ch a = true → Completes (viewAt pre t) p → (ledger srv d pre).answered t = some etag →
      ((storeAfter d pre).items.get identity).isSome
  | _ => True

instance (etag identity : String) (l : Label (system Sample)) :
    Decidable (FindsRow srv d etag identity pre l) := by
  unfold FindsRow
  split <;> infer_instance

theorem CaughtUp.findsRow {l : Label (system Sample)} (h : CaughtUp srv d pre l) {etag identity : String}
    (hlisted : Includes d.poller (srv.listing etag) identity) : FindsRow srv d etag identity pre l := by
  unfold FindsRow
  split
  · intro heffect hcompletes hanswered
    obtain ⟨⟨etag', hanswered', hmirrors⟩, -⟩ := h heffect hcompletes
    rw [hanswered] at hanswered'
    obtain rfl := Option.some.inj hanswered'
    exact hmirrors.stored identity hlisted
  · trivial

/-- In a played run, fetch calls are those of the fetch function when all environments say so. -/
theorem fetches_of_choices {S : EngineCall → Prop} {scenes : List (Scene Sample)}
    {tr : List (Label (system Sample))} {c : Config (system Sample)}
    (h : Run (system Sample) (d.entry S) (World.fresh d.key) tr c)
    (hchoice : ∀ (t : Nat) (o : Op Sample) (ch : Choice Sample) (a : Ans o), .act t o ch a ∈ tr →
      ∃ t' n policy, .run t' n policy ∈ scenes ∧ ch = policy o)
    (hscenes : ∀ t n policy, .run t n policy ∈ scenes →
      ∀ lane ctx, policy (.fetch lane ctx) = .code srv.fetch) : Throughout srv.Fetches tr := by
  intro pre l post htr
  unfold ListingServer.Fetches
  split
  · rename_i t lane ctx ch u
    obtain ⟨t', n, policy, hscene, hch⟩ := hchoice t _ ch u (by rw [htr]; simp)
    rw [hscenes t' n policy hscene lane ctx] at hch
    subst hch htr
    obtain ⟨c₁, k, w', -, -, hw⟩ := h.act_at
    exact (Prod.mk.inj (Option.some.inj hw)).1.symm
  · trivial

end

theorem serving_scenes {srv : ListingServer Sample} {scenes : List (Scene Sample)}
    (h : ∀ t n policy, .run t n policy ∈ scenes → ∃ at_ etag, policy = serving srv at_ etag) :
    ∀ t n policy, .run t n policy ∈ scenes →
      ∀ lane ctx, policy (.fetch lane ctx) = .code srv.fetch := by
  intro t n policy hmem lane ctx
  obtain ⟨at_, etag, rfl⟩ := h t n policy hmem
  rfl

end Watukuy
