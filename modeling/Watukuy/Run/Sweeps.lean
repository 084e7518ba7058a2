import Watukuy.Run.ChangeStream
import Watukuy.Run.FullScans

/-!
# Reconcile sweeps

A reconcile cycle persists its page number with every page, but the identities it has seen live in
memory only. When an execution loads a state whose reconcile lane stands in the middle of a sweep, its
own sweep starts past page 1 and deletes what the earlier pages list. In runs where no execution loads
such a state, every sweep starts at page 1, and no sweep deletes what its listing contains.
-/

set_option autoImplicit false

namespace Watukuy

open Library

variable {ι : Type}

/-- Where the reconcile lane goes on. -/
def Lanes.sweepStart (lanes : Lanes) : CursorVal :=
  (lanes.reconcile.bind (·.cursor)).getD (.page 1)

/-- An execution that loads its state finds the reconcile lane at the start of a sweep. -/
def LoadsNoSweep (pre : List (Label (system ι))) : Label (system ι) → Prop
  | .act t (.store .loadState) _ (.ok (state : Option PollerState)) =>
    (viewAt pre t).lease.isSome → ((state.map PollerState.lanes).getD {}).sweepStart = .page 1
  | _ => True

/-- The first fetch of a reconcile cycle asks for page 1. -/
def SweepsFromFirst (pre : List (Label (system ι))) : Label (system ι) → Prop
  | .act t (.fetch .reconcile ctx) _ _ => (viewAt pre t).fetches = [] → ctx.cursor = .page 1
  | _ => True

instance (pre : List (Label (system ι))) (l : Label (system ι)) : Decidable (LoadsNoSweep pre l) := by
  unfold LoadsNoSweep
  rcases l with _ | ⟨t, ⟨o⟩ | _, ch, a⟩ | _
  case act.store =>
    rcases o with _ | _ | _
    case loadState => rcases a <;> infer_instance
    all_goals infer_instance
  all_goals infer_instance

instance (pre : List (Label (system ι))) (l : Label (system ι)) :
    Decidable (SweepsFromFirst pre l) := by
  unfold SweepsFromFirst
  rcases l with _ | ⟨t, o, ch, a⟩ | _
  case act =>
    rcases o
    case fetch lane ctx =>
      rcases lane
      case reconcile =>
        exact decidable_of_iff ((viewAt pre t).fetches.isEmpty = true → ctx.cursor = .page 1)
          (by rw [List.isEmpty_iff])
      all_goals infer_instance
    all_goals infer_instance
  all_goals infer_instance

/-! ## Paging over a listing -/

/-- Page `n + 1` of a listing. -/
def listedPage (listing : List (List ι)) (n : Nat) : Page ι where
  items := listing.getD n []
  hasMore := some (decide (n + 1 < listing.length))

/-- A fetch function that pages over a listing by `ctx.cursor.page`. -/
def fetchListed (listing : List (List ι)) (ctx : FetchContext) : UserCode ι :=
  match ctx.cursor with
  | .page n => .page (listedPage listing (n - 1)) .finish
  | _ => .finish

/-- A reconcile cycle that pages over a listing neither deletes what passes validation there nor emits
its deletion. -/
def SparesListed (d : Deployment ι) (pre : List (Label (system ι))) : Label (system ι) → Prop
  | .act t (.store (.commitPoll _ b)) _ _ =>
    (viewAt pre t).lane = .reconcile →
      ∀ listing, (∀ f ∈ (viewAt pre t).fetches, f.2 = fetchListed listing f.1) →
        ∀ page ∈ listing, ∀ item ∈ validOf d.poller page, ∀ id, d.poller.identity item = .string id →
          id ∉ b.deletes ∧
            ∀ r ∈ b.events, r.event.type = .deleted → r.event.lane ≠ .replay → r.event.subject ≠ id
  | _ => True

/-! ## Lanes at the start of a sweep -/

/-- The execution works on lanes that no sweep has left in the middle. -/
structure Clean (v : CycleView ι) : Prop where
  lanes : v.ready = true → v.lane = .live → v.lanes.sweepStart = .page 1
  start : v.lane = .reconcile → v.start.cursor.getD (.page 1) = .page 1

theorem Clean.same {v w : CycleView ι} (h : Clean v) (hready : w.ready = v.ready)
    (hlane : w.lane = v.lane) (hlanes : w.lanes = v.lanes) (hstart : w.start = v.start) : Clean w := by
  constructor
  · intro hr hl
    rw [hlanes]
    exact h.lanes (hready ▸ hr) (hlane ▸ hl)
  · intro hl
    rw [hstart]
    exact h.start (hlane ▸ hl)

/-- Writing the live lane leaves the reconcile lane alone. -/
theorem Clean.write {v w : CycleView ι} (h : Clean v) (hready : w.ready = v.ready)
    (hlane : w.lane = v.lane) (hstart : w.start = v.start)
    (hlanes : w.lanes = v.lanes ∨ ∃ next, w.lanes = v.lanes.set v.lane next) : Clean w := by
  constructor
  · intro hr hl
    have hv : v.lane = .live := hlane ▸ hl
    have hclean := h.lanes (hready ▸ hr) hv
    rcases hlanes with heq | ⟨next, heq⟩
    · rw [heq]
      exact hclean
    · rw [heq, hv]
      exact hclean
  · intro hl
    rw [hstart]
    exact h.start (hlane ▸ hl)

variable {d : Deployment ι} {S : EngineCall → Prop}

theorem commit_lanes {v : CycleView ι} {l : Lease} {b : CommitBatch ι}
    (h : (cycleContract d (administers d S)).allow v (.store (.commitPoll l b))) :
    b.statePatch.lanes = none ∨ ∃ next, b.statePatch.lanes = some (v.lanes.set v.lane next) := by
  rcases h with ⟨-, -, ⟨⟨p⟩⟩ | ⟨⟨p⟩⟩⟩ | ⟨-, hreplay⟩
  · exact Or.inr ⟨_, p.lanes_eq⟩
  · exact Or.inl p.lanes_eq
  · exact Or.inl hreplay.lanes

theorem Clean.learn {pre : List (Label (system ι))} {t : Nat} (h : Clean (viewAt pre t)) {o : Op ι}
    {ch : Choice ι} {a : Ans o}
    (hallow : (cycleContract d (administers d S)).allow (viewAt pre t) o)
    (hload : LoadsNoSweep pre (.act t o ch a)) : Clean ((viewAt pre t).learn o a) := by
  cases o with
  | store so =>
    cases so with
    | acquireLease owner ttlMs now =>
      cases a with
      | error e => exact h
      | ok got =>
        cases got with
        | none => exact h
        | some l =>
          constructor
          · intro hr
            cases hr
          · intro hl
            cases hl
    | loadState =>
      cases a with
      | error e => exact h
      | ok state =>
        constructor
        · intro hr _
          -- what is loaded is clean, since no sweep is under way in it
          exact hload hr
        · intro hl
          exact h.start hl
    | saveState l p =>
      rcases hallow with hallow | hallow
      rotate_left
      · exact hallow.elim
      cases a with
      | error e => exact h.same rfl rfl rfl rfl
      | ok x =>
        refine h.write rfl rfl rfl ?_
        cases hp : p.lanes with
        | none => exact Or.inl (by simp [CycleView.learn, hp])
        | some lanes =>
          -- a patch replaces the lane of the cycle only
          obtain ⟨last, heq, -⟩ := (hallow.lanes lanes hp).lanes_eq
          exact Or.inr ⟨last, by simp [CycleView.learn, hp, heq]⟩
    | commitPoll l b =>
      cases a with
      | error e => exact h.same rfl rfl rfl rfl
      | ok x =>
        refine h.write rfl rfl rfl ?_
        rcases commit_lanes hallow with hnone | ⟨next, hsome⟩
        · exact Or.inl (by simp [CycleView.learn, CycleView.commitOk, hnone])
        · exact Or.inr ⟨next, by simp [CycleView.learn, CycleView.commitOk, hsome]⟩
    | loadVersions _ | streamIdentities | getValidator _ => cases a <;> exact h.same rfl rfl rfl rfl
    | _ => exact h
  | pollStart lane =>
    -- a cycle starts where the lanes in memory say
    have hclean : lane ≠ .backfill → (viewAt pre t).lanes.sweepStart = .page 1 := fun hne =>
      h.lanes hallow.1 (hallow.2 hne)
    constructor
    · intro _ hl
      have hlive : lane = .live := hl
      exact hclean (by rw [hlive]; simp)
    · intro hl
      have hlane : lane = .reconcile := hl
      subst hlane
      have hstart := hclean (by simp)
      simp only [CycleView.learn, CycleView.begin, Lanes.get]
      cases hrec : (viewAt pre t).lanes.reconcile with
      | none => rfl
      | some next => simpa [Lanes.sweepStart, hrec] using hstart
  | http req => cases a <;> exact h.same rfl rfl rfl rfl
  | _ => exact h.same rfl rfl rfl rfl

/-! ## A sweep over a listing -/

/-- How many of the pages say that there are more. -/
def advanced (pages : List (Page ι)) : Nat := (pages.filter fun p => p.hasMore = some true).length

theorem advanced_snoc (pages : List (Page ι)) (p : Page ι) :
    advanced (pages ++ [p]) = advanced pages + if p.hasMore = some true then 1 else 0 := by
  unfold advanced
  rw [List.filter_append, List.length_append]
  by_cases h : p.hasMore = some true <;> simp [h]

theorem sweepCursor_first {start : Option CursorVal} (h : start.getD (.page 1) = .page 1)
    (pages : List (Page ι)) : sweepCursor start pages = .page (1 + advanced pages) := by
  rw [sweepCursor, h]
  rfl

/-- A sweep over a listing has all pages before the one it goes on with. -/
structure Paging (listing : List (List ι)) (v : CycleView ι) : Prop where
  idle : v.fetches = [] → v.inCall = 0 ∧ v.code = .finish
  call : v.fetches ≠ [] →
    (v.inCall = 0 ∧ v.code = .page (listedPage listing (advanced v.pages)) .finish) ∨
      (v.inCall = 1 ∧ v.code = .finish)
  taken : ∀ n < advanced v.pages, listedPage listing n ∈ v.pages
  last : ∀ p, v.pages.getLast? = some p → p.hasMore ≠ some true →
    p = listedPage listing (advanced v.pages)

theorem Paging.fresh {listing : List (List ι)} {v : CycleView ι} (hfetches : v.fetches = [])
    (hcall : v.inCall = 0) (hcode : v.code = .finish) (hpages : v.pages = []) : Paging listing v := by
  constructor
  · intro _
    exact ⟨hcall, hcode⟩
  · intro hne
    exact absurd hfetches hne
  · intro n hn
    rw [hpages] at hn
    exact absurd hn (Nat.not_lt_zero n)
  · intro p hp
    rw [hpages] at hp
    cases hp

theorem Paging.same {listing : List (List ι)} {v w : CycleView ι} (h : Paging listing v)
    (hfetches : w.fetches = v.fetches) (hcall : w.inCall = v.inCall) (hcode : w.code = v.code)
    (hpages : w.pages = v.pages) : Paging listing w := by
  constructor
  · rw [hfetches, hcall, hcode]
    exact h.idle
  · rw [hfetches, hcall, hcode, hpages]
    exact h.call
  · rw [hpages]
    exact h.taken
  · rw [hpages]
    exact h.last

/-- The fetch call asked for the page that is next. -/
theorem Paging.fetch {listing : List (List ι)} {v : CycleView ι} (h : Paging listing v) {lane : Lane}
    {ctx : FetchContext} {u : UserCode ι} (hcursor : ctx.cursor = .page (1 + advanced v.pages))
    (hu : u = fetchListed listing ctx) : Paging listing (v.learn (.fetch lane ctx) u) := by
  have hcode : u = .page (listedPage listing (advanced v.pages)) .finish := by
    rw [hu, fetchListed, hcursor]
    simp
  constructor
  · intro hnil
    simp [CycleView.learn] at hnil
  · intro _
    exact Or.inl ⟨rfl, hcode⟩
  · exact h.taken
  · exact h.last

/-- The page of the listing that is next was taken. -/
theorem Paging.next {listing : List (List ι)} {v : CycleView ι} (h : Paging listing v) {page : Page ι}
    {rest : UserCode ι} (hcode : v.code = .page page rest) :
    Paging listing (v.learn (.next page rest) ()) := by
  have hfetches : v.fetches ≠ [] := by
    intro hnil
    rw [(h.idle hnil).2] at hcode
    cases hcode
  rcases h.call hfetches with ⟨hzero, heq⟩ | ⟨-, heq⟩
  rotate_left
  · rw [heq] at hcode
    cases hcode
  rw [heq] at hcode
  injection hcode with hpage hrest
  have hadvanced := advanced_snoc v.pages page
  constructor
  · intro hnil
    exact absurd hnil hfetches
  · intro _
    refine Or.inr ⟨?_, hrest.symm⟩
    simp [CycleView.learn, hzero]
  · intro n hn
    simp only [CycleView.learn] at hn ⊢
    rw [hadvanced] at hn
    apply List.mem_append.2
    rcases Nat.lt_or_ge n (advanced v.pages) with hlt | hge
    · exact Or.inl (h.taken n hlt)
    · have hn' : n = advanced v.pages := by
        split at hn <;> omega
      rw [hn', hpage]
      exact Or.inr List.mem_cons_self
  · intro p hp hmore
    simp only [CycleView.learn] at hp ⊢
    have heq' : page = p := by simpa using hp
    rw [hadvanced, heq', if_neg hmore, Nat.add_zero, ← heq', ← hpage]

/-- A finished sweep has all pages of its listing. -/
theorem Paging.complete {listing : List (List ι)} {v : CycleView ι} (h : Paging listing v)
    (hlane : v.lane = .reconcile) (hended : ScanEnd v) :
    ∀ n < listing.length, listedPage listing n ∈ v.pages := by
  intro n hn
  rcases hended with ⟨-, p, hp, hmore⟩ | ⟨hfetches, hcall, hfinish⟩ | ⟨hcall, -⟩ | ⟨hback, -⟩
  · have heq := h.last p hp hmore
    have hlength : listing.length ≤ advanced v.pages + 1 := by
      rw [heq] at hmore
      by_contra hlt
      exact hmore (by simp [listedPage]; omega)
    rcases Nat.lt_or_ge n (advanced v.pages) with hlt | hge
    · exact h.taken n hlt
    · have hn' : n = advanced v.pages := by omega
      rw [hn', ← heq]
      exact List.mem_of_getLast? hp
  · rcases h.call hfetches with ⟨-, hcode⟩ | ⟨hone, -⟩
    · rw [hfinish] at hcode
      cases hcode
    · exact absurd hone hcall
  · -- no fetch call gives two pages
    by_cases hnil : v.fetches = []
    · have hzero := (h.idle hnil).1
      omega
    · rcases h.call hnil with ⟨hzero, -⟩ | ⟨hone, -⟩ <;> omega
  · rw [hlane] at hback
    cases hback

/-- What an execution knows of its sweep. -/
structure Sweeping (v : CycleView ι) : Prop where
  clean : Clean v
  idle : Idle v
  paging : v.lane = .reconcile → ∀ listing, (∀ f ∈ v.fetches, f.2 = fetchListed listing f.1) →
    Paging listing v

theorem Sweeping.learn {pre : List (Label (system ι))} {t : Nat} (h : Sweeping (viewAt pre t)) {o : Op ι}
    {ch : Choice ι} {a : Ans o}
    (hallow : (cycleContract d (administers d S)).allow (viewAt pre t) o)
    (hload : LoadsNoSweep pre (.act t o ch a)) : Sweeping ((viewAt pre t).learn o a) := by
  refine ⟨h.clean.learn hallow hload, h.idle.learn hallow, ?_⟩
  intro hlane listing hserved
  cases o with
  | store so =>
    cases so with
    | acquireLease owner ttlMs now =>
      cases a with
      | error e => exact h.paging hlane listing hserved
      | ok got =>
        cases got with
        | none => exact h.paging hlane listing hserved
        | some l => cases hlane
    | loadState | loadVersions _ | streamIdentities | commitPoll _ _ | saveState _ _
    | getValidator _ => cases a <;> exact (h.paging hlane listing hserved).same rfl rfl rfl rfl
    | _ => exact h.paging hlane listing hserved
  | pollStart lane => exact Paging.fresh rfl rfl rfl rfl
  | fetch lane ctx =>
    have hcursor := hallow.2.2.2.1 (hallow.1.trans hlane)
    rw [sweepCursor_first (h.clean.start hlane)] at hcursor
    have hold := h.paging hlane listing fun f hf => hserved f (List.mem_append_left _ hf)
    exact hold.fetch hcursor (hserved (ctx, a) (List.mem_append_right _ List.mem_cons_self))
  | next page rest => exact (h.paging hlane listing hserved).next hallow.1
  | resume res =>
    obtain ⟨⟨r, k, hcode⟩, -⟩ := hallow
    have hpaging := h.paging hlane listing hserved
    by_cases hnil : (viewAt pre t).fetches = []
    · rw [(hpaging.idle hnil).2] at hcode
      cases hcode
    · rcases hpaging.call hnil with ⟨-, heq⟩ | ⟨-, heq⟩ <;> rw [heq] at hcode <;> cases hcode
  | http req => cases a <;> exact (h.paging hlane listing hserved).same rfl rfl rfl rfl
  | _ => exact (h.paging hlane listing hserved).same rfl rfl rfl rfl

theorem sweeping {tr : List (Label (system ι))} {c : Config (system ι)}
    (h : Run (system ι) (d.entry S) (World.fresh d.key) tr c) (hload : Throughout LoadsNoSweep tr)
    (t : Nat) : Sweeping (viewAt tr t) := by
  refine views_assume (J := fun views _ => ∀ t, Sweeping (views t)) ?_ ?_ h hload t
  · intro t
    refine ⟨⟨fun hr => ?_, fun hl => ?_⟩, Idle.fresh rfl rfl rfl, fun hl => ?_⟩
    · cases hr
    · cases hl
    · cases hl
  · intro tr c w w' t o ch a _ hJ hallow _ hl t'
    rw [viewAt_act]
    split
    · exact (hJ t).learn hallow hl
    · exact hJ t'

theorem mem_seenIn {poller : ResolvedPoller ι} {pages : List (Page ι)} {page : Page ι} {item : ι}
    (hpage : page ∈ pages) (hitem : item ∈ validOf poller page.items) :
    poller.identity item ∈ seenIn poller pages :=
  List.mem_flatMap.2 ⟨page, hpage, List.mem_map.2 ⟨item, hitem, rfl⟩⟩

theorem mem_listing {listing : List (List ι)} {page : List ι} (h : page ∈ listing) :
    ∃ n < listing.length, (listedPage listing n).items = page := by
  obtain ⟨n, hn, rfl⟩ := List.mem_iff_getElem.1 h
  exact ⟨n, hn, by simp [listedPage, hn]⟩

/-- In a run whose executions never load the middle of a sweep, every sweep starts at page 1, and none
deletes what its listing contains. -/
theorem sweeps_start_over {tr : List (Label (system ι))} {c : Config (system ι)}
    (h : Run (system ι) (d.entry S) (World.fresh d.key) tr c) (hload : Throughout LoadsNoSweep tr) :
    Throughout SweepsFromFirst tr ∧ Throughout (SparesListed d) tr := by
  have hstep : ∀ pre t o ch (a : Ans o) post, tr = pre ++ .act t o ch a :: post →
      Sweeping (viewAt pre t) ∧ (cycleContract d (administers d S)).allow (viewAt pre t) o := by
    rintro pre t o ch a post rfl
    obtain ⟨c₁, k, w', hpre, ht, -⟩ := h.act_at
    have hallow := hpre.allow (obeys d S) ht
    exact ⟨sweeping hpre hload.take t, hallow⟩
  constructor
  · intro pre l post htr
    cases l with
    | act t o ch a =>
      obtain ⟨hsweep, hallow⟩ := hstep pre t o ch a post htr
      cases o with
      | fetch lane ctx =>
        cases lane with
        | reconcile =>
          intro hfirst
          -- nothing is listed yet, so the cursor is that of an empty sweep
          have hlane : (viewAt pre t).lane = .reconcile := hallow.1.symm
          have hcursor := hallow.2.2.2.1 rfl
          rw [sweepCursor_first (hsweep.clean.start hlane), hsweep.idle.pages hfirst] at hcursor
          exact hcursor
        | _ => trivial
      | _ => trivial
    | start p => trivial
    | drift x => trivial
  · intro pre l post htr
    cases l with
    | act t o ch a =>
      obtain ⟨hsweep, hallow⟩ := hstep pre t o ch a post htr
      cases o with
      | store so =>
        cases so with
        | commitPoll l b =>
          intro hlane listing hserved page hpage item hitem id hid
          rcases hallow with ⟨-, -, ⟨⟨p⟩⟩ | ⟨⟨p⟩⟩⟩ | ⟨-, hreplay⟩
          · refine ⟨by rw [p.deletes_eq]; exact List.not_mem_nil, fun r hr htype hne => ?_⟩
            exact absurd (Or.inr ⟨r, hr, htype, hne⟩) p.not_deletes
          · -- the sweep is complete, so it has seen the item
            have hpages := (hsweep.paging hlane listing hserved).complete hlane p.phase.ended
            obtain ⟨n, hn, hitems⟩ := mem_listing hpage
            rw [← hitems] at hitem
            have hseen : d.poller.identity item ∈ seenIn d.poller (viewAt pre t).pages :=
              mem_seenIn (hpages n hn) hitem
            rw [hid] at hseen
            have hspared : id ∉ b.deletes := fun hmem => ((p.mem_deletes id).1 hmem).2 hseen
            refine ⟨hspared, fun r hr _ _ hsubject => ?_⟩
            -- the events of the batch are those of its deletes
            obtain ⟨spec, hspec, -, heq⟩ := p.events_eq.events r hr
            obtain ⟨id', hid', hrow⟩ := List.mem_filterMap.1 hspec
            have hidentity : spec.identity = id' := by
              obtain ⟨row, -, hspec'⟩ := Option.map_eq_some_iff.1 hrow
              rw [← hspec']
              rfl
            rw [← hsubject, heq, hidentity] at hspared
            exact hspared hid'
          · refine ⟨by rw [hreplay.deletes]; exact List.not_mem_nil, fun r hr _ hne => ?_⟩
            exact absurd (hreplay.lane r hr) hne
        | _ => trivial
      | _ => trivial
    | start p => trivial
    | drift x => trivial

/-! ## Sample runs -/

/-- Pages for the live lane, and a reconcile lane that is due at every run. -/
def sweptPoller : ResolvedPoller Sample :=
  { samplePoller with cursor := .page { initial := none }, reconcileEveryMs := some 10 }

/-- The live lane lists nothing; the reconcile lane pages over the listing until page `broken`. -/
def sweepFetch (listing : List (List Sample)) (broken : Nat) (at_ : Int) : Op Sample → Choice Sample
  | .fetch .reconcile ctx =>
    if ctx.cursor = .page broken then .code (.raise leaseLostReason)
    else .code (fetchListed listing ctx)
  | o => calm at_ (onePage []) o

/-- Two runs with a reconcile cycle each; in the first one, page `broken` cannot be fetched. -/
def twoSweeps (broken : Nat) : List (Scene Sample) :=
  [ .ask (instanceOf (sampleOf sweptPoller) false) forced,
    .run 0 200 (sweepFetch [[("a", "1")], [("b", "1")]] broken 5),
    .ask (instanceOf (sampleOf sweptPoller) false) forced,
    .run 2 200 (sweepFetch [[("a", "1")], [("b", "1")]] 0 20) ]

theorem twoSweeps_cast (broken : Nat) : Cast (sampleOf sweptPoller) (fun _ => True) (twoSweeps broken) :=
  .ask (instanceOf_in _ _) trivial (.run (.ask (instanceOf_in _ _) trivial (.run .nil)))

set_option maxRecDepth 100000 in
theorem sweeps_start_over_sample : ∃ tr c,
    Run (system Sample) ((sampleOf sweptPoller).entry fun _ => True)
      (World.fresh (sampleOf sweptPoller).key) tr c ∧
    Throughout LoadsNoSweep tr ∧ Throughout SweepsFromFirst tr ∧
      Throughout (SparesListed (sampleOf sweptPoller)) tr := by
  obtain ⟨tr, c, hrun, hcheck⟩ := play_run (twoSweeps_cast 0)
    (fun tr _ => decide (Throughout LoadsNoSweep tr)) (by decide +kernel)
  have hload := of_decide_eq_true hcheck
  exact ⟨tr, c, hrun, hload, sweeps_start_over hrun hload⟩

set_option maxRecDepth 100000 in
/-- The first sweep fails at page 2, the second one starts there and deletes what page 1 lists. -/
theorem broken_sweep_deletes : ∃ tr c,
    Run (system Sample) ((sampleOf sweptPoller).entry fun _ => True)
      (World.fresh (sampleOf sweptPoller).key) tr c ∧
    ¬Throughout SweepsFromFirst tr ∧
      (committedRows tr).map (fun r => (r.event.type, r.event.subject)) =
        [(.created, "a"), (.created, "b"), (.deleted, "a")] := by
  obtain ⟨tr, c, hrun, hcheck⟩ := play_run (twoSweeps_cast 2)
    (fun tr _ => decide (¬Throughout SweepsFromFirst tr ∧
      (committedRows tr).map (fun r => (r.event.type, r.event.subject)) =
        [(.created, "a"), (.created, "b"), (.deleted, "a")])) (by decide +kernel)
  exact ⟨tr, c, hrun, of_decide_eq_true hcheck⟩

end Watukuy
