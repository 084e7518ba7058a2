import Watukuy.Cursor.CatchUp
import Watukuy.Cursor.Watermark

/-!
# A bounded backfill

The backfill lane over a keyset API whose ids are in string order. After each page `reached` compares
the watermark with the target, by the timestamp alone: the lane is done with the first page that
reaches the timestamp of the target, whatever of it is left (`covers_iff_clean`).
-/

set_option autoImplicit false

namespace Watukuy

open Library

/-- A backfill from `since` to `goal`. -/
structure BackfillLane extends Feed stringIds where
  since : String
  goal : String
  ordered : instant since ≤ instant goal

/-- The lane between two pages: what it has fetched, and what each page gave to `processPage`. -/
structure BackfillState where
  cursor : CursorVal
  done : Bool
  fetched : List (Entry UnitText)
  pages : List (List (Entry UnitText))
  deriving DecidableEq

/-- A page of the lane: whether a cycle begins with it, and when it arrives. -/
structure BackfillTurn where
  first : Bool
  now : Int

namespace BackfillLane

variable (b : BackfillLane)

/-- The lane as `backfill` saves it. -/
def saved : BackfillState where
  cursor := .keyset (some b.since) none
  done := false
  fetched := []
  pages := []

def target : CursorVal := .keyset (some b.goal) none

/-- `forFetch` for the first page of a cycle. -/
def fetchCursor (x : BackfillTurn) (cursor : CursorVal) : Except JsError CursorVal :=
  if x.first then (timestampStrategy b.config).forFetch cursor x.now else .ok cursor

/-- One page: `advance`, then `reached`. A lane that is done is not polled again. -/
def turn (s : BackfillState) (x : BackfillTurn) : Except JsError BackfillState := do
  if s.done then return s
  else
    let asked ← b.fetchCursor x s.cursor
    let adv ← (timestampStrategy b.config).advance s.cursor
      { items := b.page asked, pageCursor := none, hasMore := some (b.hasMore asked), now := x.now }
    let reached ← (timestampStrategy b.config).reached adv.cursor b.target
    return { cursor := adv.cursor, done := adv.done || reached,
             fetched := s.fetched ++ b.page asked, pages := s.pages ++ [adv.items] }

/-- The pages of a lane, in any number of cycles. -/
def runFrom (s : BackfillState) : List BackfillTurn → Except JsError BackfillState
  | [] => .ok s
  | x :: xs => do
    let s ← b.turn s x
    runFrom s xs

def run (xs : List BackfillTurn) : Except JsError BackfillState := b.runFrom b.saved xs

/-! ## What a page leaves -/

/-- The item is of the interval. -/
def Within (r : Entry UnitText) : Prop :=
  b.instant b.since ≤ b.instant r.stamp ∧ b.instant r.stamp ≤ b.instant b.goal

/-- Each item of the interval was fetched, and given to `processPage`. -/
def Covered (s : BackfillState) : Prop :=
  ∀ r ∈ b.items, b.Within r → r ∈ s.fetched ∧ ∃ page ∈ s.pages, r ∈ page

/-- The page reaches the timestamp of the target, or the cursor has. -/
def Reaches (cursor asked : CursorVal) (now : Int) : Prop :=
  (∃ v ∈ keysetValue cursor, b.instant b.goal ≤ b.instant v) ∨
    ∃ e ∈ b.page asked, b.toFeed.Admitted now e ∧ b.instant b.goal ≤ b.instant e.stamp

/-- The page reaches the timestamp of the target, and there are items of that timestamp after it. -/
def Splits (cursor asked : CursorVal) (now : Int) : Prop :=
  b.Reaches cursor asked now ∧ ∃ r ∈ b.items, b.instant r.stamp = b.instant b.goal ∧
    b.past cursor r = true ∧ r ∉ b.page asked

/-- The page is the last, or reaches the target, and `lag` holds an item of the interval back. -/
def Withholds (cursor asked : CursorVal) (now : Int) : Prop :=
  (b.hasMore asked = false ∨ b.Reaches cursor asked now) ∧ ∃ r ∈ b.page asked, b.Within r ∧
    b.past cursor r = true ∧ ¬b.toFeed.Admitted now r

/-- No page of the run splits the items at the target, or withholds one of the interval. -/
def Clean (s : BackfillState) : List BackfillTurn → Prop
  | [] => True
  | x :: xs =>
    (s.done = false → ∀ asked, b.fetchCursor x s.cursor = .ok asked →
      ¬b.Splits s.cursor asked x.now ∧ ¬b.Withholds s.cursor asked x.now) ∧
    ∀ s', b.turn s x = .ok s' → Clean s' xs

end BackfillLane

/-! ## One page -/

namespace Feed

variable {f : Feed stringIds} {t : Int} {e q r : Entry UnitText} {c c' asked : CursorVal}
  {value tie : Option String} {page : List (Entry UnitText)}

/-- What `lag` lets through of a page. -/
def admittedOf (f : Feed stringIds) (t : Int) (page : List (Entry UnitText)) :
    List (Entry UnitText) := page.filter fun e => decide (f.instant e.stamp ≤ (t : Rat) - f.lagMs)

theorem mem_admittedOf : r ∈ f.admittedOf t page ↔ r ∈ page ∧ f.Admitted t r := by
  simp [admittedOf, Admitted]

/-- `advance` hands on what `lag` lets through. -/
theorem advance_admits (f : Feed stringIds) (t : Int) (page : List (Entry UnitText)) (more : Bool)
    (value tie : Option String) :
    ∃ adv, (timestampStrategy f.config).advance (.keyset value tie)
        { items := page, pageCursor := none, hasMore := some more, now := t } = .ok adv ∧
      adv.done = !more ∧ f.Lands t page (.keyset value tie) adv.cursor ∧
      adv.items = f.admittedOf t page := by
  obtain ⟨adv, hadv, hdone, hlands⟩ := advance_lands f t page more value tie
  obtain ⟨value', tie', kept, hspec, hkept⟩ := advance_spec f.config page (some more) t tie
    fun v (_ : v ∈ value) => rfl
  refine ⟨adv, hadv, hdone, hlands, ?_⟩
  have hsame : adv = { cursor := .keyset value' tie', done := some more != some true, items := kept } :=
    Except.ok.inj (hadv.symm.trans hspec)
  rw [hsame]
  exact hkept.kept_eq

/-- A page leaves its admitted items behind the cursor. -/
theorem Lands.behind (h : f.Lands t page (.keyset value tie) c') (hr : r ∈ page)
    (ha : f.Admitted t r) : f.past c' r = false := by
  rw [Bool.eq_false_iff]
  intro hpast
  cases h with
  | stays none => exact none r hr ha (beyond_of_past hpast)
  | moves q top beyond stands =>
    have hlt := stands.past_iff.1 hpast
    rcases top.top r hr ha with hbefore | ⟨hsame, htext⟩
    · exact absurd (instant_le_of_rank hlt.le) (not_le.2 hbefore)
    · have hle : f.rank r ≤ f.rank q := rank_le_iff.2 (Or.inr ⟨hsame, UnitText.le_iff.2 htext⟩)
      exact absurd hlt (not_lt.2 hle)

/-- What the cursor moves over is on the page, and `lag` has let it through. -/
theorem Lands.handed (h : f.Lands t (f.page asked) c c') (hr : r ∈ f.matching asked)
    (hpast : f.past c r = true) :
    (r ∈ f.page asked ∧ f.Admitted t r) ∨ f.past c' r = true := by
  cases h with
  | stays none => exact Or.inr hpast
  | moves q top beyond stands =>
    rcases le_or_gt (f.rank r) (f.rank q) with hle | hlt
    · left
      refine ⟨mem_take_of_le (matching_sorted f asked) top.mem hr hle, ?_⟩
      exact (instant_le_of_rank hle).trans top.admitted
    · exact Or.inr (stands.past_iff.2 hlt)

end Feed

namespace BackfillLane

variable {b : BackfillLane} {s s' : BackfillState} {x : BackfillTurn} {xs : List BackfillTurn}
  {asked : CursorVal} {e r : Entry UnitText} {v : String} {tie : Option String}

/-- What a turn asks for: the cursor, or from before it. -/
theorem fetchCursor_ok (b : BackfillLane) (x : BackfillTurn) (v : String) (tie : Option String) :
    ∃ asked, b.fetchCursor x (.keyset (some v) tie) = .ok asked ∧
      ∀ r, b.past (.keyset (some v) tie) r = true → b.past asked r = true := by
  have hsame : ∃ asked, Except.ok (.keyset (some v) tie) = (.ok asked : Except JsError CursorVal) ∧
      ∀ r, b.past (.keyset (some v) tie) r = true → b.past asked r = true :=
    ⟨_, rfl, fun _ h => h⟩
  unfold fetchCursor
  split
  · rcases Feed.forFetch_cases b.toFeed (some v) tie x.now with h | ⟨v', hv, hoverlap, h⟩
    · rw [h]
      exact hsame
    · obtain rfl := Option.some.inj hv
      rw [h]
      exact ⟨_, rfl, fun r hr => Feed.past_rewound hoverlap hr⟩
  · exact hsame

/-- The lane between two pages: of the items from `since` on, those it has given to `processPage` are
behind the cursor, and the others past it. -/
structure OnTrack (b : BackfillLane) (s : BackfillState) : Prop where
  keyset : ∃ v tie, s.cursor = .keyset (some v) tie
  ahead : ∀ r ∈ b.items, b.instant b.since ≤ b.instant r.stamp →
    (∃ page ∈ s.pages, r ∈ page) ∨ b.past s.cursor r = true
  behind : ∀ page ∈ s.pages, ∀ r ∈ page, b.past s.cursor r = false
  fetched : ∀ page ∈ s.pages, ∀ r ∈ page, r ∈ s.fetched

theorem onTrack_saved (b : BackfillLane) : b.OnTrack b.saved where
  keyset := ⟨_, _, rfl⟩
  ahead r _ hr := Or.inr (by simpa [saved, KeysetApi.past, keysetValue, keysetTie] using hr)
  behind := nofun
  fetched := nofun

/-- What one page does. -/
structure Turned (b : BackfillLane) (s : BackfillState) (x : BackfillTurn) (asked : CursorVal)
    (s' : BackfillState) : Prop where
  lands : b.toFeed.Lands x.now (b.page asked) s.cursor s'.cursor
  fetched : s'.fetched = s.fetched ++ b.page asked
  pages : s'.pages = s.pages ++ [b.toFeed.admittedOf x.now (b.page asked)]
  done : s'.done = true ↔ b.hasMore asked = false ∨ b.Reaches s.cursor asked x.now

/-- The watermark has reached the target when the page reaches it. -/
theorem reaches_iff {c' : CursorVal} {t : Int}
    (h : b.toFeed.Lands t (b.page asked) (.keyset (some v) tie) c') :
    ∃ v' tie', c' = .keyset (some v') tie' ∧
      (b.instant b.goal ≤ b.instant v' ↔ b.Reaches (.keyset (some v) tie) asked t) := by
  cases h with
  | stays none =>
    refine ⟨v, tie, rfl, fun hv => Or.inl ⟨v, rfl, hv⟩, ?_⟩
    rintro (⟨v', ⟨⟩, hv⟩ | ⟨e, he, ha, hgoal⟩)
    · exact hv
    · -- an admitted item of the page is not beyond the cursor
      refine hgoal.trans (not_lt.1 fun hlt => ?_)
      refine none e he ha fun v' hv' => ?_
      obtain rfl := Option.some.inj hv'
      exact Or.inl hlt
  | moves q top beyond stands =>
    obtain ⟨v', hcursor, hv'⟩ := stands
    refine ⟨v', _, hcursor, fun hgoal => ?_, ?_⟩
    · exact Or.inr ⟨q, top.mem, top.admitted, hgoal.trans hv'.le⟩
    · rintro (⟨v₀, ⟨⟩, hv₀⟩ | ⟨e, he, ha, hgoal⟩)
      · rcases beyond v rfl with hlt | ⟨heq, -⟩
        · exact (hv₀.trans hlt.le).trans hv'.ge
        · exact (hv₀.trans heq.le).trans hv'.ge
      · rcases top.top e he ha with hlt | ⟨heq, -⟩
        · exact (hgoal.trans hlt.le).trans hv'.ge
        · exact (hgoal.trans heq.le).trans hv'.ge

/-- A turn of a lane that is not done. -/
theorem turn_ok (hs : b.OnTrack s) (hd : s.done = false) (x : BackfillTurn) :
    ∃ asked s', b.fetchCursor x s.cursor = .ok asked ∧
      (∀ r, b.past s.cursor r = true → b.past asked r = true) ∧ b.turn s x = .ok s' ∧
      b.Turned s x asked s' := by
  obtain ⟨v, tie, hc⟩ := hs.keyset
  obtain ⟨asked, hasked, hpast⟩ := fetchCursor_ok b x v tie
  obtain ⟨adv, hadv, hdone, hlands, hitems⟩ := Feed.advance_admits b.toFeed x.now (b.page asked)
    (b.hasMore asked) (some v) tie
  obtain ⟨v', tie', hcursor, hreaches⟩ := reaches_iff hlands
  rw [← hc] at hasked hpast hadv hlands hreaches
  have hreached : (timestampStrategy b.config).reached adv.cursor b.target =
      .ok (decide (b.instant b.goal ≤ b.instant v')) := by
    rw [hcursor]
    rfl
  refine ⟨asked, { cursor := adv.cursor, done := adv.done || decide (b.instant b.goal ≤ b.instant v'),
                   fetched := s.fetched ++ b.page asked, pages := s.pages ++ [adv.items] },
    hasked, hpast, ?_, hlands, rfl, by rw [hitems], ?_⟩
  · simp only [turn, hd, hasked, bind, Except.bind, hadv, hreached, pure, Except.pure]
    rfl
  · simp [hdone, hreaches]

/-- A turn keeps the lane on track. -/
theorem Turned.onTrack (h : b.Turned s x asked s') (hs : b.OnTrack s)
    (hpast : ∀ r, b.past s.cursor r = true → b.past asked r = true) : b.OnTrack s' := by
  obtain ⟨v, tie, hc⟩ := hs.keyset
  have hlands := h.lands
  have hlands' := h.lands
  rw [hc] at hlands'
  have hmem : ∀ page, page ∈ s'.pages ↔
      page ∈ s.pages ∨ page = b.toFeed.admittedOf x.now (b.page asked) := by
    simp [h.pages]
  obtain ⟨v', tie', hcursor, -⟩ := reaches_iff hlands'
  refine ⟨⟨v', tie', hcursor⟩, ?_, ?_, ?_⟩
  · intro r hr hsince
    rcases hs.ahead r hr hsince with ⟨page, hpage, hin⟩ | hahead
    · exact Or.inl ⟨page, (hmem page).2 (Or.inl hpage), hin⟩
    · have hmatch : r ∈ b.toFeed.matching asked := Feed.mem_matching.2 ⟨hr, hpast r hahead⟩
      rcases hlands.handed hmatch hahead with ⟨hon, ha⟩ | hahead'
      · exact Or.inl ⟨_, (hmem _).2 (Or.inr rfl), Feed.mem_admittedOf.2 ⟨hon, ha⟩⟩
      · exact Or.inr hahead'
  · intro page hpage r hin
    rcases (hmem page).1 hpage with hold | rfl
    · -- the cursor does not go back
      have hbehind := hs.behind page hold r hin
      rw [Bool.eq_false_iff] at hbehind ⊢
      rw [hc] at hbehind
      exact fun hr => hbehind (hlands'.past_of_past hr)
    · obtain ⟨hon, ha⟩ := Feed.mem_admittedOf.1 hin
      exact hlands'.behind hon ha
  · intro page hpage r hin
    rw [h.fetched, List.mem_append]
    rcases (hmem page).1 hpage with hold | rfl
    · exact Or.inl (hs.fetched page hold r hin)
    · exact Or.inr (Feed.mem_admittedOf.1 hin).1

/-- Of a page that reaches the target, only items at the target are left. -/
theorem goal_of_left (hc : s.cursor = .keyset (some v) tie)
    (hpast : ∀ r, b.past s.cursor r = true → b.past asked r = true) {t : Int}
    (hreaches : b.Reaches s.cursor asked t) (hr : r ∈ b.items) (hahead : b.past s.cursor r = true)
    (hleft : r ∉ b.page asked) : b.instant b.goal ≤ b.instant r.stamp := by
  rcases hreaches with ⟨v', hv', hgoal⟩ | ⟨e, he, -, hgoal⟩
  · rw [hc] at hv' hahead
    obtain rfl := Option.some.inj hv'
    refine hgoal.trans ?_
    cases tie with
    | none => simpa [KeysetApi.past, keysetValue, keysetTie] using hahead
    | some k =>
      simp only [KeysetApi.past, keysetValue, keysetTie, Bool.or_eq_true, Bool.and_eq_true,
        decide_eq_true_eq] at hahead
      rcases hahead with hlt | ⟨heq, -⟩
      · exact hlt.le
      · exact heq.le
  · -- what the page does not hold comes after all it holds
    have hmatch : r ∈ b.toFeed.matching asked := Feed.mem_matching.2 ⟨hr, hpast r hahead⟩
    have hlt : b.toFeed.rank e < b.toFeed.rank r := by
      by_contra hle
      exact hleft (mem_take_of_le (Feed.matching_sorted b.toFeed asked) he hmatch (not_lt.1 hle))
    exact hgoal.trans (Feed.instant_le_of_rank hlt.le)

/-- The last page of the lane: it covers the interval when it splits and withholds nothing. -/
theorem Turned.covered_iff (h : b.Turned s x asked s') (hs : b.OnTrack s)
    (hpast : ∀ r, b.past s.cursor r = true → b.past asked r = true) (hd : s'.done = true) :
    b.Covered s' ↔ ¬b.Splits s.cursor asked x.now ∧ ¬b.Withholds s.cursor asked x.now := by
  have hon := h.onTrack hs hpast
  have hend := h.done.1 hd
  -- an item past the cursor is given to `processPage` now or not at all
  have hhanded : ∀ r, b.past s.cursor r = true → (∃ page ∈ s'.pages, r ∈ page) →
      r ∈ b.page asked ∧ b.toFeed.Admitted x.now r := by
    rintro r hahead ⟨page, hpage, hin⟩
    rw [h.pages, List.mem_append, List.mem_singleton] at hpage
    rcases hpage with hold | rfl
    · rw [hs.behind page hold r hin] at hahead
      cases hahead
    · exact Feed.mem_admittedOf.1 hin
  constructor
  · intro hcovered
    constructor
    · rintro ⟨-, r, hr, hgoal, hahead, hleft⟩
      have hwithin : b.Within r := ⟨b.ordered.trans hgoal.ge, hgoal.le⟩
      exact hleft (hhanded r hahead (hcovered r hr hwithin).2).1
    · rintro ⟨-, r, hin, hwithin, hahead, hheld⟩
      have hr : r ∈ b.items := (Feed.mem_matching.1 (Feed.page_subset hin)).1
      exact hheld (hhanded r hahead (hcovered r hr hwithin).2).2
  · rintro ⟨hsplits, hwithholds⟩ r hr hwithin
    have hgiven : (∃ page ∈ s'.pages, r ∈ page) → r ∈ s'.fetched ∧ ∃ page ∈ s'.pages, r ∈ page := by
      rintro ⟨page, hpage, hin⟩
      exact ⟨hon.fetched page hpage r hin, page, hpage, hin⟩
    rcases hs.ahead r hr hwithin.1 with ⟨page, hpage, hin⟩ | hahead
    · refine hgiven ⟨page, ?_, hin⟩
      rw [h.pages]
      exact List.mem_append_left _ hpage
    · have honpage : r ∈ b.page asked := by
        by_contra hleft
        rcases hend with hlast | hreaches
        · have hmatch : r ∈ b.toFeed.matching asked := Feed.mem_matching.2 ⟨hr, hpast r hahead⟩
          exact hleft (Feed.page_of_last hlast hmatch)
        · obtain ⟨v, tie, hc⟩ := hs.keyset
          have hgoal := goal_of_left hc hpast hreaches hr hahead hleft
          exact hsplits ⟨hreaches, r, hr, le_antisymm hwithin.2 hgoal, hahead, hleft⟩
      have hadmitted : b.toFeed.Admitted x.now r := by
        by_contra hheld
        exact hwithholds ⟨hend, r, honpage, hwithin, hahead, hheld⟩
      refine hgiven ⟨_, ?_, Feed.mem_admittedOf.2 ⟨honpage, hadmitted⟩⟩
      rw [h.pages]
      exact List.mem_append_right _ (List.mem_singleton.2 rfl)

/-- A page that is not the last splits and withholds nothing. -/
theorem Turned.clean (h : b.Turned s x asked s') (hd : s'.done = false) :
    ¬b.Splits s.cursor asked x.now ∧ ¬b.Withholds s.cursor asked x.now := by
  have hopen : ¬(b.hasMore asked = false ∨ b.Reaches s.cursor asked x.now) := by
    rw [← h.done, hd]
    exact Bool.false_ne_true
  rw [not_or] at hopen
  exact ⟨fun hsplits => hopen.2 hsplits.1, fun hwithholds => hwithholds.1.elim hopen.1 hopen.2⟩

/-! ## The run -/

/-- Nothing more happens to a lane that is done. -/
theorem runFrom_done (hd : s.done = true) (xs : List BackfillTurn) :
    b.runFrom s xs = .ok s ∧ b.Clean s xs := by
  induction xs with
  | nil => exact ⟨rfl, trivial⟩
  | cons x xs ih =>
    have hturn : b.turn s x = .ok s := by
      simp [turn, hd, pure, Except.pure]
    constructor
    · rw [runFrom, hturn]
      exact ih.1
    · refine ⟨fun hnot => ?_, fun s' hs' => ?_⟩
      · rw [hd] at hnot
        cases hnot
      · rw [hturn] at hs'
        obtain rfl := Except.ok.inj hs'
        exact ih.2

/-- A lane that comes to its end has covered the interval when all its pages were clean. -/
theorem covered_iff_clean (hs : b.OnTrack s) (hd : s.done = false)
    (hrun : b.runFrom s xs = .ok s') (hd' : s'.done = true) : b.Covered s' ↔ b.Clean s xs := by
  induction xs generalizing s with
  | nil =>
    obtain rfl := Except.ok.inj hrun
    rw [hd] at hd'
    cases hd'
  | cons x xs ih =>
    obtain ⟨asked, s₁, hasked, hpast, hturn, h⟩ := turn_ok hs hd x
    rw [runFrom, hturn] at hrun
    replace hrun : b.runFrom s₁ xs = .ok s' := hrun
    have hclean : b.Clean s (x :: xs) ↔
        (¬b.Splits s.cursor asked x.now ∧ ¬b.Withholds s.cursor asked x.now) ∧ b.Clean s₁ xs := by
      simp [Clean, hd, hasked, hturn]
    rw [hclean]
    cases hd₁ : s₁.done with
    | true =>
      obtain ⟨hsame, htail⟩ := runFrom_done (b := b) hd₁ xs
      rw [hsame] at hrun
      obtain rfl := Except.ok.inj hrun
      rw [h.covered_iff hs hpast hd₁, and_iff_left htail]
    | false => rw [ih (h.onTrack hs hpast) hd₁ hrun, and_iff_right (h.clean hd₁)]

end BackfillLane

end Watukuy
