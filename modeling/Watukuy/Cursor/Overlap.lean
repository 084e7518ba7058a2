import Watukuy.Cursor.Walk

/-!
# The overlap window

`cycle` is one cycle of the live lane over a keyset API: `forFetch` rewinds the first request by
`overlap`, later requests continue from the keyset cursor. With ids in string order every item past
the cursor is fetched when the cycle ends; of the window before the cursor it has fetched what the
first page holds (`cycle_rescans_iff`).
-/

set_option autoImplicit false

namespace Watukuy

open Library

namespace Feed

section

variable {K : Type} [LinearOrder K] {ids : IdKind K}

/-- One cycle from a persisted cursor: `forFetch` adjusts the first request only. -/
def cycle (f : Feed ids) (cursor : CursorVal) : Nat → Except JsError (Walk K)
  | 0 => .ok { cursor, done := false, fetched := [] }
  | n + 1 => do
    let w ← cycle f cursor n
    if w.done then return w
    else
      let asked ←
        if n = 0 then (timestampStrategy f.config).forFetch w.cursor (f.now n) else .ok w.cursor
      f.request asked (f.now n) w

/-- The items from an instant on, up to an item. -/
def upTo (f : Feed ids) (since : Rat) (r : Entry K) : List (Entry K) :=
  f.items.filter fun e => decide (f.rank e ≤ f.rank r) && decide (since ≤ f.instant e.stamp)

end

section

variable {f : Feed stringIds} {t : Int} {e q r : Entry UnitText} {c c' : CursorVal}
  {value tie : Option String}

/-- In string order the server and the strategy agree on what is past a cursor. -/
theorem past_of_beyond (h : f.Beyond (.keyset value tie) e) :
    f.past (.keyset value tie) e = true := by
  cases value with
  | none => rfl
  | some v =>
    cases tie with
    | none =>
      have hle : f.instant v ≤ f.instant e.stamp := by
        rcases h v rfl with hlt | ⟨heq, -⟩
        · exact hlt.le
        · exact heq.le
      simpa [KeysetApi.past, keysetValue, keysetTie] using hle
    | some s =>
      simp only [KeysetApi.past, keysetValue, keysetTie, stringIds, Option.any_some,
        Bool.or_eq_true, Bool.and_eq_true, decide_eq_true_eq]
      refine (h v rfl).imp_right (And.imp_right fun htie => ?_)
      rw [← not_le, UnitText.le_iff]
      exact Bool.eq_false_iff.1 (htie s rfl)

/-- A page leaves nothing behind the cursor that was not behind it. -/
theorem Lands.past_of_past {page : List (Entry UnitText)}
    (h : f.Lands t page (.keyset value tie) c') (hr : f.past c' r = true) :
    f.past (.keyset value tie) r = true := by
  cases h with
  | stays none => exact hr
  | moves q top beyond stands => exact past_mono (past_of_beyond beyond) (stands.past_iff.1 hr).le

/-- What the cursor moves over is on the page. -/
theorem Lands.page_or_past (h : f.Lands t (f.page c) (.keyset value tie) c')
    (hc : r ∈ f.matching c) (hr : f.past (.keyset value tie) r = true) :
    r ∈ f.page c ∨ f.past c' r = true := by
  cases h with
  | stays none => exact Or.inr hr
  | moves q top beyond stands =>
    rcases le_or_gt (f.rank r) (f.rank q) with hle | hlt
    · exact Or.inl (mem_take_of_le (matching_sorted f c) top.mem hc hle)
    · exact Or.inr (stands.past_iff.2 hlt)

end

/-! ## A cycle after its first request -/

section

variable {f : Feed stringIds} {value : String} {tie : Option String} {n : Nat}
  {w w' : Walk UnitText} {r : Entry UnitText}

/-- The cursor of the first request. -/
def rewound (f : Feed stringIds) (value : String) : CursorVal :=
  .keyset (some (f.format (f.instant value - f.overlapMs) (some value))) none

/-- A cycle from the cursor `(value, tie)` after its first request: it has fetched the first page,
and of what is past the cursor everything up to where it stands now. -/
structure Rescan (f : Feed stringIds) (value : String) (tie : Option String)
    (w : Walk UnitText) : Prop where
  keyset : ∃ v s, w.cursor = .keyset v s
  first : ∀ r ∈ f.page (f.rewound value), r ∈ w.fetched
  within : ∀ r ∈ w.fetched,
    r ∈ f.page (f.rewound value) ∨ f.past (.keyset (some value) tie) r = true
  forward : ∀ r, f.past w.cursor r = true → f.past (.keyset (some value) tie) r = true
  ahead : ∀ r ∈ f.items, f.past (.keyset (some value) tie) r = true →
    r ∈ w.fetched ∨ f.past w.cursor r = true
  whole : w.done = true → ∀ r ∈ f.items, f.past (.keyset (some value) tie) r = true →
    r ∈ w.fetched

theorem forFetch_rewound (f : Feed stringIds) (value : String) (tie : Option String) (t : Int)
    (h : 0 < f.overlapMs) :
    (timestampStrategy f.config).forFetch (.keyset (some value) tie) t = .ok (f.rewound value) := by
  have hpos : ¬f.config.overlapMs ≤ 0 := not_le.2 h
  simp only [timestampStrategy, keysetValue, if_neg hpos, parseTimestamp_config]
  rfl

theorem Lands.keyset {K : Type} [LinearOrder K] {ids : IdKind K} {f : Feed ids} {t : Int}
    {page : List (Entry K)} {c c' : CursorVal} (h : f.Lands t page c c')
    (hc : ∃ v s, c = .keyset v s) : ∃ v s, c' = .keyset v s := by
  cases h with
  | stays none => exact hc
  | moves q top beyond stands =>
    obtain ⟨v, hv, -⟩ := stands
    exact ⟨_, _, hv⟩

/-- The rewound request asks for everything the cursor would ask for. -/
theorem past_rewound (h : 0 < f.overlapMs) (hr : f.past (.keyset (some value) tie) r = true) :
    f.past (f.rewound value) r = true := by
  have hle : f.instant value ≤ f.instant r.stamp := by
    cases tie with
    | none => simpa [KeysetApi.past, keysetValue, keysetTie] using hr
    | some s =>
      simp only [KeysetApi.past, keysetValue, keysetTie, Bool.or_eq_true, Bool.and_eq_true,
        decide_eq_true_eq] at hr
      rcases hr with hlt | ⟨heq, -⟩
      · exact hlt.le
      · exact heq.le
  have hformat := f.format_le (f.instant value - f.overlapMs) (some value)
  have hpos : (0 : Rat) < f.overlapMs := by exact_mod_cast h
  simp only [rewound, KeysetApi.past, keysetValue, keysetTie, decide_eq_true_eq]
  linarith

/-- The last page of a request holds all it asked for. -/
theorem page_of_last {c : CursorVal} (h : f.hasMore c = false) (hr : r ∈ f.matching c) :
    r ∈ f.page c := by
  have hle : (f.matching c).length ≤ f.limit := by simpa [KeysetApi.hasMore] using h
  rwa [KeysetApi.page, List.take_of_length_le hle]

/-- The first request. -/
theorem rescan_first (h : 0 < f.overlapMs)
    (hw : f.cycle (.keyset (some value) tie) 1 = .ok w) : f.Rescan value tie w := by
  obtain ⟨w', hreq, hdone, hfetched, hlands⟩ := request_spec f (f.rewound value) (f.now 0)
    (w := ⟨.keyset (some value) tie, false, []⟩) rfl
  obtain rfl : w' = w := by
    have hcycle : f.cycle (.keyset (some value) tie) 1 =
        f.request (f.rewound value) (f.now 0) ⟨.keyset (some value) tie, false, []⟩ := by
      simp [cycle, forFetch_rewound f value tie _ h, bind, Except.bind]
    rw [hcycle, hreq] at hw
    exact Except.ok.inj hw
  rw [List.nil_append] at hfetched
  have hasked : ∀ r ∈ f.items, f.past (.keyset (some value) tie) r = true →
      r ∈ f.matching (f.rewound value) := fun r hr hpast =>
    mem_matching.2 ⟨hr, past_rewound h hpast⟩
  refine ⟨hlands.keyset ⟨_, _, rfl⟩, ?_, ?_, ?_, ?_, ?_⟩
  · intro r hr
    rwa [hfetched]
  · intro r hr
    rw [hfetched] at hr
    exact Or.inl hr
  · intro r hr
    exact hlands.past_of_past hr
  · intro r hr hpast
    rw [hfetched]
    exact hlands.page_or_past (hasked r hr hpast) hpast
  · intro hend r hr hpast
    rw [hfetched]
    exact page_of_last (by simpa [hdone] using hend) (hasked r hr hpast)

/-- A later request continues from the cursor the cycle has come to. -/
theorem Rescan.step (h : f.Rescan value tie w) (hw : f.cycle (.keyset (some value) tie) (n + 1) =
    .ok w) (hw' : f.cycle (.keyset (some value) tie) (n + 2) = .ok w') :
    f.Rescan value tie w' := by
  rw [cycle, hw] at hw'
  simp only [bind, Except.bind, Nat.add_one_ne_zero, if_false] at hw'
  cases hd : w.done with
  | true =>
    obtain rfl : w = w' := by
      simpa [hd, pure, Except.pure] using hw'
    exact h
  | false =>
    obtain ⟨v, s, hc⟩ := h.keyset
    obtain ⟨w'', hreq, hdone, hfetched, hlands⟩ := request_spec f w.cursor (f.now (n + 1)) hc
    obtain rfl : w'' = w' := by
      simpa [hd, hreq] using hw'
    have hforward : ∀ r, f.past w''.cursor r = true → f.past w.cursor r = true := by
      intro r hr
      rw [hc] at hlands ⊢
      exact hlands.past_of_past hr
    refine ⟨hlands.keyset h.keyset, ?_, ?_, ?_, ?_, ?_⟩
    · intro r hr
      rw [hfetched]
      exact List.mem_append_left _ (h.first r hr)
    · intro r hr
      rw [hfetched, List.mem_append] at hr
      rcases hr with hr | hr
      · exact h.within r hr
      · exact Or.inr (h.forward r (mem_matching.1 (page_subset hr)).2)
    · intro r hr
      exact h.forward r (hforward r hr)
    · intro r hr hpast
      rw [hfetched, List.mem_append]
      rcases h.ahead r hr hpast with hold | hahead
      · exact Or.inl (Or.inl hold)
      · have hask : r ∈ f.matching w.cursor := mem_matching.2 ⟨hr, hahead⟩
        rw [hc] at hahead hask hlands ⊢
        exact (hlands.page_or_past hask hahead).imp_left Or.inr
    · intro hend r hr hpast
      rw [hfetched, List.mem_append]
      rcases h.ahead r hr hpast with hold | hahead
      · exact Or.inl hold
      · exact Or.inr (page_of_last (by simpa [hdone] using hend) (mem_matching.2 ⟨hr, hahead⟩))

theorem cycle_rescan (h : 0 < f.overlapMs) (n : Nat)
    (hw : f.cycle (.keyset (some value) tie) (n + 1) = .ok w) : f.Rescan value tie w := by
  induction n generalizing w with
  | zero => exact rescan_first h hw
  | succ n ih =>
    cases hprev : f.cycle (.keyset (some value) tie) (n + 1) with
    | error e =>
      rw [cycle, hprev] at hw
      cases hw
    | ok prev => exact (ih hprev).step hprev hw

/-- The first page reaches an item when the items up to it fit there. -/
theorem mem_first_iff (hr : r ∈ f.matching (f.rewound value)) :
    r ∈ f.page (f.rewound value) ↔
      (f.upTo (f.instant (f.format (f.instant value - f.overlapMs) (some value))) r).length ≤
        f.limit := by
  have hupTo : (f.matching (f.rewound value)).filter (fun a => decide (f.rank a ≤ f.rank r)) =
      f.upTo (f.instant (f.format (f.instant value - f.overlapMs) (some value))) r := by
    unfold KeysetApi.matching
    rw [List.filter_filter]
    rfl
  rw [← hupTo]
  exact mem_take_iff_rank (matching_sorted f _) hr

/-- A cycle that ends has fetched the whole window before the watermark exactly when the first page,
from the formatted start of the window on, reaches every item of the window up to the cursor. -/
theorem cycle_rescans_iff (f : Feed stringIds) (value : String) (tie : Option String)
    (h : 0 < f.overlapMs) {n : Nat} {w : Walk UnitText}
    (hw : f.cycle (.keyset (some value) tie) n = .ok w) (hd : w.done = true) :
    (∀ r ∈ f.items, f.instant value - f.overlapMs ≤ f.instant r.stamp →
        f.instant r.stamp ≤ f.instant value → r ∈ w.fetched) ↔
      ∀ r ∈ f.items, f.instant value - f.overlapMs ≤ f.instant r.stamp →
        f.past (.keyset (some value) tie) r = false →
        (f.upTo (f.instant (f.format (f.instant value - f.overlapMs) (some value))) r).length ≤
          f.limit := by
  obtain ⟨n, rfl⟩ : ∃ m, n = m + 1 := by
    cases n with
    | zero =>
      obtain rfl := Except.ok.inj hw
      cases hd
    | succ n => exact ⟨n, rfl⟩
  have hrescan := cycle_rescan h n hw
  have hasked : ∀ r ∈ f.items, f.instant value - f.overlapMs ≤ f.instant r.stamp →
      r ∈ f.matching (f.rewound value) := by
    intro r hr hle
    refine mem_matching.2 ⟨hr, ?_⟩
    have hformat := f.format_le (f.instant value - f.overlapMs) (some value)
    simpa [rewound, KeysetApi.past, keysetValue, keysetTie] using hformat.trans hle
  constructor
  · intro hall r hr hle hpast
    rw [← mem_first_iff (hasked r hr hle)]
    have hbefore : f.instant r.stamp ≤ f.instant value := by
      by_contra hlt
      have hlater := not_le.1 hlt
      have hpast' : f.past (.keyset (some value) tie) r = true := by
        cases tie <;> simp [KeysetApi.past, keysetValue, keysetTie, hlater, hlater.le]
      rw [hpast] at hpast'
      cases hpast'
    rcases hrescan.within r (hall r hr hle hbefore) with hfirst | hlater
    · exact hfirst
    · rw [hpast] at hlater
      cases hlater
  · intro hcond r hr hle hbefore
    cases hpast : f.past (.keyset (some value) tie) r with
    | true => exact hrescan.whole hd r hr hpast
    | false =>
      have hfirst := (mem_first_iff (hasked r hr hle)).2 (hcond r hr hle hpast)
      exact hrescan.first r hfirst

end

/-! ## A window of two pages -/

/-- An API with one item on a page, polled with an overlap of ten milliseconds. -/
def windowFeed (items : List (Entry UnitText))
    (sorted : items.Pairwise fun a b =>
      toLex (epochInstant a.stamp, a.id) < toLex (epochInstant b.stamp, b.id)) :
    Feed stringIds where
  instant := epochInstant
  items := items
  sorted := sorted
  limit := 1
  limit_pos := Nat.one_pos
  field := "updatedAt"
  initial := none
  lagMs := 0
  overlapMs := 10
  format := epochFormat
  format_le := epochFormat_le
  start := 1000
  elapsed _ := 0

/-- What the server shows first. -/
def earlyFeed : Feed stringIds := windowFeed [⟨⟨"a"⟩, "100"⟩] (by decide +kernel)

/-- Two items with earlier timestamps become visible. -/
def lateFeed : Feed stringIds :=
  windowFeed [⟨⟨"x"⟩, "95"⟩, ⟨⟨"y"⟩, "96"⟩, ⟨⟨"a"⟩, "100"⟩] (by decide +kernel)

/-- The watermark reaches `100`. Of the window from `90` on the next cycle fetches one page; the next
request continues from the watermark, and the cycle ends without `y`. -/
theorem window_cut_short :
    earlyFeed.cycle (.keyset none none) 1 =
        .ok ⟨.keyset (some "100") (some "a"), true, [⟨⟨"a"⟩, "100"⟩]⟩ ∧
      ∃ w r, lateFeed.cycle (.keyset (some "100") (some "a")) 2 = .ok w ∧ w.done = true ∧
        r ∈ lateFeed.items ∧ lateFeed.instant "100" - lateFeed.overlapMs ≤ lateFeed.instant r.stamp ∧
        lateFeed.instant r.stamp ≤ lateFeed.instant "100" ∧ r ∉ w.fetched := by
  have hearly : earlyFeed.cycle (.keyset none none) 1 =
      .ok ⟨.keyset (some "100") (some "a"), true, [⟨⟨"a"⟩, "100"⟩]⟩ := by decide +kernel
  have hlate : lateFeed.cycle (.keyset (some "100") (some "a")) 2 =
      .ok ⟨.keyset (some "100") (some "a"), true, [⟨⟨"x"⟩, "95"⟩]⟩ := by decide +kernel
  exact ⟨hearly, _, ⟨⟨"y"⟩, "96"⟩, hlate, rfl, by decide +kernel⟩

/-- The same late items and one past the watermark, with three items on a page. -/
def wideFeed : Feed stringIds :=
  { windowFeed [⟨⟨"x"⟩, "95"⟩, ⟨⟨"y"⟩, "96"⟩, ⟨⟨"a"⟩, "100"⟩, ⟨⟨"b"⟩, "105"⟩] (by decide +kernel) with
    limit := 3
    limit_pos := Nat.succ_pos 2 }

/-- The first page holds the whole window, the second one what is past the watermark. -/
theorem cycle_rescans_early :
    ∃ w, wideFeed.cycle (.keyset (some "100") (some "a")) 2 = .ok w ∧ w.done = true ∧
      ⟨⟨"x"⟩, "95"⟩ ∈ w.fetched ∧ ⟨⟨"b"⟩, "105"⟩ ∈ w.fetched ∧
      ∀ r ∈ wideFeed.items,
        wideFeed.instant "100" - wideFeed.overlapMs ≤ wideFeed.instant r.stamp →
        wideFeed.instant r.stamp ≤ wideFeed.instant "100" → r ∈ w.fetched := by
  have hcycle : wideFeed.cycle (.keyset (some "100") (some "a")) 2 =
      .ok ⟨.keyset (some "105") (some "b"), true,
        [⟨⟨"x"⟩, "95"⟩, ⟨⟨"y"⟩, "96"⟩, ⟨⟨"a"⟩, "100"⟩, ⟨⟨"b"⟩, "105"⟩]⟩ := by decide +kernel
  refine ⟨_, hcycle, rfl, by simp, by simp, ?_⟩
  refine (cycle_rescans_iff wideFeed "100" (some "a") (by decide) hcycle rfl).2 ?_
  decide +kernel

end Feed

end Watukuy
