import Watukuy.Cursor.Overlap

/-!
# Catching up

Cycle after cycle of a live lane that stops after `maxPagesPerCycle` pages, over a keyset API whose
ids are in string order. A page that asks from the cursor of the lane itself takes it further; the
first page of a cycle asks from before it, by `overlap`. So a lane of one page a cycle is stuck when
that page ends at or before the cursor: it asks for the same page in every cycle (`catches_up_iff`).
-/

set_option autoImplicit false

namespace Watukuy

open Library

/-- A lane that catches up: its page budget, when its cycles begin, and how the clock runs during
each of them. -/
structure CatchUp extends Feed stringIds where
  maxPages : Nat
  maxPages_pos : 0 < maxPages
  began : Nat → Int
  pace : Nat → Nat → Nat
  /-- Time goes on. -/
  goesOn : ∀ t : Int, ∃ n, ∀ k, n ≤ k → t ≤ began k

namespace Feed

variable {f : Feed stringIds} {t : Int} {e q r : Entry UnitText} {c c' asked : CursorVal}
  {value tie : Option String} {page : List (Entry UnitText)} {n : Nat} {w : Walk UnitText}

/-! ## One request -/

/-- In string order what is past a cursor is beyond it. -/
theorem beyond_of_past (h : f.past (.keyset value tie) e = true) :
    f.Beyond (.keyset value tie) e := by
  intro v hv
  obtain rfl : value = some v := hv
  cases tie with
  | none =>
    have hle : f.instant v ≤ f.instant e.stamp := by
      simpa [KeysetApi.past, keysetValue, keysetTie] using h
    rcases hle.lt_or_eq with hlt | heq
    · exact Or.inl hlt
    · refine Or.inr ⟨heq, ?_⟩
      rintro tie ⟨⟩
  | some s =>
    simp only [KeysetApi.past, keysetValue, keysetTie, stringIds, Option.any_some,
      Bool.or_eq_true, Bool.and_eq_true, decide_eq_true_eq] at h
    refine h.imp_right (And.imp_right fun hlt => ?_)
    rintro s' ⟨⟩
    rw [← not_le, UnitText.le_iff] at hlt
    exact Bool.eq_false_iff.2 hlt

/-- A page with an admitted item past the cursor takes the cursor over one. -/
theorem Lands.progress (h : f.Lands t page (.keyset value tie) c') (he : e ∈ page)
    (ha : f.Admitted t e) (hpast : f.past (.keyset value tie) e = true) :
    ∃ q ∈ page, f.past (.keyset value tie) q = true ∧ f.past c' q = false := by
  cases h with
  | stays none => exact absurd (beyond_of_past hpast) (none e he ha)
  | moves q top beyond stands =>
    refine ⟨q, top.mem, past_of_beyond beyond, ?_⟩
    rw [Bool.eq_false_iff]
    intro hq
    exact lt_irrefl _ (stands.past_iff.1 hq)

/-- What the first request of a cycle asks for. -/
theorem forFetch_cases (f : Feed stringIds) (value tie : Option String) (t : Int) :
    (timestampStrategy f.config).forFetch (.keyset value tie) t = .ok (.keyset value tie) ∨
      ∃ v, value = some v ∧ 0 < f.overlapMs ∧
        (timestampStrategy f.config).forFetch (.keyset value tie) t = .ok (f.rewound v) := by
  cases value with
  | none =>
    left
    by_cases hpos : f.config.overlapMs ≤ 0 <;> simp [timestampStrategy, keysetValue, hpos]
  | some v =>
    by_cases hpos : 0 < f.overlapMs
    · exact Or.inr ⟨v, rfl, hpos, forFetch_rewound f v tie t hpos⟩
    · left
      have hle : f.config.overlapMs ≤ 0 := not_lt.1 hpos
      simp [timestampStrategy, keysetValue, hle]

/-! ## A cycle -/

/-- One turn of the loop of a cycle. -/
def turn (f : Feed stringIds) (n : Nat) (w : Walk UnitText) : Except JsError (Walk UnitText) := do
  if w.done then return w
  else
    let asked ←
      if n = 0 then (timestampStrategy f.config).forFetch w.cursor (f.now n) else .ok w.cursor
    f.request asked (f.now n) w

theorem cycle_succ (f : Feed stringIds) (c : CursorVal) (n : Nat) :
    f.cycle c (n + 1) = (f.cycle c n).bind (f.turn n) := rfl

/-- A turn asks from the cursor, or in the first one from the rewound one. -/
theorem turn_asks (f : Feed stringIds) (n : Nat) (hd : w.done = false)
    (hc : w.cursor = .keyset value tie) :
    ∃ asked, f.turn n w = f.request asked (f.now n) w ∧ (n ≠ 0 → asked = w.cursor) := by
  cases n with
  | zero =>
    rcases forFetch_cases f value tie (f.now 0) with h | ⟨v, -, -, h⟩
    · refine ⟨.keyset value tie, ?_, nofun⟩
      simp [turn, hd, hc, h, bind, Except.bind]
    · refine ⟨f.rewound v, ?_, nofun⟩
      simp [turn, hd, hc, h, bind, Except.bind]
  | succ n =>
    refine ⟨w.cursor, ?_, fun _ => rfl⟩
    simp [turn, hd, bind, Except.bind]

/-- A cycle does not fail, and takes nothing behind its cursor that was not behind it. -/
theorem cycle_forward (f : Feed stringIds) (value tie : Option String) (n : Nat) :
    ∃ w, f.cycle (.keyset value tie) n = .ok w ∧ (∃ v s, w.cursor = .keyset v s) ∧
      (∀ r, f.past w.cursor r = true → f.past (.keyset value tie) r = true) := by
  induction n with
  | zero => exact ⟨_, rfl, ⟨_, _, rfl⟩, fun _ h => h⟩
  | succ n ih =>
    obtain ⟨w, hw, ⟨v, s, hc⟩, hforward⟩ := ih
    cases hd : w.done with
    | true =>
      refine ⟨w, ?_, ⟨v, s, hc⟩, hforward⟩
      rw [cycle_succ, hw]
      simp [Except.bind, turn, hd, pure, Except.pure]
    | false =>
      obtain ⟨asked, hturn, -⟩ := turn_asks f n hd hc
      obtain ⟨w', hreq, -, -, hlands⟩ := request_spec f asked (f.now n) hc
      refine ⟨w', ?_, hlands.keyset ⟨v, s, hc⟩, fun r hr => hforward r ?_⟩
      · rw [cycle_succ, hw]
        exact hturn.trans hreq
      · rw [hc] at hlands ⊢
        exact hlands.past_of_past hr

/-- The lane is stuck at a cursor: a cycle has one page, and the page the overlap asks for has nothing
past the cursor, with more to come. -/
def Blocked (f : Feed stringIds) (maxPages : Nat) (c : CursorVal) : Prop :=
  maxPages = 1 ∧ 0 < f.overlapMs ∧ ∃ v s, c = .keyset (some v) s ∧
    f.hasMore (f.rewound v) = true ∧ ∀ e ∈ f.page (f.rewound v), f.past c e = false

/-- A page of which more is left is not empty. -/
theorem page_ne_nil {K : Type} [LinearOrder K] {ids : IdKind K} {f : Feed ids} {c : CursorVal}
    (h : f.hasMore c = true) : f.page c ≠ [] := by
  have hlong : f.limit < (f.matching c).length := by simpa [KeysetApi.hasMore] using h
  have hpos := f.limit_pos
  intro hnil
  have hlength := congrArg List.length hnil
  simp only [KeysetApi.page, List.length_take, List.length_nil] at hlength
  omega

/-- A request of which more is left, from the cursor or with a page that reaches past it. -/
theorem request_progress (hc : w.cursor = .keyset value tie) {w' : Walk UnitText}
    (hreq : f.request asked t w = .ok w') (hd : w'.done = false)
    (hadmitted : ∀ e ∈ f.items, f.Admitted t e)
    (hreach : f.hasMore asked = true → ∃ e ∈ f.page asked, f.past w.cursor e = true) :
    ∃ q ∈ f.items, f.past w.cursor q = true ∧ f.past w'.cursor q = false := by
  obtain ⟨w'', hreq', hdone, -, hlands⟩ := request_spec f asked t hc
  rw [hreq] at hreq'
  obtain rfl := Except.ok.inj hreq'
  have hmore : f.hasMore asked = true := by simpa [hdone] using hd
  obtain ⟨e, he, hpast⟩ := hreach hmore
  have hitem : ∀ {e : Entry UnitText}, e ∈ f.page asked → e ∈ f.items := fun he =>
    (mem_matching.1 (page_subset he)).1
  rw [hc] at hlands hpast ⊢
  obtain ⟨q, hq, hbefore, hafter⟩ := hlands.progress he (hadmitted e (hitem he)) hpast
  exact ⟨q, hitem hq, hbefore, hafter⟩

/-- A request from the cursor reaches past it. -/
theorem exact_reach (h : f.hasMore c = true) : ∃ e ∈ f.page c, f.past c e = true := by
  obtain ⟨e, he⟩ := List.exists_mem_of_ne_nil _ (page_ne_nil h)
  exact ⟨e, he, (mem_matching.1 (page_subset he)).2⟩

/-- A cycle that is cut off takes the cursor over an item, unless it is blocked. -/
theorem cycle_progress {maxPages : Nat} (hpos : 0 < maxPages)
    (hfree : ¬f.Blocked maxPages (.keyset value tie))
    (hadmitted : ∀ e ∈ f.items, f.Admitted f.start e)
    (hw : f.cycle (.keyset value tie) maxPages = .ok w) (hd : w.done = false) :
    ∃ q ∈ f.items, f.past (.keyset value tie) q = true ∧ f.past w.cursor q = false := by
  obtain ⟨n, rfl⟩ : ∃ n, maxPages = n + 1 := ⟨maxPages - 1, by omega⟩
  have hadmitted' : ∀ e ∈ f.items, f.Admitted (f.now n) e := fun e he =>
    (hadmitted e he).mono (now_mono f (Nat.zero_le n))
  -- the last turn of the cycle
  obtain ⟨w₁, hw₁, ⟨v, s, hc⟩, hforward⟩ := cycle_forward f value tie n
  rw [cycle_succ, hw₁] at hw
  replace hw : f.turn n w₁ = .ok w := hw
  have hd₁ : w₁.done = false := by
    by_contra hdone
    rw [Bool.not_eq_false] at hdone
    simp only [turn, hdone] at hw
    obtain rfl := Except.ok.inj hw
    rw [hdone] at hd
    cases hd
  cases n with
  | zero =>
    obtain rfl := Except.ok.inj hw₁
    obtain ⟨rfl, rfl⟩ := CursorVal.keyset.inj hc
    rcases forFetch_cases f value tie (f.now 0) with h | ⟨v, rfl, hoverlap, h⟩
    · have hreq : f.request (.keyset value tie) (f.now 0) ⟨.keyset value tie, false, []⟩ = .ok w := by
        simpa [turn, h, bind, Except.bind] using hw
      exact request_progress rfl hreq hd hadmitted' exact_reach
    · have hreq : f.request (f.rewound v) (f.now 0) ⟨.keyset (some v) tie, false, []⟩ = .ok w := by
        simpa [turn, h, bind, Except.bind] using hw
      refine request_progress rfl hreq hd hadmitted' fun hmore => ?_
      by_contra hnone
      refine hfree ⟨rfl, hoverlap, v, tie, rfl, hmore, fun e he => ?_⟩
      rw [Bool.eq_false_iff]
      exact fun hpast => hnone ⟨e, he, hpast⟩
  | succ n =>
    obtain ⟨asked, hturn, hasked⟩ := turn_asks f (n + 1) hd₁ hc
    obtain rfl := hasked (by omega)
    rw [hturn] at hw
    obtain ⟨q, hq, hbefore, hafter⟩ := request_progress hc hw hd hadmitted' exact_reach
    exact ⟨q, hq, hforward q hbefore, hafter⟩

/-- A blocked cycle is cut off where it began. -/
theorem cycle_blocked {maxPages : Nat} (h : f.Blocked maxPages c) :
    ∃ w, f.cycle c maxPages = .ok w ∧ w.done = false ∧ w.cursor = c := by
  obtain ⟨rfl, hoverlap, v, s, rfl, hmore, hnone⟩ := h
  obtain ⟨w, hreq, hdone, -, hlands⟩ := request_spec f (f.rewound v) (f.now 0)
    (w := ⟨.keyset (some v) s, false, []⟩) rfl
  refine ⟨w, ?_, by simp [hdone, hmore], ?_⟩
  · rw [cycle_succ]
    simpa [cycle, Except.bind, turn, forFetch_rewound f v s _ hoverlap, bind] using hreq
  · generalize hcursor : w.cursor = c' at hlands
    cases hlands with
    | stays none => rfl
    | moves q top beyond stands =>
      have hpast := past_of_beyond beyond
      rw [hnone q top.mem] at hpast
      cases hpast

end Feed

/-! ## Cycle after cycle -/

namespace CatchUp

variable {u : CatchUp} {c c₀ : CursorVal} {value tie : Option String} {k n : Nat}

/-- The API as the cycle `k` finds it. -/
def feed (u : CatchUp) (k : Nat) : Feed stringIds :=
  { u.toFeed with start := u.began k, elapsed := u.pace k }

/-- The cycle `k`, from the cursor it finds. -/
def cycleAt (u : CatchUp) (k : Nat) (c : CursorVal) : Except JsError (Walk UnitText) :=
  (u.feed k).cycle c u.maxPages

/-- The cursor that the cycle `k` finds. -/
def cursorAt (u : CatchUp) (c₀ : CursorVal) : Nat → Except JsError CursorVal
  | 0 => .ok c₀
  | k + 1 => do
    let c ← cursorAt u c₀ k
    let w ← u.cycleAt k c
    return w.cursor

/-- The cycle `k` ends with `done`; otherwise it is truncated. -/
def DoneAt (u : CatchUp) (c₀ : CursorVal) (k : Nat) : Prop :=
  ∃ c w, u.cursorAt c₀ k = .ok c ∧ u.cycleAt k c = .ok w ∧ w.done = true

/-- The items that are left past a cursor. -/
def left (u : CatchUp) (c : CursorVal) : Nat := (u.matching c).length

/-- Each cycle finds a cursor, and leaves one. -/
theorem cursorAt_ok (u : CatchUp) (value tie : Option String) (k : Nat) :
    ∃ v s, u.cursorAt (.keyset value tie) k = .ok (.keyset v s) := by
  induction k with
  | zero => exact ⟨_, _, rfl⟩
  | succ k ih =>
    obtain ⟨v, s, hc⟩ := ih
    obtain ⟨w, hw, ⟨v', s', hcursor⟩, -⟩ := Feed.cycle_forward (u.feed k) v s u.maxPages
    refine ⟨v', s', ?_⟩
    rw [cursorAt, hc]
    simp only [bind, Except.bind, cycleAt, hw, hcursor]
    rfl

theorem cursorAt_succ {w : Walk UnitText} (hc : u.cursorAt c₀ k = .ok c)
    (hw : u.cycleAt k c = .ok w) : u.cursorAt c₀ (k + 1) = .ok w.cursor := by
  rw [cursorAt, hc]
  simp only [bind, Except.bind, hw]
  rfl

/-- A blocked cycle blocks all cycles after it. -/
theorem blocked_forever (hc : u.cursorAt c₀ k = .ok c) (h : u.Blocked u.maxPages c) (j : Nat) :
    u.cursorAt c₀ (k + j) = .ok c ∧ ¬u.DoneAt c₀ (k + j) := by
  have hcycle : ∀ i, ∃ w, u.cycleAt i c = .ok w ∧ w.done = false ∧ w.cursor = c := fun i =>
    Feed.cycle_blocked (f := u.feed i) h
  have hcursor : u.cursorAt c₀ (k + j) = .ok c := by
    induction j with
    | zero => exact hc
    | succ j ih =>
      obtain ⟨w, hw, -, hstays⟩ := hcycle (k + j)
      rw [← hstays]
      exact cursorAt_succ ih hw
  refine ⟨hcursor, ?_⟩
  rintro ⟨c', w', hc', hw', hdone⟩
  rw [hcursor] at hc'
  obtain rfl := Except.ok.inj hc'
  obtain ⟨w, hw, hcut, -⟩ := hcycle (k + j)
  rw [hw] at hw'
  obtain rfl := Except.ok.inj hw'
  rw [hcut] at hdone
  cases hdone

/-- In the end `lag` lets all items through. -/
theorem all_admitted (u : CatchUp) :
    ∃ n, ∀ k, n ≤ k → ∀ e ∈ u.items, (u.feed k).Admitted (u.feed k).start e := by
  have hbound : ∀ items : List (Entry UnitText), ∃ t : Int, ∀ e ∈ items,
      u.toFeed.Admitted t e := by
    intro items
    induction items with
    | nil => exact ⟨0, by simp⟩
    | cons e items ih =>
      obtain ⟨t, ht⟩ := ih
      refine ⟨max t (⌈u.instant e.stamp⌉ + u.lagMs), ?_⟩
      intro e' he'
      rcases List.mem_cons.1 he' with rfl | he'
      · have hceil : u.instant e'.stamp ≤ (⌈u.instant e'.stamp⌉ : Rat) := Int.le_ceil _
        refine Feed.Admitted.mono (t := ⌈u.instant e'.stamp⌉ + u.lagMs) ?_ (le_max_right _ _)
        unfold Feed.Admitted
        push_cast
        linarith
      · exact (ht e' he').mono (le_max_left _ _)
  obtain ⟨t, ht⟩ := hbound u.items
  obtain ⟨n, hn⟩ := u.goesOn t
  exact ⟨n, fun k hk e he => (ht e he).mono (hn k hk)⟩

/-- Fewer items are left past a cursor that was taken over one of them. -/
theorem left_lt {c' : CursorVal} (hforward : ∀ r, u.past c' r = true → u.past c r = true)
    {q : Entry UnitText} (hq : q ∈ u.items) (hbefore : u.past c q = true)
    (hafter : u.past c' q = false) : u.left c' < u.left c := by
  have hsub : (u.matching c').Sublist (u.matching c) :=
    List.monotone_filter_right u.items hforward
  refine lt_of_le_of_ne hsub.length_le fun heq => ?_
  have hsame := hsub.eq_of_length heq
  have hmem : q ∈ u.matching c' := by
    rw [hsame]
    exact Feed.mem_matching.2 ⟨hq, hbefore⟩
  rw [(Feed.mem_matching.1 hmem).2] at hafter
  cases hafter

/-- A lane that is never blocked comes to a cycle that ends with `done`, from any cycle on: induction
on what is left. -/
theorem catches_up (hfree : ∀ k c, u.cursorAt (.keyset value tie) k = .ok c →
      ¬u.Blocked u.maxPages c) (n : Nat) : ∃ k, n ≤ k ∧ u.DoneAt (.keyset value tie) k := by
  obtain ⟨m, hm⟩ := u.all_admitted
  have hreach : ∀ left k c, max n m ≤ k → u.cursorAt (.keyset value tie) k = .ok c →
      u.left c = left → ∃ k', k ≤ k' ∧ u.DoneAt (.keyset value tie) k' := by
    intro left
    induction left using Nat.strong_induction_on with
    | _ left ih =>
      intro k c hk hc hleft
      obtain ⟨v, s, hc'⟩ := cursorAt_ok u value tie k
      rw [hc] at hc'
      obtain rfl := Except.ok.inj hc'
      obtain ⟨w, hw, -, hforward⟩ := Feed.cycle_forward (u.feed k) v s u.maxPages
      cases hd : w.done with
      | true => exact ⟨k, le_refl k, _, w, hc, hw, hd⟩
      | false =>
        obtain ⟨q, hq, hbefore, hafter⟩ := Feed.cycle_progress (f := u.feed k) u.maxPages_pos
          (hfree k _ hc) (hm k (le_trans (le_max_right n m) hk)) hw hd
        have hless : u.left w.cursor < left := hleft ▸ left_lt hforward hq hbefore hafter
        obtain ⟨k', hk', hdone⟩ := ih _ hless (k + 1) w.cursor (by omega) (cursorAt_succ hc hw) rfl
        exact ⟨k', by omega, hdone⟩
  obtain ⟨v, s, hc⟩ := cursorAt_ok u value tie (max n m)
  obtain ⟨k, hk, hdone⟩ := hreach _ (max n m) _ (le_refl _) hc rfl
  exact ⟨k, le_trans (le_max_left n m) hk, hdone⟩

/-- With more than one page in a cycle no lane is blocked. -/
theorem not_blocked_of_pages (h : 2 ≤ u.maxPages) (c : CursorVal) : ¬u.Blocked u.maxPages c := by
  rintro ⟨hone, -⟩
  omega

/-- Cycle after cycle some cycle ends with `done`, exactly when no cycle finds the lane blocked. -/
theorem catches_up_iff (u : CatchUp) (value tie : Option String) :
    (∀ n, ∃ k, n ≤ k ∧ u.DoneAt (.keyset value tie) k) ↔
      ∀ k c, u.cursorAt (.keyset value tie) k = .ok c → ¬u.Blocked u.maxPages c := by
  constructor
  · intro hdone k c hc hblocked
    obtain ⟨k', hk', hend⟩ := hdone k
    obtain ⟨j, rfl⟩ := Nat.exists_eq_add_of_le hk'
    exact (blocked_forever hc hblocked j).2 hend
  · intro hfree n
    exact catches_up hfree n

/-- Two items with pages of one; the overlap reaches back to the first. A cycle has one page. -/
def onePageLane : CatchUp where
  toFeed := Feed.windowFeed [⟨⟨"a"⟩, "95"⟩, ⟨⟨"b"⟩, "100"⟩] (by decide +kernel)
  maxPages := 1
  maxPages_pos := Nat.one_pos
  began k := 1000 + k
  pace _ _ := 0
  goesOn t := ⟨t.toNat, fun k hk => by omega⟩

/-- The first cycle fetches `a`. Each later one asks from ten milliseconds before `a`, fetches `a`
again, and is truncated. -/
theorem onePageLane_stuck :
    ¬∀ n, ∃ k, n ≤ k ∧ onePageLane.DoneAt (.keyset none none) k := by
  have hc : onePageLane.cursorAt (.keyset none none) 1 = .ok (.keyset (some "95") (some "a")) := by
    decide +kernel
  have hblocked : onePageLane.Blocked onePageLane.maxPages (.keyset (some "95") (some "a")) :=
    ⟨rfl, by decide, "95", some "a", rfl, by decide +kernel, by decide +kernel⟩
  intro hdone
  obtain ⟨k, hk, hend⟩ := hdone 1
  obtain ⟨j, rfl⟩ := Nat.exists_eq_add_of_le hk
  exact (blocked_forever hc hblocked j).2 hend

end CatchUp

end Watukuy
