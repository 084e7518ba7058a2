import Watukuy.Cursor.Keyset
import Mathlib.Data.Int.ConditionallyCompleteOrder
import Mathlib.Data.Rat.Floor

/-!
# Walking a keyset API

`walk` is the loop of `runCycle` over `fetch` and `advance` from the initial cursor; `scan_cycle` in
`Watukuy.Run.KeysetLoops` runs that loop itself. It visits every item exactly when the initial cursor
asks for all of them and no cut of the listing blocks it (`walk_visits_iff`): the strategy compares ids
as texts, and an item whose text is below the text of the last item seen does not move the cursor.
-/

set_option autoImplicit false

namespace Watukuy

open Library

variable {K : Type} [LinearOrder K] {ids : IdKind K}

namespace Feed

/-! ## The loop -/

/-- `fetch` and `advance`, from the initial cursor until a page is the last. -/
def walk (f : Feed ids) : Nat → Except JsError (Walk K)
  | 0 => .ok { cursor := (timestampStrategy f.config).initial, done := false, fetched := [] }
  | n + 1 => do
    let w ← walk f n
    if w.done then return w else f.request w.cursor (f.now n) w

theorem now_mono (f : Feed ids) : Monotone f.now := by
  refine monotone_nat_of_le_succ ?_
  intro n
  simp [now]

section

variable {f : Feed ids} {t t' : Int} {e p q r : Entry K} {c c' : CursorVal}

theorem Admitted.mono (h : f.Admitted t e) (hle : t ≤ t') : f.Admitted t' e := by
  have hcast : (t : Rat) ≤ (t' : Rat) := by exact_mod_cast hle
  have hsub : (t : Rat) - f.lagMs ≤ (t' : Rat) - f.lagMs := by linarith
  exact le_trans h hsub

theorem rank_le_iff : f.rank e ≤ f.rank r ↔ f.instant e.stamp < f.instant r.stamp ∨
    f.instant e.stamp = f.instant r.stamp ∧ e.id ≤ r.id := by
  simp [KeysetApi.rank, Prod.Lex.le_iff]

theorem rank_lt_iff : f.rank e < f.rank r ↔ f.instant e.stamp < f.instant r.stamp ∨
    f.instant e.stamp = f.instant r.stamp ∧ e.id < r.id := by
  simp [KeysetApi.rank, Prod.Lex.lt_iff]

theorem instant_le_of_rank (h : f.rank e ≤ f.rank r) : f.instant e.stamp ≤ f.instant r.stamp := by
  rcases rank_le_iff.1 h with hlt | ⟨heq, -⟩
  · exact hlt.le
  · exact heq.le

/-- Past a cursor that stands at `q` is past `q`. -/
theorem Stands.past_iff (h : f.Stands c q) : f.past c r = true ↔ f.rank q < f.rank r := by
  obtain ⟨v, rfl, hv⟩ := h
  rw [rank_lt_iff]
  simp [KeysetApi.past, keysetValue, keysetTie, ids.read_text, hv]

/-- What is past a cursor is upward closed. -/
theorem past_mono (h : f.past c e = true) (hle : f.rank e ≤ f.rank r) : f.past c r = true := by
  have hinstant := instant_le_of_rank hle
  unfold KeysetApi.past at h ⊢
  split at h
  · rfl
  · simp only [decide_eq_true_eq] at h ⊢
    exact h.trans hinstant
  · rename_i v s _ _
    simp only [Bool.or_eq_true, Bool.and_eq_true, decide_eq_true_eq] at h ⊢
    rcases h with hlt | ⟨heq, hread⟩
    · exact Or.inl (hlt.trans_le hinstant)
    · rcases rank_le_iff.1 hle with hlt | ⟨hsame, hid⟩
      · exact Or.inl (heq ▸ hlt)
      · refine Or.inr ⟨heq.trans hsame, ?_⟩
        cases hk : ids.read s with
        | none => simp [hk] at hread
        | some k =>
          simp only [hk, Option.any_some, decide_eq_true_eq] at hread ⊢
          exact hread.trans_le hid

theorem mem_matching : r ∈ f.matching c ↔ r ∈ f.items ∧ f.past c r = true := List.mem_filter

theorem matching_sorted (f : Feed ids) (c : CursorVal) :
    (f.matching c).Pairwise fun a b => f.rank a < f.rank b :=
  List.Pairwise.sublist List.filter_sublist f.sorted

theorem page_subset : r ∈ f.page c → r ∈ f.matching c := List.mem_of_mem_take

end

/-! ## Cuts of the listing -/

/-- The items the initial cursor asks for. -/
def asked (f : Feed ids) : List (Entry K) := f.matching (timestampStrategy f.config).initial

/-- In the end `lag` lets the item through. -/
def Arrives (f : Feed ids) (e : Entry K) : Prop := ∃ n, f.Admitted (f.now n) e

/-- The item is after the last one behind the cut, with ids compared as texts. -/
def Follows (f : Feed ids) (last : Option (Entry K)) (e : Entry K) : Prop :=
  ∀ p ∈ last, f.instant p.stamp < f.instant e.stamp ∨
    f.instant p.stamp = f.instant e.stamp ∧ stringLe (ids.text e.id) (ids.text p.id) = false

/-- Wherever more than a page is left, the next page has an item that arrives and follows. -/
def Unblocked (f : Feed ids) : Prop :=
  ∀ pre suf, f.asked = pre ++ suf → f.limit < suf.length →
    ∃ e ∈ suf.take f.limit, f.Arrives e ∧ f.Follows pre.getLast? e

/-- The walk ends after finitely many pages, and has fetched every item of the server. -/
def VisitsAll (f : Feed ids) : Prop :=
  ∃ n w, f.walk n = .ok w ∧ w.done = true ∧ ∀ r ∈ f.items, r ∈ w.fetched

/-- The cursor stands at a cut of the items asked for. -/
structure Cut (f : Feed ids) (c : CursorVal) (pre suf : List (Entry K)) : Prop where
  split : f.asked = pre ++ suf
  start : pre.getLast? = none → c = .keyset f.initial none
  stands : ∀ p ∈ pre.getLast?, f.Stands c p

section

variable {f : Feed ids} {t : Int} {e p q r : Entry K} {c c' : CursorVal}
  {pre suf : List (Entry K)}

theorem Cut.sorted (h : f.Cut c pre suf) :
    (pre ++ suf).Pairwise fun a b => f.rank a < f.rank b := by
  rw [← h.split]
  exact matching_sorted f _

/-- The server answers with what is ahead of the cut. -/
theorem Cut.matching (h : f.Cut c pre suf) : f.matching c = suf := by
  cases hlast : pre.getLast? with
  | none =>
    obtain rfl := List.getLast?_eq_none_iff.1 hlast
    rw [h.start rfl]
    exact h.split
  | some p =>
    have hstands := h.stands p hlast
    have hp : p ∈ f.asked := by
      rw [h.split]
      exact List.mem_append_left _ (List.mem_of_mem_getLast? hlast)
    have hfilter : f.matching c = f.asked.filter (fun a => decide (f.rank p < f.rank a)) := by
      unfold KeysetApi.matching asked
      rw [KeysetApi.matching, List.filter_filter]
      apply List.filter_congr
      intro r hr
      rw [Bool.eq_iff_iff, hstands.past_iff]
      simp only [Bool.and_eq_true, decide_eq_true_eq]
      constructor
      · intro hlt
        exact ⟨hlt, past_mono (mem_matching.1 hp).2 hlt.le⟩
      · exact And.left
    rw [hfilter, h.split, filter_past h.sorted hlast]

/-- Beyond the cursor, in terms of the listing. -/
theorem Cut.beyond_iff (h : f.Cut c pre suf) (he : e ∈ suf) :
    f.Beyond c e ↔ f.Follows pre.getLast? e := by
  cases hlast : pre.getLast? with
  | none =>
    have hpast : f.past (.keyset f.initial none) e = true := by
      have hmem : e ∈ f.asked := by
        rw [h.split]
        exact List.mem_append_right _ he
      exact (mem_matching.1 hmem).2
    rw [h.start hlast]
    constructor
    · rintro - p ⟨⟩
    rintro - v hv
    have hle : f.instant v ≤ f.instant e.stamp := by
      obtain hv : f.initial = some v := hv
      simpa [KeysetApi.past, keysetValue, keysetTie, hv] using hpast
    rcases hle.lt_or_eq with hlt | heq
    · exact Or.inl hlt
    · refine Or.inr ⟨heq, ?_⟩
      rintro tie ⟨⟩
  | some p =>
    obtain ⟨v, rfl, hv⟩ := h.stands p hlast
    simp [Beyond, Follows, keysetValue, keysetTie, hv]

/-- A page moves the cut up to an item of its own, or leaves it. -/
theorem Cut.lands (h : f.Cut c pre suf) (hl : f.Lands t (f.page c) c c') :
    (c' = c ∧ ∀ e ∈ suf.take f.limit, f.Admitted t e → ¬f.Follows pre.getLast? e) ∨
      ∃ mid rest q, suf = mid ++ [q] ++ rest ∧ (mid ++ [q]).length ≤ f.limit ∧
        f.Newest t (suf.take f.limit) q ∧ f.Follows pre.getLast? q ∧
        f.Cut c' (pre ++ (mid ++ [q])) rest := by
  have hpage : f.page c = suf.take f.limit := by rw [KeysetApi.page, h.matching]
  rw [hpage] at hl
  cases hl with
  | stays none =>
    refine Or.inl ⟨rfl, fun e he ha => ?_⟩
    rw [← h.beyond_iff (List.mem_of_mem_take he)]
    exact none e he ha
  | moves q top beyond stands =>
    obtain ⟨mid, tail, hsplit⟩ := List.append_of_mem top.mem
    have hsuf : suf = mid ++ [q] ++ (tail ++ suf.drop f.limit) := by
      have hwhole := List.take_append_drop f.limit suf
      rw [hsplit] at hwhole
      simpa using hwhole.symm
    have hlength : (mid ++ [q]).length ≤ f.limit := by
      have hle := List.length_take_le f.limit suf
      rw [hsplit] at hle
      simp only [List.length_append, List.length_cons, List.length_nil] at hle ⊢
      omega
    refine Or.inr ⟨mid, _, q, hsuf, hlength, top, ?_, ?_, ?_, ?_⟩
    · exact (h.beyond_iff (List.mem_of_mem_take top.mem)).1 beyond
    · rw [h.split]
      conv_lhs => rw [hsuf]
      simp
    · simp
    · intro p hp
      simp only [List.getLast?_append, List.getLast?_singleton, Option.some_or, Option.mem_def,
        Option.some.injEq] at hp
      exact hp ▸ stands

end

/-! ## The walk over the listing -/

/-- A walk at a cut: what is behind has been fetched, and nothing that was not asked for. -/
structure Stage (f : Feed ids) (w : Walk K) (pre suf : List (Entry K)) : Prop where
  cut : f.Cut w.cursor pre suf
  behind : ∀ r ∈ pre, r ∈ w.fetched
  within : ∀ r ∈ w.fetched, r ∈ f.asked
  whole : w.done = true → ∀ r ∈ f.asked, r ∈ w.fetched

section

variable {f : Feed ids} {n : Nat} {w : Walk K} {e p q r : Entry K} {pre suf : List (Entry K)}

theorem stage_start (f : Feed ids) :
    f.Stage ⟨(timestampStrategy f.config).initial, false, []⟩ [] f.asked where
  cut := ⟨rfl, fun _ => rfl, fun _ => nofun⟩
  behind _ := nofun
  within _ := nofun
  whole := nofun

theorem Cut.keyset {c : CursorVal} (h : f.Cut c pre suf) : ∃ value tie, c = .keyset value tie := by
  cases hlast : pre.getLast? with
  | none => exact ⟨_, _, h.start hlast⟩
  | some p =>
    obtain ⟨v, hv, -⟩ := h.stands p hlast
    exact ⟨_, _, hv⟩

theorem walk_done (hw : f.walk n = .ok w) (hd : w.done = true) : f.walk (n + 1) = .ok w := by
  rw [walk, hw]
  simp [bind, Except.bind, hd, pure, Except.pure]

/-- One more page: the walk ends when it was the last, and moves along the listing as `Cut.lands`
says. -/
theorem Stage.step (h : f.Stage w pre suf) (hw : f.walk n = .ok w) (hd : w.done = false) :
    ∃ w', f.walk (n + 1) = .ok w' ∧ w'.done = decide (suf.length ≤ f.limit) ∧
      ((f.Stage w' pre suf ∧
          ∀ e ∈ suf.take f.limit, f.Admitted (f.now n) e → ¬f.Follows pre.getLast? e) ∨
        ∃ mid rest q, suf = mid ++ [q] ++ rest ∧ (mid ++ [q]).length ≤ f.limit ∧
          f.Newest (f.now n) (suf.take f.limit) q ∧ f.Follows pre.getLast? q ∧
          f.Stage w' (pre ++ (mid ++ [q])) rest) := by
  obtain ⟨value, tie, hc⟩ := h.cut.keyset
  obtain ⟨w', hreq, hdone, hfetched, hlands⟩ := request_spec f w.cursor (f.now n) hc
  have hpage : f.page w.cursor = suf.take f.limit := by rw [KeysetApi.page, h.cut.matching]
  have hsub : ∀ r ∈ suf, r ∈ f.asked := by
    intro r hr
    rw [h.cut.split]
    exact List.mem_append_right _ hr
  have hdone' : w'.done = decide (suf.length ≤ f.limit) := by
    rw [hdone, KeysetApi.hasMore, h.cut.matching, Bool.eq_iff_iff]
    simp
  have hwithin : ∀ r ∈ w'.fetched, r ∈ f.asked := by
    intro r hr
    rw [hfetched, List.mem_append, hpage] at hr
    rcases hr with hr | hr
    · exact h.within r hr
    · exact hsub r (List.mem_of_mem_take hr)
  have hwhole : w'.done = true → ∀ r ∈ f.asked, r ∈ w'.fetched := by
    intro hend r hr
    have hle : suf.length ≤ f.limit := by simpa [hdone'] using hend
    rw [h.cut.split, List.mem_append] at hr
    rw [hfetched, List.mem_append, hpage, List.take_of_length_le hle]
    exact hr.imp (h.behind r) id
  refine ⟨w', ?_, hdone', ?_⟩
  · rw [walk, hw]
    simpa [bind, Except.bind, hd] using hreq
  · rcases h.cut.lands hlands with ⟨heq, hnone⟩ | ⟨mid, rest, q, hsuf, hlen, top, hfollows, hcut⟩
    · refine Or.inl ⟨⟨heq ▸ h.cut, ?_, hwithin, hwhole⟩, hnone⟩
      intro r hr
      rw [hfetched]
      exact List.mem_append_left _ (h.behind r hr)
    · refine Or.inr ⟨mid, rest, q, hsuf, hlen, top, hfollows, hcut, ?_, hwithin, hwhole⟩
      intro r hr
      rw [hfetched, List.mem_append, hpage]
      rcases List.mem_append.1 hr with hr | hr
      · exact Or.inl (h.behind r hr)
      · right
        rw [hsuf, List.take_append]
        exact List.mem_append_left _ (by rwa [List.take_of_length_le hlen])

/-- Every walk is at some cut. -/
theorem walk_stage (f : Feed ids) (n : Nat) : ∃ w pre suf, f.walk n = .ok w ∧ f.Stage w pre suf := by
  induction n with
  | zero => exact ⟨_, _, _, rfl, stage_start f⟩
  | succ n ih =>
    obtain ⟨w, pre, suf, hw, h⟩ := ih
    cases hd : w.done with
    | true => exact ⟨w, pre, suf, walk_done hw hd, h⟩
    | false =>
      obtain ⟨w', hw', -, ⟨h', -⟩ | ⟨mid, rest, q, -, -, -, -, h'⟩⟩ := h.step hw hd
      · exact ⟨w', _, _, hw', h'⟩
      · exact ⟨w', _, _, hw', h'⟩

/-- An unblocked walk comes to its end: induction on what is ahead of the cut. -/
theorem Stage.ends (hu : f.Unblocked) (h : f.Stage w pre suf) (hw : f.walk n = .ok w)
    (hd : w.done = false) :
    ∃ n' w', f.walk n' = .ok w' ∧ w'.done = true ∧ ∀ r ∈ f.asked, r ∈ w'.fetched := by
  induction hk : suf.length using Nat.strong_induction_on generalizing n w pre suf with
  | _ k ih =>
    subst hk
    by_cases hle : suf.length ≤ f.limit
    · -- the next page is the last
      obtain ⟨w', hw', hdone, hstage⟩ := h.step hw hd
      have hend : w'.done = true := by simpa [hdone] using hle
      refine ⟨n + 1, w', hw', hend, ?_⟩
      rcases hstage with ⟨h', -⟩ | ⟨mid, rest, q, -, -, -, -, h'⟩
      · exact h'.whole hend
      · exact h'.whole hend
    · obtain ⟨e, he, ⟨m, hm⟩, hfollows⟩ := hu pre suf h.cut.split (by omega)
      have hahead : ∀ {mid rest : List (Entry K)} {q : Entry K}, suf = mid ++ [q] ++ rest →
          rest.length < suf.length := by
        rintro mid rest q rfl
        simp
        omega
      -- the cut moves at the latest when `e` is let through
      have hwait : ∀ (j n : Nat) (w : Walk K), m ≤ n + j → f.Stage w pre suf →
          f.walk n = .ok w → w.done = false →
          ∃ n' w', f.walk n' = .ok w' ∧ w'.done = true ∧ ∀ r ∈ f.asked, r ∈ w'.fetched := by
        intro j
        induction j with
        | zero =>
          intro n w hmn h hw hd
          obtain ⟨w', hw', hdone, ⟨-, hnone⟩ | ⟨mid, rest, q, hsuf, -, -, -, h'⟩⟩ := h.step hw hd
          · exact absurd hfollows (hnone e he (hm.mono (now_mono f (by omega))))
          · exact ih rest.length (hahead hsuf) h' hw' (by simpa [hdone] using hle) rfl
        | succ j ihj =>
          intro n w hmn h hw hd
          obtain ⟨w', hw', hdone, ⟨h', -⟩ | ⟨mid, rest, q, hsuf, -, -, -, h'⟩⟩ := h.step hw hd
          · exact ihj (n + 1) w' (by omega) h' hw' (by simpa [hdone] using hle)
          · exact ih rest.length (hahead hsuf) h' hw' (by simpa [hdone] using hle) rfl
      exact hwait m n w (by omega) h hw hd

/-- A walk does not get past a blocked cut: the last item behind it would have been outrun by
the item the page ends at. -/
theorem Stage.held {pre₀ suf₀ : List (Entry K)} (hsplit : f.asked = pre₀ ++ suf₀)
    (hlong : f.limit < suf₀.length)
    (hblocked : ∀ e ∈ suf₀.take f.limit, f.Arrives e → ¬f.Follows pre₀.getLast? e) (n : Nat) :
    ∃ w pre suf, f.walk n = .ok w ∧ w.done = false ∧ f.Stage w pre suf ∧
      pre.length ≤ pre₀.length := by
  induction n with
  | zero => exact ⟨_, _, _, rfl, rfl, stage_start f, Nat.zero_le _⟩
  | succ n ih =>
    obtain ⟨w, pre, suf, hw, hd, h, hle⟩ := ih
    have heq : pre ++ suf = pre₀ ++ suf₀ := h.cut.split.symm.trans hsplit
    have hlength := congrArg List.length heq
    simp only [List.length_append] at hlength
    obtain ⟨w', hw', hdone, hstage⟩ := h.step hw hd
    have hd' : w'.done = false := by
      rw [hdone, decide_eq_false_iff_not]
      omega
    rcases hstage with ⟨h', -⟩ | ⟨mid, rest, q, hsuf, hlen, top, hfollows, h'⟩
    · exact ⟨w', pre, suf, hw', hd', h', hle⟩
    · refine ⟨w', _, _, hw', hd', h', ?_⟩
      by_contra hpast
      -- `between` lies between the two cuts, and the page reaches past the blocked one
      obtain ⟨between, rfl⟩ : ∃ between, pre₀ = pre ++ between :=
        (List.prefix_of_prefix_length_le (List.prefix_append pre suf)
          (heq ▸ List.prefix_append pre₀ suf₀) hle).imp fun _ h => h.symm
      have hsuf₀ : suf = between ++ suf₀ := by
        rw [List.append_assoc] at heq
        exact List.append_cancel_left heq
      obtain ⟨mid', rfl⟩ : ∃ mid', mid = between ++ mid' := by
        have hprefix : between <+: mid ++ ([q] ++ rest) := by
          rw [← List.append_assoc, ← hsuf, hsuf₀]
          exact List.prefix_append _ _
        refine (List.prefix_of_prefix_length_le hprefix (List.prefix_append mid _) ?_).imp
          fun _ h => h.symm
        simp only [List.length_append, List.length_singleton] at hpast
        omega
      have hq : q ∈ suf₀.take f.limit := by
        have hsuf₁ : suf₀ = (mid' ++ [q]) ++ rest := by
          rw [hsuf₀] at hsuf
          simpa using hsuf
        have hfew : (mid' ++ [q]).length ≤ f.limit := by
          simp only [List.length_append] at hlen ⊢
          omega
        rw [hsuf₁, List.take_append, List.take_of_length_le hfew]
        simp
      refine hblocked q hq ⟨n, top.admitted⟩ ?_
      cases hbetween : between.getLast? with
      | none =>
        obtain rfl := List.getLast?_eq_none_iff.1 hbetween
        rwa [List.append_nil]
      | some p =>
        have hp : p ∈ between := List.mem_of_mem_getLast? hbetween
        have hlast : (pre ++ between).getLast? = some p := by
          rw [List.getLast?_append, hbetween]
          rfl
        rw [hlast]
        rintro p' ⟨⟩
        have hrank : f.rank p < f.rank q := by
          have hsorted := h.cut.sorted
          rw [hsuf₀, ← List.append_assoc] at hsorted
          exact (List.pairwise_append.1 hsorted).2.2 p (List.mem_append_right _ hp) q
            (List.mem_of_mem_take hq)
        have hpage : p ∈ suf.take f.limit := by
          rw [hsuf, List.take_append, List.take_of_length_le hlen]
          simp [hp]
        have hadmitted : f.Admitted (f.now n) p :=
          (instant_le_of_rank hrank.le).trans top.admitted
        rcases top.top p hpage hadmitted with hlt | ⟨hsame, hleText⟩
        · exact Or.inl hlt
        · refine Or.inr ⟨hsame, ?_⟩
          by_contra hge
          have htext := stringLe_antisymm hleText (Bool.eq_true_of_not_eq_false hge)
          have hid := ids.text_injective htext
          rcases rank_lt_iff.1 hrank with hlt | ⟨-, hlt⟩
          · exact absurd hsame hlt.ne
          · exact absurd hid hlt.ne

/-- A walk that visits every item is blocked nowhere. -/
theorem VisitsAll.unblocked (h : f.VisitsAll) : f.Unblocked := by
  obtain ⟨n, w, hw, hd, -⟩ := h
  intro pre suf hsplit hlong
  by_contra hnone
  push Not at hnone
  obtain ⟨w', pre', suf', hw', hd', -, -⟩ := Stage.held hsplit hlong hnone n
  obtain rfl : w = w' := by
    rw [hw] at hw'
    exact Except.ok.inj hw'
  rw [hd] at hd'
  cases hd'

/-- A keyset walk ends with every item of the server fetched exactly when the initial cursor asks
for all of them and no cut of the listing blocks it. -/
theorem walk_visits_iff (f : Feed ids) :
    f.VisitsAll ↔
      (∀ r ∈ f.items, f.past (.keyset f.initial none) r = true) ∧ f.Unblocked := by
  constructor
  · intro h
    refine ⟨?_, h.unblocked⟩
    obtain ⟨n, w, hw, -, hall⟩ := h
    obtain ⟨w', pre, suf, hw', hstage⟩ := walk_stage f n
    obtain rfl : w = w' := by
      rw [hw] at hw'
      exact Except.ok.inj hw'
    intro r hr
    exact (mem_matching.1 (hstage.within r (hall r hr))).2
  · rintro ⟨hall, hu⟩
    obtain ⟨n, w, hw, hd, hfetched⟩ := (stage_start f).ends hu (n := 0) rfl rfl
    exact ⟨n, w, hw, hd, fun r hr => hfetched r (mem_matching.2 ⟨hr, hall r hr⟩)⟩

/-- Where the texts of the ids have the order of the ids, items only have to arrive. -/
theorem unblocked_of_ordered (hids : ∀ a b, stringLe (ids.text a) (ids.text b) = true → a ≤ b)
    (harrive : ∀ e ∈ f.asked, f.Arrives e) : f.Unblocked := by
  intro pre suf hsplit hlong
  obtain ⟨k, hk⟩ : ∃ k, f.limit = k + 1 := ⟨f.limit - 1, by have := f.limit_pos; omega⟩
  cases suf with
  | nil => simp at hlong
  | cons e suf =>
    refine ⟨e, by simp [hk], harrive e (by rw [hsplit]; simp), ?_⟩
    intro p hp
    have hsorted := matching_sorted f (timestampStrategy f.config).initial
    rw [show f.matching _ = pre ++ e :: suf from hsplit] at hsorted
    have hrank := (List.pairwise_append.1 hsorted).2.2 p (List.mem_of_mem_getLast? hp) e (by simp)
    rcases rank_lt_iff.1 hrank with hlt | ⟨heq, hlt⟩
    · exact Or.inl hlt
    · refine Or.inr ⟨heq, ?_⟩
      by_contra hge
      exact absurd (hids _ _ (Bool.eq_true_of_not_eq_false hge)) hlt.not_ge

end

/-! ## Ids that are numbers -/

/-- A timestamp of epoch milliseconds. -/
def epochInstant (s : String) : Rat := readInt s

/-- Milliseconds, floored. -/
def epochFormat (ms : Rat) (_sample : Option String) : String := (⌊ms⌋).repr

theorem epochFormat_le (ms : Rat) (sample : Option String) :
    epochInstant (epochFormat ms sample) ≤ ms := by
  rw [epochInstant, epochFormat, readInt_repr]
  exact Int.floor_le ms

/-- Three items with one timestamp, one on a page. -/
def numberedFeed : Feed numberIds where
  instant := epochInstant
  items := [⟨9, "1767225600000"⟩, ⟨10, "1767225600000"⟩, ⟨11, "1767225600000"⟩]
  sorted := by simp [Prod.Lex.lt_iff]
  limit := 1
  limit_pos := Nat.one_pos
  field := "updatedAt"
  initial := none
  lagMs := 0
  overlapMs := 0
  format := epochFormat
  format_le := epochFormat_le
  start := 1767225600000
  elapsed _ := 0

/-- The cursor stays at `9`: as a text it is above `10`, and the page after it is asked for again and
again. -/
theorem numbered_ids_stall :
    (∀ r ∈ numberedFeed.items, numberedFeed.past (.keyset numberedFeed.initial none) r = true) ∧
      ¬numberedFeed.VisitsAll := by
  refine ⟨fun _ _ => rfl, fun h => ?_⟩
  obtain ⟨e, he, -, hfollows⟩ := h.unblocked [⟨9, "1767225600000"⟩]
    [⟨10, "1767225600000"⟩, ⟨11, "1767225600000"⟩] rfl (by decide)
  obtain rfl : e = ⟨10, "1767225600000"⟩ := by simpa [numberedFeed] using he
  rcases hfollows ⟨9, "1767225600000"⟩ rfl with hlt | ⟨-, htext⟩
  · exact lt_irrefl _ hlt
  · revert htext
    decide

end Feed

end Watukuy
