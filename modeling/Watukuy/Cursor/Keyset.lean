import Watukuy.Cursor.Strategies
import Watukuy.Library.Sorting
import Mathlib.Data.List.Induction
import Mathlib.Data.Prod.Lex
import Mathlib.Tactic.Linarith

/-!
# A keyset API under the timestamp strategy

The server of `docs/cursors.md`: items sorted by `(timestamp, id)`, answered in pages past the
cursor `(value, tieBreak)`. The server compares ids in their own order; `timestampAdvance` compares
the texts it sees. `request_spec` says where one request leaves the cursor: at the newest item of
the page that `lag` lets through, if that item is beyond the cursor in the strategy's order.
-/

set_option autoImplicit false

namespace Watukuy

open Library

/-! ## The server -/

/-- A kind of ids: the text of an id in a cursor, and how the server reads it back. -/
structure IdKind (K : Type) where
  text : K → String
  read : String → Option K
  read_text : ∀ k, read (text k) = some k

/-- Strings, in the order of their code units. -/
def stringIds : IdKind UnitText where
  text k := k.text
  read s := some ⟨s⟩
  read_text _ := rfl

/-- Numbers, in the order of numbers. -/
def numberIds : IdKind Int where
  text := Int.repr
  read s := some (readInt s)
  read_text k := congrArg some (readInt_repr k)

theorem IdKind.text_injective {K : Type} (ids : IdKind K) : Function.Injective ids.text := by
  intro a b h
  have hread : some a = some b := by rw [← ids.read_text a, ← ids.read_text b, h]
  exact Option.some.inj hread

/-- An item of the listing: its id and the text of its timestamp. -/
structure Entry (K : Type) where
  id : K
  stamp : String
  deriving DecidableEq

variable {K : Type} [LinearOrder K] {ids : IdKind K}

/-- A keyset API over a static set of items. `instant` reads a timestamp. -/
structure KeysetApi (ids : IdKind K) where
  instant : String → Rat
  items : List (Entry K)
  sorted : items.Pairwise fun a b =>
    toLex (instant a.stamp, a.id) < toLex (instant b.stamp, b.id)
  limit : Nat
  limit_pos : 0 < limit

namespace KeysetApi

variable (api : KeysetApi ids)

/-- The place of an item in the listing. -/
def rank (e : Entry K) : Rat ×ₗ K := toLex (api.instant e.stamp, e.id)

/-- Does the item lie past the cursor? -/
def past (cursor : CursorVal) (e : Entry K) : Bool :=
  match keysetValue cursor, keysetTie cursor with
  | none, _ => true
  | some value, none => decide (api.instant value ≤ api.instant e.stamp)
  | some value, some tie =>
    decide (api.instant value < api.instant e.stamp) ||
      (decide (api.instant value = api.instant e.stamp) &&
        (ids.read tie).any fun k => decide (k < e.id))

def matching (cursor : CursorVal) : List (Entry K) := api.items.filter (api.past cursor)

def page (cursor : CursorVal) : List (Entry K) := (api.matching cursor).take api.limit

def hasMore (cursor : CursorVal) : Bool := decide (api.limit < (api.matching cursor).length)

end KeysetApi

/-! ## The poller -/

/-- A poller of the API with `cursor.tieBreak` set, and the clock it reads: the start, and the time
that passes from one page to the next. A formatted instant is floored, never later. -/
structure Feed (ids : IdKind K) extends KeysetApi ids where
  field : String
  initial : Option String
  lagMs : Int
  overlapMs : Int
  format : Rat → Option String → String
  format_le : ∀ ms sample, instant (format ms sample) ≤ ms
  start : Int
  elapsed : Nat → Nat

/-- Where a walk stands between two requests. -/
structure Walk (K : Type) where
  cursor : CursorVal
  done : Bool
  fetched : List (Entry K)
  deriving DecidableEq

namespace Feed

variable (f : Feed ids)

def config : TimestampCursorConfig (Entry K) where
  field := f.field
  fieldString e := some e.stamp
  tieOf := some fun e => some (ids.text e.id)
  initial := f.initial
  lagMs := f.lagMs
  overlapMs := f.overlapMs
  parse s := .ok (some (f.instant s))
  format := f.format

/-- The clock when page `n` arrives. -/
def now (f : Feed ids) : Nat → Int
  | 0 => f.start
  | n + 1 => now f n + f.elapsed n

/-- One turn of the loop: the page asked for with `asked`, then `advance`. -/
def request (asked : CursorVal) (now : Int) (w : Walk K) : Except JsError (Walk K) := do
  let adv ← (timestampStrategy f.config).advance w.cursor
    { items := f.page asked, pageCursor := none, hasMore := some (f.hasMore asked), now }
  return { cursor := adv.cursor, done := adv.done, fetched := w.fetched ++ f.page asked }

/-! ## The newest item of a page -/

/-- `lag` lets the item through. -/
def Admitted (now : Int) (e : Entry K) : Prop := f.instant e.stamp ≤ (now : Rat) - (f.lagMs : Rat)

/-- The admitted item of the page with the largest timestamp, and the largest id text there. -/
structure Newest (now : Int) (page : List (Entry K)) (q : Entry K) : Prop where
  mem : q ∈ page
  admitted : f.Admitted now q
  top : ∀ e ∈ page, f.Admitted now e → f.instant e.stamp < f.instant q.stamp ∨
    f.instant e.stamp = f.instant q.stamp ∧ stringLe (ids.text e.id) (ids.text q.id) = true

/-- The strategy's order: is the item beyond the cursor? -/
def Beyond (cursor : CursorVal) (e : Entry K) : Prop :=
  ∀ value ∈ keysetValue cursor, f.instant value < f.instant e.stamp ∨
    f.instant value = f.instant e.stamp ∧
      ∀ tie ∈ keysetTie cursor, stringLe (ids.text e.id) tie = false

/-- The cursor stands at the item. -/
def Stands (cursor : CursorVal) (e : Entry K) : Prop :=
  ∃ value, cursor = .keyset (some value) (some (ids.text e.id)) ∧
    f.instant value = f.instant e.stamp

/-! ## The loop over a page -/

section

variable {f} {t : Int} {e q : Entry K} {w : Watermark (Entry K)} {seen page : List (Entry K)}

/-- The variables of the loop after the items `seen`. -/
inductive Scanned (f : Feed ids) (t : Int) (seen : List (Entry K)) (w : Watermark (Entry K)) :
    Prop where
  | fresh (raw : w.maxRaw = none) (ms : w.maxMs = none) (none : ∀ e ∈ seen, ¬f.Admitted t e)
  | newest (q : Entry K) (raw : String) (top : f.Newest t seen q) (held : w.maxRaw = some raw)
      (same : f.instant raw = f.instant q.stamp) (ms : w.maxMs = some (f.instant q.stamp))
      (tie : w.maxTie = some (ids.text q.id))

/-- An item that `lag` holds back changes nothing. -/
theorem watermarkStep_held (h : ¬f.Admitted t e) :
    watermarkStep f.config (t - f.lagMs) w e = w := by
  have hlt : (t : Rat) - f.lagMs < f.instant e.stamp := not_le.1 h
  simp [watermarkStep, config, tryParseTimestamp, hlt]

/-- An admitted item above the maximum takes its place. -/
theorem watermarkStep_above (h : f.Admitted t e) (hms : ∀ m ∈ w.maxMs, m < f.instant e.stamp) :
    watermarkStep f.config (t - f.lagMs) w e =
      { kept := w.kept ++ [e], maxRaw := some e.stamp, maxMs := some (f.instant e.stamp),
        maxTie := some (ids.text e.id) } := by
  have hle : ¬(t : Rat) - f.lagMs < f.instant e.stamp := not_lt.2 h
  cases hm : w.maxMs with
  | none => simp [watermarkStep, config, tryParseTimestamp, hle, hm]
  | some m =>
    have hlt := hms m hm
    simp [watermarkStep, config, tryParseTimestamp, hle, hm, hlt]

/-- An admitted item at the maximum has its id compared. -/
theorem watermarkStep_level (h : f.Admitted t e) (hms : w.maxMs = some (f.instant e.stamp)) :
    watermarkStep f.config (t - f.lagMs) w e =
      { w with kept := w.kept ++ [e], maxTie := maxString w.maxTie (some (ids.text e.id)) } := by
  have hle : ¬(t : Rat) - f.lagMs < f.instant e.stamp := not_lt.2 h
  simp [watermarkStep, config, tryParseTimestamp, hle, hms]

/-- An admitted item below the maximum is only kept. -/
theorem watermarkStep_below {m : Rat} (h : f.Admitted t e) (hms : w.maxMs = some m)
    (hlt : f.instant e.stamp < m) :
    watermarkStep f.config (t - f.lagMs) w e = { w with kept := w.kept ++ [e] } := by
  have hle : ¬(t : Rat) - f.lagMs < f.instant e.stamp := not_lt.2 h
  have hne : m ≠ f.instant e.stamp := hlt.ne'
  simp [watermarkStep, config, tryParseTimestamp, hle, hms, hlt.not_gt, hne]

/-- One item of the loop. -/
theorem Scanned.step (h : f.Scanned t seen w) (e : Entry K) :
    f.Scanned t (seen ++ [e]) (watermarkStep f.config (t - f.lagMs) w e) := by
  have hmem : ∀ {e' : Entry K}, e' ∈ seen ++ [e] → e' ∈ seen ∨ e' = e := by simp
  by_cases ha : f.Admitted t e
  · cases h with
    | fresh raw ms none =>
      -- the first admitted item
      rw [watermarkStep_above ha (by simp [ms])]
      refine .newest e e.stamp ⟨by simp, ha, ?_⟩ rfl rfl rfl rfl
      intro e' he' ha'
      rcases hmem he' with he' | rfl
      · exact absurd ha' (none e' he')
      · exact Or.inr ⟨rfl, stringLe_refl _⟩
    | newest q raw top held same ms tie =>
      rcases lt_trichotomy (f.instant q.stamp) (f.instant e.stamp) with hlt | heq | hlt
      · rw [watermarkStep_above ha (by simp [ms, hlt])]
        refine .newest e e.stamp ⟨by simp, ha, ?_⟩ rfl rfl rfl rfl
        intro e' he' ha'
        rcases hmem he' with he' | rfl
        · rcases top.top e' he' ha' with h' | ⟨h', -⟩
          · exact Or.inl (h'.trans hlt)
          · exact Or.inl (h' ▸ hlt)
        · exact Or.inr ⟨rfl, stringLe_refl _⟩
      · rw [watermarkStep_level ha (by rw [ms, heq]), tie]
        by_cases hle : stringLe (ids.text e.id) (ids.text q.id) = true
        · refine .newest q raw ⟨by simp [top.mem], top.admitted, ?_⟩ held same ms ?_
          · intro e' he' ha'
            rcases hmem he' with he' | rfl
            · exact top.top e' he' ha'
            · exact Or.inr ⟨heq.symm, hle⟩
          · simp [maxString, hle]
        · have hge := (stringLe_total (ids.text e.id) (ids.text q.id)).resolve_left hle
          refine .newest e raw ⟨by simp, ha, ?_⟩ held (same.trans heq) (by rw [← heq]; exact ms) ?_
          · intro e' he' ha'
            rcases hmem he' with he' | rfl
            · rcases top.top e' he' ha' with h' | ⟨h', htext⟩
              · exact Or.inl (heq ▸ h')
              · exact Or.inr ⟨h'.trans heq, stringLe_trans htext hge⟩
            · exact Or.inr ⟨rfl, stringLe_refl _⟩
          · simp [maxString, hle]
      · rw [watermarkStep_below ha ms hlt]
        refine .newest q raw ⟨by simp [top.mem], top.admitted, ?_⟩ held same ms tie
        intro e' he' ha'
        rcases hmem he' with he' | rfl
        · exact top.top e' he' ha'
        · exact Or.inl hlt
  · rw [watermarkStep_held ha]
    cases h with
    | fresh raw ms none =>
      refine .fresh raw ms ?_
      intro e' he'
      rcases hmem he' with he' | rfl
      · exact none e' he'
      · exact ha
    | newest q raw top held same ms tie =>
      refine .newest q raw ⟨by simp [top.mem], top.admitted, ?_⟩ held same ms tie
      intro e' he' ha'
      rcases hmem he' with he' | rfl
      · exact top.top e' he' ha'
      · exact absurd ha' ha

/-- The loop over a page. -/
theorem scanned_foldl (f : Feed ids) (t : Int) (page : List (Entry K)) :
    f.Scanned t page (page.foldl (watermarkStep f.config (t - f.lagMs)) {}) := by
  induction page using List.reverseRecOn with
  | nil => exact .fresh rfl rfl (by simp)
  | append_singleton page e ih =>
    rw [List.foldl_append]
    exact ih.step e

end

/-! ## One request -/

section

variable {f} {t : Int} {e q : Entry K} {cursor next : CursorVal} {page : List (Entry K)}
  {value tie : Option String}

/-- What is below the newest item is beyond the cursor only if that item is. -/
theorem Newest.beyond (h : f.Newest t page q) (he : e ∈ page) (ha : f.Admitted t e)
    (hb : f.Beyond cursor e) : f.Beyond cursor q := by
  intro v hv
  rcases h.top e he ha with hlt | ⟨heq, htext⟩
  · rcases hb v hv with h' | ⟨h', -⟩
    · exact Or.inl (h'.trans hlt)
    · exact Or.inl (h' ▸ hlt)
  · rcases hb v hv with h' | ⟨h', htie⟩
    · exact Or.inl (heq ▸ h')
    · refine Or.inr ⟨h'.trans heq, ?_⟩
      intro tie ht
      by_contra hle
      have hle' := stringLe_trans htext (Bool.eq_true_of_not_eq_false hle)
      rw [htie tie ht] at hle'
      cases hle'

/-- Where a page takes the cursor. -/
inductive Lands (f : Feed ids) (t : Int) (page : List (Entry K)) (cursor : CursorVal) :
    CursorVal → Prop where
  | stays (none : ∀ e ∈ page, f.Admitted t e → ¬f.Beyond cursor e) : Lands f t page cursor cursor
  | moves {next : CursorVal} (q : Entry K) (top : f.Newest t page q) (beyond : f.Beyond cursor q)
      (stands : f.Stands next q) : Lands f t page cursor next

theorem parseTimestamp_config (f : Feed ids) (raw : String) :
    parseTimestamp f.config raw = .ok (f.instant raw) := rfl

/-- What `advance` makes of the watermark of a page. -/
theorem advance_eq (f : Feed ids) {t : Int} {page : List (Entry K)} {w : Watermark (Entry K)}
    (more : Bool) (value tie : Option String)
    (hw : page.foldl (watermarkStep f.config (t - f.lagMs)) {} = w) :
    (timestampStrategy f.config).advance (.keyset value tie)
        { items := page, pageCursor := none, hasMore := some more, now := t } =
      match w.maxRaw, w.maxMs with
      | some maxRaw, some maxMs =>
        match value.map f.instant with
        | none => .ok ⟨.keyset (some maxRaw) w.maxTie, !more, w.kept⟩
        | some current =>
          if current < maxMs then .ok ⟨.keyset (some maxRaw) w.maxTie, !more, w.kept⟩
          else if maxMs = current then
            .ok ⟨.keyset value (maxString tie w.maxTie), !more, w.kept⟩
          else .ok ⟨.keyset value tie, !more, w.kept⟩
      | _, _ => .ok ⟨.keyset value tie, !more, w.kept⟩ := by
  have hdone : (some more != some true) = !more := by cases more <;> rfl
  simp only [timestampStrategy, timestampAdvance]
  rw [show page.foldl (watermarkStep f.config ((t : Rat) - (f.config.lagMs : Rat))) {} = w from hw]
  rw [hdone]
  cases w.maxRaw with
  | none => rfl
  | some maxRaw =>
    cases w.maxMs with
    | none => rfl
    | some maxMs =>
      cases value with
      | none => rfl
      | some v =>
        simp only [keysetValue, keysetTie, Option.mapM_some, Option.map_some]
        rw [parseTimestamp_config]
        simp [config, bind, Except.bind, pure, Except.pure]

/-- `advance` at a page without a cursor of its own. -/
theorem advance_lands (f : Feed ids) (t : Int) (page : List (Entry K)) (more : Bool)
    (value tie : Option String) :
    ∃ adv, (timestampStrategy f.config).advance (.keyset value tie)
        { items := page, pageCursor := none, hasMore := some more, now := t } = .ok adv ∧
      adv.done = !more ∧ f.Lands t page (.keyset value tie) adv.cursor := by
  have hscan := scanned_foldl f t page
  generalize hw : page.foldl (watermarkStep f.config (t - f.lagMs)) {} = w at hscan
  rw [advance_eq f more value tie hw]
  cases hscan with
  | fresh raw ms none =>
    rw [raw]
    exact ⟨_, rfl, rfl, .stays fun e he ha => absurd ha (none e he)⟩
  | newest q raw top held same ms tied =>
    rw [held, ms, tied]
    -- the cursor moves to `q`, or no admitted item is beyond it
    have hkeep : ¬f.Beyond (.keyset value tie) q →
        f.Lands t page (.keyset value tie) (.keyset value tie) := fun hnot =>
      .stays fun e he ha hb => hnot (top.beyond he ha hb)
    cases value with
    | none =>
      refine ⟨_, rfl, rfl, .moves q top ?_ ⟨raw, rfl, same⟩⟩
      rintro v ⟨⟩
    | some v =>
      simp only [Option.map_some]
      rcases lt_trichotomy (f.instant v) (f.instant q.stamp) with hlt | heq | hlt
      · rw [if_pos hlt]
        refine ⟨_, rfl, rfl, .moves q top ?_ ⟨raw, rfl, same⟩⟩
        rintro v' ⟨⟩
        exact Or.inl hlt
      · rw [if_neg heq.not_lt, if_pos heq.symm]
        by_cases hle : ∃ s, tie = some s ∧ stringLe (ids.text q.id) s = true
        · obtain ⟨s, rfl, hle⟩ := hle
          have hmax : maxString (some s) (some (ids.text q.id)) = some s := by
            simp [maxString, hle]
          rw [hmax]
          refine ⟨_, rfl, rfl, hkeep ?_⟩
          intro hb
          rcases hb v rfl with hlt | ⟨-, hgt⟩
          · exact absurd heq hlt.ne
          · rw [hgt s rfl] at hle
            cases hle
        · have hmax : maxString tie (some (ids.text q.id)) = some (ids.text q.id) := by
            cases tie with
            | none => rfl
            | some s =>
              have hs : ¬stringLe (ids.text q.id) s = true := fun h => hle ⟨s, rfl, h⟩
              simp [maxString, hs]
          rw [hmax]
          refine ⟨_, rfl, rfl, .moves q top ?_ ⟨v, rfl, heq⟩⟩
          rintro v' ⟨⟩
          refine Or.inr ⟨heq, ?_⟩
          intro s hs
          by_contra hne
          exact hle ⟨s, hs, Bool.eq_true_of_not_eq_false hne⟩
      · rw [if_neg hlt.not_gt, if_neg hlt.ne]
        refine ⟨_, rfl, rfl, hkeep ?_⟩
        intro hb
        rcases hb v rfl with h' | ⟨h', -⟩
        · exact absurd h' hlt.not_gt
        · exact absurd h' hlt.ne'

/-- One request. -/
theorem request_spec (f : Feed ids) (asked : CursorVal) (t : Int) {w : Walk K}
    (hw : w.cursor = .keyset value tie) :
    ∃ w', f.request asked t w = .ok w' ∧ w'.done = !f.hasMore asked ∧
      w'.fetched = w.fetched ++ f.page asked ∧ f.Lands t (f.page asked) w.cursor w'.cursor := by
  obtain ⟨adv, hadv, hdone, hlands⟩ :=
    advance_lands f t (f.page asked) (f.hasMore asked) value tie
  rw [← hw] at hadv hlands
  refine ⟨⟨adv.cursor, adv.done, w.fetched ++ f.page asked⟩, ?_, hdone, rfl, hlands⟩
  unfold request
  rw [hadv]
  rfl

end

end Feed

end Watukuy
