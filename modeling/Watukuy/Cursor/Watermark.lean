import Mathlib.Data.List.Induction
import Mathlib.Tactic.Linarith
import Watukuy.Cursor.Strategies

/-!
# The timestamp watermark never skips

`timestampAdvance` over any page: the loop ends with the newest admitted timestamp and the largest
tie-break there, and the four ways it returns never go back behind what was kept. Over pages in the
order of time the watermark stays at or before the cutoff of `lag`, so what `lag` drops lies
strictly after it.
-/

set_option autoImplicit false

namespace Watukuy

variable {ι : Type}

/-! ## The order of tie-breaks -/

/-- `null` is below every text; texts go by code units. -/
def tieLe : Option String → Option String → Prop
  | none, _ => True
  | some _, none => False
  | some a, some b => stringLe a b = true

theorem tieLe_refl (t : Option String) : tieLe t t := by
  cases t with
  | none => trivial
  | some s => exact stringLe_refl s

theorem tieLe_trans {a b c : Option String} (h : tieLe a b) (h' : tieLe b c) : tieLe a c := by
  cases a with
  | none => trivial
  | some a =>
    cases b with
    | none => exact h.elim
    | some b =>
      cases c with
      | none => exact h'.elim
      | some c => exact stringLe_trans h h'

theorem le_maxString_left (a b : Option String) : tieLe a (maxString a b) := by
  cases a with
  | none => trivial
  | some a =>
    cases b with
    | none => exact stringLe_refl a
    | some b =>
      simp only [maxString]
      split
      · exact stringLe_refl a
      · next h => exact (stringLe_total b a).resolve_left h

theorem le_maxString_right (a b : Option String) : tieLe b (maxString a b) := by
  cases a with
  | none => exact tieLe_refl b
  | some a =>
    cases b with
    | none => trivial
    | some b =>
      simp only [maxString]
      split
      · next h => exact h
      · exact stringLe_refl b

theorem maxString_choice (a b : Option String) : maxString a b = a ∨ maxString a b = b := by
  cases a with
  | none => exact Or.inr rfl
  | some a =>
    cases b with
    | none => exact Or.inl rfl
    | some b =>
      simp only [maxString]
      split
      · exact Or.inl rfl
      · exact Or.inr rfl

/-! ## Items and their timestamps -/

namespace TimestampCursorConfig

variable (cfg : TimestampCursorConfig ι)

/-- The timestamp of an item, when its field is there and can be parsed. -/
def stampOf (item : ι) : Option Rat := (cfg.fieldString item).bind (tryParseTimestamp cfg)

/-- The tie-break of an item, `null` without a tie-break field. -/
def tieOfItem (item : ι) : Option String := cfg.tieOf.bind fun f => f item

/-- The newest timestamp that `lag` lets through. -/
def cutoff (now : Int) : Rat := now - cfg.lagMs

/-- `lag` lets the item through, or it has no timestamp. -/
def admits (cutoff : Rat) (item : ι) : Bool :=
  match cfg.stampOf item with
  | none => true
  | some ms => decide (ms ≤ cutoff)

end TimestampCursorConfig

/-! ## The loop over a page -/

section
variable {cfg : TimestampCursorConfig ι} {cutoff : Rat} {w : Watermark ι} {item : ι}
  {seen : List ι}

/-- An item without a timestamp is kept and changes nothing else. -/
theorem watermarkStep_unstamped (h : cfg.stampOf item = none) :
    watermarkStep cfg cutoff w item = { w with kept := w.kept ++ [item] } := by
  unfold TimestampCursorConfig.stampOf at h
  unfold watermarkStep
  cases hraw : cfg.fieldString item with
  | none => rfl
  | some raw =>
    rw [hraw] at h
    have hparse : tryParseTimestamp cfg raw = none := h
    simp only [hparse]

/-- An item that `lag` holds back is dropped. -/
theorem watermarkStep_fresh {ms : Rat} (h : cfg.stampOf item = some ms) (hlt : cutoff < ms) :
    watermarkStep cfg cutoff w item = w := by
  obtain ⟨raw, hraw, hparse⟩ := Option.bind_eq_some_iff.1 h
  simp only [watermarkStep, hraw, hparse, if_pos hlt]

/-- An admitted item above the maximum takes its place. -/
theorem watermarkStep_newest {ms : Rat} (h : cfg.stampOf item = some ms) (hle : ¬ cutoff < ms)
    (habove : ∀ m ∈ w.maxMs, m < ms) :
    watermarkStep cfg cutoff w item =
      { kept := w.kept ++ [item], maxRaw := cfg.fieldString item, maxMs := some ms,
        maxTie := cfg.tieOfItem item } := by
  obtain ⟨raw, hraw, hparse⟩ := Option.bind_eq_some_iff.1 h
  simp only [watermarkStep, hraw, hparse, if_neg hle]
  cases hm : w.maxMs with
  | none => rfl
  | some m =>
    have hlt := habove m hm
    simp only [hlt, decide_true, if_true]
    rfl

/-- An admitted item at the maximum has its tie-break compared. -/
theorem watermarkStep_tied {ms : Rat} (h : cfg.stampOf item = some ms) (hle : ¬ cutoff < ms)
    (hms : w.maxMs = some ms) :
    watermarkStep cfg cutoff w item =
      { w with kept := w.kept ++ [item], maxTie := maxString w.maxTie (cfg.tieOfItem item) } := by
  obtain ⟨raw, hraw, hparse⟩ := Option.bind_eq_some_iff.1 h
  simp only [watermarkStep, hraw, hparse, if_neg hle, hms, lt_irrefl, decide_false,
    Bool.false_eq_true, if_false, if_true]
  cases htie : cfg.tieOf with
  | none => cases w.maxTie <;> simp [TimestampCursorConfig.tieOfItem, htie, maxString]
  | some f => simp [TimestampCursorConfig.tieOfItem, htie]

/-- An admitted item below the maximum is only kept. -/
theorem watermarkStep_older {ms m : Rat} (h : cfg.stampOf item = some ms) (hle : ¬ cutoff < ms)
    (hms : w.maxMs = some m) (hlt : ms < m) :
    watermarkStep cfg cutoff w item = { w with kept := w.kept ++ [item] } := by
  obtain ⟨raw, hraw, hparse⟩ := Option.bind_eq_some_iff.1 h
  have hne : some m ≠ some ms := fun he => absurd (Option.some.inj he) hlt.ne'
  simp only [watermarkStep, hraw, hparse, if_neg hle, hms, not_lt.2 hlt.le, decide_false,
    Bool.false_eq_true, if_false, if_neg hne]

/-- The newest timestamp of some items, one that has it, and the largest tie-break there. -/
structure NewestStamp (cfg : TimestampCursorConfig ι) (items : List ι)
    (raw tie : Option String) (ms : Rat) : Prop where
  held : ∃ item ∈ items, cfg.fieldString item = raw ∧ cfg.stampOf item = some ms
  top : ∀ item ∈ items, ∀ m ∈ cfg.stampOf item, m ≤ ms
  tied : ∃ item ∈ items, cfg.stampOf item = some ms ∧ cfg.tieOfItem item = tie
  topTie : ∀ item ∈ items, cfg.stampOf item = some ms → tieLe (cfg.tieOfItem item) tie

/-- The variables of the loop after the items `seen`. -/
inductive Covered (cfg : TimestampCursorConfig ι) (cutoff : Rat) (seen : List ι)
    (w : Watermark ι) : Prop where
  | unstamped (kept : w.kept = seen.filter (cfg.admits cutoff)) (raw : w.maxRaw = none)
      (ms : w.maxMs = none) (none : ∀ item ∈ w.kept, cfg.stampOf item = none)
  | stamped (kept : w.kept = seen.filter (cfg.admits cutoff)) (m : Rat) (ms : w.maxMs = some m)
      (newest : NewestStamp cfg w.kept w.maxRaw w.maxTie m)

theorem Covered.kept_eq (h : Covered cfg cutoff seen w) :
    w.kept = seen.filter (cfg.admits cutoff) := by
  cases h with
  | unstamped kept => exact kept
  | stamped kept => exact kept

/-- A first or newer item is the newest of what is kept. -/
theorem newest_of_above {kept : List ι} {ms : Rat} (h : cfg.stampOf item = some ms)
    (habove : ∀ i ∈ kept, ∀ m ∈ cfg.stampOf i, m < ms) :
    NewestStamp cfg (kept ++ [item]) (cfg.fieldString item) (cfg.tieOfItem item) ms := by
  have hmem : item ∈ kept ++ [item] := List.mem_append_right _ (List.mem_singleton_self _)
  refine ⟨⟨item, hmem, rfl, h⟩, ?_, ⟨item, hmem, h, rfl⟩, ?_⟩
  · intro i hi m hm
    rcases List.mem_append.1 hi with hi | hi
    · exact (habove i hi m hm).le
    · rw [List.mem_singleton.1 hi, h] at hm
      exact (Option.some.inj hm).ge
  · intro i hi hms
    rcases List.mem_append.1 hi with hi | hi
    · exact absurd (habove i hi ms hms) (lt_irrefl ms)
    · rw [List.mem_singleton.1 hi]
      exact tieLe_refl _

/-- An item at or below the newest timestamp leaves it the newest. -/
theorem NewestStamp.push {kept : List ι} {raw tie tie' : Option String} {m : Rat}
    (h : NewestStamp cfg kept raw tie m) (hitem : ∀ ms ∈ cfg.stampOf item, ms ≤ m)
    (htie : tieLe tie tie') (hown : cfg.stampOf item = some m → tieLe (cfg.tieOfItem item) tie')
    (hfrom : tie' = tie ∨ cfg.stampOf item = some m ∧ cfg.tieOfItem item = tie') :
    NewestStamp cfg (kept ++ [item]) raw tie' m := by
  obtain ⟨i, hi, hraw, hstamp⟩ := h.held
  refine ⟨⟨i, List.mem_append_left _ hi, hraw, hstamp⟩, ?_, ?_, ?_⟩
  · intro j hj ms hms
    rcases List.mem_append.1 hj with hj | hj
    · exact h.top j hj ms hms
    · rw [List.mem_singleton.1 hj] at hms
      exact hitem ms hms
  · rcases hfrom with rfl | ⟨hms, ht⟩
    · obtain ⟨j, hj, hjms, hjt⟩ := h.tied
      exact ⟨j, List.mem_append_left _ hj, hjms, hjt⟩
    · exact ⟨item, List.mem_append_right _ (List.mem_singleton_self _), hms, ht⟩
  · intro j hj hms
    rcases List.mem_append.1 hj with hj | hj
    · exact tieLe_trans (h.topTie j hj hms) htie
    · rw [List.mem_singleton.1 hj] at hms ⊢
      exact hown hms

/-- One item of the loop. -/
theorem Covered.step (h : Covered cfg cutoff seen w) (item : ι) :
    Covered cfg cutoff (seen ++ [item]) (watermarkStep cfg cutoff w item) := by
  -- the items kept so far, and this one if it is admitted
  have hkept : ∀ {b}, cfg.admits cutoff item = b →
      (seen ++ [item]).filter (cfg.admits cutoff) =
        w.kept ++ if b then [item] else [] := by
    rintro b rfl
    rw [List.filter_append, h.kept_eq, List.filter_singleton]
    cases cfg.admits cutoff item <;> rfl
  cases hstamp : cfg.stampOf item with
  | none =>
    -- without a stamp the item is kept and moves no watermark
    have hin : cfg.admits cutoff item = true := by
      simp [TimestampCursorConfig.admits, hstamp]
    rw [watermarkStep_unstamped hstamp]
    cases h with
    | unstamped kept raw ms none =>
      refine .unstamped (hkept hin).symm raw ms ?_
      intro i hi
      rcases List.mem_append.1 hi with hi | hi
      · exact none i hi
      · rw [List.mem_singleton.1 hi, hstamp]
    | stamped kept m ms newest =>
      refine .stamped (hkept hin).symm m ms (newest.push ?_ (tieLe_refl _) ?_ (Or.inl rfl))
      · rw [hstamp]
        exact nofun
      · rw [hstamp]
        exact nofun
  | some ms =>
    -- an item past the cutoff is left for a later cycle
    by_cases hlt : cutoff < ms
    · have hout : cfg.admits cutoff item = false := by
        simp [TimestampCursorConfig.admits, hstamp, hlt]
      have heq : (seen ++ [item]).filter (cfg.admits cutoff) = w.kept := by
        rw [hkept hout]
        simp
      rw [watermarkStep_fresh hstamp hlt]
      cases h with
      | unstamped kept raw hms none => exact .unstamped heq.symm raw hms none
      | stamped kept m hms newest => exact .stamped heq.symm m hms newest
    · have hin : cfg.admits cutoff item = true := by
        simp [TimestampCursorConfig.admits, hstamp, not_lt.1 hlt]
      cases h with
      | unstamped kept raw hms none =>
        rw [watermarkStep_newest hstamp hlt (by simp [hms])]
        refine .stamped (hkept hin).symm ms rfl (newest_of_above hstamp ?_)
        intro i hi m hm
        rw [none i hi] at hm
        cases hm
      | stamped kept m hms newest =>
        -- newer than the newest so far, as new, or older: only the first two move the watermark
        rcases lt_trichotomy m ms with hm | rfl | hm
        · rw [watermarkStep_newest hstamp hlt (by simp [hms, hm])]
          refine .stamped (hkept hin).symm ms rfl (newest_of_above hstamp ?_)
          intro i hi m' hm'
          exact (newest.top i hi m' hm').trans_lt hm
        · rw [watermarkStep_tied hstamp hlt hms]
          refine .stamped (hkept hin).symm m hms (newest.push ?_ (le_maxString_left _ _)
            (fun _ => le_maxString_right _ _) ?_)
          · rw [hstamp]
            rintro _ ⟨⟩
            exact le_rfl
          · rcases maxString_choice w.maxTie (cfg.tieOfItem item) with hl | hr
            · exact Or.inl hl
            · exact Or.inr ⟨hstamp, hr.symm⟩
        · rw [watermarkStep_older hstamp hlt hms hm]
          refine .stamped (hkept hin).symm m hms (newest.push ?_ (tieLe_refl _) ?_ (Or.inl rfl))
          · rw [hstamp]
            rintro _ ⟨⟩
            exact hm.le
          · rw [hstamp]
            rintro ⟨⟩
            exact absurd hm (lt_irrefl _)

/-- The loop over a page. -/
theorem covered_foldl (cfg : TimestampCursorConfig ι) (cutoff : Rat) (items : List ι) :
    Covered cfg cutoff items (items.foldl (watermarkStep cfg cutoff) {}) := by
  induction items using List.reverseRecOn with
  | nil => exact .unstamped rfl rfl rfl nofun
  | append_singleton items item ih =>
    rw [List.foldl_append]
    exact ih.step item

end

/-! ## One page -/

/-- What one page without a cursor of its own does to the watermark. -/
structure Advanced (cfg : TimestampCursorConfig ι) (value tie value' tie' : Option String)
    (now : Int) (items kept : List ι) : Prop where
  kept_eq : kept = items.filter (cfg.admits (cfg.cutoff now))
  onward : ∀ v ∈ value, ∀ m ∈ tryParseTimestamp cfg v,
    ∃ v' ∈ value', ∃ m' ∈ tryParseTimestamp cfg v', m ≤ m'
  verbatim : value' = value ∨ value'.isSome ∧ ∃ item ∈ kept, cfg.fieldString item = value'
  covers : ∀ item ∈ kept, ∀ ms ∈ cfg.stampOf item,
    ∃ v' ∈ value', ∃ m' ∈ tryParseTimestamp cfg v', ms ≤ m'
  unstamped : ∀ item ∈ items, cfg.stampOf item = none → item ∈ kept
  held : value' = value → tieLe tie tie'
  moved : value' ≠ value → ∃ v' ∈ value', ∃ m' ∈ tryParseTimestamp cfg v', m' ≤ cfg.cutoff now ∧
    (∃ item ∈ kept, cfg.stampOf item = some m' ∧ cfg.tieOfItem item = tie') ∧
    ∀ item ∈ kept, cfg.stampOf item = some m' → tieLe (cfg.tieOfItem item) tie'

section
variable {cfg : TimestampCursorConfig ι} {value tie : Option String} {items kept : List ι}
  {now : Int}

theorem parseTimestamp_iff {raw : String} {ms : Rat} :
    parseTimestamp cfg raw = .ok ms ↔ tryParseTimestamp cfg raw = some ms := by
  unfold parseTimestamp tryParseTimestamp
  cases hp : cfg.parse raw with
  | error e => simp [bind, Except.bind]
  | ok o => cases o <;> simp [bind, Except.bind, pure, Except.pure, throw, throwThe,
      MonadExceptOf.throw]

theorem stampOf_le_cutoff {cutoff ms : Rat} {item : ι}
    (h : item ∈ items.filter (cfg.admits cutoff)) (hms : cfg.stampOf item = some ms) :
    ms ≤ cutoff := by
  have hin := (List.mem_filter.1 h).2
  simpa [TimestampCursorConfig.admits, hms] using hin

theorem mem_of_unstamped {cutoff : Rat} {item : ι} (h : item ∈ items)
    (hms : cfg.stampOf item = none) : item ∈ items.filter (cfg.admits cutoff) :=
  List.mem_filter.2 ⟨h, by simp [TimestampCursorConfig.admits, hms]⟩

/-- A page that moves the watermark to its newest timestamp. -/
theorem Advanced.of_newest {raw tie' : Option String} {m : Rat}
    (hkept : kept = items.filter (cfg.admits (cfg.cutoff now)))
    (hn : NewestStamp cfg kept raw tie' m)
    (habove : ∀ v ∈ value, ∀ c ∈ tryParseTimestamp cfg v, c < m) :
    Advanced cfg value tie raw tie' now items kept := by
  obtain ⟨item, hitem, hraw, hstamp⟩ := hn.held
  obtain ⟨v', hv', hm'⟩ := Option.bind_eq_some_iff.1 hstamp
  have hraw' : raw = some v' := hraw.symm.trans hv'
  have hle : m ≤ cfg.cutoff now := stampOf_le_cutoff (hkept ▸ hitem) hstamp
  refine ⟨hkept, ?_, Or.inr ⟨by rw [hraw']; rfl, item, hitem, hraw⟩, ?_, ?_, ?_, ?_⟩
  · intro v hv c hc
    exact ⟨v', hraw', m, hm', (habove v hv c hc).le⟩
  · intro i hi ms hms
    exact ⟨v', hraw', m, hm', hn.top i hi ms hms⟩
  · intro i hi hms
    rw [hkept]
    exact mem_of_unstamped hi hms
  · intro heq
    -- the value of the newest timestamp is not the value it is past
    exact absurd (habove v' (heq ▸ hraw') m hm') (lt_irrefl m)
  · intro _
    exact ⟨v', hraw', m, hm', hle, hn.tied, hn.topTie⟩

/-- A page that leaves the value where it is. -/
theorem Advanced.of_same {tie' : Option String}
    (hkept : kept = items.filter (cfg.admits (cfg.cutoff now))) (htie : tieLe tie tie')
    (hcovers : ∀ item ∈ kept, ∀ ms ∈ cfg.stampOf item,
      ∃ v ∈ value, ∃ m ∈ tryParseTimestamp cfg v, ms ≤ m) :
    Advanced cfg value tie value tie' now items kept := by
  refine ⟨hkept, ?_, Or.inl rfl, hcovers, ?_, fun _ => htie, fun h => absurd rfl h⟩
  · intro v hv m hm
    exact ⟨v, hv, m, hm, le_rfl⟩
  · intro i hi hms
    rw [hkept]
    exact mem_of_unstamped hi hms

/-- What `advance` makes of the watermark of a page. -/
theorem timestampAdvance_eq {cfg : TimestampCursorConfig ι} {items : List ι} {now : Int}
    {w : Watermark ι} (hasMore : Option Bool) (value tie : Option String)
    (hw : items.foldl (watermarkStep cfg (cfg.cutoff now)) {} = w) :
    timestampAdvance cfg (.keyset value tie) { items, pageCursor := none, hasMore, now } =
      match w.maxRaw, w.maxMs with
      | some maxRaw, some maxMs => do
        match ← value.mapM (parseTimestamp cfg) with
        | none => return ⟨.keyset (some maxRaw) w.maxTie, hasMore != some true, w.kept⟩
        | some current =>
          if current < maxMs then
            return ⟨.keyset (some maxRaw) w.maxTie, hasMore != some true, w.kept⟩
          else if maxMs = current ∧ cfg.tieOf.isSome then
            return ⟨.keyset value (maxString tie w.maxTie), hasMore != some true, w.kept⟩
          else return ⟨.keyset value tie, hasMore != some true, w.kept⟩
      | _, _ => return ⟨.keyset value tie, hasMore != some true, w.kept⟩ := by
  subst hw
  rfl

/-- One page. -/
theorem advance_spec (cfg : TimestampCursorConfig ι) (items : List ι) (hasMore : Option Bool)
    (now : Int) (tie : Option String)
    (hvalue : ∀ v ∈ value, (tryParseTimestamp cfg v).isSome) :
    ∃ value' tie' kept,
      timestampAdvance cfg (.keyset value tie)
          { items, pageCursor := none, hasMore, now } =
        .ok { cursor := .keyset value' tie', done := hasMore != some true, items := kept } ∧
      Advanced cfg value tie value' tie' now items kept := by
  have hcovered := covered_foldl cfg (cfg.cutoff now) items
  generalize hw : items.foldl (watermarkStep cfg (cfg.cutoff now)) {} = w at hcovered
  rw [timestampAdvance_eq hasMore value tie hw]
  cases hcovered with
  | unstamped kept raw ms none =>
    rw [raw]
    refine ⟨value, tie, w.kept, rfl, .of_same kept (tieLe_refl _) ?_⟩
    intro item hitem ms hms
    rw [none item hitem] at hms
    cases hms
  | stamped kept m ms newest =>
    obtain ⟨item, -, hraw, hstamp⟩ := newest.held
    obtain ⟨raw, hfield, -⟩ := Option.bind_eq_some_iff.1 hstamp
    have hmaxRaw : w.maxRaw = some raw := hraw.symm.trans hfield
    rw [hmaxRaw] at newest
    rw [hmaxRaw, ms]
    cases value with
    | none => exact ⟨some raw, w.maxTie, w.kept, rfl, .of_newest kept newest (by rintro _ ⟨⟩)⟩
    | some v =>
      obtain ⟨current, hcurrent⟩ := Option.isSome_iff_exists.1 (hvalue v rfl)
      have hparse : (some v).mapM (parseTimestamp cfg) = .ok (some current) := by
        simp [parseTimestamp_iff.2 hcurrent]
      simp only [hparse]
      by_cases hlt : current < m
      · refine ⟨some raw, w.maxTie, w.kept, ?_, .of_newest kept newest ?_⟩
        · exact if_pos hlt
        · rintro _ ⟨⟩ c hc
          rw [hcurrent] at hc
          exact Option.some.inj hc ▸ hlt
      · have hcovers : ∀ item ∈ w.kept, ∀ ms ∈ cfg.stampOf item,
            ∃ v' ∈ some v, ∃ m' ∈ tryParseTimestamp cfg v', ms ≤ m' := by
          intro i hi ms' hms'
          exact ⟨v, rfl, current, hcurrent, (newest.top i hi ms' hms').trans (not_lt.1 hlt)⟩
        by_cases htied : m = current ∧ cfg.tieOf.isSome
        · refine ⟨some v, maxString tie w.maxTie, w.kept, ?_,
            .of_same kept (le_maxString_left _ _) hcovers⟩
          exact (if_neg hlt).trans (if_pos htied)
        · refine ⟨some v, tie, w.kept, ?_, .of_same kept (tieLe_refl _) hcovers⟩
          exact (if_neg hlt).trans (if_neg htied)

end

/-! ## Pages in the order of time -/

/-- The cursor after a sequence of pages. -/
def advanceAll (cfg : TimestampCursorConfig ι) (cursor : CursorVal)
    (pages : List (AdvanceInput ι)) : Except JsError CursorVal :=
  pages.foldlM (fun cursor page => do return (← timestampAdvance cfg cursor page).cursor) cursor

/-- The item lies strictly after the value. -/
def TimestampCursorConfig.After (cfg : TimestampCursorConfig ι) (value : Option String)
    (item : ι) : Prop :=
  ∃ ms ∈ cfg.stampOf item, ∀ v ∈ value, ∀ m ∈ tryParseTimestamp cfg v, m < ms

section
variable {cfg : TimestampCursorConfig ι} {value tie : Option String} {now : Int} {item : ι}

/-- The value can be parsed and is at or before the cutoff of a time. -/
def Behind (cfg : TimestampCursorConfig ι) (now : Int) (value : Option String) : Prop :=
  ∀ v ∈ value, ∃ m ∈ tryParseTimestamp cfg v, m ≤ cfg.cutoff now

theorem Behind.mono {later : Int} (h : Behind cfg now value) (hle : now ≤ later) :
    Behind cfg later value := by
  intro v hv
  obtain ⟨m, hm, hcut⟩ := h v hv
  have hcutoff : cfg.cutoff now ≤ cfg.cutoff later := by
    have hcast : (now : Rat) ≤ later := by exact_mod_cast hle
    exact sub_le_sub_right hcast _
  exact ⟨m, hm, hcut.trans hcutoff⟩

theorem Behind.parsed (h : Behind cfg now value) :
    ∀ v ∈ value, (tryParseTimestamp cfg v).isSome := by
  intro v hv
  obtain ⟨m, hm, -⟩ := h v hv
  exact Option.isSome_of_mem hm

/-- A page keeps the watermark behind its cutoff. -/
theorem Advanced.behind {value' tie' : Option String} {items kept : List ι}
    (h : Advanced cfg value tie value' tie' now items kept) (hb : Behind cfg now value) :
    Behind cfg now value' := by
  by_cases hsame : value' = value
  · rw [hsame]
    exact hb
  · obtain ⟨v', hv', m', hm', hcut, -⟩ := h.moved hsame
    intro v hv
    obtain rfl := Option.some.inj (hv.symm.trans hv')
    exact ⟨m', hm', hcut⟩

/-- What a page drops lies after a watermark behind its cutoff. -/
theorem after_of_dropped {items : List ι} (hb : Behind cfg now value) (hitem : item ∈ items)
    (hdropped : item ∉ items.filter (cfg.admits (cfg.cutoff now))) : cfg.After value item := by
  cases hstamp : cfg.stampOf item with
  | none => exact absurd (mem_of_unstamped hitem hstamp) hdropped
  | some ms =>
    have hfresh : cfg.cutoff now < ms := by
      by_contra hle
      refine hdropped (List.mem_filter.2 ⟨hitem, ?_⟩)
      simpa [TimestampCursorConfig.admits, hstamp] using hle
    refine ⟨ms, hstamp, ?_⟩
    intro v hv m hm
    obtain ⟨m', hm', hcut⟩ := hb v hv
    obtain rfl := Option.some.inj (hm.symm.trans hm')
    exact hcut.trans_lt hfresh

/-- What lies after the watermark lies after the value that the next page is asked from, when a
formatted instant is never later. -/
theorem After.forFetch (h : cfg.After value item)
    (hformat : ∀ ms sample, ∀ m ∈ tryParseTimestamp cfg (cfg.format ms sample), m ≤ ms)
    {asked : CursorVal} (hasked : (timestampStrategy cfg).forFetch (.keyset value tie) now =
      .ok asked) : cfg.After (keysetValue asked) item := by
  cases value with
  | none =>
    obtain rfl : CursorVal.keyset none tie = asked := Except.ok.inj hasked
    exact h
  | some v =>
    by_cases hoverlap : cfg.overlapMs ≤ 0
    · simp only [timestampStrategy, keysetValue, if_pos hoverlap] at hasked
      obtain rfl := Except.ok.inj hasked
      exact h
    · simp only [timestampStrategy, keysetValue, if_neg hoverlap] at hasked
      cases hparse : parseTimestamp cfg v with
      | error e =>
        rw [hparse] at hasked
        cases hasked
      | ok ms =>
        rw [hparse] at hasked
        obtain rfl := Except.ok.inj hasked
        obtain ⟨stamp, hstamp, hafter⟩ := h
        refine ⟨stamp, hstamp, ?_⟩
        rintro _ ⟨⟩ m hm
        have hms : tryParseTimestamp cfg v = some ms := parseTimestamp_iff.1 hparse
        have hoverlap' : (0 : Rat) < cfg.overlapMs := by exact_mod_cast not_le.1 hoverlap
        have hbefore := hformat _ _ m hm
        have hlt := hafter v rfl ms hms
        linarith

/-- Pages in the order of time keep the watermark behind the cutoff of the last. -/
theorem advanceAll_behind (tie : Option String) {pages : List (AdvanceInput ι)}
    (hown : ∀ p ∈ pages, p.pageCursor = none) (hb : Behind cfg now value)
    (htime : pages.Pairwise fun p q => p.now ≤ q.now) (hnow : ∀ p ∈ pages, now ≤ p.now) :
    ∃ value' tie', advanceAll cfg (.keyset value tie) pages = .ok (.keyset value' tie') ∧
      ∀ later : Int, now ≤ later → (∀ p ∈ pages, p.now ≤ later) → Behind cfg later value' := by
  induction pages generalizing value tie now with
  | nil => exact ⟨value, tie, rfl, fun later hle _ => hb.mono hle⟩
  | cons page pages ih =>
    obtain ⟨items, pageCursor, hasMore, at_⟩ := page
    obtain rfl : pageCursor = none := hown _ List.mem_cons_self
    have hpage := hb.mono (hnow _ List.mem_cons_self)
    obtain ⟨value', tie', kept, hadvance, hspec⟩ := advance_spec cfg items hasMore at_ tie
      hpage.parsed
    obtain ⟨hfirst, hrest⟩ := List.pairwise_cons.1 htime
    obtain ⟨value'', tie'', hall, hlast⟩ := ih tie'
      (fun p hp => hown p (List.mem_cons_of_mem _ hp)) (hspec.behind hpage) hrest hfirst
    refine ⟨value'', tie'', ?_, ?_⟩
    · simp only [advanceAll, List.foldlM_cons, hadvance]
      exact hall
    · intro later _ hlater
      exact hlast later (hlater _ List.mem_cons_self)
        fun p hp => hlater p (List.mem_cons_of_mem _ hp)

end

/-- The watermark never skips. One page moves it onward, to the verbatim field of a kept item, at or
past every kept timestamp, and its tie-break grows at one value and is the largest one at a new
value. Over pages in the order of time, from no value on, it stays at or before the cutoff of `lag`,
so whatever a page drops lies strictly after it, and after the value of the next request. -/
theorem advance_never_skips (cfg : TimestampCursorConfig ι) (tie : Option String) :
    (∀ (value : Option String) (items : List ι) (hasMore : Option Bool) (now : Int),
      (∀ v ∈ value, (tryParseTimestamp cfg v).isSome) →
      ∃ value' tie' kept,
        timestampAdvance cfg (.keyset value tie) { items, pageCursor := none, hasMore, now } =
          .ok { cursor := .keyset value' tie', done := hasMore != some true, items := kept } ∧
        Advanced cfg value tie value' tie' now items kept) ∧
    ∀ (before : List (AdvanceInput ι)) (page : AdvanceInput ι),
      (∀ p ∈ before ++ [page], p.pageCursor = none) →
      (before ++ [page]).Pairwise (fun p q => p.now ≤ q.now) →
      ∃ cursor adv value' tie',
        advanceAll cfg (.keyset none tie) before = .ok cursor ∧
        timestampAdvance cfg cursor page = .ok adv ∧ adv.cursor = .keyset value' tie' ∧
        Behind cfg page.now value' ∧
        ∀ item ∈ page.items, item ∉ adv.items → cfg.After value' item ∧
          ((∀ ms sample, ∀ m ∈ tryParseTimestamp cfg (cfg.format ms sample), m ≤ ms) →
            ∀ now asked, (timestampStrategy cfg).forFetch adv.cursor now = .ok asked →
              cfg.After (keysetValue asked) item) := by
  constructor
  · intro value items hasMore now hvalue
    exact advance_spec cfg items hasMore now tie hvalue
  · intro before page hown htime
    obtain ⟨htime, -, hlast⟩ := List.pairwise_append.1 htime
    have hbefore : ∀ p ∈ before, p.now ≤ page.now := fun p hp =>
      hlast p hp page (List.mem_singleton_self _)
    -- the first clock value of the sequence starts the induction
    obtain ⟨first, hfirst, hpage⟩ : ∃ first : Int, (∀ p ∈ before, first ≤ p.now) ∧
        first ≤ page.now := by
      cases before with
      | nil => exact ⟨page.now, nofun, le_rfl⟩
      | cons p rest =>
        refine ⟨p.now, ?_, hbefore p List.mem_cons_self⟩
        intro q hq
        rcases List.mem_cons.1 hq with rfl | hq
        · exact le_rfl
        · exact (List.pairwise_cons.1 htime).1 q hq
    have hnone : Behind cfg first none := nofun
    obtain ⟨value, tie₁, hall, hbehind⟩ := advanceAll_behind tie
      (fun p hp => hown p (List.mem_append_left _ hp)) hnone htime hfirst
    have hb := hbehind page.now hpage hbefore
    obtain ⟨items, pageCursor, hasMore, now⟩ := page
    obtain rfl : pageCursor = none := hown _ (List.mem_append_right _ (List.mem_singleton_self _))
    obtain ⟨value', tie', kept, hadvance, hspec⟩ :=
      advance_spec cfg items hasMore now tie₁ hb.parsed
    refine ⟨_, _, value', tie', hall, hadvance, rfl, hspec.behind hb, ?_⟩
    intro item hitem hdropped
    have hafter : cfg.After value' item :=
      after_of_dropped (hspec.behind hb) hitem (hspec.kept_eq ▸ hdropped)
    exact ⟨hafter, fun hformat _ _ hasked => After.forFetch hafter hformat hasked⟩

/-- Items that are a timestamp in milliseconds and an id, five milliseconds of `lag`. -/
def laggedConfig : TimestampCursorConfig (String × String) where
  field := "updatedAt"
  fieldString item := some item.1
  tieOf := some fun item => some item.2
  initial := none
  lagMs := 5
  overlapMs := 0
  parse raw := .ok (some (readInt raw))
  format ms _ := ms.floor.repr

/-- Two pages, the second with an item that `lag` holds back. -/
theorem advance_never_skips_sample :
    (∃ value' tie' kept,
      timestampAdvance laggedConfig (.keyset (some "10") (some "a"))
          { items := [("10", "b"), ("30", "c")], pageCursor := none, hasMore := none, now := 20 } =
        .ok { cursor := .keyset value' tie', done := true, items := kept } ∧
      Advanced laggedConfig (some "10") (some "a") value' tie' 20 [("10", "b"), ("30", "c")]
        kept) ∧
    ∃ cursor adv value' tie',
      advanceAll laggedConfig (.keyset none (some "a"))
          [{ items := [("10", "a")], pageCursor := none, hasMore := some true, now := 18 }] =
        .ok cursor ∧
      timestampAdvance laggedConfig cursor
          { items := [("30", "c")], pageCursor := none, hasMore := none, now := 20 } = .ok adv ∧
      adv.cursor = .keyset value' tie' ∧ Behind laggedConfig 20 value' ∧
      ∀ item ∈ [("30", "c")], item ∉ adv.items → laggedConfig.After value' item := by
  have h := advance_never_skips laggedConfig (some "a")
  refine ⟨h.1 (some "10") [("10", "b"), ("30", "c")] none 20 ?_, ?_⟩
  · intro v _
    rfl
  · obtain ⟨cursor, adv, value', tie', hall, hadvance, hcursor, hbehind, hafter⟩ := h.2
      [{ items := [("10", "a")], pageCursor := none, hasMore := some true, now := 18 }]
      { items := [("30", "c")], pageCursor := none, hasMore := none, now := 20 }
      (by simp) (by simp)
    exact ⟨cursor, adv, value', tie', hall, hadvance, hcursor, hbehind,
      fun item hitem hdropped => (hafter item hitem hdropped).1⟩

end Watukuy
