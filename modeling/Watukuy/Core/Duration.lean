import Watukuy.Core.Types
import Watukuy.Core.Text
import Watukuy.Http.StructuredFields
import Watukuy.Library.Double

/-!
# Durations

`core/duration.ts`: a duration is a number of milliseconds or a text such as `1.5s`. A text is
accepted exactly when it is an amount and a unit with white space around them (`DurationText`), and
what `formatDuration` writes for a whole number of milliseconds below `10 ^ 21` is read back as that
number. From there on numbers are printed with an exponent, which is no amount.

Numbers are doubles: an amount is rounded when it is read and again when it is multiplied, and a text
may stand for infinity. How JavaScript prints a number is a parameter, `numberText`.
-/

set_option autoImplicit false

namespace Watukuy

open Library RateLimit

inductive Duration where
  | number (n : Double)
  | text (s : String)
  deriving DecidableEq

inductive DurationUnit where
  | ms
  | s
  | m
  | h
  | d
  deriving DecidableEq

namespace DurationUnit

def text : DurationUnit → List Char
  | .ms => "ms".toList
  | .s => "s".toList
  | .m => "m".toList
  | .h => "h".toList
  | .d => "d".toList

/-- `UNIT_MS`. -/
def unitMs : DurationUnit → Nat
  | .ms => 1
  | .s => 1000
  | .m => 60000
  | .h => 3600000
  | .d => 86400000

def ofText (cs : List Char) : Option DurationUnit :=
  [DurationUnit.ms, .s, .m, .h, .d].find? fun u => u.text = cs

end DurationUnit

/-! ## Parsing -/

/-- What digits with a fraction stand for. -/
def decimal (whole fraction : List Char) : ℚ :=
  (Nat.ofDigitChars 10 (whole ++ fraction) 0 : ℚ) / 10 ^ fraction.length

/-- `\d+(?:\.\d+)?` at the front of a text, and what follows it. -/
def readAmount (cs : List Char) : Option (Double × List Char) :=
  let whole := cs.takeWhile Char.isDigit
  let rest := cs.dropWhile Char.isDigit
  if whole = [] then none
  else
    match rest with
    | '.' :: tail =>
      if tail.takeWhile Char.isDigit = [] then some (.ofRat (decimal whole []), rest)
      else
        some (.ofRat (decimal whole (tail.takeWhile Char.isDigit)), tail.dropWhile Char.isDigit)
    | _ => some (.ofRat (decimal whole []), rest)

/-- The text of a duration. -/
def readDuration (cs : List Char) : Option Double := do
  let (amount, rest) ← readAmount (cs.dropWhile RateLimit.isSpace)
  let unit ← DurationUnit.ofText (trim RateLimit.isSpace rest)
  return (amount.mul (.finite unit.unitMs)).mathRound

def configError (message : String) : JsError where
  kind := .config
  name := "ConfigError"
  message := message

def parseDuration (numberText : ℚ → String) (value : Duration) (label : String) :
    Except JsError Double :=
  match value with
  | .number n =>
    let error := configError
      (label ++ " must be a non-negative finite number of milliseconds, got " ++ n.text numberText)
    match n with
    | .finite q => if q < 0 then .error error else .ok n
    | _ => .error error
  | .text s =>
    match readDuration s.toList with
    | some ms => .ok ms
    | none =>
      .error (configError
        (label ++ " must look like '250ms', '5s', '2m', '6h' or '1d', got " ++ quote s))

/-- `a % n`, which is exact and has the sign of `a`. -/
def remainder (a : ℚ) (n : Nat) : ℚ := a - n * (if 0 ≤ a then ⌊a / n⌋ else ⌈a / n⌉)

def formatDuration (numberText : ℚ → String) (ms : Double) : String :=
  match ms with
  | .finite q =>
    if remainder q 86400000 = 0 ∧ q ≠ 0 then
      numberText (Rounding.double.div q (86400000 : Nat)) ++ "d"
    else if remainder q 3600000 = 0 ∧ q ≠ 0 then
      numberText (Rounding.double.div q (3600000 : Nat)) ++ "h"
    else if remainder q 60000 = 0 ∧ q ≠ 0 then
      numberText (Rounding.double.div q (60000 : Nat)) ++ "m"
    else if remainder q 1000 = 0 then numberText (Rounding.double.div q (1000 : Nat)) ++ "s"
    else numberText q ++ "ms"
  | ms => ms.text numberText

/-! ## The grammar -/

/-- `DURATION_RE` as a set of texts. -/
structure DurationText where
  before : List Char
  whole : List Char
  /-- The digits behind a point; none without one. -/
  fraction : List Char
  between : List Char
  unit : DurationUnit
  behind : List Char
  before_space : ∀ c ∈ before, RateLimit.isSpace c = true
  whole_some : whole ≠ []
  whole_digit : ∀ c ∈ whole, c.isDigit = true
  fraction_digit : ∀ c ∈ fraction, c.isDigit = true
  between_space : ∀ c ∈ between, RateLimit.isSpace c = true
  behind_space : ∀ c ∈ behind, RateLimit.isSpace c = true

namespace DurationText

/-- The point and the digits behind it. -/
def point (t : DurationText) : List Char := if t.fraction = [] then [] else '.' :: t.fraction

def chars (t : DurationText) : List Char :=
  t.before ++ (t.whole ++ (t.point ++ (t.between ++ t.unit.text ++ t.behind)))

def ms (t : DurationText) : Double :=
  (Double.mul (.ofRat (decimal t.whole t.fraction)) (.finite t.unit.unitMs)).mathRound

end DurationText

theorem unitText_solid (u : DurationUnit) : Solid RateLimit.isSpace u.text := by
  have hall : (u.text.all fun c => !RateLimit.isSpace c) = true := by cases u <;> rfl
  apply solid_of_forall
  · cases u <;> exact List.cons_ne_nil _ _
  · intro c hc
    simpa using List.all_eq_true.1 hall c hc

theorem ofText_text (u : DurationUnit) : DurationUnit.ofText u.text = some u := by
  cases u <;> decide

theorem ofText_some {cs : List Char} {u : DurationUnit} (h : DurationUnit.ofText cs = some u) :
    u.text = cs := by
  have hfound := List.find?_some h
  simpa using hfound

/-- The text of a unit begins with neither a digit nor a point. -/
theorem unitText_head (u : DurationUnit) (rest : List Char) :
    ∃ c tail, u.text ++ rest = c :: tail ∧ c.isDigit = false ∧ c ≠ '.' := by
  cases u
  · exact ⟨'m', 's' :: rest, rfl, by decide, by decide⟩
  · exact ⟨'s', rest, rfl, by decide, by decide⟩
  · exact ⟨'m', rest, rfl, by decide, by decide⟩
  · exact ⟨'h', rest, rfl, by decide, by decide⟩
  · exact ⟨'d', rest, rfl, by decide, by decide⟩

theorem space_head {c : Char} (h : RateLimit.isSpace c = true) : c.isDigit = false ∧ c ≠ '.' := by
  constructor
  · by_contra hdigit
    rw [isSpace_of_isDigit (by simpa using hdigit)] at h
    cases h
  · rintro rfl
    exact absurd h (by decide)

/-- What follows the amount begins with neither a digit nor a point. -/
theorem unit_head (t : DurationText) :
    ∃ c tail, t.between ++ t.unit.text ++ t.behind = c :: tail ∧ c.isDigit = false ∧ c ≠ '.' := by
  rw [List.append_assoc]
  cases hb : t.between with
  | nil => exact unitText_head t.unit t.behind
  | cons c between =>
    have hc := space_head (t.between_space c (by rw [hb]; exact List.mem_cons_self))
    exact ⟨c, _, rfl, hc⟩

theorem takeWhile_stop {p : Char → Bool} {l : List Char} (hl : ∀ c ∈ l, p c = true) {c : Char}
    (hc : p c = false) (tail : List Char) :
    (l ++ c :: tail).takeWhile p = l ∧ (l ++ c :: tail).dropWhile p = c :: tail := by
  rw [List.takeWhile_append_of_pos hl, List.dropWhile_append_of_pos hl,
    List.takeWhile_cons_of_neg (by simp [hc]), List.dropWhile_cons_of_neg (by simp [hc])]
  simp

theorem readAmount_chars (t : DurationText) :
    readAmount (t.whole ++ (t.point ++ (t.between ++ t.unit.text ++ t.behind))) =
      some (.ofRat (decimal t.whole t.fraction), t.between ++ t.unit.text ++ t.behind) := by
  obtain ⟨c, tail, hrest, hdigit, hpoint⟩ := unit_head t
  rw [hrest]
  by_cases hfraction : t.fraction = []
  · obtain ⟨htake, hdrop⟩ := takeWhile_stop t.whole_digit hdigit tail
    simp only [DurationText.point, hfraction, if_true, List.nil_append, readAmount, htake, hdrop,
      if_neg t.whole_some]
    split
    · next tail' heq => exact absurd (List.cons.inj heq).1 hpoint
    · rfl
  · have hdot : Char.isDigit '.' = false := by decide
    obtain ⟨htake, hdrop⟩ := takeWhile_stop t.whole_digit hdot (t.fraction ++ c :: tail)
    obtain ⟨htake', hdrop'⟩ := takeWhile_stop t.fraction_digit hdigit tail
    simp only [DurationText.point, if_neg hfraction, List.cons_append, readAmount, htake, hdrop,
      if_neg t.whole_some, htake', hdrop']

theorem readDuration_chars (t : DurationText) : readDuration t.chars = some t.ms := by
  have hfirst : t.chars.dropWhile RateLimit.isSpace =
      t.whole ++ (t.point ++ (t.between ++ t.unit.text ++ t.behind)) := by
    obtain ⟨d, digits, hwhole⟩ := List.exists_cons_of_ne_nil t.whole_some
    have hd := isSpace_of_isDigit (t.whole_digit d (by rw [hwhole]; exact List.mem_cons_self))
    rw [DurationText.chars, hwhole, List.dropWhile_append_of_pos t.before_space, List.cons_append,
      List.dropWhile_cons_of_neg (by simp [hd])]
  have htrim := trim_padded t.between_space (unitText_solid t.unit) t.behind_space
  simp only [readDuration, hfirst, readAmount_chars, Option.bind_eq_bind, Option.bind_some, htrim,
    ofText_text]
  rfl

/-- What `trim` takes off. -/
theorem trim_split (l : List Char) : ∃ before behind, (∀ c ∈ before, RateLimit.isSpace c = true) ∧
    (∀ c ∈ behind, RateLimit.isSpace c = true) ∧ l = before ++ trim RateLimit.isSpace l ++ behind := by
  refine ⟨l.takeWhile RateLimit.isSpace,
    (l.dropWhile RateLimit.isSpace).rtakeWhile RateLimit.isSpace, ?_, ?_, ?_⟩
  · exact fun c hc => List.mem_takeWhile_imp hc
  · exact fun c hc => List.mem_rtakeWhile_imp hc
  · rw [trim, List.append_assoc, List.rdropWhile_append_rtakeWhile, List.takeWhile_append_dropWhile]

theorem readAmount_some {cs rest : List Char} {amount : Double} (h : readAmount cs = some (amount, rest)) :
    ∃ whole fraction, whole ≠ [] ∧ (∀ c ∈ whole, c.isDigit = true) ∧
      (∀ c ∈ fraction, c.isDigit = true) ∧ amount = .ofRat (decimal whole fraction) ∧
      cs = whole ++ ((if fraction = [] then [] else '.' :: fraction) ++ rest) := by
  have hsplit : cs.takeWhile Char.isDigit ++ cs.dropWhile Char.isDigit = cs :=
    List.takeWhile_append_dropWhile
  have hdigits : ∀ l : List Char, ∀ c ∈ l.takeWhile Char.isDigit, c.isDigit = true :=
    fun l c hc => List.mem_takeWhile_imp hc
  unfold readAmount at h
  dsimp only at h
  split at h
  · cases h
  · next hwhole =>
    have hplain : ∀ rest', cs.dropWhile Char.isDigit = rest' →
        some (Double.ofRat (decimal (cs.takeWhile Char.isDigit) []), rest') = some (amount, rest) →
        ∃ whole fraction, whole ≠ [] ∧ (∀ c ∈ whole, c.isDigit = true) ∧
          (∀ c ∈ fraction, c.isDigit = true) ∧ amount = .ofRat (decimal whole fraction) ∧
          cs = whole ++ ((if fraction = [] then [] else '.' :: fraction) ++ rest) := by
      intro rest' hdrop heq
      rw [Option.some.injEq, Prod.mk.injEq] at heq
      refine ⟨_, [], hwhole, hdigits cs, by simp, heq.1.symm, ?_⟩
      rw [if_pos rfl, List.nil_append, ← heq.2, ← hdrop, hsplit]
    split at h
    · next tail hdrop =>
      split at h
      · exact hplain _ rfl h
      · next hfraction =>
        rw [Option.some.injEq, Prod.mk.injEq] at h
        refine ⟨_, tail.takeWhile Char.isDigit, hwhole, hdigits cs, hdigits tail, h.1.symm, ?_⟩
        rw [if_neg hfraction, ← h.2, List.cons_append, List.takeWhile_append_dropWhile, ← hdrop,
          hsplit]
    · next hnone => exact hplain _ rfl h

theorem readDuration_some {cs : List Char} {ms : Double} (h : readDuration cs = some ms) :
    ∃ t : DurationText, cs = t.chars ∧ ms = t.ms := by
  simp only [readDuration, Option.bind_eq_bind, Option.bind_eq_some_iff] at h
  obtain ⟨⟨amount, rest⟩, hamount, unit, hunit, hms⟩ := h
  obtain ⟨whole, fraction, hwhole, hdigits, hfraction, rfl, hcs⟩ := readAmount_some hamount
  obtain ⟨between, behind, hbetween, hbehind, hrest⟩ := trim_split rest
  have htext := ofText_some hunit
  refine ⟨⟨cs.takeWhile RateLimit.isSpace, whole, fraction, between, unit, behind,
    fun c hc => List.mem_takeWhile_imp hc, hwhole, hdigits, hfraction, hbetween, hbehind⟩, ?_, ?_⟩
  · simp only [DurationText.chars, DurationText.point, htext]
    rw [← hrest, ← hcs, List.takeWhile_append_dropWhile]
  · exact (Option.some.inj hms).symm

/-! ## Durations read back -/

/-- Whole numbers below `10 ^ 21` are printed as digits that stand for them. -/
def PrintsDigits (numberText : ℚ → String) : Prop :=
  ∀ n : Nat, (n : ℚ) ∈ doubles → n < 10 ^ 21 → (numberText n).toList ≠ [] ∧
    (∀ c ∈ (numberText n).toList, c.isDigit = true) ∧
    nearest (Nat.ofDigitChars 10 (numberText n).toList 0 : Nat) = n

/-- A number and a unit without white space. -/
def DurationText.plain (digits : List Char) (unit : DurationUnit) (hsome : digits ≠ [])
    (hdigit : ∀ c ∈ digits, c.isDigit = true) : DurationText where
  before := []
  whole := digits
  fraction := []
  between := []
  unit := unit
  behind := []
  before_space := List.forall_mem_nil _
  whole_some := hsome
  whole_digit := hdigit
  fraction_digit := List.forall_mem_nil _
  between_space := List.forall_mem_nil _
  behind_space := List.forall_mem_nil _

theorem remainder_eq_zero (ms unit : Nat) (hunit : unit ≠ 0) :
    remainder ms unit = 0 ↔ unit ∣ ms := by
  have hpos : (0 : ℚ) < unit := by exact_mod_cast Nat.pos_of_ne_zero hunit
  have hms : (0 : ℚ) ≤ ms := by positivity
  have hfloor : ⌊(ms : ℚ) / unit⌋ = (ms / unit : Nat) := by
    rw [Int.floor_div_natCast, Int.floor_natCast, Int.natCast_ediv]
  rw [remainder, if_pos hms, hfloor, sub_eq_zero]
  constructor
  · intro h
    exact ⟨ms / unit, by exact_mod_cast h⟩
  · intro h
    rw [Int.cast_natCast]
    exact_mod_cast (Nat.mul_div_cancel' h).symm

/-- A whole number of units below the bound. -/
theorem plain_ms {n : Nat} (unit : DurationUnit) (hdouble : ((n * unit.unitMs : Nat) : ℚ) ∈ doubles)
    (hlt : n * unit.unitMs < 10 ^ 21) {digits : List Char} (hsome : digits ≠ [])
    (hdigit : ∀ c ∈ digits, c.isDigit = true)
    (hnearest : nearest (Nat.ofDigitChars 10 digits 0 : Nat) = n) :
    (DurationText.plain digits unit hsome hdigit).ms = .finite (n * unit.unitMs : Nat) := by
  have hunit : 1 ≤ unit.unitMs := by cases unit <;> decide
  have hn : n < 10 ^ 21 := (Nat.le_mul_of_pos_right n hunit).trans_lt hlt
  have hsmall : ∀ k : Nat, k < 10 ^ 21 → |(k : ℚ)| < 2 ^ 1024 := by
    intro k hk
    have hk' : (k : ℚ) < 10 ^ 21 := by exact_mod_cast hk
    rw [Nat.abs_cast]
    refine (hk'.trans_le (by norm_num : (10 : ℚ) ^ 21 ≤ 2 ^ 70)).trans_le ?_
    exact pow_le_pow_right₀ (by norm_num) (by norm_num)
  have hamount : Double.ofRat (decimal digits []) = .finite n := by
    rw [decimal, List.append_nil, List.length_nil, pow_zero, div_one, Double.ofRat, hnearest,
      if_neg (not_le.2 (hsmall n hn))]
  have hproduct : (n : ℚ) * unit.unitMs = (n * unit.unitMs : Nat) := by push_cast; rfl
  have hms := hsmall _ hlt
  simp only [DurationText.ms, DurationText.plain, hamount, Double.mul, hproduct,
    Double.ofRat_eq hdouble hms]
  exact Double.mathRound_whole (n * unit.unitMs : Nat)

theorem plain_chars (digits : List Char) (unit : DurationUnit) (hsome : digits ≠ [])
    (hdigit : ∀ c ∈ digits, c.isDigit = true) :
    (DurationText.plain digits unit hsome hdigit).chars = digits ++ unit.text := by
  simp [DurationText.chars, DurationText.point, DurationText.plain]

/-- The quotient of a whole number by a unit that divides it is exact. -/
theorem div_unit {ms n unit : Nat} (hms : ms = n * unit) (hpos : unit ≠ 0)
    (hdouble : (ms : ℚ) ∈ doubles) : (n : ℚ) ∈ doubles ∧ Rounding.double.div ms unit = n := by
  have hn : (n : ℚ) ∈ doubles := by
    rcases Nat.eq_zero_or_pos ms with h | h
    · have hzero : n = 0 := by
        rcases Nat.mul_eq_zero.1 (hms.symm.trans h) with h | h
        · exact h
        · exact absurd h hpos
      rw [hzero]
      exact nat_mem_doubles (Nat.zero_le _)
    · exact dvd_mem_doubles hdouble h.ne' ⟨unit, hms⟩
  have hquotient : (ms : ℚ) / unit = n := by
    rw [div_eq_iff (by exact_mod_cast hpos), hms]
    push_cast
    rfl
  exact ⟨hn, by rw [Rounding.div, hquotient, Rounding.double.round_eq hn]⟩

/-- `formatDuration` writes a number of units. -/
theorem formatDuration_plain (numberText : ℚ → String) {ms : Nat} (hdouble : (ms : ℚ) ∈ doubles) :
    ∃ n unit, n * DurationUnit.unitMs unit = ms ∧ (n : ℚ) ∈ doubles ∧
      (formatDuration numberText (.finite ms)).toList = (numberText n).toList ++ unit.text := by
  have hunits : ∀ unit : DurationUnit, remainder ms unit.unitMs = 0 → ∃ n, n * unit.unitMs = ms ∧
      (n : ℚ) ∈ doubles ∧ Rounding.double.div ms unit.unitMs = n := by
    intro unit hrem
    have hpos : unit.unitMs ≠ 0 := by cases unit <;> decide
    obtain ⟨n, hn⟩ := (remainder_eq_zero ms unit.unitMs hpos).1 hrem
    have hms : ms = n * unit.unitMs := by rw [hn, Nat.mul_comm]
    exact ⟨n, hms.symm, div_unit hms hpos hdouble⟩
  unfold formatDuration
  dsimp only
  split
  · next hd =>
    obtain ⟨n, hn, hmem, hdiv⟩ := hunits .d hd.1
    exact ⟨n, .d, hn, hmem, by rw [String.toList_append]; exact congrArg (·.toList ++ _) (congrArg numberText hdiv)⟩
  split
  · next hh =>
    obtain ⟨n, hn, hmem, hdiv⟩ := hunits .h hh.1
    exact ⟨n, .h, hn, hmem, by rw [String.toList_append]; exact congrArg (·.toList ++ _) (congrArg numberText hdiv)⟩
  split
  · next hm =>
    obtain ⟨n, hn, hmem, hdiv⟩ := hunits .m hm.1
    exact ⟨n, .m, hn, hmem, by rw [String.toList_append]; exact congrArg (·.toList ++ _) (congrArg numberText hdiv)⟩
  split
  · next hs =>
    obtain ⟨n, hn, hmem, hdiv⟩ := hunits .s hs
    exact ⟨n, .s, hn, hmem, by rw [String.toList_append]; exact congrArg (·.toList ++ _) (congrArg numberText hdiv)⟩
  · exact ⟨ms, .ms, Nat.mul_one ms, hdouble, by rw [String.toList_append]; rfl⟩

/-- The milliseconds of a duration that is accepted. -/
def Duration.Means (value : Duration) (ms : Double) : Prop :=
  match value with
  | .number n => n = ms ∧ ∃ q, ms = .finite q ∧ 0 ≤ q
  | .text s => ∃ t : DurationText, s.toList = t.chars ∧ ms = t.ms

theorem parseDuration_ok_iff (numberText : ℚ → String) (value : Duration) (label : String)
    (ms : Double) : parseDuration numberText value label = .ok ms ↔ value.Means ms := by
  cases value with
  | number n =>
    cases n with
    | finite r =>
      by_cases hneg : r < 0
      · simp only [parseDuration, if_pos hneg, Duration.Means]
        constructor
        · intro h
          cases h
        · rintro ⟨rfl, q, hq, hpos⟩
          obtain rfl := Double.finite.inj hq
          exact absurd hneg (not_lt.2 hpos)
      · simp only [parseDuration, if_neg hneg, Duration.Means, Except.ok.injEq]
        constructor
        · rintro rfl
          exact ⟨rfl, r, rfl, not_lt.1 hneg⟩
        · exact fun h => h.1
    | nan =>
      simp only [parseDuration, Duration.Means, reduceCtorEq, false_iff]
      rintro ⟨rfl, q, hq, -⟩
      cases hq
    | infinite negative =>
      simp only [parseDuration, Duration.Means, reduceCtorEq, false_iff]
      rintro ⟨rfl, q, hq, -⟩
      cases hq
  | text s =>
    constructor
    · intro h
      simp only [parseDuration] at h
      split at h
      · next ms hread =>
        obtain ⟨t, hchars, rfl⟩ := readDuration_some hread
        exact ⟨t, hchars, (Except.ok.inj h).symm⟩
      · cases h
    · rintro ⟨t, hchars, rfl⟩
      simp only [parseDuration, hchars, readDuration_chars]

theorem DurationText.ms_nonneg (t : DurationText) : Double.le (.finite 0) t.ms = true := by
  have hdecimal : 0 ≤ decimal t.whole t.fraction := by
    unfold decimal
    positivity
  have hunit : (0 : ℚ) < t.unit.unitMs := by
    have hpos : 0 < t.unit.unitMs := by cases t.unit <;> decide
    exact_mod_cast hpos
  exact Double.mathRound_nonneg (Double.mul_nonneg (Double.ofRat_nonneg hdecimal) hunit)

theorem Duration.Means.nonneg {value : Duration} {ms : Double} (h : value.Means ms) :
    Double.le (.finite 0) ms = true := by
  cases value with
  | number n =>
    obtain ⟨-, q, rfl, hq⟩ := h
    exact (Double.nonneg_iff _).2 (Or.inr ⟨q, rfl, hq⟩)
  | text s =>
    obtain ⟨t, -, rfl⟩ := h
    exact t.ms_nonneg

/-- A duration of so many milliseconds: infinity is that of a long text. -/
def Duration.ofMs : Double → Duration
  | .finite q => .number (.finite q)
  | _ => .text (String.ofList ('1' :: List.replicate 400 '0' ++ ['d']))

theorem Duration.means_ofMs {ms : Double} (h : Double.le (.finite 0) ms = true) :
    (Duration.ofMs ms).Means ms := by
  rcases (Double.nonneg_iff ms).1 h with rfl | ⟨q, rfl, hq⟩
  · have hdigit : ∀ c ∈ '1' :: List.replicate 400 '0', c.isDigit = true := by
      intro c hc
      rcases List.mem_cons.1 hc with rfl | hc
      · rfl
      · rw [List.eq_of_mem_replicate hc]
        rfl
    have hlarge : (2 : ℚ) ^ 1024 ≤ decimal ('1' :: List.replicate 400 '0') [] := by decide +kernel
    refine ⟨DurationText.plain _ .d (List.cons_ne_nil _ _) hdigit, ?_, ?_⟩
    · rw [plain_chars, String.toList_ofList]
      rfl
    · simp only [DurationText.ms, DurationText.plain, Double.ofRat_large hlarge]
      rfl
  · exact ⟨rfl, q, rfl, hq⟩

/-- A text is accepted exactly when it is an amount and a unit, with that number of milliseconds; what
is written for a whole number of milliseconds below `10 ^ 21` is one, and read back. -/
theorem durations_read_back (numberText : ℚ → String) (hprint : PrintsDigits numberText)
    (label : String) :
    (∀ s ms, parseDuration numberText (.text s) label = .ok ms ↔
        ∃ t : DurationText, s.toList = t.chars ∧ ms = t.ms) ∧
      ∀ ms : Nat, (ms : ℚ) ∈ doubles → ms < 10 ^ 21 →
        parseDuration numberText (.text (formatDuration numberText (.finite ms))) label =
          .ok (.finite ms) := by
  refine ⟨fun s ms => parseDuration_ok_iff numberText (.text s) label ms, ?_⟩
  intro ms hdouble hlt
  obtain ⟨n, unit, rfl, hn, hchars⟩ := formatDuration_plain numberText hdouble
  have hunit : 1 ≤ unit.unitMs := by cases unit <;> decide
  obtain ⟨hsome, hdigit, hnearest⟩ :=
    hprint n hn ((Nat.le_mul_of_pos_right n hunit).trans_lt hlt)
  rw [parseDuration_ok_iff]
  refine ⟨DurationText.plain _ unit hsome hdigit, hchars.trans (plain_chars _ unit _ _).symm, ?_⟩
  exact (plain_ms unit hdouble hlt hsome hdigit hnearest).symm

/-- The digits of a whole number. -/
def wholeText (q : ℚ) : String := toString q.num.toNat

theorem wholeText_prints : PrintsDigits wholeText := by
  intro n hn _
  have htext : (wholeText n).toList = Nat.toDigits 10 n := by simp [wholeText]
  rw [htext]
  refine ⟨List.ne_nil_of_length_pos Nat.length_toDigits_pos, ?_, ?_⟩
  · intro c hc
    exact Nat.isDigit_of_mem_toDigits (by decide) (by decide) hc
  · rw [Nat.ofDigitChars_ten_toDigits]
    exact Rounding.double.round_eq hn

/-- Twenty-five hours are read back; an amount of seconds is rounded before it is multiplied. -/
theorem durations_read_back_sample :
    parseDuration wholeText (.text (formatDuration wholeText (.finite (90000000 : Nat)))) "every" =
        .ok (.finite (90000000 : Nat)) ∧
      (∃ t : DurationText, "0.5005s".toList = t.chars ∧ .finite 500 = t.ms) := by
  have hread := durations_read_back wholeText wholeText_prints "every"
  refine ⟨hread.2 90000000 (nat_mem_doubles (by norm_num)) (by norm_num), ?_⟩
  exact (hread.1 "0.5005s" _).1 (by decide +kernel)

end Watukuy
