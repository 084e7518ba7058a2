import Watukuy.Http.RateLimit

/-!
# Rate-limit headers as a server writes them

A header is a list of members; a member is a quoted name followed by parameters, with optional
spaces around `,`, `;` and `=`. Here is the text of such a header, and what `splitQuoted` and
`unquote` make of its pieces.
-/

set_option autoImplicit false

namespace Watukuy.RateLimit

open Library

/-! ## Texts -/

/-- Optional spaces. -/
structure Pad where
  text : List Char
  blank : ∀ c ∈ text, c = ' ' ∨ c = '\t'

/-- A character that may stand outside quotes in a value. -/
def plainChar (c : Char) : Bool :=
  !isSpace c && c != '"' && c != ',' && c != ';'

/-- A text that may stand outside quotes in a value. -/
structure Bare where
  text : List Char
  nonempty : text ≠ []
  plain : ∀ c ∈ text, plainChar c = true

/-- The key of a parameter. -/
structure Token extends Bare where
  noEquals : '=' ∉ text

def escapeChar (c : Char) : List Char := if c = '"' ∨ c = '\\' then ['\\', c] else [c]

/-- A structured-field string. -/
def quoted (s : List Char) : List Char := '"' :: s.flatMap escapeChar ++ ['"']

inductive Value where
  | number (n : ℕ)
  | bare (b : Bare)
  | quoted (s : List Char)

def Value.text : Value → List Char
  | .number n => Nat.toDigits 10 n
  | .bare b => b.text
  | .quoted s => RateLimit.quoted s

/-- A parameter; one without a value is a flag. -/
structure Param where
  key : Token
  value : Option Value

/-- The key that the parser files a parameter under. -/
def Param.filed (p : Param) : List Char := p.key.text.map lowerCase

/-- A parameter with the optional spaces around its `;` and its `=`. -/
structure Line where
  param : Param
  before : Pad
  after : Pad
  beforeEquals : Pad
  afterEquals : Pad

def Line.body (l : Line) : List Char :=
  match l.param.value with
  | none => l.param.key.text
  | some v => l.param.key.text ++ l.beforeEquals.text ++ '=' :: (l.afterEquals.text ++ v.text)

def Line.text (l : Line) : List Char := l.before.text ++ ';' :: (l.after.text ++ l.body)

/-- A member whose parameters are, in any order, the `known` ones and others under other keys. -/
structure Member (known : List Param) where
  name : List Char
  extras : List Param
  unknown : ∀ e ∈ extras, ∀ k ∈ known, e.filed ≠ k.filed
  lines : List Line
  anyOrder : (lines.map Line.param).Perm (known ++ extras)
  before : Pad
  after : Pad

variable {known : List Param}

/-- The member without the spaces around it. -/
def Member.core (m : Member known) : List Char := quoted m.name ++ m.lines.flatMap Line.text

def Member.text (m : Member known) : List Char := m.before.text ++ m.core ++ m.after.text

/-! ## Where the splitter cuts -/

/-- A text that the splitter, outside quotes, takes as it is and leaves outside quotes. -/
def Uncut (separator : Char) (t : List Char) : Prop :=
  ∀ current rest, splitFrom separator false current (t ++ rest) =
    splitFrom separator false (current ++ t) rest

variable {separator : Char}

theorem splitFrom_separator (h : separator ≠ '"') (current rest : List Char) :
    splitFrom separator false current (separator :: rest) =
      current :: splitFrom separator false [] rest := by
  rw [splitFrom]
  · simp [h]
  · simp

theorem splitFrom_other {c : Char} (hq : c ≠ '"') (hs : c ≠ separator)
    (current rest : List Char) :
    splitFrom separator false current (c :: rest) =
      splitFrom separator false (current ++ [c]) rest := by
  rw [splitFrom]
  · simp [hq, hs]
  · simp

theorem splitFrom_open (h : separator ≠ '"') (current rest : List Char) :
    splitFrom separator false current ('"' :: rest) =
      splitFrom separator true (current ++ ['"']) rest := by
  rw [splitFrom]
  · simp [h.symm]
  · simp

theorem splitFrom_close (h : separator ≠ '"') (current rest : List Char) :
    splitFrom separator true current ('"' :: rest) =
      splitFrom separator false (current ++ ['"']) rest := by
  rw [splitFrom]
  · simp [h.symm]
  · simp

theorem splitFrom_inside {c : Char} (hq : c ≠ '"') (hb : c ≠ '\\') (current rest : List Char) :
    splitFrom separator true current (c :: rest) =
      splitFrom separator true (current ++ [c]) rest := by
  rw [splitFrom]
  · simp [hq]
  · intro next rest' _ h
    exact absurd h hb

/-- Inside quotes the splitter takes an escaped text as it is. -/
theorem splitFrom_escaped (s current rest : List Char) :
    splitFrom separator true current (s.flatMap escapeChar ++ rest) =
      splitFrom separator true (current ++ s.flatMap escapeChar) rest := by
  induction s generalizing current with
  | nil => simp
  | cons c s ih =>
      rw [List.flatMap_cons, List.append_assoc]
      by_cases hc : c = '"' ∨ c = '\\'
      · rw [escapeChar, if_pos hc, List.cons_append, List.cons_append, List.nil_append, splitFrom, ih]
        simp
      · have hesc : escapeChar c = [c] := if_neg hc
        rw [not_or] at hc
        rw [hesc, List.cons_append, List.nil_append, splitFrom_inside hc.1 hc.2, ih]
        simp

theorem Uncut.append {a b : List Char} (ha : Uncut separator a) (hb : Uncut separator b) :
    Uncut separator (a ++ b) := by
  intro current rest
  rw [List.append_assoc, ha, hb, List.append_assoc]

theorem uncut_nil : Uncut separator [] := by
  intro current rest
  simp

theorem uncut_of_forall {t : List Char} (h : ∀ c ∈ t, c ≠ '"' ∧ c ≠ separator) :
    Uncut separator t := by
  induction t with
  | nil => exact uncut_nil
  | cons c t ih =>
      intro current rest
      have hc := h c List.mem_cons_self
      rw [List.cons_append, splitFrom_other hc.1 hc.2,
        ih fun d hd => h d (List.mem_cons_of_mem c hd)]
      simp

/-- A structured-field string is never cut, whatever its characters are. -/
theorem uncut_quoted (h : separator ≠ '"') (s : List Char) : Uncut separator (quoted s) := by
  intro current rest
  rw [quoted, List.append_assoc, List.cons_append, splitFrom_open h, splitFrom_escaped,
    List.cons_append, List.nil_append, splitFrom_close h]
  simp

theorem uncut_flatMap {ι : Type} {f : ι → List Char} {l : List ι}
    (h : ∀ x ∈ l, Uncut separator (f x)) : Uncut separator (l.flatMap f) := by
  induction l with
  | nil => exact uncut_nil
  | cons x l ih =>
      rw [List.flatMap_cons]
      exact (h x List.mem_cons_self).append (ih fun y hy => h y (List.mem_cons_of_mem x hy))

/-- An uncut text up to the end is the last part. -/
theorem Uncut.last {t : List Char} (h : Uncut separator t) (current : List Char) :
    splitFrom separator false current t = [current ++ t] := by
  have := h current []
  rwa [List.append_nil, splitFrom] at this

/-! ## Unquoting -/

theorem unescape_escaped (s : List Char) : unescape (s.flatMap escapeChar) = s := by
  induction s with
  | nil => rfl
  | cons c s ih =>
      rw [List.flatMap_cons]
      by_cases hc : c = '"' ∨ c = '\\'
      · have hend : isLineEnd c = false := by
          rcases hc with rfl | rfl <;> decide
        rw [escapeChar, if_pos hc, List.cons_append, List.cons_append, List.nil_append, unescape, ih,
          if_neg (by simp [hend])]
      · have hesc : escapeChar c = [c] := if_neg hc
        rw [not_or] at hc
        rw [hesc, List.cons_append, List.nil_append, unescape, ih]
        intro d rest h
        exact absurd h hc.2

/-- A quoted text is read back, whatever its characters are. -/
theorem unquote_quoted (s : List Char) : unquote (quoted s) = s := by
  have hbody : ((quoted s).drop 1).dropLast = s.flatMap escapeChar := by
    rw [quoted, List.cons_append, List.drop_succ_cons, List.drop_zero, List.dropLast_concat]
  have hlong : 2 ≤ (quoted s).length := by
    simp [quoted]
  rw [unquote, if_pos ⟨hlong, by simp [quoted], List.getLast?_concat⟩, hbody, unescape_escaped]

theorem plainChar_iff {c : Char} :
    plainChar c = true ↔ isSpace c = false ∧ c ≠ '"' ∧ c ≠ ',' ∧ c ≠ ';' := by
  simp [plainChar, and_assoc]

/-- What does not start with a quote is taken as it is. -/
theorem unquote_bare (b : Bare) : unquote b.text = b.text := by
  rw [unquote, if_neg]
  rintro ⟨-, hhead, -⟩
  have hmem : '"' ∈ b.text := List.mem_of_head? hhead
  exact (plainChar_iff.1 (b.plain _ hmem)).2.1 rfl

/-! ## Where the trimming stops -/

theorem Pad.space (p : Pad) : ∀ c ∈ p.text, isSpace c = true := by
  intro c hc
  rcases p.blank c hc with rfl | rfl <;> decide

theorem Pad.uncut (p : Pad) (h : separator = ',' ∨ separator = ';') :
    Uncut separator p.text := by
  refine uncut_of_forall fun c hc => ?_
  rcases p.blank c hc with rfl | rfl <;> rcases h with rfl | rfl <;> decide

theorem Bare.solid (b : Bare) : Solid isSpace b.text :=
  solid_of_forall b.nonempty fun c hc => (plainChar_iff.1 (b.plain c hc)).1

theorem Bare.uncut (b : Bare) (h : separator = ',' ∨ separator = ';') :
    Uncut separator b.text := by
  refine uncut_of_forall fun c hc => ?_
  obtain ⟨-, hquote, hcomma, hsemicolon⟩ := plainChar_iff.1 (b.plain c hc)
  rcases h with rfl | rfl
  · exact ⟨hquote, hcomma⟩
  · exact ⟨hquote, hsemicolon⟩

theorem isSpace_of_isDigit {c : Char} (h : c.isDigit = true) : isSpace c = false := by
  have hrange : 48 ≤ c.toNat ∧ c.toNat ≤ 57 := Char.isDigit_iff_toNat.1 h
  simp [isSpace]
  omega

theorem plainChar_of_isDigit {c : Char} (h : c.isDigit = true) : plainChar c = true := by
  refine plainChar_iff.2 ⟨isSpace_of_isDigit h, ?_, ?_, ?_⟩
  all_goals
    rintro rfl
    exact absurd h (by decide)

/-- A decimal text may stand outside quotes. -/
def digits (n : ℕ) : Bare where
  text := Nat.toDigits 10 n
  nonempty := Nat.toDigits_ne_nil
  plain := by
    intro c hc
    exact plainChar_of_isDigit (Nat.isDigit_of_mem_toDigits (by decide) (by decide) hc)

theorem solid_quoted (s : List Char) : Solid isSpace (quoted s) :=
  ⟨⟨'"', by simp [quoted], by decide⟩, ⟨'"', List.getLast?_concat, by decide⟩⟩

theorem Value.solid (v : Value) : Solid isSpace v.text := by
  cases v with
  | number n => exact (digits n).solid
  | bare b => exact b.solid
  | quoted s => exact solid_quoted s

theorem Value.uncut (v : Value) (h : separator = ',' ∨ separator = ';') :
    Uncut separator v.text := by
  cases v with
  | number n => exact (digits n).uncut h
  | bare b => exact b.uncut h
  | quoted s => exact uncut_quoted (by rcases h with rfl | rfl <;> decide) s

theorem Line.body_solid (l : Line) : Solid isSpace l.body := by
  rw [Line.body]
  cases l.param.value with
  | none => exact l.param.key.solid
  | some v =>
      have h := l.param.key.solid.between v.solid
        (l.beforeEquals.text ++ '=' :: l.afterEquals.text)
      simpa using h

theorem Line.body_uncut (l : Line) (h : separator = ',' ∨ separator = ';') :
    Uncut separator l.body := by
  rw [Line.body]
  cases l.param.value with
  | none => exact l.param.key.uncut h
  | some v =>
      have hequals : Uncut separator ['='] :=
        uncut_of_forall fun c hc => by
          obtain rfl := List.mem_singleton.1 hc
          rcases h with rfl | rfl <;> decide
      have hvalue := hequals.append ((l.afterEquals.uncut h).append (v.uncut h))
      exact ((l.param.key.uncut h).append (l.beforeEquals.uncut h)).append hvalue

/-- At commas a parameter is not cut. -/
theorem Line.text_uncut (l : Line) : Uncut ',' l.text := by
  have hsemicolon : Uncut ',' [';'] :=
    uncut_of_forall fun c hc => by
      obtain rfl := List.mem_singleton.1 hc
      decide
  have hrest := hsemicolon.append
    ((l.after.uncut (.inl rfl)).append (l.body_uncut (.inl rfl)))
  exact (l.before.uncut (.inl rfl)).append hrest

theorem Member.core_uncut (m : Member known) : Uncut ',' m.core :=
  (uncut_quoted (by decide) m.name).append (uncut_flatMap fun l _ => l.text_uncut)

theorem Member.text_uncut (m : Member known) : Uncut ',' m.text :=
  ((m.before.uncut (.inl rfl)).append m.core_uncut).append (m.after.uncut (.inl rfl))

/-- A solid text followed by parameters is solid. -/
theorem solid_lines (lines : List Line) {t : List Char} (h : Solid isSpace t) :
    Solid isSpace (t ++ lines.flatMap Line.text) := by
  induction lines generalizing t with
  | nil => simpa using h
  | cons l lines ih =>
      have hl := ih (h.between l.body_solid (l.before.text ++ ';' :: l.after.text))
      simpa [Line.text] using hl

theorem Member.core_solid (m : Member known) : Solid isSpace m.core :=
  solid_lines m.lines (solid_quoted m.name)

theorem Member.trim_text (m : Member known) : trim isSpace m.text = m.core :=
  trim_padded m.before.space m.core_solid m.after.space

end Watukuy.RateLimit
