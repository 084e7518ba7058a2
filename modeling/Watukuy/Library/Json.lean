import Mathlib.Data.List.Basic

/-!
# JSON texts

JSON values, their texts without whitespace, and a reader of JSON. Numbers and strings are tokens of
a `Lexer`: a text for each, and a reader that gives it back. Then reading the text of any value
gives the value back, so the text determines it.
-/

set_option autoImplicit false

namespace Watukuy.Library

/-- A JSON value. The members of an object are listed in the order of its text. -/
inductive Json (N : Type) where
  | null
  | bool (b : Bool)
  | number (n : N)
  | string (s : String)
  | array (items : List (Json N))
  | object (members : List (String × Json N))

/-! ## Tokens -/

def isSpace (c : Char) : Bool := c = ' ' || c = '\t' || c = '\n' || c = '\r'

def isNumeral (c : Char) : Bool :=
  c.isDigit || c = '-' || c = '+' || c = '.' || c = 'e' || c = 'E'

/-- A number starts with a digit or a sign and goes on with the characters of numbers. -/
def NumberToken (token : List Char) : Prop :=
  (∃ c r, token = c :: r ∧ (c.isDigit = true ∨ c = '-')) ∧ ∀ c ∈ token, isNumeral c = true

/-- The tokens of numbers and strings. -/
structure Lexer (N : Type) where
  number : N → List Char
  readNumber : List Char → Option N
  string : String → List Char
  readString : List Char → Option (String × List Char)
  number_token : ∀ n, NumberToken (number n)
  readNumber_number : ∀ n, readNumber (number n) = some n
  string_head : ∀ s, ∃ r, string s = '"' :: r
  readString_string : ∀ s rest, readString (string s ++ rest) = some (s, rest)

def skipSpace (cs : List Char) : List Char := cs.dropWhile isSpace

/-- What follows the next character, when that is `b`. -/
def symbol (b : Char) (cs : List Char) : Option (List Char) :=
  match skipSpace cs with
  | [] => none
  | c :: r => if c = b then some r else none

def readKeyword {N : Type} : List Char → Option (Json N × List Char)
  | 'n' :: 'u' :: 'l' :: 'l' :: r => some (.null, r)
  | 't' :: 'r' :: 'u' :: 'e' :: r => some (.bool true, r)
  | 'f' :: 'a' :: 'l' :: 's' :: 'e' :: r => some (.bool false, r)
  | _ => none

namespace Lexer

variable {N : Type} (lex : Lexer N)

/-! ## Writing and reading -/

mutual

/-- The text of a value. -/
def write : Json N → List Char
  | .null => ['n', 'u', 'l', 'l']
  | .bool true => ['t', 'r', 'u', 'e']
  | .bool false => ['f', 'a', 'l', 's', 'e']
  | .number n => lex.number n
  | .string s => lex.string s
  | .array [] => ['[', ']']
  | .array (x :: xs) => '[' :: (write x ++ (writeItems xs ++ [']']))
  | .object [] => ['\x7b', '\x7d']
  | .object ((k, v) :: ms) =>
    '\x7b' :: (lex.string k ++ ':' :: (write v ++ (writeMembers ms ++ ['\x7d'])))

/-- The texts of the items after the first, each after a comma. -/
def writeItems : List (Json N) → List Char
  | [] => []
  | x :: xs => ',' :: (write x ++ writeItems xs)

def writeMembers : List (String × Json N) → List Char
  | [] => []
  | (k, v) :: ms => ',' :: (lex.string k ++ ':' :: (write v ++ writeMembers ms))

end

/-- A number token and what follows it. -/
def scanNumber (cs : List Char) : Option (Json N × List Char) :=
  (lex.readNumber (cs.takeWhile isNumeral)).map fun n => (.number n, cs.dropWhile isNumeral)

mutual

/-- A value and what follows it. -/
def parseValue : Nat → List Char → Option (Json N × List Char)
  | 0, _ => none
  | fuel + 1, cs =>
    match skipSpace cs with
    | [] => none
    | c :: r =>
      if c = '"' then do
        let (s, r) ← lex.readString (c :: r)
        return (.string s, r)
      else if c = '[' then
        match symbol ']' r with
        | some r => some (.array [], r)
        | none => do
          let (xs, r) ← parseItems fuel r
          return (.array xs, r)
      else if c = '\x7b' then
        match symbol '\x7d' r with
        | some r => some (.object [], r)
        | none => do
          let (ms, r) ← parseMembers fuel r
          return (.object ms, r)
      else if c.isDigit ∨ c = '-' then lex.scanNumber (c :: r)
      else readKeyword (c :: r)

/-- The items up to the closing bracket. -/
def parseItems : Nat → List Char → Option (List (Json N) × List Char)
  | 0, _ => none
  | fuel + 1, cs => do
    let (x, r) ← parseValue fuel cs
    match symbol ',' r with
    | some r =>
      let (xs, r) ← parseItems fuel r
      return (x :: xs, r)
    | none =>
      let r ← symbol ']' r
      return ([x], r)

/-- The members up to the closing brace. -/
def parseMembers : Nat → List Char → Option (List (String × Json N) × List Char)
  | 0, _ => none
  | fuel + 1, cs => do
    let (k, r) ← lex.readString (skipSpace cs)
    let r ← symbol ':' r
    let (v, r) ← parseValue fuel r
    match symbol ',' r with
    | some r =>
      let (ms, r) ← parseMembers fuel r
      return ((k, v) :: ms, r)
    | none =>
      let r ← symbol '\x7d' r
      return ([(k, v)], r)

end

/-- The value of a whole text. -/
def parse (cs : List Char) : Option (Json N) :=
  match lex.parseValue (cs.length + 1) cs with
  | some (x, r) => if skipSpace r = [] then some x else none
  | none => none

/-! ## Reading gives the value back -/

/-- What follows a value does not go on with a number. -/
def Stops (rest : List Char) : Prop := ∀ c ∈ rest.head?, isNumeral c = false

theorem skipSpace_cons {c : Char} (h : isSpace c = false) (r : List Char) :
    skipSpace (c :: r) = c :: r := by
  rw [skipSpace, List.dropWhile_cons_of_neg]
  simp [h]

theorem symbol_self {b : Char} (h : isSpace b = false) (r : List Char) :
    symbol b (b :: r) = some r := by
  simp [symbol, skipSpace_cons h]

theorem symbol_other {b c : Char} (h : isSpace c = false) (hne : c ≠ b) (r : List Char) :
    symbol b (c :: r) = none := by
  simp [symbol, skipSpace_cons h, hne]

theorem takeWhile_token {token rest : List Char} (h : ∀ c ∈ token, isNumeral c = true)
    (hrest : Stops rest) :
    (token ++ rest).takeWhile isNumeral = token ∧ (token ++ rest).dropWhile isNumeral = rest := by
  have hstop : rest.takeWhile isNumeral = [] ∧ rest.dropWhile isNumeral = rest := by
    cases rest with
    | nil => exact ⟨rfl, rfl⟩
    | cons c r =>
      have hc : isNumeral c = false := hrest c rfl
      simp [hc]
  rw [List.takeWhile_append_of_pos h, List.dropWhile_append_of_pos h, hstop.1, hstop.2,
    List.append_nil]
  exact ⟨rfl, rfl⟩

variable {lex}

theorem scanNumber_number (n : N) {rest : List Char} (hrest : Stops rest) :
    lex.scanNumber (lex.number n ++ rest) = some (.number n, rest) := by
  obtain ⟨htake, hdrop⟩ := takeWhile_token (lex.number_token n).2 hrest
  rw [scanNumber, htake, hdrop, lex.readNumber_number]
  rfl

/-- The first character of a number is no other character. -/
theorem numberHead_ne {c b : Char} (h : c.isDigit = true ∨ c = '-') (hdigit : b.isDigit = false)
    (hminus : b ≠ '-') : c ≠ b := by
  rintro rfl
  rcases h with h | h
  · rw [hdigit] at h
    cases h
  · exact hminus h

theorem isSpace_numberHead {c : Char} (h : c.isDigit = true ∨ c = '-') : isSpace c = false := by
  have hne : ∀ b : Char, b.isDigit = false → b ≠ '-' → c ≠ b := fun b => numberHead_ne h
  simp [isSpace, hne ' ' (by decide) (by decide), hne '\t' (by decide) (by decide),
    hne '\n' (by decide) (by decide), hne '\r' (by decide) (by decide)]

/-- A value starts with a character that is no space and closes nothing. -/
theorem write_head (j : Json N) :
    ∃ c r, lex.write j = c :: r ∧ isSpace c = false ∧ c ≠ ']' := by
  cases j with
  | null => exact ⟨_, _, rfl, rfl, by decide⟩
  | bool b => cases b <;> exact ⟨_, _, rfl, rfl, by decide⟩
  | number n =>
    obtain ⟨⟨c, r, hcr, hc⟩, -⟩ := lex.number_token n
    refine ⟨c, r, by rw [write, hcr], ?_, ?_⟩
    · exact isSpace_numberHead hc
    · exact numberHead_ne hc (by decide) (by decide)
  | string s =>
    obtain ⟨r, hr⟩ := lex.string_head s
    exact ⟨_, r, by rw [write, hr], rfl, by decide⟩
  | array xs => cases xs <;> exact ⟨_, _, rfl, rfl, by decide⟩
  | object ms =>
    cases ms with
    | nil => exact ⟨_, _, rfl, rfl, by decide⟩
    | cons m ms => exact ⟨_, _, rfl, rfl, by decide⟩

/-- What reading with some fuel gives back. -/
structure Reads (lex : Lexer N) (fuel : Nat) : Prop where
  value : ∀ j rest, Stops rest → (lex.write j).length ≤ fuel →
    lex.parseValue fuel (lex.write j ++ rest) = some (j, rest)
  items : ∀ x xs rest, (lex.write x ++ lex.writeItems xs).length < fuel →
    lex.parseItems fuel (lex.write x ++ (lex.writeItems xs ++ ']' :: rest)) = some (x :: xs, rest)
  members : ∀ k v ms rest,
    (lex.string k ++ ':' :: (lex.write v ++ lex.writeMembers ms)).length < fuel →
    lex.parseMembers fuel
        (lex.string k ++ ':' :: (lex.write v ++ (lex.writeMembers ms ++ '\x7d' :: rest))) =
      some ((k, v) :: ms, rest)

theorem Reads.zero (lex : Lexer N) : Reads lex 0 := by
  refine ⟨?_, fun _ _ _ h => absurd h (Nat.not_lt_zero _),
    fun _ _ _ _ h => absurd h (Nat.not_lt_zero _)⟩
  intro j rest _ hlen
  obtain ⟨c, r, hcr, -⟩ := lex.write_head j
  rw [hcr] at hlen
  simp at hlen

theorem stops_items (xs : List (Json N)) (rest : List Char) :
    Stops (lex.writeItems xs ++ ']' :: rest) := by
  cases xs with
  | nil =>
    rintro c ⟨⟩
    decide
  | cons x xs =>
    rintro c ⟨⟩
    decide

theorem stops_members (ms : List (String × Json N)) (rest : List Char) :
    Stops (lex.writeMembers ms ++ '\x7d' :: rest) := by
  cases ms with
  | nil =>
    rintro c ⟨⟩
    decide
  | cons m ms =>
    rintro c ⟨⟩
    decide

theorem Reads.step_items {fuel : Nat} (h : Reads lex fuel) (x : Json N) (xs : List (Json N))
    (rest : List Char) (hlen : (lex.write x ++ lex.writeItems xs).length < fuel + 1) :
    lex.parseItems (fuel + 1) (lex.write x ++ (lex.writeItems xs ++ ']' :: rest)) =
      some (x :: xs, rest) := by
  rw [List.length_append] at hlen
  have hvalue := h.value x (lex.writeItems xs ++ ']' :: rest) (lex.stops_items xs rest) (by omega)
  rw [parseItems, hvalue]
  cases xs with
  | nil =>
    have hcomma : symbol ',' (']' :: rest) = none := symbol_other rfl (by decide) rest
    have hclose : symbol ']' (']' :: rest) = some rest := symbol_self rfl rest
    simp [writeItems, hcomma, hclose]
  | cons y ys =>
    have hcomma : symbol ',' (',' :: (lex.write y ++ (lex.writeItems ys ++ ']' :: rest))) =
        some _ := symbol_self rfl _
    simp only [writeItems, List.length_cons, List.length_append] at hlen
    have hrest := h.items y ys rest (by rw [List.length_append]; omega)
    simp [writeItems, List.append_assoc, hcomma, hrest]

theorem Reads.step_members {fuel : Nat} (h : Reads lex fuel) (k : String) (v : Json N)
    (ms : List (String × Json N)) (rest : List Char)
    (hlen : (lex.string k ++ ':' :: (lex.write v ++ lex.writeMembers ms)).length < fuel + 1) :
    lex.parseMembers (fuel + 1)
        (lex.string k ++ ':' :: (lex.write v ++ (lex.writeMembers ms ++ '\x7d' :: rest))) =
      some ((k, v) :: ms, rest) := by
  simp only [List.length_append, List.length_cons] at hlen
  obtain ⟨r, hr⟩ := lex.string_head k
  have hskip : ∀ tail, skipSpace (lex.string k ++ tail) = lex.string k ++ tail := by
    intro tail
    rw [hr]
    exact skipSpace_cons rfl _
  have hvalue := h.value v (lex.writeMembers ms ++ '\x7d' :: rest) (lex.stops_members ms rest)
    (by omega)
  have hcolon : ∀ tail, symbol ':' (':' :: tail) = some tail := symbol_self rfl
  rw [parseMembers, hskip, lex.readString_string]
  cases ms with
  | nil =>
    have hcomma : symbol ',' ('\x7d' :: rest) = none := symbol_other rfl (by decide) rest
    have hclose : symbol '\x7d' ('\x7d' :: rest) = some rest := symbol_self rfl rest
    simp only [writeMembers, List.nil_append] at hvalue
    simp [writeMembers, hcolon, hvalue, hcomma, hclose]
  | cons m ms =>
    obtain ⟨k', v'⟩ := m
    have hcomma : symbol ',' (',' :: (lex.string k' ++ ':' :: (lex.write v' ++
        (lex.writeMembers ms ++ '\x7d' :: rest)))) = some _ := symbol_self rfl _
    simp only [writeMembers, List.length_cons, List.length_append] at hlen
    have hrest := h.members k' v' ms rest (by
      simp only [List.length_append, List.length_cons]
      omega)
    simp only [writeMembers, List.append_assoc, List.cons_append] at hvalue
    simp [writeMembers, List.append_assoc, hcolon, hvalue, hcomma, hrest]

theorem Reads.step_value {fuel : Nat} (h : Reads lex fuel) (j : Json N) (rest : List Char)
    (hrest : Stops rest) (hlen : (lex.write j).length ≤ fuel + 1) :
    lex.parseValue (fuel + 1) (lex.write j ++ rest) = some (j, rest) := by
  cases j with
  | null => rfl
  | bool b => cases b <;> rfl
  | number n =>
    obtain ⟨⟨c, r, hcr, hc⟩, -⟩ := lex.number_token n
    have hscan := lex.scanNumber_number n hrest
    have hne : ∀ b : Char, b.isDigit = false → b ≠ '-' → c ≠ b := fun b => numberHead_ne hc
    rw [hcr, List.cons_append] at hscan
    rw [write, hcr, List.cons_append, parseValue, skipSpace_cons (isSpace_numberHead hc)]
    simp only [if_neg (hne '"' (by decide) (by decide)), if_neg (hne '[' (by decide) (by decide)),
      if_neg (hne '\x7b' (by decide) (by decide)), if_pos hc]
    exact hscan
  | string s =>
    obtain ⟨r, hr⟩ := lex.string_head s
    have hread := lex.readString_string s rest
    rw [hr, List.cons_append] at hread
    rw [write, hr, List.cons_append, parseValue, skipSpace_cons rfl]
    simp [hread]
  | array xs =>
    cases xs with
    | nil => rfl
    | cons x xs =>
      simp only [write, List.length_cons, List.length_append] at hlen
      obtain ⟨c, r, hcr, hspace, hclose⟩ := lex.write_head x
      have hopen : symbol ']' (lex.write x ++ (lex.writeItems xs ++ ']' :: rest)) = none := by
        rw [hcr]
        exact symbol_other hspace hclose _
      have hitems := h.items x xs rest (by
        rw [List.length_append]
        simp only [List.length_nil] at hlen
        omega)
      rw [write, List.cons_append, parseValue, skipSpace_cons rfl]
      simp [List.append_assoc, hopen, hitems]
  | object ms =>
    cases ms with
    | nil => rfl
    | cons m ms =>
      obtain ⟨k, v⟩ := m
      simp only [write, List.length_cons, List.length_append] at hlen
      obtain ⟨r, hr⟩ := lex.string_head k
      have hopen : symbol '\x7d' (lex.string k ++ ':' :: (lex.write v ++
          (lex.writeMembers ms ++ '\x7d' :: rest))) = none := by
        rw [hr]
        exact symbol_other rfl (by decide) _
      have hmembers := h.members k v ms rest (by
        simp only [List.length_append, List.length_cons]
        simp only [List.length_nil] at hlen
        omega)
      rw [write, List.cons_append, parseValue, skipSpace_cons rfl]
      simp [List.append_assoc, hopen, hmembers]

theorem reads (lex : Lexer N) (fuel : Nat) : Reads lex fuel := by
  induction fuel with
  | zero => exact Reads.zero lex
  | succ fuel ih => exact ⟨ih.step_value, ih.step_items, ih.step_members⟩

/-- Reading the text of a value gives the value back. -/
theorem parse_write (lex : Lexer N) (j : Json N) : lex.parse (lex.write j) = some j := by
  have hstops : Stops [] := nofun
  have hvalue := (reads lex ((lex.write j).length + 1)).value j [] hstops (Nat.le_succ _)
  rw [List.append_nil] at hvalue
  rw [parse, hvalue]
  rfl

end Lexer

end Watukuy.Library
