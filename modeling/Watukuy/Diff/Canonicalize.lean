import Watukuy.Core.Types
import Watukuy.Core.Text
import Watukuy.Core.Hash
import Watukuy.Library.Json

/-!
# Canonical texts

`diff/canonicalize.ts` and `hashValue`: the JSON text of a value with its keys sorted. The text is
that of the value's normal form, which it determines.
-/

set_option autoImplicit false

namespace Watukuy

open Library

/-! ## Reading string literals -/

def hexValue (c : Char) : Option Nat :=
  if c.isDigit then some (c.toNat - 48)
  else if 97 ≤ c.toNat ∧ c.toNat ≤ 102 then some (c.toNat - 87)
  else if 65 ≤ c.toNat ∧ c.toNat ≤ 70 then some (c.toNat - 55)
  else none

/-- The code unit of four hexadecimal digits. -/
def readUnit (a b c d : Char) : Option Nat := do
  return 4096 * (← hexValue a) + 256 * (← hexValue b) + 16 * (← hexValue c) + (← hexValue d)

/-- The character of a short escape. -/
def unescape (c : Char) : Option Char :=
  if c = '"' ∨ c = '\\' ∨ c = '/' then some c
  else if c = 'b' then some (Char.ofNat 8)
  else if c = 't' then some (Char.ofNat 9)
  else if c = 'n' then some (Char.ofNat 10)
  else if c = 'f' then some (Char.ofNat 12)
  else if c = 'r' then some (Char.ofNat 13)
  else none

/-- A character before the rest of a literal. -/
def consChar (c : Char) (rest : Option (List Char × List Char)) : Option (List Char × List Char) :=
  rest.map fun p => (c :: p.1, p.2)

/-- The characters of a string literal up to its closing quote, and what follows it. Two surrogates
make one character, and one alone makes none. -/
def readChars : List Char → Option (List Char × List Char)
  | [] => none
  | c :: r =>
    if c = '"' then some ([], r)
    else if c = '\\' then
      match r with
      | 'u' :: a :: b :: c :: d :: r =>
        match readUnit a b c d with
        | none => none
        | some unit =>
          if unit < 0xD800 ∨ 0xDFFF < unit then consChar (Char.ofNat unit) (readChars r)
          else
            match r with
            | '\\' :: 'u' :: e :: f :: g :: h :: r =>
              match readUnit e f g h with
              | none => none
              | some low =>
                if unit < 0xDC00 ∧ 0xDC00 ≤ low ∧ low ≤ 0xDFFF then
                  consChar (Char.ofNat (0x10000 + (unit - 0xD800) * 0x400 + (low - 0xDC00)))
                    (readChars r)
                else none
            | _ => none
      | e :: r =>
        match unescape e with
        | none => none
        | some c => consChar c (readChars r)
      | [] => none
    else if c.toNat < 32 then none
    else consChar c (readChars r)

/-- A string literal and what follows it. -/
def readQuoted : List Char → Option (String × List Char)
  | '"' :: r => (readChars r).map fun p => (String.ofList p.1, p.2)
  | _ => none

theorem hexValue_hexDigit (n : Fin 16) : hexValue (hexDigit n) = some n.val := by
  revert n
  decide

/-- A control character is read back from its four digits. -/
theorem readUnit_control {n : Nat} (h : n < 32) :
    readUnit '0' '0' (hexDigit (n / 16)) (hexDigit (n % 16)) = some n := by
  have hhigh := hexValue_hexDigit ⟨n / 16, by omega⟩
  have hlow := hexValue_hexDigit ⟨n % 16, by omega⟩
  have hzero : hexValue '0' = some 0 := rfl
  simp only at hhigh hlow
  simp only [readUnit, hzero, hhigh, hlow, Option.bind_eq_bind, Option.bind_some, pure,
    Option.some.injEq]
  omega

theorem readChars_close (r : List Char) : readChars ('"' :: r) = some ([], r) := by
  rw [readChars.eq_def]
  rfl

theorem readChars_plain {c : Char} (hquote : ¬c = '"') (hslash : ¬c = '\\') (h : ¬c.toNat < 32)
    (r : List Char) : readChars (c :: r) = consChar c (readChars r) := by
  rw [readChars.eq_def]
  simp only [if_neg hquote, if_neg hslash, if_neg h]

theorem readChars_quoteChar (c : Char) (tail : List Char) :
    readChars (quoteChar c ++ tail) = consChar c (readChars tail) := by
  have hchar : ∀ n, c.toNat = n → Char.ofNat n = c := by
    rintro n rfl
    exact Char.ofNat_toNat c
  unfold quoteChar
  split
  · next h => subst h; rfl
  · next hquote =>
    split
    · next h => subst h; rfl
    · next hslash =>
      split
      · next h => rw [← hchar 8 h]; rfl
      · split
        · next h => rw [← hchar 9 h]; rfl
        · split
          · next h => rw [← hchar 10 h]; rfl
          · split
            · next h => rw [← hchar 12 h]; rfl
            · split
              · next h => rw [← hchar 13 h]; rfl
              · split
                · next h =>
                  have hunit := readUnit_control h
                  have hplain : c.toNat < 0xD800 ∨ 0xDFFF < c.toNat := by omega
                  have hslash' : ('\\' : Char) ≠ '"' := by decide
                  simp only [List.cons_append, List.nil_append]
                  rw [readChars, if_neg hslash', if_pos rfl]
                  simp only [hunit, if_pos hplain, Char.ofNat_toNat]
                · next h =>
                  exact readChars_plain hquote hslash h tail

theorem readChars_quoted (s rest : List Char) :
    readChars (s.flatMap quoteChar ++ '"' :: rest) = some (s, rest) := by
  induction s with
  | nil => exact readChars_close rest
  | cons c s ih =>
    rw [List.flatMap_cons, List.append_assoc, readChars_quoteChar, ih]
    rfl

theorem quote_head (s : String) : ∃ rest, (quote s).toList = '"' :: rest := by
  rw [quote, String.toList_ofList]
  exact ⟨_, rfl⟩

/-- A string literal is read back. -/
theorem readQuoted_quote (s : String) (rest : List Char) :
    readQuoted ((quote s).toList ++ rest) = some (s, rest) := by
  have hread := readChars_quoted s.toList rest
  simp only [quote, String.toList_ofList, List.cons_append, List.append_assoc, List.nil_append]
  simp [readQuoted, hread]

/-! ## Values -/

/-- The numbers of the runtime: `String(value)`, and the number that a JSON token stands for. -/
structure JsNumbers (N : Type) where
  isFinite : N → Bool
  /-- `value === 0`, which `-0` is as well. -/
  isZero : N → Bool
  zero : N
  text : N → String
  read : String → Option N
  finite_zero : isFinite zero = true
  isZero_zero : isZero zero = true
  read_zero : read "0" = some zero
  token : ∀ n, isFinite n = true → isZero n = false → NumberToken (text n).toList
  read_text : ∀ n, isFinite n = true → isZero n = false → read (text n) = some n

/-- A value of the runtime. `keyed` is a `Map` or a `Set`; `withToJSON` is an object with a `toJSON`
method, by what the method returns; `boxed` is a boxed primitive; `circular` is an object that it
lies within. -/
inductive JsValue (N : Type) where
  | undefined
  | function
  | symbol
  | bigint
  | null
  | bool (b : Bool)
  | number (n : N)
  | string (s : String)
  | keyed (isMap : Bool)
  | withToJSON (result : JsValue N)
  | boxed (value : JsValue N)
  | circular
  | array (items : List (JsValue N))
  | object (members : List (String × JsValue N))

variable {N : Type} (nums : JsNumbers N)

/-- A `TypeError` of `canonicalize`. -/
def notCanonical (message : String) : JsError where
  kind := .plain
  name := "TypeError"
  message := "canonicalize: " ++ message

def serializeNumber (n : N) : Except JsError String :=
  if nums.isFinite n = false then
    .error (notCanonical (nums.text n ++ " is not representable in JSON"))
  else if nums.isZero n then .ok "0"
  else .ok (nums.text n)

/-- The members that `serializeObject` skips. -/
def JsValue.skipped : JsValue N → Bool
  | .undefined | .function | .symbol => true
  | _ => false

/-- `Object.keys(value).sort(compareCodeUnits)`, each key with what is held under it. -/
def sortByKey {α : Type} (members : List (String × α)) : List (String × α) :=
  members.insertionSort fun a b => stringLe a.1 b.1 = true

/-- The loop of `serializeObject` over the sorted keys; a skipped member has no text. -/
def joinMembers (first : Bool) :
    List (String × Option (Except JsError String)) → Except JsError String
  | [] => .ok ""
  | (_, none) :: members => joinMembers first members
  | (key, some text) :: members => do
    let text ← text
    let rest ← joinMembers false members
    return (if first then "" else ",") ++ (quote key ++ ":" ++ text) ++ rest

mutual

def serialize : JsValue N → Except JsError String
  | .undefined => .ok "null"
  | .function => .ok "null"
  | .symbol => .ok "null"
  | .bigint =>
    .error (notCanonical ("BigInt values are not representable in JSON; " ++
      "convert them to a string or number in fingerprint()"))
  | .null => .ok "null"
  | .bool b => .ok (if b then "true" else "false")
  | .number n => serializeNumber nums n
  | .string s => .ok (quote s)
  | .keyed isMap =>
    .error (notCanonical ((if isMap then "Map" else "Set") ++ " has no JSON representation; " ++
      "convert it in fingerprint() (e.g. Object.fromEntries(map) or [...set])"))
  | .withToJSON result => serialize result
  | .boxed value => serialize value
  | .circular => .error (notCanonical "circular structure cannot be canonicalized")
  | .array items => do return "[" ++ (← serializeItems true items) ++ "]"
  | .object members => do
    return "\x7b" ++ (← joinMembers true (sortByKey (serializeEach members))) ++ "\x7d"

/-- The loop of `serializeArray`. -/
def serializeItems (first : Bool) : List (JsValue N) → Except JsError String
  | [] => .ok ""
  | item :: items => do
    let text ← serialize item
    let rest ← serializeItems false items
    return (if first then "" else ",") ++ text ++ rest

/-- The texts of the members, none for a skipped one. -/
def serializeEach : List (String × JsValue N) → List (String × Option (Except JsError String))
  | [] => []
  | (key, member) :: members =>
    (key, if member.skipped then none else some (serialize member)) :: serializeEach members

end

def canonicalize (value : JsValue N) : Except JsError String := serialize nums value

/-- `hashValue`. -/
def hashValue (crypto : Crypto) (value : JsValue N) : Except JsError String :=
  (canonicalize nums value).map crypto.sha256Hex

/-! ## Normal forms -/

/-- The numbers of normal forms: finite, and zero without a sign. -/
def NormalNumber : Type :=
  { n : N // nums.isFinite n = true ∧ (nums.isZero n = true → n = nums.zero) }

def normalZero : NormalNumber nums := ⟨nums.zero, nums.finite_zero, fun _ => rfl⟩

def normalNumber (n : N) : NormalNumber nums :=
  if h : nums.isFinite n = true ∧ nums.isZero n = false then
    ⟨n, h.1, fun hz => by rw [h.2] at hz; cases hz⟩
  else normalZero nums

/-- The members that are there. -/
def present {α : Type} (members : List (String × Option α)) : List (String × α) :=
  members.filterMap fun m => m.2.map fun v => (m.1, v)

mutual

/-- The JSON value that a value stands for: `undefined` members are dropped, `undefined` items are
`null`, `-0` is `0` and keys are sorted by their code units. What has none stands for `null`. -/
def normalForm : JsValue N → Json (NormalNumber nums)
  | .bool b => .bool b
  | .number n => .number (normalNumber nums n)
  | .string s => .string s
  | .withToJSON result => normalForm result
  | .boxed value => normalForm value
  | .array items => .array (normalItems items)
  | .object members => .object (present (sortByKey (normalEach members)))
  | _ => .null

def normalItems : List (JsValue N) → List (Json (NormalNumber nums))
  | [] => []
  | item :: items => normalForm item :: normalItems items

def normalEach : List (String × JsValue N) → List (String × Option (Json (NormalNumber nums)))
  | [] => []
  | (key, member) :: members =>
    (key, if member.skipped then none else some (normalForm member)) :: normalEach members

end

mutual

/-- A value that JSON can represent: its numbers are finite, and it has no `BigInt`, `Map`, `Set` or
cycle in it. -/
def representable : JsValue N → Bool
  | .bigint => false
  | .number n => nums.isFinite n
  | .keyed _ => false
  | .withToJSON result => representable result
  | .boxed value => representable value
  | .circular => false
  | .array items => representableItems items
  | .object members => representableEach members
  | _ => true

def representableItems : List (JsValue N) → Bool
  | [] => true
  | item :: items => representable item && representableItems items

def representableEach : List (String × JsValue N) → Bool
  | [] => true
  | (_, member) :: members => representable member && representableEach members

end

/-! ## The text of the normal form -/

theorem normalNumber_val (n : NormalNumber nums) : normalNumber nums n.val = n := by
  obtain ⟨n, hfinite, hzero⟩ := n
  by_cases hz : nums.isZero n = true
  · have hno : ¬(nums.isFinite n = true ∧ nums.isZero n = false) := by simp [hz]
    obtain rfl := hzero hz
    exact dif_neg hno
  · exact dif_pos ⟨hfinite, Bool.eq_false_of_not_eq_true hz⟩

/-- The tokens of canonical texts. -/
def canonicalLexer : Lexer (NormalNumber nums) where
  number n := if nums.isZero n.val then ['0'] else (nums.text n.val).toList
  readNumber cs := (nums.read (String.ofList cs)).map (normalNumber nums)
  string s := (quote s).toList
  readString := readQuoted
  number_token := by
    intro n
    split
    · refine ⟨⟨'0', [], rfl, Or.inl rfl⟩, fun c hc => ?_⟩
      obtain rfl := List.mem_singleton.1 hc
      rfl
    · next h => exact nums.token n.val n.property.1 (Bool.eq_false_of_not_eq_true h)
  readNumber_number := by
    intro n
    split
    · next h =>
      have hzero : n.val = nums.zero := n.property.2 h
      have hread : nums.read (String.ofList ['0']) = some n.val := by
        rw [hzero]
        exact nums.read_zero
      rw [hread, Option.map_some, normalNumber_val]
    · next h =>
      have hread := nums.read_text n.val n.property.1 (Bool.eq_false_of_not_eq_true h)
      rw [String.ofList_toList, hread, Option.map_some, normalNumber_val]
  string_head := quote_head
  readString_string := readQuoted_quote

/-- `JSON.parse`, up to the sign of zero. -/
def parseJson (text : String) : Option (Json (NormalNumber nums)) :=
  (canonicalLexer nums).parse text.toList

/-- The text of a JSON value. -/
def jsonText (j : Json (NormalNumber nums)) : String :=
  String.ofList ((canonicalLexer nums).write j)

/-- The text of a member that is there. -/
def memberText (m : String × Option (Json (NormalNumber nums))) :
    String × Option (Except JsError String) :=
  (m.1, m.2.map fun j => .ok (jsonText nums j))

section
variable {nums}

@[simp] theorem canonicalLexer_string (s : String) :
    (canonicalLexer nums).string s = (quote s).toList := by
  simp only [canonicalLexer]

/-- A finite number has the text of its normal form. -/
theorem serializeNumber_eq {n : N} (h : nums.isFinite n = true) :
    serializeNumber nums n = .ok (jsonText nums (.number (normalNumber nums n))) := by
  have hfinite : ¬nums.isFinite n = false := by simp [h]
  rw [serializeNumber, if_neg hfinite]
  simp only [jsonText, Lexer.write, canonicalLexer]
  by_cases hz : nums.isZero n = true
  · have hno : ¬(nums.isFinite n = true ∧ nums.isZero n = false) := by simp [hz]
    have hval : (normalNumber nums n).val = nums.zero := congrArg Subtype.val (dif_neg hno)
    rw [hval, if_pos hz, if_pos nums.isZero_zero]
  · have hval : (normalNumber nums n).val = n :=
      congrArg Subtype.val (dif_pos ⟨h, Bool.eq_false_of_not_eq_true hz⟩)
    rw [hval, if_neg hz, if_neg hz, String.ofList_toList]

/-- The texts of the members that are there, after the first. -/
theorem joinMembers_rest (members : List (String × Option (Json (NormalNumber nums)))) :
    joinMembers false (members.map (memberText nums)) =
      .ok (String.ofList ((canonicalLexer nums).writeMembers (present members))) := by
  induction members with
  | nil => rfl
  | cons m members ih =>
    obtain ⟨key, j⟩ := m
    cases j with
    | none => exact ih
    | some j =>
      simp only [List.map_cons, memberText, Option.map_some, joinMembers, ih, present,
        List.filterMap_cons]
      simp only [Lexer.writeMembers, bind, Except.bind, pure, Except.pure, Except.ok.injEq]
      apply String.toList_injective
      simp [jsonText]

/-- The texts of the members, from the first that is there. -/
theorem joinMembers_first (members : List (String × Option (Json (NormalNumber nums)))) :
    (do return "\x7b" ++ (← joinMembers true (members.map (memberText nums))) ++ "\x7d") =
      (.ok (jsonText nums (.object (present members))) : Except JsError String) := by
  induction members with
  | nil => rfl
  | cons m members ih =>
    obtain ⟨key, j⟩ := m
    cases j with
    | none => exact ih
    | some j =>
      have hrest := joinMembers_rest members
      simp only [List.map_cons, memberText, Option.map_some, joinMembers, hrest, present,
        List.filterMap_cons]
      simp only [bind, Except.bind, pure, Except.pure, Except.ok.injEq]
      apply String.toList_injective
      simp [jsonText, Lexer.write]

/-- Sorting by key does not look at what is held under the keys. -/
theorem map_sortByKey {α β : Type} (f : String × α → String × β) (hf : ∀ m, (f m).1 = m.1)
    (members : List (String × α)) : (sortByKey members).map f = sortByKey (members.map f) := by
  refine List.map_insertionSort _ _ f members ?_
  intro a _ b _
  rw [hf, hf]

mutual

/-- The canonical text of a value is the text of its normal form. -/
theorem serialize_eq : ∀ v : JsValue N, representable nums v = true →
    serialize nums v = .ok (jsonText nums (normalForm nums v))
  | .undefined, _ => rfl
  | .function, _ => rfl
  | .symbol, _ => rfl
  | .bigint, h => nomatch h
  | .null, _ => rfl
  | .bool b, _ => by cases b <;> rfl
  | .number _, h => serializeNumber_eq h
  | .string s, _ => by simp [serialize, normalForm, jsonText, Lexer.write]
  | .keyed _, h => nomatch h
  | .withToJSON result, h => serialize_eq result h
  | .boxed value, h => serialize_eq value h
  | .circular, h => nomatch h
  | .array items, h => by
    rw [serialize, normalForm]
    cases items with
    | nil => rfl
    | cons item items =>
      have hitems : representableItems nums (item :: items) = true := h
      simp only [representableItems, Bool.and_eq_true] at hitems
      have hfirst := serialize_eq item hitems.1
      have hrest := serializeItems_eq items hitems.2
      simp only [serializeItems, hfirst, hrest, normalItems]
      simp only [bind, Except.bind, pure, Except.pure, Except.ok.injEq]
      apply String.toList_injective
      simp [jsonText, Lexer.write]
  | .object members, h => by
    have heach := serializeEach_eq members h
    have hsort := map_sortByKey (memberText nums) (fun _ => rfl) (normalEach nums members)
    rw [serialize, normalForm, heach, ← hsort]
    exact joinMembers_first _

/-- The texts of the items after the first. -/
theorem serializeItems_eq : ∀ items : List (JsValue N), representableItems nums items = true →
    serializeItems nums false items =
      .ok (String.ofList ((canonicalLexer nums).writeItems (normalItems nums items)))
  | [], _ => rfl
  | item :: items, h => by
    simp only [representableItems, Bool.and_eq_true] at h
    have hfirst := serialize_eq item h.1
    have hrest := serializeItems_eq items h.2
    simp only [serializeItems, hfirst, hrest, normalItems, Lexer.writeItems]
    simp only [bind, Except.bind, pure, Except.pure, Except.ok.injEq]
    apply String.toList_injective
    simp [jsonText]

theorem serializeEach_eq : ∀ members : List (String × JsValue N),
    representableEach nums members = true →
    serializeEach nums members = (normalEach nums members).map (memberText nums)
  | [], _ => rfl
  | (key, member) :: members, h => by
    simp only [representableEach, Bool.and_eq_true] at h
    have hfirst := serialize_eq member h.1
    have hrest := serializeEach_eq members h.2
    rw [serializeEach, normalEach, List.map_cons, hrest, hfirst]
    cases member.skipped <;> rfl

end

end

/-- What is read from the text of a JSON value. -/
theorem parseJson_jsonText (j : Json (NormalNumber nums)) :
    parseJson nums (jsonText nums j) = some j := by
  rw [parseJson, jsonText, String.toList_ofList]
  exact Lexer.parse_write _ j

theorem jsonText_injective : Function.Injective (jsonText nums) := by
  intro a b h
  have hread : some a = some b := by
    rw [← parseJson_jsonText nums a, ← parseJson_jsonText nums b, h]
  exact Option.some.inj hread

/-- A value that JSON can represent has the text of its normal form. -/
theorem canonicalize_eq {v : JsValue N} (h : representable nums v = true) :
    canonicalize nums v = .ok (jsonText nums (normalForm nums v)) := serialize_eq v h

/-- Two values have one canonical text exactly when they have one normal form, and the text read
as JSON gives the normal form back. -/
theorem canonicalize_injective {a b : JsValue N} (ha : representable nums a = true)
    (hb : representable nums b = true) :
    (canonicalize nums a = canonicalize nums b ↔ normalForm nums a = normalForm nums b) ∧
      ∃ text, canonicalize nums a = .ok text ∧ parseJson nums text = some (normalForm nums a) := by
  have htext := canonicalize_eq nums ha
  refine ⟨?_, _, htext, parseJson_jsonText nums _⟩
  rw [htext, canonicalize_eq nums hb, Except.ok.injEq]
  exact (jsonText_injective nums).eq_iff

/-- The decimal text of an integer is a number token. -/
theorem numberToken_repr (n : Int) : NumberToken n.repr.toList := by
  have hdigits : ∀ m : Nat, ∀ c ∈ m.repr.toList, c.isDigit = true := by
    intro m c hc
    rw [Nat.toList_repr] at hc
    exact Nat.isDigit_of_mem_toDigits (by decide) (by decide) hc
  have hnumeral : ∀ m : Nat, ∀ c ∈ m.repr.toList, isNumeral c = true := by
    intro m c hc
    simp [isNumeral, hdigits m c hc]
  rw [Int.repr_eq_if]
  split
  · refine ⟨?_, hnumeral _⟩
    cases htext : n.toNat.repr.toList with
    | nil =>
      rw [Nat.toList_repr] at htext
      exact absurd htext Nat.toDigits_ne_nil
    | cons c r =>
      refine ⟨c, r, rfl, Or.inl (hdigits n.toNat c ?_)⟩
      rw [htext]
      exact List.mem_cons_self
  · rw [String.toList_append]
    refine ⟨⟨'-', _, rfl, Or.inr rfl⟩, ?_⟩
    intro c hc
    rcases List.mem_append.1 hc with hc | hc
    · obtain rfl := List.mem_singleton.1 hc
      decide
    · exact hnumeral _ c hc

/-- The whole numbers, with their decimal texts. -/
def wholeNumbers : JsNumbers Int where
  isFinite _ := true
  isZero n := decide (n = 0)
  zero := 0
  text := Int.repr
  read s := some (readInt s)
  finite_zero := rfl
  isZero_zero := rfl
  read_zero := rfl
  token n _ _ := numberToken_repr n
  read_text n _ _ := congrArg some (readInt_repr n)

/-- An object with its keys out of order, an `undefined` member and an `undefined` item. -/
theorem canonicalize_injective_sample :
    (canonicalize wholeNumbers (.object [("b", .number 2), ("c", .undefined),
        ("a", .array [.undefined, .string "x"])]) =
      canonicalize wholeNumbers (.object [("a", .array [.null, .string "x"]), ("b", .number 2)]) ↔
      normalForm wholeNumbers (.object [("b", .number 2), ("c", .undefined),
        ("a", .array [.undefined, .string "x"])]) =
      normalForm wholeNumbers (.object [("a", .array [.null, .string "x"]), ("b", .number 2)])) ∧
    ∃ text, canonicalize wholeNumbers (.object [("b", .number 2), ("c", .undefined),
        ("a", .array [.undefined, .string "x"])]) = .ok text ∧
      parseJson wholeNumbers text = some (normalForm wholeNumbers (.object [("b", .number 2),
        ("c", .undefined), ("a", .array [.undefined, .string "x"])])) :=
  canonicalize_injective wholeNumbers rfl rfl

example : canonicalize wholeNumbers (.object [("b", .number (-2)), ("c", .undefined),
    ("a", .array [.undefined, .string "\n"])]) = .ok "\x7b\"a\":[null,\"\\n\"],\"b\":-2\x7d" := by
  rfl

/-! ## Hashes -/

/-- Without collisions of the digest, values hash alike exactly when they have one normal form. -/
theorem hashValue_eq_iff {crypto : Crypto} (hc : Function.Injective crypto.digest)
    {a b : JsValue N} (ha : representable nums a = true) (hb : representable nums b = true) :
    hashValue nums crypto a = hashValue nums crypto b ↔ normalForm nums a = normalForm nums b := by
  have hhash : Function.Injective crypto.sha256Hex := toHex_injective.comp hc
  rw [hashValue, hashValue, canonicalize_eq nums ha, canonicalize_eq nums hb]
  simp only [Except.map, Except.ok.injEq]
  rw [hhash.eq_iff, (jsonText_injective nums).eq_iff]

end Watukuy
