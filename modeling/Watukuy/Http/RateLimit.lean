import Mathlib.Algebra.Order.Floor.Ring
import Mathlib.Data.Rat.Floor
import Watukuy.Library.OrderedMap
import Watukuy.Library.Trim

/-!
# Rate-limit headers

`http/rate-limit.ts`: `parseRateLimitHeaders` and what it calls. A header value is a byte string,
so a list of characters up to U+00FF; numbers are exact, so every number read is finite. No
function of the model throws, and the `catch` of `parseRateLimitHeaders` is left out.
-/

set_option autoImplicit false

namespace Watukuy.RateLimit

open Library

/-- `Headers`, by lower-cased name. -/
abbrev Headers := String → Option (List Char)

inductive Source where
  | ietf
  | legacy
  | vendor
  deriving DecidableEq

structure RateLimitInfo where
  source : Source
  limit : Option ℚ
  remaining : Option ℚ
  resetAt : Option ℚ
  policy : Option (List Char)
  deriving DecidableEq

/-! ## Characters -/

/-- The white space of `trim` and of `\s`. -/
def isSpace (c : Char) : Bool :=
  (9 ≤ c.toNat && c.toNat ≤ 13) || (0x2000 ≤ c.toNat && c.toNat ≤ 0x200A) ||
    [0x20, 0xA0, 0x1680, 0x2028, 0x2029, 0x202F, 0x205F, 0x3000, 0xFEFF].contains c.toNat

/-- What `.` does not match. -/
def isLineEnd (c : Char) : Bool := [0x0A, 0x0D, 0x2028, 0x2029].contains c.toNat

/-- `toLowerCase` on the characters of a header value. -/
def lowerCase (c : Char) : Char :=
  if (65 ≤ c.toNat ∧ c.toNat ≤ 90) ∨ (192 ≤ c.toNat ∧ c.toNat ≤ 222 ∧ c.toNat ≠ 215) then
    Char.ofNat (c.toNat + 32)
  else c

/-! ## Splitting and unquoting -/

/-- The loop of `splitQuoted`, from a current part on: `quoted` between double quotes, where a
backslash takes the next character with it. -/
def splitFrom (separator : Char) : Bool → List Char → List Char → List (List Char)
  | _, current, [] => [current]
  | true, current, '\\' :: next :: rest =>
      splitFrom separator true (current ++ ['\\', next]) rest
  | quoted, current, ch :: rest =>
      let quoted' := if ch = '"' then !quoted else quoted
      if ch = separator ∧ quoted' = false then current :: splitFrom separator quoted' [] rest
      else splitFrom separator quoted' (current ++ [ch]) rest

def splitQuoted (value : List Char) (separator : Char) : List (List Char) :=
  ((splitFrom separator false [] value).map (trim isSpace)).filter fun p => p ≠ []

/-- `replace(/\\(.)/g, '$1')`. -/
def unescape : List Char → List Char
  | [] => []
  | '\\' :: c :: rest =>
      if isLineEnd c then '\\' :: c :: unescape rest else c :: unescape rest
  | c :: rest => c :: unescape rest

def unquote (value : List Char) : List Char :=
  if 2 ≤ value.length ∧ value.head? = some '"' ∧ value.getLast? = some '"' then
    unescape (value.drop 1).dropLast
  else value

/-! ## Numbers -/

/-- The number of `\d+(?:\.\d+)?` at the front of a text. -/
def decimalFront (text : List Char) : Option ℚ :=
  let whole := text.takeWhile Char.isDigit
  if whole = [] then none
  else
    let fraction := match text.dropWhile Char.isDigit with
      | '.' :: rest => rest.takeWhile Char.isDigit
      | _ => []
    some (Nat.ofDigitChars 10 (whole ++ fraction) 0 / 10 ^ fraction.length)

def leadingNumber (value : Option (List Char)) : Option ℚ :=
  value.bind fun v => decimalFront (v.dropWhile isSpace)

/-- `Math.round`. -/
def round (x : ℚ) : ℚ := ⌊x + 1 / 2⌋

/-! ## Members -/

structure StructuredMember where
  name : Option (List Char)
  params : OrderedMap (List Char) (List Char)

/-- One segment of `parseMember`. -/
def addSegment (member : StructuredMember) (segment : List Char) : StructuredMember :=
  match segment.idxOf? '=' with
  | none => { member with name := member.name.or (some (unquote segment)) }
  | some eq =>
      let key := (trim isSpace (segment.take eq)).map lowerCase
      if key = [] ∨ (member.params.get key).isSome then member
      else
        { member with
          params := member.params.set key (unquote (trim isSpace (segment.drop (eq + 1)))) }

def parseMember (member : List Char) : StructuredMember :=
  (splitQuoted member ';').foldl addSegment ⟨none, .empty⟩

/-- One member of the `RateLimit` header: its name and its parameters where none is there yet. -/
def mergeMember (merged : StructuredMember) (raw : List Char) : StructuredMember :=
  let member := parseMember raw
  { name := merged.name.or member.name
    params := member.params.entries.foldl
      (fun params entry =>
        if (params.get entry.1).isSome then params else params.set entry.1 entry.2)
      merged.params }

/-! ## The header families -/

/-- The record that a family returns, when it found a number. -/
def infoOf (source : Source) (policy : Option (List Char)) (limit remaining resetAt : Option ℚ) :
    Option RateLimitInfo :=
  if limit = none ∧ remaining = none ∧ resetAt = none then none
  else some ⟨source, limit, remaining, resetAt, policy⟩

/-- The policy whose quota counts: the one that the `RateLimit` header names, else the first. -/
def chosenMember (name : Option (List Char)) (members : List StructuredMember) :
    Option StructuredMember :=
  (name.bind fun n => members.find? fun m => m.name = some n).or members.head?

def parseIetf (headers : Headers) (now : ℚ) : Option RateLimitInfo :=
  let limitHeader := headers "ratelimit"
  let policyHeader := headers "ratelimit-policy"
  if limitHeader = none ∧ policyHeader = none then none
  else
    let merged := match limitHeader with
      | some value => (splitQuoted value ',').foldl mergeMember ⟨none, .empty⟩
      | none => ⟨none, .empty⟩
    let param (key : String) := merged.params.get key.toList
    let remaining := leadingNumber ((param "r").or (param "remaining"))
    let reset := leadingNumber ((param "t").or (param "reset"))
    let resetAt := reset.map fun s => now + round (s * 1000)
    let limit := leadingNumber ((param "limit").or (param "q"))
    let quota := policyHeader.bind fun value =>
      let chosen := chosenMember merged.name ((splitQuoted value ',').map parseMember)
      leadingNumber ((chosen.bind fun m => m.params.get "q".toList).or
        (chosen.bind fun m => m.params.get "limit".toList))
    infoOf .ietf policyHeader (quota.or limit) remaining resetAt

/-- An epoch in milliseconds or in seconds, or a delta in seconds. -/
def parseReset (value : Option (List Char)) (now : ℚ) : Option ℚ :=
  (leadingNumber value).bind fun n =>
    if 10 ^ 12 ≤ n then some (round n)
    else if 10 ^ 9 ≤ n then
      if n > now / 1000 - 86400 then some (round (n * 1000)) else none
    else some (now + round (n * 1000))

def parseLegacy (headers : Headers) (now : ℚ) : Option RateLimitInfo :=
  infoOf .legacy none (leadingNumber (headers "ratelimit-limit"))
    (leadingNumber (headers "ratelimit-remaining")) (parseReset (headers "ratelimit-reset") now)

def firstHeader (headers : Headers) (names : List String) : Option (List Char) :=
  names.findSome? headers

def parseVendor (headers : Headers) (now : ℚ) : Option RateLimitInfo :=
  let resetAfter := leadingNumber
    (firstHeader headers ["x-ratelimit-reset-after", "x-rate-limit-reset-after"])
  let resetAt := match resetAfter with
    | some seconds => some (now + round (seconds * 1000))
    | none => parseReset (firstHeader headers ["x-ratelimit-reset", "x-rate-limit-reset"]) now
  infoOf .vendor none
    (leadingNumber (firstHeader headers ["x-ratelimit-limit", "x-rate-limit-limit"]))
    (leadingNumber (firstHeader headers ["x-ratelimit-remaining", "x-rate-limit-remaining"]))
    resetAt

def parseRateLimitHeaders (headers : Headers) (now : ℚ) : Option RateLimitInfo :=
  (parseIetf headers now).or ((parseLegacy headers now).or (parseVendor headers now))

end Watukuy.RateLimit
