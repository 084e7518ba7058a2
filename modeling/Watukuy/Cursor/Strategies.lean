import Watukuy.Core.Types
import Watukuy.Core.Text

/-!
# Cursor strategies

`cursor/*.ts`: timestamp, token, page, snapshotDiff and custom. A strategy is a record of functions
with its configuration already applied. `serialize` and `deserialize` go between the cursor in
memory and the persisted document; a document of another shape is malformed.
-/

set_option autoImplicit false

namespace Watukuy

variable {ι : Type}

/-! ## Configurations -/

/-- `TimestampCursorConfig` with the item accessors resolved: `fieldString` is the timestamp text of
an item, `tieOf` its tie-break value. `parse` is `cfg.parse` or the default; a result that is not a
finite number is `none`. -/
structure TimestampCursorConfig (ι : Type) where
  field : String
  fieldString : ι → Option String
  tieOf : Option (ι → Option String)
  initial : Option String
  lagMs : Int
  overlapMs : Int
  parse : String → Except JsError (Option Rat)
  format : Rat → Option String → String

structure TokenCursorConfig where
  initial : Option String

structure PageCursorConfig where
  initial : Option Nat

/-- `CustomCursorConfig`; a custom cursor is represented by a text. -/
structure CustomCursorConfig (ι : Type) where
  initial : String
  advance : String → List ι → Option String → Bool → Except JsError (String × Bool)
  serialize : String → Except JsError String
  deserialize : String → Except JsError String

inductive CursorConfig (ι : Type) where
  | timestamp (cfg : TimestampCursorConfig ι)
  | token (cfg : TokenCursorConfig)
  | page (cfg : PageCursorConfig)
  | snapshotDiff
  | custom (cfg : CustomCursorConfig ι)

def CursorConfig.isSnapshotDiff : CursorConfig ι → Bool
  | .snapshotDiff => true
  | _ => false

/-! ## The strategy interface -/

structure AdvanceInput (ι : Type) where
  items : List ι
  pageCursor : Option String
  hasMore : Option Bool
  now : Int

structure AdvanceResult (ι : Type) where
  cursor : CursorVal
  done : Bool
  items : List ι

structure CursorStrategy (ι : Type) where
  initial : CursorVal
  serialize : CursorVal → Except JsError CursorVal
  deserialize : CursorVal → Except JsError CursorVal
  forFetch : CursorVal → Int → Except JsError CursorVal
  advance : CursorVal → AdvanceInput ι → Except JsError (AdvanceResult ι)
  onCycleComplete : CursorVal → CursorVal
  reached : CursorVal → CursorVal → Except JsError Bool
  fromRaw : Option String → Except JsError CursorVal

/-- The JSON text of a persisted cursor. -/
def CursorVal.text : CursorVal → String
  | .null => "null"
  | .page n => "\x7b\"page\":" ++ toString n ++ "\x7d"
  | .token v => "\x7b\"value\":" ++ quoteOrNull v ++ "\x7d"
  | .keyset v t =>
    "\x7b\"value\":" ++ quoteOrNull v ++ ",\"tieBreak\":" ++ quoteOrNull t ++ "\x7d"
  | .custom text => text

/-- `malformedCursor`. -/
def malformedCursor (strategy : String) (raw : CursorVal) (expected : String) : JsError where
  kind := .plain
  name := "TypeError"
  message := strategy ++ " cursor: persisted value " ++ truncate raw.text ++
    " does not look like " ++ expected

/-! ## snapshotDiff -/

/-- There is no cursor; pages continue while `hasMore: true`. -/
def snapshotDiffStrategy : CursorStrategy ι where
  initial := .null
  serialize _ := .ok .null
  deserialize _ := .ok .null
  forFetch _ _ := .ok .null
  advance _ input :=
    .ok { cursor := .null, done := input.hasMore != some true, items := input.items }
  onCycleComplete _ := .null
  reached _ _ := .ok true
  fromRaw _ := .ok .null

/-! ## page -/

def initialPage (cfg : PageCursorConfig) : Nat := cfg.initial.getD 1

def pageNumber : CursorVal → Nat
  | .page n => n
  | _ => 0

/-- Advances `page + 1` while the page says `hasMore: true`. `fromRaw` reads decimal digits. -/
def pageStrategy (cfg : PageCursorConfig) : CursorStrategy ι where
  initial := .page (initialPage cfg)
  serialize c := .ok (.page (pageNumber c))
  deserialize
    | .page n => .ok (.page n)
    | raw =>
      .error (malformedCursor "page" raw "\x7b page: non-negative integer \x7d")
  forFetch c _ := .ok c
  advance c input :=
    if input.hasMore = some true then
      .ok { cursor := .page (pageNumber c + 1), done := false, items := input.items }
    else .ok { cursor := c, done := true, items := input.items }
  onCycleComplete _ := .page (initialPage cfg)
  reached c target := .ok (pageNumber c == pageNumber target)
  fromRaw
    | none => .ok (.page (initialPage cfg))
    | some raw =>
      match raw.toNat? with
      | some n => .ok (.page n)
      | none =>
        .error
          { kind := .plain
            name := "TypeError"
            message := "page cursor: expected a non-negative integer page number, got " ++
              quote raw }

/-! ## token -/

def tokenValue : CursorVal → Option String
  | .token v => v
  | _ => none

/-- A non-empty page cursor is the next token; without one the listing is exhausted. -/
def tokenStrategy (cfg : TokenCursorConfig) : CursorStrategy ι where
  initial := .token cfg.initial
  serialize c := .ok (.token (tokenValue c))
  deserialize
    | .token v => .ok (.token v)
    | raw => .error (malformedCursor "token" raw "\x7b value: string | null \x7d")
  forFetch c _ := .ok c
  advance _ input :=
    match input.pageCursor with
    | some t =>
      if t ≠ "" then
        .ok { cursor := .token (some t), done := input.hasMore == some false, items := input.items }
      else .ok { cursor := .token cfg.initial, done := true, items := input.items }
    | none => .ok { cursor := .token cfg.initial, done := true, items := input.items }
  onCycleComplete c := c
  reached c target := .ok (tokenValue c == tokenValue target)
  fromRaw raw := .ok (.token raw)

/-! ## custom -/

def customText : CursorVal → String
  | .custom t => t
  | c => c.text

/-- Delegates to the user's functions; `hasMore` is coerced to a boolean. -/
def customStrategy (cfg : CustomCursorConfig ι) : CursorStrategy ι where
  initial := .custom cfg.initial
  serialize c := (cfg.serialize (customText c)).map .custom
  deserialize raw := (cfg.deserialize (customText raw)).map .custom
  forFetch c _ := .ok c
  advance c input := do
    let (next, done) ←
      cfg.advance (customText c) input.items input.pageCursor (input.hasMore == some true)
    return { cursor := .custom next, done, items := input.items }
  onCycleComplete c := c
  reached c target := do
    return (← cfg.serialize (customText c)) == (← cfg.serialize (customText target))
  fromRaw
    | none => .ok (.custom cfg.initial)
    | some raw => (cfg.deserialize raw).map .custom

/-! ## timestamp -/

def keysetValue : CursorVal → Option String
  | .keyset v _ => v
  | _ => none

def keysetTie : CursorVal → Option String
  | .keyset _ t => t
  | _ => none

/-- `parseTimestamp`. -/
def parseTimestamp (cfg : TimestampCursorConfig ι) (raw : String) : Except JsError Rat := do
  match ← cfg.parse raw with
  | some ms => return ms
  | none =>
    throw
      { kind := .config
        name := "ConfigError"
        message := "timestamp cursor: cannot parse " ++ quote raw ++ " (field '" ++ cfg.field ++
          "') to epoch milliseconds; set cursor.parse for this format" }

/-- `tryParseTimestamp`. -/
def tryParseTimestamp (cfg : TimestampCursorConfig ι) (raw : String) : Option Rat :=
  match cfg.parse raw with
  | .ok ms => ms
  | .error _ => none

/-- `maxString`: the larger by code units; `null` loses to anything. -/
def maxString : Option String → Option String → Option String
  | none, b => b
  | some a, none => some a
  | some a, some b => if stringLe b a then some a else some b

/-- The variables of the loop over the page's items in `timestampStrategy.advance`. -/
structure Watermark (ι : Type) where
  kept : List ι := []
  maxRaw : Option String := none
  /-- `none` is negative infinity. -/
  maxMs : Option Rat := none
  maxTie : Option String := none

/-- One item of the loop. -/
def watermarkStep (cfg : TimestampCursorConfig ι) (cutoff : Rat) (w : Watermark ι) (item : ι) :
    Watermark ι :=
  match cfg.fieldString item with
  | none => { w with kept := w.kept ++ [item] }
  | some raw =>
    match tryParseTimestamp cfg raw with
    | none => { w with kept := w.kept ++ [item] }
    | some ms =>
      if cutoff < ms then w
      else
        let w := { w with kept := w.kept ++ [item] }
        let above :=
          match w.maxMs with
          | none => true
          | some m => decide (m < ms)
        if above then
          { w with maxMs := some ms, maxRaw := some raw, maxTie := cfg.tieOf.bind fun f => f item }
        else if w.maxMs = some ms then
          match cfg.tieOf with
          | none => w
          | some f => { w with maxTie := maxString w.maxTie (f item) }
        else w

/-- `advance` of the timestamp strategy. -/
def timestampAdvance (cfg : TimestampCursorConfig ι) (cursor : CursorVal)
    (input : AdvanceInput ι) : Except JsError (AdvanceResult ι) :=
  let done := input.hasMore != some true
  match input.pageCursor with
  | some value =>
    -- an explicit watermark from fetch: every item is kept
    .ok { cursor := .keyset (some value) none, done, items := input.items }
  | none => do
    let cutoff : Rat := input.now - cfg.lagMs
    let w := input.items.foldl (watermarkStep cfg cutoff) {}
    match w.maxRaw, w.maxMs with
    | some maxRaw, some maxMs =>
      let currentMs ← (keysetValue cursor).mapM (parseTimestamp cfg)
      match currentMs with
      | none =>
        return { cursor := .keyset (some maxRaw) w.maxTie, done, items := w.kept }
      | some current =>
        if current < maxMs then
          return { cursor := .keyset (some maxRaw) w.maxTie, done, items := w.kept }
        else if maxMs = current ∧ cfg.tieOf.isSome then
          let tie := maxString (keysetTie cursor) w.maxTie
          return { cursor := .keyset (keysetValue cursor) tie, done, items := w.kept }
        else return { cursor, done, items := w.kept }
    | _, _ => return { cursor, done, items := w.kept }

def timestampStrategy (cfg : TimestampCursorConfig ι) : CursorStrategy ι where
  initial := .keyset cfg.initial none
  serialize c := .ok (.keyset (keysetValue c) (keysetTie c))
  deserialize
    | .keyset v t => .ok (.keyset v t)
    | raw =>
      .error (malformedCursor "timestamp" raw
        "\x7b value: string | null, tieBreak: string | null \x7d")
  forFetch c _ :=
    match keysetValue c with
    | none => .ok c
    | some value =>
      if cfg.overlapMs ≤ 0 then .ok c
      else do
        let ms ← parseTimestamp cfg value
        return .keyset (some (cfg.format (ms - cfg.overlapMs) (some value))) none
  advance := timestampAdvance cfg
  onCycleComplete c := c
  reached c target :=
    match keysetValue target, keysetValue c with
    | none, _ => .ok true
    | some _, none => .ok false
    | some t, some v => do
      let current ← parseTimestamp cfg v
      let goal ← parseTimestamp cfg t
      return decide (goal ≤ current)
  fromRaw raw := .ok (.keyset raw none)

/-- `getStrategy`. -/
def getStrategy : CursorConfig ι → CursorStrategy ι
  | .timestamp cfg => timestampStrategy cfg
  | .token cfg => tokenStrategy cfg
  | .page cfg => pageStrategy cfg
  | .snapshotDiff => snapshotDiffStrategy
  | .custom cfg => customStrategy cfg

end Watukuy
