import Watukuy.Diff.Canonicalize
import Watukuy.Library.JsonShape
import Watukuy.Stores.RedisScripts

/-!
# The JSON of the Redis store

What `JSON.stringify` writes for the rows of `RedisStore`, under the names of the source, and what
`JSON.parse` gives back. Numbers are whole; an instant stands for its ISO 8601 text, and the cursor of
a custom strategy for its own text.
-/

set_option autoImplicit false

namespace Watukuy

open Library
open JsonShape (string bool number nullable array)
open Fields (required optional object)

/-- The tokens of JSON texts with whole numbers. -/
def wholeLexer : Lexer Int where
  number n := n.repr.toList
  readNumber cs := some (readInt (String.ofList cs))
  string s := (quote s).toList
  readString := readQuoted
  number_token := numberToken_repr
  readNumber_number n := by rw [String.ofList_toList, readInt_repr]
  string_head := quote_head
  readString_string := readQuoted_quote

def jsonCodec {α : Type} (s : JsonShape Int α) : JsonCodec α where
  stringify a := String.ofList (wholeLexer.write (s.write a))
  parse text := (wholeLexer.parse text.toList).bind s.read
  parse_stringify a := by
    rw [String.toList_ofList, Lexer.parse_write, Option.bind_some, s.read_write]

namespace Shapes

/-! ## Plain values -/

def nat : JsonShape Int Nat :=
  number.as Int.ofNat (fun n => if 0 ≤ n then some n.toNat else none) fun n => by simp

def text? : JsonShape Int (Option String) := nullable string fun _ => nofun

def number? : JsonShape Int (Option Int) := nullable number fun _ => nofun

/-- A list that is left out when it is empty. -/
def listed {α : Type} : List α → Option (List α)
  | [] => none
  | as => some as

@[simp] theorem listed_getD {α : Type} (as : List α) : (listed as).getD [] = as := by
  cases as <;> rfl

/-- A flag that is left out when it is not set. -/
def flagged (b : Bool) : Option Bool := if b then some true else none

@[simp] theorem flagged_getD (b : Bool) : (flagged b).getD false = b := by
  cases b <;> rfl

def eventType : JsonShape Int EventType :=
  string.as EventType.text
    (fun s => if s = "created" then some .created else if s = "updated" then some .updated
      else if s = "deleted" then some .deleted else none)
    fun t => by cases t <;> rfl

def lane : JsonShape Int Lane :=
  string.as
    (fun
      | .live => "live"
      | .backfill => "backfill"
      | .reconcile => "reconcile"
      | .replay => "replay")
    (fun s => if s = "live" then some .live else if s = "backfill" then some .backfill
      else if s = "reconcile" then some .reconcile else if s = "replay" then some .replay else none)
    fun l => by cases l <;> rfl

def circuit : JsonShape Int CircuitState :=
  string.as
    (fun
      | .closed => "closed"
      | .open => "open"
      | .halfOpen => "half-open")
    (fun s => if s = "closed" then some .closed else if s = "open" then some .open
      else if s = "half-open" then some .halfOpen else none)
    fun c => by cases c <;> rfl

def outboxStatus : JsonShape Int OutboxStatus :=
  string.as
    (fun
      | .pending => "pending"
      | .delivered => "delivered")
    (fun s => if s = "pending" then some .pending else if s = "delivered" then some .delivered
      else none)
    fun x => by cases x <;> rfl

def parkedKind : JsonShape Int ParkedKind :=
  string.as
    (fun
      | .poison => "poison"
      | .invalid => "invalid")
    (fun s => if s = "poison" then some .poison else if s = "invalid" then some .invalid else none)
    fun x => by cases x <;> rfl

def cursor : JsonShape Int CursorVal where
  write
    | .null => .null
    | .page n => .object [("page", nat.write n)]
    | .token v => .object [("value", text?.write v)]
    | .keyset v t => .object [("value", text?.write v), ("tieBreak", text?.write t)]
    | .custom s => .string s
  read
    | .null => some .null
    | .string s => some (.custom s)
    | .object members =>
      match members.lookup "page", members.lookup "value", members.lookup "tieBreak" with
      | some n, none, none => (nat.read n).map .page
      | none, some v, none => (text?.read v).map .token
      | none, some v, some t => (text?.read v).bind fun v => (text?.read t).map (.keyset v)
      | _, _, _ => none
    | _ => none
  read_write c := by
    cases c with
    | null => rfl
    | page n => exact congrArg (Option.map CursorVal.page) (nat.read_write n)
    | token v => exact congrArg (Option.map CursorVal.token) (text?.read_write v)
    | keyset v t =>
      have hboth : ((text?.read (text?.write v)).bind fun v =>
          (text?.read (text?.write t)).map (CursorVal.keyset v)) = some (.keyset v t) := by
        rw [text?.read_write, text?.read_write]
        rfl
      exact hboth
    | custom s => rfl

/-! ## Errors and summaries -/

def error : JsonShape Int SerializedError :=
  object
    ((required "name" string).and (required "message" string)
      |>.and (optional "code" string) |>.and (optional "status" nat))
    (fun e => (((e.name, e.message), e.code), e.status))
    (fun x => { name := x.1.1.1, message := x.1.1.2, code := x.1.2, status := x.2 })
    fun _ => rfl

def rateLimit : JsonShape Int RateLimitInfo :=
  object ((required "remaining" number?).and (required "resetAt" number?))
    (fun r => (r.remaining, r.resetAt)) (fun x => { remaining := x.1, resetAt := x.2 }) fun _ => rfl

def counts : JsonShape Int EventCounts :=
  object ((required "created" nat).and (required "updated" nat) |>.and (required "deleted" nat))
    (fun c => ((c.created, c.updated), c.deleted))
    (fun x => { created := x.1.1, updated := x.1.2, deleted := x.2 }) fun _ => rfl

def summary : JsonShape Int PollSummary :=
  object
    ((required "lane" lane).and (required "startedAt" number)
      |>.and (required "durationMs" number) |>.and (required "pages" nat)
      |>.and (required "items" nat) |>.and (required "events" counts)
      |>.and (required "notModified" bool) |>.and (required "truncated" bool))
    (fun s => (((((((s.lane, s.startedAt), s.durationMs), s.pages), s.items), s.events),
      s.notModified), s.truncated))
    (fun x =>
      { lane := x.1.1.1.1.1.1.1, startedAt := x.1.1.1.1.1.1.2, durationMs := x.1.1.1.1.1.2
        pages := x.1.1.1.1.2, items := x.1.1.1.2, events := x.1.1.2, notModified := x.1.2
        truncated := x.2 })
    fun _ => rfl

def schedule : JsonShape Int ScheduleState :=
  object
    ((required "nextDueAt" number?).and (required "intervalMs" number?)
      |>.and (required "consecutiveFailures" nat) |>.and (required "circuit" circuit)
      |>.and (required "circuitOpenedAt" number?) |>.and (required "throttledUntil" number?)
      |>.and (required "rateLimit" (nullable rateLimit fun _ => nofun))
      |>.and (required "lastPollAt" number?)
      |>.and (required "lastPoll" (nullable summary fun _ => nofun))
      |>.and (required "lastError" (nullable error fun _ => nofun)))
    (fun s => (((((((((s.nextDueAt, s.intervalMs), s.consecutiveFailures), s.circuit),
      s.circuitOpenedAt), s.throttledUntil), s.rateLimit), s.lastPollAt), s.lastPoll), s.lastError))
    (fun x =>
      { nextDueAt := x.1.1.1.1.1.1.1.1.1, intervalMs := x.1.1.1.1.1.1.1.1.2
        consecutiveFailures := x.1.1.1.1.1.1.1.2, circuit := x.1.1.1.1.1.1.2
        circuitOpenedAt := x.1.1.1.1.1.2, throttledUntil := x.1.1.1.1.2, rateLimit := x.1.1.1.2
        lastPollAt := x.1.1.2, lastPoll := x.1.2, lastError := x.2 })
    fun _ => rfl

/-- A cursor of a lane is stored as a text of its own. -/
def cursorText : JsonShape Int CursorVal :=
  string.as (jsonCodec cursor).stringify (jsonCodec cursor).parse (jsonCodec cursor).parse_stringify

def laneCursor : JsonShape Int LaneCursor :=
  object
    ((required "cursor" (nullable cursorText fun _ => nofun)).and (optional "target" cursorText)
      |>.and (optional "done" bool) |>.and (optional "lastRunAt" number)
      |>.and (optional "force" bool))
    (fun l => ((((l.cursor, l.target), flagged l.done), l.lastRunAt), flagged l.force))
    (fun x =>
      { cursor := x.1.1.1.1, target := x.1.1.1.2, done := x.1.1.2.getD false
        lastRunAt := x.1.2, force := x.2.getD false })
    fun l => by simp

def lanes : JsonShape Int Lanes :=
  object
    ((optional "live" laneCursor).and (optional "backfill" laneCursor)
      |>.and (optional "reconcile" laneCursor))
    (fun l => ((l.live, l.backfill), l.reconcile))
    (fun x => { live := x.1.1, backfill := x.1.2, reconcile := x.2 }) fun _ => rfl

/-! ## Rows -/

section

variable {ι : Type} (item : JsonShape Int ι)

def event : JsonShape Int (WatukuyEvent ι) :=
  object
    ((required "id" string).and (required "type" eventType) |>.and (required "source" string)
      |>.and (required "subject" string) |>.and (required "time" number)
      |>.and (required "poller" string) |>.and (required "partition" string)
      |>.and (required "lane" lane) |>.and (required "sequence" nat)
      |>.and (required "cursor" cursor) |>.and (optional "data" item)
      |>.and (optional "previous" item) |>.and (required "attempt" nat))
    (fun e => ((((((((((((e.id, e.type), e.source), e.subject), e.time), e.poller), e.partition),
      e.lane), e.sequence), e.cursor), e.data), e.previous), e.attempt))
    (fun x =>
      { id := x.1.1.1.1.1.1.1.1.1.1.1.1, type := x.1.1.1.1.1.1.1.1.1.1.1.2
        source := x.1.1.1.1.1.1.1.1.1.1.2, subject := x.1.1.1.1.1.1.1.1.1.2
        time := x.1.1.1.1.1.1.1.1.2, poller := x.1.1.1.1.1.1.1.2, partition := x.1.1.1.1.1.1.2
        lane := x.1.1.1.1.1.2, sequence := x.1.1.1.1.2, cursor := x.1.1.1.2, data := x.1.1.2
        previous := x.1.2, attempt := x.2 })
    fun _ => rfl

def itemRow : JsonShape Int (ItemRow ι) :=
  object
    ((required "identity" string).and (required "version" text?) |>.and (required "hash" string)
      |>.and (required "schemaVersion" nat) |>.and (optional "payload" item)
      |>.and (required "seenAt" number))
    (fun r => (((((r.identity, r.version), r.hash), r.schemaVersion), r.payload), r.seenAt))
    (fun x =>
      { identity := x.1.1.1.1.1, version := x.1.1.1.1.2, hash := x.1.1.1.2
        schemaVersion := x.1.1.2, payload := x.1.2, seenAt := x.2 })
    fun _ => rfl

def outboxRow : JsonShape Int (OutboxRow ι) :=
  object
    ((required "eventId" string).and (required "sequence" nat) |>.and (required "event" (event item))
      |>.and (required "status" outboxStatus) |>.and (required "attempts" nat)
      |>.and (required "nextAttemptAt" number?)
      |>.and (required "lastError" (nullable error fun _ => nofun))
      |>.and (required "createdAt" number))
    (fun r => (((((((r.eventId, r.sequence), r.event), r.status), r.attempts), r.nextAttemptAt),
      r.lastError), r.createdAt))
    (fun x =>
      { eventId := x.1.1.1.1.1.1.1, sequence := x.1.1.1.1.1.1.2, event := x.1.1.1.1.1.2
        status := x.1.1.1.1.2, attempts := x.1.1.1.2, nextAttemptAt := x.1.1.2
        lastError := x.1.2, createdAt := x.2 })
    fun _ => rfl

def attemptInfo : JsonShape Int AttemptInfo :=
  object
    ((required "lastError" (nullable error fun _ => nofun)).and (required "nextAttemptAt" number?))
    (fun a => (a.lastError, a.nextAttemptAt)) (fun x => { lastError := x.1, nextAttemptAt := x.2 })
    fun _ => rfl

def issue : JsonShape Int ValidationIssue :=
  object ((required "message" string).and (required "path" (array string)))
    (fun i => (i.message, i.path)) (fun x => { message := x.1, path := x.2 }) fun _ => rfl

def attemptNote : JsonShape Int (Int × String) :=
  object ((required "at" number).and (required "message" string)) id id fun _ => rfl

def parkedError : JsonShape Int ParkedError :=
  object
    ((required "name" string).and (required "message" string) |>.and (optional "code" string)
      |>.and (optional "status" nat) |>.and (optional "history" (array attemptNote))
      |>.and (optional "issues" (array issue)))
    (fun e => (((((e.name, e.message), e.code), e.status), listed e.history), listed e.issues))
    (fun x =>
      { name := x.1.1.1.1.1, message := x.1.1.1.1.2, code := x.1.1.1.2, status := x.1.1.2
        history := x.1.2.getD [], issues := x.2.getD [] })
    fun e => by simp

def parkedRow (hitem : ∀ i, item.write i ≠ .null) : JsonShape Int (ParkedRow ι) :=
  object
    ((required "id" string).and (required "kind" parkedKind)
      |>.and (required "event" (nullable (event item) fun _ => nofun))
      |>.and (required "item" (nullable item hitem)) |>.and (required "error" parkedError)
      |>.and (required "attempts" nat) |>.and (required "parkedAt" number)
      |>.and (required "holdKey" text?))
    (fun r => (((((((r.id, r.kind), r.event), r.item), r.error), r.attempts), r.parkedAt), r.holdKey))
    (fun x =>
      { id := x.1.1.1.1.1.1.1, kind := x.1.1.1.1.1.1.2, event := x.1.1.1.1.1.2
        item := x.1.1.1.1.2, error := x.1.1.1.2, attempts := x.1.1.2, parkedAt := x.1.2
        holdKey := x.2 })
    fun _ => rfl

def validator : JsonShape Int Validator :=
  object
    ((required "etag" text?).and (required "lastModified" text?) |>.and (required "storedAt" number))
    (fun v => ((v.etag, v.lastModified), v.storedAt))
    (fun x => { etag := x.1.1, lastModified := x.1.2, storedAt := x.2 }) fun _ => rfl

def loggedEvent : JsonShape Int (LoggedEvent ι) :=
  object
    ((required "sequence" nat).and (required "event" (event item)) |>.and (required "createdAt" number))
    (fun e => ((e.sequence, e.event), e.createdAt))
    (fun x => { sequence := x.1.1, event := x.1.2, createdAt := x.2 }) fun _ => rfl

end

end Shapes

example : (jsonCodec Shapes.lanes).stringify { live := some { cursor := some (.page 2) } } =
    "\x7b\"live\":\x7b\"cursor\":\"\x7b\\\"page\\\":2\x7d\"\x7d\x7d" := by
  decide +kernel

/-- The texts of a store whose items are written as objects. -/
def redisJson {ι : Type} (item : JsonShape Int ι) (hitem : ∀ i, item.write i ≠ .null) :
    RedisJson ι where
  items := jsonCodec (Shapes.itemRow item)
  rows := jsonCodec (Shapes.outboxRow item)
  attemptInfo := jsonCodec Shapes.attemptInfo
  parked := jsonCodec (Shapes.parkedRow item hitem)
  validators := jsonCodec Shapes.validator
  logged := jsonCodec (Shapes.loggedEvent item)
  lanes := jsonCodec Shapes.lanes
  schedule := jsonCodec Shapes.schedule
  lanes_empty := rfl
  parse_empty := rfl

/-- The empty object. -/
def unitShape : JsonShape Int Unit where
  write _ := .object []
  read
    | .object [] => some ()
    | _ => none
  read_write _ := rfl

end Watukuy
