import Watukuy.Core.Duration
import Watukuy.Core.Poller
import Watukuy.Scheduler.Invariants

/-!
# Definitions of pollers

`core/define-poller.ts`: the checks of a configuration and its defaults. What the user may get wrong at
run time is part of the input: a field may be missing, a number may be any number, a function may be
no function. The functions themselves are passed on (`Fn`).

`PollerSettings.Valid` says what the checks promise, and the settings that some configuration resolves
to are the valid ones. A duration may be infinite, and so may the factor of a backoff: the scheduler of
this development has whole milliseconds, and gets the settings that are whole numbers of them.
-/

set_option autoImplicit false

namespace Watukuy

open Library

/-- `Number.isInteger(n) && n >= least`. -/
def wholeAtLeast (n : Double) (least : Nat) : Option Nat :=
  match n.whole with
  | some k => if (least : Int) ≤ k then some k.toNat else none
  | none => none

/-! ## Input -/

inductive NameInput where
  | string (s : String)
  /-- No string; its JSON text. -/
  | other (json : String)

inductive InitialInput where
  | null
  | string (s : String)
  | other

inductive CursorInput (Fn : Type) where
  /-- No object. -/
  | missing
  | timestamp (field : Option String) (initial : InitialInput) (tieBreak : Option String)
      (lag overlap : Option Duration)
  | token (initial : InitialInput)
  | page (initial : Option Double)
  | snapshotDiff
  | custom (advance : Option Fn)
  /-- Another strategy; its JSON text. -/
  | unknown (json : String)

def CursorInput.isSnapshotDiff {Fn : Type} : CursorInput Fn → Bool
  | .snapshotDiff => true
  | _ => false

structure StandardSchema (Fn : Type) where
  version : Option Double
  validate : Option Fn

inductive SchemaInput (Fn : Type) where
  /-- Reading a property of it throws a `TypeError`. -/
  | null
  | schema (schema : StandardSchema Fn)

structure BackoffInput where
  base : Option Duration := none
  factor : Option Double := none
  max : Option Duration := none

structure ScheduleInput where
  min : Duration
  max : Duration
  adaptive : Option Bool := none
  jitter : Option Double := none
  backoff : Option BackoffInput := none

inductive AckMode where
  | auto
  | manual
  deriving DecidableEq

structure DeliveryInput (Fn : Type) where
  orderingKey : Option Fn := none
  concurrency : Option Double := none
  attempts : Option Double := none
  backoff : Option BackoffInput := none
  poisonAction : Option PoisonAction := none
  poisonHoldKey : Option Bool := none
  ackMode : Option AckMode := none

structure ReconcileInput (Fn : Type) where
  every : Duration
  fetch : Option Fn

structure CircuitInput where
  failures : Option Double := none
  probeEvery : Option Duration := none

/-- A configuration object as `definePoller` gets it. -/
structure PollerInput (Fn : Type) where
  name : NameInput
  source : Option String := none
  schema : Option (SchemaInput Fn) := none
  identity : Option Fn
  version : Option Fn := none
  fingerprint : Option Fn := none
  schemaVersion : Option Double := none
  cursor : CursorInput Fn
  fetch : Option Fn
  schedule : Option ScheduleInput := none
  budget : Option String := none
  budgetWeight : Option Double := none
  budgetCost : Option Double := none
  partitions : Option Fn := none
  partitionsRefresh : Option Duration := none
  delivery : DeliveryInput Fn := {}
  retain : Option Retain := none
  reconcile : Option (ReconcileInput Fn) := none
  onInvalid : Option OnInvalid := none
  onSchemaChange : Option OnSchemaChange := none
  maxPagesPerCycle : Option Double := none
  circuit : CircuitInput := {}
  log : Option Duration := none

/-! ## The resolved configuration -/

structure BackoffMs where
  baseMs : Double
  factor : Double
  maxMs : Double

structure ScheduleMs where
  minMs : Double
  maxMs : Double
  adaptive : Bool
  jitter : ℚ
  backoff : BackoffMs

structure DeliveryMs (Fn : Type) where
  orderingKey : Option Fn
  concurrency : Nat
  attempts : Nat
  backoff : BackoffMs
  poisonAction : PoisonAction
  poisonHoldKey : Bool
  ackMode : AckMode

structure ReconcileMs (Fn : Type) where
  everyMs : Double
  fetch : Fn

/-- What `resolvePoller` returns. -/
structure PollerSettings (Fn : Type) where
  name : String
  source : String
  schema : Option (StandardSchema Fn)
  identity : Fn
  version : Option Fn
  fingerprint : Option Fn
  schemaVersion : Nat
  cursor : CursorInput Fn
  fetch : Fn
  schedule : ScheduleMs
  budget : Option String
  budgetWeight : Double
  budgetCost : Double
  partitions : Option Fn
  partitionsRefreshMs : Double
  delivery : DeliveryMs Fn
  retain : Retain
  reconcile : Option (ReconcileMs Fn)
  onInvalid : OnInvalid
  onSchemaChange : OnSchemaChange
  maxPagesPerCycle : Nat
  circuitFailures : Nat
  probeEveryMs : Double
  logRetentionMs : Option Double

/-! ## Checks -/

section Checks

variable {Fn : Type} (numberText : ℚ → String)

def require (ok : Bool) (message : String) : Except JsError Unit :=
  if ok then .ok () else .error (configError message)

def requireSome {α : Type} (value : Option α) (message : String) : Except JsError α :=
  match value with
  | some a => .ok a
  | none => .error (configError message)

/-- `poller '${name}'`. -/
def blame (name : String) : String := "poller '" ++ name ++ "'"

/-- `NAME_RE`. -/
def isPollerName (name : String) : Bool :=
  match name.toList with
  | c :: rest =>
    c.isAlphanum && rest.all (fun c => c.isAlphanum || ['.', '_', '-'].contains c) &&
      decide (rest.length ≤ 127)
  | [] => false

def requireName : NameInput → Except JsError String
  | .string s => do
    require (isPollerName s) (nameError (quote s))
    return s
  | .other json => .error (configError (nameError json))
where
  nameError (json : String) : String :=
    "poller name must match" ++ (" /^[a-zA-Z0-9][a-zA-Z0-9._-]\x7b0,127\x7d$/ (letters, digits, " ++
      "'.', '_', '-'; max 128 chars), got " ++ json)

/-- A field that must be an integer from 1 on. -/
def requireInteger (name field : String) (value : Option Double) (default : Nat) :
    Except JsError Nat :=
  requireSome (wholeAtLeast (value.getD (.finite default)) 1)
    (blame name ++ ": " ++ field ++ " must be an integer >= 1")

/-- `backoff`. -/
def resolveBackoff (cfg : Option BackoffInput) (base max : String) (label : String) :
    Except JsError BackoffMs := do
  let baseMs ← parseDuration numberText ((cfg.bind (·.base)).getD (.text base))
    (label ++ ".backoff.base")
  let maxMs ← parseDuration numberText ((cfg.bind (·.max)).getD (.text max))
    (label ++ ".backoff.max")
  let factor := (cfg.bind (·.factor)).getD (.finite 2)
  require (Double.le (.finite 1) factor) (label ++ ".backoff.factor must be >= 1")
  require (!maxMs.lt baseMs) (label ++ ".backoff.max must be >= base")
  return { baseMs, factor, maxMs }

/-- A duration that may be left out. -/
def checkDuration (value : Option Duration) (label : String) : Except JsError Unit :=
  match value with
  | some d => (parseDuration numberText d label).map fun _ => ()
  | none => .ok ()

def InitialInput.stringOrNull : InitialInput → Bool
  | .other => false
  | _ => true

def validateCursor (cursor : CursorInput Fn) (name : String) : Except JsError Unit :=
  match cursor with
  | .missing => .error (configError (blame name ++ ": cursor is required"))
  | .timestamp field initial _ lag overlap => do
    require (field.any fun f => f ≠ "")
      (blame name ++ ": cursor.field is required for timestamp strategy")
    require initial.stringOrNull (blame name ++ ": cursor.initial must be a string or null")
    checkDuration numberText lag (blame name ++ " cursor.lag")
    checkDuration numberText overlap (blame name ++ " cursor.overlap")
  | .token initial =>
    require initial.stringOrNull (blame name ++ ": cursor.initial must be a string or null")
  | .page initial =>
    require (initial.all fun n => (wholeAtLeast n 0).isSome)
      (blame name ++ ": cursor.initial must be a non-negative integer")
  | .snapshotDiff => .ok ()
  | .custom advance =>
    require advance.isSome (blame name ++ ": custom cursor requires advance()")
  | .unknown json =>
    .error (configError (blame name ++ ": unknown cursor strategy " ++ json))

/-- A Standard Schema v1. -/
def StandardSchema.standard (schema : StandardSchema Fn) : Bool :=
  schema.version == some (.finite 1) && schema.validate.isSome

/-- `schema['~standard']` of `null`. -/
def nullSchemaError : JsError where
  kind := .plain
  name := "TypeError"
  message := "Cannot read properties of null (reading '~standard')"

def requireSchema (name : String) (schema : Option (SchemaInput Fn)) :
    Except JsError (Option (StandardSchema Fn)) :=
  match schema with
  | none => .ok none
  | some .null => .error nullSchemaError
  | some (.schema schema) => do
    require schema.standard
      (blame name ++ ": schema must implement Standard Schema v1 ('~standard'.validate)")
    return some schema

def requireJitter (name : String) (jitter : Double) : Except JsError ℚ :=
  match jitter with
  | .finite q =>
    if 0 ≤ q ∧ q < 1 then .ok q
    else .error (configError (blame name ++ ": schedule.jitter must be in [0, 1)"))
  | _ => .error (configError (blame name ++ ": schedule.jitter must be in [0, 1)"))

/-- The default of `schedule`. -/
def defaultSchedule : ScheduleInput where
  min := .text "30s"
  max := .text "5m"

def resolveReconcile (name : String) (reconcile : Option (ReconcileInput Fn)) (fetch : Option Fn) :
    Except JsError (Option (ReconcileMs Fn)) :=
  match reconcile, fetch with
  | some r, some fetch =>
    (parseDuration numberText r.every (blame name ++ " reconcile.every")).map fun everyMs =>
      some { everyMs, fetch }
  | _, _ => .ok none

/-- `circuit.probeEvery`, by default the longest interval. -/
def resolveProbe (name : String) (probeEvery : Option Duration) (maxMs : Double) :
    Except JsError Double :=
  match probeEvery with
  | some d => parseDuration numberText d (blame name ++ " circuit.probeEvery")
  | none => .ok maxMs

def resolveLog (name : String) (retention : Option Duration) :
    Except JsError (Option Double) :=
  match retention with
  | some d => (parseDuration numberText d (blame name ++ " log.retention")).map some
  | none => .ok none

def resolvePoller (config : PollerInput Fn) : Except JsError (PollerSettings Fn) := do
  let name ← requireName config.name
  let identity ← requireSome config.identity (blame name ++ ": identity() is required")
  let fetch ← requireSome config.fetch (blame name ++ ": fetch() is required")
  validateCursor numberText config.cursor name
  let schema ← requireSchema name config.schema
  let schedule := config.schedule.getD defaultSchedule
  let minMs ← parseDuration numberText schedule.min (blame name ++ " schedule.min")
  let maxMs ← parseDuration numberText schedule.max (blame name ++ " schedule.max")
  require (!minMs.le (.finite 0)) (blame name ++ ": schedule.min must be > 0")
  require (!maxMs.lt minMs) (blame name ++ ": schedule.max must be >= schedule.min")
  let jitter ← requireJitter name (schedule.jitter.getD (.finite (1 / 10)))
  let concurrency ← requireInteger name "delivery.concurrency" config.delivery.concurrency 1
  let attempts ← requireInteger name "delivery.retry.attempts" config.delivery.attempts 5
  let schemaVersion ← requireInteger name "schemaVersion" config.schemaVersion 1
  let maxPagesPerCycle ← requireInteger name "maxPagesPerCycle" config.maxPagesPerCycle 50
  let circuitFailures ← requireInteger name "circuit.failures" config.circuit.failures 5
  let budgetWeight := config.budgetWeight.getD (.finite 1)
  require (Double.lt (.finite 0) budgetWeight) (blame name ++ ": budgetWeight must be > 0")
  let budgetCost := config.budgetCost.getD (.finite 1)
  require (Double.le (.finite 0) budgetCost) (blame name ++ ": budgetCost must be >= 0")
  require (!(config.reconcile.isSome && config.cursor.isSnapshotDiff))
    (blame name ++ ": reconcile is redundant with snapshotDiff (it already detects deletes)")
  require (config.reconcile.all fun r => r.fetch.isSome)
    (blame name ++ ": reconcile.fetch() is required")
  let scheduleBackoff ← resolveBackoff numberText schedule.backoff "1s" "10m" (blame name ++ " schedule")
  let partitionsRefreshMs ← parseDuration numberText
    (config.partitionsRefresh.getD (.text "5m")) (blame name ++ " partitionsRefresh")
  let retryBackoff ← resolveBackoff numberText config.delivery.backoff "1s" "2m"
    (blame name ++ " delivery.retry")
  let reconcile ← resolveReconcile numberText name config.reconcile (config.reconcile.bind (·.fetch))
  let probeEveryMs ← resolveProbe numberText name config.circuit.probeEvery maxMs
  let logRetentionMs ← resolveLog numberText name config.log
  return {
    name
    source := config.source.getD ("urn:watukuy:" ++ name)
    schema
    identity
    version := config.version
    fingerprint := config.fingerprint
    schemaVersion
    cursor := config.cursor
    fetch
    schedule :=
      { minMs, maxMs, adaptive := schedule.adaptive.getD true, jitter, backoff := scheduleBackoff }
    budget := config.budget
    budgetWeight
    budgetCost
    partitions := config.partitions
    partitionsRefreshMs
    delivery :=
      { orderingKey := config.delivery.orderingKey
        concurrency
        attempts
        backoff := retryBackoff
        poisonAction := config.delivery.poisonAction.getD .park
        poisonHoldKey := config.delivery.poisonHoldKey.getD true
        ackMode := config.delivery.ackMode.getD .auto }
    retain := config.retain.getD .hash
    reconcile
    onInvalid := config.onInvalid.getD .quarantine
    onSchemaChange := config.onSchemaChange.getD .rebaseline
    maxPagesPerCycle
    circuitFailures
    probeEveryMs
    logRetentionMs }

end Checks

/-! ## What the checks promise -/

section Promises

variable {Fn : Type} {numberText : ℚ → String}

/-- A duration that `parseDuration` accepts. -/
def Duration.Accepted (value : Duration) : Prop := ∃ q, value.Means q

/-- A cursor that `validateCursor` accepts. -/
def CursorInput.Accepted : CursorInput Fn → Prop
  | .timestamp field initial _ lag overlap =>
    (∃ f ∈ field, f ≠ "") ∧ initial.stringOrNull = true ∧ (∀ d ∈ lag, d.Accepted) ∧
      ∀ d ∈ overlap, d.Accepted
  | .token initial => initial.stringOrNull = true
  | .page initial => ∀ n ∈ initial, ∃ k : Nat, n = .finite k
  | .snapshotDiff => True
  | .custom advance => advance.isSome = true
  | .missing => False
  | .unknown _ => False

structure BackoffMs.Valid (b : BackoffMs) : Prop where
  base : Double.le (.finite 0) b.baseMs = true
  base_le_max : b.baseMs.le b.maxMs = true
  factor : Double.le (.finite 1) b.factor = true

structure PollerSettings.Valid (r : PollerSettings Fn) : Prop where
  name : isPollerName r.name = true
  cursor : r.cursor.Accepted
  schema : r.schema.all (·.standard) = true
  min_pos : Double.lt (.finite 0) r.schedule.minMs = true
  min_le_max : r.schedule.minMs.le r.schedule.maxMs = true
  jitter : 0 ≤ r.schedule.jitter ∧ r.schedule.jitter < 1
  concurrency : 1 ≤ r.delivery.concurrency
  attempts : 1 ≤ r.delivery.attempts
  schemaVersion : 1 ≤ r.schemaVersion
  maxPagesPerCycle : 1 ≤ r.maxPagesPerCycle
  circuitFailures : 1 ≤ r.circuitFailures
  budgetWeight : Double.lt (.finite 0) r.budgetWeight = true
  budgetCost : Double.le (.finite 0) r.budgetCost = true
  reconcile : ∀ c ∈ r.reconcile,
    Double.le (.finite 0) c.everyMs = true ∧ r.cursor.isSnapshotDiff = false
  scheduleBackoff : r.schedule.backoff.Valid
  retryBackoff : r.delivery.backoff.Valid
  partitionsRefreshMs : Double.le (.finite 0) r.partitionsRefreshMs = true
  probeEveryMs : Double.le (.finite 0) r.probeEveryMs = true
  logRetentionMs : ∀ ms ∈ r.logRetentionMs, Double.le (.finite 0) ms = true

/-! ### Single checks -/

theorem bind_ok_iff {α β : Type} {x : Except JsError α} {f : α → Except JsError β} {b : β} :
    (x >>= f) = .ok b ↔ ∃ a, x = .ok a ∧ f a = .ok b := by
  cases x with
  | error e => simp [bind, Except.bind]
  | ok a => simp [bind, Except.bind]

theorem require_ok_iff (ok : Bool) (message : String) (u : Unit) :
    require ok message = .ok u ↔ ok = true := by
  cases ok <;> simp [require]

theorem requireSome_ok_iff {α : Type} (value : Option α) (message : String) (a : α) :
    requireSome value message = .ok a ↔ value = some a := by
  cases value <;> simp [requireSome]

theorem wholeAtLeast_iff (n : Double) (least k : Nat) :
    wholeAtLeast n least = some k ↔ n = .finite k ∧ least ≤ k := by
  unfold wholeAtLeast
  cases hn : n.whole with
  | none =>
    simp only [reduceCtorEq, false_iff]
    rintro ⟨rfl, -⟩
    have hk : (Double.finite (k : ℚ)).whole = some (k : Int) :=
      Double.whole_eq_some.2 (by rw [Int.cast_natCast])
    rw [hk] at hn
    cases hn
  | some m =>
    obtain rfl := Double.whole_eq_some.1 hn
    simp only [Option.ite_none_right_eq_some, Option.some.injEq, Double.finite.injEq]
    constructor
    · rintro ⟨hle, rfl⟩
      refine ⟨?_, by omega⟩
      rw [← Int.cast_natCast, Int.toNat_of_nonneg (by omega)]
    · rintro ⟨hm, hle⟩
      have hcast : m = k := by exact_mod_cast hm
      subst hcast
      exact ⟨by exact_mod_cast hle, Int.toNat_natCast k⟩

theorem requireInteger_ok_iff (name field : String) (value : Option Double) (default k : Nat) :
    requireInteger name field value default = .ok k ↔ value.getD (.finite default) = .finite k ∧ 1 ≤ k := by
  rw [requireInteger, requireSome_ok_iff, wholeAtLeast_iff]

theorem checkDuration_ok_iff (value : Option Duration) (label : String) (u : Unit) :
    checkDuration numberText value label = .ok u ↔ ∀ d ∈ value, d.Accepted := by
  cases value with
  | none => simp [checkDuration]
  | some d =>
    simp only [checkDuration, Option.mem_some_iff, forall_eq', Duration.Accepted,
      ← parseDuration_ok_iff numberText d label]
    cases parseDuration numberText d label <;> simp [Except.map]

theorem validateCursor_ok_iff (cursor : CursorInput Fn) (name : String) (u : Unit) :
    validateCursor numberText cursor name = .ok u ↔ cursor.Accepted := by
  cases cursor with
  | timestamp field initial tieBreak lag overlap =>
    simp only [validateCursor, bind_ok_iff, require_ok_iff, checkDuration_ok_iff,
      CursorInput.Accepted, Option.any_eq_true, decide_eq_true_eq, exists_const]
    rfl
  | token initial => exact require_ok_iff _ _ u
  | page initial =>
    simp only [validateCursor, require_ok_iff, CursorInput.Accepted]
    cases initial with
    | none => simp
    | some n => simp [Option.isSome_iff_exists, wholeAtLeast_iff]
  | custom advance => exact require_ok_iff _ _ u
  | snapshotDiff => simp [validateCursor, CursorInput.Accepted]
  | _ => simp [validateCursor, CursorInput.Accepted]

theorem requireName_ok_iff (input : NameInput) (name : String) :
    requireName input = .ok name ↔ input = .string name ∧ isPollerName name = true := by
  cases input with
  | string s =>
    simp only [requireName, bind_ok_iff, require_ok_iff, exists_const, NameInput.string.injEq]
    constructor
    · rintro ⟨hname, hs⟩
      obtain rfl := Except.ok.inj hs
      exact ⟨rfl, hname⟩
    · rintro ⟨rfl, hname⟩
      exact ⟨hname, rfl⟩
  | other json => simp [requireName]

theorem requireJitter_ok_iff (name : String) (jitter : Double) (q : ℚ) :
    requireJitter name jitter = .ok q ↔ jitter = .finite q ∧ 0 ≤ q ∧ q < 1 := by
  cases jitter with
  | finite r =>
    simp only [requireJitter, Double.finite.injEq]
    constructor
    · intro h
      split at h
      · next hr =>
        obtain rfl := Except.ok.inj h
        exact ⟨rfl, hr⟩
      · cases h
    · rintro ⟨rfl, hr⟩
      rw [if_pos hr]
  | _ => simp [requireJitter]

theorem requireSchema_ok_iff (name : String) (schema : Option (SchemaInput Fn))
    (r : Option (StandardSchema Fn)) : requireSchema name schema = .ok r ↔
      schema = r.map .schema ∧ r.all (·.standard) = true := by
  cases schema with
  | none => cases r <;> simp [requireSchema]
  | some schema =>
    cases schema with
    | null => cases r <;> simp [requireSchema]
    | schema schema =>
      simp only [requireSchema, bind_ok_iff, require_ok_iff, exists_const]
      constructor
      · rintro ⟨hstandard, hr⟩
        obtain rfl := Except.ok.inj hr
        exact ⟨rfl, hstandard⟩
      · rintro ⟨heq, hstandard⟩
        cases r with
        | none => cases heq
        | some r =>
          obtain rfl := SchemaInput.schema.inj (Option.some.inj heq)
          exact ⟨hstandard, rfl⟩

/-- A duration that is not zero. -/
theorem pos_of_means {value : Duration} {ms : Double} (h : value.Means ms) :
    (!ms.le (.finite 0)) = true ↔ Double.lt (.finite 0) ms = true := by
  have hzero : Double.finite 0 ≠ .nan := by decide
  rw [Bool.not_eq_true', Double.le_eq_false (Double.ne_nan_of_le h.nonneg).2 hzero]

theorem le_of_means {value value' : Duration} {ms ms' : Double} (h : value.Means ms)
    (h' : value'.Means ms') : (!ms'.lt ms) = true ↔ ms.le ms' = true := by
  rw [Bool.not_eq_true', Double.lt_eq_false (Double.ne_nan_of_le h'.nonneg).2
    (Double.ne_nan_of_le h.nonneg).2]

theorem resolveBackoff_ok {cfg : Option BackoffInput} {base max label : String} {b : BackoffMs}
    (h : resolveBackoff numberText cfg base max label = .ok b) : b.Valid := by
  simp only [resolveBackoff, bind_ok_iff, require_ok_iff, parseDuration_ok_iff] at h
  obtain ⟨baseMs, hbase, maxMs, hmax, u, hfactor, u', hle, hb⟩ := h
  obtain rfl := Except.ok.inj hb
  exact ⟨hbase.nonneg, (le_of_means hbase hmax).1 hle, hfactor⟩

theorem resolveReconcile_ok {name : String} {reconcile : Option (ReconcileInput Fn)}
    {fetch : Option Fn} {c : Option (ReconcileMs Fn)}
    (h : resolveReconcile numberText name reconcile fetch = .ok c) :
    ∀ r ∈ c, Double.le (.finite 0) r.everyMs = true ∧ reconcile.isSome = true := by
  unfold resolveReconcile at h
  split at h
  · next r f =>
    cases hparse : parseDuration numberText r.every (blame name ++ " reconcile.every") with
    | error e =>
      rw [hparse] at h
      cases h
    | ok q =>
      rw [hparse] at h
      obtain rfl := Except.ok.inj h
      intro c hc
      obtain rfl := Option.mem_some_iff.1 hc
      exact ⟨((parseDuration_ok_iff _ _ _ _).1 hparse).nonneg, rfl⟩
  · obtain rfl := Except.ok.inj h
    intro c hc
    cases hc

theorem resolveProbe_ok {name : String} {probeEvery : Option Duration} {maxMs ms : Double}
    (hmax : Double.le (.finite 0) maxMs = true)
    (h : resolveProbe numberText name probeEvery maxMs = .ok ms) :
    Double.le (.finite 0) ms = true := by
  cases probeEvery with
  | none =>
    obtain rfl := Except.ok.inj h
    exact hmax
  | some d => exact ((parseDuration_ok_iff _ _ _ _).1 h).nonneg

theorem resolveLog_ok {name : String} {retention : Option Duration} {log : Option Double}
    (h : resolveLog numberText name retention = .ok log) :
    ∀ ms ∈ log, Double.le (.finite 0) ms = true := by
  cases retention with
  | none =>
    obtain rfl := Except.ok.inj h
    intro q hq
    cases hq
  | some d =>
    simp only [resolveLog] at h
    cases hparse : parseDuration numberText d (blame name ++ " log.retention") with
    | error e =>
      rw [hparse] at h
      cases h
    | ok r =>
      rw [hparse] at h
      obtain rfl := Except.ok.inj h
      intro q hq
      obtain rfl := Option.mem_some_iff.1 hq
      exact ((parseDuration_ok_iff _ _ _ _).1 hparse).nonneg

theorem resolvePoller_ok {config : PollerInput Fn} {r : PollerSettings Fn}
    (h : resolvePoller numberText config = .ok r) : r.Valid := by
  simp only [resolvePoller, bind_ok_iff, require_ok_iff, requireSome_ok_iff, requireName_ok_iff,
    requireInteger_ok_iff, requireJitter_ok_iff, validateCursor_ok_iff, parseDuration_ok_iff,
    requireSchema_ok_iff, exists_const] at h
  obtain ⟨name, ⟨-, hname⟩, identity, -, fetch, -, hcursor, schema, ⟨-, hschema⟩, minMs, hmin, maxMs,
    hmax, hpos, hle, jitter, ⟨-, hjitter⟩, concurrency, ⟨-, hconcurrency⟩, attempts, ⟨-, hattempts⟩,
    schemaVersion, ⟨-, hversion⟩, maxPages, ⟨-, hpages⟩, failures, ⟨-, hfailures⟩, hweight, hcost,
    hredundant, hfetch, backoff, hbackoff, refresh, hrefresh, retry, hretry, reconcile, hreconcile,
    probe, hprobe, log, hlog, hr⟩ := h
  obtain rfl := Except.ok.inj hr
  have hreconciled := resolveReconcile_ok hreconcile
  refine ⟨hname, hcursor, hschema, (pos_of_means hmin).1 hpos, (le_of_means hmin hmax).1 hle, hjitter,
    hconcurrency, hattempts, hversion, hpages, hfailures, hweight, hcost, ?_,
    resolveBackoff_ok hbackoff, resolveBackoff_ok hretry, hrefresh.nonneg,
    resolveProbe_ok hmax.nonneg hprobe, resolveLog_ok hlog⟩
  intro c hc
  obtain ⟨hevery, hsome⟩ := hreconciled c hc
  refine ⟨hevery, ?_⟩
  simpa [hsome] using hredundant

/-! ### Settings as a configuration -/

/-- A configuration that resolves to the settings. -/
def BackoffMs.input (b : BackoffMs) : BackoffInput where
  base := some (.ofMs b.baseMs)
  factor := some b.factor
  max := some (.ofMs b.maxMs)

def PollerSettings.input (r : PollerSettings Fn) : PollerInput Fn where
  name := .string r.name
  source := some r.source
  schema := r.schema.map .schema
  identity := some r.identity
  version := r.version
  fingerprint := r.fingerprint
  schemaVersion := some (.finite r.schemaVersion)
  cursor := r.cursor
  fetch := some r.fetch
  schedule := some
    { min := .ofMs r.schedule.minMs
      max := .ofMs r.schedule.maxMs
      adaptive := some r.schedule.adaptive
      jitter := some (.finite r.schedule.jitter)
      backoff := some r.schedule.backoff.input }
  budget := r.budget
  budgetWeight := some r.budgetWeight
  budgetCost := some r.budgetCost
  partitions := r.partitions
  partitionsRefresh := some (.ofMs r.partitionsRefreshMs)
  delivery :=
    { orderingKey := r.delivery.orderingKey
      concurrency := some (.finite r.delivery.concurrency)
      attempts := some (.finite r.delivery.attempts)
      backoff := some r.delivery.backoff.input
      poisonAction := some r.delivery.poisonAction
      poisonHoldKey := some r.delivery.poisonHoldKey
      ackMode := some r.delivery.ackMode }
  retain := some r.retain
  reconcile := r.reconcile.map fun c => { every := .ofMs c.everyMs, fetch := some c.fetch }
  onInvalid := some r.onInvalid
  onSchemaChange := some r.onSchemaChange
  maxPagesPerCycle := some (.finite r.maxPagesPerCycle)
  circuit :=
    { failures := some (.finite r.circuitFailures)
      probeEvery := some (.ofMs r.probeEveryMs) }
  log := r.logRetentionMs.map .ofMs

theorem BackoffMs.Valid.max_nonneg {b : BackoffMs} (h : b.Valid) :
    Double.le (.finite 0) b.maxMs = true := Double.le_trans h.base h.base_le_max

theorem resolveBackoff_input {b : BackoffMs} (h : b.Valid) (base max label : String) :
    resolveBackoff numberText (some b.input) base max label = .ok b := by
  have hbase := Duration.means_ofMs h.base
  have hmax := Duration.means_ofMs h.max_nonneg
  simp only [resolveBackoff, bind_ok_iff, require_ok_iff, parseDuration_ok_iff]
  exact ⟨b.baseMs, hbase, b.maxMs, hmax, (), h.factor, (), (le_of_means hbase hmax).2 h.base_le_max,
    rfl⟩

/-- Valid settings come of a configuration. -/
theorem resolvePoller_input {r : PollerSettings Fn} (h : r.Valid) :
    resolvePoller numberText r.input = .ok r := by
  simp only [resolvePoller, bind_ok_iff, require_ok_iff, requireSome_ok_iff, requireName_ok_iff,
    requireInteger_ok_iff, requireJitter_ok_iff, validateCursor_ok_iff, parseDuration_ok_iff,
    requireSchema_ok_iff, exists_const]
  have hmin_nonneg := Double.le_iff.2 (Or.inl h.min_pos)
  have hmin := Duration.means_ofMs hmin_nonneg
  have hmax := Duration.means_ofMs (Double.le_trans hmin_nonneg h.min_le_max)
  refine ⟨r.name, ⟨rfl, h.name⟩, r.identity, rfl, r.fetch, rfl, h.cursor, r.schema,
    ⟨rfl, h.schema⟩, r.schedule.minMs, hmin, r.schedule.maxMs, hmax, (pos_of_means hmin).2 h.min_pos,
    (le_of_means hmin hmax).2 h.min_le_max, r.schedule.jitter,
    ⟨rfl, h.jitter⟩, r.delivery.concurrency, ⟨rfl, h.concurrency⟩, r.delivery.attempts,
    ⟨rfl, h.attempts⟩, r.schemaVersion, ⟨rfl, h.schemaVersion⟩, r.maxPagesPerCycle,
    ⟨rfl, h.maxPagesPerCycle⟩, r.circuitFailures, ⟨rfl, h.circuitFailures⟩, h.budgetWeight,
    h.budgetCost, ?_, ?_, r.schedule.backoff, resolveBackoff_input h.scheduleBackoff _ _ _,
    r.partitionsRefreshMs, Duration.means_ofMs h.partitionsRefreshMs, r.delivery.backoff,
    resolveBackoff_input h.retryBackoff _ _ _, r.reconcile, ?_, r.probeEveryMs, ?_,
    r.logRetentionMs, ?_, rfl⟩
  · cases hr : r.reconcile with
    | none => simp [PollerSettings.input, hr]
    | some c => simp [PollerSettings.input, hr, (h.reconcile c hr).2]
  · cases hr : r.reconcile <;> simp [PollerSettings.input, hr]
  · cases hr : r.reconcile with
    | none => simp [PollerSettings.input, hr, resolveReconcile]
    | some c =>
      have hparse := (parseDuration_ok_iff numberText _ (blame r.name ++ " reconcile.every") _).2
        (Duration.means_ofMs (h.reconcile c hr).1)
      simp [PollerSettings.input, hr, resolveReconcile, hparse, Except.map]
  · exact (parseDuration_ok_iff _ _ _ _).2 (Duration.means_ofMs h.probeEveryMs)
  · cases hlog : r.logRetentionMs with
    | none => simp [PollerSettings.input, hlog, resolveLog]
    | some ms =>
      have hparse := (parseDuration_ok_iff numberText _ (blame r.name ++ " log.retention") _).2
        (Duration.means_ofMs (h.logRetentionMs ms hlog))
      simp [PollerSettings.input, hlog, resolveLog, hparse, Except.map]

/-! ### The settings of the scheduler -/

def BackoffMs.scheduler (b : BackoffMs) : Option Backoff := do
  let baseMs ← b.baseMs.whole
  let maxMs ← b.maxMs.whole
  return { baseMs, factor := b.factor, maxMs }

/-- The part of the settings that the scheduler reads, if its durations are whole milliseconds. -/
def PollerSettings.scheduler (r : PollerSettings Fn) : Option SchedulerConfig := do
  let minMs ← r.schedule.minMs.whole
  let maxMs ← r.schedule.maxMs.whole
  let backoff ← r.schedule.backoff.scheduler
  let probeEveryMs ← r.probeEveryMs.whole
  return {
    schedule :=
      { minMs, maxMs, adaptive := r.schedule.adaptive, jitter := r.schedule.jitter, backoff }
    circuit := { failures := r.circuitFailures, probeEveryMs } }

theorem whole_pos {x : Double} {n : Int} (h : x.whole = some n)
    (hpos : Double.lt (.finite 0) x = true) : 1 ≤ n := by
  obtain rfl := Double.whole_eq_some.1 h
  simp only [Double.lt, decide_eq_true_eq] at hpos
  exact_mod_cast hpos

theorem whole_le {x y : Double} {n m : Int} (hx : x.whole = some n) (hy : y.whole = some m)
    (hle : x.le y = true) : n ≤ m := by
  obtain rfl := Double.whole_eq_some.1 hx
  obtain rfl := Double.whole_eq_some.1 hy
  rcases Double.le_iff.1 hle with hlt | ⟨heq, -⟩
  · simp only [Double.lt, decide_eq_true_eq] at hlt
    exact_mod_cast hlt.le
  · exact le_of_eq (by exact_mod_cast Double.finite.inj heq)

/-- The scheduler gets what it relies on, and a factor that is a number. -/
theorem scheduler_valid {r : PollerSettings Fn} (h : r.Valid) {cfg : SchedulerConfig}
    (hcfg : r.scheduler = some cfg) : cfg.Valid ∧ cfg.schedule.backoff.factor ≠ .nan := by
  simp only [PollerSettings.scheduler, BackoffMs.scheduler, Option.bind_eq_bind,
    Option.bind_eq_some_iff, Option.pure_def, Option.some.injEq] at hcfg
  obtain ⟨minMs, hmin, maxMs, hmax, backoff, ⟨baseMs, -, maxBackoffMs, -, rfl⟩, probeEveryMs, hprobe,
    rfl⟩ := hcfg
  have hprobe' : (0 : Int) ≤ probeEveryMs := whole_le (x := .finite 0) rfl hprobe h.probeEveryMs
  exact ⟨⟨whole_pos hmin h.min_pos, whole_le hmin hmax h.min_le_max, h.circuitFailures, hprobe'⟩,
    (Double.ne_nan_of_le h.scheduleBackoff.factor).2⟩

/-! ### Errors -/

/-- Every error is a `ConfigError` whose message begins with a text, or the `TypeError` of a schema that
is `null`. -/
def Blames {α : Type} (null : Prop) (text : String) (x : Except JsError α) : Prop :=
  ∀ e, x = .error e →
    (null ∧ e = nullSchemaError) ∨ (e.kind = .config ∧ text.toList <+: e.message.toList)

variable {null : Prop}

theorem Blames.ok {α : Type} (text : String) (a : α) : Blames null text (.ok a) := by
  intro e h
  cases h

theorem Blames.config {α : Type} {text message : String} (h : text.toList <+: message.toList) :
    Blames null text (.error (configError message) : Except JsError α) := by
  intro e he
  obtain rfl := Except.error.inj he
  exact Or.inr ⟨rfl, h⟩

theorem Blames.bind {α β : Type} {text : String} {x : Except JsError α} {f : α → Except JsError β}
    (hx : Blames null text x) (hf : ∀ a, Blames null text (f a)) : Blames null text (x >>= f) := by
  cases x with
  | error e =>
    intro e' h
    exact hx e' (by simpa [Bind.bind, Except.bind] using h)
  | ok a => exact hf a

theorem Blames.map {α β : Type} {text : String} {x : Except JsError α} (hx : Blames null text x)
    (f : α → β) : Blames null text (x.map f) := by
  cases x with
  | error e =>
    intro e' h
    exact hx e' (by simpa [Except.map] using h)
  | ok a => exact Blames.ok text (f a)

/-- A message that goes on after the text. -/
theorem starts (text : String) {rest : List Char} {message : String}
    (h : message.toList = text.toList ++ rest) : text.toList <+: message.toList := by
  rw [h]
  exact List.prefix_append _ _

theorem blames_require {text message : String} (ok : Bool) (h : text.toList <+: message.toList) :
    Blames null text (require ok message) := by
  cases ok with
  | true => exact Blames.ok text ()
  | false => exact Blames.config h

theorem blames_requireSome {α : Type} {text message : String} (value : Option α)
    (h : text.toList <+: message.toList) : Blames null text (requireSome value message) := by
  cases value with
  | some a => exact Blames.ok text a
  | none => exact Blames.config h

theorem blames_parseDuration {text label : String} (value : Duration)
    (h : text.toList <+: label.toList) : Blames null text (parseDuration numberText value label) := by
  have hlabel : ∀ rest, text.toList <+: (label ++ rest).toList := by
    intro rest
    rw [String.toList_append]
    exact h.trans (List.prefix_append _ _)
  unfold parseDuration
  cases value with
  | number n =>
    dsimp only
    cases n with
    | finite q =>
      dsimp only
      split
      · exact Blames.config (by rw [String.append_assoc]; exact hlabel _)
      · exact Blames.ok text _
    | _ => exact Blames.config (by rw [String.append_assoc]; exact hlabel _)
  | text s =>
    dsimp only
    split
    · exact Blames.ok text _
    · exact Blames.config (by rw [String.append_assoc]; exact hlabel _)

theorem blame_starts (name rest : String) : (blame name).toList <+: (blame name ++ rest).toList := by
  rw [String.toList_append]
  exact List.prefix_append _ _

theorem blame_starts' (name rest rest' : String) :
    (blame name).toList <+: (blame name ++ rest ++ rest').toList := by
  rw [String.append_assoc]
  exact blame_starts name _

theorem blames_backoff (cfg : Option BackoffInput) (base max name rest : String) :
    Blames null (blame name) (resolveBackoff numberText cfg base max (blame name ++ rest)) := by
  unfold resolveBackoff
  refine Blames.bind (blames_parseDuration _ (blame_starts' name _ _)) fun baseMs => ?_
  refine Blames.bind (blames_parseDuration _ (blame_starts' name _ _)) fun maxMs => ?_
  refine Blames.bind (blames_require _ (blame_starts' name _ _)) fun _ => ?_
  refine Blames.bind (blames_require _ (blame_starts' name _ _)) fun _ => ?_
  exact Blames.ok _ _

theorem blames_checkDuration (value : Option Duration) {text label : String}
    (h : text.toList <+: label.toList) : Blames null text (checkDuration numberText value label) := by
  cases value with
  | none => exact Blames.ok text ()
  | some d => exact (blames_parseDuration d h).map _

theorem blames_cursor (cursor : CursorInput Fn) (name : String) :
    Blames null (blame name) (validateCursor numberText cursor name) := by
  cases cursor with
  | missing => exact Blames.config (blame_starts name _)
  | timestamp field initial tieBreak lag overlap =>
    refine Blames.bind (blames_require _ (blame_starts name _)) fun _ => ?_
    refine Blames.bind (blames_require _ (blame_starts name _)) fun _ => ?_
    refine Blames.bind (blames_checkDuration lag (blame_starts name _)) fun _ => ?_
    exact blames_checkDuration overlap (blame_starts name _)
  | token initial => exact blames_require _ (blame_starts name _)
  | page initial => exact blames_require _ (blame_starts name _)
  | snapshotDiff => exact Blames.ok _ ()
  | custom advance => exact blames_require _ (blame_starts name _)
  | unknown json => exact Blames.config (blame_starts' name _ _)

theorem blames_schema (name : String) (schema : Option (SchemaInput Fn)) :
    Blames (schema = some .null) (blame name) (requireSchema name schema) := by
  cases schema with
  | none => exact Blames.ok _ none
  | some schema =>
    cases schema with
    | null =>
      intro e h
      exact Or.inl ⟨rfl, (Except.error.inj h).symm⟩
    | schema schema =>
      exact Blames.bind (blames_require _ (blame_starts name _)) fun _ => Blames.ok _ _

theorem blames_jitter (name : String) (jitter : Double) :
    Blames null (blame name) (requireJitter name jitter) := by
  unfold requireJitter
  split
  · split
    · exact Blames.ok _ _
    · exact Blames.config (blame_starts name _)
  · exact Blames.config (blame_starts name _)

theorem blames_integer (name field : String) (value : Option Double) (default : Nat) :
    Blames null (blame name) (requireInteger name field value default) := by
  apply blames_requireSome
  rw [String.append_assoc, String.append_assoc]
  exact blame_starts name _

theorem blames_reconcile (name : String) (reconcile : Option (ReconcileInput Fn))
    (fetch : Option Fn) :
    Blames null (blame name) (resolveReconcile numberText name reconcile fetch) := by
  unfold resolveReconcile
  split
  · exact (blames_parseDuration _ (blame_starts name _)).map _
  · exact Blames.ok _ _

theorem blames_probe (name : String) (probeEvery : Option Duration) (maxMs : Double) :
    Blames null (blame name) (resolveProbe numberText name probeEvery maxMs) := by
  unfold resolveProbe
  split
  · exact blames_parseDuration _ (blame_starts name _)
  · exact Blames.ok _ _

theorem blames_log (name : String) (retention : Option Duration) :
    Blames null (blame name) (resolveLog numberText name retention) := by
  unfold resolveLog
  split
  · exact (blames_parseDuration _ (blame_starts name _)).map _
  · exact Blames.ok _ _

/-- The name is a string that names a poller. -/
def NameInput.Named (input : NameInput) (name : String) : Prop :=
  input = .string name ∧ isPollerName name = true

theorem requireName_error {input : NameInput} (h : ∀ name, ¬input.Named name) :
    Blames False "poller name must match" (requireName input) ∧
      ∀ name, requireName input ≠ .ok name := by
  have hleading : ∀ json, "poller name must match".toList <+: (requireName.nameError json).toList := by
    intro json
    exact starts "poller name must match" String.toList_append
  constructor
  · cases input with
    | string s =>
      rw [requireName]
      exact Blames.bind (blames_require _ (hleading _)) fun _ => Blames.ok _ _
    | other json => exact Blames.config (hleading json)
  · intro name hok
    exact h name ((requireName_ok_iff input name).1 hok)

theorem resolvePoller_blames {config : PollerInput Fn} {name : String}
    (h : config.name.Named name) :
    Blames (config.schema = some .null) (blame name) (resolvePoller numberText config) := by
  have hname : requireName config.name = .ok name := (requireName_ok_iff config.name name).2 h
  unfold resolvePoller
  rw [hname]
  show Blames _ (blame name) (Except.bind (.ok name) _)
  simp only [Except.bind]
  refine Blames.bind (blames_requireSome _ (blame_starts name _)) fun identity => ?_
  refine Blames.bind (blames_requireSome _ (blame_starts name _)) fun fetch => ?_
  refine Blames.bind (blames_cursor _ name) fun _ => ?_
  refine Blames.bind (blames_schema name _) fun schema => ?_
  refine Blames.bind (blames_parseDuration _ (blame_starts name _)) fun minMs => ?_
  refine Blames.bind (blames_parseDuration _ (blame_starts name _)) fun maxMs => ?_
  refine Blames.bind (blames_require _ (blame_starts name _)) fun _ => ?_
  refine Blames.bind (blames_require _ (blame_starts name _)) fun _ => ?_
  refine Blames.bind (blames_jitter name _) fun jitter => ?_
  refine Blames.bind (blames_integer name _ _ _) fun concurrency => ?_
  refine Blames.bind (blames_integer name _ _ _) fun attempts => ?_
  refine Blames.bind (blames_integer name _ _ _) fun schemaVersion => ?_
  refine Blames.bind (blames_integer name _ _ _) fun maxPagesPerCycle => ?_
  refine Blames.bind (blames_integer name _ _ _) fun circuitFailures => ?_
  refine Blames.bind (blames_require _ (blame_starts name _)) fun _ => ?_
  refine Blames.bind (blames_require _ (blame_starts name _)) fun _ => ?_
  refine Blames.bind (blames_require _ (blame_starts name _)) fun _ => ?_
  refine Blames.bind (blames_require _ (blame_starts name _)) fun _ => ?_
  refine Blames.bind (blames_backoff _ _ _ name _) fun scheduleBackoff => ?_
  refine Blames.bind (blames_parseDuration _ (blame_starts name _)) fun partitionsRefreshMs => ?_
  refine Blames.bind (blames_backoff _ _ _ name _) fun retryBackoff => ?_
  refine Blames.bind (blames_reconcile name _ _) fun reconcile => ?_
  refine Blames.bind (blames_probe name _ _) fun probeEveryMs => ?_
  refine Blames.bind (blames_log name _) fun logRetentionMs => ?_
  exact Blames.ok _ _

end Promises

end Watukuy
