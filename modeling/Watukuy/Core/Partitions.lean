import Watukuy.Stores.MemoryStore

/-!
# Partitions

`refreshPartitions`, `pause` and `resume` of `core/engine.ts` for one partitioned poller, as steps
between awaits: any number of such calls may be under way at once, between the store calls of runs
and other operations. A refresh pauses the partitions of the engine's list that the new list lacks.
A partition's `data` is handed to `fetch` and otherwise unused, so a partition is its key.

A restart of the engine forgets its list and the calls under way; the store stays.
-/

set_option autoImplicit false

namespace Watukuy

open Library

variable {ι : Type}

/-- How `partitions()` ends. An entry without a string key is `none`. -/
inductive PartitionsAnswer
  | failed
  | notArray
  | array (entries : List (Option String))

/-- A public call that refreshes the partitions first. -/
inductive PartitionCall
  | refresh (force : Bool)
  | pause (partition : String)
  | resume (partition : String)

inductive PartitionPhase
  /-- `refreshPartitions` waits for `partitions()`; it began at `now`. -/
  | listing (now : Int)
  /-- It has to pause the partitions `gone`, then keeps `list`. -/
  | removing (now : Int) (gone list : List String)
  /-- It has returned. -/
  | refreshed

structure PartitionTask where
  call : PartitionCall
  phase : PartitionPhase

structure PartitionConfig where
  poller : String
  partitionsRefreshMs : Int

structure PartitionSystem (ι : Type) where
  clock : Int
  /-- The records of the partitions. -/
  store : String → KeyRecord ι
  /-- `rt.partitions`. -/
  partitions : List String := []
  partitionsLoadedAt : Option Int := none
  nextDue : OrderedMap String Int := OrderedMap.empty
  tasks : List PartitionTask := []

/-- What happens to the partitions, as seen from outside. -/
inductive PartitionLabel
  /-- A refresh paused a partition of the engine's list that the new list lacks. -/
  | removed (partition : String)
  | paused (partition : String)
  | resumed (partition : String)
  /-- A refresh ended; this is the engine's list. -/
  | refreshed (list : List String)
  deriving DecidableEq

/-- How a store call ends. -/
inductive StoreOutcome
  | ok
  | failBefore
  | failAfter
  deriving DecidableEq

/-- The flag in the store. -/
def KeyRecord.paused (rec : KeyRecord ι) : Bool := rec.state.any (·.paused)

/-- The call leaves the flag as it is: any call but `deleteKey` and the saves of the flag. -/
def StoreOp.keepsPaused : StoreOp ι → Bool
  | .saveState _ patch => patch.paused.isNone
  | .saveStateUnfenced patch => patch.paused.isNone
  | .commitPoll _ batch => batch.statePatch.paused.isNone
  | .deleteKey => false
  | _ => true

namespace PartitionConfig

variable (cfg : PartitionConfig)

def partitionError (message : String) : JsError where
  kind := .config
  name := "ConfigError"
  message := "poller '" ++ cfg.poller ++ "': " ++ message

/-- The checks of a list, with the keys seen so far. -/
def checkList : List (Option String) → List String → Except JsError (List String)
  | [], seen => .ok seen
  | none :: _, _ =>
    .error (cfg.partitionError "every partition needs a non-empty string key")
  | some key :: entries, seen =>
    if key.length = 0 then
      .error (cfg.partitionError "every partition needs a non-empty string key")
    else if key ∈ seen then
      .error (cfg.partitionError ("duplicate partition key '" ++ key ++ "'"))
    else checkList entries (seen ++ [key])

end PartitionConfig

namespace PartitionSystem

variable (cfg : PartitionConfig)

/-- `saveStateUnfenced` of the flag. -/
def savePaused (s : PartitionSystem ι) (partition : String) (paused : Bool) (updatedAt : Int) :
    PartitionSystem ι :=
  { s with
    store := Function.update s.store partition
      ((s.store partition).applyPatch { paused := some paused, updatedAt := some updatedAt }) }

/-- The end of `refreshPartitions`: the new list is kept, and what is new on it is due. -/
def keepList (s : PartitionSystem ι) (now : Int) (list : List String) : PartitionSystem ι :=
  { s with
    nextDue := list.foldl (fun due key => if (due.get key).isSome then due else due.set key now)
      s.nextDue
    partitions := list
    partitionsLoadedAt := some now }

/-- `refreshPartitions` up to its first wait. -/
def beginRefresh (s : PartitionSystem ι) (force : Bool) : PartitionPhase :=
  if !force && s.partitionsLoadedAt.any fun t => s.clock - t < cfg.partitionsRefreshMs then
    .refreshed
  else .listing s.clock

/-- `refreshPartitions` past a wait, with the partitions that are still to be paused. -/
def goOn (s : PartitionSystem ι) (now : Int) (list : List String) :
    List String → PartitionSystem ι × PartitionPhase × List PartitionLabel
  | [] => (s.keepList now list, .refreshed, [.refreshed list])
  | gone => (s, .removing now gone list, [])

def setPhase (s : PartitionSystem ι) (i : Nat) (phase : PartitionPhase) : PartitionSystem ι :=
  { s with tasks := s.tasks.modify i fun task => { task with phase } }

/-- The call has settled. -/
def drop (s : PartitionSystem ι) (i : Nat) : PartitionSystem ι :=
  { s with tasks := s.tasks.eraseIdx i }

/-- `goOn` for the task `i`. -/
def advance (s : PartitionSystem ι) (i : Nat) (now : Int) (list gone : List String) :
    PartitionSystem ι × List PartitionLabel :=
  let (s, phase, labels) := s.goOn now list gone
  (s.setPhase i phase, labels)

end PartitionSystem

/-! ## Steps -/

inductive PartitionEvent (ι : Type)
  | call (call : PartitionCall)
  /-- `partitions()` settles for a task. -/
  | answer (task : Nat) (answer : PartitionsAnswer)
  /-- A task pauses the next partition that is gone. -/
  | remove (task : Nat) (outcome : StoreOutcome)
  /-- A task whose refresh has returned goes on. -/
  | finish (task : Nat) (outcome : StoreOutcome)
  /-- A store call of a run, or of another operation. -/
  | store (partition : String) (op : StoreOp ι)
  | restart
  | tick (ms : Nat)

namespace PartitionSystem

variable (cfg : PartitionConfig)

/-- `partitions()` settles for the task `i`. -/
def onAnswer (s : PartitionSystem ι) (i : Nat) (now : Int) :
    PartitionsAnswer → PartitionSystem ι × List PartitionLabel
  | .failed => (s.setPhase i .refreshed, [.refreshed s.partitions])
  | .notArray => (s.drop i, [])
  | .array entries =>
    match cfg.checkList entries [] with
    | .error _ => (s.drop i, [])
    | .ok list => s.advance i now list (s.partitions.filter fun old => old ∉ list)

/-- A save of the flag by the task `i`, which goes on with `next` unless the call rejects. -/
def onSave (s : PartitionSystem ι) (i : Nat) (partition : String) (paused : Bool) (updatedAt : Int)
    (label : PartitionLabel)
    (next : PartitionSystem ι → PartitionSystem ι × List PartitionLabel) :
    StoreOutcome → PartitionSystem ι × List PartitionLabel
  | .failBefore => (s.drop i, [])
  | .failAfter => ((s.savePaused partition paused updatedAt).drop i, [label])
  | .ok =>
    let (s', labels) := next (s.savePaused partition paused updatedAt)
    (s', label :: labels)

/-- The rest of a call once its refresh has returned. -/
def onFinish (s : PartitionSystem ι) (i : Nat) (outcome : StoreOutcome) :
    PartitionCall → PartitionSystem ι × List PartitionLabel
  | .refresh _ => (s.drop i, [])
  | .pause partition =>
    s.onSave i partition true s.clock (.paused partition) (fun s => (s.drop i, [])) outcome
  | .resume partition =>
    s.onSave i partition false s.clock (.resumed partition)
      (fun s => ({ s with nextDue := s.nextDue.set partition s.clock }.drop i, [])) outcome

/-- One step with its labels; `none` when the event cannot happen. -/
def step (s : PartitionSystem ι) :
    PartitionEvent ι → Option (PartitionSystem ι × List PartitionLabel)
  | .call call =>
    let force := match call with
      | .refresh force => force
      | _ => false
    some ({ s with tasks := s.tasks ++ [{ call, phase := s.beginRefresh cfg force }] }, [])
  | .answer i answer =>
    match s.tasks[i]? with
    | some { phase := .listing now, .. } => some (s.onAnswer cfg i now answer)
    | _ => none
  | .remove i outcome =>
    match s.tasks[i]? with
    | some { phase := .removing now (key :: gone) list, .. } =>
      some (s.onSave i key true now (.removed key)
        (fun s => { s with nextDue := s.nextDue.erase key }.advance i now list gone) outcome)
    | _ => none
  | .finish i outcome =>
    match s.tasks[i]? with
    | some { call, phase := .refreshed } => some (s.onFinish i outcome call)
    | _ => none
  | .store partition op =>
    if op.keepsPaused then
      some ({ s with
        store := Function.update s.store partition (op.run (s.store partition)).2 }, [])
    else none
  | .restart => some ({ clock := s.clock, store := s.store }, [])
  | .tick ms => some ({ s with clock := s.clock + ms }, [])

/-- A run with the labels it has shown. -/
def run (s : PartitionSystem ι) :
    List (PartitionEvent ι) → Option (PartitionSystem ι × List PartitionLabel)
  | [] => some (s, [])
  | e :: events =>
    (s.step cfg e).bind fun r => (r.1.run events).map fun r' => (r'.1, r.2 ++ r'.2)

/-- An engine that has not listed its partitions yet, over a store without rows. -/
def fresh (clock : Int) : PartitionSystem ι where
  clock := clock
  store partition := .fresh { poller := cfg.poller, partition }

end PartitionSystem

end Watukuy
