import Watukuy.Core.Poller
import Watukuy.Core.Hash

/-!
# Change detection

`diff/diff.ts`: the candidates of a page, the changes against the stored rows, the deletes of a
full scan.
-/

set_option autoImplicit false

namespace Watukuy

open Library

variable {ι : Type}

structure DiffCandidate (ι : Type) where
  identity : String
  item : ι
  version : Option String
  hash : String

/-- A detected change; `deleted` comes from `detectDeletes`. -/
structure Change (ι : Type) where
  type : EventType
  identity : String
  item : ι
  previous : Option ι
  version : Option String
  hash : String

structure DiffResult (ι : Type) where
  changes : List (Change ι) := []
  upserts : List (ItemRow ι) := []
  unchanged : List String := []
  rebaselined : List String := []

/-- `identityOf`: numbers become text, anything else but a string is refused. -/
def identityOf (poller : ResolvedPoller ι) (item : ι) : Except JsError String :=
  match poller.identity item with
  | .string s => .ok s
  | .number text => .ok text
  | .bigint text => .ok text
  | .other typeName =>
    .error
      { kind := .plain
        name := "TypeError"
        message := "poller '" ++ poller.name ++ "': identity() must return a string, got " ++
          typeName }

/-- `fingerprintOf`. -/
def fingerprintOf (crypto : Crypto) (poller : ResolvedPoller ι) (item : ι) :
    Except JsError String :=
  (poller.canonical item).map crypto.sha256Hex

/-- The last item of each identity, at the place of the first. -/
def latestItems (poller : ResolvedPoller ι) (items : List ι) :
    Except JsError (OrderedMap String ι) :=
  items.foldlM (fun m item => do return m.set (← identityOf poller item) item) OrderedMap.empty

/-- The version fast path: version and schema version of the stored row still hold. -/
def fastPath (poller : ResolvedPoller ι) (version : Option String) :
    Option (ItemRow ι) → Bool
  | some row =>
    version.isSome && row.version == version && row.schemaVersion == poller.schemaVersion
  | none => false

/-- The loop of `prepareCandidates` over the latest items. -/
def candidatesOf (crypto : Crypto) (poller : ResolvedPoller ι)
    (existing : OrderedMap String (ItemRow ι)) :
    List (String × ι) → Except JsError (List (DiffCandidate ι) × List String)
  | [] => .ok ([], [])
  | (identity, item) :: rest => do
    let version := poller.version.map fun f => f item
    if fastPath poller version (existing.get identity) then
      let (candidates, unchanged) ← candidatesOf crypto poller existing rest
      return (candidates, identity :: unchanged)
    else
      let hash ← fingerprintOf crypto poller item
      let (candidates, unchanged) ← candidatesOf crypto poller existing rest
      return ({ identity, item, version, hash } :: candidates, unchanged)

def prepareCandidates (crypto : Crypto) (poller : ResolvedPoller ι) (items : List ι)
    (existing : OrderedMap String (ItemRow ι)) :
    Except JsError (List (DiffCandidate ι) × List String) := do
  let latest ← latestItems poller items
  candidatesOf crypto poller existing latest.entries

def rowFor (poller : ResolvedPoller ι) (c : DiffCandidate ι) (now : Int) : ItemRow ι where
  identity := c.identity
  version := c.version
  hash := c.hash
  schemaVersion := poller.schemaVersion
  payload := if poller.retain = .payload then some c.item else none
  seenAt := now

/-- What one candidate adds to the result. -/
def diffCandidate (poller : ResolvedPoller ι) (existing : OrderedMap String (ItemRow ι))
    (now : Int) (touchUnchanged : Bool) (c : DiffCandidate ι) : DiffResult ι :=
  match existing.get c.identity with
  | none =>
    { changes := [{ type := .created, identity := c.identity, item := c.item, previous := none,
                    version := c.version, hash := c.hash }]
      upserts := [rowFor poller c now] }
  | some row =>
    let drifted := row.schemaVersion ≠ poller.schemaVersion
    if drifted ∧ poller.onSchemaChange = .rebaseline then
      { upserts := [rowFor poller c now], rebaselined := [c.identity] }
    else if row.hash ≠ c.hash then
      { changes := [{ type := .updated, identity := c.identity, item := c.item,
                      previous := if poller.retain = .payload then row.payload else none,
                      version := c.version, hash := c.hash }]
        upserts := [rowFor poller c now] }
    else if drifted then
      { upserts := [rowFor poller c now], rebaselined := [c.identity] }
    else
      { upserts := if touchUnchanged ∨ row.version ≠ c.version then [rowFor poller c now] else []
        unchanged := [c.identity] }

def DiffResult.append (a b : DiffResult ι) : DiffResult ι where
  changes := a.changes ++ b.changes
  upserts := a.upserts ++ b.upserts
  unchanged := a.unchanged ++ b.unchanged
  rebaselined := a.rebaselined ++ b.rebaselined

def diffCandidates (poller : ResolvedPoller ι) (existing : OrderedMap String (ItemRow ι))
    (now : Int) (touchUnchanged : Bool) : List (DiffCandidate ι) → DiffResult ι
  | [] => {}
  | c :: rest =>
    (diffCandidate poller existing now touchUnchanged c).append
      (diffCandidates poller existing now touchUnchanged rest)

/-- Stored identities that were not seen. -/
def detectDeletes (existing : List String) (seen : List IdentityValue) : List String :=
  sortStrings (existing.filter fun identity => .string identity ∉ seen)

theorem mem_detectDeletes {existing : List String} {seen : List IdentityValue} {id : String} :
    id ∈ detectDeletes existing seen ↔ id ∈ existing ∧ .string id ∉ seen := by
  rw [detectDeletes, mem_sortStrings, List.mem_filter, decide_eq_true_iff]

theorem nodup_detectDeletes {existing : List String} (h : existing.Nodup)
    (seen : List IdentityValue) : (detectDeletes existing seen).Nodup :=
  nodup_sortStrings (h.filter _)

end Watukuy
