import Watukuy.Library.Keyspace
import Watukuy.Stores.Selects
import Watukuy.Diff.Canonicalize

/-!
# The memory store over all keys

`stores/memory/memory-store.ts` keeps one record for each key, in a map under the text of the key. The
calls of leases, the fenced writes and `saveStateUnfenced` make the record (`record`). Any other call,
`clearItems`, `retryParked`, `discardParked` and `pruneLog` among them, only looks for it (`peek`).
Methods are atomic, so any interleaving of the calls of any number of clients is a list of calls.
-/

set_option autoImplicit false

namespace Watukuy

open Library

variable {ι : Type}

namespace MemoryStore

/-! ## Names -/

/-- `id`: `JSON.stringify([key.poller, key.partition])`. -/
def id (key : PKey) : String :=
  "[" ++ quote key.poller ++ "," ++ quote key.partition ++ "]"

/-- The reading of a text of two strings. -/
def readId (text : String) : Option PKey :=
  match text.toList with
  | '[' :: rest =>
    match readQuoted rest with
    | some (poller, ',' :: rest) =>
      match readQuoted rest with
      | some (partition, [']']) => some { poller, partition }
      | _ => none
    | _ => none
  | _ => none

theorem readId_id (key : PKey) : readId (id key) = some key := by
  have htext : (id key).toList =
      '[' :: ((quote key.poller).toList ++ (',' :: ((quote key.partition).toList ++ [']']))) := by
    simp [id]
  simp only [readId, htext, readQuoted_quote]

theorem id_injective : Function.Injective id := by
  intro key other h
  have hread := congrArg readId h
  rw [readId_id, readId_id] at hread
  exact Option.some.inj hread

/-! ## Methods -/

/-- How a method gets its record: by `record`, by `peek` or not at all. -/
def touch : TableOp ι → Touch
  | .call (.lease _) => .makes
  | .call (.saveStateUnfenced _) => .makes
  | .deleteKey => .deletes
  | _ => .looks

/-- What a method resolves to without a record. -/
def absent : (o : TableOp ι) → o.Result
  -- makes its record
  | .call (.lease _) => .released
  | .call .getLease => none
  | .call .loadState => none
  | .call (.saveStateUnfenced _) => ()
  | .call (.loadPending _) => []
  | .call .countPending => 0
  | .call (.listParked _ _) => []
  | .call .countParked => 0
  | .call (.retryParked _) => 0
  | .call (.discardParked _) => 0
  | .call .heldKeys => ∅
  | .call (.getValidator _) => none
  | .call (.readLog _ _) => []
  | .call (.pruneLog _) => 0
  | .deleteKey => ()
  | .clearItems => ()
  | .loadVersions _ => OrderedMap.empty
  | .streamIdentities => []
  | .countItems => 0

/-- The methods on the map of records. -/
def methods (ι : Type) : CellMap PKey (TableOp ι) (KeyRecord ι) TableOp.Result where
  fresh := .fresh
  touch := touch
  serve := serve
  absent := absent

/-- A call of a method with a key. -/
def invoke (key : PKey) (o : TableOp ι) (records : OrderedMap String (KeyRecord ι)) :
    o.Result × OrderedMap String (KeyRecord ι) :=
  (methods ι).invoke id key o records

/-- The records after some calls. -/
def records (calls : List (PKey × TableOp ι)) : OrderedMap String (KeyRecord ι) :=
  (methods ι).ran id calls

def listKeys (poller : Option String) (records : OrderedMap String (KeyRecord ι)) : List PKey :=
  (records.values.filter fun rec => poller.all fun p => rec.key.poller = p).map (·.key)

/-! ## A key without a record -/

theorem retryParked_fresh (key : PKey) (ids : List String) :
    (KeyRecord.fresh key : KeyRecord ι).retryParked ids = (0, .fresh key) := by
  induction ids with
  | nil => rfl
  | cons id ids ih =>
    have hone : (KeyRecord.fresh key : KeyRecord ι).retryOne id = (0, .fresh key) := rfl
    simp only [KeyRecord.retryParked, hone, ih, Nat.add_zero]

theorem eraseAll_empty (ids : List String) :
    (OrderedMap.empty : OrderedMap String (ParkedRow ι)).eraseAll ids = OrderedMap.empty := by
  induction ids with
  | nil => rfl
  | cons id ids ih => exact ih

theorem discardParked_fresh (key : PKey) (ids : List String) :
    (KeyRecord.fresh key : KeyRecord ι).discardParked ids = (0, .fresh key) := by
  have hnone : (KeyRecord.fresh key : KeyRecord ι).parked = OrderedMap.empty := rfl
  rw [KeyRecord.discardParked, hnone, eraseAll_empty]
  have hcount : (ids.eraseDups.filter fun id =>
      ((OrderedMap.empty : OrderedMap String (ParkedRow ι)).get id).isSome) = [] := by simp
  rw [hcount]
  rfl

theorem loadVersions_fresh (key : PKey) (identities : List String) :
    (KeyRecord.fresh key : KeyRecord ι).loadVersions (identities.map .string) =
      OrderedMap.empty := by
  unfold KeyRecord.loadVersions
  induction identities with
  | nil => rfl
  | cons id ids ih => exact ih

/-- A method that peeks does on a fresh record what it does without one. -/
theorem looks_fresh : (methods ι).LooksFresh := by
  intro o key ho
  cases o with
  | call o =>
    cases o with
    | lease o => cases ho
    | saveStateUnfenced patch => cases ho
    | retryParked ids => exact retryParked_fresh key ids
    | discardParked ids => exact discardParked_fresh key ids
    | loadPending limit =>
      have hrows : (KeyRecord.fresh key : KeyRecord ι).loadPending limit = [] := by
        simp [KeyRecord.loadPending, KeyRecord.pendingRows, KeyRecord.fresh, OrderedMap.empty,
          OrderedMap.values]
      exact Prod.ext hrows rfl
    | listParked kind limit =>
      have hrows : (KeyRecord.fresh key : KeyRecord ι).listParked kind limit = [] := by
        simp [KeyRecord.listParked, KeyRecord.fresh, OrderedMap.empty, OrderedMap.values]
      exact Prod.ext hrows rfl
    | heldKeys =>
      have hkeys : { k | k ∈ (KeyRecord.fresh key : KeyRecord ι).heldKeys } = ∅ := by
        simp [KeyRecord.heldKeys, KeyRecord.fresh, OrderedMap.empty, OrderedMap.values]
      exact Prod.ext hkeys rfl
    | readLog range limit =>
      have hrows : (KeyRecord.fresh key : KeyRecord ι).readLog range limit = [] := by
        simp [KeyRecord.readLog, KeyRecord.fresh]
      exact Prod.ext hrows rfl
    | _ => rfl
  | loadVersions identities => exact Prod.ext (loadVersions_fresh key identities) rfl
  | deleteKey => cases ho
  | _ => rfl

/-! ## Runs -/

theorem after_eq (key : PKey) (ops : List (TableOp ι)) :
    (methods ι).after key ops = served key ops := by
  induction ops using List.reverseRecOn with
  | nil => rfl
  | append_singleton ops o ih =>
    rw [served_snoc, CellMap.after, List.foldl_append]
    change (methods ι).next key o ((methods ι).after key ops) = _
    rw [ih]
    cases o with
    | deleteKey =>
      show KeyRecord.fresh key = KeyRecord.fresh (served key ops).key
      rw [served_key]
    | call o => cases o <;> rfl
    | _ => rfl

/-- Every stored record is the record of its own key. -/
theorem mem_records {calls : List (PKey × TableOp ι)} {text : String} {rec : KeyRecord ι}
    (h : (records calls).get text = some rec) : text = id rec.key := by
  have hmem : text ∈ (records calls).keys := by
    rw [OrderedMap.mem_keys_iff, h]
    rfl
  obtain ⟨key, rfl⟩ := CellMap.keys_ran calls hmem
  have hcell := CellMap.cell_ran (looks_fresh (ι := ι)) id_injective calls key
  rw [after_eq] at hcell
  have hrec : rec = served key (callsOn key calls) := by
    rw [← hcell, CellMap.cell]
    exact (congrArg (fun o => o.getD ((methods ι).fresh key)) h).symm
  rw [hrec, served_key]

theorem mem_listKeys (calls : List (PKey × TableOp ι)) (poller : Option String) (key : PKey) :
    key ∈ listKeys poller (records calls) ↔
      ((methods ι).Made key calls ∧ ∀ p ∈ poller, key.poller = p) := by
  rw [← CellMap.made_iff id_injective calls key, listKeys, List.mem_map]
  constructor
  · rintro ⟨rec, hrec, rfl⟩
    obtain ⟨hmem, hpoller⟩ := List.mem_filter.1 hrec
    obtain ⟨text, htext⟩ := (OrderedMap.mem_values_iff _ _).1 hmem
    have hname := mem_records htext
    subst hname
    refine ⟨?_, ?_⟩
    · change ((records calls).get (id rec.key)).isSome = true
      rw [htext]
      rfl
    · rintro p rfl
      simpa using hpoller
  · rintro ⟨hsome, hpoller⟩
    obtain ⟨rec, hrec⟩ := Option.isSome_iff_exists.1 hsome
    have hkey : key = rec.key := id_injective (mem_records hrec)
    refine ⟨rec, List.mem_filter.2 ⟨(OrderedMap.mem_values_iff _ _).2 ⟨_, hrec⟩, ?_⟩, hkey.symm⟩
    rw [← hkey]
    cases poller with
    | none => rfl
    | some p => simpa using hpoller p rfl

theorem listKeys_nodup (calls : List (PKey × TableOp ι)) (poller : Option String) :
    (listKeys poller (records calls)).Nodup := by
  have hnames : ((records calls).values.map fun rec => id rec.key).Nodup := by
    have hkeys : ((records calls).values.map fun rec => id rec.key) = (records calls).keys := by
      simp only [OrderedMap.values, OrderedMap.keys, List.map_map]
      apply List.map_congr_left
      rintro ⟨text, rec⟩ hentry
      exact (mem_records (OrderedMap.find_of_mem (records calls).nodup hentry)).symm
    rw [hkeys]
    exact (records calls).nodup
  have hall : ((records calls).values.map (·.key)).Nodup := by
    have hcomp : (fun rec : KeyRecord ι => id rec.key) = id ∘ (·.key) := rfl
    rw [hcomp, ← List.map_map] at hnames
    exact List.Nodup.of_map _ hnames
  exact hall.sublist (List.filter_sublist.map _)

theorem touch_deletes_iff (o : TableOp ι) : touch o = .deletes ↔ o = .deleteKey := by
  cases o with
  | call o => cases o <;> simp [touch]
  | _ => simp [touch]

end MemoryStore

/-- In every interleaving of calls on any keys, a call replies as it does after the calls on its own
key alone, and `listKeys` lists the keys of the poller that a writing call has named since their last
deletion, each once. -/
theorem memory_store_apart (calls : List (PKey × TableOp ι)) :
    (∀ key o, (MemoryStore.invoke key o (MemoryStore.records calls)).1 =
        (MemoryStore.serve o (MemoryStore.served key (callsOn key calls))).1) ∧
      ∀ poller, (MemoryStore.listKeys poller (MemoryStore.records calls)).Nodup ∧
        ∀ key, key ∈ MemoryStore.listKeys poller (MemoryStore.records calls) ↔
          (∃ before o after, calls = before ++ (key, o) :: after ∧
            MemoryStore.touch o = .makes ∧ (key, .deleteKey) ∉ after) ∧
          ∀ p ∈ poller, key.poller = p := by
  constructor
  · intro key o
    by_cases ho : o = .deleteKey
    · subst ho
      rfl
    · have hlive : (MemoryStore.methods ι).touch o ≠ .deletes :=
        fun h => ho ((MemoryStore.touch_deletes_iff o).1 h)
      rw [← MemoryStore.after_eq]
      exact CellMap.reply_ran MemoryStore.looks_fresh MemoryStore.id_injective calls key hlive
  · intro poller
    refine ⟨MemoryStore.listKeys_nodup calls poller, ?_⟩
    intro key
    rw [MemoryStore.mem_listKeys]
    apply and_congr_left
    intro _
    constructor
    · rintro ⟨before, o, after, hcalls, hmakes, hkeeps⟩
      refine ⟨before, o, after, hcalls, hmakes, ?_⟩
      intro hdeleted
      exact hkeeps _ hdeleted rfl
    · rintro ⟨before, o, after, hcalls, hmakes, hkept⟩
      refine ⟨before, o, after, hcalls, hmakes, ?_⟩
      intro o' hin hdeletes
      rw [(MemoryStore.touch_deletes_iff o').1 hdeletes] at hin
      exact hkept hin

end Watukuy
