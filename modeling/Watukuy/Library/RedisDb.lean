import Watukuy.Library.Select
import Mathlib.Data.String.Basic
import Mathlib.Logic.Function.Basic

/-!
# A database of hashes and sorted sets

The commands of a Redis-like server that a client with a layout of its own needs. A key holds the
entries of one kind of value; a value without entries is no value, so a command on it finds an empty
value of its own kind. A command on a value of another kind fails, and what was written before a
failure stays.

A `Layout` says which keys stand for an abstract state, and what they hold there. `Layout.Runs` is a
total-correctness triple over it: no failure, one reply, and one abstract state afterwards. It has
one rule for each command, so a script is read against what it does to the abstract state.
-/

set_option autoImplicit false

namespace Watukuy.Library

/-- The values of a map, changed one by one. -/
def OrderedMap.mapValues {κ ν ν' : Type} (g : ν → ν') (m : OrderedMap κ ν) : OrderedMap κ ν' where
  entries := m.entries.map fun e => (e.1, g e.2)
  nodup := by
    rw [List.map_map]
    exact m.nodup

theorem OrderedMap.get_mapValues {κ ν ν' : Type} [DecidableEq κ] (g : ν → ν') (m : OrderedMap κ ν)
    (k : κ) : (m.mapValues g).get k = (m.get k).map g := by
  have hfind : ∀ l : List (κ × ν),
      find k (l.map fun e => (e.1, g e.2)) = (find k l).map g := by
    intro l
    induction l with
    | nil => rfl
    | cons e l ih =>
      simp only [List.map_cons, find]
      split
      · rfl
      · exact ih
  exact hfind m.entries

namespace Redis

/-! ## Values and commands -/

inductive Kind where
  | hash
  | zset
  | set
  deriving DecidableEq

/-- What stands beside the name of an entry. -/
@[reducible] def Kind.Entry : Kind → Type
  | .hash => String
  | .zset => Int
  | .set => Unit

structure Value where
  kind : Kind
  entries : OrderedMap String kind.Entry

namespace Value

def none_ : Value := ⟨.hash, OrderedMap.empty⟩

/-- `EXISTS`. -/
def present (v : Value) : Bool := !v.entries.entries.isEmpty

/-- The entries of a value of a kind. -/
def as (k : Kind) (v : Value) : Option (OrderedMap String k.Entry) :=
  if h : v.kind = k then some (h ▸ v.entries)
  else if v.present then none
  else some OrderedMap.empty

@[simp] theorem as_self (k : Kind) (m : OrderedMap String k.Entry) :
    Value.as k ⟨k, m⟩ = some m := dif_pos rfl

/-- No entry is told apart from no value. -/
theorem present_iff {k : Kind} {v : Value} {m : OrderedMap String k.Entry}
    (h : v.as k = some m) : v.present = true ↔ ∃ f, (m.get f).isSome := by
  have hentries : ∀ {k : Kind} (m : OrderedMap String k.Entry),
      (!m.entries.isEmpty) = true ↔ ∃ f, (m.get f).isSome := by
    intro k m
    simp only [← OrderedMap.mem_keys_iff, OrderedMap.keys]
    cases m.entries with
    | nil => simp
    | cons e es => simp
  unfold as at h
  split at h
  · next hk =>
    subst hk
    obtain rfl := Option.some.inj h
    exact hentries _
  · split at h
    · cases h
    · next hnone =>
      obtain rfl := Option.some.inj h
      simp [hnone]

end Value

/-- What each key holds. -/
abbrev Db := String → Value

def Db.empty : Db := fun _ => Value.none_

inductive Failure where
  /-- `WRONGTYPE`. -/
  | wrongType
  /-- A text that its reader does not take. -/
  | unreadable
  /-- An argument that was not given. -/
  | nilArgument

/-- A command, or a script of commands. -/
abbrev Command (α : Type) := EStateM Failure Db α

section Commands

/-- The entries at a key. -/
def entriesOf (k : Kind) (name : String) : Command (OrderedMap String k.Entry) := fun db =>
  match (db name).as k with
  | some m => .ok m db
  | none => .error .wrongType db

def store (k : Kind) (name : String) (m : OrderedMap String k.Entry) : Command Unit := fun db =>
  .ok () (Function.update db name ⟨k, m⟩)

/-- `tonumber`. -/
def toNumber (text : String) : Command Int :=
  match text.toInt? with
  | some n => pure n
  | none => throw .unreadable

def exists_ (name : String) : Command Bool := fun db => .ok (db name).present db

def del (name : String) : Command Unit := fun db => .ok () (Function.update db name Value.none_)

def hget (name field : String) : Command (Option String) := do
  return (← entriesOf .hash name).get field

def hmget (name : String) (fields : List String) : Command (List (Option String)) := do
  let m ← entriesOf .hash name
  return fields.map m.get

/-- `HSET` of some fields. -/
def hset (name : String) (pairs : List (String × String)) : Command Unit := do
  let m ← entriesOf .hash name
  store .hash name (pairs.foldl (fun m p => m.set p.1 p.2) m)

/-- `HDEL` of some fields: how many were there. -/
def hdel (name : String) (fields : List String) : Command Nat := do
  let m ← entriesOf .hash name
  store .hash name (m.eraseAll fields)
  return (fields.eraseDups.filter fun f => (m.get f).isSome).length

def hincrby (name field : String) (by_ : Int) : Command Int := do
  let m ← entriesOf .hash name
  let n ← toNumber ((m.get field).getD "0")
  store .hash name (m.set field (toString (n + by_)))
  return n + by_

def hexists (name field : String) : Command Bool := do
  return ((← entriesOf .hash name).get field).isSome

def hlen (name : String) : Command Nat := do return (← entriesOf .hash name).keys.length

/-- `HGETALL`: the fields in some order. -/
def hgetall (name : String) : Command (OrderedMap String String) := entriesOf .hash name

/-- `HVALS`: the values in some order. -/
def hvals (name : String) : Command (List String) := do return (← entriesOf .hash name).values

def zadd (name score member : String) : Command Unit := do
  let n ← toNumber score
  let m ← entriesOf .zset name
  store .zset name (m.set member n)

/-- `ZREM` of some members: how many were there. -/
def zrem (name : String) (members : List String) : Command Nat := do
  let m ← entriesOf .zset name
  store .zset name (m.eraseAll members)
  return (members.eraseDups.filter fun f => (m.get f).isSome).length

def zcard (name : String) : Command Nat := do return (← entriesOf .zset name).keys.length

/-- The members by score, and by name where the scores are equal. -/
def ranked (m : OrderedMap String Int) : List (String × Int) :=
  m.entries.insertionSort (ByRank Prod.snd Prod.fst)

/-- `ZRANGEBYSCORE` from above a score to `+inf`, with its `LIMIT`; no score is `-inf`. -/
def zrangebyscore (name : String) (above : Option Int) (offset count : Nat) :
    Command (List String) := do
  let m ← entriesOf .zset name
  let found := (ranked m).filter fun e => above.all fun n => decide (n < e.2)
  return ((found.drop offset).take count).map Prod.fst

def sadd (name member : String) : Command Unit := do
  let m ← entriesOf .set name
  store .set name (m.set member ())

def srem (name member : String) : Command Unit := do
  let m ← entriesOf .set name
  store .set name (m.erase member)

/-- `SMEMBERS`: the members in some order. -/
def smembers (name : String) : Command (List String) := do return (← entriesOf .set name).keys

/-- `ARGV[i]`, counted from 1. -/
def arg (argv : List String) (i : Nat) : Command String :=
  match argv[i - 1]? with
  | some a => pure a
  | none => throw .nilArgument

end Commands

/-! ## Layouts -/

/-- The value holds these entries. -/
def Value.Holds (v : Value) (k : Kind) (c : String → Option k.Entry) : Prop :=
  ∃ m, v.as k = some m ∧ ∀ f, m.get f = c f

/-- Which keys stand for an abstract state, and what they hold. -/
structure Layout (σ : Type) where
  Slot : Kind → Type
  name : ∀ {k : Kind}, Slot k → String
  content : σ → ∀ {k : Kind}, Slot k → String → Option k.Entry
  name_inj : ∀ {k k' : Kind} (s : Slot k) (s' : Slot k'), name s = name s' →
    (⟨k, s⟩ : Sigma Slot) = ⟨k', s'⟩

namespace Layout

variable {σ α β : Type} (L : Layout σ)

/-- The database shows an abstract state; its other keys are those of `rest`. -/
structure Shows (rest db : Db) (x : σ) : Prop where
  slots : ∀ {k : Kind} (s : L.Slot k), (db (L.name s)).Holds k (L.content x s)
  others : ∀ name, (∀ {k : Kind} (s : L.Slot k), L.name s ≠ name) → db name = rest name

/-- The command does not fail, and afterwards `Q` holds of its reply and the abstract state. -/
def Meets (x : σ) (c : Command α) (Q : α → σ → Prop) : Prop :=
  ∀ rest db, L.Shows rest db x →
    ∃ a x' db', c db = .ok a db' ∧ L.Shows rest db' x' ∧ Q a x'

/-- The command does not fail, replies `a` and leads from one abstract state to another. -/
def Runs (x : σ) (c : Command α) (a : α) (x' : σ) : Prop :=
  L.Meets x c fun b y => b = a ∧ y = x'

/-- One slot is given new entries. -/
structure Edit (x : σ) {k : Kind} (s : L.Slot k) (c : String → Option k.Entry) (x' : σ) : Prop where
  self : ∀ f, L.content x' s f = c f
  other : ∀ {k' : Kind} (s' : L.Slot k'), (⟨k', s'⟩ : Sigma L.Slot) ≠ ⟨k, s⟩ →
    L.content x' s' = L.content x s'

variable {L} {x y z : σ} {rest db : Db} {k : Kind}

/-! ### Rules for sequences -/

theorem Meets.mono {c : Command α} {Q R : α → σ → Prop} (h : L.Meets x c Q)
    (hQ : ∀ a y, Q a y → R a y) : L.Meets x c R := by
  intro rest db hdb
  obtain ⟨a, x', db', hrun, hshows, ha⟩ := h rest db hdb
  exact ⟨a, x', db', hrun, hshows, hQ a x' ha⟩

theorem Meets.bind {c : Command α} {f : α → Command β} {Q : α → σ → Prop} {R : β → σ → Prop}
    (h : L.Meets x c Q) (hf : ∀ a y, Q a y → L.Meets y (f a) R) : L.Meets x (c >>= f) R := by
  intro rest db hdb
  obtain ⟨a, y, db', hrun, hshows, ha⟩ := h rest db hdb
  obtain ⟨b, z, db'', hrun', hshows', hb⟩ := hf a y ha rest db' hshows
  refine ⟨b, z, db'', ?_, hshows', hb⟩
  change EStateM.bind c f db = _
  rw [EStateM.bind, hrun]
  exact hrun'

theorem Runs.bind {c : Command α} {f : α → Command β} {a : α} {b : β} (h : L.Runs x c a y)
    (hf : L.Runs y (f a) b z) : L.Runs x (c >>= f) b z := by
  refine Meets.bind h ?_
  rintro a' y' ⟨rfl, rfl⟩
  exact hf

theorem meets_pure {a : α} {Q : α → σ → Prop} (h : Q a x) : L.Meets x (pure a) Q :=
  fun _ db hdb => ⟨a, x, db, rfl, hdb, h⟩

theorem runs_pure (a : α) : L.Runs x (pure a) a x := meets_pure ⟨rfl, rfl⟩

theorem runs_arg {argv : List String} {i : Nat} {a : String} (h : argv[i - 1]? = some a) :
    L.Runs x (arg argv i) a x := by
  unfold arg
  rw [h]
  exact runs_pure a

theorem runs_toNumber {text : String} {n : Int} (h : text.toInt? = some n) :
    L.Runs x (toNumber text) n x := by
  unfold toNumber
  rw [h]
  exact runs_pure n

/-! ### Reading and writing a slot -/

theorem meets_entriesOf (s : L.Slot k) :
    L.Meets x (entriesOf k (L.name s)) fun m y => (∀ f, m.get f = L.content x s f) ∧ y = x := by
  intro rest db hdb
  obtain ⟨m, hm, hget⟩ := hdb.slots s
  refine ⟨m, x, db, ?_, hdb, hget, rfl⟩
  rw [entriesOf, hm]

/-- What is written to a slot shows in that slot only. -/
theorem runs_store (s : L.Slot k) {m : OrderedMap String k.Entry} (h : L.Edit x s m.get y) :
    L.Runs x (store k (L.name s) m) () y := by
  intro rest db hdb
  refine ⟨(), y, Function.update db (L.name s) ⟨k, m⟩, rfl, ⟨?_, ?_⟩, rfl, rfl⟩
  · intro k' s'
    by_cases hs : (⟨k', s'⟩ : Sigma L.Slot) = ⟨k, s⟩
    · obtain ⟨rfl, hs⟩ := Sigma.mk.inj hs
      obtain rfl := eq_of_heq hs
      rw [Function.update_self]
      exact ⟨m, Value.as_self k' m, fun f => (h.self f).symm⟩
    · have hname : L.name s' ≠ L.name s := fun hn => hs (L.name_inj s' s hn)
      rw [Function.update_of_ne hname, h.other s' hs]
      exact hdb.slots s'
  · intro name hname
    rw [Function.update_of_ne (hname s).symm]
    exact hdb.others name hname

theorem runs_del (s : L.Slot k) (h : L.Edit x s (fun _ => none) y) :
    L.Runs x (del (L.name s)) () y := by
  intro rest db hdb
  refine ⟨(), y, Function.update db (L.name s) Value.none_, rfl, ⟨?_, ?_⟩, rfl, rfl⟩
  · intro k' s'
    by_cases hs : (⟨k', s'⟩ : Sigma L.Slot) = ⟨k, s⟩
    · obtain ⟨rfl, hs⟩ := Sigma.mk.inj hs
      obtain rfl := eq_of_heq hs
      rw [Function.update_self]
      refine ⟨OrderedMap.empty, ?_, fun f => (h.self f).symm⟩
      cases k' <;> rfl
    · have hname : L.name s' ≠ L.name s := fun hn => hs (L.name_inj s' s hn)
      rw [Function.update_of_ne hname, h.other s' hs]
      exact hdb.slots s'
  · intro name hname
    rw [Function.update_of_ne (hname s).symm]
    exact hdb.others name hname

theorem runs_exists (s : L.Slot k) {b : Bool} (h : b = true ↔ ∃ f, (L.content x s f).isSome) :
    L.Runs x (exists_ (L.name s)) b x := by
  intro rest db hdb
  obtain ⟨m, hm, hget⟩ := hdb.slots s
  refine ⟨b, x, db, ?_, hdb, rfl, rfl⟩
  have hpresent : (db (L.name s)).present = b := by
    rw [Bool.eq_iff_iff, Value.present_iff hm, h]
    simp only [hget]
  rw [exists_, hpresent]

/-! ### Rules for commands on hashes -/

section Hashes

variable (s : L.Slot .hash)

theorem runs_hget (f : String) : L.Runs x (hget (L.name s) f) (L.content x s f) x := by
  refine (meets_entriesOf s).bind ?_
  rintro m y ⟨hm, rfl⟩
  rw [hm]
  exact runs_pure _

theorem runs_hmget (fields : List String) :
    L.Runs x (hmget (L.name s) fields) (fields.map (L.content x s)) x := by
  refine (meets_entriesOf s).bind ?_
  rintro m y ⟨hm, rfl⟩
  rw [funext hm]
  exact runs_pure _

theorem runs_hexists (f : String) :
    L.Runs x (hexists (L.name s) f) (L.content x s f).isSome x := by
  refine (meets_entriesOf s).bind ?_
  rintro m y ⟨hm, rfl⟩
  rw [hm]
  exact runs_pure _

/-- The entries with some fields set. -/
def setFields (c : String → Option String) (pairs : List (String × String)) :
    String → Option String :=
  pairs.foldl (fun c p => Function.update c p.1 (some p.2)) c

theorem get_setFields (pairs : List (String × String)) (m : OrderedMap String String) (f : String) :
    (pairs.foldl (fun m p => m.set p.1 p.2) m).get f = setFields m.get pairs f := by
  induction pairs generalizing m with
  | nil => rfl
  | cons p pairs ih =>
    have hset : (m.set p.1 p.2).get = Function.update m.get p.1 (some p.2) := by
      funext a
      rw [OrderedMap.get_set, Function.update_apply]
    rw [List.foldl_cons, ih, hset]
    rfl

theorem runs_hset {pairs : List (String × String)}
    (h : L.Edit x s (setFields (L.content x s) pairs) y) :
    L.Runs x (hset (L.name s) pairs) () y := by
  refine (meets_entriesOf s).bind ?_
  rintro m x' ⟨hm, rfl⟩
  refine runs_store s ⟨?_, h.other⟩
  intro f
  rw [get_setFields, funext hm]
  exact h.self f

theorem runs_hdel {fields : List String}
    (h : L.Edit x s (fun f => if f ∈ fields then none else L.content x s f) y) :
    L.Runs x (hdel (L.name s) fields)
      (fields.eraseDups.filter fun f => (L.content x s f).isSome).length y := by
  refine (meets_entriesOf s).bind ?_
  rintro m x' ⟨hm, rfl⟩
  simp only [hm]
  refine Runs.bind (runs_store s ⟨?_, h.other⟩) (runs_pure _)
  intro f
  rw [OrderedMap.get_eraseAll, hm]
  exact h.self f

/-- One field. -/
theorem runs_hdel_one {f : String} (h : L.Edit x s (Function.update (L.content x s) f none) y) :
    L.Runs x (hdel (L.name s) [f]) (if (L.content x s f).isSome then 1 else 0) y := by
  have hone : ([f].eraseDups.filter fun f => (L.content x s f).isSome).length =
      if (L.content x s f).isSome then 1 else 0 := by
    by_cases hf : (L.content x s f).isSome <;> simp [hf, List.eraseDups_cons]
  rw [← hone]
  apply runs_hdel
  refine ⟨?_, h.other⟩
  intro a
  rw [h.self, Function.update_apply]
  simp only [List.mem_singleton]

theorem runs_hincrby {f : String} {n by_ : Int}
    (hn : ((L.content x s f).getD "0").toInt? = some n)
    (h : L.Edit x s (Function.update (L.content x s) f (some (toString (n + by_)))) y) :
    L.Runs x (hincrby (L.name s) f by_) (n + by_) y := by
  refine (meets_entriesOf s).bind ?_
  rintro m x' ⟨hm, rfl⟩
  rw [← hm] at hn
  refine Runs.bind (runs_toNumber hn) (Runs.bind (runs_store s ⟨?_, h.other⟩) (runs_pure _))
  intro a
  rw [h.self, OrderedMap.get_set, Function.update_apply, hm]

end Hashes

/-! ### Rules for commands on sorted sets and sets -/

theorem runs_zadd (s : L.Slot .zset) {score member : String} {n : Int} (hn : score.toInt? = some n)
    (h : L.Edit x s (Function.update (L.content x s) member (some n)) y) :
    L.Runs x (zadd (L.name s) score member) () y := by
  refine Runs.bind (runs_toNumber hn) ((meets_entriesOf s).bind ?_)
  rintro m x' ⟨hm, rfl⟩
  refine runs_store s ⟨?_, h.other⟩
  intro a
  rw [h.self, OrderedMap.get_set, Function.update_apply, hm]

theorem runs_zrem (s : L.Slot .zset) {members : List String}
    (h : L.Edit x s (fun f => if f ∈ members then none else L.content x s f) y) :
    L.Runs x (zrem (L.name s) members)
      (members.eraseDups.filter fun f => (L.content x s f).isSome).length y := by
  refine (meets_entriesOf s).bind ?_
  rintro m x' ⟨hm, rfl⟩
  simp only [hm]
  refine Runs.bind (runs_store s ⟨?_, h.other⟩) (runs_pure _)
  intro f
  rw [OrderedMap.get_eraseAll, hm]
  exact h.self f

theorem runs_sadd (s : L.Slot .set) {member : String}
    (h : L.Edit x s (Function.update (L.content x s) member (some ())) y) :
    L.Runs x (sadd (L.name s) member) () y := by
  refine (meets_entriesOf s).bind ?_
  rintro m x' ⟨hm, rfl⟩
  refine runs_store s ⟨?_, h.other⟩
  intro a
  rw [h.self, OrderedMap.get_set, Function.update_apply, hm]

theorem runs_srem (s : L.Slot .set) {member : String}
    (h : L.Edit x s (Function.update (L.content x s) member none) y) :
    L.Runs x (srem (L.name s) member) () y := by
  refine (meets_entriesOf s).bind ?_
  rintro m x' ⟨hm, rfl⟩
  refine runs_store s ⟨?_, h.other⟩
  intro a
  rw [h.self, OrderedMap.get_erase, Function.update_apply, hm]

theorem meets_smembers (s : L.Slot .set) :
    L.Meets x (smembers (L.name s)) fun members y =>
      (members.Nodup ∧ ∀ a, a ∈ members ↔ (L.content x s a).isSome) ∧ y = x := by
  refine (meets_entriesOf s).bind ?_
  rintro m x' ⟨hm, rfl⟩
  refine meets_pure ⟨⟨m.keys_nodup, ?_⟩, rfl⟩
  intro a
  rw [OrderedMap.mem_keys_iff, hm]

/-! ### Reading all entries

What a slot holds is compared with a map `m₀` of its entries. -/

section All

variable {m₀ : OrderedMap String String}

theorem runs_hlen (s : L.Slot .hash) (h : ∀ f, m₀.get f = L.content x s f) :
    L.Runs x (hlen (L.name s)) m₀.keys.length x := by
  refine (meets_entriesOf s).bind ?_
  rintro m x' ⟨hm, rfl⟩
  have hperm := OrderedMap.keys_perm fun f => (hm f).trans (h f).symm
  rw [← hperm.length_eq]
  exact runs_pure _

theorem meets_hvals (s : L.Slot .hash) (h : ∀ f, m₀.get f = L.content x s f) :
    L.Meets x (hvals (L.name s)) fun values y => values.Perm m₀.values ∧ y = x := by
  refine (meets_entriesOf s).bind ?_
  rintro m x' ⟨hm, rfl⟩
  exact meets_pure ⟨OrderedMap.values_perm fun f => (hm f).trans (h f).symm, rfl⟩

end All

section Scores

variable {m m₀ : OrderedMap String Int}

/-- The entries alone tell the order of a sorted set. -/
theorem ranked_eq (h : ∀ f, m.get f = m₀.get f) : ranked m = ranked m₀ := by
  have hperm : (ranked m).Perm (ranked m₀) :=
    ((List.perm_insertionSort _ _).trans (OrderedMap.entries_perm h)).trans
      (List.perm_insertionSort _ _).symm
  refine hperm.eq_of_pairwise ?_ (List.pairwise_insertionSort _ _) (List.pairwise_insertionSort _ _)
  rintro a b - - (hab | ⟨hab, hname⟩) (hba | ⟨hba, hname'⟩)
  · exact absurd hab (lt_asymm hba)
  · exact absurd hba hab.ne'
  · exact absurd hab hba.ne'
  · exact Prod.ext (le_antisymm hname hname') hab

theorem runs_zcard (s : L.Slot .zset) (h : ∀ f, m₀.get f = L.content x s f) :
    L.Runs x (zcard (L.name s)) m₀.keys.length x := by
  refine (meets_entriesOf s).bind ?_
  rintro m x' ⟨hm, rfl⟩
  have hperm := OrderedMap.keys_perm fun f => (hm f).trans (h f).symm
  rw [← hperm.length_eq]
  exact runs_pure _

theorem runs_zrangebyscore (s : L.Slot .zset) (h : ∀ f, m₀.get f = L.content x s f)
    (above : Option Int) (offset count : Nat) :
    L.Runs x (zrangebyscore (L.name s) above offset count)
      (((((ranked m₀).filter fun e => above.all fun n => decide (n < e.2)).drop offset).take
        count).map Prod.fst) x := by
  refine (meets_entriesOf s).bind ?_
  rintro m x' ⟨hm, rfl⟩
  rw [← ranked_eq fun f => (hm f).trans (h f).symm]
  exact runs_pure _

end Scores

end Layout

end Redis

end Watukuy.Library
