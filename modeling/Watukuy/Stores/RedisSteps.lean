import Watukuy.Stores.RedisLayout

/-!
# The scripts on one record

`Steps` says that a command on the keys of one `(poller, partition)` succeeds, what it replies, and
which record it leaves; the records of all other keys stay. Each command changes one part of the
record, so a script is followed from record to record, up to the function of `RedisRecord` that it
stands for.
-/

set_option autoImplicit false

namespace Watukuy

open Library Redis

variable {ι : Type}

/-! ## Parts that are maps -/

namespace KeyPart

/-- What an entry of a part stands for; the hashes of the lease and of the state are no maps. -/
@[reducible] def Val (ι : Type) : {k : Kind} → KeyPart k → Type
  | _, .meta_ => Empty
  | _, .state => Empty
  | _, .items => ItemRow ι
  | _, .outbox => Nat
  | _, .rows => OutboxRow ι
  | _, .attempts => Nat
  | _, .errors => AttemptInfo
  | _, .parked => ParkedRow ι
  | _, .hold => String
  | _, .validators => Validator
  | _, .log => LoggedEvent ι

def isMap : {k : Kind} → KeyPart k → Bool
  | _, .meta_ => false
  | _, .state => false
  | _, _ => true

/-- How an entry is kept. -/
def entry (json : RedisJson ι) : {k : Kind} → (part : KeyPart k) → part.Val ι → k.Entry
  | _, .meta_, v => v.elim
  | _, .state, v => v.elim
  | _, .items, v => json.items.stringify v
  | _, .outbox, v => Int.ofNat v
  | _, .rows, v => json.rows.stringify v
  | _, .attempts, v => toString v
  | _, .errors, v => json.attemptInfo.stringify v
  | _, .parked, v => json.parked.stringify v
  | _, .hold, v => v
  | _, .validators, v => json.validators.stringify v
  | _, .log, v => Int.ofNat v.sequence

end KeyPart

namespace RedisRecord

variable (rec : RedisRecord ι)

def put : {k : Kind} → (part : KeyPart k) → String → part.Val ι → RedisRecord ι
  | _, .meta_, _, v => v.elim
  | _, .state, _, v => v.elim
  | _, .items, f, v => { rec with items := rec.items.set f v }
  | _, .outbox, f, v => { rec with outbox := rec.outbox.set f v }
  | _, .rows, f, v => { rec with rows := rec.rows.set f v }
  | _, .attempts, f, v => { rec with attempts := rec.attempts.set f v }
  | _, .errors, f, v => { rec with errors := rec.errors.set f v }
  | _, .parked, f, v => { rec with parked := rec.parked.set f v }
  | _, .hold, f, v => { rec with hold := rec.hold.set f v }
  | _, .validators, f, v => { rec with validators := rec.validators.set f v }
  | _, .log, f, v => { rec with log := rec.log.set f v }

def drop : {k : Kind} → KeyPart k → String → RedisRecord ι
  | _, .meta_, _ => rec
  | _, .state, _ => rec
  | _, .items, f => { rec with items := rec.items.erase f }
  | _, .outbox, f => { rec with outbox := rec.outbox.erase f }
  | _, .rows, f => { rec with rows := rec.rows.erase f }
  | _, .attempts, f => { rec with attempts := rec.attempts.erase f }
  | _, .errors, f => { rec with errors := rec.errors.erase f }
  | _, .parked, f => { rec with parked := rec.parked.erase f }
  | _, .hold, f => { rec with hold := rec.hold.erase f }
  | _, .validators, f => { rec with validators := rec.validators.erase f }
  | _, .log, f => { rec with log := rec.log.erase f }

/-- `DEL` of a part. -/
def clear : {k : Kind} → KeyPart k → RedisRecord ι
  | _, .meta_ => { rec with meta_ := {} }
  | _, .state => { rec with state := none }
  | _, .items => { rec with items := OrderedMap.empty }
  | _, .outbox => { rec with outbox := OrderedMap.empty }
  | _, .rows => { rec with rows := OrderedMap.empty }
  | _, .attempts => { rec with attempts := OrderedMap.empty }
  | _, .errors => { rec with errors := OrderedMap.empty }
  | _, .parked => { rec with parked := OrderedMap.empty }
  | _, .hold => { rec with hold := OrderedMap.empty }
  | _, .validators => { rec with validators := OrderedMap.empty }
  | _, .log => { rec with log := OrderedMap.empty }

end RedisRecord

namespace RedisClient

variable {c : RedisClient ι} {json : RedisJson ι} {key : PKey} {rec rec₁ rec₂ : RedisRecord ι}
  {k : Kind} {α β : Type}

section Edits

theorem map_get_set {ν γ : Type} (g : ν → γ) (m : OrderedMap String ν) (f : String) (v : ν)
    (a : String) : ((m.set f v).get a).map g =
      Function.update (fun a => (m.get a).map g) f (some (g v)) a := by
  rw [OrderedMap.get_set, Function.update_apply]
  split <;> rfl

theorem map_get_erase {ν γ : Type} (g : ν → γ) (m : OrderedMap String ν) (f a : String) :
    ((m.erase f).get a).map g = Function.update (fun a => (m.get a).map g) f none a := by
  rw [OrderedMap.get_erase, Function.update_apply]
  split <;> rfl

theorem put_edit (part : KeyPart k) (f : String) (v : part.Val ι) :
    PartEdit json rec part
      (Function.update (rec.shown json part) f (some (part.entry json v))) (rec.put part f v) where
  self := by
    intro a
    cases part with
    | meta_ => exact v.elim
    | state => exact v.elim
    | hold =>
      show (rec.hold.set f v).get a = _
      rw [OrderedMap.get_set, Function.update_apply]
      rfl
    | _ => exact map_get_set _ _ f v a
  other := by
    intro k' part' hne
    cases part with
    | meta_ => exact v.elim
    | state => exact v.elim
    | _ => cases part' <;> first | rfl | exact absurd rfl hne
  listed := by
    cases part with
    | meta_ => exact v.elim
    | state => exact v.elim
    | _ => rfl

theorem drop_edit (part : KeyPart k) (hmap : part.isMap = true) (f : String) :
    PartEdit json rec part (Function.update (rec.shown json part) f none) (rec.drop part f) where
  self := by
    intro a
    cases part with
    | meta_ => cases hmap
    | state => cases hmap
    | hold =>
      show (rec.hold.erase f).get a = _
      rw [OrderedMap.get_erase, Function.update_apply]
      rfl
    | _ => exact map_get_erase _ _ f a
  other := by
    intro k' part' hne
    cases part <;> cases part' <;> first | rfl | exact absurd rfl hne
  listed := by cases part <;> rfl

theorem clear_edit (part : KeyPart k) :
    PartEdit json rec part (fun _ => none) (rec.clear part) where
  self := by
    intro f
    cases part with
    | meta_ =>
      show RedisMeta.field {} f = none
      simp [RedisMeta.field]
    | _ => rfl
  other := by
    intro k' part' hne
    cases part <;> cases part' <;> first | rfl | exact absurd rfl hne
  listed := by cases part <;> rfl

end Edits

/-! ## Steps -/

/-- The command succeeds, replies `a`, and takes the record of the key from `rec` to `rec'`. -/
def Steps (c : RedisClient ι) (key : PKey) (rec : RedisRecord ι) (cmd : Command α) (a : α)
    (rec' : RedisRecord ι) : Prop :=
  ∀ recs, recs key = rec → c.layout.Runs recs cmd a (Function.update recs key rec')

theorem Steps.bind {cmd : Command α} {f : α → Command β} {a : α} {b : β}
    (h : c.Steps key rec cmd a rec₁) (hf : c.Steps key rec₁ (f a) b rec₂) :
    c.Steps key rec (cmd >>= f) b rec₂ := by
  intro recs hrec
  refine (h recs hrec).bind ?_
  have hnext := hf (Function.update recs key rec₁) (Function.update_self ..)
  rw [Function.update_idem] at hnext
  exact hnext

/-- A command that leaves every record. -/
theorem steps_of_runs {cmd : Command α} {a : α} (h : ∀ recs, recs key = rec →
    c.layout.Runs recs cmd a recs) : c.Steps key rec cmd a rec := by
  intro recs hrec
  have hrun := h recs hrec
  rw [← hrec, Function.update_eq_self]
  exact hrun

theorem steps_pure (a : α) : c.Steps key rec (pure a) a rec :=
  steps_of_runs fun _ _ => Layout.runs_pure a

theorem steps_arg {argv : List String} {i : Nat} {a : String} (h : argv[i - 1]? = some a) :
    c.Steps key rec (arg argv i) a rec :=
  steps_of_runs fun _ _ => Layout.runs_arg h

theorem steps_toNumber {text : String} {n : Int} (h : text.toInt? = some n) :
    c.Steps key rec (toNumber text) n rec :=
  steps_of_runs fun _ _ => Layout.runs_toNumber h

theorem steps_parsed {codec : JsonCodec α} (a : α) :
    c.Steps key rec (parsed (codec.parse (codec.stringify a))) a rec := by
  rw [codec.parse_stringify]
  exact steps_pure a

section Commands

variable (part : KeyPart .hash) (zpart : KeyPart .zset) {f : String}

theorem steps_hget :
    c.Steps key rec (hget (c.keyName key part) f) (rec.shown c.json part f) rec := by
  apply steps_of_runs
  rintro recs rfl
  exact Layout.runs_hget (L := c.layout) (x := recs) (.of key part : RedisSlot .hash) f

theorem steps_hmget (fields : List String) :
    c.Steps key rec (hmget (c.keyName key part) fields) (fields.map (rec.shown c.json part))
      rec := by
  apply steps_of_runs
  rintro recs rfl
  exact Layout.runs_hmget (L := c.layout) (x := recs) (.of key part : RedisSlot .hash) fields

theorem steps_hexists :
    c.Steps key rec (hexists (c.keyName key part) f) (rec.shown c.json part f).isSome rec := by
  apply steps_of_runs
  rintro recs rfl
  exact Layout.runs_hexists (L := c.layout) (x := recs) (.of key part : RedisSlot .hash) f

theorem steps_hset {pairs : List (String × String)} {rec' : RedisRecord ι}
    (h : PartEdit c.json rec part (Layout.setFields (rec.shown c.json part) pairs) rec') :
    c.Steps key rec (hset (c.keyName key part) pairs) () rec' := by
  rintro recs rfl
  exact Layout.runs_hset (L := c.layout) (.of key part : RedisSlot .hash) (h.edit rfl)

/-- `HSET` of an entry of a map. -/
theorem steps_put (v : part.Val ι) {text : String} (htext : part.entry c.json v = text) :
    c.Steps key rec (hset (c.keyName key part) [(f, text)]) () (rec.put part f v) := by
  subst htext
  exact steps_hset part (put_edit part f v)

/-- `HDEL` of an entry of a map. -/
theorem steps_drop (hmap : part.isMap = true) :
    c.Steps key rec (hdel (c.keyName key part) [f])
      (if (rec.shown c.json part f).isSome then 1 else 0) (rec.drop part f) := by
  rintro recs rfl
  exact Layout.runs_hdel_one (L := c.layout) (.of key part : RedisSlot .hash)
    ((drop_edit part hmap f).edit rfl)

theorem steps_hdel {fields : List String} {rec' : RedisRecord ι}
    (h : PartEdit c.json rec part
      (fun f => if f ∈ fields then none else rec.shown c.json part f) rec') :
    c.Steps key rec (hdel (c.keyName key part) fields)
      (fields.eraseDups.filter fun f => (rec.shown c.json part f).isSome).length rec' := by
  rintro recs rfl
  exact Layout.runs_hdel (L := c.layout) (.of key part : RedisSlot .hash) (h.edit rfl)

theorem steps_hincrby {n by_ : Int} {rec' : RedisRecord ι}
    (hn : ((rec.shown c.json part f).getD "0").toInt? = some n)
    (h : PartEdit c.json rec part
      (Function.update (rec.shown c.json part) f (some (toString (n + by_)))) rec') :
    c.Steps key rec (hincrby (c.keyName key part) f by_) (n + by_) rec' := by
  rintro recs rfl
  exact Layout.runs_hincrby (L := c.layout) (.of key part : RedisSlot .hash) hn (h.edit rfl)

theorem steps_exists {b : Bool} (part : KeyPart k)
    (h : b = true ↔ ∃ f, (rec.shown c.json part f).isSome) :
    c.Steps key rec (exists_ (c.keyName key part)) b rec := by
  apply steps_of_runs
  rintro recs rfl
  exact Layout.runs_exists (L := c.layout) (x := recs) (.of key part : RedisSlot k) h

theorem steps_del (part : KeyPart k) :
    c.Steps key rec (del (c.keyName key part)) () (rec.clear part) := by
  rintro recs rfl
  exact Layout.runs_del (L := c.layout) (.of key part : RedisSlot k) ((clear_edit part).edit rfl)

theorem steps_zadd {score : String} (v : zpart.Val ι)
    (hscore : score.toInt? = some (zpart.entry c.json v)) :
    c.Steps key rec (zadd (c.keyName key zpart) score f) () (rec.put zpart f v) := by
  rintro recs rfl
  exact Layout.runs_zadd (L := c.layout) (.of key zpart : RedisSlot .zset) hscore
    ((put_edit zpart f v).edit rfl)

/-- `ZREM` of one member. -/
theorem steps_zrem_one (hmap : zpart.isMap = true) :
    c.Steps key rec (zrem (c.keyName key zpart) [f])
      ([f].eraseDups.filter fun f => (rec.shown c.json zpart f).isSome).length
      (rec.drop zpart f) := by
  rintro recs rfl
  refine Layout.runs_zrem (L := c.layout) (.of key zpart : RedisSlot .zset) ?_
  have hdrop : PartEdit c.json (recs key) zpart _ _ := drop_edit zpart hmap f
  have hedit : c.layout.Edit recs (.of key zpart : RedisSlot .zset) _ _ := hdrop.edit rfl
  refine ⟨?_, hedit.other⟩
  intro a
  rw [hedit.self, Function.update_apply]
  simp only [List.mem_singleton]
  rfl

/-- The key becomes a member of the set of all keys. -/
theorem steps_sadd :
    c.Steps key rec (sadd c.keysSet (member key)) () { rec with listed := true } := by
  rintro recs rfl
  exact Layout.runs_sadd (L := c.layout) (.keysSet : RedisSlot .set) (listed_edit (b := true) rfl)

theorem steps_srem :
    c.Steps key rec (srem c.keysSet (member key)) () { rec with listed := false } := by
  rintro recs rfl
  exact Layout.runs_srem (L := c.layout) (.keysSet : RedisSlot .set) (listed_edit (b := false) rfl)

end Commands

end RedisClient

end Watukuy
