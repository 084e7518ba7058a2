import Watukuy.Stores.RedisClient
import Watukuy.Library.Trim

/-!
# The layout of the Redis store

Distinct keys of the layout have distinct names, for every poller and partition. `RedisRecord.shown`
says which entries stand for a record, and `redisLayout` puts the records of all keys into one
database.
-/

set_option autoImplicit false

namespace Watukuy

open Library Redis

variable {ι : Type}

/-! ## Names -/

theorem colon_not_encoded (text : String) : ':' ∉ (encodeURIComponent text).toList := by
  have hdigit : ∀ n : Nat, n < 16 → percentDigit n ≠ ':' := by decide
  unfold encodeURIComponent
  rw [String.toList_ofList, List.mem_flatMap]
  rintro ⟨byte, -, hc⟩
  have hlt := byte.toNat_lt
  unfold percentEncoded at hc
  dsimp only at hc
  split at hc
  · next hkept =>
    rw [← List.mem_singleton.1 hc] at hkept
    exact absurd hkept (by decide)
  · simp only [List.mem_cons, List.not_mem_nil, or_false] at hc
    rcases hc with hc | hc | hc
    · exact absurd hc (by decide)
    · exact hdigit _ (by omega) hc.symm
    · exact hdigit _ (by omega) hc.symm

theorem encodeURIComponent_injective : Function.Injective encodeURIComponent := by
  intro text other h
  have hbytes := flatMap_percentEncoded_inj (String.ofList_injective h)
  exact String.toByteArray_inj.1 (ByteArray.ext (Array.toList_inj.1 hbytes))

theorem KeyPart.suffix_inj {k k' : Kind} (part : KeyPart k) (part' : KeyPart k')
    (h : part.suffix = part'.suffix) : (⟨k, part⟩ : Sigma KeyPart) = ⟨k', part'⟩ := by
  cases part <;> cases part' <;> first | rfl | exact absurd h (by decide)

theorem KeyPart.suffix_cons {k : Kind} (part : KeyPart k) :
    ∃ rest, part.suffix.toList = ':' :: rest := by
  cases part <;> exact ⟨_, rfl⟩

/-- The keys of the store. -/
inductive RedisSlot : Kind → Type where
  | of {k : Kind} (key : PKey) (part : KeyPart k) : RedisSlot k
  | keysSet : RedisSlot .set

namespace RedisClient

variable (c : RedisClient ι)

def slotName : {k : Kind} → RedisSlot k → String
  | _, .of key part => c.keyName key part
  | _, .keysSet => c.keysSet

theorem keyName_toList (key : PKey) {k : Kind} (part : KeyPart k) :
    (c.keyName key part).toList = c.keyPrefix.toList ++
      ('p' :: ':' :: ((encodeURIComponent key.poller).toList ++
        (':' :: ((encodeURIComponent key.partition).toList ++ part.suffix.toList)))) := by
  simp [keyName]

/-- A name tells its key and its part: encoded components have no colon. -/
theorem slotName_inj {k k' : Kind} (s : RedisSlot k) (s' : RedisSlot k')
    (h : c.slotName s = c.slotName s') : (⟨k, s⟩ : Sigma RedisSlot) = ⟨k', s'⟩ := by
  have hkeys : c.keysSet.toList = c.keyPrefix.toList ++ ['k', 'e', 'y', 's'] := by
    simp [keysSet]
  have hchars := congrArg String.toList h
  cases s with
  | keysSet =>
    cases s' with
    | keysSet => rfl
    -- `keys` and `p:` differ in their first letter
    | of key' part' =>
      simp only [slotName, keyName_toList, hkeys, List.append_cancel_left_eq] at hchars
      exact absurd (List.cons.inj hchars).1 (by decide)
  | of key part =>
    cases s' with
    | keysSet =>
      simp only [slotName, keyName_toList, hkeys, List.append_cancel_left_eq] at hchars
      exact absurd (List.cons.inj hchars).1 (by decide)
    | of key' part' =>
      simp only [slotName, keyName_toList, List.append_cancel_left_eq, List.cons.injEq,
        true_and] at hchars
      -- the poller ends at the first colon, the partition at the next
      obtain ⟨hpoller, hrest⟩ := eq_of_cut (colon_not_encoded _) (colon_not_encoded _) hchars
      obtain ⟨rest, hrest₁⟩ := part.suffix_cons
      obtain ⟨rest', hrest₂⟩ := part'.suffix_cons
      rw [hrest₁, hrest₂] at hrest
      obtain ⟨hpartition, hsuffix⟩ :=
        eq_of_cut (colon_not_encoded _) (colon_not_encoded _) hrest
      have hparts : part.suffix = part'.suffix := by
        apply String.toList_inj.1
        rw [hrest₁, hrest₂, hsuffix]
      have hkey : key = key' := by
        have hp := encodeURIComponent_injective (String.toList_inj.1 hpoller)
        have hq := encodeURIComponent_injective (String.toList_inj.1 hpartition)
        cases key
        cases key'
        simp only at hp hq
        rw [hp, hq]
      subst hkey
      have hpart := KeyPart.suffix_inj part part' hparts
      cases hpart
      rfl

end RedisClient

/-! ## What a record shows -/

/-- The fields of the `:meta` hash. -/
def RedisMeta.field (m : RedisMeta) (name : String) : Option String :=
  if name = "lease_owner" then m.leaseOwner
  else if name = "lease_epoch" then m.leaseEpoch.map toString
  else if name = "lease_expires_at" then m.leaseExpiresAt.map toString
  else if name = "epoch_counter" then
    if m.epochCounter = 0 then none else some (toString m.epochCounter)
  else none

/-- The fields of the `:state` hash. -/
def RedisJson.statePairs (json : RedisJson ι) (s : PollerState) : List (String × String) :=
  [("lanes", json.lanes.stringify s.lanes), ("schedule", json.schedule.stringify s.schedule),
    ("paused", jsonBool s.paused), ("schemaVersion", jsonNullable s.schemaVersion),
    ("sequence", toString s.sequence), ("createdAt", toString s.createdAt),
    ("updatedAt", toString s.updatedAt)]

def RedisJson.stateField (json : RedisJson ι) (s : PollerState) : String → Option String :=
  Layout.setFields (fun _ => none) (json.statePairs s)

/-- The entries that stand for a record. -/
def RedisRecord.shown (json : RedisJson ι) (rec : RedisRecord ι) :
    {k : Kind} → KeyPart k → String → Option k.Entry
  | _, .meta_, f => rec.meta_.field f
  | _, .state, f => rec.state.bind fun s => json.stateField s f
  | _, .items, f => (rec.items.get f).map json.items.stringify
  | _, .outbox, f => (rec.outbox.get f).map Int.ofNat
  | _, .rows, f => (rec.rows.get f).map json.rows.stringify
  | _, .attempts, f => (rec.attempts.get f).map toString
  | _, .errors, f => (rec.errors.get f).map json.attemptInfo.stringify
  | _, .parked, f => (rec.parked.get f).map json.parked.stringify
  | _, .hold, f => rec.hold.get f
  | _, .validators, f => (rec.validators.get f).map json.validators.stringify
  | _, .log, f => (rec.log.get f).map fun e => Int.ofNat e.sequence

/-- The records of all keys. -/
abbrev RedisRecords (ι : Type) := PKey → RedisRecord ι

namespace RedisClient

variable (c : RedisClient ι)

/-- The members of the set of all keys. -/
def listing (recs : RedisRecords ι) (text : String) : Option Unit :=
  ((MemoryStore.readId text).filter fun key =>
    decide (member key = text) && (recs key).listed).map fun _ => ()

def slotContent (recs : RedisRecords ι) : {k : Kind} → RedisSlot k → String → Option k.Entry
  | _, .of key part => (recs key).shown c.json part
  | _, .keysSet => listing recs

/-- The records of all keys in one database. -/
def layout : Layout (RedisRecords ι) where
  Slot := RedisSlot
  name := c.slotName
  content := c.slotContent
  name_inj := c.slotName_inj

theorem listing_member (recs : RedisRecords ι) (key : PKey) :
    listing recs (member key) = if (recs key).listed then some () else none := by
  have hread : MemoryStore.readId (member key) = some key := MemoryStore.readId_id key
  unfold listing
  rw [hread]
  by_cases h : (recs key).listed <;> simp [h]

theorem listing_isSome (recs : RedisRecords ι) (text : String) :
    (listing recs text).isSome ↔ ∃ key, member key = text ∧ (recs key).listed = true := by
  constructor
  · intro h
    simp only [listing, Option.isSome_map, Option.isSome_filter, Option.any_eq_true,
      Bool.and_eq_true, decide_eq_true_eq] at h
    obtain ⟨key, -, hkey, hlisted⟩ := h
    exact ⟨key, hkey, hlisted⟩
  · rintro ⟨key, rfl, hlisted⟩
    rw [listing_member, if_pos hlisted]
    rfl

/-! ## One key at a time -/

variable {c} {recs : RedisRecords ι} {key : PKey} {rec rec' : RedisRecord ι}

/-- A record changes in one part. -/
structure PartEdit (json : RedisJson ι) (rec : RedisRecord ι) {k : Kind} (part : KeyPart k)
    (entries : String → Option k.Entry) (rec' : RedisRecord ι) : Prop where
  self : ∀ f, rec'.shown json part f = entries f
  other : ∀ {k' : Kind} (part' : KeyPart k'), (⟨k', part'⟩ : Sigma KeyPart) ≠ ⟨k, part⟩ →
    rec'.shown json part' = rec.shown json part'
  listed : rec'.listed = rec.listed

/-- An edit of a part of one record is one of its slot. -/
theorem PartEdit.edit {k : Kind} {part : KeyPart k} {entries : String → Option k.Entry}
    (h : PartEdit c.json rec part entries rec') (hrec : recs key = rec) :
    c.layout.Edit recs (.of key part : RedisSlot k) entries (Function.update recs key rec') where
  self := by
    intro f
    show (Function.update recs key rec' key).shown c.json part f = entries f
    rw [Function.update_self]
    exact h.self f
  other := by
    intro k' s' hne
    cases s' with
    | of key' part' =>
      show (Function.update recs key rec' key').shown c.json part' = (recs key').shown c.json part'
      by_cases hkey : key' = key
      · subst hkey
        rw [Function.update_self, hrec]
        apply h.other
        intro hpart
        cases hpart
        exact hne rfl
      · rw [Function.update_of_ne hkey]
    | keysSet =>
      show listing (Function.update recs key rec') = listing recs
      have hlisted : ∀ key', (Function.update recs key rec' key').listed = (recs key').listed := by
        intro key'
        by_cases hkey : key' = key
        · subst hkey
          rw [Function.update_self, h.listed, hrec]
        · rw [Function.update_of_ne hkey]
      funext text
      simp only [listing, hlisted]

/-- Membership in the set of all keys changes for one key. -/
theorem listed_edit {b : Bool} (hrec : recs key = rec) :
    c.layout.Edit recs (.keysSet : RedisSlot .set)
      (Function.update (c.layout.content recs (.keysSet : RedisSlot .set)) (member key)
        (if b then some () else none))
      (Function.update recs key { rec with listed := b }) where
  self := by
    intro text
    show listing (Function.update recs key { rec with listed := b }) text =
      Function.update (listing recs) (member key) (if b then some () else none) text
    by_cases htext : text = member key
    · subst htext
      rw [Function.update_self, listing_member, Function.update_self]
    · rw [Function.update_of_ne htext]
      have hkeys : ∀ key', member key' = text →
          (Function.update recs key { rec with listed := b } key').listed = (recs key').listed := by
        intro key' hkey'
        rw [Function.update_of_ne]
        rintro rfl
        exact htext hkey'.symm
      -- another member stands for another key
      have hsame : ∀ key', (decide (member key' = text) &&
          (Function.update recs key { rec with listed := b } key').listed) =
            (decide (member key' = text) && (recs key').listed) := by
        intro key'
        by_cases hkey' : member key' = text
        · rw [hkeys key' hkey']
        · simp [hkey']
      simp only [listing, hsame]
  other := by
    intro k' s' hne
    cases s' with
    | keysSet => exact absurd rfl hne
    | of key' part' =>
      show (Function.update recs key _ key').shown c.json part' = (recs key').shown c.json part'
      by_cases hkey : key' = key
      · subst hkey
        rw [Function.update_self, hrec]
        cases part' <;> rfl
      · rw [Function.update_of_ne hkey]

end RedisClient

end Watukuy
