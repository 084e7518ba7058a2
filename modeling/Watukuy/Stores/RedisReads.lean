import Watukuy.Stores.RedisWrites
import Watukuy.Stores.Equivalence

/-!
# What the methods read

`Reads` says what a command replies that leaves every record alone. The loops over the pages of the
log come to an end: each round but the last is over a full page.
-/

set_option autoImplicit false

namespace Watukuy

open Library Redis

variable {ι : Type}

namespace RedisClient

variable {c : RedisClient ι} {key : PKey} {rec : RedisRecord ι} {α β : Type} {k : Kind}

/-! ## Commands that leave the records alone -/

/-- The command succeeds, leaves every record, and `Q` holds of its reply. -/
def Reads (c : RedisClient ι) (key : PKey) (rec : RedisRecord ι) (cmd : Command α)
    (Q : α → Prop) : Prop :=
  ∀ recs, recs key = rec → c.layout.Meets recs cmd fun a recs' => Q a ∧ recs' = recs

theorem Reads.bind {cmd : Command α} {f : α → Command β} {Q : α → Prop} {R : β → Prop}
    (h : c.Reads key rec cmd Q) (hf : ∀ a, Q a → c.Reads key rec (f a) R) :
    c.Reads key rec (cmd >>= f) R := by
  intro recs hrec
  refine (h recs hrec).bind ?_
  rintro a recs' ⟨ha, rfl⟩
  exact hf a ha recs' hrec

theorem reads_pure {a : α} {Q : α → Prop} (h : Q a) : c.Reads key rec (pure a) Q :=
  fun _ _ => Layout.meets_pure ⟨h, rfl⟩

theorem Steps.reads {cmd : Command α} {a : α} {Q : α → Prop} (h : c.Steps key rec cmd a rec)
    (hQ : Q a) : c.Reads key rec cmd Q := by
  intro recs hrec
  refine (h recs hrec).mono ?_
  rintro b recs' ⟨rfl, rfl⟩
  refine ⟨hQ, ?_⟩
  rw [← hrec, Function.update_eq_self]

theorem Reads.steps {cmd : Command α} {a : α} (h : c.Reads key rec cmd fun b => b = a) :
    c.Steps key rec cmd a rec :=
  steps_of_runs h

theorem Reads.mono {cmd : Command α} {Q R : α → Prop} (h : c.Reads key rec cmd Q)
    (hQ : ∀ a, Q a → R a) : c.Reads key rec cmd R :=
  fun recs hrec => (h recs hrec).mono fun a _ ha => ⟨hQ a ha.1, ha.2⟩

theorem reads_entriesOf (part : KeyPart k) :
    c.Reads key rec (entriesOf k (c.keyName key part)) fun m =>
      ∀ f, m.get f = rec.shown c.json part f := by
  rintro recs rfl
  exact Layout.meets_entriesOf (L := c.layout) (x := recs) (.of key part : RedisSlot k)

/-! ## Counts -/

theorem keys_mapValues {ν ν' : Type} (g : ν → ν') (m : OrderedMap String ν) :
    (m.mapValues g).keys = m.keys := by
  rw [OrderedMap.keys, OrderedMap.mapValues, List.map_map]
  rfl

theorem values_mapValues {ν ν' : Type} (g : ν → ν') (m : OrderedMap String ν) :
    (m.mapValues g).values = m.values.map g := by
  rw [OrderedMap.values, OrderedMap.mapValues, List.map_map, OrderedMap.values, List.map_map]
  rfl

theorem steps_countItems : c.Steps key rec (c.countItems key) rec.items.keys.length rec := by
  rw [← keys_mapValues c.json.items.stringify]
  apply steps_of_runs
  rintro recs rfl
  exact Layout.runs_hlen (L := c.layout) (x := recs) (.of key .items : RedisSlot .hash)
    (OrderedMap.get_mapValues _ _)

theorem steps_countParked : c.Steps key rec (c.countParked key) rec.countParked rec := by
  rw [RedisRecord.countParked, ← keys_mapValues c.json.parked.stringify]
  apply steps_of_runs
  rintro recs rfl
  exact Layout.runs_hlen (L := c.layout) (x := recs) (.of key .parked : RedisSlot .hash)
    (OrderedMap.get_mapValues _ _)

theorem steps_countPending : c.Steps key rec (c.countPending key) rec.countPending rec := by
  rw [RedisRecord.countPending, ← keys_mapValues Int.ofNat]
  apply steps_of_runs
  rintro recs rfl
  exact Layout.runs_zcard (L := c.layout) (x := recs) (.of key .outbox : RedisSlot .zset)
    (OrderedMap.get_mapValues _ _)

/-! ## The state -/

theorem steps_field {hash : OrderedMap String String} {name text : String} {fallback a : α}
    {parse : String → Option α} (hget : hash.get name = some text) (hparse : parse text = some a) :
    c.Steps key rec (field hash name fallback parse) a rec := by
  rw [field, hget]
  show c.Steps key rec (parsed (parse text)) a rec
  rw [hparse]
  exact steps_pure a

theorem parseBool_json (b : Bool) : parseBool (jsonBool b) = some b := by
  cases b <;> decide

theorem toNat?_text (n : Nat) : (toString n).toNat? = some n := Nat.toNat?_repr n

theorem parseNullable_json (o : Option Nat) : parseNullable (jsonNullable o) = some o := by
  cases o with
  | none => rfl
  | some n =>
    have hnull : ¬toString n = "null" := by
      intro h
      have hchar : 'n' ∈ (toString n).toList := by
        rw [h]
        decide
      have hdigit := Nat.isDigit_of_mem_toDigits (by decide) (by decide)
        ((Nat.toList_repr : (toString n).toList = _) ▸ hchar)
      exact absurd hdigit (by decide)
    rw [parseNullable, jsonNullable, if_neg hnull, toNat?_text]
    rfl

theorem steps_readState {hash : OrderedMap String String} {s : PollerState}
    (h : ∀ f, hash.get f = c.json.stateField s f) :
    c.Steps key rec (c.readState hash) s rec := by
  have hget : ∀ p ∈ c.json.statePairs s, hash.get p.1 = some p.2 := by
    intro p hp
    rw [h]
    simp only [RedisJson.statePairs, List.mem_cons, List.not_mem_nil, or_false] at hp
    rcases hp with rfl | rfl | rfl | rfl | rfl | rfl | rfl <;>
      simp [RedisJson.stateField, RedisJson.statePairs, Layout.setFields]
  simp only [RedisJson.statePairs, List.forall_mem_cons] at hget
  obtain ⟨hlanes, hschedule, hpaused, hversion, hsequence, hcreated, hupdated, -⟩ := hget
  refine (steps_field hlanes (c.json.lanes.parse_stringify _)).bind ?_
  refine (steps_field hschedule (c.json.schedule.parse_stringify _)).bind ?_
  refine (steps_field hpaused (parseBool_json _)).bind ?_
  refine (steps_field hversion (parseNullable_json _)).bind ?_
  refine (steps_field hsequence (toNat?_text _)).bind ?_
  refine (steps_field hcreated (toInt?_int _)).bind ?_
  refine (steps_field hupdated (toInt?_int _)).bind ?_
  exact steps_pure s

theorem steps_loadState : c.Steps key rec (c.loadState key) rec.state rec := by
  apply Reads.steps
  refine (reads_entriesOf .state).bind ?_
  intro hash hget
  cases hs : rec.state with
  | none =>
    -- no state shows no field, and `HGETALL` of no key is empty
    have hempty : hash.keys.length = 0 := by
      rw [List.length_eq_zero_iff, List.eq_nil_iff_forall_not_mem]
      intro f hf
      rw [OrderedMap.mem_keys_iff, hget] at hf
      simp [RedisRecord.shown, hs] at hf
    rw [if_pos hempty]
    exact reads_pure rfl
  | some s =>
    have hshown : ∀ f, hash.get f = c.json.stateField s f := by
      intro f
      rw [hget]
      simp [RedisRecord.shown, hs]
    have hsome : ¬hash.keys.length = 0 := by
      intro hzero
      have hf : "updatedAt" ∈ hash.keys := by
        rw [OrderedMap.mem_keys_iff, hshown]
        simp [RedisJson.stateField, RedisJson.statePairs, Layout.setFields]
      rw [List.length_eq_zero_iff.1 hzero] at hf
      cases hf
    rw [if_neg hsome]
    exact Steps.reads ((steps_readState hshown).bind (steps_pure (some s))) rfl

theorem steps_saveStateUnfenced (patch : StatePatch) :
    c.Steps key rec (c.saveStateUnfenced key patch) () (rec.saveStateUnfenced patch) := by
  refine (steps_arg rfl).bind ((steps_applyState patch (l := []) ⟨by decide, ?_⟩).bind ?_)
  · exact (List.append_nil _).symm
  · exact (steps_arg rfl).bind steps_sadd

/-! ## Keys and items -/

/-- Nothing is left of a record whose parts are all cleared. -/
theorem clear_all : { ((((((((((rec.clear .meta_).clear .state).clear .items).clear
    .outbox).clear .rows).clear .attempts).clear .errors).clear .parked).clear .hold).clear
      .validators).clear .log with listed := false } = rec.deleteKey := by
  cases rec
  rfl

theorem steps_deleteKey : c.Steps key rec (c.deleteKey key) () rec.deleteKey := by
  rw [← clear_all]
  refine (steps_del .meta_).bind ((steps_del .state).bind ((steps_del .items).bind ?_))
  refine (steps_del .outbox).bind ((steps_del .rows).bind ((steps_del .attempts).bind ?_))
  refine (steps_del .errors).bind ((steps_del .parked).bind ((steps_del .hold).bind ?_))
  exact (steps_del .validators).bind ((steps_del .log).bind steps_srem)

theorem steps_clearItems : c.Steps key rec (c.clearItems key) () rec.clearItems :=
  steps_del .items

/-- The rows of the given identities that are there. -/
def found (rec : RedisRecord ι) (ids : List String) (out : OrderedMap String (ItemRow ι)) :
    OrderedMap String (ItemRow ι) :=
  ids.foldl (fun out id => ((rec.items.get id).map (out.set id)).getD out) out

theorem steps_collect (ids : List String) (out : OrderedMap String (ItemRow ι)) :
    c.Steps key rec
      (collect c.json.items.parse (ids.zip (ids.map (rec.shown c.json .items))) out)
      (found rec ids out) rec := by
  induction ids generalizing out with
  | nil => exact steps_pure out
  | cons id ids ih =>
    have hshown : rec.shown c.json .items id =
        (rec.items.get id).map c.json.items.stringify := rfl
    rw [List.map_cons, List.zip_cons_cons, hshown, found, List.foldl_cons]
    cases rec.items.get id with
    | none => exact ih out
    | some row => exact (steps_parsed row).bind (ih (out.set id row))

theorem steps_loadVersions (ids : List String) :
    c.Steps key rec (c.loadVersions key ids) (found rec ids OrderedMap.empty) rec := by
  unfold loadVersions
  split
  · next hzero =>
    rw [List.length_eq_zero_iff.1 hzero]
    exact steps_pure _
  · exact (steps_hmget .items ids).bind (steps_collect ids OrderedMap.empty)

theorem get_found (rec : RedisRecord ι) (ids : List String)
    (out : OrderedMap String (ItemRow ι)) (id : String)
    (hout : ∀ row, out.get id = some row → rec.items.get id = some row) :
    (found rec ids out).get id = if id ∈ ids then rec.items.get id else out.get id := by
  induction ids generalizing out with
  | nil => rfl
  | cons a ids ih =>
    rw [found, List.foldl_cons]
    cases ha : rec.items.get a with
    | none =>
      refine (ih out hout).trans ?_
      by_cases hid : id ∈ ids
      · simp [hid]
      · by_cases hia : id = a
        · subst hia
          rw [if_neg hid, if_pos List.mem_cons_self, ha, Option.eq_none_iff_forall_ne_some]
          intro row hrow
          rw [hout row hrow] at ha
          cases ha
        · simp [hid, hia]
    | some row =>
      have hset : ∀ row', (out.set a row).get id = some row' → rec.items.get id = some row' := by
        intro row' hrow'
        rw [OrderedMap.get_set] at hrow'
        split at hrow'
        · next hia => rw [hia, ha, ← hrow']
        · exact hout row' hrow'
      refine (ih (out.set a row) hset).trans ?_
      by_cases hid : id ∈ ids
      · simp [hid]
      · by_cases hia : id = a
        · subst hia
          rw [if_neg hid, if_pos List.mem_cons_self, OrderedMap.get_set_self, ha]
        · simp [hid, hia, OrderedMap.get_set_ne _ hia]

/-! ## Streaming identities -/

/-- The identities of a list that were not seen before, each once. -/
def unseen (seen : List String) : List String → List String
  | [] => []
  | id :: ids => if id ∈ seen then unseen seen ids else id :: unseen (seen ++ [id]) ids

theorem mem_unseen (ids seen : List String) (a : String) :
    a ∈ unseen seen ids ↔ a ∈ ids ∧ a ∉ seen := by
  induction ids generalizing seen with
  | nil => simp [unseen]
  | cons id ids ih =>
    unfold unseen
    split
    · next hin =>
      rw [ih, List.mem_cons]
      constructor
      · exact fun h => ⟨Or.inr h.1, h.2⟩
      · rintro ⟨rfl | ha, hseen⟩
        · exact absurd hin hseen
        · exact ⟨ha, hseen⟩
    · next hout =>
      rw [List.mem_cons, ih, List.mem_cons, List.mem_append, List.mem_singleton]
      constructor
      · rintro (rfl | ⟨ha, hseen⟩)
        · exact ⟨Or.inl rfl, hout⟩
        · exact ⟨Or.inr ha, fun h => hseen (Or.inl h)⟩
      · rintro ⟨rfl | ha, hseen⟩
        · exact Or.inl rfl
        · by_cases haid : a = id
          · exact Or.inl haid
          · exact Or.inr ⟨ha, not_or.2 ⟨hseen, haid⟩⟩

theorem nodup_unseen (ids seen : List String) : (unseen seen ids).Nodup := by
  induction ids generalizing seen with
  | nil => exact List.nodup_nil
  | cons id ids ih =>
    unfold unseen
    split
    · exact ih seen
    · refine List.nodup_cons.2 ⟨?_, ih _⟩
      rw [mem_unseen]
      exact fun h => h.2 (List.mem_append_right _ List.mem_cons_self)

theorem unseen_append (ids ids' seen : List String) :
    unseen seen (ids ++ ids') = unseen seen ids ++ unseen (seen ++ unseen seen ids) ids' := by
  induction ids generalizing seen with
  | nil => simp [unseen]
  | cons id ids ih =>
    by_cases hin : id ∈ seen
    · simp only [List.cons_append, unseen, if_pos hin]
      exact ih seen
    · simp only [List.cons_append, unseen, if_neg hin, ih, List.append_assoc, List.nil_append]

theorem buffered_eq (page seen buffer : List String) :
    buffered seen buffer page = (seen ++ unseen seen page, buffer ++ unseen seen page) := by
  induction page generalizing seen buffer with
  | nil => simp [buffered, unseen]
  | cons id page ih =>
    unfold buffered unseen
    split
    · exact ih seen buffer
    · rw [ih, List.append_assoc, List.append_assoc]
      rfl

theorem flatten_slices {n : Nat} (fuel : Nat) (l : List String)
    (h : l.length ≤ n * fuel) : (KeyRecord.slices n fuel l).flatten = l := by
  induction fuel generalizing l with
  | zero =>
    rw [Nat.mul_zero, Nat.le_zero, List.length_eq_zero_iff] at h
    rw [h]
    rfl
  | succ fuel ih =>
    cases l with
    | nil => rfl
    | cons a l =>
      have hrest : ((a :: l).drop n).length ≤ n * fuel := by
        rw [List.length_drop]
        rw [Nat.mul_succ] at h
        omega
      have hslices : KeyRecord.slices n (fuel + 1) (a :: l) =
          (a :: l).take n :: KeyRecord.slices n fuel ((a :: l).drop n) := rfl
      rw [hslices, List.flatten_cons, ih _ hrest, List.take_append_drop]

/-- The batches are the identities of all pages, each once, after those in the buffer. -/
theorem flatten_streamPages (pages : List (List String)) (seen buffer : List String) :
    (streamPages seen buffer pages).flatten = buffer ++ unseen seen pages.flatten := by
  induction pages generalizing seen buffer with
  | nil =>
    unfold streamPages
    split
    · simp [unseen]
    · next hempty =>
      rw [Nat.not_lt, Nat.le_zero, List.length_eq_zero_iff] at hempty
      rw [hempty]
      rfl
  | cons page pages ih =>
    have htake : ∀ l : List String, (l.take (l.length / 1000 * 1000)).length ≤
        1000 * (l.length / 1000) := by
      intro l
      rw [List.length_take]
      omega
    simp only [streamPages, buffered_eq, List.flatten_append, ih]
    -- what is yielded now and what stays in the buffer are the buffer
    rw [flatten_slices _ _ (htake _), ← List.append_assoc, List.take_append_drop,
      List.flatten_cons, unseen_append, List.append_assoc]

theorem reads_streamIdentities (server : RedisServer) :
    c.Reads key rec (c.streamIdentities server key) fun batches =>
      batches.flatten.Perm rec.items.keys := by
  refine (reads_entriesOf .items).bind ?_
  intro hash hget
  refine reads_pure ?_
  rw [flatten_streamPages, List.nil_append, List.perm_ext_iff_of_nodup (nodup_unseen _ _)
    rec.items.keys_nodup]
  intro id
  rw [mem_unseen, server.pages_all, OrderedMap.mem_keys_iff, OrderedMap.mem_keys_iff, hget]
  simp [RedisRecord.shown]

/-! ## Sorted sets -/

/-- The entries of a map by a rank of their values, and by name where the ranks are equal. -/
def byRank {ν : Type} (rank : ν → Nat) (m : OrderedMap String ν) : List (String × ν) :=
  m.entries.insertionSort (ByRank (fun e => rank e.2) Prod.fst)

theorem ranked_mapValues {ν : Type} (rank : ν → Nat) (m : OrderedMap String ν) :
    ranked (m.mapValues fun v => Int.ofNat (rank v)) =
      (byRank rank m).map fun e => (e.1, Int.ofNat (rank e.2)) := by
  refine (List.map_insertionSort _ _ _ _ ?_).symm
  intro a _ b _
  simp only [ByRank, Int.ofNat_eq_natCast, Int.ofNat_lt, Int.ofNat_inj]

theorem steps_zrange (part : KeyPart .zset) {ν : Type} (rank : ν → Nat) {m : OrderedMap String ν}
    (hm : ∀ f, rec.shown c.json part f = (m.get f).map fun v => Int.ofNat (rank v))
    (above : Option Nat) (offset count : Nat) :
    c.Steps key rec (zrangebyscore (c.keyName key part) (above.map Int.ofNat) offset count)
      (((((byRank rank m).filter fun e => above.all fun n => decide (n < rank e.2)).drop
        offset).take count).map Prod.fst) rec := by
  have hreply : ((((ranked (m.mapValues fun v => Int.ofNat (rank v))).filter fun e =>
      (above.map Int.ofNat).all fun n => decide (n < e.2)).drop offset).take count).map Prod.fst =
      ((((byRank rank m).filter fun e => above.all fun n => decide (n < rank e.2)).drop
        offset).take count).map Prod.fst := by
    rw [ranked_mapValues, List.filter_map, ← List.map_drop, ← List.map_take, List.map_map]
    have hkeep : ((fun e : String × Int => (above.map Int.ofNat).all fun n => decide (n < e.2)) ∘
        fun e : String × ν => (e.1, Int.ofNat (rank e.2))) =
          fun e => above.all fun n => decide (n < rank e.2) := by
      funext e
      cases above with
      | none => rfl
      | some n => simp
    rw [hkeep]
    rfl
  rw [← hreply]
  apply steps_of_runs
  rintro recs rfl
  refine Layout.runs_zrangebyscore (L := c.layout) (x := recs) (.of key part : RedisSlot .zset)
    ?_ _ _ _
  intro f
  rw [OrderedMap.get_mapValues]
  exact (hm f).symm

/-! ## The outbox -/

theorem number_text (n : Nat) : (number (toString n)).toNat = n := by
  rw [number, toInt?_nat, Option.getD_some, Int.toNat_natCast]

/-- One row of `loadPending`, with its attempts and its error. -/
theorem steps_readPending (ids : List String) :
    c.Steps key rec
      (c.readPending ((ids.map (rec.shown c.json .rows)).zip
        ((ids.map (rec.shown c.json .attempts)).zip (ids.map (rec.shown c.json .errors)))))
      (ids.filterMap rec.pendingRow) rec := by
  induction ids with
  | nil => exact steps_pure []
  | cons id ids ih =>
    have hrows : rec.shown c.json .rows id = (rec.rows.get id).map c.json.rows.stringify := rfl
    have hattempts : rec.shown c.json .attempts id = (rec.attempts.get id).map toString := rfl
    have herrors : rec.shown c.json .errors id =
        (rec.errors.get id).map c.json.attemptInfo.stringify := rfl
    simp only [List.map_cons, List.zip_cons_cons]
    rw [hrows, hattempts, herrors]
    cases hrow : rec.rows.get id with
    | none =>
      have hnone : rec.pendingRow id = none := by rw [RedisRecord.pendingRow, hrow]; rfl
      rw [List.filterMap_cons_none hnone]
      exact ih
    | some row =>
      -- the error is kept apart from the row, or the row's own is the last
      cases herror : rec.errors.get id with
      | none =>
        have hsome : rec.pendingRow id =
            some (withAttempts row ((rec.attempts.get id).map toString)) := by
          simp only [RedisRecord.pendingRow, hrow, herror, Option.map_some]
          cases rec.attempts.get id with
          | none => rfl
          | some n => rw [Option.map_some, withAttempts, number_text]
        rw [List.filterMap_cons_some hsome]
        refine (steps_parsed row).bind (Steps.bind ?_ (ih.bind (steps_pure _)))
        exact steps_pure _
      | some info =>
        have hsome : rec.pendingRow id =
            some { withAttempts row ((rec.attempts.get id).map toString) with
              lastError := info.lastError, nextAttemptAt := info.nextAttemptAt } := by
          simp only [RedisRecord.pendingRow, hrow, herror, Option.map_some]
          cases rec.attempts.get id with
          | none => rfl
          | some n => rw [Option.map_some, withAttempts, number_text]
        rw [List.filterMap_cons_some hsome]
        refine (steps_parsed row).bind (Steps.bind ?_ (ih.bind (steps_pure _)))
        exact (steps_parsed info).bind (steps_pure _)

theorem steps_loadPending (limit : Nat) :
    c.Steps key rec (c.loadPending key limit) (rec.loadPending limit) rec := by
  have hids : (((byRank (fun n => n) rec.outbox).filter fun e =>
      (none : Option Nat).all fun n => decide (n < e.2)).drop 0).take limit =
      (byRank (fun n => n) rec.outbox).take limit := by
    simp
  have hloaded : rec.loadPending limit =
      ((byRank (fun n => n) rec.outbox).take limit |>.map Prod.fst).filterMap rec.pendingRow := by
    rw [List.map_take]
    rfl
  unfold loadPending
  split
  · next hzero =>
    rw [hloaded, hzero]
    exact steps_pure _
  · refine (steps_zrange .outbox (fun n => n) (fun _ => rfl) none 0 limit).bind ?_
    rw [hids, hloaded]
    split
    · next hempty =>
      rw [List.length_eq_zero_iff.1 hempty]
      exact steps_pure _
    · refine (steps_hmget .rows _).bind ((steps_hmget .attempts _).bind ?_)
      exact (steps_hmget .errors _).bind (steps_readPending _)

/-! ## Parked rows -/

theorem steps_parsedAll {codec : JsonCodec α} (as : List α) :
    c.Steps key rec (parsedAll codec.parse (as.map codec.stringify)) as rec := by
  induction as with
  | nil => exact steps_pure []
  | cons a as ih => exact (steps_parsed a).bind (ih.bind (steps_pure _))

/-- Texts of values in another order are the values in another order. -/
theorem exists_values {codec : JsonCodec α} {texts : List String} {as : List α}
    (h : texts.Perm (as.map codec.stringify)) :
    ∃ bs : List α, bs.Perm as ∧ texts = bs.map codec.stringify := by
  have hread : ∀ l : List α, (l.map codec.stringify).filterMap codec.parse = l := by
    intro l
    rw [List.filterMap_map]
    have hsome : codec.parse ∘ codec.stringify = some := funext codec.parse_stringify
    rw [hsome, List.filterMap_some]
  refine ⟨texts.filterMap codec.parse, ?_, ?_⟩
  · have hperm := h.filterMap codec.parse
    rwa [hread] at hperm
  · have hall : ∀ t ∈ texts, ∃ a, t = codec.stringify a := by
      intro t ht
      obtain ⟨a, -, rfl⟩ := List.mem_map.1 (h.mem_iff.1 ht)
      exact ⟨a, rfl⟩
    clear h
    induction texts with
    | nil => rfl
    | cons t texts ih =>
      obtain ⟨a, rfl⟩ := hall t List.mem_cons_self
      rw [List.filterMap_cons_some (codec.parse_stringify a), List.map_cons]
      exact congrArg _ (ih fun t ht => hall t (List.mem_cons_of_mem _ ht))

theorem reads_hvals (part : KeyPart .hash) {m : OrderedMap String String}
    (hm : ∀ f, m.get f = rec.shown c.json part f) :
    c.Reads key rec (hvals (c.keyName key part)) fun values => values.Perm m.values := by
  rintro recs rfl
  exact Layout.meets_hvals (L := c.layout) (x := recs) (.of key part : RedisSlot .hash) hm

theorem reads_listParked (server : RedisServer) (kind : Option ParkedKind) (limit : Option Nat) :
    c.Reads key rec (c.listParked server key kind limit) fun rows =>
      ∃ values : List (ParkedRow ι), values.Perm rec.parked.values ∧
        rows = RedisRecord.listParked values kind limit := by
  refine (reads_hvals .parked (m := rec.parked.mapValues c.json.parked.stringify)
    (OrderedMap.get_mapValues _ _)).bind ?_
  intro texts htexts
  rw [values_mapValues] at htexts
  obtain ⟨rows, hperm, hrows⟩ := exists_values ((server.order_perm texts).trans htexts)
  rw [hrows]
  exact (steps_parsedAll rows).reads rfl |>.bind fun _ h => reads_pure ⟨rows, hperm, by rw [h]⟩

theorem reads_heldKeys (server : RedisServer) :
    c.Reads key rec (c.heldKeys server key) fun keys =>
      ∃ values : List String, values.Perm rec.hold.values ∧ keys = { k | k ∈ values } := by
  refine (reads_hvals .hold (m := rec.hold) fun _ => rfl).bind ?_
  intro values hvalues
  exact reads_pure ⟨server.order values, (server.order_perm values).trans hvalues, rfl⟩

/-- The arguments of one row of `RETRY_PARKED`. -/
def retryText (c : RedisClient ι) (arg : String × OutboxRow ι) : List String :=
  [arg.1, arg.2.eventId, toString arg.2.sequence, c.json.rows.stringify arg.2]

theorem retryArgs_cons (rec : RedisRecord ι) (id : String) (ids : List String) :
    rec.retryArgs (id :: ids) =
      (((rec.parked.get id).bind retriable).map fun row => (id, row)).toList ++
        rec.retryArgs ids := by
  unfold RedisRecord.retryArgs
  cases hrow : rec.parked.get id with
  | none => simp [hrow]
  | some row =>
    obtain ⟨_, kind, event, _, _, _, _, _⟩ := row
    cases kind <;> cases event <;> simp [hrow, retriable]

theorem steps_retryArgs (ids : List String) :
    c.Steps key rec (c.retryArgs (ids.zip (ids.map (rec.shown c.json .parked))))
      ((rec.retryArgs ids).length, (rec.retryArgs ids).flatMap c.retryText) rec := by
  induction ids with
  | nil => exact steps_pure _
  | cons id ids ih =>
    have hparked : rec.shown c.json .parked id =
        (rec.parked.get id).map c.json.parked.stringify := rfl
    rw [List.map_cons, List.zip_cons_cons, hparked, retryArgs_cons]
    cases rec.parked.get id with
    | none => exact ih
    | some row =>
      refine (steps_parsed row).bind (ih.bind ?_)
      rw [Option.bind_some]
      cases retriable row with
      | none => exact steps_pure _
      | some outbox => exact steps_pure _

theorem followed_retryRows (args : List (String × OutboxRow ι)) (rec : RedisRecord ι) :
    followed (fun r a => r.retryOne a.1 a.2) rec args = rec.retryRows args := by
  induction args generalizing rec with
  | nil => rfl
  | cons arg args ih =>
    rw [followed, ih]
    rfl

/-- The keys of `RETRY_PARKED`. -/
def retryKeys (c : RedisClient ι) (key : PKey) : List String :=
  [c.keyName key .parked, c.keyName key .hold, c.keyName key .outbox, c.keyName key .rows,
    c.keyName key .attempts, c.keyName key .errors]

theorem retryOne_parked {id : String} (row : OutboxRow ι) (h : (rec.parked.get id).isSome = true) :
    rec.retryOne id row =
      (1, (((((rec.put .rows row.eventId row).drop .attempts row.eventId).drop .errors
        row.eventId).put .outbox row.eventId row.sequence).drop .parked id).drop .hold id) := by
  simp only [RedisRecord.retryOne, if_pos h, RedisRecord.put, RedisRecord.drop]

theorem steps_retryRow {argv l : List String} {i : Nat} (arg : String × OutboxRow ι)
    (h : Rest argv i (c.retryText arg ++ l)) :
    c.Steps key rec (RedisScripts.retryRow (c.retryKeys key) argv i) (rec.retryOne arg.1 arg.2).1
      (rec.retryOne arg.1 arg.2).2 := by
  refine (steps_arg h.head).bind ((steps_arg h.tail.head).bind ?_)
  refine (steps_arg h.tail.tail.head).bind ((steps_arg h.tail.tail.tail.head).bind ?_)
  refine (steps_hexists .parked).bind ?_
  have hthere : (rec.shown c.json .parked arg.1).isSome = (rec.parked.get arg.1).isSome :=
    Option.isSome_map ..
  rw [hthere]
  by_cases hin : (rec.parked.get arg.1).isSome = true
  · rw [if_pos hin, retryOne_parked arg.2 hin]
    refine (steps_put .rows arg.2 rfl).bind ((steps_drop .attempts rfl).bind ?_)
    refine (steps_drop .errors rfl).bind ?_
    refine (steps_zadd .outbox arg.2.sequence (toInt?_nat _)).bind ?_
    exact (steps_drop .parked rfl).bind ((steps_drop .hold rfl).bind (steps_pure 1))
  · rw [if_neg hin, RedisRecord.retryOne, if_neg hin]
    exact steps_pure 0

theorem steps_retryRows (args : List (String × OutboxRow ι)) :
    c.Steps key rec
      (RedisScripts.retryParked (c.retryKeys key)
        (toString args.length :: args.flatMap c.retryText))
      (rec.retryRows args).1 (rec.retryRows args).2 := by
  rw [← followed_retryRows]
  refine (steps_arg rfl).bind ((steps_toNumber (toInt?_nat _)).bind ?_)
  have hargs : Rest (toString args.length :: args.flatMap c.retryText) 2
      (args.flatMap c.retryText ++ []) := ⟨by decide, (List.append_nil _).symm⟩
  have hfour : ∀ arg ∈ args, (c.retryText arg).length = 4 := fun _ _ => rfl
  refine steps_times (P := fun _ => True) trivial (fun _ _ _ => trivial) hfour ?_ hargs
  intro arg _ i l r _ h
  exact steps_retryRow arg h

theorem steps_retryParked (ids : List String) :
    c.Steps key rec (c.retryParked key ids) (rec.retryParked ids).1 (rec.retryParked ids).2 := by
  unfold retryParked
  split
  · next hzero =>
    rw [List.length_eq_zero_iff.1 hzero]
    exact steps_pure 0
  · refine (steps_hmget .parked ids).bind ((steps_retryArgs ids).bind ?_)
    unfold RedisRecord.retryParked
    dsimp only
    by_cases hnone : (rec.retryArgs ids).length = 0
    · rw [if_pos hnone, if_pos (List.isEmpty_iff_length_eq_zero.2 hnone)]
      exact steps_pure 0
    · rw [if_neg hnone, if_neg (fun h => hnone (List.isEmpty_iff_length_eq_zero.1 h))]
      exact steps_retryRows _

theorem steps_discardRows {name name' : String} (hname : name = c.keyName key .parked)
    (hname' : name' = c.keyName key .hold) (ids : List String) :
    c.Steps key rec (RedisScripts.discardParked [name, name'] ids) (rec.discardParked ids).1
      (rec.discardParked ids).2 := by
  subst hname hname'
  induction ids generalizing rec with
  | nil => exact steps_pure 0
  | cons id ids ih =>
    have hthere : (rec.shown c.json .parked id).isSome = (rec.parked.get id).isSome :=
      Option.isSome_map ..
    refine (steps_drop .parked rfl).bind ((steps_drop .hold rfl).bind (ih.bind ?_))
    rw [hthere]
    exact steps_pure _

theorem steps_discardParked (ids : List String) :
    c.Steps key rec (c.discardParked key ids) (rec.discardParked ids).1
      (rec.discardParked ids).2 := by
  unfold discardParked
  split
  · next hzero =>
    rw [List.length_eq_zero_iff.1 hzero]
    exact steps_pure 0
  · exact steps_discardRows rfl rfl ids

theorem steps_getValidator (urlHash : String) :
    c.Steps key rec (c.getValidator key urlHash) (rec.validators.get urlHash) rec := by
  refine (steps_hmget .validators [urlHash]).bind ?_
  have hreply : ([urlHash].map (rec.shown c.json .validators))[0]?.join =
      (rec.validators.get urlHash).map c.json.validators.stringify := rfl
  rw [hreply]
  cases rec.validators.get urlHash with
  | none => exact steps_pure none
  | some validator => exact (steps_parsed validator).bind (steps_pure _)

/-! ## The log -/

/-- The members of the log set are the texts of what they stand for. -/
def Texts (json : RedisJson ι) (rec : RedisRecord ι) : Prop :=
  ∀ text e, rec.log.get text = some e → text = json.logged.stringify e

section Log

variable (htexts : Texts c.json rec) (above : Option Nat)

/-- The members above a sequence, in their order. -/
def membersAbove (rec : RedisRecord ι) (above : Option Nat) : List (String × LoggedEvent ι) :=
  rec.logMembers.filter fun m => above.all fun n => decide (n < m.2.sequence)

include htexts in
theorem steps_page (offset count : Nat) {cmd : List String → List (LoggedEvent ι) → Command β}
    {b : β} {rec' : RedisRecord ι}
    (h : c.Steps key rec
      (cmd ((((membersAbove rec above).drop offset).take count).map Prod.fst)
        ((((membersAbove rec above).drop offset).take count).map Prod.snd)) b rec') :
    c.Steps key rec (do
      let members ← zrangebyscore (c.keyName key .log) (above.map Int.ofNat) offset count
      let entries ← parsedAll c.json.logged.parse members
      cmd members entries) b rec' := by
  refine (steps_zrange .log (fun e : LoggedEvent ι => e.sequence) (fun _ => rfl) above offset
    count).bind ?_
  show c.Steps key rec (parsedAll c.json.logged.parse
    ((((membersAbove rec above).drop offset).take count).map Prod.fst) >>= _) b rec'
  have htext : (((membersAbove rec above).drop offset).take count).map Prod.fst =
      ((((membersAbove rec above).drop offset).take count).map Prod.snd).map
        c.json.logged.stringify := by
    rw [List.map_map]
    refine List.map_congr_left ?_
    intro m hm
    have hmem := List.mem_filter.1 (List.mem_of_mem_drop (List.mem_of_mem_take hm))
    have hentry := (List.perm_insertionSort _ _).mem_iff.1 hmem.1
    exact htexts m.1 m.2 (OrderedMap.find_of_mem rec.log.nodup hentry)
  refine Steps.bind (a := (((membersAbove rec above).drop offset).take count).map Prod.snd) ?_ h
  rw [htext]
  exact steps_parsedAll _

include htexts in
/-- The pages of `readLog`: induction over the bound on the rounds, which falls more slowly than
what is left of the members. -/
theorem steps_readPages (keep : LoggedEvent ι → Bool) (limit fuel offset : Nat)
    (out : List (LoggedEvent ι)) (ho : offset ≤ (membersAbove rec above).length)
    (h : (membersAbove rec above).length < offset + fuel) :
    c.Steps key rec
      (c.readPages keep (c.keyName key .log) (above.map Int.ofNat) limit
        (max limit RedisRecord.logPage) fuel offset out)
      (RedisRecord.readPages keep limit out
        (((membersAbove rec above).drop offset).map Prod.snd)) rec := by
  have hpage : 0 < max limit RedisRecord.logPage := lt_max_of_lt_right (by decide)
  induction fuel generalizing offset out with
  | zero => omega
  | succ fuel ih =>
    rw [RedisRecord.readPages, ← List.map_take, ← List.map_drop, List.drop_drop]
    refine steps_page htexts above offset _ ?_
    dsimp only
    simp only [List.length_map]
    split
    · exact steps_pure _
    · split
      · exact steps_pure _
      · next hfull =>
        -- a full page leaves fewer members than rounds
        rw [List.length_take, List.length_drop] at hfull
        apply ih <;> omega

theorem steps_rounds :
    c.Steps key rec (rounds (c.keyName key .log)) (rec.log.keys.length + 1) rec := by
  have hcard : c.Steps key rec (zcard (c.keyName key .log)) rec.log.keys.length rec := by
    rw [← keys_mapValues fun e : LoggedEvent ι => Int.ofNat e.sequence]
    apply steps_of_runs
    rintro recs rfl
    exact Layout.runs_zcard (L := c.layout) (x := recs) (.of key .log : RedisSlot .zset)
      (OrderedMap.get_mapValues _ _)
  exact hcard.bind (steps_pure _)

theorem length_membersAbove (rec : RedisRecord ι) :
    (membersAbove rec above).length ≤ rec.log.keys.length := by
  refine (List.length_filter_le _ _).trans ?_
  rw [RedisRecord.logMembers, (List.perm_insertionSort _ _).length_eq, OrderedMap.keys,
    List.length_map]

include htexts in
theorem steps_readLog (range : KeyRecord.LogRange) (limit : Nat) :
    c.Steps key rec (c.readLog key range limit) (rec.readLog range limit) rec := by
  unfold readLog RedisRecord.readLog
  split
  · exact steps_pure []
  · refine steps_rounds.bind ?_
    have hmembers : ((rec.logMembers.map Prod.snd).filter fun e =>
        range.afterSequence.all fun s => decide (s < e.sequence)) =
        ((membersAbove rec range.afterSequence).drop 0).map Prod.snd := by
      rw [List.filter_map, List.drop_zero]
      rfl
    rw [hmembers]
    have hlen := length_membersAbove range.afterSequence rec
    exact steps_readPages htexts range.afterSequence _ limit _ 0 [] (Nat.zero_le _) (by omega)

include htexts in
/-- The first loop of `pruneLog`, as that of `readLog`. -/
theorem steps_stalePages (olderThan : Int) (fuel offset : Nat)
    (ho : offset ≤ (membersAbove rec none).length)
    (h : (membersAbove rec none).length < offset + fuel) :
    c.Steps key rec (c.stalePages (c.keyName key .log) olderThan fuel offset)
      (RedisRecord.stalePages olderThan ((membersAbove rec none).drop offset)) rec := by
  have hpage : 0 < RedisRecord.logPage := by decide
  induction fuel generalizing offset with
  | zero => omega
  | succ fuel ih =>
    rw [RedisRecord.stalePages, List.drop_drop]
    refine steps_page htexts none offset _ ?_
    dsimp only
    have hzip : ∀ l : List (String × LoggedEvent ι), (l.map Prod.fst).zip (l.map Prod.snd) = l := by
      intro l
      induction l with
      | nil => rfl
      | cons m l ih => rw [List.map_cons, List.map_cons, List.zip_cons_cons, ih]
    simp only [List.length_map, hzip]
    split
    · exact steps_pure _
    · next hfull =>
      -- a full page leaves fewer members than rounds
      rw [List.length_take, List.length_drop] at hfull
      exact (ih _ (by omega) (by omega)).bind (steps_pure _)

theorem eraseDups_of_nodup {l : List String} (h : l.Nodup) : l.eraseDups = l := by
  induction l with
  | nil => rfl
  | cons a l ih =>
    obtain ⟨ha, hl⟩ := List.nodup_cons.1 h
    have hkept : l.filter (fun b => !b == a) = l := by
      rw [List.filter_eq_self]
      intro b hb
      have hne : b ≠ a := fun heq => ha (heq ▸ hb)
      simp [hne]
    rw [List.eraseDups_cons, hkept, ih hl]

/-- `ZREM` of distinct members counts those that were there. -/
theorem zrem_count_eq (log : OrderedMap String (LoggedEvent ι)) {ms : List String} (hn : ms.Nodup) :
    (RedisRecord.zrem log ms).1 = (ms.filter fun m => (log.get m).isSome).length := by
  induction ms generalizing log with
  | nil => rfl
  | cons m ms ih =>
    obtain ⟨hm, hms⟩ := List.nodup_cons.1 hn
    have hrest : (ms.filter fun a => ((log.erase m).get a).isSome) =
        ms.filter fun a => (log.get a).isSome := by
      refine List.filter_congr ?_
      intro a ha
      have hne : a ≠ m := fun heq => hm (heq ▸ ha)
      rw [OrderedMap.get_erase_ne log hne]
    simp only [RedisRecord.zrem, ih (log.erase m) hms, hrest, List.filter_cons]
    split <;> simp [Nat.add_comm]

theorem steps_zremLog {ms : List String} (hn : ms.Nodup) :
    c.Steps key rec (zrem (c.keyName key .log) ms) (RedisRecord.zrem rec.log ms).1
      { rec with log := (RedisRecord.zrem rec.log ms).2 } := by
  have hreply : (ms.eraseDups.filter fun f => (rec.shown c.json .log f).isSome).length =
      (RedisRecord.zrem rec.log ms).1 := by
    rw [zrem_count_eq rec.log hn, eraseDups_of_nodup hn]
    simp [RedisRecord.shown]
  rw [← hreply, zrem_log]
  rintro recs rfl
  have hedit : PartEdit c.json (recs key) .log
      (fun f => if f ∈ ms then none else (recs key).shown c.json .log f)
      { recs key with log := (recs key).log.eraseAll ms } := by
    refine ⟨?_, ?_, rfl⟩
    · intro f
      show (((recs key).log.eraseAll ms).get f).map _ = _
      rw [OrderedMap.get_eraseAll]
      split <;> rfl
    · intro k' part' hne
      cases part' <;> first | rfl | exact absurd rfl hne
  exact Layout.runs_zrem (L := c.layout) (.of key .log : RedisSlot .zset) (hedit.edit rfl)

theorem steps_removeStale (batches : Nat) (stale : List String) (hn : stale.Nodup)
    (h : stale.length ≤ batches * RedisRecord.zremBatch) :
    c.Steps key rec (removeStale (c.keyName key .log) batches stale)
      (RedisRecord.zremBatches rec.log stale).1
      { rec with log := (RedisRecord.zremBatches rec.log stale).2 } := by
  simp only [zremBatches_eq]
  induction batches generalizing rec stale with
  | zero =>
    rw [Nat.zero_mul, Nat.le_zero, List.length_eq_zero_iff] at h
    subst h
    exact steps_pure 0
  | succ batches ih =>
    -- one `ZREM` of all would reply the same sum
    have hsplit := zrem_append rec.log (stale.take RedisRecord.zremBatch)
      (stale.drop RedisRecord.zremBatch)
    rw [List.take_append_drop] at hsplit
    rw [hsplit]
    refine (steps_zremLog (hn.sublist (List.take_sublist _ _))).bind ?_
    refine (ih _ (hn.sublist (List.drop_sublist _ _)) ?_).bind (steps_pure _)
    rw [List.length_drop]
    rw [Nat.succ_mul] at h
    omega

include htexts in
theorem steps_pruneLog (olderThan : Int) :
    c.Steps key rec (c.pruneLog key olderThan) (rec.pruneLog olderThan).1
      (rec.pruneLog olderThan).2 := by
  have hall : membersAbove rec none = rec.logMembers := List.filter_true _
  have hlen := length_membersAbove none rec
  have hstale : c.Steps key rec
      (c.stalePages (c.keyName key .log) olderThan (rec.log.keys.length + 1) 0) _ rec :=
    steps_stalePages htexts olderThan _ 0 (Nat.zero_le _) (by omega)
  rw [List.drop_zero, hall] at hstale
  have hnodup : (RedisRecord.stalePages olderThan rec.logMembers).Nodup := by
    rw [stalePages_eq]
    have hsub : ((rec.logMembers.filter fun m => m.2.createdAt < olderThan).map Prod.fst).Sublist
        (rec.logMembers.map Prod.fst) := List.filter_sublist.map _
    refine List.Nodup.sublist hsub ?_
    exact ((List.perm_insertionSort _ _).map _).nodup_iff.2 rec.log.nodup
  -- the batches cover the stale members: their number is rounded up
  refine steps_rounds.bind (hstale.bind ?_)
  refine steps_removeStale _ _ hnodup ?_
  have hbatch : RedisRecord.zremBatch = 1000 := rfl
  rw [hbatch]
  omega

end Log

end RedisClient

end Watukuy
