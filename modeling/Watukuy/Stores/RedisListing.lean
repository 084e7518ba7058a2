import Watukuy.Stores.RedisRuns

/-!
# The keys that the Redis store lists

The set of all keys is a Redis key of its own, next to the keys of each `(poller, partition)`.
`ACQUIRE_LEASE` and `SAVE_STATE_UNFENCED` add to it, `deleteKey` removes from it; a fenced script
adds its key too, but finds it there: a key is listed while it has a lease (`LeaseListed`).
-/

set_option autoImplicit false

namespace Watukuy

open Library Redis

variable {ι : Type}

/-! ## The set of all keys -/

section Listing

variable {logText : LoggedEvent ι → String} {r : RedisRecord ι} {c : RedisClient ι}

/-- How a call changes the set of all keys. -/
def RedisStore.touch : TableOp ι → Touch
  | .call (.lease (.acquireLease _ _ _)) => .makes
  | .call (.saveStateUnfenced _) => .makes
  | .deleteKey => .deletes
  | _ => .looks

theorem touch_makes_iff (o : TableOp ι) : RedisStore.touch o = .makes ↔
    (∃ owner ttlMs now, o = .call (.lease (.acquireLease owner ttlMs now))) ∨
      ∃ patch, o = .call (.saveStateUnfenced patch) := by
  cases o with
  | call o =>
    cases o with
    | lease o => cases o <;> simp [RedisStore.touch]
    | _ => simp [RedisStore.touch]
  | _ => simp [RedisStore.touch]

theorem touch_deletes_iff (o : TableOp ι) : RedisStore.touch o = .deletes ↔ o = .deleteKey := by
  cases o with
  | call o =>
    cases o with
    | lease o => cases o <;> simp [RedisStore.touch]
    | _ => simp [RedisStore.touch]
  | _ => simp [RedisStore.touch]

/-- The calls on the record of a key. -/
def RedisStore.methods (logText : LoggedEvent ι → String) :
    CellMap PKey (TableOp ι) (RedisRecord ι) fun _ => Unit where
  fresh := fun key => { key }
  touch := RedisStore.touch
  serve := fun o r => ((), RedisStore.serve logText o r)
  absent := fun _ => ()

/-- A key is listed while it has a lease. -/
def LeaseListed (r : RedisRecord ι) : Prop :=
  ∀ owner, r.meta_.leaseOwner = some owner → r.listed = true

theorem LeaseListed.fenced (h : LeaseListed r) {l : Lease} (hf : r.fenced l = true) :
    r.listed = true := by
  simp only [RedisRecord.fenced, Bool.and_eq_true, beq_iff_eq] at hf
  exact h _ hf.1

theorem ackEvents_listed (ids : List String) (r : RedisRecord ι) :
    (r.ackEvents ids).listed = r.listed := by
  unfold RedisRecord.ackEvents
  induction ids generalizing r with
  | nil => rfl
  | cons id ids ih => exact ih (r.dropOutbox id)

theorem retryParked_listed (ids : List String) (r : RedisRecord ι) :
    (r.retryParked ids).2.listed = r.listed := by
  have hrows : ∀ (args : List (String × OutboxRow ι)) (r : RedisRecord ι),
      (r.retryRows args).2.listed = r.listed := by
    intro args
    induction args with
    | nil => exact fun _ => rfl
    | cons arg args ih =>
      intro r
      refine (ih (r.retryOne arg.1 arg.2).2).trans ?_
      unfold RedisRecord.retryOne
      split <;> rfl
  unfold RedisRecord.retryParked
  dsimp only
  split
  · rfl
  · exact hrows _ r

theorem discardParked_listed (ids : List String) (r : RedisRecord ι) :
    (r.discardParked ids).2.listed = r.listed := by
  induction ids generalizing r with
  | nil => rfl
  | cons id ids ih => exact ih { r with parked := r.parked.erase id, hold := r.hold.erase id }

/-- A write past the fence finds its key listed, and leaves it so. -/
theorem apply_listed (w : FencedWrite ι) (h : r.listed = true) :
    (RedisStore.apply logText w r).listed = true := by
  cases w with
  | ackEvents ids => exact (ackEvents_listed ids r).trans h
  | recordAttempt id error next =>
    simp only [RedisStore.apply, RedisRecord.recordAttempt]
    split <;> exact h
  | _ => rfl

theorem apply_meta (w : FencedWrite ι) (r : RedisRecord ι) :
    (RedisStore.apply logText w r).meta_ = r.meta_ := by
  cases w with
  | commitPoll batch => exact RedisRecord.commitPoll_meta logText r batch
  | ackEvents ids => exact RedisRecord.ackEvents_meta r ids
  | recordAttempt id error next => exact RedisRecord.recordAttempt_meta r id _
  | parkEvent row => exact RedisRecord.parkEvent_meta r row
  | _ => rfl

/-- A call that leaves the lease and the set of all keys. -/
theorem LeaseListed.same {r' : RedisRecord ι} (h : LeaseListed r) (hmeta : r'.meta_ = r.meta_)
    (hlisted : r'.listed = r.listed) : LeaseListed r' := by
  intro owner
  rw [hmeta, hlisted]
  exact h owner

theorem LeaseListed.run (h : LeaseListed r) (o : LeaseOp ι) :
    LeaseListed (RedisStore.run logText o r).2 ∧
      ((RedisStore.run logText o r).2.listed = true ↔
        RedisStore.touch (.call (.lease o)) = .makes ∨ r.listed = true) := by
  cases o with
  | acquireLease owner ttlMs now =>
    simp only [RedisStore.run, RedisRecord.acquireLease]
    split
    · next hheld =>
      -- refused: the other owner's lease is there, so the key is listed
      have hlisted : r.listed = true := by
        unfold RedisRecord.heldByOther at hheld
        cases howner : r.meta_.leaseOwner with
        | none => rw [howner] at hheld; cases hheld
        | some current => exact h current howner
      exact ⟨h, iff_of_true hlisted (Or.inr hlisted)⟩
    · exact ⟨fun _ _ => rfl, iff_of_true rfl (Or.inl rfl)⟩
  | renewLease l ttlMs now =>
    simp only [RedisStore.run, RedisRecord.renewLease, RedisStore.touch, reduceCtorEq, false_or]
    split
    · exact ⟨h, Iff.rfl⟩
    · exact ⟨h, Iff.rfl⟩
  | releaseLease l =>
    simp only [RedisStore.run, RedisRecord.releaseLease, RedisStore.touch, reduceCtorEq, false_or]
    split
    · -- without a lease nothing is to be shown
      refine ⟨?_, Iff.rfl⟩
      intro owner howner
      cases howner
    · exact ⟨h, Iff.rfl⟩
  | write l w =>
    simp only [RedisStore.run, RedisStore.write, RedisStore.touch, reduceCtorEq, false_or]
    by_cases hf : r.fenced l = true
    · rw [if_pos hf]
      -- whoever holds the lease has acquired it, which listed the key
      have hlisted := h.fenced hf
      have happlied : (RedisStore.apply logText w r).listed = true := apply_listed w hlisted
      exact ⟨fun _ _ => happlied, iff_of_true happlied hlisted⟩
    · rw [if_neg hf]
      exact ⟨h, Iff.rfl⟩

/-- One call on the set of all keys. -/
theorem LeaseListed.serve (h : LeaseListed r) (o : TableOp ι) :
    LeaseListed (RedisStore.serve logText o r) ∧
      ((RedisStore.serve logText o r).listed = true ↔
        RedisStore.touch o = .makes ∨ RedisStore.touch o ≠ .deletes ∧ r.listed = true) := by
  have hlooks : ∀ {r' : RedisRecord ι}, r'.meta_ = r.meta_ → r'.listed = r.listed →
      LeaseListed r' ∧ (r'.listed = true ↔ Touch.looks = .makes ∨
        Touch.looks ≠ .deletes ∧ r.listed = true) := by
    intro r' hmeta hlisted
    refine ⟨h.same hmeta hlisted, ?_⟩
    rw [hlisted]
    simp
  cases o with
  | call o =>
    cases o with
    | lease o =>
      have hrun : LeaseListed (RedisStore.run logText o r).2 ∧ _ := h.run o
      refine ⟨hrun.1, hrun.2.trans ?_⟩
      cases o <;> simp [RedisStore.touch]
    | saveStateUnfenced patch => exact ⟨fun _ _ => rfl, iff_of_true rfl (Or.inl rfl)⟩
    | retryParked ids =>
      exact hlooks (RedisRecord.retryParked_meta r ids) (retryParked_listed ids r)
    | discardParked ids =>
      exact hlooks (RedisRecord.discardParked_meta ids r) (discardParked_listed ids r)
    | _ => exact hlooks rfl rfl
  | deleteKey =>
    refine ⟨?_, ?_⟩
    · intro owner howner
      cases howner
    · simp [RedisStore.serve, RedisRecord.deleteKey, RedisStore.touch]
  | _ => exact hlooks rfl rfl

/-- The listed keys are those that an acquisition or an unfenced save has named since their last
deletion. -/
theorem listed_iff (calls : List (RedisClient.Call ι)) (key : PKey) :
    LeaseListed (c.records calls key) ∧ ((c.records calls key).listed = true ↔
      (RedisStore.methods c.json.logged.stringify).Made key (calls.map (·.named))) := by
  unfold RedisClient.records
  induction calls.map RedisClient.Call.named using List.reverseRecOn with
  | nil =>
    refine ⟨?_, ?_⟩
    · intro owner howner
      cases howner
    · constructor
      · intro hlisted
        cases hlisted
      · rintro ⟨before, o, after, heq, -, -⟩
        exact absurd heq.symm (by simp)
  | append_singleton calls call ih =>
    obtain ⟨key', o⟩ := call
    rw [List.foldl_append, List.foldl_cons, List.foldl_nil]
    by_cases hkey : key' = key
    · subst hkey
      have hserve : LeaseListed (RedisStore.serve c.json.logged.stringify o _) ∧ _ := ih.1.serve o
      simp only [RedisClient.next, Function.update_self]
      refine ⟨hserve.1, hserve.2.trans ?_⟩
      rw [CellMap.made_snoc_self, ih.2]
      rfl
    · simp only [RedisClient.next, Function.update_of_ne (Ne.symm hkey)]
      rw [CellMap.made_snoc_other hkey]
      exact ih

/-! ## `listKeys` -/

/-- Reading drops nothing and doubles nothing, where each text is the name of what it reads as. -/
theorem filterMap_named {α τ : Type} (name : α → τ) {read : τ → Option α} {texts : List τ}
    (h : ∀ t ∈ texts, ∀ a, read t = some a → name a = t) (hn : texts.Nodup) :
    (texts.filterMap read).Nodup := by
  have hnames : (texts.filterMap read).map name = texts.filter fun t => (read t).isSome := by
    clear hn
    induction texts with
    | nil => rfl
    | cons t texts ih =>
      have hrest := ih fun t ht => h t (List.mem_cons_of_mem _ ht)
      cases hread : read t with
      | none => simp [hread, hrest]
      | some a => simp [hread, hrest, h t List.mem_cons_self a hread]
  refine List.Nodup.of_map name ?_
  rw [hnames]
  exact hn.sublist List.filter_sublist

namespace RedisClient

/-- `listKeys` replies with the listed keys of the poller, each once. -/
theorem meets_listKeys (server : RedisServer) (poller : Option String) (recs : RedisRecords ι) :
    c.layout.Meets recs (c.listKeys server poller) fun keys recs' =>
      (keys.Nodup ∧ ∀ key, key ∈ keys ↔ (recs key).listed = true ∧ ∀ p ∈ poller, key.poller = p) ∧
        recs' = recs := by
  refine (Layout.meets_smembers (L := c.layout) (x := recs) (.keysSet : RedisSlot .set)).bind ?_
  rintro members recs' ⟨⟨hnodup, hmem⟩, rfl⟩
  -- every member is the name of a listed key, so it reads back
  have hlisted : ∀ text, text ∈ server.order members ↔
      ∃ key, member key = text ∧ (recs' key).listed = true := by
    intro text
    rw [(server.order_perm members).mem_iff, ← listing_isSome]
    exact hmem text
  have hpoller : ∀ key : PKey, (poller.all fun p => decide (key.poller = p)) = true ↔
      ∀ p ∈ poller, key.poller = p := by
    intro key
    cases poller <;> simp
  refine Layout.meets_pure ⟨⟨?_, ?_⟩, rfl⟩
  · refine filterMap_named member ?_ ((server.order_perm members).nodup_iff.2 hnodup)
    intro text htext key hread
    obtain ⟨key', rfl, -⟩ := (hlisted text).1 htext
    have hself : MemoryStore.readId (member key') = some key' := MemoryStore.readId_id key'
    rw [hself, Option.filter_eq_some_iff] at hread
    rw [Option.some.inj hread.1]
  · intro key
    have hself : MemoryStore.readId (member key) = some key := MemoryStore.readId_id key
    rw [List.mem_filterMap]
    constructor
    · rintro ⟨text, htext, hread⟩
      obtain ⟨key', rfl, hkey'⟩ := (hlisted text).1 htext
      have hself' : MemoryStore.readId (member key') = some key' := MemoryStore.readId_id key'
      rw [hself', Option.filter_eq_some_iff] at hread
      obtain ⟨hsame, hp⟩ := hread
      obtain rfl := Option.some.inj hsame
      exact ⟨hkey', (hpoller _).1 hp⟩
    · rintro ⟨hkey, hp⟩
      refine ⟨member key, (hlisted _).2 ⟨key, rfl, hkey⟩, ?_⟩
      rw [hself, Option.filter_eq_some_iff]
      exact ⟨rfl, (hpoller key).2 hp⟩

end RedisClient

end Listing

/-- After every run of calls `listKeys` lists the keys of the poller that an acquisition of a lease
or an unfenced save has named since their last deletion, each once, whatever else was called. -/
theorem redis_lists_keys (c : RedisClient ι) (rest : Db)
    (hrest : ∀ {k : Kind} (s : RedisSlot k), rest (c.slotName s) = Value.none_)
    (calls : List (RedisClient.Call ι)) (server : RedisServer) (poller : Option String) :
    ∃ db keys db', c.run calls rest = .ok () db ∧ c.listKeys server poller db = .ok keys db' ∧
      keys.Nodup ∧ ∀ key, key ∈ keys ↔
        (∃ before o after, calls.map (·.named) = before ++ (key, o) :: after ∧
          ((∃ owner ttlMs now, o = .call (.lease (.acquireLease owner ttlMs now))) ∨
            ∃ patch, o = .call (.saveStateUnfenced patch)) ∧ (key, .deleteKey) ∉ after) ∧
        ∀ p ∈ poller, key.poller = p := by
  obtain ⟨done, recs, db, hrun, hshows, -, hrecs⟩ :=
    (RedisClient.kept_fresh (c := c)).run calls rest rest (RedisClient.shows_fresh hrest)
  obtain ⟨keys, recs', db', hlist, hshows', ⟨hnodup, hmem⟩, hsame⟩ :=
    RedisClient.meets_listKeys server poller recs rest db hshows
  refine ⟨db, keys, db', hrun, hlist, hnodup, ?_⟩
  intro key
  have hrec : recs key = c.records calls key := by
    rw [hrecs]
    rfl
  rw [hmem, hrec, (listed_iff calls key).2]
  apply and_congr_left
  intro _
  constructor
  · rintro ⟨before, o, after, hcalls, hmakes, hkeeps⟩
    refine ⟨before, o, after, hcalls, (touch_makes_iff o).1 hmakes, ?_⟩
    intro hdeleted
    exact hkeeps _ hdeleted rfl
  · rintro ⟨before, o, after, hcalls, hmakes, hkept⟩
    refine ⟨before, o, after, hcalls, (touch_makes_iff o).2 hmakes, ?_⟩
    intro o' hin hdeletes
    rw [(touch_deletes_iff o').1 hdeletes] at hin
    exact hkept hin

/-- Both keys are listed: one was leased again after its deletion, the other was saved unfenced. -/
theorem redis_lists_keys_sample : ∃ db keys db',
    unitClient.run callsOfTwo Db.empty = .ok () db ∧
      unitClient.listKeys plainServer none db = .ok keys db' ∧
      keys.Nodup ∧ tieKey ∈ keys ∧ { tieKey with partition := "eu" } ∈ keys := by
  obtain ⟨db, keys, db', hrun, hlist, hnodup, hmem⟩ :=
    redis_lists_keys unitClient Db.empty (fun _ => rfl) callsOfTwo plainServer none
  refine ⟨db, keys, db', hrun, hlist, hnodup, (hmem _).2 ⟨?_, ?_⟩, (hmem _).2 ⟨?_, ?_⟩⟩
  · refine ⟨callsOfTwo.map (·.named) |>.take 4, _, _, rfl, Or.inl ⟨"node-a", 30000, 0, rfl⟩, ?_⟩
    simp [RedisClient.Call.named]
  · intro p hp
    cases hp
  · refine ⟨[], _, _, rfl, Or.inr ⟨{}, rfl⟩, ?_⟩
    simp [recreatedHistory, tieKey, RedisClient.Call.named]
  · intro p hp
    cases hp

end Watukuy
