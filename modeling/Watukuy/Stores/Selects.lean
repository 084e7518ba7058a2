import Watukuy.Library.Select
import Watukuy.Library.Upsert
import Watukuy.Stores.Equivalence
import Mathlib.Data.Prod.Lex

/-!
# The calls of a store and the statements that read

All calls of a store on one key (`TableOp`), deletion and the reads of the items among them, as the
memory store answers them (`MemoryStore.serve`). Both SQL stores read alike: one `SELECT` for each
call, over tables whose rows come in no order of their own. Where a table has the rows of the memory
store, the reply is the same, except for the order that no `ORDER BY` decides.
-/

set_option autoImplicit false

namespace Watukuy

open Library

variable {ι : Type}

/-! ## Calls -/

/-- The calls of a store on one key. -/
inductive TableOp (ι : Type) where
  | call (o : StateOp ι)
  | deleteKey
  | clearItems
  | loadVersions (identities : List String)
  | streamIdentities
  | countItems

/-- What a call resolves to. -/
@[reducible] def TableOp.Result : TableOp ι → Type
  | .call o => o.Result
  | .deleteKey => Unit
  | .clearItems => Unit
  | .loadVersions _ => OrderedMap String (ItemRow ι)
  | .streamIdentities => List (List String)
  | .countItems => Nat

/-- The same result: the rows that were found, whatever the order of the map, and each identity
once, whatever the batches. -/
def TableOp.SameResult : (o : TableOp ι) → o.Result → o.Result → Prop
  | .call o, res, res' => Watukuy.SameResult o res res'
  | .loadVersions _, found, found' => ∀ id, found.get id = found'.get id
  | .streamIdentities, batches, batches' => batches.flatten.Perm batches'.flatten
  | .deleteKey, _, _ => True
  | .clearItems, _, _ => True
  | .countItems, n, n' => n = n'

namespace MemoryStore

def serve : (o : TableOp ι) → KeyRecord ι → o.Result × KeyRecord ι
  | .call o, rec => perform o rec
  | .deleteKey, rec => ((), .fresh rec.key)
  | .clearItems, rec => ((), { rec with items := OrderedMap.empty })
  | .loadVersions identities, rec => (rec.loadVersions (identities.map .string), rec)
  | .streamIdentities, rec => (rec.streamIdentities, rec)
  | .countItems, rec => (rec.items.keys.length, rec)

/-- The record of a key after some calls. -/
def served (key : PKey) (ops : List (TableOp ι)) : KeyRecord ι :=
  ops.foldl (fun rec o => (serve o rec).2) (.fresh key)

end MemoryStore

/-- The calls since the last deletion, but for those on the items alone. -/
def recent (ops : List (TableOp ι)) : List (StateOp ι) :=
  ops.foldl (fun calls o =>
    match o with
    | .call o => calls ++ [o]
    | .deleteKey => []
    | _ => calls) []

/-! ## Statements -/

section Statements

variable {γ : Type} [LinearOrder γ]

/-- `WHERE status = 'pending' ORDER BY seq LIMIT ?`. -/
def LoadsPending (limit : Nat) (outbox : OrderedMap String (OutboxRow ι))
    (rows : List (OutboxRow ι)) : Prop :=
  Selected (fun r => decide (r.status = .pending)) (·.sequence) (some limit) outbox rows

/-- `COUNT(*) WHERE status = 'pending'`. -/
def selectPending (outbox : OrderedMap String (OutboxRow ι)) : Nat :=
  (outbox.values.filter fun r => r.status = .pending).length

/-- `WHERE kind = ? ORDER BY parked_at, id LIMIT ?`; `collate` gives the place of a text in the
collation of the column. -/
def ListsParked (collate : String → γ) (kind : Option ParkedKind) (limit : Option Nat)
    (parked : OrderedMap String (ParkedRow ι)) (rows : List (ParkedRow ι)) : Prop :=
  Selected (fun r => kind.all fun k => r.kind = k) (fun r => toLex (r.parkedAt, collate r.id)) limit
    parked rows

/-- `SELECT DISTINCT hold_key WHERE hold_key IS NOT NULL`. -/
def selectHeldKeys (parked : OrderedMap String (ParkedRow ι)) : Set String :=
  { k | ∃ row ∈ parked.values, row.holdKey = some k }

/-- The `WHERE` of `selectLog`. -/
def inLogRange (range : KeyRecord.LogRange) (e : LoggedEvent ι) : Bool :=
  (range.afterSequence.all fun s => decide (s < e.sequence)) &&
    (range.fromTime.all fun t => decide (t ≤ e.createdAt)) &&
    (range.toTime.all fun t => decide (e.createdAt ≤ t))

/-- `ORDER BY seq LIMIT ?`. -/
def ReadsLog (range : KeyRecord.LogRange) (limit : Nat) (log : OrderedMap Nat (LoggedEvent ι))
    (rows : List (LoggedEvent ι)) : Prop :=
  Selected (inLogRange range) (·.sequence) (some limit) log rows

/-- One `SELECT` for each chunk of the identities, each with its rows in some order. -/
def LoadsVersions (idsPerSelect : Nat) (identities : List String)
    (items : OrderedMap String (ItemRow ι)) (out : OrderedMap String (ItemRow ι)) : Prop :=
  ∃ rows : List (List (ItemRow ι)),
    List.Forall₂ (fun chunk found => found.Perm (items.values.filter fun r => r.identity ∈ chunk))
        (chunks identities idsPerSelect) rows ∧
      out = OrderedMap.empty.setAll (·.identity) rows.flatten

/-- `streamFirst`, and `streamNext` until a page is short. -/
def selectIdentities (collate : String → γ) (items : OrderedMap String (ItemRow ι)) :
    List (List String) :=
  namePages collate 1000 (items.keys.length + 1) none items.keys

end Statements

/-! ## Replies -/

section Replies

variable {γ : Type} [LinearOrder γ] {rec : KeyRecord ι} {outbox : OrderedMap String (OutboxRow ι)}
  {parked : OrderedMap String (ParkedRow ι)} {items out : OrderedMap String (ItemRow ι)}

theorem loadsPending_eq (hd : Distinct rec.outbox) (h : ∀ id, outbox.get id = rec.outbox.get id)
    {limit : Nat} {rows : List (OutboxRow ι)} (hrows : LoadsPending limit outbox rows) :
    rows = rec.loadPending limit := by
  have hsame : LoadsPending limit rec.outbox rows := Selected.congr hrows h
  apply Selected.eq_take hsame (pendingRows_increasing hd)
  exact List.perm_insertionSort _ _

theorem selectPending_eq (h : ∀ id, outbox.get id = rec.outbox.get id) :
    selectPending outbox = rec.countPending :=
  ((OrderedMap.values_perm h).filter _).length_eq

theorem listsParked_same (h : ∀ id, parked.get id = rec.parked.get id) {collate : String → γ}
    {kind : Option ParkedKind} {limit : Option Nat} {rows : List (ParkedRow ι)}
    (hrows : ListsParked collate kind limit parked rows) :
    SameParked limit rows (rec.listParked kind limit) := by
  obtain ⟨all, hperm, hsorted, rfl⟩ := hrows
  refine ⟨all, _, ?_, ?_, List.pairwise_insertionSort _ _, rfl, rfl⟩
  · have hboth := hperm.trans ((OrderedMap.values_perm h).filter fun r => kind.all fun k => r.kind = k)
    exact hboth.trans (List.perm_insertionSort _ _).symm
  · -- by the time, then by the id
    refine hsorted.imp ?_
    intro a b hle
    rcases Prod.Lex.toLex_le_toLex.1 hle with hlt | heq
    · exact hlt.le
    · exact heq.1.le

theorem selectHeldKeys_eq (h : ∀ id, parked.get id = rec.parked.get id) :
    selectHeldKeys parked = { k | k ∈ rec.heldKeys } := by
  ext k
  simp only [selectHeldKeys, KeyRecord.heldKeys, Set.mem_ofPred_eq, List.mem_filterMap]
  constructor
  · rintro ⟨row, hrow, hk⟩
    exact ⟨row, (OrderedMap.values_perm h).mem_iff.1 hrow, hk⟩
  · rintro ⟨row, hrow, hk⟩
    exact ⟨row, (OrderedMap.values_perm h).mem_iff.2 hrow, hk⟩

/-- Each row is stored under its identity. -/
def Identified (items : OrderedMap String (ItemRow ι)) : Prop :=
  ∀ id row, items.get id = some row → row.identity = id

theorem Identified.mem (hitems : Identified items) {row : ItemRow ι} :
    row ∈ items.values ↔ items.get row.identity = some row := by
  rw [OrderedMap.mem_values_iff]
  constructor
  · rintro ⟨id, hid⟩
    rw [hitems id row hid]
    exact hid
  · intro hrow
    exact ⟨_, hrow⟩

theorem exists_loadsVersions (n : Nat) (identities : List String)
    (items : OrderedMap String (ItemRow ι)) : ∃ out, LoadsVersions n identities items out := by
  refine ⟨_, (chunks identities n).map fun chunk =>
    items.values.filter fun r => r.identity ∈ chunk, ?_, rfl⟩
  rw [List.forall₂_map_right_iff]
  exact List.forall₂_same.2 fun chunk _ => List.Perm.refl _

theorem get_loadsVersions (hitems : Identified items) {n : Nat} (hn : 0 < n)
    {identities : List String} (hout : LoadsVersions n identities items out) (id : String) :
    out.get id = if id ∈ identities then items.get id else none := by
  obtain ⟨rows, hrows, rfl⟩ := hout
  -- what the statements find
  have hfound : ∀ row, row ∈ rows.flatten ↔ row ∈ items.values ∧ row.identity ∈ identities := by
    intro row
    have hflat := chunks_flatten hn identities
    have hsplit : ∀ (cs : List (List String)) (rs : List (List (ItemRow ι))),
        List.Forall₂ (fun chunk found =>
          found.Perm (items.values.filter fun r => r.identity ∈ chunk)) cs rs →
        (row ∈ rs.flatten ↔ row ∈ items.values ∧ row.identity ∈ cs.flatten) := by
      intro cs rs hall
      induction hall with
      | nil => simp
      | cons hone _ ih =>
        rw [List.flatten_cons, List.flatten_cons, List.mem_append, List.mem_append, ih,
          hone.mem_iff, List.mem_filter, decide_eq_true_eq]
        tauto
    rw [hsplit _ _ hrows, hflat]
  split
  · rename_i hid
    cases hrow : items.get id with
    | none =>
      by_contra hne
      obtain ⟨row, hget⟩ := Option.ne_none_iff_exists'.1 hne
      rcases OrderedMap.get_setAll_cases _ _ _ hget with ⟨hmem, rfl⟩ | hempty
      · have hstored := hitems.mem.1 ((hfound row).1 hmem).1
        rw [hrow] at hstored
        cases hstored
      · cases hempty
    | some row =>
      have hidentity := hitems id row hrow
      have hmem : row ∈ rows.flatten := by
        refine (hfound row).2 ⟨hitems.mem.2 ?_, ?_⟩
        · rw [hidentity]
          exact hrow
        · rw [hidentity]
          exact hid
      -- some row of the identity is found, and there is only one
      have hsome := (OrderedMap.isSome_get_setAll (fun r : ItemRow ι => r.identity) rows.flatten
        OrderedMap.empty id).2 (Or.inl (List.mem_map.2 ⟨row, hmem, hidentity⟩))
      obtain ⟨row', hget⟩ := Option.isSome_iff_exists.1 hsome
      rcases OrderedMap.get_setAll_cases _ _ _ hget with ⟨hmem', hid'⟩ | hempty
      · have hstored := hitems.mem.1 ((hfound row').1 hmem').1
        rw [hid', hrow] at hstored
        rw [hget, ← hstored]
      · cases hempty
  · rename_i hid
    refine (OrderedMap.get_setAll_of_not_mem _ _ _ ?_).trans (OrderedMap.get_empty id)
    intro hmem
    obtain ⟨row, hrow, rfl⟩ := List.mem_map.1 hmem
    exact hid ((hfound row).1 hrow).2

theorem loadsVersions_same (h : ∀ id, items.get id = rec.items.get id)
    (hitems : Identified items) {n : Nat} (hn : 0 < n) {identities : List String}
    (hout : LoadsVersions n identities items out) (id : String) :
    out.get id = (rec.loadVersions (identities.map .string)).get id := by
  rw [get_loadsVersions hitems hn hout, get_loadVersions, h]
  simp

/-- The identities come once each. -/
theorem selectIdentities_perm (h : ∀ id, items.get id = rec.items.get id) {collate : String → γ}
    (hcollate : Function.Injective collate) :
    (selectIdentities collate items).flatten.Perm rec.streamIdentities.flatten := by
  have hsize : 0 < 1000 := by decide
  have hall := namePages_all hsize hcollate items.keys_nodup
  rw [selectIdentities, hall.1, streamIdentities_flatten]
  exact (List.perm_insertionSort _ _).trans (OrderedMap.keys_perm h)

end Replies

/-! ## Logs -/

/-- A log with one entry for each sequence, and a table with the same entries. -/
structure SameEntries (entries : List (LoggedEvent ι)) (log : OrderedMap Nat (LoggedEvent ι)) :
    Prop where
  nodup : (entries.map (·.sequence)).Nodup
  get_iff : ∀ sequence entry, log.get sequence = some entry ↔
    entry ∈ entries ∧ entry.sequence = sequence

namespace SameEntries

variable {entries rows rows' : List (LoggedEvent ι)} {log : OrderedMap Nat (LoggedEvent ι)}

theorem mem_iff (h : SameEntries entries log) {entry : LoggedEvent ι} :
    entry ∈ log.values ↔ entry ∈ entries := by
  rw [OrderedMap.mem_values_iff]
  constructor
  · rintro ⟨k, hk⟩
    exact ((h.get_iff k entry).1 hk).1
  · intro hentry
    exact ⟨_, (h.get_iff _ _).2 ⟨hentry, rfl⟩⟩

theorem keys_eq (h : SameEntries entries log) : log.keys = log.values.map (·.sequence) :=
  OrderedMap.keys_eq_map fun k entry hk => ((h.get_iff k entry).1 hk).2

theorem perm (h : SameEntries entries log) : log.values.Perm entries := by
  refine (List.perm_ext_iff_of_nodup ?_ (List.Nodup.of_map _ h.nodup)).2 fun entry => h.mem_iff
  refine List.Nodup.of_map (·.sequence) ?_
  rw [← h.keys_eq]
  exact log.keys_nodup

/-- The rows of a commit, written by their sequence. -/
theorem append (h : SameEntries entries log)
    (hnew : (entries.map (·.sequence) ++ rows.map (·.sequence)).Nodup)
    (hrows : (rows'.map (·.sequence)).Nodup) (hmem : ∀ e, e ∈ rows' ↔ e ∈ rows) :
    SameEntries (entries ++ rows) (log.setAll (·.sequence) rows') := by
  obtain ⟨-, -, hcross⟩ := List.nodup_append.1 hnew
  constructor
  · rw [List.map_append]
    exact hnew
  · intro sequence entry
    rw [List.mem_append]
    constructor
    · intro hget
      rcases OrderedMap.get_setAll_cases _ _ _ hget with ⟨hentry, hkey⟩ | hold
      · exact ⟨Or.inr ((hmem entry).1 hentry), hkey⟩
      · have hentry := (h.get_iff sequence entry).1 hold
        exact ⟨Or.inl hentry.1, hentry.2⟩
    · rintro ⟨hentry | hentry, rfl⟩
      · have hold := (h.get_iff entry.sequence entry).2 ⟨hentry, rfl⟩
        rw [OrderedMap.get_setAll_of_not_mem (fun e : LoggedEvent ι => e.sequence) _ _ ?_, hold]
        intro hseq
        obtain ⟨row, hrow, heq⟩ := List.mem_map.1 hseq
        refine hcross entry.sequence (List.mem_map_of_mem hentry) row.sequence ?_ heq.symm
        exact List.mem_map_of_mem ((hmem row).1 hrow)
      · exact OrderedMap.get_setAll_of_mem (fun e : LoggedEvent ι => e.sequence) hrows log
          ((hmem entry).2 hentry)

theorem readLog_eq {rec : KeyRecord ι} (h : SameEntries rec.log log) {range : KeyRecord.LogRange}
    {limit : Nat} (hrows : ReadsLog range limit log rows) : rows = rec.readLog range limit := by
  let le : LoggedEvent ι → LoggedEvent ι → Prop := fun a b => a.sequence ≤ b.sequence
  have : Std.Total le := ⟨fun a b => Nat.le_total a.sequence b.sequence⟩
  have : IsTrans (LoggedEvent ι) le := ⟨fun _ _ _ => Nat.le_trans⟩
  have hkept : (((rec.log.filter (inLogRange range)).insertionSort le).map (·.sequence)).Nodup := by
    refine ((List.perm_insertionSort le _).map _).nodup_iff.2 ?_
    exact h.nodup.sublist (List.filter_sublist.map _)
  apply Selected.eq_take hrows
  · exact increasing_of_sorted LoggedEvent.sequence (List.pairwise_insertionSort le _) hkept
  · exact (List.perm_insertionSort le _).trans (h.perm.filter _).symm

/-- `DELETE .. WHERE created_at < ?`. -/
theorem prune (h : SameEntries entries log) (olderThan : Int) :
    let stale := (log.values.filter fun e => e.createdAt < olderThan).map (·.sequence)
    let kept := entries.filter fun e => olderThan ≤ e.createdAt
    stale.length = entries.length - kept.length ∧ SameEntries kept (log.eraseAll stale) := by
  intro stale kept
  constructor
  · have hstale : stale.length = (entries.filter fun e => e.createdAt < olderThan).length := by
      rw [List.length_map]
      exact (h.perm.filter _).length_eq
    have hsplit := List.length_eq_length_filter_add (l := entries)
      (fun e => decide (e.createdAt < olderThan))
    have hnot : (entries.filter fun e => !decide (e.createdAt < olderThan)) = kept := by
      refine List.filter_congr ?_
      intro e _
      rw [← decide_not, decide_eq_decide, not_lt]
    rw [hnot] at hsplit
    omega
  · constructor
    · exact h.nodup.sublist (List.filter_sublist.map _)
    · intro sequence entry
      rw [OrderedMap.get_eraseAll, List.mem_filter, decide_eq_true_eq]
      -- an entry is erased when it is the stale one of its sequence
      have hstale : ∀ e ∈ entries, e.sequence ∈ stale ↔ e.createdAt < olderThan := by
        intro e he
        rw [List.mem_map]
        constructor
        · rintro ⟨e', he', hseq⟩
          obtain ⟨hmem, hold⟩ := List.mem_filter.1 he'
          have hsame := List.inj_on_of_nodup_map h.nodup (h.mem_iff.1 hmem) he hseq
          rw [← hsame]
          exact of_decide_eq_true hold
        · intro hold
          exact ⟨e, List.mem_filter.2 ⟨h.mem_iff.2 he, decide_eq_true hold⟩, rfl⟩
      split
      · rename_i hin
        constructor
        · intro hnone
          cases hnone
        · rintro ⟨⟨he, hle⟩, rfl⟩
          exact absurd ((hstale entry he).1 hin) (not_lt.2 hle)
      · rename_i hout
        rw [h.get_iff]
        constructor
        · rintro ⟨he, rfl⟩
          exact ⟨⟨he, not_lt.1 fun hlt => hout ((hstale entry he).2 hlt)⟩, rfl⟩
        · rintro ⟨⟨he, -⟩, rfl⟩
          exact ⟨he, rfl⟩

end SameEntries

/-! ## Histories -/

/-- The sequences that a call adds to the log are new to it. -/
def LogsNew (rec : KeyRecord ι) (o : TableOp ι) : Prop :=
  ∀ l w, o = .call (.lease (.write l w)) → rec.holds l = true →
    (rec.log.map (·.sequence) ++ w.logs).Nodup

/-- No call looks at the items, but for the commits that write them. -/
theorem perform_items (o : StateOp ι) (rec : KeyRecord ι)
    (items : OrderedMap String (ItemRow ι)) :
    ∃ items', (MemoryStore.perform o { rec with items }).2 =
      { (MemoryStore.perform o rec).2 with items := items' } := by
  cases o with
  | lease o =>
    cases o with
    | acquireLease owner ttlMs now =>
      refine ⟨items, ?_⟩
      have hheld : ({ rec with items } : KeyRecord ι).heldByOther owner now =
          rec.heldByOther owner now := rfl
      simp only [MemoryStore.perform, MemoryStore.run, KeyRecord.acquireLease, hheld]
      split <;> rfl
    | renewLease l ttlMs now =>
      refine ⟨items, ?_⟩
      have hholds : ({ rec with items } : KeyRecord ι).holds l = rec.holds l := rfl
      simp only [MemoryStore.perform, MemoryStore.run, KeyRecord.renewLease, hholds]
      split <;> rfl
    | releaseLease l =>
      refine ⟨items, ?_⟩
      have hholds : ({ rec with items } : KeyRecord ι).holds l = rec.holds l := rfl
      simp only [MemoryStore.perform, MemoryStore.run, KeyRecord.releaseLease, hholds]
      split <;> rfl
    | write l w =>
      have hholds : ({ rec with items } : KeyRecord ι).holds l = rec.holds l := rfl
      simp only [MemoryStore.perform, MemoryStore.run, MemoryStore.write_eq, KeyRecord.fenced, hholds]
      split
      · cases w with
        | commitPoll batch =>
          exact ⟨(items.setAll (·.identity) batch.upserts).eraseAll batch.deletes, rfl⟩
        | recordAttempt id error next =>
          refine ⟨items, ?_⟩
          simp only [MemoryStore.apply, KeyRecord.noteAttempt]
          cases rec.outbox.get id <;> rfl
        | _ => exact ⟨items, rfl⟩
      · exact ⟨items, rfl⟩
  | retryParked ids =>
    have hone : ∀ (rec : KeyRecord ι) (id : String), ({ rec with items } : KeyRecord ι).retryOne id =
        ((rec.retryOne id).1, { (rec.retryOne id).2 with items }) := by
      intro rec id
      simp only [KeyRecord.retryOne]
      split <;> rfl
    refine ⟨items, ?_⟩
    simp only [MemoryStore.perform]
    induction ids generalizing rec with
    | nil => rfl
    | cons id ids ih =>
      simp only [KeyRecord.retryParked, hone]
      exact ih _
  | _ => exact ⟨items, rfl⟩

section Histories

variable {key : PKey} {ops : List (TableOp ι)} {o : TableOp ι}

theorem served_snoc (key : PKey) (ops : List (TableOp ι)) (o : TableOp ι) :
    MemoryStore.served key (ops ++ [o]) = (MemoryStore.serve o (MemoryStore.served key ops)).2 := by
  simp [MemoryStore.served, List.foldl_append]

theorem recent_call (ops : List (TableOp ι)) (o : StateOp ι) :
    recent (ops ++ [.call o]) = recent ops ++ [o] := by
  simp [recent, List.foldl_append]

theorem recent_deleteKey (ops : List (TableOp ι)) : recent (ops ++ [.deleteKey]) = [] := by
  simp [recent, List.foldl_append]

theorem recent_items (ops : List (TableOp ι)) (hcall : ∀ call, o ≠ .call call)
    (ho : o ≠ .deleteKey) : recent (ops ++ [o]) = recent ops := by
  cases o with
  | call o => exact absurd rfl (hcall o)
  | deleteKey => exact absurd rfl ho
  | _ => simp [recent, List.foldl_append]

/-- A call stays with its key. -/
theorem perform_key (o : StateOp ι) (rec : KeyRecord ι) :
    (MemoryStore.perform o rec).2.key = rec.key := by
  cases o with
  | lease o =>
    cases o with
    | acquireLease owner ttlMs now =>
      simp only [MemoryStore.perform, MemoryStore.run, KeyRecord.acquireLease]
      split <;> rfl
    | renewLease l ttlMs now =>
      simp only [MemoryStore.perform, MemoryStore.run, KeyRecord.renewLease]
      split <;> rfl
    | releaseLease l =>
      simp only [MemoryStore.perform, MemoryStore.run, KeyRecord.releaseLease]
      split <;> rfl
    | write l w =>
      simp only [MemoryStore.perform, MemoryStore.run, MemoryStore.write_eq, KeyRecord.fenced]
      split
      · cases w with
        | recordAttempt id error next =>
          simp only [MemoryStore.apply, KeyRecord.noteAttempt]
          cases rec.outbox.get id <;> rfl
        | _ => rfl
      · rfl
  | retryParked ids =>
    have hone : ∀ (rec : KeyRecord ι) (id : String), (rec.retryOne id).2.key = rec.key := by
      intro rec id
      simp only [KeyRecord.retryOne]
      split <;> rfl
    simp only [MemoryStore.perform]
    induction ids generalizing rec with
    | nil => rfl
    | cons id ids ih => exact (ih _).trans (hone rec id)
  | _ => rfl

theorem served_key (key : PKey) (ops : List (TableOp ι)) :
    (MemoryStore.served key ops).key = key := by
  induction ops using List.reverseRecOn with
  | nil => rfl
  | append_singleton ops o ih =>
    rw [served_snoc]
    cases o with
    | call o => exact (perform_key o _).trans ih
    | _ => exact ih

/-- The record is the one that the calls since the last deletion leave, but for the items. -/
theorem served_eq (key : PKey) (ops : List (TableOp ι)) : ∃ items,
    MemoryStore.served key ops = { MemoryStore.after key (recent ops) with items := items } := by
  induction ops using List.reverseRecOn with
  | nil => exact ⟨OrderedMap.empty, rfl⟩
  | append_singleton ops o ih =>
    obtain ⟨items, ih⟩ := ih
    cases o with
    | call o =>
      obtain ⟨items', hitems⟩ := perform_items o (MemoryStore.after key (recent ops)) items
      refine ⟨items', ?_⟩
      rw [served_snoc, ih, recent_call, after_append]
      exact hitems
    | deleteKey =>
      refine ⟨OrderedMap.empty, ?_⟩
      rw [served_snoc, recent_deleteKey, MemoryStore.serve, served_key]
      rfl
    | clearItems =>
      refine ⟨OrderedMap.empty, ?_⟩
      rw [served_snoc, ih, recent_items ops (o := .clearItems) (fun _ => by simp) (by simp)]
      rfl
    | _ =>
      refine ⟨items, ?_⟩
      rw [served_snoc, ih]
      rw [recent_items ops (fun _ => by simp) (by simp)]
      rfl

/-- A history up to a call that deletes nothing has no ties if it has none with the call. -/
theorem NoTies.before (h : NoTies key (recent (ops ++ [o]))) (ho : o ≠ .deleteKey) :
    NoTies key (recent ops) := by
  by_cases hcall : ∃ call, o = .call call
  · obtain ⟨call, rfl⟩ := hcall
    rw [recent_call] at h
    exact h.prefix_
  · rw [recent_items ops (fun call heq => hcall ⟨call, heq⟩) ho] at h
    exact h

theorem NoTies.distinct_served (h : NoTies key (recent ops)) :
    Distinct (MemoryStore.served key ops).outbox := by
  obtain ⟨items, heq⟩ := served_eq key ops
  rw [heq]
  exact h.distinct

theorem NoTies.logsNew (h : NoTies key (recent (ops ++ [o]))) :
    LogsNew (MemoryStore.served key ops) o := by
  rintro l w rfl hholds
  obtain ⟨items, heq⟩ := served_eq key ops
  rw [heq] at hholds ⊢
  rw [recent_call] at h
  exact h.logs.2 (recent ops) _ [] rfl l w rfl hholds

end Histories

end Watukuy
