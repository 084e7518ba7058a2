import Watukuy.Library.ChangeLog
import Watukuy.Cycle.Contract

/-!
# Commits as steps of a change log

An event says what happened to the content of one identity. `leads_page` and `leads_deletes`: the
events of a page, and those of a delete phase, lead from the contents stored before the commit to
those stored after it.
-/

set_option autoImplicit false

namespace Watukuy

open Library

variable {ι : Type}

/-- The content hash of an event's data. -/
def contentHash (d : Deployment ι) (data : Option ι) : String :=
  match data with
  | some item =>
    match fingerprintOf d.crypto d.poller item with
    | .ok hash => hash
    | .error _ => ""
  | none => ""

/-- What an event says about the content of its identity. -/
def deltaOf (d : Deployment ι) (type : EventType) (data : Option ι) : Delta String :=
  match type with
  | .created => .created (contentHash d data)
  | .updated => .updated (contentHash d data)
  | .deleted => .deleted

def EventSpec.delta (d : Deployment ι) (spec : EventSpec ι) : String × Delta String :=
  (spec.identity, deltaOf d spec.type spec.data)

def OutboxRow.delta (d : Deployment ι) (row : OutboxRow ι) : String × Delta String :=
  (row.event.subject, deltaOf d row.event.type row.event.data)

/-- The contents a map of rows records. -/
def contents (items : OrderedMap String (ItemRow ι)) : String → Option String :=
  fun id => (items.get id).map (·.hash)

theorem NumberedRows.deltas (d : Deployment ι) {deps : RunnerDeps ι} {lane : Lane} {cursor : CursorVal}
    {specs : List (EventSpec ι)} {n : Nat} {rows : List (OutboxRow ι)}
    (h : NumberedRows deps lane cursor n specs rows) :
    rows.map (OutboxRow.delta d) = specs.map (EventSpec.delta d) := by
  induction specs generalizing n rows with
  | nil =>
    obtain rfl : rows = [] := h
    rfl
  | cons spec rest ih =>
    obtain ⟨at_, tail, rfl, htail⟩ := h
    rw [List.map_cons, List.map_cons, ih htail]
    rfl

/-! ## Candidates -/

/-- The identities of all items are strings. -/
def StringIdentities (poller : ResolvedPoller ι) : Prop :=
  ∀ item, ∃ s, poller.identity item = .string s

theorem identityOf_string {poller : ResolvedPoller ι} (hid : StringIdentities poller) {item : ι}
    {s : String} (h : identityOf poller item = .ok s) : poller.identity item = .string s := by
  obtain ⟨s', hs'⟩ := hid item
  rw [identityOf, hs'] at h
  rw [hs', Except.ok.inj h]

theorem foldlM_latest {poller : ResolvedPoller ι} {items : List ι} {m m' : OrderedMap String ι}
    (h : items.foldlM (fun m item => do return m.set (← identityOf poller item) item) m = .ok m') :
    ∀ s item, m'.get s = some item →
      (item ∈ items ∧ identityOf poller item = .ok s) ∨ m.get s = some item := by
  induction items generalizing m with
  | nil =>
    intro s item hget
    cases h
    exact Or.inr hget
  | cons x xs ih =>
    intro s item hget
    rw [List.foldlM_cons] at h
    cases hx : identityOf poller x with
    | error e =>
      rw [hx] at h
      cases h
    | ok s' =>
      rw [hx] at h
      rcases ih h s item hget with ⟨hmem, hs⟩ | hm
      · exact Or.inl ⟨List.mem_cons_of_mem x hmem, hs⟩
      · rw [OrderedMap.get_set] at hm
        split at hm
        · rename_i hs
          obtain rfl := Option.some.inj hm
          exact Or.inl ⟨List.mem_cons_self, hs ▸ hx⟩
        · exact Or.inr hm

theorem mem_latestItems {poller : ResolvedPoller ι} {items : List ι} {m : OrderedMap String ι}
    (h : latestItems poller items = .ok m) {s : String} {item : ι} (hmem : (s, item) ∈ m.entries) :
    item ∈ items ∧ identityOf poller item = .ok s := by
  have hget : m.get s = some item := OrderedMap.find_of_mem m.nodup hmem
  rcases foldlM_latest h s item hget with h | h
  · exact h
  · cases h

/-- What is known of the candidates of a page. -/
structure Candidates (d : Deployment ι) (valid : List ι) (candidates : List (DiffCandidate ι)) : Prop where
  nodup : (candidates.map (·.identity)).Nodup
  listed : ∀ c ∈ candidates, c.item ∈ valid ∧ identityOf d.poller c.item = .ok c.identity
  hashed : ∀ c ∈ candidates, contentHash d (some c.item) = c.hash

theorem candidatesOf_entries {d : Deployment ι} {existing : OrderedMap String (ItemRow ι)}
    {entries : List (String × ι)} {candidates : List (DiffCandidate ι)} {unchanged : List String}
    (h : candidatesOf d.crypto d.poller existing entries = .ok (candidates, unchanged)) :
    (candidates.map fun c => (c.identity, c.item)).Sublist entries ∧
      ∀ c ∈ candidates, contentHash d (some c.item) = c.hash := by
  induction entries generalizing candidates unchanged with
  | nil =>
    cases h
    exact ⟨List.Sublist.slnil, fun c hc => by simp at hc⟩
  | cons entry rest ih =>
    obtain ⟨identity, item⟩ := entry
    rw [candidatesOf] at h
    dsimp only at h
    split at h
    · cases hrest : candidatesOf d.crypto d.poller existing rest with
      | error e =>
        rw [hrest] at h
        cases h
      | ok r =>
        obtain ⟨cs, us⟩ := r
        rw [hrest] at h
        cases h
        exact ⟨(ih hrest).1.cons _, (ih hrest).2⟩
    · cases hhash : fingerprintOf d.crypto d.poller item with
      | error e =>
        rw [hhash] at h
        cases h
      | ok hash =>
        cases hrest : candidatesOf d.crypto d.poller existing rest with
        | error e =>
          rw [hhash, hrest] at h
          cases h
        | ok r =>
          obtain ⟨cs, us⟩ := r
          rw [hhash, hrest] at h
          cases h
          refine ⟨(ih hrest).1.cons_cons _, fun c hc => ?_⟩
          rcases List.mem_cons.1 hc with rfl | hc
          · simp only [contentHash, hhash]
          · exact (ih hrest).2 c hc

theorem candidates_spec {d : Deployment ι} {valid : List ι} {rows : OrderedMap String (ItemRow ι)}
    {candidates : List (DiffCandidate ι)} {unchanged : List String}
    (h : prepareCandidates d.crypto d.poller valid rows = .ok (candidates, unchanged)) :
    Candidates d valid candidates := by
  unfold prepareCandidates at h
  cases hlatest : latestItems d.poller valid with
  | error e =>
    rw [hlatest] at h
    cases h
  | ok latest =>
    rw [hlatest] at h
    obtain ⟨hsub, hhash⟩ := candidatesOf_entries h
    refine ⟨?_, fun c hc => ?_, hhash⟩
    · have hkeys : (candidates.map fun c => (c.identity, c.item)).map Prod.fst =
          candidates.map (·.identity) := by simp
      rw [← hkeys]
      exact latest.nodup.sublist (hsub.map _)
    · exact mem_latestItems hlatest (hsub.subset (List.mem_map.2 ⟨c, hc, rfl⟩))

/-! ## Pages -/

/-- The rows of a map lie under their identities and were written under the current schema. -/
def WellKept (poller : ResolvedPoller ι) (items : OrderedMap String (ItemRow ι)) : Prop :=
  ∀ id row, items.get id = some row → row.identity = id ∧ row.schemaVersion = poller.schemaVersion

theorem WellKept.set {poller : ResolvedPoller ι} {items : OrderedMap String (ItemRow ι)}
    (h : WellKept poller items) (c : DiffCandidate ι) (now : Int) :
    WellKept poller (items.set c.identity (rowFor poller c now)) := by
  intro id row hget
  rw [OrderedMap.get_set] at hget
  split at hget
  · rename_i hid
    obtain rfl := Option.some.inj hget
    exact ⟨hid.symm, rfl⟩
  · exact h id row hget

theorem contents_set (items : OrderedMap String (ItemRow ι)) (id : String) (row : ItemRow ι) :
    contents (items.set id row) = Function.update (contents items) id (some row.hash) := by
  funext a
  unfold contents
  rw [OrderedMap.get_set, Function.update_apply]
  split <;> rfl

theorem contents_erase (items : OrderedMap String (ItemRow ι)) (id : String) :
    contents (items.erase id) = Function.update (contents items) id none := by
  funext a
  unfold contents
  rw [OrderedMap.get_erase, Function.update_apply]
  split <;> rfl

/-- What a candidate does to the stored rows: its change leads to the contents after its upsert. -/
structure Applied (d : Deployment ι) (items : OrderedMap String (ItemRow ι)) (id : String)
    (deltas : List (String × Delta String)) (items' : OrderedMap String (ItemRow ι)) : Prop where
  leads : Leads (contents items) deltas (contents items')
  kept : WellKept d.poller items'
  others : ∀ a, a ≠ id → items'.get a = items.get a

theorem Applied.same {d : Deployment ι} {items : OrderedMap String (ItemRow ι)}
    (hkept : WellKept d.poller items) (id : String) : Applied d items id [] items :=
  ⟨Leads.nil, hkept, fun _ _ => rfl⟩

/-- The candidate's row is written, with or without an event. -/
theorem Applied.upsert {d : Deployment ι} {items : OrderedMap String (ItemRow ι)}
    (hkept : WellKept d.poller items) (c : DiffCandidate ι) (now : Int)
    {deltas : List (String × Delta String)}
    (hleads : Leads (contents items) deltas (Function.update (contents items) c.identity (some c.hash))) :
    Applied d items c.identity deltas (items.set c.identity (rowFor d.poller c now)) := by
  refine ⟨?_, hkept.set c now, fun a ha => OrderedMap.get_set_ne items ha _⟩
  rw [contents_set]
  exact hleads

theorem applied_candidate {d : Deployment ι} {items rows : OrderedMap String (ItemRow ι)}
    (hkept : WellKept d.poller items) {c : DiffCandidate ι}
    (hrow : rows.get c.identity = items.get c.identity)
    (hhash : contentHash d (some c.item) = c.hash) (now : Int) (touch : Bool) :
    Applied d items c.identity
      ((diffCandidate d.poller rows now touch c).changes.map fun x => (changeSpec x).delta d)
      (items.setAll (·.identity) (diffCandidate d.poller rows now touch c).upserts) := by
  unfold diffCandidate
  rw [hrow]
  cases hget : items.get c.identity with
  | none =>
    have hfits : (Delta.created c.hash).Fits (contents items c.identity) := by
      simp [Delta.Fits, contents, hget]
    have hleads := Leads.single (e := (c.identity, Delta.created c.hash)) hfits
    rw [← hhash] at hleads
    exact Applied.upsert hkept c now (by rw [← hhash]; exact hleads)
  | some row =>
    have hschema := (hkept c.identity row hget).2
    have hcontent : contents items c.identity = some row.hash := by simp [contents, hget]
    dsimp only
    rw [if_neg (by simp [hschema])]
    split
    · rename_i hne
      have hfits : (Delta.updated c.hash).Fits (contents items c.identity) := ⟨row.hash, hcontent, hne⟩
      have hleads := Leads.single (e := (c.identity, Delta.updated c.hash)) hfits
      rw [← hhash] at hleads
      exact Applied.upsert hkept c now (by rw [← hhash]; exact hleads)
    · rename_i hsame
      rw [not_ne_iff] at hsame
      rw [if_neg (by simp [hschema])]
      -- an unchanged content, touched or not
      dsimp only
      split
      · refine Applied.upsert hkept c now ?_
        have hself : Function.update (contents items) c.identity (some c.hash) = contents items := by
          rw [← hsame, ← hcontent, Function.update_eq_self]
        rw [hself]
        exact Leads.nil
      · exact Applied.same hkept c.identity

theorem setAll_append (items : OrderedMap String (ItemRow ι)) (as bs : List (ItemRow ι)) :
    items.setAll (·.identity) (as ++ bs) =
      (items.setAll (·.identity) as).setAll (·.identity) bs := List.foldl_append ..

/-- The changes of all candidates lead to the contents after all upserts. -/
theorem leads_candidates {d : Deployment ι} {rows : OrderedMap String (ItemRow ι)} {now : Int}
    {touch : Bool} {cs : List (DiffCandidate ι)} {items : OrderedMap String (ItemRow ι)}
    (hkept : WellKept d.poller items) (hnodup : (cs.map (·.identity)).Nodup)
    (hrows : ∀ c ∈ cs, rows.get c.identity = items.get c.identity)
    (hhash : ∀ c ∈ cs, contentHash d (some c.item) = c.hash) :
    Leads (contents items)
        ((diffCandidates d.poller rows now touch cs).changes.map fun x => (changeSpec x).delta d)
        (contents (items.setAll (·.identity) (diffCandidates d.poller rows now touch cs).upserts)) ∧
      WellKept d.poller
        (items.setAll (·.identity) (diffCandidates d.poller rows now touch cs).upserts) := by
  induction cs generalizing items with
  | nil => exact ⟨Leads.nil, hkept⟩
  | cons c rest ih =>
    rw [List.map_cons, List.nodup_cons] at hnodup
    have happlied := applied_candidate hkept (hrows c List.mem_cons_self)
      (hhash c List.mem_cons_self) now touch
    have hrest : ∀ x ∈ rest, rows.get x.identity =
        (items.setAll (·.identity) (diffCandidate d.poller rows now touch c).upserts).get
          x.identity := by
      intro x hx
      have hne : x.identity ≠ c.identity := by
        intro heq
        exact hnodup.1 (List.mem_map.2 ⟨x, hx, heq⟩)
      rw [hrows x (List.mem_cons_of_mem c hx), happlied.others _ hne]
    obtain ⟨hleads, hkept'⟩ := ih happlied.kept hnodup.2 hrest
      fun x hx => hhash x (List.mem_cons_of_mem c hx)
    have hupserts : (diffCandidates d.poller rows now touch (c :: rest)).upserts =
        (diffCandidate d.poller rows now touch c).upserts ++
          (diffCandidates d.poller rows now touch rest).upserts := rfl
    have hchanges : (diffCandidates d.poller rows now touch (c :: rest)).changes =
        (diffCandidate d.poller rows now touch c).changes ++
          (diffCandidates d.poller rows now touch rest).changes := rfl
    rw [hupserts, hchanges, List.map_append, setAll_append]
    exact ⟨happlied.leads.append hleads, hkept'⟩

/-! ## Commits -/

/-- The events of a page lead from the stored contents to those after its commit. -/
theorem leads_page {d : Deployment ι} (hid : StringIdentities d.poller) {rec : KeyRecord ι}
    (hkept : WellKept d.poller rec.items) {valid : List ι} {candidates : List (DiffCandidate ι)}
    {unchanged : List String}
    (hprep : prepareCandidates d.crypto d.poller valid
      (rec.loadVersions (valid.map d.poller.identity)) = .ok (candidates, unchanged))
    (now : Int) (touch : Bool) :
    let diff := diffCandidates d.poller (rec.loadVersions (valid.map d.poller.identity)) now touch
      candidates
    Leads (contents rec.items) (diff.changes.map fun x => (changeSpec x).delta d)
        (contents (rec.items.setAll (·.identity) diff.upserts)) ∧
      WellKept d.poller (rec.items.setAll (·.identity) diff.upserts) := by
  have hspec := candidates_spec hprep
  refine leads_candidates hkept hspec.nodup (fun c hc => ?_) hspec.hashed
  obtain ⟨hmem, hident⟩ := hspec.listed c hc
  rw [get_loadVersions, if_pos]
  rw [← identityOf_string hid hident]
  exact List.mem_map.2 ⟨c.item, hmem, rfl⟩

/-- The `deleted` events of stored rows lead to the contents without them. -/
theorem leads_deletes {d : Deployment ι} {rows : OrderedMap String (ItemRow ι)} {ids : List String}
    {items : OrderedMap String (ItemRow ι)} (hkept : WellKept d.poller items) (hnodup : ids.Nodup)
    (hrows : ∀ id ∈ ids, rows.get id = items.get id) :
    Leads (contents items)
        ((ids.filterMap fun id => (rows.get id).map (deleteSpec d.poller id)).map (EventSpec.delta d))
        (contents (items.eraseAll ids)) ∧
      WellKept d.poller (items.eraseAll ids) := by
  induction ids generalizing items with
  | nil => exact ⟨Leads.nil, hkept⟩
  | cons id rest ih =>
    rw [List.nodup_cons] at hnodup
    have hkept' : WellKept d.poller (items.erase id) := by
      intro a row hget
      rw [OrderedMap.get_erase] at hget
      split at hget
      · cases hget
      · exact hkept a row hget
    have hrest : ∀ a ∈ rest, rows.get a = (items.erase id).get a := by
      intro a ha
      have hne : a ≠ id := by
        rintro rfl
        exact hnodup.1 ha
      rw [OrderedMap.get_erase_ne items hne]
      exact hrows a (List.mem_cons_of_mem id ha)
    obtain ⟨hleads, hend⟩ := ih hkept' hnodup.2 hrest
    refine ⟨?_, hend⟩
    have hid := hrows id List.mem_cons_self
    rw [contents_erase] at hleads
    cases hget : items.get id with
    | none =>
      -- nothing is stored there, so nothing is emitted
      have hself : Function.update (contents items) id none = contents items := by
        have hnone : contents items id = none := by simp [contents, hget]
        rw [← hnone, Function.update_eq_self]
      rw [hself] at hleads
      rw [List.filterMap_cons_none (by rw [hid, hget]; rfl)]
      exact hleads
    | some row =>
      rw [List.filterMap_cons_some (b := deleteSpec d.poller id row) (by rw [hid, hget]; rfl)]
      have hfits : (Delta.deleted : Delta String).Fits (contents items id) :=
        ⟨row.hash, by simp [contents, hget]⟩
      exact Leads.cons (e := (id, Delta.deleted)) hfits hleads

end Watukuy
