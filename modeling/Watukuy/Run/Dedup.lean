import Watukuy.Library.Dedup
import Watukuy.Run.Repolls

/-!
# Consumers that deduplicate by event id

The id of an event is that of its identity, version or hash, and type, not of the change. A consumer
that applies the first event of each id follows the store exactly as long as no change repeats these
three, and no forced backfill re-emits an item whose version stands but whose content changed.
-/

set_option autoImplicit false

namespace Watukuy

open Library

variable {ι : Type}

/-- The id `buildEventRow` gives the event. -/
def EventSpec.id (d : Deployment ι) (spec : EventSpec ι) : String :=
  eventId d.crypto
    { source := d.poller.source
      partition := d.key.partition
      identity := spec.identity
      version := spec.version
      schemaVersion := d.poller.schemaVersion
      type := spec.type }

/-- Two events a consumer cannot tell apart by id. -/
structure EventSpec.Twins (a b : EventSpec ι) : Prop where
  identity : a.identity = b.identity
  version : a.version = b.version
  type : a.type = b.type

/-- What the event tells a consumer. -/
def EventSpec.entry (d : Deployment ι) (spec : EventSpec ι) : LogEntry String String String where
  id := spec.id d
  key := spec.identity
  value := (spec.delta d).2.after

/-- The events a step of a run commits. -/
def committedBy : Except JsError (List (EventSpec ι)) → List (EventSpec ι)
  | .ok events => events
  | .error _ => []

/-- The committed events of a run, in order. -/
def pollEvents (diff : DiffPage ι) (rec : KeyRecord ι) (steps : List (PollStep ι)) :
    List (EventSpec ι) :=
  (pollSteps diff rec steps).2.flatMap committedBy

def PollStep.poller : PollStep ι → ResolvedPoller ι
  | .page p => p.poller
  | .delete poller _ => poller

theorem pollSteps_events (diff : DiffPage ι) (rec : KeyRecord ι) (before after : List (PollStep ι)) :
    (pollSteps diff rec (before ++ after)).2 =
      (pollSteps diff rec before).2 ++ (pollSteps diff (pollSteps diff rec before).1 after).2 := by
  induction before generalizing rec with
  | nil => rfl
  | cons step before ih => exact congrArg (_ :: ·) (ih (pollStep diff rec step).1)

theorem pollEvents_snoc (diff : DiffPage ι) (rec : KeyRecord ι) (before : List (PollStep ι))
    (step : PollStep ι) :
    pollEvents diff rec (before ++ [step]) =
      pollEvents diff rec before ++
        committedBy (pollStep diff (pollSteps diff rec before).1 step).2 := by
  rw [pollEvents, pollSteps_events, List.flatMap_append]
  congr 1
  exact List.append_nil _

theorem pollSteps_snoc (diff : DiffPage ι) (rec : KeyRecord ι) (before : List (PollStep ι))
    (step : PollStep ι) :
    (pollSteps diff rec (before ++ [step])).1 =
      (pollStep diff (pollSteps diff rec before).1 step).1 := pollSteps_append ..

/-! ## What a step does to the contents -/

section
variable {d : Deployment ι} {existing items : OrderedMap String (ItemRow ι)} {now : Int} {touch : Bool}

/-- An item without a change leaves the content of its identity as it is. -/
theorem entryDiff_contents {entry : String × ι} {diff : DiffResult ι}
    (hkept : WellKept d.poller items)
    (hrow : ∀ row, existing.get entry.1 = some row → items.get entry.1 = some row)
    (h : entryDiff d.crypto d.poller existing now touch false entry = .ok diff) :
    WellKept d.poller (items.setAll (·.identity) diff.upserts) ∧
      ∀ k ∉ diff.changes.map (·.identity),
        contents (items.setAll (·.identity) diff.upserts) k = contents items k := by
  by_cases hfast : fastPath d.poller (d.poller.version.map fun f => f entry.2)
      (existing.get entry.1) = true
  · rw [entryDiff, if_pos ⟨by simp, hfast⟩] at h
    cases h
    exact ⟨hkept, fun k _ => rfl⟩
  · obtain ⟨hash, hhash, rfl⟩ := entryDiff_ok (fun hskip => hfast hskip.2) h
    have hset := hkept.set
      { identity := entry.1, item := entry.2,
        version := (d.poller.version.map fun f => f entry.2), hash } now
    have hcontents : ∀ k, k ≠ entry.1 → contents (items.set entry.1 (rowFor d.poller
        { identity := entry.1, item := entry.2,
          version := (d.poller.version.map fun f => f entry.2), hash } now)) k =
        contents items k := by
      intro k hk
      rw [contents_set]
      exact Function.update_of_ne hk ..
    simp only [diffCandidate]
    split
    · exact ⟨hset, fun k hk => hcontents k (by simpa using hk)⟩
    · rename_i row hget
      have hstored := hrow row hget
      have hschema := (hkept entry.1 row hstored).2
      rw [if_neg (by simp [hschema])]
      split
      · exact ⟨hset, fun k hk => hcontents k (by simpa using hk)⟩
      · rename_i hsame
        rw [not_ne_iff] at hsame
        rw [if_neg (by simp [hschema])]
        dsimp only
        split
        · refine ⟨hset, fun k _ => ?_⟩
          by_cases hk : k = entry.1
          · -- the row is written with the hash it had
            subst hk
            simp [contents, OrderedMap.setAll, rowFor, hstored, hsame]
          · exact hcontents k hk
        · exact ⟨hkept, fun k _ => rfl⟩

/-- The changes of an item are of its identity. -/
theorem entryDiff_changes {entry : String × ι} {diff : DiffResult ι}
    (h : entryDiff d.crypto d.poller existing now touch false entry = .ok diff) :
    (diff.changes.map (·.identity)).Sublist [entry.1] := by
  by_cases hfast : fastPath d.poller (d.poller.version.map fun f => f entry.2)
      (existing.get entry.1) = true
  · rw [entryDiff, if_pos ⟨by simp, hfast⟩] at h
    cases h
    exact List.nil_sublist _
  · obtain ⟨hash, -, rfl⟩ := entryDiff_ok (fun hskip => hfast hskip.2) h
    simp only [diffCandidate]
    repeat' split
    all_goals simp

theorem entriesDiff_changes {entries : List (String × ι)} {diff : DiffResult ι}
    (h : entriesDiff d.crypto d.poller existing now touch false entries = .ok diff) :
    (diff.changes.map (·.identity)).Sublist (entries.map Prod.fst) := by
  induction entries generalizing diff with
  | nil =>
    cases h
    exact List.Sublist.slnil
  | cons entry entries ih =>
    obtain ⟨first, rest, hfirst, hrest, rfl⟩ := entriesDiff_cons_ok h
    have hchanges : (first.append rest).changes = first.changes ++ rest.changes := rfl
    rw [hchanges, List.map_append]
    exact (entryDiff_changes hfirst).append (ih hrest)

/-- A page leaves the contents of the identities it does not change. -/
theorem entriesDiff_contents {entries : List (String × ι)} {diff : DiffResult ι}
    (hkept : WellKept d.poller items) (hnodup : (entries.map Prod.fst).Nodup)
    (hrows : ∀ entry ∈ entries, ∀ row, existing.get entry.1 = some row →
      items.get entry.1 = some row)
    (h : entriesDiff d.crypto d.poller existing now touch false entries = .ok diff) :
    WellKept d.poller (items.setAll (·.identity) diff.upserts) ∧
      ∀ k ∉ diff.changes.map (·.identity),
        contents (items.setAll (·.identity) diff.upserts) k = contents items k := by
  induction entries generalizing diff items with
  | nil =>
    cases h
    exact ⟨hkept, fun k _ => rfl⟩
  | cons entry entries ih =>
    obtain ⟨first, rest, hfirst, hrest, rfl⟩ := entriesDiff_cons_ok h
    rw [List.map_cons, List.nodup_cons] at hnodup
    obtain ⟨hkept', hfirst'⟩ := entryDiff_contents hkept (hrows entry List.mem_cons_self) hfirst
    have hrows' : ∀ e ∈ entries, ∀ row, existing.get e.1 = some row →
        (items.setAll (·.identity) first.upserts).get e.1 = some row := by
      intro e he row hget
      have hne : e.1 ≠ entry.1 := by
        intro heq
        exact hnodup.1 (heq ▸ List.mem_map_of_mem he)
      rw [OrderedMap.get_setAll_of_not_mem _ _ _ (entryDiff_keys hfirst hne)]
      exact hrows e (List.mem_cons_of_mem _ he) row hget
    obtain ⟨hend, hrest'⟩ := ih hkept' hnodup.2 hrows' hrest
    have hupserts : items.setAll (·.identity) (first.append rest).upserts =
        (items.setAll (·.identity) first.upserts).setAll (·.identity) rest.upserts :=
      setAll_append ..
    have hchanges : (first.append rest).changes = first.changes ++ rest.changes := rfl
    rw [hupserts, hchanges, List.map_append]
    refine ⟨hend, fun k hk => ?_⟩
    rw [List.mem_append, not_or] at hk
    rw [hrest' k hk.2, hfirst' k hk.1]

/-! ## Steps -/

/-- The events a page re-emits: one for each item that is known and unchanged. -/
theorem mem_forcedSpecs {poller : ResolvedPoller ι} {valid : List ι} {changes : List (Change ι)}
    {spec : EventSpec ι} (h : spec ∈ forcedSpecs poller valid existing changes) :
    spec.identity ∉ changes.map (·.identity) ∧
      ∃ item row, (valid.reverse.find? fun i => poller.identity i = .string spec.identity) =
          some item ∧ existing.get spec.identity = some row ∧
        spec = forcedSpec poller spec.identity item row := by
  obtain ⟨identity, -, h⟩ := List.mem_filterMap.1 h
  cases identity with
  | string s =>
    dsimp only at h
    split at h
    · cases h
    · rename_i hunchanged
      split at h
      · rename_i item row hitem hrow
        obtain rfl := Option.some.inj h
        exact ⟨hunchanged, item, row, hitem, hrow, rfl⟩
      · cases h
  | _ => cases h

/-- The events of a step: one for each identity, up to repetition. -/
theorem pollStep_alike {rec : KeyRecord ι} {step : PollStep ι} {a b : EventSpec ι}
    (hpoller : step.poller = d.poller)
    (ha : a ∈ committedBy (pollStep (pageDiff d.crypto) rec step).2)
    (hb : b ∈ committedBy (pollStep (pageDiff d.crypto) rec step).2)
    (hid : a.identity = b.identity) : a = b := by
  cases step with
  | delete poller missing =>
    obtain ⟨i, -, ha⟩ := List.mem_filterMap.1 ha
    obtain ⟨j, -, hb⟩ := List.mem_filterMap.1 hb
    obtain ⟨row, hrow, rfl⟩ := Option.map_eq_some_iff.1 ha
    obtain ⟨row', hrow', rfl⟩ := Option.map_eq_some_iff.1 hb
    obtain rfl : i = j := hid
    obtain rfl : row = row' := Option.some.inj (hrow.symm.trans hrow')
    rfl
  | page page =>
    have hpoller : page.poller = d.poller := hpoller
    cases hprocess : page.process (pageDiff d.crypto) rec with
    | error e =>
      simp only [pollStep, hprocess, committedBy, List.not_mem_nil] at ha
    | ok out =>
      obtain ⟨events, upserts⟩ := out
      simp only [pollStep, hprocess, committedBy] at ha hb
      obtain ⟨valid, invalid, result, -, -, hresult, rfl, -⟩ := process_ok hprocess
      rw [hpoller, pageDiff_eq] at hresult
      obtain ⟨latest, -, hresult⟩ := bind_eq_ok.1 hresult
      have hnodup : (result.changes.map (·.identity)).Nodup :=
        latest.nodup.sublist (entriesDiff_changes hresult)
      have hforced : ∀ x ∈ (if page.force then forcedSpecs page.poller valid
          (rec.loadVersions (valid.map page.poller.identity)) result.changes else []),
          x ∈ forcedSpecs page.poller valid
            (rec.loadVersions (valid.map page.poller.identity)) result.changes := by
        intro x hx
        split at hx
        · exact hx
        · cases hx
      rcases List.mem_append.1 ha with ha | ha <;> rcases List.mem_append.1 hb with hb | hb
      · obtain ⟨x, hx, rfl⟩ := List.mem_map.1 ha
        obtain ⟨y, hy, rfl⟩ := List.mem_map.1 hb
        rw [List.inj_on_of_nodup_map hnodup hx hy hid]
      · obtain ⟨x, hx, rfl⟩ := List.mem_map.1 ha
        refine absurd ?_ (mem_forcedSpecs (hforced b hb)).1
        rw [← hid]
        exact List.mem_map_of_mem hx
      · obtain ⟨y, hy, rfl⟩ := List.mem_map.1 hb
        refine absurd ?_ (mem_forcedSpecs (hforced a ha)).1
        rw [hid]
        exact List.mem_map_of_mem hy
      · obtain ⟨-, item, row, hitem, hrow, haeq⟩ := mem_forcedSpecs (hforced a ha)
        obtain ⟨-, item', row', hitem', hrow', hbeq⟩ := mem_forcedSpecs (hforced b hb)
        rw [hid] at hitem hrow
        obtain rfl := Option.some.inj (hitem.symm.trans hitem')
        obtain rfl := Option.some.inj (hrow.symm.trans hrow')
        rw [haeq, hbeq, hid]

/-- A step leaves the contents of the identities it has no events of. -/
theorem pollStep_contents {rec : KeyRecord ι} {step : PollStep ι} (hkept : WellKept d.poller rec.items)
    (hpoller : step.poller = d.poller) :
    WellKept d.poller (pollStep (pageDiff d.crypto) rec step).1.items ∧
      ∀ k, (∀ spec ∈ committedBy (pollStep (pageDiff d.crypto) rec step).2, spec.identity ≠ k) →
        contents (pollStep (pageDiff d.crypto) rec step).1.items k = contents rec.items k := by
  cases step with
  | delete poller missing =>
    constructor
    · intro id row hget
      rw [pollStep, OrderedMap.get_eraseAll] at hget
      split at hget
      · cases hget
      · exact hkept id row hget
    · intro k hk
      simp only [pollStep, contents, OrderedMap.get_eraseAll]
      split
      · rename_i hmissing
        -- a stored row of a missing identity has its event
        cases hrow : rec.items.get k with
        | none => rfl
        | some row =>
          have hloaded : (rec.loadVersions (missing.map .string)).get k = some row := by
            rw [get_loadVersions, if_pos (List.mem_map_of_mem hmissing), hrow]
          refine absurd rfl (hk (deleteSpec poller k row) ?_)
          exact List.mem_filterMap.2 ⟨k, hmissing, by simp only [hloaded, Option.map_some]⟩
      · rfl
  | page page =>
    have hpoller : page.poller = d.poller := hpoller
    cases hprocess : page.process (pageDiff d.crypto) rec with
    | error e =>
      simp only [pollStep, hprocess]
      exact ⟨hkept, fun _ _ => trivial⟩
    | ok out =>
      obtain ⟨events, upserts⟩ := out
      simp only [pollStep, hprocess, committedBy]
      obtain ⟨valid, invalid, result, -, -, hresult, rfl, rfl⟩ := process_ok hprocess
      rw [hpoller, pageDiff_eq] at hresult
      obtain ⟨latest, -, hresult⟩ := bind_eq_ok.1 hresult
      obtain ⟨hend, hcontents⟩ := entriesDiff_contents hkept latest.nodup
        (fun entry _ row hget => get_of_loaded hget) hresult
      refine ⟨hend, fun k hk => hcontents k fun hmem => ?_⟩
      obtain ⟨change, hchange, rfl⟩ := List.mem_map.1 hmem
      exact hk (changeSpec change) (List.mem_append_left _ (List.mem_map_of_mem hchange)) rfl

theorem wellKept_pollSteps {steps : List (PollStep ι)} (hpoller : ∀ step ∈ steps, step.poller = d.poller) :
    WellKept d.poller
      (pollSteps (pageDiff d.crypto) (KeyRecord.fresh d.key) steps).1.items := by
  induction steps using List.reverseRecOn with
  | nil =>
    intro id row hget
    cases hget
  | append_singleton steps step ih =>
    rw [pollSteps_snoc]
    refine (pollStep_contents (ih fun s hs => hpoller s ?_) (hpoller step ?_)).1
    · exact List.mem_append_left _ hs
    · exact List.mem_append_right _ List.mem_cons_self

end

/-! ## Following the store -/

section
variable {d : Deployment ι} {steps : List (PollStep ι)}

/-- Under a collision-free digest, equal ids are those of events that are alike. -/
theorem id_eq_iff (hc : Function.Injective d.crypto.digest) {a b : EventSpec ι} :
    a.id d = b.id d ↔ a.Twins b := by
  constructor
  · intro h
    have hparts := eventId_inj hc h
    simp only [EventIdParts.mk.injEq, true_and] at hparts
    exact ⟨hparts.1, hparts.2.1, hparts.2.2⟩
  · intro h
    rw [EventSpec.id, EventSpec.id, h.identity, h.version, h.type]

/-- What the store records after a history. -/
def storedAfter (d : Deployment ι) (steps : List (PollStep ι)) : String → Option String :=
  contents (pollSteps (pageDiff d.crypto) (KeyRecord.fresh d.key) steps).1.items

/-- The committed events of a history. -/
def eventsOf (d : Deployment ι) (steps : List (PollStep ι)) : List (EventSpec ι) :=
  pollEvents (pageDiff d.crypto) (KeyRecord.fresh d.key) steps

/-- What the last step of a history commits. -/
def lastEvents (d : Deployment ι) (before : List (PollStep ι)) (step : PollStep ι) :
    List (EventSpec ι) :=
  committedBy (pollStep (pageDiff d.crypto)
    (pollSteps (pageDiff d.crypto) (KeyRecord.fresh d.key) before).1 step).2

/-- Whatever is delivered of a history, a consumer that deduplicates by id ends with what is stored. -/
def Converges (d : Deployment ι) (steps : List (PollStep ι)) : Prop :=
  ∀ deliveries, Redelivers (eventsOf d steps) deliveries →
    (Replica.empty.receiveAll (deliveries.map (·.entry d))).snapshot = storedAfter d steps

/-- The last step of a history tells its changes apart from the events before it. -/
structure TellsApart (d : Deployment ι) (before : List (PollStep ι)) (step : PollStep ι) : Prop where
  /-- An event like an earlier one changes nothing. -/
  repeated : ∀ spec ∈ lastEvents d before step, (∃ earlier ∈ eventsOf d before, earlier.Twins spec) →
    storedAfter d before spec.identity = storedAfter d (before ++ [step]) spec.identity
  /-- Any other event carries what is stored. -/
  new : ∀ spec ∈ lastEvents d before step, (¬∃ earlier ∈ eventsOf d before, earlier.Twins spec) →
    (spec.delta d).2.after = storedAfter d (before ++ [step]) spec.identity

theorem eventsOf_snoc (before : List (PollStep ι)) (step : PollStep ι) :
    eventsOf d (before ++ [step]) = eventsOf d before ++ lastEvents d before step :=
  pollEvents_snoc ..

/-- The consumer after the events in order. -/
theorem converges_iff : Converges d steps ↔
    (Replica.empty.receiveAll ((eventsOf d steps).map (·.entry d))).snapshot =
      storedAfter d steps := by
  constructor
  · exact fun h => h _ (Redelivers.self _)
  · intro h deliveries hdeliveries
    rw [(hdeliveries.map (·.entry d)).receiveAll]
    exact h

/-- One more step. -/
theorem converges_snoc_iff (hc : Function.Injective d.crypto.digest) {before : List (PollStep ι)}
    {step : PollStep ι} (hpoller : ∀ s ∈ before ++ [step], s.poller = d.poller)
    (hbefore : Converges d before) : Converges d (before ++ [step]) ↔ TellsApart d before step := by
  have hlast := hpoller step (List.mem_append_right _ List.mem_cons_self)
  have hkept : WellKept d.poller _ :=
    wellKept_pollSteps fun s hs => hpoller s (List.mem_append_left [step] hs)
  have happlied : ∀ spec : EventSpec ι,
      (spec.entry d).id ∈ (Replica.empty.receiveAll ((eventsOf d before).map (·.entry d))).applied ↔
        ∃ earlier ∈ eventsOf d before, earlier.Twins spec := by
    intro spec
    rw [Replica.mem_applied]
    constructor
    · rintro (hnone | ⟨e, he, hid⟩)
      · cases hnone
      · obtain ⟨earlier, hearlier, rfl⟩ := List.mem_map.1 he
        exact ⟨earlier, hearlier, (id_eq_iff hc).1 hid⟩
    · rintro ⟨earlier, hearlier, htwins⟩
      exact Or.inr ⟨earlier.entry d, List.mem_map_of_mem hearlier, (id_eq_iff hc).2 htwins⟩
  have hcoherent : Coherent ((lastEvents d before step).map (·.entry d)) := by
    constructor
    · intro x hx y hy hkey
      obtain ⟨a, ha, rfl⟩ := List.mem_map.1 hx
      obtain ⟨b, hb, rfl⟩ := List.mem_map.1 hy
      obtain rfl : a = b := pollStep_alike hlast ha hb hkey
      exact ⟨rfl, rfl⟩
    · intro x hx y hy hid
      obtain ⟨a, -, rfl⟩ := List.mem_map.1 hx
      obtain ⟨b, -, rfl⟩ := List.mem_map.1 hy
      exact ((id_eq_iff hc).1 hid).identity
  have hquiet : ∀ k, (∀ e ∈ (lastEvents d before step).map (·.entry d), e.key ≠ k) →
      storedAfter d (before ++ [step]) k = storedAfter d before k := by
    intro k hk
    unfold storedAfter
    rw [pollSteps_snoc]
    refine (pollStep_contents hkept hlast).2 k fun spec hspec => ?_
    exact hk (spec.entry d) (List.mem_map_of_mem hspec)
  rw [converges_iff, eventsOf_snoc, List.map_append, Replica.receiveAll_append,
    Replica.follows_iff (converges_iff.1 hbefore) hcoherent hquiet]
  constructor
  · intro h
    constructor
    · intro spec hspec hearlier
      exact (h (spec.entry d) (List.mem_map_of_mem hspec)).1 ((happlied spec).2 hearlier)
    · intro spec hspec hnew
      exact (h (spec.entry d) (List.mem_map_of_mem hspec)).2 fun hid => hnew ((happlied spec).1 hid)
  · intro h e he
    obtain ⟨spec, hspec, rfl⟩ := List.mem_map.1 he
    exact ⟨fun hid => h.repeated spec hspec ((happlied spec).1 hid),
      fun hnew => h.new spec hspec fun hearlier => hnew ((happlied spec).2 hearlier)⟩

/-- A consumer that deduplicates by id ends with what is stored after every part of a history, whatever
is delivered again, if and only if each step tells its changes apart from the events before it. -/
theorem dedup_converges_iff (hc : Function.Injective d.crypto.digest)
    (hpoller : ∀ step ∈ steps, step.poller = d.poller) :
    (∀ pre, pre <+: steps → Converges d pre) ↔
      ∀ before step, before ++ [step] <+: steps → TellsApart d before step := by
  constructor
  · intro h before step hpart
    have hsteps : ∀ s ∈ before ++ [step], s.poller = d.poller :=
      fun s hs => hpoller s (hpart.subset hs)
    exact (converges_snoc_iff hc hsteps (h before ((List.prefix_append _ _).trans hpart))).1
      (h _ hpart)
  · intro h pre
    induction pre using List.reverseRecOn with
    | nil =>
      intro _
      exact converges_iff.2 rfl
    | append_singleton before step ih =>
      intro hpart
      have hsteps : ∀ s ∈ before ++ [step], s.poller = d.poller :=
        fun s hs => hpoller s (hpart.subset hs)
      exact (converges_snoc_iff hc hsteps (ih ((List.prefix_append _ _).trans hpart))).2
        (h before step hpart)

/-! ## Histories without forced pages -/

/-- A step of ordinary operation: a page that is not forced, or the deletion of distinct rows. -/
def PollStep.Ordinary : PollStep ι → Prop
  | .page p => p.force = false
  | .delete _ missing => missing.Nodup

/-- The events of an ordinary step each change what is stored, and carry what is stored afterwards. -/
theorem pollStep_changes (hid : StringIdentities d.poller) {rec : KeyRecord ι} {step : PollStep ι}
    (hkept : WellKept d.poller rec.items) (hpoller : step.poller = d.poller)
    (hordinary : step.Ordinary) :
    Leads (contents rec.items)
        ((committedBy (pollStep (pageDiff d.crypto) rec step).2).map (EventSpec.delta d))
        (contents (pollStep (pageDiff d.crypto) rec step).1.items) ∧
      ((committedBy (pollStep (pageDiff d.crypto) rec step).2).map (·.identity)).Nodup := by
  cases step with
  | delete poller missing =>
    obtain rfl : poller = d.poller := hpoller
    have hnodup : missing.Nodup := hordinary
    have hrows : ∀ id ∈ missing,
        (rec.loadVersions (missing.map .string)).get id = rec.items.get id := by
      intro id hmem
      rw [get_loadVersions, if_pos (List.mem_map_of_mem hmem)]
    refine ⟨(leads_deletes hkept hnodup hrows).1, ?_⟩
    have hsub : ∀ ids : List String,
        ((ids.filterMap fun id => ((rec.loadVersions (missing.map .string)).get id).map
          (deleteSpec d.poller id)).map (·.identity)).Sublist ids := by
      intro ids
      induction ids with
      | nil => exact List.Sublist.slnil
      | cons id ids ih =>
        cases hget : (rec.loadVersions (missing.map .string)).get id with
        | none =>
          rw [List.filterMap_cons_none (by rw [hget]; rfl)]
          exact ih.cons _
        | some row =>
          rw [List.filterMap_cons_some (b := deleteSpec d.poller id row) (by rw [hget]; rfl)]
          exact ih.cons_cons _
    exact hnodup.sublist (hsub missing)
  | page page =>
    have hpoller : page.poller = d.poller := hpoller
    have hforce : page.force = false := hordinary
    cases hprocess : page.process (pageDiff d.crypto) rec with
    | error e =>
      simp only [pollStep, hprocess, committedBy]
      exact ⟨Leads.nil, List.nodup_nil⟩
    | ok out =>
      obtain ⟨events, upserts⟩ := out
      simp only [pollStep, hprocess, committedBy]
      obtain ⟨valid, invalid, result, -, -, hresult, rfl, rfl⟩ := process_ok hprocess
      rw [hpoller] at hresult
      have hchanges : (result.changes.map (·.identity)).Nodup := by
        have hentries := hresult
        rw [pageDiff_eq] at hentries
        obtain ⟨latest, -, hentries⟩ := bind_eq_ok.1 hentries
        exact latest.nodup.sublist (entriesDiff_changes hentries)
      obtain ⟨⟨candidates, unchanged⟩, hprep, hresult⟩ := bind_eq_ok.1 hresult
      obtain rfl := Except.ok.inj hresult
      simp only [hforce, Bool.false_eq_true, if_false, List.append_nil, List.map_map]
      exact ⟨(leads_page hid hkept hprep page.now page.fullScan).1, hchanges⟩

/-- Without forced pages, a step tells its changes apart when none is like an earlier event. -/
theorem tellsApart_iff (hid : StringIdentities d.poller) {before : List (PollStep ι)}
    {step : PollStep ι} (hpoller : ∀ s ∈ before ++ [step], s.poller = d.poller)
    (hordinary : step.Ordinary) :
    TellsApart d before step ↔
      ∀ spec ∈ lastEvents d before step, ∀ earlier ∈ eventsOf d before, ¬earlier.Twins spec := by
  have hlast := hpoller step (List.mem_append_right _ List.mem_cons_self)
  have hkept : WellKept d.poller _ :=
    wellKept_pollSteps fun s hs => hpoller s (List.mem_append_left [step] hs)
  obtain ⟨hleads, hnodup⟩ := pollStep_changes hid hkept hlast hordinary
  have hkeys : ((lastEvents d before step).map (EventSpec.delta d)).map Prod.fst =
      (lastEvents d before step).map (·.identity) := by
    rw [List.map_map]
    rfl
  have hafter : storedAfter d (before ++ [step]) = contents (pollStep (pageDiff d.crypto)
      (pollSteps (pageDiff d.crypto) (KeyRecord.fresh d.key) before).1 step).1.items := by
    rw [storedAfter, pollSteps_snoc]
  constructor
  · intro h spec hspec earlier hearlier htwins
    have hchanged := hleads.changed (hkeys ▸ hnodup) (List.mem_map_of_mem hspec)
    refine hchanged ?_
    rw [← hafter]
    exact h.repeated spec hspec ⟨earlier, hearlier, htwins⟩
  · intro h
    constructor
    · rintro spec hspec ⟨earlier, hearlier, htwins⟩
      exact absurd htwins (h spec hspec earlier hearlier)
    · intro spec hspec _
      rw [hafter]
      exact (hleads.carried (hkeys ▸ hnodup) (List.mem_map_of_mem hspec)).symm

/-- Without forced pages, a consumer that deduplicates by id ends with what is stored after every part
of a history if and only if no two of its events share identity, version or hash, and type. -/
theorem ordinary_converges_iff (hc : Function.Injective d.crypto.digest)
    (hid : StringIdentities d.poller) (hpoller : ∀ step ∈ steps, step.poller = d.poller)
    (hordinary : ∀ step ∈ steps, step.Ordinary) :
    (∀ pre, pre <+: steps → Converges d pre) ↔
      (eventsOf d steps).Pairwise fun a b => ¬a.Twins b := by
  induction steps using List.reverseRecOn with
  | nil =>
    refine ⟨fun _ => List.Pairwise.nil, fun _ pre hpre => ?_⟩
    rw [List.prefix_nil.1 hpre]
    exact converges_iff.2 rfl
  | append_singleton steps step ih =>
    have hmem : step ∈ steps ++ [step] := List.mem_append_right _ List.mem_cons_self
    have hih := ih (fun s hs => hpoller s (List.mem_append_left _ hs))
      fun s hs => hordinary s (List.mem_append_left _ hs)
    have hkept : WellKept d.poller _ :=
      wellKept_pollSteps fun s hs => hpoller s (List.mem_append_left [step] hs)
    have hnodup : ((lastEvents d steps step).map (·.identity)).Nodup :=
      (pollStep_changes hid hkept (hpoller step hmem) (hordinary step hmem)).2
    -- the events of one step are of different identities
    have hstep : (lastEvents d steps step).Pairwise fun a b => ¬a.Twins b := by
      refine (List.pairwise_map.1 hnodup).imp fun hne htwins => ?_
      exact hne htwins.identity
    rw [eventsOf_snoc, List.pairwise_append]
    constructor
    · intro h
      have hbefore : ∀ pre, pre <+: steps → Converges d pre :=
        fun pre hpre => h pre (hpre.trans (List.prefix_append _ _))
      have htells := (converges_snoc_iff hc hpoller (hbefore steps (List.prefix_refl _))).1
        (h _ (List.prefix_refl _))
      refine ⟨hih.1 hbefore, hstep, fun earlier hearlier spec hspec => ?_⟩
      exact (tellsApart_iff hid hpoller (hordinary step hmem)).1 htells spec hspec earlier hearlier
    · rintro ⟨hpairs, -, hcross⟩ pre hpre
      have hbefore := hih.2 hpairs
      rcases List.prefix_concat_iff.1 hpre with rfl | hpre
      · refine (converges_snoc_iff hc hpoller (hbefore steps (List.prefix_refl _))).2 ?_
        exact (tellsApart_iff hid hpoller (hordinary step hmem)).2
          fun spec hspec earlier hearlier => hcross earlier hearlier spec hspec
      · exact hbefore pre hpre

end

/-! ## Sample histories -/

/-- One item whose content changes. -/
def sampleHistory (contents : List String) : List (PollStep Sample) :=
  contents.map fun content => .page
    { poller := samplePoller, now := 0, fullScan := true, force := false, items := [("a", content)] }

theorem sampleHistory_poller (contents : List String) :
    ∀ step ∈ sampleHistory contents, step.poller = (sampleOf samplePoller).poller := by
  intro step hstep
  obtain ⟨content, -, rfl⟩ := List.mem_map.1 hstep
  rfl

theorem sampleHistory_ordinary (contents : List String) :
    ∀ step ∈ sampleHistory contents, step.Ordinary := by
  intro step hstep
  obtain ⟨content, -, rfl⟩ := List.mem_map.1 hstep
  rfl

/-- A content that comes back a second time: the id of its event repeats, so a consumer skips the last
change and does not end with what is stored. -/
theorem dedup_diverges :
    let d := sampleOf samplePoller
    let history := sampleHistory ["1", "2", "1", "2"]
    ¬Converges d history ∧ ∃ a b c e, eventsOf d history = [a, b, c, e] ∧ b.id d = e.id d ∧
      b.data = some ("a", "2") ∧ c.data = some ("a", "1") ∧ e.data = some ("a", "2") := by
  have hevents : ∃ a b c e,
      eventsOf (sampleOf samplePoller) (sampleHistory ["1", "2", "1"]) = [a, b, c] ∧
      lastEvents (sampleOf samplePoller) (sampleHistory ["1", "2", "1"])
        (.page { poller := samplePoller, now := 0, fullScan := true, force := false,
                 items := [("a", "2")] }) = [e] ∧
      b.Twins e ∧ ¬a.Twins b ∧ ¬a.Twins c ∧ ¬b.Twins c ∧
      b.data = some ("a", "2") ∧ c.data = some ("a", "1") ∧ e.data = some ("a", "2") := by
    refine ⟨_, _, _, _, rfl, rfl, ⟨rfl, rfl, rfl⟩, ?_, ?_, ?_, rfl, rfl, rfl⟩
    · intro h
      cases h.type
    · intro h
      cases h.type
    · intro h
      exact absurd h.version (by decide)
  obtain ⟨a, b, c, e, hbefore, hlast, htwins, hab, hac, hbc, hb, hc, he⟩ := hevents
  have hfirst : Converges (sampleOf samplePoller) (sampleHistory ["1", "2", "1"]) := by
    refine (ordinary_converges_iff sampleCrypto_injective samplePoller_strings
      (sampleHistory_poller _) (sampleHistory_ordinary _)).2 ?_ _ (List.prefix_refl _)
    rw [hbefore]
    simp [hab, hac, hbc]
  refine ⟨fun h => ?_, a, b, c, e, ?_, (id_eq_iff sampleCrypto_injective).2 htwins, hb, hc, he⟩
  · -- the last step repeats the second event
    have hpoller := sampleHistory_poller ["1", "2", "1", "2"]
    have htells := (converges_snoc_iff sampleCrypto_injective hpoller hfirst).1 h
    have hordinary := sampleHistory_ordinary ["2"] _ List.mem_cons_self
    refine (tellsApart_iff samplePoller_strings hpoller hordinary).1 htells e ?_ b ?_ htwins
    · rw [hlast]
      exact List.mem_cons_self
    · rw [hbefore]
      simp
  · exact (eventsOf_snoc ..).trans (by rw [hbefore, hlast])

/-- Contents that never come back. -/
theorem dedup_converges_iff_sample :
    let d := sampleOf samplePoller
    let history := sampleHistory ["1", "2", "1"]
    (∀ pre, pre <+: history → Converges d pre) ↔
      ∀ before step, before ++ [step] <+: history → TellsApart d before step :=
  dedup_converges_iff sampleCrypto_injective (sampleHistory_poller _)

end Watukuy
