import Watukuy.Run.Deltas
import Watukuy.Run.Lanes
import Watukuy.Run.Scenarios
import Watukuy.Run.Sequences

/-!
# The change stream

The stream of a run is what its commits wrote to the outbox, in the order of the commits. In runs
without forced backfills, replays and operations that drop items, the stream is numbered upwards and
leads from the empty snapshot to the stored items.
-/

set_option autoImplicit false

namespace Watukuy

open Library KeyRecord

variable {ι : Type}

/-- The change log of a run. -/
def changeLog (d : Deployment ι) (tr : List (Label (system ι))) : List (String × Delta String) :=
  (committedRows tr).map (OutboxRow.delta d)

/-- The stream so far leads to what is stored. -/
structure Streaming (d : Deployment ι) (tr : List (Label (system ι))) (rec : KeyRecord ι) : Prop where
  leads : Leads (fun _ => none) (changeLog d tr) (contents rec.items)
  kept : WellKept d.poller rec.items

section Runs

variable {d : Deployment ι} {S : EngineCall → Prop}

/-- A step that commits nothing and changes no items. -/
theorem Streaming.quiet {tr : List (Label (system ι))} {rec rec' : KeyRecord ι}
    (h : Streaming d tr rec) {l : Label (system ι)} (hrows : stepRows l = [])
    (hitems : rec'.items = rec.items) : Streaming d (tr ++ [l]) rec' := by
  have hsame : committedRows (tr ++ [l]) = committedRows tr := by
    rw [committedRows_append, hrows, List.append_nil]
  constructor
  · rw [changeLog, hsame, hitems]
    exact h.leads
  · rw [hitems]
    exact h.kept

/-- A commit whose events lead from the items to those after it. -/
theorem Streaming.commit {tr : List (Label (system ι))} {rec : KeyRecord ι} (h : Streaming d tr rec)
    {l : Label (system ι)} {b : CommitBatch ι} (hrows : stepRows l = b.events)
    {deps : RunnerDeps ι} {lane : Lane} {cursor : CursorVal} {base : Nat} {specs : List (EventSpec ι)}
    (hevents : NumberedRows deps lane cursor base specs b.events)
    (hleads : Leads (contents rec.items) (specs.map (EventSpec.delta d)) (contents (rec.commit b).items))
    (hkept : WellKept d.poller (rec.commit b).items) : Streaming d (tr ++ [l]) (rec.commit b) := by
  refine ⟨?_, hkept⟩
  rw [changeLog, committedRows_append, hrows, List.map_append, hevents.deltas d]
  exact h.leads.append hleads

/-- Without forced lanes, the events of a page are its changes. -/
theorem pageSpecs_unforced {c : Cycle ι} (h : c.start.force = false) (valid : List ι)
    (existing : OrderedMap String (ItemRow ι)) (changes : List (Change ι)) :
    pageSpecs c valid existing changes = changes.map changeSpec := by
  simp [pageSpecs, Cycle.force, h]

theorem commit_items_page {rec : KeyRecord ι} {b : CommitBatch ι} (h : b.deletes = []) :
    (rec.commit b).items = rec.items.setAll (·.identity) b.upserts := by
  simp [KeyRecord.commit, h, OrderedMap.eraseAll]

theorem commit_items_delete {rec : KeyRecord ι} {b : CommitBatch ι} (h : b.upserts = []) :
    (rec.commit b).items = rec.items.eraseAll b.deletes := by
  simp [KeyRecord.commit, h, OrderedMap.setAll]

/-- A commit of the holder. -/
theorem Streaming.commitStep (hid : StringIdentities d.poller) {tr : List (Label (system ι))}
    {rec : KeyRecord ι} (h : Streaming d tr rec) {v : CycleView ι} (hcur : Current rec v)
    (hstart : v.start.force = false)
    (hnodup : ∀ ids, v.streamed = some ids → ids.Nodup) {l : Label (system ι)} {b : CommitBatch ι}
    (hrows : stepRows l = b.events)
    (hstep : Nonempty (PageStep d v b) ∨ Nonempty (DeleteStep d v b)) :
    Streaming d (tr ++ [l]) (rec.commit b) := by
  rcases hstep with ⟨⟨p⟩⟩ | ⟨⟨p⟩⟩
  · have hstart' : p.cycle.start.force = false := by
      rw [p.inCycle.start]
      exact hstart
    have hevents := p.events_eq
    rw [pageSpecs_unforced hstart'] at hevents
    have hloaded := hcur.loaded _ _ p.loaded_eq
    have hprep := p.prepared
    rw [hloaded] at hprep hevents
    obtain ⟨hleads, hkept⟩ := leads_page hid h.kept hprep p.at_ p.cycle.isFullScan
    have hupserts := p.upserts_eq
    rw [hloaded] at hupserts
    refine h.commit hrows hevents ?_ ?_
    · rw [commit_items_page p.deletes_eq, hupserts, List.map_map]
      exact hleads
    · rw [commit_items_page p.deletes_eq, hupserts]
      exact hkept
  · have hloaded := hcur.loaded _ _ p.loaded_eq
    have hrowsEq : ∀ id ∈ b.deletes, p.rows.get id = rec.items.get id := by
      intro id hmem
      rw [hloaded, get_loadVersions, if_pos]
      exact List.mem_map.2 ⟨id, hmem, rfl⟩
    obtain ⟨hleads, hkept⟩ := leads_deletes h.kept (p.nodup_deletes (hnodup _ p.streamed_eq)) hrowsEq
    refine h.commit hrows p.events_eq ?_ ?_
    · rw [commit_items_delete p.upserts_eq]
      exact hleads
    · rw [commit_items_delete p.upserts_eq]
      exact hkept

theorem stepRows_quiet {t : Nat} {o : Op ι} {ch : Choice ι} {a : Ans o}
    (h : ∀ l b, o ≠ .store (.commitPoll l b)) : stepRows (.act t o ch a) = [] := by
  cases o with
  | store so =>
    cases so with
    | commitPoll l b => exact absurd rfl (h l b)
    | _ => rfl
  | _ => rfl

theorem Streaming.act (hid : StringIdentities d.poller) (hS : ∀ call, S call → call.KeepsItems)
    {tr : List (Label (system ι))} {w w' : World ι} {t : Nat} {o : Op ι} {ch : Choice ι} {a : Ans o}
    (h : Streaming d tr w.store) (hfenced : Fenced (viewAt tr) w.store)
    (hunforced : LanesHold (fun next => next.force = false) (viewAt tr) w.store)
    (hallow : (cycleContract d (administers d S)).allow (viewAt tr t) o)
    (hw : perform o ch w = some (a, w')) :
    Streaming d (tr ++ [.act t o ch a]) w'.store := by
  have hstep := itemsStep hS hallow hw
  generalize w'.store = rec' at hstep ⊢
  cases hstep with
  | commit heffect hlease hholds hstep =>
    exact h.commitStep hid (hfenced.current t _ hlease hholds) (hunforced.start t) (hfenced.nodup t)
      (if_pos heffect) hstep
  | refused heffect _ => exact h.quiet (if_neg (by rw [heffect]; simp)) rfl
  | quiet hcalls hitems => exact h.quiet (stepRows_quiet hcalls) hitems

/-- In every run, the stream leads to the stored items. -/
theorem streaming (hid : StringIdentities d.poller) (hS : ∀ call, S call → call.KeepsItems)
    (hforce : NoForce S) {tr : List (Label (system ι))} {c : Config (system ι)}
    (h : Run (system ι) (d.entry S) (World.fresh d.key) tr c) :
    Streaming d tr (World.store (ι := ι) c.world) := by
  refine Run.invariant (obeys d S) (J := fun tr (w : World ι) => Streaming d tr w.store) ?_ ?_ ?_ ?_ h
  · refine ⟨Leads.nil, ?_⟩
    intro id row hget
    cases hget
  · intro tr c p _ hJ
    exact hJ.quiet rfl rfl
  · intro tr c t o ch a w' hr hJ hallow hw
    exact hJ.act hid hS (fenced hS hr) (unforced hforce hr) hallow hw
  · intro tr c x _ hJ
    exact hJ.quiet rfl rfl

end Runs

/-! ## The stream of plain runs -/

/-- The calls of ordinary operation: no forced backfill, and the items are left to the cycles. -/
def EngineCall.Plain : EngineCall → Prop
  | .backfill options => options.force = false
  | call => call.KeepsItems

theorem EngineCall.Plain.keepsItems {call : EngineCall} (h : call.Plain) : call.KeepsItems := by
  cases call with
  | backfill options => trivial
  | _ => exact h

theorem EngineCall.KeepsItems.keepsKey {call : EngineCall} (h : call.KeepsItems) : call.KeepsKey := by
  cases call with
  | removePartition => exact h
  | _ => trivial

theorem plain_noForce : NoForce EngineCall.Plain := fun _ h => h

/-- The types of the events of one identity. -/
def eventTypes (rows : List (OutboxRow ι)) (identity : String) : List EventType :=
  (rows.filter fun r => r.event.subject = identity).map (·.event.type)

theorem letter_deltaOf (d : Deployment ι) (type : EventType) (data : Option ι) :
    (deltaOf d type data).letter .created .updated .deleted = type := by
  cases type <;> rfl

theorem lettersOf_changeLog (d : Deployment ι) (rows : List (OutboxRow ι)) (identity : String) :
    lettersOf .created .updated .deleted (rows.map (OutboxRow.delta d)) identity =
      eventTypes rows identity := by
  unfold lettersOf eventTypes
  rw [List.filter_map, List.map_map]
  refine List.map_congr_left fun r _ => ?_
  exact letter_deltaOf d _ _

/-- In every plain run, the events of each identity form a prefix of `(created updated* deleted)*` in
sequence order, each `updated` changes the stored hash, and replaying the events gives exactly the
stored contents. -/
theorem stream_reproduces_snapshot {d : Deployment ι} (hid : StringIdentities d.poller)
    {tr : List (Label (system ι))} {c : Config (system ι)}
    (h : Run (system ι) (d.entry EngineCall.Plain) (World.fresh d.key) tr c) :
    ((committedRows tr).Pairwise fun a b => a.sequence < b.sequence) ∧
      ∀ identity,
        (∃ suffix, eventTypes (committedRows tr) identity ++ suffix ∈
          lifeCycle EventType.created EventType.updated EventType.deleted) ∧
        (∀ pre r post, committedRows tr = pre ++ r :: post → r.event.subject = identity →
          r.event.type = .updated →
          ∃ hash, replayLog (fun _ => none) (pre.map (OutboxRow.delta d)) identity = some hash ∧
            hash ≠ contentHash d r.event.data) ∧
        replayLog (fun _ => none) (changeLog d tr) identity =
          ((World.store (ι := ι) c.world).items.get identity).map (·.hash) := by
  have hstream := streaming hid (fun _ hcall => hcall.keepsItems) plain_noForce h
  have hsequenced := sequenced (fun _ hcall => hcall.keepsItems.keepsKey) h
  refine ⟨hsequenced.increasing, fun identity => ⟨?_, ?_, ?_⟩⟩
  · obtain ⟨suffix, hsuffix⟩ :=
      hstream.leads.lifeCycle EventType.created EventType.updated EventType.deleted identity
    rw [changeLog, lettersOf_changeLog] at hsuffix
    exact ⟨suffix, hsuffix⟩
  · intro pre r post hsplit hsubject htype
    have hlog : changeLog d tr =
        pre.map (OutboxRow.delta d) ++ r.delta d :: post.map (OutboxRow.delta d) := by
      rw [changeLog, hsplit, List.map_append, List.map_cons]
    have hfits := hstream.leads.fits hlog
    have hdelta : (r.delta d).2 = .updated (contentHash d r.event.data) := by
      simp [OutboxRow.delta, htype, deltaOf]
    rw [hdelta] at hfits
    obtain ⟨hash, hold, hne⟩ := hfits
    rw [← hsubject]
    exact ⟨hash, hold, hne⟩
  · rw [hstream.leads.replay_eq]
    rfl

/-- Two cycles of the sample poller: `b` leaves the listing, `a` changes. -/
def sampleChanges : List (Scene Sample) :=
  [ .ask (instanceOf (sampleOf samplePoller) false) forced,
    .run 0 200 (calm 5 (onePage [("a", "1"), ("b", "1")])),
    .ask (instanceOf (sampleOf samplePoller) false) forced,
    .run 2 200 (calm 20 (onePage [("a", "2")])) ]

theorem samplePoller_strings : StringIdentities samplePoller := fun item => ⟨item.1, rfl⟩

set_option maxRecDepth 100000 in
theorem stream_reproduces_snapshot_sample : ∃ tr c,
    Run (system Sample) ((sampleOf samplePoller).entry EngineCall.Plain)
      (World.fresh (sampleOf samplePoller).key) tr c ∧
    eventTypes (committedRows tr) "a" = [.created, .updated] ∧
    eventTypes (committedRows tr) "b" = [.created, .deleted] ∧
    replayLog (fun _ => none) (changeLog (sampleOf samplePoller) tr) "a" =
      ((World.store (ι := Sample) c.world).items.get "a").map (·.hash) := by
  have hcast : Cast (sampleOf samplePoller) EngineCall.Plain sampleChanges :=
    .ask (instanceOf_in _ _) trivial (.run (.ask (instanceOf_in _ _) trivial (.run .nil)))
  obtain ⟨tr, c, hrun, hcheck⟩ := play_run hcast
    (fun tr _ => decide (eventTypes (committedRows tr) "a" = [.created, .updated] ∧
      eventTypes (committedRows tr) "b" = [.created, .deleted])) (by decide +kernel)
  obtain ⟨ha, hb⟩ := of_decide_eq_true hcheck
  exact ⟨tr, c, hrun, ha, hb, ((stream_reproduces_snapshot samplePoller_strings hrun).2 "a").2.2⟩

end Watukuy
