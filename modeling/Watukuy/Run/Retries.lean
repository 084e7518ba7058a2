import Watukuy.Run.Holds
import Watukuy.Run.Scenarios

/-!
# A retry while the outbox is drained

A drain asks for the rows and for the held keys in two calls, and a retry moves an event from the
parked table to the outbox. `held_events_go_first`: while every round asks for the held keys with all
earlier pending events of its keys at hand, an event that was parked is delivered or discarded before
any later event of its key is delivered, whatever operators retry meanwhile. A retry between the two
calls breaks it (`retry_between_calls`).
-/

set_option autoImplicit false

namespace Watukuy

open Library KeyRecord

variable {ι : Type}

/-! ## The history of a parked event -/

/-- The events a step parks. -/
def stepParked : Label (system ι) → List (WatukuyEvent ι)
  | .act _ (.store (.parkEvent _ q)) ch a => if tookEffect ch a then q.event.toList else []
  | _ => []

/-- The event is parked at the beginning, or the last step of `pre` parks it. -/
def ParkedAt (rec : KeyRecord ι) (pre : List (Label (system ι))) (e : WatukuyEvent ι) : Prop :=
  (pre = [] ∧ ∃ id q, rec.parked.get id = some q ∧ q.event = some e) ∨
    ∃ pre' l, pre = pre' ++ [l] ∧ e ∈ stepParked l

/-- The event was parked and has been neither delivered nor discarded since. -/
def Waits (rec : KeyRecord ι) (tr : List (Label (system ι))) (e : WatukuyEvent ι) : Prop :=
  ∃ pre post, tr = pre ++ post ∧ ParkedAt rec pre e ∧ e.id ∉ deliveredIds post ∧
    e.id ∉ discardedIds post

/-- An event that waits has just been parked, or it waited and this step does not end that. -/
theorem Waits.of_snoc {rec : KeyRecord ι} {tr : List (Label (system ι))} {l : Label (system ι)}
    {e : WatukuyEvent ι} (h : Waits rec (tr ++ [l]) e) :
    e ∈ stepParked l ∨ (Waits rec tr e ∧ e.id ∉ stepDelivered l ∧ e.id ∉ stepDiscarded l) := by
  obtain ⟨pre, post, heq, hparked, hdelivered, hdiscarded⟩ := h
  rcases List.eq_nil_or_concat post with rfl | ⟨post, l', rfl⟩
  · rw [List.append_nil] at heq
    rcases hparked with ⟨rfl, -⟩ | ⟨pre', l', rfl, hmem⟩
    · simp at heq
    · obtain ⟨-, hl⟩ := List.append_inj' heq rfl
      obtain rfl := List.singleton_inj.1 hl
      exact Or.inl hmem
  · rw [List.concat_eq_append] at heq hdelivered hdiscarded
    rw [← List.append_assoc] at heq
    obtain ⟨rfl, hl⟩ := List.append_inj' heq rfl
    obtain rfl := List.singleton_inj.1 hl
    rw [deliveredIds_append, List.mem_append, not_or] at hdelivered
    rw [discardedIds_append, List.mem_append, not_or] at hdiscarded
    exact Or.inr ⟨⟨pre, post, rfl, hparked, hdelivered.1, hdiscarded.1⟩, hdelivered.2, hdiscarded.2⟩

/-! ## Where it waits -/

/-- The event is parked, or pending, and no younger than it was. -/
def Located (rec : KeyRecord ι) (e : WatukuyEvent ι) : Prop :=
  (∃ q e', rec.parked.get e.id = some q ∧ q.event = some e' ∧ e'.sequence ≤ e.sequence) ∨
    (rec.parked.get e.id = none ∧ ∃ p, rec.outbox.get e.id = some p ∧ p.sequence ≤ e.sequence)

section Steps

variable {d : Deployment ι} {keyOf : String → String} {vs : List (ThreadView ι)} {w w' : World ι}
  {t : Nat} {o : Op ι} {ch : Choice ι} {a : Ans o} {v : ThreadView ι} {e : WatukuyEvent ι}

/-- An event that a step parks: the first row of a worker whose delivery failed. -/
theorem parked_event (h : Upheld d.poller keyOf vs w) (hhold : d.poller.delivery.poisonHoldKey = true)
    (hv : vs[t]? = some v) (hallow : v.allow d o) (hw : perform o ch w = some (a, w'))
    (he : e ∈ stepParked (.act t o ch a)) :
    orderingKey d.poller e = keyOf e.id ∧ Located w'.store e ∧
      ∃ x row rest, v = .worker x ∧ x.ended = false ∧ x.stage = .failed ∧ x.rest = row :: rest ∧
        e.id = row.eventId := by
  cases o with
  | store so =>
    cases so with
    | parkEvent l q =>
      simp only [stepParked] at he
      split at he
      · rename_i heffect
        obtain ⟨x, row, rest, rfl, hended, hstage, hrest, hid, hevent, -⟩ := parks_first hhold hallow
        have hrow := (h.hands t x hv hended (by simp [hrest])).lined.fits row (by simp [hrest])
        rw [hevent] at he
        obtain rfl : e = row.event := List.mem_singleton.1 he
        have hmoved := performStore_moved (by simp) (perform_store hw)
        rw [heffect] at hmoved
        have hstored : w'.store.parked.get row.event.id = some q := by
          generalize w'.store = rec' at hmoved ⊢
          cases hmoved with
          | still _ _ hidle => cases hidle trivial
          | park _ _ _ => rw [hrow.stamped.id, ← hid]; exact OrderedMap.get_set_self _ _ _
        refine ⟨by rw [hrow.key, hrow.stamped.id], Or.inl ⟨q, row.event, hstored, hevent, le_rfl⟩, ?_⟩
        exact ⟨x, row, rest, rfl, hended, hstage, hrest, hrow.stamped.id⟩
      · cases he
    | _ => cases he
  | _ => cases he

/-- An event that waits stays parked or pending, and no younger. -/
theorem Located.step (hloc : Located w.store e) (h : Upheld d.poller keyOf vs w)
    (hcalls : DrainOrOperator o) (hhold : d.poller.delivery.poisonHoldKey = true)
    (hv : vs[t]? = some v) (hallow : v.allow d o) (hw : perform o ch w = some (a, w'))
    (hack : ∀ l ids, o = .store (.ackEvents l ids) → e.id ∉ ids)
    (hdiscard : e.id ∉ stepDiscarded (.act t o ch a)) : Located w'.store e := by
  have hsame : w'.store.outbox.get e.id = w.store.outbox.get e.id →
      w'.store.parked.get e.id = w.store.parked.get e.id → Located w'.store e := by
    intro hout hparked
    unfold Located
    rw [hout, hparked]
    exact hloc
  cases o with
  | store so =>
    have hmoved := performStore_moved (fun heq => hcalls.no_delete (congrArg Op.store heq))
      (perform_store hw)
    generalize heffect : tookEffect ch a = took at hmoved
    generalize w'.store = rec' at hmoved hsame ⊢
    cases hmoved with
    | still hout hparked _ => exact hsame (by rw [hout]) (by rw [hparked])
    | commit l b _ => exact hcalls.elim
    | ack l ids _ =>
      refine hsame ?_ rfl
      rw [KeyRecord.ack, OrderedMap.get_eraseAll, if_neg (hack l ids rfl)]
    | record l id error next _ =>
      unfold KeyRecord.noteAttempt
      split
      · exact hloc
      · rename_i row hrow
        -- the row of the id is replaced by one of the same sequence
        rcases hloc with ⟨q, e', hget, hrest⟩ | ⟨hnone, p, hget, hle⟩
        · exact Or.inl ⟨q, e', hget, hrest⟩
        · refine Or.inr ⟨hnone, ?_⟩
          simp only [OrderedMap.get_set]
          by_cases hid : e.id = id
          · rw [hid] at hget ⊢
            rw [hrow] at hget
            obtain rfl := Option.some.inj hget
            exact ⟨_, if_pos rfl, hle⟩
          · exact ⟨p, by rw [if_neg hid, hget], hle⟩
    | park l q _ =>
      obtain ⟨x, row, rest, rfl, hended, -, hrest, hid, hevent, -⟩ := parks_first hhold hallow
      have hhand := h.hands t x hv hended (by simp [hrest])
      have hrow := hhand.lined.fits row (by simp [hrest])
      by_cases hsameId : e.id = q.id
      · -- the event itself is parked again: its row is not younger than what the store has
        refine Or.inl ⟨q, row.event, ?_, hevent, ?_⟩
        · rw [hsameId]
          exact OrderedMap.get_set_self _ _ _
        · rw [hrow.sequence]
          have hrowId : row.eventId = e.id := by rw [hsameId, hid]
          rcases hloc with ⟨q', e', hget, hevent', hle⟩ | ⟨-, p, hget, hle⟩
          · refine Nat.le_trans ?_ hle
            obtain ⟨hhold', hevents⟩ := h.tidy.parked e.id q' hget
            have hid' := (h.tidy.filed.parked e.id q' hget).2 e' hevent'
            have hkey : q'.holdKey = some x.key := by
              rw [hhold', hevent', Option.map_some, (hevents e' hevent').2, hid', ← hrowId,
                ← hrow.key, hhand.lined.keyed row (by simp [hrest])]
            obtain ⟨first, hfirst, -, e₁, he₁, hseq⟩ := hhand.own e.id q' hget hkey
            rw [hrest] at hfirst
            obtain rfl := Option.some.inj hfirst
            rw [hevent'] at he₁
            obtain rfl := Option.some.inj he₁
            exact hseq.ge
          · refine Nat.le_trans ?_ hle
            rw [← hrowId] at hget
            exact hhand.lined.behind row (by simp [hrest]) p hget
      · refine hsame ?_ ?_
        · unfold KeyRecord.park
          simp only
          split
          · rename_i event heq
            rw [hevent] at heq
            obtain rfl := Option.some.inj heq
            have hne : e.id ≠ row.event.id := by rwa [hrow.stamped.id, ← hid]
            rw [OrderedMap.get_erase, if_neg hne]
          · rfl
        · simp only [KeyRecord.park, OrderedMap.get_set, if_neg hsameId]
    | retry ids =>
      rcases retryParked_cases h.tidy.filed ids e.id with ⟨hparked, hout⟩ | ⟨q, event, hq, hevent, hnone, hout⟩
      · exact hsame hout hparked
      · rcases hloc with ⟨q', e', hget, hevent', hle⟩ | ⟨hnotParked, -⟩
        · rw [hq] at hget
          obtain rfl := Option.some.inj hget
          rw [hevent] at hevent'
          obtain rfl := Option.some.inj hevent'
          exact Or.inr ⟨hnone, _, hout, hle⟩
        · rw [hq] at hnotParked
          cases hnotParked
    | discard ids =>
      rw [show stepDiscarded (.act t (.store (.discardParked ids)) ch a) = ids from if_pos heffect]
        at hdiscard
      refine hsame rfl ?_
      rw [KeyRecord.discardParked, OrderedMap.get_eraseAll, if_neg hdiscard]
  | _ =>
    rw [perform_other (fun so => by simp) hw]
    exact hloc

/-- What is known of the events that wait. -/
structure Biding (d : Deployment ι) (keyOf : String → String) (rec : KeyRecord ι)
    (tr : List (Label (system ι))) (vs : List (ThreadView ι)) (w : World ι) : Prop where
  located : ∀ e, Waits rec tr e → orderingKey d.poller e = keyOf e.id ∧ Located w.store e
  /-- A row that is about to be acknowledged is not one of them. -/
  unacked : ∀ (t : Nat) x, vs[t]? = some (.worker x) → x.ended = false → x.stage = .delivered →
    ∀ row ∈ x.rest.head?, ∀ e, Waits rec tr e → e.id ≠ row.eventId

variable {rec : KeyRecord ι} {tr : List (Label (system ι))}

/-- An acknowledgement is not about an event that waits. -/
theorem Biding.not_acked (hb : Biding d keyOf rec tr vs w) (hv : vs[t]? = some v)
    {l : Lease} {ids : List String} (hallow : v.allow d (.store (.ackEvents l ids)))
    (he : Waits rec tr e) : e.id ∉ ids := by
  cases v with
  | worker x =>
    obtain ⟨hended, -, hstage, row, rest, hrest, rfl⟩ := hallow
    intro hmem
    exact hb.unacked t x hv hended hstage row (by simp [hrest]) e he (List.mem_singleton.1 hmem)
  | main m => exact hallow.elim
  | keeper l => exact hallow.elim

theorem Biding.act (hb : Biding d keyOf rec tr vs w) (h : Upheld d.poller keyOf vs w)
    (hcalls : DrainOrOperator o) (hhold : d.poller.delivery.poisonHoldKey = true)
    (hv : vs[t]? = some v) (hallow : v.allow d o) (hw : perform o ch w = some (a, w')) :
    Biding d keyOf rec (tr ++ [.act t o ch a]) ((deliveries d).step vs (.act t o ch a)) w' := by
  constructor
  · intro e he
    -- the event was parked by this step, or it waits on
    rcases he.of_snoc with hnew | ⟨hold, -, hdiscarded⟩
    · obtain ⟨hkey, hloc, -⟩ := parked_event h hhold hv hallow hw hnew
      exact ⟨hkey, hloc⟩
    · obtain ⟨hkey, hloc⟩ := hb.located e hold
      refine ⟨hkey, hloc.step h hcalls hhold hv hallow hw ?_ hdiscarded⟩
      rintro l ids rfl
      exact hb.not_acked hv hallow hold
  · intro u x hx hended hstage row hrow e he hid
    rcases step_act_cases hx with ⟨v₀, rfl, hv₀, heq⟩ | ⟨hne, hold⟩ | ⟨-, heq, -⟩
    · obtain rfl : v₀ = v := Option.some.inj (hv₀.symm.trans hv)
      cases v₀ with
      | worker x₀ =>
        obtain rfl : x = x₀.learn d o a := ThreadView.worker.inj heq
        have hlive : x₀.ended = false := by
          rcases (x₀.learn_drain (d := d) o a).2 with hsame | ⟨htrue, -⟩
          · rw [← hsame, hended]
          · rw [htrue] at hended
            cases hended
        -- its row was delivered before this step, or by it
        rcases learn_delivered hstage with ⟨hbefore, hrest⟩ | ⟨hrest, e', rfl, hdelivered⟩
        · rcases he.of_snoc with hnew | ⟨hwait, -, -⟩
          · obtain ⟨-, -, y, -, -, hy, -, hfailed, -⟩ := parked_event h hhold hv hallow hw hnew
            obtain rfl := ThreadView.worker.inj hy
            rw [hbefore] at hfailed
            cases hfailed
          · rw [hrest] at hrow
            exact hb.unacked u x₀ hv hlive hbefore row hrow e hwait hid
        · -- the row has just been delivered
          obtain ⟨-, -, row', rest, hrest', rfl⟩ := hallow
          rw [hrest, hrest', List.head?_cons, Option.mem_some_iff] at hrow
          subst hrow
          have hrow := (h.hands u x₀ hv hlive (by simp [hrest'])).lined.fits row' (by simp [hrest'])
          rcases he.of_snoc with hnew | ⟨-, hfresh, -⟩
          · cases hnew
          · refine hfresh ?_
            rw [hid, ← hrow.stamped.id]
            exact hdelivered u ch
      | main m => cases heq
      | keeper l => cases heq
    · rcases he.of_snoc with hnew | ⟨hwait, -, -⟩
      · -- another worker parks the first row of a group of another key
        obtain ⟨-, -, y, first, rest, rfl, hended', -, hrest, hid'⟩ :=
          parked_event h hhold hv hallow hw hnew
        have hne' : x.rest ≠ [] := by
          rintro hnil
          rw [hnil] at hrow
          cases hrow
        have hmine := (h.hands u x hold hended hne').lined
        have hother := (h.hands t y hv hended' (by simp [hrest])).lined
        have hmem := List.mem_of_mem_head? hrow
        have hfirst : first ∈ y.rest := by simp [hrest]
        refine hne (h.apart.apart u t x y hold hv hended hended' hne' (by simp [hrest]) ?_)
        rw [← hmine.keyed row hmem, ← hother.keyed first hfirst, (hmine.fits row hmem).key,
          (hother.fits first hfirst).key, ← hid, hid']
      · exact hb.unacked u x hold hended hstage row hrow e hwait hid
    · cases o <;> simp only [deliveries, forkView, reduceCtorEq] at heq
      obtain rfl := ThreadView.worker.inj heq
      cases hstage

theorem Biding.quiet (hb : Biding d keyOf rec tr vs w) {l : Label (system ι)}
    {vs' : List (ThreadView ι)} (hstore : w'.store = w.store)
    (hviews : ∀ (u : Nat) x, vs'[u]? = some (.worker x) → vs[u]? = some (.worker x))
    (hpark : stepParked l = []) : Biding d keyOf rec (tr ++ [l]) vs' w' := by
  have hwaits : ∀ e, Waits rec (tr ++ [l]) e → Waits rec tr e := by
    intro e he
    rcases he.of_snoc with hnew | ⟨hwait, -⟩
    · rw [hpark] at hnew
      cases hnew
    · exact hwait
  constructor
  · intro e he
    rw [hstore]
    exact hb.located e (hwaits e he)
  · intro u x hx hended hstage row hrow e he
    exact hb.unacked u x (hviews u x hx) hended hstage row hrow e (hwaits e he)

/-- No later event of a key is delivered while an event of the key waits. -/
theorem Biding.goes_first (hb : Biding d keyOf rec tr vs w) (h : Upheld d.poller keyOf vs w)
    (hv : vs[t]? = some v) {e₂ : WatukuyEvent ι} (hallow : v.allow d (.deliver e₂))
    (he : Waits rec tr e) (hkey : orderingKey d.poller e = orderingKey d.poller { e₂ with attempt := 0 }) :
    ¬e.sequence < e₂.sequence := by
  intro hlt
  cases v with
  | worker x =>
    obtain ⟨hended, hstage, row, rest, hrest, rfl⟩ := hallow
    have hne : x.rest ≠ [] := by simp [hrest]
    have hmem : row ∈ x.rest := by simp [hrest]
    have hhand := h.hands t x hv hended hne
    have hrow := hhand.lined.fits row hmem
    obtain ⟨hekey, hloc⟩ := hb.located e he
    have hevent : ({ row.event with attempt := 0 } : WatukuyEvent ι) = row.event := by
      rw [← hrow.attempt]
    have hxkey : keyOf e.id = x.key := by
      rw [← hekey, hkey, ← hhand.lined.keyed row hmem]
      exact congrArg _ hevent
    have hseq : e.sequence < row.sequence := by
      rw [← hrow.sequence]
      exact hlt
    rcases hloc with ⟨q, e', hget, hevent', -⟩ | ⟨-, p, hget, hle⟩
    · -- it is parked, and holds the key
      refine hhand.clean (by rw [hstage]; rfl) e.id q hget ?_
      obtain ⟨hhold', hevents⟩ := h.tidy.parked e.id q hget
      rw [hhold', hevent', Option.map_some, (hevents e' hevent').2,
        (h.tidy.filed.parked e.id q hget).2 e' hevent', hxkey]
    · -- it is pending: then the worker has it in hand, before the row it delivers
      obtain ⟨row', hrow', hid⟩ :=
        List.mem_map.1 (hhand.lined.closed row hmem e.id p hget hxkey (by omega))
      have hbehind := hhand.lined.behind row' hrow' p (by rw [hid]; exact hget)
      have hsorted := hhand.lined.sorted
      rw [hrest] at hrow' hsorted
      rcases List.mem_cons.1 hrow' with rfl | hrow'
      · omega
      · have hle' := (List.pairwise_cons.1 hsorted).1 row' hrow'
        omega
  | main m => exact hallow.elim
  | keeper l => exact hallow.elim

end Steps

/-! ## Drains -/

/-- The rows of the last load of a thread. -/
def loads : Contract (Op ι) Ans where
  View := List (OutboxRow ι)
  allow _ _ := True
  learn rows
    | .store (.loadPending _), a =>
      match a with
      | .ok rows' => rows'
      | .error _ => rows
    | _, _ => rows

def lastLoad (t : Nat) (tr : List (Label (system ι))) : List (OutboxRow ι) := loads.observe [] t tr

/-- The step begins a drain. -/
def beginsDrain : Label (system ι) → Bool
  | .act _ .newDrain _ _ => true
  | _ => false

/-- The number of drains so far. -/
def drainsStarted (tr : List (Label (system ι))) : Nat := tr.countP beginsDrain

/-- A store as runs leave it when parked events hold their keys. -/
structure KeyRecord.Shaped (poller : ResolvedPoller ι) (rec : KeyRecord ι) : Prop where
  filed : rec.Filed
  outbox : ∀ id row, rec.outbox.get id = some row →
    row.event.sequence = row.sequence ∧ row.event.attempt = 0
  parked : ∀ id q, rec.parked.get id = some q →
    q.holdKey = q.event.map (orderingKey poller) ∧ ∀ e ∈ q.event, e.attempt = 0

/-- No event is pending under one ordering key and parked under another. -/
def KeyRecord.OneKey (poller : ResolvedPoller ι) (rec : KeyRecord ι) : Prop :=
  ∀ id row q e, rec.outbox.get id = some row → rec.parked.get id = some q → q.event = some e →
    orderingKey poller row.event = orderingKey poller e

/-- The thread that asks for the held keys. -/
def keysAsked : Label (system ι) → Option Nat
  | .act t (.store .heldKeys) _ _ => some t
  | _ => none

/-- The held keys are asked for with the rows up to date. -/
def Timely (poller : ResolvedPoller ι) (w : World ι) (pre : List (Label (system ι)))
    (l : Label (system ι)) : Prop :=
  ∀ t ∈ keysAsked l, UpToDate poller (World.store ((system ι).after w pre))
    (World.drain ((system ι).after w pre) 0).blocked (lastLoad t pre)

instance (poller : ResolvedPoller ι) (rec : KeyRecord ι) (blocked : List String)
    (rows : List (OutboxRow ι)) : Decidable (UpToDate poller rec blocked rows) := by
  unfold UpToDate
  infer_instance

instance (poller : ResolvedPoller ι) (w : World ι) (pre : List (Label (system ι)))
    (l : Label (system ι)) : Decidable (Timely poller w pre l) := by
  unfold Timely
  infer_instance

section Runs

variable {d : Deployment ι} {lease : Lease} {run : Nat} {w : World ι} {tr : List (Label (system ι))}
  {c : Config (system ι)}

/-- The ordering key of an id: that of its pending event, or of its parked one. -/
def KeyRecord.keyOf (poller : ResolvedPoller ι) (rec : KeyRecord ι) (id : String) : String :=
  match rec.outbox.get id with
  | some row => orderingKey poller row.event
  | none =>
    match (rec.parked.get id).bind (·.event) with
    | some e => orderingKey poller e
    | none => ""

theorem KeyRecord.Shaped.tidy {poller : ResolvedPoller ι} {rec : KeyRecord ι} (h : rec.Shaped poller)
    (hkeys : rec.OneKey poller) : Tidy poller (rec.keyOf poller) rec := by
  refine ⟨h.filed, ?_, ?_⟩
  · intro id row hget
    obtain ⟨hid, hstamped⟩ := h.filed.outbox id row hget
    obtain ⟨hseq, hattempt⟩ := h.outbox id row hget
    refine ⟨hstamped, hseq, hattempt, ?_⟩
    simp [KeyRecord.keyOf, hid, hget]
  · intro id q hget
    obtain ⟨hhold, hattempts⟩ := h.parked id q hget
    refine ⟨hhold, ?_⟩
    intro e he
    refine ⟨hattempts e he, ?_⟩
    have hid := (h.filed.parked id q hget).2 e he
    rw [hid]
    unfold KeyRecord.keyOf
    cases hout : rec.outbox.get id with
    | some row => exact (hkeys id row q e hout hget he).symm
    | none =>
      have hevent : q.event = some e := he
      simp [hget, hevent]

theorem drainsStarted_append (tr : List (Label (system ι))) (l : Label (system ι)) :
    drainsStarted (tr ++ [l]) = drainsStarted tr + if beginsDrain l then 1 else 0 := by
  simp [drainsStarted, List.countP_append, List.countP_cons]

/-- The drains of the world are those that were started. -/
theorem length_drains {w w' : World ι} {t : Nat} {o : Op ι} {ch : Choice ι} {a : Ans o}
    (hw : perform o ch w = some (a, w')) :
    w'.drains.length = w.drains.length + if beginsDrain (.act t o ch a) then 1 else 0 := by
  by_cases ho : o.Within
  · rw [drains_within ho hw]
    cases o <;> first | rfl | exact ho.elim
  · cases o with
    | newDrain =>
      cases ch <;> simp only [perform, Option.some.injEq, Prod.mk.injEq, reduceCtorEq] at hw
      rw [← hw.2, List.length_append]
      rfl
    | startRound deps l run i groups =>
      cases ch <;> simp only [perform, Option.some.injEq, Prod.mk.injEq, reduceCtorEq] at hw
      rw [← hw.2, length_setDrain]
      rfl
    | _ => exact absurd trivial ho

/-- What a main thread has loaded is what its last load answered. -/
theorem rows_lastLoad {vs : List (ThreadView ι)} {t : Nat} {o : Op ι} {ch : Choice ι} {a : Ans o}
    (h : ∀ (u : Nat) m rows, vs[u]? = some (.main m) → m.rows = some rows → lastLoad u tr = rows)
    {u : Nat} {m : MainView ι} {rows : List (OutboxRow ι)}
    (hm : ((deliveries d).step vs (.act t o ch a))[u]? = some (.main m)) (hrows : m.rows = some rows) :
    lastLoad u (tr ++ [.act t o ch a]) = rows := by
  rcases step_act_cases hm with ⟨v₀, rfl, hv₀, heq⟩ | ⟨hne, hold⟩ | ⟨-, heq, -⟩
  · cases v₀ with
    | main m₀ =>
      obtain rfl : m = m₀.learn o a := ThreadView.main.inj heq
      have hlast : lastLoad u (tr ++ [.act u o ch a]) = loads.learn (lastLoad u tr) o a :=
        observe_act_self u tr o ch a
      rw [hlast]
      cases o with
      | store so =>
        cases so with
        | loadPending limit =>
          cases a with
          | ok rows' => exact Option.some.inj hrows
          | error e => exact h u m₀ rows hv₀ hrows
        | heldKeys => cases a <;> exact h u m₀ rows hv₀ hrows
        | acquireLease owner ttlMs now =>
          cases a with
          | ok got => cases got <;> exact h u m₀ rows hv₀ hrows
          | error e => exact h u m₀ rows hv₀ hrows
        | _ => exact h u m₀ rows hv₀ hrows
      | newDrain => cases hrows
      | startRound deps l run i groups => cases hrows
      | joinRound i => cases a <;> exact h u m₀ rows hv₀ hrows
      | _ => exact h u m₀ rows hv₀ hrows
    | worker x => cases heq
    | keeper l => cases heq
  · have hlast : lastLoad u (tr ++ [.act t o ch a]) = lastLoad u tr := observe_act_ne hne.symm tr o ch a
    rw [hlast]
    exact h u m rows hold hrows
  · cases o <;> simp only [deliveries, forkView, reduceCtorEq] at heq
    all_goals
      obtain rfl := ThreadView.main.inj heq
      cases hrows

/-- In every run, with at most one drain and every round timely. -/
structure OnHold (d : Deployment ι) (rec : KeyRecord ι) (tr : List (Label (system ι)))
    (vs : List (ThreadView ι)) (w : World ι) : Prop where
  upheld : Upheld d.poller (rec.keyOf d.poller) vs w
  biding : Biding d (rec.keyOf d.poller) rec tr vs w
  loaded : ∀ (t : Nat) m rows, vs[t]? = some (.main m) → m.rows = some rows → lastLoad t tr = rows
  started : w.drains.length = drainsStarted tr

theorem onHold (hhold : d.poller.delivery.poisonHoldKey = true) (hrec : w.store.Shaped d.poller)
    (hkeys : w.store.OneKey d.poller) (hw : w.drains = [])
    (h : Run (system ι) (d.drainEntry lease run) w tr c) (hone : drainsStarted tr ≤ 1)
    (htimely : Throughout (Timely d.poller w) tr) :
    OnHold d w.store tr ((drainRoles d lease).views tr) c.world := by
  -- one drain in the whole run, so one in each beginning of it
  have hsteps : Throughout (fun pre l => drainsStarted (pre ++ [l]) ≤ 1 ∧ Timely d.poller w pre l)
      tr := by
    rintro pre l post rfl
    refine ⟨?_, htimely pre l post rfl⟩
    rw [List.append_cons, drainsStarted, List.countP_append] at hone
    exact Nat.le_trans (Nat.le_add_right _ _) hone
  refine Run.roles (drainRolesObeyed d lease run) (J := OnHold d w.store) ?_ ?_ ?_ ?_ h hsteps
  · refine ⟨upheld_init hw (hrec.tidy hkeys), ⟨?_, ?_⟩, ?_, ?_⟩
    · rintro e ⟨pre, post, heq, hparked, -, -⟩
      obtain ⟨rfl, -⟩ := List.append_eq_nil_iff.1 heq.symm
      rcases hparked with ⟨-, id, q, hget, hevent⟩ | ⟨pre', l, hnil, -⟩
      · have hid := (hrec.filed.parked id q hget).2 e hevent
        refine ⟨((hrec.tidy hkeys).parked id q hget).2 e hevent |>.2, Or.inl ⟨q, e, ?_, hevent, le_rfl⟩⟩
        rw [hid]
        exact hget
      · simp at hnil
    · intro t x hx
      simp at hx
    · intro t m rows hm
      simp at hm
    · simp [hw, drainsStarted]
  · intro tr c q _ _ hJ
    refine ⟨hJ.upheld.start lease q, hJ.biding.quiet rfl (fun u x hx => start_worker hx) rfl, ?_, ?_⟩
    · intro u m rows hm hrows
      have hlast : lastLoad u (tr ++ [.start q]) = lastLoad u tr := observe_start u tr q
      rw [hlast]
      rcases step_start_cases hm with hold | ⟨-, heq⟩
      · exact hJ.loaded u m rows hold hrows
      · obtain rfl := ThreadView.main.inj heq
        cases hrows
    · rw [drainsStarted_append]
      exact hJ.started
  · intro tr c t o k ch a w' v hr hJ ht hv hallow hw ⟨hfew, hstep⟩
    have hcalls : DrainOrOperator o := hr.allow (drainCallsObeyed d lease run) ht
    have hlength := length_drains (t := t) hw
    have hstarted : w'.drains.length = drainsStarted (tr ++ [.act t o ch a]) := by
      rw [drainsStarted_append, ← hJ.started]
      exact hlength
    refine ⟨hJ.upheld.act hcalls hhold hv hallow ?_ hw (hstarted ▸ hfew),
      hJ.biding.act hJ.upheld hcalls hhold hv hallow hw, ?_, hstarted⟩
    · rintro m rows rfl rfl hrows
      rw [← hJ.loaded t m rows hv hrows, hr.world_eq]
      exact hstep t rfl
    · exact fun u m rows hm hrows => rows_lastLoad (d := d) hJ.loaded hm hrows
  · intro tr c x _ hJ
    refine ⟨?_, hJ.biding.quiet rfl (fun u x hx => hx) rfl, ?_, ?_⟩
    · exact hJ.upheld.withRuns _
    · intro u m rows hm hrows
      have hlast : lastLoad u (tr ++ [.drift x]) = lastLoad u tr := observe_drift u tr x
      rw [hlast]
      exact hJ.loaded u m rows hm hrows
    · rw [drainsStarted_append]
      exact hJ.started

/-- From every store that runs leave behind, in every run of one drain of the outbox, its workers and
operators who retry and discard parked events, in which every round asks for the held keys with the
rows up to date: from the time an event is parked until it has been delivered or discarded, no event of
its ordering key with a larger sequence is given to the handler. -/
theorem held_events_go_first (hhold : d.poller.delivery.poisonHoldKey = true)
    (hrec : w.store.Shaped d.poller) (hkeys : w.store.OneKey d.poller) (hw : w.drains = [])
    (h : Run (system ι) (d.drainEntry lease run) w tr c) (hone : drainsStarted tr ≤ 1)
    (htimely : Throughout (Timely d.poller w) tr) :
    ∀ pre t e₂ ch a post, tr = pre ++ .act t (.deliver e₂) ch a :: post →
      ∀ e₁, Waits w.store pre e₁ →
        orderingKey d.poller e₁ = orderingKey d.poller { e₂ with attempt := 0 } →
        ¬e₁.sequence < e₂.sequence := by
  rintro pre t e₂ ch a post rfl e₁ hwaits hkey
  obtain ⟨c₁, k, w', hpre, ht, -⟩ := h.act_at
  have hone' : drainsStarted pre ≤ 1 := by
    rw [drainsStarted, List.countP_append] at hone
    exact Nat.le_trans (Nat.le_add_right _ _) hone
  have hJ := onHold hhold hrec hkeys hw hpre hone' htimely.take
  obtain ⟨v, hv, hallow⟩ := hpre.mayCall (drainRolesObeyed d lease run) ht
  exact hJ.biding.goes_first hJ.upheld hv hallow hwaits hkey

end Runs

/-! ## A retry between the two calls -/

/-- The lease of the sample drains. -/
def drainLease : Lease := { owner := "a", epoch := 1, expiresAt := 100 }

/-- An event of the sample poller about the item `s`. -/
def sampleEvent (id : String) (sequence : Nat) : WatukuyEvent Sample where
  id := id
  type := .updated
  source := samplePoller.source
  subject := "s"
  time := 0
  poller := samplePoller.name
  partition := ""
  lane := .live
  sequence := sequence
  cursor := .null
  data := none
  previous := none
  attempt := 0

/-- The first event of an item is parked and the second one is pending. -/
def heldStore : KeyRecord Sample :=
  let first := poisonRow samplePoller (orderingKey samplePoller (sampleEvent "1" 1))
    (retriedRow (sampleEvent "1" 1) 0)
    { name := "Error", message := "refused", code := none, status := none } 0 0
  { KeyRecord.fresh (sampleOf samplePoller).key with
    lease := some drainLease
    epochCounter := 1
    outbox := OrderedMap.empty.set "2" (retriedRow (sampleEvent "2" 2) 0)
    parked := OrderedMap.empty.set "1" first }

/-- Nothing has been started. -/
def heldWorld : World Sample := { store := heldStore }

/-- The first event is retried after `n` calls of a drain. -/
def retriedAfter (n m : Nat) : List (Directive (system Sample)) :=
  let deps := instanceOf (sampleOf samplePoller) true
  [ .start (drainOutbox deps drainLease 0).forget,
    .run 0 n (calm 5 .finish),
    .start ((EngineCall.parkedRetry ["1"]).prog deps),
    .run 1 1 (calm 5 .finish),
    .run 0 m (calm 5 .finish),
    .run 2 30 (calm 5 .finish) ]

theorem retriedAfter_entry (n m : Nat) : ∀ p, .start p ∈ retriedAfter n m →
    (sampleOf samplePoller).drainEntry drainLease 0 p := by
  intro p hp
  refine ⟨instanceOf (sampleOf samplePoller) true, instanceOf_in _ _, ?_⟩
  simp only [retriedAfter, List.mem_cons, Directive.start.injEq, reduceCtorEq, List.not_mem_nil,
    false_or, or_false] at hp
  rcases hp with rfl | rfl
  · exact Or.inl rfl
  · exact Or.inr ⟨["1"], Or.inl rfl⟩

theorem heldStore_outbox {id : String} {row : OutboxRow Sample}
    (h : heldStore.outbox.get id = some row) : id = "2" ∧ row = retriedRow (sampleEvent "2" 2) 0 := by
  simp only [heldStore, OrderedMap.get_set, OrderedMap.get_empty] at h
  split at h
  · rename_i hid
    exact ⟨hid, (Option.some.inj h).symm⟩
  · cases h

theorem heldStore_parked {id : String} {q : ParkedRow Sample} (h : heldStore.parked.get id = some q) :
    id = "1" ∧ q.id = "1" ∧ q.event = some (sampleEvent "1" 1) ∧
      q.holdKey = some (orderingKey samplePoller (sampleEvent "1" 1)) := by
  simp only [heldStore, OrderedMap.get_set, OrderedMap.get_empty] at h
  split at h
  · rename_i hid
    obtain rfl := Option.some.inj h
    exact ⟨hid, rfl, rfl, rfl⟩
  · cases h

theorem heldStore_shaped : heldStore.Shaped samplePoller := by
  refine ⟨⟨?_, ?_⟩, ?_, ?_⟩
  · intro id row hget
    obtain ⟨rfl, rfl⟩ := heldStore_outbox hget
    exact ⟨rfl, rfl, rfl⟩
  · intro id q hget
    obtain ⟨rfl, hid, hevent, -⟩ := heldStore_parked hget
    refine ⟨hid, ?_⟩
    intro e he
    rw [hevent] at he
    obtain rfl := Option.some.inj he
    rfl
  · intro id row hget
    obtain ⟨rfl, rfl⟩ := heldStore_outbox hget
    exact ⟨rfl, rfl⟩
  · intro id q hget
    obtain ⟨rfl, -, hevent, hhold⟩ := heldStore_parked hget
    rw [hevent, hhold]
    refine ⟨rfl, ?_⟩
    intro e he
    obtain rfl := Option.some.inj he
    rfl

theorem heldStore_oneKey : heldStore.OneKey samplePoller := by
  intro id row q e hrow hq he
  obtain ⟨rfl, -⟩ := heldStore_outbox hrow
  obtain ⟨hid, -⟩ := heldStore_parked hq
  simp at hid

/-- The event of a delivery that succeeds. -/
def deliveredEvent : Label (system ι) → Option (WatukuyEvent ι)
  | .act _ (.deliver e) _ a =>
    match a with
    | .ok _ => some e
    | .error _ => none
  | _ => none

theorem deliveredEvent_eq {l : Label (system ι)} {e : WatukuyEvent ι} (h : deliveredEvent l = some e) :
    ∃ t ch, l = .act t (.deliver e) ch (.ok ()) := by
  cases l with
  | act t o ch a =>
    cases o with
    | deliver e' =>
      cases a with
      | ok u =>
        obtain rfl := Option.some.inj h
        exact ⟨t, ch, rfl⟩
      | error err => cases h
    | _ => cases h
  | _ => cases h

/-- The event of the sample that is parked waits until it is delivered. -/
theorem held_waits {pre : List (Label (system Sample))} (hdelivered : deliveredIds pre = [])
    (hdiscarded : discardedIds pre = []) : Waits heldStore pre (sampleEvent "1" 1) := by
  refine ⟨[], pre, rfl, Or.inl ⟨rfl, "1", _, rfl, rfl⟩, ?_, ?_⟩
  · rw [hdelivered]
    exact List.not_mem_nil
  · rw [hdiscarded]
    exact List.not_mem_nil

set_option maxRecDepth 100000 in
/-- The drain loads the second event, an operator retries the first one, and then the drain asks for
the held keys: the second event is delivered while the first one is pending again. -/
theorem retry_between_calls : ∃ tr c,
    Run (system Sample) ((sampleOf samplePoller).drainEntry drainLease 0) heldWorld tr c ∧
    heldStore.Shaped samplePoller ∧ heldStore.OneKey samplePoller ∧ drainsStarted tr = 1 ∧
    ∃ pre t e₂ ch post, tr = pre ++ .act t (.deliver e₂) ch (.ok ()) :: post ∧
      Waits heldStore pre (sampleEvent "1" 1) ∧
      orderingKey samplePoller (sampleEvent "1" 1) =
        orderingKey samplePoller { e₂ with attempt := 0 } ∧
      (sampleEvent "1" 1).sequence < e₂.sequence := by
  obtain ⟨tr, c, hrun, hcheck⟩ := exec_run (w := heldWorld) (retriedAfter_entry 4 3)
    (fun tr _ => decide (drainsStarted tr = 1 ∧ ∃ l ∈ tr[16]?, deliveredIds (tr.take 16) = [] ∧
      discardedIds (tr.take 16) = [] ∧ ∃ e ∈ deliveredEvent l, e.sequence = 2 ∧
        orderingKey samplePoller (sampleEvent "1" 1) =
          orderingKey samplePoller { e with attempt := 0 })) (by decide +kernel)
  obtain ⟨hone, l, hl, hdelivered, hdiscarded, e, he, hseq, hkey⟩ := of_decide_eq_true hcheck
  obtain ⟨t, ch, rfl⟩ := deliveredEvent_eq he
  obtain ⟨hlt, hat⟩ := List.getElem?_eq_some_iff.1 hl
  refine ⟨tr, c, hrun, heldStore_shaped, heldStore_oneKey, hone, tr.take 16, t, e, ch, tr.drop 17,
    ?_, held_waits hdelivered hdiscarded, hkey, ?_⟩
  · rw [← hat, List.getElem_cons_drop, List.take_append_drop]
  · rw [hseq]
    exact Nat.one_lt_two

set_option maxRecDepth 100000 in
/-- Here the retry comes before the load, and the events are delivered in order. -/
theorem held_events_go_first_sample : ∃ tr c,
    Run (system Sample) ((sampleOf samplePoller).drainEntry drainLease 0) heldWorld tr c ∧
    deliveredIds tr = ["1", "2"] ∧
    ∀ pre t e₂ ch a post, tr = pre ++ .act t (.deliver e₂) ch a :: post →
      ∀ e₁, Waits heldWorld.store pre e₁ →
        orderingKey samplePoller e₁ = orderingKey samplePoller { e₂ with attempt := 0 } →
        ¬e₁.sequence < e₂.sequence := by
  obtain ⟨tr, c, hrun, hcheck⟩ := exec_run (w := heldWorld) (retriedAfter_entry 3 4)
    (fun tr _ => decide (deliveredIds tr = ["1", "2"] ∧ drainsStarted tr ≤ 1 ∧
      Throughout (Timely samplePoller heldWorld) tr)) (by decide +kernel)
  obtain ⟨hdelivered, hone, htimely⟩ := of_decide_eq_true hcheck
  exact ⟨tr, c, hrun, hdelivered,
    held_events_go_first rfl heldStore_shaped heldStore_oneKey rfl hrun hone htimely⟩

end Watukuy
