import Watukuy.Run.Outbox

/-!
# Events are conserved

A round hands out the rows of a load in groups of one ordering key (`groupByOrderingKey_mem`), and a
worker takes the rows of a group one after the other. So the rows in the hands of the threads are
rows that were loaded (`Handled`). `events_conserved`: whatever fails, an event that was committed is
pending, parked, delivered or discarded, and an event leaves the outbox by an acknowledgement after a
delivery, or for the parked table.
-/

set_option autoImplicit false

namespace Watukuy

open Library KeyRecord

variable {ι : Type}

/-! ## Groups -/

/-- The groups of the rows so far. -/
structure Grouped (poller : ResolvedPoller ι) (rows : List (OutboxRow ι)) (groups : List (Group ι)) :
    Prop where
  rows_eq : ∀ g ∈ groups, g.rows = rows.filter fun r => orderingKey poller r.event = g.key
  keys : (groups.map (·.key)).Nodup
  cover : ∀ r ∈ rows, orderingKey poller r.event ∈ groups.map (·.key)

theorem keys_addToGroup (key : String) (row : OutboxRow ι) (groups : List (Group ι)) :
    (addToGroup key row groups).map (·.key) =
      if key ∈ groups.map (·.key) then groups.map (·.key) else groups.map (·.key) ++ [key] := by
  induction groups with
  | nil => simp [addToGroup]
  | cons g gs ih =>
    unfold addToGroup
    by_cases hg : g.key = key
    · simp [hg]
    · rw [if_neg hg]
      simp only [List.map_cons, ih, List.mem_cons, Ne.symm hg, false_or]
      split <;> simp

/-- A group after a row was added: the row's own group, or another one. -/
theorem mem_addToGroup {key : String} {row : OutboxRow ι} {groups : List (Group ι)}
    (hkeys : (groups.map (·.key)).Nodup) {g : Group ι} (h : g ∈ addToGroup key row groups) :
    (g ∈ groups ∧ g.key ≠ key) ∨
      (∃ g₀ ∈ groups, g₀.key = key ∧ g = { g₀ with rows := g₀.rows ++ [row] }) ∨
      (key ∉ groups.map (·.key) ∧ g = { key, rows := [row] }) := by
  induction groups with
  | nil =>
    rw [addToGroup, List.mem_singleton] at h
    exact Or.inr (Or.inr ⟨by simp, h⟩)
  | cons g' gs ih =>
    obtain ⟨hhead, htail⟩ := List.nodup_cons.1 hkeys
    unfold addToGroup at h
    by_cases hg : g'.key = key
    · rw [if_pos hg] at h
      rcases List.mem_cons.1 h with rfl | hmem
      · exact Or.inr (Or.inl ⟨g', List.mem_cons_self, hg, rfl⟩)
      · refine Or.inl ⟨List.mem_cons_of_mem _ hmem, ?_⟩
        intro heq
        exact hhead (List.mem_map.2 ⟨g, hmem, heq.trans hg.symm⟩)
    · rw [if_neg hg] at h
      rcases List.mem_cons.1 h with rfl | hmem
      · exact Or.inl ⟨List.mem_cons_self, hg⟩
      · rcases ih htail hmem with ⟨hold, hne⟩ | ⟨g₀, hold, hkey, heq⟩ | ⟨hnew, heq⟩
        · exact Or.inl ⟨List.mem_cons_of_mem _ hold, hne⟩
        · exact Or.inr (Or.inl ⟨g₀, List.mem_cons_of_mem _ hold, hkey, heq⟩)
        · refine Or.inr (Or.inr ⟨?_, heq⟩)
          rw [List.map_cons, List.mem_cons, not_or]
          exact ⟨Ne.symm hg, hnew⟩

theorem Grouped.add {poller : ResolvedPoller ι} {rows : List (OutboxRow ι)} {groups : List (Group ι)}
    (h : Grouped poller rows groups) (row : OutboxRow ι) :
    Grouped poller (rows ++ [row]) (addToGroup (orderingKey poller row.event) row groups) := by
  refine ⟨?_, ?_, ?_⟩
  · intro g hg
    rw [List.filter_append]
    rcases mem_addToGroup h.keys hg with ⟨hold, hne⟩ | ⟨g₀, hold, hkey, rfl⟩ | ⟨hnew, rfl⟩
    · rw [h.rows_eq g hold]
      simp [Ne.symm hne]
    · rw [h.rows_eq g₀ hold]
      simp [hkey]
    · have hnone : rows.filter (fun r => orderingKey poller r.event = orderingKey poller row.event) =
          [] := by
        rw [List.filter_eq_nil_iff]
        intro r hr heq
        have hkey : orderingKey poller r.event = orderingKey poller row.event := by simpa using heq
        exact hnew (hkey ▸ h.cover r hr)
      simp [hnone]
  · rw [keys_addToGroup]
    split
    · exact h.keys
    · rename_i hnew
      refine List.nodup_append.2 ⟨h.keys, List.nodup_singleton _, ?_⟩
      intro a ha b hb heq
      rw [List.mem_singleton] at hb
      rw [heq, hb] at ha
      exact hnew ha
  · intro r hr
    rw [keys_addToGroup]
    rcases List.mem_append.1 hr with hr | hr
    · have hcover := h.cover r hr
      split
      · exact hcover
      · exact List.mem_append_left _ hcover
    · rw [List.mem_singleton.1 hr]
      split
      · assumption
      · simp

theorem grouped (poller : ResolvedPoller ι) (rows : List (OutboxRow ι)) :
    Grouped poller rows (groupByOrderingKey poller rows) := by
  induction rows using List.reverseRecOn with
  | nil =>
    refine ⟨?_, List.nodup_nil, ?_⟩
    · intro g hg
      cases hg
    · intro r hr
      cases hr
  | append_singleton rows row ih =>
    unfold groupByOrderingKey
    rw [List.foldl_append]
    exact ih.add row

theorem addToGroup_rows {key : String} {row : OutboxRow ι} {groups : List (Group ι)}
    (h : ∀ g ∈ groups, g.rows ≠ []) : ∀ g ∈ addToGroup key row groups, g.rows ≠ [] := by
  induction groups with
  | nil =>
    intro g hg
    rw [List.mem_singleton.1 hg]
    exact List.cons_ne_nil _ _
  | cons g' gs ih =>
    intro g hg
    unfold addToGroup at hg
    split at hg
    · rcases List.mem_cons.1 hg with rfl | hg
      · simp
      · exact h g (List.mem_cons_of_mem _ hg)
    · rcases List.mem_cons.1 hg with rfl | hg
      · exact h g List.mem_cons_self
      · exact ih (fun g hg => h g (List.mem_cons_of_mem _ hg)) g hg

theorem rows_groupByOrderingKey (poller : ResolvedPoller ι) (rows : List (OutboxRow ι)) :
    ∀ g ∈ groupByOrderingKey poller rows, g.rows ≠ [] := by
  induction rows using List.reverseRecOn with
  | nil =>
    intro g hg
    cases hg
  | append_singleton rows row ih =>
    unfold groupByOrderingKey
    rw [List.foldl_append]
    exact addToGroup_rows ih

/-- No group of a round is empty. -/
theorem openGroups_rows {poller : ResolvedPoller ι} {rows : List (OutboxRow ι)}
    {held blocked : List String} {g : Group ι} (h : g ∈ openGroups poller rows held blocked) :
    g.rows ≠ [] := rows_groupByOrderingKey poller rows g (List.mem_filter.1 h).1

/-- The groups of a round: the rows of one key, in load order. -/
theorem openGroups_mem {poller : ResolvedPoller ι} {rows : List (OutboxRow ι)}
    {held blocked : List String} {g : Group ι} (h : g ∈ openGroups poller rows held blocked) :
    g.rows = rows.filter (fun r => orderingKey poller r.event = g.key) ∧ g.key ∉ held ∧
      g.key ∉ blocked := by
  obtain ⟨hmem, hfree⟩ := List.mem_filter.1 h
  have hkeys : g.key ∉ held ∧ g.key ∉ blocked := by simpa using hfree
  exact ⟨(grouped poller rows).rows_eq g hmem, hkeys.1, hkeys.2⟩

/-! ## The queues of the drains -/

theorem drain_setDrain (w : World ι) (i j : Nat) (f : DrainMem ι → DrainMem ι) :
    (w.setDrain i f).drain j = w.drain j ∨
      (j = i ∧ i < w.drains.length ∧ (w.setDrain i f).drain j = f (w.drain j)) := by
  unfold World.setDrain World.drain
  rw [List.getD_eq_getElem?_getD, List.getD_eq_getElem?_getD]
  by_cases hij : i = j
  · subst hij
    rw [List.getElem?_modify_eq]
    cases hget : w.drains[i]? with
    | none => exact Or.inl rfl
    | some m => exact Or.inr ⟨rfl, (List.getElem?_eq_some_iff.1 hget).1, rfl⟩
  · rw [List.getElem?_modify_ne _ _ hij]
    exact Or.inl rfl

theorem drain_append (w : World ι) (j : Nat) :
    (({ w with drains := w.drains ++ [{}] } : World ι).drain j) = w.drain j := by
  unfold World.drain
  rw [List.getD_eq_getElem?_getD, List.getD_eq_getElem?_getD]
  rcases Nat.lt_trichotomy j w.drains.length with hlt | heq | hgt
  · rw [List.getElem?_append_left hlt]
  · subst heq
    simp
  · rw [List.getElem?_eq_none (by simp; omega), List.getElem?_eq_none hgt.le]

section Queues

variable {o : Op ι} {ch : Choice ι} {a : Ans o} {w w' : World ι}

/-- What a call makes of the shared variables of a drain. -/
theorem perform_drain (hw : perform o ch w = some (a, w')) (j : Nat) :
    w'.drain j = w.drain j ∨
      (∃ i note, o = .noteDrain i note ∧ j = i ∧ w'.drain j = (w.drain j).note note) ∨
      (∃ deps l run i groups, o = .startRound deps l run i groups ∧ j = i ∧
        w'.drain j = (w.drain j).startRound deps groups) ∨
      (∃ i, o = .shift i ∧ j = i ∧ w'.drain j = { w.drain j with queue := (w.drain j).queue.tail }) ∨
      ∃ i res, o = .workerDone i res ∧ j = i ∧ w'.drain j = (w.drain j).settleWorker res := by
  cases o with
  | store so =>
    simp only [perform, Option.map_eq_some_iff, Prod.mk.injEq] at hw
    obtain ⟨r, -, -, rfl⟩ := hw
    exact Or.inl rfl
  | newDrain =>
    cases ch <;> simp only [perform, Option.some.injEq, Prod.mk.injEq, reduceCtorEq] at hw
    obtain ⟨-, rfl⟩ := hw
    exact Or.inl (drain_append w j)
  | noteDrain i note =>
    cases ch <;> simp only [perform, Option.some.injEq, Prod.mk.injEq, reduceCtorEq] at hw
    obtain ⟨-, rfl⟩ := hw
    rcases drain_setDrain w i j fun m => m.note note with h | ⟨h, -, h'⟩
    · exact Or.inl h
    · exact Or.inr (Or.inl ⟨i, note, rfl, h, h'⟩)
  | startRound deps l run i groups =>
    cases ch <;> simp only [perform, Option.some.injEq, Prod.mk.injEq, reduceCtorEq] at hw
    obtain ⟨-, rfl⟩ := hw
    rcases drain_setDrain w i j fun m => m.startRound deps groups with h | ⟨h, -, h'⟩
    · exact Or.inl h
    · exact Or.inr (Or.inr (Or.inl ⟨deps, l, run, i, groups, rfl, h, h'⟩))
  | shift i =>
    cases ch <;> simp only [perform, Option.some.injEq, Prod.mk.injEq, reduceCtorEq] at hw
    obtain ⟨-, rfl⟩ := hw
    rcases drain_setDrain w i j fun m => { m with queue := m.queue.tail } with h | ⟨h, -, h'⟩
    · exact Or.inl h
    · exact Or.inr (Or.inr (Or.inr (Or.inl ⟨i, rfl, h, h'⟩)))
  | workerDone i res =>
    cases ch <;> simp only [perform, Option.some.injEq, Prod.mk.injEq, reduceCtorEq] at hw
    obtain ⟨-, rfl⟩ := hw
    rcases drain_setDrain w i j fun m => m.settleWorker res with h | ⟨h, -, h'⟩
    · exact Or.inl h
    · exact Or.inr (Or.inr (Or.inr (Or.inr ⟨i, res, rfl, h, h'⟩)))
  | joinRound i =>
    cases ch with
    | ok => _
    | _ => simp only [perform, reduceCtorEq] at hw
    simp only [perform] at hw
    split at hw
    · simp only [Option.some.injEq, Prod.mk.injEq] at hw
      obtain ⟨-, rfl⟩ := hw
      exact Or.inl rfl
    · split at hw
      · simp only [Option.some.injEq, Prod.mk.injEq] at hw
        obtain ⟨-, rfl⟩ := hw
        exact Or.inl rfl
      · cases hw
  | diverge => exact a.elim
  | _ =>
    cases ch <;> simp only [perform, Option.some.injEq, Prod.mk.injEq, reduceCtorEq] at hw
    obtain ⟨-, rfl⟩ := hw
    exact Or.inl rfl

/-- A queued group was queued before, or a round was started with it. -/
theorem queue_cases (hw : perform o ch w = some (a, w')) {j : Nat} {g : Group ι}
    (hg : g ∈ (w'.drain j).queue) :
    g ∈ (w.drain j).queue ∨
      ∃ deps l run groups, o = .startRound deps l run j groups ∧ g ∈ groups := by
  rcases perform_drain hw j with h | ⟨i, note, -, -, h⟩ | ⟨deps, l, run, i, groups, ho, rfl, h⟩ |
    ⟨i, -, -, h⟩ | ⟨i, res, -, -, h⟩
  · rw [h] at hg
    exact Or.inl hg
  · rw [h] at hg
    cases note <;> exact Or.inl hg
  · rw [h] at hg
    exact Or.inr ⟨deps, l, run, groups, ho, hg⟩
  · rw [h] at hg
    exact Or.inl (List.mem_of_mem_tail hg)
  · rw [h] at hg
    cases res <;> exact Or.inl hg

/-- A worker takes the first group of the queue. -/
theorem shift_answer {i : Nat} {g : Group ι} (h : perform (.shift i) ch w = some (some g, w')) :
    (w.drain i).queue.head? = some g ∧ w' = w.setDrain i fun m => { m with queue := m.queue.tail } := by
  cases ch <;> simp only [perform, Option.some.injEq, Prod.mk.injEq, reduceCtorEq] at h
  exact ⟨h.1, h.2.symm⟩

end Queues

/-! ## Rows in hand -/

/-- The rows a thread has in hand. -/
def ThreadView.rows : ThreadView ι → List (OutboxRow ι)
  | .main v => v.rows.getD []
  | .worker v => v.rest
  | .keeper _ => []

/-- The rows in the hands of the threads, and those queued for them, satisfy `P`. -/
structure Handled (P : OutboxRow ι → Prop) (vs : List (ThreadView ι)) (w : World ι) : Prop where
  views : ∀ (t : Nat) v, vs[t]? = some v → ∀ r ∈ v.rows, P r
  queues : ∀ i, ∀ g ∈ (w.drain i).queue, ∀ r ∈ g.rows, P r

section Handled

variable {P Q : OutboxRow ι → Prop} {d : Deployment ι} {vs : List (ThreadView ι)} {t : Nat} {o : Op ι}
  {ch : Choice ι} {a : Ans o} {w w' : World ι}

theorem Handled.mono (h : Handled P vs w) (hPQ : ∀ r, P r → Q r) : Handled Q vs w :=
  ⟨fun t v hv r hr => hPQ r (h.views t v hv r hr), fun i g hg r hr => hPQ r (h.queues i g hg r hr)⟩

theorem handled_init (w : World ι) (hw : w.drains = []) : Handled P [] w := by
  constructor
  · intro t v hv
    simp at hv
  · intro i g hg
    simp [World.drain, hw] at hg

theorem Handled.start (h : Handled P vs w) (p : Prog (Op ι) Ans Unit) :
    Handled P ((deliveries d).step vs (.start p)) w := by
  refine ⟨?_, h.queues⟩
  intro u v hv
  rcases step_start_cases hv with hold | ⟨-, rfl⟩
  · exact h.views u v hold
  · intro r hr
    cases hr

/-- The rows and the held keys a main thread knows after an answer. -/
inductive Asked (w : World ι) (m : MainView ι) :
    Op ι → Option (List (OutboxRow ι)) → Option (List String) → Prop where
  | same (o : Op ι) : Asked w m o m.rows m.held
  | dropped (o : Op ι) (held : Option (List String)) : Asked w m o none held
  | loaded (limit : Nat) :
      Asked w m (.store (.loadPending limit)) (some (w.store.loadPending limit)) none
  | held : Asked w m (.store .heldKeys) m.rows (some w.store.heldKeys)

theorem main_asked (hw : perform o ch w = some (a, w')) (m : MainView ι) :
    Asked w m o (m.learn o a).rows (m.learn o a).held := by
  cases o with
  | store so =>
    cases so with
    | loadPending limit =>
      cases a with
      | error e => exact .same _
      | ok rows =>
        obtain ⟨-, hread⟩ := performStore_read (fun _ => rfl) (perform_store hw)
        obtain rfl := hread rows rfl
        exact .loaded limit
    | heldKeys =>
      cases a with
      | error e => exact .same _
      | ok keys =>
        obtain ⟨-, hread⟩ := performStore_read (fun _ => rfl) (perform_store hw)
        obtain rfl := hread keys rfl
        exact .held
    | acquireLease owner ttlMs now =>
      cases a with
      | error e => exact .same _
      | ok got => cases got <;> exact .same _
    | _ => exact .same _
  | newDrain => exact .dropped _ _
  | startRound deps l run i groups => exact .dropped _ _
  | joinRound i => cases a <;> exact .same _
  | _ => exact .same _

/-- The key and the rows of a worker after an answer. -/
inductive Handed (d : Deployment ι) (w : World ι) (x : WorkerView ι) :
    Op ι → String → List (OutboxRow ι) → Prop where
  | same (o : Op ι) : Handed d w x o x.key x.rest
  | left (o : Op ι) : Handed d w x o x.key []
  | taken (i : Nat) (g : Group ι) (head : (w.drain i).queue.head? = some g) :
      Handed d w x (.shift i) g.key g.rows
  | acked (l : Lease) (ids : List String) :
      Handed d w x (.store (.ackEvents l ids)) x.key x.rest.tail
  | passed (i : Nat) (go : d.poller.delivery.poisonAction ≠ .halt)
      (free : d.poller.delivery.poisonHoldKey ≠ true) :
      Handed d w x (.noteDrain i .parked) x.key x.rest.tail

theorem worker_handed (hw : perform o ch w = some (a, w')) (x : WorkerView ι) :
    Handed d w x o (x.learn d o a).key (x.learn d o a).rest := by
  cases o with
  | store so =>
    cases so with
    | ackEvents l ids =>
      cases a with
      | ok _ => exact .acked l ids
      | error e => exact .same _
    | recordAttempt l id error next => cases a <;> exact .same _
    | parkEvent l row => cases a <;> exact .same _
    | _ => exact .same _
  | shift i =>
    cases a with
    | none => exact .same _
    | some g => exact .taken i g (shift_answer hw).1
  | deliver e => cases a <;> exact .same _
  | noteDrain i note =>
    cases note with
    | parked =>
      simp only [WorkerView.learn, WorkerView.note]
      split
      · exact .same _
      · rename_i hpass
        rw [not_or] at hpass
        exact .passed i hpass.1 hpass.2
    | halted => exact .left _
    | block key => exact .left _
    | _ => exact .same _
  | _ => exact .same _

/-- The rows of a main thread after an answer. -/
theorem main_rows (hstore : ∀ id row, w.store.outbox.get id = some row → P row)
    (hw : perform o ch w = some (a, w')) {m : MainView ι} (hm : ∀ r ∈ m.rows.getD [], P r) :
    ∀ r ∈ (m.learn o a).rows.getD [], P r := by
  generalize hrows : (m.learn o a).rows = rows
  generalize hheld : (m.learn o a).held = held
  have hasked := main_asked hw m
  rw [hrows, hheld] at hasked
  cases hasked with
  | same => exact hm
  | dropped =>
    intro r hr
    cases hr
  | loaded limit =>
    intro r hr
    obtain ⟨id, hget⟩ := loadPending_mem hr
    exact hstore id r hget
  | held => exact hm

/-- The rows of a worker after an answer. -/
theorem worker_rows (hqueues : ∀ i, ∀ g ∈ (w.drain i).queue, ∀ r ∈ g.rows, P r)
    (hw : perform o ch w = some (a, w')) {x : WorkerView ι} (hx : ∀ r ∈ x.rest, P r) :
    ∀ r ∈ (x.learn d o a).rest, P r := by
  generalize hkey : (x.learn d o a).key = key
  generalize hrest : (x.learn d o a).rest = rest
  have hhanded := worker_handed (d := d) hw x
  rw [hkey, hrest] at hhanded
  cases hhanded with
  | same => exact hx
  | left =>
    intro r hr
    cases hr
  | taken i g hhead => exact hqueues i g (List.mem_of_mem_head? hhead)
  | acked l ids => exact fun r hr => hx r (List.mem_of_mem_tail hr)
  | passed i _ _ => exact fun r hr => hx r (List.mem_of_mem_tail hr)

/-- Rows are in hand because they were loaded. -/
theorem Handled.act (h : Handled P vs w)
    (hstore : ∀ id row, w.store.outbox.get id = some row → P row) {v : ThreadView ι}
    (hv : vs[t]? = some v) (hallow : v.allow d o) (hw : perform o ch w = some (a, w')) :
    Handled P ((deliveries d).step vs (.act t o ch a)) w' := by
  constructor
  · intro u v' hv'
    rcases step_act_cases hv' with ⟨v₀, rfl, hv₀, rfl⟩ | ⟨-, hold⟩ | ⟨-, rfl, -⟩
    · have hrows := h.views _ v₀ hv₀
      cases v₀ with
      | main m => exact main_rows hstore hw hrows
      | worker x => exact worker_rows h.queues hw hrows
      | keeper l => exact hrows
    · exact h.views u v' hold
    · intro r hr
      cases o <;> cases hr
  · intro i g hg r hr
    rcases queue_cases hw hg with hold | ⟨deps, l, run, groups, rfl, hmem⟩
    · exact h.queues i g hold r hr
    · cases v with
      | main m =>
        obtain ⟨-, -, -, -, rows, held, blocked, hrows, -, -, rfl⟩ := hallow
        obtain ⟨heq, -, -⟩ := openGroups_mem hmem
        rw [heq] at hr
        have hmain := h.views t (.main m) hv r
        simp only [ThreadView.rows, hrows] at hmain
        exact hmain (List.mem_filter.1 hr).1
      | worker x => exact hallow.elim
      | keeper l => exact hallow.elim

end Handled

/-! ## The history of an event -/

/-- The ids of the events a step delivers. -/
def stepDelivered : Label (system ι) → List String
  | .act _ (.deliver e) _ a =>
    match a with
    | .ok _ => [e.id]
    | .error _ => []
  | _ => []

/-- The ids of the events delivered successfully so far. -/
def deliveredIds (tr : List (Label (system ι))) : List String := tr.flatMap stepDelivered

/-- A successful delivery is a call of the consumer that resolves. -/
theorem delivered_by {l : Label (system ι)} {id : String} (h : id ∈ stepDelivered l) :
    ∃ t e ch, l = .act t (.deliver e) ch (.ok ()) ∧ e.id = id := by
  cases l with
  | act t o ch a =>
    cases o with
    | deliver e =>
      cases a with
      | ok u => exact ⟨t, e, ch, rfl, (List.mem_singleton.1 h).symm⟩
      | error err => cases h
    | _ => cases h
  | _ => cases h

/-- The ids a step discards. -/
def stepDiscarded : Label (system ι) → List String
  | .act _ (.store (.discardParked ids)) ch a => if tookEffect ch a then ids else []
  | _ => []

/-- The ids an operator discarded so far. -/
def discardedIds (tr : List (Label (system ι))) : List String := tr.flatMap stepDiscarded

/-- The event is pending or parked, or it was delivered or discarded. -/
def Traced (tr : List (Label (system ι))) (rec : KeyRecord ι) (id : String) : Prop :=
  rec.Keeps id ∨ id ∈ deliveredIds tr ∨ id ∈ discardedIds tr

/-- The event is in the pending outbox, or parked, or it was delivered or discarded. -/
def Accounted (tr : List (Label (system ι))) (rec : KeyRecord ι) (id : String) : Prop :=
  (∃ row, rec.outbox.get id = some row ∧ row.status = .pending) ∨ (rec.parked.get id).isSome ∨
    id ∈ deliveredIds tr ∨ id ∈ discardedIds tr

theorem Traced.accounted {tr : List (Label (system ι))} {rec : KeyRecord ι} {id : String}
    (h : Traced tr rec id) (hrec : rec.Filed) : Accounted tr rec id := by
  rcases h with (hout | hparked) | hpast
  · obtain ⟨row, hget⟩ := Option.isSome_iff_exists.1 hout
    exact Or.inl ⟨row, hget, (hrec.outbox id row hget).2.status⟩
  · exact Or.inr (Or.inl hparked)
  · exact Or.inr (Or.inr hpast)

/-- A way for an event to leave the outbox. -/
inductive Leaves (tr : List (Label (system ι))) (rec' : KeyRecord ι) (id : String) :
    Op ι → Prop where
  | acked (l : Lease) (ids : List String) (mem : id ∈ ids) (delivered : id ∈ deliveredIds tr) :
      Leaves tr rec' id (.store (.ackEvents l ids))
  | parked (l : Lease) (row : ParkedRow ι) (stored : (rec'.parked.get id).isSome) :
      Leaves tr rec' id (.store (.parkEvent l row))

theorem deliveredIds_append (tr : List (Label (system ι))) (l : Label (system ι)) :
    deliveredIds (tr ++ [l]) = deliveredIds tr ++ stepDelivered l := by
  simp [deliveredIds]

theorem discardedIds_append (tr : List (Label (system ι))) (l : Label (system ι)) :
    discardedIds (tr ++ [l]) = discardedIds tr ++ stepDiscarded l := by
  simp [discardedIds]

theorem Traced.snoc {tr : List (Label (system ι))} {rec rec' : KeyRecord ι} {id : String}
    (h : Traced tr rec id) (l : Label (system ι))
    (hkeep : rec.Keeps id → Traced (tr ++ [l]) rec' id) : Traced (tr ++ [l]) rec' id := by
  rcases h with hrec | hdelivered | hdiscarded
  · exact hkeep hrec
  · rw [Traced, deliveredIds_append]
    exact Or.inr (Or.inl (List.mem_append_left _ hdelivered))
  · rw [Traced, discardedIds_append]
    exact Or.inr (Or.inr (List.mem_append_left _ hdiscarded))

/-- What a moving call does to an event that is pending or parked. -/
theorem Moved.keeps {rec rec' : KeyRecord ι} {o : StoreOp ι} {e : Bool} (h : Moved rec o e rec')
    (hrec : rec.Filed) (ho : o.Filed) {id : String} (hid : rec.Keeps id) :
    rec'.Keeps id ∨ (∃ l ids, o = .ackEvents l ids ∧ id ∈ ids) ∨
      ∃ ids, o = .discardParked ids ∧ e = true ∧ id ∈ ids := by
  cases h with
  | still hout hparked _ =>
    left
    unfold KeyRecord.Keeps at hid ⊢
    rw [hout, hparked]
    exact hid
  | commit l b hold =>
    left
    unfold KeyRecord.Keeps at hid ⊢
    simp only [KeyRecord.commit, OrderedMap.isSome_get_setAll]
    exact hid.imp Or.inr Or.inr
  | ack l ids hold =>
    by_cases hmem : id ∈ ids
    · exact Or.inr (Or.inl ⟨l, ids, rfl, hmem⟩)
    · left
      unfold KeyRecord.Keeps at hid ⊢
      simpa [KeyRecord.ack, OrderedMap.get_eraseAll, hmem] using hid
  | record l id' error next hold =>
    left
    unfold KeyRecord.noteAttempt
    split
    · exact hid
    · unfold KeyRecord.Keeps at hid ⊢
      simp only [OrderedMap.get_set]
      split
      · exact Or.inl rfl
      · exact hid
  | park l row hold =>
    left
    unfold KeyRecord.Keeps at hid ⊢
    by_cases heq : id = row.id
    · exact Or.inr (by simp [KeyRecord.park, heq])
    · have hpark : ((rec.park row).parked.get id).isSome = (rec.parked.get id).isSome := by
        simp [KeyRecord.park, OrderedMap.get_set_ne _ heq]
      rw [hpark]
      refine hid.imp_left ?_
      intro hout
      unfold KeyRecord.park
      split
      · rename_i event hevent
        have hne : id ≠ event.id := by
          rw [ho event hevent]
          exact heq
        simpa [OrderedMap.get_erase_ne _ hne] using hout
      · exact hout
  | retry ids => exact Or.inl (keeps_retryParked hrec ids hid)
  | discard ids =>
    by_cases hmem : id ∈ ids
    · exact Or.inr (Or.inr ⟨ids, rfl, rfl, hmem⟩)
    · left
      unfold KeyRecord.Keeps at hid ⊢
      simpa [KeyRecord.discardParked, OrderedMap.get_eraseAll, hmem] using hid

/-- How an event leaves the outbox. -/
theorem Moved.leaves {rec rec' : KeyRecord ι} {o : StoreOp ι} {e : Bool} (h : Moved rec o e rec')
    (ho : o.Filed) {id : String} (hid : (rec.outbox.get id).isSome)
    (hgone : rec'.outbox.get id = none) :
    (∃ l ids, o = .ackEvents l ids ∧ id ∈ ids) ∨
      ∃ l row, o = .parkEvent l row ∧ id = row.id ∧ (rec'.parked.get id).isSome := by
  have hstay : (rec'.outbox.get id).isSome → False := by
    intro hsome
    rw [hgone] at hsome
    cases hsome
  cases h with
  | still hout hparked _ =>
    rw [← hout] at hid
    exact (hstay hid).elim
  | commit l b hold =>
    refine (hstay ?_).elim
    simp only [KeyRecord.commit, OrderedMap.isSome_get_setAll]
    exact Or.inr hid
  | ack l ids hold =>
    by_cases hmem : id ∈ ids
    · exact Or.inl ⟨l, ids, rfl, hmem⟩
    · refine (hstay ?_).elim
      simpa [KeyRecord.ack, OrderedMap.get_eraseAll, hmem] using hid
  | record l id' error next hold =>
    refine (hstay ?_).elim
    unfold KeyRecord.noteAttempt
    split
    · exact hid
    · simp only [OrderedMap.get_set]
      split
      · rfl
      · exact hid
  | park l row hold =>
    by_cases heq : id = row.id
    · exact Or.inr ⟨l, row, rfl, heq, by simp [KeyRecord.park, heq]⟩
    · refine (hstay ?_).elim
      unfold KeyRecord.park
      split
      · rename_i event hevent
        have hne : id ≠ event.id := by
          rw [ho event hevent]
          exact heq
        simpa [OrderedMap.get_erase_ne _ hne] using hid
      · exact hid
  | retry ids =>
    refine (hstay ?_).elim
    exact retryParked_preserves (P := fun rec => (rec.outbox.get id).isSome = true)
      (fun rec id' h => outbox_retryOne rec id' h) hid ids
  | discard ids => exact (hstay hid).elim

/-! ## Runs -/

section Runs

variable {d : Deployment ι} {S : EngineCall → Prop} {tr : List (Label (system ι))}
  {vs : List (ThreadView ι)} {w w' : World ι} {t : Nat} {o : Op ι} {ch : Choice ι} {a : Ans o}

/-- A commit carries stamped rows and no parked event. -/
theorem commit_filed {v : CycleView ι} {l : Lease} {b : CommitBatch ι}
    (h : (cycleContract d (administers d S)).allow v (.store (.commitPoll l b))) :
    (StoreOp.commitPoll l b).Filed := by
  have hnone : b.parked = [] → ∀ r ∈ b.parked, r.event = none := by
    intro hempty r hr
    rw [hempty] at hr
    cases hr
  rcases h with ⟨-, -, ⟨⟨p⟩⟩ | ⟨⟨p⟩⟩⟩ | ⟨-, h⟩
  · refine ⟨p.events_eq.stamped, ?_⟩
    rcases p.parked_eq with hempty | hquarantined
    · exact hnone hempty
    · intro r hr
      rw [hquarantined] at hr
      obtain ⟨inv, -, rfl⟩ := List.mem_map.1 hr
      rfl
  · exact ⟨p.events_eq.stamped, hnone p.parked_eq⟩
  · exact ⟨h.stamped, hnone h.parked⟩

/-- What holds after every step. -/
structure Conserved (tr : List (Label (system ι))) (vs : List (ThreadView ι)) (w : World ι) :
    Prop where
  filed : w.store.Filed
  handled : Handled OutboxRow.Stamped vs w
  /-- A row about to be acknowledged was delivered. -/
  told : ∀ (t : Nat) x, vs[t]? = some (.worker x) → x.stage = .delivered →
    ∀ row ∈ x.rest.head?, row.eventId ∈ deliveredIds tr
  accounted : ∀ r ∈ committedRows tr, Traced tr w.store r.eventId

/-- The store call a thread makes carries what it should. -/
theorem call_filed (h : Handled OutboxRow.Stamped vs w) {v : ThreadView ι} (hv : vs[t]? = some v)
    {so : StoreOp ι} (hallow : v.allow d (.store so)) {u : CycleView ι}
    (hcycle : (cycleContract d (administers d S)).allow u (.store so)) : so.Filed := by
  cases so with
  | commitPoll l b => exact commit_filed hcycle
  | parkEvent l parked =>
    cases v with
    | worker x =>
      obtain ⟨-, -, -, row, rest, error, failedAt, parkedAt, hrest, rfl⟩ := hallow
      have hrow := h.views t _ hv row (by simp [ThreadView.rows, hrest])
      rintro e ⟨⟩
      exact hrow.id
    | main m => exact hallow.elim
    | keeper l => exact hallow.elim
  | _ => trivial

/-- An acknowledgement follows a delivery. -/
theorem Conserved.acked (h : Conserved tr vs w) {v : ThreadView ι} (hv : vs[t]? = some v) {l : Lease}
    {ids : List String} (hallow : v.allow d (.store (.ackEvents l ids))) {id : String} (hid : id ∈ ids) :
    id ∈ deliveredIds tr := by
  cases v with
  | worker x =>
    obtain ⟨-, -, hstage, row, rest, hrest, rfl⟩ := hallow
    rw [List.mem_singleton.1 hid]
    exact h.told t x hv hstage row (by simp [hrest])
  | main m => exact hallow.elim
  | keeper l => exact hallow.elim

/-- A row is about to be acknowledged because its handler has just resolved, or had before. -/
theorem learn_delivered {x : WorkerView ι} (h : (x.learn d o a).stage = .delivered) :
    (x.stage = .delivered ∧ (x.learn d o a).rest = x.rest) ∨
      ((x.learn d o a).rest = x.rest ∧ ∃ e, o = .deliver e ∧
        ∀ t (ch : (system ι).Choice), e.id ∈ stepDelivered (.act t o ch a)) := by
  cases o with
  | store so =>
    cases so with
    | ackEvents l ids => cases a <;> cases h
    | recordAttempt l id error next =>
      cases a with
      | ok _ => cases h
      | error e => exact Or.inl ⟨h, rfl⟩
    | parkEvent l row =>
      cases a with
      | ok _ => cases h
      | error e => exact Or.inl ⟨h, rfl⟩
    | _ => exact Or.inl ⟨h, rfl⟩
  | shift i =>
    cases a with
    | some g => cases h
    | none => exact Or.inl ⟨h, rfl⟩
  | deliver e =>
    cases a with
    | ok _ => exact Or.inr ⟨rfl, e, rfl, fun _ _ => List.mem_singleton.2 rfl⟩
    | error err => cases h
  | noteDrain i note =>
    cases note with
    | parked =>
      simp only [WorkerView.learn, WorkerView.note] at h ⊢
      split at h
      · rename_i hhold
        rw [if_pos hhold]
        exact Or.inl ⟨h, rfl⟩
      · cases h
    | halted => cases h
    | block key => cases h
    | _ => exact Or.inl ⟨h, rfl⟩
  | _ => exact Or.inl ⟨h, rfl⟩

theorem Conserved.told_act (h : Conserved tr vs w) {v : ThreadView ι} (hv : vs[t]? = some v)
    (hallow : v.allow d o) :
    ∀ (u : Nat) x, ((deliveries d).step vs (.act t o ch a))[u]? = some (.worker x) →
      x.stage = .delivered → ∀ row ∈ x.rest.head?,
        row.eventId ∈ deliveredIds (tr ++ [.act t o ch a]) := by
  intro u x hx hstage row hrow
  rw [deliveredIds_append]
  rcases step_act_cases hx with ⟨v₀, rfl, hv₀, heq⟩ | ⟨-, hold⟩ | ⟨-, heq, -⟩
  · obtain rfl : v₀ = v := Option.some.inj (hv₀.symm.trans hv)
    cases v₀ with
    | worker x₀ =>
      obtain rfl : x = x₀.learn d o a := ThreadView.worker.inj heq
      rcases learn_delivered hstage with ⟨hstage, hrest⟩ | ⟨hrest, e, rfl, hdelivered⟩
      · rw [hrest] at hrow
        exact List.mem_append_left _ (h.told u x₀ hv hstage row hrow)
      · obtain ⟨-, -, row', rest, hrest', rfl⟩ := hallow
        rw [hrest, hrest', List.head?_cons, Option.mem_some_iff] at hrow
        subst hrow
        have hid := (h.handled.views u _ hv row' (by simp [ThreadView.rows, hrest'])).id
        refine List.mem_append_right _ ?_
        rw [← hid]
        exact hdelivered u ch
    | main m => cases heq
    | keeper l => cases heq
  · exact List.mem_append_left _ (h.told u x hold hstage row hrow)
  · cases o <;> simp only [deliveries, forkView, reduceCtorEq] at heq
    obtain rfl := ThreadView.worker.inj heq
    cases hstage

theorem Conserved.act (h : Conserved tr vs w) (hdel : o ≠ .store .deleteKey) {v : ThreadView ι}
    (hv : vs[t]? = some v) (hallow : v.allow d o) {u : CycleView ι}
    (hcycle : (cycleContract d (administers d S)).allow u o) (hw : perform o ch w = some (a, w')) :
    Conserved (tr ++ [.act t o ch a]) ((deliveries d).step vs (.act t o ch a)) w' := by
  have hhandled : Handled OutboxRow.Stamped ((deliveries d).step vs (.act t o ch a)) w' :=
    h.handled.act (fun id row hget => (h.filed.outbox id row hget).2) hv hallow hw
  have hquiet : w'.store = w.store → stepRows (.act t o ch a) = [] →
      Conserved (tr ++ [.act t o ch a]) ((deliveries d).step vs (.act t o ch a)) w' := by
    intro hrec hrows
    refine ⟨hrec ▸ h.filed, hhandled, h.told_act hv hallow, ?_⟩
    intro r hr
    rw [committedRows_append, hrows, List.append_nil] at hr
    rw [hrec]
    exact (h.accounted r hr).snoc _ fun hkeep => Or.inl hkeep
  cases o with
  | store so =>
    have hmoved := performStore_moved (fun heq => hdel (congrArg Op.store heq)) (perform_store hw)
    have hso := call_filed h.handled hv hallow hcycle
    refine ⟨hmoved.filed h.filed hso, hhandled, h.told_act hv hallow, ?_⟩
    intro r hr
    rw [committedRows_append] at hr
    rcases List.mem_append.1 hr with hr | hr
    · -- a row committed before this step
      refine (h.accounted r hr).snoc _ ?_
      intro hkeep
      rcases hmoved.keeps h.filed hso hkeep with hkeep | ⟨l, ids, rfl, hmem⟩ | ⟨ids, rfl, heffect, hmem⟩
      · exact Or.inl hkeep
      · refine Or.inr (Or.inl ?_)
        rw [deliveredIds_append]
        exact List.mem_append_left _ (h.acked hv hallow hmem)
      · refine Or.inr (Or.inr ?_)
        rw [discardedIds_append]
        refine List.mem_append_right _ ?_
        rw [show stepDiscarded (.act t (.store (.discardParked ids)) ch a) = ids from if_pos heffect]
        exact hmem
    · -- a row of this step
      cases so with
      | commitPoll l b =>
        rcases performStore_commit (perform_store hw) with ⟨heffect, -, hrec⟩ | ⟨heffect, -, -⟩
        · rw [show stepRows (.act t (.store (.commitPoll l b)) ch a) = b.events from if_pos heffect] at hr
          refine Or.inl (Or.inl ?_)
          rw [hrec]
          simp only [KeyRecord.commit, OrderedMap.isSome_get_setAll]
          exact Or.inl (List.mem_map.2 ⟨r, hr, rfl⟩)
        · rw [show stepRows (.act t (.store (.commitPoll l b)) ch a) = [] from
            if_neg (by rw [heffect]; simp)] at hr
          cases hr
      | _ => cases hr
  | _ => exact hquiet (perform_other (fun so => by simp) hw) rfl

/-- In every run in which the key stays, no event is lost. -/
theorem conserved (hS : ∀ call, S call → call.KeepsKey) {c : Config (system ι)}
    (h : Run (system ι) (d.entry S) (World.fresh d.key) tr c) :
    Conserved tr ((deliveries d).views tr) c.world := by
  have hkept : Throughout (fun _ _ => True) tr := fun _ _ _ _ => trivial
  refine Run.roles (rolesObeyed d _) (J := Conserved) ?_ ?_ ?_ ?_ h hkept
  · refine ⟨filed_fresh d.key, handled_init _ rfl, ?_, ?_⟩
    · intro t x hx
      simp at hx
    · intro r hr
      cases hr
  · intro tr c q _ _ hJ
    refine ⟨hJ.filed, hJ.handled.start q, ?_, ?_⟩
    · intro u x hx hstage row hrow
      rw [deliveredIds_append]
      rcases step_start_cases hx with hold | ⟨-, heq⟩
      · exact List.mem_append_left _ (hJ.told u x hold hstage row hrow)
      · cases heq
    · intro r hr
      rw [committedRows_append, show stepRows (.start q) = [] from rfl, List.append_nil] at hr
      exact (hJ.accounted r hr).snoc _ fun hkeep => Or.inl hkeep
  · intro tr c t o k ch a w' v hr hJ ht hv hallow hw _
    have hcycle := hr.allow (obeys d _) ht
    have hdel : o ≠ .store .deleteKey := by
      rintro rfl
      exact allow_keepsKey hS hcycle
    exact hJ.act hdel hv hallow hcycle hw
  · intro tr c x _ hJ
    refine ⟨hJ.filed, ⟨hJ.handled.views, hJ.handled.queues⟩, ?_, ?_⟩
    · intro u y hy hstage row hrow
      rw [deliveredIds_append]
      exact List.mem_append_left _ (hJ.told u y hy hstage row hrow)
    · intro r hr
      rw [committedRows_append, show stepRows (.drift x) = [] from rfl, List.append_nil] at hr
      exact (hJ.accounted r hr).snoc _ fun hkeep => Or.inl hkeep

/-- In every run in which the key stays, whatever fails or is taken over: each event that was ever
committed is pending or parked, or it was delivered successfully, or an operator discarded it; and
whatever the next call is, an event leaves the outbox only by an acknowledgement, after a successful
delivery, or by being parked. -/
theorem events_conserved {c : Config (system ι)}
    (h : Run (system ι) (d.entry EngineCall.KeepsKey) (World.fresh d.key) tr c) :
    (∀ r ∈ committedRows tr, Accounted tr (World.store (ι := ι) c.world) r.eventId) ∧
      ∀ (t : Nat) o k ch a w', c.threads[t]? = some (Prog.call o k) →
        perform o ch c.world = some (a, w') → ∀ id,
        ((World.store (ι := ι) c.world).outbox.get id).isSome → w'.store.outbox.get id = none →
          Leaves tr w'.store id o := by
  have hconserved := conserved (fun _ hcall => hcall) h
  refine ⟨fun r hr => (hconserved.accounted r hr).accounted hconserved.filed, ?_⟩
  intro t o k ch a w' ht hw id hid hgone
  obtain ⟨v, hv, hallow⟩ := h.mayCall (rolesObeyed d _) ht
  have hcycle := h.allow (obeys d _) ht
  cases o with
  | store so =>
    have hdel : so ≠ .deleteKey := by
      rintro rfl
      exact allow_keepsKey (fun _ hcall => hcall) hcycle
    have hso := call_filed hconserved.handled hv hallow hcycle
    rcases (performStore_moved hdel (perform_store hw)).leaves hso hid hgone with
      ⟨l, ids, rfl, hmem⟩ | ⟨l, row, rfl, -, hstored⟩
    · exact .acked l ids hmem (hconserved.acked hv hallow hmem)
    · exact .parked l row hstored
  | _ =>
    rw [perform_other (fun so => by simp) hw] at hgone
    rw [hgone] at hid
    cases hid

end Runs

/-! ## A sample run -/

/-- What a handler throws. -/
def handlerError : JsError where
  kind := .plain
  name := "Error"
  message := "no"

/-- The consumer rejects events about `a`. -/
def rejectsA (items : List Sample) : Op Sample → Choice Sample
  | .deliver e => if e.subject = "a" then .settle (.error handlerError) else .settle (.ok ())
  | o => calm 5 (onePage items) o

/-- Two items are committed; the event of one is parked, that of the other is delivered. -/
def poisonedRound : List (Scene Sample) :=
  [ .ask (instanceOf (sampleOf samplePoller) true) forced,
    .run 0 37 (rejectsA [("a", "1"), ("b", "1")]),
    .run 2 30 (rejectsA []),
    .run 0 100 (rejectsA []) ]

set_option maxRecDepth 100000 in
theorem events_conserved_sample : ∃ tr c,
    Run (system Sample) ((sampleOf samplePoller).entry EngineCall.KeepsKey)
      (World.fresh (sampleOf samplePoller).key) tr c ∧
    (committedRows tr).map (·.event.subject) = ["a", "b"] ∧ (deliveredIds tr).length = 1 ∧
    (World.store (ι := Sample) c.world).parked.keys.length = 1 ∧
    ∀ r ∈ committedRows tr, Accounted tr (World.store (ι := Sample) c.world) r.eventId := by
  have hcast : Cast (sampleOf samplePoller) EngineCall.KeepsKey poisonedRound :=
    .ask (instanceOf_in _ _) trivial (.run (.run (.run .nil)))
  obtain ⟨tr, c, hrun, hcheck⟩ := play_run hcast
    (fun tr c => decide ((committedRows tr).map (·.event.subject) = ["a", "b"] ∧
      (deliveredIds tr).length = 1 ∧ (World.store (ι := Sample) c.world).parked.keys.length = 1))
    (by decide +kernel)
  obtain ⟨hrows, hdelivered, hparked⟩ := of_decide_eq_true hcheck
  exact ⟨tr, c, hrun, hrows, hdelivered, hparked, (events_conserved hrun).1⟩

end Watukuy
