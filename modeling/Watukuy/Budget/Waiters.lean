import Watukuy.Budget.Pick

/-!
# Every waiter is settled once, and none is forgotten

A waiter leaves the queue in the step that settles its promise, and a promise is resolved only by
a grant, which follows a take. The pump rests only when the queue is empty or the wake-up timer is
pending under the current token: whoever changes the queue in between sets `repump`.
-/

set_option autoImplicit false

namespace Watukuy

open Library

/-! ## What is kept -/

def BudgetLabel.settles (n : Nat) : BudgetLabel → Bool
  | .resolved w => w.seq = n
  | .rejected w _ => w.seq = n
  | _ => false

/-- How often the promise of waiter `n` is settled. -/
def settlements (n : Nat) (labels : List BudgetLabel) : Nat :=
  labels.countP (BudgetLabel.settles n)

@[simp] theorem settlements_nil (n : Nat) : settlements n [] = 0 := rfl

theorem settlements_append (n : Nat) (labels labels' : List BudgetLabel) :
    settlements n (labels ++ labels') = settlements n labels + settlements n labels' :=
  List.countP_append

/-- The waiters that the pump has in hand. -/
def PumpPhase.waiters : PumpPhase → List Waiter
  | .taking w => [w]
  | .deadlineTimer _ _ w _ rest => w :: rest
  | _ => []

/-- The queue, the waiters and the timers of a manager fit together. -/
structure WaitersSound (queue listeners : List Waiter) (status : Nat → WaiterStatus)
    (timers : List PendingTimer) (waiterSeq nextHandle : Nat) : Prop where
  distinct : (queue.map (·.seq)).Nodup
  unsettled : ∀ w ∈ queue, (status w.seq).settled = false
  queued : ∀ w ∈ queue, w.seq ≤ waiterSeq
  listening : ∀ w ∈ listeners, w.seq ≤ waiterSeq
  timed : ∀ t ∈ timers, ∀ w, t.callback = .expire w → w.seq ≤ waiterSeq
  unborn : ∀ n, waiterSeq < n → (status n).settled = false
  handles : (timers.map (·.handle)).Nodup
  handle_lt : ∀ t ∈ timers, t.handle < nextHandle

namespace BudgetManager

variable {c : ManagerConfig} {s s' : BudgetManager} {w : Waiter}

def Sound (s : BudgetManager) : Prop :=
  WaitersSound s.queue s.listeners s.status s.timers s.waiterSeq s.nextHandle

/-- The wake-up timer is armed: when it fires, the pump runs. -/
def WakePending (s : BudgetManager) : Prop :=
  ∃ t ∈ s.timers, ∃ token, s.wakeToken = some token ∧ t.callback = .wake token

/-- The pump may rest. -/
def Calm (s : BudgetManager) : Prop := s.queue = [] ∨ s.WakePending

structure Invariant (s : BudgetManager) : Prop where
  sound : s.Sound
  known : ∀ w ∈ s.phase.waiters, w.seq ≤ s.waiterSeq
  idle : s.phase = .idle → s.Calm
  waking : ∀ token handle, s.phase = .wakeTimer token handle → s.repump = false → s.Calm

/-! ## Parts of a step -/

theorem Sound.filterTimers (hs : s.Sound) (p : PendingTimer → Bool) :
    { s with timers := s.timers.filter p }.Sound where
  distinct := hs.distinct
  unsettled := hs.unsettled
  queued := hs.queued
  listening := hs.listening
  timed t ht := hs.timed t (List.mem_of_mem_filter ht)
  unborn := hs.unborn
  handles := hs.handles.sublist (List.filter_sublist.map _)
  handle_lt t ht := hs.handle_lt t (List.mem_of_mem_filter ht)

theorem Sound.cancelWake (hs : s.Sound) : s.cancelWake.Sound := hs.filterTimers _

theorem Sound.setTimeout (hs : s.Sound) {callback : TimerCallback} {ms : Int}
    (hknown : ∀ w, callback = .expire w → w.seq ≤ s.waiterSeq) : (s.setTimeout callback ms).Sound where
  distinct := hs.distinct
  unsettled := hs.unsettled
  queued := hs.queued
  listening := hs.listening
  timed t ht w hw := by
    rcases List.mem_append.1 ht with hold | hnew
    · exact hs.timed t hold w hw
    · obtain rfl := List.mem_singleton.1 hnew
      exact hknown w hw
  unborn := hs.unborn
  handles := by
    rw [BudgetManager.setTimeout, List.map_append, List.map_singleton]
    refine List.nodup_append.2 ⟨hs.handles, List.nodup_singleton _, ?_⟩
    rintro _ hold _ hnew rfl
    obtain ⟨t, ht, heq⟩ := List.mem_map.1 hold
    have hlt := hs.handle_lt t ht
    rw [heq, List.mem_singleton.1 hnew] at hlt
    exact Nat.lt_irrefl _ hlt
  handle_lt t ht := by
    rcases List.mem_append.1 ht with hold | hnew
    · exact Nat.lt_succ_of_lt (hs.handle_lt t hold)
    · obtain rfl := List.mem_singleton.1 hnew
      exact Nat.lt_succ_self _

theorem setStatus_settled {f : WaiterStatus → WaiterStatus}
    (hf : ∀ st, (f st).settled = st.settled) (n : Nat) :
    ((s.setStatus w f).status n).settled = (s.status n).settled := by
  simp only [setStatus]
  by_cases hn : n = w.seq
  · subst hn
    rw [Function.update_self, hf]
  · rw [Function.update_of_ne hn]

theorem Sound.setStatus (hs : s.Sound) {f : WaiterStatus → WaiterStatus}
    (hf : ∀ st, (f st).settled = st.settled) : (s.setStatus w f).Sound where
  distinct := hs.distinct
  unsettled x hx := (setStatus_settled hf x.seq).trans (hs.unsettled x hx)
  queued := hs.queued
  listening := hs.listening
  timed := hs.timed
  unborn n hn := (setStatus_settled hf n).trans (hs.unborn n hn)
  handles := hs.handles
  handle_lt := hs.handle_lt

theorem settle_status (s : BudgetManager) (w : Waiter) (n : Nat) :
    ((s.settle w).status n).settled = if n = w.seq then true else (s.status n).settled := by
  simp only [settle, BudgetManager.setStatus, clearTimeout]
  split
  · next hn => rw [hn, Function.update_self]
  · next hn => rw [Function.update_of_ne hn]

/-- What stays in the queue is not the waiter that is settled. -/
theorem mem_settle_queue (hs : s.Sound) {x : Waiter} (hx : x ∈ (s.settle w).queue) :
    x ∈ s.queue ∧ x.seq ≠ w.seq := by
  refine ⟨List.mem_of_mem_eraseP hx, fun hseq => ?_⟩
  obtain ⟨a, before, after, -, ha, hqueue, herased⟩ :=
    List.exists_of_eraseP (p := fun x : Waiter => x.seq = w.seq) (List.mem_of_mem_eraseP hx)
      (decide_eq_true hseq)
  have hdistinct := hs.distinct
  rw [hqueue, List.map_append, List.map_cons] at hdistinct
  have hnot : a.seq ∉ (before ++ after).map (·.seq) := by
    rw [List.map_append]
    exact (List.nodup_middle.1 hdistinct).notMem
  have hx : x ∈ s.queue.eraseP fun x => x.seq = w.seq := hx
  rw [herased] at hx
  exact hnot (List.mem_map.2 ⟨x, hx, hseq.trans (of_decide_eq_true ha).symm⟩)

theorem Sound.settle (hs : s.Sound) (hw : w.seq ≤ s.waiterSeq) : (s.settle w).Sound where
  distinct := hs.distinct.sublist (List.eraseP_sublist.map _)
  unsettled x hx := by
    obtain ⟨hmem, hne⟩ := mem_settle_queue hs hx
    rw [settle_status, if_neg hne]
    exact hs.unsettled x hmem
  queued x hx := hs.queued x (mem_settle_queue hs hx).1
  listening x hx := hs.listening x (List.mem_of_mem_filter hx)
  timed t ht := hs.timed t (List.mem_of_mem_filter ht)
  unborn n hn := by
    rw [settle_status, if_neg (by rintro rfl; exact Nat.not_lt.2 hw hn)]
    exact hs.unborn n hn
  handles := hs.handles.sublist (List.filter_sublist.map _)
  handle_lt t ht := hs.handle_lt t (List.mem_of_mem_filter ht)

/-! ## Pieces of a step -/

/-- A piece of a step that starts in `s`, up to where the pump rests or waits. -/
structure Goes (s : BudgetManager) (r : BudgetManager × List BudgetLabel) : Prop where
  invariant : r.1.Invariant
  waiterSeq : r.1.waiterSeq = s.waiterSeq
  settles : ∀ n, (r.1.status n).settled.toNat =
    (s.status n).settled.toNat + settlements n r.2
  unresolved : ∀ w, .resolved w ∉ r.2

/-- A piece that starts in a state with the waiters of `s`. -/
theorem Goes.from {r : BudgetManager × List BudgetLabel} (h : s'.Goes r)
    (hseq : s'.waiterSeq = s.waiterSeq)
    (hsettled : ∀ n, (s'.status n).settled = (s.status n).settled) : s.Goes r where
  invariant := h.invariant
  waiterSeq := h.waiterSeq.trans hseq
  settles n := hsettled n ▸ h.settles n
  unresolved := h.unresolved

/-- Nothing is shown of a piece, and no waiter is settled. -/
theorem Goes.silent {r : BudgetManager} (h : r.Invariant) (hseq : r.waiterSeq = s.waiterSeq)
    (hsettled : ∀ n, (r.status n).settled = (s.status n).settled) : s.Goes (r, []) where
  invariant := h
  waiterSeq := hseq
  settles n := congrArg Bool.toNat (hsettled n)
  unresolved _ := List.not_mem_nil

/-- The pump has picked a waiter. -/
theorem Sound.picked (hs : s.Sound) (served : Served) (hw : w ∈ s.queue) :
    s.Goes ({ s with served, phase := .taking w }, [.picked w]) where
  invariant :=
    { sound := hs
      known := fun x hx => by
        obtain rfl := List.mem_singleton.1 hx
        exact hs.queued x hw
      idle := nofun
      waking := nofun }
  waiterSeq := rfl
  settles _ := rfl
  unresolved _ := nofun

/-- The pump rests over an empty queue. -/
theorem Sound.rests (hs : s.Sound) (served : Served) (h : s.Calm) :
    s.Goes ({ s with served, phase := .idle }, []) :=
  .silent ⟨hs, fun _ hx => absurd hx List.not_mem_nil, fun _ => h, nofun⟩ rfl fun _ => rfl

theorem Sound.queue_eq_nil (hs : s.Sound) (h : (s.pick c).2 = none) : s.queue = [] :=
  List.eq_nil_iff_forall_not_mem.2 fun w hw =>
    Bool.noConfusion ((hs.unsettled w hw).symm.trans (pick_eq_none h w hw))

theorem Sound.round (hs : s.Sound) : s.Goes (s.round c) := by
  have hcancelled : ({ s with repump := false }.cancelWake).Sound := Sound.cancelWake hs
  simp only [BudgetManager.round]
  cases hpick : ({ s with repump := false }.cancelWake.pick c).2 with
  | none =>
    have hrests := hcancelled.rests ({ s with repump := false }.cancelWake.pick c).1
      (.inl (hcancelled.queue_eq_nil hpick))
    exact hrests.from rfl fun _ => rfl
  | some w =>
    have hpicked := hcancelled.picked ({ s with repump := false }.cancelWake.pick c).1
      (pick_mem hpick).1
    exact hpicked.from rfl fun _ => rfl

/-- Where nobody has set `repump`, the pump may rest. -/
theorem Sound.endRound (hs : s.Sound) (h : s.repump = false → s.Calm) : s.Goes (s.endRound c) := by
  rw [BudgetManager.endRound]
  split
  · exact hs.round
  · next hrepump => exact hs.rests _ (h (Bool.eq_false_iff.2 hrepump))

theorem Sound.next (hs : s.Sound) : s.Goes (s.next c) := by
  simp only [BudgetManager.next]
  cases hpick : (s.pick c).2 with
  | none =>
    have hend := Sound.endRound (c := c) (s := { s with served := (s.pick c).1 }) hs
      fun _ => .inl (hs.queue_eq_nil hpick)
    exact hend.from rfl fun _ => rfl
  | some w => exact hs.picked _ (pick_mem hpick).1

/-- The pump runs, or whoever runs it will go round again. -/
theorem Sound.pump (hs : s.Sound) (hknown : ∀ x ∈ s.phase.waiters, x.seq ≤ s.waiterSeq) :
    s.Goes (s.pump c) := by
  rw [BudgetManager.pump]
  split
  · exact hs.round
  · next hphase =>
    exact .silent ⟨hs, hknown, fun h => absurd h hphase, fun _ _ _ h => Bool.noConfusion h⟩ rfl
      fun _ => rfl

theorem Goes.trans {r r' : BudgetManager × List BudgetLabel} (h : s.Goes r) (h' : r.1.Goes r') :
    s.Goes (showing r.2 r') where
  invariant := h'.invariant
  waiterSeq := h'.waiterSeq.trans h.waiterSeq
  settles n := by
    rw [showing, settlements_append, ← Nat.add_assoc, ← h.settles n]
    exact h'.settles n
  unresolved x hx := (List.mem_append.1 hx).elim (h.unresolved x) (h'.unresolved x)

/-- The settlement itself, before what it leads to. -/
theorem settle_settles (hunsettled : (s.status w.seq).settled = false) {r : BudgetManager}
    {labels : List BudgetLabel} (label : BudgetLabel)
    (hlabel : ∀ n, label.settles n = decide (w.seq = n))
    (h : ∀ n, (r.status n).settled.toNat =
      ((s.settle w).status n).settled.toNat + settlements n labels) (n : Nat) :
    (r.status n).settled.toNat =
      (s.status n).settled.toNat + settlements n (label :: labels) := by
  rw [h n, settle_status, settlements, settlements, List.countP_cons, hlabel]
  by_cases hn : n = w.seq
  · rw [if_pos hn, if_pos (decide_eq_true hn.symm), hn, hunsettled]
    exact (Nat.add_comm _ _).trans (Nat.zero_add _).symm
  · rw [if_neg hn, if_neg (by simpa using Ne.symm hn)]
    rfl

theorem Goes.rejected (hunsettled : (s.status w.seq).settled = false) {error : JsError}
    {r : BudgetManager × List BudgetLabel} (h : (s.settle w).Goes r) :
    s.Goes (showing [.rejected w error] r) where
  invariant := h.invariant
  waiterSeq := h.waiterSeq
  settles := settle_settles hunsettled _ (fun _ => rfl) h.settles
  unresolved x hx := (List.mem_cons.1 hx).elim nofun (h.unresolved x)

/-- A waiter that is still waiting is rejected, and the pump runs. -/
theorem Sound.fails (hs : s.Sound) (hknown : ∀ x ∈ s.phase.waiters, x.seq ≤ s.waiterSeq)
    (hw : w.seq ≤ s.waiterSeq) (hunsettled : (s.status w.seq).settled = false) (error : JsError) :
    s.Goes (showing (s.fail w error).2 ((s.fail w error).1.pump c)) :=
  Goes.rejected hunsettled ((hs.settle hw).pump hknown)

theorem Invariant.abort (h : s.Invariant) (hw : w.seq ≤ s.waiterSeq) (reason : Option JsError) :
    s.Goes (s.abort c w reason) := by
  simp only [BudgetManager.abort]
  split
  · exact .silent h rfl fun _ => rfl
  · next hunsettled => exact h.sound.fails h.known hw (Bool.eq_false_iff.2 hunsettled) _

theorem Sound.expire (hs : s.Sound) (hknown : ∀ x ∈ s.phase.waiters, x.seq ≤ s.waiterSeq)
    (hw : w.seq ≤ s.waiterSeq) (hunsettled : (s.status w.seq).settled = false) :
    s.Goes (s.expire c w) := by
  simp only [BudgetManager.expire, hunsettled]
  exact hs.fails hknown hw hunsettled _

theorem Invariant.expire (h : s.Invariant) (hw : w.seq ≤ s.waiterSeq) :
    s.Goes (s.expire c w) := by
  cases hsettled : (s.status w.seq).settled with
  | true =>
    simp only [BudgetManager.expire, hsettled]
    exact .silent h rfl fun _ => rfl
  | false => exact h.sound.expire h.known hw hsettled

/-- A grant resolves its waiter and nothing else. -/
theorem Sound.grant (hs : s.Sound) (hw : w.seq ≤ s.waiterSeq) :
    ∃ rest, (s.grant c w).2 = .resolved w :: rest ∧
      (s.settle w).Goes ((s.grant c w).1, rest) := by
  have hsettled := hs.settle hw
  simp only [BudgetManager.grant]
  split
  · refine ⟨_, rfl, ⟨hsettled, fun _ hx => absurd hx List.not_mem_nil, nofun, nofun⟩, rfl, ?_, ?_⟩
    · intro n
      rfl
    · intro x
      nofun
  · have hnext := fun served grantSeq =>
      Sound.next (c := c) (s := { s.settle w with served, grantSeq }) hsettled
    exact ⟨_, rfl, (hnext _ _).from rfl fun _ => rfl⟩

theorem Sound.scheduleWake (hs : s.Sound) (retryInMs : Option ℚ) :
    s.Goes (s.scheduleWake c retryInMs) := by
  simp only [BudgetManager.scheduleWake]
  split
  · next hqueue => exact hs.endRound fun _ => .inl hqueue
  · refine .silent ⟨?_, fun _ hx => absurd hx List.not_mem_nil, nofun, fun token handle _ _ => ?_⟩
      rfl fun _ => rfl
    · exact Sound.setTimeout (s := { s.cancelWake with
        wakeToken := some s.nextToken, nextToken := s.nextToken + 1 }) hs.cancelWake nofun
    · exact .inr ⟨_, List.mem_append_right _ (List.mem_singleton_self _), s.nextToken, rfl, rfl⟩

theorem Sound.armDeadlines (hs : s.Sound) (hknown : ∀ x ∈ s.phase.waiters, x.seq ≤ s.waiterSeq)
    (now : Int) (retryInMs : Option ℚ) {rest : List Waiter}
    (hrest : ∀ x ∈ rest, x.seq ≤ s.waiterSeq) :
    s.Goes (s.armDeadlines c now retryInMs rest) := by
  induction rest generalizing s with
  | nil => exact hs.scheduleWake retryInMs
  | cons w rest ih =>
    have hw := hrest w List.mem_cons_self
    have hlater := fun x hx => hrest x (List.mem_cons_of_mem w hx)
    simp only [BudgetManager.armDeadlines]
    split
    · exact ih hs hknown hlater
    · split
      · exact ih hs hknown hlater
      · next hskip =>
        have hunsettled : (s.status w.seq).settled = false := by
          cases hsettled : (s.status w.seq).settled with
          | true => exact absurd (by rw [hsettled]; rfl) hskip
          | false => rfl
        have hsame := fun n => setStatus_settled (s := s) (w := w)
          (f := fun st => { st with deadlineArmed := true }) (fun _ => rfl) n
        have harmed := hs.setStatus (w := w) (f := fun st => { st with deadlineArmed := true })
          fun _ => rfl
        split
        · -- the deadline has passed: the waiter is rejected, and the loop goes on
          have hexpire := harmed.expire (c := c) hknown hw ((hsame w.seq).trans hunsettled)
          have hloop := hexpire.trans (ih hexpire.invariant.sound hexpire.invariant.known
            fun x hx => (hlater x hx).trans_eq hexpire.waiterSeq.symm)
          exact hloop.from rfl hsame
        · refine .silent ⟨?_, fun x hx => ?_, nofun, nofun⟩ rfl hsame
          · refine Sound.setTimeout harmed fun x hx => ?_
            obtain rfl := TimerCallback.expire.inj hx
            exact hw
          · exact (List.mem_cons.1 hx).elim (fun heq => heq ▸ hw) (hlater x)

/-! ## Steps -/

/-- A step accounts for what it settles, and takes before it resolves. -/
structure Accounts (s : BudgetManager) (r : BudgetManager × List BudgetLabel) : Prop where
  invariant : r.1.Invariant
  settles : ∀ n, (r.1.status n).settled.toNat =
    (s.status n).settled.toNat + settlements n r.2
  backed : ∀ before w after, r.2 = before ++ .resolved w :: after →
    .took w.seq w.cost ∈ before

theorem Goes.accounts {r : BudgetManager × List BudgetLabel} (h : s.Goes r) : s.Accounts r where
  invariant := h.invariant
  settles := h.settles
  backed _ w _ heq := absurd (heq ▸ List.mem_append_right _ List.mem_cons_self) (h.unresolved w)

/-- Nothing but the take is shown before the answer is dealt with. -/
theorem Goes.took {r : BudgetManager × List BudgetLabel} (h : s.Goes r) (seq : Nat) (cost : ℚ) :
    s.Goes (showing [.took seq cost] r) where
  invariant := h.invariant
  waiterSeq := h.waiterSeq
  settles n := by
    rw [showing, settlements_append]
    exact (h.settles n).trans (congrArg _ (Nat.zero_add _).symm)
  unresolved x hx := (List.mem_cons.1 hx).elim nofun (h.unresolved x)

theorem Sound.granted (hs : s.Sound) (hw : w.seq ≤ s.waiterSeq)
    (hunsettled : (s.status w.seq).settled = false) :
    s.Accounts (showing [.took w.seq w.cost] (s.grant c w)) := by
  obtain ⟨rest, hlabels, hgoes⟩ := hs.grant (c := c) hw
  refine ⟨hgoes.invariant, fun n => ?_, fun before x after heq => ?_⟩
  · have hsettles := settle_settles hunsettled (.resolved w) (fun _ => rfl) hgoes.settles n
    rw [showing, settlements_append, hlabels]
    exact hsettles.trans (congrArg _ (Nat.zero_add _).symm)
  · rw [showing, hlabels] at heq
    cases before with
    | nil => cases heq
    | cons label before =>
      have hhead : .took w.seq w.cost = label := (List.cons.inj heq).1
      have htail : .resolved w :: rest = before ++ .resolved x :: after := (List.cons.inj heq).2
      cases before with
      | nil =>
        obtain rfl := BudgetLabel.resolved.inj (List.cons.inj htail).1
        rw [hhead]
        exact List.mem_cons_self
      | cons label' before =>
        have hrest : rest = before ++ .resolved x :: after := (List.cons.inj htail).2
        exact absurd (hrest ▸ List.mem_append_right _ List.mem_cons_self) (hgoes.unresolved x)

/-- The timer that has fired is taken out; another one that was armed still is. -/
theorem Invariant.dropTimer (h : s.Invariant) {t : PendingTimer} (ht : t ∈ s.timers)
    (hstale : ∀ token, t.callback = .wake token → s.wakeToken ≠ some token) :
    { s with timers := s.timers.filter fun x => x.handle ≠ t.handle }.Invariant := by
  have hcalm : s.Calm →
      { s with timers := s.timers.filter fun x => x.handle ≠ t.handle }.Calm := by
    rintro (hqueue | ⟨x, hx, token, htoken, hcallback⟩)
    · exact .inl hqueue
    · refine .inr ⟨x, List.mem_filter.2 ⟨hx, decide_eq_true fun hhandle => ?_⟩, token, htoken,
        hcallback⟩
      obtain rfl := List.inj_on_of_nodup_map h.sound.handles hx ht hhandle
      exact hstale token hcallback htoken
  exact ⟨h.sound.filterTimers _, h.known, fun hidle => hcalm (h.idle hidle),
    fun token handle hphase hrepump => hcalm (h.waking token handle hphase hrepump)⟩

/-- A pending timer fires. -/
theorem Invariant.fire (h : s.Invariant) {t : PendingTimer} (ht : t ∈ s.timers) :
    s.Goes ({ s with timers := s.timers.filter fun x => x.handle ≠ t.handle }.runCallback c
      t.callback) := by
  cases hcallback : t.callback with
  | expire w =>
    have hkept := h.dropTimer ht fun token hwake => by rw [hcallback] at hwake; cases hwake
    have hexpire := hkept.expire (c := c) (h.sound.timed t ht w hcallback)
    exact hexpire.from rfl fun _ => rfl
  | wake token =>
    simp only [runCallback]
    split
    · have hpump := Sound.pump (c := c) (s := { s with
        timers := s.timers.filter fun x => x.handle ≠ t.handle
        wakeToken := none
        wakeHandle := none }) (h.sound.filterTimers _) h.known
      exact hpump.from rfl fun _ => rfl
    · next hother =>
      refine .silent (h.dropTimer ht fun token' hwake => ?_) rfl fun _ => rfl
      rw [hcallback] at hwake
      exact TimerCallback.wake.inj hwake ▸ hother

theorem Invariant.dropListener (h : s.Invariant) (p : Waiter → Bool) :
    { s with listeners := s.listeners.filter p }.Invariant where
  sound := { h.sound with listening := fun w hw => h.sound.listening w (List.mem_of_mem_filter hw) }
  known := h.known
  idle := h.idle
  waking := h.waking

theorem le_push (hw : w.seq = s.waiterSeq + 1) : s.waiterSeq ≤ (s.push w).waiterSeq :=
  (Nat.le_succ _).trans_eq hw.symm

theorem push_status (hs : s.Sound) (hw : w.seq = s.waiterSeq + 1) (n : Nat) :
    ((s.push w).status n).settled = (s.status n).settled := by
  simp only [push, BudgetManager.setStatus]
  by_cases hn : n = w.seq
  · rw [hn, Function.update_self, hs.unborn w.seq (hw ▸ Nat.lt_succ_self _)]
  · rw [Function.update_of_ne hn]

/-- A new waiter joins the queue. -/
theorem Sound.push (hs : s.Sound) (hw : w.seq = s.waiterSeq + 1) : (s.push w).Sound where
  distinct := by
    simp only [BudgetManager.push, List.map_append, List.map_singleton]
    refine List.nodup_append.2 ⟨hs.distinct, List.nodup_singleton _, ?_⟩
    rintro _ hold _ hnew rfl
    obtain ⟨x, hx, heq⟩ := List.mem_map.1 hold
    have hle := hs.queued x hx
    rw [heq, List.mem_singleton.1 hnew, hw] at hle
    exact Nat.not_succ_le_self _ hle
  unsettled x hx := by
    rw [push_status hs hw]
    rcases List.mem_append.1 hx with hold | hnew
    · exact hs.unsettled x hold
    · rw [List.mem_singleton.1 hnew]
      exact hs.unborn w.seq (hw ▸ Nat.lt_succ_self _)
  queued x hx := by
    rcases List.mem_append.1 hx with hold | hnew
    · exact (hs.queued x hold).trans (le_push hw)
    · rw [List.mem_singleton.1 hnew]
      exact Nat.le_refl _
  listening x hx := by
    simp only [BudgetManager.push] at hx
    split at hx
    · rcases List.mem_append.1 hx with hold | hnew
      · exact (hs.listening x hold).trans (le_push hw)
      · rw [List.mem_singleton.1 hnew]
        exact Nat.le_refl _
    · exact (hs.listening x hx).trans (le_push hw)
  timed t ht x hx := (hs.timed t ht x hx).trans (le_push hw)
  unborn n hn := by
    rw [push_status hs hw]
    exact hs.unborn n ((Nat.lt_succ_self _).trans (hw.symm.trans_lt hn))
  handles := hs.handles
  handle_lt := hs.handle_lt

theorem Invariant.enqueue (h : s.Invariant) (hw : w.seq = s.waiterSeq + 1) :
    s.Accounts (s.enqueue c w) := by
  have hpump := (h.sound.push hw).pump (c := c)
    fun x hx => (h.known x hx).trans (le_push hw)
  refine ⟨hpump.invariant, fun n => ?_, fun before x after heq => ?_⟩
  · rw [← push_status h.sound hw n, BudgetManager.enqueue, showing, settlements_append]
    exact (hpump.settles n).trans (congrArg _ (Nat.zero_add _).symm)
  · cases before with
    | nil => cases heq
    | cons label before =>
      have hrest : ((s.push w).pump c).2 = before ++ .resolved x :: after := (List.cons.inj heq).2
      exact absurd (hrest ▸ List.mem_append_right _ List.mem_cons_self) (hpump.unresolved x)

theorem Invariant.acquire (h : s.Invariant) (opts : AcquireOptions) :
    s.Accounts (s.acquire c opts) := by
  have hshows : ∀ label : BudgetLabel, (∀ n, label.settles n = false) → (∀ w, label ≠ .resolved w) →
      s.Accounts (s, [label]) := by
    intro label hsettles hresolved
    refine ⟨h, fun n => ?_, fun before w after heq => ?_⟩
    · rw [settlements, List.countP_cons, if_neg (by rw [hsettles]; exact Bool.false_ne_true)]
      rfl
    · refine absurd ?_ (hresolved w)
      have hlabels : [label] = before ++ .resolved w :: after := heq
      exact (List.mem_singleton.1 (hlabels ▸ List.mem_append_right _ List.mem_cons_self)).symm
  rw [BudgetManager.acquire]
  split
  · exact hshows _ (fun _ => rfl) fun _ h => BudgetLabel.noConfusion h
  · split
    · exact hshows _ (fun _ => rfl) fun _ h => BudgetLabel.noConfusion h
    split
    · exact hshows _ (fun _ => rfl) fun _ h => BudgetLabel.noConfusion h
    split
    · exact hshows _ (fun _ => rfl) fun _ h => BudgetLabel.noConfusion h
    split
    · exact hshows _ (fun _ => rfl) fun _ h => BudgetLabel.noConfusion h
    · exact h.enqueue rfl

/-- The pump goes on once the store has answered. -/
theorem Invariant.onAnswer (h : s.Invariant) {r : BudgetManager × List BudgetLabel}
    {P : BudgetManager × List BudgetLabel → Prop} (hsettled : ∀ r, s.Goes r → P r)
    (hunsettled : (s.status w.seq).settled = false → P r) : P (s.onAnswer c w r) := by
  rw [BudgetManager.onAnswer]
  split
  · exact hsettled _ h.sound.next
  · next hnot => exact hunsettled (Bool.eq_false_iff.2 hnot)

theorem Invariant.step (h : s.Invariant) {e : BudgetEvent} {r : BudgetManager × List BudgetLabel}
    (hstep : s.step c e = some r) : s.Accounts r := by
  cases e with
  | acquire opts =>
    obtain rfl := Option.some.inj hstep
    exact h.acquire opts
  | abort seq reason =>
    obtain ⟨w, hfind, rfl⟩ := Option.map_eq_some_iff.1 hstep
    have hw := h.sound.listening w (List.mem_of_find?_eq_some hfind)
    have habort := (h.dropListener fun x => x.seq ≠ seq).abort (c := c) (w := w) hw reason
    exact ⟨habort.invariant, habort.settles, habort.accounts.backed⟩
  | fire handle =>
    obtain ⟨t, hfind, rfl⟩ := Option.map_eq_some_iff.1 hstep
    have hhandle : t.handle = handle := 
      of_decide_eq_true (List.find?_some (p := fun t : PendingTimer => t.handle = handle) hfind)
    rw [← hhandle]
    exact (h.fire (List.mem_of_find?_eq_some hfind)).accounts
  -- a take that was granted: the waiter is resolved, unless it was settled meanwhile
  | taken =>
    simp only [BudgetManager.step] at hstep
    split at hstep
    · next w hphase =>
      obtain rfl := Option.some.inj hstep
      have hw : w.seq ≤ s.waiterSeq := h.known w (by rw [hphase]; exact List.mem_singleton_self w)
      exact h.onAnswer (P := fun r => s.Accounts (showing [.took w.seq w.cost] r))
        (fun r hr => (hr.took w.seq w.cost).accounts) (h.sound.granted hw)
    · cases hstep
  -- a refused take arms the deadlines of all that wait
  | refused retryInMs =>
    simp only [BudgetManager.step] at hstep
    split at hstep
    · next w hphase =>
      obtain rfl := Option.some.inj hstep
      exact (h.onAnswer (P := s.Goes) (fun r hr => hr) fun _ =>
        h.sound.armDeadlines h.known s.clock retryInMs h.sound.queued).accounts
    · cases hstep
  | failed error =>
    simp only [BudgetManager.step] at hstep
    split at hstep
    · next w hphase =>
      obtain rfl := Option.some.inj hstep
      have hw : w.seq ≤ s.waiterSeq := h.known w (by rw [hphase]; exact List.mem_singleton_self w)
      exact (h.onAnswer (P := s.Goes) (fun r hr => hr) fun hunsettled =>
        Goes.rejected hunsettled (h.sound.settle hw).next).accounts
    · cases hstep
  -- a call outside returns: each of the three places goes on from where it stopped
  | returns =>
    simp only [BudgetManager.step] at hstep
    split at hstep
    · obtain rfl := Option.some.inj hstep
      exact h.sound.next.accounts
    · next now retryInMs w handle rest hphase =>
      obtain rfl := Option.some.inj hstep
      -- the deadline timer of `w` is known now; the loop goes on over the rest
      have hknown : ∀ x ∈ w :: rest, x.seq ≤ s.waiterSeq := by
        have hall := h.known
        rw [hphase] at hall
        exact hall
      have hsame := fun n => setStatus_settled (s := s) (w := w)
        (f := fun st => { st with timeoutHandle := some handle }) (fun _ => rfl) n
      have hgoes := (h.sound.setStatus (w := w)
        (f := fun st => { st with timeoutHandle := some handle }) fun _ => rfl).armDeadlines
          (c := c) h.known now retryInMs fun x hx => hknown x (List.mem_cons_of_mem w hx)
      exact ⟨hgoes.invariant, fun n => hsame n ▸ hgoes.settles n, hgoes.accounts.backed⟩
    · next token handle hphase =>
      obtain rfl := Option.some.inj hstep
      have hcalm := h.waking token handle hphase
      split
      · have hend := Sound.endRound (c := c) (s := { s with wakeHandle := some handle })
          h.sound hcalm
        exact ⟨hend.invariant, hend.settles, hend.accounts.backed⟩
      · exact (h.sound.endRound hcalm).accounts
    · cases hstep
  | elsewhere =>
    obtain rfl := Option.some.inj hstep
    have hle : ∀ {n : Nat}, n ≤ s.waiterSeq → n ≤ s.waiterSeq + 1 := Nat.le_succ_of_le
    refine ⟨⟨{ h.sound with
        queued := fun w hw => hle (h.sound.queued w hw)
        listening := fun w hw => hle (h.sound.listening w hw)
        timed := fun t ht w hw => hle (h.sound.timed t ht w hw)
        unborn := fun n hn => h.sound.unborn n ((Nat.lt_succ_self _).trans hn) },
      fun w hw => hle (h.known w hw), h.idle, h.waking⟩, fun n => rfl, fun before w after heq => ?_⟩
    cases before <;> cases heq
  | tick ms =>
    obtain rfl := Option.some.inj hstep
    exact ⟨⟨h.sound, h.known, h.idle, h.waking⟩, fun n => rfl, fun before w after heq => by
      cases before <;> cases heq⟩

theorem Accounts.run_append {before before' : List BudgetLabel}
    (hback : ∀ (pre : List BudgetLabel) (w : Waiter) (after : List BudgetLabel),
      before = pre ++ .resolved w :: after → .took w.seq w.cost ∈ pre)
    (hback' : ∀ (pre : List BudgetLabel) (w : Waiter) (after : List BudgetLabel),
      before' = pre ++ .resolved w :: after → .took w.seq w.cost ∈ pre)
    {pre after : List BudgetLabel} (h : before ++ before' = pre ++ .resolved w :: after) :
    .took w.seq w.cost ∈ pre := by
  rcases List.append_eq_append_iff.1 h with ⟨rest, rfl, hrest⟩ | ⟨rest, hbefore, hrest⟩
  · exact List.mem_append_right _ (hback' rest w after hrest)
  -- the resolution lies in the first run, or is the first label of the second
  · cases rest with
    | nil => exact absurd (hback' [] w after hrest.symm) List.not_mem_nil
    | cons label rest =>
      obtain ⟨rfl, -⟩ := List.cons.inj hrest
      exact hback pre w rest hbefore

/-- A run accounts for what it settles, and takes before it resolves. -/
theorem Invariant.run (h : s.Invariant) {events : List BudgetEvent}
    {r : BudgetManager × List BudgetLabel} (hrun : s.run c events = some r) : s.Accounts r := by
  induction events generalizing s r with
  | nil =>
    obtain rfl := Option.some.inj hrun
    exact ⟨h, fun _ => rfl, fun before _ _ heq => by cases before <;> cases heq⟩
  | cons e events ih =>
    obtain ⟨r₁, hstep, hrest⟩ := Option.bind_eq_some_iff.1 hrun
    obtain ⟨r₂, hrun₂, rfl⟩ := Option.map_eq_some_iff.1 hrest
    have hfirst := h.step hstep
    have hlater := ih hfirst.invariant hrun₂
    refine ⟨hlater.invariant, fun n => ?_, fun before w after heq => ?_⟩
    · rw [settlements_append, ← Nat.add_assoc, ← hfirst.settles n]
      exact hlater.settles n
    · exact Accounts.run_append hfirst.backed hlater.backed heq

theorem Invariant.fresh (clock : Int) : ({ clock } : BudgetManager).Invariant where
  sound :=
    { distinct := List.nodup_nil
      unsettled := fun _ h => absurd h List.not_mem_nil
      queued := fun _ h => absurd h List.not_mem_nil
      listening := fun _ h => absurd h List.not_mem_nil
      timed := fun _ h => absurd h List.not_mem_nil
      unborn := fun _ _ => rfl
      handles := List.nodup_nil
      handle_lt := fun _ h => absurd h List.not_mem_nil }
  known := fun _ h => absurd h List.not_mem_nil
  idle _ := .inl rfl
  waking := nofun

theorem pump_idle (h : s.phase = .idle) : s.pump c = s.round c := by
  rw [BudgetManager.pump, h]

/-- A round over waiters picks one. -/
theorem Sound.round_picks (hs : s.Sound) (hqueue : s.queue ≠ []) :
    ∃ w s', s.round c = (s', [.picked w]) := by
  simp only [BudgetManager.round]
  cases hpick : ({ s with repump := false }.cancelWake.pick c).2 with
  | none => exact absurd (Sound.queue_eq_nil (Sound.cancelWake hs) hpick) hqueue
  | some w => exact ⟨w, _, rfl⟩

/-- The wake-up timer is not in vain: when it fires, a waiter is picked. -/
theorem Invariant.wakes (h : s.Invariant) (hidle : s.phase = .idle) (hqueue : s.queue ≠ [])
    (hwake : s.WakePending) :
    ∃ handle w s', s.step c (.fire handle) = some (s', [.picked w]) := by
  obtain ⟨t, ht, token, htoken, hcallback⟩ := hwake
  have hfind : s.timers.find? (fun x => x.handle = t.handle) = some t := by
    cases hfound : s.timers.find? (fun x => x.handle = t.handle) with
    | none => exact absurd (decide_eq_true rfl) (List.find?_eq_none.1 hfound t ht)
    | some x =>
      have hhandle : x.handle = t.handle := of_decide_eq_true
        (List.find?_some (p := fun x : PendingTimer => x.handle = t.handle) hfound)
      rw [List.inj_on_of_nodup_map h.sound.handles (List.mem_of_find?_eq_some hfound) ht hhandle]
  have hfired := h.sound.filterTimers fun x => x.handle ≠ t.handle
  obtain ⟨w, s', hround⟩ := Sound.round_picks (c := c) (s := { s with
    timers := s.timers.filter fun x => x.handle ≠ t.handle
    wakeToken := none
    wakeHandle := none }) hfired hqueue
  refine ⟨t.handle, w, s', ?_⟩
  simp only [BudgetManager.step, hfind, Option.map_some, hcallback, runCallback, if_pos htoken]
  rw [pump_idle (by exact hidle), hround]

theorem pump_labels {label : BudgetLabel} (h : label ∈ (s.pump c).2) : ∃ w, label = .picked w := by
  rw [BudgetManager.pump] at h
  split at h
  · simp only [BudgetManager.round] at h
    split at h
    · exact ⟨_, List.mem_singleton.1 h⟩
    · cases h
  · cases h

/-- An `acquire` that resolves at once asks for nothing. -/
theorem resolvedAtOnce_cost {opts : AcquireOptions}
    (h : .resolvedAtOnce ∈ (s.acquire c opts).2) : opts.cost = some 0 := by
  rw [BudgetManager.acquire] at h
  split at h
  · cases List.mem_singleton.1 h
  · next cost hcost =>
    split at h
    · cases List.mem_singleton.1 h
    split at h
    · cases List.mem_singleton.1 h
    split at h
    · next hfree => rw [hcost, hfree]
    split at h
    · cases List.mem_singleton.1 h
    · rcases List.mem_cons.1 h with hqueued | hpump
      · cases hqueued
      · obtain ⟨w, hpicked⟩ := pump_labels hpump
        cases hpicked

end BudgetManager

/-! ## Settled once, woken always -/

/-- In every run, each waiter is settled at most once, and resolved only after a take of its cost;
the queue has only waiters that are not settled; and when the pump rests over a queue that is not
empty, the wake-up timer is armed, and a waiter is picked when it fires. Only an `acquire` of no cost resolves at once. -/
theorem requests_settle_once (c : ManagerConfig) (clock : Int) {events : List BudgetEvent}
    {s : BudgetManager} {labels : List BudgetLabel}
    (hrun : ({ clock } : BudgetManager).run c events = some (s, labels)) :
    (∀ n, settlements n labels ≤ 1) ∧
    (∀ before w after, labels = before ++ .resolved w :: after →
      .took w.seq w.cost ∈ before) ∧
    (∀ w ∈ s.queue, (s.status w.seq).settled = false ∧ settlements w.seq labels = 0) ∧
    (s.phase = .idle → s.queue ≠ [] → s.WakePending ∧
      ∃ handle w s', s.step c (.fire handle) = some (s', [.picked w])) ∧
    ∀ (m : BudgetManager) (opts : AcquireOptions),
      .resolvedAtOnce ∈ (m.acquire c opts).2 → opts.cost = some 0 := by
  have haccounts := (BudgetManager.Invariant.fresh clock).run hrun
  have hcount : ∀ n, settlements n labels = (s.status n).settled.toNat := fun n =>
    ((haccounts.settles n).trans (Nat.zero_add _)).symm
  refine ⟨fun n => ?_, haccounts.backed, fun w hw => ?_, fun hidle hqueue => ?_,
    fun _ _ => BudgetManager.resolvedAtOnce_cost⟩
  · rw [hcount]
    exact Bool.toNat_le _
  · have hunsettled := haccounts.invariant.sound.unsettled w hw
    exact ⟨hunsettled, (hcount w.seq).trans (congrArg Bool.toNat hunsettled)⟩
  · have hwake := (haccounts.invariant.idle hidle).resolve_left hqueue
    exact ⟨hwake, haccounts.invariant.wakes hidle hqueue hwake⟩

def erpBudget : ManagerConfig where
  name := "erp"
  fairness := .roundRobin
  maxWaitMs := none
  hooked := false

/-- A live request of weight 1. -/
def requestOf (requester : String) (cost : ℚ) : BudgetEvent :=
  .acquire
    { requester, weight := 1, lane := .live, cost := some cost, signal := none, maxWaitMs := none }

/-- A request that is refused waits under a wake-up timer. -/
theorem requests_settle_once_sample :
    ∃ s labels, ({ clock := 0 } : BudgetManager).run erpBudget
        [requestOf "a" 1, .refused (some 1000), .returns] = some (s, labels) ∧
      s.queue ≠ [] ∧ s.WakePending := by
  refine ⟨_, _, rfl, nofun, ?_⟩
  have hrun : ({ clock := 0 } : BudgetManager).run erpBudget
      [requestOf "a" 1, .refused (some 1000), .returns] = some (_, _) := rfl
  exact ((requests_settle_once erpBudget 0 hrun).2.2.2.1 rfl nofun).1

/-- A request of no cost is resolved without a take. -/
theorem free_request_takes_nothing :
    (({ clock := 0 } : BudgetManager).run erpBudget [requestOf "a" 0]).map (·.2) =
      some [.resolvedAtOnce] := rfl

end Watukuy
