import Watukuy.Library.WorkerPool
import Watukuy.Core.Partitions
import Watukuy.Core.Runner

/-!
# One pass over all keys

`tick` of `core/engine.ts`: workers take the selected keys from one queue, run each (`runOne`) and add
up what the runs report. What a run does is up to the runner; here it is what a run reports, or that it
throws, and any interleaving of the workers with the clock is a run. `Promise.all` resolves once every
worker has left.
-/

set_option autoImplicit false

namespace Watukuy

open Library

/-- `TICK_CONCURRENCY`. -/
def tickConcurrency : Nat := 4

/-! ## Keys -/

/-- The partitions of a poller. A list that was refreshed has passed `checkList`. -/
structure PollerRuntime where
  name : String
  partitions : List String
  distinct : partitions.Nodup

/-- The pollers of an engine, by name. -/
structure Pollers where
  runtimes : List PollerRuntime
  distinct : (runtimes.map (·.name)).Nodup

theorem PartitionConfig.checkList_nodup (cfg : PartitionConfig) {entries : List (Option String)}
    {seen keys : List String} (hseen : seen.Nodup) (h : cfg.checkList entries seen = .ok keys) :
    keys.Nodup := by
  induction entries generalizing seen with
  | nil =>
    obtain rfl := Except.ok.inj h
    exact hseen
  | cons entry entries ih =>
    cases entry with
    | none => cases h
    | some key =>
      rw [PartitionConfig.checkList] at h
      split at h
      · cases h
      · split at h
        · cases h
        · next hnew =>
          apply ih _ h
          rw [List.nodup_append]
          refine ⟨hseen, List.nodup_singleton key, ?_⟩
          intro a ha b hb heq
          rw [List.mem_singleton.1 hb] at heq
          exact hnew (heq ▸ ha)

/-- The runtime of a poller after a refresh. -/
def PartitionConfig.refreshed (cfg : PartitionConfig) {entries : List (Option String)}
    {keys : List String} (h : cfg.checkList entries [] = .ok keys) : PollerRuntime where
  name := cfg.poller
  partitions := keys
  distinct := cfg.checkList_nodup List.nodup_nil h

/-- The runtime of a poller without partitions. -/
def PollerRuntime.single (name : String) : PollerRuntime where
  name := name
  partitions := [""]
  distinct := List.nodup_singleton ""

namespace Pollers

/-- `allKeys`. -/
def allKeys (pollers : Pollers) : List PKey :=
  pollers.runtimes.flatMap fun rt => rt.partitions.map fun partition => { poller := rt.name, partition }

theorem allKeys_nodup (pollers : Pollers) : pollers.allKeys.Nodup := by
  rw [allKeys, List.nodup_flatMap]
  constructor
  · intro rt _
    apply rt.distinct.map
    intro a b h
    exact congrArg PKey.partition h
  · refine List.Pairwise.imp ?_ (List.pairwise_map.1 pollers.distinct)
    intro rt rt' hne key hkey hkey'
    obtain ⟨p, -, rfl⟩ := List.mem_map.1 hkey
    obtain ⟨p', -, heq⟩ := List.mem_map.1 hkey'
    exact hne (congrArg PKey.poller heq).symm

end Pollers

/-! ## The pass -/

structure TickOptions where
  maxDuration : Option Int := none
  only : Option (List String) := none

structure TickResult where
  polled : List TickPollResult := []
  delivered : Nat := 0
  skippedLeased : Nat := 0
  skippedNotDue : Nat := 0
  durationMs : Int := 0
  timedOut : Bool := false

/-- What a run adds to `delivered`. -/
def RunKeyResult.delivered (r : RunKeyResult) : Nat :=
  r.drainedBefore + (r.results.map (·.delivered)).sum

/-- A run of a key that was not due, or paused. -/
def RunKeyResult.notDue (r : RunKeyResult) : Bool :=
  r.reason == some .notDue || r.reason == some .paused

/-- What a worker does with the result of a run. -/
def TickResult.add (result : TickResult) (r : RunKeyResult) : TickResult :=
  let skipped :=
    if r.reason = some .leased then { result with skippedLeased := result.skippedLeased + 1 }
    else if r.notDue then { result with skippedNotDue := result.skippedNotDue + 1 }
    else result
  { skipped with
    polled := skipped.polled ++ r.results
    delivered := skipped.delivered + r.delivered
    timedOut := if r.reason = some .aborted then true else skipped.timedOut }

structure Tick where
  startedAt : Int
  deadline : Option Int
  clock : Int
  pool : Pool PKey RunKeyResult
  result : TickResult := {}
  /-- When each run began. -/
  starts : List (PKey × Int) := []

inductive TickStep where
  | passes (ms : Nat)
  /-- A worker shifts a key from the queue and looks at the clock. -/
  | take (w : Nat)
  | finish (w : Nat) (r : RunKeyResult)
  /-- `runOne` throws. -/
  | fail (w : Nat)

namespace Tick

def selected (options : TickOptions) (keys : List PKey) : List PKey :=
  keys.filter fun key => options.only.all fun only => key.poller ∈ only

def begin_ (options : TickOptions) (startedAt : Int) (keys : List PKey) : Tick where
  startedAt := startedAt
  deadline := options.maxDuration.map (startedAt + ·)
  clock := startedAt
  pool := Pool.begin_ (selected options keys) (min tickConcurrency (selected options keys).length)

/-- The deadline has come. -/
def late (t : Tick) : Bool := t.deadline.any fun deadline => decide (deadline ≤ t.clock)

def step (t : Tick) : TickStep → Option Tick
  | .passes ms => some { t with clock := t.clock + ms }
  | .take w =>
    (t.pool.step (.take w t.late)).map fun pool =>
      match t.pool.queue with
      | [] => { t with pool }
      | key :: _ =>
        if t.late then { t with pool, result := { t.result with timedOut := true } }
        else { t with pool, starts := t.starts ++ [(key, t.clock)] }
  | .finish w r =>
    (t.pool.step (.finish w r)).map fun pool => { t with pool, result := t.result.add r }
  | .fail w => (t.pool.step (.fail w)).map fun pool => { t with pool }

def run (t : Tick) : List TickStep → Option Tick
  | [] => some t
  | s :: steps => (t.step s).bind fun t => run t steps

/-- The pass rejects: a run has thrown. -/
def rejected (t : Tick) : Bool := !t.pool.failed.isEmpty

/-- What `tick` resolves to, once every worker has left and none has thrown. -/
def resolved (t : Tick) : Option TickResult :=
  if t.pool.workers.all (· = .left) && !t.rejected then
    some { t.result with durationMs := t.clock - t.startedAt }
  else none

/-! ## Steps -/

theorem add_fields (result : TickResult) (r : RunKeyResult) :
    (result.add r).polled = result.polled ++ r.results ∧
      (result.add r).delivered = result.delivered + r.delivered ∧
      (result.add r).skippedLeased =
        result.skippedLeased + (if r.reason = some .leased then 1 else 0) ∧
      (result.add r).skippedNotDue = result.skippedNotDue + (if r.notDue then 1 else 0) ∧
      (result.add r).timedOut = (result.timedOut || decide (r.reason = some .aborted)) := by
  unfold TickResult.add RunKeyResult.notDue
  cases hr : r.reason with
  | none => simp
  | some reason => cases reason <;> simp

/-- What holds of a pass at each moment. -/
structure Sound (t : Tick) : Prop where
  early : ∀ s ∈ t.starts, ∀ deadline ∈ t.deadline, s.2 < deadline
  begun : (t.starts.map Prod.fst).Perm t.pool.begun
  polled : t.result.polled = t.pool.finished.flatMap fun f => f.2.results
  delivered : t.result.delivered = (t.pool.finished.map fun f => f.2.delivered).sum
  leased : t.result.skippedLeased = t.pool.finished.countP fun f => f.2.reason = some .leased
  notDue : t.result.skippedNotDue = t.pool.finished.countP fun f => f.2.notDue
  timedOut : t.result.timedOut = true ↔
    t.pool.dropped ≠ [] ∨ ∃ f ∈ t.pool.finished, f.2.reason = some .aborted
  ended : t.pool.dropped ≠ [] → t.late = true

theorem Sound.step {t t' : Tick} {s : TickStep} (h : t.Sound) (hs : t.step s = some t') : t'.Sound := by
  cases s with
  | passes ms =>
    obtain rfl := Option.some.inj hs
    refine { h with ended := ?_ }
    intro hdropped
    have hlate := h.ended hdropped
    simp only [late, Option.any_eq_true, decide_eq_true_eq] at hlate ⊢
    obtain ⟨deadline, hd, hle⟩ := hlate
    exact ⟨deadline, hd, by omega⟩
  | take w =>
    obtain ⟨pool, hpool, rfl⟩ := Option.map_eq_some_iff.1 hs
    rcases Pool.step_cases hpool with ⟨w', b, heq, hw, hq, rfl⟩ | ⟨w', key, rest, heq, hw, hq, rfl⟩ |
      ⟨w', key, rest, heq, hw, hq, rfl⟩ | ⟨w', r, key, heq, -, -⟩ | ⟨w', key, heq, -, -⟩
    · -- an empty queue
      rw [hq]
      have hbegun := h.begun
      refine { h with begun := ?_ }
      simpa only [Pool.begun, Pool.underWay, Pool.filterMap_set_left hw] using hbegun
    · -- past the deadline
      obtain ⟨-, hlate⟩ := PoolStep.take.inj heq
      rw [hq]
      simp only [hlate, if_true]
      refine { h with begun := ?_, timedOut := ?_, ended := ?_ }
      · have hbegun := h.begun
        simpa only [Pool.begun, Pool.underWay, Pool.filterMap_set_left hw] using hbegun
      · simp
      · exact fun _ => hlate
    · -- a run begins
      obtain ⟨-, hlate⟩ := PoolStep.take.inj heq
      rw [hq]
      simp only [hlate, Bool.false_eq_true, if_false]
      refine { h with early := ?_, begun := ?_ }
      · intro s hs deadline hd
        rcases List.mem_append.1 hs with hold | hnew
        · exact h.early s hold deadline hd
        · obtain rfl := List.mem_singleton.1 hnew
          by_contra hle
          have hany : t.late = true := by
            rw [late, Option.any_eq_true]
            exact ⟨deadline, hd, decide_eq_true (not_lt.1 hle)⟩
          rw [hany] at hlate
          cases hlate
      · have hbusy := Pool.filterMap_set_busy hw key
        simp only [Pool.begun, Pool.underWay, List.map_append, List.map_cons, List.map_nil]
        refine (h.begun.append_right _).trans ?_
        simp only [Pool.begun, Pool.underWay, List.append_assoc]
        refine List.Perm.append_left _ (List.Perm.append_left _ ?_)
        exact (List.perm_append_singleton key _).trans hbusy.symm
    · cases heq
    · cases heq
  | finish w r =>
    obtain ⟨pool, hpool, rfl⟩ := Option.map_eq_some_iff.1 hs
    rcases Pool.step_cases hpool with ⟨w', b, heq, -⟩ | ⟨w', key, rest, heq, -⟩ |
      ⟨w', key, rest, heq, -⟩ | ⟨w', r', key, heq, hw, rfl⟩ | ⟨w', key, heq, -, -⟩
    · cases heq
    · cases heq
    · cases heq
    · obtain ⟨-, rfl⟩ := PoolStep.finish.inj heq
      obtain ⟨hpolled, hdelivered, hleased, hnotDue, htimed⟩ := add_fields t.result r
      refine { h with begun := ?_, polled := ?_, delivered := ?_, leased := ?_, notDue := ?_,
                      timedOut := ?_ }
      · have hidle := Pool.filterMap_set_idle hw (rfl : (Worker.looking : Worker PKey).job = none)
        refine h.begun.trans ?_
        simp only [Pool.begun, Pool.underWay, List.map_append, List.map_cons, List.map_nil,
          List.append_assoc, List.singleton_append]
        refine List.Perm.append_left _ ?_
        exact (List.Perm.append_left _ hidle).trans List.perm_middle
      · simp [hpolled, h.polled]
      · simp [hdelivered, h.delivered]
      · simp [hleased, h.leased, List.countP_append, List.countP_cons]
      · simp [hnotDue, h.notDue, List.countP_append, List.countP_cons]
      · simp only [htimed, Bool.or_eq_true, h.timedOut, decide_eq_true_eq, List.mem_append,
          List.mem_singleton]
        constructor
        · rintro ((hdrop | ⟨f, hf, hr⟩) | hr)
          · exact Or.inl hdrop
          · exact Or.inr ⟨f, Or.inl hf, hr⟩
          · exact Or.inr ⟨_, Or.inr rfl, hr⟩
        · rintro (hdrop | ⟨f, hf | rfl, hr⟩)
          · exact Or.inl (Or.inl hdrop)
          · exact Or.inl (Or.inr ⟨f, hf, hr⟩)
          · exact Or.inr hr
    · cases heq
  | fail w =>
    obtain ⟨pool, hpool, rfl⟩ := Option.map_eq_some_iff.1 hs
    rcases Pool.step_cases hpool with ⟨w', b, heq, -⟩ | ⟨w', key, rest, heq, -⟩ |
      ⟨w', key, rest, heq, -⟩ | ⟨w', r', key, heq, -, -⟩ | ⟨w', key, heq, hw, rfl⟩
    · cases heq
    · cases heq
    · cases heq
    · cases heq
    · refine { h with begun := ?_ }
      have hidle := Pool.filterMap_set_idle hw (rfl : (Worker.left : Worker PKey).job = none)
      refine h.begun.trans ?_
      simp only [Pool.begun, Pool.underWay, List.append_assoc, List.singleton_append]
      exact List.Perm.append_left _ (List.Perm.append_left _ hidle)

/-! ## Passes -/

/-- A step of a worker. -/
def works : TickStep → Bool
  | .passes _ => false
  | _ => true

theorem step_pool {t t' : Tick} {s : TickStep} (h : t.step s = some t') :
    t'.deadline = t.deadline ∧
      ((works s = false ∧ t'.pool = t.pool) ∨
        works s = true ∧ ∃ s', t.pool.step s' = some t'.pool) := by
  cases s with
  | passes ms =>
    obtain rfl := Option.some.inj h
    exact ⟨rfl, Or.inl ⟨rfl, rfl⟩⟩
  | take w =>
    obtain ⟨pool, hpool, rfl⟩ := Option.map_eq_some_iff.1 h
    cases t.pool.queue with
    | nil => exact ⟨rfl, Or.inr ⟨rfl, _, hpool⟩⟩
    | cons key rest =>
      dsimp only
      split
      · exact ⟨rfl, Or.inr ⟨rfl, _, hpool⟩⟩
      · exact ⟨rfl, Or.inr ⟨rfl, _, hpool⟩⟩
  | finish w r =>
    obtain ⟨pool, hpool, rfl⟩ := Option.map_eq_some_iff.1 h
    exact ⟨rfl, Or.inr ⟨rfl, _, hpool⟩⟩
  | fail w =>
    obtain ⟨pool, hpool, rfl⟩ := Option.map_eq_some_iff.1 h
    exact ⟨rfl, Or.inr ⟨rfl, _, hpool⟩⟩

/-- A pass is a run of the pool. -/
theorem run_pool {steps : List TickStep} {t t' : Tick} (h : t.run steps = some t') :
    t'.deadline = t.deadline ∧
      ∃ moves, t.pool.run moves = some t'.pool ∧ moves.length = steps.countP works := by
  induction steps generalizing t with
  | nil =>
    obtain rfl := Option.some.inj h
    exact ⟨rfl, [], rfl, rfl⟩
  | cons s steps ih =>
    obtain ⟨u, hu, hrest⟩ := Option.bind_eq_some_iff.1 h
    obtain ⟨hdeadline, moves, hmoves, hlen⟩ := ih hrest
    obtain ⟨hsame, ⟨hidle, hpool⟩ | ⟨hworks, s', hs'⟩⟩ := step_pool hu
    · refine ⟨hdeadline.trans hsame, moves, ?_, ?_⟩
      · rw [← hpool]
        exact hmoves
      · rw [List.countP_cons_of_neg (by simp [hidle])]
        exact hlen
    · refine ⟨hdeadline.trans hsame, s' :: moves, ?_, ?_⟩
      · simp only [Pool.run, hs', Option.bind_some]
        exact hmoves
      · rw [List.countP_cons_of_pos hworks, List.length_cons, hlen]

theorem sound_run {options : TickOptions} {startedAt : Int} {keys : List PKey}
    {steps : List TickStep} {t : Tick} (h : (begin_ options startedAt keys).run steps = some t) :
    t.Sound := by
  have hall : ∀ (steps : List TickStep) (t t' : Tick), t.Sound → t.run steps = some t' → t'.Sound := by
    intro steps
    induction steps with
    | nil =>
      intro t t' ht hrun
      obtain rfl := Option.some.inj hrun
      exact ht
    | cons s steps ih =>
      intro t t' ht hrun
      obtain ⟨u, hu, hrest⟩ := Option.bind_eq_some_iff.1 hrun
      exact ih u t' (ht.step hu) hrest
  refine hall steps _ t ?_ h
  have hnone : ∀ n, (List.replicate n (Worker.looking : Worker PKey)).filterMap Worker.job = [] := by
    intro n
    rw [List.filterMap_eq_nil_iff]
    intro w hw
    rw [List.eq_of_mem_replicate hw]
    rfl
  refine ⟨?_, ?_, rfl, rfl, rfl, rfl, ?_, ?_⟩
  · intro s hs
    cases hs
  · simp [begin_, Pool.begin_, Pool.begun, Pool.underWay, hnone]
  · simp [begin_, Pool.begin_]
  · simp [begin_, Pool.begin_]

theorem resolved_iff {t : Tick} {result : TickResult} (h : t.resolved = some result) :
    t.pool.Settled ∧ t.pool.failed = [] ∧
      result = { t.result with durationMs := t.clock - t.startedAt } := by
  rw [resolved] at h
  split at h
  · next hall =>
    simp only [Bool.and_eq_true, List.all_eq_true, decide_eq_true_eq, rejected, Bool.not_not,
      List.isEmpty_iff] at hall
    exact ⟨hall.1, hall.2, (Option.some.inj h).symm⟩
  · cases h

end Tick

/-- In every interleaving a pass runs at most four keys at a time, each selected key at most once and
none from the deadline on, and it ends. It adds up what the runs report; unless it timed out it has
run every selected key. -/
theorem tick_covers (pollers : Pollers) (options : TickOptions) (startedAt : Int)
    {steps : List TickStep} {t : Tick}
    (h : (Tick.begin_ options startedAt pollers.allKeys).run steps = some t) :
    t.Sound ∧ t.pool.underWay.length ≤ tickConcurrency ∧ (t.starts.map Prod.fst).Nodup ∧
      (∀ key ∈ t.starts.map Prod.fst, key ∈ Tick.selected options pollers.allKeys) ∧
      steps.countP Tick.works ≤
        2 * (Tick.selected options pollers.allKeys).length + tickConcurrency ∧
      (t.pool.Settled ∨ ∃ s t', Tick.works s = true ∧ t.step s = some t') ∧
      ∀ result, t.resolved = some result →
        result.timedOut = false ∨ options.maxDuration = none →
          (t.pool.finished.map Prod.fst).Perm (Tick.selected options pollers.allKeys) := by
  have hsound := Tick.sound_run h
  obtain ⟨hdeadline, moves, hmoves, hlen⟩ := Tick.run_pool h
  have hacc : Pool.Accounts (Tick.selected options pollers.allKeys) t.pool := Pool.accounts_run hmoves
  have hdistinct : (Tick.selected options pollers.allKeys).Nodup := pollers.allKeys_nodup.filter _
  have hstarts : ∀ key ∈ t.starts.map Prod.fst, key ∈ Tick.selected options pollers.allKeys := by
    intro key hkey
    apply hacc.subset
    exact List.mem_append_left _ (List.mem_append_left _ (hsound.begun.subset hkey))
  refine ⟨hsound, ?_, ?_, hstarts, ?_, ?_, ?_⟩
  · exact (Pool.underWay_le hmoves).trans (Nat.min_le_left _ _)
  · rw [hsound.begun.nodup_iff]
    have hall := hacc.nodup_iff.2 hdistinct
    exact (List.nodup_append.1 (List.nodup_append.1 hall).1).1
  · have hle := Pool.run_length_le hmoves
    rw [hlen] at hle
    exact hle.trans (Nat.add_le_add_left (Nat.min_le_left _ _) _)
  · by_cases hs : t.pool.Settled
    · exact Or.inl hs
    · obtain ⟨w, htake | hfinish⟩ := Pool.exists_step hs
      · obtain ⟨pool, hpool⟩ := Option.isSome_iff_exists.1 (htake t.late)
        exact Or.inr ⟨.take w, _, rfl, by rw [Tick.step, hpool]; rfl⟩
      · obtain ⟨pool, hpool⟩ := Option.isSome_iff_exists.1 (hfinish {})
        exact Or.inr ⟨.finish w {}, _, rfl, by rw [Tick.step, hpool]; rfl⟩
  · intro result hresult htimed
    obtain ⟨hsettled, hfailed, rfl⟩ := Tick.resolved_iff hresult
    have hdropped : t.pool.dropped = [] := by
      by_contra hne
      rcases htimed with hno | hnone
      · have htrue := hsound.timedOut.2 (Or.inl hne)
        exact absurd (hno.symm.trans htrue) Bool.false_ne_true
      · have hlate := hsound.ended hne
        rw [Tick.late, hdeadline] at hlate
        simp [Tick.begin_, hnone] at hlate
    refine Pool.settled_all ?_ hmoves hsettled hdropped hfailed
    rcases Nat.eq_zero_or_pos (Tick.selected options pollers.allKeys).length with hzero | hpos
    · exact Or.inr (List.length_eq_zero_iff.1 hzero)
    · exact Or.inl (lt_min (by decide) hpos)

/-- A poller of two partitions, one without partitions, and one that the pass leaves out. -/
def threePollers : Pollers where
  runtimes :=
    [.single "orders", { name := "users", partitions := ["eu", "us"], distinct := by decide },
      .single "audit"]
  distinct := by decide

def twoOfThree : TickOptions where
  maxDuration := some 100
  only := some ["orders", "users"]

/-- Three workers under way at once; one of the runs finds its lease taken. -/
def threeRuns : List TickStep :=
  [.take 0, .take 1, .passes 5, .take 2, .finish 1 { reason := some .leased }, .passes 10,
    .finish 0 {}, .take 1, .take 0, .finish 2 {}, .take 2]

theorem tick_covers_sample :
    ∃ t result, (Tick.begin_ twoOfThree 0 threePollers.allKeys).run threeRuns = some t ∧
      t.resolved = some result ∧ result.timedOut = false ∧ result.skippedLeased = 1 ∧ t.Sound ∧
      t.pool.underWay.length ≤ tickConcurrency ∧ (t.starts.map Prod.fst).Nodup ∧
      (t.pool.finished.map Prod.fst).Perm
        [{ poller := "orders", partition := "" }, { poller := "users", partition := "eu" },
          { poller := "users", partition := "us" }] := by
  have hsome : ((Tick.begin_ twoOfThree 0 threePollers.allKeys).run threeRuns).isSome = true := rfl
  obtain ⟨t, ht⟩ := Option.isSome_iff_exists.1 hsome
  obtain ⟨hsound, hbound, hnodup, -, -, -, hall⟩ := tick_covers threePollers twoOfThree 0 ht
  have hresolved : ∃ result, t.resolved = some result ∧ result.timedOut = false ∧
      result.skippedLeased = 1 := by
    obtain rfl := Option.some.inj ht
    exact ⟨_, rfl, rfl, rfl⟩
  obtain ⟨result, hresult, htimed, hleased⟩ := hresolved
  exact ⟨t, result, ht, hresult, htimed, hleased, hsound, hbound, hnodup, hall result hresult (Or.inl htimed)⟩

end Watukuy
