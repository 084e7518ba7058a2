import Watukuy.Cycle.Obeys

/-!
# Scenarios

A scenario is a list of scenes: an instance is asked for something, a thread takes some steps, an
abort strikes. `play` computes the run of a scenario, and `play_run` says that it is one of the runs
of the system. The sample deployment polls items that are pairs of an identity and a content.
-/

set_option autoImplicit false

namespace Watukuy

open Library

/-! ## Playing scenes -/

section Scenes

variable {ι : Type}

/-- A scene of a scenario. -/
inductive Scene (ι : Type) where
  /-- An instance is asked for something: a new thread. -/
  | ask (deps : RunnerDeps ι) (request : EngineCall)
  /-- Thread `t` takes up to `n` steps. -/
  | run (t n : Nat) (policy : Op ι → Choice ι)
  | abort (x : OuterAbort)

def Scene.directive : Scene ι → Directive (system ι)
  | .ask deps request => .start (request.prog deps)
  | .run t n policy => .run t n policy
  | .abort x => .drift x

/-- The run of a scenario. -/
def play (key : PKey) (scenes : List (Scene ι)) :
    Option (List (Label (system ι)) × Config (system ι)) :=
  exec ⟨World.fresh key, []⟩ (scenes.map Scene.directive)

/-- The requests of a scenario are among `S`, on instances of the deployment. -/
def Cast (d : Deployment ι) (S : EngineCall → Prop) (scenes : List (Scene ι)) : Prop :=
  ∀ deps request, .ask deps request ∈ scenes → deps.In d ∧ S request

theorem Cast.nil {d : Deployment ι} {S : EngineCall → Prop} : Cast d S [] := by
  intro deps request h
  cases h

theorem Cast.ask {d : Deployment ι} {S : EngineCall → Prop} {scenes : List (Scene ι)}
    {deps : RunnerDeps ι} {request : EngineCall} (hdeps : deps.In d) (hS : S request)
    (h : Cast d S scenes) : Cast d S (.ask deps request :: scenes) := by
  intro deps' request' hmem
  rcases List.mem_cons.1 hmem with heq | hmem
  · cases heq
    exact ⟨hdeps, hS⟩
  · exact h _ _ hmem

theorem Cast.run {d : Deployment ι} {S : EngineCall → Prop} {scenes : List (Scene ι)} {t n : Nat}
    {policy : Op ι → Choice ι} (h : Cast d S scenes) : Cast d S (.run t n policy :: scenes) := by
  intro deps request hmem
  rcases List.mem_cons.1 hmem with heq | hmem
  · cases heq
  · exact h _ _ hmem

theorem Cast.abort {d : Deployment ι} {S : EngineCall → Prop} {scenes : List (Scene ι)}
    {x : OuterAbort} (h : Cast d S scenes) : Cast d S (.abort x :: scenes) := by
  intro deps request hmem
  rcases List.mem_cons.1 hmem with heq | hmem
  · cases heq
  · exact h _ _ hmem

/-- What a scenario computes is a run of the system whose environment decides by its policies. -/
theorem play_run_choice {d : Deployment ι} {S : EngineCall → Prop} {scenes : List (Scene ι)}
    (hcast : Cast d S scenes) (check : List (Label (system ι)) → Config (system ι) → Bool)
    (h : (play d.key scenes).any (fun r => check r.1 r.2) = true) :
    ∃ tr c, Run (system ι) (d.entry S) (World.fresh d.key) tr c ∧ check tr c = true ∧
      ∀ (t : Nat) (o : Op ι) (ch : Choice ι) (a : Ans o), .act t o ch a ∈ tr →
        ∃ t' n policy, .run t' n policy ∈ scenes ∧ ch = policy o := by
  have hentry : ∀ p, .start p ∈ scenes.map Scene.directive → d.entry S p := by
    intro p hp
    obtain ⟨scene, hscene, heq⟩ := List.mem_map.1 hp
    cases scene with
    | ask deps request =>
      cases heq
      obtain ⟨hdeps, hS⟩ := hcast deps request hscene
      exact ⟨deps, request, hdeps, hS, rfl⟩
    | run t n policy => cases heq
    | abort x => cases heq
  obtain ⟨tr, c, hrun, hcheck, hchoice⟩ := exec_run_choice hentry check h
  refine ⟨tr, c, hrun, hcheck, fun t o ch a hmem => ?_⟩
  obtain ⟨t', n, policy, hd, hch⟩ := hchoice t o ch a hmem
  obtain ⟨scene, hscene, heq⟩ := List.mem_map.1 hd
  cases scene with
  | ask deps request => cases heq
  | run t n policy =>
    cases heq
    exact ⟨_, _, _, hscene, hch⟩
  | abort x => cases heq

/-- What a scenario computes is a run of the system. -/
theorem play_run {d : Deployment ι} {S : EngineCall → Prop} {scenes : List (Scene ι)}
    (hcast : Cast d S scenes) (check : List (Label (system ι)) → Config (system ι) → Bool)
    (h : (play d.key scenes).any (fun r => check r.1 r.2) = true) :
    ∃ tr c, Run (system ι) (d.entry S) (World.fresh d.key) tr c ∧ check tr c = true := by
  obtain ⟨tr, c, hrun, hcheck, -⟩ := play_run_choice hcast check h
  exact ⟨tr, c, hrun, hcheck⟩

end Scenes

/-! ## The sample deployment -/

/-- A sample item: an identity and a content. -/
abbrev Sample := String × String

/-- The three bytes of a code point. -/
def charBytes (c : Char) : List (Fin 256) :=
  [⟨c.toNat / 65536 % 256, by omega⟩, ⟨c.toNat / 256 % 256, by omega⟩, ⟨c.toNat % 256, by omega⟩]

theorem charBytes_injective {a b : Char} (h : charBytes a = charBytes b) : a = b := by
  simp only [charBytes, List.cons.injEq, Fin.mk.injEq, and_true] at h
  have hmax : ∀ c : Char, c.toNat < 65536 * 256 := by
    intro c
    have hvalid := c.valid
    have htoNat : c.toNat = c.val.toNat := rfl
    rcases hvalid with hlt | ⟨-, hlt⟩ <;> rw [htoNat] <;> omega
  have ha := hmax a
  have hb := hmax b
  have heq : a.toNat = b.toNat := by omega
  exact Char.toNat_inj.1 heq

/-- A digest without collisions. -/
def sampleCrypto : Crypto where
  digest s := s.toList.flatMap charBytes

theorem sampleCrypto_injective : Function.Injective sampleCrypto.digest := by
  intro s t h
  have hlist : ∀ xs ys : List Char, xs.flatMap charBytes = ys.flatMap charBytes → xs = ys := by
    intro xs
    induction xs with
    | nil =>
      intro ys h
      cases ys with
      | nil => rfl
      | cons y ys => simp [charBytes] at h
    | cons x xs ih =>
      intro ys h
      cases ys with
      | nil => simp [charBytes] at h
      | cons y ys =>
        rw [List.flatMap_cons, List.flatMap_cons] at h
        obtain ⟨hx, hxs⟩ := List.append_inj h rfl
        rw [charBytes_injective hx, ih ys hxs]
  exact String.toList_injective (hlist _ _ h)

/-- Full scans without a schema; one attempt for a delivery, parked events hold their key. -/
def samplePoller : ResolvedPoller Sample where
  name := "orders"
  source := "urn:watukuy:orders"
  validate := none
  identity item := .string item.1
  version := none
  canonical item := .ok item.2
  itemJson item := item.1 ++ item.2
  schemaVersion := 1
  cursor := .snapshotDiff
  schedule :=
    { minMs := 1, maxMs := 10, adaptive := false, jitter := 0
      backoff := { baseMs := 1, factor := .finite 2, maxMs := 10 } }
  budgeted := false
  budgetCost := 1
  delivery :=
    { orderingKey := none, concurrency := 1, retryAttempts := 1
      retryBackoff := { baseMs := 1, factor := .finite 2, maxMs := 10 }
      poisonAction := .park, poisonHoldKey := true }
  retain := .hash
  reconcileEveryMs := none
  onInvalid := .quarantine
  onSchemaChange := .rebaseline
  maxPagesPerCycle := 50
  circuit := { failures := 5, probeEveryMs := 10 }
  log := false

/-- The deployment of a poller on samples. -/
def sampleOf (poller : ResolvedPoller Sample) : Deployment Sample where
  crypto := sampleCrypto
  poller := poller
  key := { poller := "orders", partition := "" }

/-- An instance of a deployment on samples. -/
def instanceOf (d : Deployment Sample) (hasConsumer : Bool) : RunnerDeps Sample where
  crypto := d.crypto
  poller := d.poller
  key := d.key
  instanceId := "a"
  hasBudget := false
  hasConsumer := hasConsumer
  dispatchBatchSize := 10
  leaseTtlMs := 100
  fuel := 100

theorem instanceOf_in (d : Deployment Sample) (hasConsumer : Bool) : (instanceOf d hasConsumer).In d :=
  ⟨rfl, rfl, rfl⟩

/-- A run that is due and has no deadline. -/
def forced : EngineCall := .runKey { deadline := none, force := true }

/-- The environment when nothing fails: the clock reads `at_`, a fetch does `u`. -/
def calm (at_ : Int) (u : UserCode Sample) : Op Sample → Choice Sample
  | .now => .time at_
  | .random => .draw 0
  | .fetch _ _ => .code u
  | .charge _ => .settle (.ok ())
  | .deliver _ => .settle (.ok ())
  | _ => .ok

/-- One page without a next one. -/
def onePage (items : List Sample) : UserCode Sample := .page { items } .finish

/-- An iterable of pages: all but the last one say that there are more. -/
def iterable : List (List Sample) → UserCode Sample
  | [] => .finish
  | [items] => onePage items
  | items :: rest => .page { items, hasMore := some true } (iterable rest)

end Watukuy
