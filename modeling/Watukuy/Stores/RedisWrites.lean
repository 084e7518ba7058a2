import Watukuy.Stores.RedisSteps
import Std.Data.String.ToInt
import Mathlib.Tactic.Ring

/-!
# The scripts and the record they write

Each script, called with the keys and arguments of its method, does to the record what the function
of `RedisRecord` of the same name does. The arguments of a loop are read by `Rest`: what is left of
`ARGV` from an index on.
-/

set_option autoImplicit false

namespace Watukuy

open Library Redis

variable {ι : Type}

/-! ## Arguments -/

/-- What is left of the arguments from an index on. -/
structure Rest (argv : List String) (i : Nat) (l : List String) : Prop where
  pos : 0 < i
  left : argv.drop (i - 1) = l

namespace Rest

variable {argv l : List String} {i : Nat} {a : String}

theorem head (h : Rest argv i (a :: l)) : argv[i - 1]? = some a := by
  have hget : (argv.drop (i - 1))[0]? = some a := by rw [h.left]; rfl
  rwa [List.getElem?_drop, Nat.add_zero] at hget

theorem skip (xs : List String) (h : Rest argv i (xs ++ l)) : Rest argv (i + xs.length) l where
  pos := Nat.lt_of_lt_of_le h.pos (Nat.le_add_right _ _)
  left := by
    have hi := h.pos
    have hdrop : i + xs.length - 1 = i - 1 + xs.length := by omega
    rw [hdrop, ← List.drop_drop, h.left, List.drop_left]

theorem tail (h : Rest argv i (a :: l)) : Rest argv (i + 1) l :=
  skip [a] h

theorem length_args {β : Type} {stride : Nat} {args : β → List String} {bs : List β}
    (hargs : ∀ b ∈ bs, (args b).length = stride) :
    (bs.flatMap args).length = stride * bs.length := by
  induction bs with
  | nil => rfl
  | cons b bs ih =>
    rw [List.flatMap_cons, List.length_append, hargs b List.mem_cons_self,
      ih fun b' hb' => hargs b' (List.mem_cons_of_mem _ hb'), List.length_cons]
    ring

/-- What is left behind a counted segment. -/
theorem segment {β : Type} {stride n : Nat} {args : β → List String} {bs : List β}
    (h : Rest argv i (toString n :: bs.flatMap args ++ l))
    (hargs : ∀ b ∈ bs, (args b).length = stride) :
    Rest argv (i + 1 + stride * bs.length) l := by
  have hrest := h.tail.skip _
  rwa [length_args hargs] at hrest

end Rest

namespace RedisClient

variable {c : RedisClient ι} {key : PKey} {rec : RedisRecord ι} {β : Type}

/-- What the rounds of a loop do to a record, and the sum of their replies. -/
def followed (act : RedisRecord ι → β → Nat × RedisRecord ι) :
    RedisRecord ι → List β → Nat × RedisRecord ι
  | rec, [] => (0, rec)
  | rec, b :: bs => ((act rec b).1 + (followed act (act rec b).2 bs).1,
      (followed act (act rec b).2 bs).2)

/-- Rounds that reply nothing of interest. -/
theorem followed_foldl (act : RedisRecord ι → β → RedisRecord ι) (bs : List β)
    (rec : RedisRecord ι) :
    followed (fun r b => (0, act r b)) rec bs = (0, bs.foldl act rec) := by
  induction bs generalizing rec with
  | nil => rfl
  | cons b bs ih => simp only [followed, ih, List.foldl_cons, Nat.add_zero]

/-- A loop over the arguments of some values: induction over the values, each round takes its own
arguments off what is left. -/
theorem steps_times {stride : Nat} {body : Nat → Command Nat} {argv : List String}
    {args : β → List String} {act : RedisRecord ι → β → Nat × RedisRecord ι} {bs : List β}
    {P : RedisRecord ι → Prop} (hrec : P rec) (hkeep : ∀ rec b, P rec → P (act rec b).2)
    (hargs : ∀ b ∈ bs, (args b).length = stride)
    (hbody : ∀ b ∈ bs, ∀ i l rec, P rec → Rest argv i (args b ++ l) →
      c.Steps key rec (body i) (act rec b).1 (act rec b).2) {i : Nat} {l : List String}
    (h : Rest argv i (bs.flatMap args ++ l)) :
    c.Steps key rec (RedisScripts.times stride body bs.length i) (followed act rec bs).1
      (followed act rec bs).2 := by
  induction bs generalizing i rec with
  | nil => exact steps_pure 0
  | cons b bs ih =>
    rw [List.flatMap_cons, List.append_assoc] at h
    -- the arguments of the next rounds begin behind those of `b`
    have hnext := h.skip _
    rw [hargs b List.mem_cons_self] at hnext
    refine (hbody b List.mem_cons_self i _ rec hrec h).bind ?_
    refine (ih (hkeep rec b hrec) (fun b' hb' => hargs b' (List.mem_cons_of_mem _ hb'))
      (fun b' hb' => hbody b' (List.mem_cons_of_mem _ hb')) hnext).bind ?_
    exact steps_pure _

theorem toInt?_nat (n : Nat) : (toString n).toInt? = some (n : Int) := Nat.toInt?_repr n

theorem toInt?_int (n : Int) : (toString n).toInt? = some n := Int.toInt?_repr n

/-- A counted segment. -/
theorem steps_segment {stride : Nat} {body : Nat → Command Nat} {argv : List String}
    {args : β → List String} {act : RedisRecord ι → β → RedisRecord ι} {bs : List β}
    {P : RedisRecord ι → Prop} {i : Nat} {l : List String}
    (h : Rest argv i (toString bs.length :: bs.flatMap args ++ l))
    (hargs : ∀ b ∈ bs, (args b).length = stride) (hrec : P rec)
    (hkeep : ∀ rec b, P rec → P (act rec b))
    (hbody : ∀ b ∈ bs, ∀ i l rec, P rec → Rest argv i (args b ++ l) →
      c.Steps key rec (body i) 0 (act rec b)) :
    c.Steps key rec (RedisScripts.segment argv stride body i) (i + 1 + stride * bs.length)
      (bs.foldl act rec) := by
  have htimes : c.Steps key rec (RedisScripts.times stride body bs.length (i + 1))
      (followed (fun r b => (0, act r b)) rec bs).1
      (followed (fun r b => (0, act r b)) rec bs).2 :=
    steps_times hrec hkeep hargs hbody h.tail
  rw [followed_foldl] at htimes
  refine (steps_arg h.head).bind ((steps_toNumber (toInt?_nat _)).bind ?_)
  exact htimes.bind (steps_pure _)

/-! ## The state -/

theorem state_edit {s' : PollerState} {entries : String → Option String}
    (h : ∀ f, c.json.stateField s' f = entries f) :
    PartEdit c.json rec .state entries { rec with state := some s' } where
  self := h
  other := by
    intro k' part' hne
    cases part' <;> first | rfl | exact absurd rfl hne
  listed := rfl

/-- The pairs of a patch, each with what it does to a state. -/
def patchSteps (c : RedisClient ι) (patch : StatePatch) :
    List ((String × String) × (PollerState → PollerState)) :=
  (patch.lanes.map fun v =>
      (("lanes", c.json.lanes.stringify v), fun s => { s with lanes := v })).toList ++
    ((patch.schedule.map fun v =>
        (("schedule", c.json.schedule.stringify v), fun s => { s with schedule := v })).toList ++
      ((patch.paused.map fun v =>
          (("paused", jsonBool v), fun s => { s with paused := v })).toList ++
        ((patch.schemaVersion.map fun v =>
            (("schemaVersion", jsonNullable v), fun s => { s with schemaVersion := v })).toList ++
          ((patch.sequence.map fun v =>
              (("sequence", toString v), fun s => { s with sequence := v })).toList ++
            (patch.updatedAt.map fun v =>
              (("updatedAt", toString v), fun s => { s with updatedAt := v })).toList))))

theorem patchSteps_pairs (patch : StatePatch) :
    (c.patchSteps patch).map Prod.fst = c.patchPairs patch := by
  have hone : ∀ {γ : Type} (o : Option γ) (g : γ → (String × String) × (PollerState → PollerState)),
      (o.map g).toList.map Prod.fst = (o.map fun v => (g v).1).toList := by
    intro γ o g
    cases o <;> rfl
  simp only [patchSteps, patchPairs, List.map_append, hone]

/-- What a field of a patch does to a state shows in that field only. -/
theorem patchSteps_sets {patch : StatePatch} {e : (String × String) × (PollerState → PollerState)}
    (he : e ∈ c.patchSteps patch) :
    e.1.1 ≠ "createdAt" ∧ ∀ s f, c.json.stateField (e.2 s) f =
      Function.update (c.json.stateField s) e.1.1 (some e.1.2) f := by
  simp only [patchSteps, List.mem_append, Option.mem_toList, Option.map_eq_some_iff] at he
  rcases he with ⟨v, -, rfl⟩ | ⟨v, -, rfl⟩ | ⟨v, -, rfl⟩ | ⟨v, -, rfl⟩ | ⟨v, -, rfl⟩ | ⟨v, -, rfl⟩
  -- each of the six fields alike: itself, and then any other field
  all_goals
    refine ⟨by simp, ?_⟩
    intro s f
    rw [Function.update_apply]
    split
    · next hf =>
      rw [hf]
      simp [RedisJson.stateField, RedisJson.statePairs, Layout.setFields]
    · next hf =>
      dsimp only at hf
      simp only [RedisJson.stateField, RedisJson.statePairs, Layout.setFields, List.foldl_cons,
        List.foldl_nil, Function.update_apply, if_neg hf]

theorem foldl_toList {σ γ : Type} (o : Option γ) (g : σ → γ → σ) (s : σ) :
    o.toList.foldl g s = (o.map (g s)).getD s := by
  cases o <;> rfl

theorem patchSteps_applied (patch : StatePatch) (s : PollerState) :
    (c.patchSteps patch).foldl (fun s e => e.2 s) s =
      { lanes := patch.lanes.getD s.lanes
        schedule := patch.schedule.getD s.schedule
        paused := patch.paused.getD s.paused
        schemaVersion := patch.schemaVersion.getD s.schemaVersion
        sequence := patch.sequence.getD s.sequence
        createdAt := s.createdAt
        updatedAt := patch.updatedAt.getD s.updatedAt } := by
  simp only [patchSteps, List.foldl_append, foldl_toList, Option.map_map]
  -- which of the fields the patch has
  cases patch.lanes <;> cases patch.schedule <;> cases patch.paused <;>
    cases patch.schemaVersion <;> cases patch.sequence <;> cases patch.updatedAt <;> rfl

/-- The zero state is the text of the empty one. -/
theorem zeroState_eq (json : RedisJson ι) (now : Int) :
    RedisScripts.zeroState json (toString now) = json.statePairs (emptyPollerState now) := by
  have hsequence : toString (0 : Nat) = "0" := rfl
  simp [RedisScripts.zeroState, RedisJson.statePairs, emptyPollerState, json.lanes_empty, jsonBool,
    jsonNullable, hsequence]

theorem steps_initState (now : Int) :
    c.Steps key rec (RedisScripts.initState c.json (c.keyName key .state) (toString now)) ()
      { rec with state := some (rec.state.getD (emptyPollerState now)) } := by
  -- a state always shows its fields, so the key exists exactly where there is one
  have hexists : rec.state.isSome = true ↔ ∃ f, (rec.shown c.json .state f).isSome := by
    cases hs : rec.state with
    | none => simp [RedisRecord.shown, hs]
    | some s =>
      simp only [Option.isSome_some, true_iff]
      refine ⟨"updatedAt", ?_⟩
      simp [RedisRecord.shown, hs, RedisJson.stateField, RedisJson.statePairs, Layout.setFields]
  refine (steps_exists .state hexists).bind ?_
  cases hs : rec.state with
  | some s =>
    have hsame : { rec with state := some ((some s).getD (emptyPollerState now)) } = rec := by
      rw [Option.getD_some, ← hs]
    rw [hsame]
    exact steps_pure ()
  | none =>
    refine steps_hset .state (state_edit ?_)
    intro f
    have hnone : rec.shown c.json .state = fun _ => none := by
      funext a
      simp [RedisRecord.shown, hs]
    rw [hnone, zeroState_eq]
    rfl

/-- A change of the state of a record. -/
def patched (rec : RedisRecord ι) (e : (String × String) × (PollerState → PollerState)) :
    RedisRecord ι := { rec with state := rec.state.map e.2 }

theorem foldl_patched (es : List ((String × String) × (PollerState → PollerState)))
    (s : PollerState) : es.foldl patched { rec with state := some s } =
      { rec with state := some (es.foldl (fun s e => e.2 s) s) } := by
  induction es generalizing s with
  | nil => rfl
  | cons e es ih => exact ih (e.2 s)

/-- `APPLY_STATE` with the arguments of a patch. -/
theorem steps_applyState (patch : StatePatch) {argv l : List String} {from_ : Nat}
    (h : Rest argv from_ (toString (c.patchPairs patch).length ::
      flatPairs (c.patchPairs patch) ++ l)) :
    c.Steps key rec (RedisScripts.applyState c.json argv (c.keyName key .state)
      (toString (patch.updatedAt.getD 0)) from_)
      (from_ + 1 + 2 * (c.patchPairs patch).length) (rec.applyState patch) := by
  have hlen : (c.patchPairs patch).length = (c.patchSteps patch).length := by
    rw [← patchSteps_pairs, List.length_map]
  have hflat : flatPairs (c.patchPairs patch) =
      (c.patchSteps patch).flatMap fun e => [e.1.1, e.1.2] := by
    rw [← patchSteps_pairs, flatPairs, List.flatMap_map]
  rw [hlen, hflat] at h
  rw [hlen]
  have hround : ∀ e ∈ c.patchSteps patch, ∀ i l r, RedisRecord.state r ≠ none →
      Rest argv i ([e.1.1, e.1.2] ++ l) →
      c.Steps key r (RedisScripts.overlayAt argv (c.keyName key .state) i) 0 (patched r e) := by
    intro e he i l r hr hi
    obtain ⟨s, hs⟩ := Option.ne_none_iff_exists'.1 hr
    obtain ⟨hname, hsets⟩ := patchSteps_sets he
    have hset : c.Steps key r
        (RedisScripts.overlay (c.keyName key .state) e.1.1 e.1.2) () (patched r e) := by
      rw [RedisScripts.overlay, if_pos hname, patched, hs]
      refine steps_hset .state (state_edit ?_)
      intro f
      have hshown : r.shown c.json .state = c.json.stateField s := by
        funext f
        simp [RedisRecord.shown, hs]
      rw [hshown, hsets]
      rfl
    exact (steps_arg hi.head).bind ((steps_arg hi.tail.head).bind (hset.bind (steps_pure 0)))
  have hkeep : ∀ (r : RedisRecord ι) (e : (String × String) × (PollerState → PollerState)),
      r.state ≠ none → (patched r e).state ≠ none := by
    intro r e hr
    rw [patched]
    simp [hr]
  have htwo : ∀ e ∈ c.patchSteps patch, [e.1.1, e.1.2].length = 2 := fun _ _ => rfl
  have hsegment : ∀ s : PollerState, c.Steps key { rec with state := some s }
      (RedisScripts.segment argv 2 (RedisScripts.overlayAt argv (c.keyName key .state)) from_)
      (from_ + 1 + 2 * (c.patchSteps patch).length)
      ((c.patchSteps patch).foldl patched { rec with state := some s }) :=
    fun s => steps_segment h htwo (Option.some_ne_none s) hkeep hround
  -- the rounds run on the state that the first command has left
  refine (steps_initState _).bind ?_
  have hsteps := hsegment (rec.state.getD (emptyPollerState (patch.updatedAt.getD 0)))
  rw [foldl_patched, patchSteps_applied] at hsteps
  exact hsteps

/-! ## Leases -/

theorem meta_edit {m : RedisMeta} {entries : String → Option String}
    (h : ∀ f, m.field f = entries f) :
    PartEdit c.json rec .meta_ entries { rec with meta_ := m } where
  self := h
  other := by
    intro k' part' hne
    cases part' <;> first | rfl | exact absurd rfl hne
  listed := rfl

section Fence

variable {KEYS args : List String} (lease : Lease)

/-- `FENCE`: the texts of owner and epoch are those of the lease. -/
theorem steps_fence (hmeta : RedisScripts.keyAt KEYS 1 = c.keyName key .meta_) :
    c.Steps key rec (RedisScripts.fenced KEYS ([lease.owner, toString lease.epoch] ++ args))
      (rec.fenced lease) rec := by
  -- the epochs are compared as texts
  have hepoch : (rec.meta_.leaseEpoch.map toString == some (toString lease.epoch)) =
      (rec.meta_.leaseEpoch == some lease.epoch) := by
    cases rec.meta_.leaseEpoch with
    | none => rfl
    | some n =>
      rw [Option.map_some, Bool.eq_iff_iff]
      simp only [beq_iff_eq, Option.some.injEq]
      exact ⟨fun h => Nat.repr_injective h, fun h => h ▸ rfl⟩
  have hfenced : rec.fenced lease = (rec.shown c.json .meta_ "lease_owner" == some lease.owner &&
      rec.shown c.json .meta_ "lease_epoch" == some (toString lease.epoch)) := by
    rw [RedisRecord.fenced, ← hepoch]
    rfl
  unfold RedisScripts.fenced
  rw [hmeta, hfenced]
  refine (steps_hget .meta_).bind ((steps_hget .meta_).bind ?_)
  exact (steps_arg rfl).bind ((steps_arg rfl).bind (steps_pure _))

theorem steps_underFence (hmeta : RedisScripts.keyAt KEYS 1 = c.keyName key .meta_)
    {body : Command Unit} {rec' : RedisRecord ι}
    (hbody : c.Steps key rec body () rec') :
    c.Steps key rec
      (RedisScripts.underFence KEYS ([lease.owner, toString lease.epoch] ++ args) body)
      (if rec.fenced lease then "OK" else RedisScripts.leaseLost)
      (if rec.fenced lease then rec' else rec) := by
  refine (steps_fence lease hmeta).bind ?_
  by_cases hf : rec.fenced lease = true
  · rw [if_pos hf, if_pos hf, if_pos hf]
    exact hbody.bind (steps_pure _)
  · rw [if_neg hf, if_neg hf, if_neg hf]
    exact steps_pure _

/-- A fenced call, with the sentinel turned into the error. -/
theorem steps_fencedCall {script : List String → List String → Command String}
    {body : Command Unit} {rec' : RedisRecord ι}
    (hscript : script KEYS ([lease.owner, toString lease.epoch] ++ args) =
      RedisScripts.underFence KEYS ([lease.owner, toString lease.epoch] ++ args) body)
    (hmeta : RedisScripts.keyAt KEYS 1 = c.keyName key .meta_)
    (hbody : c.Steps key rec body () rec') :
    c.Steps key rec (fenced key lease script KEYS args)
      (if rec.fenced lease then .ok ()
        else .error (leaseLostError key.poller key.partition lease.epoch))
      (if rec.fenced lease then rec' else rec) := by
  have hok : ¬"OK" = RedisScripts.leaseLost := by decide
  unfold fenced
  rw [hscript]
  refine (steps_underFence lease hmeta hbody).bind ?_
  by_cases hf : rec.fenced lease = true
  · simp only [if_pos hf, if_neg hok]
    exact steps_pure _
  · simp only [if_neg hf, if_true]
    exact steps_pure _

end Fence

theorem toString_succ (n : Nat) : toString ((n : Int) + 1) = toString (n + 1) := rfl

theorem steps_heldByOther {owner : String} {now : Int} {rest : List String} {name : String} :
    c.Steps key rec
      (RedisScripts.heldByOther [c.keyName key .meta_, name] (owner :: toString now :: rest))
      (rec.heldByOther owner now) rec := by
  have howner : rec.shown c.json .meta_ "lease_owner" = rec.meta_.leaseOwner := rfl
  have hexpires : rec.shown c.json .meta_ "lease_expires_at" =
      rec.meta_.leaseExpiresAt.map toString := rfl
  refine (steps_hget .meta_).bind ?_
  rw [howner, RedisRecord.heldByOther]
  cases rec.meta_.leaseOwner with
  | none => exact steps_pure false
  | some current =>
    refine (steps_arg rfl).bind ?_
    -- an owner is never held off by its own lease
    by_cases hown : current = owner
    · subst hown
      simp only [if_true, bne_self_eq_false, Bool.false_and]
      exact steps_pure false
    · have hbne : (current != owner) = true := bne_iff_ne.2 hown
      simp only [if_neg hown, hbne, Bool.true_and]
      refine (steps_hget .meta_).bind ?_
      rw [hexpires]
      cases rec.meta_.leaseExpiresAt with
      | none => exact steps_pure false
      | some expires =>
        have hread : ((some expires).map toString).bind String.toInt? = some expires :=
          toInt?_int expires
        rw [hread]
        exact (steps_arg rfl).bind ((steps_toNumber (toInt?_int now)).bind (steps_pure _))

/-- The counter is there from the first lease on. -/
theorem counter_toInt? : ((rec.shown c.json .meta_ "epoch_counter").getD "0").toInt? =
    some (rec.meta_.epochCounter : Int) := by
  show ((if rec.meta_.epochCounter = 0 then none
    else some (toString rec.meta_.epochCounter)).getD "0").toInt? = _
  split
  · next hzero =>
    rw [hzero]
    exact toInt?_nat 0
  · exact toInt?_nat _

theorem steps_grant (owner expires : String) (expiresAt : Int)
    (hexpires : expires = toString expiresAt) (n : Nat) :
    c.Steps key { rec with meta_ := { rec.meta_ with epochCounter := n + 1 } }
      (hset (c.keyName key .meta_) [("lease_owner", owner), ("lease_epoch", toString (n + 1)),
        ("lease_expires_at", expires)]) ()
      { rec with
        meta_ :=
          { leaseOwner := some owner
            leaseEpoch := some (n + 1)
            leaseExpiresAt := some expiresAt
            epochCounter := n + 1 } } := by
  subst hexpires
  refine steps_hset .meta_ (meta_edit ?_)
  intro f
  show RedisMeta.field _ f = Layout.setFields (RedisMeta.field _) _ f
  simp only [Layout.setFields, List.foldl_cons, List.foldl_nil, Function.update_apply,
    RedisMeta.field]
  split_ifs <;> simp_all

theorem steps_acquireLease (owner : String) (ttlMs now : Int) :
    c.Steps key rec (c.acquireLease key owner ttlMs now) (rec.acquireLease owner ttlMs now).1
      (rec.acquireLease owner ttlMs now).2 := by
  unfold acquireLease RedisRecord.acquireLease
  dsimp only
  by_cases hheld : rec.heldByOther owner now = true
  · rw [if_pos hheld]
    refine Steps.bind (a := none) (steps_heldByOther.bind ?_) (steps_pure _)
    rw [if_pos hheld]
    exact steps_pure none
  · rw [if_neg hheld]
    have hcount : c.Steps key rec (hincrby (c.keyName key .meta_) "epoch_counter" 1)
        ((rec.meta_.epochCounter : Int) + 1)
        { rec with meta_ := { rec.meta_ with epochCounter := rec.meta_.epochCounter + 1 } } := by
      refine steps_hincrby .meta_ counter_toInt? (meta_edit ?_)
      intro f
      rw [toString_succ, Function.update_apply]
      show RedisMeta.field _ f = if f = _ then _ else RedisMeta.field _ f
      simp only [RedisMeta.field]
      split_ifs <;> simp_all
    have hread : (number (toString (rec.meta_.epochCounter + 1))).toNat =
        rec.meta_.epochCounter + 1 := by
      rw [number, toInt?_nat, Option.getD_some, Int.toNat_natCast]
    have hscript : c.Steps key rec
        (RedisScripts.acquireLease [c.keyName key .meta_, c.keysSet]
          [owner, toString now, toString (now + ttlMs), member key])
        (some (toString (rec.meta_.epochCounter + 1)))
        { rec with
          meta_ :=
            { leaseOwner := some owner
              leaseEpoch := some (rec.meta_.epochCounter + 1)
              leaseExpiresAt := some (now + ttlMs)
              epochCounter := rec.meta_.epochCounter + 1 }
          listed := true } := by
      refine steps_heldByOther.bind ?_
      rw [if_neg hheld]
      refine hcount.bind ((steps_arg rfl).bind ((steps_arg rfl).bind ?_))
      refine (steps_grant owner _ (now + ttlMs) rfl rec.meta_.epochCounter).bind ?_
      exact (steps_arg rfl).bind (steps_sadd.bind (steps_pure _))
    refine hscript.bind ?_
    rw [Option.map_some, hread]
    exact steps_pure _

theorem steps_renewLease (lease : Lease) (ttlMs now : Int) :
    c.Steps key rec (c.renewLease key lease ttlMs now) (rec.renewLease lease ttlMs now).1
      (rec.renewLease lease ttlMs now).2 := by
  unfold renewLease RedisScripts.renewLease RedisRecord.renewLease
  by_cases hf : rec.fenced lease = true
  · rw [if_pos hf]
    refine Steps.bind (a := 1) ((steps_fence lease rfl).bind ?_) (steps_pure _)
    rw [if_pos hf]
    refine (steps_arg rfl).bind (Steps.bind (steps_hset .meta_ (meta_edit ?_)) (steps_pure 1))
    intro f
    show RedisMeta.field _ f = Layout.setFields (RedisMeta.field _) _ f
    simp only [Layout.setFields, List.foldl_cons, List.foldl_nil, Function.update_apply,
      RedisMeta.field]
    split_ifs <;> simp_all
  · rw [if_neg hf]
    refine Steps.bind (a := 0) ((steps_fence lease rfl).bind ?_) (steps_pure _)
    rw [if_neg hf]
    exact steps_pure 0

theorem steps_releaseLease (lease : Lease) :
    c.Steps key rec (c.releaseLease key lease) () (rec.releaseLease lease) := by
  unfold releaseLease RedisScripts.releaseLease RedisRecord.releaseLease
  by_cases hf : rec.fenced lease = true
  · rw [if_pos hf]
    refine Steps.bind (a := 1) ((steps_fence lease rfl).bind ?_) (steps_pure _)
    rw [if_pos hf]
    refine Steps.bind (steps_hdel .meta_ (meta_edit ?_)) (steps_pure 1)
    intro f
    show RedisMeta.field _ f = if f ∈ _ then none else RedisMeta.field _ f
    simp only [RedisMeta.field, List.mem_cons, List.not_mem_nil, or_false]
    split_ifs <;> simp_all
  · rw [if_neg hf]
    refine Steps.bind (a := 1) ((steps_fence lease rfl).bind ?_) (steps_pure _)
    rw [if_neg hf]
    exact steps_pure 1

theorem steps_getLease : c.Steps key rec (c.getLease key) rec.getLease rec := by
  have hreply : ["lease_owner", "lease_epoch", "lease_expires_at"].map
      (rec.shown c.json .meta_) = [rec.meta_.leaseOwner, rec.meta_.leaseEpoch.map toString,
        rec.meta_.leaseExpiresAt.map toString] := rfl
  have hepoch : (((rec.meta_.leaseEpoch.map toString).map number).getD 0).toNat =
      rec.meta_.leaseEpoch.getD 0 := by
    cases rec.meta_.leaseEpoch with
    | none => rfl
    | some n => simp [number]
  have hexpires : ((rec.meta_.leaseExpiresAt.map toString).map number).getD 0 =
      rec.meta_.leaseExpiresAt.getD 0 := by
    cases rec.meta_.leaseExpiresAt with
    | none => rfl
    | some n => simp [number]
  refine (steps_hmget .meta_ _).bind ?_
  rw [hreply]
  have hlease : rec.getLease = rec.meta_.leaseOwner.map fun owner =>
      { owner
        epoch := (((rec.meta_.leaseEpoch.map toString).map number).getD 0).toNat
        expiresAt := ((rec.meta_.leaseExpiresAt.map toString).map number).getD 0 } := by
    rw [hepoch, hexpires]
    rfl
  rw [hlease]
  exact steps_pure _

/-! ## Fenced writes -/

theorem steps_dropOutbox {zset rows att err : String} (id : String)
    (hzset : zset = c.keyName key .outbox) (hrows : rows = c.keyName key .rows)
    (hatt : att = c.keyName key .attempts) (herr : err = c.keyName key .errors) :
    c.Steps key rec (RedisScripts.dropOutbox zset rows att err id) () (rec.dropOutbox id) := by
  subst hzset hrows hatt herr
  refine (steps_zrem_one .outbox rfl).bind ((steps_drop .rows rfl).bind ?_)
  exact (steps_drop .attempts rfl).bind ((steps_drop .errors rfl).bind (steps_pure ()))

theorem steps_dropAll {name : String} (ids : List String) :
    c.Steps key rec
      (RedisScripts.dropAll [name, c.keyName key .outbox, c.keyName key .rows,
        c.keyName key .attempts, c.keyName key .errors] ids) () (rec.ackEvents ids) := by
  induction ids generalizing rec with
  | nil => exact steps_pure ()
  | cons id ids ih => exact (steps_dropOutbox id rfl rfl rfl rfl).bind ih

/-- The flag and the text of a hold set it, or delete it where there is none. -/
theorem steps_setHold (id : String) (hold : Option String) :
    c.Steps key rec
      (RedisScripts.setHold (c.keyName key .hold) id (if hold.isSome then "1" else "0")
        (hold.getD "")) ()
      { rec with hold := RedisRecord.setOrDelete rec.hold id hold } := by
  have hzero : ¬"0" = "1" := by decide
  unfold RedisScripts.setHold
  cases hold with
  | some value => exact steps_put .hold value rfl
  | none =>
    simp only [Option.isSome_none, Bool.false_eq_true, if_false, if_neg hzero]
    exact (steps_drop .hold rfl).bind (steps_pure ())

theorem steps_saveState (lease : Lease) (patch : StatePatch) :
    c.Steps key rec (c.write key lease (.saveState patch))
      (if rec.fenced lease then .ok ()
        else .error (leaseLostError key.poller key.partition lease.epoch))
      (if rec.fenced lease then rec.saveState patch else rec) := by
  refine steps_fencedCall lease rfl rfl ((steps_arg rfl).bind ?_)
  refine (steps_applyState patch (l := []) ⟨by decide, ?_⟩).bind ?_
  · exact (List.append_nil _).symm
  · exact (steps_arg rfl).bind steps_sadd

theorem steps_ackEvents (lease : Lease) (eventIds : List String) :
    c.Steps key rec (c.write key lease (.ackEvents eventIds))
      (if rec.fenced lease then .ok ()
        else .error (leaseLostError key.poller key.partition lease.epoch))
      (if rec.fenced lease then rec.ackEvents eventIds else rec) :=
  steps_fencedCall lease rfl rfl (steps_dropAll eventIds)

theorem steps_recordAttempt (lease : Lease) (eventId : String) (error : SerializedError)
    (nextAttemptAt : Option Int) :
    c.Steps key rec (c.write key lease (.recordAttempt eventId error nextAttemptAt))
      (if rec.fenced lease then .ok ()
        else .error (leaseLostError key.poller key.partition lease.epoch))
      (if rec.fenced lease then
        rec.recordAttempt eventId { lastError := some error, nextAttemptAt } else rec) := by
  refine steps_fencedCall lease rfl rfl
    ((steps_arg rfl).bind ((steps_hexists .rows).bind ?_))
  have hthere : (rec.shown c.json .rows eventId).isSome = (rec.rows.get eventId).isSome :=
    Option.isSome_map ..
  rw [hthere, RedisRecord.recordAttempt]
  by_cases h : (rec.rows.get eventId).isSome = true
  · rw [if_pos h, if_pos h]
    have hcount : c.Steps key rec (hincrby (c.keyName key .attempts) eventId 1)
        (((rec.attempts.get eventId).getD 0 : Nat) + 1)
        (rec.put .attempts eventId ((rec.attempts.get eventId).getD 0 + 1)) := by
      refine steps_hincrby .attempts ?_ (put_edit .attempts _ _)
      show (((rec.attempts.get eventId).map toString).getD "0").toInt? = _
      cases rec.attempts.get eventId with
      | none => exact toInt?_nat 0
      | some n => exact toInt?_nat n
    refine (steps_arg rfl).bind (hcount.bind ((steps_arg rfl).bind ((steps_arg rfl).bind ?_)))
    exact steps_put .errors _ rfl
  · rw [if_neg h, if_neg h]
    exact steps_pure ()

/-- The row of the outbox is dropped where the parked row has an event. -/
theorem parkEvent_eq (rec : RedisRecord ι) (row : ParkedRow ι) :
    rec.parkEvent row =
      { (row.event.elim (rec.setParked row) fun event =>
          (rec.setParked row).dropOutbox event.id) with listed := true } := by
  unfold RedisRecord.parkEvent
  cases row.event <;> rfl

theorem steps_dropParked (event : Option (WatukuyEvent ι)) :
    c.Steps key rec
      (RedisScripts.dropParked
        [c.keyName key .meta_, c.keyName key .parked, c.keyName key .hold, c.keyName key .outbox,
          c.keyName key .rows, c.keyName key .attempts, c.keyName key .errors, c.keysSet]
        (if event.isSome then "1" else "0") ((event.map (·.id)).getD "")) ()
      (event.elim rec fun event => rec.dropOutbox event.id) := by
  have hzero : ¬"0" = "1" := by decide
  unfold RedisScripts.dropParked
  cases event with
  | some event => exact steps_dropOutbox event.id rfl rfl rfl rfl
  | none =>
    simp only [Option.isSome_none, Bool.false_eq_true, if_false, if_neg hzero]
    exact steps_pure ()

theorem steps_parkEvent (lease : Lease) (row : ParkedRow ι) :
    c.Steps key rec (c.write key lease (.parkEvent row))
      (if rec.fenced lease then .ok ()
        else .error (leaseLostError key.poller key.partition lease.epoch))
      (if rec.fenced lease then rec.parkEvent row else rec) := by
  refine steps_fencedCall lease rfl rfl ?_
  rw [parkEvent_eq]
  refine (steps_arg rfl).bind ((steps_arg rfl).bind ((steps_put .parked row rfl).bind ?_))
  refine (steps_arg rfl).bind ((steps_arg rfl).bind ((steps_arg rfl).bind ?_))
  refine (steps_setHold row.id row.holdKey).bind ?_
  refine (steps_arg rfl).bind ((steps_arg rfl).bind ?_)
  exact (steps_dropParked row.event).bind ((steps_arg rfl).bind steps_sadd)

theorem steps_setValidator (lease : Lease) (urlHash : String) (validator : Validator) :
    c.Steps key rec (c.write key lease (.setValidator urlHash validator))
      (if rec.fenced lease then .ok ()
        else .error (leaseLostError key.poller key.partition lease.epoch))
      (if rec.fenced lease then rec.setValidator urlHash validator else rec) := by
  refine steps_fencedCall lease rfl rfl ?_
  refine (steps_arg rfl).bind ((steps_arg rfl).bind ?_)
  exact (steps_put .validators validator rfl).bind ((steps_arg rfl).bind steps_sadd)

/-! ### Commits -/

/-- The keys of `COMMIT_POLL`. -/
def commitKeys (c : RedisClient ι) (key : PKey) : List String :=
  [c.keyName key .meta_, c.keyName key .state, c.keyName key .items, c.keyName key .outbox,
    c.keyName key .rows, c.keyName key .attempts, c.keyName key .errors, c.keyName key .parked,
    c.keyName key .hold, c.keyName key .log, c.keysSet]

section Commit

variable {argv l : List String} {i : Nat}

theorem steps_setPending (row : OutboxRow ι) :
    c.Steps key rec
      (RedisScripts.setPending (c.keyName key .outbox) (statusText row.status)
        (toString row.sequence) row.eventId) ()
      { rec with
        outbox :=
          if row.status = .pending then rec.outbox.set row.eventId row.sequence
          else rec.outbox.erase row.eventId } := by
  have hdelivered : ¬"delivered" = "pending" := by decide
  unfold RedisScripts.setPending
  cases row.status with
  | pending => exact steps_zadd .outbox row.sequence (toInt?_nat _)
  | delivered =>
    rw [statusText, if_neg hdelivered]
    exact (steps_zrem_one .outbox rfl).bind (steps_pure ())

theorem steps_addLogged (log : Bool) (e : LoggedEvent ι) :
    c.Steps key rec
      (RedisScripts.addLogged (c.keyName key .log) (toString e.sequence)
        (if log then c.json.logged.stringify e else "")) ()
      { rec with log := if log then rec.log.set (c.json.logged.stringify e) e else rec.log } := by
  unfold RedisScripts.addLogged
  cases log with
  | false => exact steps_pure ()
  | true =>
    have hsome : c.json.logged.stringify e ≠ "" := by
      intro hempty
      have hparse := c.json.logged.parse_stringify e
      rw [hempty, c.json.parse_empty] at hparse
      cases hparse
    rw [if_pos rfl, if_pos hsome]
    exact steps_zadd .log e (toInt?_nat _)

theorem steps_commitEvent (log : Bool) (row : OutboxRow ι)
    (h : Rest argv i (c.eventArgs log row ++ l)) :
    c.Steps key rec (RedisScripts.commitEvent (c.commitKeys key) argv i) 0
      (rec.commitEvent c.json.logged.stringify log row) := by
  refine (steps_arg h.head).bind ((steps_arg h.tail.head).bind ?_)
  refine (steps_arg h.tail.tail.head).bind ((steps_arg h.tail.tail.tail.head).bind ?_)
  refine (steps_arg h.tail.tail.tail.tail.head).bind ?_
  refine (steps_put .rows row rfl).bind ((steps_drop .attempts rfl).bind ?_)
  refine (steps_drop .errors rfl).bind ((steps_setPending row).bind ?_)
  exact (steps_addLogged log
    { sequence := row.sequence, event := row.event, createdAt := row.createdAt }).bind
      (steps_pure 0)

theorem steps_commitParked (row : ParkedRow ι) (h : Rest argv i (c.parkedArgs row ++ l)) :
    c.Steps key rec (RedisScripts.commitParked (c.commitKeys key) argv i) 0
      (rec.setParked row) := by
  refine (steps_arg h.head).bind ((steps_arg h.tail.head).bind ?_)
  refine (steps_arg h.tail.tail.head).bind ((steps_arg h.tail.tail.tail.head).bind ?_)
  refine (steps_put .parked row rfl).bind ?_
  exact (steps_setHold row.id row.holdKey).bind (steps_pure 0)

theorem steps_commitUpsert (row : ItemRow ι) (h : Rest argv i (c.upsertArgs row ++ l)) :
    c.Steps key rec (RedisScripts.commitUpsert (c.commitKeys key) argv i) 0
      (rec.put .items row.identity row) := by
  refine (steps_arg h.head).bind ((steps_arg h.tail.head).bind ?_)
  exact (steps_put .items row rfl).bind (steps_pure 0)

theorem steps_commitDelete (id : String) (h : Rest argv i ([id] ++ l)) :
    c.Steps key rec (RedisScripts.commitDelete (c.commitKeys key) argv i) 0
      (rec.drop .items id) :=
  (steps_arg h.head).bind ((steps_drop .items rfl).bind (steps_pure 0))

theorem foldl_put_items (rows : List (ItemRow ι)) (rec : RedisRecord ι) :
    rows.foldl (fun r row => r.put .items row.identity row) rec =
      { rec with items := rec.items.setAll (·.identity) rows } := by
  induction rows generalizing rec with
  | nil => rfl
  | cons row rows ih => exact ih _

theorem foldl_drop_items (ids : List String) (rec : RedisRecord ι) :
    ids.foldl (fun r id => r.drop .items id) rec =
      { rec with items := rec.items.eraseAll ids } := by
  induction ids generalizing rec with
  | nil => rfl
  | cons id ids ih => exact ih _

theorem steps_upserts (rows : List (ItemRow ι))
    (h : Rest argv i (toString rows.length :: rows.flatMap c.upsertArgs ++ l)) :
    c.Steps key rec (RedisScripts.segment argv 2
      (RedisScripts.commitUpsert (c.commitKeys key) argv) i) (i + 1 + 2 * rows.length)
      { rec with items := rec.items.setAll (·.identity) rows } := by
  rw [← foldl_put_items]
  refine steps_segment (P := fun _ => True) h (fun _ _ => rfl) trivial (fun _ _ _ => trivial) ?_
  intro row _ _ _ _ _ hi
  exact steps_commitUpsert row hi

theorem steps_deletes (ids : List String)
    (h : Rest argv i (toString ids.length :: ids.flatMap (fun id => [id]) ++ l)) :
    c.Steps key rec (RedisScripts.segment argv 1
      (RedisScripts.commitDelete (c.commitKeys key) argv) i) (i + 1 + 1 * ids.length)
      { rec with items := rec.items.eraseAll ids } := by
  rw [← foldl_drop_items]
  refine steps_segment (P := fun _ => True) h (fun _ _ => rfl) trivial (fun _ _ _ => trivial) ?_
  intro id _ _ _ _ _ hi
  exact steps_commitDelete id hi

theorem steps_events (log : Bool) (rows : List (OutboxRow ι))
    (h : Rest argv i (toString rows.length :: rows.flatMap (c.eventArgs log) ++ l)) :
    c.Steps key rec (RedisScripts.segment argv 5
      (RedisScripts.commitEvent (c.commitKeys key) argv) i) (i + 1 + 5 * rows.length)
      (rows.foldl (RedisRecord.commitEvent c.json.logged.stringify log) rec) := by
  refine steps_segment (P := fun _ => True) h (fun _ _ => rfl) trivial (fun _ _ _ => trivial) ?_
  intro row _ _ _ _ _ hi
  exact steps_commitEvent log row hi

theorem steps_parkeds (rows : List (ParkedRow ι))
    (h : Rest argv i (toString rows.length :: rows.flatMap c.parkedArgs ++ l)) :
    c.Steps key rec (RedisScripts.segment argv 4
      (RedisScripts.commitParked (c.commitKeys key) argv) i) (i + 1 + 4 * rows.length)
      (rows.foldl RedisRecord.setParked rec) := by
  refine steps_segment (P := fun _ => True) h (fun _ _ => rfl) trivial (fun _ _ _ => trivial) ?_
  intro row _ _ _ _ _ hi
  exact steps_commitParked row hi

/-- `COMMIT_POLL` reads off its arguments what `commitPoll` put there: each segment begins where the
one before ends. -/
theorem steps_commitPoll (lease : Lease) (batch : CommitBatch ι) :
    c.Steps key rec (c.write key lease (.commitPoll batch))
      (if rec.fenced lease then .ok ()
        else .error (leaseLostError key.poller key.partition lease.epoch))
      (if rec.fenced lease then rec.commitPoll c.json.logged.stringify batch else rec) := by
  refine steps_fencedCall lease rfl rfl ?_
  -- owner, epoch, member and the time of the patch stand before the segments
  have hpatch : Rest ([lease.owner, toString lease.epoch] ++ c.commitArgs key batch) 5
      (toString (c.patchPairs batch.statePatch).length ::
        (c.patchPairs batch.statePatch).flatMap (fun p => [p.1, p.2]) ++
        (toString batch.upserts.length :: batch.upserts.flatMap c.upsertArgs ++
          (toString batch.deletes.length :: batch.deletes.flatMap (fun id => [id]) ++
            (toString batch.events.length :: batch.events.flatMap (c.eventArgs batch.log) ++
              (toString batch.parked.length :: batch.parked.flatMap c.parkedArgs ++ []))))) := by
    refine ⟨by decide, ?_⟩
    rw [List.append_nil, List.flatMap_singleton']
    rfl
  have hupserts : Rest _ (5 + 1 + 2 * _) _ := hpatch.segment fun _ _ => rfl
  have hdeletes : Rest _ (_ + 1 + 2 * _) _ := hupserts.segment fun _ _ => rfl
  have hevents : Rest _ (_ + 1 + 1 * _) _ := hdeletes.segment fun _ _ => rfl
  have hparked : Rest _ (_ + 1 + 5 * _) _ := hevents.segment fun _ _ => rfl
  refine (steps_arg rfl).bind ((steps_applyState batch.statePatch hpatch).bind ?_)
  refine (steps_upserts batch.upserts hupserts).bind ?_
  refine (steps_deletes batch.deletes hdeletes).bind ?_
  refine (steps_events batch.log batch.events hevents).bind ?_
  refine (steps_parkeds batch.parked hparked).bind ?_
  exact (steps_arg rfl).bind steps_sadd

end Commit

end RedisClient

end Watukuy
