import Watukuy.Library.Leases
import Watukuy.Stores.RedisStore

/-!
# Fencing, store by store

The calls of a store about a lease or under one, as the engine's instances may issue them in any
order and with any clock. `memoryStore` and `redisStore` are the two stores; both simulate a lease
register (`Simulation`), which gives what the fence promises, `Fencing`.
-/

set_option autoImplicit false

namespace Watukuy

open Library

variable {ι : Type}

/-! ## Calls under leases -/

/-- The fenced writes. -/
inductive FencedWrite (ι : Type) where
  | saveState (patch : StatePatch)
  | commitPoll (batch : CommitBatch ι)
  | ackEvents (eventIds : List String)
  | recordAttempt (eventId : String) (error : SerializedError) (nextAttemptAt : Option Int)
  | parkEvent (row : ParkedRow ι)
  | setValidator (urlHash : String) (validator : Validator)

/-- A call about a lease, or a write under one. -/
inductive LeaseOp (ι : Type) where
  | acquireLease (owner : String) (ttlMs now : Int)
  | renewLease (lease : Lease) (ttlMs now : Int)
  | releaseLease (lease : Lease)
  | write (lease : Lease) (w : FencedWrite ι)

/-- What a call resolves to; a write may reject. -/
inductive LeaseAnswer where
  | acquired (lease : Option Lease)
  | renewed (ok : Bool)
  | released
  | written (res : Except JsError Unit)

/-- A store of one key, as far as leases go. -/
structure LeaseStore (ι : Type) where
  Record : Type
  fresh : PKey → Record
  getLease : Record → Option Lease
  run : LeaseOp ι → Record → LeaseAnswer × Record
  /-- What a write does that passes the fence. -/
  apply : FencedWrite ι → Record → Record

namespace LeaseStore

variable (s : LeaseStore ι) (key : PKey)

/-- The record of a key after some calls. -/
def after (ops : List (LeaseOp ι)) : s.Record :=
  ops.foldl (fun rec o => (s.run o rec).2) (s.fresh key)

/-- What a call resolves to after some calls. -/
def answer (ops : List (LeaseOp ι)) (o : LeaseOp ι) : LeaseAnswer := (s.run o (s.after key ops)).1

/-- After the calls `pre`, the calls `post` neither acquired the lease nor released `l`. -/
def InForce (pre : List (LeaseOp ι)) (l : Lease) (post : List (LeaseOp ι)) : Prop :=
  ∀ xs o ys, post = xs ++ o :: ys →
    (∀ l', s.answer key (pre ++ xs) o ≠ .acquired (some l')) ∧
      ∀ l', o = .releaseLease l' → ¬(l'.owner = l.owner ∧ l'.epoch = l.epoch)

end LeaseStore

/-- The expiry of a lease after calls throughout which it was in force. -/
def Lease.expiry (l : Lease) (ops : List (LeaseOp ι)) : Int :=
  ops.foldl (fun at_ o =>
    match o with
    | .renewLease l' ttlMs now =>
      if l'.owner = l.owner ∧ l'.epoch = l.epoch then now + ttlMs else at_
    | _ => at_) l.expiresAt

/-- What the fence of a store promises, over all sequences of calls on a key. -/
structure Fencing (s : LeaseStore ι) (key : PKey) : Prop where
  /-- Later epochs are larger. -/
  increasing : ∀ pre o mid o' l l', s.answer key pre o = .acquired (some l) →
    s.answer key (pre ++ o :: mid) o' = .acquired (some l') → l.epoch < l'.epoch
  /-- The stored lease is the one granted last, unless it was released, with its last extension. -/
  held : ∀ ops l, s.getLease (s.after key ops) = some l ↔
    ∃ pre o post granted, ops = pre ++ o :: post ∧
      s.answer key pre o = .acquired (some granted) ∧ s.InForce key (pre ++ [o]) granted post ∧
      l = { granted with expiresAt := granted.expiry post }
  /-- An acquisition is refused exactly while another owner holds an unexpired lease. -/
  refused : ∀ ops owner ttlMs now,
    s.answer key ops (.acquireLease owner ttlMs now) = .acquired none ↔
      ∃ l, s.getLease (s.after key ops) = some l ∧ l.owner ≠ owner ∧ now < l.expiresAt
  /-- A write takes effect exactly while its lease is in force. -/
  write : ∀ pre o l post w, s.answer key pre o = .acquired (some l) →
    (s.run (.write l w) (s.after key (pre ++ o :: post)) =
        (.written (.ok ()), s.apply w (s.after key (pre ++ o :: post))) ↔
      s.InForce key (pre ++ [o]) l post)
  /-- So does a renewal. -/
  renew : ∀ pre o l post ttlMs now, s.answer key pre o = .acquired (some l) →
    ((s.answer key (pre ++ o :: post) (.renewLease l ttlMs now) = .renewed true ∧
        s.getLease (s.after key (pre ++ o :: post ++ [.renewLease l ttlMs now])) =
          some { l with expiresAt := now + ttlMs }) ↔
      s.InForce key (pre ++ [o]) l post)
  /-- Otherwise the write rejects with `LeaseLostError` and changes nothing. -/
  rejected : ∀ ops l w,
    s.run (.write l w) (s.after key ops) =
        (.written (.ok ()), s.apply w (s.after key ops)) ∨
      ∃ e, e.isLeaseLost = true ∧
        s.run (.write l w) (s.after key ops) = (.written (.error e), s.after key ops)
  /-- A refused renewal or acquisition changes nothing either. -/
  unchanged : ∀ ops o, (s.answer key ops o = .renewed false ∨ s.answer key ops o = .acquired none) →
    s.after key (ops ++ [o]) = s.after key ops

/-! ## Simulation of a register -/

/-- A lease as a grant. -/
def Lease.grant (l : Lease) : Grant String := ⟨l.owner, l.epoch, l.expiresAt⟩

theorem Lease.grant_injective {l l' : Lease} (h : l.grant = l'.grant) : l = l' := by
  cases l
  cases l'
  simpa [Lease.grant] using h

/-- The call on the register. -/
def LeaseOp.call : LeaseOp ι → LeaseCall String
  | .acquireLease owner ttlMs now => .acquire owner ttlMs now
  | .renewLease lease ttlMs now => .renew lease.grant ttlMs now
  | .releaseLease lease => .release lease.grant
  | .write lease _ => .write lease.grant

/-- The reply of the register. -/
def LeaseAnswer.reply : LeaseAnswer → LeaseReply String
  | .acquired (some lease) => .granted lease.grant
  | .acquired none => .refused
  | .renewed true => .done
  | .renewed false => .refused
  | .released => .done
  | .written (.ok _) => .done
  | .written (.error _) => .refused

/-- The answer is one to the call. -/
def LeaseAnswer.Fits : LeaseAnswer → LeaseOp ι → Prop
  | .acquired _, .acquireLease _ _ _ => True
  | .renewed _, .renewLease _ _ _ => True
  | .released, .releaseLease _ => True
  | .written (.ok _), .write _ _ => True
  | .written (.error e), .write _ _ => e.isLeaseLost = true
  | _, _ => False

/-- The store simulates a register, in the records `Inv` describes. -/
structure Simulation (s : LeaseStore ι) where
  register : s.Record → Register String
  Inv : s.Record → Prop
  inv_fresh : ∀ key, Inv (s.fresh key)
  inv_run : ∀ o rec, Inv rec → Inv (s.run o rec).2
  register_fresh : ∀ key, register (s.fresh key) = .fresh
  register_run : ∀ o rec, Inv rec → register (s.run o rec).2 = ((register rec).step o.call).2
  reply_run : ∀ o rec, Inv rec → (s.run o rec).1.reply = ((register rec).step o.call).1
  fits : ∀ o rec, (s.run o rec).1.Fits o
  getLease_eq : ∀ rec, Inv rec → (s.getLease rec).map Lease.grant = (register rec).current
  written : ∀ l w rec, (s.run (.write l w) rec).1 = .written (.ok ()) →
    (s.run (.write l w) rec).2 = s.apply w rec
  unchanged : ∀ o rec, (s.run o rec).1.reply = .refused → (s.run o rec).2 = rec

namespace Simulation

variable {s : LeaseStore ι} (sim : Simulation s) (key : PKey)

include sim

theorem inv_after (ops : List (LeaseOp ι)) : sim.Inv (s.after key ops) := by
  induction ops using List.reverseRecOn with
  | nil => exact sim.inv_fresh key
  | append_singleton ops o ih =>
    have hrun := sim.inv_run o _ ih
    simpa [LeaseStore.after] using hrun

/-- The register after the calls is the one the record shows. -/
theorem register_after (ops : List (LeaseOp ι)) :
    sim.register (s.after key ops) = Register.fresh.after (ops.map LeaseOp.call) := by
  induction ops using List.reverseRecOn with
  | nil => exact sim.register_fresh key
  | append_singleton ops o ih =>
    have hrun := sim.register_run o _ (sim.inv_after key ops)
    rw [ih] at hrun
    simpa [LeaseStore.after, Register.after] using hrun

theorem reply_answer (ops : List (LeaseOp ι)) (o : LeaseOp ι) :
    (s.answer key ops o).reply = Register.fresh.reply (ops.map LeaseOp.call) o.call := by
  have hreply := sim.reply_run o _ (sim.inv_after key ops)
  rw [sim.register_after] at hreply
  exact hreply

theorem getLease_after (ops : List (LeaseOp ι)) :
    (s.getLease (s.after key ops)).map Lease.grant =
      (Register.fresh.after (ops.map LeaseOp.call)).current := by
  rw [sim.getLease_eq _ (sim.inv_after key ops), sim.register_after]

/-- A grant of the register is a lease of the store. -/
theorem granted_iff (ops : List (LeaseOp ι)) (o : LeaseOp ι) (g : Grant String) :
    Register.fresh.reply (ops.map LeaseOp.call) o.call = .granted g ↔
      ∃ l : Lease, g = l.grant ∧ s.answer key ops o = .acquired (some l) := by
  rw [← sim.reply_answer key]
  constructor
  · intro h
    cases hanswer : s.answer key ops o with
    | acquired got =>
      cases got with
      | none => simp [hanswer, LeaseAnswer.reply] at h
      | some l =>
        simp only [hanswer, LeaseAnswer.reply, LeaseReply.granted.injEq] at h
        exact ⟨l, h.symm, rfl⟩
    | renewed ok => cases ok <;> simp [hanswer, LeaseAnswer.reply] at h
    | released => simp [hanswer, LeaseAnswer.reply] at h
    | written res => cases res <;> simp [hanswer, LeaseAnswer.reply] at h
  · rintro ⟨l, rfl, hl⟩
    rw [hl]
    rfl

theorem granted (ops : List (LeaseOp ι)) (o : LeaseOp ι) {l : Lease}
    (h : s.answer key ops o = .acquired (some l)) :
    Register.fresh.reply (ops.map LeaseOp.call) o.call = .granted l.grant :=
  (sim.granted_iff key ops o l.grant).2 ⟨l, rfl, h⟩

/-- A lease is in force in the store when it is in the register. -/
theorem inForce_iff (pre post : List (LeaseOp ι)) (l : Lease) :
    s.InForce key pre l post ↔
      (Register.fresh.after (pre.map LeaseOp.call)).InForce l.grant (post.map LeaseOp.call) := by
  constructor
  · intro h xs call ys heq
    obtain ⟨xs', rest, rfl, rfl, hrest⟩ := List.map_eq_append_iff.1 heq
    obtain ⟨o, ys', rfl, rfl, rfl⟩ := List.map_eq_cons_iff.1 hrest
    obtain ⟨hgrant, hrel⟩ := h xs' o ys' rfl
    constructor
    · intro g hg
      rw [← Register.reply_append, ← List.map_append] at hg
      obtain ⟨l', -, hl'⟩ := (sim.granted_iff key _ o g).1 hg
      exact hgrant l' hl'
    · intro g hg
      cases o with
      | releaseLease l' =>
        cases hg
        exact hrel l' rfl
      | _ => cases hg
  · intro h xs o ys heq
    obtain ⟨hgrant, hrel⟩ := h (xs.map LeaseOp.call) o.call (ys.map LeaseOp.call) (by simp [heq])
    constructor
    · intro l' hl'
      have hg := sim.granted key _ o hl'
      rw [List.map_append, Register.reply_append] at hg
      exact hgrant _ hg
    · rintro l' rfl
      exact hrel l'.grant rfl

/-- The register holds a granted lease as long as it is in force. -/
theorem holds_iff {pre post : List (LeaseOp ι)} {o : LeaseOp ι} {l : Lease}
    (h : s.answer key pre o = .acquired (some l)) :
    (Register.fresh.after ((pre ++ o :: post).map LeaseOp.call)).Holds l.grant ↔
      s.InForce key (pre ++ [o]) l post := by
  have hholds : (Register.fresh.after (pre.map LeaseOp.call ++ o.call :: post.map LeaseOp.call)).Holds
      l.grant ↔ _ := Register.holds_iff_inForce Register.counted_fresh (sim.granted key pre o h)
  rw [sim.inForce_iff]
  simpa using hholds

omit sim in
theorem expiry_eq (l : Lease) (ops : List (LeaseOp ι)) :
    Register.expiry l.grant (ops.map LeaseOp.call) = l.expiry ops := by
  simp only [Register.expiry, Lease.expiry, List.foldl_map]
  apply congrArg (fun f => ops.foldl f l.expiresAt)
  funext at_ o
  cases o <;> rfl

/-- A write is answered by success or by `LeaseLostError`. -/
theorem write_cases (ops : List (LeaseOp ι)) (l : Lease) (w : FencedWrite ι) :
    (s.answer key ops (.write l w) = .written (.ok ()) ∧
        (Register.fresh.after (ops.map LeaseOp.call)).Holds l.grant) ∨
      ∃ e, e.isLeaseLost = true ∧ s.answer key ops (.write l w) = .written (.error e) ∧
        ¬(Register.fresh.after (ops.map LeaseOp.call)).Holds l.grant := by
  have hfits := sim.fits (.write l w) (s.after key ops)
  have hreply := sim.reply_answer key ops (.write l w)
  unfold LeaseStore.answer at hreply ⊢
  cases hanswer : (s.run (.write l w) (s.after key ops)).1 with
  | written res =>
    rw [hanswer] at hfits hreply
    by_cases hholds : (Register.fresh.after (ops.map LeaseOp.call)).Holds l.grant
    · cases res with
      | ok x => exact Or.inl ⟨rfl, hholds⟩
      | error e => simp [LeaseAnswer.reply, Register.reply, LeaseOp.call, Register.step, hholds] at hreply
    · cases res with
      | ok x => simp [LeaseAnswer.reply, Register.reply, LeaseOp.call, Register.step, hholds] at hreply
      | error e => exact Or.inr ⟨e, hfits, rfl, hholds⟩
  | acquired l' => rw [hanswer] at hfits; exact hfits.elim
  | renewed ok => rw [hanswer] at hfits; exact hfits.elim
  | released => rw [hanswer] at hfits; exact hfits.elim

/-- The stored lease is that of the grant in force, with its last extension. -/
theorem held_iff (ops : List (LeaseOp ι)) (l : Lease) :
    s.getLease (s.after key ops) = some l ↔
      ∃ pre o post granted, ops = pre ++ o :: post ∧
        s.answer key pre o = .acquired (some granted) ∧ s.InForce key (pre ++ [o]) granted post ∧
        l = { granted with expiresAt := granted.expiry post } := by
  have hcurrent := Register.current_iff (ops.map LeaseOp.call) l.grant
  rw [← sim.getLease_after key] at hcurrent
  have hsome : s.getLease (s.after key ops) = some l ↔
      (s.getLease (s.after key ops)).map Lease.grant = some l.grant := by
    cases s.getLease (s.after key ops) with
    | none => simp
    | some l₀ =>
      simp only [Option.some.injEq, Option.map_some]
      exact ⟨fun heq => by rw [heq], Lease.grant_injective⟩
  rw [hsome, hcurrent]
  -- the register's calls are those of the store, one by one
  constructor
  · rintro ⟨xs, call, ys, g, heq, hg, hforce, hl⟩
    obtain ⟨pre, rest, rfl, rfl, hrest⟩ := List.map_eq_append_iff.1 heq
    obtain ⟨o, post, rfl, rfl, rfl⟩ := List.map_eq_cons_iff.1 hrest
    obtain ⟨granted, rfl, hanswer⟩ := (sim.granted_iff key pre o g).1 hg
    refine ⟨pre, o, post, granted, rfl, hanswer, ?_, ?_⟩
    · rw [sim.inForce_iff]
      simpa using hforce
    · rw [expiry_eq] at hl
      exact Lease.grant_injective hl
  · rintro ⟨pre, o, post, granted, rfl, hanswer, hforce, rfl⟩
    rw [sim.inForce_iff] at hforce
    refine ⟨pre.map LeaseOp.call, o.call, post.map LeaseOp.call, granted.grant, by simp,
      sim.granted key pre o hanswer, by simpa using hforce, ?_⟩
    rw [expiry_eq]
    rfl

/-- The register blocks an owner when the store has the unexpired lease of another one. -/
theorem blocks_iff (ops : List (LeaseOp ι)) (owner : String) (now : Int) :
    (Register.fresh.after (ops.map LeaseOp.call)).Blocks owner now ↔
      ∃ l, s.getLease (s.after key ops) = some l ∧ l.owner ≠ owner ∧ now < l.expiresAt := by
  unfold Register.Blocks
  rw [← sim.getLease_after key ops]
  constructor
  · rintro ⟨c, hc, howner, hlt⟩
    obtain ⟨l, hl, rfl⟩ := Option.map_eq_some_iff.1 hc
    exact ⟨l, hl, howner, hlt⟩
  · rintro ⟨l, hl, howner, hlt⟩
    exact ⟨l.grant, by rw [hl]; rfl, howner, hlt⟩

/-- An acquisition is refused exactly when the register blocks its owner. -/
theorem refused_iff (ops : List (LeaseOp ι)) (owner : String) (ttlMs now : Int) :
    s.answer key ops (.acquireLease owner ttlMs now) = .acquired none ↔
      ∃ l, s.getLease (s.after key ops) = some l ∧ l.owner ≠ owner ∧ now < l.expiresAt := by
  have hfits := sim.fits (.acquireLease owner ttlMs now) (s.after key ops)
  have hreply := sim.reply_answer key ops (.acquireLease owner ttlMs now)
  rw [← sim.blocks_iff]
  unfold LeaseStore.answer at hreply ⊢
  cases hanswer : (s.run (.acquireLease owner ttlMs now) (s.after key ops)).1 with
  | acquired got =>
    rw [hanswer] at hreply
    by_cases hb : (Register.fresh.after (ops.map LeaseOp.call)).Blocks owner now
    · cases got with
      | none => simp [hb]
      | some l => simp [LeaseAnswer.reply, Register.reply, LeaseOp.call, Register.step, hb] at hreply
    · cases got with
      | none => simp [LeaseAnswer.reply, Register.reply, LeaseOp.call, Register.step, hb] at hreply
      | some l => simp [hb]
  | renewed ok => rw [hanswer] at hfits; exact hfits.elim
  | released => rw [hanswer] at hfits; exact hfits.elim
  | written res => rw [hanswer] at hfits; cases res <;> exact hfits.elim

/-- A renewal is answered by `true` exactly when the register holds the lease. -/
theorem renewed_iff (ops : List (LeaseOp ι)) (l : Lease) (ttlMs now : Int) :
    s.answer key ops (.renewLease l ttlMs now) = .renewed true ↔
      (Register.fresh.after (ops.map LeaseOp.call)).Holds l.grant := by
  have hreply := sim.reply_answer key ops (.renewLease l ttlMs now)
  have hfits := sim.fits (.renewLease l ttlMs now) (s.after key ops)
  rw [Register.reply] at hreply
  unfold LeaseStore.answer at hreply ⊢
  cases hanswer : (s.run (.renewLease l ttlMs now) (s.after key ops)).1 with
  | renewed ok =>
    rw [hanswer] at hreply
    by_cases hholds : (Register.fresh.after (ops.map LeaseOp.call)).Holds l.grant
    · cases ok with
      | true => simp [hholds]
      | false => simp [LeaseAnswer.reply, LeaseOp.call, Register.step, hholds] at hreply
    · cases ok with
      | true => simp [LeaseAnswer.reply, LeaseOp.call, Register.step, hholds] at hreply
      | false => simp [hholds]
  | acquired l' => rw [hanswer] at hfits; exact hfits.elim
  | released => rw [hanswer] at hfits; exact hfits.elim
  | written res => rw [hanswer] at hfits; cases res <;> exact hfits.elim

/-- A renewal under the lease that is held moves its expiry. -/
theorem getLease_renewed {ops : List (LeaseOp ι)} {l : Lease}
    (h : (Register.fresh.after (ops.map LeaseOp.call)).Holds l.grant) (ttlMs now : Int) :
    s.getLease (s.after key (ops ++ [.renewLease l ttlMs now])) =
      some { l with expiresAt := now + ttlMs } := by
  have hlease := sim.getLease_after key (ops ++ [.renewLease l ttlMs now])
  obtain ⟨c, hc, hsame⟩ := h
  have hheld : (Register.fresh.after (ops.map LeaseOp.call)).Holds l.grant := ⟨c, hc, hsame⟩
  rw [List.map_append, Register.after_append] at hlease
  generalize Register.fresh.after (ops.map LeaseOp.call) = r at hlease hc hheld
  simp only [List.map_cons, List.map_nil, LeaseOp.call, Register.after, List.foldl_cons,
    List.foldl_nil, Register.step, hheld, if_true, hc, Option.map_some] at hlease
  obtain ⟨l₀, hl₀, heq⟩ := Option.map_eq_some_iff.1 hlease
  rw [hl₀]
  apply congrArg some
  apply Lease.grant_injective
  rw [heq]
  cases c
  obtain ⟨rfl, rfl⟩ := hsame
  rfl

/-- A store that simulates a register is fenced. -/
theorem fencing : Fencing s key where
  increasing pre o mid o' l l' h h' := by
    have hg := sim.granted key pre o h
    have hg' := sim.granted key _ o' h'
    rw [List.map_append, List.map_cons] at hg'
    exact Register.granted_lt _ hg hg'
  held := sim.held_iff key
  refused := sim.refused_iff key
  write pre o l post w h := by
    rw [← sim.holds_iff key h]
    constructor
    · intro hrun
      rcases sim.write_cases key (pre ++ o :: post) l w with ⟨-, hholds⟩ | ⟨e, -, hanswer, -⟩
      · exact hholds
      · rw [LeaseStore.answer, hrun] at hanswer
        cases hanswer
    · intro hholds
      rcases sim.write_cases key (pre ++ o :: post) l w with ⟨hanswer, -⟩ | ⟨e, -, -, hno⟩
      · exact Prod.ext hanswer (sim.written l w _ hanswer)
      · exact absurd hholds hno
  renew pre o l post ttlMs now h := by
    rw [← sim.holds_iff key h, sim.renewed_iff]
    exact and_iff_left_of_imp fun hholds => sim.getLease_renewed key hholds ttlMs now
  rejected ops l w := by
    rcases sim.write_cases key ops l w with ⟨hanswer, -⟩ | ⟨e, he, hanswer, -⟩
    · exact Or.inl (Prod.ext hanswer (sim.written l w _ hanswer))
    · refine Or.inr ⟨e, he, Prod.ext hanswer (sim.unchanged _ _ ?_)⟩
      rw [LeaseStore.answer] at hanswer
      rw [hanswer]
      rfl
  unchanged ops o h := by
    have hrefused : (s.answer key ops o).reply = .refused := by
      rcases h with h | h <;> rw [h] <;> rfl
    have hsame := sim.unchanged o _ hrefused
    simpa [LeaseStore.after] using hsame

end Simulation

/-! ## The memory store -/

namespace MemoryStore

/-- A fenced write, past the fence. -/
def apply (w : FencedWrite ι) (rec : KeyRecord ι) : KeyRecord ι :=
  match w with
  | .saveState patch => rec.applyPatch patch
  | .commitPoll batch => rec.commit batch
  | .ackEvents eventIds => rec.ack eventIds
  | .recordAttempt eventId error nextAttemptAt => rec.noteAttempt eventId (some error) nextAttemptAt
  | .parkEvent row => rec.park row
  | .setValidator urlHash validator =>
    { rec with validators := rec.validators.set urlHash validator }

/-- A fenced write as the store performs it. -/
def write (lease : Lease) (w : FencedWrite ι) (rec : KeyRecord ι) :
    Except JsError Unit × KeyRecord ι :=
  match w with
  | .saveState patch => (StoreOp.saveState lease patch).run rec
  | .commitPoll batch => (StoreOp.commitPoll lease batch).run rec
  | .ackEvents eventIds => (StoreOp.ackEvents lease eventIds).run rec
  | .recordAttempt eventId error nextAttemptAt =>
    (StoreOp.recordAttempt lease eventId error nextAttemptAt).run rec
  | .parkEvent row => (StoreOp.parkEvent lease row).run rec
  | .setValidator urlHash validator => (StoreOp.setValidator lease urlHash validator).run rec

def run (o : LeaseOp ι) (rec : KeyRecord ι) : LeaseAnswer × KeyRecord ι :=
  match o with
  | .acquireLease owner ttlMs now =>
    let (lease, rec) := rec.acquireLease owner ttlMs now
    (.acquired lease, rec)
  | .renewLease lease ttlMs now =>
    let (ok, rec) := rec.renewLease lease ttlMs now
    (.renewed ok, rec)
  | .releaseLease lease => (.released, rec.releaseLease lease)
  | .write lease w =>
    let (res, rec) := write lease w rec
    (.written res, rec)

theorem write_eq (lease : Lease) (w : FencedWrite ι) (rec : KeyRecord ι) :
    write lease w rec = rec.fenced lease (apply w) := by
  cases w <;> rfl

/-- No write touches the lease. -/
theorem apply_lease (w : FencedWrite ι) (rec : KeyRecord ι) :
    (apply w rec).lease = rec.lease ∧ (apply w rec).epochCounter = rec.epochCounter := by
  cases w with
  | recordAttempt eventId error nextAttemptAt =>
    simp only [apply, KeyRecord.noteAttempt]
    split <;> exact ⟨rfl, rfl⟩
  | _ => exact ⟨rfl, rfl⟩

/-- The lease of a record, as a register. -/
def register (rec : KeyRecord ι) : Register String := ⟨rec.lease.map Lease.grant, rec.epochCounter⟩

theorem register_holds (rec : KeyRecord ι) (l : Lease) :
    (register rec).Holds l.grant ↔ rec.holds l = true := by
  unfold Register.Holds KeyRecord.holds register
  cases rec.lease with
  | none => simp
  | some c => simp [Lease.grant, Grant.Same]

theorem register_blocks (rec : KeyRecord ι) (owner : String) (now : Int) :
    (register rec).Blocks owner now ↔ rec.heldByOther owner now = true := by
  unfold Register.Blocks KeyRecord.heldByOther register
  cases rec.lease with
  | none => simp
  | some c => simp [Lease.grant, and_comm]

/-- Every call answers and acts as on the register. -/
theorem run_step (o : LeaseOp ι) (rec : KeyRecord ι) :
    ((run o rec).1.reply, register (run o rec).2) = (register rec).step o.call := by
  cases o with
  | acquireLease owner ttlMs now =>
    have hblocks := register_blocks rec owner now
    by_cases h : rec.heldByOther owner now = true
    · have hb := hblocks.2 h
      simp [run, KeyRecord.acquireLease, LeaseOp.call, Register.step, h, hb, LeaseAnswer.reply]
    · have hb := mt hblocks.1 h
      simp only [LeaseOp.call, Register.step, hb]
      simp [run, KeyRecord.acquireLease, h, LeaseAnswer.reply, register, Lease.grant]
  | renewLease lease ttlMs now =>
    have hholds := register_holds rec lease
    by_cases h : rec.holds lease = true
    · have hh := hholds.2 h
      simp only [LeaseOp.call, Register.step, hh]
      cases hl : rec.lease <;>
        simp [run, KeyRecord.renewLease, h, LeaseAnswer.reply, register, hl, Lease.grant]
    · have hh := mt hholds.1 h
      simp [run, KeyRecord.renewLease, LeaseOp.call, Register.step, h, hh, LeaseAnswer.reply]
  | releaseLease lease =>
    have hholds := register_holds rec lease
    by_cases h : rec.holds lease = true
    · have hh := hholds.2 h
      simp only [LeaseOp.call, Register.step, hh]
      simp [run, KeyRecord.releaseLease, h, LeaseAnswer.reply, register]
    · have hh := mt hholds.1 h
      simp [run, KeyRecord.releaseLease, LeaseOp.call, Register.step, h, hh, LeaseAnswer.reply]
  | write lease w =>
    have hholds := register_holds rec lease
    by_cases h : rec.holds lease = true
    · have hh := hholds.2 h
      simp only [LeaseOp.call, Register.step, hh]
      simp [run, write_eq, KeyRecord.fenced, h, LeaseAnswer.reply, register, apply_lease]
    · have hh := mt hholds.1 h
      simp [run, write_eq, KeyRecord.fenced, LeaseOp.call, Register.step, h, hh, LeaseAnswer.reply]

/-- A refused call changes nothing. -/
theorem run_refused (o : LeaseOp ι) (rec : KeyRecord ι) (h : (run o rec).1.reply = .refused) :
    (run o rec).2 = rec := by
  cases o with
  | acquireLease owner ttlMs now =>
    by_cases hb : rec.heldByOther owner now = true <;>
      simp [run, KeyRecord.acquireLease, hb, LeaseAnswer.reply] at h ⊢
  | renewLease lease ttlMs now =>
    by_cases hh : rec.holds lease = true <;>
      simp [run, KeyRecord.renewLease, hh, LeaseAnswer.reply] at h ⊢
  | releaseLease lease => cases h
  | write lease w =>
    by_cases hh : rec.holds lease = true <;>
      simp [run, write_eq, KeyRecord.fenced, hh, LeaseAnswer.reply] at h ⊢

theorem run_fits (o : LeaseOp ι) (rec : KeyRecord ι) : (run o rec).1.Fits o := by
  cases o with
  | write lease w =>
    by_cases hh : rec.holds lease = true
    · simp [run, write_eq, KeyRecord.fenced, hh, LeaseAnswer.Fits]
    · simp [run, write_eq, KeyRecord.fenced, hh, LeaseAnswer.Fits, leaseLostError,
        JsError.isLeaseLost]
  | _ => trivial

theorem run_written (l : Lease) (w : FencedWrite ι) (rec : KeyRecord ι)
    (h : (run (.write l w) rec).1 = .written (.ok ())) :
    (run (.write l w) rec).2 = apply w rec := by
  by_cases hh : rec.holds l = true <;> simp [run, write_eq, KeyRecord.fenced, hh] at h ⊢

end MemoryStore

/-- `MemoryStore`. -/
def memoryStore (ι : Type) : LeaseStore ι where
  Record := KeyRecord ι
  fresh := .fresh
  getLease rec := rec.lease
  run := MemoryStore.run
  apply := MemoryStore.apply

/-- The memory store simulates a register. -/
def memorySimulation : Simulation (memoryStore ι) where
  register := MemoryStore.register
  Inv _ := True
  inv_fresh _ := trivial
  inv_run _ _ _ := trivial
  register_fresh _ := rfl
  register_run o rec _ := congrArg Prod.snd (MemoryStore.run_step o rec)
  reply_run o rec _ := congrArg Prod.fst (MemoryStore.run_step o rec)
  fits := MemoryStore.run_fits
  getLease_eq _ _ := rfl
  written := MemoryStore.run_written
  unchanged := MemoryStore.run_refused

/-! ## The Redis store -/

namespace RedisStore

/-- A fenced script, past the fence. -/
def apply (logText : LoggedEvent ι → String) (w : FencedWrite ι) (rec : RedisRecord ι) :
    RedisRecord ι :=
  match w with
  | .saveState patch => rec.saveState patch
  | .commitPoll batch => rec.commitPoll logText batch
  | .ackEvents eventIds => rec.ackEvents eventIds
  | .recordAttempt eventId error nextAttemptAt =>
    rec.recordAttempt eventId { lastError := some error, nextAttemptAt }
  | .parkEvent row => rec.parkEvent row
  | .setValidator urlHash validator => rec.setValidator urlHash validator

/-- `fenced`: the sentinel reply becomes `LeaseLostError`. -/
def write (logText : LoggedEvent ι → String) (lease : Lease) (w : FencedWrite ι)
    (rec : RedisRecord ι) : Except JsError Unit × RedisRecord ι :=
  if rec.fenced lease then (.ok (), apply logText w rec)
  else (.error (leaseLostError rec.key.poller rec.key.partition lease.epoch), rec)

def run (logText : LoggedEvent ι → String) (o : LeaseOp ι) (rec : RedisRecord ι) :
    LeaseAnswer × RedisRecord ι :=
  match o with
  | .acquireLease owner ttlMs now =>
    let (lease, rec) := rec.acquireLease owner ttlMs now
    (.acquired lease, rec)
  | .renewLease lease ttlMs now =>
    let (ok, rec) := rec.renewLease lease ttlMs now
    (.renewed ok, rec)
  | .releaseLease lease => (.released, rec.releaseLease lease)
  | .write lease w =>
    let (res, rec) := write logText lease w rec
    (.written res, rec)

/-- The three fields of a lease are there together. -/
inductive Whole (rec : RedisRecord ι) : Prop where
  | free (owner : rec.meta_.leaseOwner = none) (epoch : rec.meta_.leaseEpoch = none)
  | held (owner : String) (epoch : Nat) (expiresAt : Int) (ho : rec.meta_.leaseOwner = some owner)
      (he : rec.meta_.leaseEpoch = some epoch) (hx : rec.meta_.leaseExpiresAt = some expiresAt)

/-- The lease of a record, as a register. -/
def register (rec : RedisRecord ι) : Register String :=
  ⟨rec.getLease.map Lease.grant, rec.meta_.epochCounter⟩

section

variable {logText : LoggedEvent ι → String} {rec : RedisRecord ι}

/-- No write touches the `:meta` hash. -/
theorem apply_meta (w : FencedWrite ι) : (apply logText w rec).meta_ = rec.meta_ := by
  cases w with
  | saveState patch => rfl
  | commitPoll batch => exact RedisRecord.commitPoll_meta logText rec batch
  | ackEvents ids => exact RedisRecord.ackEvents_meta rec ids
  | recordAttempt id error next => exact RedisRecord.recordAttempt_meta rec id _
  | parkEvent row => exact RedisRecord.parkEvent_meta rec row
  | setValidator urlHash validator => rfl

theorem Whole.congr {rec' : RedisRecord ι} (h : rec'.meta_ = rec.meta_) (hw : Whole rec) :
    Whole rec' := by
  cases hw with
  | free ho he => exact .free (h ▸ ho) (h ▸ he)
  | held owner epoch expiresAt ho he hx =>
    exact .held owner epoch expiresAt (h ▸ ho) (h ▸ he) (h ▸ hx)

theorem register_holds (hw : Whole rec) (l : Lease) :
    (register rec).Holds l.grant ↔ rec.fenced l = true := by
  cases hw with
  | free ho he => simp [Register.Holds, register, RedisRecord.getLease, RedisRecord.fenced, ho]
  | held owner epoch expiresAt ho he hx =>
    simp [Register.Holds, register, RedisRecord.getLease, RedisRecord.fenced, ho, he, hx,
      Lease.grant, Grant.Same]

theorem register_blocks (hw : Whole rec) (owner : String) (now : Int) :
    (register rec).Blocks owner now ↔ rec.heldByOther owner now = true := by
  cases hw with
  | free ho he => simp [Register.Blocks, register, RedisRecord.getLease, RedisRecord.heldByOther, ho]
  | held owner epoch expiresAt ho he hx =>
    simp [Register.Blocks, register, RedisRecord.getLease, RedisRecord.heldByOther, ho, he, hx,
      Lease.grant]

theorem whole_run (o : LeaseOp ι) (hw : Whole rec) : Whole (run logText o rec).2 := by
  cases o with
  | acquireLease owner ttlMs now =>
    by_cases h : rec.heldByOther owner now = true
    · simpa [run, RedisRecord.acquireLease, h] using hw
    · simp only [run, RedisRecord.acquireLease, h]
      exact .held owner _ _ rfl rfl rfl
  | renewLease lease ttlMs now =>
    by_cases h : rec.fenced lease = true
    · simp only [run, RedisRecord.renewLease, h, if_true]
      cases hw with
      | free ho he => simp [RedisRecord.fenced, ho] at h
      | held owner epoch expiresAt ho he hx => exact .held owner epoch _ ho he rfl
    · simpa [run, RedisRecord.renewLease, h] using hw
  | releaseLease lease =>
    by_cases h : rec.fenced lease = true
    · simp only [run, RedisRecord.releaseLease, h, if_true]
      exact .free rfl rfl
    · simpa [run, RedisRecord.releaseLease, h] using hw
  | write lease w =>
    by_cases h : rec.fenced lease = true
    · simp only [run, write, h, if_true]
      exact hw.congr (apply_meta w)
    · simpa [run, write, h] using hw

/-- Every call answers and acts as on the register. -/
theorem run_step (o : LeaseOp ι) (hw : Whole rec) :
    ((run logText o rec).1.reply, register (run logText o rec).2) = (register rec).step o.call := by
  cases o with
  | acquireLease owner ttlMs now =>
    have hblocks := register_blocks hw owner now
    by_cases h : rec.heldByOther owner now = true
    · have hb := hblocks.2 h
      simp [run, RedisRecord.acquireLease, LeaseOp.call, Register.step, h, hb, LeaseAnswer.reply]
    · have hb := mt hblocks.1 h
      simp only [LeaseOp.call, Register.step, hb]
      simp [run, RedisRecord.acquireLease, h, LeaseAnswer.reply, register, RedisRecord.getLease,
        Lease.grant]
  | renewLease lease ttlMs now =>
    have hholds := register_holds hw lease
    by_cases h : rec.fenced lease = true
    · have hh := hholds.2 h
      simp only [LeaseOp.call, Register.step, hh]
      cases ho : rec.meta_.leaseOwner <;>
        simp [run, RedisRecord.renewLease, h, LeaseAnswer.reply, register, RedisRecord.getLease, ho,
          Lease.grant]
    · have hh := mt hholds.1 h
      simp [run, RedisRecord.renewLease, LeaseOp.call, Register.step, h, hh, LeaseAnswer.reply]
  | releaseLease lease =>
    have hholds := register_holds hw lease
    by_cases h : rec.fenced lease = true
    · have hh := hholds.2 h
      simp only [LeaseOp.call, Register.step, hh]
      simp [run, RedisRecord.releaseLease, h, LeaseAnswer.reply, register, RedisRecord.getLease]
    · have hh := mt hholds.1 h
      simp [run, RedisRecord.releaseLease, LeaseOp.call, Register.step, h, hh, LeaseAnswer.reply]
  | write lease w =>
    have hholds := register_holds hw lease
    by_cases h : rec.fenced lease = true
    · have hh := hholds.2 h
      simp only [LeaseOp.call, Register.step, hh]
      simp [run, write, h, LeaseAnswer.reply, register, RedisRecord.getLease, apply_meta]
    · have hh := mt hholds.1 h
      simp [run, write, LeaseOp.call, Register.step, h, hh, LeaseAnswer.reply]

/-- A refused call changes nothing. -/
theorem run_refused (o : LeaseOp ι) (h : (run logText o rec).1.reply = .refused) :
    (run logText o rec).2 = rec := by
  cases o with
  | acquireLease owner ttlMs now =>
    by_cases hb : rec.heldByOther owner now = true <;>
      simp [run, RedisRecord.acquireLease, hb, LeaseAnswer.reply] at h ⊢
  | renewLease lease ttlMs now =>
    by_cases hh : rec.fenced lease = true <;>
      simp [run, RedisRecord.renewLease, hh, LeaseAnswer.reply] at h ⊢
  | releaseLease lease => cases h
  | write lease w =>
    by_cases hh : rec.fenced lease = true <;> simp [run, write, hh, LeaseAnswer.reply] at h ⊢

theorem run_fits (o : LeaseOp ι) : (run logText o rec).1.Fits o := by
  cases o with
  | write lease w =>
    by_cases hh : rec.fenced lease = true
    · simp [run, write, hh, LeaseAnswer.Fits]
    · simp [run, write, hh, LeaseAnswer.Fits, leaseLostError, JsError.isLeaseLost]
  | _ => trivial

theorem run_written (l : Lease) (w : FencedWrite ι)
    (h : (run logText (.write l w) rec).1 = .written (.ok ())) :
    (run logText (.write l w) rec).2 = apply logText w rec := by
  by_cases hh : rec.fenced l = true <;> simp [run, write, hh] at h ⊢

end

end RedisStore

/-- `RedisStore`. -/
def redisStore (logText : LoggedEvent ι → String) : LeaseStore ι where
  Record := RedisRecord ι
  fresh key := { key }
  getLease := RedisRecord.getLease
  run := RedisStore.run logText
  apply := RedisStore.apply logText

/-- The Redis store simulates a register. -/
def redisSimulation (logText : LoggedEvent ι → String) : Simulation (redisStore logText) where
  register := RedisStore.register
  Inv := RedisStore.Whole
  inv_fresh _ := .free rfl rfl
  inv_run o _ hw := RedisStore.whole_run o hw
  register_fresh _ := rfl
  register_run o _ hw := congrArg Prod.snd (RedisStore.run_step o hw)
  reply_run o _ hw := congrArg Prod.fst (RedisStore.run_step o hw)
  fits o _ := RedisStore.run_fits o
  getLease_eq _ _ := rfl
  written l w _ := RedisStore.run_written l w
  unchanged o _ := RedisStore.run_refused o

/-- Both stores are fenced, whatever the order of the calls and the clocks of their callers. -/
theorem stores_fenced (logText : LoggedEvent ι → String) (key : PKey) :
    Fencing (memoryStore ι) key ∧ Fencing (redisStore logText) key :=
  ⟨memorySimulation.fencing key, (redisSimulation logText).fencing key⟩

end Watukuy
