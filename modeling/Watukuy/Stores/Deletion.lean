import Watukuy.Stores.Leases
import Watukuy.Stores.SqliteStore

/-!
# Deleted keys

`deleteKey` removes all rows of a key, its lease and the counter of its epochs among them, and the
epochs begin again at 1. So a lease from before is valid again as soon as its owner is granted the
epoch it had (`Forgets`): no later lease keeps it out then. A history may hold any calls that change
the record of the key; a register that is forgotten in between (`afterAll`) describes its lease.
-/

set_option autoImplicit false

namespace Watukuy

open Library

variable {ι : Type}

/-! ## The lease of the SQLite store -/

namespace SqliteStore

/-- A fenced write, past the fence. -/
def apply (w : FencedWrite ι) (rec : SqliteRecord ι) : SqliteRecord ι :=
  match w with
  | .saveState patch => rec.writeState patch
  | .commitPoll batch => rec.commitPoll batch
  | .ackEvents eventIds => { rec with outbox := rec.outbox.eraseAll eventIds }
  | .recordAttempt eventId error nextAttemptAt =>
    rec.recordAttempt eventId (some error) nextAttemptAt
  | .parkEvent row => rec.parkEvent row
  | .setValidator urlHash validator =>
    { rec with validators := rec.validators.set urlHash validator }

/-- `tx` around `fence` and a write: a failed fence rolls back. -/
def write (lease : Lease) (w : FencedWrite ι) (rec : SqliteRecord ι) :
    Except JsError Unit × SqliteRecord ι :=
  if rec.fence lease then (.ok (), apply w rec)
  else (.error (leaseLostError rec.key.poller rec.key.partition lease.epoch), rec)

def run (o : LeaseOp ι) (rec : SqliteRecord ι) : LeaseAnswer × SqliteRecord ι :=
  match o with
  | .acquireLease owner ttlMs now =>
    let (lease, rec) := rec.acquireLease owner ttlMs now
    (.acquired lease, rec)
  | .renewLease lease ttlMs now =>
    let (ok, rec) := rec.renewLease lease ttlMs now
    (.renewed ok, rec)
  | .releaseLease lease => (.released, rec.releaseLease lease)
  | .write lease w =>
    let (res, rec) := write lease w rec
    (.written res, rec)

/-- A lease has an expiry. -/
def Dated (rec : SqliteRecord ι) : Prop :=
  ∀ owner, rec.columns.leaseOwner = some owner → ∃ t, rec.columns.leaseExpiresAt = some t

/-- The lease of a record, as a register. -/
def register (rec : SqliteRecord ι) : Register String :=
  ⟨rec.getLease.map Lease.grant, rec.columns.epochCounter⟩

section

variable {rec : SqliteRecord ι}

/-- No write touches the columns of the lease. -/
theorem apply_columns (w : FencedWrite ι) : (apply w rec).columns = rec.columns := by
  cases w with
  | saveState patch => exact SqliteRecord.writeState_columns rec patch
  | commitPoll batch => exact SqliteRecord.commitPoll_columns rec batch
  | ackEvents ids => rfl
  | recordAttempt id error next =>
    exact SqliteRecord.columns_congr (SqliteRecord.recordAttempt_pollers rec id _ next)
  | parkEvent row => exact SqliteRecord.columns_congr (SqliteRecord.parkEvent_pollers rec row)
  | setValidator urlHash validator => rfl

theorem register_congr {rec' : SqliteRecord ι} (h : rec'.columns = rec.columns) :
    register rec' = register rec := by
  rw [register, register, SqliteRecord.getLease_eq, SqliteRecord.getLease_eq, h]

theorem register_holds (rec : SqliteRecord ι) (l : Lease) : (register rec).Holds l.grant ↔ rec.fence l = true := by
  unfold Register.Holds register SqliteRecord.fence
  cases rec.getLease with
  | none => simp
  | some c => simp [Lease.grant, Grant.Same]

theorem register_blocks (hd : Dated rec) (owner : String) (now : Int) :
    (register rec).Blocks owner now ↔
      ∃ row, rec.pollers = some row ∧ SqliteRecord.mayAcquire row owner now = false := by
  unfold Dated SqliteRecord.columns at hd
  unfold Register.Blocks register SqliteRecord.getLease SqliteRecord.toLease
  cases hp : rec.pollers with
  | none => simp
  | some row =>
    rw [hp] at hd
    cases ho : row.leaseOwner with
    | none => simp [ho, SqliteRecord.mayAcquire]
    | some current =>
      obtain ⟨t, ht⟩ := hd current ho
      have hx : row.leaseExpiresAt = some t := ht
      simp [ho, hx, SqliteRecord.mayAcquire, PollersRow.expired, Lease.grant, and_comm]

/-- The row that an update of the lease finds. -/
theorem leased_cases (rec : SqliteRecord ι) (l : Lease) :
    (rec.fence l = false ∧ rec.leased l = none) ∨
      ∃ row, rec.fence l = true ∧ rec.leased l = some row ∧ rec.pollers = some row := by
  unfold SqliteRecord.leased SqliteRecord.fence SqliteRecord.getLease SqliteRecord.toLease
  cases rec.pollers with
  | none => simp
  | some row =>
    cases ho : row.leaseOwner with
    | none => simp [ho, Option.filter]
    | some owner =>
      by_cases heq : owner = l.owner ∧ row.leaseEpoch = l.epoch
      · obtain ⟨rfl, he⟩ := heq
        simp [ho, he, Option.filter]
      · refine Or.inl ⟨?_, ?_⟩
        · simpa [ho] using heq
        · simpa [ho, Option.filter] using heq

/-- Every call answers and acts as on the register. -/
theorem run_step (o : LeaseOp ι) (hd : Dated rec) :
    ((run o rec).1.reply, register (run o rec).2) = (register rec).step o.call := by
  cases o with
  | acquireLease owner ttlMs now =>
    have hblocks := register_blocks hd owner now
    cases hp : rec.pollers with
    | none =>
      have hb : ¬(register rec).Blocks owner now := by simp [hblocks, hp]
      simp only [LeaseOp.call, Register.step, hb]
      simp [run, SqliteRecord.acquireLease, hp, LeaseAnswer.reply, register, SqliteRecord.getLease,
        SqliteRecord.toLease, SqliteRecord.columns, Lease.grant]
    | some row =>
      cases hm : SqliteRecord.mayAcquire row owner now with
      | true =>
        have hb : ¬(register rec).Blocks owner now := by simp [hblocks, hp, hm]
        simp only [LeaseOp.call, Register.step, hb]
        simp [run, SqliteRecord.acquireLease, hp, hm, LeaseAnswer.reply, register,
          SqliteRecord.getLease, SqliteRecord.toLease, SqliteRecord.columns, Lease.grant]
      | false =>
        have hb : (register rec).Blocks owner now := by simp [hblocks, hp, hm]
        simp [run, SqliteRecord.acquireLease, LeaseOp.call, Register.step, hp, hm, hb,
          LeaseAnswer.reply]
  | renewLease lease ttlMs now =>
    have hholds := register_holds rec lease
    rcases leased_cases rec lease with ⟨hf, hl⟩ | ⟨row, hf, hl, hp⟩
    · have hh : ¬(register rec).Holds lease.grant := by simp [hholds, hf]
      simp [run, SqliteRecord.renewLease, LeaseOp.call, Register.step, hl, hh, LeaseAnswer.reply]
    · have hh := hholds.2 hf
      simp only [LeaseOp.call, Register.step, hh]
      cases ho : row.leaseOwner <;>
        simp [run, SqliteRecord.renewLease, hl, hp, ho, LeaseAnswer.reply, register,
          SqliteRecord.getLease, SqliteRecord.toLease, SqliteRecord.columns, Lease.grant]
  | releaseLease lease =>
    have hholds := register_holds rec lease
    rcases leased_cases rec lease with ⟨hf, hl⟩ | ⟨row, hf, hl, hp⟩
    · have hh : ¬(register rec).Holds lease.grant := by simp [hholds, hf]
      simp [run, SqliteRecord.releaseLease, LeaseOp.call, Register.step, hl, hh, LeaseAnswer.reply]
    · have hh := hholds.2 hf
      simp only [LeaseOp.call, Register.step, hh]
      simp [run, SqliteRecord.releaseLease, hl, hp, LeaseAnswer.reply, register,
        SqliteRecord.getLease, SqliteRecord.toLease, SqliteRecord.columns]
  | write lease w =>
    have hholds := register_holds rec lease
    cases hf : rec.fence lease with
    | true =>
      have hh := hholds.2 hf
      simp [run, write, LeaseOp.call, Register.step, hf, hh, LeaseAnswer.reply,
        register_congr (apply_columns w)]
    | false =>
      have hh : ¬(register rec).Holds lease.grant := by simp [hholds, hf]
      simp [run, write, LeaseOp.call, Register.step, hf, hh, LeaseAnswer.reply]

theorem Dated.congr {rec' : SqliteRecord ι} (h : rec'.columns = rec.columns) (hd : Dated rec) :
    Dated rec' := by
  intro owner ho
  rw [h] at ho ⊢
  exact hd owner ho

theorem dated_run (o : LeaseOp ι) (hd : Dated rec) : Dated (run o rec).2 := by
  cases o with
  | acquireLease owner ttlMs now =>
    cases hp : rec.pollers with
    | none =>
      simp only [run, SqliteRecord.acquireLease, hp]
      exact fun _ _ => ⟨_, rfl⟩
    | some row =>
      cases hm : SqliteRecord.mayAcquire row owner now with
      | true =>
        simp only [run, SqliteRecord.acquireLease, hp, hm, if_true]
        exact fun _ _ => ⟨_, rfl⟩
      | false => simpa [run, SqliteRecord.acquireLease, hp, hm] using hd
  | renewLease lease ttlMs now =>
    rcases leased_cases rec lease with ⟨-, hl⟩ | ⟨row, -, hl, -⟩
    · simpa [run, SqliteRecord.renewLease, hl] using hd
    · simp only [run, SqliteRecord.renewLease, hl]
      exact fun _ _ => ⟨_, rfl⟩
  | releaseLease lease =>
    rcases leased_cases rec lease with ⟨-, hl⟩ | ⟨row, -, hl, -⟩
    · simpa [run, SqliteRecord.releaseLease, hl] using hd
    · simp only [run, SqliteRecord.releaseLease, hl]
      intro owner ho
      cases ho
  | write lease w =>
    cases hf : rec.fence lease with
    | true =>
      simp only [run, write, hf, if_true]
      exact hd.congr (apply_columns w)
    | false => simpa [run, write, hf] using hd

/-- A refused call changes nothing. -/
theorem run_refused (o : LeaseOp ι) (h : (run o rec).1.reply = .refused) : (run o rec).2 = rec := by
  cases o with
  | acquireLease owner ttlMs now =>
    cases hp : rec.pollers with
    | none => simp [run, SqliteRecord.acquireLease, hp, LeaseAnswer.reply] at h
    | some row =>
      cases hm : SqliteRecord.mayAcquire row owner now <;>
        simp [run, SqliteRecord.acquireLease, hp, hm, LeaseAnswer.reply] at h ⊢
  | renewLease lease ttlMs now =>
    cases hl : rec.leased lease <;>
      simp [run, SqliteRecord.renewLease, hl, LeaseAnswer.reply] at h ⊢
  | releaseLease lease => cases h
  | write lease w =>
    cases hf : rec.fence lease <;> simp [run, write, hf, LeaseAnswer.reply] at h ⊢

theorem run_fits (o : LeaseOp ι) : (run o rec).1.Fits o := by
  cases o with
  | write lease w =>
    cases hf : rec.fence lease with
    | true => simp [run, write, hf, LeaseAnswer.Fits]
    | false => simp [run, write, hf, LeaseAnswer.Fits, leaseLostError, JsError.isLeaseLost]
  | _ => trivial

theorem run_written (l : Lease) (w : FencedWrite ι)
    (h : (run (.write l w) rec).1 = .written (.ok ())) :
    (run (.write l w) rec).2 = apply w rec := by
  cases hf : rec.fence l <;> simp [run, write, hf] at h ⊢

end

end SqliteStore

/-- `SqliteStore`. -/
def sqliteStore (ι : Type) : LeaseStore ι where
  Record := SqliteRecord ι
  fresh key := { key }
  getLease := SqliteRecord.getLease
  run := SqliteStore.run
  apply := SqliteStore.apply

/-- The SQLite store simulates a register. -/
def sqliteSimulation : Simulation (sqliteStore ι) where
  register := SqliteStore.register
  Inv := SqliteStore.Dated
  inv_fresh _ := fun owner ho => by cases ho
  inv_run o _ hd := SqliteStore.dated_run o hd
  register_fresh _ := rfl
  register_run o _ hd := congrArg Prod.snd (SqliteStore.run_step o hd)
  reply_run o _ hd := congrArg Prod.fst (SqliteStore.run_step o hd)
  fits o _ := SqliteStore.run_fits o
  getLease_eq _ _ := rfl
  written l w _ := SqliteStore.run_written l w
  unchanged o _ := SqliteStore.run_refused o

/-! ## Histories of a key -/

/-- The calls without a lease that change the record of a key. -/
inductive AdminOp where
  | saveStateUnfenced (patch : StatePatch)
  | clearItems
  | retryParked (ids : List String)
  | discardParked (ids : List String)
  | pruneLog (olderThan : Int)

/-- A call that may change the record of a key. -/
inductive KeyOp (ι : Type) where
  | lease (o : LeaseOp ι)
  | admin (a : AdminOp)
  | deleteKey

/-- A store of one key whose records can be deleted. -/
structure KeyStore (ι : Type) extends LeaseStore ι where
  admin : AdminOp → Record → Record
  deleteKey : Record → Record

def LeaseAnswer.grants : LeaseAnswer → Nat
  | .acquired (some _) => 1
  | _ => 0

namespace KeyStore

variable (s : KeyStore ι) (key : PKey)

def perform (rec : s.Record) : KeyOp ι → s.Record
  | .lease o => (s.run o rec).2
  | .admin a => s.admin a rec
  | .deleteKey => s.deleteKey rec

/-- The record of a key after a history. -/
def record (ops : List (KeyOp ι)) : s.Record := ops.foldl s.perform (s.fresh key)

/-- The number of grants since the last deletion, after one more call. -/
def count (rec : s.Record) (n : Nat) : KeyOp ι → Nat
  | .lease o => n + (s.run o rec).1.grants
  | .admin _ => n
  | .deleteKey => 0

/-- How many acquisitions a history granted since its last deletion. -/
def grants (ops : List (KeyOp ι)) : Nat :=
  (ops.foldl (fun (p : s.Record × Nat) o => (s.perform p.1 o, s.count p.1 p.2 o))
    (s.fresh key, 0)).2

/-- A write under the lease is rejected with `LeaseLostError`, a renewal fails, and neither changes
anything. -/
def Refuses (rec : s.Record) (l : Lease) : Prop :=
  (∀ w, ∃ e, e.isLeaseLost = true ∧ s.run (.write l w) rec = (.written (.error e), rec)) ∧
    ∀ ttlMs now, s.run (.renewLease l ttlMs now) rec = (.renewed false, rec)

/-- After a deletion a lease is refused for good, if and only if its owner is never granted the
acquisition since the last deletion that has its epoch as its number. -/
def Forgets : Prop :=
  ∀ before after l,
    (∀ mid post, after = mid ++ post →
      s.Refuses (s.record key (before ++ .deleteKey :: mid)) l) ↔
    ∀ mid ttlMs now post granted,
      after = mid ++ .lease (.acquireLease l.owner ttlMs now) :: post →
      (s.run (.acquireLease l.owner ttlMs now) (s.record key (before ++ .deleteKey :: mid))).1 =
        .acquired (some granted) →
      s.grants key (before ++ .deleteKey :: mid) + 1 ≠ l.epoch

variable {s key}

theorem record_snoc (ops : List (KeyOp ι)) (o : KeyOp ι) :
    s.record key (ops ++ [o]) = s.perform (s.record key ops) o := by
  simp [record, List.foldl_append]

theorem grants_snoc (ops : List (KeyOp ι)) (o : KeyOp ι) :
    s.grants key (ops ++ [o]) = s.count (s.record key ops) (s.grants key ops) o := by
  have hrecord : ∀ (ops : List (KeyOp ι)) (rec : s.Record) (n : Nat),
      (ops.foldl (fun (p : s.Record × Nat) o => (s.perform p.1 o, s.count p.1 p.2 o))
        (rec, n)).1 = ops.foldl s.perform rec := by
    intro ops
    induction ops with
    | nil => intro rec n; rfl
    | cons o ops ih => intro rec n; exact ih _ _
  simp only [grants, List.foldl_append, List.foldl_cons, List.foldl_nil, hrecord]
  rfl

end KeyStore

/-- The store simulates a register that `deleteKey` forgets. -/
structure KeySimulation (s : KeyStore ι) extends Simulation s.toLeaseStore where
  inv_admin : ∀ a rec, Inv rec → Inv (s.admin a rec)
  inv_deleteKey : ∀ rec, Inv (s.deleteKey rec)
  register_admin : ∀ a rec, register (s.admin a rec) = register rec
  register_deleteKey : ∀ rec, register (s.deleteKey rec) = .fresh

namespace KeySimulation

variable {s : KeyStore ι} (sim : KeySimulation s) (key : PKey)

theorem inv_perform {rec : s.Record} (h : sim.Inv rec) (o : KeyOp ι) :
    sim.Inv (s.perform rec o) := by
  cases o with
  | lease o => exact sim.inv_run o rec h
  | admin a => exact sim.inv_admin a rec h
  | deleteKey => exact sim.inv_deleteKey rec

theorem inv_record (ops : List (KeyOp ι)) : sim.Inv (s.record key ops) := by
  induction ops using List.reverseRecOn with
  | nil => exact sim.inv_fresh key
  | append_singleton ops o ih =>
    rw [KeyStore.record_snoc]
    exact sim.inv_perform ih o

/-- The answer to an acquisition, as the register sees it. -/
theorem grants_eq {rec : s.Record} (h : sim.Inv rec) (o : LeaseOp ι) :
    (s.run o rec).1.grants = 1 ∧ (∃ g, ((sim.register rec).step o.call).1 = .granted g) ∨
      (s.run o rec).1.grants = 0 ∧ ∀ g, ((sim.register rec).step o.call).1 ≠ .granted g := by
  rw [← sim.reply_run o rec h]
  cases hans : (s.run o rec).1 with
  | acquired l =>
    cases l with
    | none => exact Or.inr ⟨rfl, fun g => nofun⟩
    | some l => exact Or.inl ⟨rfl, l.grant, rfl⟩
  | renewed ok => cases ok <;> exact Or.inr ⟨rfl, fun g => nofun⟩
  | released => exact Or.inr ⟨rfl, fun g => nofun⟩
  | written res => cases res <;> exact Or.inr ⟨rfl, fun g => nofun⟩

/-- The counter of the register is the number of grants since the last deletion. -/
theorem counter_record (ops : List (KeyOp ι)) :
    (sim.register (s.record key ops)).counter = s.grants key ops := by
  induction ops using List.reverseRecOn with
  | nil =>
    have hfresh := congrArg Register.counter (sim.register_fresh key)
    exact hfresh
  | append_singleton ops o ih =>
    have hinv := sim.inv_record key ops
    rw [KeyStore.record_snoc, KeyStore.grants_snoc]
    cases o with
    | lease o =>
      rw [KeyStore.perform, KeyStore.count, sim.register_run o _ hinv]
      rcases sim.grants_eq hinv o with ⟨hone, g, hg⟩ | ⟨hzero, hno⟩
      · rw [(Register.step_granted hg).2.2, hone, ih]
      · rw [(Register.step_other hno).1, hzero, ih]
        rfl
    | admin a => rw [KeyStore.perform, KeyStore.count, sim.register_admin, ih]
    | deleteKey => rw [KeyStore.perform, KeyStore.count, sim.register_deleteKey]; rfl

/-- A lease is refused exactly when the register does not hold it. -/
theorem refuses_iff {rec : s.Record} (h : sim.Inv rec) (l : Lease) :
    s.Refuses rec l ↔ ¬(sim.register rec).Holds l.grant := by
  constructor
  · rintro ⟨-, hrenew⟩ hholds
    have hreply := sim.reply_run (.renewLease l 0 0) rec h
    rw [hrenew] at hreply
    simp [LeaseAnswer.reply, LeaseOp.call, Register.step, hholds] at hreply
  · intro hno
    constructor
    · intro w
      have hreply := sim.reply_run (.write l w) rec h
      have hfits := sim.fits (.write l w) rec
      have hsame := sim.unchanged (.write l w) rec
      generalize s.run (.write l w) rec = res at hreply hfits hsame ⊢
      obtain ⟨ans, rec'⟩ := res
      cases ans with
      | written res =>
        cases res with
        | ok x => simp [LeaseAnswer.reply, LeaseOp.call, Register.step, hno] at hreply
        | error e => exact ⟨e, hfits, Prod.ext rfl (hsame rfl)⟩
      | acquired l' => exact hfits.elim
      | renewed ok => exact hfits.elim
      | released => exact hfits.elim
    · intro ttlMs now
      have hreply := sim.reply_run (.renewLease l ttlMs now) rec h
      have hfits := sim.fits (.renewLease l ttlMs now) rec
      have hsame := sim.unchanged (.renewLease l ttlMs now) rec
      generalize s.run (.renewLease l ttlMs now) rec = res at hreply hfits hsame ⊢
      obtain ⟨ans, rec'⟩ := res
      cases ans with
      | renewed ok =>
        cases ok with
        | true => simp [LeaseAnswer.reply, LeaseOp.call, Register.step, hno] at hreply
        | false => exact Prod.ext rfl (hsame rfl)
      | acquired l' => exact hfits.elim
      | released => exact hfits.elim
      | written res => cases res <;> exact hfits.elim

/-- An acquisition that the register grants is answered with a lease. -/
theorem acquired_of_granted {rec : s.Record} (h : sim.Inv rec) {owner : String} {ttlMs now : Int}
    {g : Grant String} (hg : ((sim.register rec).step (.acquire owner ttlMs now)).1 = .granted g) :
    ∃ granted, (s.run (.acquireLease owner ttlMs now) rec).1 = .acquired (some granted) := by
  have hreply := (sim.reply_run (.acquireLease owner ttlMs now) rec h).trans hg
  generalize (s.run (.acquireLease owner ttlMs now) rec).1 = ans at hreply ⊢
  cases ans with
  | acquired got =>
    cases got with
    | none => cases hreply
    | some granted => exact ⟨granted, rfl⟩
  | renewed ok => cases ok <;> cases hreply
  | released => cases hreply
  | written res => cases res <;> cases hreply

include sim in
/-- A store that simulates such a register forgets leases with their key. -/
theorem forgets : s.Forgets key := by
  intro before after l
  have hinv : ∀ mid, sim.Inv (s.record key (before ++ .deleteKey :: mid)) :=
    fun mid => sim.inv_record key _
  have hsnoc : ∀ mid o, before ++ .deleteKey :: (mid ++ [o]) = (before ++ .deleteKey :: mid) ++ [o] := by
    intro mid o
    simp
  constructor
  · rintro h mid ttlMs now post granted rfl hgranted hepoch
    -- the acquisition makes a lease current that has the owner and the epoch of `l`
    have hrefused := (sim.refuses_iff (hinv _) l).1
      (h (mid ++ [.lease (.acquireLease l.owner ttlMs now)]) post (by simp))
    rw [hsnoc, KeyStore.record_snoc, KeyStore.perform, sim.register_run _ _ (hinv mid)] at hrefused
    have hreply := sim.reply_run (.acquireLease l.owner ttlMs now) _ (hinv mid)
    rw [hgranted] at hreply
    have hheld := Register.holds_of_granted hreply.symm l.expiresAt
    rw [sim.counter_record, hepoch] at hheld
    exact hrefused hheld
  · rintro h mid post rfl
    rw [sim.refuses_iff (hinv mid)]
    induction mid using List.reverseRecOn generalizing post with
    | nil =>
      have hrecord : s.record key (before ++ [.deleteKey]) = s.deleteKey (s.record key before) :=
        KeyStore.record_snoc before .deleteKey
      rw [hrecord, sim.register_deleteKey]
      rintro ⟨c, hc, -⟩
      cases hc
    | append_singleton mid o ih =>
      have hbefore := ih ([o] ++ post) (by simpa using h)
      rw [hsnoc, KeyStore.record_snoc]
      cases o with
      | lease o =>
        rw [KeyStore.perform, sim.register_run _ _ (hinv mid)]
        intro hholds
        rcases Register.holds_of_step hholds with hold | ⟨ttl, now, hcall, hterm, g, hg⟩
        · exact hbefore hold
        · cases o with
          | acquireLease owner ttlMs now' =>
            obtain ⟨rfl, rfl, rfl⟩ := LeaseCall.acquire.inj hcall
            rw [sim.counter_record] at hterm
            obtain ⟨granted, hgranted⟩ := sim.acquired_of_granted (hinv mid) hg
            exact h mid ttlMs now' post granted (List.append_assoc mid _ post) hgranted hterm
          | renewLease _ _ _ => cases hcall
          | releaseLease _ => cases hcall
          | write _ _ => cases hcall
      | admin a =>
        rw [KeyStore.perform, sim.register_admin]
        exact hbefore
      | deleteKey =>
        rw [KeyStore.perform, sim.register_deleteKey]
        rintro ⟨c, hc, -⟩
        cases hc

end KeySimulation

/-! ## The stores -/

def MemoryStore.admin (a : AdminOp) (rec : KeyRecord ι) : KeyRecord ι :=
  match a with
  | .saveStateUnfenced patch => rec.applyPatch patch
  | .clearItems => { rec with items := OrderedMap.empty }
  | .retryParked ids => (rec.retryParked ids).2
  | .discardParked ids => (rec.discardParked ids).2
  | .pruneLog olderThan => (rec.pruneLog olderThan).2

def RedisStore.admin (a : AdminOp) (rec : RedisRecord ι) : RedisRecord ι :=
  match a with
  | .saveStateUnfenced patch => rec.saveStateUnfenced patch
  | .clearItems => rec.clearItems
  | .retryParked ids => (rec.retryParked ids).2
  | .discardParked ids => (rec.discardParked ids).2
  | .pruneLog olderThan => (rec.pruneLog olderThan).2

def SqliteStore.admin (a : AdminOp) (rec : SqliteRecord ι) : SqliteRecord ι :=
  match a with
  | .saveStateUnfenced patch => rec.writeState patch
  | .clearItems => rec.clearItems
  | .retryParked ids => (rec.retryParked ids).2
  | .discardParked ids => (rec.discardParked ids).2
  | .pruneLog olderThan => (rec.pruneLog olderThan).2

/-- `MemoryStore`, with the calls that need no lease. -/
def memoryKeys (ι : Type) : KeyStore ι where
  toLeaseStore := memoryStore ι
  admin := MemoryStore.admin
  deleteKey rec := .fresh rec.key

def redisKeys (logText : LoggedEvent ι → String) : KeyStore ι where
  toLeaseStore := redisStore logText
  admin := RedisStore.admin
  deleteKey := RedisRecord.deleteKey

def sqliteKeys (ι : Type) : KeyStore ι where
  toLeaseStore := sqliteStore ι
  admin := SqliteStore.admin
  deleteKey := SqliteRecord.deleteKey

theorem retryParked_lease (ids : List String) (rec : KeyRecord ι) :
    (rec.retryParked ids).2.lease = rec.lease ∧
      (rec.retryParked ids).2.epochCounter = rec.epochCounter := by
  induction ids generalizing rec with
  | nil => exact ⟨rfl, rfl⟩
  | cons id ids ih =>
    have hone : (rec.retryOne id).2.lease = rec.lease ∧
        (rec.retryOne id).2.epochCounter = rec.epochCounter := by
      unfold KeyRecord.retryOne
      split <;> exact ⟨rfl, rfl⟩
    obtain ⟨hlease, hcounter⟩ := ih (rec.retryOne id).2
    exact ⟨hlease.trans hone.1, hcounter.trans hone.2⟩

def memoryKeySimulation : KeySimulation (memoryKeys ι) where
  toSimulation := memorySimulation
  inv_admin _ _ _ := trivial
  inv_deleteKey _ := trivial
  register_admin a rec := by
    cases a with
    | retryParked ids =>
      obtain ⟨hlease, hcounter⟩ := retryParked_lease ids rec
      exact congrArg₂ Register.mk (congrArg (Option.map Lease.grant) hlease) hcounter
    | _ => rfl
  register_deleteKey _ := rfl

theorem admin_meta (a : AdminOp) (rec : RedisRecord ι) :
    (RedisStore.admin a rec).meta_ = rec.meta_ := by
  cases a with
  | retryParked ids => exact RedisRecord.retryParked_meta rec ids
  | discardParked ids => exact RedisRecord.discardParked_meta ids rec
  | _ => rfl

def redisKeySimulation (logText : LoggedEvent ι → String) : KeySimulation (redisKeys logText) where
  toSimulation := redisSimulation logText
  inv_admin a _ hw := hw.congr (admin_meta a _)
  inv_deleteKey _ := .free rfl rfl
  register_admin a rec := by
    have hmeta := admin_meta a rec
    exact congrArg₂ Register.mk
      (congrArg (fun m : RedisMeta => (m.leaseOwner.map fun owner =>
        ({ owner, epoch := m.leaseEpoch.getD 0, expiresAt := m.leaseExpiresAt.getD 0 } : Lease)).map
          Lease.grant) hmeta)
      (congrArg RedisMeta.epochCounter hmeta)
  register_deleteKey _ := rfl

theorem admin_columns (a : AdminOp) (rec : SqliteRecord ι) :
    (SqliteStore.admin a rec).columns = rec.columns := by
  cases a with
  | retryParked ids => exact SqliteRecord.columns_congr (SqliteRecord.retryParked_pollers ids rec)
  | discardParked ids =>
    exact SqliteRecord.columns_congr (SqliteRecord.discardParked_pollers ids rec)
  | _ => rfl

def sqliteKeySimulation : KeySimulation (sqliteKeys ι) where
  toSimulation := sqliteSimulation
  inv_admin a _ hd := hd.congr (admin_columns a _)
  inv_deleteKey _ := fun owner ho => by cases ho
  register_admin a rec := SqliteStore.register_congr (admin_columns a rec)
  register_deleteKey _ := rfl

/-- In all three stores, a lease from before a deletion is refused for good exactly when its owner is
never granted the acquisition that has its epoch again. -/
theorem deleted_keys_forget_leases (logText : LoggedEvent ι → String) (key : PKey) :
    (memoryKeys ι).Forgets key ∧ (redisKeys logText).Forgets key ∧ (sqliteKeys ι).Forgets key :=
  ⟨memoryKeySimulation.forgets key, (redisKeySimulation logText).forgets key,
    sqliteKeySimulation.forgets key⟩

/-- An instance holds epoch 1, the key is deleted, and the instance acquires it again: the first
lease, of a run that may still be under way, is valid again. -/
theorem deleted_lease_writes_again :
    let s := memoryKeys Unit
    let key : PKey := { poller := "orders", partition := "acme" }
    let l : Lease := { owner := "node-a", epoch := 1, expiresAt := 30000 }
    let history : List (KeyOp Unit) :=
      [.lease (.acquireLease "node-a" 30000 0), .deleteKey, .lease (.acquireLease "node-a" 30000 5)]
    s.answer key [] (.acquireLease "node-a" 30000 0) = .acquired (some l) ∧
      (∀ w, s.run (.write l w) (s.record key history) =
        (.written (.ok ()), s.apply w (s.record key history))) ∧
      ∀ ttlMs now, (s.run (.renewLease l ttlMs now) (s.record key history)).1 = .renewed true := by
  refine ⟨rfl, ?_, ?_⟩
  · intro w
    exact congrArg (fun p => (LeaseAnswer.written p.1, p.2)) (MemoryStore.write_eq _ w _)
  · intro ttlMs now
    rfl

end Watukuy
