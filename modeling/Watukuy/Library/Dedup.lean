import Mathlib.Logic.Function.Basic
import Mathlib.Data.List.Induction

/-!
# Consumers that deduplicate

A log of entries, each with an id, a key and the value the key has from then on. A replica applies the
first entry of each id and skips the others.

* `Redelivers.receiveAll`: what is delivered again changes nothing.
* `Replica.follows_iff`: a replica follows the entries of one commit if and only if those it skips
  change nothing, and those it applies carry the values after the commit.
-/

set_option autoImplicit false

namespace Watukuy.Library

variable {τ κ ν α : Type}

/-- An entry of a log. -/
structure LogEntry (τ κ ν : Type) where
  id : τ
  key : κ
  value : Option ν

/-- The deliveries are the log in order, any of its entries repeated. -/
inductive Redelivers : List α → List α → Prop where
  | nil : Redelivers [] []
  | next {log deliveries : List α} (h : Redelivers log deliveries) (e : α) :
      Redelivers (log ++ [e]) (deliveries ++ [e])
  | again {log deliveries : List α} (h : Redelivers log deliveries) {e : α} (he : e ∈ log) :
      Redelivers log (deliveries ++ [e])

/-- A log is a delivery of itself. -/
theorem Redelivers.self (log : List α) : Redelivers log log := by
  induction log using List.reverseRecOn with
  | nil => exact .nil
  | append_singleton log e ih => exact ih.next e

theorem Redelivers.map {β : Type} (f : α → β) {log deliveries : List α} (h : Redelivers log deliveries) :
    Redelivers (log.map f) (deliveries.map f) := by
  induction h with
  | nil => exact .nil
  | next _ e ih =>
    rw [List.map_append, List.map_append]
    exact ih.next (f e)
  | again _ he ih =>
    rw [List.map_append]
    exact ih.again (List.mem_map_of_mem he)

/-- What a consumer keeps: the ids it has applied and its snapshot. -/
structure Replica (τ κ ν : Type) where
  applied : List τ
  snapshot : κ → Option ν

/-- The consumer at the start. -/
def Replica.empty : Replica τ κ ν where
  applied := []
  snapshot _ := none

section
variable [DecidableEq τ] [DecidableEq κ]

/-- Apply an entry, unless its id was applied before. -/
def Replica.receive (r : Replica τ κ ν) (e : LogEntry τ κ ν) : Replica τ κ ν :=
  if e.id ∈ r.applied then r
  else
    { applied := e.id :: r.applied
      snapshot := Function.update r.snapshot e.key e.value }

def Replica.receiveAll (r : Replica τ κ ν) (entries : List (LogEntry τ κ ν)) : Replica τ κ ν :=
  entries.foldl Replica.receive r

namespace Replica

variable {r : Replica τ κ ν} {e : LogEntry τ κ ν} {entries : List (LogEntry τ κ ν)}

theorem receiveAll_append (r : Replica τ κ ν) (xs ys : List (LogEntry τ κ ν)) :
    r.receiveAll (xs ++ ys) = (r.receiveAll xs).receiveAll ys := List.foldl_append ..

theorem receive_applied (h : e.id ∈ r.applied) : r.receive e = r := if_pos h

theorem mem_applied_receive (r : Replica τ κ ν) (e : LogEntry τ κ ν) (id : τ) :
    id ∈ (r.receive e).applied ↔ id ∈ r.applied ∨ e.id = id := by
  unfold receive
  split
  · rename_i hmem
    refine ⟨Or.inl, ?_⟩
    rintro (h | rfl)
    · exact h
    · exact hmem
  · rw [List.mem_cons, or_comm, eq_comm]

/-- The ids applied are those of the entries received. -/
theorem mem_applied (r : Replica τ κ ν) (entries : List (LogEntry τ κ ν)) (id : τ) :
    id ∈ (r.receiveAll entries).applied ↔ id ∈ r.applied ∨ ∃ e ∈ entries, e.id = id := by
  induction entries generalizing r with
  | nil => simp [receiveAll]
  | cons e entries ih =>
    have hstep : r.receiveAll (e :: entries) = (r.receive e).receiveAll entries := rfl
    rw [hstep, ih, mem_applied_receive]
    simp [or_assoc]

/-- What happens to a key whose entries are all skipped: nothing. -/
theorem snapshot_of_skipped {k : κ} (h : ∀ e ∈ entries, e.key = k → e.id ∈ r.applied) :
    (r.receiveAll entries).snapshot k = r.snapshot k := by
  induction entries generalizing r with
  | nil => rfl
  | cons e entries ih =>
    have hstep : r.receiveAll (e :: entries) = (r.receive e).receiveAll entries := rfl
    rw [hstep, ih]
    · unfold receive
      split
      · rfl
      · rename_i hnew
        have hne : k ≠ e.key := by
          rintro rfl
          exact hnew (h e List.mem_cons_self rfl)
        exact Function.update_of_ne hne ..
    · intro x hx hkey
      exact (mem_applied_receive r e x.id).2 (Or.inl (h x (List.mem_cons_of_mem _ hx) hkey))

end Replica

/-- The entries of one commit: those of a key are alike, and an id is of one key. -/
structure Coherent (entries : List (LogEntry τ κ ν)) : Prop where
  alike : ∀ a ∈ entries, ∀ b ∈ entries, a.key = b.key → a.id = b.id ∧ a.value = b.value
  keyed : ∀ a ∈ entries, ∀ b ∈ entries, a.id = b.id → a.key = b.key

namespace Replica

variable {r : Replica τ κ ν} {e : LogEntry τ κ ν} {entries : List (LogEntry τ κ ν)}

/-- The first entry of a new id is applied, and the others of its key carry the same value. -/
theorem snapshot_of_new (hcoherent : Coherent entries) (he : e ∈ entries) (hnew : e.id ∉ r.applied) :
    (r.receiveAll entries).snapshot e.key = e.value := by
  induction entries generalizing r with
  | nil => cases he
  | cons x entries ih =>
    have hstep : r.receiveAll (x :: entries) = (r.receive x).receiveAll entries := rfl
    rw [hstep]
    have htail : Coherent entries := by
      constructor
      · intro a ha b hb
        exact hcoherent.alike a (List.mem_cons_of_mem _ ha) b (List.mem_cons_of_mem _ hb)
      · intro a ha b hb
        exact hcoherent.keyed a (List.mem_cons_of_mem _ ha) b (List.mem_cons_of_mem _ hb)
    by_cases hkey : x.key = e.key
    · obtain ⟨hid, hvalue⟩ := hcoherent.alike x List.mem_cons_self e he hkey
      have hx : r.receive x =
          { applied := x.id :: r.applied
            snapshot := Function.update r.snapshot x.key x.value } := if_neg (hid ▸ hnew)
      rw [snapshot_of_skipped, hx]
      · rw [← hkey, ← hvalue]
        exact Function.update_self ..
      · -- by now the id of the key is applied
        intro a ha hak
        obtain ⟨haid, -⟩ := hcoherent.alike a (List.mem_cons_of_mem _ ha) e he hak
        exact (mem_applied_receive r x a.id).2 (Or.inr (hid.trans haid.symm))
    · have hmem : e ∈ entries := by
        rcases List.mem_cons.1 he with rfl | hmem
        · exact absurd rfl hkey
        · exact hmem
      refine ih htail hmem ?_
      rw [mem_applied_receive, not_or]
      exact ⟨hnew, fun hid => hkey (hcoherent.keyed x List.mem_cons_self e he hid)⟩

/-- A replica that held the values before a commit holds those after it if and only if the entries it
skips change nothing and those it applies carry the values after the commit. -/
theorem follows_iff {before after : κ → Option ν} (hbefore : r.snapshot = before)
    (hcoherent : Coherent entries) (hquiet : ∀ k, (∀ e ∈ entries, e.key ≠ k) → after k = before k) :
    (r.receiveAll entries).snapshot = after ↔
      ∀ e ∈ entries, (e.id ∈ r.applied → before e.key = after e.key) ∧
        (e.id ∉ r.applied → e.value = after e.key) := by
  subst hbefore
  have hskipped : ∀ e ∈ entries, e.id ∈ r.applied →
      (r.receiveAll entries).snapshot e.key = r.snapshot e.key := by
    intro e he hid
    refine snapshot_of_skipped fun x hx hkey => ?_
    rw [(hcoherent.alike x hx e he hkey).1]
    exact hid
  constructor
  · intro hafter e he
    rw [← hafter]
    exact ⟨fun hid => (hskipped e he hid).symm, fun hnew => (snapshot_of_new hcoherent he hnew).symm⟩
  · intro h
    funext k
    by_cases hk : ∃ e ∈ entries, e.key = k
    · obtain ⟨e, he, rfl⟩ := hk
      by_cases hid : e.id ∈ r.applied
      · rw [hskipped e he hid, (h e he).1 hid]
      · rw [snapshot_of_new hcoherent he hid, (h e he).2 hid]
    · have hnone : ∀ e ∈ entries, e.key ≠ k := fun e he hkey => hk ⟨e, he, hkey⟩
      rw [hquiet k hnone]
      exact snapshot_of_skipped fun e he hkey => absurd hkey (hnone e he)

end Replica

/-- What is delivered again changes nothing. -/
theorem Redelivers.receiveAll {log deliveries : List (LogEntry τ κ ν)} (h : Redelivers log deliveries)
    (r : Replica τ κ ν) : r.receiveAll deliveries = r.receiveAll log := by
  induction h with
  | nil => rfl
  | next _ e ih => rw [Replica.receiveAll_append, Replica.receiveAll_append, ih]
  | @again log deliveries _ e he ih =>
    rw [Replica.receiveAll_append, ih]
    exact Replica.receive_applied ((r.mem_applied log e.id).2 (Or.inr ⟨e, he, rfl⟩))

end

end Watukuy.Library
