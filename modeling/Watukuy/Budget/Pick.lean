import Mathlib.Data.Int.ConditionallyCompleteOrder
import Mathlib.Data.List.MinMax
import Mathlib.Data.Prod.Lex
import Mathlib.Algebra.Order.Field.Basic
import Watukuy.Budget.Manager

/-!
# Who is picked

The statistics that `#compare` creates on the way do not change the order: `#pick` answers the least
waiter by lane, by ratio if the budget is weighted, by the last grant and by number.
-/

set_option autoImplicit false

namespace Watukuy

open Library

/-! ## Statistics -/

/-- The grants of a requester, as they count for its ratio. -/
def Served.count (served : Served) (requester : String) : Int :=
  ((served.get requester).map (·.count)).getD 0

/-- The last grant of a requester. -/
def Served.lastSeq (served : Served) (requester : String) : Int :=
  ((served.get requester).map (·.lastSeq)).getD (-1)

/-- `served'` has the statistics of `served`, and of requesters without a grant. -/
structure Served.Extends (served served' : Served) : Prop where
  seen : ∀ r, (served.get r).isSome → (served'.get r).isSome
  count : ∀ r, (served.get r).isSome → served'.count r = served.count r
  lastSeq : ∀ r, served'.lastSeq r = served.lastSeq r

theorem Served.Extends.refl (served : Served) : served.Extends served where
  seen _ h := h
  count _ _ := rfl
  lastSeq _ := rfl

theorem Served.Extends.trans {s₁ s₂ s₃ : Served} (h : s₁.Extends s₂) (h' : s₂.Extends s₃) :
    s₁.Extends s₃ where
  seen r hr := h'.seen r (h.seen r hr)
  count r hr := (h'.count r (h.seen r hr)).trans (h.count r hr)
  lastSeq r := (h'.lastSeq r).trans (h.lastSeq r)

section Stats

variable (served : Served) (requester : String) (weight : ℚ)

theorem requesterStats_get :
    (requesterStats served requester weight).1.get requester =
      some (requesterStats served requester weight).2 := OrderedMap.get_set_self _ _ _

theorem requesterStats_lastSeq :
    (requesterStats served requester weight).2.lastSeq = served.lastSeq requester := by
  simp only [requesterStats, Served.lastSeq]
  cases served.get requester with
  | none => rfl
  | some stats => rfl

theorem requesterStats_count (h : (served.get requester).isSome) :
    (requesterStats served requester weight).2.count = served.count requester := by
  simp only [requesterStats, Served.count]
  cases hget : served.get requester with
  | none => rw [hget] at h; cases h
  | some stats => rfl

theorem requesterStats_extends : served.Extends (requesterStats served requester weight).1 := by
  have hother : ∀ r, r ≠ requester →
      (requesterStats served requester weight).1.get r = served.get r :=
    fun r hr => OrderedMap.get_set_ne _ hr _
  refine ⟨fun r hr => ?_, fun r hr => ?_, fun r => ?_⟩
  · by_cases heq : r = requester
    · rw [heq, requesterStats_get]
      rfl
    · rw [hother r heq]
      exact hr
  · by_cases heq : r = requester
    · subst heq
      rw [← requesterStats_count served r weight hr, Served.count, requesterStats_get]
      rfl
    · rw [Served.count, hother r heq, Served.count]
  · by_cases heq : r = requester
    · subst heq
      rw [← requesterStats_lastSeq served r weight, Served.lastSeq, requesterStats_get]
      rfl
    · rw [Served.lastSeq, hother r heq, Served.lastSeq]

end Stats

/-! ## The order -/

/-- The ratio a waiter is compared by. -/
def Waiter.ratio (fairness : Fairness) (served : Served) (w : Waiter) : ℚ :=
  if fairness = .weighted then served.count w.requester / w.weight else 0

/-- What the waiters are ordered by. -/
def Waiter.key (fairness : Fairness) (served : Served) (w : Waiter) : ℤ ×ₗ ℚ ×ₗ ℤ ×ₗ ℕ :=
  toLex (laneRank w.lane, toLex (w.ratio fairness served,
    toLex (served.lastSeq w.requester, w.seq)))

theorem compareWaiters_extends (fairness : Fairness) (served : Served) (a b : Waiter) :
    served.Extends (compareWaiters fairness served a b).1 := by
  have htwice := (requesterStats_extends served a.requester a.weight).trans
    (requesterStats_extends (requesterStats served a.requester a.weight).1 b.requester b.weight)
  simp only [compareWaiters]
  split
  · exact Served.Extends.refl served
  · split
    · exact htwice
    · split <;> exact htwice

/-- The statistics that `#compare` reads, found again in later ones. -/
theorem compared_stats {served served' : Served} {a b : Waiter}
    (h : (requesterStats (requesterStats served a.requester a.weight).1 b.requester b.weight).1.Extends
      served') :
    let sa := (requesterStats served a.requester a.weight).2
    let sb := (requesterStats (requesterStats served a.requester a.weight).1 b.requester b.weight).2
    (sa.count = served'.count a.requester ∧ sa.lastSeq = served'.lastSeq a.requester) ∧
      sb.count = served'.count b.requester ∧ sb.lastSeq = served'.lastSeq b.requester := by
  have hfirst := requesterStats_get served a.requester a.weight
  have hsecond := requesterStats_get (requesterStats served a.requester a.weight).1 b.requester
    b.weight
  have hlater := (requesterStats_extends (requesterStats served a.requester a.weight).1 b.requester
    b.weight).trans h
  refine ⟨⟨?_, ?_⟩, ?_, ?_⟩
  · rw [hlater.count _ (Option.isSome_of_eq_some hfirst), Served.count, hfirst]
    rfl
  · rw [hlater.lastSeq, Served.lastSeq, hfirst]
    rfl
  · rw [h.count _ (Option.isSome_of_eq_some hsecond), Served.count, hsecond]
    rfl
  · rw [h.lastSeq, Served.lastSeq, hsecond]
    rfl

/-- The sign of `#compare` is the order of the keys, also by statistics that come later. -/
theorem compareWaiters_neg {fairness : Fairness} {served served' : Served} {a b : Waiter}
    (h : (compareWaiters fairness served a b).1.Extends served') :
    (compareWaiters fairness served a b).2 < 0 ↔ a.key fairness served' < b.key fairness served' := by
  rw [Waiter.key, Waiter.key, Prod.Lex.toLex_lt_toLex, Prod.Lex.toLex_lt_toLex,
    Prod.Lex.toLex_lt_toLex]
  simp only [compareWaiters] at h ⊢
  by_cases hlane : laneRank a.lane = laneRank b.lane
  · rw [if_neg (not_not.2 (sub_eq_zero.2 hlane))] at h ⊢
    have hserved : (requesterStats (requesterStats served a.requester a.weight).1 b.requester
        b.weight).1.Extends served' := by
      split at h
      · exact h
      · split at h <;> exact h
    obtain ⟨⟨hca, hla⟩, hcb, hlb⟩ := compared_stats hserved
    simp only [hlane, lt_irrefl, true_and, false_or]
    rw [hca, hcb, hla, hlb]
    by_cases hratio : a.ratio fairness served' = b.ratio fairness served'
    · -- the ratios do not decide: the last grants do, then the numbers
      rw [if_neg, hratio]
      · simp only [lt_irrefl, true_and, false_or]
        by_cases hlast : served'.lastSeq a.requester = served'.lastSeq b.requester
        · rw [if_neg (not_not.2 hlast)]
          simp only [hlast, lt_irrefl, true_and, false_or]
          rw [sub_neg]
          exact Nat.cast_lt
        · rw [if_pos hlast]
          simp only [hlast, false_and, or_false]
          rw [sub_neg]
          exact Int.cast_lt
      · rintro ⟨hweighted, hne⟩
        simp only [Waiter.ratio, if_pos hweighted] at hratio
        exact hne (sub_eq_zero.2 hratio)
    · have hweighted : fairness = .weighted := by
        by_contra hnot
        simp only [Waiter.ratio, if_neg hnot, not_true_eq_false] at hratio
      simp only [Waiter.ratio, if_pos hweighted] at hratio ⊢
      rw [if_pos ⟨hweighted, sub_ne_zero.2 hratio⟩]
      simp only [hratio, false_and, or_false]
      exact sub_neg
  · rw [if_pos (sub_ne_zero.2 hlane)]
    simp only [hlane, false_and, or_false]
    exact_mod_cast sub_neg

/-! ## The choice -/

/-- Waiters that `#pick` considers. -/
def Unsettled (status : Nat → WaiterStatus) (w : Waiter) : Bool := !(status w.seq).settled

theorem unsettled_iff {status : Nat → WaiterStatus} {w : Waiter} :
    Unsettled status w = true ↔ (status w.seq).settled = false := by
  rw [Unsettled, Bool.not_eq_true']

theorem pickStep_extends (fairness : Fairness) (status : Nat → WaiterStatus)
    (r : Served × Option Waiter) (w : Waiter) : r.1.Extends (pickStep fairness status r w).1 := by
  obtain ⟨served, best⟩ := r
  simp only [pickStep]
  split
  · exact Served.Extends.refl served
  · cases best with
    | none => exact Served.Extends.refl served
    | some b => exact compareWaiters_extends fairness served w b

theorem foldl_pickStep_extends (fairness : Fairness) (status : Nat → WaiterStatus)
    (queue : List Waiter) (r : Served × Option Waiter) :
    r.1.Extends (queue.foldl (pickStep fairness status) r).1 := by
  induction queue generalizing r with
  | nil => exact Served.Extends.refl r.1
  | cons w queue ih => exact (pickStep_extends fairness status r w).trans (ih _)

/-- One candidate by keys, whatever statistics come later. -/
theorem pickStep_key {fairness : Fairness} {status : Nat → WaiterStatus}
    {r : Served × Option Waiter} {w : Waiter} {served' : Served}
    (h : (pickStep fairness status r w).1.Extends served') :
    (pickStep fairness status r w).2 =
      if Unsettled status w then
        List.argAux (fun b c => b.key fairness served' < c.key fairness served') r.2 w
      else r.2 := by
  obtain ⟨served, best⟩ := r
  simp only [pickStep] at h ⊢
  by_cases hsettled : (status w.seq).settled = true
  · rw [if_pos hsettled, if_neg]
    rw [unsettled_iff, hsettled]
    exact Bool.noConfusion
  · rw [if_neg hsettled] at h ⊢
    rw [if_pos (unsettled_iff.2 (Bool.eq_false_iff.2 hsettled))]
    cases best with
    | none => rfl
    | some b => exact if_congr (compareWaiters_neg h) rfl rfl

theorem foldl_pickStep_key {fairness : Fairness} {status : Nat → WaiterStatus}
    {queue : List Waiter} {r : Served × Option Waiter} {served' : Served}
    (h : (queue.foldl (pickStep fairness status) r).1.Extends served') :
    (queue.foldl (pickStep fairness status) r).2 =
      (queue.filter (Unsettled status)).foldl
        (List.argAux fun b c => b.key fairness served' < c.key fairness served') r.2 := by
  induction queue generalizing r with
  | nil => rfl
  | cons w queue ih =>
    rw [List.foldl_cons, ih h, pickStep_key ((foldl_pickStep_extends _ _ queue _).trans h)]
    cases hw : Unsettled status w with
    | true => rw [List.filter_cons_of_pos hw, List.foldl_cons, if_pos rfl]
    | false =>
      rw [List.filter_cons_of_neg (by rw [hw]; exact Bool.false_ne_true),
        if_neg Bool.false_ne_true]

namespace BudgetManager

variable (cfg : ManagerConfig) (s : BudgetManager)

theorem pick_extends : s.served.Extends (s.pick cfg).1 :=
  foldl_pickStep_extends cfg.fairness s.status s.queue (s.served, none)

/-- `#pick` answers the first of the least waiters. -/
theorem pick_eq_argmin :
    (s.pick cfg).2 =
      (s.queue.filter (Unsettled s.status)).argmin (Waiter.key cfg.fairness (s.pick cfg).1) :=
  foldl_pickStep_key (Served.Extends.refl _)

variable {cfg s}

theorem pick_eq_none (h : (s.pick cfg).2 = none) : ∀ w ∈ s.queue, (s.status w.seq).settled = true := by
  intro w hw
  rw [pick_eq_argmin, List.argmin_eq_none, List.filter_eq_nil_iff] at h
  have hnot := h w hw
  rw [unsettled_iff] at hnot
  exact Bool.eq_true_of_not_eq_false hnot

theorem pick_mem {w : Waiter} (h : (s.pick cfg).2 = some w) :
    w ∈ s.queue ∧ (s.status w.seq).settled = false := by
  rw [pick_eq_argmin] at h
  obtain ⟨hmem, hunsettled⟩ := List.mem_filter.1 (List.argmin_mem h)
  exact ⟨hmem, unsettled_iff.1 hunsettled⟩

/-- No unsettled waiter comes before the one that is picked. -/
theorem pick_le {w x : Waiter} (h : (s.pick cfg).2 = some w) (hx : x ∈ s.queue)
    (hunsettled : (s.status x.seq).settled = false) :
    w.key cfg.fairness (s.pick cfg).1 ≤ x.key cfg.fairness (s.pick cfg).1 := by
  rw [pick_eq_argmin] at h
  exact List.le_of_mem_argmin (List.mem_filter.2 ⟨hx, unsettled_iff.2 hunsettled⟩) h

end BudgetManager

end Watukuy
