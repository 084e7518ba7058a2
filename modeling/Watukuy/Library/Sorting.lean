import Mathlib.Data.List.Sort
import Mathlib.Data.List.Nodup

/-!
# Sorting by rank

A list may be sorted by the rank of its members alone, or by rank and then by name. When no two
members share a rank, both give the one list in which the ranks increase (`eq_of_increasing`). Such a list
is read in pages: what stands past a member, and who is on the first page.
-/

set_option autoImplicit false

namespace Watukuy.Library

variable {α β γ : Type} [LinearOrder β] [LinearOrder γ]

/-- By rank, and by name where the ranks are equal. -/
def ByRank (rank : α → β) (name : α → γ) (a b : α) : Prop :=
  rank a < rank b ∨ (rank a = rank b ∧ name a ≤ name b)

section

variable {rank : α → β} {name : α → γ} {l l' : List α}

instance : DecidableRel (ByRank rank name) :=
  fun a b => inferInstanceAs (Decidable (rank a < rank b ∨ (rank a = rank b ∧ name a ≤ name b)))

instance : Std.Total (ByRank rank name) where
  total a b := by
    rcases lt_trichotomy (rank a) (rank b) with h | h | h
    · exact Or.inl (Or.inl h)
    · rcases le_total (name a) (name b) with hn | hn
      · exact Or.inl (Or.inr ⟨h, hn⟩)
      · exact Or.inr (Or.inr ⟨h.symm, hn⟩)
    · exact Or.inr (Or.inl h)

instance : IsTrans α (ByRank rank name) where
  trans a b c hab hbc := by
    rcases hab with hab | ⟨hab, hn⟩ <;> rcases hbc with hbc | ⟨hbc, hn'⟩
    · exact Or.inl (hab.trans hbc)
    · exact Or.inl (hbc ▸ hab)
    · exact Or.inl (hab ▸ hbc)
    · exact Or.inr ⟨hab.trans hbc, hn.trans hn'⟩

/-- Sorted by rank without equal ranks: the ranks increase. -/
theorem increasing_of_sorted (rank : α → β) (hs : l.Pairwise fun a b => rank a ≤ rank b)
    (hn : (l.map rank).Nodup) : l.Pairwise fun a b => rank a < rank b := by
  have hne : l.Pairwise fun a b => rank a ≠ rank b := List.pairwise_map.1 hn
  exact (hs.and hne).imp fun h => lt_of_le_of_ne h.1 h.2

theorem insertionSort_byRank (rank : α → β) (name : α → γ) (l : List α) :
    (l.insertionSort (ByRank rank name)).Pairwise fun a b => rank a ≤ rank b := by
  have hsorted := List.pairwise_insertionSort (ByRank rank name) l
  refine hsorted.imp ?_
  rintro a b (h | ⟨h, -⟩)
  · exact h.le
  · exact h.le

/-- The ranks of a list tell its order. -/
theorem eq_of_increasing (rank : α → β) (h : l.Pairwise fun a b => rank a < rank b)
    (h' : l'.Pairwise fun a b => rank a < rank b) (hmem : ∀ a, a ∈ l ↔ a ∈ l') : l = l' := by
  have hnodup : ∀ {l : List α}, l.Pairwise (fun a b => rank a < rank b) → l.Nodup := by
    intro l hl
    refine hl.imp ?_
    rintro a b hlt rfl
    exact lt_irrefl _ hlt
  have hperm : l.Perm l' := (List.perm_ext_iff_of_nodup (hnodup h) (hnodup h')).2 hmem
  refine hperm.eq_of_pairwise ?_ h h'
  intro a b _ _ hab hba
  exact absurd hab (lt_asymm hba)

end

/-! ## Pages of a list with increasing ranks -/

section

variable {rank : α → β} {l pre suf : List α} {p q r : α} {n : ℕ}

/-- Past a member stand the members of larger rank. -/
theorem filter_past (h : (pre ++ suf).Pairwise fun a b => rank a < rank b) (hp : p ∈ pre.getLast?) :
    (pre ++ suf).filter (fun a => decide (rank p < rank a)) = suf := by
  obtain ⟨hpre, -, hcross⟩ := List.pairwise_append.1 h
  obtain ⟨ys, rfl⟩ := List.getLast?_eq_some_iff.1 hp
  have hmem : p ∈ ys ++ [p] := by simp
  rw [List.filter_append]
  have hnone : (ys ++ [p]).filter (fun a => decide (rank p < rank a)) = [] := by
    rw [List.filter_eq_nil_iff]
    intro a ha
    rcases List.mem_append.1 ha with ha | ha
    · have hlt := (List.pairwise_append.1 hpre).2.2 a ha p (by simp)
      simpa using hlt.le
    · obtain rfl := List.mem_singleton.1 ha
      simp
  have hall : suf.filter (fun a => decide (rank p < rank a)) = suf := by
    rw [List.filter_eq_self]
    intro a ha
    simpa using hcross p hmem a ha
  rw [hnone, hall, List.nil_append]

/-- A page holds every member below one of its own. -/
theorem mem_take_of_le (h : l.Pairwise fun a b => rank a < rank b) (hq : q ∈ l.take n)
    (hr : r ∈ l) (hle : rank r ≤ rank q) : r ∈ l.take n := by
  rw [← List.take_append_drop n l] at h hr
  rcases List.mem_append.1 hr with hr | hr
  · exact hr
  · exact absurd ((List.pairwise_append.1 h).2.2 q hq r hr) hle.not_gt

/-- A member is on the first page when the members up to it fit there. -/
theorem mem_take_iff_rank (h : l.Pairwise fun a b => rank a < rank b) (hr : r ∈ l) :
    r ∈ l.take n ↔ (l.filter fun a => decide (rank a ≤ rank r)).length ≤ n := by
  obtain ⟨xs, ys, rfl⟩ := List.append_of_mem hr
  obtain ⟨-, hys, hcross⟩ := List.pairwise_append.1 h
  have hbelow : xs.filter (fun a => decide (rank a ≤ rank r)) = xs := by
    rw [List.filter_eq_self]
    intro a ha
    simpa using (hcross a ha r (by simp)).le
  have habove : ys.filter (fun a => decide (rank a ≤ rank r)) = [] := by
    rw [List.filter_eq_nil_iff]
    intro a ha
    simpa using (List.pairwise_cons.1 hys).1 a ha
  have hlength : ((xs ++ r :: ys).filter fun a => decide (rank a ≤ rank r)).length =
      xs.length + 1 := by
    rw [List.filter_append, hbelow, List.filter_cons_of_pos (by simp), habove]
    simp
  rw [hlength]
  constructor
  · intro hmem
    by_contra hlt
    have hn : n ≤ xs.length := by omega
    rw [List.take_append_of_le_length hn] at hmem
    exact lt_irrefl _ (hcross r (List.mem_of_mem_take hmem) r (by simp))
  · intro hle
    rw [List.take_append, List.mem_append]
    right
    obtain ⟨k, hk⟩ : ∃ k, n - xs.length = k + 1 := ⟨n - xs.length - 1, by omega⟩
    rw [hk]
    simp

end

end Watukuy.Library
