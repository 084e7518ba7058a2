import Mathlib.Data.List.TakeWhile

/-!
# Bisection

A list in which a test holds up to some index and fails from there on is searched for that index by
bisection. What the search finds is the length of the longest prefix that passes the test
(`bisect_eq`), so a new element is spliced in behind that prefix, and a list that is in order stays so
(`pairwise_splice`).
-/

set_option autoImplicit false

namespace Watukuy.Library

variable {α : Type}

/-- Bisection of the indices from `lo` on, below `hi`; `fuel` bounds the number of halvings. -/
def bisectFrom (p : α → Bool) (l : List α) : Nat → Nat → Nat → Nat
  | 0, lo, _ => lo
  | fuel + 1, lo, hi =>
    if lo < hi then
      let mid := (lo + hi) / 2
      if l[mid]?.any p then bisectFrom p l fuel (mid + 1) hi
      else bisectFrom p l fuel lo mid
    else lo

/-- The index at which the test begins to fail. -/
def bisect (p : α → Bool) (l : List α) : Nat := bisectFrom p l l.length 0 l.length

/-- `l` with `x` at the index `i`. -/
def splice (l : List α) (i : Nat) (x : α) : List α := l.take i ++ x :: l.drop i

section

variable {p : α → Bool} {l : List α} {x : α}

/-- The bounds close in on the index at which the test begins to fail. -/
theorem bisectFrom_eq {as bs : List α} (has : ∀ a ∈ as, p a = true) (hbs : ∀ b ∈ bs, p b = false)
    (fuel lo hi : Nat) (hlo : lo ≤ as.length) (hhi : as.length ≤ hi) (hfuel : hi ≤ lo + fuel) :
    bisectFrom p (as ++ bs) fuel lo hi = as.length := by
  induction fuel generalizing lo hi with
  | zero =>
    rw [bisectFrom]
    omega
  | succ fuel ih =>
    rw [bisectFrom]
    by_cases hlt : lo < hi
    · rw [if_pos hlt]
      dsimp only
      by_cases hmid : (lo + hi) / 2 < as.length
      · -- the middle lies in the prefix: its element passes
        have hpass : (as ++ bs)[(lo + hi) / 2]?.any p = true := by
          rw [List.getElem?_append_left hmid, List.getElem?_eq_getElem hmid, Option.any_some]
          exact has _ (List.getElem_mem hmid)
        rw [if_pos hpass]
        apply ih
        · omega
        · exact hhi
        · omega
      · have hfail : ¬(as ++ bs)[(lo + hi) / 2]?.any p = true := by
          rw [List.getElem?_append_right (Nat.le_of_not_lt hmid), Option.any_eq_true]
          rintro ⟨b, hb, hpass⟩
          rw [hbs b (List.mem_of_getElem? hb)] at hpass
          cases hpass
        rw [if_neg hfail]
        apply ih
        · exact hlo
        · omega
        · omega
    · rw [if_neg hlt]
      omega

/-- Past the first element that fails, all do. -/
theorem dropWhile_fails (h : l.Pairwise fun a b => p b = true → p a = true) :
    ∀ b ∈ l.dropWhile p, p b = false := by
  induction l with
  | nil =>
    intro b hb
    cases hb
  | cons a l ih =>
    obtain ⟨hhead, htail⟩ := List.pairwise_cons.1 h
    cases hpass : p a with
    | true =>
      rw [List.dropWhile_cons_of_pos hpass]
      exact ih htail
    | false =>
      rw [List.dropWhile_cons_of_neg (by rw [hpass]; exact Bool.false_ne_true)]
      intro b hb
      rcases List.mem_cons.1 hb with rfl | hb
      · exact hpass
      · by_contra hb'
        have hlate := hhead b hb (Bool.of_not_eq_false hb')
        rw [hpass] at hlate
        cases hlate

/-- Bisection finds the longest prefix that passes. -/
theorem bisect_eq (h : l.Pairwise fun a b => p b = true → p a = true) :
    bisect p l = (l.takeWhile p).length := by
  have hsplit : l.takeWhile p ++ l.dropWhile p = l := List.takeWhile_append_dropWhile
  have hfound := bisectFrom_eq
    (fun a ha => List.mem_takeWhile_imp ha) (dropWhile_fails h) l.length 0 l.length (Nat.zero_le _)
    (List.takeWhile_prefix p).length_le (by omega)
  rw [hsplit] at hfound
  exact hfound

theorem splice_bisect (h : l.Pairwise fun a b => p b = true → p a = true) :
    splice l (bisect p l) x = l.takeWhile p ++ x :: l.dropWhile p := by
  have htake : l.take (l.takeWhile p).length = l.takeWhile p :=
    (List.prefix_iff_eq_take.1 (List.takeWhile_prefix p)).symm
  have hdrop : l.drop (l.takeWhile p).length = l.dropWhile p := by
    have hsplit := congrArg (List.drop (l.takeWhile p).length)
      (List.takeWhile_append_dropWhile (p := p) (l := l))
    rw [List.drop_left] at hsplit
    exact hsplit.symm
  rw [bisect_eq h, splice, htake, hdrop]

theorem splice_perm (l : List α) (i : Nat) (x : α) : (splice l i x).Perm (x :: l) := by
  have hsplit : l.take i ++ l.drop i = l := List.take_append_drop i l
  have hmiddle : (l.take i ++ x :: l.drop i).Perm (x :: (l.take i ++ l.drop i)) := List.perm_middle
  rw [hsplit] at hmiddle
  exact hmiddle

theorem mem_splice {i : Nat} {y : α} : y ∈ splice l i x ↔ y = x ∨ y ∈ l :=
  (splice_perm l i x).mem_iff.trans List.mem_cons

/-- A list in order stays so, when what passes the test comes before `x` and the rest after it. -/
theorem pairwise_splice {R : α → α → Prop} (h : l.Pairwise R)
    (htest : l.Pairwise fun a b => p b = true → p a = true)
    (hbefore : ∀ a ∈ l, p a = true → R a x) (hafter : ∀ b ∈ l, p b = false → R x b) :
    (splice l (bisect p l) x).Pairwise R := by
  have hsplit : l.takeWhile p ++ l.dropWhile p = l := List.takeWhile_append_dropWhile
  rw [splice_bisect htest]
  rw [← hsplit, List.pairwise_append] at h
  obtain ⟨hfront, hback, hacross⟩ := h
  have hpass : ∀ a ∈ l.takeWhile p, R a x := by
    intro a ha
    exact hbefore a ((List.takeWhile_prefix p).subset ha) (List.mem_takeWhile_imp ha)
  have hfail : ∀ b ∈ l.dropWhile p, R x b := by
    intro b hb
    exact hafter b ((List.dropWhile_suffix p).subset hb) (dropWhile_fails htest b hb)
  refine List.pairwise_append.2 ⟨hfront, List.pairwise_cons.2 ⟨hfail, hback⟩, ?_⟩
  intro a ha b hb
  rcases List.mem_cons.1 hb with rfl | hb
  · exact hpass a ha
  · exact hacross a ha b hb

end

end Watukuy.Library
