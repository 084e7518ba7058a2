import Mathlib.Data.List.DropRight

/-!
# Lists without a kind of elements at their ends

`trim space l` drops the elements of a kind from both ends of a list. A list that is not empty
and has none of them at its ends is `Solid`: trimming leaves it alone, and padding it with
elements of the kind and trimming gives it back.
-/

set_option autoImplicit false

namespace Watukuy.Library

variable {α : Type} {space : α → Bool}

/-- The list without the elements of a kind at its ends. -/
def trim (space : α → Bool) (l : List α) : List α := (l.dropWhile space).rdropWhile space

/-- A list whose first and last elements are not of the kind. -/
structure Solid (space : α → Bool) (l : List α) : Prop where
  first : ∃ a ∈ l.head?, space a = false
  last : ∃ a ∈ l.getLast?, space a = false

theorem Solid.ne_nil {l : List α} (h : Solid space l) : l ≠ [] := by
  obtain ⟨a, ha, -⟩ := h.first
  rintro rfl
  cases ha

/-- What stands between two solid lists is inside a solid list. -/
theorem Solid.between {a c : List α} (ha : Solid space a) (hc : Solid space c) (b : List α) :
    Solid space (a ++ b ++ c) := by
  obtain ⟨x, hx, hxs⟩ := ha.first
  obtain ⟨y, hy, hys⟩ := hc.last
  refine ⟨⟨x, ?_, hxs⟩, ⟨y, ?_, hys⟩⟩
  · rw [List.append_assoc, List.head?_append]
    simp [Option.mem_def.1 hx]
  · rw [List.getLast?_append]
    simp [Option.mem_def.1 hy]

/-- A list with no element of the kind is solid. -/
theorem solid_of_forall {l : List α} (hne : l ≠ []) (h : ∀ a ∈ l, space a = false) :
    Solid space l :=
  ⟨⟨l.head hne, List.head?_eq_some_head hne, h _ (List.head_mem hne)⟩,
    ⟨l.getLast hne, List.getLast?_eq_some_getLast hne, h _ (List.getLast_mem hne)⟩⟩

theorem dropWhile_solid {l : List α} (h : Solid space l) : l.dropWhile space = l := by
  obtain ⟨a, ha, hspace⟩ := h.first
  cases l with
  | nil => cases ha
  | cons b l =>
      obtain rfl : b = a := Option.some.inj ha
      rw [List.dropWhile_cons_of_neg (by simp [hspace])]

theorem Solid.reverse {l : List α} (h : Solid space l) : Solid space l.reverse :=
  ⟨by rw [List.head?_reverse]; exact h.last, by rw [List.getLast?_reverse]; exact h.first⟩

/-- Trimming takes the padding off a solid list and nothing else. -/
theorem trim_padded {p l q : List α} (hp : ∀ a ∈ p, space a = true) (h : Solid space l)
    (hq : ∀ a ∈ q, space a = true) : trim space (p ++ l ++ q) = l := by
  have hfront : (p ++ l ++ q).dropWhile space = l ++ q := by
    rw [List.append_assoc, List.dropWhile_append_of_pos hp]
    obtain ⟨a, ha, hspace⟩ := h.first
    cases l with
    | nil => cases ha
    | cons b l =>
        obtain rfl : b = a := Option.some.inj ha
        rw [List.cons_append, List.dropWhile_cons_of_neg (by simp [hspace])]
  have hback : (l ++ q).reverse.dropWhile space = l.reverse := by
    rw [List.reverse_append, List.dropWhile_append_of_pos (by simpa using hq),
      dropWhile_solid h.reverse]
  rw [trim, hfront, List.rdropWhile, hback, List.reverse_reverse]

theorem trim_front {p l : List α} (hp : ∀ a ∈ p, space a = true) (h : Solid space l) :
    trim space (p ++ l) = l := by
  simpa using trim_padded (q := []) hp h (by simp)

theorem trim_back {l q : List α} (h : Solid space l) (hq : ∀ a ∈ q, space a = true) :
    trim space (l ++ q) = l := by
  simpa using trim_padded (p := []) (by simp) h hq

/-- A first element that is not of the kind stays first. -/
theorem head?_trim {l : List α} {a : α} (h : l.head? = some a) (ha : space a = false) :
    (trim space l).head? = some a := by
  obtain ⟨l, rfl⟩ := List.head?_eq_some_iff.1 h
  have hne : (a :: l).rdropWhile space ≠ [] := by
    intro hnil
    have hall := List.rdropWhile_eq_nil_iff.1 hnil a List.mem_cons_self
    rw [ha] at hall
    cases hall
  obtain ⟨b, m, hbm⟩ := List.exists_cons_of_ne_nil hne
  have hpre := List.rdropWhile_prefix space (l := a :: l)
  rw [hbm, List.cons_prefix_cons] at hpre
  rw [trim, List.dropWhile_cons_of_neg (by simp [ha]), hbm, hpre.1, List.head?_cons]

/-! ## Lists cut at an element -/

/-- Where an element first stands tells what is before it and what is after it. -/
theorem eq_of_cut {c : α} {a b x y : List α} (ha : c ∉ a) (hb : c ∉ b)
    (h : a ++ c :: x = b ++ c :: y) : a = b ∧ x = y := by
  induction a generalizing b with
  | nil =>
    cases b with
    | nil => exact ⟨rfl, (List.cons.inj h).2⟩
    | cons d b =>
      have hd : c = d := (List.cons.inj h).1
      exact absurd (hd ▸ List.mem_cons_self) hb
  | cons d a ih =>
    cases b with
    | nil =>
      have hd : d = c := (List.cons.inj h).1
      exact absurd (hd ▸ List.mem_cons_self) ha
    | cons e b =>
      obtain ⟨rfl, hrest⟩ := List.cons.inj h
      obtain ⟨rfl, hxy⟩ := ih (fun hm => ha (List.mem_cons_of_mem _ hm))
        (fun hm => hb (List.mem_cons_of_mem _ hm)) hrest
      exact ⟨rfl, hxy⟩

end Watukuy.Library
