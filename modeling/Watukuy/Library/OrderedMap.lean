import Mathlib.Data.List.Nodup
import Mathlib.Data.List.Basic

/-!
# Maps that iterate in insertion order

`OrderedMap κ ν` is a finite map whose entries keep the order in which their keys were first
inserted: replacing the value of a present key keeps its place, a new key goes to the end. The
keys are pairwise distinct by construction.
-/

set_option autoImplicit false

namespace Watukuy.Library

variable {κ ν : Type}

/-- A finite map with an insertion order. -/
structure OrderedMap (κ ν : Type) where
  entries : List (κ × ν)
  nodup : (entries.map Prod.fst).Nodup

namespace OrderedMap

variable [DecidableEq κ]

/-- Lookup in a list of entries. -/
def find (k : κ) : List (κ × ν) → Option ν
  | [] => none
  | (a, b) :: l => if a = k then some b else find k l

/-- Replacement in place, or insertion at the end. -/
def place (k : κ) (v : ν) : List (κ × ν) → List (κ × ν)
  | [] => [(k, v)]
  | (a, b) :: l => if a = k then (a, v) :: l else (a, b) :: place k v l

theorem mem_keys_place (k : κ) (v : ν) (l : List (κ × ν)) (a : κ) :
    a ∈ (place k v l).map Prod.fst ↔ a = k ∨ a ∈ l.map Prod.fst := by
  induction l with
  | nil => simp [place]
  | cons p l ih =>
    obtain ⟨b, w⟩ := p
    by_cases hb : b = k
    · subst hb
      simp [place]
    · rw [place, if_neg hb, List.map_cons, List.map_cons, List.mem_cons, List.mem_cons, ih]
      exact or_left_comm

theorem nodup_place (k : κ) (v : ν) {l : List (κ × ν)} (h : (l.map Prod.fst).Nodup) :
    ((place k v l).map Prod.fst).Nodup := by
  induction l with
  | nil => simp [place]
  | cons p l ih =>
    obtain ⟨b, w⟩ := p
    rw [List.map_cons, List.nodup_cons] at h
    by_cases hb : b = k
    · rw [place, if_pos hb, List.map_cons, List.nodup_cons]
      exact h
    · rw [place, if_neg hb, List.map_cons, List.nodup_cons, mem_keys_place]
      exact ⟨fun hor => hor.elim hb h.1, ih h.2⟩

theorem find_place_self (k : κ) (v : ν) (l : List (κ × ν)) : find k (place k v l) = some v := by
  induction l with
  | nil => simp [place, find]
  | cons p l ih =>
    obtain ⟨b, w⟩ := p
    by_cases hb : b = k
    · rw [place, if_pos hb, find, if_pos hb]
    · rw [place, if_neg hb, find, if_neg hb, ih]

theorem find_place_ne {k a : κ} (h : a ≠ k) (v : ν) (l : List (κ × ν)) :
    find a (place k v l) = find a l := by
  induction l with
  | nil => simp [place, find, Ne.symm h]
  | cons p l ih =>
    obtain ⟨b, w⟩ := p
    by_cases hb : b = k
    · subst hb
      rw [place, if_pos rfl, find, find, if_neg (Ne.symm h), if_neg (Ne.symm h)]
    · rw [place, if_neg hb, find, find, ih]

theorem find_filter_self (k : κ) (l : List (κ × ν)) :
    find k (l.filter fun p => p.1 ≠ k) = none := by
  induction l with
  | nil => rfl
  | cons p l ih =>
    obtain ⟨b, w⟩ := p
    by_cases hb : b = k
    · rw [List.filter_cons_of_neg (by simp [hb]), ih]
    · rw [List.filter_cons_of_pos (by simp [hb]), find, if_neg hb, ih]

theorem find_filter_ne {k a : κ} (h : a ≠ k) (l : List (κ × ν)) :
    find a (l.filter fun p => p.1 ≠ k) = find a l := by
  induction l with
  | nil => rfl
  | cons p l ih =>
    obtain ⟨b, w⟩ := p
    by_cases hb : b = k
    · subst hb
      rw [List.filter_cons_of_neg (by simp), ih, find, if_neg (Ne.symm h)]
    · rw [List.filter_cons_of_pos (by simp [hb]), find, find, ih]

theorem find_isSome_iff (k : κ) (l : List (κ × ν)) :
    (find k l).isSome ↔ k ∈ l.map Prod.fst := by
  induction l with
  | nil => simp [find]
  | cons p l ih =>
    obtain ⟨b, w⟩ := p
    by_cases hb : b = k
    · simp [find, hb]
    · rw [find, if_neg hb, ih, List.map_cons, List.mem_cons]
      exact ⟨Or.inr, fun hor => hor.resolve_left (Ne.symm hb)⟩

theorem mem_of_find {k : κ} {v : ν} {l : List (κ × ν)} (h : find k l = some v) : (k, v) ∈ l := by
  induction l with
  | nil => simp [find] at h
  | cons p l ih =>
    obtain ⟨b, w⟩ := p
    by_cases hb : b = k
    · rw [find, if_pos hb, Option.some.injEq] at h
      rw [hb, h]
      exact List.mem_cons_self
    · rw [find, if_neg hb] at h
      exact List.mem_cons_of_mem _ (ih h)

theorem find_of_mem {k : κ} {v : ν} {l : List (κ × ν)} (hl : (l.map Prod.fst).Nodup)
    (h : (k, v) ∈ l) : find k l = some v := by
  induction l with
  | nil => simp at h
  | cons p l ih =>
    obtain ⟨b, w⟩ := p
    rw [List.map_cons, List.nodup_cons] at hl
    rcases List.mem_cons.1 h with heq | hmem
    · obtain ⟨rfl, rfl⟩ := Prod.mk.inj heq
      rw [find, if_pos rfl]
    · have hb : b ≠ k := by
        rintro rfl
        exact hl.1 (List.mem_map.2 ⟨(b, v), hmem, rfl⟩)
      rw [find, if_neg hb]
      exact ih hl.2 hmem

/-! ## The map operations -/

/-- The empty map. -/
def empty : OrderedMap κ ν := ⟨[], List.nodup_nil⟩

/-- The value stored under a key. -/
def get (m : OrderedMap κ ν) (k : κ) : Option ν := find k m.entries

/-- Store a value under a key. -/
def set (m : OrderedMap κ ν) (k : κ) (v : ν) : OrderedMap κ ν :=
  ⟨place k v m.entries, nodup_place k v m.nodup⟩

/-- Remove a key. -/
def erase (m : OrderedMap κ ν) (k : κ) : OrderedMap κ ν :=
  ⟨m.entries.filter fun p => p.1 ≠ k, m.nodup.sublist (List.filter_sublist.map _)⟩

/-- The keys, in insertion order. -/
def keys (m : OrderedMap κ ν) : List κ := m.entries.map Prod.fst

/-- The values, in insertion order of their keys. -/
def values (m : OrderedMap κ ν) : List ν := m.entries.map Prod.snd

/-- Store several values, in order; `key` gives the key of each. -/
def setAll (m : OrderedMap κ ν) (key : ν → κ) (vs : List ν) : OrderedMap κ ν :=
  vs.foldl (fun m v => m.set (key v) v) m

/-- Remove several keys. -/
def eraseAll (m : OrderedMap κ ν) (ks : List κ) : OrderedMap κ ν := ks.foldl erase m

@[simp] theorem get_empty (k : κ) : (empty : OrderedMap κ ν).get k = none := rfl

@[simp] theorem get_set_self (m : OrderedMap κ ν) (k : κ) (v : ν) : (m.set k v).get k = some v :=
  find_place_self k v m.entries

theorem get_set_ne (m : OrderedMap κ ν) {k a : κ} (h : a ≠ k) (v : ν) :
    (m.set k v).get a = m.get a :=
  find_place_ne h v m.entries

@[simp] theorem get_erase_self (m : OrderedMap κ ν) (k : κ) : (m.erase k).get k = none :=
  find_filter_self k m.entries

theorem get_erase_ne (m : OrderedMap κ ν) {k a : κ} (h : a ≠ k) : (m.erase k).get a = m.get a :=
  find_filter_ne h m.entries

theorem get_set (m : OrderedMap κ ν) (k a : κ) (v : ν) :
    (m.set k v).get a = if a = k then some v else m.get a := by
  by_cases h : a = k
  · rw [if_pos h, h, get_set_self]
  · rw [if_neg h, get_set_ne m h]

theorem get_erase (m : OrderedMap κ ν) (k a : κ) :
    (m.erase k).get a = if a = k then none else m.get a := by
  by_cases h : a = k
  · rw [if_pos h, h, get_erase_self]
  · rw [if_neg h, get_erase_ne m h]

theorem mem_keys_iff (m : OrderedMap κ ν) (k : κ) : k ∈ m.keys ↔ (m.get k).isSome :=
  (find_isSome_iff k m.entries).symm

omit [DecidableEq κ] in
theorem keys_nodup (m : OrderedMap κ ν) : m.keys.Nodup := m.nodup

theorem mem_values_iff (m : OrderedMap κ ν) (v : ν) : v ∈ m.values ↔ ∃ k, m.get k = some v := by
  constructor
  · intro h
    obtain ⟨⟨k, w⟩, hmem, rfl⟩ := List.mem_map.1 h
    exact ⟨k, find_of_mem m.nodup hmem⟩
  · rintro ⟨k, hk⟩
    exact List.mem_map.2 ⟨(k, v), mem_of_find hk, rfl⟩

theorem get_eraseAll (ks : List κ) (m : OrderedMap κ ν) (a : κ) :
    (m.eraseAll ks).get a = if a ∈ ks then none else m.get a := by
  induction ks generalizing m with
  | nil => simp [eraseAll]
  | cons k ks ih =>
    have step : m.eraseAll (k :: ks) = (m.erase k).eraseAll ks := rfl
    rw [step, ih, get_erase]
    by_cases hk : a = k <;> by_cases hks : a ∈ ks <;> simp [hk, hks]

theorem entries_eraseAll (m : OrderedMap κ ν) (ks : List κ) :
    (m.eraseAll ks).entries = m.entries.filter fun p => decide (p.1 ∉ ks) := by
  induction ks generalizing m with
  | nil => simp [eraseAll]
  | cons k ks ih =>
    have hstep : m.eraseAll (k :: ks) = (m.erase k).eraseAll ks := rfl
    rw [hstep, ih, erase, List.filter_filter]
    refine List.filter_congr ?_
    intro p _
    simp [Bool.and_comm]

/-- A key outside the stored values keeps its value. -/
theorem get_setAll_of_not_mem (key : ν → κ) (vs : List ν) (m : OrderedMap κ ν) {a : κ}
    (h : a ∉ vs.map key) : (m.setAll key vs).get a = m.get a := by
  induction vs generalizing m with
  | nil => rfl
  | cons v vs ih =>
    rw [List.map_cons, List.mem_cons, not_or] at h
    have step : m.setAll key (v :: vs) = (m.set (key v) v).setAll key vs := rfl
    rw [step, ih _ h.2, get_set_ne m h.1]

/-- A stored value is found under its key when the keys are pairwise distinct. -/
theorem get_setAll_of_mem (key : ν → κ) {vs : List ν} (hvs : (vs.map key).Nodup)
    (m : OrderedMap κ ν) {v : ν} (h : v ∈ vs) : (m.setAll key vs).get (key v) = some v := by
  induction vs generalizing m with
  | nil => simp at h
  | cons w vs ih =>
    rw [List.map_cons, List.nodup_cons] at hvs
    have step : m.setAll key (w :: vs) = (m.set (key w) w).setAll key vs := rfl
    rw [step]
    rcases List.mem_cons.1 h with rfl | hmem
    · rw [get_setAll_of_not_mem key vs _ hvs.1, get_set_self]
    · exact ih hvs.2 _ hmem

/-- Whatever is found after storing several values is one of them or was there before. -/
theorem get_setAll_cases (key : ν → κ) (vs : List ν) (m : OrderedMap κ ν) {a : κ} {v : ν}
    (h : (m.setAll key vs).get a = some v) : (v ∈ vs ∧ key v = a) ∨ m.get a = some v := by
  induction vs generalizing m with
  | nil => exact Or.inr h
  | cons w vs ih =>
    have step : m.setAll key (w :: vs) = (m.set (key w) w).setAll key vs := rfl
    rw [step] at h
    rcases ih _ h with ⟨hv, hk⟩ | hm
    · exact Or.inl ⟨List.mem_cons_of_mem _ hv, hk⟩
    · rw [get_set] at hm
      by_cases hk : a = key w
      · rw [if_pos hk, Option.some.injEq] at hm
        exact Or.inl ⟨hm ▸ List.mem_cons_self, by rw [hk, hm]⟩
      · rw [if_neg hk] at hm
        exact Or.inr hm

/-- Storing values never removes a key, and each stored key is present. -/
theorem isSome_get_setAll (key : ν → κ) (vs : List ν) (m : OrderedMap κ ν) (a : κ) :
    ((m.setAll key vs).get a).isSome ↔ a ∈ vs.map key ∨ (m.get a).isSome := by
  induction vs generalizing m with
  | nil => simp [setAll]
  | cons w vs ih =>
    have step : m.setAll key (w :: vs) = (m.set (key w) w).setAll key vs := rfl
    rw [step, ih, get_set, List.map_cons, List.mem_cons]
    by_cases hk : a = key w <;> simp [hk]

/-- A new key goes to the end. -/
theorem entries_set_of_fresh (m : OrderedMap κ ν) {k : κ} (h : k ∉ m.keys) (v : ν) :
    (m.set k v).entries = m.entries ++ [(k, v)] := by
  have hplace : ∀ l : List (κ × ν), k ∉ l.map Prod.fst → place k v l = l ++ [(k, v)] := by
    intro l
    induction l with
    | nil => intro _; rfl
    | cons p l ih =>
      intro hk
      rw [List.map_cons, List.mem_cons, not_or] at hk
      rw [place, if_neg fun heq => hk.1 heq.symm, ih hk.2, List.cons_append]
  exact hplace m.entries h

end OrderedMap

end Watukuy.Library
