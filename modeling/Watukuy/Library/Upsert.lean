import Watukuy.Library.OrderedMap

/-!
# Multi-row upserts

A statement that inserts or replaces several rows of a keyed table is rejected when two of its rows
have one key. Rows are therefore reduced to the last one of each key, cut into chunks, and written
chunk by chunk; `upsertAll_eq` says that this leaves what writing the rows one by one leaves.
-/

set_option autoImplicit false

namespace Watukuy.Library

variable {α κ ν : Type}

/-! ## Chunks -/

/-- Slices of length `size`; `fuel` bounds their number. -/
def chunksFrom (size : Nat) : Nat → List α → List (List α)
  | 0, _ => []
  | _ + 1, [] => []
  | fuel + 1, l => l.take size :: chunksFrom size fuel (l.drop size)

def chunks (l : List α) (size : Nat) : List (List α) := chunksFrom size l.length l

theorem chunksFrom_flatten {size : Nat} (hsize : 0 < size) (fuel : Nat) (l : List α)
    (h : l.length ≤ fuel) : (chunksFrom size fuel l).flatten = l := by
  induction fuel generalizing l with
  | zero =>
    have hnil : l = [] := List.eq_nil_of_length_eq_zero (by omega)
    rw [hnil]
    rfl
  | succ fuel ih =>
    cases l with
    | nil => rfl
    | cons a l =>
      have hrest : ((a :: l).drop size).length ≤ fuel := by
        rw [List.length_drop]
        rw [List.length_cons] at h ⊢
        omega
      rw [chunksFrom, List.flatten_cons, ih _ hrest, List.take_append_drop]
      exact List.cons_ne_nil a l

/-- The chunks of a list make up the list. -/
theorem chunks_flatten {size : Nat} (hsize : 0 < size) (l : List α) :
    (chunks l size).flatten = l :=
  chunksFrom_flatten hsize l.length l (Nat.le_refl _)

namespace OrderedMap

variable [DecidableEq κ]

/-- Storing several values looks for a key among them first. -/
theorem get_setAll (key : ν → κ) (vs : List ν) (m : OrderedMap κ ν) (a : κ) :
    (m.setAll key vs).get a = ((empty.setAll key vs).get a).or (m.get a) := by
  induction vs generalizing m with
  | nil => rfl
  | cons v vs ih =>
    have step : ∀ m : OrderedMap κ ν,
        m.setAll key (v :: vs) = (m.set (key v) v).setAll key vs := fun _ => rfl
    rw [step, step, ih, ih (empty.set (key v) v), Option.or_assoc]
    congr 1
    rw [get_set, get_set]
    split
    · rfl
    · rfl

theorem setAll_append (key : ν → κ) (vs ws : List ν) (m : OrderedMap κ ν) :
    m.setAll key (vs ++ ws) = (m.setAll key vs).setAll key ws :=
  List.foldl_append

/-! ## The last value of each key -/

/-- The last value of each key, in the order in which the keys first come. -/
def dedupe (key : ν → κ) (vs : List ν) : List ν := (empty.setAll key vs).values

section
variable {key : ν → κ} {vs : List ν} {v : ν}

theorem get_dedupe {k : κ} (h : (empty.setAll key vs).get k = some v) : v ∈ vs ∧ key v = k :=
  (get_setAll_cases key vs empty h).resolve_right nofun

theorem mem_of_mem_dedupe (h : v ∈ dedupe key vs) : v ∈ vs := by
  obtain ⟨k, hk⟩ := (mem_values_iff _ v).1 h
  exact (get_dedupe hk).1

theorem mem_dedupe_iff : v ∈ dedupe key vs ↔ (empty.setAll key vs).get (key v) = some v := by
  rw [dedupe, mem_values_iff]
  constructor
  · rintro ⟨k, hk⟩
    rw [(get_dedupe hk).2]
    exact hk
  · intro h
    exact ⟨key v, h⟩

/-- Its keys are pairwise distinct. -/
theorem nodup_dedupe (key : ν → κ) (vs : List ν) : ((dedupe key vs).map key).Nodup := by
  have hkeys : (dedupe key vs).map key = (empty.setAll key vs).keys := by
    rw [dedupe, values, keys, List.map_map]
    refine List.map_congr_left ?_
    rintro ⟨k, v⟩ hmem
    exact (get_dedupe (find_of_mem (empty.setAll key vs).nodup hmem)).2
  rw [hkeys]
  exact keys_nodup _

/-- Distinct keys lose nothing. -/
theorem mem_dedupe_of_nodup (h : (vs.map key).Nodup) (hv : v ∈ vs) : v ∈ dedupe key vs :=
  mem_dedupe_iff.2 (get_setAll_of_mem key h empty hv)

/-- Storing the last values of the keys is storing all. -/
theorem get_setAll_dedupe (key : ν → κ) (vs : List ν) (m : OrderedMap κ ν) (a : κ) :
    (m.setAll key (dedupe key vs)).get a = (m.setAll key vs).get a := by
  rw [get_setAll, get_setAll key vs]
  congr 1
  cases hget : (empty.setAll key vs).get a with
  | some v =>
    obtain ⟨-, rfl⟩ := get_dedupe hget
    exact get_setAll_of_mem key (nodup_dedupe key vs) empty (mem_dedupe_iff.2 hget)
  | none =>
    have hnone : a ∉ (dedupe key vs).map key := by
      intro hmem
      obtain ⟨v, hv, rfl⟩ := List.mem_map.1 hmem
      rw [mem_dedupe_iff.1 hv] at hget
      cases hget
    rw [get_setAll_of_not_mem key _ _ hnone]
    rfl

end

/-! ## Statements -/

/-- One statement: rejected when a key comes twice. -/
def upsert (key : ν → κ) (m : OrderedMap κ ν) (rows : List ν) : Option (OrderedMap κ ν) :=
  if (rows.map key).Nodup then some (m.setAll key rows) else none

/-- One statement for each chunk. -/
def upsertAll (key : ν → κ) (size : Nat) (rows : List ν) (m : OrderedMap κ ν) :
    Option (OrderedMap κ ν) :=
  (chunks rows size).foldlM (upsert key) m

theorem foldlM_upsert (key : ν → κ) (l : List (List ν)) (h : (l.flatten.map key).Nodup)
    (m : OrderedMap κ ν) : l.foldlM (upsert key) m = some (m.setAll key l.flatten) := by
  induction l generalizing m with
  | nil => rfl
  | cons rows l ih =>
    rw [List.flatten_cons, List.map_append, List.nodup_append] at h
    rw [List.foldlM_cons, upsert, if_pos h.1, Option.bind_eq_bind, Option.bind_some, ih h.2.1,
      List.flatten_cons, setAll_append]

/-- Rows with distinct keys are written in chunks as they are written one by one. -/
theorem upsertAll_eq {key : ν → κ} {size : Nat} (hsize : 0 < size) {rows : List ν}
    (h : (rows.map key).Nodup) (m : OrderedMap κ ν) :
    upsertAll key size rows m = some (m.setAll key rows) := by
  rw [upsertAll, foldlM_upsert, chunks_flatten hsize]
  rw [chunks_flatten hsize]
  exact h

/-- Erasing the keys chunk by chunk is erasing them. -/
theorem eraseAll_chunks {size : Nat} (hsize : 0 < size) (ks : List κ) (m : OrderedMap κ ν) :
    (chunks ks size).foldl eraseAll m = m.eraseAll ks := by
  have hflat : ∀ (l : List (List κ)) (m : OrderedMap κ ν),
      l.foldl eraseAll m = m.eraseAll l.flatten := by
    intro l
    induction l with
    | nil => intro m; rfl
    | cons ks l ih =>
      intro m
      rw [List.foldl_cons, ih, List.flatten_cons]
      exact List.foldl_append.symm
  rw [hflat, chunks_flatten hsize]

end OrderedMap

end Watukuy.Library
