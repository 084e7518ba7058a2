import Watukuy.Library.OrderedMap
import Watukuy.Library.Sorting

/-!
# Selecting rows

A statement reads a keyed table whose rows have no order of their own: it keeps the rows that pass a
test, brings them into the order of a rank, and replies with the first of them (`Selected`). Rows of
one rank may come in any order. A reader of pages asks for the names past the last one it has seen
(`namePages`), and gets every name once.
-/

set_option autoImplicit false

namespace Watukuy.Library

variable {κ ν β : Type}

/-! ## Tables with the same rows -/

namespace OrderedMap

variable [DecidableEq κ] {m m' : OrderedMap κ ν}

theorem mem_entries_iff (m : OrderedMap κ ν) (k : κ) (v : ν) :
    (k, v) ∈ m.entries ↔ m.get k = some v :=
  ⟨find_of_mem m.nodup, mem_of_find⟩

/-- The entries of maps that give the same are the same, up to their order. -/
theorem entries_perm (h : ∀ k, m.get k = m'.get k) : m.entries.Perm m'.entries := by
  refine (List.perm_ext_iff_of_nodup (List.Nodup.of_map _ m.nodup)
    (List.Nodup.of_map _ m'.nodup)).2 ?_
  rintro ⟨k, v⟩
  rw [mem_entries_iff, mem_entries_iff, h]

theorem values_perm (h : ∀ k, m.get k = m'.get k) : m.values.Perm m'.values :=
  (entries_perm h).map _

theorem keys_perm (h : ∀ k, m.get k = m'.get k) : m.keys.Perm m'.keys :=
  (entries_perm h).map _

/-- Where each value tells its key, the keys are those of the values. -/
theorem keys_eq_map {key : ν → κ} (h : ∀ k v, m.get k = some v → key v = k) :
    m.keys = m.values.map key := by
  rw [keys, values, List.map_map]
  refine List.map_congr_left ?_
  rintro ⟨k, v⟩ hmem
  exact (h k v ((mem_entries_iff m k v).1 hmem)).symm

end OrderedMap

/-! ## Statements -/

section Select

variable [LinearOrder β]

/-- `SELECT .. WHERE keep ORDER BY rank LIMIT limit`. -/
def Selected (keep : ν → Bool) (rank : ν → β) (limit : Option Nat) (m : OrderedMap κ ν)
    (rows : List ν) : Prop :=
  ∃ all : List ν, all.Perm (m.values.filter keep) ∧
    all.Pairwise (fun a b => rank a ≤ rank b) ∧ rows = all.take (limit.getD all.length)

variable {keep : ν → Bool} {rank : ν → β} {limit : Option Nat} {m m' : OrderedMap κ ν}
  {rows l : List ν}

/-- Some rows are selected. -/
theorem exists_selected (keep : ν → Bool) (rank : ν → β) (limit : Option Nat)
    (m : OrderedMap κ ν) : ∃ rows, Selected keep rank limit m rows := by
  let le : ν → ν → Prop := fun a b => rank a ≤ rank b
  have : Std.Total le := ⟨fun a b => le_total (rank a) (rank b)⟩
  have : IsTrans ν le := ⟨fun _ _ _ => le_trans⟩
  exact ⟨_, (m.values.filter keep).insertionSort le, List.perm_insertionSort le _,
    List.pairwise_insertionSort le _, rfl⟩

/-- Selected from a table with the same rows. -/
theorem Selected.congr [DecidableEq κ] (h : Selected keep rank limit m rows)
    (hm : ∀ k, m.get k = m'.get k) : Selected keep rank limit m' rows := by
  obtain ⟨all, hperm, hsorted, rfl⟩ := h
  exact ⟨all, hperm.trans ((OrderedMap.values_perm hm).filter keep), hsorted, rfl⟩

/-- Distinct ranks leave the server no choice. -/
theorem Selected.eq_take {n : Nat} (h : Selected keep rank (some n) m rows)
    (hl : l.Pairwise fun a b => rank a < rank b) (hperm : l.Perm (m.values.filter keep)) :
    rows = l.take n := by
  obtain ⟨all, hall, hsorted, rfl⟩ := h
  have hboth : all.Perm l := hall.trans hperm.symm
  have hranks : (all.map rank).Nodup := by
    refine (hboth.map rank).nodup_iff.2 ?_
    refine List.pairwise_map.2 (hl.imp ?_)
    intro a b hlt heq
    exact absurd heq hlt.ne
  have heq : all = l := by
    apply eq_of_increasing rank (increasing_of_sorted rank hsorted hranks) hl
    intro a
    exact hboth.mem_iff
  rw [heq]
  rfl

end Select

/-! ## Deletions -/

namespace OrderedMap

variable [DecidableEq κ]

/-- `DELETE .. WHERE key = ANY(ks)`: the number of rows that it removes, and what is left. -/
def deleteAny (m : OrderedMap κ ν) (ks : List κ) : Nat × OrderedMap κ ν :=
  ((m.keys.filter fun k => k ∈ ks).length, m.eraseAll ks)

/-- One statement for each list of keys, the numbers added up. -/
def deleteEach (m : OrderedMap κ ν) : List (List κ) → Nat × OrderedMap κ ν
  | [] => (0, m)
  | ks :: rest =>
    let (n, m) := m.deleteAny ks
    let (n', m) := deleteEach m rest
    (n + n', m)

theorem keys_eraseAll (m : OrderedMap κ ν) (ks : List κ) :
    (m.eraseAll ks).keys = m.keys.filter fun k => decide (k ∉ ks) := by
  rw [keys, entries_eraseAll, keys, List.filter_map]
  rfl

theorem deleteAny_append (m : OrderedMap κ ν) (ks ks' : List κ) :
    m.deleteAny (ks ++ ks') =
      ((m.deleteAny ks).1 + ((m.deleteAny ks).2.deleteAny ks').1,
        ((m.deleteAny ks).2.deleteAny ks').2) := by
  refine Prod.ext ?_ List.foldl_append
  -- a key of both lists goes with the first
  have hsplit := List.length_eq_length_filter_add (l := m.keys.filter fun k => k ∈ ks ++ ks')
    (fun k => decide (k ∈ ks))
  simp only [deleteAny, keys_eraseAll]
  rw [hsplit, List.filter_filter, List.filter_filter, List.filter_filter]
  congr 2
  · refine List.filter_congr ?_
    intro k _
    by_cases hk : k ∈ ks <;> simp [hk]
  · refine List.filter_congr ?_
    intro k _
    by_cases hk : k ∈ ks <;> simp [hk]

/-- Deleting list by list is deleting all. -/
theorem deleteEach_eq (l : List (List κ)) (m : OrderedMap κ ν) :
    m.deleteEach l = m.deleteAny l.flatten := by
  induction l generalizing m with
  | nil => simp [deleteEach, deleteAny, eraseAll]
  | cons ks rest ih => rw [deleteEach, List.flatten_cons, deleteAny_append, ← ih]

end OrderedMap

/-! ## Pages of names -/

section Pages

variable [LinearOrder β]

/-- `SELECT name WHERE name > after ORDER BY name LIMIT size`, in the order of the ranks. -/
def namesPast (rank : κ → β) (size : Nat) (after : Option κ) (names : List κ) : List κ :=
  ((names.filter fun k => after.all fun a => decide (rank a < rank k)).insertionSort
    fun a b => rank a ≤ rank b).take size

/-- One page after the other, each past the last name of the one before; `fuel` bounds their
number. -/
def namePages (rank : κ → β) (size : Nat) : Nat → Option κ → List κ → List (List κ)
  | 0, _, _ => []
  | fuel + 1, after, names =>
    let page := namesPast rank size after names
    if page.isEmpty then []
    else if page.length < size then [page]
    else page :: namePages rank size fuel page.getLast? names

variable {rank : κ → β} {size : Nat} {names pre suf : List κ}

/-- The names, in the order of their ranks. -/
theorem sorted_names (hrank : Function.Injective rank) (hnames : names.Nodup) :
    (names.insertionSort fun a b => rank a ≤ rank b).Pairwise fun a b => rank a < rank b := by
  let le : κ → κ → Prop := fun a b => rank a ≤ rank b
  have : Std.Total le := ⟨fun a b => le_total (rank a) (rank b)⟩
  have : IsTrans κ le := ⟨fun _ _ _ => le_trans⟩
  refine increasing_of_sorted rank (List.pairwise_insertionSort le names) ?_
  exact ((List.perm_insertionSort le names).nodup_iff.2 hnames).map hrank

/-- Past the names that were seen come the others. -/
theorem namesPast_eq (hrank : Function.Injective rank) (hnames : names.Nodup)
    (hsplit : (names.insertionSort fun a b => rank a ≤ rank b) = pre ++ suf) :
    namesPast rank size pre.getLast? names = suf.take size := by
  have hsorted := sorted_names hrank hnames
  have hperm := List.perm_insertionSort (fun a b : κ => rank a ≤ rank b) names
  rw [hsplit] at hsorted hperm
  unfold namesPast
  congr 1
  apply eq_of_increasing rank (sorted_names hrank (hnames.filter _))
    (hsorted.sublist (List.sublist_append_right pre suf))
  intro a
  rw [List.mem_insertionSort, List.mem_filter, ← hperm.mem_iff]
  cases hlast : pre.getLast? with
  | none =>
    rw [List.getLast?_eq_none_iff] at hlast
    simp [hlast]
  | some p =>
    have hpast := filter_past hsorted hlast
    rw [← hpast, List.mem_filter]
    simp [hpast]

/-- The pages past the names that were seen hold all others, in order. -/
theorem namePages_past (hsize : 0 < size) (hrank : Function.Injective rank) (hnames : names.Nodup)
    (fuel : Nat) (pre suf : List κ)
    (hsplit : (names.insertionSort fun a b => rank a ≤ rank b) = pre ++ suf)
    (hfuel : suf.length < fuel) :
    (namePages rank size fuel pre.getLast? names).flatten = suf ∧
      ∀ page ∈ namePages rank size fuel pre.getLast? names, page ≠ [] ∧ page.length ≤ size := by
  induction fuel generalizing pre suf with
  | zero => exact absurd hfuel (Nat.not_lt_zero _)
  | succ fuel ih =>
    rw [namePages, namesPast_eq hrank hnames hsplit]
    have hlength : (suf.take size).length ≤ size := List.length_take_le size suf
    by_cases hempty : (suf.take size).isEmpty
    · -- no name is left
      rw [if_pos hempty]
      rw [List.isEmpty_iff, List.take_eq_nil_iff] at hempty
      obtain rfl := hempty.resolve_left hsize.ne'
      exact ⟨rfl, by simp⟩
    have hne : suf.take size ≠ [] := fun h => hempty (List.isEmpty_iff.2 h)
    rw [if_neg hempty]
    by_cases hlast : (suf.take size).length < size
    · -- the last page
      have hall : suf.take size = suf := by
        rw [List.length_take] at hlast
        exact List.take_of_length_le (by omega)
      rw [if_pos hlast, hall]
      rw [hall] at hne hlength
      exact ⟨by simp, by simpa using ⟨hne, hlength⟩⟩
    · rw [if_neg hlast]
      have hfull : (suf.take size).length = size := by omega
      have hnext : (pre ++ suf.take size).getLast? = (suf.take size).getLast? := by
        rw [List.getLast?_append_of_ne_nil _ hne]
      have hrest := ih (pre ++ suf.take size) (suf.drop size)
        (by rw [hsplit, List.append_assoc, List.take_append_drop])
        (by
          rw [List.length_drop]
          rw [List.length_take] at hfull
          omega)
      rw [hnext] at hrest
      constructor
      · rw [List.flatten_cons, hrest.1, List.take_append_drop]
      · intro page hpage
        rcases List.mem_cons.1 hpage with rfl | hpage
        · exact ⟨hne, hlength⟩
        · exact hrest.2 page hpage

/-- The pages hold every name once, in order, and none of them is empty or too long. -/
theorem namePages_all (hsize : 0 < size) (hrank : Function.Injective rank) (hnames : names.Nodup) :
    let pages := namePages rank size (names.length + 1) none names
    pages.flatten = (names.insertionSort fun a b => rank a ≤ rank b) ∧
      ∀ page ∈ pages, page ≠ [] ∧ page.length ≤ size := by
  have hall := namePages_past hsize hrank hnames (names.length + 1) []
    (names.insertionSort fun a b => rank a ≤ rank b) rfl
    (by rw [List.length_insertionSort]; exact Nat.lt_succ_self _)
  exact hall

end Pages

end Watukuy.Library
