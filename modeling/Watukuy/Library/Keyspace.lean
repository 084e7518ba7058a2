import Watukuy.Library.OrderedMap
import Mathlib.Data.List.Induction

/-!
# A map of cells seen from one key

A service keeps one cell for each key and its calls name the key that they are about. Where a call
changes the cell of its own key alone (`Local`), the cell after a run of calls on many keys is the
one that the calls on its key leave (`Local.cell_run`).

`CellMap` is the service that keeps its cells in a map, under a name for each key, and makes a cell
only when a call needs one.
-/

set_option autoImplicit false

namespace Watukuy.Library

variable {κ O M σ : Type}

section Run

variable [DecidableEq κ]

/-- The calls of a run that name a key. -/
def callsOn (k : κ) (calls : List (κ × O)) : List O :=
  (calls.filter fun c => c.1 = k).map Prod.snd

theorem callsOn_snoc_self (k : κ) (calls : List (κ × O)) (o : O) :
    callsOn k (calls ++ [(k, o)]) = callsOn k calls ++ [o] := by
  simp [callsOn]

theorem callsOn_snoc_other {k k' : κ} (h : k' ≠ k) (calls : List (κ × O)) (o : O) :
    callsOn k (calls ++ [(k', o)]) = callsOn k calls := by
  simp [callsOn, h]

/-- A call steps the cell of its own key, and no other cell. -/
structure Local (cell : κ → M → σ) (step : κ → O → M → M) (serve : κ → O → σ → σ) : Prop where
  self : ∀ k o m, cell k (step k o m) = serve k o (cell k m)
  other : ∀ k k' o m, k' ≠ k → cell k' (step k o m) = cell k' m

theorem Local.cell_run {cell : κ → M → σ} {step : κ → O → M → M} {serve : κ → O → σ → σ}
    (h : Local cell step serve) (calls : List (κ × O)) (m : M) (k : κ) :
    cell k (calls.foldl (fun m c => step c.1 c.2 m) m) =
      (callsOn k calls).foldl (fun s o => serve k o s) (cell k m) := by
  induction calls using List.reverseRecOn with
  | nil => rfl
  | append_singleton calls c ih =>
    obtain ⟨k', o⟩ := c
    rw [List.foldl_append, List.foldl_cons, List.foldl_nil]
    by_cases hk : k' = k
    · subst hk
      rw [h.self, ih, callsOn_snoc_self, List.foldl_append]
      rfl
    · rw [h.other k' k o _ (Ne.symm hk), ih, callsOn_snoc_other hk]

end Run

/-! ## Cells that are made when they are needed -/

/-- What a call does to the cell of its key when there is none. -/
inductive Touch where
  | makes
  | looks
  | deletes
  deriving DecidableEq

/-- The calls of a service on one cell. -/
structure CellMap (κ O σ : Type) (R : O → Type) where
  fresh : κ → σ
  touch : O → Touch
  serve : (o : O) → σ → R o × σ
  /-- The reply of a call that finds no cell. -/
  absent : (o : O) → R o

namespace CellMap

variable {τ : Type} [DecidableEq τ] {R : O → Type} (c : CellMap κ O σ R) (name : κ → τ)

/-- One call on the map. -/
def invoke (k : κ) (o : O) (m : OrderedMap τ σ) : R o × OrderedMap τ σ :=
  match c.touch o with
  | .makes =>
    let out := c.serve o ((m.get (name k)).getD (c.fresh k))
    (out.1, m.set (name k) out.2)
  | .looks =>
    match m.get (name k) with
    | some s =>
      let out := c.serve o s
      (out.1, m.set (name k) out.2)
    | none => (c.absent o, m)
  | .deletes => (c.absent o, m.erase (name k))

/-- The map after some calls. -/
def ran (calls : List (κ × O)) : OrderedMap τ σ :=
  calls.foldl (fun m call => (c.invoke name call.1 call.2 m).2) OrderedMap.empty

/-- The cell of a key, fresh where the map has none. -/
def cell (k : κ) (m : OrderedMap τ σ) : σ := (m.get (name k)).getD (c.fresh k)

/-- A call made the cell of the key, and none has deleted it since. -/
def Made (k : κ) (calls : List (κ × O)) : Prop :=
  ∃ before o after, calls = before ++ (k, o) :: after ∧ c.touch o = .makes ∧
    ∀ o', (k, o') ∈ after → c.touch o' ≠ .deletes

/-- What a call leaves in a cell. -/
def next (k : κ) (o : O) (s : σ) : σ :=
  match c.touch o with
  | .deletes => c.fresh k
  | _ => (c.serve o s).2

/-- The cell of a key after the calls on it. -/
def after (k : κ) (ops : List O) : σ := ops.foldl (fun s o => c.next k o s) (c.fresh k)

/-- A call that only looks finds nothing in a fresh cell and leaves it so. -/
def LooksFresh : Prop :=
  ∀ o k, c.touch o = .looks → c.serve o (c.fresh k) = (c.absent o, c.fresh k)

variable {c name}

theorem ran_snoc (calls : List (κ × O)) (k : κ) (o : O) :
    c.ran name (calls ++ [(k, o)]) = (c.invoke name k o (c.ran name calls)).2 := by
  simp [ran]

/-- The reply of a call, and the cell that it leaves. -/
theorem invoke_self (h : c.LooksFresh) (k : κ) (o : O) (m : OrderedMap τ σ) :
    (c.touch o ≠ .deletes → (c.invoke name k o m).1 = (c.serve o (c.cell name k m)).1) ∧
      c.cell name k (c.invoke name k o m).2 = c.next k o (c.cell name k m) := by
  cases ht : c.touch o with
  | makes => simp [invoke, cell, next, ht]
  | looks =>
    cases hm : m.get (name k) with
    | some s => simp [invoke, cell, next, ht, hm]
    | none =>
      have hfresh := h o k ht
      simp [invoke, cell, next, ht, hm, hfresh]
  | deletes => simp [invoke, cell, next, ht]

theorem get_invoke_other (hname : Function.Injective name) {k k' : κ} (hk : k' ≠ k) (o : O)
    (m : OrderedMap τ σ) : (c.invoke name k o m).2.get (name k') = m.get (name k') := by
  have hne : name k' ≠ name k := fun heq => hk (hname heq)
  cases ht : c.touch o with
  | makes =>
    simp only [invoke, ht]
    exact OrderedMap.get_set_ne _ hne _
  | looks =>
    cases hm : m.get (name k) with
    | some s =>
      simp only [invoke, ht, hm]
      exact OrderedMap.get_set_ne _ hne _
    | none => simp only [invoke, ht, hm]
  | deletes =>
    simp only [invoke, ht]
    exact OrderedMap.get_erase_ne _ hne

theorem isSome_invoke_self (k : κ) (o : O) (m : OrderedMap τ σ) :
    ((c.invoke name k o m).2.get (name k)).isSome = true ↔
      c.touch o = .makes ∨ c.touch o ≠ .deletes ∧ (m.get (name k)).isSome = true := by
  cases ht : c.touch o with
  | makes => simp [invoke, ht]
  | looks => cases hm : m.get (name k) with
    | some s => simp [invoke, ht, hm]
    | none => simp [invoke, ht, hm]
  | deletes => simp [invoke, ht]

theorem made_snoc_self (k : κ) (calls : List (κ × O)) (o : O) :
    c.Made k (calls ++ [(k, o)]) ↔
      c.touch o = .makes ∨ c.touch o ≠ .deletes ∧ c.Made k calls := by
  constructor
  · rintro ⟨before, o', after, heq, hmakes, hkeeps⟩
    rcases List.eq_nil_or_concat after with rfl | ⟨after', last, rfl⟩
    · obtain ⟨-, hlast⟩ := List.append_inj' heq rfl
      simp only [List.cons.injEq, Prod.mk.injEq, true_and, and_true] at hlast
      rw [hlast]
      exact Or.inl hmakes
    · rw [List.concat_eq_append, ← List.cons_append, ← List.append_assoc] at heq
      obtain ⟨hcalls, hlast⟩ := List.append_inj' heq rfl
      have hmem : (k, o) ∈ after'.concat last := by
        rw [List.concat_eq_append, hlast.symm]
        simp
      refine Or.inr ⟨hkeeps o hmem, before, o', after', hcalls, hmakes, ?_⟩
      intro o'' hin
      apply hkeeps o''
      rw [List.concat_eq_append]
      exact List.mem_append_left _ hin
  · rintro (hmakes | ⟨hkeep, before, o', after, rfl, hmakes, hkeeps⟩)
    · exact ⟨calls, o, [], rfl, hmakes, by simp⟩
    · refine ⟨before, o', after ++ [(k, o)], by simp, hmakes, ?_⟩
      intro o'' hin
      rcases List.mem_append.1 hin with hin | hin
      · exact hkeeps o'' hin
      · rw [List.mem_singleton, Prod.mk.injEq] at hin
        rw [hin.2]
        exact hkeep

theorem made_snoc_other {k k' : κ} (h : k' ≠ k) (calls : List (κ × O)) (o : O) :
    c.Made k (calls ++ [(k', o)]) ↔ c.Made k calls := by
  constructor
  · rintro ⟨before, o', after, heq, hmakes, hkeeps⟩
    rcases List.eq_nil_or_concat after with rfl | ⟨after', last, rfl⟩
    · -- the last call names another key
      obtain ⟨-, hlast⟩ := List.append_inj' heq rfl
      simp only [List.cons.injEq, Prod.mk.injEq, and_true] at hlast
      exact absurd hlast.1 h
    · rw [List.concat_eq_append, ← List.cons_append, ← List.append_assoc] at heq
      obtain ⟨hcalls, -⟩ := List.append_inj' heq rfl
      refine ⟨before, o', after', hcalls, hmakes, ?_⟩
      intro o'' hin
      apply hkeeps o''
      rw [List.concat_eq_append]
      exact List.mem_append_left _ hin
  · rintro ⟨before, o', after, rfl, hmakes, hkeeps⟩
    refine ⟨before, o', after ++ [(k', o)], by simp, hmakes, ?_⟩
    intro o'' hin
    rcases List.mem_append.1 hin with hin | hin
    · exact hkeeps o'' hin
    · rw [List.mem_singleton, Prod.mk.injEq] at hin
      exact absurd hin.1.symm h

theorem local_invoke (h : c.LooksFresh) (hname : Function.Injective name) :
    Local (c.cell name) (fun k o m => (c.invoke name k o m).2) c.next where
  self := by
    intro k o m
    exact (invoke_self h k o m).2
  other := by
    intro k k' o m hk
    rw [cell, get_invoke_other hname hk, cell]

theorem made_iff (hname : Function.Injective name) (calls : List (κ × O)) (k : κ) :
    ((c.ran name calls).get (name k)).isSome = true ↔ c.Made k calls := by
  induction calls using List.reverseRecOn with
  | nil =>
    constructor
    · intro hnone
      exact absurd hnone (by simp [ran])
    · rintro ⟨before, o, after, heq, -, -⟩
      exact absurd heq.symm (by simp)
  | append_singleton calls call ih =>
    obtain ⟨k', o⟩ := call
    rw [ran_snoc]
    by_cases hk : k' = k
    · subst hk
      rw [isSome_invoke_self, made_snoc_self, ih]
    · rw [get_invoke_other hname (Ne.symm hk), made_snoc_other hk, ih]

/-- Every cell of the map is under the name of a key. -/
theorem keys_ran (calls : List (κ × O)) {t : τ} (ht : t ∈ (c.ran name calls).keys) :
    ∃ k, t = name k := by
  induction calls using List.reverseRecOn with
  | nil => exact absurd ht (by simp [ran, OrderedMap.empty, OrderedMap.keys])
  | append_singleton calls call ih =>
    obtain ⟨k, o⟩ := call
    rw [ran_snoc, OrderedMap.mem_keys_iff] at ht
    by_cases hk : t = name k
    · exact ⟨k, hk⟩
    · -- a call adds at most the name of its key
      apply ih
      rw [OrderedMap.mem_keys_iff]
      cases hto : c.touch o with
      | makes =>
        simp only [invoke, hto] at ht
        rwa [OrderedMap.get_set_ne _ hk] at ht
      | looks =>
        cases hm : (c.ran name calls).get (name k) with
        | some s =>
          simp only [invoke, hto, hm] at ht
          rwa [OrderedMap.get_set_ne _ hk] at ht
        | none =>
          simp only [invoke, hto, hm] at ht
          exact ht
      | deletes =>
        simp only [invoke, hto] at ht
        rwa [OrderedMap.get_erase_ne _ hk] at ht

section Run

variable [DecidableEq κ]

/-- Seen from one key, a run is the run of the calls on it. -/
theorem cell_ran (h : c.LooksFresh) (hname : Function.Injective name) (calls : List (κ × O))
    (k : κ) : c.cell name k (c.ran name calls) = c.after k (callsOn k calls) :=
  (local_invoke h hname).cell_run calls OrderedMap.empty k

/-- A call replies as it does after the calls on its key alone. -/
theorem reply_ran (h : c.LooksFresh) (hname : Function.Injective name) (calls : List (κ × O))
    (k : κ) {o : O} (ho : c.touch o ≠ .deletes) :
    (c.invoke name k o (c.ran name calls)).1 = (c.serve o (c.after k (callsOn k calls))).1 := by
  rw [(invoke_self h k o _).1 ho, cell_ran h hname]

end Run

end CellMap

end Watukuy.Library
