import Mathlib.Computability.Language
import Mathlib.Data.List.Induction
import Mathlib.Logic.Function.Basic

/-!
# Change logs

A snapshot maps keys to values. A change log records what happened to a snapshot, one key at a time:
a value was created, updated, or deleted.

* `Leads S log T`: the log leads from `S` to `T`, and each entry fits what it finds: a key is
  created only when it is absent, updated only to another value, deleted only when it is present.
* `Leads.replay_eq`: replaying the log gives the snapshot.
* `Leads.lifeCycle`: the entries of one key form a prefix of `(created updated* deleted)*`.
-/

set_option autoImplicit false

namespace Watukuy.Library

open Computability

variable {κ ν α : Type}

/-- What happened to one key. -/
inductive Delta (ν : Type) where
  | created (v : ν)
  | updated (v : ν)
  | deleted

namespace Delta

/-- The value of the key afterwards. -/
def after : Delta ν → Option ν
  | .created v => some v
  | .updated v => some v
  | .deleted => none

/-- The change fits the value found. -/
def Fits (prior : Option ν) : Delta ν → Prop
  | .created _ => prior = none
  | .updated v => ∃ u, prior = some u ∧ u ≠ v
  | .deleted => ∃ u, prior = some u

/-- The letter of a change in an alphabet. -/
def letter (c u d : α) : Delta ν → α
  | .created _ => c
  | .updated _ => u
  | .deleted => d

end Delta

section Logs

variable [DecidableEq κ]

/-- Apply one entry. -/
def applyDelta (S : κ → Option ν) (e : κ × Delta ν) : κ → Option ν :=
  Function.update S e.1 e.2.after

/-- Replay a log. -/
def replayLog (S : κ → Option ν) (log : List (κ × Delta ν)) : κ → Option ν := log.foldl applyDelta S

/-- The log leads from `S` to `T`, each entry fitting what it finds. -/
inductive Leads (S : κ → Option ν) : List (κ × Delta ν) → (κ → Option ν) → Prop where
  | nil : Leads S [] S
  | snoc {log : List (κ × Delta ν)} {T : κ → Option ν} (h : Leads S log T) (e : κ × Delta ν)
      (fits : e.2.Fits (T e.1)) : Leads S (log ++ [e]) (applyDelta T e)

variable {S T U : κ → Option ν} {log log' : List (κ × Delta ν)}

theorem Leads.append (h : Leads S log T) (h' : Leads T log' U) : Leads S (log ++ log') U := by
  induction h' with
  | nil =>
    rw [List.append_nil]
    exact h
  | snoc _ e fits ih =>
    rw [← List.append_assoc]
    exact ih.snoc e fits

theorem Leads.single {e : κ × Delta ν} (fits : e.2.Fits (S e.1)) : Leads S [e] (applyDelta S e) :=
  Leads.nil.snoc e fits

theorem Leads.cons {e : κ × Delta ν} (fits : e.2.Fits (S e.1)) (h : Leads (applyDelta S e) log T) :
    Leads S (e :: log) T :=
  (Leads.single fits).append h

/-- Replaying the log gives the snapshot. -/
theorem Leads.replay_eq (h : Leads S log T) : replayLog S log = T := by
  induction h with
  | nil => rfl
  | snoc _ e _ ih => rw [replayLog, List.foldl_append, List.foldl_cons, List.foldl_nil, ← replayLog, ih]

/-- What follows a part of the log leads on from its replay. -/
theorem Leads.drop (h : Leads S (log ++ log') T) : Leads (replayLog S log) log' T := by
  induction log' using List.reverseRecOn generalizing T with
  | nil =>
    rw [List.append_nil] at h
    rw [h.replay_eq]
    exact Leads.nil
  | append_singleton log' e ih =>
    rw [← List.append_assoc] at h
    generalize hlog : log ++ log' ++ [e] = whole at h
    cases h with
    | nil => simp at hlog
    | snoc h e' fits =>
      obtain ⟨rfl, he⟩ := List.append_inj' hlog rfl
      obtain rfl := List.singleton_inj.1 he
      exact (ih h).snoc _ fits

/-- Every entry fits the replay of what came before it. -/
theorem Leads.fits (h : Leads S log T) {pre post : List (κ × Delta ν)} {e : κ × Delta ν}
    (heq : log = pre ++ e :: post) : e.2.Fits (replayLog S pre e.1) := by
  induction h generalizing post with
  | nil => simp at heq
  | @snoc log T h e' fits ih =>
    rcases List.eq_nil_or_concat post with rfl | ⟨post, last, rfl⟩
    · obtain ⟨rfl, he⟩ := List.append_inj' heq rfl
      obtain rfl := List.singleton_inj.1 he
      rw [h.replay_eq]
      exact fits
    · have hsplit : log ++ [e'] = (pre ++ e :: post) ++ [last] := by simpa using heq
      exact ih (List.append_inj' hsplit rfl).1

theorem Delta.Fits.ne_after {prior : Option ν} {δ : Delta ν} (h : δ.Fits prior) : prior ≠ δ.after := by
  cases δ with
  | created v =>
    obtain rfl : prior = none := h
    exact Option.some_ne_none v ∘ Eq.symm
  | updated v =>
    obtain ⟨u, rfl, hne⟩ := h
    exact fun heq => hne (Option.some.inj heq)
  | deleted =>
    obtain ⟨u, rfl⟩ := h
    exact Option.some_ne_none u

theorem replayLog_of_not_mem {k : κ} (h : k ∉ log.map Prod.fst) : replayLog S log k = S k := by
  induction log generalizing S with
  | nil => rfl
  | cons e log ih =>
    rw [List.map_cons, List.mem_cons, not_or] at h
    have hstep : replayLog S (e :: log) = replayLog (applyDelta S e) log := rfl
    rw [hstep, ih h.2]
    exact Function.update_of_ne h.1 ..

/-- A log with one entry for each key leaves what its entries carry. -/
theorem Leads.carried (h : Leads S log T) (hnodup : (log.map Prod.fst).Nodup) {e : κ × Delta ν}
    (he : e ∈ log) : T e.1 = e.2.after := by
  obtain ⟨pre, post, rfl⟩ := List.append_of_mem he
  rw [List.map_append, List.map_cons, List.nodup_append, List.nodup_cons] at hnodup
  rw [← h.replay_eq, replayLog, List.foldl_append, List.foldl_cons, ← replayLog,
    replayLog_of_not_mem hnodup.2.1.1]
  exact Function.update_self ..

/-- A log with one entry for each key changes the keys of its entries. -/
theorem Leads.changed (h : Leads S log T) (hnodup : (log.map Prod.fst).Nodup) {e : κ × Delta ν}
    (he : e ∈ log) : S e.1 ≠ T e.1 := by
  rw [h.carried hnodup he]
  obtain ⟨pre, post, rfl⟩ := List.append_of_mem he
  rw [List.map_append, List.map_cons, List.nodup_append] at hnodup
  have hpre : e.1 ∉ pre.map Prod.fst := fun hmem => hnodup.2.2 _ hmem _ List.mem_cons_self rfl
  have hfits := h.fits rfl
  rw [replayLog_of_not_mem hpre] at hfits
  exact hfits.ne_after

/-! ## The life cycle of a key -/

/-- `(c u* d)*`. -/
def lifeCycle (c u d : α) : Language α := ({[c]} * {[u]}∗ * {[d]})∗

/-- The letters of the entries of one key. -/
def lettersOf (c u d : α) (log : List (κ × Delta ν)) (k : κ) : List α :=
  (log.filter fun e => e.1 = k).map fun e => e.2.letter c u d

theorem lettersOf_snoc (c u d : α) (e : κ × Delta ν) (k : κ) :
    lettersOf c u d (log ++ [e]) k =
      lettersOf c u d log k ++ if e.1 = k then [e.2.letter c u d] else [] := by
  unfold lettersOf
  rw [List.filter_append, List.map_append]
  by_cases h : e.1 = k <;> simp [h]

/-- One more life. -/
theorem lifeCycle_append {c u d : α} {p : List α} (hp : p ∈ lifeCycle c u d) (n : Nat) :
    p ++ (c :: List.replicate n u ++ [d]) ∈ lifeCycle c u d := by
  have hu : List.replicate n u ∈ ({[u]} : Language α)∗ := by
    rw [Language.mem_kstar]
    refine ⟨List.replicate n [u], ?_, fun y hy => List.eq_of_mem_replicate hy⟩
    simp
  have hlife : c :: List.replicate n u ++ [d] ∈
      ({[c]} * {[u]}∗ * {[d]} : Language α) := by
    refine Language.append_mem_mul ?_ rfl
    exact Language.append_mem_mul (a := [c]) rfl hu
  obtain ⟨L, rfl, hL⟩ := Language.mem_kstar.1 hp
  refine Language.mem_kstar.2 ⟨L ++ [c :: List.replicate n u ++ [d]], by simp, fun y hy => ?_⟩
  rcases List.mem_append.1 hy with hy | hy
  · exact hL y hy
  · rw [List.mem_singleton.1 hy]
    exact hlife

/-- The letters of a key that is absent are whole lives; those of a present key end in one that goes
on. -/
theorem Leads.letters (c u d : α) (h : Leads (fun _ => none) log T) (k : κ) :
    (T k = none → lettersOf c u d log k ∈ lifeCycle c u d) ∧
      ((T k).isSome → ∃ p ∈ lifeCycle c u d, ∃ n,
        lettersOf c u d log k = p ++ c :: List.replicate n u) := by
  induction h with
  | nil =>
    refine ⟨fun _ => ?_, fun h => by simp at h⟩
    exact Language.mem_kstar.2 ⟨[], rfl, by simp⟩
  | @snoc log T h e fits ih =>
    rw [lettersOf_snoc]
    rcases eq_or_ne e.1 k with rfl | hne
    · rw [if_pos rfl]
      have hat : applyDelta T e e.1 = e.2.after := Function.update_self ..
      rw [hat]
      cases hδ : e.2 with
      | created v =>
        rw [hδ] at fits
        refine ⟨fun hnone => by simp [Delta.after] at hnone, fun _ => ?_⟩
        exact ⟨_, ih.1 fits, 0, rfl⟩
      | updated v =>
        rw [hδ] at fits
        obtain ⟨w, hw, -⟩ := fits
        obtain ⟨p, hp, n, hn⟩ := ih.2 (by rw [hw]; rfl)
        refine ⟨fun hnone => by simp [Delta.after] at hnone, fun _ => ⟨p, hp, n + 1, ?_⟩⟩
        rw [hn, List.replicate_succ']
        simp [Delta.letter]
      | deleted =>
        rw [hδ] at fits
        obtain ⟨w, hw⟩ := fits
        obtain ⟨p, hp, n, hn⟩ := ih.2 (by rw [hw]; rfl)
        refine ⟨fun _ => ?_, fun hsome => by simp [Delta.after] at hsome⟩
        have hlife := lifeCycle_append hp n
        rw [hn]
        simpa [Delta.letter] using hlife
    · rw [if_neg hne, List.append_nil]
      have hat : applyDelta T e k = T k := Function.update_of_ne (Ne.symm hne) ..
      rw [hat]
      exact ih

/-- The entries of one key form a prefix of `(created updated* deleted)*`. -/
theorem Leads.lifeCycle (c u d : α) (h : Leads (fun _ => none) log T) (k : κ) :
    ∃ suffix, lettersOf c u d log k ++ suffix ∈ lifeCycle c u d := by
  have hletters := h.letters c u d k
  cases hk : T k with
  | none => exact ⟨[], by simpa using hletters.1 hk⟩
  | some v =>
    obtain ⟨p, hp, n, hn⟩ := hletters.2 (by rw [hk]; rfl)
    refine ⟨[d], ?_⟩
    rw [hn]
    simpa using lifeCycle_append hp n

end Logs

end Watukuy.Library
