import Mathlib.Algebra.Ring.Nat
import Mathlib.Data.List.Perm.Basic
import Mathlib.Tactic.Push

/-!
# A pool of workers on one queue

Workers take jobs from the front of a shared queue, one at a time, until the queue is empty. A worker
that is told to halt drops the job that it has taken and leaves; one whose job fails leaves as well.
In every interleaving each job is in one place (`Pool.Accounts`), no more jobs are under way than
there are workers, and the workers come to an end (`Pool.run_length_le`).
-/

set_option autoImplicit false

namespace Watukuy.Library

inductive Worker (J : Type) where
  | looking
  | busy (job : J)
  | left
  deriving DecidableEq

namespace Worker

variable {J : Type}

def job : Worker J → Option J
  | .busy j => some j
  | _ => none

/-- How many steps a worker has ahead of it without another job. -/
def ahead : Worker J → Nat
  | .looking => 1
  | .busy _ => 2
  | .left => 0

end Worker

structure Pool (J R : Type) where
  queue : List J
  workers : List (Worker J)
  /-- The jobs that are done, with their results, in the order in which they were done. -/
  finished : List (J × R) := []
  failed : List J := []
  dropped : List J := []

inductive PoolStep (R : Type) where
  /-- A worker looks for a job, and would halt with one. -/
  | take (w : Nat) (halted : Bool)
  | finish (w : Nat) (r : R)
  | fail (w : Nat)

namespace Pool

variable {J R : Type}

def begin_ (jobs : List J) (n : Nat) : Pool J R where
  queue := jobs
  workers := List.replicate n .looking

def step (p : Pool J R) : PoolStep R → Option (Pool J R)
  | .take w halted =>
    match p.workers[w]?, p.queue with
    | some .looking, [] => some { p with workers := p.workers.set w .left }
    | some .looking, j :: rest =>
      if halted then
        some { p with queue := rest, workers := p.workers.set w .left, dropped := p.dropped ++ [j] }
      else some { p with queue := rest, workers := p.workers.set w (.busy j) }
    | _, _ => none
  | .finish w r =>
    match p.workers[w]? with
    | some (.busy j) =>
      some { p with workers := p.workers.set w .looking, finished := p.finished ++ [(j, r)] }
    | _ => none
  | .fail w =>
    match p.workers[w]? with
    | some (.busy j) =>
      some { p with workers := p.workers.set w .left, failed := p.failed ++ [j] }
    | _ => none

def run (p : Pool J R) : List (PoolStep R) → Option (Pool J R)
  | [] => some p
  | s :: steps => (p.step s).bind fun p => run p steps

/-- The jobs under way. -/
def underWay (p : Pool J R) : List J := p.workers.filterMap Worker.job

/-- The jobs that were begun. -/
def begun (p : Pool J R) : List J := p.finished.map Prod.fst ++ p.failed ++ p.underWay

/-- Every worker has left. -/
def Settled (p : Pool J R) : Prop := ∀ w ∈ p.workers, w = .left

/-- Every job is in one place. -/
def Accounts (jobs : List J) (p : Pool J R) : Prop :=
  (p.begun ++ p.dropped ++ p.queue).Perm jobs

/-! ## Steps -/

/-- What a step can do. -/
theorem step_cases {p p' : Pool J R} {s : PoolStep R} (h : p.step s = some p') :
    (∃ w b, s = .take w b ∧ p.workers[w]? = some .looking ∧ p.queue = [] ∧
        p' = { p with workers := p.workers.set w .left }) ∨
      (∃ w j rest, s = .take w true ∧ p.workers[w]? = some .looking ∧ p.queue = j :: rest ∧
        p' = { p with
          queue := rest, workers := p.workers.set w .left, dropped := p.dropped ++ [j] }) ∨
      (∃ w j rest, s = .take w false ∧ p.workers[w]? = some .looking ∧ p.queue = j :: rest ∧
        p' = { p with queue := rest, workers := p.workers.set w (.busy j) }) ∨
      (∃ w r j, s = .finish w r ∧ p.workers[w]? = some (.busy j) ∧
        p' = { p with workers := p.workers.set w .looking, finished := p.finished ++ [(j, r)] }) ∨
      ∃ w j, s = .fail w ∧ p.workers[w]? = some (.busy j) ∧
        p' = { p with workers := p.workers.set w .left, failed := p.failed ++ [j] } := by
  cases s with
  | take w b =>
    simp only [step] at h
    split at h
    · next hw hq => exact Or.inl ⟨w, b, rfl, hw, hq, (Option.some.inj h).symm⟩
    · next j rest hw hq =>
      cases b with
      | true => exact Or.inr (Or.inl ⟨w, j, rest, rfl, hw, hq, (Option.some.inj h).symm⟩)
      | false => exact Or.inr (Or.inr (Or.inl ⟨w, j, rest, rfl, hw, hq, (Option.some.inj h).symm⟩))
    · cases h
  | finish w r =>
    simp only [step] at h
    split at h
    · next j hw =>
      exact Or.inr (Or.inr (Or.inr (Or.inl ⟨w, r, j, rfl, hw, (Option.some.inj h).symm⟩)))
    · cases h
  | fail w =>
    simp only [step] at h
    split at h
    · next j hw =>
      exact Or.inr (Or.inr (Or.inr (Or.inr ⟨w, j, rfl, hw, (Option.some.inj h).symm⟩)))
    · cases h

/-- A worker that had no job gets one. -/
theorem filterMap_set_busy {ws : List (Worker J)} {w : Nat} (h : ws[w]? = some .looking) (j : J) :
    ((ws.set w (.busy j)).filterMap Worker.job).Perm (j :: ws.filterMap Worker.job) := by
  induction ws generalizing w with
  | nil => cases h
  | cons x ws ih =>
    cases w with
    | zero =>
      rw [List.getElem?_cons_zero, Option.some.injEq] at h
      subst h
      exact List.Perm.refl _
    | succ w =>
      rw [List.getElem?_cons_succ] at h
      rw [List.set_cons_succ]
      cases x with
      | busy i => exact ((ih h).cons i).trans (List.Perm.swap j i _)
      | looking => exact ih h
      | left => exact ih h

/-- A worker that has no job stays without. -/
theorem filterMap_set_left {ws : List (Worker J)} {w : Nat} (h : ws[w]? = some .looking) :
    (ws.set w .left).filterMap Worker.job = ws.filterMap Worker.job := by
  induction ws generalizing w with
  | nil => cases h
  | cons x ws ih =>
    cases w with
    | zero =>
      rw [List.getElem?_cons_zero, Option.some.injEq] at h
      subst h
      rfl
    | succ w =>
      rw [List.getElem?_cons_succ] at h
      rw [List.set_cons_succ, List.filterMap_cons, List.filterMap_cons, ih h]

/-- A worker gives up its job. -/
theorem filterMap_set_idle {ws : List (Worker J)} {w : Nat} {j : J} (h : ws[w]? = some (.busy j))
    {x : Worker J} (hx : x.job = none) :
    (ws.filterMap Worker.job).Perm (j :: (ws.set w x).filterMap Worker.job) := by
  induction ws generalizing w with
  | nil => cases h
  | cons y ws ih =>
    cases w with
    | zero =>
      rw [List.getElem?_cons_zero, Option.some.injEq] at h
      subst h
      rw [List.set_cons_zero, List.filterMap_cons_none hx]
      exact List.Perm.refl _
    | succ w =>
      rw [List.getElem?_cons_succ] at h
      rw [List.set_cons_succ]
      cases y with
      | busy i => exact ((ih h).cons i).trans (List.Perm.swap j i _)
      | looking => exact ih h
      | left => exact ih h

theorem Accounts.step {jobs : List J} {p p' : Pool J R} {s : PoolStep R} (hp : Accounts jobs p)
    (h : p.step s = some p') : Accounts jobs p' := by
  unfold Accounts begun underWay at *
  rcases step_cases h with ⟨w, b, -, hw, -, rfl⟩ | ⟨w, j, rest, -, hw, hq, rfl⟩ |
    ⟨w, j, rest, -, hw, hq, rfl⟩ | ⟨w, r, j, -, hw, rfl⟩ | ⟨w, j, -, hw, rfl⟩
  · simpa only [filterMap_set_left hw] using hp
  · refine List.Perm.trans ?_ hp
    simp only [filterMap_set_left hw, hq, List.append_assoc, List.singleton_append]
    exact List.Perm.refl _
  · -- the job moves from the queue to the worker
    refine List.Perm.trans ?_ hp
    have hbusy := filterMap_set_busy hw j
    rw [hq]
    simp only [List.append_assoc]
    refine List.Perm.append_left _ (List.Perm.append_left _ ?_)
    refine (hbusy.append_right _).trans ?_
    have hmove : (List.filterMap Worker.job p.workers ++ p.dropped ++ j :: rest).Perm
        (j :: (List.filterMap Worker.job p.workers ++ p.dropped ++ rest)) := List.perm_middle
    rw [List.append_assoc, List.append_assoc] at hmove
    exact hmove.symm
  · refine List.Perm.trans ?_ hp
    have hidle := filterMap_set_idle hw (rfl : (Worker.looking : Worker J).job = none)
    simp only [List.map_append, List.map_cons, List.map_nil, List.append_assoc, List.singleton_append]
    refine List.Perm.append_left _ ?_
    refine List.Perm.trans ?_ (List.Perm.append_left _ (hidle.append_right _).symm)
    exact List.perm_middle.symm
  · refine List.Perm.trans ?_ hp
    have hidle := filterMap_set_idle hw (rfl : (Worker.left : Worker J).job = none)
    simp only [List.append_assoc, List.singleton_append]
    refine List.Perm.append_left _ (List.Perm.append_left _ ?_)
    exact (hidle.append_right _).symm

/-! ## Runs -/

theorem run_keeps {I : Pool J R → Prop} (hstep : ∀ p p' s, I p → p.step s = some p' → I p')
    {steps : List (PoolStep R)} {p p' : Pool J R} (hp : I p) (h : p.run steps = some p') : I p' := by
  induction steps generalizing p with
  | nil =>
    obtain rfl := Option.some.inj h
    exact hp
  | cons s steps ih =>
    obtain ⟨q, hq, hrest⟩ := Option.bind_eq_some_iff.1 h
    exact ih (hstep p q s hp hq) hrest

theorem accounts_run {jobs : List J} {n : Nat} {steps : List (PoolStep R)} {p : Pool J R}
    (h : (begin_ jobs n).run steps = some p) : Accounts jobs p := by
  refine run_keeps (fun p p' s hp hs => hp.step hs) ?_ h
  have hnone : (List.replicate n (Worker.looking : Worker J)).filterMap Worker.job = [] := by
    rw [List.filterMap_eq_nil_iff]
    intro w hw
    rw [List.eq_of_mem_replicate hw]
    rfl
  simp only [Accounts, begun, underWay, begin_, hnone, List.map_nil, List.append_nil, List.nil_append]
  exact List.Perm.refl _

theorem workers_step {p p' : Pool J R} {s : PoolStep R} (h : p.step s = some p') :
    p'.workers.length = p.workers.length := by
  rcases step_cases h with ⟨w, b, -, -, -, rfl⟩ | ⟨w, j, rest, -, -, -, rfl⟩ |
    ⟨w, j, rest, -, -, -, rfl⟩ | ⟨w, r, j, -, -, rfl⟩ | ⟨w, j, -, -, rfl⟩ <;>
  exact List.length_set ..

/-- No more jobs are under way than there are workers. -/
theorem underWay_le {jobs : List J} {n : Nat} {steps : List (PoolStep R)} {p : Pool J R}
    (h : (begin_ jobs n).run steps = some p) : p.underWay.length ≤ n := by
  have hlen : p.workers.length = n := by
    refine run_keeps (I := fun p => p.workers.length = n) ?_ (List.length_replicate ..) h
    intro p p' s hp hs
    rw [workers_step hs, hp]
  rw [← hlen]
  exact List.length_filterMap_le _ _

/-- A worker leaves with an empty queue, or with a job that it drops or fails. -/
def Emptied (p : Pool J R) : Prop :=
  (∃ w ∈ p.workers, w = .left) → p.queue = [] ∨ p.dropped ≠ [] ∨ p.failed ≠ []

theorem Emptied.step {p p' : Pool J R} {s : PoolStep R} (hp : Emptied p) (h : p.step s = some p') :
    Emptied p' := by
  rcases step_cases h with ⟨w, b, -, -, hq, rfl⟩ | ⟨w, j, rest, -, -, -, rfl⟩ |
    ⟨w, j, rest, -, hw, hq, rfl⟩ | ⟨w, r, j, -, hw, rfl⟩ | ⟨w, j, -, -, rfl⟩
  · exact fun _ => Or.inl hq
  · exact fun _ => Or.inr (Or.inl (by simp))
  · rintro ⟨x, hx, rfl⟩
    rcases List.mem_or_eq_of_mem_set hx with hold | hnew
    · rcases hp ⟨_, hold, rfl⟩ with hnil | hother
      · rw [hq] at hnil
        cases hnil
      · exact Or.inr hother
    · cases hnew
  · rintro ⟨x, hx, rfl⟩
    rcases List.mem_or_eq_of_mem_set hx with hold | hnew
    · exact hp ⟨_, hold, rfl⟩
    · cases hnew
  · exact fun _ => Or.inr (Or.inr (by simp))

theorem settled_underWay {p : Pool J R} (h : p.Settled) : p.underWay = [] := by
  rw [underWay, List.filterMap_eq_nil_iff]
  intro w hw
  rw [h w hw]
  rfl

/-- Where no job was dropped or failed, every job is done once all workers have left. -/
theorem settled_all {jobs : List J} {n : Nat} (hn : 0 < n ∨ jobs = []) {steps : List (PoolStep R)}
    {p : Pool J R} (h : (begin_ jobs n).run steps = some p) (hs : p.Settled)
    (hdropped : p.dropped = []) (hfailed : p.failed = []) :
    (p.finished.map Prod.fst).Perm jobs := by
  have hacc := accounts_run h
  rw [Accounts, begun, settled_underWay hs, hfailed, hdropped] at hacc
  simp only [List.append_nil] at hacc
  rcases hn with hpos | hnil
  · have hlen : p.workers.length = n := by
      refine run_keeps (I := fun p => p.workers.length = n) ?_ (List.length_replicate ..) h
      intro p p' s hp hs
      rw [workers_step hs, hp]
    have hemptied : Emptied p := by
      refine run_keeps (fun p p' s hp hs => hp.step hs) ?_ h
      rintro ⟨w, hw, rfl⟩
      cases List.eq_of_mem_replicate hw
    obtain ⟨w, hw⟩ := List.exists_mem_of_length_pos (hlen ▸ hpos)
    rcases hemptied ⟨w, hw, hs w hw⟩ with hqueue | hdrop | hfail
    · rwa [hqueue, List.append_nil] at hacc
    · exact absurd hdropped hdrop
    · exact absurd hfailed hfail
  · subst hnil
    have hboth := hacc.eq_nil
    rw [List.append_eq_nil_iff] at hboth
    rw [hboth.1]

/-! ## The end -/

/-- How many steps are ahead. -/
def remaining (p : Pool J R) : Nat := 2 * p.queue.length + (p.workers.map Worker.ahead).sum

theorem sum_set {ws : List (Worker J)} {w : Nat} {x : Worker J} (h : ws[w]? = some x)
    (y : Worker J) :
    ((ws.set w y).map Worker.ahead).sum + x.ahead = (ws.map Worker.ahead).sum + y.ahead := by
  induction ws generalizing w with
  | nil => cases h
  | cons z ws ih =>
    cases w with
    | zero =>
      rw [List.getElem?_cons_zero, Option.some.injEq] at h
      subst h
      simp only [List.set_cons_zero, List.map_cons, List.sum_cons]
      omega
    | succ w =>
      rw [List.getElem?_cons_succ] at h
      have hrest := ih h
      simp only [List.set_cons_succ, List.map_cons, List.sum_cons]
      omega

theorem remaining_step {p p' : Pool J R} {s : PoolStep R} (h : p.step s = some p') :
    p'.remaining < p.remaining := by
  rcases step_cases h with ⟨w, b, -, hw, -, rfl⟩ | ⟨w, j, rest, -, hw, hq, rfl⟩ |
    ⟨w, j, rest, -, hw, hq, rfl⟩ | ⟨w, r, j, -, hw, rfl⟩ | ⟨w, j, -, hw, rfl⟩
  · have hsum := sum_set hw .left
    simp only [remaining, Worker.ahead] at *
    omega
  · have hsum := sum_set hw .left
    simp only [remaining, hq, List.length_cons, Worker.ahead] at *
    omega
  · have hsum := sum_set hw (.busy j)
    simp only [remaining, hq, List.length_cons, Worker.ahead] at *
    omega
  · have hsum := sum_set hw .looking
    simp only [remaining, Worker.ahead] at *
    omega
  · have hsum := sum_set hw .left
    simp only [remaining, Worker.ahead] at *
    omega

/-- The workers take at most two steps for each job, and one to leave. -/
theorem run_length_le {jobs : List J} {n : Nat} {steps : List (PoolStep R)} {p : Pool J R}
    (h : (begin_ jobs n).run steps = some p) : steps.length ≤ 2 * jobs.length + n := by
  have hmeasure : ∀ (steps : List (PoolStep R)) (p p' : Pool J R), p.run steps = some p' →
      steps.length + p'.remaining ≤ p.remaining := by
    intro steps
    induction steps with
    | nil =>
      intro p p' hrun
      obtain rfl := Option.some.inj hrun
      exact Nat.le_of_eq (Nat.zero_add _)
    | cons s steps ih =>
      intro p p' hrun
      obtain ⟨q, hq, hrest⟩ := Option.bind_eq_some_iff.1 hrun
      have hlt := remaining_step hq
      have hle := ih q p' hrest
      rw [List.length_cons]
      omega
  have hle := hmeasure steps _ p h
  have hbegin : (begin_ jobs n : Pool J R).remaining = 2 * jobs.length + n := by
    simp [remaining, begin_, Worker.ahead]
  omega

/-- Until all workers have left, one of them can go on. -/
theorem exists_step {p : Pool J R} (h : ¬p.Settled) :
    ∃ w, (∀ halted, (p.step (.take w halted)).isSome = true) ∨
      ∀ r, (p.step (.finish w r)).isSome = true := by
  unfold Settled at h
  push Not at h
  obtain ⟨x, hx, hleft⟩ := h
  obtain ⟨w, hw, rfl⟩ := List.getElem_of_mem hx
  have hget : p.workers[w]? = some p.workers[w] := List.getElem?_eq_getElem hw
  refine ⟨w, ?_⟩
  cases hcase : p.workers[w] with
  | looking =>
    rw [hcase] at hget
    apply Or.inl
    intro halted
    cases hq : p.queue with
    | nil => simp [step, hget, hq]
    | cons j rest => cases halted <;> simp [step, hget, hq]
  | busy j =>
    rw [hcase] at hget
    apply Or.inr
    intro r
    simp [step, hget]
  | left => exact absurd hcase hleft

end Pool

end Watukuy.Library
