import Mathlib.Data.List.Induction
import Mathlib.Order.Basic

/-!
# Leases with terms

A register grants a resource to one owner at a time and numbers its grants. A call of `acquire`
succeeds unless another owner's grant has not expired; `renew`, `release` and `write` name the grant
they are made under and count only while it is the current one. Clocks are arbitrary: every call
brings its own reading.

* `granted_lt`: later grants have larger terms.
* `holds_iff_inForce`: a grant is the current one as long as nobody was granted the resource after it
  and nobody released it.
* `current_iff`: the register holds what was granted last, with its last extension.
-/

set_option autoImplicit false

namespace Watukuy.Library

variable {Owner : Type}

/-- A grant: to whom, in which term, until when. -/
structure Grant (Owner : Type) where
  owner : Owner
  term : Nat
  expiresAt : Int

namespace Grant

/-- The same grant, whatever its expiry. -/
def Same (g g' : Grant Owner) : Prop := g.owner = g'.owner ∧ g.term = g'.term

instance [DecidableEq Owner] (g g' : Grant Owner) : Decidable (g.Same g') :=
  inferInstanceAs (Decidable (g.owner = g'.owner ∧ g.term = g'.term))

theorem Same.refl (g : Grant Owner) : g.Same g := ⟨rfl, rfl⟩

theorem Same.symm {g g' : Grant Owner} (h : g.Same g') : g'.Same g := ⟨h.1.symm, h.2.symm⟩

end Grant

/-- A register of one resource. -/
structure Register (Owner : Type) where
  current : Option (Grant Owner)
  counter : Nat

/-- A call on the register. -/
inductive LeaseCall (Owner : Type) where
  | acquire (owner : Owner) (ttl now : Int)
  | renew (g : Grant Owner) (ttl now : Int)
  | release (g : Grant Owner)
  | write (g : Grant Owner)

/-- What a call answers. -/
inductive LeaseReply (Owner : Type) where
  | granted (g : Grant Owner)
  | refused
  | done

namespace Register

def fresh : Register Owner := ⟨none, 0⟩

/-- `g` is the current grant. -/
def Holds (r : Register Owner) (g : Grant Owner) : Prop := ∃ c, r.current = some c ∧ c.Same g

instance [DecidableEq Owner] (r : Register Owner) (g : Grant Owner) : Decidable (r.Holds g) :=
  match h : r.current with
  | none => isFalse (by rintro ⟨c, hc, -⟩; rw [h] at hc; cases hc)
  | some c =>
    decidable_of_iff (c.Same g) (by
      constructor
      · intro hs
        exact ⟨c, h, hs⟩
      · rintro ⟨c', hc', hs⟩
        rw [h] at hc'
        cases hc'
        exact hs)

/-- Another owner's grant that has not expired. -/
def Blocks (r : Register Owner) (owner : Owner) (now : Int) : Prop :=
  ∃ c, r.current = some c ∧ c.owner ≠ owner ∧ now < c.expiresAt

instance [DecidableEq Owner] (r : Register Owner) (owner : Owner) (now : Int) :
    Decidable (r.Blocks owner now) :=
  match h : r.current with
  | none => isFalse (by rintro ⟨c, hc, -⟩; rw [h] at hc; cases hc)
  | some c =>
    decidable_of_iff (c.owner ≠ owner ∧ now < c.expiresAt) (by
      constructor
      · intro hs
        exact ⟨c, h, hs⟩
      · rintro ⟨c', hc', hs⟩
        rw [h] at hc'
        cases hc'
        exact hs)

/-- The current grant is not numbered past the counter. -/
def Counted (r : Register Owner) : Prop := ∀ c, r.current = some c → c.term ≤ r.counter

theorem counted_fresh : (fresh : Register Owner).Counted := by
  intro c hc
  cases hc

/-- The grant `g` is over: whatever is current has a larger term. -/
def Past (r : Register Owner) (g : Grant Owner) : Prop :=
  g.term ≤ r.counter ∧ ∀ c, r.current = some c → g.term < c.term

theorem Past.not_holds {r : Register Owner} {g : Grant Owner} (h : r.Past g) : ¬r.Holds g := by
  rintro ⟨c, hc, hsame⟩
  have hlt := h.2 c hc
  rw [hsame.2] at hlt
  exact Nat.lt_irrefl _ hlt

variable [DecidableEq Owner]

/-- Perform a call. -/
def step (r : Register Owner) : LeaseCall Owner → LeaseReply Owner × Register Owner
  | .acquire owner ttl now =>
    if r.Blocks owner now then (.refused, r)
    else
      let g : Grant Owner := ⟨owner, r.counter + 1, now + ttl⟩
      (.granted g, ⟨some g, r.counter + 1⟩)
  | .renew g ttl now =>
    if r.Holds g then
      (.done, { r with current := r.current.map fun c => { c with expiresAt := now + ttl } })
    else (.refused, r)
  | .release g => (.done, if r.Holds g then { r with current := none } else r)
  | .write g => (if r.Holds g then .done else .refused, r)

/-- The register after some calls. -/
def after (r : Register Owner) (calls : List (LeaseCall Owner)) : Register Owner :=
  calls.foldl (fun r call => (r.step call).2) r

/-- What a call answers after some calls. -/
def reply (r : Register Owner) (calls : List (LeaseCall Owner)) (call : LeaseCall Owner) :
    LeaseReply Owner :=
  ((r.after calls).step call).1

theorem after_append (r : Register Owner) (xs ys : List (LeaseCall Owner)) :
    r.after (xs ++ ys) = (r.after xs).after ys := by
  simp [after]

theorem after_cons (r : Register Owner) (call : LeaseCall Owner) (calls : List (LeaseCall Owner)) :
    r.after (call :: calls) = (r.step call).2.after calls := rfl

theorem reply_append (r : Register Owner) (xs ys : List (LeaseCall Owner)) (call : LeaseCall Owner) :
    r.reply (xs ++ ys) call = (r.after xs).reply ys call := by
  simp [reply, after_append]

/-! ## What one call does -/

variable {r : Register Owner} {g : Grant Owner}

/-- A grant is numbered past the counter and becomes the current one. -/
theorem step_granted {call : LeaseCall Owner} (h : (r.step call).1 = .granted g) :
    (∃ owner ttl now, call = .acquire owner ttl now) ∧ g.term = r.counter + 1 ∧
      (r.step call).2 = ⟨some g, r.counter + 1⟩ := by
  cases call with
  | acquire owner ttl now =>
    simp only [step] at h ⊢
    split at h
    · cases h
    · rename_i hfree
      cases h
      simp [hfree]
  | renew g' ttl now =>
    simp only [step] at h
    split at h <;> cases h
  | release g' => cases h
  | write g' =>
    simp only [step] at h
    split at h <;> cases h

/-- A call that grants nothing keeps the counter, and what is current was so before. -/
theorem step_other {call : LeaseCall Owner} (h : ∀ g, (r.step call).1 ≠ .granted g) :
    (r.step call).2.counter = r.counter ∧
      ∀ c, (r.step call).2.current = some c → ∃ c₀, r.current = some c₀ ∧ c₀.Same c := by
  have hsame : ∀ c, r.current = some c → ∃ c₀, r.current = some c₀ ∧ c₀.Same c := by
    intro c hc
    exact ⟨c, hc, .refl c⟩
  cases call with
  | acquire owner ttl now =>
    simp only [step] at h ⊢
    split
    · exact ⟨rfl, hsame⟩
    · rename_i hfree
      simp [hfree] at h
  | renew g' ttl now =>
    simp only [step]
    split
    · refine ⟨rfl, ?_⟩
      intro c hc
      cases hcur : r.current with
      | none => simp [hcur] at hc
      | some c₀ =>
        simp only [hcur, Option.map_some, Option.some.injEq] at hc
        refine ⟨c₀, rfl, ?_⟩
        rw [← hc]
        exact ⟨rfl, rfl⟩
    · exact ⟨rfl, hsame⟩
  | release g' =>
    simp only [step]
    split
    · exact ⟨rfl, fun c hc => by cases hc⟩
    · exact ⟨rfl, hsame⟩
  | write g' => exact ⟨rfl, hsame⟩

/-- Only a grant, or a release of the current grant, changes which grant is current. -/
theorem step_holds {call : LeaseCall Owner} (h : ∀ g, (r.step call).1 ≠ .granted g)
    (hrel : ∀ g', call = .release g' → ¬g'.Same g) : (r.step call).2.Holds g ↔ r.Holds g := by
  cases call with
  | acquire owner ttl now =>
    simp only [step] at h ⊢
    split
    · rfl
    · rename_i hfree
      simp [hfree] at h
  | renew g' ttl now =>
    simp only [step]
    split
    · cases hcur : r.current with
      | none => simp [Holds, hcur]
      | some c => simp [Holds, hcur, Grant.Same]
    · rfl
  | release g' =>
    simp only [step]
    split
    · rename_i hheld
      obtain ⟨c, hc, hcg'⟩ := hheld
      constructor
      · rintro ⟨c', hc', -⟩
        cases hc'
      · rintro ⟨c', hc', hcg⟩
        rw [hc] at hc'
        cases hc'
        exact absurd ⟨hcg'.1.symm.trans hcg.1, hcg'.2.symm.trans hcg.2⟩ (hrel g' rfl)
    · rfl
  | write g' => rfl

/-- A grant that is current after a call was so before, or the call granted it to its owner. -/
theorem holds_of_step {call : LeaseCall Owner} (h : (r.step call).2.Holds g) :
    r.Holds g ∨ ∃ ttl now, call = .acquire g.owner ttl now ∧ r.counter + 1 = g.term ∧
      ∃ g', (r.step call).1 = .granted g' := by
  by_cases hg : ∃ g', (r.step call).1 = .granted g'
  · obtain ⟨g', hg'⟩ := hg
    obtain ⟨⟨owner, ttl, now, rfl⟩, hterm, hafter⟩ := step_granted hg'
    rw [hafter] at h
    obtain ⟨c, hc, hsame⟩ := h
    obtain rfl := Option.some.inj hc
    have howner : owner = g'.owner := by
      simp only [step] at hg'
      split at hg'
      · cases hg'
      · cases hg'
        rfl
    right
    refine ⟨ttl, now, ?_, hterm.symm.trans hsame.2, _, hg'⟩
    rw [howner, hsame.1]
  · push Not at hg
    obtain ⟨-, hcurrent⟩ := step_other hg
    obtain ⟨c, hc, hsame⟩ := h
    obtain ⟨c₀, hc₀, hsame₀⟩ := hcurrent c hc
    exact Or.inl ⟨c₀, hc₀, hsame₀.1.trans hsame.1, hsame₀.2.trans hsame.2⟩

/-- What an acquisition grants is current after it. -/
theorem holds_of_granted {owner : Owner} {ttl now : Int}
    (h : (r.step (.acquire owner ttl now)).1 = .granted g) (e : Int) :
    (r.step (.acquire owner ttl now)).2.Holds ⟨owner, r.counter + 1, e⟩ := by
  simp only [step] at h ⊢
  split
  · rename_i hblocked
    simp [hblocked] at h
  · exact ⟨_, rfl, rfl, rfl⟩

/-! ## Terms -/

theorem Counted.step (h : r.Counted) (call : LeaseCall Owner) : (r.step call).2.Counted := by
  by_cases hg : ∃ g, (r.step call).1 = .granted g
  · obtain ⟨g, hg⟩ := hg
    obtain ⟨-, hterm, hafter⟩ := step_granted hg
    rw [hafter]
    intro c hc
    cases hc
    exact Nat.le_of_eq hterm
  · push Not at hg
    obtain ⟨hcounter, hcurrent⟩ := step_other hg
    intro c hc
    obtain ⟨c₀, hc₀, hsame⟩ := hcurrent c hc
    rw [hcounter, ← hsame.2]
    exact h c₀ hc₀

theorem Past.step (h : r.Past g) (call : LeaseCall Owner) : (r.step call).2.Past g := by
  by_cases hg : ∃ g', (r.step call).1 = .granted g'
  · obtain ⟨g', hg'⟩ := hg
    obtain ⟨-, hterm, hafter⟩ := step_granted hg'
    rw [hafter]
    refine ⟨Nat.le_succ_of_le h.1, ?_⟩
    intro c hc
    cases hc
    rw [hterm]
    exact Nat.lt_succ_of_le h.1
  · push Not at hg
    obtain ⟨hcounter, hcurrent⟩ := step_other hg
    refine ⟨hcounter ▸ h.1, ?_⟩
    intro c hc
    obtain ⟨c₀, hc₀, hsame⟩ := hcurrent c hc
    rw [← hsame.2]
    exact h.2 c₀ hc₀

theorem Past.after (h : r.Past g) (calls : List (LeaseCall Owner)) : (r.after calls).Past g := by
  induction calls generalizing r with
  | nil => exact h
  | cons call calls ih => exact ih (h.step call)

/-- The counter never falls. -/
theorem counter_le_after (r : Register Owner) (calls : List (LeaseCall Owner)) :
    r.counter ≤ (r.after calls).counter := by
  induction calls generalizing r with
  | nil => exact Nat.le_refl _
  | cons call calls ih =>
    have hstep : r.counter ≤ (r.step call).2.counter := by
      by_cases hg : ∃ g, (r.step call).1 = .granted g
      · obtain ⟨g, hg⟩ := hg
        obtain ⟨-, -, hafter⟩ := step_granted hg
        rw [hafter]
        exact Nat.le_succ _
      · push Not at hg
        exact Nat.le_of_eq (step_other hg).1.symm
    exact Nat.le_trans hstep (ih _)

/-- Later grants have larger terms. -/
theorem granted_lt (r : Register Owner) {xs ys : List (LeaseCall Owner)}
    {call call' : LeaseCall Owner} {g g' : Grant Owner} (h : r.reply xs call = .granted g)
    (h' : r.reply (xs ++ call :: ys) call' = .granted g') : g.term < g'.term := by
  obtain ⟨-, hterm, hafter⟩ := step_granted h
  obtain ⟨-, hterm', -⟩ := step_granted h'
  rw [after_append, after_cons, hafter] at hterm'
  have hle := counter_le_after ⟨some g, (r.after xs).counter + 1⟩ ys
  simp only at hle
  omega

/-! ## What is in force -/

/-- Since the grant `g`, the calls neither granted the resource nor released `g`. -/
def InForce (r : Register Owner) (g : Grant Owner) (calls : List (LeaseCall Owner)) : Prop :=
  ∀ xs call ys, calls = xs ++ call :: ys →
    (∀ g', r.reply xs call ≠ .granted g') ∧ ∀ g', call = .release g' → ¬g'.Same g

theorem inForce_nil (r : Register Owner) (g : Grant Owner) : r.InForce g [] := by
  intro xs call ys h
  simp at h

theorem inForce_cons {call : LeaseCall Owner} {calls : List (LeaseCall Owner)} :
    r.InForce g (call :: calls) ↔
      ((∀ g', (r.step call).1 ≠ .granted g') ∧ ∀ g', call = .release g' → ¬g'.Same g) ∧
        (r.step call).2.InForce g calls := by
  constructor
  · intro h
    refine ⟨h [] call calls rfl, ?_⟩
    intro xs call' ys heq
    have hsplit := h (call :: xs) call' ys (by rw [heq]; rfl)
    exact hsplit
  · rintro ⟨hcall, hrest⟩ xs call' ys heq
    cases xs with
    | nil =>
      obtain ⟨rfl, rfl⟩ := List.cons.inj heq
      exact hcall
    | cons x xs =>
      obtain ⟨rfl, rfl⟩ := List.cons.inj heq
      exact hrest xs call' ys rfl

/-- A current grant stays the current one exactly as long as it is in force. -/
theorem holds_after_iff (hr : r.Counted) (hg : r.Holds g) (calls : List (LeaseCall Owner)) :
    (r.after calls).Holds g ↔ r.InForce g calls := by
  induction calls generalizing r with
  | nil => exact iff_of_true hg (inForce_nil r g)
  | cons call calls ih =>
    rw [after_cons, inForce_cons]
    by_cases hgrant : ∃ g', (r.step call).1 = .granted g'
    · -- a new grant ends the old one for good
      obtain ⟨g', hg'⟩ := hgrant
      obtain ⟨-, hterm, hafter⟩ := step_granted hg'
      obtain ⟨c, hc, hsame⟩ := hg
      have hle := hr c hc
      rw [hsame.2] at hle
      have hpast : (r.step call).2.Past g := by
        rw [hafter]
        refine ⟨Nat.le_succ_of_le hle, ?_⟩
        intro c' hc'
        cases hc'
        omega
      constructor
      · intro hholds
        exact absurd hholds (hpast.after calls).not_holds
      · rintro ⟨⟨hno, -⟩, -⟩
        exact absurd hg' (hno g')
    · push Not at hgrant
      by_cases hrel : ∃ g', call = .release g' ∧ g'.Same g
      · -- so does its release
        obtain ⟨g', rfl, hsame⟩ := hrel
        have hheld : r.Holds g' := by
          obtain ⟨c, hc, hcg⟩ := hg
          exact ⟨c, hc, hcg.1.trans hsame.1.symm, hcg.2.trans hsame.2.symm⟩
        have hpast : (r.step (.release g')).2.Past g := by
          obtain ⟨c, hc, hcg⟩ := hg
          have hle := hr c hc
          rw [hcg.2] at hle
          simp only [step, hheld, if_true]
          refine ⟨hle, ?_⟩
          intro c' hc'
          cases hc'
        constructor
        · intro hholds
          exact absurd hholds (hpast.after calls).not_holds
        · rintro ⟨⟨-, hno⟩, -⟩
          exact absurd hsame (hno g' rfl)
      · push Not at hrel
        rw [ih (hr.step call) ((step_holds hgrant hrel).2 hg)]
        exact (and_iff_right ⟨hgrant, hrel⟩).symm

theorem counted_after (hr : r.Counted) (calls : List (LeaseCall Owner)) :
    (r.after calls).Counted := by
  induction calls generalizing r with
  | nil => exact hr
  | cons call calls ih => exact ih (hr.step call)

/-- A grant is the current one as long as it is in force. -/
theorem holds_iff_inForce (hr : r.Counted) {xs ys : List (LeaseCall Owner)} {call : LeaseCall Owner}
    (h : r.reply xs call = .granted g) :
    (r.after (xs ++ call :: ys)).Holds g ↔ (r.after (xs ++ [call])).InForce g ys := by
  have hsplit : r.after (xs ++ call :: ys) = (r.after (xs ++ [call])).after ys := by
    simp [after]
  rw [hsplit]
  apply holds_after_iff (counted_after hr _)
  obtain ⟨-, -, hafter⟩ := step_granted h
  rw [after_append, after_cons, hafter]
  exact ⟨g, rfl, .refl g⟩

/-! ## Who holds the register -/

/-- What a call makes of the expiry of the grant `g`. -/
def extend (g : Grant Owner) (at_ : Int) : LeaseCall Owner → Int
  | .renew g' ttl now => if g'.Same g then now + ttl else at_
  | _ => at_

/-- The expiry of the grant `g` after calls throughout which it was in force. -/
def expiry (g : Grant Owner) (calls : List (LeaseCall Owner)) : Int :=
  calls.foldl (extend g) g.expiresAt

theorem expiry_cons (g : Grant Owner) (call : LeaseCall Owner) (calls : List (LeaseCall Owner)) :
    expiry g (call :: calls) =
      expiry { g with expiresAt := extend g g.expiresAt call } calls := rfl

/-- While `g` is in force, the register holds it until its last extension. -/
theorem current_of_inForce {calls : List (LeaseCall Owner)} (hg : r.current = some g)
    (h : r.InForce g calls) :
    (r.after calls).current = some { g with expiresAt := expiry g calls } := by
  induction calls generalizing r g with
  | nil => exact hg
  | cons call calls ih =>
    obtain ⟨⟨hgrant, hrel⟩, hrest⟩ := inForce_cons.1 h
    have hstep : (r.step call).2.current =
        some { g with expiresAt := extend g g.expiresAt call } := by
      cases call with
      | acquire owner ttl now =>
        simp only [step] at hgrant ⊢
        split
        · exact hg
        · rename_i hfree
          simp [hfree] at hgrant
      | renew g' ttl now =>
        have hholds : r.Holds g' ↔ g'.Same g := by
          simp only [Holds, hg, Option.some.injEq, exists_eq_left']
          exact ⟨Grant.Same.symm, Grant.Same.symm⟩
        by_cases hsame : g'.Same g
        · simp [step, hholds, hsame, hg, extend]
        · simp [step, hholds, hsame, hg, extend]
      | release g' =>
        have hholds : ¬r.Holds g' := by
          rintro ⟨c, hc, hsame⟩
          rw [hg] at hc
          cases hc
          exact hrel g' rfl hsame.symm
        simp [step, hholds, hg, extend]
      | write g' => exact hg
    rw [after_cons, expiry_cons]
    apply ih hstep
    intro xs call' ys heq
    exact hrest xs call' ys heq

/-- What a register holds that was empty at first: something granted, in force since, and extended
as often as it was renewed. -/
theorem current_iff (calls : List (LeaseCall Owner)) (c : Grant Owner) :
    ((fresh : Register Owner).after calls).current = some c ↔
      ∃ xs call ys g, calls = xs ++ call :: ys ∧
        (fresh : Register Owner).reply xs call = .granted g ∧
        ((fresh : Register Owner).after (xs ++ [call])).InForce g ys ∧
        c = { g with expiresAt := expiry g ys } := by
  constructor
  · induction calls using List.reverseRecOn generalizing c with
    | nil =>
      intro h
      cases h
    | append_singleton calls call ih =>
      intro h
      rw [after_append] at h
      by_cases hgrant : ∃ g, (fresh : Register Owner).reply calls call = .granted g
      · obtain ⟨g, hg⟩ := hgrant
        obtain ⟨-, -, hafter⟩ := step_granted hg
        rw [after_cons, hafter] at h
        cases h
        exact ⟨calls, call, [], c, rfl, hg, inForce_nil _ _, rfl⟩
      · push Not at hgrant
        obtain ⟨c₀, hc₀, hsame⟩ := (step_other hgrant).2 c h
        obtain ⟨xs, call₀, ys, g, rfl, hg, hforce, rfl⟩ := ih c₀ hc₀
        have hheld : ((fresh : Register Owner).after (xs ++ call₀ :: (ys ++ [call]))).Holds g := by
          rw [← List.cons_append, ← List.append_assoc, after_append]
          exact ⟨c, h, hsame.1.symm, hsame.2.symm⟩
        have hforce' := (holds_iff_inForce counted_fresh hg).1 hheld
        refine ⟨xs, call₀, ys ++ [call], g, by simp, hg, hforce', ?_⟩
        have hstart : ((fresh : Register Owner).after (xs ++ [call₀])).current = some g := by
          rw [after_append, after_cons, (step_granted hg).2.2]
          rfl
        have hcur := current_of_inForce hstart hforce'
        rw [← after_append, List.append_assoc] at hcur
        have heq : xs ++ ([call₀] ++ (ys ++ [call])) = (xs ++ call₀ :: ys) ++ [call] := by simp
        rw [heq, after_append, h] at hcur
        exact Option.some.inj hcur
  · rintro ⟨xs, call, ys, g, rfl, hg, hforce, rfl⟩
    have hstart : ((fresh : Register Owner).after (xs ++ [call])).current = some g := by
      rw [after_append, after_cons, (step_granted hg).2.2]
      rfl
    have hcur := current_of_inForce hstart hforce
    rw [← after_append, List.append_assoc] at hcur
    exact hcur

end Register

end Watukuy.Library
