import Watukuy.Core.Types
import Watukuy.Core.Hash

/-!
# Event ids

`diff/event-id.ts`: the id of an event is the SHA-256 of its escaped and separated parts. The
material determines the parts, so under a collision-free digest the id determines the material.
-/

set_option autoImplicit false

namespace Watukuy

structure EventIdParts where
  source : String
  partition : String
  identity : String
  version : String
  schemaVersion : Nat
  type : EventType
  deriving DecidableEq

def eventIdPrefix : String := "watukuy|v1|"

/-- One character of `escapePart`. -/
def escapeChar (c : Char) : List Char := if c = '\\' ∨ c = '|' then ['\\', c] else [c]

def escapeChars (l : List Char) : List Char := l.flatMap escapeChar

def escapePart (part : String) : String := String.ofList (escapeChars part.toList)

def eventIdMaterial (parts : EventIdParts) : String :=
  eventIdPrefix ++ "|".intercalate
    ([parts.source, parts.partition, parts.identity, parts.version,
      toString parts.schemaVersion, parts.type.text].map escapePart)

def eventId (crypto : Crypto) (parts : EventIdParts) : String :=
  crypto.sha256Hex (eventIdMaterial parts)

/-! ## The material determines the parts -/

/-- An escaped text never starts with a bare separator, so the first bare separator ends it. -/
theorem escapeChars_append_sep {xs ys r s : List Char}
    (h : escapeChars xs ++ '|' :: r = escapeChars ys ++ '|' :: s) : xs = ys ∧ r = s := by
  induction xs generalizing ys with
  | nil =>
    cases ys with
    | nil => exact ⟨rfl, (List.cons.inj h).2⟩
    | cons y ys =>
      by_cases hy : y = '\\' ∨ y = '|' <;>
        simp [escapeChars, escapeChar, hy] at h
      exact absurd h.1.symm fun e => hy (Or.inr e)
  | cons x xs ih =>
    cases ys with
    | nil =>
      by_cases hx : x = '\\' ∨ x = '|' <;>
        simp [escapeChars, escapeChar, hx] at h
      exact absurd h.1 fun e => hx (Or.inr e)
    | cons y ys =>
      have hxs : escapeChars (x :: xs) = escapeChar x ++ escapeChars xs := rfl
      have hys : escapeChars (y :: ys) = escapeChar y ++ escapeChars ys := rfl
      rw [hxs, hys, List.append_assoc, List.append_assoc] at h
      by_cases hx : x = '\\' ∨ x = '|' <;> by_cases hy : y = '\\' ∨ y = '|'
      · simp only [escapeChar, if_pos hx, if_pos hy, List.cons_append, List.nil_append,
          List.cons.injEq, true_and] at h
        obtain ⟨rfl, rfl⟩ := ih h.2
        exact ⟨by rw [h.1], rfl⟩
      · simp only [escapeChar, if_pos hx, if_neg hy, List.cons_append, List.nil_append,
          List.cons.injEq] at h
        exact absurd (Or.inl h.1.symm) hy
      · simp only [escapeChar, if_neg hx, if_pos hy, List.cons_append, List.nil_append,
          List.cons.injEq] at h
        exact absurd (Or.inl h.1) hx
      · simp only [escapeChar, if_neg hx, if_neg hy, List.cons_append, List.nil_append,
          List.cons.injEq] at h
        obtain ⟨rfl, rfl⟩ := ih h.2
        exact ⟨by rw [h.1], rfl⟩

theorem escapeChars_injective {xs ys : List Char} (h : escapeChars xs = escapeChars ys) :
    xs = ys := by
  have hsep : escapeChars xs ++ '|' :: [] = escapeChars ys ++ '|' :: [] := by rw [h]
  exact (escapeChars_append_sep hsep).1

/-- The characters of the material after the prefix. -/
theorem toList_eventIdMaterial (p : EventIdParts) :
    (eventIdMaterial p).toList = eventIdPrefix.toList ++
      (escapeChars p.source.toList ++ '|' :: (escapeChars p.partition.toList ++ '|' ::
      (escapeChars p.identity.toList ++ '|' :: (escapeChars p.version.toList ++ '|' ::
      (escapeChars (toString p.schemaVersion).toList ++ '|' ::
        escapeChars p.type.text.toList))))) := by
  simp [eventIdMaterial, escapePart]

theorem text_injective {a b : EventType} (h : a.text = b.text) : a = b := by
  cases a <;> cases b <;> first | rfl | exact absurd h (by decide)

theorem toString_injective {m n : Nat} (h : (toString m).toList = (toString n).toList) :
    m = n := by
  have hd : Nat.toDigits 10 m = Nat.toDigits 10 n := by
    rw [← Nat.toList_repr, ← Nat.toList_repr]
    exact h
  calc
    m = Nat.ofDigitChars 10 (Nat.toDigits 10 m) 0 := Nat.ofDigitChars_ten_toDigits.symm
    _ = Nat.ofDigitChars 10 (Nat.toDigits 10 n) 0 := by rw [hd]
    _ = n := Nat.ofDigitChars_ten_toDigits

/-- Equal materials have equal parts. -/
theorem material_inj {p q : EventIdParts} (h : eventIdMaterial p = eventIdMaterial q) : p = q := by
  have hl : (eventIdMaterial p).toList = (eventIdMaterial q).toList := congrArg String.toList h
  rw [toList_eventIdMaterial, toList_eventIdMaterial] at hl
  obtain ⟨h₁, hl⟩ := escapeChars_append_sep (List.append_cancel_left hl)
  obtain ⟨h₂, hl⟩ := escapeChars_append_sep hl
  obtain ⟨h₃, hl⟩ := escapeChars_append_sep hl
  obtain ⟨h₄, hl⟩ := escapeChars_append_sep hl
  obtain ⟨h₅, hl⟩ := escapeChars_append_sep hl
  have h₆ := escapeChars_injective hl
  cases p
  cases q
  simp only [EventIdParts.mk.injEq]
  exact ⟨String.toList_injective h₁, String.toList_injective h₂, String.toList_injective h₃,
    String.toList_injective h₄, toString_injective h₅,
    text_injective (String.toList_injective h₆)⟩

/-- No two tuples of parts share a material, whatever separators and backslashes they contain. -/
theorem eventIdMaterial_injective : Function.Injective eventIdMaterial := by
  intro p q h
  exact material_inj h

/-- Under a collision-free digest, equal ids have equal parts. -/
theorem eventId_inj {crypto : Crypto} (hc : Function.Injective crypto.digest)
    {p q : EventIdParts} (h : eventId crypto p = eventId crypto q) : p = q :=
  material_inj (hc (toHex_injective h))

end Watukuy
