import Mathlib.Data.Fin.Basic
import Mathlib.Data.List.Basic

/-!
# Hashes

`core/hash.ts`. SHA-256 is the platform's, so the digest is a parameter; the hex encoding is the
repository's own. A hex text contains no character other than the sixteen digits.
-/

set_option autoImplicit false

namespace Watukuy

/-- The digest of the platform: SHA-256 over the UTF-8 bytes of a text. -/
structure Crypto where
  digest : String → List (Fin 256)

/-- `i.toString(16)` digit by digit. -/
def hexChar (n : Fin 16) : Char := "0123456789abcdef".toList.getD n.val '0'

/-- `HEX[b]`. -/
def hexByte (b : Fin 256) : List Char :=
  [hexChar ⟨b.val / 16, by omega⟩, hexChar ⟨b.val % 16, by omega⟩]

def toHex (bytes : List (Fin 256)) : String := String.ofList (bytes.flatMap hexByte)

/-- `sha256Hex`. -/
def Crypto.sha256Hex (crypto : Crypto) (input : String) : String := toHex (crypto.digest input)

/-- `hashUrl`. -/
def Crypto.hashUrl (crypto : Crypto) (url : String) : String :=
  String.ofList ((crypto.sha256Hex url).toList.take 32)

theorem hexChar_injective : Function.Injective hexChar := by
  intro a b h
  revert a b
  decide

theorem hexByte_injective : Function.Injective hexByte := by
  intro a b h
  rw [hexByte, hexByte, List.cons.injEq, List.cons.injEq] at h
  have hi : a.val / 16 = b.val / 16 := Fin.mk.inj_iff.1 (hexChar_injective h.1)
  have lo : a.val % 16 = b.val % 16 := Fin.mk.inj_iff.1 (hexChar_injective h.2.1)
  apply Fin.ext
  omega

/-- Different byte strings have different hex texts. -/
theorem toHex_injective : Function.Injective toHex := by
  intro xs ys h
  have hl : xs.flatMap hexByte = ys.flatMap hexByte := String.ofList_injective h
  clear h
  induction xs generalizing ys with
  | nil =>
    cases ys with
    | nil => rfl
    | cons y ys => simp [hexByte] at hl
  | cons x xs ih =>
    cases ys with
    | nil => simp [hexByte] at hl
    | cons y ys =>
      rw [List.flatMap_cons, List.flatMap_cons] at hl
      have hlen : (hexByte x).length = (hexByte y).length := rfl
      obtain ⟨hx, hxs⟩ := List.append_inj hl hlen
      rw [hexByte_injective hx, ih hxs]

theorem hexChar_ne_colon (n : Fin 16) : hexChar n ≠ ':' := by
  revert n
  decide

/-- No hex text contains a colon. -/
theorem colon_not_mem_toHex (bytes : List (Fin 256)) : ':' ∉ (toHex bytes).toList := by
  intro h
  rw [toHex, String.toList_ofList, List.mem_flatMap] at h
  obtain ⟨b, _, hb⟩ := h
  rw [hexByte, List.mem_cons, List.mem_cons] at hb
  rcases hb with hb | hb | hb
  · exact hexChar_ne_colon _ hb.symm
  · exact hexChar_ne_colon _ hb.symm
  · exact absurd hb List.not_mem_nil

end Watukuy
