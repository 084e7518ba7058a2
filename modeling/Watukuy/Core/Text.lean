import Mathlib.Data.List.Lex
import Mathlib.Data.List.Sort
import Mathlib.Order.Lattice

/-!
# Text as the runtime sees it

String comparison and sorting by UTF-16 code units, JSON string literals.
-/

set_option autoImplicit false

namespace Watukuy

/-- The UTF-16 code units of a character. -/
def utf16 (c : Char) : List Nat :=
  if c.toNat < 0x10000 then [c.toNat]
  else [0xD800 + (c.toNat - 0x10000) / 0x400, 0xDC00 + (c.toNat - 0x10000) % 0x400]

def codeUnits (s : String) : List Nat := s.toList.flatMap utf16

/-- `a <= b` on lists of code units. -/
def unitsLe : List Nat → List Nat → Bool
  | [], _ => true
  | _ :: _, [] => false
  | x :: xs, y :: ys => x < y || (x == y && unitsLe xs ys)

/-- `a <= b` on strings. -/
def stringLe (a b : String) : Bool := unitsLe (codeUnits a) (codeUnits b)

/-- `strings.sort()`. -/
def sortStrings (l : List String) : List String := l.insertionSort fun a b => stringLe a b = true

theorem mem_sortStrings {l : List String} {s : String} : s ∈ sortStrings l ↔ s ∈ l :=
  List.mem_insertionSort _

theorem nodup_sortStrings {l : List String} (h : l.Nodup) : (sortStrings l).Nodup :=
  (List.perm_insertionSort _ l).nodup_iff.2 h

/-! ## The order of strings -/

theorem unitsLe_iff {xs ys : List Nat} : unitsLe xs ys = true ↔ xs ≤ ys := by
  rw [← not_lt]
  induction xs generalizing ys with
  | nil => simp [unitsLe]
  | cons x xs ih =>
    cases ys with
    | nil => simp [unitsLe]
    | cons y ys =>
      rw [List.cons_lt_cons_iff]
      simp only [unitsLe, Bool.or_eq_true, Bool.and_eq_true, decide_eq_true_eq, beq_iff_eq, ih]
      grind

theorem stringLe_iff {a b : String} : stringLe a b = true ↔ codeUnits a ≤ codeUnits b :=
  unitsLe_iff

theorem stringLe_refl (a : String) : stringLe a a = true := stringLe_iff.2 le_rfl

theorem stringLe_total (a b : String) : stringLe a b = true ∨ stringLe b a = true := by
  simp only [stringLe_iff]
  exact le_total _ _

theorem stringLe_trans {a b c : String} (h : stringLe a b = true) (h' : stringLe b c = true) :
    stringLe a c = true :=
  stringLe_iff.2 ((stringLe_iff.1 h).trans (stringLe_iff.1 h'))

/-- No character is a surrogate. -/
theorem toNat_valid (c : Char) :
    c.toNat < 0xD800 ∨ 0xDFFF < c.toNat ∧ c.toNat < 0x110000 := c.valid

theorem utf16_ne_nil (c : Char) : utf16 c ≠ [] := by
  by_cases h : c.toNat < 0x10000 <;> simp [utf16, h]

/-- The code units of a text determine its first character. -/
theorem utf16_prefix {c d : Char} {xs ys : List Nat} (h : utf16 c ++ xs = utf16 d ++ ys) :
    c = d ∧ xs = ys := by
  have hc := toNat_valid c
  have hd := toNat_valid d
  have hchar : c.toNat = d.toNat → c = d := fun he => Char.toNat_inj.1 he
  by_cases hbc : c.toNat < 0x10000 <;> by_cases hbd : d.toNat < 0x10000
  · simp only [utf16, if_pos hbc, if_pos hbd, List.cons_append, List.nil_append,
      List.cons.injEq] at h
    exact ⟨hchar h.1, h.2⟩
  · -- a unit of the basic plane is never a high surrogate
    simp only [utf16, if_pos hbc, if_neg hbd, List.cons_append, List.nil_append,
      List.cons.injEq] at h
    omega
  · simp only [utf16, if_neg hbc, if_pos hbd, List.cons_append, List.nil_append,
      List.cons.injEq] at h
    omega
  · simp only [utf16, if_neg hbc, if_neg hbd, List.cons_append, List.nil_append,
      List.cons.injEq] at h
    exact ⟨hchar (by omega), h.2.2⟩

theorem flatMap_utf16_injective {l l' : List Char} (h : l.flatMap utf16 = l'.flatMap utf16) :
    l = l' := by
  induction l generalizing l' with
  | nil =>
    cases l' with
    | nil => rfl
    | cons d l' => simp [utf16_ne_nil] at h
  | cons c l ih =>
    cases l' with
    | nil => simp [utf16_ne_nil] at h
    | cons d l' =>
      simp only [List.flatMap_cons] at h
      obtain ⟨rfl, hrest⟩ := utf16_prefix h
      rw [ih hrest]

theorem codeUnits_injective : Function.Injective codeUnits := fun _ _ h =>
  String.toList_injective (flatMap_utf16_injective h)

theorem stringLe_antisymm {a b : String} (h : stringLe a b = true) (h' : stringLe b a = true) :
    a = b :=
  codeUnits_injective (le_antisymm (stringLe_iff.1 h) (stringLe_iff.1 h'))

/-- A text under the order of its code units. -/
structure UnitText where
  text : String
deriving DecidableEq

instance : LinearOrder UnitText :=
  LinearOrder.lift' (fun s => codeUnits s.text) fun _ _ h =>
    congrArg UnitText.mk (codeUnits_injective h)

theorem UnitText.le_iff {a b : UnitText} : a ≤ b ↔ stringLe a.text b.text = true :=
  stringLe_iff.symm

/-! ## Decimal texts -/

/-- The number a decimal text stands for. -/
def readInt (s : String) : Int :=
  match s.toList with
  | '-' :: digits => -(Nat.ofDigitChars 10 digits 0 : Nat)
  | digits => (Nat.ofDigitChars 10 digits 0 : Nat)

theorem readInt_natRepr (n : Nat) : readInt n.repr = n := by
  unfold readInt
  rw [Nat.toList_repr]
  split
  · rename_i digits h
    have hdash : '-' ∈ Nat.toDigits 10 n := by
      rw [h]
      simp
    exact absurd (Nat.isDigit_of_mem_toDigits (by decide) (by decide) hdash) (by decide)
  · rw [Nat.ofDigitChars_ten_toDigits]

theorem readInt_repr (k : Int) : readInt k.repr = k := by
  rw [Int.repr_eq_if]
  split
  · rw [readInt_natRepr]
    omega
  · have htext : ("-" ++ (-k).toNat.repr).toList = '-' :: Nat.toDigits 10 (-k).toNat := by
      rw [String.toList_append, Nat.toList_repr]
      rfl
    unfold readInt
    rw [htext]
    simp only [Nat.ofDigitChars_ten_toDigits]
    omega

/-! ## JSON string literals -/

def hexDigit (n : Nat) : Char := "0123456789abcdef".toList.getD n '0'

/-- One character inside a JSON string literal. -/
def quoteChar (c : Char) : List Char :=
  if c = '"' then ['\\', '"']
  else if c = '\\' then ['\\', '\\']
  else if c.toNat = 8 then ['\\', 'b']
  else if c.toNat = 9 then ['\\', 't']
  else if c.toNat = 10 then ['\\', 'n']
  else if c.toNat = 12 then ['\\', 'f']
  else if c.toNat = 13 then ['\\', 'r']
  else if c.toNat < 32 then
    ['\\', 'u', '0', '0', hexDigit (c.toNat / 16), hexDigit (c.toNat % 16)]
  else [c]

/-- `JSON.stringify` of a string. -/
def quote (s : String) : String :=
  String.ofList ('"' :: s.toList.flatMap quoteChar ++ ['"'])

/-- `JSON.stringify` of a string or `null`. -/
def quoteOrNull : Option String → String
  | none => "null"
  | some s => quote s

/-- `truncate` of `cursor/shared.ts`. -/
def truncate (raw : String) : String :=
  if raw.length > 120 then String.ofList (raw.toList.take 117) ++ "..." else raw

end Watukuy
