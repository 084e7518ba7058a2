import Mathlib.Data.List.FinRange
import Mathlib.Data.Fin.Basic

/-!
# Base64

`encode` writes bytes with the standard alphabet and padding. `decode` is forgiving: it skips white
space, drops up to two trailing `=` of a text whose length is a multiple of four, refuses other
characters and a length that leaves one character over, and ignores the bits that fill no byte.
-/

set_option autoImplicit false

namespace Watukuy.Library.Base64

def letter (n : Fin 64) : Char :=
  if n.val < 26 then Char.ofNat (n.val + 65)
  else if n.val < 52 then Char.ofNat (n.val + 71)
  else if n.val < 62 then Char.ofNat (n.val - 4)
  else if n.val = 62 then '+'
  else '/'

def value (c : Char) : Option (Fin 64) :=
  let n := c.toNat
  if 65 ≤ n ∧ n ≤ 90 then some (Fin.ofNat 64 (n - 65))
  else if 97 ≤ n ∧ n ≤ 122 then some (Fin.ofNat 64 (n - 71))
  else if 48 ≤ n ∧ n ≤ 57 then some (Fin.ofNat 64 (n + 4))
  else if c = '+' then some 62
  else if c = '/' then some 63
  else none

def isSpace (c : Char) : Bool := [9, 10, 12, 13, 32].contains c.toNat

/-- The values of the letters for some bytes. -/
def sextets : List UInt8 → List (Fin 64)
  | a :: b :: c :: rest =>
    Fin.ofNat 64 (a.toNat / 4) :: Fin.ofNat 64 (a.toNat % 4 * 16 + b.toNat / 16) ::
      Fin.ofNat 64 (b.toNat % 16 * 4 + c.toNat / 64) :: Fin.ofNat 64 (c.toNat % 64) :: sextets rest
  | [a, b] =>
    [Fin.ofNat 64 (a.toNat / 4), Fin.ofNat 64 (a.toNat % 4 * 16 + b.toNat / 16),
      Fin.ofNat 64 (b.toNat % 16 * 4)]
  | [a] => [Fin.ofNat 64 (a.toNat / 4), Fin.ofNat 64 (a.toNat % 4 * 16)]
  | [] => []

/-- The bytes that some values fill. -/
def bytes : List (Fin 64) → List UInt8
  | p :: q :: r :: s :: rest =>
    UInt8.ofNat (p.val * 4 + q.val / 16) :: UInt8.ofNat (q.val % 16 * 16 + r.val / 4) ::
      UInt8.ofNat (r.val % 4 * 64 + s.val) :: bytes rest
  | [p, q, r] =>
    [UInt8.ofNat (p.val * 4 + q.val / 16), UInt8.ofNat (q.val % 16 * 16 + r.val / 4)]
  | [p, q] => [UInt8.ofNat (p.val * 4 + q.val / 16)]
  | _ => []

def padding (n : Nat) : List Char := List.replicate ((3 - n % 3) % 3) '='

def encode (bs : List UInt8) : List Char := (sextets bs).map letter ++ padding bs.length

/-- The text without its padding. -/
def dropPadding (cs : List Char) : List Char :=
  if cs.length % 4 = 0 then
    match cs.reverse with
    | '=' :: '=' :: rest => rest.reverse
    | '=' :: rest => rest.reverse
    | _ => cs
  else cs

def decode (cs : List Char) : Option (List UInt8) :=
  let body := dropPadding (cs.filter fun c => !isSpace c)
  if body.length % 4 = 1 then none else (body.mapM value).map bytes

theorem value_letter (n : Fin 64) : value (letter n) = some n := by
  revert n
  decide

theorem letter_plain (n : Fin 64) : letter n ≠ '=' ∧ isSpace (letter n) = false := by
  revert n
  decide

theorem byte_eq {n : Nat} {a : UInt8} (h : n = a.toNat) : UInt8.ofNat n = a := by
  subst h
  exact UInt8.ofNat_toNat

theorem bytes_sextets (bs : List UInt8) : bytes (sextets bs) = bs := by
  induction bs using sextets.induct with
  | case1 a b c rest ih =>
    have ha := a.toNat_lt
    have hb := b.toNat_lt
    have hc := c.toNat_lt
    simp only [sextets, bytes, ih, Fin.val_ofNat, List.cons.injEq, and_true]
    refine ⟨byte_eq ?_, byte_eq ?_, byte_eq ?_⟩ <;> omega
  | case2 a b =>
    have ha := a.toNat_lt
    have hb := b.toNat_lt
    simp only [sextets, bytes, Fin.val_ofNat, List.cons.injEq, and_true]
    refine ⟨byte_eq ?_, byte_eq ?_⟩ <;> omega
  | case3 a =>
    have ha := a.toNat_lt
    simp only [sextets, bytes, Fin.val_ofNat, List.cons.injEq, and_true]
    exact byte_eq (by omega)
  | case4 => rfl

theorem length_sextets (bs : List UInt8) :
    (sextets bs).length + (3 - bs.length % 3) % 3 = 4 * ((bs.length + 2) / 3) := by
  induction bs using sextets.induct with
  | case1 a b c rest ih =>
    simp only [sextets, List.length_cons]
    omega
  | case2 a b => simp [sextets]
  | case3 a => simp [sextets]
  | case4 => rfl

theorem mapM_letters (ns : List (Fin 64)) : (ns.map letter).mapM value = some ns := by
  induction ns with
  | nil => rfl
  | cons n ns ih => simp [List.mapM_cons, value_letter, ih]

/-- The padding of a text of full groups is dropped. -/
theorem dropPadding_letters {ns : List (Fin 64)} {n : Nat} (hn : n < 3)
    (hlen : (ns.length + n) % 4 = 0) :
    dropPadding (ns.map letter ++ List.replicate n '=') = ns.map letter := by
  have hmod : (ns.map letter ++ List.replicate n '=').length % 4 = 0 := by
    simpa using hlen
  rw [dropPadding, if_pos hmod]
  rcases List.eq_nil_or_concat ns with rfl | ⟨ns', last, rfl⟩
  · -- no letters: a padding alone does not fill a group
    have hzero : n = 0 := by simp only [List.length_nil] at hlen; omega
    subst hzero
    rfl
  · have hlast : (List.map letter (ns'.concat last)).reverse =
        letter last :: (ns'.map letter).reverse := by simp
    rw [List.reverse_append, hlast, List.reverse_replicate]
    have hne := (letter_plain last).1
    obtain rfl | rfl | rfl : n = 0 ∨ n = 1 ∨ n = 2 := by omega
    · simp only [List.replicate_zero, List.nil_append, List.append_nil]
      split
      · next rest heq => exact absurd (List.cons.inj heq).1 hne
      · next rest _ heq => exact absurd (List.cons.inj heq).1 hne
      · rfl
    · simp only [List.replicate_one, List.singleton_append]
      split
      · next rest heq =>
        exact absurd (List.cons.inj (List.cons.inj heq).2).1 hne
      · next rest _ heq =>
        rw [← (List.cons.inj heq).2]
        simp
      · next h => exact absurd rfl (h _)
    · simp only [List.replicate_succ, List.replicate_zero, List.cons_append, List.nil_append]
      simp

/-- What was encoded is decoded. -/
theorem decode_encode (bs : List UInt8) : decode (encode bs) = some bs := by
  have hplain : (encode bs).filter (fun c => !isSpace c) = encode bs := by
    rw [List.filter_eq_self]
    intro c hc
    rcases List.mem_append.1 hc with hletter | hpad
    · obtain ⟨n, -, rfl⟩ := List.mem_map.1 hletter
      rw [(letter_plain n).2]
      rfl
    · rw [List.eq_of_mem_replicate hpad]
      rfl
  have hlen := length_sextets bs
  have hdrop : dropPadding (encode bs) = (sextets bs).map letter :=
    dropPadding_letters (Nat.mod_lt _ (by decide)) (by omega)
  have hsize : ((sextets bs).map letter).length % 4 ≠ 1 := by
    rw [List.length_map]
    omega
  rw [decode, hplain, hdrop, if_neg hsize, mapM_letters, Option.map_some, bytes_sextets]

/-- No letter is white space, so an encoded text is one word. -/
theorem encode_plain (bs : List UInt8) {space : Char → Bool} (hpad : space '=' = false)
    (hletter : ∀ n, space (letter n) = false) : ∀ c ∈ encode bs, space c = false := by
  intro c hc
  rcases List.mem_append.1 hc with hin | hin
  · obtain ⟨n, -, rfl⟩ := List.mem_map.1 hin
    exact hletter n
  · rw [List.eq_of_mem_replicate hin]
    exact hpad

end Watukuy.Library.Base64
