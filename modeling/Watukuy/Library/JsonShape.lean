import Watukuy.Library.Json

/-!
# Values as JSON

A `JsonShape` writes the values of a type as JSON and reads them back. Objects are put together from
`Fields` with distinct names; a reader looks its members up by name, in whatever order they stand.
-/

set_option autoImplicit false

namespace Watukuy.Library

structure JsonShape (N α : Type) where
  write : α → Json N
  read : Json N → Option α
  read_write : ∀ a, read (write a) = some a

namespace JsonShape

variable {N α β : Type}

def string : JsonShape N String where
  write := .string
  read
    | .string s => some s
    | _ => none
  read_write _ := rfl

def bool : JsonShape N Bool where
  write := .bool
  read
    | .bool b => some b
    | _ => none
  read_write _ := rfl

def number : JsonShape N N where
  write := .number
  read
    | .number n => some n
    | _ => none
  read_write _ := rfl

/-- The values of another type, one for each. -/
def as (s : JsonShape N α) (f : β → α) (g : α → Option β) (h : ∀ b, g (f b) = some b) :
    JsonShape N β where
  write b := s.write (f b)
  read j := (s.read j).bind g
  read_write b := by rw [s.read_write, Option.bind_some, h]

/-- A value or `null`. -/
def nullable (s : JsonShape N α) (h : ∀ a, s.write a ≠ .null) : JsonShape N (Option α) where
  write
    | none => .null
    | some a => s.write a
  read
    | .null => some none
    | j => (s.read j).map some
  read_write a := by
    cases a with
    | none => rfl
    | some a =>
      dsimp only
      split
      · next hnull => exact absurd hnull (h a)
      · rw [s.read_write]
        rfl

def array (s : JsonShape N α) : JsonShape N (List α) where
  write as := .array (as.map s.write)
  read
    | .array js => js.mapM s.read
    | _ => none
  read_write as := by
    induction as with
    | nil => rfl
    | cons a as ih =>
      simp only [List.map_cons, List.mapM_cons, s.read_write] at ih ⊢
      simp only [ih]
      rfl

end JsonShape

/-! ## Objects -/

/-- Members of an object, under these names, that make up a value. -/
structure Fields (N α : Type) (names : List String) where
  write : α → List (String × Json N)
  read : (String → Option (Json N)) → Option α
  named : ∀ a, ∀ m ∈ write a, m.1 ∈ names
  read_congr : ∀ f g, (∀ name ∈ names, f name = g name) → read f = read g
  read_write : ∀ a, read (fun name => (write a).lookup name) = some a

namespace Fields

variable {N α β : Type} {names others : List String}

def required (name : String) (s : JsonShape N α) : Fields N α [name] where
  write a := [(name, s.write a)]
  read f := (f name).bind s.read
  named a m hm := by
    obtain rfl := List.mem_singleton.1 hm
    exact List.mem_singleton_self _
  read_congr f g h := by rw [h name (List.mem_singleton_self _)]
  read_write a := by simp [s.read_write]

/-- A member that is left out for `none`. -/
def optional (name : String) (s : JsonShape N α) : Fields N (Option α) [name] where
  write
    | none => []
    | some a => [(name, s.write a)]
  read f :=
    match f name with
    | none => some none
    | some j => (s.read j).map some
  named a m hm := by
    cases a with
    | none => cases hm
    | some a =>
      obtain rfl := List.mem_singleton.1 hm
      exact List.mem_singleton_self _
  read_congr f g h := by simp only [h name (List.mem_singleton_self _)]
  read_write a := by
    cases a with
    | none => rfl
    | some a => simp [s.read_write]

theorem lookup_eq_none (F : Fields N α names) {name : String} (h : name ∉ names) (a : α) :
    (F.write a).lookup name = none := by
  rw [List.lookup_eq_none_iff]
  intro m hm
  rw [bne_iff_ne]
  rintro rfl
  exact h (F.named a m hm)

/-- The members of two values with no name in common. -/
def and (F : Fields N α names) (G : Fields N β others)
    (h : ∀ name ∈ names, name ∉ others := by decide) : Fields N (α × β) (names ++ others) where
  write x := F.write x.1 ++ G.write x.2
  read f := do return (← F.read f, ← G.read f)
  named x m hm := by
    rcases List.mem_append.1 hm with hm | hm
    · exact List.mem_append_left _ (F.named x.1 m hm)
    · exact List.mem_append_right _ (G.named x.2 m hm)
  read_congr f g hfg := by
    rw [F.read_congr f g fun name hname => hfg name (List.mem_append_left _ hname),
      G.read_congr f g fun name hname => hfg name (List.mem_append_right _ hname)]
  read_write x := by
    have hleft : F.read (fun name => (F.write x.1 ++ G.write x.2).lookup name) = some x.1 := by
      rw [← F.read_write x.1]
      refine F.read_congr _ _ fun name hname => ?_
      rw [List.lookup_append, G.lookup_eq_none (h name hname), Option.or_none]
    have hright : G.read (fun name => (F.write x.1 ++ G.write x.2).lookup name) = some x.2 := by
      rw [← G.read_write x.2]
      refine G.read_congr _ _ fun name hname => ?_
      rw [List.lookup_append, F.lookup_eq_none (fun hmem => h name hmem hname), Option.none_or]
    rw [hleft, hright]
    rfl

/-- An object of these members. -/
def object (F : Fields N α names) (f : β → α) (g : α → β) (h : ∀ b, g (f b) = b) : JsonShape N β where
  write b := .object (F.write (f b))
  read
    | .object members => (F.read fun name => members.lookup name).map g
    | _ => none
  read_write b := by
    simp only [F.read_write, Option.map_some, h]

end Fields

end Watukuy.Library
