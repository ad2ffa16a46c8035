/-
  Json/Basic.lean --- JSON values.

  Integers and floating-point numbers are kept apart, because messages show
  the difference, and an object keeps its members in the order of their first
  appearance.
-/
import PocketAsm.Binary64.Basic
import PocketAsm.Text.CodePoint

set_option autoImplicit false

namespace PocketAsm

/-- A JSON value. -/
inductive Json where
  | null
  | bool (b : Bool)
  | int (n : Int)
  | real (x : Binary64)
  | str (s : WideText)
  | arr (items : List Json)
  | obj (members : List (WideText × Json))
  deriving Repr, Inhabited

namespace Json

/-- The members of an object. -/
abbrev Members : Type := List (WideText × Json)

/-- Sets a member: a new key goes to the end, a known one keeps its place and loses its value. -/
def put (key : WideText) (value : Json) : Members → Members
  | [] => [(key, value)]
  | (k, v) :: rest => if k = key then (k, value) :: rest else (k, v) :: put key value rest

/-- The member of an object with the given key. -/
def member? (key : WideText) (members : Members) : Option Json :=
  (members.find? (·.1 = key)).map (·.2)

/-- The member of a value with the given key, if the value is an object that has it. -/
def field? (key : WideText) : Json → Option Json
  | .obj members => member? key members
  | _ => none

/-- The characters of a string, if the value is one without halves. -/
def string? : Json → Option String
  | .str s => s.string?
  | _ => none

theorem member?_put (key : WideText) (value : Json) (members : Members) :
    member? key (put key value members) = some value := by
  induction members with
  | nil => simp [put, member?]
  | cons m rest ih =>
    obtain ⟨k, v⟩ := m
    by_cases h : k = key
    · simp [put, member?, h]
    · simp only [put, h, if_false]
      simpa [member?, h] using ih

end Json

end PocketAsm
