/-
  Json/Integer.lean --- JSON values taken as integers.

  Truth values count as one and zero, a number loses its fraction and a text
  is read as an integer.
-/
import PocketAsm.Fault
import PocketAsm.Json.Basic
import PocketAsm.Text.Numeral

set_option autoImplicit false

namespace PocketAsm.Json

/-- The integer that a value stands for. -/
def integer : Json → Except NumberFault Int
  | .bool b => .ok (if b then 1 else 0)
  | .int n => .ok n
  | .real x =>
    match x.truncate? with
    | some n => .ok n
    | none => .error (if x = .nan then .notNumber else .overflow)
  | .str s =>
    match s.string?.bind (Text.readInt 10) with
    | some n => .ok n
    | none => .error .notNumber
  | _ => .error .notNumber

end PocketAsm.Json
