/-
  Binary64/Checked.lean --- floating-point results that may not exist.

  An integer or a quotient of integers beyond the greatest finite number has
  no floating-point value, and neither has a division by zero.
-/
import PocketAsm.Binary64.Basic
import PocketAsm.Fault

set_option autoImplicit false

namespace PocketAsm.Binary64

/-- A result that has to be finite. -/
def finiteOnly (x : Binary64) : Except NumberFault Binary64 :=
  if x.isFinite then .ok x else .error .overflow

/-- An integer as a floating-point number. -/
def ofInteger (n : Int) : Except NumberFault Binary64 := finiteOnly (ofInt n)

/-- The quotient of two integers as a floating-point number. -/
def quotient (a b : Int) : Except NumberFault Binary64 :=
  if b = 0 then .error .divisionByZero
  else finiteOnly (ofRatio ((a < 0) != (b < 0)) a.natAbs b.natAbs)

/-- The least integer not below a number. -/
def ceiling : Binary64 → Except NumberFault Int
  | .nan => .error .notNumber
  | x =>
    match x.ceil? with
    | some n => .ok n
    | none => .error .overflow

end PocketAsm.Binary64
