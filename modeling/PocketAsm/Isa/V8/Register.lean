/-
  Isa/V8/Register.lean --- the registers of the V8.

  Eight registers of eight bits; the accumulator is A.  A register takes three
  bits of an instruction.
-/
import PocketAsm.Bits.Basic
import PocketAsm.Text.Letter

set_option autoImplicit false

namespace PocketAsm.V8

/-- The names of the registers, each at the place of its code. -/
def registerNames : List String := ["A", "B", "C", "D", "E", "F", "X", "Y"]

/-- The code of the register with the given name, in either case. -/
def registerCode? (name : String) : Option Nat :=
  registerNames.findIdx? (· == Text.upperAscii name)

/-- A letter that names a register. -/
def isRegisterLetter (c : Char) : Bool :=
  Text.isLetterIn 'a' 'f' c || Text.isLetterIn 'x' 'y' c

/-- The field of a register. -/
def registerBits (name : String) : Except Fault Bits :=
  match registerCode? name with
  | some n => .ok (Bits.ofNat 3 n)
  | none => .error (.notRegister name)

end PocketAsm.V8
