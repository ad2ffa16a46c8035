/-
  Isa/Parva/Register.lean --- the registers of the Parva.

  There are eight basic registers, each with a number and an alias.  Special
  registers can only be read, where an instruction has four bits for a
  register.  A double register is an aligned pair of basic ones.
-/
import PocketAsm.Bits.Basic
import PocketAsm.Text.LowerCase

set_option autoImplicit false

namespace PocketAsm.Parva

/-- The bits of a machine word. -/
def wordSize : Nat := 24

/-- The basic registers with their codes. -/
def basicRegisters : List (String × Nat) :=
  [("x0", 0), ("ra", 0), ("x1", 1), ("sp", 1), ("x2", 2), ("bp", 2), ("x3", 3), ("s0", 3),
   ("x4", 4), ("t0", 4), ("x5", 5), ("t1", 5), ("x6", 6), ("a0", 6), ("x7", 7), ("a1", 7)]

/-- The special registers with their codes. -/
def specialRegisters : List (String × Nat) := [("zero", 8), ("pc", 9), ("cycle", 10), ("upper", 11)]

/-- The double registers with the codes of their first halves. -/
def doubleRegisters : List (String × Nat) := [("x01", 0), ("x23", 2), ("x45", 4), ("x67", 6)]

/-- The names of all registers. -/
def registerNames : List String :=
  (basicRegisters ++ specialRegisters ++ doubleRegisters).map (·.1)

/-- The text names a register, in either case. -/
def isRegister (name : String) : Bool := registerNames.contains (Text.lower name)

/-- The three bits of a basic register. -/
def basic (written : String) : Except Fault Bits :=
  let name := Text.lower written
  match List.lookup name basicRegisters with
  | some n => .ok (Bits.ofNat 3 n)
  | none =>
    if (List.lookup name specialRegisters).isSome then .error (.specialRegister name)
    else if (List.lookup name doubleRegisters).isSome then .error (.doubleRegister name)
    else .error (.notRegister name)

/-- The four bits of a basic or special register. -/
def single (written : String) : Except Fault Bits :=
  let name := Text.lower written
  match List.lookup name (basicRegisters ++ specialRegisters) with
  | some n => .ok (Bits.ofNat 4 n)
  | none =>
    if (List.lookup name doubleRegisters).isSome then .error (.doubleRegister name)
    else .error (.notRegister name)

/-- The three bits of a double register. -/
def double (written : String) : Except Fault Bits :=
  let name := Text.lower written
  match List.lookup name doubleRegisters with
  | some n => .ok (Bits.ofNat 3 n)
  | none =>
    if (List.lookup name (basicRegisters ++ specialRegisters)).isSome then
      .error (.wordRegister name)
    else .error (.notRegister name)

end PocketAsm.Parva
