/-
  Bits/Checked.lean --- bit fields with widths and texts that may make no sense.

  A width given from outside may be negative, and a text need not be made of
  binary digits.  The functions here answer `none` in such a case and agree
  with those on well-formed fields in every other.
-/
import PocketAsm.Bits.Basic

set_option autoImplicit false

namespace PocketAsm.Bits

/-- The width of a field, if there is such a field: a signed one has at least its sign bit. -/
def width? (width : Int) (signed : Bool) : Option Nat :=
  if (if signed then 1 else 0) ≤ width then some width.toNat else none

/-- The range of a field of any width. -/
def range? (width : Int) (signed : Bool) : Option (Int × Int) :=
  (width? width signed).map (range · signed)

/-- The value in a field of any width. -/
def encode? (value width : Int) (signed : Bool) : Option (Except Fault Bits) :=
  (width? width signed).map (encode value · signed)

/-- The value in an operand field of any width. -/
def encodeField? (value width : Int) (signed : Bool) : Option (Except Fault Bits) :=
  encode? value width (signed || value < 0)

/-- The low bits of a value, read in two's complement; there has to be a sign bit. -/
def signExtend? (value width : Int) : Option Int := (width? width true).map (signExtend value)

/-- The value of a numeral in binary digits; a signed one that begins with the digit one is
negative. -/
def readField? (s : String) (signed : Bool) : Option Int :=
  match Text.readInt 2 s with
  | none => none
  | some n => some (if signed && s.toList.head? == some '1' then n - span s.length else n)

/-- The values of the words a text of binary digits is cut into.  A size of zero is refused, and
below zero there are no words. -/
def readWords? (s : String) (size : Int) : Option (List Int) :=
  if size = 0 then none
  else if size < 0 then some []
  else (pieces size.toNat s.toList).mapM fun piece => Text.readInt 2 (String.ofList piece)

end PocketAsm.Bits
