/-
  Isa/Operand.lean --- what operands look like in the dialects with marked numbers.

  An operand is a number with one of the marks of the dialect, a name, or a
  pair of those with a sign between them, in parentheses.
-/
import PocketAsm.Dialect

set_option autoImplicit false

namespace PocketAsm.Operand

/-- The characters of a name: letters, digits, underscore and minus sign. -/
def isNameChar (c : Char) : Bool :=
  Text.isLetter c || Text.isDigit c || c == '_' || c == '-'

/-- An optional minus sign. -/
def minus : Pattern := .opt (.letter '-')

/-- A number with the given mark. -/
def number (m : RadixMark) : Pattern :=
  .all [minus, .all (m.mark.map .letter), if m.innerSign then minus else .empty,
    .one (RadixMark.isDigit m.radix), .many fun c => RadixMark.isDigit m.radix c || c == '_']

/-- One of several patterns before another one. -/
def orElse : List Pattern → Pattern → Pattern
  | [], last => last
  | p :: ps, last => .alt p (orElse ps last)

/-- A number of the dialect or a name. -/
def atom (numbers : NumberSyntax) : Pattern :=
  orElse (numbers.marks.map number) (.oneOrMore isNameChar)

/-- A plus or minus sign with blanks around it. -/
def sign : Pattern := .all [.optSpace, .one fun c => c == '+' || c == '-', .optSpace]

/-- Two operands with a sign between them, in parentheses. -/
def pair (atom : Pattern) : Pattern := .all [.letter '(', atom, sign, atom, .letter ')']

/-- A number, a name, or a pair of those. -/
def value (numbers : NumberSyntax) : Pattern := .alt (atom numbers) (pair (atom numbers))

/-- Fixed bits, written as binary digits. -/
def code (digits : String) : Field := .bits (Bits.ofText digits)

end PocketAsm.Operand
