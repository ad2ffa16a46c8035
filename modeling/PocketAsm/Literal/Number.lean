/-
  Literal/Number.lean --- number literals.

  Each dialect spells numbers its own way: it has marks for the radices, and
  the empty mark is that of decimal numbers.  A minus sign may precede the
  mark, and in some dialects also follow it; underscores may stand among the
  digits after the first one.  A decimal number with too many digits is not
  read.
-/
import PocketAsm.Fault
import PocketAsm.Text.Letter
import PocketAsm.Text.Numeral

set_option autoImplicit false

namespace PocketAsm

/-- How numbers of one radix are marked. -/
structure RadixMark where
  /-- what precedes the digits -/
  mark : List Char
  /-- the radix -/
  radix : Nat
  /-- whether a minus sign may stand between mark and digits -/
  innerSign : Bool
  deriving DecidableEq, Repr, Inhabited

/-- The spelling of numbers in one dialect. -/
structure NumberSyntax where
  name : String
  marks : List RadixMark
  deriving DecidableEq, Repr, Inhabited

namespace RadixMark

/-- Whether a minus sign stands at the front, and what follows it. -/
def takeMinus : List Char → Bool × List Char
  | '-' :: cs => (true, cs)
  | cs => (false, cs)

/-- What follows a mark, in either case, at the front of a text. -/
def dropMark : List Char → List Char → Option (List Char)
  | [], cs => some cs
  | _ :: _, [] => none
  | m :: ms, c :: cs => if Text.sameLetter m c then dropMark ms cs else none

/-- A digit of the radix. -/
def isDigit (radix : Nat) (c : Char) : Bool := (Text.digitIn? radix c).isSome

/-- The value of the digits in a text; whatever is no digit is passed over. -/
def digitsValue (radix : Nat) (cs : List Char) : Nat :=
  (cs.filterMap (Text.digitIn? radix)).foldl (fun acc d => acc * radix + d) 0

/-- The digits of a literal: one digit, then digits and underscores. -/
def magnitude? (radix : Nat) : List Char → Option Nat
  | [] => none
  | c :: cs =>
    if isDigit radix c && cs.all (fun d => isDigit radix d || d == '_') then
      some (digitsValue radix (c :: cs))
    else none

/-- The value of a literal with this mark. -/
def read? (m : RadixMark) (cs : List Char) : Option Int :=
  let (outer, cs) := takeMinus cs
  match dropMark m.mark cs with
  | none => none
  | some cs =>
    let (inner, cs) := if m.innerSign then takeMinus cs else (false, cs)
    match magnitude? m.radix cs with
    | none => none
    | some n => some (if outer != inner then -(n : Int) else n)

end RadixMark

namespace NumberSyntax

/-- The value of a number literal, or `none` if the text is no number of the dialect. -/
def parse? (spelling : NumberSyntax) (text : String) : Option Int :=
  spelling.marks.findSome? fun m => m.read? text.toList

/-- The text is a number of the dialect with more digits than are read. -/
def isOverlong (spelling : NumberSyntax) (text : String) : Bool :=
  let digits := (RadixMark.takeMinus text.toList).2
  Text.isOverlong 10 digits &&
    spelling.marks.any fun m => m.radix == 10 && (m.read? text.toList).isSome

/-- The value of a number literal with as many digits as are read, or `none` if the text is no
number of the dialect. -/
def read (spelling : NumberSyntax) (text : String) : Except Fault (Option Int) :=
  if spelling.isOverlong text then
    .error (.longNumber (Text.digitCount (RadixMark.takeMinus text.toList).2))
  else .ok (spelling.parse? text)

/-- Hexadecimal `$`, binary `%`, octal `@` and decimal numbers; the sign may follow the mark. -/
def dollar : NumberSyntax :=
  ⟨"dollar", [⟨['$'], 16, true⟩, ⟨['%'], 2, true⟩, ⟨['@'], 8, true⟩, ⟨[], 10, false⟩]⟩

/-- Hexadecimal `$`, binary `%` and decimal numbers; the sign may follow the mark. -/
def lodestar : NumberSyntax :=
  ⟨"lodestar", [⟨['$'], 16, true⟩, ⟨['%'], 2, true⟩, ⟨[], 10, false⟩]⟩

/-- Hexadecimal `0x`, binary `0b`, octal `0o` and decimal numbers. -/
def zeroMarked : NumberSyntax :=
  ⟨"c", [⟨['0', 'x'], 16, false⟩, ⟨['0', 'b'], 2, false⟩, ⟨['0', 'o'], 8, false⟩,
    ⟨[], 10, false⟩]⟩

end NumberSyntax

end PocketAsm
