/-
  Text/Numeral.lean --- integers as text.

  Writing: the digits of a number in a radix, filled up on the left to a width.
  Reading: the integers that the environment, the command line and a status
  report may hold.  They may stand between white space, carry a sign, use the
  digits of any script and set digits apart by single underscores; with a radix
  other than ten the customary mark of the radix may precede the digits.  A
  decimal numeral has a limited number of digits, whoever reads or writes it.
-/
import PocketAsm.Text.Blank
import PocketAsm.Text.DecimalDigit

set_option autoImplicit false

namespace PocketAsm.Text

/-! ## The limit -/

/-- The most digits of a decimal numeral, zeros at the front included. -/
def maxDecimalDigits : Nat := 4300

/-- The least number with more decimal digits than are written. -/
def decimalBound : Nat := Nat.pow 10 maxDecimalDigits

/-- The integer can be written in decimal digits. -/
def isWritable (n : Int) : Bool := n.natAbs < decimalBound

/-- How many digits a numeral has; underscores do not count. -/
def digitCount (cs : List Char) : Nat := cs.countP (· != '_')

/-- The digits of a numeral are more than are read in the radix. -/
def isOverlong (radix : Nat) (cs : List Char) : Bool :=
  radix == 10 && maxDecimalDigits < digitCount cs

/-! ## Writing -/

/-- A text filled up on the left to a width. -/
def padLeft (width : Nat) (fill : Char) (s : String) : String :=
  String.ofList (List.replicate (width - s.length) fill ++ s.toList)

/-- A text filled up on the right to a width. -/
def padRight (width : Nat) (fill : Char) (s : String) : String :=
  String.ofList (s.toList ++ List.replicate (width - s.length) fill)

/-- The digits of a number in a radix, at least as many as the width asks for. -/
def inRadix (radix width n : Nat) : String :=
  padLeft width '0' (String.ofList (Nat.toDigits radix n))

/-- A number in hexadecimal digits, at least `width` of them. -/
def hex (width n : Nat) : String := inRadix 16 width n

/-- A number in binary digits, at least `width` of them. -/
def binary (width n : Nat) : String := inRadix 2 width n

/-- An integer with its sign, the mark `0x` and at least `width` hexadecimal digits. -/
def markedHex (width : Nat) (n : Int) : String :=
  (if n < 0 then "-" else "") ++ "0x" ++ hex (if n < 0 then width - 1 else width) n.natAbs

/-! ## Reading -/

/-- The value of an ASCII digit or letter as a digit of the radix. -/
def digitIn? (radix : Nat) (c : Char) : Option Nat :=
  let d :=
    if '0' ≤ c ∧ c ≤ '9' then c.toNat - 48
    else if 'a' ≤ c ∧ c ≤ 'z' then c.toNat - 87
    else if 'A' ≤ c ∧ c ≤ 'Z' then c.toNat - 55
    else radix
  if d < radix then some d else none

/-- The digits that go on a number already read: each is a digit of the radix, and an underscore
stands only between two digits. -/
def moreDigits (radix : Nat) : Nat → List Char → Option Nat
  | acc, [] => some acc
  | acc, [c] => (digitIn? radix c).map (acc * radix + ·)
  | acc, c :: d :: cs =>
    if c = '_' then
      match digitIn? radix d with
      | none => none
      | some n => moreDigits radix (acc * radix + n) cs
    else
      match digitIn? radix c with
      | none => none
      | some n => moreDigits radix (acc * radix + n) (d :: cs)

/-- A number written with digits of the radix, at least one and not too many. -/
def readDigits (radix : Nat) : List Char → Option Nat
  | [] => none
  | c :: cs =>
    if isOverlong radix (c :: cs) then none
    else
      match digitIn? radix c with
      | none => none
      | some n => moreDigits radix n cs

/-- The white space around an integer: that of Unicode without the information separators. -/
def isMargin (c : Char) : Bool := isBlank c && !(28 ≤ c.toNat && c.toNat ≤ 31)

/-- A decimal digit of any script as the ASCII digit of its value; every other character stands for
itself. -/
def asciiDigit (c : Char) : Char :=
  match decimalValue? c with
  | some n => Char.ofNat (48 + n)
  | none => c

/-- The radix that the mark letter after a zero stands for. -/
def radixOfMark? (c : Char) : Option Nat :=
  if c = 'x' ∨ c = 'X' then some 16
  else if c = 'o' ∨ c = 'O' then some 8
  else if c = 'b' ∨ c = 'B' then some 2
  else none

/-- The digits after a radix mark, which one underscore may set apart from it. -/
def afterMark (radix : Nat) : List Char → Option Nat
  | '_' :: cs => readDigits radix cs
  | cs => readDigits radix cs

/-- A number in a given radix; the mark of that radix may precede its digits. -/
def readMagnitude (radix : Nat) (cs : List Char) : Option Nat :=
  match cs with
  | '0' :: m :: rest =>
    if radixOfMark? m = some radix then afterMark radix rest else readDigits radix cs
  | _ => readDigits radix cs

/-- A number whose mark tells its radix; without a mark it is decimal, and then only zero may begin
with the digit zero. -/
def readMarked (cs : List Char) : Option Nat :=
  match cs with
  | '0' :: m :: rest =>
    match radixOfMark? m with
    | some radix => afterMark radix rest
    | none => (readDigits 10 cs).filter (· == 0)
  | _ => readDigits 10 cs

/-- An integer: what stands between the margins, with an optional sign before the magnitude. -/
def readSigned (magnitude : List Char → Option Nat) (s : String) : Option Int :=
  match (trim isMargin s.toList).map asciiDigit with
  | '-' :: cs => (magnitude cs).map fun n => -(n : Int)
  | '+' :: cs => (magnitude cs).map Int.ofNat
  | cs => (magnitude cs).map Int.ofNat

/-- The integer a text holds in the given radix. -/
def readInt (radix : Nat) (s : String) : Option Int := readSigned (readMagnitude radix) s

/-- The integer a text holds, in the radix its mark tells. -/
def readMarkedInt (s : String) : Option Int := readSigned readMarked s

end PocketAsm.Text
