/-
  Text/Letter.lean --- letters compared without regard to case.

  Mnemonics and register names match in either case.  The comparison goes by
  simple case folding over all of Unicode, so four characters outside ASCII
  fold onto ASCII letters: the long s, the Kelvin sign, the dotted capital I
  and the dotless small i.
-/

set_option autoImplicit false

namespace PocketAsm.Text

/-- The lower-case ASCII letter, digit or sign that a character folds onto; a character that folds
onto none stands for itself. -/
def foldLetter (c : Char) : Char :=
  if c.toNat = 0x17F then 's'
  else if c.toNat = 0x212A then 'k'
  else if c.toNat = 0x130 then 'i'
  else if c.toNat = 0x131 then 'i'
  else c.toLower

/-- Two characters are the same letter up to case. -/
def sameLetter (a b : Char) : Bool := foldLetter a == foldLetter b

/-- A letter of the Latin alphabet in either case. -/
def isLetter (c : Char) : Bool := 'a' ≤ foldLetter c && foldLetter c ≤ 'z'

/-- A letter between two given ones, in either case. -/
def isLetterIn (lo hi : Char) (c : Char) : Bool := lo ≤ foldLetter c && foldLetter c ≤ hi

/-- A decimal digit of ASCII. -/
def isDigit (c : Char) : Bool := '0' ≤ c && c ≤ '9'

/-- A text with its ASCII letters in upper case. -/
def upperAscii (s : String) : String := s.map Char.toUpper

end PocketAsm.Text
