/-
  Text/Quoted.lean --- text shown between quotes in messages.

  The quotes are single unless the text holds a single quote and no double
  one.  Line feed, carriage return and tab have short escapes; any other
  character without a visible form is written by its code point, and half of a
  pair by its code unit.
-/
import PocketAsm.Text.CodePoint
import PocketAsm.Text.Printable

set_option autoImplicit false

namespace PocketAsm.Text

/-- A character between quotes of the given kind. -/
def showChar (quote c : Char) : List Char :=
  let n := c.toNat
  if c = quote ∨ c = '\\' then ['\\', c]
  else if c = '\n' then ['\\', 'n']
  else if c = '\r' then ['\\', 'r']
  else if c = '\t' then ['\\', 't']
  else if isPrintable c then [c]
  else if n < 0x100 then '\\' :: 'x' :: (hex 2 n).toList
  else if n < 0x10000 then '\\' :: 'u' :: (hex 4 n).toList
  else '\\' :: 'U' :: (hex 8 n).toList

/-- A code point between quotes of the given kind. -/
def showPoint (quote : Char) : CodePoint → List Char
  | .char c => showChar quote c
  | .half unit _ => CodePoint.unitEscape unit

/-- The quote that a text is put between. -/
def quoteFor (ps : List CodePoint) : Char :=
  if ps.contains (.char '\x27') && !ps.contains (.char '\x22') then '\x22' else '\x27'

/-- A text between quotes. -/
def quoted (t : WideText) : String :=
  let q := quoteFor t.points
  String.ofList (q :: t.points.flatMap (showPoint q) ++ [q])

end PocketAsm.Text
