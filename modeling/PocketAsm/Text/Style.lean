/-
  Text/Style.lean --- control codes for styled text on a terminal.

  A style begins with a code of its own and ends with the one that resets all
  styles.  On output that is no terminal the codes are removed.
-/
import PocketAsm.Text.CodePoint

set_option autoImplicit false

namespace PocketAsm.Text

/-- The code with the given number. -/
def styleCode (number : String) : String := "\x1b[" ++ number ++ "m"

/-- Bold text. -/
def bold : String := styleCode "1"

/-- Cyan text. -/
def cyan : String := styleCode "36"

/-- Green text. -/
def green : String := styleCode "32"

/-- A text in the style with the given code. -/
def styled (code text : String) : String := code ++ text ++ styleCode "0"

/-- A character among the parameters of a control code. -/
def isCodeParameter (c : Char) : Bool := '0' ≤ c && c ≤ '?'

/-- A character between the parameters of a control code and its end. -/
def isCodeMiddle (c : Char) : Bool := ' ' ≤ c && c ≤ '/'

/-- A character that ends a control code. -/
def isCodeEnd (c : Char) : Bool := '@' ≤ c && c ≤ '~'

/-- What follows a control code at the front of a text, after its opening. -/
def afterCode? (ps : List CodePoint) : Option (List CodePoint) :=
  match (ps.dropWhile (·.isIn isCodeParameter)).dropWhile (·.isIn isCodeMiddle) with
  | [] => none
  | p :: rest => if p.isIn isCodeEnd then some rest else none

/-- The code points of a text without its control codes, after those already kept, which come last
one first; every round takes a code point off the text. -/
def withoutCodes : Nat → List CodePoint → List CodePoint → List CodePoint
  | 0, kept, _ => kept.reverse
  | _ + 1, kept, [] => kept.reverse
  | fuel + 1, kept, p :: ps =>
    match p, ps with
    | .char '\x1b', .char '[' :: rest =>
      match afterCode? rest with
      | some rest => withoutCodes fuel kept rest
      | none => withoutCodes fuel (p :: kept) ps
    | _, _ => withoutCodes fuel (p :: kept) ps

/-- A text without control codes. -/
def unstyled (t : WideText) : WideText := ⟨withoutCodes (t.points.length + 1) [] t.points⟩

end PocketAsm.Text
