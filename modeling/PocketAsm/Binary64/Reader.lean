/-
  Binary64/Reader.lean --- floating-point numbers from text.

  A numeral may stand between white space and carry a sign.  It has digits
  before or after the point, single underscores between digits, and perhaps an
  exponent; the words for infinity and for no number count too.
-/
import PocketAsm.Binary64.Basic
import PocketAsm.Text.Letter
import PocketAsm.Text.Numeral

set_option autoImplicit false

namespace PocketAsm.Binary64

/-- The digits at the front, with single underscores between them, and what follows. -/
def spanDigits : List Char → List Char → List Char × List Char
  | acc, [] => (acc.reverse, [])
  | acc, c :: cs =>
    if c.isDigit then spanDigits (c :: acc) cs
    else
      match acc, cs with
      | _ :: _, d :: ds =>
        if c = '_' ∧ d.isDigit then spanDigits (d :: acc) ds else (acc.reverse, c :: cs)
      | _, _ => (acc.reverse, c :: cs)

/-- The value of decimal digits. -/
def valueOf (ds : List Char) : Nat := ds.foldl (fun acc d => acc * 10 + (d.toNat - 48)) 0

/-- The exponent that ends a numeral; no text is the exponent zero. -/
def exponent? : List Char → Option Int
  | [] => some 0
  | c :: cs =>
    if c = 'e' ∨ c = 'E' then
      let (negative, cs) :=
        match cs with
        | '-' :: r => (true, r)
        | '+' :: r => (false, r)
        | r => (false, r)
      match spanDigits [] cs with
      | ([], _) => none
      | (ds, []) => some (signed negative (valueOf ds))
      | _ => none
    else none

/-- A number without its sign. -/
def magnitude? (negative : Bool) (cs : List Char) : Option Binary64 :=
  let word := String.ofList (cs.map Char.toLower)
  if word = "inf" ∨ word = "infinity" then some (.infinite negative)
  else if word = "nan" then some .nan
  else
    let (whole, rest) := spanDigits [] cs
    let (fraction, rest) :=
      match rest with
      | '.' :: r => spanDigits [] r
      | r => ([], r)
    if whole.isEmpty && fraction.isEmpty then none
    else
      (exponent? rest).map fun e =>
        ofDecimal negative (valueOf (whole ++ fraction)) (e - fraction.length)

/-- The number a text holds. -/
def read? (s : String) : Option Binary64 :=
  match (Text.trim Text.isMargin s.toList).map Text.asciiDigit with
  | '-' :: cs => magnitude? true cs
  | '+' :: cs => magnitude? false cs
  | cs => magnitude? false cs

end PocketAsm.Binary64
