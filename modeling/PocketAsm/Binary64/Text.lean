/-
  Binary64/Text.lean --- floating-point numbers as text.

  Two forms are written.  Fixed places: the exact value, rounded to the nearest
  decimal with so many places, a tie to the even digit.  Shortest: the fewest
  digits that read back as the number, and of those the ones nearest to it.
-/
import PocketAsm.Binary64.Basic
import PocketAsm.Text.Numeral

set_option autoImplicit false

namespace PocketAsm.Binary64

/-! ## Fixed places -/

/-- The sign as text. -/
def signText (negative : Bool) : String := if negative then "-" else ""

/-- The decimal digits of a number, at least `width` of them. -/
def decimal (width n : Nat) : String := Text.inRadix 10 width n

/-- The exact value to so many decimal places, at least one. -/
def fixed (places : Nat) : Binary64 → String
  | .finite s m e =>
    let (n, d) := toRatio m e
    let unit := Nat.pow 10 places
    let q := roundDiv (n * unit) d
    signText s ++ decimal 1 (q / unit) ++ "." ++ decimal places (q % unit)
  | .infinite s => signText s ++ "inf"
  | .nan => "nan"

/-! ## Fewest digits -/

/-- The decimal numeral `digits * 10 ^ exponent`. -/
structure Numeral where
  digits : Nat
  exponent : Int
  deriving DecidableEq, Repr, Inhabited

/-- How `num / den * 10 ^ k` compares with one: the quotient as a pair of natural numbers. -/
def shifted (num den : Nat) (k : Int) : Nat × Nat :=
  if 0 ≤ k then (num * Nat.pow 10 k.toNat, den) else (num, den * Nat.pow 10 (-k).toNat)

/-- The number of digits before the decimal point of `num / den`; zero or less when the value is
below one. -/
def pointOf (num den : Nat) : Int :=
  let guess : Int := ((Nat.toDigits 10 num).length : Int) - (Nat.toDigits 10 den).length
  let (n, d) := shifted num den (-guess)
  if n < d then guess else guess + 1

/-- The numeral with `count` digits nearest to a number, if one of the two neighbours of the number
on that grid reads back as the number. -/
def withDigits? (m : Nat) (e : Int) (count : Nat) : Option Numeral :=
  let (num, den) := toRatio m e
  let unit := pointOf num den - count
  let (n, d) := shifted num den (-unit)
  let low := n / d
  let readsBack (k : Nat) : Bool := ofDecimal false k unit == .finite false m e
  let nearerHigh : Bool := d < 2 * (n % d) || (d == 2 * (n % d) && low % 2 == 1)
  let (first, second) := if nearerHigh then (low + 1, low) else (low, low + 1)
  if readsBack first then some ⟨first, unit⟩
  else if readsBack second then some ⟨second, unit⟩
  else none

/-- The first numeral that reads back, over growing numbers of digits; seventeen always suffice. -/
def shortestFrom (m : Nat) (e : Int) : Nat → Nat → Numeral
  | 0, count => (withDigits? m e count).getD ⟨0, 0⟩
  | left + 1, count =>
    match withDigits? m e count with
    | some numeral => numeral
    | none => shortestFrom m e left (count + 1)

/-- The fewest digits that read back as a number other than zero, with no zero at their end, and
how many places the decimal point stands after their front. -/
def shortestDigits (m : Nat) (e : Int) : List Char × Int :=
  let numeral := shortestFrom m e 16 1
  let ds := Nat.toDigits 10 numeral.digits
  (Text.trimRight (· == '0') ds, numeral.exponent + ds.length)

/-- Where positional notation ends and how an exponent is written. -/
structure Layout where
  /-- numbers with the point at or before this place have an exponent -/
  lowest : Int
  /-- numbers with the point after this place have an exponent -/
  highest : Int
  /-- the least number of digits of an exponent -/
  exponentWidth : Nat
  /-- the text of a positive infinity -/
  infinity : String
  /-- the text of what is no number -/
  notNumber : String

/-- Positional from a ten-thousandth to below ten thousand million million; whole numbers keep one
zero after the point. -/
def plain : Layout := ⟨-4, 16, 2, "inf", "nan"⟩

/-- The same with the names that data files use for what is not finite. -/
def dataText : Layout := ⟨-4, 16, 2, "Infinity", "NaN"⟩

/-- The digits laid out around the decimal point. -/
def layOut (l : Layout) (ds : List Char) (point : Int) : String :=
  if point ≤ l.lowest ∨ l.highest < point then
    let e := point - 1
    let mantissa :=
      match ds with
      | [d] => String.singleton d
      | d :: rest => String.singleton d ++ "." ++ String.ofList rest
      | [] => "0"
    mantissa ++ "e" ++ (if e < 0 then "-" else "+") ++ decimal l.exponentWidth e.natAbs
  else if point ≤ 0 then
    "0." ++ String.ofList (List.replicate (-point).toNat '0' ++ ds)
  else
    let k := point.toNat
    if ds.length ≤ k then String.ofList (ds ++ List.replicate (k - ds.length) '0') ++ ".0"
    else String.ofList (ds.take k) ++ "." ++ String.ofList (ds.drop k)

/-- The shortest text of a number in a layout. -/
def shortest (l : Layout) : Binary64 → String
  | .finite s m e =>
    if m = 0 then signText s ++ "0.0"
    else
      let (ds, point) := shortestDigits m e
      signText s ++ layOut l ds point
  | .infinite s => signText s ++ l.infinity
  | .nan => l.notNumber

end PocketAsm.Binary64
