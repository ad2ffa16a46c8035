/-
  Text/CodePoint.lean --- texts that may hold half of a surrogate pair.

  Two surrogate halves, a high one and then a low one, are one character.  A
  half that stands alone is no character, but JSON text may name one and bytes
  may hold one.  A `WideText` keeps such halves beside the characters.  It is a
  `String` exactly if it holds none of them; only then it has an encoding in
  UTF-8.
-/
import PocketAsm.Text.Numeral

set_option autoImplicit false

namespace PocketAsm

/-! ## Code points -/

/-- A code point: a character, or half of a surrogate pair that stands alone. -/
inductive CodePoint where
  | char (c : Char)
  | half (unit : Nat) (isHalf : 0xD800 ≤ unit ∧ unit < 0xE000)
  deriving DecidableEq, Repr

namespace CodePoint

instance : Inhabited CodePoint := ⟨.char 'A'⟩

/-- The first half of a pair. -/
def isHighHalf (n : Nat) : Bool := 0xD800 ≤ n && n < 0xDC00

/-- The second half of a pair. -/
def isLowHalf (n : Nat) : Bool := 0xDC00 ≤ n && n < 0xE000

/-- The code point with a given number. -/
def ofNat (n : Nat) : CodePoint :=
  if h : 0xD800 ≤ n ∧ n < 0xE000 then .half n h else .char (Char.ofNat n)

/-- The character of a pair. -/
def ofPair (high low : Nat) : CodePoint :=
  ofNat (0x10000 + (high - 0xD800) * 1024 + (low - 0xDC00))

/-- The code points of UTF-16 code units. -/
def ofUnits : List Nat → List CodePoint
  | [] => []
  | [u] => [ofNat u]
  | u :: v :: rest =>
    if isHighHalf u && isLowHalf v then ofPair u v :: ofUnits rest
    else ofNat u :: ofUnits (v :: rest)

/-- The character that a code point is. -/
def char? : CodePoint → Option Char
  | .char c => some c
  | .half .. => none

/-- The code point is a character of a class. -/
def isIn (kind : Char → Bool) : CodePoint → Bool
  | .char c => kind c
  | .half .. => false

/-- The escape of a code unit. -/
def unitEscape (n : Nat) : List Char := '\\' :: 'u' :: (Text.hex 4 n).toList

/-- A code point in characters: a half is written as the escape of its code unit. -/
def spell : CodePoint → List Char
  | .char c => [c]
  | .half unit _ => unitEscape unit

theorem char?_ofNat_of_half (n : Nat) (h : 0xD800 ≤ n ∧ n < 0xE000) : (ofNat n).char? = none := by
  simp [ofNat, h, char?]

end CodePoint

/-! ## Texts -/

/-- A text that may hold halves of surrogate pairs. -/
structure WideText where
  points : List CodePoint
  deriving DecidableEq, Repr, Inhabited

namespace WideText

/-- The code points of a string are its characters. -/
def ofString (s : String) : WideText := ⟨s.toList.map .char⟩

instance : Coe String WideText := ⟨ofString⟩

/-- One text after the other. -/
def append (t u : WideText) : WideText := ⟨t.points ++ u.points⟩

instance : Append WideText := ⟨append⟩

/-- The text has no code points. -/
def isEmpty (t : WideText) : Bool := t.points.isEmpty

/-- The text as a string, if it holds no half. -/
def string? (t : WideText) : Option String := (t.points.mapM CodePoint.char?).map String.ofList

/-- The text with an escape for each half. -/
def spelled (t : WideText) : String := String.ofList (t.points.flatMap CodePoint.spell)

@[simp]
theorem points_append (t u : WideText) : (t ++ u).points = t.points ++ u.points := rfl

theorem mapM_char? (cs : List Char) :
    (cs.map CodePoint.char).mapM CodePoint.char? = some cs := by
  induction cs with
  | nil => rfl
  | cons c cs ih => simp [CodePoint.char?, ih]

@[simp]
theorem string?_ofString (s : String) : (ofString s).string? = some s := by
  rw [string?, ofString, mapM_char?]
  simp

@[simp]
theorem spelled_ofString (s : String) : (ofString s).spelled = s := by
  have h : (s.toList.map CodePoint.char).flatMap CodePoint.spell = s.toList := by
    induction s.toList with
    | nil => rfl
    | cons c cs ih => simpa [CodePoint.spell] using ih
  simp [spelled, ofString, h]

end WideText

end PocketAsm
