/-
  Json/Reader.lean --- JSON text to values.

  The whole text has to be one value.  Beyond the standard the words `NaN`,
  `Infinity` and `-Infinity` are numbers; a numeral with a fraction or an
  exponent is a floating-point number and any other one an integer.  Control
  characters do not stand in strings, and of members with one key the last
  counts.  Arrays and objects stand inside one another down to a limit.  A
  reader takes what it needs off the front of the text and returns the rest.
-/
import PocketAsm.Json.Basic

set_option autoImplicit false

namespace PocketAsm

/-- Why a text gives no JSON value. -/
inductive JsonFault where
  /-- it is no JSON text -/
  | malformed
  /-- too many arrays and objects stand inside one another -/
  | tooDeep
  deriving DecidableEq, Repr, Inhabited

namespace Json

/-! ## White space, digits and strings -/

/-- The white space between the parts of a value. -/
def isSpace (c : Char) : Bool := c == ' ' || c == '\t' || c == '\n' || c == '\r'

/-- What follows the white space at the front. -/
def skipSpace (ps : List CodePoint) : List CodePoint := ps.dropWhile (·.isIn isSpace)

/-- What follows a given word at the front. -/
def after? (word : String) (ps : List CodePoint) : Option (List CodePoint) :=
  let points := (WideText.ofString word).points
  if points.isPrefixOf ps then some (ps.drop points.length) else none

/-- The digits at the front and what follows them. -/
def spanDigits (ps : List CodePoint) : List Char × List CodePoint :=
  ((ps.takeWhile (·.isIn Char.isDigit)).filterMap CodePoint.char?,
    ps.dropWhile (·.isIn Char.isDigit))

/-- The value of decimal digits. -/
def digitsValue (ds : List Char) : Nat := ds.foldl (fun acc d => acc * 10 + (d.toNat - 48)) 0

/-- The value of a hexadecimal digit. -/
def hexDigit? (p : CodePoint) : Option Nat := p.char?.bind (Text.digitIn? 16)

/-- The code unit that four hexadecimal digits stand for. -/
def codeUnit? : List CodePoint → Option (Nat × List CodePoint)
  | a :: b :: c :: d :: rest =>
    match hexDigit? a, hexDigit? b, hexDigit? c, hexDigit? d with
    | some a, some b, some c, some d => some (((a * 16 + b) * 16 + c) * 16 + d, rest)
    | _, _, _, _ => none
  | _ => none

/-- The low half of a surrogate pair, written as an escape at the front. -/
def lowHalf? : List CodePoint → Option (Nat × List CodePoint)
  | .char '\\' :: .char 'u' :: ps =>
    match codeUnit? ps with
    | some (n, rest) => if CodePoint.isLowHalf n then some (n, rest) else none
    | none => none
  | _ => none

/-- The code point of an escape by code units, after its mark. -/
def unitEscape? (ps : List CodePoint) : Option (CodePoint × List CodePoint) :=
  match codeUnit? ps with
  | none => none
  | some (n, rest) =>
    if CodePoint.isHighHalf n then
      match lowHalf? rest with
      | some (m, rest) => some (CodePoint.ofPair n m, rest)
      | none => some (CodePoint.ofNat n, rest)
    else some (CodePoint.ofNat n, rest)

/-- The character that a letter after the reverse solidus stands for. -/
def escaped? (c : Char) : Option Char :=
  if c = '\x22' ∨ c = '\\' ∨ c = '/' then some c
  else if c = 'b' then some '\x08'
  else if c = 'f' then some '\x0c'
  else if c = 'n' then some '\n'
  else if c = 'r' then some '\r'
  else if c = 't' then some '\t'
  else none

/-- The code point that an escape after the reverse solidus stands for. -/
def escape? : List CodePoint → Option (CodePoint × List CodePoint)
  | .char 'u' :: ps => unitEscape? ps
  | .char c :: ps => (escaped? c).map fun d => (.char d, ps)
  | _ => none

/-- The code point may stand in a string by itself. -/
def isPlain (p : CodePoint) : Bool := !p.isIn fun c => c.toNat < 32

/-- The rest of a string after its opening quote; every round takes a code point off the text. -/
def stringBody? : Nat → List CodePoint → List CodePoint → Option (WideText × List CodePoint)
  | 0, _, _ => none
  | _ + 1, _, [] => none
  | fuel + 1, acc, p :: ps =>
    if p = .char '\x22' then some (⟨acc.reverse⟩, ps)
    else if p = .char '\\' then
      match escape? ps with
      | none => none
      | some (q, rest) => stringBody? fuel (q :: acc) rest
    else if isPlain p then stringBody? fuel (p :: acc) ps
    else none

/-- A string after its opening quote. -/
def quoted? (ps : List CodePoint) : Option (WideText × List CodePoint) :=
  stringBody? (ps.length + 1) [] ps

/-! ## Numbers -/

/-- The fraction after the decimal point, if digits follow the point. -/
def fraction (ps : List CodePoint) : List Char × List CodePoint :=
  match ps with
  | .char '.' :: rest =>
    match spanDigits rest with
    | ([], _) => ([], ps)
    | (ds, rest) => (ds, rest)
  | _ => ([], ps)

/-- The sign of an exponent, if it has one. -/
def exponentSign : List CodePoint → Bool × List CodePoint
  | .char '-' :: rest => (true, rest)
  | .char '+' :: rest => (false, rest)
  | rest => (false, rest)

/-- The exponent, if digits follow its mark. -/
def exponent? (ps : List CodePoint) : Option (Int × List CodePoint) :=
  match ps with
  | p :: rest =>
    if p = .char 'e' ∨ p = .char 'E' then
      let (negative, rest) := exponentSign rest
      match spanDigits rest with
      | ([], _) => none
      | (ds, rest) => some (Binary64.signed negative (digitsValue ds), rest)
    else none
  | [] => none

/-- The integral part of a numeral: a zero alone, or digits that begin with another one. -/
def integral? (ps : List CodePoint) : Option (List Char × List CodePoint) :=
  match ps, spanDigits ps with
  | _, ([], _) => none
  | _ :: more, ('0' :: _, _) => some (['0'], more)
  | _, (ds, rest) => some (ds, rest)

/-- A numeral after its sign; an integer has a limited number of digits. -/
def numeral? (negative : Bool) (ps : List CodePoint) : Option (Json × List CodePoint) :=
  match integral? ps with
  | none => none
  | some (whole, rest) =>
    let (frac, rest) := fraction rest
    match frac, exponent? rest with
    | [], none =>
      if Text.isOverlong 10 whole then none
      else some (.int (Binary64.signed negative (digitsValue whole)), rest)
    | frac, none =>
      some (.real (Binary64.ofDecimal negative (digitsValue (whole ++ frac)) (-frac.length)), rest)
    | frac, some (e, rest) =>
      some (.real (Binary64.ofDecimal negative (digitsValue (whole ++ frac)) (e - frac.length)),
        rest)

/-- A number at the front. -/
def number? (ps : List CodePoint) : Option (Json × List CodePoint) :=
  match ps with
  | .char '-' :: rest =>
    match after? "Infinity" rest with
    | some rest => some (.real (.infinite true), rest)
    | none => numeral? true rest
  | _ => numeral? false ps

/-- One of the words that stand for a value. -/
def word? (ps : List CodePoint) : Option (Json × List CodePoint) :=
  match after? "null" ps with
  | some rest => some (.null, rest)
  | none =>
    match after? "true" ps with
    | some rest => some (.bool true, rest)
    | none =>
      match after? "false" ps with
      | some rest => some (.bool false, rest)
      | none =>
        match after? "NaN" ps with
        | some rest => some (.real .nan, rest)
        | none =>
          match after? "Infinity" ps with
          | some rest => some (.real (.infinite false), rest)
          | none => number? ps

/-! ## Values -/

/-- How many arrays and objects may stand inside one another. -/
def maxDepth : Nat := 985

/-- What was taken off the front, which has to be there. -/
def orMalformed (found : Option (Json × List CodePoint)) :
    Except JsonFault (Json × List CodePoint) :=
  match found with
  | some x => .ok x
  | none => .error .malformed

mutual

/-- A value at the front, in which so many further arrays and objects may stand inside one another.
The first argument bounds the number of rounds; twice the length of the text is enough. -/
def value : Nat → Nat → List CodePoint → Except JsonFault (Json × List CodePoint)
  | 0, _, _ => .error .malformed
  | fuel + 1, levels, ps =>
    match ps, levels with
    | .char '\x22' :: rest, _ => orMalformed ((quoted? rest).map fun (s, rest) => (.str s, rest))
    | .char '[' :: _, 0 | .char '\x7b' :: _, 0 => .error .tooDeep
    | .char '[' :: rest, levels + 1 =>
      match skipSpace rest with
      | .char ']' :: rest => .ok (.arr [], rest)
      | rest => items fuel levels [] rest
    | .char '\x7b' :: rest, levels + 1 =>
      match skipSpace rest with
      | .char '\x7d' :: rest => .ok (.obj [], rest)
      | rest => members fuel levels [] rest
    | _, _ => orMalformed (word? ps)

/-- The items of an array up to its end, after those already read, which come last one first. -/
def items : Nat → Nat → List Json → List CodePoint → Except JsonFault (Json × List CodePoint)
  | 0, _, _, _ => .error .malformed
  | fuel + 1, levels, acc, ps =>
    match value fuel levels ps with
    | .error e => .error e
    | .ok (v, rest) =>
      match skipSpace rest with
      | .char ',' :: rest => items fuel levels (v :: acc) (skipSpace rest)
      | .char ']' :: rest => .ok (.arr (v :: acc).reverse, rest)
      | _ => .error .malformed

/-- The members of an object up to its end, after those already read. -/
def members : Nat → Nat → Members → List CodePoint → Except JsonFault (Json × List CodePoint)
  | 0, _, _, _ => .error .malformed
  | fuel + 1, levels, acc, ps =>
    match ps with
    | .char '\x22' :: rest =>
      match quoted? rest with
      | none => .error .malformed
      | some (key, rest) =>
        match skipSpace rest with
        | .char ':' :: rest =>
          match value fuel levels (skipSpace rest) with
          | .error e => .error e
          | .ok (v, rest) =>
            match skipSpace rest with
            | .char ',' :: rest => members fuel levels (put key v acc) (skipSpace rest)
            | .char '\x7d' :: rest => .ok (.obj (put key v acc), rest)
            | _ => .error .malformed
        | _ => .error .malformed
    | _ => .error .malformed

end

/-- The value a text holds; nothing but white space may stand around it. -/
def parse (t : WideText) : Except JsonFault Json :=
  match value (2 * t.points.length + 2) maxDepth (skipSpace t.points) with
  | .ok (v, rest) => if (skipSpace rest).isEmpty then .ok v else .error .malformed
  | .error e => .error e

end Json

end PocketAsm
