/-
  Symbols.lean --- symbols to values.

  After the first pass every label has its address.  An operand is a number, a
  label, a pair `(base+offset)` or `(base-offset)`, or a constant, and is tried
  as these in this order.  A relative operand is the distance of a label from
  the instruction; numbers, constants and offsets are never relative.
-/
import PocketAsm.Pattern
import PocketAsm.Program
import PocketAsm.Text.Similarity
import PocketAsm.Text.WordChar

set_option autoImplicit false

namespace PocketAsm

/-- What symbols are resolved by. -/
structure Symbols where
  numbers : NumberSyntax
  labels : SymbolTable
  constants : SymbolTable
  deriving DecidableEq, Repr, Inhabited

namespace Symbols

/-- The characters of the base and the offset of a pair. -/
def isPairChar (c : Char) : Bool :=
  Text.isWordChar c || c == '$' || c == '%' || c == '@' || c == '-'

/-- A pair: base, sign and offset in parentheses, with blanks around each; the base is as short as
possible. -/
def pairPattern : Pattern :=
  .all [.letter '(', .optSpace, .slot .a (.seq (.one isPairChar) (.few isPairChar)), .optSpace,
    .slot .s (.one fun c => c == '+' || c == '-'), .optSpace,
    .slot .b (.oneOrMore isPairChar), .optSpace, .letter ')']

/-- The fault of a name that is not defined, with the names like it. -/
def undefined (symbols : Symbols) (text : String) : Fault :=
  .undefined text
    (Text.closeMatches text (symbols.labels.map (·.1) ++ symbols.constants.map (·.1)))

/-- The value of a label, absolute or relative to an address. -/
def labelValue? (symbols : Symbols) (text : String) (origin : Int) (relative : Bool) : Option Int :=
  (List.lookup text symbols.labels).map fun address =>
    if relative then address - origin else address

/-- The value of an operand that is no pair. -/
def atom (symbols : Symbols) (text : String) (origin : Int) (relative : Bool) :
    Except Fault Int :=
  match symbols.numbers.read text with
  | .error e => .error e
  | .ok (some n) => .ok n
  | .ok none =>
    match symbols.labelValue? text origin relative with
    | some n => .ok n
    | none =>
      match List.lookup text symbols.constants with
      | some n => .ok n
      | none => .error (symbols.undefined text)

/-- The value of an operand. -/
def value (symbols : Symbols) (text : String) (origin : Int) (relative : Bool) :
    Except Fault Int :=
  match symbols.numbers.read text with
  | .error e => .error e
  | .ok (some n) => .ok n
  | .ok none =>
    match symbols.labelValue? text origin relative with
    | some n => .ok n
    | none =>
      match pairPattern.match? text.toList with
      | some caps =>
        match symbols.atom (caps.get .a) origin relative with
        | .error e => .error e
        | .ok base =>
          match symbols.atom (caps.get .b) origin false with
          | .error e => .error e
          | .ok offset => .ok (if caps.get .s = "+" then base + offset else base - offset)
      | none =>
        match List.lookup text symbols.constants with
        | some n => .ok n
        | none => .error (symbols.undefined text)

/-- The bits of a part. -/
def partBits (symbols : Symbols) : Part → Except Fault Bits
  | .bits bits => .ok bits
  | .ref r =>
    match symbols.value r.text r.origin r.relative with
    | .error e => .error e
    | .ok n => Bits.encodeField n r.width (r.signed || r.relative)

/-- The bits of the parts, one after the other. -/
def partsBits (symbols : Symbols) : List Part → Except Fault Bits
  | [] => .ok []
  | part :: parts =>
    match symbols.partBits part with
    | .error e => .error e
    | .ok bits =>
      match symbols.partsBits parts with
      | .error e => .error e
      | .ok rest => .ok (bits ++ rest)

end Symbols

end PocketAsm
