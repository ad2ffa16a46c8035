/-
  Literal/Character.lean --- character literals, strings and character encodings.

  An encoding is a table: the code of a character is its place in it.  An
  entry may be an escape of two characters, and codes may be unused.  A
  literal is a character or an escape between apostrophes, perhaps after a
  minus sign.
-/
import PocketAsm.Fault
import PocketAsm.Literal.Number

set_option autoImplicit false

namespace PocketAsm

/-- A character encoding. -/
structure CharEncoding where
  name : String
  /-- the width of an encoded character -/
  width : Nat
  /-- whether characters share a machine word -/
  packed : Bool
  /-- the character of each code; `none` marks an unused code -/
  table : List (Option String)
  deriving DecidableEq, Repr, Inhabited

namespace CharEncoding

/-- The code of a character or escape. -/
def code (encoding : CharEncoding) (character : String) : Except Fault Nat :=
  match encoding.table.findIdx? (· == some character) with
  | some n => .ok n
  | none => .error (.noCharacter character encoding.name)

/-- How many characters a machine word takes: those that fit if the encoding packs them, and one
otherwise. -/
def perWord (encoding : CharEncoding) (wordSize : Nat) : Nat :=
  if encoding.packed then max 1 (wordSize / encoding.width) else 1

/-- The printable characters of ASCII, and zero. -/
def asciiTable : List (Option String) :=
  some "\\0" :: List.replicate 31 none ++
    (List.range 95).map (fun n => some (String.singleton (Char.ofNat (32 + n)))) ++ [none]

/-- ASCII, a character to a word. -/
def ascii : CharEncoding := ⟨"ASCII", 8, false, asciiTable⟩

/-- The digits and signs of the terminal. -/
def terminal : CharEncoding :=
  ⟨"Terminal", 7, false,
    ["\\0", "0", "1", "2", "3", "4", "5", "6", "7", "8", "9", "+", "-", "*", "/", "(", ")"].map some⟩

/-- The encoding with the given name, which is in lower case. -/
def find? (name : String) : Option CharEncoding :=
  if name = "ascii" then some ascii
  else if name = "terminal" then some terminal
  else none

end CharEncoding

namespace CharLiteral

/-- The sign and the character of a literal. -/
def body? (text : String) : Option (Bool × List Char) :=
  let (negative, cs) := RadixMark.takeMinus text.toList
  match cs with
  | [p, c, q] => if p = '\x27' ∧ q = '\x27' ∧ c ≠ '\n' then some (negative, [c]) else none
  | [p, b, c, q] =>
    if p = '\x27' ∧ q = '\x27' ∧ b = '\\' ∧ c ≠ '\n' then some (negative, [b, c]) else none
  | _ => none

/-- The value of a character literal, or `none` if the text is none; a character that the encoding
lacks is a fault. -/
def read (text : String) (encoding : CharEncoding) : Except Fault (Option Int) :=
  match body? text with
  | none => .ok none
  | some (negative, cs) =>
    match encoding.code (String.ofList cs) with
    | .error e => .error e
    | .ok n => .ok (some (if negative then -(n : Int) else n))

/-- The characters of a string; a reverse solidus and what follows it are one, and line feeds are
passed over. -/
def characters : List Char → List String
  | [] => []
  | [c] => if c = '\n' then [] else [String.singleton c]
  | c :: d :: cs =>
    if c = '\n' then characters (d :: cs)
    else if c = '\\' ∧ d ≠ '\n' then String.ofList [c, d] :: characters cs
    else String.singleton c :: characters (d :: cs)

/-- The characters of a string literal, without its first and last character, the quotes. -/
def split (text : String) : List String := characters (text.toList.drop 1).dropLast

end CharLiteral

end PocketAsm
