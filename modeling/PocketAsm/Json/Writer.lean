/-
  Json/Writer.lean --- JSON values to text.

  The text is ASCII: a character outside it is written as the escapes of its
  UTF-16 code units.  On one line a blank follows each comma and each colon;
  in the indented form every item stands on a line of its own.  A value that
  holds an integer with too many digits is not written at all.
-/
import PocketAsm.Json.Basic
import PocketAsm.Binary64.Text
import PocketAsm.Fault

set_option autoImplicit false

namespace PocketAsm.Json

/-! ## Strings -/

/-- A character inside a quoted string. -/
def escapeChar (c : Char) : List Char :=
  let n := c.toNat
  if c = '\x22' then ['\\', '\x22']
  else if c = '\\' then ['\\', '\\']
  else if c = '\n' then ['\\', 'n']
  else if c = '\r' then ['\\', 'r']
  else if c = '\t' then ['\\', 't']
  else if n = 8 then ['\\', 'b']
  else if n = 12 then ['\\', 'f']
  else if 32 ≤ n ∧ n ≤ 126 then [c]
  else if n < 0x10000 then CodePoint.unitEscape n
  else
    CodePoint.unitEscape (0xD800 + (n - 0x10000) / 1024) ++
      CodePoint.unitEscape (0xDC00 + (n - 0x10000) % 1024)

/-- A code point inside a quoted string. -/
def escapePoint : CodePoint → List Char
  | .char c => escapeChar c
  | .half unit _ => CodePoint.unitEscape unit

/-- A quoted string. -/
def quote (t : WideText) : String :=
  String.ofList ('\x22' :: t.points.flatMap escapePoint ++ ['\x22'])

/-! ## One line -/

mutual

/-- The value on one line. -/
def write : Json → String
  | .null => "null"
  | .bool b => if b then "true" else "false"
  | .int n => toString n
  | .real x => x.shortest Binary64.dataText
  | .str s => quote s
  | .arr items => "[" ++ ", ".intercalate (writeItems items) ++ "]"
  | .obj members => "\x7b" ++ ", ".intercalate (writeMembers members) ++ "\x7d"

/-- The items of an array, each on one line. -/
def writeItems : List Json → List String
  | [] => []
  | v :: vs => write v :: writeItems vs

/-- The members of an object, each on one line. -/
def writeMembers : Members → List String
  | [] => []
  | (k, v) :: ms => (quote k ++ ": " ++ write v) :: writeMembers ms

end

mutual

/-- All integers of a value can be written. -/
def isWritable : Json → Bool
  | .int n => Text.isWritable n
  | .arr items => areWritable items
  | .obj members => membersWritable members
  | _ => true

/-- All integers of the items can be written. -/
def areWritable : List Json → Bool
  | [] => true
  | v :: vs => isWritable v && areWritable vs

/-- All integers of the members can be written. -/
def membersWritable : Members → Bool
  | [] => true
  | (_, v) :: ms => isWritable v && membersWritable ms

end

/-- The value on one line, if it can be written. -/
def encode (v : Json) : Except NumberFault String :=
  if v.isWritable then .ok v.write else .error .longNumber

/-! ## Indented -/

/-- The line break before an item of the given depth. -/
def breakAt (depth : Nat) : String := "\n" ++ String.ofList (List.replicate (2 * depth) ' ')

/-- Items between brackets, each on a line one step deeper than the brackets; no items, no lines. -/
def enclose (depth : Nat) (opening closing : String) (items : List String) : String :=
  if items.isEmpty then opening ++ closing
  else
    opening ++ breakAt (depth + 1) ++ ("," ++ breakAt (depth + 1)).intercalate items ++
      breakAt depth ++ closing

mutual

/-- The value over several lines, two blanks deeper at each level. -/
def indented (depth : Nat) : Json → String
  | .arr items => enclose depth "[" "]" (indentedItems depth items)
  | .obj members => enclose depth "\x7b" "\x7d" (indentedMembers depth members)
  | .null => "null"
  | .bool b => if b then "true" else "false"
  | .int n => toString n
  | .real x => x.shortest Binary64.dataText
  | .str s => quote s

/-- The items of an array, each over several lines. -/
def indentedItems (depth : Nat) : List Json → List String
  | [] => []
  | v :: vs => indented (depth + 1) v :: indentedItems depth vs

/-- The members of an object, each over several lines. -/
def indentedMembers (depth : Nat) : Members → List String
  | [] => []
  | (k, v) :: ms => (quote k ++ ": " ++ indented (depth + 1) v) :: indentedMembers depth ms

end

end PocketAsm.Json
