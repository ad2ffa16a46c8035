/-
  Json/Display.lean --- JSON values as they are shown in messages.

  A message about a value that could not be used shows it in the notation of
  the tool's own data model: words for truth and absence with a capital, text
  between quotes, lists in brackets and objects in braces.
-/
import PocketAsm.Json.Basic
import PocketAsm.Binary64.Text
import PocketAsm.Text.Quoted

set_option autoImplicit false

namespace PocketAsm.Json

mutual

/-- The value as a message shows it. -/
def display : Json → String
  | .null => "None"
  | .bool b => if b then "True" else "False"
  | .int n => toString n
  | .real x => x.shortest Binary64.plain
  | .str s => Text.quoted s
  | .arr items => "[" ++ ", ".intercalate (displayItems items) ++ "]"
  | .obj members => "\x7b" ++ ", ".intercalate (displayMembers members) ++ "\x7d"

/-- The items of a list as a message shows them. -/
def displayItems : List Json → List String
  | [] => []
  | v :: vs => display v :: displayItems vs

/-- The members of an object as a message shows them. -/
def displayMembers : Members → List String
  | [] => []
  | (k, v) :: ms => (Text.quoted k ++ ": " ++ display v) :: displayMembers ms

end

/-- The value as text: a string is its own text. -/
def asText : Json → WideText
  | .str s => s
  | v => display v

end PocketAsm.Json
