/-
  Path.lean --- paths of files.

  A path is shown in its normal form: one slash between two parts, no empty
  part and no single dot.  A part of two dots stays, because what it means
  depends on the directories that exist.
-/
import PocketAsm.Text.Blank

set_option autoImplicit false

namespace PocketAsm.Path

/-- The parts of a path. -/
def parts (path : String) : List String :=
  ((path.toList.splitOnP (· == '/')).map String.ofList).filter fun p => p != "" && p != "."

/-- What an absolute path begins with: two slashes stay two, more of them are one. -/
def root (path : String) : String :=
  match (path.toList.takeWhile (· == '/')).length with
  | 0 => ""
  | 2 => "//"
  | _ => "/"

/-- The normal form of a path. -/
def normal (path : String) : String :=
  let text := root path ++ "/".intercalate (parts path)
  if text = "" then "." else text

/-- The path of the directory that a path lies in. -/
def parent (path : String) : String :=
  normal (root path ++ "/".intercalate (parts path).dropLast)

/-- The path ends like that of a directory: with a slash, or with a dot for a part. -/
def endsOpen (path : String) : Bool :=
  match path.toList.reverse.takeWhile (· != '/') with
  | [] => true
  | ['.'] => true
  | _ => false

/-- The last part of a path. -/
def name (path : String) : String := (parts path).getLast?.getD ""

/-- The end of the name from its last dot on.  A dot that is the first or the last character does
not count. -/
def extension (path : String) : String :=
  let backward := (name path).toList.reverse
  let after := backward.takeWhile (· != '.')
  match backward.dropWhile (· != '.') with
  | _ :: _ :: _ => if after.isEmpty then "" else String.ofList ('.' :: after.reverse)
  | _ => ""

end PocketAsm.Path
