/-
  Files.lean --- a directory of files.

  Files are known by the parts of their path.  A directory exists where a file
  lies below it, and where it was made.  Paths and their parts have a greatest
  length, and what fails half way leaves its traces: the directories that were
  made.
-/
import PocketAsm.Isa.Parva.Display
import PocketAsm.Path
import PocketAsm.Text.Quoted
import PocketAsm.Text.Utf8

set_option autoImplicit false

namespace PocketAsm

/-! ## Contents -/

/-- What a file holds. -/
inductive Content where
  | text (s : String)
  | bytes (b : List UInt8)
  | picture (p : Parva.Picture)
  deriving DecidableEq, Repr, Inhabited

namespace Content

/-- The content as text, if it is in UTF-8. -/
def text? : Content → Option String
  | .text s => some s
  | .bytes b => String.fromUTF8? (ByteArray.mk b.toArray)
  | .picture _ => none

/-- Why the content is no text; a picture begins with a byte that no character begins with. -/
def fault? : Content → Option Utf8Fault
  | .text _ => none
  | .bytes b => Utf8Fault.find? b
  | .picture _ => some ⟨0, [0x89], .badStart⟩

/-- Line ends as a line feed: a carriage return, alone or before a line feed, counts as one. -/
def unifyLines : List Char → List Char
  | [] => []
  | ['\r'] => ['\n']
  | '\r' :: '\n' :: cs => '\n' :: unifyLines cs
  | '\r' :: c :: cs => '\n' :: unifyLines (c :: cs)
  | c :: cs => c :: unifyLines cs

/-- The content as text with unified line ends. -/
def lines? (c : Content) : Option String :=
  c.text?.map fun s => String.ofList (unifyLines s.toList)

/-- Two contents are the same bytes. -/
def same (a b : Content) : Bool :=
  a == b ||
    match a.text?, b.text? with
    | some s, some t => s == t
    | _, _ => false

end Content

/-! ## Files -/

/-- Why a file cannot be used. -/
inductive FileFault where
  /-- a directory on the way, or the file, does not exist -/
  | missing
  /-- a file stands where a directory is needed -/
  | notDirectory
  /-- a directory stands where a file is needed -/
  | isDirectory
  /-- a file stands where a directory is to be made -/
  | occupied
  /-- the path or a part of it is longer than any that exists -/
  | longName
  /-- the path holds the character zero -/
  | badName
  deriving DecidableEq, Repr, Inhabited

/-- The fault in words. -/
def FileFault.message (path : String) (fault : FileFault) : String :=
  let cause :=
    match fault with
    | .missing => "[Errno 2] No such file or directory: "
    | .notDirectory => "[Errno 20] Not a directory: "
    | .isDirectory => "[Errno 21] Is a directory: "
    | .occupied => "[Errno 17] File exists: "
    | .longName => "[Errno 36] File name too long: "
    | .badName => "The character zero in a path: "
  cause ++ Text.quoted path

/-- Files by the parts of their paths, and the directories that were made; the paths of a root of
their own begin with a slash. -/
structure Files where
  entries : List (List String × Content)
  directories : List (List String)
  deriving Inhabited

namespace Files

/-- No files. -/
def empty : Files := ⟨[], []⟩

/-- The content of the file with the given parts. -/
def find? (fs : Files) (key : List String) : Option Content := fs.entries.lookup key

/-- The parts go nowhere but back: they are those of the working directory or of one around it. -/
def isAround (key : List String) : Bool := key.all (· == "..")

/-- The parts are those of a directory. -/
def isDirectory (fs : Files) (key : List String) : Bool :=
  isAround key || key == ["/"] || fs.directories.contains key ||
    fs.entries.any fun e => key.isPrefixOf e.1 && key.length < e.1.length

/-- Sets the content of a file. -/
def put (fs : Files) (key : List String) (content : Content) : Files :=
  if (fs.find? key).isSome then
    { fs with entries := fs.entries.map fun e => if e.1 = key then (key, content) else e }
  else { fs with entries := fs.entries ++ [(key, content)] }

/-- Makes a directory, unless there is one. -/
def putDirectory (fs : Files) (key : List String) : Files :=
  if fs.isDirectory key then fs else { fs with directories := fs.directories ++ [key] }

/-! ## Ways -/

/-- The bytes of the longest part of a path. -/
def maxNameBytes : Nat := 255

/-- The bytes of the longest path. -/
def maxPathBytes : Nat := 4095

/-- The part is too long. -/
def isLongName (part : String) : Bool := maxNameBytes < part.utf8ByteSize

/-- The fault of a path that leads nowhere, whatever exists. -/
def pathFault? (path : String) : Option FileFault :=
  if path.toList.contains '\x00' then some .badName
  else if maxPathBytes < path.utf8ByteSize then some .longName
  else none

/-- A part further; two dots go back, but not out of a root. -/
def descend (key : List String) (part : String) : List String :=
  if part ≠ ".." ∨ isAround key then key ++ [part]
  else if key = ["/"] then key
  else key.dropLast

/-- The parts where a path begins. -/
def origin (path : String) : List String := if Path.root path = "" then [] else ["/"]

/-- The parts of the place that a path leads to; all parts but the last have to be directories. -/
def walk (fs : Files) (key : List String) : List String → Except FileFault (List String)
  | [] => .ok key
  | part :: rest =>
    let next := descend key part
    if isLongName part then .error .longName
    else if rest.isEmpty then .ok next
    else if fs.isDirectory next then walk fs next rest
    else .error (if (fs.find? next).isSome then .notDirectory else .missing)

/-- The parts of the place that a path leads to. -/
def locate (fs : Files) (path : String) : Except FileFault (List String) :=
  match pathFault? path with
  | some e => .error e
  | none => walk fs (origin path) (Path.parts path)

/-- What a path leads to. -/
inductive Node where
  | file
  | directory
  deriving DecidableEq, Repr, Inhabited

/-- What a path leads to as it was typed: one that ends like the path of a directory leads to no
file. -/
def node? (fs : Files) (path : String) : Option Node :=
  match path, fs.locate path with
  | "", _ => none
  | _, .error _ => none
  | _, .ok key =>
    if fs.isDirectory key then some .directory
    else if (fs.find? key).isSome && !Path.endsOpen path then some .file
    else none

/-! ## Reading and writing -/

/-- The content of a file. -/
def read (fs : Files) (path : String) : Except FileFault Content :=
  match fs.locate path with
  | .error e => .error e
  | .ok key =>
    match fs.find? key with
    | some content => .ok content
    | none => .error (if fs.isDirectory key then .isDirectory else .missing)

/-- Writes a file into a directory that exists. -/
def write (fs : Files) (path : String) (content : Content) : Files × Except FileFault Unit :=
  match fs.locate path with
  | .error e => (fs, .error e)
  | .ok key =>
    if fs.isDirectory key then (fs, .error .isDirectory)
    else (fs.put key content, .ok ())

/-- Makes a directory and those on the way to it; a file hinders that. -/
def makeDirectories (fs : Files) (key : List String) :
    List String → Files × Except FileFault Unit
  | [] => (fs, .ok ())
  | part :: rest =>
    let next := descend key part
    if isLongName part then (fs, .error .longName)
    else if (fs.find? next).isSome then
      (fs, .error (if rest.isEmpty then .occupied else .notDirectory))
    else makeDirectories (fs.putDirectory next) next rest

/-- Makes the directories that a file lies in. -/
def makeParents (fs : Files) (path : String) : Files × Except FileFault Unit :=
  match pathFault? (Path.parent path) with
  | some e => (fs, .error e)
  | none => fs.makeDirectories (origin path) (Path.parts path).dropLast

/-- Writes a file and makes the directories it lies in. -/
def writeDeep (fs : Files) (path : String) (content : Content) :
    Files × Except FileFault Unit :=
  match fs.makeParents path with
  | (fs, .error e) => (fs, .error e)
  | (fs, .ok ()) => fs.write path content

/-! ## Changes -/

/-- The path of a file. -/
def pathOf (key : List String) : String :=
  match key with
  | "/" :: parts => "/" ++ "/".intercalate parts
  | parts => "/".intercalate parts

/-- The path leads to a place in the working directory. -/
def isWithin (path : String) : Bool :=
  Path.root path = "" && (Path.parts path).head? != some ".."

/-- The files that are new or changed since an earlier time. -/
def changes (before after : Files) : List (String × Content) :=
  (after.entries.filter fun e =>
    match before.find? e.1 with
    | some old => !old.same e.2
    | none => true).map fun e => (pathOf e.1, e.2)

end Files

end PocketAsm
