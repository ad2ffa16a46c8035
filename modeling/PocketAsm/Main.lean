/-
  Main.lean --- the command line.

  The first argument names the tool.  The files that the arguments name are
  read, the tool runs on them, and what it changed is written back.
-/
import PocketAsm.Shell.Png
import PocketAsm.Shell.Tools

set_option autoImplicit false

namespace PocketAsm.Shell

/-- The bytes of a file, if it can be read. -/
def slurp (path : String) : IO (Option Content) :=
  try
    let bytes ← IO.FS.readBinFile path
    pure (some (.bytes bytes.toList))
  catch _ => pure none

/-- The path leads to a directory. -/
def directoryExists (path : String) : IO Bool :=
  try
    let _ ← IO.FS.Handle.mk (path ++ "/.") .read
    pure true
  catch _ => pure false

/-- Adds what stands at a path to the files: the file, and the directories. -/
def gather (files : Files) (path : String) : IO Files := do
  let key (p : String) := Files.origin p ++ Path.parts p
  let mark (files : Files) (p : String) : IO Files := do
    if ← directoryExists p then pure (files.putDirectory (key p)) else pure files
  let files ← mark (← mark files (Path.parent path)) path
  match ← slurp path with
  | some content => pure (files.put (key path) content)
  | none => pure files

/-- The paths that an argument may hold: the whole, or what follows an equals sign or a short
option. -/
def pathsIn (argument : String) : List String :=
  let after := (splitValue argument.toList).2
  let short := String.ofList (argument.toList.drop 2)
  [argument, short] ++ (after.map String.ofList).toList

/-- The variables that the tools look at. -/
def readEnvironment : IO Environment := do
  let names := ["HOME", Settings.pathVariable, Settings.targetVariable, Settings.delayVariable]
  let values ← names.mapM fun name => do pure ((← IO.getEnv name).map fun value => (name, value))
  pure (values.filterMap id)

/-- Writes a file with the directories it lies in. -/
def deliver (path : String) (content : Content) : IO Unit := do
  IO.FS.createDirAll (Path.parent path)
  match content with
  | .text s => IO.FS.writeFile path s
  | .bytes b => IO.FS.writeBinFile path (ByteArray.mk b.toArray)
  | .picture p => IO.FS.writeBinFile path (ByteArray.mk (pngBytes p).toArray)

end PocketAsm.Shell

open PocketAsm PocketAsm.Shell in
/-- Runs the tool that the first argument names. -/
def main (args : List String) : IO UInt32 := do
  let env ← readEnvironment
  let paths := (Settings.path env).toOption.toList ++ args.flatMap pathsIn
  let files ← (paths.filter (· != "")).foldlM gather Files.empty
  let world : World := ⟨env, .absent "no network", [], none, none⟩
  let result := Shell.run world files (args.headD "") (args.drop 1)
  (files.changes result.files).forM fun (path, content) => deliver path content
  IO.print result.out
  IO.eprint (if result.misused then "Usage: lbpasm | lbpemu | lbpsend [OPTIONS]\n" else result.err)
  pure result.exit.toUInt32
