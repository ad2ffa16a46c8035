/-
  Shell/Console.lean --- what a command-line tool sees and does.

  A tool is given its surroundings: the environment, what answers a
  connection, the serial ports.  It writes to two streams and to files, and it
  ends with an exit code.  On a stream no control codes are left, because it
  is no terminal.  The output takes no text with half of a surrogate pair; the
  messages write such a half as an escape.
-/
import PocketAsm.Fault
import PocketAsm.Settings
import PocketAsm.Shell.Address
import PocketAsm.Shell.Options
import PocketAsm.Transfer.Client
import PocketAsm.Transfer.Serial

set_option autoImplicit false

namespace PocketAsm.Shell

/-! ## Troubles -/

/-- Why a tool ends before it is done. -/
inductive Trouble where
  /-- the command line is misused -/
  | misuse
  /-- a source line cannot be assembled -/
  | source (fault : Fault) (line : Option Int)
  /-- the settings or the target are not usable -/
  | configuration (text : WideText)
  /-- a machine or a transfer fails -/
  | operation (text : WideText)
  /-- an option does not fit -/
  | parameter (text : String)
  /-- a file cannot be found or used -/
  | file (text : String)
  /-- something that should not happen -/
  | internal (text : WideText)
  /-- the tool has said all and ends with this exit code -/
  | stop (code : Nat)
  deriving DecidableEq, Repr, Inhabited

namespace Trouble

/-- The exit code. -/
def code : Trouble → Nat
  | .source .. | .operation _ => 1
  | .misuse | .configuration _ | .parameter _ | .file _ => 2
  | .internal _ => 3
  | .stop code => code

/-- A line with a label before the text. -/
def labelled (label : String) (text : WideText) : WideText :=
  WideText.ofString (label ++ ": ") ++ text ++ WideText.ofString "\n"

/-- What is said about a trouble; the label names the part of the tool at work. -/
def text (label : Option String) : Trouble → WideText
  | .source fault line => fault.report line ++ "\n"
  | .operation text => labelled ((label.map (· ++ " error")).getD "Error") text
  | .configuration text => labelled "Error" text
  | .parameter text | .file text => labelled "Error" text
  | .internal text => labelled "Internal error" text
  | .misuse | .stop _ => ""

/-- The trouble with settings. -/
def ofSettings (e : SettingsFault) : Trouble :=
  match e with
  | .compoundTarget | .longPath | .tooDeep | .noHome => .internal e.message
  | _ => .configuration e.message

/-- The trouble with a file. -/
def ofFile (path : String) : FileFault → Trouble
  | .missing => .file (FileFault.missing.message path)
  | e => .internal (e.message path)

/-- The trouble with saving settings. -/
def ofSave (path : String) : SaveFault → Trouble
  | .file e => ofFile path e
  | .number e => .internal e.message

/-- The trouble with a command line. -/
def ofOption : OptionFault → Trouble
  | .unknown => .misuse
  | e => .parameter e.message

/-- The trouble with a transfer. -/
def ofTransfer : Transfer.Failure → Trouble
  | .transfer e => .operation e.message
  | .arithmetic e => .internal e.message
  | .longLine => .internal "A line is too long"
  | .tooDeep => .internal "A line nests too deep"

end Trouble

/-! ## Tools -/

/-- The surroundings of a tool. -/
structure World where
  environment : Environment
  /-- what answers a connection -/
  peer : Transfer.Peer
  ports : List Transfer.Port
  /-- why a serial line cannot be opened -/
  serialTrouble : Option String
  /-- why the bridge cannot listen -/
  listenTrouble : Option String
  deriving Inhabited

/-- What a tool works on. -/
structure Desk where
  files : Files
  out : String
  err : String
  deriving Inhabited

/-- A tool at work. -/
abbrev Tool (α : Type) : Type := ReaderT World (ExceptT Trouble (StateM Desk)) α

/-- Writes a text to the output, which takes it as a whole or not at all. -/
def write (text : WideText) : Tool Unit :=
  match (Text.unstyled text).string? with
  | some shown => modify fun d => { d with out := d.out ++ shown }
  | none => throw (.internal "surrogates not allowed")

/-- Writes a line to the output. -/
def say (line : WideText) : Tool Unit := write (line ++ WideText.ofString "\n")

/-- A text as the messages show it. -/
def messageText (text : WideText) : String := (Text.unstyled text).spelled

/-- Writes a line to the messages. -/
def note (line : String) : Tool Unit :=
  modify fun d => { d with err := d.err ++ messageText (line ++ "\n") }

/-- Writes a line to the messages if the user wants to hear more. -/
def chat (verbose : Bool) (line : String) : Tool Unit := if verbose then note line else pure ()

/-- A value that has to be there for the command line to make sense. -/
def require {α : Type} : Option α → Tool α
  | some x => pure x
  | none => throw .misuse

/-- A condition for the command line to make sense. -/
def demand (condition : Bool) : Tool Unit := if condition then pure () else throw .misuse

/-- A result, or the trouble that a fault means. -/
def orTrouble {α ε : Type} (trouble : ε → Trouble) : Except ε α → Tool α
  | .ok x => pure x
  | .error e => throw (trouble e)

/-- Writes a file the given way; what the writing leaves behind stays even if it fails. -/
def store {ε : Type} (trouble : ε → Trouble) (writing : Files → Files × Except ε Unit) :
    Tool Unit := do
  let (files, outcome) := writing (← get).files
  modify fun d => { d with files := files }
  orTrouble trouble outcome

/-- Writes a file into a directory that exists. -/
def writeFile (path : String) (content : Content) : Tool Unit :=
  store (Trouble.ofFile path) (·.write path content)

/-- The text of a file. -/
def readText (path : String) : Tool String := do
  let content ← orTrouble (Trouble.ofFile path) ((← get).files.read path)
  match content.lines? with
  | some text => pure text
  | none => throw (.internal ((content.fault?.map Utf8Fault.message).getD ""))

/-- The settings in force. -/
def currentSettings : Tool Settings := do
  let env := (← read).environment
  orTrouble Trouble.ofSettings (Settings.current (← get).files env env)

/-! ## Values of options -/

/-- One of a few words. -/
def choice? (words : List String) (text : String) : Option String :=
  if words.contains text then some text else none

/-- An option that is not given, or one of a few words. -/
def chosen (a : Arguments) (key : String) (words : List String) : Tool (Option String) :=
  match a.last? key with
  | none => pure none
  | some text => some <$> require (choice? words text)

/-- An integer between bounds; the upper one may be missing. -/
def integerWithin? (least : Int) (most : Option Int) (text : String) : Option Int :=
  (Text.readInt 10 text).filter fun n =>
    least ≤ n && (match most with
      | some m => decide (n ≤ m)
      | none => true)

/-- An address. -/
def address? (text : String) : Option Int :=
  match readAddress text with
  | .ok n => some n
  | .error _ => none

/-- Ends the tool without a word if a path is none that a file can have. -/
def demandName (path : String) : Tool Unit :=
  if Files.pathFault? path = some .badName then throw (.stop 1) else pure ()

/-- The path of a file that exists. -/
def existingFile (path : String) : Tool String := do
  demandName path
  demand ((← get).files.node? path == some .file)
  pure (Path.normal path)

/-- The path of a file to write, which must not be a directory. -/
def newFile (path : String) : Tool String := do
  demandName path
  demand ((← get).files.node? path != some .directory)
  pure (Path.normal path)

/-- An option that is not given, or the path of a file to write. -/
def outputFile (a : Arguments) (key : String) : Tool (Option String) :=
  match a.last? key with
  | none => pure none
  | some path => some <$> newFile path

/-- The path of a source file, which is the first operand and the last. -/
def sourceFile? (a : Arguments) : Tool (Option String) :=
  match a.operands with
  | [] => pure none
  | path :: others => do
    let source ← existingFile path
    demand others.isEmpty
    pure (some source)

/-! ## Command lines -/

/-- The version of the tools. -/
def version : String := "0.1.0"

/-- The options that every tool has. -/
def generalSwitches : List Switch :=
  [.flag ["--version"] "version", .flag ["--help"] "help"]

/-- The option for the target. -/
def targetSwitch : Switch := .valued ["-t", "--target"] "target"

/-- The option to hear more. -/
def verboseSwitch : Switch := .flag ["-v", "--verbose"] "verbose"

/-- Reads a command line.  A question for the version or for help is answered at once, whatever else
the command line says. -/
def withArguments (name : String) (switches : List Switch) (anywhere : Bool) (args : List String)
    (body : Arguments → Tool Unit) : Tool Unit := do
  let a ← orTrouble Trouble.ofOption (readArguments switches anywhere args ⟨[], []⟩)
  match a.options.find? fun o => o.1 == "version" || o.1 == "help" with
  | some (key, _) =>
    say (if key = "version" then s!"{name}, version {version}" else s!"Usage: {name} [OPTIONS]")
  | none => body a

/-! ## Sources -/

/-- The architecture with the given name, or the one that the settings name. -/
def architectureFor (name : Option String) (settings : Settings) : Tool Architecture :=
  let name := name.getD settings.target
  match Architecture.find? name with
  | some a => pure a
  | none => throw (.configuration (Architecture.unknownMessage name))

/-- A result; that there is none should not happen. -/
def orInternal {α : Type} (result : Except NumberFault α) : Tool α :=
  orTrouble (fun e => .internal e.message) result

/-- Assembles a source file. -/
def assembleFile (path : String) (a : Architecture) : Tool Assembly := do
  orInternal (a.dialect.tryAssemble (← readText path))

/-- Ends the tool if lines could not be assembled. -/
def stopOnErrors (result : Assembly) (path : String) : Tool Unit := do
  if !result.ok then
    note (Diagnostic.listing result.errors)
    let count := result.errors.length
    note s!"{count} error(s) in {path}"
    throw (.stop 1)

/-! ## Results -/

/-- How a tool ended. -/
structure Result where
  exit : Nat
  /-- the command line was misused -/
  misused : Bool
  out : String
  err : String
  files : Files

/-- Runs a tool; what goes wrong is told with the given label. -/
def runTool (label : Option String) (tool : Tool Unit) (world : World) (files : Files) : Result :=
  match (tool world).run ⟨files, "", ""⟩ with
  | (.ok (), d) => ⟨0, false, d.out, d.err, d.files⟩
  | (.error trouble, d) =>
    ⟨trouble.code, trouble == .misuse, d.out, d.err ++ messageText (trouble.text label), d.files⟩

end PocketAsm.Shell
