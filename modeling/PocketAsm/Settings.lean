/-
  Settings.lean --- the user's settings.

  Settings are kept in a JSON file and may be overridden by environment
  variables.  A file that is missing, unreadable or of another version is
  ignored; a target that is no plain value is refused by every reader, and so
  are a file whose name is too long and one whose values nest too deep.
-/
import PocketAsm.Architecture
import PocketAsm.Files
import PocketAsm.Json.Display
import PocketAsm.Json.Reader
import PocketAsm.Json.Writer

set_option autoImplicit false

namespace PocketAsm

/-! ## Environment -/

/-- The variables of the environment. -/
abbrev Environment : Type := List (String × String)

namespace Environment

/-- The value of a variable that is set and not empty. -/
def nonempty? (env : Environment) (name : String) : Option String :=
  (List.lookup name env).filter (· != "")

/-- Why a variable cannot be set. -/
inductive AssignFault where
  /-- the character zero in the name or the value, or an equals sign in the name -/
  | badText
  /-- the name is empty -/
  | noName
  deriving DecidableEq, Repr, Inhabited

/-- The fault of setting a variable to a value. -/
def assignFault? (name value : String) : Option AssignFault :=
  if name.toList.contains '\x00' || value.toList.contains '\x00' || name.toList.contains '=' then
    some .badText
  else if name = "" then some .noName
  else none

/-- Sets a variable, or removes it; any name can be removed. -/
def assign (env : Environment) (name : String) (value : Option String) :
    Except AssignFault Environment :=
  let others := env.filter (·.1 != name)
  match value with
  | none => .ok others
  | some v =>
    match assignFault? name v with
    | some e => .error e
    | none => .ok ((name, v) :: others)

end Environment

/-! ## Settings -/

/-- The user's settings.  Some of them take any value, of which only the truth counts. -/
structure Settings where
  target : String
  addressFormat : CodeFormat
  codeFormat : CodeFormat
  showLabels : Json
  highlighting : Json
  sourceFormat : SourceFormat
  rawOutput : Json
  focusMachine : Json
  /-- in milliseconds -/
  sendDelay : Int
  deriving Repr, Inhabited

/-- Why settings are refused. -/
inductive SettingsFault where
  /-- the settings are of another version -/
  | otherVersion (shown : WideText)
  /-- there is no such form of numbers -/
  | badCodeFormat (shown : String)
  /-- there is no such form of source -/
  | badSourceFormat (shown : String)
  /-- there is no such target -/
  | unknownTarget (name : WideText)
  /-- the target is a list or an object -/
  | compoundTarget
  /-- the delay is no whole number from zero on -/
  | badDelay (shown : String)
  /-- the variable for the delay holds no whole number -/
  | badDelayText (text : String)
  /-- the path of the file is too long -/
  | longPath
  /-- the values of the file nest too deep -/
  | tooDeep
  /-- there is no home directory to keep the settings in -/
  | noHome
  deriving DecidableEq, Repr, Inhabited

/-- Why settings cannot be saved. -/
inductive SaveFault where
  /-- the file cannot be written -/
  | file (fault : FileFault)
  /-- a number of the settings cannot be written -/
  | number (fault : NumberFault)
  deriving DecidableEq, Repr, Inhabited

namespace Settings

/-- The version of settings. -/
def version : String := "1"

/-- The variable with the path of the settings. -/
def pathVariable : String := "LBPASM_CONFIG"

/-- The variable with the target. -/
def targetVariable : String := "LBPASM_TARGET"

/-- The variable with the delay. -/
def delayVariable : String := "LBPASM_SEND_DELAY"

end Settings

/-- The cause in words. -/
def SettingsFault.message : SettingsFault → WideText
  | .otherVersion shown =>
    WideText.ofString "Saved configuration version mismatch: found " ++ shown ++
      WideText.ofString (", expected " ++ Settings.version)
  | .badCodeFormat shown => s!"{shown} is not a valid OutputFormat"
  | .badSourceFormat shown => s!"{shown} is not a valid SourceFormat"
  | .unknownTarget name => Architecture.unknownMessage name
  | .compoundTarget => "The target is no plain value"
  | .badDelay shown => s!"Invalid send delay: {shown}"
  | .badDelayText text =>
    let variableName := Settings.delayVariable
    s!"{variableName} must be an integer, got '{text}'"
  | .longPath => "The path of the settings is too long"
  | .tooDeep => "The settings nest too deep"
  | .noHome => "There is no home directory"

/-- The truth of a value: nothing, false, zero and what is empty count as false. -/
def Json.isTrue : Json → Bool
  | .null => false
  | .bool b => b
  | .int n => n != 0
  | .real x => !x.isZero
  | .str s => !s.isEmpty
  | .arr items => !items.isEmpty
  | .obj members => !members.isEmpty

namespace Settings

/-- The settings that hold unless others are chosen. -/
def standard : Settings where
  target := Architecture.defaultName
  addressFormat := .decimal
  codeFormat := .binary
  showLabels := .bool true
  highlighting := .str "default"
  sourceFormat := .instruction
  rawOutput := .bool false
  focusMachine := .bool false
  sendDelay := 1500

/-! ## Values -/

/-- The form of numbers that a value names. -/
def codeFormatOf (j : Json) : Except SettingsFault CodeFormat :=
  match j.string?.bind CodeFormat.ofName? with
  | some f => .ok f
  | none => .error (.badCodeFormat j.display)

/-- The form of source that a value names. -/
def sourceFormatOf (j : Json) : Except SettingsFault SourceFormat :=
  match j.string?.bind SourceFormat.ofName? with
  | some f => .ok f
  | none => .error (.badSourceFormat j.display)

/-- The target that a value names. -/
def targetOf (j : Json) : Except SettingsFault String :=
  match j, j.string?.bind Architecture.find? with
  | _, some a => .ok a.name
  | .arr _, _ | .obj _, _ => .error .compoundTarget
  | _, none => .error (.unknownTarget j.asText)

/-- The delay that a value gives. -/
def delayOf (j : Json) : Except SettingsFault Int :=
  match j with
  | .int n => if n < 0 then .error (.badDelay j.display) else .ok n
  | _ => .error (.badDelay j.display)

/-- A value that is read if it is given, and stays as it is otherwise. -/
def change {α : Type} (read : Json → Except SettingsFault α) (old : α) (value : Option Json) :
    Except SettingsFault α :=
  match value with
  | some j => read j
  | none => .ok old

/-- The settings with the given values changed.  The forms are checked first, then the target and
then the delay; these two also where they stay as they are. -/
def update (s : Settings) (values : Json.Members) : Except SettingsFault Settings :=
  let value (key : String) : Option Json := Json.member? key values
  match change codeFormatOf s.addressFormat (value "assemblyOutputFormat") with
  | .error e => .error e
  | .ok addressFormat =>
    match change codeFormatOf s.codeFormat (value "machineCodeOutputFormat") with
    | .error e => .error e
    | .ok codeFormat =>
      match change sourceFormatOf s.sourceFormat (value "inlineSourceFormat") with
      | .error e => .error e
      | .ok sourceFormat =>
        match targetOf ((value "targetArch").getD (.str s.target)) with
        | .error e => .error e
        | .ok target =>
          match delayOf ((value "sendDelay").getD (.int s.sendDelay)) with
          | .error e => .error e
          | .ok sendDelay =>
            .ok { target, addressFormat, codeFormat, sourceFormat, sendDelay
                  showLabels := (value "machineCodeShowLabels").getD s.showLabels
                  highlighting := (value "syntaxHighlighting").getD s.highlighting
                  rawOutput := (value "rawOutput").getD s.rawOutput
                  focusMachine := (value "focusEmulator").getD s.focusMachine }

/-- The settings that the members of an object give. -/
def ofMembers (members : Json.Members) : Except SettingsFault Settings :=
  let found := (Json.member? "version" members).getD .null
  if found.string? = some version then standard.update members
  else .error (.otherVersion found.asText)

/-- The settings as the members of an object. -/
def members (s : Settings) : Json.Members :=
  [("version", .str version), ("targetArch", .str s.target),
   ("assemblyOutputFormat", .str s.addressFormat.name),
   ("machineCodeOutputFormat", .str s.codeFormat.name),
   ("machineCodeShowLabels", s.showLabels), ("syntaxHighlighting", s.highlighting),
   ("inlineSourceFormat", .str s.sourceFormat.name), ("rawOutput", s.rawOutput),
   ("focusEmulator", s.focusMachine), ("sendDelay", .int s.sendDelay)]

/-- How listings look. -/
def listing (s : Settings) : ListingOptions :=
  ⟨s.codeFormat, s.addressFormat, s.sourceFormat, s.showLabels.isTrue⟩

/-! ## Overrides -/

/-- The change that the variable for the delay asks for. -/
def delayOverride (env : Environment) : Except SettingsFault (Json.Members) :=
  match env.nonempty? delayVariable with
  | none => .ok []
  | some text =>
    match Text.readInt 10 text with
    | some n => .ok [("sendDelay", .int n)]
    | none => .error (.badDelayText text)

/-- The settings with the overrides of the environment. -/
def withEnvironment (s : Settings) (env : Environment) : Except SettingsFault Settings :=
  let target := (env.nonempty? targetVariable).map fun name =>
    (WideText.ofString "targetArch", Json.str name)
  match delayOverride env with
  | .error e => .error e
  | .ok delay => s.update (target.toList ++ delay)

/-! ## Files -/

/-- The home directory without the slashes at its end.  What begins with a tilde stands for the home
of somebody, not for a directory. -/
def home? (env : Environment) : Option String :=
  let base := Text.trimRight (· == '/') ((List.lookup "HOME" env).getD "/root").toList
  if base.head? = some '~' then none else some (String.ofList base)

/-- Where the settings are kept. -/
def path (env : Environment) : Except SettingsFault String :=
  match env.nonempty? pathVariable, home? env with
  | some p, _ => .ok (Path.normal p)
  | none, some base => .ok (Path.normal (base ++ "/.config/lbpasm/settings.json"))
  | none, none => .error .noHome

/-- The text of a settings file. -/
def fileText (s : Settings) : String := (Json.obj s.members).indented 0 ++ "\n"

/-- The settings that the text of a file gives.  A text that gives none stands for the standard
ones. -/
def ofText (text : String) : Except SettingsFault Settings :=
  match Json.parse text with
  | .ok (.obj members) =>
    match ofMembers members with
    | .error .compoundTarget => .error .compoundTarget
    | .error _ => .ok standard
    | .ok s => .ok s
  | .error .tooDeep => .error .tooDeep
  | _ => .ok standard

/-- Loads settings from a file. -/
def load (fs : Files) (path : String) : Except SettingsFault Settings :=
  match fs.read path with
  | .error .longName => .error .longPath
  | .error _ => .ok standard
  | .ok content =>
    match content.lines? with
    | none => .ok standard
    | some text => ofText text

/-- Loads the settings from where they are kept and applies the overrides. -/
def current (fs : Files) (env : Environment) (overrides : Environment) :
    Except SettingsFault Settings :=
  match path env with
  | .error e => .error e
  | .ok place =>
    match load fs place with
    | .error e => .error e
    | .ok s => s.withEnvironment overrides

/-- All numbers of the settings can be written. -/
def isWritable (s : Settings) : Bool := (Json.obj s.members).isWritable

/-- Saves settings in a file; the directories it lies in are made, also for settings that cannot be
written. -/
def save (s : Settings) (fs : Files) (path : String) : Files × Except SaveFault Unit :=
  if s.isWritable then
    match fs.writeDeep path (.text s.fileText) with
    | (fs, .ok ()) => (fs, .ok ())
    | (fs, .error e) => (fs, .error (.file e))
  else
    match fs.makeParents path with
    | (fs, .ok ()) => (fs, .error (.number .longNumber))
    | (fs, .error e) => (fs, .error (.file e))

end Settings

end PocketAsm
