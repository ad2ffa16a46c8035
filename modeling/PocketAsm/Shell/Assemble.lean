/-
  Shell/Assemble.lean --- the tool that assembles.

  It prints a listing of the lines that could be assembled, or writes it to a
  file, perhaps writes a memory image, and then tells what went wrong.
-/
import PocketAsm.Memory
import PocketAsm.Shell.Console

set_option autoImplicit false

namespace PocketAsm.Shell

/-- The name of the tool. -/
def assembleName : String := "lbpasm"

/-- The options of the tool. -/
def assembleSwitches : List Switch :=
  generalSwitches ++
    [targetSwitch, .valued ["-f", "--format"] "format",
     .valued ["-a", "--address-format"] "address", .valued ["-s", "--source"] "source",
     .constant "--labels" "labels" "on", .constant "--no-labels" "labels" "off",
     .constant "--raw" "raw" "on", .constant "--styled" "raw" "off",
     .valued ["-o", "--output"] "output", .valued ["-m", "--memory"] "memory",
     .flag ["--list-targets"] "targets", .flag ["--docs"] "docs",
     .flag ["--save-settings"] "save", verboseSwitch]

/-- What the command line asks for. -/
structure AssembleOrder where
  source : Option String
  target : Option String
  codeFormat : Option CodeFormat
  addressFormat : Option CodeFormat
  sourceFormat : Option SourceFormat
  labels : Option Bool
  raw : Option Bool
  output : Option String
  memory : Option String
  listTargets : Bool
  docs : Bool
  save : Bool
  verbose : Bool
  deriving Inhabited

/-- A form of numbers, if the option is given. -/
def chosenCode (a : Arguments) (key : String) : Tool (Option CodeFormat) := do
  pure ((← chosen a key (CodeFormat.names.map (·.1))).bind CodeFormat.ofName?)

/-- The form of source, if the option is given. -/
def chosenSource (a : Arguments) : Tool (Option SourceFormat) := do
  pure ((← chosen a "source" (SourceFormat.names.map (·.1))).bind SourceFormat.ofName?)

/-- Checks an option. -/
def checkAssembleOption (a : Arguments) : String → Tool Unit
  | "target" => discard (chosen a "target" Architecture.names)
  | "format" => discard (chosenCode a "format")
  | "address" => discard (chosenCode a "address")
  | "source" => discard (chosenSource a)
  | "output" => discard (outputFile a "output")
  | "memory" => discard (outputFile a "memory")
  | _ => pure ()

/-- Checks what the command line asks for: the options as they come, and then the operands. -/
def assembleOrder (a : Arguments) : Tool AssembleOrder := do
  a.keys.forM (checkAssembleOption a)
  let source ← sourceFile? a
  let target ← chosen a "target" Architecture.names
  let codeFormat ← chosenCode a "format"
  let addressFormat ← chosenCode a "address"
  let sourceFormat ← chosenSource a
  let output ← outputFile a "output"
  let memory ← outputFile a "memory"
  let order : AssembleOrder :=
    { source, target, codeFormat, addressFormat, sourceFormat, output, memory
      labels := (a.last? "labels").map (· == "on")
      raw := (a.last? "raw").map (· == "on")
      listTargets := a.isOn "targets"
      docs := a.isOn "docs"
      save := a.isOn "save"
      verbose := a.isOn "verbose" }
  demand (source.isSome || order.listTargets || order.docs || order.save)
  pure order

/-- The settings with what the command line asks for. -/
def AssembleOrder.settings (o : AssembleOrder) (a : Architecture) (s : Settings) : Settings :=
  { s with
    target := a.name
    codeFormat := o.codeFormat.getD s.codeFormat
    addressFormat := o.addressFormat.getD s.addressFormat
    sourceFormat := o.sourceFormat.getD s.sourceFormat
    showLabels := (o.labels.map Json.bool).getD s.showLabels
    rawOutput := (o.raw.map Json.bool).getD s.rawOutput }

/-- Saves the settings where they are kept. -/
def saveSettings (s : Settings) : Tool Unit := do
  let path ← orTrouble Trouble.ofSettings (Settings.path (← read).environment)
  store (Trouble.ofSave path) (s.save · path)
  note s!"Settings saved to {path}"

/-- A listing. -/
def listingText (look : Listing.Look) (a : Architecture) (s : Settings) (result : Assembly) :
    Tool String :=
  orInternal (Listing.render look a.shape s.listing result.lines)

/-- Prints or writes the listing. -/
def deliverListing (o : AssembleOrder) (a : Architecture) (s : Settings) (result : Assembly) :
    Tool Unit := do
  match o.output with
  | some path =>
    writeFile path (.text ((← listingText Listing.plainLook a s result) ++ "\n"))
    chat o.verbose s!"Wrote listing to {path}"
  | none =>
    let look := if s.rawOutput.isTrue then Listing.plainLook else Listing.styledLook
    say (← listingText look a s result)

/-- Writes the memory image. -/
def deliverMemory (o : AssembleOrder) (a : Architecture) (result : Assembly) : Tool Unit := do
  match o.memory with
  | some path =>
    let words := (Memory.image a.wordSize result.lines).wordsFrom 0
    let image := Json.arr (words.map fun w => .arr [.int w.1, .int w.2])
    writeFile path (.text ((← orInternal image.encode) ++ "\n"))
    let count := words.length
    chat o.verbose s!"Wrote {count} words to {path}"
  | none => pure ()

/-- Assembles a source file and delivers the results. -/
def assembleSource (o : AssembleOrder) (a : Architecture) (s : Settings) (source : String) :
    Tool Unit := do
  let name := a.name
  chat o.verbose s!"Assembling {source} for {name}..."
  let result ← assembleFile source a
  deliverListing o a s result
  deliverMemory o a result
  let instructions := result.instructionCount
  let labels := result.labels.length
  chat o.verbose s!"Assembly complete: {instructions} instructions, {labels} labels"
  stopOnErrors result source

/-- The tool that assembles. -/
def assembleTool (args : List String) : Tool Unit :=
  withArguments assembleName assembleSwitches true args fun a => do
    let o ← assembleOrder a
    if o.listTargets then
      say ("\n".intercalate (Architecture.all.map Architecture.summary))
    else
      let settings ← currentSettings
      let architecture ← architectureFor o.target settings
      if o.docs then say architecture.documentation
      else
        let settings := o.settings architecture settings
        if o.save then saveSettings settings
        match o.source with
        | some source => assembleSource o architecture settings source
        | none => pure ()

end PocketAsm.Shell
