/-
  Shell/Emulate.lean --- the tool that runs programs.

  It assembles a source file, runs it, and prints why the run stopped and the
  state of the machine.
-/
import PocketAsm.Binary64.Reader
import PocketAsm.Isa.Bitzzy.Machine
import PocketAsm.Isa.Parva.Machine
import PocketAsm.Isa.V8.Machine
import PocketAsm.Shell.Console

set_option autoImplicit false

namespace PocketAsm.Shell

/-- The name of the tool. -/
def emulateName : String := "lbpemu"

/-- The options of the tool. -/
def emulateSwitches : List Switch :=
  generalSwitches ++
    [targetSwitch, .valued ["-n", "--steps"] "steps", .valued ["-b", "--break"] "break",
     .flag ["--realtime"] "realtime", .valued ["--speed"] "speed", .flag ["--trace"] "trace",
     .valued ["--screenshot"] "screenshot", verboseSwitch]

/-- What the command line asks for. -/
structure EmulateOrder where
  source : String
  target : Option String
  steps : Nat
  breakpoints : List Int
  speed : Option Binary64
  trace : Bool
  screenshot : Option String
  verbose : Bool
  deriving Inhabited

/-- A speed: a number above zero. -/
def speed? (text : String) : Option Binary64 :=
  (Binary64.read? text).filter fun x => !x.isZero && !x.isNegative

/-- The most steps to run. -/
def chosenSteps (a : Arguments) : Tool Int :=
  require (integerWithin? 1 none ((a.last? "steps").getD "10000"))

/-- The addresses to stop at. -/
def chosenBreakpoints (a : Arguments) : Tool (List Int) :=
  (a.all "break").mapM fun text => require (address? text)

/-- The speed, if one is asked for. -/
def chosenSpeed (a : Arguments) : Tool (Option Binary64) :=
  match a.last? "speed" with
  | some text => some <$> require (speed? text)
  | none => pure (if a.isOn "realtime" then some (Binary64.ofInt realTimeSpeed) else none)

/-- Checks an option. -/
def checkEmulateOption (a : Arguments) : String → Tool Unit
  | "target" => discard (chosen a "target" Architecture.names)
  | "steps" => discard (chosenSteps a)
  | "break" => discard (chosenBreakpoints a)
  | "speed" => discard (chosenSpeed a)
  | "screenshot" => discard (outputFile a "screenshot")
  | _ => pure ()

/-- Checks what the command line asks for: the options as they come, and then the operands. -/
def emulateOrder (a : Arguments) : Tool EmulateOrder := do
  a.keys.forM (checkEmulateOption a)
  let source ← require (← sourceFile? a)
  let target ← chosen a "target" Architecture.names
  let steps ← chosenSteps a
  let breakpoints ← chosenBreakpoints a
  let speed ← chosenSpeed a
  let screenshot ← outputFile a "screenshot"
  pure { source, target, breakpoints, speed, screenshot
         steps := steps.toNat
         trace := a.isOn "trace"
         verbose := a.isOn "verbose" }

/-- Writes the screen of a machine as a picture. -/
def deliverScreen (o : EmulateOrder) (name : String) (screen : Option Parva.Screen) :
    Tool Unit := do
  match o.screenshot with
  | none => pure ()
  | some path =>
    match screen with
    | none => throw (.parameter s!"{name} has no display")
    | some screen =>
      writeFile path (.picture (screen.picture 4))
      chat o.verbose s!"Wrote screenshot to {path}"

/-- Runs a program on a machine and prints what came of it. -/
def runProgram (σ : Type) [Machine σ] (o : EmulateOrder) (a : Architecture) (result : Assembly) :
    Tool Unit := do
  let loaded : Runner σ := Runner.new.load (programWords a.wordSize result.lines)
  let runner := o.breakpoints.foldl Runner.addBreakpoint loaded
  let name := a.name
  let source := o.source
  let steps := o.steps
  chat o.verbose s!"Running {source} on {name} for up to {steps} steps..."
  let (runner, progress, stop) := runner.run ⟨o.steps, (o.speed.map isPaced).getD false, none⟩
  if o.trace then
    progress.trace.reverse.forM fun pc => say ("pc=" ++ Text.markedHex 0 pc)
  let stop ← orTrouble (fun e : MachineFault => .operation e.message) stop
  say (stop.text?.getD "")
  let steps := stop.steps
  say s!"Steps: {steps}"
  say (Machine.display runner.machine)
  deliverScreen o name (Machine.screen? runner.machine)

/-- The tool that runs programs. -/
def emulateTool (args : List String) : Tool Unit :=
  withArguments emulateName emulateSwitches true args fun a => do
    let o ← emulateOrder a
    let architecture ← architectureFor o.target (← currentSettings)
    match architecture.machine with
    | none => throw (.operation architecture.noMachineMessage)
    | some kind =>
      let result ← assembleFile o.source architecture
      stopOnErrors result o.source
      match kind with
      | .v8 => runProgram V8.State o architecture result
      | .bitzzy => runProgram Bitzzy.State o architecture result
      | .parva => runProgram Parva.State o architecture result

end PocketAsm.Shell
