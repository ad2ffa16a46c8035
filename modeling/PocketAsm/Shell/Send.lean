/-
  Shell/Send.lean --- the tool that sends programs.

  It has four commands: run a bridge, push a program through one, print a
  single message, and list the serial ports.
-/
import PocketAsm.Memory
import PocketAsm.Shell.Console
import PocketAsm.Transfer.Image

set_option autoImplicit false

namespace PocketAsm.Shell

open PocketAsm.Transfer

/-- The name of the tool. -/
def sendName : String := "lbpsend"

/-- The options before the command. -/
def sendSwitches : List Switch :=
  generalSwitches ++ [.valued ["--host"] "host", .valued ["--port"] "port", verboseSwitch]

/-- The options of a command; help is one of all of them. -/
def commandSwitches (switches : List Switch) : List Switch :=
  .flag ["--help"] "help" :: switches

/-! ## A bridge -/

/-- Opens the serial line that a bridge writes to. -/
def openSink (device : String) (baud : String) : Tool Unit := do
  let rate := ((Text.readInt 10 baud).getD SerialSetup.defaultBaudRate)
  let _ ← orTrouble (fun e : SerialFault => .operation e.message)
    (SerialLine.openAt device rate "\n" (← read).serialTrouble)

/-- Runs a bridge until it is interrupted, which is at once. -/
def serve (address : Address) (a : Arguments) : Tool Unit := do
  demand a.operands.isEmpty
  let baud ← chosen a "baud" (SerialSetup.baudRates.map toString)
  match a.last? "serial" with
  | some device => openSink device (baud.getD (toString SerialSetup.defaultBaudRate))
  | none => pure ()
  let host := address.host
  let port := address.port
  say s!"Bridge listening on {host}:{port} (Ctrl-C to stop)"
  match (← read).listenTrouble with
  | some cause => throw (.internal cause)
  | none => say "\nBridge stopped"

/-! ## Pushing -/

/-- The words to send: those of an image file, or of a program. -/
def loadWords (path : String) (target : Option String) (start : Int) : Tool (List Word) := do
  if Text.lower (Path.extension path) = ".json" then
    let content ← orTrouble (Trouble.ofFile path) ((← get).files.read path)
    match readImage start (content.lines?.getD "") with
    | .ok words => pure words
    | .error .tooDeep => throw (Trouble.ofTransfer .tooDeep)
    | .error (.arithmetic .overflow) => throw (Trouble.ofTransfer (.arithmetic .overflow))
    | .error _ => throw (.operation (TransferFault.notImage path).message)
  else
    let architecture ← architectureFor target (← currentSettings)
    let result ← assembleFile path architecture
    stopOnErrors result path
    pure ((payload architecture.wordSize start result.lines).map fun (a, v) => (a, (v : Int)))

/-- Shows a report: while words are sent each one takes the place of the one before. -/
def showStatus (s : Status) : Tool Unit :=
  let shown := WideText.ofString "\r" ++ s.message
  if s.kind = .sending then write shown
  else say (shown ++ WideText.ofString ("\nChecksum: " ++ Text.markedHex 6 s.checksum))

/-- Pushes a program through a bridge. -/
def push (address : Address) (a : Arguments) : Tool Unit := do
  let target ← chosen a "target" Architecture.names
  let start ← require (address? ((a.last? "start").getD "0"))
  let delay ← match a.last? "delay" with
    | some text => some <$> require (integerWithin? 0 none text)
    | none => pure none
  let source ← require (← sourceFile? a)
  let words ← loadWords source target start
  let delay ← match delay with
    | some n => pure n
    | none => pure (← currentSettings).sendDelay
  let count := words.length
  let host := address.host
  let port := address.port
  say s!"Sending {count} values to {host}:{port}..."
  let x := Client.sendWords (← read).peer address words (.whole delay) false
  x.reports.forM showStatus
  let status ← orTrouble Trouble.ofTransfer x.outcome
  if status.kind = .error then
    throw (.operation status.message)

/-! ## Messages and ports -/

/-- Prints the message for a command and a value. -/
def printMessage (a : Arguments) : Tool Unit := do
  match a.operands with
  | [command, value] =>
    let command ← require (integerWithin? 0 (some 15) command)
    let value ← require (address? value)
    let troubleOf : Failure → Trouble
      | .transfer _ => .misuse
      | _ => .stop 1
    say (← orTrouble troubleOf (tryEncode value command))
  | _ => throw .misuse

/-- Lists the serial ports. -/
def listPorts (a : Arguments) : Tool Unit := do
  demand a.operands.isEmpty
  say (Port.listing (← read).ports)

/-! ## The tool -/

/-- The part of the tool that a command line starts, as troubles name it. -/
def sendLabel (command : String) : Option String :=
  if command = "serve" then some "Bridge"
  else if command = "push" then some "Transfer"
  else none

/-- The command that the operands of the tool begin with. -/
def sendCommand (address : Address) (command : String) (args : List String) : Tool Unit :=
  let commandLine (switches : List Switch) (body : Arguments → Tool Unit) : Tool Unit :=
    withArguments command (commandSwitches switches) true args body
  match command with
  | "serve" =>
    commandLine
      [.valued ["--serial"] "serial", .valued ["-b", "--baud"] "baud", .flag ["--echo"] "echo"]
      (serve address)
  | "push" =>
    commandLine [targetSwitch, .valued ["--start"] "start", .valued ["-d", "--delay"] "delay"]
      (push address)
  | "encode" => commandLine [] printMessage
  | "ports" => commandLine [] listPorts
  | _ => throw .misuse

/-- The tool that sends programs. -/
def sendTool (args : List String) : Tool Unit :=
  withArguments sendName sendSwitches false args fun a => do
    let port ← require
      (integerWithin? 0 (some 65535) ((a.last? "port").getD (toString Address.standard.port)))
    match a.operands with
    | [] => throw .misuse
    | command :: rest =>
      sendCommand ⟨(a.last? "host").getD Address.standard.host, port⟩ command rest

/-- The command on a command line of the tool. -/
def commandOf (args : List String) : String :=
  match readArguments sendSwitches false args ⟨[], []⟩ with
  | .ok a => a.operands.head?.getD ""
  | .error _ => ""

end PocketAsm.Shell
