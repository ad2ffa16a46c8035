/-
  Transfer/Fault.lean --- why a transfer fails.

  A fault is a breach of the protocol or a broken connection.  Apart from
  them the arithmetic of delays and progress may have no result, a line may be
  too long or nest too deep to be read, and a fault may name a number with too
  many digits to be put into words.
-/
import PocketAsm.Fault

set_option autoImplicit false

namespace PocketAsm.Transfer

/-- Why a transfer cannot go on. -/
inductive TransferFault where
  /-- the value of a message is wider than its field -/
  | wideValue (value : Int)
  /-- the command of a message is wider than its field -/
  | wideCommand (command : Int)
  /-- the text is no message; its beginning is shown -/
  | badMessage (start : String)
  /-- a letter occurs too often for its field -/
  | manyLetters
  /-- the line is no JSON text -/
  | badJson
  /-- the line holds no object -/
  | notObject
  /-- no request has this type -/
  | unknownRequest (shown : String)
  /-- the text of the pairs is no JSON text -/
  | badData
  /-- the pairs are no list -/
  | notPairs
  /-- an item of the list is no pair -/
  | badPair (shown : String)
  /-- the speed is no number from zero on -/
  | badSpeed (shown : String)
  /-- the line is no status report -/
  | badStatus
  /-- the file holds no memory image -/
  | notImage (path : String)
  /-- the bridge cannot be reached -/
  | unreachable (host : String) (port : Int) (cause : String)
  /-- the bridge hung up before the transfer was finished -/
  | hungUp
  /-- the device may not be used -/
  | noPermission (device : String)
  /-- there is no such device -/
  | noDevice (device : String)
  /-- the device cannot be opened -/
  | notOpened (device cause : String)
  /-- the device does not take what is written -/
  | writeFailed (device cause : String)
  deriving DecidableEq, Repr, Inhabited

namespace TransferFault

/-- The connection is at fault, not the protocol. -/
def isConnection : TransferFault → Bool
  | .unreachable .. | .hungUp | .noPermission _ | .noDevice _ | .notOpened .. | .writeFailed .. =>
    true
  | _ => false

/-- What takes the place of the fault: its number is too long to be put into words. -/
def fatal? : TransferFault → Option NumberFault
  | .wideValue number | .wideCommand number =>
    if Text.isWritable number then none else some .longNumber
  | _ => none

/-- The cause in words. -/
def message : TransferFault → String
  | .wideValue value => s!"Value {value} does not fit in 12 bits"
  | .wideCommand command => s!"Command {command} does not fit in 4 bits"
  | .badMessage start => s!"Malformed message: {start}"
  | .manyLetters => "Letter count exceeds 4 bits"
  | .badJson => "Invalid JSON"
  | .notObject => "Request must be a JSON object"
  | .unknownRequest shown => s!"Unknown request type: {shown}"
  | .badData => "Invalid data"
  | .notPairs => "Data must be a list of [address, value] pairs"
  | .badPair shown => s!"Invalid pair: {shown}"
  | .badSpeed shown => s!"Invalid speed: {shown}"
  | .badStatus => "Malformed status"
  | .notImage path => s!"{path} is not a memory image: ..."
  | .unreachable host port cause => s!"Cannot connect to bridge at {host}:{port}: {cause}"
  | .hungUp => "Bridge closed the connection before the transfer finished"
  | .noPermission device =>
    s!"Permission denied accessing {device}. " ++
      "You may need to add your user to the 'dialout' group."
  | .noDevice device =>
    s!"Serial port not found: {device}. Use 'lbpsend ports' to list available ports."
  | .notOpened device cause => s!"Cannot open {device}: {cause}"
  | .writeFailed device cause => s!"Write to {device} failed: {cause}"

end TransferFault

/-- How an operation of a transfer ends without a result. -/
inductive Failure where
  /-- the transfer fails -/
  | transfer (fault : TransferFault)
  /-- a number cannot be computed, or not be written -/
  | arithmetic (fault : NumberFault)
  /-- a line is longer than any that is read -/
  | longLine
  /-- the values of a line nest too deep -/
  | tooDeep
  deriving DecidableEq, Repr, Inhabited

/-- The failure with a fault, if the fault can be put into words. -/
def Failure.ofFault (fault : TransferFault) : Failure :=
  match fault.fatal? with
  | some e => .arithmetic e
  | none => .transfer fault

theorem Failure.ofFault_wideValue (n : Int) : Failure.ofFault (.wideValue n) =
    if Text.isWritable n then .transfer (.wideValue n) else .arithmetic .longNumber := by
  rw [ofFault, TransferFault.fatal?]
  split <;> simp_all

theorem Failure.ofFault_wideCommand (n : Int) : Failure.ofFault (.wideCommand n) =
    if Text.isWritable n then .transfer (.wideCommand n) else .arithmetic .longNumber := by
  rw [ofFault, TransferFault.fatal?]
  split <;> simp_all

/-- A fault that has no words ends in the one way for all numbers that are too long. -/
theorem Failure.ofFault_cases (fault : TransferFault) :
    Failure.ofFault fault = .transfer fault ∨ Failure.ofFault fault = .arithmetic .longNumber := by
  cases fault with
  | wideValue n =>
    rw [ofFault_wideValue]
    split <;> simp
  | wideCommand n =>
    rw [ofFault_wideCommand]
    split <;> simp
  | _ => exact .inl rfl

end PocketAsm.Transfer
