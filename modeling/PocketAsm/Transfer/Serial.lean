/-
  Transfer/Serial.lean --- serial lines as a sink.

  A line is opened at one of a few speeds, eight data bits, no parity, one
  stop bit and no flow control.  Each message is written with a line ending
  after it, in ASCII.
-/
import PocketAsm.Text.LowerCase
import PocketAsm.Transfer.Fault

set_option autoImplicit false

namespace PocketAsm.Transfer

/-! ## Opening -/

/-- How a line is set up. -/
structure SerialSetup where
  device : String
  baudRate : Int
  deriving DecidableEq, Repr, Inhabited

namespace SerialSetup

/-- The speeds of a line. -/
def baudRates : List Int := [9600, 19200, 38400, 57600, 115200]

/-- The speed that is used unless another one is chosen. -/
def defaultBaudRate : Int := 9600

/-- The bits of a character. -/
def dataBits : Nat := 8

/-- The bits after a character. -/
def stopBits : Nat := 1

/-- The letter for no parity. -/
def parity : String := "N"

/-- The greatest number of seconds that reading or writing takes. -/
def timeout : String := "1.0"

end SerialSetup

/-- Why a line is not opened. -/
inductive SerialFault where
  /-- lines do not have this speed -/
  | badBaudRate (rate : Int)
  /-- the device is at fault -/
  | device (fault : TransferFault)
  deriving DecidableEq, Repr, Inhabited

/-- The fault in words. -/
def SerialFault.message : SerialFault → String
  | .badBaudRate rate =>
    let valid := ", ".intercalate (SerialSetup.baudRates.map toString)
    s!"Invalid baud rate: {rate}. Valid rates: {valid}"
  | .device fault => fault.message

/-- The text holds a part. -/
def holds (part : List Char) : List Char → Bool
  | [] => part.isEmpty
  | c :: cs => part.isPrefixOf (c :: cs) || holds part cs

/-- What it means that a device is not opened, by the words of the system. -/
def openFault (device cause : String) : TransferFault :=
  let has (part : String) (text : String) : Bool := holds part.toList text.toList
  if has "Permission denied" cause then .noPermission device
  else if has "No such file" cause || has "not found" (Text.lower cause) then .noDevice device
  else .notOpened device cause

/-- A serial line with what was written to it. -/
structure SerialLine where
  setup : SerialSetup
  /-- what follows each message -/
  ending : String
  written : Array String
  /-- how often the output was flushed -/
  flushes : Nat
  /-- how often the output was discarded -/
  resets : Nat
  isOpen : Bool
  deriving DecidableEq, Repr, Inhabited

namespace SerialLine

/-- Opens a line, unless the system says why it cannot. -/
def openAt (device : String) (baudRate : Int) (ending : String) (trouble : Option String) :
    Except SerialFault SerialLine :=
  if baudRate ∉ SerialSetup.baudRates then .error (.badBaudRate baudRate)
  else
    match trouble with
    | some cause => .error (.device (openFault device cause))
    | none => .ok ⟨⟨device, baudRate⟩, ending, #[], 0, 1, true⟩

/-! ## Writing -/

/-- Why a message is not written. -/
inductive WriteFault where
  /-- a character is outside ASCII -/
  | notAscii
  /-- the device does not take it -/
  | refused (fault : TransferFault)
  deriving DecidableEq, Repr, Inhabited

/-- Writes a message, unless the system says why it cannot. -/
def send (line : SerialLine) (message : String) (trouble : Option String) :
    SerialLine × Except WriteFault Unit :=
  let text := message ++ line.ending
  if text.toList.any fun c => 127 < c.toNat then (line, .error .notAscii)
  else
    match trouble with
    | some cause => (line, .error (.refused (.writeFailed line.setup.device cause)))
    | none =>
      ({ line with written := line.written.push text, flushes := line.flushes + 1 }, .ok ())

/-- Closes a line. -/
def close (line : SerialLine) : SerialLine := { line with isOpen := false }

end SerialLine

/-! ## Ports -/

/-- A serial port of the system. -/
structure Port where
  device : String
  description : String
  /-- the vendor of a USB device -/
  vendor : Option Int
  deriving DecidableEq, Repr, Inhabited

namespace Port

/-- The vendors that are known by name. -/
def vendors : List (Int × String) :=
  [(0x0403, "FTDI"), (0x10C4, "Silicon Labs"), (0x1A86, "QinHeng"), (0x2341, "Arduino"),
   (0x2E8A, "Raspberry Pi")]

/-- The name of the vendor. -/
def vendorName? (p : Port) : Option String := p.vendor.bind fun id => vendors.lookup id

/-- The port in words. -/
def text (p : Port) : String :=
  let description := if p.description = "" then [] else ["- " ++ p.description]
  let vendor := match p.vendorName? with
    | some name => ["(" ++ name ++ ")"]
    | none => []
  " ".intercalate (p.device :: description ++ vendor)

/-- A list of ports, one to a line. -/
def listing (ports : List Port) : String :=
  if ports.isEmpty then "No serial ports found."
  else "\n".intercalate (ports.map fun p => "  " ++ p.text)

end Port

end PocketAsm.Transfer
