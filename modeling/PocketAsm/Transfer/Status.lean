/-
  Transfer/Status.lean --- status reports.

  A report says where a transfer is, in words, and gives the checksum of what
  was sent.  It travels as a JSON object on a line of its own.
-/
import PocketAsm.Json.Display
import PocketAsm.Json.Integer
import PocketAsm.Json.Reader
import PocketAsm.Json.Writer
import PocketAsm.Transfer.Fault

set_option autoImplicit false

namespace PocketAsm.Transfer

/-- Where a transfer is. -/
inductive StatusKind where
  | sending
  | complete
  | cancelled
  | error
  deriving DecidableEq, Repr, Inhabited

namespace StatusKind

/-- The name of a kind. -/
def name : StatusKind → String
  | .sending => "sending"
  | .complete => "complete"
  | .cancelled => "cancelled"
  | .error => "error"

/-- The kind with the given name. -/
def ofName? (name : String) : Option StatusKind :=
  [StatusKind.sending, .complete, .cancelled, .error].find? (·.name == name)

theorem ofName?_name (k : StatusKind) : ofName? k.name = some k := by
  cases k <;> decide

end StatusKind

/-- A report on a transfer. -/
structure Status where
  kind : StatusKind
  message : WideText
  /-- of the pairs sent so far -/
  checksum : Int
  deriving DecidableEq, Repr, Inhabited

namespace Status

/-- The transfer is over. -/
def finished (s : Status) : Bool := s.kind != .sending

/-- The report of an error. -/
def ofError (message : WideText) : Status := ⟨.error, message, 0⟩

/-- The report as a JSON object. -/
def json (s : Status) : Json :=
  .obj [("status", .str s.kind.name), ("message", .str s.message), ("checksum", .int s.checksum)]

/-- The report on one line. -/
def line (s : Status) : String := s.json.write

/-- The kind that a member of a report stands for. -/
def kindOf? : Json → Option StatusKind
  | .str name => name.string?.bind StatusKind.ofName?
  | _ => none

/-- The report a line holds. -/
def parse (s : WideText) : Except Failure Status :=
  match Json.parse s with
  | .error .tooDeep => .error .tooDeep
  | .ok (.obj members) =>
    match (Json.member? "status" members).bind kindOf?, Json.member? "message" members with
    | some kind, some message =>
      match ((Json.member? "checksum" members).getD (.int 0)).integer with
      | .error .overflow => .error (.arithmetic .overflow)
      | .error _ => .error (.transfer .badStatus)
      | .ok checksum => .ok ⟨kind, message.asText, checksum⟩
    | _, _ => .error (.transfer .badStatus)
  | _ => .error (.transfer .badStatus)

end Status

end PocketAsm.Transfer
