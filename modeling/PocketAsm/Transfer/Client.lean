/-
  Transfer/Client.lean --- sending words through a bridge.

  The client writes its request and reads reports until one of them is final.
  What is at the other end of the connection is given: nothing at all, a peer
  with fixed answers, or a bridge.
-/
import PocketAsm.Transfer.Bridge

set_option autoImplicit false

namespace PocketAsm.Transfer

/-- Where a bridge is looked for. -/
structure Address where
  host : String
  port : Int
  deriving DecidableEq, Repr, Inhabited

/-- Where a bridge is looked for unless told otherwise. -/
def Address.standard : Address := ⟨"localhost", 8090⟩

/-- What answers a connection. -/
inductive Peer where
  /-- the connection fails -/
  | absent (cause : String)
  /-- these lines are answered, then the peer hangs up -/
  | scripted (answers : List String)
  /-- a bridge of its own -/
  | bridge
  deriving DecidableEq, Repr, Inhabited

/-- What came of a transfer. -/
structure Exchange where
  /-- the reports that came back -/
  reports : List Status
  outcome : Except Failure Status
  /-- the messages that the sink of the bridge took -/
  sent : List Message

namespace Client

/-- Reads lines until a report is final; the reports that were read go before. -/
def readReports : List String → List Status × Except Failure Status
  | [] => ([], .error (.transfer .hungUp))
  | line :: lines =>
    if maxLineBytes < line.utf8ByteSize then ([], .error .longLine)
    else
      match Status.parse line with
      | .error e => ([], .error e)
      | .ok status =>
        if status.finished then ([status], .ok status)
        else
          let (later, outcome) := readReports lines
          (status :: later, outcome)

/-- The lines that a client writes. -/
def requestLines (words : List Word) (delay : Delay) (cancel : Bool) : List String :=
  Request.dataLine words delay :: if cancel then [Request.cancelLine] else []

/-- What comes of a request that is written to a peer.  A cancellation that stands from the beginning
reaches a bridge before its transfer has sent anything. -/
def exchange (peer : Peer) (address : Address) (request : List String) : Exchange :=
  match peer with
  | .absent cause =>
    ⟨[], .error (.transfer (.unreachable address.host address.port cause)), []⟩
  | .scripted answers =>
    let (reports, outcome) := readReports (answers.flatMap Text.lines)
    ⟨reports, outcome, []⟩
  | .bridge =>
    let b := ((Bridge.new.step .connect).handleAll 0 request).settle 0 fun _ => none
    let (reports, outcome) := readReports ((b.reports 0).map Status.line)
    ⟨reports, outcome, b.sent.toList⟩

/-- Sends words to whatever answers at an address; a request with a number that cannot be written
gets no further than to the connection. -/
def sendWords (peer : Peer) (address : Address) (words : List Word) (delay : Delay)
    (cancel : Bool) : Exchange :=
  match peer, Request.isWritable words delay with
  | .absent _, _ | _, true => exchange peer address (requestLines words delay cancel)
  | _, false => ⟨[], .error (.arithmetic .longNumber), []⟩

end Client

end PocketAsm.Transfer
