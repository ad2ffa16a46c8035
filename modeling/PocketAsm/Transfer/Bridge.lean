/-
  Transfer/Bridge.lean --- the bridge between clients and the sink.

  The bridge owns the sink.  Every client has a session: it sends request
  lines and gets status reports.  A client has one transfer at a time, and of
  all transfers one at a time holds the sink; the others wait for it.  What
  happens, and in which order, is given as events, so that every interleaving
  of lines, hang-ups and acts of the transfers is a run of `Bridge.step`.
-/
import PocketAsm.Transfer.Request

set_option autoImplicit false

namespace PocketAsm.Transfer

/-! ## Sessions -/

/-- The session of a client. -/
structure Session where
  /-- a cancellation stands -/
  cancelled : Bool
  /-- what the transfer of this client has still to do, if there is one -/
  transfer : Option (List Act)
  /-- reports are written -/
  connected : Bool
  /-- the client has hung up and the session waits for its transfer -/
  leaving : Bool
  /-- the reports written so far -/
  reports : Array Status
  /-- what broke the session off -/
  failure : Option Failure
  deriving DecidableEq, Repr, Inhabited

/-- The bytes of the longest line that is read. -/
def maxLineBytes : Nat := 65536

namespace Session

/-- The session of a client that has just connected. -/
def new : Session := ⟨false, none, true, false, #[], none⟩

/-- Lines are read: the connection is open and the client has not hung up. -/
def reads (s : Session) : Bool := s.connected && !s.leaving

/-- Writes a report, unless the connection is closed. -/
def report (s : Session) (status : Status) : Session :=
  if s.connected then { s with reports := s.reports.push status } else s

/-- Acts on a request; while a transfer is under way no other one starts. -/
def serve (s : Session) : Request → Session
  | .cancel => { s with cancelled := true }
  | .data words delay =>
    match s.transfer with
    | some _ => s.report (Status.ofError "Transfer already in progress")
    | none => { s with cancelled := false, transfer := some (acts delay words) }

/-- Something breaks the session off: the connection is closed, but a transfer goes on. -/
def breakOff (s : Session) (failure : Failure) : Session :=
  { s with connected := false, failure := some failure }

/-- Handles a line.  One that is no request is reported; one that cannot be read at all breaks the
session off. -/
def handle (s : Session) (line : String) : Session :=
  if !s.reads then s
  else if maxLineBytes < line.utf8ByteSize then s.breakOff .longLine
  else
    match Request.receive line with
    | .error (.transfer e) => s.report (Status.ofError e.message)
    | .error e => s.breakOff e
    | .ok request => s.serve request

/-- The client hangs up, which cancels its transfer; the session waits for the end of it. -/
def hangUp (s : Session) : Session :=
  if !s.reads then s
  else
    match s.transfer with
    | some _ => { s with cancelled := true, leaving := true }
    | none => { s with connected := false }

/-- There is no transfer any more; a connection that was kept open for it is closed. -/
def release (s : Session) : Session :=
  { s with transfer := none, connected := s.connected && !s.leaving }

/-- The transfer has ended.  A fault of the transfer is reported; any other failure breaks off a
session that waits for it. -/
def endTransfer (s : Session) (outcome : Except Failure Status) : Session :=
  match outcome with
  | .error (.transfer e) => (s.report (Status.ofError e.message)).release
  | .error e => (if s.leaving then s.breakOff e else s).release
  | .ok _ => s.release

/-- The transfer carries out its next act.  The message that the sink took is returned too. -/
def advance (s : Session) (refusal : Option TransferFault) : Session × Option Message :=
  match s.transfer with
  | none => (s, none)
  | some [] => (s.release, none)
  | some (act :: rest) =>
    let e := act.effect refusal s.cancelled
    let told := (e.reported.map s.report).getD s
    match e.outcome with
    | none => ({ told with transfer := some rest }, e.sent)
    | some outcome => (told.endTransfer outcome, e.sent)

end Session

/-! ## The bridge -/

/-- The bridge with its clients, which are known by their numbers. -/
structure Bridge where
  sessions : List Session
  /-- the client whose transfer holds the sink -/
  holder : Option Nat
  /-- the messages that the sink took -/
  sent : Array Message
  deriving DecidableEq, Repr, Inhabited

/-- What can happen to a bridge. -/
inductive Event where
  /-- a client connects -/
  | connect
  /-- a line of a client is handled -/
  | line (client : Nat) (text : String)
  /-- a client hangs up -/
  | hangUp (client : Nat)
  /-- the transfer of a client goes on; the sink may refuse a message -/
  | advance (client : Nat) (refusal : Option TransferFault)
  deriving DecidableEq, Repr, Inhabited

namespace Bridge

/-- A bridge without clients. -/
def new : Bridge := ⟨[], none, #[]⟩

/-- The transfer of a client goes on by one act, if it has one and nobody else holds the sink. -/
def advance (b : Bridge) (client : Nat) (refusal : Option TransferFault) : Bridge :=
  match b.sessions[client]? with
  | none => b
  | some s =>
    if s.transfer.isSome ∧ (b.holder = none ∨ b.holder = some client) then
      let (s', message) := s.advance refusal
      { sessions := b.sessions.set client s'
        holder := if s'.transfer.isSome then some client else none
        sent := (message.map b.sent.push).getD b.sent }
    else b

/-- The bridge after an event. -/
def step (b : Bridge) : Event → Bridge
  | .connect => { b with sessions := b.sessions ++ [Session.new] }
  | .line client text => { b with sessions := b.sessions.modify client (·.handle text) }
  | .hangUp client => { b with sessions := b.sessions.modify client Session.hangUp }
  | .advance client refusal => b.advance client refusal

/-- The bridge after some events. -/
def run (b : Bridge) (events : List Event) : Bridge := events.foldl step b

/-- The acts that the transfer of a client has still to do. -/
def pending (b : Bridge) (client : Nat) : Nat :=
  match (b.sessions[client]?).bind (·.transfer) with
  | some acts => acts.length
  | none => 0

/-- The transfer of a client goes on for so many acts; the sink is asked with the number of messages
it took. -/
def advanceFor (client : Nat) (refusal : Nat → Option TransferFault) : Nat → Bridge → Bridge
  | 0, b => b
  | n + 1, b => advanceFor client refusal n (b.step (.advance client (refusal b.sent.size)))

/-- The transfer of a client goes on until it has ended. -/
def settle (b : Bridge) (client : Nat) (refusal : Nat → Option TransferFault) : Bridge :=
  advanceFor client refusal (b.pending client) b

/-- Lines of a client are handled one after the other. -/
def handleAll (b : Bridge) (client : Nat) (lines : List String) : Bridge :=
  b.run (lines.map (.line client))

/-- The reports that a client got. -/
def reports (b : Bridge) (client : Nat) : List Status :=
  ((b.sessions[client]?).map (·.reports.toList)).getD []

/-- What broke the session of a client off. -/
def failure? (b : Bridge) (client : Nat) : Option Failure :=
  (b.sessions[client]?).bind (·.failure)

end Bridge

end PocketAsm.Transfer
