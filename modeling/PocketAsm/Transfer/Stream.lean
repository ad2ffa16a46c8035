/-
  Transfer/Stream.lean --- what is sent for a list of pairs.

  The address of a pair is sent only when it does not follow the one before,
  the high half of a value only when it changed, and the checksum before every
  eighth pair and at the end.  None of this depends on the receiver, so the
  whole transfer is a list of acts; what interferes from outside, a sink that
  refuses a message or somebody who cancels, is asked for at each act.
-/
import PocketAsm.Transfer.Message
import PocketAsm.Transfer.Progress
import PocketAsm.Transfer.Status

set_option autoImplicit false

namespace PocketAsm.Transfer

/-- An address with the word that belongs there. -/
abbrev Word : Type := Int × Int

/-! ## Messages -/

/-- What the sender remembers between two pairs. -/
structure Sender where
  /-- the pairs sent -/
  index : Nat
  /-- the last address -/
  address : Option Int
  /-- the last high half of a value -/
  high : Option Int
  /-- of the pairs sent, modulo the number of words of 24 bits -/
  checksum : Int
  deriving DecidableEq, Repr, Inhabited

/-- The pairs between two checksums. -/
def checksumInterval : Nat := 8

/-- The checksum with a pair added. -/
def addToChecksum (checksum : Int) (w : Word) : Int := (checksum + w.1 + w.2) % 0x1000000

namespace Sender

/-- Nothing is sent yet. -/
def start : Sender := ⟨0, none, none, 0⟩

/-- A pair was sent. -/
def after (s : Sender) (w : Word) : Sender :=
  ⟨s.index + 1, some w.1, some (highHalf w.2), addToChecksum s.checksum w⟩

/-- A checksum stands before the next pair. -/
def checksumDue (s : Sender) : Bool := s.index % checksumInterval == 0 && s.index != 0

/-- The address follows the last one. -/
def follows (s : Sender) (address : Int) : Bool := s.address == some (address - 1)

end Sender

/-- The messages that carry a checksum. -/
def checksumMessages (checksum : Int) : List Message :=
  [⟨.checksumHigh, highHalf checksum⟩, ⟨.checksumLow, lowHalf checksum⟩]

/-- The messages that set the address. -/
def addressMessages (address : Int) : List Message :=
  [⟨.unlockAddress, 0⟩, ⟨.addressLow, lowHalf address⟩, ⟨.addressHigh, highHalf address⟩]

/-- The messages for a pair. -/
def pairMessages (s : Sender) (w : Word) : List Message :=
  (if s.checksumDue then checksumMessages s.checksum else []) ++
    (if s.follows w.1 then [] else addressMessages w.1) ++
    (if s.high = some (highHalf w.2) then [] else [⟨.valueHigh, highHalf w.2⟩]) ++
    [⟨.valueLow, lowHalf w.2⟩]

/-! ## Acts -/

/-- What a transfer does next. -/
inductive Act where
  /-- report where the transfer is -/
  | report (status : Status)
  /-- send a message -/
  | send (message : Message)
  /-- stop here if the transfer is cancelled -/
  | check (checksum : Int)
  /-- report the end -/
  | finish (status : Status)
  /-- a number cannot be computed -/
  | giveUp (fault : NumberFault)
  deriving DecidableEq, Repr, Inhabited

/-- The pause after a message; one that cannot be computed ends the transfer. -/
def pause (delay : Delay) : List Act :=
  match delay.seconds with
  | .ok _ => []
  | .error e => [.giveUp e]

/-- The acts that send messages. -/
def sendAll (delay : Delay) (messages : List Message) : List Act :=
  messages.flatMap fun m => .send m :: pause delay

/-- The report before a pair. -/
def announce (delay : Delay) (total : Nat) (s : Sender) : Act :=
  match progressText s.index total delay with
  | .ok text => .report ⟨.sending, text, s.checksum⟩
  | .error e => .giveUp e

/-- The acts for one pair. -/
def pairActs (delay : Delay) (total : Nat) (s : Sender) (w : Word) : List Act :=
  announce delay total s :: sendAll delay (pairMessages s w) ++ [.check (s.after w).checksum]

/-- The acts for the pairs that are left. -/
def actsFrom (delay : Delay) (total : Nat) : Sender → List Word → List Act
  | s, [] =>
    sendAll delay (checksumMessages s.checksum) ++
      [.finish ⟨.complete, s!"Sent {total} values", s.checksum⟩]
  | s, w :: ws => pairActs delay total s w ++ actsFrom delay total (s.after w) ws

/-- All acts of a transfer. -/
def acts (delay : Delay) (words : List Word) : List Act :=
  sendAll delay [⟨.resetChecksum, 0⟩] ++ actsFrom delay words.length Sender.start words

/-! ## Effects -/

/-- What an act comes to. -/
structure Effect where
  /-- the message that the sink took -/
  sent : Option Message
  /-- the report that was made -/
  reported : Option Status
  /-- how the transfer ended, if it did -/
  outcome : Option (Except Failure Status)

/-- The report of a cancelled transfer. -/
def cancelledAt (checksum : Int) : Status := ⟨.cancelled, "Cancelled", checksum⟩

/-- The effect of an act, given how the sink would refuse a message and whether the transfer is
cancelled.  A message that does not fit ends the transfer in another way if its value is too long to
be put into words. -/
def Act.effect (refusal : Option TransferFault) (cancelled : Bool) : Act → Effect
  | .report status => ⟨none, some status, none⟩
  | .send m =>
    match m.encode, refusal with
    | .error e, _ => ⟨none, none, some (.error (.ofFault e))⟩
    | .ok _, some e => ⟨none, none, some (.error (.transfer e))⟩
    | .ok _, none => ⟨some m, none, none⟩
  | .check checksum =>
    if cancelled then
      ⟨none, some (cancelledAt checksum), some (.ok (cancelledAt checksum))⟩
    else ⟨none, none, none⟩
  | .finish status => ⟨none, some status, some (.ok status)⟩
  | .giveUp e => ⟨none, none, some (.error (.arithmetic e))⟩

/-- What a transfer did. -/
structure Log where
  sent : Array Message
  reported : Array Status
  deriving DecidableEq, Repr, Inhabited

/-- The log after an effect. -/
def Log.add (log : Log) (e : Effect) : Log where
  sent := (e.sent.map log.sent.push).getD log.sent
  reported := (e.reported.map log.reported.push).getD log.reported

/-- Carries out acts until one of them ends the transfer.  The sink and the canceller are asked with
the number of messages that the sink took. -/
def perform (refusal : Nat → Option TransferFault) (cancelled : Nat → Bool) :
    List Act → Log → Log × Option (Except Failure Status)
  | [], log => (log, none)
  | act :: rest, log =>
    let e := act.effect (refusal log.sent.size) (cancelled log.sent.size)
    match e.outcome with
    | some outcome => (log.add e, some outcome)
    | none => perform refusal cancelled rest (log.add e)

/-- Sends words to a sink. -/
def writeWords (delay : Delay) (refusal : Nat → Option TransferFault) (cancelled : Nat → Bool)
    (words : List Word) : Log × Option (Except Failure Status) :=
  perform refusal cancelled (acts delay words) ⟨#[], #[]⟩

end PocketAsm.Transfer
