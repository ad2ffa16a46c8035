/-
  Transfer/Request.lean --- what clients ask of the bridge.

  A request is a JSON object on a line of its own: either a cancellation or
  the pairs to send with the delay after each message.  The pairs are a list,
  or the JSON text of one inside a string.
-/
import PocketAsm.Json.Bytes
import PocketAsm.Transfer.Progress
import PocketAsm.Transfer.Status
import PocketAsm.Transfer.Stream

set_option autoImplicit false

namespace PocketAsm.Transfer

/-- A request to the bridge. -/
inductive Request where
  /-- send these words -/
  | data (words : List Word) (delay : Delay)
  /-- stop the running transfer -/
  | cancel
  deriving DecidableEq, Repr, Inhabited

namespace Request

/-! ## Reading -/

/-- A number from zero on as part of a pair; truth values count as numbers. -/
def natural? : Json → Option Int
  | .int n => if 0 ≤ n then some n else none
  | .bool b => some (if b then 1 else 0)
  | _ => none

/-- The pair that an item of the list stands for. -/
def pairOf (item : Json) : Except TransferFault Word :=
  match item with
  | .arr [a, v] =>
    match natural? a, natural? v with
    | some a, some v => .ok (a, v)
    | _, _ => .error (.badPair item.display)
  | _ => .error (.badPair item.display)

/-- The words of a list of pairs. -/
def wordsOf : Json → Except TransferFault (List Word)
  | .arr items => items.mapM pairOf
  | _ => .error .notPairs

/-- The delay that a member stands for: a number that is not negative. -/
def delayOf (j : Json) : Except TransferFault Delay :=
  match j with
  | .int n => if n < 0 then .error (.badSpeed j.display) else .ok (.whole n)
  | .real x => if x.isNegative then .error (.badSpeed j.display) else .ok (.real x)
  | _ => .error (.badSpeed j.display)

/-- The list that the pairs are given by; a string holds the text of it. -/
def dataOf : Json → Except Failure Json
  | .str s =>
    match Json.parse s with
    | .ok j => .ok j
    | .error .tooDeep => .error .tooDeep
    | .error .malformed => .error (.transfer .badData)
  | j => .ok j

/-- The request that the members of an object make. -/
def ofMembers (members : Json.Members) : Except Failure Request :=
  let member (key : String) : Json := (Json.member? key members).getD .null
  let kind := member "type"
  match kind.string? with
  | some "cancel" => .ok .cancel
  | some "data" =>
    match dataOf (member "data") with
    | .error e => .error e
    | .ok list =>
      match delayOf ((Json.member? "speed" members).getD Delay.standard.json) with
      | .error e => .error (.transfer e)
      | .ok delay =>
        match wordsOf list with
        | .error e => .error (.transfer e)
        | .ok words => .ok (.data words delay)
  | _ => .error (.transfer (.unknownRequest kind.display))

/-- The request a line holds. -/
def parse (line : WideText) : Except Failure Request :=
  match Json.parse line with
  | .error .tooDeep => .error .tooDeep
  | .error .malformed => .error (.transfer .badJson)
  | .ok (.obj members) => ofMembers members
  | .ok _ => .error (.transfer .notObject)

/-- The request a line holds as it comes over a connection: in bytes, with the line feed at its
end. -/
def receive (line : String) : Except Failure Request :=
  match Json.decode (line.toUTF8.data.toList ++ [10]) with
  | none => .error (.transfer .badJson)
  | some text => parse text

/-! ## Writing -/

/-- The list of pairs that stands for words. -/
def pairs (words : List Word) : Json := .arr (words.map fun w => .arr [.int w.1, .int w.2])

/-- The line that asks for words to be sent. -/
def dataLine (words : List Word) (delay : Delay) : String :=
  (Json.obj [("type", .str "data"), ("data", .str (pairs words).write),
    ("speed", delay.json)]).write

/-- The numbers of a request can be written. -/
def isWritable (words : List Word) (delay : Delay) : Bool :=
  (pairs words).isWritable && delay.json.isWritable

/-- The line that cancels a transfer. -/
def cancelLine : String := (Json.obj [("type", .str "cancel")]).write

end Request

end PocketAsm.Transfer
