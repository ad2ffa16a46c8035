/-
  Transfer/Progress.lean --- how far a transfer is, in words.

  The estimate counts two messages for each pair that is left and the
  checksums of the whole transfer.  It is computed in floating-point numbers
  from the delay after each message, which itself may be whole or not.
-/
import PocketAsm.Binary64.Checked
import PocketAsm.Binary64.Text
import PocketAsm.Json.Basic

set_option autoImplicit false

namespace PocketAsm.Transfer

/-! ## Delays -/

/-- The delay after a message in milliseconds. -/
inductive Delay where
  | whole (n : Int)
  | real (x : Binary64)
  deriving DecidableEq, Repr, Inhabited

namespace Delay

/-- The delay that is used unless another one is chosen. -/
def standard : Delay := .whole 1500

/-- The delay of two messages. -/
def doubled : Delay → Except NumberFault Binary64
  | .whole n => Binary64.ofInteger (2 * n)
  | .real x => .ok (x.mul (Binary64.ofInt 2))

/-- The delay in seconds. -/
def seconds : Delay → Except NumberFault Binary64
  | .whole n => Binary64.quotient n 1000
  | .real x => .ok (x.div (Binary64.ofInt 1000))

/-- The delay as a JSON value. -/
def json : Delay → Json
  | .whole n => .int n
  | .real x => .real x

end Delay

/-! ## Texts -/

/-- Whole seconds in minutes and seconds. -/
def minutesText (seconds : Int) : String :=
  let minutes := seconds / 60
  let rest := seconds % 60
  if minutes = 0 then s!"{rest}s" else s!"{minutes}m{rest}s"

/-- A number of seconds, rounded up. -/
def durationText (seconds : Binary64) : Except NumberFault String :=
  match seconds.ceiling with
  | .error e => .error e
  | .ok n => .ok (minutesText n)

/-- The seconds that the rest of a transfer takes. -/
def remainingTime (index total : Int) (delay : Delay) : Except NumberFault Binary64 :=
  match Binary64.quotient total 8 with
  | .error e => .error e
  | .ok checksums =>
    match Binary64.ofInteger (total - index) with
    | .error e => .error e
    | .ok pairs =>
      match delay.doubled with
      | .error e => .error e
      | .ok pause => .ok (((pairs.add checksums).mul pause).div (Binary64.ofInt 1000))

/-- The progress of a transfer before the pair with the given index. -/
def progressText (index total : Int) (delay : Delay) : Except NumberFault String :=
  match remainingTime index total delay with
  | .error e => .error e
  | .ok time =>
    match Binary64.quotient index total with
    | .error e => .error e
    | .ok part =>
      match durationText time with
      | .error e => .error e
      | .ok left =>
        let percent := (part.mul (Binary64.ofInt 100)).fixed 1
        .ok s!"{index}/{total} ({percent}%) ETA: {left}"

end PocketAsm.Transfer
