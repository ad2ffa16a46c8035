/-
  Transfer/Message.lean --- messages to the receiver in the game.

  The receiver counts letters.  A message carries a command of four bits and a
  value of twelve; the four groups of four bits say how often the letters `a`
  to `d` occur, and `e` fills the message up to 64 letters.
-/
import PocketAsm.Text.Blank
import PocketAsm.Transfer.Fault

set_option autoImplicit false

namespace PocketAsm.Transfer

/-! ## Commands -/

/-- What the receiver is told to do. -/
inductive Command where
  /-- set the checksum to zero -/
  | resetChecksum
  /-- the low half of the address -/
  | addressLow
  /-- the high half of the address -/
  | addressHigh
  /-- the low half of a value, which is written and the address advanced -/
  | valueLow
  /-- the high half of a value -/
  | valueHigh
  /-- the low half of the checksum, which is compared -/
  | checksumLow
  /-- the high half of the checksum -/
  | checksumHigh
  /-- the halves of an address follow -/
  | unlockAddress
  deriving DecidableEq, Repr, Inhabited

/-- The number of a command. -/
def Command.code : Command → Nat
  | .resetChecksum => 0
  | .addressLow => 1
  | .addressHigh => 2
  | .valueLow => 3
  | .valueHigh => 4
  | .checksumLow => 5
  | .checksumHigh => 6
  | .unlockAddress => 7

/-- A command with its value. -/
structure Message where
  command : Command
  value : Int
  deriving DecidableEq, Repr, Inhabited

/-! ## Halves -/

/-- The low twelve bits. -/
def lowHalf (n : Int) : Int := n % 4096

/-- What is above the low twelve bits. -/
def highHalf (n : Int) : Int := n / 4096

/-! ## Letters -/

/-- The letters of a message. -/
def alphabet : List Char := ['a', 'b', 'c', 'd', 'e']

/-- The letters of a message. -/
def messageLength : Nat := 64

/-- Letters of the alphabet in order, each as often as the counts say. -/
def spell (counts : List Nat) : List Char :=
  (counts.zipWith (fun count letter => List.replicate count letter) alphabet).flatten

/-- How often the letters of the alphabet occur. -/
def countsOf (letters : List Char) : List Nat := alphabet.map (letters.count ·)

/-- The counts of the letters for sixteen bits. -/
def countsFor (bits : Nat) : List Nat :=
  let a := bits / 4096 % 16
  let b := bits / 256 % 16
  let c := bits / 16 % 16
  let d := bits % 16
  [a, b, c, d, messageLength - (a + b + c + d)]

/-- The text of the message with the given value and command. -/
def encode (value command : Int) : Except TransferFault String :=
  if ¬(0 ≤ value ∧ value ≤ 4095) then .error (.wideValue value)
  else if ¬(0 ≤ command ∧ command ≤ 15) then .error (.wideCommand command)
  else
    let letters := spell (countsFor (command.toNat * 4096 + value.toNat))
    .ok (" ".intercalate (letters.map String.singleton))

/-- The text of the message with the given value and command, whose fault may have no words. -/
def tryEncode (value command : Int) : Except Failure String :=
  (encode value command).mapError Failure.ofFault

/-- The text of a message. -/
def Message.encode (m : Message) : Except TransferFault String :=
  Transfer.encode m.value m.command.code

/-- The letters of a text if its words are single letters. -/
def singleLetters? (s : String) : Option (List Char) :=
  (Text.words s.toList).mapM fun
    | [c] => some c
    | _ => none

/-- The value and the command of a message; its letters stand in order and are 64. -/
def decode (s : String) : Except TransferFault (Nat × Nat) :=
  let malformed : TransferFault := .badMessage (String.ofList (s.toList.take 40))
  match singleLetters? s with
  | none => .error malformed
  | some letters =>
    let counts := countsOf letters
    if letters.length ≠ messageLength ∨ letters ≠ spell counts then .error malformed
    else
      match counts with
      | [a, b, c, d, _] =>
        if 15 < max (max a b) (max c d) then .error .manyLetters
        else .ok (b * 256 + c * 16 + d, a)
      | _ => .error malformed

end PocketAsm.Transfer
