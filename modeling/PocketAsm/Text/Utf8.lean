/-
  Text/Utf8.lean --- why bytes are no text in UTF-8.

  The first byte of a character tells how many bytes follow it, and within
  which bounds the first of them lies.  The first place where bytes break this
  rule is the fault: a byte that begins no character, or the bytes of a
  character that is not completed.
-/
import PocketAsm.Text.Numeral

set_option autoImplicit false

namespace PocketAsm

/-- How bytes break the rule. -/
inductive Utf8Cause where
  /-- no character begins with the byte -/
  | badStart
  /-- a byte follows that does not belong to the character -/
  | badContinuation
  /-- the bytes end within a character -/
  | unexpectedEnd
  deriving DecidableEq, Repr, Inhabited

/-- The first place where bytes are no text. -/
structure Utf8Fault where
  position : Nat
  /-- the bytes at fault -/
  bytes : List UInt8
  cause : Utf8Cause
  deriving DecidableEq, Repr, Inhabited

namespace Utf8Fault

/-- The cause in words. -/
def causeText : Utf8Cause → String
  | .badStart => "invalid start byte"
  | .badContinuation => "invalid continuation byte"
  | .unexpectedEnd => "unexpected end of data"

/-- The fault in words. -/
def message (f : Utf8Fault) : String :=
  let start := f.position
  let last := f.position + f.bytes.length - 1
  let cause := causeText f.cause
  match f.bytes with
  | [b] =>
    let shown := Text.hex 2 b.toNat
    s!"'utf-8' codec can't decode byte 0x{shown} in position {start}: {cause}"
  | _ => s!"'utf-8' codec can't decode bytes in position {start}-{last}: {cause}"

/-- What the first byte of a character tells: the bytes that follow, and the bounds of the first of
them. -/
structure Lead where
  following : Nat
  least : UInt8
  most : UInt8
  deriving DecidableEq, Repr, Inhabited

/-- The lead that a byte gives. -/
def lead? (b : UInt8) : Option Lead :=
  if b < 0x80 then some ⟨0, 0x80, 0xBF⟩
  else if b < 0xC2 then none
  else if b < 0xE0 then some ⟨1, 0x80, 0xBF⟩
  else if b = 0xE0 then some ⟨2, 0xA0, 0xBF⟩
  else if b = 0xED then some ⟨2, 0x80, 0x9F⟩
  else if b < 0xF0 then some ⟨2, 0x80, 0xBF⟩
  else if b = 0xF0 then some ⟨3, 0x90, 0xBF⟩
  else if b < 0xF4 then some ⟨3, 0x80, 0xBF⟩
  else if b = 0xF4 then some ⟨3, 0x80, 0x8F⟩
  else none

/-- A character that is not completed yet. -/
structure Pending where
  position : Nat
  bytes : List UInt8
  lead : Lead
  deriving DecidableEq, Repr, Inhabited

namespace Pending

/-- The fault of a character that is not completed. -/
def fault (p : Pending) (cause : Utf8Cause) : Utf8Fault := ⟨p.position, p.bytes, cause⟩

/-- The character with one more byte, or nothing if that completes it. -/
def push (p : Pending) (b : UInt8) : Option Pending :=
  if p.lead.following ≤ 1 then none
  else some ⟨p.position, p.bytes ++ [b], ⟨p.lead.following - 1, 0x80, 0xBF⟩⟩

end Pending

/-- The fault of the bytes from a position on, where a character may be under way. -/
def findFrom (position : Nat) (pending : Option Pending) : List UInt8 → Option Utf8Fault
  | [] => pending.map (·.fault .unexpectedEnd)
  | b :: rest =>
    match pending, lead? b with
    | some p, _ =>
      if p.lead.least ≤ b && b ≤ p.lead.most then findFrom (position + 1) (p.push b) rest
      else some (p.fault .badContinuation)
    | none, none => some ⟨position, [b], .badStart⟩
    | none, some lead =>
      findFrom (position + 1) (if lead.following = 0 then none else some ⟨position, [b], lead⟩) rest

/-- The first fault of bytes. -/
def find? (bytes : List UInt8) : Option Utf8Fault := findFrom 0 none bytes

end Utf8Fault

end PocketAsm
