/-
  Json/Bytes.lean --- JSON text from bytes.

  JSON text begins with an ASCII character, so zeros among the first bytes
  tell the width of a code unit and the order of its bytes.  Without zeros the
  text is in UTF-8, perhaps after the mark of that encoding.
-/
import PocketAsm.Text.CodePoint

set_option autoImplicit false

namespace PocketAsm.Json

/-! ## Encodings -/

/-- How a text is made into bytes. -/
inductive Encoding where
  | utf8
  /-- two bytes to a code unit -/
  | utf16 (bigEndian : Bool)
  /-- four bytes to a character -/
  | utf32 (bigEndian : Bool)
  deriving DecidableEq, Repr, Inhabited

/-- The encoding that the first bytes tell. -/
def Encoding.detect : List UInt8 → Encoding
  | [a, b] => if a = 0 then .utf16 true else if b = 0 then .utf16 false else .utf8
  | a :: b :: c :: d :: _ =>
    if a = 0 then (if b = 0 then .utf32 true else .utf16 true)
    else if b = 0 then (if c = 0 ∧ d = 0 then .utf32 false else .utf16 false)
    else .utf8
  | _ => .utf8

/-! ## Decoding -/

/-- The number that bytes stand for, the most significant one first. -/
def ofBigEndian (bytes : List UInt8) : Nat := bytes.foldl (fun acc b => acc * 256 + b.toNat) 0

/-- The number that bytes stand for. -/
def ofBytes (bigEndian : Bool) (bytes : List UInt8) : Nat :=
  ofBigEndian (if bigEndian then bytes else bytes.reverse)

/-- The code units of two bytes each. -/
def units? (bigEndian : Bool) : List UInt8 → Option (List Nat)
  | [] => some []
  | [_] => none
  | a :: b :: rest => (units? bigEndian rest).map (ofBytes bigEndian [a, b] :: ·)

/-- The code points of four bytes each. -/
def points? (bigEndian : Bool) : List UInt8 → Option (List CodePoint)
  | [] => some []
  | a :: b :: c :: d :: rest =>
    let n := ofBytes bigEndian [a, b, c, d]
    if n ≤ 0x10FFFF then (points? bigEndian rest).map (CodePoint.ofNat n :: ·) else none
  | _ => none

/-- A text in UTF-8 without the mark of its encoding. -/
def ofUtf8? (bytes : List UInt8) : Option String :=
  (String.fromUTF8? (ByteArray.mk bytes.toArray)).map fun s =>
    match s.toList with
    | c :: cs => if c = '\uFEFF' then String.ofList cs else s
    | [] => s

/-- The text that bytes hold. -/
def decode (bytes : List UInt8) : Option WideText :=
  match Encoding.detect bytes with
  | .utf8 => (ofUtf8? bytes).map .ofString
  | .utf16 bigEndian => (units? bigEndian bytes).map fun us => ⟨CodePoint.ofUnits us⟩
  | .utf32 bigEndian => (points? bigEndian bytes).map .mk

end PocketAsm.Json
