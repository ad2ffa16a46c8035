/-
  Shell/Address.lean --- addresses on a command line.
-/
import PocketAsm.Text.LowerCase
import PocketAsm.Text.Numeral

set_option autoImplicit false

namespace PocketAsm.Shell

/-- Why a text is no address. -/
inductive AddressFault where
  /-- it is no number -/
  | notAddress (text : String)
  /-- it lies below zero -/
  | negative (text : String)
  deriving DecidableEq, Repr, Inhabited

/-- The fault in words. -/
def AddressFault.message : AddressFault → String
  | .notAddress text => s!"'{text}' is not an address"
  | .negative text => s!"address {text} is negative"

/-- The address a text holds: a number whose mark tells its radix, where a dollar stands for the mark
of hexadecimal numbers. -/
def readAddress (text : String) : Except AddressFault Int :=
  let plain := Text.lower (Text.strip text)
  let marked :=
    match plain.toList with
    | '$' :: cs => String.ofList ('0' :: 'x' :: cs)
    | _ => plain
  match Text.readMarkedInt marked with
  | none => .error (.notAddress text)
  | some n => if n < 0 then .error (.negative text) else .ok n

end PocketAsm.Shell
