/-
  Bits/Note.lean --- values as the note blocks of the machine show them.

  A note block shows nineteen bits exactly.  A wider field is scaled down by a
  power of two, shown to five places and followed by the scale.
-/
import PocketAsm.Binary64.Checked
import PocketAsm.Binary64.Text
import PocketAsm.Bits.Basic

set_option autoImplicit false

namespace PocketAsm.Bits

/-- The widest field that is shown as it is. -/
def notePrecision : Int := 19

/-- The value of a field as a note block shows it. -/
def note (value width : Int) : Except NumberFault String :=
  if width ≤ notePrecision then decimalText value
  else
    let scale := span (width - notePrecision).toNat
    match Binary64.quotient value scale with
    | .error e => .error e
    | .ok x =>
      match decimalText scale with
      | .error e => .error e
      | .ok scaleText =>
        let shown := x.fixed 5
        .ok s!"{shown} x{scaleText}"

end PocketAsm.Bits
