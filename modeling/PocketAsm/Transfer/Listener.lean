/-
  Transfer/Listener.lean --- where a bridge listens.
-/
import PocketAsm.Transfer.Client

set_option autoImplicit false

namespace PocketAsm.Transfer

/-- A bridge's end of the connections. -/
structure Listener where
  address : Address
  listening : Bool
  deriving DecidableEq, Repr, Inhabited

namespace Listener

/-- A listener that is not started. -/
def new (address : Address) : Listener := ⟨address, false⟩

/-- Starts to listen.  Port zero stands for a free port, which the system chooses. -/
def start (l : Listener) (free : Int) : Listener :=
  { address := { l.address with port := if l.address.port = 0 then free else l.address.port }
    listening := true }

/-- Stops to listen. -/
def stop (l : Listener) : Listener := { l with listening := false }

end Listener

end PocketAsm.Transfer
