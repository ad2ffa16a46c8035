/-
  Architecture.lean --- the target architectures.

  An architecture is a name with its assembly dialect, the size of its
  instructions, a reference text and, for most of them, a machine that runs
  the assembled code.
-/
import PocketAsm.Isa.Bitzzy.Dialect
import PocketAsm.Isa.Lodestar.Dialect
import PocketAsm.Isa.Parva.Dialect
import PocketAsm.Isa.V8.Dialect
import PocketAsm.Listing

set_option autoImplicit false

namespace PocketAsm

/-- The machines that can be run. -/
inductive MachineKind where
  | v8
  | bitzzy
  | parva
  deriving DecidableEq, Repr, Inhabited

/-- A target architecture. -/
structure Architecture where
  dialect : Dialect
  /-- the words of the longest instruction -/
  maxWords : Nat
  documentation : String
  /-- the machine that runs its code -/
  machine : Option MachineKind

namespace Architecture

/-- The name of an architecture is that of its dialect. -/
def name (a : Architecture) : String := a.dialect.name

/-- The bits of a machine word. -/
def wordSize (a : Architecture) : Nat := a.dialect.wordSize

/-- The sizes that a listing depends on. -/
def shape (a : Architecture) : WordShape := ⟨a.wordSize, a.maxWords⟩

/-- The eight-bit machine with sixteen-bit addresses. -/
def bitzzy : Architecture := ⟨Bitzzy.dialect, 4, Bitzzy.documentation, some .bitzzy⟩

/-- The eight-bit machine with eight registers. -/
def v8 : Architecture := ⟨V8.dialect, 2, V8.documentation, some .v8⟩

/-- The machine that shares the code of the V8. -/
def lodestar : Architecture := ⟨Lodestar.dialect, 2, Lodestar.documentation, none⟩

/-- The 24-bit machine with a display. -/
def parva : Architecture := ⟨Parva.dialect, 1, Parva.documentation, some .parva⟩

/-- All architectures. -/
def all : List Architecture := [bitzzy, v8, lodestar, parva]

/-- The names of all architectures. -/
def names : List String := all.map name

/-- The architecture that is used unless another one is chosen. -/
def defaultName : String := "parva_0_1"

/-- The architecture with the given name. -/
def find? (name : String) : Option Architecture := all.find? (·.name == name)

/-- The message for a name that no architecture has. -/
def unknownMessage (name : WideText) : WideText :=
  WideText.ofString "Unknown architecture '" ++ name ++ WideText.ofString "'"

/-- The message for an architecture without a machine. -/
def noMachineMessage (a : Architecture) : String :=
  let name := a.name
  s!"Architecture '{name}' has no emulator"

/-- One line about an architecture. -/
def summary (a : Architecture) : String :=
  let column := Text.padRight 10 ' ' a.name
  let size := Text.padLeft 2 ' ' (toString a.wordSize)
  let most := a.maxWords
  let machine := if a.machine.isSome then "emulator" else "no emulator"
  s!"{column} {size}-bit words, up to {most} per instruction, {machine}"

end Architecture

end PocketAsm
