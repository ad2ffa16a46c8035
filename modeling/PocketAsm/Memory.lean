/-
  Memory.lean --- memory images.

  A memory maps addresses to words.  It is sparse: an address that was never
  written reads as zero.  The finished lines of a program make an image, each
  instruction cut into words from its address upwards; where two overlap the
  later one wins.
-/
import PocketAsm.Assembly
import Std.Data.TreeMap

set_option autoImplicit false

namespace PocketAsm

/-- A sparse memory. -/
structure Memory where
  cells : Std.TreeMap Int Nat
  deriving Inhabited

namespace Memory

/-- The memory that was never written. -/
def empty : Memory := ⟨∅⟩

/-- The word at an address. -/
def read (m : Memory) (address : Int) : Nat := m.cells.getD address 0

/-- The memory after a word is written. -/
def write (m : Memory) (address : Int) (value : Nat) : Memory := ⟨m.cells.insert address value⟩

/-- The memory after the words of some pairs are written one after the other. -/
def writeAll (m : Memory) (words : List (Int × Nat)) : Memory :=
  words.foldl (fun m w => m.write w.1 w.2) m

/-- The written words in the order of their addresses. -/
def toList (m : Memory) : List (Int × Nat) := m.cells.toList

/-- The written words at or above an address, in the order of their addresses. -/
def wordsFrom (m : Memory) (start : Int) : List (Int × Nat) := m.toList.filter (start ≤ ·.1)

/-- The addresses at which two memories differ, with the words of the second. -/
def changes (before after : Memory) : List (Int × Nat) :=
  let addresses := (before.writeAll after.toList).toList.map (·.1)
  (addresses.filter fun a => before.read a != after.read a).map fun a => (a, after.read a)

@[simp] theorem read_empty (a : Int) : empty.read a = 0 := by
  simp [empty, read]

theorem read_write (m : Memory) (a b : Int) (v : Nat) :
    (m.write a v).read b = if a = b then v else m.read b := by
  simp [read, write, Std.TreeMap.getD_insert]

end Memory

/-! ## Images -/

/-- The words of a finished line with their addresses. -/
def OutputLine.words (wordSize : Nat) : OutputLine → List (Int × Nat)
  | .label _ => []
  | .instruction address bits _ =>
    (Bits.words wordSize bits).mapIdx fun offset value => (((address + offset : Nat) : Int), value)

namespace Memory

/-- The image of finished lines. -/
def image (wordSize : Nat) (lines : List OutputLine) : Memory :=
  empty.writeAll (lines.flatMap (·.words wordSize))

end Memory

/-! ## Payloads -/

/-- The line starts at or above an address; labels do not count. -/
def OutputLine.startsFrom (start : Int) : OutputLine → Bool
  | .label _ => false
  | .instruction address _ _ => start ≤ (address : Int)

/-- The words to send: those of the instructions that start at or above an address, in the order of
the source. -/
def payload (wordSize : Nat) (start : Int) (lines : List OutputLine) : List (Int × Nat) :=
  (lines.filter (·.startsFrom start)).flatMap (·.words wordSize)

end PocketAsm
