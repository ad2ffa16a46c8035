/-
  Isa/RegisterFile.lean --- eight registers that are chosen by three bits.

  Two of the machines have such a register file.  A register that was set reads
  as what it was set to, and the others keep their values.
-/

set_option autoImplicit false

namespace PocketAsm

/-- The number of a register in a file of eight. -/
abbrev RegisterIndex : Type := Fin 8

/-- Numerals are numbers of registers. -/
instance RegisterIndex.neZero : @NeZero Nat Zero.ofOfNat0 8 := ⟨Nat.succ_ne_zero 7⟩

/-- The register with the given number, which counts modulo eight. -/
def RegisterIndex.ofNat (n : Nat) : RegisterIndex := ⟨n % 8, Nat.mod_lt n (Nat.succ_pos 7)⟩

/-- Eight registers with their values. -/
structure RegisterFile where
  values : Vector Nat 8
  deriving DecidableEq, Repr, Inhabited

namespace RegisterFile

/-- All registers hold zero. -/
def cleared : RegisterFile := ⟨Vector.replicate 8 0⟩

/-- The value of a register. -/
def get (file : RegisterFile) (r : RegisterIndex) : Nat := file.values.get r

/-- The registers after one of them is set. -/
def set (file : RegisterFile) (r : RegisterIndex) (value : Nat) : RegisterFile :=
  ⟨file.values.set r.val value r.isLt⟩

/-- The values in the order of the registers. -/
def toList (file : RegisterFile) : List Nat := file.values.toList

theorem get_set (file : RegisterFile) (r q : RegisterIndex) (value : Nat) :
    (file.set r value).get q = if r = q then value else file.get q := by
  have h (v : Vector Nat 8) : v.get q = v[q.val] := rfl
  rw [get, set, get, h, h, Vector.getElem_set]
  simp only [Fin.ext_iff]

end RegisterFile

end PocketAsm
