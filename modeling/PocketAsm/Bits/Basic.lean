/-
  Bits/Basic.lean --- machine code as strings of bits.

  Machine code is put together field by field, the most significant bit first.
  A value is encoded into a field of a given width, signed (two's complement)
  or unsigned; an operand field takes a negative value in an unsigned field
  too, by the signed range.
-/
import PocketAsm.Fault
import PocketAsm.Text.Numeral

set_option autoImplicit false

namespace PocketAsm

/-- A string of bits, the most significant one first. -/
abbrev Bits : Type := List Bool

namespace Bits

/-! ## Numbers and bits -/

/-- The number of strings of so many bits; also the weight of the bit that has so many below it. -/
def span (width : Nat) : Nat := Nat.pow 2 width

/-- The `width` low bits of a number. -/
def ofNat : Nat → Nat → Bits
  | 0, _ => []
  | width + 1, n => (n / span width % 2 == 1) :: ofNat width n

/-- The unsigned value of a string of bits. -/
def toNat (bits : Bits) : Nat := bits.foldl (fun acc b => 2 * acc + b.toNat) 0

/-- The value of a string of bits in two's complement. -/
def toInt (bits : Bits) : Int :=
  if bits.head? = some true then (bits.toNat : Int) - span bits.length else bits.toNat

@[simp] theorem length_ofNat (width n : Nat) : (ofNat width n).length = width := by
  induction width with
  | zero => rfl
  | succ width ih => simp [ofNat, ih]

/-! ## Fields -/

/-- The least and the greatest value of a field. -/
def range (width : Nat) (signed : Bool) : Int × Int :=
  if signed then (-span (width - 1), span (width - 1) - 1)
  else (0, span width - 1)

/-- The value in a field of the given width, if it is in the range. -/
def encode (value : Int) (width : Nat) (signed : Bool) : Except Fault Bits :=
  let (low, high) := range width signed
  if low ≤ value ∧ value ≤ high then .ok (ofNat width (value % span width).toNat)
  else .error (.outOfRange value width signed)

/-- The value in an operand field: a negative one goes by the signed range. -/
def encodeField (value : Int) (width : Nat) (signed : Bool) : Except Fault Bits :=
  encode value width (signed || value < 0)

theorem length_of_encode {value : Int} {width : Nat} {signed : Bool} {bits : Bits}
    (h : encode value width signed = .ok bits) : bits.length = width := by
  simp only [encode] at h
  split at h
  · rw [← Except.ok.inj h]
    exact length_ofNat width _
  · simp at h

theorem length_of_encodeField {value : Int} {width : Nat} {signed : Bool} {bits : Bits}
    (h : encodeField value width signed = .ok bits) : bits.length = width :=
  length_of_encode h

/-- The `width` low bits of a value, read in two's complement. -/
def signExtend (value : Int) (width : Nat) : Int :=
  let low := value % span width
  if span width ≤ 2 * low then low - span width else low

/-! ## Words -/

/-- A list in pieces of the given size, the last one perhaps shorter; at most `fuel` pieces. -/
def piecesFrom {α : Type} (size : Nat) : Nat → List α → List (List α)
  | 0, _ => []
  | _ + 1, [] => []
  | fuel + 1, xs => xs.take size :: piecesFrom size fuel (xs.drop size)

/-- A list in pieces of the given size, which is not zero; the last one may be shorter. -/
def pieces {α : Type} (size : Nat) (xs : List α) : List (List α) := piecesFrom size xs.length xs

theorem length_le_of_mem_piecesFrom {α : Type} {size : Nat} {piece : List α} :
    ∀ (fuel : Nat) (xs : List α), piece ∈ piecesFrom size fuel xs → piece.length ≤ size := by
  intro fuel
  induction fuel with
  | zero => intro xs h; simp [piecesFrom] at h
  | succ fuel ih =>
    intro xs h
    cases xs with
    | nil => simp [piecesFrom] at h
    | cons x xs =>
      rw [piecesFrom] at h
      · rcases List.mem_cons.mp h with rfl | h
        · exact List.length_take_le size (x :: xs)
        · exact ih _ h
      · simp

theorem length_le_of_mem_pieces {α : Type} {size : Nat} {xs piece : List α}
    (h : piece ∈ pieces size xs) : piece.length ≤ size :=
  length_le_of_mem_piecesFrom _ _ h

/-- The values of the words that a string of bits is made of, the first word first. -/
def words (size : Nat) (bits : Bits) : List Nat := (pieces size bits).map toNat

/-! ## Text -/

/-- A bit as a digit. -/
def digit (b : Bool) : Char := if b then '1' else '0'

/-- A string of bits as binary digits. -/
def text (bits : Bits) : String := String.ofList (bits.map digit)

/-- A fixed string of bits, written as binary digits. -/
def ofText (s : String) : Bits := s.toList.map (· == '1')

end Bits

end PocketAsm
