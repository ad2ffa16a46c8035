/-
  Isa/Parva/Display.lean --- the display of the Parva.

  The screen has 64 by 48 pixels.  Blocks of pixels are drawn into a buffer at
  the cursor; showing the buffer adds its pixels to the screen and empties it.
-/
import PocketAsm.Bits.Basic

set_option autoImplicit false

namespace PocketAsm.Parva

/-! ## Screens -/

/-- The pixels of a row. -/
def screenWidth : Nat := 64

/-- The rows of a screen. -/
def screenHeight : Nat := 48

/-- A screen, row after row. -/
structure Screen where
  pixels : Vector Bool 3072
  deriving DecidableEq, Repr

namespace Screen

/-- The dark screen. -/
def blank : Screen := ⟨Vector.replicate 3072 false⟩

instance : Inhabited Screen := ⟨blank⟩

/-- The place lies on the screen. -/
def contains (x y : Int) : Bool := 0 ≤ x && x < 64 && 0 ≤ y && y < 48

/-- The number of a place on the screen. -/
def place (x y : Int) : Nat := (y * 64 + x).toNat

/-- The pixel at a place; off the screen there is none. -/
def get (s : Screen) (x y : Int) : Bool := contains x y && s.pixels[place x y]?.getD false

/-- The screen after a pixel is set; off the screen nothing happens. -/
def set (s : Screen) (x y : Int) (value : Bool) : Screen :=
  if contains x y then ⟨s.pixels.setIfInBounds (place x y) value⟩ else s

/-- The pixels of both screens. -/
def merge (s t : Screen) : Screen := ⟨s.pixels.zipWith (· || ·) t.pixels⟩

/-- The rows of a screen. -/
def rows (s : Screen) : List (List Bool) := Bits.pieces screenWidth s.pixels.toList

/-- The screen as text, a full block for each lit pixel. -/
def text (s : Screen) : String :=
  "\n".intercalate
    (s.rows.map fun row => String.ofList (row.map fun lit => if lit then '█' else ' '))

end Screen

/-- A picture of black and white pixels. -/
structure Picture where
  width : Nat
  height : Nat
  rows : List (List Bool)
  deriving DecidableEq, Repr, Inhabited

/-- The screen as a picture in which each pixel is a square of the given size. -/
def Screen.picture (s : Screen) (scale : Nat) : Picture where
  width := screenWidth * scale
  height := screenHeight * scale
  rows := s.rows.flatMap fun row => List.replicate scale (row.flatMap (List.replicate scale))

/-- The screen as a picture of any scale; without pixels there is none. -/
def Screen.picture? (s : Screen) (scale : Int) : Option Picture :=
  if 0 < scale then some (s.picture scale.toNat) else none

/-! ## The display -/

/-- Screen, buffer and cursor. -/
structure Display where
  cursorX : Int
  cursorY : Int
  screen : Screen
  buffer : Screen
  deriving DecidableEq, Repr, Inhabited

namespace Display

/-- The display after reset. -/
def blank : Display := ⟨0, 0, .blank, .blank⟩

/-- The columns of a block. -/
def blockWidth : Nat := 6

/-- The rows of one half of a block. -/
def halfHeight : Nat := 4

/-- The places of half a block: columns and rows from its corner, row by row. -/
def blockCells : List (Nat × Nat) :=
  (List.range halfHeight).flatMap fun row => (List.range blockWidth).map fun column => (column, row)

/-- The bit of a word that lights a cell of half a block: the most significant one comes first. -/
def cellBit (word : Int) (column row : Nat) : Bool :=
  word / Bits.span (23 - (column + row * blockWidth)) % 2 == 1

/-- Draws a block at the cursor into the buffer: the first word is its upper half, the second one
its lower half.  What falls off the screen is lost. -/
def draw (d : Display) (top bottom : Int) : Display :=
  { d with
    buffer := blockCells.foldl (fun buffer (column, row) =>
      let x := d.cursorX + column
      let y := d.cursorY + row
      (buffer.set x y (cellBit top column row)).set x (y + halfHeight)
        (cellBit bottom column row)) d.buffer }

/-- Carries out a command with its two arguments.  Unknown commands do nothing. -/
def command (d : Display) (number : Int) (a b : Int) : Display :=
  if number = 0 then { d with cursorX := a, cursorY := b }
  else if number = 2 then d.draw a b
  else if number = 3 then { d with screen := d.screen.merge d.buffer, buffer := .blank }
  else if number = 4 then { d with screen := .blank }
  else d

end Display

end PocketAsm.Parva
