/-
  Isa/Parva/Machine.lean --- the Parva.

  Eight registers and words of 24 bits.  The top bits of an instruction tell
  its class: computation, memory or branch.  Branch targets are relative to
  the program counter, jump targets are not.  Addresses from $FFF000 on belong
  to devices, of which device 1 is the display.
-/
import PocketAsm.Bits.Note
import PocketAsm.Isa.Parva.Display
import PocketAsm.Isa.Parva.Register
import PocketAsm.Isa.RegisterFile
import PocketAsm.Machine

set_option autoImplicit false

namespace PocketAsm.Parva

/-! ## State -/

/-- The number of different words. -/
def wordCount : Nat := 0x1000000

/-- The first address that belongs to a device; also the value of the register `upper`. -/
def deviceBase : Nat := 0xFFF000

/-- The instruction that branches to itself. -/
def waitCode : Nat := 0xC00000

/-- The state of the machine. -/
structure State where
  memory : Memory
  registers : RegisterFile
  pc : Nat
  cycle : Nat
  display : Display
  deriving Inhabited

namespace State

/-- The value of a basic register. -/
def reg (s : State) (r : RegisterIndex) : Nat := s.registers.get r

/-- Sets a basic register to a value modulo the size of a word. -/
def setReg (s : State) (r : RegisterIndex) (value : Int) : State :=
  { s with registers := s.registers.set r (value % wordCount).toNat }

/-- The value of a register by its code of four bits. -/
def single (s : State) (code : Nat) : Nat :=
  if code < 8 then s.reg (.ofNat code)
  else if code = 9 then s.pc
  else if code = 10 then s.cycle
  else if code = 11 then deviceBase
  else 0

end State

/-- A word read in two's complement. -/
def signedWord (n : Nat) : Int := Bits.signExtend n wordSize

/-! ## Instructions -/

/-- The fields of an instruction. -/
structure Fields where
  /-- the whole word -/
  word : Nat
  deriving DecidableEq, Repr, Inhabited

namespace Fields

/-- The low twelve bits. -/
def immediate (f : Fields) : Nat := f.word % 4096

/-- The low twelve bits in two's complement. -/
def signedImmediate (f : Fields) : Int := Bits.signExtend f.immediate 12

/-- The `width` bits that have `low` bits below them. -/
def bits (f : Fields) (low width : Nat) : Nat := f.word / Bits.span low % Bits.span width

/-- The register of four bits. -/
def a (f : Fields) : Nat := f.bits 15 4

/-- The destination. -/
def d (f : Fields) : RegisterIndex := .ofNat (f.bits 12 3)

/-- The second source. -/
def b (f : Fields) : RegisterIndex := .ofNat (f.bits 9 3)

/-- The second source is the immediate field. -/
def usesImmediate (f : Fields) : Bool := f.bits 19 1 == 0

end Fields

/-- Multiplication and division; division by zero gives all ones, its remainder zero. -/
def mulDiv (kind a b : Nat) : Int :=
  match kind with
  | 0 => (a * b : Nat)
  | 1 => (a * b / wordCount : Nat)
  | 2 => if b = 0 then -1 else (a / b : Nat)
  | _ => if b = 0 then 0 else (a % b : Nat)

/-- The result of an operation on a register and a second source, which is given signed and
unsigned; `immediate` tells whether it is the immediate field. -/
def compute (kind : Nat) (immediate : Bool) (a : Nat) (signedB : Int) (b : Nat) : Int :=
  match kind with
  | 0 => a + signedB
  | 1 => if immediate then signedB * 4096 else a - signedB
  | 2 => if b < 24 then (a * Bits.span b : Nat) else 0
  | 3 => (a / Bits.span (min b 24) : Nat)
  | 4 => signedWord a / Bits.span (min b 24)
  | 5 => (a ^^^ b : Nat)
  | 6 => (a ||| b : Nat)
  | _ => (a &&& b : Nat)

/-- An instruction of the class of computations. -/
def computation (s : State) (f : Fields) : State :=
  if f.a / 4 = 3 then
    let a := s.reg (.ofNat (f.bits 20 1 * 4 + f.bits 15 2))
    let b := if f.usesImmediate then f.immediate else s.reg f.b
    s.setReg f.d (mulDiv (f.bits 21 2) a b)
  else
    let b := if f.usesImmediate then f.immediate else s.reg f.b
    let signedB : Int := if f.usesImmediate then f.signedImmediate else s.reg f.b
    s.setReg f.d (compute (f.bits 20 3) f.usesImmediate (s.single f.a) signedB b)

/-- Sends a command to a device. -/
def device (s : State) (address first second : Nat) : State :=
  if address / 1024 % 4 = 1 then
    { s with display := s.display.command (address / 64 % 16 : Nat) first second }
  else s

/-- An instruction of the class of loads and stores.  A load from a device is a command to it too. -/
def transfer (s : State) (f : Fields) : State :=
  let offset : Int := if f.usesImmediate then f.signedImmediate else s.reg f.b
  let address := ((s.single f.a + offset) % wordCount).toNat
  let double := f.bits 21 1 == 1
  let store := f.bits 20 1 == 1
  let first := s.reg f.d
  let second := s.reg (.ofNat (f.d.val ||| 1))
  if deviceBase ≤ address then device s address first second
  else if store then
    let memory := s.memory.write address first
    { s with memory := if double then memory.write (address + 1 : Nat) second else memory }
  else
    let s' := s.setReg f.d (s.memory.read address)
    if double then s'.setReg (.ofNat (f.d.val + 1)) (s.memory.read (address + 1 : Nat)) else s'

/-- Where a branch goes, if it is taken. -/
def target? (s : State) (f : Fields) : Option Int :=
  let condition := f.bits 19 3
  let a := s.single f.a
  let d := s.reg f.d
  let near : Int := s.pc + f.signedImmediate
  if condition = 6 ∧ f.d.val = 4 then some (a + f.signedImmediate)
  else if condition = 7 ∧ f.d.val = 4 then some (a + s.reg f.b : Nat)
  else
    let holds : Bool :=
      match condition / 2 with
      | 0 => a == d
      | 1 => a < d
      | 2 => signedWord a < signedWord d
      | _ => if f.d.val = 0 then signedWord a < 0 else false
    if holds != (condition % 2 == 1) then some near else none

/-- Executes the instruction at the program counter. -/
def step (s : State) : State :=
  let f : Fields := ⟨s.memory.read s.pc⟩
  let next : Int := s.pc + 1
  let (s', next) :=
    if f.bits 23 1 = 0 then (computation s f, next)
    else if f.bits 22 2 = 2 then (transfer s f, next)
    else (s, (target? s f).getD next)
  { s' with pc := (next % wordCount).toNat, cycle := (s.cycle + 1) % wordCount }

/-- The state after reset, with the words of an image in memory. -/
def load (words : List (Int × Int)) : State :=
  let memory := Memory.empty.writeAll
    ((lastWords words).map fun (address, value) => (address, (value % wordCount).toNat))
  ⟨memory, .cleared, 0, 0, .blank⟩

/-! ## Display -/

/-- A register with its value as a note block shows it. -/
def noteText (index value : Nat) : String :=
  let shown := match Bits.note value wordSize with
    | .ok text => text
    | .error _ => ""
  s!"x{index}: {shown}"

/-- The state as text: counters, registers in two forms, and the screen. -/
def displayText (s : State) : String :=
  let pc := s.pc
  let cycle := s.cycle
  let values := s.registers.toList
  let notes := values.mapIdx noteText
  "\n".intercalate
    [s!"pc: {pc}, cycle: {cycle}",
     ", ".intercalate (values.mapIdx fun index value => s!"x{index}: {value}"),
     ", ".intercalate (notes.take 4), ", ".intercalate (notes.drop 4), s.display.screen.text]

instance : Machine State where
  load := load
  step s := .ok (step s)
  pc s := s.pc
  halted s := s.memory.read s.pc == waitCode
  memory s := s.memory
  display := displayText
  screen? s := some s.display.screen

end PocketAsm.Parva
