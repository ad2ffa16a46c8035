/-
  Isa/V8/Machine.lean --- the V8.

  Eight registers, two flags and 256 bytes of memory.  The stack pointer lives
  in memory at $7F and the stack grows downwards from $7E; execution starts at
  the address stored at $FF.
-/
import PocketAsm.Isa.RegisterFile
import PocketAsm.Isa.V8.Register
import PocketAsm.Machine

set_option autoImplicit false

namespace PocketAsm.V8

/-! ## State -/

/-- The state of the machine. -/
structure State where
  memory : Memory
  registers : RegisterFile
  pc : Nat
  cycle : Nat
  carry : Bool
  zero : Bool
  interrupts : Bool
  deriving Inhabited

/-- The accumulator among the registers. -/
def accumulator : RegisterIndex := .ofNat 0

namespace State

/-- Where the stack pointer is kept. -/
def stackPointerAddress : Nat := 0x7F

/-- Where the start address is kept. -/
def resetVector : Nat := 0xFF

/-- The byte at an address, which counts modulo 256. -/
def read (s : State) (address : Nat) : Nat := s.memory.read (address % 256 : Nat)

/-- Writes a byte. -/
def write (s : State) (address value : Nat) : State :=
  { s with memory := s.memory.write (address % 256 : Nat) (value % 256) }

/-- The stack pointer. -/
def sp (s : State) : Nat := s.read stackPointerAddress

/-- Puts a byte on the stack. -/
def push (s : State) (value : Nat) : State :=
  let sp := s.sp
  (s.write sp value).write stackPointerAddress (sp + 255)

/-- Takes a byte off the stack. -/
def pop (s : State) : Nat × State :=
  let sp := (s.sp + 1) % 256
  let s := s.write stackPointerAddress sp
  (s.read sp, s)

/-- The value of a register. -/
def reg (s : State) (r : RegisterIndex) : Nat := s.registers.get r

/-- Sets a register. -/
def setReg (s : State) (r : RegisterIndex) (value : Nat) : State :=
  { s with registers := s.registers.set r value }

/-- The value of the accumulator. -/
def a (s : State) : Nat := s.reg accumulator

/-- Stores a result; the flags tell whether it is zero and whether it left the range of a byte. -/
def alu (s : State) (target : RegisterIndex) (result : Int) : State :=
  { s.setReg target (result % 256).toNat with
    zero := result % 256 == 0
    carry := !(0 ≤ result && result ≤ 255) }

/-- Loads a register; a flag tells whether the value is zero. -/
def loadReg (s : State) (target : RegisterIndex) (value : Nat) : State :=
  { s.setReg target (value % 256) with zero := value % 256 == 0 }

/-- Goes to an address. -/
def goto (s : State) (address : Nat) : State := { s with pc := address % 256 }

end State

/-! ## Instructions -/

/-- The control instructions, opcodes 0 to 15. -/
def control (s : State) (opcode immediate : Nat) : State :=
  let next := s.pc + 1
  let skip := s.pc + 2
  match opcode with
  | 0x00 => s
  | 0x01 => s.goto next
  | 0x02 => s.goto immediate
  | 0x03 => s.goto (s.read immediate)
  | 0x04 => s.goto (if s.zero then immediate else skip)
  | 0x05 => s.goto (if s.zero then skip else immediate)
  | 0x06 => s.goto (if s.carry then immediate else skip)
  | 0x07 => s.goto (if s.carry then skip else immediate)
  | 0x08 => (s.push (skip % 256)).goto immediate
  | 0x09 =>
    let s := s.push (skip % 256)
    s.goto (s.read immediate)
  | 0x0A =>
    let (address, s) := s.pop
    s.goto address
  | 0x0B =>
    let (address, s) := s.pop
    { s.goto address with interrupts := true }
  | 0x0C => { s.goto next with carry := true }
  | 0x0D => { s.goto next with carry := false }
  | 0x0E => { s.goto next with interrupts := true }
  | 0x0F => { s.goto next with interrupts := false }
  | _ => s

/-- The instructions with one register: the group is the upper five bits of the opcode. -/
def registerOp (s : State) (group : Nat) (r : RegisterIndex) (immediate : Nat) : State :=
  let value := s.reg r
  let carry := s.carry.toNat
  let next (s : State) : State := s.goto (s.pc + 1)
  let skip (s : State) : State := s.goto (s.pc + 2)
  match group with
  | 0b00010 => next (s.alu accumulator ((value : Int) + s.a + carry))
  | 0b00011 => next (s.alu r ((value : Int) + 1))
  | 0b00100 => next (s.alu accumulator ((value : Int) - s.a - carry))
  | 0b00101 => next (s.alu r ((value : Int) - 1))
  | 0b00110 => next (s.alu r (255 - (value : Int)))
  | 0b00111 => next (s.alu accumulator (value ^^^ s.a : Nat))
  | 0b01000 => next (s.alu accumulator (value &&& s.a : Nat))
  | 0b01001 => next (s.alu accumulator (value ||| s.a : Nat))
  | 0b01010 => next (s.alu r ((value : Int) * 2 + carry))
  | 0b01011 =>
    let result := value / 2 + carry * 128
    next { s.setReg r result with zero := result == 0, carry := value % 2 == 1 }
  | 0b01100 => next (s.alu r ((value : Int) * 2 + value / 128))
  | 0b01101 =>
    next { s.alu r ((value / 2 + value % 2 * 128 : Nat) : Int) with carry := value % 2 == 1 }
  | 0b01110 => next { s with zero := s.a == value, carry := decide (value < s.a) }
  | 0b01111 => skip (s.loadReg r immediate)
  | 0b10000 => skip (s.write immediate value)
  | 0b10001 => skip (s.loadReg r (s.read immediate))
  | 0b10010 => skip (s.write (immediate + s.a) value)
  | 0b10011 => skip (s.loadReg r (s.read (immediate + s.a)))
  | 0b10100 => skip (s.write (s.read immediate) value)
  | 0b10101 => skip (s.loadReg r (s.read (s.read immediate)))
  | 0b10110 => next (s.push value)
  | 0b10111 =>
    let (popped, s) := s.pop
    next (s.setReg r popped)
  | _ => next s

/-- Executes the instruction at the program counter. -/
def step (s : State) : State :=
  let opcode := s.read s.pc
  let immediate := s.read (s.pc + 1)
  let s := { s with cycle := s.cycle + 1 }
  if opcode < 0x10 then control s opcode immediate
  else if 0xC0 ≤ opcode then
    let s := s.loadReg (.ofNat (opcode / 8)) (s.reg (.ofNat opcode))
    s.goto (s.pc + 1)
  else registerOp s (opcode / 8) (.ofNat opcode) immediate

/-- The state after reset, with the words of an image in memory. -/
def load (words : List (Int × Int)) : State :=
  let bytes := (lastWords words).map fun (address, value) => (address % 256, (value % 256).toNat)
  let memory := (Memory.empty.writeAll bytes).write State.stackPointerAddress 0x7E
  ⟨memory, .cleared, memory.read State.resetVector, 0, false, false, true⟩

/-! ## Display -/

/-- The state as text: registers, flags and all of memory, where `>` marks the program counter and
`*` the stack pointer. -/
def display (s : State) : String :=
  let registers := " ".intercalate
    (registerNames.zipWith (fun name value => name ++ "=" ++ Text.hex 2 value) s.registers.toList)
  let flag (b : Bool) : String := if b then "1" else "0"
  let cell (address : Nat) : String :=
    (if address = s.pc then ">" else if address = s.sp then "*" else " ") ++
      Text.hex 2 (s.read address) ++ " "
  let row (n : Nat) : String :=
    Text.hex 1 n ++ "x " ++
      Text.stripRight (String.join ((List.range 16).map fun column => cell (n * 16 + column)))
  let head := "    " ++ " ".intercalate ((List.range 16).map fun n => "x" ++ Text.hex 1 n ++ " ")
  "\n".intercalate
    (["pc: " ++ Text.hex 2 s.pc ++ ", stack pointer: " ++ Text.hex 2 s.sp,
      registers,
      "Z=" ++ flag s.zero ++ " C=" ++ flag s.carry ++ " I=" ++ flag s.interrupts,
      "memory:", head] ++ (List.range 16).map row)

instance : Machine State where
  load := load
  step s := .ok (step s)
  pc s := s.pc
  halted s := s.read s.pc == 0
  memory s := s.memory
  display := display
  screen? _ := none

end PocketAsm.V8
