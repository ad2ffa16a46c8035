/-
  Isa/Bitzzy/Machine.lean --- the Bitzzy.

  Three registers of eight bits, addresses of sixteen, and a remainder of one
  bit that takes the carry or borrow of arithmetic.  The stack pointer starts
  at $FFFF; return addresses are pushed as two bytes, the high one first.
-/
import PocketAsm.Isa.Bitzzy.Opcode
import PocketAsm.Machine

set_option autoImplicit false

namespace PocketAsm.Bitzzy

/-! ## State -/

/-- The values of the registers. -/
structure Registers where
  x : Nat
  y : Nat
  z : Nat
  deriving DecidableEq, Repr, Inhabited

namespace Registers

/-- The value of a register. -/
def get (regs : Registers) : Reg → Nat
  | .x => regs.x
  | .y => regs.y
  | .z => regs.z

/-- Sets a register. -/
def set (regs : Registers) (r : Reg) (value : Nat) : Registers :=
  match r with
  | .x => { regs with x := value }
  | .y => { regs with y := value }
  | .z => { regs with z := value }

end Registers

/-- The state of the machine. -/
structure State where
  memory : Memory
  registers : Registers
  remainder : Nat
  sp : Nat
  pc : Nat
  cycle : Nat
  interrupts : Bool
  deriving Inhabited

namespace State

/-- The byte at an address, which counts modulo 65536. -/
def read (s : State) (address : Nat) : Nat := s.memory.read (address % 65536 : Nat)

/-- Writes a byte. -/
def write (s : State) (address value : Nat) : State :=
  { s with memory := s.memory.write (address % 65536 : Nat) (value % 256) }

/-- The sixteen bits at an address, the high byte first. -/
def readWord (s : State) (address : Nat) : Nat := s.read address * 256 + s.read (address + 1)

/-- Puts the lower sixteen bits of a number on the stack. -/
def push (s : State) (value : Int) : State :=
  let s' := (s.write s.sp (value / 256 % 256).toNat).write (s.sp + 65535) (value % 256).toNat
  { s' with sp := (s.sp + 65534) % 65536 }

/-- Takes sixteen bits off the stack. -/
def pop (s : State) : Nat × State :=
  let sp := (s.sp + 2) % 65536
  (s.read sp * 256 + s.read (sp + 65535), { s with sp := sp })

/-- The value of a register. -/
def reg (s : State) (r : Reg) : Nat := s.registers.get r

/-- Sets a register. -/
def setReg (s : State) (r : Reg) (value : Nat) : State :=
  { s with registers := s.registers.set r value }

/-- The register pair. -/
def yx (s : State) : Nat := s.reg .y * 256 + s.reg .x

/-- What an index adds to an address. -/
def index (s : State) : Index → Nat
  | .none => 0
  | .reg r => s.reg r
  | .yx => s.yx

/-- Goes to an address. -/
def goto (s : State) (address : Nat) : State := { s with pc := address % 65536 }

end State

/-! ## Arithmetic -/

/-- The byte of a result, and the remainder: whether the result left the range of a byte. -/
def withCarry (result : Int) : Nat × Nat :=
  ((result % 256).toNat, if 0 ≤ result ∧ result ≤ 255 then 0 else 1)

/-- The result of an operation and the remainder after it, given the one before. -/
def alu (op : Alu) (a b remainder : Nat) : Nat × Nat :=
  match op with
  | .add => withCarry ((a : Int) + b)
  | .sub => withCarry ((a : Int) - b)
  | .mul => withCarry ((a : Int) * b)
  | .div => if b = 0 then (0, 1) else (a / b, 0)
  | .mod => if b = 0 then (0, 1) else (a % b, 0)
  | .and => (a &&& b, remainder)
  | .or => (a ||| b, remainder)
  | .xor => (a ^^^ b, remainder)

/-! ## Instructions -/

/-- Stores a result in a register and sets the remainder. -/
def State.store (s : State) (r : Reg) (result : Nat × Nat) : State :=
  { s.setReg r result.1 with remainder := result.2 }

/-- A jump, or a call, that is taken or not. -/
def State.branch (s : State) (taken : Bool) (address : Nat) (call : Bool) : State :=
  if taken then (if call then s.push (s.pc + 3) else s).goto address else s.goto (s.pc + 3)

/-- Executes an instruction; its address operand and its byte of immediate data are given. -/
def execute (s : State) (address immediate : Nat) : Op → State
  | .hlt => s
  | .nop => s.goto (s.pc + 1)
  | .ret =>
    let (target, s) := s.pop
    s.goto target
  | .rti =>
    let (target, s) := s.pop
    { s.goto target with interrupts := true }
  | .eni => { s.goto (s.pc + 1) with interrupts := true }
  | .dsi => { s.goto (s.pc + 1) with interrupts := false }
  | .rem r => (s.setReg r s.remainder).goto (s.pc + 1)
  | .clr => { s.goto (s.pc + 1) with remainder := 0 }
  | .jmp i => s.goto (address + s.index i)
  | .jsr i => (s.push (s.pc + 3)).goto (address + s.index i)
  | .ifZero r call => s.branch (s.reg r == 0) address call
  | .ifGreater call => s.branch (s.reg .y < s.reg .x) address call
  | .ifEqual a b call => s.branch (s.reg a == s.reg b) address call
  | .ifRemainder zero => s.branch ((s.remainder == 0) == zero) address false
  | .retRemainder zero =>
    if (s.remainder == 0) == zero then
      let (target, s) := s.pop
      s.goto target
    else s.goto (s.pc + 1)
  | .djnz r =>
    let value := (s.reg r + 255) % 256
    (s.setReg r value).branch (value != 0) address false
  | .swp a b => ((s.setReg a (s.reg b)).setReg b (s.reg a)).goto (s.pc + 1)
  | .loadImmediate r => (s.setReg r immediate).goto (s.pc + 2)
  | .move d r => (s.setReg d (s.reg r)).goto (s.pc + 1)
  | .load r i => (s.setReg r (s.read (address + s.index i))).goto (s.pc + 3)
  | .store r i => (s.write (address + s.index i) (s.reg r)).goto (s.pc + 3)
  | .storeImmediate i => (s.write (address + s.index i) (s.read (s.pc + 3))).goto (s.pc + 4)
  | .inc r => (s.store r (withCarry ((s.reg r : Int) + 1))).goto (s.pc + 1)
  | .dec r => (s.store r (withCarry ((s.reg r : Int) - 1))).goto (s.pc + 1)
  | .incMemory =>
    let result := withCarry ((s.read address : Int) + 1)
    { (s.write address result.1).goto (s.pc + 3) with remainder := result.2 }
  | .decMemory =>
    let result := withCarry ((s.read address : Int) - 1)
    { (s.write address result.1).goto (s.pc + 3) with remainder := result.2 }
  | .lsl r => (s.store r (withCarry ((s.reg r : Int) * 2))).goto (s.pc + 1)
  | .lsr r => (s.store r (s.reg r / 2, s.reg r % 2)).goto (s.pc + 1)
  | .not r => (s.setReg r (255 - s.reg r)).goto (s.pc + 1)
  | .aluImmediate op r => (s.store r (alu op (s.reg r) immediate s.remainder)).goto (s.pc + 2)
  | .aluRegisters op a b => (s.store .z (alu op (s.reg a) (s.reg b) s.remainder)).goto (s.pc + 1)

/-- Executes the instruction at the program counter. -/
def step (s : State) : Except MachineFault State :=
  let opcode := s.read s.pc
  match decode? opcode with
  | none => .error (.unknownOpcode opcode s.pc)
  | some op =>
    .ok (execute { s with cycle := s.cycle + 1 } (s.readWord (s.pc + 1)) (s.read (s.pc + 1)) op)

/-- The state after reset, with the words of an image in memory. -/
def load (words : List (Int × Int)) : State :=
  let bytes := (lastWords words).map fun (address, value) => (address % 65536, (value % 256).toNat)
  ⟨Memory.empty.writeAll bytes, ⟨0, 0, 0⟩, 0, 0xFFFF, 0, 0, true⟩

/-! ## Display -/

/-- The state as text: registers, remainder and the memory around the program counter, which `>`
marks. -/
def display (s : State) : String :=
  let base := s.pc / 16 * 16
  let cell (address : Nat) : String :=
    (if address % 65536 = s.pc then ">" else " ") ++ Text.hex 2 (s.read address)
  let row (n : Nat) : String :=
    let start := (base + n * 16) % 65536
    Text.hex 4 start ++ ": " ++ " ".intercalate ((List.range 16).map fun i => cell (start + i))
  let cycle := s.cycle
  let remainder := s.remainder
  "\n".intercalate
    (["pc: " ++ Text.hex 4 s.pc ++ ", stack pointer: " ++ Text.hex 4 s.sp ++ s!", cycle: {cycle}",
      "X=" ++ Text.hex 2 (s.reg .x) ++ " Y=" ++ Text.hex 2 (s.reg .y) ++ " Z=" ++
        Text.hex 2 (s.reg .z) ++ " YX=" ++ Text.hex 4 s.yx ++ s!" R={remainder}",
      "memory:"] ++ (List.range 4).map row)

instance : Machine State where
  load := load
  step := step
  pc s := s.pc
  halted s := s.read s.pc == 0
  memory s := s.memory
  display := display
  screen? _ := none

end PocketAsm.Bitzzy
