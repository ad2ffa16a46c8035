/-
  Proofs/Bitzzy/Meaning.lean --- what the instructions of the Bitzzy mean.

  A line is read by its tokens (`Statement.read?`): the mnemonic and the
  registers name an operation, and what is left is its address and its
  immediate data.  The effect of an operation is stated by what can be
  observed afterwards: which registers it sets, which bytes it stores, the
  remainder, and where control goes on (`Op.effect`).  Nothing here mentions
  opcodes or rules.
-/
import PocketAsm.Isa.Bitzzy.Machine
import PocketAsm.Proofs.Tokens

set_option autoImplicit false

namespace PocketAsm.Bitzzy

open Operand Text

/-! ## States -/

/-- Registers and memory hold bytes, and addresses have sixteen bits. -/
structure State.WellFormed (s : State) : Prop where
  registers : ∀ r, s.reg r < 256
  memory : ∀ address, s.memory.read address < 256
  remainder : s.remainder ≤ 1
  sp : s.sp < 65536
  pc : s.pc < 65536

/-- The byte of memory at an address, which counts modulo 65536. -/
def State.byte (s : State) (address : Nat) : Nat := s.memory.read (address % 65536 : Nat)

/-- Memory holds the bytes from the program counter on. -/
def State.Holds (s : State) (bytes : List Nat) : Prop :=
  ∀ k byte, bytes[k]? = some byte → s.byte (s.pc + k) = byte

/-- The remainder is, or is not, zero. -/
def State.remainderIs (s : State) (zero : Bool) : Bool :=
  if zero then s.remainder = 0 else s.remainder ≠ 0

/-- The address of sixteen bits on top of the stack; its high byte lies above the low one. -/
def State.returnAddress (s : State) : Nat := 256 * s.byte (s.sp + 2) + s.byte (s.sp + 1)

/-! ## Operations -/

/-- What an index adds to an address: the register pair has Y as its high byte. -/
def Index.value (s : State) : Index → Nat
  | .none => 0
  | .reg r => s.reg r
  | .yx => 256 * s.reg .y + s.reg .x

/-- An address with an index added to it. -/
def Index.address (s : State) (a : Nat) (index : Index) : Nat := (a + index.value s) % 65536

/-- The result of an operation on two bytes; a quotient or rest by zero is zero. -/
def Alu.result (x y : Nat) : Alu → Nat
  | .add => (x + y) % 256
  | .sub => (x + 256 - y) % 256
  | .mul => x * y % 256
  | .div => if y = 0 then 0 else x / y
  | .mod => if y = 0 then 0 else x % y
  | .and => x &&& y
  | .or => x ||| y
  | .xor => x ^^^ y

/-- The remainder after an operation on two bytes: a carry, a borrow, a product that is no byte, or
a division by zero.  Logic keeps the one before. -/
def Alu.remainder (x y before : Nat) : Alu → Nat
  | .add => if x + y < 256 then 0 else 1
  | .sub => if y ≤ x then 0 else 1
  | .mul => if x * y < 256 then 0 else 1
  | .div | .mod => if y = 0 then 1 else 0
  | .and | .or | .xor => before

/-- How control goes on after an instruction. -/
inductive Flow where
  /-- with the next instruction -/
  | next
  /-- nowhere -/
  | halt
  | jump (target : Nat)
  | call (target : Nat)
  /-- to the return address -/
  | back
  deriving DecidableEq, Repr, Inhabited

namespace Flow

/-- The program counter afterwards; the instruction has so many bytes. -/
def pc (s : State) (size : Nat) : Flow → Nat
  | .next => (s.pc + size) % 65536
  | .halt => s.pc
  | .jump target | .call target => target
  | .back => s.returnAddress

/-- The stack pointer afterwards. -/
def sp (s : State) : Flow → Nat
  | .call _ => (s.sp + 65536 - 2) % 65536
  | .back => (s.sp + 2) % 65536
  | _ => s.sp

/-- The bytes on the stack: a call leaves the address of the next instruction. -/
def stores (s : State) (size : Nat) : Flow → List (Int × Nat)
  | .call _ =>
    let next := (s.pc + size) % 65536
    [(s.sp, next / 256), (((s.sp + 65536 - 1) % 65536 : Nat), next % 256)]
  | _ => []

/-- A jump, or a call, if the condition holds. -/
def onlyIf (condition : Bool) (call : Bool) (target : Nat) : Flow :=
  if condition then (if call then .call target else .jump target) else .next

end Flow

namespace Op

/-- How control goes on, where the address operand is given. -/
def flow (s : State) (a : Nat) : Op → Flow
  | .hlt => .halt
  | .ret | .rti => .back
  | .jmp index => .jump (index.address s a)
  | .jsr index => .call (index.address s a)
  | .ifZero r call => .onlyIf (s.reg r = 0) call a
  | .ifGreater call => .onlyIf (s.reg .x > s.reg .y) call a
  | .ifEqual r r' call => .onlyIf (s.reg r = s.reg r') call a
  | .ifRemainder zero => .onlyIf (s.remainderIs zero) false a
  | .retRemainder zero => if s.remainderIs zero then .back else .next
  | .djnz r => .onlyIf (s.reg r ≠ 1) false a
  | _ => .next

/-- The registers that are set, with their values.  The address operand and the immediate data are
given. -/
def sets (s : State) (a i : Nat) : Op → List (Reg × Nat)
  | .rem r => [(r, s.remainder)]
  | .djnz r | .dec r => [(r, (s.reg r + 255) % 256)]
  | .inc r => [(r, (s.reg r + 1) % 256)]
  | .swp r r' => [(r, s.reg r'), (r', s.reg r)]
  | .loadImmediate r => [(r, i)]
  | .move destination r => [(destination, s.reg r)]
  | .load r index => [(r, s.byte (a + index.value s))]
  | .lsl r => [(r, 2 * s.reg r % 256)]
  | .lsr r => [(r, s.reg r / 2)]
  | .not r => [(r, 255 - s.reg r)]
  | .aluImmediate alu r => [(r, alu.result (s.reg r) i)]
  | .aluRegisters alu r r' => [(.z, alu.result (s.reg r) (s.reg r'))]
  | _ => []

/-- The bytes that are stored, the stack apart. -/
def stores (s : State) (a i : Nat) : Op → List (Int × Nat)
  | .store r index => [(index.address s a, s.reg r)]
  | .storeImmediate index => [(index.address s a, i)]
  | .incMemory => [(a, (s.byte a + 1) % 256)]
  | .decMemory => [(a, (s.byte a + 255) % 256)]
  | _ => []

/-- The remainder afterwards. -/
def remainder (s : State) (a i : Nat) : Op → Nat
  | .clr => 0
  | .inc r => if s.reg r = 255 then 1 else 0
  | .dec r => if s.reg r = 0 then 1 else 0
  | .incMemory => if s.byte a = 255 then 1 else 0
  | .decMemory => if s.byte a = 0 then 1 else 0
  | .lsl r => if s.reg r < 128 then 0 else 1
  | .lsr r => s.reg r % 2
  | .aluImmediate alu r => alu.remainder (s.reg r) i s.remainder
  | .aluRegisters alu r r' => alu.remainder (s.reg r) (s.reg r') s.remainder
  | _ => s.remainder

/-- Whether interrupts are enabled afterwards. -/
def interrupts (s : State) : Op → Bool
  | .rti | .eni => true
  | .dsi => false
  | _ => s.interrupts

/-- The state after an operation with an address operand and immediate data, of so many bytes. -/
def effect (s : State) (a i size : Nat) (op : Op) : State where
  memory := s.memory.writeAll (op.stores s a i ++ (op.flow s a).stores s size)
  registers := (op.sets s a i).foldl (fun registers set => registers.set set.1 set.2) s.registers
  remainder := op.remainder s a i
  sp := (op.flow s a).sp s
  pc := (op.flow s a).pc s size
  cycle := s.cycle + 1
  interrupts := op.interrupts s

end Op

/-! ## Statements -/

/-- An instruction as it is written: its operation, with the registers in the order written, and
the texts of its address and its immediate data. -/
structure Statement where
  op : Op
  address? : Option String
  immediate? : Option String
  deriving DecidableEq, Repr, Inhabited

namespace Statement

/-- The value of an operand modulo a number; the value of an operand that is not there is not
used. -/
def operand? (value : String → Option Int) (modulus : Nat) : Option String → Option Nat
  | none => some 0
  | some text => (value text).map fun n : Int => (n % modulus).toNat

/-- The state after an instruction of so many bytes.  The values of operands are given. -/
def effect? (value : String → Option Int) (s : State) (size : Nat) (statement : Statement) :
    Option State := do
  let a ← operand? value 65536 statement.address?
  let i ← operand? value 256 statement.immediate?
  return statement.op.effect s a i size

/-! ## Reading -/

/-- The register with a name, in either case. -/
def register? (token : String) : Option Reg :=
  match folded token with
  | "x" => some .x
  | "y" => some .y
  | "z" => some .z
  | _ => none

/-- The register, or the register pair, with a name. -/
def index? (token : String) : Option Index :=
  match folded token with
  | "yx" => some .yx
  | _ => (register? token).map .reg

/-- Instructions without operands. -/
def plain : List (String × Op) :=
  [("hlt", .hlt), ("nop", .nop), ("rti", .rti), ("eni", .eni), ("dsi", .dsi), ("clr", .clr),
   ("ret", .ret), ("retrez", .retRemainder true), ("retrnz", .retRemainder false)]

/-- Instructions on a register. -/
def onRegister : List (String × (Reg → Op)) :=
  [("rem", .rem), ("inc", .inc), ("dec", .dec), ("lsl", .lsl), ("lsr", .lsr), ("not", .not)]

/-- Instructions on an address. -/
def onAddress : List (String × Op) :=
  [("jmp", .jmp .none), ("jsr", .jsr .none), ("jmprez", .ifRemainder true),
   ("jmprnz", .ifRemainder false), ("inc", .incMemory), ("dec", .decMemory)]

/-- Instructions on an address and an index. -/
def onIndex : List (String × (Index → Op)) := [("jmp", .jmp), ("jsr", .jsr)]

/-- Operations on two operands. -/
def operations : List (String × Alu) :=
  [("add", .add), ("sub", .sub), ("mul", .mul), ("div", .div), ("mod", .mod), ("and", .and),
   ("or", .or), ("xor", .xor)]

/-- Instructions on a register and immediate data. -/
def onImmediate : List (String × (Reg → Op)) :=
  ("lod", .loadImmediate) :: operations.map fun e => (e.1, .aluImmediate e.2)

/-- Instructions on two different registers. -/
def onRegisters : List (String × (Reg → Reg → Op)) :=
  ("swp", .swp) :: ("lod", .move) :: operations.map fun e => (e.1, .aluRegisters e.2)

/-- Instructions on a register and an address. -/
def onRegisterAddress : List (String × (Reg → Op)) :=
  [("jmpez", (.ifZero · false)), ("jsrez", (.ifZero · true)), ("djnz", .djnz),
   ("lod", (.load · .none)), ("str", (.store · .none))]

/-- Loads and stores with an index. -/
def onRegisterIndex : List (String × (Reg → Index → Op)) := [("lod", .load), ("str", .store)]

/-- Comparisons of two registers; which one is greater is known of X and Y only. -/
def comparisons : List (String × (Reg → Reg → Option Op)) :=
  [("jmpeq", fun r r' => some (.ifEqual r r' false)),
   ("jsreq", fun r r' => some (.ifEqual r r' true)),
   ("jmpgt", fun r r' => if (r, r') = (.x, .y) then some (.ifGreater false) else none),
   ("jsrgt", fun r r' => if (r, r') = (.x, .y) then some (.ifGreater true) else none)]

/-- An instruction with one operand; the name of a register is a register where one may stand. -/
def ofOne? (mnemonic operand : String) : Option Statement :=
  match List.lookup mnemonic onRegister, register? operand with
  | some op, some r => some ⟨op r, none, none⟩
  | _, _ => (List.lookup mnemonic onAddress).map fun op => ⟨op, some operand, none⟩

/-- An instruction with two operands, neither of them immediate data, where no index may stand. -/
def ofRegister? (mnemonic : String) (r : Reg) (operand : String) : Option Statement :=
  match List.lookup mnemonic onRegisters, register? operand with
  | some op, some r' => if r = r' then onAddress? else some ⟨op r r', none, none⟩
  | _, _ => onAddress?
where
  onAddress? : Option Statement :=
    (List.lookup mnemonic onRegisterAddress).map fun op => ⟨op r, some operand, none⟩

/-- An instruction with two operands. -/
def ofTwo? (mnemonic first second : String) : Option Statement :=
  match marked? first, marked? second, List.lookup mnemonic onIndex with
  | some i, _, _ =>
    if mnemonic = "str" then some ⟨.storeImmediate .none, some second, some i⟩ else none
  | none, some i, _ => do
    let r ← register? first
    let op ← List.lookup mnemonic onImmediate
    return ⟨op r, none, some i⟩
  | none, none, some op => (index? second).map fun index => ⟨op index, some first, none⟩
  | none, none, none => do ofRegister? mnemonic (← register? first) second

/-- An instruction with three operands. -/
def ofThree? (mnemonic first second third : String) : Option Statement :=
  match marked? first, List.lookup mnemonic onRegisterIndex with
  | some i, _ =>
    if mnemonic = "str" then
      (index? third).map fun index => ⟨.storeImmediate index, some second, some i⟩
    else none
  | none, some op => do
    let r ← register? first
    let index ← index? third
    return ⟨op r index, some second, none⟩
  | none, none => do
    let r ← register? first
    let r' ← register? second
    let compare ← List.lookup mnemonic comparisons
    let op ← compare r r'
    return ⟨op, some third, none⟩

/-- The instruction that a mnemonic and operands make. -/
def ofTokens? (mnemonic : String) : List String → Option Statement
  | [] => (List.lookup mnemonic plain).map fun op => ⟨op, none, none⟩
  | [operand] => ofOne? mnemonic operand
  | [first, second] => ofTwo? mnemonic first second
  | [first, second, third] => ofThree? mnemonic first second third
  | _ => none

/-- The instruction on a line. -/
def read? (line : String) : Option Statement :=
  match tokens line.toList with
  | [] => none
  | mnemonic :: operands => ofTokens? (folded mnemonic) operands

end Statement

end PocketAsm.Bitzzy
