/-
  Proofs/V8/Meaning.lean --- what the instructions of the V8 mean.

  A line is read by its tokens (`Statement.read?`): the mnemonic, which for
  loads and stores ends with the letter of a register, says which operations
  there are, and the operand shows the addressing mode.  The effect of an
  operation is stated by what can be observed afterwards: registers, flags,
  stored bytes and the program counter (`Op.effect`).  Nothing here mentions
  opcodes or the order of rules.
-/
import PocketAsm.Isa.V8.Dialect
import PocketAsm.Isa.V8.Machine
import PocketAsm.Proofs.Tokens

set_option autoImplicit false

namespace PocketAsm.V8

open Operand Text

/-! ## States -/

/-- Registers and memory hold bytes, and so does the program counter. -/
structure State.WellFormed (s : State) : Prop where
  registers : ∀ r, s.reg r < 256
  memory : ∀ address, s.memory.read address < 256
  pc : s.pc < 256

/-- Memory holds the bytes from the program counter on. -/
def State.Holds (s : State) (bytes : List Nat) : Prop :=
  ∀ k byte, bytes[k]? = some byte → s.read (s.pc + k) = byte

/-- What putting a byte on the stack stores: the byte, and the stack pointer below it. -/
def State.pushes (s : State) (value : Nat) : List (Int × Nat) :=
  [(s.sp, value), (0x7F, (s.sp + 255) % 256)]

/-- What taking a byte off the stack stores: the stack pointer above it. -/
def State.pulls (s : State) : List (Int × Nat) := [(0x7F, (s.sp + 1) % 256)]

/-- The byte on top of the stack.  The stack pointer is stored before the byte is taken, so if the
byte lies where the stack pointer does, it is the stack pointer. -/
def State.top (s : State) : Nat :=
  if (s.sp + 1) % 256 = 0x7F then 0x7F else s.read (s.sp + 1)

/-! ## Operations -/

/-- The addressing modes of a byte in memory. -/
inductive Mode where
  /-- at the operand -/
  | absolute
  /-- at the operand and the accumulator together -/
  | indexed
  /-- at the address stored at the operand -/
  | indirect
  deriving DecidableEq, Repr, Inhabited

/-- The address that a mode gives for an operand. -/
def Mode.address (s : State) (v : Nat) : Mode → Nat
  | .absolute => v
  | .indexed => (v + s.a) % 256
  | .indirect => s.read v

/-- The conditions of jumps. -/
inductive Condition where
  | always
  | zero
  | notZero
  | carry
  | noCarry
  deriving DecidableEq, Repr, Inhabited

/-- Whether the condition holds. -/
def Condition.holds (s : State) : Condition → Bool
  | .always => true
  | .zero => s.zero
  | .notZero => !s.zero
  | .carry => s.carry
  | .noCarry => !s.carry

/-- Operations on a register and the accumulator. -/
inductive Alu where
  | adc
  | sbc
  | xor
  | and
  | or
  deriving DecidableEq, Repr, Inhabited

/-- The result of an operation on a register and the accumulator, with the carry. -/
def Alu.result (x a carry : Nat) : Alu → Nat
  | .adc => (x + a + carry) % 256
  | .sbc => (x + 512 - a - carry) % 256
  | .xor => x ^^^ a
  | .and => x &&& a
  | .or => x ||| a

/-- Whether it carries or borrows; logic does not. -/
def Alu.carry (x a carry : Nat) : Alu → Bool
  | .adc => 255 < x + a + carry
  | .sbc => x < a + carry
  | _ => false

/-- Operations on one register. -/
inductive Unary where
  | inc
  | dec
  | not
  /-- shift left through the carry -/
  | slc
  /-- shift right through the carry -/
  | src
  | rol
  | ror
  deriving DecidableEq, Repr, Inhabited

/-- The result of an operation on a register, with the carry. -/
def Unary.result (x carry : Nat) : Unary → Nat
  | .inc => (x + 1) % 256
  | .dec => (x + 255) % 256
  | .not => 255 - x
  | .slc => (2 * x + carry) % 256
  | .src => x / 2 + 128 * carry
  | .rol => 2 * x % 256 + x / 128
  | .ror => x / 2 + 128 * (x % 2)

/-- Whether a bit leaves the register. -/
def Unary.carry (x : Nat) : Unary → Bool
  | .inc => x = 255
  | .dec => x = 0
  | .not => false
  | .slc | .rol => 128 ≤ x
  | .src | .ror => x % 2 = 1

/-- The operations. -/
inductive Op where
  | hlt
  | nop
  | ret
  | rti
  | sec
  | clc
  | eni
  | dsi
  /-- jump to the operand, on a condition -/
  | jump (condition : Condition)
  /-- jump to the address stored at the operand -/
  | jumpIndirect
  | call
  | callIndirect
  /-- the result goes to the accumulator -/
  | withA (alu : Alu) (r : RegisterIndex)
  /-- set the flags only -/
  | compare (r : RegisterIndex)
  /-- the result goes to the register -/
  | unary (f : Unary) (r : RegisterIndex)
  | loadImmediate (r : RegisterIndex)
  | load (r : RegisterIndex) (mode : Mode)
  | store (r : RegisterIndex) (mode : Mode)
  | move (destination source : RegisterIndex)
  | push (r : RegisterIndex)
  | pull (r : RegisterIndex)
  deriving DecidableEq, Repr, Inhabited

namespace Op

/-- The registers that are set, with their values.  The operand is given. -/
def sets (s : State) (v : Nat) : Op → List (RegisterIndex × Nat)
  | .withA alu r => [(accumulator, alu.result (s.reg r) s.a s.carry.toNat)]
  | .unary f r => [(r, f.result (s.reg r) s.carry.toNat)]
  | .loadImmediate r => [(r, v)]
  | .load r mode => [(r, s.read (mode.address s v))]
  | .move destination r => [(destination, s.reg r)]
  | .pull r => [(r, s.top)]
  | _ => []

/-- The bytes that are stored by an instruction of so many bytes. -/
def stores (s : State) (v size : Nat) : Op → List (Int × Nat)
  | .store r mode => [(mode.address s v, s.reg r)]
  | .push r => s.pushes (s.reg r)
  | .call | .callIndirect => s.pushes ((s.pc + size) % 256)
  | .pull _ | .ret | .rti => s.pulls
  | _ => []

/-- The zero flag afterwards: it tells about a result or a value that is loaded into a register, but
not about one that is taken off the stack. -/
def zero (s : State) (v : Nat) : Op → Bool
  | .withA alu r => alu.result (s.reg r) s.a s.carry.toNat = 0
  | .compare r => s.reg r = s.a
  | .unary f r => f.result (s.reg r) s.carry.toNat = 0
  | .loadImmediate _ => v = 0
  | .load _ mode => s.read (mode.address s v) = 0
  | .move _ r => s.reg r = 0
  | _ => s.zero

/-- The carry afterwards; a comparison sets it if the accumulator is greater. -/
def carry (s : State) : Op → Bool
  | .sec => true
  | .clc => false
  | .withA alu r => alu.carry (s.reg r) s.a s.carry.toNat
  | .compare r => s.reg r < s.a
  | .unary f r => f.carry (s.reg r)
  | _ => s.carry

/-- Whether interrupts are enabled afterwards. -/
def interrupts (s : State) : Op → Bool
  | .rti | .eni => true
  | .dsi => false
  | _ => s.interrupts

/-- The program counter after an instruction of so many bytes.  An indirect call looks its target
up when the return address is on the stack already. -/
def pc (s : State) (v size : Nat) : Op → Nat
  | .hlt => s.pc
  | .jump condition => if condition.holds s then v else (s.pc + size) % 256
  | .jumpIndirect => s.read v
  | .call => v
  | .callIndirect => (s.memory.writeAll (s.pushes ((s.pc + size) % 256))).read v
  | .ret | .rti => s.top
  | _ => (s.pc + size) % 256

/-- The state after an operation with an operand, of so many bytes. -/
def effect (s : State) (v size : Nat) (op : Op) : State where
  memory := s.memory.writeAll (op.stores s v size)
  registers := (op.sets s v).foldl (fun registers set => registers.set set.1 set.2) s.registers
  pc := op.pc s v size
  cycle := s.cycle + 1
  carry := op.carry s
  zero := op.zero s v
  interrupts := op.interrupts s

end Op

/-! ## Statements -/

/-- An instruction as it is written: its operation, and the text of its operand. -/
structure Statement where
  op : Op
  operand? : Option String
  deriving DecidableEq, Repr, Inhabited

namespace Statement

/-- The state after an instruction of so many bytes; the operand counts modulo 256. -/
def effect? (value : String → Option Int) (s : State) (size : Nat) (statement : Statement) :
    Option State :=
  match statement.operand? with
  | none => some (statement.op.effect s 0 size)
  | some text => (value text).map fun n : Int => statement.op.effect s (n % 256).toNat size

/-! ## Reading -/

/-- The register with a name, in either case. -/
def register? (token : String) : Option RegisterIndex :=
  match folded token with
  | "a" => some 0
  | "b" => some 1
  | "c" => some 2
  | "d" => some 3
  | "e" => some 4
  | "f" => some 5
  | "x" => some 6
  | "y" => some 7
  | _ => none

/-- The operand that stands in parentheses by itself.  Two operands with a sign between them are in
parentheses too, and are not meant. -/
def parenthesized? (token : String) : Option String :=
  match token.toList with
  | '(' :: rest =>
    if rest.getLast? = some ')' ∧ (operand.match? rest.dropLast).isSome = true then
      some (String.ofList rest.dropLast)
    else none
  | _ => none

/-- Instructions without operand. -/
def plain : List (String × Op) :=
  [("hlt", .hlt), ("nop", .nop), ("ret", .ret), ("rti", .rti), ("sec", .sec), ("clc", .clc),
   ("eni", .eni), ("dsi", .dsi)]

/-- Jumps. -/
def jumps : List (String × Op) :=
  [("jmp", .jump .always), ("jz", .jump .zero), ("jnz", .jump .notZero), ("jc", .jump .carry),
   ("jnc", .jump .noCarry), ("jsr", .call)]

/-- Jumps with an operand in parentheses. -/
def indirectJumps : List (String × Op) := [("jmp", .jumpIndirect), ("jsr", .callIndirect)]

/-- Instructions on a register. -/
def onRegister : List (String × (RegisterIndex → Op)) :=
  [("inc", .unary .inc), ("dec", .unary .dec), ("not", .unary .not), ("slc", .unary .slc),
   ("src", .unary .src), ("rol", .unary .rol), ("ror", .unary .ror), ("push", .push),
   ("pull", .pull)]

/-- Instructions on a register and the accumulator. -/
def onAccumulator : List (String × (RegisterIndex → Op)) :=
  [("adc", .withA .adc), ("sbc", .withA .sbc), ("xor", .withA .xor), ("and", .withA .and),
   ("or", .withA .or), ("cmp", .compare)]

/-- The register in the mnemonic of a load or a store. -/
def named? (word mnemonic : String) : Option RegisterIndex :=
  match mnemonic.toList with
  | [c, c', letter] =>
    if String.ofList [c, c'] = word then register? (String.ofList [letter]) else none
  | _ => none

/-- A load: from a register, of immediate data, or from memory. -/
def load (r : RegisterIndex) (operand : String) : Statement :=
  match register? operand, marked? operand, parenthesized? operand with
  | some r', _, _ => ⟨.move r r', none⟩
  | none, some text, _ => ⟨.loadImmediate r, some text⟩
  | none, none, some text => ⟨.load r .indirect, some text⟩
  | none, none, none => ⟨.load r .absolute, some operand⟩

/-- A store. -/
def store (r : RegisterIndex) (operand : String) : Statement :=
  match parenthesized? operand with
  | some text => ⟨.store r .indirect, some text⟩
  | none => ⟨.store r .absolute, some operand⟩

/-- A jump to what the operand says, or to what is stored there. -/
def jump? (mnemonic operand : String) : Option Statement :=
  match List.lookup mnemonic indirectJumps, parenthesized? operand with
  | some op, some text => some ⟨op, some text⟩
  | _, _ => (List.lookup mnemonic jumps).map fun op => ⟨op, some operand⟩

/-- An instruction with one operand. -/
def ofOne? (mnemonic operand : String) : Option Statement :=
  match named? "ld" mnemonic, named? "st" mnemonic, List.lookup mnemonic onRegister with
  | some r, _, _ => some (load r operand)
  | none, some r, _ => some (store r operand)
  | none, none, some op => (register? operand).map fun r => ⟨op r, none⟩
  | none, none, none => jump? mnemonic operand

/-- An instruction with one operand and the accumulator: the accumulator is an operand, or an
index. -/
def withA? (mnemonic operand : String) : Option Statement :=
  match named? "ld" mnemonic, named? "st" mnemonic with
  | some r, _ => some ⟨.load r .indexed, some operand⟩
  | none, some r => some ⟨.store r .indexed, some operand⟩
  | none, none => do
    let op ← List.lookup mnemonic onAccumulator
    let r ← register? operand
    return ⟨op r, none⟩

/-- The instruction that a mnemonic and operands make. -/
def ofTokens? (mnemonic : String) : List String → Option Statement
  | [] => (List.lookup mnemonic plain).map fun op => ⟨op, none⟩
  | [operand] => ofOne? mnemonic operand
  | [operand, index] => if folded index = "a" then withA? mnemonic operand else none
  | _ => none

/-- The instruction on a line. -/
def read? (line : String) : Option Statement :=
  match tokens line.toList with
  | [] => none
  | mnemonic :: operands => ofTokens? (folded mnemonic) operands

end Statement

end PocketAsm.V8
