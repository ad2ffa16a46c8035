/-
  Isa/Bitzzy/Opcode.lean --- the instructions of the Bitzzy and their opcodes.

  The assembler and the machine share one table, so what the one encodes the
  other decodes.  Operations on two registers that do not depend on their
  order stand in the table in alphabetic order.
-/
import PocketAsm.Bits.Basic

set_option autoImplicit false

namespace PocketAsm.Bitzzy

/-- The registers; Z is the accumulator. -/
inductive Reg where
  | x
  | y
  | z
  deriving DecidableEq, Repr, Inhabited

/-- What is added to an address. -/
inductive Index where
  /-- nothing -/
  | none
  /-- a register -/
  | reg (r : Reg)
  /-- the register pair, Y being the high byte -/
  | yx
  deriving DecidableEq, Repr, Inhabited

/-- Operations on two operands. -/
inductive Alu where
  | add
  | sub
  | mul
  | div
  | mod
  | and
  | or
  | xor
  deriving DecidableEq, Repr, Inhabited

/-- The instructions. -/
inductive Op where
  | hlt
  | ret
  | rti
  | eni
  | dsi
  | nop
  | clr
  /-- copy the remainder to a register -/
  | rem (r : Reg)
  | jmp (index : Index)
  | jsr (index : Index)
  /-- jump, or call, if the register is zero -/
  | ifZero (r : Reg) (call : Bool)
  /-- jump, or call, if X is greater than Y -/
  | ifGreater (call : Bool)
  /-- jump, or call, if the registers are equal -/
  | ifEqual (a b : Reg) (call : Bool)
  /-- jump if the remainder is, or is not, zero -/
  | ifRemainder (zero : Bool)
  /-- return if the remainder is, or is not, zero -/
  | retRemainder (zero : Bool)
  /-- decrement, and jump if the result is not zero -/
  | djnz (r : Reg)
  | swp (a b : Reg)
  | loadImmediate (r : Reg)
  | move (destination source : Reg)
  | load (r : Reg) (index : Index)
  | store (r : Reg) (index : Index)
  | storeImmediate (index : Index)
  | inc (r : Reg)
  | dec (r : Reg)
  | incMemory
  | decMemory
  | lsl (r : Reg)
  | lsr (r : Reg)
  | not (r : Reg)
  | aluImmediate (alu : Alu) (r : Reg)
  | aluRegisters (alu : Alu) (a b : Reg)
  deriving DecidableEq, Repr, Inhabited

/-- The opcodes of an operation for X, Y and Z in a row. -/
def forEach (op : Reg → Op) (x y z : Nat) : List (Op × Nat) := [(op .x, x), (op .y, y), (op .z, z)]

/-- The opcodes of an operation that does not depend on the order of its registers. -/
def unordered (op : Reg → Reg → Op) (xy xz yz : Nat) : List (Op × Nat) :=
  [(op .x .y, xy), (op .x .z, xz), (op .y .z, yz)]

/-- The opcodes of an operation that depends on the order of its registers. -/
def ordered (op : Reg → Reg → Op) (xy xz yx yz zx zy : Nat) : List (Op × Nat) :=
  [(op .x .y, xy), (op .x .z, xz), (op .y .x, yx), (op .y .z, yz), (op .z .x, zx), (op .z .y, zy)]

/-- The opcodes. -/
def opcodes : List (Op × Nat) :=
  -- without their types the lists take long to elaborate
  ([(.hlt, 0x00), (.ret, 0x01), (.rti, 0x02), (.eni, 0x03), (.dsi, 0x04), (.nop, 0x05),
   (.clr, 0x0B)] : List (Op × Nat)) ++
  forEach .rem 0x08 0x09 0x0A ++
  ([(.jmp .none, 0x10)] : List (Op × Nat)) ++ forEach (fun r => .jmp (.reg r)) 0x11 0x12 0x13 ++
  ([(.jsr .none, 0x14)] : List (Op × Nat)) ++ forEach (fun r => .jsr (.reg r)) 0x15 0x16 0x17 ++
  ([(.ifZero .x false, 0x20), (.ifZero .z false, 0x21), (.ifGreater false, 0x22)] :
    List (Op × Nat)) ++
  unordered (fun a b => .ifEqual a b false) 0x23 0xF2 0xF3 ++
  ([(.ifRemainder true, 0xF0), (.ifRemainder false, 0xF1),
   (.ifZero .x true, 0x24), (.ifZero .z true, 0x25), (.ifGreater true, 0x26),
   (.ifEqual .x .y true, 0x27), (.retRemainder true, 0xF4), (.retRemainder false, 0xF5)] :
    List (Op × Nat)) ++
  forEach .djnz 0xE0 0xE1 0xE2 ++
  unordered .swp 0x18 0x19 0x1B ++
  forEach .loadImmediate 0x7C 0x7D 0x7E ++
  ordered .move 0x2A 0x2C 0x28 0x2D 0x29 0x2B ++
  forEach (fun r => .load r .none) 0xA0 0xB0 0xC0 ++
  ordered (fun r i => .load r (.reg i)) 0xA1 0xA2 0xB1 0xB2 0xC1 0xC2 ++
  ([(.load .z .yx, 0xC3)] : List (Op × Nat)) ++
  forEach (fun r => .store r .none) 0xA4 0xB4 0xC4 ++
  ordered (fun r i => .store r (.reg i)) 0xA5 0xA6 0xB5 0xB6 0xC5 0xC6 ++
  ([(.store .z .yx, 0xC7), (.storeImmediate .none, 0xD3)] : List (Op × Nat)) ++
  forEach (fun r => .storeImmediate (.reg r)) 0xD0 0xD1 0xD2 ++
  ([(.storeImmediate .yx, 0xD4)] : List (Op × Nat)) ++
  forEach .inc 0x30 0x31 0x32 ++ ([(.incMemory, 0x33)] : List (Op × Nat)) ++
  forEach .dec 0x34 0x35 0x36 ++ ([(.decMemory, 0x37)] : List (Op × Nat)) ++
  forEach .lsl 0x70 0x71 0x72 ++ forEach .lsr 0x74 0x75 0x76 ++ forEach .not 0x78 0x79 0x7A ++
  forEach (.aluImmediate .add) 0x40 0x50 0x60 ++ forEach (.aluImmediate .sub) 0x41 0x51 0x61 ++
  forEach (.aluImmediate .mul) 0x42 0x52 0x62 ++ forEach (.aluImmediate .div) 0x43 0x53 0x63 ++
  forEach (.aluImmediate .mod) 0x9C 0x9D 0x9E ++ forEach (.aluImmediate .and) 0x90 0x91 0x92 ++
  forEach (.aluImmediate .or) 0x94 0x95 0x96 ++ forEach (.aluImmediate .xor) 0x98 0x99 0x9A ++
  unordered (.aluRegisters .add) 0x44 0x45 0x55 ++
  ordered (.aluRegisters .sub) 0x46 0x47 0x56 0x57 0x66 0x67 ++
  unordered (.aluRegisters .mul) 0x48 0x49 0x59 ++
  ordered (.aluRegisters .div) 0x4A 0x4B 0x5A 0x5B 0x6A 0x6B ++
  ordered (.aluRegisters .mod) 0x4C 0x4D 0x5C 0x5D 0x6C 0x6D ++
  unordered (.aluRegisters .and) 0x80 0x81 0x82 ++
  unordered (.aluRegisters .xor) 0x84 0x85 0x86 ++
  unordered (.aluRegisters .or) 0x88 0x89 0x8A

/-- The opcode of an instruction that the table has. -/
def Op.code? (op : Op) : Option Nat := List.lookup op opcodes

/-- The instruction with an opcode. -/
def decode? (code : Nat) : Option Op := (opcodes.find? (·.2 == code)).map (·.1)

/-- Every entry of the table is found by its opcode, so no two entries share one. -/
theorem decode?_of_mem : ∀ entry ∈ opcodes, decode? entry.2 = some entry.1 := by
  decide +kernel

end PocketAsm.Bitzzy
