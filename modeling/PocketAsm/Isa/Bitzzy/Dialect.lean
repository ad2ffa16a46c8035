/-
  Isa/Bitzzy/Dialect.lean --- the assembly language of the Bitzzy.

  An instruction is an opcode byte, perhaps followed by an address of two
  bytes or a byte of immediate data, or both.  Two registers written in the
  other order are put in order where the order does not matter.
-/
import PocketAsm.Isa.Bitzzy.Opcode
import PocketAsm.Isa.Operand

set_option autoImplicit false

namespace PocketAsm.Bitzzy

open Operand

/-! ## Operands -/

/-- A number, a name or a pair. -/
def operand : Pattern := value .dollar

/-- The letter of a register. -/
def Reg.letter : Reg → Char
  | .x => 'x'
  | .y => 'y'
  | .z => 'z'

/-- A given register. -/
def theReg (r : Reg) : Pattern := .letter r.letter

/-- Any register, or the register pair. -/
def anyReg : Pattern := .alt (.letter 'x') (.alt (.letter 'y') (.alt (.letter 'z') (.lit "yx")))

/-- An operand in a slot. -/
def inSlot (slot : Slot) : Pattern := .slot slot operand

/-- Immediate data in slot `a`. -/
def immediate : Pattern := .seq (.letter '#') (inSlot .a)

/-- A mnemonic and its operands, which separators set apart. -/
def line (mnemonic : String) : List Pattern → Pattern
  | [] => .lit mnemonic
  | first :: rest => .all ([.lit mnemonic, .space, first] ++ rest.flatMap ([.separator, ·]))

/-! ## Actions -/

/-- The opcode of an instruction. -/
def opcode (op : Op) : Field := .bits (Bits.ofNat 8 (op.code?.getD 0))

/-- An instruction of one byte. -/
def plain (pattern : Pattern) (op : Op) : Rule := ⟨pattern, fun _ => .emit [opcode op] 1 none⟩

/-- An instruction with immediate data in slot `a`. -/
def withImmediate (pattern : Pattern) (op : Op) : Rule :=
  ⟨pattern, fun caps => .emit [opcode op, .value (caps.get .a) 8 false false] 2 none⟩

/-- An instruction with an address in slot `a`. -/
def withAddress (pattern : Pattern) (op : Op) : Rule :=
  ⟨pattern, fun caps => .emit [opcode op, .value (caps.get .a) 16 false false] 3 none⟩

/-- An instruction with immediate data in slot `a` and an address in slot `b`. -/
def withBoth (pattern : Pattern) (op : Op) : Rule :=
  ⟨pattern, fun caps =>
    .emit [opcode op, .value (caps.get .b) 16 false false, .value (caps.get .a) 8 false false] 4
      none⟩

/-- A line that the instruction does not exist for. -/
def refused (pattern : Pattern) (mnemonic first second : String) : Rule :=
  ⟨pattern, fun _ => .reject (.registersOnly mnemonic first second)⟩

/-- A line that is short for another one. -/
def respelled (pattern : Pattern) (text : Captures → String) : Rule :=
  ⟨pattern, fun caps => .expand [text caps]⟩

/-- Two registers in capitals with a comma between them. -/
def inOrder (a b : Reg) : String :=
  let first := a.letter.toUpper
  let second := b.letter.toUpper
  s!"{first}, {second}"

/-! ## Instructions -/

/-- All registers. -/
def regs : List Reg := [.x, .y, .z]

/-- The pairs of registers in alphabetic order. -/
def pairs : List (Reg × Reg) := [(.x, .y), (.x, .z), (.y, .z)]

/-- The pairs of different registers. -/
def allPairs : List (Reg × Reg) := [(.x, .y), (.x, .z), (.y, .x), (.y, .z), (.z, .x), (.z, .y)]

/-- Control instructions and jumps without condition. -/
def control : List Rule :=
  [plain (.lit "hlt") .hlt, plain (.lit "rti") .rti, plain (.lit "eni") .eni,
   plain (.lit "dsi") .dsi, plain (.lit "nop") .nop] ++
  regs.map (fun r => plain (line "rem" [theReg r]) (.rem r)) ++
  [plain (.lit "clr") .clr, withAddress (line "jmp" [inSlot .a]) (.jmp .none)] ++
  regs.map (fun r => withAddress (line "jmp" [inSlot .a, theReg r]) (.jmp (.reg r))) ++
  [withAddress (line "jsr" [inSlot .a]) (.jsr .none)] ++
  regs.map (fun r => withAddress (line "jsr" [inSlot .a, theReg r]) (.jsr (.reg r)))

/-- Exchanges, in either order of the registers. -/
def exchanges : List Rule :=
  pairs.flatMap fun (a, b) =>
    [plain (line "swp" [theReg a, theReg b]) (.swp a b),
     respelled (line "swp" [theReg b, theReg a]) fun _ => "SWP " ++ inOrder a b]

/-- Jumps, or calls, if a register is zero or greater than another one. -/
def comparisons (ifZero ifGreater zeroName greaterName : String) (call : Bool) : List Rule :=
  [Reg.x, .z].map (fun r => withAddress (line ifZero [theReg r, inSlot .a]) (.ifZero r call)) ++
  [refused (line ifZero [.slot .r anyReg, inSlot .a]) zeroName "X" "Z",
   withAddress (line ifGreater [theReg .x, theReg .y, inSlot .a]) (.ifGreater call),
   refused (line ifGreater [.slot .r anyReg, .slot .s anyReg, inSlot .a]) greaterName "X" "Y"]

/-- Jumps on a condition. -/
def conditionalJumps : List Rule :=
  comparisons "jmpez" "jmpgt" "JMPEZ" "JMPGT" false ++
  pairs.flatMap (fun (a, b) =>
    [withAddress (line "jmpeq" [theReg a, theReg b, inSlot .a]) (.ifEqual a b false),
     respelled (line "jmpeq" [theReg b, theReg a, inSlot .a])
       fun caps => "JMPEQ " ++ inOrder a b ++ ", " ++ caps.get .a]) ++
  [withAddress (line "jmprez" [inSlot .a]) (.ifRemainder true),
   withAddress (line "jmprnz" [inSlot .a]) (.ifRemainder false)]

/-- Calls on a condition, and returns. -/
def conditionalCalls : List Rule :=
  comparisons "jsrez" "jsrgt" "JSREZ" "JSRGT" true ++
  [withAddress (line "jsreq" [theReg .x, theReg .y, inSlot .a]) (.ifEqual .x .y true),
   respelled (line "jsreq" [theReg .y, theReg .x, inSlot .a])
     fun caps => "JSREQ X, Y, " ++ caps.get .a,
   refused (line "jsreq" [.slot .r anyReg, .slot .s anyReg, inSlot .a]) "JSREQ" "X" "Y",
   plain (.lit "ret") .ret, plain (.lit "retrez") (.retRemainder true),
   plain (.lit "retrnz") (.retRemainder false)] ++
  regs.map (fun r => withAddress (line "djnz" [theReg r, inSlot .a]) (.djnz r))

/-- Loads and stores.  The forms with registers come before those with an address, which the name
of a register would match too. -/
def transfers : List Rule :=
  regs.map (fun r => withImmediate (line "lod" [theReg r, immediate]) (.loadImmediate r)) ++
  allPairs.map (fun (a, b) => plain (line "lod" [theReg a, theReg b]) (.move a b)) ++
  regs.map (fun r => withAddress (line "lod" [theReg r, inSlot .a]) (.load r .none)) ++
  allPairs.map (fun (a, b) =>
    withAddress (line "lod" [theReg a, inSlot .a, theReg b]) (.load a (.reg b))) ++
  regs.map (fun r => withAddress (line "str" [theReg r, inSlot .a]) (.store r .none)) ++
  allPairs.map (fun (a, b) =>
    withAddress (line "str" [theReg a, inSlot .a, theReg b]) (.store a (.reg b))) ++
  regs.map (fun r =>
    withBoth (line "str" [immediate, inSlot .b, theReg r]) (.storeImmediate (.reg r))) ++
  [withBoth (line "str" [immediate, inSlot .b]) (.storeImmediate .none),
   withBoth (line "str" [immediate, inSlot .b, .lit "yx"]) (.storeImmediate .yx),
   withAddress (line "lod" [theReg .z, inSlot .a, .lit "yx"]) (.load .z .yx),
   withAddress (line "str" [theReg .z, inSlot .a, .lit "yx"]) (.store .z .yx)]

/-- The mnemonics of the operations on two operands, and whether the order of registers matters. -/
def aluNames : List (String × Alu × Bool) :=
  [("add", .add, false), ("sub", .sub, true), ("mul", .mul, false), ("div", .div, true),
   ("mod", .mod, true), ("and", .and, false), ("or", .or, false), ("xor", .xor, false)]

/-- The operation on two registers, which are put in order unless their order matters. -/
def aluOp (alu : Alu) (orderMatters : Bool) (a b : Reg) : Op :=
  if orderMatters || pairs.contains (a, b) then .aluRegisters alu a b else .aluRegisters alu b a

/-- Arithmetic and logic. -/
def arithmetic : List Rule :=
  regs.map (fun r => plain (line "inc" [theReg r]) (.inc r)) ++
  [withAddress (line "inc" [inSlot .a]) .incMemory] ++
  regs.map (fun r => plain (line "dec" [theReg r]) (.dec r)) ++
  [withAddress (line "dec" [inSlot .a]) .decMemory] ++
  aluNames.flatMap (fun (mnemonic, alu, orderMatters) =>
    regs.map (fun r => withImmediate (line mnemonic [theReg r, immediate]) (.aluImmediate alu r)) ++
    allPairs.map (fun (a, b) =>
      plain (line mnemonic [theReg a, theReg b]) (aluOp alu orderMatters a b))) ++
  regs.map (fun r => plain (line "lsl" [theReg r]) (.lsl r)) ++
  regs.map (fun r => plain (line "lsr" [theReg r]) (.lsr r)) ++
  regs.map (fun r => plain (line "not" [theReg r]) (.not r))

/-- The rules of the instructions. -/
def instructions : List Rule :=
  control ++ exchanges ++ conditionalJumps ++ conditionalCalls ++ transfers ++ arithmetic

/-- The assembly language of the Bitzzy.  A symbol in data is an address of two bytes. -/
def dialect : Dialect where
  name := "bitzzy"
  rules := instructions ++ Directive.common operand .comma 2
  wordSize := 8
  numbers := .dollar
  comments := [";", "//"]
  fixedWidth := none
  foldsCase := false
  encoding := none

/-- The reference text. -/
def documentation : String := "\n".intercalate
  ["Bitzzy",
   "======",
   "",
   "8-bit CPU with 16-bit addressing. Three registers: X, Y and Z (Z is the",
   "accumulator). YX is X and Y combined, Y being the high byte.",
   "",
   "Operands:",
   "  <reg>   X, Y or Z; two-register instructions need different registers",
   "  <imm>   8-bit immediate, prefixed with '#', signed or unsigned",
   "  <addr>  16-bit address; labels may be offset: (label + 2)",
   "",
   "Instructions:",
   "  HLT, NOP, RTI, ENI, DSI",
   "  REM <reg>              reg = remainder (carry/borrow flag)",
   "  CLR                    clear the remainder",
   "  JMP <addr>[, <reg>]    jump to addr (+ reg)",
   "  JSR <addr>[, <reg>]    call addr (+ reg)",
   "  JMPEZ X|Z, <addr>      jump if the register is zero",
   "  JMPGT X, Y, <addr>     jump if X > Y",
   "  JMPEQ <a>, <b>, <addr> jump if the registers are equal",
   "  JMPREZ / JMPRNZ <addr> jump if the remainder is zero / not zero",
   "  JSREZ, JSRGT, JSREQ    subroutine forms of the conditional jumps",
   "  RET, RETREZ, RETRNZ    return (conditionally on the remainder)",
   "  DJNZ <reg>, <addr>     decrement reg, jump if not zero",
   "  INC / DEC <reg>|<addr>",
   "  ADD, SUB, MUL, DIV, MOD, AND, OR, XOR",
   "      <a>, <b>           result in Z",
   "      <reg>, <imm>       result in reg",
   "  LSL, LSR, NOT <reg>",
   "  LOD <reg>, <imm>|<reg>|<addr>[, <reg>]",
   "  LOD Z, <addr>, YX",
   "  STR <reg>, <addr>[, <reg>]",
   "  STR Z, <addr>, YX",
   "  STR <imm>, <addr>[, <reg>|YX]",
   "  SWP <a>, <b>",
   "",
   "Directives:",
   "  name:            define a label",
   "  .data v, ...     bytes; a label stores its 16-bit address",
   "  .repeat v, n     repeat v n times",
   "  .address addr    set the current address",
   "  .align n         pad to a multiple of n",
   "  .start / .end    resume / stop emitting",
   "  .eq name, v      define a constant",
   ""]

end PocketAsm.Bitzzy
