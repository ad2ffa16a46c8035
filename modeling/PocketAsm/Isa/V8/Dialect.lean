/-
  Isa/V8/Dialect.lean --- the assembly language of the V8.

  An instruction is an opcode byte, with the register in its low three bits if
  it takes one, perhaps followed by a byte of immediate data or an address.
-/
import PocketAsm.Isa.Operand
import PocketAsm.Isa.V8.Register

set_option autoImplicit false

namespace PocketAsm.V8

open Operand

/-! ## Operands -/

/-- A number, a name or a pair. -/
def operand : Pattern := value .dollar

/-- An operand in parentheses. -/
def indirect (slot : Slot) : Pattern := .all [.letter '(', .slot slot operand, .letter ')']

/-- The accumulator after a comma. -/
def withA : Pattern := .all [.optSpace, .letter ',', .optSpace, .letter 'a']

/-- A register in a slot. -/
def register (slot : Slot) : Pattern := .slot slot (.one isRegisterLetter)

/-! ## Instructions -/

/-- Instructions without operand. -/
def plainCodes : List (String × String) :=
  [("hlt", "00000000"), ("nop", "00000001"), ("ret", "00001010"), ("rti", "00001011"),
   ("sec", "00001100"), ("clc", "00001101"), ("eni", "00001110"), ("dsi", "00001111")]

/-- Jumps to an address. -/
def jumpCodes : List (String × String) :=
  [("jmp", "00000010"), ("jz", "00000100"), ("jnz", "00000101"), ("jc", "00000110"),
   ("jnc", "00000111"), ("jsr", "00001000")]

/-- Operations on a register and the accumulator. -/
def accumulatorCodes : List (String × String) :=
  [("adc", "00010"), ("sbc", "00100"), ("xor", "00111"), ("and", "01000"), ("or", "01001"),
   ("cmp", "01110")]

/-- Operations on one register. -/
def registerCodes : List (String × String) :=
  [("inc", "00011"), ("dec", "00101"), ("not", "00110"), ("slc", "01010"), ("src", "01011"),
   ("rol", "01100"), ("ror", "01101")]

/-- An instruction without operand. -/
def plain (mnemonic opcode : String) : Rule :=
  ⟨.lit mnemonic, fun _ => .emit [code opcode] 1 none⟩

/-- A jump: the opcode and the byte of its target. -/
def jump (target : Pattern) (mnemonic opcode : String) : Rule :=
  ⟨.all [.lit mnemonic, .space, target],
    fun caps => .emit [code opcode, .value (caps.get .a) 8 false false] 2 none⟩

/-- An operation on the register in slot `r`. -/
def onRegister (operands : Pattern) (mnemonic opcode : String) : Rule :=
  ⟨.all [.lit mnemonic, .space, operands],
    fun caps => .emit [code opcode, .register (registerBits (caps.get .r))] 1 none⟩

/-- A load or store: the register follows the mnemonic at once, the operand after a separator. -/
def memory (mnemonic : String) (source : Pattern) (opcode : String) : Rule :=
  ⟨.all [.lit mnemonic, register .a, .separator, source],
    fun caps =>
      .emit [code opcode, .register (registerBits (caps.get .a)),
        .value (caps.get .b) 8 false false] 2 none⟩

/-- A load of a register from another one. -/
def move : Rule :=
  ⟨.all [.lit "ld", register .a, .separator, register .b],
    fun caps =>
      .emit [code "11", .register (registerBits (caps.get .a)),
        .register (registerBits (caps.get .b))] 1 none⟩

/-- The rules of the instructions. -/
def instructions : List Rule :=
  plainCodes.map (fun e => plain e.1 e.2) ++
    [jump (indirect .a) "jmp" "00000011", jump (indirect .a) "jsr" "00001001"] ++
    jumpCodes.map (fun e => jump (.slot .a operand) e.1 e.2) ++
    accumulatorCodes.map (fun e => onRegister (.seq (register .r) withA) e.1 e.2) ++
    registerCodes.map (fun e => onRegister (register .r) e.1 e.2) ++
    [move,
     memory "ld" (.seq (.slot .b operand) withA) "10011",
     memory "st" (.seq (.slot .b operand) withA) "10010",
     memory "ld" (indirect .b) "10101",
     memory "st" (indirect .b) "10100",
     memory "ld" (.seq (.letter '#') (.slot .b operand)) "01111",
     memory "ld" (.slot .b operand) "10001",
     memory "st" (.slot .b operand) "10000",
     onRegister (.slot .r operand) "push" "10110",
     onRegister (.slot .r operand) "pull" "10111"]

/-- The assembly language of the V8. -/
def dialect : Dialect where
  name := "v8"
  rules := instructions ++ Directive.common operand .comma 1
  wordSize := 8
  numbers := .dollar
  comments := [";", "//"]
  fixedWidth := none
  foldsCase := false
  encoding := none

/-- The reference text. -/
def documentation : String := "\n".intercalate
  ["V8",
   "==",
   "",
   "8-bit CPU: 8-bit address bus, eight registers (A B C D E F X Y) and two",
   "flags (Z zero, C carry). A is the accumulator: ALU operations of the",
   "form \x22OP R,A\x22 leave their result in A.",
   "",
   "Addressing modes (\x22*\x22 is the byte after the opcode):",
   "  LDA B       register",
   "  LDA #*      immediate",
   "  LDA *       absolute",
   "  LDA *,A     absolute, A-indexed (address * + A)",
   "  LDA (*)     indirect (address stored at *)",
   "",
   "Opcodes:",
   "  $00 HLT   $01 NOP   $02 JMP imm  $03 JMP ind  $04 JZ   $05 JNZ",
   "  $06 JC    $07 JNC   $08 JSR imm  $09 JSR ind  $0A RET  $0B RTI",
   "  $0C SEC   $0D CLC   $0E ENI      $0F DSI",
   "  00010rrr ADC r,A    00011rrr INC r    00100rrr SBC r,A   00101rrr DEC r",
   "  00110rrr NOT r      00111rrr XOR r,A  01000rrr AND r,A   01001rrr OR r,A",
   "  01010rrr SLC r      01011rrr SRC r    01100rrr ROL r     01101rrr ROR r",
   "  01110rrr CMP r,A    01111rrr LDr imm  10000rrr STr abs   10001rrr LDr abs",
   "  10010rrr STr aai    10011rrr LDr aai  10100rrr STr ind   10101rrr LDr ind",
   "  10110rrr PUSH r     10111rrr PULL r   11dddsss LDd s",
   "",
   "Registers: A=000 B=001 C=010 D=011 E=100 F=101 X=110 Y=111",
   "",
   "Stack: the stack pointer lives at $7F, starts at $7E and grows down.",
   "Vectors: reset at $FF, interrupt at $FE.",
   "",
   "Directives: label:, .data, .repeat, .eq, .address, .align, .start, .end",
   ""]

end PocketAsm.V8
