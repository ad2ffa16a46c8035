/-
  Isa/Lodestar/Dialect.lean --- the assembly language of the Lodestar.

  The Lodestar runs the code of the V8 but has a stricter language of its own:
  lines are folded to lower case, a number used as immediate data takes the
  mark `#` and a label used so takes none, and only labels, `.data` and
  `.address` are known as directives.
-/
import PocketAsm.Isa.V8.Dialect

set_option autoImplicit false

namespace PocketAsm.Lodestar

open Operand

/-! ## Operands -/

/-- A name: a letter or underscore, then one or more letters, digits and underscores. -/
def label : Pattern :=
  .seq (.one fun c => Text.isLetter c || c == '_')
    (.oneOrMore fun c => Text.isLetter c || Text.isDigit c || c == '_')

/-- A number, with or without its mark. -/
def number : Pattern :=
  .all [.opt (.one fun c => c == '%' || c == '$'), minus,
    .oneOrMore fun c => Text.isDigit c || Text.isLetterIn 'a' 'f' c || c == '_']

/-- A number or a name. -/
def absolute : Pattern := .alt number label

/-- A number behind its mark, or a name without one. -/
def immediate : Pattern :=
  .alt (.seq (.letter '#') (.slot .a number)) (.slot .a label)

/-- The accumulator after a comma. -/
def withA : Pattern :=
  .all [.few Text.isBlank, .letter ',', .few Text.isBlank, .letter 'a']

/-- A register in a slot. -/
def register (slot : Slot) : Pattern := .slot slot (.one V8.isRegisterLetter)

/-- The field of a register. -/
def registerBits (name : String) : Except Fault Bits :=
  match V8.registerCode? name with
  | some n => .ok (Bits.ofNat 3 n)
  | none => .error (.unknownRegister name)

/-! ## Instructions -/

/-- An operation on the register in slot `r`. -/
def onRegister (operands : Pattern) (mnemonic opcode : String) : Rule :=
  ⟨.all [.lit mnemonic, .space, operands],
    fun caps => .emit [code opcode, .register (registerBits (caps.get .r))] 1 none⟩

/-- A load or store: the register follows the mnemonic at once, the operand after blanks. -/
def memory (mnemonic : String) (source : Pattern) (opcode : String) : Rule :=
  ⟨.all [.lit mnemonic, register .r, .space, source],
    fun caps =>
      .emit [code opcode, .register (registerBits (caps.get .r)),
        .value (caps.get .a) 8 false false] 2 none⟩

/-- A load of a register from another one. -/
def move : Rule :=
  ⟨.all [.lit "ld", register .r, .space, register .s],
    fun caps =>
      .emit [code "11", .register (registerBits (caps.get .r)),
        .register (registerBits (caps.get .s))] 1 none⟩

/-- An operand in parentheses. -/
def indirect : Pattern := .all [.letter '(', .slot .a absolute, .letter ')']

/-- A number and the accumulator. -/
def indexed : Pattern := .seq (.slot .a number) withA

/-- The rules of the dialect.  A bare operand of `jmp` is the place where the target is stored; a
number behind `#` is the target itself. -/
def rules : List Rule :=
  [V8.plain "hlt" "00000000", V8.plain "nop" "00000001",
   V8.jump (.slot .a absolute) "jmp" "00000011"] ++
    V8.jumpCodes.map (fun e => V8.jump immediate e.1 e.2) ++
    (V8.plainCodes.drop 2).map (fun e => V8.plain e.1 e.2) ++
    V8.accumulatorCodes.map (fun e => onRegister (.seq (register .r) withA) e.1 e.2) ++
    V8.registerCodes.map (fun e => onRegister (register .r) e.1 e.2) ++
    [move,
     memory "ld" (.slot .a absolute) "10001",
     memory "ld" indirect "10101",
     memory "ld" immediate "01111",
     memory "ld" indexed "10011",
     memory "st" indexed "10010",
     memory "st" indirect "10100",
     memory "st" (.slot .a absolute) "10000",
     onRegister (register .r) "push" "10110",
     onRegister (register .r) "pull" "10111",
     Directive.dataRule .comma 1,
     Directive.addressRule number,
     Directive.labelRule label]

/-- The assembly language of the Lodestar. -/
def dialect : Dialect where
  name := "lodestar"
  rules := rules
  wordSize := 8
  numbers := .lodestar
  comments := [";", "//"]
  fixedWidth := none
  foldsCase := true
  encoding := none

/-- The reference text. -/
def documentation : String := "\n".intercalate
  ["Lodestar",
   "========",
   "",
   "8-bit CPU using the V8 instruction encoding. Registers A B C D E F X Y,",
   "A is the accumulator.",
   "",
   "Source is case-insensitive throughout: labels are folded to lower case.",
   "Numbers: $hex, %binary, decimal. Values must fit in 8 bits (-128..255).",
   "",
   "Operands:",
   "  #n          immediate number",
   "  label       immediate label (jumps) or absolute address (loads/stores)",
   "  (addr)      indirect",
   "  n, a        absolute + A (numbers only)",
   "",
   "Instructions:",
   "  hlt nop ret rti sec clc eni dsi",
   "  jmp addr (through vector) / jmp #n",
   "  jz jnz jc jnc jsr    #n or label",
   "  adc sbc xor and or cmp   r, a",
   "  inc dec not slc src rol ror   r",
   "  ldR r / ldR addr / ldR (addr) / ldR #n / ldR n, a",
   "  stR n, a / stR (addr) / stR addr",
   "  push r / pull r",
   "",
   "Directives: label:, .data v, ..., .address n",
   ""]

end PocketAsm.Lodestar
