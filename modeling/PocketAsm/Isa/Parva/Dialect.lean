/-
  Isa/Parva/Dialect.lean --- the assembly language of the Parva.

  Every instruction is one word of 24 bits.  Many mnemonics are short for one
  or two others and are expanded into them.
-/
import PocketAsm.Isa.Operand
import PocketAsm.Isa.Parva.Register

set_option autoImplicit false

namespace PocketAsm.Parva

open Operand

/-! ## Operands -/

/-- A name or number. -/
def name : Pattern := .oneOrMore isNameChar

/-- A character or an escape between apostrophes, perhaps behind a minus sign. -/
def character : Pattern :=
  .all [minus, .letter '\x27', .opt (.letter '\\'), .one (· != '\n'), .letter '\x27']

/-- A name or number, a pair of those, or a character. -/
def operand : Pattern := .alt name (.alt (pair name) character)

/-- The name of a register. -/
def registerName : Pattern := orElse (registerNames.dropLast.map .lit) (.lit "x67")

/-- Three operands after the mnemonic: destination, first and second source. -/
def three (mnemonic : String) : Pattern :=
  .all [.lit mnemonic, .space, .slot .d operand, .separator, .slot .a operand, .separator,
    .slot .b operand]

/-- A pattern and a base in parentheses. -/
def based (offset : Pattern) : Pattern :=
  .all [.slot .b offset, .optSpace, .letter '(', .optSpace, .slot .a operand, .optSpace,
    .letter ')']

/-- A mnemonic with one operand. -/
def one (mnemonic : String) (slot : Slot) : Pattern :=
  .all [.lit mnemonic, .space, .slot slot operand]

/-- A mnemonic with two operands. -/
def two (mnemonic : String) (first second : Slot) : Pattern :=
  .all [.lit mnemonic, .space, .slot first operand, .separator, .slot second operand]

/-! ## Fields -/

/-- The low bits that an instruction on registers leaves unused. -/
def unused : Field := .bits (List.replicate 9 false)

/-- The leading bit of a field of three. -/
def leading (field : Except Fault Bits) : Except Fault Bits := field.map (·.take 1)

/-- The other bits of a field of three. -/
def trailing (field : Except Fault Bits) : Except Fault Bits := field.map (·.drop 1)

/-- One word. -/
def word (fields : List Field) : Action := .emit fields 1 none

/-! ## Computation -/

/-- An operation on two registers, and on a register and a number. -/
def operation (mnemonic bits : String) (signed : Bool) : List Rule :=
  [⟨three mnemonic, fun caps =>
      word [code "0", code bits, code "1", .register (single (caps.get .a)),
        .register (basic (caps.get .d)), .register (basic (caps.get .b)), unused]⟩,
   ⟨three (mnemonic ++ "i"), fun caps =>
      word [code "0", code bits, code "0", .register (single (caps.get .a)),
        .register (basic (caps.get .d)), .value (caps.get .b) 12 signed false]⟩]

/-- A multiplication or division; the first source is split around a mark of two ones. -/
def product (mnemonic bits : String) : List Rule :=
  [⟨three mnemonic, fun caps =>
      word [code "0", code bits, .register (leading (basic (caps.get .a))), code "111",
        .register (trailing (basic (caps.get .a))), .register (basic (caps.get .d)),
        .register (basic (caps.get .b)), unused]⟩,
   ⟨three (mnemonic ++ "i"), fun caps =>
      word [code "0", code bits, .register (leading (basic (caps.get .a))), code "011",
        .register (trailing (basic (caps.get .a))), .register (basic (caps.get .d)),
        .value (caps.get .b) 12 false false]⟩]

/-- A subtraction of registers. -/
def subtraction : Rule :=
  ⟨three "sub", fun caps =>
    word [code "00011", .register (single (caps.get .a)), .register (basic (caps.get .d)),
      .register (basic (caps.get .b)), unused]⟩

/-- A load of the upper half of a word. -/
def loadUpper : Rule :=
  ⟨two "lui" .d .a, fun caps =>
    word [code "00010", code "1000", .register (basic (caps.get .d)),
      .value (caps.get .a) 12 false false]⟩

/-- Loads a number: in one word if it fits the immediate field of an addition, else in two halves. -/
def loadNumber (d a : String) : Action :=
  match NumberSyntax.zeroMarked.read a with
  | .error e => .reject e
  | .ok none => .expand [s!"addi {d}, zero, {a}"]
  | .ok (some n) =>
    match Bits.encodeField n wordSize false with
    | .error e => .reject e
    | .ok _ =>
      if -2048 ≤ n ∧ n < 2048 then .expand [s!"addi {d}, zero, {a}"]
      else
        let high := n / 4096 % 4096
        let low := n % 4096
        .expand [s!"lui {d}, {high}", s!"ori {d}, {d}, {low}"]

/-! ## Memory -/

/-- A load or store with the offset in a register, and with a number as offset. -/
def access (mnemonic bits : String) (destination : String → Except Fault Bits) : List Rule :=
  [⟨.all [.lit mnemonic, .space, .slot .d operand, .separator, based registerName], fun caps =>
      word [code "10", code bits, code "1", .register (single (caps.get .a)),
        .register (destination (caps.get .d)), .register (basic (caps.get .b)), unused]⟩,
   ⟨.all [.lit mnemonic, .space, .slot .d operand, .separator, based operand], fun caps =>
      word [code "10", code bits, code "0", .register (single (caps.get .a)),
        .register (destination (caps.get .d)), .value (caps.get .b) 12 true false]⟩]

/-- A load or store at an address. -/
def accessAbsolute (mnemonic : String) : Rule :=
  ⟨two mnemonic .d .b, fun caps =>
    let d := caps.get .d
    let b := caps.get .b
    .expand [s!"{mnemonic} {d}, {b}(zero)"]⟩

/-! ## Branches -/

/-- A branch that compares two registers, in the written or in the other order. -/
def branch (mnemonic bits : String) (swapped : Bool) : Rule :=
  ⟨.all [.lit mnemonic, .space, .slot .a operand, .separator, .slot .d operand, .separator,
      .slot .b operand],
    fun caps =>
      let first := if swapped then caps.get .d else caps.get .a
      let second := if swapped then caps.get .a else caps.get .d
      word [code "11", code bits, .register (single first), .register (basic second),
        .value (caps.get .b) 12 true true]⟩

/-- A branch that compares a register with zero by way of another branch. -/
def branchZero (mnemonic real : String) : Rule :=
  ⟨two mnemonic .a .b, fun caps =>
    let a := caps.get .a
    let b := caps.get .b
    .expand [s!"{real} zero, {a}, {b}"]⟩

/-- A branch on the sign of a register. -/
def branchSign (mnemonic bits : String) : Rule :=
  ⟨two mnemonic .a .b, fun caps =>
    word [code "11", code bits, .register (single (caps.get .a)), code "000",
      .value (caps.get .b) 12 true true]⟩

/-- A jump; the offset is a register or a number. -/
def jump (a b : String) : Action :=
  if isRegister b then
    word [code "1111", code "1", .register (single a), code "100", .register (basic b), unused]
  else word [code "1111", code "0", .register (single a), code "100", .value b 12 false false]

/-- A branch that is always taken. -/
def branchAlways (a : String) : Action :=
  if isRegister a then .expand [s!"j {a}(pc)"] else .expand [s!"beq x0, x0, {a}"]

/-! ## The dialect -/

/-- The rules of the instructions. -/
def instructions : List Rule :=
  operation "add" "000" true ++ [subtraction, loadUpper] ++
    [("sll", "010"), ("srl", "011"), ("sra", "100"), ("xor", "101"), ("or", "110"),
      ("and", "111")].flatMap (fun e => operation e.1 e.2 false) ++
    [("mulu", "00"), ("mulhu", "01"), ("divu", "10"), ("remu", "11")].flatMap
      (fun e => product e.1 e.2) ++
    [⟨.lit "nop", fun _ => .expand ["addi x0, x0, 0"]⟩,
     ⟨two "mv" .d .a, fun caps =>
        let d := caps.get .d
        let a := caps.get .a
        .expand [s!"add {d}, zero, {a}"]⟩,
     ⟨two "li" .d .a, fun caps => loadNumber (caps.get .d) (caps.get .a)⟩] ++
    access "lw" "00" basic ++ access "sw" "01" basic ++ access "ld" "10" double ++
    access "sd" "11" double ++
    ["lw", "sw", "ld", "sd"].map accessAbsolute ++
    [⟨one "push" .a, fun caps =>
        let a := caps.get .a
        .expand [s!"sw {a}, 0(sp)", "addi sp, sp, 1"]⟩,
     ⟨one "pop" .a, fun caps =>
        let a := caps.get .a
        .expand ["addi sp, sp, -1", s!"lw {a}, 0(sp)"]⟩] ++
    [("beq", "000"), ("bltu", "010"), ("blt", "100"), ("bne", "001"), ("bgeu", "011"),
      ("bge", "101")].map (fun e => branch e.1 e.2 false) ++
    [("bgt", "100"), ("bgtu", "010"), ("ble", "101"), ("bleu", "011")].map
      (fun e => branch e.1 e.2 true) ++
    [("beqz", "beq"), ("bnez", "bne"), ("bgtz", "blt"), ("blez", "bge")].map
      (fun e => branchZero e.1 e.2) ++
    [("bltz", "110"), ("bgez", "111")].map (fun e => branchSign e.1 e.2) ++
    [⟨.all [.lit "j", .space, based operand], fun caps => jump (caps.get .a) (caps.get .b)⟩,
     ⟨one "j" .b, fun caps =>
        let b := caps.get .b
        .expand [s!"j {b}(zero)"]⟩,
     ⟨one "b" .a, fun caps => branchAlways (caps.get .a)⟩,
     ⟨.lit "wfi", fun _ => .expand ["b 0"]⟩,
     ⟨one "call" .a, fun caps =>
        let a := caps.get .a
        .expand ["addi ra, pc, 2", s!"j {a}"]⟩,
     ⟨.lit "ret", fun _ => .expand ["j ra"]⟩]

/-- A string literal: whatever stands between the first and the last quote. -/
def quotedText : Pattern := .all [.letter '\x22', .remainder, .letter '\x22']

/-- The directives for text. -/
def textDirectives : List Rule :=
  [⟨.all [.lit ".string", .space, .slot .a quotedText], fun caps => .string (caps.get .a)⟩,
   ⟨one ".string_encoding" .a, fun caps => .encoding (caps.get .a)⟩]

/-- The assembly language of the Parva. -/
def dialect : Dialect where
  name := "parva_0_1"
  rules := instructions ++ Directive.common operand .separator 1 ++ textDirectives
  wordSize := wordSize
  numbers := .zeroMarked
  comments := [";", "//", "#"]
  fixedWidth := some wordSize
  foldsCase := false
  encoding := some .ascii

/-- The reference text. -/
def documentation : String := "\n".intercalate
  ["Parva 0.1",
   "=========",
   "",
   "24-bit CPU with a 64x48 pixel display and 4 I/O device ports. The",
   "syntax follows RISC-V.",
   "",
   "Registers:",
   "  x0/ra  return address      x4/t0, x5/t1  temporaries",
   "  x1/sp  stack pointer       x6/a0, x7/a1  arguments",
   "  x2/bp  base pointer        x3/s0         saved",
   "  zero, pc, cycle, upper (0xFFF000): read-only special registers",
   "  x01, x23, x45, x67: double registers",
   "",
   "ALU (immediate variants end in 'i'; add immediates are signed):",
   "  add, sub, sll, srl, sra, xor, or, and    xD, xS, xB",
   "  mulu, mulhu, divu, remu                  xD, xA, xB",
   "  lui xD, I        xD = I << 12",
   "  li xD, I         load any 24-bit value (addi or lui + ori)",
   "  mv xD, xS / nop",
   "",
   "Data (immediates are signed):",
   "  lw / sw xD, I(xS)     word at xS + I",
   "  ld / sd xDD, I(xS)    double at xS + I (align to 2)",
   "  lw / sw / ld / sd xD, I    address I",
   "  push xA / pop xA",
   "",
   "Branching (branches are PC-relative, jumps absolute):",
   "  beq, bne, blt, bltu, bge, bgeu, bgt, bgtu, ble, bleu  xA, xB, I",
   "  beqz, bnez, bltz, bgez, bgtz, blez                    xA, I",
   "  b I / b xB, j I / j I(xS) / j xB(xS)",
   "  call I, ret, wfi",
   "",
   "Directives:",
   "  name:                  define a label",
   "  .data I I ...          one word per value",
   "  .string \x22text\x22         one word per character (active encoding)",
   "  .string_encoding name  ascii or terminal",
   "  .repeat I, n / .address I / .align n / .eq name, I / .start / .end",
   "",
   "I/O:",
   "  Addresses from 0xFFF000 are I/O; bits 10-11 select the device.",
   "  GPU (device 1):",
   "    sd xAB, 0b010000_000000(upper)   move cursor to (A, B)",
   "    sd xAB, 0b010010_000000(upper)   draw 6x8 pixels AB into the buffer",
   "    sw x0, 0b010011_000000(upper)    show the buffer",
   "    sw x0, 0b010100_000000(upper)    clear the screen",
   ""]

end PocketAsm.Parva
