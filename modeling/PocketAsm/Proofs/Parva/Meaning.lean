/-
  Proofs/Parva/Meaning.lean --- what the instructions for computation and memory mean.

  A line of such an instruction is read by its fields (`Statement.read?`):
  mnemonic, destination, sources.  Its effect is stated in terms of the names
  that are written on it (`Statement.effect?`); nothing here mentions codes,
  words of instructions or rules.
-/
import PocketAsm.Proofs.Parva.Decoding

set_option autoImplicit false

namespace PocketAsm.Parva

open Text

/-! ## States -/

/-- Every word of the state has 24 bits. -/
structure State.WellFormed (s : State) : Prop where
  registers : ∀ index, s.reg index < wordCount
  memory : ∀ address, s.memory.read address < wordCount
  pc : s.pc < wordCount
  cycle : s.cycle < wordCount

/-- The value of a register of a well-formed state is a word. -/
theorem State.WellFormed.value_lt {s : State} (h : s.WellFormed) (register : Register) :
    register.value s < wordCount := by
  cases register with
  | basic index => exact h.registers index
  | zero => exact Nat.succ_pos _
  | pc => exact h.pc
  | cycle => exact h.cycle
  | upper =>
    change 0xFFF000 < wordCount
    decide

/-! ## Operations -/

/-- The operations on two sources. -/
inductive Operation where
  | add
  | sub
  | sll
  | srl
  | sra
  | xor
  | or
  | and
  | mulu
  | mulhu
  | divu
  | remu
  deriving DecidableEq, Repr, Inhabited

/-- The result of an operation, which is stored modulo the number of words. -/
def Operation.result (x : Nat) (y : Int) : Operation → Int
  | .add => x + y
  | .sub => x - y
  | .sll => x * 2 ^ y.toNat
  | .srl => x / 2 ^ y.toNat
  | .sra => twosComplement x / 2 ^ y.toNat
  | .xor => (x ^^^ y.toNat : Nat)
  | .or => (x ||| y.toNat : Nat)
  | .and => (x &&& y.toNat : Nat)
  | .mulu => x * y
  | .mulhu => x * y / 2 ^ 24
  | .divu => if y = 0 then 0xFFFFFF else x / y
  | .remu => if y = 0 then 0 else x % y

/-- Loads and stores of a word, and of two. -/
inductive Access where
  | lw
  | sw
  | ld
  | sd
  deriving DecidableEq, Repr, Inhabited

/-- The access is one of two words. -/
def Access.isDouble : Access → Bool
  | .ld | .sd => true
  | _ => false

/-- The number of the register that an access loads or stores, by its name; an access of two words
takes a double register and goes by its first half. -/
def Access.index? (d : String) : Access → Option RegisterIndex
  | .lw | .sw => basicIndex? d
  | .ld | .sd => doubleIndex? d

/-- The state after a load or store at an address. -/
def Access.perform (s : State) (index : RegisterIndex) (address : Nat) : Access → State
  | .lw => s.setReg index (s.memory.read address)
  | .sw => { s with memory := s.memory.write address (s.reg index) }
  | .ld =>
    (s.setReg index (s.memory.read address)).setReg (index + 1) (s.memory.read (address + 1 : Nat))
  | .sd =>
    { s with
      memory := (s.memory.write address (s.reg index)).write (address + 1 : Nat)
        (s.reg (index + 1)) }

/-! ## Statements -/

/-- A second source or an offset. -/
inductive Second where
  | register (name : String)
  | immediate (operand : String)
  deriving DecidableEq, Repr, Inhabited

/-- An instruction, by the names and operands that are written. -/
inductive Statement where
  | compute (op : Operation) (d a : String) (b : Second)
  | loadUpper (d operand : String)
  | transfer (access : Access) (d base : String) (offset : Second)
  deriving DecidableEq, Repr, Inhabited

namespace Statement

/-- The value of a second source; an immediate one that is not signed counts by its field. -/
def second? (value : String → Option Int) (s : State) (signed : Bool) : Second → Option Int
  | .register name => (basicIndex? name).map fun index => (s.reg index : Int)
  | .immediate operand => (value operand).map fun n => if signed then n else n % 4096

/-- The address of a load or store. -/
def address? (value : String → Option Int) (s : State) (base : String) (offset : Second) :
    Option Nat := do
  let x ← s.named? base
  let y ← second? value s true offset
  return ((x + y) % wordCount).toNat

/-- The addresses that an instruction loads from or stores to. -/
def touched (value : String → Option Int) (s : State) : Statement → List Nat
  | .transfer access _ base offset =>
    match address? value s base offset with
    | some address => if access.isDouble then [address, address + 1] else [address]
    | none => []
  | _ => []

/-- The state after an instruction, the counters apart.  The values of operands are given. -/
def effect? (value : String → Option Int) (s : State) : Statement → Option State
  | .compute op d a b => do
    let index ← basicIndex? d
    let x ← s.named? a
    let y ← second? value s (op = .add) b
    return s.setReg index (op.result x y)
  | .loadUpper d operand => do
    let index ← basicIndex? d
    let n ← value operand
    return s.setReg index (n % 4096 * 4096)
  | .transfer access d base offset => do
    let index ← access.index? d
    let address ← address? value s base offset
    return access.perform s index address

/-! ## Reading -/

/-- The mnemonics of the operations on registers. -/
def operations : List (String × Operation) :=
  [("add", .add), ("sub", .sub), ("sll", .sll), ("srl", .srl), ("sra", .sra), ("xor", .xor),
   ("or", .or), ("and", .and), ("mulu", .mulu), ("mulhu", .mulhu), ("divu", .divu),
   ("remu", .remu)]

/-- The mnemonics of the operations on a register and a number. -/
def immediateOperations : List (String × Operation) :=
  [("addi", .add), ("slli", .sll), ("srli", .srl), ("srai", .sra), ("xori", .xor), ("ori", .or),
   ("andi", .and), ("mului", .mulu), ("mulhui", .mulhu), ("divui", .divu), ("remui", .remu)]

/-- The mnemonics of loads and stores. -/
def accesses : List (String × Access) := [("lw", .lw), ("sw", .sw), ("ld", .ld), ("sd", .sd)]

/-- The mnemonics of all these instructions. -/
def mnemonics : List String :=
  operations.map (·.1) ++ immediateOperations.map (·.1) ++ accesses.map (·.1) ++ ["lui"]

/-- The offset and the base of an address.  An address that is no offset before a base in
parentheses is an offset from zero. -/
def addressing (operand : String) : String × String :=
  match operand.toList.reverse with
  | ')' :: rest =>
    let inner := rest.takeWhile (· != '(')
    let front := ((rest.dropWhile (· != '(')).drop 1).dropWhile isBlank
    if front.isEmpty then (operand, "zero")
    else (String.ofList front.reverse, String.ofList (trim isBlank inner.reverse))
  | _ => (operand, "zero")

/-- An offset is a register or a number. -/
def offsetOf (offset : String) : Second :=
  if isRegister offset then .register offset else .immediate offset

/-- The instruction on a line. -/
def read? (line : String) : Option Statement :=
  let cs := line.toList
  let word := folded (firstField cs)
  match List.lookup word operations, List.lookup word immediateOperations,
    List.lookup word accesses with
  | some op, _, _ =>
    match fields 3 cs with
    | [_, d, a, b] => some (.compute op d a (.register b))
    | _ => none
  | none, some op, _ =>
    match fields 3 cs with
    | [_, d, a, b] => some (.compute op d a (.immediate b))
    | _ => none
  | none, none, some access =>
    match fields 2 cs with
    | [_, d, operand] =>
      let (offset, base) := addressing operand
      some (.transfer access d base (offsetOf offset))
    | _ => none
  | none, none, none =>
    match word, fields 2 cs with
    | "lui", [_, d, operand] => some (.loadUpper d operand)
    | _, _ => none

end Statement

end PocketAsm.Parva
