/-
  Fault.lean --- why a source line, or a computation on numbers, fails.

  A `Fault` belongs to one source line.  It names its cause; the wording is in
  `Fault.message` and the advice that may go with it in `Fault.hint`.  A
  `Diagnostic` is a fault as the assembler reports it, with the line it was
  found on.  A fault that cannot be put into words, because of a number with
  too many digits, ends the whole run.
-/
import PocketAsm.Text.Numeral

set_option autoImplicit false

namespace PocketAsm

/-! ## Faults of arithmetic -/

/-- Why a computation has no result. -/
inductive NumberFault where
  /-- division by zero -/
  | divisionByZero
  /-- the result is beyond the greatest floating-point number -/
  | overflow
  /-- there is no number to go on with -/
  | notNumber
  /-- a decimal numeral has more digits than are read -/
  | longNumeral (digits : Nat)
  /-- an integer has more decimal digits than are written -/
  | longNumber
  deriving DecidableEq, Repr, Inhabited

/-- The cause in words. -/
def NumberFault.message : NumberFault → String
  | .divisionByZero => "division by zero"
  | .overflow => "integer division result too large for a float"
  | .notNumber => "there is no number"
  | .longNumeral digits =>
    let most := Text.maxDecimalDigits
    s!"Exceeds the limit ({most} digits) for integer string conversion: " ++
      s!"value has {digits} digits; use sys.set_int_max_str_digits() to increase the limit"
  | .longNumber =>
    let most := Text.maxDecimalDigits
    s!"Exceeds the limit ({most} digits) for integer string conversion; " ++
      "use sys.set_int_max_str_digits() to increase the limit"

/-- An integer in decimal digits, if it can be written. -/
def decimalText (n : Int) : Except NumberFault String :=
  if Text.isWritable n then .ok (toString n) else .error .longNumber

/-! ## Faults of a line -/

/-- Why a line could not be assembled. -/
inductive Fault where
  /-- no rule of the dialect matches the text -/
  | unknownInstruction (text : String)
  /-- the name is no register -/
  | notRegister (name : String)
  /-- the name is no register, in the wording of the folded dialect -/
  | unknownRegister (name : String)
  /-- a special register where only a basic one fits -/
  | specialRegister (name : String)
  /-- a double register where a single word is taken -/
  | doubleRegister (name : String)
  /-- a single register where a double one is taken -/
  | wordRegister (name : String)
  /-- the instruction exists for two registers only -/
  | registersOnly (mnemonic first second : String)
  /-- the value does not fit the field -/
  | outOfRange (value width : Int) (signed : Bool)
  /-- neither a label nor a constant has this name -/
  | undefined (symbol : String) (similar : List String)
  /-- a label or a constant is defined twice -/
  | duplicate (what symbol : String)
  /-- a number was needed at once -/
  | notNumber (text : String)
  /-- a decimal number has too many digits -/
  | longNumber (digits : Nat)
  /-- the address lies below zero -/
  | negativeAddress (value : Int)
  /-- there is no such alignment -/
  | badAlignment (value : Int)
  /-- there are that many repetitions at most -/
  | badRepeat (limit : Nat) (value : Int)
  /-- no character encoding has this name -/
  | unknownEncoding (name : String)
  /-- the encoding lacks the character -/
  | noCharacter (character encoding : String)
  /-- the encoded instruction has a wrong width -/
  | badWidth (text : String) (width : Int) (expected : String)
  /-- an expansion led to too many further ones -/
  | tooDeep (text : String) (limit : Int)
  /-- a cause in free words -/
  | remark (text : String) (advice : Option String)
  deriving DecidableEq, Repr, Inhabited

namespace Fault

/-- Names between quotes, one after the other. -/
def nameList (names : List String) : String :=
  ", ".intercalate (names.map fun name => "'" ++ name ++ "'")

/-- The cause in words. -/
def message : Fault → String
  | .unknownInstruction text => s!"Unknown instruction: {text}"
  | .notRegister name => s!"'{name}' is not a valid register"
  | .unknownRegister name => s!"Unknown register: {name}"
  | .specialRegister name => s!"Expected basic register, got special register '{name}'"
  | .doubleRegister name => s!"Expected word register, got double register '{name}'"
  | .wordRegister name => s!"Expected double register, got word register '{name}'"
  | .registersOnly mnemonic first second =>
    s!"{mnemonic} can only be used with registers {first} and {second}"
  | .outOfRange value width signed =>
    let kind := if signed then "signed" else "unsigned"
    s!"Value {value} out of range for {width}-bit {kind} integer"
  | .undefined symbol _ => s!"Unknown label: {symbol}"
  | .duplicate what symbol => s!"{what} '{symbol}' already defined"
  | .notNumber text => s!"Expected number, got {text}"
  | .longNumber digits => (NumberFault.longNumeral digits).message
  | .negativeAddress value => s!"Address must not be negative, got {value}"
  | .badAlignment value => s!"Alignment must be a positive number, got {value}"
  | .badRepeat limit value => s!"Repeat count must be between 0 and {limit}, got {value}"
  | .unknownEncoding name => s!"Unknown string encoding '{name}'"
  | .noCharacter character encoding =>
    s!"The character '{character}' does not exist in the encoding '{encoding}'"
  | .badWidth text width expected =>
    s!"Instruction {text} is {width} bits long, but should be {expected}"
  | .tooDeep text limit => s!"Pseudo-instruction expansion of '{text}' exceeds {limit} levels"
  | .remark text _ => text

/-- The advice that goes with a fault: for an undefined symbol the first three names like it. -/
def hint : Fault → Option String
  | .undefined _ [] => none
  | .undefined _ similar =>
    let names := nameList (similar.take 3)
    some s!"did you mean {names}?"
  | .remark _ advice => advice
  | _ => none

/-- What ends the run: a number in the fault can be read or written by nobody. -/
def fatal? : Fault → Option NumberFault
  | .longNumber digits => some (.longNumeral digits)
  | .outOfRange value _ _ | .negativeAddress value | .badAlignment value | .badRepeat _ value =>
    if Text.isWritable value then none else some .longNumber
  | _ => none

/-- The line, counted from one, before a message. -/
def atLine (line : Int) (message : String) : String :=
  let number := line + 1
  s!"Line {number}: {message}"

/-- The full report of a fault: the line if it is known, the message, and the advice on a line of
its own if there is any. -/
def report (fault : Fault) (line : Option Int) : String :=
  let head :=
    match line with
    | some n => atLine n fault.message
    | none => fault.message
  match fault.hint with
  | none => head
  | some advice => if advice = "" then head else s!"{head}\nhint: {advice}"

end Fault

/-! ## Diagnostics -/

/-- A fault found on a line, which is counted from zero. -/
structure Diagnostic where
  line : Int
  fault : Fault
  deriving DecidableEq, Repr, Inhabited

namespace Diagnostic

/-- The cause in words. -/
def message (d : Diagnostic) : String := d.fault.message

/-- The advice that goes with the fault. -/
def hint (d : Diagnostic) : Option String := d.fault.hint

/-- The diagnostic on one line of text. -/
def text (d : Diagnostic) : String := Fault.atLine d.line d.message

/-- All diagnostics, one to a line. -/
def listing (ds : List Diagnostic) : String := "\n".intercalate (ds.map text)

/-- All diagnostics and how many they are. -/
def summary (ds : List Diagnostic) : String :=
  let count := ds.length
  let word := if count = 1 then "error" else "errors"
  "\n".intercalate (ds.map text ++ [s!"{count} {word}"])

end Diagnostic

/-- The result of a run, unless a diagnostic ends it. -/
def Diagnostic.unlessFatal {α : Type} (ds : List Diagnostic) (result : α) : Except NumberFault α :=
  match ds.findSome? (·.fault.fatal?) with
  | some e => .error e
  | none => .ok result

theorem Diagnostic.unlessFatal_eq_ok {α : Type} {ds : List Diagnostic} {result found : α} :
    unlessFatal ds result = .ok found ↔ (∀ d ∈ ds, d.fault.fatal? = none) ∧ result = found := by
  unfold unlessFatal
  split
  · rename_i e he
    obtain ⟨d, hd, hfatal⟩ := List.exists_of_findSome?_eq_some he
    simp only [reduceCtorEq, false_iff, not_and]
    intro hnone
    simp [hnone d hd] at hfatal
  · rename_i hnone
    rw [and_iff_right (List.findSome?_eq_none_iff.mp hnone), Except.ok.injEq]

end PocketAsm
