/-
  Dialect.lean --- assembly dialects as tables of rules.

  A dialect is an ordered list of rules.  The first rule whose pattern matches
  a line decides; its action, made from the captured operands, is data, so
  that what a rule does can be read off the table: emit fields, expand into
  other lines, reject the line, or carry out a directive.
-/
import PocketAsm.Pattern
import PocketAsm.Program

set_option autoImplicit false

namespace PocketAsm

/-! ## Actions -/

/-- A field of an instruction. -/
inductive Field where
  /-- fixed bits -/
  | bits (bits : Bits)
  /-- a register, or the fault that the written name is none that fits -/
  | register (code : Except Fault Bits)
  /-- an operand of the given width -/
  | value (text : String) (width : Nat) (signed relative : Bool)

/-- What a rule does with a line. -/
inductive Action where
  /-- place an instruction of so many words; a mark stands in for its text -/
  | emit (fields : List Field) (words : Nat) (mark : Option String)
  /-- go on with these lines instead -/
  | expand (lines : List String)
  /-- refuse the line -/
  | reject (fault : Fault)
  /-- define a label -/
  | label (name : String)
  /-- place data; an item that is no literal takes so many words -/
  | data (items : List String) (symbolWords : Nat)
  /-- place an item as often as the count says -/
  | repeat (item count : String) (symbolWords : Nat)
  /-- define a constant -/
  | constant (name value : String)
  /-- move the address -/
  | address (value : String)
  /-- fill up to a multiple -/
  | align (boundary : String)
  /-- keep instructions from here on -/
  | resume
  /-- keep no instructions from here on -/
  | stop
  /-- place the characters of a string literal -/
  | string (literal : String)
  /-- change the character encoding to the one with this name -/
  | encoding (name : String)

/-- A pattern and what is done with a line that matches it. -/
structure Rule where
  pattern : Pattern
  action : Captures → Action

/-! ## Dialects -/

/-- The assembly language of one target. -/
structure Dialect where
  name : String
  /-- ordered: the first rule that matches decides -/
  rules : List Rule
  /-- the bits of a machine word -/
  wordSize : Nat
  numbers : NumberSyntax
  /-- what begins a comment -/
  comments : List String
  /-- the width of every instruction, if it is fixed -/
  fixedWidth : Option Nat
  /-- lines are read in lower case -/
  foldsCase : Bool
  /-- the character encoding at the start -/
  encoding : Option CharEncoding

/-- The action of the first rule that matches a line. -/
def Rule.find? (rules : List Rule) (cs : List Char) : Option Action :=
  rules.findSome? fun rule => (rule.pattern.match? cs).map rule.action

/-! ## The common directives -/

namespace Directive

/-- The greatest count of `.repeat`. -/
def maxRepeat : Nat := 65536

/-- The pieces of a text between the places where a pattern matches, which is never the empty text;
`fuel` bounds the number of characters. -/
def splitFrom (cut : Pattern) : Nat → List Char → List Char → List (List Char)
  | 0, piece, _ => [piece.reverse]
  | _ + 1, piece, [] => [piece.reverse]
  | fuel + 1, piece, c :: cs =>
    match cut.run (c :: cs) [] (fun rest _ => some rest) with
    | some rest => piece.reverse :: splitFrom cut fuel [] rest
    | none => splitFrom cut fuel (c :: piece) cs

/-- The pieces of a text between the places where a pattern matches. -/
def split (cut : Pattern) (text : String) : List String :=
  (splitFrom cut text.length [] text.toList).map String.ofList

/-- The rule of `.data`: the items stand between cuts. -/
def dataRule (cut : Pattern) (symbolWords : Nat) : Rule :=
  ⟨.all [.lit ".data", .space, .slot .a .remainder],
    fun caps => .data (split cut (caps.get .a)) symbolWords⟩

/-- The rule of a label, given what a name looks like. -/
def labelRule (name : Pattern) : Rule :=
  ⟨.all [.slot .a name, .lit ":"], fun caps => .label (caps.get .a)⟩

/-- The rule of `.address`. -/
def addressRule (operand : Pattern) : Rule :=
  ⟨.all [.lit ".address", .space, .slot .a operand], fun caps => .address (caps.get .a)⟩

/-- The directives that most dialects share, given what an operand looks like. -/
def common (operand cut : Pattern) (symbolWords : Nat) : List Rule :=
  [labelRule operand,
   dataRule cut symbolWords,
   ⟨.all [.lit ".repeat", .space, .slot .a operand, .separator, .slot .b operand],
    fun caps => .repeat (caps.get .a) (caps.get .b) symbolWords⟩,
   ⟨.all [.lit ".eq", .space, .slot .a operand, .separator, .slot .b operand],
    fun caps => .constant (caps.get .a) (caps.get .b)⟩,
   addressRule operand,
   ⟨.all [.lit ".align", .space, .slot .a operand], fun caps => .align (caps.get .a)⟩,
   ⟨.lit ".start", fun _ => .resume⟩,
   ⟨.lit ".end", fun _ => .stop⟩]

end Directive

end PocketAsm
