/-
  Listing.lean --- listings of assembled programs.

  A listing has a line for each label and each instruction: the address, the
  machine code and the source, each in a form of its own or left out.  A plain
  listing is text alone; a styled one holds the control codes that colour it
  on a terminal.
-/
import PocketAsm.Assembly
import PocketAsm.Bits.Note
import PocketAsm.Text.Style

set_option autoImplicit false

namespace PocketAsm

/-! ## Options -/

/-- The form of addresses and machine code. -/
inductive CodeFormat where
  | binary
  | hex
  | note
  | decimal
  | none
  deriving DecidableEq, Repr, Inhabited

namespace CodeFormat

/-- All forms with their names. -/
def names : List (String × CodeFormat) :=
  [("binary", .binary), ("hex", .hex), ("note", .note), ("decimal", .decimal), ("none", .none)]

/-- The form with the given name. -/
def ofName? (name : String) : Option CodeFormat := List.lookup name names

/-- The name of a form. -/
def name : CodeFormat → String
  | .binary => "binary"
  | .hex => "hex"
  | .note => "note"
  | .decimal => "decimal"
  | .none => "none"

theorem ofName?_name (f : CodeFormat) : ofName? f.name = some f := by
  cases f <;> decide

end CodeFormat

/-- Which source text is shown. -/
inductive SourceFormat where
  /-- none -/
  | none
  /-- the text that was encoded -/
  | instruction
  /-- the line without its comment -/
  | source
  /-- the whole line -/
  | comments
  deriving DecidableEq, Repr, Inhabited

namespace SourceFormat

/-- All forms with their names. -/
def names : List (String × SourceFormat) :=
  [("none", .none), ("instruction", .instruction), ("source", .source), ("comments", .comments)]

/-- The form with the given name. -/
def ofName? (name : String) : Option SourceFormat := List.lookup name names

/-- The name of a form. -/
def name : SourceFormat → String
  | .none => "none"
  | .instruction => "instruction"
  | .source => "source"
  | .comments => "comments"

theorem ofName?_name (f : SourceFormat) : ofName? f.name = some f := by
  cases f <;> decide

end SourceFormat

/-- How a listing looks. -/
structure ListingOptions where
  code : CodeFormat
  address : CodeFormat
  source : SourceFormat
  showLabels : Bool
  deriving DecidableEq, Repr, Inhabited

/-- The sizes that a listing depends on. -/
structure WordShape where
  /-- the bits of a machine word -/
  wordSize : Nat
  /-- the words of the longest instruction -/
  maxWords : Nat
  deriving DecidableEq, Repr, Inhabited

namespace Listing

/-! ## Columns -/

/-- A blank-filled column to the left. -/
def left (width : Nat) (s : String) : String := Text.padRight width ' ' s

/-- A blank-filled column to the right. -/
def right (width : Nat) (s : String) : String := Text.padLeft width ' ' s

/-- Groups with a blank between them. -/
def spaced (groups : List String) : String := " ".intercalate groups

/-- The machine code of an instruction, filled up to the width of the longest one. -/
def codeColumn (shape : WordShape) (format : CodeFormat) (bits : Bits) :
    Except NumberFault String :=
  let maxBytes := shape.maxWords * shape.wordSize / 8
  match format with
  | .binary => .ok (left (maxBytes * 9 + 2) (spaced ((Bits.pieces 8 bits).map Bits.text)))
  | .hex =>
    .ok (left (maxBytes * 3 + 2)
      (spaced ((Bits.pieces 8 bits).map fun piece => Text.hex 2 (Bits.toNat piece))))
  | .note =>
    if bits.isEmpty then .error .notNumber
    else
      match Bits.note (Bits.toNat bits) shape.wordSize with
      | .error e => .error e
      | .ok text => .ok (right 16 text)
  | .decimal =>
    .ok (left (shape.maxWords * shape.wordSize / 3)
      (spaced ((Bits.words shape.wordSize bits).map fun n => right 8 (toString n))))
  | .none => .ok ""

/-- The address of an instruction. -/
def addressColumn (shape : WordShape) (format : CodeFormat) (address : Nat) :
    Except NumberFault String :=
  match format with
  | .binary => .ok (Text.binary 16 address ++ ": ")
  | .hex => .ok (right 4 (Text.hex 2 address) ++ ": ")
  | .note =>
    match Bits.note address shape.wordSize with
    | .error e => .error e
    | .ok text => .ok (right 14 text ++ ": ")
  | .decimal =>
    match decimalText address with
    | .error e => .error e
    | .ok text => .ok (right 3 text ++ ": ")
  | .none => .ok ""

/-- The source of an instruction. -/
def sourceColumn (format : SourceFormat) (source : Source) : String :=
  match format with
  | .instruction => "; " ++ source.matched
  | .source => "; " ++ source.shown
  | .comments => "; " ++ source.raw
  | .none => ""

/-! ## Lines -/

/-- How the columns of a listing are put together. -/
structure Look where
  label : String → String
  line : (address code source : String) → String

/-- Text alone, without blanks at the end of a line. -/
def plainLook : Look where
  label name := name ++ ":"
  line address code source := Text.stripRight (address ++ code ++ " " ++ source)

/-- Labels are bold, addresses cyan and sources green. -/
def styledLook : Look where
  label name := Text.styled Text.bold (name ++ ":")
  line address code source :=
    let text := Text.styled Text.cyan address ++ code
    Text.stripRight (if source = "" then text else text ++ " " ++ Text.styled Text.green source)

/-- The line of a listing for a line of the program; there is none for a label that is not shown. -/
def lineOf (look : Look) (shape : WordShape) (options : ListingOptions) :
    OutputLine → Except NumberFault (Option String)
  | .label name => .ok (if options.showLabels then some (look.label name) else none)
  | .instruction address bits source =>
    match addressColumn shape options.address address with
    | .error e => .error e
    | .ok addressText =>
      match codeColumn shape options.code bits with
      | .error e => .error e
      | .ok codeText =>
        .ok (some (look.line addressText codeText (sourceColumn options.source source)))

/-- The listing of finished lines. -/
def render (look : Look) (shape : WordShape) (options : ListingOptions)
    (lines : List OutputLine) : Except NumberFault String :=
  match lines.mapM (lineOf look shape options) with
  | .error e => .error e
  | .ok texts => .ok ("\n".intercalate (texts.filterMap id))

end Listing

end PocketAsm
