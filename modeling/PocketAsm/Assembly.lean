/-
  Assembly.lean --- source text to machine code, in two passes.

  The first pass matches each line against the rules of the dialect and places
  what the line stands for; the second one resolves references and checks the
  width of each instruction.  A line may fail after some of its edits; it is
  reported and its edits are rolled back, so that it leaves no trace and one
  run finds every fault of a text.  Only a number with too many digits leaves
  the run without a result.
-/
import PocketAsm.Dialect
import PocketAsm.Symbols
import PocketAsm.Text.LowerCase

set_option autoImplicit false

namespace PocketAsm

/-! ## Results -/

/-- A line of the finished program. -/
inductive OutputLine where
  | label (name : String)
  | instruction (address : Nat) (bits : Bits) (source : Source)
  deriving DecidableEq, Repr, Inhabited

/-- What a run of the assembler yields. -/
structure Assembly where
  /-- the lines that could be encoded, in the order of the source -/
  lines : List OutputLine
  /-- those of the first pass, then those of the second -/
  errors : List Diagnostic
  deriving DecidableEq, Repr, Inhabited

namespace Assembly

/-- No line failed. -/
def ok (a : Assembly) : Bool := a.errors.isEmpty

/-- The names of the labels. -/
def labels (a : Assembly) : List String :=
  a.lines.filterMap fun
    | .label name => some name
    | .instruction .. => none

/-- The number of instructions. -/
def instructionCount (a : Assembly) : Nat :=
  a.lines.countP fun
    | .label _ => false
    | .instruction .. => true

end Assembly

/-! ## Outcomes -/

/-- What carrying out a line comes to: the edits that were made, and the fault that stopped it after
them, if one did. -/
structure Outcome where
  edits : List Edit
  fault : Option Fault
  deriving DecidableEq, Repr, Inhabited

namespace Outcome

/-- Nothing is to be done. -/
def nothing : Outcome := ⟨[], none⟩

/-- A fault before any edit. -/
def refused (fault : Fault) : Outcome := ⟨[], some fault⟩

/-- One edit, or the fault that forbids it. -/
def ofEdit : Except Fault Edit → Outcome
  | .error e => refused e
  | .ok edit => ⟨[edit], none⟩

/-- Some edits, or the fault that forbids all of them. -/
def ofEdits : Except Fault (List Edit) → Outcome
  | .error e => refused e
  | .ok edits => ⟨edits, none⟩

end Outcome

namespace Dialect

/-! ## Operands -/

/-- The value of a literal, or `none` if the text is no literal.  Character literals count where an
encoding is in force. -/
def literal? (dialect : Dialect) (p : Program) (text : String) : Except Fault (Option Int) :=
  match dialect.numbers.read text with
  | .error e => .error e
  | .ok (some n) => .ok (some n)
  | .ok none =>
    match p.encoding with
    | none => .ok none
    | some encoding => CharLiteral.read text encoding

/-- The value of a text that has to be a literal. -/
def literal (dialect : Dialect) (p : Program) (text : String) : Except Fault Int :=
  match dialect.literal? p text with
  | .error e => .error e
  | .ok (some n) => .ok n
  | .ok none => .error (.notNumber text)

/-- The part that an operand makes: bits if it is a literal, else a reference. -/
def operand (dialect : Dialect) (p : Program) (text : String) (width : Nat)
    (signed relative : Bool) : Except Fault Part :=
  match dialect.literal? p text with
  | .error e => .error e
  | .ok (some n) =>
    match Bits.encodeField n width signed with
    | .error e => .error e
    | .ok bits => .ok (.bits bits)
  | .ok none => .ok (.ref ⟨text, width, p.address, relative, signed⟩)

/-- The part that a field makes. -/
def fieldPart (dialect : Dialect) (p : Program) : Field → Except Fault Part
  | .bits bits => .ok (.bits bits)
  | .register (.ok bits) => .ok (.bits bits)
  | .register (.error e) => .error e
  | .value text width signed relative => dialect.operand p text width signed relative

/-- The parts that fields make; the first fault counts. -/
def fieldParts (dialect : Dialect) (p : Program) : List Field → Except Fault (List Part)
  | [] => .ok []
  | field :: fields =>
    match dialect.fieldPart p field with
    | .error e => .error e
    | .ok part =>
      match dialect.fieldParts p fields with
      | .error e => .error e
      | .ok parts => .ok (part :: parts)

/-! ## Data and strings -/

/-- Places texts one after the other; the first fault ends it.  The edits made before them are
given, the latest one first. -/
def placeAll (place : String → Program → Outcome) :
    List String → Program → List Edit → Outcome
  | [], _, done => ⟨done.reverse, none⟩
  | text :: texts, p, done =>
    let next := place text p
    match next.fault with
    | some e => ⟨(next.edits.reverse ++ done).reverse, some e⟩
    | none => placeAll place texts (p.applyAll next.edits) (next.edits.reverse ++ done)

/-- Places one item of data: a literal takes a word, a symbol as many as the directive says. -/
def placeItem (dialect : Dialect) (symbolWords : Nat) (source : Source) (item : String)
    (p : Program) : Outcome :=
  match dialect.literal? p item with
  | .error e => .refused e
  | .ok found =>
    let words := if found.isSome then 1 else symbolWords
    match dialect.operand p item (words * dialect.wordSize) false false with
    | .error e => .refused e
    | .ok part => ⟨[.place [part] words source], none⟩

/-- The bits of the characters of a string. -/
def characterBits (encoding : CharEncoding) : List String → Except Fault (List Bits)
  | [] => .ok []
  | c :: cs =>
    match encoding.code c with
    | .error e => .error e
    | .ok n =>
      match Bits.encode n encoding.width false with
      | .error e => .error e
      | .ok bits =>
        match characterBits encoding cs with
        | .error e => .error e
        | .ok rest => .ok (bits :: rest)

/-- The word that holds some characters: the first one lowest, with zeros above the last. -/
def characterWord (wordSize : Nat) (characters : List Bits) : Bits :=
  let bits := characters.reverse.flatten
  List.replicate (wordSize - bits.length) false ++ bits

/-- Places words, each given by its characters; the first fault ends it.  The edits made before them
are given, the latest one first. -/
def placeWords (encoding : CharEncoding) (wordSize : Nat) (source : Source) :
    List (List String) → List Edit → Outcome
  | [], done => ⟨done.reverse, none⟩
  | characters :: rest, done =>
    match characterBits encoding characters with
    | .error e => ⟨done.reverse, some e⟩
    | .ok bits =>
      placeWords encoding wordSize source rest
        (.place [.bits (characterWord wordSize bits)] 1 source :: done)

/-- Places the words of a string literal. -/
def placeString (dialect : Dialect) (source : Source) (text : String) (p : Program) : Outcome :=
  match p.encoding with
  | none => .nothing
  | some encoding =>
    placeWords encoding dialect.wordSize { source with matched := "(string)" }
      (Bits.pieces (encoding.perWord dialect.wordSize) (CharLiteral.split text)) []

/-! ## Lines -/

/-- How many expansions may follow one another. -/
def maxExpansions : Nat := 8

/-- Carries out an action that does not expand the line. -/
def perform (dialect : Dialect) (source : Source) (p : Program) : Action → Outcome
  | .emit fields words mark =>
    match dialect.fieldParts p fields with
    | .error e => .refused e
    | .ok parts =>
      ⟨[.place parts words { source with matched := mark.getD source.matched }], none⟩
  | .expand _ => .nothing
  | .reject fault => .refused fault
  | .label name => .ofEdit (p.defineLabel name source)
  | .data items symbolWords =>
    placeAll (dialect.placeItem symbolWords { source with shown := ".data", matched := "(data)" })
      items p []
  | .repeat item count symbolWords =>
    match dialect.literal p count with
    | .error e => .refused e
    | .ok n =>
      if 0 ≤ n ∧ n ≤ Directive.maxRepeat then
        placeAll
          (dialect.placeItem symbolWords { source with shown := ".repeat", matched := "(data)" })
          (List.replicate n.toNat item) p []
      else .refused (.badRepeat Directive.maxRepeat n)
  | .constant name value =>
    match dialect.literal p value with
    | .error e => .refused e
    | .ok n => .ofEdit (p.defineConstant name n)
  | .address value =>
    match dialect.literal p value with
    | .error e => .refused e
    | .ok n => .ofEdit (Program.setAddress n)
  | .align boundary =>
    match dialect.literal p boundary with
    | .error e => .refused e
    | .ok n => .ofEdits (p.align n dialect.wordSize source)
  | .resume => ⟨[.resume], none⟩
  | .stop => ⟨[.stop], none⟩
  | .string text => dialect.placeString source text p
  | .encoding name =>
    match CharEncoding.find? (Text.lower name) with
    | some encoding => ⟨[.encodeBy encoding], none⟩
    | none => .refused (.unknownEncoding name)

/-- Places what a text stands for.  The first argument is the number of further expansions that are
allowed. -/
def placeText (dialect : Dialect) (levels : Nat) (source : Source) (text : String) (p : Program) :
    Outcome :=
  if text = "" then .nothing
  else
    match Rule.find? dialect.rules text.toList with
    | none => .refused (.unknownInstruction text)
    | some (.expand lines) =>
      match levels, lines with
      | _, [] => .nothing
      | 0, line :: _ => .refused (.tooDeep line maxExpansions)
      | levels + 1, lines => placeAll (dialect.placeText levels source) lines p []
    | some action => dialect.perform { source with matched := text } p action

/-! ## First pass -/

/-- The part of a line before the first comment mark. -/
def beforeComment (marks : List (List Char)) : List Char → List Char
  | [] => []
  | c :: cs =>
    if marks.any (·.isPrefixOf (c :: cs)) then [] else c :: beforeComment marks cs

/-- A line without comment and surrounding blanks. -/
def stripComment (dialect : Dialect) (text : String) : String :=
  String.ofList
    (Text.trim Text.isBlank (beforeComment (dialect.comments.map String.toList) text.toList))

/-- The instruction on a line. -/
def instructionOf (dialect : Dialect) (raw : String) : String :=
  let text := dialect.stripComment raw
  if dialect.foldsCase then Text.lower text else text

/-- Places what a source line stands for. -/
def placeLine (dialect : Dialect) (number : Nat) (raw : String) (p : Program) : Outcome :=
  let text := dialect.instructionOf raw
  dialect.placeText maxExpansions ⟨number, raw, text, text⟩ text p

/-- The program after some lines, the first of which has the given number, and the faults of those
that failed. -/
def placeLines (dialect : Dialect) : Nat → List String → Program → Array Diagnostic →
    Program × Array Diagnostic
  | _, [], p, faults => (p, faults)
  | number, raw :: rest, p, faults =>
    let before := p.checkpoint
    let line := dialect.placeLine number raw p
    let after := p.applyAll line.edits
    match line.fault with
    | some e =>
      dialect.placeLines (number + 1) rest (after.rollback before) (faults.push ⟨number, e⟩)
    | none => dialect.placeLines (number + 1) rest after faults

/-- The first pass over a text. -/
def firstPass (dialect : Dialect) (text : String) : Program × Array Diagnostic :=
  dialect.placeLines 0 (Text.lines text) (Program.start dialect.encoding) #[]

/-! ## Second pass -/

/-- What symbols are resolved by after the first pass. -/
def symbols (dialect : Dialect) (p : Program) : Symbols := ⟨dialect.numbers, p.labels, p.constants⟩

/-- The fault of an instruction whose width is not what the dialect asks for. -/
def widthFault? (dialect : Dialect) (width : Nat) (source : Source) : Option Fault :=
  match dialect.fixedWidth with
  | some fixed =>
    if width = fixed then none else some (.badWidth source.matched width (toString fixed))
  | none =>
    if width % dialect.wordSize = 0 then none
    else
      let size := dialect.wordSize
      some (.badWidth source.matched width s!"a multiple of {size}")

/-- The bits of an instruction. -/
def instructionBits (dialect : Dialect) (symbols : Symbols) (source : Source) (parts : List Part) :
    Except Fault Bits :=
  match symbols.partsBits parts with
  | .error e => .error e
  | .ok bits =>
    match dialect.widthFault? bits.length source with
    | some e => .error e
    | none => .ok bits

/-- The finished form of a placed line. -/
def resolveLine (dialect : Dialect) (symbols : Symbols) : Placed → Except Diagnostic OutputLine
  | .label name _ => .ok (.label name)
  | .instruction address source parts =>
    match dialect.instructionBits symbols source parts with
    | .error e => .error ⟨source.line, e⟩
    | .ok bits => .ok (.instruction address bits source)

/-- The lines that could be finished. -/
def finished (results : List (Except Diagnostic OutputLine)) : List OutputLine :=
  results.filterMap fun
    | .ok line => some line
    | .error _ => none

/-- The diagnostics of the lines that could not. -/
def failed (results : List (Except Diagnostic OutputLine)) : List Diagnostic :=
  results.filterMap fun
    | .ok _ => none
    | .error e => some e

/-- The second pass over a program: each of its lines, finished or failed. -/
def secondPass (dialect : Dialect) (p : Program) : List (Except Diagnostic OutputLine) :=
  p.lines.toList.map (dialect.resolveLine (dialect.symbols p))

/-- Assembles a text. -/
def assemble (dialect : Dialect) (text : String) : Assembly :=
  let (p, faults) := dialect.firstPass text
  let results := dialect.secondPass p
  ⟨finished results, faults.toList ++ failed results⟩

/-! ## Runs that may have no result -/

/-- The first pass over a text, unless a number in it has too many digits. -/
def tryFirstPass (dialect : Dialect) (text : String) :
    Except NumberFault (Program × List Diagnostic) :=
  let (p, faults) := dialect.firstPass text
  Diagnostic.unlessFatal faults.toList (p, faults.toList)

/-- Assembles a text, unless a number in it has too many digits. -/
def tryAssemble (dialect : Dialect) (text : String) : Except NumberFault Assembly :=
  let result := dialect.assemble text
  Diagnostic.unlessFatal result.errors result

theorem tryAssemble_eq_ok {dialect : Dialect} {text : String} {result : Assembly} :
    dialect.tryAssemble text = .ok result ↔
      (∀ d ∈ (dialect.assemble text).errors, d.fault.fatal? = none) ∧
        dialect.assemble text = result :=
  Diagnostic.unlessFatal_eq_ok

end Dialect

end PocketAsm
