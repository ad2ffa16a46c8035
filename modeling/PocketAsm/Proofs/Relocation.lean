/-
  Proofs/Relocation.lean --- a text that is placed at another address.

  Move a program up by some words and down by some lines: its address, its
  labels, its instructions and the origins of its references all move
  (`Program.moved`).  Carrying out a line commutes with that, unless the line
  goes by absolute addresses (`placeText_moved`), and so does the second pass,
  as long as the references to labels are relative: the distance of two
  addresses is the same after both have moved (`resolveLine_moved`).
-/
import PocketAsm.Proofs.Agreement
import PocketAsm.Proofs.Origin

set_option autoImplicit false

namespace PocketAsm

/-! ## Moving -/

/-- The source, some lines further down. -/
def Source.moved (source : Source) (lines : Nat) : Source :=
  { source with line := source.line + lines }

/-- The part in an instruction that is some words further up. -/
def Part.moved (part : Part) (words : Nat) : Part :=
  match part with
  | .bits b => .bits b
  | .ref r => .ref { r with origin := r.origin + words }

/-- The placed line, some words further up and lines further down. -/
def Placed.moved (placed : Placed) (words lines : Nat) : Placed :=
  match placed with
  | .label name source => .label name (source.moved lines)
  | .instruction address source parts =>
    .instruction (address + words) (source.moved lines) (parts.map (·.moved words))

/-- The edit that the moved line makes. -/
def Edit.moved (e : Edit) (words lines : Nat) : Edit :=
  match e with
  | .place parts n source => .place (parts.map (·.moved words)) n (source.moved lines)
  | .label name source => .label name (source.moved lines)
  | .moveTo address => .moveTo (address + words)
  | e => e

/-- The names with values that are higher by some words. -/
def SymbolTable.moved (table : SymbolTable) (words : Nat) : SymbolTable :=
  table.map fun entry => (entry.1, entry.2 + words)

/-- The program, some words further up and lines further down. -/
def Program.moved (p : Program) (words lines : Nat) : Program :=
  { p with
    address := p.address + words
    lines := p.lines.map (·.moved words lines)
    labels := SymbolTable.moved p.labels words }

/-- What the moved line comes to. -/
def Outcome.moved (outcome : Outcome) (words lines : Nat) : Outcome :=
  outcome.map (·.moved words lines)

/-- The symbols of the moved program. -/
def Symbols.moved (symbols : Symbols) (words : Nat) : Symbols :=
  { symbols with labels := SymbolTable.moved symbols.labels words }

/-- The finished line, some words further up and lines further down. -/
def OutputLine.moved (line : OutputLine) (words lines : Nat) : OutputLine :=
  match line with
  | .label name => .label name
  | .instruction address bits source =>
    .instruction (address + words) bits (source.moved lines)

/-- The diagnostic, some lines further down. -/
def Diagnostic.moved (d : Diagnostic) (lines : Nat) : Diagnostic :=
  { d with line := d.line + lines }

/-- The result, some words further up and lines further down: the bits, the names of the labels and
the faults are as they were. -/
def Assembly.moved (a : Assembly) (words lines : Nat) : Assembly :=
  ⟨a.lines.map (·.moved words lines), a.errors.map (·.moved lines)⟩

/-! ## Edits of moved programs -/

namespace Program

variable {words lines : Nat}

@[simp] theorem moved_start (encoding : Option CharEncoding) (lines : Nat) :
    (start encoding).moved words lines = (start encoding).apply (.moveTo words) := by
  simp [moved, start, apply, SymbolTable.moved]

@[simp] theorem apply_moved (p : Program) (e : Edit) :
    (p.moved words lines).apply (e.moved words lines) = (p.apply e).moved words lines := by
  cases e with
  | place parts n source =>
    have hkeeps : (p.moved words lines).keeps = p.keeps := rfl
    have haddress : p.address + words + n = p.address + n + words := by omega
    simp only [Edit.moved, apply, hkeeps]
    cases p.keeps <;> simp [moved, Placed.moved, haddress]
  | label name source => simp [Edit.moved, apply, moved, Placed.moved, SymbolTable.moved]
  | resume =>
    have hemitting : (p.moved words lines).emitting = p.emitting := rfl
    simp only [Edit.moved, apply, hemitting]
    cases p.emitting.isNone <;> simp [moved]
  | _ => rfl

@[simp] theorem applyAll_moved (p : Program) (edits : List Edit) :
    (p.moved words lines).applyAll (edits.map (·.moved words lines)) =
      (p.applyAll edits).moved words lines :=
  applyAll_map apply_moved p edits

theorem defines_moved (table : SymbolTable) (name : String) :
    defines (SymbolTable.moved table words) name = defines table name := by
  simp [defines, SymbolTable.moved, List.any_map, Function.comp_def]

end Program

/-! ## Lines in moved programs -/

/-- The action goes by an absolute address, which it sets or fills up to. -/
def Action.isAbsolute : Action → Bool
  | .address _ | .align _ => true
  | _ => false

theorem Action.isAbsolute_of_isDirective {action : Action} (h : action.isDirective = false) :
    action.isAbsolute = false := by
  cases action <;> simp_all [isDirective, isAbsolute]

namespace Dialect

variable {dialect : Dialect} {maxWords words lines : Nat}

/-- The text goes by absolute addresses. -/
def isAbsoluteText (dialect : Dialect) (text : String) : Bool :=
  (Rule.find? dialect.rules text.toList).any (·.isAbsolute)

section Lines

variable (p : Program)

theorem operand_moved (text : String) (width : Nat) (signed relative : Bool) :
    dialect.operand (p.moved words lines) text width signed relative =
      (dialect.operand p text width signed relative).map (·.moved words) := by
  have hliteral : dialect.literal? (p.moved words lines) text = dialect.literal? p text := rfl
  have haddress : ((p.moved words lines).address : Int) = p.address + words := rfl
  rw [operand, operand, hliteral, haddress]
  cases dialect.literal? p text with
  | error e => rfl
  | ok found =>
    cases found with
    | none => rfl
    | some n =>
      dsimp only
      cases Bits.encodeField n width signed <;> rfl

theorem fieldPart_moved (field : Field) :
    dialect.fieldPart (p.moved words lines) field =
      (dialect.fieldPart p field).map (·.moved words) := by
  cases field with
  | bits bits => rfl
  | register code => cases code <;> rfl
  | value text width signed relative => exact operand_moved p text width signed relative

theorem fieldParts_moved (fields : List Field) :
    dialect.fieldParts (p.moved words lines) fields =
      (dialect.fieldParts p fields).map (·.map (·.moved words)) := by
  induction fields with
  | nil => rfl
  | cons field fields ih =>
    rw [fieldParts, fieldParts, fieldPart_moved, ih]
    cases dialect.fieldPart p field with
    | error e => rfl
    | ok part => cases dialect.fieldParts p fields <;> rfl

theorem placeItem_moved (symbolWords : Nat) (source : Source) (item : String) :
    dialect.placeItem symbolWords (source.moved lines) item (p.moved words lines) =
      (dialect.placeItem symbolWords source item p).moved words lines := by
  have hliteral : dialect.literal? (p.moved words lines) item = dialect.literal? p item := rfl
  rw [placeItem, placeItem, hliteral]
  cases dialect.literal? p item with
  | error e => rfl
  | ok found =>
    dsimp only
    rw [operand_moved]
    cases dialect.operand p item _ false false <;> rfl

theorem placeItems_moved (symbolWords : Nat) (source : Source) (items : List String) :
    placeAll (dialect.placeItem symbolWords (source.moved lines)) items (p.moved words lines) [] =
      (placeAll (dialect.placeItem symbolWords source) items p []).moved words lines :=
  placeAll_map Program.apply_moved (fun item _ q => placeItem_moved q symbolWords source item) p []

theorem placeWords_moved (encoding : CharEncoding) (wordSize : Nat) (source : Source)
    (pieces : List (List String)) (done : List Edit) :
    placeWords encoding wordSize (source.moved lines) pieces
        (done.map (·.moved words lines)) =
      (placeWords encoding wordSize source pieces done).moved words lines := by
  induction pieces generalizing done with
  | nil => simp [placeWords, Outcome.moved, Outcome.map]
  | cons characters pieces ih =>
    rw [placeWords, placeWords]
    cases characterBits encoding characters with
    | error e => simp [Outcome.moved, Outcome.map]
    | ok bits => exact ih (.place [.bits (characterWord wordSize bits)] 1 source :: done)

theorem placeString_moved (source : Source) (text : String) :
    dialect.placeString (source.moved lines) text (p.moved words lines) =
      (dialect.placeString source text p).moved words lines := by
  have hencoding : (p.moved words lines).encoding = p.encoding := rfl
  rw [placeString, placeString, hencoding]
  cases p.encoding with
  | none => rfl
  | some encoding =>
    exact placeWords_moved encoding dialect.wordSize { source with matched := "(string)" } _ []

theorem perform_moved (source : Source) {action : Action} (h : action.isAbsolute = false) :
    dialect.perform (source.moved lines) (p.moved words lines) action =
      (dialect.perform source p action).moved words lines := by
  have hliteral (text : String) :
      dialect.literal (p.moved words lines) text = dialect.literal p text := rfl
  cases action with
  | emit fields n mark =>
    unfold perform
    dsimp only
    rw [fieldParts_moved]
    cases dialect.fieldParts p fields <;> rfl
  | label name =>
    have hdefines : Program.defines (p.moved words lines).labels name =
        Program.defines p.labels name := Program.defines_moved p.labels name
    unfold perform Program.defineLabel
    dsimp only
    rw [hdefines]
    cases Program.defines p.labels name <;> rfl
  | data items symbolWords =>
    exact placeItems_moved p symbolWords { source with shown := ".data", matched := "(data)" } items
  | «repeat» item count symbolWords =>
    unfold perform
    dsimp only
    rw [hliteral]
    cases dialect.literal p count with
    | error e => rfl
    | ok n =>
      dsimp only
      split
      · exact placeItems_moved p symbolWords
          { source with shown := ".repeat", matched := "(data)" } _
      · rfl
  | constant name value =>
    have hconstants : (p.moved words lines).constants = p.constants := rfl
    unfold perform Program.defineConstant
    dsimp only
    rw [hliteral, hconstants]
    cases dialect.literal p value with
    | error e => rfl
    | ok n =>
      dsimp only
      split <;> rfl
  | string text => exact placeString_moved p source text
  | encoding name =>
    unfold perform
    dsimp only
    split <;> rfl
  | address value => simp [Action.isAbsolute] at h
  | align boundary => simp [Action.isAbsolute] at h
  | _ => rfl

end Lines

/-- A text that does not go by absolute addresses makes the moved edits of a moved program.  What it
expands into does not go by absolute addresses either. -/
theorem placeText_moved (hdialect : dialect.WellFormed maxWords) (source : Source) :
    ∀ (levels : Nat) (text : String) (p : Program), dialect.isAbsoluteText text = false →
      dialect.placeText levels (source.moved lines) text (p.moved words lines) =
        (dialect.placeText levels source text p).moved words lines := by
  intro levels
  induction levels with
  | zero =>
    intro text p htext
    rw [placeText, placeText]
    split
    · rfl
    · cases hfind : Rule.find? dialect.rules text.toList with
      | none => rfl
      | some action =>
        have haction : action.isAbsolute = false := by simpa [isAbsoluteText, hfind] using htext
        cases action with
        | expand lines => cases lines <;> rfl
        | _ => exact perform_moved p { source with matched := text } haction
  | succ levels ih =>
    intro text p htext
    rw [placeText, placeText]
    split
    · rfl
    · cases hfind : Rule.find? dialect.rules text.toList with
      | none => rfl
      | some action =>
        have haction : action.isAbsolute = false := by simpa [isAbsoluteText, hfind] using htext
        cases action with
        | expand expansion =>
          cases expansion with
          | nil => rfl
          | cons first rest =>
            refine placeAll_map Program.apply_moved (fun line hline q => ih line q ?_) p []
            cases hline' : Rule.find? dialect.rules line.toList with
            | none => simp [isAbsoluteText, hline']
            | some expanded =>
              have hplain : Unpointed line := hdialect.action hfind line hline
              have hdirective := hdialect.isDirective_eq_false hplain hline'
              simp [isAbsoluteText, hline', Action.isAbsolute_of_isDirective hdirective]
        | _ => exact perform_moved p { source with matched := text } haction

/-- The source line goes by absolute addresses. -/
def isAbsoluteLine (dialect : Dialect) (raw : String) : Bool :=
  dialect.isAbsoluteText (dialect.instructionOf raw)

theorem placeLine_moved (hdialect : dialect.WellFormed maxWords) {raw : String}
    (hraw : dialect.isAbsoluteLine raw = false) (number : Nat) (p : Program) :
    dialect.placeLine (number + lines) raw (p.moved words lines) =
      (dialect.placeLine number raw p).moved words lines :=
  placeText_moved hdialect ⟨number, raw, dialect.instructionOf raw, dialect.instructionOf raw⟩
    maxExpansions _ p hraw

/-! ## The first pass -/

variable (words lines) in
/-- Lines that do not go by absolute addresses make the moved edits, with the same faults. -/
theorem pass_moved (hdialect : dialect.WellFormed maxWords) {raws : List String}
    (hraws : ∀ raw ∈ raws, dialect.isAbsoluteLine raw = false) :
    ∀ (number : Nat) (p : Program),
      dialect.passEdits (number + lines) raws (p.moved words lines) =
          (dialect.passEdits number raws p).map (·.moved words lines) ∧
        dialect.passFaults (number + lines) raws (p.moved words lines) =
          (dialect.passFaults number raws p).map (·.moved lines) := by
  induction raws with
  | nil => exact fun _ _ => ⟨rfl, rfl⟩
  | cons raw raws ih =>
    intro number p
    obtain ⟨hraw, hraws⟩ := List.forall_mem_cons.mp hraws
    have hline : dialect.placeLine (number + lines) raw (p.moved words lines) =
        (dialect.placeLine number raw p).moved words lines :=
      placeLine_moved hdialect hraw number p
    have hnumber : number + lines + 1 = number + 1 + lines := by omega
    cases hfault : (dialect.placeLine number raw p).fault with
    | some e =>
      have hfault' : (dialect.placeLine (number + lines) raw (p.moved words lines)).fault =
          some e := by rw [hline]; exact hfault
      obtain ⟨hedits, hfaults⟩ := ih hraws (number + 1) p
      rw [passEdits_of_fault hfault, passEdits_of_fault hfault', passFaults_of_fault hfault,
        passFaults_of_fault hfault', hnumber, hedits, hfaults]
      exact ⟨rfl, rfl⟩
    | none =>
      have hfault' : (dialect.placeLine (number + lines) raw (p.moved words lines)).fault =
          none := by rw [hline]; exact hfault
      obtain ⟨hedits, hfaults⟩ :=
        ih hraws (number + 1) (p.applyAll (dialect.placeLine number raw p).edits)
      rw [passEdits_of_ok hfault, passEdits_of_ok hfault', passFaults_of_ok hfault,
        passFaults_of_ok hfault', hnumber, hline]
      simp only [Outcome.moved, Outcome.map, Program.applyAll_moved, hedits, hfaults,
        List.map_append, and_self]

end Dialect

/-! ## References -/

/-- The reference that a part is. -/
def Part.reference? : Part → Option Reference
  | .bits _ => none
  | .ref r => some r

/-- The references in a placed line. -/
def Placed.references : Placed → List Reference
  | .label _ _ => []
  | .instruction _ _ parts => parts.filterMap Part.reference?

namespace Symbols

/-- The text of an operand is taken for a label. -/
def namesLabel (symbols : Symbols) (text : String) : Bool :=
  match symbols.numbers.read text with
  | .ok none => (List.lookup text symbols.labels).isSome
  | _ => false

/-- The reference is relative if it names a label, directly or as the base of a pair, and the offset
of a pair names none. -/
def refersRelatively (symbols : Symbols) (r : Reference) : Bool :=
  if symbols.namesLabel r.text then r.relative
  else
    match pairPattern.match? r.text.toList with
    | some caps =>
      (r.relative || !symbols.namesLabel (caps.get .a)) && !symbols.namesLabel (caps.get .b)
    | none => true

end Symbols

/-- In what is left of the text after the first pass labels are named by relative references only,
directly or as the base of a pair. -/
def Dialect.refersRelatively (dialect : Dialect) (text : String) : Bool :=
  (dialect.firstPass text).1.lines.toList.all fun placed =>
    placed.references.all (dialect.symbols (dialect.firstPass text).1).refersRelatively

/-! ## Symbols of moved programs -/

namespace Symbols

variable {symbols : Symbols} {words lines : Nat}

theorem lookup_moved (table : SymbolTable) (name : String) :
    List.lookup name (SymbolTable.moved table words) =
      (List.lookup name table).map (· + (words : Int)) := by
  induction table with
  | nil => rfl
  | cons entry table ih =>
    rw [SymbolTable.moved, List.map_cons, List.lookup_cons, List.lookup_cons]
    cases name == entry.1
    · exact ih
    · rfl

/-- The labels that a fault proposes are as they were. -/
theorem undefined_moved (text : String) :
    (symbols.moved words).undefined text = symbols.undefined text := by
  have hnames : (SymbolTable.moved symbols.labels words).map (·.1) = symbols.labels.map (·.1) := by
    simp [SymbolTable.moved, Function.comp_def]
  rw [undefined, undefined, moved, hnames]

variable (words) in
/-- The distance of two addresses is the same after both have moved. -/
theorem labelValue?_moved {text : String} {relative : Bool} (origin : Int)
    (h : (List.lookup text symbols.labels).isSome = true → relative = true) :
    (symbols.moved words).labelValue? text (origin + words) relative =
      symbols.labelValue? text origin relative := by
  rw [labelValue?, labelValue?, moved, lookup_moved]
  cases hlookup : List.lookup text symbols.labels with
  | none => rfl
  | some address =>
    have hrelative : relative = true := h (by rw [hlookup]; rfl)
    have hdistance : address + words - (origin + words) = address - origin := by omega
    simp [hrelative, hdistance]

theorem isSome_of_read {text : String} (h : symbols.numbers.read text = .ok none) :
    (List.lookup text symbols.labels).isSome = symbols.namesLabel text := by
  rw [namesLabel, h]

theorem atom_moved {text : String} {relative : Bool} (origin : Int)
    (h : symbols.namesLabel text = true → relative = true) :
    (symbols.moved words).atom text (origin + words) relative =
      symbols.atom text origin relative := by
  have hnumbers : (symbols.moved words).numbers = symbols.numbers := rfl
  have hconstants : (symbols.moved words).constants = symbols.constants := rfl
  rw [atom, atom, hnumbers, hconstants, undefined_moved]
  cases hread : symbols.numbers.read text with
  | error e => rfl
  | ok found =>
    cases found with
    | some n => rfl
    | none =>
      have hlabel := labelValue?_moved words origin (isSome_of_read hread ▸ h)
      dsimp only
      rw [hlabel]

variable (words) in
/-- A relative reference has the value that it had. -/
theorem value_moved {r : Reference} (h : symbols.refersRelatively r = true) :
    (symbols.moved words).value r.text (r.origin + words) r.relative =
      symbols.value r.text r.origin r.relative := by
  have hnumbers : (symbols.moved words).numbers = symbols.numbers := rfl
  have hconstants : (symbols.moved words).constants = symbols.constants := rfl
  have hdirect : symbols.namesLabel r.text = true → r.relative = true := by
    intro hnames
    rwa [refersRelatively, if_pos hnames] at h
  rw [value, value, hnumbers, hconstants, undefined_moved]
  cases hread : symbols.numbers.read r.text with
  | error e => rfl
  | ok found =>
    cases found with
    | some n => rfl
    | none =>
      have hlabel := labelValue?_moved words r.origin (isSome_of_read hread ▸ hdirect)
      dsimp only
      rw [hlabel]
      cases hvalue : symbols.labelValue? r.text r.origin r.relative with
      | some n => rfl
      | none =>
        have hname : symbols.namesLabel r.text = false := by
          rw [← isSome_of_read hread]
          simpa [labelValue?] using hvalue
        cases hpair : pairPattern.match? r.text.toList with
        | none => rfl
        | some caps =>
          rw [refersRelatively, if_neg (by simp [hname]), hpair] at h
          simp only [Bool.and_eq_true, Bool.or_eq_true, Bool.not_eq_true'] at h
          obtain ⟨hbase, hoffset⟩ := h
          have ha : (symbols.moved words).atom (caps.get .a) (r.origin + words) r.relative =
              symbols.atom (caps.get .a) r.origin r.relative :=
            atom_moved r.origin fun hnames => hbase.resolve_right (by simp [hnames])
          have hb : (symbols.moved words).atom (caps.get .b) (r.origin + words) false =
              symbols.atom (caps.get .b) r.origin false :=
            atom_moved r.origin fun hnames => by simp [hnames] at hoffset
          dsimp only
          rw [ha, hb]

theorem partsBits_moved {parts : List Part}
    (h : ∀ r ∈ parts.filterMap Part.reference?, symbols.refersRelatively r = true) :
    (symbols.moved words).partsBits (parts.map (·.moved words)) = symbols.partsBits parts := by
  induction parts with
  | nil => rfl
  | cons part parts ih =>
    have hpart : (symbols.moved words).partBits (part.moved words) = symbols.partBits part := by
      cases part with
      | bits b => rfl
      | ref r =>
        have hvalue := value_moved words (h r (by simp [Part.reference?]))
        rw [Part.moved, partBits, partBits]
        dsimp only
        rw [hvalue]
    have hparts := ih fun r hr => h r (by
      obtain ⟨part', hmem, href⟩ := List.mem_filterMap.mp hr
      exact List.mem_filterMap.mpr ⟨part', List.mem_cons_of_mem _ hmem, href⟩)
    rw [List.map_cons, partsBits, partsBits, hpart, hparts]

end Symbols

/-! ## The second pass -/

namespace Dialect

variable {dialect : Dialect} {maxWords words lines : Nat} {symbols : Symbols}

/-- The result of a line, some words further up and lines further down. -/
def movedResult (words lines : Nat) :
    Except Diagnostic OutputLine → Except Diagnostic OutputLine
  | .ok line => .ok (line.moved words lines)
  | .error d => .error (d.moved lines)

/-- A line whose references to labels are relative has the bits that it had. -/
theorem resolveLine_moved {placed : Placed}
    (h : ∀ r ∈ placed.references, symbols.refersRelatively r = true) :
    dialect.resolveLine (symbols.moved words) (placed.moved words lines) =
      movedResult words lines (dialect.resolveLine symbols placed) := by
  cases placed with
  | label name source => rfl
  | instruction address source parts =>
    have hwidth (width : Nat) : dialect.widthFault? width (source.moved lines) =
        dialect.widthFault? width source := rfl
    rw [Placed.moved, resolveLine, resolveLine, instructionBits, instructionBits,
      Symbols.partsBits_moved h]
    cases symbols.partsBits parts with
    | error e => rfl
    | ok bits =>
      dsimp only
      rw [hwidth]
      cases dialect.widthFault? bits.length source <;> rfl

theorem finished_moved (results : List (Except Diagnostic OutputLine)) :
    finished (results.map (movedResult words lines)) =
      (finished results).map (·.moved words lines) := by
  induction results with
  | nil => rfl
  | cons result results ih =>
    cases result with
    | error d => exact ih
    | ok line => exact congrArg (line.moved words lines :: ·) ih

theorem failed_moved (results : List (Except Diagnostic OutputLine)) :
    failed (results.map (movedResult words lines)) = (failed results).map (·.moved lines) := by
  induction results with
  | nil => rfl
  | cons result results ih =>
    cases result with
    | error d => exact congrArg (d.moved lines :: ·) ih
    | ok line => exact ih

variable (words lines) in
theorem secondPass_moved {p : Program}
    (h : ∀ placed ∈ p.lines.toList, ∀ r ∈ placed.references,
      (dialect.symbols p).refersRelatively r = true) :
    dialect.secondPass (p.moved words lines) =
      (dialect.secondPass p).map (movedResult words lines) := by
  have hsymbols : dialect.symbols (p.moved words lines) = (dialect.symbols p).moved words := rfl
  rw [secondPass, secondPass, hsymbols, Program.moved, Array.toList_map, List.map_map,
    List.map_map]
  exact List.map_congr_left fun placed hplaced => resolveLine_moved (h placed hplaced)

/-! ## Texts -/

variable {text text' raw : String}

section Behind

variable (hdialect : dialect.WellFormed maxWords)
  (hlines : Text.lines text' = raw :: Text.lines text)
  (hmoves : dialect.placeLine 0 raw (.start dialect.encoding) = ⟨[.moveTo words], none⟩)
  (habsolute : ∀ line ∈ Text.lines text, dialect.isAbsoluteLine line = false)

include hdialect hlines hmoves habsolute

/-- Behind a line that moves the address a text leaves the moved program. -/
theorem firstPass_moved :
    dialect.firstPass text' = ((dialect.firstPass text).1.moved words 1,
      (dialect.firstPass text).2.map (·.moved 1)) := by
  have hfault : (dialect.placeLine 0 raw (.start dialect.encoding)).fault = none := by rw [hmoves]
  obtain ⟨hedits, hfaults⟩ := pass_moved words 1 hdialect habsolute 0 (.start dialect.encoding)
  rw [firstPass_eq hdialect, firstPass_eq hdialect, edits, edits, hlines, passEdits_of_ok hfault,
    passFaults_of_ok hfault, hmoves]
  dsimp only
  rw [Program.applyAll_append, Program.applyAll_cons, Program.applyAll_nil,
    ← Program.moved_start dialect.encoding 1, hedits, Program.applyAll_moved, hfaults]
  simp

variable (hrelative : dialect.refersRelatively text = true)

include hrelative

theorem assemble_moved : dialect.assemble text' = (dialect.assemble text).moved words 1 := by
  simp only [Dialect.refersRelatively, List.all_eq_true] at hrelative
  have hsecond := secondPass_moved words 1 hrelative
  rw [assemble, firstPass_moved hdialect hlines hmoves habsolute, assemble]
  simp only [hsecond, finished_moved, failed_moved, Assembly.moved, Array.toList_map,
    List.map_append]

/-- Behind a line that moves the address a text comes to the moved result: the same bits at higher
addresses, the same labels and the same faults. -/
theorem tryAssemble_moved :
    dialect.tryAssemble text' = (dialect.tryAssemble text).map (·.moved words 1) := by
  rw [tryAssemble, assemble_moved hdialect hlines hmoves habsolute hrelative, tryAssemble]
  have hfatal : ((dialect.assemble text).moved words 1).errors.findSome? (·.fault.fatal?) =
      (dialect.assemble text).errors.findSome? (·.fault.fatal?) := by
    rw [Assembly.moved, List.findSome?_map]
    rfl
  rw [Diagnostic.unlessFatal, hfatal, Diagnostic.unlessFatal]
  cases (dialect.assemble text).errors.findSome? (·.fault.fatal?) <;> rfl

end Behind

end Dialect

/-- A text behind a line feed has its lines behind those before it. -/
theorem Text.lines_append_newline (first second : String) :
    Text.lines (first ++ "\n" ++ second) = Text.lines first ++ Text.lines second := by
  have hnewline : "\n".toList = ['\n'] := rfl
  rw [Text.lines, String.toList_append, String.toList_append, hnewline, List.append_assoc,
    List.singleton_append, List.splitOnP_append_cons _ _ (by decide), List.map_append]
  rfl

end PocketAsm
