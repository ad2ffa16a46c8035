/-
  Proofs/Parva/Placing.lean --- lines that place words whatever the symbols are.

  A line without names places instructions that need no symbols
  (`PlacesWords`).  Its words are known after the first pass: a rule that emits
  fields places one of them (`placesWords_of_emit`), an expansion those of its
  lines (`placesWords_of_expand`), and the output has them at consecutive
  addresses, unless `.start` or `.end` leave the line out
  (`wordsAt_of_placesWords`).
-/
import PocketAsm.Proofs.Parva.Jumps
import PocketAsm.Proofs.Expansions
import PocketAsm.Proofs.Reports

set_option autoImplicit false

namespace PocketAsm

namespace Dialect

variable {dialect : Dialect} {p : Program} {symbols : Symbols}

/-! ## Fields without symbols -/

/-- A field with a literal operand holds its value. -/
theorem encodesField_of_literal {text : String} {n : Int} {width : Nat} {signed relative : Bool}
    {bits : Bits} (hliteral : dialect.literal? p text = .ok (some n))
    (hencode : Bits.encodeField n width signed = .ok bits) :
    dialect.EncodesField p symbols (.value text width signed relative) bits :=
  ⟨.bits bits, by simp [fieldPart, operand, hliteral, hencode], rfl⟩

/-- Fields that become bits have parts that are resolved to them. -/
theorem exists_parts_of_encodes {fields : List Field} {bits : Bits}
    (h : dialect.Encodes p symbols fields bits) :
    ∃ parts, dialect.fieldParts p fields = .ok parts ∧ symbols.partsBits parts = .ok bits := by
  induction fields generalizing bits with
  | nil =>
    obtain rfl := encodes_nil.mp h
    exact ⟨[], rfl, rfl⟩
  | cons field fields ih =>
    obtain ⟨first, rest, rfl, ⟨part, hpart, hbits⟩, hrest⟩ := encodes_cons.mp h
    obtain ⟨parts, hparts, hrestBits⟩ := ih hrest
    exact ⟨part :: parts, by simp [fieldParts, hpart, hparts],
      by simp [Symbols.partsBits, hbits, hrestBits]⟩

end Dialect

namespace Parva

/-! ## Placing words -/

/-- The instruction has the number as its word, whatever the symbols are. -/
def HasWord (place : List Part × Source) (code : Nat) : Prop :=
  ∀ symbols, ∃ bits, dialect.instructionBits symbols place.2 place.1 = .ok bits ∧
    Bits.toNat bits = code

/-- The outcome succeeds and places instructions of one word each, which are the given ones whatever
the symbols are. -/
def PlacesWords (outcome : Outcome) (codes : List Nat) : Prop :=
  ∃ places : List (List Part × Source),
    outcome = ⟨places.map fun place => .place place.1 1 place.2, none⟩ ∧
      List.Forall₂ HasWord places codes

/-- Fields of the width of a word that need no symbols are placed as one word. -/
theorem placesWords_of_emit {text : String} {fields : List Field} {code : Nat} {p : Program}
    (hne : text ≠ "")
    (hfind : Rule.find? dialect.rules text.toList = some (.emit fields 1 none))
    (hencodes : ∀ symbols, ∃ bits, dialect.Encodes p symbols fields bits ∧
      bits.length = wordSize ∧ Bits.toNat bits = code) (levels : Nat) (source : Source) :
    PlacesWords (dialect.placeText levels source text p) [code] := by
  obtain ⟨bits, hbits, -⟩ := hencodes ⟨.zeroMarked, [], []⟩
  obtain ⟨parts, hparts, -⟩ := Dialect.exists_parts_of_encodes hbits
  refine ⟨[(parts, { source with matched := text })], ?_, .cons ?_ .nil⟩
  · rw [Dialect.placeText_of_final (by simp [hfind]), if_neg hne, hfind]
    unfold Dialect.perform
    simp [hparts]
  · intro symbols
    obtain ⟨bits, hbits, hlength, hcode⟩ := hencodes symbols
    obtain ⟨found, hfound, hresolved⟩ := Dialect.exists_parts_of_encodes hbits
    obtain rfl : parts = found := Except.ok.inj (hparts.symm.trans hfound)
    refine ⟨bits, ?_, hcode⟩
    have hwidth : dialect.widthFault? bits.length { source with matched := text } = none :=
      if_pos hlength
    simp only [Dialect.instructionBits, hresolved, hwidth]

/-- Texts that place a word each, on any program, place these words one after the other. -/
theorem placesWords_of_row {place : String → Program → Outcome} {lines : List String}
    {codes : List Nat} (h : List.Forall₂ (fun line code => ∀ p, PlacesWords (place line p) [code])
      lines codes) :
    ∀ (p : Program) (done : List Edit), ∃ places : List (List Part × Source),
      Dialect.placeAll place lines p done =
          ⟨done.reverse ++ places.map (fun place => Edit.place place.1 1 place.2), none⟩ ∧
        List.Forall₂ HasWord places codes := by
  induction h with
  | nil =>
    intro p done
    exact ⟨[], by simp [Dialect.placeAll], .nil⟩
  | @cons line code lines codes hfirst _ ih =>
    intro p done
    obtain ⟨first, hplace, hword⟩ := hfirst p
    obtain ⟨rest, hrest, hwords⟩ := ih (p.applyAll (place line p).edits)
      ((place line p).edits.reverse ++ done)
    refine ⟨first ++ rest, ?_, List.rel_append hword hwords⟩
    rw [Dialect.placeAll]
    simp only [hplace] at hrest ⊢
    rw [hrest]
    simp

/-- An expansion into such texts places their words. -/
theorem placesWords_of_expand {text : String} {lines : List String} {codes : List Nat}
    (hne : text ≠ "")
    (hfind : Rule.find? dialect.rules text.toList = some (.expand lines)) {levels : Nat}
    {source : Source}
    (h : List.Forall₂ (fun line code => ∀ p,
      PlacesWords (dialect.placeText levels source line p) [code]) lines codes) (p : Program) :
    PlacesWords (dialect.placeText (levels + 1) source text p) codes := by
  obtain ⟨places, hplaces, hwords⟩ := placesWords_of_row h p []
  refine ⟨places, ?_, hwords⟩
  rw [Dialect.placeText_of_expand hne hfind, hplaces]
  rfl

/-! ## Words in the output -/

theorem resolved_of_hasWord {places : List (List Part × Source)} {codes : List Nat}
    (h : List.Forall₂ HasWord places codes) (symbols : Symbols) :
    ∀ address : Nat, ∃ lines : List OutputLine,
      (Edit.instructions address (places.map fun place => .place place.1 1 place.2)).map
          (dialect.resolveLine symbols) = lines.map .ok ∧
        lines.flatMap (OutputLine.words wordSize) =
          codes.mapIdx fun i code => (((address + i : Nat) : Int), code) := by
  induction h with
  | nil => exact fun address => ⟨[], rfl, rfl⟩
  | @cons place code places codes hfirst _ ih =>
    intro address
    obtain ⟨bits, hbits, rfl⟩ := hfirst symbols
    obtain ⟨lines, hlines, hwords⟩ := ih (address + 1)
    have hlength : bits.length = wordSize := length_of_instructionBits hbits
    refine ⟨.instruction address bits place.2 :: lines, ?_, ?_⟩
    · rw [List.map_cons, Edit.instructions, List.map_cons, hlines, Dialect.resolveLine, hbits,
        List.map_cons]
    · rw [List.flatMap_cons, hwords, OutputLine.words, Bits.words_of_length (by decide) hlength]
      simp [List.mapIdx_cons, Nat.add_assoc, Nat.add_comm 1]

variable {text : String} {number : Nat} {codes : List Nat}

/-- A line of a text that places words is not reported, and its words stand in the output from its
address upwards, unless the line is left out. -/
theorem wordsAt_of_placesWords (h : PlacesWords (dialect.outcomeAt text number) codes) :
    (∀ d ∈ (dialect.assemble text).errors, d.line ≠ number) ∧
      (wordsAt text number = [] ∨
        wordsAt text number = codes.mapIdx fun i code =>
          ((((dialect.programBefore text number).address + i : Nat) : Int), code)) := by
  obtain ⟨places, houtcome, hcodes⟩ := h
  have hfault : (dialect.outcomeAt text number).fault = none := by rw [houtcome]
  have hkept : (dialect.outcomeAt text number).kept =
      places.map fun place => .place place.1 1 place.2 := by
    rw [kept_of_fault hfault, houtcome]
  have hplaces : ∀ e ∈ (dialect.outcomeAt text number).kept, e.isPlace = true := by
    intro e he
    rw [hkept] at he
    obtain ⟨place, -, rfl⟩ := List.mem_map.mp he
    rfl
  obtain ⟨lines, hlines, hwords⟩ := resolved_of_hasWord hcodes
    (dialect.symbols (dialect.firstPass text).1) (dialect.programBefore text number).address
  have hplaced := Dialect.placedAt_cases wellFormed hplaces
  rw [hkept] at hplaced
  refine ⟨Dialect.not_reported wellFormed hfault fun placed hmem => ?_, ?_⟩
  · rcases hplaced with hnone | hall
    · simp [hnone] at hmem
    · have hresolved := List.mem_map_of_mem
        (f := dialect.resolveLine (dialect.symbols (dialect.firstPass text).1)) (hall ▸ hmem)
      rw [hlines] at hresolved
      obtain ⟨line, -, hline⟩ := List.mem_map.mp hresolved
      exact ⟨line, hline.symm⟩
  · rw [wordsAt, Dialect.outputAt_eq]
    rcases hplaced with hnone | hall
    · left
      rw [hnone]
      rfl
    · right
      rw [hall, hlines, Dialect.finished_map_ok, hwords]

end Parva

end PocketAsm
