/-
  Proofs/Addressing.lean --- a label with an offset selects one addressing mode.

  The texts `(label+number)` and `(label-number)` look alike to every rule of a
  dialect with pairs (`find?_twin`), so two lines that differ in them alone are
  the same instructions with another value in a field: the address so many
  words behind the label, or before it (`offsets_share_form`).  The exception
  is a pair right where a line of the language has parentheses of its own.
  There the inside of the pair with the minus sign is a name, and the V8 takes
  such a line for one with indirect addressing (`V8.parenthesized?_side`).
-/
import PocketAsm.Proofs.Bitzzy.Twins
import PocketAsm.Proofs.Parva.Twins
import PocketAsm.Proofs.Replacement
import PocketAsm.Proofs.V8.Twins

set_option autoImplicit false

namespace PocketAsm

open Pattern Template

/-! ## Instructions with an open operand -/

/-- A piece of an instruction: what is the same for every operand, or the field of the operand. -/
inductive Piece where
  | fixed (bits : Except Fault Bits)
  | field (width : Nat) (signed relative : Bool)

/-- The bits of a piece of an instruction at an address, if the operand has the value. -/
def Piece.bits (address value : Int) : Piece → Except Fault Bits
  | .fixed bits => bits
  | .field width signed relative =>
    Bits.encodeField (if relative then value - address else value) width (signed || relative)

/-- An instruction that leaves an operand open. -/
structure Form where
  address : Nat
  pieces : List Piece

namespace Form

/-- The bits of pieces, one after the other; the first fault counts. -/
def join (address value : Int) : List Piece → Except Fault Bits
  | [] => .ok []
  | piece :: pieces =>
    match piece.bits address value with
    | .error e => .error e
    | .ok bits =>
      match join address value pieces with
      | .error e => .error e
      | .ok rest => .ok (bits ++ rest)

/-- The bits of the instruction, if the operand has the value. -/
def bits (form : Form) (value : Int) : Except Fault Bits := join form.address value form.pieces

/-- The instruction has a field for the operand. -/
def TakesOperand (form : Form) : Prop :=
  ∃ width signed relative, .field width signed relative ∈ form.pieces

/-- A field is refused for its range only. -/
theorem encodeField_ne_undefined {name : String} {similar : List String} (value : Int)
    (width : Nat) (signed : Bool) :
    Bits.encodeField value width signed ≠ .error (.undefined name similar) := by
  simp only [Bits.encodeField, Bits.encode]
  split
  · simp
  · simp

/-- A name without a value is no matter of the operand: the instruction fails whatever this is. -/
theorem exists_error_of_undefined {form : Form} {value : Int} {name : String}
    {similar : List String} (h : form.bits value = .error (.undefined name similar)) (other : Int) :
    ∃ e, form.bits other = .error e := by
  obtain ⟨address, pieces⟩ := form
  simp only [bits] at h ⊢
  induction pieces with
  | nil => cases h
  | cons piece pieces ih =>
    rw [join] at h ⊢
    cases hother : piece.bits address other with
    | error e => exact ⟨e, rfl⟩
    | ok bits =>
      cases hpiece : piece.bits address value with
      | error e =>
        rw [hpiece] at h
        obtain rfl := Except.error.inj h
        cases piece with
        | fixed fixed => cases hpiece.symm.trans hother
        | field width signed relative =>
          exact absurd hpiece (encodeField_ne_undefined _ _ _)
      | ok found =>
        rw [hpiece] at h
        dsimp only at h ⊢
        cases hrest : join address value pieces with
        | ok rest =>
          rw [hrest] at h
          cases h
        | error e =>
          rw [hrest] at h
          obtain ⟨e', he'⟩ := ih (hrest.trans h)
          exact ⟨e', by rw [he']⟩

end Form

/-- The address and the bits of an instruction of the output. -/
def OutputLine.code? : OutputLine → Option (Nat × Bits)
  | .label _ => none
  | .instruction address bits _ => some (address, bits)

@[inherit_doc OutputLine.code?]
def Form.code? (value : Int) (form : Form) : Option (Nat × Bits) :=
  match form.bits value with
  | .error _ => none
  | .ok bits => some (form.address, bits)

namespace Dialect

variable {dialect : Dialect} {maxWords : Nat} {symbols : Symbols} {text : String} {number : Nat}
  {value : Int}

/-- The line is the instructions of these forms: those that can be encoded are in the output, and
the others are reported. -/
structure Instantiates (dialect : Dialect) (text : String) (number : Nat) (forms : List Form)
    (value : Int) : Prop where
  output : (dialect.outputAt text number).filterMap OutputLine.code? =
    forms.filterMap (Form.code? value)
  errors : ∀ e, ⟨number, e⟩ ∈ (dialect.assemble text).errors ↔
    ∃ form ∈ forms, form.bits value = .error e

/-- The placed line is an instruction of the form. -/
def HasForm (dialect : Dialect) (symbols : Symbols) (number : Nat) (value : Int) (placed : Placed)
    (form : Form) : Prop :=
  ∃ source parts, placed = .instruction form.address source parts ∧ source.line = number ∧
    dialect.instructionBits symbols source parts = form.bits value

/-- What becomes of an instruction is what its form says. -/
theorem HasForm.resolveLine {placed : Placed} {form : Form}
    (h : dialect.HasForm symbols number value placed form) :
    (∃ e, form.bits value = .error e ∧ dialect.resolveLine symbols placed = .error ⟨number, e⟩) ∨
      ∃ bits source, form.bits value = .ok bits ∧
        dialect.resolveLine symbols placed = .ok (.instruction form.address bits source) := by
  obtain ⟨source, parts, rfl, rfl, hbits⟩ := h
  rw [Dialect.resolveLine, hbits]
  cases form.bits value with
  | error e => exact .inl ⟨e, rfl, rfl⟩
  | ok bits => exact .inr ⟨bits, source, rfl, rfl⟩

theorem finished_of_hasForm {placed : List Placed} {forms : List Form}
    (h : List.Forall₂ (dialect.HasForm symbols number value) placed forms) :
    (finished (placed.map (dialect.resolveLine symbols))).filterMap OutputLine.code? =
      forms.filterMap (Form.code? value) := by
  induction h with
  | nil => rfl
  | cons h _ ih =>
    rw [List.map_cons, List.filterMap_cons, Form.code?]
    obtain ⟨e, hbits, hresolve⟩ | ⟨bits, source, hbits, hresolve⟩ := h.resolveLine
    · rw [hresolve, finished_error, hbits, ih]
    · rw [hresolve, finished_ok, List.filterMap_cons, hbits, OutputLine.code?, ih]

/-- A line that succeeds and leaves instructions of some forms is these. -/
theorem instantiates_of_hasForm (hdialect : dialect.WellFormed maxWords) {forms : List Form}
    (hfault : (dialect.outcomeAt text number).fault = none)
    (h : List.Forall₂ (dialect.HasForm (dialect.symbols (dialect.firstPass text).1) number value)
      (dialect.placedAt text number) forms) :
    dialect.Instantiates text number forms value where
  output := by rw [outputAt_eq, finished_of_hasForm h]
  errors e := by
    rw [mem_errors_iff hdialect, hfault]
    simp only [reduceCtorEq, false_or]
    generalize dialect.placedAt text number = placed at h
    induction h with
    | nil => simp
    | cons h _ ih =>
      rw [List.exists_mem_cons_iff, List.exists_mem_cons_iff, ih]
      refine or_congr_left ?_
      obtain ⟨e', hbits, hresolve⟩ | ⟨bits, source, hbits, hresolve⟩ := h.resolveLine
      · rw [hbits, hresolve]
        simp
      · rw [hbits, hresolve]
        simp

/-- Parts that fill the words of an instruction are its bits. -/
theorem instructionBits_eq_partsBits (hdialect : dialect.WellFormed maxWords) {parts : List Part}
    {words : Nat} {source : Source}
    (h : (Edit.place parts words source).Sized dialect.wordSize maxWords) :
    dialect.instructionBits symbols source parts = symbols.partsBits parts := by
  obtain ⟨hwidth, hleast, hmost⟩ := h
  rw [instructionBits]
  cases hbits : symbols.partsBits parts with
  | error e => rfl
  | ok bits =>
    dsimp only
    rw [Symbols.length_of_partsBits hbits, hwidth, widthFault?_eq_none hdialect hleast hmost]

end Dialect

/-! ## Twins have one form -/

section Forms

variable {x y : List Char} {symbols : Symbols} {value value' : Int}

/-- Twin parts are the same pieces with two values. -/
theorem PartsTwin.exists_pieces {origin : Int} {b : Bool} {parts parts' : List Part}
    (h : PartsTwin x y origin b parts parts')
    (hx : ∀ relative, symbols.value (String.ofList x) origin relative =
      .ok (if relative then value - origin else value))
    (hy : ∀ relative, symbols.value (String.ofList y) origin relative =
      .ok (if relative then value' - origin else value')) :
    ∃ pieces : List Piece,
      (b = true → ∃ width signed relative, .field width signed relative ∈ pieces) ∧
      symbols.partsBits parts = Form.join origin value pieces ∧
      symbols.partsBits parts' = Form.join origin value' pieces := by
  induction h with
  | nil => exact ⟨[], by simp, rfl, rfl⟩
  | same part _ ih =>
    obtain ⟨pieces, hfield, hleft, hright⟩ := ih
    refine ⟨.fixed (symbols.partBits part) :: pieces, fun hb => ?_, ?_, ?_⟩
    · obtain ⟨width, signed, relative, hmem⟩ := hfield hb
      exact ⟨width, signed, relative, List.mem_cons_of_mem _ hmem⟩
    · rw [Symbols.partsBits, Form.join, hleft]
      rfl
    · rw [Symbols.partsBits, Form.join, hright]
      rfl
  | ref width relative signed _ ih =>
    obtain ⟨pieces, -, hleft, hright⟩ := ih
    refine ⟨.field width signed relative :: pieces, fun _ => ⟨width, signed, relative, by simp⟩,
      ?_, ?_⟩
    · rw [Symbols.partsBits, Form.join, hleft, Symbols.partBits, hx]
      rfl
    · rw [Symbols.partsBits, Form.join, hright, Symbols.partBits, hy]
      rfl

variable {dialect : Dialect} {maxWords number : Nat}

/-- Twin edits of a line are instructions of the same forms with two values. -/
theorem EditsTwin.exists_forms (hdialect : dialect.WellFormed maxWords) {address : Nat} {b : Bool}
    {edits edits' : List Edit} (h : EditsTwin x y address b edits edits')
    (hedits : ∀ e ∈ edits, e.Sized dialect.wordSize maxWords ∧ e.ComesFrom number)
    (hedits' : ∀ e ∈ edits', e.Sized dialect.wordSize maxWords ∧ e.ComesFrom number)
    (hx : ∀ origin relative, symbols.value (String.ofList x) origin relative =
      .ok (if relative then value - origin else value))
    (hy : ∀ origin relative, symbols.value (String.ofList y) origin relative =
      .ok (if relative then value' - origin else value')) :
    ∃ forms : List Form, (b = true → ∃ form ∈ forms, form.TakesOperand) ∧
      List.Forall₂ (dialect.HasForm symbols number value) (Edit.instructions address edits) forms ∧
      List.Forall₂ (dialect.HasForm symbols number value') (Edit.instructions address edits')
        forms := by
  induction h with
  | nil address => exact ⟨[], by simp, .nil, .nil⟩
  | @place address b c parts parts' edits edits' words source source' hparts _ ih =>
    obtain ⟨⟨hsized, hfrom⟩, hrest⟩ := List.forall_mem_cons.mp hedits
    obtain ⟨⟨hsized', hfrom'⟩, hrest'⟩ := List.forall_mem_cons.mp hedits'
    obtain ⟨forms, hforms, hleft, hright⟩ := ih hrest hrest'
    obtain ⟨pieces, hpieces, hbits, hbits'⟩ := hparts.exists_pieces (hx address) (hy address)
    refine ⟨⟨address, pieces⟩ :: forms, fun hb => ?_, .cons ?_ hleft, .cons ?_ hright⟩
    · rcases (Bool.or_eq_true _ _).mp hb with hb | hc
      · exact ⟨_, List.mem_cons_self, hpieces hb⟩
      · obtain ⟨form, hmem, htakes⟩ := hforms hc
        exact ⟨form, List.mem_cons_of_mem _ hmem, htakes⟩
    · exact ⟨source, parts, rfl, hfrom,
        (Dialect.instructionBits_eq_partsBits hdialect hsized).trans hbits⟩
    · exact ⟨source', parts', rfl, hfrom',
        (Dialect.instructionBits_eq_partsBits hdialect hsized').trans hbits'⟩

/-- Twin edits only place instructions. -/
theorem EditsTwin.isPlace {address : Nat} {b : Bool} {edits edits' : List Edit}
    (h : EditsTwin x y address b edits edits') :
    (∀ e ∈ edits, e.isPlace = true) ∧ ∀ e ∈ edits', e.isPlace = true := by
  induction h with
  | nil address => simp
  | place words source source' _ _ ih =>
    exact ⟨List.forall_mem_cons.mpr ⟨rfl, ih.1⟩, List.forall_mem_cons.mpr ⟨rfl, ih.2⟩⟩

end Forms

/-! ## Dialects with pairs -/

/-- The dialects whose operands may be pairs, each with what stands in front of parentheses that are
not those of a pair. -/
def pairDialects : List (Dialect × List Pattern) :=
  [(V8.dialect, V8.openings), (Bitzzy.dialect, []), (Parva.dialect, Parva.openings)]

section Dialects

variable {dialect : Dialect} {openings : List Pattern}

theorem exists_wellFormed (h : (dialect, openings) ∈ pairDialects) :
    dialect.numbers ∈ [.dollar, .zeroMarked] ∧ ∃ maxWords, dialect.WellFormed maxWords := by
  simp only [pairDialects, List.mem_cons, List.not_mem_nil, or_false, Prod.mk.injEq] at h
  obtain ⟨rfl, -⟩ | ⟨rfl, -⟩ | ⟨rfl, -⟩ := h
  · exact ⟨by decide, 2, Architecture.wellFormed (show Architecture.v8 ∈ Architecture.all by
      simp [Architecture.all])⟩
  · exact ⟨by decide, 4, Architecture.wellFormed (show Architecture.bitzzy ∈ Architecture.all by
      simp [Architecture.all])⟩
  · exact ⟨by decide, 1, Parva.wellFormed⟩

/-- The two pairs of a label and a number. -/
theorem LabelOffset.sides {numbers : NumberSyntax} (o : LabelOffset numbers) {atom : Pattern}
    (hatom : ∀ cs, cs ≠ [] → (∀ c ∈ cs, Operand.isNameChar c = true) → atom.Accepts cs []) :
    Sides atom (o.side '+') (o.side '-') where
  left := o.filling (.inl rfl)
  right := o.filling (.inr rfl)
  pairLeft := o.accepts_side (hatom _ o.label_ne_nil fun _ => o.isNameChar_of_mem_label)
    (hatom _ o.offset_ne_nil o.isNameChar) (.inl rfl)
  pairRight := o.accepts_side (hatom _ o.label_ne_nil fun _ => o.isNameChar_of_mem_label)
    (hatom _ o.offset_ne_nil o.isNameChar) (.inr rfl)
  plus := by simp [LabelOffset.side]

/-- What the pairs stand for after the first pass. -/
theorem LabelOffset.value_symbols (hnumbers : dialect.numbers ∈ [.dollar, .zeroMarked])
    (o : LabelOffset dialect.numbers) {sign : Char} (hsign : sign = '+' ∨ sign = '-')
    {p : Program} {address : Int}
    (hlabel : List.lookup (String.ofList o.label) p.labels = some address)
    (hfree : List.lookup (String.ofList (o.side sign)) p.labels = none) (origin : Int)
    (relative : Bool) :
    (dialect.symbols p).value (String.ofList (o.side sign)) origin relative =
      .ok (if relative then o.target sign address - origin else o.target sign address) :=
  have hnumbers : (dialect.symbols p).numbers ∈ [.dollar, .zeroMarked] := hnumbers
  LabelOffset.value_side hnumbers o hsign hlabel hfree origin relative

theorem find?_twin (h : (dialect, openings) ∈ pairDialects) (o : LabelOffset dialect.numbers)
    {t : Template} (ht : Clear openings (o.side '-') t) :
    Option.Rel
      (ActionTwin (o.side '+') (o.side '-') (Clear openings (o.side '-')) (none ∈ t))
      (Rule.find? dialect.rules (t.fill (o.side '+')))
      (Rule.find? dialect.rules (t.fill (o.side '-'))) := by
  simp only [pairDialects, List.mem_cons, List.not_mem_nil, or_false, Prod.mk.injEq] at h
  obtain ⟨rfl, rfl⟩ | ⟨rfl, rfl⟩ | ⟨rfl, rfl⟩ := h
  · exact V8.find?_twin (o.sides fun _ => Operand.accepts_atom_name) ht
  · exact Bitzzy.find?_twin (o.sides fun _ => Operand.accepts_atom_name) ht
  · exact Parva.find?_twin (o.sides fun _ hne hall => accepts_oneOrMore.mpr ⟨hne, hall, rfl⟩) ht

/-- Lines that differ in the sign of a pair are both refused, or they make twin edits. -/
theorem outcomeAt_twin (h : (dialect, openings) ∈ pairDialects) (o : LabelOffset dialect.numbers)
    {text text' : String} {number : Nat} (hlines : Dialect.SameBut number text text')
    {t : Template} (ht : Clear openings (o.side '-') t)
    (hplus : dialect.instructionAt text number = t.text (o.side '+'))
    (hminus : dialect.instructionAt text' number = t.text (o.side '-')) :
    OutcomeTwin (o.side '+') (o.side '-') (dialect.programBefore text number).address (none ∈ t)
      (dialect.outcomeAt text number) (dialect.outcomeAt text' number) := by
  obtain ⟨hnumbers, -⟩ := exists_wellFormed h
  have houtcome (text : String) : dialect.outcomeAt text number =
      dialect.placeText Dialect.maxExpansions ⟨number, (Text.lines text).getD number "",
          dialect.instructionAt text number, dialect.instructionAt text number⟩
        (dialect.instructionAt text number) (dialect.programBefore text number) := rfl
  rw [houtcome text, houtcome text', hplus, hminus, hlines.programBefore_eq]
  exact Dialect.placeText_twin (LabelOffset.symbolic hnumbers '+' o)
    (LabelOffset.symbolic hnumbers '-' o) (o.filling (.inl rfl)).ne_nil
    (o.filling (.inr rfl)).ne_nil (fun _ => find?_twin h o) _ _ _ t _ ht

/-- A pair in a line is clear of the parentheses of the line if these do not stand where it does. -/
theorem clear_of_not_opening {y : List Char} {before after : String}
    (hmnemonic : beginsLine before = true)
    (hopenings : after = "" → ∀ opening ∈ openings, opening.match? before.toList = none) :
    Clear openings y (ofText before ++ none :: ofText after) := by
  have hopened := opened_of_beginsLine hmnemonic (none :: ofText after)
  by_cases hafter : after = ""
  · refine ⟨hopened, ?_⟩
    rintro opening hmem ⟨head, ops, hends, haccepts⟩
    subst hafter
    obtain rfl : ofText before = head := List.append_cancel_right hends
    rw [ofText, fill_plain] at haccepts
    have hsome := match?_isSome haccepts
    rw [hopenings rfl opening hmem] at hsome
    cases hsome
  · have hne : after.toList ≠ [] := by simpa using hafter
    rw [List.append_cons] at hopened ⊢
    exact clear_of_ofText hopened hne

/-- Of two texts that differ in the sign of a pair, the first pass accepts the line with it in both
or in neither, and then the line is the same instructions in both, with one address in their fields
for the one text and another for the other: the address so many words behind the label, and the one
so many words before it.  There are no instructions at all where `.start` or `.end` leave the line
out. -/
theorem offsets_share_form (hdialect : (dialect, openings) ∈ pairDialects)
    (o : LabelOffset dialect.numbers) {text text' before after : String} {number : Nat}
    {address : Int} (hlines : Dialect.SameBut number text text')
    (hplus : dialect.instructionAt text number = before ++ String.ofList (o.side '+') ++ after)
    (hminus : dialect.instructionAt text' number = before ++ String.ofList (o.side '-') ++ after)
    (hmnemonic : beginsLine before = true)
    (hopenings : after = "" → ∀ opening ∈ openings, opening.match? before.toList = none)
    (hlabel : List.lookup (String.ofList o.label) (dialect.firstPass text).1.labels = some address)
    (hfree : ∀ sign ∈ ['+', '-'],
      List.lookup (String.ofList (o.side sign)) (dialect.firstPass text).1.labels = none) :
    ((dialect.outcomeAt text number).fault = none ↔
        (dialect.outcomeAt text' number).fault = none) ∧
      ((dialect.outcomeAt text number).fault = none →
        ∃ forms : List Form, (forms = [] ∨ ∃ form ∈ forms, form.TakesOperand) ∧
          dialect.Instantiates text number forms (address + o.value) ∧
          dialect.Instantiates text' number forms (address - o.value)) := by
  obtain ⟨hnumbers, maxWords, hwellFormed⟩ := exists_wellFormed hdialect
  have htext (sign : Char) : Template.text (o.side sign) (ofText before ++ none :: ofText after) =
      before ++ String.ofList (o.side sign) ++ after := by
    simp [Template.text, ofText, String.ofList_append, String.append_assoc]
  have htwin := outcomeAt_twin hdialect o hlines (clear_of_not_opening hmnemonic hopenings)
    (hplus.trans (htext '+').symm) (hminus.trans (htext '-').symm)
  have hedits (text : String) : ∀ e ∈ (dialect.outcomeAt text number).edits,
      e.Sized dialect.wordSize maxWords ∧ e.ComesFrom number :=
    fun e he => ⟨Dialect.sized_of_mem_placeLine hwellFormed
      (Dialect.fits_placeLines hwellFormed _) e he, Dialect.comesFrom_of_mem_placeLine he⟩
  have hleft := hedits text
  have hright := hedits text'
  generalize hout : dialect.outcomeAt text number = outcome at htwin hleft ⊢
  generalize hout' : dialect.outcomeAt text' number = outcome' at htwin hright ⊢
  cases htwin with
  | refused edits edits' e e' => simp
  | @placed c edits edits' htwin hc =>
    refine ⟨Iff.rfl, fun _ => ?_⟩
    have hfault : (dialect.outcomeAt text number).fault = none := by rw [hout]
    have hfault' : (dialect.outcomeAt text' number).fault = none := by rw [hout']
    have hkept : (dialect.outcomeAt text number).kept = edits := by rw [hout]; rfl
    have hkept' : (dialect.outcomeAt text' number).kept = edits' := by rw [hout']; rfl
    -- the two lines leave the same symbols, so what stands behind them is the same
    have hagree :
        ((dialect.programBefore text number).applyAll (dialect.outcomeAt text number).kept).Agree
          ((dialect.programBefore text number).applyAll
            (dialect.outcomeAt text' number).kept) := by
      rw [hkept, hkept']
      exact htwin.agree (.refl _)
    have hsymbols := hlines.symbols_eq hagree hwellFormed
    have hplaced := hlines.placedAt_cases hagree hwellFormed (hkept ▸ htwin.isPlace.1)
      (hkept' ▸ htwin.isPlace.2)
    rw [hkept, hkept'] at hplaced
    obtain ⟨forms, htakes, hforms, hforms'⟩ := htwin.exists_forms hwellFormed hleft hright
      (o.value_symbols hnumbers (.inl rfl) hlabel (hfree '+' (by decide)))
      (o.value_symbols hnumbers (.inr rfl) hlabel (hfree '-' (by decide)))
    rcases hplaced with ⟨hnone, hnone'⟩ | ⟨hall, hall'⟩
    · exact ⟨[], .inl rfl, Dialect.instantiates_of_hasForm hwellFormed hfault (hnone ▸ .nil),
        Dialect.instantiates_of_hasForm hwellFormed hfault' (hnone' ▸ .nil)⟩
    · refine ⟨forms, .inr (htakes (hc (by simp))),
        Dialect.instantiates_of_hasForm hwellFormed hfault (hall ▸ hforms),
        Dialect.instantiates_of_hasForm hwellFormed hfault' ?_⟩
      rw [hsymbols, hall']
      exact hforms'

/-- With the accumulator behind them the operands select indexed addressing, whatever the sign. -/
theorem indexed_offsets_share_form :
    let text := "NOP\nL:\nHLT\nLDA (L+1),A"
    let text' := "NOP\nL:\nHLT\nLDA (L-1),A"
    (∃ forms : List Form, (forms = [] ∨ ∃ form ∈ forms, form.TakesOperand) ∧
        V8.dialect.Instantiates text 3 forms 2 ∧ V8.dialect.Instantiates text' 3 forms 0) ∧
      V8.dialect.outputAt text 3 =
        [.instruction 2 (Bits.ofNat 16 0x9802)
          ⟨3, "LDA (L+1),A", "LDA (L+1),A", "LDA (L+1),A"⟩] ∧
      V8.dialect.outputAt text' 3 =
        [.instruction 2 (Bits.ofNat 16 0x9800)
          ⟨3, "LDA (L-1),A", "LDA (L-1),A", "LDA (L-1),A"⟩] := by
  intro text text'
  let o : LabelOffset V8.dialect.numbers :=
    ⟨['L'], ['1'], 1, by decide, List.all_eq_true.mp rfl, by decide, by decide +kernel⟩
  have hlines : Dialect.SameBut 3 text text' := ⟨"LDA (L-1),A", by decide +kernel⟩
  obtain ⟨hplus, hlabels, houtput⟩ :
      V8.dialect.instructionAt text 3 = "LDA " ++ String.ofList (o.side '+') ++ ",A" ∧
        (V8.dialect.firstPass text).1.labels = [("L", 1)] ∧
        V8.dialect.outputAt text 3 = [.instruction 2 (Bits.ofNat 16 0x9802)
          ⟨3, "LDA (L+1),A", "LDA (L+1),A", "LDA (L+1),A"⟩] := by
    decide +kernel
  obtain ⟨hminus, houtput'⟩ :
      V8.dialect.instructionAt text' 3 = "LDA " ++ String.ofList (o.side '-') ++ ",A" ∧
        V8.dialect.outputAt text' 3 = [.instruction 2 (Bits.ofNat 16 0x9800)
          ⟨3, "LDA (L-1),A", "LDA (L-1),A", "LDA (L-1),A"⟩] := by
    decide +kernel
  have hlabel : List.lookup (String.ofList o.label) (V8.dialect.firstPass text).1.labels =
      some 1 := by
    rw [hlabels]
    decide
  have hfree : ∀ sign ∈ ['+', '-'],
      List.lookup (String.ofList (o.side sign)) (V8.dialect.firstPass text).1.labels = none := by
    rw [hlabels]
    intro sign hsign
    rcases List.mem_pair.mp hsign with rfl | rfl
    · decide
    · decide
  have hshare := offsets_share_form List.mem_cons_self o hlines hplus hminus (by decide) (by decide)
    hlabel hfree
  exact ⟨hshare.2 (by decide +kernel), houtput, houtput'⟩

end Dialects

/-! ## The exception -/

/-- Where the V8 has parentheses of its own, the inside of the pair with the minus sign is a name,
and that of the other is none. -/
theorem V8.parenthesized?_side (o : LabelOffset .dollar) :
    Statement.parenthesized? (String.ofList (o.side '-')) =
        some (String.ofList (o.label ++ '-' :: o.offset)) ∧
      Statement.parenthesized? (String.ofList (o.side '+')) = none := by
  have hside (sign : Char) : o.side sign = '(' :: ((o.label ++ sign :: o.offset) ++ [')']) := by
    simp [LabelOffset.side]
  constructor
  · rw [hside]
    refine V8.parenthesized?_of_accepts (.inl (Operand.accepts_atom_name (by simp) ?_))
    rw [List.forall_mem_append, List.forall_mem_cons]
    exact ⟨fun _ => o.isNameChar_of_mem_label, by decide, o.isNameChar⟩
  · rw [Option.eq_none_iff_forall_ne_some]
    intro text htext
    have haccepts := V8.accepts_of_parenthesized? .a htext
    rw [String.toList_ofList] at haccepts
    rw [← List.append_nil (o.side '+')] at haccepts
    have hplus := ((V8.isParenthesized_indirect .a).of_filling (o.filling (.inl rfl)) haccepts).2
    exact hplus (by simp [LabelOffset.side])

/-- As the only operand of a load of the V8 the pair with the plus sign is an absolute address, and
the one with the minus sign is an indirect one, which is that of a name with a hyphen in it. -/
theorem load_before_label_is_indirect :
    let text := "NOP\nL:\nHLT\nLDA (L+1)"
    let text' := "NOP\nL:\nHLT\nLDA (L-1)"
    let source : Source := ⟨3, "LDA (L-1)", "LDA (L-1)", "LDA (L-1)"⟩
    Dialect.SameBut 3 text text' ∧
      (V8.dialect.firstPass text').1.labels = [("L", 1)] ∧
      (V8.dialect.firstPass text').1.constants = [] ∧
      V8.dialect.outputAt text 3 =
        [.instruction 2 (Bits.ofNat 16 0x8802) ⟨3, "LDA (L+1)", "LDA (L+1)", "LDA (L+1)"⟩] ∧
      V8.dialect.placedAt text' 3 = [.instruction 2 source [.bits (Bits.ofText "10101"),
        .bits (Bits.ofText "000"), .ref ⟨"L-1", 8, 2, false, false⟩]] ∧
      ¬ ∃ forms, V8.dialect.Instantiates text 3 forms 2 ∧
        V8.dialect.Instantiates text' 3 forms 0 := by
  intro text text' source
  obtain ⟨houtput, hnone⟩ :
      V8.dialect.outputAt text 3 = [.instruction 2 (Bits.ofNat 16 0x8802)
          ⟨3, "LDA (L+1)", "LDA (L+1)", "LDA (L+1)"⟩] ∧
        (V8.dialect.assemble text).errors = [] := by
    decide +kernel
  obtain ⟨hlabels, hconstants, hplaced, herror⟩ :
      (V8.dialect.firstPass text').1.labels = [("L", 1)] ∧
        (V8.dialect.firstPass text').1.constants = [] ∧
        V8.dialect.placedAt text' 3 = [.instruction 2 source [.bits (Bits.ofText "10101"),
          .bits (Bits.ofText "000"), .ref ⟨"L-1", 8, 2, false, false⟩]] ∧
        ⟨3, .undefined "L-1" []⟩ ∈ (V8.dialect.assemble text').errors := by
    decide +kernel
  refine ⟨⟨"LDA (L-1)", by decide +kernel⟩, hlabels, hconstants, houtput, hplaced, ?_⟩
  rintro ⟨forms, hplus, hminus⟩
  obtain ⟨form, hmem, hform⟩ := (hminus.errors _).mp herror
  obtain ⟨e, he⟩ := Form.exists_error_of_undefined hform 2
  have hplus := (hplus.errors e).mpr ⟨form, hmem, he⟩
  simp [hnone] at hplus

end PocketAsm
