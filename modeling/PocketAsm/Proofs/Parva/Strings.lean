/-
  Proofs/Parva/Strings.lean --- a string is stored a character to a word.

  Comments are cut off before a line is matched, and the cut knows of no
  quotes.  A string without their marks comes through as it was written: none
  of its characters begins an escape, ASCII has a code for each of them, and a
  word holds one (`packedWords_ascii`, `placeString_quoted`).  Of a string with a mark only what
  stands before it is left (`instructionOf_of_marked`), which is no string any
  more, or a shorter one.  So a string is stored if and only if it has no such
  mark (`string_is_stored`).
-/
import PocketAsm.Proofs.Directives
import PocketAsm.Proofs.Packing
import PocketAsm.Proofs.Parva.Operands
import PocketAsm.Proofs.Reports

set_option autoImplicit false

namespace PocketAsm

open Pattern Text

/-! ## Characters and their words -/

namespace CharLiteral

/-- A printable character of ASCII other than the reverse solidus. -/
def isVerbatim (c : Char) : Bool := 32 ≤ c.toNat && c.toNat ≤ 126 && c != '\\'

/-- Each character is printable, and none begins an escape. -/
def Verbatim (cs : List Char) : Prop := cs.all isVerbatim = true

instance (cs : List Char) : Decidable (Verbatim cs) := inferInstanceAs (Decidable (_ = true))

variable {cs : List Char}

theorem Verbatim.code (h : Verbatim cs) {c : Char} (hc : c ∈ cs) :
    32 ≤ c.toNat ∧ c.toNat ≤ 126 := by
  have hchar := List.all_eq_true.mp h c hc
  simp only [isVerbatim, Bool.and_eq_true, decide_eq_true_eq] at hchar
  exact hchar.1

theorem Verbatim.not_escape (h : Verbatim cs) : '\\' ∉ cs :=
  fun hc => absurd (List.all_eq_true.mp h _ hc) (by decide)

theorem Verbatim.not_newline (h : Verbatim cs) : '\n' ∉ cs :=
  fun hc => absurd (List.all_eq_true.mp h _ hc) (by decide)

theorem Verbatim.subset {part : List Char} (h : Verbatim cs) (hpart : part ⊆ cs) : Verbatim part :=
  List.all_eq_true.mpr fun c hc => List.all_eq_true.mp h c (hpart hc)

/-- Where there are no escapes and no line feeds each character is one of the string. -/
theorem characters_eq_map (hescape : '\\' ∉ cs) (hline : '\n' ∉ cs) :
    characters cs = cs.map String.singleton := by
  induction cs with
  | nil => rfl
  | cons c cs ih =>
    obtain ⟨hc, hescape⟩ := not_or.mp (mt List.mem_cons.mpr hescape)
    obtain ⟨hc', hline⟩ := not_or.mp (mt List.mem_cons.mpr hline)
    have hrest := ih hescape hline
    cases cs with
    | nil => simp [characters, Ne.symm hc']
    | cons d cs => simp [characters, Ne.symm hc, Ne.symm hc', hrest]

theorem split_quoted (h : Verbatim cs) :
    split (String.ofList ('\x22' :: (cs ++ ['\x22']))) = cs.map String.singleton := by
  rw [split, String.toList_ofList, List.drop_one, List.tail_cons, List.dropLast_concat,
    characters_eq_map h.not_escape h.not_newline]

end CharLiteral

/-- A printable character stands in the table at its code. -/
theorem CharEncoding.findIdx?_asciiTable {n : Nat} (hlow : 32 ≤ n) (hhigh : n ≤ 126) :
    asciiTable.findIdx? (· == some (String.singleton (Char.ofNat n))) = some n := by
  obtain ⟨k, rfl⟩ := Nat.exists_eq_add_of_le hlow
  have hhead : ∀ e ∈ some "\\0" :: List.replicate 31 none,
      (e == some (String.singleton (Char.ofNat (32 + k)))) = false := by
    have hzero : "\\0" ≠ String.singleton (Char.ofNat (32 + k)) := fun h =>
      absurd (congrArg String.length h) (by rw [String.length_singleton]; decide)
    simpa using hzero
  have hrow : ((List.range 95).map fun m => some (String.singleton (Char.ofNat (32 + m)))).findIdx?
      (· == some (String.singleton (Char.ofNat (32 + k)))) = some k := by
    rw [List.findIdx?_map, List.findIdx?_eq_some_iff_getElem]
    refine ⟨by simp; omega, by simp, fun j hj => ?_⟩
    have hne : Char.ofNat (32 + j) ≠ Char.ofNat (32 + k) := fun h => by
      have hcodes := congrArg Char.toNat h
      rw [Char.toNat_ofNat, Char.toNat_ofNat, if_pos (.inl (by omega)), if_pos (.inl (by omega))]
        at hcodes
      omega
    simpa [String.singleton_inj] using hne
  rw [asciiTable, List.findIdx?_append, List.findIdx?_append, hrow,
    List.findIdx?_eq_none_iff.mpr hhead]
  simp [Nat.add_comm]

/-- The code of a printable character is its own. -/
theorem CharEncoding.code_ascii {c : Char} (hlow : 32 ≤ c.toNat) (hhigh : c.toNat ≤ 126) :
    ascii.code (String.singleton c) = .ok c.toNat := by
  have hplace := findIdx?_asciiTable hlow hhigh
  rw [Char.ofNat_toNat] at hplace
  rw [code, ascii, hplace]

/-- The edit that stores a character in a word. -/
def Edit.store (wordSize : Nat) (source : Source) (c : Char) : Edit :=
  .place [.bits (Bits.ofNat wordSize c.toNat)] 1 source

/-- The words of a string without escapes. -/
def Assembly.stored (wordSize : Nat) (source : Source) (cs : List Char) : List OutputLine :=
  cs.mapIdx fun i c => .instruction i (Bits.ofNat wordSize c.toNat) source

namespace Dialect

variable {dialect : Dialect} {maxWords : Nat} {source : Source} {p : Program} {cs : List Char}

/-- A word of one character holds its code. -/
theorem packedWords_ascii {wordSize : Nat} (hword : 8 ≤ wordSize) (h : CharLiteral.Verbatim cs) :
    packedWords .ascii wordSize (cs.map String.singleton) =
      cs.map fun c => Bits.ofNat wordSize c.toNat := by
  have hone : CharEncoding.ascii.perWord wordSize = 1 := rfl
  have hspan : Bits.span 8 = 256 := by decide
  rw [packedWords, hone, Bits.pieces_one, List.map_map, List.map_map]
  refine List.map_congr_left fun c hc => ?_
  obtain ⟨hlow, hhigh⟩ := h.code hc
  have hfield : CharEncoding.ascii.field (String.singleton c) = Bits.ofNat 8 c.toNat :=
    (CharEncoding.mem_and_field_of_code (CharEncoding.code_ascii hlow hhigh)).2
  obtain ⟨more, rfl⟩ := Nat.exists_eq_add_of_le' hword
  rw [Bits.ofNat_add (by omega)]
  simp [characterWord, hfield]

/-- A string without escapes is placed a character to a word. -/
theorem placeString_quoted (hword : 8 ≤ dialect.wordSize) (hp : p.encoding = some .ascii)
    (h : CharLiteral.Verbatim cs) :
    dialect.placeString source (String.ofList ('\x22' :: (cs ++ ['\x22']))) p =
      ⟨cs.map (.store dialect.wordSize { source with matched := "(string)" }), none⟩ := by
  have hmem : ∀ c ∈ cs.map String.singleton, some c ∈ CharEncoding.ascii.table := by
    intro text htext
    obtain ⟨c, hc, rfl⟩ := List.mem_map.mp htext
    obtain ⟨hlow, hhigh⟩ := h.code hc
    exact (CharEncoding.mem_and_field_of_code (CharEncoding.code_ascii hlow hhigh)).1
  have hfit : CharEncoding.ascii.CodesFit :=
    CharEncoding.codesFit_of_find? (show CharEncoding.find? "ascii" = some .ascii from rfl)
  have hsplit := CharLiteral.split_quoted h
  rw [placeString_of_mem hfit Nat.one_pos hp (by rwa [hsplit]), hsplit, packedWords_ascii hword h,
    List.map_map]
  rfl

/-! ## Texts of one line -/

theorem outcomeAt_of_line {line : String} (hline : '\n' ∉ line.toList) :
    dialect.outcomeAt line 0 = dialect.placeLine 0 line (.start dialect.encoding) := by
  rw [outcomeAt, lines_of_not_mem hline]
  rfl

/-- The first pass over one line that succeeds makes its edits. -/
theorem firstPass_of_line (hdialect : dialect.WellFormed maxWords) {line : String}
    (hline : '\n' ∉ line.toList) {edits : List Edit}
    (h : dialect.placeLine 0 line (.start dialect.encoding) = ⟨edits, none⟩) :
    dialect.firstPass line = ((Program.start dialect.encoding).applyAll edits, #[]) := by
  have hfault : (dialect.placeLine 0 line (.start dialect.encoding)).fault = none := by rw [h]
  rw [firstPass_eq hdialect, Dialect.edits, lines_of_not_mem hline, passEdits_of_ok hfault,
    passFaults_of_ok hfault, h]
  simp [passEdits, passFaults]

theorem instructions_store (wordSize address : Nat) (source : Source) (cs : List Char) :
    Edit.instructions address (cs.map (.store wordSize source)) = cs.mapIdx fun i c =>
      .instruction (address + i) source [.bits (Bits.ofNat wordSize c.toNat)] := by
  induction cs generalizing address with
  | nil => rfl
  | cons c cs ih =>
    rw [List.map_cons, Edit.store, Edit.instructions, ih, List.mapIdx_cons]
    simp [Nat.add_assoc, Nat.add_comm 1]

/-- A line that stores characters assembles to their words. -/
theorem tryAssemble_of_store (hdialect : dialect.WellFormed maxWords) {line : String}
    (hline : '\n' ∉ line.toList)
    (h : dialect.placeLine 0 line (.start dialect.encoding) =
      ⟨cs.map (.store dialect.wordSize source), none⟩) :
    dialect.tryAssemble line = .ok ⟨Assembly.stored dialect.wordSize source cs, []⟩ := by
  have hplaces : ∀ e ∈ cs.map (Edit.store dialect.wordSize source), e.isPlace = true := by
    simp [Edit.store, Edit.isPlace]
  have hlines : ((Program.start dialect.encoding).applyAll
      (cs.map (Edit.store dialect.wordSize source))).lines.toList =
      cs.mapIdx fun i c => .instruction i source [.bits (Bits.ofNat dialect.wordSize c.toNat)] := by
    rw [Program.lines_applyAll_places hplaces]
    simpa [Program.start, Program.keeps] using instructions_store dialect.wordSize 0 source cs
  have hresolve (symbols : Symbols) (i : Nat) (c : Char) :
      dialect.resolveLine symbols
          (.instruction i source [.bits (Bits.ofNat dialect.wordSize c.toNat)]) =
        .ok (.instruction i (Bits.ofNat dialect.wordSize c.toNat) source) := by
    have hwidth : dialect.widthFault? (1 * dialect.wordSize) source = none :=
      widthFault?_eq_none hdialect le_rfl hdialect.one_le_maxWords source
    rw [Nat.one_mul] at hwidth
    simp [resolveLine, instructionBits, Symbols.partsBits, Symbols.partBits, hwidth]
  have hresults : ∀ symbols : Symbols, (cs.mapIdx fun i c => Placed.instruction i source
      [.bits (Bits.ofNat dialect.wordSize c.toNat)]).map (dialect.resolveLine symbols) =
      (Assembly.stored dialect.wordSize source cs).map .ok := by
    intro symbols
    refine List.ext_getElem? fun i => ?_
    simp [Assembly.stored, hresolve, Function.comp_def]
  rw [tryAssemble, assemble, firstPass_of_line hdialect hline h]
  dsimp only [secondPass]
  rw [hlines, hresults, finished_map_ok, failed_map_ok]
  rfl

end Dialect

/-! ## Strings of the Parva -/

namespace Parva

open Dialect

variable {cs : List Char} {p : Program}

/-- What stands before the characters of a string. -/
def stringOpening : List Char := ".string".toList ++ [' ', '\x22']

/-- The line of a string. -/
def stringLine (s : String) : String := ".string \x22" ++ s ++ "\x22"

theorem stringOpening_append (ys : List Char) :
    stringOpening ++ ys = ".string".toList ++ ' ' :: ('\x22' :: ys) :=
  List.append_assoc ".string".toList [' ', '\x22'] ys

theorem toList_stringLine (s : String) :
    (stringLine s).toList = stringOpening ++ (s.toList ++ ['\x22']) := by
  have hopening : ".string \x22".toList = stringOpening := by decide +kernel
  have hlist : (stringLine s).toList = stringOpening ++ (s.toList ++ "\x22".toList) := by
    rw [stringLine, String.toList_append, String.toList_append, List.append_assoc, hopening]
  exact hlist

theorem isBlank_quote : isBlank '\x22' = false := by decide

theorem head?_stringOpening : stringOpening.head? = some '.' := rfl

theorem getLast?_stringOpening : stringOpening.getLast? = some '\x22' := rfl

/-- No mark of a comment begins with a character before the string, and none has a quote. -/
theorem comments_clear : ∀ mark ∈ dialect.comments,
    (∃ c ∈ mark.toList.head?, c ∉ stringOpening) ∧ '\x22' ∉ mark.toList := by
  have hall : (dialect.comments.all fun mark =>
      mark.toList.head?.any (fun c => !stringOpening.contains c) &&
        !mark.toList.contains '\x22') = true := by decide +kernel
  intro mark hmark
  have hmark := List.all_eq_true.mp hall mark hmark
  simpa only [Bool.and_eq_true, Option.any_eq_true, Bool.not_eq_true', List.contains_eq_mem,
    decide_eq_false_iff_not, Option.mem_def] using hmark

/-- A string is written between quotes. -/
theorem accepts_quotedText {ops : List (Slot × String)} :
    quotedText.Accepts cs ops ↔
      ∃ inner, cs = '\x22' :: (inner ++ ['\x22']) ∧ '\n' ∉ inner ∧ ops = [] := by
  have hquote : (letter '\x22').Accepts ['\x22'] [] := ⟨⟨'\x22', rfl, by decide⟩, rfl⟩
  constructor
  · intro h
    obtain ⟨x, y, u, v, rfl, rfl, hx, hy⟩ := accepts_all_cons.mp h
    obtain ⟨z, w, u', v', rfl, rfl, ⟨hz, rfl⟩, hw⟩ := accepts_all_cons.mp hy
    obtain rfl := eq_nil_of_slotFree rfl hx
    obtain rfl := eq_nil_of_slotFree rfl hw
    rw [accepts_sign (by decide) (by decide) hx, accepts_sign (by decide) (by decide) hw]
    exact ⟨z, rfl, fun hmem => by simpa using hz _ hmem, rfl⟩
  · rintro ⟨inner, rfl, hinner, rfl⟩
    refine accepts_all_cons.mpr ⟨['\x22'], inner ++ ['\x22'], [], [], rfl, rfl, hquote,
      accepts_all_cons.mpr ⟨inner, ['\x22'], [], [], rfl, rfl, ⟨fun c hc => ?_, rfl⟩, hquote⟩⟩
    rw [bne_iff_ne]
    rintro rfl
    exact hinner hc

/-- The rule of strings, the first one for text. -/
def stringRule : Rule :=
  ⟨.all [.lit ".string", .space, .slot .a quotedText], fun caps => .string (caps.get .a)⟩

section Rules

variable {text : String} {inner ys : List Char} {source : Source} {levels : Nat}

/-- Only the rule of strings can match a line that begins like one. -/
theorem find?_stringOpening (ys : List Char) :
    Rule.find? dialect.rules (stringOpening ++ ys) =
      Rule.find? [stringRule] (stringOpening ++ ys) := by
  have hrules : dialect.rules = (instructions ++ [Directive.labelRule operand]) ++
      ((Directive.common operand .separator 1).tail ++ textDirectives) := rfl
  have hrule : Rule.withWord (Directive.words ++ textWords)
      ((Directive.common operand .separator 1).tail ++ textDirectives) ".string" =
        [stringRule] := rfl
  rw [hrules, ← hrule, stringOpening_append]
  exact Rule.find?_of_word instructions_openWithout
    (List.rel_append (Directive.common_begin operand .separator 1) textDirectives_begin)
    (by decide) rfl _

theorem ne_empty_of_opening (htext : text.toList = stringOpening ++ ys) : text ≠ "" := by
  rintro rfl
  exact List.append_ne_nil_of_left_ne_nil (by decide) ys htext.symm

/-- The line of a string stores its characters. -/
theorem placeText_closed (htext : text.toList = stringOpening ++ (inner ++ ['\x22']))
    (hinner : CharLiteral.Verbatim inner) (hp : p.encoding = some .ascii) :
    dialect.placeText levels source text p =
      ⟨inner.map (.store wordSize { source with matched := "(string)" }), none⟩ := by
  have hhead : ∀ c ∈ ('\x22' :: (inner ++ ['\x22'])).head?, isBlank c = false := by
    simp [isBlank_quote]
  have hword : IsWord ".string" := by decide
  obtain ⟨caps, hmatch, hcaps⟩ := match?_behind_word hword hhead rfl
    (accepts_quotedText.mpr ⟨inner, rfl, hinner.not_newline, rfl⟩) .a
  rw [← stringOpening_append, ← htext] at hmatch
  have hfind : Rule.find? dialect.rules text.toList =
      some (.string (String.ofList ('\x22' :: (inner ++ ['\x22'])))) := by
    rw [htext, find?_stringOpening, ← htext, ← hcaps]
    have hmatch' : stringRule.pattern.match? text.toList = some caps := hmatch
    exact Rule.find?_of_match hmatch' []
  rw [placeText, if_neg (ne_empty_of_opening htext), hfind]
  have hsize : 8 ≤ dialect.wordSize := by decide
  exact placeString_quoted hsize hp hinner

/-- A string without a quote at its end is no instruction. -/
theorem placeText_unclosed (htext : text.toList = stringOpening ++ ys)
    (h : ∀ inner, ys ≠ inner ++ ['\x22']) :
    dialect.placeText levels source text p = .refused (.unknownInstruction text) := by
  have hhead : ∀ c ∈ ('\x22' :: ys).head?, isBlank c = false := by simp [isBlank_quote]
  have hnone : stringRule.pattern.match? text.toList = none := by
    refine Option.eq_none_iff_forall_ne_some.mpr fun caps hmatch => ?_
    obtain ⟨ops, haccepts, -⟩ := accepts_of_match? hmatch
    rw [htext, stringOpening_append] at haccepts
    have hslot := (accepts_behind_word (by decide) hhead).mp haccepts
    obtain ⟨inner, hinner, -⟩ := accepts_quotedText.mp (accepts_slot rfl hslot).1
    exact h inner (List.cons.inj hinner).2
  have hfind : Rule.find? dialect.rules text.toList = none := by
    rw [htext, find?_stringOpening, ← htext]
    exact Rule.find?_of_no_match hnone []
  rw [placeText, if_neg (ne_empty_of_opening htext), hfind]

end Rules

/-! ## Strings and marks of comments -/

/-- A string without marks of comments is read as it was written. -/
theorem instructionOf_stringLine {s : String} (h : dialect.Unmarked s.toList) :
    dialect.instructionOf (stringLine s) = stringLine s := by
  have hquote : ∀ mark ∈ dialect.comments, '\x22' ∉ mark.toList :=
    fun mark hmark => (comments_clear mark hmark).2
  have hnil : dialect.Unmarked [] := by decide
  have hword : dialect.Unmarked (".string".toList ++ [' ']) := by decide
  have hline : (stringLine s).toList =
      (".string".toList ++ [' ']) ++ '\x22' :: (s.toList ++ ['\x22']) := by
    rw [toList_stringLine, stringOpening_append, List.append_assoc]
    rfl
  have hpoint : isBlank '.' = false := by decide
  refine instructionOf_eq_self rfl (by decide) ?_ ?_ ?_
  · rw [hline]
    exact hword.append (h.append hnil hquote) hquote
  · rw [toList_stringLine, List.head?_append, head?_stringOpening]
    simpa using hpoint
  · rw [toList_stringLine, ← List.append_assoc, List.getLast?_concat]
    simpa using isBlank_quote

/-- Of a string with a mark of a comment a shorter part is left. -/
theorem instructionOf_of_marked {s : String} (h : ¬dialect.Unmarked s.toList) :
    ∃ ys, ys <+: s.toList ∧ ys.length < s.toList.length ∧
      (dialect.instructionOf (stringLine s)).toList = stringOpening ++ ys := by
  simp only [Unmarked, not_forall, not_not] at h
  obtain ⟨mark, hmark, front, rest, hs⟩ := h
  have hmarks : ∀ mark ∈ dialect.comments.map String.toList, ∃ c ∈ mark.head?,
      c ∉ stringOpening := by
    simpa using fun mark hmark => (comments_clear mark hmark).1
  have hlength : 0 < mark.toList.length := by
    obtain ⟨⟨c, hc, -⟩, -⟩ := comments_clear mark hmark
    exact List.length_pos_of_mem (List.mem_of_mem_head? hc)
  have hkept : beforeComment (dialect.comments.map String.toList) (stringLine s).toList =
      stringOpening ++ beforeComment (dialect.comments.map String.toList)
        (front ++ (mark.toList ++ (rest ++ ['\x22']))) := by
    rw [toList_stringLine, ← hs, beforeComment_append hmarks]
    simp only [List.append_assoc]
  have hstarts := beforeComment_starts
    (List.mem_map_of_mem (f := String.toList) hmark) front (rest ++ ['\x22'])
  have hys := (trimRight_starts isBlank _).trans hstarts
  refine ⟨_, hys.trans ?_, hys.length_le.trans_lt ?_, ?_⟩
  · rw [← hs, List.append_assoc]
    exact List.prefix_append _ _
  · rw [← hs, List.length_append, List.length_append]
    omega
  · have hfolds : dialect.foldsCase = false := rfl
    have hleft (ys : List Char) : trimLeft isBlank (stringOpening ++ ys) = stringOpening ++ ys :=
      rfl
    have hlast : ∀ c ∈ stringOpening.getLast?, isBlank c = false := by
      rw [getLast?_stringOpening]
      simpa using isBlank_quote
    rw [instructionOf, stripComment, hkept, hfolds, trim, hleft, trimRight_append hlast]
    exact String.toList_ofList

theorem stringLine_not_newline {s : String} (hs : CharLiteral.Verbatim s.toList) :
    '\n' ∉ (stringLine s).toList := by
  have hopening : '\n' ∉ stringOpening := by decide +kernel
  rw [toList_stringLine]
  simp [hopening, hs.not_newline]

/-- A string without marks of comments is stored. -/
theorem stored_of_unmarked {s : String} (hs : CharLiteral.Verbatim s.toList)
    (h : dialect.Unmarked s.toList) :
    dialect.tryAssemble (stringLine s) =
      .ok ⟨Assembly.stored wordSize ⟨0, stringLine s, stringLine s, "(string)"⟩ s.toList, []⟩ := by
  refine tryAssemble_of_store wellFormed (stringLine_not_newline hs) ?_
  rw [placeLine, instructionOf_stringLine h]
  exact placeText_closed (toList_stringLine s) hs rfl

/-- A string with a mark of a comment is not: what is left is refused, or has fewer characters. -/
theorem unmarked_of_stored {s : String} (hs : CharLiteral.Verbatim s.toList) {source : Source}
    (h : dialect.tryAssemble (stringLine s) =
      .ok ⟨Assembly.stored wordSize source s.toList, []⟩) : dialect.Unmarked s.toList := by
  by_contra hmarked
  obtain ⟨ys, hstarts, hlength, htext⟩ := instructionOf_of_marked hmarked
  by_cases hclosed : ∃ inner, ys = inner ++ ['\x22']
  · obtain ⟨inner, rfl⟩ := hclosed
    have hinner : CharLiteral.Verbatim inner :=
      hs.subset (List.Subset.trans (List.subset_append_left _ _) hstarts.subset)
    have hshort := tryAssemble_of_store wellFormed (stringLine_not_newline hs)
      (placeText_closed htext hinner rfl)
    have hsame := congrArg (fun a => a.lines.length) (Except.ok.inj (h.symm.trans hshort))
    simp only [Assembly.stored, List.length_mapIdx] at hsame
    rw [List.length_append, List.length_singleton] at hlength
    omega
  · have hrefused : dialect.outcomeAt (stringLine s) 0 = .refused _ :=
      (outcomeAt_of_line (stringLine_not_newline hs)).trans
        (placeText_unclosed htext (not_exists.mp hclosed))
    obtain ⟨hmem, -⟩ := reported_of_refused wellFormed hrefused
    rw [(tryAssemble_eq_ok.mp h).2] at hmem
    cases hmem

/-- Each character of a string is stored in a word, in their order and without an error, if and only
if the string has no mark of a comment. -/
theorem string_is_stored {s : String} (hs : CharLiteral.Verbatim s.toList) :
    (∃ source, dialect.tryAssemble (".string \x22" ++ s ++ "\x22") =
      .ok ⟨s.toList.mapIdx fun i c => .instruction i (Bits.ofNat 24 c.toNat) source, []⟩) ↔
      dialect.Unmarked s.toList :=
  ⟨fun ⟨_, h⟩ => unmarked_of_stored hs h, fun h => ⟨_, stored_of_unmarked hs h⟩⟩

/-- Quotes and a slash are stored like other characters. -/
theorem inner_quotes_are_stored :
    CharLiteral.Verbatim "a\x22/\x22".toList ∧ ∃ source,
      dialect.tryAssemble (".string \x22" ++ "a\x22/\x22" ++ "\x22") =
        .ok ⟨"a\x22/\x22".toList.mapIdx fun i c =>
          .instruction i (Bits.ofNat 24 c.toNat) source, []⟩ := by
  have hs : CharLiteral.Verbatim "a\x22/\x22".toList := by decide
  exact ⟨hs, (string_is_stored hs).mpr (by decide)⟩

/-- A semicolon begins a comment inside of a string too, and what is left is no instruction. -/
theorem semicolon_cuts_string :
    CharLiteral.Verbatim "a;b".toList ∧
      dialect.tryAssemble (".string \x22" ++ "a;b" ++ "\x22") =
        .ok ⟨[], [⟨0, .unknownInstruction ".string \x22a"⟩]⟩ := by
  decide +kernel

end Parva

end PocketAsm
