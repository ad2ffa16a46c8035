/-
  Proofs/Packing.lean --- the characters of a string come back out of its words.

  A string literal is cut into characters (`CharLiteral.join_split`), the
  characters into pieces of as many as a word takes, and each piece becomes a
  word, its first character in the lowest bits.  So the groups of a word, read
  from the lowest up, are the codes of its piece and zeros behind them
  (`lanes_characterWord`), and only the last word has zeros to cut off
  (`take_flatMap_pieces`).  A line with a character that the encoding lacks is
  rolled back.
-/
import PocketAsm.Isa.Parva.Dialect
import PocketAsm.Proofs.Bytes
import PocketAsm.Proofs.Widths

set_option autoImplicit false

namespace PocketAsm

/-! ## The characters of a literal -/

namespace CharLiteral

/-- A character of a string: a single one, or a reverse solidus and the one that follows it. -/
def IsCharacter (text : String) : Prop :=
  (∃ c, text = String.singleton c) ∨ ∃ c, text = String.ofList ['\\', c]

/-- A string literal with the given body. -/
def quoted (body : String) : String := String.ofList ('\x22' :: (body.toList ++ ['\x22']))

theorem split_quoted_eq (body : String) : split (quoted body) = characters body.toList := by
  rw [split, quoted, String.toList_ofList, List.drop_one, List.tail_cons, List.dropLast_concat]

/-- The characters of a text without line feeds are all of it, each of them whole. -/
theorem flatMap_characters (cs : List Char) (h : '\n' ∉ cs) :
    (characters cs).flatMap String.toList = cs ∧ ∀ text ∈ characters cs, IsCharacter text := by
  induction cs using characters.induct with
  | case1 => simp [characters]
  | case2 => simp at h
  | case3 c hc =>
    rw [characters, if_neg hc]
    exact ⟨by simp, List.forall_mem_singleton.mpr (Or.inl ⟨c, rfl⟩)⟩
  | case4 => simp at h
  | case5 c d cs hc hescape ih =>
    obtain ⟨hjoin, hall⟩ := ih fun hmem => h (by simp [hmem])
    rw [characters, if_neg hc, if_pos hescape, hescape.1]
    exact ⟨by simp [hjoin], List.forall_mem_cons.mpr ⟨Or.inr ⟨d, rfl⟩, hall⟩⟩
  | case6 c d cs hc hescape ih =>
    obtain ⟨hjoin, hall⟩ := ih fun hmem => h (List.mem_cons_of_mem c hmem)
    rw [characters, if_neg hc, if_neg hescape]
    exact ⟨by simp [hjoin], List.forall_mem_cons.mpr ⟨Or.inl ⟨c, rfl⟩, hall⟩⟩

/-- The characters of a literal, put together again, are its body. -/
theorem join_split {body : String} (h : '\n' ∉ body.toList) :
    String.join (split (quoted body)) = body := by
  rw [split_quoted_eq, ← String.toList_inj, String.toList_join, (flatMap_characters _ h).1]

end CharLiteral

/-! ## Groups of bits -/

namespace Bits

/-- The groups of `width` bits of a number, so many of them, the lowest one first. -/
def lanes (width : Nat) : Nat → Nat → List Nat
  | 0, _ => []
  | count + 1, n => n % span width :: lanes width count (n / span width)

@[simp] theorem lanes_zero (width count : Nat) : lanes width count 0 = List.replicate count 0 := by
  induction count with
  | zero => rfl
  | succ count ih => rw [lanes, Nat.zero_mod, Nat.zero_div, ih, List.replicate_succ]

/-- Fields that lie one above the other are read back, with zeros above the last one. -/
theorem lanes_reverse_flatten {width : Nat} {fields : List Bits}
    (hfields : ∀ field ∈ fields, field.length = width) :
    ∀ {count : Nat}, fields.length ≤ count →
      lanes width count (toNat fields.reverse.flatten) =
        fields.map toNat ++ List.replicate (count - fields.length) 0 := by
  induction fields with
  | nil => simp
  | cons field fields ih =>
    intro count hcount
    obtain ⟨hlength, hfields⟩ := List.forall_mem_cons.mp hfields
    obtain ⟨count, rfl⟩ := Nat.exists_eq_add_of_le' (Nat.succ_pos fields.length |>.trans_le hcount)
    have hlt := toNat_lt_of_length hlength
    have hvalue : toNat (field :: fields).reverse.flatten =
        span width * toNat fields.reverse.flatten + toNat field := by
      rw [List.reverse_cons, List.flatten_concat, toNat_append, hlength, Nat.mul_comm]
    have hlow : toNat (field :: fields).reverse.flatten % span width = toNat field := by
      rw [hvalue, Nat.mul_add_mod, Nat.mod_eq_of_lt hlt]
    have hhigh : toNat (field :: fields).reverse.flatten / span width =
        toNat fields.reverse.flatten := by
      rw [hvalue, Nat.mul_add_div (span_pos width), Nat.div_eq_of_lt hlt, Nat.add_zero]
    rw [lanes, hlow, hhigh, ih hfields (Nat.succ_le_succ_iff.mp hcount)]
    simp

/-! ## Pieces -/

/-- Where only the last piece is filled up, cutting off at the length of the list leaves what the
list itself gives. -/
theorem take_flatMap_pieces {α β : Type} {size : Nat} (hsize : 0 < size) (f : α → β) (fill : β)
    (xs : List α) :
    ((pieces size xs).flatMap fun piece =>
      piece.map f ++ List.replicate (size - piece.length) fill).take xs.length = xs.map f := by
  induction xs using pieces_induction hsize with
  | nil => rfl
  | cons xs hne ih =>
    rw [pieces_eq_cons hsize hne, List.flatMap_cons]
    rcases Nat.le_total xs.length size with hle | hle
    · rw [List.take_of_length_le hle, List.append_assoc,
        List.take_left' (List.length_map f)]
    · have hfull : (xs.take size).length = size := List.length_take_of_le hle
      have hsplit : xs.length = ((xs.take size).map f).length + (xs.drop size).length := by
        rw [List.length_map, hfull, List.length_drop, Nat.add_sub_cancel' hle]
      rw [hfull, Nat.sub_self, List.replicate_zero, List.append_nil, hsplit,
        List.take_length_add_append, ih, ← List.map_append, List.take_append_drop]

end Bits

/-! ## Codes -/

namespace CharEncoding

variable {encoding : CharEncoding} {character : String}

/-- A character fits the bits that the encoding has for it. -/
def CodesFit (encoding : CharEncoding) : Prop :=
  ∀ character n, encoding.code character = .ok n → n < Bits.span encoding.width

/-- The code of a character is its place in the table. -/
theorem code_of_mem (h : some character ∈ encoding.table) :
    encoding.code character = .ok (encoding.table.findIdx (· == some character)) := by
  rw [code, List.findIdx?_eq_some_of_exists ⟨_, h, by simp⟩]

/-- A character that the table lacks has no code. -/
theorem code_of_not_mem (h : some character ∉ encoding.table) :
    encoding.code character = .error (.noCharacter character encoding.name) := by
  rw [code, List.findIdx?_eq_none_iff.mpr]
  intro entry hentry
  exact beq_eq_false_iff_ne.mpr fun heq => h (heq ▸ hentry)

/-- The codes of a table that is short enough fit. -/
theorem codesFit_of_length (h : encoding.table.length ≤ Bits.span encoding.width) :
    encoding.CodesFit := by
  intro character n hcode
  rw [code] at hcode
  split at hcode
  · rename_i i hi
    rw [← Except.ok.inj hcode]
    exact (List.findIdx?_eq_some_iff_getElem.mp hi).1.trans_le h
  · simp at hcode

/-- The codes of the encodings that can be chosen fit. -/
theorem codesFit_of_find? {name : String} (h : find? name = some encoding) : encoding.CodesFit := by
  unfold find? at h
  split at h
  · exact Option.some.inj h ▸ codesFit_of_length (by decide +kernel)
  · split at h
    · exact Option.some.inj h ▸ codesFit_of_length (by decide +kernel)
    · simp at h

/-- The field of a character that the table has. -/
def field (encoding : CharEncoding) (character : String) : Bits :=
  Bits.ofNat encoding.width (encoding.table.findIdx (· == some character))

/-- The field of a character with a code holds it. -/
theorem mem_and_field_of_code {n : Nat} (h : encoding.code character = .ok n) :
    some character ∈ encoding.table ∧ encoding.field character = Bits.ofNat encoding.width n := by
  by_cases hmem : some character ∈ encoding.table
  · rw [code_of_mem hmem] at h
    rw [field, Except.ok.inj h]
    exact ⟨hmem, rfl⟩
  · simp [code_of_not_mem hmem] at h

@[simp] theorem length_field (encoding : CharEncoding) (character : String) :
    (encoding.field character).length = encoding.width :=
  Bits.length_ofNat _ _

end CharEncoding

theorem Bits.encode_ofNat {width n : Nat} (h : n < span width) :
    encode n width false = .ok (ofNat width n) := by
  have hmod : ((n : Int) % span width).toNat = n := by
    rw [Int.emod_eq_of_lt (by omega) (by omega), Int.toNat_natCast]
  simp only [encode, range, Bool.false_eq_true, if_false, hmod]
  rw [if_pos (by omega)]

namespace Dialect

variable {dialect : Dialect} {encoding : CharEncoding} {p : Program} {source : Source}
  {characters : List String} {wordSize : Nat}

/-! ## Words of characters -/

/-- Characters that the table has come to their fields. -/
theorem characterBits_of_mem (hfit : encoding.CodesFit)
    (h : ∀ c ∈ characters, some c ∈ encoding.table) :
    characterBits encoding characters = .ok (characters.map encoding.field) := by
  induction characters with
  | nil => rfl
  | cons c cs ih =>
    obtain ⟨hc, hcs⟩ := List.forall_mem_cons.mp h
    have hcode := CharEncoding.code_of_mem hc
    rw [characterBits, hcode]
    dsimp only
    rw [Bits.encode_ofNat (hfit c _ hcode), ih hcs]
    rfl

/-- The first character that the table lacks ends the bits. -/
theorem characterBits_of_not_mem (hfit : encoding.CodesFit)
    (h : ∃ c ∈ characters, some c ∉ encoding.table) :
    ∃ c ∈ characters, some c ∉ encoding.table ∧
      characterBits encoding characters = .error (.noCharacter c encoding.name) := by
  induction characters with
  | nil => simp at h
  | cons c cs ih =>
    rw [characterBits]
    by_cases hc : some c ∈ encoding.table
    · have hcs : ∃ c ∈ cs, some c ∉ encoding.table := by simpa [hc] using h
      obtain ⟨missing, hmem, hmissing, hbits⟩ := ih hcs
      have hcode := CharEncoding.code_of_mem hc
      refine ⟨missing, List.mem_cons_of_mem c hmem, hmissing, ?_⟩
      rw [hcode]
      dsimp only
      rw [Bits.encode_ofNat (hfit c _ hcode), hbits]
    · exact ⟨c, List.mem_cons_self, hc, by rw [CharEncoding.code_of_not_mem hc]⟩

/-- The words of pieces of characters that the table has. -/
theorem placeWords_of_mem (hfit : encoding.CodesFit) (pieces : List (List String))
    (h : ∀ piece ∈ pieces, ∀ c ∈ piece, some c ∈ encoding.table) (done : List Edit) :
    placeWords encoding wordSize source pieces done =
      ⟨done.reverse ++ pieces.map fun piece =>
        Edit.place [.bits (characterWord wordSize (piece.map encoding.field))] 1 source, none⟩ := by
  induction pieces generalizing done with
  | nil => simp [placeWords]
  | cons piece pieces ih =>
    obtain ⟨hpiece, hpieces⟩ := List.forall_mem_cons.mp h
    rw [placeWords, characterBits_of_mem hfit hpiece]
    dsimp only
    rw [ih hpieces]
    simp

/-- A character that the table lacks ends the words, whatever line they are of. -/
theorem fault_placeWords (hfit : encoding.CodesFit) (wordSize : Nat) (pieces : List (List String))
    (h : ∃ c ∈ pieces.flatten, some c ∉ encoding.table) :
    ∃ c ∈ pieces.flatten, some c ∉ encoding.table ∧ ∀ source done,
      (placeWords encoding wordSize source pieces done).fault =
        some (.noCharacter c encoding.name) := by
  induction pieces with
  | nil => simp at h
  | cons piece pieces ih =>
    by_cases hpiece : ∀ c ∈ piece, some c ∈ encoding.table
    · obtain ⟨c, hmem, hc⟩ := h
      have hrest : c ∈ pieces.flatten := by
        rcases List.mem_append.mp (List.flatten_cons ▸ hmem) with hmem | hmem
        · exact absurd (hpiece c hmem) hc
        · exact hmem
      obtain ⟨missing, hmem, hmissing, hfault⟩ := ih ⟨c, hrest, hc⟩
      refine ⟨missing, by simp [hmem], hmissing, fun source done => ?_⟩
      rw [placeWords, characterBits_of_mem hfit hpiece]
      exact hfault source _
    · obtain ⟨missing, hmem, hmissing, hbits⟩ :=
        characterBits_of_not_mem hfit (by simpa using hpiece)
      refine ⟨missing, by simp [hmem], hmissing, fun source done => ?_⟩
      rw [placeWords, hbits]

/-- The groups of a word are the codes of its characters, the first one lowest, and zeros. -/
theorem lanes_characterWord (hfit : encoding.CodesFit)
    (h : ∀ c ∈ characters, some c ∈ encoding.table) {count : Nat}
    (hcount : characters.length ≤ count) :
    Bits.lanes encoding.width count
        (Bits.toNat (characterWord wordSize (characters.map encoding.field))) =
      characters.map (fun c => encoding.table.findIdx (· == some c)) ++
        List.replicate (count - characters.length) 0 := by
  have hcodes : ∀ c ∈ characters,
      Bits.toNat (encoding.field c) = encoding.table.findIdx (· == some c) := fun c hc => by
    rw [CharEncoding.field, Bits.toNat_ofNat,
      Nat.mod_eq_of_lt (hfit c _ (CharEncoding.code_of_mem (h c hc)))]
  rw [characterWord, Bits.toNat_append, Bits.toNat_replicate_false, Nat.zero_mul, Nat.zero_add,
    Bits.lanes_reverse_flatten (by simp) (by simpa using hcount), List.map_map, List.length_map]
  exact congrArg (· ++ _) (List.map_congr_left hcodes)

/-! ## Strings -/

/-- A packed word takes as many characters as fit, and at least one does. -/
theorem perWord_eq (hleast : 1 ≤ encoding.width) (hmost : encoding.width ≤ wordSize) :
    encoding.perWord wordSize = (if encoding.packed then wordSize / encoding.width else 1) ∧
      0 < encoding.perWord wordSize := by
  have hone : 1 ≤ wordSize / encoding.width := (Nat.one_le_div_iff hleast).mpr hmost
  rw [CharEncoding.perWord, Nat.max_eq_right hone]
  split
  · exact ⟨rfl, hone⟩
  · exact ⟨rfl, Nat.one_pos⟩

/-- The words that characters of the table are packed into. -/
def packedWords (encoding : CharEncoding) (wordSize : Nat) (characters : List String) : List Bits :=
  (Bits.pieces (encoding.perWord wordSize) characters).map fun piece =>
    characterWord wordSize (piece.map encoding.field)

theorem placeString_of_mem (hfit : encoding.CodesFit) (hpos : 0 < encoding.perWord dialect.wordSize)
    (hencoding : p.encoding = some encoding) {text : String}
    (h : ∀ c ∈ CharLiteral.split text, some c ∈ encoding.table) :
    dialect.placeString source text p =
      ⟨(packedWords encoding dialect.wordSize (CharLiteral.split text)).map fun word =>
        .place [.bits word] 1 { source with matched := "(string)" }, none⟩ := by
  have hpieces : ∀ piece ∈ Bits.pieces (encoding.perWord dialect.wordSize) (CharLiteral.split text),
      ∀ c ∈ piece, some c ∈ encoding.table := by
    intro piece hpiece c hc
    apply h
    rw [← Bits.flatten_pieces hpos (CharLiteral.split text)]
    exact List.mem_flatten_of_mem hpiece hc
  rw [placeString, hencoding]
  dsimp only
  rw [placeWords_of_mem hfit _ hpieces, packedWords, List.map_map]
  rfl

theorem fault_placeString (hfit : encoding.CodesFit)
    (hpos : 0 < encoding.perWord dialect.wordSize) (hencoding : p.encoding = some encoding)
    {text : String} (h : ∃ c ∈ CharLiteral.split text, some c ∉ encoding.table) :
    ∃ c ∈ CharLiteral.split text, some c ∉ encoding.table ∧ ∀ source,
      (dialect.placeString source text p).fault = some (.noCharacter c encoding.name) := by
  have hflatten := Bits.flatten_pieces hpos (CharLiteral.split text)
  obtain ⟨c, hmem, hc, hfault⟩ := fault_placeWords hfit dialect.wordSize _ (hflatten.symm ▸ h)
  refine ⟨c, hflatten ▸ hmem, hc, fun source => ?_⟩
  rw [placeString, hencoding]
  exact hfault _ _

/-- Every packed word is a whole word. -/
theorem length_of_mem_packedWords (hfit : encoding.CodesFit) (hmost : encoding.width ≤ wordSize)
    (hpos : 0 < encoding.perWord wordSize) (h : ∀ c ∈ characters, some c ∈ encoding.table) :
    ∀ word ∈ packedWords encoding wordSize characters, word.length = wordSize := by
  intro word hword
  obtain ⟨piece, hpiece, rfl⟩ := List.mem_map.mp hword
  refine length_characterWord hmost (Bits.length_le_of_mem_pieces hpiece)
    (characterBits_of_mem hfit fun c hc => h c ?_)
  rw [← Bits.flatten_pieces hpos characters]
  exact List.mem_flatten_of_mem hpiece hc

/-- The codes of the characters are read back out of the words. -/
theorem take_lanes_packedWords (hfit : encoding.CodesFit) (hpos : 0 < encoding.perWord wordSize)
    (h : ∀ c ∈ characters, some c ∈ encoding.table) :
    ((packedWords encoding wordSize characters).flatMap fun word =>
        Bits.lanes encoding.width (encoding.perWord wordSize) word.toNat).take characters.length =
      characters.map fun c => encoding.table.findIdx (· == some c) := by
  have hlanes : ∀ piece ∈ Bits.pieces (encoding.perWord wordSize) characters,
      Bits.lanes encoding.width (encoding.perWord wordSize)
          (Bits.toNat (characterWord wordSize (piece.map encoding.field))) =
        piece.map (fun c => encoding.table.findIdx (· == some c)) ++
          List.replicate (encoding.perWord wordSize - piece.length) 0 := by
    intro piece hpiece
    refine lanes_characterWord hfit (fun c hc => h c ?_) (Bits.length_le_of_mem_pieces hpiece)
    rw [← Bits.flatten_pieces hpos characters]
    exact List.mem_flatten_of_mem hpiece hc
  rw [packedWords, List.flatMap_map, List.flatMap_congr hlanes, Bits.take_flatMap_pieces hpos]

/-! ## Lines -/

/-- A string that fails is reported and leaves the program as it was. -/
theorem placeLines_of_string_fault {text raw : String} {fault : Fault}
    (hne : dialect.instructionOf raw ≠ "")
    (hfind : Rule.find? dialect.rules (dialect.instructionOf raw).toList = some (.string text))
    (hfault : ∀ source, (dialect.placeString source text p).fault = some fault)
    (number : Nat) (rest : List String) (faults : Array Diagnostic) :
    dialect.placeLines number (raw :: rest) p faults =
      dialect.placeLines (number + 1) rest p (faults.push ⟨number, fault⟩) := by
  obtain ⟨source, hline⟩ : ∃ source,
      dialect.placeLine number raw p = dialect.placeString source text p := by
    simp only [placeLine]
    rw [placeText, if_neg hne, hfind]
    exact ⟨_, rfl⟩
  have hresume : ∀ e ∈ (dialect.placeString source text p).edits, e ≠ .resume := by
    rintro e he rfl
    exact (show dialect.Makes p (.string text) .resume from makes_of_mem_perform he).elim
  rw [placeLines, hline]
  simp only [hfault]
  rw [Program.rollback_applyAll p hresume]

/-- The characters of a string literal without line feeds are all of its body.  If the encoding has
them all, they fill as many words as they need, and the groups of the words, read from the lowest
one up and cut off at the number of characters, are their codes.  If it lacks one, the line is
reported and the program stays as it was. -/
theorem string_words_give_back_characters (hfit : encoding.CodesFit) (hleast : 1 ≤ encoding.width)
    (hmost : encoding.width ≤ dialect.wordSize) (hencoding : p.encoding = some encoding)
    {body : String} (hline : '\n' ∉ body.toList) :
    let text := CharLiteral.quoted body
    let characters := CharLiteral.split text
    let perWord := if encoding.packed then dialect.wordSize / encoding.width else 1
    (String.join characters = body ∧ ∀ c ∈ characters, CharLiteral.IsCharacter c) ∧
    ((∀ c ∈ characters, some c ∈ encoding.table) →
      ∃ words : List Bits,
        (∀ source, dialect.perform source p (.string text) =
          ⟨words.map fun word => .place [.bits word] 1 { source with matched := "(string)" },
            none⟩) ∧
        words.length = (characters.length + perWord - 1) / perWord ∧
        (∀ word ∈ words, word.length = dialect.wordSize) ∧
        characters.map encoding.code =
          ((words.flatMap fun word => Bits.lanes encoding.width perWord word.toNat).take
            characters.length).map .ok) ∧
    ((∃ c ∈ characters, some c ∉ encoding.table) →
      ∃ c ∈ characters, some c ∉ encoding.table ∧
        ∀ number raw rest faults, dialect.instructionOf raw ≠ "" →
          Rule.find? dialect.rules (dialect.instructionOf raw).toList = some (.string text) →
          dialect.placeLines number (raw :: rest) p faults =
            dialect.placeLines (number + 1) rest p
              (faults.push ⟨number, .noCharacter c encoding.name⟩)) := by
  intro text characters perWord
  obtain ⟨hperWord, hpos⟩ := perWord_eq hleast hmost
  have hall : ∀ c ∈ characters, CharLiteral.IsCharacter c := by
    rw [show characters = _ from CharLiteral.split_quoted_eq body]
    exact (CharLiteral.flatMap_characters _ hline).2
  refine ⟨⟨CharLiteral.join_split hline, hall⟩, fun hmem => ?_, fun hmissing => ?_⟩
  · refine ⟨packedWords encoding dialect.wordSize characters,
      fun source => placeString_of_mem hfit hpos hencoding hmem, ?_,
      length_of_mem_packedWords hfit hmost hpos hmem, ?_⟩
    · rw [packedWords, List.length_map, Bits.length_pieces hpos, hperWord]
    · have hcodes := take_lanes_packedWords hfit hpos hmem
      rw [hperWord] at hcodes
      rw [hcodes, List.map_map]
      exact List.map_congr_left fun c hc => CharEncoding.code_of_mem (hmem c hc)
  · obtain ⟨c, hc, hlacks, hfault⟩ := fault_placeString hfit hpos hencoding hmissing
    exact ⟨c, hc, hlacks, fun number raw rest faults hne hfind =>
      placeLines_of_string_fault hne hfind hfault number rest faults⟩

/-- The digits of the terminal, with three of them to a word, and a letter that it lacks. -/
theorem packed_digits_give_back_characters :
    let p := Program.start (some { CharEncoding.terminal with packed := true })
    (∃ words : List Bits,
      (∀ source, Parva.dialect.perform source p (.string (CharLiteral.quoted "12+4")) =
        ⟨words.map fun word => .place [.bits word] 1 { source with matched := "(string)" },
          none⟩) ∧
      words.length = 2 ∧ (∀ word ∈ words, word.length = 24) ∧
      [2, 3, 11, 5] = (words.flatMap fun word => Bits.lanes 7 3 word.toNat).take 4) ∧
    ∃ c, Parva.dialect.placeLines 0 [".string \x2212a\x22"] p #[] =
      (p, #[⟨0, .noCharacter c "Terminal"⟩]) := by
  intro p
  have hfit : CharEncoding.CodesFit { CharEncoding.terminal with packed := true } :=
    CharEncoding.codesFit_of_length (by decide)
  have hdigits : '\n' ∉ "12+4".toList := by decide +kernel
  have hletter : '\n' ∉ "12a".toList := by decide +kernel
  have hwidth : 1 ≤ CharEncoding.terminal.width ∧
      CharEncoding.terminal.width ≤ Parva.dialect.wordSize := by decide
  refine ⟨?_, ?_⟩
  · obtain ⟨words, hperform, hcount, hlength, hcodes⟩ :=
      (string_words_give_back_characters (p := p) hfit hwidth.1 hwidth.2 rfl hdigits).2.1
        (by decide +kernel)
    refine ⟨words, hperform, ?_, hlength, ?_⟩
    · rw [hcount]
      decide +kernel
    · have hvalues : (CharLiteral.split (CharLiteral.quoted "12+4")).map
          CharEncoding.terminal.code = [2, 3, 11, 5].map Except.ok := by decide +kernel
      have hlanes := hvalues.symm.trans hcodes
      exact (List.map_injective_iff.mpr fun _ _ => Except.ok.inj) hlanes
  · obtain ⟨c, -, -, hplace⟩ :=
      (string_words_give_back_characters (p := p) hfit hwidth.1 hwidth.2 rfl hletter).2.2
        (by decide +kernel)
    exact ⟨c, hplace 0 _ [] #[] (by decide +kernel) rfl⟩

end Dialect

end PocketAsm
