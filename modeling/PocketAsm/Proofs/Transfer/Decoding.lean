/-
  Proofs/Transfer/Decoding.lean --- only encodings are decoded.

  `decode` looks at the words of a text alone.  Where it gives a result, the
  words are single letters, and the counts of these letters, which it checks
  the spelling by, are the four groups of bits it returns with the rest of the
  64 letters: the letters are those of the encoding.  Conversely any text with
  the words of an encoding is decoded, whatever white space sets them apart.
-/
import PocketAsm.Proofs.Transfer.Codec

set_option autoImplicit false

namespace PocketAsm.Transfer

/-! ## The letters of a text -/

/-- A text has single letters exactly when they are its words. -/
theorem singleLetters?_eq_some {s : String} {letters : List Char} :
    singleLetters? s = some letters ↔ Text.words s.toList = letters.map fun c => [c] := by
  unfold singleLetters?
  generalize Text.words s.toList = words
  induction words generalizing letters with
  | nil => cases letters <;> simp
  | cons word words ih =>
    rw [List.mapM_cons]
    match word with
    | [] => cases letters <;> simp
    | [c] =>
      cases letters with
      | nil => simp [Option.bind_eq_some_iff]
      | cons d letters => simp [Option.bind_eq_some_iff, ih, and_comm]
    | c :: d :: word => cases letters <;> simp

/-! ## The letters of a message -/

/-- Letters in order stay in order when each is repeated. -/
theorem pairwise_repeated {letters : List Char} (h : letters.Pairwise (· ≤ ·))
    (counts : List Nat) :
    (counts.zipWith (fun count letter => List.replicate count letter) letters).flatten.Pairwise
      (· ≤ ·) := by
  induction letters generalizing counts with
  | nil => simp
  | cons letter letters ih =>
    cases counts with
    | nil => simp
    | cons count counts =>
      obtain ⟨hfirst, hrest⟩ := List.pairwise_cons.mp h
      rw [List.zipWith_cons_cons, List.flatten_cons, List.pairwise_append]
      refine ⟨List.pairwise_replicate.mpr (.inr (Char.le_refl letter)), ih hrest counts, ?_⟩
      intro c hc d hd
      obtain rfl := List.eq_of_mem_replicate hc
      obtain ⟨run, hrun, hd⟩ := List.mem_flatten.mp hd
      rw [← List.map_uncurry_zip_eq_zipWith] at hrun
      obtain ⟨⟨number, later⟩, hzip, rfl⟩ := List.mem_map.mp hrun
      obtain rfl := List.eq_of_mem_replicate hd
      exact hfirst d (List.of_mem_zip hzip).2

/-- The letters of a spelling are in order. -/
theorem pairwise_spell (counts : List Nat) : (spell counts).Pairwise (· ≤ ·) :=
  pairwise_repeated (by decide) counts

/-- The letters of a message. -/
def lettersOf (value command : Nat) : List Char := spell (countsFor (command * 4096 + value))

section Letters

variable {value command : Nat}

/-- The counts of a message are its command, the three digits of its value and the rest. -/
theorem countsFor_eq (hvalue : value < 4096) (hcommand : command < 16) :
    countsFor (command * 4096 + value) =
      [command, value / 256, value / 16 % 16, value % 16,
        messageLength - (command + value / 256 + value / 16 % 16 + value % 16)] := by
  have ha : (command * 4096 + value) / 4096 % 16 = command := by omega
  have hb : (command * 4096 + value) / 256 % 16 = value / 256 := by omega
  have hc : (command * 4096 + value) / 16 % 16 = value / 16 % 16 := by omega
  have hd : (command * 4096 + value) % 16 = value % 16 := by omega
  simp only [countsFor, ha, hb, hc, hd]

theorem length_lettersOf (hvalue : value < 4096) (hcommand : command < 16) :
    (lettersOf value command).length = messageLength := by
  rw [lettersOf, countsFor_eq hvalue hcommand, length_spell, messageLength]
  omega

theorem not_isBlank_of_mem_lettersOf (hvalue : value < 4096) (hcommand : command < 16) :
    ∀ c ∈ lettersOf value command, Text.isBlank c = false := by
  rw [lettersOf, countsFor_eq hvalue hcommand]
  exact not_isBlank_of_mem_spell _ _ _ _ _

/-- Any text with the letters of a message is decoded to it. -/
theorem decode_of_words {s : String} (hvalue : value < 4096) (hcommand : command < 16)
    (hwords : Text.words s.toList = (lettersOf value command).map fun c => [c]) :
    decode s = .ok (value, command) := by
  have hletters := singleLetters?_eq_some.mpr hwords
  rw [lettersOf, countsFor_eq hvalue hcommand] at hletters
  rw [decode_of_singleLetters? hcommand (by omega) (by omega) (by omega)
    (by rw [messageLength]; omega) hletters]
  congr 2
  omega

/-- What is decoded has the letters of a message. -/
theorem words_of_decode {s : String} (h : decode s = .ok (value, command)) :
    value < 4096 ∧ command < 16 ∧
      Text.words s.toList = (lettersOf value command).map fun c => [c] := by
  unfold decode at h
  split at h
  · cases h
  · rename_i letters hletters
    dsimp only at h
    split at h
    · cases h
    · rename_i hspelled
      obtain ⟨hlength, hspell⟩ := not_or.mp hspelled
      rw [not_not] at hlength hspell
      simp only [countsOf, alphabet, List.map_cons, List.map_nil] at h hspell
      generalize letters.count 'a' = a, letters.count 'b' = b, letters.count 'c' = c,
        letters.count 'd' = d, letters.count 'e' = e at h hspell
      split at h
      · cases h
      · rename_i hmax
        obtain ⟨rfl, rfl⟩ := Prod.mk.inj (Except.ok.inj h)
        rw [hspell, length_spell, messageLength] at hlength
        obtain ⟨ha, hb, hc, hd⟩ : a < 16 ∧ b < 16 ∧ c < 16 ∧ d < 16 := by omega
        have hcounts : countsFor (a * 4096 + (b * 256 + c * 16 + d)) = [a, b, c, d, e] := by
          have hb : (b * 256 + c * 16 + d) / 256 = b := by omega
          have hc : (b * 256 + c * 16 + d) / 16 % 16 = c := by omega
          have hd : (b * 256 + c * 16 + d) % 16 = d := by omega
          have he : 64 - (a + b + c + d) = e := by omega
          rw [countsFor_eq (by omega) (by omega), hb, hc, hd, messageLength, he]
        refine ⟨by omega, by omega, ?_⟩
        rw [lettersOf, hcounts, ← hspell]
        exact singleLetters?_eq_some.mp hletters

end Letters

/-! ## Encodings -/

section Encodings

variable {value command : Int} {m : String}

/-- A value that does not fit is named, if it can be. -/
theorem tryEncode_of_wide_value (hvalue : ¬(0 ≤ value ∧ value ≤ 0xFFF)) :
    tryEncode value command = .error (if Text.isWritable value then .transfer (.wideValue value)
      else .arithmetic .longNumber) := by
  rw [tryEncode, encode, if_pos hvalue, Except.mapError, Failure.ofFault_wideValue]

/-- A command that does not fit is named, if it can be. -/
theorem tryEncode_of_wide_command (hvalue : 0 ≤ value ∧ value ≤ 0xFFF)
    (hcommand : ¬(0 ≤ command ∧ command ≤ 15)) :
    tryEncode value command =
      .error (if Text.isWritable command then .transfer (.wideCommand command)
        else .arithmetic .longNumber) := by
  rw [tryEncode, encode, if_neg (not_not.mpr hvalue), if_pos hcommand, Except.mapError,
    Failure.ofFault_wideCommand]

/-- What is encoded is what fits its fields. -/
theorem tryEncode_fits : (∃ m, tryEncode value command = .ok m) ↔
    (0 ≤ value ∧ value ≤ 0xFFF) ∧ 0 ≤ command ∧ command ≤ 15 := by
  refine ⟨fun ⟨m, hm⟩ => ?_, fun ⟨hvalue, hcommand⟩ => ?_⟩
  · by_contra hwide
    rcases not_and_or.mp hwide with hvalue | hcommand
    · simp [tryEncode_of_wide_value hvalue] at hm
    · by_cases hvalue : 0 ≤ value ∧ value ≤ 0xFFF
      · simp [tryEncode_of_wide_command hvalue hcommand] at hm
      · simp [tryEncode_of_wide_value hvalue] at hm
  · rw [tryEncode, encode_of_lt hvalue hcommand]
    exact ⟨_, rfl⟩

/-- What is encoded fits its fields, and the words of the text are the letters of the message. -/
theorem words_of_tryEncode (h : tryEncode value command = .ok m) :
    ∃ v c : Nat, value = v ∧ command = c ∧ v < 4096 ∧ c < 16 ∧
      Text.words m.toList = (lettersOf v c).map fun l => [l] := by
  obtain ⟨hvalue, hcommand⟩ := tryEncode_fits.mp ⟨m, h⟩
  obtain ⟨v, rfl⟩ := Int.eq_ofNat_of_zero_le hvalue.1
  obtain ⟨c, rfl⟩ := Int.eq_ofNat_of_zero_le hcommand.1
  refine ⟨v, c, rfl, rfl, by omega, by omega, ?_⟩
  rw [tryEncode, encode_of_lt hvalue hcommand] at h
  obtain rfl := Except.ok.inj h
  exact singleLetters?_eq_some.mp
    (singleLetters?_intercalate _ (not_isBlank_of_mem_lettersOf (by omega) (by omega)))

end Encodings

/-- A text is decoded exactly if its words are those of an encoding, and then to the value and the
command that it encodes, which no other encoding has the words of.  What does not fit its field is
refused as a breach of the protocol, unless it has too many decimal digits for the message that
names it.  The words of an encoding are 64 letters in order. -/
theorem decodes_exactly_encodings (s : String) (value command : Int) :
    (∀ v c : Nat, decode s = .ok (v, c) ↔
      v ≤ 0xFFF ∧ c ≤ 15 ∧
        ∃ m, tryEncode v c = .ok m ∧ Text.words s.toList = Text.words m.toList) ∧
    (∀ (m m' : String) (value' command' : Int),
      tryEncode value command = .ok m → tryEncode value' command' = .ok m' →
        Text.words m.toList = Text.words m'.toList → value = value' ∧ command = command') ∧
    ((∃ m, tryEncode value command = .ok m) ↔
      (0 ≤ value ∧ value ≤ 0xFFF) ∧ 0 ≤ command ∧ command ≤ 15) ∧
    (¬(0 ≤ value ∧ value ≤ 0xFFF) → tryEncode value command =
      .error (if Text.isWritable value then .transfer (.wideValue value)
        else .arithmetic .longNumber)) ∧
    (0 ≤ value ∧ value ≤ 0xFFF → ¬(0 ≤ command ∧ command ≤ 15) → tryEncode value command =
      .error (if Text.isWritable command then .transfer (.wideCommand command)
        else .arithmetic .longNumber)) ∧
    (∀ m, tryEncode value command = .ok m →
      ∃ letters : List Char, Text.words m.toList = letters.map (fun l => [l]) ∧
        letters.length = 64 ∧ letters.Pairwise (· ≤ ·)) := by
  refine ⟨fun v c => ?_, fun m m' value' command' hm hm' hwords => ?_, tryEncode_fits,
    tryEncode_of_wide_value, tryEncode_of_wide_command, fun m hm => ?_⟩
  · constructor
    · intro h
      obtain ⟨hv, hc, hwords⟩ := words_of_decode h
      obtain ⟨m, hm⟩ := tryEncode_fits.mpr ⟨⟨v.cast_nonneg, by omega⟩, c.cast_nonneg, by omega⟩
      obtain ⟨v', c', hvalue, hcommand, -, -, hm'⟩ := words_of_tryEncode hm
      obtain rfl := Int.ofNat.inj hvalue
      obtain rfl := Int.ofNat.inj hcommand
      exact ⟨by omega, by omega, m, hm, hwords.trans hm'.symm⟩
    · rintro ⟨-, -, m, hm, hwords⟩
      obtain ⟨v', c', hvalue, hcommand, hv, hc, hm'⟩ := words_of_tryEncode hm
      obtain rfl := Int.ofNat.inj hvalue
      obtain rfl := Int.ofNat.inj hcommand
      exact decode_of_words hv hc (hwords.trans hm')
  · obtain ⟨v, c, rfl, rfl, hv, hc, hletters⟩ := words_of_tryEncode hm
    obtain ⟨v', c', rfl, rfl, hv', hc', hletters'⟩ := words_of_tryEncode hm'
    have hdecoded := decode_of_words hv hc hletters
    rw [decode_of_words hv' hc' (hwords.trans hletters')] at hdecoded
    obtain ⟨rfl, rfl⟩ := Prod.mk.inj (Except.ok.inj hdecoded)
    exact ⟨rfl, rfl⟩
  · obtain ⟨v, c, rfl, rfl, hv, hc, hletters⟩ := words_of_tryEncode hm
    exact ⟨_, hletters, length_lettersOf hv hc, pairwise_spell _⟩

/-- A message of the value 0x123 and the command 3, set over two lines. -/
def spacedMessage : String :=
  "\ta a a  b c c\nd d d " ++ " ".intercalate (List.replicate 55 "e") ++ " \n"

/-- A message is decoded whatever white space stands between its letters, and the first numbers
beyond the fields are refused. -/
theorem spaced_message_is_decoded :
    decode spacedMessage = .ok (0x123, 3) ∧
      tryEncode (-1) 0 = .error (.transfer (.wideValue (-1))) ∧
      tryEncode 0 16 = .error (.transfer (.wideCommand 16)) := by
  obtain ⟨hdecode, -, -, hvalue, -⟩ := decodes_exactly_encodings spacedMessage (-1) 0
  obtain ⟨-, -, -, -, hcommand, -⟩ := decodes_exactly_encodings spacedMessage 0 16
  refine ⟨(hdecode _ _).mpr ⟨by decide, by decide, _, rfl, by decide +kernel⟩, ?_, ?_⟩
  · rw [hvalue (by decide), if_pos (by decide +kernel)]
  · rw [hcommand (by decide) (by decide), if_pos (by decide +kernel)]

/-- A value of more than 4300 decimal digits. -/
def longValue : Int := (Nat.pow 16 3600 : Nat)

/-- A value with too many digits to be named is not refused as a breach of the protocol. -/
theorem long_value_has_no_fault :
    ¬longValue ≤ 0xFFF ∧ ¬∃ fault, tryEncode longValue 0 = .error (.transfer fault) := by
  have hlong : Text.isWritable longValue = false := by decide +kernel
  have hwide : ¬longValue ≤ 0xFFF := by decide +kernel
  refine ⟨hwide, ?_⟩
  rw [tryEncode_of_wide_value fun hvalue => hwide hvalue.2, hlong]
  simp

end PocketAsm.Transfer
