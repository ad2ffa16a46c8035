/-
  Proofs/Transfer/Codec.lean --- messages are decoded to what was encoded.

  A message is spelled by counts of letters.  The words of its text are its
  letters again, and the counts of these letters are the counts it was spelled
  by, four groups of four bits each.  Hence `decode` undoes `encode`, which
  succeeds for every value of twelve bits and every command of four.
-/
import Mathlib.Tactic
import PocketAsm.Transfer.Message

set_option autoImplicit false

namespace PocketAsm.Transfer

/-! ## Letters as text -/

/-- Signs set apart by single spaces are the words of the text. -/
theorem words_intercalate (cs : List Char) (h : ∀ c ∈ cs, Text.isBlank c = false) :
    Text.words ([' '].intercalate (cs.map fun c => [c])) = cs.map fun c => [c] := by
  have hspace : Text.isBlank ' ' = true := by decide
  induction cs with
  | nil => decide
  | cons c cs ih =>
    have hc : Text.isBlank c = false := h c List.mem_cons_self
    cases cs with
    | nil => simp [Text.words, List.splitOnP_cons_eq_if_modifyHead, hc]
    | cons d cs =>
      have hrest := ih fun e he => h e (List.mem_cons_of_mem c he)
      simp only [Text.words, List.map_cons] at hrest ⊢
      rw [List.intercalate_cons_cons, List.singleton_append, List.cons_append,
        List.singleton_append, List.splitOnP_cons_eq_if_modifyHead,
        List.splitOnP_cons_eq_if_modifyHead]
      simp only [hc, hspace, if_true, Bool.false_eq_true, if_false, List.modifyHead_cons,
        List.filter_cons, List.isEmpty_cons, Bool.not_false, hrest]

/-- A text of single letters is read as these letters. -/
theorem singleLetters?_intercalate (cs : List Char) (h : ∀ c ∈ cs, Text.isBlank c = false) :
    singleLetters? (" ".intercalate (cs.map String.singleton)) = some cs := by
  have htext : (" ".intercalate (cs.map String.singleton)).toList =
      [' '].intercalate (cs.map fun c => [c]) := by
    rw [String.toList_intercalate]
    simp [Function.comp_def]
  rw [singleLetters?, htext, words_intercalate cs h]
  clear h htext
  induction cs with
  | nil => rfl
  | cons c cs ih =>
    rw [List.map_cons, List.mapM_cons, ih]
    rfl

/-! ## Counts -/

section Counts

variable (a b c d e : Nat)

theorem spell_eq : spell [a, b, c, d, e] = List.replicate a 'a' ++ (List.replicate b 'b' ++
    (List.replicate c 'c' ++ (List.replicate d 'd' ++ List.replicate e 'e'))) := by
  simp [spell, alphabet]

/-- The letters of a spelling occur as often as its counts say. -/
theorem countsOf_spell : countsOf (spell [a, b, c, d, e]) = [a, b, c, d, e] := by
  simp [spell_eq, countsOf, alphabet, List.count_replicate]

theorem length_spell : (spell [a, b, c, d, e]).length = a + (b + (c + (d + e))) := by
  simp [spell_eq]

theorem not_isBlank_of_mem_spell : ∀ l ∈ spell [a, b, c, d, e], Text.isBlank l = false := by
  intro l hl
  simp only [spell_eq, List.mem_append, List.mem_replicate] at hl
  rcases hl with ⟨-, rfl⟩ | ⟨-, rfl⟩ | ⟨-, rfl⟩ | ⟨-, rfl⟩ | ⟨-, rfl⟩ <;> decide

end Counts

/-! ## Messages -/

section Spellings

variable {a b c d e : Nat} (ha : a < 16) (hb : b < 16) (hc : c < 16) (hd : d < 16)
  (hlength : a + (b + (c + (d + e))) = messageLength)

include ha hb hc hd hlength

/-- Texts with the letters of a spelling of 64 are decoded to the groups of bits that it counts. -/
theorem decode_of_singleLetters? {s : String}
    (hletters : singleLetters? s = some (spell [a, b, c, d, e])) :
    decode s = .ok (b * 256 + c * 16 + d, a) := by
  have hmax : ¬15 < max (max a b) (max c d) := by omega
  simp only [decode, hletters, countsOf_spell, length_spell, hlength, ne_eq, not_true_eq_false,
    or_self, if_false, if_neg hmax]

/-- Spellings of 64 letters are decoded to the groups of bits that they count. -/
theorem decode_spell :
    decode (" ".intercalate ((spell [a, b, c, d, e]).map String.singleton)) =
      .ok (b * 256 + c * 16 + d, a) :=
  decode_of_singleLetters? ha hb hc hd hlength
    (singleLetters?_intercalate _ (not_isBlank_of_mem_spell a b c d e))

end Spellings

/-- A value of twelve bits and a command of four can be encoded. -/
theorem encode_of_lt {value command : Int} (hvalue : 0 ≤ value ∧ value ≤ 4095)
    (hcommand : 0 ≤ command ∧ command ≤ 15) :
    encode value command =
      .ok (" ".intercalate
        ((spell (countsFor (command.toNat * 4096 + value.toNat))).map String.singleton)) := by
  simp [encode, hvalue, hcommand]

/-- Decoding gives back what was encoded. -/
theorem decode_of_encode {value command : Int} {s : String} (h : encode value command = .ok s) :
    decode s = .ok (value.toNat, command.toNat) := by
  unfold encode at h
  split at h
  · simp at h
  · rename_i hvalue
    split at h
    · simp at h
    · rename_i hcommand
      obtain rfl := Except.ok.inj h
      obtain ⟨v, rfl⟩ := Int.eq_ofNat_of_zero_le (not_not.mp hvalue).1
      obtain ⟨c, rfl⟩ := Int.eq_ofNat_of_zero_le (not_not.mp hcommand).1
      have hv : v < 4096 := by omega
      have hc : c < 16 := by omega
      simp only [Int.toNat_natCast, countsFor]
      rw [decode_spell (by omega) (by omega) (by omega) (by omega) (by
        simp only [messageLength]
        omega)]
      congr 2 <;> omega

end PocketAsm.Transfer
