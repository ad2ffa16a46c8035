/-
  Proofs/Parva/Relocation.lean --- Parva programs that are placed at another address.

  The branches of the Parva hold distances, its jumps and data addresses.  A
  text that names labels in branches only can stand behind an `.address` line
  with any number, and every number can be written: in binary digits it may be
  as long as it likes (`NumberSyntax.exists_read`).
-/
import PocketAsm.Proofs.Directives
import PocketAsm.Proofs.Literals
import PocketAsm.Proofs.Parva.Operands
import PocketAsm.Proofs.Relocation

set_option autoImplicit false

namespace PocketAsm

/-! ## Numbers in binary digits -/

namespace RadixMark

theorem digitsValue_concat {radix d : Nat} {c : Char} (hc : Text.digitIn? radix c = some d)
    (cs : List Char) : digitsValue radix (cs ++ [c]) = digitsValue radix cs * radix + d := by
  simp [digitsValue, List.filterMap_append, hc]

/-- Every number has binary digits. -/
theorem exists_binary_digits (n : Nat) :
    ∃ cs, cs ≠ [] ∧ (∀ c ∈ cs, isDigit 2 c = true) ∧ digitsValue 2 cs = n := by
  have hzero : ∀ c ∈ ['0'], isDigit 2 c = true := by simp [isDigit, Text.digitIn?]
  have hone : ∀ c ∈ ['1'], isDigit 2 c = true := by simp [isDigit, Text.digitIn?]
  induction n using Nat.strong_induction_on with
  | h n ih =>
    by_cases hsmall : n < 2
    · interval_cases n
      · exact ⟨['0'], by simp, hzero, rfl⟩
      · exact ⟨['1'], by simp, hone, rfl⟩
    · obtain ⟨cs, -, hdigits, hvalue⟩ := ih (n / 2) (by omega)
      have hparts : n / 2 * 2 + n % 2 = n := by omega
      rcases Nat.mod_two_eq_zero_or_one n with hlast | hlast <;> rw [hlast] at hparts
      · refine ⟨cs ++ ['0'], by simp, List.forall_mem_append.mpr ⟨hdigits, hzero⟩, ?_⟩
        rw [digitsValue_concat (d := 0) rfl, hvalue, hparts]
      · refine ⟨cs ++ ['1'], by simp, List.forall_mem_append.mpr ⟨hdigits, hone⟩, ?_⟩
        rw [digitsValue_concat (d := 1) rfl, hvalue, hparts]

end RadixMark

/-- Every number can be written, however great it is. -/
theorem NumberSyntax.exists_read (n : Nat) :
    ∃ numeral, zeroMarked.read numeral = .ok (some (n : Int)) := by
  obtain ⟨cs, hne, hdigits, hvalue⟩ := RadixMark.exists_binary_digits n
  obtain ⟨c, cs, rfl⟩ := List.exists_cons_of_ne_nil hne
  have hmagnitude : RadixMark.magnitude? 2 (c :: cs) = some n := by
    rw [RadixMark.magnitude?, if_pos, hvalue]
    simp only [Bool.and_eq_true, List.all_eq_true, Bool.or_eq_true]
    exact ⟨hdigits c List.mem_cons_self,
      fun d hd => Or.inl (hdigits d (List.mem_cons_of_mem c hd))⟩
  have hminus (ds : List Char) : RadixMark.takeMinus ('0' :: ds) = (false, '0' :: ds) := rfl
  have hdecimal : RadixMark.magnitude? 10 ('0' :: 'b' :: c :: cs) = none := by
    rw [RadixMark.magnitude?]
    rfl
  have hhex : RadixMark.dropMark ['0', 'x'] ('0' :: 'b' :: c :: cs) = none := rfl
  have hbinary : RadixMark.dropMark ['0', 'b'] ('0' :: 'b' :: c :: cs) = some (c :: cs) := rfl
  refine ⟨String.ofList ('0' :: 'b' :: c :: cs), read_eq_some.mpr ⟨?_, ?_⟩⟩
  · have hother : (zeroMarked.marks.any fun m => m.radix == 10 &&
        (m.read? ('0' :: 'b' :: c :: cs)).isSome) = false := by
      simp [zeroMarked, RadixMark.read?, hminus, RadixMark.dropMark, hdecimal]
    rw [isOverlong, String.toList_ofList, hother, Bool.and_false]
  · simp [parse?, zeroMarked, RadixMark.read?, hminus, hhex, hbinary, hmagnitude]

namespace Parva

open Operand Text

/-! ## Directives with a number -/

section Numeral

variable {numeral : String} {n : Int} (hread : dialect.numbers.read numeral = .ok (some n))

include hread

/-- A number consists of the characters of names. -/
theorem name_of_read : numeral.toList ≠ [] ∧ ∀ c ∈ numeral.toList, isNameChar c = true :=
  NumberSyntax.name_of_parse? (NumberSyntax.read_eq_some.mp hread).2

theorem accepts_of_read : operand.Accepts numeral.toList [] := by
  obtain ⟨hne, hname⟩ := name_of_read hread
  exact Or.inl (Pattern.accepts_oneOrMore.mpr ⟨hne, hname, rfl⟩)

theorem isBlank_of_read : ∀ c ∈ numeral.toList, isBlank c = false := fun c hc =>
  isBlank_of_isSeparator (isSeparator_of_isNameChar ((name_of_read hread).2 c hc))

/-- A line with a number behind a word is read as it stands, if the word has no blank at its front
and each mark of a comment has a character that is neither in the word nor in names. -/
theorem instructionOf_numeral {word : String} (hword : word ≠ "")
    (hfirst : ∀ c ∈ word.toList.head?, isBlank c = false)
    (hsigns : (dialect.comments.all fun mark => mark.toList.any fun c =>
      !isNameChar c && !word.toList.contains c) = true) :
    dialect.instructionOf (word ++ numeral) = word ++ numeral := by
  obtain ⟨hne, hname⟩ := name_of_read hread
  have htext : (word ++ numeral).toList = word.toList ++ numeral.toList := String.toList_append
  have hword' : word.toList ≠ [] := fun hnil => hword (String.toList_eq_nil_iff.mp hnil)
  refine Dialect.instructionOf_eq_self rfl (by decide) ?_ ?_ ?_
  · refine Dialect.unmarked_of_lacks fun mark hmark => ?_
    obtain ⟨c, hc, hother⟩ := List.any_eq_true.mp (List.all_eq_true.mp hsigns mark hmark)
    simp only [Bool.and_eq_true, Bool.not_eq_true', List.contains_eq_mem, decide_eq_false_iff_not]
      at hother
    refine ⟨c, hc, fun hmem => ?_⟩
    rcases List.mem_append.mp (htext ▸ hmem) with hmem | hmem
    · exact hother.2 hmem
    · exact absurd (hname c hmem) (by simp [hother.1])
  · rwa [htext, List.head?_append_of_ne_nil _ hword']
  · intro c hc
    rw [htext, List.getLast?_append_of_ne_nil _ hne] at hc
    exact isBlank_of_read hread c (List.mem_of_getLast? hc)

/-- An `.align` line with a number fills up to a multiple of the number. -/
theorem placeLine_align (number : Nat) (p : Program) :
    dialect.placeLine number (".align " ++ numeral) p =
      .ofEdits (p.align n wordSize
        ⟨number, ".align " ++ numeral, ".align " ++ numeral, ".align " ++ numeral⟩) :=
  hasDirectives.placeLine_align rfl (accepts_of_read hread)
    (fun c hc => isBlank_of_read hread c (List.mem_of_mem_head? hc))
    (instructionOf_numeral hread (by decide) (by simp [isBlank]) (by decide)) hread number p

end Numeral

theorem placeLine_address {numeral : String} {n : Nat}
    (hread : dialect.numbers.read numeral = .ok (some (n : Int))) (number : Nat) (p : Program) :
    dialect.placeLine number (".address " ++ numeral) p = ⟨[.moveTo n], none⟩ :=
  hasDirectives.placeLine_address rfl (accepts_of_read hread)
    (fun c hc => isBlank_of_read hread c (List.mem_of_mem_head? hc))
    (instructionOf_numeral hread (by decide) (by simp [isBlank]) (by decide)) hread number p

/-! ## Relocation -/

/-- Behind an `.address` line with a number, which exists for every address, a text comes to the
result that it comes to alone, that many words further up and one line further down: the bits, the
labels and the faults are the same.  The text moves to no address of its own, and it names labels by
relative operands only, directly or as the base of a pair. -/
theorem branches_relocate (text : String) (address : Nat)
    (habsolute : ∀ line ∈ Text.lines text, dialect.isAbsoluteLine line = false)
    (hrelative : dialect.refersRelatively text = true) :
    (∃ numeral, dialect.numbers.read numeral = .ok (some (address : Int))) ∧
      ∀ numeral, dialect.numbers.read numeral = .ok (some (address : Int)) →
        dialect.tryAssemble (".address " ++ numeral ++ "\n" ++ text) =
          (dialect.tryAssemble text).map (·.moved address 1) := by
  refine ⟨NumberSyntax.exists_read address, fun numeral hread => ?_⟩
  have hnewline : '\n' ∉ (".address " ++ numeral).toList := by
    rw [String.toList_append, List.mem_append, not_or]
    refine ⟨by decide, fun hmem => ?_⟩
    exact absurd ((name_of_read hread).2 _ hmem) (by decide)
  have hlines : Text.lines (".address " ++ numeral ++ "\n" ++ text) =
      (".address " ++ numeral) :: Text.lines text := by
    rw [lines_append_newline, lines_of_not_mem hnewline, List.singleton_append]
  exact Dialect.tryAssemble_moved wellFormed hlines (placeLine_address hread 0 _) habsolute
    hrelative

/-- A loop whose branch goes back by a pair, behind a `.start`, and two lines that fail. -/
def countdown : String :=
  "nop\n.start\nloop:\naddi x0, x0, -1\nbnez x0, (loop - 1)\nhalt\nb nowhere"

theorem countdown_relocates :
    (∀ line ∈ Text.lines countdown, dialect.isAbsoluteLine line = false) ∧
      dialect.refersRelatively countdown = true ∧
      dialect.numbers.read "64" = .ok (some 64) ∧
      dialect.tryAssemble (".address " ++ "64" ++ "\n" ++ countdown) =
        .ok ⟨[.label "loop",
          .instruction 65 (Bits.ofText "000000000000111111111111")
            ⟨4, "addi x0, x0, -1", "addi x0, x0, -1", "addi x0, x0, -1"⟩,
          .instruction 66 (Bits.ofText "110011000000111111111110")
            ⟨5, "bnez x0, (loop - 1)", "bnez x0, (loop - 1)", "bne zero, x0, (loop - 1)"⟩],
          [⟨6, .unknownInstruction "halt"⟩, ⟨7, .undefined "nowhere" []⟩]⟩ := by
  have hread : dialect.numbers.read "64" = .ok (some 64) := by decide +kernel
  -- one evaluation for the three facts: each of them asks for the first pass
  obtain ⟨habsolute, hrelative, halone⟩ :
      (∀ line ∈ Text.lines countdown, dialect.isAbsoluteLine line = false) ∧
      dialect.refersRelatively countdown = true ∧
      dialect.tryAssemble countdown =
        .ok ⟨[.label "loop",
          .instruction 1 (Bits.ofText "000000000000111111111111")
            ⟨3, "addi x0, x0, -1", "addi x0, x0, -1", "addi x0, x0, -1"⟩,
          .instruction 2 (Bits.ofText "110011000000111111111110")
            ⟨4, "bnez x0, (loop - 1)", "bnez x0, (loop - 1)", "bne zero, x0, (loop - 1)"⟩],
          [⟨5, .unknownInstruction "halt"⟩, ⟨6, .undefined "nowhere" []⟩]⟩ := by
    decide +kernel
  have hmoved := (branches_relocate countdown 64 habsolute hrelative).2 "64" hread
  rw [halone] at hmoved
  exact ⟨habsolute, hrelative, hread, hmoved⟩

end Parva

end PocketAsm
