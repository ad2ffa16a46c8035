/-
  Proofs/Layout.lean --- where the instructions of a program lie.

  Every line of the output that holds an instruction goes back to the edit that
  placed it: it lies at the address that was the current one then, and it is as
  many words long as the address moved on.  As long as nothing else moves the
  address, the current address is behind all instructions placed so far, which
  is the invariant (`Program.Packed`) that keeps them apart and in order.
-/
import Mathlib
import PocketAsm.Proofs.SecondPass

set_option autoImplicit false

namespace PocketAsm

/-! ## Packed programs -/

/-- The first line, if both are instructions, ends where the second one begins, or before it. -/
def Placed.Before (wordSize : Nat) : Placed → Placed → Prop
  | .instruction address _ parts, .instruction next _ _ =>
    address + partsWidth parts / wordSize ≤ next
  | _, _ => True

/-- The line, if it is an instruction, takes some words, and they lie below the address. -/
def Placed.Below (wordSize limit : Nat) : Placed → Prop
  | .instruction address _ parts =>
    1 ≤ partsWidth parts / wordSize ∧ address + partsWidth parts / wordSize ≤ limit
  | .label .. => True

/-- The instructions lie one behind the other, and the current address behind them all. -/
structure Program.Packed (wordSize : Nat) (p : Program) : Prop where
  ordered : p.lines.toList.Pairwise (Placed.Before wordSize)
  below : ∀ placed ∈ p.lines.toList, placed.Below wordSize p.address

/-- The edit moves the address without placing an instruction. -/
def Edit.isMove : Edit → Bool
  | .moveTo _ => true
  | _ => false

theorem Placed.Below.mono {wordSize limit higher : Nat} {placed : Placed}
    (h : placed.Below wordSize limit) (hle : limit ≤ higher) : placed.Below wordSize higher := by
  cases placed with
  | label name source => exact trivial
  | instruction address source parts => exact ⟨h.1, h.2.trans hle⟩

theorem Placed.Below.before {wordSize limit : Nat} {placed : Placed}
    (h : placed.Below wordSize limit) (source : Source) (parts : List Part) :
    placed.Before wordSize (.instruction limit source parts) := by
  cases placed with
  | label name origin => exact trivial
  | instruction address origin placed => exact h.2

namespace Program

variable {wordSize maxWords : Nat} {p : Program}

theorem packed_start (encoding : Option CharEncoding) : (start encoding).Packed wordSize :=
  ⟨List.Pairwise.nil, nofun⟩

/-- A line added behind the others keeps the program packed, if it comes after all of them and lies
below the new address. -/
theorem Packed.push {q : Program} (hp : p.Packed wordSize) (placed : Placed)
    (hlines : q.lines = p.lines.push placed) (haddress : p.address ≤ q.address)
    (hbefore : ∀ earlier ∈ p.lines.toList, earlier.Before wordSize placed)
    (hbelow : placed.Below wordSize q.address) : q.Packed wordSize := by
  have htoList : q.lines.toList = p.lines.toList ++ [placed] := by rw [hlines, Array.toList_push]
  constructor
  · rw [htoList, List.pairwise_append]
    refine ⟨hp.ordered, List.pairwise_singleton _ _, ?_⟩
    intro earlier hearlier later hlater
    rw [List.mem_singleton.mp hlater]
    exact hbefore earlier hearlier
  · intro other hother
    rw [htoList] at hother
    rcases List.mem_append.mp hother with hother | hother
    · exact (hp.below other hother).mono haddress
    · rw [List.mem_singleton.mp hother]
      exact hbelow

/-- An instruction of the right size is added behind all others. -/
theorem Packed.place (hword : 0 < wordSize) (hp : p.Packed wordSize) {parts : List Part}
    {words : Nat} {source : Source}
    (he : (Edit.place parts words source).Sized wordSize maxWords) :
    (p.apply (.place parts words source)).Packed wordSize := by
  have hwords : partsWidth parts / wordSize = words := by
    rw [he.1]
    exact Nat.mul_div_cancel words hword
  by_cases hkeeps : p.keeps
  · refine hp.push (.instruction p.address source parts) ?_ ?_ ?_ ?_
    · simp [apply, hkeeps]
    · exact Nat.le_add_right p.address words
    · intro earlier hearlier
      exact (hp.below earlier hearlier).before source parts
    · refine ⟨?_, ?_⟩
      · rw [hwords]
        exact he.2.1
      · rw [hwords]
        exact le_rfl
  · have hlines : (p.apply (.place parts words source)).lines = p.lines := by simp [apply, hkeeps]
    refine ⟨?_, ?_⟩
    · rw [hlines]
      exact hp.ordered
    · rw [hlines]
      intro placed hplaced
      exact (hp.below placed hplaced).mono (Nat.le_add_right p.address words)

theorem Packed.apply (hword : 0 < wordSize) (hp : p.Packed wordSize) {e : Edit}
    (he : e.Sized wordSize maxWords) (hmove : e.isMove = false) :
    (p.apply e).Packed wordSize := by
  cases e with
  | place parts words source => exact hp.place hword he
  | label name source =>
    refine hp.push (.label name source) rfl le_rfl ?_ trivial
    intro earlier _
    cases earlier <;> exact trivial
  | resume =>
    by_cases hnone : p.emitting.isNone
    · have hlines : (p.apply .resume).lines = #[] := by simp [Program.apply, hnone]
      refine ⟨?_, ?_⟩ <;> rw [hlines]
      · exact List.Pairwise.nil
      · simp
    · have hlines : (p.apply .resume).lines = p.lines := by simp [Program.apply, hnone]
      refine ⟨?_, ?_⟩ <;> rw [hlines]
      · exact hp.ordered
      · exact hp.below
  | moveTo address => simp [Edit.isMove] at hmove
  | constant name value => exact ⟨hp.ordered, hp.below⟩
  | stop => exact ⟨hp.ordered, hp.below⟩
  | encodeBy encoding => exact ⟨hp.ordered, hp.below⟩

theorem Packed.applyAll (hword : 0 < wordSize) (hp : p.Packed wordSize) {edits : List Edit}
    (hsized : ∀ e ∈ edits, e.Sized wordSize maxWords) (hmove : ∀ e ∈ edits, e.isMove = false) :
    (p.applyAll edits).Packed wordSize :=
  applyAll_induction (Q := fun e => e.Sized wordSize maxWords ∧ e.isMove = false)
    (fun _ _ hq he => hq.apply hword he.1 he.2) edits hp fun e he => ⟨hsized e he, hmove e he⟩

end Program

/-! ## Lines of the output -/

/-- The words that an instruction takes: the address of the first one, and the address behind the
last one. -/
def OutputLine.range? (wordSize : Nat) : OutputLine → Option (Nat × Nat)
  | .label _ => none
  | .instruction address bits _ => some (address, address + bits.length / wordSize)

theorem OutputLine.range?_eq_some {wordSize : Nat} {line : OutputLine} {range : Nat × Nat}
    (h : line.range? wordSize = some range) :
    ∃ address bits source, line = .instruction address bits source ∧
      range = (address, address + bits.length / wordSize) := by
  cases line with
  | label name => simp [range?] at h
  | instruction address bits source => exact ⟨address, bits, source, rfl, (Option.some.inj h).symm⟩

namespace Dialect

variable {dialect : Dialect} {maxWords : Nat} {text : String}

theorem program_eq (hdialect : dialect.WellFormed maxWords) (text : String) :
    (dialect.firstPass text).1 =
      (Program.start dialect.encoding).applyAll (dialect.edits text) := by
  rw [firstPass_eq hdialect]

/-- Every instruction that the first pass keeps was placed by one of its edits, at the address that
was the current one then. -/
theorem exists_place_of_mem_firstPass (hdialect : dialect.WellFormed maxWords) {address : Nat}
    {source : Source} {parts : List Part}
    (h : .instruction address source parts ∈ (dialect.firstPass text).1.lines.toList) :
    ∃ before words after, dialect.edits text = before ++ Edit.place parts words source :: after ∧
      address = ((Program.start dialect.encoding).applyAll before).address := by
  rw [program_eq hdialect] at h
  rcases Program.exists_place_of_mem_lines (Array.mem_def.mpr h) with h | h
  · simp [Program.start] at h
  · exact h

/-- The size of an instruction that the first pass keeps. -/
theorem sized_of_mem_firstPass (hdialect : dialect.WellFormed maxWords) {address : Nat}
    {source : Source} {parts : List Part}
    (h : .instruction address source parts ∈ (dialect.firstPass text).1.lines.toList) :
    ∃ words, partsWidth parts = words * dialect.wordSize ∧ 1 ≤ words ∧ words ≤ maxWords := by
  obtain ⟨before, words, after, hedits, _⟩ := exists_place_of_mem_firstPass hdialect h
  have hmem : .place parts words source ∈ dialect.edits text := by simp [hedits]
  exact ⟨words, sized_of_mem_edits hdialect text _ hmem⟩

/-- The second pass only fails for operands. -/
theorem isOperand_of_mem_failed (hdialect : dialect.WellFormed maxWords) {d : Diagnostic}
    (h : d ∈ failed (dialect.secondPass (dialect.firstPass text).1)) :
    d.fault.isOperand = true := by
  obtain ⟨placed, hmem, hresolve⟩ := List.mem_map.mp (mem_failed.mp h)
  obtain ⟨address, source, parts, rfl, hbits⟩ := resolveLine_eq_error hresolve
  obtain ⟨words, hwidth, hleast, hmost⟩ := sized_of_mem_firstPass hdialect hmem
  exact isOperand_of_instructionBits hdialect hwidth hleast hmost hbits

/-- An instruction of the output with the edit that placed it. -/
theorem exists_place_of_mem_assemble (hdialect : dialect.WellFormed maxWords) {address : Nat}
    {bits : Bits} {source : Source}
    (h : .instruction address bits source ∈ (dialect.assemble text).lines) :
    ∃ before parts words after,
      dialect.edits text = before ++ Edit.place parts words source :: after ∧
      address = ((Program.start dialect.encoding).applyAll before).address ∧
      bits.length = words * dialect.wordSize := by
  obtain ⟨placed, hmem, hresolve⟩ := List.mem_map.mp (mem_finished.mp h)
  obtain ⟨parts, rfl, hbits⟩ := resolveLine_eq_instruction hresolve
  obtain ⟨before, words, after, hedits, haddress⟩ := exists_place_of_mem_firstPass hdialect hmem
  have hplace : .place parts words source ∈ dialect.edits text := by simp [hedits]
  have hsized := sized_of_mem_edits hdialect text _ hplace
  refine ⟨before, parts, words, after, hedits, haddress, ?_⟩
  rw [Symbols.length_of_partsBits (partsBits_of_instructionBits hbits), hsized.1]

/-! ## Lines that move the address -/

/-- The text is an `.address` directive. -/
def isAddressLine (dialect : Dialect) (raw : String) : Bool :=
  match Rule.find? dialect.rules (dialect.instructionOf raw).toList with
  | some (.address _) => true
  | _ => false

/-- The line with the given number is an `.address` line that takes effect: the first pass does not
report it. -/
def movesAddress (dialect : Dialect) (text : String) (number : Nat) : Bool :=
  (Text.lines text)[number]?.any dialect.isAddressLine &&
    !reports (dialect.firstPass text).2.toList number

/-- An edit that moves the address comes from an `.address` line that is not reported. -/
theorem exists_address_of_mem_passEdits (hdialect : dialect.WellFormed maxWords) {address : Nat} :
    ∀ (lines : List String) (number : Nat) (p : Program),
      .moveTo address ∈ dialect.passEdits number lines p →
      ∃ i raw, lines[i]? = some raw ∧ dialect.isAddressLine raw = true ∧
        reports (dialect.passFaults number lines p) (number + i) = false := by
  intro lines
  induction lines with
  | nil => intro number p h; simp [passEdits] at h
  | cons raw rest ih =>
    intro number p h
    cases hfault : (dialect.placeLine number raw p).fault with
    | some e =>
      rw [passEdits_of_fault hfault] at h
      obtain ⟨i, line, hline, haddress, hreports⟩ := ih (number + 1) p h
      refine ⟨i + 1, line, hline, haddress, ?_⟩
      rw [passFaults_of_fault hfault, reports_cons_of_lt e _ (by omega), Nat.add_comm i 1,
        ← Nat.add_assoc]
      exact hreports
    | none =>
      rw [passEdits_of_ok hfault] at h
      rw [passFaults_of_ok hfault]
      rcases List.mem_append.mp h with h | h
      · obtain ⟨value, hfind⟩ := address_of_mem_moveTo hdialect h
        have haddress : dialect.isAddressLine raw = true := by simp only [isAddressLine, hfind]
        exact ⟨0, raw, rfl, haddress, reports_passFaults_succ number rest _⟩
      · obtain ⟨i, line, hline, haddress, hreports⟩ := ih (number + 1) _ h
        refine ⟨i + 1, line, hline, haddress, ?_⟩
        rw [Nat.add_comm i 1, ← Nat.add_assoc]
        exact hreports

theorem isMove_of_mem_edits (hdialect : dialect.WellFormed maxWords)
    (hstays : ∀ number < (Text.lines text).length, dialect.movesAddress text number = false) :
    ∀ e ∈ dialect.edits text, e.isMove = false := by
  intro e he
  cases e with
  | moveTo address =>
    obtain ⟨i, raw, hline, haddress, hreports⟩ := exists_address_of_mem_passEdits hdialect _ _ _ he
    have hi : i < (Text.lines text).length := (List.getElem?_eq_some_iff.mp hline).1
    have hmoves : dialect.movesAddress text i = true := by
      rw [Nat.zero_add] at hreports
      simp [movesAddress, hline, haddress, firstPass_eq hdialect, hreports]
    simp [hstays i hi] at hmoves
  | _ => rfl

/-- Without moves of the address, the instructions of the output lie one behind the other. -/
theorem ranges_pairwise (hdialect : dialect.WellFormed maxWords)
    (hstays : ∀ number < (Text.lines text).length, dialect.movesAddress text number = false) :
    ((dialect.assemble text).lines.filterMap (OutputLine.range? dialect.wordSize)).Pairwise
      fun s t => s.1 < s.2 ∧ s.2 ≤ t.1 := by
  have hword : 0 < dialect.wordSize := lt_of_lt_of_le (by decide) hdialect.eight_le_wordSize
  have hpacked : (dialect.firstPass text).1.Packed dialect.wordSize := by
    rw [program_eq hdialect]
    exact (Program.packed_start dialect.encoding).applyAll hword (sized_of_mem_edits hdialect text)
      (isMove_of_mem_edits hdialect hstays)
  rw [List.pairwise_filterMap]
  refine pairwise_finished (List.pairwise_map.mpr ?_)
  refine hpacked.ordered.imp_of_mem ?_
  intro first second hfirst _ hbefore line hline line' hline' s hs t ht
  -- both lines are instructions, with as many bits as their parts announce
  obtain ⟨address, bits, source, rfl, rfl⟩ := OutputLine.range?_eq_some hs
  obtain ⟨address', bits', source', rfl, rfl⟩ := OutputLine.range?_eq_some ht
  obtain ⟨parts, rfl, hbits⟩ := resolveLine_eq_instruction hline
  obtain ⟨parts', rfl, _⟩ := resolveLine_eq_instruction hline'
  have hlength := Symbols.length_of_partsBits (partsBits_of_instructionBits hbits)
  have hbelow := hpacked.below _ hfirst
  simp only [Placed.Before, Placed.Below, ← hlength] at hbefore hbelow
  exact ⟨by simp only; omega, hbefore⟩

/-! ## Layout -/

/-- For every text: what a line places fills the words that the address moves on by, so that no
instruction is refused for its width; every instruction of the output lies where the address was and
is as long as it moved on; and if no `.address` line takes effect, these words are disjoint and in
order. -/
theorem instructions_fill_their_words {a : Architecture} (ha : a ∈ Architecture.all)
    (text : String) :
    (∀ before raw after, Text.lines text = before ++ raw :: after →
      ∀ parts words source,
        .place parts words source ∈ (a.dialect.placeLine before.length raw
          (a.dialect.placeLines 0 before (.start a.dialect.encoding) #[]).1).edits →
        partsWidth parts = words * a.wordSize ∧ 1 ≤ words ∧ words ≤ a.maxWords) ∧
    (∀ d ∈ failed (a.dialect.secondPass (a.dialect.firstPass text).1),
      ∀ shown width expected, d.fault ≠ .badWidth shown width expected) ∧
    (a.dialect.firstPass text).1 =
      (Program.start a.dialect.encoding).applyAll (a.dialect.edits text) ∧
    (∀ address bits source, .instruction address bits source ∈ (a.dialect.assemble text).lines →
      ∃ before parts words after,
        a.dialect.edits text = before ++ .place parts words source :: after ∧
        ((Program.start a.dialect.encoding).applyAll before).address = address ∧
        ((Program.start a.dialect.encoding).applyAll
          (before ++ [.place parts words source])).address = address + words ∧
        bits.length = words * a.wordSize) ∧
    ((∀ number < (Text.lines text).length, a.dialect.movesAddress text number = false) →
      ((a.dialect.assemble text).lines.filterMap (OutputLine.range? a.wordSize)).Pairwise
        fun s t => s.1 < t.1 ∧ Disjoint (Set.Ico s.1 s.2) (Set.Ico t.1 t.2)) := by
  have hdialect := Architecture.wellFormed ha
  refine ⟨?_, ?_, program_eq hdialect text, ?_, ?_⟩
  · intro before raw after _ parts words source hmem
    exact sized_of_mem_placeLine hdialect (fits_placeLines hdialect before) _ hmem
  · intro d hd shown width expected hfault
    have hoperand := isOperand_of_mem_failed hdialect hd
    simp [hfault, Fault.isOperand] at hoperand
  · intro address bits source hmem
    obtain ⟨before, parts, words, after, hedits, rfl, hlength⟩ :=
      exists_place_of_mem_assemble hdialect hmem
    refine ⟨before, parts, words, after, hedits, rfl, ?_, hlength⟩
    rw [Program.applyAll_append]
    rfl
  · intro hstays
    refine (ranges_pairwise hdialect hstays).imp ?_
    intro s t hst
    refine ⟨hst.1.trans_le hst.2, Set.disjoint_left.mpr ?_⟩
    intro address hs ht
    exact absurd (hs.2.trans_le (hst.2.trans ht.1)) (lt_irrefl address)

/-- An instruction of two words between two of one word, and an `.address` line that fails. -/
theorem jump_between_data_fills_its_words :
    let dialect := Architecture.v8.dialect
    let text := ".data 1\njmp 5\n.address -1\n.data 2"
    let ranges := (dialect.assemble text).lines.filterMap (OutputLine.range? 8)
    ranges = [(0, 1), (1, 3), (3, 4)] ∧
    ranges.Pairwise (fun s t => s.1 < t.1 ∧ Disjoint (Set.Ico s.1 s.2) (Set.Ico t.1 t.2)) ∧
    ∀ d ∈ failed (dialect.secondPass (dialect.firstPass text).1),
      ∀ shown width expected, d.fault ≠ .badWidth shown width expected := by
  intro dialect text ranges
  have hall : Architecture.v8 ∈ Architecture.all := by simp [Architecture.all]
  obtain ⟨-, hwidths, -, -, hranges⟩ := instructions_fill_their_words hall text
  obtain ⟨hstays, hfound⟩ :
      (∀ number < (Text.lines text).length, dialect.movesAddress text number = false) ∧
        ranges = [(0, 1), (1, 3), (3, 4)] := by
    decide +kernel
  exact ⟨hfound, hranges hstays, hwidths⟩

end Dialect

end PocketAsm
