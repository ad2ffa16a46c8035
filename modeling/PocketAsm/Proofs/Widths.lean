/-
  Proofs/Widths.lean --- the bits of an instruction fill the words it takes.

  An edit that places an instruction says twice how long it is: by the widths of
  its parts and by the number of words that the address moves on.  The two
  agree for every edit of every line (`sized_of_mem_placeLine`).  Fields agree
  by the rule tables; data and padding are whole words; the characters of a
  string fit their word because the encoding in force does (`Program.Fits`),
  which is the invariant that a run of edits keeps.
-/
import PocketAsm.Proofs.FirstPass

set_option autoImplicit false

namespace PocketAsm

/-! ## Sizes -/

/-- The parts of a placed instruction fill its words, which are few enough, and a new encoding has
characters that fit a word. -/
def Edit.Sized (wordSize maxWords : Nat) : Edit → Prop
  | .place parts words _ => partsWidth parts = words * wordSize ∧ 1 ≤ words ∧ words ≤ maxWords
  | .encodeBy encoding => encoding.width ≤ wordSize
  | _ => True

/-- A character of the encoding in force fits a word. -/
def Program.Fits (wordSize : Nat) (p : Program) : Prop :=
  ∀ encoding, p.encoding = some encoding → encoding.width ≤ wordSize

theorem Program.Fits.apply {wordSize maxWords : Nat} {p : Program} {e : Edit}
    (hp : p.Fits wordSize) (he : e.Sized wordSize maxWords) : (p.apply e).Fits wordSize := by
  cases e with
  | encodeBy encoding =>
    intro found hfound
    rw [← Option.some.inj hfound]
    exact he
  | _ => exact hp

theorem Program.Fits.applyAll {wordSize maxWords : Nat} {p : Program} {edits : List Edit}
    (hp : p.Fits wordSize) (hedits : ∀ e ∈ edits, e.Sized wordSize maxWords) :
    (p.applyAll edits).Fits wordSize :=
  Program.applyAll_induction (fun _ _ hq he => hq.apply he) edits hp hedits

@[simp] theorem partsWidth_nil : partsWidth [] = 0 := rfl

@[simp] theorem partsWidth_cons (part : Part) (parts : List Part) :
    partsWidth (part :: parts) = part.width + partsWidth parts := rfl

namespace Dialect

variable {dialect : Dialect} {maxWords : Nat}

/-! ## Fields -/

theorem width_of_fieldPart {p : Program} {field : Field} {part : Part} {n : Nat}
    (h : dialect.fieldPart p field = .ok part) (hn : field.HasWidth n) : part.width = n := by
  cases field with
  | bits fixed =>
    rw [← Except.ok.inj h]
    exact hn
  | register code =>
    cases code with
    | error e => simp [fieldPart] at h
    | ok found =>
      rw [← Except.ok.inj h]
      exact hn found rfl
  | value text width signed relative => exact (width_of_operand h).trans hn

/-- The parts made from fields are together as wide as the fields. -/
theorem partsWidth_of_fieldParts {p : Program} {fields : List Field} {total : Nat}
    (hfields : Fills fields total) {parts : List Part}
    (h : dialect.fieldParts p fields = .ok parts) : partsWidth parts = total := by
  obtain ⟨widths, hwidths, rfl⟩ := hfields
  induction hwidths generalizing parts with
  | nil =>
    rw [← Except.ok.inj h]
    rfl
  | cons hfield _ ih =>
    rw [fieldParts] at h
    split at h
    · simp at h
    · rename_i part hpart
      split at h
      · simp at h
      · rename_i rest hrest
        rw [← Except.ok.inj h, partsWidth_cons, width_of_fieldPart hpart hfield, ih hrest,
          List.sum_cons]

/-! ## Strings -/

/-- The bits of characters: one string of the width of the encoding for each of them. -/
theorem length_of_characterBits {encoding : CharEncoding} :
    ∀ {characters : List String} {bits : List Bits},
      characterBits encoding characters = .ok bits →
      bits.flatten.length = characters.length * encoding.width := by
  intro characters
  induction characters with
  | nil =>
    intro bits h
    rw [← Except.ok.inj h]
    simp
  | cons c cs ih =>
    intro bits h
    rw [characterBits] at h
    split at h
    · simp at h
    · split at h
      · simp at h
      · rename_i first hfirst
        split at h
        · simp at h
        · rename_i rest hrest
          rw [← Except.ok.inj h, List.flatten_cons, List.length_append, ih hrest,
            Bits.length_of_encode hfirst, List.length_cons]
          ring

/-- The characters that a word takes fit it. -/
theorem perWord_mul_width_le {encoding : CharEncoding} {wordSize : Nat}
    (h : encoding.width ≤ wordSize) :
    encoding.perWord wordSize * encoding.width ≤ wordSize := by
  unfold CharEncoding.perWord
  split
  · rcases Nat.le_total 1 (wordSize / encoding.width) with hmany | hfew
    · rw [Nat.max_eq_right hmany]
      exact Nat.div_mul_le_self wordSize encoding.width
    · rw [Nat.max_eq_left hfew, Nat.one_mul]
      exact h
  · rw [Nat.one_mul]
    exact h

/-- A word of characters is a whole word. -/
theorem length_characterWord {encoding : CharEncoding} {wordSize : Nat} {characters : List String}
    {bits : List Bits} (hwidth : encoding.width ≤ wordSize)
    (hfew : characters.length ≤ encoding.perWord wordSize)
    (hbits : characterBits encoding characters = .ok bits) :
    (characterWord wordSize bits).length = wordSize := by
  have hlength : bits.reverse.flatten.length ≤ wordSize := by
    calc bits.reverse.flatten.length
        = bits.flatten.length := (List.reverse_perm bits).flatten.length_eq
      _ = characters.length * encoding.width := length_of_characterBits hbits
      _ ≤ encoding.perWord wordSize * encoding.width := Nat.mul_le_mul_right _ hfew
      _ ≤ wordSize := perWord_mul_width_le hwidth
  simp only [characterWord, List.length_append, List.length_replicate]
  omega

theorem width_le_of_find? {name : String} {encoding : CharEncoding}
    (h : CharEncoding.find? name = some encoding) : encoding.width ≤ 8 := by
  unfold CharEncoding.find? at h
  split at h
  · rw [← Option.some.inj h]
    decide
  · split at h
    · rw [← Option.some.inj h]
      decide
    · simp at h

/-! ## Lines -/

theorem sized_singleton {part : Part} {words : Nat} {source : Source}
    (hwidth : part.width = words * dialect.wordSize) (hleast : 1 ≤ words)
    (hmost : words ≤ maxWords) :
    (Edit.place [part] words source).Sized dialect.wordSize maxWords :=
  ⟨by simpa using hwidth, hleast, hmost⟩

/-- What a well-formed action does to a program with a fitting encoding has the right size. -/
theorem Makes.sized (hdialect : dialect.WellFormed maxWords) {p : Program} {action : Action}
    {e : Edit} (h : dialect.Makes p action e)
    (haction : action.WellFormed dialect.wordSize maxWords) (hp : p.Fits dialect.wordSize) :
    e.Sized dialect.wordSize maxWords := by
  have hone : 1 ≤ maxWords := hdialect.one_le_maxWords
  cases e with
  | place parts words source =>
    cases action with
    | emit fields n mark =>
      obtain ⟨hparts, rfl⟩ := h
      obtain ⟨hleast, hmost, hfills⟩ := haction
      exact ⟨partsWidth_of_fieldParts hfills hparts, hleast, hmost⟩
    | data items symbolWords =>
      obtain ⟨part, rfl, hwidth, rfl | rfl⟩ := h
      · exact sized_singleton hwidth le_rfl hone
      · exact sized_singleton hwidth haction.1 haction.2
    | «repeat» item count symbolWords =>
      obtain ⟨part, rfl, hwidth, rfl | rfl⟩ := h
      · exact sized_singleton hwidth le_rfl hone
      · exact sized_singleton hwidth haction.1 haction.2
    | align boundary =>
      obtain ⟨rfl, rfl⟩ := h
      exact sized_singleton (by simp [Part.width]) le_rfl hone
    | string literal =>
      obtain ⟨encoding, characters, bits, hencoding, hfew, hbits, rfl, rfl⟩ := h
      have hlength := length_characterWord (hp encoding hencoding) hfew hbits
      exact sized_singleton (by simpa [Part.width] using hlength) le_rfl hone
    | _ => exact h.elim
  | encodeBy encoding =>
    cases action with
    | encoding name => exact (width_le_of_find? h).trans hdialect.eight_le_wordSize
    | _ => exact h.elim
  | _ => exact trivial

/-- Every edit of every line has the right size, also where the line fails later on. -/
theorem sized_of_mem_placeLine (hdialect : dialect.WellFormed maxWords) {number : Nat}
    {raw : String} {p : Program} (hp : p.Fits dialect.wordSize) :
    ∀ e ∈ (dialect.placeLine number raw p).edits, e.Sized dialect.wordSize maxWords := by
  refine placeText_forall (P := Program.Fits dialect.wordSize) (R := fun _ => True)
    (fun _ _ hq he => hq.apply he) (fun _ _ _ _ _ => trivial) ?_ _ _ _ p trivial hp
  intro text action _ hfind source q hq e he
  exact (makes_of_mem_perform he).sized hdialect (hdialect.action hfind) hq

/-! ## Passes -/

theorem fits_start (hdialect : dialect.WellFormed maxWords) :
    (Program.start dialect.encoding).Fits dialect.wordSize := hdialect.encoding

theorem sized_of_mem_passEdits (hdialect : dialect.WellFormed maxWords) :
    ∀ (lines : List String) (number : Nat) {p : Program}, p.Fits dialect.wordSize →
      ∀ e ∈ dialect.passEdits number lines p, e.Sized dialect.wordSize maxWords := by
  intro lines
  induction lines with
  | nil => intro number p _ e he; simp [passEdits] at he
  | cons raw rest ih =>
    intro number p hp e he
    have hline : ∀ e ∈ (dialect.placeLine number raw p).edits, e.Sized dialect.wordSize maxWords :=
      sized_of_mem_placeLine hdialect hp
    cases hfault : (dialect.placeLine number raw p).fault with
    | some fault =>
      rw [passEdits_of_fault hfault] at he
      exact ih (number + 1) hp e he
    | none =>
      rw [passEdits_of_ok hfault] at he
      rcases List.mem_append.mp he with he | he
      · exact hline e he
      · exact ih (number + 1) (hp.applyAll hline) e he

/-- The encoding in force fits after any number of lines. -/
theorem fits_placeLines (hdialect : dialect.WellFormed maxWords) (lines : List String) :
    (dialect.placeLines 0 lines (.start dialect.encoding) #[]).1.Fits dialect.wordSize := by
  rw [placeLines_eq hdialect]
  exact (fits_start hdialect).applyAll
    (sized_of_mem_passEdits hdialect lines 0 (fits_start hdialect))

theorem sized_of_mem_edits (hdialect : dialect.WellFormed maxWords) (text : String) :
    ∀ e ∈ dialect.edits text, e.Sized dialect.wordSize maxWords :=
  sized_of_mem_passEdits hdialect _ 0 (fits_start hdialect)

end Dialect

end PocketAsm
