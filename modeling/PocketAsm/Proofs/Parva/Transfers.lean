/-
  Proofs/Parva/Transfers.lean --- loads and stores have the effect that is written.

  A load or store takes an offset before a base in parentheses, or an address
  alone, which is an offset from the register `zero`.  The offset is a register
  or a number; where it is the name of a register, the rule for registers comes
  first (`indexed_registerName`).  A line with an address alone is expanded into
  one with the base `(zero)`, which no rule expands again
  (`not_spelled_based`).

  With the computations this settles all lines of `Statement.read?`
  (`instruction_has_its_effect`).
-/
import PocketAsm.Proofs.Parva.Computation
import PocketAsm.Proofs.Tokens

set_option autoImplicit false

namespace PocketAsm.Parva

open Operand Pattern Text

/-! ## The machine -/

namespace Access

/-- The code of two bits of an access. -/
def kind : Access → Nat
  | .lw => 0
  | .sw => 1
  | .ld => 2
  | .sd => 3

/-- The digits of the code. -/
def digits : Access → String
  | .lw => "00"
  | .sw => "01"
  | .ld => "10"
  | .sd => "11"

/-- The bits of the register that is loaded or stored. -/
def destination : Access → String → Except Fault Bits
  | .lw | .sw => basic
  | .ld | .sd => double

theorem toNat_digits (access : Access) :
    Bits.toNat (Bits.ofText "10" ++ Bits.ofText access.digits) = 8 + access.kind := by
  cases access <;> decide

/-- The register of an access is found by its code; the first half of a double one is even. -/
theorem exists_index {access : Access} {name : String} {bits : Bits}
    (h : access.destination name = .ok bits) :
    ∃ index : RegisterIndex, access.index? name = some index ∧
      (access.isDouble = true → index.val % 2 = 0) ∧ bits.length = 3 ∧
      Bits.toNat bits = index.val := by
  have hbasic (h : basic name = .ok bits) : ∃ index : RegisterIndex,
      basicIndex? name = some index ∧ bits.length = 3 ∧ Bits.toNat bits = index.val := by
    obtain ⟨index, hname, hlength, hnat⟩ := exists_index_of_basic h
    exact ⟨index, by rw [basicIndex?, hname]; rfl, hlength, hnat⟩
  cases access with
  | lw | sw =>
    obtain ⟨index, hname, hlength, hnat⟩ := hbasic h
    exact ⟨index, hname, by simp [isDouble], hlength, hnat⟩
  | ld | sd =>
    obtain ⟨index, hname, heven, hlength, hnat⟩ := exists_index_of_double h
    exact ⟨index, hname, fun _ => heven, hlength, hnat⟩

theorem isRegister_of_destination {access : Access} {name : String} {bits : Bits}
    (h : access.destination name = .ok bits) : isRegister name = true := by
  cases access with
  | lw | sw => exact isRegister_of_basic h
  | ld | sd => exact isRegister_of_double h

end Access

/-- The second half of a double register. -/
theorem second_half : ∀ index : RegisterIndex, index.val % 2 = 0 →
    RegisterIndex.ofNat (index.val ||| 1) = index + 1 ∧
      RegisterIndex.ofNat (index.val + 1) = index + 1 := by
  decide

/-- An access at an address that belongs to no device. -/
theorem transfer_layout {s : State} {access : Access} {index : RegisterIndex} {a low flag : Nat}
    (hflag : flag < 2) (ha : a < 16) (hlow : low < 4096)
    (heven : access.isDouble = true → index.val % 2 = 0) :
    let f : Fields := ⟨layout ((8 + access.kind) * 2 + flag) a index.val low⟩
    let address := ((s.single a + signedSource s f) % wordCount).toNat
    address < deviceBase → transfer s f = access.perform s index address := by
  intro f address haddress
  have hspan : Bits.span 1 = 2 ∧ Bits.span 2 = 4 := by decide
  have hkind : access.kind < 4 := by cases access <;> decide
  have hdouble : f.bits 21 1 = access.kind / 2 := by
    rw [Fields.bits_layout ha index.isLt hlow 2 1, hspan.1, hspan.2]
    omega
  have hstore : f.bits 20 1 = access.kind % 2 := by
    rw [Fields.bits_layout ha index.isLt hlow 1 1, hspan.1]
    omega
  have hfa : f.a = a := Fields.a_layout ha index.isLt hlow
  have hfd : f.d = index := by rw [Fields.d_layout index.isLt hlow, ofNat_val]
  have hoffset : (if f.usesImmediate then f.signedImmediate else (s.reg f.b : Int)) =
      signedSource s f := rfl
  simp only [transfer, hfa, hfd, hdouble, hstore, hoffset]
  rw [if_neg (Nat.not_le.mpr haddress)]
  cases access with
  | lw => rfl
  | sw => rfl
  | ld => simp [Access.kind, Access.perform, (second_half index (heven rfl)).2, address]
  | sd => simp [Access.kind, Access.perform, (second_half index (heven rfl)).1, address]

section Encoded

variable {p : Program} {symbols : Symbols} {bits : Bits} {access : Access} {d a : String}
  {b : Second}

/-- A load or store carries out what is written. -/
theorem carriesOut_transfer
    (h : dialect.Encodes p symbols (code "10" :: code access.digits :: code b.flag ::
      .register (single a) :: .register (access.destination d) :: b.fields true) bits) :
    isRegister d = true ∧ isRegister a = true ∧ (∀ name, b = .register name → isRegister name) ∧
      CarriesOut bits (valueIn p symbols) (.transfer access d a b) := by
  obtain ⟨x, y, low, hx, hy, hlow, hnumber⟩ := layout_of_encodes
    (Dialect.encodes_bits_bits.mp (Dialect.encodes_bits_bits.mp h))
  obtain ⟨register, hregister, hlength₁, hbelow, hvalue⟩ := exists_register_of_single hx
  obtain ⟨index, hindex, heven, hlength₂, hnat⟩ := Access.exists_index hy
  obtain ⟨hlength₃, hsmall, hsecond⟩ := second_of_encodes hlow
  have hname : ∀ name, b = .register name → isRegister name := by
    rintro name rfl
    exact isRegister_of_fields hlow
  refine ⟨Access.isRegister_of_destination hy, isRegister_of_single hx, hname,
    fun s _ hword hdevice => ?_⟩
  obtain ⟨hflag, hflag₁⟩ := b.toNat_flag
  have hspan : Bits.span 1 = 2 := by decide
  have hkind : access.kind < 4 := by cases access <;> decide
  have hflag2 : (if b.isImmediate then 0 else 1) < 2 := by split <;> decide
  rw [hnumber hlength₁ hlength₂ hlength₃, hnat, Bits.toNat_append, access.toNat_digits, hflag,
    hflag₁, hspan] at hword
  obtain ⟨z, hz, hsigned, -⟩ := hsecond s
    ((8 + access.kind) * 2 + (if b.isImmediate then 0 else 1)) (Bits.toNat x) index.val (by omega)
    (by omega) index.isLt
  have haddress : Statement.address? (valueIn p symbols) s a b =
      some (((register.value s + z) % wordCount).toNat) := by
    simp [Statement.address?, State.named?, hregister, hz]
  have hbelow' : ((register.value s + z) % wordCount).toNat < deviceBase := by
    refine hdevice _ ?_
    rw [Statement.touched, haddress]
    cases access.isDouble <;> simp
  refine ⟨access.perform s index ((register.value s + z) % wordCount).toNat, ?_, ?_⟩
  · simp [Statement.effect?, hindex, haddress]
  · rw [step_transfer (by omega) (by omega) (by omega) index.isLt hsmall hword,
      transfer_layout hflag2 (by omega) hsmall heven (by rwa [hvalue, hsigned rfl]), hvalue,
      hsigned rfl]

end Encoded

/-! ## Addresses as text -/

theorem dropWhile_run {q : Char → Bool} {run rest : List Char} (hrun : ∀ c ∈ run, q c = true)
    (hrest : ∀ c ∈ rest.head?, q c = false) : (run ++ rest).dropWhile q = rest := by
  rw [List.dropWhile_append_of_pos hrun, dropWhile_eq_self hrest]

/-- Blanks around a text that has none at its ends are trimmed. -/
theorem trim_blanks {before cs after : List Char} (hbefore : ∀ c ∈ before, isBlank c = true)
    (hafter : ∀ c ∈ after, isBlank c = true) (hcs : ∀ c ∈ cs, isBlank c = false) (hne : cs ≠ []) :
    trim isBlank (before ++ (cs ++ after)) = cs := by
  have hhead : ∀ c ∈ (cs ++ after).head?, isBlank c = false := by
    obtain ⟨c, rest, rfl⟩ := List.exists_cons_of_ne_nil hne
    simpa using hcs c List.mem_cons_self
  have hlast : ∀ c ∈ cs.reverse.head?, isBlank c = false := by
    intro c hc
    exact hcs c (List.mem_reverse.mp (List.mem_of_mem_head? hc))
  rw [trim, trimLeft, dropWhile_run hbefore hhead, trimRight, List.reverse_append,
    dropWhile_run (fun c hc => hafter c (List.mem_reverse.mp hc)) hlast, List.reverse_reverse]

/-- A text that begins with no separator and ends with no blank. -/
def Ends (cs : List Char) : Prop := Solid cs ∧ ∃ front c, cs = front ++ [c] ∧ isBlank c = false

theorem ends_of_operand {cs : List Char} (h : Parva.operand.Accepts cs []) : Ends cs := by
  obtain ⟨front, c, hcs, hc⟩ := operand_last h
  exact ⟨solid_of_operand h, front, c, hcs, isBlank_of_isSeparator hc⟩

theorem ends_of_isRegister {cs : List Char} (h : isRegister (String.ofList cs) = true) :
    Ends cs := by
  have hplain := plain_of_isRegister h
  have hne := (letters_of_isRegister h).1
  rw [String.toList_ofList] at hne
  refine ⟨hplain.solid hne, cs.dropLast, cs.getLast hne, ?_, ?_⟩
  · exact (List.dropLast_append_getLast hne).symm
  · exact isBlank_of_isSeparator (hplain _ (List.getLast_mem hne))

/-- An offset before a base in parentheses is read as such. -/
theorem addressing_based {b x₁ x₂ a x₃ : List Char}
    (hb : ∃ front c, b = front ++ [c] ∧ isBlank c = false)
    (hx₁ : ∀ c ∈ x₁, isBlank c = true) (hx₂ : ∀ c ∈ x₂, isBlank c = true)
    (hx₃ : ∀ c ∈ x₃, isBlank c = true) (ha : isRegister (String.ofList a) = true) :
    Statement.addressing
      (String.ofList (b ++ (x₁ ++ ('(' :: (x₂ ++ (a ++ (x₃ ++ [')']))))))) =
      (String.ofList b, String.ofList a) := by
  obtain ⟨hne, hletters⟩ := letters_of_isRegister ha
  rw [String.toList_ofList] at hne hletters
  have hopen : ∀ c ∈ (x₂ ++ (a ++ x₃)).reverse, (c != '(') = true := by
    intro c hc
    have hblank {c : Char} (h : isBlank c = true) : (c != '(') = true := by
      rw [bne_iff_ne]
      rintro rfl
      exact absurd h (by decide)
    simp only [List.mem_reverse, List.mem_append] at hc
    rcases hc with hc | hc | hc
    · exact hblank (hx₂ c hc)
    · rw [bne_iff_ne]
      rintro rfl
      exact absurd (hletters _ hc) (by decide)
    · exact hblank (hx₃ c hc)
  have hreverse : (b ++ (x₁ ++ ('(' :: (x₂ ++ (a ++ (x₃ ++ [')'])))))).reverse =
      ')' :: ((x₂ ++ (a ++ x₃)).reverse ++ ('(' :: (x₁.reverse ++ b.reverse))) := by
    simp
  obtain ⟨front, c, rfl, hc⟩ := hb
  have hfront : (x₁.reverse ++ (front ++ [c]).reverse).dropWhile isBlank =
      (front ++ [c]).reverse := by
    refine dropWhile_run (fun c hc => hx₁ c (List.mem_reverse.mp hc)) ?_
    simpa using hc
  have hplain : ∀ c ∈ a, isBlank c = false := fun c hc =>
    isBlank_of_isSeparator (plain_of_isRegister ha c hc)
  rw [Statement.addressing, String.toList_ofList, hreverse]
  simp only [List.takeWhile_append_of_pos hopen, List.dropWhile_append_of_pos hopen]
  simp only [bne_self_eq_false, Bool.false_eq_true, not_false_eq_true, List.takeWhile_cons_of_neg,
    List.dropWhile_cons_of_neg, List.append_nil, List.drop_one, List.tail_cons, hfront,
    List.reverse_reverse, trim_blanks hx₂ hx₃ hplain hne]
  simp

/-- An operand alone is an offset from zero. -/
theorem addressing_operand {cs : List Char} (h : Parva.operand.Accepts cs []) :
    Statement.addressing (String.ofList cs) = (String.ofList cs, "zero") := by
  rw [Statement.addressing, String.toList_ofList]
  split
  · rename_i rest hreverse
    have hcs : cs = rest.reverse ++ [')'] := by
      rw [← List.reverse_reverse cs, hreverse, List.reverse_cons]
    obtain ⟨-, hall⟩ | ⟨inner, hinner, hopen⟩ | ⟨sign, inner, -, hquoted⟩ := operand_shape h
    · exact absurd (hall ')' (by simp [hcs])) (by decide)
    · -- the last parenthesis that opens is the first character
      have hrest : rest = inner.reverse ++ ['('] := by
        have hboth : rest.reverse ++ [')'] = ('(' :: inner) ++ [')'] := hcs.symm.trans hinner
        rw [← List.reverse_reverse rest, List.append_cancel_right hboth, List.reverse_cons]
      have hall : ∀ c ∈ inner.reverse, (c != '(') = true := by
        intro c hc
        rw [bne_iff_ne]
        rintro rfl
        exact hopen (List.mem_reverse.mp hc)
      rw [hrest, List.dropWhile_append_of_pos hall]
      rfl
    · have hlast := congrArg List.getLast? (hcs.symm.trans hquoted)
      rw [← List.cons_append, ← List.append_assoc, List.getLast?_append, List.getLast?_append]
        at hlast
      simp at hlast
  · rfl

/-! ## Offsets before bases -/

/-- The text of an offset before a base in parentheses. -/
structure BasedText where
  offset : List Char
  before : List Char
  inside : List Char
  base : List Char
  after : List Char

namespace BasedText

/-- The text as a whole. -/
def text (t : BasedText) : List Char :=
  t.offset ++ (t.before ++ ('(' :: (t.inside ++ (t.base ++ (t.after ++ [')'])))))

/-- The parts are what the pattern of an offset and a base takes, with blanks between them. -/
structure Fits (pattern : Pattern) (t : BasedText) : Prop where
  offset : pattern.Accepts t.offset []
  base : Parva.operand.Accepts t.base []
  before : ∀ c ∈ t.before, isBlank c = true
  inside : ∀ c ∈ t.inside, isBlank c = true
  after : ∀ c ∈ t.after, isBlank c = true

end BasedText

theorem accepts_based {pattern : Pattern} (hfree : pattern.slotFree = true) {cs : List Char}
    {ops : List (Slot × String)} :
    (based pattern).Accepts cs ops ↔ ∃ t : BasedText, t.Fits pattern ∧ cs = t.text ∧
      ops = [(.a, String.ofList t.base), (.b, String.ofList t.offset)] := by
  constructor
  · intro h
    obtain ⟨offset, y₁, u₁, v₁, rfl, rfl, ⟨u, hoffset, rfl⟩, h₁⟩ := accepts_all_cons.mp h
    obtain ⟨before, y₂, u₂, v₂, rfl, rfl, ⟨hbefore, rfl⟩, h₂⟩ := accepts_all_cons.mp h₁
    obtain ⟨x₃, y₃, u₃, v₃, rfl, rfl, hopen, h₃⟩ := accepts_all_cons.mp h₂
    obtain ⟨inside, y₄, u₄, v₄, rfl, rfl, ⟨hinside, rfl⟩, h₄⟩ := accepts_all_cons.mp h₃
    obtain ⟨base, y₅, u₅, v₅, rfl, rfl, hslot, h₅⟩ := accepts_all_cons.mp h₄
    obtain ⟨after, y₆, u₆, v₆, rfl, rfl, ⟨hafter, rfl⟩, hclose⟩ := accepts_all_cons.mp h₅
    obtain rfl := eq_nil_of_slotFree hfree hoffset
    obtain rfl := eq_nil_of_slotFree rfl hopen
    obtain rfl := eq_nil_of_slotFree rfl hclose
    obtain ⟨hbase, rfl⟩ := accepts_slot_operand hslot
    obtain rfl := accepts_sign (by decide) (by decide) hopen
    obtain rfl := accepts_sign (by decide) (by decide) hclose
    exact ⟨⟨offset, before, inside, base, after⟩, ⟨hoffset, hbase, hbefore, hinside, hafter⟩, rfl,
      rfl⟩
  · rintro ⟨⟨offset, before, inside, base, after⟩, hfits, rfl, rfl⟩
    refine accepts_all_cons.mpr ⟨offset, _, [(.b, String.ofList offset)],
      [(.a, String.ofList base)], rfl, rfl, ⟨[], hfits.offset, rfl⟩, ?_⟩
    refine accepts_all_cons.mpr ⟨before, _, [], _, rfl, (List.append_nil _).symm,
      ⟨hfits.before, rfl⟩, ?_⟩
    refine accepts_all_cons.mpr ⟨['('], _, [], _, rfl, (List.append_nil _).symm,
      ⟨⟨'(', rfl, by decide⟩, rfl⟩, ?_⟩
    refine accepts_all_cons.mpr ⟨inside, _, [], _, rfl, (List.append_nil _).symm,
      ⟨hfits.inside, rfl⟩, ?_⟩
    refine accepts_all_cons.mpr ⟨base, _, [(.a, String.ofList base)], [], rfl, rfl,
      ⟨[], hfits.base, rfl⟩, ?_⟩
    refine accepts_all_cons.mpr ⟨after, _, [], [], rfl, rfl, ⟨hfits.after, rfl⟩, ?_⟩
    exact ⟨⟨')', rfl, by decide⟩, rfl⟩

/-- The pattern for the names of registers accepts all of them. -/
theorem accepts_registerName {cs : List Char} (h : isRegister (String.ofList cs) = true) :
    registerName.Accepts cs [] := by
  have hsmall : ∀ name ∈ registerNames, name.toList.map foldLetter = name.toList := by decide
  have hlast : registerNames.dropLast.map Pattern.lit ++ [.lit "x67"] =
      registerNames.map Pattern.lit := rfl
  obtain ⟨name, hmem, hname⟩ : ∃ name ∈ registerNames, folded (String.ofList cs) = name :=
    ⟨_, (folded_of_isRegister h).2, rfl⟩
  have haccepts : (lit name).Accepts cs [] := by
    rw [accepts_lit, hsmall name hmem, ← hname, toList_folded, String.toList_ofList]
    exact ⟨rfl, rfl⟩
  have hpattern : lit name ∈ registerNames.dropLast.map Pattern.lit ++ [.lit "x67"] := by
    rw [hlast]
    exact List.mem_map_of_mem hmem
  rw [registerName]
  exact accepts_orElse.mpr ⟨_, hpattern, haccepts⟩

/-! ## Lines with loads and stores -/

/-- The pattern of a load or store with an offset and a base. -/
def indexed (word : String) (offset : Pattern) : Pattern :=
  .all [.lit word, .space, .slot .d Parva.operand, .separator, based offset]

/-- The text of a line with an offset and a base. -/
structure IndexedText where
  word : List Char
  gap : List Char
  target : List Char
  comma : List Char
  based : BasedText

namespace IndexedText

/-- The line as a whole. -/
def text (t : IndexedText) : List Char :=
  t.word ++ (t.gap ++ (t.target ++ (t.comma ++ t.based.text)))

/-- The parts are what the pattern of such a line takes. -/
structure Fits (word : String) (offset : Pattern) (t : IndexedText) : Prop where
  word : (lit word).Accepts t.word []
  gap : space.Accepts t.gap []
  target : Parva.operand.Accepts t.target []
  comma : separator.Accepts t.comma []
  based : t.based.Fits offset

end IndexedText

section Indexed

variable {word : String} {offset : Pattern} {cs : List Char} {caps : Captures}

theorem accepts_indexed (hfree : offset.slotFree = true) {ops : List (Slot × String)} :
    (indexed word offset).Accepts cs ops ↔ ∃ t : IndexedText, t.Fits word offset ∧ cs = t.text ∧
      ops = [(.a, String.ofList t.based.base), (.b, String.ofList t.based.offset),
        (.d, String.ofList t.target)] := by
  constructor
  · intro h
    obtain ⟨w, y₁, u₁, v₁, rfl, rfl, hw, h₁⟩ := accepts_all_cons.mp h
    obtain ⟨gap, y₂, u₂, v₂, rfl, rfl, hgap, h₂⟩ := accepts_all_cons.mp h₁
    obtain ⟨d, y₃, u₃, v₃, rfl, rfl, hslot, h₃⟩ := accepts_all_cons.mp h₂
    obtain ⟨comma, y₄, u₄, v₄, rfl, rfl, hcomma, hbased⟩ := accepts_all_cons.mp h₃
    obtain ⟨t, hfits, rfl, rfl⟩ := (accepts_based hfree).mp hbased
    obtain ⟨-, rfl⟩ := accepts_lit.mp hw
    obtain ⟨-, rfl⟩ := accepts_space hgap
    obtain ⟨hd, rfl⟩ := accepts_slot_operand hslot
    obtain ⟨-, rfl⟩ := accepts_separator hcomma
    exact ⟨⟨w, gap, d, comma, t⟩, ⟨hw, hgap, hd, hcomma, hfits⟩, rfl, rfl⟩
  · rintro ⟨⟨w, gap, d, comma, t⟩, hfits, rfl, rfl⟩
    have hslot : (slot .d Parva.operand).Accepts d [(.d, String.ofList d)] :=
      ⟨[], hfits.target, rfl⟩
    have hline := (accepts_based hfree).mpr ⟨t, hfits.based, rfl, rfl⟩
    have hline := accepts_all_cons.mpr ⟨comma, _, [], _, rfl, rfl, hfits.comma, hline⟩
    have hline := accepts_all_cons.mpr ⟨d, _, _, _, rfl, rfl, hslot, hline⟩
    have hline := accepts_all_cons.mpr ⟨gap, _, [], _, rfl, rfl, hfits.gap, hline⟩
    exact accepts_all_cons.mpr ⟨w, _, [], _, rfl, rfl, hfits.word, hline⟩

/-- The parts of a line with an offset and a base. -/
theorem parts_of_indexed (hfree : offset.slotFree = true)
    (h : (indexed word offset).match? cs = some caps) :
    ∃ t : IndexedText, t.Fits word offset ∧ cs = t.text ∧ caps.get .d = String.ofList t.target ∧
      caps.get .a = String.ofList t.based.base ∧ caps.get .b = String.ofList t.based.offset := by
  obtain ⟨ops, haccepts, hcaps⟩ := accepts_of_match? h
  obtain ⟨t, hfits, rfl, rfl⟩ := (accepts_indexed hfree).mp haccepts
  exact ⟨t, hfits, rfl, hcaps .d, hcaps .a, hcaps .b⟩

/-- Where an offset is a register, the pattern for such offsets accepts the line. -/
theorem indexed_registerName (h : (indexed word Parva.operand).match? cs = some caps)
    (hregister : isRegister (caps.get .b) = true) :
    ((indexed word registerName).match? cs).isSome = true := by
  obtain ⟨t, hfits, rfl, -, -, hcaps_b⟩ := parts_of_indexed rfl h
  rw [hcaps_b] at hregister
  have hbased : t.based.Fits registerName :=
    { hfits.based with offset := accepts_registerName hregister }
  have hline : t.Fits word registerName := { hfits with based := hbased }
  exact match?_isSome ((accepts_indexed rfl).mpr ⟨t, hline, rfl, rfl⟩)

/-- The fields of a line with an offset and a base. -/
theorem fields_of_indexed (hfree : offset.slotFree = true) (hword : IsWord word)
    (h : (indexed word offset).match? cs = some caps)
    (hends : ∀ o, offset.Accepts o [] → caps.get .b = String.ofList o → Ends o)
    (hd : isRegister (caps.get .d) = true) (ha : isRegister (caps.get .a) = true) :
    ∃ w operand, fields 2 cs = [w, caps.get .d, operand] ∧
      Statement.addressing operand = (caps.get .b, caps.get .a) := by
  obtain ⟨t, hfits, rfl, hcaps_d, hcaps_a, hcaps_b⟩ := parts_of_indexed hfree h
  obtain ⟨-, hplain, -⟩ := accepts_word hword hfits.word
  have hbased := hfits.based
  rw [hcaps_d] at hd
  rw [hcaps_a] at ha
  obtain ⟨hsolid, hend⟩ := hends _ hbased.offset hcaps_b
  have hsolid' : Solid t.based.text := hsolid.append _
  refine ⟨String.ofList t.word, String.ofList t.based.text, ?_, ?_⟩
  · rw [IndexedText.text, fields_append _ hplain (accepts_space hfits.gap).1
        ((solid_of_operand hfits.target).append _),
      fields_append _ (plain_of_isRegister hd) (accepts_separator hfits.comma).1 hsolid', hcaps_d]
    rfl
  · rw [hcaps_a, hcaps_b]
    exact addressing_based hend hbased.before hbased.inside hbased.after ha

end Indexed

/-- The rules of loads and stores. -/
theorem rulesFor_access {word : String} {access : Access}
    (h : (word, access) ∈ Statement.accesses) :
    word ∈ mnemonics ∧ IsWord word ∧
      rulesFor word = Parva.access word access.digits access.destination ++
        [accessAbsolute word] := by
  simp only [Statement.accesses, List.mem_cons, Prod.mk.injEq, List.not_mem_nil, or_false] at h
  rcases h with ⟨rfl, rfl⟩ | ⟨rfl, rfl⟩ | ⟨rfl, rfl⟩ | ⟨rfl, rfl⟩ <;>
  exact ⟨by decide, by decide, rfl⟩

/-- The fields of a load or store. -/
def Access.fields (access : Access) (d a : String) (b : Second) : List Field :=
  code "10" :: code access.digits :: code b.flag :: .register (single a) ::
    .register (access.destination d) :: b.fields true

/-- The three ways in which a line with a load or store is assembled. -/
theorem cases_access {word : String} {access : Access} {cs : List Char} {action : Action}
    (h : Rule.find? (Parva.access word access.digits access.destination ++ [accessAbsolute word])
      cs = some action) :
    (∃ caps, (indexed word registerName).match? cs = some caps ∧
      action = .emit (access.fields (caps.get .d) (caps.get .a) (.register (caps.get .b))) 1 none) ∨
    (∃ caps, (indexed word registerName).match? cs = none ∧
      (indexed word Parva.operand).match? cs = some caps ∧
      action = .emit (access.fields (caps.get .d) (caps.get .a) (.immediate (caps.get .b))) 1
        none) ∨
    ∃ caps, (two word .d .b).match? cs = some caps ∧
      action = .expand [s!"{word} {caps.get .d}, {caps.get .b}(zero)"] := by
  cases h₁ : (indexed word registerName).match? cs with
  | some caps =>
    have haction := Option.some.inj ((Rule.find?_of_match h₁ _).symm.trans h)
    exact Or.inl ⟨caps, rfl, haction.symm⟩
  | none =>
    replace h := (Rule.find?_of_no_match h₁ _).symm.trans h
    cases h₂ : (indexed word Parva.operand).match? cs with
    | some caps =>
      have haction := Option.some.inj ((Rule.find?_of_match h₂ _).symm.trans h)
      exact Or.inr (Or.inl ⟨caps, rfl, rfl, haction.symm⟩)
    | none =>
      replace h := (Rule.find?_of_no_match h₂ _).symm.trans h
      obtain ⟨rule, hrule, caps, hmatch, rfl⟩ := Rule.exists_of_find? h
      obtain rfl := List.mem_singleton.mp hrule
      exact Or.inr (Or.inr ⟨caps, hmatch, rfl⟩)

section Assembled

variable {p : Program} {symbols : Symbols} {levels : Nat} {text : String} {address : Nat}
  {bits : Bits}

/-- A line with an access is carried out by its word, or it has an address alone and is expanded. -/
theorem carriesOut_or_expands (h : dialect.Assembles p symbols levels text address bits)
    {word : String} (hfirst : folded (firstField text.toList) = word) {access : Access}
    (haccess : (word, access) ∈ Statement.accesses) :
    (∃ w d operand, fields 2 text.toList = [w, d, operand] ∧ isRegister d = true ∧
      CarriesOut bits (valueIn p symbols) (.transfer access d (Statement.addressing operand).2
        (Statement.offsetOf (Statement.addressing operand).1))) ∨
    ∃ d b further, Spelled word [d, b] text.toList ∧
      dialect.Assembles p symbols further s!"{word} {String.ofList d}, {String.ofList b}(zero)"
        address bits := by
  obtain ⟨hmem, hword, hrules⟩ := rulesFor_access haccess
  obtain ⟨action, hfind, hall⟩ := find?_of_assembles h hfirst hmem
  rw [hrules] at hfind
  obtain ⟨caps, hmatch, rfl⟩ | ⟨caps, hno, hmatch, rfl⟩ | ⟨caps, hmatch, rfl⟩ := cases_access hfind
  · obtain ⟨-, hencodes⟩ := h.of_emit hall
    obtain ⟨hd, ha, hname, hcarries⟩ := carriesOut_transfer hencodes
    have hb : isRegister (caps.get .b) = true := hname _ rfl
    obtain ⟨w, operand, hfields, haddressing⟩ := fields_of_indexed rfl hword hmatch
      (fun o _ ho => ends_of_isRegister (ho ▸ hb)) hd ha
    refine Or.inl ⟨w, _, operand, hfields, hd, ?_⟩
    rwa [haddressing, Statement.offsetOf, if_pos hb]
  · obtain ⟨-, hencodes⟩ := h.of_emit hall
    obtain ⟨hd, ha, -, hcarries⟩ := carriesOut_transfer hencodes
    have hb : isRegister (caps.get .b) = false := by
      by_contra hb
      have hsome := indexed_registerName hmatch (by simpa using hb)
      rw [hno] at hsome
      exact Bool.false_ne_true hsome
    obtain ⟨w, operand, hfields, haddressing⟩ := fields_of_indexed rfl hword hmatch
      (fun o ho _ => ends_of_operand ho) hd ha
    refine Or.inl ⟨w, _, operand, hfields, hd, ?_⟩
    rwa [haddressing, Statement.offsetOf, if_neg (by simp [hb])]
  · obtain ⟨further, -, hexpanded⟩ := h.of_expand hall
    obtain ⟨os, hspelled, hlength, hcaps⟩ := spelled_of_match? [.d, .b] hword hmatch
    obtain ⟨d, b, rfl⟩ := List.length_eq_two.mp hlength
    have hcaps_d : caps.get .d = String.ofList d := hcaps .d
    have hcaps_b : caps.get .b = String.ofList b := hcaps .b
    rw [hcaps_d, hcaps_b] at hexpanded
    exact Or.inr ⟨d, b, further, hspelled, hexpanded⟩

/-! ## Addresses alone -/

/-- The line that an address alone is expanded into. -/
theorem toList_absolute (word : String) (d b : List Char) :
    s!"{word} {String.ofList d}, {String.ofList b}(zero)".toList =
      word.toList ++ (" ".toList ++ (d ++ (", ".toList ++ (b ++ "(zero)".toList)))) := by
  change (word ++ " " ++ String.ofList d ++ ", " ++ String.ofList b ++ "(zero)").toList = _
  simp [String.toList_append]

/-- The texts before the last parenthesis that opens are the same. -/
theorem eq_of_last_paren {x y u v : List Char} (h : x ++ '(' :: u = y ++ '(' :: v)
    (hu : '(' ∉ u) (hv : '(' ∉ v) : x = y := by
  rcases List.append_eq_append_iff.mp h with ⟨c, rfl, hc⟩ | ⟨c, rfl, hc⟩
  · cases c with
    | nil => simp
    | cons e c => simp_all
  · cases c with
    | nil => simp
    | cons e c => simp_all

/-- Behind a base in parentheses no rule finds an address alone. -/
theorem not_spelled_based {word word' : String} {d b d' b' : List Char}
    (hb : Parva.operand.Accepts b []) :
    ¬ Spelled word' [d', b'] s!"{word} {String.ofList d}, {String.ofList b}(zero)".toList := by
  rintro ⟨w, gap, rest, hcs, -, -, -, sep, last, rfl, -, hsep, rfl, hlast⟩
  rw [toList_absolute] at hcs
  have hend : ∀ front c, last = front ++ [c] → c = ')' := by
    rintro front c rfl
    have hreverse := congrArg (List.head? ∘ List.reverse) hcs
    simpa [eq_comm] using hreverse
  obtain ⟨hne, hall⟩ | ⟨inner, rfl, hopen⟩ | ⟨sign, inner, -, rfl⟩ := operand_shape hlast
  · have hparen := hend _ _ (List.dropLast_append_getLast hne).symm
    exact absurd (hall _ (hparen ▸ List.getLast_mem hne)) (by decide)
  · -- the operand before the base would end with a separator
    obtain ⟨front, c, rfl, hc⟩ := operand_last hb
    have hprefix := eq_of_last_paren
      (x := word.toList ++ (" ".toList ++ (d ++ (", ".toList ++ (front ++ [c])))))
      (y := w ++ (gap ++ (d' ++ sep))) (u := "zero)".toList) (v := inner ++ [')'])
      (by simpa using hcs) (by decide) (by simpa using hopen)
    obtain ⟨others, e, rfl⟩ : ∃ others e, sep = others ++ [e] :=
      ⟨_, _, (List.dropLast_append_getLast hsep.1).symm⟩
    have hreverse := congrArg (List.head? ∘ List.reverse) hprefix
    obtain rfl : c = e := by simpa using hreverse
    rw [hsep.2 c (by simp)] at hc
    exact absurd hc (by decide)
  · exact absurd (hend (sign ++ '\x27' :: inner) '\x27' (by simp)) (by decide)

/-- The fields of the line that an address alone is expanded into. -/
theorem fields_absolute {word : String} (hword : IsWord word) {d b : List Char}
    (hd : Parva.operand.Accepts d []) (hb : Parva.operand.Accepts b []) {w d' operand : String}
    (h : fields 2 s!"{word} {String.ofList d}, {String.ofList b}(zero)".toList = [w, d', operand])
    (hregister : isRegister d' = true) :
    Plain d ∧ d' = String.ofList d ∧ Statement.addressing operand = (String.ofList b, "zero") := by
  have hsolid : Solid (b ++ "(zero)".toList) := (solid_of_operand hb).append _
  rw [toList_absolute, hword.fields gap_blank ((solid_of_operand hd).append _)] at h
  obtain ⟨-, hrest⟩ := List.cons.inj h
  have hplain : Plain d := by
    refine plain_of_front_isRegister hd (", ".toList ++ (b ++ "(zero)".toList)) ?_
    have hhead : firstField (d ++ (", ".toList ++ (b ++ "(zero)".toList))) = d' :=
      (List.cons.inj hrest).1
    rwa [hhead]
  rw [fields_append _ hplain gap_comma hsolid] at hrest
  obtain ⟨rfl, rfl⟩ : String.ofList d = d' ∧ String.ofList (b ++ "(zero)".toList) = operand := by
    simpa [fields] using hrest
  have hzero : isRegister (String.ofList "zero".toList) = true := by decide
  have haddressing : Statement.addressing
      (String.ofList (b ++ ([] ++ ('(' :: ([] ++ ("zero".toList ++ ([] ++ [')']))))))) =
      (String.ofList b, "zero") :=
    addressing_based (ends_of_operand hb).2 (by simp) (by simp) (by simp) hzero
  exact ⟨hplain, rfl, haddressing⟩

/-- A line with a load or store is assembled to a word that carries it out. -/
theorem carriesOut_of_access (h : dialect.Assembles p symbols levels text address bits)
    {access : Access} (haccess : (folded (firstField text.toList), access) ∈ Statement.accesses) :
    ∃ w d operand, fields 2 text.toList = [w, d, operand] ∧
      CarriesOut bits (valueIn p symbols) (.transfer access d (Statement.addressing operand).2
        (Statement.offsetOf (Statement.addressing operand).1)) := by
  obtain ⟨word, hfirst⟩ : ∃ word, folded (firstField text.toList) = word := ⟨_, rfl⟩
  rw [hfirst] at haccess
  rcases carriesOut_or_expands h hfirst haccess with
    ⟨w, d, operand, hfields, -, hcarries⟩ | ⟨d, b, further, hspelled, hexpanded⟩
  · exact ⟨w, d, operand, hfields, hcarries⟩
  · have hd : Parva.operand.Accepts d [] := hspelled.accepts (by simp)
    have hb : Parva.operand.Accepts b [] := hspelled.accepts (by simp)
    have hword := (rulesFor_access haccess).2.1
    have hfirst' : folded (firstField
        s!"{word} {String.ofList d}, {String.ofList b}(zero)".toList) = word := by
      rw [toList_absolute, hword.firstField gap_blank, hword.folded]
    rcases carriesOut_or_expands hexpanded hfirst' haccess with
      ⟨w', d', operand, hfields, hd', hcarries⟩ | ⟨d', b', -, hspelled', -⟩
    · obtain ⟨hplain, rfl, haddressing⟩ := fields_absolute hword hd hb hfields hd'
      obtain ⟨w, -, hfields⟩ := hspelled.fields_eq [d] (by simpa using hplain)
      refine ⟨w, _, _, hfields, ?_⟩
      rw [addressing_operand hb, ← haddressing]
      exact hcarries
    · exact absurd hspelled' (not_spelled_based hb)

/-! ## All instructions for computation and memory -/

theorem not_mem_of_lookup {α : Type} {word : String} {table : List (String × α)}
    (h : List.lookup word table = none) : word ∉ table.map (·.1) := by
  intro hmem
  obtain ⟨entry, hentry, rfl⟩ := List.mem_map.mp hmem
  have hne := List.lookup_eq_none_iff.mp h entry hentry
  simp at hne

/-- A line with such a mnemonic is read, and assembled to a word that carries it out. -/
theorem exists_read?_of_assembles (h : dialect.Assembles p symbols levels text address bits)
    (hword : folded (firstField text.toList) ∈ Statement.mnemonics) :
    ∃ statement, Statement.read? text = some statement ∧
      CarriesOut bits (valueIn p symbols) statement := by
  unfold Statement.read?
  dsimp only
  split
  · rename_i op hlookup
    obtain ⟨w, d, a, b, hfields, hcarries⟩ := carriesOut_of_operation h .register
      (List.mem_append_left _ (List.mem_map.mpr ⟨_, mem_of_lookup hlookup, rfl⟩))
    exact ⟨_, by rw [hfields], hcarries⟩
  · rename_i op _ hlookup
    obtain ⟨w, d, a, b, hfields, hcarries⟩ := carriesOut_of_operation h .immediate
      (List.mem_append_right _ (List.mem_map.mpr ⟨_, mem_of_lookup hlookup, rfl⟩))
    exact ⟨_, by rw [hfields], hcarries⟩
  · rename_i access _ _ hlookup
    obtain ⟨w, d, operand, hfields, hcarries⟩ := carriesOut_of_access h (mem_of_lookup hlookup)
    exact ⟨_, by rw [hfields], hcarries⟩
  · rename_i hnot₁ hnot₂ hnot₃
    have hlui : folded (firstField text.toList) = "lui" := by
      simp only [Statement.mnemonics, List.mem_append, List.mem_singleton,
        not_mem_of_lookup hnot₁, not_mem_of_lookup hnot₂, not_mem_of_lookup hnot₃, false_or]
        at hword
      exact hword
    obtain ⟨w, d, n, hfields, hcarries⟩ := carriesOut_of_loadUpper h hlui
    exact ⟨.loadUpper d n, by rw [hlui, hfields]; rfl, hcarries⟩

end Assembled

/-- Every instruction for computation or memory has the effect that is written.  Whatever else is
in a text, for every instruction of the output whose line has such a mnemonic, the line reads as a
statement, and one step of the machine, in a well-formed state that holds the instruction at its
program counter and where the statement touches no device, has the effect of the statement; besides
it only adds one to the program counter and to the cycle counter. -/
theorem instruction_has_its_effect (text : String) {address : Nat} {bits : Bits} {source : Source}
    (hline : .instruction address bits source ∈ (dialect.assemble text).lines)
    (hword : folded (firstField (dialect.instructionAt text source.line).toList) ∈
      Statement.mnemonics) :
    ∃ statement, Statement.read? (dialect.instructionAt text source.line) = some statement ∧
      ∀ s : State, s.WellFormed → s.memory.read s.pc = Bits.toNat bits →
        (∀ a ∈ statement.touched (dialect.valueAt? text source.line) s, a < 0xFFF000) →
        ∃ s', statement.effect? (dialect.valueAt? text source.line) s = some s' ∧
          step s = { s' with
            pc := (s.pc + 1) % wordCount, cycle := (s.cycle + 1) % wordCount } :=
  exists_read?_of_assembles (Dialect.assembles_of_mem_assemble wellFormed hline) hword

/-- A double store below the top of the stack writes two words. -/
theorem double_store_writes_two_words :
    let text := "sd x45, -1(sp)"
    let bits := Bits.ofNat 24 (layout 22 1 4 4095)
    let source : Source := ⟨0, text, text, text⟩
    let s : State := ⟨Memory.empty.write 0 (Bits.toNat bits),
      ((RegisterFile.cleared.set 1 16).set 4 7).set 5 9, 0, 0, .blank⟩
    .instruction 0 bits source ∈ (dialect.assemble text).lines ∧ s.WellFormed ∧
      step s = { s with memory := (s.memory.write 15 7).write 16 9, pc := 1, cycle := 1 } := by
  intro text bits source s
  obtain ⟨hline, hword, hstatement, hvalue⟩ :
      .instruction 0 bits source ∈ (dialect.assemble text).lines ∧
        folded (firstField (dialect.instructionAt text source.line).toList) ∈
          Statement.mnemonics ∧
        Statement.read? (dialect.instructionAt text source.line) =
          some (.transfer .sd "x45" "sp" (.immediate "-1")) ∧
        dialect.valueAt? text source.line "-1" = some (-1) := by
    decide +kernel
  have hs : s.WellFormed := by
    refine ⟨by decide, fun a => ?_, by decide, by decide⟩
    rw [Memory.read_write]
    split
    · decide
    · simp [wordCount]
  obtain ⟨statement, hread, heffect⟩ := instruction_has_its_effect text hline hword
  obtain rfl := Option.some.inj (hread.symm.trans hstatement)
  have haddress : Statement.address? (dialect.valueAt? text source.line) s "sp"
      (.immediate "-1") = some 15 := by
    simp only [Statement.address?, Statement.second?, hvalue]
    decide +kernel
  have hindex : Access.sd.index? "x45" = some 4 := by decide +kernel
  have hmemory : s.memory.read s.pc = Bits.toNat bits := by
    rw [Memory.read_write]
    exact if_pos rfl
  obtain ⟨s', hs', hstep⟩ := heffect s hs hmemory (by
    simp [Statement.touched, haddress, Access.isDouble])
  simp only [Statement.effect?, hindex, haddress] at hs'
  obtain rfl := Option.some.inj hs'
  exact ⟨hline, hs, hstep⟩

end PocketAsm.Parva
