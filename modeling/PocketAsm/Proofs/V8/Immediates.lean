/-
  Proofs/V8/Immediates.lean --- the code of a line that loads a number.

  A `#` stands in one rule of the table only, that of loads of immediate data
  (`immediate_or_avoids`), so a line with it that matches the pattern of that
  rule is decided by it, and what its slots hold is what stands around the mark.
  A load of a number is therefore two bytes: the opcode with the register, and
  the number (`codeOf_load`).
-/
import PocketAsm.Proofs.Directives
import PocketAsm.Proofs.Offsets
import PocketAsm.Proofs.V8.Instructions

set_option autoImplicit false

namespace PocketAsm.V8

open Operand Pattern Text

/-! ## The code of a line -/

/-- The bytes that a line is assembled to by itself. -/
def codeOf (line : String) : List Nat :=
  ((dialect.assemble line).lines.flatMap (·.words 8)).map (·.2)

/-- A line that places an instruction of bits only is assembled to their bytes. -/
theorem codeOf_of_place {line : String} {bits : List Bits} (words : Nat)
    (hline : '\n' ∉ line.toList) (hinstruction : dialect.instructionOf line = line)
    (hplace : ∀ source, dialect.placeText Dialect.maxExpansions source line (.start none) =
      ⟨[.place (bits.map .bits) words { source with matched := line }], none⟩)
    (hwidth : bits.flatten.length % 8 = 0) : codeOf line = Bits.words 8 bits.flatten := by
  have hparts (symbols : Symbols) : symbols.partsBits (bits.map .bits) = .ok bits.flatten := by
    clear hplace hwidth
    induction bits with
    | nil => rfl
    | cons first bits ih => simp [Symbols.partsBits, Symbols.partBits, ih]
  have hfits (source : Source) : dialect.widthFault? bits.flatten.length source = none :=
    if_pos hwidth
  have hpass : (dialect.firstPass line).1 =
      (Program.start none).apply (.place (bits.map .bits) words ⟨0, line, line, line⟩) := by
    simp only [Dialect.firstPass, lines_of_not_mem hline, Dialect.placeLines, Dialect.placeLine,
      hinstruction]
    rw [show dialect.encoding = none from rfl, hplace]
    rfl
  have hlines : (dialect.assemble line).lines =
      [.instruction 0 bits.flatten ⟨0, line, line, line⟩] := by
    change Dialect.finished (dialect.secondPass (dialect.firstPass line).1) = _
    rw [hpass]
    change Dialect.finished [dialect.resolveLine _ (.instruction 0 _ (bits.map .bits))] = _
    simp only [Dialect.resolveLine, Dialect.instructionBits, hparts, hfits]
    rfl
  rw [codeOf, hlines, List.flatMap_singleton, OutputLine.words]
  exact List.ext_getElem (by simp) fun i hi hj => by simp

/-! ## Loads of immediate data -/

/-- The rule of loads of immediate data. -/
def immediateLoad : Rule := memory "ld" (.seq (.letter '#') (.slot .b operand)) "01111"

/-- No other rule has the mark. -/
theorem immediate_or_avoids {rule : Rule} (h : rule ∈ instructions) :
    rule = immediateLoad ∨ rule.pattern.avoids '#' = true := by
  have htable : instructions = instructions.take 34 ++ immediateLoad :: instructions.drop 35 := rfl
  have hbefore : ∀ rule ∈ instructions.take 34, rule.pattern.avoids '#' = true := by
    decide +kernel
  have hbehind : ∀ rule ∈ instructions.drop 35, rule.pattern.avoids '#' = true := by
    decide +kernel
  rw [htable] at h
  rcases List.mem_append.mp h with h | h
  · exact .inr (hbefore rule h)
  rcases List.mem_cons.mp h with h | h
  · exact .inl h
  · exact .inr (hbehind rule h)

theorem immediateLoad_mem : immediateLoad ∈ instructions := by
  have htable : instructions = instructions.take 34 ++ immediateLoad :: instructions.drop 35 := rfl
  rw [htable]
  exact List.mem_append_right _ List.mem_cons_self

/-- A load of immediate data as it is written. -/
def loadText (c : Char) (o : List Char) : List Char := 'L' :: 'D' :: c :: ' ' :: '#' :: o

section Load

variable {c : Char} {o : List Char}

/-- The operand of a load is what stands behind its mark. -/
theorem fields_of_match? {caps : Captures}
    (h : immediateLoad.pattern.match? (loadText c o) = some caps) :
    caps.get .a = String.ofList [c] ∧ caps.get .b = String.ofList o := by
  obtain ⟨ops, haccepts, hcaps⟩ := accepts_of_match? h
  obtain ⟨w, d, gap, z, u, heq, hw, -, hgap, hz, rfl⟩ := accepts_memory.mp haccepts
  obtain ⟨x, inner, v, v', rfl, rfl, hmark, hslot⟩ := hz
  obtain ⟨-, rfl⟩ := accepts_slot rfl hslot
  obtain ⟨-, rfl⟩ := accepts_letter.mp hmark
  obtain rfl := accepts_sign (by decide) (by decide) hmark
  have hlength : w.length = 2 := by
    have hfold := congrArg List.length (accepts_lit.mp hw).1
    simpa using hfold
  obtain ⟨w₀, w₁, rfl⟩ := List.length_eq_two.mp hlength
  obtain ⟨hne, hseparators⟩ := (Pattern.accepts_separator hgap).1
  obtain ⟨g, gap, rfl⟩ := List.exists_cons_of_ne_nil hne
  simp only [loadText, List.cons_append, List.nil_append, List.cons.injEq] at heq
  obtain ⟨-, -, hd, -, hrest⟩ := heq
  have hinner : o = inner := by
    cases gap with
    | nil => exact (List.cons.inj hrest).2
    | cons g' gap =>
      have hmark : isSeparator '#' = true := (List.cons.inj hrest).1 ▸ hseparators g' (by simp)
      exact absurd hmark (by decide)
  exact ⟨hd ▸ hcaps .a, hinner ▸ hcaps .b⟩

/-- The rule of loads decides a load. -/
theorem find?_load (hc : isRegisterLetter c = true) (ho : operand.Accepts o []) :
    Rule.find? dialect.rules (loadText c o) =
      some (.emit [code "01111", .register (registerBits (String.ofList [c])),
        .value (String.ofList o) 8 false false] 2 none) := by
  have hgap : separator.Accepts [' '] [] :=
    accepts_all_cons.mpr ⟨[], [' '], [], [], rfl, rfl, ⟨by simp, rfl⟩,
      accepts_all_cons.mpr ⟨[' '], [], [], [], rfl, rfl, ⟨⟨' ', rfl, by decide⟩, rfl⟩,
        ⟨by simp, rfl⟩⟩⟩
  have haccepts : immediateLoad.pattern.Accepts (loadText c o)
      [(.b, String.ofList o), (.a, String.ofList [c])] := by
    refine accepts_memory.mpr ⟨['L', 'D'], c, [' '], '#' :: o, [(.b, String.ofList o)], rfl,
      accepts_lit.mpr ⟨by decide, rfl⟩, hc, hgap, ?_, rfl⟩
    exact ⟨['#'], o, [], _, rfl, rfl, ⟨⟨'#', rfl, by decide⟩, rfl⟩, ⟨[], ho, rfl⟩⟩
  have hmatch := match?_isSome haccepts
  have hinstructions : Rule.find? instructions (loadText c o) =
      some (.emit [code "01111", .register (registerBits (String.ofList [c])),
        .value (String.ofList o) 8 false false] 2 none) := by
    cases hfind : Rule.find? instructions (loadText c o) with
    | none =>
      have hnone := List.findSome?_eq_none_iff.mp hfind immediateLoad immediateLoad_mem
      rw [Option.map_eq_none_iff.mp hnone] at hmatch
      cases hmatch
    | some action =>
      obtain ⟨rule, hrule, caps, hcaps, rfl⟩ := Rule.exists_of_find? hfind
      rcases immediate_or_avoids hrule with rfl | havoids
      · obtain ⟨ha, hb⟩ := fields_of_match? hcaps
        simp only [immediateLoad, memory, ha, hb]
      · obtain ⟨ops, haccepts, -⟩ := accepts_of_match? hcaps
        exact absurd (by simp [loadText]) (not_mem_of_accepts havoids haccepts)
  have hrules : dialect.rules = instructions ++ Directive.common operand .comma 1 := rfl
  rw [hrules, Rule.find?_append, hinstructions]
  rfl

/-- A load has no other characters than those of its mnemonic, the mark and the operand. -/
theorem not_mem_loadText {d : Char} (hfixed : d ∉ ['L', 'D', ' ', '#'])
    (hc : isRegisterLetter c = true) (hd : isRegisterLetter d = false)
    (ho : ∀ e ∈ o, isNameChar e = true) (hd' : isNameChar d = false) : d ∉ loadText c o := by
  intro hmem
  simp only [loadText, List.mem_cons] at hmem
  rcases hmem with rfl | rfl | rfl | rfl | rfl | hmem
  · simp at hfixed
  · simp at hfixed
  · exact absurd hc (by simp [hd])
  · simp at hfixed
  · simp at hfixed
  · exact absurd (ho d hmem) (by simp [hd'])

/-- A load is read as it stands. -/
theorem instructionOf_load (hc : isRegisterLetter c = true) (hne : o ≠ [])
    (ho : ∀ d ∈ o, isNameChar d = true) :
    dialect.instructionOf (String.ofList (loadText c o)) = String.ofList (loadText c o) := by
  refine Dialect.instructionOf_eq_self rfl (by decide) ?_ ?_ ?_
  · have hmarks : ∀ mark ∈ [";", "//"], ';' ∈ mark.toList ∨ '/' ∈ mark.toList := by decide
    intro mark hmark hfound
    rw [String.toList_ofList] at hfound
    rcases hmarks mark hmark with hd | hd
    · exact not_mem_loadText (by decide) hc (by decide) ho (by decide) (hfound.subset hd)
    · exact not_mem_loadText (by decide) hc (by decide) ho (by decide) (hfound.subset hd)
  · intro d hd
    obtain rfl : 'L' = d := by simpa [loadText] using hd
    decide
  · intro d hd
    have hlast : (String.ofList (loadText c o)).toList.getLast? = o.getLast? := by
      rw [String.toList_ofList]
      exact List.getLast?_append_of_ne_nil ['L', 'D', c, ' ', '#'] hne
    rw [hlast] at hd
    exact isBlank_eq_false_of_isNameChar (ho d (List.mem_of_mem_getLast? hd))

/-- A load of a decimal number that is a byte is assembled to the opcode with the register and the
number. -/
theorem codeOf_load {r : RegisterIndex} {x : Nat} (hc : isRegisterLetter c = true)
    (hr : registerBits (String.ofList [c]) = .ok (Bits.ofNat 3 r))
    (hdecimal : RadixMark.decimal.read? o = some (x : Int))
    (hlegible : NumberSyntax.dollar.isOverlong (String.ofList o) = false) (hx : x < 256) :
    codeOf (String.ofList (loadText c o)) = [(Op.loadImmediate r).code, x] := by
  obtain ⟨hne, ho⟩ := RadixMark.isNameChar_of_decimal hdecimal
  have hnumber : NumberSyntax.dollar.read (String.ofList o) = .ok (some (x : Int)) :=
    NumberSyntax.read_of_decimal (by decide) hdecimal hlegible
  have hoperand : operand.Accepts o [] := .inl (accepts_atom_name hne ho)
  have hcode : codeOf (String.ofList (loadText c o)) =
      Bits.words 8 [Bits.ofText "01111", Bits.ofNat 3 r, Bits.ofNat 8 x].flatten := by
    refine codeOf_of_place 2 ?_ (instructionOf_load hc hne ho) (fun source => ?_) ?_
    · rw [String.toList_ofList]
      exact not_mem_loadText (by decide) hc (by decide) ho (by decide)
    · have hencoded : Bits.encodeField (x : Int) 8 false = .ok (Bits.ofNat 8 x) := by
        have hspan : Bits.span 8 = 256 := rfl
        have hhalf : Bits.span (8 - 1) = 128 := rfl
        have hmod : ((x : Int) % (256 : Nat)).toNat = x := by omega
        rw [Bits.encodeField_unsigned, hspan, hhalf, if_pos (by omega), hmod]
      have hliteral : dialect.literal? (.start none) (String.ofList o) = .ok (some (x : Int)) := by
        rw [Dialect.literal?, show dialect.numbers = .dollar from rfl, hnumber]
      have hparts : dialect.fieldParts (.start none)
          [code "01111", .register (registerBits (String.ofList [c])),
            .value (String.ofList o) 8 false false] =
          .ok [.bits (Bits.ofText "01111"), .bits (Bits.ofNat 3 r), .bits (Bits.ofNat 8 x)] := by
        simp only [Dialect.fieldParts, Dialect.fieldPart, code, hr, Dialect.operand, hliteral,
          hencoded]
      have hnonempty : String.ofList (loadText c o) ≠ "" := by simp [loadText]
      rw [Dialect.placeText, if_neg hnonempty, String.toList_ofList, find?_load hc hoperand]
      unfold Dialect.perform
      dsimp only
      rw [hparts]
      rfl
    · simp [Bits.ofText]
  have hopcode : (Bits.ofText "01111" ++ Bits.ofNat 3 r).length = 8 := by simp [Bits.ofText]
  have hflatten : [Bits.ofText "01111", Bits.ofNat 3 r, Bits.ofNat 8 x].flatten =
      (Bits.ofText "01111" ++ Bits.ofNat 3 r) ++ Bits.ofNat 8 x := by simp
  rw [hcode, hflatten, Bits.words_append (by decide) hopcode,
    Bits.words_of_length (by decide) (Bits.length_ofNat 8 x), toNat_append_register,
    Bits.toNat_ofNat, show Bits.span 8 = 256 from rfl, Nat.mod_eq_of_lt hx]
  rfl

/-- A load of a byte that is written in decimal digits. -/
theorem codeOf_loadByte {r : RegisterIndex} {x : Nat} (hc : isRegisterLetter c = true)
    (hr : registerBits (String.ofList [c]) = .ok (Bits.ofNat 3 r)) (hx : x < 256) :
    codeOf (String.ofList (loadText c []) ++ toString x) = [(Op.loadImmediate r).code, x] := by
  have htext : String.ofList (loadText c []) ++ toString x =
      String.ofList (loadText c (Nat.toDigits 10 x)) := by
    rw [Nat.toString_eq_repr, Nat.repr_eq_ofList_toDigits, ← String.ofList_append]
    rfl
  have hbound : 256 < Text.decimalBound := by decide +kernel
  rw [htext]
  exact codeOf_load hc hr (RadixMark.read?_toDigits x)
    (NumberSyntax.isOverlong_of_toDigits String.toList_ofList (hx.trans hbound)) hx

end Load

end PocketAsm.V8
