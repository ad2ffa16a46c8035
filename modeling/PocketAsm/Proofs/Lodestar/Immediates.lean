/-
  Proofs/Lodestar/Immediates.lean --- what may stand behind the mark of immediate data.

  A `#` marks a number.  The patterns tell numbers from names by their
  characters only, and letters up to `f` and underscores are characters of
  both.  So a line with the mark is matched exactly if each character behind it
  may stand in a number (`accepts_number_iff`, `find?_instructions_marked`).  A
  name that has another one is refused.  A name that has none is no number
  either and becomes a reference to the label (`operand_of_name`).
-/
import PocketAsm.Proofs.Lodestar.Lines
import PocketAsm.Proofs.Reports

set_option autoImplicit false

namespace PocketAsm.Lodestar

open Operand Pattern Text

/-! ## Names and numbers -/

/-- A character of the digits of a number: a digit, a letter from a to f or an underscore. -/
def isNumberChar (c : Char) : Bool := isDigit c || isLetterIn 'a' 'f' c || c == '_'

theorem ne_of_beginsName {c d : Char} (hc : beginsName c = true) (hd : beginsName d = false) :
    c ≠ d := by
  rintro rfl
  rw [hc] at hd
  cases hd

section Names

variable {name : List Char} {p : Program}

/-- What begins like a name has neither a mark nor a sign, so as a number it is all digits. -/
theorem accepts_number_iff (h : label.Accepts name []) :
    number.Accepts name [] ↔ ∀ c ∈ name, isNumberChar c = true := by
  obtain ⟨c, rest, rfl, hc⟩ := exists_head_of_label h
  constructor
  · intro hnumber
    obtain ⟨mark, y, u, v, heq, -, hmark, hy⟩ := accepts_all_cons.mp hnumber
    obtain ⟨sign, digits, u', v', rfl, -, hsign, hdigits⟩ := accepts_all_cons.mp hy
    have hnil : mark = [] := by
      rcases hmark with ⟨⟨d, rfl, hd⟩, -⟩ | ⟨rfl, -⟩
      · have hcd : c = d := (List.cons.inj heq).1
        have hd : d = '%' ∨ d = '$' := by simpa using hd
        rcases hd with rfl | rfl
        · exact absurd hcd (ne_of_beginsName hc (by decide))
        · exact absurd hcd (ne_of_beginsName hc (by decide))
      · rfl
    have hnil' : sign = [] := by
      rcases hsign with hsign | ⟨rfl, -⟩
      · rw [hnil, accepts_sign (by decide) (by decide) hsign] at heq
        exact absurd (List.cons.inj heq).1 (ne_of_beginsName hc (by decide))
      · rfl
    rw [heq, hnil, hnil']
    exact (accepts_oneOrMore.mp hdigits).2.1
  · intro hdigits
    have hrest : (oneOrMore fun c => isDigit c || isLetterIn 'a' 'f' c || c == '_').Accepts
        (c :: rest) [] :=
      accepts_oneOrMore.mpr ⟨List.cons_ne_nil c rest, hdigits, rfl⟩
    refine accepts_all_cons.mpr ⟨[], c :: rest, [], [], rfl, rfl, Or.inr ⟨rfl, rfl⟩, ?_⟩
    exact accepts_all_cons.mpr ⟨[], c :: rest, [], [], rfl, rfl, Or.inr ⟨rfl, rfl⟩, hrest⟩

/-- A name is no literal, so as an operand it refers to a label. -/
theorem operand_of_name (h : label.Accepts name []) :
    dialect.operand p (String.ofList name) 8 false false =
      .ok (.ref ⟨String.ofList name, 8, p.address, false, false⟩) := by
  obtain ⟨c, rest, rfl, hc⟩ := exists_head_of_label h
  have hdollar : NumberSyntax.dollar.parse? (String.ofList (c :: rest)) = none :=
    parse?_eq_none String.toList_ofList (beginsNumber_of_beginsName hc)
  have hnumber : NumberSyntax.lodestar.parse? (String.ofList (c :: rest)) = none := by
    rw [Option.eq_none_iff_forall_ne_some]
    intro n hn
    rw [parse?_of_parse? hn] at hdollar
    cases hdollar
  have hliteral : dialect.literal? p (String.ofList (c :: rest)) = .ok none :=
    Dialect.literal?_eq_none (Dialect.read_eq_none hnumber)
      (RadixMark.body?_eq_none (ne_of_beginsName hc (by decide))
        (ne_of_beginsName hc (by decide)) rest)
  rw [Dialect.operand, hliteral]

end Names

/-! ## Lines with the mark -/

section Marks

variable {front y : List Char}

/-- A text is cut at its first mark in one way only. -/
theorem eq_behind_mark {x z : List Char} (hfront : '#' ∉ front) (hx : '#' ∉ x)
    (h : front ++ '#' :: y = x ++ '#' :: z) : y = z := by
  have hdrop {xs : List Char} (hxs : '#' ∉ xs) (ys : List Char) :
      (xs ++ '#' :: ys).dropWhile (· != '#') = '#' :: ys := by
    have hpass : ∀ c ∈ xs, (c != '#') = true := by
      intro c hc
      rw [bne_iff_ne]
      rintro rfl
      exact hxs hc
    rw [List.dropWhile_append_of_pos hpass]
    rfl
  have hsame := congrArg (List.dropWhile (· != '#')) h
  rw [hdrop hfront, hdrop hx] at hsame
  exact (List.cons.inj hsame).2

/-- Where an immediate operand has the mark, a number is behind it. -/
theorem accepts_immediate_marked {x o : List Char} {ops : List (Slot × String)}
    (hfront : '#' ∉ front) (hx : '#' ∉ x) (h : front ++ '#' :: y = x ++ o)
    (ho : immediate.Accepts o ops) : number.Accepts y [] ∧ ops = [(.a, String.ofList y)] := by
  rcases accepts_immediate ho with ⟨rest, rfl, hnumber, rfl⟩ | ⟨hlabel, -⟩
  · obtain rfl := eq_behind_mark hfront hx h
    exact ⟨hnumber, rfl⟩
  · have hmem : '#' ∈ x ++ o := h ▸ List.mem_append_right front List.mem_cons_self
    have hnot := (spelled_of_label hlabel).not_mem (c := '#') (by decide)
    exact ((List.mem_append.mp hmem).elim hx hnot).elim

/-- Only jumps and loads have rules with the mark. -/
theorem mark_of_mem_instructions {rule : Rule} (h : rule ∈ instructions) :
    rule.pattern.avoids '#' = true ∨
      (∃ e ∈ V8.jumpCodes, rule = V8.jump immediate e.1 e.2) ∨
      rule = memory "ld" immediate "01111" := by
  have hfirst : ∀ rule ∈ [V8.plain "hlt" "00000000", V8.plain "nop" "00000001",
      V8.jump (.slot .a absolute) "jmp" "00000011"], rule.pattern.avoids '#' = true := by
    decide +kernel
  have hmiddle : ∀ rule ∈ (V8.plainCodes.drop 2).map (fun e => V8.plain e.1 e.2) ++
      V8.accumulatorCodes.map (fun e => onRegister (.seq (register .r) withA) e.1 e.2) ++
      V8.registerCodes.map (fun e => onRegister (register .r) e.1 e.2) ++
      [move, memory "ld" (.slot .a absolute) "10001", memory "ld" indirect "10101"],
      rule.pattern.avoids '#' = true := by
    decide +kernel
  have hlast : ∀ rule ∈ [memory "ld" indexed "10011", memory "st" indexed "10010",
      memory "st" indirect "10100", memory "st" (.slot .a absolute) "10000",
      onRegister (register .r) "push" "10110", onRegister (register .r) "pull" "10111"],
      rule.pattern.avoids '#' = true := by
    decide +kernel
  have htable : instructions =
      [V8.plain "hlt" "00000000", V8.plain "nop" "00000001",
        V8.jump (.slot .a absolute) "jmp" "00000011"] ++
      (V8.jumpCodes.map (fun e => V8.jump immediate e.1 e.2) ++
      (((V8.plainCodes.drop 2).map (fun e => V8.plain e.1 e.2) ++
      V8.accumulatorCodes.map (fun e => onRegister (.seq (register .r) withA) e.1 e.2) ++
      V8.registerCodes.map (fun e => onRegister (register .r) e.1 e.2) ++
      [move, memory "ld" (.slot .a absolute) "10001", memory "ld" indirect "10101"]) ++
      (memory "ld" immediate "01111" ::
      [memory "ld" indexed "10011", memory "st" indexed "10010", memory "st" indirect "10100",
        memory "st" (.slot .a absolute) "10000", onRegister (register .r) "push" "10110",
        onRegister (register .r) "pull" "10111"]))) := rfl
  rw [htable] at h
  rcases List.mem_append.mp h with h | h
  · exact Or.inl (hfirst rule h)
  rcases List.mem_append.mp h with h | h
  · obtain ⟨e, he, rfl⟩ := List.mem_map.mp h
    exact Or.inr (Or.inl ⟨e, he, rfl⟩)
  rcases List.mem_append.mp h with h | h
  · exact Or.inl (hmiddle rule h)
  rcases List.mem_cons.mp h with rfl | h
  · exact Or.inr (Or.inr rfl)
  · exact Or.inl (hlast rule h)

/-- No character outside ASCII folds onto the letter of a register. -/
theorem ascii_of_isRegisterLetter {c : Char} (h : V8.isRegisterLetter c = true) :
    c.toNat < 128 := by
  by_contra hlarge
  have hfold : foldLetter c = 's' ∨ foldLetter c = 'k' ∨ foldLetter c = 'i' ∨
      foldLetter c = c := by
    have hlower : c.toLower = c := dif_neg fun hcapital => hlarge (by
      have hhigh : c.toNat ≤ 90 := hcapital.2
      omega)
    unfold foldLetter
    split_ifs <;> simp [hlower]
  simp only [V8.isRegisterLetter, isLetterIn, Bool.or_eq_true, Bool.and_eq_true,
    decide_eq_true_eq] at h
  rcases hfold with hfold | hfold | hfold | hfold
  · rw [hfold] at h
    revert h
    decide
  · rw [hfold] at h
    revert h
    decide
  · rw [hfold] at h
    revert h
    decide
  · rw [hfold] at h
    have hhigh : c ≤ 'y' := h.elim (fun h => h.2.trans (by decide)) And.right
    have hhigh : c.toNat ≤ 121 := hhigh
    omega

/-- A letter of a register has its code. -/
theorem registerBits_of_isRegisterLetter {c : Char} (h : V8.isRegisterLetter c = true) :
    ∃ bits, registerBits (String.ofList [c]) = .ok bits := by
  have hsome : (V8.registerCode? (String.ofList [c])).isSome = true :=
    ascii_forall (P := fun c => V8.isRegisterLetter c = true →
      (V8.registerCode? (String.ofList [c])).isSome = true) (by decide +kernel)
      (ascii_of_isRegisterLetter h) h
  obtain ⟨n, hn⟩ := Option.isSome_iff_exists.mp hsome
  exact ⟨Bits.ofNat 3 n, by rw [registerBits, hn]⟩

/-- A rule that matches a line with the mark takes what is behind it for a number, and places an
instruction of which it is the last part. -/
theorem match_marked {rule : Rule} (hrule : rule ∈ instructions) (hfront : '#' ∉ front)
    {caps : Captures} (hmatch : rule.pattern.match? (front ++ '#' :: y) = some caps) :
    number.Accepts y [] ∧ ∃ fields, rule.action caps = .emit fields 2 none ∧
      ∀ p part, dialect.operand p (String.ofList y) 8 false false = .ok part →
        ∃ before, dialect.fieldParts p fields = .ok (before ++ [part]) := by
  obtain ⟨ops, haccepts, hcaps⟩ := accepts_of_match? hmatch
  have hspace {gap : List Char} (hgap : space.Accepts gap []) : '#' ∉ gap :=
    not_mem_of_accepts (by decide) hgap
  rcases mark_of_mem_instructions hrule with havoids | ⟨e, he, rfl⟩ | rfl
  · exact absurd (List.mem_append_right front List.mem_cons_self)
      (not_mem_of_accepts havoids haccepts)
  · obtain ⟨w, gap, o, heq, hw, hgap, ho⟩ := accepts_spaced.mp haccepts
    have hwords : ∀ e ∈ V8.jumpCodes, (lit e.1).avoids '#' = true := by decide +kernel
    have hnot : '#' ∉ w ++ gap :=
      List.not_mem_append (not_mem_of_accepts (hwords e he) hw) (hspace hgap)
    obtain ⟨hnumber, rfl⟩ :=
      accepts_immediate_marked hfront hnot (heq.trans (List.append_assoc ..).symm) ho
    refine ⟨hnumber, _, rfl, fun p part hpart => ⟨[.bits (Bits.ofText e.2)], ?_⟩⟩
    have hcaptured : caps.get .a = String.ofList y := hcaps .a
    simp only [Dialect.fieldParts, Dialect.fieldPart, code, hcaptured, hpart]
    rfl
  · obtain ⟨w, c, gap, o, u, heq, hw, hc, hgap, ho, rfl⟩ := accepts_memory.mp haccepts
    have hnot : '#' ∉ w ++ [c] ++ gap := by
      refine List.not_mem_append (List.not_mem_append (not_mem_of_accepts (by decide) hw) ?_)
        (hspace hgap)
      rw [List.mem_singleton]
      rintro rfl
      exact absurd hc (by decide)
    obtain ⟨hnumber, rfl⟩ :=
      accepts_immediate_marked hfront hnot (heq.trans (List.append_assoc ..).symm) ho
    obtain ⟨bits, hbits⟩ := registerBits_of_isRegisterLetter hc
    refine ⟨hnumber, _, rfl, fun p part hpart => ⟨[.bits (Bits.ofText "01111"), .bits bits], ?_⟩⟩
    have hcaptured : caps.get .a = String.ofList y := hcaps .a
    have hregister : caps.get .r = String.ofList [c] := hcaps .r
    simp only [Dialect.fieldParts, Dialect.fieldPart, code, hcaptured, hregister, hbits, hpart]
    rfl

/-- Where a rule decides a line with the mark, it takes what is behind it for a number. -/
theorem find?_instructions_marked (hfront : '#' ∉ front) {action : Action}
    (h : Rule.find? instructions (front ++ '#' :: y) = some action) :
    number.Accepts y [] ∧ ∃ fields, action = .emit fields 2 none ∧
      ∀ p part, dialect.operand p (String.ofList y) 8 false false = .ok part →
        ∃ before, dialect.fieldParts p fields = .ok (before ++ [part]) := by
  obtain ⟨rule, hrule, caps, hmatch, rfl⟩ := Rule.exists_of_find? h
  exact match_marked hrule hfront hmatch

end Marks

/-! ## Names behind the mark -/

/-- The mnemonics of the instructions that take an immediate operand. -/
def immediateWords : List String :=
  ["jmp", "jz", "jnz", "jc", "jnc", "jsr"] ++
    ['a', 'b', 'c', 'd', 'e', 'f', 'x', 'y'].map "ld".push

/-- The line is one of those instructions, with the name behind the mark. -/
def MarksName (line name : String) : Prop :=
  ∃ word ∈ immediateWords, ∃ gap, gap ≠ [] ∧ (∀ c ∈ gap, isBlank c = true) ∧
    line.toList = (word.toList ++ gap) ++ '#' :: name.toList

section Lines

variable {line name word : String} {gap y : List Char}

theorem words_clear : ∀ word ∈ immediateWords,
    '#' ∉ word.toList ∧ '.' ∉ word.toList ∧ ':' ∉ word.toList := by
  decide +kernel

theorem not_mem_gap (hgap : ∀ c ∈ gap, isBlank c = true) {c : Char} (hc : isBlank c = false) :
    c ∉ gap := by
  intro hmem
  rw [hgap c hmem] at hc
  cases hc

/-- The instruction has a rule that takes a number behind the mark. -/
theorem exists_rule_of_number (hword : word ∈ immediateWords) (hne : gap ≠ [])
    (hgap : ∀ c ∈ gap, isBlank c = true) (hy : number.Accepts y []) :
    ∃ rule ∈ instructions, (rule.pattern.match? ((word.toList ++ gap) ++ '#' :: y)).isSome := by
  have hspace : space.Accepts gap [] := accepts_oneOrMore.mpr ⟨hne, hgap, rfl⟩
  have hnumber : immediate.Accepts ('#' :: y) [(.a, String.ofList y)] :=
    Or.inl ⟨['#'], y, [], [(.a, String.ofList y)], rfl, rfl, ⟨⟨'#', rfl, by decide⟩, rfl⟩,
      ⟨[], hy, rfl⟩⟩
  rw [List.append_assoc]
  rcases List.mem_append.mp hword with hjump | hload
  · have hcodes : ∀ word ∈ ["jmp", "jz", "jnz", "jc", "jnc", "jsr"],
        ∃ e ∈ V8.jumpCodes, e.1 = word := by decide
    obtain ⟨e, he, rfl⟩ := hcodes word hjump
    refine ⟨V8.jump immediate e.1 e.2, ?_, match?_isSome (accepts_spaced.mpr
      ⟨e.1.toList, gap, '#' :: y, rfl, accepts_lit.mpr ⟨rfl, rfl⟩, hspace, hnumber⟩)⟩
    have hmem : V8.jump immediate e.1 e.2 ∈
        V8.jumpCodes.map fun e => V8.jump immediate e.1 e.2 := List.mem_map.mpr ⟨e, he, rfl⟩
    exact List.mem_append_left _ (List.mem_append_left _ (List.mem_append_left _
      (List.mem_append_left _ (List.mem_append_right _ hmem))))
  · have hletters : ['a', 'b', 'c', 'd', 'e', 'f', 'x', 'y'].all V8.isRegisterLetter = true := by
      decide
    obtain ⟨c, hc, rfl⟩ := List.mem_map.mp hload
    have hmem : memory "ld" immediate "01111" ∈ instructions :=
      List.mem_append_right _ (.tail _ (.tail _ (.tail _ (.head _))))
    refine ⟨memory "ld" immediate "01111", hmem, match?_isSome (accepts_memory.mpr
      ⟨"ld".toList, c, gap, '#' :: y, _, ?_, accepts_lit.mpr ⟨rfl, rfl⟩,
        List.all_eq_true.mp hletters c hc, hspace, hnumber, rfl⟩)⟩
    rw [String.toList_push]

/-- Directives and labels have a point or a colon, which a line with a marked name lacks. -/
theorem find?_of_marksName (hname : label.Accepts name.toList []) (hline : MarksName line name) :
    Rule.find? dialect.rules line.toList = Rule.find? instructions line.toList := by
  obtain ⟨word, hword, gap, -, hgap, hlist⟩ := hline
  obtain ⟨-, hpoint, hcolon⟩ := words_clear word hword
  have hclear {c : Char} (hc : c ≠ '#' ∧ isBlank c = false ∧ label.avoids c = true)
      (hnot : c ∉ word.toList) : c ∉ line.toList := by
    rw [hlist]
    refine List.not_mem_append (List.not_mem_append hnot (not_mem_gap hgap hc.2.1)) ?_
    exact mt List.mem_cons.mp (not_or.mpr ⟨hc.1, not_mem_of_accepts hc.2.2 hname⟩)
  have hdirectives : Rule.find? directives line.toList = none := by
    have hsplit : directives = [Directive.dataRule .comma 1, Directive.addressRule number] ++
        [Directive.labelRule label] := rfl
    rw [hsplit, Rule.find?_append,
      signs.find?_directives_of_not_point (hclear (by decide) hpoint),
      signs.find?_label_of_not_colon (hclear (by decide) hcolon)]
    rfl
  have hrules : dialect.rules = instructions ++ directives := rules_eq
  rw [hrules, Rule.find?_append, hdirectives, Option.or_none]

/-- A name with another character than those of numbers is refused; any other one becomes the
reference to a label. -/
theorem placeText_of_marksName (hname : label.Accepts name.toList []) (hline : MarksName line name)
    (levels : Nat) (source : Source) (p : Program) :
    if name.toList.all isNumberChar then
      ∃ before, dialect.placeText levels source line p =
        ⟨[.place (before ++ [Part.ref ⟨name, 8, p.address, false, false⟩]) 2
          { source with matched := line }], none⟩
    else dialect.placeText levels source line p = .refused (.unknownInstruction line) := by
  have hfind := find?_of_marksName hname hline
  obtain ⟨word, hword, gap, hne, hgap, hlist⟩ := hline
  have hfront : '#' ∉ word.toList ++ gap :=
    List.not_mem_append (words_clear word hword).1 (not_mem_gap hgap (by decide))
  have hnonempty : line ≠ "" := by
    rintro rfl
    exact List.append_ne_nil_of_right_ne_nil _ (List.cons_ne_nil _ _) hlist.symm
  rw [hlist] at hfind
  split
  · rename_i hchars
    have hnumber := (accepts_number_iff hname).mpr (List.all_eq_true.mp hchars)
    obtain ⟨rule, hrule, hmatch⟩ := exists_rule_of_number hword hne hgap hnumber
    cases haction : Rule.find? instructions ((word.toList ++ gap) ++ '#' :: name.toList) with
    | none =>
      have hnone := List.findSome?_eq_none_iff.mp haction rule hrule
      rw [Option.map_eq_none_iff.mp hnone] at hmatch
      cases hmatch
    | some action =>
      obtain ⟨-, fields, rfl, hfields⟩ := find?_instructions_marked hfront haction
      have hoperand := operand_of_name (p := p) hname
      obtain ⟨before, hparts⟩ := hfields p _ hoperand
      refine ⟨before, ?_⟩
      rw [Dialect.placeText, if_neg hnonempty, hlist, hfind, haction]
      unfold Dialect.perform
      dsimp only
      rw [hparts, String.ofList_toList]
      rfl
  · rename_i hchars
    have hnone : Rule.find? instructions ((word.toList ++ gap) ++ '#' :: name.toList) = none := by
      rw [Option.eq_none_iff_forall_ne_some]
      intro action haction
      obtain ⟨hnumber, -⟩ := find?_instructions_marked hfront haction
      exact hchars (List.all_eq_true.mpr ((accepts_number_iff hname).mp hnumber))
    rw [Dialect.placeText, if_neg hnonempty, hlist, hfind, hnone]

end Lines

/-- A name is told by matching it. -/
theorem accepts_label {name : String} (h : (label.match? name.toList).isSome = true) :
    label.Accepts name.toList [] := by
  obtain ⟨caps, hcaps⟩ := Option.isSome_iff_exists.mp h
  obtain ⟨ops, haccepts, -⟩ := accepts_of_match? hcaps
  rwa [eq_nil_of_slotFree rfl haccepts] at haccepts

/-- A line with a name behind the mark of immediate data is refused, whatever labels there are, if
and only if the name has a character that numbers do not have.  It is then reported, and nothing
comes of it. -/
theorem marked_name_is_refused {name : String} (hname : label.Accepts name.toList [])
    (text : String) (number : Nat) (hline : MarksName (dialect.instructionAt text number) name) :
    let refusal := Fault.unknownInstruction (dialect.instructionAt text number)
    (dialect.outcomeAt text number = .refused refusal ↔
      ∃ c ∈ name.toList, isNumberChar c = false) ∧
    ((∃ c ∈ name.toList, isNumberChar c = false) →
      ⟨number, refusal⟩ ∈ (dialect.assemble text).errors ∧
        (∀ d ∈ (dialect.assemble text).errors, d.line = number → d.fault = refusal) ∧
        dialect.outputAt text number = []) := by
  intro refusal
  have hplace := placeText_of_marksName hname hline Dialect.maxExpansions
    ⟨number, (Text.lines text).getD number "", dialect.instructionAt text number,
      dialect.instructionAt text number⟩ (dialect.programBefore text number)
  have hother : name.toList.all isNumberChar = false ↔ ∃ c ∈ name.toList, isNumberChar c = false :=
    List.all_eq_false.trans (by simp)
  have hrefused (h : ∃ c ∈ name.toList, isNumberChar c = false) :
      dialect.outcomeAt text number = .refused refusal := by
    rw [hother.mpr h, if_neg Bool.false_ne_true] at hplace
    exact hplace
  refine ⟨⟨fun h => ?_, hrefused⟩, fun h => Dialect.reported_of_refused wellFormed (hrefused h)⟩
  by_contra hnone
  rw [← hother, Bool.not_eq_false] at hnone
  rw [hnone, if_pos rfl] at hplace
  obtain ⟨before, hplaced⟩ := hplace
  have hedits := congrArg Outcome.edits (h.symm.trans hplaced)
  cases hedits

/-- A name with a letter behind f is refused. -/
theorem loop_is_refused_behind_mark :
    ⟨1, .unknownInstruction "lda #loop"⟩ ∈ (dialect.assemble "loop:\nlda #loop").errors := by
  have hline : dialect.instructionAt "loop:\nlda #loop" 1 = "lda #loop" := by decide +kernel
  have hmarks : MarksName (dialect.instructionAt "loop:\nlda #loop" 1) "loop" := by
    rw [hline]
    exact ⟨"lda", by decide, [' '], by simp, by simp [isBlank], by decide +kernel⟩
  have hname : label.Accepts "loop".toList [] := accepts_label (by decide +kernel)
  have hrefused := (marked_name_is_refused hname "loop:\nlda #loop" 1 hmarks).2
    ⟨'l', by decide +kernel, by decide⟩
  rw [hline] at hrefused
  exact hrefused.1

/-- A name of letters up to f is taken for a number, and then for the label. -/
theorem face_is_accepted_behind_mark :
    label.Accepts "face".toList [] ∧
      MarksName (dialect.instructionAt "face:\nlda #face" 1) "face" ∧
      (dialect.assemble "face:\nlda #face").errors = [] ∧
      (dialect.assemble "face:\nlda #face").labels = ["face"] := by
  obtain ⟨hline, herrors, hlabels⟩ :
      dialect.instructionAt "face:\nlda #face" 1 = "lda #face" ∧
        (dialect.assemble "face:\nlda #face").errors = [] ∧
        (dialect.assemble "face:\nlda #face").labels = ["face"] := by
    decide +kernel
  refine ⟨accepts_label (by decide +kernel), ?_, herrors, hlabels⟩
  rw [hline]
  exact ⟨"lda", by decide, [' '], by simp, by simp [isBlank], by decide +kernel⟩

end PocketAsm.Lodestar
