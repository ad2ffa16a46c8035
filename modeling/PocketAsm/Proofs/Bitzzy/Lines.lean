/-
  Proofs/Bitzzy/Lines.lean --- lines of the Bitzzy and their tokens.

  The pattern of a line is a mnemonic and patterns of operands, set apart by
  separators.  The texts that the operands match are the tokens of the line
  (`tokens_of_spelled`), so what a line that matches is read as depends on the
  shapes of its operands only (`exists_tokens_of_match?`).
-/
import PocketAsm.Isa.Bitzzy.Dialect
import PocketAsm.Proofs.Bitzzy.Meaning

set_option autoImplicit false

namespace PocketAsm.Bitzzy

open Operand Pattern Text

variable {cs : List Char} {ops : List (Slot × String)} {mnemonic : String}

/-! ## Operands between separators -/

/-- Each pattern accepts its text; the operands are captured from all of them. -/
def AcceptsEach : List Pattern → List (List Char) → List (Slot × String) → Prop
  | [], [], ops => ops = []
  | p :: ps, o :: os, ops => ∃ u v, ops = v ++ u ∧ p.Accepts o u ∧ AcceptsEach ps os v
  | _, _, _ => False

/-- The text is the given ones, each behind a separator. -/
def Trail : List (List Char) → List Char → Prop
  | [], cs => cs = []
  | o :: os, cs =>
    ∃ gap rest, cs = gap ++ (o ++ rest) ∧ separator.Accepts gap [] ∧ Trail os rest

/-- The line is the mnemonic and the operands. -/
def Spelled (mnemonic : String) : List (List Char) → List Char → Prop
  | [], cs => (lit mnemonic).Accepts cs []
  | o :: os, cs =>
    ∃ w gap rest, cs = w ++ (gap ++ (o ++ rest)) ∧ (lit mnemonic).Accepts w [] ∧
      space.Accepts gap [] ∧ Trail os rest

theorem accepts_trail {ps : List Pattern} :
    (all (ps.flatMap ([.separator, ·]))).Accepts cs ops ↔
      ∃ os, Trail os cs ∧ AcceptsEach ps os ops := by
  induction ps generalizing cs ops with
  | nil =>
    rw [List.flatMap_nil, accepts_all_nil]
    constructor
    · rintro ⟨rfl, rfl⟩
      exact ⟨[], rfl, rfl⟩
    · rintro ⟨os, htrail, heach⟩
      cases os with
      | nil => exact ⟨htrail, heach⟩
      | cons o os => exact heach.elim
  | cons p ps ih =>
    rw [List.flatMap_cons, List.cons_append, List.singleton_append, accepts_all_cons]
    constructor
    · rintro ⟨gap, y, u, v, rfl, rfl, hgap, hy⟩
      obtain ⟨o, rest, u', v', rfl, rfl, ho, hrest⟩ := accepts_all_cons.mp hy
      obtain ⟨-, rfl⟩ := accepts_separator hgap
      obtain ⟨os, htrail, heach⟩ := ih.mp hrest
      exact ⟨o :: os, ⟨gap, rest, rfl, hgap, htrail⟩, u', v', by simp, ho, heach⟩
    · rintro ⟨os, htrail, heach⟩
      cases os with
      | nil => exact heach.elim
      | cons o os =>
        obtain ⟨gap, rest, rfl, hgap, htrail⟩ := htrail
        obtain ⟨u, v, rfl, ho, heach⟩ := heach
        refine ⟨gap, o ++ rest, [], v ++ u, rfl, by simp, hgap, ?_⟩
        exact accepts_all_cons.mpr ⟨o, rest, u, v, rfl, rfl, ho, ih.mpr ⟨os, htrail, heach⟩⟩

/-- The pattern of a line accepts what is spelled with operands that it accepts. -/
theorem accepts_line {ps : List Pattern} :
    (line mnemonic ps).Accepts cs ops ↔
      ∃ os, Spelled mnemonic os cs ∧ AcceptsEach ps os ops := by
  cases ps with
  | nil =>
    constructor
    · intro h
      obtain ⟨hfold, rfl⟩ := accepts_lit.mp h
      exact ⟨[], h, rfl⟩
    · rintro ⟨os, hspelled, heach⟩
      cases os with
      | nil => exact heach ▸ hspelled
      | cons o os => exact heach.elim
  | cons p ps =>
    rw [line, List.cons_append, List.cons_append, List.cons_append, List.nil_append,
      accepts_all_cons]
    constructor
    · rintro ⟨w, y, u, v, rfl, rfl, hw, hy⟩
      obtain ⟨gap, z, u', v', rfl, rfl, hgap, hz⟩ := accepts_all_cons.mp hy
      obtain ⟨o, rest, u'', v'', rfl, rfl, ho, hrest⟩ := accepts_all_cons.mp hz
      obtain ⟨-, rfl⟩ := accepts_lit.mp hw
      obtain ⟨-, rfl⟩ := accepts_space hgap
      obtain ⟨os, htrail, heach⟩ := accepts_trail.mp hrest
      exact ⟨o :: os, ⟨w, gap, rest, rfl, hw, hgap, htrail⟩, u'', v'', by simp, ho, heach⟩
    · rintro ⟨os, hspelled, heach⟩
      cases os with
      | nil => exact heach.elim
      | cons o os =>
        obtain ⟨w, gap, rest, rfl, hw, hgap, htrail⟩ := hspelled
        obtain ⟨u, v, rfl, ho, heach⟩ := heach
        refine ⟨w, gap ++ (o ++ rest), [], v ++ u, rfl, by simp, hw, ?_⟩
        refine accepts_all_cons.mpr ⟨gap, o ++ rest, [], v ++ u, rfl, by simp, hgap, ?_⟩
        exact accepts_all_cons.mpr
          ⟨o, rest, u, v, rfl, rfl, ho, accepts_trail.mpr ⟨os, htrail, heach⟩⟩

/-! ## Tokens -/

theorem tokens_of_trail {os : List (List Char)} (hos : ∀ o ∈ os, Whole o ∧ o ≠ [])
    (h : Trail os cs) : ∀ x, Whole x → x ≠ [] →
      tokens (x ++ cs) = String.ofList x :: os.map String.ofList := by
  induction os generalizing cs with
  | nil =>
    intro x hx hne
    obtain rfl : cs = [] := h
    rw [List.append_nil, tokens_last hx hne]
    rfl
  | cons o os ih =>
    intro x hx hne
    obtain ⟨gap, rest, rfl, hgap, htrail⟩ := h
    obtain ⟨ho, hos⟩ := List.forall_mem_cons.mp hos
    rw [tokens_append hx hne (accepts_separator hgap).1, ih hos htrail o ho.1 ho.2]
    rfl

/-- The tokens of a line are its mnemonic and its operands. -/
theorem tokens_of_spelled (hmnemonic : IsMnemonic mnemonic) {os : List (List Char)}
    (hos : ∀ o ∈ os, Whole o ∧ o ≠ []) (h : Spelled mnemonic os cs) :
    ∃ w, folded w = mnemonic ∧ tokens cs = w :: os.map String.ofList := by
  cases os with
  | nil =>
    obtain ⟨hfold, hatom, hne⟩ := hmnemonic.accepts h
    exact ⟨String.ofList cs, hfold, tokens_last (whole_of_atom hatom) hne⟩
  | cons o os =>
    obtain ⟨w, gap, rest, rfl, hw, hgap, htrail⟩ := h
    obtain ⟨hfold, hatom, hne⟩ := hmnemonic.accepts hw
    obtain ⟨ho, hos⟩ := List.forall_mem_cons.mp hos
    refine ⟨String.ofList w, hfold, ?_⟩
    rw [tokens_append (whole_of_atom hatom) hne (accepts_space hgap).1,
      tokens_of_trail hos htrail o ho.1 ho.2]
    rfl

/-- A line is read by its mnemonic and its operands. -/
theorem read?_of_spelled (hmnemonic : IsMnemonic mnemonic) {os : List (List Char)}
    (hos : ∀ o ∈ os, Whole o ∧ o ≠ []) (h : Spelled mnemonic os cs) :
    Statement.read? (String.ofList cs) = Statement.ofTokens? mnemonic (os.map String.ofList) := by
  obtain ⟨w, hfold, htokens⟩ := tokens_of_spelled hmnemonic hos h
  rw [Statement.read?, String.toList_ofList, htokens]
  simp only [hfold]

/-! ## Shapes of operands -/

/-- What an operand of a line looks like. -/
inductive Shape where
  | register (r : Reg)
  /-- the register pair -/
  | yx
  | address (name : Slot)
  | immediate
  deriving DecidableEq, Repr, Inhabited

namespace Shape

/-- The pattern of the operand. -/
def pattern : Shape → Pattern
  | .register r => theReg r
  | .yx => .lit "yx"
  | .address name => inSlot name
  | .immediate => Bitzzy.immediate

/-- The token has the shape. -/
def Fits (token : String) : Shape → Prop
  | .register r =>
    Statement.register? token = some r ∧ Statement.index? token = some (.reg r) ∧
      marked? token = none
  | .yx => Statement.index? token = some .yx
  | .address _ => marked? token = none ∧ Whole token.toList ∧ token.toList ≠ []
  | .immediate => (marked? token).isSome = true

/-- What the slots hold. -/
def captures (token : String) : Shape → List (Slot × String)
  | .address name => [(name, token)]
  | .immediate => [(.a, (marked? token).getD "")]
  | _ => []

end Shape

/-- The letter of a register as text. -/
def Reg.name (r : Reg) : String := String.ofList [r.letter]

theorem theReg_eq_lit (r : Reg) : theReg r = .lit r.name := by
  cases r <;> rfl

theorem register?_of_folded {token : String} {r : Reg} (h : folded token = r.name) :
    Statement.register? token = some r ∧ Statement.index? token = some (.reg r) := by
  simp only [Statement.index?, Statement.register?, h]
  cases r <;> exact ⟨rfl, rfl⟩

/-- The letter of a register, in either case, is its name. -/
theorem accepts_theReg {token : String} {r : Reg} (h : Statement.register? token = some r) :
    (theReg r).Accepts token.toList [] := by
  have hfold : folded token = r.name := by
    rw [Statement.register?] at h
    split at h
    all_goals cases h
    all_goals assumption
  have hname : r.name.toList.map foldLetter = r.name.toList := by cases r <;> rfl
  rw [theReg_eq_lit, accepts_lit, hname, ← hfold, toList_folded]
  exact ⟨rfl, rfl⟩

/-- A token that folds onto a text without the mark of immediate data has no such mark. -/
theorem marked?_of_folded {token name : String} (h : folded token = name)
    (hname : name.toList.head? ≠ some '#') : marked? token = none := by
  rw [marked?]
  split
  · rename_i rest htoken
    rw [← h, toList_folded, htoken] at hname
    exact absurd rfl hname
  · rfl

theorem accepts_operand (h : Bitzzy.operand.Accepts cs ops) :
    marked? (String.ofList cs) = none ∧ Whole cs ∧ cs ≠ [] := by
  obtain ⟨hwhole, c, rest, rfl, hc⟩ := accepts_value (by decide) h
  refine ⟨?_, hwhole, by simp⟩
  rw [marked?, String.toList_ofList]
  split
  · rename_i heq
    exact absurd (List.cons.inj heq).1 hc
  · rfl

/-- What the pattern of an operand accepts is a token of its shape. -/
theorem Shape.fits_of_accepts (shape : Shape) (h : shape.pattern.Accepts cs ops) :
    shape.Fits (String.ofList cs) ∧ ops = shape.captures (String.ofList cs) ∧ Whole cs ∧
      cs ≠ [] := by
  cases shape with
  | register r =>
    have hmnemonic : IsMnemonic r.name := by cases r <;> decide
    rw [Shape.pattern, theReg_eq_lit] at h
    obtain ⟨hfold, hatom, hne⟩ := hmnemonic.accepts h
    obtain ⟨hregister, hindex⟩ := register?_of_folded hfold
    refine ⟨⟨hregister, hindex, marked?_of_folded hfold ?_⟩, (accepts_lit.mp h).2,
      whole_of_atom hatom, hne⟩
    cases r <;> decide
  | yx =>
    have hmnemonic : IsMnemonic "yx" := by decide
    obtain ⟨hfold, hatom, hne⟩ := hmnemonic.accepts h
    refine ⟨?_, (accepts_lit.mp h).2, whole_of_atom hatom, hne⟩
    simp [Shape.Fits, Statement.index?, hfold]
  | address name =>
    obtain ⟨hoperand, rfl⟩ := accepts_slot rfl h
    obtain ⟨hmarked, hwhole, hne⟩ := accepts_operand hoperand
    refine ⟨⟨hmarked, ?_⟩, rfl, hwhole, hne⟩
    rw [String.toList_ofList]
    exact ⟨hwhole, hne⟩
  | immediate =>
    obtain ⟨x, y, u, v, rfl, rfl, hmark, hslot⟩ := h
    obtain ⟨hoperand, rfl⟩ := accepts_slot rfl hslot
    obtain ⟨-, hwhole, -⟩ := accepts_operand hoperand
    obtain ⟨-, rfl⟩ := accepts_letter.mp hmark
    rw [accepts_sign (by decide) (by decide) hmark]
    have hmarked : marked? (String.ofList (['#'] ++ y)) = some (String.ofList y) := by
      rw [marked?, String.toList_ofList]
      rfl
    refine ⟨?_, ?_, Whole.append (whole_of_plain ?_ (by decide)) hwhole, by simp⟩
    · rw [Shape.Fits, hmarked]
      rfl
    · rw [Shape.captures, hmarked]
      rfl
    · simp [Plain, isSeparator, isBlank]

/-! ## Lines that match -/

/-- The tokens have the shapes. -/
def FitEach (shapes : List Shape) (os : List String) : Prop :=
  List.Forall₂ (fun shape token => shape.Fits token) shapes os

/-- What the slots of a line hold, the latest one first. -/
def captures : List Shape → List String → List (Slot × String)
  | shape :: shapes, o :: os => captures shapes os ++ shape.captures o
  | _, _ => []

theorem fitEach_of_acceptsEach {shapes : List Shape} {os : List (List Char)}
    (h : AcceptsEach (shapes.map Shape.pattern) os ops) :
    FitEach shapes (os.map String.ofList) ∧ ops = captures shapes (os.map String.ofList) ∧
      ∀ o ∈ os, Whole o ∧ o ≠ [] := by
  induction shapes generalizing os ops with
  | nil =>
    cases os with
    | nil => exact ⟨.nil, h, by simp⟩
    | cons o os => exact h.elim
  | cons shape shapes ih =>
    cases os with
    | nil => exact h.elim
    | cons o os =>
      obtain ⟨u, v, rfl, ho, hos⟩ := h
      obtain ⟨hfits, rfl, htoken⟩ := shape.fits_of_accepts ho
      obtain ⟨hrest, rfl, htokens⟩ := ih hos
      exact ⟨.cons hfits hrest, rfl, List.forall_mem_cons.mpr ⟨htoken, htokens⟩⟩

theorem acceptsEach_registers {registers : List Reg} {os : List (List Char)}
    (h : os.map (fun o => Statement.register? (String.ofList o)) = registers.map some) :
    AcceptsEach (registers.map theReg) os [] := by
  induction registers generalizing os with
  | nil =>
    obtain rfl := List.map_eq_nil_iff.mp h
    rfl
  | cons r registers ih =>
    obtain ⟨o, os, rfl, ho, hos⟩ := List.map_eq_cons_iff.mp h
    have hregister := accepts_theReg ho
    rw [String.toList_ofList] at hregister
    exact ⟨[], [], rfl, hregister, ih hos⟩

/-- A line that matches is read by tokens that have the shapes of its operands.  If all of them are
registers, it matches the pattern of these registers too. -/
theorem exists_tokens_of_match? (hmnemonic : IsMnemonic mnemonic) {shapes : List Shape}
    {caps : Captures} (h : (line mnemonic (shapes.map Shape.pattern)).match? cs = some caps) :
    ∃ os, Statement.read? (String.ofList cs) = Statement.ofTokens? mnemonic os ∧
      FitEach shapes os ∧ (∀ name, caps.get name = captured (captures shapes os) name) ∧
      ∀ registers : List Reg, os.map Statement.register? = registers.map some →
        ((line mnemonic (registers.map theReg)).match? cs).isSome = true := by
  obtain ⟨ops, haccepts, hcaps⟩ := accepts_of_match? h
  obtain ⟨os, hspelled, heach⟩ := accepts_line.mp haccepts
  obtain ⟨hfits, rfl, hos⟩ := fitEach_of_acceptsEach heach
  refine ⟨os.map String.ofList, read?_of_spelled hmnemonic hos hspelled, hfits, hcaps, ?_⟩
  intro registers hregisters
  rw [List.map_map] at hregisters
  exact match?_isSome (accepts_line.mpr ⟨os, hspelled, acceptsEach_registers hregisters⟩)

end PocketAsm.Bitzzy
