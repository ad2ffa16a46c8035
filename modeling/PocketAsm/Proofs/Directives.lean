/-
  Proofs/Directives.lean --- lines that begin with the word of a directive.

  A line that holds no mark of a comment and has no blanks at its ends is read
  as it stands (`instructionOf_eq_self`).  If it begins with a point, it is no
  instruction and no label, and of the directives only the one with its word
  can match it (`find?_of_word`).  What stands behind the word and one blank is
  then the operand, as long as it does not begin with a blank itself
  (`accepts_behind_word`).
-/
import PocketAsm.Proofs.Origin
import PocketAsm.Proofs.Tokens

set_option autoImplicit false

namespace PocketAsm

/-! ## Comments -/

namespace Dialect

/-- Nothing is cut off exactly if no mark stands anywhere in the text. -/
theorem beforeComment_eq_self_iff {marks : List (List Char)} (hmarks : ∀ mark ∈ marks, mark ≠ [])
    (cs : List Char) : beforeComment marks cs = cs ↔ ∀ mark ∈ marks, ¬mark <:+: cs := by
  induction cs with
  | nil => simpa [beforeComment] using hmarks
  | cons c cs ih =>
    rw [beforeComment]
    by_cases hbegins : marks.any (·.isPrefixOf (c :: cs)) = true
    · obtain ⟨mark, hmark, hstarts⟩ := List.any_eq_true.mp hbegins
      have hwithin : mark <:+: c :: cs := (List.isPrefixOf_iff_prefix.mp hstarts).isInfix
      simp only [hbegins, if_true, List.nil_eq, reduceCtorEq, false_iff]
      exact fun hnone => hnone mark hmark hwithin
    · have hnot : ∀ mark ∈ marks, ¬mark <+: c :: cs := by
        intro mark hmark hstarts
        exact hbegins (List.any_eq_true.mpr ⟨mark, hmark, List.isPrefixOf_iff_prefix.mpr hstarts⟩)
      rw [if_neg hbegins, List.cons.injEq, eq_self, true_and, ih]
      refine forall₂_congr fun mark hmark => not_congr ?_
      rw [List.infix_cons_iff, or_iff_right (hnot mark hmark)]

/-- A comment begins with the first of its marks at the latest. -/
theorem beforeComment_starts {marks : List (List Char)} {mark : List Char} (hmark : mark ∈ marks)
    (front rest : List Char) : beforeComment marks (front ++ (mark ++ rest)) <+: front := by
  induction front with
  | nil =>
    rw [List.nil_append, List.prefix_nil]
    cases hcs : mark ++ rest with
    | nil => rfl
    | cons c cs =>
      have hbegins : mark.isPrefixOf (c :: cs) = true := by
        rw [← hcs, List.isPrefixOf_iff_prefix]
        exact List.prefix_append mark rest
      rw [beforeComment, if_pos (List.any_eq_true.mpr ⟨mark, hmark, hbegins⟩)]
  | cons c front ih =>
    rw [List.cons_append, beforeComment]
    split
    · exact List.nil_prefix
    · exact List.cons_prefix_cons.mpr ⟨rfl, ih⟩

/-- No mark of a comment stands anywhere in the text. -/
def Unmarked (dialect : Dialect) (cs : List Char) : Prop :=
  ∀ mark ∈ dialect.comments, ¬mark.toList <:+: cs

instance (dialect : Dialect) (cs : List Char) : Decidable (dialect.Unmarked cs) :=
  inferInstanceAs (Decidable (∀ mark ∈ dialect.comments, ¬mark.toList <:+: cs))

variable {dialect : Dialect}

/-- Where each mark lacks a character there is none. -/
theorem unmarked_of_lacks {cs : List Char}
    (h : ∀ mark ∈ dialect.comments, ∃ c ∈ mark.toList, c ∉ cs) : dialect.Unmarked cs := by
  intro mark hmark hwithin
  obtain ⟨c, hc, hnot⟩ := h mark hmark
  exact hnot (hwithin.subset hc)

/-- A mark stands on one side of a character that it does not hold. -/
theorem Unmarked.append {xs ys : List Char} (hx : dialect.Unmarked xs) (hy : dialect.Unmarked ys)
    {c : Char} (hc : ∀ mark ∈ dialect.comments, c ∉ mark.toList) :
    dialect.Unmarked (xs ++ c :: ys) := by
  intro mark hmark hwithin
  have hstarts {front : List Char} (hfront : front ⊆ mark.toList) (h : front <+: c :: ys) :
      front = [] := by
    rcases List.prefix_cons_iff.mp h with rfl | ⟨rest, rfl, -⟩
    · rfl
    · exact absurd (hfront List.mem_cons_self) (hc mark hmark)
  rcases List.infix_append_iff.mp hwithin with h | h | ⟨front, back, heq, hfront, hback⟩
  · exact hx mark hmark h
  · rcases List.infix_cons_iff.mp h with h | h
    · exact hx mark hmark (hstarts (List.Subset.refl _) h ▸ List.nil_infix)
    · exact hy mark hmark h
  · rw [hstarts (heq ▸ List.subset_append_right _ _) hback, List.append_nil] at heq
    exact hx mark hmark (heq ▸ hfront.isInfix)

/-- A line without marks of comments and without blanks at its ends is read as it stands. -/
theorem instructionOf_eq_self {raw : String} (hfolds : dialect.foldsCase = false)
    (hmarks : "" ∉ dialect.comments) (hunmarked : dialect.Unmarked raw.toList)
    (hfirst : ∀ c ∈ raw.toList.head?, Text.isBlank c = false)
    (hlast : ∀ c ∈ raw.toList.getLast?, Text.isBlank c = false) :
    dialect.instructionOf raw = raw := by
  have hcut : beforeComment (dialect.comments.map String.toList) raw.toList = raw.toList := by
    refine (beforeComment_eq_self_iff ?_ _).mpr ?_
    · simp only [List.mem_map, forall_exists_index, and_imp, forall_apply_eq_imp_iff₂]
      intro mark hmark hempty
      exact hmarks (String.toList_eq_nil_iff.mp hempty ▸ hmark)
    · simpa [Unmarked] using hunmarked
  rw [instructionOf, stripComment, hcut, Text.trim_eq_self hfirst hlast, hfolds,
    String.ofList_toList]
  rfl

end Dialect

namespace Pattern

open Text

/-! ## How a line begins -/

/-- The pattern accepts no text that begins with the character. -/
def opensWithout (c : Char) : Pattern → Bool
  | .empty => true
  | .one p | .many p | .few p => !p c
  | .seq first second => first.opensWithout c && (first.consumes || second.opensWithout c)
  | .alt first second => first.opensWithout c && second.opensWithout c
  | .slot _ body => body.opensWithout c

theorem head_ne_of_opensWithout {c : Char} {pattern : Pattern}
    (h : pattern.opensWithout c = true) {cs : List Char} {ops : List (Slot × String)}
    (haccepts : pattern.Accepts cs ops) : cs.head? ≠ some c := by
  -- a run that begins with the character would have it in its class
  have hrun {p : Char → Bool} (hp : (!p c) = true) {ds : List Char} (hds : ∀ d ∈ ds, p d = true) :
      ds.head? ≠ some c := by
    intro hhead
    simp [hds c (List.mem_of_head? hhead)] at hp
  induction pattern generalizing cs ops with
  | empty =>
    obtain ⟨rfl, -⟩ := haccepts
    simp
  | one p =>
    obtain ⟨⟨d, rfl, hd⟩, -⟩ := haccepts
    exact hrun h (by simpa using hd)
  | many p => exact hrun h haccepts.1
  | few p => exact hrun h haccepts.1
  | seq first second ih₁ ih₂ =>
    obtain ⟨hfirst, hnext⟩ := Bool.and_eq_true_iff.mp h
    obtain ⟨x, y, u, v, rfl, -, hx, hy⟩ := haccepts
    cases x with
    | cons d x => simpa using ih₁ hfirst hx
    | nil =>
      rcases Bool.or_eq_true_iff.mp hnext with hconsumes | hsecond
      · exact absurd rfl (ne_nil_of_consumes hconsumes hx)
      · exact ih₂ hsecond hy
  | alt first second ih₁ ih₂ =>
    obtain ⟨hfirst, hsecond⟩ := Bool.and_eq_true_iff.mp h
    rcases haccepts with haccepts | haccepts
    · exact ih₁ hfirst haccepts
    · exact ih₂ hsecond haccepts
  | slot name body ih =>
    obtain ⟨u, hbody, -⟩ := haccepts
    exact ih h hbody

/-! ## Operands behind a word -/

variable {word : String} {target : Pattern} {o : List Char} {ops : List (Slot × String)}

/-- Behind a word and one blank a line is as the pattern behind the word wants it. -/
theorem accepts_behind_word (hword : IsWord word) (ho : ∀ c ∈ o.head?, isBlank c = false) :
    (all [.lit word, .space, target]).Accepts (word.toList ++ ' ' :: o) ops ↔
      target.Accepts o ops := by
  have hself : (lit word).Accepts word.toList [] := accepts_lit.mpr ⟨rfl, rfl⟩
  constructor
  · intro h
    obtain ⟨w, gap, o', heq, hw, hgap, htarget⟩ := accepts_spaced.mp h
    obtain ⟨hne, hblank, -⟩ := accepts_oneOrMore.mp hgap
    obtain ⟨-, hplain, -⟩ := accepts_word hword hw
    obtain ⟨hfirst, hrest⟩ := takeWhile_plain_append hplain (accepts_space hgap).1 o'
    obtain ⟨-, hrest'⟩ := takeWhile_plain_append hword.plain gap_blank o
    have hsame : gap ++ o' = ' ' :: o := by
      rw [← hrest, ← heq]
      exact hrest'
    -- the blank is the whole gap, since no other one follows
    obtain ⟨c, gap, rfl⟩ := List.exists_cons_of_ne_nil hne
    obtain ⟨-, htail⟩ := List.cons.inj hsame
    cases gap with
    | nil => rwa [← htail]
    | cons d gap =>
      have hd : isBlank d = false := ho d (by simp [← htail])
      simp [hblank d (by simp)] at hd
  · intro h
    refine accepts_spaced.mpr ⟨word.toList, [' '], o, rfl, hself, ?_, h⟩
    exact accepts_oneOrMore.mpr ⟨by simp, by simp [isBlank], rfl⟩

/-- What stands behind the word is captured as it stands. -/
theorem match?_behind_word (hword : IsWord word) (ho : ∀ c ∈ o.head?, isBlank c = false)
    (hfree : target.slotFree = true) (htarget : target.Accepts o []) (name : Slot) :
    ∃ caps, (all [.lit word, .space, .slot name target]).match? (word.toList ++ ' ' :: o) =
      some caps ∧ caps.get name = String.ofList o := by
  have hslot : (Pattern.slot name target).Accepts o [(name, String.ofList o)] :=
    ⟨[], htarget, rfl⟩
  obtain ⟨caps, hmatch⟩ := Option.isSome_iff_exists.mp
    (match?_isSome ((accepts_behind_word hword ho).mpr hslot))
  obtain ⟨ops, haccepts, hcaps⟩ := accepts_of_match? hmatch
  obtain ⟨-, rfl⟩ := accepts_slot hfree ((accepts_behind_word hword ho).mp haccepts)
  exact ⟨caps, hmatch, by simp [hcaps, captured]⟩

end Pattern

/-! ## The rule with the word of a line -/

/-- A table of rules that begin with no point, and behind them a table of rules with words: on a
line with such a word only the rules with this word count. -/
theorem Rule.find?_of_word {leading rules : List Rule} {words : List String} {word : String}
    (hleading : (leading.all (·.pattern.opensWithout '.')) = true)
    (hrules : List.Forall₂ Begins words rules) (hword : IsWord word)
    (hpoint : word.toList.head? = some '.') (o : List Char) :
    find? (leading ++ rules) (word.toList ++ ' ' :: o) =
      find? (withWord words rules word) (word.toList ++ ' ' :: o) := by
  have hhead : (word.toList ++ ' ' :: o).head? = some '.' := by simp [List.head?_append, hpoint]
  have hfirst : Text.firstField (word.toList ++ ' ' :: o) = word :=
    hword.firstField Text.gap_blank o
  have hnone : find? leading (word.toList ++ ' ' :: o) = none := by
    refine find?_eq_none fun rule hrule => ?_
    refine Option.eq_none_iff_forall_ne_some.mpr fun caps hmatch => ?_
    obtain ⟨ops, haccepts, -⟩ := Pattern.accepts_of_match? hmatch
    exact Pattern.head_ne_of_opensWithout (List.all_eq_true.mp hleading rule hrule) haccepts hhead
  rw [find?_append, hnone, Option.none_or, find?_eq_withWord hrules, hfirst, hword.folded]

namespace Directive

/-- The words of the common directives behind the rule of labels, in the order of the table. -/
def words : List String := [".data", ".repeat", ".eq", ".address", ".align", ".start", ".end"]

/-- Every common directive begins with its word. -/
theorem common_begin (operand cut : Pattern) (symbolWords : Nat) :
    List.Forall₂ Rule.Begins words (common operand cut symbolWords).tail := by
  refine .cons (Rule.begins_spaced (by decide)) (.cons (Rule.begins_spaced (by decide))
    (.cons (Rule.begins_spaced (by decide)) (.cons (Rule.begins_spaced (by decide))
      (.cons (Rule.begins_spaced (by decide)) (.cons (Rule.begins_alone (by decide))
        (.cons (Rule.begins_alone (by decide)) .nil))))))

end Directive

namespace Dialect

/-- On a line with the word of a common directive only the rule of this directive counts. -/
structure HasDirectives (dialect : Dialect) (operand cut : Pattern) (symbolWords : Nat) :
    Prop where
  find? : ∀ word ∈ Directive.words, ∀ o : List Char,
    Rule.find? dialect.rules (word.toList ++ ' ' :: o) =
      Rule.find?
        (Rule.withWord Directive.words (Directive.common operand cut symbolWords).tail word)
        (word.toList ++ ' ' :: o)

variable {dialect : Dialect} {operand cut : Pattern} {symbolWords : Nat}

/-- A table with the common directives behind instructions that begin with no point, and other
directives behind them. -/
theorem HasDirectives.of_rules {instructions others : List Rule} {otherWords : List String}
    (hrules : dialect.rules =
      instructions ++ Directive.common operand cut symbolWords ++ others)
    (hleading : ((instructions ++ [Directive.labelRule operand]).all
      (·.pattern.opensWithout '.')) = true)
    (hothers : List.Forall₂ Rule.Begins otherWords others)
    (hnew : ∀ word ∈ Directive.words, word ∉ otherWords) :
    dialect.HasDirectives operand cut symbolWords where
  find? word hword o := by
    have hplain : IsWord word ∧ word.toList.head? = some '.' := by
      have htable : ∀ word ∈ Directive.words, IsWord word ∧ word.toList.head? = some '.' := by
        decide
      exact htable word hword
    have hsplit : dialect.rules = (instructions ++ [Directive.labelRule operand]) ++
        ((Directive.common operand cut symbolWords).tail ++ others) := by
      rw [hrules, List.append_assoc, List.append_assoc]
      rfl
    have hbegin := Directive.common_begin operand cut symbolWords
    have hlength :
        Directive.words.length = (Directive.common operand cut symbolWords).tail.length :=
      hbegin.length_eq
    have hnone : (otherWords.zip others).filter (·.1 == word) = [] := by
      rw [List.filter_eq_nil_iff]
      rintro ⟨other, rule⟩ hmem heq
      obtain rfl := beq_iff_eq.mp heq
      exact hnew _ hword (List.of_mem_zip hmem).1
    rw [hsplit, Rule.find?_of_word hleading (List.rel_append hbegin hothers) hplain.1 hplain.2,
      Rule.withWord, List.zip_append hlength, List.filter_append, hnone, List.append_nil]
    rfl

/-- A text that is a number has its value. -/
theorem literal_of_read {text : String} {n : Int}
    (h : dialect.numbers.read text = .ok (some n)) (p : Program) :
    dialect.literal p text = .ok n := by
  rw [literal, literal?, h]

section Operand

variable (h : dialect.HasDirectives operand cut symbolWords) (hfree : operand.slotFree = true)
  {numeral : String} (hnumeral : operand.Accepts numeral.toList [])
  (hhead : ∀ c ∈ numeral.toList.head?, Text.isBlank c = false)

include h hfree hnumeral hhead

/-- A directive with a single operand is carried out with what stands behind its word. -/
theorem HasDirectives.placeLine_operand {raw : String} (word : String) (action : String → Action)
    (hword : word ∈ Directive.words) (hplain : IsWord word)
    (hrule : Rule.withWord Directive.words (Directive.common operand cut symbolWords).tail word =
      [⟨.all [.lit word, .space, .slot .a operand], fun caps => action (caps.get .a)⟩])
    (hexpand : ∀ lines, action numeral ≠ .expand lines)
    (htext : raw.toList = word.toList ++ ' ' :: numeral.toList)
    (hraw : dialect.instructionOf raw = raw) (number : Nat) (p : Program) :
    dialect.placeLine number raw p =
      dialect.perform ⟨number, raw, raw, raw⟩ p (action numeral) := by
  have hfind : Rule.find? dialect.rules raw.toList = some (action numeral) := by
    obtain ⟨caps, hmatch, hcaps⟩ := Pattern.match?_behind_word hplain hhead hfree hnumeral .a
    rw [htext, h.find? word hword, hrule, Rule.find?_of_match hmatch]
    dsimp only
    rw [hcaps, String.ofList_toList]
  have hne : raw ≠ "" := by
    rintro rfl
    simp at htext
  rw [placeLine, hraw, placeText, if_neg hne, hfind]
  split
  · rename_i heq
    cases heq
  · rename_i lines heq
    exact absurd (Option.some.inj heq) (hexpand lines)
  · rename_i heq
    rw [← Option.some.inj heq]

/-- An `.address` line moves the address to the number behind its word. -/
theorem HasDirectives.placeLine_address {n : Nat}
    (hraw : dialect.instructionOf (".address " ++ numeral) = ".address " ++ numeral)
    (hread : dialect.numbers.read numeral = .ok (some (n : Int))) (number : Nat) (p : Program) :
    dialect.placeLine number (".address " ++ numeral) p = ⟨[.moveTo n], none⟩ := by
  rw [h.placeLine_operand hfree hnumeral hhead ".address" .address (by decide) (by decide) rfl
    (by simp) String.toList_append hraw]
  unfold perform
  dsimp only
  rw [literal_of_read hread]
  dsimp only [Program.setAddress]
  rw [if_neg (by omega)]
  rfl

/-- An `.align` line fills up to a multiple of the number behind its word. -/
theorem HasDirectives.placeLine_align {n : Int}
    (hraw : dialect.instructionOf (".align " ++ numeral) = ".align " ++ numeral)
    (hread : dialect.numbers.read numeral = .ok (some n)) (number : Nat) (p : Program) :
    dialect.placeLine number (".align " ++ numeral) p =
      .ofEdits (p.align n dialect.wordSize
        ⟨number, ".align " ++ numeral, ".align " ++ numeral, ".align " ++ numeral⟩) := by
  rw [h.placeLine_operand hfree hnumeral hhead ".align" .align (by decide) (by decide) rfl
    (by simp) String.toList_append hraw]
  unfold perform
  dsimp only
  rw [literal_of_read hread]

end Operand

end Dialect

theorem V8.hasDirectives : V8.dialect.HasDirectives V8.operand .comma 1 :=
  .of_rules (List.append_nil _).symm (by decide +kernel) .nil (by simp)

theorem Bitzzy.hasDirectives : Bitzzy.dialect.HasDirectives Bitzzy.operand .comma 2 :=
  .of_rules (List.append_nil _).symm (by decide +kernel) .nil (by simp)

namespace Parva

/-- The words of the directives for text. -/
def textWords : List String := [".string", ".string_encoding"]

theorem textDirectives_begin : List.Forall₂ Rule.Begins textWords textDirectives :=
  .cons (Rule.begins_spaced (by decide)) (.cons (Rule.begins_spaced (by decide)) .nil)

theorem instructions_openWithout :
    ((instructions ++ [Directive.labelRule operand]).all (·.pattern.opensWithout '.')) = true := by
  decide +kernel

theorem hasDirectives : dialect.HasDirectives operand .separator 1 :=
  .of_rules rfl instructions_openWithout textDirectives_begin (by decide)

end Parva

end PocketAsm
