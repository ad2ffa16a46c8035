/-
  Proofs/Twins.lean --- what the two lines of a template come to.

  Two lines that differ in what fills the holes of a template are twins.  Rules
  make twin actions of them: the same fields, but for operands that hold the
  one or the other text (`FieldsTwin`).  Placed on the same program, twin lines
  are both refused, or they make twin edits (`placeText_twin`), which leave
  programs that agree (`EditsTwin.agree`).  The texts in the holes stand for
  symbols, of which the first pass knows nothing (`Symbolic`).

  The flags say whether there is a hole at all: a hole in a line comes out as
  an operand in one of its fields.
-/
import PocketAsm.Proofs.Agreement
import PocketAsm.Proofs.RuleTables
import PocketAsm.Proofs.Templates

set_option autoImplicit false

namespace PocketAsm

open Pattern Template

variable {x y : List Char}

/-! ## Two texts for the holes -/

/-- Two pairs of what a dialect takes for names and numbers; the one has a plus sign. -/
structure Sides (atom : Pattern) (x y : List Char) : Prop where
  left : Filling x
  right : Filling y
  pairLeft : (Operand.pair atom).Accepts x []
  pairRight : (Operand.pair atom).Accepts y []
  plus : '+' ∈ x

/-- An operand takes either pair as a whole. -/
theorem Sides.walks_value {numbers : NumberSyntax} (h : Sides (Operand.atom numbers) x y)
    (hskips : (Operand.atom numbers).skips = true)
    (hclose : (Operand.atom numbers).avoids ')' = true) :
    Walks x y Token (Operand.value numbers) := by
  obtain ⟨hopen, hfree⟩ := Bool.and_eq_true_iff.mp hskips
  exact ((walks_of_skips h.left h.right hskips).mono fun _ => IsPlain.token).alt
    (walks_pair hopen hclose hfree h.left h.right h.pairLeft h.pairRight)

/-! ## Fields -/

/-- The fields differ in operands only: where the one list has the one text, the other has the
other one; and neither text names a register.  The flag says that there is such a place. -/
inductive FieldsTwin (x y : List Char) : Bool → List Field → List Field → Prop where
  | nil : FieldsTwin x y false [] []
  | same {b : Bool} {fields fields' : List Field} (field : Field)
    (h : FieldsTwin x y b fields fields') : FieldsTwin x y b (field :: fields) (field :: fields')
  | value {b : Bool} {fields fields' : List Field} (width : Nat) (signed relative : Bool)
    (h : FieldsTwin x y b fields fields') :
    FieldsTwin x y true (.value (String.ofList x) width signed relative :: fields)
      (.value (String.ofList y) width signed relative :: fields')
  | refused {b c : Bool} {fields fields' : List Field} (e e' : Fault)
    (h : FieldsTwin x y b fields fields') :
    FieldsTwin x y c (.register (.error e) :: fields) (.register (.error e') :: fields')

/-- The token is a hole. -/
def Template.isHole (t : Template) : Bool := t == [none]

@[grind =] theorem Template.isHole_iff {t : Template} : t.isHole = true ↔ t = [none] := beq_iff_eq

/-- An operand of a token. -/
theorem FieldsTwin.operand {b : Bool} {fields fields' : List Field} {token : Template}
    (htoken : token.Token) (width : Nat) (signed relative : Bool)
    (h : FieldsTwin x y b fields fields') :
    FieldsTwin x y (token.isHole || b) (.value (token.text x) width signed relative :: fields)
      (.value (token.text y) width signed relative :: fields') := by
  cases htoken with
  | plain cs =>
    have hplain : (plain cs).isHole = false := by cases cs <;> simp [isHole, plain]
    rw [hplain, Bool.false_or, Template.text, Template.text, fill_plain, fill_plain]
    exact h.same _
  | hole =>
    have hhole (z : List Char) : Template.text z [none] = String.ofList z := by simp [Template.text]
    rw [hhole, hhole]
    exact h.value width signed relative

/-- A register that is named by a token. -/
theorem FieldsTwin.register {b : Bool} {fields fields' : List Field} {token : Template}
    (htoken : token.Token) {code : String → Except Fault Bits}
    (hx : ∃ e, code (String.ofList x) = .error e) (hy : ∃ e, code (String.ofList y) = .error e)
    (h : FieldsTwin x y b fields fields') :
    FieldsTwin x y (token.isHole || b) (.register (code (token.text x)) :: fields)
      (.register (code (token.text y)) :: fields') := by
  cases htoken with
  | plain cs =>
    have hplain : (plain cs).isHole = false := by cases cs <;> simp [isHole, plain]
    rw [hplain, Bool.false_or, Template.text, Template.text, fill_plain, fill_plain]
    exact h.same _
  | hole =>
    obtain ⟨e, he⟩ := hx
    obtain ⟨e', he'⟩ := hy
    have hhole (z : List Char) : Template.text z [none] = String.ofList z := by simp [Template.text]
    rw [hhole, hhole, he, he']
    exact h.refused e e'

/-! ## Actions -/

/-- The actions differ in operands only.  Lines that are expanded into have the property `G`. -/
inductive ActionTwin (x y : List Char) (G : Template → Prop) (b : Prop) : Action → Action → Prop
  where
  | emit {c : Bool} {fields fields' : List Field} (words : Nat)
    (h : FieldsTwin x y c fields fields') (hc : b → c = true) :
    ActionTwin x y G b (.emit fields words none) (.emit fields' words none)
  | expand (lines : List Template) (hgood : ∀ line ∈ lines, G line)
    (hb : b → ∃ line ∈ lines, none ∈ line) :
    ActionTwin x y G b (.expand (lines.map (Template.text x)))
      (.expand (lines.map (Template.text y)))
  | reject (e e' : Fault) : ActionTwin x y G b (.reject e) (.reject e')

theorem ActionTwin.mono {G : Template → Prop} {b b' : Prop} {action action' : Action}
    (h : ActionTwin x y G b action action') (hb : b' → b) : ActionTwin x y G b' action action' := by
  cases h with
  | emit words h hc => exact .emit words h fun hb' => hc (hb hb')
  | expand lines hgood hhole => exact .expand lines hgood fun hb' => hhole (hb hb')
  | reject e e' => exact .reject e e'

/-- An expansion into one line. -/
theorem ActionTwin.expand_line {G : Template → Prop} {b : Prop} (line : Template)
    {left right : String} (hleft : left = line.text x) (hright : right = line.text y)
    (hgood : G line) (hb : b → none ∈ line) :
    ActionTwin x y G b (.expand [left]) (.expand [right]) := by
  rw [hleft, hright]
  exact .expand [line] (List.forall_mem_singleton.mpr hgood)
    fun h => ⟨line, List.mem_singleton_self line, hb h⟩

/-- An expansion into two lines. -/
theorem ActionTwin.expand_lines {G : Template → Prop} {b : Prop} (first second : Template)
    {left left' right right' : String} (hleft : left = first.text x ∧ left' = second.text x)
    (hright : right = first.text y ∧ right' = second.text y) (hgood : G first ∧ G second)
    (hb : b → none ∈ first ∨ none ∈ second) :
    ActionTwin x y G b (.expand [left, left']) (.expand [right, right']) := by
  rw [hleft.1, hleft.2, hright.1, hright.2]
  exact .expand [first, second] (by simpa using hgood) fun h => by simpa using hb h

/-- The rule does twin things with the lines of a template, or it matches neither. -/
def RuleTwin (x y : List Char) (G : Template → Prop) (t : Template) (rule : Rule) : Prop :=
  Option.Rel (ActionTwin x y G (none ∈ t)) ((rule.pattern.match? (t.fill x)).map rule.action)
    ((rule.pattern.match? (t.fill y)).map rule.action)

section Rules

variable {G : Template → Prop} {t : Template} {names : List Slot} {pattern : Pattern}
  {action : Captures → Action}

/-- A rule whose slots take the same tokens does twin things if its action does so with them. -/
theorem RuleTwin.of_match? (hnames : names.Nodup)
    (h : Option.Rel (SameTokens x y t names) (pattern.match? (t.fill x))
      (pattern.match? (t.fill y)))
    (haction : ∀ caps caps' operand, Binds x y caps caps' operand →
      ActionTwin x y G (∃ slot ∈ names, operand slot = [none]) (action caps) (action caps')) :
    RuleTwin x y G t ⟨pattern, action⟩ := by
  unfold RuleTwin
  dsimp only
  generalize pattern.match? (t.fill x) = found at h ⊢
  generalize pattern.match? (t.fill y) = found' at h ⊢
  cases h with
  | none => exact .none
  | some h =>
    obtain ⟨operand, hbinds, hhole⟩ := h.exists_binds hnames
    exact .some ((haction _ _ operand hbinds).mono hhole)

/-- A table of such rules does twin things with the lines of a template, or it decides neither. -/
theorem rel_find? {rules : List Rule} (h : ∀ rule ∈ rules, RuleTwin x y G t rule) :
    Option.Rel (ActionTwin x y G (none ∈ t)) (Rule.find? rules (t.fill x))
      (Rule.find? rules (t.fill y)) := by
  induction rules with
  | nil => exact .none
  | cons rule rules ih =>
    obtain ⟨hrule, hrules⟩ := List.forall_mem_cons.mp h
    rw [Rule.find?, Rule.find?, List.findSome?_cons, List.findSome?_cons]
    exact rel_orElse hrule (ih hrules)

end Rules

/-! ## Lines that begin with a word -/

/-- The template begins with a word of letters and a separator. -/
def Opened (t : Template) : Prop :=
  ∃ (word : List Char) (c : Char) (rest : Template), t = plain (word ++ [c]) ++ rest ∧
    word ≠ [] ∧ (∀ d ∈ word, Text.isLetter d = true) ∧ Text.isSeparator c = true

/-- The text begins with a word of letters and a separator. -/
def beginsLine (s : String) : Bool :=
  !(s.toList.takeWhile Text.isLetter).isEmpty &&
    (s.toList.dropWhile Text.isLetter).head?.any Text.isSeparator

theorem opened_of_beginsLine {s : String} (h : beginsLine s = true) (rest : Template) :
    Opened (ofText s ++ rest) := by
  obtain ⟨hword, hseparator⟩ := Bool.and_eq_true_iff.mp h
  obtain ⟨c, hhead, hc⟩ := (Option.any_eq_true _ _).mp hseparator
  obtain ⟨more, hmore⟩ := List.head?_eq_some_iff.mp hhead
  refine ⟨s.toList.takeWhile Text.isLetter, c, plain more ++ rest, ?_, by simpa using hword,
    List.all_eq_true.mp List.all_takeWhile, hc⟩
  rw [ofText]
  conv_lhs => rw [← List.takeWhile_append_dropWhile (p := Text.isLetter) (l := s.toList), hmore]
  simp [plain]

/-- No name of a label has a letter in front and a separator behind it. -/
def IsName (name : Pattern) : Prop :=
  ∀ cs ops c rest, name.Accepts cs ops → cs = c :: rest → Text.isLetter c = true → Text.Plain cs

/-- An operand with marked numbers that begins with a letter is a number or a name. -/
theorem isName_value (numbers : NumberSyntax)
    (hmarks : numbers.marks.all (fun m => m.mark.all Operand.isAtomChar) = true) :
    IsName (Operand.value numbers) := by
  intro cs ops c rest h hcs hc
  obtain ⟨-, hatom⟩ | ⟨inner, hparens, -⟩ := Operand.accepts_value_cases hmarks h
  · exact fun d hd => Operand.isSeparator_of_isAtomChar (hatom d hd)
  · rw [hcs] at hparens
    rw [(List.cons.inj hparens).1] at hc
    exact absurd hc (by decide)

/-- All common rules but the one of labels begin with a point. -/
theorem Directive.beginsWith_of_mem_tail (name cut : Pattern) (symbolWords : Nat) :
    ∀ rule ∈ (Directive.common name cut symbolWords).tail,
      rule.pattern.BeginsWith (Text.sameLetter '.') := by
  simp only [Directive.common, List.tail_cons, List.forall_mem_cons]
  refine ⟨?_, ?_, ?_, ?_, ?_, beginsWith_lit (by decide), beginsWith_lit (by decide), by simp⟩
  all_goals exact (beginsWith_lit (by decide)).all _

/-- A line that begins with a word is neither a label nor a directive. -/
theorem Opened.find?_common {t : Template} (h : Opened t) {name cut : Pattern} (hname : IsName name)
    {symbolWords : Nat} {more : List Rule}
    (hmore : ∀ rule ∈ more, rule.pattern.BeginsWith (Text.sameLetter '.')) (z : List Char) :
    Rule.find? (Directive.common name cut symbolWords ++ more) (t.fill z) = none := by
  obtain ⟨word, c, rest, rfl, hne, hletters, hc⟩ := h
  obtain ⟨d, word, rfl⟩ := List.exists_cons_of_ne_nil hne
  have hd : Text.isLetter d = true := hletters d List.mem_cons_self
  have hpoint {rule : Rule} {caps : Captures}
      (hbegins : rule.pattern.BeginsWith (Text.sameLetter '.'))
      (hcaps : rule.pattern.match? ((plain (d :: word ++ [c]) ++ rest).fill z) = some caps) :
      False := by
    obtain ⟨e, others, hcs, he⟩ := hbegins.head_of_match? hcaps
    have hde : d = e := by simpa using (List.cons.inj hcs).1
    have hfold : Text.foldLetter d = '.' := by
      rw [hde]
      exact (beq_iff_eq.mp he).symm
    rw [Text.isLetter, hfold] at hd
    exact absurd hd (by decide)
  refine Rule.find?_eq_none fun rule hrule => Option.eq_none_iff_forall_ne_some.mpr ?_
  intro caps hcaps
  rcases List.mem_append.mp hrule with hrule | hrule
  · rcases List.mem_cons.mp hrule with rfl | hrule
    · -- a separator would stand in the name
      obtain ⟨ops, haccepts, -⟩ := accepts_of_match? hcaps
      obtain ⟨cs, colon, u, v, hcs, -, hslot, hcolon⟩ := accepts_all_cons.mp haccepts
      obtain ⟨ops', hcs', -⟩ := hslot
      obtain rfl := accepts_sign (c := ':') (by decide) (by decide) hcolon
      have hcs : d :: (word ++ c :: rest.fill z) = cs ++ [':'] := by simpa using hcs
      have hmem : c ∈ cs ++ [':'] := by simp [← hcs]
      have hplain : Text.Plain cs := by
        cases cs with
        | nil => simp [Text.Plain]
        | cons e cs => exact hname _ ops' e cs hcs' rfl (by rwa [← (List.cons.inj hcs).1])
      rcases List.mem_append.mp hmem with hmem | hmem
      · rw [hplain c hmem] at hc
        cases hc
      · rw [List.mem_singleton.mp hmem] at hc
        exact absurd hc (by decide)
    · exact hpoint (Directive.beginsWith_of_mem_tail name cut symbolWords rule hrule) hcaps
  · exact hpoint (hmore rule hrule) hcaps

/-- The template begins with a word, and a hole at its end does not stand where a line has
parentheses of its own around an address. -/
def Clear (openings : List Pattern) (y : List Char) (t : Template) : Prop :=
  Opened t ∧ ∀ opening ∈ openings, ¬ Encloses y opening t

/-- A template that ends with a text ends with no hole. -/
theorem clear_of_ofText {openings : List Pattern} {t : Template} {s : String}
    (h : Opened (t ++ ofText s)) (hs : s.toList ≠ []) : Clear openings y (t ++ ofText s) := by
  refine ⟨h, ?_⟩
  rintro opening - ⟨head, ops, hends, -⟩
  have hlast : none ∈ (ofText s).getLast? := by
    have hwhole := congrArg List.getLast? hends
    rw [List.getLast?_append_of_ne_nil _ (by simpa [ofText, plain] using hs)] at hwhole
    simpa using hwhole
  exact none_not_mem_ofText s (List.mem_of_getLast? hlast)

/-- A line that does not begin as a line with parentheses of its own may have a hole at its end. -/
theorem clear_of_head {openings : List Pattern} {s : String} {t : Template} {c : Char}
    (hs : s.toList.head? = some c) (h : Opened (ofText s ++ t))
    (hbegins : ∀ opening ∈ openings, ∃ p : Char → Bool, opening.BeginsWith p ∧ p c = false) :
    Clear openings y (ofText s ++ t) := by
  refine ⟨h, ?_⟩
  rintro opening hopening ⟨head, ops, hends, haccepts⟩
  obtain ⟨p, hp, hc⟩ := hbegins opening hopening
  obtain ⟨rest, hrest⟩ := List.head?_eq_some_iff.mp hs
  obtain ⟨way, hway⟩ := exists_way_of_accepts haccepts [] []
  obtain ⟨d, others, hfill, hd⟩ := hp _ _ _ hway
  cases head with
  | nil => simp at hfill
  | cons e head =>
    obtain rfl : e = some c := by
      have hhead := congrArg List.head? hends
      simpa [ofText, plain, hrest] using hhead.symm
    have hcd : c = d := by simpa using (List.cons.inj hfill).1
    rw [hcd, hd] at hc
    cases hc

/-- A table of instructions before those of labels and directives does twin things with a template
that begins with a word, if each of its rules does so. -/
theorem Opened.rel_find? {G : Template → Prop} {t : Template} (h : Opened t) {name : Pattern}
    (hname : IsName name) (cut : Pattern) (symbolWords : Nat) {instructions more : List Rule}
    (hmore : ∀ rule ∈ more, rule.pattern.BeginsWith (Text.sameLetter '.'))
    (hrules : ∀ rule ∈ instructions, RuleTwin x y G t rule) :
    Option.Rel (ActionTwin x y G (none ∈ t))
      (Rule.find? (instructions ++ (Directive.common name cut symbolWords ++ more)) (t.fill x))
      (Rule.find? (instructions ++ (Directive.common name cut symbolWords ++ more)) (t.fill y)) := by
  have hinstructions := PocketAsm.rel_find? hrules
  rwa [Rule.find?_append instructions, Rule.find?_append instructions, h.find?_common hname hmore,
    h.find?_common hname hmore, Option.or_none, Option.or_none]

/-! ## Parts -/

/-- The parts of an instruction at an address differ in references only, which are to the one and
to the other text.  The flag says that there is one. -/
inductive PartsTwin (x y : List Char) (origin : Int) : Bool → List Part → List Part → Prop where
  | nil : PartsTwin x y origin false [] []
  | same {b : Bool} {parts parts' : List Part} (part : Part)
    (h : PartsTwin x y origin b parts parts') :
    PartsTwin x y origin b (part :: parts) (part :: parts')
  | ref {b : Bool} {parts parts' : List Part} (width : Nat) (relative signed : Bool)
    (h : PartsTwin x y origin b parts parts') :
    PartsTwin x y origin true (.ref ⟨String.ofList x, width, origin, relative, signed⟩ :: parts)
      (.ref ⟨String.ofList y, width, origin, relative, signed⟩ :: parts')

namespace Dialect

variable {dialect : Dialect}

/-- The text is no literal. -/
def Symbolic (dialect : Dialect) (x : List Char) : Prop :=
  ∀ p, dialect.literal? p (String.ofList x) = .ok none

theorem operand_of_symbolic (hx : dialect.Symbolic x) (p : Program) (width : Nat)
    (signed relative : Bool) :
    dialect.operand p (String.ofList x) width signed relative =
      .ok (.ref ⟨String.ofList x, width, p.address, relative, signed⟩) := by
  rw [operand, hx p]

/-- Twin fields are both refused, or they make twin parts. -/
theorem fieldParts_twin (hx : dialect.Symbolic x) (hy : dialect.Symbolic y) (p : Program) {b : Bool}
    {fields fields' : List Field} (h : FieldsTwin x y b fields fields') :
    (∃ e e', dialect.fieldParts p fields = .error e ∧ dialect.fieldParts p fields' = .error e') ∨
      ∃ parts parts', dialect.fieldParts p fields = .ok parts ∧
        dialect.fieldParts p fields' = .ok parts' ∧ PartsTwin x y p.address b parts parts' := by
  induction h with
  | nil => exact .inr ⟨[], [], rfl, rfl, .nil⟩
  | same field h ih =>
    rw [fieldParts, fieldParts]
    cases hfield : dialect.fieldPart p field with
    | error e => exact .inl ⟨e, e, rfl, rfl⟩
    | ok part =>
      obtain ⟨e, e', he, he'⟩ | ⟨parts, parts', hparts, hparts', htwin⟩ := ih
      · exact .inl ⟨e, e', by rw [he], by rw [he']⟩
      · exact .inr ⟨part :: parts, part :: parts', by rw [hparts], by rw [hparts'], htwin.same part⟩
  | value width signed relative h ih =>
    rw [fieldParts, fieldParts, fieldPart, fieldPart, operand_of_symbolic hx,
      operand_of_symbolic hy]
    obtain ⟨e, e', he, he'⟩ | ⟨parts, parts', hparts, hparts', htwin⟩ := ih
    · exact .inl ⟨e, e', by rw [he], by rw [he']⟩
    · exact .inr ⟨_, _, by rw [hparts], by rw [hparts'], htwin.ref width relative signed⟩
  | refused e e' h ih => exact .inl ⟨e, e', rfl, rfl⟩

end Dialect

/-! ## Edits -/

/-- The edits place instructions with twin parts, from an address upwards.  The flag says that
there is a reference to the texts among them. -/
inductive EditsTwin (x y : List Char) : Nat → Bool → List Edit → List Edit → Prop where
  | nil (address : Nat) : EditsTwin x y address false [] []
  | place {address : Nat} {b c : Bool} {parts parts' : List Part} {edits edits' : List Edit}
    (words : Nat) (source source' : Source) (hparts : PartsTwin x y address b parts parts')
    (h : EditsTwin x y (address + words) c edits edits') :
    EditsTwin x y address (b || c) (.place parts words source :: edits)
      (.place parts' words source' :: edits')

namespace EditsTwin

variable {b c : Bool} {edits edits' : List Edit}

/-- Twin edits lead from programs that agree to programs that agree. -/
theorem agree {address : Nat} (h : EditsTwin x y address b edits edits') {p q : Program}
    (hpq : p.Agree q) : (p.applyAll edits).Agree (q.applyAll edits') := by
  induction h generalizing p q with
  | nil address => exact hpq
  | place words source source' hparts h ih =>
    refine ih ⟨congrArg (· + words) hpq.address, hpq.labels, hpq.constants, hpq.encoding⟩

theorem append {p : Program} {more more' : List Edit} (h : EditsTwin x y p.address b edits edits')
    (hmore : EditsTwin x y (p.applyAll edits).address c more more') :
    EditsTwin x y p.address (b || c) (edits ++ more) (edits' ++ more') := by
  generalize haddress : p.address = address at h
  induction h generalizing p with
  | nil address => rwa [Bool.false_or, ← haddress]
  | place words source source' hparts h ih =>
    rw [Bool.or_assoc]
    refine .place words source source' hparts (ih (p := p.apply (.place _ words source)) hmore ?_)
    exact congrArg (· + words) haddress

end EditsTwin

/-- Both lines are refused, or they make twin edits. -/
inductive OutcomeTwin (x y : List Char) (address : Nat) (b : Prop) : Outcome → Outcome → Prop where
  | placed {c : Bool} {edits edits' : List Edit} (h : EditsTwin x y address c edits edits')
    (hc : b → c = true) : OutcomeTwin x y address b ⟨edits, none⟩ ⟨edits', none⟩
  | refused (edits edits' : List Edit) (e e' : Fault) :
    OutcomeTwin x y address b ⟨edits, some e⟩ ⟨edits', some e'⟩

theorem OutcomeTwin.mono {address : Nat} {b b' : Prop} {outcome outcome' : Outcome}
    (h : OutcomeTwin x y address b outcome outcome') (hb : b' → b) :
    OutcomeTwin x y address b' outcome outcome' := by
  cases h with
  | placed h hc => exact .placed h fun hb' => hc (hb hb')
  | refused edits edits' e e' => exact .refused edits edits' e e'

namespace Dialect

variable {dialect : Dialect}

/-- The edits that were made before come first. -/
theorem placeAll_done (place : String → Program → Outcome) (texts : List String) :
    ∀ (p : Program) (done : List Edit), placeAll place texts p done =
      ⟨done.reverse ++ (placeAll place texts p []).edits, (placeAll place texts p []).fault⟩ := by
  induction texts with
  | nil => intro p done; simp [placeAll]
  | cons text texts ih =>
    intro p done
    rw [placeAll, placeAll]
    cases (place text p).fault with
    | some e => simp
    | none =>
      dsimp only
      rw [ih _ ((place text p).edits.reverse ++ done), ih _ ((place text p).edits.reverse ++ [])]
      simp

/-- Twin lines that are placed one after the other. -/
theorem placeAll_twin (place place' : String → Program → Outcome)
    (hcongr : ∀ text p q, Program.Agree p q → place' text p = place' text q)
    {lines : List Template} (h : ∀ line ∈ lines, ∀ p : Program, OutcomeTwin x y p.address
      (none ∈ line) (place (line.text x) p) (place' (line.text y) p)) (p : Program) :
    OutcomeTwin x y p.address (∃ line ∈ lines, none ∈ line)
      (placeAll place (lines.map (Template.text x)) p [])
      (placeAll place' (lines.map (Template.text y)) p []) := by
  induction lines generalizing p with
  | nil => exact .placed (.nil _) (by simp)
  | cons line lines ih =>
    obtain ⟨hline, hlines⟩ := List.forall_mem_cons.mp h
    rw [List.map_cons, List.map_cons, placeAll, placeAll]
    have hfirst := hline p
    generalize place (line.text x) p = outcome at hfirst ⊢
    generalize place' (line.text y) p = outcome' at hfirst ⊢
    cases hfirst with
    | refused edits edits' e e' => exact .refused _ _ e e'
    | @placed c edits edits' hedits hc =>
      dsimp only
      have hagree : (p.applyAll edits).Agree (p.applyAll edits') := hedits.agree (.refl p)
      rw [placeAll_done place, placeAll_done place', ← placeAll_congr hcongr _ [] hagree]
      have hrest := ih hlines (p.applyAll edits)
      generalize placeAll place (lines.map (Template.text x)) (p.applyAll edits) [] = outcome
        at hrest ⊢
      generalize placeAll place' (lines.map (Template.text y)) (p.applyAll edits) [] = outcome'
        at hrest ⊢
      cases hrest with
      | refused more more' e e' => exact .refused _ _ e e'
      | @placed d more more' hmore hd =>
        refine .placed (c := c || d) (by simpa using hedits.append hmore) fun hmem => ?_
        obtain ⟨found, hfound, hhole⟩ := hmem
        rcases List.mem_cons.mp hfound with rfl | hfound
        · rw [hc hhole, Bool.true_or]
        · rw [hd ⟨found, hfound, hhole⟩, Bool.or_true]

section Lines

variable {G : Template → Prop} {t : Template} {source source' : Source}

theorem text_ne_empty (hx : x ≠ []) (ht : t ≠ []) : t.text x ≠ "" := by
  intro htext
  have hfill : t.fill x = [] := by
    rw [← toList_text, htext]
    rfl
  exact ht ((fill_eq_nil hx).mp hfill)

/-- Twin fields make twin instructions, or they are both refused. -/
theorem emit_twin (hx : dialect.Symbolic x) (hy : dialect.Symbolic y) {b : Prop} {c : Bool}
    {fields fields' : List Field} (h : FieldsTwin x y c fields fields') (hc : b → c = true)
    (words : Nat) (p : Program) :
    OutcomeTwin x y p.address b (dialect.perform source p (.emit fields words none))
      (dialect.perform source' p (.emit fields' words none)) := by
  unfold perform
  dsimp only
  obtain ⟨e, e', he, he'⟩ | ⟨parts, parts', hparts, hparts', htwin⟩ := fieldParts_twin hx hy p h
  · rw [he, he']
    exact .refused _ _ e e'
  · rw [hparts, hparts']
    exact .placed (.place words _ _ htwin (.nil _)) (by simpa using hc)

/-- Lines of one template are both refused, or they make twin edits. -/
theorem placeText_twin (hx : dialect.Symbolic x) (hy : dialect.Symbolic y)
    (hxne : x ≠ []) (hyne : y ≠ [])
    (hfind : ∀ t, G t → Option.Rel (ActionTwin x y G (none ∈ t))
      (Rule.find? dialect.rules (t.fill x)) (Rule.find? dialect.rules (t.fill y)))
    (source source' : Source) (levels : Nat) :
    ∀ (t : Template) (p : Program), G t → OutcomeTwin x y p.address (none ∈ t)
      (dialect.placeText levels source (t.text x) p)
      (dialect.placeText levels source' (t.text y) p) := by
  induction levels using Nat.strong_induction_on with
  | _ levels ih =>
    intro t p ht
    by_cases hnil : t = []
    · have hnothing (source : Source) (z : List Char) :
          dialect.placeText levels source (Template.text z []) p = .nothing := by
        rw [placeText]
        exact if_pos rfl
      rw [hnil, hnothing, hnothing]
      exact .placed (.nil _) fun hmem => absurd hmem List.not_mem_nil
    · rw [placeText, placeText, if_neg (text_ne_empty hxne hnil), if_neg (text_ne_empty hyne hnil),
        toList_text, toList_text]
      have hrules := hfind t ht
      generalize Rule.find? dialect.rules (t.fill x) = found at hrules ⊢
      generalize Rule.find? dialect.rules (t.fill y) = found' at hrules ⊢
      cases hrules with
      | none => exact .refused _ _ _ _
      | some haction =>
        cases haction with
        | reject e e' => exact .refused _ _ e e'
        | emit words hfields hc => exact emit_twin hx hy hfields hc words p
        | expand lines hgood hb =>
          cases lines with
          | nil => exact .placed (.nil _) fun hmem => by simpa using hb hmem
          | cons line lines =>
            cases levels with
            | zero => exact .refused _ _ _ _
            | succ levels =>
              have hlines := placeAll_twin (dialect.placeText levels source)
                (dialect.placeText levels source') (placeText_congr source' levels)
                (fun line hline q => ih levels (Nat.lt_succ_self _) line q (hgood line hline)) p
              exact hlines.mono hb

end Lines

end Dialect

end PocketAsm
