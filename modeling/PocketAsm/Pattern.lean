/-
  Pattern.lean --- patterns for source lines, and how a line matches one.

  A rule of a dialect begins with a pattern: literal text, classes of
  characters, runs of them, choices, and slots that capture operands.  A
  pattern may match in several ways.  The ways are tried in a fixed order --
  the longest run first (the shortest for a reluctant run), the first
  alternative first -- and the first one that lets the whole line match
  decides what the slots hold.

  `Pattern.run` tries the ways one after the other: it hands each to a
  continuation until one is accepted.  `Pattern.ways` lists them all, and
  `run_eq_findSome?` says that running is searching that list.
-/
import PocketAsm.Text.Blank
import PocketAsm.Text.Letter

set_option autoImplicit false

namespace PocketAsm

/-- The names of operands in rules. -/
inductive Slot where
  | a
  | b
  | d
  | r
  | s
  deriving DecidableEq, Repr, Inhabited

/-- A captured operand: it lies between two ends of a line, each given by what follows it. -/
structure Span where
  start : List Char
  rest : List Char
  deriving DecidableEq, Repr, Inhabited

/-- The captured text. -/
def Span.text (span : Span) : String :=
  String.ofList (span.start.take (span.start.length - span.rest.length))

/-- The operands captured so far, the latest first. -/
abbrev Captures : Type := List (Slot × Span)

namespace Captures

/-- The operand in a slot; a slot that took no part in the match holds the empty text. -/
def get (caps : Captures) (slot : Slot) : String :=
  match List.lookup slot caps with
  | some span => span.text
  | none => ""

end Captures

/-- A pattern. -/
inductive Pattern where
  /-- the empty text -/
  | empty
  /-- one character of a class -/
  | one (p : Char → Bool)
  /-- characters of a class, as many as possible first -/
  | many (p : Char → Bool)
  /-- characters of a class, as few as possible first -/
  | few (p : Char → Bool)
  /-- one pattern after the other -/
  | seq (first second : Pattern)
  /-- either pattern, the first one first -/
  | alt (first second : Pattern)
  /-- the pattern, with the text it matches captured in a slot -/
  | slot (name : Slot) (body : Pattern)

namespace Pattern

/-! ## Matching -/

/-- Characters of a class, as many as possible first. -/
def runMany {α : Type} (p : Char → Bool) (k : List Char → Option α) : List Char → Option α
  | [] => k []
  | c :: cs =>
    if p c then
      match runMany p k cs with
      | some x => some x
      | none => k (c :: cs)
    else k (c :: cs)

/-- Characters of a class, as few as possible first. -/
def runFew {α : Type} (p : Char → Bool) (k : List Char → Option α) : List Char → Option α
  | [] => k []
  | c :: cs =>
    match k (c :: cs) with
    | some x => some x
    | none => if p c then runFew p k cs else none

/-- Hands the ways in which a pattern matches at the front of a text to a continuation, which gets
what follows the match and the captures, until it accepts one. -/
def run {α : Type} :
    Pattern → List Char → Captures → (List Char → Captures → Option α) → Option α
  | .empty, cs, caps, k => k cs caps
  | .one p, cs, caps, k =>
    match cs with
    | [] => none
    | c :: rest => if p c then k rest caps else none
  | .many p, cs, caps, k => runMany p (k · caps) cs
  | .few p, cs, caps, k => runFew p (k · caps) cs
  | .seq first second, cs, caps, k => run first cs caps fun rest caps => run second rest caps k
  | .alt first second, cs, caps, k =>
    match run first cs caps k with
    | some x => some x
    | none => run second cs caps k
  | .slot name body, cs, caps, k =>
    run body cs caps fun rest caps => k rest ((name, ⟨cs, rest⟩) :: caps)

/-- The captures of the first way in which the whole text matches. -/
def match? (pattern : Pattern) (cs : List Char) : Option Captures :=
  pattern.run cs [] fun rest caps => if rest.isEmpty then some caps else none

/-! ## All ways of a match -/

/-- What may follow a run of characters of a class, the longest run first. -/
def manyRests (p : Char → Bool) : List Char → List (List Char)
  | [] => [[]]
  | c :: cs => if p c then manyRests p cs ++ [c :: cs] else [c :: cs]

/-- What may follow a run of characters of a class, the shortest run first. -/
def fewRests (p : Char → Bool) : List Char → List (List Char)
  | [] => [[]]
  | c :: cs => (c :: cs) :: if p c then fewRests p cs else []

/-- The ways in which a pattern matches at the front of a text, in the order in which they are
tried. -/
def ways : Pattern → List Char → Captures → List (List Char × Captures)
  | .empty, cs, caps => [(cs, caps)]
  | .one p, cs, caps =>
    match cs with
    | [] => []
    | c :: rest => if p c then [(rest, caps)] else []
  | .many p, cs, caps => (manyRests p cs).map (·, caps)
  | .few p, cs, caps => (fewRests p cs).map (·, caps)
  | .seq first second, cs, caps => (ways first cs caps).flatMap fun w => ways second w.1 w.2
  | .alt first second, cs, caps => ways first cs caps ++ ways second cs caps
  | .slot name body, cs, caps =>
    (ways body cs caps).map fun w => (w.1, (name, ⟨cs, w.1⟩) :: w.2)

theorem runMany_eq_findSome? {α : Type} (p : Char → Bool) (k : List Char → Option α)
    (cs : List Char) : runMany p k cs = (manyRests p cs).findSome? k := by
  induction cs with
  | nil => simp [runMany, manyRests]
  | cons c cs ih =>
    by_cases h : p c
    · cases hk : runMany p k cs <;>
        simp_all [runMany, manyRests, List.findSome?_append]
      all_goals simp [← ih]
    · simp [runMany, manyRests, h]

theorem runFew_eq_findSome? {α : Type} (p : Char → Bool) (k : List Char → Option α)
    (cs : List Char) : runFew p k cs = (fewRests p cs).findSome? k := by
  induction cs with
  | nil => simp [runFew, fewRests]
  | cons c cs ih =>
    by_cases h : p c
    · cases hk : k (c :: cs) <;> simp [runFew, fewRests, h, hk, ih]
    · cases hk : k (c :: cs) <;> simp [runFew, fewRests, h, hk]

/-- Searching a list of lists is searching each list in turn. -/
theorem findSome?_flatMap {α β γ : Type} (f : α → List β) (k : β → Option γ) (xs : List α) :
    (xs.flatMap f).findSome? k = xs.findSome? fun x => (f x).findSome? k := by
  induction xs with
  | nil => rfl
  | cons x xs ih =>
    rw [List.flatMap_cons, List.findSome?_append, ih, List.findSome?_cons]
    cases (f x).findSome? k <;> rfl

/-- Running a pattern is searching the list of its ways. -/
theorem run_eq_findSome? {α : Type} (pattern : Pattern) (cs : List Char) (caps : Captures)
    (k : List Char → Captures → Option α) :
    pattern.run cs caps k = (pattern.ways cs caps).findSome? fun w => k w.1 w.2 := by
  induction pattern generalizing cs caps k with
  | empty => simp [run, ways]
  | one p =>
    cases cs with
    | nil => rfl
    | cons c cs => by_cases h : p c <;> simp [run, ways, h]
  | many p => simp [run, ways, runMany_eq_findSome?, List.findSome?_map, Function.comp_def]
  | few p => simp [run, ways, runFew_eq_findSome?, List.findSome?_map, Function.comp_def]
  | seq first second ih₁ ih₂ =>
    simp only [run, ways, ih₁, ih₂]
    rw [findSome?_flatMap]
  | alt first second ih₁ ih₂ =>
    simp only [run, ways, ih₁, ih₂, List.findSome?_append]
    cases (first.ways cs caps).findSome? fun w => k w.1 w.2 <;> rfl
  | slot name body ih =>
    simp only [run, ways, ih, List.findSome?_map]
    rfl

/-! ## Building blocks -/

/-- One pattern after the other. -/
def all : List Pattern → Pattern
  | [] => .empty
  | [p] => p
  | p :: ps => .seq p (all ps)

/-- One of several patterns, the first one first; there is at least one. -/
def anyOf (first : Pattern) : List Pattern → Pattern
  | [] => first
  | p :: ps => .alt first (anyOf p ps)

/-- A letter or sign in either case. -/
def letter (c : Char) : Pattern := .one (Text.sameLetter c)

/-- Literal text in either case. -/
def lit (s : String) : Pattern := all (s.toList.map letter)

/-- One or more characters of a class, as many as possible first. -/
def oneOrMore (p : Char → Bool) : Pattern := .seq (.one p) (.many p)

/-- A pattern or nothing, the pattern first. -/
def opt (p : Pattern) : Pattern := .alt p .empty

/-- One or more blanks. -/
def space : Pattern := oneOrMore Text.isBlank

/-- Any number of blanks. -/
def optSpace : Pattern := .many Text.isBlank

/-- A comma with blanks around it. -/
def comma : Pattern := all [optSpace, letter ',', optSpace]

/-- A comma or blank, with blanks around it. -/
def separator : Pattern := all [optSpace, .one fun c => c == ',' || Text.isBlank c, optSpace]

/-- Whatever is left of the line. -/
def remainder : Pattern := .many (· != '\n')

end Pattern

end PocketAsm
