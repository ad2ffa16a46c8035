/-
  Proofs/Repetition.lean --- data that is repeated, and data that is listed.

  `.repeat t, n` places an item so many times, `.data t, t, ...` the items that
  are listed.  The list is free text, which is cut at commas, or on the Parva
  at commas and blanks; an operand is cut nowhere, unless it has such
  characters itself (`Directive.Item`).  Then the list comes apart as it was
  written (`split_intercalate`), and both lines place the same words, with
  another text to show (`repeat_agrees_with_data`).
-/
import PocketAsm.Proofs.Agreement
import PocketAsm.Proofs.Directives
import PocketAsm.Proofs.Literals
import PocketAsm.Proofs.Parva.Operands

set_option autoImplicit false

namespace PocketAsm

open Pattern Text

namespace Directive

variable {operand cut : Pattern} {t : List Char}

/-! ## Cuts -/

/-- Where no text at the front is accepted, there is no cut. -/
theorem run_eq_none {cs : List Char} (h : ∀ x rest ops, cs = x ++ rest → ¬cut.Accepts x ops) :
    cut.run cs [] (fun rest _ => some rest) = none := by
  rw [run_eq_findSome?, List.findSome?_eq_none_iff]
  intro way hway
  obtain ⟨x, ops, hx, haccepts, -⟩ := accepts_of_mem_ways hway
  exact absurd haccepts (h x way.1 ops hx)

/-- The pattern cuts at a comma and one blank. -/
def CutsAtComma (cut : Pattern) : Prop :=
  ∀ o : List Char, o ≠ [] → (∀ c ∈ o.head?, isBlank c = false) →
    cut.run (", ".toList ++ o) [] (fun rest _ => some rest) = some o

theorem comma_cutsAtComma : CutsAtComma .comma := by
  intro o hne hhead
  obtain ⟨c, o, rfl⟩ := List.exists_cons_of_ne_nil hne
  have hc : isBlank c = false := hhead c rfl
  have hcomma : isBlank ',' = false := by decide
  have hblank : isBlank ' ' = true := by decide
  simp [comma, all, optSpace, letter, sameLetter, run, runMany, hc, hcomma, hblank]

theorem separator_cutsAtComma : CutsAtComma .separator := by
  intro o hne hhead
  obtain ⟨c, o, rfl⟩ := List.exists_cons_of_ne_nil hne
  have hc : isBlank c = false := hhead c rfl
  have hcomma : isBlank ',' = false := by decide
  have hblank : isBlank ' ' = true := by decide
  simp [separator, all, optSpace, run, runMany, hc, hcomma, hblank]

/-! ## Lists of items -/

/-- The text is an operand that is cut nowhere, and is read as a whole where a comma follows. -/
structure Item (operand cut : Pattern) (t : List Char) : Prop where
  accepts : operand.Accepts t []
  solid : Solid t
  last : ∀ c ∈ t.getLast?, isBlank c = false
  /-- no cut begins inside of the text -/
  uncut : ∀ u, u ≠ [] → u <:+ t → ∀ rest,
    cut.run (u ++ rest) [] (fun rest _ => some rest) = none
  /-- no other operand stands at the front of the text and what follows it -/
  alone : ∀ a gap rest rest', operand.Accepts a [] → Gap gap →
    a ++ (gap ++ rest) = t ++ (", ".toList ++ rest') → a = t

theorem Item.head (h : Item operand cut t) : ∀ c ∈ t.head?, isBlank c = false := by
  obtain ⟨c, rest, rfl, hc⟩ := h.solid
  simpa using isBlank_of_isSeparator hc

theorem Item.ne_nil (h : Item operand cut t) : t ≠ [] := by
  obtain ⟨c, rest, rfl, -⟩ := h.solid
  simp

/-- What is cut nowhere is passed over. -/
theorem splitFrom_uncut
    (h : ∀ u, u ≠ [] → u <:+ t → ∀ rest,
      cut.run (u ++ rest) [] (fun rest _ => some rest) = none) (rest : List Char) :
    ∀ (fuel : Nat) (piece : List Char),
      splitFrom cut (t.length + fuel) piece (t ++ rest) =
        splitFrom cut fuel (t.reverse ++ piece) rest := by
  induction t with
  | nil => intro fuel piece; simp
  | cons c t ih =>
    intro fuel piece
    have hnone := h (c :: t) (by simp) List.suffix_rfl rest
    have htail := ih fun u hne hu => h u hne (hu.trans (List.suffix_cons c t))
    rw [List.length_cons, Nat.add_right_comm, List.cons_append, splitFrom, ← List.cons_append,
      hnone]
    dsimp only
    rw [htail, List.reverse_cons, List.append_assoc]
    rfl

/-- A list of items comes apart as it was put together. -/
theorem splitFrom_intercalate (hcut : CutsAtComma cut) {ts : List (List Char)} (hne : ts ≠ [])
    (h : ∀ t ∈ ts, Item operand cut t) (fuel : Nat) :
    splitFrom cut ((", ".toList.intercalate ts).length + fuel) [] (", ".toList.intercalate ts) =
      ts := by
  induction ts generalizing fuel with
  | nil => exact absurd rfl hne
  | cons t ts ih =>
    obtain ⟨ht, hts⟩ := List.forall_mem_cons.mp h
    have hpass := splitFrom_uncut ht.uncut
    cases ts with
    | nil =>
      have hlast := hpass [] fuel []
      simp only [List.append_nil] at hlast
      rw [List.intercalate_singleton, hlast]
      cases fuel <;> simp [splitFrom]
    | cons next ts =>
      have hnext : Item operand cut next := hts next List.mem_cons_self
      have hhead : ∀ c ∈ (", ".toList.intercalate (next :: ts)).head?, isBlank c = false := by
        obtain ⟨c, rest, rfl, hc⟩ := hnext.solid
        cases ts <;> simpa using isBlank_of_isSeparator hc
      have hrest : ", ".toList.intercalate (next :: ts) ≠ [] := by
        obtain ⟨c, rest, rfl, -⟩ := hnext.solid
        cases ts <;> simp
      have hlength : (t ++ (", ".toList ++ ", ".toList.intercalate (next :: ts))).length + fuel =
          t.length + ((", ".toList.intercalate (next :: ts)).length + (fuel + 1) + 1) := by
        simp
        omega
      have hcomma : ", ".toList = ',' :: [' '] := rfl
      rw [List.intercalate_cons_cons, List.append_assoc, hlength, hpass]
      conv_lhs => rw [hcomma, List.cons_append, splitFrom]
      rw [← List.cons_append, ← hcomma, hcut _ hrest hhead]
      dsimp only
      rw [ih (by simp) hts (fuel + 1)]
      simp

/-- A list of items comes apart as it was put together. -/
theorem split_intercalate (hcut : CutsAtComma cut) {items : List String} (hne : items ≠ [])
    (h : ∀ t ∈ items, Item operand cut t.toList) :
    split cut (", ".intercalate items) = items := by
  have hlists : ∀ t ∈ items.map String.toList, Item operand cut t := by simpa using h
  have hsplit := splitFrom_intercalate hcut (by simpa using hne) hlists 0
  rw [Nat.add_zero, ← String.toList_intercalate, String.length_toList] at hsplit
  rw [split, hsplit, List.map_map]
  simp [Function.comp_def]

/-- What the items have, and keep when they are put together, a list of them has. -/
theorem intercalate_induction {P : List Char → Prop}
    (hjoin : ∀ x y, P x → P y → P (x ++ (", ".toList ++ y))) {items : List String}
    (hne : items ≠ []) (hitems : ∀ t ∈ items, P t.toList) :
    P (", ".intercalate items).toList := by
  rw [String.toList_intercalate]
  induction items with
  | nil => exact absurd rfl hne
  | cons t items ih =>
    obtain ⟨ht, hitems⟩ := List.forall_mem_cons.mp hitems
    cases items with
    | nil => simpa using ht
    | cons next items =>
      rw [List.map_cons, List.map_cons, List.intercalate_cons_cons, List.append_assoc]
      exact hjoin _ _ ht (ih (by simp) hitems)

end Directive

/-! ## The two lines -/

namespace Dialect

open Directive

variable {dialect : Dialect} {operand cut : Pattern} {symbolWords : Nat}

/-- The line that repeats an item. -/
def repeatLine (item count : String) : String := ".repeat " ++ item ++ ", " ++ count

/-- The line that lists an item so many times. -/
def listLine (item : String) (n : Nat) : String :=
  ".data " ++ ", ".intercalate (List.replicate n item)

theorem toList_repeatLine (item count : String) : (repeatLine item count).toList =
    ".repeat".toList ++ ' ' :: (item.toList ++ (", ".toList ++ count.toList)) := by
  simp [repeatLine]

theorem toList_listLine (item : String) (n : Nat) : (listLine item n).toList =
    ".data".toList ++ ' ' :: (", ".intercalate (List.replicate n item)).toList := by
  simp [listLine]

/-- The dialect reads lists of items: the common directives are in its table, and neither operands
nor numbers nor the marks of comments are in the way of commas. -/
structure Lists (dialect : Dialect) (operand cut : Pattern) (symbolWords : Nat) : Prop where
  directives : dialect.HasDirectives operand cut symbolWords
  cuts : CutsAtComma cut
  slotFree : operand.slotFree = true
  solid : ∀ b, operand.Accepts b [] → Solid b
  folds : dialect.foldsCase = false
  marks : (dialect.comments.all fun mark => mark != "" && !mark.toList.contains ',' &&
    !mark.toList.contains ' ') = true
  clear : dialect.Unmarked ".data".toList ∧ dialect.Unmarked ".repeat".toList
  number : ∀ text n, dialect.numbers.read text = .ok (some n) →
    operand.Accepts text.toList [] ∧ dialect.Unmarked text.toList ∧
      ∀ c ∈ text.toList.getLast?, isBlank c = false

namespace Lists

variable (h : dialect.Lists operand cut symbolWords)

include h

/-- The line that repeats an item is read as such. -/
theorem find?_repeatLine {item count : String} (hitem : Item operand cut item.toList)
    (hcount : operand.Accepts count.toList []) :
    Rule.find? dialect.rules (repeatLine item count).toList =
      some (.repeat item count symbolWords) := by
  have hword : IsWord ".repeat" := by decide
  have hhead : ∀ c ∈ (item.toList ++ (", ".toList ++ count.toList)).head?, isBlank c = false := by
    obtain ⟨c, rest, hitem, hc⟩ := hitem.solid
    simpa [hitem] using isBlank_of_isSeparator hc
  have htarget : (all [.slot .a operand, .separator, .slot .b operand]).Accepts
      (item.toList ++ (", ".toList ++ count.toList)) [(.b, count), (.a, item)] := by
    refine accepts_all_cons.mpr ⟨item.toList, _, [(.a, item)], [(.b, count)], rfl, rfl,
      ⟨[], hitem.accepts, by simp⟩, accepts_all_cons.mpr ⟨", ".toList, count.toList, [],
        [(.b, count)], rfl, rfl, ?_, [], hcount, by simp⟩⟩
    exact ⟨[], [',', ' '], [], [], rfl, rfl, ⟨by simp, rfl⟩, [','], [' '], [], [], rfl, rfl,
      ⟨⟨',', rfl, by decide⟩, rfl⟩, by simp [isBlank], rfl⟩
  obtain ⟨caps, hmatch⟩ := Option.isSome_iff_exists.mp
    (match?_isSome ((accepts_behind_word hword hhead).mpr htarget))
  obtain ⟨ops, haccepts, hcaps⟩ := accepts_of_match? hmatch
  -- the operand and the count are the only ones that stand there
  obtain ⟨x, y, u, v, heq, rfl, hx, hy⟩ :=
    accepts_all_cons.mp ((accepts_behind_word hword hhead).mp haccepts)
  obtain ⟨gap, z, u', v', rfl, rfl, hgap, hz⟩ := accepts_all_cons.mp hy
  obtain ⟨hxa, rfl⟩ := accepts_slot h.slotFree hx
  obtain ⟨hzb, rfl⟩ := accepts_slot h.slotFree hz
  obtain ⟨hgap', rfl⟩ := accepts_separator hgap
  obtain rfl : x = item.toList := hitem.alone x gap z count.toList hxa hgap' heq.symm
  have hz : z = count.toList := by
    have hskip {c : Char} {rest gap : List Char} (hgap : Gap gap) (hc : isSeparator c = false) :
        (gap ++ c :: rest).dropWhile isSeparator = c :: rest := by
      rw [List.dropWhile_append_of_pos hgap.2, List.dropWhile_cons_of_neg (by simp [hc])]
    obtain ⟨c, rest, rfl, hc⟩ := h.solid z hzb
    obtain ⟨c', rest', hcount', hc'⟩ := h.solid _ hcount
    have hdrop := congrArg (List.dropWhile isSeparator) (List.append_cancel_left heq)
    rw [hcount', hskip gap_comma hc', hskip hgap' hc] at hdrop
    rw [hcount', ← hdrop]
  obtain rfl := hz
  have hother : (Slot.a == Slot.b) = false := rfl
  have ha : caps.get .a = item := by simp [hcaps, captured, List.lookup_cons, hother]
  have hb : caps.get .b = count := by simp [hcaps, captured]
  have hrule : Rule.withWord words (common operand cut symbolWords).tail ".repeat" =
      [⟨.all [.lit ".repeat", .space, .slot .a operand, .separator, .slot .b operand],
        fun caps => .repeat (caps.get .a) (caps.get .b) symbolWords⟩] := rfl
  rw [toList_repeatLine, h.directives.find? _ (by decide), hrule]
  rw [Rule.find?_of_match hmatch]
  dsimp only
  rw [ha, hb]

/-- The line that lists an item is read as such. -/
theorem find?_listLine {item : String} (hitem : Item operand cut item.toList)
    (hline : '\n' ∉ item.toList) {n : Nat} (hn : n ≠ 0) :
    Rule.find? dialect.rules (listLine item n).toList =
      some (.data (List.replicate n item) symbolWords) := by
  have hword : IsWord ".data" := by decide
  have hmem : ∀ t ∈ List.replicate n item, t = item := fun t ht => List.eq_of_mem_replicate ht
  have hsplit : split cut (", ".intercalate (List.replicate n item)) = List.replicate n item :=
    split_intercalate h.cuts (by simpa using hn) fun t ht => by rwa [hmem t ht]
  have hhead : ∀ c ∈ (", ".intercalate (List.replicate n item)).toList.head?,
      isBlank c = false := by
    obtain ⟨c, rest, hitem, hc⟩ := hitem.solid
    obtain ⟨m, rfl⟩ := Nat.exists_eq_succ_of_ne_zero hn
    cases m <;> simpa [List.replicate_succ, hitem] using isBlank_of_isSeparator hc
  have hnewline : ∀ c ∈ (", ".intercalate (List.replicate n item)).toList, (c != '\n') = true := by
    refine intercalate_induction (P := fun cs => ∀ c ∈ cs, (c != '\n') = true) (fun x y hx hy => ?_)
      (by simpa using hn) fun t ht => ?_
    · exact List.forall_mem_append.mpr ⟨hx, List.forall_mem_append.mpr ⟨by simp, hy⟩⟩
    · intro c hc
      rw [hmem t ht] at hc
      rw [bne_iff_ne]
      rintro rfl
      exact hline hc
  have hfree : remainder.slotFree = true := rfl
  obtain ⟨caps, hmatch, hcaps⟩ := match?_behind_word hword hhead hfree ⟨hnewline, rfl⟩ .a
  have hrule : Rule.withWord words (common operand cut symbolWords).tail ".data" =
      [dataRule cut symbolWords] := rfl
  rw [toList_listLine, h.directives.find? _ (by decide), hrule, Rule.find?_of_match hmatch,
    dataRule]
  dsimp only
  rw [hcaps, String.ofList_toList, hsplit]

theorem marks_clear : "" ∉ dialect.comments ∧
    ∀ mark ∈ dialect.comments, ',' ∉ mark.toList ∧ ' ' ∉ mark.toList := by
  have hall := List.all_eq_true.mp h.marks
  simp only [Bool.and_eq_true, bne_iff_ne, Bool.not_eq_true', List.contains_eq_mem,
    decide_eq_false_iff_not] at hall
  exact ⟨fun hmem => (hall "" hmem).1.1 rfl,
    fun mark hmark => ⟨(hall mark hmark).1.2, (hall mark hmark).2⟩⟩

theorem unmarked_join {x y : List Char} (hx : dialect.Unmarked x) (hy : dialect.Unmarked y) :
    dialect.Unmarked (x ++ (", ".toList ++ y)) := by
  obtain ⟨hempty, hmarks⟩ := h.marks_clear
  have hnil : dialect.Unmarked [] := by
    intro mark hmark hwithin
    have hmark' : mark = "" := String.toList_eq_nil_iff.mp (List.eq_nil_of_infix_nil hwithin)
    exact hempty (hmark' ▸ hmark)
  have hblank : dialect.Unmarked (' ' :: y) :=
    hnil.append hy fun mark hmark => (hmarks mark hmark).2
  exact hx.append hblank fun mark hmark => (hmarks mark hmark).1

/-- A line with one of the words and operands behind it is read as it stands. -/
theorem instructionOf_eq {raw word : String} {o : List Char}
    (hraw : raw.toList = word.toList ++ ' ' :: o) (hword : dialect.Unmarked word.toList)
    (hfirst : ∀ c ∈ word.toList.head?, isBlank c = false) (hne : word ≠ "") (ho : o ≠ [])
    (hunmarked : dialect.Unmarked o) (hlast : ∀ c ∈ o.getLast?, isBlank c = false) :
    dialect.instructionOf raw = raw := by
  obtain ⟨hempty, hmarks⟩ := h.marks_clear
  have hword' : word.toList ≠ [] := fun hnil => hne (String.toList_eq_nil_iff.mp hnil)
  refine instructionOf_eq_self h.folds hempty ?_ ?_ ?_
  · rw [hraw]
    exact hword.append hunmarked fun mark hmark => (hmarks mark hmark).2
  · rwa [hraw, List.head?_append_of_ne_nil _ hword']
  · rw [hraw, List.getLast?_append_of_ne_nil _ (by simp), List.getLast?_cons_of_ne_nil ho]
    exact hlast

section Items

variable {item : String} (hitem : Item operand cut item.toList)
  (hunmarked : dialect.Unmarked item.toList) {n : Nat} (number : Nat) (p : Program)

include hitem hunmarked

/-- The line that repeats an item places it so many times. -/
theorem placeLine_repeatLine {count : String}
    (hcount : dialect.numbers.read count = .ok (some (n : Int))) (hn : n ≤ maxRepeat) :
    dialect.placeLine number (repeatLine item count) p =
      placeAll (dialect.placeItem symbolWords
        ⟨number, repeatLine item count, ".repeat", "(data)"⟩) (List.replicate n item) p [] := by
  obtain ⟨haccepts, hclear, hlast⟩ := h.number count n hcount
  obtain ⟨c, rest, hfirst, -⟩ := h.solid _ haccepts
  have hraw : dialect.instructionOf (repeatLine item count) = repeatLine item count := by
    refine h.instructionOf_eq (toList_repeatLine item count) h.clear.2 (by simp [isBlank])
      (by decide) (by simp) (h.unmarked_join hunmarked hclear) ?_
    rw [List.getLast?_append_of_ne_nil _ (by simp),
      List.getLast?_append_of_ne_nil _ (by simp [hfirst])]
    exact hlast
  have hne : repeatLine item count ≠ "" := by
    rw [Ne, ← String.toList_eq_nil_iff, toList_repeatLine]
    simp
  rw [placeLine, hraw, placeText, if_neg hne, h.find?_repeatLine hitem haccepts]
  unfold perform
  dsimp only
  rw [literal_of_read hcount]
  dsimp only
  rw [if_pos (by omega), Int.toNat_natCast]

/-- The line that lists an item so many times places it so many times. -/
theorem placeLine_listLine (hline : '\n' ∉ item.toList) (hn : n ≠ 0) :
    dialect.placeLine number (listLine item n) p =
      placeAll (dialect.placeItem symbolWords ⟨number, listLine item n, ".data", "(data)"⟩)
        (List.replicate n item) p [] := by
  have hitems : List.replicate n item ≠ [] := by simpa using hn
  have hmem : ∀ t ∈ List.replicate n item, t = item := fun t ht => List.eq_of_mem_replicate ht
  have hends : (", ".intercalate (List.replicate n item)).toList ≠ [] ∧
      ∀ c ∈ (", ".intercalate (List.replicate n item)).toList.getLast?, isBlank c = false := by
    refine intercalate_induction
      (P := fun cs => cs ≠ [] ∧ ∀ c ∈ cs.getLast?, isBlank c = false) (fun x y hx hy => ?_) hitems
      fun t ht => by rw [hmem t ht]; exact ⟨hitem.ne_nil, hitem.last⟩
    refine ⟨by simp, ?_⟩
    rw [List.getLast?_append_of_ne_nil _ (by simp), List.getLast?_append_of_ne_nil _ hy.1]
    exact hy.2
  have hclear : dialect.Unmarked (", ".intercalate (List.replicate n item)).toList :=
    intercalate_induction (fun _ _ => h.unmarked_join) hitems fun t ht => by rwa [hmem t ht]
  have hraw : dialect.instructionOf (listLine item n) = listLine item n :=
    h.instructionOf_eq (toList_listLine item n) h.clear.1 (by simp [isBlank]) (by decide) hends.1
      hclear hends.2
  have hne : listLine item n ≠ "" := by
    rw [Ne, ← String.toList_eq_nil_iff, toList_listLine]
    simp
  rw [placeLine, hraw, placeText, if_neg hne, h.find?_listLine hitem hline hn]
  rfl

end Items

end Lists

end Dialect

/-! ## Lines without the text that is shown -/

/-- The source without the text that is shown of it. -/
def Source.withoutText (source : Source) : Source := { source with raw := "", shown := "" }

/-- The placed line without the text that is shown of it. -/
def Placed.withoutText : Placed → Placed
  | .label name source => .label name source.withoutText
  | .instruction address source parts => .instruction address source.withoutText parts

/-- The edit without the text that is shown of its line. -/
def Edit.withoutText : Edit → Edit
  | .place parts words source => .place parts words source.withoutText
  | .label name source => .label name source.withoutText
  | e => e

/-- The program without the text that is shown of its lines. -/
def Program.withoutText (p : Program) : Program := { p with lines := p.lines.map (·.withoutText) }

theorem Program.apply_withoutText (p : Program) (e : Edit) :
    p.withoutText.apply e.withoutText = (p.apply e).withoutText := by
  cases e with
  | place parts words source =>
    have hkeeps : p.withoutText.keeps = p.keeps := rfl
    simp only [Edit.withoutText, apply, hkeeps]
    cases p.keeps <;> simp [withoutText, Placed.withoutText]
  | label name source => simp [Edit.withoutText, apply, withoutText, Placed.withoutText]
  | resume =>
    have hemitting : p.withoutText.emitting = p.emitting := rfl
    simp only [Edit.withoutText, apply, hemitting]
    cases p.emitting.isNone <;> simp [withoutText]
  | _ => rfl

namespace Dialect

variable {dialect : Dialect}

theorem placeItem_withoutText (symbolWords : Nat) (source : Source) (item : String) (p : Program) :
    dialect.placeItem symbolWords source.withoutText item p.withoutText =
      (dialect.placeItem symbolWords source item p).map Edit.withoutText := by
  have hagree : p.withoutText.Agree p := ⟨rfl, rfl, rfl, rfl⟩
  rw [placeItem_congr hagree symbolWords source.withoutText item, placeItem, placeItem]
  cases dialect.literal? p item with
  | error e => rfl
  | ok found =>
    dsimp only
    cases dialect.operand p item _ false false <;> rfl

/-- Items that come from the same line are placed alike, up to the text that is shown. -/
theorem placeItems_withoutText (dialect : Dialect) (source source' : Source)
    (h : source.withoutText = source'.withoutText) (symbolWords : Nat) (items : List String)
    (p : Program) :
    (placeAll (dialect.placeItem symbolWords source) items p []).map Edit.withoutText =
      (placeAll (dialect.placeItem symbolWords source') items p []).map Edit.withoutText := by
  have hplace (source : Source) :
      placeAll (dialect.placeItem symbolWords source.withoutText) items p.withoutText [] =
        (placeAll (dialect.placeItem symbolWords source) items p []).map Edit.withoutText :=
    placeAll_map Program.apply_withoutText
      (fun item _ q => placeItem_withoutText symbolWords source item q) p []
  rw [← hplace source, ← hplace source', h]

end Dialect

/-! ## Operands as items -/

open Directive Operand

/-- Where operands are numbers, names and pairs, each of them is an item between commas. -/
theorem item_of_value {numbers : NumberSyntax}
    (hmarks : numbers.marks.all (fun m => m.mark.all isAtomChar) = true)
    (hcomma : (value numbers).avoids ',' = true) {t : List Char}
    (h : (value numbers).Accepts t []) : Item (value numbers) .comma t := by
  obtain ⟨hsolid, hlast⟩ := ends_of_value hmarks h
  obtain ⟨hwhole, c, rest, hcs, -⟩ := accepts_value hmarks h
  have hne : t ≠ [] := by simp [hcs]
  refine ⟨h, hsolid, fun d hd => isBlank_of_isSeparator (hlast d hd), ?_, ?_⟩
  · -- a cut has a comma, and before it blanks, which do not reach over the end of the operand
    intro u hu hsuffix rest
    refine run_eq_none fun x tail ops heq haccepts => ?_
    obtain ⟨blanks, y, v, w, rfl, -, ⟨hblanks, -⟩, hy⟩ := accepts_all_cons.mp haccepts
    obtain ⟨y₁, y₂, v₁, w₁, rfl, -, hsign, -⟩ := accepts_all_cons.mp hy
    obtain rfl := accepts_sign (by decide) (by decide) hsign
    have hnocomma : ',' ∉ u := fun hmem => not_mem_of_accepts hcomma h (hsuffix.subset hmem)
    have hblank : u ⊆ blanks → False := by
      intro hsubset
      have hend : isBlank (u.getLast hu) = true := hblanks _ (hsubset (List.getLast_mem hu))
      have hsame : t.getLast? = some (u.getLast hu) := by
        obtain ⟨front, rfl⟩ := hsuffix
        rw [List.getLast?_append_of_ne_nil _ hu, List.getLast?_eq_some_getLast hu]
      rw [isBlank_of_isSeparator (hlast _ hsame)] at hend
      cases hend
    rw [List.append_assoc] at heq
    rcases List.append_eq_append_iff.mp heq with ⟨gap, hgap, -⟩ | ⟨gap, hgap, hrest⟩
    · exact hblank (hgap ▸ List.subset_append_left _ _)
    · cases gap with
      | nil => exact hblank (by simp [hgap])
      | cons d gap =>
        obtain ⟨hd, -⟩ := List.cons.inj hrest
        exact hnocomma (by simp [hgap, ← hd])
  · intro a gap rest rest' ha hgap heq
    obtain ⟨hwhole', d, others, hds, -⟩ := accepts_value hmarks ha
    have htokens := congrArg tokens heq
    rw [tokens_append hwhole' (by simp [hds]) hgap, tokens_append hwhole hne gap_comma] at htokens
    exact String.ofList_injective (List.cons.inj htokens).1

/-- A dialect whose operands are numbers, names and pairs, and whose comments begin with a semicolon
or two slashes. -/
theorem Dialect.lists_of_value {dialect : Dialect} {numbers : NumberSyntax} {symbolWords : Nat}
    (hdirectives : dialect.HasDirectives (value numbers) .comma symbolWords)
    (hnumbers : dialect.numbers = numbers) (hfolds : dialect.foldsCase = false)
    (hcomments : dialect.comments = [";", "//"]) (hfree : (value numbers).slotFree = true)
    (hmarks : numbers.marks.all (fun m => m.mark.all isAtomChar) = true)
    (havoids : ((value numbers).avoids ';' && (value numbers).avoids '/') = true) :
    dialect.Lists (value numbers) .comma symbolWords := by
  obtain ⟨hsemicolon, hslash⟩ := Bool.and_eq_true_iff.mp havoids
  refine ⟨hdirectives, comma_cutsAtComma, hfree, fun b hb => (ends_of_value hmarks hb).1, hfolds,
    by rw [hcomments]; decide, ?_, ?_⟩
  · refine ⟨unmarked_of_lacks ?_, unmarked_of_lacks ?_⟩ <;> rw [hcomments] <;> simp
  · intro text n hread
    rw [hnumbers] at hread
    obtain ⟨m, hm, hread⟩ :=
      List.exists_of_findSome?_eq_some (NumberSyntax.read_eq_some.mp hread).2
    have haccepts : (value numbers).Accepts text.toList [] :=
      Or.inl (accepts_atom_number hm (RadixMark.accepts_number_of_read? hread))
    refine ⟨haccepts, unmarked_of_lacks ?_, fun c hc =>
      isBlank_of_isSeparator ((ends_of_value hmarks haccepts).2 c hc)⟩
    rw [hcomments]
    simp only [List.forall_mem_cons, List.not_mem_nil, false_imp_iff, implies_true, and_true]
    exact ⟨⟨';', by simp, not_mem_of_accepts hsemicolon haccepts⟩,
      ⟨'/', by simp, not_mem_of_accepts hslash haccepts⟩⟩

theorem V8.lists : V8.dialect.Lists V8.operand .comma 1 :=
  Dialect.lists_of_value V8.hasDirectives rfl rfl rfl (by decide) (by decide) (by decide)

theorem Bitzzy.lists : Bitzzy.dialect.Lists Bitzzy.operand .comma 2 :=
  Dialect.lists_of_value Bitzzy.hasDirectives rfl rfl rfl (by decide) (by decide) (by decide)

namespace Parva

theorem lists : dialect.Lists operand .separator 1 := by
  refine ⟨hasDirectives, separator_cutsAtComma, rfl, fun _ => solid_of_operand, rfl, by decide,
    ⟨by decide, by decide⟩, ?_⟩
  intro text n hread
  obtain ⟨hne, hname⟩ := NumberSyntax.name_of_parse? (NumberSyntax.read_eq_some.mp hread).2
  refine ⟨Or.inl (accepts_oneOrMore.mpr ⟨hne, hname, rfl⟩), ?_, fun c hc =>
    isBlank_of_isSeparator (isSeparator_of_isNameChar (hname c (List.mem_of_getLast? hc)))⟩
  refine Dialect.unmarked_of_lacks fun mark hmark => ?_
  have hsigns :
      (dialect.comments.all fun mark => mark.toList.any fun c => !isNameChar c) = true := by decide
  obtain ⟨c, hc, hother⟩ := List.any_eq_true.mp (List.all_eq_true.mp hsigns mark hmark)
  exact ⟨c, hc, fun hmem => by simp [hname c hmem] at hother⟩

/-- A character stands between apostrophes, behind a backslash if it is escaped. -/
theorem character_shape {cs : List Char} (h : character.Accepts cs []) :
    ∃ sign mark c, (sign = [] ∨ sign = ['-']) ∧ (mark = [] ∨ mark = ['\\']) ∧
      cs = sign ++ '\x27' :: (mark ++ [c, '\x27']) := by
  obtain ⟨x₁, y₁, u₁, v₁, rfl, -, hsign, h₁⟩ := accepts_all_cons.mp h
  obtain ⟨x₂, y₂, u₂, v₂, rfl, -, hopen, h₂⟩ := accepts_all_cons.mp h₁
  obtain ⟨x₃, y₃, u₃, v₃, rfl, -, hmark, h₃⟩ := accepts_all_cons.mp h₂
  obtain ⟨x₄, y₄, u₄, v₄, rfl, -, ⟨⟨c, rfl, -⟩, -⟩, hclose⟩ := accepts_all_cons.mp h₃
  have hmark' : x₃ = [] ∨ x₃ = ['\\'] := by
    rcases hmark with hmark | ⟨rfl, -⟩
    · exact Or.inr (accepts_sign (by decide) (by decide) hmark)
    · exact Or.inl rfl
  rw [accepts_sign (by decide) (by decide) hopen, accepts_sign (by decide) (by decide) hclose]
  exact ⟨x₁, x₃, c, accepts_minus hsign, hmark', by simp⟩

/-- No operand goes on with a comma behind another operand: only a character holds a comma, and what
stands before it there is not closed. -/
theorem not_operand_of_front {front rest : List Char} (hfront : operand.Accepts front []) :
    ¬operand.Accepts (front ++ ',' :: rest) [] := by
  rintro (hname | hpair | hcharacter)
  · exact absurd ((accepts_oneOrMore.mp hname).2.1 ',' (by simp)) (by decide)
  · have havoids : (pair name).avoids ',' = true := by decide
    exact not_mem_of_accepts havoids hpair (by simp)
  · obtain ⟨sign, mark, c, hsign, hmark, heq⟩ := character_shape hcharacter
    have hcomma : c = ',' := by
      have hmem : ',' ∈ sign ++ '\x27' :: (mark ++ [c, '\x27']) := heq ▸ by simp
      rcases hsign with rfl | rfl <;> rcases hmark with rfl | rfl <;> simpa [eq_comm] using hmem
    subst hcomma
    have hclosed : '\x27' ∈ ',' :: rest := by
      have hlast : (front ++ ',' :: rest).getLast? = some '\x27' := by
        rw [heq]
        rcases hsign with rfl | rfl <;> rcases hmark with rfl | rfl <;> simp
      rw [List.getLast?_append_of_ne_nil _ (by simp)] at hlast
      exact List.mem_of_getLast? hlast
    have htwo : (front ++ ',' :: rest).count '\x27' = 2 := by
      rw [heq]
      rcases hsign with rfl | rfl <;> rcases hmark with rfl | rfl <;> simp
    obtain ⟨hne, hall⟩ | ⟨inner, rfl, -⟩ | ⟨sign', inner, -, rfl⟩ := operand_shape hfront
    · have hquote : '\x27' ∉ front := fun hmem => absurd (hall _ hmem) (by decide)
      obtain ⟨f, others, rfl⟩ := List.exists_cons_of_ne_nil hne
      rcases hsign with rfl | rfl
      · exact hquote (by simp [(List.cons.inj heq).1])
      · cases others <;> simp_all
    · rcases hsign with rfl | rfl <;> simp at heq
    · rw [List.count_append] at htwo
      have := List.count_pos_iff.mpr hclosed
      simp only [List.count_append, List.count_cons_self, List.count_nil] at htwo
      omega

theorem item_of_plain {t : List Char} (h : operand.Accepts t []) (hplain : Plain t) :
    Directive.Item operand .separator t := by
  obtain ⟨front, c, hlast, hc⟩ := operand_last h
  refine ⟨h, solid_of_operand h, by simpa [hlast] using isBlank_of_isSeparator hc, ?_, ?_⟩
  · -- a cut begins with a separator
    intro u hu hsuffix rest
    refine Directive.run_eq_none fun x tail ops heq haccepts => ?_
    obtain ⟨⟨hne, hgap⟩, -⟩ := accepts_separator haccepts
    obtain ⟨d, x, rfl⟩ := List.exists_cons_of_ne_nil hne
    obtain ⟨e, u, rfl⟩ := List.exists_cons_of_ne_nil hu
    obtain ⟨rfl, -⟩ := List.cons.inj heq
    have hd : isSeparator e = true := hgap e List.mem_cons_self
    rw [hplain e (hsuffix.subset List.mem_cons_self)] at hd
    cases hd
  · intro a gap rest rest' ha hgap heq
    rcases List.append_eq_append_iff.mp heq with ⟨more, ht, hmore⟩ | ⟨more, rfl, hmore⟩
    · -- the operand goes on behind the other one, with a separator
      cases more with
      | nil => simpa using ht.symm
      | cons d more =>
        obtain ⟨e, gap, rfl⟩ := List.exists_cons_of_ne_nil hgap.1
        obtain ⟨rfl, -⟩ := List.cons.inj hmore
        have hd : isSeparator e = true := hgap.2 e List.mem_cons_self
        rw [hplain e (by simp [ht])] at hd
        cases hd
    · cases more with
      | nil => rw [List.append_nil]
      | cons d more =>
        obtain ⟨rfl, -⟩ := List.cons.inj hmore
        exact absurd ha (not_operand_of_front h)

end Parva

/-! ## Repeating and listing -/

/-- The dialects that repeat data, each with what an operand looks like. -/
def repeating : List (Dialect × Pattern) :=
  [(V8.dialect, V8.operand), (Bitzzy.dialect, Bitzzy.operand), (Parva.dialect, Parva.operand)]

/-- An operand of the dialects is an item of their lists; on the Parva, where blanks cut too, only
one without commas and blanks is. -/
theorem exists_lists {dialect : Dialect} {operand : Pattern} (h : (dialect, operand) ∈ repeating) :
    ∃ cut symbolWords, dialect.Lists operand cut symbolWords ∧
      ∀ t, operand.Accepts t [] → (dialect.name = "parva_0_1" → Plain t) →
        Item operand cut t := by
  simp only [repeating, List.mem_cons, List.not_mem_nil, or_false, Prod.mk.injEq] at h
  obtain ⟨rfl, rfl⟩ | ⟨rfl, rfl⟩ | ⟨rfl, rfl⟩ := h
  · exact ⟨.comma, 1, V8.lists, fun t ht _ => item_of_value (by decide) (by decide) ht⟩
  · exact ⟨.comma, 2, Bitzzy.lists, fun t ht _ => item_of_value (by decide) (by decide) ht⟩
  · exact ⟨.separator, 1, Parva.lists, fun t ht hplain => Parva.item_of_plain ht (hplain rfl)⟩

/-- An operand that is repeated, and a list of as many copies of it, either both fail with the same
fault, or leave programs that differ only in the text that is shown of the line: the instructions
have the same addresses and the same parts. -/
theorem repeat_agrees_with_data {dialect : Dialect} {operand : Pattern}
    (hdialect : (dialect, operand) ∈ repeating) {item count : String}
    (hoperand : (operand.match? item.toList).isSome = true) (hline : '\n' ∉ item.toList)
    (hunmarked : dialect.Unmarked item.toList)
    (hplain : dialect.name = "parva_0_1" → Plain item.toList) {n : Nat}
    (hcount : dialect.numbers.read count = .ok (some (n : Int)))
    (hn : 1 ≤ n ∧ n ≤ Directive.maxRepeat) (number : Nat) (p : Program) :
    let repeated := dialect.placeLine number (".repeat " ++ item ++ ", " ++ count) p
    let listed := dialect.placeLine number
      (".data " ++ ", ".intercalate (List.replicate n item)) p
    repeated.fault = listed.fault ∧
      (p.applyAll repeated.edits).withoutText = (p.applyAll listed.edits).withoutText := by
  obtain ⟨cut, symbolWords, hlists, hitems⟩ := exists_lists hdialect
  obtain ⟨caps, hmatch⟩ := Option.isSome_iff_exists.mp hoperand
  obtain ⟨ops, haccepts, -⟩ := accepts_of_match? hmatch
  obtain rfl := eq_nil_of_slotFree hlists.slotFree haccepts
  have hitem := hitems _ haccepts hplain
  have hrepeated := hlists.placeLine_repeatLine hitem hunmarked number p hcount hn.2
  have hlisted := hlists.placeLine_listLine hitem hunmarked number p hline (n := n) (by omega)
  rw [Dialect.repeatLine] at hrepeated
  rw [Dialect.listLine] at hlisted
  -- only the text that is shown tells the two lines apart
  have hsame := dialect.placeItems_withoutText
    ⟨number, ".repeat " ++ item ++ ", " ++ count, ".repeat", "(data)"⟩
    ⟨number, ".data " ++ ", ".intercalate (List.replicate n item), ".data", "(data)"⟩
    rfl symbolWords (List.replicate n item) p
  rw [← hrepeated, ← hlisted] at hsame
  obtain ⟨hedits, hfault⟩ := Outcome.mk.inj hsame
  refine ⟨hfault, ?_⟩
  rw [← Program.applyAll_map Program.apply_withoutText, hedits,
    Program.applyAll_map Program.apply_withoutText]

/-- On the Bitzzy a pair with blanks inside is an item like any other. -/
theorem spaced_pair_is_repeated :
    (Bitzzy.operand.match? "(a + 1)".toList).isSome = true ∧ '\n' ∉ "(a + 1)".toList ∧
      Bitzzy.dialect.Unmarked "(a + 1)".toList ∧
      Bitzzy.dialect.numbers.read "$2" = .ok (some ((2 : Nat) : Int)) ∧
      let repeated := Bitzzy.dialect.placeLine 7 (".repeat " ++ "(a + 1)" ++ ", " ++ "$2")
        (.start none)
      let listed := Bitzzy.dialect.placeLine 7
        (".data " ++ ", ".intercalate (List.replicate 2 "(a + 1)")) (.start none)
      (repeated.fault = none ∧ repeated.edits.length = 2) ∧ repeated.fault = listed.fault ∧
        ((Program.start none).applyAll repeated.edits).withoutText =
          ((Program.start none).applyAll listed.edits).withoutText := by
  have hoperand : (Bitzzy.operand.match? "(a + 1)".toList).isSome = true := by decide +kernel
  have hunmarked : Bitzzy.dialect.Unmarked "(a + 1)".toList := by decide +kernel
  have hcount : Bitzzy.dialect.numbers.read "$2" = .ok (some ((2 : Nat) : Int)) := by
    decide +kernel
  have hname : Bitzzy.dialect.name ≠ "parva_0_1" := by decide
  exact ⟨hoperand, by decide, hunmarked, hcount, by decide +kernel,
    repeat_agrees_with_data (by simp [repeating]) hoperand (by decide) hunmarked
      (fun h => absurd h hname) hcount ⟨by decide, by decide⟩ 7 (.start none)⟩

/-- On the Parva the blanks in a pair cut it: listed it is three items, repeated it is one. -/
theorem spaced_pair_is_cut :
    (Parva.operand.match? "(a + 1)".toList).isSome = true ∧
      Parva.dialect.Unmarked "(a + 1)".toList ∧
      let before := Program.start Parva.dialect.encoding
      let repeated := Parva.dialect.placeLine 0 (".repeat " ++ "(a + 1)" ++ ", " ++ "1") before
      let listed := Parva.dialect.placeLine 0
        (".data " ++ ", ".intercalate (List.replicate 1 "(a + 1)")) before
      repeated.fault = none ∧ listed.fault = none ∧
        (before.applyAll repeated.edits).lines.size = 1 ∧
        (before.applyAll listed.edits).lines.size = 3 := by
  decide +kernel

end PocketAsm
