/-
  Proofs/Agreement.lean --- what a line reads of the program before it.

  A line is carried out by the address, the symbols and the character encoding
  alone: two programs that agree on these (`Program.Agree`) make the same edits
  and the same fault of it (`placeLine_congr`), and still agree afterwards.
  Whether lines are kept, and which were kept so far, no line can tell.
-/
import PocketAsm.Proofs.Edits
import PocketAsm.Assembly

set_option autoImplicit false

namespace PocketAsm

/-- What the line comes to, with each of its edits replaced. -/
def Outcome.map (g : Edit → Edit) (outcome : Outcome) : Outcome :=
  ⟨outcome.edits.map g, outcome.fault⟩

namespace Program

/-- Replacing programs and edits so that each edit is followed carries over to runs of edits. -/
theorem applyAll_map {f : Program → Program} {g : Edit → Edit}
    (hfg : ∀ p e, (f p).apply (g e) = f (p.apply e)) (p : Program) (edits : List Edit) :
    (f p).applyAll (edits.map g) = f (p.applyAll edits) := by
  induction edits generalizing p with
  | nil => rfl
  | cons e edits ih => rw [List.map_cons, applyAll_cons, hfg, ih, applyAll_cons]

/-! ## Agreement -/

/-- The programs have the same address, symbols and encoding; they may differ in their lines. -/
structure Agree (p q : Program) : Prop where
  address : p.address = q.address
  labels : p.labels = q.labels
  constants : p.constants = q.constants
  encoding : p.encoding = q.encoding

variable {p q : Program}

theorem Agree.refl (p : Program) : p.Agree p := ⟨rfl, rfl, rfl, rfl⟩

/-- The same edit keeps two programs in agreement. -/
theorem Agree.apply (h : p.Agree q) (e : Edit) : (p.apply e).Agree (q.apply e) := by
  obtain ⟨haddress, hlabels, hconstants, hencoding⟩ := h
  cases e with
  | place parts words source =>
    exact ⟨congrArg (· + words) haddress, hlabels, hconstants, hencoding⟩
  | label name source =>
    refine ⟨haddress, ?_, hconstants, hencoding⟩
    simp only [Program.apply, hlabels, haddress]
  | constant name value =>
    exact ⟨haddress, hlabels, congrArg (· ++ [(name, value)]) hconstants, hencoding⟩
  | moveTo address => exact ⟨rfl, hlabels, hconstants, hencoding⟩
  | resume => exact ⟨haddress, hlabels, hconstants, hencoding⟩
  | stop => exact ⟨haddress, hlabels, hconstants, hencoding⟩
  | encodeBy encoding => exact ⟨haddress, hlabels, hconstants, rfl⟩

theorem Agree.applyAll (h : p.Agree q) (edits : List Edit) :
    (p.applyAll edits).Agree (q.applyAll edits) := by
  induction edits generalizing p q with
  | nil => exact h
  | cons e edits ih => exact ih (h.apply e)

/-! ## Definitions -/

theorem defineLabel_congr (h : p.Agree q) (name : String) (source : Source) :
    p.defineLabel name source = q.defineLabel name source := by
  unfold defineLabel
  rw [h.labels]

theorem defineConstant_congr (h : p.Agree q) (name : String) (value : Int) :
    p.defineConstant name value = q.defineConstant name value := by
  unfold defineConstant
  rw [h.constants]

theorem align_congr (h : p.Agree q) (boundary : Int) (wordSize : Nat) (source : Source) :
    p.align boundary wordSize source = q.align boundary wordSize source := by
  rw [align_eq, align_eq, h.address]

end Program

namespace Dialect

variable {dialect : Dialect} {p q : Program}

/-! ## Operands -/

theorem literal?_congr (h : p.Agree q) (text : String) :
    dialect.literal? p text = dialect.literal? q text := by
  unfold literal?
  rw [h.encoding]

theorem literal_congr (h : p.Agree q) (text : String) :
    dialect.literal p text = dialect.literal q text := by
  unfold literal
  rw [literal?_congr h]

theorem operand_congr (h : p.Agree q) (text : String) (width : Nat) (signed relative : Bool) :
    dialect.operand p text width signed relative =
      dialect.operand q text width signed relative := by
  unfold operand
  rw [literal?_congr h, h.address]

theorem fieldPart_congr (h : p.Agree q) (field : Field) :
    dialect.fieldPart p field = dialect.fieldPart q field := by
  cases field with
  | bits bits => rfl
  | register code => cases code <;> rfl
  | value text width signed relative => exact operand_congr h text width signed relative

theorem fieldParts_congr (h : p.Agree q) (fields : List Field) :
    dialect.fieldParts p fields = dialect.fieldParts q fields := by
  induction fields with
  | nil => rfl
  | cons field fields ih => rw [fieldParts, fieldParts, fieldPart_congr h, ih]

/-! ## Data and strings -/

/-- Texts that are each placed alike are placed alike one after the other. -/
theorem placeAll_congr {place : String → Program → Outcome}
    (hplace : ∀ text p q, p.Agree q → place text p = place text q) (texts : List String) :
    ∀ {p q : Program} (done : List Edit), p.Agree q →
      placeAll place texts p done = placeAll place texts q done := by
  induction texts with
  | nil => intro p q done _; rfl
  | cons text texts ih =>
    intro p q done h
    rw [placeAll, placeAll, hplace text p q h]
    split
    · rfl
    · exact ih _ (h.applyAll _)

/-- Texts that are each placed with the edits replaced are placed so one after the other. -/
theorem placeAll_map {f : Program → Program} {g : Edit → Edit}
    (hfg : ∀ p e, (f p).apply (g e) = f (p.apply e)) {place place' : String → Program → Outcome}
    {texts : List String}
    (hplace : ∀ text ∈ texts, ∀ p, place' text (f p) = (place text p).map g) :
    ∀ (p : Program) (done : List Edit),
      placeAll place' texts (f p) (done.map g) = (placeAll place texts p done).map g := by
  induction texts with
  | nil => intro p done; simp [placeAll, Outcome.map]
  | cons text texts ih =>
    intro p done
    have hfirst := hplace text List.mem_cons_self p
    have hrest := ih fun text htext => hplace text (List.mem_cons_of_mem _ htext)
    have hedits : ((place text p).map g).edits.reverse ++ done.map g =
        ((place text p).edits.reverse ++ done).map g := by simp [Outcome.map]
    rw [placeAll, placeAll, hfirst, hedits]
    cases hfault : (place text p).fault with
    | some e => simp [Outcome.map, hfault]
    | none =>
      simp only [Outcome.map, hfault, Program.applyAll_map hfg]
      exact hrest _ _

theorem placeItem_congr (h : p.Agree q) (symbolWords : Nat) (source : Source) (item : String) :
    dialect.placeItem symbolWords source item p = dialect.placeItem symbolWords source item q := by
  unfold placeItem
  simp only [literal?_congr h, operand_congr h]

theorem placeItems_congr (h : p.Agree q) (symbolWords : Nat) (source : Source)
    (items : List String) :
    placeAll (dialect.placeItem symbolWords source) items p [] =
      placeAll (dialect.placeItem symbolWords source) items q [] :=
  placeAll_congr (fun item _ _ h => placeItem_congr h symbolWords source item) items [] h

theorem placeString_congr (h : p.Agree q) (source : Source) (text : String) :
    dialect.placeString source text p = dialect.placeString source text q := by
  unfold placeString
  rw [h.encoding]

/-! ## Lines -/

theorem perform_congr (h : p.Agree q) (source : Source) (action : Action) :
    dialect.perform source p action = dialect.perform source q action := by
  cases action with
  | emit fields words mark =>
    unfold perform
    simp only [fieldParts_congr h]
  | expand lines => rfl
  | reject fault => rfl
  | label name =>
    unfold perform
    simp only [Program.defineLabel_congr h]
  | data items symbolWords => exact placeItems_congr h symbolWords _ items
  | «repeat» item count symbolWords =>
    unfold perform
    simp only [literal_congr h, placeItems_congr h symbolWords]
  | constant name value =>
    unfold perform
    simp only [literal_congr h, Program.defineConstant_congr h]
  | address value =>
    unfold perform
    simp only [literal_congr h]
  | align boundary =>
    unfold perform
    simp only [literal_congr h, Program.align_congr h]
  | resume => rfl
  | stop => rfl
  | string text => exact placeString_congr h source text
  | encoding name => rfl

theorem placeText_congr (source : Source) :
    ∀ (levels : Nat) (text : String) (p q : Program), p.Agree q →
      dialect.placeText levels source text p = dialect.placeText levels source text q := by
  intro levels
  induction levels with
  | zero =>
    intro text p q h
    rw [placeText, placeText]
    split
    · rfl
    · cases hfind : Rule.find? dialect.rules text.toList with
      | none => rfl
      | some action =>
        cases action with
        | expand lines => cases lines <;> rfl
        | _ => exact perform_congr h _ _
  | succ levels ih =>
    intro text p q h
    rw [placeText, placeText]
    split
    · rfl
    · cases hfind : Rule.find? dialect.rules text.toList with
      | none => rfl
      | some action =>
        cases action with
        | expand lines =>
          cases lines with
          | nil => rfl
          | cons line lines => exact placeAll_congr ih (line :: lines) [] h
        | _ => exact perform_congr h _ _

/-- Programs that agree make the same of a line. -/
theorem placeLine_congr (h : p.Agree q) (number : Nat) (raw : String) :
    dialect.placeLine number raw p = dialect.placeLine number raw q :=
  placeText_congr _ maxExpansions _ p q h

end Dialect

end PocketAsm
