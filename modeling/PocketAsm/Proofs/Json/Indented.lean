/-
  Proofs/Json/Indented.lean --- values come back from their indented text.

  An indented text differs from one on a single line in its white space only:
  a line break stands inside the brackets and behind each comma
  (`toList_enclose`).  So the reader takes it for the same value
  (`Legible.reads_indented`), and its line breaks are the only characters in it
  that do not show (`Legible.indented_shows`).
-/
import PocketAsm.Proofs.Json.Values

set_option autoImplicit false

namespace PocketAsm.Json

/-! ## Brackets -/

/-- A line break and blanks. -/
def IsBreak (cs : List Char) : Prop := ∀ c ∈ cs, c = '\n' ∨ c = ' '

theorem isBreak_nil : IsBreak [] := nofun

theorem isBreak_breakAt (depth : Nat) : IsBreak (breakAt depth).toList := by
  intro c hc
  have htext : (breakAt depth).toList = '\n' :: List.replicate (2 * depth) ' ' := by
    simp [breakAt]
  rw [htext, List.mem_cons] at hc
  exact hc.imp_right List.eq_of_mem_replicate

theorem IsBreak.isGap {cs : List Char} (h : IsBreak cs) : IsGap cs := by
  intro c hc
  rcases h c hc with rfl | rfl <;> rfl

/-- What stands between brackets: items with commas and line breaks between them, and line breaks
around them if there are any. -/
theorem toList_enclose (depth : Nat) (left right : String) (items : List String) :
    ∃ opening gap closing, IsBreak opening ∧ IsBreak gap ∧ IsBreak closing ∧
      (enclose depth left right items).toList = left.toList ++ (opening ++
        ((',' :: gap).intercalate (items.map String.toList) ++ (closing ++ right.toList))) := by
  cases items with
  | nil => exact ⟨[], [], [], isBreak_nil, isBreak_nil, isBreak_nil, by simp [enclose]⟩
  | cons item items =>
    refine ⟨_, _, _, isBreak_breakAt (depth + 1), isBreak_breakAt (depth + 1),
      isBreak_breakAt depth, ?_⟩
    simp [enclose, String.toList_intercalate]

theorem indentedItems_eq_map (depth : Nat) (vs : List Json) :
    indentedItems depth vs = vs.map (indented (depth + 1)) := by
  induction vs with
  | nil => rfl
  | cons v vs ih => rw [indentedItems, ih]; rfl

theorem indentedMembers_eq_map (depth : Nat) (ms : Members) :
    indentedMembers depth ms = ms.map fun m => quote m.1 ++ ": " ++ indented (depth + 1) m.2 := by
  induction ms with
  | nil => rfl
  | cons m ms ih => rw [indentedMembers, ih]; rfl

/-- The characters of a member. -/
theorem toList_indentedMember (depth : Nat) (m : WideText × Json) :
    (quote m.1 ++ ": " ++ indented (depth + 1) m.2).toList =
      (quote m.1).toList ++ ':' :: ' ' :: (indented (depth + 1) m.2).toList := by
  simp

/-! ## Legible values -/

/-- Legible values are read off their indented texts, however deep these begin. -/
theorem Legible.reads_indented {levels : Nat} {v : Json} (h : Legible levels v) (depth : Nat) :
    Reads levels v (indented depth v).toList := by
  induction h generalizing depth with
  | null =>
    rw [indented]
    exact reads_null _
  | bool b =>
    rw [indented]
    exact reads_bool _ b
  | int hn =>
    rw [indented]
    exact reads_int _ hn
  | str ht =>
    rw [indented]
    exact reads_str _ ht
  | @arr levels vs hvs ih =>
    obtain ⟨opening, gap, closing, hopening, hgap, hclosing, htext⟩ :=
      toList_enclose depth "[" "]" (indentedItems depth vs)
    rw [indented, htext, indentedItems_eq_map, List.map_map]
    refine reads_arr hopening.isGap hgap.isGap hclosing.isGap ?_
    rw [List.forall₂_map_right_iff, List.forall₂_same]
    exact fun v hv => ih v hv (depth + 1)
  | @obj levels ms hkeys hapart hms ih =>
    obtain ⟨opening, gap, closing, hopening, hgap, hclosing, htext⟩ :=
      toList_enclose depth "\x7b" "\x7d" (indentedMembers depth ms)
    rw [indented, htext, indentedMembers_eq_map, List.map_map]
    refine reads_obj hopening.isGap hgap.isGap hclosing.isGap ?_ hkeys
    rw [List.forall₂_map_right_iff, List.forall₂_same]
    exact fun m hm =>
      ⟨hapart m hm, _, toList_indentedMember depth m, ih m hm (depth + 1)⟩

/-- A legible value is the one that its indented text holds, whatever white space follows. -/
theorem parse_indented_append {v : Json} (h : Legible maxDepth v) (gap : String)
    (hgap : IsGap gap.toList) : parse (.ofString (indented 0 v ++ gap)) = .ok v :=
  parse_of_reads (h.reads_indented 0) gap hgap

/-! ## Characters -/

/-- The character is a line feed, or one that ASCII shows, blanks included. -/
def Shows (c : Char) : Prop := c = '\n' ∨ 32 ≤ c.toNat ∧ c.toNat ≤ 126

theorem IsBreak.shows {cs : List Char} (h : IsBreak cs) : ∀ c ∈ cs, Shows c :=
  fun c hc => (h c hc).imp_right (by rintro rfl; decide)

theorem IsInline.shows {s : String} (h : IsInline s) : ∀ c ∈ s.toList, Shows c :=
  fun c hc => Or.inr (h c hc)

/-- Between brackets there are the characters of the items, the commas and the line breaks. -/
theorem enclose_shows {depth : Nat} {left right : String} {items : List String}
    (hleft : IsInline left) (hright : IsInline right)
    (hitems : ∀ item ∈ items, ∀ c ∈ item.toList, Shows c) :
    ∀ c ∈ (enclose depth left right items).toList, Shows c := by
  obtain ⟨opening, gap, closing, hopening, hgap, hclosing, htext⟩ :=
    toList_enclose depth left right items
  have hseparator : ∀ c ∈ ',' :: gap, Shows c :=
    List.forall_mem_cons.mpr ⟨Or.inr (by decide), hgap.shows⟩
  have hlist := forall_mem_intercalate hseparator (items.map String.toList)
    (List.forall_mem_map.mpr hitems)
  rw [htext]
  simp only [List.forall_mem_append]
  exact ⟨hleft.shows, hopening.shows, hlist, hclosing.shows, hright.shows⟩

/-- The indented text of a legible value has no control characters but its line feeds. -/
theorem Legible.indented_shows {levels : Nat} {v : Json} (h : Legible levels v) (depth : Nat) :
    ∀ c ∈ (indented depth v).toList, Shows c := by
  induction h generalizing depth with
  | null =>
    rw [indented]
    exact IsInline.shows (by decide)
  | bool b =>
    rw [indented]
    cases b
    · exact IsInline.shows (by decide)
    · exact IsInline.shows (by decide)
  | @int levels n hn =>
    rw [indented]
    exact (int_inline n).shows
  | @str levels t ht =>
    rw [indented]
    exact (quote_inline t).shows
  | @arr levels vs hvs ih =>
    rw [indented, indentedItems_eq_map]
    refine enclose_shows (by decide) (by decide) ?_
    exact List.forall_mem_map.mpr fun v hv => ih v hv (depth + 1)
  | @obj levels ms hkeys hapart hms ih =>
    rw [indented, indentedMembers_eq_map]
    refine enclose_shows (by decide) (by decide) ?_
    refine List.forall_mem_map.mpr fun m hm => ?_
    rw [toList_indentedMember, List.forall_mem_append, List.forall_mem_cons, List.forall_mem_cons]
    exact ⟨(quote_inline m.1).shows, Or.inr (by decide), Or.inr (by decide), ih m hm (depth + 1)⟩

end PocketAsm.Json
