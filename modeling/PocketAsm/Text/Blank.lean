/-
  Text/Blank.lean --- white space, and the trimming and cutting that go by it.

  A source line is trimmed, operands are set apart and a message is cut into
  letters by the same class of characters: the white space of the whole of
  Unicode, with the four information separators U+001C to U+001F.  The
  zero-width space and the byte order mark are not in it.
-/

set_option autoImplicit false

namespace PocketAsm.Text

/-- White space: the ASCII blanks and separators, and the blanks of Unicode. -/
def isBlank (c : Char) : Bool :=
  let n := c.toNat
  (9 ≤ n && n ≤ 13) || (28 ≤ n && n ≤ 32) || n == 0x85 || n == 0xA0 || n == 0x1680 ||
    (0x2000 ≤ n && n ≤ 0x200A) || n == 0x2028 || n == 0x2029 || n == 0x202F || n == 0x205F ||
    n == 0x3000

/-- The rest of a text after the characters of a class at its front. -/
def trimLeft (p : Char → Bool) (cs : List Char) : List Char := cs.dropWhile p

/-- A text without the characters of a class at its end. -/
def trimRight (p : Char → Bool) (cs : List Char) : List Char := (cs.reverse.dropWhile p).reverse

/-- A text without the characters of a class at either end. -/
def trim (p : Char → Bool) (cs : List Char) : List Char := trimRight p (trimLeft p cs)

/-- A text without the white space at either end. -/
def strip (s : String) : String := String.ofList (trim isBlank s.toList)

/-- A text without the white space at its end. -/
def stripRight (s : String) : String := String.ofList (trimRight isBlank s.toList)

/-- The words of a text: its longest pieces without white space. -/
def words (cs : List Char) : List (List Char) := (cs.splitOnP isBlank).filter (! ·.isEmpty)

/-- The lines of a text, which end at the line feed and at nothing else. -/
def lines (s : String) : List String := (s.toList.splitOnP (· == '\n')).map String.ofList

/-- The pieces between separators hold no separator. -/
theorem not_of_mem_splitOnP {p : Char → Bool} {c : Char} :
    ∀ (cs piece : List Char), piece ∈ cs.splitOnP p → c ∈ piece → p c = false := by
  intro cs
  induction cs with
  | nil => intro piece hpiece hc; simp_all
  | cons d cs ih =>
    intro piece hpiece hc
    rw [List.splitOnP_cons_eq_if_modifyHead] at hpiece
    split at hpiece
    · rcases List.mem_cons.mp hpiece with rfl | hpiece
      · simp at hc
      · exact ih piece hpiece hc
    · rename_i hd
      obtain ⟨first, rest, hsplit⟩ := List.exists_cons_of_ne_nil (List.splitOnP_ne_nil p cs)
      rw [hsplit, List.modifyHead_cons] at hpiece
      rcases List.mem_cons.mp hpiece with rfl | hpiece
      · rcases List.mem_cons.mp hc with rfl | hc
        · simpa using hd
        · exact ih first (by simp [hsplit]) hc
      · exact ih piece (by simp [hsplit, hpiece]) hc

theorem newline_not_mem_of_mem_lines {s line : String} (h : line ∈ lines s) :
    '\n' ∉ line.toList := by
  obtain ⟨piece, hpiece, rfl⟩ := List.mem_map.mp h
  intro hc
  rw [String.toList_ofList] at hc
  have := not_of_mem_splitOnP s.toList piece hpiece hc
  simp at this

theorem lines_ne_nil (s : String) : lines s ≠ [] := by
  simp [lines]

/-- Lines that are put together with line feeds come apart again. -/
theorem lines_intercalate {ls : List String} (hne : ls ≠ []) (h : ∀ l ∈ ls, '\n' ∉ l.toList) :
    lines ("\n".intercalate ls) = ls := by
  have hsplit : (['\n'].intercalate (ls.map String.toList)).splitOn '\n' =
      ls.map String.toList := by
    apply List.splitOn_intercalate
    · simpa using h
    · simpa using hne
  have hlist : "\n".toList = ['\n'] := by decide
  rw [lines, String.toList_intercalate, hlist, ← List.splitOn_eq_splitOnP, hsplit]
  simp [Function.comp_def]

/-- A text without line feeds is one line. -/
theorem lines_of_not_mem {s : String} (h : '\n' ∉ s.toList) : lines s = [s] := by
  have hsingle : "\n".intercalate [s] = s := by simp
  have hlines : lines ("\n".intercalate [s]) = [s] := lines_intercalate (by simp) (by simpa using h)
  rwa [hsingle] at hlines

end PocketAsm.Text
