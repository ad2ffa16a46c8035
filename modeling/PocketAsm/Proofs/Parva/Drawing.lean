/-
  Proofs/Parva/Drawing.lean --- what the display shows after a sequence of commands.

  A pixel of a screen is what was set last (`Screen.get_set`), so a block changes
  just the pixels that it covers, to the bits of its two words
  (`Display.get_draw`).  After a sequence of commands the buffer therefore shows,
  at each pixel, the last block over it since the buffer was emptied
  (`get_buffer_run`), and the screen shows what any command to show the buffer
  found there since the screen was cleared (`get_screen_run`).
-/
import PocketAsm.Isa.Parva.Display
import Mathlib.Tactic

set_option autoImplicit false

namespace PocketAsm.Parva

/-! ## Pixels of a screen -/

namespace Screen

variable {x y x' y' : Int}

theorem contains_iff : contains x y = true ↔ (0 ≤ x ∧ x < 64) ∧ (0 ≤ y ∧ y < 48) := by
  simp [contains, and_assoc]

/-- Places on the screen have different numbers, all of them below the number of pixels. -/
theorem place_lt (h : contains x y = true) : place x y < 3072 := by
  rw [contains_iff] at h
  simp only [place]
  omega

theorem place_inj (h : contains x y = true) (h' : contains x' y' = true)
    (hplace : place x y = place x' y') : x = x' ∧ y = y' := by
  rw [contains_iff] at h h'
  simp only [place] at hplace
  omega

/-- A pixel reads as what it was set to, and the others keep their values. -/
theorem get_set (s : Screen) (value : Bool) (h : contains x' y' = true) :
    (s.set x y value).get x' y' = if x = x' ∧ y = y' then value else s.get x' y' := by
  by_cases hxy : contains x y = true
  · have hlt := place_lt h
    simp only [set, if_pos hxy, get, h, Bool.true_and, Vector.getElem?_setIfInBounds]
    by_cases hplace : place x y = place x' y'
    · obtain ⟨rfl, rfl⟩ := place_inj hxy h hplace
      simp [hlt]
    · have hne : ¬(x = x' ∧ y = y') := by
        rintro ⟨rfl, rfl⟩
        exact hplace rfl
      rw [if_neg hplace, if_neg hne]
  · have hne : ¬(x = x' ∧ y = y') := by
      rintro ⟨rfl, rfl⟩
      exact hxy h
    rw [set, if_neg hxy, if_neg hne]

@[simp] theorem get_blank (x y : Int) : blank.get x y = false := by
  by_cases h : place x y < 3072 <;> simp [get, blank, h]

@[simp] theorem get_merge (s t : Screen) (x y : Int) :
    (s.merge t).get x y = (s.get x y || t.get x y) := by
  unfold get merge
  by_cases hxy : contains x y = true
  · have hlt := place_lt hxy
    simp [hxy, hlt]
  · simp [hxy]

end Screen

/-! ## Blocks -/

namespace Display

/-- The block at a corner covers the pixel. -/
def Covers (corner : Nat × Nat) (x y : Nat) : Prop :=
  (corner.1 ≤ x ∧ x < corner.1 + 6) ∧ (corner.2 ≤ y ∧ y < corner.2 + 8)

instance (corner : Nat × Nat) (x y : Nat) : Decidable (Covers corner x y) :=
  inferInstanceAs (Decidable (_ ∧ _))

/-- The pixel of a block in a column and a row: rows of six bits, the most significant one first,
four of them in the upper word and four in the lower one. -/
def blockBit (top bottom column row : Nat) : Bool :=
  if row < 4 then top.testBit (23 - (6 * row + column))
  else bottom.testBit (23 - (6 * (row - 4) + column))

theorem cellBit_eq_testBit (word column row : Nat) :
    cellBit word column row = word.testBit (23 - (6 * row + column)) := by
  have hbit : 23 - (column + row * blockWidth) = 23 - (6 * row + column) := by
    simp only [blockWidth]
    omega
  rw [cellBit, hbit, Nat.testBit_eq_decide_div_mod_eq, Bits.span, Bool.eq_iff_iff, beq_iff_eq,
    decide_eq_true_iff]
  norm_cast

theorem mem_blockCells {column row : Nat} :
    (column, row) ∈ blockCells ↔ column < 6 ∧ row < 4 := by
  simp [blockCells, blockWidth, halfHeight, and_comm]

/-- Drawing cells of a block sets the pixels of its upper and its lower half that belong to one of
them. -/
theorem get_drawCells (left upper : Int) (top bottom : Int) {x y : Int}
    (hxy : Screen.contains x y = true) (cells : List (Nat × Nat))
    (hcells : ∀ cell ∈ cells, cell.2 < 4) (buffer : Screen) :
    (cells.foldl (fun buffer (cell : Nat × Nat) =>
        (buffer.set (left + cell.1) (upper + cell.2) (cellBit top cell.1 cell.2)).set
          (left + cell.1) (upper + cell.2 + halfHeight) (cellBit bottom cell.1 cell.2))
        buffer).get x y =
      if left ≤ x ∧ upper ≤ y ∧ ((x - left).toNat, (y - upper).toNat) ∈ cells then
        cellBit top (x - left).toNat (y - upper).toNat
      else if left ≤ x ∧ upper + 4 ≤ y ∧ ((x - left).toNat, (y - upper - 4).toNat) ∈ cells then
        cellBit bottom (x - left).toNat (y - upper - 4).toNat
      else buffer.get x y := by
  induction cells generalizing buffer with
  | nil => simp
  | cons cell cells ih =>
    obtain ⟨column, row⟩ := cell
    obtain ⟨hrow, hcells⟩ := List.forall_mem_cons.mp hcells
    have hrow : row < 4 := hrow
    rw [List.foldl_cons, ih hcells, Screen.get_set _ _ hxy, Screen.get_set _ _ hxy]
    simp only [List.mem_cons, Prod.mk.injEq, halfHeight, Nat.cast_ofNat]
    by_cases hupper : left + column = x ∧ upper + row = y
    · obtain ⟨rfl, rfl⟩ := hupper
      have hbelow : ¬upper + 4 ≤ upper + row := by omega
      simp [hbelow]
    · by_cases hlower : left + column = x ∧ upper + row + 4 = y
      · obtain ⟨rfl, rfl⟩ := hlower
        have hrow' : upper + row + 4 - upper - 4 = row := by omega
        have hcell : (upper + row + 4 - upper).toNat ≠ row := by omega
        simp [hrow', hcell]
      · have hne : ¬(left ≤ x ∧ upper ≤ y ∧ (x - left).toNat = column ∧ (y - upper).toNat = row) := by
          omega
        have hne' : ¬(left ≤ x ∧ upper + 4 ≤ y ∧ (x - left).toNat = column ∧
            (y - upper - 4).toNat = row) := by
          omega
        simp only [and_or_left, hne, hne', hupper, hlower, false_or, if_false]

/-- A block changes the pixels that it covers, and no others. -/
theorem get_draw (d : Display) {corner : Nat × Nat} (hx : d.cursorX = corner.1)
    (hy : d.cursorY = corner.2) (top bottom : Nat) {x y : Nat}
    (hxy : Screen.contains x y = true) :
    (d.draw top bottom).buffer.get x y =
      if Covers corner x y then blockBit top bottom (x - corner.1) (y - corner.2)
      else d.buffer.get x y := by
  have hcells : ∀ cell ∈ blockCells, cell.2 < 4 := fun _ hcell => (mem_blockCells.mp hcell).2
  have hcolumn : ((x : Int) - corner.1).toNat = x - corner.1 := by omega
  have hrow : ((y : Int) - corner.2).toNat = y - corner.2 := by omega
  have hrow' : ((y : Int) - corner.2 - 4).toNat = y - corner.2 - 4 := by omega
  rw [draw, hx, hy]
  rw [get_drawCells _ _ _ _ hxy _ hcells, hcolumn, hrow, hrow']
  simp only [mem_blockCells, cellBit_eq_testBit]
  by_cases hcovers : Covers corner x y
  · rw [if_pos hcovers, blockBit]
    unfold Covers at hcovers
    by_cases hupper : y - corner.2 < 4
    · rw [if_pos hupper, if_pos (by omega)]
    · rw [if_neg hupper, if_neg (by omega), if_pos (by omega)]
  · rw [if_neg hcovers]
    unfold Covers at hcovers
    rw [if_neg (by omega), if_neg (by omega)]

/-- Only a move changes the cursor. -/
theorem cursor_command (d : Display) (number a b : Int) :
    (d.command number a b).cursorX = (if number = 0 then a else d.cursorX) ∧
      (d.command number a b).cursorY = if number = 0 then b else d.cursorY := by
  unfold command
  split_ifs <;> exact ⟨rfl, rfl⟩

/-- A command without a meaning changes nothing. -/
theorem command_of_unknown (d : Display) {number : Int} (hmove : number ≠ 0) (hdraw : number ≠ 2)
    (hshow : number ≠ 3) (hclear : number ≠ 4) (a b : Int) : d.command number a b = d := by
  simp only [command, if_neg hmove, if_neg hdraw, if_neg hshow, if_neg hclear]

/-! ## Sequences of commands -/

/-- A command with its two arguments. -/
structure Command where
  number : Int
  a : Nat
  b : Nat
  deriving DecidableEq, Repr, Inhabited

namespace Command

/-- The command moves the cursor. -/
def Moves (c : Command) : Prop := c.number = 0

/-- The command draws a block into the buffer. -/
def Draws (c : Command) : Prop := c.number = 2

/-- The command shows the buffer and empties it. -/
def Shows (c : Command) : Prop := c.number = 3

/-- The command clears the screen. -/
def Clears (c : Command) : Prop := c.number = 4

instance (c : Command) : Decidable c.Moves := inferInstanceAs (Decidable (_ = _))

instance (c : Command) : Decidable c.Draws := inferInstanceAs (Decidable (_ = _))

instance (c : Command) : Decidable c.Shows := inferInstanceAs (Decidable (_ = _))

instance (c : Command) : Decidable c.Clears := inferInstanceAs (Decidable (_ = _))

end Command

/-- The display after a sequence of commands. -/
def run (commands : List Command) : Display :=
  commands.foldl (fun d c => d.command c.number c.a c.b) blank

/-- The cursor after a sequence of commands: where the last one that moved it put it. -/
def cursor (commands : List Command) : Nat × Nat :=
  match commands.reverse.find? (·.Moves) with
  | some c => (c.a, c.b)
  | none => (0, 0)

/-- The command at this place draws a block over the pixel. -/
structure DrawsOver (commands : List Command) (x y i : Nat) (c : Command) : Prop where
  at_place : commands[i]? = some c
  draws : c.Draws
  covers : Covers (cursor (commands.take i)) x y

/-- The last block over the pixel since the buffer was emptied has this bit there. -/
def LastDrawn (commands : List Command) (x y : Nat) (bit : Bool) : Prop :=
  ∃ i c, DrawsOver commands x y i c ∧
    (∀ j e, i < j → ¬DrawsOver commands x y j e) ∧
    (∀ j e, i < j → commands[j]? = some e → ¬e.Shows) ∧
    bit = blockBit c.a c.b (x - (cursor (commands.take i)).1) (y - (cursor (commands.take i)).2)

/-- The buffer was shown with the pixel set since the screen was cleared. -/
def ShownSet (commands : List Command) (x y : Nat) : Prop :=
  ∃ i c, commands[i]? = some c ∧ c.Shows ∧ (run (commands.take i)).buffer.get x y = true ∧
    ∀ j e, i < j → commands[j]? = some e → ¬e.Clears

section Sequences

variable {commands : List Command} {c : Command} {x y : Nat} {bit : Bool}

theorem run_concat (commands : List Command) (c : Command) :
    run (commands ++ [c]) = (run commands).command c.number c.a c.b := by
  rw [run, List.foldl_append]
  rfl

theorem cursor_concat (commands : List Command) (c : Command) :
    cursor (commands ++ [c]) = if c.Moves then (c.a, c.b) else cursor commands := by
  rw [cursor, List.reverse_append, List.reverse_singleton, List.singleton_append, List.find?_cons]
  by_cases h : c.Moves <;> simp [h, cursor]

/-- The cursor of the display is where the last move put it. -/
theorem cursor_run (commands : List Command) :
    (run commands).cursorX = (cursor commands).1 ∧ (run commands).cursorY = (cursor commands).2 := by
  induction commands using List.reverseRecOn with
  | nil => exact ⟨rfl, rfl⟩
  | append_singleton commands c ih =>
    obtain ⟨hx, hy⟩ := cursor_command (run commands) c.number c.a c.b
    rw [run_concat, cursor_concat, hx, hy]
    by_cases hmoves : c.Moves
    · have hnumber : c.number = 0 := hmoves
      simp [hmoves, hnumber]
    · have hnumber : c.number ≠ 0 := hmoves
      simpa [hmoves, hnumber] using ih

/-! ### One command more -/

theorem getElem?_concat {i : Nat} {e : Command} :
    (commands ++ [c])[i]? = some e ↔ commands[i]? = some e ∨ i = commands.length ∧ e = c := by
  rcases lt_trichotomy i commands.length with h | rfl | h
  · rw [List.getElem?_append_left h]
    simp [h.ne]
  · simp [eq_comm]
  · rw [List.getElem?_eq_none (by simp; omega), List.getElem?_eq_none h.le]
    simp [h.ne']

/-- The commands before a place are the same, whatever comes last. -/
theorem take_concat {i : Nat} {e : Command} (h : commands[i]? = some e) :
    (commands ++ [c]).take i = commands.take i :=
  List.take_append_of_le_length (List.getElem?_eq_some_iff.mp h).1.le

theorem drawsOver_concat {i : Nat} {e : Command} :
    DrawsOver (commands ++ [c]) x y i e ↔
      DrawsOver commands x y i e ∨
        (i = commands.length ∧ e = c) ∧ c.Draws ∧ Covers (cursor commands) x y := by
  constructor
  · rintro ⟨hplace, hdraws, hcovers⟩
    rcases getElem?_concat.mp hplace with hold | ⟨rfl, rfl⟩
    · exact .inl ⟨hold, hdraws, take_concat hold ▸ hcovers⟩
    · rw [List.take_left] at hcovers
      exact .inr ⟨⟨rfl, rfl⟩, hdraws, hcovers⟩
  · rintro (h | ⟨⟨rfl, rfl⟩, hdraws, hcovers⟩)
    · exact ⟨getElem?_concat.mpr (.inl h.at_place), h.draws,
        (take_concat h.at_place).symm ▸ h.covers⟩
    · exact ⟨getElem?_concat.mpr (.inr ⟨rfl, rfl⟩), hdraws, by rwa [List.take_left]⟩

theorem lt_of_at_place {i : Nat} {e : Command} (h : commands[i]? = some e) : i < commands.length :=
  (List.getElem?_eq_some_iff.mp h).1

/-- A block over the pixel is the last one from then on, and after the buffer was shown there is
none; any other command keeps the last block over the pixel. -/
theorem lastDrawn_concat :
    LastDrawn (commands ++ [c]) x y bit ↔
      if c.Draws ∧ Covers (cursor commands) x y then
        bit = blockBit c.a c.b (x - (cursor commands).1) (y - (cursor commands).2)
      else ¬c.Shows ∧ LastDrawn commands x y bit := by
  split_ifs with hc
  · constructor
    · rintro ⟨i, e, hover, hlast, -, hbit⟩
      rcases drawsOver_concat.mp hover with hold | ⟨⟨rfl, rfl⟩, -⟩
      · exact absurd (drawsOver_concat.mpr (.inr ⟨⟨rfl, rfl⟩, hc⟩))
          (hlast _ _ (lt_of_at_place hold.at_place))
      · rwa [List.take_left] at hbit
    · rintro rfl
      refine ⟨commands.length, c, drawsOver_concat.mpr (.inr ⟨⟨rfl, rfl⟩, hc⟩),
        fun j e hj hover => ?_, fun j e hj hplace => ?_, by rw [List.take_left]⟩
      · have hlt := lt_of_at_place hover.at_place
        simp at hlt
        omega
      · have hlt := lt_of_at_place hplace
        simp at hlt
        omega
  · constructor
    · rintro ⟨i, e, hover, hlast, hshow, hbit⟩
      have hold : DrawsOver commands x y i e :=
        (drawsOver_concat.mp hover).resolve_right fun h => hc h.2
      refine ⟨hshow _ _ (lt_of_at_place hold.at_place) (getElem?_concat.mpr (.inr ⟨rfl, rfl⟩)), i, e,
        hold, fun j e' hj h => hlast j e' hj (drawsOver_concat.mpr (.inl h)),
        fun j e' hj h => hshow j e' hj (getElem?_concat.mpr (.inl h)), ?_⟩
      rwa [take_concat hold.at_place] at hbit
    · rintro ⟨hshows, i, e, hover, hlast, hshow, hbit⟩
      refine ⟨i, e, drawsOver_concat.mpr (.inl hover), fun j e' hj h => ?_, fun j e' hj h => ?_, ?_⟩
      · exact (drawsOver_concat.mp h).elim (hlast j e' hj) fun h => hc h.2
      · rcases getElem?_concat.mp h with h | ⟨-, rfl⟩
        · exact hshow j e' hj h
        · exact hshows
      · rwa [take_concat hover.at_place]

/-- The same for a buffer that was shown with the pixel set. -/
theorem shownSet_concat :
    ShownSet (commands ++ [c]) x y ↔
      ¬c.Clears ∧ (ShownSet commands x y ∨ c.Shows ∧ (run commands).buffer.get x y = true) := by
  constructor
  · rintro ⟨i, e, hplace, hshows, hset, hclear⟩
    rcases getElem?_concat.mp hplace with hold | ⟨rfl, rfl⟩
    · refine ⟨hclear _ _ (lt_of_at_place hold) (getElem?_concat.mpr (.inr ⟨rfl, rfl⟩)),
        .inl ⟨i, e, hold, hshows, take_concat hold ▸ hset, fun j e' hj h => ?_⟩⟩
      exact hclear j e' hj (getElem?_concat.mpr (.inl h))
    · rw [List.take_left] at hset
      refine ⟨fun hclears => ?_, .inr ⟨hshows, hset⟩⟩
      simp only [Command.Shows, Command.Clears] at hshows hclears
      omega
  · rintro ⟨hclears, ⟨i, e, hold, hshows, hset, hclear⟩ | ⟨hshows, hset⟩⟩
    · refine ⟨i, e, getElem?_concat.mpr (.inl hold), hshows, by rwa [take_concat hold],
        fun j e' hj h => ?_⟩
      rcases getElem?_concat.mp h with h | ⟨-, rfl⟩
      · exact hclear j e' hj h
      · exact hclears
    · refine ⟨commands.length, c, getElem?_concat.mpr (.inr ⟨rfl, rfl⟩), hshows,
        by rwa [List.take_left], fun j e' hj h => ?_⟩
      have hlt := lt_of_at_place h
      simp at hlt
      omega

/-- What a command does to a pixel of the buffer. -/
theorem get_buffer_command (hxy : Screen.contains x y = true) :
    (run (commands ++ [c])).buffer.get x y =
      if c.Draws ∧ Covers (cursor commands) x y then
        blockBit c.a c.b (x - (cursor commands).1) (y - (cursor commands).2)
      else if c.Shows then false else (run commands).buffer.get x y := by
  obtain ⟨hx, hy⟩ := cursor_run commands
  rw [run_concat]
  simp only [Command.Draws, Command.Shows]
  rcases eq_or_ne c.number 2 with hdraw | hdraw
  · rw [command, if_neg (by omega), if_pos hdraw, get_draw _ hx hy _ _ hxy]
    simp [hdraw]
  · by_cases hshow : c.number = 3
    · simp [command, hshow]
    · rw [command, if_neg hdraw, if_neg hshow]
      simp only [hdraw, hshow, false_and, if_false]
      split_ifs <;> rfl

/-- What a command does to a pixel of the screen. -/
theorem get_screen_command :
    (run (commands ++ [c])).screen.get x y = true ↔
      ¬c.Clears ∧ ((run commands).screen.get x y = true ∨
        c.Shows ∧ (run commands).buffer.get x y = true) := by
  rw [run_concat]
  simp only [Command.Clears, Command.Shows]
  rcases eq_or_ne c.number 4 with hclear | hclear
  · simp [command, hclear]
  · by_cases hshow : c.number = 3
    · simp [command, hshow]
    · rw [command, if_neg hshow, if_neg hclear]
      simp only [hclear, hshow, false_and, or_false, not_false_eq_true, true_and]
      split_ifs <;> rfl

/-- The buffer shows the last block over a pixel; where there is none it is dark. -/
theorem get_buffer_run (commands : List Command) (hxy : Screen.contains x y = true) :
    (∀ bit, LastDrawn commands x y bit → (run commands).buffer.get x y = bit) ∧
      ((∀ bit, ¬LastDrawn commands x y bit) → (run commands).buffer.get x y = false) := by
  induction commands using List.reverseRecOn with
  | nil =>
    refine ⟨?_, fun _ => Screen.get_blank x y⟩
    rintro bit ⟨i, e, hover, -⟩
    exact absurd hover.at_place (by simp)
  | append_singleton commands c ih =>
    simp only [lastDrawn_concat, get_buffer_command hxy]
    split_ifs with hc hshows
    · exact ⟨fun _ hbit => hbit.symm, fun hnone => absurd rfl (hnone _)⟩
    · exact ⟨fun _ h => absurd hshows h.1, fun _ => rfl⟩
    · exact ⟨fun bit h => ih.1 bit h.2, fun hnone => ih.2 fun bit h => hnone bit ⟨hshows, h⟩⟩

/-- The screen shows a pixel that was set when the buffer was shown. -/
theorem get_screen_run (commands : List Command) :
    (run commands).screen.get x y = true ↔ ShownSet commands x y := by
  induction commands using List.reverseRecOn with
  | nil =>
    rw [run, List.foldl_nil, blank, Screen.get_blank]
    refine ⟨fun h => absurd h (by simp), ?_⟩
    rintro ⟨i, e, hplace, -⟩
    exact absurd hplace (by simp)
  | append_singleton commands c ih => rw [get_screen_command, shownSet_concat, ih]

/-- After any sequence of commands: a pixel of the buffer has the bit of the last block over it since
the buffer was shown, and is dark if there is none; a pixel of the screen is lit just if it was set
when the buffer was shown, at some time since the screen was cleared.  A command without a meaning
changes nothing. -/
theorem pixels_follow_commands (commands : List Command) {x y : Nat} (hx : x < 64) (hy : y < 48) :
    (∀ bit, LastDrawn commands x y bit → (run commands).buffer.get x y = bit) ∧
    ((∀ bit, ¬LastDrawn commands x y bit) → (run commands).buffer.get x y = false) ∧
    ((run commands).screen.get x y = true ↔ ShownSet commands x y) ∧
    ∀ c : Command, ¬c.Moves → ¬c.Draws → ¬c.Shows → ¬c.Clears →
      run (commands ++ [c]) = run commands := by
  have hxy : Screen.contains x y = true := Screen.contains_iff.mpr (by omega)
  obtain ⟨hdrawn, hdark⟩ := get_buffer_run commands hxy
  refine ⟨hdrawn, hdark, get_screen_run commands, fun c hmoves hdraws hshows hclears => ?_⟩
  rw [run_concat]
  exact command_of_unknown _ hmoves hdraws hshows hclears _ _

/-- A pixel of a block that was shown stays on the screen when a later block darkens it in the
buffer. -/
theorem darkened_pixel_stays_shown :
    let shown : List Command := [⟨0, 0, 0⟩, ⟨2, 0xFFFFFF, 0⟩]
    let commands := shown ++ [⟨3, 0, 0⟩, ⟨0, 2, 1⟩, ⟨2, 0x800000, 0⟩]
    3 < 64 ∧ 1 < 48 ∧
      LastDrawn commands 3 1 false ∧ (run commands).buffer.get (3 : Nat) (1 : Nat) = false ∧
      ShownSet commands 3 1 ∧ (run commands).screen.get (3 : Nat) (1 : Nat) = true ∧
      run (commands ++ [⟨1, 5, 5⟩]) = run commands := by
  intro shown commands
  have hx : 3 < 64 := by decide
  have hy : 1 < 48 := by decide
  obtain ⟨hdrawn, -, hscreen, hunknown⟩ := pixels_follow_commands commands hx hy
  have hlast : LastDrawn commands 3 1 false := by
    have hcommands : commands = (shown ++ [⟨3, 0, 0⟩, ⟨0, 2, 1⟩]) ++ [⟨2, 0x800000, 0⟩] := rfl
    rw [hcommands, lastDrawn_concat, if_pos (by decide)]
    decide
  have hfirst : LastDrawn shown 3 1 true := by
    have hshown : shown = [⟨0, 0, 0⟩] ++ [⟨2, 0xFFFFFF, 0⟩] := rfl
    rw [hshown, lastDrawn_concat, if_pos (by decide)]
    decide
  have hset : ShownSet commands 3 1 := by
    refine ⟨2, ⟨3, 0, 0⟩, rfl, rfl, (pixels_follow_commands shown hx hy).1 true hfirst, ?_⟩
    intro j e hj he
    match j with
    | 3 => exact Option.some.inj he ▸ by decide
    | 4 => exact Option.some.inj he ▸ by decide
    | j + 5 => simp [commands, shown] at he
  exact ⟨hx, hy, hlast, hdrawn false hlast, hset, hscreen.mpr hset,
    hunknown ⟨1, 5, 5⟩ (by decide) (by decide) (by decide) (by decide)⟩

end Sequences

end Display

end PocketAsm.Parva
