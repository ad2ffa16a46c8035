/-
  Proofs/Alignment.lean --- filling up to a multiple.

  A word of zeros that is placed off the boundary brings the address nearer to
  it by one and leaves the multiple that is aimed at where it was
  (`isLeast_add_gap`), so the loop ends there.  Each of its rounds moves the
  address on by one and adds a line only where instructions are kept
  (`applyAll_replicate_place`).  A boundary that is not positive is refused
  before the first round.
-/
import PocketAsm.Proofs.Edits
import PocketAsm.Proofs.Parva.NumberLoads
import PocketAsm.Proofs.Parva.Relocation
import PocketAsm.Proofs.Reports

set_option autoImplicit false

namespace PocketAsm

namespace Program

/-! ## The multiple that is aimed at -/

theorem gap_lt {boundary : Nat} (hboundary : 0 < boundary) (address : Nat) :
    gap address boundary < boundary :=
  Nat.mod_lt _ hboundary

/-- The gap ends at the least multiple that is not below the address. -/
theorem isLeast_add_gap {boundary : Nat} (hboundary : 0 < boundary) (address : Nat) :
    IsLeast {m | address ≤ m ∧ boundary ∣ m} (address + gap address boundary) := by
  -- on the number of words that are missing, as the loop places them
  induction hwords : gap address boundary generalizing address with
  | zero =>
    have hon : address % boundary = 0 := by
      by_contra hoff
      rw [gap_of_mod_ne_zero hboundary hoff] at hwords
      cases hwords
    exact ⟨⟨le_rfl, Nat.dvd_of_mod_eq_zero hon⟩, fun m hm => hm.1⟩
  | succ words ih =>
    have hoff : address % boundary ≠ 0 := by
      intro hon
      rw [gap_of_mod_eq_zero hon] at hwords
      cases hwords
    rw [gap_of_mod_ne_zero hboundary hoff] at hwords
    have hsame : {m | address ≤ m ∧ boundary ∣ m} = {m | address + 1 ≤ m ∧ boundary ∣ m} := by
      ext m
      refine and_congr_left fun hdvd => ⟨fun hle => ?_, Nat.le_of_succ_le⟩
      rcases hle.eq_or_lt with rfl | hlt
      · exact absurd (Nat.mod_eq_zero_of_dvd hdvd) hoff
      · exact hlt
    rw [hsame, show address + (words + 1) = address + 1 + words by omega]
    exact ih (address + 1) (Nat.succ.inj hwords)

/-! ## The rounds -/

/-- Words placed one after the other stand at consecutive addresses, where instructions are kept;
the address moves on by their number in any case, and nothing else changes. -/
theorem applyAll_replicate_place (word : List Part) (source : Source) (n : Nat) (p : Program) :
    p.applyAll (List.replicate n (.place word 1 source)) =
      { p with
        address := p.address + n
        lines := if p.keeps then
            p.lines ++ ((List.range' p.address n).map (Placed.instruction · source word)).toArray
          else p.lines } := by
  induction n generalizing p with
  | zero => simp
  | succ n ih =>
    have hkept : (p.apply (.place word 1 source)).keeps = p.keeps := rfl
    rw [List.replicate_succ, applyAll_cons, ih, hkept, List.range'_succ]
    have haddress : p.address + 1 + n = p.address + (n + 1) := by omega
    cases hkeeps : p.keeps <;> simp [apply, hkeeps, haddress]

/-- A word of zeros as it stands in the program. -/
def paddingAt (wordSize : Nat) (source : Source) (address : Nat) : Placed :=
  .instruction address { source with matched := "(align)" } [.bits (List.replicate wordSize false)]

theorem keeps_eq_false_iff {p : Program} : p.keeps = false ↔ p.emitting = some false := by
  cases hemitting : p.emitting <;> simp [keeps, hemitting]

theorem align_of_nonpos (p : Program) {n : Int} (hn : n ≤ 0) (wordSize : Nat) (source : Source) :
    p.align n wordSize source = .error (.badAlignment n) := by
  rw [align_eq, if_pos hn]

/-- The program after the words of zeros that fill up to a multiple of a positive boundary. -/
theorem exists_align_of_pos (p : Program) {boundary : Nat} (hboundary : 0 < boundary)
    (wordSize : Nat) (source : Source) :
    ∃ edits, p.align boundary wordSize source = .ok edits ∧
      edits.length = gap p.address boundary ∧
      p.applyAll edits =
        { p with
          address := p.address + gap p.address boundary
          lines := if p.emitting = some false then p.lines
            else p.lines ++ ((List.range' p.address (gap p.address boundary)).map
              (paddingAt wordSize source)).toArray } := by
  have hpositive : ¬((boundary : Int) ≤ 0) := by omega
  rw [align_eq, if_neg hpositive, Int.toNat_natCast]
  refine ⟨_, rfl, List.length_replicate, ?_⟩
  rw [applyAll_replicate_place]
  cases hkeeps : p.keeps
  · simp [keeps_eq_false_iff.mp hkeeps]
  · have hemitting : p.emitting ≠ some false := by
      rw [Ne, ← keeps_eq_false_iff, hkeeps]
      decide
    simp only [if_true, if_neg hemitting]
    rfl

end Program

/-- Filling up to a multiple, from any state, for any boundary and any size of a word.  A boundary
that is not positive is refused, and the state stays as it is; the refusal can be reported as long
as the boundary can be written.  For a positive boundary the words of zeros come to an end: their
number is below the boundary, and they lead to the least multiple of the boundary that is not below
the address.  They stand at consecutive addresses from the address on, unless instructions are
dropped, and nothing else of the state changes. -/
theorem alignment_reaches_multiple (p : Program) (n : Int) (wordSize : Nat) (source : Source) :
    let outcome := Outcome.ofEdits (p.align n wordSize source)
    let after := p.applyAll outcome.edits
    let refusal := Fault.badAlignment n
    (n ≤ 0 → outcome.fault = some refusal ∧ after = p ∧
      (Text.isWritable n = true → refusal.fatal? = none) ∧
      (Text.isWritable n = false → refusal.fatal? = some .longNumber)) ∧
    (0 < n → outcome.fault = none ∧
      IsLeast {m : Nat | p.address ≤ m ∧ n ∣ m} after.address ∧
      outcome.edits.length = after.address - p.address ∧
      ((after.address - p.address : Nat) : Int) < n ∧
      after = { p with
        address := after.address
        lines := if p.emitting = some false then p.lines
          else p.lines ++ ((List.range' p.address (after.address - p.address)).map
            (Program.paddingAt wordSize source)).toArray }) := by
  refine ⟨fun hn => ?_, fun hn => ?_⟩
  · rw [p.align_of_nonpos hn]
    exact ⟨rfl, rfl, fun hwritable => by simp [Fault.fatal?, hwritable],
      fun hlong => by simp [Fault.fatal?, hlong]⟩
  · obtain ⟨boundary, rfl⟩ := Int.eq_ofNat_of_zero_le hn.le
    have hboundary : 0 < boundary := Int.natCast_pos.mp hn
    obtain ⟨edits, hedits, hlength, hafter⟩ := p.exists_align_of_pos hboundary wordSize source
    have hwords : p.address + Program.gap p.address boundary - p.address =
        Program.gap p.address boundary :=
      Nat.add_sub_cancel_left _ _
    rw [hedits]
    dsimp only [Outcome.ofEdits]
    simp only [hafter, hlength, hwords, Int.natCast_dvd_natCast, true_and, and_true]
    exact ⟨Program.isLeast_add_gap hboundary p.address,
      Int.ofNat_lt.mpr (Program.gap_lt hboundary p.address)⟩

/-- From address 5 three words lead to a multiple of 4, kept or not; a multiple of -4 is refused. -/
theorem three_words_fill_up :
    let p : Program :=
      ⟨5, none, #[.label "here" ⟨0, "here:", "here:", "here:"⟩], [("here", 5)], [], none⟩
    let stopped : Program := { p with emitting := some false }
    let source : Source := ⟨1, ".align 4", ".align 4", ".align 4"⟩
    let after (q : Program) (n : Int) := q.applyAll (Outcome.ofEdits (q.align n 8 source)).edits
    (0 : Int) < 4 ∧
      after p 4 = { p with
        address := 8
        lines := p.lines ++ #[Program.paddingAt 8 source 5, Program.paddingAt 8 source 6,
          Program.paddingAt 8 source 7] } ∧
      after stopped 4 = { stopped with address := 8 } ∧
      (-4 : Int) ≤ 0 ∧
      after p (-4) = p ∧
      (Fault.badAlignment (-4)).fatal? = none := by
  intro p stopped source after
  have hleast (m : Nat) : IsLeast {m : Nat | 5 ≤ m ∧ (4 : Int) ∣ m} m → m = 8 := by
    refine fun h => h.unique ⟨⟨by decide, by decide⟩, fun k hk => ?_⟩
    obtain ⟨hle, hdvd⟩ := hk
    omega
  obtain ⟨-, hkept, -, -, hafter⟩ := (alignment_reaches_multiple p 4 8 source).2 (by decide)
  obtain ⟨-, hdropped, -, -, hafter'⟩ :=
    (alignment_reaches_multiple stopped 4 8 source).2 (by decide)
  obtain ⟨-, hsame, hreported, -⟩ := (alignment_reaches_multiple p (-4) 8 source).1 (by decide)
  refine ⟨by decide, hafter.trans ?_, hafter'.trans ?_, by decide, hsame, hreported ?_⟩
  · rw [hleast _ hkept]
    rfl
  · rw [hleast _ hdropped]
    rfl
  · exact Text.isWritable_of_lt 1 (by decide) (by decide)

/-! ## Boundaries that cannot be written -/

/-- A negative boundary which has too many decimal digits for the message that refuses it is not
reported, and no line of the text is assembled. -/
theorem long_boundary_is_not_reported :
    let n := -Parva.power 3600
    let numeral := String.ofList ('-' :: (Parva.powerLoad 3600).number)
    Parva.dialect.numbers.read numeral = .ok (some n) ∧
      n ≤ 0 ∧
      (Fault.badAlignment n).fatal? = some .longNumber ∧
      ∀ result, Parva.dialect.tryAssemble (".align " ++ numeral) ≠ .ok result := by
  intro n numeral
  have hread : Parva.dialect.numbers.read numeral = .ok (some n) :=
    NumberSyntax.read_minus (by decide) (Parva.read_powerLoad 3600)
  have hnonpos : n ≤ 0 := by
    have := Parva.le_power (k := 3600) (by decide)
    omega
  have hlong : Text.isWritable n = false := by
    have := Parva.isWritable_power (j := 720) (by decide)
    rwa [Text.isWritable, Int.natAbs_neg]
  have hfatal : (Fault.badAlignment n).fatal? = some .longNumber := by
    simp [Fault.fatal?, hlong]
  refine ⟨hread, hnonpos, hfatal, fun result => ?_⟩
  have hline : '\n' ∉ (".align " ++ numeral).toList := by
    rw [String.toList_append, List.mem_append, not_or]
    refine ⟨by decide, fun hmem => ?_⟩
    exact absurd ((Parva.name_of_read hread).2 _ hmem) (by decide)
  have hrefused : Parva.dialect.outcomeAt (".align " ++ numeral) 0 =
      .refused (.badAlignment n) := by
    rw [Dialect.outcomeAt, Text.lines_of_not_mem hline, List.getD_cons_zero,
      Parva.placeLine_align hread, Program.align_of_nonpos _ hnonpos]
    rfl
  refine Dialect.tryAssemble_ne_ok_of_refused Parva.wellFormed hrefused ?_ result
  rw [hfatal]
  decide

end PocketAsm
