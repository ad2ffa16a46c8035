/-
  Proofs/Lodestar/Sharing.lean --- the Lodestar shares the machine code of the V8.

  Two first passes over the same lines make edits that correspond one to one
  (`corresponds_passEdits`).  How many words an edit takes is known only once
  its operands are resolved; since nothing fails in either language, all are.
  So the programs stay in step (`InStep.applyAll`): the labels get the same
  addresses, and then the instructions are the same bits
  (`shares_encoding`).
-/
import PocketAsm.Proofs.Lodestar.Lines
import PocketAsm.Proofs.V8.Instructions

set_option autoImplicit false

namespace PocketAsm

/-- The instructions of the output in order, each by its address and its bits. -/
def Assembly.code (a : Assembly) : List (Nat × Bits) :=
  a.lines.filterMap fun
    | .label _ => none
    | .instruction address bits _ => some (address, bits)

namespace Bits

/-! ## Bits by their words -/

theorem toNat_cons (b : Bool) (bits : Bits) :
    toNat (b :: bits) = b.toNat * span bits.length + toNat bits := by
  rw [← List.singleton_append, toNat_append]
  cases b <;> rfl

theorem toNat_inj : ∀ {first second : Bits}, first.length = second.length →
    toNat first = toNat second → first = second := by
  intro first
  induction first with
  | nil =>
    intro second hlength _
    exact (List.eq_nil_of_length_eq_zero hlength.symm).symm
  | cons b first ih =>
    intro second hlength h
    obtain ⟨b', second, rfl⟩ := List.exists_cons_of_length_eq_add_one hlength.symm
    have hrest : first.length = second.length := by simpa using hlength
    have hlt := toNat_lt_of_length hrest
    have hlt' := toNat_lt second
    rw [toNat_cons, toNat_cons, hrest] at h
    -- the rest is less than the weight of the first bit
    have hbit : b = b' := by
      cases b <;> cases b' <;>
        simp only [Bool.toNat_true, Bool.toNat_false, Nat.one_mul, Nat.zero_mul] at h <;>
        first | rfl | omega
    subst hbit
    rw [ih hrest (by omega)]

/-- Bits that fill their words are known by these. -/
theorem eq_of_words_eq {size : Nat} (hsize : 0 < size) :
    ∀ {first second : Bits}, first.length % size = 0 → second.length % size = 0 →
      words size first = words size second → first = second := by
  have hsplit {bits : Bits} (hmod : bits.length % size = 0) (hne : bits ≠ []) :
      (bits.take size).length = size ∧ (bits.drop size).length % size = 0 ∧
        words size bits = toNat (bits.take size) :: words size (bits.drop size) := by
    have hle : size ≤ bits.length :=
      Nat.le_of_dvd (List.length_pos_iff.mpr hne) (Nat.dvd_of_mod_eq_zero hmod)
    have htake : (bits.take size).length = size := List.length_take_of_le hle
    refine ⟨htake, ?_, ?_⟩
    · rw [List.length_drop, ← Nat.mod_eq_sub_mod hle, hmod]
    · rw [← words_append hsize htake, List.take_append_drop]
  intro first
  induction hlength : first.length using Nat.strong_induction_on generalizing first with
  | h length ih =>
    intro second hmod hmod' h
    subst hlength
    by_cases hfirst : first = []
    · by_cases hsecond : second = []
      · rw [hfirst, hsecond]
      · rw [(hsplit hmod' hsecond).2.2, hfirst] at h
        cases h
    · by_cases hsecond : second = []
      · rw [(hsplit hmod hfirst).2.2, hsecond] at h
        cases h
      · obtain ⟨htake, hdrop, hwords⟩ := hsplit hmod hfirst
        obtain ⟨htake', hdrop', hwords'⟩ := hsplit hmod' hsecond
        rw [hwords, hwords'] at h
        obtain ⟨hhead, htail⟩ := List.cons.inj h
        have hshorter : (first.drop size).length < first.length := by
          rw [List.length_drop]
          have := List.length_pos_iff.mpr hfirst
          omega
        rw [← List.take_append_drop size first, ← List.take_append_drop size second,
          toNat_inj (htake.trans htake'.symm) hhead, ih _ hshorter rfl hdrop hdrop' htail]

end Bits

theorem Outcome.eq_of_fault {outcome : Outcome} (h : outcome.fault = none) :
    outcome = ⟨outcome.edits, none⟩ := by
  rw [← h]

namespace Dialect

variable {dialect : Dialect} {text : String}

/-- Where nothing fails, the output is every line of the program, resolved. -/
theorem forall₂_resolveLine (hok : (dialect.assemble text).errors = []) :
    List.Forall₂ (fun placed line =>
        dialect.resolveLine (dialect.symbols (dialect.firstPass text).1) placed = .ok line)
      (dialect.firstPass text).1.lines.toList (dialect.assemble text).lines := by
  have hfailed : failed (dialect.secondPass (dialect.firstPass text).1) = [] :=
    (List.append_eq_nil_iff.mp hok).2
  exact List.forall₂_map_left_iff.mp (forall₂_finished hfailed)

theorem passFaults_eq_nil {maxWords : Nat} (hdialect : dialect.WellFormed maxWords)
    (hok : (dialect.assemble text).errors = []) :
    dialect.passFaults 0 (Text.lines text) (.start dialect.encoding) = [] := by
  have hfaults : (dialect.firstPass text).2.toList = [] := (List.append_eq_nil_iff.mp hok).1
  simpa [firstPass_eq hdialect] using hfaults

/-- An instruction is a whole number of words. -/
theorem length_of_instructionBits (hfixed : dialect.fixedWidth = none) {symbols : Symbols}
    {source : Source} {parts : List Part} {bits : Bits}
    (h : dialect.instructionBits symbols source parts = .ok bits) :
    bits.length % dialect.wordSize = 0 := by
  unfold instructionBits at h
  split at h
  · cases h
  · rename_i found _
    split at h
    · cases h
    · rename_i hwidth
      obtain rfl := Except.ok.inj h
      by_contra hmod
      simp [widthFault?, hfixed, hmod] at hwidth

end Dialect

namespace Lodestar

/-! ## The first passes -/

/-- An edit that both languages know. -/
def IsShared : Edit → Prop
  | .place .. | .moveTo _ => True
  | .label name _ => label.Accepts name.toList []
  | _ => False

theorem Corresponds.isShared {e e' : Edit} (h : Corresponds e e') : IsShared e ∧ IsShared e' := by
  cases e with
  | place parts words source =>
    cases e' with
    | place parts' words' source' => exact ⟨trivial, trivial⟩
    | _ => exact h.elim
  | label name source =>
    cases e' with
    | label name' source' =>
      obtain ⟨rfl, hname⟩ := h
      exact ⟨hname, hname⟩
    | _ => exact h.elim
  | moveTo address =>
    cases e' with
    | moveTo address' => exact ⟨trivial, trivial⟩
    | _ => exact h.elim
  | _ => exact h.elim

theorem forall_isShared {edits edits' : List Edit} (h : List.Forall₂ Corresponds edits edits') :
    (∀ e ∈ edits, IsShared e) ∧ ∀ e ∈ edits', IsShared e := by
  induction h with
  | nil => simp
  | cons he _ ih =>
    exact ⟨List.forall_mem_cons.mpr ⟨he.isShared.1, ih.1⟩,
      List.forall_mem_cons.mpr ⟨he.isShared.2, ih.2⟩⟩

/-- A program that such edits made. -/
structure Shared (p : Program) : Prop where
  emitting : p.emitting = none
  constants : p.constants = []
  native : Native p p.labels

theorem shared_start : Shared (.start none) := ⟨rfl, rfl, rfl, by simp [Named, Program.start]⟩

theorem Shared.apply {p : Program} {e : Edit} (h : Shared p) (he : IsShared e) :
    Shared (p.apply e) := by
  obtain ⟨hemitting, hconstants, hencoding, hnamed⟩ := h
  cases e with
  | place parts words source => exact ⟨hemitting, hconstants, hencoding, hnamed⟩
  | label name source =>
    exact ⟨hemitting, hconstants, hencoding,
      List.forall_mem_append.mpr ⟨hnamed, List.forall_mem_singleton.mpr he⟩⟩
  | moveTo address => exact ⟨hemitting, hconstants, hencoding, hnamed⟩
  | _ => exact he.elim

theorem Shared.applyAll {p : Program} {edits : List Edit} (h : Shared p)
    (hedits : ∀ e ∈ edits, IsShared e) : Shared (p.applyAll edits) :=
  Program.applyAll_induction (fun _ _ hp he => hp.apply he) edits h hedits

/-- The line is the same text in both languages, and no `jmp` with a bare operand. -/
def Common (raw : String) : Prop :=
  dialect.instructionOf raw = V8.dialect.instructionOf raw ∧
    isBareJump (V8.dialect.instructionOf raw) = false

/-- Lines that succeed in both languages make edits that correspond. -/
theorem corresponds_passEdits (lines : List String) :
    ∀ (number : Nat) {p q : Program}, Shared p → Shared q → (∀ raw ∈ lines, Common raw) →
      V8.dialect.passFaults number lines p = [] → dialect.passFaults number lines q = [] →
      List.Forall₂ Corresponds (V8.dialect.passEdits number lines p)
        (dialect.passEdits number lines q) := by
  induction lines with
  | nil => intro number p q _ _ _ _ _; exact .nil
  | cons raw rest ih =>
    intro number p q hp hq hlines hv hl
    obtain ⟨⟨htext, hbare⟩, hrest⟩ := List.forall_mem_cons.mp hlines
    cases hfault : (V8.dialect.placeLine number raw p).fault with
    | some e => simp [Dialect.passFaults_of_fault hfault] at hv
    | none =>
      cases hfault' : (dialect.placeLine number raw q).fault with
      | some e => simp [Dialect.passFaults_of_fault hfault'] at hl
      | none =>
        have hplace : V8.dialect.placeLine number raw p = V8.dialect.placeText Dialect.maxExpansions
            ⟨number, raw, V8.dialect.instructionOf raw, V8.dialect.instructionOf raw⟩
            (V8.dialect.instructionOf raw) p := by
          rw [Dialect.placeLine]
        have hplace' : dialect.placeLine number raw q = dialect.placeText Dialect.maxExpansions
            ⟨number, raw, V8.dialect.instructionOf raw, V8.dialect.instructionOf raw⟩
            (V8.dialect.instructionOf raw) q := by
          rw [Dialect.placeLine, htext]
        have hline := corresponds_placeText hbare hp.native.encoding hq.native.encoding
          Dialect.maxExpansions (hplace.symm.trans (Outcome.eq_of_fault hfault))
          (hplace'.symm.trans (Outcome.eq_of_fault hfault'))
        obtain ⟨hedits, hedits'⟩ := forall_isShared hline
        rw [Dialect.passFaults_of_ok hfault] at hv
        rw [Dialect.passFaults_of_ok hfault'] at hl
        rw [Dialect.passEdits_of_ok hfault, Dialect.passEdits_of_ok hfault']
        exact List.rel_append hline
          (ih (number + 1) (hp.applyAll hedits) (hq.applyAll hedits') hrest hv hl)

/-! ## Programs in step -/

/-- The lines are the same label, or instructions at the same address with parts that are alike. -/
def PlacedAlike : Placed → Placed → Prop
  | .label name _, .label name' _ => name = name'
  | .instruction address _ parts, .instruction address' _ parts' =>
    address = address' ∧ ∃ n n', Alike parts parts' n n'
  | _, _ => False

/-- The symbols resolve every instruction of the program. -/
def Resolves (symbols : Symbols) (p : Program) : Prop :=
  ∀ address source parts, .instruction address source parts ∈ p.lines.toList →
    ∃ bits, symbols.partsBits parts = .ok bits

theorem Resolves.of_extends {symbols : Symbols} {p q : Program} (h : Resolves symbols q)
    (hextends : p.Extends q) : Resolves symbols p :=
  fun address source parts hmem => h address source parts (hextends.lines.subset hmem)

/-- The two programs are at the same address, and have the same labels and lines that are alike. -/
structure InStep (p q : Program) : Prop where
  address : p.address = q.address
  labels : p.labels = q.labels
  lines : List.Forall₂ PlacedAlike p.lines.toList q.lines.toList

theorem inStep_start : InStep (.start none) (.start none) := ⟨rfl, rfl, .nil⟩

theorem lines_apply_place {p : Program} (hp : p.emitting = none) (parts : List Part) (n : Nat)
    (source : Source) : (p.apply (.place parts n source)).lines.toList =
      p.lines.toList ++ [Placed.instruction p.address source parts] := by
  simp [Program.apply, Program.keeps, hp]

section Run

variable {labels labels' : SymbolTable} (hnamed : Named labels) (hnamed' : Named labels')

include hnamed hnamed'

/-- Edits that correspond keep two programs in step, if what they place can be resolved. -/
theorem InStep.apply {p q : Program} {e e' : Edit} (h : InStep p q) (hp : p.emitting = none)
    (hq : q.emitting = none) (he : Corresponds e e')
    (hresolves : Resolves ⟨.dollar, labels, []⟩ (p.apply e))
    (hresolves' : Resolves ⟨.lodestar, labels', []⟩ (q.apply e')) :
    InStep (p.apply e) (q.apply e') := by
  obtain ⟨haddress, hlabels, hlines⟩ := h
  cases e with
  | place parts n source =>
    cases e' with
    | place parts' n' source' =>
      have hmem := lines_apply_place hp parts n source
      have hmem' := lines_apply_place hq parts' n' source'
      obtain ⟨bits, hbits⟩ := hresolves p.address source parts (by simp [hmem])
      obtain ⟨bits', hbits'⟩ := hresolves' q.address source' parts' (by simp [hmem'])
      obtain ⟨hn, -⟩ := he labels labels' bits bits' hnamed hnamed' hbits hbits'
      refine ⟨?_, hlabels, ?_⟩
      · change p.address + n = q.address + n'
        rw [haddress, hn]
      · rw [hmem, hmem']
        exact List.rel_append hlines (.cons ⟨haddress, n, n', he⟩ .nil)
    | _ => exact he.elim
  | label name source =>
    cases e' with
    | label name' source' =>
      obtain ⟨rfl, -⟩ := he
      refine ⟨haddress, ?_, ?_⟩
      · simp only [Program.apply, hlabels, haddress]
      · simp only [Program.apply, Array.toList_push]
        exact List.rel_append hlines (.cons rfl .nil)
    | _ => exact he.elim
  | moveTo address =>
    cases e' with
    | moveTo address' => exact ⟨he, hlabels, hlines⟩
    | _ => exact he.elim
  | _ => exact he.elim

theorem InStep.applyAll {edits edits' : List Edit}
    (hedits : List.Forall₂ Corresponds edits edits') :
    ∀ {p q : Program}, InStep p q → Shared p → Shared q →
      Resolves ⟨.dollar, labels, []⟩ (p.applyAll edits) →
      Resolves ⟨.lodestar, labels', []⟩ (q.applyAll edits') →
        InStep (p.applyAll edits) (q.applyAll edits') := by
  induction hedits with
  | nil => intro p q h _ _ _ _; exact h
  | @cons e e' edits edits' he hrest ih =>
    intro p q h hp hq hresolves hresolves'
    obtain ⟨hshared, hshared'⟩ := forall_isShared hrest
    have hgrow {edits : List Edit} (hedits : ∀ e ∈ edits, IsShared e) (p : Program) :
        p.Extends (p.applyAll edits) :=
      p.extends_applyAll fun e he => by
        rintro rfl
        exact hedits _ he
    have hstep := h.apply hnamed hnamed' hp.emitting hq.emitting he
      (hresolves.of_extends (hgrow hshared _)) (hresolves'.of_extends (hgrow hshared' _))
    exact ih hstep (hp.apply he.isShared.1) (hq.apply he.isShared.2) hresolves hresolves'

end Run

/-! ## The output -/

/-- The lines of the output are the same label, or the same bits at the same address. -/
def OutputAlike : OutputLine → OutputLine → Prop
  | .label name, .label name' => name = name'
  | .instruction address bits _, .instruction address' bits' _ =>
    address = address' ∧ bits = bits'
  | _, _ => False

/-- Where every line becomes a line of the output, every instruction is resolved. -/
theorem resolves_of_forall₂ {d : Dialect} {symbols : Symbols} {p : Program}
    {lines : List OutputLine}
    (h : List.Forall₂ (fun placed line => d.resolveLine symbols placed = .ok line) p.lines.toList
      lines) : Resolves symbols p := by
  intro address source parts hmem
  generalize p.lines.toList = placed at h hmem
  induction h with
  | nil => simp at hmem
  | @cons placed line others lines hline _ ih =>
    rcases List.mem_cons.mp hmem with rfl | hmem
    · rw [Dialect.resolveLine] at hline
      split at hline
      · cases hline
      · rename_i bits hbits
        exact ⟨bits, Dialect.partsBits_of_instructionBits hbits⟩
    · exact ih hmem

/-- Lines that are alike are resolved to the same. -/
theorem outputAlike_of_placedAlike {labels : SymbolTable} (hnamed : Named labels)
    {placed placed' : Placed} {line line' : OutputLine} (h : PlacedAlike placed placed')
    (hline : V8.dialect.resolveLine ⟨.dollar, labels, []⟩ placed = .ok line)
    (hline' : dialect.resolveLine ⟨.lodestar, labels, []⟩ placed' = .ok line') :
    OutputAlike line line' := by
  cases placed with
  | label name source =>
    cases placed' with
    | label name' source' =>
      obtain rfl := Except.ok.inj hline
      obtain rfl := Except.ok.inj hline'
      exact h
    | instruction address' source' parts' => exact h.elim
  | instruction address source parts =>
    cases placed' with
    | label name' source' => exact h.elim
    | instruction address' source' parts' =>
      obtain ⟨haddress, n, n', halike⟩ := h
      rw [Dialect.resolveLine] at hline hline'
      split at hline
      · cases hline
      · rename_i bits hbits
        split at hline'
        · cases hline'
        · rename_i bits' hbits'
          obtain rfl := Except.ok.inj hline
          obtain rfl := Except.ok.inj hline'
          have hwords := (halike labels labels bits bits' hnamed hnamed
            (Dialect.partsBits_of_instructionBits hbits)
            (Dialect.partsBits_of_instructionBits hbits')).2 rfl
          exact ⟨haddress, Bits.eq_of_words_eq (by decide)
            (Dialect.length_of_instructionBits rfl hbits)
            (Dialect.length_of_instructionBits rfl hbits') hwords⟩

theorem forall₂_outputAlike {labels : SymbolTable} (hnamed : Named labels)
    {placed placed' : List Placed} (h : List.Forall₂ PlacedAlike placed placed') :
    ∀ {lines lines' : List OutputLine},
      List.Forall₂ (fun placed line =>
        V8.dialect.resolveLine ⟨.dollar, labels, []⟩ placed = .ok line) placed lines →
      List.Forall₂ (fun placed line =>
        dialect.resolveLine ⟨.lodestar, labels, []⟩ placed = .ok line) placed' lines' →
        List.Forall₂ OutputAlike lines lines' := by
  induction h with
  | nil =>
    intro lines lines' hlines hlines'
    rw [List.forall₂_nil_left_iff.mp hlines, List.forall₂_nil_left_iff.mp hlines']
    exact .nil
  | cons halike _ ih =>
    intro lines lines' hlines hlines'
    obtain ⟨line, rest, hline, hrest, rfl⟩ := List.forall₂_cons_left_iff.mp hlines
    obtain ⟨line', rest', hline', hrest', rfl⟩ := List.forall₂_cons_left_iff.mp hlines'
    exact .cons (outputAlike_of_placedAlike hnamed halike hline hline') (ih hrest hrest')

/-- Outputs that are alike line by line have the same labels and the same code. -/
theorem labels_code_of_outputAlike {lines lines' : List OutputLine}
    (h : List.Forall₂ OutputAlike lines lines') (errors errors' : List Diagnostic) :
    (Assembly.mk lines errors).labels = (Assembly.mk lines' errors').labels ∧
      (Assembly.mk lines errors).code = (Assembly.mk lines' errors').code := by
  induction h with
  | nil => exact ⟨rfl, rfl⟩
  | @cons line line' lines lines' halike _ ih =>
    obtain ⟨hlabels, hcode⟩ := ih
    cases line with
    | label name =>
      cases line' with
      | label name' =>
        obtain rfl : name = name' := halike
        exact ⟨congrArg (name :: ·) hlabels, hcode⟩
      | instruction address' bits' source' => exact halike.elim
    | instruction address bits source =>
      cases line' with
      | label name' => exact halike.elim
      | instruction address' bits' source' =>
        obtain ⟨rfl, rfl⟩ := halike
        exact ⟨hlabels, congrArg ((address, bits) :: ·) hcode⟩

/-! ## The same code -/

/-- A text in lower case that has no `jmp` with a bare operand, and that both languages assemble
without an error, has the same labels in the same order and the same instructions in both: the same
bits at the same addresses. -/
theorem shares_encoding {text : String} (hlower : Text.lower text = text)
    (hjumps : ∀ raw ∈ Text.lines text, isBareJump (V8.dialect.instructionOf raw) = false)
    (hv : (V8.dialect.assemble text).errors = []) (hl : (dialect.assemble text).errors = []) :
    (V8.dialect.assemble text).labels = (dialect.assemble text).labels ∧
      (V8.dialect.assemble text).code = (dialect.assemble text).code := by
  have hcommon : ∀ raw ∈ Text.lines text, Common raw := by
    intro raw hraw
    refine ⟨?_, hjumps raw hraw⟩
    rw [Dialect.instructionOf_of_lower _ hlower hraw, Dialect.instructionOf_of_lower _ hlower hraw]
    rfl
  have hedits : List.Forall₂ Corresponds (V8.dialect.edits text) (dialect.edits text) :=
    corresponds_passEdits _ 0 shared_start shared_start hcommon
      (Dialect.passFaults_eq_nil V8.wellFormed hv) (Dialect.passFaults_eq_nil wellFormed hl)
  have hprogram := Dialect.program_eq V8.wellFormed text
  have hprogram' := Dialect.program_eq wellFormed text
  obtain ⟨hshared, hshared'⟩ := forall_isShared hedits
  have hfinal : Shared (V8.dialect.firstPass text).1 := hprogram ▸ shared_start.applyAll hshared
  have hfinal' : Shared (dialect.firstPass text).1 := hprogram' ▸ shared_start.applyAll hshared'
  have hsymbols : V8.dialect.symbols (V8.dialect.firstPass text).1 =
      ⟨.dollar, (V8.dialect.firstPass text).1.labels, []⟩ := by
    rw [Dialect.symbols, hfinal.constants]
    rfl
  have hsymbols' : dialect.symbols (dialect.firstPass text).1 =
      ⟨.lodestar, (dialect.firstPass text).1.labels, []⟩ := by
    rw [Dialect.symbols, hfinal'.constants]
    rfl
  have hlines := Dialect.forall₂_resolveLine hv
  have hlines' := Dialect.forall₂_resolveLine hl
  rw [hsymbols] at hlines
  rw [hsymbols'] at hlines'
  have hstep : InStep (V8.dialect.firstPass text).1 (dialect.firstPass text).1 := by
    rw [hprogram, hprogram']
    refine InStep.applyAll hfinal.native.named hfinal'.native.named hedits inStep_start shared_start
      shared_start ?_ ?_
    · rw [← hprogram]
      exact resolves_of_forall₂ hlines
    · rw [← hprogram']
      exact resolves_of_forall₂ hlines'
  rw [hstep.labels] at hlines
  exact labels_code_of_outputAlike
    (forall₂_outputAlike hfinal'.native.named hstep.lines hlines hlines') _ _

/-- A text of labels, data, a jump and loads in every mode. -/
theorem loads_and_data_share_encoding :
    let text := "main:\nlda #$10 ; sixteen\nstb (vector)\nldc 5, a\nldd main\nadc b, a\n" ++
      "jz main\n.address 40\nvector:\n.data 3, main, -1\npush x"
    Text.lower text = text ∧
      (∀ raw ∈ Text.lines text, isBareJump (V8.dialect.instructionOf raw) = false) ∧
      (V8.dialect.assemble text).errors = [] ∧ (dialect.assemble text).errors = [] ∧
      (V8.dialect.assemble text).labels = ["main", "vector"] ∧
      (V8.dialect.assemble text).code.map (fun i => (i.1, Bits.words 8 i.2)) =
        [(0, [0x78, 0x10]), (2, [0xA1, 40]), (4, [0x9A, 5]), (6, [0x8B, 0]), (8, [0x11]),
          (9, [0x04, 0]), (40, [3]), (41, [0]), (42, [0xFF]), (43, [0xB6])] ∧
      (V8.dialect.assemble text).labels = (dialect.assemble text).labels ∧
      (V8.dialect.assemble text).code = (dialect.assemble text).code := by
  intro text
  have hrun : Text.lower text = text ∧
      (∀ raw ∈ Text.lines text, isBareJump (V8.dialect.instructionOf raw) = false) ∧
      (V8.dialect.assemble text).errors = [] ∧ (dialect.assemble text).errors = [] ∧
      (V8.dialect.assemble text).labels = ["main", "vector"] ∧
      (V8.dialect.assemble text).code.map (fun i => (i.1, Bits.words 8 i.2)) =
        [(0, [0x78, 0x10]), (2, [0xA1, 40]), (4, [0x9A, 5]), (6, [0x8B, 0]), (8, [0x11]),
          (9, [0x04, 0]), (40, [3]), (41, [0]), (42, [0xFF]), (43, [0xB6])] := by
    decide +kernel
  obtain ⟨hlower, hjumps, hv, hl, houtput⟩ := hrun
  exact ⟨hlower, hjumps, hv, hl, and_assoc.mp ⟨houtput, shares_encoding hlower hjumps hv hl⟩⟩

end Lodestar

end PocketAsm
