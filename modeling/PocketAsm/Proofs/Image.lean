/-
  Proofs/Image.lean --- a program sent word by word is its memory image.

  A payload goes through the instructions in the order of the source and may
  write an address twice; an image is a map that is read out in the order of
  its addresses.  The entry that a run of writes leaves at an address is the
  last one written there (`Memory.getElem?_writeAll`), and a start address that
  no instruction straddles drops the same words from both
  (`payload_eq_filter`).  So both leave the same memory, and where the
  instructions lie one behind the other they are the same list.
-/
import PocketAsm.Memory
import PocketAsm.Proofs.Bytes

set_option autoImplicit false

namespace PocketAsm

/-! ## Entries of a memory -/

namespace Memory

/-- Entries in the order of their addresses, each address once. -/
def Sorted (entries : List (Int × Nat)) : Prop := entries.Pairwise fun x y => x.1 < y.1

theorem sorted_toList (m : Memory) : Sorted m.toList :=
  Std.TreeMap.ordered_keys_toList.imp compare_lt_iff_lt.mp

theorem sorted_wordsFrom (m : Memory) (start : Int) : Sorted (m.wordsFrom start) :=
  m.sorted_toList.filter _

theorem mem_toList {m : Memory} {a : Int} {v : Nat} : (a, v) ∈ m.toList ↔ m.cells[a]? = some v :=
  Std.TreeMap.mem_toList_iff_getElem?_eq_some

/-- Sorted entries are told by what is among them. -/
theorem Sorted.ext {xs ys : List (Int × Nat)} (hxs : Sorted xs) (hys : Sorted ys)
    (h : ∀ a v, (a, v) ∈ xs ↔ (a, v) ∈ ys) : xs = ys := by
  have : Std.Irrefl fun x y : Int × Nat => x.1 < y.1 := ⟨fun x => lt_irrefl x.1⟩
  have : Std.Antisymm fun x y : Int × Nat => x.1 < y.1 :=
    ⟨fun _ _ hxy hyx => absurd hxy (lt_asymm hyx)⟩
  exact List.Pairwise.eq_of_mem_iff hxs hys fun entry => h entry.1 entry.2

/-! ## Runs of writes -/

/-- What a run of writes leaves at an address is the last word written there. -/
theorem getElem?_writeAll (m : Memory) (words : List (Int × Nat)) (a : Int) :
    (m.writeAll words).cells[a]? = (words.reverse.lookup a).or m.cells[a]? := by
  induction words generalizing m with
  | nil => rfl
  | cons w words ih =>
    have hstep : m.writeAll (w :: words) = (m.write w.1 w.2).writeAll words := rfl
    rw [hstep, ih, List.reverse_cons, List.lookup_append, Option.or_assoc, write,
      Std.TreeMap.getElem?_insert]
    by_cases h : w.1 = a
    · simp [List.lookup, h]
    · have hbeq : (a == w.1) = false := beq_eq_false_iff_ne.mpr (Ne.symm h)
      simp [List.lookup, h, hbeq]

theorem mem_toList_writeAll {words : List (Int × Nat)} {a : Int} {v : Nat} :
    (a, v) ∈ (empty.writeAll words).toList ↔ words.reverse.lookup a = some v := by
  rw [mem_toList, getElem?_writeAll, empty, Std.TreeMap.getElem?_emptyc, Option.or_none]

/-- Words below an address do not count for what is looked up from there on. -/
theorem lookup_filter (start a : Int) (words : List (Int × Nat)) :
    (words.filter (start ≤ ·.1)).lookup a = if start ≤ a then words.lookup a else none := by
  induction words with
  | nil => simp
  | cons w words ih =>
    obtain ⟨b, v⟩ := w
    rw [List.filter_cons, List.lookup_cons]
    by_cases heq : a = b
    · subst heq
      by_cases hle : start ≤ a <;> simp [hle, ih]
    · have hbeq : (a == b) = false := beq_eq_false_iff_ne.mpr heq
      by_cases hle : start ≤ b <;> simp [hle, List.lookup_cons, hbeq, ih]

/-- Leaving out the words below an address leaves out their entries. -/
theorem toList_writeAll_filter (start : Int) (words : List (Int × Nat)) :
    (empty.writeAll (words.filter (start ≤ ·.1))).toList =
      (empty.writeAll words).wordsFrom start := by
  refine (sorted_toList _).ext (sorted_wordsFrom _ start) fun a v => ?_
  rw [wordsFrom, List.mem_filter, mem_toList_writeAll, mem_toList_writeAll, ← List.filter_reverse,
    lookup_filter]
  by_cases h : start ≤ a <;> simp [h]

theorem lookup_eq_some_of_sorted {words : List (Int × Nat)} (h : Sorted words) {a : Int} {v : Nat} :
    words.reverse.lookup a = some v ↔ (a, v) ∈ words := by
  induction words with
  | nil => simp
  | cons w words ih =>
    obtain ⟨b, u⟩ := w
    obtain ⟨hw, hwords⟩ := List.pairwise_cons.mp h
    rw [List.reverse_cons, List.lookup_append, Option.or_eq_some_iff, ih hwords, List.mem_cons,
      or_comm]
    refine or_congr ?_ Iff.rfl
    rw [List.lookup_eq_none_iff]
    constructor
    · rintro ⟨-, hlast⟩
      cases hbeq : a == b with
      | false => simp [List.lookup_cons, hbeq] at hlast
      | true =>
        obtain rfl : u = v := by simpa [List.lookup_cons, hbeq] using hlast
        rw [beq_iff_eq.mp hbeq]
    · intro heq
      obtain ⟨rfl, rfl⟩ := Prod.mk.inj heq
      refine ⟨fun other hother => ?_, by simp⟩
      have hlt := hw other (List.mem_reverse.mp hother)
      exact bne_iff_ne.mpr (ne_of_lt hlt)

/-- Words that are written in the order of their addresses are the entries they leave. -/
theorem Sorted.toList_writeAll {words : List (Int × Nat)} (h : Sorted words) :
    (empty.writeAll words).toList = words :=
  (sorted_toList _).ext h fun _ _ => mem_toList_writeAll.trans (lookup_eq_some_of_sorted h)

end Memory

/-! ## Words of instructions -/

/-- The line, if it is an instruction, is made of whole words. -/
def OutputLine.HasWholeWords (wordSize : Nat) : OutputLine → Prop
  | .label _ => True
  | .instruction _ bits _ => wordSize ∣ bits.length

instance (wordSize : Nat) (line : OutputLine) : Decidable (line.HasWholeWords wordSize) :=
  match line with
  | .label _ => inferInstanceAs (Decidable True)
  | .instruction _ bits _ => inferInstanceAs (Decidable (wordSize ∣ bits.length))

/-- No instruction that begins below the address extends to it or beyond. -/
def ClearAt (wordSize : Nat) (start : Int) (lines : List OutputLine) : Prop :=
  ∀ line ∈ lines, ∀ range, line.range? wordSize = some range →
    (range.1 : Int) < start → (range.2 : Int) ≤ start

namespace Bits

/-- Bits that are made of whole words are so many words. -/
theorem length_words {size : Nat} (hsize : 0 < size) {bits : Bits} (h : size ∣ bits.length) :
    (words size bits).length = bits.length / size := by
  obtain ⟨n, hn⟩ := h
  rw [words, List.length_map, (pieces_whole hsize hn).1, hn, Nat.mul_div_cancel_left n hsize]

end Bits

namespace OutputLine

variable {wordSize : Nat} {line : OutputLine}

/-- The words of an instruction lie in its range. -/
theorem range_of_mem_words (hword : 0 < wordSize) (hwhole : line.HasWholeWords wordSize)
    {a : Int} {v : Nat} (h : (a, v) ∈ line.words wordSize) :
    ∃ range, line.range? wordSize = some range ∧ (range.1 : Int) ≤ a ∧ a < range.2 := by
  cases line with
  | label name => simp [words] at h
  | instruction address bits source =>
    obtain ⟨i, hi, heq⟩ := List.mem_mapIdx.mp h
    rw [Bits.length_words hword hwhole] at hi
    obtain ⟨rfl, -⟩ := Prod.mk.inj heq
    exact ⟨_, rfl, by simp, by exact_mod_cast Nat.add_lt_add_left hi address⟩

/-- The words of a line lie in the order of their addresses. -/
theorem sorted_words (line : OutputLine) : Memory.Sorted (line.words wordSize) := by
  cases line with
  | label name => exact List.Pairwise.nil
  | instruction address bits source =>
    rw [Memory.Sorted, words, List.pairwise_iff_getElem]
    intro i j hi hj hij
    simpa using hij

/-- A line that is clear of a start address has its words on one side of it. -/
theorem filter_words (hword : 0 < wordSize) (hwhole : line.HasWholeWords wordSize) {start : Int}
    (hclear : ∀ range, line.range? wordSize = some range →
      (range.1 : Int) < start → (range.2 : Int) ≤ start) :
    (line.words wordSize).filter (start ≤ ·.1) =
      if line.startsFrom start then line.words wordSize else [] := by
  cases line with
  | label name => rfl
  | instruction address bits source =>
    have hwords {a : Int} {v : Nat} (h : (a, v) ∈ (instruction address bits source).words wordSize) :
        (address : Int) ≤ a ∧ a < (address + bits.length / wordSize : Nat) := by
      obtain ⟨range, hrange, hbounds⟩ := range_of_mem_words hword hwhole h
      obtain rfl := Option.some.inj hrange
      exact hbounds
    by_cases hstart : start ≤ (address : Int)
    · rw [startsFrom, if_pos (by simpa using hstart), List.filter_eq_self]
      rintro ⟨a, v⟩ hmem
      simpa using hstart.trans (hwords hmem).1
    · have hend := hclear _ rfl (not_le.mp hstart)
      rw [startsFrom, if_neg (by simpa using hstart), List.filter_eq_nil_iff]
      rintro ⟨a, v⟩ hmem
      have hlt := (hwords hmem).2.trans_le hend
      simpa using hlt

end OutputLine

/-! ## Payloads and images -/

section Payloads

variable {wordSize : Nat} {lines : List OutputLine} {start : Int}

/-- A payload has the words of the image that lie at or above the start address. -/
theorem payload_eq_filter (hword : 0 < wordSize)
    (hwhole : ∀ line ∈ lines, line.HasWholeWords wordSize) (hclear : ClearAt wordSize start lines) :
    payload wordSize start lines =
      (lines.flatMap (·.words wordSize)).filter (start ≤ ·.1) := by
  induction lines with
  | nil => rfl
  | cons line lines ih =>
    obtain ⟨hline, hwhole⟩ := List.forall_mem_cons.mp hwhole
    obtain ⟨hfirst, hclear⟩ := List.forall_mem_cons.mp hclear
    have hpayload : payload wordSize start (line :: lines) =
        (if line.startsFrom start then line.words wordSize else []) ++
          payload wordSize start lines := by
      rw [payload, List.filter_cons]
      split <;> rfl
    rw [hpayload, ih hwhole hclear, List.flatMap_cons, List.filter_append,
      OutputLine.filter_words hword hline hfirst]

/-- Instructions that lie one behind the other have their words in order. -/
theorem sorted_flatMap_words (hword : 0 < wordSize)
    (hwhole : ∀ line ∈ lines, line.HasWholeWords wordSize)
    (h : (lines.filterMap (·.range? wordSize)).Pairwise fun first second => first.2 ≤ second.1) :
    Memory.Sorted (lines.flatMap (·.words wordSize)) := by
  rw [List.pairwise_filterMap] at h
  refine List.pairwise_flatMap.mpr ⟨fun line _ => line.sorted_words, ?_⟩
  refine h.imp_of_mem ?_
  rintro first second hfirst hsecond hbefore ⟨a, v⟩ ha ⟨b, w⟩ hb
  obtain ⟨range, hrange, -, ha⟩ := OutputLine.range_of_mem_words hword (hwhole _ hfirst) ha
  obtain ⟨next, hnext, hb, -⟩ := OutputLine.range_of_mem_words hword (hwhole _ hsecond) hb
  have hle : (range.2 : Int) ≤ next.1 := by exact_mod_cast hbefore range hrange next hnext
  exact ha.trans_le (hle.trans hb)

/-- Every program is clear of address zero, and one of single words of every address. -/
theorem clearAt_zero (wordSize : Nat) (lines : List OutputLine) : ClearAt wordSize 0 lines := by
  intro line _ range _ hlt
  omega

theorem clearAt_of_single
    (h : ∀ line ∈ lines, ∀ range, line.range? wordSize = some range → range.2 ≤ range.1 + 1)
    (start : Int) : ClearAt wordSize start lines := by
  intro line hline range hrange hlt
  have := h line hline range hrange
  omega

/-- The words of a memory from an address on are in the order of their addresses, each address once.
For lines of whole words and a start address that no instruction straddles, as zero is for every
program and every address for one of single words: writing the payload leaves the entries of the
image from the start address on, and where the instructions lie one behind the other the payload is
these entries. -/
theorem payload_leaves_image (hword : 1 ≤ wordSize)
    (hwhole : ∀ line ∈ lines, line.HasWholeWords wordSize) :
    (∀ (m : Memory) (start : Int), (m.wordsFrom start).Pairwise fun x y => x.1 < y.1) ∧
    ClearAt wordSize 0 lines ∧
    ((∀ line ∈ lines, ∀ range, line.range? wordSize = some range → range.2 = range.1 + 1) →
      ∀ start, ClearAt wordSize start lines) ∧
    ∀ start, ClearAt wordSize start lines →
      (Memory.empty.writeAll (payload wordSize start lines)).toList =
        (Memory.image wordSize lines).wordsFrom start ∧
      ((lines.filterMap (·.range? wordSize)).Pairwise (fun first second => first.2 ≤ second.1) →
        payload wordSize start lines = (Memory.image wordSize lines).wordsFrom start) := by
  refine ⟨Memory.sorted_wordsFrom, clearAt_zero wordSize lines, ?_, fun start hclear => ?_⟩
  · intro h
    exact clearAt_of_single fun line hline range hrange => (h line hline range hrange).le
  · have hpayload := payload_eq_filter hword hwhole hclear
    have hentries : (Memory.empty.writeAll (payload wordSize start lines)).toList =
        (Memory.image wordSize lines).wordsFrom start := by
      rw [hpayload, Memory.toList_writeAll_filter, Memory.image]
    refine ⟨hentries, fun hranges => ?_⟩
    have hsorted : Memory.Sorted (payload wordSize start lines) := by
      rw [hpayload]
      exact (sorted_flatMap_words hword hwhole hranges).filter _
    rw [← hentries, hsorted.toList_writeAll]

/-- Where two instructions overlap the payload has the word of both, and the later one is left.  The
instruction below the start address ends at it. -/
theorem overlapping_payload_leaves_image :
    let source : Source := ⟨0, "", "", ""⟩
    let lines : List OutputLine :=
      [.label "main", .instruction 4 (Bits.ofNat 16 0x0102) source,
       .instruction 2 (Bits.ofNat 16 0x0304) source, .instruction 5 (Bits.ofNat 8 7) source]
    (∀ line ∈ lines, line.HasWholeWords 8) ∧ ClearAt 8 4 lines ∧
      payload 8 4 lines = [(4, 1), (5, 2), (5, 7)] ∧
      (Memory.image 8 lines).wordsFrom 4 = [(4, 1), (5, 7)] := by
  intro source lines
  have hwhole : ∀ line ∈ lines, line.HasWholeWords 8 := by
    decide
  have hclear : ClearAt 8 4 lines := by
    simp [ClearAt, lines, OutputLine.range?]
  have hpayload : payload 8 4 lines = [(4, 1), (5, 2), (5, 7)] := by decide +kernel
  obtain ⟨-, -, -, hleaves⟩ := payload_leaves_image (by decide) hwhole
  obtain ⟨hentries, -⟩ := hleaves 4 hclear
  refine ⟨hwhole, hclear, hpayload, ?_⟩
  rw [← hentries, hpayload]
  decide +kernel

end Payloads

end PocketAsm
