/-
  Proofs/Json/Writable.lean --- what is read can be written.

  The reader takes no integer with more digits than the writer gives.  So the
  integers of a value that was read can all be written again
  (`isWritable_of_parse`).
-/
import Mathlib.Data.List.TakeWhile
import PocketAsm.Json.Reader
import PocketAsm.Json.Writer
import PocketAsm.Proofs.Numerals

set_option autoImplicit false

namespace PocketAsm.Json

/-! ## Parts -/

theorem areWritable_iff (vs : List Json) :
    areWritable vs = true ↔ ∀ v ∈ vs, v.isWritable = true := by
  induction vs with
  | nil => simp [areWritable]
  | cons v vs ih => simp [areWritable, ih]

theorem membersWritable_iff (ms : Members) :
    membersWritable ms = true ↔ ∀ m ∈ ms, m.2.isWritable = true := by
  induction ms with
  | nil => simp [membersWritable]
  | cons m ms ih => simp [membersWritable, ih]

/-- A member does not make the others harder to write. -/
theorem membersWritable_put {key : WideText} {value : Json} {ms : Members}
    (hvalue : value.isWritable = true) (hms : membersWritable ms = true) :
    membersWritable (put key value ms) = true := by
  induction ms with
  | nil => simp [put, membersWritable, hvalue]
  | cons m ms ih =>
    obtain ⟨k, v⟩ := m
    rw [membersWritable, Bool.and_eq_true] at hms
    rw [put]
    split
    · rw [membersWritable, hvalue, hms.2, Bool.and_self]
    · rw [membersWritable, hms.1, ih hms.2, Bool.and_self]

theorem isWritable_member {ms : Members} (h : membersWritable ms = true) (key : WideText) :
    ((member? key ms).getD .null).isWritable = true := by
  cases hmember : member? key ms with
  | none => rfl
  | some v =>
    obtain ⟨m, hm, rfl⟩ := Option.map_eq_some_iff.mp hmember
    exact (membersWritable_iff ms).mp h m (List.mem_of_find?_eq_some hm)

/-! ## Numerals -/

theorem digitsValue_append_singleton (ds : List Char) (d : Char) :
    digitsValue (ds ++ [d]) = digitsValue ds * 10 + (d.toNat - 48) := by
  rw [digitsValue, List.foldl_append]
  rfl

theorem digitsValue_lt {ds : List Char} (h : ∀ d ∈ ds, d.isDigit = true) :
    digitsValue ds < Nat.pow 10 ds.length := by
  induction ds using List.reverseRecOn with
  | nil => decide
  | append_singleton ds d ih =>
    have hds := ih fun e he => h e (List.mem_append_left _ he)
    have hd : d.toNat - 48 < 10 := by
      have hdigit := h d (List.mem_append_right _ List.mem_cons_self)
      simp only [Char.isDigit, Bool.and_eq_true, decide_eq_true_eq] at hdigit
      have hle : d.toNat ≤ 57 := hdigit.2
      omega
    have hpow : Nat.pow 10 (ds.length + 1) = Nat.pow 10 ds.length * 10 := rfl
    rw [digitsValue_append_singleton, List.length_append, List.length_singleton, hpow]
    omega

theorem isDigit_of_mem_spanDigits {ps : List CodePoint} {d : Char} (h : d ∈ (spanDigits ps).1) :
    d.isDigit = true := by
  obtain ⟨p, hp, hchar⟩ := List.mem_filterMap.mp h
  have hdigit := List.mem_takeWhile_imp hp
  cases p with
  | char c =>
    obtain rfl : c = d := by simpa [CodePoint.char?] using hchar
    exact hdigit
  | half => cases hchar

theorem isDigit_of_integral? {ps rest : List CodePoint} {ds : List Char}
    (h : integral? ps = some (ds, rest)) : ∀ d ∈ ds, d.isDigit = true := by
  have hspan := @isDigit_of_mem_spanDigits ps
  unfold integral? at h
  split at h
  · cases h
  · cases h
    exact List.forall_mem_singleton.mpr rfl
  · rename_i hdigits
    cases h
    intro d hd
    exact hspan (by rw [hdigits]; exact hd)

/-- Digits that are not too many give an integer that can be written. -/
theorem isWritable_of_digits {ds : List Char} (hds : ∀ d ∈ ds, d.isDigit = true)
    (h : ¬Text.isOverlong 10 ds = true) (negative : Bool) :
    Text.isWritable (Binary64.signed negative (digitsValue ds)) = true := by
  have hcount : Text.digitCount ds = ds.length := by
    rw [Text.digitCount, List.countP_eq_length]
    intro d hd
    simpa using Text.ne_of_isDigit (hds d hd) (c := '_') rfl
  have hlength : ds.length ≤ Text.maxDecimalDigits := by
    simpa [Text.isOverlong, hcount] using h
  have habs : (Binary64.signed negative (digitsValue ds)).natAbs = digitsValue ds := by
    cases negative <;> simp [Binary64.signed]
  exact Text.isWritable_of_lt ds.length hlength (by rw [habs]; exact digitsValue_lt hds)

theorem isWritable_of_numeral? {negative : Bool} {ps rest : List CodePoint} {v : Json}
    (h : numeral? negative ps = some (v, rest)) : v.isWritable = true := by
  unfold numeral? at h
  split at h
  · cases h
  rename_i whole behind hwhole
  dsimp only at h
  split at h
  · split at h
    · cases h
    · rename_i hlong
      cases h
      exact isWritable_of_digits (isDigit_of_integral? hwhole) hlong negative
  · cases h
    rfl
  · cases h
    rfl

theorem isWritable_of_number? {ps rest : List CodePoint} {v : Json}
    (h : number? ps = some (v, rest)) : v.isWritable = true := by
  unfold number? at h
  split at h
  · split at h
    · cases h
      rfl
    · exact isWritable_of_numeral? h
  · exact isWritable_of_numeral? h

theorem isWritable_of_word? {ps rest : List CodePoint} {v : Json}
    (h : word? ps = some (v, rest)) : v.isWritable = true := by
  unfold word? at h
  repeat' split at h
  all_goals first | exact isWritable_of_number? h | (cases h; rfl)

/-! ## Values -/

theorem orMalformed_eq_ok {found : Option (Json × List CodePoint)} {x : Json × List CodePoint} :
    orMalformed found = .ok x ↔ found = some x := by
  cases found <;> simp [orMalformed]

/-- With so many rounds left, a reader gives values that can be written, if those that it has read
before can be. -/
structure GivesWritable (fuel : Nat) : Prop where
  value : ∀ {levels : Nat} {ps rest : List CodePoint} {v : Json},
    value fuel levels ps = .ok (v, rest) → v.isWritable = true
  items : ∀ {levels : Nat} {acc : List Json} {ps rest : List CodePoint} {v : Json},
    areWritable acc = true → items fuel levels acc ps = .ok (v, rest) → v.isWritable = true
  members : ∀ {levels : Nat} {acc : Members} {ps rest : List CodePoint} {v : Json},
    membersWritable acc = true → members fuel levels acc ps = .ok (v, rest) → v.isWritable = true

variable {fuel levels : Nat} {ps rest : List CodePoint} {v : Json}

theorem GivesWritable.value_succ (hgives : GivesWritable fuel)
    (h : Json.value (fuel + 1) levels ps = .ok (v, rest)) : v.isWritable = true := by
  unfold Json.value at h
  split at h
  · obtain ⟨⟨s, behind⟩, -, hs⟩ := Option.map_eq_some_iff.mp (orMalformed_eq_ok.mp h)
    cases hs
    rfl
  · cases h
  · cases h
  · split at h
    · cases h
      rfl
    · exact hgives.items rfl h
  · split at h
    · cases h
      rfl
    · exact hgives.members rfl h
  · exact isWritable_of_word? (orMalformed_eq_ok.mp h)

theorem GivesWritable.items_succ (hgives : GivesWritable fuel) {acc : List Json}
    (hacc : areWritable acc = true)
    (h : Json.items (fuel + 1) levels acc ps = .ok (v, rest)) : v.isWritable = true := by
  unfold Json.items at h
  split at h
  · cases h
  · rename_i item behind hitem
    have hall : areWritable (item :: acc) = true := by
      rw [areWritable, hgives.value hitem, hacc, Bool.and_self]
    split at h
    · exact hgives.items hall h
    · cases h
      rw [isWritable, areWritable_iff]
      exact fun w hw => (areWritable_iff _).mp hall w (List.mem_reverse.mp hw)
    · cases h

theorem GivesWritable.members_succ (hgives : GivesWritable fuel) {acc : Members}
    (hacc : membersWritable acc = true)
    (h : Json.members (fuel + 1) levels acc ps = .ok (v, rest)) : v.isWritable = true := by
  unfold Json.members at h
  repeat' split at h
  -- of the ways through a member only a comma and a brace lead on
  all_goals try cases h
  · exact hgives.members (membersWritable_put (hgives.value ‹_›) hacc) h
  · exact membersWritable_put (hgives.value ‹_›) hacc

theorem givesWritable (fuel : Nat) : GivesWritable fuel := by
  induction fuel with
  | zero => exact ⟨nofun, nofun, nofun⟩
  | succ fuel ih => exact ⟨ih.value_succ, ih.items_succ, ih.members_succ⟩

/-- What is read can be written. -/
theorem isWritable_of_parse {t : WideText} {v : Json} (h : parse t = .ok v) :
    v.isWritable = true := by
  unfold parse at h
  split at h
  · rename_i w rest hvalue
    split at h
    · cases h
      exact (givesWritable _).value hvalue
    · cases h
  · cases h

end PocketAsm.Json
