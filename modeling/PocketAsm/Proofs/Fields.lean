/-
  Proofs/Fields.lean --- the fields of a line, and names without regard to case.

  A line is a mnemonic and operands with commas and blanks between them.
  `Text.fields` cuts a line at its first separators, and the last field takes
  the rest; this says what is written on a line without any pattern.  Whatever
  a mnemonic or a separator accepts is cut where the pattern says
  (`fields_append`).

  Mnemonics match by case folding and registers are looked up in lower case.
  For the names of ASCII the two agree (`folded_of_lower`).
-/
import PocketAsm.Proofs.Language
import PocketAsm.Text.LowerCase

set_option autoImplicit false

namespace PocketAsm

namespace Text

/-! ## Case -/

/-- What holds of every code of ASCII holds of its characters. -/
theorem ascii_forall {P : Char → Prop} (h : ∀ n < 128, P (Char.ofNat n)) {c : Char}
    (hc : c.toNat < 128) : P c := by
  rw [← Char.ofNat_toNat c]
  exact h _ hc

/-- A text with its letters folded. -/
def folded (s : String) : String := String.ofList (s.toList.map foldLetter)

@[simp] theorem toList_folded (s : String) : (folded s).toList = s.toList.map foldLetter := by
  simp [folded]

/-- One capital alone has a small letter in ASCII, the Kelvin sign; the others have letters of their
own above it. -/
theorem capitalRuns_above : ∀ run ∈ capitalRuns,
    (run.first = 8490 ∧ run.last = 8490 ∧ run.shift = -8383) ∨
    (128 ≤ run.first + run.shift ∧ (run.last + run.shift < 0xD800 ∨
      (0xDFFF < run.first + run.shift ∧ run.last + run.shift < 0x110000))) := by
  decide +kernel

/-- A character whose small letter belongs to ASCII folds onto this letter. -/
theorem foldLetter_of_lowerChar {c : Char} (h : (lowerChar c).toNat < 128) :
    foldLetter c = lowerChar c := by
  by_cases hc : c.toNat < 128
  · rw [lowerChar, if_pos hc, foldLetter, if_neg (by omega), if_neg (by omega), if_neg (by omega),
      if_neg (by omega)]
  · rw [lowerChar, if_neg hc] at h ⊢
    cases hfind : capitalRuns.find? (·.contains c.toNat) with
    | none =>
      rw [hfind] at h
      exact absurd h hc
    | some run =>
      rw [hfind] at h
      have hcontains := List.find?_some hfind
      simp only [CapitalRun.contains, Bool.and_eq_true, decide_eq_true_eq] at hcontains
      obtain ⟨⟨hfirst, hlast⟩, -⟩ := hcontains
      rcases capitalRuns_above run (List.mem_of_find?_eq_some hfind) with hkelvin | ⟨hlow, hhigh⟩
      · have hcode : c.toNat = 8490 := by omega
        simp only [foldLetter, hcode, hkelvin.2.2]
        rfl
      · exfalso
        have hvalid : Nat.isValidChar (c.toNat + run.shift).toNat := by
          rcases hhigh with hhigh | ⟨habove, hbelow⟩
          · exact Or.inl (by omega)
          · exact Or.inr ⟨by omega, by omega⟩
        have hnat : (Char.ofNat (c.toNat + run.shift).toNat).toNat =
            (c.toNat + run.shift).toNat := by
          rw [Char.ofNat, dif_pos hvalid]
          rfl
        rw [hnat] at h
        omega

/-- Where the small letters all belong to ASCII, folding gives the same. -/
theorem map_foldLetter_of_lowerChars :
    ∀ (cs before : List Char), (∀ c ∈ lowerChars before cs, c.toNat < 128) →
      cs.map foldLetter = lowerChars before cs := by
  intro cs
  induction cs with
  | nil => intro before _; rfl
  | cons c cs ih =>
    intro before h
    rw [lowerChars] at h ⊢
    obtain ⟨hhead, htail⟩ := List.forall_mem_append.mp h
    rw [List.map_cons, ih _ htail]
    split
    · rename_i hsigma
      -- a sigma stays outside ASCII
      simp only [hsigma, if_true] at hhead
      split at hhead <;> simp at hhead
    · rename_i hsigma
      rw [if_neg hsigma] at hhead
      split
      · rename_i hdotted
        simp only [hdotted, if_true] at hhead
        simp at hhead
      · rename_i hdotted
        rw [if_neg hdotted] at hhead
        rw [foldLetter_of_lowerChar (hhead _ List.mem_cons_self), List.singleton_append]

theorem folded_of_lower {s name : String} (hname : ∀ c ∈ name.toList, c.toNat < 128)
    (h : lower s = name) : folded s = name := by
  subst h
  rw [lower, String.toList_ofList] at hname
  rw [folded, map_foldLetter_of_lowerChars _ _ hname, lower]

/-! ## Separators -/

/-- A comma or a blank. -/
def isSeparator (c : Char) : Bool := c == ',' || isBlank c

/-- No character separates fields. -/
def Plain (cs : List Char) : Prop := ∀ c ∈ cs, isSeparator c = false

/-- The text is not empty, and its first character separates no fields. -/
def Solid (cs : List Char) : Prop := ∃ c rest, cs = c :: rest ∧ isSeparator c = false

/-- A run of separators. -/
def Gap (cs : List Char) : Prop := cs ≠ [] ∧ ∀ c ∈ cs, isSeparator c = true

theorem Plain.solid {cs : List Char} (h : Plain cs) (hne : cs ≠ []) : Solid cs := by
  obtain ⟨c, rest, rfl⟩ := List.exists_cons_of_ne_nil hne
  exact ⟨c, rest, rfl, h c List.mem_cons_self⟩

theorem Solid.append {cs : List Char} (h : Solid cs) (rest : List Char) : Solid (cs ++ rest) := by
  obtain ⟨c, others, rfl, hc⟩ := h
  exact ⟨c, others ++ rest, rfl, hc⟩

theorem isSeparator_of_toNat {c : Char} (hlow : 45 ≤ c.toNat) (hhigh : c.toNat < 128) :
    isSeparator c = false := by
  have hcomma : c ≠ ',' := by
    rintro rfl
    exact absurd hlow (by decide)
  simp only [isSeparator, isBlank, beq_eq_false_iff_ne.mpr hcomma, Bool.false_or]
  simp
  omega

theorem isBlank_of_isSeparator {c : Char} (h : isSeparator c = false) : isBlank c = false := by
  rw [isSeparator, Bool.or_eq_false_iff] at h
  exact h.2

/-! ## Blanks at the ends -/

/-- Nothing is dropped off a text that begins with no character of the class. -/
theorem dropWhile_eq_self {p : Char → Bool} {cs : List Char} (h : ∀ c ∈ cs.head?, p c = false) :
    cs.dropWhile p = cs := by
  cases cs with
  | nil => rfl
  | cons c cs => rw [List.dropWhile_cons_of_neg (by simpa using h c rfl)]

/-- A text without blanks at its ends is not trimmed. -/
theorem trim_eq_self {cs : List Char} (hfirst : ∀ c ∈ cs.head?, isBlank c = false)
    (hlast : ∀ c ∈ cs.getLast?, isBlank c = false) : trim isBlank cs = cs := by
  rw [trim, trimLeft, dropWhile_eq_self hfirst, trimRight, dropWhile_eq_self (by simpa using hlast),
    List.reverse_reverse]

/-- What ends with no character of the class is kept, and so is all before it. -/
theorem trimRight_append {p : Char → Bool} {xs : List Char}
    (h : ∀ c ∈ xs.getLast?, p c = false) (ys : List Char) :
    trimRight p (xs ++ ys) = xs ++ trimRight p ys := by
  have hkeep : xs.reverse.dropWhile p = xs.reverse := dropWhile_eq_self (by simpa using h)
  rw [trimRight, List.reverse_append, List.dropWhile_append, hkeep, trimRight]
  split
  · rename_i hempty
    rw [List.isEmpty_iff.mp hempty, List.reverse_reverse, List.reverse_nil, List.append_nil]
  · rw [List.reverse_append, List.reverse_reverse]

theorem trimRight_starts (p : Char → Bool) (cs : List Char) : trimRight p cs <+: cs := by
  rw [trimRight, ← List.reverse_suffix, List.reverse_reverse]
  exact List.dropWhile_suffix p

/-! ## Folded letters -/

/-- A character folds onto itself, unless it is a letter, which folds onto a small one. -/
theorem foldLetter_cases (c : Char) :
    foldLetter c = c ∨
      (97 ≤ (foldLetter c).toNat ∧ (foldLetter c).toNat ≤ 122 ∧ isSeparator c = false) := by
  have hcode {n : Nat} (h : c.toNat = n) : c = Char.ofNat n := by rw [← h, Char.ofNat_toNat]
  unfold foldLetter
  split
  · rename_i h
    rw [hcode h]
    decide
  split
  · rename_i h
    rw [hcode h]
    decide
  split
  · rename_i h
    rw [hcode h]
    decide
  split
  · rename_i h
    rw [hcode h]
    decide
  unfold Char.toLower
  split
  · rename_i hcapital
    have hlow : 65 ≤ c.toNat := hcapital.1
    have hhigh : c.toNat ≤ 90 := hcapital.2
    have hsmall : (c.val + ('a'.val - 'A'.val)).toNat = c.toNat + 32 := by
      rw [UInt32.toNat_add]
      exact Nat.mod_eq_of_lt (by change c.toNat + 32 < _; omega)
    refine Or.inr ⟨?_, ?_, isSeparator_of_toNat (by omega) (by omega)⟩
    · change 97 ≤ (c.val + _).toNat
      omega
    · change (c.val + _).toNat ≤ 122
      omega
  · exact Or.inl rfl

/-- Folding neither makes nor removes a separator. -/
theorem isSeparator_foldLetter (c : Char) : isSeparator (foldLetter c) = isSeparator c := by
  rcases foldLetter_cases c with h | ⟨hlow, hhigh, hc⟩
  · rw [h]
  · rw [hc, isSeparator_of_toNat (by omega) (by omega)]

/-- Only a sign itself folds onto a sign that is no small letter. -/
theorem eq_of_foldLetter_eq {c d : Char} (hd : d.toNat < 97 ∨ 122 < d.toNat)
    (h : foldLetter c = d) : c = d := by
  rcases foldLetter_cases c with hc | ⟨hlow, hhigh, -⟩
  · rw [← h, hc]
  · rw [h] at hlow hhigh
    omega

theorem plain_of_folded {cs ds : List Char} (h : cs.map foldLetter = ds.map foldLetter)
    (hds : Plain ds) : Plain cs := by
  intro c hc
  have hmem : foldLetter c ∈ ds.map foldLetter := h ▸ List.mem_map_of_mem hc
  obtain ⟨d, hd, hfold⟩ := List.mem_map.mp hmem
  rw [← isSeparator_foldLetter, ← hfold, isSeparator_foldLetter]
  exact hds d hd

/-! ## Fields -/

/-- A line in fields: it is cut at its first separators, so many times, and the last field is what
is left. -/
def fields : Nat → List Char → List String
  | 0, cs => [String.ofList cs]
  | n + 1, cs =>
    String.ofList (cs.takeWhile fun c => !isSeparator c) ::
      fields n ((cs.dropWhile fun c => !isSeparator c).dropWhile isSeparator)

/-- The first field of a line. -/
def firstField (cs : List Char) : String := String.ofList (cs.takeWhile fun c => !isSeparator c)

/-- A field without separators ends where the line does, or at a gap. -/
theorem takeWhile_plain {first : List Char} (hfirst : Plain first) :
    first.takeWhile (fun c => !isSeparator c) = first := by
  rw [← List.append_nil first, List.takeWhile_append_of_pos]
  · simp
  · intro c hc
    rw [hfirst c hc]
    rfl

theorem takeWhile_plain_append {first gap : List Char} (hfirst : Plain first) (hgap : Gap gap)
    (rest : List Char) :
    (first ++ (gap ++ rest)).takeWhile (fun c => !isSeparator c) = first ∧
      (first ++ (gap ++ rest)).dropWhile (fun c => !isSeparator c) = gap ++ rest := by
  have hall : ∀ c ∈ first, (!isSeparator c) = true := fun c hc => by rw [hfirst c hc]; rfl
  obtain ⟨c, others, rfl⟩ := List.exists_cons_of_ne_nil hgap.1
  have hc : isSeparator c = true := hgap.2 c List.mem_cons_self
  rw [List.takeWhile_append_of_pos hall, List.dropWhile_append_of_pos hall]
  simp [hc]

/-- A field without separators, a gap and something solid are cut at the gap. -/
theorem fields_append {first gap rest : List Char} (n : Nat) (hfirst : Plain first)
    (hgap : Gap gap) (hrest : Solid rest) :
    fields (n + 1) (first ++ (gap ++ rest)) = String.ofList first :: fields n rest := by
  obtain ⟨htake, hdrop⟩ := takeWhile_plain_append hfirst hgap rest
  rw [fields, htake, hdrop, List.dropWhile_append_of_pos hgap.2]
  obtain ⟨d, tail, rfl, hd⟩ := hrest
  simp [hd]

end Text

/-! ## Mnemonics and gaps -/

theorem Text.gap_blank : Text.Gap " ".toList := ⟨by decide, List.all_eq_true.mp (by decide)⟩

theorem Text.gap_comma : Text.Gap ", ".toList := ⟨by decide, List.all_eq_true.mp (by decide)⟩

/-- What a mnemonic looks like: its letters are small and it has no separators. -/
def IsWord (s : String) : Prop :=
  s.toList.map Text.foldLetter = s.toList ∧ s.toList.all (fun c => !Text.isSeparator c) = true

instance (s : String) : Decidable (IsWord s) := inferInstanceAs (Decidable (_ ∧ _))

theorem IsWord.plain {s : String} (h : IsWord s) : Text.Plain s.toList := by
  intro c hc
  have hc := List.all_eq_true.mp h.2 c hc
  simpa using hc

@[simp] theorem IsWord.folded {s : String} (h : IsWord s) : Text.folded s = s := by
  rw [Text.folded, h.1, String.ofList_toList]

/-- A mnemonic that is written before a gap is the first field. -/
theorem IsWord.firstField {s : String} (h : IsWord s) {gap : List Char} (hgap : Text.Gap gap)
    (rest : List Char) : Text.firstField (s.toList ++ (gap ++ rest)) = s := by
  rw [Text.firstField, (Text.takeWhile_plain_append h.plain hgap rest).1, String.ofList_toList]

theorem IsWord.fields {s : String} (h : IsWord s) {gap rest : List Char} (hgap : Text.Gap gap)
    (hrest : Text.Solid rest) (n : Nat) :
    Text.fields (n + 1) (s.toList ++ (gap ++ rest)) = s :: Text.fields n rest := by
  rw [Text.fields_append n h.plain hgap hrest, String.ofList_toList]

namespace Pattern

open Text

variable {cs : List Char} {ops : List (Slot × String)}

theorem accepts_word {word : String} (hword : IsWord word) (h : (lit word).Accepts cs ops) :
    folded (String.ofList cs) = word ∧ Plain cs ∧ ops = [] := by
  obtain ⟨hfold, rfl⟩ := accepts_lit.mp h
  refine ⟨?_, plain_of_folded hfold hword.plain, rfl⟩
  rw [folded, String.toList_ofList, hfold, hword.1, String.ofList_toList]

/-- A sign that is no letter is accepted as itself. -/
theorem accepts_sign {c : Char} (hfold : foldLetter c = c) (hc : c.toNat < 97 ∨ 122 < c.toNat)
    (h : (letter c).Accepts cs ops) : cs = [c] := by
  obtain ⟨⟨d, rfl, hd⟩, -⟩ := accepts_letter.mp h
  have hsame : foldLetter c = foldLetter d := by simpa [sameLetter] using hd
  rw [eq_of_foldLetter_eq hc (hsame.symm.trans hfold)]

theorem isSeparator_of_isBlank {c : Char} (h : isBlank c = true) : isSeparator c = true := by
  rw [isSeparator, h, Bool.or_true]

theorem accepts_space (h : space.Accepts cs ops) : Gap cs ∧ ops = [] := by
  obtain ⟨hne, hblank, rfl⟩ := accepts_oneOrMore.mp h
  exact ⟨⟨hne, fun c hc => isSeparator_of_isBlank (hblank c hc)⟩, rfl⟩

theorem accepts_separator (h : separator.Accepts cs ops) : Gap cs ∧ ops = [] := by
  obtain ⟨x, y, u, v, rfl, rfl, ⟨hx, rfl⟩, x', y', u', v', rfl, rfl, ⟨⟨c, rfl, hc⟩, rfl⟩, hy,
    rfl⟩ := h
  refine ⟨⟨by simp, ?_⟩, rfl⟩
  intro d hd
  rcases List.mem_append.mp hd with hd | hd
  · exact isSeparator_of_isBlank (hx d hd)
  · rcases List.mem_cons.mp hd with rfl | hd
    · exact hc
    · exact isSeparator_of_isBlank (hy d hd)

/-- A mnemonic, blanks and what follows them. -/
theorem accepts_spaced {word : String} {target : Pattern} :
    (all [.lit word, .space, target]).Accepts cs ops ↔
      ∃ w gap o, cs = w ++ (gap ++ o) ∧ (lit word).Accepts w [] ∧ space.Accepts gap [] ∧
        target.Accepts o ops := by
  constructor
  · intro h
    obtain ⟨w, y, u, v, rfl, rfl, hw, hy⟩ := accepts_all_cons.mp h
    obtain ⟨gap, o, u', v', rfl, rfl, hgap, ho⟩ := accepts_all_cons.mp hy
    obtain ⟨-, rfl⟩ := accepts_lit.mp hw
    obtain ⟨-, rfl⟩ := accepts_space hgap
    rw [List.append_nil, List.append_nil]
    exact ⟨w, gap, o, rfl, hw, hgap, ho⟩
  · rintro ⟨w, gap, o, rfl, hw, hgap, ho⟩
    refine accepts_all_cons.mpr ⟨w, gap ++ o, [], ops, rfl, by simp, hw, ?_⟩
    exact accepts_all_cons.mpr ⟨gap, o, [], ops, rfl, by simp, hgap, ho⟩

/-- A mnemonic before a blank is the first field of the line. -/
theorem firstField_of_accepts {word : String} {rest : List Pattern} (hword : IsWord word)
    (h : (all (lit word :: space :: rest)).Accepts cs ops) :
    folded (firstField cs) = word := by
  obtain ⟨x, y, u, v, rfl, -, hx, hy⟩ := accepts_all_cons.mp h
  obtain ⟨gap, tail, u', v', rfl, -, hgap, -⟩ := accepts_all_cons.mp hy
  obtain ⟨hfold, hplain, -⟩ := accepts_word hword hx
  rw [firstField, (takeWhile_plain_append hplain (accepts_space hgap).1 tail).1, hfold]

end Pattern

namespace Rule

open Text

/-- The first field of every line that the rule matches is the mnemonic, in either case. -/
def Begins (word : String) (rule : Rule) : Prop :=
  ∀ cs caps, rule.pattern.match? cs = some caps → folded (firstField cs) = word

theorem begins_spaced {word : String} {rest : List Pattern} {action : Captures → Action}
    (hword : IsWord word) :
    Begins word ⟨.all (.lit word :: .space :: rest), action⟩ := by
  intro cs caps h
  obtain ⟨ops, haccepts, -⟩ := Pattern.accepts_of_match? h
  exact Pattern.firstField_of_accepts hword haccepts

theorem begins_alone {word : String} {action : Captures → Action} (hword : IsWord word) :
    Begins word ⟨.lit word, action⟩ := by
  intro cs caps h
  obtain ⟨ops, haccepts, -⟩ := Pattern.accepts_of_match? h
  obtain ⟨hfold, hplain, -⟩ := Pattern.accepts_word hword haccepts
  rw [firstField, takeWhile_plain hplain, hfold]

/-- The rules with a mnemonic, in their order, where the mnemonics of all rules are given. -/
def withWord (words : List String) (rules : List Rule) (word : String) : List Rule :=
  ((words.zip rules).filter (·.1 == word)).map (·.2)

theorem find?_of_match {rule : Rule} {cs : List Char} {caps : Captures}
    (h : rule.pattern.match? cs = some caps) (rules : List Rule) :
    find? (rule :: rules) cs = some (rule.action caps) := by
  simp [find?, h]

theorem find?_of_no_match {rule : Rule} {cs : List Char} (h : rule.pattern.match? cs = none)
    (rules : List Rule) : find? (rule :: rules) cs = find? rules cs := by
  simp [find?, h]

theorem find?_append (first second : List Rule) (cs : List Char) :
    find? (first ++ second) cs = (find? first cs).or (find? second cs) :=
  List.findSome?_append

/-- Where no pattern of a table matches, the table has nothing to say. -/
theorem find?_eq_none {rules : List Rule} {cs : List Char}
    (h : ∀ rule ∈ rules, rule.pattern.match? cs = none) : find? rules cs = none :=
  List.findSome?_eq_none_iff.mpr fun rule hrule => by rw [h rule hrule]; rfl

/-- Only the rules with the mnemonic of a line can match it. -/
theorem find?_eq_withWord {words : List String} {rules : List Rule}
    (h : List.Forall₂ Begins words rules) (cs : List Char) :
    find? rules cs = find? (withWord words rules (folded (firstField cs))) cs := by
  induction h with
  | nil => rfl
  | @cons word rule words rules hbegins _ ih =>
    cases hmatch : rule.pattern.match? cs with
    | none =>
      rw [find?_of_no_match hmatch, ih, withWord, withWord, List.zip_cons_cons]
      by_cases hword : word == folded (firstField cs)
      · simp [find?, hword, hmatch]
      · simp [hword]
    | some caps =>
      have hword : word = folded (firstField cs) := (hbegins cs caps hmatch).symm
      simp [find?, withWord, hword, hmatch]

end Rule

end PocketAsm
