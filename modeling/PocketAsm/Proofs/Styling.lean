/-
  Proofs/Styling.lean --- what a listing loses and keeps when it is styled.

  Both looks of a listing put the same columns together (`render_eq`), and the
  styled one is a sequence of spans, each a text in a style of its own or in
  none (`render_styledLook`).  Without the codes of the styles a line holds all
  that the plain line holds, and perhaps blanks behind it: those that stand in a
  style, before the code that resets it (`Entry.plain_starts`).  As the plain
  line is never the longer one, the two listings are the same text only if no
  line has such blanks.
-/
import PocketAsm.Proofs.Bytes
import PocketAsm.Proofs.Fields
import PocketAsm.Proofs.Layout

set_option autoImplicit false

namespace PocketAsm

/-! ## White space at the end -/

namespace Text

section Ends

variable {s t : String}

/-- There is a character other than white space. -/
def Shows (s : String) : Prop := ∃ c ∈ s.toList, isBlank c = false

/-- There is no white space at the end. -/
def IsTrimmed (s : String) : Prop := ∀ c ∈ s.toList.getLast?, isBlank c = false

theorem not_shows_empty : ¬Shows "" := by simp [Shows]

theorem Shows.left (h : Shows s) : Shows (s ++ t) := by
  obtain ⟨c, hc, hblank⟩ := h
  exact ⟨c, by simp [hc], hblank⟩

theorem Shows.right (h : Shows t) : Shows (s ++ t) := by
  obtain ⟨c, hc, hblank⟩ := h
  exact ⟨c, by simp [hc], hblank⟩

theorem isTrimmed_append_iff (hne : t ≠ "") : IsTrimmed (s ++ t) ↔ IsTrimmed t := by
  have hlist : t.toList ≠ [] := by simpa using hne
  rw [IsTrimmed, String.toList_append, List.getLast?_append_of_ne_nil _ hlist, IsTrimmed]

theorem stripRight_eq_self_iff : stripRight s = s ↔ IsTrimmed s := by
  have hdrop : stripRight s = String.ofList (s.toList.rdropWhile isBlank) := rfl
  rw [hdrop, ← String.toList_inj, String.toList_ofList, List.rdropWhile_eq_self_iff]
  constructor
  · intro h c hc
    obtain ⟨hne, rfl⟩ := List.mem_getLast?_eq_getLast hc
    exact Bool.eq_false_iff.mpr (h hne)
  · intro h hne
    exact Bool.eq_false_iff.mp (h _ (List.getLast_mem_getLast? hne))

theorem stripRight_starts (s : String) : (stripRight s).toList <+: s.toList := by
  rw [stripRight, String.toList_ofList]
  exact trimRight_starts _ _

/-- White space at the end is stripped with that before it. -/
theorem stripRight_append_of_not_shows (h : ¬Shows t) : stripRight (s ++ t) = stripRight s := by
  have hblank : ∀ c ∈ t.toList.reverse, isBlank c = true := fun c hc => by
    by_contra hc'
    exact h ⟨c, List.mem_reverse.mp hc, Bool.eq_false_iff.mpr hc'⟩
  rw [stripRight, trimRight, String.toList_append, List.reverse_append, List.dropWhile_append,
    List.dropWhile_eq_nil_iff.mpr hblank]
  rfl

/-- Nothing is stripped of what stands before a text that shows something. -/
theorem stripRight_append_of_shows (h : Shows t) : stripRight (s ++ t) = s ++ stripRight t := by
  obtain ⟨c, hc, hblank⟩ := h
  have hkeep : t.toList.reverse.dropWhile isBlank ≠ [] := fun hnil => by
    have hall := List.dropWhile_eq_nil_iff.mp hnil c (List.mem_reverse.mpr hc)
    exact Bool.eq_false_iff.mp hblank hall
  rw [stripRight, trimRight, String.toList_append, List.reverse_append, List.dropWhile_append,
    if_neg (mt List.isEmpty_iff.mp hkeep), List.reverse_append, List.reverse_reverse,
    String.ofList_append, String.ofList_toList]
  rfl

theorem stripRight_append_of_isTrimmed (h : IsTrimmed s) :
    stripRight (s ++ t) = s ++ stripRight t := by
  rw [stripRight, String.toList_append, trimRight_append h, String.ofList_append,
    String.ofList_toList]
  rfl

end Ends

theorem shows_toDigits {radix : Nat} (hleast : 1 < radix) (hmost : radix ≤ 16) (n : Nat) :
    Shows (String.ofList (Nat.toDigits radix n)) := by
  have hdigit : ∀ d : Fin 16, isBlank (Nat.digitChar d) = false := by decide
  by_cases hn : n < radix
  · rw [Nat.toDigits_of_lt_base hn]
    exact ⟨_, by simp, hdigit ⟨n, hn.trans_le hmost⟩⟩
  · have hlast : n % radix < 16 := (Nat.mod_lt n (Nat.zero_lt_of_lt hleast)).trans_le hmost
    rw [Nat.toDigits_of_base_le hleast (not_lt.mp hn)]
    exact ⟨_, by simp, hdigit ⟨_, hlast⟩⟩

theorem shows_padLeft {width : Nat} {fill : Char} {s : String} (h : Shows s) :
    Shows (padLeft width fill s) := by
  rw [padLeft, String.ofList_append, String.ofList_toList]
  exact h.right

theorem shows_padRight {width : Nat} {fill : Char} {s : String} (h : Shows s) :
    Shows (padRight width fill s) := by
  rw [padRight, String.ofList_append, String.ofList_toList]
  exact h.left

theorem shows_hex (width n : Nat) : Shows (hex width n) :=
  shows_padLeft (shows_toDigits (by decide) (by decide) n)

theorem shows_toString (n : Nat) : Shows (toString n) := by
  rw [Nat.toString_eq_repr, Nat.repr_eq_ofList_toDigits]
  exact shows_toDigits (by decide) (by decide) n

theorem isTrimmed_styled (code text : String) : IsTrimmed (styled code text) := by
  intro c hc
  obtain rfl : 'm' = c := by simpa [styled, styleCode] using hc
  decide

end Text

namespace Listing

open Text

/-! ## Columns -/

section Columns

variable {shape : WordShape} {bits : Bits} {address : Nat}

/-- Groups show something if the first one does. -/
theorem shows_spaced {first : String} {rest : List String} (h : Shows first) :
    Shows (spaced (first :: rest)) := by
  cases rest with
  | nil => simpa [spaced] using h
  | cons next rest =>
    rw [spaced, String.intercalate_cons_cons]
    exact h.left.left

theorem shows_decimalText {n : Nat} {text : String} (h : decimalText n = .ok text) :
    Shows text := by
  rw [decimalText] at h
  split at h
  · obtain rfl := Except.ok.inj h
    exact shows_toString n
  · cases h

theorem shows_note {value width : Nat} {text : String} (h : Bits.note value width = .ok text) :
    Shows text := by
  rw [Bits.note] at h
  split at h
  · exact shows_decimalText h
  · dsimp only at h
    split at h
    · cases h
    · split at h
      · cases h
      · obtain rfl := Except.ok.inj h
        exact Shows.left (Shows.right ⟨'x', by decide, by decide⟩)

/-- The machine code of an instruction shows something, unless it is left out. -/
theorem shows_codeColumn {format : CodeFormat} {text : String} (hword : 0 < shape.wordSize)
    (hbits : bits ≠ []) (h : codeColumn shape format bits = .ok text) :
    Shows text ↔ format ≠ .none := by
  have hpieces : Bits.pieces 8 bits = bits.take 8 :: Bits.pieces 8 (bits.drop 8) :=
    Bits.pieces_eq_cons (by decide) hbits
  cases format with
  | binary =>
    obtain rfl := Except.ok.inj h
    obtain ⟨b, rest, rfl⟩ := List.exists_cons_of_ne_nil hbits
    refine iff_of_true (shows_padRight ?_) (by decide)
    rw [hpieces, List.map_cons]
    refine shows_spaced ⟨Bits.digit b, ?_, by cases b <;> decide⟩
    simp [Bits.text]
  | hex =>
    obtain rfl := Except.ok.inj h
    refine iff_of_true (shows_padRight ?_) (by decide)
    rw [hpieces, List.map_cons]
    exact shows_spaced (shows_hex _ _)
  | note =>
    rw [codeColumn, if_neg (by simpa using hbits)] at h
    split at h
    · cases h
    · rename_i hnote
      obtain rfl := Except.ok.inj h
      exact iff_of_true (shows_padLeft (shows_note hnote)) (by decide)
  | decimal =>
    obtain rfl := Except.ok.inj h
    refine iff_of_true (shows_padRight ?_) (by decide)
    rw [Bits.words, Bits.pieces_eq_cons hword hbits, List.map_cons, List.map_cons]
    exact shows_spaced (shows_padLeft (shows_toString _))
  | none =>
    obtain rfl := Except.ok.inj h
    exact iff_of_false not_shows_empty (by decide)

/-- An address ends in a blank, unless it is left out. -/
theorem isTrimmed_addressColumn {format : CodeFormat} {text : String}
    (h : addressColumn shape format address = .ok text) : IsTrimmed text ↔ format = .none := by
  have hblank (front : String) : ¬IsTrimmed (front ++ ": ") := fun htrimmed =>
    absurd (htrimmed ' ' (by simp)) (by decide)
  cases format with
  | binary | hex =>
    obtain rfl := Except.ok.inj h
    exact iff_of_false (hblank _) (by decide)
  | note | decimal =>
    unfold addressColumn at h
    dsimp only at h
    split at h
    · cases h
    · obtain rfl := Except.ok.inj h
      exact iff_of_false (hblank _) (by decide)
  | none =>
    obtain rfl := Except.ok.inj h
    exact iff_of_true (by simp [IsTrimmed]) rfl

theorem sourceColumn_eq_empty_iff {format : SourceFormat} {source : Source} :
    sourceColumn format source = "" ↔ format = .none := by
  cases format <;> simp [sourceColumn]

end Columns

/-! ## Entries -/

/-- What a listing shows for a line of the program. -/
inductive Entry where
  | label (name : String)
  | line (address code source : String)

/-- The text of an entry. -/
def Look.entry (look : Look) : Entry → String
  | .label name => look.label name
  | .line address code source => look.line address code source

/-- The entry for a line of the program; there is none for a label that is not shown. -/
def entryOf (shape : WordShape) (options : ListingOptions) :
    OutputLine → Except NumberFault (Option Entry)
  | .label name => .ok (if options.showLabels then some (.label name) else none)
  | .instruction address bits source =>
    match addressColumn shape options.address address with
    | .error e => .error e
    | .ok addressText =>
      match codeColumn shape options.code bits with
      | .error e => .error e
      | .ok codeText =>
        .ok (some (.line addressText codeText (sourceColumn options.source source)))

/-- The entries of finished lines. -/
def entries (shape : WordShape) (options : ListingOptions) (lines : List OutputLine) :
    Except NumberFault (List Entry) :=
  (lines.mapM (entryOf shape options)).map (·.filterMap id)

section Entries

variable {shape : WordShape} {options : ListingOptions}

theorem lineOf_eq (look : Look) (line : OutputLine) :
    lineOf look shape options line = (entryOf shape options line).map (·.map look.entry) := by
  cases line with
  | label name =>
    rw [lineOf, entryOf]
    split <;> rfl
  | instruction address bits source =>
    rw [lineOf, entryOf]
    cases addressColumn shape options.address address with
    | error e => rfl
    | ok text => cases codeColumn shape options.code bits <;> rfl

/-- The looks share the entries, and fail where these do. -/
theorem render_eq (look : Look) (lines : List OutputLine) :
    render look shape options lines =
      (entries shape options lines).map fun es => "\n".intercalate (es.map look.entry) := by
  have hlines : lines.mapM (lineOf look shape options) =
      (lines.mapM (entryOf shape options)).map (·.map (·.map look.entry)) := by
    induction lines with
    | nil => rfl
    | cons line lines ih =>
      rw [List.mapM_cons, List.mapM_cons, ih, lineOf_eq]
      cases entryOf shape options line with
      | error e => rfl
      | ok e? =>
        cases lines.mapM (entryOf shape options) <;> rfl
  rw [render, hlines, entries]
  cases lines.mapM (entryOf shape options) with
  | error e => rfl
  | ok es =>
    have hentries : (es.map (·.map look.entry)).filterMap id = (es.filterMap id).map look.entry := by
      rw [List.filterMap_map, List.map_filterMap]
      rfl
    exact congrArg Except.ok (congrArg _ hentries)

theorem entries_cons {line : OutputLine} {lines : List OutputLine} {es : List Entry}
    (h : entries shape options (line :: lines) = .ok es) :
    ∃ e? rest, entryOf shape options line = .ok e? ∧ entries shape options lines = .ok rest ∧
      es = e?.toList ++ rest := by
  rw [entries, List.mapM_cons] at h
  cases hline : entryOf shape options line with
  | error e =>
    rw [hline] at h
    cases h
  | ok e? =>
    cases hlines : lines.mapM (entryOf shape options) with
    | error e =>
      rw [hline, hlines] at h
      cases h
    | ok found =>
      rw [hline, hlines] at h
      refine ⟨e?, found.filterMap id, rfl, by rw [entries, hlines]; rfl, ?_⟩
      obtain rfl := Except.ok.inj h
      cases e? <;> rfl

end Entries

/-! ## Spans -/

/-- The styles of a listing. -/
inductive Style where
  | bold
  | cyan
  | green
  deriving DecidableEq, Repr, Inhabited

/-- The code that begins a style. -/
def Style.code : Style → String
  | .bold => Text.bold
  | .cyan => Text.cyan
  | .green => Text.green

/-- A piece of a listing, in a style or in none. -/
structure Span where
  style? : Option Style
  text : String
  deriving DecidableEq, Repr, Inhabited

/-- A span with the codes of its style. -/
def Span.display (span : Span) : String :=
  match span.style? with
  | none => span.text
  | some style => Text.styled style.code span.text

/-- The spans of an entry. -/
def Entry.spans : Entry → List Span
  | .label name => [⟨some .bold, name ++ ":"⟩]
  | .line address code source =>
    if source = "" then [⟨some .cyan, address⟩, ⟨none, Text.stripRight code⟩]
    else [⟨some .cyan, address⟩, ⟨none, code ++ " "⟩, ⟨some .green, source⟩]

/-- The spans of a listing. -/
def spansOf (shape : WordShape) (options : ListingOptions) (lines : List OutputLine) :
    Except NumberFault (List Span) :=
  (entries shape options lines).map fun es => [⟨none, "\n"⟩].intercalate (es.map Entry.spans)

/-- Spans with the codes of their styles. -/
def displayed (spans : List Span) : String := String.join (spans.map Span.display)

/-- The texts of spans, without the codes of their styles. -/
def texts (spans : List Span) : String := String.join (spans.map Span.text)

section Spans

variable {shape : WordShape} {options : ListingOptions}

/-- An entry of a styled listing is its spans with their codes. -/
theorem displayed_spans (e : Entry) : displayed e.spans = styledLook.entry e := by
  cases e with
  | label name => simp [displayed, Entry.spans, Span.display, Look.entry, styledLook, Style.code]
  | line address code source =>
    rw [Look.entry, styledLook, Entry.spans]
    dsimp only
    split
    · rw [stripRight_append_of_isTrimmed (isTrimmed_styled _ _)]
      simp [displayed, Span.display, Style.code]
    · have hne : styled green source ≠ "" := by simp [styled, styleCode]
      rw [stripRight_eq_self_iff.mpr ((isTrimmed_append_iff hne).mpr (isTrimmed_styled _ _))]
      simp [displayed, Span.display, Style.code, String.append_assoc]

/-- Spans of entries, with a line feed between the entries. -/
theorem join_intercalate (shown : Span → String) (hshown : shown ⟨none, "\n"⟩ = "\n")
    (es : List Entry) :
    String.join (([⟨none, "\n"⟩].intercalate (es.map Entry.spans)).map shown) =
      "\n".intercalate (es.map fun e => String.join (e.spans.map shown)) := by
  induction es with
  | nil => rfl
  | cons e es ih =>
    cases es with
    | nil => simp
    | cons e' es =>
      simp only [List.map_cons, List.intercalate_cons_cons, String.intercalate_cons_cons,
        List.map_append, String.join_append] at ih ⊢
      rw [ih]
      simp [hshown]

/-- A styled listing is its spans with their codes. -/
theorem render_styledLook (lines : List OutputLine) :
    render styledLook shape options lines = (spansOf shape options lines).map displayed := by
  rw [render_eq, spansOf]
  cases entries shape options lines with
  | error e => rfl
  | ok es =>
    have hspans : es.map styledLook.entry = es.map fun e => displayed e.spans :=
      List.map_congr_left fun e _ => (displayed_spans e).symm
    have hjoin := join_intercalate Span.display rfl es
    rw [Except.map, Except.map, Except.map, hspans]
    exact congrArg Except.ok hjoin.symm

end Spans

/-! ## Plain lines -/

/-- Nothing is lost when an instruction is shown in the plain look instead of the styled one: if its
source is not shown, then its machine code is, or its address is not; and if its source is shown, it
does not end in a blank. -/
def LooksAlike (options : ListingOptions) (source : Source) : Prop :=
  if options.source = .none then options.code ≠ .none ∨ options.address = .none
  else IsTrimmed (sourceColumn options.source source)

/-- There are no blanks in a style at the end of the line. -/
def Entry.LooksAlike : Entry → Prop
  | .label _ => True
  | .line address code source =>
    if source = "" then Shows code ∨ IsTrimmed address else IsTrimmed source

section Plain

variable {shape : WordShape} {options : ListingOptions}

theorem texts_line (address code source : String) :
    texts (Entry.line address code source).spans =
      if source = "" then address ++ stripRight code else address ++ code ++ " " ++ source := by
  rw [Entry.spans]
  split <;> simp [texts, String.append_assoc]

theorem plainLook_line_empty (address code : String) :
    plainLook.line address code "" = stripRight (address ++ code) := by
  have hblank : ¬Shows " " := by simp [Shows, isBlank]
  rw [plainLook]
  dsimp only
  rw [String.append_empty, stripRight_append_of_not_shows hblank]

/-- Without source and machine code, blanks are stripped off the address. -/
theorem plainLook_line_of_not_shows {code : String} (address : String) (h : ¬Shows code) :
    plainLook.line address code "" = stripRight address ∧ stripRight code = "" := by
  have hcode := stripRight_append_of_not_shows (s := "") h
  rw [String.empty_append] at hcode
  rw [plainLook_line_empty, stripRight_append_of_not_shows h]
  exact ⟨rfl, hcode⟩

theorem plainLook_line_of_shows {code : String} (address : String) (h : Shows code) :
    plainLook.line address code "" = address ++ stripRight code := by
  rw [plainLook_line_empty, stripRight_append_of_shows h]

/-- A plain line is the beginning of the text of the spans. -/
theorem Entry.plain_starts (e : Entry) :
    (plainLook.entry e).toList <+: (texts e.spans).toList := by
  cases e with
  | label name => simp [texts, Entry.spans, Look.entry, plainLook]
  | line address code source =>
    rw [texts_line, Look.entry]
    split
    · rename_i hsource
      subst hsource
      by_cases hcode : Shows code
      · rw [plainLook_line_of_shows address hcode]
      · obtain ⟨hline, hstrip⟩ := plainLook_line_of_not_shows address hcode
        rw [hline, hstrip, String.append_empty]
        exact stripRight_starts address
    · exact stripRight_starts _

theorem Entry.plain_eq_iff (e : Entry) : plainLook.entry e = texts e.spans ↔ e.LooksAlike := by
  cases e with
  | label name => simp [texts, Entry.spans, Look.entry, plainLook, Entry.LooksAlike]
  | line address code source =>
    rw [texts_line, Look.entry, Entry.LooksAlike]
    split
    · rename_i hsource
      subst hsource
      by_cases hcode : Shows code
      · rw [plainLook_line_of_shows address hcode]
        exact iff_of_true rfl (.inl hcode)
      · obtain ⟨hline, hstrip⟩ := plainLook_line_of_not_shows address hcode
        rw [hline, hstrip, String.append_empty, stripRight_eq_self_iff]
        exact (or_iff_right hcode).symm
    · rename_i hsource
      exact stripRight_eq_self_iff.trans (isTrimmed_append_iff hsource)

/-- The entry of an instruction looks alike as its source does. -/
theorem looksAlike_of_entryOf {address : Nat} {bits : Bits} {source : Source} {e? : Option Entry}
    (hword : 0 < shape.wordSize) (hbits : bits ≠ [])
    (h : entryOf shape options (.instruction address bits source) = .ok e?) :
    ∃ e, e? = some e ∧ (e.LooksAlike ↔ LooksAlike options source) := by
  rw [entryOf] at h
  cases haddress : addressColumn shape options.address address with
  | error e =>
    rw [haddress] at h
    cases h
  | ok addressText =>
    cases hcode : codeColumn shape options.code bits with
    | error e =>
      rw [haddress, hcode] at h
      cases h
    | ok codeText =>
      rw [haddress, hcode] at h
      obtain rfl := Except.ok.inj h
      refine ⟨_, rfl, ?_⟩
      rw [Entry.LooksAlike, LooksAlike, shows_codeColumn hword hbits hcode,
        isTrimmed_addressColumn haddress]
      simp only [sourceColumn_eq_empty_iff]

/-- All entries look alike if all sources of instructions do. -/
theorem forall_looksAlike_iff {lines : List OutputLine} {es : List Entry}
    (hword : 0 < shape.wordSize)
    (hbits : ∀ address bits source, .instruction address bits source ∈ lines → bits ≠ [])
    (h : entries shape options lines = .ok es) :
    (∀ e ∈ es, e.LooksAlike) ↔
      ∀ address bits source, .instruction address bits source ∈ lines →
        LooksAlike options source := by
  induction lines generalizing es with
  | nil =>
    obtain rfl := Except.ok.inj h
    simp
  | cons line lines ih =>
    obtain ⟨e?, rest, hline, hrest, rfl⟩ := entries_cons h
    have hbehind := ih (fun address bits source hmem => hbits address bits source (.tail _ hmem))
      hrest
    rw [List.forall_mem_append, hbehind]
    cases line with
    | label name =>
      have hlabel : ∀ e ∈ e?.toList, e.LooksAlike := by
        obtain rfl := Except.ok.inj hline
        intro e he
        split at he
        · obtain rfl := List.mem_singleton.mp he
          exact trivial
        · cases he
      simp only [List.mem_cons, reduceCtorEq, false_or]
      exact and_iff_right hlabel
    | instruction address bits source =>
      obtain ⟨e, rfl, halike⟩ :=
        looksAlike_of_entryOf hword (hbits address bits source List.mem_cons_self) hline
      rw [Option.toList_some, List.forall_mem_singleton, halike]
      simp only [List.mem_cons]
      constructor
      · rintro ⟨hfirst, hbehind⟩ address' bits' source' (hsame | hmem)
        · obtain ⟨-, -, rfl⟩ := OutputLine.instruction.inj hsame
          exact hfirst
        · exact hbehind address' bits' source' hmem
      · intro hall
        exact ⟨hall address bits source (.inl rfl), fun address' bits' source' hmem =>
          hall address' bits' source' (.inr hmem)⟩

end Plain

/-! ## Joined lines -/

section Joined

variable {α β : Type} {f g : α → List β} {separator : List β}

theorem length_intercalate_le (separator : List β) (h : ∀ x, f x <+: g x) (xs : List α) :
    (separator.intercalate (xs.map f)).length ≤ (separator.intercalate (xs.map g)).length := by
  induction xs with
  | nil => exact le_rfl
  | cons x xs ih =>
    have hx := (h x).length_le
    cases xs with
    | nil => simpa using hx
    | cons x' xs =>
      simp only [List.map_cons, List.intercalate_cons_cons, List.length_append] at ih ⊢
      omega

/-- Of lines that begin as others do, none is shorter if the joined texts are the same. -/
theorem eq_of_intercalate_eq (h : ∀ x, f x <+: g x) {xs : List α}
    (heq : separator.intercalate (xs.map f) = separator.intercalate (xs.map g)) :
    ∀ x ∈ xs, f x = g x := by
  induction xs with
  | nil => simp
  | cons x xs ih =>
    cases xs with
    | nil => simpa using heq
    | cons x' xs =>
      have hlength := congrArg List.length heq
      have hrest := length_intercalate_le separator h (x' :: xs)
      have hx := (h x).length_le
      simp only [List.map_cons, List.intercalate_cons_cons, List.length_append] at hlength hrest
      -- the lines behind are not longer either, so they cannot make up for a shorter first line
      have hfirst : f x = g x := (h x).eq_of_length (by omega)
      refine List.forall_mem_cons.mpr ⟨hfirst, ih ?_⟩
      rw [List.map_cons, List.map_cons, List.map_cons, List.map_cons, List.intercalate_cons_cons,
        List.intercalate_cons_cons, hfirst] at heq
      exact List.append_cancel_left heq

end Joined

/-- The plain listing is the text of the spans exactly if every entry looks alike. -/
theorem intercalate_plain_eq_iff {es : List Entry} :
    "\n".intercalate (es.map plainLook.entry) =
        texts ([⟨none, "\n"⟩].intercalate (es.map Entry.spans)) ↔
      ∀ e ∈ es, e.LooksAlike := by
  have hjoin := join_intercalate Span.text rfl es
  rw [texts, hjoin]
  constructor
  · intro h e he
    rw [← String.toList_inj, String.toList_intercalate, String.toList_intercalate, List.map_map,
      List.map_map] at h
    have hsame := eq_of_intercalate_eq (fun e => e.plain_starts) h e he
    exact e.plain_eq_iff.mp (String.toList_inj.mp hsame)
  · intro h
    exact congrArg _ (List.map_congr_left fun e he => e.plain_eq_iff.mpr (h e he))

/-! ## Removed codes -/

/-- What is left of some code points when the codes are removed. -/
def Leaves (ps qs : List CodePoint) : Prop :=
  ∀ fuel kept, ps.length < fuel → withoutCodes fuel kept ps = kept.reverse ++ qs

section Codes

variable {ps qs : List CodePoint}

theorem Leaves.nil : Leaves [] [] := by
  intro fuel kept hfuel
  cases fuel with
  | zero => cases hfuel
  | succ fuel => simp [withoutCodes]

/-- Text is kept. -/
theorem Leaves.text (h : Leaves ps qs) {cs : List Char} (hcs : '\x1b' ∉ cs) :
    Leaves (cs.map .char ++ ps) (cs.map .char ++ qs) := by
  induction cs with
  | nil => exact h
  | cons c cs ih =>
    obtain ⟨hc, hcs⟩ : '\x1b' ≠ c ∧ '\x1b' ∉ cs := by simpa using hcs
    intro fuel kept hfuel
    cases fuel with
    | zero => cases hfuel
    | succ fuel =>
      have hrest := ih hcs fuel (.char c :: kept) (Nat.lt_of_succ_lt_succ hfuel)
      rw [List.map_cons, List.cons_append, withoutCodes]
      · simpa using hrest
      · intro rest hescape _
        exact hc (CodePoint.char.inj hescape).symm

/-- The code of a style is removed. -/
theorem Leaves.code (h : Leaves ps qs) (number : String)
    (hnumber : number ∈ ["0", "1", "32", "36"]) :
    Leaves ((styleCode number).toList.map .char ++ ps) qs := by
  intro fuel kept hfuel
  cases fuel with
  | zero => cases hfuel
  | succ fuel =>
    have hshorter : ps.length < fuel := by
      have hcode : 0 < ((styleCode number).toList.map CodePoint.char).length := by simp [styleCode]
      rw [List.length_append] at hfuel
      omega
    have hremoved : withoutCodes (fuel + 1) kept ((styleCode number).toList.map .char ++ ps) =
        withoutCodes fuel kept ps := by
      fin_cases hnumber <;> rfl
    rw [hremoved, h fuel kept hshorter]

/-- Spans lose the codes of their styles, and keep their texts. -/
theorem leaves_displayed {spans : List Span} (h : '\x1b' ∉ (texts spans).toList) :
    Leaves ((displayed spans).toList.map .char) ((texts spans).toList.map .char) := by
  induction spans with
  | nil => exact Leaves.nil
  | cons span spans ih =>
    obtain ⟨style?, text⟩ := span
    have hdisplayed : displayed (⟨style?, text⟩ :: spans) =
        (Span.mk style? text).display ++ displayed spans := by simp [displayed]
    have htexts : texts (⟨style?, text⟩ :: spans) = text ++ texts spans := by simp [texts]
    rw [htexts, String.toList_append, List.mem_append, not_or] at h
    have hrest := ih h.2
    rw [hdisplayed, htexts, String.toList_append, String.toList_append, List.map_append,
      List.map_append]
    cases style? with
    | none => exact hrest.text h.1
    | some style =>
      have hcode : ∃ number, style.code = styleCode number ∧ number ∈ ["0", "1", "32", "36"] := by
        cases style with
        | bold => exact ⟨"1", rfl, by decide⟩
        | cyan => exact ⟨"36", rfl, by decide⟩
        | green => exact ⟨"32", rfl, by decide⟩
      obtain ⟨number, hnumber, hmem⟩ := hcode
      have hreset := hrest.code "0" (by decide)
      have hstyled := (hreset.text h.1).code number hmem
      simpa [Span.display, styled, hnumber] using hstyled

end Codes

/-- Without codes a styled listing is the text of its spans. -/
theorem unstyled_displayed {spans : List Span} (h : '\x1b' ∉ (texts spans).toList) :
    unstyled (WideText.ofString (displayed spans)) = WideText.ofString (texts spans) := by
  have hleaves := leaves_displayed h _ [] (Nat.lt_succ_self _)
  exact congrArg WideText.mk hleaves

/-! ## Both listings -/

/-- A styled listing is made of spans with the codes of their styles around them, and removing the
codes leaves the texts of the spans.  These are the plain listing exactly if every instruction looks
alike in both; where one listing fails, so does the other, for the same reason. -/
theorem styling_only_adds_codes {a : Architecture} (ha : a ∈ Architecture.all) (text : String)
    (options : ListingOptions) :
    let lines := (a.dialect.assemble text).lines
    let spans := spansOf a.shape options lines
    render styledLook a.shape options lines = spans.map displayed ∧
      (∀ found, spans = .ok found → '\x1b' ∉ (texts found).toList →
        unstyled (WideText.ofString (displayed found)) = WideText.ofString (texts found)) ∧
      (∀ e, render plainLook a.shape options lines = .error e ↔ spans = .error e) ∧
      ∀ found, spans = .ok found →
        (render plainLook a.shape options lines = .ok (texts found) ↔
          ∀ address bits source, .instruction address bits source ∈ lines →
            LooksAlike options source) := by
  intro lines spans
  have hdialect := Architecture.wellFormed ha
  have hword : 0 < a.dialect.wordSize := lt_of_lt_of_le (by decide) hdialect.eight_le_wordSize
  have hbits : ∀ address bits source, .instruction address bits source ∈ lines → bits ≠ [] := by
    intro address bits source hmem
    obtain ⟨before, parts, words, after, hedits, -, hlength⟩ :=
      Dialect.exists_place_of_mem_assemble hdialect hmem
    have hplace : .place parts words source ∈ a.dialect.edits text := by simp [hedits]
    obtain ⟨-, hwords, -⟩ := Dialect.sized_of_mem_edits hdialect text _ hplace
    exact List.ne_nil_of_length_pos (hlength ▸ Nat.mul_pos hwords hword)
  have hplain : render plainLook a.shape options lines = _ := render_eq plainLook lines
  refine ⟨render_styledLook lines, fun found _ => unstyled_displayed, fun e => ?_,
    fun found hfound => ?_⟩
  · rw [hplain]
    simp only [spans, spansOf]
    cases entries a.shape options lines with
    | error e' => exact ⟨fun h => by cases h; rfl, fun h => by cases h; rfl⟩
    | ok es => exact iff_of_false nofun nofun
  · cases hentries : entries a.shape options lines with
    | error e =>
      simp only [spans, spansOf, hentries] at hfound
      cases hfound
    | ok es =>
      simp only [spans, spansOf, hentries] at hfound
      obtain rfl := Except.ok.inj hfound
      rw [hplain, hentries, ← forall_looksAlike_iff hword hbits hentries,
        ← intercalate_plain_eq_iff]
      exact ⟨Except.ok.inj, congrArg Except.ok⟩

/-- A label and an instruction with its source are the same text in both looks. -/
theorem shown_source_looks_alike :
    let lines := (V8.dialect.assemble "start:\nLDA #1").lines
    let options : ListingOptions := ⟨.binary, .decimal, .instruction, true⟩
    let found : List Span := [⟨some .bold, "start:"⟩, ⟨none, "\n"⟩, ⟨some .cyan, "  0: "⟩,
      ⟨none, "01111000 00000001    "⟩, ⟨some .green, "; LDA #1"⟩]
    spansOf Architecture.v8.shape options lines = .ok found ∧
      render plainLook Architecture.v8.shape options lines = .ok (texts found) ∧
      unstyled (WideText.ofString (displayed found)) = WideText.ofString (texts found) := by
  intro lines options found
  have hv8 : Architecture.v8 ∈ Architecture.all := List.mem_cons_of_mem _ List.mem_cons_self
  obtain ⟨hlines, hspans⟩ :
      lines = [.label "start",
          .instruction 0 (Bits.ofText "0111100000000001") ⟨1, "LDA #1", "LDA #1", "LDA #1"⟩] ∧
        spansOf Architecture.v8.shape options lines = .ok found := by
    decide +kernel
  obtain ⟨-, hunstyled, -, hplain⟩ := styling_only_adds_codes hv8 "start:\nLDA #1" options
  refine ⟨hspans, (hplain found hspans).mpr ?_, hunstyled found hspans (by decide +kernel)⟩
  intro address bits source hsource
  have hmem : .instruction address bits source ∈ lines := hsource
  rw [hlines, List.mem_cons, List.mem_singleton] at hmem
  obtain ⟨-, -, rfl⟩ := OutputLine.instruction.inj (hmem.resolve_left nofun)
  intro c hc
  obtain rfl : '1' = c := by simpa [sourceColumn, options] using hc
  decide

/-- The blank behind an address is stripped in the plain look only, if nothing follows it. -/
theorem address_keeps_its_blank :
    let lines := (V8.dialect.assemble "NOP").lines
    let options : ListingOptions := ⟨.none, .decimal, .none, true⟩
    render plainLook Architecture.v8.shape options lines = .ok "  0:" ∧
      (render styledLook Architecture.v8.shape options lines).map
          (fun listing => unstyled (WideText.ofString listing)) =
        .ok (WideText.ofString "  0: ") ∧
      WideText.ofString "  0: " ≠ WideText.ofString "  0:" := by
  decide +kernel

end Listing

end PocketAsm
