/-
  Proofs/Templates.lean --- texts with holes, and what they match.

  Two lines that differ in one operand are one text with a hole, filled in two
  ways.  From outside the two operands look alike: both stand in parentheses,
  and a pattern that does not look for an opening parenthesis stops before
  either of them (`walks_of_avoids`), while the one of pairs takes either as a
  whole (`walks_pair`).  So a pattern made of such pieces matches both lines or
  none, and its captures are two fillings of the same operands
  (`Tracks.match?`).
-/
import PocketAsm.Proofs.Tokens

set_option autoImplicit false

namespace PocketAsm

/-- A text with holes. -/
abbrev Template : Type := List (Option Char)

namespace Template

/-! ## Filling holes -/

/-- The text with the same characters in every hole. -/
def fill (x : List Char) : Template → List Char
  | [] => []
  | none :: t => x ++ fill x t
  | some c :: t => c :: fill x t

/-- The text with the same characters in every hole, as a string. -/
def text (x : List Char) (t : Template) : String := String.ofList (t.fill x)

/-- A text without holes. -/
def plain (cs : List Char) : Template := cs.map some

@[inherit_doc plain]
def ofText (s : String) : Template := plain s.toList

variable {x y : List Char} {t u : Template}

@[simp] theorem fill_nil (x : List Char) : fill x [] = [] := rfl

@[simp] theorem fill_none (x : List Char) (t : Template) : fill x (none :: t) = x ++ fill x t := rfl

@[simp] theorem fill_some (x : List Char) (c : Char) (t : Template) :
    fill x (some c :: t) = c :: fill x t := rfl

@[simp] theorem fill_append (x : List Char) (t u : Template) :
    fill x (t ++ u) = fill x t ++ fill x u := by
  induction t with
  | nil => rfl
  | cons c t ih => cases c <;> simp [ih]

@[simp] theorem fill_plain (x cs : List Char) : fill x (plain cs) = cs := by
  induction cs with
  | nil => rfl
  | cons c cs ih => exact congrArg (c :: ·) ih

theorem plain_append (cs ds : List Char) : plain (cs ++ ds) = plain cs ++ plain ds :=
  List.map_append

@[simp] theorem none_not_mem_plain (cs : List Char) : none ∉ plain cs := by simp [plain]

@[simp] theorem toList_text (x : List Char) (t : Template) : (t.text x).toList = t.fill x :=
  String.toList_ofList

@[simp] theorem text_append (x : List Char) (t u : Template) :
    (t ++ u).text x = t.text x ++ u.text x := by
  simp [text, String.ofList_append]

@[simp] theorem text_ofText (x : List Char) (s : String) : (ofText s).text x = s := by
  simp [ofText, text, String.ofList_toList]

@[simp] theorem none_not_mem_ofText (s : String) : none ∉ ofText s := none_not_mem_plain s.toList

/-- Where something is filled in, only the empty template makes the empty text. -/
theorem fill_eq_nil (hx : x ≠ []) : t.fill x = [] ↔ t = [] := by
  cases t with
  | nil => simp
  | cons c t => cases c <;> simp [hx]

/-- The template has no holes. -/
def IsPlain (t : Template) : Prop := ∃ cs, t = plain cs

/-- The template is a text without holes, or a hole by itself. -/
inductive Token : Template → Prop where
  | plain (cs : List Char) : Token (plain cs)
  | hole : Token [none]

theorem IsPlain.append (ht : t.IsPlain) (hu : u.IsPlain) : (t ++ u).IsPlain := by
  obtain ⟨cs, rfl⟩ := ht
  obtain ⟨ds, rfl⟩ := hu
  exact ⟨cs ++ ds, (plain_append cs ds).symm⟩

theorem IsPlain.none_not_mem (ht : t.IsPlain) : none ∉ t := by
  obtain ⟨cs, rfl⟩ := ht
  exact none_not_mem_plain cs

theorem IsPlain.token (ht : t.IsPlain) : t.Token := by
  obtain ⟨cs, rfl⟩ := ht
  exact .plain cs

/-- A token with a hole is the hole. -/
theorem Token.eq_hole (ht : t.Token) (h : none ∈ t) : t = [none] := by
  cases ht with
  | plain cs => exact absurd h (none_not_mem_plain cs)
  | hole => rfl

end Template

/-- The text stands in parentheses, which begin with a letter and close at its end only. -/
structure Filling (x : List Char) : Prop where
  opens : ∃ c rest, x = '(' :: c :: rest ∧ Text.isLetter c = true
  closes : ∃ front, x = front ++ [')'] ∧ ')' ∉ front

theorem Filling.ne_nil {x : List Char} (hx : Filling x) : x ≠ [] := by
  obtain ⟨c, rest, rfl, -⟩ := hx.opens
  simp

namespace Pattern

open Template

variable {x y : List Char} {p q : Pattern} {C D : Template → Prop}

/-! ## Patterns that take the same from both texts -/

/-- From a template with either text in its holes the pattern takes the same pieces off the front,
in the same order, and captures nothing. -/
def Walks (x y : List Char) (C : Template → Prop) (p : Pattern) : Prop :=
  ∀ ⦃α β : Type⦄ (R : α → β → Prop) (t : Template) (caps caps' : Captures)
    (k : List Char → Captures → Option α) (k' : List Char → Captures → Option β),
    (∀ u rest, t = u ++ rest → C u → p.Accepts (u.fill y) [] →
      Option.Rel R (k (rest.fill x) caps) (k' (rest.fill y) caps')) →
    Option.Rel R (p.run (t.fill x) caps k) (p.run (t.fill y) caps' k')

theorem Walks.mono (h : Walks x y C p) (hCD : ∀ u, C u → D u) : Walks x y D p :=
  fun _ _ R t caps caps' k k' hk =>
    h R t caps caps' k k' fun u rest ht hu => hk u rest ht (hCD u hu)

/-- Two searches that go on alike after an attempt, and whose attempts go alike, go alike. -/
theorem rel_orElse {α β : Type} {R : α → β → Prop} {a a' : Option α} {b b' : Option β} :
    Option.Rel R a b → Option.Rel R a' b' →
      Option.Rel R (match a with | some v => some v | none => a')
        (match b with | some v => some v | none => b') := by
  intro h h'
  cases h with
  | some hR => exact .some hR
  | none => exact h'

theorem Walks.alt (hp : Walks x y C p) (hq : Walks x y C q) : Walks x y C (.alt p q) := by
  intro α β R t caps caps' k k' hk
  refine rel_orElse (hp R t caps caps' k k' fun u rest ht hu haccepts => ?_)
    (hq R t caps caps' k k' fun u rest ht hu haccepts => ?_)
  · exact hk u rest ht hu (.inl haccepts)
  · exact hk u rest ht hu (.inr haccepts)

theorem walks_empty : Walks x y IsPlain .empty := by
  intro α β R t caps caps' k k' hk
  exact hk [] t rfl ⟨[], rfl⟩ ⟨rfl, rfl⟩

/-- A character of any kind may be an opening parenthesis, but behind that of a hole there is a
letter. -/
theorem walks_one_one (hx : Filling x) (hy : Filling y) (p : Char → Bool) {q : Char → Bool}
    (hparen : q '(' = false) (hletter : ∀ c, Text.isLetter c = true → q c = false) :
    Walks x y IsPlain (.seq (.one p) (.one q)) := by
  intro α β R t caps caps' k k' hk
  obtain ⟨c, restx, hxs, hc⟩ := hx.opens
  obtain ⟨d, resty, hys, hd⟩ := hy.opens
  match t with
  | [] => exact .none
  | none :: t => simp [run, hxs, hys, hletter c hc, hletter d hd]
  | some e :: [] => simp [run]
  | some e :: none :: t => simp [run, hxs, hys, hparen]
  | some e :: some e' :: t =>
    simp only [fill_some, run]
    by_cases he : p e = true ∧ q e' = true
    · rw [if_pos he.1, if_pos he.2, if_pos he.1, if_pos he.2]
      exact hk [some e, some e'] t rfl ⟨[e, e'], rfl⟩
        ⟨[e], [e'], [], [], rfl, rfl, ⟨⟨e, rfl, he.1⟩, rfl⟩, ⟨e', rfl, he.2⟩, rfl⟩
    · rcases not_and_or.mp he with he | he
      · rw [if_neg he, if_neg he]
        exact .none
      · simp [he]

theorem Walks.seq (hp : Walks x y IsPlain p) (hq : Walks x y IsPlain q) :
    Walks x y IsPlain (.seq p q) := by
  intro α β R t caps caps' k k' hk
  refine hp R t caps caps' _ _ fun u rest ht hu hfirst => ?_
  refine hq R rest caps caps' k k' fun v rest' hrest hv hsecond => ?_
  subst ht hrest
  refine hk (u ++ v) rest' (List.append_assoc u v rest').symm (hu.append hv) ?_
  exact ⟨_, _, [], [], fill_append y u v, rfl, hfirst, hsecond⟩

section Runs

variable {α β : Type} {R : α → β → Prop} {p : Char → Bool}

/-- What holds behind every run of characters at the front of a template. -/
def Behind (x y : List Char) (p : Char → Bool) (R : Option α → Option β → Prop)
    (k : List Char → Option α) (k' : List Char → Option β) (t : Template) : Prop :=
  ∀ cs rest, t = plain cs ++ rest → (∀ c ∈ cs, p c = true) → R (k (rest.fill x)) (k' (rest.fill y))

variable {k : List Char → Option α} {k' : List Char → Option β} {t : Template}

theorem Behind.self (h : Behind x y p (Option.Rel R) k k' t) :
    Option.Rel R (k (t.fill x)) (k' (t.fill y)) :=
  h [] t rfl (by simp)

theorem Behind.tail {d : Char} (h : Behind x y p (Option.Rel R) k k' (some d :: t))
    (hd : p d = true) : Behind x y p (Option.Rel R) k k' t := by
  rintro cs rest rfl hcs
  exact h (d :: cs) rest rfl (List.forall_mem_cons.mpr ⟨hd, hcs⟩)

/-- A longest run of characters stops before the text in a hole. -/
theorem rel_runMany (hp : p '(' = false) (hx : Filling x) (hy : Filling y)
    (h : Behind x y p (Option.Rel R) k k' t) :
    Option.Rel R (runMany p k (t.fill x)) (runMany p k' (t.fill y)) := by
  obtain ⟨c, restx, rfl, -⟩ := hx.opens
  obtain ⟨c', resty, rfl, -⟩ := hy.opens
  induction t with
  | nil => exact h.self
  | cons d t ih =>
    cases d with
    | none => simpa [runMany, hp] using h.self
    | some d =>
      rw [fill_some, fill_some, runMany, runMany]
      by_cases hd : p d = true
      · rw [if_pos hd, if_pos hd]
        exact rel_orElse (ih (h.tail hd)) h.self
      · rw [if_neg hd, if_neg hd]
        exact h.self

/-- So does a shortest run. -/
theorem rel_runFew (hp : p '(' = false) (hx : Filling x) (hy : Filling y)
    (h : Behind x y p (Option.Rel R) k k' t) :
    Option.Rel R (runFew p k (t.fill x)) (runFew p k' (t.fill y)) := by
  obtain ⟨c, restx, rfl, -⟩ := hx.opens
  obtain ⟨c', resty, rfl, -⟩ := hy.opens
  induction t with
  | nil => exact h.self
  | cons d t ih =>
    cases d with
    | none =>
      have hself := h.self
      simp only [fill_none, List.cons_append, runFew, hp] at hself ⊢
      exact rel_orElse hself .none
    | some d =>
      rw [fill_some, fill_some, runFew, runFew]
      refine rel_orElse h.self ?_
      by_cases hd : p d = true
      · rw [if_pos hd, if_pos hd]
        exact ih (h.tail hd)
      · rw [if_neg hd, if_neg hd]
        exact .none

end Runs

/-- A pattern that accepts no opening parenthesis stops before the text in a hole. -/
theorem walks_of_avoids (hx : Filling x) (hy : Filling y) (havoids : p.avoids '(' = true)
    (hfree : p.slotFree = true) : Walks x y IsPlain p := by
  induction p with
  | empty => exact walks_empty
  | one p =>
    have hp : p '(' = false := by simpa [avoids] using havoids
    intro α β R t caps caps' k k' hk
    obtain ⟨c, restx, hxs, -⟩ := hx.opens
    obtain ⟨c', resty, hys, -⟩ := hy.opens
    match t with
    | [] => exact .none
    | none :: t => simp [run, hxs, hys, hp]
    | some d :: t =>
      rw [fill_some, fill_some, run, run]
      by_cases hd : p d = true
      · rw [if_pos hd, if_pos hd]
        exact hk [some d] t rfl ⟨[d], rfl⟩ ⟨⟨d, rfl, hd⟩, rfl⟩
      · rw [if_neg hd, if_neg hd]
        exact .none
  | many p =>
    intro α β R t caps caps' k k' hk
    refine rel_runMany (by simpa [avoids] using havoids) hx hy ?_
    intro cs rest ht hcs
    exact hk _ rest ht ⟨cs, rfl⟩ ⟨by simpa using hcs, rfl⟩
  | few p =>
    intro α β R t caps caps' k k' hk
    refine rel_runFew (by simpa [avoids] using havoids) hx hy ?_
    intro cs rest ht hcs
    exact hk _ rest ht ⟨cs, rfl⟩ ⟨by simpa using hcs, rfl⟩
  | seq first second ih₁ ih₂ =>
    obtain ⟨havoids₁, havoids₂⟩ := Bool.and_eq_true_iff.mp havoids
    obtain ⟨hfree₁, hfree₂⟩ := Bool.and_eq_true_iff.mp hfree
    exact (ih₁ havoids₁ hfree₁).seq (ih₂ havoids₂ hfree₂)
  | alt first second ih₁ ih₂ =>
    obtain ⟨havoids₁, havoids₂⟩ := Bool.and_eq_true_iff.mp havoids
    obtain ⟨hfree₁, hfree₂⟩ := Bool.and_eq_true_iff.mp hfree
    exact (ih₁ havoids₁ hfree₁).alt (ih₂ havoids₂ hfree₂)
  | slot name body => simp [slotFree] at hfree

/-- The pattern accepts no opening parenthesis, and captures nothing. -/
def skips (p : Pattern) : Bool := p.avoids '(' && p.slotFree

@[inherit_doc walks_of_avoids]
theorem walks_of_skips (hx : Filling x) (hy : Filling y) (h : p.skips = true) :
    Walks x y IsPlain p :=
  walks_of_avoids hx hy (Bool.and_eq_true_iff.mp h).1 (Bool.and_eq_true_iff.mp h).2

/-! ## Pairs -/

/-- Without slots a way of a match captures nothing. -/
theorem caps_of_slotFree (hfree : p.slotFree = true) {cs : List Char} {caps : Captures}
    {way : List Char × Captures} (h : way ∈ p.ways cs caps) : way.2 = caps := by
  induction p generalizing cs caps way with
  | empty => rw [List.mem_singleton.mp h]
  | one p =>
    cases cs with
    | nil => simp [ways] at h
    | cons c cs =>
      rw [ways] at h
      split at h
      · rw [List.mem_singleton.mp h]
      · simp at h
  | many p =>
    obtain ⟨rest, -, rfl⟩ := List.mem_map.mp h
    rfl
  | few p =>
    obtain ⟨rest, -, rfl⟩ := List.mem_map.mp h
    rfl
  | seq first second ih₁ ih₂ =>
    obtain ⟨hfree₁, hfree₂⟩ := Bool.and_eq_true_iff.mp hfree
    obtain ⟨between, hfirst, hsecond⟩ := List.mem_flatMap.mp h
    rw [ih₂ hfree₂ hsecond, ih₁ hfree₁ hfirst]
  | alt first second ih₁ ih₂ =>
    obtain ⟨hfree₁, hfree₂⟩ := Bool.and_eq_true_iff.mp hfree
    rcases List.mem_append.mp h with h | h
    · exact ih₁ hfree₁ h
    · exact ih₂ hfree₂ h
  | slot name body => simp [slotFree] at hfree

/-- Searching a list with one element, however often it occurs, is trying this element. -/
theorem findSome?_of_forall_eq {α β : Type} {f : α → Option β} {a : α} :
    ∀ {xs : List α}, xs ≠ [] → (∀ x ∈ xs, x = a) → xs.findSome? f = f a
  | [], hne, _ => absurd rfl hne
  | b :: xs, _, h => by
    obtain ⟨rfl, hxs⟩ := List.forall_mem_cons.mp h
    rw [List.findSome?_cons]
    cases hb : f b with
    | some v => rfl
    | none =>
      cases xs with
      | nil => rfl
      | cons c xs => exact (findSome?_of_forall_eq (by simp) hxs).trans hb

/-- Where a pattern can take one piece only off the front of a text, matching goes on behind it. -/
theorem run_of_unique {α : Type} (hfree : p.slotFree = true) {rest : List Char}
    (haccepts : p.Accepts x []) (hunique : ∀ v r, x ++ rest = v ++ r → p.Accepts v [] → v = x)
    (caps : Captures) (k : List Char → Captures → Option α) :
    p.run (x ++ rest) caps k = k rest caps := by
  rw [run_eq_findSome?]
  obtain ⟨found, hfound⟩ := exists_way_of_accepts haccepts rest caps
  refine findSome?_of_forall_eq (a := (rest, caps)) (List.ne_nil_of_mem hfound) fun way hway => ?_
  obtain ⟨v, ops, hv, hops, -⟩ := accepts_of_mem_ways hway
  obtain rfl := eq_nil_of_slotFree hfree hops
  obtain rfl := hunique v way.1 hv hops
  exact Prod.ext (List.append_cancel_left hv).symm (caps_of_slotFree hfree hway)

/-- Two texts that a sign ends, where it occurs for the first time, are one text. -/
theorem eq_of_append_sign {c : Char} : ∀ {a b rest rest' : List Char}, c ∉ a → c ∉ b →
    a ++ c :: rest = b ++ c :: rest' → a = b ∧ rest = rest'
  | [], [], _, _, _, _, h => ⟨rfl, List.tail_eq_of_cons_eq h⟩
  | [], d :: b, _, _, _, hb, h => absurd (List.head_eq_of_cons_eq h) (List.ne_of_not_mem_cons hb)
  | d :: a, [], _, _, ha, _, h =>
    absurd (List.head_eq_of_cons_eq h).symm (List.ne_of_not_mem_cons ha)
  | d :: a, e :: b, _, _, ha, hb, h => by
    obtain ⟨rfl, htail⟩ := List.cons.inj h
    obtain ⟨rfl, hrest⟩ := eq_of_append_sign (List.not_mem_of_not_mem_cons ha)
      (List.not_mem_of_not_mem_cons hb) htail
    exact ⟨rfl, hrest⟩

/-- The pattern of pairs takes the text of a hole as a whole. -/
theorem run_pair {α : Type} {atom : Pattern} (havoids : atom.avoids ')' = true)
    (hfree : atom.slotFree = true) (hx : Filling x) (haccepts : (Operand.pair atom).Accepts x [])
    (rest : List Char) (caps : Captures) (k : List Char → Captures → Option α) :
    (Operand.pair atom).run (x ++ rest) caps k = k rest caps := by
  have hpairFree : (Operand.pair atom).slotFree = true := by
    simp [Operand.pair, all, slotFree, hfree]
    decide
  refine run_of_unique hpairFree haccepts ?_ caps k
  intro v r hv hpair
  have hatom : ∀ z u, atom.Accepts z u → ')' ∉ z := fun z u hz => not_mem_of_accepts havoids hz
  obtain ⟨inner, rfl, hinner⟩ := Operand.accepts_pair hatom hpair
  obtain ⟨front, rfl, hfront⟩ := hx.closes
  have hopen : ')' ∉ '(' :: inner := by simp [hinner]
  have hsplit : front ++ ')' :: rest = ('(' :: inner) ++ ')' :: r := by simpa using hv
  obtain ⟨rfl, -⟩ := eq_of_append_sign hfront hopen hsplit
  rfl

/-- Pairs take the same from both texts, if both texts in a hole are pairs. -/
theorem walks_pair {atom : Pattern} (hopen : atom.avoids '(' = true)
    (hclose : atom.avoids ')' = true) (hfree : atom.slotFree = true) (hx : Filling x)
    (hy : Filling y) (hpairx : (Operand.pair atom).Accepts x [])
    (hpairy : (Operand.pair atom).Accepts y []) : Walks x y Token (Operand.pair atom) := by
  intro α β R t caps caps' k k' hk
  match t with
  | [] => exact .none
  | none :: t =>
    rw [fill_none, fill_none, run_pair hclose hfree hx hpairx, run_pair hclose hfree hy hpairy]
    exact hk [none] t rfl .hole (by simpa using hpairy)
  | some c :: t =>
    -- behind the opening parenthesis no further one is accepted
    have hinner : Walks x y IsPlain (all [atom, Operand.sign, atom, .letter ')']) := by
      refine walks_of_avoids hx hy ?_ ?_
      · simp [all, avoids, hopen]
        decide
      · simp [all, slotFree, hfree]
        decide
    have hpair : Operand.pair atom =
        .seq (.letter '(') (all [atom, Operand.sign, atom, .letter ')']) := rfl
    rw [hpair, fill_some, fill_some, run, run, letter, run, run]
    by_cases hc : Text.sameLetter '(' c = true
    · rw [if_pos hc, if_pos hc]
      refine hinner R t caps caps' k k' fun u rest ht hu haccepts => ?_
      subst ht
      obtain ⟨cs, rfl⟩ := hu
      refine hk (some c :: plain cs) rest rfl (IsPlain.token ⟨c :: cs, rfl⟩) ?_
      exact ⟨[c], cs, [], [], by simp, rfl, ⟨⟨c, rfl, hc⟩, rfl⟩, by simpa using haccepts⟩
    · rw [if_neg hc, if_neg hc]
      exact .none

/-! ## Slots -/

/-- The operands that tokens in slots make, the latest one first. -/
def entries (x : List Char) (os : List (Slot × Template)) : List (Slot × String) :=
  (os.map fun o => (o.1, o.2.text x)).reverse

theorem entries_append (x : List Char) (os os' : List (Slot × Template)) :
    entries x (os ++ os') = entries x os' ++ entries x os := by
  simp [entries]

/-- The slots take tokens from a template, and every hole in it is among them. -/
structure Takes (u : Template) (names : List Slot) (os : List (Slot × Template)) : Prop where
  names : os.map Prod.fst = names
  tokens : ∀ o ∈ os, o.2.Token
  holes : none ∈ u → ∃ o ∈ os, o.2 = [none]

theorem Takes.append {u v : Template} {names names' : List Slot} {os os' : List (Slot × Template)}
    (h : Takes u names os) (h' : Takes v names' os') :
    Takes (u ++ v) (names ++ names') (os ++ os') where
  names := by rw [List.map_append, h.names, h'.names]
  tokens := List.forall_mem_append.mpr ⟨h.tokens, h'.tokens⟩
  holes hmem := by
    rcases List.mem_append.mp hmem with hmem | hmem
    · obtain ⟨o, ho, hhole⟩ := h.holes hmem
      exact ⟨o, List.mem_append_left _ ho, hhole⟩
    · obtain ⟨o, ho, hhole⟩ := h'.holes hmem
      exact ⟨o, List.mem_append_right _ ho, hhole⟩

/-- The pattern is a row of pieces: a slot takes a token, and what stands between slots takes no
holes. -/
inductive Tracks (x y : List Char) : Pattern → List Slot → Prop where
  | walk {p : Pattern} (h : Walks x y IsPlain p) : Tracks x y p []
  | slot {name : Slot} {body : Pattern} (h : Walks x y Token body) :
    Tracks x y (.slot name body) [name]
  | seq {p q : Pattern} {names names' : List Slot} (h : Tracks x y p names)
    (h' : Tracks x y q names') : Tracks x y (.seq p q) (names ++ names')

/-- A piece without slots before a row. -/
theorem Tracks.behind {names : List Slot} (hp : Walks x y IsPlain p) (h : Tracks x y q names) :
    Tracks x y (.seq p q) names :=
  .seq (.walk hp) h

/-- A piece without slots after a row. -/
theorem Tracks.before {names : List Slot} (h : Tracks x y p names) (hq : Walks x y IsPlain q) :
    Tracks x y (.seq p q) names :=
  List.append_nil names ▸ .seq h (.walk hq)

/-- A slot before a row. -/
theorem Tracks.cons {name : Slot} {body : Pattern} {names : List Slot}
    (hbody : Walks x y Token body)
    (h : Tracks x y q names) : Tracks x y (.seq (.slot name body) q) (name :: names) :=
  .seq (.slot hbody) h

/-- Rows one after the other. -/
theorem tracks_all {ps : List Pattern} {names : List (List Slot)}
    (h : List.Forall₂ (Tracks x y) ps names) : Tracks x y (all ps) names.flatten := by
  induction h with
  | nil => exact .walk walks_empty
  | @cons p name ps names hp hps ih =>
    cases hps with
    | nil =>
      rw [List.flatten_singleton]
      exact hp
    | cons hq hqs => exact .seq hp ih

/-- Whichever text is in the holes, the slots take the same tokens. -/
theorem Tracks.run {names : List Slot} (h : Tracks x y p names) {α β : Type} (R : α → β → Prop)
    (t : Template) (caps caps' : Captures) (k : List Char → Captures → Option α)
    (k' : List Char → Captures → Option β)
    (hk : ∀ u rest os found found', t = u ++ rest → Takes u names os →
      (∃ ops, p.Accepts (u.fill y) ops) → found.texts = entries x os ++ caps.texts →
      found'.texts = entries y os ++ caps'.texts →
      Option.Rel R (k (rest.fill x) found) (k' (rest.fill y) found')) :
    Option.Rel R (p.run (t.fill x) caps k) (p.run (t.fill y) caps' k') := by
  induction h generalizing t caps caps' k k' with
  | walk h =>
    refine h R t caps caps' k k' fun u rest ht hu haccepts => ?_
    have htakes : Takes u [] [] := ⟨rfl, by simp, fun hmem => absurd hmem hu.none_not_mem⟩
    exact hk u rest [] caps caps' ht htakes ⟨_, haccepts⟩ rfl rfl
  | @slot name body h =>
    refine h R t caps caps' _ _ fun u rest ht hu haccepts => ?_
    subst ht
    refine hk u rest [(name, u)] _ _ rfl ⟨rfl, by simpa using hu, fun hmem => ?_⟩
      ⟨_, [], haccepts, rfl⟩ ?_ ?_
    · exact ⟨_, List.mem_singleton_self _, hu.eq_hole hmem⟩
    · simp [Captures.texts, entries, text_span, Template.text]
    · simp [Captures.texts, entries, text_span, Template.text]
  | seq _ _ ih₁ ih₂ =>
    refine ih₁ t caps caps' _ _ fun u rest os found found' ht htakes hfirst hleft hright => ?_
    refine ih₂ rest found found' _ _
      fun v rest' os' found₂ found₂' hrest htakes' hsecond hleft' hright' => ?_
    subst ht hrest
    obtain ⟨ops, hfirst⟩ := hfirst
    obtain ⟨ops', hsecond⟩ := hsecond
    refine hk (u ++ v) rest' (os ++ os') found₂ found₂' (List.append_assoc u v rest').symm
      (htakes.append htakes') ⟨ops' ++ ops, ?_⟩ ?_ ?_
    · exact ⟨_, _, ops, ops', fill_append y u v, rfl, hfirst, hsecond⟩
    · rw [hleft', hleft, entries_append, List.append_assoc]
    · rw [hright', hright, entries_append, List.append_assoc]

/-! ## Matches -/

/-- Two matches capture what the same tokens make of either text. -/
def SameTokens (x y : List Char) (t : Template) (names : List Slot) (caps caps' : Captures) : Prop :=
  ∃ os, Takes t names os ∧ caps.texts = entries x os ∧ caps'.texts = entries y os

/-- What a match does with the ways of its pattern: nothing may be left over. -/
def atEnd (rest : List Char) (caps : Captures) : Option Captures :=
  if rest.isEmpty then some caps else none

theorem rel_atEnd {R : Captures → Captures → Prop} (hx : Filling x) (hy : Filling y) {t : Template}
    {caps caps' : Captures} (h : t = [] → R caps caps') :
    Option.Rel R (atEnd (t.fill x) caps) (atEnd (t.fill y) caps') := by
  by_cases ht : t = []
  · subst ht
    exact .some (h rfl)
  · have hleft : t.fill x ≠ [] := fun hnil => ht ((fill_eq_nil hx.ne_nil).mp hnil)
    have hright : t.fill y ≠ [] := fun hnil => ht ((fill_eq_nil hy.ne_nil).mp hnil)
    rw [atEnd, atEnd, if_neg (by simpa using hleft), if_neg (by simpa using hright)]
    exact .none

/-- A row of pieces matches a template with either text in its holes, or with none. -/
theorem Tracks.match? {names : List Slot} (h : Tracks x y p names) (hx : Filling x)
    (hy : Filling y) (t : Template) :
    Option.Rel (SameTokens x y t names) (p.match? (t.fill x)) (p.match? (t.fill y)) := by
  refine h.run _ t [] [] atEnd atEnd fun u rest os found found' ht htakes _ hleft hright => ?_
  refine rel_atEnd hx hy fun hrest => ?_
  rw [hrest, List.append_nil] at ht
  exact ⟨os, ht ▸ htakes, hleft.trans (List.append_nil _), hright.trans (List.append_nil _)⟩

/-! ## Parentheses that belong to the line -/

/-- The template ends with a hole, and the pattern accepts what stands before it. -/
def Encloses (y : List Char) (opening : Pattern) (t : Template) : Prop :=
  ∃ (head : Template) (ops : List (Slot × String)),
    t = head ++ [none] ∧ opening.Accepts (head.fill y) ops

/-- The pattern is one of parentheses around a name: if a letter follows the first one, they close
only at the end, and there is no sign between them. -/
def IsParenthesized (p : Pattern) : Prop :=
  ∀ cs ops, p.Accepts cs ops → ∃ inner, cs = '(' :: (inner ++ [')']) ∧
    ∀ c ∈ inner.head?, Text.isLetter c = true → ')' ∉ inner ∧ '+' ∉ inner

theorem accepts_of_run_atEnd {cs : List Char} {caps found : Captures}
    (h : p.run cs caps atEnd = some found) : ∃ ops, p.Accepts cs ops := by
  rw [run_eq_findSome?] at h
  obtain ⟨⟨rest, caps'⟩, hway, hend⟩ := List.exists_of_findSome?_eq_some h
  obtain ⟨v, ops, rfl, haccepts, -⟩ := accepts_of_mem_ways hway
  cases rest with
  | nil => exact ⟨ops, by simpa using haccepts⟩
  | cons c rest => simp [atEnd] at hend

/-- What is in parentheses that begin with a letter is a text of its own. -/
theorem IsParenthesized.of_filling (hp : IsParenthesized p) (hx : Filling x) {cs : List Char}
    {ops : List (Slot × String)} (h : p.Accepts (x ++ cs) ops) : cs = [] ∧ '+' ∉ x := by
  obtain ⟨inner, hcs, hinner⟩ := hp _ _ h
  obtain ⟨c, rest, hopen, hletter⟩ := hx.opens
  obtain ⟨front, hclose, hfront⟩ := hx.closes
  have hhead : inner.head? = some c := by
    rw [hopen, List.cons_append, List.cons_append, List.cons.injEq] at hcs
    cases inner with
    | nil =>
      have hparen : c = ')' := List.head_eq_of_cons_eq hcs.2
      exact absurd hletter (by rw [hparen]; decide)
    | cons d inner => rw [List.head_eq_of_cons_eq hcs.2, List.head?_cons]
  obtain ⟨hnoclose, hnoplus⟩ := hinner c hhead hletter
  have hopened : ')' ∉ '(' :: inner := by simp [hnoclose]
  have hends : front ++ ')' :: cs = ('(' :: inner) ++ ')' :: [] := by
    simpa [hclose] using hcs
  obtain ⟨rfl, rfl⟩ := eq_of_append_sign hfront hopened hends
  exact ⟨rfl, by simp [hclose, hnoplus]⟩

/-- A row of pieces and parentheses behind it match a template with either text in its holes, or
with none, unless these parentheses are a hole. -/
theorem Tracks.match?_parenthesized {opening inner : Pattern} {names names' : List Slot}
    (ho : Tracks x y opening names) (hi : Tracks x y inner names')
    (hparens : IsParenthesized (.seq (.letter '(') inner)) (hx : Filling x) (hy : Filling y)
    (hplus : '+' ∈ x) {t : Template} (ht : ¬ Encloses y opening t) :
    Option.Rel (SameTokens x y t (names ++ names'))
      ((Pattern.seq opening (.seq (.letter '(') inner)).match? (t.fill x))
      ((Pattern.seq opening (.seq (.letter '(') inner)).match? (t.fill y)) := by
  refine ho.run _ t [] [] _ _ fun u rest os found found' htu htakes haccepts hleft hright => ?_
  match rest with
  | [] => exact .none
  | none :: rest =>
    have hnone {z : List Char} {found : Captures}
        (h : ∀ ops, ¬ (Pattern.seq (.letter '(') inner).Accepts z ops) :
        (Pattern.seq (.letter '(') inner).run z found atEnd = none := by
      rw [Option.eq_none_iff_forall_ne_some]
      intro caps hcaps
      obtain ⟨ops, hops⟩ := accepts_of_run_atEnd hcaps
      exact h ops hops
    have hfirst : (Pattern.seq (.letter '(') inner).run (fill x (none :: rest)) found atEnd = none :=
      hnone fun ops hops => (hparens.of_filling hx hops).2 hplus
    have hsecond :
        (Pattern.seq (.letter '(') inner).run (fill y (none :: rest)) found' atEnd = none := by
      refine hnone fun ops hops => ht ?_
      obtain rfl : rest = [] := (fill_eq_nil hy.ne_nil).mp (hparens.of_filling hy hops).1
      obtain ⟨ops', hopening⟩ := haccepts
      exact ⟨u, ops', htu, hopening⟩
    change Option.Rel _ ((Pattern.seq (.letter '(') inner).run _ found atEnd)
      ((Pattern.seq (.letter '(') inner).run _ found' atEnd)
    rw [hfirst, hsecond]
    exact .none
  | some c :: rest =>
    rw [fill_some, fill_some, Pattern.run, Pattern.run, letter, Pattern.run, Pattern.run]
    by_cases hc : Text.sameLetter '(' c = true
    · rw [if_pos hc, if_pos hc]
      refine hi.run _ rest found found' atEnd atEnd
        fun v rest' os' found₂ found₂' hrest htakes' _ hleft' hright' => ?_
      refine rel_atEnd hx hy fun hnil => ⟨os ++ os', ?_, ?_, ?_⟩
      · have hboth : Takes t (names ++ names') (os ++ os') := by
          have hv : Takes (some c :: v) names' os' :=
            ⟨htakes'.names, htakes'.tokens, fun hmem => htakes'.holes (by simpa using hmem)⟩
          have happend := htakes.append hv
          rwa [htu, hrest, hnil, List.append_nil]
        exact hboth
      · rw [hleft', hleft, entries_append]
        simp [Captures.texts]
      · rw [hright', hright, entries_append]
        simp [Captures.texts]
    · rw [if_neg hc, if_neg hc]
      exact .none

/-! ## Operands -/

/-- The operands of two matches, slot by slot: each is made of a token. -/
structure Binds (x y : List Char) (caps caps' : Captures) (operand : Slot → Template) : Prop where
  token : ∀ slot, (operand slot).Token
  left : ∀ slot, caps.get slot = (operand slot).text x
  right : ∀ slot, caps'.get slot = (operand slot).text y

/-- The operand in a slot is made of the token in it. -/
theorem captured_entries (z : List Char) (os : List (Slot × Template)) (slot : Slot) :
    captured (entries z os) slot = Template.text z ((os.reverse.lookup slot).getD []) := by
  have hlookup (l : List (Slot × Template)) :
      (l.map fun o => (o.1, o.2.text z)).lookup slot = (l.lookup slot).map (Template.text z) := by
    induction l with
    | nil => rfl
    | cons o l ih =>
      rw [List.map_cons, List.lookup_cons, List.lookup_cons]
      cases slot == o.1 <;> simp [ih]
  rw [captured, entries, ← List.map_reverse, hlookup]
  cases os.reverse.lookup slot <;> rfl

/-- Where every slot occurs once, each has its operand, and a hole is one of them. -/
theorem SameTokens.exists_binds {t : Template} {names : List Slot} {caps caps' : Captures}
    (h : SameTokens x y t names caps caps') (hnames : names.Nodup) :
    ∃ operand, Binds x y caps caps' operand ∧
      (none ∈ t → ∃ slot ∈ names, operand slot = [none]) := by
  obtain ⟨os, ⟨rfl, htokens, hholes⟩, hleft, hright⟩ := h
  refine ⟨fun slot => (os.reverse.lookup slot).getD [], ⟨fun slot => ?_, fun slot => ?_,
    fun slot => ?_⟩, fun hmem => ?_⟩
  · cases hlookup : os.reverse.lookup slot with
    | none => exact .plain []
    | some token =>
      obtain ⟨before, after, hos, -⟩ := List.lookup_eq_some_iff.mp hlookup
      exact htokens (slot, token) (by rw [← List.mem_reverse, hos]; simp)
  · rw [Captures.get_eq_captured, hleft, captured_entries]
  · rw [Captures.get_eq_captured, hright, captured_entries]
  · obtain ⟨⟨slot, token⟩, ho, rfl⟩ := hholes hmem
    refine ⟨slot, List.mem_map_of_mem ho, ?_⟩
    obtain ⟨before, after, hos⟩ := List.append_of_mem (List.mem_reverse.mpr ho)
    have hlookup : os.reverse.lookup slot = some [none] := by
      refine List.lookup_eq_some_iff.mpr ⟨before, after, hos, fun o hmem => ?_⟩
      have hnodup : (os.reverse.map Prod.fst).Nodup := by
        rw [List.map_reverse]
        exact List.nodup_reverse.mpr hnames
      rw [hos, List.map_append, List.map_cons, List.nodup_middle] at hnodup
      have hnot := (List.nodup_cons.mp hnodup).1
      refine bne_iff_ne.mpr fun heq => hnot (List.mem_append_left _ ?_)
      exact List.mem_map.mpr ⟨o, hmem, heq.symm⟩
    exact congrArg (·.getD []) hlookup

end Pattern

end PocketAsm
