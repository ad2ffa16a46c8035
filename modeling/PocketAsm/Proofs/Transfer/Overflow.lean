/-
  Proofs/Transfer/Overflow.lean --- pairs that do not fit the registers.

  Nothing checks the pairs of a transfer beforehand.  A number of more than 24
  bits is noticed when its high half is encoded, and not every half is sent.  A
  value is always noticed: a high half that is left out was sent before.  An
  address is not noticed if it is the one behind the last address of all, since
  it is then left out; the receiver has wrapped around to zero by that time.  The
  half that is noticed is named in the fault (`transfer_of_not_sends`), unless it
  has more decimal digits than are written, and then there is no such fault.
-/
import PocketAsm.Proofs.Transfer.Sending

set_option autoImplicit false

namespace PocketAsm.Transfer

variable {delay : Delay} {words : List Word}

/-! ## Ends of a transfer -/

/-- The transfer completed. -/
def Completes (result : Log × Option (Except Failure Status)) : Prop :=
  ∃ status, result.2 = some (.ok status) ∧ status.kind = .complete

/-- The transfer was refused at a pair by a fault of the protocol: the pairs before it were sent,
and of its own messages only some, not the one that writes the value. -/
def RefusedAt (result : Log × Option (Except Failure Status)) (before : List Word) (w : Word) :
    Prop :=
  ∃ part value, part <+: pairMessages (Sender.start.afterAll before) w ∧
    (∀ m ∈ part, m.command ≠ .valueLow) ∧
    result.1.sent.toList = streamMessages before ++ part ∧
    result.2 = some (.error (.transfer (.wideValue value)))

/-- The address of the pair is the one behind that of the last pair before it. -/
def Follows (before : List Word) (w : Word) : Prop :=
  before.getLast?.map Prod.fst = some (w.1 - 1)

instance (before : List Word) (w : Word) : Decidable (Follows before w) :=
  inferInstanceAs (Decidable (_ = _))

/-- The half at which the pair is refused if it does not fit: the one of the address, unless the
address is left out or fits. -/
def refusedHalf (before : List Word) (w : Word) : Int :=
  if Follows before w ∨ w.1 < 0x1000000 then highHalf w.2 else highHalf w.1

/-- The pair does not fit, and nothing that is sent for it shows that: its value fits, and its
address is left out. -/
def Unnoticed (before : List Word) (w : Word) : Prop :=
  w.2 < 0x1000000 ∧ 0x1000000 ≤ w.1 ∧ Follows before w

theorem address_afterAll (before : List Word) :
    (Sender.start.afterAll before).address = before.getLast?.map Prod.fst := by
  induction before using List.reverseRecOn with
  | nil => rfl
  | append_singleton before w _ =>
    rw [Sender.afterAll_concat]
    simp [Sender.after]

theorem follows_afterAll_iff (before : List Word) (w : Word) :
    (Sender.start.afterAll before).follows w.1 = true ↔ Follows before w := by
  simp [Sender.follows, Follows, address_afterAll]

/-- A pair can be sent if it fits or if it goes unnoticed that it does not. -/
theorem sends_iff {before : List Word} {w : Word} (hw : 0 ≤ w.1 ∧ 0 ≤ w.2) :
    (Sender.start.afterAll before).Sends w ↔ FitsRegisters w ∨ Unnoticed before w := by
  simp only [Sender.Sends, follows_afterAll_iff, FitsRegisters, Unnoticed]
  constructor
  · rintro ⟨hvalue, hfollows | haddress⟩
    · by_cases haddress : w.1 < 0x1000000
      · exact Or.inl ⟨⟨hw.1, haddress⟩, hw.2, hvalue⟩
      · exact Or.inr ⟨hvalue, not_lt.mp haddress, hfollows⟩
    · exact Or.inl ⟨⟨hw.1, haddress⟩, hw.2, hvalue⟩
  · rintro (⟨⟨_, haddress⟩, _, hvalue⟩ | ⟨hvalue, _, hfollows⟩)
    · exact ⟨hvalue, Or.inr haddress⟩
    · exact ⟨hvalue, Or.inl hfollows⟩

theorem refusedHalf_afterAll (before : List Word) (w : Word) :
    (Sender.start.afterAll before).refusedHalf w = refusedHalf before w := by
  simp only [Sender.refusedHalf, refusedHalf, follows_afterAll_iff]

/-- A half of a pair that can be written can be put into words. -/
theorem isWritable_refusedHalf {w : Word} (haddress : Text.isWritable w.1 = true)
    (hvalue : Text.isWritable w.2 = true) (before : List Word) :
    Text.isWritable (refusedHalf before w) = true := by
  rw [refusedHalf]
  split
  · exact isWritable_highHalf hvalue
  · exact isWritable_highHalf haddress

theorem FitsRegisters.isWritable_refusedHalf {w : Word} (h : FitsRegisters w)
    (before : List Word) : Text.isWritable (refusedHalf before w) = true := by
  obtain ⟨haddress, hvalue⟩ := h
  exact Transfer.isWritable_refusedHalf (isWritable_of_register haddress)
    (isWritable_of_register hvalue) before

/-- A pair that cannot be sent is refused exactly if the half at which it is can be put into
words. -/
theorem refusedAt_iff_of_not_sends (hdelay : delay.Feasible words.length)
    (hnatural : Natural words) {before after : List Word} {w : Word}
    (hwords : words = before ++ w :: after) (hfits : ∀ v ∈ before, FitsRegisters v)
    (hw : ¬(Sender.start.afterAll before).Sends w) :
    RefusedAt (transfer delay words) before w ↔ Text.isWritable (refusedHalf before w) = true := by
  obtain ⟨log, part, hpart, hsent, hrefused⟩ := transfer_of_not_sends hdelay hwords hnatural
    (Sender.start.sendsAll_of_fits hfits) hw
  rw [hrefused, refusedHalf_afterAll, Failure.ofFault_wideValue]
  constructor
  · rintro ⟨_, value, -, -, -, hfault⟩
    by_contra hlong
    simp [hlong] at hfault
  · intro hwritable
    rw [if_pos hwritable]
    refine ⟨part, _, ?_, ?_, hsent, rfl⟩
    · rw [pairMessages_eq]
      exact hpart.trans (List.prefix_append _ _)
    · intro m hm
      exact valueLow_not_mem_leadMessages _ _ m (hpart.subset hm)

/-- A pair that does not fit is not refused if that goes unnoticed: its value is written. -/
theorem not_refusedAt_of_sends (hdelay : delay.Feasible words.length) (hnatural : Natural words)
    {before after : List Word} {w : Word} (hwords : words = before ++ w :: after)
    (hfits : ∀ v ∈ before, FitsRegisters v)
    (hw : (Sender.start.afterAll before).Sends w) : ¬RefusedAt (transfer delay words) before w := by
  rintro ⟨part, value, _, hsilent, hsent, _⟩
  have hsplit : words = (before ++ [w]) ++ after := by simp [hwords]
  have hbefore : Natural (before ++ [w]) := fun v hv => hnatural v (by
    rw [hsplit]
    exact List.mem_append_left _ hv)
  obtain ⟨log, hlog, hcarry⟩ := transfer_eq_carryOut hdelay hsplit hbefore
    ((Sender.start.sendsAll_of_fits hfits).concat hw)
  have hkept : streamMessages (before ++ [w]) <+: streamMessages before ++ part := by
    rw [← hsent, hcarry, ← hlog]
    exact sent_isPrefix_perform _ log
  have hwhole : pairMessages (Sender.start.afterAll before) w <+: part := by
    rw [streamMessages, pairsMessages_concat, ← List.cons_append] at hkept
    exact (List.prefix_append_right_inj _).mp hkept
  have hwritten : (⟨.valueLow, lowHalf w.2⟩ : Message) ∈ part :=
    hwhole.subset (by simp [pairMessages_eq])
  exact hsilent _ hwritten rfl

theorem not_completes_of_refusedAt {result : Log × Option (Except Failure Status)}
    {before : List Word} {w : Word} (h : RefusedAt result before w) : ¬Completes result := by
  rintro ⟨status, hok, _⟩
  obtain ⟨part, value, _, _, _, herror⟩ := h
  simp [herror] at hok

theorem completes_of_sendsAll (hdelay : delay.Feasible words.length) (hnatural : Natural words)
    (hsends : Sender.start.SendsAll words) : Completes (transfer delay words) := by
  obtain ⟨log, -, hcomplete⟩ := transfer_of_sendsAll hdelay hnatural hsends
  exact ⟨completeStatus words, by rw [hcomplete], rfl⟩

/-- If some pair does not fit, there is a first one. -/
theorem exists_first_misfit (h : ¬∀ w ∈ words, FitsRegisters w) :
    ∃ before w after, words = before ++ w :: after ∧ (∀ v ∈ before, FitsRegisters v) ∧
      ¬FitsRegisters w := by
  induction words with
  | nil => simp at h
  | cons w ws ih =>
    by_cases hw : FitsRegisters w
    · obtain ⟨before, v, after, rfl, hbefore, hv⟩ := ih fun hws =>
        h (List.forall_mem_cons.mpr ⟨hw, hws⟩)
      exact ⟨w :: before, v, after, rfl, List.forall_mem_cons.mpr ⟨hw, hbefore⟩, hv⟩
    · exact ⟨[], w, ws, rfl, by simp, hw⟩

/-- After pairs that fit, only one address goes unnoticed. -/
theorem unnoticed_iff {before : List Word} (hfits : ∀ v ∈ before, FitsRegisters v) (w : Word) :
    Unnoticed before w ↔ before.getLast?.map Prod.fst = some 0xFFFFFF ∧ w.1 = 0x1000000 ∧
      w.2 < 0x1000000 := by
  constructor
  · rintro ⟨hvalue, haddress, hfollows⟩
    obtain ⟨v, hlast, hv⟩ := Option.map_eq_some_iff.mp hfollows
    have hbound := (hfits v (List.mem_of_getLast? hlast)).1.2
    have hexact : w.1 = 0x1000000 := by omega
    rw [Follows, hexact] at hfollows
    exact ⟨hfollows, hexact, hvalue⟩
  · rintro ⟨hlast, haddress, hvalue⟩
    refine ⟨hvalue, haddress.ge, ?_⟩
    rw [Follows, hlast, haddress]
    rfl

/-! ## The condition -/

/-- A transfer completes if and only if all its pairs fit, and is refused at the first one that does
not, before its value is written --- exactly if that pair is not one with a value that fits and with
the address behind the last one of 24 bits, next to a pair with that last address, and if the half
at which it is refused has no more decimal digits than can be written. -/
theorem misfit_is_refused_iff (hdelay : delay.Feasible words.length) (hnatural : Natural words) :
    ((Completes (writeWords delay (fun _ => none) (fun _ => false) words) ↔
        ∀ w ∈ words, FitsRegisters w) ∧
      ∀ before w after, words = before ++ w :: after → (∀ v ∈ before, FitsRegisters v) →
        ¬FitsRegisters w →
        RefusedAt (writeWords delay (fun _ => none) (fun _ => false) words) before w) ↔
    ∀ before w after, words = before ++ w :: after → (∀ v ∈ before, FitsRegisters v) →
      ¬(before.getLast?.map Prod.fst = some 0xFFFFFF ∧ w.1 = 0x1000000 ∧ w.2 < 0x1000000) ∧
        Text.isWritable (refusedHalf before w) = true := by
  have hsends {before after : List Word} {w : Word} (hsplit : words = before ++ w :: after)
      (hfits : ∀ v ∈ before, FitsRegisters v) : (Sender.start.afterAll before).Sends w ↔
        FitsRegisters w ∨ Unnoticed before w := sends_iff (hnatural w (by simp [hsplit]))
  constructor
  · rintro ⟨-, hrefused⟩ before w after hsplit hfits
    have hnoticed : ¬Unnoticed before w := by
      intro hunnoticed
      have hmisfit : ¬FitsRegisters w := fun hw => absurd hw.1.2 (not_lt.mpr hunnoticed.2.1)
      have hsent := (hsends hsplit hfits).mpr (Or.inr hunnoticed)
      exact not_refusedAt_of_sends hdelay hnatural hsplit hfits hsent
        (hrefused before w after hsplit hfits hmisfit)
    refine ⟨fun hlast => hnoticed ((unnoticed_iff hfits w).mpr hlast), ?_⟩
    by_cases hw : FitsRegisters w
    · exact hw.isWritable_refusedHalf before
    · refine (refusedAt_iff_of_not_sends hdelay hnatural hsplit hfits ?_).mp
        (hrefused before w after hsplit hfits hw)
      rw [hsends hsplit hfits]
      exact not_or.mpr ⟨hw, hnoticed⟩
  · intro hcondition
    have hrefused : ∀ before w after, words = before ++ w :: after →
        (∀ v ∈ before, FitsRegisters v) → ¬FitsRegisters w →
        RefusedAt (transfer delay words) before w := by
      intro before w after hsplit hfits hmisfit
      obtain ⟨hnoticed, hwritable⟩ := hcondition before w after hsplit hfits
      refine (refusedAt_iff_of_not_sends hdelay hnatural hsplit hfits ?_).mpr hwritable
      rw [hsends hsplit hfits, unnoticed_iff hfits]
      exact not_or.mpr ⟨hmisfit, hnoticed⟩
    refine ⟨⟨?_, ?_⟩, hrefused⟩
    · intro hcompletes
      by_contra hmisfit
      obtain ⟨before, w, after, hsplit, hfits, hw⟩ := exists_first_misfit hmisfit
      exact not_completes_of_refusedAt (hrefused before w after hsplit hfits hw) hcompletes
    · intro hfits
      exact completes_of_sendsAll hdelay hnatural (Sender.start.sendsAll_of_fits hfits)

/-- An address of 25 bits that does not follow is refused. -/
theorem lone_wide_address_is_refused :
    RefusedAt (writeWords .standard (fun _ => none) (fun _ => false) [(5, 1), (0x1000000, 0)])
      [(5, 1)] (0x1000000, 0) := by
  have hnatural : Natural [(5, 1), (0x1000000, 0)] := by
    simp only [Natural, List.forall_mem_cons]
    decide
  have hfits : ∀ v ∈ [((5, 1) : Word)], FitsRegisters v := by
    simp only [List.forall_mem_cons, FitsRegisters]
    decide
  have hmisfit : ¬FitsRegisters (0x1000000, 0) := by
    simp only [FitsRegisters]
    decide
  have hother : ∀ v ∈ [((5, 1) : Word), (0x1000000, 0)], v.1 ≠ 0xFFFFFF := by decide
  have hwritable : ∀ v ∈ [((5, 1) : Word), (0x1000000, 0)],
      Text.isWritable v.1 = true ∧ Text.isWritable v.2 = true := by
    decide +kernel
  refine ((misfit_is_refused_iff (Delay.standard_feasible (by decide)) hnatural).mpr ?_).2 _ _ []
    rfl hfits hmisfit
  refine fun before w after hsplit _ => ⟨?_, ?_⟩
  · rintro ⟨hlast, -, -⟩
    obtain ⟨v, hv, haddress⟩ := Option.map_eq_some_iff.mp hlast
    refine hother v ?_ haddress
    rw [hsplit]
    exact List.mem_append_left _ (List.mem_of_getLast? hv)
  · obtain ⟨haddress, hvalue⟩ := hwritable w (by simp [hsplit])
    exact isWritable_refusedHalf haddress hvalue before

/-- The address behind the last one is not refused next to it. -/
theorem wide_address_is_not_refused :
    let words : List Word := [(0xFFFFFF, 0), (0x1000000, 0)]
    Natural words ∧
    ¬(Completes (writeWords .standard (fun _ => none) (fun _ => false) words) ↔
      ∀ w ∈ words, FitsRegisters w) := by
  intro words
  have hnatural : Natural words := by
    simp only [words, Natural, List.forall_mem_cons]
    decide
  have hsends : Sender.start.SendsAll words := by
    simp only [words, Sender.SendsAll, Sender.Sends]
    decide
  have hmisfit : ¬∀ w ∈ words, FitsRegisters w := by
    simp only [words, List.forall_mem_cons, FitsRegisters]
    decide
  refine ⟨hnatural, fun hiff => hmisfit (hiff.mp ?_)⟩
  exact completes_of_sendsAll (Delay.standard_feasible (by decide)) hnatural hsends

end PocketAsm.Transfer
