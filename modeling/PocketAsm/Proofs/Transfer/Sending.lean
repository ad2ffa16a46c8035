/-
  Proofs/Transfer/Sending.lean --- the messages that an undisturbed transfer sends.

  A message is refused only for a value of more than twelve bits.  The low half
  of a number always fits, the high half if the number has 24 bits, so whether
  a pair can be sent depends on the halves that are sent for it at all
  (`Sender.Sends`).  A transfer sends the messages of one pair after the other
  (`carryOut_pairs`) up to the first pair that cannot be sent.
-/
import PocketAsm.Proofs.Numerals
import PocketAsm.Proofs.Transfer.Codec
import PocketAsm.Proofs.Transfer.Timing
import PocketAsm.Transfer.Stream

set_option autoImplicit false

namespace PocketAsm.Transfer

/-! ## Messages -/

/-- The value of the message has twelve bits. -/
def Message.Fits (m : Message) : Prop := 0 ≤ m.value ∧ m.value ≤ 4095

instance (m : Message) : Decidable m.Fits := inferInstanceAs (Decidable (_ ∧ _))

theorem Command.code_bounds (c : Command) : (0 : Int) ≤ c.code ∧ (c.code : Int) ≤ 15 := by
  cases c <;> decide

theorem Message.Fits.encode {m : Message} (h : m.Fits) : ∃ s, m.encode = .ok s :=
  ⟨_, encode_of_lt h m.command.code_bounds⟩

theorem Message.encode_of_not_fits {m : Message} (h : ¬m.Fits) :
    m.encode = .error (.wideValue m.value) := by
  unfold Message.encode Transfer.encode
  exact if_pos h

theorem lowHalf_bounds (n : Int) : 0 ≤ lowHalf n ∧ lowHalf n ≤ 4095 := by
  simp only [lowHalf]
  omega

theorem highHalf_bounds_iff (n : Int) :
    0 ≤ highHalf n ∧ highHalf n ≤ 4095 ↔ 0 ≤ n ∧ n < 0x1000000 := by
  simp only [highHalf]
  omega

/-- A number of 24 bits can be written. -/
theorem isWritable_of_register {n : Int} (h : 0 ≤ n ∧ n < 0x1000000) :
    Text.isWritable n = true := by
  refine Text.isWritable_of_lt 8 (by decide) ?_
  rw [show Nat.pow 10 8 = 100000000 from rfl]
  omega

theorem isWritable_lowHalf (n : Int) : Text.isWritable (lowHalf n) = true := by
  have hbounds := lowHalf_bounds n
  exact isWritable_of_register ⟨hbounds.1, by omega⟩

/-- The high half of a number has no more digits than the number. -/
theorem isWritable_highHalf {n : Int} (h : Text.isWritable n = true) :
    Text.isWritable (highHalf n) = true := by
  have hle : (highHalf n).natAbs ≤ n.natAbs := by
    rw [highHalf]
    omega
  exact decide_eq_true (hle.trans_lt (of_decide_eq_true h))

/-! ## Acts without interference -/

/-- The log with messages added. -/
def Log.sends (log : Log) (messages : List Message) : Log :=
  { log with sent := log.sent ++ messages.toArray }

@[simp] theorem Log.sends_nil (log : Log) : log.sends [] = log := by
  simp [Log.sends]

@[simp] theorem Log.sends_append (log : Log) (first second : List Message) :
    log.sends (first ++ second) = (log.sends first).sends second := by
  simp [Log.sends]

@[simp] theorem Log.toList_sent_sends (log : Log) (messages : List Message) :
    (log.sends messages).sent.toList = log.sent.toList ++ messages := by
  simp [Log.sends]

/-- The log with a report added. -/
def Log.reports (log : Log) (status : Status) : Log :=
  { log with reported := log.reported.push status }

@[simp] theorem Log.sent_reports (log : Log) (status : Status) :
    (log.reports status).sent = log.sent := rfl

/-- Carries out acts with a sink that takes everything, and nobody who cancels. -/
abbrev carryOut (acts : List Act) (log : Log) : Log × Option (Except Failure Status) :=
  perform (fun _ => none) (fun _ => false) acts log

section Acts

variable {m : Message} {messages : List Message} {rest : List Act} {log : Log}

theorem carryOut_send (h : m.Fits) :
    carryOut (.send m :: rest) log = carryOut rest (log.sends [m]) := by
  obtain ⟨s, hs⟩ := h.encode
  simp [perform, Act.effect, hs, Log.add, Log.sends]

theorem carryOut_send_wide (h : ¬m.Fits) :
    carryOut (.send m :: rest) log = (log, some (.error (.ofFault (.wideValue m.value)))) := by
  simp [perform, Act.effect, Message.encode_of_not_fits h, Log.add]

theorem carryOut_report (status : Status) :
    carryOut (.report status :: rest) log = carryOut rest (log.reports status) := by
  simp [perform, Act.effect, Log.add, Log.reports]

theorem carryOut_check (checksum : Int) :
    carryOut (.check checksum :: rest) log = carryOut rest log := by
  simp [perform, Act.effect, Log.add]

theorem carryOut_finish (status : Status) :
    carryOut [.finish status] log = (log.reports status, some (.ok status)) := by
  simp [perform, Act.effect, Log.add, Log.reports]

theorem carryOut_sends (h : ∀ m ∈ messages, m.Fits) :
    carryOut (messages.map .send ++ rest) log = carryOut rest (log.sends messages) := by
  induction messages generalizing log with
  | nil => simp
  | cons m messages ih =>
    have hm : m.Fits := h m List.mem_cons_self
    rw [List.map_cons, List.cons_append, carryOut_send hm,
      ih fun m' hm' => h m' (List.mem_cons_of_mem m hm'), ← Log.sends_append,
      List.singleton_append]

/-- Nothing that was sent is taken back. -/
theorem sent_isPrefix_perform {refusal : Nat → Option TransferFault} {cancelled : Nat → Bool}
    (acts : List Act) (log : Log) :
    log.sent.toList <+: (perform refusal cancelled acts log).1.sent.toList := by
  have hadd (log : Log) (e : Effect) : log.sent.toList <+: (log.add e).sent.toList := by
    cases hsent : e.sent with
    | none => simp [Log.add, hsent]
    | some m => simp [Log.add, hsent]
  induction acts generalizing log with
  | nil => exact List.prefix_rfl
  | cons act rest ih =>
    rw [perform]
    split
    · exact hadd log _
    · exact (hadd log _).trans (ih _)

end Acts

theorem sendAll_eq {delay : Delay} (h : ∃ x, delay.seconds = .ok x) (messages : List Message) :
    sendAll delay messages = messages.map .send := by
  obtain ⟨x, hx⟩ := h
  simp [sendAll, pause, hx, List.map_eq_flatMap]

/-! ## Pairs that can be sent -/

/-- What is known of the numbers that the sender remembers. -/
structure Sender.Valid (s : Sender) : Prop where
  checksum : 0 ≤ s.checksum ∧ s.checksum < 0x1000000
  high : ∀ h, s.high = some h → 0 ≤ h ∧ h ≤ 4095

/-- Whatever is sent for the pair fits: its value has 24 bits, and so has its address unless it
follows the last one. -/
def Sender.Sends (s : Sender) (w : Word) : Prop :=
  w.2 < 0x1000000 ∧ (s.follows w.1 = true ∨ w.1 < 0x1000000)

/-- The half at which a pair is refused that cannot be sent: the one of the address, unless the
address is left out or fits. -/
def Sender.refusedHalf (s : Sender) (w : Word) : Int :=
  if s.follows w.1 = true ∨ w.1 < 0x1000000 then highHalf w.2 else highHalf w.1

/-- The checksum that stands before a pair, if one does. -/
def Sender.dueMessages (s : Sender) : List Message :=
  if s.checksumDue then checksumMessages s.checksum else []

/-- The messages for a pair but the last one, which writes the value. -/
def leadMessages (s : Sender) (w : Word) : List Message :=
  s.dueMessages ++
    (if s.follows w.1 then [] else addressMessages w.1) ++
    (if s.high = some (highHalf w.2) then [] else [⟨.valueHigh, highHalf w.2⟩])

theorem pairMessages_eq (s : Sender) (w : Word) :
    pairMessages s w = leadMessages s w ++ [⟨.valueLow, lowHalf w.2⟩] := rfl

theorem valueLow_not_mem_leadMessages (s : Sender) (w : Word) :
    ∀ m ∈ leadMessages s w, m.command ≠ .valueLow := by
  rw [leadMessages, List.forall_mem_append, List.forall_mem_append]
  refine ⟨⟨?_, ?_⟩, ?_⟩
  · unfold Sender.dueMessages
    split <;> simp [checksumMessages]
  · split <;> simp [addressMessages]
  · split <;> simp

theorem Sender.valid_start : Sender.start.Valid := ⟨by decide, nofun⟩

theorem Sender.Valid.after {s : Sender} {w : Word} (hvalue : 0 ≤ w.2 ∧ w.2 < 0x1000000) :
    (s.after w).Valid := by
  constructor
  · simp only [Sender.after, addToChecksum]
    omega
  · intro h hh
    rw [← Option.some.inj hh]
    exact (highHalf_bounds_iff w.2).mpr hvalue

theorem checksumMessages_fit {checksum : Int} (h : 0 ≤ checksum ∧ checksum < 0x1000000) :
    ∀ m ∈ checksumMessages checksum, m.Fits := by
  simp only [checksumMessages, List.forall_mem_cons]
  exact ⟨(highHalf_bounds_iff checksum).mpr h, lowHalf_bounds checksum, by simp⟩

theorem dueMessages_fit {s : Sender} (hs : s.Valid) : ∀ m ∈ s.dueMessages, m.Fits := by
  unfold Sender.dueMessages
  split
  · exact checksumMessages_fit hs.checksum
  · simp

theorem addressMessages_fit_iff {address : Int} (h : 0 ≤ address) :
    (∀ m ∈ addressMessages address, m.Fits) ↔ address < 0x1000000 := by
  have hhigh := highHalf_bounds_iff address
  have hzero : Message.Fits ⟨.unlockAddress, 0⟩ := by decide
  have hlow : Message.Fits ⟨.addressLow, lowHalf address⟩ := lowHalf_bounds address
  simp only [addressMessages, List.forall_mem_cons, hzero, hlow, true_and]
  simp only [Message.Fits, hhigh, h, true_and]
  simp

/-- What is sent before the value of a pair fits exactly if the pair can be sent. -/
theorem leadMessages_fit_iff {s : Sender} (hs : s.Valid) {w : Word} (hw : 0 ≤ w.1 ∧ 0 ≤ w.2) :
    (∀ m ∈ leadMessages s w, m.Fits) ↔ s.Sends w := by
  have haddress : (∀ m ∈ (if s.follows w.1 then [] else addressMessages w.1), m.Fits) ↔
      (s.follows w.1 = true ∨ w.1 < 0x1000000) := by
    split
    · rename_i hfollows
      simp [hfollows]
    · rename_i hfollows
      simp [hfollows, addressMessages_fit_iff hw.1]
  -- a high half that is not sent again was sent before, so it fits
  have hvalue : (∀ m ∈ (if s.high = some (highHalf w.2) then []
      else [(⟨.valueHigh, highHalf w.2⟩ : Message)]), m.Fits) ↔ w.2 < 0x1000000 := by
    have hhigh := highHalf_bounds_iff w.2
    split
    · rename_i hsame
      have := hhigh.mp (hs.high _ hsame)
      simp [this.2]
    · simp only [List.forall_mem_singleton, Message.Fits, hhigh, hw.2, true_and]
  rw [leadMessages, List.forall_mem_append, List.forall_mem_append, haddress, hvalue,
    and_iff_right (dueMessages_fit hs), and_comm]
  rfl

/-- The first message that does not fit, of those for a pair that cannot be sent. -/
theorem exists_refused {s : Sender} (hs : s.Valid) {w : Word} (hw : 0 ≤ w.1 ∧ 0 ≤ w.2)
    (hsends : ¬s.Sends w) :
    ∃ part m more, leadMessages s w = part ++ m :: more ∧ (∀ m' ∈ part, m'.Fits) ∧ ¬m.Fits ∧
      m.value = s.refusedHalf w := by
  by_cases haddress : s.follows w.1 = true ∨ w.1 < 0x1000000
  · have hvalue : ¬w.2 < 0x1000000 := fun hvalue => hsends ⟨hvalue, haddress⟩
    have hwide : ¬Message.Fits ⟨.valueHigh, highHalf w.2⟩ := by
      simpa only [Message.Fits, highHalf_bounds_iff, hw.2, true_and]
    -- a high half that was sent before fits, so this one is sent
    have hhigh : s.high ≠ some (highHalf w.2) := fun hsame => hwide (hs.high _ hsame)
    refine ⟨_, ⟨.valueHigh, highHalf w.2⟩, [], by rw [leadMessages, if_neg hhigh], ?_, hwide, ?_⟩
    · refine List.forall_mem_append.mpr ⟨dueMessages_fit hs, ?_⟩
      split
      · simp
      · rename_i hfollows
        exact (addressMessages_fit_iff hw.1).mpr (haddress.resolve_left hfollows)
    · rw [Sender.refusedHalf, if_pos haddress]
  · obtain ⟨hfollows, hlarge⟩ := not_or.mp haddress
    have hwide : ¬Message.Fits ⟨.addressHigh, highHalf w.1⟩ := by
      simpa only [Message.Fits, highHalf_bounds_iff, hw.1, true_and]
    have hlead : leadMessages s w = (s.dueMessages ++
        [⟨.unlockAddress, 0⟩, ⟨.addressLow, lowHalf w.1⟩]) ++ ⟨.addressHigh, highHalf w.1⟩ ::
          (if s.high = some (highHalf w.2) then [] else [⟨.valueHigh, highHalf w.2⟩]) := by
      rw [leadMessages, if_neg hfollows, addressMessages]
      simp
    refine ⟨_, _, _, hlead, ?_, hwide, ?_⟩
    · refine List.forall_mem_append.mpr ⟨dueMessages_fit hs, ?_⟩
      simp only [List.forall_mem_cons]
      exact ⟨by decide, lowHalf_bounds w.1, List.forall_mem_nil _⟩
    · rw [Sender.refusedHalf, if_neg haddress]

theorem pairMessages_fit {s : Sender} (hs : s.Valid) {w : Word} (hw : 0 ≤ w.1 ∧ 0 ≤ w.2)
    (hsends : s.Sends w) : ∀ m ∈ pairMessages s w, m.Fits := by
  rw [pairMessages_eq, List.forall_mem_append]
  exact ⟨(leadMessages_fit_iff hs hw).mpr hsends,
    List.forall_mem_singleton.mpr (lowHalf_bounds w.2)⟩

/-! ## One pair -/

section Pair

variable {delay : Delay} {total : Nat} {s : Sender}

/-- The acts for a pair are a report, its messages and a check. -/
theorem pairActs_eq (hdelay : delay.Feasible total) (hindex : s.index < total) (w : Word) :
    ∃ status : Status, pairActs delay total s w =
      Act.report status :: (pairMessages s w).map .send ++ [Act.check (s.after w).checksum] := by
  obtain ⟨text, htext⟩ := hdelay.report s.index hindex
  refine ⟨⟨.sending, text, s.checksum⟩, ?_⟩
  simp only [pairActs, announce, htext, sendAll_eq hdelay.pause]

/-- A pair that can be sent is sent. -/
theorem carryOut_pairActs (hdelay : delay.Feasible total) (hindex : s.index < total)
    (hs : s.Valid) {w : Word} (hw : 0 ≤ w.1 ∧ 0 ≤ w.2) (hsends : s.Sends w) (rest : List Act)
    (log : Log) :
    ∃ log', log'.sent.toList = log.sent.toList ++ pairMessages s w ∧
      carryOut (pairActs delay total s w ++ rest) log = carryOut rest log' := by
  obtain ⟨status, hacts⟩ := pairActs_eq hdelay hindex w
  refine ⟨(log.reports status).sends (pairMessages s w), by simp, ?_⟩
  rw [hacts, List.append_assoc, List.cons_append, carryOut_report,
    carryOut_sends (pairMessages_fit hs hw hsends), List.singleton_append, carryOut_check]

/-- A pair that cannot be sent is refused before its value is written. -/
theorem carryOut_pairActs_refused (hdelay : delay.Feasible total) (hindex : s.index < total)
    (hs : s.Valid) {w : Word} (hw : 0 ≤ w.1 ∧ 0 ≤ w.2) (hsends : ¬s.Sends w) (rest : List Act)
    (log : Log) :
    ∃ log' part, part <+: leadMessages s w ∧
      log'.sent.toList = log.sent.toList ++ part ∧
      carryOut (pairActs delay total s w ++ rest) log =
        (log', some (.error (.ofFault (.wideValue (s.refusedHalf w))))) := by
  obtain ⟨part, m, more, hsplit, hpart, hwide, hvalue⟩ := exists_refused hs hw hsends
  obtain ⟨status, hacts⟩ := pairActs_eq hdelay hindex w
  refine ⟨(log.reports status).sends part, part, ?_, by simp, ?_⟩
  · rw [hsplit]
    exact List.prefix_append part (m :: more)
  · rw [hacts, pairMessages_eq, hsplit]
    simp only [List.map_append, List.map_cons, List.append_assoc, List.cons_append]
    rw [carryOut_report, carryOut_sends hpart, carryOut_send_wide hwide, hvalue]

end Pair

/-! ## Runs of pairs -/

/-- The sender after some pairs. -/
def Sender.afterAll (s : Sender) (words : List Word) : Sender := words.foldl Sender.after s

/-- The messages for some pairs. -/
def pairsMessages : Sender → List Word → List Message
  | _, [] => []
  | s, w :: ws => pairMessages s w ++ pairsMessages (s.after w) ws

/-- Every pair can be sent when its turn comes. -/
def Sender.SendsAll : Sender → List Word → Prop
  | _, [] => True
  | s, w :: ws => s.Sends w ∧ (s.after w).SendsAll ws

/-- Addresses and values are not negative. -/
def Natural (words : List Word) : Prop := ∀ w ∈ words, 0 ≤ w.1 ∧ 0 ≤ w.2

theorem Natural.tail {w : Word} {ws : List Word} (h : Natural (w :: ws)) : Natural ws :=
  fun v hv => h v (List.mem_cons_of_mem w hv)

/-- A pair of numbers of 24 bits. -/
def FitsRegisters (w : Word) : Prop :=
  (0 ≤ w.1 ∧ w.1 < 0x1000000) ∧ (0 ≤ w.2 ∧ w.2 < 0x1000000)

/-- Pairs of 24 bits can be sent, wherever they stand. -/
theorem Sender.sendsAll_of_fits (s : Sender) {words : List Word}
    (h : ∀ w ∈ words, FitsRegisters w) : s.SendsAll words := by
  induction words generalizing s with
  | nil => exact trivial
  | cons w ws ih =>
    have hw := h w List.mem_cons_self
    exact ⟨⟨hw.2.2, Or.inr hw.1.2⟩, ih _ fun v hv => h v (List.mem_cons_of_mem w hv)⟩

theorem natural_of_fits {words : List Word} (h : ∀ w ∈ words, FitsRegisters w) : Natural words :=
  fun w hw => ⟨(h w hw).1.1, (h w hw).2.1⟩

/-- The sender after pairs that could be sent. -/
theorem Sender.Valid.afterAll {s : Sender} (hs : s.Valid) {words : List Word}
    (hnatural : Natural words) (hsends : s.SendsAll words) : (s.afterAll words).Valid := by
  induction words generalizing s with
  | nil => exact hs
  | cons w ws ih =>
    have hw := hnatural w List.mem_cons_self
    exact ih (.after ⟨hw.2, hsends.1.1⟩) hnatural.tail hsends.2

theorem Sender.index_afterAll (s : Sender) (words : List Word) :
    (s.afterAll words).index = s.index + words.length := by
  induction words generalizing s with
  | nil => rfl
  | cons w ws ih =>
    have hstep : (s.afterAll (w :: ws)).index = ((s.after w).afterAll ws).index := rfl
    rw [hstep, ih, List.length_cons]
    simp only [Sender.after]
    omega

theorem Sender.afterAll_concat (s : Sender) (words : List Word) (w : Word) :
    s.afterAll (words ++ [w]) = (s.afterAll words).after w := by
  simp [Sender.afterAll]

theorem pairsMessages_concat (s : Sender) (words : List Word) (w : Word) :
    pairsMessages s (words ++ [w]) =
      pairsMessages s words ++ pairMessages (s.afterAll words) w := by
  induction words generalizing s with
  | nil => simp [pairsMessages, Sender.afterAll]
  | cons v vs ih =>
    rw [List.cons_append, pairsMessages, ih, pairsMessages, List.append_assoc]
    rfl

theorem Sender.SendsAll.concat {s : Sender} {words : List Word} {w : Word}
    (hwords : s.SendsAll words) (hw : (s.afterAll words).Sends w) : s.SendsAll (words ++ [w]) := by
  induction words generalizing s with
  | nil => exact ⟨hw, trivial⟩
  | cons v vs ih => exact ⟨hwords.1, ih hwords.2 hw⟩

/-- The messages for pairs that can be sent fit. -/
theorem pairsMessages_fit {s : Sender} (hs : s.Valid) {words : List Word}
    (hnatural : Natural words) (hsends : s.SendsAll words) :
    ∀ m ∈ pairsMessages s words, m.Fits := by
  induction words generalizing s with
  | nil => simp [pairsMessages]
  | cons w ws ih =>
    have hw := hnatural w List.mem_cons_self
    rw [pairsMessages, List.forall_mem_append]
    exact ⟨pairMessages_fit hs hw hsends.1,
      ih (.after ⟨hw.2, hsends.1.1⟩) hnatural.tail hsends.2⟩

/-- Pairs that can be sent are sent one after the other. -/
theorem carryOut_pairs {delay : Delay} {total : Nat} (hdelay : delay.Feasible total)
    (rest : List Word) {before : List Word} {s : Sender} (log : Log) (hs : s.Valid)
    (hnatural : Natural before) (hindex : s.index + before.length ≤ total)
    (hsends : s.SendsAll before) :
    ∃ log', log'.sent.toList = log.sent.toList ++ pairsMessages s before ∧
      carryOut (actsFrom delay total s (before ++ rest)) log =
        carryOut (actsFrom delay total (s.afterAll before) rest) log' := by
  induction before generalizing s log with
  | nil => exact ⟨log, by simp [pairsMessages], rfl⟩
  | cons w ws ih =>
    rw [List.length_cons] at hindex
    have hw := hnatural w List.mem_cons_self
    have hindex' : (s.after w).index + ws.length ≤ total := by
      simp only [Sender.after]
      omega
    obtain ⟨log₁, hsent₁, hcarry₁⟩ := carryOut_pairActs hdelay (by omega) hs hw hsends.1
      (actsFrom delay total (s.after w) (ws ++ rest)) log
    obtain ⟨log₂, hsent₂, hcarry₂⟩ := ih log₁ (.after ⟨hw.2, hsends.1.1⟩) hnatural.tail hindex'
      hsends.2
    refine ⟨log₂, ?_, ?_⟩
    · rw [hsent₂, hsent₁, pairsMessages, List.append_assoc]
    · rw [List.cons_append, actsFrom, hcarry₁, hcarry₂]
      rfl

/-! ## Whole transfers -/

section Transfers

variable {delay : Delay} {words : List Word}

/-- The messages up to those of the last pair. -/
def streamMessages (words : List Word) : List Message :=
  ⟨.resetChecksum, 0⟩ :: pairsMessages Sender.start words

/-- The report that all pairs are sent. -/
def completeStatus (words : List Word) : Status :=
  let total := words.length
  ⟨.complete, s!"Sent {total} values", (Sender.start.afterAll words).checksum⟩

/-- A transfer without interference. -/
abbrev transfer (delay : Delay) (words : List Word) : Log × Option (Except Failure Status) :=
  writeWords delay (fun _ => none) (fun _ => false) words

/-- As long as all pairs can be sent, the transfer goes on. -/
theorem transfer_eq_carryOut (hdelay : delay.Feasible words.length) {before rest : List Word}
    (hwords : words = before ++ rest) (hnatural : Natural before)
    (hsends : Sender.start.SendsAll before) :
    ∃ log, log.sent.toList = streamMessages before ∧
      transfer delay words =
        carryOut (actsFrom delay words.length (Sender.start.afterAll before) rest) log := by
  have hreset : ∀ m ∈ [(⟨.resetChecksum, 0⟩ : Message)], m.Fits := by decide
  have hindex : Sender.start.index + before.length ≤ words.length := by
    simp [hwords, Sender.start]
  obtain ⟨log, hsent, hcarry⟩ := carryOut_pairs hdelay rest
    ((⟨#[], #[]⟩ : Log).sends [⟨.resetChecksum, 0⟩]) Sender.valid_start hnatural hindex hsends
  have hacts : transfer delay words =
      carryOut ([(⟨.resetChecksum, 0⟩ : Message)].map .send ++
        actsFrom delay words.length Sender.start words) ⟨#[], #[]⟩ := by
    rw [transfer, writeWords, acts, sendAll_eq hdelay.pause]
  refine ⟨log, by simpa [streamMessages] using hsent, ?_⟩
  rw [hacts, carryOut_sends hreset, ← hcarry, ← hwords]

/-- If every pair can be sent, the transfer completes. -/
theorem transfer_of_sendsAll (hdelay : delay.Feasible words.length) (hnatural : Natural words)
    (hsends : Sender.start.SendsAll words) :
    ∃ log, log.sent.toList = streamMessages words ++
        checksumMessages (Sender.start.afterAll words).checksum ∧
      transfer delay words = (log, some (.ok (completeStatus words))) := by
  obtain ⟨log, hsent, hcarry⟩ := transfer_eq_carryOut hdelay (List.append_nil words).symm hnatural
    hsends
  have hvalid := Sender.valid_start.afterAll hnatural hsends
  have hfit := checksumMessages_fit hvalid.checksum
  refine ⟨(log.sends (checksumMessages (Sender.start.afterAll words).checksum)).reports
    (completeStatus words), by simp [hsent], ?_⟩
  rw [hcarry, actsFrom, sendAll_eq hdelay.pause, carryOut_sends hfit, carryOut_finish]
  rfl

/-- The first pair that cannot be sent ends the transfer before its value is written. -/
theorem transfer_of_not_sends (hdelay : delay.Feasible words.length) {before after : List Word}
    {w : Word} (hwords : words = before ++ w :: after) (hnatural : Natural words)
    (hsends : Sender.start.SendsAll before) (hw : ¬(Sender.start.afterAll before).Sends w) :
    ∃ log part, part <+: leadMessages (Sender.start.afterAll before) w ∧
      log.sent.toList = streamMessages before ++ part ∧
      transfer delay words = (log, some (.error
        (.ofFault (.wideValue ((Sender.start.afterAll before).refusedHalf w))))) := by
  have hbefore : Natural before := fun v hv => hnatural v (by simp [hwords, hv])
  obtain ⟨log, hsent, hcarry⟩ := transfer_eq_carryOut hdelay hwords hbefore hsends
  have hvalid := Sender.valid_start.afterAll hbefore hsends
  have hindex : (Sender.start.afterAll before).index < words.length := by
    rw [Sender.index_afterAll, hwords]
    simp [Sender.start]
  obtain ⟨log', part, hpart, hsent', hrefused⟩ := carryOut_pairActs_refused hdelay hindex
    hvalid (hnatural w (by simp [hwords])) hw
    (actsFrom delay words.length ((Sender.start.afterAll before).after w) after) log
  refine ⟨log', part, hpart, by rw [hsent', hsent], ?_⟩
  rw [hcarry, actsFrom, hrefused]

end Transfers

end PocketAsm.Transfer
