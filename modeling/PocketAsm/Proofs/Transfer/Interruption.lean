/-
  Proofs/Transfer/Interruption.lean --- what a transfer leaves that does not complete.

  A transfer carries out the acts of one pair after the other.  What the acts
  of a single pair can come to is said once (`perform_pairActs`); pairs that
  were passed leave their messages and their reports and were not cancelled
  (`Passed`).  A transfer that ends early ends while one pair is being handled
  (`EndsAt`): what the sink took and what was reported is that of the pairs
  before, and of the one pair what its acts had come to.  It fails by a fault of
  the sink or of a message (`Failure.OfFault`), or by a delay that cannot be
  kept; the two are never the same failure (`Failure.OfFault.ne_arithmetic`).
-/
import PocketAsm.Proofs.Transfer.Delivery

set_option autoImplicit false

namespace PocketAsm.Transfer

/-! ## Failures -/

/-- The failure is that of a fault, of the sink or of a message, whether or not the fault can be put
into words. -/
def Failure.OfFault (e : Failure) : Prop :=
  ∃ fault, e = .transfer fault ∨ e = .ofFault fault

theorem Failure.OfFault.transfer (fault : TransferFault) : (Failure.transfer fault).OfFault :=
  ⟨fault, .inl rfl⟩

/-- It is not that of a computation without a result. -/
theorem Failure.OfFault.ne_arithmetic {e : Failure} (h : e.OfFault) {reason : NumberFault}
    (hreason : reason ≠ .longNumber) : e ≠ .arithmetic reason := by
  rintro rfl
  obtain ⟨fault, h | h⟩ := h
  · cases h
  · obtain hfault | hfault := Failure.ofFault_cases fault
    · cases h.trans hfault
    · exact hreason (Failure.arithmetic.inj (h.trans hfault))

section Runs

variable {refusal : Nat → Option TransferFault} {cancelled : Nat → Bool} {delay : Delay}

/-! ## Acts in sequence -/

/-- Further acts are carried out unless one of the first ends the transfer. -/
theorem perform_append (first second : List Act) (log : Log) :
    perform refusal cancelled (first ++ second) log =
      match perform refusal cancelled first log with
      | (log', none) => perform refusal cancelled second log'
      | (log', some outcome) => (log', some outcome) := by
  induction first generalizing log with
  | nil => rfl
  | cons act first ih =>
    rw [List.cons_append, perform, perform]
    cases (act.effect (refusal log.sent.size) (cancelled log.sent.size)).outcome with
    | some outcome => rfl
    | none => exact ih _

/-- The first of two sequences of acts ends the transfer, or the second is carried out behind it. -/
theorem perform_append_cases {first second : List Act} {log log' : Log}
    {out : Option (Except Failure Status)}
    (h : perform refusal cancelled (first ++ second) log = (log', out)) :
    (∃ outcome, out = some outcome ∧ perform refusal cancelled first log = (log', some outcome)) ∨
    ∃ between, perform refusal cancelled first log = (between, none) ∧
      perform refusal cancelled second between = (log', out) := by
  rw [perform_append] at h
  cases hfirst : perform refusal cancelled first log with
  | mk between ended =>
    rw [hfirst] at h
    cases ended with
    | none => exact .inr ⟨between, rfl, h⟩
    | some outcome =>
      obtain ⟨rfl, rfl⟩ := Prod.mk.inj h
      exact .inl ⟨outcome, rfl, rfl⟩

/-- A message is sent, or it ends the transfer. -/
theorem perform_send (m : Message) (rest : List Act) (log : Log) :
    (∃ e, Failure.OfFault e ∧
      perform refusal cancelled (.send m :: rest) log = (log, some (.error e))) ∨
    perform refusal cancelled (.send m :: rest) log =
      perform refusal cancelled rest (log.sends [m]) := by
  rw [perform]
  cases hencode : m.encode with
  | error e => exact .inl ⟨_, ⟨e, .inr rfl⟩, by simp [Act.effect, hencode, Log.add]⟩
  | ok s =>
    cases hrefusal : refusal log.sent.size with
    | some e =>
      exact .inl ⟨_, Failure.OfFault.transfer e, by simp [Act.effect, hencode, Log.add]⟩
    | none => exact .inr (by simp [Act.effect, hencode, Log.add, Log.sends])

/-- A pause takes its time, or ends the transfer because it cannot be computed. -/
theorem perform_pause (delay : Delay) (rest : List Act) (log : Log) :
    (∃ reason, reason ≠ .longNumber ∧ perform refusal cancelled (pause delay ++ rest) log =
      (log, some (.error (.arithmetic reason)))) ∨
    perform refusal cancelled (pause delay ++ rest) log = perform refusal cancelled rest log := by
  rw [pause]
  cases hseconds : delay.seconds with
  | error reason =>
    have hreason : reason ≠ .longNumber := fun h => delay.seconds_ne_longNumber (h ▸ hseconds)
    exact .inl ⟨reason, hreason, by simp [perform, Act.effect, Log.add]⟩
  | ok x => exact .inr rfl

/-- The acts that send messages send all of them, or end the transfer at one that is not sent. -/
theorem perform_sendAll (messages : List Message) {log log' : Log}
    {out : Option (Except Failure Status)}
    (h : perform refusal cancelled (sendAll delay messages) log = (log', out)) :
    (∃ reason, reason ≠ .longNumber ∧ out = some (.error (.arithmetic reason))) ∨
    (∃ e part m more, Failure.OfFault e ∧ messages = part ++ m :: more ∧
      log' = log.sends part ∧ out = some (.error e)) ∨
    (log' = log.sends messages ∧ out = none) := by
  induction messages generalizing log with
  | nil =>
    obtain ⟨rfl, rfl⟩ := Prod.mk.inj h
    exact .inr (.inr ⟨by simp, rfl⟩)
  | cons m messages ih =>
    have hacts : sendAll delay (m :: messages) =
        .send m :: (pause delay ++ sendAll delay messages) := rfl
    rw [hacts] at h
    obtain ⟨e, he, hsend⟩ | hsend := perform_send m (pause delay ++ sendAll delay messages) log
    · rw [hsend] at h
      obtain ⟨rfl, rfl⟩ := Prod.mk.inj h
      exact .inr (.inl ⟨e, [], m, messages, he, rfl, by simp, rfl⟩)
    obtain ⟨reason, hreason, hpause⟩ | hpause :=
      perform_pause delay (sendAll delay messages) (log.sends [m])
    · rw [hsend, hpause] at h
      exact .inl ⟨reason, hreason, (Prod.mk.inj h).2.symm⟩
    rw [hsend, hpause] at h
    obtain harithmetic | ⟨e, part, n, more, he, hsplit, hlog, hout⟩ | ⟨hlog, hout⟩ := ih h
    · exact .inl harithmetic
    · exact .inr (.inl ⟨e, m :: part, n, more, he, by rw [hsplit]; rfl,
        by rw [hlog, ← Log.sends_append]; rfl, hout⟩)
    · exact .inr (.inr ⟨by rw [hlog, ← Log.sends_append]; rfl, hout⟩)

/-- Without a number that cannot be computed only a message ends the transfer with a fault. -/
theorem ofFault_of_perform {acts : List Act} (hacts : ∀ e, Act.giveUp e ∉ acts)
    {log log' : Log} {e : Failure}
    (h : perform refusal cancelled acts log = (log', some (.error e))) :
    e.OfFault := by
  induction acts generalizing log with
  | nil => cases h
  | cons act rest ih =>
    have hrest : ∀ e, Act.giveUp e ∉ rest := fun e he => hacts e (List.mem_cons_of_mem act he)
    cases act with
    | send m =>
      obtain ⟨e', he', hsend⟩ | hsend := perform_send m rest log
      · rw [hsend] at h
        exact Except.error.inj (Option.some.inj (Prod.mk.inj h).2) ▸ he'
      · exact ih hrest (hsend ▸ h)
    | report status => exact ih hrest h
    | check checksum =>
      rw [perform, Act.effect] at h
      split at h
      · rename_i houtcome
        split at houtcome <;> simp_all
      · exact ih hrest h
    | finish status => cases h
    | giveUp fault => exact absurd List.mem_cons_self (hacts fault)

/-! ## One pair -/

theorem perform_check (checksum : Int) (log : Log) :
    perform refusal cancelled [.check checksum] log =
      if cancelled log.sent.size then
        (log.reports (cancelledAt checksum), some (.ok (cancelledAt checksum)))
      else (log, none) := by
  cases hcancelled : cancelled log.sent.size <;>
    simp [perform, Act.effect, Log.add, Log.reports, hcancelled]

/-- All that the acts for a pair can come to: after the report, a message is not sent, or the
transfer is cancelled behind the last one, or it goes on.  A delay that cannot be kept ends it
anywhere. -/
theorem perform_pairActs {total : Nat} {s : Sender} {w : Word} {log log' : Log}
    {out : Option (Except Failure Status)}
    (h : perform refusal cancelled (pairActs delay total s w) log = (log', out)) :
    (∃ reason, reason ≠ .longNumber ∧ out = some (.error (.arithmetic reason))) ∨
    ∃ text, progressText s.index total delay = .ok text ∧
      let announced := log.reports ⟨.sending, text, s.checksum⟩
      let handled := announced.sends (pairMessages s w)
      let final := cancelledAt (s.after w).checksum
      (∃ e part, Failure.OfFault e ∧ part <+: leadMessages s w ∧ log' = announced.sends part ∧
        out = some (.error e)) ∨
      (cancelled handled.sent.size = true ∧ log' = handled.reports final ∧
        out = some (.ok final)) ∨
      (cancelled handled.sent.size = false ∧ log' = handled ∧ out = none) := by
  rw [pairActs, announce] at h
  cases htext : progressText s.index total delay with
  | error reason =>
    have hreason : reason ≠ .longNumber := fun h =>
      progressText_ne_longNumber s.index total delay (h ▸ htext)
    rw [htext] at h
    exact .inl ⟨reason, hreason, (Prod.mk.inj h).2.symm⟩
  | ok text =>
    have hreport : perform refusal cancelled (.report ⟨.sending, text, s.checksum⟩ ::
        sendAll delay (pairMessages s w) ++ [Act.check (s.after w).checksum]) log =
        perform refusal cancelled (sendAll delay (pairMessages s w) ++
          [Act.check (s.after w).checksum]) (log.reports ⟨.sending, text, s.checksum⟩) := rfl
    rw [htext, hreport] at h
    obtain ⟨outcome, rfl, hsend⟩ | ⟨sent, hsend, hcheck⟩ := perform_append_cases h
    · obtain hreason | ⟨e, part, m, more, he, hsplit, rfl, hout⟩ | ⟨-, hout⟩ :=
        perform_sendAll _ hsend
      · exact .inl hreason
      · refine .inr ⟨text, rfl, .inl ⟨e, part, he, ?_, rfl, hout⟩⟩
        -- the message that is not sent is the value at the latest
        have hprefix : part <+: leadMessages s w ++ [⟨.valueLow, lowHalf w.2⟩] :=
          ⟨m :: more, by rw [← hsplit, pairMessages_eq]⟩
        obtain rfl | hlead := List.prefix_concat_iff.mp hprefix
        · rw [pairMessages_eq] at hsplit
          exact absurd (congrArg List.length hsplit) (by simp)
        · exact hlead
      · cases hout
    · obtain ⟨_, -, hout⟩ | ⟨e, part, m, more, -, -, -, hout⟩ | ⟨rfl, -⟩ := perform_sendAll _ hsend
      · cases hout
      · cases hout
      · refine .inr ⟨text, rfl, .inr ?_⟩
        rw [perform_check] at hcheck
        split at hcheck
        · rename_i hcancelled
          obtain ⟨rfl, rfl⟩ := Prod.mk.inj hcheck
          exact .inl ⟨hcancelled, rfl, rfl⟩
        · rename_i hcancelled
          obtain ⟨rfl, rfl⟩ := Prod.mk.inj hcheck
          exact .inr ⟨by simpa using hcancelled, rfl, rfl⟩

/-! ## Pairs before -/

/-- The acts for some pairs. -/
def pairsActs (delay : Delay) (total : Nat) : Sender → List Word → List Act
  | _, [] => []
  | s, w :: ws => pairActs delay total s w ++ pairsActs delay total (s.after w) ws

/-- The acts of a transfer before the pair with the given position. -/
def actsBefore (delay : Delay) (words : List Word) (k : Nat) : List Act :=
  sendAll delay [⟨.resetChecksum, 0⟩] ++
    pairsActs delay words.length Sender.start (words.take k)

theorem pairsActs_append (total : Nat) (s : Sender) (first second : List Word) :
    pairsActs delay total s (first ++ second) =
      pairsActs delay total s first ++ pairsActs delay total (s.afterAll first) second := by
  induction first generalizing s with
  | nil => rfl
  | cons w ws ih =>
    rw [List.cons_append, pairsActs, ih, pairsActs, List.append_assoc]
    rfl

theorem actsFrom_append (total : Nat) (s : Sender) (first second : List Word) :
    actsFrom delay total s (first ++ second) =
      pairsActs delay total s first ++ actsFrom delay total (s.afterAll first) second := by
  induction first generalizing s with
  | nil => rfl
  | cons w ws ih =>
    rw [List.cons_append, actsFrom, ih, pairsActs, List.append_assoc]
    rfl

theorem acts_eq_actsBefore_append (words : List Word) (k : Nat) :
    acts delay words = actsBefore delay words k ++
      actsFrom delay words.length (Sender.start.afterAll (words.take k)) (words.drop k) := by
  rw [actsBefore, List.append_assoc, ← actsFrom_append, List.take_append_drop]
  rfl

theorem take_succ_eq {words : List Word} {k : Nat} {w : Word} (h : words[k]? = some w) :
    words.take (k + 1) = words.take k ++ [w] := by
  rw [List.take_add_one, h]
  rfl

theorem actsBefore_succ {words : List Word} {k : Nat} {w : Word} (h : words[k]? = some w) :
    actsBefore delay words (k + 1) = actsBefore delay words k ++
      pairActs delay words.length (Sender.start.afterAll (words.take k)) w := by
  rw [actsBefore, take_succ_eq h, pairsActs_append, ← List.append_assoc, pairsActs, pairsActs,
    List.append_nil]
  rfl

/-- The report before each of the first pairs, with the checksum of the pairs before it. -/
def Announced (delay : Delay) (words : List Word) (k : Nat) (reports : List Status) : Prop :=
  List.Forall₂ (fun (j : Nat) report => ∃ text, progressText j words.length delay = .ok text ∧
    report = ⟨.sending, text, checksumOf (words.take j)⟩) (List.range k) reports

/-- The first pairs were sent, and none of their closing checks saw the transfer cancelled. -/
structure Passed (cancelled : Nat → Bool) (delay : Delay) (words : List Word) (k : Nat)
    (log : Log) : Prop where
  sent : log.sent.toList = streamMessages (words.take k)
  reported : Announced delay words k log.reported.toList
  unseen : ∀ j < k, cancelled (streamMessages (words.take (j + 1))).length = false

theorem streamMessages_concat (before : List Word) (w : Word) :
    streamMessages (before ++ [w]) =
      streamMessages before ++ pairMessages (Sender.start.afterAll before) w := by
  rw [streamMessages, pairsMessages_concat]
  rfl

section Pair

variable {words : List Word} {k : Nat} {w : Word} {log : Log}

theorem index_start_afterAll (h : words[k]? = some w) :
    (Sender.start.afterAll (words.take k)).index = k := by
  have hk : k < words.length := (List.getElem?_eq_some_iff.mp h).1
  rw [Sender.index_afterAll, List.length_take, Nat.min_eq_left hk.le]
  exact Nat.zero_add k

/-- The report before the next pair goes on the reports before. -/
theorem Passed.announce (h : Passed cancelled delay words k log) {text : String}
    (htext : progressText k words.length delay = .ok text) :
    Announced delay words (k + 1) (log.reports ⟨.sending, text,
      (Sender.start.afterAll (words.take k)).checksum⟩).reported.toList := by
  rw [Announced, List.range_succ, Log.reports, Array.toList_push]
  exact List.rel_append h.reported
    (.cons ⟨text, htext, by rw [checksum_start_afterAll]⟩ .nil)

/-- The next pair is passed if its closing check does not see the transfer cancelled. -/
theorem Passed.succ (h : Passed cancelled delay words k log) (hw : words[k]? = some w)
    {text : String} (htext : progressText k words.length delay = .ok text) {log' : Log}
    (hlog' : log' = (log.reports ⟨.sending, text,
      (Sender.start.afterAll (words.take k)).checksum⟩).sends
        (pairMessages (Sender.start.afterAll (words.take k)) w))
    (hcheck : cancelled log'.sent.size = false) : Passed cancelled delay words (k + 1) log' := by
  have hsent : log'.sent.toList = streamMessages (words.take (k + 1)) := by
    rw [hlog', Log.toList_sent_sends, Log.sent_reports, h.sent, take_succ_eq hw,
      streamMessages_concat]
  refine ⟨hsent, by rw [hlog']; exact h.announce htext, fun j hj => ?_⟩
  rcases Nat.lt_succ_iff_lt_or_eq.mp hj with hj | rfl
  · exact h.unseen j hj
  · rw [← hsent, Array.length_toList, hcheck]

end Pair

/-- Acts that do not end the transfer leave the pairs passed. -/
theorem passed_of_perform {words : List Word} :
    ∀ {k : Nat} {log : Log}, k ≤ words.length →
      perform refusal cancelled (actsBefore delay words k) ⟨#[], #[]⟩ = (log, none) →
      Passed cancelled delay words k log := by
  intro k
  induction k with
  | zero =>
    intro log _ h
    rw [actsBefore, List.take_zero, pairsActs, List.append_nil] at h
    obtain ⟨_, -, hout⟩ | ⟨e, part, m, more, -, -, -, hout⟩ | ⟨rfl, -⟩ := perform_sendAll _ h
    · cases hout
    · cases hout
    · exact ⟨rfl, .nil, fun j hj => absurd hj (Nat.not_lt_zero j)⟩
  | succ k ih =>
    intro log hk h
    obtain ⟨w, hw⟩ : ∃ w, words[k]? = some w := ⟨_, List.getElem?_eq_getElem hk⟩
    rw [actsBefore_succ hw] at h
    obtain ⟨outcome, he, -⟩ | ⟨log₀, hbefore, hacts⟩ := perform_append_cases h
    · cases he
    have hpassed := ih (Nat.le_of_succ_le hk) hbefore
    obtain ⟨_, -, hout⟩ | ⟨text, htext, hpair⟩ := perform_pairActs hacts
    · cases hout
    rw [index_start_afterAll hw] at htext
    obtain ⟨e, part, -, -, -, hout⟩ | ⟨-, -, hout⟩ | ⟨hcheck, hlog, -⟩ := hpair
    · cases hout
    · cases hout
    · exact hpassed.succ hw htext hlog (hlog ▸ hcheck)

/-! ## Writes -/

/-- The messages that write a word. -/
def writesOf (messages : List Message) : List Message :=
  messages.filter fun m => m.command = .valueLow

/-- The message that writes a pair. -/
def writeOf (w : Word) : Message := ⟨.valueLow, lowHalf w.2⟩

theorem writesOf_eq_nil {messages : List Message} (h : ∀ m ∈ messages, m.command ≠ .valueLow) :
    writesOf messages = [] := by
  simpa [writesOf, List.filter_eq_nil_iff] using h

theorem writesOf_append (first second : List Message) :
    writesOf (first ++ second) = writesOf first ++ writesOf second := List.filter_append ..

/-- A pair is written once. -/
theorem writesOf_pairMessages (s : Sender) (w : Word) :
    writesOf (pairMessages s w) = [writeOf w] := by
  rw [pairMessages_eq, writesOf_append, writesOf_eq_nil (valueLow_not_mem_leadMessages s w)]
  rfl

theorem writesOf_pairsMessages (s : Sender) (words : List Word) :
    writesOf (pairsMessages s words) = words.map writeOf := by
  induction words generalizing s with
  | nil => rfl
  | cons w ws ih => rw [pairsMessages, writesOf_append, writesOf_pairMessages, ih]; rfl

theorem writesOf_streamMessages (words : List Word) :
    writesOf (streamMessages words) = words.map writeOf :=
  writesOf_pairsMessages Sender.start words

/-! ## Where a transfer ends -/

/-- The transfer ends while the pair with the given position is handled: the acts before go
through, and one of the acts for the pair ends it. -/
def EndsAt (refusal : Nat → Option TransferFault) (cancelled : Nat → Bool) (delay : Delay)
    (words : List Word) (k : Nat) (log : Log) (outcome : Except Failure Status) : Prop :=
  ∃ w log₀, words[k]? = some w ∧
    perform refusal cancelled (actsBefore delay words k) ⟨#[], #[]⟩ = (log₀, none) ∧
    perform refusal cancelled
      (pairActs delay words.length (Sender.start.afterAll (words.take k)) w) log₀ =
        (log, some outcome)

section Endings

variable {words : List Word} {k : Nat} {log : Log} {outcome : Except Failure Status}

theorem EndsAt.lt_length (h : EndsAt refusal cancelled delay words k log outcome) :
    k < words.length := by
  obtain ⟨w, log₀, hw, -⟩ := h
  exact (List.getElem?_eq_some_iff.mp hw).1

/-- It is the whole transfer that ends. -/
theorem EndsAt.writeWords_eq (h : EndsAt refusal cancelled delay words k log outcome) :
    writeWords delay refusal cancelled words = (log, some outcome) := by
  obtain ⟨w, log₀, hw, hbefore, hpair⟩ := h
  have hrest : words.drop k = w :: words.drop (k + 1) := by
    rw [List.drop_eq_getElem?_toList_append, hw]
    rfl
  rw [writeWords, acts_eq_actsBefore_append words k, perform_append, hbefore, hrest, actsFrom]
  simp only [perform_append, hpair]

/-- Acts that end the transfer are those that reset the checksum, or those for a pair. -/
theorem exists_endsAt_of_perform (hk : k ≤ words.length)
    (h : perform refusal cancelled (actsBefore delay words k) ⟨#[], #[]⟩ = (log, some outcome)) :
    perform refusal cancelled (sendAll delay [⟨.resetChecksum, 0⟩]) ⟨#[], #[]⟩ =
      (log, some outcome) ∨
    ∃ j, EndsAt refusal cancelled delay words j log outcome := by
  induction k with
  | zero =>
    rw [actsBefore, List.take_zero, pairsActs, List.append_nil] at h
    exact .inl h
  | succ k ih =>
    obtain ⟨w, hw⟩ : ∃ w, words[k]? = some w := ⟨_, List.getElem?_eq_getElem hk⟩
    rw [actsBefore_succ hw] at h
    obtain ⟨ending, he, hends⟩ | ⟨log₀, hbefore, hpair⟩ := perform_append_cases h
    · obtain rfl := Option.some.inj he
      exact ih (Nat.le_of_succ_le hk) hends
    · exact .inr ⟨k, w, log₀, hw, hbefore, hpair⟩

/-- A transfer ends in the acts that reset the checksum, in those for a pair, or behind all
pairs. -/
theorem writeWords_cases
    (h : writeWords delay refusal cancelled words = (log, some outcome)) :
    perform refusal cancelled (sendAll delay [⟨.resetChecksum, 0⟩]) ⟨#[], #[]⟩ =
      (log, some outcome) ∨
    (∃ k, EndsAt refusal cancelled delay words k log outcome) ∨
    ∃ log₀, Passed cancelled delay words words.length log₀ ∧
      perform refusal cancelled
        (actsFrom delay words.length (Sender.start.afterAll words) []) log₀ =
          (log, some outcome) := by
  rw [writeWords, acts_eq_actsBefore_append words words.length, List.take_length,
    List.drop_length] at h
  obtain ⟨ending, he, hends⟩ | ⟨log₀, hbefore, hclosing⟩ := perform_append_cases h
  · obtain rfl := Option.some.inj he
    exact (exists_endsAt_of_perform le_rfl hends).imp_right .inl
  · exact .inr (.inr ⟨log₀, passed_of_perform le_rfl hbefore, hclosing⟩)

/-- Behind all pairs a checksum is not sent, or the transfer completes. -/
theorem perform_closing {total : Nat} {s : Sender} {log₀ : Log}
    (h : perform refusal cancelled (actsFrom delay total s []) log₀ = (log, some outcome)) :
    (∃ reason, reason ≠ .longNumber ∧ outcome = .error (.arithmetic reason)) ∨
    (∃ e part, Failure.OfFault e ∧ part <+: checksumMessages s.checksum ∧
      log = log₀.sends part ∧ outcome = .error e) ∨
    outcome = .ok ⟨.complete, s!"Sent {total} values", s.checksum⟩ := by
  rw [actsFrom] at h
  obtain ⟨ending, hending, hsend⟩ | ⟨sent, -, hfinish⟩ := perform_append_cases h
  · obtain rfl := Option.some.inj hending
    obtain ⟨reason, hreason, hout⟩ | ⟨e, part, m, more, he, hsplit, hlog, hout⟩ | ⟨-, hout⟩ :=
      perform_sendAll _ hsend
    · exact .inl ⟨reason, hreason, Option.some.inj hout⟩
    · exact .inr (.inl ⟨e, part, he, ⟨m :: more, hsplit.symm⟩, hlog, Option.some.inj hout⟩)
    · cases hout
  · exact .inr (.inr (Option.some.inj (Prod.mk.inj hfinish).2).symm)

/-- A transfer ends as cancelled only at a pair. -/
theorem exists_endsAt_of_cancelled {status : Status} (hkind : status.kind = .cancelled)
    (h : writeWords delay refusal cancelled words = (log, some (.ok status))) :
    ∃ k, EndsAt refusal cancelled delay words k log (.ok status) := by
  obtain hreset | hpair | ⟨log₀, -, hclosing⟩ := writeWords_cases h
  · obtain ⟨_, -, hout⟩ | ⟨e, part, m, more, -, -, -, hout⟩ | ⟨-, hout⟩ :=
      perform_sendAll _ hreset <;> cases hout
  · exact hpair
  · obtain ⟨_, -, hout⟩ | ⟨e, part, -, -, -, hout⟩ | hout := perform_closing hclosing
    · cases hout
    · cases hout
    · rw [Except.ok.inj hout] at hkind
      cases hkind

/-- A transfer that is cancelled at a pair has sent the pair, and nothing behind it. -/
theorem EndsAt.sent_of_cancelled {status : Status}
    (h : EndsAt refusal cancelled delay words k log (.ok status)) :
    log.sent.toList = streamMessages (words.take (k + 1)) ∧
    status = cancelledAt (checksumOf (words.take (k + 1))) ∧
    (∀ j < k, cancelled (streamMessages (words.take (j + 1))).length = false) ∧
    cancelled (streamMessages (words.take (k + 1))).length = true ∧
    ∃ reports, log.reported.toList = reports ++ [status] ∧
      Announced delay words (k + 1) reports := by
  have hk := h.lt_length
  obtain ⟨w, log₀, hw, hbefore, hpair⟩ := h
  have hpassed := passed_of_perform hk.le hbefore
  obtain ⟨_, -, hout⟩ | ⟨text, htext, hcases⟩ := perform_pairActs hpair
  · cases hout
  rw [index_start_afterAll hw] at htext
  obtain ⟨e, part, -, -, -, hout⟩ | ⟨hcheck, rfl, hout⟩ | ⟨-, -, hout⟩ := hcases
  · cases hout
  · have hsent : ((log₀.reports ⟨.sending, text,
        (Sender.start.afterAll (words.take k)).checksum⟩).sends
          (pairMessages (Sender.start.afterAll (words.take k)) w)).sent.toList =
        streamMessages (words.take (k + 1)) := by
      rw [Log.toList_sent_sends, Log.sent_reports, hpassed.sent, take_succ_eq hw,
        streamMessages_concat]
    have hchecksum : ((Sender.start.afterAll (words.take k)).after w).checksum =
        checksumOf (words.take (k + 1)) := by
      rw [take_succ_eq hw, ← Sender.afterAll_concat, checksum_start_afterAll]
    obtain rfl := Except.ok.inj (Option.some.inj hout)
    refine ⟨hsent, by rw [hchecksum], hpassed.unseen, ?_, _, ?_, hpassed.announce htext⟩
    · rw [← hsent, Array.length_toList, hcheck]
    · exact Array.toList_push
  · cases hout

/-- A transfer that fails at a pair has announced the pair, but not written it. -/
theorem EndsAt.sent_of_failed {e : Failure} (he : e.OfFault)
    (h : EndsAt refusal cancelled delay words k log (.error e)) :
    writesOf log.sent.toList = (words.take k).map writeOf ∧
      Announced delay words (k + 1) log.reported.toList := by
  have hk := h.lt_length
  obtain ⟨w, log₀, hw, hbefore, hpair⟩ := h
  have hpassed := passed_of_perform hk.le hbefore
  obtain ⟨reason, hreason, hout⟩ | ⟨text, htext, hcases⟩ := perform_pairActs hpair
  · exact absurd (Except.error.inj (Option.some.inj hout)) (he.ne_arithmetic hreason)
  rw [index_start_afterAll hw] at htext
  obtain ⟨_, part, -, hpart, rfl, -⟩ | ⟨-, -, hout⟩ | ⟨-, -, hout⟩ := hcases
  · refine ⟨?_, hpassed.announce htext⟩
    rw [Log.toList_sent_sends, Log.sent_reports, hpassed.sent, writesOf_append,
      writesOf_streamMessages, writesOf_eq_nil fun m hm =>
        valueLow_not_mem_leadMessages _ w m (hpart.subset hm), List.append_nil]
  · cases hout
  · cases hout

theorem giveUp_not_mem_actsFrom {total : Nat} (hdelay : delay.Feasible total) (fault : NumberFault)
    {s : Sender} {ws : List Word} (hindex : s.index + ws.length ≤ total) :
    .giveUp fault ∉ actsFrom delay total s ws := by
  induction ws generalizing s with
  | nil => simp [actsFrom, sendAll_eq hdelay.pause]
  | cons w ws ih =>
    rw [List.length_cons] at hindex
    obtain ⟨status, hpair⟩ := pairActs_eq hdelay (show s.index < total by omega) w
    have hrest := ih (s := s.after w) (by simp only [Sender.after]; omega)
    simp [actsFrom, hpair, hrest]

/-- A transfer with a delay that can be kept fails by a fault of the sink or of a message. -/
theorem ofFault_of_feasible (hdelay : delay.Feasible words.length) {e : Failure}
    (h : writeWords delay refusal cancelled words = (log, some (.error e))) : e.OfFault := by
  refine ofFault_of_perform (fun fault hmem => ?_) h
  rw [acts, sendAll_eq hdelay.pause, List.mem_append] at hmem
  rcases hmem with hmem | hmem
  · simp at hmem
  · exact giveUp_not_mem_actsFrom hdelay fault (by simp [Sender.start]) hmem

/-- A transfer that fails at none of the pairs took none of them or all. -/
theorem failed_cases {e : Failure} (he : e.OfFault)
    (h : writeWords delay refusal cancelled words = (log, some (.error e))) :
    log = ⟨#[], #[]⟩ ∨
    (∃ k, EndsAt refusal cancelled delay words k log (.error e)) ∨
    writesOf log.sent.toList = words.map writeOf ∧
      Announced delay words words.length log.reported.toList := by
  obtain hreset | hpair | ⟨log₀, hpassed, hclosing⟩ := writeWords_cases h
  · obtain ⟨reason, hreason, hout⟩ | ⟨_, part, m, more, -, hsplit, rfl, -⟩ | ⟨-, hout⟩ :=
      perform_sendAll _ hreset
    · exact absurd (Except.error.inj (Option.some.inj hout)) (he.ne_arithmetic hreason)
    · obtain rfl : part = [] := by
        cases part with
        | nil => rfl
        | cons n part => simp at hsplit
      exact .inl (by simp)
    · cases hout
  · exact .inr (.inl hpair)
  · obtain ⟨reason, hreason, hout⟩ | ⟨_, part, -, hpart, rfl, -⟩ | hout := perform_closing hclosing
    · exact absurd (Except.error.inj hout) (he.ne_arithmetic hreason)
    · have hnone : ∀ m ∈ part, m.command ≠ .valueLow := by
        intro m hm
        have := hpart.subset hm
        simp only [checksumMessages, List.mem_cons, List.not_mem_nil, or_false] at this
        rcases this with rfl | rfl <;> simp
      have hsent := hpassed.sent
      rw [List.take_length] at hsent
      refine .inr (.inr ⟨?_, hpassed.reported⟩)
      rw [Log.toList_sent_sends, hsent, writesOf_append, writesOf_streamMessages,
        writesOf_eq_nil hnone, List.append_nil]
    · cases hout

end Endings

end Runs

/-! ## Interrupted transfers -/

/-- Whenever the transfer is cancelled and whatever the sink refuses, the words that were written
are a prefix of the list, and the status, the checksums and the reports are those of the prefix.
The closing check of a pair comes when its messages and those of the pairs before are sent.  Apart
from faults of the sink and of messages, even those that cannot be put into words, only a delay that
cannot be kept ends a transfer. -/
theorem interrupted_transfer_leaves_front (delay : Delay) (refusal : Nat → Option TransferFault)
    (cancelled : Nat → Bool) (words : List Word) (log : Log) :
    (∀ status, status.kind = .cancelled →
      writeWords delay refusal cancelled words = (log, some (.ok status)) →
      ∃ k, ∃ hk : k < words.length, EndsAt refusal cancelled delay words k log (.ok status) ∧
        writesOf log.sent.toList = (words.take (k + 1)).map writeOf ∧
        log.sent.toList.getLast? = some (writeOf words[k]) ∧
        status = cancelledAt (checksumOf (words.take (k + 1))) ∧
        (∀ j < k, cancelled (streamMessages (words.take (j + 1))).length = false) ∧
        cancelled (streamMessages (words.take (k + 1))).length = true ∧
        ((∀ n, 0 < n → cancelled n = true) → k = 0) ∧
        ∃ reports, log.reported.toList = reports ++ [status] ∧
          Announced delay words (k + 1) reports) ∧
    (∀ e, Failure.OfFault e → writeWords delay refusal cancelled words = (log, some (.error e)) →
      log = ⟨#[], #[]⟩ ∨
      (∃ k < words.length, EndsAt refusal cancelled delay words k log (.error e)) ∨
      writesOf log.sent.toList = words.map writeOf ∧
        Announced delay words words.length log.reported.toList) ∧
    (∀ k e, Failure.OfFault e → EndsAt refusal cancelled delay words k log (.error e) →
      writeWords delay refusal cancelled words = (log, some (.error e)) ∧
      writesOf log.sent.toList = (words.take k).map writeOf ∧
      Announced delay words (k + 1) log.reported.toList) ∧
    (delay.Feasible words.length → ∀ e,
      writeWords delay refusal cancelled words = (log, some (.error e)) → Failure.OfFault e) := by
  refine ⟨fun status hkind h => ?_, fun e he h => ?_, fun k e he h => ?_,
    fun hdelay e h => ofFault_of_feasible hdelay h⟩
  · obtain ⟨k, hends⟩ := exists_endsAt_of_cancelled hkind h
    obtain ⟨hsent, hstatus, hunseen, hseen, hreports⟩ := hends.sent_of_cancelled
    have hk := hends.lt_length
    refine ⟨k, hk, hends, ?_, ?_, hstatus, hunseen, hseen, fun hearly => ?_, hreports⟩
    · rw [hsent, writesOf_streamMessages]
    · rw [hsent, take_succ_eq (List.getElem?_eq_getElem hk), streamMessages_concat,
        pairMessages_eq, ← List.append_assoc, List.getLast?_concat]
      rfl
    · by_contra hne
      have hfirst := hunseen 0 (Nat.pos_of_ne_zero hne)
      have hset := hearly (streamMessages (words.take (0 + 1))).length (Nat.succ_pos _)
      rw [hset] at hfirst
      cases hfirst
  · obtain hnone | ⟨k, hends⟩ | hall := failed_cases he h
    · exact .inl hnone
    · exact .inr (.inl ⟨k, hends.lt_length, hends⟩)
    · exact .inr (.inr hall)
  · exact ⟨h.writeWords_eq, h.sent_of_failed he⟩

/-- A transfer of three pairs that is cancelled while the address of the second one is sent. -/
def cancelledRun : Log × Option (Except Failure Status) :=
  writeWords (.whole 0) (fun _ => none) (fun n => 7 ≤ n) [(1, 5), (9, 0), (10, 2)]

/-- A sink that refuses the eighth message. -/
def eighthRefused (n : Nat) : Option TransferFault :=
  if n = 7 then some (.writeFailed "port" "gone") else none

/-- A transfer of three pairs to a sink that refuses a message for the second one. -/
def refusedRun : Log × Option (Except Failure Status) :=
  writeWords (.whole 0) eighthRefused (fun _ => false) [(1, 5), (9, 0), (10, 2)]

theorem second_pair_is_interrupted :
    (∃ k, writesOf cancelledRun.1.sent.toList =
      ([(1, 5), (9, 0), (10, 2)].take (k + 1)).map writeOf) ∧
    (refusedRun.1 = ⟨#[], #[]⟩ ∨
      (∃ k < 3, EndsAt eighthRefused (fun _ => false) (.whole 0) [(1, 5), (9, 0), (10, 2)] k
        refusedRun.1 (.error (.transfer (.writeFailed "port" "gone")))) ∨
      writesOf refusedRun.1.sent.toList = [(1, 5), (9, 0), (10, 2)].map writeOf ∧
        Announced (.whole 0) [(1, 5), (9, 0), (10, 2)] 3 refusedRun.1.reported.toList) ∧
    writesOf refusedRun.1.sent.toList = [writeOf (1, 5)] := by
  obtain ⟨k, -, -, hwrites, -⟩ := (interrupted_transfer_leaves_front (.whole 0) (fun _ => none)
    (fun n => 7 ≤ n) [(1, 5), (9, 0), (10, 2)] cancelledRun.1).1 (cancelledAt 15) rfl
    (by decide +kernel)
  obtain ⟨-, hfailed, hends, -⟩ := interrupted_transfer_leaves_front (.whole 0) eighthRefused
    (fun _ => false) [(1, 5), (9, 0), (10, 2)] refusedRun.1
  have hgone := Failure.OfFault.transfer (.writeFailed "port" "gone")
  refine ⟨⟨k, hwrites⟩, hfailed _ hgone (by decide +kernel), ?_⟩
  exact (hends 1 _ hgone ⟨(9, 0),
    (perform eighthRefused (fun _ => false)
      (actsBefore (.whole 0) [(1, 5), (9, 0), (10, 2)] 1) ⟨#[], #[]⟩).1, rfl,
    by decide +kernel, by decide +kernel⟩).2.1

end PocketAsm.Transfer
