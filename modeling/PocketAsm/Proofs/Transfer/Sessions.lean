/-
  Proofs/Transfer/Sessions.lean --- what an event can do to a session.

  Everything later about the bridge goes by the cases of this file.
  `Session.Handled` says what may come of a line, `Bridge.Change` what may come
  of an event for the session of one client; `handled` and `exists_change` say
  that there is nothing else.  What one act of a transfer does is read off its
  effect, and a transfer whose numbers can all be computed and written consists
  of `Proper` acts, of which only the last one ends it by itself.  The pairs that
  a line asks for can all be written (`Request.areWritable_of_receive`).  What is
  counted along a run follows from what each event brings and takes
  (`count_balance`).
-/
import PocketAsm.Proofs.Json.Writable
import PocketAsm.Proofs.Transfer.Sending
import PocketAsm.Transfer.Bridge

set_option autoImplicit false

namespace PocketAsm.Transfer

/-! ## Effects -/

/-- An act that does not end the transfer does what it does without interference. -/
theorem Act.effect_eq_of_outcome {act : Act} {refusal : Option TransferFault} {cancelled : Bool}
    (h : (act.effect refusal cancelled).outcome = none) :
    act.effect refusal cancelled = act.effect none false := by
  cases act with
  | send m =>
    cases hencode : m.encode with
    | error e => simp [effect, hencode]
    | ok text =>
      cases refusal with
      | none => rfl
      | some fault => simp [effect, hencode] at h
  | check checksum =>
    cases cancelled with
    | false => rfl
    | true => simp [effect] at h
  | report status => rfl
  | finish status => rfl
  | giveUp fault => rfl

/-- The act that ends a transfer sends nothing. -/
theorem Act.sent_of_outcome {act : Act} {refusal : Option TransferFault} {cancelled : Bool}
    {outcome : Except Failure Status} (h : (act.effect refusal cancelled).outcome = some outcome) :
    (act.effect refusal cancelled).sent = none := by
  cases act with
  | send m =>
    cases hencode : m.encode with
    | error e => simp [effect, hencode]
    | ok text =>
      cases refusal with
      | none => simp [effect, hencode] at h
      | some fault => simp [effect, hencode]
  | check checksum => cases cancelled <;> rfl
  | report status => rfl
  | finish status => rfl
  | giveUp fault => rfl

/-! ## Acts of a transfer that can be computed -/

/-- An act that leaves the end of the transfer open, or to others.  A message that is sent may not
fit, but what is wrong with it can be put into words. -/
def Act.isOpen : Act → Bool
  | .report status => status.kind == .sending
  | .send m => Text.isWritable m.value
  | .check _ => true
  | .finish _ | .giveUp _ => false

/-- Acts of which the last one reports that the transfer is complete. -/
def Proper (acts : List Act) : Prop :=
  ∃ body status, acts = body ++ [.finish status] ∧ status.kind = .complete ∧
    ∀ act ∈ body, act.isOpen = true

theorem Proper.append {body rest : List Act} (hbody : ∀ act ∈ body, act.isOpen = true)
    (h : Proper rest) : Proper (body ++ rest) := by
  obtain ⟨more, status, rfl, hkind, hmore⟩ := h
  refine ⟨body ++ more, status, by simp, hkind, ?_⟩
  exact List.forall_mem_append.mpr ⟨hbody, hmore⟩

/-- The first of proper acts is the last one, or leaves proper acts behind. -/
theorem Proper.cases {act : Act} {rest : List Act} (h : Proper (act :: rest)) :
    (rest = [] ∧ ∃ status, act = .finish status ∧ status.kind = .complete) ∨
      (act.isOpen = true ∧ Proper rest) := by
  obtain ⟨body, status, hacts, hkind, hbody⟩ := h
  cases body with
  | nil =>
    obtain ⟨rfl, rfl⟩ := List.cons.inj hacts
    exact Or.inl ⟨rfl, status, rfl, hkind⟩
  | cons first body =>
    obtain ⟨rfl, rfl⟩ := List.cons.inj hacts
    obtain ⟨hfirst, hrest⟩ := List.forall_mem_cons.mp hbody
    exact Or.inr ⟨hfirst, body, status, rfl, hkind, hrest⟩

theorem isOpen_of_mem_sends {messages : List Message}
    (h : ∀ m ∈ messages, Text.isWritable m.value = true) :
    ∀ act ∈ messages.map Act.send, act.isOpen = true := by
  intro act hact
  obtain ⟨m, hm, rfl⟩ := List.mem_map.mp hact
  exact h m hm

/-- The numbers of the words can be written. -/
def AreWritable (words : List Word) : Prop :=
  ∀ w ∈ words, Text.isWritable w.1 = true ∧ Text.isWritable w.2 = true

theorem Sender.isWritable_after (s : Sender) (w : Word) :
    Text.isWritable (s.after w).checksum = true := by
  have hchecksum : 0 ≤ addToChecksum s.checksum w ∧ addToChecksum s.checksum w < 0x1000000 := by
    rw [addToChecksum]
    omega
  exact isWritable_of_register hchecksum

theorem isWritable_checksumMessages {checksum : Int} (h : Text.isWritable checksum = true) :
    ∀ m ∈ checksumMessages checksum, Text.isWritable m.value = true := by
  simp [checksumMessages, isWritable_highHalf h, isWritable_lowHalf]

/-- The messages for a pair of numbers that can be written have values that can be written. -/
theorem isWritable_pairMessages {s : Sender} (hs : Text.isWritable s.checksum = true) {w : Word}
    (haddress : Text.isWritable w.1 = true) (hvalue : Text.isWritable w.2 = true) :
    ∀ m ∈ pairMessages s w, Text.isWritable m.value = true := by
  have hchecksum : ∀ m ∈ (if s.checksumDue then checksumMessages s.checksum else []),
      Text.isWritable m.value = true := by
    split
    · exact isWritable_checksumMessages hs
    · simp
  have hset : ∀ m ∈ (if s.follows w.1 then [] else addressMessages w.1),
      Text.isWritable m.value = true := by
    split
    · simp
    · simp only [addressMessages, List.forall_mem_cons]
      exact ⟨by decide +kernel, isWritable_lowHalf w.1, isWritable_highHalf haddress,
        List.forall_mem_nil _⟩
  have hhigh : ∀ m ∈ (if s.high = some (highHalf w.2) then []
      else [(⟨.valueHigh, highHalf w.2⟩ : Message)]), Text.isWritable m.value = true := by
    split
    · simp
    · exact List.forall_mem_singleton.mpr (isWritable_highHalf hvalue)
  rw [pairMessages, List.forall_mem_append, List.forall_mem_append, List.forall_mem_append,
    List.forall_mem_singleton]
  exact ⟨⟨⟨hchecksum, hset⟩, hhigh⟩, isWritable_lowHalf w.2⟩

theorem proper_actsFrom {delay : Delay} {total : Nat} (hdelay : delay.Feasible total)
    {words : List Word} (hwords : AreWritable words) :
    ∀ s : Sender, Text.isWritable s.checksum = true → s.index + words.length = total →
      Proper (actsFrom delay total s words) := by
  induction words with
  | nil =>
    intro s hs _
    rw [actsFrom, sendAll_eq hdelay.pause]
    exact .append (isOpen_of_mem_sends (isWritable_checksumMessages hs)) ⟨[], _, rfl, rfl, by simp⟩
  | cons w ws ih =>
    intro s hs hindex
    rw [List.length_cons] at hindex
    obtain ⟨⟨haddress, hvalue⟩, hrest⟩ := List.forall_mem_cons.mp hwords
    have hproper : Proper (actsFrom delay total (s.after w) ws) := by
      refine ih hrest _ (s.isWritable_after w) ?_
      simp only [Sender.after]
      omega
    obtain ⟨text, htext⟩ := hdelay.report s.index (by omega)
    rw [actsFrom, pairActs, announce, htext, sendAll_eq hdelay.pause]
    refine .append (List.forall_mem_append.mpr ⟨?_, by simp [Act.isOpen]⟩) hproper
    exact List.forall_mem_cons.mpr
      ⟨rfl, isOpen_of_mem_sends (isWritable_pairMessages hs haddress hvalue)⟩

/-- The acts of a transfer whose numbers can all be computed and written. -/
theorem proper_acts {delay : Delay} {words : List Word} (hdelay : delay.Feasible words.length)
    (hwords : AreWritable words) : Proper (acts delay words) := by
  have hreset : ∀ m ∈ [(⟨.resetChecksum, 0⟩ : Message)], Text.isWritable m.value = true := by
    decide +kernel
  rw [acts, sendAll_eq hdelay.pause]
  exact .append (isOpen_of_mem_sends hreset)
    (proper_actsFrom hdelay hwords _ (by decide +kernel) (by simp [Sender.start]))

/-! ## Fields of a session -/

namespace Session

variable (s : Session)

@[simp] theorem report_transfer (status : Status) : (s.report status).transfer = s.transfer := by
  unfold report
  split <;> rfl

@[simp] theorem report_cancelled (status : Status) :
    (s.report status).cancelled = s.cancelled := by
  unfold report
  split <;> rfl

@[simp] theorem report_connected (status : Status) :
    (s.report status).connected = s.connected := by
  unfold report
  split <;> rfl

theorem report_reports {status : Status} (h : s.connected = true) :
    (s.report status).reports = s.reports.push status := by
  rw [report, if_pos h]

@[simp] theorem release_transfer : s.release.transfer = none := rfl

@[simp] theorem release_cancelled : s.release.cancelled = s.cancelled := rfl

@[simp] theorem release_reports : s.release.reports = s.reports := rfl

@[simp] theorem breakOff_transfer (failure : Failure) :
    (s.breakOff failure).transfer = s.transfer := rfl

@[simp] theorem breakOff_cancelled (failure : Failure) :
    (s.breakOff failure).cancelled = s.cancelled := rfl

@[simp] theorem endTransfer_transfer (outcome : Except Failure Status) :
    (s.endTransfer outcome).transfer = none := by
  unfold endTransfer
  split <;> rfl

@[simp] theorem endTransfer_cancelled (outcome : Except Failure Status) :
    (s.endTransfer outcome).cancelled = s.cancelled := by
  unfold endTransfer
  split
  · simp
  · rw [release_cancelled]
    split <;> rfl
  · rfl

/-! ## Acts of a session -/

theorem told_cancelled (reported : Option Status) :
    ((reported.map s.report).getD s).cancelled = s.cancelled := by
  cases reported <;> simp

variable {s} {act : Act} {rest : List Act}

theorem transfer_advance (h : s.transfer = some (act :: rest)) (refusal : Option TransferFault) :
    (s.advance refusal).1.transfer =
      if (act.effect refusal s.cancelled).outcome = none then some rest else none := by
  simp only [advance, h]
  cases (act.effect refusal s.cancelled).outcome <;> simp

theorem message_advance (h : s.transfer = some (act :: rest)) (refusal : Option TransferFault) :
    (s.advance refusal).2 = (act.effect refusal s.cancelled).sent := by
  simp only [advance, h]
  cases (act.effect refusal s.cancelled).outcome <;> rfl

theorem cancelled_advance (refusal : Option TransferFault) :
    (s.advance refusal).1.cancelled = s.cancelled := by
  unfold advance
  split
  · rfl
  · rfl
  · dsimp only
    split <;> simp [told_cancelled]

end Session

/-! ## Lines -/

/-- The line is short enough to be read, and its values do not nest too deep. -/
def Readable (line : String) : Prop :=
  line.utf8ByteSize ≤ maxLineBytes ∧ Request.receive line ≠ .error .tooDeep

instance (line : String) : Decidable (Readable line) := inferInstanceAs (Decidable (_ ∧ _))

namespace Request

theorem failure_of_dataOf {j : Json} {e : Failure} (h : dataOf j = .error e) :
    e = .tooDeep ∨ ∃ fault, e = .transfer fault := by
  unfold dataOf at h
  split at h
  · split at h
    · simp at h
    · exact Or.inl (Except.error.inj h).symm
    · exact Or.inr ⟨_, (Except.error.inj h).symm⟩
  · simp at h

theorem failure_of_ofMembers {members : Json.Members} {e : Failure}
    (h : ofMembers members = .error e) : e = .tooDeep ∨ ∃ fault, e = .transfer fault := by
  unfold ofMembers at h
  dsimp only at h
  split at h
  · simp at h
  · split at h
    · rename_i hdata
      exact failure_of_dataOf (Except.error.inj h ▸ hdata)
    · split at h
      · exact Or.inr ⟨_, (Except.error.inj h).symm⟩
      · split at h
        · exact Or.inr ⟨_, (Except.error.inj h).symm⟩
        · simp at h
  · exact Or.inr ⟨_, (Except.error.inj h).symm⟩

/-- A line that is no request breaks the protocol or nests too deep. -/
theorem failure_of_receive {line : String} {e : Failure} (h : receive line = .error e) :
    e = .tooDeep ∨ ∃ fault, e = .transfer fault := by
  unfold receive at h
  split at h
  · exact Or.inr ⟨_, (Except.error.inj h).symm⟩
  · unfold parse at h
    split at h
    · exact Or.inl (Except.error.inj h).symm
    · exact Or.inr ⟨_, (Except.error.inj h).symm⟩
    · exact failure_of_ofMembers h
    · exact Or.inr ⟨_, (Except.error.inj h).symm⟩

/-! ## Numbers of a request -/

theorem isWritable_of_natural? {j : Json} (hj : j.isWritable = true) {n : Int}
    (h : natural? j = some n) : Text.isWritable n = true := by
  cases j with
  | int m =>
    obtain ⟨-, hm⟩ := Option.ite_none_right_eq_some.mp h
    obtain rfl := Option.some.inj hm
    exact hj
  | bool b =>
    obtain rfl := Option.some.inj h
    cases b <;> decide +kernel
  | _ => cases h

theorem isWritable_of_pairOf {item : Json} (hitem : item.isWritable = true) {w : Word}
    (h : pairOf item = .ok w) : Text.isWritable w.1 = true ∧ Text.isWritable w.2 = true := by
  unfold pairOf at h
  split at h
  · rename_i a v
    have hparts : a.isWritable = true ∧ v.isWritable = true := by
      simpa [Json.isWritable, Json.areWritable] using hitem
    split at h
    · rename_i address value haddress hvalue
      obtain rfl := Except.ok.inj h
      exact ⟨isWritable_of_natural? hparts.1 haddress, isWritable_of_natural? hparts.2 hvalue⟩
    · cases h
  · cases h

theorem areWritable_of_mapM {items : List Json} {words : List Word}
    (hitems : ∀ item ∈ items, item.isWritable = true) (h : items.mapM pairOf = .ok words) :
    AreWritable words := by
  induction items generalizing words with
  | nil =>
    obtain rfl := Except.ok.inj h
    exact List.forall_mem_nil _
  | cons item items ih =>
    obtain ⟨hitem, hrest⟩ := List.forall_mem_cons.mp hitems
    rw [List.mapM_cons] at h
    cases hw : pairOf item with
    | error e =>
      rw [hw] at h
      cases h
    | ok w =>
      cases hws : items.mapM pairOf with
      | error e =>
        rw [hw, hws] at h
        cases h
      | ok ws =>
        rw [hw, hws] at h
        obtain rfl := Except.ok.inj h
        exact List.forall_mem_cons.mpr ⟨isWritable_of_pairOf hitem hw, ih hrest hws⟩

theorem areWritable_of_wordsOf {j : Json} (hj : j.isWritable = true) {words : List Word}
    (h : wordsOf j = .ok words) : AreWritable words := by
  cases j with
  | arr items => exact areWritable_of_mapM ((Json.areWritable_iff items).mp hj) h
  | _ => cases h

theorem isWritable_of_dataOf {j : Json} (hj : j.isWritable = true) {list : Json}
    (h : dataOf j = .ok list) : list.isWritable = true := by
  unfold dataOf at h
  split at h
  · split at h
    · rename_i hparse
      obtain rfl := Except.ok.inj h
      exact Json.isWritable_of_parse hparse
    · cases h
    · cases h
  · obtain rfl := Except.ok.inj h
    exact hj

theorem areWritable_of_ofMembers {members : Json.Members}
    (hmembers : Json.membersWritable members = true) {words : List Word} {delay : Delay}
    (h : ofMembers members = .ok (.data words delay)) : AreWritable words := by
  unfold ofMembers at h
  dsimp only at h
  split at h
  · cases h
  · split at h
    · cases h
    · rename_i list hdata
      have hlist : list.isWritable = true :=
        isWritable_of_dataOf (Json.isWritable_member hmembers _) hdata
      split at h
      · cases h
      · split at h
        · cases h
        · rename_i found hfound
          cases h
          exact areWritable_of_wordsOf hlist hfound
  · cases h

/-- The pairs that a line asks for can be written: there are no longer numbers in it. -/
theorem areWritable_of_receive {line : String} {words : List Word} {delay : Delay}
    (h : receive line = .ok (.data words delay)) : AreWritable words := by
  unfold receive at h
  split at h
  · cases h
  · unfold parse at h
    split at h
    · cases h
    · cases h
    · rename_i members hparse
      exact areWritable_of_ofMembers (Json.isWritable_of_parse hparse) h
    · cases h

end Request

namespace Session

/-- What may come of a line: the session that handles it, and the session afterwards. -/
inductive Handled (s : Session) (line : String) : Session → Prop where
  /-- the line is not read any more -/
  | ignored (hreads : s.reads = false) : Handled s line s
  /-- the line cannot be read -/
  | broken (hreads : s.reads = true) (hline : ¬Readable line) (failure : Failure) :
    Handled s line (s.breakOff failure)
  /-- the line is no request -/
  | refused (hreads : s.reads = true) (hline : Readable line) {fault : TransferFault}
    (h : Request.receive line = .error (.transfer fault)) :
    Handled s line (s.report (Status.ofError fault.message))
  /-- the line asks for a transfer while one is under way -/
  | busy (hreads : s.reads = true) (hline : Readable line) {words : List Word} {delay : Delay}
    (h : Request.receive line = .ok (.data words delay)) (hbusy : s.transfer.isSome = true) :
    Handled s line (s.report (Status.ofError "Transfer already in progress"))
  /-- the line cancels -/
  | cancels (hreads : s.reads = true) (hline : Readable line)
    (h : Request.receive line = .ok .cancel) : Handled s line { s with cancelled := true }
  /-- the line starts a transfer -/
  | starts (hreads : s.reads = true) (hline : Readable line) {words : List Word} {delay : Delay}
    (h : Request.receive line = .ok (.data words delay)) (hidle : s.transfer = none) :
    Handled s line { s with cancelled := false, transfer := some (acts delay words) }

theorem handled (s : Session) (line : String) : s.Handled line (s.handle line) := by
  cases hreads : s.reads with
  | false =>
    rw [handle, if_pos (by simp [hreads])]
    exact .ignored hreads
  | true =>
    rw [handle, if_neg (by simp [hreads])]
    split
    · exact .broken hreads (fun h => absurd h.1 (by omega)) _
    · rename_i hsize
      have hreadable (hdeep : Request.receive line ≠ .error .tooDeep) : Readable line :=
        ⟨by omega, hdeep⟩
      split
      · rename_i fault hreceive
        exact .refused hreads (hreadable (by simp [hreceive])) hreceive
      · rename_i e hother hreceive
        refine .broken hreads (fun h => ?_) _
        obtain rfl | ⟨fault, rfl⟩ := Request.failure_of_receive hreceive
        · exact h.2 hreceive
        · exact hother fault rfl
      · rename_i request hreceive
        have hline := hreadable (by simp [hreceive])
        cases request with
        | cancel => exact .cancels hreads hline hreceive
        | data words delay =>
          rw [serve]
          split
          · rename_i acts hbusy
            exact .busy hreads hline hreceive (by simp [hbusy])
          · rename_i hidle
            exact .starts hreads hline hreceive hidle

/-- The line is read, asks for a transfer, and is not refused by a report. -/
def starts (s : Session) (line : String) : Bool :=
  s.reads && decide (Readable line) &&
    match Request.receive line with
    | .ok (.data _ _) => decide ((s.handle line).reports = s.reports)
    | _ => false

/-- A line starts a transfer where there is none, or leaves all as it is. -/
theorem handle_transfer (s : Session) (line : String) :
    s.starts line = false ∧ (s.handle line).transfer = s.transfer ∨
      ∃ words delay, s.starts line = true ∧ Request.receive line = .ok (.data words delay) ∧
        s.transfer = none ∧ (s.handle line).transfer = some (acts delay words) := by
  have hhandled := s.handled line
  generalize hs' : s.handle line = s' at hhandled ⊢
  cases hhandled with
  | ignored hreads => simp [starts, hreads]
  | broken hreads hnot _ => simp [starts, hnot]
  | refused _ _ h => simp [starts, h]
  | busy hreads _ h _ =>
    simp [starts, h, hs', report_reports s (Bool.and_eq_true_iff.mp hreads).1]
  | cancels _ _ h => simp [starts, h]
  | @starts hreads hline words delay h hidle =>
    exact Or.inr ⟨words, delay, by simp [starts, hreads, hline, h, hs'], h, hidle, rfl⟩

theorem hangUp_transfer (s : Session) : s.hangUp.transfer = s.transfer := by
  unfold hangUp
  split
  · rfl
  · split <;> simp_all

end Session

/-! ## Events -/

/-- The client whose session an event is about. -/
def Event.client? : Event → Option Nat
  | .connect => none
  | .line client _ | .hangUp client | .advance client _ => some client

namespace Bridge

/-- The transfer of the client may go on: it has the sink, or nobody has. -/
def mayAdvance (b : Bridge) (client : Nat) : Prop := b.holder = none ∨ b.holder = some client

instance (b : Bridge) (client : Nat) : Decidable (b.mayAdvance client) :=
  inferInstanceAs (Decidable (_ ∨ _))

theorem advance_eq {b : Bridge} {client : Nat} {s : Session}
    (h : b.sessions[client]? = some s) (htransfer : s.transfer.isSome = true)
    (hsink : b.mayAdvance client) (refusal : Option TransferFault) :
    b.step (.advance client refusal) =
      { sessions := b.sessions.set client (s.advance refusal).1
        holder := if (s.advance refusal).1.transfer.isSome then some client else none
        sent := ((s.advance refusal).2.map b.sent.push).getD b.sent } := by
  rw [step, advance, h]
  exact if_pos ⟨htransfer, hsink⟩

theorem advance_eq_self {b : Bridge} {client : Nat} {s : Session}
    (h : b.sessions[client]? = some s) (hwaits : s.transfer = none ∨ ¬b.mayAdvance client)
    (refusal : Option TransferFault) : b.step (.advance client refusal) = b := by
  rw [step, advance, h]
  refine if_neg ?_
  rintro ⟨htransfer, hsink⟩
  rcases hwaits with hnone | hnot
  · simp [hnone] at htransfer
  · exact hnot hsink

/-- What may come of an event for the session of a client. -/
inductive Change (b : Bridge) (client : Nat) (s : Session) : Event → Session → Prop where
  /-- the event is about another client -/
  | other {e : Event} (h : e.client? ≠ some client) : Change b client s e s
  /-- a line is handled -/
  | line (text : String) : Change b client s (.line client text) (s.handle text)
  /-- the client hangs up -/
  | hangUp : Change b client s (.hangUp client) s.hangUp
  /-- there is no transfer, or it has to wait -/
  | waits (refusal : Option TransferFault) (h : s.transfer = none ∨ ¬b.mayAdvance client) :
    Change b client s (.advance client refusal) s
  /-- the transfer carries out its next act -/
  | advances (refusal : Option TransferFault) (h : s.transfer.isSome = true)
    (hsink : b.mayAdvance client) :
    Change b client s (.advance client refusal) (s.advance refusal).1

/-- A client that is connected stays known, and its session changes in one of these ways. -/
theorem exists_change {b : Bridge} {client : Nat} {s : Session}
    (h : b.sessions[client]? = some s) (e : Event) :
    ∃ s', (b.step e).sessions[client]? = some s' ∧ b.Change client s e s' := by
  obtain ⟨hlt, -⟩ := List.getElem?_eq_some_iff.mp h
  cases e with
  | connect =>
    refine ⟨s, ?_, .other (by simp [Event.client?])⟩
    rw [step, List.getElem?_append_left hlt, h]
  | line c text =>
    by_cases hc : c = client
    · subst hc
      exact ⟨_, by simp [step, h], .line text⟩
    · exact ⟨s, by simp [step, h, hc], .other (by simpa [Event.client?])⟩
  | hangUp c =>
    by_cases hc : c = client
    · subst hc
      exact ⟨_, by simp [step, h], .hangUp⟩
    · exact ⟨s, by simp [step, h, hc], .other (by simpa [Event.client?])⟩
  | advance c refusal =>
    by_cases hc : c = client
    · subst hc
      by_cases hsink : b.mayAdvance c
      · cases htransfer : s.transfer with
        | some acts =>
          have hsome : s.transfer.isSome = true := by rw [htransfer]; rfl
          refine ⟨_, ?_, .advances refusal hsome hsink⟩
          rw [advance_eq h hsome hsink]
          exact List.getElem?_set_self hlt
        | none =>
          refine ⟨s, ?_, .waits refusal (Or.inl htransfer)⟩
          rw [advance_eq_self h (Or.inl htransfer), h]
      · refine ⟨s, ?_, .waits refusal (Or.inr hsink)⟩
        rw [advance_eq_self h (Or.inr hsink), h]
    · refine ⟨s, ?_, .other (by simpa [Event.client?])⟩
      rw [step, advance]
      split
      · exact h
      · split
        · simp [h, hc]
        · exact h

/-- A client that is not connected stays so, unless it is the next one that connects. -/
theorem sessions_step_of_unknown {b : Bridge} {client : Nat} (h : b.sessions[client]? = none)
    (e : Event) :
    (b.step e).sessions[client]? = none ∨
      e = .connect ∧ (b.step e).sessions[client]? = some .new := by
  have hle : b.sessions.length ≤ client := List.getElem?_eq_none_iff.mp h
  cases e with
  | connect =>
    rcases Nat.eq_or_lt_of_le hle with heq | hlt
    · exact Or.inr ⟨rfl, by simp [step, ← heq]⟩
    · exact Or.inl (by simp [step]; omega)
  | line c text => exact Or.inl (by simpa [step] using hle)
  | hangUp c => exact Or.inl (by simpa [step] using hle)
  | advance c refusal =>
    left
    rw [step, advance]
    split
    · exact h
    · split
      · simpa using hle
      · exact h

/-- The session of a client after an event is new, or comes from the one before. -/
theorem change_of_step {b : Bridge} {client : Nat} {e : Event} {s' : Session}
    (h : (b.step e).sessions[client]? = some s') :
    b.sessions[client]? = none ∧ s' = .new ∨
      ∃ s, b.sessions[client]? = some s ∧ b.Change client s e s' := by
  cases hs : b.sessions[client]? with
  | none =>
    rcases sessions_step_of_unknown hs e with hnone | ⟨-, hnew⟩
    · simp [hnone] at h
    · exact Or.inl ⟨rfl, Option.some.inj (h.symm.trans hnew)⟩
  | some s =>
    obtain ⟨s'', hs'', hchange⟩ := exists_change hs e
    obtain rfl : s'' = s' := Option.some.inj (hs''.symm.trans h)
    exact Or.inr ⟨s, rfl, hchange⟩

/-! ## Runs -/

/-- The number of events of a run at which the test holds. -/
def count (test : Bridge → Event → Bool) : Bridge → List Event → Nat
  | _, [] => 0
  | b, e :: events => (test b e).toNat + count test (b.step e) events

/-- What every event changes by what it brings and takes, a run changes by all that its events
bring and take. -/
theorem count_balance (amount : Bridge → Nat) (gain loss : Bridge → Event → Bool)
    {P : Bridge → Prop} {Q : Event → Prop} (keep : ∀ b e, P b → Q e → P (b.step e))
    (step : ∀ b e, P b → Q e →
      amount (b.step e) + (loss b e).toNat = amount b + (gain b e).toNat)
    (events : List Event) :
    ∀ b, P b → (∀ e ∈ events, Q e) →
      P (b.run events) ∧ amount (b.run events) + count loss b events =
        amount b + count gain b events := by
  induction events with
  | nil => intro b hb _; exact ⟨hb, rfl⟩
  | cons e events ih =>
    intro b hb hevents
    obtain ⟨he, hrest⟩ := List.forall_mem_cons.mp hevents
    obtain ⟨hkept, hamount⟩ := ih (b.step e) (keep b e hb he) hrest
    refine ⟨hkept, ?_⟩
    have hfirst := step b e hb he
    simp only [count, run, List.foldl_cons] at hamount ⊢
    omega

theorem run_append (b : Bridge) (first second : List Event) :
    b.run (first ++ second) = (b.run first).run second := by
  simp [run]

theorem count_append (test : Bridge → Event → Bool) (b : Bridge) (first second : List Event) :
    count test b (first ++ second) = count test b first + count test (b.run first) second := by
  induction first generalizing b with
  | nil => simp [count, run]
  | cons e first ih =>
    rw [List.cons_append, count, count, ih, Nat.add_assoc]
    rfl

@[simp] theorem count_never (b : Bridge) (events : List Event) :
    count (fun _ _ => false) b events = 0 := by
  induction events generalizing b with
  | nil => rfl
  | cons e events ih => simp [count, ih]

end Bridge

end PocketAsm.Transfer
