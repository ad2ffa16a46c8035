/-
  Proofs/Transfer/Answers.lean --- every line of a client gets its answer.

  The events of a run are counted: lines that ask for something, transfers that
  start and that end.  Each event keeps a balance (`transferring_step`,
  `balance_step`), so a whole run does: a client has at most one transfer at a
  time, and while it has none it got as many final reports as it asked for.  A
  cancellation is never taken back from a running transfer, which then ends at
  its next check at the latest (`Marked.step`).

  That the answers arrive holds for lines that can be read.  A line that nests
  too deep breaks the session off, and with it the answer that is due
  (`deep_line_is_not_answered`), and so does a line of too many bytes.
-/
import PocketAsm.Proofs.Transfer.Nesting
import PocketAsm.Proofs.Transfer.Sessions

set_option autoImplicit false

namespace PocketAsm.Transfer

/-! ## Sound sessions -/

/-- A line that can be read and, if it asks for a transfer, asks for one whose numbers can be
computed. -/
def Answerable (line : String) : Prop :=
  Readable line ∧ ∀ words delay, Request.receive line = .ok (.data words delay) →
    delay.Feasible words.length

namespace Session

/-- A transfer that is under way can be computed and its numbers can be written, and its reports
reach the client. -/
def Sound (s : Session) : Prop :=
  ∀ acts, s.transfer = some acts → Proper acts ∧ s.connected = true

theorem sound_new : Session.new.Sound := nofun

/-- What may come of the next act of a transfer that can be computed. -/
inductive Acted (s : Session) (acts : List Act) : Session → Prop where
  /-- the transfer goes on, and may have said where it is -/
  | goesOn {act : Act} {rest : List Act} (hacts : acts = act :: rest) (hrest : Proper rest)
    (hcheck : ∀ checksum, act = .check checksum → s.cancelled = false) (reported : Option Status)
    (hreported : ∀ status ∈ reported, status.kind = .sending) :
    Acted s acts { (reported.map s.report).getD s with transfer := some rest }
  /-- the transfer ends with a report -/
  | ended {status : Status}
    (hkind : status.kind = .cancelled ∨ status.kind = .error ∨
      status.kind = .complete ∧ acts = [.finish status]) :
    Acted s acts (s.report status).release

theorem acted {s : Session} {acts : List Act} (h : s.transfer = some acts) (hproper : Proper acts)
    (refusal : Option TransferFault) : s.Acted acts (s.advance refusal).1 := by
  cases acts with
  | nil =>
    obtain ⟨body, status, hacts, -⟩ := hproper
    simp at hacts
  | cons act rest =>
    rcases hproper.cases with ⟨rfl, status, rfl, hkind⟩ | ⟨hopen, hrest⟩
    · simp only [advance, h]
      exact .ended (Or.inr (Or.inr ⟨hkind, rfl⟩))
    · cases act with
      | report status =>
        have hsending : status.kind = .sending := by simpa [Act.isOpen] using hopen
        simp only [advance, h]
        exact .goesOn rfl hrest (by simp) (some status) (by simpa)
      | send m =>
        by_cases hfits : m.Fits
        · obtain ⟨text, hencode⟩ := hfits.encode
          cases refusal with
          | some fault =>
            simp only [advance, h, Act.effect, hencode]
            exact .ended (Or.inr (Or.inl rfl))
          | none =>
            simp only [advance, h, Act.effect, hencode]
            exact .goesOn rfl hrest (by simp) none (by simp)
        · -- the value that does not fit can be written, so what is wrong with it is reported
          have hfault : Failure.ofFault (.wideValue m.value) = .transfer (.wideValue m.value) := by
            rw [Failure.ofFault_wideValue]
            exact if_pos hopen
          simp only [advance, h, Act.effect, Message.encode_of_not_fits hfits, hfault]
          exact .ended (Or.inr (Or.inl rfl))
      | check checksum =>
        cases hcancelled : s.cancelled with
        | true =>
          simp only [advance, h, Act.effect, hcancelled]
          exact .ended (Or.inl rfl)
        | false =>
          simp only [advance, h, Act.effect, hcancelled]
          exact .goesOn rfl hrest (fun _ _ => hcancelled) none (by simp)
      | finish status => simp [Act.isOpen] at hopen
      | giveUp fault => simp [Act.isOpen] at hopen

theorem Sound.handle {s : Session} (hs : s.Sound) {line : String} (hline : Answerable line) :
    (s.handle line).Sound := by
  obtain ⟨hreadable, hfeasible⟩ := hline
  have hhandled := s.handled line
  generalize s.handle line = s' at hhandled ⊢
  cases hhandled with
  | ignored _ => exact hs
  | broken _ hnot _ => exact absurd hreadable hnot
  | refused _ _ _ => simpa [Sound] using hs
  | busy _ _ _ _ => simpa [Sound] using hs
  | cancels _ _ _ => exact hs
  | starts hreads _ h _ =>
    intro acts hacts
    rw [← Option.some.inj hacts]
    exact ⟨proper_acts (hfeasible _ _ h) (Request.areWritable_of_receive h),
      (Bool.and_eq_true_iff.mp hreads).1⟩

theorem Sound.hangUp {s : Session} (hs : s.Sound) : s.hangUp.Sound := by
  unfold Session.hangUp
  split
  · exact hs
  · split
    · exact hs
    · rename_i hidle
      simp [Sound, hidle]

theorem Sound.advance {s : Session} (hs : s.Sound) (refusal : Option TransferFault) :
    (s.advance refusal).1.Sound := by
  cases htransfer : s.transfer with
  | none =>
    simp only [Session.advance, htransfer]
    exact hs
  | some acts =>
    obtain ⟨hproper, hconnected⟩ := hs acts htransfer
    have hacted := acted htransfer hproper refusal
    generalize (s.advance refusal).1 = s' at hacted ⊢
    cases hacted with
    | goesOn _ hrest _ reported _ =>
      intro acts hacts
      rw [← Option.some.inj hacts]
      refine ⟨hrest, ?_⟩
      cases reported <;> simpa
    | ended _ => simp [Sound]

/-! ## What is owed to a session -/

/-- The final reports that were written, and the one that a transfer under way still owes. -/
def balance (s : Session) : Nat :=
  s.reports.toList.countP Status.finished + s.transfer.isSome.toNat

/-- The line is handled and is no cancellation. -/
def asks (s : Session) (line : String) : Bool :=
  s.reads && decide (Request.receive line ≠ .ok .cancel)

theorem balance_report {s : Session} (h : s.connected = true) (status : Status) :
    (s.report status).balance = s.balance + status.finished.toNat := by
  simp only [balance, report_reports s h, report_transfer, Array.toList_push, List.countP_append,
    List.countP_singleton]
  cases status.finished with
  | false => simp
  | true =>
    simp
    omega

/-- A line that asks for something is answered, or starts a transfer. -/
theorem balance_handle {s : Session} {line : String} (hline : Readable line) :
    (s.handle line).balance = s.balance + (s.asks line).toNat := by
  have hhandled := s.handled line
  generalize s.handle line = s' at hhandled ⊢
  have hconnected (hreads : s.reads = true) : s.connected = true :=
    (Bool.and_eq_true_iff.mp hreads).1
  cases hhandled with
  | ignored hreads => simp [asks, hreads]
  | broken _ hnot _ => exact absurd hline hnot
  | refused hreads _ h =>
    rw [balance_report (hconnected hreads)]
    simp [asks, hreads, h, Status.finished, Status.ofError]
  | busy hreads _ h _ =>
    rw [balance_report (hconnected hreads)]
    simp [asks, hreads, h, Status.finished, Status.ofError]
  | cancels hreads _ h => simp [asks, hreads, h, balance]
  | starts hreads _ h hidle => simp [asks, hreads, h, balance, hidle]

theorem balance_hangUp (s : Session) : s.hangUp.balance = s.balance := by
  unfold hangUp
  split
  · rfl
  · split <;> rfl

/-- An act that ends the transfer writes its final report, and no other act writes one. -/
theorem balance_advance {s : Session} (hs : s.Sound) (refusal : Option TransferFault) :
    (s.advance refusal).1.balance = s.balance := by
  cases htransfer : s.transfer with
  | none => simp only [advance, htransfer]
  | some acts =>
    obtain ⟨hproper, hconnected⟩ := hs acts htransfer
    have hacted := acted htransfer hproper refusal
    generalize (s.advance refusal).1 = s' at hacted ⊢
    cases hacted with
    | goesOn _ _ _ reported hreported =>
      cases reported with
      | none => simp [balance, htransfer]
      | some status =>
        have hopen : status.finished = false := by
          simp [Status.finished, hreported status rfl]
        simp [balance, report_reports s hconnected, htransfer, hopen]
    | @ended status hkind =>
      have hdone : status.finished = true := by
        rcases hkind with hkind | hkind | ⟨hkind, -⟩ <;> simp [Status.finished, hkind]
      simp [balance, report_reports s hconnected, htransfer, hdone]

/-! ## Cancellations -/

/-- A line starts a transfer only where there is none, and changes none that is under way. -/
theorem transferring_handle (s : Session) (line : String) :
    (s.handle line).transfer.isSome.toNat = s.transfer.isSome.toNat + (s.starts line).toNat := by
  rcases s.handle_transfer line with ⟨hstarts, hsame⟩ | ⟨words, delay, hstarts, -, hidle, hnew⟩
  · simp [hstarts, hsame]
  · simp [hstarts, hidle, hnew]

/-- A line leaves a transfer that is under way as it is, and takes no cancellation back from it. -/
theorem handle_of_transferring {s : Session} (htransfer : s.transfer.isSome = true)
    (line : String) :
    (s.handle line).transfer = s.transfer ∧
      (s.cancelled = true → (s.handle line).cancelled = true) := by
  have hhandled := s.handled line
  generalize s.handle line = s' at hhandled ⊢
  cases hhandled with
  | ignored _ => exact ⟨rfl, id⟩
  | broken _ _ _ => exact ⟨rfl, id⟩
  | refused _ _ _ => simp
  | busy _ _ _ _ => simp
  | cancels _ _ _ => simp
  | starts _ _ _ hidle => simp [hidle] at htransfer

theorem cancelled_hangUp {s : Session} (h : s.cancelled = true) : s.hangUp.cancelled = true := by
  unfold hangUp
  split
  · exact h
  · split
    · rfl
    · exact h

/-- A cancellation stands, and the transfer has still to check for one. -/
structure Marked (s : Session) : Prop where
  cancelled : s.cancelled = true
  check : ∃ acts checksum, s.transfer = some acts ∧ .check checksum ∈ acts

theorem Marked.transferring {s : Session} (h : s.Marked) : s.transfer.isSome = true := by
  obtain ⟨acts, checksum, hacts, -⟩ := h.check
  simp [hacts]

/-- A line that cancels a transfer before its last check marks the session. -/
theorem marked_handle {s : Session} (hreads : s.reads = true) {line : String}
    (hline : Readable line) (h : Request.receive line = .ok .cancel) {acts : List Act}
    {checksum : Int} (hacts : s.transfer = some acts) (hcheck : .check checksum ∈ acts) :
    (s.handle line).Marked := by
  have hhandle : s.handle line = { s with cancelled := true } := by
    rw [handle, if_neg (by simp [hreads]), if_neg (Nat.not_lt.mpr hline.1), h]
    rfl
  rw [hhandle]
  exact ⟨rfl, acts, checksum, hacts, hcheck⟩

/-- A transfer that is to be cancelled does not pass its next check; before it only an error ends
it. -/
theorem Marked.advance {s : Session} (h : s.Marked) (hs : s.Sound)
    (refusal : Option TransferFault) :
    (s.advance refusal).1.Marked ∨
      (s.advance refusal).1.transfer = none ∧
        ∃ status, (s.advance refusal).1.reports = s.reports.push status ∧
          (status.kind = .cancelled ∨ status.kind = .error) := by
  obtain ⟨hcancelled, acts, checksum, htransfer, hcheck⟩ := h
  obtain ⟨hproper, hconnected⟩ := hs acts htransfer
  have hstays := cancelled_advance (s := s) refusal
  have hacted := acted htransfer hproper refusal
  generalize (s.advance refusal).1 = s' at hstays hacted ⊢
  cases hacted with
  | @goesOn act rest hacts _ hpassed reported _ =>
    refine Or.inl ⟨hstays.trans hcancelled, rest, checksum, rfl, ?_⟩
    rw [hacts] at hcheck
    rcases List.mem_cons.mp hcheck with hfirst | hrest
    · simp [hpassed checksum hfirst.symm] at hcancelled
    · exact hrest
  | @ended status hkind =>
    refine Or.inr ⟨rfl, status, by simp [report_reports s hconnected], ?_⟩
    rcases hkind with hkind | hkind | ⟨-, hacts⟩
    · exact Or.inl hkind
    · exact Or.inr hkind
    · simp [hacts] at hcheck

end Session

/-! ## Counting along a run -/

namespace Bridge

/-- A transfer of the client is under way. -/
def transferring (b : Bridge) (client : Nat) : Bool :=
  (b.sessions[client]?).any (·.transfer.isSome)

/-- A cancellation of the client stands. -/
def cancelled (b : Bridge) (client : Nat) : Bool := (b.sessions[client]?).any (·.cancelled)

/-- The final reports that a client got. -/
def finished (b : Bridge) (client : Nat) : Nat := (b.reports client).countP Status.finished

/-- A line of the client is handled, and is no cancellation. -/
def asks (client : Nat) (b : Bridge) : Event → Bool
  | .line c text => c == client && (b.sessions[client]?).any (·.asks text)
  | _ => false

/-- A line of the client starts a transfer. -/
def starts (client : Nat) (b : Bridge) : Event → Bool
  | .line c text => c == client && (b.sessions[client]?).any (·.starts text)
  | _ => false

/-- The transfer of the client carries out an act. -/
def moves (client : Nat) (b : Bridge) : Event → Bool
  | .advance c _ => c == client && b.transferring client && decide (b.mayAdvance client)
  | _ => false

/-- The transfer of the client ends. -/
def ends (client : Nat) (b : Bridge) (e : Event) : Bool :=
  b.transferring client && !(b.step e).transferring client

section Steps

variable {client : Nat} {b : Bridge} {s : Session}

theorem transferring_eq (h : b.sessions[client]? = some s) :
    b.transferring client = s.transfer.isSome := by
  simp [transferring, h]

/-- One event starts or ends at most one transfer, and starts one only where there is none. -/
theorem transferring_step (client : Nat) (b : Bridge) (e : Event) :
    ((b.step e).transferring client).toNat + (ends client b e).toNat =
      (b.transferring client).toNat + (starts client b e).toNat := by
  cases h : b.sessions[client]? with
  | none =>
    have hbefore : b.transferring client = false := by simp [transferring, h]
    have hstarts : starts client b e = false := by cases e <;> simp [starts, h]
    have hafter : (b.step e).transferring client = false := by
      rcases sessions_step_of_unknown h e with hnone | ⟨-, hnew⟩
      · simp [transferring, hnone]
      · simp [transferring, hnew, Session.new]
    simp [ends, hbefore, hstarts, hafter]
  | some s =>
    obtain ⟨s', hs', hchange⟩ := exists_change h e
    rw [ends, transferring_eq h, transferring_eq hs']
    cases hchange with
    | other hother =>
      have hstarts : starts client b e = false := by
        cases e <;> simp_all [starts, Event.client?]
      simp [hstarts]
    | line text =>
      have hline : starts client b (.line client text) = s.starts text := by simp [starts, h]
      have hhandle := s.transferring_handle text
      rw [hline, hhandle]
      cases hbefore : s.transfer.isSome with
      | false => simp
      | true => simp [(Session.handle_of_transferring hbefore text).1, hbefore]
    | hangUp => simp [Session.hangUp_transfer, starts]
    | waits _ _ => simp [starts]
    | advances _ htransfer _ =>
      rw [htransfer]
      cases (s.advance _).1.transfer.isSome <;> simp [starts]

/-- The transfers of the client are sound. -/
def Sound (client : Nat) (b : Bridge) : Prop := ∀ s, b.sessions[client]? = some s → s.Sound

theorem Sound.step (hb : b.Sound client) {e : Event}
    (he : ∀ text, e = .line client text → Answerable text) : (b.step e).Sound client := by
  intro s' hs'
  rcases change_of_step hs' with ⟨-, rfl⟩ | ⟨s, h, hchange⟩
  · exact Session.sound_new
  · cases hchange with
    | other _ => exact hb s' h
    | line text => exact (hb s h).handle (he text rfl)
    | hangUp => exact (hb s h).hangUp
    | waits _ _ => exact hb s' h
    | advances refusal _ _ => exact (hb s h).advance refusal

/-- What is owed to a client changes by the lines that ask for something. -/
theorem balance_step (hb : b.Sound client) {e : Event}
    (he : ∀ text, e = .line client text → Answerable text) :
    (b.step e).finished client + ((b.step e).transferring client).toNat =
      b.finished client + (b.transferring client).toNat + (asks client b e).toNat := by
  have hbalance {b : Bridge} {s : Session} (h : b.sessions[client]? = some s) :
      b.finished client + (b.transferring client).toNat = s.balance := by
    simp [finished, reports, transferring, h, Session.balance]
  cases h : b.sessions[client]? with
  | none =>
    have hasks : asks client b e = false := by cases e <;> simp [asks, h]
    have hbefore : b.finished client + (b.transferring client).toNat = 0 := by
      simp [finished, reports, transferring, h]
    rw [hbefore, hasks]
    rcases sessions_step_of_unknown h e with hnone | ⟨-, hnew⟩
    · simp [finished, reports, transferring, hnone]
    · simp [finished, reports, transferring, hnew, Session.new]
  | some s =>
    obtain ⟨s', hs', hchange⟩ := exists_change h e
    rw [hbalance h, hbalance hs']
    cases hchange with
    | other hother =>
      have hasks : asks client b e = false := by cases e <;> simp_all [asks, Event.client?]
      simp [hasks]
    | line text =>
      rw [Session.balance_handle (he text rfl).1]
      simp [asks, h]
    | hangUp => simp [Session.balance_hangUp, asks]
    | waits _ _ => simp [asks]
    | advances refusal _ _ => simp [Session.balance_advance (hb s h), asks]

/-- A cancellation is not taken back while a transfer is under way. -/
theorem cancelled_step (htransfer : b.transferring client = true)
    (hcancelled : b.cancelled client = true) (e : Event) :
    (b.step e).cancelled client = true := by
  obtain ⟨s, h, hbusy⟩ := (Option.any_eq_true _ _).mp htransfer
  have hs : s.cancelled = true := by simpa [cancelled, h] using hcancelled
  obtain ⟨s', hs', hchange⟩ := exists_change h e
  rw [cancelled, hs', Option.any_some]
  cases hchange with
  | other _ => exact hs
  | line text => exact (Session.handle_of_transferring hbusy text).2 hs
  | hangUp => exact Session.cancelled_hangUp hs
  | waits _ _ => exact hs
  | advances refusal _ _ => exact (Session.cancelled_advance refusal).trans hs

/-- A transfer that is not ended by an event has as many acts left as before, less the one that it
carried out. -/
theorem pending_step (hb : b.Sound client) (htransfer : b.transferring client = true) {e : Event}
    (hend : ends client b e = false) :
    (b.step e).pending client + (moves client b e).toNat = b.pending client := by
  obtain ⟨s, h, hbusy⟩ := (Option.any_eq_true _ _).mp htransfer
  obtain ⟨acts, hacts⟩ := Option.isSome_iff_exists.mp hbusy
  obtain ⟨s', hs', hchange⟩ := exists_change h e
  have hpending {b : Bridge} {s : Session} {acts : List Act} (h : b.sessions[client]? = some s)
      (hacts : s.transfer = some acts) : b.pending client = acts.length := by
    simp [pending, h, hacts]
  rw [hpending h hacts]
  cases hchange with
  | other hother =>
    have hmoves : moves client b e = false := by cases e <;> simp_all [moves, Event.client?]
    rw [hpending hs' hacts, hmoves]
    rfl
  | line text =>
    rw [hpending hs' ((Session.handle_of_transferring hbusy text).1.trans hacts)]
    rfl
  | hangUp =>
    rw [hpending hs' ((Session.hangUp_transfer s).trans hacts)]
    rfl
  | waits refusal hwaits =>
    have hsink : ¬b.mayAdvance client := by simpa [hacts] using hwaits
    rw [hpending hs' hacts]
    simp [moves, hsink]
  | advances refusal _ hsink =>
    have hmoves : moves client b (.advance client refusal) = true := by
      simp [moves, htransfer, hsink]
    rw [hmoves]
    rw [ends, htransfer, transferring_eq hs'] at hend
    have hacted := Session.acted hacts ((hb s h) acts hacts).1 refusal
    generalize (s.advance refusal).1 = s'' at hacted hs' hend
    cases hacted with
    | goesOn hsplit _ _ _ _ => simp [hpending hs' rfl, hsplit]
    | ended _ => simp at hend

/-- A cancellation of the client stands, and its transfer has still to check for one. -/
def Marked (client : Nat) (b : Bridge) : Prop := ∃ s, b.sessions[client]? = some s ∧ s.Marked

theorem Marked.transferring (h : b.Marked client) : b.transferring client = true := by
  obtain ⟨s, hs, hmarked⟩ := h
  rw [transferring_eq hs, hmarked.transferring]

theorem Marked.pending_pos (h : b.Marked client) : 0 < b.pending client := by
  obtain ⟨s, hs, -, acts, checksum, hacts, hcheck⟩ := h
  simp only [pending, hs, Option.bind_some, hacts]
  exact List.length_pos_of_mem hcheck

/-- A transfer that is to be cancelled stays so until it ends, and it ends cancelled or by an
error. -/
theorem Marked.step (h : b.Marked client) (hb : b.Sound client) (e : Event) :
    (b.step e).Marked client ∨
      ends client b e = true ∧
        ∃ status : Status, (b.step e).reports client = b.reports client ++ [status] ∧
          (status.kind = .cancelled ∨ status.kind = .error) := by
  have htransferring := h.transferring
  obtain ⟨s, hs, hmarked⟩ := h
  have hbusy := hmarked.transferring
  obtain ⟨hcancelled, acts, checksum, hacts, hcheck⟩ := hmarked
  obtain ⟨s', hs', hchange⟩ := exists_change hs e
  cases hchange with
  | other _ => exact Or.inl ⟨s, hs', hcancelled, acts, checksum, hacts, hcheck⟩
  | line text =>
    obtain ⟨htransfer, hstays⟩ := Session.handle_of_transferring hbusy text
    exact Or.inl ⟨_, hs', hstays hcancelled, acts, checksum, htransfer.trans hacts, hcheck⟩
  | hangUp =>
    exact Or.inl ⟨_, hs', Session.cancelled_hangUp hcancelled, acts, checksum,
      (Session.hangUp_transfer s).trans hacts, hcheck⟩
  | waits _ _ => exact Or.inl ⟨s, hs', hcancelled, acts, checksum, hacts, hcheck⟩
  | advances refusal _ _ =>
    have hmarked : s.Marked := ⟨hcancelled, acts, checksum, hacts, hcheck⟩
    rcases hmarked.advance (hb s hs) refusal with hmarked' | ⟨hnone, status, hreports, hkind⟩
    · exact Or.inl ⟨_, hs', hmarked'⟩
    · refine Or.inr ⟨?_, status, ?_, hkind⟩
      · rw [ends, htransferring, transferring_eq hs', hnone]
        rfl
      · simp [reports, hs, hs', hreports]

/-- As long as a transfer that is to be cancelled does not end, it is nearer to its end by the acts
it carried out. -/
theorem Marked.run {events : List Event} (h : b.Marked client) (hb : b.Sound client)
    (hlines : ∀ text, .line client text ∈ events → Answerable text)
    (hnone : count (ends client) b events = 0) :
    (b.run events).Marked client ∧ (b.run events).Sound client ∧
      (b.run events).pending client + count (moves client) b events = b.pending client := by
  induction events generalizing b with
  | nil => exact ⟨h, hb, rfl⟩
  | cons e events ih =>
    rw [count, Nat.add_eq_zero_iff] at hnone
    have hend : ends client b e = false := by simpa using hnone.1
    have hfirst : ∀ text, e = .line client text → Answerable text := by
      rintro text rfl
      exact hlines text List.mem_cons_self
    have hmarked : (b.step e).Marked client := by
      rcases h.step hb e with hmarked | ⟨hends, -⟩
      · exact hmarked
      · simp [hend] at hends
    have hpending := pending_step hb h.transferring hend
    obtain ⟨hmarked', hsound', hpending'⟩ := ih hmarked (hb.step hfirst)
      (fun text htext => hlines text (List.mem_cons_of_mem e htext)) hnone.2
    refine ⟨hmarked', hsound', ?_⟩
    rw [count]
    have hrun : b.run (e :: events) = (b.step e).run events := rfl
    rw [hrun]
    omega

end Steps

/-! ## Runs -/

theorem sound_new (client : Nat) : Bridge.new.Sound client := by
  simp [Sound, Bridge.new]

/-- Every transfer that a client started has ended, but for the one that is under way. -/
theorem started_run (client : Nat) (events : List Event) :
    count (starts client) Bridge.new events = count (ends client) Bridge.new events +
      ((Bridge.new.run events).transferring client).toNat := by
  obtain ⟨-, hstarted⟩ := count_balance (fun b => (b.transferring client).toNat) (starts client)
    (ends client) (P := fun _ => True) (Q := fun _ => True) (fun _ _ _ _ => trivial)
    (fun b e _ _ => transferring_step client b e) events Bridge.new trivial (fun _ _ => trivial)
  have hnew : Bridge.new.transferring client = false := by simp [transferring, Bridge.new]
  rw [hnew] at hstarted
  simp only [Bool.toNat_false] at hstarted
  omega

/-- Every line that asked for something got its final report, but for one that started the transfer
that is under way. -/
theorem answered_run {client : Nat} {events : List Event}
    (hlines : ∀ text, .line client text ∈ events → Answerable text) :
    (Bridge.new.run events).Sound client ∧
      (Bridge.new.run events).finished client +
        ((Bridge.new.run events).transferring client).toNat =
          count (asks client) Bridge.new events := by
  obtain ⟨hsound, hanswered⟩ := count_balance
    (fun b => b.finished client + (b.transferring client).toNat) (asks client) (fun _ _ => false)
    (P := Sound client) (Q := fun e => ∀ text, e = .line client text → Answerable text)
    (fun b e hb he => hb.step he) (fun b e hb he => balance_step hb he) events Bridge.new
    (sound_new client) (by rintro e he text rfl; exact hlines text he)
  refine ⟨hsound, ?_⟩
  have hnew : Bridge.new.finished client + (Bridge.new.transferring client).toNat = 0 := by
    simp [finished, reports, transferring, Bridge.new]
  rw [count_never, hnew, Nat.zero_add] at hanswered
  exact hanswered

/-- Whatever the lines of a client are: every transfer that was started has ended but for at most
one, and a cancellation is not taken back while a transfer is under way.  If all of the lines can be
read, a cancellation that comes before the last check ends the transfer unless an error does, and
while no transfer is under way the client got a final report for every line but its cancellations.
There are two ways out: values that nest too deep (`Failure.tooDeep`), and a line of more than
`maxLineBytes` bytes (`Failure.longLine`), which is not read to its end. -/
theorem lines_are_answered (client : Nat) (events : List Event) :
    count (starts client) Bridge.new events = count (ends client) Bridge.new events +
        ((Bridge.new.run events).transferring client).toNat ∧
    (∀ before e after, events = before ++ e :: after →
      (Bridge.new.run before).transferring client = true →
      (Bridge.new.run before).cancelled client = true →
      ((Bridge.new.run before).step e).cancelled client = true) ∧
    ((∀ text, .line client text ∈ events → Answerable text) →
      (∀ before text more e after,
        events = before ++ .line client text :: (more ++ e :: after) →
        Request.receive text = .ok .cancel →
        ∀ s acts checksum, (Bridge.new.run before).sessions[client]? = some s → s.reads = true →
          s.transfer = some acts → .check checksum ∈ acts →
        let b := (Bridge.new.run before).step (.line client text)
        count (ends client) b more = 0 →
        count (moves client) b more < acts.length ∧
        (ends client (b.run more) e = true → ∃ status,
          ((b.run more).step e).reports client = (b.run more).reports client ++ [status] ∧
            (status.kind = .cancelled ∨ status.kind = .error))) ∧
      ((Bridge.new.run events).transferring client = false →
        (Bridge.new.run events).finished client = count (asks client) Bridge.new events)) := by
  refine ⟨started_run client events, ?_, fun hlines => ⟨?_, fun hidle => ?_⟩⟩
  · intro before e after _ htransfer hcancelled
    exact cancelled_step htransfer hcancelled e
  · intro before text more e after hevents hcancel s acts checksum hs hreads hacts hcheck b hnone
    subst hevents
    have hbefore : (Bridge.new.run before).Sound client :=
      (answered_run fun text htext => hlines text (by simp [htext])).1
    have hline : Answerable text := hlines text (by simp)
    have hb : b.Sound client := hbefore.step (by rintro _ ⟨⟩; exact hline)
    have hs' : b.sessions[client]? = some (s.handle text) := by simp [b, step, hs]
    have hmarked : b.Marked client :=
      ⟨_, hs', Session.marked_handle hreads hline.1 hcancel hacts hcheck⟩
    have hpending : b.pending client = acts.length := by
      have htransfer := (Session.handle_of_transferring (by simp [hacts]) text).1.trans hacts
      simp [pending, hs', htransfer]
    obtain ⟨hmarked', hsound', hmoves⟩ := hmarked.run hb
      (fun text htext => hlines text (by simp [htext])) hnone
    have hpos := hmarked'.pending_pos
    refine ⟨by omega, fun hends => ?_⟩
    rcases hmarked'.step hsound' e with hstill | ⟨-, hended⟩
    · simp [ends, hstill.transferring] at hends
    · exact hended
  · simpa [hidle] using (answered_run hlines).2

/-- A transfer of two pairs that is cancelled at once ends after the first pair, with one final
report for the line that started it. -/
theorem cancelled_transfer_is_answered :
    let events := [.connect, .line 0 (Request.dataLine [(0, 1), (1, 2)] .standard),
      .line 0 Request.cancelLine] ++ List.replicate 8 (.advance 0 none)
    (∀ text, .line 0 text ∈ events → Answerable text) ∧
      (Bridge.new.run events).transferring 0 = false ∧
      ((Bridge.new.run events).reports 0).map Status.kind = [.sending, .cancelled] ∧
      (Bridge.new.run events).finished 0 = count (asks 0) Bridge.new events := by
  intro events
  let line := Request.dataLine [(0, 1), (1, 2)] .standard
  obtain ⟨hreceive, hsize, hcancel, hsize', hidle, hkinds⟩ :
      Request.receive line = .ok (.data [(0, 1), (1, 2)] .standard) ∧
        line.utf8ByteSize ≤ maxLineBytes ∧
        Request.receive Request.cancelLine = .ok .cancel ∧
        Request.cancelLine.utf8ByteSize ≤ maxLineBytes ∧
        (Bridge.new.run events).transferring 0 = false ∧
        ((Bridge.new.run events).reports 0).map Status.kind = [.sending, .cancelled] := by
    decide +kernel
  have hlines : ∀ text, Event.line 0 text ∈ events → Answerable text := by
    intro text htext
    have htext' : text = line ∨ text = Request.cancelLine := by
      simpa [events] using htext
    rcases htext' with rfl | rfl
    · refine ⟨⟨hsize, by simp [hreceive]⟩, fun words delay h => ?_⟩
      rw [hreceive] at h
      cases h
      exact Delay.standard_feasible (by decide)
    · exact ⟨⟨hsize', by simp [hcancel]⟩, by simp [hcancel]⟩
  exact ⟨hlines, hidle, hkinds, ((lines_are_answered 0 _).2.2 hlines).2 hidle⟩

/-- A line that nests too deep gets no report, and keeps the final report of the transfer that is
under way from the client. -/
theorem deep_line_is_not_answered :
    let events := [.connect, .line 0 (Request.dataLine [(0, 1)] .standard),
      .line 0 (String.ofList (List.replicate 2000 '['))] ++ List.replicate 11 (.advance 0 none)
    (Bridge.new.run events).transferring 0 = false ∧
      count (asks 0) Bridge.new events = 2 ∧ (Bridge.new.run events).finished 0 = 0 := by
  obtain ⟨s, hs⟩ : ∃ s, s = Session.new.serve (.data [(0, 1)] .standard) := ⟨_, rfl⟩
  obtain ⟨hstarted, hfirst⟩ : Session.new.handle (Request.dataLine [(0, 1)] .standard) = s ∧
      Session.new.asks (Request.dataLine [(0, 1)] .standard) = true := by
    rw [hs]
    decide +kernel
  have hreads : s.reads = true := by
    rw [hs]
    rfl
  have hdeep := Request.receive_brackets (n := 2000) (by decide)
  have hbroken := Session.handle_brackets hreads (n := 2000) (by decide) (by decide)
  -- nothing else matters about the two lines, and neither is ever evaluated
  dsimp only
  generalize Request.dataLine [(0, 1)] .standard = line at hstarted hfirst ⊢
  generalize String.ofList (List.replicate 2000 '[') = deep at hdeep hbroken ⊢
  have hrun : Bridge.new.run [.connect, .line 0 line, .line 0 deep] =
      ⟨[s.breakOff .tooDeep], none, #[]⟩ := by
    simp [run, step, Bridge.new, hstarted, hbroken]
  have hcount : count (asks 0) Bridge.new [.connect, .line 0 line, .line 0 deep] = 2 := by
    have hconnect : asks 0 Bridge.new .connect = false := rfl
    have hline : asks 0 (Bridge.new.step .connect) (.line 0 line) = true := by
      simp [asks, step, Bridge.new, hfirst]
    have hlast : asks 0 ((Bridge.new.step .connect).step (.line 0 line)) (.line 0 deep) = true := by
      simp [asks, Session.asks, step, Bridge.new, hstarted, hreads, hdeep]
    rw [count, count, count, count, hconnect, hline, hlast]
    rfl
  rw [count_append, run_append, hrun, hcount, hs]
  decide +kernel

end Bridge

end PocketAsm.Transfer
