/-
  Proofs/Transfer/Blocks.lean --- the messages of a transfer stand together.

  A bridge is watched (`Watch.step`): every line that starts a transfer is noted
  as the origin of it, and the messages of every act are noted for the transfer
  of the client that acts.  As long as one transfer acts after the other for the
  same origin its messages are one block; when another one acts, a block ends.
  The watch sees events and what becomes of the bridge, and does not ask who
  holds the sink.

  That nobody else acts while the sink is held is the invariant `Watch.Sound`:
  a transfer that waits has done nothing yet, and the one that holds the sink
  has the last block.  So no transfer comes back to the sink once another one
  has acted, and every block is the beginning of what its transfer sends by
  itself (`messages_come_in_blocks`).
-/
import PocketAsm.Proofs.Transfer.Sessions

set_option autoImplicit false

namespace PocketAsm.Transfer

/-! ## Transfers by themselves -/

/-- A transfer: the number of the event that started it, and what it was asked for. -/
structure Job where
  number : Nat
  words : List Word
  delay : Delay
  deriving DecidableEq, Repr

namespace Job

/-- All acts of the transfer. -/
def acts (job : Job) : List Act := Transfer.acts job.delay job.words

/-- The messages that the transfer sends by itself. -/
def messages (job : Job) : List Message := (transfer job.delay job.words).1.sent.toList

/-- Among the events the numbered one is a line that asks for the transfer. -/
def AskedIn (job : Job) (past : List Event) : Prop :=
  ∃ client text, past[job.number]? = some (.line client text) ∧
    Request.receive text = .ok (.data job.words job.delay)

/-- By itself the transfer comes to the point where it has sent these messages and has these acts
left. -/
def Reaches (job : Job) (left : List Act) (sent : List Message) : Prop :=
  ∃ log : Log, log.sent.toList = sent ∧
    carryOut job.acts ⟨#[], #[]⟩ = carryOut left log

theorem AskedIn.lt {job : Job} {past : List Event} (h : job.AskedIn past) :
    job.number < past.length := by
  obtain ⟨client, text, hline, -⟩ := h
  exact (List.getElem?_eq_some_iff.mp hline).1

theorem AskedIn.concat {job : Job} {past : List Event} (h : job.AskedIn past) (e : Event) :
    job.AskedIn (past ++ [e]) := by
  obtain ⟨client, text, hline, hreceive⟩ := h
  refine ⟨client, text, ?_, hreceive⟩
  rw [List.getElem?_append_left (AskedIn.lt ⟨client, text, hline, hreceive⟩), hline]

theorem reaches_acts (job : Job) : job.Reaches job.acts [] := ⟨⟨#[], #[]⟩, rfl, rfl⟩

theorem Reaches.isPrefix {job : Job} {left : List Act} {sent : List Message}
    (h : job.Reaches left sent) : sent <+: job.messages := by
  obtain ⟨log, rfl, hcarry⟩ := h
  have hmessages : job.messages = (carryOut left log).1.sent.toList := by
    rw [← hcarry]
    rfl
  rw [hmessages]
  exact sent_isPrefix_perform left log

/-- Whatever interferes with the next act, the messages stay the beginning of those that the
transfer sends by itself; if it goes on, it is where it would be by itself. -/
theorem Reaches.advance {job : Job} {left : List Act} {sent : List Message}
    (h : job.Reaches left sent) {s : Session} (hs : s.transfer = some left)
    (refusal : Option TransferFault) :
    sent ++ (s.advance refusal).2.toList <+: job.messages ∧
      ∀ left', (s.advance refusal).1.transfer = some left' →
        job.Reaches left' (sent ++ (s.advance refusal).2.toList) := by
  cases left with
  | nil =>
    have hadvance : s.advance refusal = (s.release, none) := by simp only [Session.advance, hs]
    rw [hadvance]
    exact ⟨by simpa using h.isPrefix, by simp⟩
  | cons act rest =>
    rw [Session.transfer_advance hs, Session.message_advance hs]
    cases houtcome : (act.effect refusal s.cancelled).outcome with
    | some outcome =>
      rw [Act.sent_of_outcome houtcome]
      exact ⟨by simpa using h.isPrefix, by simp⟩
    | none =>
      obtain ⟨log, rfl, hcarry⟩ := h
      have hplain := Act.effect_eq_of_outcome houtcome
      rw [hplain] at houtcome ⊢
      have hreaches :
          job.Reaches rest (log.sent.toList ++ (act.effect none false).sent.toList) := by
        refine ⟨log.add (act.effect none false), ?_, ?_⟩
        · cases hsent : (act.effect none false).sent <;> simp [Log.add, hsent]
        · rw [hcarry, carryOut, perform]
          simp only [houtcome]
      refine ⟨hreaches.isPrefix, ?_⟩
      rintro left' ⟨⟩
      exact hreaches

/-- The first message resets the checksum, unless the sink refuses it, which ends the transfer. -/
theorem first_message (job : Job) {s : Session} (hs : s.transfer = some job.acts)
    (refusal : Option TransferFault) :
    (s.advance refusal).2 = some ⟨.resetChecksum, 0⟩ ∨
      ∃ fault, refusal = some fault ∧ (s.advance refusal).2 = none ∧
        (s.advance refusal).1.transfer = none := by
  obtain ⟨rest, hacts⟩ : ∃ rest, job.acts = .send ⟨.resetChecksum, 0⟩ :: rest := ⟨_, rfl⟩
  obtain ⟨text, htext⟩ := Message.Fits.encode (m := ⟨.resetChecksum, 0⟩) (by decide)
  rw [hacts] at hs
  rw [Session.message_advance hs, Session.transfer_advance hs]
  cases refusal with
  | none => simp [Act.effect, htext]
  | some fault => simp [Act.effect, htext]

end Job

/-! ## Watching a bridge -/

/-- A transfer acts, and nobody held the sink before. -/
def Bridge.acquires (b : Bridge) : Event → Bool
  | .advance client refusal => b.holder.isNone && decide (b.step (.advance client refusal) ≠ b)
  | _ => false

/-- Messages that the sink took one after the other for one transfer. -/
structure Block where
  job : Job
  /-- the number of the event at which the transfer began to act -/
  opened : Nat
  messages : List Message
  deriving DecidableEq, Repr

/-- The block is the beginning of what a transfer that was asked for sends by itself.  It begins
with the reset of the checksum, or is empty because the sink refused that message. -/
structure Block.Sound (past : List Event) (block : Block) : Prop where
  asked : block.job.AskedIn past
  part : block.messages <+: block.job.messages
  first : block.messages.head? = some ⟨.resetChecksum, 0⟩ ∨
    block.messages = [] ∧
      ∃ client fault, past[block.opened]? = some (.advance client (some fault))

theorem Block.Sound.concat {past : List Event} {block : Block} (h : block.Sound past) (e : Event) :
    block.Sound (past ++ [e]) := by
  refine ⟨h.asked.concat e, h.part, ?_⟩
  rcases h.first with hfirst | ⟨hempty, client, fault, hopened⟩
  · exact Or.inl hfirst
  · have hlt := (List.getElem?_eq_some_iff.mp hopened).1
    exact Or.inr ⟨hempty, client, fault, by rw [List.getElem?_append_left hlt, hopened]⟩

/-- A bridge with what was seen of it. -/
structure Watch where
  bridge : Bridge
  /-- the events so far -/
  past : List Event
  /-- the last transfer that every client started -/
  jobs : Nat → Option Job
  /-- the blocks so far, the last one first -/
  blocks : List Block

namespace Watch

/-- Nothing has happened yet. -/
def new : Watch := ⟨Bridge.new, [], fun _ => none, []⟩

/-- The transfer that a client starts by an event. -/
def started? (w : Watch) (client : Nat) : Event → Option Job
  | .line c text =>
    if c = client ∧ (w.bridge.sessions[client]?).any (·.starts text) then
      match Request.receive text with
      | .ok (.data words delay) => some ⟨w.past.length, words, delay⟩
      | _ => none
    else none
  | _ => none

/-- The transfer sends messages at an event: they go on with the last block if it is of the same
transfer, and begin another one if not. -/
def extend (job : Job) (event : Nat) (messages : List Message) : List Block → List Block
  | [] => [⟨job, event, messages⟩]
  | block :: rest =>
    if block.job = job then { block with messages := block.messages ++ messages } :: rest
    else ⟨job, event, messages⟩ :: block :: rest

/-- What an act brings to the sink is noted for the transfer of the client that acts. -/
def blocksAfter (w : Watch) (e : Event) : List Block :=
  match e with
  | .advance client _ =>
    if w.bridge.step e = w.bridge then w.blocks
    else
      match w.jobs client with
      | some job =>
        extend job w.past.length ((w.bridge.step e).sent.toList.drop w.bridge.sent.size) w.blocks
      | none => w.blocks
  | _ => w.blocks

/-- The bridge and what was seen of it after an event. -/
def step (w : Watch) (e : Event) : Watch :=
  { bridge := w.bridge.step e
    past := w.past ++ [e]
    jobs := fun client => (w.started? client e).or (w.jobs client)
    blocks := w.blocksAfter e }

/-- The bridge and what was seen of it after some events. -/
def run (w : Watch) (events : List Event) : Watch := events.foldl step w

theorem bridge_run (w : Watch) (events : List Event) :
    (w.run events).bridge = w.bridge.run events := by
  induction events generalizing w with
  | nil => rfl
  | cons e events ih => exact ih (w.step e)

theorem past_run (w : Watch) (events : List Event) :
    (w.run events).past = w.past ++ events := by
  induction events generalizing w with
  | nil => simp [run]
  | cons e events ih =>
    have hrest := ih (w.step e)
    rw [run, List.foldl_cons]
    simpa [run, step] using hrest

/-- The numbers of the transfers that have a block. -/
def numbers (blocks : List Block) : List Nat := blocks.map (·.job.number)

/-! ## Origins -/

/-- Every transfer that is noted was asked for, and no two clients have the same one. -/
structure Origins (w : Watch) : Prop where
  asked : ∀ client job, w.jobs client = some job → job.AskedIn w.past
  own : ∀ client client' job job', w.jobs client = some job → w.jobs client' = some job' →
    job.number = job'.number → client = client'

theorem started?_eq_some {w : Watch} {client : Nat} {e : Event} {job : Job}
    (h : w.started? client e = some job) :
    job.number = w.past.length ∧ ∃ text, e = .line client text ∧
      Request.receive text = .ok (.data job.words job.delay) := by
  cases e with
  | line c text =>
    rw [started?] at h
    split at h
    · rename_i hstarts
      split at h
      · rename_i words delay hreceive
        rw [← Option.some.inj h, ← hstarts.1]
        exact ⟨rfl, text, rfl, hreceive⟩
      · simp at h
    · simp at h
  | connect => simp [started?] at h
  | hangUp c => simp [started?] at h
  | advance c refusal => simp [started?] at h

/-- What is noted for a client was noted before, or has just been started. -/
theorem jobs_step {w : Watch} {e : Event} {client : Nat} {job : Job}
    (h : (w.step e).jobs client = some job) :
    w.jobs client = some job ∨ w.started? client e = some job := by
  rcases Option.or_eq_some_iff.mp h with hnew | ⟨-, hold⟩
  · exact Or.inr hnew
  · exact Or.inl hold

theorem Origins.step {w : Watch} (h : w.Origins) (e : Event) : (w.step e).Origins := by
  constructor
  · intro client job hjob
    rcases jobs_step hjob with hold | hnew
    · exact (h.asked client job hold).concat e
    · obtain ⟨hnumber, text, rfl, hreceive⟩ := started?_eq_some hnew
      exact ⟨client, text, by simp [Watch.step, hnumber], hreceive⟩
  · intro client client' job job' hjob hjob' hnumber
    -- what is new is later than all that was noted before
    rcases jobs_step hjob with hold | hnew <;> rcases jobs_step hjob' with hold' | hnew'
    · exact h.own client client' job job' hold hold' hnumber
    · have hlt := (h.asked client job hold).lt
      have hlast := (started?_eq_some hnew').1
      omega
    · have hlt := (h.asked client' job' hold').lt
      have hlast := (started?_eq_some hnew).1
      omega
    · obtain ⟨-, text, rfl, -⟩ := started?_eq_some hnew
      obtain ⟨-, text', he, -⟩ := started?_eq_some hnew'
      exact (Event.line.inj he).1

/-! ## The invariant -/

/-- The transfer of the client has done nothing yet. -/
def Waits (w : Watch) (client : Nat) (left : List Act) : Prop :=
  ∃ job, w.jobs client = some job ∧ left = job.acts ∧ job.number ∉ numbers w.blocks

/-- The transfer of the client has the last block, and is where it would be by itself. -/
def Holds (w : Watch) (client : Nat) (left : List Act) : Prop :=
  ∃ block rest, w.jobs client = some block.job ∧ w.blocks = block :: rest ∧
    block.job.Reaches left block.messages ∧
    block.messages.head? = some ⟨.resetChecksum, 0⟩

/-- What holds of a bridge that was watched from its beginning. -/
structure Sound (w : Watch) : Prop where
  origins : w.Origins
  sent : w.bridge.sent.toList = w.blocks.reverse.flatMap Block.messages
  distinct : (numbers w.blocks).Nodup
  blocks : ∀ block ∈ w.blocks, block.Sound w.past
  transfers : ∀ client s left, w.bridge.sessions[client]? = some s → s.transfer = some left →
    if w.bridge.holder = some client then w.Holds client left else w.Waits client left
  holder : ∀ client, w.bridge.holder = some client →
    ∃ s left, w.bridge.sessions[client]? = some s ∧ s.transfer = some left

theorem sound_new : Watch.new.Sound where
  origins := ⟨nofun, nofun⟩
  sent := rfl
  distinct := List.nodup_nil
  blocks := nofun
  transfers := by simp [Watch.new, Bridge.new]
  holder := nofun

/-! ## Events without an act -/

/-- No transfer carries out an act at the event. -/
def Quiet (w : Watch) (e : Event) : Prop :=
  ∀ client refusal, e = .advance client refusal → w.bridge.step e = w.bridge

section Quiet

variable {w : Watch} {e : Event}

theorem Quiet.sent (h : w.Quiet e) : (w.bridge.step e).sent = w.bridge.sent := by
  cases e with
  | advance client refusal => rw [h client refusal rfl]
  | connect => rfl
  | line client text => rfl
  | hangUp client => rfl

theorem Quiet.holder (h : w.Quiet e) : (w.bridge.step e).holder = w.bridge.holder := by
  cases e with
  | advance client refusal => rw [h client refusal rfl]
  | connect => rfl
  | line client text => rfl
  | hangUp client => rfl

theorem Quiet.blocks (h : w.Quiet e) : (w.step e).blocks = w.blocks := by
  cases e with
  | advance client refusal => exact if_pos (h client refusal rfl)
  | connect => rfl
  | line client text => rfl
  | hangUp client => rfl

/-- At such an event a transfer goes on as it is, or a client that has none starts one. -/
theorem Quiet.change (h : w.Quiet e) {client : Nat} {s : Session}
    (hs : w.bridge.sessions[client]? = some s) :
    ∃ s', (w.bridge.step e).sessions[client]? = some s' ∧
      (s'.transfer = s.transfer ∧ w.started? client e = none ∨
        s.transfer = none ∧ ∃ job, w.started? client e = some job ∧
          s'.transfer = some job.acts) := by
  obtain ⟨s', hs', hchange⟩ := Bridge.exists_change hs e
  refine ⟨s', hs', ?_⟩
  cases hchange with
  | other hother =>
    refine Or.inl ⟨rfl, ?_⟩
    cases e <;> simp_all [started?, Event.client?]
  | line text =>
    rcases s.handle_transfer text with
      ⟨hstarts, hsame⟩ | ⟨words, delay, hstarts, hreceive, hidle, hnew⟩
    · exact Or.inl ⟨hsame, by simp [started?, hs, hstarts]⟩
    · exact Or.inr ⟨hidle, ⟨w.past.length, words, delay⟩,
        by simp [started?, hs, hstarts, hreceive], hnew⟩
  | hangUp => exact Or.inl ⟨Session.hangUp_transfer s, rfl⟩
  | waits _ _ => exact Or.inl ⟨rfl, rfl⟩
  | advances refusal _ _ =>
    rw [h client refusal rfl, hs] at hs'
    exact Or.inl ⟨congrArg Session.transfer (Option.some.inj hs').symm, rfl⟩

theorem jobs_step_of_none {client : Nat} (h : w.started? client e = none) :
    (w.step e).jobs client = w.jobs client := by
  simp [step, h]

theorem Sound.step_of_quiet (h : w.Sound) (hquiet : w.Quiet e) : (w.step e).Sound where
  origins := h.origins.step e
  sent := by
    rw [hquiet.blocks, ← h.sent]
    exact congrArg Array.toList hquiet.sent
  distinct := by
    rw [hquiet.blocks]
    exact h.distinct
  blocks := by
    rw [hquiet.blocks]
    exact fun block hblock => (h.blocks block hblock).concat e
  transfers := by
    intro client s' left hs' hleft
    have hholder : (w.step e).bridge.holder = w.bridge.holder := hquiet.holder
    rcases Bridge.change_of_step hs' with ⟨-, rfl⟩ | ⟨s, hs, -⟩
    · simp [Session.new] at hleft
    obtain ⟨s'', hs'', hcases⟩ := hquiet.change hs
    obtain rfl : s'' = s' := Option.some.inj (hs''.symm.trans hs')
    rw [hholder, Holds, Waits, hquiet.blocks]
    rcases hcases with ⟨hsame, hnone⟩ | ⟨hidle, job, hstarted, hacts⟩
    · rw [jobs_step_of_none hnone]
      exact h.transfers client s left hs (hsame.symm.trans hleft)
    · have hfree : w.bridge.holder ≠ some client := by
        intro hheld
        obtain ⟨s₀, left₀, hs₀, hleft₀⟩ := h.holder client hheld
        simp_all
      have hfresh : job.number ∉ numbers w.blocks := by
        intro hmem
        obtain ⟨block, hblock, hnumber⟩ := List.mem_map.mp hmem
        have hlt := (h.blocks block hblock).asked.lt
        have hlast := (started?_eq_some hstarted).1
        omega
      rw [if_neg hfree]
      exact ⟨job, by simp [step, hstarted], Option.some.inj (hleft.symm.trans hacts), hfresh⟩
  holder := by
    intro client hheld
    rw [show (w.step e).bridge.holder = w.bridge.holder from hquiet.holder] at hheld
    obtain ⟨s, left, hs, hleft⟩ := h.holder client hheld
    obtain ⟨s', hs', ⟨hsame, -⟩ | ⟨hidle, -⟩⟩ := hquiet.change hs
    · exact ⟨s', left, hs', hsame.trans hleft⟩
    · simp [hidle] at hleft

end Quiet

/-! ## Acts -/

/-- An act of a transfer that may go on. -/
theorem exists_transfer_of_step {b : Bridge} {client : Nat} {refusal : Option TransferFault}
    (h : b.step (.advance client refusal) ≠ b) :
    ∃ s left, b.sessions[client]? = some s ∧ s.transfer = some left ∧ b.mayAdvance client := by
  cases hs : b.sessions[client]? with
  | none => exact absurd (by simp [Bridge.step, Bridge.advance, hs]) h
  | some s =>
    have hacts : ¬(s.transfer = none ∨ ¬b.mayAdvance client) :=
      fun hwaits => h (Bridge.advance_eq_self hs hwaits refusal)
    obtain ⟨htransfer, hsink⟩ := not_or.mp hacts
    obtain ⟨left, hleft⟩ := Option.ne_none_iff_exists'.mp htransfer
    exact ⟨s, left, rfl, hleft, not_not.mp hsink⟩

/-- A transfer is about to act: its block, which may still have to begin, and the blocks before. -/
structure Turn (w : Watch) (left : List Act) (block : Block) (rest : List Block) : Prop where
  extended : ∀ messages, extend block.job w.past.length messages w.blocks =
    { block with messages := block.messages ++ messages } :: rest
  reaches : block.job.Reaches left block.messages
  first : block.messages.head? = some ⟨.resetChecksum, 0⟩ ∨
    block.messages = [] ∧ left = block.job.acts ∧ block.opened = w.past.length
  distinct : (numbers (block :: rest)).Nodup
  sent : w.bridge.sent.toList = (block :: rest).reverse.flatMap Block.messages
  known : ∀ other ∈ rest, other ∈ w.blocks
  length : rest.length + 1 = w.blocks.length + w.bridge.holder.isNone.toNat

theorem extend_of_fresh {job : Job} {blocks : List Block} (h : job.number ∉ numbers blocks)
    (event : Nat) (messages : List Message) :
    extend job event messages blocks = ⟨job, event, messages⟩ :: blocks := by
  cases blocks with
  | nil => rfl
  | cons block rest =>
    refine if_neg ?_
    rintro rfl
    simp [numbers] at h

theorem Sound.turn {w : Watch} (h : w.Sound) {client : Nat} {s : Session} {left : List Act}
    (hs : w.bridge.sessions[client]? = some s) (hleft : s.transfer = some left)
    (hsink : w.bridge.mayAdvance client) :
    ∃ block rest, w.jobs client = some block.job ∧ w.Turn left block rest := by
  have htransfer := h.transfers client s left hs hleft
  rcases hsink with hfree | hheld
  · rw [if_neg (by simp [hfree])] at htransfer
    obtain ⟨job, hjob, rfl, hfresh⟩ := htransfer
    refine ⟨⟨job, w.past.length, []⟩, w.blocks, hjob, ?_⟩
    exact {
      extended := fun messages => by simp [extend_of_fresh hfresh]
      reaches := job.reaches_acts
      first := Or.inr ⟨rfl, rfl, rfl⟩
      distinct := List.nodup_cons.mpr ⟨hfresh, h.distinct⟩
      sent := by simp [h.sent]
      known := fun _ hother => hother
      length := by simp [hfree] }
  · rw [if_pos hheld] at htransfer
    obtain ⟨block, rest, hjob, hblocks, hreaches, hfirst⟩ := htransfer
    refine ⟨block, rest, hjob, ?_⟩
    exact {
      extended := fun messages => by simp [hblocks, extend]
      reaches := hreaches
      first := Or.inl hfirst
      distinct := hblocks ▸ h.distinct
      sent := hblocks ▸ h.sent
      known := fun _ hother => hblocks ▸ List.mem_cons_of_mem block hother
      length := by simp [hheld, hblocks] }

section Act

variable {w : Watch} {client : Nat} {refusal : Option TransferFault} {s : Session}
  {left : List Act} {block : Block} {rest : List Block}

theorem sent_advance (hs : w.bridge.sessions[client]? = some s) (hleft : s.transfer = some left)
    (hsink : w.bridge.mayAdvance client) :
    (w.bridge.step (.advance client refusal)).sent.toList =
      w.bridge.sent.toList ++ (s.advance refusal).2.toList := by
  rw [Bridge.advance_eq hs (by simp [hleft]) hsink]
  cases (s.advance refusal).2 <;> simp

/-- What an act brings is added to the block of the transfer. -/
theorem blocks_advance (hne : w.bridge.step (.advance client refusal) ≠ w.bridge)
    (hs : w.bridge.sessions[client]? = some s) (hleft : s.transfer = some left)
    (hsink : w.bridge.mayAdvance client) (hjob : w.jobs client = some block.job)
    (hturn : w.Turn left block rest) :
    (w.step (.advance client refusal)).blocks =
      { block with messages := block.messages ++ (s.advance refusal).2.toList } :: rest := by
  have hnew : (w.bridge.step (.advance client refusal)).sent.toList.drop w.bridge.sent.size =
      (s.advance refusal).2.toList := by
    rw [sent_advance hs hleft hsink, ← Array.length_toList, List.drop_left]
  rw [← hturn.extended, ← hnew]
  simp only [step, blocksAfter, if_neg hne, hjob]

/-- After an act the block begins as it should; it is empty only if the sink refused its first
message, and then the transfer has ended. -/
theorem Turn.first_advance (hturn : w.Turn left block rest) (hleft : s.transfer = some left)
    (refusal : Option TransferFault) :
    (block.messages ++ (s.advance refusal).2.toList).head? = some ⟨.resetChecksum, 0⟩ ∨
      block.messages ++ (s.advance refusal).2.toList = [] ∧ block.opened = w.past.length ∧
        (∃ fault, refusal = some fault) ∧ (s.advance refusal).1.transfer = none := by
  rcases hturn.first with hfirst | ⟨hempty, hacts, hopened⟩
  · exact Or.inl (by simp [hfirst])
  · rw [hacts] at hleft
    rcases block.job.first_message hleft refusal with hsent | ⟨fault, hrefused, hnone, hended⟩
    · exact Or.inl (by simp [hempty, hsent])
    · exact Or.inr ⟨by simp [hempty, hnone], hopened, ⟨fault, hrefused⟩, hended⟩

/-- A transfer that goes on holds the sink. -/
theorem Turn.holds_advance (hturn : w.Turn left block rest) (hleft : s.transfer = some left)
    (hjob : w.jobs client = some block.job)
    (hblocks : (w.step (.advance client refusal)).blocks =
      { block with messages := block.messages ++ (s.advance refusal).2.toList } :: rest)
    {left' : List Act} (hleft' : (s.advance refusal).1.transfer = some left') :
    (w.step (.advance client refusal)).Holds client left' := by
  refine ⟨{ block with messages := block.messages ++ (s.advance refusal).2.toList }, rest, hjob,
    hblocks, (hturn.reaches.advance hleft refusal).2 left' hleft', ?_⟩
  rcases hturn.first_advance hleft refusal with hfirst | ⟨-, -, -, hended⟩
  · exact hfirst
  · simp [hended] at hleft'

/-- The others wait as before. -/
theorem Turn.waits_advance (hturn : w.Turn left block rest) (horigins : w.Origins)
    (hjob : w.jobs client = some block.job)
    (hblocks : (w.step (.advance client refusal)).blocks =
      { block with messages := block.messages ++ (s.advance refusal).2.toList } :: rest)
    {client' : Nat} (hother : client' ≠ client) {left' : List Act}
    (hwaits : w.Waits client' left') :
    (w.step (.advance client refusal)).Waits client' left' := by
  obtain ⟨job, hjob', hacts, hfresh⟩ := hwaits
  refine ⟨job, hjob', hacts, ?_⟩
  rw [hblocks, numbers, List.map_cons, List.mem_cons, not_or]
  constructor
  · intro hnumber
    exact hother (horigins.own client' client job block.job hjob' hjob hnumber)
  · intro hmem
    obtain ⟨earlier, hearlier, hnumber⟩ := List.mem_map.mp hmem
    exact hfresh (List.mem_map.mpr ⟨earlier, hturn.known earlier hearlier, hnumber⟩)

theorem Sound.step_of_act (h : w.Sound)
    (hne : w.bridge.step (.advance client refusal) ≠ w.bridge) :
    (w.step (.advance client refusal)).Sound := by
  obtain ⟨s, left, hs, hleft, hsink⟩ := exists_transfer_of_step hne
  obtain ⟨block, rest, hjob, hturn⟩ := h.turn hs hleft hsink
  have hblocks := blocks_advance hne hs hleft hsink hjob hturn
  have hbridge : (w.step (.advance client refusal)).bridge = _ :=
    Bridge.advance_eq hs (by simp [hleft]) hsink refusal
  have hlt : client < w.bridge.sessions.length := (List.getElem?_eq_some_iff.mp hs).1
  exact {
    origins := h.origins.step _
    sent := by
      change (w.bridge.step (.advance client refusal)).sent.toList = _
      rw [sent_advance hs hleft hsink, hblocks, hturn.sent]
      simp
    distinct := by
      rw [hblocks]
      exact hturn.distinct
    blocks := by
      rw [hblocks]
      refine List.forall_mem_cons.mpr ⟨⟨?_, (hturn.reaches.advance hleft refusal).1, ?_⟩, ?_⟩
      · exact (h.origins.asked client _ hjob).concat _
      · rcases hturn.first_advance hleft refusal with hfirst | ⟨hempty, hopened, ⟨fault, rfl⟩, -⟩
        · exact Or.inl hfirst
        · exact Or.inr ⟨hempty, client, fault, by simp [step, hopened]⟩
      · exact fun other hother => (h.blocks other (hturn.known other hother)).concat _
    transfers := by
      intro client' s' left' hs' hleft'
      rw [hbridge] at hs' ⊢
      by_cases hc : client' = client
      · subst hc
        rw [List.getElem?_set_self hlt] at hs'
        obtain rfl := Option.some.inj hs'
        rw [if_pos (by simp [hleft'])]
        exact hturn.holds_advance hleft hjob hblocks hleft'
      · rw [List.getElem?_set_ne (Ne.symm hc)] at hs'
        have hothers : w.bridge.holder ≠ some client' := by
          rcases hsink with hfree | hheld
          · simp [hfree]
          · simpa [hheld] using Ne.symm hc
        have hwaits := h.transfers client' s' left' hs' hleft'
        rw [if_neg hothers] at hwaits
        rw [if_neg (by dsimp only; split <;> simp [Ne.symm hc])]
        exact hturn.waits_advance h.origins hjob hblocks hc hwaits
    holder := by
      intro client' hheld
      rw [hbridge] at hheld ⊢
      dsimp only at hheld
      split at hheld
      · rename_i hgoes
        obtain rfl := Option.some.inj hheld
        obtain ⟨left', hleft'⟩ := Option.isSome_iff_exists.mp hgoes
        exact ⟨_, left', List.getElem?_set_self hlt, hleft'⟩
      · simp at hheld }

end Act

/-! ## Runs -/

theorem Quiet.not_acquires {w : Watch} {e : Event} (h : w.Quiet e) :
    w.bridge.acquires e = false := by
  cases e with
  | advance client refusal => simp [Bridge.acquires, h client refusal rfl]
  | connect => rfl
  | line client text => rfl
  | hangUp client => rfl

/-- A block begins exactly when a transfer gets the sink. -/
theorem Sound.step {w : Watch} (h : w.Sound) (e : Event) :
    (w.step e).Sound ∧
      (w.step e).blocks.length = w.blocks.length + (w.bridge.acquires e).toNat := by
  by_cases hquiet : w.Quiet e
  · refine ⟨h.step_of_quiet hquiet, ?_⟩
    rw [hquiet.blocks, hquiet.not_acquires]
    rfl
  · simp only [Quiet, not_forall] at hquiet
    obtain ⟨client, refusal, rfl, hne⟩ := hquiet
    refine ⟨h.step_of_act hne, ?_⟩
    obtain ⟨s, left, hs, hleft, hsink⟩ := exists_transfer_of_step hne
    obtain ⟨block, rest, hjob, hturn⟩ := h.turn hs hleft hsink
    rw [blocks_advance hne hs hleft hsink hjob hturn, List.length_cons, hturn.length]
    simp [Bridge.acquires, hne]

theorem Sound.run {w : Watch} (h : w.Sound) (events : List Event) :
    (w.run events).Sound ∧
      (w.run events).blocks.length =
        w.blocks.length + Bridge.count Bridge.acquires w.bridge events := by
  induction events generalizing w with
  | nil => exact ⟨h, rfl⟩
  | cons e events ih =>
    obtain ⟨hsound, hlength⟩ := h.step e
    obtain ⟨hsound', hlength'⟩ := ih hsound
    refine ⟨hsound', ?_⟩
    have hrun : w.run (e :: events) = (w.step e).run events := rfl
    rw [hrun, hlength', hlength, Bridge.count, Nat.add_assoc]
    rfl

/-- Whatever clients ask for, cancel and refuse, and in whatever order it happens: the messages that
reach the sink are blocks one after the other, one for every transfer that got the sink.  Every
transfer has one block at most, and the block is the beginning of what the transfer sends by itself.
It begins with the reset of the checksum, unless the sink refused that message and the block is
empty. -/
theorem messages_come_in_blocks (events : List Event) :
    let w := Watch.new.run events
    w.bridge = Bridge.new.run events ∧
      (Bridge.new.run events).sent.toList = w.blocks.reverse.flatMap Block.messages ∧
      w.blocks.length = Bridge.count Bridge.acquires Bridge.new events ∧
      (numbers w.blocks).Nodup ∧
      ∀ block ∈ w.blocks,
        (∃ client text, events[block.job.number]? = some (.line client text) ∧
          Request.receive text = .ok (.data block.job.words block.job.delay)) ∧
        block.messages <+: (transfer block.job.delay block.job.words).1.sent.toList ∧
        (block.messages.head? = some ⟨.resetChecksum, 0⟩ ∨
          block.messages = [] ∧
            ∃ client fault, events[block.opened]? = some (.advance client (some fault))) := by
  obtain ⟨hsound, hlength⟩ := sound_new.run events
  have hbridge : (Watch.new.run events).bridge = Bridge.new.run events :=
    bridge_run Watch.new events
  have hpast : (Watch.new.run events).past = events := past_run Watch.new events
  refine ⟨hbridge, hbridge ▸ hsound.sent, ?_, hsound.distinct, fun block hblock => ?_⟩
  · rw [hlength]
    exact Nat.zero_add _
  · have hblock := hpast ▸ hsound.blocks block hblock
    exact ⟨hblock.asked, hblock.part, hblock.first⟩

-- the second client comes first to the sink, and the first one has to wait
example :
    ((Watch.new.run ([.connect, .connect, .line 0 (Request.dataLine [] .standard),
      .line 1 (Request.dataLine [] .standard)] ++
        (List.replicate 4 [.advance 1 none, .advance 0 none]).flatten)).blocks.map
          fun block => (block.job.number, block.messages.map Message.command)) =
      [(2, [.resetChecksum]), (3, [.resetChecksum, .checksumHigh, .checksumLow])] := by
  decide +kernel

end Watch

end PocketAsm.Transfer
