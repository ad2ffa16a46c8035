/-
  Proofs/Transfer/Delivery.lean --- what the receiver does with a transfer.

  The receiver is known only by what is documented of its commands; `Receiver`
  states that, and leaves open whatever is not said.  The sender leaves out an
  address that follows the last one and a high half that did not change, so it
  has to know what the registers of the receiver hold.  `Mirrors` is what it
  knows; every pair keeps it, and from it follows what every message does.
-/
import PocketAsm.Proofs.Transfer.Sending

set_option autoImplicit false

namespace PocketAsm.Transfer

/-! ## Receivers -/

/-- The registers of a receiver. -/
structure Registers where
  /-- where the next word is written -/
  address : BitVec 24
  /-- the high half of the next word -/
  high : BitVec 12
  /-- the sum of all words and addresses since it was set to zero -/
  checksum : BitVec 24
  /-- the high half of the checksum to compare with -/
  checksumHigh : BitVec 12
  deriving DecidableEq, Repr

/-- What a receiver does that can be seen. -/
inductive Response where
  /-- a word is written -/
  | wrote (address value : BitVec 24)
  /-- a checksum that was sent is compared with the receiver's own -/
  | compared (sent own : BitVec 24)
  deriving DecidableEq, Repr

/-- A machine that handles messages, each a value and the number of a command, as it is documented
of the receiver. -/
structure Receiver (σ : Type) where
  step : σ → Nat × Nat → σ × List Response
  registers : σ → Registers
  /-- the halves of an address are taken -/
  unlocked : σ → Prop
  resetChecksum : ∀ s v, registers (step s (v, 0)).1 = { registers s with checksum := 0 } ∧
    (step s (v, 0)).2 = []
  addressLow : ∀ s v, unlocked s →
    registers (step s (v, 1)).1 = { registers s with
      address := (registers s).address.extractLsb' 12 12 ++ BitVec.ofNat 12 v } ∧
    unlocked (step s (v, 1)).1 ∧ (step s (v, 1)).2 = []
  addressHigh : ∀ s v, unlocked s →
    registers (step s (v, 2)).1 = { registers s with
      address := BitVec.ofNat 12 v ++ (registers s).address.extractLsb' 0 12 } ∧
    (step s (v, 2)).2 = []
  valueLow : ∀ s v,
    let word := (registers s).high ++ BitVec.ofNat 12 v
    registers (step s (v, 3)).1 = { registers s with
      address := (registers s).address + 1
      checksum := (registers s).checksum + (registers s).address + word } ∧
    (step s (v, 3)).2 = [.wrote (registers s).address word]
  valueHigh : ∀ s v, registers (step s (v, 4)).1 = { registers s with high := BitVec.ofNat 12 v } ∧
    (step s (v, 4)).2 = []
  checksumLow : ∀ s v, registers (step s (v, 5)).1 = registers s ∧
    (step s (v, 5)).2 =
      [.compared ((registers s).checksumHigh ++ BitVec.ofNat 12 v) (registers s).checksum]
  checksumHigh : ∀ s v,
    registers (step s (v, 6)).1 = { registers s with checksumHigh := BitVec.ofNat 12 v } ∧
    (step s (v, 6)).2 = []
  unlockAddress : ∀ s v, registers (step s (v, 7)).1 = registers s ∧ unlocked (step s (v, 7)).1 ∧
    (step s (v, 7)).2 = []

namespace Receiver

variable {σ : Type} (R : Receiver σ)

/-- The receiver after some messages, and what it did. -/
def run : σ → List (Nat × Nat) → σ × List Response
  | s, [] => (s, [])
  | s, m :: ms => ((run (R.step s m).1 ms).1, (R.step s m).2 ++ (run (R.step s m).1 ms).2)

theorem run_append (s : σ) (first second : List (Nat × Nat)) :
    R.run s (first ++ second) =
      ((R.run (R.run s first).1 second).1,
        (R.run s first).2 ++ (R.run (R.run s first).1 second).2) := by
  induction first generalizing s with
  | nil => rfl
  | cons m ms ih => simp only [List.cons_append, run, ih, List.append_assoc]

end Receiver

/-- What the registers and the lock of a plain receiver come to by a message, and what it does.
Every command but the halves of an address locks the address again. -/
def Registers.answer (state : Registers × Bool) (m : Nat × Nat) :
    (Registers × Bool) × List Response :=
  let (r, unlocked) := state
  let half := BitVec.ofNat 12 m.1
  match m.2 with
  | 0 => (({ r with checksum := 0 }, false), [])
  | 1 =>
    let address := r.address.extractLsb' 12 12 ++ half
    ((if unlocked then { r with address := address } else r, unlocked), [])
  | 2 =>
    let address := half ++ r.address.extractLsb' 0 12
    ((if unlocked then { r with address := address } else r, unlocked), [])
  | 3 =>
    let word := r.high ++ half
    (({ r with address := r.address + 1, checksum := r.checksum + r.address + word }, false),
      [.wrote r.address word])
  | 4 => (({ r with high := half }, false), [])
  | 5 => ((r, false), [.compared (r.checksumHigh ++ half) r.checksum])
  | 6 => (({ r with checksumHigh := half }, false), [])
  | 7 => ((r, true), [])
  | _ => ((r, false), [])

/-- A plain receiver: registers and a lock. -/
def plainReceiver : Receiver (Registers × Bool) where
  step := Registers.answer
  registers := Prod.fst
  unlocked state := state.2 = true
  resetChecksum _ _ := ⟨rfl, rfl⟩
  addressLow state _ h := by
    obtain ⟨r, unlocked⟩ := state
    obtain rfl : unlocked = true := h
    exact ⟨rfl, rfl, rfl⟩
  addressHigh state _ h := by
    obtain ⟨r, unlocked⟩ := state
    obtain rfl : unlocked = true := h
    exact ⟨rfl, rfl⟩
  valueLow _ _ := ⟨rfl, rfl⟩
  valueHigh _ _ := ⟨rfl, rfl⟩
  checksumLow _ _ := ⟨rfl, rfl⟩
  checksumHigh _ _ := ⟨rfl, rfl⟩
  unlockAddress _ _ := ⟨rfl, rfl, rfl⟩

/-! ## Halves as words -/

/-- The value and the number of the command of a message. -/
def Message.heard (m : Message) : Nat × Nat := (m.value.toNat, m.command.code)

/-- Two halves make the number that they are the halves of. -/
theorem halves_append {n : Int} (h : 0 ≤ n ∧ n < 0x1000000) :
    BitVec.ofNat 12 (highHalf n).toNat ++ BitVec.ofNat 12 (lowHalf n).toNat =
      BitVec.ofInt 24 n := by
  obtain ⟨k, rfl⟩ := Int.eq_ofNat_of_zero_le h.1
  have hhigh : (highHalf k).toNat = k / 4096 := by
    simp only [highHalf]
    omega
  have hlow : (lowHalf k).toNat = k % 4096 := by
    simp only [lowHalf]
    omega
  apply BitVec.eq_of_toNat_eq
  rw [BitVec.toNat_append, BitVec.toNat_ofNat, BitVec.toNat_ofNat, BitVec.ofInt_natCast,
    BitVec.toNat_ofNat, hhigh, hlow, ← Nat.shiftLeft_add_eq_or_of_lt (Nat.mod_lt _ (by decide)),
    Nat.shiftLeft_eq]
  omega

theorem ofInt_emod (n : Int) : BitVec.ofInt 24 (n % 0x1000000) = BitVec.ofInt 24 n := by
  apply BitVec.eq_of_toNat_eq
  simp [BitVec.toNat_ofInt]

/-! ## What the messages do -/

namespace Receiver

variable {σ : Type} (R : Receiver σ)

/-- A checksum is compared, and nothing else that matters changes. -/
theorem run_checksumMessages (q : σ) {checksum : Int} (h : 0 ≤ checksum ∧ checksum < 0x1000000) :
    (∃ half, R.registers (R.run q ((checksumMessages checksum).map Message.heard)).1 =
      { R.registers q with checksumHigh := half }) ∧
    (R.run q ((checksumMessages checksum).map Message.heard)).2 =
      [.compared (BitVec.ofInt 24 checksum) (R.registers q).checksum] := by
  obtain ⟨hhigh, hquiet⟩ := R.checksumHigh q (highHalf checksum).toNat
  obtain ⟨hlow, hcompared⟩ := R.checksumLow (R.step q ((highHalf checksum).toNat, 6)).1
    (lowHalf checksum).toNat
  rw [hhigh] at hlow hcompared
  rw [halves_append h] at hcompared
  refine ⟨⟨_, hlow⟩, ?_⟩
  simp [run, checksumMessages, Message.heard, Command.code, hquiet, hcompared]

/-- The messages of an address set it. -/
theorem run_addressMessages (q : σ) {address : Int} (h : 0 ≤ address ∧ address < 0x1000000) :
    R.registers (R.run q ((addressMessages address).map Message.heard)).1 =
      { R.registers q with address := BitVec.ofInt 24 address } ∧
    (R.run q ((addressMessages address).map Message.heard)).2 = [] := by
  obtain ⟨hunlock, hunlocked, hquiet₁⟩ := R.unlockAddress q (0 : Int).toNat
  obtain ⟨hlow, hstill, hquiet₂⟩ := R.addressLow _ (lowHalf address).toNat hunlocked
  obtain ⟨hhigh, hquiet₃⟩ := R.addressHigh _ (highHalf address).toNat hstill
  rw [hlow, hunlock] at hhigh
  simp only [BitVec.extractLsb'_append_eq_right, halves_append h] at hhigh
  refine ⟨hhigh, ?_⟩
  simp only [run, addressMessages, Message.heard, Command.code, List.map_cons, List.map_nil,
    hquiet₁, hquiet₂, hquiet₃, List.append_nil]

end Receiver

/-! ## What the sender knows -/

/-- The registers hold what the sender takes them to hold. -/
structure Mirrors (s : Sender) (r : Registers) : Prop where
  address : ∀ a, s.address = some a → r.address = BitVec.ofInt 24 (a + 1)
  high : ∀ h, s.high = some h → r.high = BitVec.ofNat 12 h.toNat
  checksum : r.checksum = BitVec.ofInt 24 s.checksum

/-- What the receiver does for a pair. -/
def pairResponses (s : Sender) (w : Word) : List Response :=
  (if s.checksumDue then
    [.compared (BitVec.ofInt 24 s.checksum) (BitVec.ofInt 24 s.checksum)] else []) ++
    [.wrote (BitVec.ofInt 24 w.1) (BitVec.ofInt 24 w.2)]

namespace Receiver

variable {σ : Type} (R : Receiver σ)

/-- A checksum that is due is compared with an equal one. -/
theorem run_dueChecksum {q : σ} {s : Sender} (hs : s.Valid)
    (hchecksum : (R.registers q).checksum = BitVec.ofInt 24 s.checksum) :
    let messages := if s.checksumDue then checksumMessages s.checksum else []
    (∃ half, R.registers (R.run q (messages.map Message.heard)).1 =
      { R.registers q with checksumHigh := half }) ∧
    (R.run q (messages.map Message.heard)).2 =
      if s.checksumDue then
        [.compared (BitVec.ofInt 24 s.checksum) (BitVec.ofInt 24 s.checksum)] else [] := by
  intro messages
  by_cases hdue : s.checksumDue
  · have hrun := R.run_checksumMessages q hs.checksum
    rw [hchecksum] at hrun
    simpa only [messages, hdue, if_true] using hrun
  · simp only [messages, hdue]
    exact ⟨⟨_, rfl⟩, rfl⟩

/-- The address is right, whether it is sent or not. -/
theorem run_neededAddress {q : σ} {s : Sender} {w : Word} (hw : 0 ≤ w.1 ∧ w.1 < 0x1000000)
    (haddress : ∀ a, s.address = some a → (R.registers q).address = BitVec.ofInt 24 (a + 1)) :
    let messages := if s.follows w.1 then [] else addressMessages w.1
    R.registers (R.run q (messages.map Message.heard)).1 =
      { R.registers q with address := BitVec.ofInt 24 w.1 } ∧
    (R.run q (messages.map Message.heard)).2 = [] := by
  intro messages
  by_cases hfollows : s.follows w.1
  · have hlast : s.address = some (w.1 - 1) := by simpa [Sender.follows] using hfollows
    have hsame : (R.registers q).address = BitVec.ofInt 24 w.1 := by
      simpa using haddress _ hlast
    simp only [messages, hfollows, if_true, ← hsame]
    exact ⟨rfl, rfl⟩
  · have hsent : messages = addressMessages w.1 := if_neg hfollows
    rw [hsent]
    exact R.run_addressMessages q hw

/-- The high half is right, whether it is sent or not. -/
theorem run_neededHigh {q : σ} {s : Sender} (w : Word)
    (hhigh : ∀ h, s.high = some h → (R.registers q).high = BitVec.ofNat 12 h.toNat) :
    let messages := if s.high = some (highHalf w.2) then []
      else [(⟨.valueHigh, highHalf w.2⟩ : Message)]
    R.registers (R.run q (messages.map Message.heard)).1 =
      { R.registers q with high := BitVec.ofNat 12 (highHalf w.2).toNat } ∧
    (R.run q (messages.map Message.heard)).2 = [] := by
  intro messages
  by_cases hsame : s.high = some (highHalf w.2)
  · simp only [messages, hsame, if_true, ← hhigh _ hsame]
    exact ⟨rfl, rfl⟩
  · have hrun := R.valueHigh q (highHalf w.2).toNat
    simpa [messages, hsame, run, Message.heard, Command.code] using hrun

/-- The messages of a pair write it, and the sender still knows the registers. -/
theorem run_pairMessages {q : σ} {s : Sender} {w : Word} (hmirrors : Mirrors s (R.registers q))
    (hs : s.Valid) (hw : FitsRegisters w) :
    (R.run q ((pairMessages s w).map Message.heard)).2 = pairResponses s w ∧
      Mirrors (s.after w) (R.registers (R.run q ((pairMessages s w).map Message.heard)).1) := by
  simp only [pairMessages, List.map_append, run_append]
  obtain ⟨⟨half, hregisters₁⟩, hevents₁⟩ := R.run_dueChecksum hs hmirrors.checksum
  set q₁ := R.run q ((if s.checksumDue then checksumMessages s.checksum else []).map Message.heard)
  have haddress : ∀ a, s.address = some a →
      (R.registers q₁.1).address = BitVec.ofInt 24 (a + 1) := by
    rw [hregisters₁]
    exact hmirrors.address
  obtain ⟨hregisters₂, hevents₂⟩ := R.run_neededAddress hw.1 haddress
  set q₂ := R.run q₁.1 ((if s.follows w.1 then [] else addressMessages w.1).map Message.heard)
  have hhigh : ∀ h, s.high = some h → (R.registers q₂.1).high = BitVec.ofNat 12 h.toNat := by
    rw [hregisters₂, hregisters₁]
    exact hmirrors.high
  obtain ⟨hregisters₃, hevents₃⟩ := R.run_neededHigh w hhigh
  set q₃ := R.run q₂.1 ((if s.high = some (highHalf w.2) then []
    else [(⟨.valueHigh, highHalf w.2⟩ : Message)]).map Message.heard)
  obtain ⟨hregisters₄, hevents₄⟩ := R.valueLow q₃.1 (lowHalf w.2).toNat
  rw [hregisters₃, hregisters₂, hregisters₁] at hregisters₄ hevents₄
  simp only [halves_append hw.2, hmirrors.checksum] at hregisters₄ hevents₄
  constructor
  · simp only [run, List.map_cons, List.map_nil, Message.heard, Command.code, hevents₁, hevents₂,
      hevents₃, hevents₄, pairResponses, List.append_nil]
  · simp only [run, List.map_cons, List.map_nil, Message.heard, Command.code, hregisters₄]
    refine ⟨?_, ?_, ?_⟩
    · intro a ha
      rw [← Option.some.inj ha, BitVec.ofInt_add]
      rfl
    · intro h hh
      rw [← Option.some.inj hh]
    · simp only [Sender.after, addToChecksum, ofInt_emod, BitVec.ofInt_add]

end Receiver

/-! ## Whole transfers -/

/-- The checksum of some pairs. -/
def checksumOf (words : List Word) : Int := (words.map fun w => w.1 + w.2).sum % 0x1000000

/-- The checksum of some pairs is sent, and the receiver has the same one. -/
def comparison (words : List Word) : Response :=
  .compared (BitVec.ofInt 24 (checksumOf words)) (BitVec.ofInt 24 (checksumOf words))

/-- What is done for the pair with the given index: it is written, after a comparison if its index
is a multiple of eight other than zero. -/
def wordResponses (words : List Word) (entry : Word × Nat) : List Response :=
  (if entry.2 % 8 = 0 ∧ entry.2 ≠ 0 then [comparison (words.take entry.2)] else []) ++
    [.wrote (BitVec.ofInt 24 entry.1.1) (BitVec.ofInt 24 entry.1.2)]

/-- What the receiver does in the course of a transfer. -/
def transcript (words : List Word) : List Response :=
  words.zipIdx.flatMap (wordResponses words) ++ [comparison words]

theorem Sender.checksum_afterAll {s : Sender} (hs : 0 ≤ s.checksum ∧ s.checksum < 0x1000000)
    (words : List Word) :
    (s.afterAll words).checksum =
      (s.checksum + (words.map fun w => w.1 + w.2).sum) % 0x1000000 := by
  induction words generalizing s with
  | nil =>
    simp only [Sender.afterAll, List.foldl_nil, List.map_nil, List.sum_nil]
    omega
  | cons w ws ih =>
    have hstep : (s.afterAll (w :: ws)).checksum = ((s.after w).afterAll ws).checksum := rfl
    have hsum : (s.after w).checksum = (s.checksum + w.1 + w.2) % 0x1000000 := rfl
    rw [hstep, ih (by omega), hsum, List.map_cons, List.sum_cons]
    omega

theorem checksum_start_afterAll (words : List Word) :
    (Sender.start.afterAll words).checksum = checksumOf words := by
  rw [Sender.checksum_afterAll Sender.valid_start.checksum]
  simp [Sender.start, checksumOf]

/-- What is done for a pair, in terms of the pairs before it. -/
theorem pairResponses_afterAll {words before : List Word} (hbefore : before <+: words) (w : Word) :
    pairResponses (Sender.start.afterAll before) w = wordResponses words (w, before.length) := by
  have hindex : (Sender.start.afterAll before).index = before.length := by
    rw [Sender.index_afterAll]
    simp [Sender.start]
  have htake : words.take before.length = before := List.prefix_iff_eq_take.mp hbefore |>.symm
  have hdue : (Sender.start.afterAll before).checksumDue = true ↔
      before.length % 8 = 0 ∧ before.length ≠ 0 := by
    simp [Sender.checksumDue, checksumInterval, hindex]
  simp only [pairResponses, wordResponses, comparison, hdue, htake, checksum_start_afterAll]

namespace Receiver

variable {σ : Type} (R : Receiver σ)

/-- The messages of the pairs from some point on write them one after the other. -/
theorem run_pairsMessages {words : List Word} (hwords : ∀ w ∈ words, FitsRegisters w) :
    ∀ (rest before : List Word) (q : σ), words = before ++ rest →
      Mirrors (Sender.start.afterAll before) (R.registers q) →
      let heard := (pairsMessages (Sender.start.afterAll before) rest).map Message.heard
      (R.run q heard).2 = (rest.zipIdx before.length).flatMap (wordResponses words) ∧
        Mirrors (Sender.start.afterAll words) (R.registers (R.run q heard).1) := by
  intro rest
  induction rest with
  | nil =>
    intro before q hsplit hmirrors
    rw [List.append_nil] at hsplit
    subst hsplit
    exact ⟨rfl, hmirrors⟩
  | cons w rest ih =>
    intro before q hsplit hmirrors
    have hfits : ∀ v ∈ before, FitsRegisters v := fun v hv => hwords v (by simp [hsplit, hv])
    have hvalid := Sender.valid_start.afterAll (natural_of_fits hfits)
      (Sender.start.sendsAll_of_fits hfits)
    obtain ⟨hevents, hmirrors'⟩ := R.run_pairMessages hmirrors hvalid (hwords w (by simp [hsplit]))
    rw [← Sender.afterAll_concat] at hmirrors'
    obtain ⟨hrest, hend⟩ := ih (before ++ [w]) _ (by simp [hsplit]) hmirrors'
    rw [Sender.afterAll_concat] at hrest hend
    rw [pairResponses_afterAll ⟨w :: rest, hsplit.symm⟩] at hevents
    simp only [pairsMessages, List.map_append, run_append, List.zipIdx_cons, List.flatMap_cons]
    refine ⟨?_, hend⟩
    rw [hevents, hrest, List.length_append]
    rfl

/-- After the reset the sender knows all that it needs to know. -/
theorem mirrors_reset (q : σ) (v : Nat) :
    Mirrors Sender.start (R.registers (R.step q (v, 0)).1) := by
  obtain ⟨hregisters, -⟩ := R.resetChecksum q v
  rw [hregisters]
  exact ⟨nofun, nofun, rfl⟩

/-- What the receiver does with the messages of a whole transfer. -/
theorem run_streamMessages {words : List Word} (hwords : ∀ w ∈ words, FitsRegisters w) (q : σ) :
    (R.run q ((streamMessages words ++
      checksumMessages (Sender.start.afterAll words).checksum).map Message.heard)).2 =
      transcript words := by
  have hmirrors := R.mirrors_reset q (0 : Int).toNat
  obtain ⟨-, hquiet⟩ := R.resetChecksum q (0 : Int).toNat
  obtain ⟨hevents, hend⟩ := R.run_pairsMessages hwords words [] _ rfl hmirrors
  have hvalid := Sender.valid_start.afterAll (natural_of_fits hwords)
    (Sender.start.sendsAll_of_fits hwords)
  set q₁ := (R.step q ((0 : Int).toNat, 0)).1
  set q₂ := R.run q₁ ((pairsMessages (Sender.start.afterAll []) words).map Message.heard) with hq₂
  obtain ⟨-, hcompared⟩ := R.run_checksumMessages q₂.1 hvalid.checksum
  rw [hend.checksum, checksum_start_afterAll] at hcompared
  have hreset : R.run q ((streamMessages words).map Message.heard) = q₂ := by
    rw [hq₂]
    simp only [streamMessages, List.map_cons, run, Message.heard, Command.code, hquiet,
      List.nil_append]
    rfl
  rw [List.map_append, run_append, hreset, hevents, checksum_start_afterAll, hcompared]
  rfl

end Receiver

/-! ## Delivery -/

/-- A message as it arrives: encoded and decoded again. -/
def Message.transmit (m : Message) : Except TransferFault (Nat × Nat) :=
  match m.encode with
  | .error e => .error e
  | .ok letters => decode letters

theorem Message.Fits.transmit {m : Message} (h : m.Fits) : m.transmit = .ok m.heard := by
  obtain ⟨letters, hletters⟩ := h.encode
  have hdecode := decode_of_encode hletters
  simp [Message.transmit, hletters, hdecode, Message.heard]

theorem mapM_transmit {messages : List Message} (h : ∀ m ∈ messages, m.Fits) :
    messages.mapM Message.transmit = .ok (messages.map Message.heard) := by
  induction messages with
  | nil => rfl
  | cons m ms ih =>
    have hm := (h m List.mem_cons_self).transmit
    have hms := ih fun m' hm' => h m' (List.mem_cons_of_mem m hm')
    rw [List.mapM_cons, hm, hms]
    rfl

/-- A transfer delivers its pairs: from whatever state the receiver starts, it writes exactly these
words at these addresses in this order, every checksum it is sent is its own, and the transfer
completes with the checksum of all pairs.  The delay only has to be one that can be computed with,
see `Delay.Within.feasible`. -/
theorem transfer_delivers_words {σ : Type} (R : Receiver σ) (q : σ) {delay : Delay}
    {words : List Word} (hdelay : delay.Feasible words.length)
    (hwords : ∀ w ∈ words, FitsRegisters w) :
    ∃ log received,
      writeWords delay (fun _ => none) (fun _ => false) words =
        (log, some (.ok ⟨.complete, s!"Sent {words.length} values", checksumOf words⟩)) ∧
      log.sent.toList.mapM Message.transmit = .ok received ∧
      (R.run q received).2 = transcript words := by
  have hnatural := natural_of_fits hwords
  have hsends := Sender.start.sendsAll_of_fits hwords
  have hvalid := Sender.valid_start.afterAll hnatural hsends
  obtain ⟨log, hsent, hcomplete⟩ := transfer_of_sendsAll hdelay hnatural hsends
  have hfit : ∀ m ∈ log.sent.toList, m.Fits := by
    rw [hsent, streamMessages, List.cons_append, List.forall_mem_cons, List.forall_mem_append]
    exact ⟨by decide, pairsMessages_fit Sender.valid_start hnatural hsends,
      checksumMessages_fit hvalid.checksum⟩
  refine ⟨log, log.sent.toList.map Message.heard, ?_, mapM_transmit hfit, ?_⟩
  · rw [← checksum_start_afterAll]
    exact hcomplete
  · rw [hsent]
    exact R.run_streamMessages hwords q

/-- Three words across the end of the addresses, to a receiver in some state. -/
theorem three_words_are_delivered :
    let words : List Word := [(0xFFFFFF, 5), (0, 7), (1, 0x123456)]
    let state : Registers × Bool := (⟨77, 3, 1000, 9⟩, false)
    ∃ log received,
      writeWords .standard (fun _ => none) (fun _ => false) words =
        (log, some (.ok ⟨.complete, s!"Sent {words.length} values", 0x123462⟩)) ∧
      log.sent.toList.mapM Message.transmit = .ok received ∧
      (plainReceiver.run state received).2 =
        [.wrote 0xFFFFFF 5, .wrote 0 7, .wrote 1 0x123456, .compared 0x123462 0x123462] := by
  intro words state
  have hwords : ∀ w ∈ words, FitsRegisters w := by
    simp only [words, List.forall_mem_cons, FitsRegisters]
    decide
  obtain ⟨log, received, hcomplete, hreceived, hevents⟩ :=
    transfer_delivers_words plainReceiver state (Delay.standard_feasible (by decide)) hwords
  refine ⟨log, received, hcomplete, hreceived, hevents.trans ?_⟩
  decide

end PocketAsm.Transfer
