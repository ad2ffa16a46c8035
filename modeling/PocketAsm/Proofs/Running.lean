/-
  Proofs/Running.lean --- where a run stops, and that it may be cut in two.

  A run has three reasons to stop, and tests them at different places: the halt
  before an instruction, the breakpoint behind it, the budget in between.  Put
  together they say that a run stops after the least number of instructions
  that is a reason to stop (`exists_stopsAt`), and which reason is named where
  two of them meet (`reasonAfter`).  A run reads nothing of the instructions
  before it (`advance_behind`), so one that only ran out of its budget goes on
  as if it had not stopped (`advance_add`).  A machine on a halt instruction
  stays there and counts.
-/
import PocketAsm.Isa.Bitzzy.Machine
import PocketAsm.Isa.V8.Machine
import PocketAsm.Proofs.Parva.Decoding
import PocketAsm.Proofs.Parva.Ranges

set_option autoImplicit false

namespace PocketAsm

/-! ## Progress of a run -/

namespace Progress

variable {σ : Type}

/-- A further instruction, which led to the given state. -/
def executed [Machine σ] (p : Progress σ) (t : σ) : Progress σ :=
  ⟨t, p.steps + 1, Machine.pc t :: p.trace, p.naps⟩

/-- The pause after an instruction. -/
def rested (p : Progress σ) (paced : Bool) : Progress σ :=
  { p with naps := if paced then p.naps + 1 else p.naps }

/-- What a run has come to, behind an earlier one. -/
def behind (p q : Progress σ) : Progress σ :=
  ⟨q.machine, p.steps + q.steps, q.trace ++ p.trace, p.naps + q.naps⟩

theorem behind_rested (p q : Progress σ) (paced : Bool) :
    p.behind (q.rested paced) = (p.behind q).rested paced := by
  cases paced <;> rfl

end Progress

namespace Runner

variable {σ : Type} [Machine σ] {breakpoints : List Int} {options : RunOptions} {budget : Nat}
  {p : PocketAsm.Progress σ} {s t : σ}

theorem advance_of_halted (h : Machine.halted p.machine = true) :
    advance breakpoints options (budget + 1) p = (p, .ok .halt) := by
  rw [advance, if_pos h]

theorem advance_of_error (hhalted : Machine.halted p.machine = false) {e : MachineFault}
    (hstep : Machine.step p.machine = .error e) :
    advance breakpoints options (budget + 1) p = (p, .error e) := by
  rw [advance, hhalted, if_neg Bool.false_ne_true, hstep]

variable (breakpoints options budget) in
theorem advance_of_ok (hhalted : Machine.halted p.machine = false)
    (hstep : Machine.step p.machine = .ok t) :
    advance breakpoints options (budget + 1) p =
      if options.interruptAfter = some ((p.steps + 1 : Nat) : Int) then
        (p.executed t, .ok .interrupt)
      else if breakpoints.contains (Machine.pc t : Int) then (p.executed t, .ok .breakpoint)
      else advance breakpoints options budget ((p.executed t).rested options.paced) := by
  rw [advance, hhalted, if_neg Bool.false_ne_true, hstep]
  rfl

variable (breakpoints options) in
/-- Behind an instruction a run ends by an interrupt or at a breakpoint, or it goes on there with
what is left of its budget. -/
theorem advance_ends_or_goes_on (hhalted : Machine.halted p.machine = false)
    (hstep : Machine.step p.machine = .ok t) :
    (∃ reason : StopReason, (reason = .interrupt ∨ reason = .breakpoint) ∧
      ∀ budget, advance breakpoints options (budget + 1) p = (p.executed t, .ok reason)) ∨
    ∀ budget, advance breakpoints options (budget + 1) p =
      advance breakpoints options budget ((p.executed t).rested options.paced) := by
  have hadvance budget := advance_of_ok breakpoints options budget hhalted hstep
  split_ifs at hadvance
  · exact .inl ⟨.interrupt, .inl rfl, hadvance⟩
  · exact .inl ⟨.breakpoint, .inr rfl, hadvance⟩
  · exact .inr hadvance

/-! ## Reasons to stop -/

/-- So many instructions are a reason to stop: the budget is spent, or the machine after them sits
on a halt instruction, or at least one was executed and led to a breakpoint. -/
def StopsAfter (breakpoints : List Int) (budget : Nat) (s : σ) (k : Nat) : Prop :=
  k = budget ∨ ∃ t, Machine.after k s = .ok t ∧
    (Machine.halted t = true ∨ (1 ≤ k ∧ (Machine.pc t : Int) ∈ breakpoints))

/-- The reason that is named after so many instructions, which led to the given state: a breakpoint
before the budget, and the budget before a halt. -/
def reasonAfter (breakpoints : List Int) (budget k : Nat) (t : σ) : StopReason :=
  if 1 ≤ k ∧ (Machine.pc t : Int) ∈ breakpoints then .breakpoint
  else if k = budget then .budget
  else .halt

theorem stopsAfter_zero :
    StopsAfter breakpoints budget s 0 ↔ 0 = budget ∨ Machine.halted s = true := by
  simp [StopsAfter, Machine.after]

/-- Behind an instruction that leads to no breakpoint the reasons are those of the machine after
it. -/
theorem stopsAfter_succ (hstep : Machine.step s = .ok t)
    (hfree : (Machine.pc t : Int) ∉ breakpoints) (k : Nat) :
    StopsAfter breakpoints (budget + 1) s (k + 1) ↔ StopsAfter breakpoints budget t k := by
  rw [StopsAfter, StopsAfter, Machine.after_succ_of_ok hstep, Nat.add_right_cancel_iff]
  refine or_congr_right (exists_congr fun u => and_congr_right fun hu => or_congr_right ?_)
  cases k with
  | zero =>
    obtain rfl := Except.ok.inj hu
    simp [hfree]
  | succ k => simp

theorem reasonAfter_succ {u : σ} {k : Nat} (hfree : (Machine.pc t : Int) ∉ breakpoints)
    (hu : Machine.after k t = .ok u) :
    reasonAfter breakpoints (budget + 1) (k + 1) u = reasonAfter breakpoints budget k u := by
  cases k with
  | zero =>
    obtain rfl := Except.ok.inj hu
    simp only [reasonAfter, hfree, and_false, if_false, Nat.add_right_cancel_iff]
  | succ k => simp [reasonAfter]

/-- Behind an instruction that fails nothing but the budget is a reason to stop. -/
theorem stopsAfter_of_error {e : MachineFault} (hstep : Machine.step s = .error e) (k : Nat) :
    StopsAfter breakpoints budget s (k + 1) ↔ k + 1 = budget := by
  simp [StopsAfter, Machine.after_succ_of_error hstep]

/-- A least number that is not zero is one more than a least number. -/
theorem isLeast_succ {P Q : Nat → Prop} {k : Nat} (hzero : ¬P 0) (hsucc : ∀ j, P (j + 1) ↔ Q j)
    (h : IsLeast {j | Q j} k) : IsLeast {j | P j} (k + 1) := by
  refine ⟨(hsucc k).mpr h.1, fun j hj => ?_⟩
  cases j with
  | zero => exact absurd hj hzero
  | succ j => exact Nat.succ_le_succ (h.2 ((hsucc j).mp hj))

/-! ## Bounded runs -/

/-- The run executes so many instructions and stops for the reason that is named then, or fails
with the first of them that cannot be executed. -/
structure StopsAt (breakpoints : List Int) (options : RunOptions) (budget : Nat)
    (p : PocketAsm.Progress σ) (k : Nat) : Prop where
  least : IsLeast {j | StopsAfter breakpoints budget p.machine j} k
  ok : ∀ t, Machine.after k p.machine = .ok t →
    (advance breakpoints options budget p).1.machine = t ∧
    (advance breakpoints options budget p).1.steps = p.steps + k ∧
    (advance breakpoints options budget p).2 = .ok (reasonAfter breakpoints budget k t)
  error : ∀ e, Machine.after k p.machine = .error e →
    (advance breakpoints options budget p).2 = .error e

/-- A run may stop before its first instruction. -/
theorem stopsAt_zero (hstop : StopsAfter breakpoints budget p.machine 0)
    (h : advance breakpoints options budget p =
      (p, .ok (reasonAfter breakpoints budget 0 p.machine))) :
    StopsAt breakpoints options budget p 0 where
  least := ⟨hstop, fun _ _ => Nat.zero_le _⟩
  ok t ht := by
    obtain rfl := Except.ok.inj ht
    rw [h]
    exact ⟨rfl, rfl, rfl⟩
  error e he := nomatch he

variable (breakpoints) in
/-- A run that nobody stops executes the least number of instructions that is a reason to stop. -/
theorem exists_stopsAt (hnobody : options.interruptAfter = none) (budget : Nat)
    (p : PocketAsm.Progress σ) : ∃ k, StopsAt breakpoints options budget p k := by
  induction budget generalizing p with
  | zero => exact ⟨0, stopsAt_zero (.inl rfl) (by simp [advance, reasonAfter])⟩
  | succ budget ih =>
    cases hhalted : Machine.halted p.machine with
    | true =>
      refine ⟨0, stopsAt_zero (stopsAfter_zero.mpr (.inr hhalted)) ?_⟩
      rw [advance_of_halted hhalted]
      simp [reasonAfter]
    | false =>
      have hzero : ¬StopsAfter breakpoints (budget + 1) p.machine 0 := by
        simp [stopsAfter_zero, hhalted]
      cases hstep : Machine.step p.machine with
      | error e =>
        have hfails := Machine.after_succ_of_error hstep budget
        refine ⟨budget + 1, isLeast_succ hzero (fun j => ?_) (isLeast_singleton (a := budget)),
          fun t ht => ?_, fun e' he' => ?_⟩
        · rw [stopsAfter_of_error hstep, Nat.add_right_cancel_iff]
          exact Iff.rfl
        · cases hfails.symm.trans ht
        · rw [advance_of_error hhalted hstep, Except.error.inj (hfails.symm.trans he')]
      | ok t =>
        have hone : Machine.after 1 p.machine = .ok t := Machine.after_succ_of_ok hstep 0
        have hadvance := advance_of_ok breakpoints options budget hhalted hstep
        rw [hnobody, if_neg (by simp)] at hadvance
        by_cases hbreak : (Machine.pc t : Int) ∈ breakpoints
        · rw [if_pos (List.contains_iff_mem.mpr hbreak)] at hadvance
          refine ⟨1, ⟨.inr ⟨t, hone, .inr ⟨le_rfl, hbreak⟩⟩, fun j hj => ?_⟩, fun u hu => ?_,
            fun e he => ?_⟩
          · exact Nat.pos_of_ne_zero fun hj0 => hzero (hj0 ▸ hj)
          · obtain rfl := Except.ok.inj (hone.symm.trans hu)
            rw [hadvance, reasonAfter, if_pos ⟨le_rfl, hbreak⟩]
            exact ⟨rfl, rfl, rfl⟩
          · cases hone.symm.trans he
        · rw [if_neg (by simpa using hbreak)] at hadvance
          obtain ⟨k, hleast, hok, herror⟩ := ih ((p.executed t).rested options.paced)
          refine ⟨k + 1, isLeast_succ hzero (stopsAfter_succ hstep hbreak) hleast, ?_, ?_⟩
          · intro u hu
            rw [Machine.after_succ_of_ok hstep] at hu
            obtain ⟨hmachine, hsteps, hstop⟩ := hok u hu
            rw [hadvance, reasonAfter_succ hbreak hu]
            exact ⟨hmachine, hsteps.trans (Nat.add_right_comm _ _ _), hstop⟩
          · intro e he
            rw [Machine.after_succ_of_ok hstep] at he
            rw [hadvance]
            exact herror e he

/-! ## Runs cut in two -/

variable (breakpoints) in
/-- A run that nobody stops goes by the machine alone. -/
theorem advance_behind (hnobody : options.interruptAfter = none) (p : PocketAsm.Progress σ) :
    ∀ (budget : Nat) (q : PocketAsm.Progress σ),
      advance breakpoints options budget (p.behind q) =
        (p.behind (advance breakpoints options budget q).1,
          (advance breakpoints options budget q).2) := by
  intro budget
  induction budget with
  | zero => exact fun q => rfl
  | succ budget ih =>
    intro q
    cases hhalted : Machine.halted q.machine with
    | true => rw [advance_of_halted hhalted, advance_of_halted (p := p.behind q) hhalted]
    | false =>
      cases hstep : Machine.step q.machine with
      | error e =>
        rw [advance_of_error hhalted hstep, advance_of_error (p := p.behind q) hhalted hstep]
      | ok t =>
        rw [advance_of_ok _ _ _ hhalted hstep, advance_of_ok (p := p.behind q) _ _ _ hhalted hstep,
          hnobody]
        simp only [reduceCtorEq, if_false]
        split
        · rfl
        · rw [← ih, Progress.behind_rested]
          rfl

/-- What is left of the budget is counted apart from the one that a run was given. -/
theorem advance_budget (given : Nat) :
    ∀ (budget : Nat) (p : PocketAsm.Progress σ),
      advance breakpoints { options with budget := given } budget p =
        advance breakpoints options budget p := by
  intro budget
  induction budget with
  | zero => exact fun p => rfl
  | succ budget ih =>
    intro p
    cases hhalted : Machine.halted p.machine with
    | true => rw [advance_of_halted hhalted, advance_of_halted hhalted]
    | false =>
      cases hstep : Machine.step p.machine with
      | error e => rw [advance_of_error hhalted hstep, advance_of_error hhalted hstep]
      | ok t => rw [advance_of_ok _ _ _ hhalted hstep, advance_of_ok _ _ _ hhalted hstep, ih]

/-- A run that has spent its budget goes on with what is added to it. -/
theorem advance_add (more : Nat) :
    ∀ (budget : Nat) (p : PocketAsm.Progress σ),
      (advance breakpoints options budget p).2 = .ok .budget →
      advance breakpoints options (budget + more) p =
        advance breakpoints options more (advance breakpoints options budget p).1 := by
  intro budget
  induction budget with
  | zero =>
    intro p _
    rw [Nat.zero_add]
    rfl
  | succ budget ih =>
    intro p hstop
    rw [Nat.add_right_comm]
    cases hhalted : Machine.halted p.machine with
    | true => simp [advance_of_halted hhalted] at hstop
    | false =>
      cases hstep : Machine.step p.machine with
      | error e => simp [advance_of_error hhalted hstep] at hstop
      | ok t =>
        obtain ⟨reason, hreason, hends⟩ | hgoes := advance_ends_or_goes_on breakpoints options hhalted
          hstep
        · rw [hends] at hstop
          rcases hreason with rfl | rfl <;> cases hstop
        · rw [hgoes] at hstop
          rw [hgoes, hgoes]
          exact ih _ hstop

/-- A run that stops on a halt leaves the machine on a halt instruction. -/
theorem halted_of_advance :
    ∀ (budget : Nat) (p : PocketAsm.Progress σ),
      (advance breakpoints options budget p).2 = .ok .halt →
      Machine.halted (advance breakpoints options budget p).1.machine = true := by
  intro budget
  induction budget with
  | zero => exact fun p hstop => nomatch hstop
  | succ budget ih =>
    intro p hstop
    cases hhalted : Machine.halted p.machine with
    | true =>
      rw [advance_of_halted hhalted]
      exact hhalted
    | false =>
      cases hstep : Machine.step p.machine with
      | error e => simp [advance_of_error hhalted hstep] at hstop
      | ok t =>
        obtain ⟨reason, hreason, hends⟩ | hgoes := advance_ends_or_goes_on breakpoints options hhalted
          hstep
        · rw [hends] at hstop
          rcases hreason with rfl | rfl <;> cases hstop
        · rw [hgoes] at hstop ⊢
          exact ih _ hstop

/-! ## Runs of a runner -/

/-- What a runner makes of the end of a run. -/
theorem run_of_advance {r : Runner σ} {q : PocketAsm.Progress σ}
    {reason : Except MachineFault StopReason}
    (h : advance r.breakpoints options options.budget ⟨r.machine, 0, [], 0⟩ = (q, reason)) :
    r.run options = (⟨q.machine, r.breakpoints, r.total + q.steps⟩, q, reason.map fun reason =>
      { reason := reason, address := some (Machine.pc q.machine : Int), steps := q.steps }) := by
  rw [run, h]

/-- A run that stops has come to an end for the reason that it gives. -/
theorem exists_advance_of_run {r : Runner σ} {stop : Stop}
    (h : (r.run options).2.2 = .ok stop) :
    ∃ q, advance r.breakpoints options options.budget ⟨r.machine, 0, [], 0⟩ =
      (q, .ok stop.reason) ∧ stop.steps = q.steps := by
  rcases hend : advance r.breakpoints options options.budget ⟨r.machine, 0, [], 0⟩ with ⟨q, reason⟩
  rw [run_of_advance hend] at h
  cases reason with
  | error e => cases h
  | ok reason =>
    obtain rfl := Except.ok.inj h
    exact ⟨q, rfl, rfl⟩

/-- A run with a greater budget is one that goes on behind the run with the budget. -/
theorem run_add {r : Runner σ} (hnobody : options.interruptAfter = none) {stop : Stop}
    (h : (r.run options).2.2 = .ok stop) (hspent : stop.reason = .budget) (more : Nat) :
    let first := r.run options
    let second := first.1.run { options with budget := more }
    r.run { options with budget := options.budget + more } =
      (second.1, first.2.1.behind second.2.1,
        second.2.2.map fun last => { last with steps := stop.steps + last.steps }) := by
  obtain ⟨q, hfirst, hsteps⟩ := exists_advance_of_run h
  rw [hspent] at hfirst
  rcases hrest : advance r.breakpoints options more ⟨q.machine, 0, [], 0⟩ with ⟨q', reason⟩
  have hsecond : advance r.breakpoints { options with budget := more } more
      ⟨q.machine, 0, [], 0⟩ = (q', reason) := (advance_budget more more _).trans hrest
  have hwhole : advance r.breakpoints { options with budget := options.budget + more }
      (options.budget + more) ⟨r.machine, 0, [], 0⟩ = (q.behind q', reason) := by
    rw [advance_budget, advance_add more _ _ (congrArg Prod.snd hfirst), hfirst]
    have hbehind := advance_behind r.breakpoints hnobody q more
      ⟨q.machine, 0, [], 0⟩
    rwa [hrest] at hbehind
  rw [run_of_advance hfirst, run_of_advance hwhole]
  dsimp only
  rw [run_of_advance hsecond, hsteps, Nat.add_assoc]
  cases reason with
  | error e => rfl
  | ok reason => rfl

end Runner

/-! ## Machines on a halt instruction -/

/-- A machine of which every instruction changes no more than its count stays as it is. -/
theorem Machine.exists_after_counted {σ : Type} [Machine σ] (counted : Nat → σ) {c : Nat}
    (hstep : ∀ c, ∃ c', Machine.step (counted c) = .ok (counted c')) (n : Nat) :
    ∃ c', Machine.after n (counted c) = .ok (counted c') := by
  obtain ⟨t, ht, c', rfl⟩ := Machine.exists_after (P := fun t => ∃ c', t = counted c')
    (by rintro _ ⟨c, rfl⟩; obtain ⟨c', h⟩ := hstep c; exact ⟨_, h, c', rfl⟩) n ⟨c, rfl⟩
  exact ⟨c', ht⟩

/-- A halt instruction of the V8 changes nothing but the count of cycles. -/
theorem V8.exists_after_of_halted {s : State} (h : Machine.halted s = true) (n : Nat) :
    ∃ cycle, Machine.after n s = .ok { s with cycle := cycle } := by
  have hopcode : s.read s.pc = 0 := beq_iff_eq.mp h
  refine Machine.exists_after_counted (fun cycle => { s with cycle := cycle })
    (fun c => ⟨c + 1, ?_⟩) n
  have hread : State.read { s with cycle := c } s.pc = 0 := hopcode
  change Except.ok (step _) = _
  simp only [step, hread]
  rfl

/-- A halt instruction of the Bitzzy changes nothing but the count of cycles. -/
theorem Bitzzy.exists_after_of_halted {s : State} (h : Machine.halted s = true) (n : Nat) :
    ∃ cycle, Machine.after n s = .ok { s with cycle := cycle } := by
  have hopcode : s.read s.pc = 0 := beq_iff_eq.mp h
  refine Machine.exists_after_counted (fun cycle => { s with cycle := cycle })
    (fun c => ⟨c + 1, ?_⟩) n
  have hread : State.read { s with cycle := c } s.pc = 0 := hopcode
  change step _ = _
  rw [step, hread]
  rfl

/-- The program counter of the Parva keeps to its 24 bits. -/
theorem Parva.pc_lt_of_after {s t : State} (hpc : s.pc < wordCount) {n : Nat}
    (h : Machine.after n s = .ok t) : t.pc < wordCount :=
  Machine.after_induction (P := fun _ s => s.pc < wordCount) (k := 0) (fun _ s t _ hstep => by
    obtain rfl := Except.ok.inj hstep
    simp only [step]
    exact toNat_emod_lt _) hpc h

/-- A branch of the Parva to itself changes nothing but the count of cycles. -/
theorem Parva.exists_after_of_halted {s : State} (hpc : s.pc < wordCount)
    (h : Machine.halted s = true) (n : Nat) :
    ∃ cycle, Machine.after n s = .ok { s with cycle := cycle } := by
  have hword : s.memory.read s.pc = layout 24 0 0 0 := beq_iff_eq.mp h
  refine Machine.exists_after_counted (fun cycle => { s with cycle := cycle })
    (fun c => ⟨(c + 1) % wordCount, ?_⟩) n
  have htarget : target? { s with cycle := c } ⟨layout 24 0 0 0⟩ = some (s.pc : Int) := by
    have hcondition : (Fields.mk (layout 24 0 0 0)).bits 19 3 = 0 := by decide
    have hregisters : State.single { s with cycle := c } (Fields.mk (layout 24 0 0 0)).a =
        State.reg { s with cycle := c } (Fields.mk (layout 24 0 0 0)).d := rfl
    have hoffset : (Fields.mk (layout 24 0 0 0)).signedImmediate = 0 := by decide
    simp only [target?, hcondition, hregisters, hoffset]
    simp
  have hstep := step_branch (s := { s with cycle := c }) (by decide) (by decide) (by decide)
    (by decide) (by decide) hword
  rw [htarget, Option.getD_some, toNat_emod, Nat.mod_eq_of_lt hpc] at hstep
  exact congrArg Except.ok hstep

/-! ## All runs -/

/-- A run that nobody stops executes the least number of instructions after which its budget is
spent, or the machine sits on a halt instruction, or a breakpoint has been reached by at least one
of them; it counts them, and tells a breakpoint before a spent budget before a halt.  If one of
these instructions cannot be executed, the run fails with it.  A run that has spent its budget may
go on: a second run leaves the runner, and stops, as a single run with both budgets does, whose
count is that of the two together.  A machine of which a run tells that it halts stays as it is,
however many more instructions it executes, but for the count of cycles; on the Parva, where the
program counter has 24 bits, as it has after every load. -/
theorem runs_stop_at_first_reason :
    (∀ (σ : Type) [Machine σ] (r : Runner σ) (options : RunOptions),
      options.interruptAfter = none →
      ∃ k, IsLeast {j | Runner.StopsAfter r.breakpoints options.budget r.machine j} k ∧
        (∀ s, Machine.after k r.machine = .ok s →
          (r.run options).1 = { r with machine := s, total := r.total + k } ∧
          (r.run options).2.2 = .ok
            { reason := Runner.reasonAfter r.breakpoints options.budget k s
              address := some (Machine.pc s : Int)
              steps := (k : Int) }) ∧
        ∀ fault, Machine.after k r.machine = .error fault →
          (r.run options).2.2 = .error fault) ∧
    (∀ (σ : Type) [Machine σ] (r : Runner σ) (options : RunOptions) (stop : Stop),
      options.interruptAfter = none → (r.run options).2.2 = .ok stop → stop.reason = .budget →
      ∀ more,
        let second := (r.run options).1.run { options with budget := more }
        let whole := r.run { options with budget := options.budget + more }
        whole.1 = second.1 ∧
          whole.2.2 = second.2.2.map fun last => { last with steps := stop.steps + last.steps }) ∧
    (∀ (r : Runner V8.State) (options : RunOptions) (stop : Stop),
      (r.run options).2.2 = .ok stop → stop.reason = .halt → ∀ n, ∃ cycle,
        Machine.after n (r.run options).1.machine =
          .ok { (r.run options).1.machine with cycle := cycle }) ∧
    (∀ (r : Runner Bitzzy.State) (options : RunOptions) (stop : Stop),
      (r.run options).2.2 = .ok stop → stop.reason = .halt → ∀ n, ∃ cycle,
        Machine.after n (r.run options).1.machine =
          .ok { (r.run options).1.machine with cycle := cycle }) ∧
    ∀ (r : Runner Parva.State) (options : RunOptions) (stop : Stop),
      r.machine.pc < Parva.wordCount →
      (r.run options).2.2 = .ok stop → stop.reason = .halt → ∀ n, ∃ cycle,
        Machine.after n (r.run options).1.machine =
          .ok { (r.run options).1.machine with cycle := cycle } := by
  have hhalted {σ : Type} [Machine σ] {r : Runner σ} {options : RunOptions} {stop : Stop}
      (h : (r.run options).2.2 = .ok stop) (hhalt : stop.reason = .halt) :
      Machine.halted (r.run options).1.machine = true := by
    obtain ⟨q, hend, -⟩ := Runner.exists_advance_of_run h
    rw [Runner.run_of_advance hend]
    have hreason := congrArg Prod.snd hend
    rw [hhalt] at hreason
    simpa [hend] using Runner.halted_of_advance _ _ hreason
  refine ⟨fun σ _ r options hnobody => ?_, fun σ _ r options stop hnobody h hspent more => ?_,
    fun r options stop h hhalt => V8.exists_after_of_halted (hhalted h hhalt),
    fun r options stop h hhalt => Bitzzy.exists_after_of_halted (hhalted h hhalt),
    fun r options stop hpc h hhalt => ?_⟩
  · obtain ⟨k, hleast, hok, herror⟩ := Runner.exists_stopsAt r.breakpoints hnobody
      options.budget ⟨r.machine, 0, [], 0⟩
    rcases hend : Runner.advance r.breakpoints options options.budget ⟨r.machine, 0, [], 0⟩
      with ⟨q, reason⟩
    rw [hend] at hok herror
    rw [Runner.run_of_advance hend]
    refine ⟨k, hleast, fun s hs => ?_, fun fault hfault => ?_⟩
    · obtain ⟨hmachine, hsteps, hreason⟩ := hok s hs
      dsimp only at hmachine hsteps hreason ⊢
      rw [hmachine, hsteps, hreason, Nat.zero_add]
      exact ⟨rfl, rfl⟩
    · have hreason := herror fault hfault
      dsimp only at hreason ⊢
      rw [hreason]
      rfl
  · intro second whole
    have hwhole : whole = _ := Runner.run_add hnobody h hspent more
    rw [hwhole]
    exact ⟨rfl, rfl⟩
  · obtain ⟨hmachine, hafter, -⟩ := r.run_machine options
    exact Parva.exists_after_of_halted (Parva.pc_lt_of_after hpc hafter) (hhalted h hhalt)

/-- An instruction leads to a halt instruction.  A run of one tells that its budget is spent, goes
on with two more as a run of three, and comes to nothing but the halt; a branch of the Parva to
itself is one, too. -/
theorem spent_run_goes_on :
    let r : Runner V8.State := ⟨Machine.load [(0, 1)], [], 0⟩
    let waiting : Runner Parva.State := ⟨Machine.load [(0, 0xC00000)], [0], 0⟩
    (∃ k, IsLeast {j | Runner.StopsAfter [] 1 r.machine j} k ∧
      ∀ s, Machine.after k r.machine = .ok s → (r.run ⟨1, false, none⟩).1 = ⟨s, [], 0 + k⟩) ∧
    (r.run ⟨1, false, none⟩).2.2 = .ok ⟨.budget, some 1, 1, ""⟩ ∧
    (r.run ⟨3, false, none⟩).1 = ((r.run ⟨1, false, none⟩).1.run ⟨2, false, none⟩).1 ∧
    (r.run ⟨3, false, none⟩).2.2 = .ok ⟨.halt, some 1, 1, ""⟩ ∧
    (∀ n, ∃ cycle, Machine.after n (r.run ⟨3, false, none⟩).1.machine =
      .ok { (r.run ⟨3, false, none⟩).1.machine with cycle := cycle }) ∧
    ∀ n, ∃ cycle, Machine.after n (waiting.run ⟨9, false, none⟩).1.machine =
      .ok { (waiting.run ⟨9, false, none⟩).1.machine with cycle := cycle } := by
  intro r waiting
  have hone : (r.run ⟨1, false, none⟩).2.2 = .ok ⟨.budget, some 1, 1, ""⟩ := by decide +kernel
  have hthree : (r.run ⟨3, false, none⟩).2.2 = .ok ⟨.halt, some 1, 1, ""⟩ := by decide +kernel
  have hwaits : (waiting.run ⟨9, false, none⟩).2.2 = .ok ⟨.halt, some 0, 0, ""⟩ := by
    decide +kernel
  have hpc : (0 : Nat) < Parva.wordCount := by decide
  obtain ⟨hstops, hgoes, hv8, -, hparva⟩ := runs_stop_at_first_reason
  obtain ⟨k, hleast, hok, -⟩ := hstops V8.State r ⟨1, false, none⟩ rfl
  exact ⟨⟨k, hleast, fun s hs => (hok s hs).1⟩, hone, (hgoes V8.State r _ _ rfl hone rfl 2).1,
    hthree, hv8 r _ _ hthree rfl, hparva waiting _ _ hpc hwaits rfl⟩

end PocketAsm
