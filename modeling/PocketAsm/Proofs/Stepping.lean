/-
  Proofs/Stepping.lean --- machines after any number of instructions.

  What loading establishes and every instruction keeps holds after any number
  of instructions (`after_induction`).  A run of the runner is such a sequence:
  however it stops, the machine it leaves is the one after the instructions it
  counts, and if it stops with a fault, that machine is the one that could not
  execute its instruction (`run_machine`).
-/
import PocketAsm.Machine
import PocketAsm.Proofs.Image

set_option autoImplicit false

namespace PocketAsm

/-! ## Entries of a memory that is written -/

namespace Memory

variable {P : Int × Nat → Prop} {m : Memory}

theorem forall_write (h : ∀ entry ∈ m.toList, P entry) {a : Int} {v : Nat} (hnew : P (a, v)) :
    ∀ entry ∈ (m.write a v).toList, P entry := by
  rintro ⟨b, w⟩ hmem
  rw [mem_toList, write, Std.TreeMap.getElem?_insert] at hmem
  split at hmem
  · rename_i hab
    obtain rfl := compare_eq_iff_eq.mp hab
    obtain rfl := Option.some.inj hmem
    exact hnew
  · exact h _ (mem_toList.mpr hmem)

theorem forall_writeAll {words : List (Int × Nat)} (h : ∀ entry ∈ m.toList, P entry)
    (hwords : ∀ word ∈ words, P word) : ∀ entry ∈ (m.writeAll words).toList, P entry := by
  induction words generalizing m with
  | nil => exact h
  | cons word words ih =>
    obtain ⟨hword, hwords⟩ := List.forall_mem_cons.mp hwords
    exact ih (forall_write h hword) hwords

/-- The entries of a memory that starts empty are those that were written. -/
theorem forall_writeAll_empty {words : List (Int × Nat)} (hwords : ∀ word ∈ words, P word) :
    ∀ entry ∈ (empty.writeAll words).toList, P entry := by
  refine forall_writeAll ?_ hwords
  rintro ⟨a, v⟩ hmem
  rw [mem_toList, empty, Std.TreeMap.getElem?_emptyc] at hmem
  cases hmem

/-- What is read is an entry, or the zero of an address that was never written. -/
theorem read_lt {bound : Nat} (hbound : 0 < bound) (h : ∀ entry ∈ m.toList, entry.2 < bound)
    (a : Int) : m.read a < bound := by
  rw [read, Std.TreeMap.getD_eq_getD_getElem?]
  cases hcell : m.cells[a]? with
  | none => exact hbound
  | some v => exact h (a, v) (mem_toList.mpr hcell)

end Memory

/-! ## Any number of instructions -/

namespace Machine

variable {σ : Type} [Machine σ]

/-- The state after so many instructions, or the fault of the first one that cannot be executed. -/
def after : Nat → σ → Except MachineFault σ
  | 0, s => .ok s
  | n + 1, s =>
    match Machine.step s with
    | .error e => .error e
    | .ok s => after n s

theorem after_succ_of_ok {s t : σ} (h : Machine.step s = .ok t) (n : Nat) :
    after (n + 1) s = after n t := by
  rw [after, h]

theorem after_succ_of_error {s : σ} {e : MachineFault} (h : Machine.step s = .error e) (n : Nat) :
    after (n + 1) s = .error e := by
  rw [after, h]

/-- What each instruction keeps is kept by any number of them; the count goes along. -/
theorem after_induction {P : Nat → σ → Prop}
    (hstep : ∀ k s t, P k s → Machine.step s = .ok t → P (k + 1) t) {n k : Nat} {s t : σ}
    (h : P k s) (hafter : after n s = .ok t) : P (k + n) t := by
  induction n generalizing k s with
  | zero =>
    obtain rfl := Except.ok.inj hafter
    exact h
  | succ n ih =>
    cases hs : Machine.step s with
    | error e => cases (after_succ_of_error hs n).symm.trans hafter
    | ok t' =>
      rw [after_succ_of_ok hs] at hafter
      have := ih (hstep k s t' h hs) hafter
      rwa [Nat.add_right_comm, Nat.add_assoc] at this

/-- A machine that can execute an instruction in each of some states, and comes to another of them,
runs on. -/
theorem exists_after {P : σ → Prop} (hstep : ∀ s, P s → ∃ t, Machine.step s = .ok t ∧ P t) (n : Nat)
    {s : σ} (h : P s) : ∃ t, after n s = .ok t ∧ P t := by
  induction n generalizing s with
  | zero => exact ⟨s, rfl, h⟩
  | succ n ih =>
    obtain ⟨t, ht, hP⟩ := hstep s h
    rw [after_succ_of_ok ht]
    exact ih hP

/-- Instructions fail at the first one that cannot be executed. -/
theorem after_eq_error {n : Nat} {s : σ} {e : MachineFault} :
    after n s = .error e ↔ ∃ k < n, ∃ t, after k s = .ok t ∧ Machine.step t = .error e := by
  induction n generalizing s with
  | zero => simp [after]
  | succ n ih =>
    cases hs : Machine.step s with
    | error e' =>
      rw [after_succ_of_error hs]
      constructor
      · intro h
        exact ⟨0, n.succ_pos, s, rfl, hs.trans h⟩
      · rintro ⟨k, -, t, hk, ht⟩
        cases k with
        | zero =>
          obtain rfl := Except.ok.inj hk
          exact hs.symm.trans ht
        | succ k => cases (after_succ_of_error hs k).symm.trans hk
    | ok t' =>
      rw [after_succ_of_ok hs, ih]
      constructor
      · rintro ⟨k, hk, t, hafter, ht⟩
        exact ⟨k + 1, Nat.succ_lt_succ hk, t, (after_succ_of_ok hs k).trans hafter, ht⟩
      · rintro ⟨k, hk, t, hafter, ht⟩
        cases k with
        | zero =>
          obtain rfl := Except.ok.inj hafter
          cases hs.symm.trans ht
        | succ k =>
          exact ⟨k, Nat.lt_of_succ_lt_succ hk, t, (after_succ_of_ok hs k).symm.trans hafter, ht⟩

end Machine

/-! ## Runs -/

namespace Runner

variable {σ : Type} [Machine σ]

/-- However a run stops, it leaves the machine after the instructions it counts; a fault is the one
of the instruction on which it is left. -/
theorem advance_machine (breakpoints : List Int) (options : RunOptions) (left : Nat)
    (p : PocketAsm.Progress σ) :
    let (q, stop) := advance breakpoints options left p
    ∃ n, q.steps = p.steps + n ∧ Machine.after n p.machine = .ok q.machine ∧
      ∀ fault, stop = .error fault → Machine.step q.machine = .error fault := by
  induction left generalizing p with
  | zero => exact ⟨0, rfl, rfl, fun _ h => nomatch h⟩
  | succ left ih =>
    rw [advance]
    cases Machine.halted p.machine with
    | true => exact ⟨0, rfl, rfl, fun _ h => nomatch h⟩
    | false =>
      cases hs : Machine.step p.machine with
      | error e =>
        refine ⟨0, rfl, rfl, fun fault h => ?_⟩
        obtain rfl := Except.error.inj h
        exact hs
      | ok t =>
        have hone : Machine.after 1 p.machine = .ok t := Machine.after_succ_of_ok hs 0
        simp only [Bool.false_eq_true, if_false]
        split
        · exact ⟨1, rfl, hone, fun _ h => nomatch h⟩
        · split
          · exact ⟨1, rfl, hone, fun _ h => nomatch h⟩
          · obtain ⟨n, hsteps, hafter, hfault⟩ := ih ⟨t, p.steps + 1, Machine.pc t :: p.trace,
              if options.paced then p.naps + 1 else p.naps⟩
            refine ⟨n + 1, ?_, (Machine.after_succ_of_ok hs n).trans hafter, hfault⟩
            rw [hsteps, Nat.add_assoc, Nat.add_comm 1 n]

theorem run_machine (r : Runner σ) (options : RunOptions) :
    let (r', p, stop) := r.run options
    r'.machine = p.machine ∧ Machine.after p.steps r.machine = .ok p.machine ∧
      ∀ fault, stop = .error fault → Machine.step p.machine = .error fault := by
  obtain ⟨n, hsteps, hafter, hfault⟩ :=
    advance_machine r.breakpoints options options.budget ⟨r.machine, 0, [], 0⟩
  rw [Nat.zero_add] at hsteps
  refine ⟨rfl, hsteps ▸ hafter, fun fault h => hfault fault ?_⟩
  revert h
  cases (advance r.breakpoints options options.budget ⟨r.machine, 0, [], 0⟩).2 with
  | error e => exact fun h => congrArg _ (Except.error.inj h)
  | ok reason => exact fun h => nomatch h

end Runner

end PocketAsm
