/-
  Proofs/Transfer/Timing.lean --- delays that a transfer can keep.

  Before each pair the rest of the transfer is estimated, and after each
  message there is a pause; both are computed in floating-point numbers and may
  have no result.  A delay is feasible for a number of pairs if all of them
  have one.  The delays that are really used are, and with a wide margin.
-/
import PocketAsm.Proofs.Magnitude
import PocketAsm.Transfer.Progress

set_option autoImplicit false

namespace PocketAsm.Transfer

/-- The pause after a message and the report before each of `total` pairs can be computed; a
transfer gives up at the first that cannot. -/
structure Delay.Feasible (delay : Delay) (total : Nat) : Prop where
  pause : ∃ x, delay.seconds = .ok x
  report : ∀ index < total, ∃ text, progressText index total delay = .ok text

/-- The delay is at most `2 ^ b` milliseconds. -/
def Delay.Within (b : Nat) : Delay → Prop
  | .whole n => n.natAbs ≤ 2 ^ b
  | .real x => x.Within b

/-- The delay of two messages. -/
theorem Delay.Within.doubled {delay : Delay} {b : Nat} (h : delay.Within b) (hb : b ≤ 1000) :
    ∃ x, delay.doubled = .ok x ∧ x.Within (b + 5) := by
  cases delay with
  | whole n =>
    have hle : (2 * n).natAbs ≤ 2 ^ (b + 1) := by
      rw [Int.natAbs_mul, pow_succ, mul_comm]
      exact Nat.mul_le_mul_right 2 h
    obtain ⟨x, hx, hwithin⟩ := Binary64.ofInteger_within hle (by omega)
    exact ⟨x, hx, hwithin.mono (by omega)⟩
  | real x =>
    have htwo : (Binary64.ofInt 2).Within 3 :=
      Binary64.ofRatio_within _ one_pos (show 2 ≤ 1 * 2 ^ 1 by decide) (by decide)
    exact ⟨_, rfl, Binary64.mul_within h htwo (by omega)⟩

theorem Delay.Within.seconds {delay : Delay} {b : Nat} (h : delay.Within b) (hb : b ≤ 1000) :
    ∃ x, delay.seconds = .ok x := by
  cases delay with
  | whole n =>
    have hle : n.natAbs ≤ (1000 : Int).natAbs * 2 ^ b :=
      h.trans (Nat.le_mul_of_pos_left _ (by decide))
    obtain ⟨x, hx, _⟩ := Binary64.quotient_within (by decide) hle (by omega)
    exact ⟨x, hx⟩
  | real x => exact ⟨_, rfl⟩

/-- The estimate for the rest of a transfer stays within the product of delay and length. -/
theorem Delay.Within.remainingTime {delay : Delay} {b c : Nat} (h : delay.Within b)
    (hbc : b + c ≤ 1000) {index total : Nat} (hindex : index ≤ total) (htotal : total ≤ 2 ^ c) :
    ∃ x, remainingTime index total delay = .ok x ∧ x.Within (b + c + 14) := by
  have hlength : (total : Int).natAbs ≤ (8 : Int).natAbs * 2 ^ c :=
    htotal.trans (Nat.le_mul_of_pos_left _ (by decide))
  have hleft : ((total : Int) - index).natAbs ≤ 2 ^ c := by
    refine le_trans ?_ htotal
    omega
  obtain ⟨checksums, hchecksums, hwithin₁⟩ :=
    Binary64.quotient_within (by decide) hlength (by omega)
  obtain ⟨pairs, hpairs, hwithin₂⟩ := Binary64.ofInteger_within hleft (by omega)
  obtain ⟨pause, hpause, hwithin₃⟩ := h.doubled (by omega)
  have hmessages := Binary64.add_within hwithin₂ hwithin₁ (by omega)
  have hmilliseconds := Binary64.mul_within hmessages hwithin₃ (by omega)
  refine ⟨_, ?_, (Binary64.div_thousand_within hmilliseconds (by omega)).mono (by omega)⟩
  simp only [Transfer.remainingTime, hchecksums, hpairs, hpause]

/-- A delay that is not astronomical is feasible. -/
theorem Delay.Within.feasible {delay : Delay} {b c : Nat} (h : delay.Within b)
    (hbc : b + c ≤ 1000) {total : Nat} (htotal : total ≤ 2 ^ c) : delay.Feasible total where
  pause := h.seconds (by omega)
  report index hindex := by
    obtain ⟨time, htime, hwithin⟩ := h.remainingTime hbc hindex.le htotal
    have hpart : (index : Int).natAbs ≤ (total : Int).natAbs * 2 ^ 0 := by
      simpa using hindex.le
    obtain ⟨part, hquotient, _⟩ := Binary64.quotient_within (by omega) hpart (by decide)
    obtain ⟨n, hceiling⟩ := hwithin.ceiling
    simp only [progressText, htime, hquotient, durationText, hceiling]
    exact ⟨_, rfl⟩

/-! ## Numbers without a result

A computation in floating-point numbers writes no decimal digits, so it never fails for having too
many of them. -/

theorem finiteOnly_ne_longNumber (x : Binary64) : x.finiteOnly ≠ .error .longNumber := by
  unfold Binary64.finiteOnly
  split <;> simp

theorem quotient_ne_longNumber (a b : Int) : Binary64.quotient a b ≠ .error .longNumber := by
  unfold Binary64.quotient
  split
  · simp
  · exact finiteOnly_ne_longNumber _

theorem durationText_ne_longNumber (x : Binary64) : durationText x ≠ .error .longNumber := by
  have hceiling : x.ceiling ≠ .error .longNumber := by
    unfold Binary64.ceiling
    split
    · simp
    · split <;> simp
  unfold durationText
  split <;> simp_all

theorem Delay.seconds_ne_longNumber (delay : Delay) : delay.seconds ≠ .error .longNumber := by
  cases delay with
  | whole n => exact quotient_ne_longNumber n 1000
  | real x => simp [Delay.seconds]

theorem Delay.doubled_ne_longNumber (delay : Delay) : delay.doubled ≠ .error .longNumber := by
  cases delay with
  | whole n => exact finiteOnly_ne_longNumber _
  | real x => simp [Delay.doubled]

theorem remainingTime_ne_longNumber (index total : Int) (delay : Delay) :
    remainingTime index total delay ≠ .error .longNumber := by
  have hchecksums := quotient_ne_longNumber total 8
  have hpairs : Binary64.ofInteger (total - index) ≠ .error .longNumber :=
    finiteOnly_ne_longNumber _
  have hpause := delay.doubled_ne_longNumber
  unfold remainingTime
  split
  · simp_all
  · split
    · simp_all
    · split <;> simp_all

theorem progressText_ne_longNumber (index total : Int) (delay : Delay) :
    progressText index total delay ≠ .error .longNumber := by
  have htime := remainingTime_ne_longNumber index total delay
  have hpart := quotient_ne_longNumber index total
  unfold progressText
  split
  · simp_all
  · rename_i time _
    have hleft := durationText_ne_longNumber time
    split
    · simp_all
    · split <;> simp_all

/-! ## The standard delay -/

/-- The standard delay is feasible for every list that a machine can hold. -/
theorem Delay.standard_feasible {total : Nat} (htotal : total ≤ 2 ^ 63) :
    Delay.standard.Feasible total := by
  have hwithin : Delay.standard.Within 11 := by
    show (1500 : Int).natAbs ≤ 2 ^ 11
    decide
  exact hwithin.feasible (by decide) htotal

end PocketAsm.Transfer
