/-
  Proofs/Ranges.lean --- the machines keep their states well formed.

  Whatever is loaded, and however many instructions are executed, every part of
  a state stays in the range that its machine has for it.  Two of the machines
  never fail; the third one fails where a byte is no opcode, and is left as it
  was before.
-/
import PocketAsm.Proofs.Bitzzy.Ranges
import PocketAsm.Proofs.Parva.Ranges
import PocketAsm.Proofs.V8.Ranges

set_option autoImplicit false

namespace PocketAsm

/-- After loading words with any addresses and any values, and after any number of instructions:
the V8 has not failed, and its registers, its memory and its two pointers are in range.  The state
of the Bitzzy is in range too, and has counted the instructions; the next one fails exactly if its
byte is not in the table, and only such a byte can have ended the instructions before their number
was reached.  A run that ends so leaves the machine as the instructions before the failing one did.
The Parva has not failed, its state is in range, and its display has all its pixels. -/
theorem states_stay_in_range (words : List (Int × Int)) (n : Nat) :
    (∃ s : V8.State, Machine.after n (Machine.load words) = .ok s ∧ s.InRange ∧ s.sp < 256) ∧
    (∀ s : Bitzzy.State, Machine.after n (Machine.load words) = .ok s →
      s.InRange ∧ s.yx < 65536 ∧ s.cycle = n ∧
      ∀ fault, Machine.step s = .error fault ↔
        Bitzzy.decode? (s.read s.pc) = none ∧ fault = .unknownOpcode (s.read s.pc) s.pc) ∧
    (∀ fault, Machine.after n (Machine.load words : Bitzzy.State) = .error fault ↔
      ∃ k < n, ∃ s : Bitzzy.State, Machine.after k (Machine.load words) = .ok s ∧
        Bitzzy.decode? (s.read s.pc) = none ∧ fault = .unknownOpcode (s.read s.pc) s.pc) ∧
    (∀ (r r' : Runner Bitzzy.State) options progress fault,
      (r.load words).run options = (r', progress, .error fault) →
      Machine.after progress.steps (Machine.load words) = .ok r'.machine ∧
        r'.machine.cycle = progress.steps ∧ Machine.step r'.machine = .error fault) ∧
    ∃ s : Parva.State, Machine.after n (Machine.load words) = .ok s ∧ s.InRange ∧
      ∀ screen ∈ [s.display.screen, s.display.buffer],
        screen.rows.length = 48 ∧ ∀ row ∈ screen.rows, row.length = 64 := by
  refine ⟨?_, ?_, ?_, ?_, ?_⟩
  · obtain ⟨s, hs, hrange⟩ := V8.exists_after_load words n
    exact ⟨s, hs, hrange, hrange.read_lt _⟩
  · intro s hs
    obtain ⟨hrange, hcycle⟩ := Bitzzy.inRange_after_load hs
    exact ⟨hrange, hrange.yx_lt, hcycle, fun _ => Bitzzy.step_eq_error⟩
  · intro fault
    rw [Machine.after_eq_error]
    exact exists_congr fun k => and_congr_right fun _ => exists_congr fun s =>
      and_congr_right fun _ => Bitzzy.step_eq_error
  · intro r r' options progress fault hrun
    have hmachine := (r.load words).run_machine options
    rw [hrun] at hmachine
    obtain ⟨heq, hafter, hfault⟩ := hmachine
    rw [← heq] at hafter hfault
    exact ⟨hafter, (Bitzzy.inRange_after_load hafter).2, hfault fault rfl⟩
  · obtain ⟨s, hs, hrange⟩ := Parva.exists_after_load words n
    exact ⟨s, hs, hrange, fun screen _ => screen.rows_shape⟩

/-- The first byte is an instruction that does nothing, the second one is none. -/
example : Machine.after 5 (Machine.load [(0, 5), (65537, 262)] : Bitzzy.State) =
    .error (.unknownOpcode 6 1) := by
  rfl

end PocketAsm
