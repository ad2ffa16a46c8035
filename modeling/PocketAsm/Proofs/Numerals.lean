/-
  Proofs/Numerals.lean --- the decimal digits of integers.

  An integer is written with its sign and the digits of its magnitude, the
  first of which is no zero unless it stands alone.  There are more of them
  than a reader takes exactly if the integer cannot be written
  (`isOverlong_toDigits`).
-/
import Mathlib.Tactic
import PocketAsm.Text.Numeral

set_option autoImplicit false

namespace PocketAsm.Text

theorem exists_digit_cons (n : Nat) :
    ∃ d ds, Nat.toDigits 10 n = d :: ds ∧ d.isDigit = true := by
  obtain ⟨d, ds, hds⟩ := List.exists_cons_of_ne_nil (Nat.toDigits_ne_nil (n := n) (b := 10))
  exact ⟨d, ds, hds, Nat.isDigit_of_mem_toDigits (by decide) (by decide) (hds ▸ List.mem_cons_self)⟩

theorem ne_of_isDigit {d : Char} (h : d.isDigit = true) {c : Char} (hc : c.isDigit = false) :
    d ≠ c := by
  rintro rfl
  rw [h] at hc
  cases hc

/-- A number other than zero begins with a digit other than zero. -/
theorem head_toDigits_ne {n : Nat} (h : n ≠ 0) : (Nat.toDigits 10 n).head? ≠ some '0' := by
  induction n using Nat.strongRecOn with
  | ind n ih =>
    rcases Nat.lt_or_ge n 10 with hlt | hge
    · clear ih
      rw [Nat.toDigits_of_lt_base hlt]
      interval_cases n <;> simp_all [Nat.digitChar]
    · rw [Nat.toDigits_of_base_le (by decide) hge,
        List.head?_append_of_ne_nil _ Nat.toDigits_ne_nil]
      exact ih (n / 10) (by omega) (by omega)

/-- The numbers whose numerals are read are those that can be written. -/
theorem isOverlong_toDigits (n : Nat) :
    isOverlong 10 (Nat.toDigits 10 n) = decide (decimalBound ≤ n) := by
  have hcount : digitCount (Nat.toDigits 10 n) = (Nat.toDigits 10 n).length := by
    rw [digitCount, List.countP_eq_length]
    intro d hd
    have hne : d ≠ '_' := fun heq => Nat.underscore_not_in_toDigits (heq ▸ hd)
    simpa using hne
  have hdigits (k : Nat) (hk : 0 < k) : k < (Nat.toDigits 10 n).length ↔ Nat.pow 10 k ≤ n :=
    not_iff_not.mp (by simpa using Nat.length_toDigits_le_iff (b := 10) (by decide) hk)
  unfold decimalBound
  rw [isOverlong, beq_self_eq_true, Bool.true_and, hcount, decide_eq_decide]
  exact hdigits _ (by decide)

/-- A number with few enough digits can be written. -/
theorem isWritable_of_lt {n : Int} (k : Nat) (hk : k ≤ maxDecimalDigits)
    (h : n.natAbs < Nat.pow 10 k) : isWritable n = true := by
  unfold isWritable decimalBound
  generalize maxDecimalDigits = digits at hk
  exact decide_eq_true (h.trans_le (Nat.pow_le_pow_right (by decide) hk))

/-- An integer is written with its sign and the digits of its magnitude. -/
theorem toList_toString (n : Int) : (toString n).toList =
    if n < 0 then '-' :: Nat.toDigits 10 n.natAbs else Nat.toDigits 10 n.natAbs := by
  rw [Int.toString_eq_repr, Int.repr_eq_if]
  by_cases hn : n < 0
  · rw [if_neg (by omega), if_pos hn, Nat.repr_eq_ofList_toDigits, String.toList_append,
      show (-n).toNat = n.natAbs by omega]
    simp
  · rw [if_pos (by omega), if_neg hn, Nat.repr_eq_ofList_toDigits, String.toList_ofList,
      show n.toNat = n.natAbs by omega]

end PocketAsm.Text
