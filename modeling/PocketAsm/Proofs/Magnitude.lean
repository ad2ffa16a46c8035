/-
  Proofs/Magnitude.lean --- floating-point results that stay finite.

  A number is within a bound if it is finite and its value, without the sign,
  is at most a power of two.  Rounding a quotient may raise the bound by two
  binary places, no more, because a mantissa never exceeds 53 bits
  (`roundDiv_le`); so the bounds of a computation add up step by step, and the
  result is finite as long as they stay below the greatest exponent.
-/
import Mathlib.Tactic
import PocketAsm.Binary64.Checked

set_option autoImplicit false

namespace PocketAsm.Binary64

/-- The number is finite and its value, without the sign, is at most `2 ^ b`. -/
def Within (b : Nat) : Binary64 → Prop
  | .finite _ m e => (m : ℚ) * 2 ^ e ≤ 2 ^ b
  | _ => False

theorem Within.mono {b c : Nat} {x : Binary64} (h : x.Within b) (hbc : b ≤ c) : x.Within c := by
  cases x with
  | finite s m e => exact h.trans (pow_le_pow_right₀ one_le_two hbc)
  | infinite s => exact h
  | nan => exact h

theorem Within.finiteOnly {b : Nat} {x : Binary64} (h : x.Within b) : finiteOnly x = .ok x := by
  cases x with
  | finite s m e => rfl
  | infinite s => exact h.elim
  | nan => exact h.elim

theorem Within.ceiling {b : Nat} {x : Binary64} (h : x.Within b) : ∃ n, x.ceiling = .ok n := by
  cases x with
  | finite s m e => exact ⟨_, rfl⟩
  | infinite s => exact h.elim
  | nan => exact h.elim

/-! ## Rounding -/

/-- Comparing a scaled quotient with a power of two is comparing the quotient with a higher one. -/
theorem scaled_lt_iff (num den : Nat) (e : Int) (k : Nat) :
    (scaled num den e).1 < (scaled num den e).2 * 2 ^ k ↔ (num : ℚ) < den * 2 ^ (e + k) := by
  rw [zpow_add₀ two_ne_zero, zpow_natCast]
  obtain ⟨n, rfl | rfl⟩ := e.eq_nat_or_neg
  · have hscaled : scaled num den (n : Int) = (num, den * 2 ^ n) := by simp [scaled]
    rw [hscaled, zpow_natCast, ← mul_assoc]
    exact_mod_cast Iff.rfl
  · have hscaled : (scaled num den (-n : Int)).1 = num * 2 ^ n ∧
        (scaled num den (-n : Int)).2 = den := by
      rcases Nat.eq_zero_or_pos n with rfl | hn
      · simp [scaled]
      · simp [scaled, hn.ne']
    have hpow : (0 : ℚ) < 2 ^ n := by positivity
    rw [hscaled.1, hscaled.2, zpow_neg, zpow_natCast, mul_left_comm, ← div_eq_inv_mul,
      lt_div_iff₀ hpow]
    exact_mod_cast Iff.rfl

theorem scaled_snd_pos {num den : Nat} (hden : 0 < den) (e : Int) : 0 < (scaled num den e).2 := by
  unfold scaled
  split
  · exact Nat.mul_pos hden (Nat.pow_pos (by decide))
  · exact hden

/-- A quotient is below the power of two that the lengths of its terms give. -/
theorem lt_two_zpow_log2 {num den : Nat} (hden : 0 < den) :
    (num : ℚ) < den * 2 ^ ((num.log2 : Int) - den.log2 + 1) := by
  have hnum : (num : ℚ) < 2 ^ (num.log2 + 1) := by exact_mod_cast Nat.lt_log2_self
  have hpow : (2 : ℚ) ^ den.log2 ≤ den := by exact_mod_cast Nat.log2_self_le hden.ne'
  have hexp : (2 : ℚ) ^ (num.log2 + 1) = 2 ^ den.log2 * 2 ^ ((num.log2 : Int) - den.log2 + 1) := by
    rw [← zpow_natCast, ← zpow_natCast, ← zpow_add₀ two_ne_zero]
    congr 1
    push_cast
    ring
  calc (num : ℚ) < 2 ^ (num.log2 + 1) := hnum
    _ = 2 ^ den.log2 * 2 ^ ((num.log2 : Int) - den.log2 + 1) := hexp
    _ ≤ den * 2 ^ ((num.log2 : Int) - den.log2 + 1) := by gcongr

/-- At the chosen exponent the mantissa has at most 53 bits. -/
theorem lt_two_zpow_exponentOf {num den : Nat} (hden : 0 < den) :
    (num : ℚ) < den * 2 ^ (exponentOf num den + 53) := by
  have hmono {e f : Int} (hef : e ≤ f) (h : (num : ℚ) < den * 2 ^ e) : (num : ℚ) < den * 2 ^ f :=
    h.trans_le (by gcongr; exact one_le_two)
  set guess : Int := (num.log2 : Int) - den.log2 - 52 with hguess
  have hlog : (num : ℚ) < den * 2 ^ (guess + 53) := by
    convert lt_two_zpow_log2 hden using 3
    omega
  have hexp : exponentOf num den = max minExponent
      (if (scaled num den guess).1 / (scaled num den guess).2 < leastFull then guess - 1
        else guess) := rfl
  by_cases hless : (scaled num den guess).1 / (scaled num den guess).2 < leastFull
  · rw [hexp, if_pos hless]
    have hlt : (scaled num den guess).1 < (scaled num den guess).2 * 2 ^ 52 := by
      have := (Nat.div_lt_iff_lt_mul (scaled_snd_pos hden guess)).mp hless
      rw [mul_comm]
      exact this
    refine hmono ?_ ((scaled_lt_iff num den guess 52).mp hlt)
    have := le_max_right minExponent (guess - 1)
    push_cast
    omega
  · rw [hexp, if_neg hless]
    refine hmono ?_ hlog
    have := le_max_right minExponent guess
    omega

theorem roundDiv_le {n d k : Nat} (hd : 0 < d) (h : n < d * k) : roundDiv n d ≤ k := by
  have hdiv : n / d < k := (Nat.div_lt_iff_lt_mul hd).mpr (by rwa [mul_comm] at h)
  unfold roundDiv
  simp only
  split
  · omega
  · split
    · omega
    · split <;> omega

/-- The exponent of a quotient that is at most a power of two. -/
theorem exponentOf_le {num den b : Nat} (hnum : num ≠ 0) (h : num ≤ den * 2 ^ b) :
    exponentOf num den ≤ (b : Int) - 52 := by
  have hlog : num.log2 ≤ den.log2 + b := by
    have hlt : num < 2 ^ (den.log2 + 1 + b) := by
      calc num ≤ den * 2 ^ b := h
        _ < 2 ^ (den.log2 + 1) * 2 ^ b := by
          gcongr
          exact Nat.lt_log2_self
        _ = 2 ^ (den.log2 + 1 + b) := (pow_add 2 _ _).symm
    have := (Nat.log2_lt hnum).mpr hlt
    omega
  have hmin : minExponent ≤ (b : Int) - 52 := by
    simp only [minExponent]
    omega
  refine max_le hmin ?_
  split <;> omega

/-- Rounding a quotient keeps it within a bound that is two binary places higher. -/
theorem ofRatio_within {num den b : Nat} (negative : Bool) (hden : 0 < den)
    (h : num ≤ den * 2 ^ b) (hb : b ≤ 1022) : (ofRatio negative num den).Within (b + 2) := by
  by_cases hnum : num = 0
  · simp [ofRatio, hnum, Within]
  · have hle : exponentOf num den ≤ (b : Int) - 52 := exponentOf_le hnum h
    have hround : roundDiv (scaled num den (exponentOf num den)).1
        (scaled num den (exponentOf num den)).2 ≤ 2 ^ 53 :=
      roundDiv_le (scaled_snd_pos hden _)
        ((scaled_lt_iff num den _ 53).mpr (lt_two_zpow_exponentOf hden))
    have hvalue {m : Nat} {e : Int} (hm : m ≤ 2 ^ 53) (he : e ≤ (b : Int) - 51) :
        (m : ℚ) * 2 ^ e ≤ 2 ^ (b + 2) := by
      calc (m : ℚ) * 2 ^ e ≤ 2 ^ 53 * 2 ^ ((b : Int) - 51) := by
            gcongr
            · exact_mod_cast hm
            · exact one_le_two
        _ = 2 ^ (b + 2) := by
            rw [← zpow_natCast, ← zpow_natCast, ← zpow_add₀ two_ne_zero]
            congr 1
            push_cast
            ring
    simp only [ofRatio, hnum, if_false]
    -- a mantissa of 54 bits is halved, which raises the exponent by one
    by_cases hcarry : roundDiv (scaled num den (exponentOf num den)).1
        (scaled num den (exponentOf num den)).2 = 2 * leastFull
    · have hexp : ¬maxExponent < exponentOf num den + 1 := by
        simp only [maxExponent]
        omega
      simp only [hcarry, if_true, hexp, if_false]
      exact hvalue (by decide) (by omega)
    · have hexp : ¬maxExponent < exponentOf num den := by
        simp only [maxExponent]
        omega
      simp only [hcarry, if_false, hexp]
      exact hvalue hround (by omega)

theorem ofScaled_within {n b : Nat} {e : Int} (negative : Bool) (h : (n : ℚ) * 2 ^ e ≤ 2 ^ b)
    (hb : b ≤ 1022) : (ofScaled negative n e).Within (b + 2) := by
  unfold ofScaled
  split
  · rename_i he
    obtain ⟨k, rfl⟩ := Int.eq_ofNat_of_zero_le he
    refine ofRatio_within negative one_pos ?_ hb
    rw [zpow_natCast] at h
    rw [one_mul]
    exact_mod_cast h
  · rename_i he
    obtain ⟨k, hk⟩ := Int.eq_ofNat_of_zero_le (show 0 ≤ -e by omega)
    obtain rfl : e = -k := by omega
    refine ofRatio_within negative (Nat.pow_pos (by decide)) ?_ hb
    have hpow : (0 : ℚ) < 2 ^ k := by positivity
    rw [zpow_neg, zpow_natCast, ← div_eq_mul_inv, div_le_iff₀ hpow] at h
    rw [neg_neg, Int.toNat_natCast, mul_comm]
    exact_mod_cast h

/-! ## Integers and quotients -/

theorem ofInteger_within {n : Int} {b : Nat} (h : n.natAbs ≤ 2 ^ b) (hb : b ≤ 1022) :
    ∃ x, ofInteger n = .ok x ∧ x.Within (b + 2) := by
  have hwithin : (ofInt n).Within (b + 2) := by
    refine ofRatio_within _ one_pos ?_ hb
    rwa [one_mul]
  exact ⟨ofInt n, hwithin.finiteOnly, hwithin⟩

theorem quotient_within {num den : Int} {b : Nat} (hden : den ≠ 0)
    (h : num.natAbs ≤ den.natAbs * 2 ^ b) (hb : b ≤ 1022) :
    ∃ x, quotient num den = .ok x ∧ x.Within (b + 2) := by
  have hwithin : (ofRatio ((num < 0) != (den < 0)) num.natAbs den.natAbs).Within (b + 2) :=
    ofRatio_within _ (Int.natAbs_pos.mpr hden) h hb
  refine ⟨_, ?_, hwithin⟩
  rw [quotient, if_neg hden, hwithin.finiteOnly]

/-! ## Arithmetic -/

theorem natAbs_signed (negative : Bool) (m : Nat) : (signed negative m).natAbs = m := by
  cases negative <;> simp [signed]

theorem add_within {x y : Binary64} {b : Nat} (hx : x.Within b) (hy : y.Within b) (hb : b ≤ 1021) :
    (x.add y).Within (b + 3) := by
  cases x with
  | infinite s => exact hx.elim
  | nan => exact hx.elim
  | finite s m e =>
    cases y with
    | infinite t => exact hy.elim
    | nan => exact hy.elim
    | finite t n f =>
      simp only [add]
      split
      · simp [Within]
      · refine ofScaled_within _ ?_ (Nat.succ_le_succ hb)
        set g := min e f
        have haligned {k : Nat} {h : Int} (hg : g ≤ h) :
            ((k * Nat.pow 2 (h - g).toNat : Nat) : ℚ) * 2 ^ g = k * 2 ^ h := by
          obtain ⟨d, hd⟩ := Int.eq_ofNat_of_zero_le (sub_nonneg.mpr hg)
          obtain rfl : h = d + g := by omega
          rw [hd, Int.toNat_natCast, zpow_add₀ two_ne_zero, zpow_natCast]
          simp [mul_assoc]
        have hsum : ((signed s (m * Nat.pow 2 (e - g).toNat) +
            signed t (n * Nat.pow 2 (f - g).toNat)).natAbs : ℚ) ≤
            (m * Nat.pow 2 (e - g).toNat : Nat) + (n * Nat.pow 2 (f - g).toNat : Nat) := by
          have hle := Int.natAbs_add_le (signed s (m * Nat.pow 2 (e - g).toNat))
            (signed t (n * Nat.pow 2 (f - g).toNat))
          rw [natAbs_signed, natAbs_signed] at hle
          exact_mod_cast hle
        calc _ ≤ (((m * Nat.pow 2 (e - g).toNat : Nat) : ℚ) +
              (n * Nat.pow 2 (f - g).toNat : Nat)) * 2 ^ g := by gcongr
          _ = m * 2 ^ e + n * 2 ^ f := by
            rw [add_mul, haligned (min_le_left e f), haligned (min_le_right e f)]
          _ ≤ 2 ^ b + 2 ^ b := add_le_add hx hy
          _ = 2 ^ (b + 1) := by ring

theorem mul_within {x y : Binary64} {b c : Nat} (hx : x.Within b) (hy : y.Within c)
    (hbc : b + c ≤ 1022) : (x.mul y).Within (b + c + 2) := by
  cases x with
  | infinite s => exact hx.elim
  | nan => exact hx.elim
  | finite s m e =>
    cases y with
    | infinite t => exact hy.elim
    | nan => exact hy.elim
    | finite t n f =>
      refine ofScaled_within _ ?_ hbc
      calc ((m * n : Nat) : ℚ) * 2 ^ (e + f) = (m * 2 ^ e) * (n * 2 ^ f) := by
            rw [zpow_add₀ two_ne_zero]
            push_cast
            ring
        _ ≤ 2 ^ b * 2 ^ c := mul_le_mul hx hy (by positivity) (by positivity)
        _ = 2 ^ (b + c) := (pow_add 2 b c).symm

theorem toRatio_snd_pos (m : Nat) (e : Int) : 0 < (toRatio m e).2 := by
  unfold toRatio
  split
  · exact one_pos
  · exact Nat.pow_pos (by decide)

/-- The exact value as a quotient. -/
theorem toRatio_fst_eq (m : Nat) (e : Int) :
    ((toRatio m e).1 : ℚ) = (toRatio m e).2 * (m * 2 ^ e) := by
  obtain ⟨n, rfl | rfl⟩ := e.eq_nat_or_neg
  · simp [toRatio]
  · rcases Nat.eq_zero_or_pos n with rfl | hn
    · simp [toRatio]
    · have hpow : (2 : ℚ) ^ n ≠ 0 := by positivity
      simp [toRatio, hn.ne']
      field_simp

/-- Dividing by a thousand does not leave the bound. -/
theorem div_thousand_within {x : Binary64} {b : Nat} (hx : x.Within b) (hb : b ≤ 1022) :
    (x.div (ofInt 1000)).Within (b + 2) := by
  have hthousand : ofInt 1000 = .finite false 8796093022208000 (-43) := by decide +kernel
  cases x with
  | infinite s => exact hx.elim
  | nan => exact hx.elim
  | finite s m e =>
    rw [hthousand]
    have hratio : toRatio 8796093022208000 (-43) = (8796093022208000, 2 ^ 43) := by decide +kernel
    have hvalue : (toRatio m e).1 ≤ (toRatio m e).2 * 2 ^ b := by
      have hle : ((toRatio m e).1 : ℚ) ≤ (toRatio m e).2 * 2 ^ b := by
        rw [toRatio_fst_eq]
        gcongr
        exact hx
      exact_mod_cast hle
    simp only [div, hratio]
    refine ofRatio_within _ (Nat.mul_pos (toRatio_snd_pos m e) (by decide)) ?_ hb
    calc (toRatio m e).1 * 2 ^ 43 ≤ (toRatio m e).2 * 2 ^ b * 8796093022208000 :=
          Nat.mul_le_mul hvalue (by decide)
      _ = (toRatio m e).2 * 8796093022208000 * 2 ^ b := by ring

end PocketAsm.Binary64
