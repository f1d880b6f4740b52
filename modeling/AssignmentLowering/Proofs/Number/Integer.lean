import AssignmentLowering.Script.Printer
import Mathlib.Algebra.Ring.Nat

/-!
# Integers as floating-point numbers

An integer of at most fifteen digits is a floating-point number exactly, and it is printed as
the integer that it is.

## Main statements

* `Binary64.decode_ofInt` — the number made of a positive integer stands for it.
* `Script.numberChars_of_same` — what equals a small integer is printed as that integer.
-/

namespace AssignmentLowering

namespace Binary64

theorem leadingBit_eq : leadingBit = 4503599627370496 := rfl

theorem signBit_eq : signBit = 9223372036854775808 := rfl

/-- A number with an implicit leading bit, from its fields. -/
theorem decode_of_fields {x : Binary64} {e f : Nat}
    (h : x.bits.toNat = e * leadingBit + f) (hf : f < leadingBit) (he : e ≠ 0)
    (he' : e < 2047) : x.decode = .finite false (leadingBit + f) (e - 1075) := by
  have hexp : x.exponentField = e := by
    simp only [exponentField, h, leadingBit_eq] at *
    omega
  have hfrac : x.fractionField = f := by
    simp only [fractionField, h, leadingBit_eq] at *
    omega
  have hsign : x.isNegative = false := by
    simp only [isNegative, h, signBit_eq, leadingBit_eq, decide_eq_false_iff_not] at *
    omega
  rw [decode, hexp, hfrac, hsign, if_neg (Nat.ne_of_lt he'), if_neg he]

theorem decode_of_isZero {x : Binary64} (h : x.isZero = true) :
    x.decode = .finite x.isNegative 0 minExponent := by
  obtain ⟨hexp, hfrac⟩ : x.exponentField = 0 ∧ x.fractionField = 0 := by
    simpa [isZero] using h
  rw [decode, hexp, hfrac, if_neg (by decide), if_pos rfl]

variable {n : Nat}

/-- Brought to the place of the leading bit, a positive integer fills the fraction. -/
theorem scaled_bounds (hn : n ≠ 0) (hlog : n.log2 ≤ 52) :
    leadingBit ≤ n * 2 ^ (52 - n.log2) ∧ n * 2 ^ (52 - n.log2) < 2 * leadingBit := by
  have hpow : leadingBit = 2 ^ n.log2 * 2 ^ (52 - n.log2) := by
    rw [← Nat.pow_add, Nat.add_sub_cancel' hlog]
    rfl
  constructor
  · rw [hpow]
    exact Nat.mul_le_mul_right _ (Nat.log2_self_le hn)
  · rw [hpow, ← Nat.mul_assoc, ← Nat.pow_succ']
    exact Nat.mul_lt_mul_of_pos_right Nat.lt_log2_self (Nat.two_pow_pos _)

theorem bits_ofInt (hn : n ≠ 0) (hlog : n.log2 ≤ 52) :
    (ofInt n).bits.toNat =
      (n.log2 + 1023) * leadingBit + (n * 2 ^ (52 - n.log2) - leadingBit) := by
  obtain ⟨hlow, hhigh⟩ := scaled_bounds hn hlog
  have hmag : magnitudeBits n = (n.log2 + 1022) * leadingBit + n * 2 ^ (52 - n.log2) := by
    simp only [magnitudeBits, if_neg hn, if_pos hlog]
    rfl
  have hsign : ¬ (n : Int) < 0 := by omega
  rw [ofInt, if_neg hsign, Int.natAbs_natCast, Nat.zero_add, hmag, UInt64.toNat_ofNat_of_lt']
  all_goals
    simp only [leadingBit_eq, UInt64.size] at *
    omega

/-- The number made of a positive integer stands for that integer, scaled so that it fills
the fraction. -/
theorem decode_ofInt (hn : n ≠ 0) (hlog : n.log2 ≤ 52) :
    (ofInt n).decode = .finite false (n * 2 ^ (52 - n.log2)) (-(52 - n.log2 : Nat)) := by
  obtain ⟨hlow, hhigh⟩ := scaled_bounds hn hlog
  have hexp : ((n.log2 + 1023 : Nat) : Int) - 1075 = -(52 - n.log2 : Nat) := by omega
  rw [decode_of_fields (bits_ofInt hn hlog) (by omega) (by omega) (by omega),
    Nat.add_sub_cancel' hlow, hexp]

/-- Only the number itself equals the one made of a positive integer. -/
theorem eq_ofInt_of_same {x : Binary64} (hn : n ≠ 0) (hlog : n.log2 ≤ 52)
    (h : x.same (.ofInt n) = true) : x = .ofInt n := by
  have hdecode := decode_ofInt hn hlog
  have hnan : (ofInt n).isNaN = false := by simp [isNaN, hdecode]
  have hzero : (ofInt n).isZero = false := by
    cases hz : (ofInt n).isZero with
    | false => rfl
    | true =>
      obtain ⟨-, hm, -⟩ := Value.finite.inj ((decode_of_isZero hz).symm.trans hdecode)
      exact absurd hm.symm (Nat.mul_ne_zero hn (Nat.ne_of_gt (Nat.two_pow_pos _)))
  have hbits : x.bits = (ofInt n).bits := by simpa [same, hnan, hzero] using h
  cases x
  cases hbits
  rfl

/-- Of either sign is what equals zero. -/
theorem decode_of_same_zero {x : Binary64} (h : x.same (.ofInt 0) = true) :
    x.decode = .finite x.isNegative 0 minExponent := by
  have hnan : (ofInt 0).isNaN = false := rfl
  have hzero : (ofInt 0).isZero = true := rfl
  rcases (by simpa [same, hnan, hzero] using h : x.isZero = true ∨ x.bits = (ofInt 0).bits)
    with hx | hx
  · exact decode_of_isZero hx
  · cases x
    cases hx
    exact decode_of_isZero hzero

end Binary64

namespace Script

/-- Scaling by a power of two is undone. -/
theorem integer?_scaled {k : Nat} (hk : 0 < k) (n : Nat) :
    integer? (n * 2 ^ k) (-k) = some n := by
  have hpow : Nat.pow 2 (-(-(k : Int))).toNat = 2 ^ k := by simp
  have hneg : ¬ (0 : Int) ≤ -k := by omega
  rw [integer?, if_neg hneg, hpow, if_pos (Nat.mul_mod_left n _),
    Nat.mul_div_cancel _ (Nat.two_pow_pos k)]

theorem numberChars_of_decode {x : Binary64} {n k : Nat} {negative : Bool} (hn : n < 10 ^ 15)
    (hk : 0 < k) (hsign : (negative && 0 < n) = false)
    (h : x.decode = .finite negative (n * 2 ^ k) (-k)) : numberChars x = Nat.toDigits 10 n := by
  have hsmall : (decide (n < Nat.pow 10 15)) = true := decide_eq_true hn
  rw [numberChars, h]
  simp only [integer?_scaled hk, Option.filter, hsmall, if_true, hsign, signChars]
  rfl

/-- What equals a small integer is printed as that integer. -/
theorem numberChars_of_same {x : Binary64} {n : Nat} (hn : n < 10 ^ 15)
    (h : x.same (.ofInt n) = true) : numberChars x = Nat.toDigits 10 n := by
  by_cases hne : n = 0
  · subst hne
    have hdecode := Binary64.decode_of_same_zero h
    rw [← Nat.zero_mul (2 ^ 1074)] at hdecode
    exact numberChars_of_decode hn (k := 1074) (by decide) (by simp) hdecode
  · have hlog : n.log2 < 50 := (Nat.log2_lt hne).2 (Nat.lt_trans hn (by decide))
    obtain rfl := Binary64.eq_ofInt_of_same hne (by omega) h
    exact numberChars_of_decode hn (by omega) (by simp)
      (Binary64.decode_ofInt hne (by omega))

end Script
end AssignmentLowering
