import AssignmentLowering.Proofs.Number.Integer

/-!
# The number nearest to a fraction

A fraction is read as the floating-point number nearest to it, and of two that are equally
near as the one with the even mantissa. The fraction is first expressed in units of the
smallest positive number. How many bits of its integral part do not fit into a mantissa is
then the exponent of the result, so that exponents are natural numbers throughout.

## Main definitions

* `Binary64.nearest` — the number nearest to a fraction.
* `Binary64.neg` — the number with the other sign.
* `Binary64.Within` — the fractions around a number that are rounded to it.
* `Binary64.HasParts` — a finite number, taken apart.

## Main statements

* `Binary64.rounded_of_within` — a fraction around a number is rounded to it.
* `Binary64.HasParts.nearest_eq` — the fractions around a finite number are read as it.
* `Binary64.hasParts_of_decode` — what stands for a finite number is taken apart as one.
-/

namespace AssignmentLowering.Binary64

/-- The integer nearest to `a / b`, ties to even. -/
def roundHalfEven (a b : Nat) : Nat :=
  let quotient := a / b
  let excess := 2 * (a % b)
  if b < excess || (excess = b && quotient % 2 = 1) then quotient + 1 else quotient

/-- The bits of the number nearest to `num / den`, ties to even. The quotient keeps its
leading bit, so that a carry out of the fraction moves the exponent on; what is too large
becomes infinity. -/
def nearestBits (num den : Nat) : Nat :=
  let scaled := num * Nat.pow 2 1074
  let exponent := (scaled / den).log2 - 52
  min (exponent * leadingBit + roundHalfEven scaled (den * Nat.pow 2 exponent))
    (2047 * leadingBit)

/-- The number nearest to the fraction `num / den`. -/
def nearest (num den : Nat) : Binary64 := ⟨UInt64.ofNat (nearestBits num den)⟩

example : nearest 1 10 = ⟨0x3FB999999999999A⟩ ∧ nearest (10 ^ 23) 1 = ⟨0x44B52D02C7E14AF6⟩ ∧
    nearest (2 ^ 53 + 1) 1 = .ofInt (2 ^ 53) ∧ nearest (10 ^ 400) 1 = ⟨0x7FF0000000000000⟩ := by
  decide +kernel

/-- The number that a NaN is read as. -/
def nan : Binary64 := ⟨0x7FF8000000000000⟩

/-- The zero with a minus sign. -/
def negativeZero : Binary64 := ⟨0x8000000000000000⟩

def isFinite (x : Binary64) : Bool := x.exponentField ≠ 2047

/-- The number with the other sign. -/
def neg (x : Binary64) : Binary64 := ⟨x.bits + UInt64.ofNat signBit⟩

theorem toNat_bits_neg (x : Binary64) :
    x.neg.bits.toNat = (x.bits.toNat + signBit) % 2 ^ 64 := by
  rw [neg, UInt64.toNat_add, UInt64.toNat_ofNat_of_lt' (by decide)]

theorem ext_toNat {x y : Binary64} (h : x.bits.toNat = y.bits.toNat) : x = y := by
  cases x
  cases y
  exact congrArg mk (UInt64.toNat_inj.1 h)

theorem neg_neg (x : Binary64) : x.neg.neg = x := by
  have hlt := x.bits.toNat_lt
  refine ext_toNat ?_
  rw [toNat_bits_neg, toNat_bits_neg, signBit_eq]
  omega

/-! ### Rounding to an integer -/

/-- The fractions that are rounded to `m`: those at most half a unit away, or strictly nearer
if `m` is odd. Below `m` less than half a unit may be allowed: `reach` quarters. -/
structure Within (m reach a b : Nat) : Prop where
  low : 4 * (m * b) ≤ 4 * a + reach * b
  high : 4 * a ≤ 4 * (m * b) + 2 * b
  strict : m % 2 = 1 → 4 * (m * b) < 4 * a + reach * b ∧ 4 * a < 4 * (m * b) + 2 * b

variable {m a b : Nat}

theorem roundHalfEven_of_within (hb : 0 < b) (h : Within m 2 a b) : roundHalfEven a b = m := by
  obtain ⟨hlow, hhigh, hstrict⟩ := h
  have hdiv := Nat.div_add_mod a b
  have hmod := Nat.mod_lt a hb
  simp only [roundHalfEven]
  generalize a / b = q at hdiv ⊢
  generalize a % b = r at hdiv hmod ⊢
  -- The quotient is `m`, or one less if `m` lies above the fraction.
  have hle : q < m + 1 := by
    refine Nat.lt_of_mul_lt_mul_left (a := b) ?_
    rw [Nat.mul_add, Nat.mul_comm b m]
    omega
  have hge : m < q + 2 := by
    refine Nat.lt_of_mul_lt_mul_left (a := b) ?_
    rw [Nat.mul_add, Nat.mul_comm b m]
    omega
  rcases (by omega : m = q ∨ m = q + 1) with rfl | rfl
  · rw [Nat.mul_comm m b] at hlow hhigh hstrict
    rw [if_neg (by simp; omega)]
  · rw [Nat.add_mul, Nat.mul_comm q b] at hlow hhigh hstrict
    rw [if_pos (by simp; omega)]

/-! ### Rounding to a number -/

/-- How far the fractions of a number reach below it, in quarters of a last place: half of
that where the numbers below lie twice as dense. -/
def reachBelow (m exponent : Nat) : Nat := if m = leadingBit ∧ 0 < exponent then 1 else 2

theorem reachBelow_le (m exponent : Nat) : reachBelow m exponent ≤ 2 := by
  unfold reachBelow
  split <;> decide

variable {s den : Nat}

namespace Within

variable {reach : Nat}

/-- Among the fractions around an integer there is no other one. -/
theorem eq_of_integer {n : Nat} (hb : 0 < b) (hreach : reach ≤ 2) (h : Within m reach (n * b) b) :
    n = m := by
  obtain ⟨hlow, hhigh, -⟩ := h
  have hmul := Nat.mul_le_mul_right b hreach
  have hle : m < n + 1 := by
    refine Nat.lt_of_mul_lt_mul_right (a := b) ?_
    rw [Nat.add_mul]
    omega
  have hge : n < m + 1 := by
    refine Nat.lt_of_mul_lt_mul_right (a := b) ?_
    rw [Nat.add_mul]
    omega
  omega

/-- They lie below the next power of two. -/
theorem lt_next (hb : 0 < b) (hm : m < 2 * leadingBit) (h : Within m reach a b) :
    a < 2 * leadingBit * b := by
  have hhigh := h.high
  have hle : m * b + b ≤ 2 * leadingBit * b := by
    rw [← Nat.succ_mul]
    exact Nat.mul_le_mul_right _ hm
  omega

/-- And below a power of two itself only the fractions around it do. -/
theorem leading_le (hm : leadingBit ≤ m) (h : Within m (reachBelow m s) a b)
    (hdense : m = leadingBit → ¬ a < leadingBit * b) : leadingBit * b ≤ a := by
  have hlow := h.low
  rcases Nat.eq_or_lt_of_le hm with hm | hlt
  · exact Nat.not_lt.1 (hdense hm.symm)
  · have hle : leadingBit * b + b ≤ m * b := by
      rw [← Nat.succ_mul]
      exact Nat.mul_le_mul_right _ hlt
    rw [reachBelow, if_neg fun hm => Nat.ne_of_gt hlt hm.1] at hlow
    omega

/-- Where a fraction is not below the power of two, the number reaches as far below as above. -/
theorem of_leading_le (hle : s = 0 ∨ leadingBit * b ≤ a) (h : Within m (reachBelow m s) a b) :
    Within m 2 a b := by
  obtain ⟨hlow, hhigh, hstrict⟩ := h
  unfold reachBelow at hlow hstrict
  split at hlow
  · next hdouble =>
    obtain ⟨rfl, hpos⟩ := hdouble
    have hle := hle.resolve_left (Nat.ne_of_gt hpos)
    exact ⟨by omega, hhigh, fun hodd => absurd hodd (by decide)⟩
  · next hdouble =>
    rw [if_neg hdouble] at hstrict
    exact ⟨hlow, hhigh, hstrict⟩

end Within

/-- An exponent is the number of bits that do not fit into a mantissa. -/
theorem log2_sub_eq {q : Nat} (hs : s = 0 ∨ leadingBit * 2 ^ s ≤ q)
    (hq : q < 2 * leadingBit * 2 ^ s) : q.log2 - 52 = s := by
  have hlead : leadingBit = 2 ^ 52 := rfl
  have hq : q < 2 ^ (53 + s) := by rwa [Nat.pow_add]
  rcases Nat.eq_zero_or_pos q with rfl | hpos
  · rcases hs with rfl | hs
    · rfl
    · exact absurd (Nat.le_zero.1 hs)
        (Nat.mul_ne_zero (by decide) (Nat.ne_of_gt (Nat.two_pow_pos s)))
  · have hlt := (Nat.log2_lt (Nat.ne_of_gt hpos)).2 hq
    rcases hs with rfl | hs
    · omega
    · rw [hlead, ← Nat.pow_add] at hs
      have := (Nat.le_log2 (Nat.ne_of_gt hpos)).2 hs
      omega

/-- The same of a quotient, in terms of what is divided. -/
theorem log2_div_sub_eq (hden : 0 < den) (hs : s = 0 ∨ leadingBit * (den * 2 ^ s) ≤ a)
    (ha : a < 2 * leadingBit * (den * 2 ^ s)) : (a / den).log2 - 52 = s := by
  refine log2_sub_eq ?_ ?_
  · rwa [Nat.le_div_iff_mul_le hden, Nat.mul_assoc, Nat.mul_comm _ den]
  · rwa [Nat.div_lt_iff_lt_mul hden, Nat.mul_assoc, Nat.mul_comm _ den]

/-- Just below a power of two the quotient has one more bit than the power, and rounding
carries over. -/
theorem rounded_of_dense {e : Nat} (hden : 0 < den)
    (hlow : 4 * (leadingBit * (den * 2 ^ (e + 1))) ≤ 4 * a + den * 2 ^ (e + 1))
    (hlt : a < leadingBit * (den * 2 ^ (e + 1))) :
    (a / den).log2 - 52 = e ∧ roundHalfEven a (den * 2 ^ e) = 2 * leadingBit := by
  have hb : 0 < den * 2 ^ e := Nat.mul_pos hden (Nat.two_pow_pos e)
  rw [Nat.pow_succ', Nat.mul_left_comm den] at hlow hlt
  rw [leadingBit_eq] at hlow hlt
  constructor
  · apply log2_div_sub_eq hden (.inr _) _ <;> rw [leadingBit_eq] <;> omega
  · apply roundHalfEven_of_within hb
    constructor <;> rw [leadingBit_eq] <;> omega

/-- A fraction around a number is rounded to the bits of that number. -/
theorem rounded_of_within (hden : 0 < den) (hm : m < 2 * leadingBit)
    (hlead : s = 0 ∨ leadingBit ≤ m) (h : Within m (reachBelow m s) a (den * 2 ^ s)) :
    ∃ e, (a / den).log2 - 52 = e ∧
      e * leadingBit + roundHalfEven a (den * 2 ^ e) = s * leadingBit + m := by
  have hb : 0 < den * 2 ^ s := Nat.mul_pos hden (Nat.two_pow_pos s)
  by_cases hdense : m = leadingBit ∧ 0 < s ∧ a < leadingBit * (den * 2 ^ s)
  · obtain ⟨rfl, hpos, hlt⟩ := hdense
    obtain ⟨e, rfl⟩ := Nat.exists_eq_add_one_of_ne_zero (Nat.ne_of_gt hpos)
    have hlow := h.low
    rw [reachBelow, if_pos ⟨rfl, hpos⟩, Nat.one_mul] at hlow
    obtain ⟨hexp, hround⟩ := rounded_of_dense hden hlow hlt
    exact ⟨e, hexp, by rw [hround, Nat.add_mul]; omega⟩
  · have hle : s = 0 ∨ leadingBit * (den * 2 ^ s) ≤ a := by
      rcases Nat.eq_zero_or_pos s with hs | hpos
      · exact .inl hs
      · have hm := hlead.resolve_left (Nat.ne_of_gt hpos)
        exact .inr (h.leading_le hm fun heq hlt => hdense ⟨heq, hpos, hlt⟩)
    exact ⟨s, log2_div_sub_eq hden hle (h.lt_next hb hm),
      by rw [roundHalfEven_of_within hb (h.of_leading_le hle)]⟩

/-! ### Finite numbers -/

/-- A finite number is `m * 2 ^ s` times the smallest positive number. -/
structure HasParts (x : Binary64) (negative : Bool) (m s : Nat) : Prop where
  decode_eq : x.decode = .finite negative m (s - 1074)
  mantissa_lt : m < 2 * leadingBit
  leading : s = 0 ∨ leadingBit ≤ m
  exponent_le : s ≤ 2045
  toNat_bits : x.bits.toNat = (if negative then signBit else 0) + (s * leadingBit + m)

variable {x : Binary64} {negative : Bool} {q : Int}

/-- The bits, from the fields. -/
theorem toNat_bits_eq (x : Binary64) : x.bits.toNat =
    (if x.isNegative then signBit else 0) +
      (x.exponentField * leadingBit + x.fractionField) := by
  have hlt := x.bits.toNat_lt
  simp only [isNegative, decide_eq_true_eq, exponentField, fractionField]
  split <;> simp only [signBit_eq, leadingBit_eq] at * <;> omega

/-- What stands for a finite number is taken apart as one. -/
theorem hasParts_of_decode (h : x.decode = .finite negative m q) :
    ∃ s : Nat, q = s - 1074 ∧ x.HasParts negative m s := by
  have hbits := x.toNat_bits_eq
  have hexp : x.exponentField < 2048 := Nat.mod_lt _ (by decide)
  have hfrac : x.fractionField < leadingBit := Nat.mod_lt _ (by decide)
  have hdecode := h
  unfold decode at hdecode
  split at hdecode
  · split at hdecode <;> cases hdecode
  next hinf =>
  split at hdecode
  · next hzero =>
    cases hdecode
    refine ⟨0, rfl, h, by rw [leadingBit_eq] at *; omega, .inl rfl, by omega, ?_⟩
    rw [hbits, hzero]
  · next hzero =>
    cases hdecode
    obtain ⟨s, hs⟩ := Nat.exists_eq_add_one_of_ne_zero hzero
    have hq : (x.exponentField : Int) - 1075 = s - 1074 := by omega
    refine ⟨s, hq, hq ▸ h, by rw [leadingBit_eq] at *; omega, .inr (Nat.le_add_right _ _),
      by omega, ?_⟩
    rw [hbits, hs, Nat.add_mul]
    omega

/-- A fraction around a number is read as that number, sign apart. -/
theorem HasParts.nearest_eq {num : Nat} (hx : x.HasParts negative m s) (hden : 0 < den)
    (h : Within m (reachBelow m s) (num * 2 ^ 1074) (den * 2 ^ s)) :
    nearest num den = if negative then x.neg else x := by
  obtain ⟨-, hm, hlead, hs, hbits⟩ := hx
  obtain ⟨e, hexp, hround⟩ := rounded_of_within hden hm hlead h
  have hfits : s * leadingBit + m < 2047 * leadingBit := by
    rw [leadingBit_eq] at *
    omega
  have hnearest : (nearest num den).bits.toNat = s * leadingBit + m := by
    simp only [nearest, nearestBits, Nat.pow_eq, hexp, hround, Nat.min_eq_left (Nat.le_of_lt hfits)]
    rw [UInt64.toNat_ofNat_of_lt' (by rw [leadingBit_eq] at *; simp [UInt64.size]; omega)]
  refine ext_toNat ?_
  rw [hnearest]
  cases negative
  · simpa using hbits.symm
  · rw [if_pos rfl] at hbits
    rw [if_pos rfl, toNat_bits_neg, hbits]
    simp only [leadingBit_eq, signBit_eq] at hfits ⊢
    omega

theorem finite_of_decode (h : x.decode = .finite negative m q) :
    x.isFinite = true ∧ x.isNaN = false ∧ x.isNegative = negative := by
  refine ⟨?_, by simp [isNaN, h], ?_⟩ <;> unfold decode at h <;> split at h
  · split at h <;> cases h
  · next hexp => simpa [isFinite] using hexp
  · split at h <;> cases h
  · split at h <;> cases h <;> rfl

theorem infinite_of_decode (h : x.decode = .infinite negative) :
    x.isFinite = false ∧ x.isNaN = false := by
  refine ⟨?_, by simp [isNaN, h]⟩
  unfold decode at h
  split at h
  · next hexp => simpa [isFinite] using hexp
  · split at h <;> cases h

/-- Only negative zero has a sign and no magnitude. -/
theorem eq_negativeZero_iff (h : x.decode = .finite negative m q) :
    x = negativeZero ↔ negative = true ∧ m = 0 := by
  constructor
  · rintro rfl
    have hzero : negativeZero.decode = .finite true 0 minExponent := by decide +kernel
    cases hzero.symm.trans h
    exact ⟨rfl, rfl⟩
  · rintro ⟨rfl, rfl⟩
    obtain ⟨s, -, -, -, hlead, -, hbits⟩ := hasParts_of_decode h
    have hs : s = 0 := hlead.resolve_right (by decide)
    rw [hs, if_pos rfl] at hbits
    exact ext_toNat hbits

theorem isNegative_neg (x : Binary64) : x.neg.isNegative = !x.isNegative := by
  have hlt := x.bits.toNat_lt
  rw [isNegative, isNegative, ← decide_not, toNat_bits_neg, signBit_eq]
  exact decide_eq_decide.2 (by omega)

theorem isNaN_neg (x : Binary64) : x.neg.isNaN = x.isNaN := by
  have hexp : x.neg.exponentField = x.exponentField := by
    simp only [exponentField, toNat_bits_neg, signBit_eq, leadingBit_eq]
    omega
  have hfrac : x.neg.fractionField = x.fractionField := by
    simp only [fractionField, toNat_bits_neg, signBit_eq, leadingBit_eq]
    omega
  simp only [isNaN, decode, hexp, hfrac]
  split
  · split <;> simp
  · split <;> simp

end AssignmentLowering.Binary64
