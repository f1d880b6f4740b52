import AssignmentLowering.Proofs.Number.Rounding
import AssignmentLowering.Proofs.Script.Token
import Mathlib.Tactic.Ring

/-!
# Shortest decimals are read back

The decimal printed for a number is rounded to that number. The search for it succeeds: its
last grid is finer than a quarter of a place of any number of the format, so one neighbour on
it lies near enough. That needs nothing but how close `10 ^ 3` and `2 ^ 10` are, and `10 ^ 10`
and `2 ^ 33`.

A number is printed with a point exactly if it is no integer. An integer is itself on the grid
of the integers, so no finer grid is looked at; and a fraction is a whole place away from all
integers, so none of them reads back.

## Main definitions

* `Decimal.IsWhole`, `Decimal.Pointed` — the digits of a decimal.

## Main statements

* `Decimal.within_of_readsBack` — what reads back is rounded to the number.
* `Decimal.readsBack_shortest` — the decimal printed reads back.
* `Script.numberChars_of_integer`, `Script.numberChars_of_fraction` — the text of a finite
  number, and that it is rounded to the number.
-/

namespace AssignmentLowering

open Binary64 (Within reachBelow reachBelow_le leadingBit leadingBit_eq nearest)

namespace Decimal

variable {m s c : Nat} {q k : Int}

theorem below_eq (hq : q = s - 1074) : below m q = reachBelow m s := by
  have : Binary64.minExponent < q ↔ 0 < s := by
    simp only [Binary64.minExponent]
    omega
  simp only [below, reachBelow, this]

/-- Points of a grid and quarters of a place are compared in whichever unit makes integers of
both. -/
theorem scale_le {n : Nat} (hq : q = s - n) (x y t u : Nat) :
    (x * (t * 2 ^ (q - 2).toNat) ≤ y * (u * 2 ^ (2 - q).toNat) ↔
        x * (t * 2 ^ s) ≤ 4 * (y * u * 2 ^ n)) ∧
      (y * (u * 2 ^ (2 - q).toNat) ≤ x * (t * 2 ^ (q - 2).toNat) ↔
        4 * (y * u * 2 ^ n) ≤ x * (t * 2 ^ s)) := by
  have hpow : 2 ^ (q - 2).toNat * 2 ^ (2 + n) = 2 ^ s * 2 ^ (2 - q).toNat := by
    rw [← Nat.pow_add, ← Nat.pow_add]
    congr 1
    omega
  have hx : x * (t * 2 ^ (q - 2).toNat) * 2 ^ (2 + n) =
      x * (t * 2 ^ s) * 2 ^ (2 - q).toNat := by
    rw [Nat.mul_assoc, Nat.mul_assoc, hpow, Nat.mul_assoc, Nat.mul_assoc]
  have hy : y * (u * 2 ^ (2 - q).toNat) * 2 ^ (2 + n) =
      4 * (y * u * 2 ^ n) * 2 ^ (2 - q).toNat := by
    rw [Nat.pow_add]
    ring
  have hleft : 0 < 2 ^ (2 + n) := Nat.two_pow_pos _
  have hright : 0 < 2 ^ (2 - q).toNat := Nat.two_pow_pos _
  constructor
  · rw [← Nat.mul_le_mul_right_iff hleft, hx, hy, Nat.mul_le_mul_right_iff hright]
  · rw [← Nat.mul_le_mul_right_iff hleft, hx, hy, Nat.mul_le_mul_right_iff hright]

/-- What reads back is rounded to the number. -/
theorem within_of_readsBack (hm : 0 < m) (hq : q = s - 1074)
    (h : readsBack m q k c = true) :
    Within m (reachBelow m s) (c * 10 ^ k.toNat * 2 ^ 1074) (10 ^ (-k).toNat * 2 ^ s) := by
  have hreach : reachBelow m s ≤ 4 * m := by
    unfold reachBelow
    split <;> omega
  have hlow := scale_le hq (4 * m - reachBelow m s) c (10 ^ (-k).toNat) (10 ^ k.toNat)
  have hhigh := scale_le hq (4 * m + 2) c (10 ^ (-k).toNat) (10 ^ k.toNat)
  simp only [readsBack, scale, below_eq hq, Nat.pow_eq] at h
  generalize c * 10 ^ k.toNat * 2 ^ 1074 = point at *
  generalize 10 ^ (-k).toNat * 2 ^ s = place at *
  have hle := Nat.mul_le_mul_right place hreach
  have hsub := Nat.sub_mul (4 * m) (reachBelow m s) place
  have hadd := Nat.add_mul (4 * m) 2 place
  rw [Nat.mul_assoc] at hle hsub hadd
  split at h
  · obtain ⟨hleft, hright⟩ := Bool.and_eq_true_iff.1 h
    have hlow := hlow.1.1 (of_decide_eq_true hleft)
    have hhigh := hhigh.2.1 (of_decide_eq_true hright)
    exact ⟨by omega, by omega, fun hodd => by omega⟩
  · obtain ⟨hleft, hright⟩ := Bool.and_eq_true_iff.1 h
    have hlow := mt hlow.2.2 (Nat.not_le.2 (of_decide_eq_true hleft))
    have hhigh := mt hhigh.1.2 (Nat.not_le.2 (of_decide_eq_true hright))
    exact ⟨by omega, by omega, fun hodd => by omega⟩

/-! ### The search -/

/-- What lies less than a quarter of a place below the number reads back. -/
theorem readsBack_of_near (hm : 0 < m) (hle : c * (scale q k).step ≤ 4 * m * (scale q k).quarter)
    (hlt : 4 * m * (scale q k).quarter < c * (scale q k).step + (scale q k).quarter) :
    readsBack m q k c = true := by
  have hreach : 1 ≤ below m q ∧ below m q ≤ 2 := by
    unfold below
    split <;> omega
  have hlow : (4 * m - below m q) * (scale q k).quarter < c * (scale q k).step := by
    have hone := Nat.mul_le_mul_right (scale q k).quarter hreach.1
    have hpos := Nat.mul_le_mul_right (scale q k).quarter (show 1 ≤ 4 * m by omega)
    rw [Nat.sub_mul]
    omega
  have hhigh : c * (scale q k).step < (4 * m + 2) * (scale q k).quarter := by
    rw [Nat.add_mul]
    omega
  simp only [readsBack]
  split <;> simp [hlow, hhigh, Nat.le_of_lt]

theorem readsBack_of_onGrid (h : onGrid m q k = some c) : readsBack m q k c = true := by
  simp only [onGrid] at h
  split at h <;> cases h
  · split <;> assumption
  all_goals assumption

/-- If the number below reads back, something is found. -/
theorem onGrid_isSome
    (h : readsBack m q k (4 * m * (scale q k).quarter / (scale q k).step) = true) :
    (onGrid m q k).isSome = true := by
  simp only [onGrid, h]
  split <;> simp_all

/-- On a grid finer than a quarter of a place some neighbour reads back. -/
theorem onGrid_isSome_of_fine (hm : 0 < m) (h : (scale q k).step ≤ (scale q k).quarter) :
    (onGrid m q k).isSome = true := by
  have hstep : 0 < (scale q k).step :=
    Nat.mul_pos (Nat.pow_pos (by decide)) (Nat.pow_pos (by decide))
  have hdiv := Nat.div_mul_le_self (4 * m * (scale q k).quarter) (scale q k).step
  have hmod := Nat.lt_div_mul_add (a := 4 * m * (scale q k).quarter) hstep
  exact onGrid_isSome (readsBack_of_near hm hdiv (by omega))

theorem integer?_eq_some_iff {n : Nat} : Script.integer? m q = some n ↔
    0 ≤ q ∧ n = m * 2 ^ q.toNat ∨ q < 0 ∧ m = n * 2 ^ (-q).toNat := by
  have hpow : 0 < 2 ^ (-q).toNat := Nat.two_pow_pos _
  simp only [Script.integer?, Nat.pow_eq]
  split
  · next hq =>
    constructor
    · rintro ⟨⟩
      exact .inl ⟨hq, rfl⟩
    · rintro (⟨-, rfl⟩ | ⟨hneg, -⟩)
      · rfl
      · omega
  · next hq =>
    split
    · next hdvd =>
      rw [Option.some_inj, Nat.div_eq_iff_eq_mul_left hpow (Nat.dvd_of_mod_eq_zero hdvd)]
      simp [hq, Int.not_le.1 hq]
    · next hdvd =>
      constructor
      · rintro ⟨⟩
      · rintro (⟨hpos, -⟩ | ⟨-, hm⟩)
        · exact absurd hpos hq
        · exact absurd (hm ▸ Nat.mul_mod_left n _) hdvd

/-- An integer is a point of the grid of integers. -/
theorem value_of_integer {n : Nat} (h : Script.integer? m q = some n) :
    4 * m * (scale q 0).quarter = n * (scale q 0).step := by
  have hfour : (4 : Nat) = 2 ^ 2 := rfl
  simp only [scale, Nat.pow_eq, Int.neg_zero, Int.toNat_zero, Nat.pow_zero, Nat.one_mul]
  rcases integer?_eq_some_iff.1 h with ⟨hq, rfl⟩ | ⟨hq, rfl⟩
  · rw [hfour, Nat.mul_comm _ m, Nat.mul_assoc, Nat.mul_assoc, ← Nat.pow_add, ← Nat.pow_add]
    congr 2
    omega
  · rw [hfour, Nat.mul_comm _ (n * _), Nat.mul_assoc, Nat.mul_assoc, ← Nat.pow_add,
      ← Nat.pow_add]
    congr 2
    omega

/-- So it is found there. -/
theorem onGrid_isSome_of_integer {n : Nat} (hm : 0 < m) (h : Script.integer? m q = some n) :
    (onGrid m q 0).isSome = true := by
  have hvalue := value_of_integer h
  have hstep : 0 < (scale q 0).step :=
    Nat.mul_pos (Nat.pow_pos (by decide)) (Nat.pow_pos (by decide))
  have hquarter : 0 < (scale q 0).quarter :=
    Nat.mul_pos (Nat.pow_pos (by decide)) (Nat.pow_pos (by decide))
  refine onGrid_isSome ?_
  rw [hvalue, Nat.mul_div_cancel _ hstep]
  exact readsBack_of_near hm (by omega) (by omega)

/-- A search upwards that would succeed at `n` ends there or before. -/
theorem findSome?_range {α : Type} {f : Nat → Option α} {n bound : Nat} (hn : n < bound)
    (h : (f n).isSome = true) :
    ∃ i ≤ n, ∃ a, f i = some a ∧ (List.range bound).findSome? f = some a := by
  have hsome : ((List.range bound).findSome? f).isSome = true :=
    List.findSome?_isSome_iff.2 ⟨n, List.mem_range.2 hn, h⟩
  obtain ⟨a, ha⟩ := Option.isSome_iff_exists.1 hsome
  obtain ⟨before, i, after, hrange, hi, hnone⟩ := List.findSome?_eq_some_iff.1 ha
  refine ⟨i, Nat.not_lt.1 fun hlt => ?_, a, hi, ha⟩
  have hsorted := List.pairwise_lt_range (n := bound)
  rw [hrange, List.pairwise_append] at hsorted
  have hmem : n ∈ before ++ i :: after := hrange ▸ List.mem_range.2 hn
  rcases List.mem_append.1 hmem with hbefore | hfrom
  · simp [hnone n hbefore] at h
  · rcases List.mem_cons.1 hfrom with rfl | hafter
    · exact Nat.lt_irrefl _ hlt
    · exact Nat.lt_asymm hlt (List.rel_of_pairwise_cons hsorted.2.1 hafter)

/-- The decimal found is on the grid with some neighbour, or on a coarser one. -/
theorem shortest_onGrid {n : Nat} (hn : n < 24)
    (h : (onGrid m q (topExponent m q - n)).isSome = true) :
    ∃ i ≤ n, (shortest m q).exponent = topExponent m q - i ∧
      onGrid m q (shortest m q).exponent = some (shortest m q).coefficient := by
  let f (i : Nat) : Option Decimal :=
    (onGrid m q (topExponent m q - i)).map fun c => ⟨c, topExponent m q - i⟩
  have hfn : (f n).isSome = true := by simpa [f] using h
  obtain ⟨i, hi, d, hd, hfind⟩ := findSome?_range hn hfn
  have hshortest : shortest m q = d := congrArg (·.getD ⟨0, 0⟩) hfind
  obtain ⟨c, hc, rfl⟩ := Option.map_eq_some_iff.1 hd
  rw [hshortest]
  exact ⟨i, hi, rfl, hc⟩

/-! ### Powers of ten and of two -/

theorem ten_pow_le {i j : Nat} (h : 10 * i ≤ 3 * j) : 10 ^ i ≤ 2 ^ j := by
  refine (Nat.pow_le_pow_iff_left (n := 3) (by decide)).1 ?_
  calc (10 ^ i) ^ 3 = (10 ^ 3) ^ i := Nat.pow_right_comm ..
    _ ≤ (2 ^ 10) ^ i := Nat.pow_le_pow_left (by decide) i
    _ = 2 ^ (10 * i) := (Nat.pow_mul ..).symm
    _ ≤ 2 ^ (j * 3) := Nat.pow_le_pow_right (by decide) (by omega)
    _ = (2 ^ j) ^ 3 := Nat.pow_mul ..

theorem two_pow_le {i j : Nat} (h : 10 * i ≤ 33 * j) : 2 ^ i ≤ 10 ^ j := by
  refine (Nat.pow_le_pow_iff_left (n := 10) (by decide)).1 ?_
  calc (2 ^ i) ^ 10 = 2 ^ (i * 10) := (Nat.pow_mul ..).symm
    _ ≤ 2 ^ (33 * j) := Nat.pow_le_pow_right (by decide) (by omega)
    _ = (2 ^ 33) ^ j := Nat.pow_mul ..
    _ ≤ (10 ^ 10) ^ j := Nat.pow_le_pow_left (by decide) j
    _ = (10 ^ j) ^ 10 := Nat.pow_right_comm ..

/-- The last grid of the search is fine enough for all numbers of the format. -/
theorem step_le_quarter (hm : m < 2 * leadingBit) (hq : q = s - 1074) (hs : s ≤ 2045) :
    (scale q (topExponent m q - 23)).step ≤ (scale q (topExponent m q - 23)).quarter := by
  have hlog : m.log2 ≤ 52 := by
    rcases Nat.eq_zero_or_pos m with rfl | hpos
    · decide
    · have := (Nat.log2_lt (n := m) (k := 53) (by omega)).2 hm
      omega
  simp only [scale, topExponent, Nat.pow_eq]
  obtain ⟨k, hk⟩ : ∃ k, k = (m.log2 + q + 1) * 30103 / 100000 + 2 - 23 := ⟨_, rfl⟩
  rw [← hk]
  rcases Int.lt_or_le k 0 with hneg | hpos
  · have hk0 : k.toNat = 0 := by omega
    rw [hk0, Nat.pow_zero, Nat.one_mul]
    have htwo : 2 ^ (2 - q).toNat ≤ 10 ^ (-k).toNat := two_pow_le (by omega)
    exact Nat.le_trans htwo (Nat.le_mul_of_pos_right _ (Nat.two_pow_pos _))
  · have hk0 : (-k).toNat = 0 := by omega
    have hq0 : (2 - q).toNat = 0 := by omega
    rw [hk0, hq0, Nat.pow_zero, Nat.mul_one, Nat.one_mul]
    exact ten_pow_le (by omega)

/-- The decimal found reads back. -/
theorem readsBack_shortest (hm : 0 < m) (hlt : m < 2 * leadingBit) (hq : q = s - 1074)
    (hs : s ≤ 2045) :
    readsBack m q (shortest m q).exponent (shortest m q).coefficient = true := by
  obtain ⟨-, -, -, hgrid⟩ := shortest_onGrid (n := 23) (by decide)
    (onGrid_isSome_of_fine hm (step_le_quarter hlt hq hs))
  exact readsBack_of_onGrid hgrid

theorem coefficient_pos (hm : 0 < m) (hq : q = s - 1074) (h : readsBack m q k c = true) :
    0 < c := by
  refine Nat.pos_of_ne_zero fun hc => ?_
  have hlow := (within_of_readsBack hm hq h).low
  have hplace : 0 < 10 ^ (-k).toNat * 2 ^ s := Nat.mul_pos (Nat.pow_pos (by decide))
    (Nat.two_pow_pos s)
  have hmul := Nat.mul_le_mul_right (10 ^ (-k).toNat * 2 ^ s) (reachBelow_le m s)
  have hone := Nat.mul_le_mul_right (10 ^ (-k).toNat * 2 ^ s) hm
  rw [hc, Nat.zero_mul, Nat.zero_mul] at hlow
  omega

/-- An integer is printed without a fraction. -/
theorem exponent_nonneg {n : Nat} (hm : 0 < m) (hlt : m < 2 * leadingBit) (hq : q = s - 1074)
    (hs : s ≤ 2045) (hn : 0 < n) (h : Script.integer? m q = some n) :
    0 ≤ (shortest m q).exponent := by
  by_cases htop : 23 < topExponent m q
  · obtain ⟨i, hi, hexp, -⟩ := shortest_onGrid (n := 23) (by decide)
      (onGrid_isSome_of_fine hm (step_le_quarter hlt hq hs))
    omega
  · have hlog : 0 ≤ m.log2 + q := by
      rcases integer?_eq_some_iff.1 h with ⟨hq, -⟩ | ⟨hq, rfl⟩
      · omega
      · have hle := (Nat.le_log2 (Nat.ne_of_gt hm)).2 (Nat.le_mul_of_pos_left _ hn)
        omega
    have hpos : 0 ≤ topExponent m q := by
      unfold topExponent
      omega
    have hzero : topExponent m q - (topExponent m q).toNat = 0 := by omega
    obtain ⟨i, hi, hexp, -⟩ := shortest_onGrid (n := (topExponent m q).toNat) (by omega)
      (hzero ▸ onGrid_isSome_of_integer hm h)
    omega

/-- All other numbers are printed with one. -/
theorem exponent_neg (hm : 0 < m) (hq : q = s - 1074) (h : Script.integer? m q = none)
    (hc : readsBack m q k c = true) : k < 0 := by
  refine Int.not_le.1 fun hk => ?_
  have hneg : q < 0 := by
    refine Int.not_le.1 fun hpos => ?_
    rw [integer?_eq_some_iff.2 (.inl ⟨hpos, rfl⟩)] at h
    cases h
  -- The decimal is an integer number of places.
  have hwithin := within_of_readsBack hm hq hc
  have hk0 : (-k).toNat = 0 := by omega
  have hpow : c * 10 ^ k.toNat * 2 ^ 1074 = c * 10 ^ k.toNat * 2 ^ (-q).toNat * 2 ^ s := by
    rw [Nat.mul_assoc (c * _), ← Nat.pow_add]
    congr 2
    omega
  rw [hpow, hk0, Nat.pow_zero, Nat.one_mul] at hwithin
  have heq := hwithin.eq_of_integer (Nat.two_pow_pos s) (reachBelow_le m s)
  rw [integer?_eq_some_iff.2 (.inr ⟨hneg, heq.symm⟩)] at h
  cases h

/-! ### Digits -/

/-- Trailing zeros multiply by a power of ten. -/
theorem toDigits_mul_pow (hc : 0 < c) (places : Nat) :
    Nat.toDigits 10 (c * 10 ^ places) = Nat.toDigits 10 c ++ List.replicate places '0' := by
  induction places with
  | zero => simp
  | succ places ih =>
    have hpos : 0 < c * 10 ^ places := Nat.mul_pos hc (Nat.pow_pos (by decide))
    have happend := Nat.toDigits_append_toDigits (b := 10) (d := 0) (by decide) hpos (by decide)
    rw [Nat.toDigits_zero, ih] at happend
    rw [List.replicate_succ', ← List.append_assoc, happend]
    congr 1
    ring

/-- Decimal digits of an integer: a zero leads no other digit. -/
structure IsWhole (digits : List Char) : Prop where
  isDigit : ∀ c ∈ digits, c.isDigit = true
  ne_nil : digits ≠ []
  head_zero : digits.head? = some '0' → digits = ['0']

/-- Digits of a decimal on both sides of its point. -/
structure Pointed (d : Decimal) (whole fraction : List Char) : Prop where
  positional_eq : d.positional = whole ++ '.' :: fraction
  isWhole : IsWhole whole
  isDigit : ∀ c ∈ fraction, c.isDigit = true
  ne_nil : fraction ≠ []
  value : Nat.ofDigitChars 10 (whole ++ fraction) 0 = d.coefficient
  places : fraction.length = (-d.exponent).toNat

theorem isWhole_toDigits (n : Nat) : IsWhole (Nat.toDigits 10 n) where
  isDigit _ := Nat.isDigit_of_mem_toDigits (by decide) (by decide)
  ne_nil := Nat.toDigits_ne_nil
  head_zero h := by
    rw [Script.head?_toDigits h]
    rfl

variable {d : Decimal}

/-- Without a fraction a decimal is printed as the integer that it is. -/
theorem positional_of_nonneg (hc : 0 < d.coefficient) (he : 0 ≤ d.exponent) :
    d.positional = Nat.toDigits 10 (d.coefficient * 10 ^ d.exponent.toNat) := by
  have hplaces : (-d.exponent).toNat = 0 := by omega
  simp only [positional, hplaces, if_true]
  exact (toDigits_mul_pow hc _).symm

/-- With fewer places than digits, the point stands among the digits. -/
theorem pointed_of_lt (he : d.exponent < 0)
    (hlt : (-d.exponent).toNat < (Nat.toDigits 10 d.coefficient).length) :
    ∃ whole fraction, Pointed d whole fraction := by
  have hplaces : (-d.exponent).toNat ≠ 0 := by omega
  have hpositional : d.positional = _ := (if_neg hplaces).trans (if_pos hlt)
  have hvalue := Nat.ofDigitChars_ten_toDigits (n := d.coefficient)
  obtain ⟨hdigit, hne, hzero⟩ := isWhole_toDigits d.coefficient
  generalize Nat.toDigits 10 d.coefficient = digits at *
  have hhead : digits.head? ≠ some '0' := fun h => by
    simp [hzero h] at hlt
    omega
  refine ⟨_, _, hpositional, ⟨fun c h => hdigit c (List.mem_of_mem_take h), ?_, ?_⟩,
    fun c h => hdigit c (List.mem_of_mem_drop h), ?_, ?_, ?_⟩
  · rw [Ne, List.take_eq_nil_iff, not_or]
    exact ⟨by omega, hne⟩
  · intro h
    rw [List.head?_take, if_neg (by omega)] at h
    exact absurd h hhead
  · simp [List.drop_eq_nil_iff]
    omega
  · rw [List.take_append_drop, hvalue]
  · simp
    omega

/-- Otherwise the point and zeros stand in front of the digits, and a zero in front of it. -/
theorem pointed_of_le (he : d.exponent < 0)
    (hle : (Nat.toDigits 10 d.coefficient).length ≤ (-d.exponent).toNat) :
    ∃ whole fraction, Pointed d whole fraction := by
  have hplaces : (-d.exponent).toNat ≠ 0 := by omega
  have hpositional : d.positional = _ := (if_neg hplaces).trans (if_neg (Nat.not_lt.2 hle))
  have hvalue := Nat.ofDigitChars_ten_toDigits (n := d.coefficient)
  obtain ⟨hdigit, hne, -⟩ := isWhole_toDigits d.coefficient
  generalize Nat.toDigits 10 d.coefficient = digits at *
  refine ⟨['0'], _, hpositional, ⟨by simp, by decide, fun _ => rfl⟩, ?_, ?_, ?_, ?_⟩
  · intro c h
    rcases List.mem_append.1 h with h | h
    · rw [List.eq_of_mem_replicate h]
      decide
    · exact hdigit c h
  · simp [hne]
  · rw [List.cons_append, List.nil_append, Nat.ofDigitChars_cons, Nat.ofDigitChars_append]
    simpa [Nat.ofDigitChars_replicate_zero] using hvalue
  · simp
    omega

/-- With a fraction a decimal has digits on both sides of a point. -/
theorem exists_pointed (he : d.exponent < 0) : ∃ whole fraction, Pointed d whole fraction := by
  rcases Nat.lt_or_ge (-d.exponent).toNat (Nat.toDigits 10 d.coefficient).length with hlt | hle
  · exact pointed_of_lt he hlt
  · exact pointed_of_le he hle

end Decimal

/-! ### The text of a number -/

namespace Script

open Decimal

variable {x : Binary64} {negative : Bool} {m s n : Nat}

/-- An integer lies on the number itself. -/
theorem within_of_integer (h : integer? m (s - 1074) = some n) :
    Within m (reachBelow m s) (n * 2 ^ 1074) (1 * 2 ^ s) := by
  have hvalue := value_of_integer h
  have hscale := scale_le (q := s - 1074) (n := 1074) rfl (4 * m) n 1 1
  simp only [scale, Nat.pow_eq, Int.neg_zero, Int.toNat_zero, Nat.pow_zero] at hvalue
  have heq := Nat.le_antisymm (hscale.1.1 hvalue.le) (hscale.2.1 hvalue.ge)
  have hplace : 0 < 1 * 2 ^ s := Nat.mul_pos (by decide) (Nat.two_pow_pos s)
  have hreach : 1 ≤ reachBelow m s := by
    unfold reachBelow
    split <;> decide
  have hmul := Nat.mul_le_mul_right (1 * 2 ^ s) hreach
  rw [Nat.mul_assoc, Nat.mul_one] at heq
  generalize n * 2 ^ 1074 = value at *
  exact ⟨by omega, by omega, fun _ => by omega⟩

/-- An integer of the format is zero with its mantissa. -/
theorem integer?_pos (h : integer? m (s - 1074) = some n) : 0 < n ↔ 0 < m := by
  rcases integer?_eq_some_iff.1 h with ⟨-, rfl⟩ | ⟨-, rfl⟩ <;>
    simp [Nat.mul_pos_iff_of_pos_right (Nat.two_pow_pos _)]

/-- Zero is an integer. -/
theorem pos_of_integer?_eq_none {q : Int} (h : integer? m q = none) : 0 < m := by
  refine Nat.pos_of_ne_zero fun hm => ?_
  have hzero : integer? m q = some 0 := by
    rw [integer?_eq_some_iff, hm]
    exact (Int.lt_or_le q 0).symm.imp (⟨·, by simp⟩) (⟨·, by simp⟩)
  cases h.symm.trans hzero

theorem numberChars_of_small (hx : x.HasParts negative m s)
    (h : integer? m (s - 1074) = some n) (hn : n < 10 ^ 15) :
    numberChars x = signChars (negative && 0 < m) ++ Nat.toDigits 10 n := by
  have hsmall : decide (n < Nat.pow 10 15) = true := decide_eq_true hn
  rw [numberChars, hx.decode_eq]
  simp only [h, Option.filter, hsmall, if_true, integer?_pos h]

theorem numberChars_of_large (hx : x.HasParts negative m s)
    (h : ∀ n, integer? m (s - 1074) = some n → ¬ n < 10 ^ 15) :
    numberChars x = signChars negative ++ (shortest m (s - 1074)).positional := by
  have hnone : (integer? m (s - 1074)).filter (· < Nat.pow 10 15) = none := by
    rw [Option.filter_eq_none_iff]
    intro n hn
    simpa using h n hn
  rw [numberChars, hx.decode_eq]
  simp only [hnone]

/-- The text of an integer is its sign and the digits of an integer that is rounded to it. -/
theorem numberChars_of_integer (hx : x.HasParts negative m s)
    (h : integer? m (s - 1074) = some n) :
    ∃ n, numberChars x = signChars (negative && 0 < m) ++ Nat.toDigits 10 n ∧
      nearest n 1 = if negative then x.neg else x := by
  have hone : 0 < 1 := by decide
  by_cases hsmall : n < 10 ^ 15
  · exact ⟨n, numberChars_of_small hx h hsmall, hx.nearest_eq hone (within_of_integer h)⟩
  have hm : 0 < m := (integer?_pos h).1 (by omega)
  have hreads := readsBack_shortest hm hx.mantissa_lt rfl hx.exponent_le
  have hexp := exponent_nonneg hm hx.mantissa_lt rfl hx.exponent_le (by omega) h
  have hwithin := within_of_readsBack hm rfl hreads
  have hdigits := positional_of_nonneg (coefficient_pos hm rfl hreads) hexp
  have hden : (-(shortest m (s - 1074)).exponent).toNat = 0 := by omega
  rw [hden, Nat.pow_zero] at hwithin
  refine ⟨_, ?_, hx.nearest_eq hone hwithin⟩
  have hlarge : ∀ k, integer? m (s - 1074) = some k → ¬ k < 10 ^ 15 := by
    intro k hk
    rwa [← Option.some.inj (h.symm.trans hk)]
  rw [numberChars_of_large hx hlarge, hdigits]
  simp [hm]

/-- The text of any other finite number has digits on both sides of a point. The fraction that
they stand for is rounded to the number. -/
theorem numberChars_of_fraction (hx : x.HasParts negative m s)
    (h : integer? m (s - 1074) = none) :
    ∃ whole fraction, numberChars x = signChars negative ++ (whole ++ '.' :: fraction) ∧
      IsWhole whole ∧ fraction ≠ [] ∧ (∀ c ∈ fraction, c.isDigit = true) ∧
      nearest (Nat.ofDigitChars 10 (whole ++ fraction) 0) (10 ^ fraction.length) =
        if negative then x.neg else x := by
  have hm := pos_of_integer?_eq_none h
  have hreads := readsBack_shortest hm hx.mantissa_lt rfl hx.exponent_le
  have hexp := exponent_neg hm rfl h hreads
  have hwithin := within_of_readsBack hm rfl hreads
  obtain ⟨whole, fraction, hpositional, hwhole, hdigit, hne, hvalue, hplaces⟩ :=
    exists_pointed hexp
  have hnum : (shortest m (s - 1074)).exponent.toNat = 0 := by omega
  rw [hnum, Nat.pow_zero, Nat.mul_one, ← hvalue, ← hplaces] at hwithin
  refine ⟨whole, fraction, ?_, hwhole, hne, hdigit,
    hx.nearest_eq (Nat.pow_pos (by decide)) hwithin⟩
  rw [numberChars_of_large hx (by simp [h]), hpositional]

end Script
end AssignmentLowering
