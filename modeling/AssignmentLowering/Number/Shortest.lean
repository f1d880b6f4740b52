import AssignmentLowering.Number.Binary64

/-!
# Shortest decimals

The shortest decimal that reads back as a given binary number. A positive number
`m * 2 ^ q` is the nearest one for an interval of reals around it, closed exactly
when `m` is even. Among the points `c * 10 ^ k` of a decimal grid only the two
neighbours of the number need a look, since the interval contains the number. The
coarsest grid with a neighbour in the interval gives the fewest digits; of two
neighbours inside, the nearer is taken, and the upper one on a tie.

Everything is compared in units of `2 ^ (q - 2)`, in which the number and both
ends of its interval are integers.

## Main definitions

* `Decimal` — an integer times a power of ten, with its positional digits.
* `Decimal.shortest` — the shortest decimal of `m * 2 ^ q`.
-/

namespace AssignmentLowering

/-- The number `coefficient * 10 ^ exponent`. -/
structure Decimal where
  coefficient : Nat
  exponent : Int
  deriving DecidableEq, Repr

namespace Decimal

/-- A grid of decimals beside a binary number: one step of the grid is `step`, and
a quarter of the number's last binary place is `quarter`, both in the same unit. -/
structure Scale where
  step : Nat
  quarter : Nat

/-- The grid of multiples of `10 ^ k` beside numbers of binary exponent `q`. -/
def scale (q k : Int) : Scale where
  step := Nat.pow 10 k.toNat * Nat.pow 2 (2 - q).toNat
  quarter := Nat.pow 10 (-k).toNat * Nat.pow 2 (q - 2).toNat

/-- How far the interval reaches below the number, in quarters of a last place: a
half place, or a quarter where the numbers below lie twice as dense. -/
def below (m : Nat) (q : Int) : Nat :=
  if m = Binary64.leadingBit ∧ Binary64.minExponent < q then 1 else 2

/-- Whether the grid point `c` reads back as `m * 2 ^ q`. -/
def readsBack (m : Nat) (q k : Int) (c : Nat) : Bool :=
  let s := scale q k
  let low := (4 * m - below m q) * s.quarter
  let high := (4 * m + 2) * s.quarter
  let point := c * s.step
  if m % 2 = 0 then low ≤ point && point ≤ high else low < point && point < high

/-- The neighbour to print on the grid of `10 ^ k`, if any reads back. -/
def onGrid (m : Nat) (q k : Int) : Option Nat :=
  let s := scale q k
  let value := 4 * m * s.quarter
  let lower := value / s.step
  let remainder := value % s.step
  match readsBack m q k lower, readsBack m q k (lower + 1) with
  | true, true => some (if 2 * remainder < s.step then lower else lower + 1)
  | true, false => some lower
  | false, true => some (lower + 1)
  | false, false => none

/-- A power of ten above `m * 2 ^ q`: the quotient approximates the logarithm of
two from above closely enough for every exponent of the format. -/
def topExponent (m : Nat) (q : Int) : Int := (m.log2 + q + 1) * 30103 / 100000 + 2

/-- The shortest decimal of the positive number `m * 2 ^ q`. Seventeen digits tell
all numbers of the format apart, so the search ends well within its range. -/
def shortest (m : Nat) (q : Int) : Decimal :=
  let top := topExponent m q
  ((List.range 24).findSome? fun (i : Nat) =>
    (onGrid m q (top - i)).map fun c => ⟨c, top - i⟩).getD ⟨0, 0⟩

/-- The digits without an exponent: trailing zeros are written out, and a fraction
has at least one digit before its point. -/
def positional (d : Decimal) : List Char :=
  let digits := Nat.toDigits 10 d.coefficient
  let places := (-d.exponent).toNat
  if places = 0 then digits ++ List.replicate d.exponent.toNat '0'
  else if places < digits.length then
    digits.take (digits.length - places) ++ '.' :: digits.drop (digits.length - places)
  else '0' :: '.' :: (List.replicate (places - digits.length) '0' ++ digits)

end Decimal
end AssignmentLowering
