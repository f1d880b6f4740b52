/-!
# Binary floating-point numbers, exactly

A number of the 64-bit binary format is kept as its bits and read by exact
integer arithmetic: sign, mantissa and a power of two. Nothing here rounds
except `ofInt`, which rounds to nearest with ties to even.

## Main definitions

* `Binary64` — the sixty-four bits.
* `Binary64.decode` — what they stand for.
* `Binary64.ofInt` — the nearest number to an integer.
* `Binary64.same` — equality with one NaN and one zero.
-/

namespace AssignmentLowering

/-- A floating-point number, as its bits: a sign, eleven of exponent, and
fifty-two of fraction. -/
structure Binary64 where
  bits : UInt64
  deriving DecidableEq, Repr, Inhabited

namespace Binary64

/-- What a bit pattern stands for. A finite number is `mantissa * 2 ^ exponent`,
negated if `negative`. -/
inductive Value where
  | nan
  | infinite (negative : Bool)
  | finite (negative : Bool) (mantissa : Nat) (exponent : Int)
  deriving DecidableEq, Repr

/-- The weight of the sign bit. -/
def signBit : Nat := Nat.pow 2 63

/-- The weight of the bit in front of the fraction. It is there in all but the
smallest numbers, without being stored. -/
def leadingBit : Nat := Nat.pow 2 52

def isNegative (x : Binary64) : Bool := decide (signBit ≤ x.bits.toNat)

def exponentField (x : Binary64) : Nat := x.bits.toNat / leadingBit % 2048

def fractionField (x : Binary64) : Nat := x.bits.toNat % leadingBit

/-- The least exponent of a finite number; the numbers that have it include all
those without an implicit leading bit. -/
def minExponent : Int := -1074

/-- The value of a bit pattern. -/
def decode (x : Binary64) : Value :=
  if x.exponentField = 2047 then
    if x.fractionField = 0 then .infinite x.isNegative else .nan
  else if x.exponentField = 0 then .finite x.isNegative x.fractionField minExponent
  else .finite x.isNegative (leadingBit + x.fractionField) (x.exponentField - 1075)

def isNaN (x : Binary64) : Bool := x.decode = .nan

/-- Zero of either sign. -/
def isZero (x : Binary64) : Bool := x.exponentField = 0 && x.fractionField = 0

/-- Every NaN is the same number and so are the two zeros; all other numbers are
equal only to themselves. -/
def same (x y : Binary64) : Bool :=
  (x.isNaN && y.isNaN) || (x.isZero && y.isZero) || x.bits = y.bits

@[simp] theorem same_self (x : Binary64) : x.same x = true := by simp [same]

theorem same_comm (x y : Binary64) : x.same y = y.same x := by
  simp only [same, Bool.and_comm x.isNaN, Bool.and_comm x.isZero]
  congr 1
  simp [eq_comm]

/-- The bits, sign apart, of the number nearest to `n`, ties to even. The quotient
keeps its leading bit, so that a carry out of the fraction moves the exponent on;
what is too large becomes infinity. -/
def magnitudeBits (n : Nat) : Nat :=
  if n = 0 then 0
  else
    let top := n.log2
    if top ≤ 52 then (top + 1022) * leadingBit + n * Nat.pow 2 (52 - top)
    else
      let unit := Nat.pow 2 (top - 52)
      let quotient := n / unit
      let excess := 2 * (n % unit)
      let up := unit < excess || (excess = unit && quotient % 2 = 1)
      min ((top + 1022) * leadingBit + (if up then quotient + 1 else quotient))
        (2047 * leadingBit)

/-- The number nearest to an integer, ties to even. -/
def ofInt (i : Int) : Binary64 :=
  let sign := if i < 0 then signBit else 0
  ⟨UInt64.ofNat (sign + magnitudeBits i.natAbs)⟩

end Binary64
end AssignmentLowering
