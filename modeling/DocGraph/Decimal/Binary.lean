/-!
# DocGraph.Decimal.Binary

Floating-point numbers as exact fractions.

* `Binary`        — a number `± m · 2 ^ q`.
* `Binary.ofBits` — the number behind the bits of a finite double.
* `roundDiv`      — a quotient rounded to the nearest integer, ties to the even one.
* `ofDecimal`     — the double nearest to `m · 10 ^ e`.
-/

namespace DocGraph
namespace Decimal

/-- The number `± mantissa · 2 ^ exponent`. `lowEdge` says that the double below it is only half as
far away as the one above. -/
structure Binary where
  negative : Bool
  mantissa : Nat
  exponent : Int
  lowEdge : Bool
deriving DecidableEq

/-- The bit in front of the fraction, which is not stored. -/
def hidden : Nat := 1 <<< 52

/-- The number behind 64 bits; infinities and NaN have none. -/
def Binary.ofBits (bits : UInt64) : Option Binary :=
  let n := bits.toNat
  let fraction := n % hidden
  let exponent := n / hidden % 2048
  let negative := 1 <<< 63 ≤ n
  if exponent = 2047 then none
  else if exponent = 0 then some ⟨negative, fraction, -1074, false⟩
  else some ⟨negative, hidden + fraction, (exponent : Int) - 1075, fraction == 0 && exponent != 1⟩

def Binary.ofFloat (f : Float) : Option Binary := ofBits f.toBits

def powerOfTen (n : Nat) : Nat := Nat.pow 10 n

/-- Numerator of `m · 2 ^ q`. -/
def scaleUp (m : Nat) (q : Int) : Nat := m <<< q.toNat

/-- Denominator of `m · 2 ^ q`. -/
def scaleDown (q : Int) : Nat := 1 <<< (-q).toNat

/-- The integer nearest to `num / den`, of two the even one. -/
def roundDiv (num den : Nat) : Nat :=
  let low := num / den
  let rest := 2 * (num % den)
  if rest < den then low
  else if den < rest then low + 1
  else low + low % 2

/-- The double nearest to `m · 10 ^ e`. Beyond the range of doubles it is infinite or zero. -/
def ofDecimal (m : Nat) (e : Int) : Float :=
  let digits := (Nat.toDigits 10 m).length
  if m = 0 then 0
  else if 400 < e + digits then 1.0 / 0.0
  else if e + digits < -400 then 0
  else if 0 ≤ e then Float.ofScientific m false e.toNat
  else Float.ofScientific m true (-e).toNat

end Decimal
end DocGraph
