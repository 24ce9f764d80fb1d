/-
  EvolvingGraph.Binary64.Rounding
  ───────────────────────────────
  **ROUNDING TO DOUBLE PRECISION, AND THE ARITHMETIC BUILT ON IT.**

  There is one rounding function, `Real64.round`: the double nearest to a
  quotient of two natural numbers, of two equally near ones the one with the
  even significand, and infinity beyond the largest finite number.  Addition,
  halving and the conversion of integers and of decimal numbers are exact
  computations followed by that one rounding.

  Main statement: `divideNearest_exact` — an exact quotient is not changed.
-/
import EvolvingGraph.Binary64.Basic

namespace EvolvingGraph

/-! ## §1. Rounding quotients. -/

/-- The natural number nearest to `num / den`; a tie goes to the even one. -/
def divideNearest (num den : Nat) : Nat :=
  let q := num / den
  let r := num % den
  if den < 2 * r then q + 1
  else if 2 * r = den then q + q % 2
  else q

theorem divideNearest_exact (n den : Nat) (h : 0 < den) : divideNearest (n * den) den = n := by
  simp [divideNearest, Nat.mul_div_cancel n h]
  omega

/-- The exponent of the power of two just below a positive quotient. -/
def binaryExponent (num den : Nat) : Int :=
  let k : Int := (num.log2 : Int) - den.log2
  let reached := if 0 ≤ k then den * twoTo k.toNat ≤ num else den ≤ num * twoTo (-k).toNat
  if reached then k else k - 1

/-- The double nearest to `num / den`, for positive `den`, with the given sign.
The significand is rounded at the last of 53 binary places, or at 2⁻¹⁰⁷⁴ where
that is coarser; a carry moves the magnitude on to the next power of two by
itself, because magnitudes are consecutive. -/
def Real64.round (negative : Bool) (num den : Nat) : Real64 :=
  if num = 0 then ofMagnitude negative 0
  else
    let shift := (max (binaryExponent num den - 52) (-1074) + 1074).toNat
    let significand := divideNearest (num * unitsPerOne) (den * twoTo shift)
    ofMagnitude negative (shift * magnitudesPerPower + significand)

/-- The double nearest to a whole multiple of 2⁻¹⁰⁷⁴. -/
def Real64.ofUnits (n : Int) : Real64 := round (n < 0) n.natAbs unitsPerOne

/-- The double nearest to an integer, unless it is too large for one. -/
def Real64.ofInt? (n : Int) : Option Real64 :=
  let x := round (n < 0) n.natAbs 1
  if x.isInfinite then none else some x

/-! ## §2. Arithmetic. -/

namespace Double

/-- The negative of a value; NaN stays NaN. -/
def neg : Double → Double
  | .nan => .nan
  | .real x => .real x.neg

/-- The rounded sum.  Infinities of two signs have none; a sum that is exactly
zero is negative only when both terms are. -/
def add : Double → Double → Double
  | .nan, _ => .nan
  | _, .nan => .nan
  | .real x, .real y =>
    if x.isInfinite then
      if y.isInfinite && x.negative != y.negative then .nan else .real x
    else if y.isInfinite then .real y
    else
      let sum := x.signedUnits + y.signedUnits
      if sum = 0 then .real (.ofMagnitude (x.negative && y.negative) 0)
      else .real (.ofUnits sum)

/-- The rounded half of a value. -/
def half : Double → Double
  | .nan => .nan
  | .real x => if x.isInfinite then .real x else .real (.round x.negative x.units (2 * Real64.unitsPerOne))

/-- Numerical "less than": NaN is neither less nor greater than anything. -/
def less : Double → Double → Bool
  | .real x, .real y => decide (x < y)
  | _, _ => false

/-- The sum of a list, added from left to right to an initial zero. -/
def sum (xs : List Double) : Double := xs.foldl add zero

end Double
end EvolvingGraph
