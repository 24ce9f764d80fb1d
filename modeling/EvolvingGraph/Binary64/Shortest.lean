/-
  EvolvingGraph.Binary64.Shortest
  ───────────────────────────────
  **THE SHORTEST DECIMAL TEXT OF A NUMBER.**

  A number is written with the fewest decimal digits that still read back as
  that number, and of the texts that short the nearest one is taken.  The reals
  that read back as a number form an interval around it; a decimal grid has a
  point in that interval exactly when one of the number's two neighbours on the
  grid lies there, so it is enough to try those two for one digit, two digits
  and so on.  All of it is exact arithmetic on natural numbers.

  How the chosen digits are laid out is data (`DecimalLayout`): which decimal
  exponents are written positionally, the mark and the least width of an
  exponent, and the words for the infinities and NaN.
-/
import EvolvingGraph.Binary64.Rounding

namespace EvolvingGraph

/-! ## §1. The reals that read back as a number. -/

namespace Real64

/-- Four times the least and the greatest real, in units of 2⁻¹⁰⁷⁴, between
which every real rounds to `x`.  Below a power of two the numbers are twice as
dense, so the lower end is nearer there. -/
def readsBackBetween (x : Real64) : Nat × Nat :=
  let step := twoTo x.shift
  let below := if x.significand = magnitudesPerPower ∧ 0 < x.shift then step else 2 * step
  (4 * x.units - below, 4 * x.units + 2 * step)

/-- Whether the non-negative decimal `coefficient · 10^exponent` reads back as
the absolute value of `x`.  The two ends of the interval do when the significand is even. -/
def readsBack (x : Real64) (coefficient : Nat) (exponent : Int) : Bool :=
  let (low, high) := x.readsBackBetween
  let num := 4 * coefficient * unitsPerOne * tenTo exponent.toNat
  let den := tenTo (-exponent).toNat
  if x.significand % 2 = 0 then low * den ≤ num && num ≤ high * den
  else low * den < num && num < high * den

/-! ## §2. Choosing the digits. -/

/-- The decimal exponent of the leading digit of a positive quotient. -/
def decimalExponent (num den : Nat) : Int :=
  let guess : Int := (((num.log2 : Int) - den.log2) * 30103) / 100000
  let reached (k : Int) : Bool := den * tenTo k.toNat ≤ num * tenTo (-k).toNat
  if reached (guess + 1) then guess + 1
  else if reached guess then guess
  else guess - 1

/-- The decimal on the grid of `10^exponent` that is nearest to `x` among the
two neighbours of `x` that read back as `x`, if any does; of two equally near
ones the even one. -/
def nearestOnGrid (x : Real64) (exponent : Int) : Option Nat :=
  let num := x.units * tenTo (-exponent).toNat
  let den := unitsPerOne * tenTo exponent.toNat
  let low := num / den
  let rest := num % den
  let lowFits := x.readsBack low exponent
  let highFits := x.readsBack (low + 1) exponent
  if lowFits && highFits then
    some (if 2 * rest < den || (2 * rest = den && low % 2 = 0) then low else low + 1)
  else if lowFits then some low
  else if highFits then some (low + 1)
  else none

/-- The shortest decimal from a grid with `digits` digits on, trying at most
`tries` grids: a coefficient and the exponent of its grid. -/
def searchShortest (x : Real64) (leading : Int) : (digits tries : Nat) → Nat × Int
  | _, 0 => (0, 0)
  | digits, tries + 1 =>
    let exponent := leading - (digits - 1 : Nat)
    match x.nearestOnGrid exponent with
    | some c => (c, exponent)
    | none => searchShortest x leading (digits + 1) tries

/-- The shortest decimal that reads back as the absolute value of a finite
number other than zero.  Seventeen digits always suffice. -/
def shortest (x : Real64) : Nat × Int :=
  searchShortest x (decimalExponent x.units unitsPerOne) 1 17

end Real64

/-! ## §3. Laying the digits out. -/

/-- How a decimal is written. -/
structure DecimalLayout where
  /-- The exponents of the leading digit that are written positionally. -/
  leastPositional : Int
  greatestPositional : Int
  /-- What stands between digits and exponent. -/
  exponentMark : String
  /-- The least number of digits in an exponent. -/
  exponentWidth : Nat
  infinity : String
  nan : String

namespace DecimalLayout

/-- A natural number with at least `width` digits. -/
def padded (width n : Nat) : String :=
  let digits := toString n
  String.ofList (List.replicate (width - digits.length) '0') ++ digits

/-- The digits of a coefficient without the zeros at its end, and how many of
those there were. -/
def trimZeros (digits : List Char) : List Char × Nat :=
  let kept := (digits.reverse.dropWhile (· == '0')).reverse
  (kept, digits.length - kept.length)

/-- Write digits whose leading one has the given decimal exponent.  A
positional number always shows a point with a digit on both sides. -/
def place (layout : DecimalLayout) (digits : List Char) (leading : Int) : String :=
  if layout.leastPositional ≤ leading ∧ leading ≤ layout.greatestPositional then
    if leading < 0 then
      "0." ++ String.ofList (List.replicate (-leading - 1).toNat '0' ++ digits)
    else
      let whole := leading.toNat + 1
      let before := digits.take whole ++ List.replicate (whole - digits.length) '0'
      let after := digits.drop whole
      String.ofList before ++ "." ++ (if after.isEmpty then "0" else String.ofList after)
  else
    let mantissa := match digits with
      | [] => "0"
      | [d] => String.ofList [d]
      | d :: rest => String.ofList (d :: '.' :: rest)
    let sign := if leading < 0 then "-" else "+"
    mantissa ++ layout.exponentMark ++ sign ++ padded layout.exponentWidth leading.natAbs

/-- The text of a value. -/
def write (layout : DecimalLayout) : Double → String
  | .nan => layout.nan
  | .real x =>
    let sign := if x.negative then "-" else ""
    if x.isInfinite then sign ++ layout.infinity
    else if x.isZero then sign ++ layout.place ['0'] 0
    else
      let (coefficient, exponent) := x.shortest
      let (digits, dropped) := trimZeros (toString coefficient).toList
      sign ++ layout.place digits (exponent + dropped + digits.length - 1)

end DecimalLayout

/-- Numbers are written positionally from a ten-thousandth to below 10¹⁶. -/
def plainDecimal : DecimalLayout where
  leastPositional := -4
  greatestPositional := 15
  exponentMark := "e"
  exponentWidth := 2
  infinity := "inf"
  nan := "nan"

end EvolvingGraph
