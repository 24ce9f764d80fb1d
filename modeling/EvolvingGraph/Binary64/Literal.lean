/-
  EvolvingGraph.Binary64.Literal
  ──────────────────────────────
  **NUMBERS GIVEN AS TEXT.**

  A matrix entry or a weight may be text that spells a number: a sign, digits
  with at most one point, an exponent, or one of the words for infinity and
  NaN in any case.  Blanks around it do not count, and one underscore may stand
  between two digits.  The value is the double nearest to the decimal.
-/
import EvolvingGraph.Binary64.Rounding
import EvolvingGraph.Text.Character

namespace EvolvingGraph

/-! ## §1. From a decimal to a number. -/

/-- The double nearest to `coefficient · 10^exponent`.  A decimal whose leading
digit stands far beyond either end of the range is decided without computing
the power. -/
def Real64.ofDecimal (negative : Bool) (coefficient : Nat) (exponent : Int) : Real64 :=
  if coefficient = 0 then ofMagnitude negative 0
  else
    let leading := exponent + (toString coefficient).length
    if 400 < leading then infinity negative
    else if leading < -400 then ofMagnitude negative 0
    else round negative (coefficient * tenTo exponent.toNat) (tenTo (-exponent).toNat)

namespace Double

/-! ## §2. Reading the parts. -/

/-- Whether a text starts with a decimal digit. -/
def startsWithDigit : List Char → Bool
  | [] => false
  | c :: _ => (Text.decimalDigit? c).isSome

/-- The digits that a text starts with, single underscores between two digits
left out, and the text behind them.  `afterDigit` says whether a digit came just before. -/
def leadingDigits (afterDigit : Bool) : List Char → List Nat × List Char
  | [] => ([], [])
  | c :: rest =>
    match Text.decimalDigit? c with
    | some d =>
      let (digits, tail) := leadingDigits true rest
      (d :: digits, tail)
    | none =>
      if afterDigit && c = '_' && startsWithDigit rest then leadingDigits false rest
      else ([], c :: rest)

/-- A sign, if the text starts with one: whether it is a minus, and the rest. -/
def leadingSign : List Char → Bool × List Char
  | '-' :: rest => (true, rest)
  | '+' :: rest => (false, rest)
  | rest => (false, rest)

/-- The natural number with the given decimal digits. -/
def ofDigits (digits : List Nat) : Nat := digits.foldl (fun n d => 10 * n + d) 0

/-- The exponent that the end of a number spells; none at all counts as zero. -/
def exponent? : List Char → Option Int
  | [] => some 0
  | mark :: rest =>
    if mark = 'e' || mark = 'E' then
      let (negative, unsigned) := leadingSign rest
      match leadingDigits false unsigned with
      | ([], _) => none
      | (digits, []) => some (if negative then -(ofDigits digits : Int) else ofDigits digits)
      | _ => none
    else none

/-- The number that an unsigned text without blanks spells. -/
def ofUnsigned? (negative : Bool) (cs : List Char) : Option Double :=
  let word := String.ofList (cs.map Char.toLower)
  if word = "inf" || word = "infinity" then some (.real (.infinity negative))
  else if word = "nan" then some .nan
  else
    let (whole, rest) := leadingDigits false cs
    let (fraction, tail) := match rest with
      | '.' :: more => leadingDigits false more
      | _ => ([], rest)
    if whole.isEmpty && fraction.isEmpty then none
    else (exponent? tail).map fun e =>
      .real (.ofDecimal negative (ofDigits (whole ++ fraction)) (e - fraction.length))

/-- The value that a text spells, if it spells one. -/
def ofText? (s : String) : Option Double :=
  let trimmed := ((s.toList.dropWhile Text.isBlank).reverse.dropWhile Text.isBlank).reverse
  let (negative, unsigned) := leadingSign trimmed
  ofUnsigned? negative unsigned

end Double
end EvolvingGraph
