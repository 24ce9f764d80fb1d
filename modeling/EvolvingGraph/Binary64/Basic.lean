/-
  EvolvingGraph.Binary64.Basic
  ────────────────────────────
  **DOUBLE-PRECISION NUMBERS AS EXACT DATA.**

  Weights, flags, ids and matrix entries may be double-precision numbers, and
  every answer about them has to be exact.  A number other than NaN is held
  here by its sign and the 63 bits that follow it, read as one natural number.
  Read so, the magnitudes of one sign are in the order of the numbers, hence
  comparing two numbers is comparing two integers (`Real64.rank`), and every
  finite number is a whole multiple of 2⁻¹⁰⁷⁴ (`Real64.units`).

  Main statements:
    * `Real64.le_iff_rank` / `Real64.lt_iff_rank` — the order is that of the ranks;
    * `Double.ofBits_toBits_real` — the interchange bits read back.
-/

namespace EvolvingGraph

/-! ## §1. Powers, and numbers other than NaN. -/

/-- A power of two. -/
def twoTo (n : Nat) : Nat := Nat.pow 2 n

/-- A power of ten. -/
def tenTo (n : Nat) : Nat := Nat.pow 10 n

/-- How many magnitudes there are from one power of two to the next: 2⁵². -/
def magnitudesPerPower : Nat := 0x10000000000000

/-- The weight of the sign among the interchange bits: 2⁶³. -/
def signWeight : Nat := 0x8000000000000000

/-- A double-precision number other than NaN: a sign, and the remaining 63 bits
as one natural number, which reaches at most the pattern of infinity. -/
structure Real64 where
  negative : Bool
  magnitude : Nat
  magnitude_le : magnitude ≤ 0x7FF0000000000000
  deriving DecidableEq, Repr

namespace Real64

/-- The magnitude of the infinities. -/
def infinityMagnitude : Nat := 0x7FF0000000000000

/-- The number with the given sign and magnitude; a magnitude beyond infinity
is infinity. -/
def ofMagnitude (negative : Bool) (magnitude : Nat) : Real64 :=
  ⟨negative, min magnitude infinityMagnitude, Nat.min_le_right _ _⟩

/-- Zero, with a plus sign. -/
def zero : Real64 := ⟨false, 0, by decide⟩

/-- One. -/
def one : Real64 := ⟨false, 0x3FF0000000000000, by decide⟩

/-- The infinity of the given sign. -/
def infinity (negative : Bool) : Real64 := ⟨negative, infinityMagnitude, by decide⟩

instance : Inhabited Real64 := ⟨zero⟩

def isInfinite (x : Real64) : Bool := x.magnitude == infinityMagnitude

/-- Zero of either sign. -/
def isZero (x : Real64) : Bool := x.magnitude == 0

/-- The number with the other sign. -/
def neg (x : Real64) : Real64 := { x with negative := !x.negative }

/-! ## §2. Order. -/

/-- Where a number stands among all numbers; both zeros stand at 0. -/
def rank (x : Real64) : Int := if x.negative then -(x.magnitude : Int) else x.magnitude

instance : LE Real64 := ⟨fun x y => x.rank ≤ y.rank⟩
instance : LT Real64 := ⟨fun x y => x.rank < y.rank⟩

theorem le_iff_rank {x y : Real64} : x ≤ y ↔ x.rank ≤ y.rank := Iff.rfl
theorem lt_iff_rank {x y : Real64} : x < y ↔ x.rank < y.rank := Iff.rfl

instance (x y : Real64) : Decidable (x ≤ y) := inferInstanceAs (Decidable (x.rank ≤ y.rank))
instance (x y : Real64) : Decidable (x < y) := inferInstanceAs (Decidable (x.rank < y.rank))

/-- Numerical equality: the two zeros are equal. -/
def equals (x y : Real64) : Bool := x.rank == y.rank

/-! ## §3. Finite numbers as whole multiples of 2⁻¹⁰⁷⁴. -/

/-- The binary exponent above the least one: the significand of `x` counts
multiples of 2 to this power, in units of 2⁻¹⁰⁷⁴. -/
def shift (x : Real64) : Nat := max (x.magnitude / magnitudesPerPower) 1 - 1

/-- The significand: 53 bits, fewer for the numbers closest to zero. -/
def significand (x : Real64) : Nat := x.magnitude - x.shift * magnitudesPerPower

/-- The absolute value of a finite number in units of 2⁻¹⁰⁷⁴. -/
def units (x : Real64) : Nat := x.significand * twoTo x.shift

/-- A finite number in units of 2⁻¹⁰⁷⁴. -/
def signedUnits (x : Real64) : Int := if x.negative then -(x.units : Int) else x.units

/-- How many units make up the number 1. -/
def unitsPerOne : Nat := twoTo 1074

/-- The integer that a number is, if it is one. -/
def toInt? (x : Real64) : Option Int :=
  if x.isInfinite then none
  else if x.units % unitsPerOne = 0 then
    let n : Int := (x.units / unitsPerOne : Nat)
    some (if x.negative then -n else n)
  else none

end Real64

/-! ## §4. All double-precision values. -/

/-- A double-precision value: NaN or a number. -/
inductive Double where
  | nan
  | real (x : Real64)
  deriving DecidableEq, Repr

namespace Double

instance : Inhabited Double := ⟨.real .zero⟩

/-- Zero, with a plus sign. -/
def zero : Double := .real .zero

/-- Whether a value is a zero of either sign. -/
def isZero : Double → Bool
  | .nan => false
  | .real x => x.isZero

/-- The 64 interchange bits; NaN has one form. -/
def toBits : Double → Nat
  | .nan => 0x7FF8000000000000
  | .real x => (if x.negative then signWeight else 0) + x.magnitude

/-- The value with the given interchange bits. -/
def ofBits (bits : Nat) : Double :=
  if h : bits % signWeight ≤ 0x7FF0000000000000 then
    .real ⟨bits / signWeight % 2 == 1, bits % signWeight, h⟩
  else .nan

theorem ofBits_toBits_real (x : Real64) : ofBits (toBits (.real x)) = .real x := by
  obtain ⟨s, m, h⟩ := x
  have hlt : m < signWeight := by unfold signWeight; omega
  cases s
  · have h1 : m % signWeight = m := Nat.mod_eq_of_lt hlt
    have h2 : m / signWeight = 0 := Nat.div_eq_of_lt hlt
    simp only [ofBits, toBits, Bool.false_eq_true, if_false, Nat.zero_add, h1, h2, h, dif_pos]
    rfl
  · have h1 : (signWeight + m) % signWeight = m := by unfold signWeight at *; omega
    have h2 : (signWeight + m) / signWeight = 1 := by unfold signWeight at *; omega
    simp only [ofBits, toBits, if_true, h1, h2, h, dif_pos]
    rfl

end Double
end EvolvingGraph
