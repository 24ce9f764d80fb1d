/-
  EvolvingGraph.Proofs.Binary64.Range
  ───────────────────────────────────
  **WHICH WHOLE NUMBERS ARE TOO LARGE FOR A DOUBLE.**

  The largest double is 2¹⁰²⁴ − 2⁹⁷¹.  A whole number is rounded to infinity
  from half a place beyond it: at the midpoint the tie goes to the even
  significand, which is not that of the largest double.

  Main statements:
    * `even_le_divideNearest_iff` — an even number is reached from the midpoint below it on;
    * `ofInt?_eq_none_iff` — the whole numbers that no double stands for.
-/
import EvolvingGraph.Proofs.Binary64.WholeNumbers

namespace EvolvingGraph

theorem twoTo_mono {m n : Nat} (h : m ≤ n) : twoTo m ≤ twoTo n := Nat.pow_le_pow_right Nat.two_pos h

/-! ## §1. Rounded quotients. -/

theorem div_le_divideNearest (num den : Nat) : num / den ≤ divideNearest num den := by
  unfold divideNearest
  simp only
  split
  · omega
  · split <;> omega

theorem divideNearest_le_div_add_one (num den : Nat) :
    divideNearest num den ≤ num / den + 1 := by
  unfold divideNearest
  simp only
  split
  · omega
  · split <;> omega

/-- **An even number is reached from the midpoint below it on.** -/
theorem even_le_divideNearest_iff {num den c : Nat} (hden : 0 < den) (hpos : 0 < c)
    (heven : c % 2 = 0) : c ≤ divideNearest num den ↔ (2 * c - 1) * den ≤ 2 * num := by
  have hlow := div_le_divideNearest num den
  have hhigh := divideNearest_le_div_add_one num den
  have hr : num % den < den := Nat.mod_lt _ hden
  have hparts : den * (num / den) + num % den = num := Nat.div_add_mod num den
  obtain hle | rfl | hgt : c ≤ num / den ∨ c = num / den + 1 ∨ num / den + 2 ≤ c := by omega
  · -- the quotient itself is as large
    have hmul : den * c ≤ den * (num / den) := Nat.mul_le_mul_left _ hle
    have hcut : (2 * c - 1) * den ≤ 2 * (den * c) := by
      rw [← Nat.mul_assoc, Nat.mul_comm (2 * den), Nat.mul_comm 2 den, ← Nat.mul_assoc,
        Nat.mul_right_comm]
      exact Nat.mul_le_mul_right _ (by omega)
    constructor <;> intro <;> omega
  · -- the quotient is odd, so that the tie goes up
    have hodd : num / den % 2 = 1 := by omega
    have hcut : (2 * (num / den + 1) - 1) * den = 2 * (den * (num / den)) + den := by
      rw [show 2 * (num / den + 1) - 1 = 2 * (num / den) + 1 by omega]
      ring
    rw [hcut]
    unfold divideNearest
    simp only
    split
    · constructor <;> intro <;> omega
    · split <;> constructor <;> intro <;> omega
  · -- even rounding up does not get there
    have hcut : (2 * (num / den) + 3) * den ≤ (2 * c - 1) * den :=
      Nat.mul_le_mul_right _ (by omega)
    have hsum : (2 * (num / den) + 3) * den = 2 * (den * (num / den)) + 3 * den := by ring
    constructor <;> intro <;> omega

/-! ## §2. The range of doubles. -/

namespace Real64

/-- From here on, whole numbers are too large for a double: 2¹⁰²⁴ − 2⁹⁷⁰. -/
def firstTooLarge : Nat := twoTo 1024 - twoTo 970

/-- The first number that is too large, by its places. -/
theorem firstTooLarge_eq : firstTooLarge = (2 * twoTo 53 - 1) * twoTo 970 := by
  have hparts : twoTo 1024 = 2 * twoTo 53 * twoTo 970 := by
    rw [show 2 * twoTo 53 = twoTo 54 by decide, ← twoTo_add]
  unfold firstTooLarge
  rw [hparts, Nat.sub_mul, Nat.one_mul]

theorem firstTooLarge_bounds : twoTo 1023 ≤ firstTooLarge ∧ firstTooLarge ≤ twoTo 1024 := by
  have hdouble : twoTo 1024 = twoTo 1023 + twoTo 1023 := by
    rw [← Nat.mul_two, show 1024 = 1023 + 1 from rfl, twoTo_add, show twoTo 1 = 2 from rfl]
  have hless : twoTo 970 ≤ twoTo 1023 := twoTo_mono (by decide)
  unfold firstTooLarge
  rw [hdouble]
  exact ⟨Nat.le_sub_of_add_le (Nat.add_le_add_left hless _), Nat.sub_le _ _⟩

/-- The same number in units, as the midpoint of the last two significands. -/
theorem firstTooLarge_units :
    (2 * twoTo 53 - 1) * twoTo (1023 + 1022) = 2 * (firstTooLarge * unitsPerOne) := by
  have hshift : twoTo (1023 + 1022) = twoTo 970 * (twoTo 1 * unitsPerOne) := by
    unfold unitsPerOne
    rw [← twoTo_add, ← twoTo_add]
  rw [hshift, ← Nat.mul_assoc, ← firstTooLarge_eq, Nat.mul_left_comm, show twoTo 1 = 2 from rfl]

theorem isInfinite_ofMagnitude (negative : Bool) (magnitude : Nat) :
    (ofMagnitude negative magnitude).isInfinite = true ↔ 2047 * magnitudesPerPower ≤ magnitude := by
  have hinfinity : infinityMagnitude = 2047 * magnitudesPerPower := by decide
  show (min magnitude infinityMagnitude == infinityMagnitude) = true ↔ _
  rw [beq_iff_eq, min_eq_right_iff, hinfinity]

/-- With a full significand, infinity is reached by the shift, or by a carry at the last one. -/
theorem isInfinite_of_significand {negative : Bool} {s c : Nat} (hlow : twoTo 52 ≤ c)
    (hhigh : c ≤ twoTo 53) : (ofMagnitude negative (s * magnitudesPerPower + c)).isInfinite = true
      ↔ 2046 ≤ s ∨ s = 2045 ∧ twoTo 53 ≤ c := by
  have htwo : twoTo 53 = 2 * magnitudesPerPower := by decide
  rw [← magnitudesPerPower_eq] at hlow
  rw [htwo] at hhigh
  rw [isInfinite_ofMagnitude, htwo]
  clear htwo
  unfold magnitudesPerPower at *
  omega

/-- A whole number is rounded at the last of 53 places from its first one on. -/
theorem round_natAbs {n : Int} (hn : n.natAbs ≠ 0) :
    round (n < 0) n.natAbs 1 = ofMagnitude (n < 0) ((n.natAbs.log2 + 1022) * magnitudesPerPower
      + divideNearest (n.natAbs * unitsPerOne) (twoTo (n.natAbs.log2 + 1022))) := by
  have hshift : (max (binaryExponent n.natAbs 1 - 52) (-1074) + 1074).toNat
      = n.natAbs.log2 + 1022 := by
    rw [binaryExponent_one hn]
    omega
  unfold round
  rw [if_neg hn]
  simp only [hshift, Nat.one_mul]

/-- The significand that comes of rounding is full, or one more. -/
theorem significand_natAbs {n : Nat} (hn : n ≠ 0) :
    twoTo 52 ≤ divideNearest (n * unitsPerOne) (twoTo (n.log2 + 1022))
      ∧ divideNearest (n * unitsPerOne) (twoTo (n.log2 + 1022)) ≤ twoTo 53 := by
  have hlow : twoTo n.log2 ≤ n := Nat.log2_self_le hn
  have hhigh : n < twoTo (n.log2 + 1) := Nat.lt_log2_self
  have hquotient := div_le_divideNearest (n * unitsPerOne) (twoTo (n.log2 + 1022))
  have hround := divideNearest_le_div_add_one (n * unitsPerOne) (twoTo (n.log2 + 1022))
  have hfull : twoTo 52 ≤ n * unitsPerOne / twoTo (n.log2 + 1022) := by
    rw [Nat.le_div_iff_mul_le (twoTo_pos _), ← twoTo_add,
      show 52 + (n.log2 + 1022) = n.log2 + 1074 by omega, twoTo_add]
    exact Nat.mul_le_mul_right _ hlow
  have hless : n * unitsPerOne / twoTo (n.log2 + 1022) < twoTo 53 := by
    rw [Nat.div_lt_iff_lt_mul (twoTo_pos _), ← twoTo_add,
      show 53 + (n.log2 + 1022) = n.log2 + 1 + 1074 by omega, twoTo_add]
    exact Nat.mul_lt_mul_of_pos_right hhigh unitsPerOne_pos
  omega

/-- **The whole numbers that no double stands for.** -/
theorem ofInt?_eq_none_iff {n : Int} : ofInt? n = none ↔ firstTooLarge ≤ n.natAbs := by
  have hinfinite : ofInt? n = none ↔ (round (n < 0) n.natAbs 1).isInfinite = true := by
    unfold ofInt?
    simp only
    split <;> simp_all
  rw [hinfinite]
  by_cases hn : n.natAbs = 0
  · have hpos : 0 < firstTooLarge := by
      rw [firstTooLarge_eq]
      exact Nat.mul_pos (by decide) (twoTo_pos _)
    have hzero : (round (n < 0) 0 1).isInfinite = false := rfl
    rw [hn, hzero]
    constructor
    · intro h
      exact absurd h (by simp)
    · intro h
      omega
  obtain ⟨hfull, hmost⟩ := significand_natAbs hn
  rw [round_natAbs hn, isInfinite_of_significand hfull hmost]
  have hlow : twoTo n.natAbs.log2 ≤ n.natAbs := Nat.log2_self_le hn
  have hhigh : n.natAbs < twoTo (n.natAbs.log2 + 1) := Nat.lt_log2_self
  obtain hsmall | hlast | hlarge := Nat.lt_trichotomy n.natAbs.log2 1023
  · have hbelow : n.natAbs < firstTooLarge :=
      (hhigh.trans_le (twoTo_mono hsmall)).trans_le firstTooLarge_bounds.1
    refine iff_of_false ?_ hbelow.not_ge
    rintro (hshift | ⟨hshift, -⟩)
    · omega
    · omega
  · -- in the last binade all depends on whether the significand is carried over
    rw [hlast, even_le_divideNearest_iff (twoTo_pos _) (twoTo_pos _) (by decide),
      firstTooLarge_units, Nat.mul_le_mul_left_iff (by decide),
      Nat.mul_le_mul_right_iff unitsPerOne_pos]
    simp
  · have habove : firstTooLarge ≤ n.natAbs :=
      firstTooLarge_bounds.2.trans ((twoTo_mono hlarge).trans hlow)
    refine iff_of_true (.inl ?_) habove
    omega

end Real64
end EvolvingGraph
