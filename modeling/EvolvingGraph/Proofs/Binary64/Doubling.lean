/-
  EvolvingGraph.Proofs.Binary64.Doubling
  ──────────────────────────────────────
  **A NUMBER ADDED TO ITSELF AND TAKEN AWAY AGAIN.**

  Where a value is counted twice and once of that is taken away, nothing is lost
  to rounding unless the double of the value is too large: it has the same
  significand one shift further up, or, among the numbers closest to zero, twice
  the significand.  Only a negative zero does not come back: it loses its sign.

  Main statements:
    * `ofUnits_eq` — a significand and a shift are not changed by rounding;
    * `exists_twice` — twice a number is a number;
    * `add_self_add_neg` — a number added to itself and taken away again.
-/
import EvolvingGraph.Proofs.Binary64.Range

namespace EvolvingGraph

namespace Real64

variable {x y : Real64}

/-! ## §1. The parts of a number. -/

/-- A magnitude is a shift and a significand. -/
theorem magnitude_eq (x : Real64) :
    x.magnitude = x.shift * magnitudesPerPower + x.significand := by
  unfold significand shift
  unfold magnitudesPerPower
  omega

/-- A significand is full, unless there is no shift. -/
theorem shift_eq_zero_or (x : Real64) : x.shift = 0 ∨ twoTo 52 ≤ x.significand := by
  rw [← magnitudesPerPower_eq]
  unfold significand shift
  unfold magnitudesPerPower
  omega

/-- A number that can be shifted further is finite. -/
theorem isInfinite_of_shift_lt (h : x.shift < 2045) : x.isInfinite = false := by
  have hplaces := x.significand_lt
  have hmagnitude := x.magnitude_eq
  have htwo : twoTo 53 = 2 * magnitudesPerPower := by decide
  rw [htwo] at hplaces
  have hbelow : x.magnitude < infinityMagnitude := by
    unfold magnitudesPerPower at hplaces hmagnitude
    unfold infinityMagnitude
    omega
  unfold isInfinite
  rw [beq_eq_false_iff_ne]
  exact hbelow.ne

theorem ofMagnitude_magnitude (x : Real64) : ofMagnitude x.negative x.magnitude = x := by
  unfold ofMagnitude
  congr 1
  exact Nat.min_eq_left x.magnitude_le

theorem negative_ofMagnitude (negative : Bool) (magnitude : Nat) :
    (ofMagnitude negative magnitude).negative = negative := rfl

/-- There are two zeros. -/
theorem eq_of_isZero (h : x.isZero = true) : x = .zero ∨ x = Real64.zero.neg := by
  obtain ⟨negative, magnitude, hle⟩ := x
  obtain rfl : magnitude = 0 := by simpa [isZero] using h
  cases negative
  · exact .inl rfl
  · exact .inr rfl

/-- Only the zeros count no units. -/
theorem units_ne_zero (h : x.isZero = false) : x.units ≠ 0 := by
  have hfull : 0 < twoTo 52 := twoTo_pos 52
  have hsignificand : x.significand ≠ 0 := by
    intro hzero
    have hshift : x.shift = 0 := x.shift_eq_zero_or.resolve_right (by omega)
    have hmagnitude : x.magnitude = 0 := by rw [x.magnitude_eq, hshift, hzero, Nat.zero_mul]
    exact absurd hmagnitude (by simpa [isZero] using h)
  exact Nat.mul_ne_zero hsignificand (twoTo_pos _).ne'

/-- A number below 2¹⁰²³ has room for one more shift. -/
theorem shift_lt_of_units_lt (h : x.units < twoTo 1023 * unitsPerOne) : x.shift < 2045 := by
  by_contra hge
  have hfull : twoTo 52 ≤ x.significand := x.shift_eq_zero_or.resolve_left (by omega)
  have hlarge : twoTo 1023 * unitsPerOne ≤ x.units :=
    calc twoTo 1023 * unitsPerOne = twoTo 52 * twoTo 2045 := by
          unfold unitsPerOne
          rw [← twoTo_add, ← twoTo_add]
      _ ≤ x.significand * twoTo x.shift := Nat.mul_le_mul hfull (twoTo_mono (by omega))
  exact absurd hlarge (Nat.not_le.2 h)

/-! ## §2. Rounding what needs no rounding. -/

/-- **A significand and a shift are not changed by rounding.** -/
theorem ofUnits_eq {n : Int} {s c : Nat} (hn : n.natAbs = c * twoTo s) (hc : c ≠ 0)
    (hlow : s = 0 ∨ twoTo 52 ≤ c) (hhigh : c < twoTo 53) :
    ofUnits n = ofMagnitude (n < 0) (s * magnitudesPerPower + c) := by
  have hn0 : n.natAbs ≠ 0 := hn ▸ Nat.mul_ne_zero hc (twoTo_pos s).ne'
  have hlog : n.natAbs.log2 = c.log2 + s := hn ▸ log2_mul_twoTo hc s
  have hmost : c.log2 < 53 := (Nat.log2_lt hc).2 hhigh
  have hshift : (max (binaryExponent n.natAbs unitsPerOne - 52) (-1074) + 1074).toNat = s := by
    rw [show unitsPerOne = twoTo 1074 from rfl, binaryExponent_twoTo hn0, hlog]
    obtain rfl | hfull := hlow
    · omega
    · have hleast : 52 ≤ c.log2 := (Nat.le_log2 hc).2 hfull
      omega
  have hexact : divideNearest (n.natAbs * unitsPerOne) (unitsPerOne * twoTo s) = c := by
    rw [hn, Nat.mul_assoc, Nat.mul_comm (twoTo s)]
    exact divideNearest_exact _ _ (Nat.mul_pos unitsPerOne_pos (twoTo_pos s))
  unfold ofUnits round
  rw [if_neg hn0]
  simp only [hshift, hexact]

theorem natAbs_signedUnits (x : Real64) : x.signedUnits.natAbs = x.units :=
  natAbs_signed x.negative x.units

/-- The sign of a number other than zero is that of its units. -/
theorem signedUnits_neg_iff (h : x.units ≠ 0) : decide (x.signedUnits < 0) = x.negative := by
  unfold signedUnits
  cases x.negative
  · simp
  · simpa using Nat.pos_of_ne_zero h

/-- **A number is the double nearest to itself.** -/
theorem ofUnits_signedUnits (h : x.units ≠ 0) : ofUnits x.signedUnits = x := by
  rw [ofUnits_eq x.natAbs_signedUnits (left_ne_zero_of_mul h) x.shift_eq_zero_or
    x.significand_lt, signedUnits_neg_iff h, ← x.magnitude_eq, ofMagnitude_magnitude]

/-! ## §3. Twice a number. -/

/-- **Twice a number below 2¹⁰²³ is a number.** -/
theorem exists_twice (hroom : x.shift < 2045) :
    ∃ y : Real64, y.isInfinite = false ∧ y.signedUnits = 2 * x.signedUnits := by
  have hplaces := x.significand_lt
  have hsigned : ∀ y : Real64, y.negative = x.negative → y.units = 2 * x.units →
      y.signedUnits = 2 * x.signedUnits := by
    intro y hnegative hunits
    unfold signedUnits
    rw [hnegative, hunits]
    cases x.negative <;> simp
  obtain ⟨hshift, hless⟩ | hfull :
      (x.shift = 0 ∧ x.significand < twoTo 52) ∨ twoTo 52 ≤ x.significand := by
    have := x.shift_eq_zero_or
    omega
  · -- below the first power of two there is room in the significand
    have htwo : twoTo 53 = 2 * twoTo 52 := by decide
    obtain ⟨hfinite, hunits⟩ := units_ofMagnitude x.negative (s := 0) (c := 2 * x.significand)
      (by omega) (.inl rfl) (by omega)
    refine ⟨_, hfinite, hsigned _ (negative_ofMagnitude ..) ?_⟩
    rw [hunits, units, hshift, Nat.mul_assoc]
  · obtain ⟨hfinite, hunits⟩ := units_ofMagnitude x.negative (s := x.shift + 1)
      (c := x.significand) (by omega) (.inr hfull) hplaces
    refine ⟨_, hfinite, hsigned _ (negative_ofMagnitude ..) ?_⟩
    rw [hunits, units, twoTo_add, show twoTo 1 = 2 from rfl, ← Nat.mul_assoc, Nat.mul_comm]

theorem signedUnits_neg (x : Real64) : x.neg.signedUnits = -x.signedUnits := by
  have hunits : x.neg.units = x.units := rfl
  unfold signedUnits
  rw [hunits]
  unfold neg
  cases x.negative <;> simp

end Real64

namespace Double

open Real64 (ofUnits unitsPerOne)

variable {x y z : Real64}

/-- The sum of two finite numbers is the double nearest to what they make together. -/
theorem add_eq (hx : x.isInfinite = false) (hy : y.isInfinite = false) (hz : z.units ≠ 0)
    (hsum : x.signedUnits + y.signedUnits = z.signedUnits) :
    add (.real x) (.real y) = .real z := by
  have hne : z.signedUnits ≠ 0 := by
    have habs := z.natAbs_signedUnits
    omega
  simp only [add, hx, hy, Bool.false_eq_true, if_false, hsum, if_neg hne,
    Real64.ofUnits_signedUnits hz]

/-- **A number added to itself and taken away again** is what it was, but for the sign
of a zero. -/
theorem add_self_add_neg (h : x.units < twoTo 1023 * unitsPerOne) :
    ((Double.real x).add (.real x)).add (.real x.neg) = if x.isZero then .zero else .real x := by
  have hroom := Real64.shift_lt_of_units_lt h
  have hfinite := Real64.isInfinite_of_shift_lt hroom
  cases hzero : x.isZero with
  | true =>
    -- both zeros make the one with a plus sign
    obtain rfl | rfl := Real64.eq_of_isZero hzero
    · decide +kernel
    · decide +kernel
  | false =>
    obtain ⟨y, hy, htwice⟩ := Real64.exists_twice hroom
    have hunits := Real64.units_ne_zero hzero
    have hx := x.natAbs_signedUnits
    have hynatAbs := y.natAbs_signedUnits
    have hneg := x.signedUnits_neg
    have hnegfinite : x.neg.isInfinite = false := hfinite
    have hdouble : (Double.real x).add (.real x) = .real y :=
      add_eq hfinite hfinite (by omega) (by omega)
    have hback : (Double.real y).add (.real x.neg) = .real x :=
      add_eq hy hnegfinite hunits (by omega)
    rw [hdouble, hback]
    rfl

/-- The largest number that comes back, and the smallest one that does not. -/
example :
    ((Double.ofBits 0x7FDFFFFFFFFFFFFF).add (.ofBits 0x7FDFFFFFFFFFFFFF)).add
        (.ofBits 0xFFDFFFFFFFFFFFFF) = .ofBits 0x7FDFFFFFFFFFFFFF
      ∧ ((Double.ofBits 0x7FE0000000000000).add (.ofBits 0x7FE0000000000000)).add
        (.ofBits 0xFFE0000000000000) = .real (.infinity false) := by decide +kernel

end Double
end EvolvingGraph
