/-
  EvolvingGraph.Proofs.Binary64.WholeNumbers
  ──────────────────────────────────────────
  **WHOLE NUMBERS THAT A DOUBLE HOLDS EXACTLY.**

  A double has 53 binary places.  A whole number with no more of them, but for
  zeros at the end, is a double, unless it is too large; rounding does not change
  it.  All whole numbers below 2⁵³ are of this kind, and so is every double
  that is a whole number at all.

  Main statements:
    * `holds_of_toInt?` — the whole numbers that doubles are;
    * `toInt?_round` — such a number comes back when it is rounded.
-/
import Mathlib
import EvolvingGraph.Binary64.Rounding

namespace EvolvingGraph

theorem twoTo_pos (n : Nat) : 0 < twoTo n := Nat.two_pow_pos n

theorem twoTo_add (m n : Nat) : twoTo (m + n) = twoTo m * twoTo n := Nat.pow_add 2 m n

theorem magnitudesPerPower_eq : magnitudesPerPower = twoTo 52 := by decide

namespace Real64

/-- A double holds a whole number: it has 53 binary places, and zeros after them
up to the largest double. -/
def Holds (n : Int) : Prop := ∃ m k, m < twoTo 53 ∧ k ≤ 971 ∧ n.natAbs = m * twoTo k

theorem holds_of_lt {n : Int} (h : n.natAbs < twoTo 53) : Holds n :=
  ⟨n.natAbs, 0, h, by decide, (Nat.mul_one _).symm⟩

/-! ## §1. Doubles that are whole numbers. -/

variable {x : Real64}

theorem magnitude_lt_of_finite (h : x.isInfinite = false) :
    x.magnitude < 2047 * magnitudesPerPower := by
  have hne : x.magnitude ≠ infinityMagnitude := by simpa [isInfinite] using h
  have hle := x.magnitude_le
  unfold infinityMagnitude at hne
  unfold magnitudesPerPower
  omega

theorem shift_le_of_finite (h : x.isInfinite = false) : x.shift ≤ 2045 := by
  have hquotient : x.magnitude / magnitudesPerPower < 2047 :=
    Nat.div_lt_of_lt_mul (by rw [Nat.mul_comm]; exact magnitude_lt_of_finite h)
  unfold shift
  omega

/-- A significand has 53 binary places. -/
theorem significand_lt (x : Real64) : x.significand < twoTo 53 := by
  -- beyond the least exponent the first place is counted in the magnitude
  have htwo : twoTo 53 = 2 * magnitudesPerPower := by decide
  unfold significand shift
  unfold magnitudesPerPower at *
  omega

theorem unitsPerOne_pos : 0 < unitsPerOne := by
  unfold unitsPerOne
  exact twoTo_pos _

theorem natAbs_signed (negative : Bool) (n : Nat) :
    (if negative then -(n : Int) else n).natAbs = n := by
  cases negative <;> simp

theorem toInt?_eq_some_iff {n : Int} : x.toInt? = some n ↔ x.isInfinite = false
    ∧ x.units = n.natAbs * unitsPerOne
    ∧ n = if x.negative then -(n.natAbs : Int) else n.natAbs := by
  have hpos := unitsPerOne_pos
  unfold toInt?
  generalize unitsPerOne = one at hpos ⊢
  cases x.isInfinite with
  | true => simp
  | false =>
    simp only [Bool.false_eq_true, if_false, true_and]
    split
    · next hmod =>
      have hunits := Nat.div_mul_cancel (Nat.dvd_of_mod_eq_zero hmod)
      generalize x.units / one = q at hunits
      constructor
      · intro h
        obtain rfl := Option.some.inj h
        rw [natAbs_signed, hunits]
        exact ⟨rfl, rfl⟩
      · rintro ⟨hn, hsign⟩
        rw [← hunits, Nat.mul_left_inj hpos.ne'] at hn
        rw [hn, ← hsign]
    · next hmod =>
      refine ⟨fun h => absurd h (by simp), fun h => absurd ?_ hmod⟩
      rw [h.1]
      exact Nat.mul_mod_left _ _

/-- **The whole numbers that doubles are have 53 binary places.** -/
theorem holds_of_toInt? {n : Int} (h : x.toInt? = some n) : Holds n := by
  obtain ⟨hfinite, hunits, -⟩ := toInt?_eq_some_iff.1 h
  have hshift := shift_le_of_finite hfinite
  have hplaces := x.significand_lt
  unfold units unitsPerOne at hunits
  obtain hlarge | hsmall := Nat.le_total 1074 x.shift
  · -- the places after the point are zeros
    refine ⟨x.significand, x.shift - 1074, hplaces, by omega, ?_⟩
    rw [← Nat.mul_left_inj (twoTo_pos 1074).ne', ← hunits, Nat.mul_assoc, ← twoTo_add,
      Nat.sub_add_cancel hlarge]
  · -- some places are after the point, so the number has fewer of them
    refine holds_of_lt (Nat.lt_of_le_of_lt ?_ hplaces)
    rw [← Nat.sub_add_cancel hsmall, twoTo_add, ← Nat.mul_assoc,
      Nat.mul_left_inj (twoTo_pos x.shift).ne'] at hunits
    rw [hunits]
    exact Nat.le_mul_of_pos_right _ (twoTo_pos _)

/-! ## §2. Rounding whole numbers. -/

theorem log2_mul_twoTo {m : Nat} (h : m ≠ 0) (k : Nat) : (m * twoTo k).log2 = m.log2 + k := by
  rw [Nat.log2_eq_iff (Nat.mul_ne_zero h (twoTo_pos k).ne'), Nat.add_right_comm, Nat.pow_add,
    Nat.pow_add]
  exact ⟨Nat.mul_le_mul_right _ (Nat.log2_self_le h),
    Nat.mul_lt_mul_of_pos_right Nat.lt_log2_self (twoTo_pos k)⟩

/-- Where the denominator is a power of two, the exponent is that of the numerator, less
this power. -/
theorem binaryExponent_twoTo {n : Nat} (h : n ≠ 0) (p : Nat) :
    binaryExponent n (twoTo p) = n.log2 - p := by
  have hlog : (twoTo p).log2 = p := Nat.log2_two_pow
  have hlow : twoTo n.log2 ≤ n := Nat.log2_self_le h
  unfold binaryExponent
  simp only [hlog]
  refine if_pos ?_
  split
  · next hk =>
    have hsum : p + ((n.log2 : Int) - p).toNat = n.log2 := by omega
    rw [← twoTo_add, hsum]
    exact hlow
  · next hk =>
    have hsum : p = n.log2 + (-((n.log2 : Int) - p)).toNat := by omega
    calc twoTo p = twoTo n.log2 * twoTo (-((n.log2 : Int) - p)).toNat := by
          rw [← twoTo_add, ← hsum]
      _ ≤ n * twoTo (-((n.log2 : Int) - p)).toNat := Nat.mul_le_mul_right _ hlow

theorem binaryExponent_one {n : Nat} (h : n ≠ 0) : binaryExponent n 1 = n.log2 :=
  (binaryExponent_twoTo h 0).trans (Int.sub_zero _)

/-- The significand of a whole number: its places from the first one on. -/
theorem Holds.exists_significand {n : Int} (h : Holds n) (hn : n ≠ 0) :
    ∃ c, n.natAbs * twoTo 52 = c * twoTo n.natAbs.log2 ∧ twoTo 52 ≤ c ∧ c < twoTo 53
      ∧ n.natAbs.log2 ≤ 1023 := by
  obtain ⟨m, k, hm, hk, habs⟩ := h
  have hm0 : m ≠ 0 := by
    rintro rfl
    rw [Nat.zero_mul] at habs
    exact hn (Int.natAbs_eq_zero.1 habs)
  have hplaces : m.log2 < 53 := (Nat.log2_lt hm0).2 hm
  have hlog : n.natAbs.log2 = m.log2 + k := by
    rw [habs]
    exact log2_mul_twoTo hm0 k
  refine ⟨m * twoTo (52 - m.log2), ?_, ?_, ?_, by omega⟩
  · have hfill : 52 - m.log2 + (m.log2 + k) = k + 52 := by omega
    rw [hlog, habs, Nat.mul_assoc, Nat.mul_assoc, ← twoTo_add, ← twoTo_add, hfill]
  · have hsum : twoTo 52 = twoTo m.log2 * twoTo (52 - m.log2) := by
      rw [← twoTo_add]
      congr 1
      omega
    rw [hsum]
    exact Nat.mul_le_mul_right _ (Nat.log2_self_le hm0)
  · have hsum : twoTo 53 = twoTo (m.log2 + 1) * twoTo (52 - m.log2) := by
      rw [← twoTo_add]
      congr 1
      omega
    rw [hsum]
    exact Nat.mul_lt_mul_of_pos_right Nat.lt_log2_self (twoTo_pos _)

/-- A significand that is full, unless there is no shift, and the shift make a finite
number with just these two. -/
theorem units_ofMagnitude (negative : Bool) {s c : Nat} (hs : s ≤ 2045)
    (hlow : s = 0 ∨ twoTo 52 ≤ c) (hhigh : c < twoTo 53) :
    (ofMagnitude negative (s * magnitudesPerPower + c)).isInfinite = false
      ∧ (ofMagnitude negative (s * magnitudesPerPower + c)).units = c * twoTo s := by
  have htwo : twoTo 53 = 2 * magnitudesPerPower := by decide
  rw [← magnitudesPerPower_eq] at hlow
  rw [htwo] at hhigh
  -- the largest shift and a full significand stay below infinity
  have hbelow : s * magnitudesPerPower + c < infinityMagnitude := by
    unfold magnitudesPerPower infinityMagnitude at *
    omega
  have hmagnitude : (ofMagnitude negative (s * magnitudesPerPower + c)).magnitude
      = s * magnitudesPerPower + c := Nat.min_eq_left hbelow.le
  have hshift : (ofMagnitude negative (s * magnitudesPerPower + c)).shift = s := by
    unfold shift
    rw [hmagnitude]
    unfold magnitudesPerPower at *
    omega
  have hsignificand : (ofMagnitude negative (s * magnitudesPerPower + c)).significand = c := by
    unfold significand
    rw [hmagnitude, hshift, Nat.add_sub_cancel_left]
  refine ⟨?_, by rw [units, hshift, hsignificand]⟩
  unfold isInfinite
  rw [hmagnitude, beq_eq_false_iff_ne]
  exact hbelow.ne

/-- **A whole number that a double holds is not changed by rounding.** -/
theorem toInt?_round {n : Int} (h : Holds n) :
    (round (n < 0) n.natAbs 1).toInt? = some n := by
  by_cases hn : n = 0
  · subst hn
    decide +kernel
  obtain ⟨c, hc, hlow, hhigh, hlog⟩ := h.exists_significand hn
  have hn0 : n.natAbs ≠ 0 := Int.natAbs_ne_zero.2 hn
  have hshift : (max (binaryExponent n.natAbs 1 - 52) (-1074) + 1074).toNat
      = n.natAbs.log2 + 1022 := by
    rw [binaryExponent_one hn0]
    omega
  -- in units of 2⁻¹⁰⁷⁴ the number is its significand, shifted
  have hunits : n.natAbs * unitsPerOne = c * twoTo (n.natAbs.log2 + 1022) := by
    have hparts : unitsPerOne = twoTo 52 * twoTo 1022 := twoTo_add 52 1022
    rw [hparts, ← Nat.mul_assoc, hc, Nat.mul_assoc, ← twoTo_add]
  have hround : round (n < 0) n.natAbs 1
      = ofMagnitude (n < 0) ((n.natAbs.log2 + 1022) * magnitudesPerPower + c) := by
    unfold round
    rw [if_neg hn0]
    simp only [hshift, hunits, Nat.one_mul, divideNearest_exact _ _ (twoTo_pos _)]
  obtain ⟨hfinite, hsame⟩ :=
    units_ofMagnitude (decide (n < 0)) (s := n.natAbs.log2 + 1022) (by omega) (.inr hlow) hhigh
  rw [hround, toInt?_eq_some_iff]
  refine ⟨hfinite, by rw [hsame, hunits], ?_⟩
  show n = if decide (n < 0) then -(n.natAbs : Int) else n.natAbs
  simp only [decide_eq_true_eq]
  omega

/-- The largest odd whole number that is held, and the next odd one, which is not. -/
example : (round false 9007199254740991 1).toInt? = some 9007199254740991
    ∧ (round false 9007199254740993 1).toInt? = some 9007199254740992 := by decide +kernel

end Real64
end EvolvingGraph
