/-
  EvolvingGraph.Proofs.Forest.Weights
  ───────────────────────────────────
  **WEIGHTS AS GRADES, IN ASCENDING ORDER, AND IN TOTAL.**

  Either mode turns weights into grades of which small ones are wanted.  What
  is known of the grades of a best forest then says that its weights, in
  ascending order, are place by place at least as wanted as those of any other
  spanning forest.  The same is true of the exact total: weights are added as
  whole multiples of 2⁻¹⁰⁷⁴, and one that is infinite makes the total infinite;
  where both infinities occur, the negative one prevails.

  Main statements:
    * `Mode.prefers_iff_grade` — a mode prefers what is graded lower;
    * `IsBestForest.weights_preferred` — the weights of a best forest in order;
    * `Mode.prefersTotal_of_forall₂` — what is wanted place by place is wanted in total.
-/
import EvolvingGraph.Proofs.Forest.BestForest
import EvolvingGraph.Forest.Basic

namespace EvolvingGraph

/-! ## §1. Exact values. -/

namespace Real64

theorem units_le_units {x y : Real64} (h : x.magnitude ≤ y.magnitude) : x.units ≤ y.units := by
  obtain hshift | hshift := Nat.eq_or_lt_of_le (show x.shift ≤ y.shift by
    unfold shift
    have hdiv := Nat.div_le_div_right (c := magnitudesPerPower) h
    omega)
  · unfold units significand
    rw [hshift]
    exact Nat.mul_le_mul_right _ (Nat.sub_le_sub_right h _)
  · -- a larger power of two counts for more than any significand
    have hx : x.significand ≤ 2 * magnitudesPerPower := by
      unfold significand shift magnitudesPerPower
      omega
    have hy : magnitudesPerPower ≤ y.significand := by
      unfold significand
      unfold shift magnitudesPerPower at *
      omega
    calc x.units
        = x.significand * 2 ^ x.shift := rfl
      _ ≤ 2 * magnitudesPerPower * 2 ^ x.shift := Nat.mul_le_mul_right _ hx
      _ = magnitudesPerPower * 2 ^ (x.shift + 1) := by rw [pow_succ]; ring
      _ ≤ y.significand * 2 ^ y.shift :=
        Nat.mul_le_mul hy (Nat.pow_le_pow_right Nat.two_pos hshift)

theorem units_eq_zero {x : Real64} (h : x.magnitude = 0) : x.units = 0 := by
  have hsignificand : x.significand = 0 := by rw [significand, h, Nat.zero_sub]
  rw [units, hsignificand, Nat.zero_mul]

theorem signedUnits_le_signedUnits {x y : Real64} (h : x ≤ y) :
    x.signedUnits ≤ y.signedUnits := by
  rw [le_iff_rank] at h
  unfold rank at h
  unfold signedUnits
  cases hx : x.negative <;> cases hy : y.negative <;> simp only [hx, hy, if_true, if_false,
    Bool.false_eq_true] at h ⊢
  · have hunits := units_le_units (x := x) (y := y) (by omega)
    omega
  · have hxzero := units_eq_zero (x := x) (by omega)
    have hyzero := units_eq_zero (x := y) (by omega)
    omega
  · omega
  · have hunits := units_le_units (x := y) (y := x) (by omega)
    omega

/-- The exact value of a number in units of 2⁻¹⁰⁷⁴. -/
def exact (x : Real64) : WithBot (WithTop Int) :=
  if x.isInfinite then if x.negative then ⊥ else ⊤
  else ((x.signedUnits : WithTop Int) : WithBot (WithTop Int))

theorem exact_le_exact {x y : Real64} (h : x ≤ y) : x.exact ≤ y.exact := by
  have hrank := le_iff_rank.1 h
  have hx := x.magnitude_le
  have hy := y.magnitude_le
  unfold rank at hrank
  unfold exact
  by_cases hxinf : x.isInfinite = true <;> by_cases hyinf : y.isInfinite = true <;>
    simp only [hxinf, hyinf, if_true, if_false, Bool.false_eq_true]
  · cases hxneg : x.negative <;> cases hyneg : y.negative <;>
      simp only [hxneg, hyneg, if_true, if_false, Bool.false_eq_true, le_refl, bot_le] at hrank ⊢
    rw [isInfinite, infinityMagnitude, beq_iff_eq] at hxinf hyinf
    omega
  · cases hxneg : x.negative <;>
      simp only [hxneg, if_true, if_false, Bool.false_eq_true, bot_le] at hrank ⊢
    rw [isInfinite, infinityMagnitude, beq_iff_eq] at hxinf hyinf
    split at hrank <;> omega
  · cases hyneg : y.negative <;>
      simp only [hyneg, if_true, if_false, Bool.false_eq_true, le_top] at hrank ⊢
    rw [isInfinite, infinityMagnitude, beq_iff_eq] at hxinf hyinf
    split at hrank <;> omega
  · exact WithBot.coe_le_coe.2 (WithTop.coe_le_coe.2 (signedUnits_le_signedUnits h))

end Real64

namespace Forest

/-! ## §2. Grades. -/

/-- The grade that a mode gives to a weight: small ones are wanted. -/
def Mode.grade : Mode → Real64 → Int
  | .distance, x => x.rank
  | .similarity, x => -x.rank

theorem Mode.prefers_iff_grade {mode : Mode} {x y : Real64} :
    mode.prefers x y = true ↔ mode.grade x ≤ mode.grade y := by
  cases mode with
  | distance => simp [prefers, grade, Real64.le_iff_rank]
  | similarity => simp [prefers, grade, Real64.le_iff_rank]

/-! ## §3. Weights in ascending order. -/

/-- Weights in ascending order. -/
def ascending (weights : List Real64) : List Real64 :=
  weights.mergeSort fun x y => decide (x ≤ y)

theorem ascending_perm (weights : List Real64) : (ascending weights).Perm weights :=
  List.mergeSort_perm weights _

theorem pairwise_ascending (weights : List Real64) : (ascending weights).Pairwise (· ≤ ·) := by
  have hsorted := @List.pairwise_mergeSort _ (fun x y : Real64 => decide (x ≤ y))
    (by
      simp only [decide_eq_true_eq, Real64.le_iff_rank]
      exact fun x y z => Int.le_trans)
    (by
      simp only [Bool.or_eq_true, decide_eq_true_eq, Real64.le_iff_rank]
      exact fun x y => Int.le_total x.rank y.rank) weights
  exact hsorted.imp fun h => by simpa using h

/-- Of two lists with grades that are place by place no worse, in the order of
the grades, so are the weights in ascending order. -/
theorem Mode.forall₂_prefers {mode : Mode} {ws ws' : List Real64}
    (h : ∀ l l' : List Int, l.Perm (ws.map mode.grade) → l'.Perm (ws'.map mode.grade) →
      l.Pairwise (· ≤ ·) → l'.Pairwise (· ≤ ·) → List.Forall₂ (· ≤ ·) l l') :
    List.Forall₂ (fun x y => mode.prefers x y = true) (ascending ws) (ascending ws') := by
  have hperm := fun ws => (ascending_perm ws).map mode.grade
  have hle : List.Forall₂ (· ≤ ·) ((ascending ws).map mode.grade)
      ((ascending ws').map mode.grade) := by
    cases mode with
    | distance =>
      have hsorted : ∀ ws, ((ascending ws).map (grade .distance)).Pairwise (· ≤ ·) :=
        fun ws => List.pairwise_map.2 (pairwise_ascending ws)
      exact h _ _ (hperm ws) (hperm ws') (hsorted ws) (hsorted ws')
    | similarity =>
      -- the grades in order are those of the weights in descending order
      have hsorted : ∀ ws, ((ascending ws).map (grade .similarity)).reverse.Pairwise (· ≤ ·) := by
        intro ws
        rw [List.pairwise_reverse, List.pairwise_map]
        exact (pairwise_ascending ws).imp fun hxy => Int.neg_le_neg hxy
      have hreverse := h _ _ ((List.reverse_perm _).trans (hperm ws))
        ((List.reverse_perm _).trans (hperm ws')) (hsorted ws) (hsorted ws')
      exact List.forall₂_reverse_iff.1 hreverse
  rw [List.forall₂_map_left_iff, List.forall₂_map_right_iff] at hle
  exact hle.imp fun x y hxy => prefers_iff_grade.2 hxy

/-- **The weights of a best forest, in ascending order, are at least as wanted
as those of any other spanning forest, place by place.** -/
theorem IsBestForest.weights_preferred {V E : Type} [DecidableEq V] {ends : E → Sym2 V}
    {weight : E → Real64} {mode : Mode} {edges F F' : List E} {nodes : List V}
    (h : IsBestForest ends (fun e => mode.grade (weight e)) edges F)
    (h' : IsSpanningForest ends edges F') (hwithin : Within ends nodes edges)
    (hnodes : nodes.Nodup) : List.Forall₂ (fun x y => mode.prefers x y = true)
      (ascending (F.map weight)) (ascending (F'.map weight)) := by
  apply Mode.forall₂_prefers
  intro l l' hl hl' hsorted hsorted'
  rw [List.map_map] at hl hl'
  exact h.grades_le h' hwithin hnodes hl hl' hsorted hsorted'

/-! ## §4. Totals. -/

/-- The exact total of weights. -/
def total (weights : List Real64) : WithBot (WithTop Int) := (weights.map Real64.exact).sum

theorem total_ascending (weights : List Real64) : total (ascending weights) = total weights :=
  ((ascending_perm weights).map _).sum_eq

theorem total_le_of_forall₂ {ws ws' : List Real64} (h : List.Forall₂ (· ≤ ·) ws ws') :
    total ws ≤ total ws' := by
  apply List.Forall₂.sum_le_sum
  rw [List.forall₂_map_left_iff, List.forall₂_map_right_iff]
  exact h.imp fun x y hxy => Real64.exact_le_exact hxy

/-- Whether one total is at least as wanted as another. -/
def Mode.PrefersTotal : Mode → WithBot (WithTop Int) → WithBot (WithTop Int) → Prop
  | .distance, x, y => x ≤ y
  | .similarity, x, y => y ≤ x

/-- Weights that are preferred place by place are preferred in total. -/
theorem Mode.prefersTotal_of_forall₂ {mode : Mode} {ws ws' : List Real64}
    (h : List.Forall₂ (fun x y => mode.prefers x y = true) (ascending ws) (ascending ws')) :
    mode.PrefersTotal (total ws) (total ws') := by
  rw [← total_ascending ws, ← total_ascending ws']
  cases mode with
  | distance => exact total_le_of_forall₂ (h.imp fun x y hxy => of_decide_eq_true hxy)
  | similarity => exact total_le_of_forall₂ (h.flip.imp fun x y hxy => of_decide_eq_true hxy)

end Forest
end EvolvingGraph
