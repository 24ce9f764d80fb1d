/-
  EvolvingGraph.Proofs.Forest.BestForest
  ──────────────────────────────────────
  **FORESTS THAT NO OTHER FOREST BEATS.**

  Edges have grades, of which small ones are wanted.  A best forest joins the
  ends of each edge by edges that are graded no worse than it.  So it has, up to
  any grade, at least as many edges as any edges without a cycle have; therefore
  its grades in order are, place by place, no worse than those of any other
  spanning forest, and all best forests have the same grades.

  Main statements:
    * `IsBestForest.length_upTo_le` — more good edges than anyone else;
    * `IsBestForest.grades_le` — place by place the least grades;
    * `IsBestForest.perm_grades` — best forests agree on their grades;
    * `IsSpanningForest.length_add_componentCount` — the size of a spanning forest.
-/
import EvolvingGraph.Proofs.Forest.Components

namespace EvolvingGraph.Forest

variable {V E : Type} {ends : E → Sym2 V} {grade : E → Int} {edges F F' : List E} {nodes : List V}

/-! ## §1. Spanning forests. -/

/-- Some of the edges, without a cycle, that join what all edges join. -/
structure IsSpanningForest (ends : E → Sym2 V) (edges F : List E) : Prop where
  subset : F ⊆ edges
  nodup : F.Nodup
  acyclic : Acyclic ends F
  spans : ∀ a b, Joined ends edges a b → Joined ends F a b

namespace IsSpanningForest

theorem joined_iff (h : IsSpanningForest ends edges F) {a b : V} :
    Joined ends F a b ↔ Joined ends edges a b := ⟨fun hab => hab.mono h.subset, h.spans a b⟩

/-- A spanning forest has an edge for each node but one of every component. -/
theorem length_add_componentCount [DecidableEq V] (h : IsSpanningForest ends edges F)
    (hwithin : Within ends nodes edges) (hnodes : nodes.Nodup) :
    F.length + componentCount ends edges nodes = nodes.length := by
  have hsame : componentCount ends edges nodes = componentCount ends F nodes :=
    Nat.le_antisymm (componentCount_le fun _ _ => h.joined_iff.1) (componentCount_le h.spans)
  rw [hsame]
  exact h.acyclic.length_add_componentCount h.nodup (hwithin.mono h.subset) hnodes

theorem length_eq [DecidableEq V] (h : IsSpanningForest ends edges F)
    (h' : IsSpanningForest ends edges F') (hwithin : Within ends nodes edges)
    (hnodes : nodes.Nodup) : F.length = F'.length := by
  have hcount := h.length_add_componentCount hwithin hnodes
  have hcount' := h'.length_add_componentCount hwithin hnodes
  omega

end IsSpanningForest

/-! ## §2. Best forests. -/

/-- The edges of at most a grade. -/
def upTo (grade : E → Int) (t : Int) (es : List E) : List E := es.filter (grade · ≤ t)

theorem mem_upTo {t : Int} {es : List E} {e : E} : e ∈ upTo grade t es ↔ e ∈ es ∧ grade e ≤ t := by
  simp [upTo]

theorem upTo_subset (t : Int) (es : List E) : upTo grade t es ⊆ es :=
  fun _ he => (mem_upTo.1 he).1

theorem upTo_subset_upTo {s t : Int} (h : s ≤ t) {es fs : List E} (hsub : es ⊆ fs) :
    upTo grade s es ⊆ upTo grade t fs := by
  intro e he
  obtain ⟨hmem, hle⟩ := mem_upTo.1 he
  exact mem_upTo.2 ⟨hsub hmem, hle.trans h⟩

/-- Some of the edges, without a cycle, that join the ends of each edge by
edges that are graded no worse. -/
structure IsBestForest (ends : E → Sym2 V) (grade : E → Int) (edges F : List E) : Prop where
  subset : F ⊆ edges
  nodup : F.Nodup
  acyclic : Acyclic ends F
  bottleneck : ∀ e ∈ edges, ∀ a b, ends e = s(a, b) → Joined ends (upTo grade (grade e) F) a b

namespace IsBestForest

theorem isSpanningForest (h : IsBestForest ends grade edges F) :
    IsSpanningForest ends edges F where
  subset := h.subset
  nodup := h.nodup
  acyclic := h.acyclic
  spans := by
    intro a b hab
    apply hab.of_forall_joined
    intro e he a b hends
    exact (h.bottleneck e he a b hends).mono (upTo_subset _ F)

/-- Up to any grade, no edges without a cycle are more than those of a best forest. -/
theorem length_upTo_le [DecidableEq V] (h : IsBestForest ends grade edges F) (hsub : F' ⊆ edges)
    (hnodup : F'.Nodup) (hacyclic : Acyclic ends F') (hwithin : Within ends nodes edges)
    (hnodes : nodes.Nodup) (t : Int) : (upTo grade t F').length ≤ (upTo grade t F).length := by
  have hF' : upTo grade t F' ⊆ edges := fun e he => hsub (upTo_subset t F' he)
  have hF : upTo grade t F ⊆ edges := fun e he => h.subset (upTo_subset t F he)
  apply (hacyclic.mono (upTo_subset t F')).length_le (hnodup.filter _) (hwithin.mono hF')
    (hwithin.mono hF) hnodes
  intro e he a b hends
  exact (h.bottleneck e (hF' he) a b hends).mono
    (upTo_subset_upTo (mem_upTo.1 he).2 (List.Subset.refl F))

end IsBestForest

/-! ## §3. Grades in order. -/

theorem countP_le_eq_zero {l : List Int} {t : Int} (h : ∀ x ∈ l, t < x) :
    l.countP (· ≤ t) = 0 := by
  rw [List.countP_eq_zero]
  intro x hx
  simpa using h x hx

/-- A sorted list with at least as many entries up to any bound is no larger anywhere. -/
theorem forall₂_le_of_countP_le {l l' : List Int} (hl : l.Pairwise (· ≤ ·))
    (hl' : l'.Pairwise (· ≤ ·)) (hlength : l.length = l'.length)
    (hcount : ∀ t : Int, l'.countP (· ≤ t) ≤ l.countP (· ≤ t)) : List.Forall₂ (· ≤ ·) l l' := by
  induction l generalizing l' with
  | nil => rw [List.eq_nil_of_length_eq_zero hlength.symm]; exact .nil
  | cons x l ih =>
    cases l' with
    | nil => exact absurd hlength (by simp)
    | cons y l' =>
      obtain ⟨hx, hl⟩ := List.pairwise_cons.1 hl
      obtain ⟨hy, hl'⟩ := List.pairwise_cons.1 hl'
      have hxy : x ≤ y := by
        -- the second list has an entry up to y, so the first one has one too
        by_contra hlt
        have hzero : (x :: l).countP (· ≤ y) = 0 := by
          apply countP_le_eq_zero
          intro z hz
          obtain rfl | hz := List.mem_cons.1 hz
          · omega
          · have := hx z hz
            omega
        have hone := hcount y
        rw [hzero, List.countP_cons_of_pos (by simp)] at hone
        omega
      refine .cons hxy (ih hl hl' (by simpa using hlength) fun t => ?_)
      -- either both first entries count, or nothing of the second list does
      have ht := hcount t
      by_cases hyt : y ≤ t
      · rw [List.countP_cons_of_pos (by simpa using hyt),
          List.countP_cons_of_pos (by simpa using hxy.trans hyt)] at ht
        omega
      · have hzero : l'.countP (· ≤ t) = 0 := by
          apply countP_le_eq_zero
          intro z hz
          have := hy z hz
          omega
        rw [hzero]
        exact Nat.zero_le _

theorem length_upTo_eq_countP {l : List Int} (h : l.Perm (F.map grade)) (t : Int) :
    (upTo grade t F).length = l.countP (· ≤ t) := by
  rw [h.countP_eq, List.countP_map, List.countP_eq_length_filter]
  rfl

theorem countP_le_eq (l : List Int) (t : Int) :
    l.countP (· ≤ t) = l.countP (· ≤ t - 1) + l.count t := by
  induction l with
  | nil => rfl
  | cons x l ih =>
    simp only [List.countP_cons, List.count_cons, ih, decide_eq_true_eq, beq_iff_eq]
    split_ifs <;> omega

namespace IsBestForest

/-- The grades of a best forest, in order, are no larger anywhere than those of
another spanning forest. -/
theorem grades_le [DecidableEq V] (h : IsBestForest ends grade edges F)
    (h' : IsSpanningForest ends edges F') (hwithin : Within ends nodes edges)
    (hnodes : nodes.Nodup) {l l' : List Int} (hl : l.Perm (F.map grade))
    (hl' : l'.Perm (F'.map grade)) (hsorted : l.Pairwise (· ≤ ·)) (hsorted' : l'.Pairwise (· ≤ ·)) :
    List.Forall₂ (· ≤ ·) l l' := by
  apply forall₂_le_of_countP_le hsorted hsorted'
  · rw [hl.length_eq, hl'.length_eq, List.length_map, List.length_map]
    exact h.isSpanningForest.length_eq h' hwithin hnodes
  · intro t
    rw [← length_upTo_eq_countP hl, ← length_upTo_eq_countP hl']
    exact h.length_upTo_le h'.subset h'.nodup h'.acyclic hwithin hnodes t

/-- All best forests have the same grades. -/
theorem perm_grades [DecidableEq V] (h : IsBestForest ends grade edges F)
    (h' : IsBestForest ends grade edges F') (hwithin : Within ends nodes edges)
    (hnodes : nodes.Nodup) : (F.map grade).Perm (F'.map grade) := by
  have hsame : ∀ t : Int, (F.map grade).countP (· ≤ t) = (F'.map grade).countP (· ≤ t) := by
    intro t
    rw [← length_upTo_eq_countP (.refl _), ← length_upTo_eq_countP (.refl _)]
    apply Nat.le_antisymm
    · exact h'.length_upTo_le h.subset h.nodup h.acyclic hwithin hnodes t
    · exact h.length_upTo_le h'.subset h'.nodup h'.acyclic hwithin hnodes t
  -- how often a grade occurs is the difference of two counts up to a bound
  rw [List.perm_iff_count]
  intro t
  have ht := hsame t
  have hbefore := hsame (t - 1)
  rw [countP_le_eq (F.map grade), countP_le_eq (F'.map grade)] at ht
  omega

end IsBestForest

/-! ## §4. Images. -/

namespace IsBestForest

variable {E' : Type} {ends' : E' → Sym2 V} {grade' : E' → Int} {f : E → E'}

/-- In which order the edges are listed does not matter. -/
theorem of_mem_iff {edges' : List E} (h : IsBestForest ends grade edges F)
    (hedges : ∀ e, e ∈ edges' ↔ e ∈ edges) (hF : ∀ e, e ∈ F' ↔ e ∈ F) (hnodup : F'.Nodup) :
    IsBestForest ends grade edges' F' where
  subset := fun e he => (hedges e).2 (h.subset ((hF e).1 he))
  nodup := hnodup
  acyclic := h.acyclic.mono fun e he => (hF e).1 he
  bottleneck := by
    intro e he a b hends
    apply (h.bottleneck e ((hedges e).1 he) a b hends).mono
    exact upTo_subset_upTo le_rfl fun e he => (hF e).2 he

/-- Edges can be replaced by others with the same ends and grades. -/
theorem map (h : IsBestForest ends grade edges F) (hends : ∀ e ∈ edges, ends' (f e) = ends e)
    (hgrade : ∀ e ∈ edges, grade' (f e) = grade e) (hnodup : (edges.map f).Nodup) :
    IsBestForest ends' grade' (edges.map f) (F.map f) where
  subset := List.map_subset f h.subset
  nodup := by
    refine h.nodup.map_on fun e he e' he' heq => ?_
    exact List.inj_on_of_nodup_map hnodup (h.subset he) (h.subset he') heq
  acyclic := h.acyclic.map fun e he => hends e (h.subset he)
  bottleneck := by
    intro e' he' a b hab
    obtain ⟨e, he, rfl⟩ := List.mem_map.1 he'
    have hjoined := h.bottleneck e he a b ((hends e he).symm.trans hab)
    have hsub : upTo grade (grade e) F ⊆ edges :=
      fun d hd => h.subset (upTo_subset _ F hd)
    -- the walk within the bound is mapped, and its edges keep their grades
    apply (hjoined.map fun d hd => hends d (hsub hd)).mono
    intro d' hd'
    obtain ⟨d, hd, rfl⟩ := List.mem_map.1 hd'
    obtain ⟨hdF, hle⟩ := mem_upTo.1 hd
    refine mem_upTo.2 ⟨List.mem_map_of_mem hdF, ?_⟩
    rw [hgrade d (h.subset hdF), hgrade e he]
    exact hle

end IsBestForest

end EvolvingGraph.Forest
