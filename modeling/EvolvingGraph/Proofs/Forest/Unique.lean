/-
  EvolvingGraph.Proofs.Forest.Unique
  ──────────────────────────────────
  **WITHOUT EQUAL GRADES THERE IS ONE BEST FOREST.**

  If no two edges have the same grade, the edges by which a best forest joins
  the ends of an edge it does not have are all graded better.  Another best
  forest joins the ends of each of these by edges graded as well, so it cannot
  have the edge either without a cycle.  Hence two best forests have the same
  edges, also when the edges are given in another order or as the edges of
  another graph that can be told apart by the same marks.

  Main statements:
    * `IsBestForest.mem_iff` — two best forests of the same edges;
    * `IsBestForest.mem_map_mark_iff` — best forests of edges that correspond.
-/
import EvolvingGraph.Proofs.Forest.BestForest

namespace EvolvingGraph.Forest

variable {V E : Type} {ends : E → Sym2 V} {grade : E → Int} {edges F F' : List E}

/-! ## §1. The same edges. -/

/-- Without an edge, the others of a forest do not join its ends. -/
theorem Acyclic.not_joined (h : Acyclic ends F) {e : E} {a b : V} (he : e ∈ F)
    (hends : ends e = s(a, b)) {others : List E} (hsub : others ⊆ F) (hnot : e ∉ others) :
    ¬Joined ends others a b := by
  have hcons : e :: others ⊆ F := List.cons_subset.2 ⟨he, hsub⟩
  exact ((acyclic_cons_iff hends hnot).1 (h.mono hcons)).1

namespace IsBestForest

/-- An edge of a best forest is one of every other best forest. -/
theorem subset_of_distinct (h : IsBestForest ends grade edges F)
    (h' : IsBestForest ends grade edges F') (hdistinct : (edges.map grade).Nodup) : F ⊆ F' := by
  intro e he
  by_contra hnot
  obtain ⟨a, b, hends⟩ := exists_ends ends e
  -- what joins its ends over there is graded better, as no other edge has its grade
  have hbetter : ∀ d ∈ upTo grade (grade e) F', grade d < grade e := by
    intro d hd
    obtain ⟨hdF', hle⟩ := mem_upTo.1 hd
    refine lt_of_le_of_ne hle fun hsame => hnot ?_
    rw [← List.inj_on_of_nodup_map hdistinct (h'.subset hdF') (h.subset he) hsame]
    exact hdF'
  have hjoined : Joined ends (upTo grade (grade e - 1) F) a b := by
    apply (h'.bottleneck e (h.subset he) a b hends).of_forall_joined
    intro d hd x y hxy
    have hlt := hbetter d hd
    apply (h.bottleneck d (h'.subset (upTo_subset _ F' hd)) x y hxy).mono
    exact upTo_subset_upTo (by omega) (List.Subset.refl F)
  refine h.acyclic.not_joined he hends (upTo_subset _ F) (fun hmem => ?_) hjoined
  have hle := (mem_upTo.1 hmem).2
  omega

/-- **Where no two edges have the same grade, best forests have the same edges.** -/
theorem mem_iff (h : IsBestForest ends grade edges F) (h' : IsBestForest ends grade edges F')
    (hdistinct : (edges.map grade).Nodup) (e : E) : e ∈ F ↔ e ∈ F' :=
  ⟨fun he => h.subset_of_distinct h' hdistinct he, fun he => h'.subset_of_distinct h hdistinct he⟩

/-! ## §2. Edges that correspond. -/

variable {E' K : Type} {ends' : E' → Sym2 V} {grade' : E' → Int} {edges' F'' : List E'}
  {mark : E → K} {mark' : E' → K}

/-- Best forests of edges that correspond have edges of the same marks. -/
theorem mem_map_mark_iff [Nonempty E] (h : IsBestForest ends grade edges F)
    (h' : IsBestForest ends' grade' edges' F'') (hdistinct : (edges.map grade).Nodup)
    (hmark : (edges.map mark).Nodup) (hmark' : (edges'.map mark').Nodup)
    (hthere : ∀ e ∈ edges, ∃ e' ∈ edges', mark' e' = mark e)
    (hback : ∀ e' ∈ edges', ∃ e ∈ edges, mark e = mark' e' ∧ ends e = ends' e'
      ∧ grade e = grade' e') (k : K) : k ∈ F.map mark ↔ k ∈ F''.map mark' := by
  choose! f hmem hkept hends hgrade using hback
  have hmarks : ∀ l : List E', l ⊆ edges' → (l.map f).map mark = l.map mark' := by
    intro l hl
    rw [List.map_map]
    exact List.map_congr_left fun e he => hkept e (hl he)
  have himage : ∀ e, e ∈ edges ↔ e ∈ edges'.map f := by
    intro e
    rw [List.mem_map]
    constructor
    · intro he
      obtain ⟨e', he', hsame⟩ := hthere e he
      exact ⟨e', he', List.inj_on_of_nodup_map hmark (hmem e' he') he
        ((hkept e' he').trans hsame)⟩
    · rintro ⟨e', he', rfl⟩
      exact hmem e' he'
  have hnodup : (edges'.map f).Nodup := by
    apply List.Nodup.of_map mark
    rw [hmarks edges' (List.Subset.refl _)]
    exact hmark'
  -- the forest there, seen as one of the edges here, is the forest here
  have hmapped := h'.map hends hgrade hnodup
  have hsame := h.mem_iff (hmapped.of_mem_iff himage (fun _ => Iff.rfl) hmapped.nodup) hdistinct
  rw [← hmarks F'' h'.subset, List.mem_map, List.mem_map]
  exact exists_congr fun e => and_congr_left' (hsame e)

end IsBestForest
end EvolvingGraph.Forest
