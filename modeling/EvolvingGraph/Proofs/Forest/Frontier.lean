/-
  EvolvingGraph.Proofs.Forest.Frontier
  ────────────────────────────────────
  **GROWTH WITH A HEAP OF THE EDGES THAT MAY LEAD ON.**

  The usual way to grow a tree keeps the edges at the nodes reached on a heap.
  The best edge is popped; if both its ends are reached by now it is discarded,
  and otherwise it is taken and the edges at the new node are pushed that lead
  on.  When the heap is empty, a new tree is begun at a node not yet reached,
  with all its edges on the heap.  The heap may hand out equal edges in any
  order, and trees may begin anywhere.

  Main statements:
    * `HeapRun.growth` — such a run grows trees; the heap misses no edge;
    * `HeapRun.isBestForest` — the edges taken make a best forest;
    * `exists_heapRun` — no run is without an end.
-/
import EvolvingGraph.Proofs.Forest.Growth

namespace EvolvingGraph.Forest

/-! ## §1. Runs with a heap. -/

/-- The runs of growth with a heap, from the nodes reached and what the heap
holds, with the edges taken on the way. -/
inductive HeapRun (mode : Mode) (edges : List WeightedEdge) (nodes : List Key) :
    Set Key → List WeightedEdge → List WeightedEdge → Prop where
  | done {reached : Set Key} {heap : List WeightedEdge} (all : ∀ k ∈ nodes, k ∈ reached) :
      HeapRun mode edges nodes reached heap []
  | restart {reached : Set Key} {heap rest : List WeightedEdge} {k : Key} (start : k ∈ nodes)
      (new : k ∉ reached) (pushed : ∀ f, f ∈ heap ↔ f ∈ edges ∧ k ∈ f.ends)
      (more : HeapRun mode edges nodes (insert k reached) heap rest) :
      HeapRun mode edges nodes reached [] rest
  | discard {reached : Set Key} {heap heap' rest : List WeightedEdge} {e : WeightedEdge}
      (popped : heap.Perm (e :: heap')) (best : ∀ f ∈ heap, e.grade mode ≤ f.grade mode)
      (inside : ∀ k ∈ e.ends, k ∈ reached) (more : HeapRun mode edges nodes reached heap' rest) :
      HeapRun mode edges nodes reached heap rest
  | take {reached : Set Key} {heap heap' pushed rest : List WeightedEdge} {e : WeightedEdge}
      {u v : Key} (popped : heap.Perm (e :: heap'))
      (best : ∀ f ∈ heap, e.grade mode ≤ f.grade mode) (leads : Leads reached e u v)
      (new : ∀ f, f ∈ pushed ↔ f ∈ edges ∧ ∃ w, Leads (insert v reached) f v w)
      (more : HeapRun mode edges nodes (insert v reached) (heap' ++ pushed) rest) :
      HeapRun mode edges nodes reached heap (e :: rest)

variable {mode : Mode} {edges heap rest chosen : List WeightedEdge} {nodes : List Key}
  {reached : Set Key}

/-- A run with a heap grows trees, as long as the heap holds every edge that leads on. -/
theorem HeapRun.growth (h : HeapRun mode edges nodes reached heap rest) (hheap : heap ⊆ edges)
    (hleads : ∀ f ∈ edges, ∀ x y, Leads reached f x y → f ∈ heap) :
    Growth mode edges nodes reached rest := by
  -- the heap may hold more than leads on, but never less
  induction h with
  | done all => exact .done all
  | restart start new pushed more ih =>
    have hstuck := fun f hf x y hfx => List.not_mem_nil (hleads f hf x y hfx)
    refine .restart hstuck start new (ih (fun f hf => ((pushed f).1 hf).1) ?_)
    intro f hf x y hfx
    obtain rfl | hfx' := Grown.leads_of_leads_insert hfx
    · refine (pushed f).2 ⟨hf, ?_⟩
      rw [hfx.ends]
      exact Sym2.mem_mk_left x y
    · exact absurd hfx' (hstuck f hf x y)
  | @discard reached heap heap' rest e popped best inside more ih =>
    apply ih
    · exact fun f hf => hheap (popped.mem_iff.2 (List.mem_cons_of_mem e hf))
    · intro f hf x y hfx
      obtain rfl | hmem := List.mem_cons.1 (popped.mem_iff.1 (hleads f hf x y hfx))
      · refine absurd (inside y ?_) hfx.right
        rw [hfx.ends]
        exact Sym2.mem_mk_right x y
      · exact hmem
  | @take reached heap heap' pushed rest e u v popped best leads new more ih =>
    have he : e ∈ heap := popped.mem_iff.2 List.mem_cons_self
    refine .take (hheap he) leads (fun f hf x y hfx => best f (hleads f hf x y hfx)) (ih ?_ ?_)
    · intro f hf
      obtain hf | hf := List.mem_append.1 hf
      · exact hheap (popped.mem_iff.2 (List.mem_cons_of_mem e hf))
      · exact ((new f).1 hf).1
    · intro f hf x y hfx
      obtain rfl | hfx' := Grown.leads_of_leads_insert hfx
      · exact List.mem_append_right _ ((new f).2 ⟨hf, y, hfx⟩)
      · obtain rfl | hmem := List.mem_cons.1 (popped.mem_iff.1 (hleads f hf x y hfx'))
        · -- both ends of the edge taken are reached now
          have hy : y ∈ f.ends := by
            rw [hfx.ends]
            exact Sym2.mem_mk_right x y
          rw [leads.ends, Sym2.mem_iff] at hy
          obtain rfl | rfl := hy
          · exact absurd (Set.mem_insert_of_mem v leads.left) hfx.right
          · exact absurd (Set.mem_insert y reached) hfx.right
        · exact List.mem_append_left _ hmem

/-- **Growth with a heap makes a best forest.** -/
theorem HeapRun.isBestForest (h : HeapRun mode edges nodes ∅ [] chosen)
    (hwithin : Within WeightedEdge.ends nodes edges) :
    IsBestForest WeightedEdge.ends (·.grade mode) edges chosen := by
  apply Growth.isBestForest _ hwithin
  apply h.growth (List.nil_subset edges)
  exact fun f _ x y hfx => absurd hfx.left (Set.notMem_empty x)

/-! ## §2. Runs come to an end. -/

/-- The nodes still to be reached become fewer with each one that is. -/
theorem card_sdiff_insert_lt {reached : Finset Key} {k : Key} (hk : k ∈ nodes)
    (hnew : k ∉ reached) :
    (nodes.toFinset \ insert k reached).card < (nodes.toFinset \ reached).card := by
  apply Finset.card_lt_card
  have hsub := Finset.sdiff_subset_sdiff (Finset.Subset.refl nodes.toFinset)
    (Finset.subset_insert k reached)
  rw [Finset.ssubset_iff_of_subset hsub]
  exact ⟨k, by simp [hk, hnew], by simp⟩

/-- Some best edge of a heap can be popped. -/
theorem exists_popped (mode : Mode) (hheap : heap ≠ []) : ∃ e heap', heap.Perm (e :: heap')
    ∧ ∀ f ∈ heap, e.grade mode ≤ f.grade mode := by
  cases hbest : best? mode heap with
  | none => exact absurd (best?_eq_none hbest) hheap
  | some e =>
    obtain ⟨before, after, hsplit⟩ := List.append_of_mem (best?_mem hbest)
    refine ⟨e, before ++ after, ?_, best?_grade_le hbest⟩
    rw [hsplit]
    exact List.perm_middle

/-- Edges of the graph, each with an end among the nodes reached. -/
def AtReached (edges : List WeightedEdge) (reached : Set Key) (heap : List WeightedEdge) : Prop :=
  heap ⊆ edges ∧ ∀ e ∈ heap, ∃ k ∈ e.ends, k ∈ reached

/-- The edges at a node at which a tree is begun. -/
theorem atReached_filter (edges : List WeightedEdge) (reached : Set Key) (k : Key)
    [DecidablePred fun f : WeightedEdge => k ∈ f.ends] :
    AtReached edges (insert k reached) (edges.filter fun f => k ∈ f.ends) := by
  refine ⟨List.filter_subset_self _, fun e he => ⟨k, ?_, Set.mem_insert k reached⟩⟩
  simpa using (List.mem_filter.1 he).2

/-- The edges left when one has been taken, and those that lead on from its end. -/
theorem AtReached.take {heap' pushed : List WeightedEdge} {v : Key}
    (h : AtReached edges reached heap) (hsub : heap' ⊆ heap)
    (hpushed : ∀ f ∈ pushed, f ∈ edges ∧ ∃ w, Leads (insert v reached) f v w) :
    AtReached edges (insert v reached) (heap' ++ pushed) := by
  refine ⟨List.append_subset.2 ⟨fun f hf => h.1 (hsub hf), fun f hf => (hpushed f hf).1⟩, ?_⟩
  intro f hf
  obtain hf | hf := List.mem_append.1 hf
  · obtain ⟨k, hk, hreached⟩ := h.2 f (hsub hf)
    exact ⟨k, hk, Set.mem_insert_of_mem v hreached⟩
  · obtain ⟨w, hw⟩ := (hpushed f hf).2
    refine ⟨v, ?_, Set.mem_insert v reached⟩
    rw [hw.ends]
    exact Sym2.mem_mk_left v w

/-- Wherever a run stands, it can be brought to its end: a node is reached, or
the heap becomes smaller. -/
theorem exists_heapRun_from (hwithin : Within WeightedEdge.ends nodes edges) (left : Nat) :
    ∀ (reached : Finset Key) (heap : List WeightedEdge),
      (nodes.toFinset \ reached).card ≤ left → AtReached edges reached heap →
      ∃ rest, HeapRun mode edges nodes reached heap rest := by
  classical
  induction left with
  | zero =>
    intro reached heap hleft _
    refine ⟨[], .done fun k hk => ?_⟩
    rw [Nat.le_zero, Finset.card_eq_zero, Finset.sdiff_eq_empty_iff_subset] at hleft
    exact hleft (List.mem_toFinset.2 hk)
  | succ left ih =>
    -- as long as no node is reached, it is the heap that becomes smaller
    intro reached heap hleft
    obtain ⟨steps, hsteps⟩ : ∃ steps, heap.length = steps := ⟨_, rfl⟩
    induction steps generalizing heap with
    | zero =>
      intro _
      rw [List.eq_nil_of_length_eq_zero hsteps]
      by_cases hall : ∀ k ∈ nodes, k ∈ reached
      · exact ⟨[], .done hall⟩
      · push Not at hall
        obtain ⟨k, hk, hnew⟩ := hall
        have hless := card_sdiff_insert_lt hk hnew
        have hbegun := atReached_filter edges reached k
        rw [← Finset.coe_insert] at hbegun
        obtain ⟨rest, hrest⟩ := ih _ _ (by omega) hbegun
        rw [Finset.coe_insert] at hrest
        exact ⟨rest, .restart hk hnew (by simp) hrest⟩
    | succ steps ihsteps =>
      intro hheap
      have hne : heap ≠ [] := List.ne_nil_of_length_eq_add_one hsteps
      obtain ⟨e, heap', hpopped, hbest⟩ := exists_popped mode hne
      have he : e ∈ heap := hpopped.mem_iff.2 List.mem_cons_self
      have hsub : heap' ⊆ heap := fun f hf => hpopped.mem_iff.2 (List.mem_cons_of_mem e hf)
      by_cases hinside : ∀ k ∈ e.ends, k ∈ reached
      · have hlength := hpopped.length_eq
        rw [List.length_cons] at hlength
        obtain ⟨rest, hrun⟩ := ihsteps heap' (by omega)
          ⟨fun f hf => hheap.1 (hsub hf), fun f hf => hheap.2 f (hsub hf)⟩
        exact ⟨rest, .discard hpopped hbest hinside hrun⟩
      · push Not at hinside
        obtain ⟨v, hv, hnew⟩ := hinside
        obtain ⟨u, hu, hreached⟩ := hheap.2 e he
        have hne : u ≠ v := by
          rintro rfl
          exact hnew hreached
        have hends : e.ends = s(u, v) := (Sym2.mem_and_mem_iff hne).1 ⟨hu, hv⟩
        have hless := card_sdiff_insert_lt (hwithin e (hheap.1 he) v hv) hnew
        have hpushed : ∀ f ∈ edges.filter fun f => ∃ w, Leads (insert v (reached : Set Key)) f v w,
            f ∈ edges ∧ ∃ w, Leads (insert v (reached : Set Key)) f v w := by simp
        have htaken := hheap.take hsub hpushed
        rw [← Finset.coe_insert] at htaken
        obtain ⟨rest, hrun⟩ := ih _ _ (by omega) htaken
        rw [Finset.coe_insert] at hrun
        exact ⟨e :: rest, .take hpopped hbest ⟨hends, hreached, hnew⟩ (by simp) hrun⟩

/-- Growth with a heap always comes to an end. -/
theorem exists_heapRun (hwithin : Within WeightedEdge.ends nodes edges) :
    ∃ chosen, HeapRun mode edges nodes ∅ [] chosen := by
  obtain ⟨chosen, h⟩ := exists_heapRun_from hwithin nodes.toFinset.card ∅ []
    (by simp) ⟨List.nil_subset edges, by simp⟩
  rw [Finset.coe_empty] at h
  exact ⟨chosen, h⟩

end EvolvingGraph.Forest
