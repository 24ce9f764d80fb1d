/-
  EvolvingGraph.Proofs.Forest.Scan
  ────────────────────────────────
  **THE SCAN IN THE ORDER OF THE WEIGHTS TAKES A BEST FOREST.**

  The scan keeps labels for what the edges taken so far join.  An edge that is
  passed over has its ends joined by edges taken before it, and these are graded
  no worse; an edge that is taken joins what was not joined.  Both stay so when
  more edges are taken.

  An edge from a node to itself is never taken, and sorting keeps the order of the
  others.  So it makes no difference whether such edges are offered.

  Main statements:
    * `isBestForest_kruskal` — the scan takes a best forest;
    * `kruskal_filter_isLoop` — loops may be offered or not.
-/
import EvolvingGraph.Proofs.Forest.Weights
import EvolvingGraph.Forest.Kruskal

namespace EvolvingGraph.Forest

/-- The ends of a weighted edge, in no order. -/
def WeightedEdge.ends (e : WeightedEdge) : Sym2 Key := s(e.a, e.b)

/-- The grade that a mode gives to a weighted edge. -/
def WeightedEdge.grade (mode : Mode) (e : WeightedEdge) : Int := mode.grade e.weight

/-! ## §1. The order of the scan. -/

theorem prefers_trans (mode : Mode) (d e f : WeightedEdge) :
    mode.prefers d.weight e.weight = true → mode.prefers e.weight f.weight = true →
      mode.prefers d.weight f.weight = true := by
  simp only [Mode.prefers_iff_grade]
  exact Int.le_trans

theorem prefers_either (mode : Mode) (e f : WeightedEdge) :
    (mode.prefers e.weight f.weight || mode.prefers f.weight e.weight) = true := by
  rw [Bool.or_eq_true]
  exact mode.prefers_total e.weight f.weight

theorem byWeight_perm (mode : Mode) (edges : List WeightedEdge) :
    (byWeight mode edges).Perm edges := List.mergeSort_perm edges _

theorem pairwise_byWeight (mode : Mode) (edges : List WeightedEdge) :
    (byWeight mode edges).Pairwise fun e f => e.grade mode ≤ f.grade mode := by
  have hsorted := List.pairwise_mergeSort (prefers_trans mode) (prefers_either mode) edges
  exact hsorted.imp fun h => Mode.prefers_iff_grade.1 h

/-- In front of a list, an element is sorted in before all that it may precede. -/
theorem mergeSort_cons_eq {α : Type} {le : α → α → Bool}
    (trans : ∀ a b c, le a b = true → le b c = true → le a c = true)
    (total : ∀ a b, (le a b || le b a) = true) (a : α) (as : List α) :
    (a :: as).mergeSort le
      = (as.mergeSort le).filter (!le a ·) ++ a :: (as.mergeSort le).filter (le a ·) := by
  obtain ⟨before, after, hcons, hrest, hbefore⟩ := List.mergeSort_cons trans total a as
  have hafter : ∀ b ∈ after, le a b = true := by
    have hsorted := List.pairwise_mergeSort trans total (a :: as)
    rw [hcons, List.pairwise_append] at hsorted
    exact (List.pairwise_cons.1 hsorted.2.1).1
  have hnotAfter : after.filter (!le a ·) = [] :=
    List.filter_eq_nil_iff.2 fun b hb => by simp [hafter b hb]
  have hnotBefore : before.filter (le a ·) = [] :=
    List.filter_eq_nil_iff.2 fun b hb => by simpa using hbefore b hb
  rw [hcons, hrest, List.filter_append, List.filter_append, List.filter_eq_self.2 hbefore,
    List.filter_eq_self.2 hafter, hnotAfter, hnotBefore, List.append_nil, List.nil_append]

/-- **What is left out before sorting may as well be left out after it.** -/
theorem filter_mergeSort {α : Type} {le : α → α → Bool}
    (trans : ∀ a b c, le a b = true → le b c = true → le a c = true)
    (total : ∀ a b, (le a b || le b a) = true) (p : α → Bool) (as : List α) :
    (as.mergeSort le).filter p = (as.filter p).mergeSort le := by
  induction as with
  | nil => rw [List.mergeSort_nil, List.filter_nil, List.mergeSort_nil]
  | cons a as ih =>
    cases ha : p a with
    | false =>
      obtain ⟨before, after, hcons, hrest, -⟩ := List.mergeSort_cons trans total a as
      rw [List.filter_cons_of_neg (by simp [ha]), ← ih, hcons, hrest, List.filter_append,
        List.filter_append, List.filter_cons_of_neg (by simp [ha])]
    | true =>
      rw [List.filter_cons_of_pos ha, mergeSort_cons_eq trans total,
        mergeSort_cons_eq trans total, ← ih, List.filter_append, List.filter_cons_of_pos ha]
      simp only [List.filter_filter, Bool.and_comm]

/-! ## §2. The scan. -/

variable {mode : Mode} {p : Partition} {taken rest : List WeightedEdge}

theorem labels_discrete : Labels WeightedEdge.ends [] Partition.discrete.label := labels_nil

/-- The labels after an edge has been taken. -/
theorem labels_merge (h : Labels WeightedEdge.ends taken p.label) (e : WeightedEdge) :
    Labels WeightedEdge.ends (e :: taken) (p.merge e.a e.b).label := h.merge rfl

theorem connected_iff (h : Labels WeightedEdge.ends taken p.label) {a b : Key} :
    p.connected a b = true ↔ Joined WeightedEdge.ends taken a b := by
  rw [Partition.connected, beq_iff_eq]
  exact h a b

/-- What the scan takes makes no cycle with what was taken before. -/
theorem acyclic_scan (hlabels : Labels WeightedEdge.ends taken p.label)
    (hacyclic : Acyclic WeightedEdge.ends taken) (hnodup : (taken ++ rest).Nodup) :
    Acyclic WeightedEdge.ends (taken ++ scan p rest) := by
  induction rest generalizing p taken with
  | nil =>
    rw [scan, List.append_nil]
    exact hacyclic
  | cons e rest ih =>
    have hmiddle : (taken ++ e :: rest).Perm (e :: (taken ++ rest)) := List.perm_middle
    rw [hmiddle.nodup_iff] at hnodup
    obtain ⟨hfresh, hrest⟩ := List.nodup_cons.1 hnodup
    -- the labels decide whether the edge would close a cycle
    unfold scan
    cases hconnected : p.connected e.a e.b with
    | true => exact ih hlabels hacyclic hrest
    | false =>
      have hjoined : ¬Joined WeightedEdge.ends taken e.a e.b := by
        rw [← connected_iff hlabels, hconnected]
        simp
      have hunused : e ∉ taken := fun he => hfresh (List.mem_append_left _ he)
      have htaken := ih (labels_merge hlabels e)
        ((acyclic_cons_iff (rfl : e.ends = _) hunused).2 ⟨hjoined, hacyclic⟩) hnodup
      refine htaken.mono fun f hf => ?_
      simpa [or_left_comm] using hf

/-- The ends of each edge that is offered are joined by edges graded no worse. -/
theorem joined_scan (hlabels : Labels WeightedEdge.ends taken p.label)
    (hsorted : rest.Pairwise fun e f => e.grade mode ≤ f.grade mode)
    (hbefore : ∀ e ∈ taken, ∀ f ∈ rest, e.grade mode ≤ f.grade mode)
    {f : WeightedEdge} (hf : f ∈ rest) : Joined WeightedEdge.ends
      (upTo (·.grade mode) (f.grade mode) (taken ++ scan p rest)) f.a f.b := by
  induction rest generalizing p taken with
  | nil => exact absurd hf List.not_mem_nil
  | cons e rest ih =>
    obtain ⟨hfirst, hsorted⟩ := List.pairwise_cons.1 hsorted
    have hearlier : ∀ d ∈ taken, ∀ f ∈ rest, d.grade mode ≤ f.grade mode :=
      fun d hd f hf => hbefore d hd f (List.mem_cons_of_mem _ hf)
    unfold scan
    cases hconnected : p.connected e.a e.b with
    | true =>
      -- the edge itself is passed over: what joins its ends was taken before, for less
      obtain rfl | hf := List.mem_cons.1 hf
      · apply ((connected_iff hlabels).1 hconnected).mono
        intro d hd
        exact mem_upTo.2 ⟨List.mem_append_left _ hd, hbefore d hd f List.mem_cons_self⟩
      · exact ih hlabels hsorted hearlier hf
    | false =>
      show Joined _ (upTo _ _ (taken ++ e :: scan (p.merge e.a e.b) rest)) f.a f.b
      obtain rfl | hf := List.mem_cons.1 hf
      · refine .of_mem (mem_upTo.2 ⟨?_, le_rfl⟩) rfl
        exact List.mem_append_right _ List.mem_cons_self
      -- the order of the scan keeps the bound for all that is still to come
      · have hbefore' : ∀ d ∈ e :: taken, ∀ f ∈ rest, d.grade mode ≤ f.grade mode := by
          intro d hd f' hf'
          obtain rfl | hd := List.mem_cons.1 hd
          · exact hfirst f' hf'
          · exact hearlier d hd f' hf'
        apply (ih (labels_merge hlabels e) hsorted hbefore' hf).mono
        apply upTo_subset_upTo le_rfl
        intro d hd
        simpa [or_left_comm] using hd

/-- **The scan takes a best forest.** -/
theorem isBestForest_kruskal (mode : Mode) {edges : List WeightedEdge} (hnodup : edges.Nodup) :
    IsBestForest WeightedEdge.ends (·.grade mode) edges (kruskal mode edges) where
  subset := fun _ he => (byWeight_perm mode edges).subset ((scan_sublist _ _).subset he)
  nodup := ((byWeight_perm mode edges).nodup_iff.2 hnodup).sublist (scan_sublist _ _)
  acyclic := acyclic_scan labels_discrete acyclic_nil
    ((byWeight_perm mode edges).nodup_iff.2 hnodup)
  bottleneck := by
    intro e he a b hends
    have hjoined := joined_scan labels_discrete (pairwise_byWeight mode edges) (by simp)
      ((byWeight_perm mode edges).mem_iff.2 he)
    rw [WeightedEdge.ends, Sym2.eq_iff] at hends
    obtain ⟨rfl, rfl⟩ | ⟨rfl, rfl⟩ := hends
    · exact hjoined
    · exact hjoined.symm

/-! ## §3. Loops. -/

/-- Whether both ends of a weighted edge are one node. -/
def WeightedEdge.isLoop (e : WeightedEdge) : Bool := e.a == e.b

/-- The scan passes over loops. -/
theorem scan_filter_isLoop (p : Partition) (edges : List WeightedEdge) :
    scan p (edges.filter (!·.isLoop)) = scan p edges := by
  induction edges generalizing p with
  | nil => rfl
  | cons e rest ih =>
    cases hloop : e.isLoop with
    | true =>
      have hconnected : p.connected e.a e.b = true := by
        rw [beq_iff_eq.1 hloop]
        exact beq_self_eq_true _
      rw [List.filter_cons_of_neg (by simp [hloop]), ih, scan, if_pos hconnected]
    | false =>
      rw [List.filter_cons_of_pos (by simp [hloop]), scan, scan, ih, ih]

/-- **It makes no difference whether loops are offered.** -/
theorem kruskal_filter_isLoop (mode : Mode) (edges : List WeightedEdge) :
    kruskal mode (edges.filter (!·.isLoop)) = kruskal mode edges := by
  unfold kruskal byWeight
  rw [← filter_mergeSort (prefers_trans mode) (prefers_either mode), scan_filter_isLoop]

end EvolvingGraph.Forest
