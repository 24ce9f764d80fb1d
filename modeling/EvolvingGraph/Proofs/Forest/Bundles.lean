/-
  EvolvingGraph.Proofs.Forest.Bundles
  ───────────────────────────────────
  **EVERY EDGE THAT IS OFFERED BECOMES A CANDIDATE, ONCE.**

  Edges are bundled by their pairs and the bundles are listed node by node.  An
  edge can come out the other way round, because its bundle was begun by an edge
  in the opposite direction; otherwise the candidates are a rearrangement of
  what was offered, as long as no two edges have one id and none has "nothing"
  for an id.

  Main statements:
    * `candidates_perm` — listing the bundles loses nothing and repeats nothing;
    * `Bundled.addEdge` — nor does bundling one more edge;
    * `candidates_bundleAll_perm` — both together.
-/
import EvolvingGraph.Proofs.Catalog
import EvolvingGraph.Proofs.Forest.Scan

namespace EvolvingGraph.Forest

/-! ## §1. Pairs. -/

/-- The pair that a bundle is for. -/
def Bundle.pair (bundle : Bundle) : Sym2 Key := s(bundle.a, bundle.b)

theorem Bundle.joins_iff {bundle : Bundle} {a b : Key} :
    bundle.joins a b = true ↔ bundle.pair = s(a, b) := by
  simp [joins, pair]

theorem Bundle.touches_iff {bundle : Bundle} {k : Key} :
    bundle.touches k = true ↔ k ∈ bundle.pair := by
  rw [touches, pair, Sym2.mem_iff, Bool.or_eq_true, beq_iff_eq, beq_iff_eq, eq_comm,
    eq_comm (b := k)]

/-- A weighted edge up to its direction. -/
def WeightedEdge.unoriented (e : WeightedEdge) : Sym2 Key × Identifier × Real64 :=
  (e.ends, e.id, e.weight)

/-! ## §2. Listing bundles. -/

/-- The candidates are the edges of the bundles, if each bundle is at some node. -/
theorem candidates_perm {bundles : List Bundle} {nodes : List Key}
    (h : ∀ bundle ∈ bundles, ∃ k ∈ nodes, bundle.touches k = true) :
    (candidates bundles nodes).Perm (bundles.flatMap Bundle.weightedEdges) := by
  induction nodes generalizing bundles with
  | nil =>
    have hnil : bundles = [] := List.eq_nil_iff_forall_not_mem.2 fun bundle hb => by
      obtain ⟨k, hk, _⟩ := h bundle hb
      exact List.not_mem_nil hk
    rw [hnil]
    exact .refl _
  | cons k rest ih =>
    have hrest : ∀ bundle ∈ bundles.filter (!·.touches k),
        ∃ j ∈ rest, bundle.touches j = true := by
      intro bundle hb
      obtain ⟨hb, hk⟩ := List.mem_filter.1 hb
      obtain ⟨j, hj, htouches⟩ := h bundle hb
      obtain rfl | hj := List.mem_cons.1 hj
      · rw [htouches] at hk
        exact absurd hk (by simp)
      · exact ⟨j, hj, htouches⟩
    -- bundles at the first node are listed now, the others later
    have hsplit := (List.filter_append_perm (·.touches k) bundles).flatMap_right
      Bundle.weightedEdges
    rw [List.flatMap_append] at hsplit
    exact ((ih hrest).append_left _).trans hsplit

/-! ## §3. Bundling. -/

/-- Bundles hold the edges offered, each once and up to its direction. -/
structure Bundled (bundles : List Bundle) (offered : List WeightedEdge) : Prop where
  perm : ((bundles.flatMap Bundle.weightedEdges).map WeightedEdge.unoriented).Perm
    (offered.map WeightedEdge.unoriented)
  apart : (bundles.map Bundle.pair).Nodup
  begun : ∀ bundle ∈ bundles, ∃ e ∈ offered, e.ends = bundle.pair

theorem bundled_nil : Bundled [] [] where
  perm := .refl _
  apart := List.nodup_nil
  begun := by simp

/-- A bundle with one more edge. -/
def Bundle.extend (bundle : Bundle) (e : WeightedEdge) : Bundle :=
  { bundle with edges := bundle.edges.insert e.id e.weight }

theorem weightedEdges_extend {bundle : Bundle} {e : WeightedEdge}
    (h : bundle.edges.contains e.id.key = false) :
    (bundle.extend e).weightedEdges
      = bundle.weightedEdges ++ [⟨bundle.a, bundle.b, e.id, e.weight⟩] := by
  unfold Bundle.weightedEdges Bundle.extend
  rw [Catalog.entries_insert_of_not_contains h, List.map_append]
  rfl

theorem idFor_of_ne_null {edges : Catalog Real64} {id : Identifier} (h : id.key ≠ .null) :
    Bundle.idFor edges id = id := if_neg h

/-- The bundle of the edge is extended, all others stay. -/
theorem addEdge_of_joined {bundles : List Bundle} {e : WeightedEdge} (hnull : e.id.key ≠ .null)
    (h : e.ends ∈ bundles.map Bundle.pair) :
    addEdge bundles e.a e.b e.id e.weight
      = bundles.map fun bundle => if bundle.pair = e.ends then bundle.extend e else bundle := by
  have hany : bundles.any (·.joins e.a e.b) = true := by
    obtain ⟨bundle, hb, hpair⟩ := List.mem_map.1 h
    exact List.any_eq_true.2 ⟨bundle, hb, Bundle.joins_iff.2 hpair⟩
  unfold addEdge
  rw [if_pos hany]
  apply List.map_congr_left
  intro bundle _
  by_cases hpair : bundle.pair = e.ends
  · rw [if_pos (Bundle.joins_iff.2 hpair), if_pos hpair, idFor_of_ne_null hnull]
    rfl
  · rw [if_neg (fun hjoins => hpair (Bundle.joins_iff.1 hjoins)), if_neg hpair]

theorem addEdge_of_not_joined {bundles : List Bundle} {e : WeightedEdge}
    (hnull : e.id.key ≠ .null) (h : e.ends ∉ bundles.map Bundle.pair) :
    addEdge bundles e.a e.b e.id e.weight
      = bundles ++ [⟨e.a, e.b, Catalog.empty.insert e.id e.weight⟩] := by
  have hany : ¬bundles.any (·.joins e.a e.b) = true := by
    intro hany
    obtain ⟨bundle, hb, hjoins⟩ := List.any_eq_true.1 hany
    exact h (List.mem_map.2 ⟨bundle, hb, Bundle.joins_iff.1 hjoins⟩)
  unfold addEdge
  rw [if_neg hany, idFor_of_ne_null hnull]

/-- Extending the bundle of an edge adds this edge and nothing else. -/
theorem flatMap_extend_perm {bundles : List Bundle} {e : WeightedEdge}
    (hapart : (bundles.map Bundle.pair).Nodup) (h : e.ends ∈ bundles.map Bundle.pair)
    (hfresh : ∀ bundle ∈ bundles, bundle.edges.contains e.id.key = false) :
    (((bundles.map fun bundle => if bundle.pair = e.ends then bundle.extend e else bundle).flatMap
        Bundle.weightedEdges).map WeightedEdge.unoriented).Perm
      (e.unoriented :: (bundles.flatMap Bundle.weightedEdges).map WeightedEdge.unoriented) := by
  induction bundles with
  | nil => exact absurd h List.not_mem_nil
  | cons bundle rest ih =>
    rw [List.map_cons, List.nodup_cons] at hapart
    have hrest := fun b hb => hfresh b (List.mem_cons_of_mem _ hb)
    rw [List.map_cons, List.flatMap_cons, List.map_append, List.flatMap_cons, List.map_append]
    by_cases hpair : bundle.pair = e.ends
    -- pairs are apart, so no other bundle is extended
    · have hothers : (rest.map fun b => if b.pair = e.ends then b.extend e else b) = rest := by
        conv_rhs => rw [← List.map_id rest]
        apply List.map_congr_left
        intro b hb
        exact if_neg fun hb' => hapart.1 (by rw [hpair, ← hb']; exact List.mem_map_of_mem hb)
      have hedge : (⟨bundle.a, bundle.b, e.id, e.weight⟩ : WeightedEdge).unoriented
          = e.unoriented := Prod.ext hpair rfl
      rw [if_pos hpair, hothers, weightedEdges_extend (hfresh bundle List.mem_cons_self),
        List.map_append, List.append_assoc, List.map_cons, hedge]
      exact List.perm_middle
    · have hlater : e.ends ∈ rest.map Bundle.pair :=
        (List.mem_cons.1 h).resolve_left fun heq => hpair heq.symm
      rw [if_neg hpair]
      exact ((ih hapart.2 hlater hrest).append_left _).trans List.perm_middle

/-- Bundling one more edge keeps all that are there. -/
theorem Bundled.addEdge {bundles : List Bundle} {offered : List WeightedEdge} {e : WeightedEdge}
    (h : Bundled bundles offered) (hnull : e.id.key ≠ .null)
    (hfresh : ∀ f ∈ offered, f.id.key ≠ e.id.key) :
    Bundled (addEdge bundles e.a e.b e.id e.weight) (offered ++ [e]) := by
  have hcontains : ∀ bundle ∈ bundles, bundle.edges.contains e.id.key = false := by
    intro bundle hb
    rw [Bool.eq_false_iff, ne_eq, Catalog.contains_iff_mem]
    rintro ⟨entry, hentry, hkey⟩
    have hmem : WeightedEdge.unoriented ⟨bundle.a, bundle.b, entry.1, entry.2⟩
        ∈ (bundles.flatMap Bundle.weightedEdges).map WeightedEdge.unoriented :=
      List.mem_map_of_mem (List.mem_flatMap.2 ⟨bundle, hb, List.mem_map.2 ⟨entry, hentry, rfl⟩⟩)
    obtain ⟨f, hf, hsame⟩ := List.mem_map.1 (h.perm.mem_iff.1 hmem)
    have hid : f.id = entry.1 := congrArg (·.2.1) hsame
    exact hfresh f hf (by rw [hid]; exact hkey)
  have hperm : (e.unoriented :: (bundles.flatMap Bundle.weightedEdges).map
      WeightedEdge.unoriented).Perm ((offered ++ [e]).map WeightedEdge.unoriented) := by
    rw [List.map_append]
    exact (h.perm.cons _).trans (List.perm_append_singleton _ _).symm
  -- the pair has a bundle, or one is begun for it
  by_cases hjoined : e.ends ∈ bundles.map Bundle.pair
  · rw [addEdge_of_joined hnull hjoined]
    have hpairs : ∀ bundle : Bundle,
        (if bundle.pair = e.ends then bundle.extend e else bundle).pair = bundle.pair := by
      intro bundle
      split <;> rfl
    refine ⟨(flatMap_extend_perm h.apart hjoined hcontains).trans hperm, ?_, ?_⟩
    · rw [List.map_map]
      simp only [Function.comp_def, hpairs]
      exact h.apart
    · intro bundle' hb'
      obtain ⟨bundle, hb, rfl⟩ := List.mem_map.1 hb'
      obtain ⟨f, hf, hends⟩ := h.begun bundle hb
      exact ⟨f, List.mem_append_left _ hf, hends.trans (hpairs bundle).symm⟩
  · rw [addEdge_of_not_joined hnull hjoined]
    have hsingle : Bundle.weightedEdges ⟨e.a, e.b, Catalog.empty.insert e.id e.weight⟩ = [e] := by
      unfold Bundle.weightedEdges
      rw [Catalog.entries_insert_of_not_contains rfl]
      rfl
    refine ⟨?_, ?_, ?_⟩
    · rw [List.flatMap_append, List.flatMap_singleton, hsingle, List.map_append]
      refine List.Perm.trans ?_ hperm
      exact List.perm_append_singleton _ _
    · rw [List.map_append, List.nodup_append]
      refine ⟨h.apart, List.nodup_singleton _, ?_⟩
      intro pair hpair pair' hpair' heq
      rw [List.map_singleton, List.mem_singleton] at hpair'
      subst heq hpair'
      exact hjoined hpair
    · intro bundle hb
      obtain hb | hb := List.mem_append.1 hb
      · obtain ⟨f, hf, hends⟩ := h.begun bundle hb
        exact ⟨f, List.mem_append_left _ hf, hends⟩
      · rw [List.mem_singleton] at hb
        subst hb
        exact ⟨e, by simp, rfl⟩

/-! ## §4. All edges. -/

/-- The bundles of edges that are offered one after the other. -/
def bundleAll (offered : List WeightedEdge) : List Bundle :=
  offered.foldl (fun bundles e => addEdge bundles e.a e.b e.id e.weight) []

theorem bundled_bundleAll {offered : List WeightedEdge} (hnull : ∀ e ∈ offered, e.id.key ≠ .null)
    (hnodup : (offered.map (·.id.key)).Nodup) : Bundled (bundleAll offered) offered := by
  induction offered using List.reverseRecOn with
  | nil => exact bundled_nil
  | append_singleton offered e ih =>
    rw [List.map_append, List.nodup_append] at hnodup
    have hstep := (ih (fun f hf => hnull f (List.mem_append_left _ hf)) hnodup.1).addEdge
      (hnull e (by simp)) (fun f hf => hnodup.2.2 _ (List.mem_map_of_mem hf) _ (by simp))
    unfold bundleAll
    rw [List.foldl_append]
    exact hstep

/-- **The candidates are the edges offered, in another order and up to their directions.** -/
theorem candidates_bundleAll_perm {offered : List WeightedEdge} {nodes : List Key}
    (hnull : ∀ e ∈ offered, e.id.key ≠ .null) (hnodup : (offered.map (·.id.key)).Nodup)
    (hwithin : Within WeightedEdge.ends nodes offered) :
    ((candidates (bundleAll offered) nodes).map WeightedEdge.unoriented).Perm
      (offered.map WeightedEdge.unoriented) := by
  have hbundled := bundled_bundleAll hnull hnodup
  refine ((candidates_perm ?_).map _).trans hbundled.perm
  intro bundle hb
  obtain ⟨e, he, hends⟩ := hbundled.begun bundle hb
  refine ⟨bundle.a, hwithin e he bundle.a ?_, Bundle.touches_iff.2 (Sym2.mem_mk_left _ _)⟩
  rw [hends]
  exact Sym2.mem_mk_left _ _

end EvolvingGraph.Forest
