/-
  EvolvingGraph.Proofs.Forest.Candidates
  ──────────────────────────────────────
  **FROM THE EDGES OF A GRAPH TO CANDIDATES, AND BACK.**

  The candidates of a graph are its edges that are no loops, each with its
  weight and up to its direction.  So a best forest of the candidates is one of
  the graph: the edges that have the ids chosen.  Loops change nothing about
  what edges join, and no forest has one.

  Main statements:
    * `Graph.weightedEdges_eq` — reading the weights does not fail;
    * `Graph.isBestForest_named` — a best forest of candidates is one of the graph;
    * `Graph.isSpanningForest_proper_iff` — loops may be left out.
-/
import EvolvingGraph.Proofs.Forest.Bundles
import EvolvingGraph.Proofs.Graph.Coherence
import EvolvingGraph.Proofs.Value.Comparison

namespace EvolvingGraph

/-! ## §1. Edges of a graph as edges of a forest. -/

/-- An edge of a graph as it is filed: its id and its ends. -/
abbrev EdgeEntry := Identifier × Endpoints

namespace EdgeEntry

/-- The ends of an edge, in no order. -/
def ends (e : EdgeEntry) : Sym2 Key := s(e.2.source.key, e.2.target.key)

/-- Whether both ends of an edge are one node. -/
def isLoop (e : EdgeEntry) : Bool := e.2.source.key == e.2.target.key

theorem isLoop_iff {e : EdgeEntry} : e.isLoop = true ↔ e.2.source.key = e.2.target.key := beq_iff_eq

/-- Whether an edge leads from a node to itself, and the node equals itself.  These are
the loops that builders leave out; one at a NaN is offered like any other edge. -/
def isPlainLoop (e : EdgeEntry) : Bool := e.isLoop && e.2.source.key.equalsItself

theorem areEqual_eq_isPlainLoop (e : EdgeEntry) : e.2.areEqual = e.isPlainLoop := by
  rw [Bool.eq_iff_iff, Endpoints.areEqual_iff_key, isPlainLoop, Bool.and_eq_true, isLoop_iff]

theorem isLoop_of_areEqual {e : EdgeEntry} (h : e.2.areEqual = true) : e.isLoop = true :=
  isLoop_iff.2 (Endpoints.areEqual_iff_key.1 h).1

end EdgeEntry

/-- The weight that a value stands for; nothing stands for 1. -/
def Value.weight? : Value → Option Real64
  | .null => some .one
  | .int n => Real64.ofInt? n
  | .float x => some x
  | _ => none

namespace Graph

variable {g : Graph} {name : Value}

/-- The weight of an edge, 1 where nothing is said. -/
def weightOf (g : Graph) (name : Value) (e : EdgeEntry) : Real64 :=
  match g.readAttribute .edge e.1.value name .null with
  | .ok v => v.weight?.getD .one
  | .error _ => .one

/-- The edges that are no loops. -/
def properEdges (g : Graph) : List EdgeEntry := g.edges.entries.filter (!·.isLoop)

theorem mem_properEdges {e : EdgeEntry} :
    e ∈ g.properEdges ↔ e ∈ g.edges.entries ∧ e.2.source.key ≠ e.2.target.key := by
  rw [properEdges, List.mem_filter, Bool.not_eq_true', ← Bool.not_eq_true, EdgeEntry.isLoop_iff]

/-- A graph whose edges can be weighed: the ends of edges have no NaN in them,
no edge has "nothing" for an id, and edges that are no loops have weights. -/
structure Weighable (g : Graph) (name : Value) : Prop where
  ends_free : ∀ e ∈ g.edges.entries,
    e.2.source.key.isNaNFree = true ∧ e.2.target.key.isNaNFree = true
  id_ne_null : ∀ e ∈ g.edges.entries, e.1.key ≠ .null
  weights : ∀ e ∈ g.edges.entries, e.2.source.key ≠ e.2.target.key →
    ∃ v x, g.readAttribute .edge e.1.value name .null = .ok v ∧ v.weight? = some x

/-- Whether a graph can be weighed, edge by edge. -/
def isWeighable (g : Graph) (name : Value) : Bool :=
  g.edges.entries.all fun e =>
    e.2.source.key.isNaNFree && e.2.target.key.isNaNFree && e.1.key != .null
      && (EdgeEntry.isLoop e || match g.readAttribute .edge e.1.value name .null with
        | .ok v => v.weight?.isSome
        | .error _ => false)

theorem weighable_of_isWeighable (h : g.isWeighable name = true) : g.Weighable name := by
  unfold isWeighable at h
  rw [List.all_eq_true] at h
  simp only [Bool.and_eq_true, Bool.or_eq_true, bne_iff_ne, EdgeEntry.isLoop_iff] at h
  refine ⟨fun e he => (h e he).1.1, fun e he => (h e he).1.2, fun e he hloop => ?_⟩
  have hread := (h e he).2.resolve_left hloop
  split at hread
  · next v hv =>
    obtain ⟨x, hx⟩ := Option.isSome_iff_exists.1 hread
    exact ⟨v, x, hv, hx⟩
  · exact absurd hread (by simp)

/-- An edge with its weight, as it is offered to a forest builder. -/
def weightedEntry (g : Graph) (name : Value) (e : EdgeEntry) : Forest.WeightedEdge :=
  ⟨e.2.source.key, e.2.target.key, e.1, g.weightOf name e⟩

/-- The keys of the nodes, in order. -/
def nodeKeys (g : Graph) : List Key := g.nodes.identifiers.map (·.key)

/-- The candidates of a graph. -/
def candidates (g : Graph) (name : Value) : List Forest.WeightedEdge :=
  Forest.candidates (Forest.bundleAll (g.properEdges.map (g.weightedEntry name))) g.nodeKeys

/-! ## §2. Reading the weights. -/

theorem edgeWeight_eq {e : EdgeEntry} {v : Value} {x : Real64}
    (hread : g.readAttribute .edge e.1.value name .null = .ok v) (hx : v.weight? = some x) :
    ∃ weight, g.edgeWeight e.1.value name = .ok weight ∧ weight.getD .one = g.weightOf name e := by
  have hweight : g.weightOf name e = x := by
    unfold weightOf
    rw [hread]
    show v.weight?.getD .one = x
    rw [hx]
    rfl
  unfold edgeWeight
  rw [hread, hweight]
  cases v with
  | null =>
    injection hx with hx
    exact ⟨none, rfl, hx⟩
  | int n =>
    have hn : Real64.ofInt? n = some x := hx
    exact ⟨some x, by simp [Value.readWeight, hn], rfl⟩
  | float y =>
    injection hx with hx
    exact ⟨some y, rfl, hx⟩
  | _ => exact absurd hx (by simp [Value.weight?])

theorem Weighable.bundleEdge_eq (h : g.Weighable name) {e : EdgeEntry} (he : e ∈ g.edges.entries)
    (bundles : List Forest.Bundle) : g.bundleEdge name bundles e
      = .ok (if e.isLoop then bundles
          else Forest.addEdge bundles e.2.source.key e.2.target.key e.1 (g.weightOf name e)) := by
  have hequal := Endpoints.areEqual_iff (h.ends_free e he).1
  rw [← EdgeEntry.isLoop_iff] at hequal
  unfold bundleEdge
  cases hloop : e.isLoop with
  | true =>
    show (if e.2.areEqual = true then _ else _) = _
    rw [if_pos (hequal.2 hloop)]
    rfl
  | false =>
    have hproper : e.2.source.key ≠ e.2.target.key := by
      intro heq
      rw [EdgeEntry.isLoop_iff.2 heq] at hloop
      exact absurd hloop (by simp)
    obtain ⟨v, x, hread, hx⟩ := h.weights e he hproper
    obtain ⟨weight, hweight, hdefault⟩ := edgeWeight_eq hread hx
    have hnot : ¬e.2.areEqual = true := fun heq => by
      rw [hequal.1 heq] at hloop
      exact absurd hloop (by simp)
    show (if e.2.areEqual = true then _ else _) = _
    rw [if_neg hnot]
    show (g.edgeWeight e.1.value name >>= _) = _
    rw [hweight, ← hdefault]
    rfl

/-- **The candidates are read off without a failure.** -/
theorem weightedEdges_eq (h : g.Weighable name) :
    g.weightedEdges name = .ok (g.candidates name) := by
  -- loops are passed over by the fold and left out by the filter
  have hfold : ∀ (entries : List EdgeEntry) (bundles : List Forest.Bundle),
      entries ⊆ g.edges.entries → entries.foldlM (g.bundleEdge name) bundles
        = .ok (((entries.filter (!·.isLoop)).map (g.weightedEntry name)).foldl
            (fun bundles e => Forest.addEdge bundles e.a e.b e.id e.weight) bundles) := by
    intro entries
    induction entries with
    | nil => exact fun _ _ => rfl
    | cons e rest ih =>
      intro bundles hsub
      rw [List.cons_subset] at hsub
      rw [List.foldlM_cons, h.bundleEdge_eq hsub.1]
      show rest.foldlM (g.bundleEdge name) _ = _
      rw [ih _ hsub.2]
      cases hloop : e.isLoop with
      | true => rw [List.filter_cons_of_neg (by simp [hloop])]; rfl
      | false => rw [List.filter_cons_of_pos (by simp [hloop])]; rfl
  unfold weightedEdges
  rw [hfold g.edges.entries [] (List.Subset.refl _)]
  rfl

/-! ## §3. Candidates and edges. -/

theorem nodup_nodeKeys (g : Graph) : g.nodeKeys.Nodup := by
  have hnodup := g.nodes.nodup
  unfold nodeKeys Catalog.identifiers
  rw [List.map_map]
  exact hnodup

theorem length_nodeKeys (g : Graph) : g.nodeKeys.length = g.nodes.size := by
  unfold nodeKeys Catalog.identifiers
  rw [List.length_map, List.length_map]
  rfl

theorem Coherent.within (hg : g.Coherent) :
    Forest.Within EdgeEntry.ends g.nodeKeys g.edges.entries := by
  have hkey : ∀ k, g.nodes.contains k = true → k ∈ g.nodeKeys := by
    intro k hk
    obtain ⟨node, hnode, rfl⟩ := contains_iff_identifiers.1 hk
    exact List.mem_map_of_mem hnode
  intro e he a ha
  obtain ⟨hs, ht⟩ := hg.ends_mem e he
  obtain rfl | rfl := Sym2.mem_iff.1 ha
  · exact hkey _ hs
  · exact hkey _ ht

theorem properEdges_subset (g : Graph) : g.properEdges ⊆ g.edges.entries :=
  fun _ he => (mem_properEdges.1 he).1

section Offered

variable {entries : List EdgeEntry} (hg : g.Coherent) (hsub : entries.Sublist g.edges.entries)
  (hnamed : ∀ e ∈ entries, e.1.key ≠ .null)

include hg hsub hnamed

/-- Some edges of a graph are listed as candidates without a loss and without a
repetition; at most some of them are turned round. -/
theorem Coherent.offered_perm (name : Value) :
    ((Forest.candidates (Forest.bundleAll (entries.map (g.weightedEntry name))) g.nodeKeys).map
        Forest.WeightedEdge.unoriented).Perm
      ((entries.map (g.weightedEntry name)).map Forest.WeightedEdge.unoriented) := by
  apply Forest.candidates_bundleAll_perm
  · intro c hc
    obtain ⟨e, he, rfl⟩ := List.mem_map.1 hc
    exact hnamed e he
  · rw [List.map_map]
    exact g.edges.nodup.sublist (hsub.map _)
  · intro c hc
    obtain ⟨e, he, rfl⟩ := List.mem_map.1 hc
    exact hg.within e (hsub.subset he)

/-- What is listed is one of the edges, with its weight. -/
theorem Coherent.exists_of_mem_offered {c : Forest.WeightedEdge}
    (hc : c ∈ Forest.candidates (Forest.bundleAll (entries.map (g.weightedEntry name)))
      g.nodeKeys) :
    ∃ e ∈ entries, c.id = e.1 ∧ c.ends = EdgeEntry.ends e ∧ c.weight = g.weightOf name e := by
  have hmem := (hg.offered_perm hsub hnamed name).mem_iff.1 (List.mem_map_of_mem hc)
  rw [List.map_map] at hmem
  obtain ⟨e, he, hsame⟩ := List.mem_map.1 hmem
  exact ⟨e, he, (congrArg (·.2.1) hsame).symm, (congrArg (·.1) hsame).symm,
    (congrArg (·.2.2) hsame).symm⟩

end Offered

theorem candidates_perm (hg : g.Coherent) (h : g.Weighable name) :
    ((g.candidates name).map Forest.WeightedEdge.unoriented).Perm
      ((g.properEdges.map (g.weightedEntry name)).map Forest.WeightedEdge.unoriented) :=
  hg.offered_perm List.filter_sublist (fun e he => h.id_ne_null e (g.properEdges_subset he)) name

/-- The edge with an id, as it is filed. -/
def entryWithId (g : Graph) (id : Identifier) : EdgeEntry :=
  (id, (g.edges.get? id.key).getD ⟨id, id⟩)

/-- The edge that has the id of a candidate. -/
def entryOf (g : Graph) (c : Forest.WeightedEdge) : EdgeEntry := g.entryWithId c.id

theorem entryOf_eq {e : EdgeEntry} {c : Forest.WeightedEdge} (he : e ∈ g.edges.entries)
    (hid : c.id = e.1) : g.entryOf c = e := by
  unfold entryOf entryWithId
  rw [hid, Catalog.get?_of_mem he]
  rfl

/-- A candidate is an edge that is no loop, with its weight. -/
theorem exists_of_mem_candidates (hg : g.Coherent) (h : g.Weighable name)
    {c : Forest.WeightedEdge} (hc : c ∈ g.candidates name) : ∃ e ∈ g.properEdges,
      g.entryOf c = e ∧ c.id = e.1 ∧ c.ends = e.ends ∧ c.weight = g.weightOf name e := by
  obtain ⟨e, he, hid, hends, hweight⟩ := hg.exists_of_mem_offered List.filter_sublist
    (fun e he => h.id_ne_null e (g.properEdges_subset he)) hc
  exact ⟨e, he, entryOf_eq (g.properEdges_subset he) hid, hid, hends, hweight⟩

theorem map_entryOf_candidates_perm (hg : g.Coherent) (h : g.Weighable name) :
    ((g.candidates name).map g.entryOf).Perm g.properEdges := by
  -- up to direction an edge is known by its id
  have hperm := (candidates_perm hg h).map fun x => g.entryWithId x.2.1
  rw [List.map_map, List.map_map, List.map_map] at hperm
  have hsame : g.properEdges.map (g.entryOf ∘ g.weightedEntry name) = g.properEdges := by
    conv_rhs => rw [← List.map_id g.properEdges]
    apply List.map_congr_left
    intro e he
    exact entryOf_eq (c := g.weightedEntry name e) (g.properEdges_subset he) rfl
  exact hsame ▸ hperm

theorem within_candidates (hg : g.Coherent) (h : g.Weighable name) :
    Forest.Within Forest.WeightedEdge.ends g.nodeKeys (g.candidates name) := by
  intro c hc a ha
  obtain ⟨e, he, _, _, hends, _⟩ := exists_of_mem_candidates hg h hc
  rw [hends] at ha
  exact hg.within e (g.properEdges_subset he) a ha

theorem nodup_candidates (hg : g.Coherent) (h : g.Weighable name) :
    (g.candidates name).Nodup := by
  apply List.Nodup.of_map g.entryOf
  exact (map_entryOf_candidates_perm hg h).nodup_iff.2 (g.edges.nodup_entries.filter _)

/-- The edges that have the ids chosen, in the order of the graph. -/
def named (g : Graph) (chosen : List Forest.WeightedEdge) : List EdgeEntry :=
  g.edges.entries.filter fun e => chosen.any (·.id.key == e.1.key)

theorem mem_named {chosen : List Forest.WeightedEdge} {e : EdgeEntry} :
    e ∈ g.named chosen ↔ e ∈ g.edges.entries ∧ ∃ c ∈ chosen, c.id.key = e.1.key := by
  simp [named]

theorem mem_named_iff_entryOf (hg : g.Coherent) (h : g.Weighable name)
    {chosen : List Forest.WeightedEdge} (hsub : chosen ⊆ g.candidates name) {e : EdgeEntry} :
    e ∈ g.named chosen ↔ e ∈ chosen.map g.entryOf := by
  rw [mem_named, List.mem_map]
  constructor
  · rintro ⟨he, c, hc, hkey⟩
    obtain ⟨e', he', hentry, hid, _⟩ := exists_of_mem_candidates hg h (hsub hc)
    have hsame : e' = e := by
      apply Catalog.eq_of_mem_of_key_eq (g.properEdges_subset he') he
      rw [← hid]
      exact hkey
    exact ⟨c, hc, hentry.trans hsame⟩
  · rintro ⟨c, hc, rfl⟩
    obtain ⟨e', he', hentry, hid, _⟩ := exists_of_mem_candidates hg h (hsub hc)
    rw [hentry]
    exact ⟨g.properEdges_subset he', c, hc, by rw [hid]⟩

/-- **A best forest of the candidates names a best forest of the graph.** -/
theorem isBestForest_named (hg : g.Coherent) (h : g.Weighable name) {mode : Forest.Mode}
    {chosen : List Forest.WeightedEdge}
    (hbest : Forest.IsBestForest Forest.WeightedEdge.ends (·.grade mode) (g.candidates name)
      chosen) :
    Forest.IsBestForest EdgeEntry.ends (fun e => mode.grade (g.weightOf name e)) g.properEdges
      (g.named chosen) := by
  have hperm := map_entryOf_candidates_perm hg h
  have hends : ∀ c ∈ g.candidates name, (g.entryOf c).ends = c.ends := by
    intro c hc
    obtain ⟨e, _, hentry, _, hends, _⟩ := exists_of_mem_candidates hg h hc
    rw [hentry, hends]
  have hgrade : ∀ c ∈ g.candidates name,
      mode.grade (g.weightOf name (g.entryOf c)) = c.grade mode := by
    intro c hc
    obtain ⟨e, _, hentry, _, _, hweight⟩ := exists_of_mem_candidates hg h hc
    rw [hentry, ← hweight]
    rfl
  apply (hbest.map hends hgrade (hperm.nodup_iff.2 (g.edges.nodup_entries.filter _))).of_mem_iff
  · exact fun e => hperm.mem_iff.symm
  · exact fun e => mem_named_iff_entryOf hg h hbest.subset
  · exact g.edges.nodup_entries.filter _

/-! ## §4. Loops. -/

theorem joined_properEdges_iff {a b : Key} :
    Forest.Joined EdgeEntry.ends g.properEdges a b
      ↔ Forest.Joined EdgeEntry.ends g.edges.entries a b := by
  constructor
  · exact fun h => h.mono g.properEdges_subset
  · intro h
    apply h.of_forall_joined
    intro e he a b hends
    -- a loop leads from a node to itself, and no edge is needed for that
    by_cases hloop : e.2.source.key = e.2.target.key
    · rw [EdgeEntry.ends, hloop, Sym2.eq_iff] at hends
      obtain ⟨ha, hb⟩ | ⟨hb, ha⟩ := hends <;> rw [← ha, ← hb] <;> exact .refl _ _ _
    · exact .of_mem (mem_properEdges.2 ⟨he, hloop⟩) hends

/-- A spanning forest of a graph has no use for loops. -/
theorem isSpanningForest_proper_iff {F : List EdgeEntry} :
    Forest.IsSpanningForest EdgeEntry.ends g.properEdges F
      ↔ Forest.IsSpanningForest EdgeEntry.ends g.edges.entries F := by
  constructor
  · intro h
    refine ⟨fun e he => g.properEdges_subset (h.subset he), h.nodup, h.acyclic, fun a b hab => ?_⟩
    exact h.spans a b (joined_properEdges_iff.2 hab)
  · intro h
    refine ⟨fun e he => ?_, h.nodup, h.acyclic, fun a b hab => ?_⟩
    · exact mem_properEdges.2 ⟨h.subset he, h.acyclic.ne_of_mem he rfl⟩
    · exact h.spans a b (joined_properEdges_iff.1 hab)

end Graph
end EvolvingGraph
