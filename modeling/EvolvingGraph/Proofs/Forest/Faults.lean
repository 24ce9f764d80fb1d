/-
  EvolvingGraph.Proofs.Forest.Faults
  ──────────────────────────────────
  **WHAT IS WRONG WITH THE WEIGHTS OF A GRAPH.**

  A weight is either nothing, or a number, or at fault in one of three ways: a
  whole number too large for a double, a NaN, or no number at all.  The weights
  of all edges but loops are read in the order of the table before any edge is
  offered to a builder.  So the first one at fault decides how reading fails,
  and where none is, every edge that is chosen is one of the table.

  Main statements:
    * `Value.weightFault?_eq_none_iff` — what is not at fault is a weight;
    * `Coherent.weightedEdges_of_valid`, `Coherent.weightedEdges_of_fault` — reading all weights;
    * `Coherent.exists_of_mem_weighedCandidates` — a candidate is an edge with its weight;
    * `known_of_weightedEdges` — what is offered are edges of the table.
-/
import EvolvingGraph.Proofs.Binary64.Range
import EvolvingGraph.Proofs.Graph.Renaming
import EvolvingGraph.Proofs.Marking.Painting

namespace EvolvingGraph

/-! ## §1. Values as weights. -/

/-- What is wrong with a value as a weight: the kind of failure that reading it
is.  Truth values are no numbers here. -/
def Value.weightFault? : Value → Option ErrorKind
  | .null | .float _ => none
  | .int n => if Real64.firstTooLarge ≤ n.natAbs then some .overflow else none
  | .nan _ => some .value
  | _ => some .type

theorem Value.weightFault?_int {n : Int} :
    Value.weightFault? (.int n) = none ↔ ∃ x, Real64.ofInt? n = some x := by
  have hrange := Real64.ofInt?_eq_none_iff (n := n)
  show (if Real64.firstTooLarge ≤ n.natAbs then some ErrorKind.overflow else none) = none ↔ _
  rw [← Option.isSome_iff_exists, ← Option.ne_none_iff_isSome, ne_eq, hrange]
  split <;> simp_all

/-- What is not at fault is a weight, and the other way round. -/
theorem Value.weightFault?_eq_none_iff {v : Value} :
    v.weightFault? = none ↔ ∃ x, v.weight? = some x := by
  cases v with
  | int n => exact weightFault?_int
  | _ => simp [weightFault?, weight?]

namespace Graph

variable {g g' : Graph} {name : Identifier} {e : EdgeEntry} {kind : ErrorKind}

/-- A weight at fault makes the reading fail with its kind. -/
theorem edgeWeight_of_fault {v : Value}
    (hread : g.readAttribute .edge e.1.value name.value .null = .ok v)
    (hv : v.weightFault? = some kind) :
    ∃ error, g.edgeWeight e.1.value name.value = .error error ∧ error.kind = kind := by
  unfold edgeWeight
  rw [hread]
  cases v with
  | null => exact absurd hv (by simp [Value.weightFault?])
  | float x => exact absurd hv (by simp [Value.weightFault?])
  | int n =>
    have hlarge : Real64.firstTooLarge ≤ n.natAbs := by
      by_contra hsmall
      simp [Value.weightFault?, hsmall] at hv
    simp only [Value.weightFault?, hlarge, if_true, Option.some.injEq] at hv
    refine ⟨.conversion .tooLarge, ?_, hv⟩
    simp only [bind, Except.bind, Value.readWeight, Real64.ofInt?_eq_none_iff.2 hlarge]
    rfl
  | nan mark => exact ⟨.weightNaN e.1.value name.value, rfl, Option.some.inj hv⟩
  | _ => exact ⟨.weightNotNumber e.1.value _ name.value, rfl, Option.some.inj hv⟩

/-! ## §2. The edges of a graph, one by one. -/

/-- What is wrong with the weight of an edge.  That of a loop is not looked at. -/
def weightFault? (g : Graph) (name : Value) (e : EdgeEntry) : Option ErrorKind :=
  if e.2.areEqual then none
  else match g.readAttribute .edge e.1.value name .null with
    | .ok v => v.weightFault?
    | .error _ => none

/-- An edge that is no loop has a weight, and it is one that cannot be used. -/
def HasBadWeight (g : Graph) (name : Value) (e : EdgeEntry) : Prop :=
  e.2.areEqual = false ∧ ∃ v kind, g.readAttribute .edge e.1.value name .null = .ok v
    ∧ v.weightFault? = some kind

theorem weightFault?_eq_some_iff {name : Value} : g.weightFault? name e = some kind
    ↔ e.2.areEqual = false ∧ ∃ v, g.readAttribute .edge e.1.value name .null = .ok v
      ∧ v.weightFault? = some kind := by
  unfold weightFault?
  cases e.2.areEqual <;> cases g.readAttribute .edge e.1.value name .null <;> simp

theorem hasBadWeight_iff {name : Value} :
    g.HasBadWeight name e ↔ g.weightFault? name e ≠ none := by
  unfold HasBadWeight
  rw [Option.ne_none_iff_exists']
  simp only [weightFault?_eq_some_iff]
  constructor
  · intro ⟨hproper, v, kind, hread, hv⟩
    exact ⟨kind, hproper, v, hread, hv⟩
  · intro ⟨kind, hproper, v, hread, hv⟩
    exact ⟨hproper, v, kind, hread, hv⟩

instance (g : Graph) (name : Value) (e : EdgeEntry) : Decidable (g.HasBadWeight name e) :=
  decidable_of_iff _ hasBadWeight_iff.symm

theorem bundleEdge_of_fault (hfault : g.weightFault? name.value e = some kind)
    (bundles : List Forest.Bundle) :
    ∃ error, g.bundleEdge name.value bundles e = .error error ∧ error.kind = kind := by
  obtain ⟨hproper, v, hread, hv⟩ := weightFault?_eq_some_iff.1 hfault
  obtain ⟨error, hweight, hkind⟩ := edgeWeight_of_fault hread hv
  refine ⟨error, ?_, hkind⟩
  unfold bundleEdge
  simp [hproper, hweight]

theorem Coherent.bundleEdge_of_faultless (hg : g.Coherent) (he : e ∈ g.edges.entries)
    (hsound : g.weightFault? name.value e = none) (bundles : List Forest.Bundle) :
    g.bundleEdge name.value bundles e = .ok (if e.2.areEqual then bundles
      else Forest.addEdge bundles e.2.source.key e.2.target.key e.1
        (g.weightOf name.value e)) := by
  unfold bundleEdge
  cases hloop : e.2.areEqual with
  | true => simp [hloop]
  | false =>
    obtain ⟨a, ha⟩ := hg.edgeAttributes_of_mem he
    have hread := readAttribute_edge ha name .null
    have hv : ((a.get? name.key).getD .null).weightFault? = none := by
      simpa [weightFault?, hloop, hread] using hsound
    obtain ⟨x, hx⟩ := Value.weightFault?_eq_none_iff.1 hv
    obtain ⟨weight, hweight, hdefault⟩ := edgeWeight_eq hread hx
    simp [hloop, hweight, hdefault]

/-! ## §3. All edges of a graph. -/

/-- Some edges with their weights, without the loops. -/
def weighed (g : Graph) (name : Value) (entries : List EdgeEntry) : List Forest.WeightedEdge :=
  (entries.filter (!·.2.areEqual)).map (g.weightedEntry name)

/-- Edges that are not at fault are bundled one after the other. -/
theorem Coherent.foldlM_bundleEdge (hg : g.Coherent) {entries : List EdgeEntry}
    (hsub : entries ⊆ g.edges.entries)
    (hsound : ∀ e ∈ entries, g.weightFault? name.value e = none) (bundles : List Forest.Bundle) :
    entries.foldlM (g.bundleEdge name.value) bundles = .ok ((g.weighed name.value entries).foldl
      (fun bundles e => Forest.addEdge bundles e.a e.b e.id e.weight) bundles) := by
  induction entries generalizing bundles with
  | nil => rfl
  | cons e rest ih =>
    rw [List.cons_subset] at hsub
    rw [List.foldlM_cons,
      hg.bundleEdge_of_faultless hsub.1 (hsound e List.mem_cons_self) bundles]
    show rest.foldlM (g.bundleEdge name.value) _ = _
    rw [ih hsub.2 (fun f hf => hsound f (List.mem_cons_of_mem _ hf))]
    unfold weighed
    -- a loop is passed over by the fold and left out by the filter
    cases hloop : e.2.areEqual with
    | true => rw [List.filter_cons_of_neg (by simp [hloop])]; rfl
    | false => rw [List.filter_cons_of_pos (by simp [hloop])]; rfl

/-- What is offered to a builder where all weights can be read. -/
def weighedCandidates (g : Graph) (name : Value) : List Forest.WeightedEdge :=
  Forest.candidates (Forest.bundleAll (g.weighed name g.edges.entries)) g.nodeKeys

/-- Where no weight is bad, all are read. -/
theorem Coherent.weightedEdges_of_valid (hg : g.Coherent) (name : Identifier)
    (hvalid : ∀ e ∈ g.edges.entries, ¬g.HasBadWeight name.value e) :
    g.weightedEdges name.value = .ok (g.weighedCandidates name.value) := by
  have hsound : ∀ e ∈ g.edges.entries, g.weightFault? name.value e = none := by
    intro e he
    by_contra hfault
    exact hvalid e he (hasBadWeight_iff.2 hfault)
  unfold weightedEdges
  rw [hg.foldlM_bundleEdge (List.Subset.refl _) hsound]
  rfl

/-- **The first weight at fault decides how reading them all fails.** -/
theorem Coherent.weightedEdges_of_fault (hg : g.Coherent) (name : Identifier)
    {before after : List EdgeEntry} (hsplit : g.edges.entries = before ++ e :: after)
    (hbefore : ∀ f ∈ before, g.weightFault? name.value f = none)
    (hfault : g.weightFault? name.value e = some kind) :
    ∃ error, g.weightedEdges name.value = .error error ∧ error.kind = kind := by
  have hsub : before ⊆ g.edges.entries := by
    rw [hsplit]
    exact List.subset_append_left _ _
  obtain ⟨error, hfails, hkind⟩ := bundleEdge_of_fault hfault
    (Forest.bundleAll (g.weighed name.value before))
  refine ⟨error, ?_, hkind⟩
  unfold weightedEdges
  rw [hsplit, List.foldlM_append, hg.foldlM_bundleEdge hsub hbefore]
  show ((e :: after).foldlM (g.bundleEdge name.value)
    (Forest.bundleAll (g.weighed name.value before)) >>= _) = _
  rw [List.foldlM_cons, hfails]
  rfl

/-! ## §4. What is offered. -/

theorem mem_weighed {name : Value} {c : Forest.WeightedEdge} :
    c ∈ g.weighed name g.edges.entries
      ↔ ∃ e ∈ g.edges.entries, e.2.areEqual = false ∧ g.weightedEntry name e = c := by
  unfold weighed
  simp [and_assoc]

/-- A candidate is an edge that is no loop, with its weight. -/
theorem Coherent.exists_of_mem_weighedCandidates (hg : g.Coherent)
    (hnamed : ∀ e ∈ g.edges.entries, e.1.key ≠ .null) {name : Value} {c : Forest.WeightedEdge}
    (hc : c ∈ g.weighedCandidates name) : ∃ e ∈ g.edges.entries, e.2.areEqual = false
      ∧ c.id = e.1 ∧ c.ends = EdgeEntry.ends e ∧ c.weight = g.weightOf name e := by
  obtain ⟨e, he, hedge⟩ := hg.exists_of_mem_offered List.filter_sublist
    (fun e he => hnamed e (List.mem_of_mem_filter he)) hc
  obtain ⟨he, hproper⟩ := List.mem_filter.1 he
  exact ⟨e, he, by simpa using hproper, hedge⟩

/-- No two candidates have the same id. -/
theorem Coherent.nodup_weighedCandidates (hg : g.Coherent)
    (hnamed : ∀ e ∈ g.edges.entries, e.1.key ≠ .null) (name : Value) :
    ((g.weighedCandidates name).map (·.id.key)).Nodup := by
  have hperm : ((g.weighedCandidates name).map _).Perm
      ((g.weighed name g.edges.entries).map _) :=
    hg.offered_perm List.filter_sublist (fun e he => hnamed e (List.mem_of_mem_filter he)) name
  have hids := hperm.map (·.2.1.key)
  unfold weighed at hids
  rw [List.map_map, List.map_map, List.map_map] at hids
  exact hids.nodup_iff.2 (g.edges.nodup.sublist (List.filter_sublist.map _))

theorem Coherent.within_weighedCandidates (hg : g.Coherent)
    (hnamed : ∀ e ∈ g.edges.entries, e.1.key ≠ .null) (name : Value) :
    Forest.Within Forest.WeightedEdge.ends g.nodeKeys (g.weighedCandidates name) := by
  intro c hc k hk
  obtain ⟨e, he, -, -, hends, -⟩ := hg.exists_of_mem_weighedCandidates hnamed hc
  rw [hends] at hk
  exact hg.within e he k hk

/-! ## §5. What is chosen. -/

theorem namedThroughout_of_named (hnamed : ∀ e ∈ g.edges.entries, e.1.key ≠ .null) :
    NamedThroughout id g := fun e he _ => ⟨hnamed e he, hnamed e he⟩

/-- What is offered to a builder are edges of the table, as long as none that is
no loop has "nothing" for an id. -/
theorem known_of_weightedEdges (hnamed : NamedThroughout id g) {name : Value}
    {edges : List Forest.WeightedEdge} (hedges : g.weightedEdges name = .ok edges) :
    ∀ c ∈ edges, c.id ∈ g.edges.identifiers := by
  -- this is part of what holds of a graph with other ids, here of the graph itself
  have hself : Renamed id g g := ⟨rfl, by simp⟩
  have hknown := hself.weightedEdges hnamed name
  rw [hedges] at hknown
  cases hknown with
  | ok hresult => exact hresult.2

theorem grow_subset (mode : Forest.Mode) (edges : List Forest.WeightedEdge) (nodes : List Key)
    (steps : Nat) (reached : List Key) : Forest.grow mode edges nodes steps reached ⊆ edges := by
  induction steps generalizing reached with
  | zero => exact List.nil_subset _
  | succ steps ih =>
    unfold Forest.grow
    split
    · next e hbest =>
      exact List.cons_subset.2 ⟨List.mem_of_mem_filter (Forest.best?_mem hbest), ih _⟩
    · split
      · exact ih _
      · exact List.nil_subset _

/-- A builder chooses from what it is offered. -/
theorem choose_subset (g : Graph) (algorithm : Algorithm) (mode : Forest.Mode)
    (edges : List Forest.WeightedEdge) : g.choose algorithm mode edges ⊆ edges := by
  cases algorithm with
  | kruskal =>
    intro c hc
    exact (Forest.byWeight_perm mode edges).subset ((Forest.scan_sublist _ _).subset hc)
  | prim => exact grow_subset mode edges _ _ _

end Graph
end EvolvingGraph
