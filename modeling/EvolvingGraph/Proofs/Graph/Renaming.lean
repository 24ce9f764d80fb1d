/-
  EvolvingGraph.Proofs.Graph.Renaming
  ───────────────────────────────────
  **GRAPHS THAT DIFFER IN THE IDS OF THEIR EDGES ONLY.**

  The ids of the edges can be exchanged for others: the network stays as it is,
  and the table of edges has the same ends in the same order under other ids.
  Whatever is asked about an edge by its id, or done to it, is answered and done
  alike under the other id; only the reasons of a failure may name the id.

  Main statements:
    * `Renamed.setAttribute` — writing an edge under either id;
    * `Renamed.spanningIds` — Kruskal's algorithm chooses the same edges, unless
      one of them has "nothing" for an id.
-/
import EvolvingGraph.Proofs.Delivery.Pairing
import EvolvingGraph.Proofs.Forest.Candidates
import EvolvingGraph.Proofs.Forest.Renaming

namespace EvolvingGraph.Graph

/-- A graph is another one with other edge ids. -/
structure Renamed (r : Identifier → Identifier) (g g' : Graph) : Prop where
  network : g'.toNetwork = g.toNetwork
  edges : g'.edges.entries = g.edges.entries.map fun e => (r e.1, e.2)

/-- No edge between different nodes has "nothing" for an id, under either name. -/
def NamedThroughout (r : Identifier → Identifier) (g : Graph) : Prop :=
  ∀ e ∈ g.edges.entries, e.2.areEqual = false → e.1.key ≠ .null ∧ (r e.1).key ≠ .null

variable {g g' : Graph} {r : Identifier → Identifier}

/-- Any two reasons for a failure. -/
abbrev anyReasons : Error → Error → Prop := fun _ _ => True

namespace Renamed

/-! ## §1. Asking about an edge. -/

theorem mem (h : Renamed r g g') {e : EdgeEntry} (he : e ∈ g.edges.entries) :
    (r e.1, e.2) ∈ g'.edges.entries := by
  rw [h.edges]
  exact List.mem_map_of_mem he

theorem endpoints_eq (h : Renamed r g g') {e : EdgeEntry} (he : e ∈ g.edges.entries) :
    g'.endpoints (r e.1).value = g.endpoints e.1.value := by
  rw [Coherent.endpoints_of_mem he, Coherent.endpoints_of_mem (h.mem he)]

theorem edgeAttributes_eq (h : Renamed r g g') {e : EdgeEntry} (he : e ∈ g.edges.entries) :
    g'.edgeAttributes (r e.1).value = g.edgeAttributes e.1.value := by
  unfold edgeAttributes
  rw [h.endpoints_eq he, h.network]

theorem readAttribute_eq (h : Renamed r g g') {e : EdgeEntry} (he : e ∈ g.edges.entries)
    (name default : Value) : g'.readAttribute .edge (r e.1).value name default
      = g.readAttribute .edge e.1.value name default := by
  unfold readAttribute
  rw [show g'.attributesOf .edge (r e.1).value = g.attributesOf .edge e.1.value from
    h.edgeAttributes_eq he]

/-- The ids before an edge differ from its own, under either name. -/
theorem keys_ne (h : Renamed r g g') {done rest : List EdgeEntry} {e : EdgeEntry}
    (hsplit : g.edges.entries = done ++ e :: rest) :
    ∀ id ∈ done.map (·.1), id.key ≠ e.1.key ∧ (r id).key ≠ (r e.1).key := by
  have hnodup := g.edges.nodup
  have hnodup' := g'.edges.nodup
  rw [hsplit, List.map_append, List.nodup_append] at hnodup
  rw [h.edges, hsplit, List.map_map, List.map_append, List.nodup_append] at hnodup'
  intro id hid
  obtain ⟨f, hf, rfl⟩ := List.mem_map.1 hid
  exact ⟨hnodup.2.2 _ (List.mem_map_of_mem hf) _ (List.mem_map_of_mem List.mem_cons_self),
    hnodup'.2.2 _ (List.mem_map_of_mem hf) _ (List.mem_map_of_mem List.mem_cons_self)⟩

/-! ## §2. Writing an edge. -/

theorem modifyLink (h : Renamed r g g') (a b : Key) (f : Attributes → Attributes) :
    Renamed r { g with toNetwork := g.modifyLink a b f }
      { g' with toNetwork := g'.modifyLink a b f } := by
  refine ⟨?_, h.edges⟩
  show g'.toNetwork.modifyLink a b f = _
  rw [h.network]

/-- **An attribute is written under either id, or it is written under neither.** -/
theorem setAttribute (h : Renamed r g g') {e : EdgeEntry} (he : e ∈ g.edges.entries)
    (name v : Value) : EndAlike anyReasons
      (fun x x' => Renamed r x.1 x'.1 ∧ x.1.edges = g.edges)
      (g.setAttribute .edge e.1.value name v) (g'.setAttribute .edge (r e.1).value name v) := by
  have hread : EndAlike anyReasons Eq (g.attributesOf .edge e.1.value)
      (g'.attributesOf .edge (r e.1).value) := by
    rw [show g'.attributesOf .edge (r e.1).value = g.attributesOf .edge e.1.value from
      h.edgeAttributes_eq he]
    exact .of_eq fun _ => trivial
  have hput : ∀ a, EndAlike anyReasons (fun x x' => Renamed r x x' ∧ x.edges = g.edges)
      (g.putAttributes .edge e.1.value a) (g'.putAttributes .edge (r e.1).value a) := by
    intro a
    rw [putAttributes_edge_eq_ok_iff.2 ⟨_, Coherent.endpoints_of_mem he, rfl⟩,
      putAttributes_edge_eq_ok_iff.2 ⟨_, Coherent.endpoints_of_mem (h.mem he), rfl⟩]
    exact .ok ⟨h.modifyLink _ _ _, rfl⟩
  unfold Graph.setAttribute
  refine hread.bind ?_
  rintro a _ rfl
  refine (EndAlike.of_eq fun _ => trivial).bind ?_
  rintro key _ rfl
  exact (hput _).bind fun _ _ hx => .ok hx

/-- The same as an elementary change. -/
theorem apply_setAttribute (h : Renamed r g g') {e : EdgeEntry} (he : e ∈ g.edges.entries)
    (name v : Value) :
    Renamed r (g.apply (.setAttribute .edge e.1.value name v)).1
        (g'.apply (.setAttribute .edge (r e.1).value name v)).1
      ∧ (g.apply (.setAttribute .edge e.1.value name v)).1.edges = g.edges
      ∧ EndAlike anyReasons (fun _ _ => True) (g.apply (.setAttribute .edge e.1.value name v)).2
        (g'.apply (.setAttribute .edge (r e.1).value name v)).2 := by
  have hset := h.setAttribute he name v
  show Renamed r (Outcome.ofExcept g _).1 (Outcome.ofExcept g' _).1
    ∧ (Outcome.ofExcept g _).1.edges = g.edges
    ∧ EndAlike anyReasons _ (Outcome.ofExcept g _).2 (Outcome.ofExcept g' _).2
  revert hset
  generalize g.setAttribute .edge e.1.value name v = x
  generalize g'.setAttribute .edge (r e.1).value name v = x'
  intro hset
  cases hset with
  | ok hx => exact ⟨hx.1, hx.2, .ok trivial⟩
  | error _ => exact ⟨h, rfl, .error trivial⟩

/-! ## §3. Choosing edges. -/

theorem edgeWeight (h : Renamed r g g') {e : EdgeEntry} (he : e ∈ g.edges.entries)
    (name : Value) : EndAlike anyReasons Eq (g.edgeWeight e.1.value name)
      (g'.edgeWeight (r e.1).value name) := by
  unfold Graph.edgeWeight
  rw [h.readAttribute_eq he]
  refine (EndAlike.of_eq fun _ => trivial).bind ?_
  rintro v _ rfl
  cases v.readWeight with
  | missing => exact .ok rfl
  | number x => exact .ok rfl
  | tooLarge => exact .error trivial
  | nan => exact .error trivial
  | notNumber => exact .error trivial

/-- Edges are bundled alike, from wherever the bundling has got to. -/
theorem foldlM_bundleEdge (h : Renamed r g g') (hnamed : NamedThroughout r g) (name : Value)
    {done rest : List EdgeEntry} (hsplit : g.edges.entries = done ++ rest)
    {bundles bundles' : List Forest.Bundle}
    (hbundles : Forest.BundlesRenamed r (done.map (·.1)) bundles bundles') :
    EndAlike anyReasons (Forest.BundlesRenamed r g.edges.identifiers)
      (rest.foldlM (g.bundleEdge name) bundles)
      ((rest.map fun e => (r e.1, e.2)).foldlM (g'.bundleEdge name) bundles') := by
  induction rest generalizing done bundles bundles' with
  | nil =>
    refine .ok ?_
    rw [Catalog.identifiers, hsplit, List.append_nil]
    exact hbundles
  | cons e rest ih =>
    have he : e ∈ g.edges.entries := by
      rw [hsplit]
      exact List.mem_append_right _ List.mem_cons_self
    have hone : EndAlike anyReasons (Forest.BundlesRenamed r ((done ++ [e]).map (·.1)))
        (g.bundleEdge name bundles e) (g'.bundleEdge name bundles' (r e.1, e.2)) := by
      rw [List.map_append]
      unfold Graph.bundleEdge
      cases hloop : e.2.areEqual with
      | true =>
        simp only [hloop, if_true]
        exact .ok (hbundles.imp fun _ _ hb => hb.mono (List.subset_append_left _ _))
      | false =>
        simp only [hloop, Bool.false_eq_true, if_false]
        refine (h.edgeWeight he name).bind ?_
        rintro weight _ rfl
        have hadded := hbundles.addEdge (hnamed e he hloop) (h.keys_ne hsplit)
          e.2.source.key e.2.target.key (weight.getD .one)
        exact .ok (hadded.imp fun _ _ hb => hb.mono (by simp))
    rw [List.map_cons, List.foldlM_cons, List.foldlM_cons]
    exact hone.bind fun _ _ hb => ih (by rw [hsplit]; simp) hb

/-- The candidates are the same under the other ids. -/
theorem weightedEdges (h : Renamed r g g') (hnamed : NamedThroughout r g) (name : Value) :
    EndAlike anyReasons
      (fun x x' => x' = x.map (.rename r) ∧ ∀ c ∈ x, c.id ∈ g.edges.identifiers)
      (g.weightedEdges name) (g'.weightedEdges name) := by
  unfold Graph.weightedEdges
  rw [h.edges, show g'.nodes = g.nodes by rw [h.network]]
  refine (h.foldlM_bundleEdge hnamed name (List.nil_append _).symm .nil).bind ?_
  intro bundles bundles' hbundles
  exact .ok ⟨Forest.candidates_renamed hbundles _,
    fun c hc => Forest.id_mem_of_mem_candidates hbundles.known hc⟩

/-- **Kruskal's algorithm chooses the same edges under the other ids.** -/
theorem spanningIds (h : Renamed r g g') (hnamed : NamedThroughout r g) (mode : Forest.Mode)
    (name : Value) : EndAlike anyReasons
      (fun ids ids' => ∃ chosen : List Identifier, chosen ⊆ g.edges.identifiers
        ∧ ids = chosen.map (·.value) ∧ ids' = chosen.map fun id => (r id).value)
      (g.spanningIds .kruskal mode name) (g'.spanningIds .kruskal mode name) := by
  unfold Graph.spanningIds
  refine (h.weightedEdges hnamed name).bind ?_
  rintro edges _ ⟨rfl, hknown⟩
  refine .ok ⟨(Forest.kruskal mode edges).map (·.id), ?_, ?_, ?_⟩
  · intro id hid
    obtain ⟨c, hc, rfl⟩ := List.mem_map.1 hid
    exact hknown c ((Forest.byWeight_perm mode edges).subset ((Forest.scan_sublist _ _).subset hc))
  · rw [List.map_map]
    rfl
  · show (Forest.kruskal mode (edges.map (.rename r))).map (·.id.value) = _
    rw [Forest.kruskal_map_rename, List.map_map, List.map_map]
    rfl

end Renamed
end EvolvingGraph.Graph
