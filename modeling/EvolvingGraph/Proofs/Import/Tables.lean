/-
  EvolvingGraph.Proofs.Import.Tables
  ──────────────────────────────────
  **THE TABLE OF A GRAPH, READ AS A GRAPH AGAIN.**

  The table of the edges of a graph has all that is needed to make them again:
  read as a graph, it gives back every edge with its id, its ends and its
  attributes, in the same order.  Nodes are known to it as ends of edges only; so
  of the nodes those come back that have an edge, without their attributes.

  Main statements:
    * `Coherent.fits_of_alike` — edges like those of a graph can be added with their ends;
    * `edgeTable_roundTrip` — the table of a graph is read as a graph with its edges.
-/
import EvolvingGraph.Proofs.Graph.Listing
import EvolvingGraph.Proofs.Table.Reading

namespace EvolvingGraph

/-! ## §1. Edges like those of a graph. -/

namespace Graph

variable {g : Graph} {told : List EdgeRecord}

/-- Edges like those of a graph can be added with their ends. -/
theorem Coherent.fits_of_alike (hg : g.Coherent) (htab : ∀ r ∈ g.records, r.Tabular)
    (halike : List.Forall₂ EdgeRecord.Alike g.records told) :
    (empty g.directed).Fits told := by
  have hturned : List.Forall₂ (flip EdgeRecord.Alike) told g.records :=
    List.Forall₂.flip (R := flip EdgeRecord.Alike) halike
  have hkeys : told.map (·.name.key) = g.records.map (·.name.key) :=
    map_eq_of_forall₂ hturned fun _ _ h => h.name
  have hends : ∀ r' ∈ told, r'.source.value.isNull = false ∧ r'.target.value.isNull = false
      ∧ Attributes.NamedOutside r'.attributes ["self", "edge_id", "source", "target"] := by
    intro r' hr'
    obtain ⟨r, hr, h⟩ := exists_of_forall₂ hturned hr'
    have h : r.Alike r' := h
    have hsource := Value.isFirm_of_key?_eq (htab r hr).source h.key?_source
    have htarget := Value.isFirm_of_key?_eq (htab r hr).target h.key?_target
    exact ⟨Value.isNull_eq_false_of_isMissing hsource.isMissing,
      Value.isNull_eq_false_of_isMissing htarget.isMissing,
      (h.namedOutside (htab r hr).named).mono (by decide)⟩
  exact {
    source_named := fun r' hr' => (hends r' hr').1
    target_named := fun r' hr' => (hends r' hr').2.1
    fresh := by
      show ((told.map EdgeRecord.entry).map (·.1.key)).Nodup
      rw [List.map_map]
      show (told.map (·.name.key)).Nodup
      rw [hkeys]
      have hnodup := g.edges.nodup
      rw [← entries_records, List.map_map] at hnodup
      exact hnodup
    unlinked := fun _ _ => rfl
    apart := by
      have hapart := hg.apart
      rw [← entries_records, List.pairwise_map] at hapart
      exact pairwise_of_forall₂ (r := flip EdgeRecord.Alike)
        (fun _ _ _ _ h h' hne hsame => hne ((EdgeRecord.Alike.samePair_iff h h' _).1 hsame))
        hturned hapart
    accepted := fun r' hr' => Change.accepts_iff.2 (hends r' hr').2.2 }

/-! ## §2. Reading and writing. -/

/-- An edge of a graph and one of another one: equal ids, equal ends, and the same
attributes, each with equal values. -/
structure SameEdge (g g' : Graph) (e e' : Identifier × Endpoints) : Prop where
  id : e.1.value.equals e'.1.value = .ok true
  source : e.2.source.value.equals e'.2.source.value = .ok true
  target : e.2.target.value.equals e'.2.target.value = .ok true
  attributes : ∃ a a', g.edgeAttributes e.1.value = .ok a ∧ g'.edgeAttributes e'.1.value = .ok a'
    ∧ ∀ k, Option.Rel (fun v w : Value => v.equals w = .ok true) (a.get? k) (a'.get? k)

/-- A graph has the edges of another one, in their order; its nodes are the nodes
of the other one that have an edge, in the order in which the edges come to them. -/
structure HasEdgesOf (g' g : Graph) : Prop where
  directed : g'.directed = g.directed
  edges : List.Forall₂ (g.SameEdge g') g.edges.entries g'.edges.entries
  node_order : g'.nodes.identifiers.map (·.key)
    = (g.edges.entries.flatMap fun e => [e.2.source.key, e.2.target.key]).eraseDups
  node_mem : ∀ node' ∈ g'.nodes.identifiers, ∃ node ∈ g.nodes.identifiers,
    node.value.equals node'.value = .ok true

/-- Edges that are alike are the same to those who compare them. -/
theorem sameEdge_of_alike (hg : g.Coherent) (hfits : (empty g.directed).Fits told)
    {e : Identifier × Endpoints} (he : e ∈ g.edges.entries) (htab : (g.recordOf e).Tabular)
    {r : EdgeRecord} (hr : r ∈ told) (h : (g.recordOf e).Alike r) :
    g.SameEdge (ofRecords g.directed told) e r.entry where
  id := Value.equals_of_key?_eq htab.name h.key?_name
  source := Value.equals_of_key?_eq htab.source h.key?_source
  target := Value.equals_of_key?_eq htab.target h.key?_target
  attributes := by
    refine ⟨_, _, hg.edgeAttributes_eq he, hfits.edgeAttributes_ofRecords hr, fun k => ?_⟩
    have hfirm : ∀ v, (g.recordOf e).attributes.get? k = some v → v.IsFirm := by
      intro v hv
      obtain ⟨name, hmem, -⟩ := Catalog.get?_eq_some_iff.1 hv
      exact htab.values _ hmem
    have hk := h.attributes k
    show Option.Rel _ ((g.recordOf e).attributes.get? k) (r.attributes.get? k)
    generalize (g.recordOf e).attributes.get? k = x at hk hfirm ⊢
    generalize r.attributes.get? k = y at hk ⊢
    cases hk with
    | none => exact .none
    | some hkey => exact .some (Value.equals_of_key?_eq (hfirm _ rfl) hkey)

/-- The nodes that edges like those of a graph come to are its nodes that have an edge. -/
theorem keys_ofRecords_of_alike
    (halike : List.Forall₂ EdgeRecord.Alike g.records told) :
    (ofRecords g.directed told).nodes.identifiers.map (·.key)
      = (g.edges.entries.flatMap fun e => [e.2.source.key, e.2.target.key]).eraseDups := by
  have hends : g.records.map (fun r => r.ends.map (·.key))
      = told.map fun r => r.ends.map (·.key) :=
    map_eq_of_forall₂ halike fun r r' h => by
      simp only [EdgeRecord.ends, List.map_cons, List.map_nil, h.source, h.target]
  rw [keys_ofRecords, List.map_flatMap, List.flatMap_def, ← hends, records, List.map_map]
  rfl

/-- The graph of edges that are like those of a graph has its edges. -/
theorem Coherent.hasEdgesOf_of_alike (hg : g.Coherent) (hplain : g.Plain)
    (halike : List.Forall₂ EdgeRecord.Alike g.records told) :
    (ofRecords g.directed told).HasEdgesOf g where
  directed := directed_ofRecords _ _
  edges := by
    have htab := hplain.tabular hg
    have hfits := hg.fits_of_alike htab halike
    rw [hfits.entries_ofRecords, List.forall₂_map_right_iff]
    refine (forall₂_mem (List.forall₂_map_left_iff.1 halike)).imp fun e r h => ?_
    exact sameEdge_of_alike hg hfits h.1 (htab _ (List.mem_map_of_mem h.1)) h.2.1 h.2.2
  node_order := keys_ofRecords_of_alike halike
  node_mem := by
    intro node' hnode'
    have hkey : node'.key ∈ g.edges.entries.flatMap
        fun e => [e.2.source.key, e.2.target.key] := by
      rw [← List.mem_eraseDups, ← keys_ofRecords_of_alike halike]
      exact List.mem_map_of_mem hnode'
    obtain ⟨e, he, hend⟩ := List.mem_flatMap.1 hkey
    -- both ends of an edge are nodes of the graph
    have hcontains : g.nodes.contains node'.key = true := by
      simp only [List.mem_cons, List.not_mem_nil, or_false] at hend
      obtain hend | hend := hend
      · rw [hend]
        exact (hg.ends_mem e he).1
      · rw [hend]
        exact (hg.ends_mem e he).2
    obtain ⟨node, hnode, hsame⟩ := contains_iff_identifiers.1 hcontains
    refine ⟨node, hnode, Value.equals_of_key?_eq (hplain.node_ids node hnode).isFirm ?_⟩
    rw [node'.key?_value, node.key?_value, hsame]

end Graph

/-- **The table of a graph is read as a graph with its edges, and with the nodes
that have an edge.**  Every graph that requests have made is coherent
(`Graph.Reachable.coherent`). -/
theorem edgeTable_roundTrip {g : Graph} (hg : g.Coherent) (hplain : g.Plain) (mark : Nat) :
    ∃ t g', g.table mark = .ok t
      ∧ Graph.ofTable t { TableReading.standard with directed := g.directed } = .ok g'
      ∧ g'.HasEdgesOf g := by
  have htab := hplain.tabular hg
  obtain ⟨t, htable, hshows⟩ := Graph.table_shows hg htab mark
  obtain ⟨told, halike, hread⟩ := hshows.ofTable_eq htab g.directed
  refine ⟨t, _, htable, hread.trans (hg.fits_of_alike htab halike).foldlM_requestRow, ?_⟩
  exact hg.hasEdgesOf_of_alike hplain halike

/-- A node that one edge knows as "true", a loop, and a node without an edge; of the
weights one is a whole number, one a double, and one is not there. -/
def raggedEdges : Graph where
  directed := true
  nodes := ((Catalog.empty.insert (.ofInt 1) .empty).insert (.ofText "apart") .empty).insert
    (.ofText "b") .empty
  links :=
    [⟨.ofText "b", (Value.bool true).asName, Catalog.empty.insert (.ofText "weight") (.int 3)⟩,
      ⟨.ofText "b", .ofText "b", .empty⟩,
      ⟨.ofInt 1, .ofText "b", Catalog.empty.insert (.ofText "weight") (.float .one)⟩]
  edges := ((Catalog.empty.insert (.ofText "bond")
      ⟨.ofText "b", (Value.bool true).asName⟩).insert
    (.ofText "loop") ⟨.ofText "b", .ofText "b"⟩).insert (.ofInt 2) ⟨.ofInt 1, .ofText "b"⟩

theorem coherent_raggedEdges : raggedEdges.Coherent where
  aligned := rfl
  ends_mem := List.forall_mem_cons.2 ⟨⟨rfl, rfl⟩, List.forall_mem_cons.2 ⟨⟨rfl, rfl⟩,
    List.forall_mem_singleton.2 ⟨rfl, rfl⟩⟩⟩
  apart := by
    have htrue : (Value.bool true).asName.key = .int 1 := rfl
    show List.Pairwise _ [_, _, _]
    simp [Endpoints.SamePair, raggedEdges, Identifier.ofText, Identifier.ofInt, htrue]

theorem plain_raggedEdges : raggedEdges.Plain where
  edge_ids := List.forall_mem_cons.2 ⟨trivial, List.forall_mem_cons.2 ⟨trivial,
    List.forall_mem_singleton.2 (by decide : (2 : Int).natAbs < twoTo 53)⟩⟩
  node_ids := List.forall_mem_cons.2 ⟨(by decide : (1 : Int).natAbs < twoTo 53),
    List.forall_mem_cons.2 ⟨trivial, List.forall_mem_singleton.2 trivial⟩⟩
  values := List.forall_mem_cons.2
    ⟨List.forall_mem_singleton.2 (by decide : (3 : Int).natAbs < twoTo 53),
      List.forall_mem_cons.2 ⟨fun _ h => absurd h List.not_mem_nil,
        List.forall_mem_singleton.2 (List.forall_mem_singleton.2 trivial)⟩⟩
  names := List.forall_mem_cons.2
    ⟨List.forall_mem_singleton.2 ⟨"weight", rfl, by decide⟩,
      List.forall_mem_cons.2 ⟨fun _ h => absurd h List.not_mem_nil,
        List.forall_mem_singleton.2 (List.forall_mem_singleton.2 ⟨"weight", rfl, by decide⟩)⟩⟩

theorem edgeTable_roundTrip_raggedEdges :
    ∃ t g', raggedEdges.table 1 = .ok t
      ∧ Graph.ofTable t { TableReading.standard with directed := true } = .ok g'
      ∧ g'.HasEdgesOf raggedEdges :=
  edgeTable_roundTrip coherent_raggedEdges plain_raggedEdges 1

end EvolvingGraph
