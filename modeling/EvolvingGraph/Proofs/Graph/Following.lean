/-
  EvolvingGraph.Proofs.Graph.Following
  ────────────────────────────────────
  **A GRAPH WITH THE SAME NODES AND EDGES MAKES THE SAME CHANGES.**

  A coherent graph is given by what can be read from it: its nodes, its edges,
  and the attributes of both.  A graph that reads like another one is therefore
  the other one, but for the direction of its edges.  If it is directed, or the
  other one is not, then a change that takes effect on the other one takes
  effect on it as well, with the same event.

  Main statements:
    * `SameContent.eq_turned` — a graph that reads the same is the same, turned;
    * `Takes.turned` — it makes the same changes and reports the same events;
    * `Takes.plan_asChange` — following an event takes one change.
-/
import EvolvingGraph.Proofs.Graph.Coherence

namespace EvolvingGraph.Graph

/-! ## §1. Graphs that read the same. -/

/-- Two graphs have the same nodes in the same order, with the same attributes
in the same order, and the same edges in the same order, with the same ids,
ends and attributes. -/
structure SameContent (g g' : Graph) : Prop where
  nodes : g'.nodes.entries = g.nodes.entries
  edges : g'.edges.entries = g.edges.entries
  attributes : ∀ e ∈ g.edges.entries,
    g'.edgeAttributes e.1.value = g.edgeAttributes e.1.value

/-- The graph with its edges read as directed ones, or as undirected ones. -/
def turned (g : Graph) (directed : Bool) : Graph := { g with directed }

variable {g g' : Graph} {directed : Bool}

/-- The attributes of an edge, none if they cannot be read. -/
def attributesAt (g : Graph) (e : Identifier × Endpoints) : Attributes :=
  match g.edgeAttributes e.1.value with
  | .ok attributes => attributes
  | .error _ => .empty

/-- The links of a coherent graph, written down from what can be read. -/
theorem Coherent.links_eq (hg : g.Coherent) : g.links
    = g.edges.entries.map fun e => ⟨e.2.source, e.2.target, g.attributesAt e⟩ := by
  have hlength : g.links.length = g.edges.entries.length := by
    simpa using congrArg List.length hg.aligned
  have hnodup := hg.nodup_endpoints
  apply List.ext_getElem (by simpa using hlength)
  intro i hi hi'
  rw [List.getElem_map]
  have hentry : i < g.edges.entries.length := hlength ▸ hi
  have hends : g.links[i].endpoints = g.edges.entries[i].2 := by
    have hmapped : (g.links.map Link.endpoints)[i]? = (g.edges.entries.map (·.2))[i]? := by
      rw [hg.aligned]
    simpa [hi, hentry] using hmapped
  have hmem := List.getElem_mem hentry
  obtain ⟨l, hl, hl', hlink⟩ := hg.link?_of_mem hmem
  -- no other link has these ends
  have hown : l = g.links[i] := List.inj_on_of_nodup_map hnodup hl (List.getElem_mem hi)
    (hl'.trans hends.symm)
  have hread : g.edgeAttributes g.edges.entries[i].1.value = .ok g.links[i].attributes :=
    edgeAttributes_eq_ok_iff.2 ⟨_, l, endpoints_of_mem hmem, hlink, congrArg _ hown⟩
  unfold attributesAt
  rw [hread, ← hends]
  rfl

/-- **A coherent graph that reads like another one is the other one, turned.** -/
theorem SameContent.eq_turned (h : SameContent g g') (hg : g.Coherent) (hg' : g'.Coherent) :
    g' = g.turned g'.directed := by
  have hnodes : g'.nodes = g.nodes := Catalog.ext h.nodes
  have hedges : g'.edges = g.edges := Catalog.ext h.edges
  have hlinks : g'.links = g.links := by
    rw [hg.links_eq, hg'.links_eq, h.edges]
    apply List.map_congr_left
    intro e he
    unfold attributesAt
    rw [h.attributes e he]
  rcases g' with ⟨⟨directed, nodes, links⟩, edges⟩
  cases hnodes
  cases hedges
  cases hlinks
  rfl

/-! ## §2. The same changes. -/

/-- A directed graph tells at least the pairs apart that an undirected one does. -/
theorem samePair_of_turned (hdir : g.directed = true → directed = true) {e f : Endpoints}
    (h : e.SamePair directed f) : e.SamePair g.directed f := by
  cases hg : g.directed with
  | true =>
    rw [hdir hg] at h
    exact h
  | false =>
    obtain h | ⟨_, h⟩ := h
    · exact .inl h
    · exact .inr ⟨rfl, h⟩

theorem Coherent.turned (hg : g.Coherent) (hdir : g.directed = true → directed = true) :
    (g.turned directed).Coherent where
  aligned := hg.aligned
  ends_mem := hg.ends_mem
  apart := hg.apart.imp fun hapart hsame => hapart (samePair_of_turned hdir hsame)

theorem Coherent.joins_turned (hg : g.Coherent) (hdir : g.directed = true → directed = true)
    {e : Identifier × Endpoints} (he : e ∈ g.edges.entries) {l : Link} (hl : l ∈ g.links) :
    l.joins directed e.2.source.key e.2.target.key
      = l.joins g.directed e.2.source.key e.2.target.key := by
  rw [Bool.eq_iff_iff, hg.joins_iff he hl]
  exact (hg.turned hdir).joins_iff he hl

/-- A turned graph finds the same link at the ends of an edge. -/
theorem Coherent.link?_turned (hg : g.Coherent) (hdir : g.directed = true → directed = true)
    {e : Identifier × Endpoints} (he : e ∈ g.edges.entries) :
    (g.turned directed).link? e.2.source.key e.2.target.key
      = g.link? e.2.source.key e.2.target.key :=
  List.find?_congr fun _ hl => hg.joins_turned hdir he hl

theorem Coherent.edgeAttributes_turned (hg : g.Coherent)
    (hdir : g.directed = true → directed = true) (id : Value) :
    (g.turned directed).edgeAttributes id = g.edgeAttributes id := by
  unfold edgeAttributes
  show (g.endpoints id >>= fun ends => _) = (g.endpoints id >>= fun ends => _)
  cases hends : g.endpoints id with
  | error e => rfl
  | ok ends =>
    obtain ⟨k, _, hget⟩ := endpoints_eq_ok_iff.1 hends
    obtain ⟨name, hmem, _⟩ := Catalog.get?_eq_some_iff.1 hget
    have hlink := hg.link?_turned hdir hmem
    simp only [bind, Except.bind]
    rw [hlink]

theorem Coherent.sameContent_turned (hg : g.Coherent)
    (hdir : g.directed = true → directed = true) : SameContent g (g.turned directed) :=
  ⟨rfl, rfl, fun _ _ => hg.edgeAttributes_turned hdir _⟩

theorem Coherent.attributesOf_turned (hg : g.Coherent)
    (hdir : g.directed = true → directed = true) (on : ElementKind) (id : Value) :
    (g.turned directed).attributesOf on id = g.attributesOf on id := by
  cases on with
  | node => rfl
  | edge => exact hg.edgeAttributes_turned hdir id

/-- A turned graph puts attributes on the same elements. -/
theorem Coherent.putAttributes_turned (hg : g.Coherent)
    (hdir : g.directed = true → directed = true) {on : ElementKind} {id : Value} {a : Attributes}
    (h : g.putAttributes on id a = .ok g') :
    (g.turned directed).putAttributes on id a = .ok (g'.turned directed) := by
  cases on with
  | node =>
    obtain ⟨k, hk, rfl⟩ := putAttributes_node_eq_ok_iff.1 h
    exact putAttributes_node_eq_ok_iff.2 ⟨k, hk, rfl⟩
  | edge =>
    obtain ⟨ends, hends, rfl⟩ := putAttributes_edge_eq_ok_iff.1 h
    obtain ⟨k, _, hget⟩ := endpoints_eq_ok_iff.1 hends
    obtain ⟨name, hmem, _⟩ := Catalog.get?_eq_some_iff.1 hget
    refine putAttributes_edge_eq_ok_iff.2 ⟨ends, hends, ?_⟩
    unfold Graph.turned Network.modifyLink
    congr 2
    apply List.map_congr_left
    intro l hl
    rw [hg.joins_turned hdir hmem hl]

/-- **A change that takes effect on a graph takes effect on the turned graph,
and is reported by the same event.** -/
theorem Takes.turned {c : Change} {event : Event} (h : g.Takes c g' event) (hg : g.Coherent)
    (hdir : g.directed = true → directed = true) :
    (g.turned directed).Takes c (g'.turned directed) event := by
  cases h with
  | addNode fresh named => exact .addNode fresh named
  | removeNode key present => exact .removeNode key present
  | @addEdge name source target fresh source_mem target_mem apart =>
    refine .addEdge fresh source_mem target_mem ?_
    -- a pair that is free in one direction or both is free in this one
    have hturned := (hg.turned hdir).linked_iff (f := ⟨source, target⟩)
    rw [Bool.eq_false_iff, Ne, hturned]
    rintro ⟨e, he, hsame⟩
    have hlinked : g.linked source.key target.key = true :=
      hg.linked_iff (f := ⟨source, target⟩).2 ⟨e, he, samePair_of_turned hdir hsame⟩
    exact absurd (hlinked.symm.trans apart) (by simp)
  | @removeEdge id k ends key found linked =>
    obtain ⟨name, hmem, _⟩ := Catalog.get?_eq_some_iff.1 found
    have hlinked : (g.turned directed).linked ends.source.key ends.target.key = true :=
      (hg.turned hdir).linked_of_mem hmem
    -- either way it is the one link of the edge that goes
    have hfilter : (g.turned directed).disconnect ends.source.key ends.target.key
        = { g.disconnect ends.source.key ends.target.key with directed } := by
      unfold Graph.turned Network.disconnect
      congr 1
      apply List.filter_congr
      intro l hl
      rw [hg.joins_turned hdir hmem hl]
    have htakes := Takes.removeEdge (g := g.turned directed) key found hlinked
    rw [hfilter] at htakes
    exact htakes
  | setAttribute read put =>
    refine .setAttribute ?_ (hg.putAttributes_turned hdir put)
    rw [hg.attributesOf_turned hdir]
    exact read
  | removeAttribute read key found put =>
    refine .removeAttribute ?_ key found (hg.putAttributes_turned hdir put)
    rw [hg.attributesOf_turned hdir]
    exact read
  | clear => exact .clear

/-- No change turns a graph. -/
theorem Takes.directed_eq {c : Change} {event : Event} (h : g.Takes c g' event) :
    g'.directed = g.directed := by
  cases h with
  | setAttribute read put => exact (sameShape_of_putAttributes put).directed
  | removeAttribute read key found put => exact (sameShape_of_putAttributes put).directed
  | _ => rfl

/-- What is asked of a graph to follow an event is a single change: a node whose
removal is reported has no edges left. -/
theorem Takes.plan_asChange {c : Change} {event : Event} (h : g.Takes c g' event)
    (horderly : g.Orderly c) : g.plan event.asChange .empty = .ok [c] := by
  rw [h.asChange]
  cases h with
  | removeNode key present =>
    have hk := nodeKey_eq_ok_iff.2 ⟨key, present⟩
    simp [plan, hk, horderly _ _ rfl key]
  | _ => rfl

end EvolvingGraph.Graph
