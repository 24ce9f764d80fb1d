/-
  EvolvingGraph.Proofs.Graph.Frame
  ────────────────────────────────
  **GRAPHS WITH THE SAME NODES AND EDGES.**

  Two graphs have the same nodes, and the same edges between the same pairs; in
  which order they are listed, which attributes they have, and which way round an
  undirected edge is written makes no difference.  A change that takes effect on
  one of them can be made to the other as well, and then they have the same nodes
  and edges again.  Only the removal of an attribute may find nothing to remove
  there, and reports nothing then.

  Main statements:
    * `SameFrame.symm`, `SameFrame.trans` — having the same nodes and edges;
    * `SameFrame.catchesUp` — the other graph can always make the change.
-/
import EvolvingGraph.Proofs.Graph.Coherence

namespace EvolvingGraph

theorem Endpoints.SamePair.trans {directed : Bool} {e f d : Endpoints}
    (h : SamePair directed e f) (h' : SamePair directed f d) : SamePair directed e d := by
  obtain ⟨hs, ht⟩ | ⟨hd, hs, ht⟩ := h <;> obtain ⟨hs', ht'⟩ | ⟨hd', hs', ht'⟩ := h'
  · exact .inl ⟨hs.trans hs', ht.trans ht'⟩
  · exact .inr ⟨hd', hs.trans hs', ht.trans ht'⟩
  · exact .inr ⟨hd, hs.trans ht', ht.trans hs'⟩
  · exact .inl ⟨hs.trans ht', ht.trans hs'⟩

namespace Graph

/-! ## §1. The same nodes and edges. -/

/-- Two graphs have the same nodes, and the same edges between the same pairs. -/
structure SameFrame (g h : Graph) : Prop where
  directed : h.directed = g.directed
  nodes : ∀ k, h.nodes.contains k = g.nodes.contains k
  edges : ∀ k, Option.Rel (Endpoints.SamePair g.directed) (g.edges.get? k) (h.edges.get? k)

variable {g h g' h' : Graph}

namespace SameFrame

theorem of_sameShape (hshape : g.SameShape h) : g.SameFrame h := by
  refine ⟨hshape.directed, hshape.contains, fun k => ?_⟩
  rw [hshape.edges]
  cases g.edges.get? k with
  | none => exact .none
  | some ends => exact .some (Endpoints.samePair_refl _ ends)

theorem symm (hframe : g.SameFrame h) : h.SameFrame g := by
  refine ⟨hframe.directed.symm, fun k => (hframe.nodes k).symm, fun k => ?_⟩
  have hedge := hframe.edges k
  rw [hframe.directed]
  revert hedge
  generalize g.edges.get? k = ends
  generalize h.edges.get? k = ends'
  rintro (hpair | _)
  · exact .some hpair.symm
  · exact .none

theorem trans (hframe : g.SameFrame h) (hframe' : h.SameFrame g') : g.SameFrame g' := by
  refine ⟨hframe'.directed.trans hframe.directed,
    fun k => (hframe'.nodes k).trans (hframe.nodes k), fun k => ?_⟩
  have hedge := hframe.edges k
  have hedge' := hframe'.edges k
  rw [hframe.directed] at hedge'
  revert hedge hedge'
  generalize g.edges.get? k = ends
  generalize h.edges.get? k = ends'
  generalize g'.edges.get? k = ends''
  rintro (hpair | _) (hpair' | _)
  · exact .some (hpair.trans hpair')
  · exact .none

/-- The other graph has each edge, between the same pair. -/
theorem get?_edge (hframe : g.SameFrame h) {k : Key} {ends : Endpoints}
    (hget : g.edges.get? k = some ends) :
    ∃ ends', h.edges.get? k = some ends' ∧ ends.SamePair g.directed ends' := by
  have hedge := hframe.edges k
  rw [hget] at hedge
  revert hedge
  generalize h.edges.get? k = found
  rintro (hpair | _)
  exact ⟨_, rfl, hpair⟩

theorem contains_edge (hframe : g.SameFrame h) (k : Key) :
    h.edges.contains k = g.edges.contains k := by
  have hle : ∀ {g h : Graph}, g.SameFrame h → g.edges.contains k = true →
      h.edges.contains k = true := by
    intro g h hframe hmem
    obtain ⟨ends, hget⟩ := Catalog.contains_iff_get?.1 hmem
    obtain ⟨ends', hget', -⟩ := hframe.get?_edge hget
    exact Catalog.contains_iff_get?.2 ⟨ends', hget'⟩
  exact Bool.eq_iff_iff.2 ⟨hle hframe.symm, hle hframe⟩

/-- An edge of one graph is an edge of the other. -/
theorem exists_entry (hframe : g.SameFrame h) {e : Identifier × Endpoints}
    (he : e ∈ g.edges.entries) :
    ∃ f ∈ h.edges.entries, f.1.key = e.1.key ∧ e.2.SamePair g.directed f.2 := by
  obtain ⟨ends, hget, hpair⟩ := hframe.get?_edge (Catalog.get?_of_mem he)
  obtain ⟨name, hmem, hkey⟩ := Catalog.get?_eq_some_iff.1 hget
  exact ⟨(name, ends), hmem, hkey, hpair⟩

theorem linked_eq (hframe : g.SameFrame h) (hg : g.Coherent) (hh : h.Coherent) (f : Endpoints) :
    h.linked f.source.key f.target.key = g.linked f.source.key f.target.key := by
  have hle : ∀ {g h : Graph}, g.SameFrame h → g.Coherent → h.Coherent →
      g.linked f.source.key f.target.key = true → h.linked f.source.key f.target.key = true := by
    intro g h hframe hg hh hlinked
    obtain ⟨e, he, hsame⟩ := hg.linked_iff.1 hlinked
    obtain ⟨d, hd, -, hpair⟩ := hframe.exists_entry he
    refine hh.linked_iff.2 ⟨d, hd, ?_⟩
    rw [hframe.directed]
    exact hpair.symm.trans hsame
  exact Bool.eq_iff_iff.2 ⟨hle hframe.symm hh hg, hle hframe hg hh⟩

theorem incident_eq_nil (hframe : g.SameFrame h) {k : Key} (hk : g.incident k = []) :
    h.incident k = [] := by
  unfold incident
  rw [List.map_eq_nil_iff, List.filter_eq_nil_iff]
  intro e he htouches
  obtain ⟨f, hf, -, hpair⟩ := hframe.symm.exists_entry he
  obtain ⟨hsource, htarget⟩ := Coherent.not_touches_of_incident_eq_nil hk hf
  simp only [Bool.or_eq_true, beq_iff_eq] at htouches
  obtain ⟨hs, ht⟩ | ⟨-, hs, ht⟩ := hpair
  · rw [hs, ht] at htouches
    exact htouches.elim hsource htarget
  · rw [hs, ht] at htouches
    exact htouches.elim htarget hsource

theorem orderly (hframe : g.SameFrame h) {c : Change} (hc : g.Orderly c) : h.Orderly c :=
  fun id k hid hk => hframe.incident_eq_nil (hc id k hid hk)

/-- Where attributes can be read in one graph, they can be read in the other. -/
theorem exists_attributesOf (hframe : g.SameFrame h) (hh : h.Coherent) {on : ElementKind}
    {id : Value} {a : Attributes} (hread : g.attributesOf on id = .ok a) :
    ∃ b, h.attributesOf on id = .ok b := by
  cases on with
  | node =>
    obtain ⟨k, hk, -⟩ := bind_eq_ok_iff.1 hread
    obtain ⟨hkey, hmem⟩ := nodeKey_eq_ok_iff.1 hk
    rw [← hframe.nodes k] at hmem
    exact ⟨_, bind_eq_ok_iff.2 ⟨k, nodeKey_eq_ok_iff.2 ⟨hkey, hmem⟩, rfl⟩⟩
  | edge =>
    obtain ⟨ends, l, hends, -, -⟩ := edgeAttributes_eq_ok_iff.1 hread
    obtain ⟨k, hkey, hget⟩ := endpoints_eq_ok_iff.1 hends
    obtain ⟨ends', hget', -⟩ := hframe.get?_edge hget
    obtain ⟨name, hmem, -⟩ := Catalog.get?_eq_some_iff.1 hget'
    obtain ⟨l', -, -, hlink⟩ := hh.link?_of_mem hmem
    exact ⟨l'.attributes, edgeAttributes_eq_ok_iff.2
      ⟨ends', l', endpoints_eq_ok_iff.2 ⟨k, hkey, hget'⟩, hlink, rfl⟩⟩

end SameFrame

/-- Where attributes can be read, others can be put. -/
theorem exists_putAttributes {on : ElementKind} {id : Value} {a : Attributes}
    (hread : g.attributesOf on id = .ok a) (b : Attributes) :
    ∃ g', g.putAttributes on id b = .ok g' := by
  cases on with
  | node =>
    obtain ⟨k, hk, -⟩ := bind_eq_ok_iff.1 hread
    exact ⟨_, putAttributes_node_eq_ok_iff.2 ⟨k, hk, rfl⟩⟩
  | edge =>
    obtain ⟨ends, -, hends, -, -⟩ := edgeAttributes_eq_ok_iff.1 hread
    exact ⟨_, putAttributes_edge_eq_ok_iff.2 ⟨ends, hends, rfl⟩⟩

/-! ## §2. The same changes. -/

/-- When it is told of an event, a graph can make the change that the event is
about, and no other; afterwards it has the same nodes and edges as a given graph. -/
structure CatchesUp (h : Graph) (event : Event) (after : Graph) : Prop where
  planned : h.plan event.asChange .empty = .ok [event.asChange]
  made : ∃ h' reported, h.apply event.asChange = (h', .ok reported) ∧ h'.Coherent
    ∧ after.SameFrame h'

namespace SameFrame

theorem plan_eq (hframe : g.SameFrame h) {c : Change} {event : Event}
    (htakes : g.Takes c g' event) (horderly : g.Orderly c) :
    h.plan c .empty = .ok [c] := by
  cases htakes with
  | @removeNode id k key present =>
    rw [← hframe.nodes k] at present
    have hnode : h.nodeKey id = .ok k := nodeKey_eq_ok_iff.2 ⟨key, present⟩
    simp [plan, hnode, hframe.orderly horderly id k rfl key]
  | _ => rfl

/-- A change with an attribute leaves both graphs their nodes and edges. -/
theorem put (hframe : g.SameFrame h) {on : ElementKind} {id : Value} {a b : Attributes}
    (hg : g.putAttributes on id a = .ok g') (hh : h.putAttributes on id b = .ok h') :
    g'.SameFrame h' :=
  ((of_sameShape (sameShape_of_putAttributes hg)).symm.trans hframe).trans
    (of_sameShape (sameShape_of_putAttributes hh))

/-- **A change that takes effect on one of two graphs with the same nodes and edges
can be made to the other as well.** -/
theorem catchesUp (hframe : g.SameFrame h) (hg : g.Coherent) (hh : h.Coherent) {c : Change}
    {event : Event} (htakes : g.Takes c g' event) (horderly : g.Orderly c) :
    h.CatchesUp event g' := by
  -- but for one case the change takes effect there as well
  have hmade : ∀ {h' : Graph} {event' : Event}, h.Takes c h' event' → g'.SameFrame h' →
      ∃ h' reported, h.apply c = (h', .ok reported) ∧ h'.Coherent ∧ g'.SameFrame h' :=
    fun htakes' hframe' => ⟨_, _, apply_eq_some_iff.2 htakes',
      hh.takes htakes' (hframe.orderly horderly), hframe'⟩
  refine ⟨htakes.asChange ▸ hframe.plan_eq htakes horderly, ?_⟩
  rw [htakes.asChange]
  cases htakes with
  | @addNode name fresh named =>
    refine hmade (.addNode ((hframe.nodes _).trans fresh) named)
      ⟨hframe.directed, fun k => ?_, hframe.edges⟩
    rw [Catalog.contains_insert, Catalog.contains_insert, hframe.nodes]
  | @removeNode id k key present =>
    refine hmade (.removeNode key ((hframe.nodes _).trans present))
      ⟨hframe.directed, fun j => ?_, hframe.edges⟩
    show (h.nodes.erase k).contains j = (g.nodes.erase k).contains j
    rw [Catalog.contains_erase, Catalog.contains_erase, hframe.nodes]
  | @addEdge name source target fresh source_mem target_mem apart =>
    refine hmade (.addEdge ((hframe.contains_edge _).trans fresh)
      ((hframe.nodes _).trans source_mem) ((hframe.nodes _).trans target_mem)
      ((hframe.linked_eq hg hh ⟨source, target⟩).trans apart)) ⟨hframe.directed, hframe.nodes, ?_⟩
    intro k
    show Option.Rel _ ((g.edges.insert name _).get? k) ((h.edges.insert name _).get? k)
    by_cases hk : k = name.key
    · rw [hk, Catalog.get?_insert_self, Catalog.get?_insert_self]
      exact .some (Endpoints.samePair_refl _ _)
    · rw [Catalog.get?_insert_of_ne _ _ _ hk, Catalog.get?_insert_of_ne _ _ _ hk]
      exact hframe.edges k
  | @removeEdge id k ends key found linked =>
    obtain ⟨ends', found', -⟩ := hframe.get?_edge found
    obtain ⟨name, hmem, -⟩ := Catalog.get?_eq_some_iff.1 found'
    refine hmade (.removeEdge key found' (hh.linked_of_mem hmem))
      ⟨hframe.directed, hframe.nodes, fun j => ?_⟩
    show Option.Rel _ ((g.edges.erase k).get? j) ((h.edges.erase k).get? j)
    by_cases hj : j = k
    · rw [hj, Catalog.get?_erase_self, Catalog.get?_erase_self]
      exact .none
    · rw [Catalog.get?_erase_of_ne _ hj, Catalog.get?_erase_of_ne _ hj]
      exact hframe.edges j
  | @setAttribute on id value name a _ read put =>
    obtain ⟨b, hread⟩ := hframe.exists_attributesOf hh read
    obtain ⟨h', hput⟩ := exists_putAttributes hread (b.insert name value)
    exact hmade (.setAttribute hread hput) (hframe.put put hput)
  | @removeAttribute on id name old k a _ read key found put =>
    obtain ⟨b, hread⟩ := hframe.exists_attributesOf hh read
    cases hb : b.get? k with
    | some old' =>
      obtain ⟨h', hput⟩ := exists_putAttributes hread (b.erase k)
      exact hmade (.removeAttribute hread key hb hput) (hframe.put put hput)
    | none =>
      have hidle := removeAttribute_eq_ok_iff.2 ⟨b, hread, k, key, .inl ⟨hb, rfl⟩⟩
      refine ⟨h, none, ?_, hh, (of_sameShape (sameShape_of_putAttributes put)).symm.trans hframe⟩
      show Outcome.ofExcept h (h.removeAttribute on id name) = _
      rw [hidle]
      rfl
  | clear =>
    refine hmade .clear ⟨hframe.directed, fun k => rfl, fun k => ?_⟩
    exact .none

end SameFrame
end Graph
end EvolvingGraph
