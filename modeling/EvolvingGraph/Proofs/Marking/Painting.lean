/-
  EvolvingGraph.Proofs.Marking.Painting
  ─────────────────────────────────────
  **CHANGING AN ATTRIBUTE OF SOME EDGES AND NOTHING ELSE.**

  To mark edges is to write one attribute of theirs.  What that does to a graph
  is told edge by edge: the attributes that each edge has afterwards are made
  from those it had before, and all else stays as it was.  An attribute that is
  not written reads as before, so weights do not change when flags are written.

  Main statements:
    * `Coherent.takes_setAttribute` — one edge is written, no other one changes;
    * `Painted.trans` — writing after writing;
    * `Painted.readAttribute_eq` — other attributes stay;
    * `Painted.candidates_eq` — and so do the candidates of a forest.
-/
import EvolvingGraph.Proofs.Forest.Candidates

namespace EvolvingGraph.Graph

variable {g g' g'' : Graph}

/-! ## §1. Painted graphs. -/

theorem readAttribute_edge {id : Value} {a : Attributes} (ha : g.edgeAttributes id = .ok a)
    (name : Identifier) (default : Value) : g.readAttribute .edge id name.value default
      = .ok ((a.get? name.key).getD default) := by
  show (g.edgeAttributes id >>= fun a => keyOf name.value >>= fun k =>
    pure ((a.get? k).getD default)) = _
  rw [ha, keyOf_value]
  rfl

/-- One graph is another one with other attributes on its edges. -/
structure Painted (g g' : Graph) (paint : EdgeEntry → Attributes → Attributes) : Prop where
  directed : g'.directed = g.directed
  nodes : g'.nodes = g.nodes
  edges : g'.edges = g.edges
  links : g'.links.map Link.endpoints = g.links.map Link.endpoints
  attributes : ∀ e ∈ g.edges.entries, ∀ a, g.edgeAttributes e.1.value = .ok a →
    g'.edgeAttributes e.1.value = .ok (paint e a)

namespace Painted

variable {paint paint' : EdgeEntry → Attributes → Attributes}

theorem refl (g : Graph) : Painted g g fun _ a => a :=
  ⟨rfl, rfl, rfl, rfl, fun _ _ _ ha => ha⟩

theorem sameShape (h : Painted g g' paint) : g.SameShape g' :=
  ⟨h.directed, by rw [h.nodes], h.edges, h.links⟩

theorem trans (h : Painted g g' paint) (h' : Painted g' g'' paint') :
    Painted g g'' fun e a => paint' e (paint e a) where
  directed := h'.directed.trans h.directed
  nodes := h'.nodes.trans h.nodes
  edges := h'.edges.trans h.edges
  links := h'.links.trans h.links
  attributes := by
    intro e he a ha
    apply h'.attributes e _ _ (h.attributes e he a ha)
    rw [h.edges]
    exact he

/-- What counts of a paint is what it makes of the attributes that there are. -/
theorem congr_attributes (h : Painted g g' paint)
    (heq : ∀ e ∈ g.edges.entries, ∀ a, g.edgeAttributes e.1.value = .ok a →
      paint e a = paint' e a) : Painted g g' paint' where
  directed := h.directed
  nodes := h.nodes
  edges := h.edges
  links := h.links
  attributes := fun e he a ha => heq e he a ha ▸ h.attributes e he a ha

theorem congr (h : Painted g g' paint)
    (heq : ∀ e ∈ g.edges.entries, ∀ a, paint e a = paint' e a) : Painted g g' paint' :=
  h.congr_attributes fun e he a _ => heq e he a

/-- An attribute that no paint touches reads as before. -/
theorem readAttribute_eq (h : Painted g g' paint) (hg : g.Coherent) {e : EdgeEntry}
    (he : e ∈ g.edges.entries) {name : Identifier}
    (hname : ∀ a, (paint e a).get? name.key = a.get? name.key) (default : Value) :
    g'.readAttribute .edge e.1.value name.value default
      = g.readAttribute .edge e.1.value name.value default := by
  obtain ⟨a, ha⟩ := hg.edgeAttributes_of_mem he
  rw [readAttribute_edge ha, readAttribute_edge (h.attributes e he a ha), hname]

end Painted

/-! ## §2. Writing one edge. -/

theorem link?_modifyLink (n : Network) (a b x y : Key) (f : Attributes → Attributes) :
    (n.modifyLink a b f).link? x y = (n.link? x y).map fun l =>
      if l.joins n.directed a b then { l with attributes := f l.attributes } else l := by
  unfold Network.link? Network.modifyLink
  rw [List.find?_map]
  congr 2
  funext l
  simp only [Function.comp]
  split <;> rfl

/-- Putting attributes on an edge changes those of no other one. -/
theorem Coherent.painted_put (hg : g.Coherent) {e : EdgeEntry} (he : e ∈ g.edges.entries)
    {a : Attributes} (hput : g.putAttributes .edge e.1.value a = .ok g') :
    Painted g g' fun f b => if f.1.key = e.1.key then a else b := by
  obtain ⟨ends, hends, rfl⟩ := putAttributes_edge_eq_ok_iff.1 hput
  rw [endpoints_of_mem he] at hends
  injection hends with hends
  subst hends
  refine ⟨rfl, rfl, rfl, map_endpoints_modifyLink _ _ _ _, fun f hf b hb => ?_⟩
  obtain ⟨l, _, hl, hlink⟩ := hg.link?_of_mem hf
  obtain ⟨ends, l', hends, hlink', hattributes⟩ := edgeAttributes_eq_ok_iff.1 hb
  rw [endpoints_of_mem hf] at hends
  injection hends with hends
  subst hends
  rw [hlink] at hlink'
  injection hlink' with hlink'
  subst hlink'
  -- the link of an edge is written exactly if it is the edge that is meant
  have hjoins : l.joins g.directed e.2.source.key e.2.target.key = true ↔ f.1.key = e.1.key := by
    rw [Link.joins_iff, hl]
    constructor
    · intro hsame
      rw [hg.eq_of_samePair hf he hsame]
    · intro hkey
      rw [Catalog.eq_of_mem_of_key_eq hf he hkey]
      exact Endpoints.samePair_refl _ _
  have hread : (g.modifyLink e.2.source.key e.2.target.key fun _ => a).link?
      f.2.source.key f.2.target.key
      = some (if f.1.key = e.1.key then { l with attributes := a } else l) := by
    rw [link?_modifyLink, hlink]
    show some (if l.joins g.directed e.2.source.key e.2.target.key = true then _ else _) = _
    simp only [hjoins]
  refine edgeAttributes_eq_ok_iff.2 ⟨f.2, _, endpoints_of_mem hf, hread, ?_⟩
  split
  · rfl
  · exact hattributes

/-- What is made of the attributes of an edge is put on this edge alone. -/
theorem Coherent.painted_map (hg : g.Coherent) {e : EdgeEntry} (he : e ∈ g.edges.entries)
    {a : Attributes} (ha : g.edgeAttributes e.1.value = .ok a) (f : Attributes → Attributes) :
    ∃ g', g.putAttributes .edge e.1.value (f a) = .ok g'
      ∧ Painted g g' fun e' b => if e'.1.key = e.1.key then f b else b := by
  have hput : g.putAttributes .edge e.1.value (f a) = .ok _ :=
    putAttributes_edge_eq_ok_iff.2 ⟨e.2, endpoints_of_mem he, rfl⟩
  refine ⟨_, hput, (hg.painted_put he hput).congr_attributes fun e' he' b hb => ?_⟩
  by_cases hkey : e'.1.key = e.1.key
  · rw [Catalog.eq_of_mem_of_key_eq he' he hkey, ha] at hb
    rw [if_pos hkey, if_pos hkey, Except.ok.inj hb]
  · rw [if_neg hkey, if_neg hkey]

/-- **Setting an attribute of an edge takes effect, on this edge alone.** -/
theorem Coherent.takes_setAttribute (hg : g.Coherent) {e : EdgeEntry} (he : e ∈ g.edges.entries)
    {a : Attributes} (ha : g.edgeAttributes e.1.value = .ok a) (name : Identifier) (v : Value) :
    ∃ g', g.Takes (.setAttribute .edge e.1.value name.value v) g'
        (.attributeChanged .edge e.1.value name.value ((a.get? name.key).getD .null) v)
      ∧ Painted g g' fun f a => if f.1.key = e.1.key then a.insert name v else a := by
  obtain ⟨g', hput, hpainted⟩ := hg.painted_map he ha (·.insert name v)
  exact ⟨g', .setAttribute ha hput, hpainted⟩

/-- This is so for every edge of the graph, whatever it has. -/
theorem Coherent.painted_setAttribute (hg : g.Coherent) {e : EdgeEntry}
    (he : e ∈ g.edges.entries) (name : Identifier) (v : Value) :
    ∃ g' event, g.Takes (.setAttribute .edge e.1.value name.value v) g' event
      ∧ Painted g g' fun f a => if f.1.key = e.1.key then a.insert name v else a := by
  obtain ⟨a, ha⟩ := hg.edgeAttributes_of_mem he
  obtain ⟨g', htakes, hpainted⟩ := hg.takes_setAttribute he ha name v
  exact ⟨g', _, htakes, hpainted⟩

/-! ## §3. Writing several edges. -/

/-- Write an attribute of the edges with the given ids. -/
def writing (name : Identifier) (v : Value) (ids : List Identifier) (e : EdgeEntry)
    (a : Attributes) : Attributes :=
  if e.1.key ∈ ids.map (·.key) then a.insert name v else a

/-- Nothing is what it takes to write no edge. -/
theorem Painted.writing_nil (g : Graph) (name : Identifier) (v : Value) :
    g.Painted g (writing name v []) :=
  (Painted.refl g).congr fun e _ a => by simp [writing]

/-- Writing some edges and then others is writing all of them. -/
theorem writing_append (name : Identifier) (v : Value) (ids ids' : List Identifier)
    (e : EdgeEntry) (a : Attributes) :
    writing name v ids' e (writing name v ids e a) = writing name v (ids ++ ids') e a := by
  unfold writing
  simp only [List.map_append, List.mem_append]
  by_cases hids : e.1.key ∈ ids.map (·.key) <;> by_cases hids' : e.1.key ∈ ids'.map (·.key)
  · rw [if_pos hids', if_pos hids, if_pos (.inl hids), Catalog.insert_insert]
  · rw [if_neg hids', if_pos hids, if_pos (.inl hids)]
  · rw [if_pos hids', if_neg hids, if_pos (.inr hids')]
  · rw [if_neg hids', if_neg hids, if_neg (not_or_intro hids hids')]

theorem writing_cons (name : Identifier) (v : Value) (id : Identifier) (ids : List Identifier)
    (e : EdgeEntry) (a : Attributes) :
    writing name v ids e (writing name v [id] e a) = writing name v (id :: ids) e a :=
  writing_append name v [id] ids e a

/-- Other attributes than the one written stay. -/
theorem get?_writing {name : Identifier} {k : Key} (h : k ≠ name.key) (v : Value)
    (ids : List Identifier) (e : EdgeEntry) (a : Attributes) :
    (writing name v ids e a).get? k = a.get? k := by
  unfold writing
  split
  · exact Catalog.get?_insert_of_ne a name v h
  · rfl

/-! ## §4. Weights. -/

namespace Painted

variable {paint : EdgeEntry → Attributes → Attributes} {name : Identifier}

theorem properEdges_eq (h : Painted g g' paint) : g'.properEdges = g.properEdges := by
  unfold properEdges
  rw [h.edges]

theorem weightOf_eq (h : Painted g g' paint) (hg : g.Coherent)
    (hname : ∀ e a, (paint e a).get? name.key = a.get? name.key) {e : EdgeEntry}
    (he : e ∈ g.edges.entries) : g'.weightOf name.value e = g.weightOf name.value e := by
  unfold weightOf
  rw [h.readAttribute_eq hg he (hname e)]

theorem weighable (h : Painted g g' paint) (hg : g.Coherent)
    (hname : ∀ e a, (paint e a).get? name.key = a.get? name.key)
    (hweigh : g.Weighable name.value) : g'.Weighable name.value where
  ends_free := h.edges ▸ hweigh.ends_free
  id_ne_null := h.edges ▸ hweigh.id_ne_null
  weights := by
    intro e he hloop
    rw [h.edges] at he
    rw [h.readAttribute_eq hg he (hname e)]
    exact hweigh.weights e he hloop

/-- As long as weights are not written, the candidates stay. -/
theorem candidates_eq (h : Painted g g' paint) (hg : g.Coherent)
    (hname : ∀ e a, (paint e a).get? name.key = a.get? name.key) :
    g'.candidates name.value = g.candidates name.value := by
  have hweighted : g'.properEdges.map (g'.weightedEntry name.value)
      = g.properEdges.map (g.weightedEntry name.value) := by
    rw [h.properEdges_eq]
    apply List.map_congr_left
    intro e he
    unfold weightedEntry
    rw [h.weightOf_eq hg hname (g.properEdges_subset he)]
  unfold candidates nodeKeys
  rw [hweighted, h.nodes]

end Painted

end EvolvingGraph.Graph
