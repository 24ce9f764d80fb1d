/-
  EvolvingGraph.Proofs.Marking.Erasing
  ────────────────────────────────────
  **TAKING AN ATTRIBUTE OFF THE EDGES OF A GRAPH.**

  An attribute is taken off an edge together with its place among the others; an
  edge that does not have it is left as it is, and nothing is heard of that.  A
  round of such requests is heard edge by edge, and no edge hears of another one's
  value.

  To clear a tree is to make such a round over all edges of its graph.

  Main statements:
    * `Coherent.apply_removeAttribute` — one edge, with the attribute or without;
    * `Audience.Attends.exec_erasing` — one round, and what is heard of it;
    * `Audience.exec_clearMarks` — clearing a tree is a round over all edges.
-/
import EvolvingGraph.Proofs.Marking.Trace

namespace EvolvingGraph

/-! ## §1. One edge. -/

/-- The event that tells of a value that an edge no longer has. -/
def EdgeEntry.removed (e : EdgeEntry) (name old : Value) : Event :=
  .attributeRemoved .edge e.1.value name old

namespace Graph

variable {g g' : Graph} {e : EdgeEntry} {a : Attributes} {name : Identifier}

/-- The value that an edge carries for an attribute, if it has the attribute. -/
def carried? (g : Graph) (name : Identifier) (e : EdgeEntry) : Option Value :=
  match g.edgeAttributes e.1.value with
  | .ok a => a.get? name.key
  | .error _ => none

theorem carried?_eq (ha : g.edgeAttributes e.1.value = .ok a) :
    g.carried? name e = a.get? name.key := by
  unfold carried?
  rw [ha]

/-- Take an attribute off the edges with the given ids. -/
def erasing (name : Identifier) (ids : List Identifier) (e : EdgeEntry) (a : Attributes) :
    Attributes :=
  if e.1.key ∈ ids.map (·.key) then a.erase name.key else a

theorem erasing_cons (name : Identifier) (id : Identifier) (ids : List Identifier)
    (e : EdgeEntry) (a : Attributes) :
    erasing name ids e (erasing name [id] e a) = erasing name (id :: ids) e a := by
  unfold erasing
  simp only [List.map_cons, List.map_nil, List.mem_cons, List.not_mem_nil, or_false]
  by_cases hid : e.1.key = id.key <;> by_cases hids : e.1.key ∈ ids.map (·.key)
  · rw [if_pos hids, if_pos hid, if_pos (.inl hid), Catalog.erase_erase]
  · rw [if_neg hids, if_pos hid, if_pos (.inl hid)]
  · rw [if_pos hids, if_neg hid, if_pos (.inr hids)]
  · rw [if_neg hids, if_neg hid, if_neg (not_or_intro hid hids)]

/-- **An attribute is taken off an edge, which is told with the value; one that the
edge does not have stays away, and nothing is told.** -/
theorem Coherent.apply_removeAttribute (hg : g.Coherent) (he : e ∈ g.edges.entries)
    (name : Identifier) :
    ∃ g', g.apply (.removeAttribute .edge e.1.value name.value)
        = (g', .ok ((g.carried? name e).map (e.removed name.value)))
      ∧ g.Painted g' (erasing name [e.1]) := by
  obtain ⟨a, ha⟩ := hg.edgeAttributes_of_mem he
  have honly : ∀ (f : EdgeEntry) (b : Attributes),
      (if f.1.key = e.1.key then b.erase name.key else b) = erasing name [e.1] f b := by
    intro f b
    simp [erasing]
  rw [carried?_eq ha]
  cases hvalue : a.get? name.key with
  | none =>
    refine ⟨g, ?_, (Painted.refl g).congr_attributes fun f hf b hb => ?_⟩
    · exact ofExcept_eq_ok_iff.2 (removeAttribute_eq_ok_iff.2
        ⟨a, ha, name.key, name.key?_value, .inl ⟨hvalue, rfl⟩⟩)
    · rw [← honly]
      split
      · next hkey =>
        -- what is erased from the attributes of this edge was not among them
        rw [Catalog.eq_of_mem_of_key_eq hf he hkey, ha] at hb
        rw [← Except.ok.inj hb, Catalog.erase_of_get?_eq_none hvalue]
      · rfl
  | some old =>
    obtain ⟨g', hput, hpainted⟩ := hg.painted_map he ha (·.erase name.key)
    refine ⟨g', ?_, hpainted.congr fun f _ b => honly f b⟩
    exact ofExcept_eq_ok_iff.2 (removeAttribute_eq_ok_iff.2
      ⟨a, ha, name.key, name.key?_value, .inr ⟨old, hvalue, g', hput, rfl⟩⟩)

/-! ## §2. One edge after the other. -/

/-- The events that tell of an attribute that is taken off edges: one for each edge
that has it, with the value that it has. -/
def removals (g : Graph) (name : Identifier) (es : List EdgeEntry) : List Event :=
  es.flatMap fun e => ((g.carried? name e).map (e.removed name.value)).toList

theorem reported_of_apply {c : Change} {event : Option Event} (h : g.apply c = (g', .ok event)) :
    g.reported c = event.toList := by
  unfold reported
  rw [h]
  cases event <;> rfl

/-- What an edge carries does not depend on what another one has lost. -/
theorem Painted.carried?_eq (hg : g.Coherent) {ids : List Identifier}
    (h : g.Painted g' (erasing name ids)) (he : e ∈ g.edges.entries)
    (hother : e.1.key ∉ ids.map (·.key)) : g'.carried? name e = g.carried? name e := by
  obtain ⟨a, ha⟩ := hg.edgeAttributes_of_mem he
  have hread := h.attributes e he a ha
  rw [erasing, if_neg hother] at hread
  rw [Graph.carried?_eq ha, Graph.carried?_eq hread]

end Graph

namespace Audience

variable {a : Audience} {t : TreeRef} {graph : Graph} {tree : Tree} {w : World}

/-- Whatever change is made to the graph, the scene is that of the graph that it leaves. -/
theorem scene_commit (hw : Scene a.graph t a.Attends graph tree w) (c : Change) :
    Scene a.graph t a.Attends (graph.apply c).1 tree ((commit a.host a.graph c).exec w).2 := by
  rw [hw.atRest.exec_commit c, hw.graph_eq]
  exact scene_round hw _ _

/-- **One round: an attribute is taken off several edges.** -/
theorem Attends.exec_erasing (h : a.Attends w) (hgraph : (w.objectAt a.graph).graph = graph)
    (hg : graph.Coherent) (name : Identifier) {es : List EdgeEntry}
    (hes : es ⊆ graph.edges.entries) (hnodup : es.Nodup) :
    ∃ graph', graph.Painted graph' (Graph.erasing name (es.map (·.1)))
      ∧ (es.forM fun e => commit a.host a.graph
          (.removeAttribute .edge e.1.value name.value)).exec w
        = (.ok (), (w.put a.graph graph').receive ((graph.removals name es).flatMap a.trace)) := by
  induction es generalizing w graph with
  | nil =>
    refine ⟨graph, (Graph.Painted.refl graph).congr fun e _ b => ?_, ?_⟩
    · simp [Graph.erasing]
    · rw [← hgraph, World.put_self]
      exact congrArg (Prod.mk _) (World.receive_nil w).symm
  | cons e es ih =>
    obtain ⟨he, hes⟩ := List.cons_subset.1 hes
    obtain ⟨hfirst, hnodup⟩ := List.nodup_cons.1 hnodup
    obtain ⟨graph₁, happly, hpainted⟩ := hg.apply_removeAttribute he name
    have hcommit := h.exec_commit (.removeAttribute .edge e.1.value name.value)
    rw [hgraph, happly, Graph.reported_of_apply happly] at hcommit
    have hthere : (((w.put a.graph graph₁).receive ((((graph.carried? name e).map
        (e.removed name.value)).toList).flatMap a.trace)).objectAt a.graph).graph = graph₁ := by
      rw [World.objectAt_receive, World.objectAt_put_self h.present]
    have hes₁ : es ⊆ graph₁.edges.entries := by
      rw [hpainted.edges]
      exact hes
    obtain ⟨graph₂, hpainted₂, hrest⟩ := ih (h.put_receive graph₁ _) hthere
      (hg.of_sameShape hpainted.sameShape) hes₁ hnodup
    -- the others still carry what they carried before the first one was changed
    have hsame : graph₁.removals name es = graph.removals name es := by
      unfold Graph.removals
      refine List.flatMap_congr fun f hf => ?_
      have hother : f.1.key ∉ [e.1].map (·.key) := fun hkey =>
        hfirst (Catalog.eq_of_mem_of_key_eq (hes hf) he (List.mem_singleton.1 hkey) ▸ hf)
      rw [hpainted.carried?_eq hg (hes hf) hother]
    refine ⟨graph₂, (hpainted.trans hpainted₂).congr fun f _ b => ?_, ?_⟩
    · exact Graph.erasing_cons name e.1 (es.map (·.1)) f b
    · rw [Run.exec_forM_cons, hcommit]
      show Run.exec (es.forM _) _ = _
      rw [hrest, World.put_receive_put h.present, ← List.flatMap_append, hsame]
      rfl

/-! ## §3. Clearing a tree. -/

/-- **To clear a tree is to take its flag off all edges.** -/
theorem exec_clearMarks (hw : Scene a.graph t a.Attends graph tree w) (hg : graph.Coherent)
    (hgraph : tree.graph = some a.graph) {flag : Identifier}
    (hflag : tree.flagAttribute = flag.value) :
    ∃ graph', graph.Painted graph' (fun _ b => b.erase flag.key)
      ∧ (clearMarks a.host t).exec w = (.ok (), (w.put a.graph graph').receive
          ((graph.removals flag graph.edges.entries).flatMap a.trace)) := by
  obtain ⟨graph', hpainted, hexec⟩ := hw.atRest.exec_erasing hw.graph_eq hg flag
    (List.Subset.refl _) graph.edges.nodup_entries
  refine ⟨graph', hpainted.congr fun e he b => ?_, ?_⟩
  · have hall : e.1.key ∈ (graph.edges.entries.map (·.1)).map (·.key) :=
      List.mem_map_of_mem (List.mem_map_of_mem he)
    rw [Graph.erasing, if_pos hall]
  · have hloop : (forEachEdge a.graph fun e => do
          let current ← treeGraph t
          let tree ← World.tree t
          commit a.host current (.removeAttribute .edge e.id tree.flagAttribute)).exec w
        = (graph.edges.entries.forM fun e => commit a.host a.graph
            (.removeAttribute .edge e.1.value flag.value)).exec w := by
      refine Onlookers.exec_forEachEdge ?_ ?_ hw hg
      · intro w graph' hw e
        simp [treeGraph, hw.tree_eq, hgraph, hflag]
      · intro w graph' hw hg e he
        obtain ⟨graph'', happly, hpainted⟩ := hg.apply_removeAttribute he flag
        have hnext := scene_commit hw (.removeAttribute .edge e.1.value flag.value)
        rw [happly] at hnext
        exact ⟨graph'', hnext, hpainted.sameShape⟩
    rw [← hexec, ← hloop]
    unfold clearMarks
    simp only [Run.exec_bind, Run.exec_tree, hw.tree_eq, hgraph]

end Audience
end EvolvingGraph
