/-
  EvolvingGraph.Proofs.Delivery.Twins
  ───────────────────────────────────
  **WORLDS THAT DIFFER IN THE ATTRIBUTES OF LINKS ONLY.**

  In a quiet world all sinks are passive, so a change to a graph changes this
  graph, adds what the sinks write down, and does nothing else.  Two worlds are
  twins if they are the same but for attributes of links, which are related in
  some way, and for what has been received and logged.  Twins stay twins when an
  attribute is written in both, or in one of them if nobody looks at it.

  Main statements:
    * `Quiet.exec_commit` — what a change does in a quiet world;
    * `Twins.paired_commit` — the same write in both of two worlds;
    * `Twins.of_commit` — a write in the second one.
-/
import EvolvingGraph.Proofs.Delivery.Passive
import EvolvingGraph.Proofs.Graph.Likeness

namespace EvolvingGraph

/-! ## §1. Quiet worlds. -/

/-- All sinks of all graphs are passive. -/
structure Quiet (host : Host) (recorders : Heap Recorder) (notes : SinkRef → Notes) (w : World) :
    Prop where
  recorders_eq : w.recorders = recorders
  passive : ∀ g, ∀ s ∈ (w.objectAt g).emitter.sinks, Passive host recorders s (notes s)

namespace World

variable {w : World} {g : GraphRef}

/-- Where there is no graph, none is put. -/
theorem put_of_not_hasGraph (h : ¬w.HasGraph g) (graph : Graph) : w.put g graph = w := by
  unfold put
  rw [Heap.set_of_size_le (Nat.le_of_not_lt h)]

/-- Only the graph of an object is put, at whichever reference. -/
theorem objectAt_put (g' : GraphRef) (graph : Graph) :
    (w.put g graph).objectAt g' = w.objectAt g'
      ∨ (g' = g ∧ (w.put g graph).objectAt g = { w.objectAt g with graph := graph }) := by
  by_cases hg : g = g'
  · subst hg
    by_cases hpresent : w.HasGraph g
    · exact .inr ⟨rfl, objectAt_put_self hpresent graph⟩
    · rw [put_of_not_hasGraph hpresent]
      exact .inl rfl
  · exact .inl (objectAt_put_of_ne hg graph)

end World

namespace Quiet

variable {host : Host} {recorders : Heap Recorder} {notes : SinkRef → Notes} {w : World}

theorem put (h : Quiet host recorders notes w) (g : GraphRef) (graph : Graph) :
    Quiet host recorders notes (w.put g graph) := by
  refine ⟨h.recorders_eq, fun x s hs => ?_⟩
  obtain hx | ⟨rfl, hx⟩ := World.objectAt_put (w := w) (g := g) x graph <;> rw [hx] at hs
  · exact h.passive x s hs
  · exact h.passive _ s hs

/-- **A change is made, and what the sinks write down of it is added.** -/
theorem exec_commit (h : Quiet host recorders notes w) (g : GraphRef) (c : Change) :
    ∃ receipts, (commit host g c).exec w = (((w.objectAt g).graph.apply c).2.map fun _ => (),
      (w.put g ((w.objectAt g).graph.apply c).1).receive receipts) := by
  rw [EvolvingGraph.exec_commit]
  rcases (w.objectAt g).graph.apply c with ⟨graph, e | _ | event⟩
  · exact ⟨[], by rw [World.receive_nil]; rfl⟩
  · exact ⟨[], by rw [World.receive_nil]; rfl⟩
  · exact ⟨_, exec_forM_notify (h.passive g) _ event (w := w.put g graph) h.recorders_eq⟩

end Quiet

/-! ## §2. Twins. -/

/-- Two quiet worlds that are the same but for the attributes of the links of
their graphs, which are related, and for what has been received and logged. -/
structure Twins (host : Host) (recorders : Heap Recorder) (notes : SinkRef → Notes)
    (related : GraphRef → Attributes → Attributes → Prop) (w w' : World) : Prop where
  quiet : Quiet host recorders notes w
  elsewhere : { w' with graphs := w.graphs, received := w.received, log := w.log } = w
  size : w'.graphs.size = w.graphs.size
  objects : ∀ g, { w'.objectAt g with graph := (w.objectAt g).graph } = w.objectAt g
  graphs : ∀ g, Graph.Like (related g) (w.objectAt g).graph (w'.objectAt g).graph

namespace Twins

variable {host : Host} {recorders : Heap Recorder} {notes : SinkRef → Notes}
  {related : GraphRef → Attributes → Attributes → Prop} {w w' : World}

theorem refl (hrefl : ∀ g a, related g a a) (h : Quiet host recorders notes w) :
    Twins host recorders notes related w w :=
  ⟨h, rfl, rfl, fun _ => rfl, fun g => .refl fun _ _ _ _ => hrefl g _⟩

theorem trees_eq (h : Twins host recorders notes related w w') : w'.trees = w.trees := by
  have htrees := congrArg World.trees h.elsewhere
  exact htrees

theorem emitter_eq (h : Twins host recorders notes related w w') (g : GraphRef) :
    (w'.objectAt g).emitter = (w.objectAt g).emitter := by
  have hemitter := congrArg GraphObject.emitter (h.objects g)
  exact hemitter

theorem quiet' (h : Twins host recorders notes related w w') : Quiet host recorders notes w' := by
  have hrecorders := congrArg World.recorders h.elsewhere
  refine ⟨hrecorders.trans h.quiet.recorders_eq, fun g s hs => ?_⟩
  rw [h.emitter_eq] at hs
  exact h.quiet.passive g s hs

/-- What has been received does not matter, … -/
theorem received (h : Twins host recorders notes related w w') (receipts receipts' : List Receipt) :
    Twins host recorders notes related (w.receive receipts) (w'.receive receipts') := by
  have helsewhere := congrArg (fun v : World => v.receive receipts) h.elsewhere
  exact ⟨⟨h.quiet.recorders_eq, h.quiet.passive⟩, helsewhere, h.size, h.objects, h.graphs⟩

/-- … nor what has been logged. -/
theorem noted (h : Twins host recorders notes related w w') (entry entry' : LogEntry) :
    Twins host recorders notes related { w with log := w.log ++ [entry] }
      { w' with log := w'.log ++ [entry'] } := by
  have helsewhere := congrArg (fun v : World => { v with log := v.log ++ [entry] }) h.elsewhere
  exact ⟨⟨h.quiet.recorders_eq, h.quiet.passive⟩, helsewhere, h.size, h.objects, h.graphs⟩

/-- The links may be related in another way. -/
theorem of_graphs {related' : GraphRef → Attributes → Attributes → Prop}
    (h : Twins host recorders notes related w w')
    (hgraphs : ∀ g, Graph.Like (related' g) (w.objectAt g).graph (w'.objectAt g).graph) :
    Twins host recorders notes related' w w' :=
  ⟨h.quiet, h.elsewhere, h.size, h.objects, hgraphs⟩

/-- Graphs that are related can be put in both worlds. -/
theorem put (h : Twins host recorders notes related w w') {g : GraphRef} {graph graph' : Graph}
    (hlike : Graph.Like (related g) graph graph') :
    Twins host recorders notes related (w.put g graph) (w'.put g graph') := by
  have hpresent : w'.HasGraph g ↔ w.HasGraph g := by
    unfold World.HasGraph
    rw [h.size]
  by_cases hg : w.HasGraph g
  · have helsewhere : { w'.put g graph' with
        graphs := (w.put g graph).graphs, received := w.received, log := w.log } = w.put g graph :=
      congrArg (fun v : World => { v with graphs := (w.put g graph).graphs }) h.elsewhere
    have hsize : (w'.put g graph').graphs.size = (w.put g graph).graphs.size := by
      simpa [World.put, Heap.set, Heap.size] using h.size
    refine ⟨h.quiet.put g graph, helsewhere, hsize, fun x => ?_, fun x => ?_⟩ <;>
      by_cases hx : g = x
    · subst hx
      have hobject := congrArg (fun o : GraphObject => { o with graph := graph }) (h.objects g)
      rw [World.objectAt_put_self hg, World.objectAt_put_self (hpresent.2 hg)]
      exact hobject
    · rw [World.objectAt_put_of_ne hx, World.objectAt_put_of_ne hx]
      exact h.objects x
    · subst hx
      rw [World.objectAt_put_self hg, World.objectAt_put_self (hpresent.2 hg)]
      exact hlike
    · rw [World.objectAt_put_of_ne hx, World.objectAt_put_of_ne hx]
      exact h.graphs x
  · rw [World.put_of_not_hasGraph hg, World.put_of_not_hasGraph (mt hpresent.1 hg)]
    exact h

/-! ## §3. Writing. -/

/-- **The same write ends alike in both worlds.** -/
theorem paired_commit
    (hwrite : ∀ g a a' name v, related g a a' → related g (a.insert name v) (a'.insert name v))
    (g : GraphRef) (id name v : Value) :
    Run.Paired (Twins host recorders notes related) Eq
      (commit host g (.setAttribute .edge id name v)) (fun _ _ => True)
      (commit host g (.setAttribute .edge id name v)) := by
  intro w w' hw
  obtain ⟨receipts, hexec⟩ := hw.quiet.exec_commit g (.setAttribute .edge id name v)
  obtain ⟨receipts', hexec'⟩ := hw.quiet'.exec_commit g (.setAttribute .edge id name v)
  rw [hexec, hexec']
  have hset := (hw.graphs g).setAttribute (hwrite g) id name v
  show Twins _ _ _ _ (World.receive (w.put g (Graph.Outcome.ofExcept _ _).1) _)
      (World.receive (w'.put g (Graph.Outcome.ofExcept _ _).1) _)
    ∧ EndAlike _ _ ((Graph.Outcome.ofExcept _ _).2.map _) ((Graph.Outcome.ofExcept _ _).2.map _)
  revert hset
  generalize (w.objectAt g).graph.setAttribute .edge id name v = x
  generalize (w'.objectAt g).graph.setAttribute .edge id name v = x'
  intro hset
  cases hset with
  | ok hlike => exact ⟨(hw.put hlike).received _ _, .ok trivial⟩
  | error he => exact ⟨(hw.put (hw.graphs g)).received _ _, .error he⟩

/-- **A write in the second world that nobody looks at leaves twins.** -/
theorem of_commit (h : Twins host recorders notes related w w') {name : Identifier} {v : Value}
    (hkeep : ∀ g a a', related g a a' → related g a (a'.insert name v)) (g : GraphRef)
    (id : Value) : Twins host recorders notes related w
      ((commit host g (.setAttribute .edge id name.value v)).exec w').2 := by
  obtain ⟨receipts, hexec⟩ := h.quiet'.exec_commit g (.setAttribute .edge id name.value v)
  rw [hexec]
  have hlike := (h.graphs g).apply_setAttribute (v := v) (hkeep g) id
  have hput := (h.put hlike).received [] receipts
  rw [World.put_self, World.receive_nil] at hput
  exact hput

end Twins
end EvolvingGraph
