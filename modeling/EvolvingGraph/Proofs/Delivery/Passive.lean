/-
  EvolvingGraph.Proofs.Delivery.Passive
  ─────────────────────────────────────
  **SINKS THAT WRITE DOWN WHAT THEY RECEIVE AND DO NOTHING ELSE.**

  A passive sink does not fail and calls nothing back; all that is left of an
  event is what the sink writes down.  A silent sink writes nothing, a recorder
  without reactions one receipt for each event.  An emission to passive sinks
  is what they write, one after the other.

  Main statements:
    * `passive_silent`, `passive_recorder` — the passive sinks of a session;
    * `exec_forM_notify` — an emission to passive sinks;
    * `Audience.Attends.exec_forM_commit` — changes that take effect, one after the other.
-/
import EvolvingGraph.Proofs.Delivery.Commit
import EvolvingGraph.Session.Player

namespace EvolvingGraph

/-! ## §1. Receipts. -/

namespace World

variable {w : World} {g : GraphRef}

/-- The world with more receipts. -/
def receive (w : World) (receipts : List Receipt) : World :=
  { w with received := w.received ++ receipts }

@[simp] theorem receive_nil (w : World) : w.receive [] = w := by
  unfold receive
  rw [List.append_nil]

@[simp] theorem receive_receive (w : World) (rs rs' : List Receipt) :
    (w.receive rs).receive rs' = w.receive (rs ++ rs') := by
  unfold receive
  rw [List.append_assoc]

theorem put_receive (rs : List Receipt) (graph : Graph) :
    (w.receive rs).put g graph = (w.put g graph).receive rs := rfl

@[simp] theorem objectAt_receive (rs : List Receipt) :
    (w.receive rs).objectAt g = w.objectAt g := rfl

@[simp] theorem hasGraph_receive (rs : List Receipt) :
    (w.receive rs).HasGraph g ↔ w.HasGraph g := Iff.rfl

end World

/-! ## §2. Passive sinks. -/

/-- What a sink writes down of an event that a sender emits. -/
abbrev Notes := Value → Event → List Receipt

/-- As long as the recorders are the given ones, a sink does nothing with an
event but write it down. -/
def Passive (host : Host) (recorders : Heap Recorder) (s : SinkRef) (notes : Notes) : Prop :=
  ∀ sender event w, w.recorders = recorders →
    (host.notify s sender event).exec w = (.ok (), w.receive (notes sender event))

theorem passive_silent (depth : Nat) (recorders : Heap Recorder) (i : Nat) :
    Passive (Session.hostOfDepth (depth + 1)) recorders (.silent i) fun _ _ => [] := by
  intro sender event w _
  rw [World.receive_nil]
  rfl

/-- A recorder that reacts to nothing is passive. -/
theorem passive_recorder (depth : Nat) {recorders : Heap Recorder} {i : Nat}
    (hreactions : (recorders.get i).reactions = []) :
    Passive (Session.hostOfDepth (depth + 1)) recorders (.recorder i)
      fun sender event => [⟨(recorders.get i).label, sender, event⟩] := by
  intro sender event w hrecorders
  -- the recorder is written back as it was
  have hsame : w.recorders.set i { w.recorders.get i with reactions := [] } = w.recorders := by
    have hget : { w.recorders.get i with reactions := [] } = w.recorders.get i := by
      rw [hrecorders, ← hreactions]
    rw [hget, Heap.set_get]
  show (record (Session.hostOfDepth depth) i sender event).exec w = _
  unfold record
  simp only [Run.exec_bind, Run.exec_get, hrecorders, hreactions, takeReaction, Run.exec_set,
    Run.exec_pure]
  rw [hrecorders] at hsame
  rw [hsame, ← hrecorders]
  rfl

/-- An emission to passive sinks leaves what they write down, in their order. -/
theorem exec_forM_notify {host : Host} {recorders : Heap Recorder} {notes : SinkRef → Notes}
    {sinks : List SinkRef} (hpassive : ∀ s ∈ sinks, Passive host recorders s (notes s))
    (sender : Value) (event : Event) {w : World} (hw : w.recorders = recorders) :
    (sinks.forM fun s => host.notify s sender event).exec w
      = (.ok (), w.receive (sinks.flatMap fun s => notes s sender event)) := by
  induction sinks generalizing w with
  | nil =>
    rw [List.flatMap_nil, World.receive_nil]
    rfl
  | cons s sinks ih =>
    have hrest := ih (fun s' hs' => hpassive s' (List.mem_cons_of_mem _ hs'))
      (w := w.receive (notes s sender event)) hw
    rw [Run.exec_forM_cons, hpassive s List.mem_cons_self sender event w hw]
    show Run.exec (sinks.forM fun s => host.notify s sender event) _ = _
    rw [hrest, World.receive_receive, List.flatMap_cons]

/-! ## §3. Graphs whose sinks are passive. -/

/-- The event that reports a change, if it takes effect. -/
def Graph.reported (graph : Graph) (c : Change) : List Event :=
  match (graph.apply c).2 with
  | .ok (some event) => [event]
  | _ => []

/-- A graph with its emitter, the host under which its sinks are told events, and
what these sinks write down. -/
structure Audience where
  host : Host
  graph : GraphRef
  emitter : Emitter
  notes : SinkRef → Notes

namespace Audience

/-- What is written down of an event that the graph emits. -/
def trace (a : Audience) (event : Event) : List Receipt :=
  a.emitter.sinks.flatMap (a.notes · a.emitter.id event)

/-- The graph is there with these sinks, and they are passive. -/
structure Attends (a : Audience) (w : World) : Prop where
  present : w.HasGraph a.graph
  emitter_eq : (w.objectAt a.graph).emitter = a.emitter
  passive : ∀ s ∈ a.emitter.sinks, Passive a.host w.recorders s (a.notes s)

variable {a : Audience} {w : World}

/-- A change to the graph, and what is written down of it. -/
theorem Attends.exec_commit (h : a.Attends w) (c : Change) :
    (commit a.host a.graph c).exec w
      = (((w.objectAt a.graph).graph.apply c).2.map fun _ => (),
        (w.put a.graph ((w.objectAt a.graph).graph.apply c).1).receive
          (((w.objectAt a.graph).graph.reported c).flatMap a.trace)) := by
  rw [EvolvingGraph.exec_commit, h.emitter_eq]
  unfold Graph.reported
  rcases (w.objectAt a.graph).graph.apply c with ⟨graph, e | _ | event⟩
  · simp only [List.flatMap_nil, World.receive_nil]
    rfl
  · simp only [List.flatMap_nil, World.receive_nil]
    rfl
  · simp only [List.flatMap_singleton]
    exact exec_forM_notify h.passive a.emitter.id event (w := w.put a.graph graph) rfl

theorem Attends.put_receive (h : a.Attends w) (graph : Graph) (receipts : List Receipt) :
    a.Attends ((w.put a.graph graph).receive receipts) where
  present := (World.hasGraph_put graph).2 h.present
  emitter_eq := by
    rw [World.objectAt_receive, World.objectAt_put_self h.present]
    exact h.emitter_eq
  passive := h.passive

/-- A change that takes effect is made, and its event is written down. -/
theorem Attends.exec_commit_takes (h : a.Attends w) {c : Change} {graph' : Graph} {event : Event}
    (htakes : (w.objectAt a.graph).graph.Takes c graph' event) :
    (commit a.host a.graph c).exec w = (.ok (), (w.put a.graph graph').receive (a.trace event)) := by
  rw [EvolvingGraph.exec_commit_takes htakes, h.emitter_eq]
  exact exec_forM_notify h.passive a.emitter.id event rfl

end Audience

/-! ## §4. One change after the other. -/

/-- Changes that all take effect on a graph, one after the other: the graph they
leave, and the events that report them. -/
inductive Graph.TakesAll : Graph → List Change → Graph → List Event → Prop where
  | nil (graph : Graph) : TakesAll graph [] graph []
  | cons {graph graph' graph'' : Graph} {c : Change} {changes : List Change} {event : Event}
      {events : List Event} (first : graph.Takes c graph' event)
      (rest : TakesAll graph' changes graph'' events) :
      TakesAll graph (c :: changes) graph'' (event :: events)

theorem World.put_put {w : World} {g : GraphRef} (h : w.HasGraph g) (graph graph' : Graph) :
    (w.put g graph).put g graph' = w.put g graph' := by
  have hself : (w.put g graph).graphs.get g.index = { w.graphs.get g.index with graph } :=
    Heap.get_set_self h _
  have hset : ∀ object : GraphObject, (w.put g graph).graphs.set g.index object
      = w.graphs.set g.index object := by
    intro object
    show Heap.mk ((w.graphs.cells.set _ _).set _ _) = Heap.mk (w.graphs.cells.set _ _)
    rw [List.set_set]
  unfold put at hself hset ⊢
  rw [hself, hset]

/-- The later of two graphs stays in its place, and the receipts come one after the other. -/
theorem World.put_receive_put {w : World} {g : GraphRef} (h : w.HasGraph g)
    (graph graph' : Graph) (rs rs' : List Receipt) :
    (((w.put g graph).receive rs).put g graph').receive rs'
      = (w.put g graph').receive (rs ++ rs') := by
  rw [put_receive, put_put h, receive_receive]

/-- **What is written down of changes that take effect is what is written down of
their events, in order.** -/
theorem Audience.Attends.exec_forM_commit {a : Audience} {w : World} (h : a.Attends w)
    {graph graph' : Graph} (hgraph : (w.objectAt a.graph).graph = graph) {changes : List Change}
    {events : List Event} (htakes : graph.TakesAll changes graph' events) :
    (changes.forM (commit a.host a.graph)).exec w
      = (.ok (), (w.put a.graph graph').receive (events.flatMap a.trace)) := by
  induction htakes generalizing w with
  | nil graph =>
    rw [List.flatMap_nil, World.receive_nil, ← hgraph, World.put_self]
    rfl
  | @cons graph graph' graph'' c changes event events first rest ih =>
    subst hgraph
    have hthere : (((w.put a.graph graph').receive (a.trace event)).objectAt a.graph).graph
        = graph' := by
      rw [World.objectAt_receive, World.objectAt_put_self h.present]
    have hrest := ih (h.put_receive graph' (a.trace event)) hthere
    rw [World.put_receive_put h.present] at hrest
    rw [Run.exec_forM_cons, h.exec_commit_takes first, List.flatMap_cons]
    exact hrest

end EvolvingGraph
