/-
  EvolvingGraph.Proofs.Delivery.Bystanders
  ────────────────────────────────────────
  **A GRAPH THAT IS CHANGED BY CALLS ONLY, WHATEVER ITS SINKS DO OTHERWISE.**

  Sinks that leave a graph alone may still fail at any event, change anything
  else, and attach or detach sinks.  What they may rely on, and have to leave
  behind, is a condition on worlds (`calm`); nothing more is known of them.
  Under such sinks a call makes the first few of its changes and then stops, if
  it does not come to its end.

  Main statements:
    * `Bystanders.exec_commit` — one change is made, also if a sink fails then;
    * `Bystanders.exec_run` — a call leads from a reachable graph to another one;
    * `History.storesAgree` — table and network agree after any calls.
-/
import EvolvingGraph.Proofs.Delivery.Commit
import EvolvingGraph.Session.Player

namespace EvolvingGraph

/-! ## §1. Sinks that leave a graph alone. -/

/-- A sink keeps a world calm and a graph as it is, whether it fails or not. -/
def Harmless (host : Host) (g : GraphRef) (calm : World → Prop) (s : SinkRef) : Prop :=
  ∀ sender event w, calm w → calm ((host.notify s sender event).exec w).2
    ∧ (((host.notify s sender event).exec w).2.objectAt g).graph = (w.objectAt g).graph

/-- In a calm world the sinks of a graph leave it alone.  Whether a world is
calm does not depend on what the graph holds. -/
structure Bystanders (host : Host) (g : GraphRef) (calm : World → Prop) : Prop where
  present : ∀ w, calm w → w.HasGraph g
  put : ∀ w graph, calm w → calm (w.put g graph)
  harmless : ∀ w, calm w → ∀ s ∈ (w.objectAt g).emitter.sinks, Harmless host g calm s

/-- A calm world in which a graph is the given one. -/
def CalmWith (calm : World → Prop) (g : GraphRef) (graph : Graph) (w : World) : Prop :=
  calm w ∧ (w.objectAt g).graph = graph

namespace Bystanders

variable {host : Host} {g : GraphRef} {calm : World → Prop}

theorem exec_commit (hcalm : Bystanders host g calm) (c : Change) {w : World} (hw : calm w) :
    CalmWith calm g ((w.objectAt g).graph.apply c).1 ((commit host g c).exec w).2 := by
  have hput : ∀ graph, CalmWith calm g graph (w.put g graph) := by
    intro graph
    unfold CalmWith
    rw [World.objectAt_put_self (hcalm.present w hw)]
    exact ⟨hcalm.put w graph hw, rfl⟩
  rw [EvolvingGraph.exec_commit]
  rcases (w.objectAt g).graph.apply c with ⟨graph, _ | _ | event⟩
  · exact hput graph
  · exact hput graph
  · -- the sinks are those of before the change; what they keep, the emission keeps
    have hkept : ∀ s ∈ (w.objectAt g).emitter.sinks, ∀ w', CalmWith calm g graph w' →
        CalmWith calm g graph ((host.notify s (w.objectAt g).emitter.id event).exec w').2 := by
      intro s hs w' hw'
      obtain ⟨hkeeps, hsame⟩ := hcalm.harmless w hw s hs (w.objectAt g).emitter.id event w' hw'.1
      exact ⟨hkeeps, hsame.trans hw'.2⟩
    exact Run.forM_keeps hkept (hput graph)

/-- Changes are made up to the first that fails, or whose event some sink fails at. -/
theorem exec_commits (hcalm : Bystanders host g calm) (changes : List Change) {w : World}
    (hw : calm w) : ∃ n, CalmWith calm g ((w.objectAt g).graph.applied (changes.take n))
      ((changes.forM (commit host g)).exec w).2 := by
  induction changes generalizing w with
  | nil => exact ⟨0, hw, rfl⟩
  | cons c rest ih =>
    obtain ⟨hcalm', hgraph⟩ := hcalm.exec_commit c hw
    rw [Run.exec_forM_cons]
    rcases hexec : (commit host g c).exec w with ⟨_ | _, w'⟩
    · rw [hexec] at hcalm' hgraph
      exact ⟨1, hcalm', hgraph⟩
    · rw [hexec] at hcalm' hgraph
      obtain ⟨n, hrest⟩ := ih hcalm'
      rw [hgraph] at hrest
      exact ⟨n + 1, hrest⟩

theorem exec_run (hcalm : Bystanders host g calm) (call : GraphCall) {w : World} (hw : calm w)
    (hreach : (w.objectAt g).graph.Reachable) :
    calm ((call.run host g).exec w).2
      ∧ (((call.run host g).exec w).2.objectAt g).graph.Reachable := by
  obtain ⟨error, h⟩ | ⟨c, attributes, changes, hplan, h⟩ := call.exec_run host g w
  · rw [h]
    exact ⟨hw, hreach⟩
  · obtain ⟨n, hkeeps, hgraph⟩ := hcalm.exec_commits changes hw
    rw [h, hgraph]
    exact ⟨hkeeps, .request n hreach hplan⟩

end Bystanders

/-! ## §2. Sinks that fail at every event. -/

/-- All sinks of a graph are generators: these have no use for events and fail. -/
def OnlyGenerators (g : GraphRef) (w : World) : Prop :=
  w.HasGraph g ∧ ∀ s ∈ (w.objectAt g).emitter.sinks, ∃ x, s = .generator x

theorem bystanders_generators (depth : Nat) (g : GraphRef) :
    Bystanders (Session.hostOfDepth (depth + 1)) g (OnlyGenerators g) where
  present := fun _ hw => hw.1
  put := by
    intro w graph hw
    refine ⟨(World.hasGraph_put graph).2 hw.1, ?_⟩
    rw [World.objectAt_put_self hw.1]
    exact hw.2
  harmless := by
    intro w hw s hs sender event w' hw'
    obtain ⟨x, rfl⟩ := hw.2 s hs
    exact ⟨hw', rfl⟩

/-! ## §3. Histories. -/

/-- The worlds that a graph made empty comes to see: calls to it, some of which
fail, alternate with whatever happens elsewhere. -/
inductive History (host : Host) (g : GraphRef) (calm : World → Prop) : World → Prop where
  | created {w : World} {directed : Bool} (atRest : calm w)
      (empty : (w.objectAt g).graph = Graph.empty directed) : History host g calm w
  | called {w : World} (before : History host g calm w) (call : GraphCall) :
      History host g calm ((call.run host g).exec w).2
  | elsewhere {w w' : World} (before : History host g calm w) (atRest : calm w')
      (same : (w'.objectAt g).graph = (w.objectAt g).graph) : History host g calm w'

/-- The world after calls to a graph, those that fail among them. -/
def afterCalls (host : Host) (g : GraphRef) (calls : List GraphCall) (w : World) : World :=
  calls.foldl (fun w call => ((call.run host g).exec w).2) w

theorem History.afterCalls {host : Host} {g : GraphRef} {calm : World → Prop} {w : World}
    (h : History host g calm w) (calls : List GraphCall) :
    History host g calm (afterCalls host g calls w) := by
  induction calls generalizing w with
  | nil => exact h
  | cons call rest ih => exact ih (h.called call)

theorem History.reachable {host : Host} {g : GraphRef} {calm : World → Prop} {w : World}
    (hcalm : Bystanders host g calm) (h : History host g calm w) :
    calm w ∧ (w.objectAt g).graph.Reachable := by
  induction h with
  | created atRest empty =>
    rw [empty]
    exact ⟨atRest, .empty _⟩
  | called before call ih => exact hcalm.exec_run call ih.1 ih.2
  | elsewhere before atRest same ih =>
    rw [same]
    exact ⟨atRest, ih.2⟩

/-- **Under sinks that leave a graph alone, its table and its network agree
after any calls.** -/
theorem History.storesAgree {host : Host} {g : GraphRef} {calm : World → Prop} {w : World}
    (hcalm : Bystanders host g calm) (h : History host g calm w) :
    (w.objectAt g).graph.StoresAgree := (h.reachable hcalm).2.coherent.toStoresAgree

/-- A graph without nodes and a generator that is attached to it. -/
def generatorAttached : World :=
  { World.initial with graphs := ⟨[⟨"network", ⟨.str "network", [.generator ⟨0⟩]⟩, .empty false⟩]⟩ }

/-- Two nodes are added and joined; then one is to be removed, which ends when
the removal of its edge is reported. -/
def interruptedRemoval : List GraphCall :=
  [.request (.addNode (.int 1)) .empty, .request (.addNode (.bool false)) .empty,
    .request (.addEdge (.str "bond") (.bool true) (.int 0)) .empty,
    .request (.removeNode (.int 1)) .empty]

/-- The node has lost its edge and is still there; table and network agree. -/
theorem storesAgree_interruptedRemoval :
    let w := afterCalls (Session.hostOfDepth 1) ⟨0⟩ interruptedRemoval generatorAttached
    (w.objectAt ⟨0⟩).graph.nodes.size = 2 ∧ (w.objectAt ⟨0⟩).graph.edges.size = 0
      ∧ (w.objectAt ⟨0⟩).graph.StoresAgree := by
  refine ⟨by decide +kernel, by decide +kernel, ?_⟩
  apply History.storesAgree (bystanders_generators 0 ⟨0⟩)
  apply History.afterCalls
  refine .created ⟨Nat.one_pos, ?_⟩ (rfl : _ = Graph.empty false)
  intro s hs
  exact ⟨⟨0⟩, List.mem_singleton.1 hs⟩

end EvolvingGraph
