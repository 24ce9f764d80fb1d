/-
  EvolvingGraph.Proofs.Delivery.Chronicle
  ───────────────────────────────────────
  **READING AN ATTRIBUTE IS REMEMBERING WHAT WAS LAST WRITTEN.**

  A graph is called in many ways: asked itself, told events, and written to through
  views of its edges.  A chronicle keeps what was asked for, in words that say
  nothing of how the graph is made: a node that is removed is written down as this
  node alone, though its edges go with it, and a call that fails is not written down
  at all, though some of its changes might have been made.  Where the sinks of the
  graph neither fail nor change it, an attribute of any element that is there reads as
  the chronicle says.  So what an element had before it was removed does not come
  back when another one gets its name, or joins its pair, and no call to one element
  changes what another one has.

  Main statements:
    * `GraphCall.lastWritten_changes` — what is done says no more than what is asked;
    * `Chronicle.recordedIn` — the chronicle tells all attributes;
    * `Chronicle.reads_last_write` — what is read is what was last written.
-/
import EvolvingGraph.Proofs.Delivery.Refusal
import EvolvingGraph.Proofs.Graph.LastWrites

namespace EvolvingGraph

/-! ## §1. What was asked for. -/

/-- What a call asks for; whatever else goes with it is not said. -/
def GraphCall.asked : GraphCall → List Change
  | .request c attributes => c :: c.settings attributes
  | .event e => [e.asChange]
  | .write id _ _ name value => [.setAttribute .edge id name value]

/-- What is written down of a call: what it asked for, if it was done. -/
def GraphCall.entry (call : GraphCall) : Except Error Unit → List Change
  | .ok _ => call.asked
  | .error _ => []

section Asked

variable {on : ElementKind} {k j : Key} {graph : Graph} {changes : List Change}

/-- The plan of a request says of attributes what the request says: removals of
edges say nothing. -/
theorem lastWritten_plan {c : Change} {attributes : Attributes}
    (hplan : graph.plan c attributes = .ok changes) (record : List Change) :
    lastWritten on k j (record ++ changes)
      = lastWritten on k j (record ++ c :: c.settings attributes) := by
  by_cases hnode : ∃ id, c = .removeNode id
  · obtain ⟨id, rfl⟩ := hnode
    simp only [Graph.plan, bind_eq_ok_iff, pure_eq_ok_iff] at hplan
    obtain ⟨x, -, rfl⟩ := hplan
    rw [lastWritten_append_of_silent, lastWritten_append_of_silent]
    · intro d hd
      obtain rfl := List.mem_singleton.1 hd
      rfl
    · intro d hd
      obtain hd | hd := List.mem_append.1 hd
      · obtain ⟨e, -, rfl⟩ := List.mem_map.1 hd
        rfl
      · obtain rfl := List.mem_singleton.1 hd
        rfl
  · rw [Graph.plan_of_ne_removeNode fun id h => hnode ⟨id, h⟩] at hplan
    rw [← Except.ok.inj hplan]

/-- **What is done for a call says of attributes what the call has asked for.** -/
theorem GraphCall.lastWritten_changes {call : GraphCall} (h : call.changes graph = .ok changes)
    (record : List Change) :
    lastWritten on k j (record ++ changes) = lastWritten on k j (record ++ call.asked) := by
  cases call with
  | request c attributes =>
    simp only [GraphCall.changes] at h
    split at h
    · exact lastWritten_plan h record
    · exact absurd h (by simp)
  | event e =>
    have hsettings : e.asChange.settings .empty = [] := by cases e <;> rfl
    have hplan : lastWritten on k j (record ++ changes)
        = lastWritten on k j (record ++ e.asChange :: e.asChange.settings .empty) :=
      lastWritten_plan h record
    rw [hsettings] at hplan
    exact hplan
  | write id source target name value =>
    obtain rfl := Except.ok.inj h
    rfl

end Asked

/-! ## §2. Chronicles. -/

/-- The worlds that a graph made empty comes to see, each with what was asked of the
graph and done: calls, some of which fail, alternate with whatever happens elsewhere. -/
inductive Chronicle (host : Host) (g : GraphRef) (calm : World → Prop) :
    List Change → World → Prop where
  | created {w : World} {directed : Bool} (atRest : calm w)
      (empty : (w.objectAt g).graph = Graph.empty directed) : Chronicle host g calm [] w
  | called {record : List Change} {w : World} (before : Chronicle host g calm record w)
      (call : GraphCall) : Chronicle host g calm
        (record ++ call.entry ((call.run host g).exec w).1) ((call.run host g).exec w).2
  | elsewhere {record : List Change} {w w' : World} (before : Chronicle host g calm record w)
      (atRest : calm w') (same : (w'.objectAt g).graph = (w.objectAt g).graph) :
      Chronicle host g calm record w'

/-- A chronicle is a history in which something is written down. -/
theorem Chronicle.history {host : Host} {g : GraphRef} {calm : World → Prop}
    {record : List Change} {w : World} (h : Chronicle host g calm record w) :
    History host g calm w := by
  induction h with
  | created atRest empty => exact .created atRest empty
  | called before call ih => exact .called ih call
  | elsewhere before atRest same ih => exact .elsewhere ih atRest same

/-- What is written down of several calls. -/
def recordOf (host : Host) (g : GraphRef) : List GraphCall → World → List Change
  | [], _ => []
  | call :: rest, w =>
    call.entry ((call.run host g).exec w).1 ++ recordOf host g rest ((call.run host g).exec w).2

section Reading

variable {host : Host} {g : GraphRef} {calm : World → Prop} {record : List Change} {w : World}

theorem Chronicle.afterCalls (h : Chronicle host g calm record w) (calls : List GraphCall) :
    Chronicle host g calm (record ++ recordOf host g calls w) (afterCalls host g calls w) := by
  induction calls generalizing record w with
  | nil =>
    rw [recordOf, List.append_nil]
    exact h
  | cons call rest ih =>
    have hrest := ih (h.called call)
    rw [List.append_assoc] at hrest
    exact hrest

/-- **Under sinks that neither fail nor change the graph, a chronicle tells the
attributes of all elements.** -/
theorem Chronicle.recordedIn (hcalm : Compliant host g calm) (h : Chronicle host g calm record w) :
    (w.objectAt g).graph.RecordedIn record := by
  induction h with
  | created atRest empty =>
    rw [empty]
    exact Graph.recordedIn_empty _
  | @called record w before call ih =>
    obtain ⟨hw, hreach⟩ := before.history.reachable hcalm.toBystanders
    obtain ⟨changes, graph', hchanges, happly⟩ | ⟨e, hidle⟩ :=
      call.applyAll_or_failsIdly hreach.coherent g
    · -- the call is carried out
      obtain ⟨c, attributes, hplan⟩ := GraphCall.exists_plan hchanges
      obtain ⟨w', hexec, -, hgraph⟩ := hcalm.exec_commits hw happly
      have hrun : (call.run host g).exec w = (.ok (), w') := by
        rw [call.exec_run_changes, hchanges]
        exact hexec
      have hrecorded := ih.applyAll hreach.coherent (hreach.coherent.orderlyAll_plan hplan) happly
      rw [hrun]
      intro on k a ha j
      rw [hrecorded on k a (hgraph ▸ ha) j]
      exact GraphCall.lastWritten_changes hchanges record
    · -- it fails, and the world is what it was
      rw [hidle host w rfl]
      show (w.objectAt g).graph.RecordedIn (record ++ [])
      rw [List.append_nil]
      exact ih
  | elsewhere before atRest same ih =>
    rw [same]
    exact ih

/-- **What is read of an attribute of an element that is there is the value that was
last written since the element was added, or the default if there is none.** -/
theorem Chronicle.reads_last_write (hcalm : Compliant host g calm)
    (h : Chronicle host g calm record w) {on : ElementKind} {id name : Value} {k j : Key}
    (hid : id.key? = some k) (hthere : (w.objectAt g).graph.HasElement on k)
    (hname : name.key? = some j) (default : Value) :
    (w.objectAt g).graph.readAttribute on id name default
      = .ok ((lastWritten on k j record).getD default) :=
  (h.recordedIn hcalm).readAttribute_eq (h.history.reachable hcalm.toBystanders).2.coherent
    hthere hid hname default

end Reading

/-- An edge with a weight joins two nodes, and is given another weight through a view
of it.  One of the nodes is removed and comes back under another name, and so does the
edge, the other way round; another edge with a weight, between the same nodes, is
refused.  At last an event tells of a size. -/
def secondLife : List GraphCall :=
  [.request (.addNode (.int 1)) (Catalog.empty.insert (.ofText "colour") (.str "red")),
    .request (.addNode (.str "x")) (Catalog.empty.insert (.ofText "colour") (.str "blue")),
    .request (.addEdge (.str "bond") (.int 1) (.str "x"))
      (Catalog.empty.insert (.ofText "weight") (.int 3)),
    .write (.str "bond") (.int 1) (.str "x") (.str "weight") (.int 5),
    .request (.removeNode (.int 1)) .empty,
    .request (.addNode (.bool true)) .empty,
    .request (.addEdge (.str "bond") (.str "x") (.int 1)) .empty,
    .request (.addEdge (.int 7) (.int 1) (.str "x"))
      (Catalog.empty.insert (.ofText "weight") (.int 9)),
    .event (.attributeChanged .node (.int 1) (.str "size") .null (.int 2))]

/-- Neither the weights nor the colour have come back; the size is read, and what
belongs to the other node is what it was. -/
theorem reads_last_write_secondLife :
    let graph := ((afterCalls (Session.hostOfDepth 1) ⟨0⟩ secondLife recorderAttached).objectAt
      ⟨0⟩).graph
    graph.readAttribute .edge (.str "bond") (.str "weight") (.int 0) = .ok (.int 0)
      ∧ graph.readAttribute .node (.int 1) (.str "colour") (.str "none") = .ok (.str "none")
      ∧ graph.readAttribute .node (.bool true) (.str "size") .null = .ok (.int 2)
      ∧ graph.readAttribute .node (.str "x") (.str "colour") .null = .ok (.str "blue") := by
  have hinitial : OnlyListeners ⟨0⟩ recorderAttached :=
    ⟨Nat.one_pos, fun s hs => ⟨0, .inr (List.mem_singleton.1 hs)⟩, fun i => by cases i <;> rfl⟩
  have hbegun : Chronicle (Session.hostOfDepth 1) ⟨0⟩ (OnlyListeners ⟨0⟩) [] recorderAttached :=
    .created hinitial (rfl : (recorderAttached.objectAt ⟨0⟩).graph = Graph.empty false)
  have h := hbegun.afterCalls secondLife
  have hcalm := compliant_listeners 0 ⟨0⟩
  intro graph
  have hbond : graph.HasElement .edge (.text "bond") :=
    (by decide +kernel : graph.edges.contains (.text "bond") = true)
  have hone : graph.HasElement .node (.int 1) :=
    (by decide +kernel : graph.nodes.contains (.int 1) = true)
  have hother : graph.HasElement .node (.text "x") :=
    (by decide +kernel : graph.nodes.contains (.text "x") = true)
  exact ⟨h.reads_last_write hcalm (j := .text "weight") rfl hbond rfl (.int 0),
    h.reads_last_write hcalm (j := .text "colour") rfl hone rfl (.str "none"),
    h.reads_last_write hcalm (j := .text "size") rfl hone rfl .null,
    h.reads_last_write hcalm (j := .text "colour") rfl hother rfl .null⟩

end EvolvingGraph
