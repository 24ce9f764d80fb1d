/-
  EvolvingGraph.Proofs.Delivery.Mirror
  ────────────────────────────────────
  **A GRAPH THAT IS ATTACHED TO ANOTHER ONE AND COPIES IT.**

  A graph that is attached to another one follows its events.  While all other
  sinks of the two are passive, a change to the source that takes effect is
  made to the copy before the sinks attached after it are told; what is written
  down meanwhile is, event for event, what the source's sinks and the copy's
  sinks note.  A change that takes no effect is not heard of.

  Held here are the two graphs and the hosts under which their sinks are told
  (`Mirror`), and the sinks around them (`Wiring`), which may be others at
  another time.

  Main statements:
    * `Lockstep.exec_commit_takes` — a change to the source is made to both;
    * `Lockstep.followed_commit` — every change keeps the two in lockstep;
    * `Lockstep.followed_call` — so does every call to the source.
-/
import EvolvingGraph.Proofs.Delivery.Passive
import EvolvingGraph.Proofs.Graph.Following

namespace EvolvingGraph

/-! ## §1. A graph and its copy. -/

/-- A graph and another one that is told its events. -/
structure Mirror where
  /-- The sinks of the source are told events under this host, … -/
  host : Host
  /-- … and those of the copy under this one. -/
  inner : Host
  source : GraphRef
  copy : GraphRef
  apart : source ≠ copy
  heard : ∀ sender event, host.notify (.graph copy) sender event = follow inner copy event

/-- A mirror in a session in which steps can cause others. -/
def Mirror.ofDepth (depth : Nat) (source copy : GraphRef) (apart : source ≠ copy) : Mirror :=
  ⟨Session.hostOfDepth (depth + 1), Session.hostOfDepth depth, source, copy, apart, fun _ _ => rfl⟩

/-- The other sinks around a graph and its copy, and what these sinks write down. -/
structure Wiring where
  sourceId : Value
  copyId : Value
  /-- The sinks of the source that are attached before the copy … -/
  before : List SinkRef
  /-- … and after it. -/
  after : List SinkRef
  /-- The sinks of the copy. -/
  behind : List SinkRef
  notes : SinkRef → Notes

/-- What is written down of one event that the source emits and the copy emits
again: by the sinks before the copy, by those of the copy, by those after it. -/
def Wiring.trace (x : Wiring) (event : Event) : List Receipt :=
  x.before.flatMap (x.notes · x.sourceId event)
    ++ x.behind.flatMap (x.notes · x.copyId event)
    ++ x.after.flatMap (x.notes · x.sourceId event)

namespace Mirror

/-- The copy is attached to the source, and all other sinks of the two are passive. -/
structure Wired (m : Mirror) (x : Wiring) (w : World) : Prop where
  source_present : w.HasGraph m.source
  copy_present : w.HasGraph m.copy
  source_emitter : (w.objectAt m.source).emitter
    = ⟨x.sourceId, x.before ++ .graph m.copy :: x.after⟩
  copy_emitter : (w.objectAt m.copy).emitter = ⟨x.copyId, x.behind⟩
  beside : ∀ s ∈ x.before ++ x.after, Passive m.host w.recorders s (x.notes s)
  behind : ∀ s ∈ x.behind, Passive m.inner w.recorders s (x.notes s)

/-- The copy is the source, but for the direction of its edges. -/
structure Lockstep (m : Mirror) (x : Wiring) (w : World) : Prop extends m.Wired x w where
  coherent : (w.objectAt m.source).graph.Coherent
  directed : (w.objectAt m.source).graph.directed = true →
    (w.objectAt m.copy).graph.directed = true
  same : (w.objectAt m.copy).graph
    = (w.objectAt m.source).graph.turned (w.objectAt m.copy).graph.directed

/-- From one world to another the copy has stayed in lockstep, and it has
emitted the events that the source has emitted. -/
structure Followed (m : Mirror) (x : Wiring) (w w' : World) : Prop where
  lockstep : m.Lockstep x w'
  reported : ∃ events : List Event, w'.received = w.received ++ events.flatMap x.trace

variable {m : Mirror} {x : Wiring} {w w' w'' : World}

theorem Lockstep.sameContent (h : m.Lockstep x w) :
    (w.objectAt m.source).graph.SameContent (w.objectAt m.copy).graph := by
  rw [h.same]
  exact h.coherent.sameContent_turned h.directed

theorem Followed.refl (h : m.Lockstep x w) : m.Followed x w w :=
  ⟨h, [], by rw [List.flatMap_nil, List.append_nil]⟩

theorem Followed.trans (h : m.Followed x w w') (h' : m.Followed x w' w'') :
    m.Followed x w w'' := by
  obtain ⟨events, hevents⟩ := h.reported
  obtain ⟨events', hevents'⟩ := h'.reported
  refine ⟨h'.lockstep, events ++ events', ?_⟩
  rw [hevents', hevents, List.flatMap_append, List.append_assoc]

/-! ## §2. One change. -/

/-- A graph that follows an event makes one change and reports it. -/
theorem exec_follow {host : Host} {g : GraphRef} {id : Value} {sinks : List SinkRef}
    {notes : SinkRef → Notes} {graph' : Graph} {c : Change} {event : Event}
    (hemitter : (w.objectAt g).emitter = ⟨id, sinks⟩)
    (hpassive : ∀ s ∈ sinks, Passive host w.recorders s (notes s))
    (htakes : (w.objectAt g).graph.Takes c graph' event)
    (horderly : (w.objectAt g).graph.Orderly c) :
    (follow host g event).exec w
      = (.ok (), (w.put g graph').receive (sinks.flatMap (notes · id event))) := by
  have hcommit : (commit host g c).exec w
      = (.ok (), (w.put g graph').receive (sinks.flatMap (notes · id event))) := by
    rw [exec_commit_takes htakes, hemitter]
    exact exec_forM_notify hpassive id event rfl
  unfold follow
  rw [exec_perform, accepts_empty, if_pos rfl, htakes.plan_asChange horderly]
  show Run.exec ([c].forM (commit host g)) w = _
  rw [Run.exec_forM_cons, hcommit]
  rfl

/-- **A change to the source that takes effect is made to the copy as well, and
its event is emitted by both.** -/
theorem Lockstep.exec_commit_takes (h : m.Lockstep x w) {c : Change} {graph' : Graph}
    {event : Event} (htakes : (w.objectAt m.source).graph.Takes c graph' event)
    (horderly : (w.objectAt m.source).graph.Orderly c) :
    (commit m.host m.source c).exec w = (.ok (), ((w.put m.source graph').put m.copy
      (graph'.turned (w.objectAt m.copy).graph.directed)).receive (x.trace event)) := by
  have hcopy : (w.put m.source graph').objectAt m.copy = w.objectAt m.copy :=
    World.objectAt_put_of_ne m.apart graph'
  have hturned := htakes.turned h.coherent h.directed
  rw [← h.same] at hturned
  have horderly' : (w.objectAt m.copy).graph.Orderly c := by
    rw [h.same]
    exact horderly
  -- three parts of one emission: the sinks before the copy, the copy, the sinks after it
  have hbefore := exec_forM_notify (fun s hs => h.beside s (List.mem_append_left _ hs))
    x.sourceId event (w := w.put m.source graph') rfl
  have hfollow : (m.host.notify (.graph m.copy) x.sourceId event).exec
      ((w.put m.source graph').receive (x.before.flatMap (x.notes · x.sourceId event)))
      = (.ok (), ((w.put m.source graph').put m.copy
          (graph'.turned (w.objectAt m.copy).graph.directed)).receive
            (x.before.flatMap (x.notes · x.sourceId event)
              ++ x.behind.flatMap (x.notes · x.copyId event))) := by
    rw [m.heard, ← World.receive_receive, ← World.put_receive]
    refine exec_follow ?_ h.behind (c := c) ?_ ?_
      <;> rw [World.put_receive, World.objectAt_receive, hcopy]
    · exact h.copy_emitter
    · exact hturned
    · exact horderly'
  have hafter := exec_forM_notify (fun s hs => h.beside s (List.mem_append_right _ hs))
    x.sourceId event (w := ((w.put m.source graph').put m.copy
      (graph'.turned (w.objectAt m.copy).graph.directed)).receive
        (x.before.flatMap (x.notes · x.sourceId event)
          ++ x.behind.flatMap (x.notes · x.copyId event))) rfl
  rw [EvolvingGraph.exec_commit_takes htakes, h.source_emitter]
  show Run.exec ((x.before ++ .graph m.copy :: x.after).forM _) _ = _
  rw [Run.exec_forM_append hbefore, Run.exec_forM_cons, hfollow]
  show Run.exec (x.after.forM _) _ = _
  rw [hafter, World.receive_receive]
  rfl

/-- Graphs put in the places of the two leave the sinks as they are. -/
theorem Lockstep.put_both (h : m.Lockstep x w) {graph' : Graph} (hcoherent : graph'.Coherent)
    (hdirected : graph'.directed = (w.objectAt m.source).graph.directed) (rs : List Receipt) :
    m.Lockstep x (((w.put m.source graph').put m.copy
      (graph'.turned (w.objectAt m.copy).graph.directed)).receive rs) := by
  have hpresent : (w.put m.source graph').HasGraph m.copy :=
    (World.hasGraph_put graph').2 h.copy_present
  have hsource : ((w.put m.source graph').put m.copy
      (graph'.turned (w.objectAt m.copy).graph.directed)).objectAt m.source
      = { w.objectAt m.source with graph := graph' } := by
    rw [World.objectAt_put_of_ne m.apart.symm, World.objectAt_put_self h.source_present]
  have hcopy : ((w.put m.source graph').put m.copy
      (graph'.turned (w.objectAt m.copy).graph.directed)).objectAt m.copy
      = { w.objectAt m.copy with graph := graph'.turned (w.objectAt m.copy).graph.directed } := by
    rw [World.objectAt_put_self hpresent, World.objectAt_put_of_ne m.apart]
  constructor
  · refine ⟨?_, ?_, ?_, ?_, h.beside, h.behind⟩
    · exact (World.hasGraph_put _).2 ((World.hasGraph_put _).2 h.source_present)
    · exact (World.hasGraph_put _).2 hpresent
    · rw [World.objectAt_receive, hsource]
      exact h.source_emitter
    · rw [World.objectAt_receive, hcopy]
      exact h.copy_emitter
  · rw [World.objectAt_receive, hsource]
    exact hcoherent
  · rw [World.objectAt_receive, World.objectAt_receive, hsource, hcopy]
    show graph'.directed = true → (w.objectAt m.copy).graph.directed = true
    rw [hdirected]
    exact h.directed
  · rw [World.objectAt_receive, World.objectAt_receive, hsource, hcopy]
    rfl

/-- An orderly change to the source keeps the two in lockstep, whatever comes of it. -/
theorem Lockstep.followed_commit (h : m.Lockstep x w) {c : Change}
    (horderly : (w.objectAt m.source).graph.Orderly c) :
    m.Followed x w ((commit m.host m.source c).exec w).2
      ∧ ((commit m.host m.source c).exec w).2.trees = w.trees
      ∧ (((commit m.host m.source c).exec w).2.objectAt m.source).graph
        = ((w.objectAt m.source).graph.apply c).1 := by
  obtain ⟨event, htakes⟩ | ⟨hsame, hidle⟩ := h.coherent.takes_or_eq c
  · have hlockstep := h.put_both (h.coherent.takes htakes horderly) htakes.directed_eq
      (x.trace event)
    rw [h.exec_commit_takes htakes horderly]
    refine ⟨⟨hlockstep, [event], ?_⟩, rfl, ?_⟩
    · rw [List.flatMap_singleton]
      rfl
    · rw [World.objectAt_receive, World.objectAt_put_of_ne m.apart.symm,
        World.objectAt_put_self h.source_present]
  · rw [exec_commit_idle hsame hidle, hsame]
    exact ⟨.refl h, rfl, rfl⟩

/-! ## §3. Calls. -/

/-- Orderly changes keep the two in lockstep, wherever they stop. -/
theorem Lockstep.followed_commits (h : m.Lockstep x w) {changes : List Change}
    (horderly : (w.objectAt m.source).graph.OrderlyAll changes) :
    m.Followed x w ((changes.forM (commit m.host m.source)).exec w).2
      ∧ ((changes.forM (commit m.host m.source)).exec w).2.trees = w.trees := by
  induction changes generalizing w with
  | nil => exact ⟨.refl h, rfl⟩
  | cons c rest ih =>
    obtain ⟨hfollowed, htrees, hgraph⟩ := h.followed_commit horderly.1
    rw [Run.exec_forM_cons]
    rcases hexec : (commit m.host m.source c).exec w with ⟨_ | _, w'⟩
    · rw [hexec] at hfollowed htrees
      exact ⟨hfollowed, htrees⟩
    · rw [hexec] at hfollowed htrees hgraph
      -- the rest finds the graph that the change has left
      have hrest := horderly.2
      rw [← hgraph] at hrest
      obtain ⟨hfollowed', htrees'⟩ := ih hfollowed.lockstep hrest
      exact ⟨hfollowed.trans hfollowed', htrees'.trans htrees⟩

/-- **Every call to the source keeps the two in lockstep, also one that fails.** -/
theorem Lockstep.followed_call (h : m.Lockstep x w) (call : GraphCall) :
    m.Followed x w ((call.run m.host m.source).exec w).2
      ∧ ((call.run m.host m.source).exec w).2.trees = w.trees := by
  obtain ⟨error, hexec⟩ | ⟨c, attributes, changes, hplan, hexec⟩ :=
    call.exec_run m.host m.source w
  · rw [hexec]
    exact ⟨.refl h, rfl⟩
  · rw [hexec]
    exact h.followed_commits (h.coherent.orderlyAll_plan hplan)

end Mirror
end EvolvingGraph
