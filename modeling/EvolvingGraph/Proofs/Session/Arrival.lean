/-
  EvolvingGraph.Proofs.Session.Arrival
  ────────────────────────────────────
  **IN WHICH ORDER THE EVENTS OF A SESSION ARRIVE.**

  Of whatever happens in a session there is an account: which changes were made,
  who was told of them in which order, and which receipts were written.  An
  account of a run says which sinks hear of the changes to a graph in the order
  in which they are made, and which graphs can follow another one without ever
  failing.

  An event is handed to the sinks one after the other, and a change that one of
  them makes is reported at once, also to those that have not yet heard of the
  first one.  So it is not all sinks that are told in order.

  Main statements:
    * `accounted_hostOfDepth` — what the host of a session does is accounted for;
    * `events_arrive_in_order` — who hears of changes in order, and never fails;
    * `events_overtake` — who does not.
-/
import EvolvingGraph.Proofs.Delivery.Copying
import EvolvingGraph.Proofs.Session.Keeping

namespace EvolvingGraph

open Session Run

/-! ## §1. There is an account of every run. -/

/-- What has led from one world to another is accounted for. -/
def Accounted (w₀ w : World) : Prop := ∃ a, Happens .anything w₀ a (.ok ()) w

instance (w₀ : World) : Lasting (Accounted w₀) where
  elsewhere := fun ⟨_, before⟩ same => ⟨_, before.elsewhere same⟩
  written := fun receipt ⟨_, before⟩ => ⟨_, before.written receipt⟩

namespace Reports

variable {host : Host} {w₀ : World}

theorem keeps_commit (h : Reports host) (g : GraphRef) (c : Change) :
    Keeps (Accounted w₀) (commit host g c) := by
  refine ⟨fun w ⟨a, before⟩ => ?_⟩
  obtain ⟨b, changes⟩ := h.happens_changes g [c] w
  have hafter : (([c].forM (commit host g)).exec w).2 = ((commit host g c).exec w).2 := by
    rw [exec_forM_cons]
    rcases (commit host g c).exec w with ⟨_ | _, w'⟩ <;> rfl
  rw [hafter] at changes
  exact ⟨_, .request before changes⟩

/-- What a sink does is accounted for, if this is so for what it may play. -/
theorem of_deliver {outer : Host} (h : Reports host)
    (hplay : ∀ w₀ steps, Keeps (Accounted w₀) (host.play none steps))
    (hnotify : ∀ s sender event, outer.notify s sender event = deliver host s sender event) :
    Reports outer := by
  intro s sender event w
  rw [hnotify]
  refine .inr ?_
  cases s with
  | graph g => exact h.happens_follow g sender event w
  | recorder i =>
    show ∃ a, Happens _ w a ((record host i sender event).exec w).1
      ((record host i sender event).exec w).2
    obtain ⟨w', same, hexec | ⟨steps, hexec⟩⟩ := exec_record host i sender event w
    · rw [hexec]
      exact ⟨_, .records _ (.elsewhere (.rest _) same)⟩
    · rw [hexec]
      obtain ⟨a, doings⟩ := (hplay _ steps).after w' ⟨_, .elsewhere (.rest _) same⟩
      exact ⟨_, .records _ doings⟩
  | silent i => exact ⟨_, .ignores i sender event w⟩
  | generator g => exact ⟨_, .cannot g sender event w⟩

end Reports

/-- **What the host of a session does is accounted for, however deep its steps are
nested.** -/
theorem accounted_hostOfDepth (depth : Nat) : Reports (hostOfDepth depth)
    ∧ ∀ w₀, Sustained (Accounted w₀) (hostOfDepth depth) := by
  induction depth with
  | zero =>
    have hreports : Reports (hostOfDepth 0) := fun _ _ _ _ => .inl rfl
    have hnotify : ∀ w₀ s sender event,
        Keeps (Accounted w₀) ((hostOfDepth 0).notify s sender event) :=
      fun _ _ _ _ => .of_reads (.throw _)
    refine ⟨hreports, fun w₀ => ⟨hreports.keeps_commit, hnotify w₀, ?_, fun _ _ => ?_⟩⟩
    · have := hnotify w₀
      exact keeps_announce_of_notify
    · exact .of_reads (.throw _)
  | succ depth ih =>
    obtain ⟨hinner, hsustained⟩ := ih
    have hreports : Reports (hostOfDepth (depth + 1)) :=
      hinner.of_deliver (fun w₀ => (hsustained w₀).play none) fun _ _ _ => rfl
    refine ⟨hreports, fun w₀ => ?_⟩
    have := hsustained w₀
    have hnotify : ∀ s sender event,
        Keeps (Accounted w₀) ((hostOfDepth (depth + 1)).notify s sender event) := by
      intro s sender event
      show Keeps _ (deliver (hostOfDepth depth) s sender event)
      infer_instance
    refine ⟨hreports.keeps_commit, hnotify, keeps_announce_of_notify, fun self steps => ?_⟩
    show Keeps _ (playAll (hostOfDepth depth) self steps)
    infer_instance

theorem accounted_afterSteps (depth : Nat) (steps : List Step) (w : World) :
    Accounted w (afterSteps (hostOfDepth depth) steps w) := by
  have := (accounted_hostOfDepth depth).2 w
  exact keeps_afterSteps steps ⟨_, .rest w⟩

/-! ## §2. A graph, a copy of it, and recorders. -/

namespace Arrival

/-- Two graphs that hold the same, the sinks of the first one, and two recorders, of
which the first one reacts to something. -/
def twoGraphs (graph : Graph) (sinks : List SinkRef) (reaction : Reaction Step) : World :=
  { World.initial with
    graphs := ⟨[⟨"g", ⟨.str "G", sinks⟩, graph⟩, ⟨"m", ⟨.str "M", []⟩, graph⟩]⟩
    recorders := ⟨[⟨"r", [reaction]⟩, ⟨"s", []⟩]⟩
    bindings := [("g", .sink (.graph ⟨0⟩))] }

theorem inStep_twoGraphs {graph : Graph} (hgraph : graph.Coherent) (sinks : List SinkRef)
    (reaction : Reaction Step) : InStep ⟨0⟩ ⟨1⟩ (twoGraphs graph sinks reaction) where
  apart := by decide
  source_present := Nat.two_pos
  copy_present := Nat.one_lt_two
  source_coherent := hgraph
  copy_coherent := hgraph
  frame := .of_sameShape ⟨rfl, rfl, rfl, rfl⟩

/-- A request to the first graph. -/
def asks (c : ChangeTerm) : Step := .change (some "g") c none

def addsNode : Step := asks (.addNode (.value (.int 1)) [])

/-- Once a node has been added, an attribute of node 1 is set. -/
def setsAttribute : Reaction Step := ⟨.nodeAdded, [asks (.setAttribute .node (.value (.int 1))
  (.value (.str "k")) (.value (.int 1)) none)]⟩

/-- Once a node has been added, the recorder fails. -/
def fails : Reaction Step := ⟨.nodeAdded, [.fail "no"]⟩

/-- The copy is attached first, then the recorder that sets the attribute. -/
def copyAndRecorder : World := twoGraphs (.empty false) [.graph ⟨1⟩, .recorder 0] setsAttribute

/-- The graph with the node, … -/
def withNode : Graph := ((Graph.empty false).apply (.addNode (.int 1))).1

/-- … and with its attribute. -/
def withAttribute : Graph := (withNode.apply (.setAttribute .node (.int 1) (.str "k") (.int 1))).1

theorem takes_withNode :
    (Graph.empty false).Takes (.addNode (.int 1)) withNode (.nodeAdded (.int 1)) :=
  Graph.apply_eq_some_iff.1 rfl

theorem takes_withAttribute :
    withNode.Takes (.setAttribute .node (.int 1) (.str "k") (.int 1)) withAttribute
      (.attributeChanged .node (.int 1) (.str "k") .null (.int 1)) :=
  Graph.apply_eq_some_iff.1 rfl

/-- The graph makes a change, the copy follows, and then the recorder is told and
does something. -/
def copiedThenRecorded (before : Graph) (c : Change) (event : Event) (inside : Account) :
    Account :=
  .making ⟨0⟩ before c [.graph ⟨1⟩, .recorder 0] event
    (.telling ⟨0⟩ (.graph ⟨1⟩) event (.ok ()) (.making ⟨1⟩ before c [] event .nothing .nothing)
      (.telling ⟨0⟩ (.recorder 0) event (.ok ()) (.writing ⟨"r", .str "G", event⟩ inside)
        .nothing))
    .nothing

theorem happens_making {w v : World} {g : GraphRef} {object : GraphObject} {c : Change}
    {graph : Graph} {event : Event} {inside : Account} (hobject : w.objectAt g = object)
    (takes : object.graph.Takes c graph event)
    (round : Happens (.round g object.emitter.id event object.emitter.sinks) (w.put g graph) inside
      (.ok ()) v) :
    Happens (.changes g [c]) w
      (.making g object.graph c object.emitter.sinks event inside .nothing) (.ok ()) v := by
  subst hobject
  exact .made takes round (.unchanged ..)

theorem happens_copiedThenRecorded {w w' : World} {before after : Graph} {c : Change}
    {event : Event} {inside : Account}
    (hsource : w.objectAt ⟨0⟩ = ⟨"g", ⟨.str "G", [.graph ⟨1⟩, .recorder 0]⟩, before⟩)
    (hcopy : (w.put ⟨0⟩ after).objectAt ⟨1⟩ = ⟨"m", ⟨.str "M", []⟩, before⟩)
    (hlabel : (w.recorders.get 0).label = "r") (takes : before.Takes c after event)
    (planned : before.plan event.asChange .empty = .ok [c])
    (doings : Happens .anything (((w.put ⟨0⟩ after).put ⟨1⟩ after).receive
      [⟨"r", .str "G", event⟩]) inside (.ok ()) w') :
    Happens (.changes ⟨0⟩ [c]) w (copiedThenRecorded before c event inside) (.ok ()) w' := by
  have hfollows : Happens (.reaction (.graph ⟨1⟩) (.str "G") event) (w.put ⟨0⟩ after)
      (.making ⟨1⟩ before c [] event .nothing .nothing) (.ok ())
      ((w.put ⟨0⟩ after).put ⟨1⟩ after) := by
    refine .follows ?_ (happens_making hcopy takes (.allTold ..))
    rw [hcopy]
    exact planned
  have hrecords : Happens (.reaction (.recorder 0) (.str "G") event)
      ((w.put ⟨0⟩ after).put ⟨1⟩ after) (.writing ⟨"r", .str "G", event⟩ inside) (.ok ()) w' := by
    rw [← hlabel] at doings ⊢
    exact .records _ doings
  exact happens_making hsource takes (.told hfollows (.told hrecords (.allTold ..)))

/-- What happens when the node is added: the attribute is set while the recorder is
told of the node. -/
def nestedAccount : Account :=
  copiedThenRecorded (.empty false) (.addNode (.int 1)) (.nodeAdded (.int 1))
    (copiedThenRecorded withNode (.setAttribute .node (.int 1) (.str "k") (.int 1))
      (.attributeChanged .node (.int 1) (.str "k") .null (.int 1)) .nothing)

theorem happens_nestedAccount : Happens .anything copyAndRecorder nestedAccount (.ok ())
    (afterSteps (hostOfDepth 3) [addsNode] copyAndRecorder) := by
  -- the recorder's reaction is used up before it is played
  have hused : Happens .anything (((copyAndRecorder.put ⟨0⟩ withNode).put ⟨1⟩ withNode).receive
      [⟨"r", .str "G", .nodeAdded (.int 1)⟩]) .nothing (.ok ())
      { ((copyAndRecorder.put ⟨0⟩ withNode).put ⟨1⟩ withNode).receive
        [⟨"r", .str "G", .nodeAdded (.int 1)⟩] with
        recorders := ⟨[⟨"r", []⟩, ⟨"s", []⟩]⟩ } :=
    .elsewhere (.rest _) (.of_graphs_eq rfl rfl)
  have hinner := Happens.request hused
    (happens_copiedThenRecorded rfl rfl rfl takes_withAttribute rfl (.rest _))
  exact Happens.request (.rest copyAndRecorder)
    (happens_copiedThenRecorded rfl rfl rfl takes_withNode rfl hinner)

theorem undisturbed_nestedAccount {s : SinkRef} (hs : s ∈ [.graph ⟨1⟩, .recorder 0]) :
    nestedAccount.Undisturbed ⟨0⟩ s := by
  obtain rfl | rfl : s = .graph ⟨1⟩ ∨ s = .recorder 0 := by simpa using hs
  all_goals
    simp [nestedAccount, copiedThenRecorded, Account.Undisturbed, Account.Clear, Account.made]

theorem faithful_nestedAccount : nestedAccount.Faithful ⟨0⟩ ⟨1⟩ .elsewhere where
  undisturbed := undisturbed_nestedAccount List.mem_cons_self
  orderly := by
    simp [nestedAccount, copiedThenRecorded, Account.Orderly, Graph.orderly_of_ne]
  leftTo := by
    simp [nestedAccount, copiedThenRecorded, Account.LeftTo, Account.Smooth, Place.roundOf,
      Place.reactionOf]

/-- Two nodes and an edge. -/
def joinedNodes : Graph :=
  (Graph.empty false).applied
    [.addNode (.int 1), .addNode (.int 2), .addEdge (.str "e") (.int 1) (.int 2)]

theorem coherent_joinedNodes : joinedNodes.Coherent :=
  ((Graph.Reachable.empty false).applied (by simp)).coherent

def joinsNodes (id : String) : Step :=
  asks (.addEdge (.value (.str id)) (.value (.int 1)) (.value (.int 2)) [])

/-- Once an edge has been removed, the two nodes are joined by another one. -/
def joinsAgain : Reaction Step := ⟨.edgeRemoved, [joinsNodes "f"]⟩

/-- The first node goes, but the edge added meanwhile keeps its id; the node comes
back, and with it an edge between the same two nodes. -/
def leavesId : List Step := [asks (.removeNode (.value (.int 1))), addsNode, joinsNodes "h"]

def removesEdge : Step := asks (.removeEdge (.value (.str "f")))

/-- Which recorder has received which kinds of events. -/
def heard (w : World) : List (String × EventKind) :=
  w.received.map fun r => (r.recorder, r.event.kind)

/-- What kind of failure a step ends with, if any. -/
def failureOf (step : Step) (w : World) : Option ErrorKind :=
  match ((playStep standardHost none step).exec w).1 with
  | .ok _ => none
  | .error e => some e.kind

end Arrival

/-! ## §3. Who hears of changes in order. -/

/-- **Events arrive in order at a sink that stands behind none that fails or changes
the graph, and a copy that stands there never fails.** -/
theorem events_arrive_in_order (depth : Nat) (steps : List Step) (w : World) :
    let w' := afterSteps (hostOfDepth depth) steps w
    (∃ a, Happens .anything w a (.ok ()) w')
    ∧ ∀ a, Happens .anything w a (.ok ()) w' →
      w'.received = w.received ++ a.receipts
      ∧ (∀ g s, a.Undisturbed g s → a.received g s = a.made g)
      ∧ ∀ g m, InStep g m w → a.Faithful g m .elsewhere →
        a.NeverFails g (.graph m) ∧ InStep g m w' := by
  refine ⟨accounted_afterSteps depth steps w, fun a h => ⟨h.received_eq, ?_, ?_⟩⟩
  · exact fun g s hs => h.received_eq_made hs
  · intro g m hw hfaithful
    obtain ⟨hstep, hnever⟩ := h.copy_inStep hw hfaithful
    exact ⟨hnever, hstep⟩

open Arrival

/-- The recorder changes the graph while it is told; it stands behind the copy. -/
theorem events_arrive_in_order_nested :
    Happens .anything copyAndRecorder nestedAccount (.ok ())
      (afterSteps (hostOfDepth 3) [addsNode] copyAndRecorder)
    ∧ nestedAccount.Undisturbed ⟨0⟩ (.recorder 0) ∧ InStep ⟨0⟩ ⟨1⟩ copyAndRecorder
    ∧ nestedAccount.Faithful ⟨0⟩ ⟨1⟩ .elsewhere
    ∧ nestedAccount.received ⟨0⟩ (.recorder 0)
      = [.nodeAdded (.int 1), .attributeChanged .node (.int 1) (.str "k") .null (.int 1)]
    ∧ nestedAccount.NeverFails ⟨0⟩ (.graph ⟨1⟩)
    ∧ InStep ⟨0⟩ ⟨1⟩ (afterSteps (hostOfDepth 3) [addsNode] copyAndRecorder) := by
  have hstart : InStep ⟨0⟩ ⟨1⟩ copyAndRecorder := inStep_twoGraphs (Graph.coherent_empty false) _ _
  have hundisturbed : nestedAccount.Undisturbed ⟨0⟩ (.recorder 0) :=
    undisturbed_nestedAccount (by simp)
  obtain ⟨-, htrue⟩ := events_arrive_in_order 3 [addsNode] copyAndRecorder
  obtain ⟨-, horder, hcopy⟩ := htrue nestedAccount happens_nestedAccount
  obtain ⟨hnever, hend⟩ := hcopy ⟨0⟩ ⟨1⟩ hstart faithful_nestedAccount
  exact ⟨happens_nestedAccount, hundisturbed, hstart, faithful_nestedAccount,
    (horder ⟨0⟩ (.recorder 0) hundisturbed).trans rfl, hnever, hend⟩

/-- Behind a recorder that changes the graph, another one hears of the second change
first, and behind one that fails it hears of nothing.  A copy behind the former
cannot follow; in front of it, the copy fails when an edge is removed that has
outlived its node.  Without the copy nothing fails in these cases. -/
theorem events_overtake :
    heard (afterSteps standardHost [addsNode]
        (twoGraphs (.empty false) [.recorder 0, .recorder 1] setsAttribute))
      = [("r", .nodeAdded), ("r", .attributeChanged .node),
        ("s", .attributeChanged .node), ("s", .nodeAdded)]
    ∧ heard (afterSteps standardHost [addsNode]
        (twoGraphs (.empty false) [.recorder 0, .recorder 1] fails)) = [("r", .nodeAdded)]
    ∧ (InStep ⟨0⟩ ⟨1⟩ (twoGraphs (.empty false) [.recorder 0, .graph ⟨1⟩] setsAttribute)
      ∧ failureOf addsNode (twoGraphs (.empty false) [.recorder 0, .graph ⟨1⟩] setsAttribute)
        = some .elementNotFound
      ∧ failureOf addsNode (twoGraphs (.empty false) [.recorder 0] setsAttribute) = none)
    ∧ InStep ⟨0⟩ ⟨1⟩ (twoGraphs joinedNodes [.graph ⟨1⟩, .recorder 0] joinsAgain)
    ∧ failureOf removesEdge (afterSteps standardHost leavesId
        (twoGraphs joinedNodes [.graph ⟨1⟩, .recorder 0] joinsAgain)) = some .elementNotFound
    ∧ failureOf removesEdge (afterSteps standardHost leavesId
        (twoGraphs joinedNodes [.recorder 0] joinsAgain)) = none := by
  refine ⟨by decide +kernel, by decide +kernel, ⟨inStep_twoGraphs (Graph.coherent_empty false) _ _,
    by decide +kernel, by decide +kernel⟩, inStep_twoGraphs coherent_joinedNodes _ _,
    by decide +kernel, by decide +kernel⟩

end EvolvingGraph
