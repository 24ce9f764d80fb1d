/-
  EvolvingGraph.Proofs.Generation.Relaying
  ────────────────────────────────────────
  **BUILDING A GRAPH THROUGH A GENERATOR IS BUILDING IT DIRECTLY.**

  A generator changes nothing: it announces changes, and a graph that is its only
  sink makes them.  A call for an element with attributes becomes one announcement
  for the element and one for each attribute, which the graph follows one by one; a
  graph that is asked itself plans the whole request before the first change.  The
  two ways are compared on equal graphs, whose own sinks are passive.  Both make the
  same changes up to the same failure and report the same events, and what the
  generator is told of an old value does not reach the graph at all.

  Main statements:
    * `exec_perform_forM` — a request is one request for the element and one for
      each attribute;
    * `Relay.paired_announcement` — what is announced is what is asked for;
    * `Relay.paired_call` — one call, made in both ways;
    * `relayed_calls_build_alike` — any calls, call by call.
-/
import EvolvingGraph.Proofs.Delivery.Pairing
import EvolvingGraph.Proofs.Delivery.Passive
import EvolvingGraph.Proofs.Generation.Calls

namespace EvolvingGraph

/-! ## §1. Requests, element and attributes apart. -/

namespace Run

variable {α : Type} {f f' : α → Run Unit}

theorem exec_forM_congr {xs : List α} (h : ∀ x ∈ xs, ∀ w, (f x).exec w = (f' x).exec w)
    (w : World) : (xs.forM f).exec w = (xs.forM f').exec w := by
  induction xs generalizing w with
  | nil => rfl
  | cons x xs ih =>
    rw [exec_forM_cons, exec_forM_cons, h x List.mem_cons_self w]
    rcases (f' x).exec w with ⟨e | _, w'⟩
    · rfl
    · exact ih (fun y hy => h y (List.mem_cons_of_mem _ hy)) w'

theorem exec_forM_singleton (x : α) (w : World) : ([x].forM f).exec w = (f x).exec w := by
  rw [exec_forM_cons]
  rcases (f x).exec w with ⟨_ | _, _⟩ <;> rfl

end Run

section Requests

variable {host : Host} {g : GraphRef} {c : Change} {attributes : Attributes}

/-- A request without attributes is a single change, unless a node is to be removed. -/
theorem exec_perform_empty (hc : ∀ id, c ≠ .removeNode id) (w : World) :
    (perform host g c .empty).exec w = (commit host g c).exec w := by
  have hsettings : c.settings .empty = [] := by cases c <;> rfl
  rw [exec_perform, accepts_empty, if_pos rfl, Graph.plan_of_ne_removeNode hc,
    hsettings]
  exact Run.exec_forM_singleton c w

/-- **A request that is accepted comes to one request for the element alone, and
then one for each of its attributes.** -/
theorem exec_perform_forM (haccepts : c.accepts attributes = true) (w : World) :
    (perform host g c attributes).exec w
      = ((c :: c.settings attributes).forM (perform host g · .empty)).exec w := by
  by_cases hnode : ∃ id, c = .removeNode id
  · -- whoever removes a node does not look at attributes
    obtain ⟨id, rfl⟩ := hnode
    show _ = (([.removeNode id] : List Change).forM (perform host g · .empty)).exec w
    rw [Run.exec_forM_singleton, exec_perform, exec_perform, haccepts, accepts_empty]
    rfl
  · have hc : ∀ id, c ≠ .removeNode id := fun id heq => hnode ⟨id, heq⟩
    rw [exec_perform, haccepts, if_pos rfl, Graph.plan_of_ne_removeNode hc]
    refine Run.exec_forM_congr (fun d hd v => (exec_perform_empty ?_ v).symm) w
    obtain rfl | hd := List.mem_cons.1 hd
    · exact hc
    · exact Graph.not_removeNode_of_mem_settings hd

end Requests

namespace Change

/-- Whoever follows an announcement makes the change that is announced; the old
value that it tells does not matter. -/
theorem asChange_of_announcement? {c : Change} {old : Value} {event : Event}
    (h : c.announcement? old = some event) : event.asChange = c := by
  cases c <;> cases h <;> rfl

theorem exists_announcement? {c : Change} (hc : c ≠ .clear) (old : Value) :
    ∃ event, c.announcement? old = some event := by
  cases c with
  | clear => exact absurd rfl hc
  | _ => exact ⟨_, rfl⟩

theorem ne_clear_of_mem_settings {c d : Change} {attributes : Attributes}
    (h : d ∈ c.settings attributes) : d ≠ .clear := by
  rintro rfl
  cases c <;> simp [settings] at h

end Change

/-! ## §2. The same change in both ways. -/

/-- A generator, the graph that follows it, and another graph that is asked directly. -/
structure Relay where
  /-- The sinks of the generator are told events under this host. -/
  host : Host
  generator : GeneratorRef
  follower : Audience
  direct : Audience
  heard : ∀ sender event, host.notify (.graph follower.graph) sender event
    = follow follower.host follower.graph event

namespace Relay

/-- The graph that follows is the only sink of the generator, and it is equal to
the graph that is asked in the other world. -/
structure Abreast (r : Relay) (w w' : World) : Prop where
  follower : r.follower.Attends w
  direct : r.direct.Attends w'
  only_sink : (w.generatorAt r.generator).emitter.sinks = [.graph r.follower.graph]
  same : (w.objectAt r.follower.graph).graph = (w'.objectAt r.direct.graph).graph

/-- From two worlds to two others, the same events have been written down by the
sinks of the two graphs, each after its own fashion. -/
def Reported (r : Relay) (w₀ w₀' w w' : World) : Prop :=
  ∃ events : List Event, w.received = w₀.received ++ events.flatMap r.follower.trace
    ∧ w'.received = w₀'.received ++ events.flatMap r.direct.trace

/-- The two graphs have stayed abreast since two earlier worlds. -/
structure AbreastSince (r : Relay) (w₀ w₀' w w' : World) : Prop extends r.Abreast w w' where
  reported : r.Reported w₀ w₀' w w'

variable {r : Relay} {w₀ w₀' w w' : World}

theorem Abreast.since_self (h : r.Abreast w w') : r.AbreastSince w w' w w' :=
  ⟨h, [], (List.append_nil _).symm, (List.append_nil _).symm⟩

theorem paired_commit (r : Relay) (w₀ w₀' : World) (c : Change) :
    Run.Paired (r.AbreastSince w₀ w₀') Eq (commit r.follower.host r.follower.graph c)
      (fun _ _ => True) (commit r.direct.host r.direct.graph c) := by
  intro w w' h
  rw [h.follower.exec_commit, h.direct.exec_commit, h.same]
  generalize hgraph : (w'.objectAt r.direct.graph).graph = graph
  constructor
  · constructor
    · refine ⟨h.follower.put_receive _ _, h.direct.put_receive _ _, h.only_sink, ?_⟩
      rw [World.objectAt_receive, World.objectAt_receive,
        World.objectAt_put_self h.follower.present, World.objectAt_put_self h.direct.present]
    · obtain ⟨events, hreceived, hreceived'⟩ := h.reported
      refine ⟨events ++ graph.reported c, ?_, ?_⟩
      · rw [List.flatMap_append, ← List.append_assoc, ← hreceived]
        rfl
      · rw [List.flatMap_append, ← List.append_assoc, ← hreceived']
        rfl
  · cases (graph.apply c).2 with
    | error e => exact .error rfl
    | ok event => exact .ok trivial

/-- A request is planned alike on equal graphs, and so are its changes made. -/
theorem paired_perform (r : Relay) (w₀ w₀' : World) (c : Change) (attributes : Attributes) :
    Run.Paired (r.AbreastSince w₀ w₀') Eq
      (perform r.follower.host r.follower.graph c attributes) (fun _ _ => True)
      (perform r.direct.host r.direct.graph c attributes) := by
  intro w w' h
  rw [exec_perform, exec_perform, h.same]
  split
  · cases (w'.objectAt r.direct.graph).graph.plan c attributes with
    | error e => exact ⟨h, .error rfl⟩
    | ok changes =>
      exact Run.Paired.forM (List.forall₂_same.2 fun _ _ => rfl)
        (fun d d' hd => hd ▸ r.paired_commit w₀ w₀' d) w w' h
  · exact ⟨h, .error rfl⟩

/-- Announce a single change. -/
def announceOne (r : Relay) (old : Value) (c : Change) : Run Unit := do
  let emitter := (← World.generator r.generator).emitter
  match c.announcement? old with
  | some event => emit r.host emitter event
  | none => throw .noSuchOperation

/-- **What is announced to one graph is what the other one is asked for.** -/
theorem paired_announcement (r : Relay) (w₀ w₀' : World) {c : Change} (hc : c ≠ .clear)
    (old : Value) :
    Run.Paired (r.AbreastSince w₀ w₀') Eq (r.announceOne old c) (fun _ _ => True)
      (perform r.direct.host r.direct.graph c .empty) := by
  obtain ⟨event, hevent⟩ := Change.exists_announcement? hc old
  refine (r.paired_perform w₀ w₀' c .empty).of_exec (fun w w' h => ?_) fun _ _ _ => rfl
  have hemit : (r.announceOne old c).exec w
      = (emit r.host (w.generatorAt r.generator).emitter event).exec w := by
    unfold announceOne
    rw [hevent]
    rfl
  rw [hemit]
  unfold emit
  rw [h.only_sink, Run.exec_forM_singleton, r.heard, follow,
    Change.asChange_of_announcement? hevent]

end Relay

/-! ## §3. Calls. -/

/-- A call that generators and graphs both understand; a graph is not told an old
value. -/
structure BuildingCall where
  change : Change
  attributes : Attributes
  old : Value
  /-- Generators do not clear. -/
  announced : change ≠ .clear

namespace Relay

/-- Call the generator. -/
def relay (r : Relay) (call : BuildingCall) : Run Unit :=
  announce r.host r.generator call.change call.attributes call.old

/-- Call the other graph. -/
def ask (r : Relay) (call : BuildingCall) : Run Unit :=
  perform r.direct.host r.direct.graph call.change call.attributes

/-- **A call to the generator and the same call to the other graph end alike, leave
equal graphs, and are reported by the same events.** -/
theorem paired_call (r : Relay) (w₀ w₀' : World) (call : BuildingCall) :
    Run.Paired (r.AbreastSince w₀ w₀') Eq (r.relay call) (fun _ _ => True) (r.ask call) := by
  cases haccepts : call.change.accepts call.attributes with
  | false =>
    intro w w' h
    unfold relay ask announce
    rw [exec_perform, haccepts]
    exact ⟨h, .error rfl⟩
  | true =>
    have hloop : Run.Paired (r.AbreastSince w₀ w₀') Eq
        ((call.change :: call.change.settings call.attributes).forM (r.announceOne call.old))
        (fun _ _ => True)
        ((call.change :: call.change.settings call.attributes).forM
          (perform r.direct.host r.direct.graph · .empty)) := by
      have hsame : List.Forall₂ (fun c d => c = d ∧ c ≠ .clear)
          (call.change :: call.change.settings call.attributes)
          (call.change :: call.change.settings call.attributes) := by
        refine List.forall₂_same.2 fun c hc => ⟨rfl, ?_⟩
        obtain rfl | hc := List.mem_cons.1 hc
        · exact call.announced
        · exact Change.ne_clear_of_mem_settings hc
      refine .forM hsame ?_
      rintro c _ ⟨rfl, hc⟩
      exact r.paired_announcement w₀ w₀' hc call.old
    refine hloop.of_exec (fun w w' _ => ?_) fun w w' _ => exec_perform_forM haccepts w'
    unfold relay announce
    rw [haccepts]
    rfl

/-- Call by call: what comes of the call is the same in both ways, the graphs are
equal afterwards, and what their sinks have written down meanwhile is the same
events. -/
def BuildsAlike (r : Relay) : List BuildingCall → World → World → Prop
  | [], _, _ => True
  | call :: rest, w, w' =>
    let relayed := (r.relay call).exec w
    let asked := (r.ask call).exec w'
    relayed.1 = asked.1
      ∧ (relayed.2.objectAt r.follower.graph).graph = (asked.2.objectAt r.direct.graph).graph
      ∧ r.Reported w w' relayed.2 asked.2
      ∧ r.BuildsAlike rest relayed.2 asked.2

end Relay

/-- **Calls to a generator whose only sink is a graph, and the same calls to an
equal graph, come to the same, call by call.** -/
theorem relayed_calls_build_alike {r : Relay} {w w' : World} (h : r.Abreast w w')
    (calls : List BuildingCall) : r.BuildsAlike calls w w' := by
  induction calls generalizing w w' with
  | nil => trivial
  | cons call rest ih =>
    obtain ⟨hafter, hend⟩ := r.paired_call w w' call w w' h.since_self
    have hsame : ((r.relay call).exec w).1 = ((r.ask call).exec w').1 :=
      (hend.mono fun _ _ _ => rfl).eq.symm
    exact ⟨hsame, hafter.same, hafter.reported, ih hafter.toAbreast⟩

/-- Two empty graphs, each with a recorder, and a generator that tells the first one. -/
def workshop : World :=
  { World.initial with
    graphs := ⟨[⟨"built", ⟨.str "built", [.recorder 0]⟩, .empty false⟩,
      ⟨"drawn", ⟨.str "drawn", [.recorder 1]⟩, .empty false⟩]⟩
    recorders := ⟨[⟨"first", []⟩, ⟨"second", []⟩]⟩
    generators := ⟨[{ (default : Generator) with emitter := ⟨.str "maker", [.graph ⟨0⟩]⟩ }]⟩ }

/-- One of the two graphs, with its recorder. -/
def workshopAudience (i : Nat) : Audience where
  host := Session.hostOfDepth 1
  graph := ⟨i⟩
  emitter := (workshop.objectAt ⟨i⟩).emitter
  notes := fun _ sender event => [⟨(workshop.recorders.get i).label, sender, event⟩]

def workshopRelay : Relay where
  host := Session.hostOfDepth 2
  generator := ⟨0⟩
  follower := workshopAudience 0
  direct := workshopAudience 1
  heard := fun _ _ => rfl

/-- A node with a colour, another one, and an edge with a weight; another edge with
its name, which is refused; another colour, about whose old value the generator is
wrong; and the node is removed, and its edge with it. -/
def corrections : List BuildingCall :=
  [⟨.addNode (.int 1), Catalog.empty.insert (.ofText "colour") (.str "red"), .null, by simp⟩,
    ⟨.addNode (.int 2), .empty, .null, by simp⟩,
    ⟨.addEdge (.str "bond") (.int 1) (.int 2),
      Catalog.empty.insert (.ofText "weight") (.int 3), .null, by simp⟩,
    ⟨.addEdge (.str "bond") (.int 2) (.int 2), .empty, .null, by simp⟩,
    ⟨.setAttribute .node (.bool true) (.str "colour") (.str "blue"), .empty, .str "green",
      by simp⟩,
    ⟨.removeNode (.int 1), .empty, .null, by simp⟩]

/-- The recorder of the graph that follows the generator hears that the colour was
red, and it hears of the edge before it hears of the node. -/
theorem relayed_calls_build_alike_corrections :
    workshopRelay.BuildsAlike corrections workshop workshop
      ∧ (corrections.foldl (fun w call => ((workshopRelay.relay call).exec w).2)
          workshop).received.map (·.event)
        = [.nodeAdded (.int 1), .attributeChanged .node (.int 1) (.str "colour") .null (.str "red"),
          .nodeAdded (.int 2), .edgeAdded (.str "bond") (.int 1) (.int 2),
          .attributeChanged .edge (.str "bond") (.str "weight") .null (.int 3),
          .attributeChanged .node (.bool true) (.str "colour") (.str "red") (.str "blue"),
          .edgeRemoved (.str "bond"), .nodeRemoved (.int 1)] := by
  have hattends : ∀ i < 2, (workshopAudience i).Attends workshop := by
    intro i hi
    refine ⟨hi, rfl, fun s hs => ?_⟩
    obtain rfl | rfl : i = 0 ∨ i = 1 := by omega
    all_goals
      obtain rfl := List.mem_singleton.1 hs
      exact passive_recorder 0 rfl
  refine ⟨relayed_calls_build_alike ⟨hattends 0 (by decide), hattends 1 (by decide), rfl, rfl⟩ _, ?_⟩
  rfl

end EvolvingGraph
