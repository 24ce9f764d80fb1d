/-
  EvolvingGraph.Proofs.Delivery.Refusal
  ─────────────────────────────────────
  **A CALL THAT FAILS HAS DONE NOTHING.**

  A request is made change by change: the edges of a node before the node, an
  element before its attributes.  Whether it can be made is decided before the
  first of these changes: on a coherent graph the plan of a request is carried
  out as a whole, or its first change is refused and leaves the graph as it was.
  So a call can only fail halfway because a sink fails, or because one changes
  the graph meanwhile.  Where no sink does either, a call that fails leaves the
  world as it was; and no sink has been told anything, since the call would have
  failed in the same way whatever was attached to the graph.

  Main statements:
    * `Graph.Coherent.applyAll_plan` — all of a plan is carried out, or nothing;
    * `Compliant.exec_commits` — what can be carried out is carried out;
    * `failed_access_leaves_no_trace` — a failed call changes nothing and tells nobody.
-/
import EvolvingGraph.Proofs.Delivery.Bystanders
import EvolvingGraph.Proofs.Delivery.Passive
import EvolvingGraph.Proofs.Graph.Construction

namespace EvolvingGraph

namespace Graph

variable {g g' : Graph}

/-! ## §1. Plans. -/

theorem applyAll_append {changes : List Change} (h : g.applyAll changes = .ok g')
    (more : List Change) : g.applyAll (changes ++ more) = g'.applyAll more := by
  induction changes generalizing g with
  | nil =>
    cases h
    rfl
  | cons c rest ih =>
    rw [applyAll] at h
    rw [List.cons_append, applyAll]
    rcases happly : g.apply c with ⟨graph, e | r⟩
    · rw [happly] at h
      exact absurd h (by simp)
    · rw [happly] at h
      exact ih h

/-- Edges of a coherent graph can all be removed, and the nodes stay. -/
theorem Coherent.applyAll_removeEdges (hg : g.Coherent) {ids : List Identifier}
    (hnodup : (ids.map (·.key)).Nodup) (hmem : ∀ id ∈ ids, g.edges.contains id.key = true) :
    ∃ g', g.applyAll (ids.map (.removeEdge ·.value)) = .ok g' ∧ g'.nodes = g.nodes := by
  induction ids generalizing g with
  | nil => exact ⟨g, rfl, rfl⟩
  | cons id ids ih =>
    obtain ⟨hne, hnodup⟩ := List.nodup_cons.1 hnodup
    obtain ⟨ends, hends⟩ := Catalog.contains_iff_get?.1 (hmem id List.mem_cons_self)
    obtain ⟨name, hentry, -⟩ := Catalog.get?_eq_some_iff.1 hends
    have htakes := Takes.removeEdge id.key?_value hends (hg.linked_of_mem hentry)
    obtain ⟨g', happly, hnodes⟩ := ih (hg.takes htakes (orderly_of_ne (by simp))) hnodup
      fun id' hid' => by
        -- it is another edge, so it is still there
        have hkey : id.key ≠ id'.key := fun heq => hne (List.mem_map.2 ⟨id', hid', heq.symm⟩)
        show (g.edges.erase id.key).contains id'.key = true
        rw [Catalog.contains_erase, hmem id' (List.mem_cons_of_mem _ hid'), decide_eq_false hkey]
        rfl
    refine ⟨g', ?_, hnodes⟩
    rw [List.map_cons, applyAll, apply_eq_some_iff.2 htakes]
    exact happly

/-- A node can be removed once its edges are. -/
theorem Coherent.applyAll_removal (hg : g.Coherent) {id : Value} {k : Key}
    (hk : g.nodeKey id = .ok k) :
    ∃ g', g.applyAll ((g.incident k).map (.removeEdge ·.value) ++ [.removeNode id]) = .ok g' := by
  obtain ⟨hkey, hnode⟩ := nodeKey_eq_ok_iff.1 hk
  have hnodup : ((g.incident k).map (·.key)).Nodup := by
    unfold incident
    rw [List.map_map]
    exact g.edges.nodup.sublist (List.filter_sublist.map _)
  have hmem : ∀ id' ∈ g.incident k, g.edges.contains id'.key = true := by
    intro id' hid'
    obtain ⟨e, he, rfl⟩ := List.mem_map.1 hid'
    exact Catalog.contains_of_mem (List.mem_of_mem_filter he)
  obtain ⟨g', happly, hnodes⟩ := hg.applyAll_removeEdges hnodup hmem
  -- without its edges the node is still there
  have htakes := Takes.removeNode (g := g') hkey (hnodes ▸ hnode)
  refine ⟨{ g' with toNetwork := g'.eraseNode k }, ?_⟩
  rw [applyAll_append happly, applyAll, apply_eq_some_iff.2 htakes]
  rfl

/-- Once an element has been added, its attributes can be set. -/
theorem applyAll_settings_of_apply {c : Change} {r : Option Event}
    (h : g.apply c = (g', .ok r)) (attributes : Attributes) :
    ∃ g'', g'.applyAll (c.settings attributes) = .ok g'' := by
  cases c with
  | addNode id =>
    obtain ⟨name, rfl, fresh, -, heq⟩ := addNode_eq_ok_iff.1 (ofExcept_eq_ok_iff.1 h)
    obtain rfl : g.plusNode name .empty = g' := congrArg Prod.fst heq
    exact ⟨_, applyAll_settings_node fresh attributes⟩
  | addEdge id source target =>
    obtain ⟨name, s, t, rfl, rfl, rfl, -, -, -, apart, heq⟩ :=
      addEdge_eq_ok_iff.1 (ofExcept_eq_ok_iff.1 h)
    obtain rfl : g.plusEdge name s t .empty = g' := congrArg Prod.fst heq
    exact ⟨_, applyAll_settings_edge apart attributes⟩
  | _ => exact ⟨g', rfl⟩

/-- **The plan of a request is carried out as a whole, or its first change is
refused and the graph stays as it is.** -/
theorem Coherent.applyAll_plan (hg : g.Coherent) {c : Change} {attributes : Attributes}
    {changes : List Change} (hplan : g.plan c attributes = .ok changes) :
    (∃ g', g.applyAll changes = .ok g')
      ∨ ∃ first rest e, changes = first :: rest ∧ g.apply first = (g, .error e) := by
  by_cases hnode : ∃ id, c = .removeNode id
  · obtain ⟨id, rfl⟩ := hnode
    simp only [plan, bind_eq_ok_iff, pure_eq_ok_iff] at hplan
    obtain ⟨k, hk, rfl⟩ := hplan
    exact .inl (hg.applyAll_removal hk)
  · -- any other request is one change, and then the settings of attributes
    have hchanges : changes = c :: c.settings attributes :=
      Except.ok.inj (hplan.symm.trans (plan_of_ne_removeNode (fun id h => hnode ⟨id, h⟩) attributes))
    rcases happly : g.apply c with ⟨graph, e | r⟩
    · obtain rfl : graph = g := hg.apply_eq happly (by simp)
      exact .inr ⟨c, _, e, hchanges, happly⟩
    · obtain ⟨g', hsettings⟩ := applyAll_settings_of_apply happly attributes
      refine .inl ⟨g', ?_⟩
      rw [hchanges, applyAll, happly]
      exact hsettings

end Graph

/-! ## §2. What a call asks for. -/

/-- The changes that a call consists of, or why there are none. -/
def GraphCall.changes (graph : Graph) : GraphCall → Except Error (List Change)
  | .request c attributes =>
    if c.accepts attributes then graph.plan c attributes else .error .badArgument
  | .event e => graph.plan e.asChange .empty
  | .write id _ _ name value => .ok [.setAttribute .edge id name value]

theorem GraphCall.exec_run_changes (host : Host) (g : GraphRef) (call : GraphCall) (w : World) :
    (call.run host g).exec w = match call.changes (w.objectAt g).graph with
      | .error e => (.error e, w)
      | .ok changes => (changes.forM (commit host g)).exec w := by
  cases call with
  | request c attributes =>
    show (perform host g c attributes).exec w = _
    rw [exec_perform]
    simp only [changes]
    split
    · rfl
    · rfl
  | event e =>
    show (perform host g e.asChange .empty).exec w = _
    rw [exec_perform, accepts_empty, if_pos rfl]
    rfl
  | write id source target name value =>
    show _ = (([.setAttribute .edge id name value] : List Change).forM (commit host g)).exec w
    rw [Run.exec_forM_cons]
    unfold run setOnView
    rcases (commit host g (.setAttribute .edge id name value)).exec w with ⟨_ | _, _⟩ <;> rfl

/-- The changes of a call are the plan of a request. -/
theorem GraphCall.exists_plan {graph : Graph} {call : GraphCall} {changes : List Change}
    (h : call.changes graph = .ok changes) :
    ∃ c attributes, graph.plan c attributes = .ok changes := by
  cases call with
  | request c attributes =>
    simp only [GraphCall.changes] at h
    split at h
    · exact ⟨c, attributes, h⟩
    · exact absurd h (by simp)
  | event e => exact ⟨_, _, h⟩
  | write id source target name value =>
    exact ⟨.setAttribute .edge id name value, .empty, h⟩

/-- Whoever is attached, an operation fails in every world with the graph, and
leaves the world as it is. -/
def FailsIdly {α : Type} (operation : Host → Run α) (g : GraphRef) (graph : Graph) (e : Error) :
    Prop :=
  ∀ (host : Host) (v : World), (v.objectAt g).graph = graph →
    (operation host).exec v = (.error e, v)

/-- **On a coherent graph a call can be made as a whole, or it fails at once.** -/
theorem GraphCall.applyAll_or_failsIdly {graph : Graph} (hgraph : graph.Coherent) (g : GraphRef)
    (call : GraphCall) :
    (∃ changes graph', call.changes graph = .ok changes ∧ graph.applyAll changes = .ok graph')
      ∨ ∃ e, FailsIdly (call.run · g) g graph e := by
  cases hchanges : call.changes graph with
  | error e =>
    refine .inr ⟨e, fun host v hv => ?_⟩
    rw [call.exec_run_changes, hv, hchanges]
  | ok changes =>
    obtain ⟨c, attributes, hplan⟩ := GraphCall.exists_plan hchanges
    obtain ⟨graph', happly⟩ | ⟨first, rest, e, rfl, happly⟩ := hgraph.applyAll_plan hplan
    · exact .inl ⟨changes, graph', rfl, happly⟩
    · refine .inr ⟨e, fun host v hv => ?_⟩
      -- the refused change has left the graph, and to put it back changes nothing
      have hput : v.put g graph = v := hv ▸ World.put_self v g
      rw [call.exec_run_changes, hv, hchanges]
      show ((first :: rest).forM (commit host g)).exec v = _
      rw [Run.exec_forM_cons, exec_commit, hv, happly]
      simp only [hput]

/-! ## §3. Sinks that do not fail. -/

/-- In a calm world the sinks of a graph neither fail nor change it. -/
structure Compliant (host : Host) (g : GraphRef) (calm : World → Prop) : Prop
    extends Bystanders host g calm where
  succeeds : ∀ w, calm w → ∀ s ∈ (w.objectAt g).emitter.sinks, ∀ sender event w', calm w' →
    ((host.notify s sender event).exec w').1 = .ok ()

namespace Compliant

variable {host : Host} {g : GraphRef} {calm : World → Prop}

/-- A change that can be made is made and told of. -/
theorem exec_commit_ok (hcalm : Compliant host g calm) {c : Change} {w : World} (hw : calm w)
    {graph' : Graph} {r : Option Event}
    (happly : (w.objectAt g).graph.apply c = (graph', .ok r)) :
    ∃ w', (commit host g c).exec w = (.ok (), w') ∧ CalmWith calm g graph' w' := by
  have hkept := hcalm.toBystanders.exec_commit c hw
  rw [happly] at hkept
  -- the graph is kept by those who stand by; it is left that the telling succeeds
  suffices hok : ((commit host g c).exec w).1 = .ok () from
    ⟨_, Prod.ext hok rfl, hkept⟩
  rw [EvolvingGraph.exec_commit, happly]
  cases r with
  | none => rfl
  | some event =>
    have htold : ∀ s ∈ (w.objectAt g).emitter.sinks, ∀ v, calm v →
        ∃ v', (host.notify s (w.objectAt g).emitter.id event).exec v = (.ok (), v') ∧ calm v' :=
      fun s hs v hv => ⟨_, Prod.ext (hcalm.succeeds w hw s hs _ event v hv) rfl,
        (hcalm.harmless w hw s hs _ event v hv).1⟩
    obtain ⟨w', hexec, -⟩ := Run.exec_forM_ok htold (hcalm.put w graph' hw)
    exact congrArg Prod.fst hexec

/-- What can be carried out with nobody watching is carried out under such sinks. -/
theorem exec_commits (hcalm : Compliant host g calm) {changes : List Change} {w : World}
    (hw : calm w) {graph' : Graph} (happly : (w.objectAt g).graph.applyAll changes = .ok graph') :
    ∃ w', (changes.forM (commit host g)).exec w = (.ok (), w') ∧ CalmWith calm g graph' w' := by
  induction changes generalizing w with
  | nil =>
    obtain rfl := Except.ok.inj happly
    exact ⟨w, rfl, hw, rfl⟩
  | cons c rest ih =>
    rw [Graph.applyAll] at happly
    rcases hc : (w.objectAt g).graph.apply c with ⟨graph, e | r⟩
    · rw [hc] at happly
      exact absurd happly (by simp)
    · rw [hc] at happly
      obtain ⟨w', hexec, hw', hgraph⟩ := hcalm.exec_commit_ok hw hc
      obtain ⟨w'', hrest, hw''⟩ := ih hw' (hgraph ▸ happly)
      refine ⟨w'', ?_, hw''⟩
      rw [Run.exec_forM_cons, hexec]
      exact hrest

end Compliant

/-- The sinks of a graph only listen: they ignore events or write them down. -/
structure OnlyListeners (g : GraphRef) (w : World) : Prop where
  present : w.HasGraph g
  listening : ∀ s ∈ (w.objectAt g).emitter.sinks, ∃ i, s = .silent i ∨ s = .recorder i
  idle : ∀ i, (w.recorders.get i).reactions = []

namespace OnlyListeners

variable {g : GraphRef} {w : World}

theorem receive (h : OnlyListeners g w) (receipts : List Receipt) :
    OnlyListeners g (w.receive receipts) := ⟨h.present, h.listening, h.idle⟩

theorem put (h : OnlyListeners g w) (graph : Graph) : OnlyListeners g (w.put g graph) where
  present := (World.hasGraph_put graph).2 h.present
  listening := by
    rw [World.objectAt_put_self h.present]
    exact h.listening
  idle := h.idle

theorem passive (h : OnlyListeners g w) {s : SinkRef} (hs : s ∈ (w.objectAt g).emitter.sinks)
    (depth : Nat) {recorders : Heap Recorder} (hidle : ∀ i, (recorders.get i).reactions = []) :
    ∃ notes, Passive (Session.hostOfDepth (depth + 1)) recorders s notes := by
  obtain ⟨i, rfl | rfl⟩ := h.listening s hs
  · exact ⟨_, passive_silent depth recorders i⟩
  · exact ⟨_, passive_recorder depth (hidle i)⟩

end OnlyListeners

/-- Listeners neither fail nor change anything. -/
theorem compliant_listeners (depth : Nat) (g : GraphRef) :
    Compliant (Session.hostOfDepth (depth + 1)) g (OnlyListeners g) where
  present := fun _ hw => hw.present
  put := fun _ graph hw => hw.put graph
  harmless := by
    intro w hw s hs sender event w' hw'
    obtain ⟨notes, hpassive⟩ := hw.passive hs depth hw'.idle
    rw [hpassive sender event w' rfl]
    exact ⟨hw'.receive _, rfl⟩
  succeeds := by
    intro w hw s hs sender event w' hw'
    obtain ⟨notes, hpassive⟩ := hw.passive hs depth hw'.idle
    rw [hpassive sender event w' rfl]

/-! ## §4. Calls that fail. -/

/-- What can be asked of a graph: a call, the value of an attribute, or an edge. -/
inductive GraphAccess where
  | call (c : GraphCall)
  | value (on : ElementKind) (id name default : Value)
  | edge (id : Value)

/-- Ask it, and give the answer if there is one. -/
def GraphAccess.run (host : Host) (g : GraphRef) : GraphAccess → Run Value
  | .call c => do
    c.run host g
    return .null
  | .value on id name default => do
    Run.ofExcept ((← World.graph g).readAttribute on id name default)
  | .edge id => do
    return (← lookUp g id).toValue

/-- A question that fails fails whoever is attached. -/
theorem failsIdly_of_reads {α : Type} {g : GraphRef} {graph : Graph} {e : Error}
    {question : Graph → Except Error α} (h : question graph = .error e) :
    FailsIdly (fun _ => World.graph g >>= fun x => Run.ofExcept (question x)) g graph e := by
  intro host v hv
  simp only [Run.exec_bind, Run.exec_graph, hv, h, Run.exec_ofExcept]

/-- **A call that fails under sinks that neither fail nor change the graph leaves
the world as it was, and has told nobody: it fails in the same way, and leaves
the world alone, whatever is attached to the graph.** -/
theorem failed_access_leaves_no_trace {host : Host} {g : GraphRef} {calm : World → Prop}
    (hcalm : Compliant host g calm) {w : World} (hw : calm w)
    (hreach : (w.objectAt g).graph.Reachable) {access : GraphAccess} {e : Error} {w' : World}
    (hfails : (access.run host g).exec w = (.error e, w')) :
    w' = w ∧ ∀ (other : Host) (v : World), (v.objectAt g).graph = (w.objectAt g).graph →
      (access.run other g).exec v = (.error e, v) := by
  suffices h : ∃ e', FailsIdly (access.run · g) g (w.objectAt g).graph e' by
    obtain ⟨e', hidle⟩ := h
    obtain ⟨he, hworld⟩ := Prod.mk.inj ((hidle host w rfl).symm.trans hfails)
    rw [← Except.error.inj he]
    exact ⟨hworld.symm, hidle⟩
  cases access with
  | call c =>
    obtain ⟨changes, graph', hchanges, happly⟩ | ⟨e', hidle⟩ :=
      c.applyAll_or_failsIdly hreach.coherent g
    · -- all of it can be done, so it is done
      obtain ⟨w'', hexec, -⟩ := hcalm.exec_commits hw happly
      unfold GraphAccess.run at hfails
      rw [Run.exec_bind, c.exec_run_changes, hchanges] at hfails
      simp only [hexec, Run.exec_pure] at hfails
      exact absurd (congrArg Prod.fst hfails) (by simp)
    · refine ⟨e', fun other v hv => ?_⟩
      unfold GraphAccess.run
      rw [Run.exec_bind, hidle other v hv]
  | value on id name default =>
    unfold GraphAccess.run at hfails ⊢
    simp only [Run.exec_bind, Run.exec_graph, Run.exec_ofExcept] at hfails
    exact ⟨e, failsIdly_of_reads (congrArg Prod.fst hfails)⟩
  | edge id =>
    cases hview : (w.objectAt g).graph.view g id with
    | ok view =>
      unfold GraphAccess.run lookUp at hfails
      simp only [Run.exec_bind, Run.exec_graph, Run.exec_ofExcept, hview, Run.exec_pure] at hfails
      exact absurd (congrArg Prod.fst hfails) (by simp)
    | error e' =>
      refine ⟨e', fun other v hv => ?_⟩
      have hidle : (lookUp g id).exec v = (.error e', v) :=
        failsIdly_of_reads hview other v hv
      unfold GraphAccess.run
      rw [Run.exec_bind, hidle]

/-- A graph without nodes and a recorder that is attached to it. -/
def recorderAttached : World :=
  { World.initial with
    graphs := ⟨[⟨"network", ⟨.str "network", [.recorder 0]⟩, .empty false⟩]⟩
    recorders := ⟨[⟨"listener", []⟩]⟩ }

/-- Two nodes, one of them the number 1 and with a colour, and an edge. -/
def joinedPair : List GraphCall :=
  [.request (.addNode (.int 1)) (Catalog.empty.insert (.ofText "colour") (.str "red")),
    .request (.addNode (.str "x")) .empty,
    .request (.addEdge (.str "bond") (.bool true) (.str "x")) .empty]

/-- A second edge between the two, the other way round, and with an attribute. -/
def secondEdge : GraphAccess :=
  .call (.request (.addEdge (.int 7) (.str "x") (.int 1))
    (Catalog.empty.insert (.ofText "weight") (.int 3)))

/-- The recorder was told of the four changes before; the request for another
edge between the two nodes is refused, and it hears nothing of it. -/
theorem failed_access_leaves_no_trace_secondEdge :
    let w := afterCalls (Session.hostOfDepth 1) ⟨0⟩ joinedPair recorderAttached
    let asked := (secondEdge.run (Session.hostOfDepth 1) ⟨0⟩).exec w
    w.received.length = 4 ∧ asked = (.error (.pairInUse (.str "x") (.int 1)), w) := by
  have hinitial : OnlyListeners ⟨0⟩ recorderAttached :=
    ⟨Nat.one_pos, fun s hs => ⟨0, .inr (List.mem_singleton.1 hs)⟩, fun i => by cases i <;> rfl⟩
  have hhistory : History (Session.hostOfDepth 1) ⟨0⟩ (OnlyListeners ⟨0⟩) recorderAttached :=
    .created hinitial (rfl : (recorderAttached.objectAt ⟨0⟩).graph = Graph.empty false)
  obtain ⟨hw, hreach⟩ := (hhistory.afterCalls joinedPair).reachable
    (compliant_listeners 0 ⟨0⟩).toBystanders
  intro w asked
  have herror : asked.1 = .error (.pairInUse (.str "x") (.int 1)) := rfl
  refine ⟨by decide +kernel, Prod.ext herror ?_⟩
  exact (failed_access_leaves_no_trace (compliant_listeners 0 ⟨0⟩) hw hreach
    (Prod.ext herror rfl)).1

end EvolvingGraph
