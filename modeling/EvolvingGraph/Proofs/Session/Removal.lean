/-
  EvolvingGraph.Proofs.Session.Removal
  ────────────────────────────────────
  **NO EDGE IS LEFT BEHIND BY A NODE, UNLESS IT CAME WHILE THE NODE WENT.**

  A node of a session's graph is removed while sinks react to it in any way.  If
  the removal returns and the node is gone, the edge table and the network still
  agree, and everything can be done with the edges that are left, provided that no
  node went that had edges; and an edge that a node has when it goes is one that
  was added between the time when the edges at it were listed and its own turn.
  Such an edge keeps its id, though its link is gone.

  Main statements:
    * `removeNode_leaves_no_edge_behind` — what the removal of a node leaves;
    * `removeNode_leaves_edge_behind` — an edge that was added meanwhile.
-/
import EvolvingGraph.Proofs.Delivery.Removal
import EvolvingGraph.Proofs.Session.Arrival

namespace EvolvingGraph

open Session Run

/-- **The removal of a node leaves no edge behind.**  There is an account of the
removal and of all that sinks do meanwhile.  If, by an account, no node of the graph
went that had edges, all is well with the edges that are left.  This is so if no edge
was added at the node, and the removals by sinks were well themselves. -/
theorem removeNode_leaves_no_edge_behind (depth : Nat) {w w' : World} {g : GraphRef} {n : Value}
    (hw : w.Upholds g Graph.StoresAgree)
    (hrun : (perform (hostOfDepth depth) g (.removeNode n) .empty).exec w = (.ok (), w'))
    (hgone : (w'.objectAt g).graph.hasNode n = false) :
    ∃ cs, (w.objectAt g).graph.plan (.removeNode n) .empty = .ok cs
      ∧ (∃ a, Happens (.changes g cs) w a (.ok ()) w')
      ∧ ∀ a, Happens (.changes g cs) w a (.ok ()) w' →
        (a.Orderly g → (w'.objectAt g).graph.LeftWithout n)
        ∧ ((∀ event ∈ a.made g, ¬event.JoinsTo n) → a.InsideOrderly g → a.Orderly g) := by
  rw [exec_perform, if_pos (accepts_empty _)] at hrun
  cases hplan : (w.objectAt g).graph.plan (.removeNode n) .empty with
  | error e => exact absurd (hplan ▸ hrun) (by simp)
  | ok cs =>
    rw [hplan] at hrun
    refine ⟨cs, rfl, ?_, fun a h => ⟨fun horderly => ?_, ?_⟩⟩
    · obtain ⟨a, h⟩ := (accounted_hostOfDepth depth).1.happens_changes g cs w
      have hexec : (cs.forM (commit (hostOfDepth depth) g)).exec w = (.ok (), w') := hrun
      rw [hexec] at h
      exact ⟨a, h⟩
    · exact (h.upholds_storesAgree hw horderly).2.leftWithout hgone
    · -- what is listed are the edges at the node
      obtain ⟨k, hkey, rfl⟩ : ∃ k, (w.objectAt g).graph.nodeKey n = .ok k
          ∧ ((w.objectAt g).graph.incident k).map (.removeEdge ·.value) ++ [.removeNode n]
            = cs := by
        simpa [Graph.plan] using hplan
      exact h.orderly_removal (Graph.nodeKey_eq_ok_iff.1 hkey).1 ⟨hw.1, List.Subset.refl _⟩

namespace Arrival

/-- Once an edge has been removed, a loop is added at the other node. -/
def addsLoop : Reaction Step :=
  ⟨.edgeRemoved, [asks (.addEdge (.value (.str "f")) (.value (.int 2)) (.value (.int 2)) [])]⟩

/-- Two joined nodes, and a recorder that adds a loop at the second one. -/
def joinedAndWatched : World := twoGraphs joinedNodes [.recorder 0] addsLoop

/-- The two nodes without their edge, … -/
def unjoined : Graph := (joinedNodes.apply (.removeEdge (.str "e"))).1

/-- … with the loop, … -/
def looped : Graph := (unjoined.apply (.addEdge (.str "f") (.int 2) (.int 2))).1

/-- … and the second node alone with its loop. -/
def loopAlone : Graph := (looped.apply (.removeNode (.int 1))).1

theorem takes_unjoined :
    joinedNodes.Takes (.removeEdge (.str "e")) unjoined (.edgeRemoved (.str "e")) :=
  Graph.apply_eq_some_iff.1 rfl

theorem takes_looped : unjoined.Takes (.addEdge (.str "f") (.int 2) (.int 2)) looped
    (.edgeAdded (.str "f") (.int 2) (.int 2)) := Graph.apply_eq_some_iff.1 rfl

theorem takes_loopAlone : looped.Takes (.removeNode (.int 1)) loopAlone (.nodeRemoved (.int 1)) :=
  Graph.apply_eq_some_iff.1 rfl

/-- The graph makes a change, and the recorder is told and does something; then the
graph goes on. -/
def watched (before : Graph) (c : Change) (event : Event) (inside rest : Account) : Account :=
  .making ⟨0⟩ before c [.recorder 0] event
    (.telling ⟨0⟩ (.recorder 0) event (.ok ()) (.writing ⟨"r", .str "G", event⟩ inside) .nothing)
    rest

theorem happens_watched {w v w' : World} {before after : Graph} {c : Change} {cs : List Change}
    {event : Event} {inside rest : Account}
    (hsource : w.objectAt ⟨0⟩ = ⟨"g", ⟨.str "G", [.recorder 0]⟩, before⟩)
    (hlabel : (w.recorders.get 0).label = "r") (takes : before.Takes c after event)
    (doings : Happens .anything ((w.put ⟨0⟩ after).receive [⟨"r", .str "G", event⟩]) inside
      (.ok ()) v)
    (goes : Happens (.changes ⟨0⟩ cs) v rest (.ok ()) w') :
    Happens (.changes ⟨0⟩ (c :: cs)) w (watched before c event inside rest) (.ok ()) w' := by
  have hrecords : Happens (.reaction (.recorder 0) (.str "G") event) (w.put ⟨0⟩ after)
      (.writing ⟨"r", .str "G", event⟩ inside) (.ok ()) v := by
    rw [← hlabel] at doings ⊢
    exact .records _ doings
  have htold := Happens.told (g := ⟨0⟩) hrecords (.allTold ..)
  have hround : Happens (.round ⟨0⟩ (w.objectAt ⟨0⟩).emitter.id event
      (w.objectAt ⟨0⟩).emitter.sinks) (w.put ⟨0⟩ after)
      (.telling ⟨0⟩ (.recorder 0) event (.ok ()) (.writing ⟨"r", .str "G", event⟩ inside) .nothing)
      (.ok ()) v := by
    rw [hsource]
    exact htold
  have htakes : (w.objectAt ⟨0⟩).graph.Takes c after event := by rw [hsource]; exact takes
  have hmade := Happens.made htakes hround goes
  rw [hsource] at hmade
  exact hmade

/-- What happens when the first node is removed: the loop is added while the recorder
is told of the edge. -/
def loopAccount : Account :=
  watched joinedNodes (.removeEdge (.str "e")) (.edgeRemoved (.str "e"))
    (watched unjoined (.addEdge (.str "f") (.int 2) (.int 2))
      (.edgeAdded (.str "f") (.int 2) (.int 2)) .nothing .nothing)
    (watched looped (.removeNode (.int 1)) (.nodeRemoved (.int 1)) .nothing .nothing)

/-- The world after the first node has been removed. -/
def afterRemoval : World :=
  ((perform (hostOfDepth 3) ⟨0⟩ (.removeNode (.int 1)) .empty).exec joinedAndWatched).2

theorem happens_loopAccount :
    Happens (.changes ⟨0⟩ [.removeEdge (.str "e"), .removeNode (.int 1)]) joinedAndWatched
      loopAccount (.ok ()) afterRemoval := by
  -- the recorder's reaction is used up before it is played
  have hused : Happens .anything ((joinedAndWatched.put ⟨0⟩ unjoined).receive
      [⟨"r", .str "G", .edgeRemoved (.str "e")⟩]) .nothing (.ok ())
      { (joinedAndWatched.put ⟨0⟩ unjoined).receive
        [⟨"r", .str "G", .edgeRemoved (.str "e")⟩] with
        recorders := ⟨[⟨"r", []⟩, ⟨"s", []⟩]⟩ } :=
    .elsewhere (.rest _) (.of_graphs_eq rfl rfl)
  have hloop := Happens.request hused
    (happens_watched rfl rfl takes_looped (.rest _) (.unchanged ..))
  exact happens_watched rfl rfl takes_unjoined hloop
    (happens_watched rfl rfl takes_loopAlone (.rest _) (.unchanged ..))

end Arrival

open Arrival

/-- The first node is gone, and the loop that the recorder has added is as good as
any edge. -/
theorem removeNode_leaves_no_edge_behind_loop :
    Happens (.changes ⟨0⟩ [.removeEdge (.str "e"), .removeNode (.int 1)]) joinedAndWatched
      loopAccount (.ok ()) afterRemoval
    ∧ (afterRemoval.objectAt ⟨0⟩).graph.LeftWithout (.int 1)
    ∧ (afterRemoval.objectAt ⟨0⟩).graph.hasEdge (.str "f") = .ok true := by
  obtain ⟨cs, hplan, -, h⟩ := removeNode_leaves_no_edge_behind 3 (w := joinedAndWatched)
    (g := ⟨0⟩) (n := .int 1) ⟨Nat.two_pos, coherent_joinedNodes.toStoresAgree⟩
    (Prod.ext rfl rfl : _ = (Except.ok (), afterRemoval)) rfl
  obtain rfl : [.removeEdge (.str "e"), .removeNode (.int 1)] = cs := Except.ok.inj hplan
  obtain ⟨hleft, horderly⟩ := h loopAccount happens_loopAccount
  refine ⟨happens_loopAccount, hleft (horderly ?_ ?_), rfl⟩
  · simp [loopAccount, watched, Account.made, Event.JoinsTo, Value.key?]
  · simp [loopAccount, watched, Account.InsideOrderly, Account.Orderly, Graph.orderly_of_ne]

/-- A recorder joins the two nodes again while the first one is being removed.  The
removal returns and the node is gone, but the edge is still listed between the two:
it has no attributes to read, it cannot be removed, and there is no table. -/
theorem removeNode_leaves_edge_behind :
    let w := twoGraphs joinedNodes [.recorder 0] joinsAgain
    let ran := (perform standardHost ⟨0⟩ (.removeNode (.int 1)) .empty).exec w
    let left := (ran.2.objectAt ⟨0⟩).graph
    w.Upholds ⟨0⟩ Graph.StoresAgree ∧ ran.1 = .ok () ∧ left.hasNode (.int 1) = false
    ∧ left.edges.entries.map (fun e => (e.1.value, e.2.source.value, e.2.target.value))
      = [(.str "f", .int 1, .int 2)]
    ∧ left.edgeAttributes (.str "f") = .error .missingKey
    ∧ (left.apply (.removeEdge (.str "f"))).2 = .error .storageFault
    ∧ left.table 0 = .error .missingKey :=
  ⟨⟨Nat.two_pos, coherent_joinedNodes.toStoresAgree⟩, rfl, rfl, rfl, rfl, rfl, rfl⟩

end EvolvingGraph
