/-
  EvolvingGraph.Proofs.Session.Lockstep
  ─────────────────────────────────────
  **A GRAPH THAT FOLLOWS ANOTHER ONE THROUGH A WHOLE SESSION.**

  A graph is attached to another one when the two read the same.  From then on
  the source is changed by calls, through views of its edges and by spanning
  trees that work on it, and nobody but the source changes the copy.  Whatever
  happens otherwise may happen in between, sinks that only look on may come and
  go.  After each operation, failed ones among them, the two read the same, and
  during each the copy emits exactly the events of the source.

  Main statement:
    * `Session.inLockstep` — the two read the same, and emit the same events.
-/
import EvolvingGraph.Proofs.Delivery.Bystanders
import EvolvingGraph.Proofs.Marking.Mirroring

namespace EvolvingGraph.Mirror

/-! ## §1. Operations on the source. -/

/-- What can change the source. -/
inductive Operation where
  | call (c : GraphCall)
  | edgeOn (t : TreeRef) (edge : Value)
  | edgeOff (t : TreeRef) (edge : Value)
  | resetFlags (t : TreeRef)
  | clear (t : TreeRef)
  | compute (t : TreeRef)

/-- Carry out an operation. -/
def Operation.run (m : Mirror) : Operation → Run Unit
  | .call c => c.run m.host m.source
  | .edgeOn t edge => do markOn m.host t (← resolveEdge t edge)
  | .edgeOff t edge => do markOff m.host t (← resolveEdge t edge)
  | .resetFlags t => resetMarks m.host t
  | .clear t => clearMarks m.host t
  | .compute t => EvolvingGraph.compute m.host t

/-- An operation of a tree is one on the source if the tree works on it, if a
view that is given shows an edge of it, and if a builder of the tree's own
changes nothing but the source. -/
def Operation.Concerns (m : Mirror) (x : Wiring) (w : World) : Operation → Prop
  | .call _ => True
  | .edgeOn t edge | .edgeOff t edge =>
    m.TreeOn t w.trees ∧ ∀ g id source target, edge = .edge g id source target → g = m.source
  | .resetFlags t | .clear t => m.TreeOn t w.trees
  | .compute t => m.TreeOn t w.trees ∧ ((w.trees.get t.index).strategy = .custom →
    m.BuildsAlong x t w.trees (treeItems m.host t))

variable {m : Mirror} {x : Wiring} {w : World}

/-- Every operation on the source keeps the two in lockstep. -/
theorem Lockstep.followed_run (h : m.Lockstep x w) {op : Operation}
    (hop : op.Concerns m x w) : m.Followed x w ((op.run m).exec w).2 := by
  -- what is known of the trees at first is that they are those of the world
  have hfollowed : ∀ {operation : Run Unit} {result : Unit → Heap Tree → Prop},
      m.Mirrors x (· = w.trees) operation result → m.Followed x w (operation.exec w).2 :=
    fun hmirrors => (hmirrors w h rfl).1
  have hon : ∀ {t}, m.TreeOn t w.trees → ∀ trees, trees = w.trees → m.TreeOn t trees := by
    rintro t ht _ rfl
    exact ht
  cases op with
  | call c => exact (h.followed_call c).1
  | edgeOn t edge =>
    exact hfollowed ((mirrors_resolveEdge (hon hop.1) hop.2).bind fun _ =>
      .assuming fun he => mirrors_markOn he)
  | edgeOff t edge =>
    exact hfollowed ((mirrors_resolveEdge (hon hop.1) hop.2).bind fun _ =>
      .assuming fun he => mirrors_markOff he)
  | resetFlags t => exact hfollowed (mirrors_resetMarks (hon hop))
  | clear t => exact hfollowed (mirrors_clearMarks (hon hop))
  | compute t =>
    refine hfollowed (mirrors_computeTree hop.1 ?_)
    by_cases hcustom : (w.trees.get t.index).strategy = .custom
    · exact hop.2 hcustom
    · exact buildsAlong_of_ne_custom hop.1 hcustom

/-! ## §2. Sessions. -/

/-- The copy is attached to the source when the two read the same. -/
structure Attached (m : Mirror) (x : Wiring) (w : World) : Prop extends m.Wired x w where
  source_reachable : (w.objectAt m.source).graph.Reachable
  copy_reachable : (w.objectAt m.copy).graph.Reachable
  directed : (w.objectAt m.source).graph.directed = true →
    (w.objectAt m.copy).graph.directed = true
  content : (w.objectAt m.source).graph.SameContent (w.objectAt m.copy).graph

theorem Attached.lockstep (h : m.Attached x w) : m.Lockstep x w :=
  ⟨h.toWired, h.source_reachable.coherent, h.directed,
    h.content.eq_turned h.source_reachable.coherent h.copy_reachable.coherent⟩

/-- The worlds of a session from the attachment on, with the sinks around the
two graphs. -/
inductive Session (m : Mirror) : Wiring → World → Prop where
  | attached {x : Wiring} {w : World} (start : m.Attached x w) : Session m x w
  | operated {x : Wiring} {w : World} (before : Session m x w) (op : Operation)
      (concerns : op.Concerns m x w) : Session m x ((op.run m).exec w).2
  /-- Something else has happened, and the two graphs hold what they held. -/
  | elsewhere {x x' : Wiring} {w w' : World} (before : Session m x w) (wired : m.Wired x' w')
      (source : (w'.objectAt m.source).graph = (w.objectAt m.source).graph)
      (copy : (w'.objectAt m.copy).graph = (w.objectAt m.copy).graph) : Session m x' w'

theorem Session.lockstep (h : m.Session x w) : m.Lockstep x w := by
  induction h with
  | attached start => exact start.lockstep
  | operated before op concerns ih => exact (ih.followed_run concerns).lockstep
  | elsewhere before wired source copy ih =>
    refine ⟨wired, ?_, ?_, ?_⟩
    · rw [source]
      exact ih.coherent
    · rw [source, copy]
      exact ih.directed
    · rw [source, copy]
      exact ih.same

/-- **A graph that follows another one reads the same after every operation, and
emits the same events during it.** -/
theorem Session.inLockstep (h : m.Session x w) :
    (w.objectAt m.source).graph.SameContent (w.objectAt m.copy).graph
      ∧ ∀ op : Operation, op.Concerns m x w →
        (∃ events : List Event,
          ((op.run m).exec w).2.received = w.received ++ events.flatMap x.trace)
        ∧ (((op.run m).exec w).2.objectAt m.source).graph.SameContent
          (((op.run m).exec w).2.objectAt m.copy).graph := by
  refine ⟨h.lockstep.sameContent, fun op hop => ?_⟩
  have hfollowed := h.lockstep.followed_run hop
  exact ⟨hfollowed.reported, hfollowed.lockstep.sameContent⟩

theorem Session.afterCalls (h : m.Session x w) (calls : List GraphCall) :
    m.Session x (afterCalls m.host m.source calls w) := by
  induction calls generalizing w with
  | nil => exact h
  | cons c rest ih => exact ih (h.operated (.call c) trivial)

/-- An undirected graph and a directed one, both empty, the second attached to
the first, with a recorder behind each. -/
def twoEmptyGraphs : World :=
  { World.initial with
    graphs := ⟨[⟨"network", ⟨.str "network", [.recorder 0, .graph ⟨1⟩]⟩, .empty false⟩,
      ⟨"copy", ⟨.str "copy", [.recorder 1]⟩, .empty true⟩]⟩
    recorders := ⟨[⟨"first", []⟩, ⟨"second", []⟩]⟩ }

/-- The sinks around the two graphs, and what they write down. -/
def twoRecorders : Wiring where
  sourceId := .str "network"
  copyId := .str "copy"
  before := [.recorder 0]
  after := []
  behind := [.recorder 1]
  notes
    | .recorder i, sender, event => [⟨(twoEmptyGraphs.recorders.get i).label, sender, event⟩]
    | _, _, _ => []

/-- The first graph with the second one as its copy. -/
def firstAndSecond : Mirror := .ofDepth 1 ⟨0⟩ ⟨1⟩ (by decide)

theorem attached_twoEmptyGraphs : firstAndSecond.Attached twoRecorders twoEmptyGraphs where
  source_present := Nat.two_pos
  copy_present := Nat.one_lt_two
  source_emitter := rfl
  copy_emitter := rfl
  beside := by
    intro s hs
    rw [List.mem_singleton.1 hs]
    exact passive_recorder 1 rfl
  behind := by
    intro s hs
    rw [List.mem_singleton.1 hs]
    exact passive_recorder 0 rfl
  source_reachable := .empty false
  copy_reachable := .empty true
  directed := fun h => absurd h (by decide)
  content := ⟨rfl, rfl, fun e he => absurd he List.not_mem_nil⟩

/-- A loop and an edge with an attribute are added, some requests are refused,
and an attribute is written through a view. -/
def growingCalls : List GraphCall :=
  [.request (.addNode (.int 1)) .empty, .request (.addNode (.bool true)) .empty,
    .request (.addNode (.str "x")) .empty,
    .request (.addEdge (.str "loop") (.int 1) (.bool true)) .empty,
    .request (.addEdge .null (.str "x") (.int 1)) .empty,
    .request (.addEdge (.str "again") (.int 1) (.str "x")) .empty,
    .write .null (.str "x") (.int 1) (.str "weight") .null]

/-- The removal of a node that has edges. -/
def removal : Operation := .call (.request (.removeNode (.int 1)) .empty)

/-- The node goes with its two edges: three events, written down twice. -/
theorem inLockstep_removal :
    let m := firstAndSecond
    let w := afterCalls m.host m.source growingCalls twoEmptyGraphs
    let w' := ((removal.run m).exec w).2
    (w.objectAt m.copy).graph.edges.size = 2 ∧ w'.received.length = w.received.length + 6
      ∧ (∃ events : List Event, w'.received = w.received ++ events.flatMap twoRecorders.trace)
      ∧ (w'.objectAt m.source).graph.SameContent (w'.objectAt m.copy).graph := by
  have hsession := (Session.attached attached_twoEmptyGraphs).afterCalls growingCalls
  refine ⟨by decide +kernel, by decide +kernel, ?_⟩
  exact (Session.inLockstep hsession).2 removal trivial

end EvolvingGraph.Mirror
