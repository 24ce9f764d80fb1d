/-
  EvolvingGraph.Proofs.Marking.BadWeights
  ───────────────────────────────────────
  **A BAD WEIGHT NEVER LEAVES HALF A TREE.**

  The algorithms read all weights before they choose an edge.  So a computation
  fails exactly if some edge that is not left out has a weight that is no number, a
  NaN, or too large, and it fails in the way of the first such edge.  By then it
  has marked every edge as one outside the tree and done nothing else.

  What is left out are the loops, and their weights make no difference.  But a loop
  is found out by comparing the ends of an edge, so one at a NaN, which does not
  equal itself, is not: it is read like any other edge, and its weight can be bad.

  Main statements:
    * `Graph.exists_first_fault` — where some weight is at fault, one is the first;
    * `Onlookers.exec_compute_of_first_fault` — the first one decides the kind of failure;
    * `Onlookers.exec_compute_of_weighAlike` — only weights that are read make a difference;
    * `compute_fails_on_first_bad_weight` — when computing fails, how, and what is left;
    * `compute_reads_weight_of_loop_at_nan` — the loops that are not left out.
-/
import EvolvingGraph.Proofs.Marking.Choosing
import EvolvingGraph.Proofs.Marking.Uniqueness

namespace EvolvingGraph

/-! ## §1. The first weight at fault. -/

namespace Graph

variable {g : Graph} {e : EdgeEntry}

/-- Where some weight is at fault, one is the first in the table. -/
theorem exists_first_fault {name : Value} (he : e ∈ g.edges.entries)
    (hfault : g.weightFault? name e ≠ none) :
    ∃ before first after kind, g.edges.entries = before ++ first :: after
      ∧ (∀ f ∈ before, g.weightFault? name f = none)
      ∧ g.weightFault? name first = some kind := by
  obtain ⟨before, first, after, hsplit, hfirst, hbefore⟩ :=
    exists_first_failure (p := (g.weightFault? name · = none)) fun hall => hfault (hall e he)
  obtain ⟨kind, hkind⟩ := Option.ne_none_iff_exists'.1 hfirst
  exact ⟨before, first, after, kind, hsplit, hbefore, hkind⟩

/-- An edge that is not left out has a weight that fails to be read in the given way. -/
def FailsToWeigh (g : Graph) (name : Value) (e : EdgeEntry) (kind : ErrorKind) : Prop :=
  e.isPlainLoop = false ∧ ∃ v, g.readAttribute .edge e.1.value name .null = .ok v
    ∧ v.weightFault? = some kind

theorem failsToWeigh_iff {name : Value} {kind : ErrorKind} :
    g.FailsToWeigh name e kind ↔ g.weightFault? name e = some kind := by
  rw [weightFault?_eq_some_iff, e.areEqual_eq_isPlainLoop, FailsToWeigh]

/-- Reading the weights fails exactly if some edge has a bad one. -/
theorem Coherent.weightedEdges_fails_iff (hg : g.Coherent) (name : Identifier) :
    (∃ error, g.weightedEdges name.value = .error error)
      ↔ ∃ e ∈ g.edges.entries, ∃ kind, g.FailsToWeigh name.value e kind := by
  simp only [failsToWeigh_iff, ← Option.ne_none_iff_exists']
  constructor
  · intro ⟨error, herror⟩
    by_contra hnone
    have hvalid : ∀ e ∈ g.edges.entries, ¬g.HasBadWeight name.value e :=
      fun e he hbad => hnone ⟨e, he, hasBadWeight_iff.1 hbad⟩
    rw [hg.weightedEdges_of_valid name hvalid] at herror
    exact absurd herror (by simp)
  · intro ⟨e, he, hfault⟩
    obtain ⟨before, first, after, kind, hsplit, hbefore, hfirst⟩ := exists_first_fault he hfault
    obtain ⟨error, herror, _⟩ := hg.weightedEdges_of_fault name hsplit hbefore hfirst
    exact ⟨error, herror⟩

end Graph

/-! ## §2. Computations that fail. -/

/-- What is left of a computation that has not marked an edge: a line in the log,
and the requests that mark every edge as one outside the tree, in order.  So each
edge has that flag and is otherwise as it was, and nothing else has changed. -/
structure LeftUnmarked (host : Host) (g : GraphRef) (t : TreeRef) (calm : World → Prop)
    (graph : Graph) (tree : Tree) (flag : String) (w w' : World) : Prop where
  requests : ((graph.unmarkings tree).forM (commit host g)).exec
    { w with log := w.log ++ [computingLine graph tree (w.objectAt g).emitter.id] } = (.ok (), w')
  scene : ∃ graph', Scene g t calm graph' tree w'
    ∧ graph.Painted graph' fun _ a => a.insert (.ofText flag) tree.flagOff

variable {host : Host} {g : GraphRef} {t : TreeRef} {calm : World → Prop} {graph graph₂ : Graph}
  {tree : Tree} {w w₂ : World} {flag weight : String} {algorithm : Algorithm}

/-- A computation that cannot read the weights leaves no edge marked. -/
theorem Onlookers.exec_compute_unmarked (h : Onlookers host g t calm)
    (hw : Scene g t calm graph tree w) (hg : graph.Coherent) (htree : MarksBy tree g flag weight)
    (hstrategy : tree.strategy = algorithm.strategy) {error : Error}
    (hedges : graph.weightedEdges (.str weight) = .error error) :
    ∃ w', (compute host t).exec w = (.error error, w')
      ∧ LeftUnmarked host g t calm graph tree flag w w' := by
  obtain ⟨w', graph', hexec, hrequests, hscene, hpainted⟩ :=
    h.exec_compute_of_error hw hg htree hstrategy hedges
  refine ⟨w', hexec, hrequests, graph', hscene, hpainted.congr fun e he a => ?_⟩
  have hall : e.1.key ∈ graph.edges.identifiers.map (·.key) :=
    List.mem_map_of_mem (List.mem_map_of_mem he)
  unfold Graph.writing
  rw [if_pos hall]

/-- A computation fails exactly if the weights cannot be read. -/
theorem Onlookers.exec_compute_fails_iff (h : Onlookers host g t calm)
    (hw : Scene g t calm graph tree w) (hg : graph.Coherent) (htree : MarksBy tree g flag weight)
    (hstrategy : tree.strategy = algorithm.strategy)
    (hnamed : ∀ e ∈ graph.edges.entries, e.1.key ≠ .null) :
    (∃ error w', (compute host t).exec w = (.error error, w'))
      ↔ ∃ error, graph.weightedEdges (.str weight) = .error error := by
  constructor
  · intro ⟨error, w', hfails⟩
    cases hedges : graph.weightedEdges (.str weight) with
    | error error => exact ⟨error, rfl⟩
    | ok edges =>
      obtain ⟨w'', hexec, -⟩ :=
        h.exec_compute_of_ok hw hg htree hstrategy (Graph.namedThroughout_of_named hnamed) hedges
      rw [hexec] at hfails
      exact absurd (congrArg Prod.fst hfails) (by simp)
  · intro ⟨error, hedges⟩
    obtain ⟨w', hexec, -⟩ := h.exec_compute_unmarked hw hg htree hstrategy hedges
    exact ⟨error, w', hexec⟩

/-- Where the first edge with a bad weight has it in a given way, so does the computation
fail. -/
theorem Onlookers.exec_compute_of_first_fault (h : Onlookers host g t calm)
    (hw : Scene g t calm graph tree w) (hg : graph.Coherent) (htree : MarksBy tree g flag weight)
    (hstrategy : tree.strategy = algorithm.strategy) {before after : List EdgeEntry}
    {e : EdgeEntry} {kind : ErrorKind} (hsplit : graph.edges.entries = before ++ e :: after)
    (hbefore : ∀ f ∈ before, ∀ kind', ¬graph.FailsToWeigh (.str weight) f kind')
    (hfails : graph.FailsToWeigh (.str weight) e kind) :
    ∃ error w', (compute host t).exec w = (.error error, w') ∧ error.kind = kind
      ∧ LeftUnmarked host g t calm graph tree flag w w' := by
  have hsound : ∀ f ∈ before, graph.weightFault? (.str weight) f = none := by
    intro f hf
    rw [Option.eq_none_iff_forall_ne_some]
    exact fun kind' hfault => hbefore f hf kind' (Graph.failsToWeigh_iff.2 hfault)
  obtain ⟨error, hedges, hkind⟩ := hg.weightedEdges_of_fault (.ofText weight) hsplit hsound
    (Graph.failsToWeigh_iff.1 hfails)
  obtain ⟨w', hexec, hleft⟩ := h.exec_compute_unmarked hw hg htree hstrategy hedges
  exact ⟨error, w', hexec, hkind, hleft⟩

/-- Graphs with the same weights to be read are computed alike, with success or without. -/
theorem Onlookers.exec_compute_of_weighAlike (h : Onlookers host g t calm)
    (hw : Scene g t calm graph tree w) (hw₂ : Scene g t calm graph₂ tree w₂)
    (hg : graph.Coherent) (hg₂ : graph₂.Coherent) (htree : MarksBy tree g flag weight)
    (hstrategy : tree.strategy = algorithm.strategy)
    (hnamed : ∀ e ∈ graph.edges.entries, e.1.key ≠ .null)
    (halike : graph.WeighAlike (.str weight) graph₂) :
    (∃ error w' w₂', (compute host t).exec w = (.error error, w')
        ∧ (compute host t).exec w₂ = (.error error, w₂'))
      ∨ ∃ F w' w₂', (compute host t).exec w = (.ok (), w')
        ∧ (compute host t).exec w₂ = (.ok (), w₂')
        ∧ Marked g t calm graph tree flag F w' ∧ Marked g t calm graph₂ tree flag F w₂' := by
  have hsame := halike.weightedEdges_eq
  cases hedges : graph.weightedEdges (.str weight) with
  | error error =>
    rw [hedges] at hsame
    obtain ⟨w', hexec, -⟩ := h.exec_compute_unmarked hw hg htree hstrategy hedges
    obtain ⟨w₂', hexec₂, -⟩ := h.exec_compute_unmarked hw₂ hg₂ htree hstrategy hsame
    exact .inl ⟨error, w', w₂', hexec, hexec₂⟩
  | ok edges =>
    rw [hedges] at hsame
    have hnamed₂ : ∀ e ∈ graph₂.edges.entries, e.1.key ≠ .null := by rwa [halike.edges]
    obtain ⟨w', hexec, hmarked⟩ :=
      h.exec_compute_of_ok hw hg htree hstrategy (Graph.namedThroughout_of_named hnamed) hedges
    obtain ⟨w₂', hexec₂, hmarked₂⟩ :=
      h.exec_compute_of_ok hw₂ hg₂ htree hstrategy (Graph.namedThroughout_of_named hnamed₂) hsame
    rw [halike.choose_eq, halike.named_eq] at hmarked₂
    exact .inr ⟨_, w', w₂', hexec, hexec₂, hmarked, hmarked₂⟩

/-- **Computing a tree with an algorithm fails exactly if some edge has a bad weight,
in the way of the first such edge in the table, and it then leaves no edge marked.  Only
loops are exempt: their weights make no difference, unless they are at a NaN.** -/
theorem compute_fails_on_first_bad_weight (h : Onlookers host g t calm)
    (hw : Scene g t calm graph tree w) (hg : graph.Coherent) (htree : MarksBy tree g flag weight)
    (hstrategy : tree.strategy = algorithm.strategy)
    (hnamed : ∀ e ∈ graph.edges.entries, e.1.key ≠ .null) :
    ((∃ error w', (compute host t).exec w = (.error error, w'))
        ↔ ∃ e ∈ graph.edges.entries, ∃ kind, graph.FailsToWeigh (.str weight) e kind)
      ∧ (∀ before e after kind, graph.edges.entries = before ++ e :: after →
          (∀ f ∈ before, ∀ kind', ¬graph.FailsToWeigh (.str weight) f kind') →
          graph.FailsToWeigh (.str weight) e kind →
          ∃ error w', (compute host t).exec w = (.error error, w') ∧ error.kind = kind
            ∧ LeftUnmarked host g t calm graph tree flag w w')
      ∧ ∀ graph₂ w₂, Scene g t calm graph₂ tree w₂ → graph₂.Coherent →
          graph₂.nodes.identifiers = graph.nodes.identifiers → graph₂.edges = graph.edges →
          (∀ e ∈ graph.edges.entries, EdgeEntry.isPlainLoop e = false →
            graph₂.readAttribute .edge e.1.value (.str weight) .null
              = graph.readAttribute .edge e.1.value (.str weight) .null) →
          (∃ error w' w₂', (compute host t).exec w = (.error error, w')
              ∧ (compute host t).exec w₂ = (.error error, w₂'))
            ∨ ∃ F w' w₂', (compute host t).exec w = (.ok (), w')
              ∧ (compute host t).exec w₂ = (.ok (), w₂')
              ∧ Marked g t calm graph tree flag F w' ∧ Marked g t calm graph₂ tree flag F w₂' := by
  refine ⟨?_, ?_, ?_⟩
  · exact (h.exec_compute_fails_iff hw hg htree hstrategy hnamed).trans
      (hg.weightedEdges_fails_iff (.ofText weight))
  · intro before e after kind hsplit hbefore hfails
    exact h.exec_compute_of_first_fault hw hg htree hstrategy hsplit hbefore hfails
  · intro graph₂ w₂ hw₂ hg₂ hnodes htable hweights
    have halike : graph.WeighAlike (.str weight) graph₂ := by
      refine ⟨hnodes, htable, fun e he hproper => hweights e he ?_⟩
      rwa [← EdgeEntry.areEqual_eq_isPlainLoop]
    exact h.exec_compute_of_weighAlike hw hw₂ hg hg₂ htree hstrategy hnamed halike

/-- The triangle with a NaN for one weight and text for a later one. -/
def faultyTriangle : Graph :=
  triangle.applied [.setAttribute .edge (.str "home") (.str "weight") (.nan 1),
    .setAttribute .edge (.str "round") (.str "weight") (.str "far")]

theorem compute_fails_on_first_bad_weight_faultyTriangle :
    (∃ e ∈ faultyTriangle.edges.entries, ∃ kind, faultyTriangle.FailsToWeigh (.str "weight") e kind)
      ∧ ∃ error w', (compute (Session.hostOfDepth 1) ⟨0⟩).exec
          ((triangleWorld .prim .distance).put ⟨0⟩ faultyTriangle) = (.error error, w')
        ∧ error.kind = .value
        ∧ LeftUnmarked (Session.hostOfDepth 1) ⟨0⟩ ⟨0⟩
          (AllPassive (Session.hostOfDepth 1) .empty (fun _ _ _ => []) ⟨0⟩) faultyTriangle
          (plainTree .prim .distance) "SpanningTree.flag"
          ((triangleWorld .prim .distance).put ⟨0⟩ faultyTriangle) w' := by
  have hstrategy : (plainTree .prim .distance).strategy = Algorithm.prim.strategy := rfl
  have hfails := compute_fails_on_first_bad_weight (onlookers_allPassive _ _ _ _ _)
    (scene_put_triangleWorld .prim .distance faultyTriangle)
    (reachable_triangle.applied (by simp)).coherent (marksBy_plainTree _ _) hstrategy
    (by decide +kernel)
  have hfaultless : ∀ f ∈ faultyTriangle.edges.entries.take 2,
      faultyTriangle.weightFault? (.str "weight") f = none := by decide +kernel
  have hbefore : ∀ f ∈ faultyTriangle.edges.entries.take 2, ∀ kind,
      ¬faultyTriangle.FailsToWeigh (.str "weight") f kind := by
    intro f hf kind hkind
    rw [Graph.failsToWeigh_iff, hfaultless f hf] at hkind
    cases hkind
  obtain ⟨error, w', hexec, hkind, hleft⟩ :=
    hfails.2.1 (faultyTriangle.edges.entries.take 2) _ _ .value rfl hbefore
      (Graph.failsToWeigh_iff.2 (by decide +kernel))
  exact ⟨hfails.1.1 ⟨error, w', hexec⟩, error, w', hexec, hkind, hleft⟩

/-- A node and an edge from it to itself, with text for a weight. -/
def lonelyLoop (id : Value) : Graph :=
  (Graph.empty false).applied [.addNode id, .addEdge (.str "loop") id id,
    .setAttribute .edge (.str "loop") (.str "weight") (.str "far")]

/-- Where the node is a NaN, computing fails on the weight of the loop, though there is no
edge but this one; where it is anything else, the same graph is computed. -/
theorem compute_reads_weight_of_loop_at_nan :
    (∀ e ∈ (lonelyLoop (.nan 0)).edges.entries, EdgeEntry.isLoop e = true)
      ∧ ((compute (Session.hostOfDepth 1) ⟨0⟩).exec
        ((triangleWorld .kruskal .distance).put ⟨0⟩ (lonelyLoop (.nan 0)))).1
          = .error (.weightNotNumber (.str "loop") (.str "far") (.str "weight"))
      ∧ ((compute (Session.hostOfDepth 1) ⟨0⟩).exec
        ((triangleWorld .kruskal .distance).put ⟨0⟩ (lonelyLoop (.int 1)))).1 = .ok () := by
  refine ⟨by decide +kernel, ?_, ?_⟩
  · with_unfolding_all rfl
  · with_unfolding_all rfl

end EvolvingGraph
