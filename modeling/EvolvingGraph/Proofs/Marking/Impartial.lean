/-
  EvolvingGraph.Proofs.Marking.Impartial
  ──────────────────────────────────────
  **BUILDERS THAT LOOK AT NOTHING BUT THE GRAPH.**

  Kruskal's and Prim's algorithms read nodes, edges and weights of the tree's
  graph.  A builder may read more and do more, but one that plays no steps and
  is written down with values only looks at the same things.  Such a choice is
  the same wherever the graph reads alike, in whatever order attributes come.

  Main statements:
    * `impartial_chosenItems` — the algorithms;
    * `impartial_callBuilder` — the builders of a session;
    * `ChoosesByGraph.impartial` — what is listed for a tree.
-/
import EvolvingGraph.Proofs.Marking.SideBySide

namespace EvolvingGraph

variable {α : Type}

/-! ## §1. Impartial choices. -/

namespace Marker

/-- A way to choose edges that changes nothing, and that chooses alike where the
graph reads alike: its nodes, its edges, and their attributes. -/
structure Impartial (m : Marker) (build : Run (List TreeItem)) : Prop where
  reads : ∀ w, m.Alike m.afterReset w w → (build.exec w).2 = w
  paired : m.Paired m.afterReset build fun items items' =>
    items = items' ∧ ∀ item ∈ items, item.About m.g

variable {m : Marker}

theorem Impartial.of_reads {build : Run (List TreeItem)} (hreads : Run.Reads build)
    (hpaired : m.Paired m.afterReset build fun items items' =>
      items = items' ∧ ∀ item ∈ items, item.About m.g) : m.Impartial build :=
  ⟨fun w _ => hreads w, hpaired⟩

/-- A choice that depends on the tree's configuration. -/
theorem Impartial.of_tree {f : Tree → Run (List TreeItem)} (h : m.Impartial (f m.tree)) :
    m.Impartial (World.tree m.t >>= f) := by
  refine ⟨fun w hw => ?_, m.paired_tree.bind ?_⟩
  · rw [Run.exec_bind, Run.exec_tree, hw.tree_eq]
    exact h.reads w hw
  · rintro _ _ ⟨rfl, rfl⟩
    exact h.paired

/-- The tree's own graph reads alike under all names. -/
theorem paired_ownGraph (m : Marker) : m.Paired m.afterReset (World.graph m.g)
    (Graph.Like (Catalog.AgreeOn fun _ => True)) :=
  (paired_graph m.g).weaken fun _ _ hlike => hlike.mono fun _ _ h k _ => h k (.inl rfl)

/-- Items of some kind that is about no graph in particular. -/
theorem paired_map {results : List α → List α → Prop} {x : Run (List α)} {f : α → TreeItem}
    (h : m.Paired m.afterReset x results) (heq : ∀ as bs, results as bs → as = bs)
    (habout : ∀ a, (f a).About m.g) :
    m.Paired m.afterReset (do return (← x).map f) fun items items' =>
      items = items' ∧ ∀ item ∈ items, item.About m.g := by
  refine h.bind fun as bs hab => ?_
  obtain rfl := heq as bs hab
  refine .pure ⟨rfl, fun item hitem => ?_⟩
  obtain ⟨a, -, rfl⟩ := List.mem_map.1 hitem
  exact habout a

/-! ## §2. The algorithms. -/

/-- What the algorithms choose depends on the graph only. -/
theorem impartial_chosenItems (m : Marker) (algorithm : Algorithm) :
    m.Impartial (chosenItems m.t algorithm) := by
  unfold chosenItems
  refine .of_reads ?_ ?_
  · exact .bind (reads_treeGraph m.t) fun x => .bind (.tree m.t) fun tree =>
      .bind (.graph x) fun graph => .bind (.ofExcept _) fun ids => .pure _
  · refine m.paired_treeGraph.bind ?_
    rintro _ _ ⟨rfl, rfl⟩
    refine m.paired_tree.bind ?_
    rintro _ _ ⟨rfl, rfl⟩
    refine m.paired_ownGraph.bind ?_
    intro graph graph' hlike
    rw [hlike.spanningIds_eq]
    exact paired_map (paired_ofExcept _) (fun _ _ => id) fun _ => trivial

/-! ## §3. Builders. -/

end Marker

theorem evaluateAll_values (vs : List Value) : evaluateAll (vs.map .value) = pure vs := by
  induction vs with
  | nil => rfl
  | cons v vs ih =>
    show (do return (← evaluate (.value v)) :: (← evaluateAll (vs.map .value))) = _
    rw [ih, evaluate_value]
    rfl

/-- The edges that have an attribute are the same in graphs that read alike. -/
theorem idsHaving_congr {graph graph' : Graph}
    (h : Graph.Like (Catalog.AgreeOn fun _ => True) graph graph') (name : Value) :
    idsHaving graph' name = idsHaving graph name := by
  unfold idsHaving
  rw [h.edges]
  congr 1
  funext id
  apply EndAlike.eq
  refine EndAlike.bind (h.edgeAttributes id.value) ?_
  intro a a' hagree
  refine (EndAlike.of_eq fun _ => rfl).bind ?_
  rintro k _ rfl
  unfold Catalog.contains
  rw [hagree k trivial]
  exact .ok rfl

/-- A builder that is written down with values only, and whose answer, if it is an
edge, is one of a certain graph. -/
def BuilderKind.Plain (g : GraphRef) : BuilderKind → Prop
  | .answer t => ∃ v, t = .value v ∧ ∀ x id source target, v = .edge x id source target → x = g
  | .views ids => ∃ vs : List Value, ids = vs.map .value
  | .fromSource t | .having t => ∃ v, t = .value v
  | .kruskal | .notCallable _ => True

namespace Marker

variable {m : Marker}

theorem paired_mapM_lookUp (x : GraphRef) (ids : List Value) :
    m.Paired m.afterReset (ids.mapM (lookUp x)) Eq := by
  induction ids with
  | nil => exact .pure rfl
  | cons id ids ih =>
    rw [List.mapM_cons]
    refine (paired_lookUp x id).bind ?_
    rintro e _ rfl
    refine ih.bind ?_
    rintro views _ rfl
    exact .pure rfl

theorem reads_mapM_lookUp (x : GraphRef) (ids : List Value) :
    Run.Reads (ids.mapM (lookUp x)) := by
  induction ids with
  | nil => exact .pure _
  | cons id ids ih =>
    rw [List.mapM_cons]
    exact .bind (reads_lookUp x id) fun _ => .bind ih fun _ => .pure _

/-- The items of a value. -/
theorem impartial_itemsOfValue {v : Value}
    (hv : ∀ x id source target, v = .edge x id source target → x = m.g) :
    m.Impartial (itemsOfValue v) := by
  have hlisted : ∀ vs : List Value, m.Impartial (pure (vs.map TreeItem.ofValue)) := by
    intro vs
    refine .of_reads (.pure _) (.pure ⟨rfl, fun item hitem => ?_⟩)
    obtain ⟨u, -, rfl⟩ := List.mem_map.1 hitem
    cases u <;> trivial
  cases v with
  | tuple vs => exact hlisted vs
  | list vs => exact hlisted vs
  | str s =>
    refine .of_reads (.pure _) (.pure ⟨rfl, fun item hitem => ?_⟩)
    obtain ⟨c, -, rfl⟩ := List.mem_map.1 hitem
    trivial
  | edge x id source target =>
    obtain rfl := hv x id source target rfl
    refine .of_reads (.bind (.graph _) fun _ => .pure _) (m.paired_ownGraph.bind ?_)
    intro graph graph' hlike
    have hattributes := hlike.edgeAttributes id
    revert hattributes
    generalize graph.edgeAttributes id = a
    generalize graph'.edgeAttributes id = a'
    intro hattributes
    have habout : ∀ n, ∀ item ∈ (List.range n).map (TreeItem.attributeAt ⟨m.g, id, source, target⟩),
        item.About m.g := by
      intro n item hitem
      obtain ⟨i, -, rfl⟩ := List.mem_map.1 hitem
      rfl
    cases hattributes with
    | ok hagree =>
      refine .pure ⟨?_, habout _⟩
      simp only [hagree.size_eq]
    | error _ => exact .pure ⟨rfl, habout _⟩
  | _ => exact .of_reads (.throw _) (paired_throw _ _)

/-- **A builder that is written down with values only looks at the graph only.** -/
theorem impartial_answerOf {kind : BuilderKind} (h : kind.Plain m.g) :
    m.Impartial (answerOf m.t kind) := by
  unfold answerOf
  cases kind with
  | answer t =>
    obtain ⟨v, rfl, hv⟩ := h
    exact impartial_itemsOfValue hv
  | views ids =>
    obtain ⟨vs, rfl⟩ := h
    simp only [evaluateAll_values, pure_bind]
    refine .of_reads ?_ (m.paired_treeGraph.bind ?_)
    · exact .bind (reads_treeGraph m.t) fun x => .bind (reads_mapM_lookUp x vs) fun _ => .pure _
    · rintro _ _ ⟨rfl, rfl⟩
      exact paired_map (paired_mapM_lookUp m.g vs) (fun _ _ => id) fun _ => trivial
  | fromSource t =>
    obtain ⟨v, rfl⟩ := h
    simp only [evaluate_value, pure_bind]
    refine .of_reads ?_ (m.paired_treeGraph.bind ?_)
    · exact .bind (reads_treeGraph m.t) fun x => .bind (.graph x) fun _ => .pure _
    · rintro _ _ ⟨rfl, rfl⟩
      refine m.paired_ownGraph.bind fun graph graph' hlike => ?_
      rw [hlike.edges]
      refine .pure ⟨rfl, fun item hitem => ?_⟩
      obtain ⟨id, -, rfl⟩ := List.mem_map.1 hitem
      trivial
  | having t =>
    obtain ⟨v, rfl⟩ := h
    simp only [evaluate_value, pure_bind]
    refine .of_reads ?_ (m.paired_treeGraph.bind ?_)
    · exact .bind (reads_treeGraph m.t) fun x => .bind (.graph x) fun _ =>
        .bind (.ofExcept _) fun _ => .pure _
    · rintro _ _ ⟨rfl, rfl⟩
      refine m.paired_ownGraph.bind fun graph graph' hlike => ?_
      rw [idsHaving_congr hlike]
      refine paired_map (paired_ofExcept _) (fun _ _ => id) fun id => ?_
      cases id.value <;> trivial
  | kruskal => exact m.impartial_chosenItems .kruskal
  | notCallable t => exact .of_reads (.throw _) (paired_throw _ _)

/-- So does a tree's builder that plays no steps. -/
theorem impartial_callBuilder {builder : Builder Step}
    (hsteps : m.host.play none builder.steps = pure ()) (h : builder.kind.Plain m.g) :
    m.Impartial (callBuilder m.host m.t builder) := by
  unfold callBuilder
  rw [hsteps, pure_bind]
  exact impartial_answerOf h

/-! ## §4. What is listed for a tree. -/

/-- The ways to choose edges by nothing but the graph: Kruskal's algorithm, or a
builder that looks at nothing else. -/
inductive ChoosesByGraph (m : Marker) : Prop where
  | kruskal (strategy : m.tree.strategy = .kruskal)
  | custom (builder : Builder Step) (strategy : m.tree.strategy = .custom)
      (builder_eq : m.tree.builder = some builder)
      (impartial : m.Impartial (callBuilder m.host m.t builder))

theorem ChoosesByGraph.impartial (h : m.ChoosesByGraph) :
    m.Impartial (treeItems m.host m.t) := by
  unfold treeItems
  apply Impartial.of_tree
  cases h with
  | kruskal strategy =>
    rw [strategy]
    exact m.impartial_chosenItems .kruskal
  | custom builder strategy builder_eq impartial =>
    rw [strategy, builder_eq]
    exact impartial

end Marker
end EvolvingGraph
