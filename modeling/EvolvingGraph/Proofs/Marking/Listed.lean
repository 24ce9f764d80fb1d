/-
  EvolvingGraph.Proofs.Marking.Listed
  ───────────────────────────────────
  **WHAT A BUILDER LISTS IS MARKED, UP TO THE FIRST ITEM THAT NAMES NO EDGE.**

  A builder of one's own is called when all marks have been reset.  What it answers is
  gone through while edges are marked, so what has been marked when an item fails stays
  marked.  The answer may be a list of ids and views, or be settled item by item: the
  edges that come from a node, or an edge view, which is gone through by its
  attributes 0, 1, 2, … and always ends with one that is missing.

  Main statements:
    * `Onlookers.exec_markChosen_of_lists` — what a builder lists is marked until it ends;
    * `compute_marks_what_is_listed` — what comes of a computation with a builder.
-/
import EvolvingGraph.Proofs.Marking.Items
import EvolvingGraph.Proofs.Marking.StaleMarks

namespace EvolvingGraph

/-! ## §1. What a builder answers. -/

/-- Whether a value can be gone through. -/
def Value.isIterable : Value → Bool
  | .tuple _ | .list _ | .str _ | .edge .. => true
  | _ => false

theorem exec_itemsOfValue_of_not_iterable {v : Value} (h : v.isIterable = false) (w : World) :
    (itemsOfValue v).exec w = (.error .notIterable, w) := by
  cases v with
  | tuple | list | str | edge => cases h
  | _ => rfl

section Answers

variable {host : Host} {g : GraphRef} {t : TreeRef} {calm : World → Prop} {graph : Graph}
  {tree : Tree} {w : World} {builder : Builder Step} {term : Term} {v : Value}

/-- A builder that answers with a value lists the items of the value. -/
theorem exec_callBuilder_answer (t : TreeRef)
    (hsteps : (host.play none builder.steps).exec w = (.ok (), w))
    (hkind : builder.kind = .answer term) (hv : (evaluate term).exec w = (.ok v, w)) :
    (callBuilder host t builder).exec w = (itemsOfValue v).exec w := by
  simp only [callBuilder, Run.exec_bind, hsteps, hkind, answerOf, hv]

/-- A builder that asks for the edges from a node lists all edges, to be told later. -/
theorem exec_callBuilder_fromSource (hw : Scene g t calm graph tree w)
    (hgraph : tree.graph = some g)
    (hsteps : (host.play none builder.steps).exec w = (.ok (), w))
    (hkind : builder.kind = .fromSource term) (hv : (evaluate term).exec w = (.ok v, w)) :
    (callBuilder host t builder).exec w
      = (.ok (graph.edges.entries.map fun e => .fromSource g e.1 v), w) := by
  simp only [callBuilder, Run.exec_bind, hsteps, hkind, answerOf, treeGraph, Run.exec_tree,
    hw.tree_eq, hgraph, Run.exec_pure, hv, Run.exec_graph, hw.graph_eq, Catalog.identifiers,
    List.map_map, Function.comp_def]

/-- An edge view lists its attributes 0, 1, 2, …, and at least one that is missing. -/
theorem exec_itemsOfValue_edge (hw : Scene g t calm graph tree w) {id source target : Value}
    {a : Attributes} (ha : graph.edgeAttributes id = .ok a) {n : Nat}
    (hn : ∀ i < n, a.contains (.int i) = true) :
    ∃ rest, (itemsOfValue (.edge g id source target)).exec w
      = (.ok ((List.range n).map (.attributeAt ⟨g, id, source, target⟩)
          ++ .attributeAt ⟨g, id, source, target⟩ n :: rest), w) := by
  -- there are as many attributes as numbers among their names, or more
  have hsize : n ≤ a.size := by
    have hinjective : Function.Injective fun i : Nat => Key.int i :=
      fun i j hij => Int.ofNat_inj.1 (Key.int.inj hij)
    have hnodup := (List.nodup_range (n := n)).map hinjective
    have hcontained : ∀ k ∈ (List.range n).map (fun i : Nat => Key.int i), a.contains k = true := by
      intro k hk
      obtain ⟨i, hi, rfl⟩ := List.mem_map.1 hk
      exact hn i (List.mem_range.1 hi)
    simpa only [List.length_map, List.length_range] using
      Catalog.length_le_size hnodup hcontained
  obtain ⟨m, hm⟩ := Nat.exists_eq_add_of_le hsize
  refine ⟨(List.range m).map fun i => .attributeAt ⟨g, id, source, target⟩ (n + (i + 1)), ?_⟩
  simp only [itemsOfValue, Run.exec_bind, Run.exec_graph, hw.graph_eq, ha, Run.exec_pure, hm]
  rw [Nat.add_assoc, List.range_add, List.range_succ_eq_map]
  simp only [List.map_append, List.map_cons, List.map_map, Nat.add_zero, Function.comp_def]

/-- A view of an edge that is not there lists one attribute, which cannot be read. -/
theorem exec_itemsOfValue_missing (hw : Scene g t calm graph tree w) {id source target : Value}
    {error : Error} (herror : graph.edgeAttributes id = .error error) :
    (itemsOfValue (.edge g id source target)).exec w
      = (.ok [.attributeAt ⟨g, id, source, target⟩ 0], w) := by
  simp only [itemsOfValue, Run.exec_bind, Run.exec_graph, hw.graph_eq, herror]
  rfl

end Answers

/-! ## §2. What comes of it. -/

namespace Onlookers

variable {host : Host} {g : GraphRef} {t : TreeRef} {calm : World → Prop} {graph graph₁ : Graph}
  {tree : Tree} {w w₁ : World} {flag : Identifier} {items rest : List TreeItem}
  {values : List Value} {ending : Option Error}

/-- If a builder changes nothing, what it lists is marked until the list ends. -/
theorem exec_markChosen_of_lists (h : Onlookers host g t calm) (hw : Scene g t calm graph tree w)
    (hg : graph.Coherent) (hgraph : tree.graph = some g) (hflag : tree.flagAttribute = flag.value)
    {build : Run (List TreeItem)} (hbuilt : build.exec w = (.ok items, w))
    (hlists : Lists host t (HasMarked g t calm graph tree flag) items values ending)
    (hvalues : ∀ v ∈ values, v.IsIdOrViewOf g) (hfound : ∀ v ∈ values, graph.Finds v) :
    ∃ w' graph', (markChosen host t build).exec w = (ending.elim (.ok ()) .error, w')
      ∧ Scene g t calm graph' tree w'
      ∧ graph.Painted graph' (Graph.writing flag tree.flagOn (values.map (·.listedId.asName))) := by
  obtain ⟨w', graph', hmark, hw', hpainted⟩ := h.exec_markItems_of_lists hg hgraph hflag hlists
    hvalues hfound hw (.writing_nil graph flag tree.flagOn)
  cases ending with
  | some error =>
    refine ⟨w', graph', ?_, hw', hpainted⟩
    simp only [markChosen, Run.exec_bind, hbuilt, hmark, Option.elim]
  | none =>
    refine ⟨_, graph', ?_, h.scene_note hw' (.computed values.length graph'.edges.size), hpainted⟩
    simp only [markChosen, Run.exec_bind, hbuilt, hmark, Option.elim, treeGraph, Run.exec_tree,
      hw'.tree_eq, hgraph, Run.exec_pure, Run.exec_graph, hw'.graph_eq, Run.exec_note]

/-- In a world, an edge of the graph has the flag of tree edges if one of some values
stands for it, and else the other flag.  No other attribute of the graph, no node, no edge
and no order is different. -/
def MarksExactly (g : GraphRef) (t : TreeRef) (calm : World → Prop) (graph : Graph) (tree : Tree)
    (flag : Identifier) (values : List Value) (w : World) : Prop :=
  ∃ graph', Scene g t calm graph' tree w ∧ graph.Painted graph' fun e a =>
    a.insert flag (if values.any (·.names e) then tree.flagOn else tree.flagOff)

/-- A computation ends with a result, and by then exactly the edges are marked that some
values stand for. -/
def Computes (host : Host) (g : GraphRef) (t : TreeRef) (calm : World → Prop) (graph : Graph)
    (tree : Tree) (flag : Identifier) (w : World) (result : Except Error Unit)
    (values : List Value) : Prop :=
  ∃ w', (compute host t).exec w = (result, w') ∧ MarksExactly g t calm graph tree flag values w'

/-- A computation for which ids and views are listed, after which the list ends with a
result.  If each of them names an edge, all of them are marked; else those before the first
one that names none are, and the computation fails on this one. -/
structure MarksListed (host : Host) (g : GraphRef) (t : TreeRef) (calm : World → Prop)
    (graph : Graph) (tree : Tree) (flag : Identifier) (w : World) (values : List Value)
    (result : Except Error Unit) : Prop where
  of_found : (∀ v ∈ values, graph.Finds v) → Computes host g t calm graph tree flag w result values
  of_missing : ∀ before bad after, values = before ++ bad :: after →
    (∀ v ∈ before, graph.Finds v) → ¬graph.Finds bad →
    Computes host g t calm graph tree flag w (.error (Graph.missingEdge bad.listedId)) before

theorem key_mem_asName_iff {values : List Value} (hfound : ∀ v ∈ values, graph.Finds v)
    (f : EdgeEntry) : f.1.key ∈ (values.map (·.listedId.asName)).map (·.key)
      ↔ values.any (·.names f) = true := by
  rw [List.map_map, List.mem_map, List.any_eq_true]
  refine exists_congr fun v => and_congr_right fun hv => ?_
  obtain ⟨e, -, hnames⟩ := hfound v hv
  have hkey := Value.names_iff.1 hnames
  rw [Value.names_iff, hkey, Option.some_inj, Function.comp_apply, Value.asName_key hkey]

/-- The edges that have been marked after the reset are the ones that values stand for. -/
theorem marksExactly_of_painted {graph₁ graph₂ : Graph} {values : List Value}
    (hw : Scene g t calm graph₂ tree w) (hfound : ∀ v ∈ values, graph.Finds v)
    (hoff : graph.Painted graph₁
      (Graph.writing flag tree.flagOff graph.edges.identifiers))
    (hon : graph₁.Painted graph₂
      (Graph.writing flag tree.flagOn (values.map (·.listedId.asName)))) :
    MarksExactly g t calm graph tree flag values w := by
  refine ⟨graph₂, hw, (hoff.trans hon).congr fun e he a => ?_⟩
  rw [writing_flagOn_flagOff _ he]
  unfold flagged
  simp only [key_mem_asName_iff hfound]

/-- A computation resets all marks and goes on with what the builder lists. -/
theorem exec_compute_custom (h : Onlookers host g t calm) (hw : Scene g t calm graph tree w)
    (hg : graph.Coherent) (hgraph : tree.graph = some g) (hflag : tree.flagAttribute = flag.value)
    (hstrategy : tree.strategy = .custom) {builder : Builder Step}
    (hbuilder : tree.builder = some builder) :
    ∃ entry w₁ graph₁, (resetNoted host t entry).exec w = (.ok (), w₁)
      ∧ Scene g t calm graph₁ tree w₁
      ∧ graph.Painted graph₁ (Graph.writing flag tree.flagOff graph.edges.identifiers)
      ∧ (compute host t).exec w = (markChosen host t (callBuilder host t builder)).exec w₁ := by
  have hthere : (w.trees.get t.index).graph = some g := by
    rw [hw.tree_eq]
    exact hgraph
  obtain ⟨entry, hexec⟩ := exec_computeTree_of_graph host hthere (treeItems host t)
  obtain ⟨w₁, graph₁, hreset, hw₁, hpainted⟩ :=
    h.exec_resetMarks (h.scene_note hw entry) hg hgraph hflag
  have hnoted : (resetNoted host t entry).exec w = (.ok (), w₁) := by
    unfold resetNoted
    rw [Run.exec_bind, Run.exec_note]
    exact hreset
  refine ⟨entry, w₁, graph₁, hnoted, hw₁, hpainted, ?_⟩
  unfold compute
  rw [hexec, Run.exec_bind, hnoted]
  simp only [markChosen, treeItems, Run.exec_bind, Run.exec_tree, hw₁.tree_eq, hstrategy, hbuilder]

/-! ## §3. Lists that come after the reset. -/

section AfterReset

variable (h : Onlookers host g t calm) (hg : graph.Coherent) (hgraph : tree.graph = some g)
  (hflag : tree.flagAttribute = flag.value) (hw₁ : Scene g t calm graph₁ tree w₁)
  (hoff : graph.Painted graph₁ (Graph.writing flag tree.flagOff graph.edges.identifiers))
  {build : Run (List TreeItem)}
  (hcompute : (compute host t).exec w = (markChosen host t build).exec w₁)

include h hg hgraph hflag hw₁ hoff hcompute

theorem computes_of_lists (hbuilt : build.exec w₁ = (.ok items, w₁))
    (hlists : Lists host t (HasMarked g t calm graph₁ tree flag) items values ending)
    (hvalues : ∀ v ∈ values, v.IsIdOrViewOf g) (hfound : ∀ v ∈ values, graph.Finds v) :
    Computes host g t calm graph tree flag w (ending.elim (.ok ()) .error) values := by
  have hfound₁ : ∀ v ∈ values, graph₁.Finds v := fun v hv => (hoff.finds_iff v).2 (hfound v hv)
  obtain ⟨w', graph', hmark, hw', hon⟩ := h.exec_markChosen_of_lists hw₁
    (hg.of_sameShape hoff.sameShape) hgraph hflag hbuilt hlists hvalues hfound₁
  exact ⟨w', hcompute.trans hmark, marksExactly_of_painted hw' hfound hoff hon⟩

/-- Items that stand for values are marked up to the first that names no edge. -/
theorem marksListed_of_standsFor
    (hitems : List.Forall₂ (TreeItem.StandsFor t (HasMarked g t calm graph₁ tree flag)) items values)
    (hrest : Lists host t (HasMarked g t calm graph₁ tree flag) rest [] ending)
    (hbuilt : build.exec w₁ = (.ok (items ++ rest), w₁))
    (hvalues : ∀ v ∈ values, v.IsIdOrViewOf g) :
    MarksListed host g t calm graph tree flag w values (ending.elim (.ok ()) .error) where
  of_found hfound := by
    have hlists := Lists.append hitems hrest
    rw [List.append_nil] at hlists
    exact computes_of_lists h hg hgraph hflag hw₁ hoff hcompute hbuilt hlists hvalues hfound
  of_missing before bad after hsplit hbefore hbad := by
    subst hsplit
    obtain ⟨hown, hown'⟩ := List.forall_mem_append.1 hvalues
    have hlists : Lists host t _ (items ++ rest) _ _ := Lists.until_missing hgraph hitems
      (hown' bad List.mem_cons_self) (mt (hoff.finds_iff bad).1 hbad) rest
    exact computes_of_lists h hg hgraph hflag hw₁ hoff hcompute hbuilt hlists hown hbefore

/-- The edges that come from a node are marked, up to where this cannot be told. -/
theorem computes_of_fromSource {node : Value} {entries : List EdgeEntry}
    (hentries : entries ⊆ graph.edges.entries)
    (hcompared : ∀ e ∈ entries, ∃ same, e.2.source.value.equals node = .ok same)
    (hrest : Lists host t (HasMarked g t calm graph₁ tree flag) rest [] ending)
    (hbuilt : build.exec w₁ = (.ok (entries.map (fun e => .fromSource g e.1 node) ++ rest), w₁)) :
    Computes host g t calm graph tree flag w (ending.elim (.ok ()) .error)
      (viewsFrom g node entries) := by
  have hentries₁ : entries ⊆ graph₁.edges.entries := by rwa [hoff.edges]
  have hlisted : ∀ v ∈ viewsFrom g node entries, _ := forall_viewsFrom hentries node
  exact computes_of_lists h hg hgraph hflag hw₁ hoff hcompute hbuilt
    (Lists.fromSource hentries₁ hcompared hrest) (fun v hv => (hlisted v hv).1)
    fun v hv => (hlisted v hv).2

/-- A view of an edge that is not there fails before an edge is marked. -/
theorem computes_of_stale {id source target : Value}
    (hmissing : ¬graph.Finds (.edge g id source target))
    (hbuilt : build.exec w₁ = (itemsOfValue (.edge g id source target)).exec w₁) :
    Computes host g t calm graph tree flag w (.error (Graph.missingEdge id)) [] := by
  have hnone : ∀ f ∈ graph₁.edges.entries, id.key? ≠ some f.1.key :=
    Graph.key?_ne_of_not_finds (mt (hoff.finds_iff _).1 hmissing)
  rw [exec_itemsOfValue_missing hw₁ (Graph.edgeAttributes_of_missing hnone)] at hbuilt
  exact computes_of_lists h hg hgraph hflag hw₁ hoff hcompute hbuilt
    (.of_stale ⟨g, id, source, target⟩ rfl hnone 0) (List.forall_mem_nil _) (List.forall_mem_nil _)

/-- What an edge has as its attributes 0, 1, 2, … is marked, and then one is missing. -/
theorem marksListed_of_edge {id source target : Value} {a : Attributes}
    (ha : graph.edgeAttributes id = .ok a)
    (hvalues : ∀ i : Nat, i ≤ values.length → a.get? (.int i) = values[i]? ∧ Key.int i ≠ flag.key)
    (hown : ∀ v ∈ values, v.IsIdOrViewOf g)
    (hbuilt : build.exec w₁ = (itemsOfValue (.edge g id source target)).exec w₁) :
    MarksListed host g t calm graph tree flag w values (.error .missingKey) := by
  -- the reset writes a flag among the attributes, and this is none of the numbers
  obtain ⟨f, -, -, ha₁⟩ := hoff.exists_edgeAttributes ha
  generalize hreset : Graph.writing flag tree.flagOff graph.edges.identifiers f a = a₁ at ha₁
  have hvalues₁ : ∀ i ≤ values.length, a₁.get? (.int i) = values[i]? ∧ Key.int i ≠ flag.key := by
    intro i hi
    obtain ⟨hget, hne⟩ := hvalues i hi
    rw [← hreset, Graph.get?_writing hne]
    exact ⟨hget, hne⟩
  have hpresent : ∀ i < values.length, a₁.contains (.int i) = true := by
    intro i hi
    rw [Catalog.contains_iff_get?, (hvalues₁ i hi.le).1]
    exact ⟨values[i], List.getElem?_eq_getElem hi⟩
  obtain ⟨rest, hitems⟩ := exec_itemsOfValue_edge hw₁ ha₁ hpresent
  obtain ⟨hstand, hstop⟩ := Lists.attributes ⟨g, id, source, target⟩ rfl ha₁ hvalues₁
  exact marksListed_of_standsFor h hg hgraph hflag hw₁ hoff hcompute hstand hstop
    (hbuilt.trans hitems) hown

end AfterReset

end Onlookers

/-! ## §4. Computations with a builder. -/

open Onlookers

/-- **What a builder lists is marked, up to the first item that names no edge.**  After the
reset all edges have the flag of the edges outside the tree.  If the builder lists ids and
views of the graph, and each of them names an edge, the computation comes to its end and
the edges that are named have the other flag, however often they are named.  Otherwise it
fails on the first item that names none, with a missing element or an id that cannot be
one, and the edges that are named before it are marked.

The edges from a node are told one at a time, so if the source of one cannot be compared
with it, those before it are marked.  An edge view lists its attributes 0, 1, 2, …, which
are marked likewise, and the computation fails at the first that is missing.  If the builder
fails itself, or what it answers cannot be gone through, no edge is marked. -/
theorem compute_marks_what_is_listed {host : Host} {g : GraphRef} {t : TreeRef}
    {calm : World → Prop} {graph : Graph} {tree : Tree} {w : World} {flag : Identifier}
    {builder : Builder Step} (h : Onlookers host g t calm) (hw : Scene g t calm graph tree w)
    (hg : graph.Coherent) (hgraph : tree.graph = some g) (hflag : tree.flagAttribute = flag.value)
    (hstrategy : tree.strategy = .custom) (hbuilder : tree.builder = some builder) :
    ∃ entry w₁, (resetNoted host t entry).exec w = (.ok (), w₁)
      ∧ MarksExactly g t calm graph tree flag [] w₁
      ∧ (∀ values : List Value, (∀ v ∈ values, v.IsIdOrViewOf g) →
        (callBuilder host t builder).exec w₁ = (.ok (values.map .ofValue), w₁) →
        MarksListed host g t calm graph tree flag w values (.ok ()))
      ∧ (∀ term node, builder.kind = .fromSource term →
        (host.play none builder.steps).exec w₁ = (.ok (), w₁) →
        (evaluate term).exec w₁ = (.ok node, w₁) →
        ((∀ e ∈ graph.edges.entries, ∃ same, e.2.source.value.equals node = .ok same) →
          Computes host g t calm graph tree flag w (.ok ())
            (viewsFrom g node graph.edges.entries))
        ∧ ∀ before e after fault, graph.edges.entries = before ++ e :: after →
          (∀ f ∈ before, ∃ same, f.2.source.value.equals node = .ok same) →
          e.2.source.value.equals node = .error fault →
          Computes host g t calm graph tree flag w (.error (.comparison fault))
            (viewsFrom g node before))
      ∧ (∀ term v, builder.kind = .answer term →
        (host.play none builder.steps).exec w₁ = (.ok (), w₁) →
        (evaluate term).exec w₁ = (.ok v, w₁) →
        (v.isIterable = false → (compute host t).exec w = (.error .notIterable, w₁))
        ∧ ∀ id source target, v = .edge g id source target →
          (¬graph.Finds v →
            Computes host g t calm graph tree flag w (.error (Graph.missingEdge id)) [])
          ∧ ∀ a values, graph.edgeAttributes id = .ok a →
            (∀ i : Nat, i ≤ values.length → a.get? (.int i) = values[i]? ∧ Key.int i ≠ flag.key) →
            (∀ v ∈ values, v.IsIdOrViewOf g) →
            MarksListed host g t calm graph tree flag w values (.error .missingKey))
      ∧ ∀ error, (callBuilder host t builder).exec w₁ = (.error error, w₁) →
        (compute host t).exec w = (.error error, w₁) := by
  obtain ⟨entry, w₁, graph₁, hreset, hw₁, hoff, hcompute⟩ :=
    h.exec_compute_custom hw hg hgraph hflag hstrategy hbuilder
  have hfails : ∀ error, (callBuilder host t builder).exec w₁ = (.error error, w₁) →
      (compute host t).exec w = (.error error, w₁) := by
    intro error hbuilt
    rw [hcompute]
    simp only [markChosen, Run.exec_bind, hbuilt]
  refine ⟨entry, w₁, hreset, ?_, ?_, ?_, ?_, hfails⟩
  · -- nothing is marked yet
    exact marksExactly_of_painted hw₁ (by simp) hoff (.writing_nil graph₁ flag tree.flagOn)
  · intro values hvalues hbuilt
    rw [← List.append_nil (values.map TreeItem.ofValue)] at hbuilt
    exact marksListed_of_standsFor h hg hgraph hflag hw₁ hoff hcompute
      (standsFor_ofValue t _ values) .nil hbuilt hvalues
  · intro term node hkind hsteps hnode
    have hbuilt := exec_callBuilder_fromSource hw₁ hgraph hsteps hkind hnode
    rw [hoff.edges] at hbuilt
    refine ⟨fun hcompared => ?_, fun before e after fault hsplit hcompared hfault => ?_⟩
    · rw [← List.append_nil (graph.edges.entries.map _)] at hbuilt
      exact computes_of_fromSource h hg hgraph hflag hw₁ hoff hcompute (List.Subset.refl _)
        hcompared .nil hbuilt
    · have he : e ∈ graph₁.edges.entries := by
        rw [hoff.edges, hsplit]
        exact List.mem_append_right before List.mem_cons_self
      have hentries : before ⊆ graph.edges.entries := by
        rw [hsplit]
        exact List.subset_append_left before _
      rw [hsplit, List.map_append, List.map_cons] at hbuilt
      exact computes_of_fromSource h hg hgraph hflag hw₁ hoff hcompute hentries hcompared
        (.of_fault he hfault) hbuilt
  · intro term v hkind hsteps hv
    have hbuilt := exec_callBuilder_answer t hsteps hkind hv
    refine ⟨fun hiterable => ?_, ?_⟩
    · refine hfails _ ?_
      rw [hbuilt, exec_itemsOfValue_of_not_iterable hiterable]
    · rintro id source target rfl
      exact ⟨fun hmissing =>
          computes_of_stale h hg hgraph hflag hw₁ hoff hcompute hmissing hbuilt,
        fun a values ha hvalues hown =>
          marksListed_of_edge h hg hgraph hflag hw₁ hoff hcompute ha hvalues hown hbuilt⟩

/-- A tree on the triangle with a builder that answers in a certain way. -/
def askingTree (kind : BuilderKind) : Tree :=
  { plainTree .custom .distance with builder := some ⟨[], kind⟩ }

/-- The triangle with this tree. -/
def askingWorld (kind : BuilderKind) : World :=
  { triangleWorld .custom .distance with trees := ⟨[askingTree kind]⟩ }

theorem scene_askingWorld (kind : BuilderKind) :
    Scene ⟨0⟩ ⟨0⟩ (AllPassive (Session.hostOfDepth 1) .empty (fun _ _ _ => []) ⟨0⟩) triangle
      (askingTree kind) (askingWorld kind) := by
  refine ⟨⟨Nat.one_pos, rfl, fun s hs => ?_⟩, rfl, rfl⟩
  rw [List.mem_singleton.1 hs]
  exact passive_silent 0 .empty 0

/-- A tree on the triangle with a builder that lists values. -/
def listingTree (values : List Value) : Tree := askingTree (.answer (.value (.list values)))

theorem flag_listingTree (values : List Value) :
    (listingTree values).flagAttribute = (Identifier.ofText "SpanningTree.flag").value := rfl

/-- The triangle with this tree. -/
def listingWorld (values : List Value) : World := askingWorld (.answer (.value (.list values)))

/-- A view of an edge from the first node to the second, be it there or not. -/
def viewOnTriangle (id : String) : Value := .edge ⟨0⟩ (.str id) (.int 1) (.int 2)

/-- One edge twice, and a view of another one. -/
def listedTwice : List Value := [.str "out", viewOnTriangle "home", .str "out"]

/-- After these, a view of an edge that has been removed, and an edge that is there. -/
def listedStale : List Value := listedTwice ++ [viewOnTriangle "gone", .str "next"]

theorem compute_marks_what_is_listed_triangle :
    (∃ w', (compute (Session.hostOfDepth 1) ⟨0⟩).exec (listingWorld listedTwice) = (.ok (), w')
      ∧ MarksExactly ⟨0⟩ ⟨0⟩ (AllPassive (Session.hostOfDepth 1) .empty (fun _ _ _ => []) ⟨0⟩)
        triangle (listingTree listedTwice) (.ofText "SpanningTree.flag") listedTwice w')
    ∧ (∃ w', (compute (Session.hostOfDepth 1) ⟨0⟩).exec (listingWorld listedStale)
        = (.error (.edgeNotFound (.str "gone")), w')
      ∧ MarksExactly ⟨0⟩ ⟨0⟩ (AllPassive (Session.hostOfDepth 1) .empty (fun _ _ _ => []) ⟨0⟩)
        triangle (listingTree listedStale) (.ofText "SpanningTree.flag") listedTwice w')
    ∧ Computes (Session.hostOfDepth 1) ⟨0⟩ ⟨0⟩
        (AllPassive (Session.hostOfDepth 1) .empty (fun _ _ _ => []) ⟨0⟩) triangle
        (askingTree (.fromSource (.value (.int 1)))) (.ofText "SpanningTree.flag")
        (askingWorld (.fromSource (.value (.int 1)))) (.ok ())
        (viewsFrom ⟨0⟩ (.int 1) triangle.edges.entries) := by
  have hfinds : ∀ v ∈ listedTwice, triangle.Finds v := by
    unfold Graph.Finds
    decide +kernel
  have hgone : ¬triangle.Finds (viewOnTriangle "gone") := by
    unfold Graph.Finds
    decide +kernel
  obtain ⟨_, _, _, _, htwice, -⟩ := compute_marks_what_is_listed (onlookers_allPassive _ _ _ _ _)
    (scene_askingWorld _) reachable_triangle.coherent rfl (flag_listingTree listedTwice) rfl rfl
  obtain ⟨_, _, _, _, hstale, -⟩ := compute_marks_what_is_listed (onlookers_allPassive _ _ _ _ _)
    (scene_askingWorld _) reachable_triangle.coherent rfl (flag_listingTree listedStale) rfl rfl
  obtain ⟨_, _, _, _, -, hasked, -⟩ := compute_marks_what_is_listed (onlookers_allPassive _ _ _ _ _)
    (scene_askingWorld (.fromSource (.value (.int 1)))) reachable_triangle.coherent rfl
    (flag_listingTree []) rfl rfl
  refine ⟨(htwice listedTwice ?_ rfl).of_found hfinds,
    (hstale listedStale ?_ rfl).of_missing _ _ _ rfl hfinds hgone, (hasked _ _ rfl rfl rfl).1 ?_⟩
  · simp [listedTwice, Value.IsIdOrViewOf, viewOnTriangle]
  · simp [listedStale, listedTwice, Value.IsIdOrViewOf, viewOnTriangle]
  · decide +kernel

end EvolvingGraph
