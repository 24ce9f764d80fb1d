/-
  EvolvingGraph.Proofs.Marking.Items
  ──────────────────────────────────
  **WHAT ITEMS COME TO WHILE EDGES ARE MARKED.**

  A builder lists ids and edge views, in any mixture and as often as it likes.  An
  id is looked up when its turn comes, a view is taken as it is; so a view whose edge
  has been removed is only found out when its edge is to be marked, and one whose id is
  in use again stands for the edge that has the id now.  Either way what counts is the
  id: marking goes on as long as the graph has an edge with it, and stops at the first
  one that it has no edge for.

  Some builders list lazily: whether an edge counts, or which one is meant, is only
  settled when its turn comes.  But all that has changed by then is the flags of edges,
  so a lazy list comes to the same as one that is settled at once.

  Main statements:
    * `Lists` — the values that items come to, and the error that ends them;
    * `Onlookers.exec_markItems_of_lists` — what comes of items is marked one by one;
    * `Lists.until_missing` — an item that names no edge ends the list;
    * `Lists.fromSource`, `Lists.attributes` — the lists that are lazy.
-/
import EvolvingGraph.Proofs.Marking.Compute

namespace EvolvingGraph

/-! ## §1. Ids and views. -/

namespace Value

/-- The id that an edge is found by: a view has that of its edge, all else is one. -/
def listedId : Value → Value
  | .edge _ id _ _ => id
  | id => id

/-- Whether a value in a list of edges stands for an edge. -/
def names (v : Value) (e : EdgeEntry) : Bool := v.listedId.key? == some e.1.key

/-- An id, or a view of an edge of the given graph. -/
def IsIdOrViewOf (g : GraphRef) : Value → Prop
  | .edge x _ _ _ => x = g
  | _ => True

theorem names_iff {v : Value} {e : EdgeEntry} :
    v.names e = true ↔ v.listedId.key? = some e.1.key := beq_iff_eq

end Value

namespace Graph

variable {g g' : Graph} {id : Value}

/-- Whether a value in a list of edges stands for an edge of the graph. -/
def Finds (g : Graph) (v : Value) : Prop := ∃ e ∈ g.edges.entries, v.names e = true

/-- Attributes make no difference to what is an edge. -/
theorem Painted.finds_iff {paint : EdgeEntry → Attributes → Attributes} (h : g.Painted g' paint)
    (v : Value) : g'.Finds v ↔ g.Finds v := by
  unfold Finds
  rw [h.edges]

theorem key?_ne_of_not_finds {v : Value} (h : ¬g.Finds v) :
    ∀ e ∈ g.edges.entries, v.listedId.key? ≠ some e.1.key :=
  fun e he hkey => h ⟨e, he, Value.names_iff.2 hkey⟩

/-- What is wrong with an id that no edge has. -/
def missingEdge (id : Value) : Error :=
  match id.key? with
  | some _ => .edgeNotFound id
  | none => .unhashable

theorem kind_missingEdge (id : Value) : (missingEdge id).kind
    = if id.key?.isSome then .elementNotFound else .type := by
  unfold missingEdge
  cases id.key? <;> rfl

theorem endpoints_of_missing (h : ∀ e ∈ g.edges.entries, id.key? ≠ some e.1.key) :
    g.endpoints id = .error (missingEdge id) := by
  unfold endpoints keyOf missingEdge
  cases hk : id.key? with
  | none => rfl
  | some k =>
    have hget : g.edges.get? k = none := by
      rw [Option.eq_none_iff_forall_ne_some]
      intro ends hends
      obtain ⟨name, hmem, rfl⟩ := Catalog.get?_eq_some_iff.1 hends
      exact h _ hmem hk
    simp only [hget, bind, Except.bind]
    rfl

/-- An edge that is not there has no attributes. -/
theorem edgeAttributes_of_missing (h : ∀ e ∈ g.edges.entries, id.key? ≠ some e.1.key) :
    g.edgeAttributes id = .error (missingEdge id) := by
  unfold edgeAttributes
  rw [endpoints_of_missing h]
  rfl

/-- An attribute of an edge that is not there cannot be set. -/
theorem setAttribute_of_missing (h : ∀ e ∈ g.edges.entries, id.key? ≠ some e.1.key)
    (name v : Value) : g.setAttribute .edge id name v = .error (missingEdge id) := by
  show ((g.endpoints id >>= _) >>= _) = _
  rw [endpoints_of_missing h]
  rfl

/-- An edge is found through whatever value names it. -/
theorem endpoints_of_key {e : EdgeEntry} (he : e ∈ g.edges.entries)
    (hid : id.key? = some e.1.key) : g.endpoints id = g.endpoints e.1.value := by
  rw [Coherent.endpoints_of_mem he]
  exact endpoints_eq_ok_iff.2 ⟨e.1.key, hid, Catalog.get?_of_mem he⟩

theorem edgeAttributes_of_key {e : EdgeEntry} (he : e ∈ g.edges.entries)
    (hid : id.key? = some e.1.key) : g.edgeAttributes id = g.edgeAttributes e.1.value := by
  unfold edgeAttributes
  rw [endpoints_of_key he hid]

/-- What is painted is seen through every value that names the edge. -/
theorem Painted.exists_edgeAttributes {paint : EdgeEntry → Attributes → Attributes}
    (h : g.Painted g' paint) {a : Attributes} (ha : g.edgeAttributes id = .ok a) :
    ∃ e ∈ g.edges.entries, id.key? = some e.1.key ∧ g'.edgeAttributes id = .ok (paint e a) := by
  obtain ⟨ends, _, hends, -, -⟩ := edgeAttributes_eq_ok_iff.1 ha
  obtain ⟨k, hid, hget⟩ := endpoints_eq_ok_iff.1 hends
  obtain ⟨name, he, rfl⟩ := Catalog.get?_eq_some_iff.1 hget
  refine ⟨_, he, hid, ?_⟩
  rw [edgeAttributes_of_key he hid] at ha
  rw [edgeAttributes_of_key (h.edges ▸ he) hid]
  exact h.attributes _ he a ha

/-- An attribute of an edge is set through whatever value names the edge. -/
theorem Coherent.painted_setAttribute_of_key (hg : g.Coherent) {e : EdgeEntry}
    (he : e ∈ g.edges.entries) (hid : id.key? = some e.1.key) (name : Identifier) (v : Value) :
    ∃ g' event, g.Takes (.setAttribute .edge id name.value v) g' event
      ∧ g.Painted g' (writing name v [e.1]) := by
  obtain ⟨g', event, htakes, hpainted⟩ := hg.painted_setAttribute he name v
  have hends := endpoints_of_key he hid
  obtain ⟨a, hread, name', hname, g'', hput, hresult⟩ :=
    setAttribute_eq_ok_iff.1 (ofExcept_eq_ok_iff.1 (apply_eq_some_iff.2 htakes))
  obtain rfl : g'' = g' := congrArg Prod.fst hresult
  have hread' : g.attributesOf .edge id = .ok a := by
    rw [← hread]
    show (g.endpoints id >>= _) = _
    rw [hends]
    rfl
  have hput' : g.putAttributes .edge id (a.insert name' v) = .ok g'' := by
    rw [← hput]
    show (g.endpoints id >>= _) = _
    rw [hends]
    rfl
  rw [← hname]
  refine ⟨g'', _, .setAttribute hread' hput', hpainted.congr fun f _ b => ?_⟩
  simp [writing]

end Graph

/-! ## §2. Marking one item. -/

/-- What the first item stands for is marked, then the others are. -/
theorem exec_markItems_cons {host : Host} {t : TreeRef} {item : TreeItem} {e : EdgeView}
    {w w' : World} (hfound : (resolveItem t item).exec w = (.ok (some e), w))
    (hmark : (markOn host t e).exec w = (.ok (), w')) (rest : List TreeItem) :
    (markItems host t (item :: rest)).exec w = ((· + 1) <$> markItems host t rest).exec w' := by
  simp only [markItems, map_eq_pure_bind, Run.exec_bind, hfound, hmark]

namespace Onlookers

variable {host : Host} {g : GraphRef} {t : TreeRef} {calm : World → Prop} {graph graph' : Graph}
  {tree : Tree} {w : World} {flag : Identifier} {v : Value} {e : EdgeView}

/-- An edge is marked through any view that has its id. -/
theorem exec_markOn (h : Onlookers host g t calm) (hw : Scene g t calm graph tree w)
    (hg : graph.Coherent) (hflag : tree.flagAttribute = flag.value) (hown : e.graph = g)
    {f : EdgeEntry} (hf : f ∈ graph.edges.entries) (hid : e.id.key? = some f.1.key) :
    ∃ w' graph', (markOn host t e).exec w = (.ok (), w') ∧ Scene g t calm graph' tree w'
      ∧ graph.Painted graph' (Graph.writing flag tree.flagOn [f.1]) := by
  obtain ⟨graph', event, htakes, hpainted⟩ :=
    hg.painted_setAttribute_of_key hf hid flag tree.flagOn
  obtain ⟨w', hexec, hscene⟩ := h.exec_commit hw htakes
  refine ⟨w', graph', ?_, hscene, hpainted⟩
  unfold markOn setOnView
  simp only [Run.exec_bind, Run.exec_tree, hw.tree_eq, hown, hflag]
  exact hexec

/-- A view whose id no edge has cannot be marked. -/
theorem exec_markOn_missing (hw : Scene g t calm graph tree w) (hown : e.graph = g)
    (hmissing : ∀ f ∈ graph.edges.entries, e.id.key? ≠ some f.1.key) :
    (markOn host t e).exec w = (.error (Graph.missingEdge e.id), w) := by
  have happly : (w.objectAt g).graph.apply
        (.setAttribute .edge e.id tree.flagAttribute tree.flagOn)
      = ((w.objectAt g).graph, .error (Graph.missingEdge e.id)) := by
    rw [hw.graph_eq]
    show Graph.Outcome.ofExcept graph (graph.setAttribute _ _ _ _) = _
    rw [Graph.setAttribute_of_missing hmissing]
    rfl
  unfold markOn setOnView
  simp only [Run.exec_bind, Run.exec_tree, hw.tree_eq, hown, EvolvingGraph.exec_commit, happly]
  rw [World.put_self]

theorem exec_named (hw : Scene g t calm graph tree w) (hgraph : tree.graph = some g)
    (id : Value) : (resolveItem t (.named id)).exec w
      = match graph.endpoints id with
        | .ok ends => (.ok (some ⟨g, id, ends.source.value, ends.target.value⟩), w)
        | .error error => (.error error, w) := by
  simp only [resolveItem, treeGraph, lookUp, Run.exec_bind, Run.exec_tree, hw.tree_eq, hgraph,
    Run.exec_pure, Run.exec_graph, hw.graph_eq, Run.exec_ofExcept, Graph.view]
  cases graph.endpoints id <;> rfl

/-- A value that names an edge stands for a view with its id. -/
theorem exec_resolveItem (hw : Scene g t calm graph tree w) (hgraph : tree.graph = some g)
    (hv : v.IsIdOrViewOf g) {f : EdgeEntry} (hf : f ∈ graph.edges.entries)
    (hnames : v.names f = true) :
    ∃ e, e.graph = g ∧ e.id = v.listedId
      ∧ (resolveItem t (.ofValue v)).exec w = (.ok (some e), w) := by
  have hends : graph.endpoints v.listedId = .ok f.2 :=
    Graph.endpoints_eq_ok_iff.2 ⟨f.1.key, Value.names_iff.1 hnames, Catalog.get?_of_mem hf⟩
  cases v with
  | edge x id source target => exact ⟨⟨x, id, source, target⟩, hv, rfl, rfl⟩
  | _ =>
    refine ⟨⟨g, _, f.2.source.value, f.2.target.value⟩, rfl, rfl, ?_⟩
    rw [TreeItem.ofValue, exec_named hw hgraph]
    · simp only [Value.listedId] at hends
      rw [hends]
    · simp

/-- **An item that names no edge stops the marking, and nothing comes of it.** -/
theorem exec_markItems_missing (hw : Scene g t calm graph tree w) (hgraph : tree.graph = some g)
    (hv : v.IsIdOrViewOf g) (hmissing : ¬graph.Finds v) (rest : List TreeItem) :
    (markItems host t (.ofValue v :: rest)).exec w
      = (.error (Graph.missingEdge v.listedId), w) := by
  have hnone := Graph.key?_ne_of_not_finds hmissing
  cases v with
  | edge x id source target =>
    have hmark : (markOn host t ⟨x, id, source, target⟩).exec w
        = (.error (Graph.missingEdge id), w) := exec_markOn_missing hw hv hnone
    simp only [markItems, TreeItem.ofValue, resolveItem, Run.exec_bind, Run.exec_pure, hmark]
    rfl
  | _ =>
    have hends := Graph.endpoints_of_missing hnone
    simp only [Value.listedId] at hends
    simp only [markItems, TreeItem.ofValue, Run.exec_bind, exec_named hw hgraph, hends,
      Value.listedId]

end Onlookers

/-! ## §3. Lists of items. -/

/-- Whether an item comes to the same as a value, in all worlds of a kind. -/
def TreeItem.StandsFor (t : TreeRef) (during : World → Prop) (item : TreeItem) (v : Value) : Prop :=
  ∀ w, during w → (resolveItem t item).exec w = (resolveItem t (.ofValue v)).exec w

/-- What items come to if each is taken in a world of a kind: the values that are listed,
in order, and the error that ends the list, if one does. -/
inductive Lists (host : Host) (t : TreeRef) (during : World → Prop) :
    List TreeItem → List Value → Option Error → Prop where
  | nil : Lists host t during [] [] none
  | listed {item : TreeItem} {v : Value} {rest : List TreeItem} {values : List Value}
      {ending : Option Error} (hitem : item.StandsFor t during v)
      (hrest : Lists host t during rest values ending) :
      Lists host t during (item :: rest) (v :: values) ending
  | skipped {item : TreeItem} {rest : List TreeItem} {values : List Value}
      {ending : Option Error} (hitem : ∀ w, during w → (resolveItem t item).exec w = (.ok none, w))
      (hrest : Lists host t during rest values ending) :
      Lists host t during (item :: rest) values ending
  | stopped {item : TreeItem} {rest : List TreeItem} {error : Error}
      (hitem : ∀ w, during w → (markItems host t (item :: rest)).exec w = (.error error, w)) :
      Lists host t during (item :: rest) [] (some error)

theorem Lists.append {host : Host} {t : TreeRef} {during : World → Prop}
    {items rest : List TreeItem} {values values' : List Value} {ending : Option Error}
    (hitems : List.Forall₂ (TreeItem.StandsFor t during) items values)
    (hrest : Lists host t during rest values' ending) :
    Lists host t during (items ++ rest) (values ++ values') ending := by
  induction hitems with
  | nil => exact hrest
  | cons hitem _ ih => exact .listed hitem ih

/-- Ids and views stand for themselves. -/
theorem standsFor_ofValue (t : TreeRef) (during : World → Prop) (values : List Value) :
    List.Forall₂ (TreeItem.StandsFor t during) (values.map .ofValue) values := by
  induction values with
  | nil => exact .nil
  | cons v values ih => exact .cons (fun _ _ => rfl) ih

/-- A world in which a tree has marked some edges of a graph and has done nothing else. -/
def HasMarked (g : GraphRef) (t : TreeRef) (calm : World → Prop) (graph : Graph) (tree : Tree)
    (flag : Identifier) (w : World) : Prop :=
  ∃ graph' ids, Scene g t calm graph' tree w
    ∧ graph.Painted graph' (Graph.writing flag tree.flagOn ids)

section Marking

variable {host : Host} {g : GraphRef} {t : TreeRef} {calm : World → Prop} {graph graph' : Graph}
  {tree : Tree} {w : World} {flag : Identifier} {items rest : List TreeItem}
  {values : List Value} {ending : Option Error}

/-- **What items come to is marked, one edge after the other, until the list ends.** -/
theorem Onlookers.exec_markItems_of_lists (h : Onlookers host g t calm) (hg : graph.Coherent)
    (hgraph : tree.graph = some g) (hflag : tree.flagAttribute = flag.value)
    (hlists : Lists host t (HasMarked g t calm graph tree flag) items values ending)
    (hvalues : ∀ v ∈ values, v.IsIdOrViewOf g) (hfound : ∀ v ∈ values, graph.Finds v)
    {ids : List Identifier} (hw : Scene g t calm graph' tree w)
    (hpainted : graph.Painted graph' (Graph.writing flag tree.flagOn ids)) :
    ∃ w' graph'', (markItems host t items).exec w = (ending.elim (.ok values.length) .error, w')
      ∧ Scene g t calm graph'' tree w' ∧ graph.Painted graph''
        (Graph.writing flag tree.flagOn (ids ++ values.map (·.listedId.asName))) := by
  induction hlists generalizing w graph' ids with
  | nil =>
    refine ⟨w, graph', rfl, hw, ?_⟩
    rwa [List.map_nil, List.append_nil]
  | @listed item v rest values ending hitem _ ih =>
    obtain ⟨hv, hvalues⟩ := List.forall_mem_cons.1 hvalues
    obtain ⟨⟨f, hf, hnames⟩, hfound⟩ := List.forall_mem_cons.1 hfound
    rw [← hpainted.edges] at hf
    obtain ⟨e, hown, hid, hresolve⟩ := exec_resolveItem hw hgraph hv hf hnames
    rw [← hitem w ⟨graph', ids, hw, hpainted⟩] at hresolve
    -- what is marked is the edge with the id of the value, whatever the value shows
    have hkey := Value.names_iff.1 hnames
    obtain ⟨w₁, graph₁, hmark, hw₁, hpainted₁⟩ :=
      h.exec_markOn hw (hg.of_sameShape hpainted.sameShape) hflag hown hf (hid ▸ hkey)
    have hname : Graph.writing flag tree.flagOn [f.1]
        = Graph.writing flag tree.flagOn [v.listedId.asName] := by
      unfold Graph.writing
      rw [List.map_singleton, List.map_singleton, Value.asName_key hkey]
    have hpainted' : graph.Painted graph₁
        (Graph.writing flag tree.flagOn (ids ++ [v.listedId.asName])) := by
      refine (hpainted.trans hpainted₁).congr fun e' _ a => ?_
      rw [hname, Graph.writing_append]
    obtain ⟨w₂, graph₂, hrest, hw₂, hpainted₂⟩ := ih hvalues hfound hw₁ hpainted'
    refine ⟨w₂, graph₂, ?_, hw₂, ?_⟩
    · rw [exec_markItems_cons hresolve hmark, Run.exec_map, hrest]
      cases ending <;> rfl
    · rwa [List.append_assoc] at hpainted₂
  | skipped hitem _ ih =>
    obtain ⟨w', graph'', hrest, hw', hpainted'⟩ := ih hvalues hfound hw hpainted
    refine ⟨w', graph'', ?_, hw', hpainted'⟩
    simp only [markItems, Run.exec_bind, hitem w ⟨graph', ids, hw, hpainted⟩, hrest]
  | stopped hitem =>
    refine ⟨w, graph', hitem w ⟨graph', ids, hw, hpainted⟩, hw, ?_⟩
    rwa [List.map_nil, List.append_nil]

/-- **An item that names no edge ends the list.** -/
theorem Lists.until_missing (hgraph : tree.graph = some g) {before after : List Value} {bad : Value}
    (hitems : List.Forall₂ (TreeItem.StandsFor t (HasMarked g t calm graph tree flag)) items
      (before ++ bad :: after))
    (hbad : bad.IsIdOrViewOf g) (hmissing : ¬graph.Finds bad) (rest : List TreeItem) :
    Lists host t (HasMarked g t calm graph tree flag) (items ++ rest) before
      (some (Graph.missingEdge bad.listedId)) := by
  -- items go with values one to one, so the bad value is reached by its own item
  induction before generalizing items with
  | nil =>
    cases hitems with
    | @cons item _ items _ hitem _ =>
      refine .stopped fun w hw => ?_
      obtain ⟨graph', ids, hscene, hpainted⟩ := hw
      have hmissing' := mt (hpainted.finds_iff bad).1 hmissing
      have hstop : (markItems host t (.ofValue bad :: (items ++ rest))).exec w = _ :=
        Onlookers.exec_markItems_missing hscene hgraph hbad hmissing' _
      simp only [markItems, Run.exec_bind] at hstop
      simp only [List.append_eq, markItems, Run.exec_bind,
        hitem w ⟨graph', ids, hscene, hpainted⟩, hstop]
  | cons v before ih =>
    cases hitems with
    | cons hitem hitems => exact .listed hitem (ih hitems)

/-! ## §4. Lists that are lazy. -/

/-- Whether the source of an edge equals a node. -/
def EdgeEntry.comesFrom (node : Value) (e : EdgeEntry) : Bool :=
  match e.2.source.value.equals node with
  | .ok same => same
  | .error _ => false

/-- The views of the edges that come from a node. -/
def viewsFrom (g : GraphRef) (node : Value) (entries : List EdgeEntry) : List Value :=
  (entries.filter (EdgeEntry.comesFrom node)).map fun e =>
    .edge g e.1.value e.2.source.value e.2.target.value

theorem forall_viewsFrom {entries : List EdgeEntry} (hentries : entries ⊆ graph.edges.entries)
    (node : Value) : ∀ v ∈ viewsFrom g node entries, v.IsIdOrViewOf g ∧ graph.Finds v := by
  intro v hv
  obtain ⟨e, he, rfl⟩ := List.mem_map.1 hv
  exact ⟨rfl, e, hentries (List.mem_of_mem_filter he), Value.names_iff.2 e.1.key?_value⟩

theorem exec_fromSource (hw : Scene g t calm graph tree w) {e : EdgeEntry}
    (he : e ∈ graph.edges.entries) (node : Value) :
    (resolveItem t (.fromSource g e.1 node)).exec w
      = match e.2.source.value.equals node with
        | .ok true => (.ok (some ⟨g, e.1.value, e.2.source.value, e.2.target.value⟩), w)
        | .ok false => (.ok none, w)
        | .error fault => (.error (.comparison fault), w) := by
  simp only [resolveItem, Run.exec_bind, Run.exec_graph, hw.graph_eq, Catalog.contains_of_mem he,
    if_true, Onlookers.view_eq he, Run.exec_ofExcept]
  rcases e.2.source.value.equals node with fault | _ | _ <;> rfl

/-- **The edges that come from a node are listed as views.** -/
theorem Lists.fromSource {entries : List EdgeEntry} (hentries : entries ⊆ graph.edges.entries)
    {node : Value} (hcompared : ∀ e ∈ entries, ∃ same, e.2.source.value.equals node = .ok same)
    (hrest : Lists host t (HasMarked g t calm graph tree flag) rest [] ending) :
    Lists host t (HasMarked g t calm graph tree flag)
      (entries.map (fun e => .fromSource g e.1 node) ++ rest) (viewsFrom g node entries)
      ending := by
  induction entries with
  | nil => exact hrest
  | cons e entries ih =>
    obtain ⟨he, hentries⟩ := List.cons_subset.1 hentries
    obtain ⟨⟨same, hsame⟩, hcompared⟩ := List.forall_mem_cons.1 hcompared
    have hitem : ∀ w, HasMarked g t calm graph tree flag w →
        (resolveItem t (.fromSource g e.1 node)).exec w = (.ok (if same then
          some ⟨g, e.1.value, e.2.source.value, e.2.target.value⟩ else none), w) := by
      intro w ⟨graph', ids, hw, hpainted⟩
      rw [exec_fromSource hw (hpainted.edges ▸ he), hsame]
      cases same <;> rfl
    have hcomes : EdgeEntry.comesFrom node e = same := by
      unfold EdgeEntry.comesFrom
      rw [hsame]
    unfold viewsFrom
    cases same with
    | true =>
      rw [List.filter_cons_of_pos hcomes]
      exact .listed hitem (ih hentries hcompared)
    | false =>
      rw [List.filter_cons_of_neg (by rw [hcomes]; decide)]
      exact .skipped hitem (ih hentries hcompared)

/-- The list ends at an edge whose source cannot be compared with the node. -/
theorem Lists.of_fault {e : EdgeEntry} (he : e ∈ graph.edges.entries) {node : Value}
    {fault : ComparisonFault} (hfault : e.2.source.value.equals node = .error fault) :
    Lists host t (HasMarked g t calm graph tree flag) (.fromSource g e.1 node :: rest) []
      (some (.comparison fault)) := by
  refine .stopped fun w hw => ?_
  obtain ⟨graph', ids, hw, hpainted⟩ := hw
  simp only [markItems, Run.exec_bind, exec_fromSource hw (hpainted.edges ▸ he), hfault]

/-- An edge is gone through by the attributes that it has at the time. -/
theorem exec_attributeAt (hw : Scene g t calm graph tree w) {e : EdgeView} (hown : e.graph = g)
    {a : Attributes} (ha : graph.edgeAttributes e.id = .ok a) (i : Nat) :
    (resolveItem t (.attributeAt e i)).exec w
      = match a.get? (.int i) with
        | some v => (resolveItem t (.ofValue v)).exec w
        | none => (.error .missingKey, w) := by
  subst hown
  simp only [resolveItem, Run.exec_bind, Run.exec_graph, hw.graph_eq, Run.exec_ofExcept, ha]
  cases a.get? (.int i) with
  | none => rfl
  | some v => cases v <;> rfl

/-- A view of an edge that is not there lists nothing: its attributes cannot be read. -/
theorem Lists.of_stale (e : EdgeView) (hown : e.graph = g)
    (hmissing : ∀ f ∈ graph.edges.entries, e.id.key? ≠ some f.1.key) (i : Nat) :
    Lists host t (HasMarked g t calm graph tree flag) (.attributeAt e i :: rest) []
      (some (Graph.missingEdge e.id)) := by
  refine .stopped fun w hw => ?_
  obtain ⟨graph', ids, hw, hpainted⟩ := hw
  rw [← hpainted.edges] at hmissing
  subst hown
  simp only [markItems, resolveItem, Run.exec_bind, Run.exec_graph, hw.graph_eq,
    Graph.edgeAttributes_of_missing hmissing, Run.exec_ofExcept]

/-- Attributes that are no flags are the same, however many edges have been marked. -/
theorem HasMarked.exec_attributeAt (hw : HasMarked g t calm graph tree flag w) {e : EdgeView}
    (hown : e.graph = g) {a : Attributes} (ha : graph.edgeAttributes e.id = .ok a) {i : Nat}
    (hi : Key.int i ≠ flag.key) :
    (resolveItem t (.attributeAt e i)).exec w
      = match a.get? (.int i) with
        | some v => (resolveItem t (.ofValue v)).exec w
        | none => (.error .missingKey, w) := by
  obtain ⟨graph', ids, hscene, hpainted⟩ := hw
  obtain ⟨f, -, -, ha'⟩ := hpainted.exists_edgeAttributes ha
  rw [EvolvingGraph.exec_attributeAt hscene hown ha', Graph.get?_writing hi]

/-- **An edge view lists its attributes 0, 1, 2, …, up to the first that is missing.** -/
theorem Lists.attributes (e : EdgeView) (hown : e.graph = g) {a : Attributes}
    (ha : graph.edgeAttributes e.id = .ok a)
    (hvalues : ∀ i ≤ values.length, a.get? (.int i) = values[i]? ∧ Key.int i ≠ flag.key) :
    List.Forall₂ (TreeItem.StandsFor t (HasMarked g t calm graph tree flag))
        ((List.range values.length).map (.attributeAt e)) values
      ∧ Lists host t (HasMarked g t calm graph tree flag)
        (.attributeAt e values.length :: rest) [] (some .missingKey) := by
  constructor
  · refine List.forall₂_iff_get.2 ⟨by simp, fun i hi hi' w hw => ?_⟩
    obtain ⟨hget, hflag⟩ := hvalues i hi'.le
    rw [List.getElem?_eq_getElem hi'] at hget
    simp only [List.get_eq_getElem, List.getElem_map, List.getElem_range]
    rw [hw.exec_attributeAt hown ha hflag, hget]
  · refine .stopped fun w hw => ?_
    obtain ⟨hget, hflag⟩ := hvalues values.length le_rfl
    rw [List.getElem?_eq_none le_rfl] at hget
    simp only [markItems, Run.exec_bind, hw.exec_attributeAt hown ha hflag, hget]

end Marking

end EvolvingGraph
