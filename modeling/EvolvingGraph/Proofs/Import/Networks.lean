/-
  EvolvingGraph.Proofs.Import.Networks
  ────────────────────────────────────
  **A NETWORK READ AS A GRAPH, AND WRITTEN AGAIN.**

  A network knows its links by their ends alone.  Read as a graph, a link becomes
  an edge whose id is its attribute `id`, or the pair of its ends if it has no
  such attribute.  These ids share one space, and two links may come to the same
  id; that is the only thing that can go wrong.  If all ids differ, the graph
  has the nodes of the network, and its links in the order of their listing,
  without the attribute that became the id.

  Main statements:
    * `simple_ofLists` — what lists of nodes and links describe is a simple network;
    * `ofNetwork_roundTrip` — equal ids are refused, and all else is kept.
-/
import EvolvingGraph.Proofs.Graph.Construction
import EvolvingGraph.Proofs.Graph.Frame
import EvolvingGraph.Proofs.Graph.Listing
import EvolvingGraph.Proofs.Value.Comparison

namespace EvolvingGraph

/-! ## §1. Ids that are equal. -/

/-- A value that can be a name and has a NaN in it. -/
def Value.HasNaN (v : Value) : Prop := ∃ k, v.key? = some k ∧ k.isNaNFree = false

/-- Two ids are equal: the comparison says so; or they have a NaN in them, which
is not equal to itself, and are the same otherwise. -/
def Value.SameId (v w : Value) : Prop :=
  v.equals w = .ok true ∨ (v.HasNaN ∧ v.key? = w.key?)

theorem Value.sameId_iff {v w : Value} {k k' : Key} (hv : v.key? = some k)
    (hw : w.key? = some k') : v.SameId w ↔ k = k' := by
  have hkeys : v.key? = w.key? ↔ k = k' := by rw [hv, hw, Option.some.injEq]
  constructor
  · rintro (h | ⟨-, h⟩)
    · exact hkeys.1 (key?_eq_of_equals v w h)
    · exact hkeys.1 h
  · rintro rfl
    cases hfree : k.isNaNFree with
    | true => exact .inl (by rw [equals_eq_decide hv hw hfree, decide_eq_true rfl])
    | false => exact .inr ⟨⟨k, hv, hfree⟩, hkeys.2 rfl⟩

/-! ## §2. Simple networks. -/

theorem Attributes.NamedOutside.erase {a : Attributes} {reserved : List String}
    (h : NamedOutside a reserved) (k : Key) : NamedOutside (Catalog.erase a k) reserved :=
  fun name hname => h name (List.map_subset _ (List.filter_subset_self _) hname)

namespace Network

/-- The ends of a link are nodes, no two links join one pair, and "nothing" is
no node. -/
structure Simple (n : Network) : Prop where
  source_mem : ∀ l ∈ n.links, n.nodes.contains l.source.key = true
  target_mem : ∀ l ∈ n.links, n.nodes.contains l.target.key = true
  apart : n.links.Pairwise fun l m => ¬l.endpoints.SamePair n.directed m.endpoints
  named : ∀ name ∈ n.nodes.identifiers, name.value.isNull = false

variable {n : Network}

theorem simple_empty (directed : Bool) : (empty directed).Simple where
  source_mem := by simp [empty]
  target_mem := by simp [empty]
  apart := List.Pairwise.nil
  named := by simp [empty, Catalog.empty, Catalog.identifiers]

theorem mem_identifiers_insert {α : Type} {c : Catalog α} {name other : Identifier} {a : α}
    (h : other ∈ (c.insert name a).identifiers) : other ∈ c.identifiers ∨ other = name := by
  cases hcontains : c.contains name.key with
  | true =>
    rw [Graph.identifiers_insert_of_contains hcontains] at h
    exact .inl h
  | false =>
    unfold Catalog.identifiers at h ⊢
    rw [Catalog.entries_insert_of_not_contains hcontains, List.map_append, List.mem_append] at h
    exact h.imp_right List.mem_singleton.1

theorem contains_mergeNode {id : Identifier} {attributes : Attributes} {k : Key}
    (h : n.nodes.contains k = true) : (n.mergeNode id attributes).nodes.contains k = true := by
  show (n.nodes.insert id _).contains k = true
  rw [Catalog.contains_insert, h, Bool.or_true]

theorem contains_mergeNode_self (n : Network) (id : Identifier) (attributes : Attributes) :
    (n.mergeNode id attributes).nodes.contains id.key = true := by
  show (n.nodes.insert id _).contains id.key = true
  rw [Catalog.contains_insert, decide_eq_true rfl, Bool.true_or]

theorem Simple.mergeNode (h : n.Simple) {id : Identifier} (hid : id.value.isNull = false)
    (attributes : Attributes) : (n.mergeNode id attributes).Simple where
  source_mem := fun l hl => contains_mergeNode (h.source_mem l hl)
  target_mem := fun l hl => contains_mergeNode (h.target_mem l hl)
  apart := h.apart
  named := by
    intro name hname
    obtain hname | rfl := mem_identifiers_insert hname
    · exact h.named name hname
    · exact hid

/-- Attributes of links can be changed. -/
theorem Simple.modifyLink (h : n.Simple) (a b : Key) (f : Attributes → Attributes) :
    (n.modifyLink a b f).Simple := by
  -- the links have the ends that they had
  have hends : (n.modifyLink a b f).links.map Link.endpoints = n.links.map Link.endpoints := by
    refine List.map_map.trans (List.map_congr_left fun l _ => ?_)
    show Link.endpoints (if _ then _ else l) = _
    split <;> rfl
  have hmem : ∀ l ∈ (n.modifyLink a b f).links, ∃ m ∈ n.links, m.endpoints = l.endpoints :=
    fun l hl => List.mem_map.1 (hends ▸ List.mem_map_of_mem hl)
  constructor
  · intro l hl
    obtain ⟨m, hm, heq⟩ := hmem l hl
    exact congrArg (fun e => n.nodes.contains e.source.key) heq ▸ h.source_mem m hm
  · intro l hl
    obtain ⟨m, hm, heq⟩ := hmem l hl
    exact congrArg (fun e => n.nodes.contains e.target.key) heq ▸ h.target_mem m hm
  · have hapart : (n.links.map Link.endpoints).Pairwise fun e f => ¬e.SamePair n.directed f :=
      List.pairwise_map.2 h.apart
    rw [← hends] at hapart
    exact List.pairwise_map.1 hapart
  · exact h.named

theorem Simple.connect (h : n.Simple) {source target : Identifier}
    (hs : n.nodes.contains source.key = true) (ht : n.nodes.contains target.key = true)
    (hfree : n.linked source.key target.key = false) : (n.connect source target).Simple := by
  have hnew : ∀ l ∈ n.links, ¬l.endpoints.SamePair n.directed ⟨source, target⟩ := by
    unfold linked link? at hfree
    rw [Option.isSome_eq_false_iff, Option.isNone_iff_eq_none, List.find?_eq_none] at hfree
    exact fun l hl hsame => hfree l hl (Link.joins_iff (f := ⟨source, target⟩).2 hsame)
  constructor
  · intro l hl
    obtain hl | hl := List.mem_append.1 hl
    · exact h.source_mem l hl
    · exact List.mem_singleton.1 hl ▸ hs
  · intro l hl
    obtain hl | hl := List.mem_append.1 hl
    · exact h.target_mem l hl
    · exact List.mem_singleton.1 hl ▸ ht
  · refine List.pairwise_append.2 ⟨h.apart, List.pairwise_singleton .., fun l hl m hm => ?_⟩
    rw [List.mem_singleton.1 hm]
    exact hnew l hl
  · exact h.named

theorem Simple.mergeLink (h : n.Simple) {source target : Identifier}
    (hs : n.nodes.contains source.key = true) (ht : n.nodes.contains target.key = true)
    (attributes : Attributes) : (n.mergeLink source target attributes).Simple := by
  unfold Network.mergeLink
  cases hlinked : n.linked source.key target.key with
  | true => exact h.modifyLink _ _ _
  | false => exact (h.connect hs ht hlinked).modifyLink _ _ _

theorem nodeIdentifier_eq_ok {id : Value} {name : Identifier}
    (h : nodeIdentifier id = .ok name) : name.value.isNull = false := by
  unfold nodeIdentifier at h
  obtain ⟨name', hname, h⟩ := bind_eq_ok_iff.1 h
  split at h
  · exact absurd h (by simp)
  · next hnull =>
    obtain rfl := pure_eq_ok_iff.1 h
    rw [Graph.identify_eq_ok_iff.1 hname]
    exact Bool.eq_false_iff.2 hnull

theorem Simple.describeLink {n' : Network} (h : n.Simple) {source target : Value}
    {attributes : Attributes} (hdescribe : n.describeLink source target attributes = .ok n') :
    n'.Simple := by
  unfold Network.describeLink at hdescribe
  obtain ⟨s, hs, hdescribe⟩ := bind_eq_ok_iff.1 hdescribe
  obtain ⟨t, ht, hdescribe⟩ := bind_eq_ok_iff.1 hdescribe
  obtain rfl := pure_eq_ok_iff.1 hdescribe
  have hnodes := (h.mergeNode (nodeIdentifier_eq_ok hs) .empty).mergeNode
    (nodeIdentifier_eq_ok ht) .empty
  exact hnodes.mergeLink (contains_mergeNode (contains_mergeNode_self _ s _))
    (contains_mergeNode_self _ t _) attributes

/-- **What lists of nodes and links describe is a simple network.** -/
theorem simple_ofLists {directed : Bool} {nodes : List (Value × List (Value × Value))}
    {links : List (Value × Value × List (Value × Value))}
    (h : ofLists directed nodes links = .ok n) : n.Simple := by
  unfold ofLists at h
  obtain ⟨withNodes, hnodes, hlinks⟩ := bind_eq_ok_iff.1 h
  have hsimple : withNodes.Simple := by
    refine foldlM_keeps (fun n node n' (hn : n.Simple) hstep => ?_) (simple_empty directed) hnodes
    obtain ⟨name, hname, hstep⟩ := bind_eq_ok_iff.1 hstep
    obtain ⟨attributes, -, hstep⟩ := bind_eq_ok_iff.1 hstep
    obtain rfl := pure_eq_ok_iff.1 hstep
    exact hn.mergeNode (nodeIdentifier_eq_ok hname) attributes
  refine foldlM_keeps (fun n link n' (hn : n.Simple) hstep => ?_) hsimple hlinks
  obtain ⟨attributes, -, hstep⟩ := bind_eq_ok_iff.1 hstep
  exact hn.describeLink hstep

/-! ## §3. The edges of a network. -/

/-- The id that a link gets as an edge: its attribute `id`, or the pair of its ends. -/
def Listed.edgeId (x : Listed) : Value :=
  (x.attributes.get? (.text "id")).getD (.tuple [x.source, x.target])

/-- A link without the attribute that becomes its id. -/
def Listed.withoutId (x : Listed) : Listed :=
  { x with attributes := x.attributes.erase (.text "id") }

/-- The ids of all edges, in the order in which the links are listed. -/
def edgeIds (n : Network) : List Value := n.listing.map Listed.edgeId

/-- The attributes can be given along with a request, and what is to be an id
can be one. -/
structure Readable (n : Network) : Prop where
  node_names : ∀ e ∈ n.nodes.entries, Attributes.NamedOutside e.2 ["self", "node_id"]
  link_names : ∀ l ∈ n.links,
    Attributes.NamedOutside l.attributes ["self", "edge_id", "source", "target"]
  hashable : ∀ id ∈ n.edgeIds, ∃ k, id.key? = some k

/-- The graph of the nodes alone. -/
def nodesAlone (n : Network) : Graph := { Graph.empty n.directed with nodes := n.nodes }

/-- The edge that is asked for in the place of a link. -/
def edgeOfLink (l : Link) : EdgeRecord where
  name := (Identifier.ofValue? l.asListed.edgeId).getD default
  source := l.source
  target := l.target
  attributes := l.attributes.erase (.text "id")

/-- The links in the order of their listing. -/
def listedLinks (n : Network) : List Link := sweep n.directed n.links n.nodes.identifiers

/-- The edges that are asked for. -/
def edgeRecords (n : Network) : List EdgeRecord := n.listedLinks.map edgeOfLink

theorem edgeIds_eq (n : Network) : n.edgeIds = n.listedLinks.map (·.asListed.edgeId) := by
  unfold edgeIds listedLinks
  rw [listing_eq_sweep, List.map_map]
  rfl

/-- Every edge can be given its id. -/
def Nameable (n : Network) : Prop := ∀ id ∈ n.edgeIds, ∃ k, id.key? = some k

theorem Nameable.name_value (h : n.Nameable) {l : Link} (hl : l ∈ n.listedLinks) :
    (edgeOfLink l).name.value = l.asListed.edgeId := by
  obtain ⟨k, hk⟩ := h l.asListed.edgeId (by
    rw [edgeIds_eq]
    exact List.mem_map_of_mem hl)
  exact Value.asName_value hk

/-- What is asked for: the nodes, then the edges. -/
theorem Nameable.requestsOfNetwork_eq (h : n.Nameable) : Graph.requestsOfNetwork n
    = n.nodes.entries.map (fun e => (.addNode e.1.value, e.2))
      ++ n.edgeRecords.map EdgeRecord.request := by
  refine congrArg (_ ++ ·) ?_
  rw [listing_eq_sweep, List.map_map, edgeRecords, List.map_map]
  refine List.map_congr_left fun l hl => ?_
  show _ = (Change.addEdge (edgeOfLink l).name.value l.source.value l.target.value, _)
  rw [h.name_value hl]
  rfl

/-- The ids of two edges differ exactly if their names do. -/
theorem Nameable.edgeIds_apart_iff (h : n.Nameable) :
    (n.edgeIds.Pairwise fun v w => ¬v.SameId w) ↔ ((n.nodesAlone.edges.entries
      ++ n.edgeRecords.map EdgeRecord.entry).map (·.1.key)).Nodup := by
  have hnone : n.nodesAlone.edges.entries = [] := rfl
  rw [edgeIds_eq, hnone, List.nil_append, edgeRecords, List.map_map, List.map_map, List.Nodup,
    List.pairwise_map, List.pairwise_map]
  have hkey : ∀ l ∈ n.listedLinks, l.asListed.edgeId.key? = some (edgeOfLink l).name.key := by
    intro l hl
    rw [← h.name_value hl]
    exact (edgeOfLink l).name.key?_value
  refine List.Pairwise.iff_of_mem fun {l m} hl hm => not_congr ?_
  exact Value.sameId_iff (hkey l hl) (hkey m hm)

theorem Readable.edgeIds_apart_iff (h : n.Readable) :
    (n.edgeIds.Pairwise fun v w => ¬v.SameId w)
      ↔ ((n.nodesAlone.edges.entries ++ n.edgeRecords.map EdgeRecord.entry).map (·.1.key)).Nodup :=
  Nameable.edgeIds_apart_iff h.hashable

/-! ## §4. The links that are listed. -/

theorem Simple.exists_met (h : n.Simple) {l : Link} (hl : l ∈ n.links) :
    ∃ node ∈ n.nodes.identifiers, l.isMetAt n.directed node.key = true := by
  obtain ⟨e, he, hkey⟩ := Catalog.contains_iff_mem.1 (h.source_mem l hl)
  exact ⟨e.1, List.mem_map_of_mem he, hkey ▸ l.isMetAt_source n.directed⟩

/-- No two of the listed links join one pair. -/
theorem Simple.listedLinks_apart (h : n.Simple) :
    n.listedLinks.Pairwise fun l m => ¬l.endpoints.SamePair n.directed m.endpoints := by
  obtain ⟨found, hperm, hturned⟩ := sweep_perm fun l hl => h.exists_met hl
  have hfound := (hperm.pairwise_iff fun hne hsame => hne hsame.symm).2 h.apart
  refine pairwise_of_forall₂ (fun l m l' m' hl hl' hne hsame => hne ?_) hturned hfound
  exact (hl.samePair.symm.trans hsame).trans hl'.samePair

/-- A listed link is one of the network, turned one way or the other. -/
theorem Simple.exists_link (h : n.Simple) {l : Link} (hl : l ∈ n.listedLinks) :
    ∃ m ∈ n.links, l.Turned n.directed m := by
  obtain ⟨found, hperm, hturned⟩ := sweep_perm fun l hl => h.exists_met hl
  obtain ⟨m, hm, hlm⟩ := exists_of_forall₂ hturned hl
  exact ⟨m, hperm.mem_iff.1 hm, hlm⟩

/-- The ends of a listed link are nodes. -/
theorem Simple.ends_mem (h : n.Simple) {l : Link} (hl : l ∈ n.listedLinks) :
    n.nodes.contains l.source.key = true ∧ n.nodes.contains l.target.key = true := by
  obtain ⟨m, hm, ⟨hsource, htarget⟩ | ⟨-, hsource, htarget⟩, -⟩ := h.exists_link hl
  · exact ⟨hsource ▸ h.source_mem m hm, htarget ▸ h.target_mem m hm⟩
  · exact ⟨hsource ▸ h.target_mem m hm, htarget ▸ h.source_mem m hm⟩

/-! ## §5. Reading and writing. -/

/-- Edges of a network can be added to its nodes, but for their ids, if their
attributes can be taken along. -/
theorem Simple.joinable (h : n.Simple) {records : List EdgeRecord}
    (hsub : records.Sublist n.edgeRecords)
    (accepted : ∀ r ∈ records, Attributes.NamedOutside r.attributes
      ["self", "edge_id", "source", "target"]) :
    n.nodesAlone.Joinable records := by
  have hrecord : ∀ {p : EdgeRecord → Prop}, (∀ l ∈ n.listedLinks, p (edgeOfLink l)) →
      ∀ r ∈ records, p r := by
    intro p hp r hr
    obtain ⟨l, hl, rfl⟩ := List.mem_map.1 (hsub.subset hr)
    exact hp l hl
  constructor
  · exact hrecord fun l hl => (h.ends_mem hl).1
  · exact hrecord fun l hl => (h.ends_mem hl).2
  · exact fun _ _ => rfl
  · exact (List.pairwise_map.2 h.listedLinks_apart).sublist hsub
  · exact fun r hr => Change.accepts_iff.2 (accepted r hr)

/-- What can be taken along with a link can be taken along with its edge. -/
theorem Simple.namedOutside_record (h : n.Simple) {reserved : List String}
    (hlinks : ∀ l ∈ n.links, Attributes.NamedOutside l.attributes reserved) {r : EdgeRecord}
    (hr : r ∈ n.edgeRecords) : Attributes.NamedOutside r.attributes reserved := by
  obtain ⟨l, hl, rfl⟩ := List.mem_map.1 hr
  obtain ⟨m, hm, -, hattributes⟩ := h.exists_link hl
  exact (hattributes ▸ hlinks m hm).erase _

/-- But for their ids the edges of a network can all be added to its nodes. -/
theorem joinable_edgeRecords (h : n.Simple) (hread : n.Readable) :
    n.nodesAlone.Joinable n.edgeRecords :=
  h.joinable (.refl _) fun _ hr => h.namedOutside_record hread.link_names hr

/-- The nodes of a network are added if their attributes can be taken along. -/
theorem Simple.performAll_nodes (h : n.Simple) (hnodes : ∀ e ∈ n.nodes.entries,
    Attributes.NamedOutside e.2 ["self", "node_id"]) :
    (Graph.empty n.directed).performAll
      (n.nodes.entries.map fun e => (.addNode e.1.value, e.2)) = .ok n.nodesAlone := by
  have hfresh : (((Graph.empty n.directed).nodes.entries ++ n.nodes.entries).map
      (·.1.key)).Nodup := n.nodes.nodup
  rw [Graph.performAll_addNodes hfresh
    (fun e he => h.named e.1 (List.mem_map_of_mem he))
    fun e he => Change.accepts_iff.2 (hnodes e he)]
  have hfiled : (Graph.empty n.directed).nodes.insertAll n.nodes.entries = n.nodes :=
    Catalog.empty_insertAll n.nodes
  rw [hfiled]
  rfl

/-- Once the nodes are there, the edges are asked for. -/
theorem Simple.ofNetwork_eq (h : n.Simple) (hnodes : ∀ e ∈ n.nodes.entries,
    Attributes.NamedOutside e.2 ["self", "node_id"]) (hnameable : n.Nameable) :
    Graph.ofNetwork n false
      = n.nodesAlone.performAll (n.edgeRecords.map EdgeRecord.request) := by
  show (Graph.empty n.directed).performAll (Graph.requestsOfNetwork n) = _
  rw [hnameable.requestsOfNetwork_eq, Graph.performAll_append (h.performAll_nodes hnodes)]

theorem ofNetwork_eq (h : n.Simple) (hread : n.Readable) : Graph.ofNetwork n false
    = n.nodesAlone.performAll (n.edgeRecords.map EdgeRecord.request) :=
  h.ofNetwork_eq hread.node_names hread.hashable

end Network

/-- A graph holds a network: its type, its nodes with their names, attributes
and order, and its links, as they are listed, without the attribute that became
the id; and the edge of each link is found under its id, between its ends. -/
structure Graph.Holds (g : Graph) (n : Network) : Prop where
  directed : g.toNetwork.directed = n.directed
  nodes : g.toNetwork.nodes = n.nodes
  listing : g.toNetwork.listing = n.listing.map Network.Listed.withoutId
  found : ∀ x ∈ n.listing, ∃ ends, g.endpoints x.edgeId = .ok ends
    ∧ ends.source.value = x.source ∧ ends.target.value = x.target

namespace Network

variable {n : Network}

/-- The graph of the nodes and edges of a network holds it. -/
theorem holds_plusEdges (hread : n.Readable)
    (hapart : n.edgeIds.Pairwise fun v w => ¬v.SameId w) :
    (n.nodesAlone.plusEdges n.edgeRecords).Holds n where
  directed := rfl
  nodes := rfl
  listing := by
    have hlinks : (n.nodesAlone.plusEdges n.edgeRecords).links
        = n.listedLinks.map (·.mapAttributes (·.erase (.text "id"))) := by
      refine (List.nil_append _).trans ?_
      rw [edgeRecords, List.map_map]
      rfl
    -- links kept in the order of their listing are listed in that order
    rw [listing_eq_sweep, listing_eq_sweep, hlinks]
    show (sweep n.directed _ n.nodes.identifiers).map _ = _
    rw [sweep_map, listedLinks, sweep_sweep n.nodes.nodup_keys, List.map_map, List.map_map]
    rfl
  found := by
    intro x hx
    rw [listing_eq_sweep] at hx
    obtain ⟨l, hl, rfl⟩ := List.mem_map.1 hx
    have hentries := Catalog.entries_insertAll (hread.edgeIds_apart_iff.1 hapart)
    have hmem : (edgeOfLink l).entry ∈ (n.nodesAlone.plusEdges n.edgeRecords).edges.entries := by
      show _ ∈ (n.nodesAlone.edges.insertAll _).entries
      rw [hentries]
      exact List.mem_append_right _ (List.mem_map_of_mem (List.mem_map_of_mem hl))
    refine ⟨⟨l.source, l.target⟩, ?_, rfl, rfl⟩
    rw [← Nameable.name_value hread.hashable hl]
    exact Graph.Coherent.endpoints_of_mem hmem

/-- **A network is refused exactly if two of its edges get equal ids; if not,
the graph that is made of it holds it.** -/
theorem ofNetwork_roundTrip (h : n.Simple) (hread : n.Readable) :
    ((∃ e, Graph.ofNetwork n false = .error e ∧ e.kind = .idInUse)
        ↔ ¬n.edgeIds.Pairwise fun v w => ¬v.SameId w)
      ∧ ((n.edgeIds.Pairwise fun v w => ¬v.SameId w) →
        ∃ g, Graph.ofNetwork n false = .ok g ∧ g.Holds n) := by
  have hjoinable := joinable_edgeRecords h hread
  have hheld : (n.edgeIds.Pairwise fun v w => ¬v.SameId w) →
      Graph.ofNetwork n false = .ok (n.nodesAlone.plusEdges n.edgeRecords) := by
    intro hapart
    rw [ofNetwork_eq h hread]
    exact Graph.performAll_addEdges hjoinable (hread.edgeIds_apart_iff.1 hapart)
  refine ⟨⟨?_, fun hrepeated => ?_⟩, fun hapart => ⟨_, hheld hapart, holds_plusEdges hread hapart⟩⟩
  · rintro ⟨e, herror, -⟩ hapart
    rw [hheld hapart] at herror
    exact absurd herror (by simp)
  · obtain ⟨id, herror⟩ := Graph.performAll_eq_error_of_repeated hjoinable
      fun hnodup => hrepeated (hread.edgeIds_apart_iff.2 hnodup)
    exact ⟨.edgeInUse id, (ofNetwork_eq h hread).trans herror, rfl⟩

/-- Two nodes, a link between them that brings its id along, and a loop without one. -/
def bondAndLoop (id : Value) : Network where
  directed := false
  nodes := (Catalog.empty.insert (.ofInt 1)
    (Catalog.empty.insert (.ofText "colour") (.str "red"))).insert (.ofText "x") .empty
  links :=
    [⟨.ofText "x", ⟨.bool true, .int 1, rfl⟩, Catalog.empty.insert (.ofText "id") id⟩,
      ⟨.ofText "x", .ofText "x", .empty⟩]

theorem simple_bondAndLoop (id : Value) : (bondAndLoop id).Simple where
  source_mem := List.forall_mem_cons.2 ⟨rfl, List.forall_mem_singleton.2 rfl⟩
  target_mem := List.forall_mem_cons.2 ⟨rfl, List.forall_mem_singleton.2 rfl⟩
  apart := by
    refine List.pairwise_cons.2 ⟨List.forall_mem_singleton.2 ?_, List.pairwise_singleton ..⟩
    simp [Endpoints.SamePair, Link.endpoints, Identifier.ofText]
  named := List.forall_mem_cons.2 ⟨rfl, List.forall_mem_singleton.2 rfl⟩

theorem edgeIds_bondAndLoop (id : Value) :
    (bondAndLoop id).edgeIds = [id, .tuple [.str "x", .str "x"]] := rfl

theorem readable_bondAndLoop {id : Value} {k : Key} (h : id.key? = some k) :
    (bondAndLoop id).Readable where
  node_names := List.forall_mem_cons.2
    ⟨Change.accepts_iff.1 (rfl : (Change.addNode .null).accepts _ = true),
      List.forall_mem_singleton.2 fun _ hname => absurd hname List.not_mem_nil⟩
  link_names := List.forall_mem_cons.2
    ⟨Change.accepts_iff.1 (rfl : (Change.addEdge .null .null .null).accepts _ = true),
      List.forall_mem_singleton.2 fun _ hname => absurd hname List.not_mem_nil⟩
  hashable := by
    rw [edgeIds_bondAndLoop]
    exact List.forall_mem_cons.2 ⟨⟨k, h⟩, List.forall_mem_singleton.2 ⟨_, rfl⟩⟩

/-- An id of its own is kept; the pair that is the id of the loop is refused. -/
theorem ofNetwork_roundTrip_bondAndLoop :
    (∃ g, Graph.ofNetwork (bondAndLoop (.str "bond")) false = .ok g
        ∧ g.Holds (bondAndLoop (.str "bond")))
      ∧ ∃ e, Graph.ofNetwork (bondAndLoop (.tuple [.str "x", .str "x"])) false = .error e
        ∧ e.kind = .idInUse := by
  constructor
  · refine (ofNetwork_roundTrip (simple_bondAndLoop _) (readable_bondAndLoop rfl)).2 ?_
    rw [edgeIds_bondAndLoop]
    refine List.pairwise_cons.2 ⟨List.forall_mem_singleton.2 ?_, List.pairwise_singleton ..⟩
    rw [Value.sameId_iff rfl rfl]
    decide
  · refine (ofNetwork_roundTrip (simple_bondAndLoop _) (readable_bondAndLoop rfl)).1.2 ?_
    rw [edgeIds_bondAndLoop]
    intro hapart
    refine (List.pairwise_cons.1 hapart).1 _ List.mem_cons_self ?_
    rw [Value.sameId_iff rfl rfl]

end Network
end EvolvingGraph
