/-
  EvolvingGraph.Proofs.Graph.Construction
  ───────────────────────────────────────
  **WHAT A REQUEST TO ADD SOMETHING MAKES OF A GRAPH.**

  A request to add a node or an edge comes with attributes, which are set one by
  one once the element is there.  None of these settings can fail, so the request
  fails at the addition or not at all, and what it leaves is the graph with one
  more element that has the attributes it came with.  Importers make such
  requests one after the other: nodes with names of their own, then edges
  between pairs of their own.

  Main statements:
    * `perform_addNode`, `perform_addEdge` — one request;
    * `performAll_addNodes` — the requests for a list of nodes;
    * `performAll_addEdges`, `performAll_eq_error_of_repeated` — those for a list of
      edges: they fail exactly if two edges share their name.
-/
import EvolvingGraph.Proofs.Graph.Coherence
import EvolvingGraph.Import

namespace EvolvingGraph

/-! ## §1. Filing several things. -/

namespace Catalog

variable {α : Type}

theorem contains_eq_false_iff {c : Catalog α} {k : Key} :
    c.contains k = false ↔ k ∉ c.entries.map (·.1.key) := by
  rw [Bool.eq_false_iff, Ne, contains_iff_mem, List.mem_map]

/-- If all names differ, none of those that are to be filed is taken. -/
theorem contains_eq_false_of_nodup {c : Catalog α} {e : Identifier × α}
    {new : List (Identifier × α)} (h : ((c.entries ++ e :: new).map (·.1.key)).Nodup) :
    c.contains e.1.key = false := by
  rw [contains_eq_false_iff]
  rw [List.map_append, List.map_cons] at h
  exact fun hmem => (List.nodup_append.1 h).2.2 _ hmem _ List.mem_cons_self rfl

@[simp] theorem insertAll_nil (c : Catalog α) : c.insertAll [] = c := rfl

theorem insertAll_cons (c : Catalog α) (e : Identifier × α) (new : List (Identifier × α)) :
    c.insertAll (e :: new) = (c.insert e.1 e.2).insertAll new := rfl

/-- Things filed under new names stand at the end, in their order. -/
theorem entries_insertAll {c : Catalog α} {new : List (Identifier × α)}
    (h : ((c.entries ++ new).map (·.1.key)).Nodup) :
    (c.insertAll new).entries = c.entries ++ new := by
  induction new generalizing c with
  | nil => rw [insertAll_nil, List.append_nil]
  | cons e new ih =>
    have hentries := entries_insert_of_not_contains (contains_eq_false_of_nodup h) e.2
    rw [insertAll_cons, ih (by rw [hentries, List.append_assoc]; exact h), hentries,
      List.append_assoc]
    rfl

/-- A catalog is what its entries make, one after the other. -/
theorem empty_insertAll (c : Catalog α) : Catalog.empty.insertAll c.entries = c :=
  ext (entries_insertAll c.nodup)

end Catalog

/-! ## §2. Attributes that can be taken along. -/

/-- All attribute names are text, and none is one of the given. -/
def Attributes.NamedOutside (a : Attributes) (reserved : List String) : Prop :=
  ∀ name ∈ a.identifiers, ∃ s, name.value = .str s ∧ s ∉ reserved

theorem Change.accepts_iff {c : Change} {a : Attributes} :
    c.accepts a = true ↔ Attributes.NamedOutside a c.reservedNames := by
  unfold accepts Attributes.NamedOutside
  rw [List.all_eq_true]
  refine forall₂_congr fun name _ => ?_
  split
  · next s hs => simp [hs]
  · next hs => simpa using fun s h => absurd h (hs s)

namespace Graph

variable {g g' : Graph}

/-! ## §3. One more element. -/

/-- The graph with one more node. -/
def plusNode (g : Graph) (name : Identifier) (attributes : Attributes) : Graph :=
  { g with nodes := g.nodes.insert name attributes }

/-- The graph with one more edge. -/
def plusEdge (g : Graph) (name source target : Identifier) (attributes : Attributes) : Graph :=
  { g with
    links := g.links ++ [⟨source, target, attributes⟩]
    edges := g.edges.insert name ⟨source, target⟩ }

theorem apply_addNode {name : Identifier} (fresh : g.nodes.contains name.key = false)
    (named : name.value.isNull = false) :
    g.apply (.addNode name.value) = (g.plusNode name .empty, .ok (some (.nodeAdded name.value))) :=
  apply_eq_some_iff.2 (.addNode fresh named)

theorem apply_addEdge {name source target : Identifier}
    (fresh : g.edges.contains name.key = false)
    (source_mem : g.nodes.contains source.key = true)
    (target_mem : g.nodes.contains target.key = true)
    (apart : g.linked source.key target.key = false) :
    g.apply (.addEdge name.value source.value target.value)
      = (g.plusEdge name source target .empty,
        .ok (some (.edgeAdded name.value source.value target.value))) :=
  apply_eq_some_iff.2 (.addEdge fresh source_mem target_mem apart)

/-- An attribute of a new node is set. -/
theorem apply_setAttribute_plusNode {name : Identifier}
    (fresh : g.nodes.contains name.key = false) (a : Attributes) (key : Identifier) (v : Value) :
    ∃ event, (g.plusNode name a).apply (.setAttribute .node name.value key.value v)
      = (g.plusNode name (a.insert key v), .ok (some event)) := by
  have hcontains : (g.plusNode name a).nodes.contains name.key = true := by
    simp [plusNode, Catalog.contains_insert]
  have hkey : (g.plusNode name a).nodeKey name.value = .ok name.key :=
    nodeKey_value_eq_ok_iff.2 ⟨rfl, hcontains⟩
  have hread : (g.plusNode name a).attributesOf .node name.value = .ok a := by
    refine bind_eq_ok_iff.2 ⟨_, hkey, ?_⟩
    simp [plusNode, Catalog.get?_insert_self]
  refine ⟨_, apply_eq_some_iff.2 (.setAttribute hread ?_)⟩
  refine putAttributes_node_eq_ok_iff.2 ⟨_, hkey, ?_⟩
  -- the node is found under its own name
  have hentry : Catalog.entry? (g.nodes.insert name a) name.key = some (name, a) := by
    rw [Catalog.entry?_eq_some_iff, Catalog.entries_insert_of_not_contains fresh]
    simp
  simp only [plusNode, Catalog.modify, hentry, Catalog.insert_insert]

/-- An attribute of a new edge is set; no other edge joins the pair. -/
theorem apply_setAttribute_plusEdge {name source target : Identifier}
    (apart : g.linked source.key target.key = false) (a : Attributes) (key : Identifier)
    (v : Value) :
    ∃ event, (g.plusEdge name source target a).apply (.setAttribute .edge name.value key.value v)
      = (g.plusEdge name source target (a.insert key v), .ok (some event)) := by
  have hothers : ∀ l ∈ g.links, l.joins g.directed source.key target.key = false := by
    unfold Network.linked Network.link? at apart
    rw [Option.isSome_eq_false_iff, Option.isNone_iff_eq_none, List.find?_eq_none] at apart
    exact fun l hl => by simpa using apart l hl
  have hself : ∀ b, (Link.mk source target b).joins g.directed source.key target.key = true := by
    intro b
    simp [Link.joins]
  have hlink : (g.plusEdge name source target a).link? source.key target.key
      = some ⟨source, target, a⟩ := by
    show (g.links ++ [_]).find? (fun l : Link => l.joins g.directed source.key target.key) = _
    have hnone : g.links.find? (·.joins g.directed source.key target.key) = none :=
      List.find?_eq_none.2 fun l hl => by simp [hothers l hl]
    rw [List.find?_append, hnone, Option.none_or, List.find?_singleton, if_pos (hself a)]
  have hends : (g.plusEdge name source target a).endpoints name.value = .ok ⟨source, target⟩ :=
    endpoints_eq_ok_iff.2 ⟨_, name.key?_value, Catalog.get?_insert_self _ _ _⟩
  -- the other links are not touched
  have hmodify : (g.plusEdge name source target a).modifyLink source.key target.key
      (fun _ => a.insert key v) = (g.plusEdge name source target (a.insert key v)).toNetwork := by
    refine congrArg (Network.mk g.directed g.nodes) ?_
    refine List.map_append.trans (congrArg₂ (· ++ ·) ?_ ?_)
    · refine (List.map_congr_left fun l hl => ?_).trans (List.map_id g.links)
      exact if_neg (Bool.eq_false_iff.1 (hothers l hl))
    · exact congrArg (fun l => [l]) (if_pos (hself a))
  refine ⟨_, apply_eq_some_iff.2 (.setAttribute
    (edgeAttributes_eq_ok_iff.2 ⟨_, _, hends, hlink, rfl⟩) ?_)⟩
  refine putAttributes_edge_eq_ok_iff.2 ⟨_, hends, ?_⟩
  rw [hmodify]
  rfl

/-! ## §4. The attributes of a new element. -/

/-- If each setting finds its element, all settings are made. -/
theorem applyAll_settings {on : ElementKind} {id : Value} {element : Attributes → Graph}
    (hset : ∀ a (key : Identifier) v, ∃ event, (element a).apply (.setAttribute on id key.value v)
      = (element (a.insert key v), .ok (some event)))
    (entries : List (Identifier × Value)) (a : Attributes) :
    (element a).applyAll (entries.map fun e => .setAttribute on id e.1.value e.2)
      = .ok (element (a.insertAll entries)) := by
  induction entries generalizing a with
  | nil => rfl
  | cons e entries ih =>
    obtain ⟨event, hevent⟩ := hset a e.1 e.2
    rw [List.map_cons, applyAll, hevent]
    exact ih _

theorem applyAll_settings_node {name : Identifier} (fresh : g.nodes.contains name.key = false)
    (attributes : Attributes) :
    (g.plusNode name .empty).applyAll (Change.settings (.addNode name.value) attributes)
      = .ok (g.plusNode name attributes) := by
  have hall := applyAll_settings (apply_setAttribute_plusNode fresh) attributes.entries .empty
  rw [Catalog.empty_insertAll] at hall
  exact hall

theorem applyAll_settings_edge {name source target : Identifier}
    (apart : g.linked source.key target.key = false) (attributes : Attributes) :
    (g.plusEdge name source target .empty).applyAll
        (Change.settings (.addEdge name.value source.value target.value) attributes)
      = .ok (g.plusEdge name source target attributes) := by
  have hset : ∀ a (key : Identifier) v, ∃ event,
      (g.plusEdge name source target a).apply (.setAttribute .edge name.value key.value v)
        = (g.plusEdge name source target (a.insert key v), .ok (some event)) :=
    apply_setAttribute_plusEdge apart
  have hall := applyAll_settings hset attributes.entries .empty
  rw [Catalog.empty_insertAll] at hall
  exact hall

/-- **A request for a node with a new name adds it with its attributes.** -/
theorem perform_addNode {name : Identifier} {attributes : Attributes}
    (accepted : (Change.addNode name.value).accepts attributes = true)
    (fresh : g.nodes.contains name.key = false) (named : name.value.isNull = false) :
    g.perform (.addNode name.value) attributes = .ok (g.plusNode name attributes) := by
  unfold perform
  rw [accepted]
  show g.applyAll (.addNode name.value :: Change.settings _ attributes) = _
  rw [applyAll, apply_addNode fresh named]
  exact applyAll_settings_node fresh attributes

/-- **A request for an edge with a new name between nodes that are apart adds it
with its attributes.** -/
theorem perform_addEdge {name source target : Identifier} {attributes : Attributes}
    (accepted : (Change.addEdge name.value source.value target.value).accepts attributes = true)
    (fresh : g.edges.contains name.key = false)
    (source_mem : g.nodes.contains source.key = true)
    (target_mem : g.nodes.contains target.key = true)
    (apart : g.linked source.key target.key = false) :
    g.perform (.addEdge name.value source.value target.value) attributes
      = .ok (g.plusEdge name source target attributes) := by
  unfold perform
  rw [accepted]
  show g.applyAll (.addEdge name.value source.value target.value
    :: Change.settings _ attributes) = _
  rw [applyAll, apply_addEdge fresh source_mem target_mem apart]
  exact applyAll_settings_edge apart attributes

/-- A request for an edge with a name that is in use is refused. -/
theorem perform_addEdge_of_contains {name : Identifier} {source target : Value}
    {attributes : Attributes}
    (accepted : (Change.addEdge name.value source target).accepts attributes = true)
    (used : g.edges.contains name.key = true) :
    g.perform (.addEdge name.value source target) attributes = .error (.edgeInUse name.value) := by
  have hidentify : identify name.value = .ok name := identify_eq_ok_iff.2 rfl
  have hadd : g.addEdge name.value source target = .error (.edgeInUse name.value) := by
    unfold addEdge
    rw [hidentify]
    simp only [bind, Except.bind, used, if_true]
    rfl
  have happly : g.apply (.addEdge name.value source target)
      = (g, .error (.edgeInUse name.value)) := by
    show Outcome.ofExcept g (g.addEdge name.value source target) = _
    rw [hadd]
    rfl
  unfold perform
  rw [accepted]
  show g.applyAll (.addEdge name.value source target :: Change.settings _ attributes) = _
  rw [applyAll, happly]

/-- A request whose attributes cannot be taken along is refused before anything happens. -/
theorem perform_of_not_accepts {c : Change} {attributes : Attributes}
    (h : c.accepts attributes = false) : g.perform c attributes = .error .badArgument := by
  unfold perform
  rw [h]
  rfl

/-! ## §5. Several requests. -/

theorem performAll_cons (g : Graph) (request : Change × Attributes)
    (requests : List (Change × Attributes)) :
    g.performAll (request :: requests)
      = g.perform request.1 request.2 >>= fun g' => g'.performAll requests := rfl

theorem performAll_append {requests : List (Change × Attributes)}
    (h : g.performAll requests = .ok g') (more : List (Change × Attributes)) :
    g.performAll (requests ++ more) = g'.performAll more := by
  unfold performAll at *
  rw [List.foldlM_append, h]
  rfl

/-- The first request that is refused is the last that is made. -/
theorem performAll_eq_error_of_refused {requests : List (Change × Attributes)}
    (h : g.performAll requests = .ok g') {request : Change × Attributes}
    (refused : request.1.accepts request.2 = false) (more : List (Change × Attributes)) :
    g.performAll (requests ++ request :: more) = .error .badArgument := by
  rw [performAll_append h, performAll_cons, perform_of_not_accepts refused]
  rfl

/-- Nodes with names of their own are added in their order. -/
theorem performAll_addNodes {nodes : List (Identifier × Attributes)}
    (fresh : ((g.nodes.entries ++ nodes).map (·.1.key)).Nodup)
    (named : ∀ e ∈ nodes, e.1.value.isNull = false)
    (accepted : ∀ e ∈ nodes, (Change.addNode e.1.value).accepts e.2 = true) :
    g.performAll (nodes.map fun e => (.addNode e.1.value, e.2))
      = .ok { g with nodes := g.nodes.insertAll nodes } := by
  induction nodes generalizing g with
  | nil => rfl
  | cons e nodes ih =>
    have hfresh := Catalog.contains_eq_false_of_nodup fresh
    rw [List.map_cons, performAll_cons, perform_addNode (accepted e List.mem_cons_self) hfresh
      (named e List.mem_cons_self)]
    refine ih (g := g.plusNode e.1 e.2) ?_ (fun f hf => named f (List.mem_cons_of_mem _ hf))
      fun f hf => accepted f (List.mem_cons_of_mem _ hf)
    show (((g.nodes.insert e.1 e.2).entries ++ nodes).map (·.1.key)).Nodup
    rw [Catalog.entries_insert_of_not_contains hfresh, List.append_assoc]
    exact fresh

end Graph

/-- An edge as it is asked for: its name, its ends, and its attributes. -/
structure EdgeRecord where
  name : Identifier
  source : Identifier
  target : Identifier
  attributes : Attributes

namespace EdgeRecord

/-- The request for the edge. -/
def request (r : EdgeRecord) : Change × Attributes :=
  (.addEdge r.name.value r.source.value r.target.value, r.attributes)

def endpoints (r : EdgeRecord) : Endpoints := ⟨r.source, r.target⟩

/-- What the edge table gets. -/
def entry (r : EdgeRecord) : Identifier × Endpoints := (r.name, r.endpoints)

/-- What the network gets. -/
def link (r : EdgeRecord) : Link := ⟨r.source, r.target, r.attributes⟩

end EdgeRecord

namespace Graph

variable {g g' : Graph}

/-- The graph with more edges. -/
def plusEdges (g : Graph) (records : List EdgeRecord) : Graph :=
  { g with
    links := g.links ++ records.map EdgeRecord.link
    edges := g.edges.insertAll (records.map EdgeRecord.entry) }

theorem plusEdges_nil (g : Graph) : g.plusEdges [] = g := by
  unfold plusEdges
  simp

theorem plusEdges_cons (g : Graph) (r : EdgeRecord) (records : List EdgeRecord) :
    g.plusEdges (r :: records)
      = (g.plusEdge r.name r.source r.target r.attributes).plusEdges records := by
  unfold plusEdges plusEdge
  simp [EdgeRecord.link, EdgeRecord.entry, EdgeRecord.endpoints, Catalog.insertAll_cons]

/-- Edges can be added to a graph but for their names: their ends are there, no
two join one pair, and their attributes can be taken along. -/
structure Joinable (g : Graph) (records : List EdgeRecord) : Prop where
  source_mem : ∀ r ∈ records, g.nodes.contains r.source.key = true
  target_mem : ∀ r ∈ records, g.nodes.contains r.target.key = true
  unlinked : ∀ r ∈ records, g.linked r.source.key r.target.key = false
  apart : records.Pairwise fun r s => ¬r.endpoints.SamePair g.directed s.endpoints
  accepted : ∀ r ∈ records,
    (Change.addEdge r.name.value r.source.value r.target.value).accepts r.attributes = true

theorem linked_plusEdge (g : Graph) (name source target : Identifier) (attributes : Attributes)
    (a b : Key) : (g.plusEdge name source target attributes).linked a b
      = (g.linked a b || (Link.mk source target attributes).joins g.directed a b) := by
  show ((g.links ++ [_]).find? (fun l : Link => l.joins g.directed a b)).isSome
    = ((g.links.find? (fun l : Link => l.joins g.directed a b)).isSome || _)
  rw [List.find?_append, Option.isSome_or]
  congr 1
  rw [List.find?_singleton]
  split <;> simp_all

/-- A pair that no link joins is still free when another pair has been joined. -/
theorem unlinked_plusEdge {r s : EdgeRecord}
    (hapart : ¬r.endpoints.SamePair g.directed s.endpoints)
    (h : g.linked s.source.key s.target.key = false) :
    (g.plusEdge r.name r.source r.target r.attributes).linked s.source.key s.target.key
      = false := by
  rw [linked_plusEdge, h, Bool.false_or, Bool.eq_false_iff, Ne]
  exact fun hjoins => hapart (Link.joins_iff (f := s.endpoints).1 hjoins)

/-- Once the first of the edges is there, the others can still be added. -/
theorem Joinable.rest {r : EdgeRecord} {records : List EdgeRecord}
    (h : g.Joinable (r :: records)) :
    (g.plusEdge r.name r.source r.target r.attributes).Joinable records where
  source_mem := fun s hs => h.source_mem s (List.mem_cons_of_mem _ hs)
  target_mem := fun s hs => h.target_mem s (List.mem_cons_of_mem _ hs)
  unlinked := fun s hs => unlinked_plusEdge ((List.pairwise_cons.1 h.apart).1 s hs)
    (h.unlinked s (List.mem_cons_of_mem _ hs))
  apart := (List.pairwise_cons.1 h.apart).2
  accepted := fun s hs => h.accepted s (List.mem_cons_of_mem _ hs)

/-- **Edges with names of their own are added in their order.** -/
theorem performAll_addEdges {records : List EdgeRecord} (h : g.Joinable records)
    (fresh : ((g.edges.entries ++ records.map EdgeRecord.entry).map (·.1.key)).Nodup) :
    g.performAll (records.map EdgeRecord.request) = .ok (g.plusEdges records) := by
  induction records generalizing g with
  | nil =>
    rw [plusEdges_nil]
    rfl
  | cons r records ih =>
    have hfresh : g.edges.contains r.name.key = false :=
      Catalog.contains_eq_false_of_nodup (e := r.entry) fresh
    have hstep := perform_addEdge (h.accepted r List.mem_cons_self) hfresh
      (h.source_mem r List.mem_cons_self) (h.target_mem r List.mem_cons_self)
      (h.unlinked r List.mem_cons_self)
    rw [List.map_cons, performAll_cons, plusEdges_cons]
    show (g.perform (.addEdge r.name.value r.source.value r.target.value) r.attributes >>= _) = _
    rw [hstep]
    refine ih h.rest ?_
    show (((g.edges.insert r.name r.endpoints).entries ++ _).map _).Nodup
    rw [Catalog.entries_insert_of_not_contains hfresh, List.append_assoc]
    exact fresh

/-- The graph with the added edges is coherent if it has been. -/
theorem Coherent.plusEdges {records : List EdgeRecord} (hg : g.Coherent) (h : g.Joinable records)
    (fresh : ((g.edges.entries ++ records.map EdgeRecord.entry).map (·.1.key)).Nodup) :
    (g.plusEdges records).Coherent := by
  have hentries : (g.plusEdges records).edges.entries
      = g.edges.entries ++ records.map EdgeRecord.entry := Catalog.entries_insertAll fresh
  constructor
  · rw [hentries, List.map_append, ← hg.aligned]
    simp [Graph.plusEdges, EdgeRecord.link, EdgeRecord.entry, EdgeRecord.endpoints, Link.endpoints]
  · rw [hentries]
    refine List.forall_mem_append.2 ⟨hg.ends_mem, List.forall_mem_map.2 fun r hr => ?_⟩
    exact ⟨h.source_mem r hr, h.target_mem r hr⟩
  · rw [hentries]
    refine List.pairwise_append.2 ⟨hg.apart, List.pairwise_map.2 h.apart, fun e he f hf hsame => ?_⟩
    -- the pair of an edge that is there would be linked
    obtain ⟨r, hr, rfl⟩ := List.mem_map.1 hf
    have hlinked : g.linked r.source.key r.target.key = true :=
      hg.linked_iff (f := r.endpoints).2 ⟨e, he, hsame⟩
    exact absurd ((h.unlinked r hr).symm.trans hlinked) (by simp)

/-- **Edges that share a name are refused: the second of them finds it in use.** -/
theorem performAll_eq_error_of_repeated {records : List EdgeRecord} (h : g.Joinable records)
    (repeated : ¬((g.edges.entries ++ records.map EdgeRecord.entry).map (·.1.key)).Nodup) :
    ∃ id, g.performAll (records.map EdgeRecord.request) = .error (.edgeInUse id) := by
  induction records generalizing g with
  | nil =>
    rw [List.map_nil, List.append_nil] at repeated
    exact absurd g.edges.nodup repeated
  | cons r records ih =>
    rw [List.map_cons, performAll_cons]
    show ∃ id, (g.perform (.addEdge r.name.value r.source.value r.target.value) r.attributes
      >>= _) = _
    cases hused : g.edges.contains r.name.key with
    | true =>
      rw [perform_addEdge_of_contains (h.accepted r List.mem_cons_self) hused]
      exact ⟨_, rfl⟩
    | false =>
      rw [perform_addEdge (h.accepted r List.mem_cons_self) hused
        (h.source_mem r List.mem_cons_self) (h.target_mem r List.mem_cons_self)
        (h.unlinked r List.mem_cons_self)]
      refine ih h.rest fun hnodup => repeated ?_
      have hentries : (g.plusEdge r.name r.source r.target r.attributes).edges.entries
          = g.edges.entries ++ [r.entry] :=
        Catalog.entries_insert_of_not_contains hused r.endpoints
      rw [hentries, List.append_assoc] at hnodup
      exact hnodup

end Graph
end EvolvingGraph
