/-
  EvolvingGraph.Proofs.Graph.Gathering
  ────────────────────────────────────
  **GRAPHS MADE OF EDGES THAT BRING THEIR ENDS ALONG.**

  Where a graph is described by its edges alone, the ends of an edge become
  nodes when the edge comes to them first, and the edge is added between them.
  This works out for all of a list of edges if no two share their name or their
  pair.  The graph that is made has these edges in their order, and their ends in
  the order in which they come up.

  Main statements:
    * `Fits.foldlM_requestRow` — edges that fit are added with their ends;
    * `foldl_plusRow` — what graph they make;
    * `Fits.coherent_ofRecords` — it is coherent;
    * `keys_ofRecords` — its nodes are the ends in order of first appearance.
-/
import EvolvingGraph.Proofs.Graph.Construction
import EvolvingGraph.Proofs.Graph.Following

namespace EvolvingGraph

/-! ## §1. Names in order of first appearance. -/

namespace Catalog

variable {α : Type} {a : α}

/-- File something under a name unless the name is taken. -/
def insertNew (a : α) (c : Catalog α) (name : Identifier) : Catalog α :=
  if c.contains name.key then c else c.insert name a

theorem identifiers_insert_of_not_contains {c : Catalog α} {name : Identifier}
    (h : c.contains name.key = false) (a : α) :
    (c.insert name a).identifiers = c.identifiers ++ [name] := by
  unfold identifiers
  rw [entries_insert_of_not_contains h, List.map_append]
  rfl

theorem contains_iff_mem_keys {c : Catalog α} {k : Key} :
    c.contains k = true ↔ k ∈ c.identifiers.map (·.key) := by
  rw [Graph.contains_iff_identifiers, List.mem_map]

/-- **Names that are filed unless they are taken stand in the order in which they
come up first.** -/
theorem keys_foldl_insertNew (a : α) (names : List Identifier) :
    (names.foldl (insertNew a) empty).identifiers.map (·.key)
      = (names.map (·.key)).eraseDups := by
  induction names using List.reverseRecOn with
  | nil => rfl
  | append_singleton names name ih =>
    -- the last name is taken, or it comes last
    rw [List.foldl_append, List.map_append, List.eraseDups_append, ← ih]
    have htaken : (names.foldl (insertNew a) empty).contains name.key = true
        ↔ name.key ∈ names.map (·.key) := by
      rw [contains_iff_mem_keys, ih, List.mem_eraseDups]
    generalize names.foldl (insertNew a) empty = c at htaken
    generalize names.map (·.key) = keys at htaken ⊢
    show (insertNew a c name).identifiers.map _ = _
    unfold insertNew
    by_cases h : c.contains name.key = true
    · rw [if_pos h]
      simp [List.removeAll, htaken.1 h]
    · rw [if_neg h, identifiers_insert_of_not_contains (Bool.eq_false_iff.2 h), List.map_append]
      simp [List.removeAll, List.eraseDups_cons, mt htaken.2 h]

end Catalog

/-! ## §2. All that the edges of a graph have. -/

namespace Graph

variable {g : Graph}

/-- The attributes of the link between two ends, none if there is no link. -/
def linkAttributes (g : Graph) (ends : Endpoints) : Attributes :=
  match g.link? ends.source.key ends.target.key with
  | some l => l.attributes
  | none => .empty

/-- An edge of a graph, with all that it has. -/
def recordOf (g : Graph) (e : Identifier × Endpoints) : EdgeRecord :=
  ⟨e.1, e.2.source, e.2.target, g.linkAttributes e.2⟩

/-- The edges of a graph, with all that they have. -/
def records (g : Graph) : List EdgeRecord := g.edges.entries.map g.recordOf

theorem Coherent.link?_eq (hg : g.Coherent) {e : Identifier × Endpoints}
    (he : e ∈ g.edges.entries) : ∃ l ∈ g.links, l.endpoints = e.2
      ∧ g.link? e.2.source.key e.2.target.key = some l
      ∧ g.linkAttributes e.2 = l.attributes := by
  obtain ⟨l, hl, hends, hlink⟩ := hg.link?_of_mem he
  refine ⟨l, hl, hends, hlink, ?_⟩
  unfold linkAttributes
  rw [hlink]

theorem Coherent.edgeAttributes_eq (hg : g.Coherent) {e : Identifier × Endpoints}
    (he : e ∈ g.edges.entries) : g.edgeAttributes e.1.value = .ok (g.linkAttributes e.2) := by
  obtain ⟨l, -, -, hlink, hattributes⟩ := hg.link?_eq he
  exact edgeAttributes_eq_ok_iff.2
    ⟨e.2, l, Coherent.endpoints_of_mem he, hlink, hattributes.symm⟩

/-- An edge that is there with its link has the attributes of the link. -/
theorem Coherent.edgeAttributes_of_link (hg : g.Coherent) {r : EdgeRecord}
    (hentry : r.entry ∈ g.edges.entries) (hlink : r.link ∈ g.links) :
    g.edgeAttributes r.name.value = .ok r.attributes := by
  -- the link that is found is its own: no other one has its ends
  obtain ⟨l, hl, hends, -, hattributes⟩ := hg.link?_eq hentry
  have hsame : l = r.link := List.inj_on_of_nodup_map hg.nodup_endpoints hl hlink hends
  have hread := hg.edgeAttributes_eq hentry
  rw [hattributes, hsame] at hread
  exact hread

theorem entries_records (g : Graph) : g.records.map EdgeRecord.entry = g.edges.entries := by
  unfold records
  rw [List.map_map]
  exact List.map_id _

/-- The links of a graph are those of its edges. -/
theorem Coherent.links_records (hg : g.Coherent) : g.links = g.records.map EdgeRecord.link := by
  unfold records
  rw [hg.links_eq, List.map_map]
  refine List.map_congr_left fun e he => ?_
  unfold attributesAt
  rw [hg.edgeAttributes_eq he]
  rfl

end Graph

/-! ## §3. Adding an edge with its ends. -/

namespace EdgeRecord

/-- The ends of an edge, the source first. -/
def ends (r : EdgeRecord) : List Identifier := [r.source, r.target]

end EdgeRecord

namespace Graph

variable {g : Graph} {r : EdgeRecord} {records : List EdgeRecord}

/-- The graph with a node, unless there is one of this name. -/
def plusEnd (g : Graph) (name : Identifier) : Graph :=
  { g with nodes := Catalog.insertNew .empty g.nodes name }

/-- The graph with one more edge, and with its ends. -/
def plusRow (g : Graph) (r : EdgeRecord) : Graph :=
  ((g.plusEnd r.source).plusEnd r.target).plusEdge r.name r.source r.target r.attributes

/-- The requests for the ends of an edge, unless they are there, and for the edge. -/
def requestRow (g : Graph) (r : EdgeRecord) : Except Error Graph := do
  let g ← g.ensureNode r.source.value
  let g ← g.ensureNode r.target.value
  g.perform r.request.1 r.request.2

/-- Edges can be added with their ends: nothing stands for an end, no two edges share
their name or their pair, and their attributes can be taken along. -/
structure Fits (g : Graph) (records : List EdgeRecord) : Prop where
  source_named : ∀ r ∈ records, r.source.value.isNull = false
  target_named : ∀ r ∈ records, r.target.value.isNull = false
  fresh : ((g.edges.entries ++ records.map EdgeRecord.entry).map (·.1.key)).Nodup
  unlinked : ∀ r ∈ records, g.linked r.source.key r.target.key = false
  apart : records.Pairwise fun r s => ¬r.endpoints.SamePair g.directed s.endpoints
  accepted : ∀ r ∈ records,
    (Change.addEdge r.name.value r.source.value r.target.value).accepts r.attributes = true

theorem contains_plusEnd (g : Graph) (name : Identifier) (k : Key) :
    (g.plusEnd name).nodes.contains k = (decide (name.key = k) || g.nodes.contains k) := by
  show (Catalog.insertNew .empty g.nodes name).contains k = _
  unfold Catalog.insertNew
  split
  · next h =>
    by_cases hk : name.key = k
    · rw [← hk, h, Bool.or_true]
    · rw [decide_eq_false hk, Bool.false_or]
  · exact Catalog.contains_insert _ _ _ _

theorem ensureNode_eq (g : Graph) {name : Identifier} (h : name.value.isNull = false) :
    g.ensureNode name.value = .ok (g.plusEnd name) := by
  have haccepted : (Change.addNode name.value).accepts .empty = true := rfl
  unfold ensureNode hasNode plusEnd Catalog.insertNew
  rw [name.key?_value]
  by_cases hc : g.nodes.contains name.key = true
  · rw [if_pos hc, if_pos hc]
  · rw [if_neg hc, if_neg hc]
    exact perform_addNode haccepted (Bool.eq_false_iff.2 hc) h

theorem Fits.fresh_head (h : g.Fits (r :: records)) : g.edges.contains r.name.key = false :=
  Catalog.contains_eq_false_of_nodup (e := r.entry) h.fresh

theorem Fits.requestRow_eq (h : g.Fits (r :: records)) : g.requestRow r = .ok (g.plusRow r) := by
  unfold requestRow
  rw [g.ensureNode_eq (h.source_named r List.mem_cons_self)]
  show ((g.plusEnd r.source).ensureNode r.target.value >>= _) = _
  rw [ensureNode_eq _ (h.target_named r List.mem_cons_self)]
  -- now the ends are there, and neither edges nor links have changed
  refine perform_addEdge (h.accepted r List.mem_cons_self) h.fresh_head ?_ ?_
    (h.unlinked r List.mem_cons_self)
  · simp [contains_plusEnd]
  · simp [contains_plusEnd]

/-- Once the first of the edges is there, the others can still be added. -/
theorem Fits.rest (h : g.Fits (r :: records)) : (g.plusRow r).Fits records where
  source_named := fun s hs => h.source_named s (List.mem_cons_of_mem _ hs)
  target_named := fun s hs => h.target_named s (List.mem_cons_of_mem _ hs)
  fresh := by
    show (((g.edges.insert r.name r.endpoints).entries ++ _).map _).Nodup
    rw [Catalog.entries_insert_of_not_contains h.fresh_head, List.append_assoc]
    exact h.fresh
  unlinked := fun s hs =>
    unlinked_plusEdge (g := (g.plusEnd r.source).plusEnd r.target)
      ((List.pairwise_cons.1 h.apart).1 s hs) (h.unlinked s (List.mem_cons_of_mem _ hs))
  apart := (List.pairwise_cons.1 h.apart).2
  accepted := fun s hs => h.accepted s (List.mem_cons_of_mem _ hs)

/-- **Edges that fit are added in their order, each with its ends.** -/
theorem Fits.foldlM_requestRow (h : g.Fits records) :
    records.foldlM requestRow g = .ok (records.foldl plusRow g) := by
  induction records generalizing g with
  | nil => rfl
  | cons r records ih =>
    rw [List.foldlM_cons, h.requestRow_eq]
    exact ih h.rest

/-- **What graph edges make with their ends.** -/
theorem foldl_plusRow (records : List EdgeRecord) (g : Graph) : records.foldl plusRow g
    = { g with
      nodes := (records.flatMap EdgeRecord.ends).foldl (Catalog.insertNew .empty) g.nodes
      links := g.links ++ records.map EdgeRecord.link
      edges := g.edges.insertAll (records.map EdgeRecord.entry) } := by
  induction records generalizing g with
  | nil => simp
  | cons r records ih =>
    rw [List.foldl_cons, ih]
    simp [plusRow, plusEnd, plusEdge, EdgeRecord.ends, EdgeRecord.link, EdgeRecord.entry,
      EdgeRecord.endpoints, Catalog.insertAll_cons]

/-! ## §4. The graph that edges make. -/

/-- The graph of some edges and their ends. -/
def ofRecords (directed : Bool) (records : List EdgeRecord) : Graph :=
  records.foldl plusRow (empty directed)

variable {directed : Bool}

theorem directed_ofRecords (directed : Bool) (records : List EdgeRecord) :
    (ofRecords directed records).directed = directed := by
  unfold ofRecords
  rw [foldl_plusRow]
  rfl

theorem links_ofRecords (directed : Bool) (records : List EdgeRecord) :
    (ofRecords directed records).links = records.map EdgeRecord.link := by
  unfold ofRecords
  rw [foldl_plusRow]
  exact List.nil_append _

theorem keys_ofRecords (directed : Bool) (records : List EdgeRecord) :
    (ofRecords directed records).nodes.identifiers.map (·.key)
      = ((records.flatMap EdgeRecord.ends).map (·.key)).eraseDups := by
  unfold ofRecords
  rw [foldl_plusRow]
  exact Catalog.keys_foldl_insertNew _ _

theorem Fits.entries_ofRecords (h : (empty directed).Fits records) :
    (ofRecords directed records).edges.entries = records.map EdgeRecord.entry := by
  unfold ofRecords
  rw [foldl_plusRow]
  exact Catalog.entries_insertAll h.fresh

theorem contains_ofRecords (hr : r ∈ records) {name : Identifier} (hname : name ∈ r.ends) :
    (ofRecords directed records).nodes.contains name.key = true := by
  rw [Catalog.contains_iff_mem_keys, keys_ofRecords, List.mem_eraseDups]
  exact List.mem_map_of_mem (List.mem_flatMap.2 ⟨r, hr, hname⟩)

/-- The graph of edges that fit is coherent. -/
theorem Fits.coherent_ofRecords (h : (empty directed).Fits records) :
    (ofRecords directed records).Coherent where
  aligned := by
    rw [links_ofRecords, h.entries_ofRecords, List.map_map, List.map_map]
    rfl
  ends_mem := by
    rw [h.entries_ofRecords]
    refine List.forall_mem_map.2 fun r hr => ?_
    have hsource : r.source ∈ r.ends := by simp [EdgeRecord.ends]
    have htarget : r.target ∈ r.ends := by simp [EdgeRecord.ends]
    exact ⟨contains_ofRecords hr hsource, contains_ofRecords hr htarget⟩
  apart := by
    rw [h.entries_ofRecords, directed_ofRecords]
    exact List.pairwise_map.2 h.apart

/-- An edge has the attributes that it was added with. -/
theorem Fits.edgeAttributes_ofRecords (h : (empty directed).Fits records) (hr : r ∈ records) :
    (ofRecords directed records).edgeAttributes r.name.value = .ok r.attributes := by
  refine h.coherent_ofRecords.edgeAttributes_of_link ?_ ?_
  · rw [h.entries_ofRecords]
    exact List.mem_map_of_mem hr
  · rw [links_ofRecords]
    exact List.mem_map_of_mem hr

end Graph

end EvolvingGraph
