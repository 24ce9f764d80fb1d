/-
  EvolvingGraph.Proofs.Table.Rows
  ───────────────────────────────
  **THE TABLE OF THE EDGES OF A GRAPH, CELL BY CELL.**

  The table has a row for an edge, and a column for everything that some edge
  has: an id, two ends, and the attributes, where the others have gaps.  What a
  cell shows is what the edge has, in the type of its column.

  Main statements:
    * `get?_row` — what an edge has, under which name;
    * `mem_keys_tableNames` — which columns there are;
    * `table_shows` — the table of a graph shows all its edges.
-/
import EvolvingGraph.Proofs.Graph.Gathering
import EvolvingGraph.Proofs.Table.Columns

namespace EvolvingGraph

/-! ## §1. Names that are text. -/

@[simp] theorem Identifier.key_ofText (s : String) : (Identifier.ofText s).key = .text s := rfl

/-- Nothing but text has the key of a text. -/
theorem Value.eq_str_of_key? {v : Value} {s : String} (h : v.key? = some (.text s)) :
    v = .str s := by
  have hkind := Value.kind_key h
  cases v with
  | str t => rw [Key.text.inj (Option.some.inj h)]
  | float x =>
    injection h with h
    split at h <;> exact absurd h (by simp)
  | tuple items => exact absurd hkind (by simp [Value.kind, Key.kind])
  | edge graph id source target => exact absurd hkind (by simp [Value.kind, Key.kind])
  | _ => exact absurd h (by simp [Value.key?])

/-- Whether names are text and not reserved can be told from their keys. -/
theorem Attributes.namedOutside_iff {a : Attributes} {reserved : List String} :
    NamedOutside a reserved
      ↔ ∀ k, Catalog.contains a k = true → ∃ s, k = .text s ∧ s ∉ reserved := by
  constructor
  · intro h k hk
    obtain ⟨name, hname, rfl⟩ := Graph.contains_iff_identifiers.1 hk
    obtain ⟨s, hs, hout⟩ := h name hname
    have hkey := name.key?_value
    rw [hs] at hkey
    exact ⟨s, (Option.some.inj hkey).symm, hout⟩
  · intro h name hname
    obtain ⟨s, hs, hout⟩ := h name.key (Graph.contains_iff_identifiers.2 ⟨name, hname, rfl⟩)
    exact ⟨s, Value.eq_str_of_key? (hs ▸ name.key?_value), hout⟩

theorem Attributes.NamedOutside.mono {a : Attributes} {reserved fewer : List String}
    (h : NamedOutside a reserved) (hsub : ∀ s ∈ fewer, s ∈ reserved) : NamedOutside a fewer :=
  fun name hname => (h name hname).imp fun s hs => ⟨hs.1, fun hmem => hs.2 (hsub s hmem)⟩

/-! ## §2. Rows. -/

namespace EdgeRecord

/-- The row of an edge. -/
def row (r : EdgeRecord) : Catalog Value := Graph.rowOf r.name r.endpoints r.attributes

/-- An edge that a table can show: all that it has are values which columns hold,
and its attributes have names of their own. -/
structure Tabular (r : EdgeRecord) : Prop where
  name : r.name.value.IsFirm
  source : r.source.value.IsFirm
  target : r.target.value.IsFirm
  values : ∀ a ∈ r.attributes.entries, a.2.IsFirm
  named : Attributes.NamedOutside r.attributes ["id", "source", "target", "self", "edge_id"]

variable {r : EdgeRecord} {k : Key}

theorem Tabular.not_contains (h : r.Tabular) (hk : k ∈ Graph.identityColumns.map (·.key)) :
    r.attributes.contains k = false := by
  rw [Bool.eq_false_iff]
  intro hcontains
  obtain ⟨s, rfl, hout⟩ := Attributes.namedOutside_iff.1 h.named k hcontains
  simp only [Graph.identityColumns, Identifier.key_ofText, List.map_cons, List.map_nil,
    List.mem_cons, List.not_mem_nil, or_false, Key.text.injEq] at hk
  obtain rfl | rfl | rfl := hk <;> exact hout (by simp)

theorem Tabular.entries_row (h : r.Tabular) : r.row.entries
    = [(.ofText "id", r.name.value), (.ofText "source", r.source.value),
        (.ofText "target", r.target.value)] ++ r.attributes.entries := by
  refine Catalog.entries_insertAll ?_
  show ((_ ++ r.attributes.entries).map _).Nodup
  rw [List.map_append]
  refine List.nodup_append.2 ⟨by simp, r.attributes.nodup, ?_⟩
  rintro k hk j hj rfl
  have hidentity : k ∈ Graph.identityColumns.map (·.key) := by
    simpa [Graph.identityColumns] using hk
  exact Catalog.contains_eq_false_iff.1 (h.not_contains hidentity) hj

theorem Tabular.identifiers_row (h : r.Tabular) :
    r.row.identifiers = Graph.identityColumns ++ r.attributes.identifiers := by
  unfold Catalog.identifiers
  rw [h.entries_row, List.map_append]
  rfl

/-- **What an edge has under which name.** -/
theorem Tabular.get?_row (h : r.Tabular) (k : Key) : r.row.get? k
    = if .text "id" = k then some r.name.value
      else if .text "source" = k then some r.source.value
      else if .text "target" = k then some r.target.value
      else r.attributes.get? k := by
  unfold Catalog.get? Catalog.entry?
  rw [h.entries_row]
  simp only [List.cons_append, List.nil_append, Catalog.map_findEntry_cons,
    Identifier.key_ofText]
  rfl

theorem Tabular.get?_row_of_not_mem (h : r.Tabular)
    (hk : k ∉ Graph.identityColumns.map (·.key)) : r.row.get? k = r.attributes.get? k := by
  simp only [Graph.identityColumns, Identifier.key_ofText, List.map_cons, List.map_nil,
    List.mem_cons, List.not_mem_nil, or_false, not_or] at hk
  rw [h.get?_row, if_neg (Ne.symm hk.1), if_neg (Ne.symm hk.2.1), if_neg (Ne.symm hk.2.2)]

/-- Every edge has an id and two ends. -/
theorem Tabular.exists_get?_row (h : r.Tabular) (hk : k ∈ Graph.identityColumns.map (·.key)) :
    ∃ v, r.row.get? k = some v := by
  simp only [Graph.identityColumns, Identifier.key_ofText, List.map_cons, List.map_nil,
    List.mem_cons, List.not_mem_nil, or_false] at hk
  obtain rfl | rfl | rfl := hk <;> exact ⟨_, h.get?_row _⟩

theorem Tabular.isFirm_of_get?_row (h : r.Tabular) {v : Value} (hv : r.row.get? k = some v) :
    v.IsFirm := by
  rw [h.get?_row] at hv
  split_ifs at hv
  · exact Option.some.inj hv ▸ h.name
  · exact Option.some.inj hv ▸ h.source
  · exact Option.some.inj hv ▸ h.target
  · obtain ⟨name, hmem, -⟩ := Catalog.get?_eq_some_iff.1 hv
    exact h.values _ hmem

end EdgeRecord

/-! ## §3. The columns of a table. -/

/-- A table shows edges: its columns are named by text, each by another one; there
is a column for all that some edge has; and a cell shows what its edge has. -/
structure Table.Shows (t : Table) (records : List EdgeRecord) : Prop where
  height : t.height = records.length
  named : ∀ c ∈ t.columns, ∃ s, c.name = .str s
  apart : (t.columns.map (·.name.key?)).Nodup
  complete : ∀ k, (k ∈ Graph.identityColumns.map (·.key)
    ∨ ∃ r ∈ records, r.attributes.contains k = true) → ∃ c ∈ t.columns, c.name.key? = some k
  kept : ∀ c ∈ t.columns, ∀ k, c.name.key? = some k →
    List.Forall₂ (fun r w => Column.Kept ((r.row.get? k).getD (.nan 0)) w) records c.cells

namespace Graph

section Columns

variable {records : List EdgeRecord}

/-- The names of the columns of a table with the given rows. -/
def tableNames (rows : List (Catalog Value)) : List Identifier :=
  if rows.isEmpty then identityColumns else columnNames rows

theorem columnNames_eq (rows : List (Catalog Value)) : columnNames rows
    = ((rows.flatMap (·.identifiers)).foldl (Catalog.insertNew ()) .empty).identifiers := by
  rw [List.foldl_flatMap]
  rfl

theorem nodup_tableNames (rows : List (Catalog Value)) :
    ((tableNames rows).map (·.key)).Nodup := by
  unfold tableNames
  split
  · decide
  · exact Catalog.nodup_keys _

/-- **The columns of a table are those that every edge has, and one for each
attribute that some edge has.** -/
theorem mem_keys_tableNames (h : ∀ r ∈ records, r.Tabular) {k : Key} :
    k ∈ (tableNames (records.map EdgeRecord.row)).map (·.key)
      ↔ k ∈ identityColumns.map (·.key) ∨ ∃ r ∈ records, r.attributes.contains k = true := by
  unfold tableNames
  cases records with
  | nil => simp
  | cons r records =>
    -- every row has the first three columns, so they come first if there is one
    rw [List.map_cons, if_neg (by simp), columnNames_eq, Catalog.keys_foldl_insertNew,
      List.mem_eraseDups, ← List.map_cons]
    simp only [List.mem_map, List.mem_flatMap, exists_exists_and_eq_and]
    constructor
    · rintro ⟨name, ⟨s, hs, hname⟩, rfl⟩
      rw [(h s hs).identifiers_row, List.mem_append] at hname
      obtain hname | hname := hname
      · exact .inl ⟨name, hname, rfl⟩
      · exact .inr ⟨s, hs, contains_iff_identifiers.2 ⟨name, hname, rfl⟩⟩
    · rintro (⟨name, hname, rfl⟩ | ⟨s, hs, hcontains⟩)
      · refine ⟨name, ⟨r, List.mem_cons_self, ?_⟩, rfl⟩
        rw [(h r List.mem_cons_self).identifiers_row]
        exact List.mem_append_left _ hname
      · obtain ⟨name, hname, rfl⟩ := contains_iff_identifiers.1 hcontains
        refine ⟨name, ⟨s, hs, ?_⟩, rfl⟩
        rw [(h s hs).identifiers_row]
        exact List.mem_append_right _ hname

theorem eq_str_of_mem_tableNames (h : ∀ r ∈ records, r.Tabular) {name : Identifier}
    (hname : name ∈ tableNames (records.map EdgeRecord.row)) : ∃ s, name.value = .str s := by
  have hkey := (mem_keys_tableNames h).1 (List.mem_map_of_mem hname)
  have htext : ∃ s, name.key = .text s := by
    obtain hidentity | ⟨r, hr, hcontains⟩ := hkey
    · obtain ⟨other, hother, hkey⟩ := List.mem_map.1 hidentity
      rw [← hkey]
      simp only [identityColumns, List.mem_cons, List.not_mem_nil, or_false] at hother
      obtain rfl | rfl | rfl := hother <;> exact ⟨_, rfl⟩
    · obtain ⟨s, hs, -⟩ := Attributes.namedOutside_iff.1 (h r hr).named _ hcontains
      exact ⟨s, hs⟩
  obtain ⟨s, hs⟩ := htext
  exact ⟨s, Value.eq_str_of_key? (hs ▸ name.key?_value)⟩

/-- The table with the given rows. -/
def tableOf (rows : List (Catalog Value)) (firstMark : Nat) : Table where
  columns := (tableNames rows).mapIdx fun i name =>
    ⟨name.value, Column.normalised (firstMark + i * rows.length)
      (rows.map fun row => (row.get? name.key).getD (.nan 0))⟩
  height := rows.length

theorem mem_columns_tableOf {rows : List (Catalog Value)} {mark : Nat} {c : NamedColumn}
    (h : c ∈ (tableOf rows mark).columns) : ∃ name ∈ tableNames rows, ∃ mark',
      c = ⟨name.value, Column.normalised mark'
        (rows.map fun row => (row.get? name.key).getD (.nan 0))⟩ := by
  obtain ⟨i, hi, rfl⟩ := List.mem_mapIdx.1 h
  exact ⟨_, List.getElem_mem hi, _, rfl⟩

theorem keys_columns_tableOf (rows : List (Catalog Value)) (mark : Nat) :
    (tableOf rows mark).columns.map (·.name.key?)
      = ((tableNames rows).map (·.key)).map some := by
  refine List.ext_getElem? fun i => ?_
  simp only [tableOf, List.getElem?_map, List.getElem?_mapIdx, Option.map_map]
  congr 1
  funext name
  exact name.key?_value

/-- **A table shows the edges that its rows are made of.** -/
theorem shows_tableOf (h : ∀ r ∈ records, r.Tabular) (mark : Nat) :
    (tableOf (records.map EdgeRecord.row) mark).Shows records where
  height := List.length_map _
  named := by
    intro c hc
    obtain ⟨name, hname, mark', rfl⟩ := mem_columns_tableOf hc
    exact eq_str_of_mem_tableNames h hname
  apart := by
    rw [keys_columns_tableOf]
    exact (nodup_tableNames _).map (Option.some_injective _)
  complete := by
    intro k hk
    have hmem : some k ∈ (tableOf (records.map EdgeRecord.row) mark).columns.map
        (·.name.key?) := by
      rw [keys_columns_tableOf]
      exact List.mem_map_of_mem ((mem_keys_tableNames h).2 hk)
    exact List.mem_map.1 hmem
  kept := by
    intro c hc k hk
    obtain ⟨name, -, mark', rfl⟩ := mem_columns_tableOf hc
    obtain rfl : name.key = k := Option.some.inj (name.key?_value.symm.trans hk)
    refine (List.forall₂_map_left_iff
      (f := fun r : EdgeRecord => (r.row.get? name.key).getD (.nan 0))).1 ?_
    rw [List.map_map]
    refine Column.normalised_kept _ fun v hv hpresent => ?_
    -- a cell that is not missing shows what its edge has
    obtain ⟨r, hr, rfl⟩ := List.mem_map.1 hv
    cases hget : r.row.get? name.key with
    | some w => exact (h r hr).isFirm_of_get?_row hget
    | none =>
      have hpresent : Column.isMissing ((r.row.get? name.key).getD (.nan 0)) = false := hpresent
      rw [hget] at hpresent
      exact absurd hpresent (by simp [Column.isMissing])

end Columns

/-! ## §4. The table of a graph. -/

variable {g : Graph}

theorem Coherent.edgeRows_eq (hg : g.Coherent) :
    g.edgeRows = .ok (g.records.map EdgeRecord.row) := by
  unfold records
  rw [List.map_map]
  refine mapM_eq_ok fun e he => ?_
  show (g.edgeAttributes e.1.value >>= fun a => _) = _
  rw [hg.edgeAttributes_eq he]
  rfl

/-- All that a graph has to say of its edges is text, truth values, doubles but
NaN, and whole numbers below 2⁵³, under names that are not taken. -/
structure Plain (g : Graph) : Prop where
  edge_ids : ∀ id ∈ g.edges.identifiers, id.value.IsPlain
  node_ids : ∀ id ∈ g.nodes.identifiers, id.value.IsPlain
  values : ∀ l ∈ g.links, ∀ a ∈ l.attributes.entries, a.2.IsPlain
  names : ∀ l ∈ g.links,
    Attributes.NamedOutside l.attributes ["id", "source", "target", "self", "edge_id"]

/-- An end of an edge is a node, if under another form of its name. -/
theorem Plain.isFirm_of_contains (h : g.Plain) {name : Identifier}
    (hname : g.nodes.contains name.key = true) : name.value.IsFirm := by
  obtain ⟨node, hnode, hkey⟩ := contains_iff_identifiers.1 hname
  refine Value.isFirm_of_key?_eq (h.node_ids node hnode).isFirm ?_
  rw [name.key?_value, node.key?_value, hkey]

theorem Plain.tabular (h : g.Plain) (hg : g.Coherent) : ∀ r ∈ g.records, r.Tabular := by
  intro r hr
  obtain ⟨e, he, rfl⟩ := List.mem_map.1 hr
  obtain ⟨l, hl, -, -, hattributes⟩ := hg.link?_eq he
  obtain ⟨hsource, htarget⟩ := hg.ends_mem e he
  exact {
    name := (h.edge_ids e.1 (List.mem_map_of_mem he)).isFirm
    source := h.isFirm_of_contains hsource
    target := h.isFirm_of_contains htarget
    values := fun a ha => (h.values l hl a (hattributes ▸ ha)).isFirm
    named := by
      show Attributes.NamedOutside (g.linkAttributes e.2) _
      rw [hattributes]
      exact h.names l hl }

/-- **The table of a graph shows all its edges.** -/
theorem table_shows (hg : g.Coherent) (h : ∀ r ∈ g.records, r.Tabular) (mark : Nat) :
    ∃ t, g.table mark = .ok t ∧ t.Shows g.records := by
  refine ⟨tableOf (g.records.map EdgeRecord.row) mark, ?_, shows_tableOf h mark⟩
  unfold table
  rw [hg.edgeRows_eq]
  rfl

end Graph
end EvolvingGraph
