/-
  EvolvingGraph.Proofs.Table.Identity
  ───────────────────────────────────
  **WHICH EDGE A ROW IS ABOUT.**

  A table of edges has a row for each edge, in the order of the edges, and three
  columns that come first: the id, the source and the target.  They are filled
  before the attributes, which are filed in the same row.  An attribute that is
  called like one of the three thus takes the cell: the row of an edge without
  such an attribute shows the id and the ends, any other row shows what the
  attribute holds instead.

  Main statements:
    * `get?_insertAll` — of what is filed under one name the last counts;
    * `identityColumns_prefix` — which columns come first;
    * `table_identifies` — what the first three cells of all rows show.
-/
import EvolvingGraph.Proofs.Table.Rows

namespace EvolvingGraph

/-! ## §1. Filing several things. -/

namespace Catalog

variable {α : Type}

/-- **What is found after filing several things**: one of them, or what was there. -/
theorem get?_insertAll {c : Catalog α} {new : List (Identifier × α)}
    (h : (new.map (·.1.key)).Nodup) (k : Key) :
    (c.insertAll new).get? k = ((findEntry k new).map (·.2)).or (c.get? k) := by
  induction new generalizing c with
  | nil => rfl
  | cons e new ih =>
    obtain ⟨hfresh, hrest⟩ := List.nodup_cons.1 h
    rw [insertAll_cons, ih hrest, map_findEntry_cons]
    by_cases hk : e.1.key = k
    · -- nothing that comes later has this key
      subst hk
      rw [if_pos rfl, findEntry_eq_none_iff.2 hfresh, get?_insert_self]
      rfl
    · rw [if_neg hk, get?_insert_of_ne _ _ _ (Ne.symm hk)]

/-- Filing something leaves the names that are there in front. -/
theorem prefix_identifiers_insert (c : Catalog α) (name : Identifier) (a : α) :
    c.identifiers <+: (c.insert name a).identifiers := by
  cases h : c.contains name.key with
  | true => rw [Graph.identifiers_insert_of_contains h]
  | false => exact identifiers_insert_of_not_contains h a ▸ List.prefix_append _ _

theorem prefix_identifiers_insertAll (c : Catalog α) (new : List (Identifier × α)) :
    c.identifiers <+: (c.insertAll new).identifiers := by
  induction new generalizing c with
  | nil => exact List.prefix_rfl
  | cons e new ih => exact (prefix_identifiers_insert c e.1 e.2).trans (ih _)

theorem prefix_foldl_insertNew (a : α) (c : Catalog α) (names : List Identifier) :
    c.identifiers <+: (names.foldl (insertNew a) c).identifiers := by
  induction names generalizing c with
  | nil => exact List.prefix_rfl
  | cons name names ih =>
    refine List.IsPrefix.trans ?_ (ih (insertNew a c name))
    unfold insertNew
    split
    · exact List.prefix_rfl
    · exact prefix_identifiers_insert c name a

end Catalog

/-! ## §2. The cells that identify an edge. -/

namespace EdgeRecord

/-- What identifies an edge, and the names of the columns for it. -/
def identityFields : List (String × (EdgeRecord → Value)) :=
  [("id", (·.name.value)), ("source", (·.source.value)), ("target", (·.target.value))]

/-- What the row of an edge tells under the name of such a column: the attribute
of this name, if the edge has one, else what the column is for. -/
def told (r : EdgeRecord) (field : String × (EdgeRecord → Value)) : Value :=
  (r.attributes.get? (.text field.1)).getD (field.2 r)

/-- No attribute of the edge is called like what identifies it. -/
def LeavesIdentity (r : EdgeRecord) : Prop :=
  ∀ field ∈ identityFields, r.attributes.contains (.text field.1) = false

variable {r : EdgeRecord} {field : String × (EdgeRecord → Value)}

theorem LeavesIdentity.map_told (h : r.LeavesIdentity) :
    identityFields.map r.told = [r.name.value, r.source.value, r.target.value] := by
  have hnone : ∀ field ∈ identityFields, r.told field = field.2 r := by
    intro field hfield
    have hget : r.attributes.get? (.text field.1) = none := by
      simpa [Catalog.contains] using h field hfield
    unfold told
    rw [hget]
    rfl
  exact List.map_congr_left hnone

/-- The row of an edge before its attributes are filed. -/
def bareRow (r : EdgeRecord) : Catalog Value := Graph.rowOf r.name r.endpoints .empty

theorem row_eq (r : EdgeRecord) : r.row = r.bareRow.insertAll r.attributes.entries := rfl

theorem get?_row_of_field (hfield : field ∈ identityFields) :
    r.row.get? (.text field.1) = some (r.told field) := by
  have hbare : r.bareRow.get? (.text field.1) = some (field.2 r) := by
    simp only [identityFields, List.mem_cons, List.not_mem_nil, or_false] at hfield
    obtain rfl | rfl | rfl := hfield <;> rfl
  rw [row_eq, Catalog.get?_insertAll r.attributes.nodup, hbare]
  show (r.attributes.get? (.text field.1)).or _ = some (r.told field)
  unfold told
  cases r.attributes.get? (.text field.1) <;> rfl

end EdgeRecord

/-! ## §3. The columns that come first. -/

namespace Graph

open EdgeRecord (identityFields)

variable {records : List EdgeRecord}

theorem identityColumns_eq :
    identityColumns = identityFields.map fun field => .ofText field.1 := rfl

/-- **The columns that identify an edge come first.** -/
theorem identityColumns_prefix (records : List EdgeRecord) :
    identityColumns <+: tableNames (records.map EdgeRecord.row) := by
  unfold tableNames
  cases records with
  | nil => exact List.prefix_rfl
  | cons r records =>
    -- the names of the first row are gone through first, and these are the first of them
    obtain ⟨rest, hrest⟩ : identityColumns <+: r.row.identifiers :=
      Catalog.prefix_identifiers_insertAll r.bareRow r.attributes.entries
    rw [List.map_cons, List.isEmpty_cons, if_neg Bool.false_ne_true, columnNames_eq,
      List.flatMap_cons, ← hrest, List.append_assoc, List.foldl_append]
    exact Catalog.prefix_foldl_insertNew () (identityColumns.foldl (Catalog.insertNew ()) .empty) _

/-- The column for one of the things that identify an edge. -/
def identityColumn (records : List EdgeRecord) (firstMark i : Nat)
    (field : String × (EdgeRecord → Value)) : NamedColumn :=
  ⟨.str field.1, Column.normalised (firstMark + i * records.length) (records.map (·.told field))⟩

/-- What the first columns hold. -/
theorem take_columns_tableOf (records : List EdgeRecord) (firstMark : Nat) :
    (tableOf (records.map EdgeRecord.row) firstMark).columns.take 3
      = identityFields.mapIdx (identityColumn records firstMark) := by
  obtain ⟨rest, hrest⟩ := identityColumns_prefix records
  show ((tableNames (records.map EdgeRecord.row)).mapIdx _).take 3 = _
  rw [← hrest, List.mapIdx_append]
  refine (List.take_left' (List.length_mapIdx (l := identityColumns))).trans ?_
  rw [identityColumns_eq]
  refine List.ext_getElem? fun i => ?_
  simp only [List.getElem?_mapIdx, List.getElem?_map, Option.map_map]
  refine Option.map_congr fun field hfield => ?_
  have hmem : field ∈ identityFields := List.mem_of_getElem? hfield
  have hcells : (records.map EdgeRecord.row).map
      (fun row => (row.get? (.text field.1)).getD (.nan 0)) = records.map (·.told field) := by
    rw [List.map_map]
    refine List.map_congr_left fun r _ => ?_
    show (r.row.get? (.text field.1)).getD _ = _
    rw [EdgeRecord.get?_row_of_field hmem]
    rfl
  simp only [Function.comp, Identifier.key_ofText, hcells, List.length_map]
  rfl

end Graph

/-! ## §4. The rows. -/

/-- A table identifies edges: each of its columns has a name of its own; the first
three tell what identifies the edges, or what the attributes hold that are called so;
and there is a row for each edge, in their order, which shows the id and the two ends
of its edge if no attribute of the edge is called like one of them. -/
structure Table.Identifies (t : Table) (firstMark : Nat) (records : List EdgeRecord) : Prop where
  apart : (t.columns.map (·.name.key?)).Nodup
  columns : t.columns.take 3
    = EdgeRecord.identityFields.mapIdx (Graph.identityColumn records firstMark)
  told : List.Forall₂ (fun r row =>
    List.Forall₂ Column.Shown (EdgeRecord.identityFields.map r.told) (row.take 3)) records t.rows
  identified : List.Forall₂ (fun r row => r.LeavesIdentity →
    List.Forall₂ Column.Shown [r.name.value, r.source.value, r.target.value] (row.take 3))
    records t.rows

namespace Graph

open EdgeRecord (identityFields)

variable {records : List EdgeRecord} {firstMark : Nat}

/-- A cell of a column shows what its edge has. -/
theorem shown_identityColumn {k : Nat} {r : EdgeRecord} (hr : records[k]? = some r) (i : Nat)
    (field : String × (EdgeRecord → Value)) :
    Column.Shown (r.told field)
      (((identityColumn records firstMark i field).cells[k]?).getD .null) := by
  have hshown := Column.normalised_shown (firstMark + i * records.length)
    (records.map (·.told field))
  obtain ⟨hlength, hcells⟩ := List.forall₂_iff_get.1 hshown
  obtain ⟨hk, rfl⟩ := List.getElem?_eq_some_iff.1 hr
  have hk' : k < (records.map (·.told field)).length := by simpa using hk
  have hcell := hcells k hk' (hlength ▸ hk')
  simpa [identityColumn, List.getElem?_eq_getElem (hlength ▸ hk')] using hcell

/-- **What the first three cells of all rows show.** -/
theorem told_tableOf (records : List EdgeRecord) (firstMark : Nat) :
    List.Forall₂ (fun r row => List.Forall₂ Column.Shown (identityFields.map r.told)
      (row.take 3)) records (tableOf (records.map EdgeRecord.row) firstMark).rows := by
  refine List.forall₂_iff_get.2 ⟨by simp [Table.rows, tableOf], fun k hk _ => ?_⟩
  simp only [Table.rows, List.get_eq_getElem, List.getElem_map, List.getElem_range,
    ← List.map_take, take_columns_tableOf]
  refine (List.forall₂_map_left_iff).2 ((List.forall₂_map_right_iff).2 ?_)
  exact Column.forall₂_mapIdx fun i field _ =>
    shown_identityColumn (List.getElem?_eq_getElem hk) i field

theorem identifies_tableOf (records : List EdgeRecord) (firstMark : Nat) :
    (tableOf (records.map EdgeRecord.row) firstMark).Identifies firstMark records where
  apart := by
    rw [keys_columns_tableOf]
    exact (nodup_tableNames _).map (Option.some_injective _)
  columns := take_columns_tableOf records firstMark
  told := told_tableOf records firstMark
  identified := (told_tableOf records firstMark).imp fun r row h hidentity =>
    hidentity.map_told ▸ h

variable {g : Graph}

/-- **The table of a graph has a row for each edge, in their order, and its first three
columns are for the id, the source and the target; each row shows them unless its edge
has an attribute that is called so, which is then shown instead.** -/
theorem table_identifies_edges (hg : g.Coherent) (firstMark : Nat) :
    ∃ t records, g.table firstMark = .ok t ∧ records.map EdgeRecord.entry = g.edges.entries
      ∧ (∀ r ∈ records, g.edgeAttributes r.name.value = .ok r.attributes)
      ∧ t.Identifies firstMark records := by
  refine ⟨tableOf (g.records.map EdgeRecord.row) firstMark, g.records, ?_, g.entries_records,
    List.forall_mem_map.2 fun e he => hg.edgeAttributes_eq he, identifies_tableOf _ _⟩
  unfold table
  rw [hg.edgeRows_eq]
  rfl

/-- Two edges, one of which has an attribute that is called "id". -/
def relabelled : Graph :=
  (empty false).applied
    [.addNode (.int 1), .addNode (.int 2),
      .addEdge (.str "e") (.int 1) (.int 2), .setAttribute .edge (.str "e") (.str "id") (.int 5),
      .addEdge (.str "f") (.int 2) (.int 2)]

theorem reachable_relabelled : relabelled.Reachable :=
  (Reachable.empty false).applied (by simp)

theorem table_identifies_edges_relabelled :
    ∃ t records, relabelled.table 1 = .ok t
      ∧ records.map EdgeRecord.entry = relabelled.edges.entries
      ∧ (∀ r ∈ records, relabelled.edgeAttributes r.name.value = .ok r.attributes)
      ∧ t.Identifies 1 records :=
  table_identifies_edges reachable_relabelled.coherent 1

/-- The first row tells nothing of the name of its edge. -/
theorem table_hides_edge_relabelled :
    relabelled.Reachable
      ∧ relabelled.edges.identifiers.map (·.value) = [.str "e", .str "f"]
      ∧ (relabelled.table 1).map (fun t => (t.columns.map (·.name), t.rows))
        = .ok ([.str "id", .str "source", .str "target"],
          [[.int 5, .int 1, .int 2], [.str "f", .int 2, .int 2]]) :=
  ⟨reachable_relabelled, rfl, rfl⟩

end Graph
end EvolvingGraph
