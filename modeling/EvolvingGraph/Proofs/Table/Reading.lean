/-
  EvolvingGraph.Proofs.Table.Reading
  ──────────────────────────────────
  **WHAT THE ROWS OF A TABLE OF EDGES TELL.**

  A row is read as an edge: three of its cells are the id and the ends, the
  others are attributes where they are no gaps.  The edge that is read off the
  table of a graph is like the one that the row was made of: whatever the columns
  have done to its values, they have the keys that they had, and it has no
  attribute more and none less.

  Main statements:
    * `ColumnRoles.addRow_eq` — to add a row is to request the edge that it tells of;
    * `Shows.alike` — a row of the table of a graph tells what its edge has;
    * `Shows.ofTable_eq` — to read the table is to request edges like those of the graph.
-/
import EvolvingGraph.Proofs.Table.Rows

namespace EvolvingGraph

/-! ## §1. Edges that are alike. -/

/-- Of two edges the second is what the first may become in a table: its id, its
ends and the values of its attributes have the same keys. -/
structure EdgeRecord.Alike (r r' : EdgeRecord) : Prop where
  name : r'.name.key = r.name.key
  source : r'.source.key = r.source.key
  target : r'.target.key = r.target.key
  attributes : ∀ k, Option.Rel (fun v w : Value => w.key? = v.key?)
    (r.attributes.get? k) (r'.attributes.get? k)

namespace EdgeRecord.Alike

variable {r r' s s' : EdgeRecord}

theorem key?_name (h : r.Alike r') : r'.name.value.key? = r.name.value.key? := by
  rw [r'.name.key?_value, r.name.key?_value, h.name]

theorem key?_source (h : r.Alike r') : r'.source.value.key? = r.source.value.key? := by
  rw [r'.source.key?_value, r.source.key?_value, h.source]

theorem key?_target (h : r.Alike r') : r'.target.value.key? = r.target.value.key? := by
  rw [r'.target.key?_value, r.target.key?_value, h.target]

theorem contains_eq (h : r.Alike r') (k : Key) :
    r'.attributes.contains k = r.attributes.contains k := by
  have hk := h.attributes k
  unfold Catalog.contains
  generalize r.attributes.get? k = x at hk
  generalize r'.attributes.get? k = y at hk
  cases hk <;> rfl

theorem namedOutside (h : r.Alike r') {reserved : List String}
    (hr : Attributes.NamedOutside r.attributes reserved) :
    Attributes.NamedOutside r'.attributes reserved :=
  Attributes.namedOutside_iff.2 fun k hk =>
    Attributes.namedOutside_iff.1 hr k ((h.contains_eq k).symm.trans hk)

theorem samePair_iff (h : r.Alike r') (h' : s.Alike s') (directed : Bool) :
    r'.endpoints.SamePair directed s'.endpoints ↔ r.endpoints.SamePair directed s.endpoints := by
  show (_ ∧ _) ∨ (_ ∧ _ ∧ _) ↔ (_ ∧ _) ∨ (_ ∧ _ ∧ _)
  simp only [endpoints, h.source, h.target, h'.source, h'.target]

end EdgeRecord.Alike

/-! ## §2. Reading a row. -/

/-- Attributes that are listed with their names are filed under them. -/
theorem Attributes.ofPairs?_map (new : List (Identifier × Value)) :
    ofPairs? (new.map fun e => (e.1.value, e.2)) = some (Catalog.empty.insertAll new) := by
  unfold ofPairs?
  generalize Catalog.empty = c
  induction new generalizing c with
  | nil => rfl
  | cons e new ih =>
    have hname : Identifier.ofValue? e.1.value = some e.1 :=
      Identifier.ofValue?_eq_some_iff.2 rfl
    rw [List.map_cons, List.foldlM_cons]
    show ((Identifier.ofValue? e.1.value).map (fun id => c.insert id e.2) >>= _) = _
    rw [hname]
    exact ih _

/-- What the columns of a table are read as. -/
structure ColumnRoles where
  source : NamedColumn
  target : NamedColumn
  edgeId : NamedColumn
  others : List NamedColumn

namespace ColumnRoles

variable {roles : ColumnRoles} {t : Table} {i : Nat}

/-- The attributes that a row tells of: those without a gap in it. -/
def attributesAt (roles : ColumnRoles) (i : Nat) : Attributes :=
  Catalog.empty.insertAll
    ((roles.others.filter fun c => !Column.isMissing (Graph.cellAt i c)).map fun c =>
      (c.name.asName, Graph.cellAt i c))

/-- The edge that a row tells of. -/
def recordAt (roles : ColumnRoles) (i : Nat) : EdgeRecord where
  name := (Graph.cellAt i roles.edgeId).asName
  source := (Graph.cellAt i roles.source).asName
  target := (Graph.cellAt i roles.target).asName
  attributes := roles.attributesAt i

/-- The columns have the roles that their names give them. -/
structure Of (roles : ColumnRoles) (t : Table) : Prop where
  source_mem : roles.source ∈ t.columns
  source_key : roles.source.name.key? = some (.text "source")
  target_mem : roles.target ∈ t.columns
  target_key : roles.target.name.key? = some (.text "target")
  edgeId_mem : roles.edgeId ∈ t.columns
  edgeId_key : roles.edgeId.name.key? = some (.text "id")
  others_eq : roles.others = t.columns.filter fun c =>
    !([some (Key.text "source"), some (.text "target"), some (.text "id")].contains c.name.key?)

theorem Of.mem_others (h : roles.Of t) {c : NamedColumn} {k : Key}
    (hk : c.name.key? = some k) :
    c ∈ roles.others ↔ c ∈ t.columns ∧ k ∉ Graph.identityColumns.map (·.key) := by
  rw [h.others_eq, List.mem_filter, hk]
  simp [Graph.identityColumns, and_comm, and_left_comm]

theorem Of.mem_columns (h : roles.Of t) {c : NamedColumn} (hc : c ∈ roles.others) :
    c ∈ t.columns := by
  rw [h.others_eq] at hc
  exact List.mem_of_mem_filter hc

theorem describedAttributes_eq (h : ∀ c ∈ roles.others, ∃ s, c.name = .str s) (i : Nat) :
    Network.describedAttributes
        ((roles.others.map fun c => (c.name, Graph.cellAt i c)).filter (!Column.isMissing ·.2))
      = .ok (roles.attributesAt i) := by
  have hpairs : (roles.others.map fun c => (c.name, Graph.cellAt i c)).filter
        (!Column.isMissing ·.2)
      = ((roles.others.filter fun c => !Column.isMissing (Graph.cellAt i c)).map fun c =>
          (c.name.asName, Graph.cellAt i c)).map fun e => (e.1.value, e.2) := by
    rw [List.filter_map, List.map_map]
    refine List.map_congr_left fun c hc => ?_
    obtain ⟨s, hs⟩ := h c (List.mem_of_mem_filter hc)
    have hname : c.name.asName.value = c.name := Value.asName_value (k := .text s) (by rw [hs]; rfl)
    exact congrArg (·, Graph.cellAt i c) hname.symm
  unfold Network.describedAttributes attributesAt
  rw [hpairs, Attributes.ofPairs?_map]

theorem key_asName (named : ∀ c ∈ roles.others, ∃ s, c.name = .str s) {c : NamedColumn}
    (hc : c ∈ roles.others) : c.name.key? = some c.name.asName.key := by
  obtain ⟨s, hs⟩ := named c hc
  rw [hs, Value.asName_key (k := .text s) rfl]
  rfl

/-- The cells without a gap are filed as they are: no column has the name of another. -/
theorem entries_attributesAt (named : ∀ c ∈ roles.others, ∃ s, c.name = .str s)
    (apart : (roles.others.map (·.name.key?)).Nodup) (i : Nat) :
    (roles.attributesAt i).entries
      = (roles.others.filter fun c => !Column.isMissing (Graph.cellAt i c)).map fun c =>
        (c.name.asName, Graph.cellAt i c) := by
  refine Catalog.entries_insertAll (c := .empty) ?_
  show (List.map _ (List.map _ _)).Nodup
  rw [List.map_map]
  -- the keys of the names are the keys of the columns
  have hkeys : (roles.others.filter fun c => !Column.isMissing (Graph.cellAt i c)).map
        (·.name.key?)
      = ((roles.others.filter fun c => !Column.isMissing (Graph.cellAt i c)).map
        ((fun e : Identifier × Value => e.1.key) ∘ fun c =>
          (c.name.asName, Graph.cellAt i c))).map some := by
    rw [List.map_map]
    exact List.map_congr_left fun c hc => key_asName named (List.mem_of_mem_filter hc)
  refine List.Nodup.of_map some ?_
  rw [← hkeys]
  exact apart.sublist (List.filter_sublist.map _)

/-- The attributes that a row tells of are the cells without a gap. -/
theorem get?_attributesAt (named : ∀ c ∈ roles.others, ∃ s, c.name = .str s)
    (apart : (roles.others.map (·.name.key?)).Nodup) {k : Key} {v : Value} :
    (roles.attributesAt i).get? k = some v ↔ ∃ c ∈ roles.others, c.name.key? = some k
      ∧ Graph.cellAt i c = v ∧ Column.isMissing v = false := by
  rw [Catalog.get?_eq_some_iff, entries_attributesAt named apart]
  simp only [List.mem_map, List.mem_filter, Bool.not_eq_true', Prod.mk.injEq]
  constructor
  · rintro ⟨name, ⟨c, ⟨hc, hpresent⟩, rfl, rfl⟩, hk⟩
    exact ⟨c, hc, hk ▸ key_asName named hc, rfl, hpresent⟩
  · rintro ⟨c, hc, hk, rfl, hpresent⟩
    exact ⟨_, ⟨c, ⟨hc, hpresent⟩, rfl, rfl⟩,
      Option.some.inj ((key_asName named hc).symm.trans hk)⟩

/-- To add the edge of a row is to see to its ends, and then to ask for it. -/
theorem addRow_eq_perform (named : ∀ c ∈ roles.others, ∃ s, c.name = .str s) (i : Nat)
    (g : Graph) : g.addRow roles.source roles.target (some roles.edgeId) roles.others i
      = g.ensureNode (Graph.cellAt i roles.source) >>= fun g =>
        g.ensureNode (Graph.cellAt i roles.target) >>= fun g =>
          g.perform (.addEdge (Graph.cellAt i roles.edgeId) (Graph.cellAt i roles.source)
            (Graph.cellAt i roles.target)) (roles.attributesAt i) := by
  unfold Graph.addRow
  simp only [describedAttributes_eq named i]
  rfl

/-- **To add the edge of a row is to make the requests for what the row tells of.** -/
theorem addRow_eq (named : ∀ c ∈ roles.others, ∃ s, c.name = .str s)
    (hid : ∃ k, (Graph.cellAt i roles.edgeId).key? = some k)
    (hsource : ∃ k, (Graph.cellAt i roles.source).key? = some k)
    (htarget : ∃ k, (Graph.cellAt i roles.target).key? = some k) (g : Graph) :
    g.addRow roles.source roles.target (some roles.edgeId) roles.others i
      = g.requestRow (roles.recordAt i) := by
  obtain ⟨j, hid⟩ := hid
  obtain ⟨k, hsource⟩ := hsource
  obtain ⟨l, htarget⟩ := htarget
  unfold Graph.requestRow EdgeRecord.request recordAt
  rw [addRow_eq_perform named]
  simp only [Value.asName_value hid, Value.asName_value hsource, Value.asName_value htarget]

end ColumnRoles

/-! ## §3. The rows of the table of a graph. -/

namespace Table.Shows

variable {t : Table} {records : List EdgeRecord} {r : EdgeRecord} {roles : ColumnRoles}
  {c : NamedColumn} {k : Key} {v : Value} {i : Nat}

theorem column?_eq (h : t.Shows records) (s : String)
    (hs : .text s ∈ Graph.identityColumns.map (·.key)) :
    ∃ c ∈ t.columns, c.name.key? = some (.text s) ∧ t.column? (.str s) = .ok (some c) := by
  obtain ⟨c, hc, hkey⟩ := h.complete _ (.inl hs)
  have hfound : (t.columns.find? fun c => c.name.key? == some (.text s)).isSome = true :=
    List.find?_isSome.2 ⟨c, hc, by rw [hkey, beq_self_eq_true]⟩
  obtain ⟨d, hd⟩ := Option.isSome_iff_exists.1 hfound
  refine ⟨d, List.mem_of_find?_eq_some hd, by simpa using List.find?_some hd, ?_⟩
  exact congrArg Except.ok hd

/-- The columns of the table of a graph have their roles, and in these they are read. -/
theorem exists_roles (h : t.Shows records) (directed : Bool) : ∃ roles : ColumnRoles,
    roles.Of t ∧ Graph.ofTable t { TableReading.standard with directed := directed }
      = (List.range t.height).foldlM
        (Graph.addRow roles.source roles.target (some roles.edgeId) roles.others)
        (Graph.empty directed) := by
  obtain ⟨source, source_mem, source_key, hsource⟩ := h.column?_eq "source" (by decide)
  obtain ⟨target, target_mem, target_key, htarget⟩ := h.column?_eq "target" (by decide)
  obtain ⟨edgeId, edgeId_mem, edgeId_key, hid⟩ := h.column?_eq "id" (by decide)
  refine ⟨⟨source, target, edgeId, _⟩,
    ⟨source_mem, source_key, target_mem, target_key, edgeId_mem, edgeId_key, rfl⟩, ?_⟩
  -- all three columns are there, so that an id is read off its column
  have hsource' : Graph.requiredColumn t (.str "source") = .ok source := by
    unfold Graph.requiredColumn
    rw [hsource]
    rfl
  have htarget' : Graph.requiredColumn t (.str "target") = .ok target := by
    unfold Graph.requiredColumn
    rw [htarget]
    rfl
  show (Graph.requiredColumn t (.str "source") >>= fun a =>
    Graph.requiredColumn t (.str "target") >>= fun b => t.column? (.str "id") >>= fun c =>
      (List.range t.height).foldlM (Graph.addRow a b c _) _) = _
  rw [hsource', htarget', hid]
  rfl

theorem kept_cellAt (h : t.Shows records) (hc : c ∈ t.columns) (hk : c.name.key? = some k)
    (hr : records[i]? = some r) :
    Column.Kept ((r.row.get? k).getD (.nan 0)) (Graph.cellAt i c) := by
  obtain ⟨hlength, hkept⟩ := List.forall₂_iff_get.1 (h.kept c hc k hk)
  obtain ⟨hi, rfl⟩ := List.getElem?_eq_some_iff.1 hr
  have hi' : i < c.cells.length := hlength ▸ hi
  have hcell : Graph.cellAt i c = c.cells.get ⟨i, hi'⟩ := by
    unfold Graph.cellAt
    rw [List.getElem?_eq_getElem hi']
    rfl
  rw [hcell]
  exact hkept i hi hi'

theorem cellAt_of_some (h : t.Shows records) (hc : c ∈ t.columns) (hk : c.name.key? = some k)
    (hr : records[i]? = some r) (hget : r.row.get? k = some v) (hv : v.IsFirm) :
    Column.isMissing (Graph.cellAt i c) = false ∧ (Graph.cellAt i c).key? = v.key? := by
  have hkept := h.kept_cellAt hc hk hr
  rw [hget, Option.getD_some] at hkept
  exact ⟨hkept.isMissing_eq.trans hv.isMissing, hkept.key?_eq hv.isMissing⟩

theorem cellAt_of_none (h : t.Shows records) (hc : c ∈ t.columns) (hk : c.name.key? = some k)
    (hr : records[i]? = some r) (hget : r.row.get? k = none) :
    Column.isMissing (Graph.cellAt i c) = true := by
  have hkept := h.kept_cellAt hc hk hr
  rw [hget, Option.getD_none] at hkept
  exact hkept.isMissing_eq

theorem named_others (h : t.Shows records) (hroles : roles.Of t) :
    ∀ c ∈ roles.others, ∃ s, c.name = .str s := fun c hc => h.named c (hroles.mem_columns hc)

theorem apart_others (h : t.Shows records) (hroles : roles.Of t) :
    (roles.others.map (·.name.key?)).Nodup := by
  rw [hroles.others_eq]
  exact h.apart.sublist (List.filter_sublist.map _)

/-- A row tells of the attributes that its edge has, and of no other. -/
theorem rel_attributesAt (h : t.Shows records) (hroles : roles.Of t) (hr : records[i]? = some r)
    (htab : r.Tabular) (k : Key) : Option.Rel (fun v w : Value => w.key? = v.key?)
      (r.attributes.get? k) ((roles.attributesAt i).get? k) := by
  have hattributes {v : Value} := ColumnRoles.get?_attributesAt (i := i) (k := k) (v := v)
    (h.named_others hroles) (h.apart_others hroles)
  cases hget : r.attributes.get? k with
  | some v =>
    have hcontains : r.attributes.contains k = true := Catalog.contains_iff_get?.2 ⟨v, hget⟩
    have hout : k ∉ Graph.identityColumns.map (·.key) := fun hk =>
      absurd hcontains (by simp [htab.not_contains hk])
    obtain ⟨c, hc, hk⟩ := h.complete k (.inr ⟨r, List.mem_of_getElem? hr, hcontains⟩)
    have hrow : r.row.get? k = some v := (htab.get?_row_of_not_mem hout).trans hget
    have hcell := h.cellAt_of_some hc hk hr hrow (htab.isFirm_of_get?_row hrow)
    have hread : (roles.attributesAt i).get? k = some (Graph.cellAt i c) :=
      hattributes.2 ⟨c, (hroles.mem_others hk).2 ⟨hc, hout⟩, hk, rfl, hcell.1⟩
    rw [hread]
    exact .some hcell.2
  | none =>
    -- the edge has no such attribute, so there is a gap in its row
    have hread : (roles.attributesAt i).get? k = none := by
      rw [Option.eq_none_iff_forall_ne_some]
      intro w hw
      obtain ⟨c, hc, hk, rfl, hpresent⟩ := hattributes.1 hw
      obtain ⟨hc, hout⟩ := (hroles.mem_others hk).1 hc
      have hrow : r.row.get? k = none := (htab.get?_row_of_not_mem hout).trans hget
      exact absurd ((h.cellAt_of_none hc hk hr hrow).symm.trans hpresent) (by simp)
    rw [hread]
    exact .none

/-- **A row that is read tells what its edge has.** -/
theorem alike (h : t.Shows records) (hroles : roles.Of t) (hr : records[i]? = some r)
    (htab : r.Tabular) : r.Alike (roles.recordAt i) where
  name := by
    have hget : r.row.get? (.text "id") = some r.name.value := by rw [htab.get?_row, if_pos rfl]
    have hcell := h.cellAt_of_some hroles.edgeId_mem hroles.edgeId_key hr hget htab.name
    exact Value.asName_key (hcell.2.trans r.name.key?_value)
  source := by
    have hget : r.row.get? (.text "source") = some r.source.value := by
      rw [htab.get?_row, if_neg (by decide), if_pos rfl]
    have hcell := h.cellAt_of_some hroles.source_mem hroles.source_key hr hget htab.source
    exact Value.asName_key (hcell.2.trans r.source.key?_value)
  target := by
    have hget : r.row.get? (.text "target") = some r.target.value := by
      rw [htab.get?_row, if_neg (by decide), if_neg (by decide), if_pos rfl]
    have hcell := h.cellAt_of_some hroles.target_mem hroles.target_key hr hget htab.target
    exact Value.asName_key (hcell.2.trans r.target.key?_value)
  attributes := h.rel_attributesAt hroles hr htab

/-- What the rows tell, row by row. -/
theorem forall₂_alike (h : t.Shows records) (hroles : roles.Of t)
    (htab : ∀ r ∈ records, r.Tabular) :
    List.Forall₂ EdgeRecord.Alike records ((List.range t.height).map roles.recordAt) := by
  refine List.forall₂_iff_get.2 ⟨by simp [h.height], fun i hi hi' => ?_⟩
  have hr : records[i]? = some (records.get ⟨i, hi⟩) := List.getElem?_eq_getElem hi
  have hrecord : ((List.range t.height).map roles.recordAt).get ⟨i, hi'⟩ = roles.recordAt i := by
    simp
  rw [hrecord]
  exact h.alike hroles hr (htab _ (List.get_mem _ _))

/-- **To read the table of a graph is to make the requests for edges like its own.** -/
theorem ofTable_eq (h : t.Shows records) (htab : ∀ r ∈ records, r.Tabular) (directed : Bool) :
    ∃ told, List.Forall₂ EdgeRecord.Alike records told
      ∧ Graph.ofTable t { TableReading.standard with directed := directed }
        = told.foldlM Graph.requestRow (Graph.empty directed) := by
  obtain ⟨roles, hroles, hread⟩ := h.exists_roles directed
  refine ⟨_, h.forall₂_alike hroles htab, hread.trans ?_⟩
  have hnamed := h.named_others hroles
  rw [List.foldlM_map]
  refine foldlM_congr fun i hi g => ?_
  have hi : i < records.length := by rw [← h.height]; exact List.mem_range.1 hi
  have hr : records[i]? = some (records.get ⟨i, hi⟩) := List.getElem?_eq_getElem hi
  have htab := htab _ (List.get_mem records ⟨i, hi⟩)
  -- the id and the ends of an edge are never missing
  have hcell : ∀ c ∈ t.columns, ∀ k, c.name.key? = some k →
      k ∈ Graph.identityColumns.map (·.key) → ∃ j, (Graph.cellAt i c).key? = some j := by
    intro c hc k hk hidentity
    obtain ⟨v, hget⟩ := htab.exists_get?_row hidentity
    obtain ⟨j, hj, -⟩ := (htab.isFirm_of_get?_row hget).exists_key
    exact ⟨j, (h.cellAt_of_some hc hk hr hget (htab.isFirm_of_get?_row hget)).2.trans hj⟩
  exact ColumnRoles.addRow_eq hnamed (hcell _ hroles.edgeId_mem _ hroles.edgeId_key (by decide))
    (hcell _ hroles.source_mem _ hroles.source_key (by decide))
    (hcell _ hroles.target_mem _ hroles.target_key (by decide)) g

end Table.Shows

end EvolvingGraph
